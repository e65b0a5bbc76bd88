import ElysiumKV.CacheStores
import ElysiumKV.ManifestPayload

/-!
# Encrypted objects

Chunk `k` of a sealed object stands at `k` times the size of a sealed chunk, so a read opens the
chunks that were sealed (`Addressable.read_eq`).
-/

namespace ElysiumKV

open List

/-- `EncryptedBlobStore` for one object. -/
structure EncryptedObject where
  cipher : ObjectCipher
  objectName : Bytes
  objectId : ℕ
  logicalBytes : ℕ

namespace EncryptedObject

/-- `chunk_aad`: chunk zero is bound to the length as well. -/
def chunkAad (objectId chunk logicalBytes : ℕ) : Bytes :=
  putFixed64 objectId ++ (putFixed64 chunk ++ if chunk = 0 then putFixed64 logicalBytes else [])

/-- `chunk_count`, in 64-bit arithmetic. -/
def chunkCount (logicalBytes chunkBytes : ℕ) : ℕ :=
  (logicalBytes + chunkBytes - 1) % 2 ^ 64 / chunkBytes

/-- `chunk_plain_bytes`. -/
def chunkPlainBytes (k logicalBytes chunkBytes : ℕ) : ℕ :=
  min chunkBytes (logicalBytes - k * chunkBytes)

/-- `physical_size`. -/
def physicalSize (logicalBytes chunkBytes overheadBytes : ℕ) : ℕ :=
  (logicalBytes + chunkCount logicalBytes chunkBytes * overheadBytes) % 2 ^ 64

/-- The plaintext of a chunk. -/
def piece (plaintext : Bytes) (chunkBytes k : ℕ) : Bytes :=
  (plaintext.drop (k * chunkBytes)).take (chunkPlainBytes k plaintext.length chunkBytes)

/-- The loop of both directions: `count` chunks from `k` on, up to a failure. -/
def chunkLoop (chunk : ℕ → Except Status Bytes) : ℕ → ℕ → Except Status Bytes
  | 0, _ => .ok []
  | count + 1, k => match chunk k with
    | .error status => .error status
    | .ok bytes => match chunkLoop chunk count (k + 1) with
      | .error status => .error status
      | .ok others => .ok (bytes ++ others)

/-- `seal_object`, of `count` chunks from `k` on. -/
def sealFrom (cipher : ObjectCipher) (objectId : ℕ) (plaintext : Bytes) :
    ℕ → ℕ → Except Status Bytes :=
  chunkLoop fun k => cipher.sealChunk k (piece plaintext cipher.chunkBytes k)
    (chunkAad objectId k plaintext.length)

/-- `seal_object`. -/
def sealObject (cipher : ObjectCipher) (objectId : ℕ) (plaintext : Bytes) : Except Status Bytes :=
  sealFrom cipher objectId plaintext (chunkCount plaintext.length cipher.chunkBytes) 0

variable (o : EncryptedObject)

/-- The size of a sealed chunk. -/
def stride : ℕ := o.cipher.chunkBytes + o.cipher.overheadBytes

/-- The length of a sealed chunk. -/
def sealedLen (k : ℕ) : ℕ :=
  chunkPlainBytes k o.logicalBytes o.cipher.chunkBytes + o.cipher.overheadBytes

/-- Chunk `k` in what was fetched from chunk `first` on. -/
def slotIn (fetched : Bytes) (first k : ℕ) : Bytes :=
  (fetched.drop ((k - first) * o.stride % 2 ^ 64)).take (o.sealedLen k)

/-- What `read` opens: `count` chunks from `k` on. -/
def openFrom (fetched : Bytes) (first : ℕ) : ℕ → ℕ → Except Status Bytes :=
  chunkLoop fun k => o.cipher.openChunk k (o.slotIn fetched first k)
    (chunkAad o.objectId k o.logicalBytes)

/-- How many bytes a read returns. -/
def want (offset len : ℕ) : ℕ :=
  if len = readToEnd ∨ o.logicalBytes - offset < len then o.logicalBytes - offset else len

/-- The first chunk of a range. -/
def first (offset : ℕ) : ℕ := offset / o.cipher.chunkBytes

/-- The last chunk of a range. -/
def last (offset len : ℕ) : ℕ := (offset + o.want offset len - 1) / o.cipher.chunkBytes

/-- `physical_begin`; one remainder at the end is that of wrapping at every step. -/
def physicalBegin (offset : ℕ) : ℕ := o.first offset * o.stride % 2 ^ 64

/-- `physical_end`. -/
def physicalEnd (offset len : ℕ) : ℕ :=
  (o.last offset len * o.stride + o.sealedLen (o.last offset len)) % 2 ^ 64

/-- `physical_end - physical_begin` -/
def physicalLength (offset len : ℕ) : ℕ :=
  (o.physicalEnd offset len + 2 ^ 64 - o.physicalBegin offset) % 2 ^ 64

/-- `read`. -/
def read (contents : Bytes → Option Bytes) (fault : Option Failure) (name : Bytes)
    (offset len : ℕ) : Except Status Bytes :=
  if name ≠ o.objectName then .error .config
  else if o.logicalBytes ≤ offset ∨ o.want offset len = 0 then .ok []
  else
    match delegateGet contents fault o.objectName (o.physicalBegin offset)
        (o.physicalLength offset len) with
    | .error status => .error status
    | .ok fetched =>
      if fetched.length ≠ o.physicalLength offset len then .error .corrupt
      else match o.openFrom fetched (o.first offset)
          (o.last offset len - o.first offset + 1) (o.first offset) with
        | .error status => .error status
        | .ok plaintext =>
          .ok ((plaintext.drop (offset - o.first offset * o.cipher.chunkBytes)).take
            (o.want offset len))

/-- Its chunks can be addressed with 64 bits. -/
structure Addressable : Prop where
  positive : 0 < o.cipher.chunkBytes
  counted : chunkCount o.logicalBytes o.cipher.chunkBytes =
    (o.logicalBytes + o.cipher.chunkBytes - 1) / o.cipher.chunkBytes
  placed : o.logicalBytes + (o.logicalBytes + o.cipher.chunkBytes - 1) / o.cipher.chunkBytes *
    o.cipher.overheadBytes < 2 ^ 64

variable {o} {cipher : ObjectCipher} {objectId : ℕ} {plaintext sealed : Bytes} {k offset len : ℕ}

theorem length_piece (plaintext : Bytes) (chunkBytes k : ℕ) :
    (piece plaintext chunkBytes k).length = chunkPlainBytes k plaintext.length chunkBytes := by
  rw [piece, length_take, length_drop]
  exact min_eq_left (min_le_right _ _)

theorem chunkLoop_succ {chunk : ℕ → Except Status Bytes} {count : ℕ} {out : Bytes}
    (h : chunkLoop chunk (count + 1) k = .ok out) : ∃ bytes others, chunk k = .ok bytes ∧
      chunkLoop chunk count (k + 1) = .ok others ∧ out = bytes ++ others := by
  unfold chunkLoop at h
  split at h
  · cases h
  · split at h
    · cases h
    · exact ⟨_, _, ‹_›, ‹_›, (Except.ok.inj h).symm⟩

theorem sealFrom_slot {reopened : ObjectCipher} (hinv : reopened.Inverts cipher) {count : ℕ}
    (hseal : sealFrom cipher objectId plaintext count k = .ok sealed)
    (hcount : (k + count) * cipher.chunkBytes < plaintext.length + cipher.chunkBytes) :
    sealed.length = min (count * cipher.chunkBytes) (plaintext.length - k * cipher.chunkBytes) +
      count * cipher.overheadBytes ∧
    ∀ i < count, reopened.openChunk (k + i)
      ((sealed.drop (i * (cipher.chunkBytes + cipher.overheadBytes))).take
        (chunkPlainBytes (k + i) plaintext.length cipher.chunkBytes + cipher.overheadBytes))
      (chunkAad objectId (k + i) plaintext.length) =
        .ok (piece plaintext cipher.chunkBytes (k + i)) := by
  induction count generalizing k sealed with
  | zero =>
    obtain rfl := Except.ok.inj hseal
    simp
  | succ count ih =>
    obtain ⟨head, others, hfirst, hrest, rfl⟩ := chunkLoop_succ hseal
    obtain ⟨hlength, hopen⟩ := hinv.sealed _ _ _ _ hfirst
    obtain ⟨hothers, hslots⟩ := ih hrest (by rwa [Nat.add_right_comm, Nat.add_assoc])
    rw [length_piece, chunkPlainBytes] at hlength
    rw [Nat.succ_mul] at hothers
    refine ⟨?_, fun i hi => ?_⟩
    · rw [length_append, hlength, hothers, Nat.succ_mul, Nat.succ_mul]
      omega
    · cases i with
      | zero =>
        rw [Nat.zero_mul, drop_zero, Nat.add_zero, chunkPlainBytes, ← hlength, take_left]
        exact hopen
      | succ i =>
        -- Another chunk follows, so this one is full.
        have hfull : (k + 2) * cipher.chunkBytes ≤ (k + (count + 1)) * cipher.chunkBytes :=
          Nat.mul_le_mul_right _ (by omega)
        rw [Nat.add_mul] at hfull
        have hstride : head.length = cipher.chunkBytes + cipher.overheadBytes := by omega
        rw [Nat.succ_mul, Nat.add_comm (i * _), ← drop_drop, ← hstride, drop_left,
          hstride, ← Nat.add_assoc k i, Nat.add_right_comm]
        exact hslots i (by omega)

theorem piece_eq (plaintext : Bytes) (chunkBytes k : ℕ) :
    piece plaintext chunkBytes k = (plaintext.drop (k * chunkBytes)).take chunkBytes := by
  rw [piece, chunkPlainBytes, ← length_drop, ← take_eq_take_min]

theorem openFrom_eq {fetched : Bytes} {first count : ℕ} (plaintext : Bytes)
    (hopen : ∀ i < count, o.cipher.openChunk (k + i) (o.slotIn fetched first (k + i))
      (chunkAad o.objectId (k + i) o.logicalBytes) =
        .ok (piece plaintext o.cipher.chunkBytes (k + i))) :
    o.openFrom fetched first count k =
      .ok ((plaintext.drop (k * o.cipher.chunkBytes)).take (count * o.cipher.chunkBytes)) := by
  induction count generalizing k with
  | zero => simp [openFrom, chunkLoop]
  | succ count ih =>
    have hrest := ih (k := k + 1) fun i hi => by
      rw [Nat.add_right_comm, Nat.add_assoc]
      exact hopen (i + 1) (by omega)
    have hfirst := hopen 0 (by omega)
    rw [Nat.add_zero, piece_eq] at hfirst
    unfold openFrom at hrest ⊢
    rw [chunkLoop, hfirst, hrest, Nat.succ_mul k, Nat.succ_mul count, Nat.add_comm (count * _),
      take_add, drop_drop]

theorem opens_of_openFrom {fetched out : Bytes} {first count : ℕ}
    (h : o.openFrom fetched first count k = .ok out) {i : ℕ} (hi : i < count) :
    ∃ p, o.cipher.openChunk (k + i) (o.slotIn fetched first (k + i))
      (chunkAad o.objectId (k + i) o.logicalBytes) = .ok p := by
  induction count generalizing k i out with
  | zero => omega
  | succ count ih =>
    obtain ⟨plain, others, hplain, hrest, -⟩ := chunkLoop_succ h
    cases i with
    | zero => exact ⟨plain, hplain⟩
    | succ i =>
      rw [← Nat.add_assoc, Nat.add_right_comm]
      exact ih hrest (by omega)

/-- The read opens the chunk. -/
def Touches (o : EncryptedObject) (offset len k : ℕ) : Prop :=
  offset < o.logicalBytes ∧ o.want offset len ≠ 0 ∧ o.first offset ≤ k ∧ k ≤ o.last offset len

theorem want_le (o : EncryptedObject) (offset len : ℕ) :
    o.want offset len ≤ o.logicalBytes - offset := by
  unfold want
  split_ifs <;> omega

theorem last_mul_lt (hoffset : offset < o.logicalBytes) (len : ℕ) :
    o.last offset len * o.cipher.chunkBytes < o.logicalBytes := by
  have hle := Nat.div_mul_le_self (offset + o.want offset len - 1) o.cipher.chunkBytes
  have hwant := o.want_le offset len
  unfold last
  omega

theorem first_le_last (hwant : o.want offset len ≠ 0) : o.first offset ≤ o.last offset len :=
  Nat.div_le_div_right (by omega)

theorem Addressable.lt_count (h : o.Addressable) (hk : k * o.cipher.chunkBytes < o.logicalBytes) :
    k < (o.logicalBytes + o.cipher.chunkBytes - 1) / o.cipher.chunkBytes := by
  rw [Nat.lt_iff_add_one_le, Nat.le_div_iff_mul_le h.positive, Nat.succ_mul]
  omega

theorem Addressable.slot_end_le (h : o.Addressable)
    (hk : k * o.cipher.chunkBytes < o.logicalBytes) :
    k * o.stride + o.sealedLen k ≤ o.logicalBytes + (o.logicalBytes + o.cipher.chunkBytes - 1) /
      o.cipher.chunkBytes * o.cipher.overheadBytes := by
  have hover := Nat.mul_le_mul_right o.cipher.overheadBytes (Nat.succ_le_of_lt (h.lt_count hk))
  rw [Nat.succ_mul] at hover
  rw [stride, sealedLen, chunkPlainBytes, Nat.mul_add]
  omega

theorem slot_end_le_last (hk : k ≤ o.last offset len) :
    k * o.stride + o.sealedLen k ≤
      o.last offset len * o.stride + o.sealedLen (o.last offset len) := by
  rcases hk.eq_or_lt with rfl | hlt
  · rfl
  · have hle := Nat.mul_le_mul_right o.stride (Nat.succ_le_of_lt hlt)
    have hfull : o.sealedLen k ≤ o.stride := by
      rw [sealedLen, stride, chunkPlainBytes]
      omega
    rw [Nat.succ_mul] at hle
    omega

theorem Addressable.physicalBegin_eq (h : o.Addressable) (hoffset : offset < o.logicalBytes)
    (hwant : o.want offset len ≠ 0) :
    o.physicalBegin offset = o.first offset * o.stride ∧
      o.physicalBegin offset + o.physicalLength offset len =
        o.last offset len * o.stride + o.sealedLen (o.last offset len) := by
  have hlt := (h.slot_end_le (last_mul_lt hoffset len)).trans_lt h.placed
  have hle := Nat.mul_le_mul_right o.stride (first_le_last hwant)
  rw [physicalLength, physicalEnd, physicalBegin]
  omega

theorem Addressable.slotIn_eq (h : o.Addressable) (htouches : o.Touches offset len k)
    (stored : Bytes) :
    o.slotIn ((stored.drop (o.physicalBegin offset)).take (o.physicalLength offset len))
        (o.first offset) k = (stored.drop (k * o.stride)).take (o.sealedLen k) := by
  obtain ⟨hoffset, hwant, hfirst, hlast⟩ := htouches
  obtain ⟨hbegin, hlength⟩ := h.physicalBegin_eq hoffset hwant
  have hend := slot_end_le_last hlast
  have hlt := (h.slot_end_le (last_mul_lt hoffset len)).trans_lt h.placed
  have hplace := Nat.mul_le_mul_right o.stride hfirst
  rw [slotIn, Nat.sub_mul, Nat.mod_eq_of_lt (by omega), drop_take, drop_drop,
    take_take, hbegin, Nat.add_sub_cancel' hplace, min_eq_left (by omega)]

variable {contents : Bytes → Option Bytes} {stored : Bytes}

theorem opens_of_read {fault : Option Failure} {name out : Bytes}
    (h : o.read contents fault name offset len = .ok out) (htouches : o.Touches offset len k) :
    ∃ slot p, o.cipher.openChunk k slot (chunkAad o.objectId k o.logicalBytes) = .ok p ∧
      (o.Addressable → ∃ stored ∈ contents o.objectName,
        slot = (stored.drop (k * o.stride)).take (o.sealedLen k) ∧
        k * o.stride + o.sealedLen k ≤ stored.length) := by
  obtain ⟨hoffset, hwant, hfirst, hlast⟩ := id htouches
  unfold read at h
  have hsome : ¬ (o.logicalBytes ≤ offset ∨ o.want offset len = 0) := by simp [hwant, hoffset]
  rw [if_neg hsome] at h
  split_ifs at h
  split at h
  · cases h
  · rename_i fetched hget
    split_ifs at h with hlength
    split at h
    · cases h
    · rename_i plaintext hopened
      obtain ⟨p, hp⟩ := opens_of_openFrom hopened (i := k - o.first offset) (by omega)
      rw [Nat.add_sub_cancel' hfirst] at hp
      refine ⟨_, p, hp, fun haddr => ?_⟩
      obtain ⟨stored, hstored, hfetched⟩ := mem_of_delegateGet hget
      have hstart := prefix_iff_eq_take.1 (hfetched ▸ readRange_isPrefix stored
        (o.physicalBegin offset) (o.physicalLength offset len))
      rw [not_not.1 hlength] at hstart
      obtain ⟨hbegin, hend⟩ := haddr.physicalBegin_eq hoffset hwant
      refine ⟨stored, hstored, by rw [hstart, haddr.slotIn_eq htouches], ?_⟩
      have hfits : o.physicalLength offset len ≤ stored.length - o.physicalBegin offset := by
        rw [← not_not.1 hlength, ← length_drop, hstart]
        exact length_take_le' _ _
      have hpos : 0 < o.physicalLength offset len := by
        have hplace := Nat.mul_le_mul_right o.stride (first_le_last hwant)
        have hlt := last_mul_lt hoffset len
        have hpositive := haddr.positive
        rw [sealedLen, chunkPlainBytes] at hend
        omega
      exact (slot_end_le_last hlast).trans (hend ▸ by omega)

theorem take_want (plaintext : Bytes) (h : o.logicalBytes = plaintext.length) (offset len : ℕ) :
    (plaintext.drop offset).take (o.want offset len) = readRange plaintext offset len := by
  unfold want readRange
  have hlength : (plaintext.drop offset).length = o.logicalBytes - offset := by
    rw [length_drop, h]
  split_ifs with hlong hend hend
  · exact take_of_length_le hlength.le
  · rw [take_of_length_le hlength.le, take_of_length_le (by omega)]
  · exact absurd (.inl hend) hlong
  · rfl

theorem Addressable.read_eq (h : o.Addressable) (hplain : o.logicalBytes = plaintext.length)
    (hstored : contents o.objectName = some stored)
    (hlength : stored.length = o.logicalBytes + (o.logicalBytes + o.cipher.chunkBytes - 1) /
      o.cipher.chunkBytes * o.cipher.overheadBytes)
    (hslots : ∀ k, k * o.cipher.chunkBytes < o.logicalBytes → o.cipher.openChunk k
      ((stored.drop (k * o.stride)).take (o.sealedLen k)) (chunkAad o.objectId k o.logicalBytes) =
        .ok (piece plaintext o.cipher.chunkBytes k)) (offset len : ℕ) :
    o.read contents none o.objectName offset len = .ok (readRange plaintext offset len) := by
  rw [read, if_neg (by simp), ← take_want plaintext hplain]
  split_ifs with hshort
  · rcases hshort with hshort | hshort
    · rw [drop_eq_nil_of_le (hplain ▸ hshort), take_nil]
    · rw [hshort, take_zero]
  push Not at hshort
  obtain ⟨hoffset, hwant⟩ := hshort
  obtain ⟨hbegin, hend⟩ := h.physicalBegin_eq hoffset hwant
  have hlast := last_mul_lt hoffset len
  have hinside := h.slot_end_le hlast
  have hfetched : readRange stored (o.physicalBegin offset) (o.physicalLength offset len) =
      (stored.drop (o.physicalBegin offset)).take (o.physicalLength offset len) := by
    have hplaced := h.placed
    unfold readRange
    split_ifs with hall
    · rw [take_of_length_le]
      rw [length_drop, hall, readToEnd]
      omega
    · rfl
  have hle := first_le_last hwant
  simp only [delegateGet, hstored, hfetched]
  rw [if_neg, openFrom_eq plaintext]
  · have hlarge : offset + o.want offset len ≤
        o.last offset len * o.cipher.chunkBytes + o.cipher.chunkBytes := by
      have := Nat.lt_div_mul_add (a := offset + o.want offset len - 1) h.positive
      unfold last
      omega
    have hsmall := Nat.div_mul_le_self offset o.cipher.chunkBytes
    have hspan : (o.last offset len - o.first offset + 1) * o.cipher.chunkBytes =
        o.last offset len * o.cipher.chunkBytes + o.cipher.chunkBytes -
          o.first offset * o.cipher.chunkBytes := by
      rw [Nat.succ_mul, Nat.sub_mul, Nat.sub_add_comm (Nat.mul_le_mul_right _ hle)]
    have hskip : o.first offset * o.cipher.chunkBytes +
        (offset - o.first offset * o.cipher.chunkBytes) = offset := Nat.add_sub_cancel' hsmall
    rw [hspan]
    dsimp only
    rw [drop_take, drop_drop, take_take, hskip, min_eq_left]
    unfold first
    omega
  · intro i hi
    rw [h.slotIn_eq ⟨hoffset, hwant, by omega, by omega⟩]
    exact hslots _ (lt_of_le_of_lt (Nat.mul_le_mul_right _ (by omega)) hlast)
  · rw [not_not, length_take, length_drop, hlength]
    exact min_eq_left (Nat.le_sub_of_add_le' (hend.le.trans hinside))

theorem putFixed64_inj {n n' : ℕ} (hn : n < 2 ^ 64) (hn' : n' < 2 ^ 64)
    (h : putFixed64 n = putFixed64 n') : n = n' := by
  have := congrArg Codec.decodeFixed h
  rwa [putFixed64, putFixed64, Codec.decodeFixed_putFixed_of_lt hn,
    Codec.decodeFixed_putFixed_of_lt hn'] at this

/-- Three bytes under a key that sealed nothing else. -/
def threeBytes : List (ℕ × Bytes × Bytes) :=
  [(0, chunkAad 7 0 3, [1, 2]), (1, chunkAad 7 1 3, [3])]

/-- Chunks of two bytes. -/
def threeCipher : ObjectCipher where
  chunkBytes := 2
  overheadBytes := 1
  sealChunk k plain aad :=
    if (k, aad, plain) ∈ threeBytes then .ok (plain ++ [UInt8.ofNat k]) else .error .io
  openChunk k slot aad :=
    if (k, aad, slot.dropLast) ∈ threeBytes ∧ slot.getLast? = some (UInt8.ofNat k) then
      .ok slot.dropLast
    else .error .corrupt

/-- Chunks so large that none is counted. -/
def wideCipher : ObjectCipher where
  chunkBytes := 2 ^ 64 - 1
  overheadBytes := 0
  sealChunk _ plain _ := .ok plain
  openChunk _ slot _ := .ok slot

end EncryptedObject

end ElysiumKV
