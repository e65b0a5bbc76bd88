import ElysiumKV.Format
import ElysiumKV.Lib.Keyed
import Mathlib.Algebra.Order.BigOperators.Group.List

/-!
# Cached ranges

Which byte ranges of which objects are held, by last use; a `Payload` has the bytes, with the law
that what is stored is loaded again. `Coherent` ties index, payload and objects together; every
operation keeps it, and a lookup that answers gives the object's bytes (`lookup_eq`).
-/

namespace ElysiumKV

open List

/-! ### Reads of an object -/

/-- `BlobStore::kReadToEnd` -/
def readToEnd : ℕ := 2 ^ 64 - 1

/-- A read is truncated at the object's end. -/
def readRange (data : Bytes) (offset len : ℕ) : Bytes :=
  if len = readToEnd then data.drop offset else (data.drop offset).take len

theorem readRange_isPrefix (data : Bytes) (offset len : ℕ) :
    readRange data offset len <+: data.drop offset := by
  unfold readRange
  split_ifs
  · exact prefix_rfl
  · exact take_prefix _ _

/-- What is fetched. -/
structure FetchPlan where
  offset : ℕ
  len : ℕ
deriving DecidableEq, Repr

/-- `plan_fetch`, over 64-bit integers. -/
def planFetch (offset len granularity : ℕ) : FetchPlan :=
  if granularity = 0 then ⟨offset, len⟩
  else
    let aligned := offset - offset % granularity
    if len = readToEnd then ⟨aligned, readToEnd⟩
    else
      let stop := (offset + len) % 2 ^ 64
      let rounded := if stop % granularity = 0 then stop
        else (stop + (granularity - stop % granularity)) % 2 ^ 64
      let rounded := if rounded < stop then stop else rounded
      ⟨aligned, (rounded + 2 ^ 64 - aligned) % 2 ^ 64⟩

/-- The next multiple of the granularity, if any. -/
def roundUp (n granularity : ℕ) : ℕ :=
  if n % granularity = 0 then n else n + (granularity - n % granularity)

/-- The far edge, rounded up, is a 64-bit number. -/
def InRange (offset len granularity : ℕ) : Prop :=
  offset < 2 ^ 64 ∧ (len = readToEnd ∨ roundUp (offset + len) granularity < 2 ^ 64)

theorem le_roundUp (n granularity : ℕ) : n ≤ roundUp n granularity := by
  unfold roundUp
  split_ifs <;> omega

variable {offset len : ℕ}

theorem InRange.add_lt {granularity : ℕ} (h : InRange offset len granularity)
    (hlen : len ≠ readToEnd) : offset + len < 2 ^ 64 :=
  (le_roundUp _ _).trans_lt (h.2.resolve_left hlen)

theorem planFetch_covers {granularity : ℕ} (h : InRange offset len granularity) :
    (planFetch offset len granularity).offset ≤ offset ∧
      ((planFetch offset len granularity).len = readToEnd ∨ len ≠ readToEnd ∧
        offset + len ≤
          (planFetch offset len granularity).offset + (planFetch offset len granularity).len) := by
  unfold planFetch
  by_cases hgranularity : granularity = 0
  · rw [if_pos hgranularity]
    exact ⟨le_rfl, or_iff_not_imp_left.2 fun hlen => ⟨hlen, le_rfl⟩⟩
  · rw [if_neg hgranularity]
    dsimp only
    by_cases hlen : len = readToEnd
    · rw [if_pos hlen]
      exact ⟨Nat.sub_le _ _, .inl rfl⟩
    · rw [if_neg hlen]
      have hrounded := h.2.resolve_left hlen
      have hsum := h.add_lt hlen
      have hle := le_roundUp (offset + len) granularity
      rw [Nat.mod_eq_of_lt hsum]
      have hround : (if (offset + len) % granularity = 0 then offset + len
          else (offset + len + (granularity - (offset + len) % granularity)) % 2 ^ 64) =
            roundUp (offset + len) granularity := by
        unfold roundUp at hrounded ⊢
        split_ifs with hmod
        · rfl
        · rw [if_neg hmod] at hrounded
          exact Nat.mod_eq_of_lt hrounded
      rw [hround, if_neg (by omega)]
      have haligned := Nat.sub_le offset (offset % granularity)
      have hmod : (roundUp (offset + len) granularity + 2 ^ 64 -
          (offset - offset % granularity)) % 2 ^ 64 =
            roundUp (offset + len) granularity - (offset - offset % granularity) := by
        have hshift : roundUp (offset + len) granularity + 2 ^ 64 -
            (offset - offset % granularity) = roundUp (offset + len) granularity -
              (offset - offset % granularity) + 2 ^ 64 := by omega
        rw [hshift, Nat.add_mod_right, Nat.mod_eq_of_lt (by omega)]
      simp only [hmod]
      exact ⟨haligned, .inr ⟨hlen, by omega⟩⟩

/-- A cached range. -/
structure Range where
  offset : ℕ
  size : ℕ
  toEnd : Bool
deriving DecidableEq, Repr

/-- What it gives for a request: fewer bytes only if it runs to the object's end. -/
def Range.wanted (range : Range) (offset len : ℕ) : Option ℕ :=
  if offset < range.offset then none
  else
    let skip := offset - range.offset
    let rest := range.size - min skip range.size
    if range.size < skip ∧ range.toEnd = false then none
    else if len = readToEnd then if range.toEnd then some rest else none
    else if range.size < (skip + len) % 2 ^ 64 then if range.toEnd then some rest else none
    else some len

variable {range : Range}

theorem Range.wanted_eq_some {wanted : ℕ} (h : range.wanted offset len = some wanted) :
    range.offset ≤ offset ∧
      (range.toEnd = true ∧ wanted = range.size - (offset - range.offset) ∧
          (len = readToEnd ∨ range.size < (offset - range.offset + len) % 2 ^ 64) ∨
        len ≠ readToEnd ∧ (offset - range.offset + len) % 2 ^ 64 ≤ range.size ∧ wanted = len) := by
  unfold Range.wanted at h
  by_cases hbefore : offset < range.offset
  · rw [if_pos hbefore] at h
    cases h
  · rw [if_neg hbefore] at h
    dsimp only at h
    refine ⟨by omega, ?_⟩
    split_ifs at h with _ hlen hend hover hend <;> obtain rfl := Option.some.inj h
    · exact .inl ⟨hend, by omega, .inl hlen⟩
    · exact .inl ⟨hend, by omega, .inr hover⟩
    · exact .inr ⟨hlen, by omega, rfl⟩

/-- A range of the object, marked if it reaches the end. -/
structure Range.Of (range : Range) (data bytes : Bytes) : Prop where
  slice : bytes = (data.drop range.offset).take range.size
  size : bytes.length = range.size
  toEnd : range.toEnd = true → data.length ≤ range.offset + range.size

theorem Range.Of.eq_drop {data bytes : Bytes} (h : range.Of data bytes)
    (hend : range.toEnd = true) : bytes = data.drop range.offset := by
  have hlength := h.toEnd hend
  rw [h.slice, take_of_length_le]
  rw [length_drop]
  omega

theorem Range.Of.answer {data bytes : Bytes} (h : range.Of data bytes) {wanted : ℕ}
    (hbound : len = readToEnd ∨ offset + len < 2 ^ 64)
    (hwanted : range.wanted offset len = some wanted) :
    (bytes.drop (offset - range.offset)).take wanted = readRange data offset len := by
  obtain ⟨hle, ⟨hend, rfl, hlen⟩ | ⟨hlen, hwithin, rfl⟩⟩ := Range.wanted_eq_some hwanted
  · have hskip : range.offset + (offset - range.offset) = offset := by omega
    have hsize := h.size
    rw [h.eq_drop hend, length_drop] at hsize
    have htail : (data.drop offset).length = range.size - (offset - range.offset) := by
      rw [length_drop]
      omega
    rw [h.eq_drop hend, drop_drop, hskip, take_of_length_le htail.le, readRange]
    split_ifs with hto
    · rfl
    · have hmod : (offset - range.offset + len) % 2 ^ 64 = offset - range.offset + len :=
        Nat.mod_eq_of_lt (by omega)
      have hover := hlen.resolve_left hto
      rw [take_of_length_le]
      omega
  · have hmod : (offset - range.offset + wanted) % 2 ^ 64 = offset - range.offset + wanted :=
      Nat.mod_eq_of_lt (by omega)
    have hskip : range.offset + (offset - range.offset) = offset := by omega
    rw [readRange, if_neg hlen, h.slice, drop_take, drop_drop, hskip, take_take,
      Nat.min_eq_left (by omega)]

theorem Range.of_readRange (data : Bytes) (offset len : ℕ) :
    Range.Of ⟨offset, (readRange data offset len).length,
      decide (len = readToEnd ∨ (readRange data offset len).length < len)⟩ data
      (readRange data offset len) := by
  unfold readRange
  by_cases hlen : len = readToEnd
  · refine ⟨?_, rfl, fun _ => ?_⟩
    · simp [hlen]
    · simp only [hlen, if_true, length_drop]
      omega
  · refine ⟨?_, rfl, fun hend => ?_⟩
    · simp only [if_neg hlen, length_take, length_drop, ← take_take]
      rw [← length_drop, take_length]
    · simp only [hlen, if_false, false_or, decide_eq_true_eq, length_take, length_drop] at hend ⊢
      omega

/-- An entry of a payload. -/
structure Chunk where
  name : Bytes
  offset : ℕ
  bytes : Bytes
deriving DecidableEq, Repr

namespace Chunks

/-- The bytes at an offset. -/
def find (name : Bytes) (offset : ℕ) (chunks : List Chunk) : Option Bytes :=
  (chunks.find? fun k => k.name = name ∧ k.offset = offset).map Chunk.bytes

/-- An entry replaces one with its key. -/
def store (name : Bytes) (offset : ℕ) (bytes : Bytes) (chunks : List Chunk) : List Chunk :=
  ⟨name, offset, bytes⟩ :: chunks.filter fun k => ¬ (k.name = name ∧ k.offset = offset)

/-- Without an object. -/
def drop (name : Bytes) (chunks : List Chunk) : List Chunk := chunks.filter fun k => k.name ≠ name

/-- The bytes held. -/
def total (chunks : List Chunk) : ℕ := (chunks.map fun k => k.bytes.length).sum

end Chunks

/-- Where cached bytes live, in an environment `ε` and with a budget `β` shared with others;
`charge` is its part of `used`. -/
structure Payload (ε σ β : Type) where
  store : ε → Bytes → ℕ → Bytes → σ → β → Bool × σ × β
  load : ε → Bytes → ℕ → ℕ → ℕ → σ → Option Bytes
  drop : Bytes → σ → β → σ × β
  chunks : σ → List Chunk
  charge : σ → ℕ
  used : β → ℕ
  Wf : σ → Prop
  empty : σ
  chunks_empty : chunks empty = []
  charge_empty : charge empty = 0
  wf_empty : Wf empty
  store_chunks : ∀ e name offset bytes s b,
    chunks (store e name offset bytes s b).2.1 =
      if (store e name offset bytes s b).1 then Chunks.store name offset bytes (chunks s)
      else chunks s
  load_eq : ∀ e name offset skip len s out, load e name offset skip len s = some out →
    ∃ bytes, Chunks.find name offset (chunks s) = some bytes ∧ out = (bytes.drop skip).take len
  drop_chunks : ∀ name s b, chunks (drop name s b).1 = Chunks.drop name (chunks s)
  wf_store : ∀ e name offset bytes s b, Wf s → Wf (store e name offset bytes s b).2.1
  wf_drop : ∀ name s b, Wf s → Wf (drop name s b).1
  balance_store : ∀ e name offset bytes s b, Wf s → charge s ≤ used b →
    used (store e name offset bytes s b).2.2 + charge s =
      used b + charge (store e name offset bytes s b).2.1
  balance_drop : ∀ name s b, Wf s → charge s ≤ used b →
    used (drop name s b).2 + charge s = used b + charge (drop name s b).1

/-- An object's ranges and their bytes. -/
structure CachedObject where
  name : Bytes
  ranges : List Range := []
  bytes : ℕ := 0
deriving DecidableEq, Repr

/-- `RangeCacheCore` with its payload, objects in the order of `recency_`. -/
structure Shard (σ : Type) where
  payload : σ
  maxBytes : ℕ
  objects : List CachedObject := []
  cachedBytes : ℕ := 0

variable {ε σ β : Type}

namespace Shard

/-- The index of an object. -/
def find (c : Shard σ) (name : Bytes) : Option CachedObject :=
  c.objects.find? fun o => o.name = name

/-- The other objects. -/
def others (c : Shard σ) (name : Bytes) : List CachedObject :=
  c.objects.filter fun o => o.name ≠ name

section Core

variable (P : Payload ε σ β)

/-- `drop_object`. -/
def dropObject (name : Bytes) (c : Shard σ) (b : β) : Shard σ × β :=
  match c.find name with
  | none => (c, b)
  | some object =>
    let dropped := P.drop name c.payload b
    ({ c with
        payload := dropped.1
        objects := c.others name
        cachedBytes := c.cachedBytes - object.bytes }, dropped.2)

/-- The object becomes the one used last. -/
def touch (c : Shard σ) (object : CachedObject) : Shard σ :=
  { c with objects := object :: c.others object.name }

/-- `lookup`. -/
def lookup (e : ε) (name : Bytes) (offset len : ℕ) (c : Shard σ) (b : β) :
    Option Bytes × Shard σ × β :=
  match c.find name with
  | none => (none, c, b)
  | some object =>
    match object.ranges.findSome? fun r => (r.wanted offset len).map fun wanted => (r, wanted) with
    | none => (none, c, b)
    | some (range, wanted) =>
      match P.load e name range.offset (offset - range.offset) wanted c.payload with
      | none => (none, dropObject P name c b)
      | some bytes => (some bytes, c.touch object, b)

/-- `make_room`: objects used longest ago go, but not the one inserted into; at most one a round. -/
def makeRoom (size : ℕ) (keep : Bytes) : ℕ → Shard σ → β → Bool × Shard σ × β
  | 0, c, b => (decide (c.cachedBytes + size ≤ c.maxBytes), c, b)
  | rounds + 1, c, b =>
    if c.cachedBytes + size ≤ c.maxBytes then (true, c, b)
    else match c.objects.reverse.find? fun o => o.name ≠ keep with
      | none => (false, c, b)
      | some victim =>
        let dropped := dropObject P victim.name c b
        makeRoom size keep rounds dropped.1 dropped.2

/-- A range replaces one at its offset. -/
def withRange (range : Range) (ranges : List Range) : List Range :=
  if ranges.any fun r => r.offset = range.offset then
    ranges.map fun r => if r.offset = range.offset then range else r
  else ranges ++ [range]

/-- The size recorded there. -/
def sizeAt (offset : ℕ) (ranges : List Range) : ℕ :=
  ((ranges.find? fun r => r.offset = offset).map Range.size).getD 0

/-- The index once a range is stored. -/
def record (name : Bytes) (range : Range) (c : Shard σ) : Shard σ :=
  let object := (c.find name).getD { name }
  let replaced := sizeAt range.offset object.ranges
  { c with
    objects :=
      { name
        ranges := withRange range object.ranges
        bytes := object.bytes - replaced + range.size } :: c.others name
    cachedBytes := c.cachedBytes - replaced + range.size }

/-- `insert`. -/
def insert (e : ε) (name : Bytes) (offset : ℕ) (bytes : Bytes) (toEnd : Bool) (c : Shard σ)
    (b : β) : Shard σ × β :=
  if c.maxBytes < bytes.length then (c, b)
  else
    let room := makeRoom P bytes.length name c.objects.length c b
    if room.1 then
      let stored := P.store e name offset bytes room.2.1.payload room.2.2
      let c := { room.2.1 with payload := stored.2.1 }
      if stored.1 then (c.record name ⟨offset, bytes.length, toEnd⟩, stored.2.2)
      else (c, stored.2.2)
    else room.2

/-- `invalidate`. -/
def invalidate (name : Bytes) (c : Shard σ) (b : β) : Shard σ × β :=
  match c.find name with
  | none =>
    let dropped := P.drop name c.payload b
    ({ c with payload := dropped.1 }, dropped.2)
  | some _ => dropObject P name c b

end Core

/-! ### What is held -/

/-- No entry of the object. -/
def Lacks (P : Payload ε σ β) (c : Shard σ) (name : Bytes) : Prop :=
  ∀ k ∈ P.chunks c.payload, k.name ≠ name

section Lacks

variable {P : Payload ε σ β} {c : Shard σ} {b : β} {name : Bytes}

theorem Lacks.dropObject (h : Lacks P c name) (n : Bytes) :
    Lacks P (dropObject P n c b).1 name := by
  unfold Shard.dropObject
  split
  · exact h
  · intro k hk
    rw [P.drop_chunks] at hk
    exact h k (mem_of_mem_filter hk)

theorem Lacks.lookup (h : Lacks P c name) (e : ε) (n : Bytes) (offset len : ℕ) :
    Lacks P (lookup P e n offset len c b).2.1 name := by
  unfold Shard.lookup
  split
  · exact h
  split
  · exact h
  split
  · exact h.dropObject n
  · exact h

theorem Lacks.makeRoom (size : ℕ) (keep : Bytes) (rounds : ℕ) :
    ∀ {c : Shard σ} {b : β}, Lacks P c name →
      Lacks P (makeRoom P size keep rounds c b).2.1 name := by
  induction rounds with
  | zero => exact id
  | succ rounds ih =>
    intro c b h
    unfold Shard.makeRoom
    split_ifs
    · exact h
    · split
      · exact h
      · exact ih (h.dropObject _)

theorem Lacks.insert (h : Lacks P c name) (e : ε) {n : Bytes} (hn : n ≠ name) (offset : ℕ)
    (bytes : Bytes) (toEnd : Bool) : Lacks P (insert P e n offset bytes toEnd c b).1 name := by
  unfold Shard.insert
  have hroom := Lacks.makeRoom bytes.length n c.objects.length (b := b) h
  generalize Shard.makeRoom P bytes.length n c.objects.length c b = room at hroom
  have hstored : ∀ k ∈ P.chunks (P.store e n offset bytes room.2.1.payload room.2.2).2.1,
      k.name ≠ name := by
    intro k hk
    rw [P.store_chunks] at hk
    split_ifs at hk
    · rcases mem_cons.1 hk with rfl | hk
      · exact hn
      · exact hroom k (mem_of_mem_filter hk)
    · exact hroom k hk
  dsimp only
  split_ifs
  · exact h
  · exact hstored
  · exact hstored
  · exact hroom

theorem chunks_invalidate (n : Bytes) :
    P.chunks (invalidate P n c b).1.payload = Chunks.drop n (P.chunks c.payload) := by
  unfold Shard.invalidate
  cases hfind : c.find n with
  | none => exact P.drop_chunks ..
  | some object =>
    simp only [Shard.dropObject, hfind]
    exact P.drop_chunks ..

theorem lacks_invalidate : Lacks P (invalidate P name c b).1 name := by
  intro k hk
  rw [chunks_invalidate] at hk
  exact of_decide_eq_true (mem_filter.1 hk).2

theorem Lacks.invalidate (h : Lacks P c name) (n : Bytes) :
    Lacks P (invalidate P n c b).1 name := by
  intro k hk
  rw [chunks_invalidate] at hk
  exact h k (mem_of_mem_filter hk)

theorem Lacks.lookup_eq_none (h : Lacks P c name) (e : ε) (offset len : ℕ) :
    (Shard.lookup P e name offset len c b).1 = none := by
  unfold Shard.lookup
  split
  · rfl
  split
  · rfl
  split
  · rfl
  next bytes hload =>
    obtain ⟨stored, hstored, -⟩ := P.load_eq _ _ _ _ _ _ _ hload
    obtain ⟨k, hk, -⟩ := Option.map_eq_some_iff.1 hstored
    have hkey := List.find?_some hk
    exact absurd (of_decide_eq_true hkey).1 (h k (mem_of_find?_eq_some hk))

end Lacks

/-! ### Coherence -/

/-- Object, offset and size of every range. -/
def entries (objects : List CachedObject) : List (Bytes × ℕ × ℕ) :=
  objects.flatMap fun o => o.ranges.map fun r => (o.name, r.offset, r.size)

/-- The same of a payload's entry. -/
def entryOf (k : Chunk) : Bytes × ℕ × ℕ := (k.name, k.offset, k.bytes.length)

/-- The index counts what the payload holds, which are pieces of the objects. -/
structure Coherent (P : Payload ε σ β) (contents : Bytes → Option Bytes) (c : Shard σ) : Prop where
  names : Keyed.Distinct CachedObject.name c.objects
  offsets : ∀ o ∈ c.objects, Keyed.Distinct Range.offset o.ranges
  bytes : ∀ o ∈ c.objects, o.bytes = (o.ranges.map Range.size).sum
  cached : c.cachedBytes = (c.objects.map CachedObject.bytes).sum
  indexed : ((P.chunks c.payload).map entryOf).Perm (entries c.objects)
  faithful : ∀ k ∈ P.chunks c.payload, ∃ data, contents k.name = some data ∧
    k.bytes = (data.drop k.offset).take k.bytes.length
  ends : ∀ o ∈ c.objects, ∀ r ∈ o.ranges, r.toEnd = true →
    ∀ data, contents o.name = some data → data.length ≤ r.offset + r.size
  limit : c.cachedBytes ≤ c.maxBytes
  wf : P.Wf c.payload

section Coherent

variable {P : Payload ε σ β} {contents : Bytes → Option Bytes} {c : Shard σ} {name : Bytes}
  {object : CachedObject}

theorem mem_of_find (h : c.find name = some object) : object ∈ c.objects ∧ object.name = name :=
  ⟨mem_of_find?_eq_some h, by simpa using List.find?_some h⟩

theorem mem_entries {objects : List CachedObject} {x : Bytes × ℕ × ℕ} :
    x ∈ entries objects ↔ ∃ o ∈ objects, ∃ r ∈ o.ranges, (o.name, r.offset, r.size) = x := by
  simp [entries]

variable {bytes : Bytes}

theorem Coherent.rangeOf (h : Coherent P contents c) (hobject : object ∈ c.objects)
    {range : Range} (hrange : range ∈ object.ranges)
    (hfind : Chunks.find object.name range.offset (P.chunks c.payload) = some bytes) :
    ∃ data, contents object.name = some data ∧ range.Of data bytes := by
  obtain ⟨k, hk, rfl⟩ := Option.map_eq_some_iff.1 hfind
  have hmem := mem_of_find?_eq_some hk
  obtain ⟨hname, hoffset⟩ : k.name = object.name ∧ k.offset = range.offset := by
    simpa using List.find?_some hk
  obtain ⟨o, ho, r, hr, hentry⟩ := mem_entries.1 (h.indexed.mem_iff.1 (mem_map_of_mem hmem))
  simp only [entryOf, Prod.mk.injEq] at hentry
  obtain ⟨hname', hoffset', hsize⟩ := hentry
  obtain rfl := h.names.eq_of_key ho hobject (hname'.trans hname)
  obtain rfl := (h.offsets o ho).eq_of_key hr hrange (hoffset'.trans hoffset)
  obtain ⟨data, hdata, hbytes⟩ := h.faithful k hmem
  rw [hname] at hdata
  rw [hoffset, ← hsize] at hbytes
  exact ⟨data, hdata, hbytes, hsize.symm, fun hend => h.ends o ho r hr hend data hdata⟩

variable {offset : ℕ}

theorem lookup_eq (h : Coherent P contents c) {e : ε} {len : ℕ} {b : β} {after : Shard σ × β}
    (hbound : len = readToEnd ∨ offset + len < 2 ^ 64)
    (hlookup : lookup P e name offset len c b = (some bytes, after)) :
    ∃ data, contents name = some data ∧ bytes = readRange data offset len := by
  unfold lookup at hlookup
  split at hlookup
  · cases hlookup
  next object hfind =>
  obtain ⟨hobject, rfl⟩ := mem_of_find hfind
  split at hlookup
  · cases hlookup
  next range wanted hsome =>
  obtain ⟨r, hr, hwanted⟩ := exists_of_findSome?_eq_some hsome
  obtain ⟨n, hn, hpair⟩ := Option.map_eq_some_iff.1 hwanted
  obtain ⟨rfl, rfl⟩ := Prod.mk.inj hpair
  split at hlookup
  · cases hlookup
  next out hload =>
  obtain rfl := Option.some.inj (Prod.mk.inj hlookup).1
  obtain ⟨stored, hstored, rfl⟩ := P.load_eq _ _ _ _ _ _ _ hload
  obtain ⟨data, hdata, hrange⟩ := h.rangeOf hobject hr hstored
  exact ⟨data, hdata, hrange.answer hbound hn⟩

theorem sum_entries (objects : List CachedObject) :
    ((entries objects).map fun x => x.2.2).sum =
      (objects.map fun o => (o.ranges.map Range.size).sum).sum := by
  induction objects with
  | nil => rfl
  | cons o objects ih =>
    have hcons : entries (o :: objects) =
        (o.ranges.map fun r => (o.name, r.offset, r.size)) ++ entries objects := rfl
    rw [hcons, map_append, sum_append, ih, map_map, map_cons, sum_cons]
    rfl

theorem Coherent.cachedBytes_eq (h : Coherent P contents c) :
    c.cachedBytes = Chunks.total (P.chunks c.payload) := by
  have hchunks := ((h.indexed.map fun x => x.2.2).sum_eq)
  rw [map_map] at hchunks
  rw [sum_entries, ← map_congr_left fun o ho => h.bytes o ho, ← h.cached] at hchunks
  exact hchunks.symm

/-! ### What the operations keep -/

/-- The share of the budget moves with what is held. -/
def Balanced (P : Payload ε σ β) (s : σ) (b : β) (s' : σ) (b' : β) : Prop :=
  P.charge s ≤ P.used b → P.used b' + P.charge s = P.used b + P.charge s'

theorem Balanced.refl (s : σ) (b : β) : Balanced P s b s b := fun _ => rfl

theorem Balanced.trans {s s' s'' : σ} {b b' b'' : β} (h : Balanced P s b s' b')
    (h' : Balanced P s' b' s'' b'') : Balanced P s b s'' b'' := by
  intro hle
  have hfirst := h hle
  have hnext := h' (by omega)
  omega

/-- Still coherent, with its limit and the budget in balance. -/
structure Kept (P : Payload ε σ β) (contents : Bytes → Option Bytes) (c : Shard σ) (b : β)
    (after : Shard σ × β) : Prop where
  coherent : Coherent P contents after.1
  maxBytes : after.1.maxBytes = c.maxBytes
  balanced : Balanced P c.payload b after.1.payload after.2

variable {b : β}

theorem Kept.refl (h : Coherent P contents c) : Kept P contents c b (c, b) :=
  ⟨h, rfl, .refl _ _⟩

theorem Kept.trans {next after : Shard σ × β} (h : Kept P contents c b next)
    (h' : Kept P contents next.1 next.2 after) : Kept P contents c b after :=
  ⟨h'.coherent, h'.maxBytes.trans h.maxBytes, h.balanced.trans h'.balanced⟩

theorem Coherent.perm (h : Coherent P contents c) {objects : List CachedObject}
    (hperm : c.objects.Perm objects) : Coherent P contents { c with objects } where
  names := h.names.perm hperm
  offsets o ho := h.offsets o (hperm.mem_iff.2 ho)
  bytes o ho := h.bytes o (hperm.mem_iff.2 ho)
  cached := h.cached.trans (hperm.map _).sum_eq
  indexed := h.indexed.trans (hperm.flatMap_right _)
  faithful := h.faithful
  ends o ho := h.ends o (hperm.mem_iff.2 ho)
  limit := h.limit
  wf := h.wf

theorem Coherent.touch (h : Coherent P contents c) (hobject : object ∈ c.objects) :
    Coherent P contents (c.touch object) :=
  h.perm (h.names.perm_cons_filter hobject)

theorem entries_filter (objects : List CachedObject) (name : Bytes) :
    entries (objects.filter fun o => o.name ≠ name) =
      (entries objects).filter fun x => x.1 ≠ name := by
  induction objects with
  | nil => rfl
  | cons o objects ih =>
    have hcons : entries (o :: objects) =
        (o.ranges.map fun r => (o.name, r.offset, r.size)) ++ entries objects := rfl
    rw [hcons, filter_append, ← ih]
    by_cases ho : o.name = name
    · have hnone : (o.ranges.map fun r => (o.name, r.offset, r.size)).filter
          (fun x => x.1 ≠ name) = [] := by simp [ho]
      rw [hnone, filter_cons_of_neg (by simpa using ho), nil_append]
    · have hall : (o.ranges.map fun r => (o.name, r.offset, r.size)).filter
          (fun x => x.1 ≠ name) = o.ranges.map fun r => (o.name, r.offset, r.size) := by
        simp [ho]
      rw [hall, filter_cons_of_pos (by simpa using ho)]
      rfl

theorem map_entryOf_drop (name : Bytes) (chunks : List Chunk) :
    (Chunks.drop name chunks).map entryOf = (chunks.map entryOf).filter fun x => x.1 ≠ name := by
  rw [filter_map]
  rfl

theorem dropObject_kept (h : Coherent P contents c) (name : Bytes) :
    Kept P contents c b (dropObject P name c b) := by
  unfold dropObject
  split
  · exact .refl h
  next object hfind =>
  obtain ⟨hobject, rfl⟩ := mem_of_find hfind
  have hsum := ((h.names.perm_cons_filter hobject).map CachedObject.bytes).sum_eq
  rw [map_cons, sum_cons, ← h.cached] at hsum
  refine ⟨⟨h.names.filter _, fun o ho => h.offsets o (mem_of_mem_filter ho),
    fun o ho => h.bytes o (mem_of_mem_filter ho), ?_, ?_, ?_,
    fun o ho => h.ends o (mem_of_mem_filter ho), (Nat.sub_le _ _).trans h.limit,
    P.wf_drop _ _ _ h.wf⟩, rfl, P.balance_drop _ _ _ h.wf⟩
  · show c.cachedBytes - object.bytes = ((c.others object.name).map CachedObject.bytes).sum
    unfold others
    omega
  · show ((P.chunks (P.drop object.name c.payload b).1).map entryOf).Perm _
    rw [P.drop_chunks, map_entryOf_drop]
    exact (h.indexed.filter _).trans (.of_eq (entries_filter _ _).symm)
  · intro k hk
    rw [P.drop_chunks] at hk
    exact h.faithful k (mem_of_mem_filter hk)

theorem lookup_kept (h : Coherent P contents c) (e : ε) (name : Bytes) (offset len : ℕ) :
    Kept P contents c b (lookup P e name offset len c b).2 := by
  unfold lookup
  split
  · exact .refl h
  next object hfind =>
  split
  · exact .refl h
  split
  · exact dropObject_kept h name
  · exact ⟨h.touch (mem_of_find hfind).1, rfl, .refl _ _⟩

theorem makeRoom_kept (size : ℕ) (keep : Bytes) (rounds : ℕ) :
    ∀ {c : Shard σ} {b : β}, Coherent P contents c →
      Kept P contents c b (makeRoom P size keep rounds c b).2 ∧
        ((makeRoom P size keep rounds c b).1 = true →
          (makeRoom P size keep rounds c b).2.1.cachedBytes + size ≤ c.maxBytes) := by
  induction rounds with
  | zero =>
    intro c b h
    exact ⟨.refl h, of_decide_eq_true⟩
  | succ rounds ih =>
    intro c b h
    unfold makeRoom
    split_ifs with hfits
    · exact ⟨.refl h, fun _ => hfits⟩
    · split
      · exact ⟨.refl h, nofun⟩
      next victim hvictim =>
      have hdropped : Kept P contents c b (dropObject P victim.name c b) :=
        dropObject_kept h victim.name
      obtain ⟨hkept, hroom⟩ := ih (b := (dropObject P victim.name c b).2) hdropped.coherent
      exact ⟨hdropped.trans hkept, fun hsome => (hroom hsome).trans hdropped.maxBytes.le⟩

/-! ### Recording a range -/

theorem Coherent.focus (h : Coherent P contents c) (name : Bytes) :
    Coherent P contents { c with objects := (c.find name).getD { name } :: c.others name } := by
  cases hfind : c.find name with
  | some object =>
    obtain ⟨hobject, rfl⟩ := mem_of_find hfind
    exact h.touch hobject
  | none =>
    have hnone : ∀ o ∈ c.objects, o.name ≠ name := by
      simpa [Shard.find] using hfind
    have hothers : c.others name = c.objects := Keyed.filter_eq_self_of_forall_ne hnone
    rw [hothers, Option.getD_none]
    refine ⟨nodup_cons.2 ⟨?_, h.names⟩, ?_, ?_, ?_, h.indexed, h.faithful, ?_, h.limit, h.wf⟩
    · rintro hmem
      obtain ⟨o, ho, heq⟩ := mem_map.1 hmem
      exact hnone o ho heq
    · exact forall_mem_cons.2 ⟨nodup_nil, h.offsets⟩
    · exact forall_mem_cons.2 ⟨rfl, h.bytes⟩
    · rw [map_cons, sum_cons, Nat.zero_add]
      exact h.cached
    · exact forall_mem_cons.2 ⟨nofun, h.ends⟩

theorem withRange_perm {ranges : List Range} (h : Keyed.Distinct Range.offset ranges)
    (range : Range) :
    (withRange range ranges).Perm
      (range :: ranges.filter fun r => r.offset ≠ range.offset) := by
  unfold withRange
  split_ifs with hany
  · obtain ⟨r, hr, hoffset⟩ := any_eq_true.1 hany
    exact h.map_replace_perm hr (of_decide_eq_true hoffset)
  · have hnone : ∀ r ∈ ranges, r.offset ≠ range.offset := by simpa using hany
    rw [Keyed.filter_eq_self_of_forall_ne hnone]
    exact perm_append_singleton _ _

theorem sum_sizes {ranges : List Range} (h : Keyed.Distinct Range.offset ranges) (offset : ℕ) :
    (ranges.map Range.size).sum =
      sizeAt offset ranges + ((ranges.filter fun r => r.offset ≠ offset).map Range.size).sum := by
  unfold sizeAt
  cases hfind : ranges.find? fun r => r.offset = offset with
  | none =>
    have hnone : ∀ r ∈ ranges, r.offset ≠ offset := by simpa using hfind
    rw [Keyed.filter_eq_self_of_forall_ne hnone]
    simp
  | some r =>
    obtain rfl : r.offset = offset := by simpa using List.find?_some hfind
    have hsum := ((h.perm_cons_filter (mem_of_find?_eq_some hfind)).map Range.size).sum_eq
    rw [hsum, map_cons, sum_cons]
    rfl

theorem map_entryOf_store (name : Bytes) (offset : ℕ) (bytes : Bytes) (chunks : List Chunk) :
    (Chunks.store name offset bytes chunks).map entryOf = (name, offset, bytes.length) ::
      (chunks.map entryOf).filter fun x => ¬ (x.1 = name ∧ x.2.1 = offset) := by
  rw [filter_map]
  rfl

theorem entries_withRange {rest : List CachedObject} (hname : object.name = name)
    (hdistinct : Keyed.Distinct Range.offset object.ranges) (hrest : ∀ o ∈ rest, o.name ≠ name)
    (range : Range) :
    ((name, range.offset, range.size) ::
        (entries (object :: rest)).filter fun x => ¬ (x.1 = name ∧ x.2.1 = range.offset)).Perm
      ((withRange range object.ranges).map (fun r => (name, r.offset, r.size)) ++
        entries rest) := by
  have hcons : entries (object :: rest) =
      (object.ranges.map fun r => (name, r.offset, r.size)) ++ entries rest := by
    rw [← hname]
    rfl
  have hothers : (entries rest).filter (fun x => ¬ (x.1 = name ∧ x.2.1 = range.offset)) =
      entries rest := by
    refine filter_eq_self.2 fun x hx => ?_
    obtain ⟨o, ho, r, -, rfl⟩ := mem_entries.1 hx
    simp [hrest o ho]
  have hown : (object.ranges.map fun r => (name, r.offset, r.size)).filter
        (fun x => ¬ (x.1 = name ∧ x.2.1 = range.offset)) =
      (object.ranges.filter fun r => r.offset ≠ range.offset).map
        fun r => (name, r.offset, r.size) := by
    rw [filter_map]
    congr 1
    exact filter_congr fun r _ => by simp
  rw [hcons, filter_append, hothers, hown, ← cons_append]
  exact ((withRange_perm hdistinct range).map fun r => (name, r.offset, r.size)).symm.append_right _

theorem Coherent.record (h : Coherent P contents c) {data : Bytes} {toEnd : Bool}
    (hdata : contents name = some data)
    (hrange : Range.Of ⟨offset, bytes.length, toEnd⟩ data bytes)
    (hroom : c.cachedBytes + bytes.length ≤ c.maxBytes) {s : σ}
    (hchunks : P.chunks s = Chunks.store name offset bytes (P.chunks c.payload)) (hwf : P.Wf s) :
    Coherent P contents
      ({ c with payload := s }.record name ⟨offset, bytes.length, toEnd⟩) := by
  have hfocus := h.focus name
  set object := (c.find name).getD { name } with hobject
  have hname : object.name = name := by
    cases hfind : c.find name with
    | none => rw [hobject, hfind]; rfl
    | some o => rw [hobject, hfind]; exact (mem_of_find hfind).2
  have hdistinct := hfocus.offsets object (.head _)
  have hperm := withRange_perm hdistinct ⟨offset, bytes.length, toEnd⟩
  have hsizes := sum_sizes hdistinct offset
  have hbytes := hfocus.bytes object (.head _)
  have hcached := hfocus.cached
  simp only [map_cons, sum_cons] at hcached
  have hsum : ((withRange ⟨offset, bytes.length, toEnd⟩ object.ranges).map Range.size).sum =
      bytes.length + ((object.ranges.filter fun r => r.offset ≠ offset).map Range.size).sum :=
    (hperm.map Range.size).sum_eq
  have hnames : Keyed.Distinct CachedObject.name (object :: c.others name) := hfocus.names
  refine ⟨?_, ?_, ?_, ?_, ?_, ?_, ?_, ?_, hwf⟩
  · have hkeys : (object.name :: (c.others name).map CachedObject.name).Nodup := hnames
    rwa [hname] at hkeys
  · exact forall_mem_cons.2 ⟨hdistinct.cons_filter.perm hperm.symm,
      fun o ho => hfocus.offsets o (.tail _ ho)⟩
  · refine forall_mem_cons.2 ⟨?_, fun o ho => hfocus.bytes o (.tail _ ho)⟩
    show object.bytes - sizeAt offset object.ranges + bytes.length =
      ((withRange ⟨offset, bytes.length, toEnd⟩ object.ranges).map Range.size).sum
    omega
  · show c.cachedBytes - sizeAt offset object.ranges + bytes.length =
      object.bytes - sizeAt offset object.ranges + bytes.length +
        ((c.others name).map CachedObject.bytes).sum
    omega
  · show ((P.chunks s).map entryOf).Perm
      ((withRange ⟨offset, bytes.length, toEnd⟩ object.ranges).map
        (fun r => (name, r.offset, r.size)) ++ entries (c.others name))
    rw [hchunks, map_entryOf_store]
    refine ((hfocus.indexed.filter _).cons _).trans ?_
    have hrest : ∀ o ∈ c.others name, o.name ≠ name :=
      fun o ho => of_decide_eq_true (mem_filter.1 ho).2
    exact entries_withRange hname hdistinct hrest ⟨offset, bytes.length, toEnd⟩
  · intro k hk
    replace hk : k ∈ P.chunks s := hk
    rw [hchunks] at hk
    rcases mem_cons.1 hk with rfl | hk
    · exact ⟨data, hdata, hrange.slice⟩
    · exact h.faithful k (mem_of_mem_filter hk)
  · refine forall_mem_cons.2 ⟨fun r hr hend d hd => ?_, fun o ho => hfocus.ends o (.tail _ ho)⟩
    rcases mem_cons.1 (hperm.mem_iff.1 hr) with rfl | hr
    · obtain rfl := Option.some.inj (hdata.symm.trans hd)
      exact hrange.toEnd hend
    · exact hfocus.ends object (.head _) r (mem_of_mem_filter hr) hend d (hname ▸ hd)
  · show c.cachedBytes - sizeAt offset object.ranges + bytes.length ≤ c.maxBytes
    omega

theorem insert_kept (h : Coherent P contents c) (e : ε) {data : Bytes} {toEnd : Bool}
    (hdata : contents name = some data)
    (hrange : Range.Of ⟨offset, bytes.length, toEnd⟩ data bytes) :
    Kept P contents c b (insert P e name offset bytes toEnd c b) := by
  unfold insert
  by_cases hlarge : c.maxBytes < bytes.length
  · rw [if_pos hlarge]
    exact .refl h
  rw [if_neg hlarge]
  obtain ⟨hkept, hfits⟩ := makeRoom_kept bytes.length name c.objects.length (b := b) h
  generalize makeRoom P bytes.length name c.objects.length c b = room at hkept hfits
  obtain ⟨made, c₁, b₁⟩ := room
  dsimp only at hkept hfits ⊢
  have hcoherent := hkept.coherent
  have hchunks := P.store_chunks e name offset bytes c₁.payload b₁
  have hwf := P.wf_store e name offset bytes c₁.payload b₁ hcoherent.wf
  have hbalance := P.balance_store e name offset bytes c₁.payload b₁ hcoherent.wf
  generalize P.store e name offset bytes c₁.payload b₁ = stored at hchunks hwf hbalance
  split_ifs with hroom hstored
  · rw [if_pos hstored] at hchunks
    have hlimit := (hfits hroom).trans hkept.maxBytes.ge
    exact hkept.trans ⟨hcoherent.record hdata hrange hlimit hchunks hwf, rfl, hbalance⟩
  · rw [if_neg hstored] at hchunks
    refine hkept.trans ⟨⟨hcoherent.names, hcoherent.offsets, hcoherent.bytes, hcoherent.cached, ?_,
      ?_, hcoherent.ends, hcoherent.limit, hwf⟩, rfl, hbalance⟩
    · exact (congrArg (List.map entryOf) hchunks).symm ▸ hcoherent.indexed
    · exact fun k hk => hcoherent.faithful k (hchunks ▸ hk)
  · exact hkept

/-! ### Forgetting an object -/

theorem Coherent.lacks_of_find (h : Coherent P contents c) (hfind : c.find name = none) :
    Lacks P c name := by
  intro k hk hname
  obtain ⟨o, ho, r, hr, hentry⟩ := mem_entries.1 (h.indexed.mem_iff.1 (mem_map_of_mem hk))
  have hnone : ∀ o ∈ c.objects, o.name ≠ name := by simpa [Shard.find] using hfind
  exact hnone o ho ((congrArg Prod.fst hentry).trans hname)

theorem invalidate_kept (h : Coherent P contents c) (name : Bytes) :
    Kept P contents c b (invalidate P name c b) := by
  unfold invalidate
  cases hfind : c.find name with
  | some object => exact dropObject_kept h name
  | none =>
    have hlacks := h.lacks_of_find hfind
    have hchunks : P.chunks (P.drop name c.payload b).1 = P.chunks c.payload := by
      rw [P.drop_chunks]
      exact Keyed.filter_eq_self_of_forall_ne hlacks
    refine ⟨⟨h.names, h.offsets, h.bytes, h.cached, ?_, ?_, h.ends, h.limit,
      P.wf_drop _ _ _ h.wf⟩, rfl, P.balance_drop _ _ _ h.wf⟩
    · exact (congrArg (List.map entryOf) hchunks).symm ▸ h.indexed
    · exact fun k hk => h.faithful k (hchunks ▸ hk)

theorem Coherent.of_agree (h : Coherent P contents c) {contents' : Bytes → Option Bytes}
    (hagree : ∀ name, contents' name = contents name ∨ Lacks P c name) :
    Coherent P contents' c := by
  refine ⟨h.names, h.offsets, h.bytes, h.cached, h.indexed, fun k hk => ?_,
    fun o ho r hr hend data hdata => ?_, h.limit, h.wf⟩
  · rcases hagree k.name with heq | hlacks
    · rw [heq]
      exact h.faithful k hk
    · exact absurd rfl (hlacks k hk)
  · rcases hagree o.name with heq | hlacks
    · exact h.ends o ho r hr hend data (heq ▸ hdata)
    · have hentry := h.indexed.mem_iff.2 (mem_entries.2 ⟨o, ho, r, hr, rfl⟩)
      obtain ⟨k, hk, heq⟩ := mem_map.1 hentry
      exact absurd (congrArg Prod.fst heq) (hlacks k hk)

theorem Coherent.lacks_of_none (h : Coherent P contents c) (hnone : contents name = none) :
    Lacks P c name := by
  rintro k hk rfl
  obtain ⟨data, hdata, -⟩ := h.faithful k hk
  rw [hnone] at hdata
  cases hdata

end Coherent

end Shard

end ElysiumKV
