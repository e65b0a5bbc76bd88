import ElysiumKV.Lib.Decimal
import ElysiumKV.EditCodec

/-!
# Manifest payloads

A header, the provider's id and metadata, and the compressed content sealed chunk by chunk. A
provider is a parameter with the law that the cipher it opens inverts the one it created. A payload
opens to what was sealed, and its proper prefixes are `corrupt`.
-/

namespace ElysiumKV

open Codec List

/-! ### Encryption providers -/

/-- The construction one object is encrypted under. -/
structure ObjectCipher where
  chunkBytes : ℕ
  overheadBytes : ℕ
  /-- chunk, plaintext, authenticated data -/
  sealChunk : ℕ → Bytes → Bytes → Except Status Bytes
  openChunk : ℕ → Bytes → Bytes → Except Status Bytes

/-- `NewObject`. -/
structure NewObject where
  cipher : ObjectCipher
  metadata : Bytes

/-- `reopened` opens what `cipher` sealed. -/
structure ObjectCipher.Inverts (reopened cipher : ObjectCipher) : Prop where
  chunkBytes : reopened.chunkBytes = cipher.chunkBytes
  overheadBytes : reopened.overheadBytes = cipher.overheadBytes
  sealed : ∀ chunk plain aad bytes, cipher.sealChunk chunk plain aad = .ok bytes →
    bytes.length = plain.length + cipher.overheadBytes ∧
      reopened.openChunk chunk bytes aad = .ok plain

/-- `create` takes the keys and nonces drawn beside the object id. A failure is not `ok`. -/
structure EncryptionProvider where
  create : ℕ → ℕ → Except Status NewObject
  openObject : ℕ → Bytes → Except Status ObjectCipher
  create_error : ∀ id draw status, create id draw = .error status → status ≠ .ok
  seal_error : ∀ id draw made chunk plain aad status, create id draw = .ok made →
    made.cipher.sealChunk chunk plain aad = .error status → status ≠ .ok
  reopens : ∀ id draw made, create id draw = .ok made →
    0 < made.cipher.chunkBytes ∧
      ∃ reopened, openObject id made.metadata = .ok reopened ∧ reopened.Inverts made.cipher

/-- The registered providers and which one writes. -/
structure ProviderRegistry where
  find : Bytes → Option EncryptionProvider
  primary : Bytes := []
  acceptPlaintext : Bool := false

/-- The primary provider's id has a 16-bit length, its metadata a 32-bit one, and chunks can be
counted. -/
structure ProviderRegistry.Fits (registry : ProviderRegistry) : Prop where
  id : registry.primary.length < 2 ^ 16
  made : ∀ provider, registry.find registry.primary = some provider →
    ∀ generation draw made, provider.create generation draw = .ok made →
      made.metadata.length < 2 ^ 32 ∧ made.cipher.chunkBytes ≤ 2 ^ 63

/-- A registry whose payloads fit their header. -/
structure FittingRegistry extends ProviderRegistry where
  fits : toProviderRegistry.Fits

instance : Coe FittingRegistry ProviderRegistry := ⟨FittingRegistry.toProviderRegistry⟩

/-- Whether plaintext is refused. -/
def ProviderRegistry.refusesPlaintext (registry : ProviderRegistry) : Bool :=
  registry.primary ≠ [] && !registry.acceptPlaintext

/-- `NoEncryptionProvider`: chunks of 4096 bytes as they are. -/
def passthroughCipher : ObjectCipher where
  chunkBytes := 4096
  overheadBytes := 0
  sealChunk _ plain _ := .ok plain
  openChunk _ bytes _ := .ok bytes

/-- `NoEncryptionProvider`. -/
def noEncryptionProvider : EncryptionProvider where
  create _ _ := .ok ⟨passthroughCipher, []⟩
  openObject _ metadata := if metadata ≠ [] then .error .corrupt else .ok passthroughCipher
  create_error _ _ _ h := by cases h
  seal_error := by
    intro id draw made chunk plain aad status h herror
    obtain rfl := Except.ok.inj h
    cases herror
  reopens := by
    intro id draw made h
    obtain rfl := Except.ok.inj h
    refine ⟨by decide, passthroughCipher, rfl, rfl, rfl, ?_⟩
    intro chunk plain aad bytes hsealed
    obtain rfl := Except.ok.inj hsealed
    exact ⟨rfl, rfl⟩

/-- No encryption. -/
def passthroughRegistry : FittingRegistry where
  find id := if id = [] then some noEncryptionProvider else none
  fits := by
    refine ⟨by decide, fun provider hfind generation draw made hcreate => ?_⟩
    obtain rfl := Option.some.inj hfind
    obtain rfl := Except.ok.inj hcreate
    exact ⟨by decide, by decide⟩

namespace ManifestPayload

/-- `kMagic` -/
def magic : ℕ := 0x02564B45

/-- `kHeaderVersion` -/
def headerVersion : ℕ := 1

/-- `kMaxPayloadBytes` -/
def maxPayloadBytes : ℕ := 256 * 2 ^ 20

/-- `kCodecNone` -/
def codecNone : ℕ := 0

/-- `kCodecZstd` -/
def codecZstd : ℕ := 1

/-- The fields of the header. -/
structure Header where
  magic : ℕ
  version : ℕ
  providerLen : ℕ
  metadataLen : ℕ
  codec : ℕ
  plainLen : ℕ
  packedLen : ℕ
deriving DecidableEq, Repr

/-- The 32 bytes of `kHeaderBytes`. -/
def putHeader (h : Header) : Bytes :=
  putFixed32 h.magic ++ (putFixed 2 h.version ++ (putFixed 2 h.providerLen ++
    (putFixed32 h.metadataLen ++ (putFixed32 h.codec ++ (putFixed64 h.plainLen ++
    putFixed64 h.packedLen)))))

/-- A fixed-width integer. -/
def getFixed (n : ℕ) : Parser ℕ := do
  let bytes ← takeBytes n
  return decodeFixed bytes

/-- The header, read. -/
def getHeader : Parser Header := do
  let magic ← getFixed 4
  let version ← getFixed 2
  let providerLen ← getFixed 2
  let metadataLen ← getFixed 4
  let codec ← getFixed 4
  let plainLen ← getFixed 8
  let packedLen ← getFixed 8
  return { magic, version, providerLen, metadataLen, codec, plainLen, packedLen }

/-- `%012llu`. -/
def twelveDigits (n : ℕ) : Bytes := Decimal.writePadded 12 n

/-- `snapshot_address`: `snap#` and the generation. -/
def snapshotAddress (generation : ℕ) : Bytes := [115, 110, 97, 112, 35] ++ twelveDigits generation

/-- `edit_address`: `edit#`, generation, `#`, sequence number. -/
def editAddress (generation seq : ℕ) : Bytes :=
  [101, 100, 105, 116, 35] ++ (twelveDigits generation ++ ([35] ++ twelveDigits seq))

/-- `chunk_count`, in 64-bit arithmetic. -/
def chunkCount (logical chunkBytes : ℕ) : ℕ :=
  if logical = 0 then 0 else (logical + chunkBytes - 1) % 2 ^ 64 / chunkBytes

/-- `chunk_plain_bytes`. -/
def chunkPlainBytes (chunk logical chunkBytes : ℕ) : ℕ :=
  let remaining := logical - chunk * chunkBytes
  if remaining < chunkBytes then remaining else chunkBytes

/-- `payload_aad`: chunk zero is bound to the header. -/
def payloadAad (chunk : ℕ) (address header : Bytes) : Bytes :=
  putFixed64 chunk ++ (address ++ if chunk = 0 then header else [])

/-- `compress`: what does not shrink is stored as it is. -/
def compress (codecs : Compressors) (plaintext : Bytes) : Except Status (ℕ × Bytes) :=
  match codecs.zstd.compress plaintext with
  | none => .error .io
  | some packed =>
    if plaintext.length ≤ packed.length then .ok (codecNone, plaintext) else .ok (codecZstd, packed)

/-- `decompress`. -/
def decompress (codecs : Compressors) (packed : Bytes) (codec plainLen : ℕ) : Except Status Bytes :=
  if codec = codecNone then
    if packed.length ≠ plainLen then .error .corrupt else .ok packed
  else if codec ≠ codecZstd then .error .corrupt
  else if plainLen = 0 then .ok []
  else match codecs.zstd.decompress plainLen packed with
    | none => .error .corrupt
    | some produced => if produced.length ≠ plainLen then .error .corrupt else .ok produced

/-- The loop of `seal`: `count` chunks of `rest` to go. -/
def sealChunks (cipher : ObjectCipher) (address header : Bytes) : ℕ → ℕ → Bytes → Except Status Bytes
  | 0, _, _ => .ok []
  | count + 1, chunk, rest =>
    match cipher.sealChunk chunk (rest.take cipher.chunkBytes) (payloadAad chunk address header) with
    | .error status => .error status
    | .ok sealed =>
      match sealChunks cipher address header count (chunk + 1) (rest.drop cipher.chunkBytes) with
      | .error status => .error status
      | .ok others => .ok (sealed ++ others)

variable (registry : ProviderRegistry)

/-- The header under the primary provider. -/
def headerOf (metadata : Bytes) (codec plainLen packedLen : ℕ) :
    Header :=
  { magic, version := headerVersion, providerLen := registry.primary.length,
    metadataLen := metadata.length, codec, plainLen, packedLen }

/-- Everything before the chunks. -/
def sealedHeader (metadata : Bytes) (codec plainLen packedLen : ℕ) :
    Bytes :=
  putHeader (headerOf registry metadata codec plainLen packedLen) ++ (registry.primary ++ metadata)

/-- `ManifestPayload::seal` -/
def sealPayload (codecs : Compressors) (generation draw : ℕ)
    (address plaintext : Bytes) : Except Status Bytes :=
  match registry.find registry.primary with
  | none => .error .config
  | some provider => match compress codecs plaintext with
    | .error status => .error status
    | .ok (codec, packed) => match provider.create generation draw with
      | .error status => .error status
      | .ok made =>
        let header := sealedHeader registry made.metadata codec plaintext.length packed.length
        match sealChunks made.cipher address header
            (chunkCount packed.length made.cipher.chunkBytes) 0 packed with
        | .error status => .error status
        | .ok body => .ok (header ++ body)

/-- A refusal and what an operator is told about it. -/
structure Refusal where
  status : Status
  why : String := ""
deriving DecidableEq, Repr

/-- The id in an error text. -/
def idText (id : Bytes) : String := String.ofList (id.map fun b => Char.ofNat b.toNat)

/-- The loop of `open`: `count` chunks of `logical` bytes to go. -/
def openChunks (cipher : ObjectCipher) (address header : Bytes) (logical : ℕ) :
    ℕ → ℕ → Bytes → Except Status Bytes
  | 0, _, _ => .ok []
  | count + 1, chunk, rest =>
    let length := chunkPlainBytes chunk logical cipher.chunkBytes + cipher.overheadBytes
    match cipher.openChunk chunk (rest.take length) (payloadAad chunk address header) with
    | .error status => .error status
    | .ok plain =>
      match openChunks cipher address header logical count (chunk + 1)
          (rest.drop (cipher.chunkBytes + cipher.overheadBytes)) with
      | .error status => .error status
      | .ok others => .ok (plain ++ others)

/-- Chunks and decompression, once the cipher is known. -/
def openBody (codecs : Compressors) (cipher : ObjectCipher) (address header body : Bytes)
    (codec plainLen packedLen : ℕ) : Except Status Bytes :=
  let chunks := chunkCount packedLen cipher.chunkBytes
  if body.length ≠ packedLen + chunks * cipher.overheadBytes then .error .corrupt
  else match openChunks cipher address header packedLen chunks 0 body with
    | .error status => .error status
    | .ok packed => decompress codecs packed codec plainLen

/-- `ManifestPayload::open`: the plaintext and its provider's id. -/
def openPayload (codecs : Compressors) (generation : ℕ)
    (address framed : Bytes) : Except Refusal (Bytes × Bytes) :=
  match getHeader.run framed with
  | none => .error { status := .corrupt }
  | some (header, rest) =>
    if header.magic ≠ magic then .error { status := .corrupt }
    else if header.version ≠ headerVersion then
      .error { status := .unsupported, why := "manifest payload framing version " ++
        toString header.version ++ " is newer than this build understands" }
    else if maxPayloadBytes < header.plainLen ∨ maxPayloadBytes < header.packedLen then
      .error { status := .corrupt }
    else if rest.length < header.providerLen + header.metadataLen then
      .error { status := .corrupt }
    else
      let id := rest.take header.providerLen
      let metadata := (rest.drop header.providerLen).take header.metadataLen
      if id = [] ∧ registry.refusesPlaintext then
        .error { status := .config, why :=
          "plaintext manifest payload refused while encryption is required; enable " ++
            "accept_plaintext only for a one-time migration" }
      else match registry.find id with
        | none => .error { status := .config, why :=
            "manifest payload records encryption provider '" ++ idText id ++
            "', which is not registered" }
        | some provider => match provider.openObject generation metadata with
          | .error status => .error { status, why := "encryption provider '" ++ idText id ++
              "' could not open a manifest payload (" ++ status.name ++
              "): most often the key it holds is not the one the store was written with" }
          | .ok cipher =>
            match openBody codecs cipher address
                (framed.take (framed.length - rest.length + header.providerLen +
                  header.metadataLen))
                (rest.drop (header.providerLen + header.metadataLen)) header.codec header.plainLen
                header.packedLen with
            | .error status => .error { status }
            | .ok plaintext => .ok (plaintext, id)

variable {registry} {codecs : Compressors} {generation : ℕ}
  {address plaintext : Bytes}

theorem openPayload_eq_ok {framed id : Bytes}
    (h : openPayload registry codecs generation address framed = .ok (plaintext, id)) :
    ∃ header rest provider cipher, getHeader.run framed = some (header, rest) ∧
      header.magic = magic ∧ header.plainLen ≤ maxPayloadBytes ∧
      header.packedLen ≤ maxPayloadBytes ∧
      header.providerLen + header.metadataLen ≤ rest.length ∧
      id = rest.take header.providerLen ∧ registry.find id = some provider ∧
      provider.openObject generation ((rest.drop header.providerLen).take header.metadataLen) =
        .ok cipher ∧
      openBody codecs cipher address
        (framed.take (framed.length - rest.length + header.providerLen + header.metadataLen))
        (rest.drop (header.providerLen + header.metadataLen)) header.codec header.plainLen
        header.packedLen = .ok plaintext := by
  unfold openPayload at h
  split at h
  · cases h
  next header rest hrun =>
  split at h
  · cases h
  next hmagic =>
  split at h
  · cases h
  split at h
  · cases h
  next hlimit =>
  split at h
  · cases h
  next hlength =>
  dsimp only at h
  split at h
  · cases h
  split at h
  · cases h
  next provider hfind =>
  split at h
  · cases h
  next cipher hopen =>
  split at h
  · cases h
  next hbody =>
  obtain ⟨rfl, rfl⟩ := Prod.mk.inj (Except.ok.inj h)
  exact ⟨header, rest, provider, cipher, hrun, not_not.1 hmagic, by omega, by omega, by omega, rfl,
    hfind, hopen, hbody⟩

variable {cipher : ObjectCipher} {header : Bytes} {codec : ℕ}

theorem openBody_eq_ok {body : Bytes} {plainLen packedLen : ℕ}
    (h : openBody codecs cipher address header body codec plainLen packedLen = .ok plaintext) :
    body.length = packedLen + chunkCount packedLen cipher.chunkBytes * cipher.overheadBytes ∧
      ∃ packed, openChunks cipher address header packedLen (chunkCount packedLen cipher.chunkBytes)
        0 body = .ok packed ∧ decompress codecs packed codec plainLen = .ok plaintext := by
  unfold openBody at h
  dsimp only at h
  split at h
  · cases h
  next hlength =>
  split at h
  · cases h
  next packed hchunks => exact ⟨not_not.1 hlength, packed, hchunks, h⟩

section ChunkCount

variable {logical chunkBytes count : ℕ}

theorem chunkCount_eq (hwide : logical + chunkBytes ≤ 2 ^ 64) : chunkCount logical chunkBytes =
    if logical = 0 then 0 else (logical + chunkBytes - 1) / chunkBytes := by
  unfold chunkCount
  split_ifs with hzero
  · rfl
  · rw [Nat.mod_eq_of_lt (by omega)]

/-- If the sum wraps, no chunk is counted. -/
theorem chunkCount_eq_zero (hlogical : logical ≤ 2 ^ 64) (hwide : 2 ^ 64 < logical + chunkBytes) :
    chunkCount logical chunkBytes = 0 := by
  unfold chunkCount
  split_ifs
  · rfl
  · refine Nat.div_eq_of_lt ?_
    rcases Nat.lt_or_ge chunkBytes (2 ^ 64) with hsize | hsize
    · rw [Nat.mod_eq_sub_mod (by omega), Nat.mod_eq_of_lt (by omega)]
      omega
    · exact (Nat.mod_lt _ (by decide)).trans_le hsize

theorem chunkCount_eq_succ (hpos : 0 < chunkBytes) (hwide : logical + chunkBytes ≤ 2 ^ 64)
    (h : chunkCount logical chunkBytes = count + 1) :
    0 < logical ∧ chunkCount (logical - chunkBytes) chunkBytes = count := by
  rw [chunkCount_eq hwide] at h
  split_ifs at h with hzero
  rw [chunkCount_eq (by omega)]
  refine ⟨by omega, ?_⟩
  split_ifs with hlast
  · have hone : (logical + chunkBytes - 1) / chunkBytes = 1 :=
      Nat.div_eq_of_lt_le (by omega) (by omega)
    omega
  · have hstep : logical + chunkBytes - 1 = logical - chunkBytes + chunkBytes - 1 + chunkBytes := by
      omega
    rw [hstep, Nat.add_div_right _ hpos] at h
    omega

theorem eq_zero_of_chunkCount (hpos : 0 < chunkBytes) (hwide : logical + chunkBytes ≤ 2 ^ 64)
    (h : chunkCount logical chunkBytes = 0) : logical = 0 := by
  rw [chunkCount_eq hwide] at h
  split_ifs at h with hzero
  · exact hzero
  · have := Nat.div_pos (a := logical + chunkBytes - 1) (by omega) hpos
    omega

end ChunkCount

/-- The chunks of a payload open one by one; `rest` is what the loop has still to seal. -/
theorem openChunks_sealChunks {reopened : ObjectCipher} (hinv : reopened.Inverts cipher)
    (hpos : 0 < cipher.chunkBytes) (logical count : ℕ) :
    ∀ {chunk : ℕ} {rest body : Bytes}, rest.length + cipher.chunkBytes ≤ 2 ^ 64 →
      chunkCount rest.length cipher.chunkBytes = count →
      rest.length = logical - chunk * cipher.chunkBytes →
      sealChunks cipher address header count chunk rest = .ok body →
      body.length = rest.length + count * cipher.overheadBytes ∧
        openChunks reopened address header logical count chunk body = .ok rest := by
  induction count with
  | zero =>
    intro chunk rest body hwide hcount hrest hseal
    obtain rfl := eq_nil_of_length_eq_zero (eq_zero_of_chunkCount hpos hwide hcount)
    obtain rfl := Except.ok.inj hseal
    exact ⟨by simp, rfl⟩
  | succ count ih =>
    intro chunk rest body hwide hcount hrest hseal
    obtain ⟨hne, hcount⟩ := chunkCount_eq_succ hpos hwide hcount
    unfold sealChunks at hseal
    cases hfirst : cipher.sealChunk chunk (rest.take cipher.chunkBytes)
        (payloadAad chunk address header) with
    | error status => simp [hfirst] at hseal
    | ok sealed =>
      cases hothers : sealChunks cipher address header count (chunk + 1)
          (rest.drop cipher.chunkBytes) with
      | error status => simp [hfirst, hothers] at hseal
      | ok others =>
        simp only [hfirst, hothers, Except.ok.injEq] at hseal
        obtain ⟨hsealed, hopen⟩ := hinv.sealed _ _ _ _ hfirst
        obtain ⟨hlength, hrestOpen⟩ := ih (by rw [length_drop]; omega)
          (by rwa [length_drop]) (by rw [length_drop, Nat.succ_mul]; omega) hothers
        have hplain : chunkPlainBytes chunk logical cipher.chunkBytes =
            (rest.take cipher.chunkBytes).length := by
          simp only [chunkPlainBytes, ← hrest, length_take]
          split_ifs <;> omega
        have htake : body.take (chunkPlainBytes chunk logical cipher.chunkBytes +
            cipher.overheadBytes) = sealed := by
          rw [hplain, ← hsealed, ← hseal, take_left]
        have hdrop : openChunks reopened address header logical count (chunk + 1)
            (body.drop (cipher.chunkBytes + cipher.overheadBytes)) =
              .ok (rest.drop cipher.chunkBytes) := by
          rw [← hrestOpen]
          -- a short chunk is the last one, so nothing is read after it
          rcases Nat.lt_or_ge rest.length cipher.chunkBytes with hshort | hfull
          · have hzero : count = 0 := by
              rw [← hcount, Nat.sub_eq_zero_of_le hshort.le]
              rfl
            subst hzero
            rfl
          · have hfirstLength : sealed.length = cipher.chunkBytes + cipher.overheadBytes := by
              rw [hsealed, length_take, Nat.min_eq_left hfull]
            rw [← hseal, ← hfirstLength, drop_left]
        constructor
        · have htotal : (rest.take cipher.chunkBytes).length +
              (rest.drop cipher.chunkBytes).length = rest.length := by
            rw [← length_append, take_append_drop]
          rw [← hseal, length_append, hsealed, hlength, Nat.succ_mul]
          omega
        · unfold openChunks
          simp only [hinv.chunkBytes, hinv.overheadBytes, htake, hopen, hdrop, take_append_drop]

theorem decompress_compress {packed : Bytes} (h : compress codecs plaintext = .ok (codec, packed)) :
    packed.length ≤ plaintext.length ∧
      decompress codecs packed codec plaintext.length = .ok plaintext := by
  unfold compress at h
  cases hpack : codecs.zstd.compress plaintext with
  | none => simp [hpack] at h
  | some out =>
    simp only [hpack] at h
    split_ifs at h with hsmall
    · obtain ⟨rfl, rfl⟩ := Prod.mk.inj (Except.ok.inj h)
      exact ⟨le_rfl, by simp [decompress]⟩
    · obtain ⟨rfl, rfl⟩ := Prod.mk.inj (Except.ok.inj h)
      refine ⟨by omega, ?_⟩
      have hnonempty : plaintext.length ≠ 0 := by omega
      simp [decompress, codecZstd, codecNone, hnonempty, codecs.zstd.inverse _ _ hpack]

theorem codec_lt {packed : Bytes} (h : compress codecs plaintext = .ok (codec, packed)) :
    codec < 2 ^ 32 := by
  unfold compress at h
  split at h
  · cases h
  · split_ifs at h
    · obtain ⟨rfl, -⟩ := Prod.mk.inj (Except.ok.inj h)
      decide
    · obtain ⟨rfl, -⟩ := Prod.mk.inj (Except.ok.inj h)
      decide

theorem reads_fixed (n v : ℕ) : Reads (getFixed n) (putFixed n v) (v % 256 ^ n) := by
  have hread := (reads_takeBytes (putFixed n v)).map decodeFixed
  rwa [length_putFixed, decodeFixed_putFixed] at hread

/-- What the widths of the fields leave of a header. -/
def Header.wrapped (h : Header) : Header where
  magic := h.magic % 2 ^ 32
  version := h.version % 2 ^ 16
  providerLen := h.providerLen % 2 ^ 16
  metadataLen := h.metadataLen % 2 ^ 32
  codec := h.codec % 2 ^ 32
  plainLen := h.plainLen % 2 ^ 64
  packedLen := h.packedLen % 2 ^ 64

theorem reads_header_wrapped (h : Header) : Reads getHeader (putHeader h) h.wrapped := by
  unfold getHeader putHeader
  refine (reads_fixed 4 _).bind ?_
  refine (reads_fixed 2 _).bind ?_
  refine (reads_fixed 2 _).bind ?_
  refine (reads_fixed 4 _).bind ?_
  refine (reads_fixed 4 _).bind ?_
  refine (reads_fixed 8 _).bind ?_
  exact (reads_fixed 8 _).map _

theorem reads_header {h : Header} (hmagic : h.magic < 2 ^ 32) (hversion : h.version < 2 ^ 16)
    (hprovider : h.providerLen < 2 ^ 16) (hmetadata : h.metadataLen < 2 ^ 32)
    (hcodec : h.codec < 2 ^ 32) (hplain : h.plainLen < 2 ^ 64) (hpacked : h.packedLen < 2 ^ 64) :
    Reads getHeader (putHeader h) h := by
  have hwrapped : h.wrapped = h := by
    simp only [Header.wrapped, Nat.mod_eq_of_lt, hmagic, hversion, hprovider, hmetadata, hcodec,
      hplain, hpacked]
  have hread := reads_header_wrapped h
  rwa [hwrapped] at hread

theorem consumes_header : Consumes getHeader 32 := by
  have hfixed : ∀ n, Consumes (getFixed n) n := fun n => by
    have h := (consumes_takeBytes n).bind fun bytes => consumes_pure (decodeFixed bytes)
    rwa [Nat.zero_add] at h
  exact (hfixed 4).bind fun _ => (hfixed 2).bind fun _ => (hfixed 2).bind fun _ =>
    (hfixed 4).bind fun _ => (hfixed 4).bind fun _ => (hfixed 8).bind fun _ =>
    (hfixed 8).bind fun _ => consumes_pure _

theorem length_putHeader (h : Header) : (putHeader h).length = 32 := by
  simp [putHeader, putFixed32, putFixed64]

theorem sealPayload_eq_ok {draw : ℕ} {framed : Bytes}
    (h : sealPayload registry codecs generation draw address plaintext = .ok framed) :
    ∃ provider codec packed made body, registry.find registry.primary = some provider ∧
      compress codecs plaintext = .ok (codec, packed) ∧ provider.create generation draw = .ok made ∧
      sealChunks made.cipher address
        (sealedHeader registry made.metadata codec plaintext.length packed.length)
        (chunkCount packed.length made.cipher.chunkBytes) 0 packed = .ok body ∧
      framed = sealedHeader registry made.metadata codec plaintext.length packed.length ++ body := by
  unfold sealPayload at h
  cases hfind : registry.find registry.primary with
  | none => simp [hfind] at h
  | some provider =>
    cases hpack : compress codecs plaintext with
    | error status => simp [hfind, hpack] at h
    | ok result =>
      obtain ⟨codec, packed⟩ := result
      cases hcreate : provider.create generation draw with
      | error status => simp [hfind, hpack, hcreate] at h
      | ok made =>
        simp only [hfind, hpack, hcreate] at h
        cases hbody : sealChunks made.cipher address
            (sealedHeader registry made.metadata codec plaintext.length packed.length)
            (chunkCount packed.length made.cipher.chunkBytes) 0 packed with
        | error status => simp [hbody] at h
        | ok body =>
          simp only [hbody, Except.ok.injEq] at h
          exact ⟨provider, codec, packed, made, body, rfl, rfl, hcreate, hbody, h.symm⟩

theorem sealChunks_error {status : Status}
    (hcipher : ∀ chunk plain aad status, cipher.sealChunk chunk plain aad = .error status →
      status ≠ .ok) (count : ℕ) :
    ∀ {chunk : ℕ} {rest : Bytes},
      sealChunks cipher address header count chunk rest = .error status → status ≠ .ok := by
  induction count with
  | zero =>
    intro chunk rest h
    cases h
  | succ count ih =>
    intro chunk rest h
    unfold sealChunks at h
    split at h
    · next hfirst =>
      obtain rfl := Except.error.inj h
      exact hcipher _ _ _ _ hfirst
    · split at h
      · next hothers =>
        obtain rfl := Except.error.inj h
        exact ih hothers
      · cases h

theorem sealPayload_error {draw : ℕ} {status : Status}
    (h : sealPayload registry codecs generation draw address plaintext = .error status) :
    status ≠ .ok := by
  unfold sealPayload at h
  split at h
  · obtain rfl := Except.error.inj h
    decide
  · next provider _ =>
    split at h
    · next hpack =>
      unfold compress at hpack
      split at hpack
      · obtain rfl := Except.error.inj h
        obtain rfl := Except.error.inj hpack
        decide
      · split_ifs at hpack
    · split at h
      · next hcreate =>
        obtain rfl := Except.error.inj h
        exact provider.create_error _ _ _ hcreate
      · next made hcreate =>
        dsimp only at h
        split at h
        · next hchunks =>
          obtain rfl := Except.error.inj h
          exact sealChunks_error
            (fun chunk plain aad status => provider.seal_error _ _ _ chunk plain aad status hcreate)
            _ hchunks
        · cases h

section Open

variable {registry : ProviderRegistry} {codecs : Compressors} {generation draw : ℕ}
  {address plaintext framed : Bytes}

/-- The values fit the header's fields and the limit. -/
structure HeaderFits (registry : ProviderRegistry) (metadata : Bytes)
    (codec plainLen packedLen : ℕ) : Prop where
  id : registry.primary.length < 2 ^ 16
  metadata : metadata.length < 2 ^ 32
  codec : codec < 2 ^ 32
  plain : plainLen ≤ maxPayloadBytes
  packed : packedLen ≤ maxPayloadBytes

variable {metadata : Bytes} {codec plainLen packedLen : ℕ}

theorem reads_headerOf (fits : HeaderFits registry metadata codec plainLen packedLen) :
    Reads getHeader (putHeader (headerOf registry metadata codec plainLen packedLen))
      (headerOf registry metadata codec plainLen packedLen) := by
  have hmax : maxPayloadBytes < 2 ^ 64 := by decide
  exact reads_header (by decide : magic < 2 ^ 32) (by decide : headerVersion < 2 ^ 16)
    fits.id fits.metadata fits.codec (fits.plain.trans_lt hmax) (fits.packed.trans_lt hmax)

theorem HeaderFits.not_exceeds (fits : HeaderFits registry metadata codec plainLen packedLen) :
    ¬ (maxPayloadBytes < plainLen ∨ maxPayloadBytes < packedLen) := by
  have := fits.plain
  have := fits.packed
  omega

theorem openPayload_short (fits : HeaderFits registry metadata codec plainLen packedLen) {tail : Bytes}
    (hshort : tail.length < registry.primary.length + metadata.length) :
    openPayload registry codecs generation address
      (putHeader (headerOf registry metadata codec plainLen packedLen) ++ tail) =
        .error { status := .corrupt } := by
  unfold openPayload
  rw [reads_headerOf fits tail]
  simp only [headerOf, ne_eq, not_true, if_false, fits.not_exceeds, hshort, if_true]

theorem openPayload_body (fits : HeaderFits registry metadata codec plainLen packedLen)
    {provider : EncryptionProvider} {cipher : ObjectCipher} {body : Bytes}
    (hfind : registry.find registry.primary = some provider)
    (hopen : provider.openObject generation metadata = .ok cipher) :
    openPayload registry codecs generation address
        (sealedHeader registry metadata codec plainLen packedLen ++ body) =
      match openBody codecs cipher address
          (sealedHeader registry metadata codec plainLen packedLen) body codec plainLen
          packedLen with
      | .error status => .error { status }
      | .ok plaintext => .ok (plaintext, registry.primary) := by
  have hsplit : sealedHeader registry metadata codec plainLen packedLen ++ body =
      putHeader (headerOf registry metadata codec plainLen packedLen) ++
        (registry.primary ++ (metadata ++ body)) := by
    simp [sealedHeader]
  have hlength : ¬ (registry.primary ++ (metadata ++ body)).length <
      registry.primary.length + metadata.length := by simp
  have hplaintext : ¬ (registry.primary = [] ∧ registry.refusesPlaintext = true) := by
    rintro ⟨hempty, hrefuses⟩
    simp [ProviderRegistry.refusesPlaintext, hempty] at hrefuses
  have hheader : (sealedHeader registry metadata codec plainLen packedLen ++ body).take
      ((sealedHeader registry metadata codec plainLen packedLen ++ body).length -
        (registry.primary ++ (metadata ++ body)).length + registry.primary.length +
          metadata.length) = sealedHeader registry metadata codec plainLen packedLen := by
    have hidx : (sealedHeader registry metadata codec plainLen packedLen ++ body).length -
        (registry.primary ++ (metadata ++ body)).length + registry.primary.length +
          metadata.length = (sealedHeader registry metadata codec plainLen packedLen).length := by
      simp only [sealedHeader, length_append, length_putHeader]
      omega
    rw [hidx, take_left]
  have hbody : (registry.primary ++ (metadata ++ body)).drop
      (registry.primary.length + metadata.length) = body := by
    rw [← append_assoc, ← length_append, drop_left]
  unfold openPayload
  rw [hsplit, reads_headerOf fits (registry.primary ++ (metadata ++ body)), ← hsplit]
  simp only [headerOf, ne_eq, not_true, if_false, fits.not_exceeds, hlength, take_left,
    drop_left, hplaintext, hfind, hopen, hbody]
  rw [hheader]

theorem sizes_of_fits (h : registry.Fits) {provider : EncryptionProvider}
    (hfind : registry.find registry.primary = some provider) {made : NewObject}
    (hcreate : provider.create generation draw = .ok made)
    (hsize : plaintext.length ≤ maxPayloadBytes) :
    made.metadata.length < 2 ^ 32 ∧ plaintext.length + made.cipher.chunkBytes ≤ 2 ^ 64 := by
  obtain ⟨hmetadata, hchunks⟩ := h.made provider hfind generation draw made hcreate
  unfold maxPayloadBytes at hsize
  exact ⟨hmetadata, by omega⟩

theorem openPayload_sealPayload_of_fits
    (h : sealPayload registry codecs generation draw address plaintext = .ok framed)
    (hid : registry.primary.length < 2 ^ 16)
    (hmade : ∀ provider made, registry.find registry.primary = some provider →
      provider.create generation draw = .ok made → made.metadata.length < 2 ^ 32 ∧
        plaintext.length + made.cipher.chunkBytes ≤ 2 ^ 64)
    (hsize : plaintext.length ≤ maxPayloadBytes) :
    openPayload registry codecs generation address framed = .ok (plaintext, registry.primary) := by
  obtain ⟨provider, codec, packed, made, body, hfind, hpack, hcreate, hseal, rfl⟩ :=
    sealPayload_eq_ok h
  obtain ⟨hpos, reopened, hopen, hinv⟩ := provider.reopens _ _ _ hcreate
  obtain ⟨hpacked, hunpack⟩ := decompress_compress hpack
  obtain ⟨hmetadata, hwide⟩ := hmade _ _ hfind hcreate
  obtain ⟨hlength, hchunks⟩ := openChunks_sealChunks hinv hpos packed.length _ (by omega) rfl
    (by simp) hseal
  have fits : HeaderFits registry made.metadata codec plaintext.length packed.length :=
    ⟨hid, hmetadata, codec_lt hpack, hsize, hpacked.trans hsize⟩
  rw [openPayload_body fits hfind hopen]
  unfold openBody
  simp only [hinv.chunkBytes, hinv.overheadBytes, hlength, ne_eq, not_true, if_false, hchunks,
    hunpack]

theorem openPayload_sealPayload {registry : FittingRegistry}
    (h : sealPayload registry codecs generation draw address plaintext = .ok framed)
    (hsize : plaintext.length ≤ maxPayloadBytes) :
    openPayload registry codecs generation address framed = .ok (plaintext, registry.primary) :=
  openPayload_sealPayload_of_fits h registry.fits.id
    (fun _ _ hfind hcreate => sizes_of_fits registry.fits hfind hcreate hsize) hsize

theorem openPayload_interrupted {registry : FittingRegistry}
    (h : sealPayload registry codecs generation draw address plaintext = .ok framed)
    (hsize : plaintext.length ≤ maxPayloadBytes) {n : ℕ} (hcut : n < framed.length) :
    openPayload registry codecs generation address (framed.take n) =
      .error { status := .corrupt } := by
  obtain ⟨provider, codec, packed, made, body, hfind, hpack, hcreate, hseal, rfl⟩ :=
    sealPayload_eq_ok h
  obtain ⟨hpos, reopened, hopen, hinv⟩ := provider.reopens _ _ _ hcreate
  obtain ⟨hpacked, hunpack⟩ := decompress_compress hpack
  obtain ⟨hmetadata, hwide⟩ := sizes_of_fits registry.fits hfind hcreate hsize
  obtain ⟨hlength, -⟩ := openChunks_sealChunks hinv hpos packed.length _ (by omega) rfl (by simp)
    hseal
  have fits : HeaderFits registry made.metadata codec plaintext.length packed.length :=
    ⟨registry.fits.id, hmetadata, codec_lt hpack, hsize, hpacked.trans hsize⟩
  set header := sealedHeader registry made.metadata codec plaintext.length packed.length with hheader
  have hsplit : header = putHeader (headerOf registry made.metadata codec plaintext.length
      packed.length) ++ (registry.primary ++ made.metadata) := hheader
  have hlen : header.length = 32 + (registry.primary.length + made.metadata.length) := by
    rw [hsplit, length_append, length_putHeader, length_append]
  rcases Nat.lt_or_ge n header.length with hinside | hinside
  · rw [take_append_of_le_length hinside.le]
    rcases Nat.lt_or_ge n 32 with hheaderCut | hheaderCut
    · have hshort : (header.take n).length < 32 := by
        rw [length_take]
        omega
      have hnone := consumes_header.run_eq_none hshort
      unfold openPayload
      rw [hnone]
    · obtain ⟨m, rfl⟩ := Nat.exists_eq_add_of_le hheaderCut
      have hcutTail : header.take (32 + m) = putHeader (headerOf registry made.metadata codec
          plaintext.length packed.length) ++ (registry.primary ++ made.metadata).take m := by
        rw [hsplit, ← length_putHeader (headerOf registry made.metadata codec plaintext.length
          packed.length), take_length_add_append]
      rw [hcutTail]
      apply openPayload_short fits
      rw [length_take, length_append]
      omega
  · obtain ⟨m, rfl⟩ := Nat.exists_eq_add_of_le hinside
    rw [length_append] at hcut
    rw [take_length_add_append, openPayload_body fits hfind hopen]
    have hwrong : (body.take m).length ≠ packed.length +
        chunkCount packed.length reopened.chunkBytes * reopened.overheadBytes := by
      rw [hinv.chunkBytes, hinv.overheadBytes, length_take]
      omega
    unfold openBody
    simp only [if_pos hwrong]

end Open

end ManifestPayload

end ElysiumKV
