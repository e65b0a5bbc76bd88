import ElysiumKV.PayloadLimits

/-!
# What an opened payload says about the seal calls

A chunk is authenticated with its number and the address, chunk zero with the header too. So under
an ideal AEAD (`Unforged`) a payload with a chunk opens only to content sealed at its address; one
without opens to nothing, at every address.
-/

namespace ElysiumKV

open Codec List

namespace ManifestPayload

/-- What a payload is stored as. -/
inductive ManifestAddress
  | snapshot (generation : ℕ)
  | edit (generation seq : ℕ)
deriving DecidableEq, Repr

namespace ManifestAddress

/-- Its generation. -/
def generation : ManifestAddress → ℕ
  | snapshot generation => generation
  | edit generation _ => generation

/-- Its address. -/
def bytes : ManifestAddress → Bytes
  | snapshot generation => snapshotAddress generation
  | edit generation seq => editAddress generation seq

end ManifestAddress

theorem isDigit_twelveDigits {n : ℕ} : ∀ c ∈ twelveDigits n, Decimal.IsDigit c :=
  Decimal.isDigit_writePadded

theorem twelveDigits_inj {m n : ℕ} (h : twelveDigits m = twelveDigits n) : m = n := by
  rw [← Decimal.value_writePadded 12 m, ← twelveDigits, h, twelveDigits, Decimal.value_writePadded]

theorem twelve_le_length_twelveDigits (n : ℕ) : 12 ≤ (twelveDigits n).length := by
  rw [twelveDigits, Decimal.writePadded, length_append, length_replicate]
  omega

namespace ManifestAddress

theorem bytes_injective {a b : ManifestAddress} (h : a.bytes = b.bytes) : a = b := by
  cases a with
  | snapshot g =>
    cases b with
    | snapshot g' => rw [twelveDigits_inj (append_cancel_left h)]
    | edit g' seq' => cases (List.cons.inj h).1
  | edit g seq =>
    cases b with
    | snapshot g' => cases (List.cons.inj h).1
    | edit g' seq' =>
      obtain ⟨hgeneration, hseq⟩ := append_inj_of_delimiter (p := Decimal.IsDigit)
        isDigit_twelveDigits isDigit_twelveDigits (by decide) (by decide)
        (append_cancel_left h)
      rw [twelveDigits_inj hgeneration, twelveDigits_inj (List.cons.inj hseq).2]

theorem ne_of_mem_bytes (a : ManifestAddress) : ∀ c ∈ a.bytes, c ≠ 69 := by
  have hdigits : ∀ n, ∀ c ∈ twelveDigits n, c ≠ 69 := by
    rintro n c hc rfl
    exact absurd (isDigit_twelveDigits _ hc) (by decide)
  have hsnap : ∀ c ∈ ([115, 110, 97, 112, 35] : Bytes), c ≠ 69 := by simp
  have hedit : ∀ c ∈ ([101, 100, 105, 116, 35] : Bytes), c ≠ 69 := by simp
  have hhash : ∀ c ∈ ([35] : Bytes), c ≠ 69 := by simp
  intro c hc
  cases a with
  | snapshot g =>
    rcases mem_append.1 hc with hc | hc
    · exact hsnap c hc
    · exact hdigits g c hc
  | edit g seq =>
    simp only [bytes, editAddress, mem_append] at hc
    rcases hc with hc | hc | hc | hc
    · exact hedit c hc
    · exact hdigits g c hc
    · exact hhash c hc
    · exact hdigits seq c hc

theorem lt_length_payloadAad (a : ManifestAddress) (chunk : ℕ) (header : Bytes) :
    24 < (payloadAad chunk a.bytes header).length := by
  have hbytes : 16 < a.bytes.length := by
    cases a with
    | snapshot g =>
      have := twelve_le_length_twelveDigits g
      simp only [bytes, snapshotAddress, length_append, length_cons, length_nil]
      omega
    | edit g seq =>
      have := twelve_le_length_twelveDigits g
      simp only [bytes, editAddress, length_append, length_cons, length_nil]
      omega
  simp only [payloadAad, length_append, putFixed64, length_putFixed]
  omega

end ManifestAddress

/-! ### The chunks of a seal call -/

/-- One call of the cipher's `seal`. -/
structure ChunkSeal where
  chunk : ℕ
  plain : Bytes
  aad : Bytes
deriving DecidableEq, Repr

/-- The calls of the loop of `sealChunks`. -/
def chunkSeals (cipher : ObjectCipher) (address header : Bytes) : ℕ → ℕ → Bytes → List ChunkSeal
  | 0, _, _ => []
  | count + 1, chunk, rest =>
    ⟨chunk, rest.take cipher.chunkBytes, payloadAad chunk address header⟩ ::
      chunkSeals cipher address header count (chunk + 1) (rest.drop cipher.chunkBytes)

theorem sealChunks_eq (cipher : ObjectCipher) (address header : Bytes) (count chunk : ℕ)
    (rest : Bytes) :
    sealChunks cipher address header count chunk rest =
      ((chunkSeals cipher address header count chunk rest).mapM fun s =>
        cipher.sealChunk s.chunk s.plain s.aad).map List.flatten := by
  induction count generalizing chunk rest with
  | zero => rfl
  | succ count ih =>
    rw [sealChunks, chunkSeals, mapM_cons]
    cases cipher.sealChunk chunk (rest.take cipher.chunkBytes) (payloadAad chunk address header) with
    | error status => rfl
    | ok sealed =>
      simp only [ih]
      cases (chunkSeals cipher address header count (chunk + 1) (rest.drop cipher.chunkBytes)).mapM
          fun s => cipher.sealChunk s.chunk s.plain s.aad with
      | error status => rfl
      | ok others => rfl

theorem mem_chunkSeals {cipher : ObjectCipher} {address header rest : Bytes} {count chunk : ℕ}
    {s : ChunkSeal} (h : s ∈ chunkSeals cipher address header count chunk rest) :
    ∃ i, s = ⟨chunk + i, (rest.drop (i * cipher.chunkBytes)).take cipher.chunkBytes,
      payloadAad (chunk + i) address header⟩ := by
  induction count generalizing chunk rest with
  | zero => cases h
  | succ count ih =>
    rcases mem_cons.1 h with rfl | h
    · exact ⟨0, by simp⟩
    · obtain ⟨i, rfl⟩ := ih h
      refine ⟨i + 1, ?_⟩
      rw [drop_drop, Nat.add_right_comm, Nat.add_assoc, Nat.succ_mul,
        Nat.add_comm cipher.chunkBytes]

/-- A call of `seal`; a buffer has 64-bit addresses. -/
structure SealCall where
  registry : ProviderRegistry
  address : ManifestAddress
  draw : ℕ
  plaintext : Bytes
  short : plaintext.length < 2 ^ 64

namespace SealCall

/-- What it returns. -/
def run (codecs : Compressors) (call : SealCall) : Except Status Bytes :=
  sealPayload call.registry codecs call.address.generation call.draw call.address.bytes
    call.plaintext

/-- The call seals this chunk. -/
def Seals (codecs : Compressors) (call : SealCall) (s : ChunkSeal) : Prop :=
  ∃ provider codec packed made, call.registry.find call.registry.primary = some provider ∧
    compress codecs call.plaintext = .ok (codec, packed) ∧
    provider.create call.address.generation call.draw = .ok made ∧
    s ∈ chunkSeals made.cipher call.address.bytes
      (sealedHeader call.registry made.metadata codec call.plaintext.length packed.length)
      (chunkCount packed.length made.cipher.chunkBytes) 0 packed

end SealCall

/-! ### The ideal AEAD -/

/-- An ideal AEAD where these bytes stand for a payload: metadata gives one object's key, under
which only chunks sealed for it open. An object is one call of `seal`, or a file, whose associated
data has at most 24 bytes. -/
structure Unforged (codecs : Compressors) (history : List SealCall) (id : Bytes)
    (provider : EncryptionProvider) (objectOf : Bytes → Option SealCall) (framed : Bytes) :
    Prop where
  registered : ∀ call ∈ history, call.registry.primary = id →
    call.registry.find id = some provider
  owner : ∀ call ∈ history, call.registry.primary = id → ∀ made,
    provider.create call.address.generation call.draw = .ok made →
      objectOf made.metadata = some call
  opened : ∀ generation metadata cipher, provider.openObject generation metadata = .ok cipher →
    0 < cipher.chunkBytes ∧
    ∀ chunk bytes aad plain, bytes <:+: framed → cipher.openChunk chunk bytes aad = .ok plain →
      (∃ call ∈ history, objectOf metadata = some call ∧ call.registry.primary = id ∧
        call.Seals codecs ⟨chunk, plain, aad⟩) ∨ aad.length ≤ 24

/-- The header's `plain_len`. -/
def plainLen (framed : Bytes) : Option ℕ := (getHeader.run framed).map fun r => r.1.plainLen

/-- The provider's metadata. -/
def recordedMetadata (framed : Bytes) : Option Bytes :=
  (getHeader.run framed).map fun r => (r.2.drop r.1.providerLen).take r.1.metadataLen

/-- At least one chunk is opened, as the cipher opened from the metadata counts. -/
def Chunked (provider : EncryptionProvider) (generation : ℕ) (framed : Bytes) : Prop :=
  ∃ header rest cipher, getHeader.run framed = some (header, rest) ∧
    provider.openObject generation ((rest.drop header.providerLen).take header.metadataLen) =
      .ok cipher ∧ chunkCount header.packedLen cipher.chunkBytes ≠ 0

theorem getFixed_run {n v : ℕ} {input rest : Bytes} (h : (getFixed n).run input = some (v, rest)) :
    input = putFixed n v ++ rest := by
  change (do let r ← takeBytes n |>.run input; some (decodeFixed r.1, r.2)) = _ at h
  obtain ⟨⟨bytes, rest'⟩, htake, hpair⟩ := Option.bind_eq_some_iff.1 h
  obtain ⟨rfl, rfl⟩ := Prod.mk.inj (Option.some.inj hpair)
  change (if input.length < n then none else some (input.take n, input.drop n)) = _ at htake
  split_ifs at htake with hlength
  obtain ⟨rfl, rfl⟩ := Prod.mk.inj (Option.some.inj htake)
  have hdecode := putFixed_decodeFixed (input.take n)
  rw [length_take, Nat.min_eq_left (not_lt.1 hlength)] at hdecode
  rw [hdecode, take_append_drop]

theorem getHeader_run {framed rest : Bytes} {header : Header}
    (h : getHeader.run framed = some (header, rest)) : framed = putHeader header ++ rest := by
  unfold getHeader at h
  simp only [StateT.run_bind, Option.bind_eq_bind, Option.bind_eq_some_iff, Prod.exists] at h
  obtain ⟨magic, r₁, h₁, version, r₂, h₂, providerLen, r₃, h₃, metadataLen, r₄, h₄, codec, r₅, h₅,
    plainLen, r₆, h₆, packedLen, r₇, h₇, hpure⟩ := h
  obtain ⟨rfl, rfl⟩ := Prod.mk.inj (Option.some.inj hpure)
  rw [getFixed_run h₁, getFixed_run h₂, getFixed_run h₃, getFixed_run h₄, getFixed_run h₅,
    getFixed_run h₆, getFixed_run h₇]
  simp [putHeader, putFixed32, putFixed64]

theorem putHeader_eq_cons {h : Header} (hmagic : h.magic = magic) :
    ∃ tail, putHeader h = 69 :: tail := by
  refine ⟨(putHeader h).tail, ?_⟩
  simp only [putHeader, hmagic]
  rfl

theorem putHeader_injective {h h' : Header} (heq : putHeader h = putHeader h') :
    h.wrapped = h'.wrapped := by
  have hread := reads_header_wrapped h []
  rw [heq, reads_header_wrapped h' []] at hread
  exact (Prod.mk.inj (Option.some.inj hread)).1.symm

theorem payloadAad_zero_inj {a b : ManifestAddress} {h h' : Header} {tail tail' : Bytes}
    (hmagic : h.magic = magic) (hmagic' : h'.magic = magic)
    (heq : payloadAad 0 a.bytes (putHeader h ++ tail) = payloadAad 0 b.bytes (putHeader h' ++ tail')) :
    a = b ∧ h.wrapped = h'.wrapped ∧ tail = tail' := by
  simp only [payloadAad, if_true] at heq
  replace heq := append_cancel_left heq
  obtain ⟨t, ht⟩ := putHeader_eq_cons hmagic
  obtain ⟨t', ht'⟩ := putHeader_eq_cons hmagic'
  rw [ht, ht', cons_append, cons_append] at heq
  obtain ⟨haddress, hheader⟩ := append_inj_of_delimiter (p := (· ≠ 69)) a.ne_of_mem_bytes
    b.ne_of_mem_bytes (not_not.2 rfl) (not_not.2 rfl) heq
  rw [← cons_append, ← cons_append, ← ht, ← ht'] at hheader
  obtain ⟨hput, htail⟩ := append_inj hheader (by rw [length_putHeader, length_putHeader])
  exact ⟨ManifestAddress.bytes_injective haddress, putHeader_injective hput, htail⟩

theorem openChunks_succ {cipher : ObjectCipher} {address header rest out : Bytes}
    {logical count chunk : ℕ}
    (h : openChunks cipher address header logical (count + 1) chunk rest = .ok out) :
    ∃ bytes plain others, bytes <:+: rest ∧
      cipher.openChunk chunk bytes (payloadAad chunk address header) = .ok plain ∧
      openChunks cipher address header logical count (chunk + 1)
        (rest.drop (cipher.chunkBytes + cipher.overheadBytes)) = .ok others ∧
      out = plain ++ others := by
  unfold openChunks at h
  dsimp only at h
  split at h
  · cases h
  next plain hplain =>
  split at h
  · cases h
  next others hothers =>
  exact ⟨_, plain, others, (List.take_prefix _ _).isInfix, hplain, hothers, (Except.ok.inj h).symm⟩

theorem openChunks_eq_drop {cipher : ObjectCipher} {address header framed packed : Bytes}
    (hpos : 0 < cipher.chunkBytes) (hwide : packed.length + cipher.chunkBytes ≤ 2 ^ 64)
    (hpieces : ∀ chunk bytes plain, bytes <:+: framed →
      cipher.openChunk chunk bytes (payloadAad chunk address header) = .ok plain →
        plain = (packed.drop (chunk * cipher.chunkBytes)).take cipher.chunkBytes) (count : ℕ) :
    ∀ {chunk : ℕ} {rest out : Bytes}, rest <:+: framed →
      chunkCount (packed.length - chunk * cipher.chunkBytes) cipher.chunkBytes = count →
      openChunks cipher address header packed.length count chunk rest = .ok out →
        out = packed.drop (chunk * cipher.chunkBytes) := by
  induction count with
  | zero =>
    intro chunk rest out hrest hcount h
    have hzero := eq_zero_of_chunkCount hpos (by omega) hcount
    rw [← Except.ok.inj h, drop_eq_nil_of_le (by omega)]
  | succ count ih =>
    intro chunk rest out hrest hcount h
    obtain ⟨bytes, plain, others, hbytes, hopen, hothers, rfl⟩ := openChunks_succ h
    obtain ⟨-, hcount⟩ := chunkCount_eq_succ hpos (by omega) hcount
    rw [Nat.sub_sub, ← Nat.succ_mul] at hcount
    rw [hpieces chunk bytes plain (hbytes.trans hrest) hopen,
      ih ((drop_suffix _ _).isInfix.trans hrest) hcount hothers, Nat.succ_mul,
      ← drop_drop, take_append_drop]

section Authentic

variable {codecs : Compressors} {history : List SealCall} {id framed : Bytes}
  {provider : EncryptionProvider} {objectOf : Bytes → Option SealCall}

theorem SealCall.Seals.header {call : SealCall} {address : ManifestAddress} {header : Header}
    {plain tail : Bytes}
    (h : call.Seals codecs ⟨0, plain, payloadAad 0 address.bytes (putHeader header ++ tail)⟩)
    (hmagic : header.magic = magic) (hrange : header.wrapped = header)
    (htail : tail.length = header.providerLen + header.metadataLen) :
    address = call.address ∧ ∃ provider packed made,
      call.registry.find call.registry.primary = some provider ∧
      compress codecs call.plaintext = .ok (header.codec, packed) ∧
      provider.create call.address.generation call.draw = .ok made ∧
      header.plainLen = call.plaintext.length ∧ header.packedLen = packed.length ∧
      header.providerLen = call.registry.primary.length ∧
      tail = call.registry.primary ++ made.metadata := by
  obtain ⟨provider, codec, packed, made, hfind, hpack, hcreate, hmem⟩ := h
  obtain ⟨i, hi⟩ := mem_chunkSeals hmem
  obtain ⟨hzero, -, haad⟩ := ChunkSeal.mk.inj hi
  obtain rfl : i = 0 := by omega
  obtain ⟨haddress, hwrapped, rfl⟩ := payloadAad_zero_inj hmagic rfl haad
  rw [hrange] at hwrapped
  subst hwrapped
  -- a length cut to its field would leave the header shorter than the one sealed
  simp only [Header.wrapped, headerOf, length_append] at htail ⊢
  have hid := Nat.mod_le call.registry.primary.length (2 ^ 16)
  have hmetadata := Nat.mod_le made.metadata.length (2 ^ 32)
  have hlong := call.short
  have hshrunk := (decompress_compress hpack).1
  refine ⟨haddress, provider, packed, made, hfind, ?_, hcreate, Nat.mod_eq_of_lt hlong,
    Nat.mod_eq_of_lt (hshrunk.trans_lt hlong), by omega, rfl⟩
  rw [Nat.mod_eq_of_lt (codec_lt hpack), hpack]

namespace Unforged

theorem sealed_of_open (ideal : Unforged codecs history id provider objectOf framed)
    {generation chunk : ℕ} {metadata bytes header plain : Bytes} {cipher : ObjectCipher}
    (hcipher : provider.openObject generation metadata = .ok cipher) (hbytes : bytes <:+: framed)
    {address : ManifestAddress}
    (hopen : cipher.openChunk chunk bytes (payloadAad chunk address.bytes header) = .ok plain) :
    ∃ call ∈ history, objectOf metadata = some call ∧ call.registry.primary = id ∧
      call.Seals codecs ⟨chunk, plain, payloadAad chunk address.bytes header⟩ := by
  rcases (ideal.opened _ _ _ hcipher).2 _ _ _ _ hbytes hopen with h | h
  · exact h
  · have := address.lt_length_payloadAad chunk header
    omega

theorem piece_of_open (ideal : Unforged codecs history id provider objectOf framed)
    {generation chunk codec : ℕ} {metadata bytes header plain packed : Bytes} {cipher : ObjectCipher}
    (hcipher : provider.openObject generation metadata = .ok cipher) (hbytes : bytes <:+: framed)
    {address : ManifestAddress}
    (hopen : cipher.openChunk chunk bytes (payloadAad chunk address.bytes header) = .ok plain)
    {call : SealCall} (howner : objectOf metadata = some call)
    (hpack : compress codecs call.plaintext = .ok (codec, packed)) {made : NewObject}
    (hcreate : provider.create call.address.generation call.draw = .ok made) :
    plain = (packed.drop (chunk * made.cipher.chunkBytes)).take made.cipher.chunkBytes := by
  obtain ⟨call', hmem, howner', hprimary, provider', codec', packed', made', hfind, hpack', hcreate',
    hseal⟩ := ideal.sealed_of_open hcipher hbytes hopen
  obtain rfl := Option.some.inj (howner.symm.trans howner')
  have hregistered := ideal.registered _ hmem hprimary
  rw [hprimary] at hfind
  obtain rfl := Option.some.inj (hregistered.symm.trans hfind)
  obtain rfl := Except.ok.inj (hcreate.symm.trans hcreate')
  obtain ⟨-, rfl⟩ := Prod.mk.inj (Except.ok.inj (hpack.symm.trans hpack'))
  obtain ⟨i, hi⟩ := mem_chunkSeals hseal
  obtain ⟨hchunk, hplain, -⟩ := ChunkSeal.mk.inj hi
  rw [hplain, hchunk, Nat.zero_add]

/-- What opens with a chunk was sealed at that address, by the call its metadata belongs to. -/
theorem authentic (ideal : Unforged codecs history id provider objectOf framed)
    {registry : ProviderRegistry} {address : ManifestAddress} {p : Bytes}
    (hfind : registry.find id = some provider)
    (hopen : openPayload registry codecs address.generation address.bytes framed = .ok (p, id))
    (hchunked : Chunked provider address.generation framed) :
    ∃ call ∈ history, call.address = address ∧ call.registry.primary = id ∧ call.plaintext = p ∧
      (recordedMetadata framed).bind objectOf = some call := by
  obtain ⟨header, rest, provider', cipher, hrun, hmagic, -, hmax, hlength, hid, hfind', hcipher,
    hbody⟩ := openPayload_eq_ok hopen
  obtain rfl := Option.some.inj (hfind.symm.trans hfind')
  obtain ⟨header', rest', cipher', hrun', hcipher', hnonzero⟩ := hchunked
  obtain ⟨rfl, rfl⟩ := Prod.mk.inj (Option.some.inj (hrun.symm.trans hrun'))
  obtain rfl := Except.ok.inj (hcipher.symm.trans hcipher')
  have hwide : header.packedLen + cipher.chunkBytes ≤ 2 ^ 64 := by
    by_contra hwide
    exact hnonzero (chunkCount_eq_zero (hmax.trans (by decide)) (not_le.1 hwide))
  have hframed := getHeader_run hrun
  have hrange : header.wrapped = header := by
    have hread := reads_header_wrapped header rest
    rw [← hframed, hrun] at hread
    exact (Prod.mk.inj (Option.some.inj hread)).1.symm
  have hhead : framed.take (framed.length - rest.length + header.providerLen +
      header.metadataLen) = putHeader header ++
        rest.take (header.providerLen + header.metadataLen) := by
    have hsplit : framed.length - rest.length + header.providerLen + header.metadataLen =
        (putHeader header).length + (header.providerLen + header.metadataLen) := by
      rw [hframed, length_append]
      omega
    rw [hsplit, hframed, take_length_add_append]
  have hinfix : rest.drop (header.providerLen + header.metadataLen) <:+: framed := by
    refine ((drop_suffix _ _).trans ?_).isInfix
    rw [hframed]
    exact suffix_append _ _
  rw [hhead] at hbody
  obtain ⟨-, packed, hchunks, hunpack⟩ := openBody_eq_ok hbody
  have hpos := (ideal.opened _ _ _ hcipher).1
  obtain ⟨count, hcount⟩ := Nat.exists_eq_succ_of_ne_zero hnonzero
  have hfirst := hchunks
  rw [hcount] at hfirst
  obtain ⟨bytes, plain, -, hbytes, hplain, -⟩ := openChunks_succ hfirst
  obtain ⟨call, hmem, howner, hprimary, hseals⟩ :=
    ideal.sealed_of_open hcipher (hbytes.trans hinfix) hplain
  obtain ⟨haddress, provider', content, made, hfound, hpack, hcreate, hplainLen, hpackedLen,
    hproviderLen, htail⟩ := hseals.header hmagic hrange (by rw [length_take]; omega)
  rw [hprimary] at hfound
  obtain rfl := Option.some.inj ((ideal.registered _ hmem hprimary).symm.trans hfound)
  have hmetadata : (rest.drop header.providerLen).take header.metadataLen = made.metadata := by
    rw [take_drop, htail, hproviderLen, drop_left]
  rw [hmetadata] at hcipher howner
  obtain ⟨-, reopened, hreopened, hinv⟩ := provider.reopens _ _ _ hcreate
  rw [haddress] at hcipher
  obtain rfl := Except.ok.inj (hcipher.symm.trans hreopened)
  have hcontent : packed = content := by
    rw [hpackedLen] at hchunks hwide
    have hpieces : ∀ chunk bytes plain, bytes <:+: framed →
        cipher.openChunk chunk bytes (payloadAad chunk address.bytes (putHeader header ++
          rest.take (header.providerLen + header.metadataLen))) = .ok plain →
        plain = (content.drop (chunk * cipher.chunkBytes)).take cipher.chunkBytes := by
      intro chunk bytes plain hbytes hopened
      rw [hinv.chunkBytes]
      exact ideal.piece_of_open hcipher hbytes hopened howner hpack hcreate
    simpa using openChunks_eq_drop hpos hwide hpieces _ hinfix (by simp) hchunks
  rw [hcontent, hplainLen, (decompress_compress hpack).2] at hunpack
  refine ⟨call, hmem, haddress.symm, hprimary, Except.ok.inj hunpack, ?_⟩
  simp [recordedMetadata, hrun, hmetadata, howner]

end Unforged

/-! ### A payload without chunks -/

/-- zstd makes nothing of nothing. -/
def NothingOfNothing (codecs : Compressors) : Prop :=
  ∀ capacity produced, codecs.zstd.decompress capacity [] = some produced → produced = []

theorem decompress_nil (hzstd : NothingOfNothing codecs) {codec plainLen : ℕ} {p : Bytes}
    (h : decompress codecs [] codec plainLen = .ok p) : p = [] ∧ plainLen = 0 := by
  unfold decompress at h
  split_ifs at h with hcodec hlength hcodec hplain
  · exact ⟨(Except.ok.inj h).symm, (not_not.1 hlength).symm⟩
  · exact ⟨(Except.ok.inj h).symm, hplain⟩
  · split at h
    · cases h
    · next produced hproduced =>
      split_ifs at h with hlength
      obtain rfl := Except.ok.inj h
      have hnil := hzstd _ _ hproduced
      exact ⟨hnil, by simpa [hnil, eq_comm] using hlength⟩

theorem of_not_chunked (hzstd : NothingOfNothing codecs) {registry : ProviderRegistry}
    {generation : ℕ} {address p : Bytes} (hfind : registry.find id = some provider)
    (h : openPayload registry codecs generation address framed = .ok (p, id))
    (hno : ¬ Chunked provider generation framed) : p = [] ∧ plainLen framed = some 0 := by
  obtain ⟨header, rest, provider', cipher, hrun, -, -, -, -, -, hfind', hcipher, hbody⟩ :=
    openPayload_eq_ok h
  obtain rfl := Option.some.inj (hfind.symm.trans hfind')
  have hzero : chunkCount header.packedLen cipher.chunkBytes = 0 := by
    by_contra hnonzero
    exact hno ⟨header, rest, cipher, hrun, hcipher, hnonzero⟩
  obtain ⟨-, packed, hchunks, hunpack⟩ := openBody_eq_ok hbody
  rw [hzero] at hchunks
  obtain rfl := Except.ok.inj hchunks
  simpa [plainLen, hrun] using decompress_nil hzstd hunpack

/-- Nothing is sealed alike at every address. -/
theorem sealPayload_nil (registry : ProviderRegistry) (generation draw : ℕ)
    (address address' : Bytes) :
    sealPayload registry codecs generation draw address [] =
      sealPayload registry codecs generation draw address' [] := by
  unfold sealPayload
  split
  · rfl
  · split
    · rfl
    · next codec packed hpack =>
      obtain rfl : packed = [] :=
        eq_nil_of_length_eq_zero (Nat.le_zero.1 (decompress_compress hpack).1)
      rfl

theorem SealCall.run_eq_ok {call : SealCall} (h : call.run codecs = .ok framed)
    (hfits : call.registry.Fits) :
    ∃ provider codec packed made, call.registry.find call.registry.primary = some provider ∧
      compress codecs call.plaintext = .ok (codec, packed) ∧
      provider.create call.address.generation call.draw = .ok made ∧
      plainLen framed = some call.plaintext.length ∧
      recordedMetadata framed = some made.metadata := by
  obtain ⟨provider, codec, packed, made, body, hfind, hpack, hcreate, -, rfl⟩ := sealPayload_eq_ok h
  refine ⟨provider, codec, packed, made, hfind, hpack, hcreate, ?_⟩
  have hmetadata := (hfits.made _ hfind _ _ _ hcreate).1
  have hrun : getHeader.run (sealedHeader call.registry made.metadata codec call.plaintext.length
      packed.length ++ body) = some ((headerOf call.registry made.metadata codec
        call.plaintext.length packed.length).wrapped,
        call.registry.primary ++ (made.metadata ++ body)) := by
    rw [sealedHeader, append_assoc, append_assoc]
    exact reads_header_wrapped _ _
  rw [plainLen, recordedMetadata, hrun]
  simp only [Option.map_some, Header.wrapped, headerOf, Nat.mod_eq_of_lt call.short,
    Nat.mod_eq_of_lt hfits.id, Nat.mod_eq_of_lt hmetadata, drop_left, take_left, and_self]

/-- Another address. -/
def ManifestAddress.sibling : ManifestAddress → ManifestAddress
  | .snapshot generation => .edit generation 0
  | .edit generation seq => .edit generation (seq + 1)

/-! ### Which payloads are authentic -/

/-- The plaintext was sealed for this address and provider. -/
def SealedAt (history : List SealCall) (address : ManifestAddress) (id plaintext : Bytes) : Prop :=
  ∃ call ∈ history, call.address = address ∧ call.registry.primary = id ∧
    call.plaintext = plaintext

/-- What opens was sealed at that address exactly if a chunk was opened or nothing was sealed there;
a sealed payload opens at its address alone exactly if it is not empty. -/
theorem payload_authentic_iff (hzstd : NothingOfNothing codecs)
    (ideal : Unforged codecs history id provider objectOf framed) :
    (∀ (registry : ProviderRegistry) (address : ManifestAddress) (p : Bytes),
      registry.find id = some provider →
      openPayload registry codecs address.generation address.bytes framed = .ok (p, id) →
      (SealedAt history address id p ↔
        Chunked provider address.generation framed ∨ SealedAt history address id [])) ∧
    ∀ call ∈ history, call.registry.primary = id → call.registry.Fits →
      call.run codecs = .ok framed →
      ((∀ (registry : ProviderRegistry) (address : ManifestAddress) (p : Bytes),
        registry.find id = some provider →
        openPayload registry codecs address.generation address.bytes framed = .ok (p, id) →
        address = call.address) ↔ call.plaintext ≠ []) := by
  constructor
  · intro registry address p hfind hopen
    by_cases hchunked : Chunked provider address.generation framed
    · obtain ⟨call, hmem, haddress, hprimary, hplaintext, -⟩ := ideal.authentic hfind hopen hchunked
      exact iff_of_true ⟨call, hmem, haddress, hprimary, hplaintext⟩ (.inl hchunked)
    · rw [(of_not_chunked hzstd hfind hopen hchunked).1]
      simp [hchunked]
  · intro call hmem hprimary hfits hrun
    obtain ⟨provider', codec, packed, made, hfound, hpack, hcreate, hplainLen, hmetadata⟩ :=
      SealCall.run_eq_ok hrun hfits
    have hregistered := ideal.registered call hmem hprimary
    rw [hprimary] at hfound
    obtain rfl := Option.some.inj (hregistered.symm.trans hfound)
    constructor
    · intro hown hempty
      rw [SealCall.run, hempty, sealPayload_nil _ _ _ _ call.address.sibling.bytes] at hrun
      have hopen := openPayload_sealPayload_of_fits hrun hfits.id
        (fun _ _ hfind hcreate => sizes_of_fits hfits hfind hcreate (Nat.zero_le _)) (Nat.zero_le _)
      rw [hprimary] at hopen
      have hsibling : call.address.sibling.generation = call.address.generation := by
        cases call.address <;> rfl
      rw [← hsibling] at hopen
      have hsame := hown call.registry call.address.sibling _ hregistered hopen
      cases haddress : call.address <;> simp [haddress, ManifestAddress.sibling] at hsame
    · intro hnonempty registry address p hfind hopen
      have hchunked : Chunked provider address.generation framed := by
        by_contra hno
        have hzero := hplainLen.symm.trans (of_not_chunked hzstd hfind hopen hno).2
        exact hnonempty (eq_nil_of_length_eq_zero (Option.some.inj hzero))
      obtain ⟨call', -, haddress, -, -, howner⟩ := ideal.authentic hfind hopen hchunked
      rw [hmetadata, Option.bind_some, ideal.owner call hmem hprimary made hcreate] at howner
      rw [← haddress, Option.some.inj howner]

end Authentic

/-! ### One sealed payload -/

/-- What precedes chunks of this length, under id `[1]` and metadata `[7]`. -/
def onceHeader (length : ℕ) : Bytes :=
  sealedHeader { find := fun _ => none, primary := [1] } [7] codecNone length length

/-- The associated data of the one chunk of a snapshot `[5]`. -/
def onceAad : Bytes :=
  payloadAad 0 (snapshotAddress 1) (onceHeader 1)

/-- A cipher that seals that chunk only. -/
def onceCipher : ObjectCipher where
  chunkBytes := 4096
  overheadBytes := 1
  sealChunk chunk plain aad :=
    if chunk = 0 ∧ plain = [5] ∧ aad = onceAad then .ok [5, 255] else .error .io
  openChunk chunk bytes aad :=
    if chunk = 0 ∧ bytes = [5, 255] ∧ aad = onceAad then .ok [5] else .error .corrupt

/-- Its provider. -/
def onceProvider : EncryptionProvider where
  create _ _ := .ok ⟨onceCipher, [7]⟩
  openObject _ metadata := if metadata = [7] then .ok onceCipher else .error .corrupt
  create_error _ _ _ h := by cases h
  seal_error := by
    intro id draw made chunk plain aad status h herror
    obtain rfl := Except.ok.inj h
    simp only [onceCipher] at herror
    split_ifs at herror
    rw [← Except.error.inj herror]
    decide
  reopens := by
    intro id draw made h
    obtain rfl := Except.ok.inj h
    refine ⟨by decide, onceCipher, rfl, rfl, rfl, ?_⟩
    intro chunk plain aad bytes hsealed
    simp only [onceCipher] at hsealed ⊢
    split_ifs at hsealed with hlogged
    obtain ⟨rfl, rfl, rfl⟩ := hlogged
    obtain rfl := Except.ok.inj hsealed
    exact ⟨rfl, if_pos ⟨rfl, rfl, rfl⟩⟩

/-- Its registry. -/
def onceRegistry : ProviderRegistry where
  find id := if id = [1] then some onceProvider else none
  primary := [1]

/-- The one call. -/
def onceCall : SealCall where
  registry := onceRegistry
  address := .snapshot 1
  draw := 0
  plaintext := [5]
  short := by decide

theorem onceCall_unforged (framed : Bytes) :
    Unforged ⟨verbatim, verbatim⟩ [onceCall] [1] onceProvider
      (fun metadata => if metadata = [7] then some onceCall else none) framed where
  registered call hcall _ := by
    obtain rfl := mem_singleton.1 hcall
    rfl
  owner call hcall _ made hcreate := by
    obtain rfl := mem_singleton.1 hcall
    obtain rfl := Except.ok.inj hcreate
    rfl
  opened generation metadata cipher hcipher := by
    simp only [onceProvider] at hcipher
    split_ifs at hcipher with hmetadata
    obtain rfl := Except.ok.inj hcipher
    refine ⟨by decide, fun chunk bytes aad plain _ hopen => .inl ?_⟩
    simp only [onceCipher] at hopen
    split_ifs at hopen with hlogged
    obtain ⟨rfl, -, rfl⟩ := hlogged
    obtain rfl := Except.ok.inj hopen
    exact ⟨onceCall, .head _, if_pos hmetadata, rfl, onceProvider, codecNone, [5],
      ⟨onceCipher, [7]⟩, rfl, rfl, rfl, .head _⟩

/-- The sealed payload opens, to what was sealed at its address. -/
theorem payload_authentic_once :
    openPayload onceRegistry ⟨verbatim, verbatim⟩ 1 (snapshotAddress 1)
        (onceHeader 1 ++ [5, 255]) = .ok ([5], [1]) ∧
      SealedAt [onceCall] (.snapshot 1) [1] [5] := by
  have hopen : openPayload onceRegistry ⟨verbatim, verbatim⟩ 1 (snapshotAddress 1)
      (onceHeader 1 ++ [5, 255]) = .ok ([5], [1]) := by
    decide +kernel
  have hzstd : NothingOfNothing ⟨verbatim, verbatim⟩ := fun _ _ h => (Option.some.inj h).symm
  refine ⟨hopen, ?_⟩
  exact ((payload_authentic_iff hzstd (onceCall_unforged _)).1 onceRegistry (.snapshot 1) [5] rfl
    hopen).2 (.inl ⟨_, _, onceCipher, rfl, rfl, by decide +kernel⟩)

/-- A sealed header with its lengths set to zero opens to nothing at every edit of the generation,
where nothing was sealed. -/
theorem header_only_payload_opens :
    let forged := onceHeader 0
    Unforged ⟨verbatim, verbatim⟩ [onceCall] [1] onceProvider
        (fun metadata => if metadata = [7] then some onceCall else none) forged ∧
      openPayload onceRegistry ⟨verbatim, verbatim⟩ 1 (snapshotAddress 1) forged =
        .ok ([], [1]) ∧
      openPayload onceRegistry ⟨verbatim, verbatim⟩ 1 (editAddress 1 1) forged = .ok ([], [1]) ∧
      ∀ address, ¬ SealedAt [onceCall] address [1] [] := by
  refine ⟨onceCall_unforged _, by decide +kernel, by decide +kernel, ?_⟩
  rintro address ⟨call, hcall, -, -, hplaintext⟩
  obtain rfl := mem_singleton.1 hcall
  cases hplaintext

end ManifestPayload

end ElysiumKV
