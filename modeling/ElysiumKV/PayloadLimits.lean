import ElysiumKV.ManifestReplay

/-!
# The sizes a payload can have

`sealPayload` cuts lengths down to the header's fields, counts chunks in 64 bits, and `openPayload`
refuses more than 256 MiB. A payload reads back exactly if the lengths fit and the count does not
wrap.
-/

namespace ElysiumKV

open List

namespace ManifestPayload

/-! ### A provider that knows its metadata -/

/-- Chunks of this size, stored as they are. -/
def verbatimCipher (chunkBytes : ℕ) : ObjectCipher := { passthroughCipher with chunkBytes }

/-- Chunks as they are, under one metadata. -/
def recordingProvider (metadata : Bytes) (chunkBytes : ℕ) (hpos : 0 < chunkBytes) :
    EncryptionProvider where
  create _ _ := .ok ⟨verbatimCipher chunkBytes, metadata⟩
  openObject _ recorded :=
    if recorded = metadata then .ok (verbatimCipher chunkBytes) else .error .corrupt
  create_error _ _ _ h := by cases h
  seal_error := by
    intro id draw made chunk plain aad status h herror
    obtain rfl := Except.ok.inj h
    cases herror
  reopens := by
    intro id draw made h
    obtain rfl := Except.ok.inj h
    refine ⟨hpos, verbatimCipher chunkBytes, if_pos rfl, rfl, rfl, ?_⟩
    intro chunk plain aad bytes hsealed
    obtain rfl := Except.ok.inj hsealed
    exact ⟨rfl, rfl⟩

/-- The provider alone, under this id. -/
def soleRegistry (id metadata : Bytes) (chunkBytes : ℕ) (hpos : 0 < chunkBytes) :
    ProviderRegistry where
  find recorded := if recorded = id then some (recordingProvider metadata chunkBytes hpos) else none
  primary := id

variable {id metadata address plaintext body : Bytes} {generation draw chunkBytes : ℕ}
  {hpos : 0 < chunkBytes}

theorem openObject_recordingProvider {recorded : Bytes} {cipher : ObjectCipher}
    (h : (recordingProvider metadata chunkBytes hpos).openObject generation recorded = .ok cipher) :
    recorded = metadata ∧ cipher = verbatimCipher chunkBytes := by
  simp only [recordingProvider] at h
  split_ifs at h with hrecorded
  exact ⟨hrecorded, (Except.ok.inj h).symm⟩

theorem find_soleRegistry {recorded : Bytes} {provider : EncryptionProvider}
    (h : (soleRegistry id metadata chunkBytes hpos).find recorded = some provider) :
    recorded = id ∧ provider = recordingProvider metadata chunkBytes hpos := by
  simp only [soleRegistry] at h
  split_ifs at h with hrecorded
  exact ⟨hrecorded, (Option.some.inj h).symm⟩

theorem sealChunks_verbatim (hpos : 0 < chunkBytes) (address header : Bytes) (count : ℕ) :
    ∀ {chunk : ℕ} {rest : Bytes}, rest.length + chunkBytes ≤ 2 ^ 64 →
      chunkCount rest.length chunkBytes = count →
      sealChunks (verbatimCipher chunkBytes) address header count chunk rest = .ok rest := by
  induction count with
  | zero =>
    intro chunk rest hwide hcount
    obtain rfl := eq_nil_of_length_eq_zero (eq_zero_of_chunkCount hpos hwide hcount)
    rfl
  | succ count ih =>
    intro chunk rest hwide hcount
    obtain ⟨-, hcount⟩ := chunkCount_eq_succ hpos hwide hcount
    rw [← length_drop] at hcount
    have hothers : sealChunks (verbatimCipher chunkBytes) address header count (chunk + 1)
        (rest.drop chunkBytes) = .ok (rest.drop chunkBytes) :=
      ih (by rw [length_drop]; omega) hcount
    unfold sealChunks
    simp only [verbatimCipher, passthroughCipher] at hothers ⊢
    simp only [hothers, take_append_drop]

/-- A payload not compressed. -/
def plainFrame (id metadata plaintext body : Bytes) : Bytes :=
  sealedHeader { find := fun _ => none, primary := id } metadata codecNone plaintext.length
    plaintext.length ++ body

/-- If the count of the chunks wraps, none is sealed. -/
theorem sealPayload_soleRegistry (hlength : plaintext.length < 2 ^ 64) :
    sealPayload (soleRegistry id metadata chunkBytes hpos) ⟨verbatim, verbatim⟩ generation draw
        address plaintext =
      .ok (plainFrame id metadata plaintext
        (if plaintext.length + chunkBytes ≤ 2 ^ 64 then plaintext else [])) := by
  have hfind : (soleRegistry id metadata chunkBytes hpos).find
      (soleRegistry id metadata chunkBytes hpos).primary =
        some (recordingProvider metadata chunkBytes hpos) := if_pos rfl
  have hpack : compress ⟨verbatim, verbatim⟩ plaintext = .ok (codecNone, plaintext) := by
    simp [compress, verbatim]
  have hcreate : (recordingProvider metadata chunkBytes hpos).create generation draw =
      .ok ⟨verbatimCipher chunkBytes, metadata⟩ := rfl
  have hchunks : ∀ header, sealChunks (verbatimCipher chunkBytes) address header
      (chunkCount plaintext.length chunkBytes) 0 plaintext =
        .ok (if plaintext.length + chunkBytes ≤ 2 ^ 64 then plaintext else []) := by
    intro header
    split_ifs with hwide
    · exact sealChunks_verbatim hpos address header _ hwide rfl
    · rw [chunkCount_eq_zero hlength.le (not_le.1 hwide)]
      rfl
  unfold sealPayload
  simp only [hfind, hpack, hcreate]
  simp only [verbatimCipher] at hchunks ⊢
  rw [hchunks]
  rfl

theorem fits_of_openPayload_plainFrame {result : Bytes × Bytes}
    (h : openPayload (soleRegistry id metadata chunkBytes hpos) ⟨verbatim, verbatim⟩ generation
      address (plainFrame id metadata plaintext body) = .ok result) :
    body.length ≤ maxPayloadBytes ∧ id.length < 2 ^ 16 ∧ metadata.length < 2 ^ 32 ∧
      body.length = plaintext.length % 2 ^ 64 := by
  obtain ⟨header, rest, provider, cipher, hrun, -, -, hpacked, -, hid, hfind, hopen, hbody⟩ :=
    openPayload_eq_ok h
  have hframe : plainFrame id metadata plaintext body =
      putHeader (headerOf { find := fun _ => none, primary := id } metadata codecNone
        plaintext.length plaintext.length) ++ (id ++ (metadata ++ body)) := by
    simp [plainFrame, sealedHeader]
  rw [hframe, reads_header_wrapped _ _] at hrun
  obtain ⟨rfl, rfl⟩ := Prod.mk.inj (Option.some.inj hrun)
  simp only [Header.wrapped, headerOf] at hpacked hid hopen hbody
  obtain ⟨hfound, rfl⟩ := find_soleRegistry hfind
  have hidLength : id.length < 2 ^ 16 := by
    have hlength := congrArg List.length (hfound.symm.trans hid)
    have hmod := Nat.mod_lt id.length (by decide : 0 < 2 ^ 16)
    simp only [length_take] at hlength
    omega
  rw [Nat.mod_eq_of_lt hidLength, drop_left] at hopen
  obtain ⟨hrecorded, rfl⟩ := openObject_recordingProvider hopen
  have hmetadataLength : metadata.length < 2 ^ 32 := by
    have hlength := congrArg List.length hrecorded
    have hmod := Nat.mod_lt metadata.length (by decide : 0 < 2 ^ 32)
    simp only [length_take] at hlength
    omega
  have hdrop : (id ++ (metadata ++ body)).drop (id.length + metadata.length) = body := by
    rw [← append_assoc, ← length_append, drop_left]
  rw [Nat.mod_eq_of_lt hmetadataLength, Nat.mod_eq_of_lt hidLength, hdrop] at hbody
  have hlength := (openBody_eq_ok hbody).1
  simp only [verbatimCipher, passthroughCipher, Nat.mul_zero, Nat.add_zero] at hlength
  exact ⟨hlength.trans_le hpacked, hidLength, hmetadataLength, hlength⟩

/-! ### The sizes that can be read back -/

/-- The primary provider's metadata has this length, its chunks this size. -/
def Records (registry : ProviderRegistry) (generation draw length chunkBytes : ℕ) : Prop :=
  ∀ provider made, registry.find registry.primary = some provider →
    provider.create generation draw = .ok made →
      made.metadata.length = length ∧ made.cipher.chunkBytes = chunkBytes

/-- Payloads of these sizes all open to what was sealed exactly if the sizes are within the limits.
-/
theorem payload_round_trip_iff {plainLen chunkBytes : ℕ} (idLen metadataLen : ℕ)
    (hplain : plainLen < 2 ^ 64) (hpos : 0 < chunkBytes) (hchunk : chunkBytes < 2 ^ 64) :
    (∀ (registry : ProviderRegistry) (codecs : Compressors) (generation draw : ℕ)
      (address plaintext framed : Bytes), plaintext.length = plainLen →
      registry.primary.length = idLen →
      Records registry generation draw metadataLen chunkBytes →
      sealPayload registry codecs generation draw address plaintext = .ok framed →
      ∃ id, openPayload registry codecs generation address framed = .ok (plaintext, id)) ↔
    plainLen ≤ maxPayloadBytes ∧ idLen < 2 ^ 16 ∧ metadataLen < 2 ^ 32 ∧
      plainLen + chunkBytes ≤ 2 ^ 64 := by
  constructor
  · intro h
    have hlength : (List.replicate plainLen (0 : UInt8)).length = plainLen := length_replicate
    obtain ⟨id, hopen⟩ := h
      (soleRegistry (.replicate idLen 0) (.replicate metadataLen 0) chunkBytes hpos)
      ⟨verbatim, verbatim⟩ 0 0 [] _ _ hlength length_replicate
      (fun provider made hfind hcreate => by
        obtain rfl := Option.some.inj ((if_pos rfl).symm.trans hfind)
        obtain rfl := Except.ok.inj hcreate
        exact ⟨length_replicate, rfl⟩)
      (sealPayload_soleRegistry (by rwa [hlength]))
    obtain ⟨hmax, hid, hmetadata, hbody⟩ := fits_of_openPayload_plainFrame hopen
    rw [length_replicate] at hid hmetadata
    rw [hbody, hlength, Nat.mod_eq_of_lt hplain] at hmax
    refine ⟨hmax, hid, hmetadata, ?_⟩
    by_contra hwide
    rw [hlength, Nat.mod_eq_of_lt hplain, if_neg hwide, length_nil] at hbody
    omega
  · rintro ⟨hmax, hid, hmetadata, hwide⟩ registry codecs generation draw address plaintext framed
      rfl rfl hrecords hseal
    refine ⟨registry.primary, openPayload_sealPayload_of_fits hseal hid ?_ hmax⟩
    intro provider made hfind hcreate
    obtain ⟨hlength, hchunks⟩ := hrecords provider made hfind hcreate
    exact ⟨hlength ▸ hmetadata, hchunks ▸ hwide⟩

/-- Two bytes in the widest chunk, and in the widest that can be counted. -/
theorem payload_round_trip_iff_two :
    (¬ ∀ (registry : ProviderRegistry) (codecs : Compressors) (generation draw : ℕ)
      (address plaintext framed : Bytes), plaintext.length = 2 → registry.primary.length = 1 →
      Records registry generation draw 1 (2 ^ 64 - 1) →
      sealPayload registry codecs generation draw address plaintext = .ok framed →
      ∃ id, openPayload registry codecs generation address framed = .ok (plaintext, id)) ∧
    ∀ (registry : ProviderRegistry) (codecs : Compressors) (generation draw : ℕ)
      (address plaintext framed : Bytes), plaintext.length = 2 → registry.primary.length = 1 →
      Records registry generation draw 1 (2 ^ 64 - 2) →
      sealPayload registry codecs generation draw address plaintext = .ok framed →
      ∃ id, openPayload registry codecs generation address framed = .ok (plaintext, id) := by
  constructor
  · rw [payload_round_trip_iff 1 1 (by decide) (by decide) (by decide)]
    decide
  · exact (payload_round_trip_iff 1 1 (by decide) (by decide) (by decide)).2 (by decide)

/-- A snapshot of one byte more than 256 MiB is sealed, and does not open. -/
theorem oversized_payload_sealed :
    ∃ framed, sealPayload (soleRegistry [] [] 4096 (by decide)) ⟨verbatim, verbatim⟩ 1 0
        (snapshotAddress 1) (.replicate (maxPayloadBytes + 1) 0) = .ok framed ∧
      ∀ result, openPayload (soleRegistry [] [] 4096 (by decide)) ⟨verbatim, verbatim⟩ 1
        (snapshotAddress 1) framed ≠ .ok result := by
  have hlength : (List.replicate (maxPayloadBytes + 1) (0 : UInt8)).length = maxPayloadBytes + 1 :=
    length_replicate
  refine ⟨_, sealPayload_soleRegistry (by rw [hlength]; decide), fun result h => ?_⟩
  obtain ⟨hmax, -, -, hbody⟩ := fits_of_openPayload_plainFrame h
  rw [hbody, hlength, Nat.mod_eq_of_lt (by decide)] at hmax
  omega

end ManifestPayload

end ElysiumKV
