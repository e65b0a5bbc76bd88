import Mathlib.Tactic
import ElysiumKV.Lib.Bitmap
import ElysiumKV.Wire

/-!
# Bloom filters

512-bit blocks, in one of which all probes of a key fall, then the numbers of blocks and probes.
Nothing bounds the setting the bitmap is sized from: where no block is left in 32 bits, the first
probe is written outside. The hash is a parameter.
-/

namespace ElysiumKV

open Codec List

/-- `kBlockBits` -/
def bloomBlockBits : ℕ := 512

/-- `kBlockBytes` -/
def bloomBlockBytes : ℕ := bloomBlockBits / 8

/-- `kFilterTrailer` -/
def filterTrailer : ℕ := 4 + 1

/-- `derive_h2`. -/
def deriveH2 (hash : UInt64) : UInt64 := (hash >>> 32) ||| 1

/-- `block_index`. -/
def blockIndex (hash : UInt64) (numBlocks : UInt32) : ℕ :=
  (((hash >>> 32) * numBlocks.toUInt64) >>> 32).toNat

/-- `h % kBlockBits`: the bit a probe names. -/
def probeBit (h : UInt64) : ℕ := (h % 512).toNat

/-- `BloomBuilder`, with its constructor's bounds. -/
structure BloomBuilder where
  /-- `hashes_` -/
  hashes : List UInt64
  /-- `bits_per_key_` -/
  bitsPerKey : ℤ
  /-- `num_probes_` -/
  numProbes : ℕ
  bitsPerKey_pos : 1 ≤ bitsPerKey
  numProbes_mem : 1 ≤ numProbes ∧ numProbes ≤ 32

namespace BloomBuilder

/-- `BloomBuilder::BloomBuilder` -/
def new (bitsPerKey numProbes : ℤ) : BloomBuilder where
  hashes := []
  bitsPerKey := max 1 bitsPerKey
  numProbes := (max 1 (min numProbes 32)).toNat
  bitsPerKey_pos := le_max_left ..
  numProbes_mem := by omega

/-- `add`. -/
def add (xxhash64 : Bytes → UInt64) (b : BloomBuilder) (key : Bytes) : BloomBuilder :=
  { b with hashes := b.hashes ++ [xxhash64 key] }

/-- The `num_blocks` of `finish`: `size_t` arithmetic, then the low 32 bits. -/
def numBlocks (numKeys : ℕ) (bitsPerKey : ℤ) : UInt32 :=
  let totalBits : UInt64 := max 512 (UInt64.ofNat numKeys * UInt64.ofInt bitsPerKey)
  ((totalBits + 512 - 1) / 512).toUInt32

/-- The probe loop of `finish` for one hash. -/
def markProbes (base : ℕ) (h2 : UInt64) : ℕ → UInt64 → Bytes → Option Bytes
  | 0, _, bits => some bits
  | probes + 1, h, bits => do
    let bits ← Bitmap.mark bits (base + probeBit h / 8) (probeBit h % 8)
    markProbes base h2 probes (h + h2) bits

/-- The loop of `finish` over the hashes. -/
def markHashes (numBlocks : UInt32) (numProbes : ℕ) (hashes : List UInt64) (bits : Bytes) :
    Option Bytes :=
  hashes.foldlM (fun bits hash =>
    markProbes (blockIndex hash numBlocks * bloomBlockBytes) (deriveH2 hash) numProbes hash bits)
    bits

/-- `finish`; `none` where a probe is written outside of the bitmap. -/
def finish (b : BloomBuilder) : Option Bytes := do
  let numBlocks := numBlocks b.hashes.length b.bitsPerKey
  let bits := List.replicate (numBlocks.toNat * bloomBlockBytes) 0
  let bits ← markHashes numBlocks b.numProbes b.hashes bits
  return bits ++ putFixed32 numBlocks.toNat ++ [UInt8.ofNat b.numProbes]

/-- A builder's life: its settings, the keys added, `finish`. -/
def filterOf (xxhash64 : Bytes → UInt64) (bitsPerKey numProbes : ℤ) (keys : List Bytes) :
    Option Bytes :=
  (keys.foldl (add xxhash64) (new bitsPerKey numProbes)).finish

end BloomBuilder

/-- The probe loop of `bloom_may_contain`. -/
def testProbes (filter : Bytes) (base : ℕ) (h2 : UInt64) : ℕ → UInt64 → Option Bool
  | 0, _ => some true
  | probes + 1, h => do
    let isSet ← Bitmap.test filter (base + probeBit h / 8) (probeBit h % 8)
    if isSet then testProbes filter base h2 probes (h + h2) else some false

variable (xxhash64 : Bytes → UInt64)

/-- `bloom_may_contain`; `none` where it reads outside. -/
def bloomMayContain (filter key : Bytes) : Option Bool :=
  if filter.length ≤ filterTrailer then some true else
    let bitmapBytes := filter.length - filterTrailer
    let numBlocks := UInt32.ofNat (decodeFixed ((filter.drop bitmapBytes).take 4))
    let numProbes := (filter.getLastD 0).toNat
    if numBlocks = 0 ∨ numProbes = 0 ∨ numBlocks.toNat * bloomBlockBytes ≠ bitmapBytes then
      some true
    else
      let hash := xxhash64 key
      testProbes filter (blockIndex hash numBlocks * bloomBlockBytes) (deriveH2 hash) numProbes hash

/-- A bitmap of some blocks, their number, and a number of probes. -/
def FilterLayout (filter : Bytes) : Prop :=
  ∃ (bitmap : Bytes) (numBlocks : UInt32) (numProbes : UInt8), 0 < numBlocks ∧ 0 < numProbes ∧
    bitmap.length = numBlocks.toNat * bloomBlockBytes ∧
    filter = bitmap ++ putFixed32 numBlocks.toNat ++ [numProbes]

/-! ### Every probe falls in its block -/

theorem probeBit_div_lt (h : UInt64) : probeBit h / 8 < bloomBlockBytes := by
  have : (h % 512).toNat < 512 := by
    rw [UInt64.toNat_mod]
    exact Nat.mod_lt _ (by decide)
  unfold probeBit bloomBlockBytes bloomBlockBits
  omega

theorem blockIndex_lt (hash : UInt64) {numBlocks : UInt32} (h : numBlocks ≠ 0) :
    blockIndex hash numBlocks < numBlocks.toNat := by
  have hpos : 0 < numBlocks.toNat :=
    Nat.pos_of_ne_zero fun h0 => h (UInt32.toNat_inj.1 (by simpa using h0))
  have hhigh : hash.toNat / 2 ^ 32 < 2 ^ 32 := by
    have := hash.toNat_lt
    omega
  have hprod : hash.toNat / 2 ^ 32 * numBlocks.toNat < 2 ^ 32 * numBlocks.toNat :=
    Nat.mul_lt_mul_of_pos_right hhigh hpos
  have hfits : 2 ^ 32 * numBlocks.toNat < 2 ^ 64 := by
    have := numBlocks.toNat_lt
    omega
  have hindex : blockIndex hash numBlocks = hash.toNat / 2 ^ 32 * numBlocks.toNat / 2 ^ 32 := by
    simp only [blockIndex, UInt64.toNat_shiftRight, UInt64.toNat_mul, UInt32.toNat_toUInt64,
      UInt64.toNat_ofNat, Nat.shiftRight_eq_div_pow]
    norm_num
    rw [Nat.mod_eq_of_lt (by simpa using hprod.trans hfits)]
  rw [hindex, Nat.div_lt_iff_lt_mul (by decide)]
  linarith

theorem probe_lt {numBlocks : UInt32} (hblocks : numBlocks ≠ 0) (hash h : UInt64) :
    blockIndex hash numBlocks * bloomBlockBytes + probeBit h / 8 <
      numBlocks.toNat * bloomBlockBytes := by
  have hindex := blockIndex_lt hash hblocks
  have hbit := probeBit_div_lt h
  nlinarith [Nat.mul_le_mul_right bloomBlockBytes (Nat.succ_le_of_lt hindex)]

/-! ### What the builder marks, the reader finds -/

theorem testProbes_of_keeps {bits marked : Bytes} (hkeeps : Bitmap.Keeps bits marked)
    {base probes : ℕ} {h2 h : UInt64} (htest : testProbes bits base h2 probes h = some true) :
    testProbes marked base h2 probes h = some true := by
  induction probes generalizing h with
  | zero => rfl
  | succ probes ih =>
    obtain ⟨isSet, hfirst, hrest⟩ := Option.bind_eq_some_iff.1 htest
    cases isSet with
    | false => cases hrest
    | true =>
      rw [testProbes, hkeeps _ _ hfirst]
      exact ih hrest

namespace BloomBuilder

theorem length_markProbes {base probes : ℕ} {h2 h : UInt64} {bits marked : Bytes}
    (hmark : markProbes base h2 probes h bits = some marked) : marked.length = bits.length := by
  induction probes generalizing h bits with
  | zero => rw [Option.some.inj hmark]
  | succ probes ih =>
    obtain ⟨middle, hfirst, hrest⟩ := Option.bind_eq_some_iff.1 hmark
    exact (ih hrest).trans (Bitmap.length_mark hfirst)

theorem keeps_markProbes {base probes : ℕ} {h2 h : UInt64} {bits marked : Bytes}
    (hmark : markProbes base h2 probes h bits = some marked) : Bitmap.Keeps bits marked := by
  induction probes generalizing h bits with
  | zero =>
    obtain rfl := Option.some.inj hmark
    exact .rfl
  | succ probes ih =>
    obtain ⟨middle, hfirst, hrest⟩ := Option.bind_eq_some_iff.1 hmark
    exact (Bitmap.keeps_mark hfirst).trans (ih hrest)

theorem testProbes_of_markProbes {base probes : ℕ} {h2 h : UInt64} {bits marked : Bytes}
    (hmark : markProbes base h2 probes h bits = some marked) :
    testProbes marked base h2 probes h = some true := by
  induction probes generalizing h bits with
  | zero => rfl
  | succ probes ih =>
    obtain ⟨middle, hfirst, hrest⟩ := Option.bind_eq_some_iff.1 hmark
    rw [testProbes, keeps_markProbes hrest _ _ (Bitmap.test_of_mark hfirst)]
    exact ih hrest

theorem exists_markProbes {base : ℕ} {bits : Bytes}
    (hbase : ∀ h, base + probeBit h / 8 < bits.length) (h2 : UInt64) (probes : ℕ) (h : UInt64) :
    ∃ marked, markProbes base h2 probes h bits = some marked := by
  induction probes generalizing h bits with
  | zero => exact ⟨bits, rfl⟩
  | succ probes ih =>
    obtain ⟨middle, hfirst⟩ := Bitmap.exists_mark (hbase h) (probeBit h % 8)
    have hmiddle : ∀ h, base + probeBit h / 8 < middle.length := by
      rwa [Bitmap.length_mark hfirst]
    obtain ⟨marked, hrest⟩ := ih hmiddle (h + h2)
    exact ⟨marked, by rw [markProbes, hfirst, Option.bind_eq_bind, Option.bind_some, hrest]⟩

theorem exists_markHashes {numBlocks : UInt32} (hblocks : numBlocks ≠ 0) (numProbes : ℕ)
    (hashes : List UInt64) {bits : Bytes}
    (hlength : bits.length = numBlocks.toNat * bloomBlockBytes) :
    ∃ marked, markHashes numBlocks numProbes hashes bits = some marked ∧
      marked.length = bits.length ∧ Bitmap.Keeps bits marked ∧
      ∀ hash ∈ hashes, testProbes marked (blockIndex hash numBlocks * bloomBlockBytes)
        (deriveH2 hash) numProbes hash = some true := by
  induction hashes generalizing bits with
  | nil => exact ⟨bits, rfl, rfl, .rfl, nofun⟩
  | cons hash hashes ih =>
    obtain ⟨middle, hfirst⟩ :=
      exists_markProbes (fun h => hlength ▸ probe_lt hblocks hash h) (deriveH2 hash) numProbes hash
    have hmiddle := length_markProbes hfirst
    obtain ⟨marked, hrest, hlen, hkeeps, htests⟩ := ih (hmiddle.trans hlength)
    refine ⟨marked, ?_, hlen.trans hmiddle, (keeps_markProbes hfirst).trans hkeeps, ?_⟩
    · rw [markHashes, foldlM_cons, hfirst]
      exact hrest
    · rintro other (_ | ⟨_, hother⟩)
      · exact testProbes_of_keeps hkeeps (testProbes_of_markProbes hfirst)
      · exact htests other hother

theorem markHashes_nil {numProbes : ℕ} (hprobes : 1 ≤ numProbes) {hashes : List UInt64}
    (hne : hashes ≠ []) : markHashes 0 numProbes hashes [] = none := by
  obtain ⟨hash, rest, rfl⟩ := exists_cons_of_ne_nil hne
  obtain ⟨probes, rfl⟩ := Nat.exists_eq_add_of_le' hprobes
  rfl

theorem numBlocks_zero (bitsPerKey : ℤ) : numBlocks 0 bitsPerKey = 1 := by
  simp [numBlocks]
  rfl

theorem foldl_add (xxhash64 : Bytes → UInt64) (keys : List Bytes) (b : BloomBuilder) :
    (keys.foldl (add xxhash64) b).hashes = b.hashes ++ keys.map xxhash64 ∧
    (keys.foldl (add xxhash64) b).bitsPerKey = b.bitsPerKey := by
  induction keys generalizing b with
  | nil => simp
  | cons key keys ih =>
    obtain ⟨hhashes, hbits⟩ := ih (add xxhash64 b key)
    rw [foldl_cons, hhashes, hbits]
    simp [add]

end BloomBuilder

/-! ### The reader on the layout, and off it -/

theorem bloomMayContain_append {bitmap : Bytes} (hbitmap : bitmap ≠ [])
    {number : Bytes} (hnumber : number.length = 4) (numProbes : UInt8) (key : Bytes) :
    bloomMayContain xxhash64 (bitmap ++ number ++ [numProbes]) key =
      let numBlocks := UInt32.ofNat (decodeFixed number)
      if numBlocks = 0 ∨ numProbes.toNat = 0 ∨
          numBlocks.toNat * bloomBlockBytes ≠ bitmap.length then some true
      else testProbes (bitmap ++ number ++ [numProbes])
        (blockIndex (xxhash64 key) numBlocks * bloomBlockBytes) (deriveH2 (xxhash64 key))
        numProbes.toNat (xxhash64 key) := by
  have htotal : (bitmap ++ number ++ [numProbes]).length = bitmap.length + filterTrailer := by
    simp [hnumber, filterTrailer]
  have hlong : ¬ bitmap.length + filterTrailer ≤ filterTrailer := by
    have := length_pos_of_ne_nil hbitmap
    omega
  have htake : ((bitmap ++ number ++ [numProbes]).drop bitmap.length).take 4 = number := by
    rw [append_assoc, drop_left, take_left' hnumber]
  simp only [bloomMayContain, htotal, hlong, if_false, Nat.add_sub_cancel, htake, getLastD_concat]

theorem bloomMayContain_layout {bitmap : Bytes} {numBlocks : UInt32}
    {numProbes : UInt8} (hblocks : numBlocks ≠ 0) (hprobes : numProbes ≠ 0)
    (hlength : bitmap.length = numBlocks.toNat * bloomBlockBytes) (key : Bytes) :
    bloomMayContain xxhash64 (bitmap ++ putFixed32 numBlocks.toNat ++ [numProbes]) key =
      testProbes (bitmap ++ putFixed32 numBlocks.toNat ++ [numProbes])
        (blockIndex (xxhash64 key) numBlocks * bloomBlockBytes) (deriveH2 (xxhash64 key))
        numProbes.toNat (xxhash64 key) := by
  have hpos : numBlocks.toNat ≠ 0 := fun h0 => hblocks (UInt32.toNat_inj.1 (by simpa using h0))
  have hbitmap : bitmap ≠ [] := by
    rintro rfl
    simp [bloomBlockBytes, bloomBlockBits, hpos] at hlength
  have hnumber : UInt32.ofNat (decodeFixed (putFixed32 numBlocks.toNat)) = numBlocks := by
    rw [putFixed32, decodeFixed_putFixed_of_lt numBlocks.toNat_lt, UInt32.ofNat_toNat]
  have hzero : numProbes.toNat ≠ 0 := fun h0 => hprobes (UInt8.toNat_inj.1 (by simpa using h0))
  rw [bloomMayContain_append xxhash64 hbitmap (by simp [putFixed32])]
  simp [hnumber, hblocks, hzero, hlength]

theorem bloomMayContain_of_not_layout {filter : Bytes}
    (h : ¬ FilterLayout filter) (key : Bytes) :
    bloomMayContain xxhash64 filter key = some true := by
  by_cases hshort : filter.length ≤ filterTrailer
  · rw [bloomMayContain, if_pos hshort]
  · unfold filterTrailer at hshort
    obtain ⟨front, numProbes, rfl⟩ : ∃ front last, filter = front ++ [last] :=
      ⟨_, _, (dropLast_append_getLast (ne_nil_of_length_pos (by omega))).symm⟩
    rw [length_append, length_singleton] at hshort
    have hnumber : (front.drop (front.length - 4)).length = 4 := by
      rw [length_drop]
      omega
    have hsplit := take_append_drop (front.length - 4) front
    set number := front.drop (front.length - 4)
    set bitmap := front.take (front.length - 4) with hbitmap
    have hlength : bitmap.length = front.length - 4 := by
      rw [hbitmap, length_take]
      omega
    rw [← hsplit] at h ⊢
    rw [bloomMayContain_append xxhash64 (ne_nil_of_length_pos (by omega)) hnumber]
    refine if_pos ?_
    by_contra hpass
    push Not at hpass
    obtain ⟨hblocks, hprobes, hbytes⟩ := hpass
    -- what passes the checks has the layout
    refine h ⟨bitmap, UInt32.ofNat (decodeFixed number), numProbes, ?_, ?_, hbytes.symm, ?_⟩
    · exact UInt32.pos_iff_ne_zero.2 hblocks
    · exact UInt8.pos_iff_ne_zero.2 fun h0 => hprobes (by rw [h0]; rfl)
    · have hlt : decodeFixed number < 2 ^ 32 := by
        have := decodeFixed_lt number
        rwa [hnumber] at this
      rw [UInt32.toNat_ofNat_of_lt' hlt, putFixed32, ← hnumber, putFixed_decodeFixed]

namespace BloomBuilder

theorem exists_finish (b : BloomBuilder) (hblocks : numBlocks b.hashes.length b.bitsPerKey ≠ 0) :
    ∃ filter, b.finish = some filter ∧ ∀ (xxhash64 : Bytes → UInt64) (key : Bytes),
      xxhash64 key ∈ b.hashes → bloomMayContain xxhash64 filter key = some true := by
  have hzeros : (List.replicate ((numBlocks b.hashes.length b.bitsPerKey).toNat *
      bloomBlockBytes) (0 : UInt8)).length = _ := length_replicate
  obtain ⟨bits, hmark, hlength, -, htests⟩ :=
    exists_markHashes hblocks b.numProbes b.hashes hzeros
  rw [length_replicate] at hlength
  refine ⟨bits ++ putFixed32 (numBlocks b.hashes.length b.bitsPerKey).toNat ++
    [UInt8.ofNat b.numProbes], ?_, fun xxhash64 key hkey => ?_⟩
  · simp only [finish, hmark]
    rfl
  · obtain ⟨hone, hmany⟩ := b.numProbes_mem
    have hprobes : (UInt8.ofNat b.numProbes).toNat = b.numProbes :=
      UInt8.toNat_ofNat_of_lt' (hmany.trans_lt (by decide))
    have hne : UInt8.ofNat b.numProbes ≠ 0 := by
      intro h0
      rw [h0] at hprobes
      exact absurd hprobes (by simp; omega)
    rw [bloomMayContain_layout xxhash64 hblocks hne hlength, hprobes, append_assoc]
    exact testProbes_of_keeps (Bitmap.keeps_append _ _) (htests _ hkey)

theorem finish_eq_none (b : BloomBuilder) (hblocks : numBlocks b.hashes.length b.bitsPerKey = 0) :
    b.finish = none := by
  have hne : b.hashes ≠ [] := by
    intro hnil
    rw [hnil, length_nil, numBlocks_zero] at hblocks
    exact absurd hblocks (by decide)
  simp [finish, hblocks, markHashes_nil b.numProbes_mem.1 hne]

end BloomBuilder

/-- A filter that misses no key is produced exactly when the number of blocks does not wrap to zero.
-/
theorem bloom_no_false_negatives (bitsPerKey numProbes : ℤ)
    (keys : List Bytes) :
    ((∃ filter, BloomBuilder.filterOf xxhash64 bitsPerKey numProbes keys = some filter ∧
        ∀ key ∈ keys, bloomMayContain xxhash64 filter key = some true) ↔
      BloomBuilder.numBlocks keys.length (max 1 bitsPerKey) ≠ 0) ∧
    ∀ filter, ¬ FilterLayout filter → ∀ key, bloomMayContain xxhash64 filter key = some true := by
  refine ⟨?_, fun filter h => bloomMayContain_of_not_layout xxhash64 h⟩
  obtain ⟨hhashes, hbits⟩ :=
    BloomBuilder.foldl_add xxhash64 keys (BloomBuilder.new bitsPerKey numProbes)
  unfold BloomBuilder.filterOf
  set b := keys.foldl (BloomBuilder.add xxhash64) (BloomBuilder.new bitsPerKey numProbes)
  replace hhashes : b.hashes = keys.map xxhash64 := hhashes
  have hblocks : BloomBuilder.numBlocks b.hashes.length b.bitsPerKey =
      BloomBuilder.numBlocks keys.length (max 1 bitsPerKey) := by
    rw [hhashes, length_map, hbits]
    rfl
  rw [← hblocks]
  constructor
  · rintro ⟨filter, hfinish, -⟩ hzero
    rw [b.finish_eq_none hzero] at hfinish
    cases hfinish
  · intro hne
    obtain ⟨filter, hfinish, hmay⟩ := b.exists_finish hne
    refine ⟨filter, hfinish, fun key hkey => hmay xxhash64 key ?_⟩
    rw [hhashes]
    exact mem_map_of_mem hkey

/-- One block, two keys and a hash that tells them apart. -/
theorem bloom_no_false_negatives_two :
    (∃ filter, BloomBuilder.filterOf (fun key => UInt64.ofNat key.length <<< 40) 10 6
        [[1], [1, 2]] = some filter ∧ ∀ key ∈ [[1], [1, 2]],
          bloomMayContain (fun key => UInt64.ofNat key.length <<< 40) filter key = some true) ∧
    bloomMayContain (fun key => UInt64.ofNat key.length <<< 40) [1, 0, 0, 0] [7] = some true := by
  have h := bloom_no_false_negatives (fun key => UInt64.ofNat key.length <<< 40) 10 6 [[1], [1, 2]]
  refine ⟨h.1.2 (by decide), h.2 [1, 0, 0, 0] ?_ [7]⟩
  rintro ⟨bitmap, numBlocks, probes, -, -, -, heq⟩
  have := congrArg List.length heq
  simp [putFixed32] at this

/-- 2048 keys at 2³⁰ bits need 2³² blocks, of which 32 bits keep none. -/
theorem bloom_blocks_wrap :
    ((List.range 2048).map (putFixed 2)).Nodup ∧
    BloomBuilder.filterOf (fun key => UInt64.ofNat (decodeFixed key)) (2 ^ 30) 6
      ((List.range 2048).map (putFixed 2)) = none := by
  constructor
  · refine nodup_range.map_on fun i hi j hj heq => ?_
    have hdecode := congrArg decodeFixed heq
    rwa [decodeFixed_putFixed_of_lt ((mem_range.1 hi).trans (by decide)),
      decodeFixed_putFixed_of_lt ((mem_range.1 hj).trans (by decide))] at hdecode
  · refine BloomBuilder.finish_eq_none _ ?_
    rw [(BloomBuilder.foldl_add ..).1, (BloomBuilder.foldl_add ..).2, length_append,
      length_map, length_map, length_range]
    decide

end ElysiumKV
