import ElysiumKV.Wire
import Mathlib.Algebra.Order.BigOperators.Group.List

/-!
# The records of the manifest

Version edits and snapshots field by field. A record whose values fit the format reads back; an edit
that does not set the floor loses the value it carries, which nothing reads.
-/

namespace ElysiumKV

open Codec List

/-- `kEditFormatVersion`, `kSnapshotFormatVersion` -/
def manifestFormatVersion : ℕ := 6

/-- `kMaxLevels` -/
def maxLevels : ℕ := 1024

/-- `kMaxManifestBytes` -/
def maxManifestBytes : ℕ := 256 * 2 ^ 20

/-- `VersionSnapshot`. -/
structure VersionSnapshot where
  nextFileNumber : ℕ := 1
  files : List FileMetadata := []
  compactionPointers : List (ℕ × Key) := []
  truncationPoint : Key := []
  watermarkFloor : Option WatermarkFloor := none
deriving DecidableEq, Repr

/-- Fails where the value is absent. -/
def ofOption {α : Type} (a : Option α) : Parser α := fun input => a.map fun a => (a, input)

variable {α : Type}

theorem Reads.ofOption {β : Type} {a : α} {f : α → Parser β} {x : Bytes} {b : β}
    (h : Reads (f a) x b) : Reads (ElysiumKV.ofOption (some a) >>= f) x b := h

/-- The byte of a codec. -/
def Compression.code : Compression → ℕ
  | .none => 0
  | .lz4 => 1
  | .zstd => 2

/-- The codec of a byte. -/
def Compression.ofCode : ℕ → Option Compression
  | 0 => some .none
  | 1 => some .lz4
  | 2 => some .zstd
  | _ => none

@[simp] theorem Compression.ofCode_code (c : Compression) : Compression.ofCode c.code = some c := by
  cases c <;> rfl

theorem Compression.code_lt (c : Compression) : c.code < 2 ^ 64 := by
  cases c <;> decide

/-- `put_watermark`. -/
def putWatermark (w : WatermarkInterval) : Bytes :=
  putVarint64 ((if w.low.isSome then 1 else 0) + if w.high.isSome then 2 else 0) ++
    (putVarint64 (w.low.getD 0) ++ putVarint64 (w.high.getD 0))

/-- `get_watermark`: a low without a high and an inverted interval are refused. -/
def getWatermark : Parser WatermarkInterval := do
  let flags ← getVarint64
  require (flags ≤ 3)
  let low ← getVarint64
  let high ← getVarint64
  require (¬ (flags % 2 = 1 ∧ flags / 2 = 0))
  let watermark : WatermarkInterval :=
    { low := if flags % 2 = 1 then some low else none
      high := if flags / 2 = 1 then some high else none }
  require (flags % 2 = 1 → flags / 2 = 1 → low ≤ high)
  return watermark

/-- `put_file`. -/
def putFile (f : FileMetadata) : Bytes :=
  putVarint64 f.level ++ (putVarint64 f.fileNumber ++ (putString f.storeId ++
    (putString f.smallestKey ++ (putString f.largestKey ++ (putVarint64 f.fileBytes ++
    (putVarint64 f.numEntries ++ (putVarint64 f.numTombstones ++
    (putVarint64 f.numRangeTombstones ++ (putString f.smallestRangeKey ++
    (putString f.largestRangeKey ++ (putVarint64 f.compression.code ++
    (putVarint64 f.minWriteTimeMs ++ (putVarint64 f.maxWriteTimeMs ++
    (putWatermark f.watermark ++ (putString f.encryptionProvider ++
    putString f.encryptionMetadata)))))))))))))))

/-- `get_file`. -/
def getFile : Parser FileMetadata := do
  let level ← getVarint64
  require (level ≤ maxLevels)
  let fileNumber ← getVarint64
  let storeId ← getString
  let smallestKey ← getString
  let largestKey ← getString
  let fileBytes ← getVarint64
  let numEntries ← getVarint64
  let numTombstones ← getVarint64
  let numRangeTombstones ← getVarint64
  let smallestRangeKey ← getString
  let largestRangeKey ← getString
  let codec ← getVarint64
  let compression ← ofOption (Compression.ofCode codec)
  let minWriteTimeMs ← getVarint64
  let maxWriteTimeMs ← getVarint64
  let watermark ← getWatermark
  let encryptionProvider ← getString
  let encryptionMetadata ← getString
  return { level, fileNumber, storeId, smallestKey, largestKey, fileBytes, numEntries,
           numTombstones, numRangeTombstones, smallestRangeKey, largestRangeKey, compression,
           minWriteTimeMs, maxWriteTimeMs, watermark, encryptionProvider, encryptionMetadata }

/-- A deleted file. -/
def putRef (ref : FileRef) : Bytes := putVarint64 ref.level ++ putVarint64 ref.fileNumber

/-- A deleted file, read. -/
def getRef : Parser FileRef := do
  let level ← getVarint64
  require (level ≤ maxLevels)
  let fileNumber ← getVarint64
  return { level, fileNumber }

/-- A compaction pointer. -/
def putPointer (pointer : ℕ × Key) : Bytes := putVarint64 pointer.1 ++ putString pointer.2

/-- A compaction pointer, read. -/
def getPointer : Parser (ℕ × Key) := do
  let level ← getVarint64
  require (level ≤ maxLevels)
  let key ← getString
  return (level, key)

/-- A counted sequence. -/
def putList {α : Type} (put : α → Bytes) (l : List α) : Bytes :=
  putVarint64 l.length ++ l.flatMap put

/-- A counted sequence, read. -/
def getList {α : Type} (get : Parser α) : Parser (List α) := do
  let count ← getVarint64
  many get count

/-- `put_floor_update`: 0 silent, 1 a position, 2 "certifies nothing", 3 clear. -/
def putFloorUpdate (update : FloorUpdate) (floor : WatermarkFloor) : Bytes :=
  let state := match update with
    | .silent => 0
    | .set => if floor.position.isSome then 1 else 2
    | .clear => 3
  putVarint64 state ++ putVarint64 (floor.position.getD 0)

/-- `get_floor_update`. -/
def getFloorUpdate : Parser (FloorUpdate × WatermarkFloor) := do
  let state ← getVarint64
  require (state ≤ 3)
  let value ← getVarint64
  return match state with
    | 0 => (.silent, {})
    | 1 => (.set, ⟨some value⟩)
    | 2 => (.set, ⟨none⟩)
    | _ => (.clear, {})

/-- The floor in a snapshot. -/
def putFloor (floor : Option WatermarkFloor) : Bytes :=
  let state := match floor with
    | none => 0
    | some f => if f.position.isSome then 1 else 2
  putVarint64 state ++ putVarint64 ((floor.bind WatermarkFloor.position).getD 0)

/-- The floor in a snapshot, read. -/
def getFloor : Parser (Option WatermarkFloor) := do
  let state ← getVarint64
  require (state ≤ 2)
  let value ← getVarint64
  return if state = 0 then none else some ⟨if state = 1 then some value else none⟩

/-- The fields of an edit. -/
def putEditBody (edit : VersionEdit) : Bytes :=
  putVarint64 edit.nextFileNumber ++ (putList putFile edit.added ++ (putList putRef edit.deleted ++
    (putList putPointer edit.compactionPointers ++ (putString edit.truncationPoint ++
    putFloorUpdate edit.floorUpdate edit.watermarkFloor))))

/-- The fields of an edit, read. -/
def getEditBody : Parser VersionEdit := do
  let nextFileNumber ← getVarint64
  let added ← getList getFile
  let deleted ← getList getRef
  let compactionPointers ← getList getPointer
  let truncationPoint ← getString
  let floor ← getFloorUpdate
  return { nextFileNumber, added, deleted, compactionPointers, truncationPoint,
           floorUpdate := floor.1, watermarkFloor := floor.2 }

/-- The fields of a snapshot. -/
def putSnapshotBody (snapshot : VersionSnapshot) : Bytes :=
  putVarint64 snapshot.nextFileNumber ++ (putList putFile snapshot.files ++
    (putList putPointer snapshot.compactionPointers ++ (putString snapshot.truncationPoint ++
    putFloor snapshot.watermarkFloor)))

/-- The fields of a snapshot, read. -/
def getSnapshotBody : Parser VersionSnapshot := do
  let nextFileNumber ← getVarint64
  let files ← getList getFile
  let compactionPointers ← getList getPointer
  let truncationPoint ← getString
  let watermarkFloor ← getFloor
  return { nextFileNumber, files, compactionPointers, truncationPoint, watermarkFloor }

variable (codecs : Compressors)

/-- `frame`, which does not look at the status of `frame_block`: a refused block is empty. -/
def frame (content : Bytes) (codec : Compression) : Bytes :=
  match frameBlock codecs content codec with
  | .ok framed => framed
  | .error _ => []

/-- Both decoders: unframe, check the version, read the body. -/
def decodeRecord {α : Type} (codecs : Compressors) (body : Parser α) (bytes : Bytes) :
    Except Status α :=
  match unframeBlock codecs bytes maxManifestBytes with
  | .error status => .error status
  | .ok content => match getVarint32.run content with
    | none => .error .corrupt
    | some (format, rest) =>
      if format ≠ manifestFormatVersion then .error .unsupported
      else match body.run rest with
        | none => .error .corrupt
        | some (record, _) => .ok record

/-- What is framed of an edit. -/
def editContent (edit : VersionEdit) : Bytes := putVarint32 manifestFormatVersion ++ putEditBody edit

/-- What is framed of a snapshot. -/
def snapshotContent (snapshot : VersionSnapshot) : Bytes :=
  putVarint32 manifestFormatVersion ++ putSnapshotBody snapshot

/-- `encode_version_edit`. -/
def encodeVersionEdit (edit : VersionEdit) : Bytes :=
  frame codecs (editContent edit) .none

/-- `decode_version_edit`. -/
def decodeVersionEdit (bytes : Bytes) : Except Status VersionEdit :=
  decodeRecord codecs getEditBody bytes

/-- `encode_version_snapshot`. -/
def encodeVersionSnapshot (snapshot : VersionSnapshot) : Bytes :=
  frame codecs (snapshotContent snapshot) .zstd

/-- `decode_version_snapshot`. -/
def decodeVersionSnapshot (bytes : Bytes) : Except Status VersionSnapshot :=
  decodeRecord codecs getSnapshotBody bytes

/-! ### What fits the types of the format -/

/-- 64-bit ends, and a low has a high no smaller. -/
def WatermarkInterval.Representable (w : WatermarkInterval) : Prop :=
  (∀ low ∈ w.low, low < 2 ^ 64 ∧ ∃ high ∈ w.high, low ≤ high) ∧ ∀ high ∈ w.high, high < 2 ^ 64

/-- The values fit the source's types. -/
structure FileMetadata.Representable (f : FileMetadata) : Prop where
  level : f.level ≤ maxLevels
  numbers : ∀ n ∈ [f.fileNumber, f.fileBytes, f.numEntries, f.numTombstones, f.numRangeTombstones,
    f.minWriteTimeMs, f.maxWriteTimeMs], n < 2 ^ 64
  watermark : f.watermark.Representable

/-- A 64-bit position. -/
def WatermarkFloor.Representable (floor : WatermarkFloor) : Prop :=
  ∀ position ∈ floor.position, position < 2 ^ 64

/-- The values fit the source's types. -/
structure VersionEdit.Representable (edit : VersionEdit) : Prop where
  nextFileNumber : edit.nextFileNumber < 2 ^ 64
  added : ∀ f ∈ edit.added, f.Representable
  deleted : ∀ r ∈ edit.deleted, r.level ≤ maxLevels ∧ r.fileNumber < 2 ^ 64
  pointers : ∀ p ∈ edit.compactionPointers, p.1 ≤ maxLevels
  floor : edit.watermarkFloor.Representable

/-- The values fit the source's types. -/
structure VersionSnapshot.Representable (snapshot : VersionSnapshot) : Prop where
  nextFileNumber : snapshot.nextFileNumber < 2 ^ 64
  files : ∀ f ∈ snapshot.files, f.Representable
  pointers : ∀ p ∈ snapshot.compactionPointers, p.1 ≤ maxLevels
  floor : ∀ floor ∈ snapshot.watermarkFloor, floor.Representable

/-- As decoded: a floor that is not set is dropped. -/
def VersionEdit.normalized (edit : VersionEdit) : VersionEdit :=
  { edit with watermarkFloor := match edit.floorUpdate with
      | .set => edit.watermarkFloor
      | _ => {} }

variable {edit : VersionEdit}

theorem VersionEdit.Representable.normalized (h : edit.Representable) :
    edit.normalized.Representable := by
  refine ⟨h.nextFileNumber, h.added, h.deleted, h.pointers, ?_⟩
  unfold VersionEdit.normalized
  cases edit.floorUpdate with
  | set => exact h.floor
  | silent => exact nofun
  | clear => exact nofun

theorem Version.apply_normalized (v : Version) (edit : VersionEdit) :
    v.apply edit.normalized = v.apply edit := by
  cases h : edit.floorUpdate <;> simp [Version.apply, VersionEdit.normalized, h]

/-! ### Reading back -/

theorem reads_watermark {w : WatermarkInterval} (h : w.Representable) :
    Reads getWatermark (putWatermark w) w := by
  have hlow : w.low.getD 0 < 2 ^ 64 := by
    cases hl : w.low with
    | none => decide
    | some low => exact (h.1 low hl).1
  have hhigh : w.high.getD 0 < 2 ^ 64 := by
    cases hh : w.high with
    | none => decide
    | some high => exact h.2 high hh
  have hpaired : w.low.isSome → w.high.isSome ∧ w.low.getD 0 ≤ w.high.getD 0 := by
    intro hsome
    obtain ⟨low, hl⟩ := Option.isSome_iff_exists.1 hsome
    obtain ⟨-, high, hh, hle⟩ := h.1 low hl
    have hh : w.high = some high := hh
    simp [hl, hh, hle]
  unfold getWatermark putWatermark
  refine (reads_varint64 ?_).bind (.require ?_ ((reads_varint64 hlow).bind
    ((reads_varint64 hhigh).last (.require ?_ (.require ?_ ?_)))))
  · split_ifs <;> decide
  · split_ifs <;> decide
  · split_ifs <;> simp_all
  · split_ifs <;> simp_all
  · rcases w with ⟨_ | low, _ | high⟩ <;> simp_all [reads_pure]

theorem reads_file {f : FileMetadata} (h : f.Representable) (hlen : (putFile f).length < 2 ^ 64) :
    Reads getFile (putFile f) f := by
  have hn := h.numbers
  simp only [mem_cons, not_mem_nil, or_false, forall_eq_or_imp, forall_eq] at hn
  obtain ⟨hnumber, hbytes, hentries, htombstones, hranges, hmin, hmax⟩ := hn
  have hlevel : f.level < 2 ^ 64 := h.level.trans_lt (by decide)
  have hs : ∀ s ∈ [f.storeId, f.smallestKey, f.largestKey, f.smallestRangeKey, f.largestRangeKey,
      f.encryptionProvider, f.encryptionMetadata], s.length ≤ (putFile f).length := by
    simp only [putFile, putString, length_append, mem_cons, not_mem_nil, or_false,
      forall_eq_or_imp, forall_eq]
    omega
  replace hs := fun s hmem => (hs s hmem).trans_lt hlen
  simp only [mem_cons, not_mem_nil, or_false, forall_eq_or_imp, forall_eq] at hs
  obtain ⟨hstore, hsmallest, hlargest, hsmallestRange, hlargestRange, hprovider, hmetadata⟩ := hs
  unfold getFile putFile
  refine (reads_varint64 hlevel).bind (.require h.level ?_)
  refine (reads_varint64 hnumber).bind ?_
  refine (reads_string hstore).bind ?_
  refine (reads_string hsmallest).bind ?_
  refine (reads_string hlargest).bind ?_
  refine (reads_varint64 hbytes).bind ?_
  refine (reads_varint64 hentries).bind ?_
  refine (reads_varint64 htombstones).bind ?_
  refine (reads_varint64 hranges).bind ?_
  refine (reads_string hsmallestRange).bind ?_
  refine (reads_string hlargestRange).bind ?_
  refine (reads_varint64 (Compression.code_lt _)).bind ?_
  rw [Compression.ofCode_code]
  refine Reads.ofOption ?_
  refine (reads_varint64 hmin).bind ?_
  refine (reads_varint64 hmax).bind ?_
  refine (reads_watermark h.watermark).bind ?_
  refine (reads_string hprovider).bind ?_
  exact (reads_string hmetadata).map _

theorem reads_ref {r : FileRef} (h : r.level ≤ maxLevels ∧ r.fileNumber < 2 ^ 64) :
    Reads getRef (putRef r) r :=
  (reads_varint64 (h.1.trans_lt (by decide))).bind (.require h.1 ((reads_varint64 h.2).map _))

theorem reads_pointer {p : ℕ × Key} (h : p.1 ≤ maxLevels) (hlen : (putPointer p).length < 2 ^ 64) :
    Reads getPointer (putPointer p) p := by
  simp only [putPointer, putString, length_append] at hlen
  exact (reads_varint64 (h.trans_lt (by decide))).bind (.require h
    ((reads_string (by omega)).map _))

theorem reads_list {put : α → Bytes} {get : Parser α} {l : List α}
    (hlen : (putList put l).length < 2 ^ 64) (hput : ∀ a ∈ l, 1 ≤ (put a).length)
    (h : ∀ a ∈ l, (put a).length < 2 ^ 64 → Reads get (put a) a) :
    Reads (getList get) (putList put l) l := by
  have hsum : (l.flatMap put).length = (l.map fun a => (put a).length).sum := by
    rw [length_flatMap]
  have hcount : l.length ≤ (l.flatMap put).length := by
    have hones := length_le_sum_of_one_le (l.map fun a => (put a).length) (by simpa using hput)
    rwa [length_map, ← hsum] at hones
  have hpiece : ∀ a ∈ l, (put a).length ≤ (l.flatMap put).length := by
    intro a ha
    rw [hsum]
    exact le_sum_of_mem (mem_map.2 ⟨a, ha, rfl⟩)
  simp only [putList, length_append] at hlen
  have hmany : Reads (many get l.length) (l.flatMap put) (l.map id) :=
    Reads.many fun a ha => h a ha ((hpiece a ha).trans_lt (by omega))
  rw [map_id] at hmany
  exact (reads_varint64 (by omega)).bind hmany

theorem one_le_length_putRef (r : FileRef) : 1 ≤ (putRef r).length := by
  have := one_le_length_putVarint64 r.level
  simp only [putRef, length_append]
  omega

theorem one_le_length_putPointer (p : ℕ × Key) : 1 ≤ (putPointer p).length := by
  have := one_le_length_putVarint64 p.1
  simp only [putPointer, length_append]
  omega

theorem one_le_length_putFile (f : FileMetadata) : 1 ≤ (putFile f).length := by
  rw [putFile, length_append]
  exact (one_le_length_putVarint64 f.level).trans (Nat.le_add_right _ _)

theorem reads_state {state value bound : ℕ} (g : ℕ → ℕ → α) (hstate : state ≤ bound)
    (hbound : bound < 2 ^ 64) (hvalue : value < 2 ^ 64) :
    Reads (do
      let s ← getVarint64
      require (s ≤ bound)
      let v ← getVarint64
      return g s v) (putVarint64 state ++ putVarint64 value) (g state value) :=
  (reads_varint64 (hstate.trans_lt hbound)).bind (.require hstate ((reads_varint64 hvalue).map _))

theorem WatermarkFloor.Representable.value_lt {floor : WatermarkFloor} (h : floor.Representable) :
    floor.position.getD 0 < 2 ^ 64 := by
  cases hp : floor.position with
  | none => decide
  | some position => exact h position hp

theorem reads_floorUpdate {update : FloorUpdate} {floor : WatermarkFloor}
    (h : floor.Representable) : Reads getFloorUpdate (putFloorUpdate update floor)
      (update, match update with
        | .set => floor
        | _ => {}) := by
  have hstate : (match update with
      | .silent => 0
      | .set => if floor.position.isSome then 1 else 2
      | .clear => 3) ≤ 3 := by
    cases update with
    | silent => exact Nat.zero_le 3
    | set =>
      show (if _ then 1 else 2) ≤ 3
      split_ifs <;> decide
    | clear => exact le_refl 3
  have hread := reads_state (fun s v => match s with
    | 0 => (FloorUpdate.silent, ({} : WatermarkFloor))
    | 1 => (.set, ⟨some v⟩)
    | 2 => (.set, ⟨none⟩)
    | _ => (.clear, {})) hstate (by decide) h.value_lt
  rcases floor with ⟨_ | position⟩ <;> cases update <;> exact hread

theorem reads_floor {floor : Option WatermarkFloor} (h : ∀ f ∈ floor, f.Representable) :
    Reads getFloor (putFloor floor) floor := by
  have hread := fun (s v : ℕ) => @reads_state _ s v 2
    (fun s v => if s = 0 then none else some (⟨if s = 1 then some v else none⟩ : WatermarkFloor))
  rcases floor with _ | ⟨_ | position⟩
  · exact hread 0 0 (by decide) (by decide) (by decide)
  · exact hread 2 0 (by decide) (by decide) (by decide)
  · exact hread 1 position (by decide) (by decide) (h _ rfl).value_lt

theorem reads_editBody (h : edit.Representable) (hlen : (putEditBody edit).length < 2 ^ 64) :
    Reads getEditBody (putEditBody edit) edit.normalized := by
  simp only [putEditBody, length_append] at hlen
  unfold getEditBody putEditBody
  refine (reads_varint64 h.nextFileNumber).bind ?_
  refine (reads_list (by omega) (fun f _ => one_le_length_putFile f)
    fun f hf => reads_file (h.added f hf)).bind ?_
  refine (reads_list (by omega) (fun r _ => one_le_length_putRef r)
    fun r hr _ => reads_ref (h.deleted r hr)).bind ?_
  refine (reads_list (by omega) (fun p _ => one_le_length_putPointer p)
    fun p hp => reads_pointer (h.pointers p hp)).bind ?_
  refine (reads_string ?_).bind ?_
  · simp only [putString, length_append] at hlen
    omega
  · exact (reads_floorUpdate h.floor).map _

theorem reads_snapshotBody {snapshot : VersionSnapshot} (h : snapshot.Representable)
    (hlen : (putSnapshotBody snapshot).length < 2 ^ 64) :
    Reads getSnapshotBody (putSnapshotBody snapshot) snapshot := by
  simp only [putSnapshotBody, length_append] at hlen
  unfold getSnapshotBody putSnapshotBody
  refine (reads_varint64 h.nextFileNumber).bind ?_
  refine (reads_list (by omega) (fun f _ => one_le_length_putFile f)
    fun f hf => reads_file (h.files f hf)).bind ?_
  refine (reads_list (by omega) (fun p _ => one_le_length_putPointer p)
    fun p hp => reads_pointer (h.pointers p hp)).bind ?_
  refine (reads_string ?_).bind ?_
  · simp only [putString, length_append] at hlen
    omega
  · exact (reads_floor h.floor).map _

theorem decodeRecord_frame {codecs : Compressors} {body : Parser α} {bytes framed : Bytes}
    {codec : Compression} {record : α} (hbody : Reads body bytes record)
    (hframe : frameBlock codecs (putVarint32 manifestFormatVersion ++ bytes) codec = .ok framed)
    (hsize : (putVarint32 manifestFormatVersion ++ bytes).length ≤ maxManifestBytes) :
    decodeRecord codecs body framed = .ok record := by
  have hformat := reads_varint32 (v := manifestFormatVersion) (by decide) bytes
  unfold decodeRecord
  rw [unframeBlock_frameBlock hframe hsize]
  simp only [hformat, ne_eq, not_true, if_false, hbody.run]

theorem decodeVersionEdit_encode (h : edit.Representable)
    (hsize : (editContent edit).length ≤ maxManifestBytes) :
    decodeVersionEdit codecs (encodeVersionEdit codecs edit) = .ok edit.normalized := by
  have hmax : maxManifestBytes < 2 ^ 32 - 1 := by decide
  have hframe : frameBlock codecs (editContent edit) .none =
      .ok (encodeVersionEdit codecs edit) := by
    unfold encodeVersionEdit frame frameBlock
    rw [if_neg (by omega)]
    rfl
  have hbody : (putEditBody edit).length < 2 ^ 64 := by
    simp only [editContent, length_append] at hsize
    omega
  exact decodeRecord_frame (reads_editBody h hbody) hframe hsize

theorem decodeVersionSnapshot_encode {codecs : Compressors} {snapshot : VersionSnapshot}
    (h : snapshot.Representable) (hsize : (snapshotContent snapshot).length ≤ maxManifestBytes)
    (hzstd : codecs.zstd.compress (snapshotContent snapshot) ≠ none) :
    decodeVersionSnapshot codecs (encodeVersionSnapshot codecs snapshot) = .ok snapshot := by
  have hmax : maxManifestBytes < 2 ^ 32 - 1 := by decide
  obtain ⟨packed, hpacked⟩ := Option.ne_none_iff_exists'.1 hzstd
  have hframe : frameBlock codecs (snapshotContent snapshot) .zstd =
      .ok (encodeVersionSnapshot codecs snapshot) := by
    unfold encodeVersionSnapshot frame frameBlock packBlock
    simp only [if_neg (show ¬ 2 ^ 32 - 1 < (snapshotContent snapshot).length by omega),
      Compressors.find, hpacked]
    split_ifs <;> rfl
  have hbody : (putSnapshotBody snapshot).length < 2 ^ 64 := by
    simp only [snapshotContent, length_append] at hsize
    omega
  exact decodeRecord_frame (reads_snapshotBody h hbody) hframe hsize

/-- The codecs are inverse; edits encoded alike differ at most in a floor they do not set. -/
theorem manifest_codecs_inverse :
    (∀ edit : VersionEdit, edit.Representable → (editContent edit).length ≤ maxManifestBytes →
      decodeVersionEdit codecs (encodeVersionEdit codecs edit) = .ok edit.normalized) ∧
    (∀ snapshot : VersionSnapshot, snapshot.Representable →
      (snapshotContent snapshot).length ≤ maxManifestBytes →
      codecs.zstd.compress (snapshotContent snapshot) ≠ none →
      decodeVersionSnapshot codecs (encodeVersionSnapshot codecs snapshot) = .ok snapshot) ∧
    ∀ edit edit' : VersionEdit, edit.Representable → edit'.Representable →
      (editContent edit).length ≤ maxManifestBytes →
      (editContent edit').length ≤ maxManifestBytes →
      encodeVersionEdit codecs edit = encodeVersionEdit codecs edit' →
      edit.normalized = edit'.normalized := by
  refine ⟨fun _ => decodeVersionEdit_encode codecs, fun _ => decodeVersionSnapshot_encode, ?_⟩
  intro edit edit' h h' hsize hsize' heq
  have hdecode := decodeVersionEdit_encode codecs h hsize
  rw [heq, decodeVersionEdit_encode codecs h' hsize'] at hdecode
  exact (Except.ok.inj hdecode).symm

/-- A file with an interval, a deletion, a pointer and a floor. -/
theorem manifest_codecs_inverse_on_edit :
    let edit : VersionEdit :=
      { nextFileNumber := 2 ^ 64 - 1
        added := [{ fileNumber := 300, level := 1024, storeId := [1], watermark := ⟨some 0, some 5⟩ }]
        deleted := [⟨0, 7⟩]
        compactionPointers := [(3, [0, 255])]
        floorUpdate := .set
        watermarkFloor := ⟨some 0⟩ }
    decodeVersionEdit ⟨verbatim, verbatim⟩ (encodeVersionEdit ⟨verbatim, verbatim⟩ edit) =
      .ok edit.normalized := by
  refine (manifest_codecs_inverse ⟨verbatim, verbatim⟩).1 _ ⟨by decide, ?_, by decide, by decide, ?_⟩
    (by decide +kernel)
  · simp only [mem_singleton, forall_eq]
    refine ⟨by decide, by decide, fun low hlow => ?_, fun high hhigh => ?_⟩
    · obtain rfl := Option.some.inj hlow
      exact ⟨by decide, 5, rfl, by decide⟩
    · obtain rfl := Option.some.inj hhigh
      decide
  · intro position hposition
    obtain rfl := Option.some.inj hposition
    decide

end ElysiumKV
