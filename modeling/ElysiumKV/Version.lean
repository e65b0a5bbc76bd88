import ElysiumKV.Format
import ElysiumKV.Watermark
import Mathlib.Data.List.Perm.Basic

/-!
# Versions and version edits

A snapshot of the files of each level, with compaction pointers, truncation point and watermark
floor. `filesAt_apply` says what an edit leaves; level 0 is newest first, deeper levels in key
order.
-/

namespace ElysiumKV

open List

/-- `Compression`. -/
inductive Compression
  | none
  | lz4
  | zstd
deriving DecidableEq, Repr

/-- `FileMetadata`. -/
structure FileMetadata where
  level : ℕ := 0
  fileNumber : ℕ := 0
  storeId : Bytes := []
  smallestKey : Key := []
  largestKey : Key := []
  fileBytes : ℕ := 0
  numEntries : ℕ := 0
  numTombstones : ℕ := 0
  numRangeTombstones : ℕ := 0
  smallestRangeKey : Key := []
  largestRangeKey : Key := []
  compression : Compression := .none
  minWriteTimeMs : ℕ := 0
  maxWriteTimeMs : ℕ := 0
  watermark : WatermarkInterval := {}
  encryptionProvider : Bytes := []
  encryptionMetadata : Bytes := []
deriving DecidableEq, Repr

namespace FileMetadata

/-- `effective_smallest`: of entries and range tombstones. -/
def effectiveSmallest (f : FileMetadata) : Key :=
  if f.numRangeTombstones = 0 then f.smallestKey
  else if f.numEntries = 0 then f.smallestRangeKey
  else min f.smallestKey f.smallestRangeKey

/-- `effective_largest`. -/
def effectiveLargest (f : FileMetadata) : Key :=
  if f.numRangeTombstones = 0 then f.largestKey
  else if f.numEntries = 0 then f.largestRangeKey
  else max f.largestKey f.largestRangeKey

/-- `range_may_cover`. -/
def rangeMayCover (f : FileMetadata) (key : Key) : Bool :=
  f.numRangeTombstones ≠ 0 && f.smallestRangeKey ≤ key && key < f.largestRangeKey

end FileMetadata

/-- A deleted file. -/
structure FileRef where
  level : ℕ
  fileNumber : ℕ
deriving DecidableEq, Repr

/-- What an edit says of the floor. -/
inductive FloorUpdate
  | silent
  | set
  | clear
deriving DecidableEq, Repr

/-- `VersionEdit`. -/
structure VersionEdit where
  nextFileNumber : ℕ := 0
  added : List FileMetadata := []
  deleted : List FileRef := []
  compactionPointers : List (ℕ × Key) := []
  truncationPoint : Key := []
  floorUpdate : FloorUpdate := .silent
  watermarkFloor : WatermarkFloor := {}
deriving DecidableEq, Repr

/-- `Version`. -/
structure Version where
  levels : List (List FileMetadata) := []
  nextFileNumber : ℕ := 1
  compactionPointers : List (ℕ × Key) := []
  truncationPoint : Key := []
  watermarkFloor : Option WatermarkFloor := none
deriving DecidableEq, Repr

/-! ### Order within a level -/

/-- The order of level 0. -/
def NewerFirst (a b : FileMetadata) : Prop := b.fileNumber ≤ a.fileNumber

/-- Deeper levels: by smallest key, then number. -/
def KeyOrder (a b : FileMetadata) : Prop :=
  a.smallestKey < b.smallestKey ∨ a.smallestKey = b.smallestKey ∧ a.fileNumber ≤ b.fileNumber

instance : DecidableRel NewerFirst := fun _ _ => inferInstanceAs (Decidable (_ ≤ _))

instance : DecidableRel KeyOrder := fun _ _ => inferInstanceAs (Decidable (_ ∨ _))

instance : Std.Total NewerFirst := ⟨fun a b => Nat.le_total b.fileNumber a.fileNumber⟩

instance : IsTrans FileMetadata NewerFirst := ⟨fun _ _ _ hab hbc => Nat.le_trans hbc hab⟩

instance : Std.Total KeyOrder where
  total a b := by
    unfold KeyOrder
    rcases lt_trichotomy a.smallestKey b.smallestKey with h | h | h
    · exact .inl (.inl h)
    · exact (le_total a.fileNumber b.fileNumber).imp (fun hn => .inr ⟨h, hn⟩)
        fun hn => .inr ⟨h.symm, hn⟩
    · exact .inr (.inl h)

instance : IsTrans FileMetadata KeyOrder where
  trans a b c hab hbc := by
    unfold KeyOrder at *
    rcases hab with h | ⟨h, hn⟩ <;> rcases hbc with h' | ⟨h', hn'⟩
    · exact .inl (h.trans h')
    · exact .inl (h' ▸ h)
    · exact .inl (h ▸ h')
    · exact .inr ⟨h.trans h', hn.trans hn'⟩

/-- A level in its order. -/
def sortLevel (level : ℕ) (files : List FileMetadata) : List FileMetadata :=
  if level = 0 then files.insertionSort NewerFirst else files.insertionSort KeyOrder

@[simp] theorem mem_sortLevel {level : ℕ} {files : List FileMetadata} {f : FileMetadata} :
    f ∈ sortLevel level files ↔ f ∈ files := by
  unfold sortLevel
  split_ifs <;> simp

theorem sortLevel_perm (level : ℕ) (files : List FileMetadata) :
    (sortLevel level files).Perm files := by
  unfold sortLevel
  split_ifs
  · exact perm_insertionSort _ _
  · exact perm_insertionSort _ _

theorem pairwise_sortLevel_zero (files : List FileMetadata) :
    (sortLevel 0 files).Pairwise NewerFirst := by
  simpa [sortLevel] using pairwise_insertionSort NewerFirst files

theorem pairwise_sortLevel_deep {level : ℕ} (h : level ≠ 0) (files : List FileMetadata) :
    (sortLevel level files).Pairwise KeyOrder := by
  simpa [sortLevel, h] using pairwise_insertionSort KeyOrder files

@[simp] theorem sortLevel_nil (level : ℕ) : sortLevel level [] = [] := by
  simp [sortLevel]

namespace Version

/-! ### Queries -/

variable (v : Version)

/-- `files`. -/
def filesAt (level : ℕ) : List FileMetadata := (v.levels[level]?).getD []

/-- `num_levels`. -/
def numLevels : ℕ := v.levels.length

/-- `carries_ranges`. -/
def carriesRanges (level : ℕ) : Bool :=
  (v.filesAt level).any fun f => f.numRangeTombstones ≠ 0

/-- `truncated`. -/
def truncated (key : Key) : Bool :=
  v.truncationPoint ≠ [] && key < v.truncationPoint

/-- `overlapping_inclusive`: files whose effective span meets `[first, last]`. -/
def overlappingInclusive (level : ℕ) (first last : Key) : List FileMetadata :=
  (v.filesAt level).filter fun f => !(f.effectiveLargest < first) && !(last < f.effectiveSmallest)

/-- The files of all levels. -/
def allFiles : List FileMetadata := v.levels.flatten

/-- `files_entirely_truncated`. -/
def filesEntirelyTruncated : List FileMetadata :=
  if v.truncationPoint = [] then []
  else v.allFiles.filter fun f => f.effectiveLargest < v.truncationPoint

/-- `RangeDropCandidate`. -/
structure RangeDropCandidate where
  file : FileMetadata
  cover : FileMetadata
  exact : Bool
deriving DecidableEq, Repr

/-- Strictly newer, with a hull of ranges around the file. -/
def mayCoverFile (cover file : FileMetadata) : Bool :=
  (cover.level < file.level || cover.level = file.level && file.fileNumber < cover.fileNumber) &&
    (cover.smallestRangeKey ≤ file.smallestKey && file.largestKey < cover.largestRangeKey)

/-- `range_drop_candidates`: files without ranges, with the first newer file whose hull holds them.
-/
def rangeDropCandidates : List RangeDropCandidate :=
  let covers := v.allFiles.filter fun f => f.numRangeTombstones ≠ 0
  v.allFiles.filterMap fun file =>
    if file.numRangeTombstones ≠ 0 then none
    else if file.numEntries = 0 then none
    else (covers.find? fun cover => mayCoverFile cover file).map fun cover =>
      ⟨file, cover, cover.numRangeTombstones = 1⟩

/-! ### Applying an edit -/

/-- Drop a file; a missing level is skipped. -/
def erase (levels : List (List FileMetadata)) (ref : FileRef) : List (List FileMetadata) :=
  levels.modify ref.level fun files => files.filter fun f => f.fileNumber ≠ ref.fileNumber

/-- Append a file to its level, which is made. -/
def push (levels : List (List FileMetadata)) (file : FileMetadata) : List (List FileMetadata) :=
  (levels ++ List.replicate (file.level + 1 - levels.length) []).modify file.level (· ++ [file])

/-- `apply`. -/
def apply (base : Version) (edit : VersionEdit) : Version where
  levels := (edit.added.foldl push (edit.deleted.foldl erase base.levels)).mapIdx sortLevel
  nextFileNumber := max base.nextFileNumber edit.nextFileNumber
  compactionPointers :=
    edit.compactionPointers.foldl (fun ps p => SortedMap.insert Prod.fst p ps)
      base.compactionPointers
  truncationPoint :=
    if base.truncationPoint < edit.truncationPoint then edit.truncationPoint
    else base.truncationPoint
  watermarkFloor := match edit.floorUpdate with
    | .silent => base.watermarkFloor
    | .set => some edit.watermarkFloor
    | .clear => none

theorem getD_erase (levels : List (List FileMetadata)) (ref : FileRef) (level : ℕ) :
    ((erase levels ref)[level]?).getD [] =
      ((levels[level]?).getD []).filter fun f => (⟨level, f.fileNumber⟩ : FileRef) ≠ ref := by
  unfold erase
  rw [List.getElem?_modify]
  obtain ⟨rl, rn⟩ := ref
  cases levels[level]? with
  | none => rfl
  | some files =>
    by_cases h : rl = level
    · subst h
      simp
    · have : ∀ f : FileMetadata, (⟨level, f.fileNumber⟩ : FileRef) ≠ ⟨rl, rn⟩ := by
        intro f hf
        exact h (congrArg FileRef.level hf).symm
      simp [h, this]

theorem getD_foldl_erase (refs : List FileRef) (levels : List (List FileMetadata)) (level : ℕ) :
    ((refs.foldl erase levels)[level]?).getD [] =
      ((levels[level]?).getD []).filter fun f => (⟨level, f.fileNumber⟩ : FileRef) ∉ refs := by
  induction refs generalizing levels with
  | nil => simp
  | cons ref refs ih =>
    rw [foldl_cons, ih, getD_erase, filter_filter]
    refine filter_congr fun f _ => ?_
    simp only [mem_cons, not_or, Bool.decide_and, ne_eq]
    exact Bool.and_comm _ _

theorem getD_push (levels : List (List FileMetadata)) (file : FileMetadata) (level : ℕ) :
    ((push levels file)[level]?).getD [] =
      (levels[level]?).getD [] ++ [file].filter fun f => f.level = level := by
  unfold push
  rw [List.getElem?_modify]
  by_cases h : file.level = level
  · subst h
    rcases lt_or_ge file.level levels.length with hlt | hge
    · simp [List.getElem?_append_left hlt, List.getElem?_eq_getElem hlt]
    · have : file.level - levels.length < file.level + 1 - levels.length := by omega
      simp [List.getElem?_append_right hge, this, List.getElem?_eq_none hge]
  · simp only [h, if_false, decide_false, filter_singleton, cond_false, append_nil,
      Option.map_eq_map, Option.map_id_fun', id_eq]
    rcases lt_or_ge level levels.length with hlt | hge
    · rw [List.getElem?_append_left hlt]
    · rw [List.getElem?_append_right hge, List.getElem?_replicate, List.getElem?_eq_none hge]
      split_ifs <;> rfl

theorem getD_foldl_push (files : List FileMetadata) (levels : List (List FileMetadata))
    (level : ℕ) :
    ((files.foldl push levels)[level]?).getD [] =
      (levels[level]?).getD [] ++ files.filter fun f => f.level = level := by
  induction files generalizing levels with
  | nil => simp
  | cons file files ih =>
    rw [foldl_cons, ih, getD_push, append_assoc, ← filter_append, singleton_append]

theorem filesAt_apply (edit : VersionEdit) (level : ℕ) :
    (v.apply edit).filesAt level =
      sortLevel level
        (((v.filesAt level).filter fun f => (⟨level, f.fileNumber⟩ : FileRef) ∉ edit.deleted) ++
          edit.added.filter fun f => f.level = level) := by
  unfold filesAt
  rw [← getD_foldl_erase, ← getD_foldl_push]
  simp only [apply, List.getElem?_mapIdx]
  cases (edit.added.foldl push (edit.deleted.foldl erase v.levels))[level]? with
  | none => simp
  | some files => rfl

variable {v} {f : FileMetadata}

theorem mem_filesAt_apply {edit : VersionEdit} {level : ℕ} :
    f ∈ (v.apply edit).filesAt level ↔
      f ∈ v.filesAt level ∧ (⟨level, f.fileNumber⟩ : FileRef) ∉ edit.deleted ∨
        f ∈ edit.added ∧ f.level = level := by
  simp [filesAt_apply]

theorem mem_allFiles : f ∈ v.allFiles ↔ ∃ level, f ∈ v.filesAt level := by
  unfold allFiles filesAt
  rw [mem_flatten]
  constructor
  · rintro ⟨files, hfiles, hf⟩
    obtain ⟨level, hlevel⟩ := mem_iff_getElem?.1 hfiles
    exact ⟨level, by rwa [hlevel]⟩
  · rintro ⟨level, hf⟩
    cases h : v.levels[level]? with
    | none => simp [h] at hf
    | some files => exact ⟨files, mem_of_getElem? h, by simpa [h] using hf⟩

/-! ### All files of a version -/

theorem allFiles_eq_flatMap (v : Version) {n : ℕ} (h : v.levels.length ≤ n) :
    v.allFiles = (List.range n).flatMap v.filesAt := by
  unfold allFiles filesAt
  rw [flatMap_def]
  have hpad : (List.range n).map (fun level => (v.levels[level]?).getD []) =
      v.levels ++ List.replicate (n - v.levels.length) [] := by
    refine ext_getElem (by simp; omega) fun i hi _ => ?_
    rcases lt_or_ge i v.levels.length with hlt | hge
    · simp [getElem_append_left hlt, hlt]
    · simp [getElem_append_right hge, hge]
  rw [hpad]
  simp

theorem lt_length_of_mem_filesAt {level : ℕ} (hf : f ∈ v.filesAt level) :
    level < v.levels.length := by
  by_contra hlevel
  simp [filesAt, List.getElem?_eq_none (not_lt.1 hlevel)] at hf

theorem flatMap_level_perm (files : List FileMetadata) (n : ℕ) :
    ((List.range n).flatMap fun level => files.filter fun f => f.level = level).Perm
      (files.filter fun f => f.level < n) := by
  induction n with
  | zero => simp
  | succ n ih =>
    rw [range_succ, flatMap_append, flatMap_singleton]
    have hsplit := filter_append_perm (fun f : FileMetadata => decide (f.level < n))
      (files.filter fun f => f.level < n + 1)
    rw [filter_filter, filter_filter] at hsplit
    refine (ih.append_right _).trans (.trans (.of_eq ?_) hsplit)
    congr 1 <;> refine filter_congr fun f _ => ?_
    · grind
    · grind

theorem allFiles_apply_perm (hlevels : ∀ level, ∀ f ∈ v.filesAt level, f.level = level)
    (edit : VersionEdit) :
    (v.apply edit).allFiles.Perm
      ((v.allFiles.filter fun f => (⟨f.level, f.fileNumber⟩ : FileRef) ∉ edit.deleted) ++
        edit.added) := by
  obtain ⟨n, hv, hv'⟩ : ∃ n, v.levels.length ≤ n ∧ (v.apply edit).levels.length ≤ n :=
    ⟨_, le_max_left _ _, le_max_right _ _⟩
  have hadded : ∀ f ∈ edit.added, f.level < n := fun f hf =>
    (lt_length_of_mem_filesAt (mem_filesAt_apply.2 (.inr ⟨hf, rfl⟩))).trans_le hv'
  rw [allFiles_eq_flatMap _ hv', allFiles_eq_flatMap _ hv, filter_flatMap]
  have hlevel : ∀ level ∈ List.range n, ((v.apply edit).filesAt level).Perm
      ((v.filesAt level).filter (fun f => (⟨f.level, f.fileNumber⟩ : FileRef) ∉ edit.deleted) ++
        edit.added.filter fun f => f.level = level) := by
    intro level _
    rw [filesAt_apply]
    refine (sortLevel_perm _ _).trans (.of_eq ?_)
    congr 1
    exact filter_congr fun f hf => by rw [hlevels level f hf]
  refine (List.Perm.flatMap_left _ hlevel).trans
    ((flatMap_append_perm _ _ _).symm.trans (List.Perm.append_left _ ?_))
  refine (flatMap_level_perm _ n).trans (.of_eq (filter_eq_self.2 fun f hf => ?_))
  exact decide_eq_true (hadded f hf)

end Version

end ElysiumKV
