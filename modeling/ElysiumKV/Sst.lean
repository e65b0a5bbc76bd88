import ElysiumKV.Version
import Mathlib.Data.List.Induction
import Mathlib.Data.List.Pairwise

/-!
# SST contents

An SST is its entries and range tombstones. What `SstWriter` reports is what the file holds, and the
effective span bounds all the file speaks about and is attained.
-/

namespace ElysiumKV

open List

/-- What reads back from a file. -/
structure Sst where
  entries : List Entry := []
  ranges : List RangeTombstone := []
deriving DecidableEq, Repr

namespace Sst

/-- `SstReader::get`. -/
def get (s : Sst) (key : Key) : Option Entry := findEntry key s.entries

/-- `SstReader::range_deletes`: the last range starting at or before the key. -/
def rangeDeletes (s : Sst) (key : Key) : Bool :=
  match (s.ranges.filter fun r => r.lower ≤ key).getLast? with
  | none => false
  | some r => key < r.upper

/-- What it says about a key. -/
def tells (s : Sst) (k : Key) : Option Found := ElysiumKV.tells s.entries s.ranges k

/-- What it speaks about. -/
def cells (s : Sst) : List (Span Edge) := ElysiumKV.cells s.entries s.ranges

/-- Not empty, in key order, with disjoint sorted ranges. -/
structure WellFormed (s : Sst) : Prop where
  sorted : SortedMap.Sorted Entry.key s.entries
  tidy : Span.Tidy s.ranges
  nonempty : s.entries ≠ [] ∨ s.ranges ≠ []

variable {s : Sst}

theorem rangeDeletes_iff (h : Span.Tidy s.ranges) {k : Key} :
    s.rangeDeletes k = true ↔ Span.Covered s.ranges k := by
  unfold rangeDeletes
  generalize s.ranges = ranges at h
  induction ranges using List.reverseRecOn with
  | nil => simp
  | append_singleton init r ih =>
    obtain ⟨hinit, -, hlast⟩ := Span.tidy_append.1 h
    rw [filter_append, Span.covered_append]
    by_cases hr : r.lower ≤ k
    · -- every earlier range ends before this one starts
      have hno : ¬ Span.Covered init k := by
        rintro ⟨t, ht, htk⟩
        exact absurd (htk.2.trans (hlast t ht r (by simp))) (not_lt.2 hr)
      simp [hr, hno, Span.Contains]
    · have hno : ¬ r.Contains k := fun hk => hr hk.1
      rw [filter_cons_of_neg (by simpa using hr), filter_nil, append_nil, ih hinit]
      simp [hno]

theorem tells_ne_none_iff {k : Key} :
    s.tells k ≠ none ↔ Span.Covered s.cells (atKey k) := ElysiumKV.tells_ne_none_iff

theorem exists_entry_of_live {k : Key} {v : Value} (h : s.tells k = some (.live v)) :
    ∃ e ∈ s.entries, e.key = k := by
  unfold tells ElysiumKV.tells at h
  cases he : findEntry k s.entries with
  | none => simp [he] at h
  | some e => exact ⟨e, mem_of_find?_eq_some he, by simpa using List.find?_some he⟩

theorem tells_of_before {t : Sst} (h : Span.Before s.cells t.cells) (k : Key) :
    s.tells k = none ∨ t.tells k = none := ElysiumKV.tells_of_before h k

/-! ### What the metadata of a file records -/

/-- The first key, empty without an entry. -/
def smallestKey (s : Sst) : Key := (s.entries.head?.map Entry.key).getD []

/-- The last key. -/
def largestKey (s : Sst) : Key := (s.entries.getLast?.map Entry.key).getD []

/-- The deletions. -/
def numTombstones (s : Sst) : ℕ := s.entries.countP fun e => e.type = .delete

/-- Where the first range starts. -/
def smallestRangeKey (s : Sst) : Key := (s.ranges.head?.map Span.lower).getD []

/-- Where the last range ends. -/
def largestRangeKey (s : Sst) : Key := (s.ranges.getLast?.map Span.upper).getD []

end Sst

/-- `SstBuildResult`, contents for bytes. -/
structure SstBuildResult where
  sst : Sst
  numEntries : ℕ
  numTombstones : ℕ
  smallestKey : Key
  largestKey : Key
  numRangeTombstones : ℕ
  smallestRangeKey : Key
  largestRangeKey : Key
deriving DecidableEq, Repr

/-- `SstWriter`. -/
structure SstWriter where
  entries : List Entry := []
  ranges : List RangeTombstone := []
  numEntries : ℕ := 0
  numTombstones : ℕ := 0
  smallestKey : Key := []
  largestKey : Key := []
  numRangeTombstones : ℕ := 0
  smallestRangeKey : Key := []
  largestRangeKey : Key := []
deriving DecidableEq, Repr

namespace SstWriter

/-- `add`. -/
def add (w : SstWriter) (e : Entry) : SstWriter :=
  { w with
    entries := w.entries ++ [e]
    smallestKey := if w.numEntries = 0 then e.key else w.smallestKey
    largestKey := e.key
    numEntries := w.numEntries + 1
    numTombstones := if e.type = .delete then w.numTombstones + 1 else w.numTombstones }

/-- `add_range_tombstone`. -/
def addRangeTombstone (w : SstWriter) (r : RangeTombstone) : SstWriter :=
  { w with
    ranges := w.ranges ++ [r]
    smallestRangeKey := if w.numRangeTombstones = 0 then r.lower else w.smallestRangeKey
    largestRangeKey := r.upper
    numRangeTombstones := w.numRangeTombstones + 1 }

/-- `finish`. -/
def finish (w : SstWriter) : SstBuildResult where
  sst := ⟨w.entries, w.ranges⟩
  numEntries := w.numEntries
  numTombstones := w.numTombstones
  smallestKey := w.smallestKey
  largestKey := w.largestKey
  numRangeTombstones := w.numRangeTombstones
  smallestRangeKey := w.smallestRangeKey
  largestRangeKey := w.largestRangeKey

/-- The counts and bounds are those of what was added. -/
structure Accurate (w : SstWriter) : Prop where
  numEntries : w.numEntries = w.entries.length
  numTombstones : w.numTombstones = Sst.numTombstones ⟨w.entries, w.ranges⟩
  smallestKey : w.smallestKey = Sst.smallestKey ⟨w.entries, w.ranges⟩
  largestKey : w.largestKey = Sst.largestKey ⟨w.entries, w.ranges⟩
  numRangeTombstones : w.numRangeTombstones = w.ranges.length
  smallestRangeKey : w.smallestRangeKey = Sst.smallestRangeKey ⟨w.entries, w.ranges⟩
  largestRangeKey : w.largestRangeKey = Sst.largestRangeKey ⟨w.entries, w.ranges⟩

theorem accurate_empty : Accurate {} := ⟨rfl, rfl, rfl, rfl, rfl, rfl, rfl⟩

variable {w : SstWriter}

theorem Accurate.add (h : Accurate w) (e : Entry) : Accurate (w.add e) where
  numEntries := by simp [SstWriter.add, h.numEntries]
  numTombstones := by
    simp only [SstWriter.add, h.numTombstones, Sst.numTombstones, countP_append,
      countP_singleton, decide_eq_true_eq]
    split_ifs <;> rfl
  smallestKey := by
    simp only [SstWriter.add, h.numEntries, h.smallestKey, Sst.smallestKey]
    cases w.entries <;> simp
  largestKey := by simp [SstWriter.add, Sst.largestKey]
  numRangeTombstones := h.numRangeTombstones
  smallestRangeKey := h.smallestRangeKey
  largestRangeKey := h.largestRangeKey

theorem Accurate.addRangeTombstone (h : Accurate w) (r : RangeTombstone) :
    Accurate (w.addRangeTombstone r) where
  numEntries := h.numEntries
  numTombstones := h.numTombstones
  smallestKey := h.smallestKey
  largestKey := h.largestKey
  numRangeTombstones := by simp [SstWriter.addRangeTombstone, h.numRangeTombstones]
  smallestRangeKey := by
    simp only [SstWriter.addRangeTombstone, h.numRangeTombstones, h.smallestRangeKey,
      Sst.smallestRangeKey]
    cases w.ranges <;> simp
  largestRangeKey := by simp [SstWriter.addRangeTombstone, Sst.largestRangeKey]

theorem foldl_add_spec (entries : List Entry) (h : Accurate w) :
    Accurate (entries.foldl add w) ∧ (entries.foldl add w).entries = w.entries ++ entries ∧
      (entries.foldl add w).ranges = w.ranges := by
  induction entries generalizing w with
  | nil => simp [h]
  | cons e entries ih =>
    obtain ⟨hacc, hentries, hranges⟩ := ih (h.add e)
    exact ⟨hacc, by rw [foldl_cons, hentries]; simp [add], hranges⟩

theorem foldl_addRangeTombstone_spec (ranges : List RangeTombstone) (h : Accurate w) :
    Accurate (ranges.foldl addRangeTombstone w) ∧
      (ranges.foldl addRangeTombstone w).entries = w.entries ∧
      (ranges.foldl addRangeTombstone w).ranges = w.ranges ++ ranges := by
  induction ranges generalizing w with
  | nil => simp [h]
  | cons r ranges ih =>
    obtain ⟨hacc, hentries, hranges⟩ := ih (h.addRangeTombstone r)
    exact ⟨hacc, hentries, by rw [foldl_cons, hranges]; simp [addRangeTombstone]⟩

end SstWriter

/-- `build_sst`. -/
def buildSst (source : List Entry) (dropTombstones : Bool) (ranges : List RangeTombstone) :
    SstBuildResult :=
  let writer := ranges.foldl SstWriter.addRangeTombstone {}
  ((source.filter fun e => !(dropTombstones && e.type = .delete)).foldl SstWriter.add writer).finish

/-- Its counts and bounds are those of the contents. -/
structure SstBuildResult.Describes (b : SstBuildResult) : Prop where
  numEntries : b.numEntries = b.sst.entries.length
  numTombstones : b.numTombstones = b.sst.numTombstones
  smallestKey : b.smallestKey = b.sst.smallestKey
  largestKey : b.largestKey = b.sst.largestKey
  numRangeTombstones : b.numRangeTombstones = b.sst.ranges.length
  smallestRangeKey : b.smallestRangeKey = b.sst.smallestRangeKey
  largestRangeKey : b.largestRangeKey = b.sst.largestRangeKey

theorem SstWriter.Accurate.finish_describes {w : SstWriter} (h : w.Accurate) : w.finish.Describes :=
  ⟨h.numEntries, h.numTombstones, h.smallestKey, h.largestKey, h.numRangeTombstones,
    h.smallestRangeKey, h.largestRangeKey⟩

theorem buildSst_spec (source : List Entry) (ranges : List RangeTombstone) :
    (buildSst source false ranges).Describes ∧
      (buildSst source false ranges).sst = ⟨source, ranges⟩ := by
  obtain ⟨hacc, hentries, hranges⟩ :=
    SstWriter.foldl_addRangeTombstone_spec ranges SstWriter.accurate_empty
  obtain ⟨hacc', hentries', hranges'⟩ := SstWriter.foldl_add_spec source hacc
  have hfilter : source.filter (fun e => !(false && decide (e.type = .delete))) = source := by simp
  unfold buildSst
  simp only [hfilter]
  refine ⟨hacc'.finish_describes, ?_⟩
  simp [SstWriter.finish, hentries', hranges', hentries, hranges]
section Bounds

variable {l : List Key}

theorem head?_getD_le (h : l.Pairwise (· ≤ ·)) {k : Key} (hk : k ∈ l) : l.head?.getD [] ≤ k := by
  rw [List.head?_eq_some_head (ne_nil_of_mem hk)]
  exact h.rel_head hk

theorem le_getLast?_getD (h : l.Pairwise (· ≤ ·)) {k : Key} (hk : k ∈ l) :
    k ≤ l.getLast?.getD [] := by
  rw [List.getLast?_eq_some_getLast (ne_nil_of_mem hk)]
  exact h.rel_getLast hk

theorem head?_getD_mem (h : l ≠ []) : l.head?.getD [] ∈ l := by
  rw [List.head?_eq_some_head h]
  exact head_mem h

theorem getLast?_getD_mem (h : l ≠ []) : l.getLast?.getD [] ∈ l := by
  rw [List.getLast?_eq_some_getLast h]
  exact getLast_mem h

end Bounds

namespace Sst

variable {s : Sst}

theorem WellFormed.keys_sorted (h : s.WellFormed) : (s.entries.map Entry.key).Pairwise (· ≤ ·) :=
  List.Pairwise.map _ (fun _ _ => le_of_lt) h.sorted

theorem WellFormed.lowers_sorted (h : s.WellFormed) :
    (s.ranges.map Span.lower).Pairwise (· ≤ ·) := by
  refine List.Pairwise.map _ ?_ (h.tidy.gaps.imp_of_mem fun {a b} ha _ hab =>
    ((h.tidy.nonempty a ha).trans hab).le)
  exact fun _ _ => id

theorem WellFormed.uppers_sorted (h : s.WellFormed) :
    (s.ranges.map Span.upper).Pairwise (· ≤ ·) := by
  refine List.Pairwise.map _ ?_ (h.tidy.gaps.imp_of_mem fun {a b} _ hb hab =>
    (hab.trans (h.tidy.nonempty b hb)).le)
  exact fun _ _ => id

theorem smallestKey_eq : s.smallestKey = (s.entries.map Entry.key).head?.getD [] := by
  simp [smallestKey]

theorem largestKey_eq : s.largestKey = (s.entries.map Entry.key).getLast?.getD [] := by
  simp [largestKey]

theorem smallestRangeKey_eq : s.smallestRangeKey = (s.ranges.map Span.lower).head?.getD [] := by
  simp [smallestRangeKey]

theorem largestRangeKey_eq : s.largestRangeKey = (s.ranges.map Span.upper).getLast?.getD [] := by
  simp [largestRangeKey]

theorem WellFormed.smallestKey_le (h : s.WellFormed) {e : Entry} (he : e ∈ s.entries) :
    s.smallestKey ≤ e.key :=
  smallestKey_eq ▸ head?_getD_le h.keys_sorted (mem_map_of_mem he)

theorem WellFormed.le_largestKey (h : s.WellFormed) {e : Entry} (he : e ∈ s.entries) :
    e.key ≤ s.largestKey :=
  largestKey_eq ▸ le_getLast?_getD h.keys_sorted (mem_map_of_mem he)

theorem WellFormed.smallestRangeKey_le (h : s.WellFormed) {r : RangeTombstone}
    (hr : r ∈ s.ranges) : s.smallestRangeKey ≤ r.lower :=
  smallestRangeKey_eq ▸ head?_getD_le h.lowers_sorted (mem_map_of_mem hr)

theorem WellFormed.le_largestRangeKey (h : s.WellFormed) {r : RangeTombstone}
    (hr : r ∈ s.ranges) : r.upper ≤ s.largestRangeKey :=
  largestRangeKey_eq ▸ le_getLast?_getD h.uppers_sorted (mem_map_of_mem hr)

theorem exists_smallestKey (h : s.entries ≠ []) : ∃ e ∈ s.entries, e.key = s.smallestKey := by
  rw [smallestKey_eq]
  exact mem_map.1 (head?_getD_mem (by simpa using h))

theorem exists_largestKey (h : s.entries ≠ []) : ∃ e ∈ s.entries, e.key = s.largestKey := by
  rw [largestKey_eq]
  exact mem_map.1 (getLast?_getD_mem (by simpa using h))

theorem exists_smallestRangeKey (h : s.ranges ≠ []) :
    ∃ r ∈ s.ranges, r.lower = s.smallestRangeKey := by
  rw [smallestRangeKey_eq]
  exact mem_map.1 (head?_getD_mem (by simpa using h))

theorem exists_largestRangeKey (h : s.ranges ≠ []) :
    ∃ r ∈ s.ranges, r.upper = s.largestRangeKey := by
  rw [largestRangeKey_eq]
  exact mem_map.1 (getLast?_getD_mem (by simpa using h))

theorem mem_cells {c : Span Edge} :
    c ∈ s.cells ↔ (∃ e ∈ s.entries, entryCell e = c) ∨ ∃ r ∈ s.ranges, rangeCell r = c := by
  simp [cells, ElysiumKV.cells]

end Sst

/-- Its counts and bounds are those of the contents. -/
structure FileMetadata.Describes (f : FileMetadata) (s : Sst) : Prop where
  numEntries : f.numEntries = s.entries.length
  numTombstones : f.numTombstones = s.numTombstones
  smallestKey : f.smallestKey = s.smallestKey
  largestKey : f.largestKey = s.largestKey
  numRangeTombstones : f.numRangeTombstones = s.ranges.length
  smallestRangeKey : f.smallestRangeKey = s.smallestRangeKey
  largestRangeKey : f.largestRangeKey = s.largestRangeKey

namespace FileMetadata.Describes

variable {f : FileMetadata} {s : Sst}

theorem noRanges_iff (h : f.Describes s) : f.numRangeTombstones = 0 ↔ s.ranges = [] := by
  rw [h.numRangeTombstones, length_eq_zero_iff]

theorem noEntries_iff (h : f.Describes s) : f.numEntries = 0 ↔ s.entries = [] := by
  rw [h.numEntries, length_eq_zero_iff]

theorem effectiveSmallest_eq (h : f.Describes s) :
    f.effectiveSmallest =
      if s.ranges = [] then s.smallestKey
      else if s.entries = [] then s.smallestRangeKey
      else min s.smallestKey s.smallestRangeKey := by
  unfold FileMetadata.effectiveSmallest
  simp only [h.noRanges_iff, h.noEntries_iff, h.smallestKey, h.smallestRangeKey]

theorem effectiveLargest_eq (h : f.Describes s) :
    f.effectiveLargest =
      if s.ranges = [] then s.largestKey
      else if s.entries = [] then s.largestRangeKey
      else max s.largestKey s.largestRangeKey := by
  unfold FileMetadata.effectiveLargest
  simp only [h.noRanges_iff, h.noEntries_iff, h.largestKey, h.largestRangeKey]

theorem effectiveSmallest_le_key (h : f.Describes s) (hs : s.WellFormed) {e : Entry}
    (he : e ∈ s.entries) : f.effectiveSmallest ≤ e.key := by
  rw [h.effectiveSmallest_eq, if_neg (ne_nil_of_mem he)]
  split_ifs
  · exact hs.smallestKey_le he
  · exact (min_le_left _ _).trans (hs.smallestKey_le he)

theorem effectiveSmallest_le_lower (h : f.Describes s) (hs : s.WellFormed) {r : RangeTombstone}
    (hr : r ∈ s.ranges) : f.effectiveSmallest ≤ r.lower := by
  rw [h.effectiveSmallest_eq, if_neg (ne_nil_of_mem hr)]
  split_ifs
  · exact hs.smallestRangeKey_le hr
  · exact (min_le_right _ _).trans (hs.smallestRangeKey_le hr)

theorem key_le_effectiveLargest (h : f.Describes s) (hs : s.WellFormed) {e : Entry}
    (he : e ∈ s.entries) : e.key ≤ f.effectiveLargest := by
  rw [h.effectiveLargest_eq, if_neg (ne_nil_of_mem he)]
  split_ifs
  · exact hs.le_largestKey he
  · exact (hs.le_largestKey he).trans (le_max_left _ _)

theorem upper_le_effectiveLargest (h : f.Describes s) (hs : s.WellFormed) {r : RangeTombstone}
    (hr : r ∈ s.ranges) : r.upper ≤ f.effectiveLargest := by
  rw [h.effectiveLargest_eq, if_neg (ne_nil_of_mem hr)]
  split_ifs
  · exact hs.le_largestRangeKey hr
  · exact (hs.le_largestRangeKey hr).trans (le_max_right _ _)

theorem smallest_le (h : f.Describes s) (hs : s.WellFormed) {c : Span Edge} (hc : c ∈ s.cells) :
    atKey f.effectiveSmallest ≤ c.lower := by
  rcases Sst.mem_cells.1 hc with ⟨e, he, rfl⟩ | ⟨r, hr, rfl⟩
  · exact atKey_le_atKey.2 (h.effectiveSmallest_le_key hs he)
  · exact atKey_le_atKey.2 (h.effectiveSmallest_le_lower hs hr)

theorem le_largest (h : f.Describes s) (hs : s.WellFormed) {c : Span Edge} (hc : c ∈ s.cells) :
    c.upper ≤ aboveKey f.effectiveLargest := by
  rcases Sst.mem_cells.1 hc with ⟨e, he, rfl⟩ | ⟨r, hr, rfl⟩
  · exact aboveKey_le_aboveKey.2 (h.key_le_effectiveLargest hs he)
  · exact atKey_le_aboveKey.2 (h.upper_le_effectiveLargest hs hr)

theorem exists_smallest (h : f.Describes s) (hs : s.WellFormed) :
    ∃ c ∈ s.cells, c.lower = atKey f.effectiveSmallest := by
  have ofKey (hne : s.entries ≠ []) : ∃ c ∈ s.cells, c.lower = atKey s.smallestKey := by
    obtain ⟨e, he, hk⟩ := Sst.exists_smallestKey hne
    exact ⟨entryCell e, Sst.mem_cells.2 (.inl ⟨e, he, rfl⟩), congrArg atKey hk⟩
  have ofRange (hne : s.ranges ≠ []) : ∃ c ∈ s.cells, c.lower = atKey s.smallestRangeKey := by
    obtain ⟨r, hr, hk⟩ := Sst.exists_smallestRangeKey hne
    exact ⟨rangeCell r, Sst.mem_cells.2 (.inr ⟨r, hr, rfl⟩), congrArg atKey hk⟩
  rw [h.effectiveSmallest_eq]
  split_ifs with hr he
  · exact ofKey (hs.nonempty.resolve_right (by simpa using hr))
  · exact ofRange hr
  · rcases min_choice s.smallestKey s.smallestRangeKey with hm | hm <;> rw [hm]
    · exact ofKey he
    · exact ofRange hr

theorem exists_largest (h : f.Describes s) (hs : s.WellFormed) :
    ∃ c ∈ s.cells, atKey f.effectiveLargest ≤ c.upper := by
  have ofKey (hne : s.entries ≠ []) : ∃ c ∈ s.cells, atKey s.largestKey ≤ c.upper := by
    obtain ⟨e, he, hk⟩ := Sst.exists_largestKey hne
    exact ⟨entryCell e, Sst.mem_cells.2 (.inl ⟨e, he, rfl⟩), atKey_le_aboveKey.2 hk.ge⟩
  have ofRange (hne : s.ranges ≠ []) : ∃ c ∈ s.cells, atKey s.largestRangeKey ≤ c.upper := by
    obtain ⟨r, hr, hk⟩ := Sst.exists_largestRangeKey hne
    exact ⟨rangeCell r, Sst.mem_cells.2 (.inr ⟨r, hr, rfl⟩), atKey_le_atKey.2 hk.ge⟩
  rw [h.effectiveLargest_eq]
  split_ifs with hr he
  · exact ofKey (hs.nonempty.resolve_right (by simpa using hr))
  · exact ofRange hr
  · rcases max_choice s.largestKey s.largestRangeKey with hm | hm <;> rw [hm]
    · exact ofKey he
    · exact ofRange hr

theorem within_of_tells (h : f.Describes s) (hs : s.WellFormed) {k : Key}
    (hk : s.tells k ≠ none) : f.effectiveSmallest ≤ k ∧ k ≤ f.effectiveLargest := by
  obtain ⟨c, hc, hlow, hhigh⟩ := Sst.tells_ne_none_iff.1 hk
  exact ⟨atKey_le_atKey.1 ((h.smallest_le hs hc).trans hlow),
    atKey_lt_aboveKey.1 (hhigh.trans_le (h.le_largest hs hc))⟩

theorem before_of_lt {g : FileMetadata} {t : Sst} (hf : f.Describes s) (hs : s.WellFormed)
    (hg : g.Describes t) (ht : t.WellFormed) (hlt : f.effectiveLargest < g.effectiveSmallest) :
    Span.Before s.cells t.cells := by
  intro c hc d hd
  exact (hf.le_largest hs hc).trans ((aboveKey_le_atKey.2 hlt).trans (hg.smallest_le ht hd))

theorem effective_le_of_before {g : FileMetadata} {t : Sst} (hf : f.Describes s)
    (hs : s.WellFormed) (hg : g.Describes t) (ht : t.WellFormed)
    (h : Span.Before s.cells t.cells) : f.effectiveLargest ≤ g.effectiveSmallest := by
  obtain ⟨c, hc, hle⟩ := hf.exists_largest hs
  obtain ⟨d, hd, heq⟩ := hg.exists_smallest ht
  exact atKey_le_atKey.1 (hle.trans ((h c hc d hd).trans heq.le))

end FileMetadata.Describes

end ElysiumKV
