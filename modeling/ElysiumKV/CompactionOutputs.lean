import ElysiumKV.Runs

/-!
# What a compaction writes

The outputs hold exactly the newest uncovered entries and, above the bottommost level, the range
tombstones (`Compaction.writesExactly`); a search finds the same values in them as in the inputs.
-/

namespace ElysiumKV

open List MergingIterator

namespace Compaction

/-- The newest of its key, not covered by a newer source's range tombstone. -/
def NewestUncovered (sources : List Sst) (e : Entry) : Prop :=
  ∃ newer s older, sources = newer ++ s :: older ∧ e ∈ s.entries ∧
    ∀ t ∈ newer, (∀ f ∈ t.entries, f.key ≠ e.key) ∧ ¬ Span.Covered t.ranges e.key

/-- What the outputs hold, given the inputs. -/
structure WritesExactly (bottommost : Bool) (truncationPoint : Key) (sources : List Sst)
    (outs : List SstBuildResult) : Prop where
  described : ∀ o ∈ outs, o.Describes
  ascending : SortedMap.Sorted Entry.key (outs.flatMap fun o => o.sst.entries)
  mem : ∀ e, (e ∈ outs.flatMap fun o => o.sst.entries) ↔
    truncationPoint ≤ e.key ∧ NewestUncovered sources e ∧ (bottommost = true → e.type = .put)
  ranges : ∀ k, (∃ o ∈ outs, Span.Covered o.sst.ranges k) ↔
    bottommost = false ∧ ∃ s ∈ sources, Span.Covered s.ranges k
  noRanges : bottommost = true → ∀ o ∈ outs, o.sst.ranges = []
  spans : outs.Pairwise fun a b =>
    a.numEntries ≠ 0 → b.numEntries ≠ 0 → a.largestKey < b.smallestKey
  apart : outs.Pairwise fun a b =>
    (∀ r ∈ a.sst.ranges, ∀ e ∈ b.sst.entries, ¬ r.Contains e.key) ∧
      ∀ r ∈ b.sst.ranges, ∀ e ∈ a.sst.entries, ¬ r.Contains e.key

section

variable {sources : List Sst}

theorem ordered_of_wellFormed (h : ∀ s ∈ sources, s.WellFormed) :
    MergingIterator.Ordered sources := fun s hs => ⟨(h s hs).sorted, (h s hs).tidy⟩

theorem speaks_eq_none_iff {s : Sst} (h : s.WellFormed) {k : Key} :
    Merge.speaks entryCursor Entry.key k (child s) = none ↔
      (∀ f ∈ s.entries, f.key ≠ k) ∧ ¬ Span.Covered s.ranges k := by
  have hcovers : (child s).covers k = true ↔ Span.Covered s.ranges k :=
    Sst.rangeDeletes_iff h.tidy
  rw [← hcovers, ← SortedMap.find_eq_none_iff Entry.key, Merge.speaks]
  have hstream : entryCursor.ahead (child s).stream = s.entries :=
    rfl
  rw [hstream]
  cases SortedMap.find Entry.key k s.entries <;> simp

theorem speaks_eq_some_iff {s : Sst} (h : s.WellFormed) {k : Key} {e : Entry} :
    Merge.speaks entryCursor Entry.key k (child s) =
      some (some e) ↔ e ∈ s.entries ∧ e.key = k := by
  rw [← SortedMap.find_eq_some_iff Entry.key h.sorted, Merge.speaks]
  have hstream : entryCursor.ahead (child s).stream = s.entries :=
    rfl
  rw [hstream]
  cases SortedMap.find Entry.key k s.entries with
  | none => by_cases hk : (child s).covers k <;> simp [hk]
  | some f => simp

theorem mem_merged_iff (h : ∀ s ∈ sources, s.WellFormed) (e : Entry) :
    e ∈ merged sources ↔ NewestUncovered sources e := by
  have hord := ordered_of_wellFormed h
  have hmem : e ∈ merged sources ↔ findEntry e.key (merged sources) = some e := by
    rw [findEntry, SortedMap.find_eq_some_iff _ (merges_merged hord).sorted]
    exact (and_iff_left rfl).symm
  rw [hmem, findEntry_merged hord, Option.join_eq_some_iff]
  constructor
  · intro hfind
    obtain ⟨newer, s, older, rfl, hs, hnewer⟩ := List.findSome?_eq_some_iff.1 hfind
    refine ⟨newer, s, older, rfl, ((speaks_eq_some_iff (h s (by simp))).1 hs).1, fun t ht => ?_⟩
    exact (speaks_eq_none_iff (h t (by simp [ht]))).1 (hnewer t ht)
  · rintro ⟨newer, s, older, rfl, hs, hnewer⟩
    refine List.findSome?_eq_some_iff.2 ⟨newer, s, older, rfl, ?_, fun t ht => ?_⟩
    · exact (speaks_eq_some_iff (h s (by simp))).2 ⟨hs, rfl⟩
    · exact (speaks_eq_none_iff (h t (by simp [ht]))).2 (hnewer t ht)

theorem keeps_iff {bottommost : Bool} {truncationPoint : Key} {e : Entry} :
    keeps bottommost truncationPoint e = true ↔
      truncationPoint ≤ e.key ∧ (bottommost = true → e.type = .put) := by
  have htruncated : (truncationPoint = [] ∨ truncationPoint ≤ e.key) ↔ truncationPoint ≤ e.key :=
    or_iff_right_of_imp fun hnil => hnil ▸ ByteOrder.nil_le _
  rw [← htruncated]
  cases bottommost <;> cases htype : e.type <;> simp [keeps, htype]

theorem not_contains_of_before {a b : Sst} (h : Span.Before a.cells b.cells) :
    (∀ r ∈ a.ranges, ∀ e ∈ b.entries, ¬ r.Contains e.key) ∧
      ∀ r ∈ b.ranges, ∀ e ∈ a.entries, ¬ r.Contains e.key := by
  constructor
  · intro r hr e he hcontains
    have := h _ (Sst.mem_cells.2 (.inr ⟨r, hr, rfl⟩)) _ (Sst.mem_cells.2 (.inl ⟨e, he, rfl⟩))
    exact absurd hcontains.2 (not_lt.2 (atKey_le_atKey.1 this))
  · intro r hr e he hcontains
    have := h _ (Sst.mem_cells.2 (.inl ⟨e, he, rfl⟩)) _ (Sst.mem_cells.2 (.inr ⟨r, hr, rfl⟩))
    exact absurd hcontains.1 (not_le.2 (aboveKey_le_atKey.1 this))

theorem largestKey_lt_of_before {a b : SstBuildResult} (ha : a.Describes) (hb : b.Describes)
    (h : Span.Before a.sst.cells b.sst.cells) (hae : a.numEntries ≠ 0) (hbe : b.numEntries ≠ 0) :
    a.largestKey < b.smallestKey := by
  rw [ha.numEntries, Ne, length_eq_zero_iff] at hae
  rw [hb.numEntries, Ne, length_eq_zero_iff] at hbe
  obtain ⟨e, he, hek⟩ := Sst.exists_largestKey hae
  obtain ⟨f, hf, hfk⟩ := Sst.exists_smallestKey hbe
  rw [ha.largestKey, hb.smallestKey, ← hek, ← hfk]
  exact aboveKey_le_atKey.1
    (h _ (Sst.mem_cells.2 (.inl ⟨e, he, rfl⟩)) _ (Sst.mem_cells.2 (.inl ⟨f, hf, rfl⟩)))

variable (c : Compaction) (options : Options) (truncationPoint : Key)

theorem writesExactly (h : ∀ s ∈ sources, s.WellFormed) :
    WritesExactly c.outputIsBottommost truncationPoint sources
      (writeCompactionOutputs c options truncationPoint sources) := by
  have hord := ordered_of_wellFormed h
  have htiles := tiles_writeCompactionOutputs c options truncationPoint hord
  have hranges : ∀ k, (∃ o ∈ writeCompactionOutputs c options truncationPoint sources,
      Span.Covered o.sst.ranges k) ↔
        c.outputIsBottommost = false ∧ ∃ s ∈ sources, Span.Covered s.ranges k := by
    intro k
    rw [htiles.covered, and_true, carriedRanges]
    cases c.outputIsBottommost with
    | true => simp
    | false => simp [mergeRanges, Span.covered_unite, covered_allRanges]
  refine ⟨fun o ho => (htiles.closed o ho).1, ?_, fun e => ?_, hranges, fun hb o ho => ?_, ?_,
    htiles.before.imp fun hab => not_contains_of_before hab⟩
  · rw [htiles.entries]
    exact sorted_kept c truncationPoint hord
  · rw [htiles.entries, kept, mem_filter, mem_merged_iff h, keeps_iff]
    tauto
  · refine eq_nil_iff_forall_not_mem.2 fun r hr => ?_
    have hcovered : Span.Covered o.sst.ranges r.lower :=
      ⟨r, hr, le_rfl, (htiles.closed o ho).2.tidy.nonempty r hr⟩
    have := ((hranges r.lower).1 ⟨o, ho, hcovered⟩).1
    rw [hb] at this
    cases this
  · exact htiles.before.imp_of_mem fun ha hb hab =>
      largestKey_lt_of_before (htiles.closed _ ha).1 (htiles.closed _ hb).1 hab

/-- A search of outputs for sources finds the same value, if at the bottommost level what is asked
later is silent. -/
theorem valueOf_outputs (h : ∀ s ∈ sources, s.WellFormed) {k : Key} (hk : truncationPoint ≤ k)
    (older : List Sst)
    (holder : c.outputIsBottommost = true → (∃ s ∈ sources, s.tells k ≠ none) →
      ∀ s ∈ older, s.tells k = none) :
    Db.valueOf (((writeCompactionOutputs c options truncationPoint sources).map
        SstBuildResult.sst ++ older).findSome? fun s => s.tells k) =
      Db.valueOf ((sources ++ older).findSome? fun s => s.tells k) := by
  have hord := ordered_of_wellFormed h
  rw [List.findSome?_append, List.findSome?_append]
  cases hb : c.outputIsBottommost with
  | false => rw [findSome?_outputs c options truncationPoint hord hb hk]
  | true =>
    rw [findSome?_outputs_bottommost c options truncationPoint hord hb hk]
    cases hsaid : sources.findSome? fun s => s.tells k with
    | none => rfl
    | some found => cases found with
      | live v => rfl
      | gone =>
        obtain ⟨s, hs, htells⟩ := exists_of_findSome?_eq_some hsaid
        have hsilent := holder hb ⟨s, hs, by simp [htells]⟩
        rw [List.findSome?_eq_none_iff.2 hsilent]
        rfl

end

end Compaction

/-- Compactions write exactly the merge of their inputs, and admissible ones change no lookup. -/
theorem compaction_outputs_exact (options : Options) :
    (∀ (c : Compaction) (truncationPoint : Key) (sources : List Sst),
      (∀ s ∈ sources, s.WellFormed) →
        Compaction.WritesExactly c.outputIsBottommost truncationPoint sources
          (c.writeCompactionOutputs options truncationPoint sources)) ∧
    (∀ (c : Compaction) (truncationPoint : Key) (sources older : List Sst) (k : Key),
      (∀ s ∈ sources, s.WellFormed) → truncationPoint ≤ k →
      (c.outputIsBottommost = true → (∃ s ∈ sources, s.tells k ≠ none) →
        ∀ s ∈ older, s.tells k = none) →
      Db.valueOf (((c.writeCompactionOutputs options truncationPoint sources).map
          SstBuildResult.sst ++ older).findSome? fun s => s.tells k) =
        Db.valueOf ((sources ++ older).findSome? fun s => s.tells k)) ∧
    ∀ (env : WriteEnv) (db : Db) (c : Compaction), db.Tidy → c.Admissible db.version → ∀ k,
      (db.runCompaction options env c).get options k = db.get options k := by
  refine ⟨fun c t sources h => c.writesExactly options t h,
    fun c t sources older k h hk holder => c.valueOf_outputs options t h hk older holder,
    fun env db c h hc k => ?_⟩
  exact (db.sameFront_runCompaction options env c).get_eq options h (h.runCompaction options env hc)
    (fun k hk => h.valueOf_fileAnswer_runCompaction options env hc hk) k

/-- Unions of ranges are sorted, separated and exact, as are their parts between cuts, up to
touching there. -/
theorem range_algebra_exact (ranges : List RangeTombstone) :
    Span.Tidy (mergeRanges ranges) ∧
    (∀ k, Span.Covered (mergeRanges ranges) k ↔ Span.Covered ranges k) ∧
    ∀ cuts : List Key, cuts.Pairwise (· < ·) →
      (∀ p ∈ Span.pieces cuts, Span.Tidy (clipRanges (mergeRanges ranges) p.1 p.2) ∧
        ∀ r ∈ clipRanges (mergeRanges ranges) p.1 p.2, (∀ l ∈ p.1, l ≤ r.lower) ∧
          ∀ u ∈ p.2, r.upper ≤ u) ∧
      ((Span.pieces cuts).flatMap fun p => clipRanges (mergeRanges ranges) p.1 p.2).Pairwise
        (fun r s => r.upper ≤ s.lower) ∧
      ∀ k, (∃ p ∈ Span.pieces cuts, Span.Covered (clipRanges (mergeRanges ranges) p.1 p.2) k) ↔
        Span.Covered ranges k := by
  have htidy := Span.tidy_unite ranges
  refine ⟨htidy, fun k => Span.covered_unite ranges k, fun cuts hcuts => ⟨?_, ?_, fun k => ?_⟩⟩
  · refine fun p _ => ⟨htidy.clip p.1 p.2, fun r hr => ?_⟩
    obtain ⟨s, -, hs⟩ := Span.mem_clip.1 hr
    exact (Span.clipOne_sub hs).2.2.2
  · exact htidy.pairwise_tile hcuts
  · have htile := Span.covered_tile cuts (mergeRanges ranges) k
    rw [Span.tile, flatMap_def, Span.covered_flatten] at htile
    simpa [mergeRanges, clipRanges] using htile

/-- Touching, nested and empty ranges, cut inside and outside of what they cover. -/
theorem range_algebra_exact_nested :
    (Span.pieces [[3], [9]]).map (fun p =>
        clipRanges (mergeRanges [⟨[1], [2]⟩, ⟨[2], [5]⟩, ⟨[3], [4]⟩, ⟨[8], [6]⟩]) p.1 p.2) =
      [[⟨[1], [3]⟩], [⟨[3], [5]⟩], []] ∧
    ∀ k, (∃ p ∈ Span.pieces [[3], [9]], Span.Covered (clipRanges
        (mergeRanges [⟨[1], [2]⟩, ⟨[2], [5]⟩, ⟨[3], [4]⟩, ⟨[8], [6]⟩]) p.1 p.2) k) ↔
      Span.Covered [⟨[1], [2]⟩, ⟨[2], [5]⟩, ⟨[3], [4]⟩, ⟨[8], [6]⟩] k :=
  ⟨by decide, ((range_algebra_exact _).2.2 [[3], [9]] (by decide)).2.2⟩

/-- A range delete over two of three keys, one of them written again. -/
def overlaidSources : List Sst :=
  [⟨[⟨[5], .put, [51]⟩], [⟨[4], [8]⟩]⟩,
    ⟨[⟨[1], .put, [10]⟩, ⟨[5], .put, [50]⟩, ⟨[7], .put, [70]⟩], []⟩]

/-- Every entry gets a file of its own. -/
def tinyOptions : Options := { plainOptions with targetFileBytes := fun _ => 1 }

/-- A merge from level 0 to 1. -/
def plainMerge : Compaction := { level := 0, outputLevel := 1, inputs := [], overlaps := [] }

theorem compaction_outputs_exact_overlaid :
    (plainMerge.writeCompactionOutputs tinyOptions [] overlaidSources).map SstBuildResult.sst =
        [⟨[⟨[1], .put, [10]⟩], [⟨[4], [5]⟩]⟩, ⟨[⟨[5], .put, [51]⟩], [⟨[5], [8]⟩]⟩] ∧
      Compaction.WritesExactly false [] overlaidSources
        (plainMerge.writeCompactionOutputs tinyOptions [] overlaidSources) := by
  refine ⟨by decide, (compaction_outputs_exact tinyOptions).1 plainMerge [] overlaidSources
    fun s hs => ?_⟩
  have hall : ∀ s ∈ overlaidSources, s.entries.Pairwise (fun e f => e.key < f.key) ∧
      ((∀ r ∈ s.ranges, r.lower < r.upper) ∧ s.ranges.Pairwise fun r t => r.upper < t.lower) ∧
      (s.entries ≠ [] ∨ s.ranges ≠ []) := by decide
  obtain ⟨hsorted, htidy, hne⟩ := hall s hs
  exact ⟨hsorted, ⟨htidy.1, htidy.2⟩, hne⟩

/-- A compaction of freely chosen files may change a lookup, even with all overlaps taken. -/
theorem free_compaction_changes_get :
    ∃ db log, ∃ c : Compaction, Run Compaction.Closed plainOptions db log ∧
      c.Closed db.version ∧ c.outputIsBottommost = false ∧
      db.get plainOptions [2] = .ok [20] ∧
      (db.runCompaction plainOptions {} c).get plainOptions [2] = .error .notFound := by
  let db := (play plainOptions {} (straddlingScript.take 15) ({}, [])).1
  refine ⟨db, _,
    { level := 0, outputLevel := 1, inputs := db.version.filesAt 0,
      overlaps := (db.version.filesAt 1).filter fun f => f.smallestKey ≠ [2] },
    Run.empty.play {} (straddlingScript.take 15) (by decide), by decide, rfl, by decide, by decide⟩

end ElysiumKV
