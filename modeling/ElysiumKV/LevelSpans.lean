import ElysiumKV.Runs

/-!
# The spans of the files of a level

Below level 0 files are in order, data spans disjoint, no range tombstone of one covers a key of
another, and effective spans touch at most where a range tombstone ends.
-/

namespace ElysiumKV

namespace Db

variable {db : Db}

/-- `low` ends by the begin of `high`; a shared point is the end of a range of `low`, not a key. -/
structure EndsBy (db : Db) (low high : FileMetadata) : Prop where
  le : low.effectiveLargest ≤ high.effectiveSmallest
  exclusive : low.effectiveLargest = high.effectiveSmallest →
    (∃ r ∈ (db.sstOf low).ranges, r.upper = low.effectiveLargest) ∧
      ∀ e ∈ (db.sstOf low).entries, e.key ≠ low.effectiveLargest

/-- The metadata of a level below level 0. -/
structure LevelSpans (db : Db) (level : ℕ) : Prop where
  described : ∀ f ∈ db.version.filesAt level,
    db.objects f.fileNumber = some (db.sstOf f) ∧ f.Describes (db.sstOf f)
  sorted : (db.version.filesAt level).Pairwise fun f g => f.smallestKey ≤ g.smallestKey
  dataDisjoint : ∀ f ∈ db.version.filesAt level, ∀ g ∈ db.version.filesAt level, f ≠ g →
    f.numEntries ≠ 0 → g.numEntries ≠ 0 →
    f.largestKey < g.smallestKey ∨ g.largestKey < f.smallestKey
  uncovered : ∀ f ∈ db.version.filesAt level, ∀ g ∈ db.version.filesAt level, f ≠ g →
    ∀ r ∈ (db.sstOf f).ranges, ∀ e ∈ (db.sstOf g).entries, ¬ r.Contains e.key
  touch : ∀ f ∈ db.version.filesAt level, ∀ g ∈ db.version.filesAt level, f ≠ g →
    db.EndsBy f g ∨ db.EndsBy g f

theorem Stored.endsBy_of_before {f g : FileMetadata} (hf : db.Stored f) (hg : db.Stored g)
    (hb : Span.Before (db.sstOf f).cells (db.sstOf g).cells) : db.EndsBy f g := by
  refine ⟨hf.describes.effective_le_of_before hf.wellFormed hg.describes hg.wellFormed hb, ?_⟩
  intro hmeet
  obtain ⟨d, hd, hlow⟩ := hg.describes.exists_smallest hg.wellFormed
  rw [← hmeet] at hlow
  constructor
  · obtain ⟨c, hc, hle⟩ := hf.describes.exists_largest hf.wellFormed
    have hbound := (hb c hc d hd).trans hlow.le
    rcases Sst.mem_cells.1 hc with ⟨e, -, rfl⟩ | ⟨r, hr, rfl⟩
    · -- an entry reaches past its own key
      have hkey : f.effectiveLargest ≤ e.key := atKey_le_aboveKey.1 hle
      exact absurd (aboveKey_le_atKey.1 hbound) (not_lt.2 hkey)
    · exact ⟨r, hr, le_antisymm (atKey_le_atKey.1 hbound) (atKey_le_atKey.1 hle)⟩
  · intro e he
    have hbound := (hb _ (Sst.mem_cells.2 (.inl ⟨e, he, rfl⟩)) d hd).trans hlow.le
    exact ne_of_lt (aboveKey_le_atKey.1 hbound)

theorem Stored.largest_lt_smallest {f g : FileMetadata} (hf : db.Stored f) (hg : db.Stored g)
    (hb : Span.Before (db.sstOf f).cells (db.sstOf g).cells) (hfe : f.numEntries ≠ 0)
    (hge : g.numEntries ≠ 0) : f.largestKey < g.smallestKey := by
  obtain ⟨e, he, hek⟩ :=
    Sst.exists_largestKey fun hnil => hfe (hf.describes.noEntries_iff.2 hnil)
  obtain ⟨e', he', hek'⟩ :=
    Sst.exists_smallestKey fun hnil => hge (hg.describes.noEntries_iff.2 hnil)
  rw [hf.describes.largestKey, hg.describes.smallestKey, ← hek, ← hek']
  exact aboveKey_le_atKey.1
    (hb _ (Sst.mem_cells.2 (.inl ⟨e, he, rfl⟩)) _ (Sst.mem_cells.2 (.inl ⟨e', he', rfl⟩)))

theorem Stored.smallest_le_largest {f : FileMetadata} (hf : db.Stored f) :
    f.smallestKey ≤ f.largestKey := by
  rw [hf.describes.smallestKey, hf.describes.largestKey]
  cases hentries : (db.sstOf f).entries with
  | nil => simp [Sst.smallestKey, hentries, ByteOrder.nil_le]
  | cons e entries =>
    have he : e ∈ (db.sstOf f).entries := hentries ▸ List.mem_cons_self
    exact (hf.wellFormed.smallestKey_le he).trans (hf.wellFormed.le_largestKey he)

theorem Stored.spans_of_bare {f : FileMetadata} (hf : db.Stored f) (hbare : f.numEntries = 0) :
    f.smallestKey = [] ∧ f.largestKey = [] := by
  have hnil := hf.describes.noEntries_iff.1 hbare
  rw [hf.describes.smallestKey, hf.describes.largestKey]
  simp [Sst.smallestKey, Sst.largestKey, hnil]

theorem Tidy.levelSpans (h : Tidy db) {level : ℕ} (hl : level ≠ 0) : LevelSpans db level where
  described f hf := ⟨(h.stored level f hf).object, (h.stored level f hf).describes⟩
  sorted := (h.keyOrder level hl).imp fun hfg => hfg.elim le_of_lt fun heq => heq.1.le
  dataDisjoint f hf g hg hne hfe hge :=
    (h.apart level hl f hf g hg hne).imp
      (fun hb => (h.stored level f hf).largest_lt_smallest (h.stored level g hg) hb hfe hge)
      fun hb => (h.stored level g hg).largest_lt_smallest (h.stored level f hf) hb hge hfe
  uncovered f hf g hg hne r hr e he hcontains := by
    refine hne (h.tells_agree hl hf hg (k := e.key) ?_ ?_)
    · exact Sst.tells_ne_none_iff.2 (covered_cells.2 (.inr ⟨r, hr, hcontains⟩))
    · exact Sst.tells_ne_none_iff.2 (covered_cells.2 (.inl ⟨e, he, rfl⟩))
  touch f hf g hg hne :=
    (h.apart level hl f hf g hg hne).imp
      (fun hb => (h.stored level f hf).endsBy_of_before (h.stored level g hg) hb)
      fun hb => (h.stored level g hg).endsBy_of_before (h.stored level f hf) hb

end Db

/-- Every version the engine reaches keeps the spans of each level below level 0 in order. -/
theorem levelSpans_of_run {options : Options} {db : Db} {log : List Event}
    (h : Run Compaction.Admissible options db log) {level : ℕ} (hl : level ≠ 0) :
    Db.LevelSpans db level :=
  h.refines.tidy.levelSpans hl

theorem levelSpans_of_run_merged :
    Db.LevelSpans (play plainOptions {} mergingScript ({}, [])).1 1 :=
  levelSpans_of_run (Run.empty.play {} mergingScript (by decide)) (by decide)

/-- Merging more than what the inputs overlap may leave a file inside the span of the output. -/
theorem straddling_compaction_overlaps_spans :
    ∃ db log, Run Compaction.Closed plainOptions db log ∧ ¬ Db.LevelSpans db 1 := by
  refine ⟨_, _, Run.empty.play {} straddlingScript (by decide), fun h => ?_⟩
  have hdisjoint := h.dataDisjoint
  revert hdisjoint
  decide

end ElysiumKV
