import ElysiumKV.Db

/-!
# The level invariant

`Db.Tidy`: objects are stored and described, numbers identify files, level 0 is newest first, and
below it any two files lie one before the other. `Tidy.install` is the rule by which edits keep it.
-/

namespace ElysiumKV

open List

namespace Db

/-- The contents of a file. -/
def sstOf (db : Db) (f : FileMetadata) : Sst := (db.objects f.fileNumber).getD {}

/-- Two files of a level lie one before the other. -/
def Apart (db : Db) (f g : FileMetadata) : Prop :=
  Span.Before (db.sstOf f).cells (db.sstOf g).cells ∨
    Span.Before (db.sstOf g).cells (db.sstOf f).cells

variable {db : Db} {f g : FileMetadata}

theorem Apart.symm (h : db.Apart f g) : db.Apart g f := Or.symm h

/-- The object is stored, well formed and described. -/
structure Stored (db : Db) (f : FileMetadata) : Prop where
  object : db.objects f.fileNumber = some (db.sstOf f)
  wellFormed : (db.sstOf f).WellFormed
  describes : f.Describes (db.sstOf f)
  number : f.fileNumber < db.nextFileNumber

/-- The invariant of every installed version. -/
structure Tidy (db : Db) : Prop where
  stored : ∀ level, ∀ f ∈ db.version.filesAt level, db.Stored f
  levelOf : ∀ level, ∀ f ∈ db.version.filesAt level, f.level = level
  unique : ∀ l m, ∀ f ∈ db.version.filesAt l, ∀ g ∈ db.version.filesAt m,
    f.fileNumber = g.fileNumber → f = g
  nodup : ∀ level, (db.version.filesAt level).Nodup
  newest : (db.version.filesAt 0).Pairwise NewerFirst
  keyOrder : ∀ level, level ≠ 0 → (db.version.filesAt level).Pairwise KeyOrder
  apart : ∀ level, level ≠ 0 → ∀ f ∈ db.version.filesAt level, ∀ g ∈ db.version.filesAt level,
    f ≠ g → db.Apart f g

theorem tidy_empty : Tidy {} where
  stored level f hf := by simp [Version.filesAt] at hf
  levelOf level f hf := by simp [Version.filesAt] at hf
  unique l m f hf := by simp [Version.filesAt] at hf
  nodup level := by simp [Version.filesAt]
  newest := by simp [Version.filesAt]
  keyOrder level _ := by simp [Version.filesAt]
  apart level _ f hf := by simp [Version.filesAt] at hf

/-! ### Changes of the objects -/

/-- Objects are only added, under fresh numbers. -/
structure Extends (db db' : Db) : Prop where
  next : db.nextFileNumber ≤ db'.nextFileNumber
  objects : ∀ n < db.nextFileNumber, db'.objects n = db.objects n

theorem Extends.refl (db : Db) : Extends db db := ⟨le_rfl, fun _ _ => rfl⟩

theorem Extends.trans {a b c : Db} (hab : Extends a b) (hbc : Extends b c) : Extends a c :=
  ⟨hab.next.trans hbc.next, fun n hn =>
    (hbc.objects n (hn.trans_le hab.next)).trans (hab.objects n hn)⟩

theorem extends_writeNewSst (db : Db) (sst : Sst) : Extends db (db.writeNewSst sst) where
  next := Nat.le_succ _
  objects n hn := by simp [writeNewSst, Nat.ne_of_lt hn]

variable {db' : Db}

theorem Extends.sstOf (h : Extends db db') (hf : f.fileNumber < db.nextFileNumber) :
    db'.sstOf f = db.sstOf f := by
  simp only [Db.sstOf, h.objects _ hf]

theorem Stored.extend (hf : db.Stored f) (h : Extends db db') : db'.Stored f where
  object := by rw [h.objects _ hf.number, hf.object, h.sstOf hf.number]
  wellFormed := by
    rw [h.sstOf hf.number]
    exact hf.wellFormed
  describes := by
    rw [h.sstOf hf.number]
    exact hf.describes
  number := hf.number.trans_le h.next

theorem Apart.extend (hfg : db.Apart f g) (h : Extends db db') (hf : db.Stored f)
    (hg : db.Stored g) : db'.Apart f g := by
  unfold Apart
  rwa [h.sstOf hf.number, h.sstOf hg.number]

/-! ### Installing an edit -/

/-- The file stays through the edit. -/
def Survives (v : Version) (edit : VersionEdit) (level : ℕ) (f : FileMetadata) : Prop :=
  f ∈ v.filesAt level ∧ (⟨level, f.fileNumber⟩ : FileRef) ∉ edit.deleted

variable {edit : VersionEdit}

/-- Added files have numbers of their own and, below level 0, lie apart from what stays and from
each other. -/
theorem Tidy.install {db₁ : Db} (h : Tidy db) (hext : Extends db db₁)
    (hversion : db₁.version = db.version) (hstored : ∀ f ∈ edit.added, db₁.Stored f)
    (hnodup : (edit.added.map FileMetadata.fileNumber).Nodup)
    (hfresh : ∀ f ∈ edit.added, ∀ l g, Survives db.version edit l g → g.fileNumber ≠ f.fileNumber)
    (hapart : ∀ f ∈ edit.added, f.level ≠ 0 → ∀ g, Survives db.version edit f.level g →
      db₁.Apart f g)
    (hadded : ∀ f ∈ edit.added, ∀ g ∈ edit.added, f.level ≠ 0 → f.level = g.level → f ≠ g →
      db₁.Apart f g) : Tidy (db₁.applyEdit edit) := by
  have hmem : ∀ {level f}, f ∈ (db₁.applyEdit edit).version.filesAt level ↔
      Survives db.version edit level f ∨ f ∈ edit.added ∧ f.level = level := by
    intro level f
    simp only [applyEdit, Version.mem_filesAt_apply, hversion, Survives]
  have hinj : ∀ f ∈ edit.added, ∀ g ∈ edit.added, f.fileNumber = g.fileNumber → f = g :=
    fun f hf g hg => inj_on_of_nodup_map hnodup hf hg
  have hall : ∀ level, ∀ f ∈ (db₁.applyEdit edit).version.filesAt level, db₁.Stored f := by
    intro level f hf
    rcases hmem.1 hf with hf | hf
    · exact (h.stored level f hf.1).extend hext
    · exact hstored f hf.1
  refine ⟨?_, ?_, ?_, ?_, ?_, ?_, ?_⟩
  · exact fun level f hf => ⟨(hall level f hf).1, (hall level f hf).2, (hall level f hf).3,
      (hall level f hf).4⟩
  · intro level f hf
    rcases hmem.1 hf with hf | hf
    · exact h.levelOf level f hf.1
    · exact hf.2
  · intro l m f hf g hg hnum
    rcases hmem.1 hf with hf | hf <;> rcases hmem.1 hg with hg | hg
    · exact h.unique l m f hf.1 g hg.1 hnum
    · exact absurd hnum (hfresh g hg.1 l f hf)
    · exact absurd hnum.symm (hfresh f hf.1 m g hg)
    · exact hinj f hf.1 g hg.1 hnum
  · intro level
    simp only [applyEdit, Version.filesAt_apply, hversion]
    refine (sortLevel_perm _ _).nodup_iff.2 (nodup_append.2 ⟨?_, ?_, ?_⟩)
    · exact (h.nodup level).filter _
    · exact (List.Nodup.of_map _ hnodup).filter _
    · intro f hf g hg
      simp only [mem_filter, decide_eq_true_eq] at hf hg
      exact fun hfg => hfresh g hg.1 level f ⟨hf.1, hf.2⟩ (congrArg _ hfg)
  · simp only [applyEdit, Version.filesAt_apply]
    exact pairwise_sortLevel_zero _
  · intro level hl
    simp only [applyEdit, Version.filesAt_apply]
    exact pairwise_sortLevel_deep hl _
  · intro level hl f hf g hg hne
    show db₁.Apart f g
    rcases hmem.1 hf with hf' | ⟨hf', rfl⟩ <;> rcases hmem.1 hg with hg' | ⟨hg', hlevel⟩
    · exact (h.apart level hl f hf'.1 g hg'.1 hne).extend hext (h.stored level f hf'.1)
        (h.stored level g hg'.1)
    · subst hlevel
      exact (hapart g hg' hl f hf').symm
    · exact hapart f hf' hl g hg'
    · exact hadded f hf' g hg' hl hlevel.symm hne

theorem Tidy.delete (h : Tidy db) (hadded : edit.added = []) : Tidy (db.applyEdit edit) :=
  h.install (.refl db) rfl (by simp [hadded]) (by simp [hadded]) (by simp [hadded])
    (by simp [hadded]) (by simp [hadded])

/-! ### Files written by a flush or a rewrite -/

variable (options : Options) (env : WriteEnv)

theorem fileOf_describes {built : SstBuildResult} (h : built.Describes)
    (level number minTime maxTime : ℕ) (watermark : WatermarkInterval) :
    (fileOf options env level number built minTime maxTime watermark).Describes built.sst :=
  ⟨h.numEntries, h.numTombstones, h.smallestKey, h.largestKey, h.numRangeTombstones,
    h.smallestRangeKey, h.largestRangeKey⟩

@[simp] theorem sstOf_writeNewSst {sst : Sst} (hn : f.fileNumber = db.nextFileNumber) :
    (db.writeNewSst sst).sstOf f = sst := by
  simp [sstOf, writeNewSst, hn]

theorem stored_writeNewSst {sst : Sst} (hn : f.fileNumber = db.nextFileNumber)
    (hs : sst.WellFormed) (hf : f.Describes sst) : (db.writeNewSst sst).Stored f where
  object := by
    rw [sstOf_writeNewSst hn]
    simp [writeNewSst, hn]
  wellFormed := by rwa [sstOf_writeNewSst hn]
  describes := by rwa [sstOf_writeNewSst hn]
  number := by
    rw [hn]
    exact Nat.lt_succ_self _

theorem Survives.number_lt (h : Tidy db) {l : ℕ} (hg : Survives db.version edit l g) :
    g.fileNumber < db.nextFileNumber :=
  (h.stored l g hg.1).number

theorem flush_built (m : Memtable)
    (hne : ¬ ((buildSst m.entries false m.rangeTombstones).numEntries = 0 ∧
      (buildSst m.entries false m.rangeTombstones).numRangeTombstones = 0)) :
    (buildSst m.entries false m.rangeTombstones).sst.WellFormed := by
  obtain ⟨hdesc, hsst⟩ := buildSst_spec m.entries m.rangeTombstones
  rw [hdesc.numEntries, hdesc.numRangeTombstones, length_eq_zero_iff,
    length_eq_zero_iff, not_and_or] at hne
  rw [hsst] at hne ⊢
  exact ⟨m.sorted, Span.tidy_unite _, hne⟩

theorem Tidy.flushMemtable (h : Tidy db) (m : Memtable) :
    Tidy (db.flushMemtable options env m) := by
  unfold Db.flushMemtable
  simp only
  split_ifs with hempty
  · exact h
  · have hdesc := (buildSst_spec m.entries m.rangeTombstones).1
    refine h.install (extends_writeNewSst _ _) rfl ?_ (by simp) ?_ ?_ ?_
    · intro f hf
      obtain rfl := mem_singleton.1 hf
      exact stored_writeNewSst rfl (flush_built m hempty) (fileOf_describes options env hdesc ..)
    · intro f hf l g hg
      obtain rfl := mem_singleton.1 hf
      exact Nat.ne_of_lt (hg.number_lt h)
    · intro f hf hl
      obtain rfl := mem_singleton.1 hf
      exact absurd rfl hl
    · intro f hf g hg hl
      obtain rfl := mem_singleton.1 hf
      exact absurd rfl hl

theorem Tidy.runOneFlush (h : Tidy db) : Tidy (db.runOneFlush options env) := by
  unfold Db.runOneFlush
  cases db.imm with
  | none => exact h
  | some m =>
    have hf := h.flushMemtable options env m
    exact ⟨fun l f hf' => ⟨(hf.1 l f hf').1, (hf.1 l f hf').2, (hf.1 l f hf').3, (hf.1 l f hf').4⟩,
      hf.2, hf.3, hf.4, hf.5, hf.6, hf.7⟩

theorem Tidy.reclaimDeadFiles (h : Tidy db) : Tidy db.reclaimDeadFiles := by
  unfold Db.reclaimDeadFiles
  simp only
  split_ifs
  · exact h
  · exact h.delete rfl

variable {file : FileMetadata}

theorem Tidy.replaceFile (h : Tidy db) (hfile : file ∈ db.version.filesAt file.level)
    (hlevel : file.level ≠ 0) {moved : ℕ → FileMetadata} (hnumber : ∀ n, (moved n).fileNumber = n)
    (hmoved : ∀ n, (moved n).level = file.level)
    (hdesc : ∀ n s, file.Describes s → (moved n).Describes s) :
    Tidy (db.replaceFile file moved) := by
  have hst := h.stored _ file hfile
  unfold Db.replaceFile
  rw [hst.object]
  simp only
  have hsst : (db.writeNewSst (db.sstOf file)).sstOf (moved db.nextFileNumber) = db.sstOf file :=
    sstOf_writeNewSst (hnumber _)
  refine h.install (extends_writeNewSst _ _) rfl ?_ (by simp) ?_ ?_ ?_
  · intro f hf
    obtain rfl := mem_singleton.1 hf
    exact stored_writeNewSst (hnumber _) hst.wellFormed (hdesc _ _ hst.describes)
  · intro f hf l g hg
    obtain rfl := mem_singleton.1 hf
    rw [hnumber]
    exact Nat.ne_of_lt (hg.number_lt h)
  · intro f hf hl g hg
    obtain rfl := mem_singleton.1 hf
    rw [hmoved] at hg
    have hne : file ≠ g := by
      rintro rfl
      exact hg.2 (by simp)
    have hgst := h.stored _ g hg.1
    have hap := h.apart _ hlevel file hfile g hg.1 hne
    unfold Apart at hap ⊢
    rwa [hsst, (extends_writeNewSst db _).sstOf hgst.number]
  · intro f hf g hg _ _ hne
    obtain rfl := mem_singleton.1 hf
    obtain rfl := mem_singleton.1 hg
    exact absurd rfl hne

theorem Tidy.runMigration (h : Tidy db) (hfile : file ∈ db.version.filesAt file.level)
    (hlevel : file.level ≠ 0) (target : Bytes) : Tidy (db.runMigration file target) := by
  unfold Db.runMigration
  split_ifs
  · exact h
  · exact h.replaceFile hfile hlevel (fun _ => rfl) (fun _ => rfl)
      fun _ _ hd => ⟨hd.1, hd.2, hd.3, hd.4, hd.5, hd.6, hd.7⟩

theorem Tidy.runReencryption (h : Tidy db) (hfile : file ∈ db.version.filesAt file.level)
    (hlevel : file.level ≠ 0) : Tidy (db.runReencryption env file) :=
  h.replaceFile hfile hlevel (fun _ => rfl) (fun _ => rfl)
    fun _ _ hd => ⟨hd.1, hd.2, hd.3, hd.4, hd.5, hd.6, hd.7⟩

end Db

/-! ### Compactions -/

/-- The span of `f` meets the hull of `files`: it reaches the smallest key of one and starts by the
largest key of one. -/
def MeetsHull (files : List FileMetadata) (f : FileMetadata) : Prop :=
  (∃ a ∈ files, a.effectiveSmallest ≤ f.effectiveLargest) ∧
    ∃ b ∈ files, f.effectiveSmallest ≤ b.effectiveLargest

instance (files : List FileMetadata) (f : FileMetadata) : Decidable (MeetsHull files f) :=
  inferInstanceAs (Decidable (_ ∧ _))

/-- The span of `f` lies on one side of the hull of `files`, or touches it. -/
def Beside (files : List FileMetadata) (f : FileMetadata) : Prop :=
  (∀ a ∈ files, f.effectiveLargest ≤ a.effectiveSmallest) ∨
    ∀ a ∈ files, a.effectiveLargest ≤ f.effectiveSmallest

instance (files : List FileMetadata) (f : FileMetadata) : Decidable (Beside files f) :=
  inferInstanceAs (Decidable (_ ∨ _))

/-- From a level to the next, closed under overlap. -/
structure Compaction.Closed (c : Compaction) (v : Version) : Prop where
  outputLevel : c.outputLevel = c.level + 1
  inputs : c.inputs.Sublist (v.filesAt c.level)
  overlaps : c.overlaps.Sublist (v.filesAt c.outputLevel)
  /-- with a level-0 file go all the older level-0 files its effective span overlaps -/
  older : c.level = 0 → ∀ f ∈ c.inputs, ∀ g ∈ v.filesAt 0, g.fileNumber < f.fileNumber →
    MeetsHull [f] g → g ∈ c.inputs
  /-- every file of the output level that overlaps the inputs is merged with them -/
  overlapping : ∀ g ∈ v.filesAt c.outputLevel, MeetsHull c.inputs g → g ∈ c.overlaps
  bottommost : c.outputIsBottommost = true → ∀ level > c.outputLevel, ∀ g ∈ v.filesAt level,
    ¬ MeetsHull c.allInputs g
  trivialMove : c.trivialMove = true → ∃ f ∈ c.inputs, c.inputs = [f] ∧ c.overlaps = [] ∧
    (c.outputIsBottommost = true → f.numTombstones = 0 ∧ f.numRangeTombstones = 0)

/-- No file that stays at the output level lies between the files merged. -/
structure Compaction.Admissible (c : Compaction) (v : Version) : Prop extends c.Closed v where
  beside : ∀ g ∈ v.filesAt c.outputLevel, g ∉ c.overlaps → Beside c.allInputs g

theorem Compaction.closed_iff (c : Compaction) (v : Version) :
    c.Closed v ↔ c.outputLevel = c.level + 1 ∧ c.inputs.Sublist (v.filesAt c.level) ∧
      c.overlaps.Sublist (v.filesAt c.outputLevel) ∧
      (c.level = 0 → ∀ f ∈ c.inputs, ∀ g ∈ v.filesAt 0, g.fileNumber < f.fileNumber →
        MeetsHull [f] g → g ∈ c.inputs) ∧
      (∀ g ∈ v.filesAt c.outputLevel, MeetsHull c.inputs g → g ∈ c.overlaps) ∧
      (c.outputIsBottommost = true → ∀ level ∈ List.range v.numLevels, level > c.outputLevel →
        ∀ g ∈ v.filesAt level, ¬ MeetsHull c.allInputs g) ∧
      (c.trivialMove = true → ∃ f ∈ c.inputs, c.inputs = [f] ∧ c.overlaps = [] ∧
        (c.outputIsBottommost = true → f.numTombstones = 0 ∧ f.numRangeTombstones = 0)) := by
  constructor
  · intro h
    exact ⟨h.outputLevel, h.inputs, h.overlaps, h.older, h.overlapping,
      fun hb level _ => h.bottommost hb level, h.trivialMove⟩
  · rintro ⟨h1, h2, h3, h4, h5, h6, h7⟩
    refine ⟨h1, h2, h3, h4, h5, fun hb level hlevel g hg => ?_, h7⟩
    refine h6 hb level (mem_range.2 ?_) hlevel g hg
    by_contra hge
    have hnone : v.levels[level]? = none := List.getElem?_eq_none (not_lt.1 hge)
    simp [Version.filesAt, hnone] at hg

set_option synthInstance.maxSize 512 in
instance (c : Compaction) (v : Version) : Decidable (c.Closed v) :=
  decidable_of_iff' _ (c.closed_iff v)

instance (c : Compaction) (v : Version) : Decidable (c.Admissible v) :=
  decidable_of_iff (c.Closed v ∧ ∀ g ∈ v.filesAt c.outputLevel, g ∉ c.overlaps →
    Beside c.allInputs g) ⟨fun h => ⟨h.1, h.2⟩, fun h => ⟨h.toClosed, h.beside⟩⟩

theorem Sst.WellFormed.cell_nonempty {s : Sst} (hs : s.WellFormed) {c : Span Edge}
    (hc : c ∈ s.cells) : c.lower < c.upper := by
  rcases Sst.mem_cells.1 hc with ⟨e, -, rfl⟩ | ⟨r, hr, rfl⟩
  · exact atKey_lt_aboveKey.2 le_rfl
  · exact atKey_lt_atKey.2 (hs.tidy.nonempty r hr)

namespace FileMetadata.Describes

theorem effective_le {f : FileMetadata} {s : Sst} (h : f.Describes s) (hs : s.WellFormed) :
    f.effectiveSmallest ≤ f.effectiveLargest := by
  obtain ⟨c, hc, hlow⟩ := h.exists_smallest hs
  have hne := hs.cell_nonempty hc
  rw [hlow] at hne
  exact atKey_lt_aboveKey.1 (hne.trans_le (h.le_largest hs hc))

theorem effectiveSmallest_lt_of_before {f g : FileMetadata} {s t : Sst} (hf : f.Describes s)
    (hs : s.WellFormed) (hg : g.Describes t) (ht : t.WellFormed)
    (h : Span.Before s.cells t.cells) : f.effectiveSmallest < g.effectiveSmallest := by
  obtain ⟨c, hc, hclow⟩ := hf.exists_smallest hs
  obtain ⟨d, hd, hdlow⟩ := hg.exists_smallest ht
  have hlt := (hs.cell_nonempty hc).trans_le (h c hc d hd)
  rw [hclow, hdlow] at hlt
  exact atKey_lt_atKey.1 hlt

end FileMetadata.Describes

namespace Db

variable {db : Db} {c : Compaction}

variable {f : FileMetadata}

theorem mem_allInputs (hc : c.Admissible db.version) (hf : f ∈ c.allInputs) :
    ∃ level, f ∈ db.version.filesAt level := by
  rcases mem_append.1 hf with hf | hf
  · exact ⟨_, hc.inputs.subset hf⟩
  · exact ⟨_, hc.overlaps.subset hf⟩

theorem Tidy.stored_input (h : Tidy db) (hc : c.Admissible db.version) (hf : f ∈ c.allInputs) :
    db.Stored f := by
  obtain ⟨level, hlevel⟩ := mem_allInputs hc hf
  exact h.stored level f hlevel

theorem sourcesOf_stored {files : List FileMetadata} (h : ∀ f ∈ files, db.Stored f) :
    db.sourcesOf files = some (files.map db.sstOf) := by
  unfold Db.sourcesOf
  induction files with
  | nil => rfl
  | cons f files ih =>
    rw [mapM_cons, (h f (by simp)).object, ih fun g hg => h g (by simp [hg])]
    rfl

theorem Tidy.sourcesOf (h : Tidy db) (hc : c.Admissible db.version) :
    db.sourcesOf c.allInputs = some (c.allInputs.map db.sstOf) :=
  sourcesOf_stored fun _ hf => h.stored_input hc hf

theorem Tidy.ordered_sources (h : Tidy db) (hc : c.Admissible db.version) :
    MergingIterator.Ordered (c.allInputs.map db.sstOf) := by
  intro s hs
  obtain ⟨f, hf, rfl⟩ := mem_map.1 hs
  exact ⟨(h.stored_input hc hf).wellFormed.sorted, (h.stored_input hc hf).wellFormed.tidy⟩

theorem Apart.before_of_le {g : FileMetadata} (hfg : db.Apart f g) (hf : db.Stored f)
    (hg : db.Stored g) (hle : f.effectiveLargest ≤ g.effectiveSmallest) :
    Span.Before (db.sstOf f).cells (db.sstOf g).cells := by
  rcases hfg with hb | hb
  · exact hb
  · have h1 := hg.describes.effectiveSmallest_lt_of_before hg.wellFormed hf.describes
      hf.wellFormed hb
    have h2 := hf.describes.effective_le hf.wellFormed
    exact absurd h1 (not_lt.2 (h2.trans hle))

theorem Tidy.beside_compaction (h : Tidy db) (hc : c.Admissible db.version) {g : FileMetadata}
    (hg : g ∈ db.version.filesAt c.outputLevel) (hnot : g ∉ c.overlaps) :
    (∀ f ∈ c.allInputs, Span.Before (db.sstOf g).cells (db.sstOf f).cells) ∨
      ∀ f ∈ c.allInputs, Span.Before (db.sstOf f).cells (db.sstOf g).cells := by
  have hgs := h.stored _ g hg
  have hlevel : c.outputLevel ≠ 0 := by
    rw [hc.outputLevel]
    omega
  have hapart : ∀ f ∈ c.allInputs, db.Apart g f := by
    intro f hf
    have hfs := h.stored_input hc hf
    rcases mem_append.1 hf with hin | hov
    · -- the inputs are of another level, but `g` does not meet their hull
      have hno : ¬ MeetsHull c.inputs g := fun hm => hnot (hc.overlapping g hg hm)
      rcases not_and_or.1 hno with hlow | hhigh
      · push Not at hlow
        exact .inl (hgs.describes.before_of_lt hgs.wellFormed hfs.describes hfs.wellFormed
          (hlow f hin))
      · push Not at hhigh
        exact .inr (hfs.describes.before_of_lt hfs.wellFormed hgs.describes hgs.wellFormed
          (hhigh f hin))
    · refine h.apart _ hlevel g hg f (hc.overlaps.subset hov) ?_
      rintro rfl
      exact hnot hov
  refine (hc.beside g hg hnot).imp (fun hle f hf => ?_) fun hle f hf => ?_
  · exact (hapart f hf).before_of_le hgs (h.stored_input hc hf) (hle f hf)
  · exact (hapart f hf).symm.before_of_le (h.stored_input hc hf) hgs (hle f hf)

/-- The outputs as files under fresh numbers, in the order built. -/
structure Named (db db₁ : Db) (level : ℕ) (built : List SstBuildResult)
    (outs : List FileMetadata) : Prop where
  extends_ : Extends db db₁
  version : db₁.version = db.version
  stored : ∀ f ∈ outs, db₁.Stored f ∧ f.level = level ∧ db.nextFileNumber ≤ f.fileNumber
  numbers : outs.Pairwise fun f g => f.fileNumber < g.fileNumber
  contents : outs.map db₁.sstOf = built.map SstBuildResult.sst

theorem named_outputs (options : Options) (env : WriteEnv) (c : Compaction)
    (built : List SstBuildResult) : ∀ (db : Db), (∀ b ∈ built, b.Describes ∧ b.sst.WellFormed) →
    Named db (built.foldl (fun db b => db.writeNewSst b.sst) db) c.outputLevel built
      (nameOutputs options env c db.nextFileNumber built) := by
  induction built with
  | nil => exact fun db _ => ⟨.refl db, rfl, by simp [nameOutputs], List.Pairwise.nil, rfl⟩
  | cons b rest ih =>
    intro db hb
    obtain ⟨hbd, hbw⟩ := hb b (by simp)
    have hrest := ih (db.writeNewSst b.sst) fun b' hb' => hb b' (by simp [hb'])
    have hext := (extends_writeNewSst db b.sst).trans hrest.extends_
    simp only [foldl_cons, nameOutputs]
    set file := fileOf options env c.outputLevel db.nextFileNumber b c.minWriteTimeMs
      c.maxWriteTimeMs c.watermark with hfile
    have hst : (db.writeNewSst b.sst).Stored file :=
      stored_writeNewSst rfl hbw (fileOf_describes options env hbd ..)
    refine ⟨hext, hrest.version, ?_, ?_, ?_⟩
    · intro f hf
      rcases mem_cons.1 hf with rfl | hf
      · exact ⟨hst.extend hrest.extends_, rfl, le_rfl⟩
      · obtain ⟨h1, h2, h3⟩ := hrest.stored f hf
        exact ⟨h1, h2, (Nat.le_succ _).trans h3⟩
    · refine pairwise_cons.2 ⟨fun g hg => ?_, hrest.numbers⟩
      exact Nat.lt_of_lt_of_le (Nat.lt_succ_self _) (hrest.stored g hg).2.2
    · rw [map_cons, map_cons, ← hrest.contents, hrest.extends_.sstOf hst.number,
        sstOf_writeNewSst rfl]
      rfl

theorem Tidy.trivialMove (h : Tidy db) (hc : c.Admissible db.version) (hinputs : c.inputs = [f])
    (hoverlaps : c.overlaps = []) {edit : VersionEdit}
    (hdeleted : edit.deleted = [⟨c.level, f.fileNumber⟩])
    (hadded : edit.added = [{ f with level := c.outputLevel }]) : Tidy (db.applyEdit edit) := by
  have hmem : f ∈ db.version.filesAt c.level := hc.inputs.subset (by simp [hinputs])
  have hst := h.stored _ f hmem
  refine h.install (.refl db) rfl ?_ (by simp [hadded]) ?_ ?_ ?_
  · intro g hg
    rw [hadded] at hg
    obtain rfl := mem_singleton.1 hg
    exact ⟨hst.object, hst.wellFormed, ⟨hst.describes.1, hst.describes.2, hst.describes.3,
      hst.describes.4, hst.describes.5, hst.describes.6, hst.describes.7⟩, hst.number⟩
  · intro f' hf' l g hg hnum
    rw [hadded] at hf'
    obtain rfl := mem_singleton.1 hf'
    obtain rfl := h.unique l c.level g hg.1 f hmem hnum
    obtain rfl : l = c.level :=
      (h.levelOf l g hg.1).symm.trans (h.levelOf c.level g hmem)
    exact hg.2 (by simp [hdeleted])
  · intro f' hf' _ g hg
    rw [hadded] at hf'
    obtain rfl := mem_singleton.1 hf'
    have hside := h.beside_compaction hc hg.1 (by simp [hoverlaps])
    have hin : f ∈ c.allInputs := by simp [Compaction.allInputs, hinputs]
    exact hside.elim (fun hb => .inr (hb f hin)) fun hb => .inl (hb f hin)
  · intro f' hf' g hg _ _ hne
    rw [hadded] at hf' hg
    obtain rfl := mem_singleton.1 hf'
    obtain rfl := mem_singleton.1 hg
    exact absurd rfl hne

theorem Tidy.merge (h : Tidy db) (hc : c.Admissible db.version) (options : Options)
    {db₁ : Db} {outs : List FileMetadata}
    (hnamed : Named db db₁ c.outputLevel
      (c.writeCompactionOutputs options db.version.truncationPoint (c.allInputs.map db.sstOf)) outs)
    {edit : VersionEdit}
    (hdeleted : edit.deleted = c.inputs.map (fun f => ⟨c.level, f.fileNumber⟩) ++
      c.overlaps.map fun f => ⟨c.outputLevel, f.fileNumber⟩)
    (hadded : edit.added = outs) : Tidy (db₁.applyEdit edit) := by
  have hord := h.ordered_sources hc
  have hbuilt : ∀ f ∈ outs, ∃ o ∈ c.writeCompactionOutputs options db.version.truncationPoint
      (c.allInputs.map db.sstOf), db₁.sstOf f = o.sst := by
    intro f hf
    have : db₁.sstOf f ∈ outs.map db₁.sstOf := mem_map_of_mem hf
    rw [hnamed.contents] at this
    obtain ⟨o, ho, heq⟩ := mem_map.1 this
    exact ⟨o, ho, heq.symm⟩
  refine h.install hnamed.extends_ hnamed.version ?_ ?_ ?_ ?_ ?_
  · rw [hadded]
    exact fun f hf => (hnamed.stored f hf).1
  · rw [hadded, List.Nodup, pairwise_map]
    exact hnamed.numbers.imp Nat.ne_of_lt
  · intro f hf l g hg
    rw [hadded] at hf
    exact Nat.ne_of_lt ((hg.number_lt h).trans_le (hnamed.stored f hf).2.2)
  · intro f hf _ g hg
    rw [hadded] at hf
    rw [(hnamed.stored f hf).2.1] at hg
    have hnot : g ∉ c.overlaps := fun ho => hg.2 (by
      rw [hdeleted]
      exact mem_append_right _ (mem_map.2 ⟨g, ho, rfl⟩))
    obtain ⟨o, ho, hfo⟩ := hbuilt f hf
    have hgst := h.stored _ g hg.1
    unfold Apart
    rw [hfo, hnamed.extends_.sstOf hgst.number]
    have hwithin := fun {x : Span Edge} (hx : x ∈ o.sst.cells) =>
      Compaction.outputs_within_sources c options db.version.truncationPoint hord ho hx
    rcases h.beside_compaction hc hg.1 hnot with hb | hb
    · right
      intro x hx y hy
      obtain ⟨⟨s, hs, d, hd, hle⟩, -⟩ := hwithin hy
      obtain ⟨a, ha, rfl⟩ := mem_map.1 hs
      exact (hb a ha x hx d hd).trans hle
    · left
      intro x hx y hy
      obtain ⟨-, s, hs, d, hd, hle⟩ := hwithin hx
      obtain ⟨a, ha, rfl⟩ := mem_map.1 hs
      exact hle.trans (hb a ha d hd y hy)
  · intro f hf g hg _ _ hne
    rw [hadded] at hf hg
    have hbefore := (Compaction.tiles_writeCompactionOutputs c options
      db.version.truncationPoint hord).before
    have hcontents : (outs.map db₁.sstOf).Pairwise fun s t => Span.Before s.cells t.cells := by
      rw [hnamed.contents, pairwise_map]
      exact hbefore
    have hsymm : outs.Pairwise db₁.Apart := (pairwise_map.1 hcontents).imp .inl
    have : Std.Symm db₁.Apart := ⟨fun _ _ => Apart.symm⟩
    exact hsymm.forall hf hg hne

theorem Tidy.runCompaction (options : Options) (env : WriteEnv) (h : Tidy db)
    (hc : c.Admissible db.version) :
    Tidy (db.runCompaction options env c) := by
  unfold Db.runCompaction
  simp only
  cases htrivial : c.trivialMove with
  | true =>
    obtain ⟨f, -, hinputs, hoverlaps, -⟩ := hc.trivialMove htrivial
    rw [if_pos rfl, hinputs]
    exact h.trivialMove hc hinputs hoverlaps rfl rfl
  | false =>
    rw [if_neg (by simp), h.sourcesOf hc]
    have hclosed := (Compaction.tiles_writeCompactionOutputs c options
      db.version.truncationPoint (h.ordered_sources hc)).closed
    exact h.merge hc options (named_outputs options env c _ db hclosed) rfl rfl

end Db

end ElysiumKV
