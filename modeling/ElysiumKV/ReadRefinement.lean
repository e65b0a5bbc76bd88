import ElysiumKV.Reads

/-!
# What readers see of flushes, maintenance and compactions

Every structural step keeps what the store tells about keys not truncated, up to whether an absent
key is absent or deleted (`valueOf`).
-/

namespace ElysiumKV

open List Newest

namespace Db

variable {db : Db}

/-- The value found, if any. -/
def valueOf (x : Option Found) : Option Value := x.bind Found.value?

/-- The reply to a lookup of a key with `value`. -/
def replyOf : Option Value → Except Status Value
  | some value => .ok value
  | none => .error .notFound

theorem lookupResult_eq (x : Option Found) : lookupResult x = replyOf (valueOf x) := by
  rcases x with _ | _ | _ <;> rfl

/-! ### Searching the levels -/

variable {k : Key} {level : ℕ}

theorem levelAnswer_of_numLevels_le (h : db.version.numLevels ≤ level) :
    db.levelAnswer k level = none := by
  have : db.version.filesAt level = [] := by
    simp [Version.filesAt, List.getElem?_eq_none (show db.version.levels.length ≤ level from h)]
  simp [levelAnswer, sstsAt, this]

variable {n : ℕ}

theorem fileAnswer_eq_range (db : Db) (h : db.version.numLevels ≤ n) (k : Key) :
    db.fileAnswer k = (List.range n).findSome? (db.levelAnswer k) := by
  obtain ⟨m, rfl⟩ := Nat.exists_eq_add_of_le h
  have hnone : ((List.range m).map (db.version.numLevels + ·)).findSome? (db.levelAnswer k) =
      none := by
    refine List.findSome?_eq_none_iff.2 fun level hlevel => ?_
    obtain ⟨i, -, rfl⟩ := mem_map.1 hlevel
    exact levelAnswer_of_numLevels_le (Nat.le_add_right _ _)
  rw [range_add, List.findSome?_append, hnone, Option.or_none, fileAnswer]

variable {db' : Db}

theorem fileAnswer_congr (h : ∀ level, db'.levelAnswer k level = db.levelAnswer k level) :
    db'.fileAnswer k = db.fileAnswer k := by
  rw [db'.fileAnswer_eq_range (le_max_left _ db.version.numLevels),
    db.fileAnswer_eq_range (le_max_right db'.version.numLevels _)]
  exact findSome?_congr fun level _ => h level

theorem fileAnswer_eq_block (db : Db) (k : Key) (level : ℕ) :
    ∃ m, ∀ n, m ≤ n → db.fileAnswer k =
      ((List.range level).findSome? (db.levelAnswer k)).or
        (((db.levelAnswer k level).or (db.levelAnswer k (level + 1))).or
          ((List.range n).findSome? fun i => db.levelAnswer k (level + 2 + i))) := by
  refine ⟨db.version.numLevels, fun n hn => ?_⟩
  rw [db.fileAnswer_eq_range (n := level + 2 + n) (by omega), range_add, range_succ,
    range_succ, List.findSome?_append, List.findSome?_append, List.findSome?_append,
    List.findSome?_map]
  simp only [List.findSome?_cons, List.findSome?_nil, Option.or_assoc]
  cases db.levelAnswer k level <;> cases db.levelAnswer k (level + 1) <;> rfl

/-- Two adjacent levels are rewritten: their answer is kept, or a deletion that nothing deeper
contradicts turns silent. -/
theorem valueOf_fileAnswer_of_block
    (hrest : ∀ i, i ≠ level → i ≠ level + 1 → db'.levelAnswer k i = db.levelAnswer k i)
    (hblock : (db'.levelAnswer k level).or (db'.levelAnswer k (level + 1)) =
        (db.levelAnswer k level).or (db.levelAnswer k (level + 1)) ∨
      (db'.levelAnswer k level).or (db'.levelAnswer k (level + 1)) = none ∧
        (db.levelAnswer k level).or (db.levelAnswer k (level + 1)) = some .gone ∧
        ∀ i > level + 1, db.levelAnswer k i = none) :
    valueOf (db'.fileAnswer k) = valueOf (db.fileAnswer k) := by
  obtain ⟨m, hm⟩ := fileAnswer_eq_block db k level
  obtain ⟨m', hm'⟩ := fileAnswer_eq_block db' k level
  rw [hm _ (le_max_left m m'), hm' _ (le_max_right m m')]
  have hupper : (List.range level).findSome? (db'.levelAnswer k) =
      (List.range level).findSome? (db.levelAnswer k) := by
    refine findSome?_congr fun i hi => ?_
    have := mem_range.1 hi
    exact hrest i (by omega) (by omega)
  have hlower : ((List.range (max m m')).findSome? fun i => db'.levelAnswer k (level + 2 + i)) =
      (List.range (max m m')).findSome? fun i => db.levelAnswer k (level + 2 + i) :=
    findSome?_congr fun i _ => hrest _ (by omega) (by omega)
  rw [hupper, hlower]
  rcases hblock with hsame | ⟨hnone, hgone, hdeep⟩
  · rw [hsame]
  · have hsilent : ((List.range (max m m')).findSome? fun i => db.levelAnswer k (level + 2 + i)) =
        none := List.findSome?_eq_none_iff.2 fun i _ => hdeep _ (by omega)
    rw [hnone, hgone, hsilent]
    cases (List.range level).findSome? (db.levelAnswer k) <;> rfl

/-! ### Levels an edit leaves alone -/

theorem Tidy.sortLevel_filter (h : Tidy db) (level : ℕ) (p : FileMetadata → Bool) :
    sortLevel level ((db.version.filesAt level).filter p) = (db.version.filesAt level).filter p := by
  unfold sortLevel
  split_ifs with hl
  · subst hl
    exact (h.newest.filter p).insertionSort_eq
  · exact ((h.keyOrder level hl).filter p).insertionSort_eq

variable {db₁ : Db} {edit : VersionEdit}

theorem Tidy.filesAt_applyEdit (h : Tidy db) (hversion : db₁.version = db.version)
    (hadded : ∀ f ∈ edit.added, f.level ≠ level) :
    (db₁.applyEdit edit).version.filesAt level =
      (db.version.filesAt level).filter fun f =>
        (⟨level, f.fileNumber⟩ : FileRef) ∉ edit.deleted := by
  have hnone : (edit.added.filter fun f => f.level = level) = [] := by
    simpa [filter_eq_nil_iff] using hadded
  simp only [applyEdit, Version.filesAt_apply, hversion, hnone, append_nil]
  exact h.sortLevel_filter level _

theorem Tidy.levelAnswer_applyEdit (h : Tidy db) (hext : Extends db db₁)
    (hversion : db₁.version = db.version) (hadded : ∀ f ∈ edit.added, f.level ≠ level)
    (hdeleted : ∀ r ∈ edit.deleted, r.level ≠ level) (k : Key) :
    (db₁.applyEdit edit).levelAnswer k level = db.levelAnswer k level := by
  have hfiles : (db₁.applyEdit edit).version.filesAt level = db.version.filesAt level := by
    rw [h.filesAt_applyEdit hversion hadded, filter_eq_self]
    intro f _
    simpa using fun hmem => hdeleted _ hmem rfl
  rw [levelAnswer_eq_findSome?, levelAnswer_eq_findSome?, hfiles]
  refine findSome?_congr fun f hf => ?_
  exact congrArg (fun s : Sst => s.tells k) (hext.sstOf (h.stored level f hf).number)

/-! ### Flushes -/

variable {f : FileMetadata}

theorem Tidy.filesAt_zero_flush (h : Tidy db) (hversion : db₁.version = db.version)
    (hlevel : f.level = 0) (hnumber : f.fileNumber = db.nextFileNumber) :
    (db₁.applyEdit { added := [f] }).version.filesAt 0 = f :: db.version.filesAt 0 := by
  have hlt : ∀ g ∈ db.version.filesAt 0, g.fileNumber < f.fileNumber := by
    intro g hg
    rw [hnumber]
    exact (h.stored 0 g hg).number
  have hpair : (f :: db.version.filesAt 0).Pairwise NewerFirst :=
    pairwise_cons.2 ⟨fun g hg => (hlt g hg).le, h.newest⟩
  have hall : (db.version.filesAt 0).filter
      (fun f => (⟨0, f.fileNumber⟩ : FileRef) ∉ ([] : List FileRef)) = db.version.filesAt 0 := by
    simp
  simp only [applyEdit, Version.filesAt_apply, hversion, hall]
  have hone : ([f].filter fun f => f.level = 0) = [f] := by simp [hlevel]
  rw [hone]
  refine List.Perm.eq_of_pairwise ?_ (pairwise_sortLevel_zero _) hpair
    ((sortLevel_perm _ _).trans perm_append_comm)
  intro a b ha hb hab hba
  have hnum : a.fileNumber = b.fileNumber := le_antisymm hba hab
  have ha' : a ∈ db.version.filesAt 0 ∨ a = f := by simpa using ha
  rcases ha' with ha' | rfl <;> rcases mem_cons.1 hb with rfl | hb'
  · exact absurd hnum (Nat.ne_of_lt (hlt a ha'))
  · exact h.unique 0 0 a ha' b hb' hnum
  · rfl
  · exact absurd hnum.symm (Nat.ne_of_lt (hlt b hb'))

theorem Tidy.fileAnswer_flushMemtable (options : Options) (env : WriteEnv) (h : Tidy db)
    (m : Memtable) (k : Key) :
    (db.flushMemtable options env m).fileAnswer k = (m.tells k).or (db.fileAnswer k) := by
  obtain ⟨hdesc, hsst⟩ := buildSst_spec m.entries m.rangeTombstones
  have htells : (buildSst m.entries false m.rangeTombstones).sst.tells k = m.tells k := by
    rw [hsst]
    exact tells_congr rfl (Span.covered_unite _ _)
  unfold Db.flushMemtable
  simp only
  split_ifs with hempty
  · -- an empty memtable writes no file and tells nothing
    have hnone : m.tells k = none := by
      rw [← htells, hsst]
      rw [hdesc.numEntries, hdesc.numRangeTombstones, length_eq_zero_iff,
        length_eq_zero_iff, hsst] at hempty
      simp only at hempty
      simp [Sst.tells, tells, hempty.1, hempty.2]
    rw [hnone, Option.none_or]
  · set file := fileOf options env 0 db.nextFileNumber
      (buildSst m.entries false m.rangeTombstones) m.creationTimeMs m.sealedTimeMs m.watermark
    set db₁ := db.writeNewSst (buildSst m.entries false m.rangeTombstones).sst with hdb₁
    have hext : Extends db db₁ := extends_writeNewSst _ _
    have hzero : (db₁.applyEdit { added := [file] }).levelAnswer k 0 =
        (m.tells k).or (db.levelAnswer k 0) := by
      have hfiles : (db₁.applyEdit { added := [file] }).version.filesAt 0 =
          file :: db.version.filesAt 0 := h.filesAt_zero_flush rfl rfl rfl
      unfold levelAnswer sstsAt
      rw [hfiles, map_cons, List.findSome?_cons]
      have hnew : (db₁.applyEdit { added := [file] }).sstOf file =
          (buildSst m.entries false m.rangeTombstones).sst := sstOf_writeNewSst rfl
      rw [hnew, htells]
      have hold : ((db.version.filesAt 0).map (db₁.applyEdit { added := [file] }).sstOf) =
          (db.version.filesAt 0).map db.sstOf :=
        map_congr_left fun f hf => hext.sstOf (h.stored 0 f hf).number
      rw [hold]
      cases m.tells k <;> rfl
    have hrest : ∀ level, level ≠ 0 →
        (db₁.applyEdit { added := [file] }).levelAnswer k level = db.levelAnswer k level := by
      intro level hl
      refine h.levelAnswer_applyEdit hext rfl ?_ (by simp) k
      intro f hf
      obtain rfl := mem_singleton.1 hf
      exact fun h0 => hl h0.symm
    set db' := db₁.applyEdit { added := [file] }
    rw [db'.fileAnswer_eq_range (n := 1 + (max db'.version.numLevels db.version.numLevels))
        (by omega),
      db.fileAnswer_eq_range (n := 1 + (max db'.version.numLevels db.version.numLevels))
        (by omega), range_add, List.findSome?_append, List.findSome?_append,
      List.findSome?_map, List.findSome?_map]
    have hdeep : (List.range (max db'.version.numLevels db.version.numLevels)).findSome?
        (db'.levelAnswer k ∘ (1 + ·)) =
        (List.range (max db'.version.numLevels db.version.numLevels)).findSome?
          (db.levelAnswer k ∘ (1 + ·)) :=
      findSome?_congr fun i _ => hrest (1 + i) (by omega)
    rw [hdeep]
    simp only [range_one, List.findSome?_cons, List.findSome?_nil, hzero]
    cases m.tells k <;> cases db.levelAnswer k 0 <;> rfl

/-! ### Levels below level 0 -/

theorem Tidy.tells_agree (h : Tidy db) (hl : level ≠ 0) {g : FileMetadata}
    (hf : f ∈ db.version.filesAt level) (hg : g ∈ db.version.filesAt level)
    (hfk : (db.sstOf f).tells k ≠ none) (hgk : (db.sstOf g).tells k ≠ none) : f = g := by
  by_contra hne
  rcases h.apart level hl f hf g hg hne with hb | hb
  · exact (Sst.tells_of_before hb k).elim hfk hgk
  · exact (Sst.tells_of_before hb k).elim hgk hfk

theorem Tidy.levelAnswer_eq (h : Tidy db) (hl : level ≠ 0) (k : Key) {files : List FileMetadata}
    (hmem : ∀ f, f ∈ files ↔ f ∈ db.version.filesAt level) :
    db.levelAnswer k level = files.findSome? fun f => (db.sstOf f).tells k := by
  rw [levelAnswer_eq_findSome?]
  refine findSome?_congr_of_agree (fun f => (db.sstOf f).tells k) ?_ ?_ ?_
  · exact fun f hf _ => ⟨f, (hmem f).2 hf, rfl⟩
  · exact fun f hf _ => ⟨f, (hmem f).1 hf, rfl⟩
  · intro f hf g hg hfk hgk
    rw [h.tells_agree hl hf hg hfk hgk]

/-! ### Reclaiming dead files -/

/-- The files of the first `n` levels as a lookup asks them. -/
def walk (v : Version) (n : ℕ) : List FileMetadata := (List.range n).flatMap v.filesAt

theorem fileAnswer_eq_walk (db : Db) (hn : db.version.numLevels ≤ n) (k : Key) :
    db.fileAnswer k = (walk db.version n).findSome? fun f => (db.sstOf f).tells k := by
  rw [db.fileAnswer_eq_range hn, walk, findSome?_flatMap]
  exact findSome?_congr fun level _ => db.levelAnswer_eq_findSome? k level

variable {v : Version}

theorem mem_walk (h : f ∈ walk v n) : ∃ level, f ∈ v.filesAt level := by
  obtain ⟨level, -, hf⟩ := mem_flatMap.1 h
  exact ⟨level, hf⟩

theorem mem_walk_of_mem (hn : v.numLevels ≤ n) (hf : f ∈ v.filesAt level) : f ∈ walk v n := by
  refine mem_flatMap.2 ⟨level, mem_range.2 ?_, hf⟩
  by_contra hge
  have hnone : v.levels[level]? = none := List.getElem?_eq_none (hn.trans (not_lt.1 hge))
  simp [Version.filesAt, hnone] at hf

/-- Down the levels, and at level 0 from newer to older. -/
def Descends (f g : FileMetadata) : Prop :=
  f.level < g.level ∨ f.level = g.level ∧ (f.level = 0 → g.fileNumber ≤ f.fileNumber)

theorem Tidy.descends_walk (h : Tidy db) (n : ℕ) : (walk db.version n).Pairwise Descends := by
  refine pairwise_flatMap.2 ⟨fun level _ => ?_, ?_⟩
  · rcases Nat.eq_zero_or_pos level with rfl | hpos
    · refine h.newest.imp_of_mem fun {f g} hf hg hfg => .inr ⟨?_, fun _ => hfg⟩
      rw [h.levelOf 0 f hf, h.levelOf 0 g hg]
    · refine pairwise_of_forall_mem_list fun f hf g hg => .inr ⟨?_, fun h0 => ?_⟩
      · rw [h.levelOf level f hf, h.levelOf level g hg]
      · rw [h.levelOf level f hf] at h0
        omega
  · refine pairwise_lt_range.imp fun {l m} hlm f hf g hg => .inl ?_
    rwa [h.levelOf l f hf, h.levelOf m g hg]

variable {candidate : Version.RangeDropCandidate}

theorem Stored.exists_range_of_confirms (hcover : db.Stored candidate.cover)
    (hexact : candidate.exact = true → candidate.cover.numRangeTombstones = 1)
    (hhull : candidate.cover.smallestRangeKey ≤ candidate.file.smallestKey ∧
      candidate.file.largestKey < candidate.cover.largestRangeKey)
    (hconfirm : db.confirmsDrop candidate = true) :
    ∃ r ∈ (db.sstOf candidate.cover).ranges,
      r.lower ≤ candidate.file.smallestKey ∧ candidate.file.largestKey < r.upper := by
  unfold confirmsDrop at hconfirm
  rw [hcover.object, Bool.or_eq_true] at hconfirm
  rcases hconfirm with hex | hany
  · -- the hull of a single range is the range
    have hone := hexact hex
    rw [hcover.describes.numRangeTombstones, length_eq_one_iff] at hone
    obtain ⟨r, hr⟩ := hone
    rw [hcover.describes.smallestRangeKey, hcover.describes.largestRangeKey,
      Sst.smallestRangeKey, Sst.largestRangeKey, hr] at hhull
    exact ⟨r, by simp [hr], hhull⟩
  · simpa using hany

theorem mem_rangeDropCandidates (h : candidate ∈ v.rangeDropCandidates) :
    (candidate.file ∈ v.allFiles ∧ candidate.cover ∈ v.allFiles) ∧
      candidate.file.numRangeTombstones = 0 ∧
      (candidate.exact = true → candidate.cover.numRangeTombstones = 1) ∧
      Version.mayCoverFile candidate.cover candidate.file = true := by
  unfold Version.rangeDropCandidates at h
  simp only [mem_filterMap] at h
  obtain ⟨file, hfile, h⟩ := h
  split_ifs at h with hranges hentries
  obtain ⟨cover, hcover, rfl⟩ := Option.map_eq_some_iff.1 h
  have hmem := mem_of_find?_eq_some hcover
  have hcovers := List.find?_some hcover
  exact ⟨⟨hfile, (mem_filter.1 hmem).1⟩, by simpa using hranges, by simp, hcovers⟩

theorem Tidy.shadowed_of_confirms (h : Tidy db)
    (hmem : candidate ∈ db.version.rangeDropCandidates)
    (hconfirm : db.confirmsDrop candidate = true)
    (htells : (db.sstOf candidate.file).tells k ≠ none) (hn : db.version.numLevels ≤ n)
    {pre post : List FileMetadata} (hwalk : walk db.version n = pre ++ candidate.file :: post) :
    ∃ g ∈ pre, (db.sstOf g).tells k ≠ none := by
  obtain ⟨⟨hfile, hcover⟩, hranges, hexact, hmay⟩ := mem_rangeDropCandidates hmem
  obtain ⟨lf, hlf⟩ := Version.mem_allFiles.1 hfile
  obtain ⟨lc, hlc⟩ := Version.mem_allFiles.1 hcover
  have hfs := h.stored lf _ hlf
  have hcs := h.stored lc _ hlc
  simp only [Version.mayCoverFile, Bool.and_eq_true, Bool.or_eq_true, decide_eq_true_eq] at hmay
  obtain ⟨r, hr, hlow, hhigh⟩ := hcs.exists_range_of_confirms hexact hmay.2 hconfirm
  have hwithin := hfs.describes.within_of_tells hfs.wellFormed htells
  rw [FileMetadata.effectiveSmallest, FileMetadata.effectiveLargest, if_pos hranges,
    if_pos hranges] at hwithin
  have hspeaks : (db.sstOf candidate.cover).tells k ≠ none := by
    rw [Sst.tells_ne_none_iff]
    exact covered_cells.2 (.inr ⟨r, hr, hlow.trans hwithin.1, hwithin.2.trans_lt hhigh⟩)
  refine ⟨candidate.cover, ?_, hspeaks⟩
  -- the cover is asked: before the file, since it is newer
  have hin : candidate.cover ∈ pre ++ candidate.file :: post := by
    rw [← hwalk]
    exact mem_walk_of_mem hn hlc
  have hdesc := h.descends_walk n
  rw [hwalk] at hdesc
  have hafter := (pairwise_cons.1 (pairwise_append.1 hdesc).2.1).1
  have hsame : candidate.cover.level = candidate.file.level → candidate.file.level ≠ 0 →
      candidate.cover = candidate.file := by
    intro hlevel hne
    rw [h.levelOf lc _ hlc, h.levelOf lf _ hlf] at hlevel
    rw [h.levelOf lf _ hlf] at hne
    exact h.tells_agree hne (hlevel ▸ hlc) hlf hspeaks htells
  rcases mem_append.1 hin with hpre | hrest
  · exact hpre
  · exfalso
    rcases mem_cons.1 hrest with heq | hpost
    · rw [heq] at hmay
      omega
    · have hd := hafter _ hpost
      unfold Descends at hd
      by_cases h0 : candidate.file.level = 0
      · omega
      · by_cases hlevel : candidate.cover.level = candidate.file.level
        · rw [hsame hlevel h0] at hmay
          omega
        · omega

theorem numLevels_applyEdit_delete (db : Db) (deleted : List FileRef) :
    (db.applyEdit { deleted := deleted }).version.numLevels = db.version.numLevels := by
  have hlength : ∀ levels : List (List FileMetadata),
      (deleted.foldl Version.erase levels).length = levels.length := by
    induction deleted with
    | nil => exact fun _ => rfl
    | cons ref deleted ih => exact fun levels => (ih _).trans (by simp [Version.erase])
  simp [applyEdit, Version.apply, Version.numLevels, hlength]

theorem Tidy.fileAnswer_delete (h : Tidy db) {dead : List FileMetadata}
    (hdead : ∀ d ∈ dead, d ∈ db.version.allFiles) (k : Key) :
    (db.applyEdit { deleted := dead.map fun f => ⟨f.level, f.fileNumber⟩ }).fileAnswer k =
      ((walk db.version db.version.numLevels).filter (· ∉ dead)).findSome?
        fun f => (db.sstOf f).tells k := by
  set refs := dead.map fun f => (⟨f.level, f.fileNumber⟩ : FileRef)
  have hlevels := db.numLevels_applyEdit_delete refs
  rw [fileAnswer_eq_walk _ hlevels.le]
  congr 1
  unfold walk
  rw [filter_flatMap]
  refine flatMap_congr fun level _ => ?_
  rw [h.filesAt_applyEdit rfl (by simp)]
  refine filter_congr fun f hf => ?_
  rw [decide_eq_decide, not_iff_not]
  constructor
  · intro href
    obtain ⟨d, hd, hnumber⟩ := mem_map.1 href
    obtain ⟨ld, hld⟩ := Version.mem_allFiles.1 (hdead d hd)
    rwa [← h.unique ld level d hld f hf (congrArg FileRef.fileNumber hnumber)]
  · intro hin
    exact mem_map.2 ⟨f, hin, by rw [h.levelOf level f hf]⟩

theorem mem_allFiles_of_truncated {d : FileMetadata} (h : d ∈ v.filesEntirelyTruncated) :
    d ∈ v.allFiles ∧ d.effectiveLargest < v.truncationPoint := by
  unfold Version.filesEntirelyTruncated at h
  split_ifs at h with hpoint
  · cases h
  · simpa using h

theorem Tidy.fileAnswer_reclaimDeadFiles (h : Tidy db) (hk : db.version.truncationPoint ≤ k) :
    db.reclaimDeadFiles.fileAnswer k = db.fileAnswer k := by
  unfold Db.reclaimDeadFiles
  simp only
  split_ifs with hempty
  · rfl
  set dead := db.version.filesEntirelyTruncated ++
    (db.version.rangeDropCandidates.filter db.confirmsDrop).map Version.RangeDropCandidate.file
    with hdead
  have hmem : ∀ d ∈ dead, d ∈ db.version.allFiles := by
    intro d hd
    rcases mem_append.1 hd with htrunc | hcover
    · exact (mem_allFiles_of_truncated htrunc).1
    · obtain ⟨candidate, hcand, rfl⟩ := mem_map.1 hcover
      exact (mem_rangeDropCandidates (mem_filter.1 hcand).1).1.1
  rw [h.fileAnswer_delete hmem, db.fileAnswer_eq_walk le_rfl]
  refine findSome?_filter_of_shadowed _ _ fun pre f post hwalk hgone => ?_
  obtain ⟨lf, hlf⟩ := mem_walk (hwalk ▸ mem_append_cons_self :
    f ∈ walk db.version db.version.numLevels)
  have hd : f ∈ dead := by simpa using hgone
  by_cases htells : (db.sstOf f).tells k = none
  · exact .inl htells
  right
  rcases mem_append.1 hd with htrunc | hcover
  · have hfs := h.stored lf f hlf
    have hwithin := (hfs.describes.within_of_tells hfs.wellFormed htells).2
    exact absurd ((mem_allFiles_of_truncated htrunc).2.trans_le hk) (not_lt.2 hwithin)
  · obtain ⟨candidate, hcand, rfl⟩ := mem_map.1 hcover
    obtain ⟨hcandidate, hconfirm⟩ := mem_filter.1 hcand
    exact h.shadowed_of_confirms hcandidate hconfirm htells le_rfl hwalk

/-! ### Replacing a file -/

variable {file : FileMetadata}

theorem Tidy.fileAnswer_replaceFile (h : Tidy db) (hfile : file ∈ db.version.filesAt file.level)
    (hlevel : file.level ≠ 0) {moved : ℕ → FileMetadata} (hnumber : ∀ n, (moved n).fileNumber = n)
    (hmoved : ∀ n, (moved n).level = file.level)
    (hdesc : ∀ n s, file.Describes s → (moved n).Describes s) (k : Key) :
    (db.replaceFile file moved).fileAnswer k = db.fileAnswer k := by
  have htidy := h.replaceFile hfile hlevel hnumber hmoved hdesc
  have hst := h.stored _ file hfile
  have hobject := hst.object
  refine fileAnswer_congr fun level => ?_
  unfold Db.replaceFile at htidy ⊢
  rw [hobject] at htidy ⊢
  simp only at htidy ⊢
  set copy := moved db.nextFileNumber
  set db₁ := db.writeNewSst (db.sstOf file)
  have hext : Extends db db₁ := extends_writeNewSst _ _
  have hcopy : db₁.sstOf copy = db.sstOf file := sstOf_writeNewSst (hnumber _)
  by_cases hl : level = file.level
  · subst hl
    set edit : VersionEdit :=
      { deleted := [⟨file.level, file.fileNumber⟩], added := [copy] } with hedit
    set others := (db.version.filesAt file.level).filter (· ≠ file) with hothers
    have hmem : ∀ f, f ∈ copy :: others ↔ f ∈ (db₁.applyEdit edit).version.filesAt file.level := by
      intro f
      have hdel : f ∈ db.version.filesAt file.level →
          (f.fileNumber = file.fileNumber ↔ f = file) := fun hf =>
        ⟨h.unique _ _ f hf file hfile, fun heq => heq ▸ rfl⟩
      simp only [applyEdit, Version.mem_filesAt_apply, hedit, mem_cons, not_mem_nil,
        or_false, FileRef.mk.injEq, true_and, hothers, mem_filter, decide_eq_true_eq]
      constructor
      · rintro (rfl | ⟨hf, hne⟩)
        · exact .inr ⟨rfl, hmoved _⟩
        · exact .inl ⟨hf, fun heq => hne ((hdel hf).1 heq)⟩
      · rintro (⟨hf, hne⟩ | ⟨rfl, -⟩)
        · exact .inr ⟨hf, fun heq => hne ((hdel hf).2 heq)⟩
        · exact .inl rfl
    have hmem' : ∀ f, f ∈ file :: others ↔ f ∈ db.version.filesAt file.level := by
      intro f
      simp only [hothers, mem_cons, mem_filter, decide_eq_true_eq]
      constructor
      · rintro (rfl | hf)
        · exact hfile
        · exact hf.1
      · intro hf
        by_cases heq : f = file
        · exact .inl heq
        · exact .inr ⟨hf, heq⟩
    rw [htidy.levelAnswer_eq hlevel k hmem, h.levelAnswer_eq hlevel k hmem']
    have hrest : others.findSome? (fun f => ((db₁.applyEdit edit).sstOf f).tells k) =
        others.findSome? fun f => (db.sstOf f).tells k := by
      refine findSome?_congr fun f hf => ?_
      have hf' := (mem_filter.1 hf).1
      exact congrArg (fun s : Sst => s.tells k) (hext.sstOf (h.stored _ f hf').number)
    have hnew : (db₁.applyEdit edit).sstOf copy = db.sstOf file := hcopy
    rw [List.findSome?_cons, List.findSome?_cons, hrest, hnew]
  · refine h.levelAnswer_applyEdit hext rfl ?_ ?_ k
    · intro f hf
      obtain rfl := mem_singleton.1 hf
      exact fun h0 => hl (h0.symm.trans (hmoved _))
    · intro r hr
      obtain rfl := mem_singleton.1 hr
      exact fun h0 => hl h0.symm

theorem Tidy.fileAnswer_runMigration (h : Tidy db) (hfile : file ∈ db.version.filesAt file.level)
    (hlevel : file.level ≠ 0) (target : Bytes) (k : Key) :
    (db.runMigration file target).fileAnswer k = db.fileAnswer k := by
  unfold Db.runMigration
  split_ifs
  · rfl
  · refine h.fileAnswer_replaceFile hfile hlevel ?_ ?_ ?_ k
    · exact fun _ => rfl
    · exact fun _ => rfl
    · exact fun _ _ hd => ⟨hd.1, hd.2, hd.3, hd.4, hd.5, hd.6, hd.7⟩

theorem Tidy.fileAnswer_runReencryption (env : WriteEnv) (h : Tidy db)
    (hfile : file ∈ db.version.filesAt file.level) (hlevel : file.level ≠ 0) (k : Key) :
    (db.runReencryption env file).fileAnswer k = db.fileAnswer k := by
  unfold Db.runReencryption
  refine h.fileAnswer_replaceFile hfile hlevel ?_ ?_ ?_ k
  · exact fun _ => rfl
  · exact fun _ => rfl
  · exact fun _ _ hd => ⟨hd.1, hd.2, hd.3, hd.4, hd.5, hd.6, hd.7⟩

/-! ### Compactions -/

/-- What the inputs tell, asked newest first. -/
def mergedAnswer (db : Db) (c : Compaction) (k : Key) : Option Found :=
  c.allInputs.findSome? fun f => (db.sstOf f).tells k

variable {c : Compaction}

theorem Tidy.levelAnswer_inputs (h : Tidy db) (hc : c.Admissible db.version) (k : Key) :
    db.levelAnswer k c.level =
      (((db.version.filesAt c.level).filter (· ∉ c.inputs)).findSome?
        fun f => (db.sstOf f).tells k).or
      (c.inputs.findSome? fun f => (db.sstOf f).tells k) := by
  have hselect : (db.version.filesAt c.level).filter (· ∈ c.inputs) = c.inputs :=
    filter_mem_of_sublist hc.inputs (h.nodup c.level)
  have hpart := findSome?_partition (fun f => (db.sstOf f).tells k)
    (fun f => decide (f ∈ c.inputs)) (l := db.version.filesAt c.level) ?_
  · rw [hselect, ← levelAnswer_eq_findSome?] at hpart
    simpa using hpart
  · by_cases hl : c.level = 0
    · have hnewest := h.newest
      rw [← hl] at hnewest
      refine hnewest.imp_of_mem fun {f g} hf hg hfg hin hout => ?_
      have hin' : f ∈ c.inputs := by simpa using hin
      have hout' : g ∉ c.inputs := by simpa using hout
      have hlt : g.fileNumber < f.fileNumber := by
        refine lt_of_le_of_ne hfg fun heq => hout' ?_
        rwa [h.unique _ _ g hg f hf heq]
      have hno : ¬ MeetsHull [f] g := fun hm => hout' (hc.older hl f hin' g (hl ▸ hg) hlt hm)
      have hfs := h.stored _ f hf
      have hgs := h.stored _ g hg
      rcases not_and_or.1 hno with hlow | hhigh
      · push Not at hlow
        exact (Sst.tells_of_before (hgs.describes.before_of_lt hgs.wellFormed hfs.describes
          hfs.wellFormed (hlow f (by simp))) k).symm
      · push Not at hhigh
        exact Sst.tells_of_before (hfs.describes.before_of_lt hfs.wellFormed hgs.describes
          hgs.wellFormed (hhigh f (by simp))) k
    · refine pairwise_of_forall_mem_list fun f hf g hg hin hout => ?_
      by_contra hno
      push Not at hno
      have heq := h.tells_agree hl hf hg hno.1 hno.2
      rw [heq] at hin
      simp [hin] at hout

theorem Tidy.levelAnswer_overlaps (h : Tidy db) (hc : c.Admissible db.version) (k : Key) :
    db.levelAnswer k c.outputLevel =
      (c.overlaps.findSome? fun f => (db.sstOf f).tells k).or
      (((db.version.filesAt c.outputLevel).filter (· ∉ c.overlaps)).findSome?
        fun f => (db.sstOf f).tells k) := by
  have hl : c.outputLevel ≠ 0 := by
    rw [hc.outputLevel]
    omega
  rw [← List.findSome?_append]
  refine h.levelAnswer_eq hl k fun f => ?_
  simp only [mem_append, mem_filter, decide_eq_true_eq]
  constructor
  · rintro (hf | hf)
    · exact hc.overlaps.subset hf
    · exact hf.1
  · intro hf
    by_cases hov : f ∈ c.overlaps
    · exact .inl hov
    · exact .inr ⟨hf, hov⟩

theorem Tidy.silent_of_merged (h : Tidy db) (hc : c.Admissible db.version)
    (hk : db.mergedAnswer c k ≠ none) :
    (((db.version.filesAt c.outputLevel).filter (· ∉ c.overlaps)).findSome?
      fun f => (db.sstOf f).tells k) = none := by
  obtain ⟨found, hfound⟩ := Option.ne_none_iff_exists'.1 hk
  obtain ⟨f, hf, hfk⟩ := exists_of_findSome?_eq_some hfound
  refine List.findSome?_eq_none_iff.2 fun g hg => ?_
  obtain ⟨hg, hnot⟩ := mem_filter.1 hg
  rcases h.beside_compaction hc hg (by simpa using hnot) with hb | hb
  · exact (Sst.tells_of_before (hb f hf) k).resolve_right (by simp [hfk])
  · exact (Sst.tells_of_before (hb f hf) k).resolve_left (by simp [hfk])

theorem Tidy.silent_below_bottommost (h : Tidy db) (hc : c.Admissible db.version)
    (hb : c.outputIsBottommost = true) (hk : db.mergedAnswer c k ≠ none)
    (hlevel : c.outputLevel < level) : db.levelAnswer k level = none := by
  obtain ⟨found, hfound⟩ := Option.ne_none_iff_exists'.1 hk
  obtain ⟨f, hf, hfk⟩ := exists_of_findSome?_eq_some hfound
  rw [levelAnswer_eq_findSome?]
  refine List.findSome?_eq_none_iff.2 fun g hg => ?_
  by_contra hgk
  have hfs := h.stored_input hc hf
  have hgs := h.stored _ g hg
  have hfw := hfs.describes.within_of_tells hfs.wellFormed (k := k) (by simp [hfk])
  have hgw := hgs.describes.within_of_tells hgs.wellFormed hgk
  exact hc.bottommost hb level hlevel g hg ⟨⟨f, hf, hfw.1.trans hgw.2⟩, ⟨f, hf, hgw.1.trans hfw.2⟩⟩

/-- The files put in place of inputs and overlaps tell what these told, up to deletions at the
bottom. -/
theorem Tidy.valueOf_fileAnswer_of_merge (h : Tidy db) (hc : c.Admissible db.version)
    {out : Option Found}
    (hrest : ∀ level, level ≠ c.level → level ≠ c.outputLevel →
      db'.levelAnswer k level = db.levelAnswer k level)
    (hinputs : db'.levelAnswer k c.level =
      ((db.version.filesAt c.level).filter (· ∉ c.inputs)).findSome? fun f => (db.sstOf f).tells k)
    (houtput : db'.levelAnswer k c.outputLevel = out.or
      (((db.version.filesAt c.outputLevel).filter (· ∉ c.overlaps)).findSome?
        fun f => (db.sstOf f).tells k))
    (hout : out = db.mergedAnswer c k ∨
      c.outputIsBottommost = true ∧ out = dropGone (db.mergedAnswer c k)) :
    valueOf (db'.fileAnswer k) = valueOf (db.fileAnswer k) := by
  set stay := ((db.version.filesAt c.level).filter (· ∉ c.inputs)).findSome?
    fun f => (db.sstOf f).tells k
  set left := ((db.version.filesAt c.outputLevel).filter (· ∉ c.overlaps)).findSome?
    fun f => (db.sstOf f).tells k with hleft
  have hold : (db.levelAnswer k c.level).or (db.levelAnswer k c.outputLevel) =
      stay.or ((db.mergedAnswer c k).or left) := by
    rw [h.levelAnswer_inputs hc, h.levelAnswer_overlaps hc, Db.mergedAnswer, Compaction.allInputs,
      List.findSome?_append, Option.or_assoc, Option.or_assoc]
  have hnew : (db'.levelAnswer k c.level).or (db'.levelAnswer k c.outputLevel) =
      stay.or (out.or left) := by rw [hinputs, houtput]
  rw [hc.outputLevel] at hold hnew hrest
  refine valueOf_fileAnswer_of_block hrest ?_
  rw [hold, hnew]
  rcases hout with rfl | ⟨hb, rfl⟩
  · exact .inl rfl
  · cases hm : db.mergedAnswer c k with
    | none => exact .inl rfl
    | some found =>
      have hspeaks : db.mergedAnswer c k ≠ none := by simp [hm]
      cases found with
      | live v => exact .inl rfl
      | gone =>
        cases hstay : stay with
        | some found => exact .inl rfl
        | none =>
          refine .inr ⟨?_, rfl, fun level hlevel => ?_⟩
          · simpa [dropGone, hleft] using h.silent_of_merged hc hspeaks
          · exact h.silent_below_bottommost hc hb hspeaks (hc.outputLevel ▸ hlevel)

theorem Tidy.valueOf_fileAnswer_of_edit (h : Tidy db) (hc : c.Admissible db.version)
    (hext : Extends db db₁) (hversion : db₁.version = db.version)
    (hdeleted : ∀ level f, f ∈ db.version.filesAt level →
      ((⟨level, f.fileNumber⟩ : FileRef) ∈ edit.deleted ↔
        level = c.level ∧ f ∈ c.inputs ∨ level = c.outputLevel ∧ f ∈ c.overlaps))
    (hadded : ∀ f ∈ edit.added, f.level = c.outputLevel) (htidy : Tidy (db₁.applyEdit edit))
    (hout : edit.added.findSome? (fun f => (db₁.sstOf f).tells k) = db.mergedAnswer c k ∨
      c.outputIsBottommost = true ∧ edit.added.findSome? (fun f => (db₁.sstOf f).tells k) =
        dropGone (db.mergedAnswer c k)) :
    valueOf ((db₁.applyEdit edit).fileAnswer k) = valueOf (db.fileAnswer k) := by
  have hne : c.level ≠ c.outputLevel := by
    rw [hc.outputLevel]
    omega
  have hsst : ∀ level, ∀ f ∈ db.version.filesAt level,
      ((db₁.applyEdit edit).sstOf f).tells k = (db.sstOf f).tells k := fun level f hf =>
    congrArg (fun s : Sst => s.tells k) (hext.sstOf (h.stored level f hf).number)
  have hfiles : ∀ level, level ≠ c.outputLevel → (db₁.applyEdit edit).version.filesAt level =
      (db.version.filesAt level).filter fun f =>
        (⟨level, f.fileNumber⟩ : FileRef) ∉ edit.deleted := fun level hl =>
    h.filesAt_applyEdit hversion fun f hf heq => hl (heq ▸ (hadded f hf))
  refine h.valueOf_fileAnswer_of_merge hc ?_ ?_ ?_ hout
  · intro level hin hout
    rw [levelAnswer_eq_findSome?, levelAnswer_eq_findSome?, hfiles level hout]
    have hall : (db.version.filesAt level).filter (fun f =>
        (⟨level, f.fileNumber⟩ : FileRef) ∉ edit.deleted) = db.version.filesAt level := by
      refine filter_eq_self.2 fun f hf => ?_
      simp [hdeleted level f hf, hin, hout]
    rw [hall]
    exact findSome?_congr fun f hf => hsst level f hf
  · rw [levelAnswer_eq_findSome?, hfiles _ hne]
    have hsame : (db.version.filesAt c.level).filter (fun f =>
        (⟨c.level, f.fileNumber⟩ : FileRef) ∉ edit.deleted) =
        (db.version.filesAt c.level).filter (· ∉ c.inputs) := by
      refine filter_congr fun f hf => ?_
      simp [hdeleted c.level f hf, hne]
    rw [hsame]
    exact findSome?_congr fun f hf => hsst c.level f (mem_filter.1 hf).1
  · have hl : c.outputLevel ≠ 0 := by
      rw [hc.outputLevel]
      omega
    have hmem : ∀ f, f ∈ edit.added ++ (db.version.filesAt c.outputLevel).filter (· ∉ c.overlaps) ↔
        f ∈ (db₁.applyEdit edit).version.filesAt c.outputLevel := by
      intro f
      simp only [applyEdit, Version.mem_filesAt_apply, hversion, mem_append, mem_filter,
        decide_eq_true_eq]
      constructor
      · rintro (hf | ⟨hf, hnot⟩)
        · exact .inr ⟨hf, hadded f hf⟩
        · refine .inl ⟨hf, fun hdel => ?_⟩
          exact ((hdeleted _ f hf).1 hdel).elim (fun hx => hne hx.1.symm) fun hx => hnot hx.2
      · rintro (⟨hf, hnot⟩ | ⟨hf, -⟩)
        · exact .inr ⟨hf, fun hov => hnot ((hdeleted _ f hf).2 (.inr ⟨rfl, hov⟩))⟩
        · exact .inl hf
    rw [htidy.levelAnswer_eq hl k hmem, List.findSome?_append]
    congr 1
    exact findSome?_congr fun f hf => hsst c.outputLevel f (mem_filter.1 hf).1

theorem Tidy.mem_refs (h : Tidy db) {l : ℕ} (hf : f ∈ db.version.filesAt level)
    {files : List FileMetadata} (hfiles : ∀ g ∈ files, g ∈ db.version.filesAt l) :
    (⟨level, f.fileNumber⟩ : FileRef) ∈ files.map (fun g => (⟨l, g.fileNumber⟩ : FileRef)) ↔
      level = l ∧ f ∈ files := by
  constructor
  · intro hmem
    obtain ⟨g, hg, heq⟩ := mem_map.1 hmem
    obtain ⟨hlevel, hnumber⟩ := FileRef.mk.inj heq
    obtain rfl := h.unique l level g (hfiles g hg) f hf hnumber
    exact ⟨hlevel.symm, hg⟩
  · rintro ⟨rfl, hmem⟩
    exact mem_map.2 ⟨f, hmem, rfl⟩

/-- A compaction changes nothing a reader can see. -/
theorem Tidy.valueOf_fileAnswer_runCompaction (options : Options) (env : WriteEnv) (h : Tidy db)
    (hc : c.Admissible db.version) (hk : db.version.truncationPoint ≤ k) :
    valueOf ((db.runCompaction options env c).fileAnswer k) = valueOf (db.fileAnswer k) := by
  have htidy := h.runCompaction options env hc
  have hinputs : ∀ f ∈ c.inputs, f ∈ db.version.filesAt c.level := fun f hf =>
    hc.inputs.subset hf
  have hoverlaps : ∀ f ∈ c.overlaps, f ∈ db.version.filesAt c.outputLevel := fun f hf =>
    hc.overlaps.subset hf
  unfold Db.runCompaction at htidy ⊢
  simp only at htidy ⊢
  cases htrivial : c.trivialMove with
  | true =>
    obtain ⟨f, -, hone, hnone, -⟩ := hc.trivialMove htrivial
    rw [htrivial, if_pos rfl, hone] at htidy
    rw [if_pos rfl, hone]
    refine h.valueOf_fileAnswer_of_edit hc (.refl db) rfl ?_ ?_ htidy (.inl ?_)
    · intro level g hg
      have := h.mem_refs hg hinputs
      rw [hone, map_singleton] at this
      simpa [hnone, hone] using this
    · simp
    · simp only [Db.mergedAnswer, Compaction.allInputs, hone, hnone, append_nil,
        List.findSome?_cons, List.findSome?_nil]
      rfl
  | false =>
    rw [htrivial, if_neg (by simp), h.sourcesOf hc] at htidy
    rw [if_neg (by simp), h.sourcesOf hc]
    have hord := h.ordered_sources hc
    have hclosed := (Compaction.tiles_writeCompactionOutputs c options
      db.version.truncationPoint hord).closed
    have hnamed := named_outputs options env c _ db hclosed
    refine h.valueOf_fileAnswer_of_edit hc hnamed.extends_ hnamed.version ?_ ?_ htidy ?_
    · intro level g hg
      rw [mem_append, h.mem_refs hg hinputs, h.mem_refs hg hoverlaps]
    · exact fun f hf => (hnamed.stored f hf).2.1
    · have hcontents : ∀ (files : List FileMetadata) (db : Db),
          files.findSome? (fun f => (db.sstOf f).tells k) =
            (files.map db.sstOf).findSome? fun s => s.tells k := by
        intro files db
        rw [List.findSome?_map]
        rfl
      have hmerged : db.mergedAnswer c k =
          (c.allInputs.map db.sstOf).findSome? fun s => s.tells k := hcontents _ _
      rw [hcontents, hnamed.contents, hmerged]
      cases hb : c.outputIsBottommost with
      | false => exact .inl (Compaction.findSome?_outputs c options _ hord hb hk)
      | true => exact .inr ⟨rfl, Compaction.findSome?_outputs_bottommost c options _ hord hb hk⟩

end Db

end ElysiumKV
