import ElysiumKV.Runs
import ElysiumKV.ScanRuns

/-!
# Scans and lookups agree

On a tidy store a scan yields exactly the keys in its bounds that `get` finds, in its direction and
each once (`Tidy.scan_spec`): skipped files are silent, and a concatenating child reads as one file.
-/

namespace ElysiumKV

open Merge List ScanStream Newest

section Source

variable {κ : Type} [LinearOrder κ] {dir : Key ≃ κ} {reverse : Bool}

/-- The child reads the source from the target on, without failure. -/
structure ReadsFrom (dir : Key ≃ κ) (reverse : Bool) (target : Option Key)
    (c : Child ScanStream κ) (source : Sst) : Prop where
  whole : c.stream.whole = (position dir target (orient reverse source.entries), .ok)
  covers : ∀ k, c.covers (dir k) = source.rangeDeletes k

variable {target : Option Key}

theorem ReadsFrom.ahead {c : Child ScanStream κ} {source : Sst}
    (h : ReadsFrom dir reverse target c source) :
    cursor.ahead c.stream = position dir target (orient reverse source.entries) :=
  congrArg Prod.fst h.whole

theorem readsFrom_sourceChild (target : Option Key) (source : Sst) :
    ReadsFrom dir reverse target (sourceChild dir reverse target none source) source where
  whole := rfl
  covers k := congrArg source.rangeDeletes (dir.symm_apply_apply k)

theorem ReadsFrom.speaks {c : Child ScanStream κ} {source : Sst}
    (h : ReadsFrom dir reverse target c source) (hdir : Directs dir reverse)
    (hs : SortedMap.Sorted Entry.key source.entries) (ht : Span.Tidy source.ranges) {k : Key}
    (hk : ∀ t ∈ target, ¬ dir k < dir t) :
    (speaks cursor (scanKey dir) (dir k) c).map heard = source.tells k := by
  have hcovers : c.covers (dir k) = true ↔ Span.Covered source.ranges k := by
    rw [h.covers]
    exact Sst.rangeDeletes_iff ht
  unfold Merge.speaks Sst.tells ElysiumKV.tells
  rw [h.ahead, find_position (sorted_orient hdir hs) hk, find_orient hdir hs]
  cases findEntry k source.entries with
  | some e => rfl
  | none =>
    by_cases hcov : Span.Covered source.ranges k
    · simp [hcov, hcovers.2 hcov, heard]
    · have hno : ¬ c.covers (dir k) = true := fun hyes => hcov (hcovers.1 hyes)
      simp [hcov, hno]

theorem findSome?_speaks {children : List (Child ScanStream κ)} {sources : List Sst}
    (h : List.Forall₂ (ReadsFrom dir reverse target) children sources)
    (hdir : Directs dir reverse) (hord : MergingIterator.Ordered sources) {k : Key}
    (hk : ∀ t ∈ target, ¬ dir k < dir t) :
    (children.findSome? (speaks cursor (scanKey dir) (dir k))).map heard =
      sources.findSome? fun s => s.tells k := by
  rw [map_findSome?]
  induction h with
  | nil => rfl
  | @cons c source children sources hc _ ih =>
    have hsource := hord source (.head _)
    have hself := hc.speaks hdir hsource.1 hsource.2 hk
    have hrest := ih fun s hs => hord s (.tail _ hs)
    rw [List.findSome?_cons, List.findSome?_cons, Function.comp_apply, hself, hrest]

theorem scannable_of_readsFrom {children : List (Child ScanStream κ)} {sources : List Sst}
    (h : List.Forall₂ (ReadsFrom dir reverse target) children sources)
    (hdir : Directs dir reverse) (hord : MergingIterator.Ordered sources) :
    Db.Scannable dir target children := by
  constructor
  · intro c hc
    obtain ⟨source, hsource, hreads⟩ := exists_of_mem_left h hc
    rw [hreads.ahead]
    exact sorted_position target (sorted_orient hdir (hord source hsource).1)
  · intro c hc e he
    obtain ⟨source, hsource, hreads⟩ := exists_of_mem_left h hc
    rw [hreads.ahead, mem_position (sorted_orient hdir (hord source hsource).1)] at he
    exact he.2

end Source

namespace Db

variable {options : Options} {db : Db}

/-! ### The sources of a scan -/

/-- Files read as one. -/
def joined (db : Db) (files : List FileMetadata) : Sst where
  entries := files.flatMap fun f => (db.sstOf f).entries

/-- What a level's children read. -/
def levelSources (db : Db) (lower upper : Key) (level : ℕ) : List Sst :=
  if 0 < level ∧ db.version.carriesRanges level = false then
    match db.version.overlappingIndexRange level lower upper with
    | [] => []
    | f :: files => [db.joined (f :: files)]
  else (db.version.overlappingHalfOpen level lower upper).map db.sstOf

/-- What a scan's children read. -/
def scanSources (db : Db) (lower upper : Key) : List Sst :=
  ((db.mem :: db.imm.toList).map fun m => ⟨m.entries, m.rangeTombstones⟩) ++
    (List.range db.version.numLevels).flatMap (db.levelSources lower upper)

theorem Stored.readerFor {f : FileMetadata} (hf : db.Stored f) :
    db.readerFor options {} f = .ok (db.sstOf f) := by
  simp only [Db.readerFor, hf.object]

variable {lower upper k : Key}

theorem Stored.tells_of_not_overlapping {f : FileMetadata} (hf : db.Stored f) {level : ℕ}
    (hk : Within lower upper k) (hmem : f ∈ db.version.filesAt level)
    (hno : f ∉ db.version.overlappingHalfOpen level lower upper) : (db.sstOf f).tells k = none := by
  by_contra hne
  refine hno (mem_filter.2 ⟨hmem, ?_⟩)
  have hupper {bound : Key} (h : bound ≤ k) : ¬ (upper ≠ [] ∧ upper ≤ bound) :=
    fun hu => absurd (hk.2 hu.1) (not_lt.2 (hu.2.trans h))
  simp only [Bool.or_eq_true, Bool.and_eq_true, Bool.not_eq_true', decide_eq_false_iff_not,
    ne_eq, decide_eq_true_eq, Bool.and_eq_false_iff]
  rcases covered_cells.1 (Sst.tells_ne_none_iff.1 hne) with ⟨e, he, rfl⟩ | hcov
  · left
    have h1 := hf.wellFormed.smallestKey_le he
    have h2 := hf.wellFormed.le_largestKey he
    rw [← hf.describes.smallestKey] at h1
    rw [← hf.describes.largestKey] at h2
    refine ⟨not_lt.2 (hk.1.trans h2), ?_⟩
    by_contra h
    push Not at h
    exact hupper h1 ⟨by simpa using h.1, by simpa using h.2⟩
  · right
    have hcover := rangeMayCover_of_covered hf.wellFormed hf.describes hcov
    simp only [FileMetadata.rangeMayCover, Bool.and_eq_true, decide_eq_true_eq] at hcover
    obtain ⟨⟨hranges, h1⟩, h2⟩ := hcover
    refine ⟨⟨hranges, not_le.2 (hk.1.trans_lt h2)⟩, ?_⟩
    by_contra h
    push Not at h
    exact hupper h1 ⟨by simpa using h.1, by simpa using h.2⟩

section Level

variable {level : ℕ} {lower upper : Key}

theorem noRanges_of_carriesRanges (h : db.version.carriesRanges level = false) :
    ∀ f ∈ db.version.filesAt level, f.numRangeTombstones = 0 := by
  simpa [Version.carriesRanges] using h

theorem mem_of_mem_overlappingIndexRange {f : FileMetadata}
    (hf : f ∈ db.version.overlappingIndexRange level lower upper) :
    f ∈ db.version.filesAt level := by
  unfold Version.overlappingIndexRange at hf
  split_ifs at hf
  · exact (dropWhile_sublist _).subset hf
  · exact (dropWhile_sublist _).subset ((takeWhile_sublist _).subset hf)

theorem Tidy.findSome?_overlappingIndexRange (h : Tidy db) (hl : level ≠ 0)
    (hranges : db.version.carriesRanges level = false) {k : Key} (hk : Within lower upper k) :
    (db.version.overlappingIndexRange level lower upper).findSome?
      (fun f => (db.sstOf f).tells k) = db.levelAnswer k level := by
  have hnone := noRanges_of_carriesRanges hranges
  have hbelow : ((db.version.filesAt level).dropWhile fun f => f.largestKey < lower).findSome?
      (fun f => (db.sstOf f).tells k) = db.levelAnswer k level := by
    rw [levelAnswer_eq_findSome?]
    refine findSome?_dropWhile_of_silent _ fun f hf hlt => ?_
    have hlt : f.largestKey < lower := of_decide_eq_true hlt
    exact (h.stored level f hf).tells_eq_none_of_largest_lt (hnone f hf) (hlt.trans_le hk.1)
  unfold Version.overlappingIndexRange
  split_ifs with hupper
  · exact hbelow
  · rw [← hbelow]
    refine findSome?_takeWhile_of_silent _ fun f hf => ?_
    -- from the first file that starts at or above the upper bound on, all do
    have hstart : upper ≤ f.smallestKey := by
      have hpair : ((db.version.filesAt level).dropWhile fun f => f.largestKey < lower).Pairwise
          fun f g => f.smallestKey ≤ g.smallestKey :=
        ((h.keyOrder level hl).sublist (dropWhile_sublist _)).imp fun hfg =>
          hfg.elim le_of_lt fun hfg => hfg.1.le
      generalize (db.version.filesAt level).dropWhile (fun f => decide (f.largestKey < lower)) =
        files at hpair hf
      induction files with
      | nil => nomatch hf
      | cons g files ih =>
        obtain ⟨hg, hpair⟩ := pairwise_cons.1 hpair
        rw [dropWhile_cons] at hf
        split_ifs at hf with hlt
        · exact ih hpair hf
        · have hge : upper ≤ g.smallestKey := by simpa using hlt
          rcases mem_cons.1 hf with rfl | hf
          · exact hge
          · exact hge.trans (hg f hf)
    have hmem : f ∈ db.version.filesAt level :=
      (dropWhile_sublist _).subset ((dropWhile_sublist _).subset hf)
    exact (h.stored level f hmem).tells_eq_none_of_lt_smallest (hnone f hmem)
      ((hk.2 hupper).trans_le hstart)

theorem tells_joined {files : List FileMetadata} (hf : ∀ f ∈ files, db.Stored f)
    (hranges : ∀ f ∈ files, f.numRangeTombstones = 0) (k : Key) :
    (db.joined files).tells k = files.findSome? fun f => (db.sstOf f).tells k := by
  have hone : ∀ f ∈ files, (db.sstOf f).tells k =
      (findEntry k (db.sstOf f).entries).map Entry.found := by
    intro f hmem
    have hnil := (hf f hmem).describes.noRanges_iff.1 (hranges f hmem)
    unfold Sst.tells ElysiumKV.tells
    rw [hnil]
    cases findEntry k (db.sstOf f).entries <;> rfl
  have hall : (db.joined files).tells k =
      (findEntry k (db.joined files).entries).map Entry.found := by
    unfold Sst.tells ElysiumKV.tells
    cases findEntry k (db.joined files).entries <;> rfl
  rw [hall, findSome?_congr hone, findEntry, SortedMap.find, joined, List.find?_flatMap,
    map_findSome?]
  rfl

theorem Tidy.sorted_joined (h : Tidy db) (hl : level ≠ 0)
    (hranges : db.version.carriesRanges level = false) {files : List FileMetadata}
    (hsub : files.Sublist (db.version.filesAt level)) :
    SortedMap.Sorted Entry.key (db.joined files).entries := by
  have hnone := noRanges_of_carriesRanges hranges
  refine pairwise_flatMap.2 ⟨fun f hf => (h.stored level f (hsub.subset hf)).wellFormed.sorted, ?_⟩
  have hpair := ((h.keyOrder level hl).and (h.nodup level)).sublist hsub
  refine hpair.imp_of_mem fun {f g} hf hg hfg e he e' he' => ?_
  have hf := hsub.subset hf
  have hg := hsub.subset hg
  have hlt := h.before_of_keyOrder hl hf hg hfg.2 (hnone f hf) (hnone g hg) hfg.1
  have hfs := h.stored level f hf
  have hgs := h.stored level g hg
  have h1 := hfs.wellFormed.le_largestKey he
  have h2 := hgs.wellFormed.smallestKey_le he'
  rw [← hfs.describes.largestKey] at h1
  rw [← hgs.describes.smallestKey] at h2
  exact (h1.trans_lt hlt).trans_le h2

theorem overlappingIndexRange_sublist :
    (db.version.overlappingIndexRange level lower upper).Sublist (db.version.filesAt level) := by
  unfold Version.overlappingIndexRange
  split_ifs
  · exact dropWhile_sublist _
  · exact (takeWhile_sublist _).trans (dropWhile_sublist _)

theorem Tidy.findSome?_levelSources (h : Tidy db) {k : Key} (hk : Within lower upper k) :
    (db.levelSources lower upper level).findSome? (fun s => s.tells k) =
      db.levelAnswer k level := by
  unfold levelSources
  split_ifs with hfast
  · have hl : level ≠ 0 := Nat.ne_of_gt hfast.1
    have hrange := h.findSome?_overlappingIndexRange hl hfast.2 hk
    cases hfiles : db.version.overlappingIndexRange level lower upper with
    | nil => rw [← hrange, hfiles]; rfl
    | cons f files =>
      have hmem : ∀ g ∈ f :: files, g ∈ db.version.filesAt level := fun g hg =>
        mem_of_mem_overlappingIndexRange (hfiles ▸ hg)
      have hjoined := tells_joined (fun g hg => h.stored level g (hmem g hg))
        (fun g hg => noRanges_of_carriesRanges hfast.2 g (hmem g hg)) k
      rw [← hrange, hfiles, ← hjoined]
      simp only [List.findSome?_cons, List.findSome?_nil]
      cases (db.joined (f :: files)).tells k <;> rfl
  · rw [levelAnswer_eq_findSome?, List.findSome?_map]
    refine findSome?_filter_of_silent _ fun f hf hno => ?_
    refine (h.stored level f hf).tells_of_not_overlapping hk hf fun hmem => ?_
    have hyes := (mem_filter.1 hmem).2
    rw [hno] at hyes
    cases hyes

theorem Tidy.ordered_levelSources (h : Tidy db) :
    MergingIterator.Ordered (db.levelSources lower upper level) := by
  unfold levelSources
  split_ifs with hfast
  · cases hfiles : db.version.overlappingIndexRange level lower upper with
    | nil => exact fun _ hs => nomatch hs
    | cons f files =>
      intro s hs
      obtain rfl := mem_singleton.1 hs
      refine ⟨h.sorted_joined (Nat.ne_of_gt hfast.1) hfast.2 ?_, Span.tidy_nil⟩
      rw [← hfiles]
      exact overlappingIndexRange_sublist
  · intro s hs
    obtain ⟨f, hf, rfl⟩ := mem_map.1 hs
    have hstored := h.stored level f (mem_of_mem_filter hf)
    exact ⟨hstored.wellFormed.sorted, hstored.wellFormed.tidy⟩

end Level

/-- What the memtables tell about a key. -/
def frontAnswer (db : Db) (k : Key) : Option Found :=
  (db.mem.tells k).or (db.imm.bind fun m => m.tells k)

theorem findSome?_memtables (db : Db) (k : Key) :
    ((db.mem :: db.imm.toList).map fun m => (⟨m.entries, m.rangeTombstones⟩ : Sst)).findSome?
      (fun s => s.tells k) = db.frontAnswer k := by
  have hmem : ∀ m : Memtable, (⟨m.entries, m.rangeTombstones⟩ : Sst).tells k = m.tells k := fun m =>
    tells_congr rfl (Span.covered_unite _ _)
  rw [List.findSome?_map, frontAnswer]
  simp only [Function.comp_def, hmem, List.findSome?_cons]
  cases db.mem.tells k with
  | some found => rfl
  | none => cases db.imm with
    | none => rfl
    | some m =>
      simp only [Option.toList_some, List.findSome?_cons, List.findSome?_nil, Option.bind_some,
        Option.none_or]
      cases m.tells k <;> rfl

theorem Tidy.findSome?_scanSources (h : Tidy db) (hk : Within lower upper k) :
    (db.scanSources lower upper).findSome? (fun s => s.tells k) = db.answer k := by
  have hlevels : ((List.range db.version.numLevels).flatMap
      (db.levelSources lower upper)).findSome? (fun s => s.tells k) = db.fileAnswer k := by
    rw [findSome?_flatMap, fileAnswer]
    exact findSome?_congr fun level _ => h.findSome?_levelSources hk
  rw [scanSources, List.findSome?_append, hlevels, findSome?_memtables, frontAnswer, Option.or_assoc]
  rfl

theorem ordered_memtables (db : Db) : MergingIterator.Ordered
    ((db.mem :: db.imm.toList).map fun m => (⟨m.entries, m.rangeTombstones⟩ : Sst)) := by
  intro s hs
  obtain ⟨m, -, rfl⟩ := mem_map.1 hs
  exact ⟨m.sorted, Span.tidy_unite _⟩

theorem Tidy.ordered_scanSources (h : Tidy db) (lower upper : Key) :
    MergingIterator.Ordered (db.scanSources lower upper) := by
  intro s hs
  rcases mem_append.1 hs with hs | hs
  · exact ordered_memtables db s hs
  · obtain ⟨level, -, hs⟩ := mem_flatMap.1 hs
    exact h.ordered_levelSources s hs

section Children

variable {κ : Type} [LinearOrder κ] {dir : Key ≃ κ} {reverse : Bool} {target : Option Key}

theorem readsFrom_fileChild {f : FileMetadata} (hf : db.Stored f) :
    ReadsFrom dir reverse target (db.fileChild options {} dir reverse target f) (db.sstOf f) := by
  unfold fileChild
  rw [hf.readerFor]
  exact readsFrom_sourceChild target (db.sstOf f)

theorem orient_flatMap {α β : Type} (g : α → List β) (l : List α) :
    orient reverse (l.flatMap g) = (orient reverse l).flatMap fun a => orient reverse (g a) := by
  unfold orient
  cases reverse with
  | false => rfl
  | true => exact reverse_flatMap

variable {files : List FileMetadata}

theorem Stored.openFile (hf : db.Stored f) : db.openFile options {} reverse f =
    .ok ⟨orient reverse (db.sstOf f).entries, none⟩ :=
  congrArg (Except.map _) hf.readerFor

variable (options reverse) in
theorem readable_opened (hf : ∀ f ∈ files, db.Stored f) :
    readable id (files.map (db.openFile options {} reverse)) =
      (files.flatMap fun f => orient reverse (db.sstOf f).entries, .ok) := by
  induction files with
  | nil => rfl
  | cons f files ih =>
    have hrest := ih fun g hg => hf g (.tail f hg)
    rw [map_cons, (hf f (.head _)).openFile, flatMap_cons]
    unfold readable
    rw [hrest]
    simp only [cutShort, id]
    cases orient reverse (db.sstOf f).entries <;> rfl

theorem readable_opened_from (p : Entry → Bool) (hf : ∀ f ∈ files, db.Stored f) :
    readable (List.dropWhile p) (files.map (db.openFile options {} reverse)) =
      ((files.flatMap fun f => orient reverse (db.sstOf f).entries).dropWhile p, .ok) := by
  induction files with
  | nil => rfl
  | cons f files ih =>
    have hrest := ih fun g hg => hf g (.tail _ hg)
    have hall := readable_opened options reverse fun g hg => hf g (.tail f hg)
    rw [map_cons, (hf f (.head _)).openFile, flatMap_cons, dropWhile_append]
    unfold readable
    simp only [cutShort]
    cases (orient reverse (db.sstOf f).entries).dropWhile p with
    | nil => exact hrest
    | cons e rest =>
      simp only [hall]
      rfl

theorem readsFrom_concatChild (hdir : Directs dir reverse) (hf : ∀ f ∈ files, db.Stored f) :
    ReadsFrom dir reverse target (db.concatChild options {} dir reverse target files)
      (db.joined files) := by
  have horiented : ∀ f ∈ orient reverse files, db.Stored f := fun f hmem => hf f (mem_orient.1 hmem)
  refine ⟨?_, fun _ => rfl⟩
  cases target with
  | none =>
    refine (whole_enterFrom _ _).trans ?_
    refine (readable_opened options reverse horiented).trans ?_
    rw [← orient_flatMap]
    rfl
  | some t =>
    have hdrop : ∀ f ∈ (orient reverse files).dropWhile
        (fun f => dir (farEdge reverse f) < dir t), db.Stored f :=
      fun f hmem => horiented f ((dropWhile_sublist _).subset hmem)
    refine (whole_enterFrom _ _).trans ((readable_opened_from _ hdrop).trans ?_)
    rw [Merge.dropWhile_flatMap_dropWhile]
    · rw [← orient_flatMap]
      rfl
    · intro f hmem hfar e he
      have hstored := horiented f hmem
      have he := mem_orient.1 he
      have h1 := hstored.wellFormed.smallestKey_le he
      have h2 := hstored.wellFormed.le_largestKey he
      rw [← hstored.describes.smallestKey] at h1
      rw [← hstored.describes.largestKey] at h2
      have hfar : Precedes reverse (farEdge reverse f) t := (hdir _ _).1 (of_decide_eq_true hfar)
      refine decide_eq_true ((hdir _ _).2 ?_)
      cases reverse with
      | false => exact h2.trans_lt hfar
      | true => exact hfar.trans_le h1

theorem Tidy.readsFrom_levelChildren (h : Tidy db) (hdir : Directs dir reverse)
    (lower upper : Key) (level : ℕ) :
    List.Forall₂ (ReadsFrom dir reverse target)
      (db.levelChildren options {} dir reverse target lower upper level)
      (db.levelSources lower upper level) := by
  unfold levelChildren levelSources
  split_ifs with hfast
  · cases hfiles : db.version.overlappingIndexRange level lower upper with
    | nil => exact .nil
    | cons f files =>
      refine .cons (readsFrom_concatChild hdir fun g hg => ?_) .nil
      exact h.stored level g (mem_of_mem_overlappingIndexRange (hfiles ▸ hg))
  · rw [forall₂_map_left_iff, forall₂_map_right_iff, forall₂_same]
    exact fun f hf => readsFrom_fileChild (h.stored level f (mem_of_mem_filter hf))

variable (target) in
theorem readsFrom_memtables (db : Db) : List.Forall₂ (ReadsFrom dir reverse target)
    ((db.mem :: db.imm.toList).map fun m =>
      sourceChild dir reverse target none ⟨m.entries, m.rangeTombstones⟩)
    ((db.mem :: db.imm.toList).map fun m => ⟨m.entries, m.rangeTombstones⟩) := by
  rw [forall₂_map_left_iff, forall₂_map_right_iff, forall₂_same]
  exact fun m _ => readsFrom_sourceChild target _

variable (options target) in
theorem Tidy.readsFrom_scanChildren (h : Tidy db) (hdir : Directs dir reverse)
    (lower upper : Key) :
    List.Forall₂ (ReadsFrom dir reverse target)
      (db.scanChildren options {} dir reverse target lower upper) (db.scanSources lower upper) := by
  unfold scanChildren scanSources
  refine rel_append (readsFrom_memtables target db) (rel_flatMap (R := Eq) ?_ ?_)
  · exact forall₂_same.2 fun _ _ => rfl
  · rintro level _ rfl
    exact h.readsFrom_levelChildren hdir lower upper level

end Children

/-! ### Whole scans -/

theorem inBounds_clampScan {hasUpper : Bool} :
    InBounds (db.clampScan lower) upper hasUpper k ↔
      InBounds lower upper hasUpper k ∧ db.version.truncated k = false := by
  have htruncated : db.version.truncated k = false ↔ db.version.truncationPoint ≤ k := by
    unfold Version.truncated
    by_cases hnil : db.version.truncationPoint = []
    · simp [hnil, ByteOrder.nil_le]
    · simp [hnil]
  have hclamp : db.clampScan lower ≤ k ↔ lower ≤ k ∧ db.version.truncationPoint ≤ k := by
    unfold clampScan
    split_ifs with hlow
    · have hle : lower ≤ db.version.truncationPoint := by
        rcases hlow.2 with rfl | hlt
        · exact ByteOrder.nil_le _
        · exact hlt.le
      exact ⟨fun h => ⟨hle.trans h, h⟩, fun h => h.2⟩
    · refine ⟨fun h => ⟨h, ?_⟩, fun h => h.1⟩
      by_cases hnil : db.version.truncationPoint = []
      · rw [hnil]
        exact ByteOrder.nil_le k
      · have hge : ¬ lower < db.version.truncationPoint := fun hlt => hlow ⟨hnil, .inr hlt⟩
        exact (not_lt.1 hge).trans h
  unfold InBounds
  rw [htruncated, hclamp]
  tauto

/-- The pairs in bounds that `get` finds, in scan order. -/
structure Scans (options : Options) (db : Db) (lower upper : Key) (hasUpper reverse : Bool)
    (out : List (Key × Value)) : Prop where
  sorted : out.Pairwise fun a b => Precedes reverse a.1 b.1
  mem : ∀ k v, (k, v) ∈ out ↔ InBounds lower upper hasUpper k ∧ db.get options k = .ok v

theorem Tidy.get_eq_ok_iff (h : Tidy db) (hopen : db.readsAreBlocked options = false) {v : Value} :
    db.get options k = .ok v ↔
      db.version.truncated k = false ∧ db.answer k = some (.live v) := by
  rw [h.get_eq_answer hopen]
  cases db.version.truncated k with
  | true => simp
  | false => cases db.answer k with
    | none => simp [lookupResult]
    | some found => cases found <;> simp [lookupResult, resultOf]


section Whole

variable {κ : Type} [LinearOrder κ] {dir : Key ≃ κ} {reverse : Bool}

theorem Tidy.told_scanChildren (h : Tidy db) (hdir : Directs dir reverse) {lower upper k : Key}
    {hasUpper : Bool} (hupper : hasUpper = false → upper = [])
    (hk : InBounds lower upper hasUpper k) :
    told dir (db.scanChildren options {} dir reverse (scanTarget reverse lower upper hasUpper)
      lower upper) k = db.answer k := by
  refine (findSome?_speaks (h.readsFrom_scanChildren options _ hdir lower upper) hdir
    (h.ordered_scanSources lower upper) ((inBounds_iff hdir).1 hk).1).trans ?_
  exact h.findSome?_scanSources (hk.within hupper)

variable (options) in
theorem Tidy.scannable_scanChildren (h : Tidy db) (hdir : Directs dir reverse)
    (target : Option Key) (lower upper : Key) :
    Scannable dir target (db.scanChildren options {} dir reverse target lower upper) :=
  scannable_of_readsFrom (h.readsFrom_scanChildren options target hdir lower upper) hdir
    (h.ordered_scanSources lower upper)

theorem Tidy.status_runScan (h : Tidy db) (hdir : Directs dir reverse) (lower upper : Key)
    (hasUpper : Bool) :
    (runScan dir reverse lower upper hasUpper (db.scanChildren options {} dir reverse
      (scanTarget reverse lower upper hasUpper) lower upper)).2 = .ok := by
  set target := scanTarget reverse lower upper hasUpper
  have hreads := h.readsFrom_scanChildren options target hdir lower upper
  obtain ⟨final, hstatus, hfinal, -⟩ :=
    exists_final (h.scannable_scanChildren options hdir target lower upper).ordered hdir lower upper
      hasUpper
  rw [hstatus, scanStatus_eq_ok_iff]
  intro d hd
  obtain ⟨c, hc, n, hn⟩ := exists_of_mem_right hfinal hd
  obtain ⟨source, -, hsource⟩ := exists_of_mem_left hreads hc
  have hok : d.stream.whole.2 = .ok := by rw [hn, hsource.whole]
  rw [d.stream.status_eq, hok, ite_self]

theorem Tidy.scanWith_spec (h : Tidy db) (hopen : db.readsAreBlocked options = false)
    (hdir : Directs dir reverse) (lower upper : Key) (hasUpper : Bool)
    (hupper : hasUpper = false → upper = []) :
    Scans options db lower upper hasUpper reverse
        (db.scanWith options {} dir reverse lower upper hasUpper).1 ∧
      (db.scanWith options {} dir reverse lower upper hasUpper).2 = .ok := by
  unfold scanWith
  rw [hopen, if_neg Bool.false_ne_true]
  simp only
  have hscannable := h.scannable_scanChildren options hdir
    (scanTarget reverse (db.clampScan lower) upper hasUpper) (db.clampScan lower) upper
  refine ⟨⟨(runScan_spec hscannable hdir).1, fun k v => ?_⟩, h.status_runScan hdir _ upper hasUpper⟩
  have hbounds : InBounds lower upper hasUpper k ∧ db.get options k = .ok v ↔
      InBounds (db.clampScan lower) upper hasUpper k ∧ db.answer k = some (.live v) := by
    rw [h.get_eq_ok_iff hopen, inBounds_clampScan, and_assoc]
  rw [mem_runScan hscannable hdir, hbounds]
  exact and_congr_right fun hk => by rw [h.told_scanChildren hdir hupper hk]

end Whole

theorem Tidy.scan_spec (h : Tidy db) (hopen : db.readsAreBlocked options = false)
    (lower upper : Key) (hasUpper reverse : Bool) (hupper : hasUpper = false → upper = []) :
    Scans options db lower upper hasUpper reverse
        (db.scan options {} lower upper hasUpper reverse).1 ∧
      (db.scan options {} lower upper hasUpper reverse).2 = .ok := by
  cases reverse with
  | false => exact h.scanWith_spec hopen directs_forward lower upper hasUpper hupper
  | true => exact h.scanWith_spec hopen directs_reverse lower upper hasUpper hupper

section Agreement

/-- Both directions yield the keys `get` finds, in order and each once. -/
structure Agrees (options : Options) (db : Db) (bounds : Key → Prop)
    (forward reverse : List (Key × Value)) : Prop where
  ascending : forward.Pairwise fun a b => a.1 < b.1
  mem : ∀ k v, (k, v) ∈ forward ↔ bounds k ∧ db.get options k = .ok v
  opposite : reverse = forward.reverse

theorem Agrees.congr {p q : Key → Prop} {forward reverse : List (Key × Value)}
    (h : Agrees options db p forward reverse) (hpq : ∀ k, p k ↔ q k) :
    Agrees options db q forward reverse := by
  rwa [funext fun k => propext (hpq k)] at h

variable {lower upper : Key} {hasUpper : Bool}

theorem agrees_of_scans {forward reverse : List (Key × Value)}
    (hf : Scans options db lower upper hasUpper false forward)
    (hr : Scans options db lower upper hasUpper true reverse) :
    Agrees options db (InBounds lower upper hasUpper) forward reverse := by
  refine ⟨hf.sorted, hf.mem, ?_⟩
  have hsorted : reverse.reverse.Pairwise fun a b => a.1 < b.1 := pairwise_reverse.2 hr.sorted
  have hmem : ∀ pair, pair ∈ reverse.reverse ↔ pair ∈ forward := fun pair => by
    rw [mem_reverse, hr.mem, hf.mem]
  rw [← hsorted.eq_of_mem_iff hf.sorted hmem, reverse_reverse]

theorem agrees_of_blocked {bounds : Key → Prop} (hblocked : db.readsAreBlocked options = true) :
    Agrees options db bounds (db.scan options {} lower upper hasUpper false).1
      (db.scan options {} lower upper hasUpper true).1 := by
  refine ⟨?_, fun k v => ?_, ?_⟩ <;> simp [scan, scanWith, get, hblocked]

theorem Scans.eq_of_get {db' : Db} {reverse : Bool} {out out' : List (Key × Value)}
    (h : Scans options db lower upper hasUpper reverse out)
    (h' : Scans options db' lower upper hasUpper reverse out')
    (hget : ∀ k, db'.get options k = db.get options k) : out' = out := by
  exact eq_of_precedes h'.sorted h.sorted fun pair => by rw [h.mem, h'.mem, hget]

theorem Tidy.iterator_congr {db' : Db} (h : Tidy db) (h' : Tidy db')
    (hblocked : db'.readsAreBlocked options = db.readsAreBlocked options)
    (hget : ∀ k, db'.get options k = db.get options k) (lower : Key) (upper : Option Key)
    (reverse : Bool) :
    db'.iterator options lower upper reverse = db.iterator options lower upper reverse := by
  unfold iterator iteratorUnder
  have hupper : upper.isSome = false → upper.getD [] = [] := by
    cases upper <;> simp
  cases hopen : db.readsAreBlocked options with
  | true => cases reverse <;> simp [scan, scanWith, hblocked, hopen]
  | false =>
    have hs := h.scan_spec hopen lower (upper.getD []) upper.isSome reverse hupper
    have hs' :=
      h'.scan_spec (hblocked.trans hopen) lower (upper.getD []) upper.isSome reverse hupper
    exact Prod.ext (hs.1.eq_of_get hs'.1 hget) (hs'.2.trans hs.2.symm)

variable (options) in
theorem Tidy.agrees_iterator (h : Tidy db) (lower : Key) (upper : Option Key) :
    Agrees options db (fun k => lower ≤ k ∧ ∀ u ∈ upper, k < u)
      (db.iterator options lower upper false).1 (db.iterator options lower upper true).1 := by
  unfold iterator iteratorUnder
  cases hblocked : db.readsAreBlocked options with
  | true => exact agrees_of_blocked hblocked
  | false =>
    have hupper : upper.isSome = false → upper.getD [] = [] := by
      cases upper <;> simp
    refine (agrees_of_scans (h.scan_spec hblocked lower _ _ false hupper).1
      (h.scan_spec hblocked lower _ _ true hupper).1).congr fun k => and_congr_right fun _ => ?_
    cases upper <;> simp

end Agreement

end Db

theorem incrementLast_append (l : List UInt8) (c : UInt8) :
    incrementLast (l ++ [c]) = match incrementLast l with
      | some u => some (u ++ [c])
      | none => if c = 0xFF then none else some [c + 1] := by
  induction l with
  | nil => by_cases hc : c = 0xFF <;> simp [incrementLast, hc]
  | cons d l ih => by_cases hd : d = 0xFF <;> simp [incrementLast, hd, ih]

theorem prefixUpperBound_cons (c : UInt8) (p : Key) :
    prefixUpperBound (c :: p) = match prefixUpperBound p with
      | some u => some (c :: u)
      | none => if c = 0xFF then none else some [c + 1] := by
  unfold prefixUpperBound
  rw [reverse_cons, incrementLast_append]
  cases incrementLast p.reverse with
  | none => by_cases hc : c = 0xFF <;> simp [hc]
  | some u => simp

theorem isPrefix_iff_between (p k : Key) : p <+: k ↔ p ≤ k ∧ ∀ u ∈ prefixUpperBound p, k < u := by
  induction p generalizing k with
  | nil => simp [prefixUpperBound, incrementLast, ByteOrder.nil_le]
  | cons c p ih => cases k with
    | nil => simp
    | cons d k =>
      have hcons : c :: p ≤ d :: k ↔ c < d ∨ c = d ∧ p ≤ k := by
        simpa [cons_lt_cons_iff] using
          ByteOrder.append_le_append_iff (a := [c]) (b := [d]) rfl p k
      rw [cons_prefix_cons, ih, prefixUpperBound_cons, hcons]
      clear hcons
      cases prefixUpperBound p with
      | some u =>
        simp only [Option.mem_some_iff, forall_eq', cons_lt_cons_iff]
        constructor
        · rintro ⟨rfl, hle, hlt⟩
          exact ⟨.inr ⟨rfl, hle⟩, .inr ⟨rfl, hlt⟩⟩
        · rintro ⟨hcd | ⟨rfl, hle⟩, hdc | ⟨hdc, hlt⟩⟩
          · exact absurd hdc hcd.not_gt
          · exact absurd hcd (hdc ▸ lt_irrefl _)
          · exact absurd hdc (lt_irrefl _)
          · exact ⟨rfl, hle, hlt⟩
      | none =>
        simp only [reduceCtorEq, Option.mem_def, false_imp_iff, implies_true, and_true]
        split_ifs with hc
        · have hcd : ¬ c < d := by
            rw [hc, UInt8.lt_iff_toNat_lt]
            exact not_lt.2 (Nat.le_of_lt_succ d.toNat_lt)
          simp [hcd]
        · have hdc : d < c + 1 ↔ d ≤ c := by
            have hne : c.toNat ≠ 255 := fun h => hc (UInt8.toNat_inj.1 h)
            have hc := c.toNat_lt
            rw [UInt8.lt_iff_toNat_lt, UInt8.le_iff_toNat_le, UInt8.toNat_add]
            simp only [UInt8.reduceToNat]
            omega
          have hbound : (∀ u, some [c + 1] = some u → d :: k < u) ↔ d ≤ c := by
            simp [cons_lt_cons_iff, hdc]
          rw [hbound]
          constructor
          · rintro ⟨rfl, hle⟩
            exact ⟨.inr ⟨rfl, hle⟩, le_rfl⟩
          · rintro ⟨hlt | hcd, hle⟩
            · exact absurd hlt (not_lt.2 hle)
            · exact hcd

/-- `starts_with` -/
def startsWith (key start : Key) : Bool :=
  decide (start.length ≤ key.length) && decide (key.take start.length = start)

theorem startsWith_iff (key start : Key) : startsWith key start = true ↔ start <+: key := by
  rw [startsWith, Bool.and_eq_true, decide_eq_true_eq, decide_eq_true_eq, prefix_iff_eq_take]
  constructor
  · rintro ⟨-, htake⟩
    exact htake.symm
  · intro htake
    refine ⟨?_, htake.symm⟩
    rw [htake, length_take]
    exact min_le_right _ _

/-- The bounds of a prefix scan select exactly the keys that start with the prefix. -/
theorem starts_with_iff_between (start key : Key) :
    startsWith key start = true ↔ start ≤ key ∧
      (prefixUpperBound start = none ∨ ∃ upper, prefixUpperBound start = some upper ∧ key < upper) := by
  rw [startsWith_iff, isPrefix_iff_between]
  refine and_congr_right fun _ => ?_
  cases prefixUpperBound start with
  | none => simp
  | some upper => simp

example : prefixUpperBound [1, 0xFF, 0xFF] = some [2] ∧ prefixUpperBound [0xFF, 0xFF] = none := by
  decide

/-- Scans agree with lookups in both directions, between any bounds and under any prefix. -/
theorem scans_agree_with_gets (options : Options) {db : Db} (h : db.Tidy) :
    (∀ lower upper, db.Agrees options (fun k => lower ≤ k ∧ ∀ u ∈ upper, k < u)
      (db.iterator options lower upper false).1 (db.iterator options lower upper true).1) ∧
    ∀ start, db.Agrees options (fun k => start <+: k)
      (db.prefixIterator options start false).1 (db.prefixIterator options start true).1 :=
  ⟨h.agrees_iterator options, fun start =>
    (h.agrees_iterator options start _).congr fun k => (isPrefix_iff_between start k).symm⟩

/-- Data in both memtables and two levels. -/
def layeredScript : List (Db → Op) :=
  mergingScript ++ [fun _ => .put [2] [20], fun _ => .sealMemtable, fun _ => .put [3] [30],
    fun _ => .remove [7]]

theorem scans_agree_with_gets_layered :
    let db := (play plainOptions {} layeredScript ({}, [])).1
    (db.iterator plainOptions [] none false).1 = [([1], [11]), ([2], [20]), ([3], [30])] ∧
      (db.iterator plainOptions [] none true).1 = [([3], [30]), ([2], [20]), ([1], [11])] := by
  have hrun : Run Compaction.Admissible plainOptions _ _ :=
    Run.empty.play {} layeredScript (by decide)
  have h := (scans_agree_with_gets plainOptions hrun.refines.tidy).1 [] none
  have hforward : ((play plainOptions {} layeredScript ({}, [])).1.iterator plainOptions [] none
    false).1 = [([1], [11]), ([2], [20]), ([3], [30])] := by decide
  refine ⟨hforward, h.opposite.trans ?_⟩
  rw [hforward]
  rfl

end ElysiumKV
