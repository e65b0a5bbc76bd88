import ElysiumKV.Levels

/-!
# What a lookup finds

`Db.answer` is the newest-first search. On a tidy store `get` computes it: what the key bounds and
the binary search skip is silent (`get_eq_answer`).
-/

namespace ElysiumKV

namespace Db

variable {options : Options} {db : Db}

/-- The contents of a level's files, in order. -/
def sstsAt (db : Db) (level : ℕ) : List Sst := (db.version.filesAt level).map db.sstOf

/-- What a level's files tell, asked in order. -/
def levelAnswer (db : Db) (k : Key) (level : ℕ) : Option Found :=
  (db.sstsAt level).findSome? fun s => s.tells k

theorem levelAnswer_eq_findSome? (db : Db) (k : Key) (level : ℕ) :
    db.levelAnswer k level =
      (db.version.filesAt level).findSome? fun f => (db.sstOf f).tells k := by
  rw [levelAnswer, sstsAt, List.findSome?_map]
  rfl

/-- What the files tell about a key, level by level. -/
def fileAnswer (db : Db) (k : Key) : Option Found :=
  (List.range db.version.numLevels).findSome? (db.levelAnswer k)

/-- The newest-first search. -/
def answer (db : Db) (k : Key) : Option Found :=
  (db.mem.tells k).or ((db.imm.bind fun m => m.tells k).or (db.fileAnswer k))

variable {f : FileMetadata} {k : Key}

theorem fileMayContain_of_entry {s : Sst} (hs : s.WellFormed) (hf : f.Describes s) {e : Entry}
    (he : findEntry k s.entries = some e) : fileMayContain f k = true := by
  obtain ⟨hmem, rfl⟩ := (SortedMap.find_eq_some_iff Entry.key hs.sorted).1 he
  have h1 := hs.smallestKey_le hmem
  have h2 := hs.le_largestKey hmem
  simp only [fileMayContain, hf.smallestKey, hf.largestKey, Bool.and_eq_true, Bool.not_eq_true',
    decide_eq_false_iff_not, not_lt]
  exact ⟨h1, h2⟩

theorem rangeMayCover_of_covered {s : Sst} (hs : s.WellFormed) (hf : f.Describes s)
    (hk : Span.Covered s.ranges k) : f.rangeMayCover k = true := by
  obtain ⟨r, hr, hlow, hhigh⟩ := hk
  have hne : f.numRangeTombstones ≠ 0 := fun h => by
    rw [hf.noRanges_iff.1 h] at hr
    cases hr
  have h1 := (hs.smallestRangeKey_le hr).trans hlow
  have h2 := hhigh.trans_le (hs.le_largestRangeKey hr)
  simp only [FileMetadata.rangeMayCover, hf.smallestRangeKey, hf.largestRangeKey,
    Bool.and_eq_true, decide_eq_true_eq]
  exact ⟨⟨hne, h1⟩, h2⟩

theorem searchFile_eq (hf : db.Stored f) (k : Key) :
    db.searchFile options k f = .ok ((db.sstOf f).tells k) := by
  have hranges := Sst.rangeDeletes_iff hf.wellFormed.tidy (k := k)
  unfold searchFile
  rw [hf.object]
  simp only
  cases he : findEntry k (db.sstOf f).entries with
  | some e =>
    have hmay := fileMayContain_of_entry hf.wellFormed hf.describes he
    rw [Sst.tells, tells_of_find he]
    simp [hmay, Sst.get, he]
  | none =>
    have hget : (if fileMayContain f k = true then (db.sstOf f).get k else none) = none := by
      rw [Sst.get, he, ite_self]
    rw [Sst.tells, tells_of_find_none he, hget]
    simp only
    by_cases hcov : Span.Covered (db.sstOf f).ranges k
    · have hmay := rangeMayCover_of_covered hf.wellFormed hf.describes hcov
      simp [hmay, hranges.2 hcov, hcov]
    · have hno : (db.sstOf f).rangeDeletes k = false := by
        rw [← Bool.not_eq_true, hranges]
        exact hcov
      simp [hno, hcov]

theorem searchFiles_eq (k : Key) {files : List FileMetadata} (h : ∀ f ∈ files, db.Stored f) :
    db.searchFiles options k files = .ok (files.findSome? fun f => (db.sstOf f).tells k) := by
  induction files with
  | nil => rfl
  | cons f files ih =>
    have hrest := ih fun g hg => h g (List.mem_cons_of_mem _ hg)
    simp only [searchFiles, searchFile_eq (h f (List.mem_cons_self ..)), List.findSome?_cons]
    cases (db.sstOf f).tells k with
    | none => exact hrest
    | some found => rfl

theorem Stored.tells_eq_none_of_largest_lt (hf : db.Stored f) (hranges : f.numRangeTombstones = 0)
    (hk : f.largestKey < k) : (db.sstOf f).tells k = none := by
  by_contra hne
  have hle := (hf.describes.within_of_tells hf.wellFormed hne).2
  rw [FileMetadata.effectiveLargest, if_pos hranges] at hle
  exact absurd hk (not_lt.2 hle)

theorem Stored.tells_eq_none_of_lt_smallest (hf : db.Stored f)
    (hranges : f.numRangeTombstones = 0) (hk : k < f.smallestKey) :
    (db.sstOf f).tells k = none := by
  by_contra hne
  have hle := (hf.describes.within_of_tells hf.wellFormed hne).1
  rw [FileMetadata.effectiveSmallest, if_pos hranges] at hle
  exact absurd hk (not_lt.2 hle)

theorem Tidy.before_of_keyOrder (h : Tidy db) {level : ℕ} (hl : level ≠ 0) {g : FileMetadata}
    (hf : f ∈ db.version.filesAt level) (hg : g ∈ db.version.filesAt level) (hne : f ≠ g)
    (hrf : f.numRangeTombstones = 0) (hrg : g.numRangeTombstones = 0) (hfg : KeyOrder f g) :
    f.largestKey < g.smallestKey := by
  have hfs := h.stored level f hf
  have hgs := h.stored level g hg
  have heff : f.smallestKey ≤ f.largestKey ∧ g.smallestKey ≤ g.largestKey := by
    have h1 := hfs.describes.effective_le hfs.wellFormed
    have h2 := hgs.describes.effective_le hgs.wellFormed
    simp only [FileMetadata.effectiveSmallest, FileMetadata.effectiveLargest, hrf, hrg,
      if_true] at h1 h2
    exact ⟨h1, h2⟩
  have hkey {a b : FileMetadata} (ha : db.Stored a) (hb : db.Stored b)
      (hra : a.numRangeTombstones = 0) (hrb : b.numRangeTombstones = 0)
      (hab : Span.Before (db.sstOf a).cells (db.sstOf b).cells) : a.largestKey < b.smallestKey := by
    have hentries {x : FileMetadata} (hx : db.Stored x) (hrx : x.numRangeTombstones = 0) :
        (db.sstOf x).entries ≠ [] :=
      hx.wellFormed.nonempty.resolve_right (by simpa using hx.describes.noRanges_iff.1 hrx)
    obtain ⟨e, he, hek⟩ := Sst.exists_largestKey (hentries ha hra)
    obtain ⟨e', he', hek'⟩ := Sst.exists_smallestKey (hentries hb hrb)
    have := hab _ (Sst.mem_cells.2 (.inl ⟨e, he, rfl⟩)) _ (Sst.mem_cells.2 (.inl ⟨e', he', rfl⟩))
    rw [ha.describes.largestKey, hb.describes.smallestKey, ← hek, ← hek']
    exact aboveKey_le_atKey.1 this
  rcases h.apart level hl f hf g hg hne with hb | hb
  · exact hkey hfs hgs hrf hrg hb
  · have hgf := hkey hgs hfs hrg hrf hb
    have hle : f.smallestKey ≤ g.smallestKey := hfg.elim le_of_lt fun hfg => hfg.1.le
    exact absurd (heff.2.trans_lt hgf) (not_lt.2 hle)

/-- The binary search below level 0 skips only files that are silent about the key. -/
theorem Tidy.filesToSearch (h : Tidy db) (level : ℕ) (k : Key) :
    (filesToSearch db.version level k).findSome? (fun f => (db.sstOf f).tells k) =
      db.levelAnswer k level := by
  unfold Db.filesToSearch
  rw [levelAnswer_eq_findSome?]
  split_ifs with hfast
  · have hranges : ∀ f ∈ db.version.filesAt level, f.numRangeTombstones = 0 := by
      have := hfast.2
      simpa [Version.carriesRanges] using this
    have hl : level ≠ 0 := Nat.ne_of_gt hfast.1
    refine Newest.findSome?_dropWhile_take _ _ (fun f hf hp => ?_) ?_
    · exact (h.stored level f hf).tells_eq_none_of_largest_lt (hranges f hf) (by simpa using hp)
    · have hpair := (h.keyOrder level hl).and (h.nodup level)
      refine hpair.imp_of_mem fun {f g} hf hg hfg hp => ?_
      have hlt := h.before_of_keyOrder hl hf hg hfg.2 (hranges f hf) (hranges g hg) hfg.1
      have hk : k ≤ f.largestKey := by simpa using hp
      exact (h.stored level g hg).tells_eq_none_of_lt_smallest (hranges g hg) (hk.trans_lt hlt)
  · rfl

/-! ### The whole lookup -/

theorem mem_filesToSearch {v : Version} {level : ℕ} (hf : f ∈ Db.filesToSearch v level k) :
    f ∈ v.filesAt level := by
  unfold Db.filesToSearch at hf
  split_ifs at hf
  · exact (List.dropWhile_sublist _).subset (List.mem_of_mem_take hf)
  · exact hf

theorem Tidy.searchLevels (h : Tidy db) (k : Key) (levels : List ℕ) :
    db.searchLevels options k levels = .ok (levels.findSome? (db.levelAnswer k)) := by
  induction levels with
  | nil => rfl
  | cons level levels ih =>
    have hfiles : db.searchFiles options k (Db.filesToSearch db.version level k) = _ :=
      searchFiles_eq k fun f hf => h.stored level f (mem_filesToSearch hf)
    rw [h.filesToSearch level k] at hfiles
    simp only [Db.searchLevels, hfiles, List.findSome?_cons]
    cases db.levelAnswer k level with
    | none => exact ih
    | some found => rfl

theorem searchMemtables_eq (k : Key) (ms : List Memtable) :
    searchMemtables k ms = ms.findSome? fun m => m.tells k := by
  induction ms with
  | nil => rfl
  | cons m ms ih =>
    have hm : m.tells k = ElysiumKV.tells m.entries m.ranges k := rfl
    rw [searchMemtables, List.findSome?_cons, Memtable.get, hm]
    cases he : findEntry k m.entries with
    | some e => rw [tells_of_find he]
    | none =>
      rw [tells_of_find_none he]
      by_cases hcov : Span.Covered m.ranges k
      · simp [Memtable.rangeDeletes_iff.2 hcov, hcov]
      · have hno : m.rangeDeletes k = false := by
          rw [← Bool.not_eq_true, Memtable.rangeDeletes_iff]
          exact hcov
        simpa [hno, hcov] using ih

/-- The result of a lookup that found `found`. -/
def lookupResult : Option Found → Except Status Value
  | none => .error .notFound
  | some found => resultOf found

theorem Tidy.get_eq_answer (h : Tidy db) (hopen : db.readsAreBlocked options = false) (k : Key) :
    db.get options k =
      if db.version.truncated k then .error .notFound else lookupResult (db.answer k) := by
  unfold Db.get Db.answer
  rw [hopen, if_neg (by simp), searchMemtables_eq, h.searchLevels k, ← fileAnswer]
  split_ifs with htrunc
  · rfl
  · cases hm : db.mem.tells k with
    | some found => simp [hm, lookupResult]
    | none =>
      cases hi : db.imm with
      | none =>
        simp only [Option.toList_none, List.findSome?_cons, hm, List.findSome?_nil, Option.bind_none,
          Option.none_or]
        cases db.fileAnswer k <;> rfl
      | some m =>
        simp only [Option.toList_some, List.findSome?_cons, hm, List.findSome?_nil,
          Option.bind_some, Option.none_or]
        cases m.tells k with
        | some found => rfl
        | none => cases db.fileAnswer k <;> rfl

end Db

end ElysiumKV
