import ElysiumKV.Lib.Search
import ElysiumKV.LevelSpans
import ElysiumKV.ScanReads

/-!
# Files dropped whole

Files below the truncation point or under a newer range tombstone go without a reader noticing.
Expired files go if no older file overlaps them, by binary search over data spans; a file of range
tombstones alone may send it past a file with the empty key (`Tidy.disturbed`).
-/

namespace ElysiumKV

open List

/-- Reclaiming truncated and range-deleted files changes no lookup and no scan. -/
theorem reclaim_invisible (options : Options) {db : Db} (h : db.Tidy) :
    (∀ k, db.reclaimDeadFiles.get options k = db.get options k) ∧
      ∀ lower upper reverse, db.reclaimDeadFiles.iterator options lower upper reverse =
        db.iterator options lower upper reverse := by
  have hfront := db.sameFront_reclaimDeadFiles
  have hget := hfront.get_eq options h h.reclaimDeadFiles fun k hk =>
    congrArg Db.valueOf (h.fileAnswer_reclaimDeadFiles hk)
  exact ⟨hget, h.iterator_congr h.reclaimDeadFiles (hfront.readsAreBlocked_eq options) hget⟩

/-- Of three settled keys one is truncated, another deleted by a range. -/
def reclaimScript : List (Db → Op) :=
  settle [1] [10] ++ settle [5] [50] ++ settle [9] [90] ++
    [fun _ => .deleteRange [4] [6], fun _ => .sealMemtable, fun _ => .runOneFlush,
      fun _ => .truncateBelow [2]]

theorem reclaim_invisible_drops_two :
    let db := (play plainOptions {} reclaimScript ({}, [])).1
    db.version.allFiles.length = 4 ∧ db.reclaimDeadFiles.version.allFiles.length = 2 ∧
      ∀ k, db.reclaimDeadFiles.get plainOptions k = db.get plainOptions k := by
  have hrun : Run Compaction.Admissible plainOptions _ _ :=
    Run.empty.play {} reclaimScript (by decide)
  exact ⟨by decide, by decide, (reclaim_invisible plainOptions hrun.refines.tidy).1⟩

namespace Version

/-- `data_span_index_range`: the files the search takes to overlap `[first, last]`. -/
def dataSpanIndexRange (v : Version) (level : ℕ) (first last : Key) : ℕ × ℕ :=
  let files := v.filesAt level
  let start := Search.lowerBound (fun f => f.largestKey < first) files
  let stop := Search.lowerBound (fun f => !(last < f.smallestKey)) files
  if stop < start then (start, start) else (start, stop)

/-- The other file is older and its data span overlaps. -/
def olderOverlap (file other : FileMetadata) : Bool :=
  (file.level < other.level || other.level = file.level && other.fileNumber < file.fileNumber) &&
    !(other.largestKey < file.smallestKey) && !(file.largestKey < other.smallestKey)

/-- The files `older_file_overlaps` looks at in a level. -/
def searched (v : Version) (file : FileMetadata) (level : ℕ) : List FileMetadata :=
  if level = 0 then v.filesAt level
  else
    let range := v.dataSpanIndexRange level file.smallestKey file.largestKey
    ((v.filesAt level).take range.2).drop range.1

/-- `older_file_overlaps`, from the file's level down. -/
def olderFileOverlaps (v : Version) (file : FileMetadata) : Bool :=
  (List.range v.numLevels).any fun level =>
    decide (file.level ≤ level) && (v.searched file level).any (olderOverlap file)

/-- `files_expired_before`: outlived the ttl, no range tombstone, hides no older file. -/
def filesExpiredBefore (v : Version) (cutoff : ℕ) : List FileMetadata :=
  v.allFiles.filter fun f =>
    !(f.maxWriteTimeMs = 0) && !(cutoff < f.maxWriteTimeMs) && f.numRangeTombstones = 0 &&
      !(v.olderFileOverlaps f)

/-- What sends the search past an older overlapping file: one without entries follows it in its
level, and it holds the empty key. -/
structure Disturbed (v : Version) (file other : FileMetadata) : Prop where
  level : other.level ≠ 0
  emptyKey : other.smallestKey = [] ∧ other.numEntries ≠ 0
  bare : ∃ t ∈ v.filesAt other.level, t.numEntries = 0 ∧ other.fileNumber < t.fileNumber
  start : file.smallestKey ≠ []

/-- No file is sent past an older one it overlaps. -/
def Undisturbed (v : Version) : Prop :=
  ∀ f ∈ v.allFiles, ∀ g ∈ v.allFiles, olderOverlap f g = true → ¬ v.Disturbed f g

end Version

namespace Db

/-- The edit that drops what was last written by `cutoff`. -/
def expireBefore (db : Db) (cutoff : ℕ) : Db :=
  db.applyEdit { deleted := (db.version.filesExpiredBefore cutoff).map fun f =>
    ⟨f.level, f.fileNumber⟩ }

variable {db : Db} {cutoff : ℕ}

/-- The files that stay, as a lookup asks them. -/
def kept (db : Db) (cutoff : ℕ) : List FileMetadata :=
  (walk db.version db.version.numLevels).filter (· ∉ db.version.filesExpiredBefore cutoff)

/-- The file is the first of the list to tell of the key. -/
def Answers (db : Db) (files : List FileMetadata) (f : FileMetadata) (k : Key) : Prop :=
  files.find? (fun g => ((db.sstOf g).tells k).isSome) = some f

section Answers

variable {files : List FileMetadata} {f g : FileMetadata} {k : Key}

theorem Answers.mem (h : db.Answers files f k) : f ∈ files := mem_of_find?_eq_some h

theorem Answers.tells (h : db.Answers files f k) : (db.sstOf f).tells k ≠ none := by
  have := List.find?_some h
  rwa [Option.isSome_iff_ne_none] at this

theorem Answers.findSome? (h : db.Answers files f k) :
    files.findSome? (fun g => (db.sstOf g).tells k) = (db.sstOf f).tells k := by
  rw [Newest.findSome?_eq_bind_find?]
  unfold Answers at h
  rw [h]
  rfl

theorem mem_filesExpiredBefore {v : Version} (h : f ∈ v.filesExpiredBefore cutoff) :
    f ∈ v.allFiles ∧ f.numRangeTombstones = 0 ∧ v.olderFileOverlaps f = false := by
  simp only [Version.filesExpiredBefore, mem_filter, Bool.and_eq_true, decide_eq_true_eq,
    Bool.not_eq_true'] at h
  exact ⟨h.1, h.2.1.2, h.2.2⟩

theorem Tidy.older_of_answers (h : Tidy db)
    (hf : db.Answers (walk db.version db.version.numLevels) f k)
    (hg : g ∈ walk db.version db.version.numLevels) (hne : g ≠ f)
    (hgk : (db.sstOf g).tells k ≠ none) :
    f.level < g.level ∨ g.level = f.level ∧ g.fileNumber < f.fileNumber := by
  obtain ⟨-, pre, post, hwalk, hsilent⟩ := List.find?_eq_some_iff_append.1 hf
  obtain ⟨lf, hlf⟩ := mem_walk hf.mem
  obtain ⟨lg, hlg⟩ := mem_walk hg
  have hpost : g ∈ post := by
    rw [hwalk] at hg
    rcases mem_append.1 hg with hpre | hrest
    · have := hsilent g hpre
      rw [Bool.not_eq_true', Option.isSome_eq_false_iff, Option.isNone_iff_eq_none] at this
      exact absurd this hgk
    · exact (mem_cons.1 hrest).resolve_left hne
  have hdescends := h.descends_walk db.version.numLevels
  rw [hwalk] at hdescends
  rcases (pairwise_cons.1 (pairwise_append.1 hdescends).2.1).1 g hpost with hlt | heq
  · exact .inl hlt
  · refine .inr ⟨heq.1.symm, ?_⟩
    have hlevel : lg = lf := by
      rw [← h.levelOf lf f hlf, ← h.levelOf lg g hlg]
      exact heq.1.symm
    subst hlevel
    rcases Nat.eq_zero_or_pos f.level with h0 | hpos
    · exact lt_of_le_of_ne (heq.2 h0) fun hnum => hne (h.unique lg lg g hlg f hlf hnum)
    · -- below level 0 at most one file tells of the key
      rw [h.levelOf lg f hlf] at hpos
      exact absurd (h.tells_agree (Nat.ne_of_gt hpos) hlg hlf hgk hf.tells) hne

theorem Stored.span_of_live (hf : db.Stored f) {v : Value}
    (hk : (db.sstOf f).tells k = some (.live v)) : f.smallestKey ≤ k ∧ k ≤ f.largestKey := by
  obtain ⟨e, hmem, rfl⟩ := Sst.exists_entry_of_live hk
  rw [hf.describes.smallestKey, hf.describes.largestKey]
  exact ⟨hf.wellFormed.smallestKey_le hmem, hf.wellFormed.le_largestKey hmem⟩

/-- A value that the answering file hides is one of an older overlapping file. -/
theorem Tidy.olderOverlap_of_live (h : Tidy db)
    (hf : db.Answers (walk db.version db.version.numLevels) f k) (hranges : f.numRangeTombstones = 0)
    (hg : g ∈ walk db.version db.version.numLevels) (hne : g ≠ f) {v : Value}
    (hv : (db.sstOf g).tells k = some (.live v)) : Version.olderOverlap f g = true := by
  obtain ⟨lf, hlf⟩ := mem_walk hf.mem
  obtain ⟨lg, hlg⟩ := mem_walk hg
  have hfs := h.stored lf f hlf
  have hwithin := hfs.describes.within_of_tells hfs.wellFormed hf.tells
  rw [FileMetadata.effectiveSmallest, FileMetadata.effectiveLargest, if_pos hranges,
    if_pos hranges] at hwithin
  have hspan := (h.stored lg g hlg).span_of_live hv
  have htells : (db.sstOf g).tells k ≠ none := by simp [hv]
  simp only [Version.olderOverlap, Bool.and_eq_true, Bool.or_eq_true, decide_eq_true_eq,
    Bool.not_eq_true', decide_eq_false_iff_not, not_lt]
  exact ⟨⟨h.older_of_answers hf hg hne htells, hwithin.1.trans hspan.2⟩, hspan.1.trans hwithin.2⟩

end Answers

/-! ### Where the search goes wrong -/

theorem Tidy.lt_stop (h : Tidy db) {level i : ℕ} (hl : level ≠ 0) {last : Key} {g : FileMetadata}
    (hi : (db.version.filesAt level)[i]? = some g) (hlast : g.smallestKey ≤ last) :
    i < Search.lowerBound (fun f => !(last < f.smallestKey)) (db.version.filesAt level) := by
  by_contra hge
  obtain ⟨hlen, hgi⟩ := List.getElem?_eq_some_iff.1 hi
  set stop := Search.lowerBound (fun f => !(last < f.smallestKey)) (db.version.filesAt level)
  have hstop : stop < (db.version.filesAt level).length := by omega
  have hbeyond := Search.lowerBound_stop (List.getElem?_eq_getElem hstop)
  simp only [Bool.not_eq_false', decide_eq_true_eq] at hbeyond
  refine absurd hbeyond (not_lt.2 (le_trans ?_ hlast))
  rcases Nat.eq_or_lt_of_le (not_lt.1 hge) with heq | hlt
  · simp only [heq, hgi, le_refl]
  · have := pairwise_iff_getElem.1 (h.keyOrder level hl) stop i hstop hlen hlt
    rw [hgi] at this
    exact this.elim le_of_lt fun heq => heq.1.le

theorem Tidy.disturbed (h : Tidy db) {f g : FileMetadata} {level : ℕ}
    (hg : g ∈ db.version.filesAt level) (hover : Version.olderOverlap f g = true)
    (hmissed : db.version.olderFileOverlaps f = false) : db.version.Disturbed f g := by
  have hlevel := h.levelOf level g hg
  have hunsearched : g ∉ db.version.searched f level := by
    intro hin
    simp only [Version.olderFileOverlaps, any_eq_false, mem_range, Bool.and_eq_true,
      decide_eq_true_eq, any_eq_true, not_and, not_exists] at hmissed
    refine hmissed level ?_ ?_ g hin hover
    · by_contra hge
      rw [Version.filesAt, List.getElem?_eq_none (not_lt.1 hge)] at hg
      cases hg
    · simp only [Version.olderOverlap, Bool.and_eq_true, Bool.or_eq_true,
        decide_eq_true_eq] at hover
      rcases hover.1.1 with hlt | heq
      · exact hlevel ▸ hlt.le
      · exact hlevel ▸ heq.1.ge
  have hl : level ≠ 0 := by
    rintro rfl
    exact hunsearched (by simpa [Version.searched] using hg)
  simp only [Version.olderOverlap, Bool.and_eq_true, Bool.not_eq_true', decide_eq_false_iff_not,
    not_lt] at hover
  -- the search skips `g` from below, since a file after it ends before `f` starts
  obtain ⟨i, hi⟩ := List.getElem?_of_mem hg
  have hstop := h.lt_stop hl hi hover.2
  have hskip : i < Search.lowerBound (fun g => g.largestKey < f.smallestKey)
      (db.version.filesAt level) := by
    by_contra hge
    refine hunsearched ?_
    unfold Version.searched Version.dataSpanIndexRange
    rw [if_neg hl]
    simp only
    rw [if_neg (by omega)]
    refine mem_iff_getElem?.2 ⟨i - Search.lowerBound (fun g => g.largestKey < f.smallestKey)
      (db.version.filesAt level), ?_⟩
    rw [List.getElem?_drop, List.getElem?_take_of_lt (by omega), ← hi]
    congr 1
    omega
  obtain ⟨j, t, hij, hj, ht⟩ :=
    Search.exists_of_skipped hi (by simpa using hover.1.2) hskip
  rw [decide_eq_true_eq] at ht
  have htmem := mem_of_getElem? hj
  obtain ⟨hilen, rfl⟩ := List.getElem?_eq_some_iff.1 hi
  obtain ⟨hjlen, rfl⟩ := List.getElem?_eq_some_iff.1 hj
  have horder := pairwise_iff_getElem.1 (h.keyOrder level hl) i j hilen hjlen hij
  have hne := pairwise_iff_getElem.1 (h.nodup level) i j hilen hjlen hij
  set g := (db.version.filesAt level)[i]
  set t := (db.version.filesAt level)[j]
  have hgs := h.stored level g hg
  have hts := h.stored level t htmem
  have hstart : f.smallestKey ≠ [] := fun hnil => not_lt_nil _ (hnil ▸ ht)
  have hentries : g.numEntries ≠ 0 := by
    intro hbare
    rw [(hgs.spans_of_bare hbare).2] at hover
    exact hstart (le_antisymm hover.1.2 (ByteOrder.nil_le _))
  have hbare : t.numEntries = 0 := by
    by_contra hdata
    rcases (h.levelSpans hl).dataDisjoint g hg t htmem hne hentries hdata with hlt | hlt
    · exact absurd ((hover.1.2.trans_lt hlt).trans_le hts.smallest_le_largest) (not_lt.2 ht.le)
    · have hle : g.smallestKey ≤ t.smallestKey := horder.elim le_of_lt fun heq => heq.1.le
      exact absurd (hle.trans hts.smallest_le_largest) (not_le.2 hlt)
  have hkeys := (hts.spans_of_bare hbare).1
  unfold KeyOrder at horder
  rw [hkeys] at horder
  have horder := horder.resolve_left (not_lt_nil _)
  refine ⟨hlevel ▸ hl, ⟨horder.1, hentries⟩, ⟨t, hlevel ▸ htmem, hbare, ?_⟩, hstart⟩
  exact lt_of_le_of_ne horder.2 fun hnum => hne (h.unique level level g hg t htmem hnum)

/-! ### Expiry and lookups -/

theorem Tidy.fileAnswer_expireBefore (h : Tidy db) (cutoff : ℕ) (k : Key) :
    (db.expireBefore cutoff).fileAnswer k =
      (db.kept cutoff).findSome? fun f => (db.sstOf f).tells k :=
  h.fileAnswer_delete (fun _ hd => (mem_filesExpiredBefore hd).1) k

theorem Answers.kept {f : FileMetadata} {k : Key}
    (hf : db.Answers (walk db.version db.version.numLevels) f k)
    (hstay : f ∉ db.version.filesExpiredBefore cutoff) : db.Answers (db.kept cutoff) f k := by
  obtain ⟨htells, pre, post, hwalk, hsilent⟩ := List.find?_eq_some_iff_append.1 hf
  refine List.find?_eq_some_iff_append.2
    ⟨htells, pre.filter (· ∉ db.version.filesExpiredBefore cutoff),
      post.filter (· ∉ db.version.filesExpiredBefore cutoff), ?_, ?_⟩
  · rw [Db.kept, hwalk, filter_append, filter_cons_of_pos (by simpa using hstay)]
  · exact fun g hg => hsilent g (mem_of_mem_filter hg)

theorem Tidy.get_expireBefore (h : Tidy db) {options : Options}
    (hopen : db.readsAreBlocked options = false) (cutoff : ℕ) (k : Key) :
    (db.expireBefore cutoff).get options k =
      if db.version.truncated k then .error .notFound
      else lookupResult ((db.mem.tells k).or ((db.imm.bind fun m => m.tells k).or
        ((db.kept cutoff).findSome? fun f => (db.sstOf f).tells k))) := by
  have hfront : SameFront db (db.expireBefore cutoff) := db.sameFront_applyEdit rfl
  have htidy : Tidy (db.expireBefore cutoff) := h.delete rfl
  rw [htidy.get_eq_answer ((hfront.readsAreBlocked_eq options).trans hopen), answer,
    h.fileAnswer_expireBefore, hfront.mem, hfront.imm, Version.truncated, hfront.truncationPoint]
  rfl

theorem Tidy.get_eq_walk (h : Tidy db) {options : Options}
    (hopen : db.readsAreBlocked options = false) (k : Key) :
    db.get options k =
      if db.version.truncated k then .error .notFound
      else lookupResult ((db.mem.tells k).or ((db.imm.bind fun m => m.tells k).or
        ((walk db.version db.version.numLevels).findSome? fun f => (db.sstOf f).tells k))) := by
  rw [h.get_eq_answer hopen, answer, db.fileAnswer_eq_walk le_rfl]

/-- If the answering file stays, so does its answer; if it expires, no value of the key stays. -/
theorem Tidy.lookup_kept (h : Tidy db) (hlevels : db.version.Undisturbed) (k : Key) :
    ((db.kept cutoff).findSome? fun f => (db.sstOf f).tells k) =
        (walk db.version db.version.numLevels).findSome? (fun f => (db.sstOf f).tells k) ∨
      ∀ v, ((db.kept cutoff).findSome? fun f => (db.sstOf f).tells k) ≠ some (.live v) := by
  cases hfind : (walk db.version db.version.numLevels).find?
      fun g => ((db.sstOf g).tells k).isSome with
  | none =>
    right
    intro v hv
    obtain ⟨g, hg, hgk⟩ := exists_of_findSome?_eq_some hv
    simpa [hgk] using List.find?_eq_none.1 hfind g (mem_of_mem_filter hg)
  | some f =>
    have hf : db.Answers (walk db.version db.version.numLevels) f k := hfind
    by_cases hexpired : f ∈ db.version.filesExpiredBefore cutoff
    · right
      intro v hv
      obtain ⟨g, hg, hgk⟩ := exists_of_findSome?_eq_some hv
      obtain ⟨hgwalk, hstay⟩ := mem_filter.1 hg
      obtain ⟨hfiles, hranges, hmissed⟩ := mem_filesExpiredBefore hexpired
      have hne : g ≠ f := fun heq => of_decide_eq_true hstay (heq ▸ hexpired)
      have hover := h.olderOverlap_of_live hf hranges hgwalk hne hgk
      obtain ⟨level, hlevel⟩ := mem_walk hgwalk
      exact hlevels f hfiles g (Version.mem_allFiles.2 ⟨level, hlevel⟩) hover
        (h.disturbed hlevel hover hmissed)
    · exact .inl ((hf.kept hexpired).findSome?.trans hf.findSome?.symm)

end Db

/-- Three keys, one of them empty, settle at level 2. -/
def oldScript : List (Db → Op) :=
  [fun _ => .write [.put [] [9], .put [3] [30], .put [7] [70]], fun _ => .sealMemtable,
    fun _ => .runOneFlush, moveDown 0, moveDown 1]

/-- One of them is removed. -/
def removalScript : List (Db → Op) :=
  [fun _ => .remove [3], fun _ => .sealMemtable, fun _ => .runOneFlush]

/-- A removal kept for the older file it hides. -/
def removing : Db × List Event :=
  play plainOptions { nowMs := 2 } removalScript
    (play plainOptions { nowMs := 1 } oldScript ({}, []))

theorem run_removing : Run Compaction.Admissible plainOptions removing.1 removing.2 :=
  (Run.empty.play { nowMs := 1 } oldScript (by decide)).play { nowMs := 2 } removalScript (by decide)

/-- A key is overwritten, and a range delete settles beside it. -/
def freshScript : List (Db → Op) :=
  [fun _ => .put [7] [71], fun _ => .sealMemtable, fun _ => .runOneFlush, moveDown 0,
    fun db => .runCompaction
      { level := 1, outputLevel := 2, inputs := db.version.filesAt 1,
        overlaps := db.version.filesAt 2 },
    fun _ => .deleteRange [8] [9], fun _ => .sealMemtable, fun _ => .runOneFlush, moveDown 0,
    moveDown 1]

/-- A removal expires before the value it hides. -/
def expiring : Db × List Event :=
  play plainOptions { nowMs := 10 } freshScript removing

end ElysiumKV
