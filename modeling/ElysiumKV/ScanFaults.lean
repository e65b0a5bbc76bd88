import ElysiumKV.ScanReads

/-!
# Scans while reads fail

A child that fails looks exhausted, and the merge goes on with older ones. It yields live pairs
only, unless a failing file hides what the first level that tells of a key says and another has a
value of it. A scan that ends with `Ok` is complete.
-/

namespace ElysiumKV

open Merge List ScanStream

/-- Opening the file or reading a block of it fails. -/
def Faults.fails (faults : Faults) (f : FileMetadata) : Bool :=
  (faults.opening f).isSome || (faults.reading f).isSome

theorem Faults.fails_eq_false {faults : Faults} {f : FileMetadata} :
    faults.fails f = false ↔ faults.opening f = none ∧ faults.reading f = none := by
  simp [Faults.fails]

namespace Db

section Cut

variable {κ : Type}

/-- A child when reads fail: a part of its entries, then a status unless all are there, and its
ranges unless it did not open. -/
structure CutOf (whole cut : Child ScanStream κ) : Prop where
  ahead : ∃ lost, cursor.ahead whole.stream = cursor.ahead cut.stream ++ lost ∧
    (lost ≠ [] → cut.stream.whole.2 ≠ .ok)
  covers : (∀ k, cut.covers k = whole.covers k) ∨
    cut.stream.whole.1 = [] ∧ cut.stream.whole.2 ≠ .ok ∧ ∀ k, cut.covers k = false

theorem CutOf.refl (c : Child ScanStream κ) : CutOf c c :=
  ⟨⟨[], (append_nil _).symm, fun h => absurd rfl h⟩, .inl fun _ => rfl⟩

theorem cutShort_spec (fault : Option (ℕ × Failure)) (entries : List Entry) :
    ∃ lost, entries = (cutShort fault entries).1 ++ lost ∧
      (lost ≠ [] → (cutShort fault entries).2 ≠ .ok) := by
  cases fault with
  | none => exact ⟨[], (append_nil _).symm, fun h => absurd rfl h⟩
  | some fault => exact ⟨entries.drop fault.1, (take_append_drop _ _).symm, fun _ => fault.2.2⟩

variable [LinearOrder κ] {dir : Key ≃ κ} {reverse : Bool} {target : Option Key}
  {options : Options} {faults : Faults} {db : Db}

theorem cutOf_fileChild (f : FileMetadata) :
    CutOf (db.fileChild options {} dir reverse target f)
      (db.fileChild options faults dir reverse target f) := by
  unfold fileChild readerFor
  cases faults.opening f with
  | some status => exact ⟨⟨_, rfl, fun _ => status.2⟩, .inr ⟨rfl, status.2, fun _ => rfl⟩⟩
  | none => cases db.objects f.fileNumber with
    | none => exact .refl _
    | some sst => exact ⟨cutShort_spec _ _, .inl fun _ => rfl⟩

theorem readable_ok (start : List Entry → List Entry) (entries : List Entry)
    (files : List (Except Failure OpenFile)) :
    readable start (.ok ⟨entries, none⟩ :: files) =
      match start entries with
      | [] => readable start files
      | e :: rest =>
        (e :: rest ++ (readable id files).1, (readable id files).2) := by
  rw [readable]
  simp only [cutShort]
  cases start entries <;> rfl

theorem readable_starts (start : List Entry → List Entry) (entries : List Entry)
    (files : List (Except Failure OpenFile)) :
    ∃ more, (readable start (.ok ⟨entries, none⟩ :: files)).1 = start entries ++ more := by
  rw [readable_ok]
  cases start entries with
  | nil => exact ⟨_, rfl⟩
  | cons e rest => exact ⟨_, rfl⟩

theorem readable_fault (start : List Entry → List Entry) (entries : List Entry) (n : ℕ)
    (status : Failure) (files : List (Except Failure OpenFile)) :
    readable start (.ok ⟨entries, some (n, status)⟩ :: files) =
      ((start entries).take n, status.1) := by
  obtain ⟨status, hne⟩ := status
  rw [readable]
  simp only [cutShort]
  cases (start entries).take n <;> cases status <;> first | rfl | exact absurd rfl hne

theorem openFile_eq {f : FileMetadata} {sst : Sst} (hopening : faults.opening f = none)
    (hobject : db.objects f.fileNumber = some sst) :
    db.openFile options faults reverse f = .ok ⟨orient reverse sst.entries, faults.reading f⟩ := by
  simp [openFile, readerFor, hopening, hobject, Except.map]

theorem readable_cut (start : List Entry → List Entry) (files : List FileMetadata) :
    ∃ lost, (readable start (files.map (db.openFile options {} reverse))).1 =
        (readable start (files.map (db.openFile options faults reverse))).1 ++ lost ∧
      (lost ≠ [] → (readable start
        (files.map (db.openFile options faults reverse))).2 ≠ .ok) := by
  induction files generalizing start with
  | nil => exact ⟨[], rfl, fun h => absurd rfl h⟩
  | cons f files ih =>
    rw [map_cons, map_cons]
    cases hopening : faults.opening f with
    | some status =>
      have hfaulty : db.openFile options faults reverse f = .error status := by
        simp [openFile, readerFor, hopening, Except.map]
      rw [hfaulty]
      exact ⟨_, rfl, fun _ => status.2⟩
    | none => cases hobject : db.objects f.fileNumber with
      | none =>
        have hsame : db.openFile options faults reverse f = db.openFile options {} reverse f := by
          simp [openFile, readerFor, hopening, hobject, Except.map]
        obtain ⟨status, hstatus⟩ : ∃ status, db.openFile options {} reverse f = .error status := by
          simp only [openFile, readerFor, hobject]
          exact ⟨_, rfl⟩
        rw [hsame, hstatus]
        exact ⟨[], rfl, fun h => absurd rfl h⟩
      | some sst =>
        have hwhole : db.openFile options {} reverse f = .ok ⟨orient reverse sst.entries, none⟩ :=
          openFile_eq rfl hobject
        rw [hwhole, openFile_eq hopening hobject]
        cases faults.reading f with
        | none =>
          rw [readable_ok, readable_ok]
          cases start (orient reverse sst.entries) with
          | nil => exact ih start
          | cons e rest =>
            obtain ⟨lost, hlost, hstatus⟩ := ih id
            exact ⟨lost, by simp only [hlost, append_assoc], hstatus⟩
        | some fault =>
          obtain ⟨more, hmore⟩ := readable_starts start (orient reverse sst.entries)
            (files.map (db.openFile options {} reverse))
          rw [readable_fault]
          refine ⟨(start (orient reverse sst.entries)).drop fault.1 ++ more, ?_, fun _ => fault.2.2⟩
          rw [hmore, ← append_assoc, take_append_drop]

theorem cutOf_concatChild (files : List FileMetadata) :
    CutOf (db.concatChild options {} dir reverse target files)
      (db.concatChild options faults dir reverse target files) := by
  refine ⟨?_, .inl fun _ => rfl⟩
  unfold concatChild
  simp only [cursor, whole_enterFrom]
  exact readable_cut _ _

variable (options faults db dir reverse target) in
theorem cutOf_levelChildren (lower upper : Key) (level : ℕ) :
    List.Forall₂ CutOf (db.levelChildren options {} dir reverse target lower upper level)
      (db.levelChildren options faults dir reverse target lower upper level) := by
  unfold levelChildren
  split_ifs
  · cases db.version.overlappingIndexRange level lower upper with
    | nil => exact .nil
    | cons f files => exact .cons (cutOf_concatChild _) .nil
  · rw [forall₂_map_left_iff, forall₂_map_right_iff, forall₂_same]
    exact fun f _ => cutOf_fileChild f

variable (options faults db dir reverse target) in
theorem cutOf_scanChildren (lower upper : Key) :
    List.Forall₂ CutOf (db.scanChildren options {} dir reverse target lower upper)
      (db.scanChildren options faults dir reverse target lower upper) := by
  unfold scanChildren
  refine rel_append (forall₂_same.2 fun _ _ => .refl _) ?_
  refine rel_flatMap (R := Eq) (forall₂_same.2 fun _ _ => rfl) ?_
  rintro level _ rfl
  exact cutOf_levelChildren dir reverse target options faults db lower upper level

/-! ### What is left of a scan -/

variable {children cut : List (Child ScanStream κ)}

theorem scannable_of_cutOf (h : Scannable dir target children)
    (hcut : List.Forall₂ CutOf children cut) : Scannable dir target cut := by
  constructor
  · intro d hd
    obtain ⟨c, hc, hcd⟩ := exists_of_mem_right hcut hd
    obtain ⟨lost, hlost, -⟩ := hcd.ahead
    have hs := h.ordered c hc
    rw [hlost] at hs
    exact (pairwise_append.1 hs).1
  · intro d hd e he
    obtain ⟨c, hc, hcd⟩ := exists_of_mem_right hcut hd
    obtain ⟨lost, hlost, -⟩ := hcd.ahead
    refine h.past c hc e ?_
    rw [hlost]
    exact mem_append_left _ he

/-- Read on without a failure, up to what is out of range. -/
def Passed (out : Key → Bool) (c : Child ScanStream κ) : Prop :=
  ∃ later : ScanStream, ReadOn c.stream later ∧ later.status = .ok ∧
    ∀ e ∈ cursor.ahead later, out e.key = true

variable {k : Key}

theorem CutOf.speaks_eq {out : Key → Bool}
    (hout : ∀ a b, dir a < dir b → out a = true → out b = true) {whole cut : Child ScanStream κ}
    (h : CutOf whole cut) (hpassed : Passed out cut)
    (hs : SortedMap.Sorted (scanKey dir) (cursor.ahead whole.stream))
    (hk : out k = false) :
    speaks cursor (scanKey dir) (dir k) cut =
      speaks cursor (scanKey dir) (dir k) whole := by
  obtain ⟨later, ⟨n, hn⟩, hok, hrange⟩ := hpassed
  obtain ⟨lost, hlost, hstatus⟩ := h.ahead
  rw [later.status_eq, hn] at hok
  have hlater : cursor.ahead later = (cursor.ahead cut.stream).drop n := congrArg Prod.fst hn
  -- either the child was read to its end, or something of it is still ahead
  have hcovers : ∀ k, cut.covers k = whole.covers k := by
    refine h.covers.resolve_right fun hfailed => ?_
    rw [hfailed.1, drop_nil, if_pos rfl] at hok
    exact hfailed.2.1 hok
  have hfind : SortedMap.find (scanKey dir) (dir k) lost = none := by
    rw [SortedMap.find_eq_none_iff]
    intro f hf hfk
    cases hrest : (cursor.ahead cut.stream).drop n with
    | nil =>
      have hnil : cut.stream.whole.1.drop n = [] := hrest
      rw [if_pos hnil] at hok
      exact hstatus (ne_nil_of_mem hf) hok
    | cons e rest =>
      have he : e ∈ (cursor.ahead cut.stream).drop n := by simp [hrest]
      rw [hlost] at hs
      have hlt := (pairwise_append.1 hs).2.2 e (mem_of_mem_drop he) f hf
      have hfout := hout _ _ hlt (hrange e (hlater ▸ he))
      rw [dir.injective hfk, hk] at hfout
      cases hfout
  unfold Merge.speaks
  rw [hlost, SortedMap.find_append, hfind, Option.or_none, hcovers]

theorem told_eq_of_passed {out : Key → Bool}
    (hout : ∀ a b, dir a < dir b → out a = true → out b = true)
    (hcut : List.Forall₂ CutOf children cut) (hpassed : ∀ c ∈ cut, Passed out c)
    (hord : Ordered cursor (scanKey dir) children) (hk : out k = false) :
    told dir cut k = told dir children k := by
  unfold told
  congr 1
  induction hcut with
  | nil => rfl
  | @cons c d children cut hcd _ ih =>
    have hspeaks := hcd.speaks_eq hout (hpassed d (.head _)) (hord c (.head _)) hk
    have hrest := ih (fun c hc => hpassed c (.tail _ hc)) fun c hc => hord c (.tail _ hc)
    rw [List.findSome?_cons, List.findSome?_cons, hspeaks, hrest]

variable {lower upper : Key} {hasUpper : Bool}

theorem runScan_of_ok (hdir : Directs dir reverse)
    (h : Scannable dir (scanTarget reverse lower upper hasUpper) children)
    (hcut : List.Forall₂ CutOf children cut)
    (hok : (runScan dir reverse lower upper hasUpper cut).2 = .ok) :
    (runScan dir reverse lower upper hasUpper cut).1 =
      (runScan dir reverse lower upper hasUpper children).1 := by
  have hscannable := scannable_of_cutOf h hcut
  obtain ⟨final, hstatus, hfinal, hrange⟩ :=
    exists_final hscannable.ordered hdir lower upper hasUpper
  rw [hstatus, scanStatus_eq_ok_iff] at hok
  have hpassed : ∀ c ∈ cut, Passed (outOfRange reverse lower upper hasUpper) c := by
    intro c hc
    obtain ⟨d, hd, hread⟩ := exists_of_mem_left hfinal hc
    exact ⟨d.stream, hread, hok d hd, hrange d hd⟩
  refine eq_of_precedes (runScan_spec hscannable hdir).1 (runScan_spec h hdir).1 fun pair => ?_
  rw [mem_runScan hscannable hdir, mem_runScan h hdir]
  refine and_congr_right fun hk => ?_
  rw [told_eq_of_passed (outOfRange_mono hdir) hcut hpassed h.ordered
    ((inBounds_iff hdir).1 hk).2.1]

theorem scanWith_of_open (hopen : db.readsAreBlocked options = false) (lower upper : Key)
    (hasUpper : Bool) :
    db.scanWith options faults dir reverse lower upper hasUpper =
      runScan dir reverse (db.clampScan lower) upper hasUpper
        (db.scanChildren options faults dir reverse
          (scanTarget reverse (db.clampScan lower) upper hasUpper) (db.clampScan lower) upper) := by
  unfold scanWith
  rw [hopen, if_neg Bool.false_ne_true]

theorem Tidy.mem_scanWith (h : Tidy db) (hopen : db.readsAreBlocked options = false)
    (hdir : Directs dir reverse) {v : Value} :
    (k, v) ∈ (db.scanWith options faults dir reverse lower upper hasUpper).1 ↔
      (InBounds lower upper hasUpper k ∧ db.version.truncated k = false) ∧
        told dir (db.scanChildren options faults dir reverse
          (scanTarget reverse (db.clampScan lower) upper hasUpper) (db.clampScan lower) upper) k =
            some (.live v) := by
  have hscannable := h.scannable_scanChildren options hdir
    (scanTarget reverse (db.clampScan lower) upper hasUpper) (db.clampScan lower) upper
  rw [scanWith_of_open hopen, mem_runScan (scannable_of_cutOf hscannable
    (cutOf_scanChildren dir reverse _ options faults db _ _)) hdir, inBounds_clampScan]

theorem Tidy.scanWith_of_ok (h : Tidy db) (hdir : Directs dir reverse)
    (hok : (db.scanWith options faults dir reverse lower upper hasUpper).2 = .ok) :
    (db.scanWith options faults dir reverse lower upper hasUpper).1 =
      (db.scanWith options {} dir reverse lower upper hasUpper).1 := by
  cases hopen : db.readsAreBlocked options with
  | true => simp [scanWith, hopen]
  | false =>
    rw [scanWith_of_open hopen] at hok ⊢
    rw [scanWith_of_open hopen]
    exact runScan_of_ok hdir (h.scannable_scanChildren options hdir _ _ _)
      (cutOf_scanChildren dir reverse _ options faults db _ _) hok

end Cut

section Doubt

variable {κ : Type} [LinearOrder κ] {dir : Key ≃ κ} {reverse : Bool} {target : Option Key}
  {options : Options} {faults : Faults} {db : Db} {k : Key}

theorem CutOf.silent {whole cut : Child ScanStream κ} (h : CutOf whole cut)
    (hsilent : speaks cursor (scanKey dir) (dir k) whole = none) :
    speaks cursor (scanKey dir) (dir k) cut = none := by
  obtain ⟨lost, hlost, -⟩ := h.ahead
  unfold Merge.speaks at hsilent ⊢
  rw [hlost, SortedMap.find_append] at hsilent
  cases hfind : SortedMap.find (scanKey dir) (dir k) (cursor.ahead cut.stream) with
  | some e => simp [hfind] at hsilent
  | none =>
    rcases h.covers with hcovers | ⟨-, -, hcovers⟩
    · rw [hfind, Option.none_or] at hsilent
      rw [hcovers]
      cases hrest : SortedMap.find (scanKey dir) (dir k) lost with
      | some e => simp [hrest] at hsilent
      | none => simpa [hrest] using hsilent
    · simp [hcovers]

theorem CutOf.element {whole cut : Child ScanStream κ} (h : CutOf whole cut) {e : Entry}
    (hcut : speaks cursor (scanKey dir) (dir k) cut = some (some e)) :
    speaks cursor (scanKey dir) (dir k) whole = some (some e) := by
  obtain ⟨lost, hlost, -⟩ := h.ahead
  unfold Merge.speaks at hcut ⊢
  rw [hlost, SortedMap.find_append]
  cases hfind : SortedMap.find (scanKey dir) (dir k) (cursor.ahead cut.stream) with
  | some f => simpa [hfind] using hcut
  | none =>
    simp only [hfind] at hcut
    split_ifs at hcut
    cases hcut

theorem fileChild_eq {f : FileMetadata} (hf : faults.fails f = false) :
    db.fileChild options faults dir reverse target f =
      db.fileChild options {} dir reverse target f := by
  obtain ⟨hopening, hreading⟩ := Faults.fails_eq_false.1 hf
  simp [fileChild, readerFor, hopening, hreading]

theorem levelChildren_eq {level : ℕ} (hlevel : ∀ f ∈ db.version.filesAt level, faults.fails f = false)
    (lower upper : Key) :
    db.levelChildren options faults dir reverse target lower upper level =
      db.levelChildren options {} dir reverse target lower upper level := by
  have hopen : ∀ f ∈ db.version.filesAt level,
      db.openFile options faults reverse f = db.openFile options {} reverse f := by
    intro f hf
    obtain ⟨hopening, hreading⟩ := Faults.fails_eq_false.1 (hlevel f hf)
    simp [openFile, readerFor, hopening, hreading]
  unfold levelChildren
  split_ifs
  · cases hfiles : db.version.overlappingIndexRange level lower upper with
    | nil => rfl
    | cons f files =>
      have hmem : ∀ g ∈ orient reverse (f :: files), g ∈ db.version.filesAt level := fun g hg =>
        mem_of_mem_overlappingIndexRange (hfiles ▸ mem_orient.1 hg)
      simp only [concatChild, List.cons.injEq, Child.mk.injEq, and_true]
      congr 1
      refine map_congr_left fun g hg => hopen g (hmem g ?_)
      cases target with
      | none => exact hg
      | some t => exact (dropWhile_sublist _).subset hg
  · exact map_congr_left fun f hf => fileChild_eq (hlevel f (mem_of_mem_filter hf))

variable (db) in
/-- The first level whose files tell of the key. -/
def firstTelling (k : Key) : Option ℕ :=
  (List.range db.version.numLevels).find? fun level => (db.levelAnswer k level).isSome

variable (db faults) in
/-- It may keep from a scan what its level tells: any failing file below level 0, at level 0 one
that tells of the key. -/
def Obscures (level : ℕ) (k : Key) (f : FileMetadata) : Prop :=
  f ∈ db.version.filesAt level ∧ faults.fails f = true ∧ (level = 0 → (db.sstOf f).tells k ≠ none)

variable {lower upper : Key}

theorem Tidy.speaks_levelChildren (h : Tidy db) (hdir : Directs dir reverse)
    (htarget : ∀ t ∈ target, ¬ dir k < dir t) {level : ℕ}
    (hclear : ∀ f, ¬ db.Obscures faults level k f) :
    (db.levelChildren options faults dir reverse target lower upper level).findSome?
        (speaks cursor (scanKey dir) (dir k)) =
      (db.levelChildren options {} dir reverse target lower upper level).findSome?
        (speaks cursor (scanKey dir) (dir k)) := by
  by_cases hlevel : level = 0
  · -- the files of level 0 are children of their own
    subst hlevel
    have hslow : ¬ (0 < 0 ∧ db.version.carriesRanges 0 = false) := fun hpos => hpos.1.false
    simp only [levelChildren, if_neg hslow, List.findSome?_map]
    refine Newest.findSome?_congr fun f hf => ?_
    have hmem := mem_of_mem_filter hf
    rw [Function.comp_apply, Function.comp_apply]
    cases hfails : faults.fails f with
    | false => rw [fileChild_eq hfails]
    | true =>
      have htells : (db.sstOf f).tells k = none := by
        by_contra htells
        exact hclear f ⟨hmem, hfails, fun _ => htells⟩
      have hstored := h.stored 0 f hmem
      have hreads : ReadsFrom dir reverse target (db.fileChild options {} dir reverse target f)
        (db.sstOf f) := readsFrom_fileChild hstored
      have hsilent := hreads.speaks hdir hstored.wellFormed.sorted hstored.wellFormed.tidy htarget
      rw [htells, Option.map_eq_none_iff] at hsilent
      rw [hsilent, (cutOf_fileChild f).silent hsilent]
  · rw [levelChildren_eq fun f hf => ?_]
    by_contra hfails
    exact hclear f ⟨hf, by simpa using hfails, fun h0 => absurd h0 hlevel⟩

variable (options faults db) in
theorem told_eq_or (hdir : Directs dir reverse) (htarget : ∀ t ∈ target, ¬ dir k < dir t)
    (lower upper : Key) :
    told dir (db.scanChildren options faults dir reverse target lower upper) k =
      (db.frontAnswer k).or (((List.range db.version.numLevels).findSome? fun level =>
        (db.levelChildren options faults dir reverse target lower upper level).findSome?
          (speaks cursor (scanKey dir) (dir k))).map heard) := by
  rw [told, scanChildren, List.findSome?_append, Option.map_or,
    findSome?_speaks (readsFrom_memtables target db) hdir (ordered_memtables db) htarget,
    findSome?_memtables, Newest.findSome?_flatMap]

theorem Tidy.told_of_clear (h : Tidy db) (hdir : Directs dir reverse)
    (htarget : ∀ t ∈ target, ¬ dir k < dir t) (hk : Within lower upper k)
    (hclear : ∀ level, db.firstTelling k = some level → ∀ f, ¬ db.Obscures faults level k f) :
    told dir (db.scanChildren options faults dir reverse target lower upper) k =
      told dir (db.scanChildren options {} dir reverse target lower upper) k := by
  have hheard : ∀ level, ((db.levelChildren options {} dir reverse target lower upper
      level).findSome? (speaks cursor (scanKey dir) (dir k))).map heard =
        db.levelAnswer k level := fun level =>
    (findSome?_speaks (h.readsFrom_levelChildren hdir lower upper level) hdir
      h.ordered_levelSources htarget).trans (h.findSome?_levelSources hk)
  rw [told_eq_or options faults db hdir htarget, told_eq_or options {} db hdir htarget]
  congr 2
  refine Newest.findSome?_eq_of_first _ (fun level _ hsilent => ?_) fun level hlevel => ?_
  · rw [List.findSome?_eq_none_iff] at hsilent ⊢
    intro d hd
    obtain ⟨c, hc, hcd⟩ := exists_of_mem_right
      (cutOf_levelChildren dir reverse _ options faults db lower upper level) hd
    exact hcd.silent (hsilent c hc)
  · refine h.speaks_levelChildren hdir htarget (hclear level ?_)
    simpa [firstTelling, ← hheard] using hlevel

theorem Tidy.exists_file_of_source (h : Tidy db) {level : ℕ} {source : Sst}
    (hsource : source ∈ db.levelSources lower upper level) {found : Found}
    (htells : source.tells k = some found) :
    ∃ f ∈ db.version.filesAt level, (db.sstOf f).tells k = some found := by
  unfold levelSources at hsource
  split_ifs at hsource with hfast
  · cases hfiles : db.version.overlappingIndexRange level lower upper with
    | nil => simp [hfiles] at hsource
    | cons f files =>
      have hmem : ∀ g ∈ f :: files, g ∈ db.version.filesAt level := fun g hg =>
        mem_of_mem_overlappingIndexRange (hfiles ▸ hg)
      rw [hfiles, mem_singleton] at hsource
      rw [hsource, tells_joined (fun g hg => h.stored level g (hmem g hg))
        (fun g hg => noRanges_of_carriesRanges hfast.2 g (hmem g hg))] at htells
      obtain ⟨g, hg, hgk⟩ := exists_of_findSome?_eq_some htells
      exact ⟨g, hmem g hg, hgk⟩
  · obtain ⟨f, hf, rfl⟩ := mem_map.1 hsource
    exact ⟨f, mem_of_mem_filter hf, htells⟩

/-- A value that a scan finds below the memtables is in a file. -/
theorem Tidy.exists_value (h : Tidy db) (hdir : Directs dir reverse)
    (htarget : ∀ t ∈ target, ¬ dir k < dir t) (hfront : db.frontAnswer k = none) {v : Value}
    (htold : told dir (db.scanChildren options faults dir reverse target lower upper) k =
      some (.live v)) :
    ∃ f ∈ db.version.allFiles, (db.sstOf f).tells k = some (.live v) := by
  rw [told_eq_or options faults db hdir htarget, hfront, Option.none_or] at htold
  obtain ⟨said, hsaid, hlive⟩ := Option.map_eq_some_iff.1 htold
  obtain ⟨level, -, hsaid⟩ := exists_of_findSome?_eq_some hsaid
  obtain ⟨d, hd, hspeaks⟩ := exists_of_findSome?_eq_some hsaid
  cases said with
  | none => cases hlive
  | some e =>
    obtain ⟨c, hc, hcd⟩ := exists_of_mem_right
      (cutOf_levelChildren dir reverse _ options faults db lower upper level) hd
    obtain ⟨source, hsource, hreads⟩ :=
      exists_of_mem_left (h.readsFrom_levelChildren hdir lower upper level) hc
    have hordered := h.ordered_levelSources source hsource
    have htells : source.tells k = some (.live v) := by
      rw [← hreads.speaks hdir hordered.1 hordered.2 htarget, hcd.element hspeaks, Option.map_some,
        hlive]
    obtain ⟨f, hf, hfk⟩ := h.exists_file_of_source hsource htells
    exact ⟨f, Version.mem_allFiles.2 ⟨level, hf⟩, hfk⟩

end Doubt

section Whole

variable {options : Options} {faults : Faults} {db : Db} {lower : Key} {upper : Option Key} {k : Key}

variable (db faults) in
/-- The memtables tell of the key, or nothing obscures the first level that does, or no other value
is there. -/
def Withstands (k : Key) : Prop :=
  db.frontAnswer k = none → ∀ level, db.firstTelling k = some level →
    ∀ f, db.Obscures faults level k f → ∀ g ∈ db.version.allFiles, ∀ v,
      (db.sstOf g).tells k = some (.live v) → db.fileAnswer k = some (.live v)

theorem inBounds_getD :
    InBounds lower (upper.getD []) upper.isSome k ↔ lower ≤ k ∧ ∀ u ∈ upper, k < u :=
  and_congr_right fun _ => by cases upper <;> simp

theorem Tidy.get_of_mem_scanWith {κ : Type} [LinearOrder κ] {dir : Key ≃ κ}
    {reverse : Bool} (h : Tidy db) (hdir : Directs dir reverse)
    (hwithstands : ∀ k, lower ≤ k → (∀ u ∈ upper, k < u) → db.version.truncated k = false →
      db.Withstands faults k) {v : Value}
    (hmem : (k, v) ∈ (db.scanWith options faults dir reverse lower (upper.getD []) upper.isSome).1) :
    db.get options k = .ok v := by
  cases hopen : db.readsAreBlocked options with
  | true => simp [scanWith, hopen] at hmem
  | false =>
    obtain ⟨⟨hbounds, hkept⟩, htold⟩ := (h.mem_scanWith hopen hdir).1 hmem
    obtain ⟨hlower, hupper⟩ := inBounds_getD.1 hbounds
    have hk := inBounds_clampScan.2 ⟨hbounds, hkept⟩
    have htarget := ((inBounds_iff hdir).1 hk).1
    have hnone : upper.isSome = false → upper.getD [] = [] := by cases upper <;> simp
    refine (h.get_eq_ok_iff hopen).2 ⟨hkept, ?_⟩
    by_cases hclear : ∀ level, db.firstTelling k = some level → ∀ f, ¬ db.Obscures faults level k f
    · rw [← htold, h.told_of_clear hdir htarget (hk.within hnone) hclear,
        h.told_scanChildren hdir hnone hk]
    · push Not at hclear
      obtain ⟨level, hlevel, f, hf⟩ := hclear
      rw [answer, ← Option.or_assoc, ← frontAnswer]
      cases hfront : db.frontAnswer k with
      | some found =>
        rwa [told_eq_or options faults db hdir htarget, hfront] at htold
      | none =>
        obtain ⟨g, hg, hgk⟩ := h.exists_value hdir htarget hfront htold
        exact hwithstands k hlower hupper hkept hfront level hlevel f hf g hg v hgk

theorem Tidy.iteratorUnder_of_ok (h : Tidy db) {reverse : Bool}
    (hok : (db.iteratorUnder options faults lower upper reverse).2 = .ok) :
    (db.iteratorUnder options faults lower upper reverse).1 =
      (db.iterator options lower upper reverse).1 := by
  cases reverse with
  | false => exact h.scanWith_of_ok directs_forward hok
  | true => exact h.scanWith_of_ok directs_reverse hok

end Whole

end Db

/-- No file at level 0 opens. -/
def topUnopened : Faults where
  opening f := if f.level = 0 then some ⟨.io, nofun⟩ else none

/-- Keys at level 1, at level 0 and in the memtable. -/
def spreadScript : List (Db → Op) :=
  settle [1] [10] ++ [fun _ => .put [2] [20], fun _ => .sealMemtable, fun _ => .runOneFlush,
    fun _ => .put [3] [30]]

/-- A key at level 1, its removal at level 0. -/
def removedScript : List (Db → Op) :=
  settle [1] [10] ++ [fun _ => .remove [1], fun _ => .sealMemtable, fun _ => .runOneFlush]

end ElysiumKV
