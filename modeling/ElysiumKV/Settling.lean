import ElysiumKV.Picker
import ElysiumKV.Runs
import Mathlib.Data.DFinsupp.WellFounded

/-!
# Background compaction settles

A round takes a file off the level it picks and adds files at the next only, so the file counts fall
in lexicographic order and the loop ends if each pick returns. A pick may not return where a file of
an overlapping level begins at the empty key (`pick_never_returns`).
-/

namespace ElysiumKV

open List PickConfig Option

/-- What `run_compaction` installs, whatever it wrote. -/
inductive Installs (c : Compaction) : VersionEdit → Prop
  | moved {f : FileMetadata} {rest : List FileMetadata} (nextFileNumber : ℕ)
      (hmove : c.trivialMove = true) (hinputs : c.inputs = f :: rest) :
      Installs c
        { nextFileNumber
          compactionPointers := [(c.level, c.largestKey)]
          deleted := [⟨c.level, f.fileNumber⟩]
          added := [{ f with level := c.outputLevel }] }
  | merged {outputs : List FileMetadata} (nextFileNumber : ℕ) (hmerge : c.trivialMove = false)
      (houtputs : ∀ f ∈ outputs,
        f.level = c.outputLevel ∧ f.effectiveSmallest ≤ f.effectiveLargest) :
      Installs c
        { nextFileNumber
          compactionPointers := [(c.level, c.largestKey)]
          deleted := c.inputs.map (fun f => ⟨c.level, f.fileNumber⟩) ++
            c.overlaps.map fun f => ⟨c.outputLevel, f.fileNumber⟩
          added := outputs }

/-- A compaction is picked and installed. -/
def Round (config : PickConfig) (options : Options) (v v' : Version) : Prop :=
  ∃ c edit, config.Picks options v (some c) ∧ Installs c edit ∧ v' = v.apply edit

/-- After finitely many rounds nothing is picked, whatever is written. -/
inductive Settles (config : PickConfig) (options : Options) : Version → Prop
  | quiet {v : Version} (hpick : config.Picks options v none) : Settles config options v
  | round {v : Version} {c : Compaction} (hpick : config.Picks options v (some c))
      (hnext : ∀ v', Round config options v v' → Settles config options v') :
      Settles config options v

variable {config : PickConfig} {options : Options} {v v' : Version}

/-! ### A round descends -/

theorem Version.length_filesAt_apply (v : Version) (edit : VersionEdit) (level : ℕ) :
    ((v.apply edit).filesAt level).length =
      ((v.filesAt level).filter
        fun f => (⟨level, f.fileNumber⟩ : FileRef) ∉ edit.deleted).length +
        (edit.added.filter fun f => f.level = level).length := by
  rw [Version.filesAt_apply, (sortLevel_perm level _).length_eq, length_append]

theorem Installs.spec {c : Compaction} {edit : VersionEdit} (h : Installs c edit)
    (hp : config.Progresses v c) (hv : v.Spanned) :
    (∀ ref ∈ edit.deleted, c.level ≤ ref.level) ∧
      (∃ f ∈ v.filesAt c.level, ⟨c.level, f.fileNumber⟩ ∈ edit.deleted) ∧
      ∀ f ∈ edit.added, f.level = c.level + 1 ∧ f.effectiveSmallest ≤ f.effectiveLargest := by
  cases h with
  | @moved f rest _ _ hinputs =>
    have hf : f ∈ v.filesAt c.level := hp.inputs.subset (hinputs ▸ .head _)
    refine ⟨fun ref href => ?_, ⟨f, hf, .head _⟩, fun g hg => ?_⟩
    · rw [mem_singleton.1 href]
    · rw [mem_singleton.1 hg]
      exact ⟨hp.outputLevel, hv c.level f hf⟩
  | merged _ _ houtputs =>
    obtain ⟨f, hf⟩ := exists_mem_of_ne_nil _ hp.nonempty
    refine ⟨fun ref href => ?_, ⟨f, hp.inputs.subset hf, ?_⟩, fun g hg => ?_⟩
    · rcases mem_append.1 href with href | href
      · obtain ⟨g, -, rfl⟩ := mem_map.1 href
        exact le_rfl
      · obtain ⟨g, -, rfl⟩ := mem_map.1 href
        exact hp.outputLevel ▸ Nat.le_succ _
    · exact mem_append_left _ (mem_map.2 ⟨f, hf, rfl⟩)
    · exact ⟨(houtputs g hg).1.trans hp.outputLevel, (houtputs g hg).2⟩

theorem Round.spanned (h : Round config options v v') (hv : v.Spanned) : v'.Spanned := by
  obtain ⟨c, edit, hpick, hinstalls, rfl⟩ := h
  obtain ⟨-, -, hadded⟩ := hinstalls.spec (hpick.progresses hv) hv
  intro level f hf
  rcases Version.mem_filesAt_apply.1 hf with ⟨hf, -⟩ | ⟨hf, -⟩
  · exact hv level f hf
  · exact (hadded f hf).2

theorem Round.mem_level_zero (h : Round config options v v') (hv : v.Spanned) {f : FileMetadata}
    (hf : f ∈ v'.filesAt 0) : f ∈ v.filesAt 0 := by
  obtain ⟨c, edit, hpick, hinstalls, rfl⟩ := h
  obtain ⟨-, -, hadded⟩ := hinstalls.spec (hpick.progresses hv) hv
  rcases Version.mem_filesAt_apply.1 hf with ⟨hf, -⟩ | ⟨hf, hlevel⟩
  · exact hf
  · have := (hadded f hf).1
    omega

/-- The file counts above the last level. -/
def fileCounts (config : PickConfig) (v : Version) : Lex (Fin config.last → ℕ) :=
  toLex fun level => (v.filesAt level).length

theorem Round.descends (h : Round config options v v') (hv : v.Spanned) :
    fileCounts config v' < fileCounts config v := by
  obtain ⟨c, edit, hpick, hinstalls, rfl⟩ := h
  have hp := hpick.progresses hv
  obtain ⟨hdeleted, ⟨f, hf, hgone⟩, hadded⟩ := hinstalls.spec hp hv
  have hnone : ∀ level ≤ c.level, (edit.added.filter fun f => f.level = level) = [] := by
    intro level hlevel
    rw [filter_eq_nil_iff]
    intro g hg
    have := (hadded g hg).1
    simp only [decide_eq_true_eq]
    omega
  refine ⟨⟨c.level, hp.level⟩, fun level hlevel => ?_, ?_⟩
  · have hlevel : (level : ℕ) < c.level := hlevel
    show ((v.apply edit).filesAt level).length = (v.filesAt level).length
    rw [Version.length_filesAt_apply, hnone _ hlevel.le, filter_eq_self.2]
    · rfl
    · intro g _
      refine decide_eq_true fun hmem => ?_
      exact absurd (hdeleted _ hmem) (not_le.2 hlevel)
  · show ((v.apply edit).filesAt c.level).length < (v.filesAt c.level).length
    rw [Version.length_filesAt_apply, hnone _ le_rfl, length_nil, Nat.add_zero]
    exact length_filter_lt_length_iff_exists.2 ⟨f, hf, by simpa using hgone⟩

theorem PickConfig.Picks.unique {picked picked' : Option Compaction}
    (h : config.Picks options v picked) (h' : config.Picks options v picked') :
    picked' = picked := by
  obtain ⟨fuel, hpick⟩ := h
  obtain ⟨fuel', hpick'⟩ := h'
  unfold pickCompaction at hpick hpick'
  split_ifs at hpick hpick'
  · exact some_inj.1 (hpick'.symm.trans hpick)
  cases hlevel : config.chooseLevel v with
  | none =>
    rw [hlevel] at hpick hpick'
    exact some_inj.1 (hpick'.symm.trans hpick)
  | some chosen =>
    rw [hlevel] at hpick hpick'
    simp only at hpick hpick'
    cases hseed : config.seedOf v chosen.1 with
    | none =>
      rw [hseed] at hpick hpick'
      exact some_inj.1 (hpick'.symm.trans hpick)
    | some seed =>
      rw [hseed] at hpick hpick'
      obtain ⟨inputs, hinputs, rfl⟩ := map_eq_some_iff.1 hpick
      obtain ⟨inputs', hinputs', rfl⟩ := map_eq_some_iff.1 hpick'
      suffices hsame : inputs' = inputs by rw [hsame]
      unfold selectInputs at hinputs hinputs'
      split_ifs at hinputs hinputs'
      · obtain ⟨found, hfound, rfl⟩ := map_eq_some_iff.1 hinputs
        obtain ⟨found', hfound', rfl⟩ := map_eq_some_iff.1 hinputs'
        rw [Loop.run_eq_of_run hfound hfound']
      · exact some_inj.1 (hinputs'.symm.trans hinputs)

/-- No file of an overlapping level begins at the empty key. -/
def BeginsAboveEmpty (config : PickConfig) (v : Version) : Prop :=
  ∀ level, config.isOverlappingLevel level = true → ∀ f ∈ v.filesAt level, f.effectiveSmallest ≠ []

theorem widen_lower_le {files : List FileMetadata} (h : ∀ f ∈ files, f.effectiveSmallest ≠ [])
    (bounds : Key × Key) (hb : bounds.1 ≠ []) :
    (widen files bounds).1 ≤ bounds.1 ∧ (widen files bounds).1 ≠ [] := by
  induction files generalizing bounds with
  | nil => exact ⟨le_rfl, hb⟩
  | cons f files ih =>
    have hone : (widen [f] bounds).1 ≤ bounds.1 ∧ (widen [f] bounds).1 ≠ [] := by
      simp only [widen, foldl_cons, foldl_nil]
      split_ifs with hlt
      · exact ⟨(hlt.resolve_left hb).le, h f (.head _)⟩
      · exact ⟨le_rfl, hb⟩
    obtain ⟨hle, hne⟩ := ih (fun g hg => h g (.tail _ hg)) _ hone.2
    rw [widen_cons]
    exact ⟨hle.trans hone.1, hne⟩

/-- Where no file begins at the empty key, each round that goes on finds more files. -/
theorem transitiveOverlap_returns {level : ℕ}
    (h : ∀ f ∈ v.filesAt level, f.effectiveSmallest ≠ []) {lower : Key} (hlower : lower ≠ [])
    (upper : Key) : ∃ found fuel, v.transitiveOverlap level fuel lower upper = some found := by
  refine Loop.returns_of_measure (fun s => (v.filesAt level).length + 1 - s.selected.length)
    (P := fun s => s.lower ≠ [] ∧
      s.selected.length ≤ (v.overlappingInclusive level s.lower s.upper).length)
    ?_ ⟨hlower, Nat.zero_le _⟩
  rintro s t ⟨hs, hselected⟩ hstep
  unfold Version.overlapStep at hstep
  simp only at hstep
  split_ifs at hstep with hsame hfix
  obtain rfl := Sum.inr.inj hstep
  have hsub : (v.overlappingInclusive level s.lower s.upper).Sublist (v.filesAt level) :=
    filter_sublist
  obtain ⟨hle, hne⟩ := widen_lower_le (fun f hf => h f (hsub.subset hf)) (s.lower, s.upper) hs
  have hupper := (le_widen_upper (v.overlappingInclusive level s.lower s.upper)
    (s.lower, s.upper)).1
  refine ⟨⟨hne, ?_⟩, ?_⟩
  · refine (monotone_filter_right _ fun f hf => ?_).length_le
    simp only [Bool.and_eq_true, Bool.not_eq_true', decide_eq_false_iff_not, not_lt] at hf ⊢
    exact ⟨hle.trans hf.1, hf.2.trans hupper⟩
  · have hlength := hsub.length_le
    show _ - (v.overlappingInclusive level s.lower s.upper).length < _
    omega

theorem picks_of_nonempty (options : Options) (h : BeginsAboveEmpty config v) :
    ∃ picked, config.Picks options v picked := by
  by_cases hlast : config.last < 1
  · exact ⟨none, 0, by rw [pickCompaction, if_pos hlast]⟩
  cases hlevel : config.chooseLevel v with
  | none => exact ⟨none, 0, by rw [pickCompaction, if_neg hlast, hlevel]⟩
  | some chosen =>
    cases hseed : config.seedOf v chosen.1 with
    | none => exact ⟨none, 0, by
        rw [pickCompaction, if_neg hlast, hlevel]
        simp only [hseed]⟩
    | some seed =>
      have hselect : ∃ inputs fuel, config.selectInputs v chosen.1 fuel seed = some inputs := by
        unfold selectInputs
        split_ifs with hoverlapping
        · have hfiles := h chosen.1 hoverlapping
          obtain ⟨found, fuel, hfound⟩ := transitiveOverlap_returns hfiles
            (hfiles seed (seedOf_mem hseed)) seed.effectiveLargest
          exact ⟨_, fuel, by rw [hfound]; rfl⟩
        · exact ⟨_, 0, rfl⟩
      obtain ⟨inputs, fuel, hinputs⟩ := hselect
      refine ⟨some (config.completePick options v chosen.1 seed inputs), fuel, ?_⟩
      rw [pickCompaction, if_neg hlast, hlevel]
      simp only [hseed, hinputs, map_some]

namespace Db

theorem Tidy.spanned {db : Db} (h : db.Tidy) : db.version.Spanned := fun level f hf =>
  (h.stored level f hf).describes.effective_le (h.stored level f hf).wellFormed

theorem Tidy.round_runCompaction {db : Db} (h : db.Tidy) (env : WriteEnv) {c : Compaction}
    (hpick : config.Picks options db.version (some c)) :
    Round config options db.version (db.runCompaction options env c).version := by
  have hp := hpick.progresses h.spanned
  unfold Db.runCompaction
  simp only
  cases htrivial : c.trivialMove with
  | true =>
    rw [if_pos rfl]
    cases hinputs : c.inputs with
    | nil => exact absurd hinputs hp.nonempty
    | cons f rest => exact ⟨c, _, hpick, .moved _ htrivial hinputs, rfl⟩
  | false =>
    rw [if_neg (by simp)]
    have hstored : ∀ f ∈ c.allInputs, db.Stored f := by
      intro f hf
      rcases mem_append.1 hf with hf | hf
      · exact h.stored _ f (hp.inputs.subset hf)
      · exact h.stored _ f (hp.overlaps.subset hf)
    rw [sourcesOf_stored hstored]
    have hord : MergingIterator.Ordered (c.allInputs.map db.sstOf) := by
      intro s hs
      obtain ⟨f, hf, rfl⟩ := mem_map.1 hs
      exact ⟨(hstored f hf).wellFormed.sorted, (hstored f hf).wellFormed.tidy⟩
    have hnamed := named_outputs options env c _ db (Compaction.tiles_writeCompactionOutputs c
      options db.version.truncationPoint hord).closed
    have houtputs : ∀ f ∈ nameOutputs options env c db.nextFileNumber (c.writeCompactionOutputs
        options db.version.truncationPoint (c.allInputs.map db.sstOf)),
        f.level = c.outputLevel ∧ f.effectiveSmallest ≤ f.effectiveLargest := by
      intro f hf
      obtain ⟨hstored, hlevel, -⟩ := hnamed.stored f hf
      exact ⟨hlevel, hstored.describes.effective_le hstored.wellFormed⟩
    exact ⟨c, _, hpick, .merged _ htrivial houtputs, congrArg (Version.apply · _) hnamed.version⟩

end Db

/-- Picking and compacting comes to rest, whatever is written, exactly if every pick returns; and it
does if no file of an overlapping level begins at the empty key. -/
theorem compaction_settles_iff (config : PickConfig) (options : Options) {v : Version}
    (hv : v.Spanned) :
    (Settles config options v ↔
      ∀ w, Relation.ReflTransGen (Round config options) v w →
        ∃ picked, config.Picks options w picked) ∧
    ∀ w, BeginsAboveEmpty config w → ∃ picked, config.Picks options w picked := by
  refine ⟨⟨fun h => ?_, fun hreturns => ?_⟩, fun w hw => picks_of_nonempty options hw⟩
  · induction h with
    | quiet hpick =>
      intro w hw
      rcases Relation.ReflTransGen.cases_head hw with rfl | ⟨v', ⟨c, _, hc, _⟩, -⟩
      · exact ⟨_, hpick⟩
      · cases hpick.unique hc
    | round hpick _ ih =>
      intro w hw
      rcases Relation.ReflTransGen.cases_head hw with rfl | ⟨v', hround, hrest⟩
      · exact ⟨_, hpick⟩
      · exact ih v' hround (hround.spanned hv) w hrest
  · induction hcounts : fileCounts config v using WellFoundedLT.induction generalizing v with
    | ind counts ih =>
      obtain ⟨picked, hpick⟩ := hreturns v .refl
      cases picked with
      | none => exact .quiet hpick
      | some c =>
        refine .round hpick fun v' hround => ?_
        exact ih _ (hcounts ▸ hround.descends hv) (hround.spanned hv)
          (fun w hw => hreturns w (.head hround hw)) rfl

theorem beginsAboveEmpty_of_rounds (hv : v.Spanned)
    (honly : ∀ level, level ≠ 0 → config.isOverlappingLevel level = false)
    (hzero : ∀ f ∈ v.filesAt 0, f.effectiveSmallest ≠ []) {w : Version}
    (hw : Relation.ReflTransGen (Round config options) v w) : BeginsAboveEmpty config w := by
  have hkept : w.Spanned ∧ ∀ f ∈ w.filesAt 0, f.effectiveSmallest ≠ [] := by
    induction hw with
    | refl => exact ⟨hv, hzero⟩
    | tail _ hround ih =>
      exact ⟨hround.spanned ih.1, fun f hf => ih.2 f (hround.mem_level_zero ih.1 hf)⟩
  intro level hlevel
  by_cases hl : level = 0
  · exact hl ▸ hkept.2
  · rw [honly level hl] at hlevel
    cases hlevel

/-! ### Two stores -/

/-- Level 0 is due above three files. -/
def threeFiles : PickConfig where
  levels := [{ maxFiles := some 3 }, {}]
  maxCompactionBytes := 0

/-- Two keys in a file at level 0. -/
def flushPair (a b : Key) : List (Db → Op) :=
  [fun _ => .write [.put a [1], .put b [1]], fun _ => .sealMemtable, fun _ => .runOneFlush]

/-- Four files at level 0 without the empty key. -/
def plainPairs : List (Db → Op) :=
  flushPair [5] [9] ++ flushPair [1] [4] ++ flushPair [3] [9] ++ flushPair [1] [9]

/-- The same with the empty key for the key `[1]`. -/
def emptyPairs : List (Db → Op) :=
  flushPair [5] [9] ++ flushPair [] [4] ++ flushPair [3] [9] ++ flushPair [] [9]

theorem compaction_settles_iff_plain :
    let v := (play plainOptions {} plainPairs ({}, [])).1.version
    (v.filesAt 0).length = 4 ∧ Settles threeFiles plainOptions v := by
  have hrun : Run Compaction.Admissible plainOptions _ _ :=
    Run.empty.play {} plainPairs (by decide)
  have hv := hrun.refines.tidy.spanned
  obtain ⟨hiff, hreturns⟩ := compaction_settles_iff threeFiles plainOptions hv
  refine ⟨by decide, hiff.2 fun w hw => hreturns w ?_⟩
  refine beginsAboveEmpty_of_rounds hv (fun level hl => ?_) (by decide) hw
  obtain ⟨n, rfl⟩ := Nat.exists_eq_succ_of_ne_zero hl
  cases n <;> rfl

/-- Of files from the empty key to 9, 3 to 9, the empty key to 4 and, the oldest, 5 to 9, the span
from 5 widens to 3, which brings in the third; its lower bound is then empty, so the fourth sets it
back to 5. -/
theorem pick_never_returns :
    ∃ db log, Run Compaction.Admissible plainOptions db log ∧
      (∀ fuel, threeFiles.pickCompaction plainOptions db.version fuel = none) ∧
      ¬ Settles threeFiles plainOptions db.version := by
  have hrun : Run Compaction.Admissible plainOptions _ _ :=
    Run.empty.play {} emptyPairs (by decide)
  set v := (play plainOptions {} emptyPairs ({}, [])).1.version
  have hfirst : v.overlapStep 0 ⟨[5], [9], []⟩ =
      .inr ⟨[3], [9], v.overlappingInclusive 0 [5] [9]⟩ := by decide +kernel
  have hwider : v.overlapStep 0 ⟨[3], [9], v.overlappingInclusive 0 [5] [9]⟩ =
      .inr ⟨[5], [9], v.overlappingInclusive 0 [3] [9]⟩ := by decide +kernel
  have hback : v.overlapStep 0 ⟨[5], [9], v.overlappingInclusive 0 [3] [9]⟩ =
      .inr ⟨[3], [9], v.overlappingInclusive 0 [5] [9]⟩ := by decide +kernel
  have hloop : ∀ fuel, v.transitiveOverlap 0 fuel [5] [9] = none := by
    refine Loop.run_eq_none_of_closed (P := fun s => s = ⟨[5], [9], []⟩ ∨
      s = ⟨[3], [9], v.overlappingInclusive 0 [5] [9]⟩ ∨
      s = ⟨[5], [9], v.overlappingInclusive 0 [3] [9]⟩) ?_ (.inl rfl)
    rintro s (rfl | rfl | rfl)
    · exact ⟨_, hfirst, .inr (.inl rfl)⟩
    · exact ⟨_, hwider, .inr (.inr rfl)⟩
    · exact ⟨_, hback, .inr (.inl rfl)⟩
  have hlevel : (threeFiles.chooseLevel v).map Prod.fst = some 0 := by decide +kernel
  have hseed : (threeFiles.seedOf v 0).map (fun f => (f.effectiveSmallest, f.effectiveLargest)) =
      some ([5], [9]) := by decide +kernel
  have hpick : ∀ fuel, threeFiles.pickCompaction plainOptions v fuel = none := by
    intro fuel
    obtain ⟨chosen, hchosen, hzero⟩ := map_eq_some_iff.1 hlevel
    obtain ⟨seed, hseed, hspan⟩ := map_eq_some_iff.1 hseed
    obtain ⟨hlower, hupper⟩ := Prod.mk.inj hspan
    rw [pickCompaction, if_neg (by decide), hchosen]
    simp only [hzero, hseed, selectInputs, hlower, hupper, hloop]
    rfl
  refine ⟨_, _, hrun, hpick, fun hsettles => ?_⟩
  cases hsettles with
  | quiet h | round h _ =>
    obtain ⟨fuel, hfuel⟩ := h
    rw [hpick fuel] at hfuel
    cases hfuel

end ElysiumKV
