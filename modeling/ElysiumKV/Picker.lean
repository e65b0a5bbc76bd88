import ElysiumKV.Compaction
import ElysiumKV.Lib.Loop
import Mathlib.Data.Rat.Init
import Mathlib.Data.List.MinMax
import Mathlib.Algebra.Order.Ring.Rat

/-!
# Picking a compaction

The level with the highest score above one; where files may overlap, the oldest file with all that
overlap it, elsewhere the one after the pointer; then the next level's files that meet them. `widen`
takes an empty bound for one not set, but the empty key is also a key: `transitive_overlap` need not
end.
-/

namespace ElysiumKV

open List

/-- `ResolvedLevel`. -/
structure ResolvedLevel where
  maxBytes : Option ℕ := none
  maxFiles : Option ℤ := none
deriving DecidableEq, Repr

/-- The settings read. Scores are doubles: `round` takes an exact result to its double. -/
structure PickConfig where
  levels : List ResolvedLevel
  maxCompactionBytes : ℕ
  densityTrigger : ℚ := 0
  densityMinEntries : ℕ := 1024
  round : ℚ → ℚ := id

/-- `widen`: an empty bound is not set yet. -/
def widen (files : List FileMetadata) (bounds : Key × Key) : Key × Key :=
  files.foldl (fun bounds f =>
    (if bounds.1 = [] ∨ f.effectiveSmallest < bounds.1 then f.effectiveSmallest else bounds.1,
      if bounds.2 = [] ∨ bounds.2 < f.effectiveLargest then f.effectiveLargest else bounds.2))
    bounds

/-- The files' size. -/
def totalBytes (files : List FileMetadata) : ℕ := (files.map FileMetadata.fileBytes).sum

/-- The span of all its files. -/
def Compaction.effectiveHull (c : Compaction) : Key × Key := widen c.allInputs ([], [])

namespace Version

variable (v : Version)

/-- The variables of `transitive_overlap`. -/
structure Overlap where
  lower : Key
  upper : Key
  selected : List FileMetadata := []
deriving DecidableEq, Repr

/-- One round of the loop of `transitive_overlap`. -/
def overlapStep (level : ℕ) (s : Overlap) : List FileMetadata ⊕ Overlap :=
  let found := v.overlappingInclusive level s.lower s.upper
  if found.length = s.selected.length then .inl found
  else
    let widened := widen found (s.lower, s.upper)
    if widened = (s.lower, s.upper) then .inl found
    else .inr ⟨widened.1, widened.2, found⟩

/-- `transitive_overlap`, if it returns in so many rounds. -/
def transitiveOverlap (level fuel : ℕ) (lower upper : Key) : Option (List FileMetadata) :=
  Loop.run (v.overlapStep level) fuel { lower, upper }

/-- `is_bottommost_for_range`. -/
def isBottommostForRange (outputLevel lastLevel : ℕ) (lower upper : Key) : Bool :=
  (List.range (lastLevel + 1)).all fun level =>
    level ≤ outputLevel || (v.overlappingInclusive level lower upper).isEmpty

end Version

/-- The loop of `trim_to_budget`, oldest number first. -/
def keepOldest (inputs : List FileMetadata) (budget : ℕ) : List ℕ → List ℕ → ℕ → List ℕ
  | [], keep, _ => keep
  | number :: numbers, keep, bytes => match inputs.find? (·.fileNumber = number) with
    | none => keep
    | some found =>
      if keep ≠ [] ∧ budget < bytes + found.fileBytes then keep
      else keepOldest inputs budget numbers (keep ++ [number]) (bytes + found.fileBytes)

/-- `trim_to_budget`. -/
def trimToBudget (inputs : List FileMetadata) (budget : ℕ) : List FileMetadata :=
  if budget = 0 ∨ totalBytes inputs ≤ budget then inputs
  else
    let byAge := (inputs.map FileMetadata.fileNumber).insertionSort (· ≤ ·)
    let keep := keepOldest inputs budget byAge [] 0
    inputs.filter fun f => f.fileNumber ∈ keep

/-- The file after the pointer, or the first. -/
def seedAfterPointer (files : List FileMetadata) (pointer : Key) : Option FileMetadata :=
  (files.find? fun f => pointer = [] ∨ pointer < f.largestKey).or files.head?

/-- The file of the lowest number. -/
def oldestFile : List FileMetadata → Option FileMetadata
  | [] => none
  | f :: files => some (files.foldl (fun seed candidate =>
      if candidate.fileNumber < seed.fileNumber then candidate else seed) f)

namespace PickConfig

variable (config : PickConfig) (options : Options) (v : Version)

/-- The last level. -/
def last : ℕ := config.levels.length - 1

/-- The settings of a level. -/
def level (level : ℕ) : ResolvedLevel := config.levels.getD level {}

/-- `is_overlapping_level`. -/
def isOverlappingLevel (level : ℕ) : Bool := level = 0 || (config.level level).maxFiles.isSome

/-- A quotient of doubles. -/
def ratio (n d : ℕ) : ℚ := config.round (config.round n / config.round d)

/-- `level_score`. -/
def levelScore (level : ℕ) : ℚ :=
  let byFiles := match (config.level level).maxFiles with
    | none => 0
    | some maxFiles =>
      if 0 < maxFiles then config.ratio (v.filesAt level).length maxFiles.toNat else 0
  let byBytes := match (config.level level).maxBytes with
    | none => 0
    | some maxBytes =>
      if 0 < maxBytes then config.ratio (totalBytes (v.filesAt level)) maxBytes else 0
  max (max 0 byFiles) byBytes

/-- `tombstone_density_score`. -/
def tombstoneDensityScore (level : ℕ) : ℚ :=
  if config.densityTrigger ≤ 0 then 0
  else (v.filesAt level).foldl (fun worst f =>
    if f.numEntries < config.densityMinEntries then worst
    else if f.numTombstones = 0 then worst
    else max worst
      (config.round (config.ratio f.numTombstones f.numEntries / config.densityTrigger))) 0

/-- The first level with the highest score above one. -/
def chooseLevel : Option (ℕ × ℚ) :=
  (List.range config.last).foldl (fun chosen level =>
    if (v.filesAt level).length = 0 then chosen
    else
      let score := max (config.levelScore v level) (config.tombstoneDensityScore v level)
      if score ≤ 1 then chosen
      else match chosen with
        | none => some (level, score)
        | some (_, best) => if best < score then some (level, score) else chosen) none

/-- The file a compaction of the level starts from. -/
def seedOf (level : ℕ) : Option FileMetadata :=
  if config.isOverlappingLevel level then oldestFile (v.filesAt level)
  else
    let pointer := (SortedMap.find Prod.fst level v.compactionPointers).map Prod.snd
    seedAfterPointer (v.filesAt level) (pointer.getD [])

/-- The inputs around the seed. -/
def selectInputs (level fuel : ℕ) (seed : FileMetadata) : Option (List FileMetadata) :=
  if config.isOverlappingLevel level then
    (v.transitiveOverlap level fuel seed.effectiveSmallest seed.effectiveLargest).map
      (trimToBudget · config.maxCompactionBytes)
  else some [seed]

/-- The inputs' span, afresh at an overlapping level, since trimming narrows it. -/
def inputSpan (level : ℕ) (seed : FileMetadata) (inputs : List FileMetadata) : Key × Key :=
  let start := if config.isOverlappingLevel level then inputs.head?.getD seed else seed
  widen inputs (start.effectiveSmallest, start.effectiveLargest)

/-- The inputs with the files inside the overlaps' span, within the budget and without more
overlaps. -/
def expandInputs (level : ℕ) (span : Key × Key) (inputs overlaps : List FileMetadata) :
    List FileMetadata :=
  if overlaps ≠ [] ∧ config.isOverlappingLevel level = false then
    let expandedSpan := widen overlaps span
    let expanded := v.overlappingInclusive level expandedSpan.1 expandedSpan.2
    if inputs.length < expanded.length ∧
        totalBytes expanded + totalBytes overlaps ≤ config.maxCompactionBytes then
      let check := widen expanded expandedSpan
      let reoverlap := v.overlappingInclusive (level + 1) check.1 check.2
      if reoverlap.length = overlaps.length then expanded else inputs
    else inputs
  else inputs

/-- Both questions are about the span of all files. -/
def finishPick (level : ℕ) (inputs overlaps : List FileMetadata) : Compaction :=
  let picked : Compaction := { level, outputLevel := level + 1, inputs, overlaps }
  let hull := picked.effectiveHull
  let grandparents :=
    if level + 2 ≤ config.last then v.overlappingInclusive (level + 2) hull.1 hull.2 else []
  let bottommost := v.isBottommostForRange (level + 1) config.last hull.1 hull.2
  let dropsNothing := !bottommost ||
    inputs.head?.all fun f => f.numTombstones = 0 && f.numRangeTombstones = 0
  { picked with
    grandparents
    outputIsBottommost := bottommost
    trivialMove := inputs.length = 1 && overlaps.isEmpty && dropsNothing &&
      totalBytes grandparents < options.maxGrandparentOverlapBytes (level + 1) }

/-- The compaction around selected inputs. -/
def completePick (level : ℕ) (seed : FileMetadata) (inputs : List FileMetadata) : Compaction :=
  let span := config.inputSpan level seed inputs
  let overlaps := v.overlappingInclusive (level + 1) span.1 span.2
  config.finishPick options v level (config.expandInputs v level span inputs overlaps) overlaps

/-- `pick_compaction`, if it returns in so many rounds. -/
def pickCompaction (fuel : ℕ) : Option (Option Compaction) :=
  if config.last < 1 then some none
  else match config.chooseLevel v with
    | none => some none
    | some (level, _) => match config.seedOf v level with
      | none => some none
      | some seed => (config.selectInputs v level fuel seed).map fun inputs =>
          some (config.completePick options v level seed inputs)

/-- `pick_compaction` returns. -/
def Picks (picked : Option Compaction) : Prop :=
  ∃ fuel, config.pickCompaction options v fuel = some picked

end PickConfig

section Widen

theorem widen_cons (f : FileMetadata) (files : List FileMetadata) (bounds : Key × Key) :
    widen (f :: files) bounds = widen files (widen [f] bounds) := rfl

theorem le_widen_upper (files : List FileMetadata) (bounds : Key × Key) :
    bounds.2 ≤ (widen files bounds).2 ∧
      ∀ f ∈ files, f.effectiveLargest ≤ (widen files bounds).2 := by
  induction files generalizing bounds with
  | nil => exact ⟨le_rfl, nofun⟩
  | cons f files ih =>
    obtain ⟨hstart, hfiles⟩ := ih (widen [f] bounds)
    have hone : bounds.2 ≤ (widen [f] bounds).2 ∧ f.effectiveLargest ≤ (widen [f] bounds).2 := by
      simp only [widen, foldl_cons, foldl_nil]
      split_ifs with h
      · rcases h with h | h
        · exact ⟨h ▸ ByteOrder.nil_le _, le_rfl⟩
        · exact ⟨h.le, le_rfl⟩
      · push Not at h
        exact ⟨le_rfl, h.2⟩
    rw [widen_cons]
    refine ⟨hone.1.trans hstart, fun g hg => ?_⟩
    rcases mem_cons.1 hg with rfl | hg
    · exact hone.2.trans hstart
    · exact hfiles g hg

theorem widen_lower (files : List FileMetadata) (bounds : Key × Key) :
    (widen files bounds).1 = bounds.1 ∨
      ∃ f ∈ files, (widen files bounds).1 = f.effectiveSmallest := by
  induction files generalizing bounds with
  | nil => exact .inl rfl
  | cons f files ih =>
    rw [widen_cons]
    rcases ih (widen [f] bounds) with h | ⟨g, hg, h⟩
    · rw [h]
      simp only [widen, foldl_cons, foldl_nil]
      split_ifs
      · exact .inr ⟨f, .head _, rfl⟩
      · exact .inl rfl
    · exact .inr ⟨g, .tail _ hg, h⟩

end Widen

namespace Version

variable {v : Version} {level : ℕ}

theorem mem_overlappingInclusive {first last : Key} {f : FileMetadata} :
    f ∈ v.overlappingInclusive level first last ↔
      f ∈ v.filesAt level ∧ first ≤ f.effectiveLargest ∧ f.effectiveSmallest ≤ last := by
  simp [overlappingInclusive]

/-- Every span is in order. -/
def Spanned (v : Version) : Prop :=
  ∀ level, ∀ f ∈ v.filesAt level, f.effectiveSmallest ≤ f.effectiveLargest

/-- A file meets the span. -/
def Overlap.Meets (v : Version) (level : ℕ) (s : Overlap) : Prop :=
  ∃ f ∈ v.filesAt level, s.lower ≤ f.effectiveLargest ∧ f.effectiveSmallest ≤ s.upper

theorem Overlap.Meets.step (h : v.Spanned) {s t : Overlap} (hs : s.Meets v level)
    (hstep : v.overlapStep level s = .inr t) : t.Meets v level := by
  unfold overlapStep at hstep
  simp only at hstep
  split_ifs at hstep
  obtain rfl := Sum.inr.inj hstep
  obtain ⟨f, hf, hlower, hupper⟩ := hs
  have hfound : f ∈ v.overlappingInclusive level s.lower s.upper :=
    mem_overlappingInclusive.2 ⟨hf, hlower, hupper⟩
  obtain ⟨hgrows, hcovers⟩ :=
    le_widen_upper (v.overlappingInclusive level s.lower s.upper) (s.lower, s.upper)
  rcases widen_lower (v.overlappingInclusive level s.lower s.upper) (s.lower, s.upper) with
    heq | ⟨g, hg, heq⟩
  · exact ⟨f, hf, heq.trans_le hlower, hupper.trans hgrows⟩
  · have hspan := h level g (mem_overlappingInclusive.1 hg).1
    exact ⟨g, (mem_overlappingInclusive.1 hg).1, heq.trans_le hspan, hspan.trans (hcovers g hg)⟩

theorem overlapStep_inl {s : Overlap} {found : List FileMetadata}
    (hstep : v.overlapStep level s = .inl found) :
    found = v.overlappingInclusive level s.lower s.upper := by
  unfold overlapStep at hstep
  simp only at hstep
  split_ifs at hstep
  · exact (Sum.inl.inj hstep).symm
  · exact (Sum.inl.inj hstep).symm

theorem transitiveOverlap_spec (h : v.Spanned) {fuel : ℕ} {seed : FileMetadata}
    (hseed : seed ∈ v.filesAt level) {found : List FileMetadata}
    (hfound : v.transitiveOverlap level fuel seed.effectiveSmallest seed.effectiveLargest =
      some found) : found.Sublist (v.filesAt level) ∧ found ≠ [] := by
  refine Loop.run_invariant (P := Overlap.Meets v level)
    (Q := fun found => found.Sublist (v.filesAt level) ∧ found ≠ []) ?_ ?_ ?_ hfound
  · rintro s found ⟨f, hf, hlower, hupper⟩ hstep
    rw [overlapStep_inl hstep]
    exact ⟨filter_sublist, ne_nil_of_mem (mem_overlappingInclusive.2 ⟨hf, hlower, hupper⟩)⟩
  · exact fun s t hs hstep => hs.step h hstep
  · exact ⟨seed, hseed, h level seed hseed, h level seed hseed⟩

end Version

theorem subset_keepOldest (inputs : List FileMetadata) (budget : ℕ) (numbers keep : List ℕ)
    (bytes : ℕ) : keep ⊆ keepOldest inputs budget numbers keep bytes := by
  induction numbers generalizing keep bytes with
  | nil => exact List.Subset.refl _
  | cons number numbers ih =>
    unfold keepOldest
    split
    · exact List.Subset.refl _
    · split_ifs
      · exact List.Subset.refl _
      · exact fun n hn => ih _ _ (mem_append_left _ hn)

theorem trimToBudget_spec {inputs : List FileMetadata} (h : inputs ≠ []) (budget : ℕ) :
    (trimToBudget inputs budget).Sublist inputs ∧ trimToBudget inputs budget ≠ [] := by
  unfold trimToBudget
  split_ifs
  · exact ⟨List.Sublist.refl _, h⟩
  · refine ⟨filter_sublist, ?_⟩
    cases hages : (inputs.map FileMetadata.fileNumber).insertionSort (· ≤ ·) with
    | nil =>
      have hlength := (perm_insertionSort (· ≤ ·) (inputs.map FileMetadata.fileNumber)).length_eq
      rw [hages, length_nil, length_map] at hlength
      exact absurd (length_eq_zero_iff.1 hlength.symm) h
    | cons number numbers =>
      have hmem : number ∈ inputs.map FileMetadata.fileNumber :=
        (perm_insertionSort (· ≤ ·) _).mem_iff.1 (hages ▸ .head _)
      obtain ⟨f, hf, hnumber⟩ := mem_map.1 hmem
      have hkept : number ∈ keepOldest inputs budget (number :: numbers) [] 0 := by
        unfold keepOldest
        cases hfind : inputs.find? (·.fileNumber = number) with
        | none =>
          rw [List.find?_eq_none] at hfind
          exact absurd hnumber (by simpa using hfind f hf)
        | some found =>
          simp only [ne_eq, not_true_eq_false, false_and, if_false]
          exact subset_keepOldest _ _ _ _ _ (by simp)
      exact ne_nil_of_mem (mem_filter.2 ⟨hf, by simpa [hnumber] using hkept⟩)

theorem mem_of_seedAfterPointer {files : List FileMetadata} {pointer : Key} {seed : FileMetadata}
    (h : seedAfterPointer files pointer = some seed) : seed ∈ files := by
  unfold seedAfterPointer at h
  rcases Option.or_eq_some_iff.1 h with h | ⟨-, h⟩
  · exact mem_of_find?_eq_some h
  · exact mem_of_head? h

theorem mem_of_oldestFile {files : List FileMetadata} {seed : FileMetadata}
    (h : oldestFile files = some seed) : seed ∈ files := by
  cases files with
  | nil => cases h
  | cons f files =>
    obtain rfl := Option.some_inj.1 h
    have hfold : ∀ (files : List FileMetadata) (f : FileMetadata),
        files.foldl (fun seed candidate =>
          if candidate.fileNumber < seed.fileNumber then candidate else seed) f ∈ f :: files := by
      intro files
      induction files with
      | nil => exact fun f => .head _
      | cons g files ih =>
        intro f
        rw [foldl_cons]
        split_ifs
        · exact .tail _ (ih g)
        · rcases mem_cons.1 (ih f) with h | h
          · rw [h]
            exact .head _
          · exact .tail _ (.tail _ h)
    exact hfold files f

namespace PickConfig

variable {config : PickConfig} {options : Options} {v : Version}

theorem chooseLevel_spec {level : ℕ} {score : ℚ} (h : config.chooseLevel v = some (level, score)) :
    level < config.last ∧ v.filesAt level ≠ [] := by
  unfold chooseLevel at h
  have hfold : ∀ (levels : List ℕ) (chosen : Option (ℕ × ℚ)), (∀ l ∈ levels, l < config.last) →
      (∀ l s, chosen = some (l, s) → l < config.last ∧ v.filesAt l ≠ []) →
      ∀ l s, levels.foldl (fun chosen level =>
        if (v.filesAt level).length = 0 then chosen
        else
          let score := max (config.levelScore v level) (config.tombstoneDensityScore v level)
          if score ≤ 1 then chosen
          else match chosen with
            | none => some (level, score)
            | some (_, best) => if best < score then some (level, score) else chosen) chosen =
          some (l, s) → l < config.last ∧ v.filesAt l ≠ [] := by
    intro levels
    induction levels with
    | nil => exact fun chosen _ hchosen => hchosen
    | cons level levels ih =>
      intro chosen hlevels hchosen
      rw [foldl_cons]
      refine ih _ (fun l hl => hlevels l (.tail _ hl)) fun l s hl => ?_
      simp only at hl
      split_ifs at hl with hempty hscore
      · exact hchosen l s hl
      · exact hchosen l s hl
      · have hself : level < config.last ∧ v.filesAt level ≠ [] :=
          ⟨hlevels level (.head _), fun hnil => hempty (by simp [hnil])⟩
        cases chosen with
        | none =>
          obtain ⟨rfl, -⟩ := Prod.mk.inj (Option.some_inj.1 hl)
          exact hself
        | some best =>
          simp only at hl
          split_ifs at hl
          · obtain ⟨rfl, -⟩ := Prod.mk.inj (Option.some_inj.1 hl)
            exact hself
          · exact hchosen l s hl
  exact hfold _ none (fun l hl => mem_range.1 hl) nofun level score h

theorem seedOf_mem {level : ℕ} {seed : FileMetadata} (h : config.seedOf v level = some seed) :
    seed ∈ v.filesAt level := by
  unfold seedOf at h
  split_ifs at h
  · exact mem_of_oldestFile h
  · exact mem_of_seedAfterPointer h

theorem selectInputs_spec (h : v.Spanned) {level fuel : ℕ} {seed : FileMetadata}
    (hseed : seed ∈ v.filesAt level) {inputs : List FileMetadata}
    (hinputs : config.selectInputs v level fuel seed = some inputs) :
    inputs.Sublist (v.filesAt level) ∧ inputs ≠ [] := by
  unfold selectInputs at hinputs
  split_ifs at hinputs
  · obtain ⟨found, hfound, rfl⟩ := Option.map_eq_some_iff.1 hinputs
    obtain ⟨hsub, hne⟩ := Version.transitiveOverlap_spec h hseed hfound
    obtain ⟨htrim, hkept⟩ := trimToBudget_spec hne config.maxCompactionBytes
    exact ⟨htrim.trans hsub, hkept⟩
  · obtain rfl := Option.some_inj.1 hinputs
    exact ⟨singleton_sublist.2 hseed, cons_ne_nil _ _⟩

variable (config) in
theorem expandInputs_spec {level : ℕ} (span : Key × Key) {inputs : List FileMetadata}
    (overlaps : List FileMetadata)
    (h : inputs.Sublist (v.filesAt level) ∧ inputs ≠ []) :
    (config.expandInputs v level span inputs overlaps).Sublist (v.filesAt level) ∧
      config.expandInputs v level span inputs overlaps ≠ [] := by
  unfold expandInputs
  simp only
  split_ifs with _ hwider
  · refine ⟨filter_sublist, fun hnil => ?_⟩
    rw [hnil] at hwider
    exact absurd hwider.1 (Nat.not_lt_zero _)
  · exact h
  · exact h
  · exact h

/-- At least one file of a level above the last, and files of the next. -/
structure Progresses (config : PickConfig) (v : Version) (c : Compaction) : Prop where
  level : c.level < config.last
  outputLevel : c.outputLevel = c.level + 1
  inputs : c.inputs.Sublist (v.filesAt c.level)
  nonempty : c.inputs ≠ []
  overlaps : c.overlaps.Sublist (v.filesAt c.outputLevel)

theorem Picks.progresses (hv : v.Spanned) {c : Compaction}
    (h : config.Picks options v (some c)) : config.Progresses v c := by
  obtain ⟨fuel, hpick⟩ := h
  unfold pickCompaction at hpick
  split_ifs at hpick
  · cases hpick
  · cases hlevel : config.chooseLevel v with
    | none =>
      rw [hlevel] at hpick
      cases hpick
    | some chosen =>
      rw [hlevel] at hpick
      simp only at hpick
      cases hseed : config.seedOf v chosen.1 with
      | none =>
        rw [hseed] at hpick
        cases hpick
      | some seed =>
        rw [hseed] at hpick
        obtain ⟨inputs, hinputs, hc⟩ := Option.map_eq_some_iff.1 hpick
        obtain rfl := Option.some_inj.1 hc
        have hspec := expandInputs_spec config (config.inputSpan chosen.1 seed inputs)
          (v.overlappingInclusive (chosen.1 + 1) (config.inputSpan chosen.1 seed inputs).1
            (config.inputSpan chosen.1 seed inputs).2)
          (selectInputs_spec hv (seedOf_mem hseed) hinputs)
        exact
          { level := (chooseLevel_spec hlevel).1
            outputLevel := rfl
            inputs := hspec.1
            nonempty := hspec.2
            overlaps := filter_sublist }

end PickConfig

end ElysiumKV
