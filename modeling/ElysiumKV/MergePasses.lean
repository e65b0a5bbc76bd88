import ElysiumKV.Lib.Search
import ElysiumKV.ScanRuns

/-!
# Passes of the merging iterator

A pass of `MergingIterator` runs in one direction over what children have ahead once positioned: the
loops of `Merge`, in the order of the keys or the opposite one.
-/

namespace ElysiumKV.MergePass

open Merge List

/-- One carrier of `shadowed`: the range before `std::upper_bound`. -/
def covers (ranges : List RangeTombstone) (key : Key) : Bool :=
  match Search.lowerBound (fun r => !(key < r.lower)) ranges with
  | 0 => false
  | i + 1 => ranges[i]?.any fun r => key < r.upper

/-- Each range ends by the start of the next. -/
def Disjoint (ranges : List RangeTombstone) : Prop :=
  ranges.Pairwise fun r s => r.lower ≤ s.lower ∧ r.upper ≤ s.lower

instance (ranges : List RangeTombstone) : Decidable (Disjoint ranges) :=
  inferInstanceAs (Decidable (List.Pairwise _ _))

theorem covers_iff {ranges : List RangeTombstone} (h : Disjoint ranges) {key : Key} :
    covers ranges key = true ↔ Span.Covered ranges key := by
  unfold covers
  constructor
  · intro hcovers
    split at hcovers
    · cases hcovers
    · next i hi =>
      cases hr : ranges[i]? with
      | none => simp [hr] at hcovers
      | some r =>
        have hlower := Search.lowerBound_pred hi.symm hr
        exact ⟨r, mem_of_getElem? hr, by simpa using hlower, by simpa [hr] using hcovers⟩
  · rintro ⟨r, hr, hlower, hupper⟩
    obtain ⟨j, hj, rfl⟩ := getElem_of_mem hr
    have hpairs := pairwise_iff_getElem.1 h
    -- the search ends right after the range that holds the key
    have hfound : Search.lowerBound (fun r => !decide (key < r.lower)) ranges = j + 1 := by
      refine Search.lowerBound_eq hj (fun i x hi hx => ?_) fun i x hi hx => ?_
      · obtain ⟨hlen, rfl⟩ := List.getElem?_eq_some_iff.1 hx
        rcases (Nat.lt_succ_iff.1 hi).lt_or_eq with hlt | rfl
        · simpa using (hpairs i j hlen hj hlt).1.trans hlower
        · simpa using hlower
      · obtain ⟨hlen, rfl⟩ := List.getElem?_eq_some_iff.1 hx
        simpa using hupper.trans_le (hpairs j i hj hlen hi).2
    rw [hfound]
    simpa [hj] using hupper

section Direction

variable {κ : Type} [LinearOrder κ] (dir : Key ≃ κ) (reverse : Bool)

/-- A child after a seek in one of the directions. -/
def positioned (target : Option Key) (c : Sst) : Child (List Entry) κ :=
  ⟨position dir target (orient reverse c.entries), fun k => covers c.ranges (dir.symm k)⟩

/-- A pass's entries; `fuel` bounds each loop. -/
def pass (fuel : ℕ) (target : Option Key) (children : List Sst) : List Entry :=
  yields (listCursor Entry) (scanKey dir) fuel
    (pick (listCursor Entry) (scanKey dir) fuel (children.map (positioned dir reverse target)))

end Direction

/-- `seek_to_first` or `seek`, then `next`. -/
def forward (fuel : ℕ) (target : Option Key) (children : List Sst) : List Entry :=
  pass (Equiv.refl Key) false fuel target children

/-- `seek_to_last` or `seek_for_prev`, then `prev`. -/
def backward (fuel : ℕ) (target : Option Key) (children : List Sst) : List Entry :=
  pass OrderDual.toDual true fuel target children

/-- The entry of the newest child with its key, not covered by a newer one. -/
def Wins (children : List Sst) (e : Entry) : Prop :=
  ∃ newer c older, children = newer ++ c :: older ∧ e ∈ c.entries ∧
    ∀ d ∈ newer, (∀ f ∈ d.entries, f.key ≠ e.key) ∧ ¬ Span.Covered d.ranges e.key

theorem remaining_positioned_le {κ : Type} [LinearOrder κ] (dir : Key ≃ κ) (reverse : Bool)
    (target : Option Key) (children : List Sst) :
    remaining (listCursor Entry) (children.map (positioned dir reverse target)) ≤
      MergingIterator.ahead children := by
  have hchild : ∀ c : Sst,
      (position dir target (orient reverse c.entries)).length ≤ c.entries.length := by
    intro c
    have horient : (orient reverse c.entries).length = c.entries.length := by
      cases reverse <;> simp [orient]
    rw [← horient]
    cases target with
    | none => exact le_rfl
    | some t => exact (dropWhile_sublist _).length_le
  unfold remaining MergingIterator.ahead
  induction children with
  | nil => exact le_rfl
  | cons c children ih => exact Nat.add_le_add (hchild c) ih

theorem pass_spec {κ : Type} [LinearOrder κ] {dir : Key ≃ κ} {reverse : Bool}
    (hdir : Directs dir reverse) {children : List Sst}
    (hs : ∀ c ∈ children, SortedMap.Sorted Entry.key c.entries ∧ Disjoint c.ranges) {fuel : ℕ}
    (hfuel : MergingIterator.ahead children ≤ fuel) (target : Option Key) :
    SortedMap.Sorted (scanKey dir) (pass dir reverse fuel target children) ∧
    ∀ e, e ∈ pass dir reverse fuel target children ↔
      Wins children e ∧ ∀ t ∈ target, ¬ dir e.key < dir t := by
  have hmem : ∀ c ∈ children, ∀ e, e ∈ position dir target (orient reverse c.entries) ↔
      e ∈ c.entries ∧ ∀ t ∈ target, ¬ dir e.key < dir t := by
    intro c hc e
    rw [mem_position (sorted_orient hdir (hs c hc).1), mem_orient]
  have hord : Ordered (listCursor Entry) (scanKey dir)
      (children.map (positioned dir reverse target)) := by
    intro c hc
    obtain ⟨d, hd, rfl⟩ := mem_map.1 hc
    exact sorted_position target (sorted_orient hdir (hs d hd).1)
  have hremaining := (remaining_positioned_le dir reverse target children).trans hfuel
  have hmerges := merges_yields _ fuel fuel hord le_rfl hremaining hremaining
  refine ⟨hmerges.sorted, fun e => ?_⟩
  have hfind := SortedMap.find_eq_some_iff (scanKey dir) hmerges.sorted (k := dir e.key) (x := e)
  rw [hmerges.find, newest_eq_some_iff hord] at hfind
  refine (and_iff_left rfl).symm.trans (hfind.symm.trans ?_)
  constructor
  · rintro ⟨newer, c, older, hsplit, he, -, hnewer⟩
    obtain ⟨newer, rest, rfl, rfl, hrest⟩ := map_eq_append_iff.1 hsplit
    obtain ⟨d, older, rfl, rfl, rfl⟩ := map_eq_cons_iff.1 hrest
    obtain ⟨hd, hpast⟩ := (hmem d (by simp) e).1 he
    refine ⟨⟨newer, d, older, rfl, hd, fun f hf => ?_⟩, hpast⟩
    obtain ⟨hno, hcovers⟩ := hnewer _ (mem_map_of_mem hf)
    have hf' : f ∈ newer ++ d :: older := by simp [hf]
    refine ⟨fun g hg hkey => hno g ((hmem f hf' g).2 ⟨hg, hkey ▸ hpast⟩) (congrArg dir hkey), ?_⟩
    simpa [positioned, ← covers_iff (hs f hf').2] using hcovers
  · rintro ⟨⟨newer, d, older, rfl, hd, hnewer⟩, hpast⟩
    refine ⟨_, positioned dir reverse target d, _, map_append.trans rfl,
      (hmem d (by simp) e).2 ⟨hd, hpast⟩, rfl, ?_⟩
    intro c hc
    obtain ⟨f, hf, rfl⟩ := mem_map.1 hc
    obtain ⟨hno, hcovered⟩ := hnewer f hf
    have hf' : f ∈ newer ++ d :: older := by simp [hf]
    refine ⟨fun g hg hkey => hno g ((hmem f hf' g).1 hg).1 (dir.injective hkey), ?_⟩
    simpa [positioned, ← covers_iff (hs f hf').2] using hcovered

/-- Passes yield the winners from the target on: ascending forward, descending backward. -/
theorem merging_iterator_newest_wins {children : List Sst}
    (hs : ∀ c ∈ children, c.entries.Pairwise (·.key < ·.key) ∧ Disjoint c.ranges) {fuel : ℕ}
    (hfuel : MergingIterator.ahead children ≤ fuel) (target : Option Key) :
    ((forward fuel target children).Pairwise (·.key < ·.key) ∧
      ∀ e, e ∈ forward fuel target children ↔ Wins children e ∧ ∀ t ∈ target, t ≤ e.key) ∧
    ((backward fuel target children).Pairwise (·.key > ·.key) ∧
      ∀ e, e ∈ backward fuel target children ↔ Wins children e ∧ ∀ t ∈ target, e.key ≤ t) := by
  obtain ⟨hforward, hmem⟩ := pass_spec directs_forward hs hfuel target
  obtain ⟨hbackward, hmem'⟩ := pass_spec directs_reverse hs hfuel target
  exact ⟨⟨hforward, by simpa [forward] using hmem⟩, hbackward, by simpa [backward] using hmem'⟩

/-- A newest child with a deletion, a range, and an entry between ranges. -/
def layers : List Sst :=
  [⟨[⟨[2], .delete, []⟩, ⟨[5], .put, [50]⟩], [⟨[3], [4]⟩, ⟨[4], [5]⟩]⟩,
    ⟨[⟨[2], .put, [20]⟩, ⟨[4], .put, [40]⟩, ⟨[5], .put, [51]⟩, ⟨[6], .put, [60]⟩], []⟩]

theorem merging_iterator_newest_wins_layers :
    forward 6 (some [3]) layers = [⟨[5], .put, [50]⟩, ⟨[6], .put, [60]⟩] ∧
    Wins layers ⟨[5], .put, [50]⟩ := by
  have hforward : forward 6 (some [3]) layers = [⟨[5], .put, [50]⟩, ⟨[6], .put, [60]⟩] := by
    decide +kernel
  have hdisjoint : ∀ c ∈ layers, c.entries.Pairwise (·.key < ·.key) ∧ Disjoint c.ranges := by
    decide
  have hmem := (merging_iterator_newest_wins hdisjoint (by decide : _ ≤ 6) (some [3])).1.2
  exact ⟨hforward, ((hmem _).1 (by simp [hforward])).1⟩

end ElysiumKV.MergePass
