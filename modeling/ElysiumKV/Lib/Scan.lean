import ElysiumKV.Lib.Lookup

/-!
# Scans of a sorted map

A scan visits the elements that meet a test, in order. Scans of ascending parts are one scan,
backwards its reverse; two scans rendered alike agree exactly if their tests do
(`map_filter_eq_iff`).
-/

namespace Scan

open List

variable {α β κ ι : Type*} [LinearOrder κ] {key : α → κ}

variable {l : List α} {p q : α → Bool}

theorem filter_append_filter (hl : SortedMap.Sorted key l)
    (h : ∀ x ∈ l, ∀ y ∈ l, p x = true → q y = true → key x < key y) :
    l.filter p ++ l.filter q = l.filter fun x => p x || q x := by
  induction l with
  | nil => rfl
  | cons x l ih =>
    rw [SortedMap.Sorted, pairwise_cons] at hl
    have htail := ih hl.2 fun y hy z hz =>
      h y (mem_cons_of_mem _ hy) z (mem_cons_of_mem _ hz)
    cases hp : p x with
    | true =>
      have hq : q x = false := by
        refine Bool.eq_false_iff.2 fun hq => lt_irrefl (key x) ?_
        exact h x (mem_cons_self ..) x (mem_cons_self ..) hp hq
      simp [hp, hq, ← htail]
    | false =>
      cases hq : q x with
      | false => simp [hp, hq, htail]
      | true =>
        -- whatever follows lies above `x`, so nothing of the first part is left
        have hnone : l.filter p = [] := by
          refine filter_eq_nil_iff.2 fun y hy hpy => ?_
          have hlt := h y (mem_cons_of_mem _ hy) x (mem_cons_self ..) hpy hq
          exact hlt.not_gt (hl.1 y hy)
        simp [hp, hq, hnone, ← htail]

theorem flatMap_filter_of_ascending (hl : SortedMap.Sorted key l) (parts : List ι)
    {p : ι → α → Bool}
    (h : parts.Pairwise fun r s => ∀ x ∈ l, ∀ y ∈ l, p r x = true → p s y = true → key x < key y) :
    (parts.flatMap fun r => l.filter (p r)) = l.filter fun x => parts.any fun r => p r x := by
  induction parts with
  | nil => simp
  | cons r parts ih =>
    rw [pairwise_cons] at h
    rw [flatMap_cons, ih h.2, filter_append_filter hl]
    · rfl
    · intro x hx y hy hr hany
      obtain ⟨s, hs, hsy⟩ := any_eq_true.1 hany
      exact h.1 s hs x hx y hy hr hsy

theorem flatMap_reverse (f : ι → List α) (parts : List ι) :
    (parts.reverse.flatMap fun r => (f r).reverse) = (parts.flatMap f).reverse := by
  induction parts with
  | nil => rfl
  | cons r parts ih => simp [flatMap_append, ih]

theorem map_filter_eq_iff_of_imp (f : α → β) (himp : ∀ x ∈ l, p x = true → q x = true) :
    (l.filter p).map f = (l.filter q).map f ↔ ∀ x ∈ l, q x = true → p x = true := by
  constructor
  · intro h x hx hqx
    have hsub : (l.filter p).Sublist (l.filter q) := by
      have hfilter : l.filter p = (l.filter q).filter p := by
        rw [filter_filter]
        refine filter_congr fun y hy => ?_
        cases hp : p y with
        | true => simp [himp y hy hp]
        | false => simp
      rw [hfilter]
      exact filter_sublist
    have heq := hsub.eq_of_length (by simpa using congrArg List.length h)
    have hmem : x ∈ l.filter p := heq ▸ mem_filter.2 ⟨hx, hqx⟩
    exact (mem_filter.1 hmem).2
  · intro h
    congr 1
    exact filter_congr fun x hx => Bool.eq_iff_iff.2 ⟨himp x hx, h x hx⟩

theorem map_filter_eq_iff (f : α → β)
    (hread : ∀ x ∈ l, ∀ y ∈ l, f x = f y → q x = true → q y = true) :
    (l.filter p).map f = (l.filter q).map f ↔ ∀ x ∈ l, p x = q x := by
  constructor
  · intro h
    have himp : ∀ x ∈ l, p x = true → q x = true := by
      intro x hx hpx
      have hmem : f x ∈ (l.filter q).map f := h ▸ mem_map_of_mem (mem_filter.2 ⟨hx, hpx⟩)
      obtain ⟨y, hy, hyx⟩ := mem_map.1 hmem
      exact hread y (mem_filter.1 hy).1 x hx hyx (mem_filter.1 hy).2
    exact fun x hx => Bool.eq_iff_iff.2 ⟨himp x hx, (map_filter_eq_iff_of_imp f himp).1 h x hx⟩
  · intro h
    rw [filter_congr h]

theorem exists_map_eq {f : α → β} {m : List β} {P : α → Prop} (h : ∀ y ∈ m, ∃ x, f x = y ∧ P x) :
    ∃ l : List α, l.map f = m ∧ ∀ x ∈ l, P x := by
  induction m with
  | nil => exact ⟨[], rfl, by simp⟩
  | cons y m ih =>
    obtain ⟨x, hx, hPx⟩ := h y (mem_cons_self ..)
    obtain ⟨l, hl, hP⟩ := ih fun z hz => h z (mem_cons_of_mem _ hz)
    exact ⟨x :: l, by rw [map_cons, hx, hl], forall_mem_cons.2 ⟨hPx, hP⟩⟩

/-! ### Results that may fail -/

theorem mapM_eq_some_iff {f : α → Option β} {l : List α} {ys : List β} :
    l.mapM f = some ys ↔ l.map f = ys.map some := by
  induction l generalizing ys with
  | nil => cases ys <;> simp
  | cons x l ih =>
    rw [mapM_cons, map_cons]
    cases hx : f x with
    | none => cases ys <;> simp
    | some y =>
      cases htail : l.mapM f with
      | none =>
        obtain - | ⟨z, zs⟩ := ys
        · simp
        · have hne : l.map f ≠ zs.map some := fun h => by simp [ih.2 h] at htail
          simp [hne]
      | some tail =>
        obtain - | ⟨z, zs⟩ := ys
        · simp
        · have hzs := @ih zs
          rw [htail, Option.some.injEq] at hzs
          simp [hzs]

theorem mapM_reverse (f : α → Option β) (l : List α) :
    l.reverse.mapM f = (l.mapM f).map List.reverse := by
  refine Option.ext fun ys => ?_
  rw [mapM_eq_some_iff, Option.map_eq_some_iff]
  constructor
  · intro h
    refine ⟨ys.reverse, mapM_eq_some_iff.2 ?_, reverse_reverse ys⟩
    rw [map_reverse, ← h, map_reverse, reverse_reverse]
  · rintro ⟨zs, hzs, rfl⟩
    rw [map_reverse, mapM_eq_some_iff.1 hzs, map_reverse]

/-- As `map_filter_eq_iff`, where rendering an element as `g` does may fail. -/
theorem mapM_filter_eq_iff {f : α → Option β} {g : α → β}
    (hf : ∀ x ∈ l, ∀ y, f x = some y → y = g x)
    (hread : ∀ x ∈ l, ∀ y ∈ l, g x = g y → q x = true → q y = true) :
    (l.filter p).mapM f = some ((l.filter q).map g) ↔
      ∀ x ∈ l, p x = q x ∧ (q x = true → f x = some (g x)) := by
  rw [mapM_eq_some_iff]
  constructor
  · intro h
    have hsome : ∀ x ∈ l, p x = true → f x = some (g x) := by
      intro x hx hpx
      have hmem : f x ∈ ((l.filter q).map g).map some :=
        h ▸ mem_map_of_mem (mem_filter.2 ⟨hx, hpx⟩)
      obtain ⟨y, -, hy⟩ := mem_map.1 hmem
      rw [← hy, ← hf x hx y hy.symm]
    have hmap : (l.filter p).map f = ((l.filter p).map g).map some := by
      rw [map_map]
      exact map_congr_left fun x hx =>
        hsome x (mem_filter.1 hx).1 (mem_filter.1 hx).2
    have hsame := (map_filter_eq_iff g hread).1
      (map_injective_iff.2 (Option.some_injective β) (hmap.symm.trans h))
    exact fun x hx => ⟨hsame x hx, fun hqx => hsome x hx (hsame x hx ▸ hqx)⟩
  · intro h
    rw [filter_congr fun x hx => (h x hx).1, map_map]
    exact map_congr_left fun x hx =>
      (h x (mem_filter.1 hx).1).2 (mem_filter.1 hx).2

theorem getLast?_filter_eq_some_iff (hl : SortedMap.Sorted key l) {x : α} :
    (l.filter p).getLast? = some x ↔
      (x ∈ l ∧ p x = true) ∧ ∀ y ∈ l, p y = true → key y ≤ key x := by
  have hsorted : SortedMap.Sorted key (l.filter p) := hl.filter p
  rw [← mem_filter]
  constructor
  · intro h
    obtain ⟨front, hfront⟩ := List.getLast?_eq_some_iff.1 h
    refine ⟨mem_of_getLast? h, fun y hy hpy => ?_⟩
    have hmem : y ∈ front ++ [x] := hfront ▸ mem_filter.2 ⟨hy, hpy⟩
    rw [hfront, SortedMap.Sorted, pairwise_append] at hsorted
    rcases mem_append.1 hmem with hmem | hmem
    · exact (hsorted.2.2 y hmem x (mem_singleton_self x)).le
    · rw [mem_singleton.1 hmem]
  · rintro ⟨hx, hmax⟩
    cases hlast : (l.filter p).getLast? with
    | none => simp [List.getLast?_eq_none_iff.1 hlast] at hx
    | some y =>
      obtain ⟨front, hfront⟩ := List.getLast?_eq_some_iff.1 hlast
      obtain ⟨hy, hpy⟩ := mem_filter.1 (mem_of_getLast? hlast)
      rw [hfront, SortedMap.Sorted, pairwise_append] at hsorted
      rcases mem_append.1 (hfront ▸ hx) with hmem | hmem
      · exact absurd (hsorted.2.2 x hmem y (mem_singleton_self y)) (hmax y hy hpy).not_gt
      · rw [mem_singleton.1 hmem]

end Scan
