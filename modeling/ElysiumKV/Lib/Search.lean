import Mathlib.Data.List.Basic

/-!
# Binary search

`std::lower_bound` on any list: the element before the place found satisfies the predicate, the one
there does not.
-/

namespace Search

variable {α : Type*} (p : α → Bool) (l : List α)

/-- Among the `len` elements from `first` on. -/
def lowerBoundFrom : ℕ → ℕ → ℕ → ℕ
  | 0, first, _ => first
  | fuel + 1, first, len =>
    if len = 0 then first
    else match l[first + len / 2]? with
      | none => first
      | some x =>
        if p x then lowerBoundFrom fuel (first + len / 2 + 1) (len - len / 2 - 1)
        else lowerBoundFrom fuel first (len / 2)

/-- `std::lower_bound`. -/
def lowerBound : ℕ := lowerBoundFrom p l l.length 0 l.length

variable {p l}

/-- `p` holds right before the interval and fails right after. -/
structure Brackets (p : α → Bool) (l : List α) (first last : ℕ) : Prop where
  pred : ∀ i x, i + 1 = first → l[i]? = some x → p x = true
  stop : ∀ x, l[last]? = some x → p x = false

theorem brackets_lowerBoundFrom (fuel : ℕ) : ∀ {first len : ℕ}, len ≤ fuel →
    first + len ≤ l.length → Brackets p l first (first + len) →
    Brackets p l (lowerBoundFrom p l fuel first len) (lowerBoundFrom p l fuel first len) := by
  induction fuel with
  | zero =>
    intro first len hfuel _ h
    obtain rfl : len = 0 := by omega
    exact h
  | succ fuel ih =>
    intro first len hfuel hlen h
    unfold lowerBoundFrom
    split_ifs with hzero
    · rw [hzero, Nat.add_zero] at h
      exact h
    · have hmid : first + len / 2 < l.length := by omega
      rw [List.getElem?_eq_getElem hmid]
      simp only
      split_ifs with hp
      · refine ih (by omega) (by omega) ⟨fun i x hi hx => ?_, fun x hx => h.stop x ?_⟩
        · obtain rfl : i = first + len / 2 := by omega
          rw [List.getElem?_eq_getElem hmid, Option.some_inj] at hx
          rwa [← hx]
        · rwa [show first + len = first + len / 2 + 1 + (len - len / 2 - 1) by omega]
      · refine ih (by omega) (by omega) ⟨h.pred, fun x hx => ?_⟩
        rw [List.getElem?_eq_getElem hmid, Option.some_inj] at hx
        rw [← hx]
        simpa using hp

theorem brackets_lowerBound : Brackets p l (lowerBound p l) (lowerBound p l) := by
  refine brackets_lowerBoundFrom l.length (Nat.le_refl _) (by omega)
    ⟨fun i x hi => ?_, fun x hx => ?_⟩
  · omega
  · simp at hx

theorem lowerBound_pred {i : ℕ} {x : α} (hi : i + 1 = lowerBound p l) (hx : l[i]? = some x) :
    p x = true := brackets_lowerBound.pred i x hi hx

theorem lowerBound_stop {x : α} (hx : l[lowerBound p l]? = some x) : p x = false :=
  brackets_lowerBound.stop x hx

theorem lowerBoundFrom_le (fuel : ℕ) : ∀ {first len : ℕ}, first + len ≤ l.length →
    lowerBoundFrom p l fuel first len ≤ l.length := by
  induction fuel with
  | zero => exact fun h => Nat.le_trans (Nat.le_add_right _ _) h
  | succ fuel ih =>
    intro first len h
    unfold lowerBoundFrom
    split_ifs with hzero
    · omega
    · split
      · omega
      · split_ifs
        · exact ih (by omega)
        · exact ih (by omega)

theorem lowerBound_le : lowerBound p l ≤ l.length := lowerBoundFrom_le _ (by omega)

theorem exists_of_skipped {i : ℕ} {x : α} (hx : l[i]? = some x) (hp : p x = false)
    (hskip : i < lowerBound p l) : ∃ j y, i < j ∧ l[j]? = some y ∧ p y = true := by
  obtain ⟨j, hj⟩ : ∃ j, j + 1 = lowerBound p l := ⟨lowerBound p l - 1, by omega⟩
  have hlen : j < l.length := by
    have := lowerBound_le (p := p) (l := l)
    omega
  have hpj := lowerBound_pred hj (List.getElem?_eq_getElem hlen)
  refine ⟨j, l[j], Nat.lt_of_le_of_ne (by omega) ?_, List.getElem?_eq_getElem hlen, hpj⟩
  rintro rfl
  rw [List.getElem?_eq_getElem hlen, Option.some_inj] at hx
  rw [← hx, hpj] at hp
  exact Bool.noConfusion hp

theorem lowerBound_eq {n : ℕ} (hn : n ≤ l.length)
    (hpred : ∀ i x, i < n → l[i]? = some x → p x = true)
    (hstop : ∀ i x, n ≤ i → l[i]? = some x → p x = false) : lowerBound p l = n := by
  have hle := lowerBound_le (p := p) (l := l)
  rcases Nat.lt_trichotomy (lowerBound p l) n with hlt | heq | hgt
  · have hx := List.getElem?_eq_getElem (Nat.lt_of_lt_of_le hlt hn)
    exact Bool.noConfusion ((hpred _ _ hlt hx).symm.trans (lowerBound_stop hx))
  · exact heq
  · obtain ⟨i, hi⟩ : ∃ i, i + 1 = lowerBound p l := ⟨lowerBound p l - 1, by omega⟩
    have hx := List.getElem?_eq_getElem (show i < l.length by omega)
    exact Bool.noConfusion ((lowerBound_pred hi hx).symm.trans (hstop i _ (by omega) hx))

end Search
