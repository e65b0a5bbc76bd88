import Mathlib.Data.Nat.Notation
import Mathlib.Order.Basic

/-!
# Loops that may not end

A step gives the result or the next state. A loop returns if a measure falls with every step, and
does not from states whose steps lead back among them.
-/

namespace Loop

variable {S R : Type*} (step : S → R ⊕ S)

/-- The result, if it returns in so many steps. -/
def run : ℕ → S → Option R
  | 0, _ => none
  | fuel + 1, s => match step s with
    | .inl r => some r
    | .inr t => run fuel t

/-- Some number of steps gives the result. -/
def Returns (s : S) (r : R) : Prop := ∃ fuel, run step fuel s = some r

variable {step} {s : S} {r : R}

theorem run_succ_inl (h : step s = .inl r) (fuel : ℕ) : run step (fuel + 1) s = some r := by
  rw [run, h]

theorem run_succ_inr {t : S} (h : step s = .inr t) (fuel : ℕ) :
    run step (fuel + 1) s = run step fuel t := by
  rw [run, h]

theorem Returns.of_inl (h : step s = .inl r) : Returns step s r := ⟨1, run_succ_inl h 0⟩

theorem Returns.of_inr {t : S} (h : step s = .inr t) (ht : Returns step t r) :
    Returns step s r := by
  obtain ⟨fuel, hfuel⟩ := ht
  exact ⟨fuel + 1, (run_succ_inr h fuel).trans hfuel⟩

theorem run_eq_of_run {fuel : ℕ} {r' : R} (h : run step fuel s = some r) :
    ∀ {fuel' : ℕ}, run step fuel' s = some r' → r' = r := by
  induction fuel generalizing s with
  | zero => cases h
  | succ fuel ih =>
    intro fuel' h'
    cases fuel' with
    | zero => cases h'
    | succ fuel' =>
      cases hstep : step s with
      | inl found =>
        rw [run_succ_inl hstep] at h h'
        exact Option.some_inj.1 (h'.symm.trans h)
      | inr t =>
        rw [run_succ_inr hstep] at h h'
        exact ih h h'

theorem run_invariant {P : S → Prop} {Q : R → Prop}
    (hinl : ∀ s r, P s → step s = .inl r → Q r) (hinr : ∀ s t, P s → step s = .inr t → P t)
    {fuel : ℕ} (hs : P s) (h : run step fuel s = some r) : Q r := by
  induction fuel generalizing s with
  | zero => cases h
  | succ fuel ih =>
    cases hstep : step s with
    | inl found =>
      rw [run_succ_inl hstep] at h
      exact Option.some_inj.1 h ▸ hinl s found hs hstep
    | inr t =>
      rw [run_succ_inr hstep] at h
      exact ih (hinr s t hs hstep) h

theorem returns_of_measure (μ : S → ℕ) {P : S → Prop}
    (hstep : ∀ s t, P s → step s = .inr t → P t ∧ μ t < μ s) (hs : P s) :
    ∃ r, Returns step s r := by
  induction hn : μ s using Nat.strongRecOn generalizing s with
  | _ n ih =>
    cases h : step s with
    | inl r => exact ⟨r, .of_inl h⟩
    | inr t =>
      obtain ⟨ht, hlt⟩ := hstep s t hs h
      obtain ⟨r, hr⟩ := ih (μ t) (hn ▸ hlt) ht rfl
      exact ⟨r, .of_inr h hr⟩

theorem run_eq_none_of_closed {P : S → Prop} (hstep : ∀ s, P s → ∃ t, step s = .inr t ∧ P t)
    (hs : P s) (fuel : ℕ) : run step fuel s = none := by
  induction fuel generalizing s with
  | zero => rfl
  | succ fuel ih =>
    obtain ⟨t, ht, hP⟩ := hstep s hs
    rw [run_succ_inr ht, ih hP]

end Loop
