import Mathlib.Order.Lattice
import Mathlib.Logic.Function.Basic

/-!
# A bound that is published before it is committed

A thread publishes a larger value, then commits it or, if it is still the published one, takes it
back. What is committed is never above what is published (`Sound`), which is committed or still
tried if no value is taken back to one that is neither (`Settled`).
-/

namespace Bound

open Function

/-- `attempt t`: the value a thread tries to commit, and what it found published. -/
structure State (T α : Type) where
  committed : α
  published : α
  attempt : T → Option (α × α)

variable {T α : Type} [DecidableEq T] [LinearOrder α] {s : State T α} {t : T} {a before : α}

namespace State

/-- A thread publishes a value. -/
def publish (s : State T α) (t : T) (a : α) : State T α :=
  { s with published := a, attempt := update s.attempt t (some (a, s.published)) }

/-- It commits the value. -/
def commit (s : State T α) (t : T) (a : α) : State T α :=
  { s with committed := max s.committed a, attempt := update s.attempt t none }

/-- It takes the value back. -/
def takeBack (s : State T α) (t : T) (a before : α) : State T α :=
  { s with
    published := if s.published = a then before else s.published
    attempt := update s.attempt t none }

end State

omit [LinearOrder α] in
theorem eq_of_attempt_publish {u : T} {x : α × α} (h : (s.publish t a).attempt u = some x) :
    u = t ∧ x = (a, s.published) ∨ u ≠ t ∧ s.attempt u = some x := by
  by_cases hu : u = t
  · subst hu
    simp only [State.publish, update_self, Option.some.injEq] at h
    exact .inl ⟨rfl, h.symm⟩
  · simp only [State.publish, update_of_ne hu] at h
    exact .inr ⟨hu, h⟩

theorem ne_of_update_none {β : Type} {f : T → Option β} {u : T} {x : β}
    (h : update f t none u = some x) : u ≠ t ∧ f u = some x := by
  by_cases hu : u = t
  · subst hu
    simp at h
  · rw [update_of_ne hu] at h
    exact ⟨hu, h⟩

/-! ### What is committed is published -/

/-- What is committed is published. -/
structure Sound (s : State T α) : Prop where
  committed_le : s.committed ≤ s.published
  attempted : ∀ {t a before}, s.attempt t = some (a, before) →
    before < a ∧ a ≤ s.published ∧ (s.committed ≤ before ∨ a < s.committed)
  apart : ∀ {t u a before b before'}, t ≠ u → s.attempt t = some (a, before) →
    s.attempt u = some (b, before') → a ≤ before' ∨ b ≤ before

theorem Sound.publish (h : Sound s) (hlt : s.published < a) : Sound (s.publish t a) where
  committed_le := h.committed_le.trans hlt.le
  attempted {u b before} hb := by
    rcases eq_of_attempt_publish hb with ⟨-, hb⟩ | ⟨-, hb⟩
    · obtain ⟨rfl, rfl⟩ := Prod.mk.inj hb
      exact ⟨hlt, le_rfl, .inl h.committed_le⟩
    · obtain ⟨hbefore, hle, hcommitted⟩ := h.attempted hb
      exact ⟨hbefore, hle.trans hlt.le, hcommitted⟩
  apart {u v b before c before'} huv hb hc := by
    rcases eq_of_attempt_publish hb with ⟨hut, hnew⟩ | ⟨-, hold⟩ <;>
      rcases eq_of_attempt_publish hc with ⟨hvt, hnew'⟩ | ⟨-, hold'⟩
    · exact absurd (hut.trans hvt.symm) huv
    · obtain ⟨rfl, rfl⟩ := Prod.mk.inj hnew
      exact .inr (h.attempted hold').2.1
    · obtain ⟨rfl, rfl⟩ := Prod.mk.inj hnew'
      exact .inl (h.attempted hold).2.1
    · exact h.apart huv hold hold'

theorem Sound.commit (h : Sound s) (ht : s.attempt t = some (a, before)) :
    Sound (s.commit t a) where
  committed_le := max_le h.committed_le (h.attempted ht).2.1
  attempted {u b before'} hb := by
    obtain ⟨hut, hb⟩ := ne_of_update_none hb
    obtain ⟨hlt, hle, hcommitted⟩ := h.attempted hb
    refine ⟨hlt, hle, ?_⟩
    -- the other attempt lies above the one committed, or below it
    rcases h.apart hut hb ht with hbelow | habove
    · exact .inr ((hbelow.trans_lt (h.attempted ht).1).trans_le (le_max_right _ _))
    · exact hcommitted.imp (fun hc => max_le hc habove) fun hc => hc.trans_le (le_max_left _ _)
  apart huv hb hc :=
    h.apart huv (ne_of_update_none hb).2 (ne_of_update_none hc).2

theorem Sound.takeBack (h : Sound s) (ht : s.attempt t = some (a, before)) :
    Sound (s.takeBack t a before) := by
  obtain ⟨hlt, hle, hcommitted⟩ := h.attempted ht
  refine ⟨?_, fun {u b before'} hb => ?_, fun huv hb hc =>
    h.apart huv (ne_of_update_none hb).2 (ne_of_update_none hc).2⟩
  · show s.committed ≤ if s.published = a then before else s.published
    split_ifs with hpublished
    · exact hcommitted.resolve_right (not_lt.2 (hpublished ▸ h.committed_le))
    · exact h.committed_le
  · obtain ⟨hut, hb⟩ := ne_of_update_none hb
    obtain ⟨hlt', hle', hcommitted'⟩ := h.attempted hb
    refine ⟨hlt', ?_, hcommitted'⟩
    show b ≤ if s.published = a then before else s.published
    split_ifs with hpublished
    · refine (h.apart hut hb ht).resolve_right fun habove => ?_
      exact absurd (habove.trans_lt hlt') (not_lt.2 (hpublished ▸ hle'))
    · exact hle'

/-! ### What is published is committed or tried -/

/-- What is published is committed or tried. -/
def Settled (s : State T α) : Prop :=
  s.published = s.committed ∨ ∃ t before, s.attempt t = some (s.published, before)

omit [DecidableEq T] [LinearOrder α] in
theorem Settled.eq (h : Settled s) (hnone : ∀ t, s.attempt t = none) :
    s.published = s.committed := by
  rcases h with h | ⟨t, before, ht⟩
  · exact h
  · cases (hnone t).symm.trans ht

omit [LinearOrder α] in
theorem settled_publish (s : State T α) (t : T) (a : α) : Settled (s.publish t a) :=
  .inr ⟨t, s.published, update_self ..⟩

theorem Settled.commit (h : Settled s) (hsound : Sound s) (ht : s.attempt t = some (a, before)) :
    Settled (s.commit t a) := by
  have hle := (hsound.attempted ht).2.1
  rcases h with h | ⟨u, before', hu⟩
  · exact .inl (h.trans (max_eq_left (h ▸ hle)).symm)
  by_cases hut : u = t
  · subst hut
    obtain ⟨rfl, -⟩ := Prod.mk.inj (Option.some.inj (ht.symm.trans hu))
    exact .inl (max_eq_right hsound.committed_le).symm
  · exact .inr ⟨u, before', (update_of_ne hut ..).trans hu⟩

/-- What is left is committed or tried by another thread. -/
def Covered (s : State T α) (t : T) (a before : α) : Prop :=
  s.published = a → before = s.committed ∨ ∃ u before', u ≠ t ∧ s.attempt u = some (before, before')

theorem Settled.takeBack (h : Settled s) (ht : s.attempt t = some (a, before))
    (hcovered : Covered s t a before) : Settled (s.takeBack t a before) := by
  unfold Settled State.takeBack
  dsimp only
  split_ifs with hpublished
  · rcases hcovered hpublished with hbefore | ⟨u, before', hut, hu⟩
    · exact .inl hbefore
    · exact .inr ⟨u, before', (update_of_ne hut ..).trans hu⟩
  · refine h.imp_right ?_
    rintro ⟨u, before', hu⟩
    have hut : u ≠ t := by
      rintro rfl
      exact hpublished (congrArg Prod.fst (Option.some.inj (hu.symm.trans ht)))
    exact ⟨u, before', (update_of_ne hut ..).trans hu⟩

end Bound
