import Mathlib.Data.List.Induction
import Mathlib.Order.Lattice

/-!
# Timelines

The writes to one cell with the times they take effect, in the order made. The last made at a time
replaces the earlier ones; the one in force at a time is the newest not after it.
-/

namespace Timeline

open List

variable {τ α : Type*} [LinearOrder τ]

/-- The later write, the second of equal times. -/
def later (best : Option (τ × α)) (w : τ × α) : Option (τ × α) :=
  match best with
  | none => some w
  | some b => if b.1 ≤ w.1 then some w else some b

/-- The greatest time, the last made at it. -/
def newest (writes : List (τ × α)) : Option (τ × α) := writes.foldl later none

/-- The newest write not after a time. -/
def inForce (t : τ) (writes : List (τ × α)) : Option (τ × α) :=
  newest (writes.filter fun w => w.1 ≤ t)

/-- The last write made at a time. -/
def lastAt (t : τ) (writes : List (τ × α)) : Option α :=
  ((writes.filter fun w => w.1 = t).getLast?).map Prod.snd

@[simp] theorem newest_nil : newest ([] : List (τ × α)) = none := rfl

theorem newest_append (writes : List (τ × α)) (w : τ × α) :
    newest (writes ++ [w]) = later (newest writes) w := by
  simp [newest]

@[simp] theorem lastAt_nil (t : τ) : lastAt t ([] : List (τ × α)) = none := rfl

theorem lastAt_append (t : τ) (writes : List (τ × α)) (w : τ × α) :
    lastAt t (writes ++ [w]) = if w.1 = t then some w.2 else lastAt t writes := by
  unfold lastAt
  split_ifs with h
  · simp [filter_append, h]
  · simp [filter_append, h]

variable {t : τ}

theorem lastAt_filter {p : τ → Bool} (h : p t = true) (writes : List (τ × α)) :
    lastAt t (writes.filter fun w => p w.1) = lastAt t writes := by
  unfold lastAt
  rw [filter_filter]
  congr 2
  refine filter_congr fun w _ => ?_
  by_cases hw : w.1 = t <;> simp [hw, h]

variable {writes : List (τ × α)} {a : α}

theorem exists_of_lastAt (h : lastAt t writes = some a) : (t, a) ∈ writes := by
  obtain ⟨w, hw, rfl⟩ := Option.map_eq_some_iff.1 h
  obtain ⟨hmem, htime⟩ := mem_filter.1 (mem_of_getLast? hw)
  have : w.1 = t := by simpa using htime
  exact this ▸ hmem

theorem newest_eq_none_iff : newest writes = none ↔ writes = [] := by
  induction writes using List.reverseRecOn with
  | nil => simp
  | append_singleton writes w ih =>
    rw [newest_append]
    cases newest writes with
    | none => simp [later]
    | some best =>
      simp only [later]
      split_ifs <;> simp

theorem newest_eq_some_iff :
    newest writes = some (t, a) ↔ lastAt t writes = some a ∧ ∀ w ∈ writes, w.1 ≤ t := by
  induction writes using List.reverseRecOn generalizing t a with
  | nil => simp
  | append_singleton writes w ih =>
    obtain ⟨r, c⟩ := w
    have hall : (∀ w ∈ writes ++ [(r, c)], w.1 ≤ t) ↔ (∀ w ∈ writes, w.1 ≤ t) ∧ r ≤ t := by
      simp [or_imp, forall_and]
    rw [newest_append, lastAt_append, hall]
    cases hnewest : newest writes with
    | none =>
      obtain rfl := newest_eq_none_iff.1 hnewest
      by_cases hr : r = t
      · simp [later, hr]
      · simp [later, hr]
    | some best =>
      obtain ⟨s, b⟩ := best
      obtain ⟨hlast, hmax⟩ := ih.1 hnewest
      simp only [later]
      split_ifs with hle hr hr
      · subst hr
        simpa using fun _ w v hw => (hmax (w, v) hw).trans hle
      · -- an older write at a time beyond the new one would be beyond the newest
        simp only [Option.some.injEq, Prod.mk.injEq, hr, false_and, false_iff]
        rintro ⟨hlast', -, hrt⟩
        exact hr (le_antisymm hrt ((hmax _ (exists_of_lastAt hlast')).trans hle))
      · subst hr
        simp only [Option.some.injEq, Prod.mk.injEq]
        constructor
        · rintro ⟨rfl, -⟩
          exact absurd le_rfl hle
        · rintro ⟨-, hmax', -⟩
          exact absurd (hmax' _ (exists_of_lastAt hlast)) hle
      · rw [← hnewest, ih]
        exact ⟨fun h => ⟨h.1, h.2, (le_of_not_ge hle).trans (h.2 _ (exists_of_lastAt hlast))⟩,
          fun h => ⟨h.1, h.2.1⟩⟩

theorem inForce_eq_some_iff {s : τ} :
    inForce t writes = some (s, a) ↔
      s ≤ t ∧ lastAt s writes = some a ∧ ∀ w ∈ writes, w.1 ≤ t → w.1 ≤ s := by
  rw [inForce, newest_eq_some_iff]
  simp only [mem_filter, decide_eq_true_eq, and_imp]
  constructor
  · rintro ⟨hlast, hmax⟩
    have hle : s ≤ t := by simpa using (mem_filter.1 (exists_of_lastAt hlast)).2
    rw [lastAt_filter (p := fun x => decide (x ≤ t)) (by simpa using hle)] at hlast
    exact ⟨hle, hlast, hmax⟩
  · rintro ⟨hle, hlast, hmax⟩
    rw [lastAt_filter (p := fun x => decide (x ≤ t)) (by simpa using hle)]
    exact ⟨hlast, hmax⟩

theorem inForce_eq_none_iff : inForce t writes = none ↔ ∀ w ∈ writes, ¬ w.1 ≤ t := by
  rw [inForce, newest_eq_none_iff]
  simp [filter_eq_nil_iff]

theorem inForce_of_newest {s : τ} (h : newest writes = some (s, a)) (hle : s ≤ t) :
    inForce t writes = some (s, a) := by
  obtain ⟨hlast, hmax⟩ := newest_eq_some_iff.1 h
  exact inForce_eq_some_iff.2 ⟨hle, hlast, fun w hw _ => hmax w hw⟩

/-! ### Superseded writes -/

/-- The last made at a time, if a newer one is there. -/
def superseded (t : τ) (writes : List (τ × α)) : Option α :=
  match newest writes with
  | none => none
  | some n => if t < n.1 then lastAt t writes else none

theorem lastAt_eq_none_of_lt (h : ∀ w ∈ writes, w.1 < t) : lastAt t writes = none := by
  cases hlast : lastAt t writes with
  | none => rfl
  | some a => exact absurd (h _ (exists_of_lastAt hlast)) (lt_irrefl t)

variable {w : τ × α}

theorem newest_append_of_le (h : ∀ n, newest writes = some n → n.1 ≤ w.1) :
    newest (writes ++ [w]) = some w := by
  rw [newest_append]
  cases hn : newest writes with
  | none => rfl
  | some n => simp [later, h n hn]

variable {n : τ × α}

theorem newest_append_of_lt (h : newest writes = some n) (hlt : w.1 < n.1) :
    newest (writes ++ [w]) = some n := by
  simp [newest_append, h, later, hlt.not_ge]

theorem superseded_append_of_le (hn : newest writes = some n) (h : n.1 ≤ w.1) :
    superseded t (writes ++ [w]) =
      if n.1 ≠ w.1 ∧ t = n.1 then some n.2 else superseded t writes := by
  obtain ⟨hlast, hmax⟩ := newest_eq_some_iff.1 (show newest writes = some (n.1, n.2) from hn)
  have hnew : newest (writes ++ [w]) = some w :=
    newest_append_of_le fun m hm => by rwa [← Option.some.inj (hn.symm.trans hm)]
  simp only [superseded, hnew, hn, lastAt_append]
  rcases lt_trichotomy t n.1 with hlt | heq | hgt
  · simp [hlt, hlt.ne, hlt.trans_le h, (hlt.trans_le h).ne']
  · subst heq
    rcases h.lt_or_eq with hlt | heq
    · simp [hlt, hlt.ne, hlt.ne', hlast]
    · simp [heq]
  · have hnone : lastAt t writes = none :=
      lastAt_eq_none_of_lt fun x hx => (hmax x hx).trans_lt hgt
    simp only [hgt.not_gt, hgt.ne', and_false, if_false, hnone]
    split_ifs with hlt heq <;> first | rfl | exact absurd heq hlt.ne'

theorem superseded_append_of_none (w : τ × α) (h : newest writes = none) :
    superseded t (writes ++ [w]) = none := by
  obtain rfl := newest_eq_none_iff.1 h
  simp only [superseded, nil_append, newest, foldl_cons, foldl_nil, later]
  split_ifs with hlt
  · exact (lastAt_append t [] w).trans (by simp [hlt.ne'])
  · rfl

theorem superseded_append_of_lt (hn : newest writes = some n) (h : w.1 < n.1) :
    superseded t (writes ++ [w]) = if w.1 = t then some w.2 else superseded t writes := by
  simp only [superseded, newest_append_of_lt hn h, hn, lastAt_append]
  split_ifs with hlt heq heq
  · rfl
  · rfl
  · exact absurd (heq ▸ h) hlt
  · rfl

end Timeline
