import Mathlib.Algebra.Order.Ring.Int

/-!
# Watermark intervals

A memtable or file carries `(low, high)`: its writes lie above `low`, and writes at or below `high`
are in it or in something older. `RecoveryWatermark` folds them into the position a replay resumes
after.
-/

namespace ElysiumKV

/-- `WatermarkInterval`. -/
structure WatermarkInterval where
  low : Option ℕ := none
  high : Option ℕ := none
deriving DecidableEq, Repr

/-- `accumulate_min`: an absent value is ignored. -/
def accumulateMin (into value : Option ℕ) : Option ℕ :=
  match value with
  | none => into
  | some v => match into with
    | none => some v
    | some i => some (min i v)

/-- `accumulate_max`. -/
def accumulateMax (into value : Option ℕ) : Option ℕ :=
  match value with
  | none => into
  | some v => match into with
    | none => some v
    | some i => some (max i v)

namespace WatermarkInterval

/-- `WatermarkInterval::merge`: an absent low absorbs. -/
def merge (w other : WatermarkInterval) : WatermarkInterval where
  low := match other.low with
    | none => none
    | some o => w.low.map fun l => min l o
  high := match other.high with
    | none => w.high
    | some o => match w.high with
      | none => some o
      | some h => some (max h o)

variable {w other : WatermarkInterval}

theorem merge_low_eq_some {low : ℕ} :
    (w.merge other).low = some low ↔
      ∃ a b, w.low = some a ∧ other.low = some b ∧ low = min a b := by
  cases hw : w.low <;> cases ho : other.low <;> simp [merge, hw, ho, eq_comm]

theorem merge_high_cases {high : ℕ} (h : (w.merge other).high = some high) :
    w.high = some high ∨ other.high = some high := by
  cases hw : w.high with
  | none => cases ho : other.high <;> simp_all [merge]
  | some a => cases ho : other.high with
    | none => simp_all [merge]
    | some b =>
      rcases max_choice a b with hmax | hmax <;> simp_all [merge]

theorem le_merge_high {a : ℕ} (h : w.high = some a ∨ other.high = some a) :
    ∃ high, (w.merge other).high = some high ∧ a ≤ high := by
  cases hw : w.high <;> cases ho : other.high <;> simp_all [merge]
  exact h.imp (·.ge) (·.ge)

/-- A low comes with a high no smaller. -/
def Ordered (w : WatermarkInterval) : Prop := ∀ low ∈ w.low, ∃ high ∈ w.high, low ≤ high

theorem Ordered.merge (h : w.Ordered) : (w.merge other).Ordered := by
  intro low hlow
  obtain ⟨a, b, ha, -, rfl⟩ := merge_low_eq_some.1 hlow
  obtain ⟨high, hhigh, hle⟩ := h a ha
  obtain ⟨high', hhigh', hle'⟩ : ∃ high', (w.merge other).high = some high' ∧ high ≤ high' :=
    le_merge_high (.inl hhigh)
  exact ⟨high', hhigh', (min_le_left a b).trans (hle.trans hle')⟩

end WatermarkInterval

/-- What a discard pins; no `position` certifies nothing. -/
structure WatermarkFloor where
  position : Option ℕ := none
deriving DecidableEq, Repr

/-- `lower_to`. -/
def WatermarkFloor.lowerTo (floor : WatermarkFloor) (bound : Option ℕ) : WatermarkFloor :=
  match floor.position with
  | none => floor
  | some p => match bound with
    | none => ⟨none⟩
    | some b => if b < p then ⟨some b⟩ else floor

/-- `RecoveryWatermark`. -/
structure RecoveryWatermark where
  anythingDiscarded : Bool := false
  discardedLowerBoundAbsent : Bool := false
  discardedLowerBoundSeen : Option ℕ := none
  survivingUpperBound : Option ℕ := none
deriving DecidableEq, Repr

namespace RecoveryWatermark

variable (r : RecoveryWatermark)

/-- `observe_discarded`. -/
def observeDiscarded (w : WatermarkInterval) : RecoveryWatermark :=
  match w.low with
  | none => { r with anythingDiscarded := true, discardedLowerBoundAbsent := true }
  | some _ => { r with
      anythingDiscarded := true
      discardedLowerBoundSeen := accumulateMin r.discardedLowerBoundSeen w.low }

/-- `observe_survivor`. -/
def observeSurvivor (w : WatermarkInterval) : RecoveryWatermark :=
  { r with survivingUpperBound := accumulateMax r.survivingUpperBound w.high }

/-- `discarded_lower_bound`. -/
def discardedLowerBound : Option ℕ :=
  if r.discardedLowerBoundAbsent then none else r.discardedLowerBoundSeen

/-- `resume_after`: where a replay resumes. -/
def resumeAfter : Option ℕ :=
  if r.anythingDiscarded then r.discardedLowerBound else r.survivingUpperBound

end RecoveryWatermark

end ElysiumKV
