import Mathlib.Algebra.Order.Ring.Int
import Mathlib.Data.List.Lex

/-!
# Byte strings in lexicographic order

Composite strings compare field by field where the fields before have equal widths, and fixed-width
big-endian numbers compare as numbers.
-/

instance UInt8.linearOrder : LinearOrder UInt8 where
  le_refl := UInt8.le_refl
  le_trans _ _ _ := UInt8.le_trans
  le_antisymm _ _ := UInt8.le_antisymm
  le_total := UInt8.le_total
  lt_iff_le_not_ge a b := by
    rw [UInt8.le_iff_toNat_le, UInt8.le_iff_toNat_le, UInt8.lt_iff_toNat_lt]
    omega
  toDecidableLE := inferInstance
  toDecidableLT := inferInstance
  toDecidableEq := inferInstance

namespace ByteOrder

open List

section Lexicographic

variable {α : Type*} [LinearOrder α]

theorem nil_le (x : List α) : [] ≤ x := not_lt.1 (not_lt_nil x)

theorem append_lt_append_iff {a b : List α} (h : a.length = b.length) (x y : List α) :
    a ++ x < b ++ y ↔ a < b ∨ a = b ∧ x < y := by
  induction a generalizing b with
  | nil =>
    obtain rfl := length_eq_zero_iff.1 h.symm
    simp
  | cons c a ih =>
    obtain - | ⟨d, b⟩ := b
    · simp at h
    · rw [cons_append, cons_append, cons_lt_cons_iff, cons_lt_cons_iff,
        ih (by simpa using h), List.cons.injEq]
      tauto

theorem append_le_append_iff {a b : List α} (h : a.length = b.length) (x y : List α) :
    a ++ x ≤ b ++ y ↔ a < b ∨ a = b ∧ x ≤ y := by
  rw [← not_lt, append_lt_append_iff h.symm]
  rcases lt_trichotomy a b with hlt | rfl | hgt
  · simp [hlt, hlt.not_gt, hlt.ne']
  · simp
  · simp [hgt, hgt.not_gt, hgt.ne']

/-- Unless one string begins with the other, what follows them does not matter. -/
theorem append_le_append_of_apart {a b : List α} (hab : ¬ a <+: b) (hba : ¬ b <+: a)
    (x y : List α) : a ++ x ≤ b ++ y ↔ a ≤ b := by
  rw [← not_lt, ← not_lt, not_iff_not]
  induction a generalizing b with
  | nil => exact absurd nil_prefix hab
  | cons c a ih =>
    obtain - | ⟨d, b⟩ := b
    · exact absurd nil_prefix hba
    · rw [cons_append, cons_append, cons_lt_cons_iff, cons_lt_cons_iff]
      rw [cons_prefix_cons] at hab hba
      refine or_congr_right (and_congr_right fun hd => ih ?_ ?_)
      · exact fun h => hab ⟨hd.symm, h⟩
      · exact fun h => hba ⟨hd, h⟩

theorem append_lt_append_left (a x y : List α) : a ++ x < a ++ y ↔ x < y := by
  simp [append_lt_append_iff rfl]

theorem append_le_append_left (a x y : List α) : a ++ x ≤ a ++ y ↔ x ≤ y := by
  simp [append_le_append_iff rfl]

end Lexicographic

theorem lt_append_zero_iff (x y : List UInt8) : x < y ++ [0] ↔ x ≤ y := by
  refine ⟨fun h => ?_, fun h => h.trans_lt ?_⟩
  · induction y generalizing x with
    | nil =>
      obtain - | ⟨b, x⟩ := x
      · exact le_rfl
      · rw [nil_append, cons_lt_cons_iff] at h
        rcases h with h | ⟨-, h⟩
        · exact absurd h (UInt8.not_lt_zero)
        · exact absurd h (not_lt_nil x)
    | cons c y ih =>
      obtain - | ⟨b, x⟩ := x
      · exact nil_le _
      · rw [cons_append, cons_lt_cons_iff] at h
        refine (append_le_append_iff (a := [b]) (b := [c]) rfl x y).2 ?_
        rw [cons_lt_cons_iff, List.cons.injEq]
        exact h.imp .inl fun h => ⟨⟨h.1, rfl⟩, ih x h.2⟩
  · conv_lhs => rw [← append_nil y]
    exact (append_lt_append_left y [] [0]).2 (nil_lt_cons 0 [])

/-! ### Big-endian numbers -/

/-- The low `w` bytes, most significant first. -/
def putBig : ℕ → ℕ → List UInt8
  | 0, _ => []
  | w + 1, v => putBig w (v / 256) ++ [UInt8.ofNat (v % 256)]

/-- The number of big-endian bytes. -/
def getBig (bytes : List UInt8) : ℕ := bytes.foldl (fun v b => 256 * v + b.toNat) 0

@[simp] theorem length_putBig (w v : ℕ) : (putBig w v).length = w := by
  induction w generalizing v with
  | zero => rfl
  | succ w ih => simp [putBig, ih]

theorem toNat_ofNat_mod (v : ℕ) : (UInt8.ofNat (v % 256)).toNat = v % 256 := by
  rw [UInt8.toNat_ofNat']
  omega

theorem getBig_putBig (w v : ℕ) : getBig (putBig w v) = v % 256 ^ w := by
  induction w generalizing v with
  | zero => simp [putBig, getBig, Nat.mod_one]
  | succ w ih =>
    have hstep : getBig (putBig (w + 1) v) = 256 * getBig (putBig w (v / 256)) + v % 256 := by
      simp only [putBig, getBig, foldl_append, foldl_cons, foldl_nil, toNat_ofNat_mod]
    rw [hstep, ih, Nat.pow_succ', Nat.mod_mul, Nat.add_comm]

theorem getBig_putBig_of_lt {w v : ℕ} (h : v < 256 ^ w) : getBig (putBig w v) = v := by
  rw [getBig_putBig, Nat.mod_eq_of_lt h]

theorem putBig_injOn {w a b : ℕ} (ha : a < 256 ^ w) (hb : b < 256 ^ w)
    (h : putBig w a = putBig w b) : a = b := by
  rw [← getBig_putBig_of_lt ha, h, getBig_putBig_of_lt hb]

theorem putBig_lt_putBig {w a b : ℕ} (ha : a < 256 ^ w) (hb : b < 256 ^ w) :
    putBig w a < putBig w b ↔ a < b := by
  induction w generalizing a b with
  | zero =>
    have ha' : a = 0 := by simpa using ha
    have hb' : b = 0 := by simpa using hb
    simp [putBig, ha', hb']
  | succ w ih =>
    have ha' : a / 256 < 256 ^ w := Nat.div_lt_of_lt_mul (by rwa [Nat.pow_succ'] at ha)
    have hb' : b / 256 < 256 ^ w := Nat.div_lt_of_lt_mul (by rwa [Nat.pow_succ'] at hb)
    have hdigit : [UInt8.ofNat (a % 256)] < [UInt8.ofNat (b % 256)] ↔ a % 256 < b % 256 := by
      rw [cons_lt_cons_iff, UInt8.lt_iff_toNat_lt, toNat_ofNat_mod, toNat_ofNat_mod]
      simp
    rw [putBig, putBig, append_lt_append_iff (by simp), ih ha' hb', hdigit]
    constructor
    · rintro (h | ⟨h, hlt⟩)
      · omega
      · have := putBig_injOn ha' hb' h
        omega
    · intro h
      rcases lt_or_ge (a / 256) (b / 256) with hlt | hge
      · exact .inl hlt
      · have heq : a / 256 = b / 256 := by omega
        exact .inr ⟨by rw [heq], by omega⟩

theorem putBig_le_putBig {w a b : ℕ} (ha : a < 256 ^ w) (hb : b < 256 ^ w) :
    putBig w a ≤ putBig w b ↔ a ≤ b := by
  rw [← not_lt, putBig_lt_putBig hb ha, not_lt]

end ByteOrder
