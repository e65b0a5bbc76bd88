import ElysiumKV.Lib.ByteOrder
import Mathlib.Data.List.Basic
import Mathlib.Data.List.Induction
import Mathlib.Tactic.Ring

/-!
# Decimal digits in ASCII

Numbers in decimal, padded with zeros, and read back; digits of one length compare as their values.
-/

namespace Decimal

open List

/-- An ASCII digit. -/
def IsDigit (c : UInt8) : Prop := ¬ (c < 48 ∨ 57 < c)

instance (c : UInt8) : Decidable (IsDigit c) := inferInstanceAs (Decidable (¬ _))

/-- The number the digits stand for. -/
def value (digits : List UInt8) : ℕ := digits.foldl (fun number c => number * 10 + (c.toNat - 48)) 0

/-- The value of bytes that are all digits. -/
def read (digits : List UInt8) : Option ℕ :=
  digits.foldlM (fun number c =>
    if c < 48 ∨ 57 < c then none else some (number * 10 + (c.toNat - 48))) 0

/-- A number in decimal. -/
def write (n : ℕ) : List UInt8 := (Nat.toDigits 10 n).map fun c => UInt8.ofNat c.toNat

/-- Padded with zeros to at least `width` digits. -/
def writePadded (width n : ℕ) : List UInt8 := List.replicate (width - (write n).length) 48 ++ write n

theorem value_append_singleton (digits : List UInt8) (c : UInt8) :
    value (digits ++ [c]) = value digits * 10 + (c.toNat - 48) := by
  simp [value]

variable {digits : List UInt8} {n : ℕ}

theorem read_eq_some : read digits = some n ↔ (∀ c ∈ digits, IsDigit c) ∧ value digits = n := by
  induction digits using List.reverseRecOn generalizing n with
  | nil => simp [read, value]
  | append_singleton digits c ih =>
    have hread : read (digits ++ [c]) = (read digits).bind fun number =>
        if c < 48 ∨ 57 < c then none else some (number * 10 + (c.toNat - 48)) := by
      simp [read, foldlM_append]
    rw [hread, value_append_singleton, Option.bind_eq_some_iff]
    constructor
    · rintro ⟨m, hm, hc⟩
      obtain ⟨hdigits, rfl⟩ := ih.1 hm
      split_ifs at hc with hdigit
      refine ⟨fun c' hc' => ?_, Option.some.inj hc⟩
      rcases mem_append.1 hc' with hc' | hc'
      · exact hdigits c' hc'
      · rw [mem_singleton.1 hc']
        exact hdigit
    · rintro ⟨hdigits, rfl⟩
      have hc := hdigits c (mem_append_right _ (mem_singleton_self c))
      refine ⟨value digits, ih.2 ⟨fun c' hc' => hdigits c' (mem_append_left _ hc'), rfl⟩, ?_⟩
      rw [if_neg hc]

theorem isDigit_iff {c : UInt8} : IsDigit c ↔ 48 ≤ c.toNat ∧ c.toNat ≤ 57 := by
  have h : IsDigit c ↔ ¬ (c.toNat < 48 ∨ 57 < c.toNat) := Iff.rfl
  rw [h]
  omega

theorem value_lt_value {digits' : List UInt8} (h : ∀ c ∈ digits, IsDigit c)
    (h' : ∀ c ∈ digits', IsDigit c) (hlength : digits.length = digits'.length)
    (hlt : digits < digits') : value digits < value digits' := by
  induction digits using List.reverseRecOn generalizing digits' with
  | nil =>
    obtain rfl := eq_nil_of_length_eq_zero hlength.symm
    exact absurd hlt (lt_irrefl _)
  | append_singleton digits c ih =>
    obtain ⟨digits', c', rfl⟩ : ∃ ds d, digits' = ds ++ [d] := by
      refine ⟨digits'.dropLast, digits'.getLast ?_, (dropLast_concat_getLast _).symm⟩
      rintro rfl
      simp at hlength
    have hc := isDigit_iff.1 (h c (by simp))
    have hc' := isDigit_iff.1 (h' c' (by simp))
    have hinit : digits.length = digits'.length := by simpa using hlength
    rw [value_append_singleton, value_append_singleton]
    rcases (ByteOrder.append_lt_append_iff hinit [c] [c']).1 hlt with hlt | ⟨rfl, hlast⟩
    · have := ih (fun d hd => h d (mem_append_left _ hd))
        (fun d hd => h' d (mem_append_left _ hd)) hinit hlt
      omega
    · have hcc : c < c' := by simpa [cons_lt_cons_iff] using hlast
      have := UInt8.lt_iff_toNat_lt.1 hcc
      omega

theorem value_injOn {digits' : List UInt8} (h : ∀ c ∈ digits, IsDigit c)
    (h' : ∀ c ∈ digits', IsDigit c) (hlength : digits.length = digits'.length)
    (hvalue : value digits = value digits') : digits = digits' := by
  rcases lt_trichotomy digits digits' with hlt | heq | hgt
  · exact absurd hvalue (value_lt_value h h' hlength hlt).ne
  · exact heq
  · exact absurd hvalue (value_lt_value h' h hlength.symm hgt).ne'

theorem value_lt (h : ∀ c ∈ digits, IsDigit c) : value digits < 10 ^ digits.length := by
  induction digits using List.reverseRecOn with
  | nil => simp [value]
  | append_singleton digits c ih =>
    have hc := isDigit_iff.1 (h c (by simp))
    have hinit := ih fun d hd => h d (mem_append_left _ hd)
    rw [value_append_singleton, length_append, length_singleton, pow_succ]
    omega

theorem toNat_of_mem_toDigits {c : Char} (h : c ∈ Nat.toDigits 10 n) :
    48 ≤ c.toNat ∧ c.toNat ≤ 57 := by
  have hdigit := Nat.isDigit_of_mem_toDigits (by decide) (by decide) h
  simp only [Char.isDigit, Bool.and_eq_true, decide_eq_true_eq] at hdigit
  exact ⟨hdigit.1, hdigit.2⟩

theorem toNat_ofNat_of_mem_toDigits {c : Char} (h : c ∈ Nat.toDigits 10 n) :
    (UInt8.ofNat c.toNat).toNat = c.toNat := by
  have hrange := toNat_of_mem_toDigits h
  rw [UInt8.toNat_ofNat']
  omega

theorem isDigit_writePadded {width : ℕ} : ∀ c ∈ writePadded width n, IsDigit c := by
  intro c hc
  rcases mem_append.1 hc with hc | hc
  · rw [eq_of_mem_replicate hc, isDigit_iff]
    decide
  · obtain ⟨d, hd, rfl⟩ := mem_map.1 hc
    rw [isDigit_iff, toNat_ofNat_of_mem_toDigits hd]
    exact toNat_of_mem_toDigits hd

theorem value_write (n : ℕ) : value (write n) = n := by
  have hfold : value (write n) = Nat.ofDigitChars 10 (Nat.toDigits 10 n) 0 := by
    rw [value, write, foldl_map, Nat.ofDigitChars_eq_foldl]
    refine foldl_ext _ _ _ fun number c hc => ?_
    rw [toNat_ofNat_of_mem_toDigits hc, mul_comm]
    rfl
  rw [hfold, Nat.ofDigitChars_toDigits (by decide) (by decide)]

theorem value_writePadded (width n : ℕ) : value (writePadded width n) = n := by
  have hzeros : ∀ k, (List.replicate k (48 : UInt8)).foldl
      (fun number c => number * 10 + (c.toNat - 48)) 0 = 0 := by
    intro k
    induction k with
    | zero => rfl
    | succ k ih => exact ih
  rw [value, writePadded, foldl_append, hzeros]
  exact value_write n

theorem length_writePadded {width : ℕ} (hwidth : 0 < width) (h : n < 10 ^ width) :
    (writePadded width n).length = width := by
  have hlength : (Nat.toDigits 10 n).length ≤ width :=
    (Nat.length_toDigits_le_iff (by decide) hwidth).2 h
  simp only [writePadded, write, length_append, length_replicate, length_map]
  omega

theorem writePadded_le_writePadded {width m : ℕ} (hwidth : 0 < width) (h : n < 10 ^ width)
    (hmn : m ≤ n) : writePadded width m ≤ writePadded width n := by
  by_contra hgt
  have hlength : (writePadded width n).length = (writePadded width m).length := by
    rw [length_writePadded hwidth h, length_writePadded hwidth (hmn.trans_lt h)]
  have hvalue := value_lt_value isDigit_writePadded isDigit_writePadded hlength (not_le.1 hgt)
  rw [value_writePadded, value_writePadded] at hvalue
  exact absurd hvalue (not_lt.2 hmn)

theorem read_writePadded (width n : ℕ) : read (writePadded width n) = some n :=
  read_eq_some.2 ⟨isDigit_writePadded, value_writePadded width n⟩

theorem eq_writePadded (hdigits : 0 < digits.length) (h : read digits = some n) :
    n < 10 ^ digits.length ∧ digits = writePadded digits.length n := by
  obtain ⟨hall, rfl⟩ := read_eq_some.1 h
  have hlt := value_lt hall
  refine ⟨hlt, value_injOn hall isDigit_writePadded (length_writePadded hdigits hlt).symm ?_⟩
  exact (value_writePadded _ _).symm

end Decimal
