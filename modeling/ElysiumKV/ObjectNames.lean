import ElysiumKV.ManifestPayload

/-!
# Names of SST objects

The file number in twelve digits and a suffix. Below 10^12 `sstFileNumber` reads it back, and takes
no other name for an SST's.
-/

namespace ElysiumKV

open ManifestPayload

/-- `kSstSuffix` -/
def sstSuffix : Bytes := [46, 115, 115, 116]

/-- `sst_object_name`. -/
def sstObjectName (fileNumber : ℕ) : Bytes := twelveDigits fileNumber ++ sstSuffix

/-- `sst_file_number`. -/
def sstFileNumber (name : Bytes) : Option ℕ :=
  if ¬ sstSuffix <:+ name then none
  else
    let digits := name.take (name.length - sstSuffix.length)
    if digits.length ≠ 12 then none else Decimal.read digits

theorem sstFileNumber_append (digits : Bytes) : sstFileNumber (digits ++ sstSuffix) =
    if digits.length ≠ 12 then none else Decimal.read digits := by
  have hsuffix : sstSuffix <:+ digits ++ sstSuffix := List.suffix_append _ _
  have htake : (digits ++ sstSuffix).take ((digits ++ sstSuffix).length - sstSuffix.length) =
      digits := by
    rw [List.length_append, Nat.add_sub_cancel, List.take_left]
  simp only [sstFileNumber, htake, hsuffix, not_true_eq_false, if_false]

theorem sstFileNumber_sstObjectName {n : ℕ} (h : n < 10 ^ 12) :
    sstFileNumber (sstObjectName n) = some n := by
  have hlength : (twelveDigits n).length = 12 := Decimal.length_writePadded (by decide) h
  rw [sstObjectName, sstFileNumber_append, if_neg (not_not.2 hlength)]
  exact Decimal.read_writePadded 12 n

theorem sstObjectName_injective : Function.Injective sstObjectName := by
  intro n m h
  have hdigits : twelveDigits n = twelveDigits m := List.append_cancel_right h
  rw [← Decimal.value_writePadded 12 n, ← Decimal.value_writePadded 12 m]
  exact congrArg Decimal.value hdigits

theorem sstFileNumber_eq_some {name : Bytes} {n : ℕ} (h : sstFileNumber name = some n) :
    n < 10 ^ 12 ∧ name = sstObjectName n := by
  by_cases hsuffix : sstSuffix <:+ name
  · obtain ⟨digits, rfl⟩ := hsuffix
    rw [sstFileNumber_append] at h
    split_ifs at h with hlength
    obtain ⟨hlt, hdigits⟩ := Decimal.eq_writePadded (by omega) h
    rw [not_not.1 hlength] at hlt hdigits
    rw [sstObjectName, twelveDigits, ← hdigits]
    exact ⟨hlt, rfl⟩
  · simp [sstFileNumber, hsuffix] at h

end ElysiumKV
