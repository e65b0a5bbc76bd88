import Mathlib.Data.List.Basic

/-!
# Bitmaps in bytes

Bits named by byte and place. `mark` and `test` are `none` outside; a marked bit tests true,
whatever is marked or appended later.
-/

namespace Bitmap

/-- The mask of a bit. -/
def mask (bit : ℕ) : UInt8 := 1 <<< UInt8.ofNat (bit % 8)

/-- Set a bit. -/
def mark (bytes : List UInt8) (byte bit : ℕ) : Option (List UInt8) :=
  bytes[byte]?.map fun old => bytes.set byte (old ||| mask bit)

/-- Read a bit. -/
def test (bytes : List UInt8) (byte bit : ℕ) : Option Bool :=
  bytes[byte]?.map fun old => old &&& mask bit != 0

theorem mask_ne_zero (bit : ℕ) : mask bit ≠ 0 := by
  have h : ∀ n < 8, (1 : UInt8) <<< UInt8.ofNat n ≠ 0 := by decide
  exact h _ (Nat.mod_lt _ (by decide))

theorem or_and_self (a b : UInt8) : (a ||| b) &&& b = b := by
  apply UInt8.toBitVec_inj.1
  ext i hi
  simp +contextual

theorem or_and_ne_zero {a c : UInt8} (b : UInt8) (h : a &&& c ≠ 0) : (a ||| b) &&& c ≠ 0 := by
  contrapose! h
  have hbits := congrArg UInt8.toBitVec h
  apply UInt8.toBitVec_inj.1
  ext i hi
  have hbit := congrArg (·[i]) hbits
  simp only [UInt8.toBitVec_and, UInt8.toBitVec_or, BitVec.getElem_and, BitVec.getElem_or] at hbit ⊢
  simp_all

variable {bytes marked : List UInt8} {byte bit : ℕ}

theorem mark_eq_some_iff :
    mark bytes byte bit = some marked ↔
      ∃ old, bytes[byte]? = some old ∧ bytes.set byte (old ||| mask bit) = marked := by
  simp [mark]

theorem exists_mark (h : byte < bytes.length) (bit : ℕ) :
    ∃ marked, mark bytes byte bit = some marked :=
  ⟨_, mark_eq_some_iff.2 ⟨_, List.getElem?_eq_getElem h, rfl⟩⟩

theorem length_mark (h : mark bytes byte bit = some marked) : marked.length = bytes.length := by
  obtain ⟨old, -, rfl⟩ := mark_eq_some_iff.1 h
  exact List.length_set

theorem test_of_mark (h : mark bytes byte bit = some marked) :
    test marked byte bit = some true := by
  obtain ⟨old, hold, rfl⟩ := mark_eq_some_iff.1 h
  have hlt : byte < bytes.length := (List.getElem?_eq_some_iff.1 hold).1
  simp [test, hlt, or_and_self, mask_ne_zero]

/-- Every bit set in the first is set in the second. -/
def Keeps (bytes marked : List UInt8) : Prop :=
  ∀ byte bit, test bytes byte bit = some true → test marked byte bit = some true

theorem Keeps.rfl : Keeps bytes bytes := fun _ _ h => h

theorem Keeps.trans {a b c : List UInt8} (hab : Keeps a b) (hbc : Keeps b c) : Keeps a c :=
  fun byte bit h => hbc byte bit (hab byte bit h)

theorem keeps_mark (h : mark bytes byte bit = some marked) : Keeps bytes marked := by
  intro byte' bit' htest
  obtain ⟨old, hold, rfl⟩ := mark_eq_some_iff.1 h
  have hlt : byte < bytes.length := (List.getElem?_eq_some_iff.1 hold).1
  simp only [test, Option.map_eq_some_iff, bne_iff_ne] at htest ⊢
  obtain ⟨old', hold', hset⟩ := htest
  rcases eq_or_ne byte byte' with rfl | hne
  · obtain rfl := Option.some.inj (hold.symm.trans hold')
    exact ⟨_, List.getElem?_set_self hlt, or_and_ne_zero _ hset⟩
  · exact ⟨old', by rw [List.getElem?_set_ne hne, hold'], hset⟩

theorem keeps_append (bytes rest : List UInt8) : Keeps bytes (bytes ++ rest) := by
  intro byte bit h
  simp only [test, Option.map_eq_some_iff] at h ⊢
  obtain ⟨old, hold, hb⟩ := h
  exact ⟨old, by rw [List.getElem?_append_left (List.getElem?_eq_some_iff.1 hold).1, hold], hb⟩

end Bitmap
