import Mathlib.Data.List.Basic
import Mathlib.Tactic.Ring

/-!
# Reading back what was written

Byte parsers that hand on the rest. `Reads p bytes a`: `p` reads `a` off `bytes` whatever follows;
records are read with `Reads.bind`, sequences with `Reads.many`.
-/

namespace Codec

open List

/-- Takes a value off the front, or refuses. -/
abbrev Parser (α : Type) := StateT (List UInt8) Option α

/-- `p` reads `a` off `bytes`, whatever follows. -/
def Reads {α : Type} (p : Parser α) (bytes : List UInt8) (a : α) : Prop :=
  ∀ rest, p.run (bytes ++ rest) = some (a, rest)

/-- Refuses unless `c`. -/
def require (c : Prop) [Decidable c] : Parser Unit := fun input =>
  if c then some ((), input) else none

/-- The next `n` bytes. -/
def takeBytes (n : ℕ) : Parser (List UInt8) := fun input =>
  if input.length < n then none else some (input.take n, input.drop n)

/-- The same parser `n` times. -/
def many {α : Type} (p : Parser α) : ℕ → Parser (List α)
  | 0 => pure []
  | n + 1 => do
    let a ← p
    let as ← many p n
    return a :: as

section Reads

variable {α β : Type} {p : Parser α} {f : α → Parser β} {x y : List UInt8} {a : α} {b : β}

theorem Reads.run (h : Reads p x a) : p.run x = some (a, []) := by
  simpa using h []

theorem reads_pure (a : α) : Reads (pure a) [] a := fun _ => rfl

theorem Reads.bind (hp : Reads p x a) (hf : Reads (f a) y b) : Reads (p >>= f) (x ++ y) b := by
  intro rest
  rw [StateT.run_bind, append_assoc, hp]
  exact hf rest

theorem Reads.last (hp : Reads p x a) (hf : Reads (f a) [] b) : Reads (p >>= f) x b := by
  have h : Reads (p >>= f) (x ++ []) b := hp.bind hf
  rwa [append_nil] at h

theorem Reads.map (hp : Reads p x a) (g : α → β) : Reads (p >>= fun a => pure (g a)) x (g a) :=
  hp.last (reads_pure (g a))

theorem Reads.require {c : Prop} [Decidable c] {p : Parser α} (hc : c) (hp : Reads p x a) :
    Reads (Codec.require c >>= fun _ => p) x a := by
  intro rest
  have hrun : (Codec.require c).run (x ++ rest) = some ((), x ++ rest) := if_pos hc
  rw [StateT.run_bind, hrun]
  exact hp rest

theorem reads_takeBytes (bytes : List UInt8) : Reads (takeBytes bytes.length) bytes bytes := by
  intro rest
  have hlen : ¬ (bytes ++ rest).length < bytes.length := by simp
  show (if _ then none else _) = _
  rw [if_neg hlen, take_left, drop_left]

theorem Reads.many {put : β → List UInt8} {norm : β → α} {l : List β}
    (h : ∀ b ∈ l, Reads p (put b) (norm b)) :
    Reads (Codec.many p l.length) (l.flatMap put) (l.map norm) := by
  induction l with
  | nil => exact reads_pure []
  | cons b l ih =>
    have hrest := ih fun c hc => h c (mem_cons_of_mem _ hc)
    exact (h b (mem_cons_self ..)).bind (hrest.map (norm b :: ·))

end Reads

/-- `p` takes exactly `n` bytes. -/
def Consumes {α : Type} (p : Parser α) (n : ℕ) : Prop :=
  ∀ input a rest, p.run input = some (a, rest) → input.length = rest.length + n

theorem consumes_pure {α : Type} (a : α) : Consumes (pure a : Parser α) 0 := by
  intro input b rest h
  obtain ⟨-, rfl⟩ := Prod.mk.inj (Option.some.inj h)
  rfl

theorem consumes_takeBytes (n : ℕ) : Consumes (takeBytes n) n := by
  intro input bytes rest h
  change (if input.length < n then none else some (input.take n, input.drop n)) = _ at h
  split_ifs at h with hlen
  obtain ⟨-, rfl⟩ := Prod.mk.inj (Option.some.inj h)
  rw [length_drop]
  omega

theorem Consumes.bind {α β : Type} {p : Parser α} {f : α → Parser β} {m n : ℕ}
    (hp : Consumes p m) (hf : ∀ a, Consumes (f a) n) : Consumes (p >>= f) (n + m) := by
  intro input b rest h
  rw [StateT.run_bind] at h
  obtain ⟨⟨a, middle⟩, hfirst, hlast⟩ := Option.bind_eq_some_iff.1 h
  rw [hp _ _ _ hfirst, hf a _ _ _ hlast]
  omega

theorem Consumes.run_eq_none {α : Type} {p : Parser α} {n : ℕ} (hp : Consumes p n)
    {input : List UInt8} (h : input.length < n) : p.run input = none := by
  cases hrun : p.run input with
  | none => rfl
  | some result =>
    have := hp input result.1 result.2 hrun
    omega

/-! ### Fixed-width integers -/

/-- `n` bytes, least significant first. -/
def putFixed : ℕ → ℕ → List UInt8
  | 0, _ => []
  | n + 1, v => UInt8.ofNat (v % 256) :: putFixed n (v / 256)

/-- The integer of little-endian bytes. -/
def decodeFixed : List UInt8 → ℕ
  | [] => 0
  | b :: bytes => b.toNat + 256 * decodeFixed bytes

@[simp] theorem length_putFixed (n v : ℕ) : (putFixed n v).length = n := by
  induction n generalizing v with
  | zero => rfl
  | succ n ih => simp [putFixed, ih]

theorem decodeFixed_putFixed (n v : ℕ) : decodeFixed (putFixed n v) = v % 256 ^ n := by
  induction n generalizing v with
  | zero => simp [putFixed, decodeFixed, Nat.mod_one]
  | succ n ih =>
    have hbyte : (UInt8.ofNat (v % 256)).toNat = v % 256 := by
      rw [UInt8.toNat_ofNat']
      omega
    rw [putFixed, decodeFixed, ih, hbyte, Nat.pow_succ', Nat.mod_mul]

theorem decodeFixed_putFixed_of_lt {n v : ℕ} (h : v < 256 ^ n) :
    decodeFixed (putFixed n v) = v := by
  rw [decodeFixed_putFixed, Nat.mod_eq_of_lt h]

theorem decodeFixed_lt (bytes : List UInt8) : decodeFixed bytes < 256 ^ bytes.length := by
  induction bytes with
  | nil => decide
  | cons b bytes ih =>
    have hlt := b.toNat_lt
    rw [decodeFixed, length_cons, Nat.pow_succ']
    omega

theorem putFixed_decodeFixed (bytes : List UInt8) :
    putFixed bytes.length (decodeFixed bytes) = bytes := by
  induction bytes with
  | nil => rfl
  | cons b bytes ih =>
    have hlt := b.toNat_lt
    have hbyte : (b.toNat + 256 * decodeFixed bytes) % 256 = b.toNat := by omega
    have hrest : (b.toNat + 256 * decodeFixed bytes) / 256 = decodeFixed bytes := by omega
    rw [decodeFixed, length_cons, putFixed, hbyte, hrest, ih, UInt8.ofNat_toNat]

/-! ### Delimiters -/

theorem append_inj_of_delimiter {α : Type} {p : α → Prop} {a a' b b' : List α} {c c' : α}
    (ha : ∀ x ∈ a, p x) (ha' : ∀ x ∈ a', p x) (hc : ¬ p c) (hc' : ¬ p c')
    (h : a ++ c :: b = a' ++ c' :: b') : a = a' ∧ c :: b = c' :: b' := by
  induction a generalizing a' with
  | nil =>
    cases a' with
    | nil => exact ⟨rfl, h⟩
    | cons x a' =>
      obtain rfl : c = x := (List.cons.inj h).1
      exact absurd (ha' c (.head _)) hc
  | cons x a ih =>
    cases a' with
    | nil =>
      obtain rfl : x = c' := (List.cons.inj h).1
      exact absurd (ha x (.head _)) hc'
    | cons y a' =>
      obtain ⟨rfl, htail⟩ := List.cons.inj h
      obtain ⟨rfl, hrest⟩ := ih (fun z hz => ha z (.tail _ hz)) (fun z hz => ha' z (.tail _ hz))
        htail
      exact ⟨rfl, hrest⟩

/-! ### Variable-length integers -/

/-- Seven bits a byte, least significant first, the top bit set on all but the last; at most `n`. -/
def putVarint : ℕ → ℕ → List UInt8
  | 0, _ => []
  | n + 1, v =>
    if 128 ≤ v then UInt8.ofNat (v % 128 + 128) :: putVarint n (v / 128) else [UInt8.ofNat v]

theorem one_le_length_putVarint {n : ℕ} (hn : 0 < n) (v : ℕ) : 1 ≤ (putVarint n v).length := by
  obtain ⟨n, rfl⟩ := Nat.exists_eq_succ_of_ne_zero hn.ne'
  unfold putVarint
  split_ifs <;> simp

/-- Reads at most `n` more bytes into a register of `width` bits. -/
def varintLoop (width : ℕ) : ℕ → ℕ → ℕ → Parser ℕ
  | 0, _, _ => fun _ => none
  | n + 1, shift, result => fun input => match input with
    | [] => none
    | byte :: rest =>
      if 128 ≤ byte.toNat then
        (varintLoop width n (shift + 7)
          ((result + (byte.toNat - 128) * 2 ^ shift) % 2 ^ width)).run rest
      else some ((result + byte.toNat * 2 ^ shift) % 2 ^ width, rest)

/-- A variable-length integer. -/
def getVarint (width n : ℕ) : Parser ℕ := varintLoop width n 0 0

theorem reads_varintLoop (width : ℕ) (n : ℕ) : ∀ {v : ℕ} (shift result : ℕ), 0 < n →
    v < 128 ^ n → Reads (varintLoop width n shift result) (putVarint n v)
      ((result + v * 2 ^ shift) % 2 ^ width) := by
  induction n with
  | zero =>
    intro v _ _ hn
    omega
  | succ n ih =>
    intro v shift result _ hv rest
    unfold putVarint varintLoop
    by_cases hbig : 128 ≤ v
    · have hbyte : (UInt8.ofNat (v % 128 + 128)).toNat = v % 128 + 128 := by
        rw [UInt8.toNat_ofNat']
        omega
      have hrest : v / 128 < 128 ^ n := by
        rw [Nat.div_lt_iff_lt_mul (by omega), ← Nat.pow_succ]
        exact hv
      have hpos : 0 < n := by
        -- a continuation byte is followed by at least one more
        rcases Nat.eq_zero_or_pos n with rfl | hpos
        · simp only [Nat.pow_zero] at hrest
          omega
        · exact hpos
      have hnext := ih (shift + 7) ((result + v % 128 * 2 ^ shift) % 2 ^ width) hpos hrest rest
      have hvalue : ((result + v % 128 * 2 ^ shift) % 2 ^ width + v / 128 * 2 ^ (shift + 7)) %
          2 ^ width = (result + v * 2 ^ shift) % 2 ^ width := by
        have hsplit : v % 128 * 2 ^ shift + v / 128 * 2 ^ (shift + 7) = v * 2 ^ shift := by
          have hv' := Nat.mod_add_div v 128
          calc v % 128 * 2 ^ shift + v / 128 * 2 ^ (shift + 7)
              = (v % 128 + 128 * (v / 128)) * 2 ^ shift := by rw [Nat.pow_add]; ring
            _ = v * 2 ^ shift := by rw [hv']
        rw [Nat.mod_add_mod, Nat.add_assoc, hsplit]
      rw [if_pos hbig]
      show (if 128 ≤ (UInt8.ofNat (v % 128 + 128)).toNat then _ else _) = _
      rw [if_pos (by omega), hbyte, Nat.add_sub_cancel, ← hvalue]
      exact hnext
    · have hbyte : (UInt8.ofNat v).toNat = v := by
        rw [UInt8.toNat_ofNat']
        omega
      rw [if_neg hbig]
      show (if 128 ≤ (UInt8.ofNat v).toNat then _ else _) = _
      rw [if_neg (by omega), hbyte]
      rfl

theorem reads_getVarint {width n v : ℕ} (hv : v < 2 ^ width) (hn : 2 ^ width ≤ 128 ^ n)
    (hpos : 0 < n) : Reads (getVarint width n) (putVarint n v) v := by
  have h := reads_varintLoop width n 0 0 hpos (hv.trans_le hn)
  rwa [Nat.pow_zero, Nat.mul_one, Nat.zero_add, Nat.mod_eq_of_lt hv] at h

end Codec
