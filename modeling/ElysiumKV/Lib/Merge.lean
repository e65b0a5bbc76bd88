import ElysiumKV.Lib.Lookup
import Mathlib.Algebra.Order.Ring.Int
import Mathlib.Data.List.TakeWhile

/-!
# Newest-first merges of sorted streams

A merge stands on the first child with the least key ahead, steps over the key in every child, and
skips a key that a newer child covers. For every key it yields what the newest child that speaks
says (`merges_merged`). Descending merges run in the dual order.
-/

namespace Merge

open List

/-- Streams read one element at a time, with what is ahead. -/
structure Cursor (S α : Type*) where
  head : S → Option α
  next : S → S
  ahead : S → List α
  head_eq : ∀ s, head s = (ahead s).head?
  ahead_next : ∀ s, ahead (next s) = (ahead s).tail

/-- Lists as streams. -/
def listCursor (α : Type*) : Cursor (List α) α where
  head := List.head?
  next := List.tail
  ahead := id
  head_eq _ := rfl
  ahead_next _ := rfl

theorem dropWhile_flatMap_dropWhile {α β : Type*} {p : β → Bool} {q : α → Bool} {g : α → List β}
    {l : List α} (h : ∀ a ∈ l, q a = true → ∀ b ∈ g a, p b = true) :
    ((l.dropWhile q).flatMap g).dropWhile p = (l.flatMap g).dropWhile p := by
  induction l with
  | nil => rfl
  | cons a l ih =>
    have hrest := ih fun b hb => h b (.tail _ hb)
    rw [dropWhile_cons]
    split_ifs with hq
    · rw [hrest, flatMap_cons, dropWhile_append, dropWhile_eq_nil_iff.2 (h a (.head _) hq)]
      rfl
    · rfl

/-- A stream, and the keys it covers in later children. -/
structure Child (S κ : Type*) where
  stream : S
  covers : κ → Bool

/-- It stands on a child, or is exhausted. -/
structure State (S κ : Type*) where
  children : List (Child S κ)
  current : Option ℕ

section

variable {S α κ : Type*} [LinearOrder κ] (C : Cursor S α) (key : α → κ)

variable (children : List (Child S κ))

/-- The element a child stands on. -/
def headAt (i : ℕ) : Option α :=
  (children[i]?).bind fun c => C.head c.stream

/-- A tie stays on the earlier child. -/
def pickStep (current : Option ℕ) (i : ℕ) : Option ℕ :=
  match headAt C children i with
  | none => current
  | some e => match current.bind (headAt C children) with
    | none => some i
    | some c => if key e < key c then some i else current

/-- The first child with the least key. -/
def pickRaw : Option ℕ :=
  (List.range children.length).foldl (pickStep C key children) none

/-- Step over the key. -/
def advance (k : κ) (c : Child S κ) : Child S κ :=
  match C.head c.stream with
  | none => c
  | some e => if key e = k then { c with stream := C.next c.stream } else c

/-- Every child steps over the key. -/
def step (k : κ) : List (Child S κ) := children.map (advance C key k)

/-- An earlier child covers the key. -/
def shadowed (current : ℕ) (k : κ) : Bool :=
  (children.take current).any fun c => c.covers k

/-- The elements left. -/
def remaining : ℕ :=
  (children.map fun c => (C.ahead c.stream).length).sum

/-- Pick a child, stepping over covered keys. -/
def pick : ℕ → List (Child S κ) → State S κ
  | 0, children => ⟨children, none⟩
  | fuel + 1, children =>
    match pickRaw C key children with
    | none => ⟨children, none⟩
    | some i => match headAt C children i with
      | none => ⟨children, none⟩
      | some e =>
        if shadowed children i (key e) then pick fuel (step C key children (key e))
        else ⟨children, some i⟩

/-- The element it stands on. -/
def State.element (x : State S κ) : Option α := x.current.bind (headAt C x.children)

/-- One step. -/
def State.next (x : State S κ) : State S κ :=
  match x.element C with
  | none => x
  | some e =>
    let children := step C key x.children (key e)
    pick C key (remaining C children) children

/-- The elements from here on, at most `fuel`. -/
def yields : ℕ → State S κ → List α
  | 0, _ => []
  | fuel + 1, x => match x.element C with
    | none => []
    | some e => e :: yields fuel (x.next C key)

/-- All elements of a merge. -/
def merged : List α :=
  yields C key (remaining C children) (pick C key (remaining C children) children)

/-! ### The pick -/

/-- What the pick found in `n` children. -/
def PickedUpTo (n : ℕ) : Option ℕ → Prop
  | none => ∀ j < n, headAt C children j = none
  | some i => i < n ∧ ∃ e, headAt C children i = some e ∧
      ∀ j < n, ∀ f, headAt C children j = some f → key e ≤ key f ∧ (j < i → key e < key f)

variable {C key}

variable {children} {n : ℕ}

theorem pickStep_spec {current : Option ℕ} (h : PickedUpTo C key children n current) :
    PickedUpTo C key children (n + 1) (pickStep C key children current n) := by
  unfold pickStep
  cases hn : headAt C children n with
  | none =>
    cases current with
    | none =>
      intro j hj
      rcases Nat.lt_succ_iff_lt_or_eq.1 hj with hj | rfl
      · exact h j hj
      · exact hn
    | some i =>
      obtain ⟨hi, e, he, hmin⟩ := h
      refine ⟨by omega, e, he, fun j hj f hf => ?_⟩
      rcases Nat.lt_succ_iff_lt_or_eq.1 hj with hj | rfl
      · exact hmin j hj f hf
      · rw [hn] at hf
        cases hf
  | some e =>
    cases current with
    | none =>
      refine ⟨by omega, e, hn, fun j hj f hf => ?_⟩
      rcases Nat.lt_succ_iff_lt_or_eq.1 hj with hj | rfl
      · rw [h j hj] at hf
        cases hf
      · rw [hn] at hf
        cases hf
        exact ⟨le_rfl, fun hlt => absurd hlt (lt_irrefl _)⟩
    | some i =>
      obtain ⟨hi, c, hc, hmin⟩ := h
      simp only [Option.bind_some, hc]
      split_ifs with hlt
      · refine ⟨by omega, e, hn, fun j hj f hf => ?_⟩
        rcases Nat.lt_succ_iff_lt_or_eq.1 hj with hj | rfl
        · have := hlt.trans_le (hmin j hj f hf).1
          exact ⟨this.le, fun _ => this⟩
        · rw [hn] at hf
          cases hf
          exact ⟨le_rfl, fun hlt => absurd hlt (lt_irrefl _)⟩
      · refine ⟨by omega, c, hc, fun j hj f hf => ?_⟩
        rcases Nat.lt_succ_iff_lt_or_eq.1 hj with hj | rfl
        · exact hmin j hj f hf
        · rw [hn] at hf
          cases hf
          exact ⟨not_lt.1 hlt, fun h => by omega⟩

variable (C key) in
theorem pickRaw_spec (children : List (Child S κ)) :
    PickedUpTo C key children children.length (pickRaw C key children) := by
  have hfold : ∀ n,
      PickedUpTo C key children n ((List.range n).foldl (pickStep C key children) none) := by
    intro n
    induction n with
    | zero => exact fun j hj => absurd hj (Nat.not_lt_zero j)
    | succ n ih =>
      rw [range_succ, foldl_append]
      exact pickStep_spec ih
  exact hfold children.length

theorem ahead_eq_nil_of_pick_none (h : pickRaw C key children = none) :
    ∀ c ∈ children, C.ahead c.stream = [] := by
  intro c hc
  obtain ⟨i, hi, rfl⟩ := getElem_of_mem hc
  have hspec := pickRaw_spec C key children
  rw [h] at hspec
  have hnone := hspec i hi
  simpa [headAt, List.getElem?_eq_getElem hi, C.head_eq] using hnone

variable {i : ℕ}

/-- No newer child has the key or anything smaller ahead, and no child anything smaller. -/
theorem pick_split (h : pickRaw C key children = some i)
    (hsorted : ∀ c ∈ children, SortedMap.Sorted key (C.ahead c.stream)) :
    ∃ pre c post e rest, children = pre ++ c :: post ∧ pre.length = i ∧
      C.ahead c.stream = e :: rest ∧ headAt C children i = some e ∧
      (∀ d ∈ pre, ∀ f ∈ C.ahead d.stream, key e < key f) ∧
      ∀ d ∈ children, ∀ f ∈ C.ahead d.stream, key e ≤ key f := by
  have hspec := pickRaw_spec C key children
  rw [h] at hspec
  obtain ⟨hi, e, he, hmin⟩ := hspec
  -- what a child has further ahead lies above the element it stands on
  have hhead : ∀ j (hj : j < children.length) (f : α), f ∈ C.ahead (children[j]).stream →
      key e ≤ key f ∧ (j < i → key e < key f) := by
    intro j hj f hf
    have hs := hsorted _ (getElem_mem hj)
    cases hahead : C.ahead (children[j]).stream with
    | nil => simp [hahead] at hf
    | cons g gs =>
      rw [hahead] at hf hs
      have hg := hmin j hj g (by
        simp [headAt, List.getElem?_eq_getElem hj, C.head_eq, hahead])
      rcases mem_cons.1 hf with rfl | hmem
      · exact hg
      · have hgf := (pairwise_cons.1 hs).1 f hmem
        exact ⟨hg.1.trans hgf.le, fun hji => (hg.2 hji).trans hgf⟩
  have hahead : ∃ rest, C.ahead (children[i]).stream = e :: rest := by
    simp only [headAt, List.getElem?_eq_getElem hi, Option.bind_some, C.head_eq] at he
    exact ⟨_, eq_cons_of_mem_head? he⟩
  obtain ⟨rest, hrest⟩ := hahead
  refine ⟨children.take i, children[i], children.drop (i + 1), e, rest, ?_, ?_, hrest, he, ?_, ?_⟩
  · rw [getElem_cons_drop, take_append_drop]
  · rw [length_take]
    omega
  · intro d hd f hf
    obtain ⟨j, hj, rfl⟩ := getElem_of_mem hd
    rw [length_take] at hj
    rw [getElem_take] at hf
    exact (hhead j (by omega) f hf).2 (by omega)
  · intro d hd f hf
    obtain ⟨j, hj, rfl⟩ := getElem_of_mem hd
    exact (hhead j hj f hf).1

/-! ### One step of the pass -/

theorem covers_advance (k : κ) (c : Child S κ) : (advance C key k c).covers = c.covers := by
  unfold advance
  split
  · rfl
  · split_ifs <;> rfl

theorem ahead_advance (k : κ) (c : Child S κ) :
    C.ahead (advance C key k c).stream = match C.ahead c.stream with
      | [] => []
      | e :: rest => if key e = k then rest else e :: rest := by
  unfold advance
  rw [C.head_eq]
  cases hahead : C.ahead c.stream with
  | nil => simp [hahead]
  | cons e rest =>
    simp only [List.head?_cons]
    split_ifs
    · rw [C.ahead_next, hahead, tail_cons]
    · exact hahead

variable {k : κ} {c : Child S κ}

theorem mem_advance (hs : SortedMap.Sorted key (C.ahead c.stream))
    (hmin : ∀ f ∈ C.ahead c.stream, k ≤ key f) {f : α} :
    f ∈ C.ahead (advance C key k c).stream ↔ f ∈ C.ahead c.stream ∧ k < key f := by
  rw [ahead_advance]
  cases hahead : C.ahead c.stream with
  | nil => simp
  | cons e rest =>
    rw [hahead] at hs hmin
    obtain ⟨hrest, -⟩ := pairwise_cons.1 hs
    simp only
    split_ifs with hk
    · constructor
      · intro hf
        exact ⟨mem_cons_of_mem _ hf, hk ▸ hrest f hf⟩
      · rintro ⟨hf, hlt⟩
        rcases mem_cons.1 hf with rfl | hf
        · exact absurd hlt (hk ▸ lt_irrefl _)
        · exact hf
    · have he : k < key e := lt_of_le_of_ne (hmin e (by simp)) (Ne.symm hk)
      refine ⟨fun hf => ⟨hf, ?_⟩, fun hf => hf.1⟩
      rcases mem_cons.1 hf with rfl | hf
      · exact he
      · exact he.trans (hrest f hf)

theorem sorted_advance (k : κ) (hs : SortedMap.Sorted key (C.ahead c.stream)) :
    SortedMap.Sorted key (C.ahead (advance C key k c).stream) := by
  rw [ahead_advance]
  cases hahead : C.ahead c.stream with
  | nil => exact List.Pairwise.nil
  | cons e rest =>
    rw [hahead] at hs
    simp only
    split_ifs
    · exact (pairwise_cons.1 hs).2
    · exact hs

variable (C key) in
theorem length_advance_le (k : κ) (c : Child S κ) :
    (C.ahead (advance C key k c).stream).length ≤ (C.ahead c.stream).length := by
  rw [ahead_advance]
  cases C.ahead c.stream with
  | nil => exact le_rfl
  | cons e rest =>
    simp only
    split_ifs
    · exact Nat.le_succ _
    · exact le_rfl

variable (C key) in
theorem remaining_step_le (children : List (Child S κ)) (k : κ) :
    remaining C (step C key children k) ≤ remaining C children := by
  unfold remaining step
  induction children with
  | nil => exact le_rfl
  | cons c cs ih =>
    have := length_advance_le C key k c
    simp only [map_cons, sum_cons]
    omega

variable {e : α}

variable (key) in
theorem remaining_step_lt (pre post : List (Child S κ)) {rest : List α}
    (h : C.ahead c.stream = e :: rest) :
    remaining C (step C key (pre ++ c :: post) (key e)) < remaining C (pre ++ c :: post) := by
  have hpre := remaining_step_le C key pre (key e)
  have hpost := remaining_step_le C key post (key e)
  have hc : (C.ahead (advance C key (key e) c).stream).length < (C.ahead c.stream).length := by
    rw [ahead_advance, h]
    simp
  simp only [remaining, step, map_append, map_cons, sum_append, sum_cons] at hpre hpost ⊢
  omega

/-! ### The whole pass -/

variable (C key) in
/-- A child's own element, that it covers the key, or nothing. -/
def speaks (k : κ) (c : Child S κ) : Option (Option α) :=
  match SortedMap.find key k (C.ahead c.stream) with
  | some e => some (some e)
  | none => if c.covers k then some none else none

variable (C key) in
/-- What the newest child that speaks says. -/
def newest (children : List (Child S κ)) (k : κ) : Option α :=
  (children.findSome? (speaks C key k)).join

theorem newest_eq_some_iff (hs : ∀ c ∈ children, SortedMap.Sorted key (C.ahead c.stream)) :
    newest C key children k = some e ↔ ∃ newer c older, children = newer ++ c :: older ∧
      e ∈ C.ahead c.stream ∧ key e = k ∧
      ∀ d ∈ newer, (∀ f ∈ C.ahead d.stream, key f ≠ k) ∧ d.covers k = false := by
  have hsome : ∀ c ∈ children,
      speaks C key k c = some (some e) ↔ e ∈ C.ahead c.stream ∧ key e = k := by
    intro c hc
    rw [← SortedMap.find_eq_some_iff key (hs c hc), speaks]
    cases SortedMap.find key k (C.ahead c.stream) with
    | some f => simp
    | none => cases c.covers k <;> simp
  have hnone : ∀ c, speaks C key k c = none ↔
      (∀ f ∈ C.ahead c.stream, key f ≠ k) ∧ c.covers k = false := by
    intro c
    rw [← SortedMap.find_eq_none_iff key, speaks]
    cases SortedMap.find key k (C.ahead c.stream) with
    | some f => simp
    | none => cases c.covers k <;> simp
  rw [newest, Option.join_eq_some_iff, List.findSome?_eq_some_iff]
  constructor
  · rintro ⟨newer, c, older, rfl, hc, hnewer⟩
    obtain ⟨he, hk⟩ := (hsome c (by simp)).1 hc
    exact ⟨newer, c, older, rfl, he, hk, fun d hd => (hnone d).1 (hnewer d hd)⟩
  · rintro ⟨newer, c, older, rfl, he, hk, hnewer⟩
    exact ⟨newer, c, older, rfl, (hsome c (by simp)).2 ⟨he, hk⟩,
      fun d hd => (hnone d).2 (hnewer d hd)⟩

variable (C key) in
/-- Every stream is sorted. -/
def Ordered (children : List (Child S κ)) : Prop :=
  ∀ c ∈ children, SortedMap.Sorted key (C.ahead c.stream)

variable (C key) in
/-- What a merge yields. -/
structure Merges (children : List (Child S κ)) (out : List α) : Prop where
  sorted : SortedMap.Sorted key out
  mem : ∀ e ∈ out, ∃ c ∈ children, e ∈ C.ahead c.stream
  find : ∀ k, SortedMap.find key k out = newest C key children k

theorem speaks_advance {k' : κ} (hs : SortedMap.Sorted key (C.ahead c.stream))
    (hmin : ∀ f ∈ C.ahead c.stream, k ≤ key f) (hk : k' ≠ k) :
    speaks C key k' (advance C key k c) = speaks C key k' c := by
  have hfind : SortedMap.find key k' (C.ahead (advance C key k c).stream) =
      SortedMap.find key k' (C.ahead c.stream) := by
    cases h : SortedMap.find key k' (C.ahead c.stream) with
    | some f =>
      obtain ⟨hf, hfk⟩ := (SortedMap.find_eq_some_iff key hs).1 h
      have hlt : k < key f := lt_of_le_of_ne (hmin f hf) (fun h => hk (hfk ▸ h.symm))
      exact (SortedMap.find_eq_some_iff key (sorted_advance k hs)).2
        ⟨(mem_advance hs hmin).2 ⟨hf, hlt⟩, hfk⟩
    | none =>
      rw [SortedMap.find_eq_none_iff] at h ⊢
      exact fun f hf => h f ((mem_advance hs hmin).1 hf).1
  unfold speaks
  rw [hfind, covers_advance]

theorem findSome?_speaks_of_no_element (h : ∀ c ∈ children, ∀ e ∈ C.ahead c.stream, key e ≠ k) :
    children.findSome? (speaks C key k) =
      if children.any (·.covers k) then some none else none := by
  induction children with
  | nil => rfl
  | cons c cs ih =>
    have hc : SortedMap.find key k (C.ahead c.stream) = none :=
      (SortedMap.find_eq_none_iff key).2 (h c (.head _))
    have hrest := ih fun d hd => h d (.tail _ hd)
    rw [List.findSome?_cons, hrest, any_cons]
    unfold speaks
    rw [hc]
    cases c.covers k with
    | true => simp
    | false => simp

theorem Ordered.step (h : Ordered C key children) (k : κ) :
    Ordered C key (step C key children k) := by
  intro c hc
  obtain ⟨d, hd, rfl⟩ := mem_map.1 hc
  exact sorted_advance k (h d hd)

theorem merges_of_pick_none (h : pickRaw C key children = none) : Merges C key children [] where
  sorted := List.Pairwise.nil
  mem := by simp
  find k := by
    have hempty := ahead_eq_nil_of_pick_none h
    unfold newest
    rw [findSome?_speaks_of_no_element fun c hc e he => by simp [hempty c hc] at he]
    split_ifs <;> rfl

/-- An element that is not shadowed comes before the rest, a shadowed one is dropped. -/
theorem Merges.step {out : List α} (hord : Ordered C key children)
    (hpick : pickRaw C key children = some i) (he : headAt C children i = some e)
    (h : Merges C key (step C key children (key e)) out) :
    Merges C key children (if shadowed children i (key e) then out else e :: out) := by
  obtain ⟨pre, c, post, e', rest, hsplit, hlen, hahead, he', hpre, hmin⟩ := pick_split hpick hord
  obtain rfl : e = e' := Option.some.inj (he.symm.trans he')
  have hmem : ∀ f ∈ out, (∃ d ∈ children, f ∈ C.ahead d.stream) ∧ key e < key f := by
    intro f hf
    obtain ⟨d', hd', hfd⟩ := h.mem f hf
    obtain ⟨d, hd, rfl⟩ := mem_map.1 hd'
    have := (mem_advance (hord d hd) (hmin d hd)).1 hfd
    exact ⟨⟨d, hd, this.1⟩, this.2⟩
  have hother : ∀ k, k ≠ key e → SortedMap.find key k out = newest C key children k := by
    intro k hk
    rw [h.find k, newest, newest, Merge.step, List.findSome?_map]
    congr 1
    exact Newest.findSome?_congr fun d hd => speaks_advance (hord d hd) (hmin d hd) hk
  have hnone : SortedMap.find key (key e) out = none :=
    (SortedMap.find_eq_none_iff key).2 fun f hf => (hmem f hf).2.ne'
  have hnewest : newest C key children (key e) =
      if shadowed children i (key e) then none else some e := by
    have hc : speaks C key (key e) c = some (some e) := by
      unfold speaks
      rw [(SortedMap.find_eq_some_iff key (hord c (by simp [hsplit]))).2 ⟨by simp [hahead], rfl⟩]
    have hshadowed : shadowed children i (key e) = pre.any (·.covers (key e)) := by
      rw [shadowed, hsplit, ← hlen, take_left]
    unfold newest
    rw [hshadowed, hsplit, List.findSome?_append, List.findSome?_cons, hc,
      findSome?_speaks_of_no_element fun d hd f hf => (hpre d hd f hf).ne']
    split_ifs <;> rfl
  cases hsh : shadowed children i (key e) with
  | true =>
    rw [if_pos rfl]
    refine ⟨h.sorted, fun f hf => (hmem f hf).1, fun k => ?_⟩
    rcases eq_or_ne k (key e) with rfl | hk
    · rw [hnone, hnewest, hsh, if_pos rfl]
    · exact hother k hk
  | false =>
    rw [if_neg (by simp)]
    refine ⟨pairwise_cons.2 ⟨fun f hf => (hmem f hf).2, h.sorted⟩, fun f hf => ?_, fun k => ?_⟩
    · rcases mem_cons.1 hf with rfl | hf
      · exact ⟨c, by simp [hsplit], by simp [hahead]⟩
      · exact (hmem f hf).1
    · rw [SortedMap.find_cons]
      split_ifs with hk
      · rw [← hk, hnewest, hsh, if_neg (by simp)]
      · exact hother k (Ne.symm hk)

theorem merges_yields (n : ℕ) : ∀ {children : List (Child S κ)} (fuel steps : ℕ),
    Ordered C key children → remaining C children ≤ n → remaining C children ≤ fuel →
    remaining C children ≤ steps →
    Merges C key children (yields C key steps (pick C key fuel children)) := by
  have hexhausted : ∀ {children : List (Child S κ)} (fuel steps : ℕ),
      pickRaw C key children = none → yields C key steps (pick C key fuel children) = [] := by
    intro children fuel steps hpick
    have hstate : (pick C key fuel children).element C = none := by
      cases fuel <;> simp [pick, hpick, State.element]
    cases steps <;> simp [yields, hstate]
  induction n with
  | zero =>
    intro children fuel steps hord hn _ _
    have hnone : pickRaw C key children = none := by
      cases hpick : pickRaw C key children with
      | none => rfl
      | some i =>
        obtain ⟨pre, c, post, e, rest, rfl, -, hahead, -⟩ := pick_split hpick hord
        have := remaining_step_lt key pre post hahead
        omega
    rw [hexhausted fuel steps hnone]
    exact merges_of_pick_none hnone
  | succ n ih =>
    intro children fuel steps hord hn hfuel hsteps
    cases hpick : pickRaw C key children with
    | none =>
      rw [hexhausted fuel steps hpick]
      exact merges_of_pick_none hpick
    | some i =>
      obtain ⟨pre, c, post, e, rest, hsplit, -, hahead, he, -⟩ := pick_split hpick hord
      have hlt : remaining C (step C key children (key e)) < remaining C children := by
        rw [hsplit]
        exact remaining_step_lt key pre post hahead
      obtain ⟨fuel, rfl⟩ : ∃ m, fuel = m + 1 := ⟨fuel - 1, by omega⟩
      obtain ⟨steps, rfl⟩ : ∃ m, steps = m + 1 := ⟨steps - 1, by omega⟩
      have hstep := hord.step (key e)
      simp only [pick, hpick, he]
      cases hsh : shadowed children i (key e) with
      | true =>
        have := Merges.step hord hpick he
          (ih fuel (steps + 1) hstep (by omega) (by omega) (by omega))
        rwa [hsh, if_pos rfl] at this
      | false =>
        have := Merges.step hord hpick he (ih _ steps hstep (by omega) le_rfl (by omega))
        rw [hsh, if_neg (by simp)] at this
        simpa [yields, State.element, State.next, he] using this

theorem merges_merged (h : Ordered C key children) :
    Merges C key children (merged C key children) :=
  merges_yields (remaining C children) _ _ h le_rfl le_rfl le_rfl

/-! ### Positions of a pass -/

variable (C key) in
theorem remaining_pick_le (fuel : ℕ) (children : List (Child S κ)) :
    remaining C (pick C key fuel children).children ≤ remaining C children := by
  induction fuel generalizing children with
  | zero => exact le_rfl
  | succ fuel ih =>
    unfold pick
    cases pickRaw C key children with
    | none => exact le_rfl
    | some i =>
      simp only
      cases headAt C children i with
      | none => exact le_rfl
      | some e =>
        simp only
        split_ifs
        · exact (ih _).trans (remaining_step_le C key children (key e))
        · exact le_rfl

theorem exists_headAt_of_pickRaw (h : pickRaw C key children = some i) :
    ∃ e, headAt C children i = some e := by
  have hspec := pickRaw_spec C key children
  rw [h] at hspec
  exact hspec.2.imp fun _ he => he.1

variable (key) in
theorem remaining_step_lt_of_headAt (h : headAt C children i = some e) :
    remaining C (step C key children (key e)) < remaining C children := by
  obtain ⟨c, hc, hhead⟩ := Option.bind_eq_some_iff.1 h
  obtain ⟨pre, post, hsplit⟩ := append_of_mem (mem_of_getElem? hc)
  rw [C.head_eq] at hhead
  rw [hsplit]
  exact remaining_step_lt key pre post (eq_cons_of_mem_head? hhead)

variable {x : State S κ}

variable (key) in
theorem State.remaining_next_lt (h : x.element C = some e) :
    remaining C (x.next C key).children < remaining C x.children := by
  obtain ⟨i, -, hi⟩ := Option.bind_eq_some_iff.1 h
  unfold State.next
  rw [h]
  exact (remaining_pick_le C key _ _).trans_lt (remaining_step_lt_of_headAt key hi)

theorem yields_succ (h : remaining C x.children ≤ n) :
    yields C key (n + 1) x = yields C key n x := by
  induction n generalizing x with
  | zero =>
    cases hx : x.element C with
    | none => simp [yields, hx]
    | some e =>
      have := State.remaining_next_lt key hx
      omega
  | succ n ih =>
    cases hx : x.element C with
    | none => simp [yields, hx]
    | some e =>
      have hlt := State.remaining_next_lt key hx
      have hrest := ih (x := x.next C key) (by omega)
      rw [yields, hx]
      simp only [hrest]
      rw [yields, hx]

variable (key) in
theorem yields_next (h : remaining C x.children ≤ n) :
    yields C key n (x.next C key) = (yields C key n x).tail := by
  cases hx : x.element C with
  | none =>
    have hself : x.next C key = x := by
      unfold State.next
      rw [hx]
    rw [hself]
    cases n <;> simp [yields, hx]
  | some e =>
    have hlt := State.remaining_next_lt key hx
    obtain ⟨n, rfl⟩ : ∃ m, n = m + 1 := ⟨n - 1, by omega⟩
    rw [yields_succ (by omega)]
    conv_rhs => rw [yields, hx]
    rfl

variable (key) in
theorem head?_yields (h : remaining C x.children ≤ n) : (yields C key n x).head? = x.element C := by
  cases hx : x.element C with
  | none => cases n <;> simp [yields, hx]
  | some e =>
    have hlt := State.remaining_next_lt key hx
    obtain ⟨n, rfl⟩ : ∃ m, n = m + 1 := ⟨n - 1, by omega⟩
    rw [yields, hx]
    rfl

theorem exists_of_mem_left {β γ : Type*} {R : β → γ → Prop} {l : List β} {l' : List γ}
    (h : List.Forall₂ R l l') {b : β} (hb : b ∈ l) : ∃ c ∈ l', R b c := by
  induction h with
  | nil => nomatch hb
  | @cons a c l l' hac _ ih =>
    rcases mem_cons.1 hb with rfl | hb
    · exact ⟨c, .head _, hac⟩
    · obtain ⟨d, hd, hbd⟩ := ih hb
      exact ⟨d, .tail _ hd, hbd⟩

theorem exists_of_mem_right {β γ : Type*} {R : β → γ → Prop} {l : List β} {l' : List γ}
    (h : List.Forall₂ R l l') {c : γ} (hc : c ∈ l') : ∃ b ∈ l, R b c :=
  exists_of_mem_left (R := flip R) h.flip hc

section Related

/-! What ties every stream of a pass to something, and is kept when it is read further, ties the
streams of each position. -/

variable {γ : Type*} (R : γ → S → Prop) (hR : ∀ a s, R a s → R a (C.next s)) {l : List γ}

include hR

theorem forall₂_step {children : List (Child S κ)}
    (h : List.Forall₂ (fun a c => R a c.stream) l children) (k : κ) :
    List.Forall₂ (fun a c => R a c.stream) l (step C key children k) := by
  unfold step
  rw [forall₂_map_right_iff]
  refine h.imp fun a c hac => ?_
  unfold advance
  split
  · exact hac
  · split_ifs
    · exact hR _ _ hac
    · exact hac

variable (C key) in
theorem forall₂_pick {children : List (Child S κ)}
    (h : List.Forall₂ (fun a c => R a c.stream) l children) (fuel : ℕ) :
    List.Forall₂ (fun a c => R a c.stream) l (pick C key fuel children).children := by
  induction fuel generalizing children with
  | zero => exact h
  | succ fuel ih =>
    unfold pick
    cases pickRaw C key children with
    | none => exact h
    | some i =>
      simp only
      cases headAt C children i with
      | none => exact h
      | some e =>
        simp only
        split_ifs
        · exact ih (forall₂_step R hR h (key e))
        · exact h

variable (C key) in
theorem State.forall₂_next {x : State S κ}
    (h : List.Forall₂ (fun a c => R a c.stream) l x.children) :
    List.Forall₂ (fun a c => R a c.stream) l (x.next C key).children := by
  unfold State.next
  cases x.element C with
  | none => exact h
  | some e => exact forall₂_pick C key R hR (forall₂_step R hR h (key e)) _

end Related

/-! ### Where a position stands -/

/-- It stands on what it would pick. -/
def State.Settled (C : Cursor S α) (key : α → κ) (x : State S κ) : Prop :=
  x.current = pickRaw C key x.children

theorem settled_pick {fuel : ℕ} (h : remaining C children ≤ fuel) :
    (pick C key fuel children).Settled C key := by
  induction fuel generalizing children with
  | zero =>
    cases hpick : pickRaw C key children with
    | none => exact hpick.symm
    | some i =>
      obtain ⟨e, he⟩ := exists_headAt_of_pickRaw hpick
      have := remaining_step_lt_of_headAt key he
      omega
  | succ fuel ih =>
    unfold pick
    cases hpick : pickRaw C key children with
    | none => exact hpick.symm
    | some i =>
      obtain ⟨e, he⟩ := exists_headAt_of_pickRaw hpick
      have := remaining_step_lt_of_headAt key he
      simp only [he]
      split_ifs
      · exact ih (by omega)
      · exact hpick.symm

theorem State.Settled.next (h : x.Settled C key) : (x.next C key).Settled C key := by
  unfold State.next
  cases x.element C with
  | none => exact h
  | some e => exact settled_pick le_rfl

theorem State.Settled.ahead_eq_nil (h : x.Settled C key) (hx : x.element C = none) :
    ∀ c ∈ x.children, C.ahead c.stream = [] := by
  cases hcurrent : x.current with
  | none => exact ahead_eq_nil_of_pick_none (h.symm.trans hcurrent)
  | some i =>
    obtain ⟨e, he⟩ := exists_headAt_of_pickRaw (h.symm.trans hcurrent)
    rw [State.element, hcurrent, Option.bind_some, he] at hx
    cases hx

theorem State.Settled.le (h : x.Settled C key) (hord : Ordered C key x.children)
    (hx : x.element C = some e) : ∀ c ∈ x.children, ∀ f ∈ C.ahead c.stream, key e ≤ key f := by
  obtain ⟨i, hi, he⟩ := Option.bind_eq_some_iff.1 hx
  obtain ⟨-, -, -, e', -, -, -, -, he', -, hmin⟩ := pick_split (h.symm.trans hi) hord
  obtain rfl : e' = e := Option.some_inj.1 (he'.symm.trans he)
  exact hmin

end

end Merge
