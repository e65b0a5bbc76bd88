import Mathlib.Data.List.Sort
import Mathlib.Order.MinMax

/-!
# Sorted maps and newest-first search

A list in strictly ascending order of a key, and a search that takes the first answer of a list of
sources (`List.findSome?`): when sources may be reordered, moved or dropped.
-/

namespace SortedMap

open List

variable {α κ : Type*} [LinearOrder κ] (key : α → κ)

/-- The list is in strictly ascending order of its keys. -/
abbrev Sorted (l : List α) : Prop := l.Pairwise fun x y => key x < key y

/-- Insert in order, replacing an equal key. -/
def insert (x : α) : List α → List α
  | [] => [x]
  | y :: ys =>
    if key x < key y then x :: y :: ys
    else if key x = key y then x :: ys
    else y :: insert x ys

/-- The element of a key. -/
def find (k : κ) (l : List α) : Option α := l.find? fun x => key x = k

@[simp] theorem find_nil (k : κ) : find key k [] = none := rfl

theorem find_cons (k : κ) (x : α) (l : List α) :
    find key k (x :: l) = if key x = k then some x else find key k l := by
  unfold find
  by_cases h : key x = k <;> simp [List.find?, h]

variable {x : α} {l : List α}

theorem mem_insert {z : α} (h : z ∈ insert key x l) : z = x ∨ z ∈ l := by
  induction l with
  | nil => exact .inl (mem_singleton.1 h)
  | cons y ys ih =>
    unfold insert at h
    split_ifs at h with hlt heq
    · simpa using h
    · rcases mem_cons.1 h with h | h
      · exact .inl h
      · exact .inr (mem_cons_of_mem _ h)
    · rcases mem_cons.1 h with rfl | h
      · exact .inr (mem_cons_self ..)
      · exact (ih h).imp_right (mem_cons_of_mem _)

theorem Sorted.insert (h : Sorted key l) (x : α) : Sorted key (SortedMap.insert key x l) := by
  induction l with
  | nil => exact pairwise_singleton _ _
  | cons y ys ih =>
    rw [Sorted, pairwise_cons] at h
    unfold SortedMap.insert
    split_ifs with hlt heq
    · refine pairwise_cons.2 ⟨fun z hz => ?_, pairwise_cons.2 h⟩
      rcases mem_cons.1 hz with rfl | hz
      · exact hlt
      · exact hlt.trans (h.1 z hz)
    · exact pairwise_cons.2 ⟨fun z hz => heq ▸ h.1 z hz, h.2⟩
    · refine pairwise_cons.2 ⟨fun z hz => ?_, ih h.2⟩
      rcases mem_insert key hz with rfl | hz
      · exact lt_of_le_of_ne (not_lt.1 hlt) (Ne.symm heq)
      · exact h.1 z hz

theorem Sorted.foldl_insert {acc : List α} (h : Sorted key acc) (l : List α) :
    Sorted key (l.foldl (fun acc x => SortedMap.insert key x acc) acc) := by
  induction l generalizing acc with
  | nil => exact h
  | cons x l ih => exact ih (h.insert key x)

theorem insert_eq_append (h : ∀ y ∈ l, key y < key x) : insert key x l = l ++ [x] := by
  induction l with
  | nil => rfl
  | cons y ys ih =>
    have hy := h y (mem_cons_self ..)
    rw [insert, if_neg hy.not_gt, if_neg hy.ne', ih fun z hz => h z (mem_cons_of_mem _ hz)]
    rfl

theorem foldl_insert_append {acc : List α} (h : Sorted key (acc ++ l)) :
    l.foldl (fun acc x => insert key x acc) acc = acc ++ l := by
  induction l generalizing acc with
  | nil => simp
  | cons x l ih =>
    have hx : ∀ y ∈ acc, key y < key x := fun y hy =>
      (pairwise_append.1 h).2.2 y hy x (mem_cons_self ..)
    rw [foldl_cons, insert_eq_append key hx, ih (by simpa using h)]
    simp

theorem find_insert (k : κ) (x : α) (l : List α) :
    find key k (insert key x l) = if key x = k then some x else find key k l := by
  induction l with
  | nil => simp [insert, find_cons]
  | cons y ys ih =>
    unfold insert
    by_cases hk : key x = k
    · rw [if_pos hk] at ih ⊢
      split_ifs with hlt heq
      · rw [find_cons, if_pos hk]
      · rw [find_cons, if_pos hk]
      · rw [find_cons, if_neg fun h => heq (hk.trans h.symm), ih]
    · rw [if_neg hk] at ih ⊢
      split_ifs with hlt heq
      · rw [find_cons, if_neg hk]
      · rw [find_cons, if_neg hk, find_cons, if_neg (heq ▸ hk)]
      · rw [find_cons, ih, find_cons]

variable {k : κ}

theorem find_eq_some_iff (h : Sorted key l) : find key k l = some x ↔ x ∈ l ∧ key x = k := by
  induction l with
  | nil => simp
  | cons y ys ih =>
    rw [Sorted, pairwise_cons] at h
    rw [find_cons]
    split_ifs with hy
    · simp only [Option.some.injEq, mem_cons]
      constructor
      · rintro rfl
        exact ⟨.inl rfl, hy⟩
      · rintro ⟨rfl | hx, hk⟩
        · rfl
        · exact absurd (h.1 x hx) (by rw [hy, hk]; exact lt_irrefl _)
    · rw [ih h.2, mem_cons]
      constructor
      · rintro ⟨hx, hk⟩
        exact ⟨.inr hx, hk⟩
      · rintro ⟨rfl | hx, hk⟩
        · exact absurd hk hy
        · exact ⟨hx, hk⟩

theorem find_eq_none_iff : find key k l = none ↔ ∀ x ∈ l, key x ≠ k := by
  simp [find]

theorem find_append (k : κ) (xs ys : List α) :
    find key k (xs ++ ys) = (find key k xs).or (find key k ys) := by
  simp [find, List.find?_append]

theorem find_filter_of_pos {p : α → Bool} (h : ∀ x ∈ l, key x = k → p x = true) :
    find key k (l.filter p) = find key k l := by
  induction l with
  | nil => rfl
  | cons x xs ih =>
    have hxs := ih fun y hy => h y (mem_cons_of_mem _ hy)
    cases hp : p x with
    | true => rw [filter_cons_of_pos hp, find_cons, find_cons, hxs]
    | false =>
      have hx : key x ≠ k := fun hk => by simp [h x (by simp) hk] at hp
      rw [filter_cons_of_neg (by simp [hp]), find_cons, if_neg hx, hxs]

theorem find_map {f : α → α} (hf : ∀ x, key (f x) = key x) (k : κ) (l : List α) :
    find key k (l.map f) = (find key k l).map f := by
  induction l with
  | nil => rfl
  | cons x xs ih =>
    rw [map_cons, find_cons, find_cons, hf, ih]
    split_ifs <;> rfl

theorem Sorted.map {f : α → α} (hf : ∀ x, key (f x) = key x) (h : Sorted key l) :
    Sorted key (l.map f) := by
  refine List.Pairwise.map f (fun x y hxy => ?_) h
  rwa [hf, hf]

end SortedMap

namespace Newest

variable {σ β : Type*} (f : σ → Option β)

variable {l : List σ}

theorem findSome?_congr {f g : σ → Option β} (h : ∀ x ∈ l, f x = g x) :
    l.findSome? f = l.findSome? g := by
  induction l with
  | nil => rfl
  | cons x xs ih =>
    rw [List.findSome?_cons, List.findSome?_cons, h x (List.mem_cons_self ..),
      ih fun y hy => h y (List.mem_cons_of_mem _ hy)]

theorem findSome?_eq_of_agree {a : σ} {b : β} (ha : a ∈ l) (hb : f a = some b)
    (hagree : ∀ x ∈ l, ∀ c, f x = some c → c = b) : l.findSome? f = some b := by
  cases h : l.findSome? f with
  | none => simp [List.findSome?_eq_none_iff.1 h a ha] at hb
  | some c =>
    obtain ⟨x, hx, hxc⟩ := List.exists_of_findSome?_eq_some h
    rw [hagree x hx c hxc]

theorem findSome?_congr_of_agree {l' : List σ} (hsome : ∀ x ∈ l, f x ≠ none → ∃ y ∈ l', f y = f x)
    (hsome' : ∀ y ∈ l', f y ≠ none → ∃ x ∈ l, f x = f y)
    (hagree : ∀ x ∈ l, ∀ y ∈ l, f x ≠ none → f y ≠ none → f x = f y) :
    l.findSome? f = l'.findSome? f := by
  cases h : l.findSome? f with
  | none =>
    refine (List.findSome?_eq_none_iff.2 fun y hy => ?_).symm
    by_contra hne
    obtain ⟨x, hx, hxy⟩ := hsome' y hy hne
    exact hne (hxy ▸ List.findSome?_eq_none_iff.1 h x hx)
  | some b =>
    obtain ⟨x, hx, hxb⟩ := List.exists_of_findSome?_eq_some h
    obtain ⟨y, hy, hyx⟩ := hsome x hx (by simp [hxb])
    refine (findSome?_eq_of_agree f hy (hyx.trans hxb) fun z hz c hzc => ?_).symm
    obtain ⟨w, hw, hwz⟩ := hsome' z hz (by simp [hzc])
    have := hagree w hw x hx (by simp [hwz, hzc]) (by simp [hxb])
    rw [hwz, hzc, hxb] at this
    exact Option.some.inj this

/-- Sources in `p` may be asked last if they hide no answer of the others. -/
theorem findSome?_partition (p : σ → Bool)
    (h : l.Pairwise fun x y => p x = true → p y = false → f x = none ∨ f y = none) :
    l.findSome? f = ((l.filter fun x => !p x).findSome? f).or ((l.filter p).findSome? f) := by
  induction l with
  | nil => rfl
  | cons x xs ih =>
    rw [List.pairwise_cons] at h
    cases hp : p x with
    | false =>
      simp only [hp, List.filter_cons, Bool.not_false, if_true, Bool.false_eq_true, if_false,
        List.findSome?_cons]
      cases f x with
      | none => exact ih h.2
      | some b => rfl
    | true =>
      simp only [hp, List.filter_cons, Bool.not_true, if_true, Bool.false_eq_true, if_false,
        List.findSome?_cons]
      cases hx : f x with
      | none => exact ih h.2
      | some b =>
        have hnone : (xs.filter fun x => !p x).findSome? f = none := by
          refine List.findSome?_eq_none_iff.2 fun y hy => ?_
          obtain ⟨hy, hpy⟩ := List.mem_filter.1 hy
          simpa [hx] using h.1 y hy hp (by simpa using hpy)
        rw [hnone, Option.none_or]

theorem findSome?_eq_bind_find? (l : List σ) :
    l.findSome? f = (l.find? fun x => (f x).isSome).bind f := by
  induction l with
  | nil => rfl
  | cons x xs ih =>
    rw [List.findSome?_cons, List.find?_cons]
    cases hx : f x with
    | none => simpa using ih
    | some b => simp [hx]

/-- No silent source speaks up, and the first that speaks says the same. -/
theorem findSome?_eq_of_first {g : σ → Option β} (hsilent : ∀ x ∈ l, f x = none → g x = none)
    (hfirst : ∀ x, l.find? (fun x => (f x).isSome) = some x → g x = f x) :
    l.findSome? g = l.findSome? f := by
  induction l with
  | nil => rfl
  | cons x xs ih =>
    rw [List.findSome?_cons, List.findSome?_cons]
    cases hx : f x with
    | some b => rw [hfirst x (by simp [hx]), hx]
    | none =>
      rw [hsilent x List.mem_cons_self hx]
      refine ih (fun y hy => hsilent y (.tail _ hy)) fun y hy => hfirst y ?_
      rwa [List.find?_cons_of_neg (by simp [hx])]

theorem findSome?_filter_of_shadowed (p : σ → Bool)
    (h : ∀ pre x post, l = pre ++ x :: post → p x = false → f x = none ∨ ∃ y ∈ pre, f y ≠ none) :
    (l.filter p).findSome? f = l.findSome? f := by
  induction l with
  | nil => rfl
  | cons x xs ih =>
    rw [List.findSome?_cons]
    cases hx : f x with
    | some b =>
      have hp : p x = true := by
        cases hp : p x with
        | true => rfl
        | false => simpa [hx] using h [] x xs rfl hp
      rw [List.filter_cons_of_pos hp, List.findSome?_cons, hx]
    | none =>
      have hxs : (xs.filter p).findSome? f = xs.findSome? f := by
        refine ih fun pre y post heq hpy => ?_
        rcases h (x :: pre) y post (by rw [heq, List.cons_append]) hpy with hy | ⟨z, hz, hne⟩
        · exact .inl hy
        · rcases List.mem_cons.1 hz with rfl | hz
          · exact absurd hx hne
          · exact .inr ⟨z, hz, hne⟩
      rw [← hxs, List.filter_cons]
      split_ifs
      · rw [List.findSome?_cons, hx]
      · rfl

theorem filter_mem_of_sublist [DecidableEq σ] {l₁ l₂ : List σ} (h : l₁.Sublist l₂)
    (hnodup : l₂.Nodup) : l₂.filter (· ∈ l₁) = l₁ := by
  induction h with
  | slnil => rfl
  | @cons l₁ l₂ x h ih =>
    rw [List.nodup_cons] at hnodup
    have hx : x ∉ l₁ := fun hx => hnodup.1 (h.subset hx)
    rw [List.filter_cons_of_neg (by simpa using hx), ih hnodup.2]
  | @cons_cons l₁ l₂ x h ih =>
    rw [List.nodup_cons] at hnodup
    rw [List.filter_cons_of_pos (by simp)]
    have hrest : l₂.filter (· ∈ x :: l₁) = l₂.filter (· ∈ l₁) := by
      refine List.filter_congr fun y hy => ?_
      have hne : y ≠ x := fun heq => hnodup.1 (heq ▸ hy)
      simp [hne]
    rw [hrest, ih hnodup.2]

theorem findSome?_flatMap {γ : Type*} (g : γ → List σ) (l : List γ) :
    (l.flatMap g).findSome? f = l.findSome? fun c => (g c).findSome? f := by
  induction l with
  | nil => rfl
  | cons c cs ih =>
    rw [List.flatMap_cons, List.findSome?_append, ih, List.findSome?_cons]
    cases (g c).findSome? f <;> rfl

/-- Only the first source not skipped is asked, if what is skipped and what is behind it are silent.
-/
theorem findSome?_dropWhile_take (p : σ → Bool) (hskip : ∀ x ∈ l, p x = true → f x = none)
    (hrest : l.Pairwise fun x y => p x = false → f y = none) :
    ((l.dropWhile p).take 1).findSome? f = l.findSome? f := by
  induction l with
  | nil => rfl
  | cons x xs ih =>
    rw [List.pairwise_cons] at hrest
    cases hp : p x with
    | true =>
      rw [List.dropWhile_cons_of_pos hp, List.findSome?_cons, hskip x (by simp) hp]
      exact ih (fun y hy => hskip y (by simp [hy])) hrest.2
    | false =>
      have hnone : xs.findSome? f = none :=
        List.findSome?_eq_none_iff.2 fun y hy => hrest.1 y hy hp
      rw [List.dropWhile_cons_of_neg (by simp [hp]), List.findSome?_cons, hnone]
      simp only [List.take_succ_cons, List.take_zero, List.findSome?_cons, List.findSome?_nil]

variable {p : σ → Bool}

theorem findSome?_filter_of_silent (h : ∀ x ∈ l, p x = false → f x = none) :
    (l.filter p).findSome? f = l.findSome? f :=
  findSome?_filter_of_shadowed f p fun _ x _ hl hp => .inl (h x (by simp [hl]) hp)

theorem findSome?_dropWhile_of_silent (h : ∀ x ∈ l, p x = true → f x = none) :
    (l.dropWhile p).findSome? f = l.findSome? f := by
  induction l with
  | nil => rfl
  | cons x xs ih =>
    cases hp : p x with
    | true =>
      rw [List.dropWhile_cons_of_pos hp, List.findSome?_cons, h x (.head _) hp]
      exact ih fun y hy => h y (.tail _ hy)
    | false => rw [List.dropWhile_cons_of_neg (by simp [hp])]

theorem findSome?_takeWhile_of_silent (h : ∀ x ∈ l.dropWhile p, f x = none) :
    (l.takeWhile p).findSome? f = l.findSome? f := by
  conv_rhs => rw [← List.takeWhile_append_dropWhile (p := p) (l := l), List.findSome?_append,
    List.findSome?_eq_none_iff.2 h, Option.or_none]

end Newest
