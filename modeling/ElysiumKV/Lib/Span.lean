import Mathlib.Data.List.Sort
import Mathlib.Data.Prod.Lex
import Mathlib.Order.MinMax

/-!
# Half-open spans of a linear order

Unions (`unite`) and clippings (`clip`) of spans `[lower, upper)`, both exact; clipping between
successive cuts tiles the spans.
-/

/-- `[lower, upper)`. -/
structure Span (α : Type*) where
  lower : α
  upper : α
deriving DecidableEq, Repr

namespace Span

open List

variable {α : Type*} [LinearOrder α]

/-- The span holds the point `k`. -/
def Contains (s : Span α) (k : α) : Prop := s.lower ≤ k ∧ k < s.upper

instance (s : Span α) (k : α) : Decidable (s.Contains k) := inferInstanceAs (Decidable (_ ∧ _))

/-- Some span of the list holds the point `k`. -/
def Covered (spans : List (Span α)) (k : α) : Prop := ∃ s ∈ spans, s.Contains k

instance (spans : List (Span α)) (k : α) : Decidable (Covered spans k) :=
  inferInstanceAs (Decidable (∃ s ∈ spans, s.Contains k))

@[simp] theorem not_covered_nil (k : α) : ¬ Covered [] k := by simp [Covered]

@[simp] theorem covered_cons (s : Span α) (spans : List (Span α)) (k : α) :
    Covered (s :: spans) k ↔ s.Contains k ∨ Covered spans k := by
  simp [Covered]

@[simp] theorem covered_append (xs ys : List (Span α)) (k : α) :
    Covered (xs ++ ys) k ↔ Covered xs k ∨ Covered ys k := by
  simp only [Covered, mem_append, or_and_right, exists_or]

theorem covered_flatten (xss : List (List (Span α))) (k : α) :
    Covered xss.flatten k ↔ ∃ xs ∈ xss, Covered xs k := by
  simp only [Covered, mem_flatten]
  constructor
  · rintro ⟨s, ⟨xs, hxs, hs⟩, hk⟩
    exact ⟨xs, hxs, s, hs, hk⟩
  · rintro ⟨xs, hxs, s, hs, hk⟩
    exact ⟨s, ⟨xs, hxs, hs⟩, hk⟩

/-- Non-empty, ascending, with gaps between. -/
structure Tidy (spans : List (Span α)) : Prop where
  nonempty : ∀ s ∈ spans, s.lower < s.upper
  gaps : spans.Pairwise fun s t => s.upper < t.lower

@[simp] theorem tidy_nil : Tidy ([] : List (Span α)) := ⟨by simp, .nil⟩

theorem tidy_append {xs ys : List (Span α)} :
    Tidy (xs ++ ys) ↔ Tidy xs ∧ Tidy ys ∧ ∀ s ∈ xs, ∀ t ∈ ys, s.upper < t.lower := by
  constructor
  · rintro ⟨hne, hgap⟩
    rw [pairwise_append] at hgap
    exact ⟨⟨fun s hs => hne s (by simp [hs]), hgap.1⟩,
      ⟨fun s hs => hne s (by simp [hs]), hgap.2.1⟩, hgap.2.2⟩
  · rintro ⟨hx, hy, hxy⟩
    refine ⟨fun s hs => ?_, pairwise_append.2 ⟨hx.gaps, hy.gaps, hxy⟩⟩
    rcases mem_append.1 hs with h | h
    · exact hx.nonempty s h
    · exact hy.nonempty s h

/-- Ascending by lower bound, then by upper bound. -/
def Le (s t : Span α) : Prop := s.lower < t.lower ∨ s.lower = t.lower ∧ s.upper ≤ t.upper

instance : DecidableRel (Le : Span α → Span α → Prop) :=
  fun _ _ => inferInstanceAs (Decidable (_ ∨ _))

instance : Std.Total (Le : Span α → Span α → Prop) where
  total s t := by
    unfold Le
    rcases lt_trichotomy s.lower t.lower with h | h | h
    · exact .inl (.inl h)
    · exact (le_total s.upper t.upper).imp (fun hu => .inr ⟨h, hu⟩) (fun hu => .inr ⟨h.symm, hu⟩)
    · exact .inr (.inl h)

instance : IsTrans (Span α) Le where
  trans s t u hst htu := by
    unfold Le at *
    rcases hst with h | ⟨h, hu⟩ <;> rcases htu with h' | ⟨h', hu'⟩
    · exact .inl (h.trans h')
    · exact .inl (h' ▸ h)
    · exact .inl (h ▸ h')
    · exact .inr ⟨h.trans h', hu.trans hu'⟩

variable {s t : Span α}

theorem Le.lower_le (h : Le s t) : s.lower ≤ t.lower :=
  h.elim le_of_lt fun h => h.1.le

/-- An empty span is skipped, one that touches the last extends it, any other is appended. -/
def absorb (merged : List (Span α)) (s : Span α) : List (Span α) :=
  if s.upper ≤ s.lower then merged
  else match merged.getLast? with
    | none => [s]
    | some back =>
      if s.lower ≤ back.upper then
        if back.upper < s.upper then merged.dropLast ++ [⟨back.lower, s.upper⟩] else merged
      else merged ++ [s]

/-- The union, as separated ascending spans. -/
def unite (spans : List (Span α)) : List (Span α) :=
  (spans.insertionSort Le).foldl absorb []

@[simp] theorem absorb_nil (h : s.lower < s.upper) : absorb [] s = [s] := by
  simp [absorb, h]

theorem absorb_of_empty (h : s.upper ≤ s.lower) (merged : List (Span α)) :
    absorb merged s = merged := by
  simp [absorb, h]

theorem absorb_append_singleton (h : s.lower < s.upper) (init : List (Span α)) (back : Span α) :
    absorb (init ++ [back]) s =
      if s.lower ≤ back.upper then init ++ [⟨back.lower, max back.upper s.upper⟩]
      else init ++ [back, s] := by
  unfold absorb
  rw [if_neg (not_le.2 h)]
  simp only [List.getLast?_append, List.getLast?_singleton, Option.some_or, dropLast_concat]
  split_ifs with htouch hext
  · rw [max_eq_right hext.le]
  · rw [max_eq_left (not_lt.1 hext)]
  · simp

variable {merged : List (Span α)}

/-- Spans stay tidy, and the last lower bound is at most those still to come. -/
theorem absorb_spec (hm : Tidy merged) (hs : ∀ t ∈ merged, t.lower ≤ s.lower) :
    Tidy (absorb merged s) ∧ (∀ t ∈ absorb merged s, t.lower ≤ s.lower) ∧
      ∀ k, Covered (absorb merged s) k ↔ Covered merged k ∨ s.Contains k := by
  rcases le_or_gt s.upper s.lower with hempty | hne
  · rw [absorb_of_empty hempty]
    refine ⟨hm, hs, fun k => ⟨.inl, fun h => h.elim id fun hk => ?_⟩⟩
    exact absurd (hk.1.trans_lt hk.2) (not_lt.2 hempty)
  rcases eq_nil_or_concat' merged with rfl | ⟨init, back, rfl⟩
  · rw [absorb_nil hne]
    exact ⟨⟨by simpa using hne, pairwise_singleton _ _⟩, by simp, by simp⟩
  obtain ⟨hinit, hback, hlast⟩ := tidy_append.1 hm
  have hbl : back.lower ≤ s.lower := hs back (by simp)
  have hbne : back.lower < back.upper := hback.nonempty back (by simp)
  rw [absorb_append_singleton hne]
  split_ifs with htouch
  · -- the span extends the last one: the union of the two is one span since they touch
    refine ⟨tidy_append.2 ⟨hinit, ⟨?_, pairwise_singleton _ _⟩, ?_⟩, ?_, fun k => ?_⟩
    · simpa using .inl hbne
    · intro t ht u hu
      obtain rfl := mem_singleton.1 hu
      exact hlast t ht back (by simp)
    · intro t ht
      rcases mem_append.1 ht with ht | ht
      · exact hs t (by simp [ht])
      · obtain rfl := mem_singleton.1 ht
        exact hbl
    · have hjoin : (⟨back.lower, max back.upper s.upper⟩ : Span α).Contains k ↔
          back.Contains k ∨ s.Contains k := by
        unfold Contains
        simp only [lt_max_iff]
        constructor
        · rintro ⟨hk, hk' | hk'⟩
          · exact .inl ⟨hk, hk'⟩
          · exact (lt_or_ge k back.upper).imp (fun h => ⟨hk, h⟩) fun h => ⟨htouch.trans h, hk'⟩
        · rintro (⟨hk, hk'⟩ | ⟨hk, hk'⟩)
          · exact ⟨hk, .inl hk'⟩
          · exact ⟨hbl.trans hk, .inr hk'⟩
      simp only [covered_append, covered_cons, not_covered_nil, or_false, hjoin, or_assoc]
  · have hgap : back.upper < s.lower := not_le.1 htouch
    have hnew : Tidy ((init ++ [back]) ++ [s]) := by
      refine tidy_append.2 ⟨hm, ⟨by simpa using hne, pairwise_singleton _ _⟩, ?_⟩
      intro t ht u hu
      obtain rfl := mem_singleton.1 hu
      rcases mem_append.1 ht with ht | ht
      · exact ((hlast t ht back (by simp)).trans hbne).trans hgap
      · obtain rfl := mem_singleton.1 ht
        exact hgap
    rw [show init ++ [back, s] = (init ++ [back]) ++ [s] by simp]
    refine ⟨hnew, fun t ht => ?_, fun k => by simp [or_assoc]⟩
    rcases mem_append.1 ht with ht | ht
    · exact hs t ht
    · obtain rfl := mem_singleton.1 ht
      exact le_rfl

variable {spans : List (Span α)}

theorem foldl_absorb_spec (hm : Tidy merged) (hsorted : spans.Pairwise Le)
    (hbound : ∀ t ∈ merged, ∀ s ∈ spans, t.lower ≤ s.lower) :
    Tidy (spans.foldl absorb merged) ∧
      ∀ k, Covered (spans.foldl absorb merged) k ↔ Covered merged k ∨ Covered spans k := by
  induction spans generalizing merged with
  | nil => simp [hm]
  | cons s spans ih =>
    rw [pairwise_cons] at hsorted
    obtain ⟨htidy, hle, hcov⟩ := absorb_spec hm fun t ht => hbound t ht s (by simp)
    have hbound' : ∀ t ∈ absorb merged s, ∀ u ∈ spans, t.lower ≤ u.lower :=
      fun t ht u hu => (hle t ht).trans (hsorted.1 u hu).lower_le
    obtain ⟨htidy', hcov'⟩ := ih htidy hsorted.2 hbound'
    refine ⟨htidy', fun k => ?_⟩
    rw [foldl_cons, hcov', hcov, covered_cons, or_assoc]

theorem unite_spec (spans : List (Span α)) :
    Tidy (unite spans) ∧ ∀ k, Covered (unite spans) k ↔ Covered spans k := by
  have hsorted := pairwise_insertionSort (Le : Span α → Span α → Prop) spans
  obtain ⟨htidy, hcov⟩ := foldl_absorb_spec tidy_nil hsorted (by simp)
  refine ⟨htidy, fun k => ?_⟩
  unfold unite
  rw [hcov]
  simp [Covered, mem_insertionSort]

theorem tidy_unite (spans : List (Span α)) : Tidy (unite spans) := (unite_spec spans).1

@[simp] theorem covered_unite (spans : List (Span α)) (k : α) :
    Covered (unite spans) k ↔ Covered spans k := (unite_spec spans).2 k

theorem mem_absorb (ht : t ∈ absorb merged s) :
    (∃ u ∈ s :: merged, t.lower = u.lower) ∧ ∃ u ∈ s :: merged, t.upper = u.upper := by
  rcases le_or_gt s.upper s.lower with hempty | hne
  · rw [absorb_of_empty hempty] at ht
    exact ⟨⟨t, by simp [ht], rfl⟩, t, by simp [ht], rfl⟩
  rcases eq_nil_or_concat' merged with rfl | ⟨init, back, rfl⟩
  · rw [absorb_nil hne] at ht
    exact ⟨⟨t, ht, rfl⟩, t, ht, rfl⟩
  rw [absorb_append_singleton hne] at ht
  split_ifs at ht with htouch
  · rcases mem_append.1 ht with h | h
    · exact ⟨⟨t, by simp [h], rfl⟩, t, by simp [h], rfl⟩
    · obtain rfl := mem_singleton.1 h
      refine ⟨⟨back, by simp, rfl⟩, ?_⟩
      rcases le_total back.upper s.upper with hu | hu
      · exact ⟨s, by simp, max_eq_right hu⟩
      · exact ⟨back, by simp, max_eq_left hu⟩
  · have : t ∈ s :: (init ++ [back]) := by
      simp only [mem_append, mem_cons, not_mem_nil, or_false] at ht ⊢
      tauto
    exact ⟨⟨t, this, rfl⟩, t, this, rfl⟩

theorem mem_foldl_absorb (ht : t ∈ spans.foldl absorb merged) :
    (∃ u ∈ merged ++ spans, t.lower = u.lower) ∧ ∃ u ∈ merged ++ spans, t.upper = u.upper := by
  induction spans generalizing merged with
  | nil => exact ⟨⟨t, by simpa using ht, rfl⟩, t, by simpa using ht, rfl⟩
  | cons s spans ih =>
    have step : ∀ u ∈ absorb merged s ++ spans,
        (∃ v ∈ merged ++ s :: spans, u.lower = v.lower) ∧
          ∃ v ∈ merged ++ s :: spans, u.upper = v.upper := by
      intro u hu
      rcases mem_append.1 hu with h | h
      · obtain ⟨⟨v, hv, hlow⟩, w, hw, hup⟩ := mem_absorb h
        refine ⟨⟨v, ?_, hlow⟩, w, ?_, hup⟩ <;> simp_all <;> tauto
      · exact ⟨⟨u, by simp [h], rfl⟩, u, by simp [h], rfl⟩
    obtain ⟨⟨u, hu, hlow⟩, v, hv, hup⟩ := ih ht
    obtain ⟨w, hw, hlow'⟩ := (step u hu).1
    obtain ⟨x, hx, hup'⟩ := (step v hv).2
    exact ⟨⟨w, hw, hlow.trans hlow'⟩, x, hx, hup.trans hup'⟩

theorem mem_unite (ht : t ∈ unite spans) :
    (∃ u ∈ spans, t.lower = u.lower) ∧ ∃ u ∈ spans, t.upper = u.upper := by
  simpa [mem_insertionSort] using mem_foldl_absorb ht

/-- The part between two bounds, if any. -/
def clipOne (lower upper : Option α) (s : Span α) : Option (Span α) :=
  let low := lower.elim s.lower fun l => if s.lower < l then l else s.lower
  let high := upper.elim s.upper fun u => if u < s.upper then u else s.upper
  if low < high then some ⟨low, high⟩ else none

/-- The parts between two optional bounds. -/
def clip (lower upper : Option α) (spans : List (Span α)) : List (Span α) :=
  spans.filterMap (clipOne lower upper)

/-- Between two optional bounds, the upper excluded. -/
def Within (lower upper : Option α) (k : α) : Prop :=
  (∀ l ∈ lower, l ≤ k) ∧ ∀ u ∈ upper, k < u

variable {lower upper : Option α}

theorem clipOne_eq_some :
    clipOne lower upper s = some t ↔
      t.lower < t.upper ∧ t.lower = lower.elim s.lower (max s.lower) ∧
        t.upper = upper.elim s.upper (min s.upper) := by
  have hlow : (lower.elim s.lower fun l => if s.lower < l then l else s.lower) =
      lower.elim s.lower (max s.lower) := by
    cases lower with
    | none => rfl
    | some l => simp only [Option.elim_some]; split_ifs with h
                · rw [max_eq_right h.le]
                · rw [max_eq_left (not_lt.1 h)]
  have hhigh : (upper.elim s.upper fun u => if u < s.upper then u else s.upper) =
      upper.elim s.upper (min s.upper) := by
    cases upper with
    | none => rfl
    | some u => simp only [Option.elim_some]; split_ifs with h
                · rw [min_eq_right h.le]
                · rw [min_eq_left (not_lt.1 h)]
  unfold clipOne
  rw [hlow, hhigh]
  obtain ⟨l, u⟩ := t
  simp only [Option.ite_none_right_eq_some, Option.some.injEq, Span.mk.injEq]
  constructor
  · rintro ⟨h, rfl, rfl⟩
    exact ⟨h, rfl, rfl⟩
  · rintro ⟨h, rfl, rfl⟩
    exact ⟨h, rfl, rfl⟩

theorem clipOne_sub (h : clipOne lower upper s = some t) :
    t.lower < t.upper ∧ s.lower ≤ t.lower ∧ t.upper ≤ s.upper ∧ (∀ l ∈ lower, l ≤ t.lower) ∧
      ∀ u ∈ upper, t.upper ≤ u := by
  obtain ⟨hne, hlow, hhigh⟩ := clipOne_eq_some.1 h
  rw [hlow, hhigh] at hne
  rw [hlow, hhigh]
  cases lower <;> cases upper <;> simp_all

theorem clipOne_bounds (h : clipOne lower upper s = some t) :
    (t.lower = s.lower ∨ t.lower ∈ lower) ∧ (t.upper = s.upper ∨ t.upper ∈ upper) := by
  obtain ⟨-, hlow, hhigh⟩ := clipOne_eq_some.1 h
  rw [hlow, hhigh]
  constructor
  · cases lower with
    | none => exact .inl rfl
    | some l => rcases le_total s.lower l with hl | hl <;> simp [hl]
  · cases upper with
    | none => exact .inl rfl
    | some u => rcases le_total s.upper u with hu | hu <;> simp [hu]

theorem mem_clip :
    t ∈ clip lower upper spans ↔ ∃ s ∈ spans, clipOne lower upper s = some t := mem_filterMap

theorem covered_clip (lower upper : Option α) (spans : List (Span α)) (k : α) :
    Covered (clip lower upper spans) k ↔ Covered spans k ∧ Within lower upper k := by
  constructor
  · rintro ⟨t, ht, hk⟩
    obtain ⟨s, hs, hst⟩ := mem_clip.1 ht
    obtain ⟨-, hlow, hhigh, hl, hu⟩ := clipOne_sub hst
    exact ⟨⟨s, hs, hlow.trans hk.1, hk.2.trans_le hhigh⟩,
      fun l h => (hl l h).trans hk.1, fun u h => hk.2.trans_le (hu u h)⟩
  · rintro ⟨⟨s, hs, hk⟩, hl, hu⟩
    have hlow : lower.elim s.lower (max s.lower) ≤ k := by
      cases lower with
      | none => exact hk.1
      | some l => exact max_le hk.1 (hl l rfl)
    have hhigh : k < upper.elim s.upper (min s.upper) := by
      cases upper with
      | none => exact hk.2
      | some u => exact lt_min hk.2 (hu u rfl)
    exact ⟨⟨_, _⟩, mem_clip.2 ⟨s, hs, clipOne_eq_some.2 ⟨hlow.trans_lt hhigh, rfl, rfl⟩⟩,
      hlow, hhigh⟩

theorem Tidy.clip (h : Tidy spans) (lower upper : Option α) : Tidy (clip lower upper spans) := by
  refine ⟨fun t ht => ?_, ?_⟩
  · obtain ⟨s, -, hst⟩ := mem_clip.1 ht
    exact (clipOne_sub hst).1
  · refine List.Pairwise.filterMap _ (fun s t hgap => ?_) h.gaps
    intro s' hs t' ht
    exact ((clipOne_sub hs).2.2.1.trans_lt hgap).trans_le (clipOne_sub ht).2.1

/-- The pieces between cuts, from a bound on; the last is unbounded. -/
def piecesFrom (lower : Option α) : List α → List (Option α × Option α)
  | [] => [(lower, none)]
  | cut :: cuts => (lower, some cut) :: piecesFrom (some cut) cuts

/-- The pieces between cuts. -/
def pieces (cuts : List α) : List (Option α × Option α) := piecesFrom none cuts

theorem exists_within_piecesFrom {k : α} (h : ∀ l ∈ lower, l ≤ k) (cuts : List α) :
    ∃ p ∈ piecesFrom lower cuts, Within p.1 p.2 k := by
  induction cuts generalizing lower with
  | nil => exact ⟨(lower, none), by simp [piecesFrom], h, nofun⟩
  | cons cut cuts ih =>
    rcases lt_or_ge k cut with hk | hk
    · refine ⟨(lower, some cut), by simp [piecesFrom], h, ?_⟩
      rintro u ⟨⟩
      exact hk
    · have hcut : ∀ l ∈ some cut, l ≤ k := by simpa using hk
      obtain ⟨p, hp, hwithin⟩ := ih hcut
      exact ⟨p, .tail _ hp, hwithin⟩

variable {cuts : List α}

theorem exists_lower_of_mem_piecesFrom {cut : α} (h : (cut :: cuts).Pairwise (· < ·))
    {p : Option α × Option α} (hp : p ∈ piecesFrom (some cut) cuts) : ∃ l ∈ p.1, cut ≤ l := by
  induction cuts generalizing cut with
  | nil =>
    obtain rfl := mem_singleton.1 hp
    exact ⟨cut, rfl, le_rfl⟩
  | cons cut' cuts ih =>
    rcases mem_cons.1 hp with rfl | hp
    · exact ⟨cut, rfl, le_rfl⟩
    · obtain ⟨l, hl, hle⟩ := ih (pairwise_cons.1 h).2 hp
      exact ⟨l, hl, ((pairwise_cons.1 h).1 cut' (.head _)).le.trans hle⟩

theorem pairwise_piecesFrom (h : cuts.Pairwise (· < ·)) :
    (piecesFrom lower cuts).Pairwise fun p q => ∃ u ∈ p.2, ∃ l ∈ q.1, u ≤ l := by
  induction cuts generalizing lower with
  | nil => exact pairwise_singleton _ _
  | cons cut cuts ih =>
    refine pairwise_cons.2 ⟨fun q hq => ?_, ih (pairwise_cons.1 h).2⟩
    obtain ⟨l, hl, hle⟩ := exists_lower_of_mem_piecesFrom h hq
    exact ⟨cut, rfl, l, hl, hle⟩

/-- The spans cut into the pieces. -/
def tile (cuts : List α) (spans : List (Span α)) : List (Span α) :=
  (pieces cuts).flatMap fun p => clip p.1 p.2 spans

theorem covered_tile (cuts : List α) (spans : List (Span α)) (k : α) :
    Covered (tile cuts spans) k ↔ Covered spans k := by
  unfold tile
  rw [flatMap_def, covered_flatten]
  constructor
  · rintro ⟨xs, hxs, hk⟩
    obtain ⟨p, -, rfl⟩ := mem_map.1 hxs
    exact ((covered_clip ..).1 hk).1
  · intro hk
    have hnone : ∀ l ∈ (none : Option α), l ≤ k := nofun
    obtain ⟨p, hp, hwithin⟩ := exists_within_piecesFrom hnone cuts
    exact ⟨_, mem_map.2 ⟨p, hp, rfl⟩, (covered_clip ..).2 ⟨hk, hwithin⟩⟩

theorem Tidy.pairwise_tile (h : Tidy spans) (hcuts : cuts.Pairwise (· < ·)) :
    (tile cuts spans).Pairwise fun s t => s.upper ≤ t.lower := by
  unfold tile
  rw [flatMap_def, pairwise_flatten]
  refine ⟨fun xs hxs => ?_, pairwise_map.2 ((pairwise_piecesFrom hcuts).imp ?_)⟩
  · obtain ⟨p, -, rfl⟩ := mem_map.1 hxs
    exact (h.clip p.1 p.2).gaps.imp le_of_lt
  · rintro p q ⟨u, hu, l, hl, hle⟩ s hs t ht
    obtain ⟨s', -, hs⟩ := mem_clip.1 hs
    obtain ⟨t', -, ht⟩ := mem_clip.1 ht
    exact (((clipOne_sub hs).2.2.2.2 u hu).trans hle).trans ((clipOne_sub ht).2.2.2.1 l hl)

/-! ### Spans on one side of each other -/

/-- `xs` ends before `ys` begins. -/
def Before (xs ys : List (Span α)) : Prop := ∀ s ∈ xs, ∀ t ∈ ys, s.upper ≤ t.lower

theorem Before.not_covered {xs ys : List (Span α)} (h : Before xs ys) {k : α}
    (hx : Covered xs k) (hy : Covered ys k) : False := by
  obtain ⟨s, hs, hsk⟩ := hx
  obtain ⟨t, ht, htk⟩ := hy
  exact absurd (hsk.2.trans_le (h s hs t ht)) (not_lt.2 htk.1)

end Span
