import Mathlib.Data.List.Nodup
import Mathlib.Data.List.Perm.Basic

/-!
# Lists with distinct keys

A finite map in no particular order: looking up, taking out and replacing agree with taking the list
apart at the element.
-/

namespace Keyed

open List

variable {α κ : Type*} {key : α → κ} {l l' : List α} {x : α}

/-- No two elements have one key. -/
def Distinct (key : α → κ) (l : List α) : Prop := (l.map key).Nodup

theorem Distinct.eq_of_key (h : Distinct key l) {y : α} (hx : x ∈ l) (hy : y ∈ l)
    (heq : key x = key y) : x = y :=
  inj_on_of_nodup_map h hx hy heq

theorem Distinct.perm (h : Distinct key l) (hp : l.Perm l') : Distinct key l' :=
  (hp.map key).nodup_iff.1 h

theorem Distinct.filter (h : Distinct key l) (p : α → Bool) : Distinct key (l.filter p) :=
  h.sublist (filter_sublist.map key)

variable [DecidableEq κ]

theorem Distinct.perm_cons_filter (h : Distinct key l) (hx : x ∈ l) :
    l.Perm (x :: l.filter fun y => key y ≠ key x) := by
  induction l with
  | nil => cases hx
  | cons y l ih =>
    obtain ⟨hnot, hrest⟩ := nodup_cons.1 (show (key y :: l.map key).Nodup from h)
    rcases mem_cons.1 hx with rfl | hx
    · have hothers : l.filter (fun y => key y ≠ key x) = l := by
        refine filter_eq_self.2 fun y hy => decide_eq_true fun heq => hnot ?_
        exact heq ▸ mem_map_of_mem hy
      rw [filter_cons_of_neg (by simp), hothers]
    · have hne : key y ≠ key x := fun heq => hnot (heq ▸ mem_map_of_mem hx)
      rw [filter_cons_of_pos (by simpa using hne)]
      exact ((ih hrest hx).cons y).trans (.swap _ _ _)

theorem Distinct.cons_filter (h : Distinct key l) :
    Distinct key (x :: l.filter fun y => key y ≠ key x) := by
  refine nodup_cons.2 ⟨fun hmem => ?_, h.filter _⟩
  obtain ⟨y, hy, heq⟩ := mem_map.1 hmem
  simpa [heq] using (mem_filter.1 hy).2

theorem Distinct.map_replace_perm (h : Distinct key l) {y : α} (hy : y ∈ l)
    (hkey : key y = key x) :
    (l.map fun z => if key z = key x then x else z).Perm (x :: l.filter fun z => key z ≠ key x) := by
  have hsplit := (h.perm_cons_filter hy).map fun z => if key z = key x then x else z
  rw [hkey] at hsplit
  refine hsplit.trans (.of_eq ?_)
  rw [map_cons, if_pos hkey]
  congr 1
  refine (map_congr_left fun z hz => ?_).trans (map_id _)
  rw [if_neg (of_decide_eq_true (mem_filter.1 hz).2)]
  rfl

theorem filter_eq_self_of_forall_ne {k : κ} (h : ∀ y ∈ l, key y ≠ k) :
    l.filter (fun y => key y ≠ k) = l :=
  filter_eq_self.2 fun y hy => decide_eq_true (h y hy)

end Keyed
