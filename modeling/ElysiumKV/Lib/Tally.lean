import Mathlib.Algebra.BigOperators.Fin

/-!
# Totals over a family

A total over finitely many members, one of which changes.
-/

namespace Tally

open Function

variable {ι α A : Type} [Fintype ι] [DecidableEq ι] [AddCommMonoid A]

theorem sum_update (f : α → A) (xs : ι → α) (i : ι) (x : α) :
    ∑ j, f (update xs i x j) + f (xs i) = ∑ j, f (xs j) + f x := by
  have hcomp : (fun j => f (update xs i x j)) = update (fun j => f (xs j)) i (f x) :=
    funext fun j => Function.apply_update (fun _ => f) xs i x j
  rw [hcomp, Finset.sum_update_of_mem (Finset.mem_univ i),
    ← Finset.add_sum_erase Finset.univ (fun j => f (xs j)) (Finset.mem_univ i),
    Finset.sdiff_singleton_eq_erase]
  rw [add_assoc, add_comm, add_comm _ (f (xs i))]

end Tally
