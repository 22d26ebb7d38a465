import Mathlib.Algebra.BigOperators.Group.Finset.Basic
import Mathlib.Data.Fintype.Basic
import Mathlib.Tactic.Abel

/-!
# Families — states that hold one component per index

A system of finitely many parties keeps a family of components.  A step of one party replaces its
component, so a total over the family changes by the difference of two terms.
-/

namespace Xv6.Lib

variable {ι α M : Type*} [DecidableEq ι]

/-- Replacing one component replaces its term of a total. -/
theorem sum_update_add_of_mem [AddCommMonoid M] {s : Finset ι} {i : ι} (hi : i ∈ s) (g : ι → α)
    (f : α → M) (x : α) :
    (∑ j ∈ s, f (Function.update g i x j)) + f (g i) = (∑ j ∈ s, f (g j)) + f x := by
  have hrest : ∑ j ∈ s.erase i, f (Function.update g i x j) = ∑ j ∈ s.erase i, f (g j) := by
    apply Finset.sum_congr rfl
    intro j hj
    rw [Function.update_of_ne (Finset.ne_of_mem_erase hj)]
  rw [← Finset.add_sum_erase _ _ hi, hrest, ← Finset.add_sum_erase _ _ hi, Function.update_self]
  abel

theorem sum_update_add [Fintype ι] [AddCommMonoid M] (g : ι → α) (f : α → M) (i : ι) (x : α) :
    (∑ j, f (Function.update g i x j)) + f (g i) = (∑ j, f (g j)) + f x :=
  sum_update_add_of_mem (Finset.mem_univ i) g f x

end Xv6.Lib
