import Mathlib.Data.Fintype.Card
import Mathlib.Data.Fintype.Prod

/-!
# Pointers — counting what points to an object

A finite number of places each hold a pointer or none.  The number of places that point to an object
changes by one when a place is set or cleared.
-/

namespace Xv6.Lib

open Function (update update_eq_self update_idem update_self)

variable {H F : Type*} [Fintype H] [DecidableEq F]

/-- The number of places that point to `f`. -/
def pointers (ptr : H → Option F) (f : F) : Nat :=
  (Finset.univ.filter fun x => ptr x = some f).card

variable {ptr : H → Option F} {x : H} {f g : F}

theorem pointers_pos_iff : 0 < pointers ptr f ↔ ∃ x, ptr x = some f := by
  simp [pointers, Finset.card_pos, Finset.filter_nonempty_iff]

theorem pointers_eq_zero_iff : pointers ptr f = 0 ↔ ∀ x, ptr x ≠ some f := by
  simp [pointers, Finset.filter_eq_empty_iff]

variable [DecidableEq H]

theorem pointers_set (h : ptr x = none) :
    pointers (update ptr x (some f)) g = pointers ptr g + if g = f then 1 else 0 := by
  unfold pointers
  by_cases hg : g = f
  · subst hg
    have hset : (Finset.univ.filter fun y => update ptr x (some g) y = some g) =
        insert x (Finset.univ.filter fun y => ptr y = some g) := by
      ext y
      by_cases hy : y = x
      · simp [hy]
      · simp [hy]
    rw [hset, Finset.card_insert_of_notMem (by simp [h]), if_pos rfl]
  · have hset : (Finset.univ.filter fun y => update ptr x (some f) y = some g) =
        Finset.univ.filter fun y => ptr y = some g := by
      ext y
      by_cases hy : y = x
      · simp [hy, h, Ne.symm hg]
      · simp [hy]
    rw [hset, if_neg hg, Nat.add_zero]

theorem pointers_clear (h : ptr x = some f) :
    pointers (update ptr x none) g + (if g = f then 1 else 0) = pointers ptr g := by
  have hback := pointers_set (f := f) (g := g) (update_self x none ptr)
  rw [update_idem, ← h, update_eq_self] at hback
  exact hback.symm

/-- A slot is left if not all are taken. -/
theorem exists_not_iff_card_lt {n : Nat} {P : Fin n → Prop} [DecidablePred P] :
    (∃ q, ¬ P q) ↔ (Finset.univ.filter P).card < n := by
  have hcard := Finset.card_lt_iff_ne_univ (s := Finset.univ.filter P)
  rw [Fintype.card_fin] at hcard
  rw [hcard, Ne, Finset.filter_eq_self]
  simp

end Xv6.Lib
