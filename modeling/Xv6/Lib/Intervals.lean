import Mathlib.Data.List.Basic
import Mathlib.Order.Defs.LinearOrder
import Mathlib.Data.List.Pairwise

/-!
# Intervals — lists of separated intervals

Half-open intervals of addresses, lists of them in ascending order with gaps between them, and what
it takes to put one more interval into such a list: it is joined with its neighbours where it
touches them.
-/

namespace Xv6.Lib

structure Interval where
  lo : Nat
  hi : Nat
  deriving DecidableEq

namespace Interval

def Has (i : Interval) (a : Nat) : Prop :=
  i.lo ≤ a ∧ a < i.hi

/-- The intervals have no address in common. -/
def Apart (i j : Interval) : Prop :=
  i.hi ≤ j.lo ∨ j.hi ≤ i.lo

/-- There is a gap between them. -/
def Before (i j : Interval) : Prop :=
  i.hi < j.lo

variable {i j k : Interval} {l l₁ l₂ : List Interval} {a : Nat}

theorem Apart.symm (h : i.Apart j) : j.Apart i :=
  Or.symm h

theorem Apart.not_has (h : i.Apart j) (hi : i.Has a) : ¬ j.Has a := by
  simp only [Apart, Has] at *
  omega

theorem apart_of_not_has (hi : i.lo < i.hi) (hj : j.lo < j.hi)
    (h : ∀ a, i.Has a → ¬ j.Has a) : i.Apart j := by
  have hmax := h (max i.lo j.lo)
  simp only [Apart, Has] at *
  omega

/-! ## Addresses of a list -/

def Covers (l : List Interval) (a : Nat) : Prop :=
  ∃ i ∈ l, i.Has a

theorem covers_nil : ¬ Covers [] a := by
  rintro ⟨i, hi, -⟩
  cases hi

theorem covers_cons : Covers (i :: l) a ↔ i.Has a ∨ Covers l a := by
  constructor
  · rintro ⟨j, hj, ha⟩
    rcases List.mem_cons.1 hj with rfl | hj
    · exact .inl ha
    · exact .inr ⟨j, hj, ha⟩
  · rintro (ha | ⟨j, hj, ha⟩)
    · exact ⟨i, List.mem_cons_self, ha⟩
    · exact ⟨j, List.mem_cons_of_mem _ hj, ha⟩

theorem covers_append : Covers (l₁ ++ l₂) a ↔ Covers l₁ a ∨ Covers l₂ a := by
  constructor
  · rintro ⟨j, hj, ha⟩
    exact (List.mem_append.1 hj).imp (⟨j, ·, ha⟩) (⟨j, ·, ha⟩)
  · rintro (⟨j, hj, ha⟩ | ⟨j, hj, ha⟩)
    · exact ⟨j, List.mem_append_left _ hj, ha⟩
    · exact ⟨j, List.mem_append_right _ hj, ha⟩

/-- Two intervals that touch are one. -/
theorem has_join (hi : i.lo ≤ i.hi) (hj : j.lo ≤ j.hi) (heq : i.hi = j.lo) :
    (Interval.mk i.lo j.hi).Has a ↔ i.Has a ∨ j.Has a := by
  simp only [Has]
  omega

/-! ## Separated lists -/

/-- Ascending, with gaps. -/
def Sep (l : List Interval) : Prop :=
  l.Pairwise Before

/-- The place of an interval in a separated list. -/
theorem Sep.split (hsep : Sep l) (hfull : ∀ i ∈ l, i.lo < i.hi)
    (hapart : ∀ i ∈ l, i.Apart j) : ∃ l₁ l₂, l = l₁ ++ l₂ ∧ (∀ i ∈ l₁, i.hi ≤ j.lo) ∧
      ∀ i ∈ l₂, j.hi ≤ i.lo := by
  induction l with
  | nil => exact ⟨[], [], rfl, nofun, nofun⟩
  | cons i l ih =>
    rcases List.pairwise_cons.1 hsep with ⟨hbefore, hsep'⟩
    rcases hapart i List.mem_cons_self with hle | hle
    · rcases ih hsep' (fun k hk => hfull k (List.mem_cons_of_mem _ hk))
        (fun k hk => hapart k (List.mem_cons_of_mem _ hk)) with ⟨l₁, l₂, rfl, h₁, h₂⟩
      refine ⟨i :: l₁, l₂, rfl, fun k hk => ?_, h₂⟩
      rcases List.mem_cons.1 hk with rfl | hk
      · exact hle
      · exact h₁ k hk
    · -- Everything after an interval to the right of `j` is to the right of `j`.
      refine ⟨[], i :: l, rfl, nofun, fun k hk => ?_⟩
      rcases List.mem_cons.1 hk with rfl | hk
      · exact hle
      · have hlt : i.hi < k.lo := hbefore k hk
        have hi := hfull i List.mem_cons_self
        omega

theorem sep_append : Sep (l₁ ++ l₂) ↔ Sep l₁ ∧ Sep l₂ ∧ ∀ i ∈ l₁, ∀ j ∈ l₂, i.Before j :=
  List.pairwise_append

theorem sep_cons : Sep (i :: l) ↔ (∀ j ∈ l, i.Before j) ∧ Sep l :=
  List.pairwise_cons

/-- Separated intervals behind others, with the last of these and the first of those joined. -/
theorem Sep.join (h₁ : Sep (l₁ ++ [i])) (h₂ : Sep (j :: l₂)) (hi : i.lo < i.hi) (hj : j.lo < j.hi)
    (hij : i.hi ≤ j.lo) : Sep (l₁ ++ ⟨i.lo, j.hi⟩ :: l₂) := by
  simp only [sep_append, sep_cons, Before] at h₁ h₂ ⊢
  grind

theorem Sep.behind (h₁ : Sep (l₁ ++ [i])) (h₂ : Sep (j :: l₂)) (hi : i.lo < i.hi)
    (hj : j.lo < j.hi) (hij : i.hi < j.lo) : Sep (l₁ ++ i :: j :: l₂) := by
  simp only [sep_append, sep_cons, Before] at h₁ h₂ ⊢
  grind

/-- As many intervals fit below an address. -/
theorem Sep.length_le {n m : Nat} (hsep : Sep l) (hfull : ∀ i ∈ l, i.lo < i.hi)
    (hlo : ∀ i ∈ l, m ≤ i.lo) (hhi : ∀ i ∈ l, i.hi ≤ n) : l.length ≤ n - m := by
  induction l generalizing m with
  | nil => exact Nat.zero_le _
  | cons i l ih =>
    rcases sep_cons.1 hsep with ⟨hbefore, hsep'⟩
    have hi := hfull i List.mem_cons_self
    have hm := hlo i List.mem_cons_self
    have hn := hhi i List.mem_cons_self
    have hrest := ih (m := i.hi) hsep' (fun j hj => hfull j (List.mem_cons_of_mem _ hj))
      (fun j hj => Nat.le_of_lt (hbefore j hj)) fun j hj => hhi j (List.mem_cons_of_mem _ hj)
    rw [List.length_cons]
    omega

end Interval

end Xv6.Lib
