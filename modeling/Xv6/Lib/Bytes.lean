import Mathlib.Algebra.Order.Group.Nat
import Mathlib.Data.Nat.Basic

/-!
# Bytes — numbers and blocks of bytes in a memory

A memory is a function from addresses to bytes.  A number of `n` bytes is stored with its lowest
byte first.
-/

namespace Xv6.Lib

variable {b b' : Nat → UInt8} {a n x v i : Nat} {f g : Nat → UInt8}

/-! ## Blocks -/

/-- The bytes `f 0, …, f (n - 1)` are written at `a`. -/
def blit (b : Nat → UInt8) (a n : Nat) (f : Nat → UInt8) : Nat → UInt8 := fun x =>
  if a ≤ x ∧ x < a + n then f (x - a) else b x

theorem blit_of_not (h : ¬ (a ≤ x ∧ x < a + n)) : blit b a n f x = b x :=
  if_neg h

theorem blit_of_mem (h : a ≤ x ∧ x < a + n) : blit b a n f x = f (x - a) :=
  if_pos h

theorem blit_add (hi : i < n) : blit b a n f (a + i) = f i := by
  rw [blit_of_mem ⟨Nat.le_add_right _ _, Nat.add_lt_add_left hi _⟩, Nat.add_sub_cancel_left]

theorem blit_blit : blit (blit b a n f) a n g = blit b a n g := by
  funext x
  unfold blit
  split <;> rfl

/-! ## Numbers -/

/-- The number of `n` bytes at `a`. -/
def le (b : Nat → UInt8) (a : Nat) : Nat → Nat
  | 0 => 0
  | n + 1 => (b a).toNat + 256 * le b (a + 1) n

/-- A byte of a number. -/
def leByte (v i : Nat) : UInt8 :=
  UInt8.ofNat (v / 256 ^ i)

theorem le_congr (h : ∀ i, i < n → b' (a + i) = b (a + i)) : le b' a n = le b a n := by
  induction n generalizing a with
  | zero => rfl
  | succ n ih =>
    have hrest : le b' (a + 1) n = le b (a + 1) n := by
      refine ih fun i hi => ?_
      rw [Nat.add_assoc, Nat.add_comm 1 i]
      exact h (i + 1) (Nat.succ_lt_succ hi)
    rw [le, le, hrest, show b' a = b a from h 0 (Nat.succ_pos n)]

theorem leByte_succ (v i : Nat) : leByte v (i + 1) = leByte (v / 256) i := by
  rw [leByte, leByte, Nat.pow_succ, Nat.mul_comm, Nat.div_div_eq_div_mul]

theorem toNat_leByte_zero (v : Nat) : (leByte v 0).toNat = v % 256 := by
  simp [leByte]

theorem le_of_leByte (h : ∀ i, i < n → b (a + i) = leByte v i) : le b a n = v % 256 ^ n := by
  induction n generalizing a v with
  | zero => rw [le, Nat.pow_zero, Nat.mod_one]
  | succ n ih =>
    have hrest : le b (a + 1) n = v / 256 % 256 ^ n := by
      refine ih fun i hi => ?_
      rw [Nat.add_assoc, Nat.add_comm 1 i, ← leByte_succ]
      exact h (i + 1) (Nat.succ_lt_succ hi)
    rw [le, hrest, show b a = leByte v 0 from h 0 (Nat.succ_pos n), toNat_leByte_zero,
      Nat.pow_succ, Nat.mul_comm (256 ^ n), Nat.mod_mul]

theorem le_blit (hv : v < 256 ^ n) : le (blit b a n (leByte v)) a n = v := by
  rw [le_of_leByte fun i hi => blit_add hi, Nat.mod_eq_of_lt hv]

theorem le_eq_zero (h : ∀ i, i < n → b (a + i) = 0) : le b a n = 0 := by
  have hbytes : ∀ i, i < n → b (a + i) = leByte 0 i := by
    intro i hi
    rw [h i hi, leByte, Nat.zero_div]
    rfl
  rw [le_of_leByte hbytes, Nat.zero_mod]

theorem le_blit_of_disjoint {k : Nat} (h : a + n ≤ x ∨ x + k ≤ a) :
    le (blit b x k f) a n = le b a n :=
  le_congr fun i hi => blit_of_not (by omega)

end Xv6.Lib
