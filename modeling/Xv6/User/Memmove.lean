import Mathlib.Algebra.Group.Int.Defs
import Mathlib.Logic.Function.Basic
import Xv6.Lib.Bytes

/-!
# Memmove — `memmove` of the kernel and of the user library

Both copy byte by byte, upwards or downwards, and choose the direction by different tests.  Pointers
are 64 bits wide: the one past the end of a block may have wrapped to 0.
-/

namespace Xv6.Memmove

open Lib
open Function (update update_of_ne update_self)

variable {b : Nat → UInt8} {d s n : Nat}

/-- The loop `*d++ = *s++`, with `n` rounds left. -/
def copyUp (b : Nat → UInt8) (d s : Nat) : Nat → Nat → UInt8
  | 0 => b
  | n + 1 => copyUp (update b d (b s)) ((d + 1) % 2 ^ 64) ((s + 1) % 2 ^ 64) n

/-- The loop `*--d = *--s`, with `n` rounds left. -/
def copyDown (b : Nat → UInt8) (d s : Nat) : Nat → Nat → UInt8
  | 0 => b
  | n + 1 =>
    let d' := (d + (2 ^ 64 - 1)) % 2 ^ 64
    let s' := (s + (2 ^ 64 - 1)) % 2 ^ 64
    copyDown (update b d' (b s')) d' s' n

/-- `memmove` in `kernel/string.c`; it returns `dst`. -/
def memmove (b : Nat → UInt8) (dst src n : Nat) : Nat × (Nat → UInt8) :=
  if n = 0 then
    (dst, b)
  else if src < dst ∧ dst < (src + n) % 2 ^ 64 then
    (dst, copyDown b ((dst + n) % 2 ^ 64) ((src + n) % 2 ^ 64) n)
  else
    (dst, copyUp b dst src n)

/-- `memmove` in `user/ulib.c`, where `n` is an `int`. -/
def userMemmove (b : Nat → UInt8) (dst src : Nat) (n : Int) : Nat × (Nat → UInt8) :=
  if dst < src then
    (dst, copyUp b dst src n.toNat)
  else
    (dst, copyDown b ((dst + n) % 2 ^ 64).toNat ((src + n) % 2 ^ 64).toNat n.toNat)

/-- Upwards no byte is overwritten before it is read if the destination is not inside the rest of
the source. -/
theorem copyUp_eq (hd : d + n ≤ 2 ^ 64) (hs : s + n ≤ 2 ^ 64) (h : d ≤ s ∨ s + n ≤ d) :
    copyUp b d s n = blit b d n fun i => b (s + i) := by
  induction n generalizing b d s with
  | zero =>
    funext x
    exact (blit_of_not (by omega)).symm
  | succ n ih =>
    rw [copyUp]
    have hrest : copyUp (update b d (b s)) ((d + 1) % 2 ^ 64) ((s + 1) % 2 ^ 64) n =
        blit (update b d (b s)) (d + 1) n fun i => update b d (b s) (s + 1 + i) := by
      rcases Nat.eq_zero_or_pos n with rfl | hn
      · funext x
        exact (blit_of_not (by omega)).symm
      · rw [Nat.mod_eq_of_lt (by omega : d + 1 < 2 ^ 64),
          Nat.mod_eq_of_lt (by omega : s + 1 < 2 ^ 64)]
        exact ih (by omega) (by omega) (by omega)
    rw [hrest]
    funext x
    by_cases hx : d + 1 ≤ x ∧ x < d + 1 + n
    · have hne : s + 1 + (x - (d + 1)) ≠ d := by omega
      rw [blit_of_mem hx, blit_of_mem (by omega), update_of_ne hne]
      exact congrArg b (by omega)
    · rw [blit_of_not hx]
      by_cases hxd : x = d
      · subst hxd
        rw [update_self, blit_of_mem (by omega), Nat.sub_self, Nat.add_zero]
      · rw [update_of_ne hxd, blit_of_not (by omega)]

/-- Downwards the same holds if the source does not begin inside the destination. -/
theorem copyDown_eq (hd : d + n ≤ 2 ^ 64) (hs : s + n ≤ 2 ^ 64) (h : s ≤ d ∨ d + n ≤ s) :
    copyDown b ((d + n) % 2 ^ 64) ((s + n) % 2 ^ 64) n = blit b d n fun i => b (s + i) := by
  induction n generalizing b with
  | zero =>
    funext x
    exact (blit_of_not (by omega)).symm
  | succ n ih =>
    have hback : ∀ a, a + (n + 1) ≤ 2 ^ 64 →
        ((a + (n + 1)) % 2 ^ 64 + (2 ^ 64 - 1)) % 2 ^ 64 = (a + n) % 2 ^ 64 ∧
        (a + n) % 2 ^ 64 = a + n := by
      intro a ha
      omega
    simp only [copyDown]
    rw [(hback d hd).1, (hback s hs).1, ih (by omega) (by omega) (by omega), (hback d hd).2,
      (hback s hs).2]
    funext x
    by_cases hx : d ≤ x ∧ x < d + n
    · have hne : s + (x - d) ≠ d + n := by omega
      rw [blit_of_mem hx, blit_of_mem (by omega), update_of_ne hne]
    · rw [blit_of_not hx]
      by_cases hxd : x = d + n
      · subst hxd
        rw [update_self, blit_of_mem (by omega), Nat.add_sub_cancel_left]
      · rw [update_of_ne hxd, blit_of_not (by omega)]

theorem memmove_eq (hd : d + n ≤ 2 ^ 64) (hs : s + n ≤ 2 ^ 64) :
    memmove b d s n = (d, blit b d n fun i => b (s + i)) := by
  rw [memmove]
  by_cases hn : n = 0
  · subst hn
    rw [if_pos rfl]
    exact congrArg (d, ·) (funext fun x => (blit_of_not (by omega)).symm)
  rw [if_neg hn]
  by_cases h : s < d ∧ d < (s + n) % 2 ^ 64
  · rw [if_pos h, copyDown_eq hd hs (.inl (Nat.le_of_lt h.1))]
  · -- The end of the source can have wrapped only if the destination is not above it.
    rw [if_neg h, copyUp_eq hd hs (by omega)]

theorem userMemmove_eq (hd : d + n ≤ 2 ^ 64) (hs : s + n ≤ 2 ^ 64) :
    userMemmove b d s n = (d, blit b d n fun i => b (s + i)) := by
  have hmod : ∀ a : Nat, (((a : Int) + n) % 2 ^ 64).toNat = (a + n) % 2 ^ 64 := by
    intro a
    omega
  rw [userMemmove, hmod, hmod, Int.toNat_natCast]
  by_cases h : d < s
  · rw [if_pos h, copyUp_eq hd hs (.inl (Nat.le_of_lt h))]
  · rw [if_neg h, copyDown_eq hd hs (.inl (Nat.le_of_not_lt h))]

/-- However the blocks overlap, both move the bytes that were at `src` and change no others. -/
theorem memmove_moves (b : Nat → UInt8) {dst src n : Nat} (_hn : n < 2 ^ 31)
    (hdst : dst + n ≤ 2 ^ 64)
    (hsrc : src + n ≤ 2 ^ 64) :
    (∀ i, i < n → (memmove b dst src n).2 (dst + i) = b (src + i)) ∧
    (∀ x, ¬ (dst ≤ x ∧ x < dst + n) → (memmove b dst src n).2 x = b x) ∧
    userMemmove b dst src n = memmove b dst src n := by
  have hkernel := memmove_eq (b := b) hdst hsrc
  refine ⟨fun i hi => ?_, fun x hx => ?_, (userMemmove_eq hdst hsrc).trans hkernel.symm⟩
  · simpa only [hkernel] using blit_add hi
  · simpa only [hkernel] using blit_of_not hx

/-- The source ends where the address space does, and begins inside the destination. -/
theorem memmove_moves_overlapping :
    (memmove UInt8.ofNat (2 ^ 64 - 3) (2 ^ 64 - 2) 2).2 (2 ^ 64 - 2) = 255 :=
  (memmove_moves UInt8.ofNat (by decide) (by decide) (by decide)).1 1 (by decide)

end Xv6.Memmove
