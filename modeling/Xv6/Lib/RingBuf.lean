import Mathlib.Data.Nat.ModEq
import Mathlib.Logic.Function.Basic

/-!
# RingBuf — buffers with wrapping counters

A ring buffer of `c` cells whose two counters count everything that was ever put in and taken out,
modulo `M`.  It holds a bounded queue for any number of operations as long as `c` divides `M` and is
smaller.
-/

namespace Xv6.Lib

/-- `a - b` of two `uint`s -/
def usub (a b : Nat) : Nat := (a + 2 ^ 32 - b) % 2 ^ 32

/-- `a + 1` of a `uint` -/
def usucc (a : Nat) : Nat := (a + 1) % 2 ^ 32

theorem usub_self (a : Nat) : usub a a = 0 := by
  rw [usub, Nat.add_sub_cancel_left, Nat.mod_self]

structure RingBuf (α : Type*) where
  data : Nat → α
  nread : Nat
  nwrite : Nat

namespace RingBuf

variable {α : Type*}

/-- Fill the next cell. -/
def put (c M : Nat) (r : RingBuf α) (x : α) : RingBuf α :=
  { r with
    data := Function.update r.data (r.nwrite % c) x
    nwrite := (r.nwrite + 1) % M }

/-- Give up the oldest cell. -/
def take (M : Nat) (r : RingBuf α) : RingBuf α :=
  { r with nread := (r.nread + 1) % M }

/-- Empty the cell that was filled last. -/
def unput (M : Nat) (r : RingBuf α) : RingBuf α :=
  { r with nwrite := (r.nwrite + M - 1) % M }

/-- All of `w` has been put in, and the first `k` elements of it have been taken out. -/
structure Reps (c M : Nat) (r : RingBuf α) (w : List α) (k : Nat) : Prop where
  nwrite : r.nwrite = w.length % M
  nread : r.nread = k % M
  le : k ≤ w.length
  room : w.length ≤ k + c
  cell : ∀ j x, k ≤ j → w[j]? = some x → r.data (j % c) = x

/-- Numbers that are less than `M` apart are told apart modulo `M`. -/
theorem eq_of_mod_eq {a b M : Nat} (hle : a ≤ b) (hlt : b < a + M) (h : a % M = b % M) : a = b := by
  have hdvd : M ∣ b - a := (Nat.modEq_iff_dvd' hle).1 h
  have hzero : b - a = 0 := Nat.eq_zero_of_dvd_of_lt hdvd (by omega)
  omega

/-- Counting down undoes counting up. -/
theorem mod_add_sub_one {a M : Nat} (hM : 0 < M) : ((a + 1) % M + M - 1) % M = a % M := by
  rw [Nat.add_sub_assoc hM, Nat.mod_add_mod]
  have : a + 1 + (M - 1) = a + M := by omega
  rw [this, Nat.add_mod_right]

namespace Reps

variable {c M k : Nat} {r : RingBuf α} {w : List α}

theorem empty_iff (h : Reps c M r w k) (hM : c < M) : r.nread = r.nwrite ↔ k = w.length := by
  rw [h.nread, h.nwrite]
  refine ⟨eq_of_mod_eq h.le ?_, congrArg (· % M)⟩
  have := h.room
  omega

theorem full_iff (h : Reps c M r w k) (hM : c < M) :
    r.nwrite = (r.nread + c) % M ↔ w.length = k + c := by
  rw [h.nread, h.nwrite, Nat.mod_add_mod]
  refine ⟨eq_of_mod_eq h.room ?_, congrArg (· % M)⟩
  have := h.le
  omega

theorem length_eq (h : Reps c M r w k) (hM : c < M) :
    (r.nwrite + M - r.nread) % M = w.length - k := by
  have hlt : k % M < M := Nat.mod_lt _ (by omega)
  have hle := h.le
  have hroom := h.room
  have hsum : w.length % M = (k % M + (w.length - k)) % M := by
    rw [Nat.mod_add_mod, Nat.add_sub_cancel' hle]
  rw [h.nread, h.nwrite, hsum]
  rcases Nat.lt_or_ge (k % M + (w.length - k)) M with hsmall | hwrap
  · rw [Nat.mod_eq_of_lt hsmall]
    have heq : k % M + (w.length - k) + M - k % M = w.length - k + M := by omega
    rw [heq, Nat.add_mod_right, Nat.mod_eq_of_lt (by omega)]
  · have hmod : (k % M + (w.length - k)) % M = k % M + (w.length - k) - M := by
      rw [Nat.mod_eq_sub_mod hwrap]
      exact Nat.mod_eq_of_lt (by omega)
    have heq : k % M + (w.length - k) - M + M - k % M = w.length - k := by omega
    rw [hmod, heq, Nat.mod_eq_of_lt (by omega)]

theorem put (h : Reps c M r w k) (hdvd : c ∣ M) (x : α) (hroom : w.length < k + c) :
    Reps c M (r.put c M x) (w ++ [x]) k := by
  have hlen : (w ++ [x]).length = w.length + 1 := by simp
  have hindex : r.nwrite % c = w.length % c := by
    rw [h.nwrite, Nat.mod_mod_of_dvd _ hdvd]
  refine ⟨?_, h.nread, ?_, ?_, ?_⟩
  · show (r.nwrite + 1) % M = _
    rw [h.nwrite, Nat.mod_add_mod, hlen]
  · have := h.le
    omega
  · omega
  · intro j y hj hy
    show Function.update r.data (r.nwrite % c) x (j % c) = y
    rw [hindex]
    rcases Nat.lt_trichotomy j w.length with hlt | rfl | hgt
    · -- The cells in use are apart from the one that is filled.
      rw [List.getElem?_append_left hlt] at hy
      have hne : j % c ≠ w.length % c := fun heq => by
        have := eq_of_mod_eq hlt.le (by omega) heq
        omega
      rw [Function.update_of_ne hne]
      exact h.cell j y hj hy
    · rw [Function.update_self]
      rw [List.getElem?_concat_length] at hy
      exact Option.some.inj hy
    · rw [List.getElem?_eq_none (by omega)] at hy
      cases hy

theorem head (h : Reps c M r w k) (hdvd : c ∣ M) (hlt : k < w.length) :
    w[k]? = some (r.data (r.nread % c)) := by
  rw [List.getElem?_eq_getElem hlt, h.nread, Nat.mod_mod_of_dvd _ hdvd]
  exact congrArg some (h.cell k _ le_rfl (List.getElem?_eq_getElem hlt)).symm

theorem take (h : Reps c M r w k) (hlt : k < w.length) : Reps c M (r.take M) w (k + 1) := by
  refine ⟨h.nwrite, ?_, hlt, ?_, fun j x hj => h.cell j x (by omega)⟩
  · show (r.nread + 1) % M = _
    rw [h.nread, Nat.mod_add_mod]
  · have := h.room
    omega

theorem nwrite_pred (h : Reps c M r w k) (hlt : k < w.length) (hM : 0 < M) :
    (r.nwrite + M - 1) % M = (w.length - 1) % M := by
  have hlen : w.length = w.length - 1 + 1 := by omega
  rw [h.nwrite, hlen, mod_add_sub_one hM, Nat.add_sub_cancel]

theorem last (h : Reps c M r w k) (hdvd : c ∣ M) (hlt : k < w.length) (hM : 0 < M) :
    w.getLast? = some (r.data ((r.nwrite + M - 1) % M % c)) := by
  rw [h.nwrite_pred hlt hM, Nat.mod_mod_of_dvd _ hdvd, List.getLast?_eq_getElem?,
    List.getElem?_eq_getElem (by omega)]
  exact congrArg some (h.cell _ _ (by omega) (List.getElem?_eq_getElem (by omega))).symm

theorem unput (h : Reps c M r w k) (hlt : k < w.length) (hM : 0 < M) :
    Reps c M (r.unput M) w.dropLast k := by
  have hlen : w.dropLast.length = w.length - 1 := List.length_dropLast
  have hroom := h.room
  refine ⟨?_, h.nread, by omega, by omega, fun j x hj hx => h.cell j x hj ?_⟩
  · rw [hlen]
    exact h.nwrite_pred hlt hM
  · rw [List.dropLast_eq_take, List.getElem?_take] at hx
    split at hx
    · exact hx
    · cases hx

theorem slice (h : Reps c M r w k) (hdvd : c ∣ M) {a b : Nat} (hka : k ≤ a) (hbw : b ≤ w.length) :
    ((List.range (b - a)).map fun j => r.data ((a % M + j) % M % c)) = (w.drop a).take (b - a) := by
  refine List.ext_getElem? fun j => ?_
  rw [List.getElem?_map, List.getElem?_take, List.getElem?_drop]
  by_cases hj : j < b - a
  · have hlt : a + j < w.length := by omega
    rw [List.getElem?_range hj, if_pos hj, List.getElem?_eq_getElem hlt, Option.map_some,
      Nat.mod_add_mod, Nat.mod_mod_of_dvd _ hdvd]
    exact congrArg some (h.cell _ _ (by omega) (List.getElem?_eq_getElem hlt))
  · rw [List.getElem?_eq_none (by simpa using hj), if_neg hj]
    rfl

theorem pending (h : Reps c M r w k) (hdvd : c ∣ M) :
    ((List.range (w.length - k)).map fun j => r.data ((r.nread + j) % M % c)) = w.drop k := by
  rw [h.nread, h.slice hdvd le_rfl le_rfl, List.take_of_length_le (by simp)]

end Reps

end RingBuf

end Xv6.Lib
