import Mathlib.Logic.Function.Basic

/-!
# Holding — a free map and the slots that hold its blocks

Blocks are numbers below `hi`; those below `lo` are never given away.  A slot `k` holds block
`held k`, or none if that is 0.  The free map is exact when a block is marked as used just if it is
below `lo` or one slot holds it, and no two slots hold the same block.
-/

namespace Xv6.Lib

open Function (update update_apply update_of_ne update_self)

variable {κ : Type} {lo hi : Nat} {used : Nat → Bool} {held : κ → Nat}

structure Holding (lo hi : Nat) (used : Nat → Bool) (held : κ → Nat) : Prop where
  inj : ∀ k l, held k ≠ 0 → held k = held l → k = l
  range : ∀ k, held k ≠ 0 → lo ≤ held k ∧ held k < hi
  used_iff : ∀ b, b < hi → (used b = true ↔ b < lo ∨ b ≠ 0 ∧ ∃ k, held k = b)

namespace Holding

theorem used_of_held (h : Holding lo hi used held) {k : κ} (hk : held k ≠ 0) :
    used (held k) = true :=
  (h.used_iff _ (h.range k hk).2).2 (.inr ⟨hk, k, rfl⟩)

theorem of_unused (h : Holding lo hi used held) {b : Nat} (hb : b < hi) (hused : used b = false) :
    lo ≤ b ∧ ∀ k, held k = b → b = 0 := by
  have hnot : ¬ (b < lo ∨ b ≠ 0 ∧ ∃ k, held k = b) := by
    rw [← h.used_iff b hb, hused]
    simp
  refine ⟨?_, ?_⟩
  · by_contra hlt
    exact hnot (.inl (by omega))
  · intro k hk
    by_contra hb0
    exact hnot (.inr ⟨hb0, k, hk⟩)

variable [DecidableEq κ]

attribute [local grind =] update_apply

theorem gain (h : Holding lo hi used held) (hlo : 0 < lo) {k : κ} {b : Nat} (hk : held k = 0)
    (hb : b < hi) (hused : used b = false) :
    Holding lo hi (update used b true) (update held k b) := by
  rcases h.of_unused hb hused with ⟨hlob, hfree⟩
  have hb0 : b ≠ 0 := by omega
  have hne : ∀ l, held l ≠ b := fun l hl => hb0 (hfree l hl)
  refine ⟨?_, ?_, fun c hc => ?_⟩
  · have hinj := h.inj
    grind
  · have hrange := h.range
    grind
  · by_cases hcb : c = b
    · subst hcb
      rw [update_self]
      simp only [true_iff]
      exact .inr ⟨hb0, k, update_self ..⟩
    · rw [update_of_ne hcb, h.used_iff c hc]
      refine or_congr_right (and_congr_right fun hc0 => exists_congr fun l => ?_)
      grind

theorem release (h : Holding lo hi used held) {k : κ} (hk : held k ≠ 0) :
    Holding lo hi (update used (held k) false) (update held k 0) := by
  have hinj := h.inj
  have hrange := h.range
  refine ⟨by grind, by grind, fun c hc => ?_⟩
  by_cases hck : c = held k
  · -- The released block: no other slot held it.
    subst hck
    rw [update_self]
    simp only [Bool.false_eq_true, false_iff, not_or, not_and, not_exists]
    refine ⟨Nat.not_lt.2 (hrange k hk).1, fun _ l hl => ?_⟩
    grind
  · rw [update_of_ne hck, h.used_iff c hc]
    refine or_congr_right (and_congr_right fun hc0 => exists_congr fun l => ?_)
    grind

end Holding
end Xv6.Lib
