import Mathlib.Logic.Function.Basic
import Mathlib.Data.List.Nodup

/-!
# Writes — ordered writes to an addressed store

A store is a function from addresses to contents; a write replaces the contents of one address.
Crash arguments cut a list of writes at an arbitrary point, so the lemmas below say what a list of
writes can do to one address without asking which of the writes were performed.
-/

namespace Xv6.Lib

open Function (update update_of_ne update_self)

variable {α β : Type*} [DecidableEq α]

/-- Perform the writes from left to right. -/
def applyWrites (d : α → β) : List (α × β) → α → β
  | [] => d
  | w :: ws => applyWrites (update d w.1 w.2) ws

@[simp] theorem applyWrites_nil (d : α → β) : applyWrites d [] = d := rfl

@[simp] theorem applyWrites_cons (d : α → β) (w : α × β) (ws : List (α × β)) :
    applyWrites d (w :: ws) = applyWrites (update d w.1 w.2) ws := rfl

theorem applyWrites_append (d : α → β) (ws vs : List (α × β)) :
    applyWrites d (ws ++ vs) = applyWrites (applyWrites d ws) vs := by
  induction ws generalizing d with
  | nil => rfl
  | cons w ws ih => simpa using ih (update d w.1 w.2)

theorem applyWrites_of_notMem {d : α → β} {ws : List (α × β)} {a : α}
    (h : ∀ w ∈ ws, w.1 ≠ a) : applyWrites d ws a = d a := by
  induction ws generalizing d with
  | nil => rfl
  | cons w ws ih =>
    have hne : a ≠ w.1 := fun heq => h w (by simp) heq.symm
    have htail : ∀ w' ∈ ws, w'.1 ≠ a := fun w' hw' => h w' (by simp [hw'])
    simpa [update_of_ne hne] using ih (d := update d w.1 w.2) htail

/-- Whatever was written, an address holds its old contents or those of one of its writes. -/
theorem applyWrites_eq_or_mem (d : α → β) (ws : List (α × β)) (a : α) :
    applyWrites d ws a = d a ∨ (a, applyWrites d ws a) ∈ ws := by
  induction ws generalizing d with
  | nil => exact .inl rfl
  | cons w ws ih =>
    rcases ih (update d w.1 w.2) with hold | hmem
    · by_cases ha : a = w.1
      · subst ha
        right
        simp only [applyWrites_cons, hold, update_self]
        simp
      · left
        simpa [update_of_ne ha] using hold
    · right
      exact List.mem_cons_of_mem _ hmem

/-- With pairwise distinct addresses, each write decides the final contents of its address. -/
theorem applyWrites_of_mem {d : α → β} {ws : List (α × β)} {a : α} {b : β}
    (hnodup : (ws.map Prod.fst).Nodup) (hmem : (a, b) ∈ ws) : applyWrites d ws a = b := by
  induction ws generalizing d with
  | nil => simp at hmem
  | cons w ws ih =>
    have hcons := List.nodup_cons.1 (by simpa only [List.map_cons] using hnodup)
    rcases List.mem_cons.1 hmem with heq | htail
    · subst heq
      have hnot : ∀ w' ∈ ws, w'.1 ≠ a := by
        intro w' hw' hEq
        exact hcons.1 (List.mem_map.2 ⟨w', hw', hEq⟩)
      simpa using applyWrites_of_notMem (d := update d a b) hnot
    · simpa using ih (d := update d w.1 w.2) hcons.2 htail

end Xv6.Lib
