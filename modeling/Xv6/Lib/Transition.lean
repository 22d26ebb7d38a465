import Mathlib.Logic.Basic

/-!
# Transition — labelled transition systems with a step function

A system is a partial step function on states; a label says who does what.  `Reaches` collects the
states of the runs all of whose steps meet a condition, so that a property of conditional runs is
an invariant of this predicate.
-/

namespace Xv6.Lib

variable {σ α : Type*}

/-- The states reached from `s₀` by steps that all meet `ok`. -/
inductive Reaches (step : σ → α → Option σ) (ok : σ → α → Prop) (s₀ : σ) : σ → Prop where
  | refl : Reaches step ok s₀ s₀
  | tail {s t : σ} (a : α) :
      Reaches step ok s₀ s → ok s a → step s a = some t → Reaches step ok s₀ t

/-- Every label is allowed. -/
def anyStep (_ : σ) (_ : α) : Prop := True

/-- Perform a list of labels. -/
def run (step : σ → α → Option σ) : σ → List α → Option σ
  | s, [] => some s
  | s, a :: as => (step s a).bind fun t => run step t as

/-- Every label of the list meets `ok` in the state in which it is performed. -/
def AllOk (step : σ → α → Option σ) (ok : σ → α → Prop) : σ → List α → Prop
  | _, [] => True
  | s, a :: as => ok s a ∧ ∀ t, step s a = some t → AllOk step ok t as

/-- Perform a list of labels as long as each meets `ok`. -/
def runIf (step : σ → α → Option σ) (ok : σ → α → Prop) [∀ s a, Decidable (ok s a)] :
    σ → List α → Option σ
  | s, [] => some s
  | s, a :: as => if ok s a then (step s a).bind fun t => runIf step ok t as else none

/-- Steps that also record something of the past: `upd` sees the state before the step. -/
def withHistory {β : Type*} (step : σ → α → Option σ) (upd : σ → α → β → β) (x : σ × β) (a : α) :
    Option (σ × β) :=
  (step x.1 a).map fun t => (t, upd x.1 a x.2)

/-- What the evaluation of a run says about the state it leads to. -/
theorem exists_of_any {o : Option σ} {P : σ → Prop} [DecidablePred P]
    (h : o.any fun s => decide (P s)) : ∃ s, o = some s ∧ P s := by
  simpa [Option.any_eq_true] using h

/-- Two systems that keep step on every label keep step on every list of them. -/
theorem run_lockstep {τ : Type*} {step : σ → α → Option σ} {step' : τ → α → Option τ}
    {R : σ → τ → Prop} {ok : α → Prop}
    (hstep : ∀ s t a, R s t → ok a → Option.Rel R (step s a) (step' t a)) {s : σ} {t : τ}
    {as : List α} (h : R s t) (hok : ∀ a ∈ as, ok a) :
    Option.Rel R (run step s as) (run step' t as) := by
  induction as generalizing s t with
  | nil => exact .some h
  | cons a as ih =>
    have hrel := hstep s t a h (hok a List.mem_cons_self)
    simp only [run]
    cases hs : step s a <;> cases ht : step' t a <;> rw [hs, ht] at hrel <;> cases hrel
    · exact .none
    · rename_i hnext
      exact ih hnext fun b hb => hok b (List.mem_cons_of_mem a hb)

namespace Reaches

variable {step : σ → α → Option σ} {ok : σ → α → Prop} {s₀ s t : σ}

/-- What holds at the start and is kept by every allowed step holds in every state reached. -/
theorem invariant {P : σ → Prop} (h : Reaches step ok s₀ s) (h₀ : P s₀)
    (hstep : ∀ s a t, P s → ok s a → step s a = some t → P t) : P s := by
  induction h with
  | refl => exact h₀
  | tail a _ hok hs ih => exact hstep _ a _ ih hok hs

theorem trans (h₁ : Reaches step ok s₀ s) (h₂ : Reaches step ok s t) : Reaches step ok s₀ t := by
  induction h₂ with
  | refl => exact h₁
  | tail a _ hok hs ih => exact .tail a ih hok hs

theorem of_run {as : List α} (hok : AllOk step ok s as) (h : run step s as = some t) :
    Reaches step ok s t := by
  induction as generalizing s with
  | nil =>
    cases h
    exact .refl
  | cons a as ih =>
    rcases Option.bind_eq_some_iff.1 h with ⟨u, hu, hrest⟩
    exact trans (.tail a .refl hok.1 hu) (ih (hok.2 u hu) hrest)

theorem of_run_any {as : List α} (h : run step s as = some t) : Reaches step anyStep s t := by
  induction as generalizing s with
  | nil =>
    cases h
    exact .refl
  | cons a as ih =>
    rcases Option.bind_eq_some_iff.1 h with ⟨u, hu, hrest⟩
    exact trans (.tail a .refl trivial hu) (ih hrest)

theorem of_runIf [∀ s a, Decidable (ok s a)] {as : List α} (h : runIf step ok s as = some t) :
    Reaches step ok s t := by
  induction as generalizing s with
  | nil =>
    cases h
    exact .refl
  | cons a as ih =>
    simp only [runIf] at h
    split at h
    · rcases Option.bind_eq_some_iff.1 h with ⟨u, hu, hrest⟩
      exact trans (.tail a .refl ‹_› hu) (ih hrest)
    · cases h

/-- An invariant of states and what has been recorded, over a state invariant known already. -/
theorem invariant_withHistory {β : Type*} {upd : σ → α → β → β} {h₀ h : β} {P : σ → Prop}
    {Q : σ → β → Prop} (hP : P s₀) (hPstep : ∀ s a t, P s → ok s a → step s a = some t → P t)
    (hQ : Q s₀ h₀)
    (hQstep : ∀ s a t h, P s → Q s h → ok s a → step s a = some t → Q t (upd s a h))
    (hs : Reaches (withHistory step upd) (fun x => ok x.1) (s₀, h₀) (s, h)) : P s ∧ Q s h := by
  refine hs.invariant (P := fun x => P x.1 ∧ Q x.1 x.2) ⟨hP, hQ⟩ ?_
  rintro ⟨u, g⟩ a ⟨t, g'⟩ ⟨hu, hg⟩ hok hstep
  rcases Option.map_eq_some_iff.1 hstep with ⟨t', ht, heq⟩
  cases heq
  exact ⟨hPstep u a t hu hok ht, hQstep u a t g hu hg hok ht⟩

end Reaches

end Xv6.Lib
