import Mathlib.Logic.Basic

/-!
# Prog — programs with a state that may stop with an error

A program takes a state and either returns a value with a new state or stops with an error.
`wp c E Q` is the weakest precondition of `c`: the states from which it returns only where `Q`
holds and stops only with errors that satisfy `E`.
-/

namespace Xv6.Lib

inductive Outcome (σ ε α : Type) where
  | ok (a : α) (s : σ)
  | error (e : ε)

/-- The state in which a program has returned. -/
def Outcome.state? {σ ε α : Type} : Outcome σ ε α → Option σ
  | .ok _ s => some s
  | .error _ => none

theorem Outcome.of_state? {σ ε : Type} {r : Outcome σ ε Unit} {s : σ} (h : r.state? = some s) :
    r = .ok () s := by
  cases r with
  | ok a t =>
    cases h
    rfl
  | error e => cases h

/-- What a program has returned. -/
def Outcome.value? {σ ε α : Type} : Outcome σ ε α → Option α
  | .ok a _ => some a
  | .error _ => none

theorem Outcome.of_value? {σ ε α : Type} {r : Outcome σ ε α} {a : α} (h : r.value? = some a) :
    ∃ s, r = .ok a s := by
  cases r with
  | ok b s =>
    cases h
    exact ⟨s, rfl⟩
  | error e => cases h

/-- How a program has failed. -/
def Outcome.error? {σ ε α : Type} : Outcome σ ε α → Option ε
  | .ok _ _ => none
  | .error e => some e

theorem Outcome.of_error? {σ ε α : Type} {r : Outcome σ ε α} {e : ε} (h : r.error? = some e) :
    r = .error e := by
  cases r with
  | ok a t => cases h
  | error e' =>
    cases h
    rfl

def Prog (σ ε α : Type) : Type :=
  σ → Outcome σ ε α

namespace Prog

variable {σ ε α β : Type}

/-! ## Building programs -/

protected def pure (a : α) : Prog σ ε α :=
  fun s => .ok a s

protected def bind (c : Prog σ ε α) (f : α → Prog σ ε β) : Prog σ ε β := fun s =>
  match c s with
  | .ok a t => f a t
  | .error e => .error e

instance : Monad (Prog σ ε) where
  pure := Prog.pure
  bind := Prog.bind

def gets (f : σ → α) : Prog σ ε α :=
  fun s => .ok (f s) s

def modify (f : σ → σ) : Prog σ ε Unit :=
  fun s => .ok () (f s)

def halt (e : ε) : Prog σ ε α :=
  fun _ => .error e

theorem bind_ok {c : Prog σ ε α} {f : α → Prog σ ε β} {s t : σ} {a : α} (hc : c s = .ok a t) :
    (c >>= f) s = f a t := by
  change Prog.bind c f s = _
  simp [Prog.bind, hc]

theorem pure_bind (a : α) (f : α → Prog σ ε β) : (pure a >>= f) = f a := rfl

theorem bind_gets (g : σ → α) (f : α → Prog σ ε β) (s : σ) : (gets g >>= f) s = f (g s) s := rfl

/-! ## Weakest preconditions -/

def wp (c : Prog σ ε α) (E : ε → Prop) (Q : α → σ → Prop) (s : σ) : Prop :=
  match c s with
  | .ok a t => Q a t
  | .error e => E e

variable {c : Prog σ ε α} {f : α → Prog σ ε β} {E E' : ε → Prop} {Q Q' R : α → σ → Prop}
variable {s t : σ}

@[simp]
theorem wp_pure (a : α) : wp (pure a : Prog σ ε α) E Q s ↔ Q a s := Iff.rfl

@[simp]
theorem wp_gets (g : σ → α) : wp (gets g : Prog σ ε α) E Q s ↔ Q (g s) s := Iff.rfl

@[simp]
theorem wp_modify (g : σ → σ) {Q : Unit → σ → Prop} :
    wp (modify g : Prog σ ε Unit) E Q s ↔ Q () (g s) := Iff.rfl

@[simp]
theorem wp_halt (e : ε) : wp (halt e : Prog σ ε α) E Q s ↔ E e := Iff.rfl

@[simp]
theorem wp_bind {Q : β → σ → Prop} : wp (c >>= f) E Q s ↔ wp c E (fun a t => wp (f a) E Q t) s := by
  change wp (Prog.bind c f) E Q s ↔ _
  unfold wp Prog.bind
  cases c s <;> rfl

theorem wp_mono (h : wp c E Q s) (hE : ∀ e, E e → E' e) (hQ : ∀ a t, Q a t → Q' a t) :
    wp c E' Q' s := by
  unfold wp at h ⊢
  cases hc : c s with
  | ok a t =>
    rw [hc] at h
    exact hQ a t h
  | error e =>
    rw [hc] at h
    exact hE e h

/-- The rule for a call: what is known of `c` carries over to the rest of the program. -/
theorem wp_call {Q : β → σ → Prop} (h : wp c E R s)
    (hf : ∀ a t, R a t → wp (f a) E' Q t) (hE : ∀ e, E e → E' e) : wp (c >>= f) E' Q s :=
  wp_bind.2 (wp_mono h hE hf)

/-- A call in a program that may fail in the same ways. -/
theorem wp_seq {Q : β → σ → Prop} (h : wp c E R s) (hf : ∀ a t, R a t → wp (f a) E Q t) :
    wp (c >>= f) E Q s :=
  wp_call h hf fun _ he => he

theorem wp_post (h : wp c E Q s) (hQ : ∀ a t, Q a t → Q' a t) : wp c E Q' s :=
  wp_mono h (fun _ he => he) hQ

theorem wp_and (h : wp c E Q s) (h' : wp c E' Q' s) :
    wp c (fun e => E e ∧ E' e) (fun a t => Q a t ∧ Q' a t) s := by
  unfold wp at h h' ⊢
  cases hc : c s with
  | ok a t =>
    rw [hc] at h h'
    exact ⟨h, h'⟩
  | error e =>
    rw [hc] at h h'
    exact ⟨h, h'⟩

theorem wp_of_eq {a : α} (hc : c s = .ok a t) : wp c E Q s ↔ Q a t := by
  simp [wp, hc]

theorem of_wp {a : α} (h : wp c E Q s) (hc : c s = .ok a t) : Q a t :=
  (wp_of_eq hc).1 h

/-- A program that cannot fail returns. -/
theorem exists_of_wp (h : wp c E Q s) (hE : ∀ e, ¬ E e) : ∃ a t, c s = .ok a t ∧ Q a t := by
  cases hc : c s with
  | ok a t => exact ⟨a, t, rfl, of_wp h hc⟩
  | error e =>
    have he : E e := by simpa [wp, hc] using h
    exact absurd he (hE e)

theorem of_wp_error {e : ε} (h : wp c E Q s) (hc : c s = .error e) : E e := by
  simpa [wp, hc] using h

end Prog
end Xv6.Lib
