import Mathlib.Logic.Function.Basic

/-!
# Threads — interleaved programs over a shared state

A program is a tree of operations: what it does after an operation depends on the reply.  Every
thread runs a program of its own, and a step of the system is one operation of one thread.

The rules are those of rely and guarantee.  `Rely p s t` says what the steps of the other threads
from `s` to `t` leave to thread `p`, and `wp` is a precondition that no such steps can invalidate.
An operation has a condition `Pre` under which it keeps the invariant of the shared state and what
the other threads rely on; a program has to establish it each time.
-/

namespace Xv6.Lib

open Function (update update_of_ne update_self)

inductive Code (Op : Type) (R : Op → Type) (α : Type) : Type where
  | ret (a : α) : Code Op R α
  | op (o : Op) (k : R o → Code Op R α) : Code Op R α

namespace Code

variable {Op : Type} {R : Op → Type} {α β : Type}

protected def bind : Code Op R α → (α → Code Op R β) → Code Op R β
  | .ret a, f => f a
  | .op o k, f => .op o fun r => (k r).bind f

instance : Monad (Code Op R) where
  pure := .ret
  bind := Code.bind

/-- A single operation. -/
def call (o : Op) : Code Op R (R o) :=
  .op o .ret

end Code

/-- The shared state, and what is left to do for each thread that is in a call. -/
structure Threads (ι σ : Type) (Op : Type) (R : Op → Type) (α : Type) where
  shared : σ
  code : ι → Option (Code Op R α)

/-! ## Steps -/

section

variable {ι σ χ α : Type} {Op : Type} {R : Op → Type} [DecidableEq ι]

/-- What an operation does, where `χ` is for the choices that are not the program's. -/
abbrev Exec (ι σ χ : Type) (Op : Type) (R : Op → Type) : Type :=
  ι → χ → (o : Op) → σ → Option (R o × σ)

namespace Threads

/-- Thread `p` performs its next operation, or its call returns. -/
def run (exec : Exec ι σ χ Op R) (s : Threads ι σ Op R α) (p : ι) (c : χ) :
    Option (Threads ι σ Op R α) :=
  match s.code p with
  | some (.op o k) => (exec p c o s.shared).map fun r =>
    { shared := r.2, code := update s.code p (some (k r.1)) }
  | some (.ret _) => some { s with code := update s.code p none }
  | none => none

/-- Thread `p` begins a call. -/
def start (s : Threads ι σ Op R α) (p : ι) (c : Code Op R α) : Threads ι σ Op R α :=
  { s with code := update s.code p (some c) }

end Threads

end

/-! ## Rely and guarantee -/

/-- The parts of a proof about threads. -/
structure Protocol (ι σ χ : Type) (Op : Type) (R : Op → Type) where
  exec : Exec ι σ χ Op R
  Inv : σ → Prop
  Rely : ι → σ → σ → Prop
  Pre : ι → Op → σ → Prop

namespace Protocol

variable {ι σ χ : Type} {Op : Type} {R : Op → Type} {α β : Type}

/-- The operations keep the invariant, and what the other threads rely on. -/
structure Sound (P : Protocol ι σ χ Op R) : Prop where
  refl : ∀ p s, P.Rely p s s
  trans : ∀ p s t u, P.Rely p s t → P.Rely p t u → P.Rely p s u
  keep : ∀ p c o s r t, P.Inv s → P.Pre p o s → P.exec p c o s = some (r, t) →
    P.Inv t ∧ ∀ q, q ≠ p → P.Rely q s t

/-- Thread `p` can run the program from `s` on, whatever the other threads do, and then `Q`
holds. -/
def wp (P : Protocol ι σ χ Op R) (p : ι) (Q : α → σ → Prop) : Code Op R α → σ → Prop
  | .ret a, s => ∀ t, P.Rely p s t → P.Inv t → Q a t
  | .op o k, s => ∀ t, P.Rely p s t → P.Inv t →
      P.Pre p o t ∧ ∀ c r u, P.exec p c o t = some (r, u) → P.Inv u → P.wp p Q (k r) u

variable {P : Protocol ι σ χ Op R} {p : ι} {s t : σ}
variable {Q Q' : α → σ → Prop}

theorem wp_stable (hP : P.Sound) {c : Code Op R α} (h : P.wp p Q c s) (hst : P.Rely p s t) :
    P.wp p Q c t := by
  cases c with
  | ret a => exact fun u htu hu => h u (hP.trans p s t u hst htu) hu
  | op o k => exact fun u htu hu => h u (hP.trans p s t u hst htu) hu

/-- It is enough to look at the states that the other threads can leave. -/
theorem wp_of_rely (hP : P.Sound) {c : Code Op R α}
    (h : ∀ t, P.Rely p s t → P.Inv t → P.wp p Q c t) : P.wp p Q c s := by
  cases c with
  | ret a => exact fun t hst ht => h t hst ht t (hP.refl p t) ht
  | op o k => exact fun t hst ht => h t hst ht t (hP.refl p t) ht

theorem wp_mono {c : Code Op R α} (h : P.wp p Q c s) (hQ : ∀ a t, P.Inv t → Q a t → Q' a t) :
    P.wp p Q' c s := by
  induction c generalizing s with
  | ret a => exact fun t hst ht => hQ a t ht (h t hst ht)
  | op o k ih =>
    intro t hst ht
    rcases h t hst ht with ⟨hpre, hrest⟩
    exact ⟨hpre, fun c r u hexec hu => ih r (hrest c r u hexec hu)⟩

theorem wp_and {c : Code Op R α} (h : P.wp p Q c s) (h' : P.wp p Q' c s) :
    P.wp p (fun a t => Q a t ∧ Q' a t) c s := by
  induction c generalizing s with
  | ret a => exact fun t hst ht => ⟨h t hst ht, h' t hst ht⟩
  | op o k ih =>
    intro t hst ht
    rcases h t hst ht with ⟨hpre, hrest⟩
    rcases h' t hst ht with ⟨-, hrest'⟩
    exact ⟨hpre, fun c r u hexec hu => ih r (hrest c r u hexec hu) (hrest' c r u hexec hu)⟩

theorem wp_ret (a : α) (h : ∀ t, P.Rely p s t → P.Inv t → Q a t) :
    P.wp p Q (pure a : Code Op R α) s :=
  h

/-- The rule for a call: what is known of `c` carries over to the rest of the program. -/
theorem wp_bind (hP : P.Sound) {c : Code Op R α} {f : α → Code Op R β} {Q : β → σ → Prop}
    (h : P.wp p (fun a t => P.wp p Q (f a) t) c s) : P.wp p Q (c >>= f) s := by
  change P.wp p Q (Code.bind c f) s
  induction c generalizing s with
  | ret a => exact wp_of_rely hP h
  | op o k ih =>
    intro t hst ht
    rcases h t hst ht with ⟨hpre, hrest⟩
    exact ⟨hpre, fun c r u hexec hu => ih r (hrest c r u hexec hu)⟩

theorem wp_seq (hP : P.Sound) {c : Code Op R α} {f : α → Code Op R β} {Q : β → σ → Prop}
    (h : P.wp p Q' c s) (hf : ∀ a t, P.Inv t → Q' a t → P.wp p Q (f a) t) :
    P.wp p Q (c >>= f) s :=
  wp_bind hP (wp_mono h hf)

theorem wp_ite {b : Prop} [Decidable b] {c d : Code Op R α} (hc : b → P.wp p Q c s)
    (hd : ¬ b → P.wp p Q d s) : P.wp p Q (if b then c else d) s := by
  split
  · exact hc ‹_›
  · exact hd ‹_›

theorem wp_call {o : Op} {Q : R o → σ → Prop} (h : ∀ t, P.Rely p s t → P.Inv t → P.Pre p o t ∧
      ∀ c r u, P.exec p c o t = some (r, u) → P.Inv u → ∀ v, P.Rely p u v → P.Inv v → Q r v) :
    P.wp p Q (Code.call o) s := by
  intro t hst ht
  rcases h t hst ht with ⟨hpre, hrest⟩
  exact ⟨hpre, fun c r u hexec hu v huv hv => hrest c r u hexec hu v huv hv⟩

/-! ## Whole systems -/

/-- The invariant holds, what each thread has left to do is safe, and a thread that is not in a call
is ready for the next one. -/
structure Good (P : Protocol ι σ χ Op R) (Ready : ι → σ → Prop) (s : Threads ι σ Op R α) :
    Prop where
  inv : P.Inv s.shared
  code : ∀ p c, s.code p = some c → P.wp p (fun _ => Ready p) c s.shared
  ready : ∀ p, s.code p = none → Ready p s.shared

variable {Ready : ι → σ → Prop} {x y : Threads ι σ Op R α}

/-- A thread that is about to perform an operation has established its condition. -/
theorem Good.pre (hP : P.Sound) (h : P.Good Ready x) {o : Op} {k : R o → Code Op R α}
    (hcode : x.code p = some (.op o k)) : P.Pre p o x.shared :=
  (h.code p _ hcode _ (hP.refl p _) h.inv).1

variable [DecidableEq ι]

theorem Good.run (hP : P.Sound) (hstable : ∀ p s t, Ready p s → P.Rely p s t → Ready p t)
    (h : P.Good Ready x) {c : χ} (hrun : x.run P.exec p c = some y) : P.Good Ready y := by
  unfold Threads.run at hrun
  split at hrun
  · rename_i o k hcode
    rcases Option.map_eq_some_iff.1 hrun with ⟨⟨r, t⟩, hexec, rfl⟩
    rcases h.code p _ hcode _ (hP.refl p _) h.inv with ⟨hpre, hrest⟩
    rcases hP.keep p c o _ r t h.inv hpre hexec with ⟨ht, hrely⟩
    refine ⟨ht, fun q d hd => ?_, fun q hq => ?_⟩
    · by_cases hqp : q = p
      · subst hqp
        simp only [update_self, Option.some.injEq] at hd
        subst hd
        exact hrest c r t hexec ht
      · simp only [update_of_ne hqp] at hd
        exact wp_stable hP (h.code q d hd) (hrely q hqp)
    · by_cases hqp : q = p
      · subst hqp
        simp only [update_self, reduceCtorEq] at hq
      · simp only [update_of_ne hqp] at hq
        exact hstable q _ _ (h.ready q hq) (hrely q hqp)
  · rename_i a hcode
    cases hrun
    refine ⟨h.inv, fun q d hd => ?_, fun q hq => ?_⟩
    · by_cases hqp : q = p
      · subst hqp
        simp only [update_self, reduceCtorEq] at hd
      · simp only [update_of_ne hqp] at hd
        exact h.code q d hd
    · by_cases hqp : q = p
      · subst hqp
        exact h.code q _ hcode _ (hP.refl q _) h.inv
      · simp only [update_of_ne hqp] at hq
        exact h.ready q hq
  · cases hrun

theorem Good.start (h : P.Good Ready x) {c : Code Op R α}
    (hc : P.wp p (fun _ => Ready p) c x.shared) : P.Good Ready (x.start p c) := by
  refine ⟨h.inv, fun q d hd => ?_, fun q hq => ?_⟩
  · by_cases hqp : q = p
    · subst hqp
      simp only [Threads.start, update_self, Option.some.injEq] at hd
      exact hd ▸ hc
    · simp only [Threads.start, update_of_ne hqp] at hd
      exact h.code q d hd
  · by_cases hqp : q = p
    · subst hqp
      simp only [Threads.start, update_self, reduceCtorEq] at hq
    · simp only [Threads.start, update_of_ne hqp] at hq
      exact h.ready q hq

end Protocol

end Xv6.Lib
