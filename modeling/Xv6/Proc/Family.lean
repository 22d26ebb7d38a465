import Xv6.Proc.Cpus

/-!
# Family — the tree of processes and the reaping of children

A process that is in use has a parent that is alive, whatever the order in which processes fork,
exit and wait.  In `exit` the children are handed over to the first process one slot after the
other; the invariant says how far the exiting process has come.  A history beside the run records
the calls of `exit` and the children that `wait` frees.
-/

namespace Xv6.Sched

open Lib
open Function (update update_apply update_eq_self update_of_ne update_self)
open ProcTable (ProcState)

/-! ## The code of `exit` -/

/-- The status with which a process is in `exit`. -/
def Pc.exit : Pc → Option Int
  | .exitStart status | .exitReparent status _ | .exitWakeInit status _ _
  | .exitWakeParent status _ _ | .exitZombie status => some status
  | _ => none

/-- How many slots an exiting process has looked through for children. -/
def Pc.handed : Pc → Nat
  | .exitReparent _ n => n
  | .exitWakeInit _ n _ => n + 1
  | .exitWakeParent _ _ _ | .exitZombie _ | .dead => NPROC
  | _ => 0

/-- Outside of `exit`. -/
def Pc.Alive (pc : Pc) : Prop :=
  pc.exit = none ∧ pc ≠ .dead

/-- A process that is in use and has not exited. -/
def Live (st : ProcState) : Prop :=
  st = .RUNNABLE ∨ st = .RUNNING ∨ st = .SLEEPING

variable {s t : St} {p q np : Slot} {c : Cpu} {pc : Pc} {e : Eff} {a : Act}

/-- A point inside a loop of the same call, as far as `exit` is concerned. -/
def Pc.Exits (pc pc' : Pc) : Prop :=
  pc'.exit = pc.exit ∧ pc'.handed = pc.handed ∧ pc' ≠ .dead

theorem waking_exits {next done : Pc} {chan : Option Chan} {r : Nat}
    (h : pc.waking s = some (chan, r, next, done)) : pc.Exits next ∧ pc.Exits done := by
  cases waking_cases h <;> exact ⟨⟨rfl, rfl, nofun⟩, rfl, rfl, nofun⟩

theorem Pc.Alive.handed (h : pc.Alive) : pc.handed = 0 := by
  cases pc <;> first | rfl | exact absurd rfl h.2 | cases h.1

/-- A process other than the first one enters `exit`, goes on there, and leaves as a zombie. -/
theorem Code.exit (h : Code s p pc e) : (e.next.exit = pc.exit ∧ (e.next = .dead → pc = .dead)) ∨
      (∃ status, pc = .user ∧ p ≠ s.initproc ∧
        (e = .goto (.exitStart status) ∨ e = .touch p (s.procs p) (.exitStart status))) ∨
      ∃ status, pc.exit = some status ∧
        e = .leave { s.procs p with xstate := status, state := .ZOMBIE } (some .wait) .dead := by
  cases h with
  | enter h =>
    rename_i pc
    cases pc <;>
      first
        | exact absurd h id
        | exact .inl ⟨rfl, nofun⟩
        | exact .inr (.inl ⟨_, rfl, h, .inl rfl⟩)
  | trapKilled hp _ => exact .inr (.inl ⟨_, rfl, hp, .inr rfl⟩)
  | wake hw _ => exact .inl ⟨(waking_exits hw).1.1, fun h => absurd h (waking_exits hw).1.2.2⟩
  | wakeSelf hw => exact .inl ⟨(waking_exits hw).1.1, fun h => absurd h (waking_exits hw).1.2.2⟩
  | wakeEnd hw _ => exact .inl ⟨(waking_exits hw).2.1, fun h => absurd h (waking_exits hw).2.2.2⟩
  | waitEnd _ =>
    rename_i kids _ _
    cases kids <;> exact .inl ⟨rfl, nofun⟩
  | loopAlive _ =>
    rename_i l _
    cases l <;> exact .inl ⟨rfl, nofun⟩
  | exitZombie => exact .inr (.inr ⟨_, rfl, rfl⟩)
  | yield => exact .inl ⟨rfl, id⟩
  | _ => exact .inl ⟨rfl, nofun⟩

/-- The first process stays out of `exit`. -/
theorem Code.alive (h : Code s p pc e) (hp : p = s.initproc) (hpc : pc.Alive) : e.next.Alive := by
  rcases h.exit with ⟨hexit, hdead⟩ | ⟨_, _, hne, _⟩ | ⟨_, hexit, _⟩
  · exact ⟨hexit.trans hpc.1, fun h => hpc.2 (hdead h)⟩
  · exact absurd hp hne
  · rw [hpc.1] at hexit
    cases hexit

/-- The slots that a process has looked through in `exit` hold no child of it. -/
theorem Code.handed (h : Code s p pc e) (hq : (s.procs q).parent = some p)
    (hpc : pc.handed ≤ q.val) : e.next.handed ≤ q.val ∨ e = .parent q s.initproc e.next := by
  cases h with
  | enter h =>
    rename_i pc
    cases pc <;> first | exact absurd h id | exact .inl (Nat.zero_le _)
  | exitChild _ =>
    rename_i status r hr
    by_cases heq : q = r
    · subst heq
      exact .inr rfl
    · have hne : q.val ≠ r.val := fun h => heq (Fin.ext h)
      exact .inl (Nat.lt_of_le_of_ne hpc hne.symm)
  | exitOther hr =>
    rename_i status r
    have hne : q.val ≠ r.val := by
      intro heq
      rw [Fin.ext heq] at hq
      exact hr hq
    exact .inl (Nat.lt_of_le_of_ne hpc hne.symm)
  | exitAll hn => exact absurd q.isLt (Nat.not_lt.2 (Nat.le_trans hn hpc))
  | wake hw _ => exact .inl ((waking_exits hw).1.2.1.trans_le hpc)
  | wakeSelf hw => exact .inl ((waking_exits hw).1.2.1.trans_le hpc)
  | wakeEnd hw _ => exact .inl ((waking_exits hw).2.2.1.trans_le hpc)
  | waitEnd _ =>
    rename_i kids _ _
    cases kids <;> exact .inl (Nat.zero_le _)
  | loopAlive _ =>
    rename_i l _
    cases l <;> exact .inl (Nat.zero_le _)
  | exitZombie | yield => exact .inl hpc
  | _ => exact .inl (Nat.zero_le _)

/-- Where a child's parent has been set in `fork`. -/
def Pc.forked : Pc → Option Slot
  | .forkRel np | .forkRunnable np => some np
  | _ => none

theorem Pc.target_of_forked (h : pc.forked = some np) : pc.target = some np := by
  cases pc <;> cases h <;> rfl

theorem Pc.exit_of_forked (h : pc.forked = some np) : pc.exit = none := by
  cases pc <;> cases h <;> rfl

/-- The parent is set in `fork`, and by `exit` to the first process. -/
theorem Code.parent {par : Slot} {pc' : Pc} (h : Code s p pc (.parent q par pc')) :
    (pc = .forkSet q ∧ par = p ∧ pc' = .forkRel q) ∨
      (pc.exit ≠ none ∧ pc'.forked = none ∧ par = s.initproc ∧ (s.procs q).parent = some p) := by
  cases h with
  | forkSet => exact .inl ⟨rfl, rfl, rfl⟩
  | exitChild hq => exact .inr ⟨nofun, rfl, rfl, hq⟩

/-- A process that leaves its CPU is alive, or at the end of `exit`. -/
theorem Code.leaves {x : Proc} {rel : Option Lock} {pc' : Pc} (h : Code s p pc (.leave x rel pc')) :
    x.parent = (s.procs p).parent ∧ x.pid = (s.procs p).pid ∧
      ((x.state = .RUNNABLE ∨ x.state = .SLEEPING) ∧ x.xstate = (s.procs p).xstate ∨
        (x.state = .ZOMBIE ∧ pc.exit ≠ none ∧ pc'.exit = none ∧ pc.handed = NPROC)) := by
  cases h with
  | yield => exact ⟨rfl, rfl, .inl ⟨.inl rfl, rfl⟩⟩
  | exitZombie => exact ⟨rfl, rfl, .inr ⟨rfl, nofun, rfl, rfl⟩⟩
  | waitSleep | loopSleep | monSleep => exact ⟨rfl, rfl, .inl ⟨.inr rfl, rfl⟩⟩

/-- The points after `np->parent = p` are reached from there. -/
theorem Code.forked (h : Code s p pc e) (hnp : e.next.forked = some np) :
    pc.forked = some np ∨ e = .parent np p e.next := by
  cases h with
  | enter h =>
    rename_i pc
    cases pc <;> first | exact absurd h id | cases hnp
  | wake hw _ | wakeSelf hw =>
    have htarget := (waking_stays hw).1.2.1
    cases htarget.symm.trans (Pc.target_of_forked hnp)
  | wakeEnd hw _ =>
    have htarget := (waking_stays hw).2.2.1
    cases htarget.symm.trans (Pc.target_of_forked hnp)
  | waitEnd _ =>
    rename_i kids _ _
    cases kids <;> cases hnp
  | loopAlive _ =>
    rename_i l _
    cases l <;> cases hnp
  | forkSet =>
    cases hnp
    exact .inr rfl
  | forkRel | yield => exact .inl hnp
  | _ => cases hnp

/-! ## The tree -/

/-- The parents, and how far the processes in `exit` have come. -/
structure Family (s : St) : Prop where
  init : Live (s.procs s.initproc).state
  init_pc : (s.pc s.initproc).Alive
  parent : ∀ q p, (s.procs q).parent = some p → Live (s.procs p).state ∧ (s.pc p).handed ≤ q.val
  orphan : ∀ q, q ≠ s.initproc → Live (s.procs q).state ∨ (s.procs q).state = .ZOMBIE →
    (s.procs q).parent ≠ none
  forked : ∀ p np, (s.pc p).forked = some np → (s.procs np).parent = some p
  unused : ∀ q, (s.procs q).state = .UNUSED → (s.procs q).parent = none

attribute [local grind =] update_apply

/-! ### What a step does to a process -/

/-- A process stays alive until the end of its `exit`. -/
theorem Applies.live (hcode : Code s p pc e) (happly : Applies s c p e t)
    (hq : Live (s.procs q).state) :
    Live (t.procs q).state ∨ q = p ∧ pc.exit ≠ none ∧ pc.handed = NPROC := by
  unfold Live at *
  cases happly with
  | goto | acquire | release | cond => exact .inl hq
  | parent =>
    simp only [St.setProc, St.setPc]
    grind
  | touch =>
    have hx := hcode.touch
    simp only [St.setProc, St.setPc]
    grind [freeproc]
  | alloc =>
    have hx := hcode.alloc
    simp only [St.setProc, St.setPc]
    grind
  | leave =>
    have hx := hcode.leaves
    simp only [St.setProc, St.setPc]
    grind

/-- The parent of a process is set, or forgotten when the process is freed. -/
theorem Applies.parent_eq (hcode : Code s p pc e) (happly : Applies s c p e t) :
    (∃ par pc', e = .parent q par pc' ∧ (t.procs q).parent = some par ∧
        (t.procs q).state = (s.procs q).state) ∨
      (∀ par pc', e ≠ .parent q par pc') ∧ ((t.procs q).parent = (s.procs q).parent ∨
        (t.procs q).parent = none ∧ (t.procs q).state = .UNUSED ∧
          ((s.procs q).state = .ZOMBIE ∨ (s.procs q).state = .UNUSED)) := by
  cases happly with
  | goto | acquire | release | cond => exact .inr ⟨fun _ _ h => (by cases h), .inl rfl⟩
  | parent =>
    simp only [St.setProc, St.setPc]
    grind
  | touch =>
    have hx := hcode.touch
    refine .inr ⟨fun _ _ h => (by cases h), ?_⟩
    simp only [St.setProc, St.setPc]
    grind [freeproc]
  | alloc =>
    have hx := hcode.alloc
    refine .inr ⟨fun _ _ h => (by cases h), ?_⟩
    simp only [St.setProc, St.setPc]
    grind [freeproc]
  | leave =>
    have hx := hcode.leaves
    refine .inr ⟨fun _ _ h => (by cases h), ?_⟩
    simp only [St.setProc, St.setPc]
    grind

theorem Applies.occupied (hcode : Code s p pc e) (happly : Applies s c p e t)
    (hp : (s.procs p).state = .RUNNING)
    (hq : Live (t.procs q).state ∨ (t.procs q).state = .ZOMBIE) :
    (Live (s.procs q).state ∨ (s.procs q).state = .ZOMBIE) ∨ pc.forked = some q := by
  unfold Live at *
  cases happly with
  | goto | acquire | release | cond => exact .inl hq
  | parent =>
    simp only [St.setProc, St.setPc] at hq
    grind
  | touch =>
    have hx := hcode.touch
    simp only [St.setProc, St.setPc] at hq
    grind [freeproc, Pc.forked]
  | alloc =>
    have hx := hcode.alloc
    simp only [St.setProc, St.setPc] at hq
    grind [freeproc]
  | leave =>
    simp only [St.setProc, St.setPc] at hq
    grind

theorem Applies.unused (hcode : Code s p pc e) (happly : Applies s c p e t)
    (hq : (t.procs q).state = .UNUSED) :
    (s.procs q).state = .UNUSED ∨ (t.procs q).parent = none := by
  cases happly with
  | goto | acquire | release | cond => exact .inl hq
  | parent =>
    simp only [St.setProc, St.setPc] at hq
    grind
  | touch =>
    have hx := hcode.touch
    simp only [St.setProc, St.setPc] at hq ⊢
    grind [freeproc]
  | alloc =>
    have hx := hcode.alloc
    simp only [St.setProc, St.setPc] at hq ⊢
    grind
  | leave =>
    have hx := hcode.leave
    simp only [St.setProc, St.setPc] at hq
    grind

namespace Family

section

variable (h : Family s) (hinv : Inv s) (hp : s.switch p = .on) (hcode : Code s p (s.pc p) e)
  (happly : Applies s c p e t)

include h hcode happly in
theorem init_step : Live (t.procs s.initproc).state := by
  rcases happly.live hcode h.init with hlive | ⟨heq, hexit, _⟩
  · exact hlive
  · rw [← heq] at hexit
    exact absurd h.init_pc.1 hexit

include h hinv hcode happly

theorem init_pc_step : (t.pc s.initproc).Alive := by
  by_cases heq : s.initproc = p
  · have hpc := h.init_pc
    rw [heq] at hpc ⊢
    rw [happly.pc_self hcode]
    exact hcode.alive heq.symm hpc
  · rcases happly.pc_other hinv hcode heq with hsame | ⟨huser, _⟩
    · rw [hsame]
      exact h.init_pc
    · rw [huser]
      exact ⟨rfl, nofun⟩

theorem unused_step (hq : (t.procs q).state = .UNUSED) : (t.procs q).parent = none := by
  rcases happly.parent_eq hcode (q := q) with
    ⟨par, pc', rfl, _, hstate⟩ | ⟨_, hsame | ⟨hnone, _⟩⟩
  · rw [hstate] at hq
    rcases hcode.parent with ⟨hpc, _⟩ | ⟨_, _, _, hpar⟩
    · cases (hinv.forking.used p q (by rw [hpc]; rfl)).symm.trans hq
    · cases (h.unused q hq).symm.trans hpar
  · rcases happly.unused hcode hq with hunused | hnone
    · rw [hsame, h.unused q hunused]
    · exact hnone
  · exact hnone

include hp

theorem parent_step {r : Slot} (hq : (t.procs q).parent = some r) :
    Live (t.procs r).state ∧ (t.pc r).handed ≤ q.val := by
  rcases happly.parent_eq hcode (q := q) with ⟨par, pc', rfl, hpar, _⟩ | ⟨hne, hsame | ⟨hnone, _⟩⟩
  · cases hpar.symm.trans hq
    rcases hcode.parent with ⟨hpc, rfl, rfl⟩ | ⟨_, _, rfl, _⟩
    · have hrun := (hinv.switched.running r).2 (.inl hp)
      constructor
      · rcases happly.live hcode (.inr (.inl hrun)) with hlive | ⟨_, hexit, _⟩
        · exact hlive
        · rw [hpc] at hexit
          exact absurd rfl hexit
      · rw [happly.pc_self hcode]
        exact Nat.zero_le _
    · refine ⟨h.init_step hcode happly, ?_⟩
      rw [(h.init_pc_step hinv hcode happly).handed]
      exact Nat.zero_le _
  · rw [hsame] at hq
    rcases h.parent q r hq with ⟨hlive, hle⟩
    constructor
    · rcases happly.live hcode hlive with hlive | ⟨rfl, _, hall⟩
      · exact hlive
      · rw [hall] at hle
        exact absurd q.isLt (Nat.not_lt.2 hle)
    · by_cases hr : r = p
      · subst hr
        rw [happly.pc_self hcode]
        exact (hcode.handed hq hle).resolve_right (hne _ _)
      · rcases happly.pc_other hinv hcode hr with heq | ⟨heq, _⟩
        · rwa [heq]
        · rw [heq]
          exact Nat.zero_le _
  · cases hnone.symm.trans hq

theorem orphan_step (hinit : q ≠ s.initproc)
    (hq : Live (t.procs q).state ∨ (t.procs q).state = .ZOMBIE) : (t.procs q).parent ≠ none := by
  have hrun := (hinv.switched.running p).2 (.inl hp)
  rcases happly.parent_eq hcode (q := q) with ⟨par, pc', _, hpar, _⟩ | ⟨_, hsame | ⟨_, hgone, _⟩⟩
  · rw [hpar]
    exact nofun
  · rw [hsame]
    rcases happly.occupied hcode hrun hq with hq' | hforked
    · exact h.orphan q hinit hq'
    · rw [h.forked p q hforked]
      exact nofun
  · rw [hgone] at hq
    rcases hq with (hq | hq | hq) | hq <;> cases hq

theorem forked_step {r : Slot} (hr : (t.pc r).forked = some np) : (t.procs np).parent = some r := by
  have hbefore : (s.pc r).forked = some np ∨ r = p ∧ e = .parent np p e.next := by
    by_cases hrp : r = p
    · subst hrp
      rw [happly.pc_self hcode] at hr
      exact (hcode.forked hr).imp_right fun heq => ⟨rfl, heq⟩
    · rcases happly.pc_other hinv hcode hrp with heq | ⟨heq, _⟩
      · exact .inl (heq ▸ hr)
      · rw [heq] at hr
        cases hr
  rcases hbefore with hforked | ⟨rfl, heq⟩
  · have hparent := h.forked r np hforked
    have htarget := Pc.target_of_forked hforked
    rcases happly.parent_eq hcode (q := np) with
      ⟨par, pc', rfl, hpar, _⟩ | ⟨_, hsame | ⟨_, _, hgone⟩⟩
    · -- Another process would have to make the same child, or be its parent.
      rcases hcode.parent with ⟨hpc, rfl, _⟩ | ⟨hexit, _, _, hpar'⟩
      · rw [hpar, hinv.forking.unique r par np htarget (by rw [hpc]; rfl)]
      · cases hparent.symm.trans hpar'
        exact absurd (Pc.exit_of_forked hforked) hexit
    · exact hsame.trans hparent
    · rw [hinv.forking.used r np htarget] at hgone
      rcases hgone with hgone | hgone <;> cases hgone
  · rcases happly.parent_eq hcode (q := np) with ⟨par, pc', heq', hpar, _⟩ | ⟨hne, _⟩
    · rw [heq] at heq'
      cases heq'
      exact hpar
    · exact absurd heq (hne _ _)

end

theorem moves (h : Family s) (hm : Moves s t) : Family t := by
  have hlive : ∀ q, Live (t.procs q).state ↔ Live (s.procs q).state := by
    intro q
    rcases hm.state q with heq | ⟨hs, ht⟩
    · rw [heq]
    · rw [hs, ht]
      exact ⟨fun _ => .inl rfl, fun _ => .inr (.inl rfl)⟩
  have hpc : ∀ q, t.pc q = s.pc q ∨
      (t.pc q).Alive ∧ (t.pc q).handed = 0 ∧ (t.pc q).forked = none := by
    intro q
    rcases hm.pc q with heq | ⟨pc, chan, _, heq, hsleeps⟩
    · exact .inl heq
    · rw [heq]
      refine .inr ?_
      cases hsleeps <;> exact ⟨⟨rfl, nofun⟩, rfl, rfl⟩
  refine ⟨?_, ?_, fun q p hq => ?_, fun q hq hst => ?_, fun p np hp => ?_, fun q hq => ?_⟩
  · rw [hlive, hm.initproc]
    exact h.init
  · rw [hm.initproc]
    rcases hpc s.initproc with heq | ⟨halive, _⟩
    · rw [heq]
      exact h.init_pc
    · exact halive
  · rw [hm.parent] at hq
    refine ⟨(hlive p).2 (h.parent q p hq).1, ?_⟩
    rcases hpc p with heq | ⟨_, hzero, _⟩
    · rw [heq]
      exact (h.parent q p hq).2
    · rw [hzero]
      exact Nat.zero_le _
  · rw [hm.parent]
    rw [hm.initproc] at hq
    rw [hlive, hm.zombie] at hst
    exact h.orphan q hq hst
  · rw [hm.parent]
    rcases hpc p with heq | ⟨_, _, hnone⟩
    · exact h.forked p np (heq ▸ hp)
    · cases hnone.symm.trans hp
  · rw [hm.parent]
    exact h.unused q ((hm.unused q).1 hq)

theorem step (h : Family s) (hinv : Inv s) (hstep : Steps s a t) : Family t := by
  rcases moves_or_proc hinv hstep with ⟨hm, _⟩ | ⟨c, p, x, e, _, _, hp, hcode, happly⟩
  · exact h.moves hm
  · have hinit : t.initproc = s.initproc := by
      cases happly <;> rfl
    refine ⟨?_, ?_, fun _ _ => h.parent_step hinv hp hcode happly, ?_,
      fun _ _ => h.forked_step hinv hp hcode happly,
      fun _ => h.unused_step hinv hcode happly⟩ <;> try rw [hinit]
    · exact h.init_step hcode happly
    · exact h.init_pc_step hinv hcode happly
    · exact fun _ => h.orphan_step hinv hp hcode happly

end Family

/-! ## The history -/

/-- A child that `wait` has freed. -/
structure Reap where
  slot : Slot
  gen : Nat
  /-- The process that called `wait`, and the parent of the child at that time. -/
  waiter : Slot
  parent : Option Slot
  /-- The child's pid, and what `wait` returns. -/
  pid : Int32
  ret : Int32
  /-- Whether a status address was given, and what was stored there. -/
  addr : Bool
  stored : Option Int

/-- What a run has done so far.  A process is a slot and the number of processes made there
before it. -/
structure Life where
  gen : Slot → Nat
  pid : Slot → Int32
  /-- The calls of `exit`. -/
  exits : List (Slot × Nat × Int)
  reaps : List Reap

/-- Whether `wait` has been given a status address. -/
def Pc.addr : Pc → Bool
  | .waitScan addr _ _ => addr
  | _ => false

def Eff.record (s : St) (p : Slot) (e : Eff) (H : Life) : Life :=
  match e with
  | .alloc np x _ =>
    { H with
      gen := update H.gen np (H.gen np + 1)
      pid := update H.pid np x.pid }
  | .touch q x (.waitRel ret stored) =>
    if (s.procs q).state = .ZOMBIE ∧ x.state = .UNUSED then
      { H with
        reaps :=
          { slot := q, gen := H.gen q, waiter := p, parent := (s.procs q).parent,
            pid := H.pid q, ret := ret, addr := (s.pc p).addr, stored := stored } :: H.reaps }
    else
      H
  | .touch _ _ (.exitStart status) | .goto (.exitStart status) =>
    if s.pc p = .user then { H with exits := (p, H.gen p, status) :: H.exits } else H
  | _ => H

/-- What a step adds to the history. -/
def record (s : St) (a : Act) (H : Life) : Life :=
  match a with
  | .proc c x =>
    match effect s c x with
    | some (p, e) => e.record s p H
    | none => H
  | _ => H

def Life.start : Life :=
  { gen := fun _ => 0, pid := fun q => (boot.procs q).pid, exits := [], reaps := [] }

/-- The history explains the state. -/
structure Lived (s : St) (H : Life) : Prop where
  pid : ∀ q, (s.procs q).state ≠ .UNUSED → (s.procs q).pid = H.pid q
  exiting : ∀ q status, (s.pc q).exit = some status → (q, H.gen q, status) ∈ H.exits
  zombie : ∀ q, (s.procs q).state = .ZOMBIE → (q, H.gen q, (s.procs q).xstate) ∈ H.exits
  /-- A process that has called `exit` is there, or a zombie, or gone. -/
  exited : ∀ q gen status, (q, gen, status) ∈ H.exits → gen < H.gen q ∨ gen = H.gen q ∧
    ((s.pc q).exit ≠ none ∨ (s.procs q).state = .ZOMBIE ∨ (s.procs q).state = .UNUSED)
  once : (H.exits.map fun x => (x.1, x.2.1)).Nodup
  freed : ∀ r ∈ H.reaps, r.gen < H.gen r.slot ∨ r.gen = H.gen r.slot ∧
    (s.procs r.slot).state = .UNUSED
  freed_once : (H.reaps.map fun r => (r.slot, r.gen)).Nodup
  reap : ∀ r ∈ H.reaps, r.parent = some r.waiter ∧ r.ret = r.pid ∧
    ∃ status, (r.slot, r.gen, status) ∈ H.exits ∧ r.stored = if r.addr then some status else none

theorem Code.reap {x : Proc} {pc' : Pc} (h : Code s p pc (.touch q x pc'))
    (hz : (s.procs q).state = .ZOMBIE) (hx : x.state = .UNUSED) :
    (s.procs q).parent = some p ∧ x = freeproc (s.procs q) ∧
      pc' = .waitRel (s.procs q).pid (if pc.addr then some (s.procs q).xstate else none) := by
  cases h with
  | waitReap hparent _ => exact ⟨hparent, rfl, rfl⟩
  | wake hw _ =>
    rw [wakeProc, if_neg (fun h => by rw [hz] at h; cases h.1), hz] at hx
    cases hx
  | killHit _ =>
    simp only [killProc, hz, reduceCtorEq, if_false] at hx
  | forkRunnable => cases hx
  | _ =>
    simp only [hz, reduceCtorEq] at hx

namespace Lived

variable {H : Life}

/-- Nothing happens to the processes that exit, and to those that are gone. -/
theorem frame (h : Lived s H) (hpc : ∀ q, (t.pc q).exit = (s.pc q).exit)
    (hz : ∀ q, (t.procs q).state = .ZOMBIE ↔ (s.procs q).state = .ZOMBIE)
    (hu : ∀ q, (t.procs q).state = .UNUSED ↔ (s.procs q).state = .UNUSED)
    (hdata : ∀ q, (t.procs q).pid = (s.procs q).pid ∧ (t.procs q).xstate = (s.procs q).xstate) :
    Lived t H := by
  refine ⟨?_, ?_, ?_, ?_, h.once, ?_, h.freed_once, h.reap⟩
  · intro q hq
    rw [(hdata q).1]
    exact h.pid q (mt (hu q).2 hq)
  · intro q status hq
    exact h.exiting q status ((hpc q).symm.trans hq)
  · intro q hq
    rw [(hdata q).2]
    exact h.zombie q ((hz q).1 hq)
  · intro q gen status hmem
    rw [hpc q, hz q, hu q]
    exact h.exited q gen status hmem
  · intro r hr
    rw [hu r.slot]
    exact h.freed r hr

theorem enter {status : Int} (h : Lived s H) (hpc : s.pc p = .user)
    (hp : (s.procs p).state = .RUNNING) :
    Lived (s.setPc p (.exitStart status)) { H with exits := (p, H.gen p, status) :: H.exits } := by
  have hnew : ∀ st, (p, H.gen p, st) ∉ H.exits := by
    intro st hmem
    rcases h.exited p _ st hmem with hlt | ⟨_, hexit | hz | hu⟩
    · exact absurd hlt (lt_irrefl _)
    · rw [hpc] at hexit
      exact hexit rfl
    · rw [hp] at hz
      cases hz
    · rw [hp] at hu
      cases hu
  refine ⟨h.pid, ?_, ?_, ?_, ?_, h.freed, h.freed_once, ?_⟩
  · intro q st hq
    by_cases hqp : q = p
    · subst hqp
      simp only [St.setPc, update_self, Pc.exit, Option.some.injEq] at hq
      subst hq
      exact List.mem_cons_self
    · simp only [St.setPc, update_of_ne hqp] at hq
      exact List.mem_cons_of_mem _ (h.exiting q st hq)
  · exact fun q hq => List.mem_cons_of_mem _ (h.zombie q hq)
  · intro q gen st hmem
    simp only [St.setPc]
    rcases List.mem_cons.1 hmem with heq | hmem
    · cases heq
      refine .inr ⟨rfl, .inl ?_⟩
      rw [update_self]
      exact Option.some_ne_none _
    · have hq := h.exited q gen st hmem
      grind [Pc.exit]
  · refine List.nodup_cons.2 ⟨?_, h.once⟩
    intro hmem
    rcases List.mem_map.1 hmem with ⟨⟨q, gen, st⟩, hmem, heq⟩
    cases heq
    exact hnew st hmem
  · intro r hr
    rcases h.reap r hr with ⟨hparent, hret, st, hmem, hst⟩
    exact ⟨hparent, hret, st, List.mem_cons_of_mem _ hmem, hst⟩

theorem exit_zombie {status : Int} (h : Lived s H) (hpc : (s.pc p).exit = some status)
    (hp : (s.procs p).state = .RUNNING)
    (htpc : t.pc = update s.pc p .dead)
    (htprocs : t.procs = update s.procs p
      { s.procs p with xstate := status, state := .ZOMBIE }) : Lived t H := by
  have hmem := h.exiting p status hpc
  refine ⟨?_, ?_, ?_, ?_, h.once, ?_, h.freed_once, h.reap⟩ <;> simp only [htpc, htprocs]
  · have := h.pid
    grind
  · have := h.exiting
    grind [Pc.exit]
  · have := h.zombie
    grind
  · have := h.exited
    grind
  · have := h.freed
    grind

theorem alloc {x : Proc} {pc : Pc} {n : Int32} (h : Lived s H)
    (hp : (s.procs p).state = .RUNNING) (hnp : (s.procs np).state = .UNUSED)
    (hx : x.state ≠ .ZOMBIE) (hpc : pc.exit = none) (hexit : (s.pc p).exit = none) :
    Lived { ((s.setProc np x).setPc np .user).setPc p pc with nextpid := n } { H with
        gen := update H.gen np (H.gen np + 1)
        pid := update H.pid np x.pid } := by
  simp only [St.setProc, St.setPc]
  refine ⟨?_, ?_, ?_, ?_, h.once, ?_, h.freed_once, h.reap⟩
  · have := h.pid
    grind
  · have := h.exiting
    grind [Pc.exit]
  · have := h.zombie
    grind
  · have := h.exited
    grind
  · have := h.freed
    grind

theorem free {pc : Pc} {addr : Bool} (h : Lived s H) (hz : (s.procs q).state = .ZOMBIE)
    (hparent : (s.procs q).parent = some p) (hpc : pc.exit = (s.pc p).exit) :
    Lived ((s.setProc q (freeproc (s.procs q))).setPc p pc) { H with
        reaps :=
          { slot := q, gen := H.gen q, waiter := p, parent := (s.procs q).parent, pid := H.pid q,
            ret := (s.procs q).pid, addr := addr,
            stored := if addr then some (s.procs q).xstate else none } :: H.reaps } := by
  have hnew : ∀ r ∈ H.reaps, r.slot = q → r.gen ≠ H.gen q := by
    intro r hr hslot hgen
    have := h.freed r hr
    grind
  simp only [St.setProc, St.setPc]
  refine ⟨?_, ?_, ?_, ?_, h.once, ?_, ?_, ?_⟩
  · have := h.pid
    grind [freeproc]
  · have := h.exiting
    grind
  · have := h.zombie
    grind [freeproc]
  · have := h.exited
    grind [freeproc]
  · have := h.freed
    intro r hr
    rcases List.mem_cons.1 hr with rfl | hr
    · grind [freeproc]
    · grind [freeproc]
  · refine List.nodup_cons.2 ⟨?_, h.freed_once⟩
    intro hmem
    rcases List.mem_map.1 hmem with ⟨r, hr, heq⟩
    rcases Prod.mk.inj heq with ⟨hslot, hgen⟩
    exact hnew r hr hslot hgen
  · intro r hr
    rcases List.mem_cons.1 hr with rfl | hr
    · exact ⟨hparent, h.pid q (by rw [hz]; decide), _, h.zombie q hz, rfl⟩
    · exact h.reap r hr

/-- Nothing is recorded for a step that makes, ends and frees no process. -/
theorem record_quiet (hexit : e.next.exit = (s.pc p).exit) (halloc : ∀ np x pc, e ≠ .alloc np x pc)
    (hfree : ∀ q x pc, e = .touch q x pc →
      ¬ ((s.procs q).state = .ZOMBIE ∧ x.state = .UNUSED)) : e.record s p H = H := by
  have huser : ∀ status, (Pc.exitStart status).exit = (s.pc p).exit → s.pc p ≠ .user := by
    intro status hst hpc
    rw [hpc] at hst
    cases hst
  unfold Eff.record
  split
  · exact absurd rfl (halloc _ _ _)
  · exact if_neg (hfree _ _ _ rfl)
  · exact if_neg (huser _ hexit)
  · exact if_neg (huser _ hexit)
  · rfl

/-- A step that neither enters nor leaves `exit`. -/
theorem proc_step (h : Lived s H) (hinv : Inv s) (hp : s.switch p = .on)
    (hcode : Code s p (s.pc p) e) (hexit : e.next.exit = (s.pc p).exit)
    (happly : Applies s c p e t) : Lived t (e.record s p H) := by
  have hrun := (hinv.switched.running p).2 (.inl hp)
  cases happly with
  | goto | acquire | release | cond | parent =>
    rw [record_quiet hexit (fun _ _ _ h => by cases h) fun _ _ _ h => by cases h]
    simp only [Eff.next] at hexit
    refine h.frame ?_ ?_ ?_ ?_ <;> simp only [St.setProc, St.setPc] <;> grind
  | touch hq =>
    rename_i q x pc
    by_cases hfree : (s.procs q).state = .ZOMBIE ∧ x.state = .UNUSED
    · rcases hcode.reap hfree.1 hfree.2 with ⟨hparent, rfl, rfl⟩
      simp only [Eff.record, if_pos hfree]
      exact h.free hfree.1 hparent hexit
    · rw [record_quiet hexit (fun _ _ _ h => by cases h) (by rintro _ _ _ ⟨⟩; exact hfree)]
      have hx := hcode.touch
      have hused := hinv.forking.used p
      simp only [Eff.next] at hexit
      refine h.frame ?_ ?_ ?_ ?_ <;> simp only [St.setProc, St.setPc] <;>
        grind [Pc.target, freeproc]
  | alloc hnp =>
    rename_i np x pc
    rcases hcode.alloc with ⟨hunused, hx⟩
    have hnone : pc.exit = none := by
      rcases hx with ⟨_, rfl⟩ | ⟨_, rfl⟩ <;> rfl
    refine h.alloc hrun hunused ?_ hnone (hexit.symm.trans hnone)
    rcases hx with ⟨rfl, _⟩ | ⟨rfl, _⟩ <;> rintro ⟨⟩
  | leave hplock =>
    rename_i x rel pc
    rw [record_quiet hexit (fun _ _ _ h => by cases h) fun _ _ _ h => by cases h]
    have hx := hcode.leaves
    simp only [Eff.next] at hexit
    refine h.frame ?_ ?_ ?_ ?_ <;> simp only [St.setProc, St.setPc] <;> grind

theorem moves (h : Lived s H) (hm : Moves s t) : Lived t H := by
  refine h.frame (fun q => ?_) hm.zombie hm.unused fun q => ⟨hm.pid q, hm.xstate q⟩
  rcases hm.pc q with heq | ⟨pc, chan, hres, heq, hsleeps⟩
  · rw [heq]
  · rw [heq, hres]
    cases hsleeps <;> rfl

theorem step (h : Lived s H) (hinv : Inv s) (hstep : Steps s a t) : Lived t (record s a H) := by
  rcases moves_or_proc hinv hstep with ⟨hm, ha⟩ | ⟨c, p, x, e, rfl, heff, hp, hcode, happly⟩
  · have hrec : record s a H = H := by
      unfold record
      split
      · exact absurd rfl (ha _ _)
      · rfl
    rw [hrec]
    exact h.moves hm
  · simp only [record, heff]
    have hrun := (hinv.switched.running p).2 (.inl hp)
    rcases hcode.exit with ⟨hexit, _⟩ | ⟨status, hpc, _, heq⟩ | ⟨status, hexit, rfl⟩
    · exact h.proc_step hinv hp hcode hexit happly
    · rcases heq with rfl | rfl
      · cases happly
        simp only [Eff.record, if_pos hpc]
        exact h.enter hpc hrun
      · cases happly
        have hprocs : s.setProc p (s.procs p) = s := by
          rw [St.setProc, update_eq_self]
        simp only [Eff.record, if_pos hpc, hprocs]
        exact h.enter hpc hrun
    · cases happly
      exact h.exit_zombie hexit hrun rfl rfl

end Lived

/-! ## Runs -/

theorem family_boot : Family boot := by
  have hparent : ∀ q, (boot.procs q).parent = none := by
    intro q
    by_cases hq : q = 0
    · subst hq
      rfl
    · simp only [boot, update_of_ne hq]
      rfl
  refine ⟨.inl rfl, ⟨rfl, by rintro ⟨⟩⟩, fun q p hq => ?_, fun q hq hst => ?_,
    by rintro _ _ ⟨⟩, fun q _ => hparent q⟩
  · rw [hparent q] at hq
    cases hq
  · have hq' : q ≠ 0 := hq
    simp only [boot, update_of_ne hq'] at hst
    rcases hst with (hst | hst | hst) | hst <;> cases hst

theorem lived_start : Lived boot Life.start := by
  refine ⟨fun _ _ => rfl, nofun, fun q hq => ?_, nofun, List.nodup_nil, nofun,
    List.nodup_nil, nofun⟩
  rcases boot_state q with hq' | hq' <;> rw [hq'] at hq <;> cases hq

theorem lived_of_reaches {H : Life}
    (h : Reaches (withHistory step record) (fun x => anyStep x.1) (boot, Life.start) (s, H)) :
    (Inv s ∧ Family s) ∧ Lived s H := by
  refine Reaches.invariant_withHistory (P := fun s => Inv s ∧ Family s) ⟨inv_boot, family_boot⟩
    ?_ lived_start ?_ h
  · exact fun s a t hs _ hstep =>
      ⟨hs.1.step (steps_of_step hstep), hs.2.step hs.1 (steps_of_step hstep)⟩
  · exact fun s a t H hs hH _ hstep => hH.step hs.1 (steps_of_step hstep)

/-- What `wait` does when it gets to a zombie child. -/
theorem step_waitScan {addr kids : Bool} (hc : s.stage c = .on p) (hp : s.switch p = .on)
    (hpc : s.pc p = .waitScan addr q kids) (hparent : (s.procs q).parent = some p)
    (hz : (s.procs q).state = .ZOMBIE) (hlock : s.plock q = none) (copied : Bool) :
    step s (.proc c (.flag copied)) = some (if addr = true ∧ copied = false then
        (s.setProc q (s.procs q)).setPc p (.waitRel (-1) none)
      else
        (s.setProc q (freeproc (s.procs q))).setPc p
          (.waitRel (s.procs q).pid (if addr then some (s.procs q).xstate else none))) := by
  have hcode : code s p (s.pc p) (.flag copied) = some (waitScan s p addr q kids copied) := by
    rw [hpc]
    rfl
  have heff : effect s c (.flag copied) = some (p, waitScan s p addr q kids copied) := by
    simp only [effect, hc, hp, if_true, hcode, Option.map_some]
  have hscan : waitScan s p addr q kids copied =
      if addr = true ∧ copied = false then
        .touch q (s.procs q) (.waitRel (-1) none)
      else
        .touch q (freeproc (s.procs q))
          (.waitRel (s.procs q).pid (if addr then some (s.procs q).xstate else none)) := by
    rw [waitScan, dif_pos q.isLt, if_pos hparent, if_pos hz]
  simp only [step, heff, Option.bind_some, hscan]
  split <;> simp only [apply, hlock, if_true]

theorem family_of_reaches {H : Life}
    (h : Reaches (withHistory step record) (fun x => anyStep x.1) (boot, Life.start) (s, H)) :
    (∀ q, q ≠ s.initproc → Live (s.procs q).state ∨ (s.procs q).state = .ZOMBIE →
      ∃ p, (s.procs q).parent = some p ∧ (s.procs p).state ≠ .UNUSED ∧
        (s.procs p).state ≠ .ZOMBIE) ∧
      (H.exits.map fun x => (x.1, x.2.1)).Nodup ∧
      (H.reaps.map fun r => (r.slot, r.gen)).Nodup ∧
      (∀ r ∈ H.reaps, r.parent = some r.waiter ∧ r.ret = r.pid ∧
        ∃ status, (r.slot, r.gen, status) ∈ H.exits ∧
          r.stored = if r.addr then some status else none) ∧
      ∀ c p q addr kids, s.stage c = .on p → s.switch p = .on →
        s.pc p = .waitScan addr q.val kids → (s.procs q).parent = some p →
        (s.procs q).state = .ZOMBIE → s.plock q = none →
          (addr = true → ∃ t, step s (.proc c (.flag false)) = some t ∧ t.procs = s.procs ∧
            t.pc p = .waitRel (-1) none) ∧
          ∃ t, step s (.proc c (.flag true)) = some t ∧ (t.procs q).state = .UNUSED ∧
            t.pc p = .waitRel (s.procs q).pid (if addr then some (s.procs q).xstate else none) := by
  rcases lived_of_reaches h with ⟨⟨hinv, hfam⟩, hlived⟩
  refine ⟨fun q hq hst => ?_, hlived.once, hlived.freed_once, hlived.reap, ?_⟩
  · rcases Option.ne_none_iff_exists'.1 (hfam.orphan q hq hst) with ⟨p, hp⟩
    have hlive := (hfam.parent q p hp).1
    refine ⟨p, hp, fun heq => ?_, fun heq => ?_⟩ <;> rw [heq] at hlive <;>
      rcases hlive with h | h | h <;> cases h
  · intro c p q addr kids hc hp hpc hparent hz hlock
    have hstep := step_waitScan hc hp hpc hparent hz hlock
    refine ⟨fun haddr => ⟨_, hstep false, ?_, ?_⟩, _, hstep true, ?_, ?_⟩
    · rw [if_pos ⟨haddr, rfl⟩]
      exact update_eq_self _ _
    · rw [if_pos ⟨haddr, rfl⟩]
      exact update_self _ _ _
    · rw [if_neg (fun h => nomatch h.2)]
      simp only [St.setPc, St.setProc, update_self, freeproc]
    · rw [if_neg (fun h => nomatch h.2)]
      exact update_self _ _ _

/-- The first process forks, the child exits with status 7, and the first process waits for it
twice: at first the status cannot be stored. -/
def reapRun : List Act :=
  List.flatten
    [[.pick 0 0, .choose 0, .arrive 0, .proc 0 .fork, .proc 0 (.slot 1 true)],
      List.replicate 4 (.proc 0 .go), [.pick 1 1, .choose 1, .arrive 1, .proc 1 (.exit 7)],
      List.replicate 132 (.proc 1 .go), [.swtch 1, .back 1, .proc 0 (.wait true), .proc 0 .go],
      List.replicate 2 (.proc 0 (.flag false)), [.proc 0 .go, .proc 0 (.wait true), .proc 0 .go],
      List.replicate 2 (.proc 0 (.flag true))]

set_option maxRecDepth 100000 in
theorem family_of_reaches_twice :
    ∃ s H, run (withHistory step record) (boot, Life.start) reapRun = some (s, H) ∧
      H.exits = [(1, 1, 7)] ∧ (H.reaps.map fun r => (r.slot, r.gen)) = [(1, 1)] ∧
      s.pc 0 = .waitRel 2 (some 7) ∧
      ∀ r ∈ H.reaps, r.parent = some r.waiter ∧ r.ret = r.pid ∧
        ∃ status, (r.slot, r.gen, status) ∈ H.exits ∧
          r.stored = if r.addr then some status else none := by
  have heval : (run (withHistory step record) (boot, Life.start) reapRun).any fun x =>
      decide (x.2.exits = [(1, 1, 7)] ∧ (x.2.reaps.map fun r => (r.slot, r.gen)) = [(1, 1)] ∧
        x.1.pc 0 = .waitRel 2 (some 7)) := by
    decide +kernel
  rcases exists_of_any heval with ⟨⟨s, H⟩, hs, hexits, hreaps, hpc⟩
  exact ⟨s, H, hs, hexits, hreaps, hpc, (family_of_reaches (.of_run_any hs)).2.2.2.1⟩

end Xv6.Sched
