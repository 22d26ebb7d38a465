import Xv6.Proc.Kernel

/-!
# Cpus — one CPU for each running process

Which locks are held where, and that the kernel stack of a process is never in use twice: the lock
that the scheduler takes before it switches to a process is released only when the process is on
its way or the scheduler is back.
-/

namespace Xv6.Sched

open Lib
open Function (update_apply update_of_ne update_self)

/-! ## The code -/

/-- Where the code goes on. -/
def Eff.next : Eff → Pc
  | .goto pc | .acquire _ pc | .release _ pc | .touch _ _ pc | .alloc _ _ pc | .parent _ _ pc
  | .cond _ _ _ pc | .leave _ _ pc => pc

/-- The locks that an effect takes and gives. -/
def Eff.Holds (pc : Pc) : Eff → Prop
  | .acquire l pc' => pc.holds = none ∧ pc'.holds = some l
  | .release l pc' => pc.holds = some l ∧ pc'.holds = none
  | .leave _ rel pc' => pc.holds = rel ∧ pc'.holds = none
  | .alloc _ _ pc' => pc.holds = none ∧ pc'.holds = none
  | e => e.next.holds = pc.holds

/-- The child that a process is making in `fork`. -/
def Pc.target : Pc → Option Slot
  | .forkParent np | .forkSet np | .forkRel np | .forkRunnable np => some np
  | _ => none

variable {s t : St} {p q np : Slot} {c : Cpu} {pc : Pc} {e : Eff} {a : Act}

/-- A point inside a loop of the same call. -/
def Pc.Stays (pc pc' : Pc) : Prop :=
  pc'.holds = pc.holds ∧ pc'.target = none ∧ ∀ q, pc' ≠ .resume q

theorem waking_stays {next done : Pc} {chan : Option Chan} {r : Nat}
    (h : pc.waking s = some (chan, r, next, done)) : pc.Stays next ∧ pc.Stays done := by
  cases waking_cases h <;> exact ⟨⟨rfl, rfl, nofun⟩, rfl, rfl, nofun⟩

theorem Code.holds (h : Code s p pc e) : e.Holds pc := by
  cases h with
  | enter h =>
    rename_i pc
    cases pc <;> first | rfl | exact absurd h id
  | wake hw _ => exact (waking_stays hw).1.1
  | wakeSelf hw => exact (waking_stays hw).1.1
  | wakeEnd hw _ => exact (waking_stays hw).2.1
  | waitEnd _ =>
    rename_i kids _ _
    cases kids <;> rfl
  | loopAlive _ =>
    rename_i l _
    cases l <;> rfl
  | yield hpc => exact ⟨hpc, hpc⟩
  | loopSleep | monSleep | waitSleep | exitZombie => exact ⟨rfl, rfl⟩
  | forkAlloc | forkFail | forkParent | forkRel | exitStart | waitStart | waitRel | loopStart
  | loopRel | wakeStart | monStart | monRel | monRetry => exact ⟨rfl, rfl⟩
  | _ => rfl

/-- A process begins to make a child by allocating it. -/
theorem Code.target (h : Code s p pc e) : e.next.target = none ∨ e.next.target = pc.target ∨
      ∃ np x, e = .alloc np x e.next ∧ e.next.target = some np ∧ x.state = .USED := by
  cases h with
  | enter h =>
    rename_i pc
    cases pc <;> first | exact .inl rfl | exact absurd h id
  | wake hw _ => exact .inl (waking_stays hw).1.2.1
  | wakeSelf hw => exact .inl (waking_stays hw).1.2.1
  | wakeEnd hw _ => exact .inl (waking_stays hw).2.2.1
  | waitEnd _ =>
    rename_i kids _ _
    cases kids <;> exact .inl rfl
  | loopAlive _ =>
    rename_i l _
    cases l <;> exact .inl rfl
  | forkAlloc _ => exact .inr (.inr ⟨_, _, rfl, rfl, rfl⟩)
  | forkParent | forkSet | forkRel | yield => exact .inr (.inl rfl)
  | _ => exact .inl rfl

/-- What a stretch under a process's lock may do to it. -/
theorem Code.touch {x : Proc} {pc' : Pc} (h : Code s p pc (.touch q x pc')) :
    (∃ k, x = { s.procs q with killed := k }) ∨ ((s.procs q).state = .SLEEPING ∧
        ∃ k, x = { s.procs q with state := .RUNNABLE, killed := k }) ∨
      ((s.procs q).state = .ZOMBIE ∧ (s.procs q).parent = some p ∧ x = freeproc (s.procs q)) ∨
      (pc = .forkRunnable q ∧ pc' = .user ∧ x = { s.procs q with state := .RUNNABLE }) := by
  cases h with
  | wake hw hr =>
    unfold wakeProc
    split
    · rename_i hwake
      exact .inr (.inl ⟨hwake.1, _, rfl⟩)
    · exact .inl ⟨_, rfl⟩
  | killHit _ =>
    unfold killProc
    split
    · rename_i hsleep
      exact .inr (.inl ⟨hsleep, _, rfl⟩)
    · exact .inl ⟨_, rfl⟩
  | forkRunnable => exact .inr (.inr (.inr ⟨rfl, rfl, rfl⟩))
  | waitReap hparent hz => exact .inr (.inr (.inl ⟨hz, hparent, rfl⟩))
  | _ => exact .inl ⟨_, rfl⟩

theorem Code.alloc {x : Proc} {pc' : Pc} (h : Code s p pc (.alloc np x pc')) :
    (s.procs np).state = .UNUSED ∧
      ((x = { s.procs np with pid := s.nextpid, state := .USED } ∧ pc' = .forkParent np) ∨
        (x = freeproc { s.procs np with pid := s.nextpid, state := .USED } ∧ pc' = .user)) := by
  cases h with
  | forkAlloc h => exact ⟨h, .inl ⟨rfl, rfl⟩⟩
  | forkFail h => exact ⟨h, .inr ⟨rfl, rfl⟩⟩

theorem Code.leave {x : Proc} {rel : Option Lock} {pc' : Pc} (h : Code s p pc (.leave x rel pc')) :
    x.state = .RUNNABLE ∨ x.state = .SLEEPING ∨ x.state = .ZOMBIE := by
  cases h with
  | yield => exact .inl rfl
  | exitZombie => exact .inr (.inr rfl)
  | waitSleep | loopSleep | monSleep => exact .inr (.inl rfl)

attribute [local grind =] update_apply

/-! ## The invariant -/

/-- Where the processes and the locks of processes are. -/
structure Switched (s : St) : Prop where
  got : ∀ c p, s.stage c = .got p → s.plock p = some c
  back : ∀ c p, s.stage c = .back p → s.plock p = some c ∧ s.switch p = .out
  on : ∀ c p, s.stage c = .on p → s.switch p ≠ .out
  /-- A process that comes or goes has its lock held by its CPU. -/
  locked : ∀ c p, s.stage c = .on p → s.switch p ≠ .on → s.plock p = some c
  host : ∀ p, s.switch p ≠ .out → ∃ c, s.stage c = .on p
  unique : ∀ c c' p, s.stage c = .on p → s.stage c' = .on p → c = c'
  proc : ∀ c p, s.proc c = some p ↔ s.stage c = .on p ∨ s.stage c = .back p
  running : ∀ p, (s.procs p).state = .RUNNING ↔ s.switch p = .on ∨ s.switch p = .arriving
  leaving : ∀ p, s.switch p = .leaving → (s.procs p).state = .RUNNABLE ∨
    (s.procs p).state = .SLEEPING ∨ (s.procs p).state = .ZOMBIE

/-- The children that are being made. -/
structure Forking (s : St) : Prop where
  used : ∀ p np, (s.pc p).target = some np → (s.procs np).state = .USED
  unique : ∀ p p' np, (s.pc p).target = some np → (s.pc p').target = some np → p = p'

/-- Where a process goes on that sleeps on a channel. -/
inductive Sleeps (p : Slot) : Pc → Chan → Prop where
  | wait (addr : Bool) : Sleeps p (.waitStart addr) (.proc p)
  | loop (l : Loop) : Sleeps p (.loopStart l) l.chan
  | monitor (k b : Nat) : Sleeps p (.monRetry k b) (.monitor k b)

/-- The processes that are inside of `sleep`. -/
structure Asleep (s : St) : Prop where
  pc : ∀ p, (s.procs p).state = .SLEEPING → ∃ pc, s.pc p = .resume pc
  off : ∀ p pc, s.pc p = .resume pc → s.switch p ≠ .on
  state : ∀ p pc, s.pc p = .resume pc → (s.procs p).state = .SLEEPING ∨
    (s.procs p).state = .RUNNABLE ∨ (s.procs p).state = .RUNNING
  chan : ∀ p pc, s.pc p = .resume pc → ∃ chan, (s.procs p).chan = some chan ∧ Sleeps p pc chan

/-- The locks other than those of processes. -/
structure Locked (s : St) : Prop where
  holder : ∀ l p, s.lock l = some p ↔ (s.pc p).holds = some l
  on : ∀ p, (s.pc p).holds ≠ none → s.switch p = .on

namespace Switched

theorem frame (h : Switched s) (hstage : t.stage = s.stage) (hproc : t.proc = s.proc)
    (hswitch : t.switch = s.switch) (hplock : t.plock = s.plock)
    (hrun : ∀ q, (t.procs q).state = .RUNNING ↔ (s.procs q).state = .RUNNING)
    (hleave : ∀ q, s.switch q = .leaving → (t.procs q).state = (s.procs q).state) :
    Switched t := by
  refine ⟨?_, ?_, ?_, ?_, ?_, ?_, ?_, ?_, ?_⟩ <;> simp only [hstage, hproc, hswitch, hplock]
  · exact h.got
  · exact h.back
  · exact h.on
  · exact h.locked
  · exact h.host
  · exact h.unique
  · exact h.proc
  · exact fun q => (hrun q).trans (h.running q)
  · intro q hq
    rw [hleave q hq]
    exact h.leaving q hq

/-- The scheduler takes or gives a lock, and the processes stay where they are. -/
theorem keep (h : Switched s) (hon : ∀ c p, t.stage c = .on p ↔ s.stage c = .on p)
    (hswitch : t.switch = s.switch) (hprocs : t.procs = s.procs)
    (hgot : ∀ c p, t.stage c = .got p → t.plock p = some c)
    (hback : ∀ c p, t.stage c = .back p → t.plock p = some c ∧ t.switch p = .out)
    (hlocked : ∀ c p, t.stage c = .on p → t.switch p ≠ .on → t.plock p = some c)
    (hproc : ∀ c p, t.proc c = some p ↔ t.stage c = .on p ∨ t.stage c = .back p) :
    Switched t := by
  refine ⟨hgot, hback, ?_, hlocked, ?_, ?_, hproc, ?_, ?_⟩ <;> simp only [hon, hswitch, hprocs]
  exacts [h.on, h.host, h.unique, h.running, h.leaving]

/-- A process whose lock is free and whose state is settled is not on a CPU. -/
theorem out (h : Switched s) (hlock : s.plock p = none) (hrun : (s.procs p).state ≠ .RUNNING) :
    s.switch p = .out := by
  by_contra hout
  rcases h.host p hout with ⟨c, hc⟩
  have hon : s.switch p ≠ .on := fun heq => hrun ((h.running p).2 (.inl heq))
  rw [h.locked c p hc hon] at hlock
  cases hlock

theorem proc_step (h : Switched s) (hf : Forking s) (hc : s.stage c = .on p)
    (hp : s.switch p = .on) (hcode : Code s p (s.pc p) e) (happly : Applies s c p e t) :
    Switched t := by
  cases happly with
  | goto | acquire | release | cond =>
    exact h.frame rfl rfl rfl rfl (fun _ => Iff.rfl) fun _ _ => rfl
  | parent =>
    rename_i q par pc
    refine h.frame rfl rfl rfl rfl (fun r => ?_) fun r _ => ?_
    all_goals simp only [St.setProc, St.setPc]
    all_goals grind
  | touch hq =>
    rename_i q x pc
    have hx := hcode.touch
    have hused := hf.used p q
    have hout := h.out hq
    refine h.frame rfl rfl rfl rfl (fun r => ?_) fun r hr => ?_
    all_goals simp only [St.setProc, St.setPc]
    all_goals grind [Pc.target, freeproc]
  | alloc hnp =>
    rename_i np x pc
    have hx := hcode.alloc
    have hout := h.out hnp
    refine h.frame rfl rfl rfl rfl (fun r => ?_) fun r hr => ?_
    all_goals simp only [St.setProc, St.setPc]
    all_goals grind [freeproc]
  | leave hplock =>
    rename_i x rel pc
    have hx := hcode.leave
    rcases h with ⟨hgot, hback, hon, hlocked, hhost, hunique, hproc, hrunning, hleaving⟩
    simp only [St.setProc, St.setPc]
    refine ⟨by grind, by grind, by grind, by grind, ?_, by grind, by grind, by grind, by grind⟩
    intro q hq
    rcases hhost q (by grind) with ⟨c', hc'⟩
    exact ⟨c', hc'⟩

theorem step (h : Switched s) (hf : Forking s) (hstep : Steps s a t) : Switched t := by
  have hself := h
  rcases h with ⟨hgot, hback, hon, hlocked, hhost, hunique, hproc, hrunning, hleaving⟩
  cases hstep with
  | pick hc hp =>
    exact hself.keep (by grind) rfl rfl (by grind) (by grind) (by grind) (by grind)
  | choose hc hp =>
    rename_i c p
    simp only [St.setProc]
    refine ⟨by grind, by grind, by grind, by grind, ?_, by grind, by grind, by grind, by grind⟩
    intro q hq
    by_cases hqp : q = p
    · exact ⟨c, by grind⟩
    · rcases hhost q (by grind) with ⟨c', hc'⟩
      exact ⟨c', by grind⟩
  | decline hc hp =>
    exact hself.keep (by grind) rfl rfl (by grind) (by grind) (by grind) (by grind)
  | arrive hc hp hpc =>
    refine ⟨by grind, by grind, by grind, by grind, ?_, by grind, by grind, by grind, by grind⟩
    intro q hq
    rcases hhost q (by grind) with ⟨c', hc'⟩
    exact ⟨c', by grind⟩
  | resume hc hp hpc =>
    simp only [St.setProc, St.setPc]
    refine ⟨by grind, by grind, by grind, by grind, ?_, by grind, by grind, by grind, by grind⟩
    intro q hq
    rcases hhost q (by grind) with ⟨c', hc'⟩
    exact ⟨c', by grind⟩
  | proc hc hp heff hcode happly => exact hself.proc_step hf hc hp hcode happly
  | swtch hc hp =>
    refine ⟨by grind, by grind, by grind, by grind, ?_, by grind, by grind, by grind, by grind⟩
    intro q hq
    rcases hhost q (by grind) with ⟨c', hc'⟩
    exact ⟨c', by grind⟩
  | back hc =>
    exact hself.keep (by grind) rfl rfl (by grind) (by grind) (by grind) (by grind)

end Switched

theorem Sleeps.holds {chan : Chan} (h : Sleeps p pc chan) : pc.holds = none := by
  cases h <;> rfl

theorem Sleeps.target {chan : Chan} (h : Sleeps p pc chan) : pc.target = none := by
  cases h <;> rfl

theorem Sleeps.ne_resume {chan : Chan} (h : Sleeps p pc chan) (pc' : Pc) : pc ≠ .resume pc' := by
  rintro rfl
  cases h

/-- The code sleeps in three ways, and stays awake otherwise. -/
theorem Code.asleep (h : Code s p pc e) :
    (∃ pc' chan rel, e = .leave { s.procs p with chan := some chan, state := .SLEEPING } rel
      (.resume pc') ∧ Sleeps p pc' chan) ∨ e.next = pc ∨ ∀ pc', e.next ≠ .resume pc' := by
  cases h with
  | enter h =>
    rename_i pc
    cases pc <;> first | exact absurd h id | exact .inr (.inr nofun)
  | wake hw _ => exact .inr (.inr (waking_stays hw).1.2.2)
  | wakeSelf hw => exact .inr (.inr (waking_stays hw).1.2.2)
  | wakeEnd hw _ => exact .inr (.inr (waking_stays hw).2.2.2)
  | waitEnd _ =>
    rename_i kids _ _
    cases kids <;> exact .inr (.inr nofun)
  | loopAlive _ =>
    rename_i l _
    cases l <;> exact .inr (.inr nofun)
  | yield => exact .inr (.inl rfl)
  | waitSleep => exact .inl ⟨_, _, _, rfl, .wait _⟩
  | loopSleep => exact .inl ⟨_, _, _, rfl, .loop _⟩
  | monSleep => exact .inl ⟨_, _, _, rfl, .monitor _ _⟩
  | _ => exact .inr (.inr nofun)

/-- A process that sleeps has its state set by `sleep`. -/
theorem Code.leave_sleeping {x : Proc} {rel : Option Lock} {pc' : Pc}
    (h : Code s p pc (.leave x rel pc')) (hx : x.state = .SLEEPING) : ∃ q, pc' = .resume q := by
  cases h with
  | waitSleep | loopSleep | monSleep => exact ⟨_, rfl⟩
  | yield | exitZombie => cases hx

theorem Forking.step (hf : Forking s) (h : Switched s) (ha : Asleep s) (hstep : Steps s a t) :
    Forking t := by
  rcases hf with ⟨hused, hunique⟩
  have hrunning := h.running
  cases hstep with
  | pick | decline | arrive | swtch | back => exact ⟨hused, hunique⟩
  | choose hc hp =>
    simp only [St.setProc]
    exact ⟨by grind, hunique⟩
  | resume hc hp hpc =>
    rcases ha.chan _ _ hpc with ⟨chan, _, hsleeps⟩
    have hnone := hsleeps.target
    simp only [St.setProc, St.setPc]
    exact ⟨by grind, by grind⟩
  | proc hc hp heff hcode happly =>
    rename_i c p x e
    have htarget := hcode.target
    cases happly with
    | goto | acquire | release | cond | parent =>
      simp only [Eff.next] at htarget
      simp only [St.setProc, St.setPc]
      exact ⟨by grind, by grind⟩
    | touch hq =>
      have hx := hcode.touch
      simp only [Eff.next] at htarget
      simp only [St.setProc, St.setPc]
      exact ⟨by grind [Pc.target, freeproc], by grind⟩
    | alloc hnp =>
      have hx := hcode.alloc
      simp only [Eff.next] at htarget
      simp only [St.setProc, St.setPc]
      exact ⟨by grind [Pc.target], by grind [Pc.target]⟩
    | leave hplock =>
      simp only [Eff.next] at htarget
      simp only [St.setProc, St.setPc]
      exact ⟨by grind, by grind⟩

theorem Locked.step (hl : Locked s) (h : Switched s) (ha : Asleep s) (hstep : Steps s a t) :
    Locked t := by
  rcases hl with ⟨hholder, hon⟩
  have hrunning := h.running
  cases hstep with
  | pick | decline | back => exact ⟨hholder, hon⟩
  | arrive | swtch => exact ⟨hholder, by grind⟩
  | choose hc hp =>
    simp only [St.setProc]
    exact ⟨hholder, by grind⟩
  | resume hc hp hpc =>
    rcases ha.chan _ _ hpc with ⟨chan, _, hsleeps⟩
    have hnone := hsleeps.holds
    simp only [St.setProc, St.setPc]
    exact ⟨by grind, by grind⟩
  | proc hc hp heff hcode happly =>
    rename_i c p x e
    have hholds := hcode.holds
    cases happly with
    | goto | acquire | cond | parent | touch =>
      simp only [Eff.Holds, Eff.next] at hholds
      simp only [St.setProc, St.setPc]
      exact ⟨by grind, by grind⟩
    | release =>
      have hown := (hholder _ p).2 hholds.1
      simp only [Eff.Holds] at hholds
      simp only [St.setPc]
      exact ⟨by grind, by grind⟩
    | alloc hnp =>
      have hx := hcode.alloc
      simp only [Eff.Holds] at hholds
      simp only [St.setProc, St.setPc]
      exact ⟨by grind [Pc.holds], by grind [Pc.holds]⟩
    | leave hplock =>
      rename_i x rel pc
      simp only [Eff.Holds] at hholds
      simp only [St.setProc, St.setPc]
      cases rel with
      | none => exact ⟨by grind, by grind⟩
      | some l =>
        have hown := (hholder l p).2 hholds.1
        exact ⟨by grind, by grind⟩

theorem Asleep.step (ha : Asleep s) (h : Switched s) (hf : Forking s) (hstep : Steps s a t) :
    Asleep t := by
  rcases ha with ⟨hpc, hoff, hstate, hchan⟩
  have hrunning := h.running
  cases hstep with
  | pick | decline | back => exact ⟨hpc, hoff, hstate, hchan⟩
  | arrive | swtch => exact ⟨hpc, by grind, hstate, hchan⟩
  | choose hc hp =>
    simp only [St.setProc]
    exact ⟨by grind, by grind, by grind, by grind⟩
  | resume hc hp hpc' =>
    rcases hchan _ _ hpc' with ⟨chan, _, hsleeps⟩
    have hnone := hsleeps.ne_resume
    simp only [St.setProc, St.setPc]
    exact ⟨by grind, by grind, by grind, by grind⟩
  | proc hc hp heff hcode happly =>
    rename_i c p x e
    have hasleep := hcode.asleep
    cases happly with
    | goto | acquire | release | cond | parent =>
      simp only [Eff.next] at hasleep
      simp only [St.setProc, St.setPc]
      exact ⟨by grind, by grind, by grind, by grind⟩
    | touch hq =>
      have hx := hcode.touch
      have hused := hf.used p
      simp only [Eff.next] at hasleep
      simp only [St.setProc, St.setPc]
      refine ⟨?_, ?_, ?_, ?_⟩ <;> grind [Pc.target, freeproc]
    | alloc hnp =>
      have hx := hcode.alloc
      simp only [Eff.next] at hasleep
      simp only [St.setProc, St.setPc]
      refine ⟨?_, ?_, ?_, ?_⟩ <;> grind [freeproc]
    | leave hplock =>
      have hx := hcode.leave
      have hsleeping := hcode.leave_sleeping
      have hawake : ∀ pc, s.pc p ≠ .resume pc := fun pc heq => hoff p pc heq hp
      simp only [Eff.next] at hasleep
      simp only [St.setProc, St.setPc]
      refine ⟨?_, ?_, ?_, ?_⟩ <;> grind

/-- Everything about processes, CPUs and locks that the steps keep. -/
structure Inv (s : St) : Prop where
  switched : Switched s
  forking : Forking s
  asleep : Asleep s
  locked : Locked s

theorem Inv.step (h : Inv s) (hstep : Steps s a t) : Inv t :=
  ⟨h.switched.step h.forking hstep, h.forking.step h.switched h.asleep hstep,
    h.asleep.step h.switched h.forking hstep, h.locked.step h.switched h.asleep hstep⟩

theorem boot_state (p : Slot) :
    (boot.procs p).state = .RUNNABLE ∨ (boot.procs p).state = .UNUSED := by
  by_cases hp : p = 0
  · subst hp
    exact .inl rfl
  · refine .inr ?_
    simp only [boot, update_of_ne hp]
    rfl

theorem inv_boot : Inv boot := by
  refine ⟨⟨nofun, nofun, nofun, nofun, ?_, nofun, fun _ _ => ⟨nofun, ?_⟩, fun p => ?_, nofun⟩,
    ⟨nofun, nofun⟩, ⟨fun p hp => ?_, nofun, nofun, nofun⟩, ⟨fun _ _ => ⟨nofun, nofun⟩, ?_⟩⟩
  · exact fun p hp => absurd rfl hp
  · rintro (h | h) <;> cases h
  · constructor
    · intro hp
      rcases boot_state p with hp' | hp' <;> rw [hp'] at hp <;> cases hp
    · rintro (h | h) <;> cases h
  · rcases boot_state p with hp' | hp' <;> rw [hp'] at hp <;> cases hp
  · exact fun p hp => absurd rfl hp

variable {ok : St → Act → Prop}

theorem inv_of_reaches (h : Reaches step ok boot s) : Inv s :=
  h.invariant inv_boot fun _ _ _ hs _ hstep => hs.step (steps_of_step hstep)

/-! ## What a step does to the others -/

/-- A process sleeps on a channel. -/
def SleepsOn (s : St) (p : Slot) (chan : Chan) : Prop :=
  (s.procs p).state = .SLEEPING ∧ (s.procs p).chan = some chan

variable {chan : Chan}

/-- A process sleeps after a step if it did before, or if the step was its call of `sleep`. -/
theorem sleepsOn_of_proc (hinv : Inv s) (hp : s.switch p = .on) (hcode : Code s p (s.pc p) e)
    (happly : Applies s c p e t) (h : SleepsOn t q chan) :
    SleepsOn s q chan ∨ q = p ∧ ∃ rel pc, e = .leave
      { s.procs p with chan := some chan, state := .SLEEPING } rel (.resume pc) ∧
        Sleeps p pc chan := by
  have hrun := (hinv.switched.running p).2 (.inl hp)
  unfold SleepsOn at h ⊢
  cases happly with
  | goto | acquire | release | cond => exact .inl h
  | parent =>
    simp only [St.setProc, St.setPc] at h
    grind
  | touch =>
    have hx := hcode.touch
    simp only [St.setProc, St.setPc] at h
    grind [freeproc]
  | alloc =>
    have hx := hcode.alloc
    simp only [St.setProc, St.setPc] at h
    grind [freeproc]
  | leave =>
    have hx := hcode.asleep
    have hsleeping := hcode.leave_sleeping
    have hoff := hinv.asleep.off p
    simp only [St.setProc, St.setPc] at h
    simp only [Eff.next] at hx
    grind

/-- The scheduler moves processes between CPUs and does nothing else to them. -/
structure Moves (s t : St) : Prop where
  sleeps : ∀ q chan, SleepsOn t q chan → SleepsOn s q chan
  state : ∀ q, (t.procs q).state = (s.procs q).state ∨
    (s.procs q).state = .RUNNABLE ∧ (t.procs q).state = .RUNNING
  parent : ∀ q, (t.procs q).parent = (s.procs q).parent
  killed : ∀ q, (t.procs q).killed = (s.procs q).killed
  pid : ∀ q, (t.procs q).pid = (s.procs q).pid
  xstate : ∀ q, (t.procs q).xstate = (s.procs q).xstate
  cond : t.cond = s.cond
  initproc : t.initproc = s.initproc
  pc : ∀ q, t.pc q = s.pc q ∨ ∃ pc chan, s.pc q = .resume pc ∧ t.pc q = pc ∧ Sleeps q pc chan

theorem Moves.zombie (h : Moves s t) (q : Slot) :
    (t.procs q).state = .ZOMBIE ↔ (s.procs q).state = .ZOMBIE := by
  rcases h.state q with heq | ⟨hs, ht⟩
  · rw [heq]
  · rw [hs, ht]
    exact ⟨nofun, nofun⟩

theorem Moves.unused (h : Moves s t) (q : Slot) :
    (t.procs q).state = .UNUSED ↔ (s.procs q).state = .UNUSED := by
  rcases h.state q with heq | ⟨hs, ht⟩
  · rw [heq]
  · rw [hs, ht]
    exact ⟨nofun, nofun⟩

/-- A step moves processes, or is one of the process on a CPU. -/
theorem moves_or_proc (hinv : Inv s) (hstep : Steps s a t) :
    (Moves s t ∧ ∀ c x, a ≠ .proc c x) ∨ ∃ c p x e, a = .proc c x ∧ effect s c x = some (p, e) ∧
      s.switch p = .on ∧ Code s p (s.pc p) e ∧ Applies s c p e t := by
  have hsame : ∀ q, (s.procs q).state = (s.procs q).state ∨
      (s.procs q).state = .RUNNABLE ∧ (s.procs q).state = .RUNNING := fun _ => .inl rfl
  cases hstep with
  | pick | decline | arrive | swtch | back =>
    exact .inl ⟨⟨fun _ _ => id, hsame, fun _ => rfl, fun _ => rfl, fun _ => rfl, fun _ => rfl,
      rfl, rfl, fun _ => .inl rfl⟩, fun _ _ h => by cases h⟩
  | choose hc hp =>
    refine .inl ⟨⟨?_, ?_, ?_, ?_, ?_, ?_, rfl, rfl, fun _ => .inl rfl⟩, fun _ _ h => by cases h⟩
    all_goals simp only [SleepsOn, St.setProc]
    all_goals grind
  | resume hc hp hpc =>
    rename_i c p pc
    have hrun := (hinv.switched.running p).2 (.inr hp)
    rcases hinv.asleep.chan _ _ hpc with ⟨chan, _, hsleeps⟩
    refine .inl ⟨⟨?_, ?_, ?_, ?_, ?_, ?_, rfl, rfl, fun q => ?_⟩, fun _ _ h => by cases h⟩
    case refine_7 =>
      by_cases hq : q = p
      · subst hq
        exact .inr ⟨pc, chan, hpc, update_self _ _ _, hsleeps⟩
      · exact .inl (update_of_ne hq _ _)
    all_goals simp only [SleepsOn, St.setProc, St.setPc]
    all_goals grind
  | proc hc hp heff hcode happly => exact .inr ⟨_, _, _, _, rfl, heff, hp, hcode, happly⟩

theorem Applies.pc_self (hcode : Code s p pc e) (happly : Applies s c p e t) : t.pc p = e.next := by
  cases happly <;> exact update_self _ _ _

/-- A step leaves a process with a lock where it is. -/
theorem Applies.pc_other (hinv : Inv s) (hcode : Code s p pc e) (happly : Applies s c p e t)
    (hq : q ≠ p) : t.pc q = s.pc q ∨ t.pc q = .user ∧ (s.pc q).holds = none := by
  cases happly with
  | alloc =>
    by_contra hne
    have hunused := hcode.alloc.1
    have hon := hinv.locked.on q
    have hrun := hinv.switched.running q
    simp only [St.setProc, St.setPc] at hne
    grind
  | _ => exact .inl (update_of_ne hq _ _)

theorem Inv.not_sleepsOn_self (hinv : Inv s) (hp : s.switch p = .on) : ¬ SleepsOn s p chan := by
  intro h
  have hrun := (hinv.switched.running p).2 (.inl hp)
  rw [h.1] at hrun
  cases hrun

theorem Inv.holds_unique {l : Lock} (hinv : Inv s) (hp : (s.pc p).holds = some l)
    (hq : (s.pc q).holds = some l) : p = q := by
  have h := (hinv.locked.holder l p).2 hp
  rw [(hinv.locked.holder l q).2 hq] at h
  cases h
  rfl

/-! ## One CPU for each process -/

namespace Switched

theorem proc_unique (h : Switched s) {c c' : Cpu} (hc : s.proc c = some p)
    (hc' : s.proc c' = some p) : c = c' := by
  rcases (h.proc c p).1 hc with hon | hback
  · rcases (h.proc c' p).1 hc' with hon' | hback'
    · exact h.unique c c' p hon hon'
    · exact absurd (h.back c' p hback').2 (h.on c p hon)
  · rcases (h.proc c' p).1 hc' with hon' | hback'
    · exact absurd (h.back c p hback).2 (h.on c' p hon')
    · have hlock := (h.back c p hback).1
      rw [(h.back c' p hback').1] at hlock
      cases hlock
      rfl

/-- A process that has been switched to has its lock held, or is running. -/
theorem in_use (h : Switched s) (hc : s.stage c = .on p) :
    s.plock p = some c ∨ (s.procs p).state = .RUNNING := by
  by_cases hon : s.switch p = .on
  · exact .inr ((h.running p).2 (.inl hon))
  · exact .inl (h.locked c p hc hon)

end Switched

def Act.cpu : Act → Cpu
  | .pick c _ | .choose c | .arrive c | .proc c _ | .swtch c | .back c => c

/-- Only the first `n` CPUs have been started. -/
def onCpus (n : Fin (NCPU + 1)) (_ : St) (a : Act) : Prop :=
  a.cpu.val < n.val

instance (n : Fin (NCPU + 1)) (s : St) (a : Act) : Decidable (onCpus n s a) :=
  inferInstanceAs (Decidable (_ < _))

/-- The kernel stack of a process is in use on a CPU, from the `swtch` to the process until its
`swtch` back to the scheduler has completed. -/
def InUse (s : St) (p : Slot) : Prop :=
  ∃ c, s.stage c = .on p

/-- The effect calls `freeproc` on `q`. -/
def Eff.Frees (s : St) (q : Slot) (e : Eff) : Prop :=
  (∃ pc, e = .touch q (freeproc (s.procs q)) pc) ∨ ∃ x pc, e = .alloc q (freeproc x) pc

theorem not_chosen (h : Switched s) (hp : InUse s p) (hstep : step s (.choose c) = some t) :
    t.stage c ≠ .on p := by
  rcases hp with ⟨c', hc'⟩
  intro ht
  cases steps_of_step hstep with
  | choose hc hq =>
    simp only [update_self, Stage.on.injEq] at ht
    subst ht
    -- The lock is held here, so it is not held there; and a runnable process is not running.
    rcases h.in_use hc' with hlock | hrun
    · rw [h.got c _ hc] at hlock
      cases hlock
      rw [hc] at hc'
      cases hc'
    · rw [hq] at hrun
      cases hrun
  | decline hc hq =>
    simp only [update_self, reduceCtorEq] at ht

theorem not_freed {x : Choice} (h : Switched s) (hp : InUse s p)
    (heff : effect s c x = some (q, e)) (hstep : step s (.proc c x) = some t) :
    ¬ e.Frees s p := by
  rcases hp with ⟨c', hc'⟩
  have hcode := (effect_eq_some heff).2.2
  have happly : Applies s c q e t := by
    rcases Option.bind_eq_some_iff.1 hstep with ⟨y, hy, happly⟩
    rw [heff] at hy
    cases hy
    exact applies_of_apply happly
  -- The step has found the lock of `p` free, so `p` would be running.
  have hrun : s.plock p = none → (s.procs p).state = .RUNNING := fun hnone =>
    (h.in_use hc').resolve_left fun hlock => by
      rw [hnone] at hlock
      cases hlock
  rintro (⟨pc, rfl⟩ | ⟨y, pc, rfl⟩)
  · cases happly with
    | touch hlock =>
      have hx := hcode.touch
      have hrun := hrun hlock
      grind [freeproc]
  · cases happly with
    | alloc hlock =>
      have hx := hcode.alloc
      have hrun := hrun hlock
      grind

theorem one_cpu_of_reaches {n : Fin (NCPU + 1)} (h : Reaches step (onCpus n) boot s) :
    (∀ p, (s.procs p).state = .RUNNING → ∃! c, s.proc c = some p) ∧
      (∀ c c' p, s.proc c = some p → s.proc c' = some p → c = c') ∧
      ∀ p, InUse s p → ∀ c t, (step s (.choose c) = some t → t.stage c ≠ .on p) ∧
          ∀ x q e, effect s c x = some (q, e) → step s (.proc c x) = some t → ¬ e.Frees s p := by
  have hsw := (inv_of_reaches h).switched
  refine ⟨fun p hp => ?_, fun c c' p => hsw.proc_unique, fun p hp c t => ⟨not_chosen hsw hp,
    fun x q e => not_freed hsw hp⟩⟩
  have hon : s.switch p ≠ .out := by
    rcases (hsw.running p).1 hp with heq | heq <;> rw [heq] <;> exact nofun
  rcases hsw.host p hon with ⟨c, hc⟩
  have hproc : s.proc c = some p := (hsw.proc c p).2 (.inl hc)
  exact ⟨c, hproc, fun c' hc' => hsw.proc_unique hc' hproc⟩

/-- The first process forks on one CPU, the child is switched to on the other, and the first process
is on its way out of `yield`. -/
def yieldRun : List Act :=
  [.pick 0 0, .choose 0, .arrive 0, .proc 0 .fork, .proc 0 (.slot 1 true), .proc 0 .go, .proc 0 .go,
    .proc 0 .go, .proc 0 .go, .pick 1 1, .choose 1, .proc 0 .yield]

set_option maxRecDepth 100000 in
theorem one_cpu_of_reaches_yield : ∃ s, runIf step (onCpus 2) boot yieldRun = some s ∧
    (s.procs 0).state = .RUNNABLE ∧ InUse s 0 ∧ (s.procs 1).state = .RUNNING ∧
    (∃! c, s.proc c = some 1) ∧ ∀ c t, step s (.choose c) = some t → t.stage c ≠ .on 0 := by
  have heval : (runIf step (onCpus 2) boot yieldRun).any fun s =>
      decide ((s.procs 0).state = .RUNNABLE ∧ s.stage 0 = .on 0 ∧
        (s.procs 1).state = .RUNNING) := by
    decide +kernel
  rcases exists_of_any heval with ⟨s, hs, hstate, huse, hrun⟩
  have hone := one_cpu_of_reaches (.of_runIf hs)
  exact ⟨s, hs, hstate, ⟨0, huse⟩, hrun, hone.1 1 hrun, fun c t => (hone.2.2 0 ⟨0, huse⟩ c t).1⟩

/-- No process gives up its CPU with a lock other than its own, and while one comes to a CPU or
leaves it, that CPU has its lock. -/
theorem locks_of_reaches {n : Fin (NCPU + 1)} (h : Reaches step (onCpus n) boot s) :
    (∀ l p, s.lock l = some p → s.switch p = .on ∧ (s.procs p).state ≠ .SLEEPING ∧
      ∃ c, s.proc c = some p) ∧
    ∀ c p, s.stage c = .on p → s.switch p ≠ .on → s.plock p = some c := by
  have hinv := inv_of_reaches h
  refine ⟨fun l p hl => ?_, hinv.switched.locked⟩
  have hon : s.switch p = .on := by
    refine hinv.locked.on p ?_
    rw [(hinv.locked.holder l p).1 hl]
    exact Option.some_ne_none l
  rcases hinv.switched.host p (by rw [hon]; decide) with ⟨c, hc⟩
  refine ⟨hon, ?_, c, (hinv.switched.proc c p).2 (.inl hc)⟩
  rw [(hinv.switched.running p).2 (.inl hon)]
  decide

set_option maxRecDepth 100000 in
/-- While the first process leaves its CPU, the child takes `tickslock` on the other. -/
theorem locks_of_reaches_ticks : ∃ s, runIf step (onCpus 2) boot
      (yieldRun ++ [.arrive 1, .proc 1 (.loop .sysSleep), .proc 1 .go]) = some s ∧
    (s.lock .ticks = some 1 ∧ s.switch 1 = .on ∧ (s.procs 1).state ≠ .SLEEPING ∧
      ∃ c, s.proc c = some 1) ∧
    s.stage 0 = .on 0 ∧ s.switch 0 ≠ .on ∧ s.plock 0 = some 0 := by
  have heval : (runIf step (onCpus 2) boot
      (yieldRun ++ [.arrive 1, .proc 1 (.loop .sysSleep), .proc 1 .go])).any fun s =>
        decide (s.lock .ticks = some 1 ∧ s.stage 0 = .on 0 ∧ s.switch 0 ≠ .on) := by
    decide +kernel
  rcases exists_of_any heval with ⟨s, hs, hlock, hstage, hne⟩
  have hlocks := locks_of_reaches (.of_runIf hs)
  exact ⟨s, hs, ⟨hlock, hlocks.1 .ticks 1 hlock⟩, hstage, hne, hlocks.2 0 0 hstage hne⟩

end Xv6.Sched
