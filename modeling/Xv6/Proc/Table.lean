import Xv6.Lib.Transition
import Xv6.Params
import Mathlib.Logic.Function.Basic
import Mathlib.Data.List.FinRange

/-!
# Table — the process table of `kernel/proc.c`

The process table with the operations that allocate, free, kill and reap its slots, as a transition
system.  A step is a stretch of kernel code that runs under the locks it holds: `fork` gives its
locks up three times and is four steps, everything else the table sees is one.

`scheduler`, `yield`, `sleep` and `wakeup` only move `state` between its values here; sleep
channels, page tables, files and the kernel stack belong to other parts of the kernel.  Their models
have a process table of their own with the fields that they read: `Proc.Kernel` the locks, channels
and CPUs, `Proc.Procnum` the stores to `state` one by one, `Ftable.Model` the descriptors,
`Vm.Procs` the memory.  `Proc.Pids` relates the first of them to this one.
-/

namespace Xv6.ProcTable

open Function (update)

/-! ## Processes -/

inductive ProcState
  | UNUSED
  | USED
  | SLEEPING
  | RUNNABLE
  | RUNNING
  | ZOMBIE
  deriving DecidableEq, Repr

structure Proc where
  state : ProcState
  killed : Int
  xstate : Int
  pid : Int32
  parent : Option Slot
  mask : BitVec 32
  deriving DecidableEq

/-- A slot no process has used yet. -/
def Proc.zero : Proc :=
  { state := .UNUSED, killed := 0, xstate := 0, pid := 0, parent := none, mask := 0 }

/-- Where a process stands in `fork`: the next thing it does to its child `np`. -/
inductive Ctl
  | user
  | forkParent (np : Slot)
  | forkRunnable (np : Slot)
  | forkMask (np : Slot)
  deriving DecidableEq

/-- The child a process is still working on in `fork`. -/
def Ctl.target : Ctl → Option Slot
  | .user => none
  | .forkParent np => some np
  | .forkRunnable np => some np
  | .forkMask np => some np

structure State where
  procs : Slot → Proc
  ctl : Slot → Ctl
  nextpid : Int32
  initproc : Slot

/-! ## Operations on the table -/

/-- `allocproc` once it has found the slot. -/
def allocproc (s : State) (np : Slot) : State :=
  { s with
    procs := update s.procs np { s.procs np with pid := s.nextpid, state := .USED }
    nextpid := s.nextpid + 1 }

/-- `freeproc`: every field but `mask` goes back to zero. -/
def freeproc (p : Proc) : Proc :=
  { p with state := .UNUSED, killed := 0, xstate := 0, pid := 0, parent := none }

/-- What `kill` does to the process it found. -/
def killProc (p : Proc) : Proc :=
  { p with killed := 1, state := if p.state = .SLEEPING then .RUNNABLE else p.state }

/-- `kill`: the first slot with this `pid`, whatever its state. -/
def kill (procs : Slot → Proc) (pid : Int32) : (Slot → Proc) × Int :=
  match (List.finRange NPROC).find? fun q => (procs q).pid = pid with
  | some q => (update procs q (killProc (procs q)), 0)
  | none => (procs, -1)

/-- Either no slot has this `pid` and `kill` fails, or `kill` marks the first slot that has it. -/
theorem kill_cases (procs : Slot → Proc) (pid : Int32) :
    ((∀ q, (procs q).pid ≠ pid) ∧ kill procs pid = (procs, -1)) ∨
      ∃ q, (procs q).pid = pid ∧ (∀ r, r < q → (procs r).pid ≠ pid) ∧
        kill procs pid = (update procs q (killProc (procs q)), 0) := by
  cases hfind : (List.finRange NPROC).find? fun q => decide ((procs q).pid = pid) with
  | none =>
    left
    refine ⟨by simpa using hfind, ?_⟩
    simp [kill, hfind]
  | some q =>
    right
    rcases List.find?_eq_some_iff_getElem.1 hfind with ⟨hq, i, hi, hEq, hbefore⟩
    have hval : q.val = i := by
      rw [← hEq]
      simp
    refine ⟨q, by simpa using hq, ?_, by simp [kill, hfind]⟩
    intro r hr
    have hlt : r.val < i := by
      have hr' : r.val < q.val := hr
      omega
    simpa using hbefore r.val hlt

/-- `reparent`: pass the children of `p` to init. -/
def reparent (s : State) (p : Slot) : Slot → Proc := fun q =>
  if (s.procs q).parent = some p then
    { s.procs q with parent := some s.initproc }
  else
    s.procs q

/-- `exit` from `reparent` on; `init` must not exit. -/
def exit (s : State) (p : Slot) (status : Int) : Option State :=
  if p = s.initproc then
    none
  else
    some { s with
        procs := update (reparent s p) p
          { reparent s p p with xstate := status, state := .ZOMBIE } }

/-- The exited child that `wait` finds first. -/
def zombieChild (s : State) (p : Slot) : Option Slot :=
  (List.finRange NPROC).find? fun pp =>
    (s.procs pp).parent = some p ∧ (s.procs pp).state = .ZOMBIE

/-- `wait` at a moment at which it returns; `copied` says whether `copyout` of the status succeeded
(or was not asked for). -/
def wait (s : State) (p : Slot) (copied : Bool) : Option State :=
  match zombieChild s p with
  | some pp =>
    if copied then
      some { s with procs := update s.procs pp (freeproc (s.procs pp)) }
    else
      some s
  | none =>
    if (∀ pp, (s.procs pp).parent ≠ some p) ∨ (s.procs p).killed ≠ 0 then some s else none

/-! ## System calls -/

abbrev SYS_fork : Nat := 1
abbrev SYS_exit : Nat := 2
abbrev SYS_wait : Nat := 3
abbrev SYS_kill : Nat := 6
abbrev SYS_getpid : Nat := 11
abbrev SYS_trace : Nat := 22

/-- The entries of `syscalls[]`. -/
abbrev NSYSCALLS : Nat := 24

/-- The test of `syscall()`: `p->mask & (1 << num)`. -/
def traced (mask : BitVec 32) (num : Nat) : Bool :=
  (mask &&& (1#32 <<< num)) != 0

/-- What a process, or the kernel on its behalf, does next. -/
inductive Act
  | scheduler (p : Slot)
  | yield (p : Slot)
  | sleep (p : Slot)
  | wakeup (p : Slot)
  /-- `fork` up to the release of `np->lock`; `mem` is false when an allocation fails. -/
  | forkAlloc (p np : Slot) (mem : Bool)
  /-- `fork` when `allocproc` met no free slot. -/
  | forkNoProc (p : Slot)
  | forkParent (p : Slot)
  | forkRunnable (p : Slot)
  | forkMask (p : Slot)
  | trace (p : Slot) (mask : BitVec 32)
  | exit (p : Slot) (status : Int)
  /-- `exit(-1)` from `usertrap` because `p->killed` is set. -/
  | exitKilled (p : Slot)
  /-- `setkilled` from `usertrap` after an unexpected trap. -/
  | setkilled (p : Slot)
  | wait (p : Slot) (copied : Bool)
  | kill (p : Slot) (pid : Int32)
  /-- Any other system call, or one of those above failing early, as it returns. -/
  | other (p : Slot) (num : Nat)
  deriving DecidableEq

/-- `p` runs and is not inside `fork`. -/
def Ready (s : State) (p : Slot) : Prop :=
  (s.procs p).state = .RUNNING ∧ s.ctl p = .user

instance (s : State) (p : Slot) : Decidable (Ready s p) :=
  inferInstanceAs (Decidable (_ ∧ _))

/-- Move a process from one scheduling state to another. -/
def setState (s : State) (p : Slot) (old new : ProcState) : Option State :=
  if (s.procs p).state = old then
    some { s with procs := update s.procs p { s.procs p with state := new } }
  else
    none

/-- One step of the process table. -/
def step (s : State) : Act → Option State
  | .scheduler p => setState s p .RUNNABLE .RUNNING
  | .yield p => setState s p .RUNNING .RUNNABLE
  | .sleep p => setState s p .RUNNING .SLEEPING
  | .wakeup p => setState s p .SLEEPING .RUNNABLE
  | .forkAlloc p np mem =>
    if Ready s p ∧ (s.procs np).state = .UNUSED then
      let s' := allocproc s np
      if mem then
        some { s' with ctl := update s'.ctl p (.forkParent np) }
      else
        some { s' with procs := update s'.procs np (freeproc (s'.procs np)) }
    else
      none
  | .forkNoProc p => if Ready s p then some s else none
  | .forkParent p =>
    match s.ctl p with
    | .forkParent np =>
      if (s.procs p).state = .RUNNING then
        some { s with
            procs := update s.procs np { s.procs np with parent := some p }
            ctl := update s.ctl p (.forkRunnable np) }
      else
        none
    | _ => none
  | .forkRunnable p =>
    match s.ctl p with
    | .forkRunnable np =>
      if (s.procs p).state = .RUNNING then
        some { s with
            procs := update s.procs np { s.procs np with state := .RUNNABLE }
            ctl := update s.ctl p (.forkMask np) }
      else
        none
    | _ => none
  | .forkMask p =>
    match s.ctl p with
    | .forkMask np =>
      if (s.procs p).state = .RUNNING then
        some { s with
            procs := update s.procs np { s.procs np with mask := (s.procs p).mask }
            ctl := update s.ctl p .user }
      else
        none
    | _ => none
  | .trace p mask =>
    if Ready s p then
      some { s with procs := update s.procs p { s.procs p with mask := mask } }
    else
      none
  | .exit p status => if Ready s p then exit s p status else none
  | .exitKilled p => if Ready s p ∧ (s.procs p).killed ≠ 0 then exit s p (-1) else none
  | .setkilled p =>
    if Ready s p then
      some { s with procs := update s.procs p { s.procs p with killed := 1 } }
    else
      none
  | .wait p copied => if Ready s p then wait s p copied else none
  | .kill p pid => if Ready s p then some { s with procs := (kill s.procs pid).1 } else none
  | .other p num =>
    if Ready s p ∧ 0 < num ∧ num < NSYSCALLS ∧ num ≠ SYS_exit ∧ num ≠ SYS_trace then
      some s
    else
      none

/-! ## What a step can do -/

/-- The scheduling steps: which process moves, from where to where. -/
def Act.move : Act → Option (Slot × ProcState × ProcState)
  | .scheduler p => some (p, .RUNNABLE, .RUNNING)
  | .yield p => some (p, .RUNNING, .RUNNABLE)
  | .sleep p => some (p, .RUNNING, .SLEEPING)
  | .wakeup p => some (p, .SLEEPING, .RUNNABLE)
  | _ => none

variable {a : Act} {p : Slot} {s t : State}

/-- Scheduling moves processes that are alive and past `fork`'s preparation, and keeps them so. -/
theorem Act.move_live {old new : ProcState} (h : a.move = some (p, old, new)) :
    (old = .RUNNING ∨ old = .RUNNABLE ∨ old = .SLEEPING) ∧
      (new = .RUNNING ∨ new = .RUNNABLE ∨ new = .SLEEPING) := by
  cases a <;> simp_all [Act.move]

/-- The steps of the table with their guards and results, one constructor for each effect. -/
inductive Steps (s : State) : Act → State → Prop where
  | move {a : Act} {p : Slot} {old new : ProcState} (hmove : a.move = some (p, old, new))
      (hold : (s.procs p).state = old) :
      Steps s a { s with procs := update s.procs p { s.procs p with state := new } }
  | forkAlloc {p np : Slot} (hready : Ready s p) (hfree : (s.procs np).state = .UNUSED) :
      Steps s (.forkAlloc p np true) { allocproc s np with ctl := update s.ctl p (.forkParent np) }
  | forkNoMem {p np : Slot} (hready : Ready s p) (hfree : (s.procs np).state = .UNUSED) :
      Steps s (.forkAlloc p np false) { s with
          procs := update s.procs np (freeproc (s.procs np))
          nextpid := s.nextpid + 1 }
  | forkParent {p np : Slot} (hctl : s.ctl p = .forkParent np)
      (hrun : (s.procs p).state = .RUNNING) :
      Steps s (.forkParent p) { s with
          procs := update s.procs np { s.procs np with parent := some p }
          ctl := update s.ctl p (.forkRunnable np) }
  | forkRunnable {p np : Slot} (hctl : s.ctl p = .forkRunnable np)
      (hrun : (s.procs p).state = .RUNNING) :
      Steps s (.forkRunnable p) { s with
          procs := update s.procs np { s.procs np with state := .RUNNABLE }
          ctl := update s.ctl p (.forkMask np) }
  | forkMask {p np : Slot} (hctl : s.ctl p = .forkMask np) (hrun : (s.procs p).state = .RUNNING) :
      Steps s (.forkMask p) { s with
          procs := update s.procs np { s.procs np with mask := (s.procs p).mask }
          ctl := update s.ctl p .user }
  | trace {p : Slot} {mask : BitVec 32} (hready : Ready s p) : Steps s (.trace p mask)
        { s with procs := update s.procs p { s.procs p with mask := mask } }
  | exit {a : Act} {p : Slot} {status : Int} (ha : a = .exit p status ∨ a = .exitKilled p)
      (hready : Ready s p) (hinit : p ≠ s.initproc) :
      Steps s a { s with
          procs := update (reparent s p) p
            { reparent s p p with xstate := status, state := .ZOMBIE } }
  | setkilled {p : Slot} (hready : Ready s p) : Steps s (.setkilled p)
        { s with procs := update s.procs p { s.procs p with killed := 1 } }
  | reap {p pp : Slot} {copied : Bool} (hready : Ready s p)
      (hchild : (s.procs pp).parent = some p) (hzombie : (s.procs pp).state = .ZOMBIE) :
      Steps s (.wait p copied) { s with procs := update s.procs pp (freeproc (s.procs pp)) }
  | kill {p : Slot} {pid : Int32} (hready : Ready s p) :
      Steps s (.kill p pid) { s with procs := (kill s.procs pid).1 }
  | skip {a : Act} {p : Slot} (ha : a = .forkNoProc p ∨ (∃ copied, a = .wait p copied) ∨
      ∃ num, num ≠ SYS_exit ∧ num < NSYSCALLS ∧ a = .other p num) (hready : Ready s p) :
      Steps s a s

theorem steps_of_setState {old new : ProcState}
    (hmove : a.move = some (p, old, new)) (h : setState s p old new = some t) : Steps s a t := by
  unfold setState at h
  split at h
  · cases h
    exact .move hmove ‹_›
  · cases h

theorem steps_of_exit {status : Int}
    (ha : a = .exit p status ∨ a = .exitKilled p) (hready : Ready s p)
    (h : exit s p status = some t) : Steps s a t := by
  unfold exit at h
  split at h
  · cases h
  · cases h
    exact .exit ha hready ‹_›

theorem steps_of_wait {copied : Bool} (hready : Ready s p)
    (h : wait s p copied = some t) : Steps s (.wait p copied) t := by
  have hskip : Steps s (.wait p copied) s := .skip (.inr (.inl ⟨copied, rfl⟩)) hready
  unfold wait at h
  cases hz : zombieChild s p with
  | none =>
    simp only [hz] at h
    split at h
    · cases h
      exact hskip
    · cases h
  | some pp =>
    have hpp : (s.procs pp).parent = some p ∧ (s.procs pp).state = .ZOMBIE := by
      simpa [zombieChild] using List.find?_some hz
    simp only [hz] at h
    split at h
    · cases h
      exact .reap hready hpp.1 hpp.2
    · cases h
      exact hskip

/-- Everything `step` can do is one of the steps above. -/
theorem steps_of_step (h : step s a = some t) : Steps s a t := by
  cases a with
  | scheduler p => exact steps_of_setState rfl h
  | yield p => exact steps_of_setState rfl h
  | sleep p => exact steps_of_setState rfl h
  | wakeup p => exact steps_of_setState rfl h
  | forkAlloc p np mem =>
    simp only [step] at h
    split at h
    · rename_i hguard
      cases mem with
      | true =>
        cases h
        exact .forkAlloc hguard.1 hguard.2
      | false =>
        cases h
        simpa [allocproc, freeproc] using Steps.forkNoMem hguard.1 hguard.2
    · cases h
  | forkNoProc p =>
    simp only [step] at h
    split at h
    · cases h
      exact .skip (.inl rfl) ‹_›
    · cases h
  | forkParent p =>
    simp only [step] at h
    split at h
    · split at h
      · cases h
        exact .forkParent ‹_› ‹_›
      · cases h
    · cases h
  | forkRunnable p =>
    simp only [step] at h
    split at h
    · split at h
      · cases h
        exact .forkRunnable ‹_› ‹_›
      · cases h
    · cases h
  | forkMask p =>
    simp only [step] at h
    split at h
    · split at h
      · cases h
        exact .forkMask ‹_› ‹_›
      · cases h
    · cases h
  | trace p mask =>
    simp only [step] at h
    split at h
    · cases h
      exact .trace ‹_›
    · cases h
  | exit p status =>
    simp only [step] at h
    split at h
    · exact steps_of_exit (.inl rfl) ‹_› h
    · cases h
  | exitKilled p =>
    simp only [step] at h
    split at h
    · rename_i hguard
      exact steps_of_exit (.inr rfl) hguard.1 h
    · cases h
  | setkilled p =>
    simp only [step] at h
    split at h
    · cases h
      exact .setkilled ‹_›
    · cases h
  | wait p copied =>
    simp only [step] at h
    split at h
    · exact steps_of_wait ‹_› h
    · cases h
  | kill p pid =>
    simp only [step] at h
    split at h
    · cases h
      exact .kill ‹_›
    · cases h
  | other p num =>
    simp only [step] at h
    split at h
    · rename_i hguard
      cases h
      exact .skip (.inr (.inr ⟨num, hguard.2.2.2.1, hguard.2.2.1, rfl⟩)) hguard.1
    · cases h

/-- `userinit`: the first process, about to be scheduled, in an otherwise zero table. -/
def boot : State :=
  { procs := update (fun _ => Proc.zero) 0 { Proc.zero with pid := 1, state := .RUNNABLE }
    ctl := fun _ => .user
    nextpid := 2
    initproc := 0 }

end Xv6.ProcTable
