import Xv6.Lib.Transition
import Xv6.Proc.Table

/-!
# Kernel — processes and CPUs at the level of locks

The scheduler, `sleep`, `wakeup` and `kill`, and the parts of `fork`, `exit` and `wait` that touch
the process table.  A step goes from one lock to the next: a stretch of code under a process's lock
is one step, and other locks are held over many.  A process that leaves its CPU keeps its own lock
until the scheduler has come back from `swtch`, so leaving and arriving are steps of their own.

An interrupt handler starts from the code of a user.  Those that come while the kernel runs, in
`scheduler` or between two locks of a call, are left out.

Memory, files and the data that a sleeping process waits for are outside of the model: what tests
of them say is left open.  A condition under a lock that a process waits for and others make true
is modelled for itself.
-/

namespace Xv6.Sched

open ProcTable (ProcState)
open Function (update)

/-! ## Sleeping -/

/-- The loops that stop waiting when the process is killed, apart from the one in `wait`; `k` is a
pipe. -/
inductive Loop
  | piperead (k : Nat)
  | pipewrite (k : Nat)
  | consoleread
  | sysSleep
  deriving DecidableEq

/-- The locks that a process may hold other than those of processes.  `monitor k` stands for any
lock under which conditions are tested and set. -/
inductive Lock
  | wait
  | pipe (k : Nat)
  | cons
  | ticks
  | monitor (k : Nat)
  deriving DecidableEq

/-- What a process sleeps on: itself in `wait`, or the address of a variable. -/
inductive Chan
  | proc (p : Slot)
  | nread (k : Nat)
  | nwrite (k : Nat)
  | cons
  | ticks
  | monitor (k b : Nat)
  deriving DecidableEq

def Loop.lock : Loop → Lock
  | .piperead k => .pipe k
  | .pipewrite k => .pipe k
  | .consoleread => .cons
  | .sysSleep => .ticks

def Loop.chan : Loop → Chan
  | .piperead k => .nread k
  | .pipewrite k => .nwrite k
  | .consoleread => .cons
  | .sysSleep => .ticks

/-- What a loop wakes before it ends. -/
def Loop.wakes : Loop → Option Chan
  | .piperead k => some (.nwrite k)
  | .pipewrite k => some (.nread k)
  | .consoleread => none
  | .sysSleep => none

/-! ## Processes -/

structure Proc where
  state : ProcState
  chan : Option Chan
  killed : Int
  xstate : Int
  pid : Int32
  parent : Option Slot
  deriving DecidableEq

def Proc.zero : Proc :=
  { state := .UNUSED, chan := none, killed := 0, xstate := 0, pid := 0, parent := none }

def freeproc (x : Proc) : Proc :=
  { x with state := .UNUSED, chan := none, killed := 0, xstate := 0, pid := 0, parent := none }

/-- What `wakeup` does to a process. -/
def wakeProc (chan : Option Chan) (x : Proc) : Proc :=
  if x.state = .SLEEPING ∧ x.chan = chan then { x with state := .RUNNABLE } else x

/-- What `kill` does to the process it has found. -/
def killProc (x : Proc) : Proc :=
  { x with killed := 1, state := if x.state = .SLEEPING then .RUNNABLE else x.state }

/-- Where the kernel code of a process stands.  Numbers are the indices of loops over `proc[]`. -/
inductive Pc
  /-- In user space, or anywhere in the kernel that does not matter here. -/
  | user
  | forkAlloc
  | forkParent (np : Slot)
  | forkSet (np : Slot)
  | forkRel (np : Slot)
  | forkRunnable (np : Slot)
  | exitStart (status : Int)
  | exitReparent (status : Int) (q : Nat)
  | exitWakeInit (status : Int) (q r : Nat)
  | exitWakeParent (status : Int) (chan : Option Slot) (r : Nat)
  | exitZombie (status : Int)
  | dead
  | waitStart (addr : Bool)
  | waitScan (addr : Bool) (pp : Nat) (havekids : Bool)
  | waitKilled (addr : Bool)
  | waitSleep (addr : Bool)
  /-- `wait` is about to return: the result, and the status it has copied out. -/
  | waitRel (pid : Int32) (status : Option Int)
  | killScan (pid : Int32) (q : Nat)
  | loopStart (l : Loop)
  | loopTop (l : Loop)
  | loopKilled (l : Loop)
  /-- `pipewrite` tests for a full pipe only after `killed`. -/
  | loopFull (k : Nat)
  | loopWake (k r : Nat)
  | loopSleep (l : Loop)
  | loopFinish (l : Loop) (r : Nat)
  | loopRel (l : Loop)
  /-- An interrupt handler or `pipeclose`, which wakes the processes in a loop. -/
  | wakeStart (l : Loop)
  | wakeScan (l : Loop) (r : Nat)
  | monStart (k : Nat)
  /-- Under the lock of a monitor: the conditions made true for which `wakeup` is still to be
  called, and those for which it has been called. -/
  | monSect (k : Nat) (dirty woken : List Nat)
  | monWake (k : Nat) (dirty woken : List Nat) (b r : Nat)
  | monRetry (k b : Nat)
  | monTest (k b : Nat)
  | monSleep (k b : Nat)
  /-- In `sleep`, to be continued by the reset of `chan`. -/
  | resume (pc : Pc)
  deriving DecidableEq

/-- Where a loop goes on when the process has not been killed. -/
def Loop.goOn : Loop → Pc
  | .pipewrite k => .loopFull k
  | l => .loopSleep l

/-- The lock that is held at a point of the code. -/
def Pc.holds : Pc → Option Lock
  | .forkSet _ | .forkRel _ => some .wait
  | .exitReparent _ _ | .exitWakeInit _ _ _ | .exitWakeParent _ _ _ | .exitZombie _ => some .wait
  | .waitScan _ _ _ | .waitKilled _ | .waitSleep _ | .waitRel _ _ => some .wait
  | .loopTop l | .loopKilled l | .loopSleep l | .loopFinish l _ | .loopRel l => some l.lock
  | .loopFull k | .loopWake k _ => some (.pipe k)
  | .wakeScan l _ => some l.lock
  | .monSect k _ _ | .monWake k _ _ _ _ | .monTest k _ | .monSleep k _ => some (.monitor k)
  | _ => none

/-- Where a process's kernel stack is. -/
inductive Switch
  | out
  /-- A CPU has switched to it, and its lock is still held. -/
  | arriving
  | on
  /-- Its state is set and its lock held, and `swtch` is next. -/
  | leaving
  deriving DecidableEq

/-- What a CPU does. -/
inductive Stage
  | scan
  /-- The scheduler has the lock of `p` and looks at its state. -/
  | got (p : Slot)
  /-- The kernel stack of `p` is in use. -/
  | on (p : Slot)
  /-- The scheduler has come back from `p`. -/
  | back (p : Slot)
  deriving DecidableEq

structure St where
  procs : Slot → Proc
  pc : Slot → Pc
  switch : Slot → Switch
  /-- The CPU that holds `p->lock`. -/
  plock : Slot → Option Cpu
  stage : Cpu → Stage
  /-- `c->proc` -/
  proc : Cpu → Option Slot
  /-- The process that holds a lock. -/
  lock : Lock → Option Slot
  /-- The conditions of the monitors. -/
  cond : Nat → Nat → Bool
  nextpid : Int32
  initproc : Slot

/-! ## The code -/

/-- What a process does next. -/
inductive Eff
  | goto (pc : Pc)
  | acquire (l : Lock) (pc : Pc)
  | release (l : Lock) (pc : Pc)
  /-- A stretch under the lock of `q` that makes it `x`. -/
  | touch (q : Slot) (x : Proc) (pc : Pc)
  /-- `allocproc` of slot `np`, with the pid. -/
  | alloc (np : Slot) (x : Proc) (pc : Pc)
  /-- `q->parent` is set, under `wait_lock`. -/
  | parent (q par : Slot) (pc : Pc)
  | cond (k b : Nat) (v : Bool) (pc : Pc)
  /-- Take the process's own lock, make it `x`, release `rel` and enter the scheduler. -/
  | leave (x : Proc) (rel : Option Lock) (pc : Pc)

/-- What the user program, the data or the hardware decide. -/
inductive Choice
  | go
  | yield
  | fork
  | exit (status : Int)
  | exitKilled
  | wait (addr : Bool)
  | kill (pid : Int32)
  | setkilled
  | loop (l : Loop)
  | wake (l : Loop)
  | monitor (k : Nat)
  /-- The slot that `allocproc` has found, and whether there was memory. -/
  | slot (np : Slot) (mem : Bool)
  /-- The outcome of a test of data outside of the model. -/
  | flag (b : Bool)
  | setCond (b : Nat) (v : Bool)
  | wakeCond (b : Nat)
  | test (b : Nat)
  deriving DecidableEq

/-- One round of `wakeup(chan)` by `p`. -/
def wakeup (s : St) (p : Slot) (chan : Option Chan) (r : Nat) (next done : Pc) : Eff :=
  if h : r < NPROC then
    if ⟨r, h⟩ = p then .goto next else .touch ⟨r, h⟩ (wakeProc chan (s.procs ⟨r, h⟩)) next
  else
    .goto done

/-- One round of `reparent`. -/
def reparent (s : St) (p : Slot) (status : Int) (q : Nat) : Eff :=
  if h : q < NPROC then
    if (s.procs ⟨q, h⟩).parent = some p then
      .parent ⟨q, h⟩ s.initproc (.exitWakeInit status q 0)
    else
      .goto (.exitReparent status (q + 1))
  else
    .goto (.exitWakeParent status (s.procs p).parent 0)

/-- One round of `wait`; `copied` says whether `copyout` succeeds. -/
def waitScan (s : St) (p : Slot) (addr : Bool) (pp : Nat) (havekids copied : Bool) : Eff :=
  if h : pp < NPROC then
    if (s.procs ⟨pp, h⟩).parent = some p then
      if (s.procs ⟨pp, h⟩).state = .ZOMBIE then
        if addr = true ∧ copied = false then
          .touch ⟨pp, h⟩ (s.procs ⟨pp, h⟩) (.waitRel (-1) none)
        else
          .touch ⟨pp, h⟩ (freeproc (s.procs ⟨pp, h⟩))
            (.waitRel (s.procs ⟨pp, h⟩).pid (if addr then some (s.procs ⟨pp, h⟩).xstate else none))
      else
        .touch ⟨pp, h⟩ (s.procs ⟨pp, h⟩) (.waitScan addr (pp + 1) true)
    else
      .goto (.waitScan addr (pp + 1) havekids)
  else
    .goto (if havekids then .waitKilled addr else .waitRel (-1) none)

/-- One round of `kill`. -/
def killScan (s : St) (pid : Int32) (q : Nat) : Eff :=
  if h : q < NPROC then
    if (s.procs ⟨q, h⟩).pid = pid then
      .touch ⟨q, h⟩ (killProc (s.procs ⟨q, h⟩)) .user
    else
      .touch ⟨q, h⟩ (s.procs ⟨q, h⟩) (.killScan pid (q + 1))
  else
    .goto .user

/-- `sleep(chan, lk)` up to `sched`; afterwards `lk` is taken again at `pc`. -/
def sleep (s : St) (p : Slot) (chan : Chan) (lk : Lock) (pc : Pc) : Eff :=
  .leave { s.procs p with chan := some chan, state := .SLEEPING } (some lk) (.resume pc)

/-- The next step of process `p` from a point of the code. -/
def code (s : St) (p : Slot) : Pc → Choice → Option Eff
  | .user, .fork => some (.goto .forkAlloc)
  | .user, .exit status => if p = s.initproc then none else some (.goto (.exitStart status))
  -- `usertrap` asks `killed` before it goes on.
  | .user, .exitKilled =>
    if p = s.initproc then
      none
    else
      some (.touch p (s.procs p) (if (s.procs p).killed ≠ 0 then .exitStart (-1) else .user))
  | .user, .wait addr => some (.goto (.waitStart addr))
  | .user, .kill pid => some (.goto (.killScan pid 0))
  | .user, .setkilled => some (.touch p { s.procs p with killed := 1 } .user)
  | .user, .loop l => some (.goto (.loopStart l))
  | .user, .wake l => some (.goto (.wakeStart l))
  | .user, .monitor k => some (.goto (.monStart k))
  | .forkAlloc, .slot np mem =>
    if (s.procs np).state = .UNUSED then
      let x := { s.procs np with pid := s.nextpid, state := .USED }
      some (if mem then .alloc np x (.forkParent np) else .alloc np (freeproc x) .user)
    else
      none
  | .forkAlloc, .go => some (.goto .user)
  | .forkParent np, .go => some (.acquire .wait (.forkSet np))
  | .forkSet np, .go => some (.parent np p (.forkRel np))
  | .forkRel np, .go => some (.release .wait (.forkRunnable np))
  | .forkRunnable np, .go => some (.touch np { s.procs np with state := .RUNNABLE } .user)
  | .exitStart status, .go => some (.acquire .wait (.exitReparent status 0))
  | .exitReparent status q, .go => some (reparent s p status q)
  | .exitWakeInit status q r, .go =>
    some (wakeup s p (some (.proc s.initproc)) r (.exitWakeInit status q (r + 1))
      (.exitReparent status (q + 1)))
  | .exitWakeParent status chan r, .go =>
    some (wakeup s p (chan.map .proc) r (.exitWakeParent status chan (r + 1)) (.exitZombie status))
  | .exitZombie status, .go =>
    some (.leave { s.procs p with xstate := status, state := .ZOMBIE } (some .wait) .dead)
  | .waitStart addr, .go => some (.acquire .wait (.waitScan addr 0 false))
  | .waitScan addr pp havekids, .flag copied => some (waitScan s p addr pp havekids copied)
  | .waitKilled addr, .go =>
    some (.touch p (s.procs p)
      (if (s.procs p).killed ≠ 0 then .waitRel (-1) none else .waitSleep addr))
  | .waitSleep addr, .go => some (sleep s p (.proc p) .wait (.waitStart addr))
  | .waitRel _ _, .go => some (.release .wait .user)
  | .killScan pid q, .go => some (killScan s pid q)
  | .loopStart l, .go => some (.acquire l.lock (.loopTop l))
  -- `pipewrite` asks `killed` first, the others find that they have to wait.
  | .loopTop l, .flag again => some (.goto (if again then .loopKilled l else .loopFinish l 0))
  -- The read end is closed.
  | .loopTop (.pipewrite k), .go => some (.goto (.loopRel (.pipewrite k)))
  | .loopKilled l, .go =>
    some (.touch p (s.procs p) (if (s.procs p).killed ≠ 0 then .loopRel l else l.goOn))
  | .loopFull k, .flag full =>
    some (.goto (if full then .loopWake k 0 else .loopTop (.pipewrite k)))
  | .loopFull k, .go => some (.goto (.loopFinish (.pipewrite k) 0))
  | .loopWake k r, .go =>
    some (wakeup s p (some (.nread k)) r (.loopWake k (r + 1)) (.loopSleep (.pipewrite k)))
  | .loopSleep l, .go => some (sleep s p l.chan l.lock (.loopStart l))
  | .loopFinish l r, .go =>
    match l.wakes with
    | some chan => some (wakeup s p (some chan) r (.loopFinish l (r + 1)) (.loopRel l))
    | none => some (.goto (.loopRel l))
  | .loopRel l, .go => some (.release l.lock .user)
  | .wakeStart l, .go => some (.acquire l.lock (.wakeScan l 0))
  | .wakeScan l r, .go => some (wakeup s p (some l.chan) r (.wakeScan l (r + 1)) (.loopRel l))
  | .monStart k, .go => some (.acquire (.monitor k) (.monSect k [] []))
  | .monSect k dirty woken, .setCond b v =>
    some (.cond k b v (.monSect k (if v = true ∧ b ∉ woken then b :: dirty else dirty) woken))
  | .monSect k dirty woken, .wakeCond b => some (.goto (.monWake k dirty woken b 0))
  | .monSect k dirty woken, .test b =>
    if s.cond k b then
      some (.goto (.monSect k dirty woken))
    else if dirty = [] then
      some (.goto (.monSleep k b))
    else
      none
  | .monSect k dirty _, .go => if dirty = [] then some (.release (.monitor k) .user) else none
  | .monWake k dirty woken b r, .go =>
    some (wakeup s p (some (.monitor k b)) r (.monWake k dirty woken b (r + 1))
      (.monSect k (dirty.filter (· ≠ b)) (b :: woken)))
  | .monRetry k b, .go => some (.acquire (.monitor k) (.monTest k b))
  | .monTest k b, .go =>
    some (.goto (if s.cond k b then .monSect k [] [] else .monSleep k b))
  | .monSleep k b, .go => some (sleep s p (.monitor k b) (.monitor k) (.monRetry k b))
  -- The timer interrupts a process that holds no lock.
  | pc, .yield =>
    if pc.holds = none then
      some (.leave { s.procs p with state := .RUNNABLE } none pc)
    else
      none
  | _, _ => none

/-! ## What the code can do -/

/-- The first points of the calls. -/
def Pc.Entry (s : St) (p : Slot) : Pc → Prop
  | .exitStart _ => p ≠ s.initproc
  | .forkAlloc | .waitStart _ | .loopStart _ | .wakeStart _ | .monStart _ => True
  | .killScan _ q => q = 0
  | _ => False

/-- The rounds of `wakeup`: the channel, the index, and the points after a round and at the end. -/
def Pc.waking (s : St) : Pc → Option (Option Chan × Nat × Pc × Pc)
  | .exitWakeInit status q r =>
    some (some (.proc s.initproc), r, .exitWakeInit status q (r + 1), .exitReparent status (q + 1))
  | .exitWakeParent status chan r =>
    some (chan.map .proc, r, .exitWakeParent status chan (r + 1), .exitZombie status)
  | .loopWake k r => some (some (.nread k), r, .loopWake k (r + 1), .loopSleep (.pipewrite k))
  | .loopFinish l r => l.wakes.map fun chan => (some chan, r, .loopFinish l (r + 1), .loopRel l)
  | .wakeScan l r => some (some l.chan, r, .wakeScan l (r + 1), .loopRel l)
  | .monWake k dirty woken b r =>
    some (some (.monitor k b), r, .monWake k dirty woken b (r + 1),
      .monSect k (dirty.filter (· ≠ b)) (b :: woken))
  | _ => none

/-- The places that call `wakeup`, one constructor for each. -/
inductive Waking (s : St) : Pc → Option Chan → Nat → Pc → Pc → Prop where
  | exitWakeInit {status : Int} {q r : Nat} :
      Waking s (.exitWakeInit status q r) (some (.proc s.initproc)) r
        (.exitWakeInit status q (r + 1)) (.exitReparent status (q + 1))
  | exitWakeParent {status : Int} {chan : Option Slot} {r : Nat} :
      Waking s (.exitWakeParent status chan r) (chan.map .proc) r
        (.exitWakeParent status chan (r + 1)) (.exitZombie status)
  | loopWake {k r : Nat} : Waking s (.loopWake k r) (some (.nread k)) r (.loopWake k (r + 1))
        (.loopSleep (.pipewrite k))
  | loopFinish {l : Loop} {chan : Chan} {r : Nat} (h : l.wakes = some chan) :
      Waking s (.loopFinish l r) (some chan) r (.loopFinish l (r + 1)) (.loopRel l)
  | wakeScan {l : Loop} {r : Nat} :
      Waking s (.wakeScan l r) (some l.chan) r (.wakeScan l (r + 1)) (.loopRel l)
  | monWake {k b r : Nat} {dirty woken : List Nat} :
      Waking s (.monWake k dirty woken b r) (some (.monitor k b)) r
        (.monWake k dirty woken b (r + 1)) (.monSect k (dirty.filter (· ≠ b)) (b :: woken))

variable {s : St} {pc : Pc} {p : Slot} {e : Eff}

theorem waking_cases {next done : Pc} {chan : Option Chan} {r : Nat}
    (h : pc.waking s = some (chan, r, next, done)) : Waking s pc chan r next done := by
  unfold Pc.waking at h
  split at h
  case h_4 l r =>
    rcases Option.map_eq_some_iff.1 h with ⟨chan, hchan, heq⟩
    cases heq
    exact .loopFinish hchan
  all_goals cases h
  all_goals constructor

/-- The steps of the code with what they depend on, one constructor for each. -/
inductive Code (s : St) (p : Slot) : Pc → Eff → Prop where
  | enter {pc : Pc} (h : pc.Entry s p) : Code s p .user (.goto pc)
  | trapKilled (hp : p ≠ s.initproc) (hk : (s.procs p).killed ≠ 0) :
      Code s p .user (.touch p (s.procs p) (.exitStart (-1)))
  | trap : Code s p .user (.touch p (s.procs p) .user)
  | setkilled : Code s p .user (.touch p { s.procs p with killed := 1 } .user)
  | forkAlloc {np : Slot} (h : (s.procs np).state = .UNUSED) : Code s p .forkAlloc
        (.alloc np { s.procs np with pid := s.nextpid, state := .USED } (.forkParent np))
  | forkFail {np : Slot} (h : (s.procs np).state = .UNUSED) : Code s p .forkAlloc (.alloc np
        (freeproc { s.procs np with pid := s.nextpid, state := .USED }) .user)
  | forkNone : Code s p .forkAlloc (.goto .user)
  | forkParent {np : Slot} : Code s p (.forkParent np) (.acquire .wait (.forkSet np))
  | forkSet {np : Slot} : Code s p (.forkSet np) (.parent np p (.forkRel np))
  | forkRel {np : Slot} : Code s p (.forkRel np) (.release .wait (.forkRunnable np))
  | forkRunnable {np : Slot} :
      Code s p (.forkRunnable np) (.touch np { s.procs np with state := .RUNNABLE } .user)
  | exitStart {status : Int} :
      Code s p (.exitStart status) (.acquire .wait (.exitReparent status 0))
  | exitChild {status : Int} {q : Slot} (h : (s.procs q).parent = some p) :
      Code s p (.exitReparent status q) (.parent q s.initproc (.exitWakeInit status q 0))
  | exitOther {status : Int} {q : Slot} (h : (s.procs q).parent ≠ some p) :
      Code s p (.exitReparent status q) (.goto (.exitReparent status (q + 1)))
  | exitAll {status : Int} {n : Nat} (h : NPROC ≤ n) :
      Code s p (.exitReparent status n) (.goto (.exitWakeParent status (s.procs p).parent 0))
  | wake {pc next done : Pc} {chan : Option Chan} {r : Slot}
      (hw : pc.waking s = some (chan, r.val, next, done)) (hr : r ≠ p) :
      Code s p pc (.touch r (wakeProc chan (s.procs r)) next)
  | wakeSelf {pc next done : Pc} {chan : Option Chan}
      (hw : pc.waking s = some (chan, p.val, next, done)) : Code s p pc (.goto next)
  | wakeEnd {pc next done : Pc} {chan : Option Chan} {n : Nat}
      (hw : pc.waking s = some (chan, n, next, done)) (h : NPROC ≤ n) : Code s p pc (.goto done)
  | exitZombie {status : Int} : Code s p (.exitZombie status)
        (.leave { s.procs p with xstate := status, state := .ZOMBIE } (some .wait) .dead)
  | waitStart {addr : Bool} : Code s p (.waitStart addr) (.acquire .wait (.waitScan addr 0 false))
  | waitReap {addr kids : Bool} {q : Slot} (h : (s.procs q).parent = some p)
      (hz : (s.procs q).state = .ZOMBIE) :
      Code s p (.waitScan addr q kids) (.touch q (freeproc (s.procs q))
        (.waitRel (s.procs q).pid (if addr then some (s.procs q).xstate else none)))
  | waitFault {kids : Bool} {q : Slot} (h : (s.procs q).parent = some p)
      (hz : (s.procs q).state = .ZOMBIE) :
      Code s p (.waitScan true q kids) (.touch q (s.procs q) (.waitRel (-1) none))
  | waitLive {addr kids : Bool} {q : Slot} (h : (s.procs q).parent = some p)
      (hz : (s.procs q).state ≠ .ZOMBIE) :
      Code s p (.waitScan addr q kids) (.touch q (s.procs q) (.waitScan addr (q + 1) true))
  | waitOther {addr kids : Bool} {q : Slot} (h : (s.procs q).parent ≠ some p) :
      Code s p (.waitScan addr q kids) (.goto (.waitScan addr (q + 1) kids))
  | waitEnd {addr kids : Bool} {n : Nat} (h : NPROC ≤ n) : Code s p (.waitScan addr n kids)
        (.goto (if kids then .waitKilled addr else .waitRel (-1) none))
  | waitKilled {addr : Bool} (hk : (s.procs p).killed ≠ 0) :
      Code s p (.waitKilled addr) (.touch p (s.procs p) (.waitRel (-1) none))
  | waitAlive {addr : Bool} (hk : (s.procs p).killed = 0) :
      Code s p (.waitKilled addr) (.touch p (s.procs p) (.waitSleep addr))
  | waitSleep {addr : Bool} :
      Code s p (.waitSleep addr) (sleep s p (.proc p) .wait (.waitStart addr))
  | waitRel {pid : Int32} {status : Option Int} :
      Code s p (.waitRel pid status) (.release .wait .user)
  | killHit {pid : Int32} {q : Slot} (h : (s.procs q).pid = pid) :
      Code s p (.killScan pid q) (.touch q (killProc (s.procs q)) .user)
  | killMiss {pid : Int32} {q : Slot} (h : (s.procs q).pid ≠ pid) :
      Code s p (.killScan pid q) (.touch q (s.procs q) (.killScan pid (q + 1)))
  | killEnd {pid : Int32} {n : Nat} (h : NPROC ≤ n) : Code s p (.killScan pid n) (.goto .user)
  | loopStart {l : Loop} : Code s p (.loopStart l) (.acquire l.lock (.loopTop l))
  | loopAgain {l : Loop} : Code s p (.loopTop l) (.goto (.loopKilled l))
  | loopFinish {l : Loop} : Code s p (.loopTop l) (.goto (.loopFinish l 0))
  | loopClosed {k : Nat} : Code s p (.loopTop (.pipewrite k)) (.goto (.loopRel (.pipewrite k)))
  | loopKilled {l : Loop} (hk : (s.procs p).killed ≠ 0) :
      Code s p (.loopKilled l) (.touch p (s.procs p) (.loopRel l))
  | loopAlive {l : Loop} (hk : (s.procs p).killed = 0) :
      Code s p (.loopKilled l) (.touch p (s.procs p) l.goOn)
  | loopFull {k : Nat} : Code s p (.loopFull k) (.goto (.loopWake k 0))
  | loopRoom {k : Nat} : Code s p (.loopFull k) (.goto (.loopTop (.pipewrite k)))
  | loopFault {k : Nat} : Code s p (.loopFull k) (.goto (.loopFinish (.pipewrite k) 0))
  | loopSleep {l : Loop} : Code s p (.loopSleep l) (sleep s p l.chan l.lock (.loopStart l))
  | loopQuiet {l : Loop} {r : Nat} (h : l.wakes = none) :
      Code s p (.loopFinish l r) (.goto (.loopRel l))
  | loopRel {l : Loop} : Code s p (.loopRel l) (.release l.lock .user)
  | wakeStart {l : Loop} : Code s p (.wakeStart l) (.acquire l.lock (.wakeScan l 0))
  | monStart {k : Nat} : Code s p (.monStart k) (.acquire (.monitor k) (.monSect k [] []))
  | monSet {k b : Nat} {v : Bool} {dirty woken : List Nat} :
      Code s p (.monSect k dirty woken) (.cond k b v
        (.monSect k (if v = true ∧ b ∉ woken then b :: dirty else dirty) woken))
  | monWake {k b : Nat} {dirty woken : List Nat} :
      Code s p (.monSect k dirty woken) (.goto (.monWake k dirty woken b 0))
  | monHolds {k b : Nat} {dirty woken : List Nat} (h : s.cond k b = true) :
      Code s p (.monSect k dirty woken) (.goto (.monSect k dirty woken))
  | monWait {k b : Nat} {woken : List Nat} (h : s.cond k b = false) :
      Code s p (.monSect k [] woken) (.goto (.monSleep k b))
  | monRel {k : Nat} {woken : List Nat} :
      Code s p (.monSect k [] woken) (.release (.monitor k) .user)
  | monRetry {k b : Nat} : Code s p (.monRetry k b) (.acquire (.monitor k) (.monTest k b))
  | monDone {k b : Nat} (h : s.cond k b = true) : Code s p (.monTest k b) (.goto (.monSect k [] []))
  | monAgain {k b : Nat} (h : s.cond k b = false) : Code s p (.monTest k b) (.goto (.monSleep k b))
  | monSleep {k b : Nat} :
      Code s p (.monSleep k b) (sleep s p (.monitor k b) (.monitor k) (.monRetry k b))
  | yield {pc : Pc} (h : pc.holds = none) :
      Code s p pc (.leave { s.procs p with state := .RUNNABLE } none pc)

/-- A round of `wakeup` is one of three steps. -/
theorem code_wakeup {next done : Pc} {chan : Option Chan} {r : Nat}
    (hw : pc.waking s = some (chan, r, next, done)) :
    Code s p pc (wakeup s p chan r next done) := by
  unfold wakeup
  split
  · rename_i h
    split
    · rename_i heq
      subst heq
      exact .wakeSelf hw
    · rename_i hne
      exact Code.wake (r := ⟨r, h⟩) hw hne
  · rename_i h
    exact .wakeEnd hw (Nat.le_of_not_lt h)

theorem code_reparent {status : Int} {q : Nat} :
    Code s p (.exitReparent status q) (reparent s p status q) := by
  unfold reparent
  split
  · rename_i h
    split
    · rename_i hq
      exact Code.exitChild (q := ⟨q, h⟩) hq
    · rename_i hq
      exact Code.exitOther (q := ⟨q, h⟩) hq
  · rename_i h
    exact .exitAll (Nat.le_of_not_lt h)

theorem code_waitScan {addr kids copied : Bool} {pp : Nat} :
    Code s p (.waitScan addr pp kids) (waitScan s p addr pp kids copied) := by
  unfold waitScan
  split
  · rename_i h
    split
    · rename_i hparent
      split
      · rename_i hz
        split
        · rename_i hfault
          rw [hfault.1]
          exact Code.waitFault (q := ⟨pp, h⟩) hparent hz
        · exact Code.waitReap (q := ⟨pp, h⟩) hparent hz
      · rename_i hz
        exact Code.waitLive (q := ⟨pp, h⟩) hparent hz
    · rename_i hparent
      exact Code.waitOther (q := ⟨pp, h⟩) hparent
  · rename_i h
    exact .waitEnd (Nat.le_of_not_lt h)

theorem code_killScan {pid : Int32} {q : Nat} : Code s p (.killScan pid q) (killScan s pid q) := by
  unfold killScan
  split
  · rename_i h
    split
    · rename_i hpid
      exact Code.killHit (q := ⟨q, h⟩) hpid
    · rename_i hpid
      exact Code.killMiss (q := ⟨q, h⟩) hpid
  · rename_i h
    exact .killEnd (Nat.le_of_not_lt h)

/-- The steps that depend on nothing outside of the model. -/
theorem code_go (h : code s p pc .go = some e) : Code s p pc e := by
  cases pc <;> try cases h
  -- The points with one way on.
  all_goals try first
    | exact .forkNone | exact .forkParent | exact .forkSet | exact .forkRel | exact .forkRunnable
    | exact .exitStart | exact code_reparent | exact code_wakeup rfl | exact .exitZombie
    | exact .waitStart | exact .waitSleep | exact .waitRel | exact code_killScan
    | exact .loopStart | exact .loopFault | exact .loopSleep | exact .loopRel
    | exact .wakeStart | exact .monStart | exact .monRetry | exact .monSleep
  case waitKilled addr =>
    split
    · rename_i hk
      exact .waitKilled hk
    · rename_i hk
      exact .waitAlive (not_not.1 hk)
  case loopTop l =>
    cases l <;> cases h
    exact .loopClosed
  case loopKilled l =>
    split
    · rename_i hk
      exact .loopKilled hk
    · rename_i hk
      exact .loopAlive (not_not.1 hk)
  case loopFinish l r =>
    change (match l.wakes with
      | some chan => some (wakeup s p (some chan) r (.loopFinish l (r + 1)) (.loopRel l))
      | none => some (.goto (.loopRel l))) = some e at h
    cases hwakes : l.wakes with
    | none =>
      simp only [hwakes, Option.some.injEq] at h
      subst h
      exact .loopQuiet hwakes
    | some chan =>
      simp only [hwakes, Option.some.injEq] at h
      subst h
      exact code_wakeup (by rw [Pc.waking, hwakes, Option.map_some])
  case monSect k dirty woken =>
    change (if dirty = [] then some (Eff.release (.monitor k) .user) else none) = some e at h
    split at h
    · rename_i hdirty
      cases h
      rw [hdirty]
      exact .monRel
    · cases h
  case monTest k b =>
    split
    · rename_i hcond
      exact .monDone hcond
    · rename_i hcond
      exact .monAgain (Bool.eq_false_iff.2 hcond)

theorem code_yield (h : code s p pc .yield = some e) : Code s p pc e := by
  have hcode : code s p pc .yield = if pc.holds = none then
      some (.leave { s.procs p with state := .RUNNABLE } none pc) else none := by
    cases pc <;> rfl
  rw [hcode] at h
  split at h
  · rename_i hholds
    cases h
    exact .yield hholds
  · cases h

/-- Everything `code` can do is one of the steps above. -/
theorem code_cases {x : Choice} (h : code s p pc x = some e) : Code s p pc e := by
  cases x with
  | go => exact code_go h
  | yield => exact code_yield h
  | fork | wait | kill | loop | wake | monitor =>
    cases pc <;> cases h
    first | exact .enter trivial | exact .enter rfl
  | exit status =>
    cases pc <;> try cases h
    change (if p = s.initproc then none else some (.goto (.exitStart status))) = some e at h
    split at h
    · cases h
    · rename_i hp
      cases h
      exact .enter hp
  | exitKilled =>
    cases pc <;> try cases h
    change (if p = s.initproc then none else some (.touch p (s.procs p)
      (if (s.procs p).killed ≠ 0 then .exitStart (-1) else .user))) = some e at h
    split at h
    · cases h
    · rename_i hp
      cases h
      split
      · rename_i hk
        exact .trapKilled hp hk
      · exact .trap
  | setkilled =>
    cases pc <;> cases h
    exact .setkilled
  | slot np mem =>
    cases pc <;> try cases h
    let x := { s.procs np with pid := s.nextpid, state := .USED }
    change (if (s.procs np).state = .UNUSED then
      some (if mem then .alloc np x (.forkParent np) else .alloc np (freeproc x) .user)
        else none) = some e at h
    split at h
    · rename_i hfree
      cases h
      split
      · exact .forkAlloc hfree
      · exact .forkFail hfree
    · cases h
  | flag b =>
    cases pc <;> cases h
    case waitScan.refl => exact code_waitScan
    case loopTop.refl =>
      split
      · exact .loopAgain
      · exact .loopFinish
    case loopFull.refl =>
      split
      · exact .loopFull
      · exact .loopRoom
  | setCond b v =>
    cases pc <;> cases h
    exact .monSet
  | wakeCond b =>
    cases pc <;> cases h
    exact .monWake
  | test b =>
    cases pc <;> try cases h
    case monSect k dirty woken =>
      change (if s.cond k b then some (Eff.goto (.monSect k dirty woken))
        else if dirty = [] then some (.goto (.monSleep k b)) else none) = some e at h
      split at h
      · rename_i hcond
        cases h
        exact .monHolds hcond
      · rename_i hcond
        split at h
        · rename_i hdirty
          cases h
          rw [hdirty]
          exact .monWait (Bool.eq_false_iff.2 hcond)
        · cases h

/-! ## Steps -/

namespace St

def setPc (s : St) (p : Slot) (pc : Pc) : St :=
  { s with pc := update s.pc p pc }

def setProc (s : St) (q : Slot) (x : Proc) : St :=
  { s with procs := update s.procs q x }

end St

/-- A step of process `p` on CPU `c`; it waits for the locks it needs. -/
def apply (s : St) (c : Cpu) (p : Slot) : Eff → Option St
  | .goto pc => some (s.setPc p pc)
  | .acquire l pc =>
    if s.lock l = none then
      some { s.setPc p pc with lock := update s.lock l (some p) }
    else
      none
  | .release l pc => some { s.setPc p pc with lock := update s.lock l none }
  | .touch q x pc => if s.plock q = none then some ((s.setProc q x).setPc p pc) else none
  | .alloc np x pc =>
    if s.plock np = none then
      some { ((s.setProc np x).setPc np .user).setPc p pc with nextpid := s.nextpid + 1 }
    else
      none
  | .parent q par pc =>
    some ((s.setProc q { s.procs q with parent := some par }).setPc p pc)
  | .cond k b v pc =>
    some { s.setPc p pc with cond := update s.cond k (update (s.cond k) b v) }
  | .leave x rel pc =>
    if s.plock p = none then
      some { (s.setProc p x).setPc p pc with
          plock := update s.plock p (some c)
          switch := update s.switch p .leaving
          lock := match rel with
            | some l => update s.lock l none
            | none => s.lock }
    else
      none

/-- The effects with what they wait for, one constructor for each. -/
inductive Applies (s : St) (c : Cpu) (p : Slot) : Eff → St → Prop where
  | goto {pc : Pc} : Applies s c p (.goto pc) (s.setPc p pc)
  | acquire {l : Lock} {pc : Pc} (hl : s.lock l = none) : Applies s c p (.acquire l pc)
        { s.setPc p pc with lock := update s.lock l (some p) }
  | release {l : Lock} {pc : Pc} :
      Applies s c p (.release l pc) { s.setPc p pc with lock := update s.lock l none }
  | touch {q : Slot} {x : Proc} {pc : Pc} (hq : s.plock q = none) :
      Applies s c p (.touch q x pc) ((s.setProc q x).setPc p pc)
  | alloc {np : Slot} {x : Proc} {pc : Pc} (hnp : s.plock np = none) :
      Applies s c p (.alloc np x pc)
        { ((s.setProc np x).setPc np .user).setPc p pc with nextpid := s.nextpid + 1 }
  | parent {q par : Slot} {pc : Pc} : Applies s c p (.parent q par pc)
        ((s.setProc q { s.procs q with parent := some par }).setPc p pc)
  | cond {k b : Nat} {v : Bool} {pc : Pc} : Applies s c p (.cond k b v pc)
        { s.setPc p pc with cond := update s.cond k (update (s.cond k) b v) }
  | leave {x : Proc} {rel : Option Lock} {pc : Pc} (hp : s.plock p = none) :
      Applies s c p (.leave x rel pc) { (s.setProc p x).setPc p pc with
          plock := update s.plock p (some c)
          switch := update s.switch p .leaving
          lock := match rel with
            | some l => update s.lock l none
            | none => s.lock }

theorem applies_of_apply {t : St} {c : Cpu} (h : apply s c p e = some t) : Applies s c p e t := by
  cases e with
  | goto | release | parent | cond =>
    cases h
    constructor
  | acquire | touch | alloc | leave =>
    simp only [apply] at h
    split at h
    · cases h
      constructor
      assumption
    · cases h

inductive Act
  /-- The scheduler takes the lock of `p`. -/
  | pick (c : Cpu) (p : Slot)
  /-- It switches to the process if that is runnable. -/
  | choose (c : Cpu)
  /-- The process that was switched to releases its lock. -/
  | arrive (c : Cpu)
  /-- The process takes its next step. -/
  | proc (c : Cpu) (x : Choice)
  /-- The process switches back to the scheduler. -/
  | swtch (c : Cpu)
  /-- The scheduler goes on. -/
  | back (c : Cpu)
  deriving DecidableEq

/-- What the process on CPU `c` does. -/
def effect (s : St) (c : Cpu) (x : Choice) : Option (Slot × Eff) :=
  match s.stage c with
  | .on p => if s.switch p = .on then (code s p (s.pc p) x).map fun e => (p, e) else none
  | _ => none

def step (s : St) : Act → Option St
  | .pick c p =>
    if s.stage c = .scan ∧ s.plock p = none then
      some { s with
          plock := update s.plock p (some c)
          stage := update s.stage c (.got p) }
    else
      none
  | .choose c =>
    match s.stage c with
    | .got p =>
      if (s.procs p).state = .RUNNABLE then
        some { s.setProc p { s.procs p with state := .RUNNING } with
            proc := update s.proc c (some p)
            stage := update s.stage c (.on p)
            switch := update s.switch p .arriving }
      else
        some { s with
            plock := update s.plock p none
            stage := update s.stage c .scan }
    | _ => none
  | .arrive c =>
    match s.stage c with
    | .on p =>
      if s.switch p = .arriving then
        let t := { s with
          plock := update s.plock p none
          switch := update s.switch p .on }
        match s.pc p with
        | .resume pc => some ((t.setProc p { s.procs p with chan := none }).setPc p pc)
        | _ => some t
      else
        none
    | _ => none
  | .proc c x => (effect s c x).bind fun y => apply s c y.1 y.2
  | .swtch c =>
    match s.stage c with
    | .on p =>
      if s.switch p = .leaving then
        some { s with
            switch := update s.switch p .out
            stage := update s.stage c (.back p) }
      else
        none
    | _ => none
  | .back c =>
    match s.stage c with
    | .back p =>
      some { s with
          proc := update s.proc c none
          plock := update s.plock p none
          stage := update s.stage c .scan }
    | _ => none

/-- The steps with what they depend on, one constructor for each. -/
inductive Steps (s : St) : Act → St → Prop where
  | pick {c : Cpu} {p : Slot} (hc : s.stage c = .scan) (hp : s.plock p = none) : Steps s (.pick c p)
        { s with
          plock := update s.plock p (some c)
          stage := update s.stage c (.got p) }
  | choose {c : Cpu} {p : Slot} (hc : s.stage c = .got p) (hp : (s.procs p).state = .RUNNABLE) :
      Steps s (.choose c) { s.setProc p { s.procs p with state := .RUNNING } with
          proc := update s.proc c (some p)
          stage := update s.stage c (.on p)
          switch := update s.switch p .arriving }
  | decline {c : Cpu} {p : Slot} (hc : s.stage c = .got p) (hp : (s.procs p).state ≠ .RUNNABLE) :
      Steps s (.choose c) { s with
          plock := update s.plock p none
          stage := update s.stage c .scan }
  | arrive {c : Cpu} {p : Slot} (hc : s.stage c = .on p) (hp : s.switch p = .arriving)
      (hpc : ∀ pc, s.pc p ≠ .resume pc) :
      Steps s (.arrive c) { s with
          plock := update s.plock p none
          switch := update s.switch p .on }
  | resume {c : Cpu} {p : Slot} {pc : Pc} (hc : s.stage c = .on p) (hp : s.switch p = .arriving)
      (hpc : s.pc p = .resume pc) :
      Steps s (.arrive c) { (s.setProc p { s.procs p with chan := none }).setPc p pc with
          plock := update s.plock p none
          switch := update s.switch p .on }
  | proc {c : Cpu} {p : Slot} {x : Choice} {e : Eff} {t : St} (hc : s.stage c = .on p)
      (hp : s.switch p = .on) (heff : effect s c x = some (p, e)) (hcode : Code s p (s.pc p) e)
      (happly : Applies s c p e t) : Steps s (.proc c x) t
  | swtch {c : Cpu} {p : Slot} (hc : s.stage c = .on p) (hp : s.switch p = .leaving) :
      Steps s (.swtch c) { s with
          switch := update s.switch p .out
          stage := update s.stage c (.back p) }
  | back {c : Cpu} {p : Slot} (hc : s.stage c = .back p) : Steps s (.back c) { s with
          proc := update s.proc c none
          plock := update s.plock p none
          stage := update s.stage c .scan }

theorem effect_eq_some {c : Cpu} {x : Choice} (h : effect s c x = some (p, e)) :
    s.stage c = .on p ∧ s.switch p = .on ∧ Code s p (s.pc p) e := by
  unfold effect at h
  split at h
  · rename_i q hc
    split at h
    · rename_i hq
      rcases Option.map_eq_some_iff.1 h with ⟨e', hcode, heq⟩
      cases heq
      exact ⟨hc, hq, code_cases hcode⟩
    · cases h
  · cases h

/-- Everything `step` can do is one of the steps above. -/
theorem steps_of_step {t : St} {a : Act} (h : step s a = some t) : Steps s a t := by
  cases a with
  | pick c p =>
    simp only [step] at h
    split at h
    · rename_i hguard
      cases h
      exact .pick hguard.1 hguard.2
    · cases h
  | choose c =>
    simp only [step] at h
    split at h
    · rename_i p hc
      split at h
      · rename_i hp
        cases h
        exact .choose hc hp
      · rename_i hp
        cases h
        exact .decline hc hp
    · cases h
  | arrive c =>
    simp only [step] at h
    split at h
    · rename_i p hc
      split at h
      · rename_i hp
        split at h
        · rename_i pc hpc
          cases h
          exact .resume hc hp hpc
        · rename_i hpc
          cases h
          exact .arrive hc hp fun pc heq => hpc pc heq
      · cases h
    · cases h
  | proc c x =>
    rcases Option.bind_eq_some_iff.1 h with ⟨⟨p, e⟩, heff, happly⟩
    rcases effect_eq_some heff with ⟨hc, hp, hcode⟩
    exact .proc hc hp heff hcode (applies_of_apply happly)
  | swtch c =>
    simp only [step] at h
    split at h
    · rename_i p hc
      split at h
      · rename_i hp
        cases h
        exact .swtch hc hp
      · cases h
    · cases h
  | back c =>
    simp only [step] at h
    split at h
    · rename_i p hc
      cases h
      exact .back hc
    · cases h

/-- The state when the first process has been made and the schedulers start. -/
def boot : St :=
  { procs := update (fun _ => Proc.zero) 0 { Proc.zero with pid := 1, state := .RUNNABLE }
    pc := fun _ => .user
    switch := fun _ => .out
    plock := fun _ => none
    stage := fun _ => .scan
    proc := fun _ => none
    lock := fun _ => none
    cond := fun _ _ => false
    nextpid := 2
    initproc := 0 }

end Xv6.Sched
