import Xv6.Lib.RingBuf
import Xv6.Lib.Transition

/-!
# Model — the pipes of `kernel/pipe.c`

One pipe with the descriptors and the calls of any number of processes.  A step is a stretch of a
call under `pi->lock`, from `acquire` to `sleep` or to the return, or a call on a descriptor.  What
`killed(pr)` answers is left open, and so is what `copyin` and `copyout` find at the user
addresses.
-/

namespace Xv6.Pipes

open Lib
open Function (update)

abbrev PIPESIZE : Nat := 512

/-- `struct pipe` -/
structure Pipe extends RingBuf UInt8 where
  readopen : Bool
  writeopen : Bool

/-- `pi->data[pi->nwrite++ % PIPESIZE] = ch` -/
def Pipe.put (pi : Pipe) (ch : UInt8) : Pipe :=
  { pi with toRingBuf := pi.toRingBuf.put PIPESIZE (2 ^ 32) ch }

/-- `pi->nread++` -/
def Pipe.take (pi : Pipe) : Pipe :=
  { pi with toRingBuf := pi.toRingBuf.take (2 ^ 32) }

/-! ## The loops -/

/-- How a stretch of `pipewrite` ends. -/
inductive Stop
  | sleep
  | fail
  | finish
  deriving DecidableEq

/-- The loop of `pipewrite` with `rem` bytes to go, and the bytes it puts in.  `src` is the user
buffer and `killed` answers for each iteration. -/
def pipewriteLoop (src : Nat → Option UInt8) (killed : Nat → Bool) :
    Nat → Nat → Pipe → Pipe × List UInt8 × Stop
  | 0, _, pi => (pi, [], .finish)
  | rem + 1, i, pi =>
    if pi.readopen = false ∨ killed i = true then
      (pi, [], .fail)
    else if pi.nwrite = (pi.nread + PIPESIZE) % 2 ^ 32 then
      (pi, [], .sleep)
    else
      match src i with
      | none => (pi, [], .finish)
      | some ch =>
        let r := pipewriteLoop src killed rem (i + 1) (pi.put ch)
        (r.1, ch :: r.2.1, r.2.2)

/-- The copying loop of `piperead` with `rem` bytes to go, the bytes it takes out and the value of
`i` at its end.  `dst` says which bytes of the user buffer can be written. -/
def pipereadLoop (dst : Nat → Bool) : Nat → Nat → Pipe → Pipe × List UInt8 × Nat
  | 0, i, pi => (pi, [], i)
  | rem + 1, i, pi =>
    if pi.nread = pi.nwrite then
      (pi, [], i)
    else
      let ch := pi.data (pi.nread % PIPESIZE)
      if dst i then
        let r := pipereadLoop dst rem (i + 1) pi.take
        (r.1, ch :: r.2.1, r.2.2)
      else
        (pi.take, [ch], i)

/-! ## Calls -/

/-- Where a call stands: about to take `pi->lock`, asleep, or with its return value. -/
inductive Phase
  | ready
  | asleep
  | done (ret : Int)
  deriving DecidableEq

/-- A call of `pipewrite`, with the number `i` of bytes it has written, or of `piperead`. -/
inductive Call
  | write (src : Nat → Option UInt8) (n : Int) (i : Nat) (phase : Phase)
  | read (dst : Nat → Bool) (n : Int) (phase : Phase)

/-- The end that a call is on. -/
def Call.writable : Call → Bool
  | .write .. => true
  | .read .. => false

/-- `wakeup(&pi->nread)` for `false`, `wakeup(&pi->nwrite)` for `true`. -/
def Call.wakeup (writable : Bool) : Call → Call
  | .write src n i .asleep => if writable then .write src n i .ready else .write src n i .asleep
  | .read dst n .asleep => if writable then .read dst n .asleep else .read dst n .ready
  | c => c

/-- The pipe, what the processes have of it, and every call made on it. -/
structure St (ι : Type) where
  pipe : Pipe
  /-- `ref` of the two files. -/
  ref : Bool → Nat
  /-- The descriptors of each process for the two files. -/
  fds : ι → Bool → Nat
  /-- The call that a process is in. -/
  busy : ι → Option Nat
  call : Nat → Option Call
  /-- The bytes that were put into `data`, with the calls that did it. -/
  put : List (Nat × UInt8)
  /-- The bytes that were taken out of `data`, with the calls that did it. -/
  taken : List (Nat × UInt8)

variable {ι : Type} [DecidableEq ι]

namespace St

def wakeup (s : St ι) (writable : Bool) : St ι :=
  { s with call := fun c => (s.call c).map (Call.wakeup writable) }

def setCall (s : St ι) (c : Nat) (x : Call) : St ι :=
  { s with call := update s.call c (some x) }

def setFds (s : St ι) (p : ι) (writable : Bool) (n : Nat) : St ι :=
  { s with fds := update s.fds p (update (s.fds p) writable n) }

def setRef (s : St ι) (writable : Bool) (n : Nat) : St ι :=
  { s with ref := update s.ref writable n }

end St

/-- `pipeclose`; the page is freed when both ends are closed. -/
def pipeclose (s : St ι) (writable : Bool) : St ι :=
  if writable then
    St.wakeup { s with pipe := { s.pipe with writeopen := false } } false
  else
    St.wakeup { s with pipe := { s.pipe with readopen := false } } true

/-- `fileclose` for a descriptor of `p`. -/
def fileclose (s : St ι) (p : ι) (writable : Bool) : St ι :=
  let t := (s.setFds p writable (s.fds p writable - 1)).setRef writable (s.ref writable - 1)
  if s.ref writable - 1 = 0 then pipeclose t writable else t

/-- `filedup` for a new descriptor of `p`. -/
def filedup (s : St ι) (p : ι) (writable : Bool) : St ι :=
  (s.setFds p writable (s.fds p writable + 1)).setRef writable (s.ref writable + 1)

/-- A stretch of `pipewrite`; it wakes the readers unless it fails. -/
def pipewrite (s : St ι) (c : Nat) (src : Nat → Option UInt8) (n : Int) (i : Nat)
    (killed : Nat → Bool) : St ι :=
  let r := pipewriteLoop src killed (n - i).toNat i s.pipe
  let i' := i + r.2.1.length
  let t := { s with pipe := r.1, put := s.put ++ r.2.1.map fun ch => (c, ch) }
  match r.2.2 with
  | .sleep => (t.wakeup false).setCall c (.write src n i' .asleep)
  | .fail => t.setCall c (.write src n i' (.done (-1)))
  | .finish => (t.wakeup false).setCall c (.write src n i' (.done i'))

/-- A stretch of `piperead`. -/
def piperead (s : St ι) (c : Nat) (dst : Nat → Bool) (n : Int) (killed : Bool) : St ι :=
  if s.pipe.nread = s.pipe.nwrite ∧ s.pipe.writeopen = true then
    if killed then
      s.setCall c (.read dst n (.done (-1)))
    else
      s.setCall c (.read dst n .asleep)
  else
    let r := pipereadLoop dst n.toNat 0 s.pipe
    let t := { s with pipe := r.1, taken := s.taken ++ r.2.1.map fun ch => (c, ch) }
    (t.wakeup true).setCall c (.read dst n (.done r.2.2))

/-! ## Steps -/

inductive Act (ι : Type)
  /-- `dup` by `p`. -/
  | dup (p : ι) (writable : Bool)
  /-- `fork` by `p` gives a descriptor to its child `q`. -/
  | fork (p q : ι) (writable : Bool)
  /-- `close` or `exit` by `p`. -/
  | close (p : ι) (writable : Bool)
  /-- `p` calls `pipewrite`; `c` is a number for the call. -/
  | write (p : ι) (c : Nat) (src : Nat → Option UInt8) (n : Int)
  | read (p : ι) (c : Nat) (dst : Nat → Bool) (n : Int)
  /-- The call of `p` gets `pi->lock`. -/
  | run (p : ι) (killed : Nat → Bool)
  /-- `kill` makes `p` runnable. -/
  | kill (p : ι)
  /-- The call of `p` returns. -/
  | ret (p : ι)

/-- `p` starts a call on an end it has open. -/
def start (s : St ι) (p : ι) (c : Nat) (x : Call) : Option (St ι) :=
  if s.busy p = none ∧ 0 < s.fds p x.writable ∧ (s.call c).isNone then
    some { s.setCall c x with busy := update s.busy p (some c) }
  else
    none

def step (s : St ι) : Act ι → Option (St ι)
  | .dup p w => if s.busy p = none ∧ 0 < s.fds p w then some (filedup s p w) else none
  | .fork p q w =>
    if s.busy p = none ∧ s.busy q = none ∧ 0 < s.fds p w then some (filedup s q w) else none
  | .close p w => if s.busy p = none ∧ 0 < s.fds p w then some (fileclose s p w) else none
  | .write p c src n => start s p c (.write src n 0 .ready)
  | .read p c dst n => start s p c (.read dst n .ready)
  | .run p killed =>
    match s.busy p with
    | none => none
    | some c =>
      match s.call c with
      | some (.write src n i .ready) => some (pipewrite s c src n i killed)
      | some (.read dst n .ready) => some (piperead s c dst n (killed 0))
      | _ => none
  | .kill p =>
    match s.busy p with
    | none => none
    | some c =>
      match s.call c with
      | some (.write src n i .asleep) => some (s.setCall c (.write src n i .ready))
      | some (.read dst n .asleep) => some (s.setCall c (.read dst n .ready))
      | _ => none
  | .ret p =>
    match s.busy p with
    | none => none
    | some c =>
      match s.call c with
      | some (.write _ _ _ (.done _)) | some (.read _ _ (.done _)) =>
        some { s with busy := update s.busy p none }
      | _ => none

/-- `pipealloc` by `p`; the page has whatever it had in it. -/
def alloc (p : ι) (data : Nat → UInt8) : St ι :=
  { pipe := { data := data, nread := 0, nwrite := 0, readopen := true, writeopen := true }
    ref := fun _ => 1
    fds := update (fun _ _ => 0) p fun _ => 1
    busy := fun _ => none
    call := fun _ => none
    put := []
    taken := [] }

end Xv6.Pipes
