import Xv6.Lib.RingBuf
import Xv6.Lib.Transition

/-!
# Model — the console input of `kernel/console.c`

Characters arrive through `consoleintr` and leave through any number of calls of `consoleread`.  A
step is a character, or a stretch of a call under `cons.lock`, from `acquire` or a wakeup to `sleep`
or the return.  What the console prints is left out.
-/

namespace Xv6.Console

open Lib

abbrev INPUT_BUF_SIZE : Nat := 128

/-- `C(x)` -/
def C (x : Char) : UInt8 := UInt8.ofNat (x.toNat - '@'.toNat)

abbrev newline : UInt8 := 10

/-- `struct cons` -/
structure Cons where
  buf : Nat → UInt8
  r : Nat
  w : Nat
  e : Nat

/-! ## `consoleintr` -/

/-- The loop of `C('U')`.  Each turn brings `e` closer to `w`, so that `e - w` turns suffice. -/
def killLine : Nat → Cons → Cons
  | 0, s => s
  | fuel + 1, s =>
    if s.e ≠ s.w ∧ s.buf (usub s.e 1 % INPUT_BUF_SIZE) ≠ newline then
      killLine fuel { s with e := usub s.e 1 }
    else
      s

/-- The console after a character, and whether the readers are woken up. -/
def consoleintr (s : Cons) (c : UInt8) : Cons × Bool :=
  if c = C 'P' then
    (s, false)
  else if c = C 'U' then
    (killLine (usub s.e s.w) s, false)
  else if c = C 'H' ∨ c = 0x7f then
    if s.e ≠ s.w then ({ s with e := usub s.e 1 }, false) else (s, false)
  else if c ≠ 0 ∧ usub s.e s.r < INPUT_BUF_SIZE then
    -- `'\r'` is 13.
    let c := if c = 13 then newline else c
    let s := { s with
      buf := Function.update s.buf (s.e % INPUT_BUF_SIZE) c
      e := usucc s.e }
    if c = newline ∨ c = C 'D' ∨ usub s.e s.r = INPUT_BUF_SIZE then
      ({ s with w := s.e }, true)
    else
      (s, false)
  else
    (s, false)

/-! ## `consoleread` -/

/-- How a stretch of `consoleread` ends. -/
inductive Stop
  | sleep
  | fail
  | finish
  deriving DecidableEq

/-- The loop of `consoleread` with `n` bytes to go, the bytes it delivers and the value of `n` at
its end.  `dst` says which bytes of the buffer can be written, and `killed` whether the process is
killed. -/
def consolereadLoop (dst : Nat → Bool) (killed : Bool) (target : Nat) :
    Nat → Cons → Cons × List UInt8 × Nat × Stop
  | 0, s => (s, [], 0, .finish)
  | n + 1, s =>
    if s.r = s.w then
      (s, [], n + 1, if killed then .fail else .sleep)
    else
      let c := s.buf (s.r % INPUT_BUF_SIZE)
      let s := { s with r := usucc s.r }
      if c = C 'D' then
        (if n + 1 < target then { s with r := usub s.r 1 } else s, [], n + 1, .finish)
      else if dst (target - (n + 1)) = false then
        (s, [], n + 1, .finish)
      else if c = newline then
        (s, [c], n, .finish)
      else
        let x := consolereadLoop dst killed target n s
        (x.1, c :: x.2.1, x.2.2)

/-! ## The calls and the console together -/

/-- Where a call stands: about to take `cons.lock`, asleep on `cons.r`, or with its return value. -/
inductive Phase
  | ready
  | asleep
  | done (ret : Int)
  deriving DecidableEq

/-- A call of `consoleread`, with what it has delivered so far. -/
structure Call where
  dst : Nat → Bool
  target : Nat
  n : Nat
  got : List UInt8
  phase : Phase

/-- A call as it starts.  If `n` is negative, `target` and `n` agree when it returns `target - n`,
as they do if it is 0. -/
def Call.start (n : Int) (dst : Nat → Bool) : Call :=
  { dst, target := n.toNat, n := n.toNat, got := [], phase := .ready }

/-- The call after a stretch. -/
def Call.advance (x : Call) (r : List UInt8 × Nat × Stop) : Call :=
  { x with
    n := r.2.1
    got := x.got ++ r.1
    phase := match r.2.2 with
      | .sleep => .asleep
      | .fail => .done (-1)
      | .finish => .done (x.target - r.2.1) }

/-- `wakeup(&cons.r)` -/
def Call.wakeup (x : Call) : Call :=
  if x.phase = .asleep then { x with phase := .ready } else x

/-- What the calls need of a console, so that they can be put on the code's one or on another. -/
structure Device (σ : Type) where
  init : σ
  /-- The console after a character, and whether the readers are woken up. -/
  intr : σ → UInt8 → σ × Bool
  /-- A stretch of a call of a process that is killed or not. -/
  read : σ → Call → Bool → σ × List UInt8 × Nat × Stop

structure St (σ : Type) where
  cons : σ
  call : Nat → Option Call

inductive Act
  /-- A character arrives. -/
  | intr (c : UInt8)
  /-- `consoleread` is called. -/
  | consoleread (i : Nat) (n : Int) (dst : Nat → Bool)
  /-- A call goes on. -/
  | resume (i : Nat) (killed : Bool)
  /-- A sleeping process is made runnable by `kill`. -/
  | kill (i : Nat)

variable {σ : Type}

namespace St

def setCall (s : St σ) (i : Nat) (x : Call) : St σ :=
  { s with call := Function.update s.call i (some x) }

def wakeup (s : St σ) : St σ :=
  { s with call := fun i => (s.call i).map Call.wakeup }

end St

def step (D : Device σ) (s : St σ) : Act → Option (St σ)
  | .intr c =>
    let r := D.intr s.cons c
    some (if r.2 then St.wakeup { s with cons := r.1 } else { s with cons := r.1 })
  | .consoleread i n dst =>
    if (s.call i).isNone then some (s.setCall i (.start n dst)) else none
  | .resume i killed =>
    match s.call i with
    | none => none
    | some x =>
      if x.phase = .ready then
        let r := D.read s.cons x killed
        some (St.setCall { s with cons := r.1 } i (x.advance r.2))
      else
        none
  | .kill i =>
    match s.call i with
    | none => none
    | some x => some (s.setCall i x.wakeup)

def start (D : Device σ) : St σ :=
  { cons := D.init, call := fun _ => none }

/-- The console of `kernel/console.c`.  `cons` is in the bss, so that it is all zeros at boot. -/
def console : Device Cons where
  init := { buf := fun _ => 0, r := 0, w := 0, e := 0 }
  intr := consoleintr
  read s x killed := consolereadLoop x.dst killed x.target x.n s

end Xv6.Console
