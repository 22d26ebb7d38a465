import Xv6.Lib.Prog
import Xv6.Lib.Transition
import Xv6.Proc.Table

/-!
# Model — the file table and the descriptors of all processes

`kernel/file.c`, `pipealloc` of `kernel/pipe.c`, the calls of `kernel/sysfile.c` that make and close
descriptors, and what `fork`, `exit` and `wait` of `kernel/proc.c` do with them.  A step is one
completed call.

What other parts of the kernel answer is an argument of a call: the inode that a path leads to, the
memory that `kalloc` returns, the number of bytes that a pipe, a device or an inode transfers.
-/

namespace Xv6.Ftable

open Lib Prog
open ProcTable (ProcState)

/-! ## The state -/

/-- A slot of `ftable.file[NFILE]`. -/
abbrev Fp : Type := Fin NFILE

inductive FdType where
  | none
  | pipe
  | inode
  | device
  deriving DecidableEq

/-- What is open behind a file: an end of a pipe, or an inode. -/
inductive Obj where
  | pipe (pi : Nat) (writable : Bool)
  | inode (ip : Nat)
  deriving DecidableEq

/-- `struct file`. -/
structure File where
  type : FdType
  ref : Int
  readable : Bool
  writable : Bool
  pipe : Nat
  ip : Nat
  off : Nat
  major : Int
  /-- Which of the objects that have been opened it stands for; not part of the source. -/
  serial : Nat
  deriving DecidableEq

structure Proc where
  state : ProcState
  parent : Option Slot
  ofile : Fin NOFILE → Option Fp

structure St where
  file : Fp → File
  proc : Slot → Proc
  /-- What has been opened so far. -/
  opened : List Obj
  /-- The calls of `pipeclose` and `iput` that `fileclose` has made, with the number of the object
  for which it has made them. -/
  closed : List (Nat × Obj)

inductive Panic where
  | filedup
  | fileclose
  | fileread
  | filewrite
  | initExiting
  deriving DecidableEq

abbrev M : Type → Type := Prog St Panic

def St.putFile (s : St) (f : Fp) (x : File) : St :=
  { s with file := Function.update s.file f x }

def St.putProc (s : St) (p : Slot) (x : Proc) : St :=
  { s with proc := Function.update s.proc p x }

def St.putOfile (s : St) (p : Slot) (fd : Fin NOFILE) (r : Option Fp) : St :=
  s.putProc p { s.proc p with ofile := Function.update (s.proc p).ofile fd r }

def setFile (f : Fp) (g : File → File) : M Unit :=
  modify fun s => s.putFile f (g (s.file f))

def setProc (p : Slot) (g : Proc → Proc) : M Unit :=
  modify fun s => s.putProc p (g (s.proc p))

def setOfile (p : Slot) (fd : Fin NOFILE) (r : Option Fp) : M Unit :=
  modify fun s => s.putOfile p fd r

/-! ## Files -/

def filealloc : M (Option Fp) := do
  let tab ← gets (·.file)
  match (List.finRange NFILE).find? fun f => decide ((tab f).ref = 0) with
  | some f => do
    setFile f fun x => { x with ref := 1 }
    pure (some f)
  | none => pure none

def filedup (f : Fp) : M Unit := do
  let x ← gets (·.file f)
  if x.ref < 1 then
    halt .filedup
  else
    setFile f fun x => { x with ref := x.ref + 1 }

/-- The call of `pipeclose` or `iput` for the file `ff`. -/
def closeObj (ff : File) : M Unit :=
  if ff.type = .pipe then
    modify fun s => { s with closed := (ff.serial, .pipe ff.pipe ff.writable) :: s.closed }
  else if ff.type = .inode ∨ ff.type = .device then
    modify fun s => { s with closed := (ff.serial, .inode ff.ip) :: s.closed }
  else
    pure ()

def fileclose (f : Fp) : M Unit := do
  let ff ← gets (·.file f)
  if ff.ref < 1 then
    halt .fileclose
  else if ff.ref - 1 > 0 then
    setFile f fun x => { x with ref := x.ref - 1 }
  else do
    setFile f fun x => { x with ref := 0, type := .none }
    closeObj ff

/-- `io` is what `piperead`, the device or `readi` returns, and `dev` says which devices can be
read. -/
def fileread (f : Fp) (dev : Int → Bool) (io : Int) : M Int := do
  let x ← gets (·.file f)
  if x.readable = false then
    pure (-1)
  else
    match x.type with
    | .pipe => pure io
    | .device => pure (if x.major < 0 ∨ x.major ≥ NDEV ∨ dev x.major = false then -1 else io)
    | .inode => do
      if io > 0 then setFile f fun x => { x with off := (x.off + io.toNat) % 2 ^ 32 } else pure ()
      pure io
    | .none => halt .fileread

/-- The most that `filewrite` writes in one transaction. -/
def maxWrite : Nat :=
  ((MAXOPBLOCKS - 1 - 1 - 2) / 2) * BSIZE

/-- The loop of `filewrite` on an inode, with `io i` for what `writei` returns at position `i`. -/
def filewriteLoop (f : Fp) (n : Nat) (io : Nat → Int) : Nat → Nat → M Nat
  | 0, i => pure i
  | fuel + 1, i =>
    if i < n then do
      let n1 := min (n - i) maxWrite
      if io i > 0 then setFile f fun x => { x with off := (x.off + (io i).toNat) % 2 ^ 32 }
        else pure ()
      if io i ≠ n1 then pure i else filewriteLoop f n io fuel (i + n1)
    else
      pure i

def filewrite (f : Fp) (n : Int) (dev : Int → Bool) (io : Nat → Int) : M Int := do
  let x ← gets (·.file f)
  if x.writable = false then
    pure (-1)
  else
    match x.type with
    | .pipe => pure (io 0)
    | .device => pure (if x.major < 0 ∨ x.major ≥ NDEV ∨ dev x.major = false then -1 else io 0)
    | .inode => do
      let i ← filewriteLoop f n.toNat io n.toNat 0
      pure (if i = n then n else -1)
    | .none => halt .filewrite

/-! ## Descriptors -/

/-- `argfd`, for the value `fd` of the argument. -/
def argfd (p : Slot) (fd : Int) : M (Option (Fin NOFILE × Fp)) := do
  let ofile ← gets fun s => (s.proc p).ofile
  if h : 0 ≤ fd ∧ fd < NOFILE then
    pure ((ofile ⟨fd.toNat, toNat_lt h⟩).map fun f => (⟨fd.toNat, toNat_lt h⟩, f))
  else
    pure none

def fdalloc (p : Slot) (f : Fp) : M (Option (Fin NOFILE)) := do
  let ofile ← gets fun s => (s.proc p).ofile
  match (List.finRange NOFILE).find? fun fd => decide (ofile fd = none) with
  | some fd => do
    setOfile p fd (some f)
    pure (some fd)
  | none => pure none

def sysDup (p : Slot) (fd : Int) : M Int := do
  let a ← argfd p fd
  match a with
  | none => pure (-1)
  | some (_, f) => do
    let r ← fdalloc p f
    match r with
    | none => pure (-1)
    | some r => do
      filedup f
      pure r.val

def sysRead (p : Slot) (fd : Int) (dev : Int → Bool) (io : Int) : M Int := do
  let a ← argfd p fd
  match a with
  | none => pure (-1)
  | some (_, f) => fileread f dev io

def sysWrite (p : Slot) (fd : Int) (n : Int) (dev : Int → Bool) (io : Nat → Int) : M Int := do
  let a ← argfd p fd
  match a with
  | none => pure (-1)
  | some (_, f) => filewrite f n dev io

def sysClose (p : Slot) (fd : Int) : M Int := do
  let a ← argfd p fd
  match a with
  | none => pure (-1)
  | some (fd, f) => do
    setOfile p fd none
    fileclose f
    pure 0

/-! ## Opening -/

/-- The inode that `sys_open` has locked: what it needs of it. -/
structure Found where
  ip : Nat
  device : Bool
  major : Int

/-- The file `f` is `y`, and the object `o` is open behind it. -/
def St.openAs (s : St) (f : Fp) (y : File) (o : Obj) : St :=
  { s.putFile f { y with serial := s.opened.length } with opened := s.opened ++ [o] }

/-- Records that the object `o` is open behind the file `f`. -/
def noteOpen (f : Fp) (o : Obj) : M Unit :=
  modify fun s => s.openAs f (s.file f) o

/-- What `sys_open` writes to the file for the inode. -/
def File.asInode (x : File) (y : Found) (omode : Nat) : File :=
  { (if y.device then
      { x with type := .device, major := y.major }
    else
      { x with type := .inode, off := 0 }) with
    ip := y.ip
    readable := decide (omode &&& O_WRONLY = 0)
    writable := decide (omode &&& O_WRONLY ≠ 0 ∨ omode &&& O_RDWR ≠ 0) }

/-- The end of `sys_open`, from where it sets the type of the file. -/
def openFile (y : Found) (f : Fp) (omode : Nat) : M Unit := do
  setFile f (·.asInode y omode)
  noteOpen f (.inode y.ip)

/-- `sys_open`; without an inode the path or the mode was refused. -/
def sysOpen (p : Slot) (path : Option Found) (omode : Nat) : M Int :=
  match path with
  | none => pure (-1)
  | some x =>
    if x.device = true ∧ (x.major < 0 ∨ x.major ≥ NDEV) then
      pure (-1)
    else do
      let f ← filealloc
      match f with
      | none => pure (-1)
      | some f => do
        let fd ← fdalloc p f
        match fd with
        | none => do
          fileclose f
          pure (-1)
        | some fd => do
          openFile x f omode
          pure fd.val

/-- What `pipealloc` writes to the file for an end of the pipe `pi`. -/
def File.asPipe (x : File) (pi : Nat) (writable : Bool) : File :=
  { x with type := .pipe, readable := !writable, writable := writable, pipe := pi }

/-- The end of `pipealloc`: the two files of the pipe `pi`. -/
def openPipe (f0 f1 : Fp) (pi : Nat) : M Unit := do
  setFile f0 (·.asPipe pi false)
  noteOpen f0 (.pipe pi false)
  setFile f1 (·.asPipe pi true)
  noteOpen f1 (.pipe pi true)

/-- `pipealloc`, where `pi` is what `kalloc` returns. -/
def pipealloc (pi : Option Nat) : M (Option (Fp × Fp)) := do
  let f0 ← filealloc
  match f0 with
  | none => pure none
  | some f0 => do
    let f1 ← filealloc
    match f1 with
    | none => do
      fileclose f0
      pure none
    | some f1 =>
      match pi with
      | none => do
        fileclose f0
        fileclose f1
        pure none
      | some pi => do
        openPipe f0 f1 pi
        pure (some (f0, f1))

/-- `sys_pipe`; `copied` says whether both calls of `copyout` succeed. -/
def sysPipe (p : Slot) (pi : Option Nat) (copied : Bool) : M Int := do
  let r ← pipealloc pi
  match r with
  | none => pure (-1)
  | some (rf, wf) => do
    let fd0 ← fdalloc p rf
    match fd0 with
    | none => do
      fileclose rf
      fileclose wf
      pure (-1)
    | some fd0 => do
      let fd1 ← fdalloc p wf
      match fd1 with
      | none => do
        setOfile p fd0 none
        fileclose rf
        fileclose wf
        pure (-1)
      | some fd1 =>
        if copied then
          pure 0
        else do
          setOfile p fd0 none
          setOfile p fd1 none
          fileclose rf
          fileclose wf
          pure (-1)

/-! ## Processes -/

def freeproc (q : Slot) : M Unit :=
  setProc q fun x => { x with parent := none, state := .UNUSED }

/-- `allocproc`; `mem` says whether there is memory for the trapframe and the page table. -/
def allocproc (mem : Bool) : M (Option Slot) := do
  let proc ← gets (·.proc)
  match (List.finRange NPROC).find? fun q => decide ((proc q).state = .UNUSED) with
  | none => pure none
  | some q => do
    setProc q fun x => { x with state := .USED }
    if mem then
      pure (some q)
    else do
      freeproc q
      pure none

/-- The loop of `fork` that copies the descriptors. -/
def forkFiles (p q : Slot) : List (Fin NOFILE) → M Unit
  | [] => pure ()
  | fd :: l => do
    let x ← gets (·.proc p)
    match x.ofile fd with
    | none => forkFiles p q l
    | some f => do
      filedup f
      setOfile q fd (some f)
      forkFiles p q l

/-- `fork`; `copied` says whether `uvmcopy` succeeds.  The pid it returns is not modelled. -/
def fork (p : Slot) (mem copied : Bool) : M Int := do
  let r ← allocproc mem
  match r with
  | none => pure (-1)
  | some q =>
    if copied then do
      forkFiles p q (List.finRange NOFILE)
      setProc q fun x => { x with parent := some p }
      setProc q fun x => { x with state := .RUNNABLE }
      pure 0
    else do
      freeproc q
      pure (-1)

/-- The loop of `exit` that closes the open files. -/
def exitFiles (p : Slot) : List (Fin NOFILE) → M Unit
  | [] => pure ()
  | fd :: l => do
    let x ← gets (·.proc p)
    match x.ofile fd with
    | none => exitFiles p l
    | some f => do
      fileclose f
      setOfile p fd none
      exitFiles p l

/-- The children of `p` get `initproc`, slot 0, as their parent. -/
def reparent (p : Slot) : M Unit :=
  modify fun s => { s with
    proc := fun q => if (s.proc q).parent = some p then { s.proc q with parent := some 0 }
      else s.proc q }

def exit (p : Slot) : M Int :=
  if p = 0 then
    halt .initExiting
  else do
    exitFiles p (List.finRange NOFILE)
    reparent p
    setProc p fun x => { x with state := .ZOMBIE }
    pure 0

/-- `wait`, up to where it returns or sleeps; `copied` says whether `copyout` succeeds. -/
def wait (p : Slot) (copied : Bool) : M Int := do
  let proc ← gets (·.proc)
  match (List.finRange NPROC).find? fun q =>
      decide ((proc q).parent = some p ∧ (proc q).state = .ZOMBIE) with
  | none => pure (-1)
  | some q =>
    if copied then do
      freeproc q
      pure 0
    else
      pure (-1)

/-! ## Steps -/

inductive Call where
  | open (path : Option Found) (omode : Nat)
  | pipe (pi : Option Nat) (copied : Bool)
  | dup (fd : Int)
  | close (fd : Int)
  | read (fd : Int) (dev : Int → Bool) (io : Int)
  | write (fd n : Int) (dev : Int → Bool) (io : Nat → Int)
  | fork (mem copied : Bool)
  | exit
  | wait (copied : Bool)

/-- The call as process `p` makes it. -/
def Call.run (p : Slot) : Call → M Int
  | .open path omode => sysOpen p path omode
  | .pipe pi copied => sysPipe p pi copied
  | .dup fd => sysDup p fd
  | .close fd => sysClose p fd
  | .read fd dev io => sysRead p fd dev io
  | .write fd n dev io => sysWrite p fd n dev io
  | .fork mem copied => Ftable.fork p mem copied
  | .exit => Ftable.exit p
  | .wait copied => Ftable.wait p copied

/-- One completed call of a process; the changes of state that the scheduler makes are left out, so
that a process that may run is `RUNNABLE`. -/
def step (s : St) (a : Slot × Call) : Option St :=
  if (s.proc a.1).state = .RUNNABLE then
    (a.2.run a.1 s).state?
  else
    none

/-- The state after `userinit`. -/
def boot : St where
  file := fun _ =>
    { type := .none, ref := 0, readable := false, writable := false, pipe := 0, ip := 0, off := 0,
      major := 0, serial := 0 }
  proc := Function.update (fun _ => { state := .UNUSED, parent := none, ofile := fun _ => none }) 0
    { state := .RUNNABLE, parent := none, ofile := fun _ => none }
  opened := []
  closed := []

end Xv6.Ftable
