import Xv6.Fs.Dir

/-!
# Calls — the file table and the file system calls

`kernel/file.c` and `kernel/sysfile.c` without pipes, and what `exec` of `kernel/exec.c` and `fork`
and `exit` of `kernel/proc.c` do with files and directories.
-/

namespace Xv6.Fs

open Lib Prog
open Function (update)

/-! ## Files -/

def setFile (f : Fp) (g : File → File) : M Unit :=
  modify fun s => { s with ftable := update s.ftable f (g (s.ftable f)) }

def setProc (p : Slot) (g : Proc → Proc) : M Unit :=
  modify fun s => { s with proc := update s.proc p (g (s.proc p)) }

def filealloc : M (Option Fp) := do
  let tab ← gets (·.ftable)
  match (List.finRange NFILE).find? fun f => decide ((tab f).ref = 0) with
  | some f => do
    setFile f fun x => { x with ref := 1 }
    pure (some f)
  | none => pure none

def filedup (f : Fp) : M Unit := do
  let x ← gets (·.ftable f)
  if x.ref < 1 then
    halt .filedup
  else
    setFile f fun x => { x with ref := x.ref + 1 }

variable (sb : Superblock)

def fileclose (f : Fp) : M Unit := do
  let ff ← gets (·.ftable f)
  if ff.ref < 1 then
    halt .fileclose
  else if ff.ref - 1 > 0 then
    setFile f fun x => { x with ref := x.ref - 1 }
  else do
    setFile f fun x => { x with ref := 0, type := .none }
    if ff.type = .inode ∨ ff.type = .device then do
      beginOp
      iput sb ff.ip
      endOp
    else
      pure ()

/-- `io` is what a device driver returns. -/
def fileread (f : Fp) (dst : Nat → Bool) (n : Nat) (io : Int) : M Int := do
  let x ← gets (·.ftable f)
  if x.readable = false then
    pure (-1)
  else
    match x.type with
    | .none => halt .fileread
    | .device => pure io
    | .inode => do
      ilock sb x.ip
      let r ← readi sb x.ip dst x.off n
      setFile f fun x => if r.1 > 0 then { x with off := x.off + r.1.toNat } else x
      iunlock sb x.ip
      pure r.1

/-- What `stati` copies; `dev` is always the one device. -/
structure Stat where
  ino : Nat
  type : FileType
  nlink : Int
  size : Nat

def stati (q : Ip) : M Stat := do
  let ip ← gets (·.itable q)
  pure { ino := ip.inum, type := ip.copy.type, nlink := ip.copy.nlink, size := ip.copy.size }

/-- `ok` says whether `copyout` to the caller's buffer succeeds. -/
def filestat (f : Fp) (ok : Bool) : M Int := do
  let x ← gets (·.ftable f)
  if x.type = .inode ∨ x.type = .device then do
    ilock sb x.ip
    let _ ← stati x.ip
    iunlock sb x.ip
    pure (if ok then 0 else -1)
  else
    pure (-1)

/-- What `filewrite` writes in one operation. -/
def maxWrite : Nat :=
  (MAXOPBLOCKS - 1 - 1 - 2) / 2 * BSIZE

/-- The loop of `filewrite`, with the bytes from `i` on left; it returns the final `i`. -/
def filewriteLoop (f : Fp) (src : Nat → Option UInt8) (n : Nat) : Nat → Nat → M Nat
  | 0, i => pure i
  | fuel + 1, i =>
    if i < n then do
      let n1 := min (n - i) maxWrite
      beginOp
      let x ← gets (·.ftable f)
      ilock sb x.ip
      let r ← writei sb x.ip (fun j => src (i + j)) x.off n1
      setFile f fun x => if r > 0 then { x with off := x.off + r.toNat } else x
      iunlock sb x.ip
      endOp
      if r = n1 then filewriteLoop f src n fuel (i + n1) else pure i
    else
      pure i

def filewrite (f : Fp) (src : Nat → Option UInt8) (n io : Int) : M Int := do
  let x ← gets (·.ftable f)
  if x.writable = false then
    pure (-1)
  else
    match x.type with
    | .none => halt .filewrite
    | .device => pure io
    | .inode => do
      let i ← filewriteLoop sb f src n.toNat n.toNat 0
      pure (if (i : Int) = n then n else -1)

/-! ## Arguments -/

/-- A string in user memory, up to its NUL, or `none` if it cannot be read. -/
abbrev UserStr : Type := Option (List UInt8)

/-- `argstr(n, buf, MAXPATH)`. -/
def argstr (str : UserStr) : UserStr :=
  match str with
  | none => none
  | some l =>
    if (l.takeWhile (· ≠ 0)).length < MAXPATH then some (l.takeWhile (· ≠ 0)) else none

/-- `argfd`, for the value `fd` of the argument. -/
def argfd (p : Slot) (fd : Int) : M (Option (Fin NOFILE × Fp)) := do
  let ofile ← gets fun s => (s.proc p).ofile
  if h : 0 ≤ fd ∧ fd < NOFILE then
    pure ((ofile ⟨fd.toNat, toNat_lt h⟩).map fun f => (⟨fd.toNat, toNat_lt h⟩, f))
  else
    pure none

def fdalloc (p : Slot) (f : Fp) : M (Option (Fin NOFILE)) := do
  let ofile ← gets fun s => (s.proc p).ofile
  match (List.finRange NOFILE).find? fun fd => decide (ofile fd = none) with
  | some fd => do
    setProc p fun x => { x with ofile := update x.ofile fd (some f) }
    pure (some fd)
  | none => pure none

/-! ## Descriptors -/

def sysDup (p : Slot) (fd : Int) : M Int := do
  let a ← argfd p fd
  match a with
  | none => pure (-1)
  | some (_, f) => do
    let r ← fdalloc p f
    match r with
    | none => pure (-1)
    | some r => do
      filedup f
      pure r.val

def sysRead (p : Slot) (fd : Int) (dst : Nat → Bool) (n : Nat) (io : Int) : M Int := do
  let a ← argfd p fd
  match a with
  | none => pure (-1)
  | some (_, f) => fileread sb f dst n io

def sysWrite (p : Slot) (fd : Int) (src : Nat → Option UInt8) (n io : Int) : M Int := do
  let a ← argfd p fd
  match a with
  | none => pure (-1)
  | some (_, f) => filewrite sb f src n io

def sysFstat (p : Slot) (fd : Int) (ok : Bool) : M Int := do
  let a ← argfd p fd
  match a with
  | none => pure (-1)
  | some (_, f) => filestat sb f ok

def sysClose (p : Slot) (fd : Int) : M Int := do
  let a ← argfd p fd
  match a with
  | none => pure (-1)
  | some (fd, f) => do
    setProc p fun x => { x with ofile := update x.ofile fd none }
    fileclose sb f
    pure 0

/-! ## Names -/

/-- The label `bad` of `sys_link`. -/
def linkBad (ip : Ip) : M Int := do
  ilock sb ip
  setCopy ip fun d => { d with nlink := short (d.nlink - 1) }
  iupdate sb ip
  iunlockput sb ip
  endOp
  pure (-1)

/-- `sys_link` once the old name is found and its link counted. -/
def linkNew (p : Slot) (ip : Ip) (new : List UInt8) : M Int := do
  let r ← nameiparent sb p new
  match r with
  | none => linkBad sb ip
  | some (dp, name) => do
    ilock sb dp
    let i ← gets (·.itable ip)
    let ok ← dirlink sb dp name i.inum
    iunlockput sb dp
    if ok then do
      iput sb ip
      endOp
      pure 0
    else
      linkBad sb ip

def sysLink (p : Slot) (old new : UserStr) : M Int :=
  match argstr old, argstr new with
  | some old, some new => do
    beginOp
    let r ← namei sb p old
    match r with
    | none => do
      endOp
      pure (-1)
    | some ip => do
      ilock sb ip
      let i ← gets (·.itable ip)
      if i.copy.type = .dir then do
        iunlockput sb ip
        endOp
        pure (-1)
      else do
        setCopy ip fun d => { d with nlink := short (d.nlink + 1) }
        iupdate sb ip
        iunlock sb ip
        linkNew sb p ip new
  | _, _ => pure (-1)

/-- The loop of `isdirempty`. -/
def isdiremptyFrom (q : Ip) : Nat → Nat → M Bool
  | 0, _ => pure true
  | n + 1, off => do
    let dp ← gets (·.itable q)
    if off < dp.copy.size then do
      let de ← readDirent sb q off .isdiremptyReadi
      if de.inum = 0 then isdiremptyFrom q n (off + DESIZE) else pure false
    else
      pure true

def isdirempty (q : Ip) : M Bool := do
  let dp ← gets (·.itable q)
  isdiremptyFrom sb q dp.copy.size (2 * DESIZE)

/-- The label `bad` of `sys_unlink`. -/
def unlinkBad (dp : Ip) : M Int := do
  iunlockput sb dp
  endOp
  pure (-1)

/-- The end of `sys_unlink`: the entry at `off` of `dp` is cleared. -/
def unlinkEntry (dp ip : Ip) (off : Nat) : M Int := do
  let i ← gets (·.itable ip)
  let r ← writeDirent sb dp off .zero
  if r = DESIZE then do
    if i.copy.type = .dir then do
      setCopy dp fun d => { d with nlink := short (d.nlink - 1) }
      iupdate sb dp
    else
      pure ()
    iunlockput sb dp
    setCopy ip fun d => { d with nlink := short (d.nlink - 1) }
    iupdate sb ip
    iunlockput sb ip
    endOp
    pure 0
  else
    halt .unlinkWritei

def sysUnlink (p : Slot) (path : UserStr) : M Int :=
  match argstr path with
  | none => pure (-1)
  | some path => do
    beginOp
    let r ← nameiparent sb p path
    match r with
    | none => do
      endOp
      pure (-1)
    | some (dp, name) => do
      ilock sb dp
      if namecmp name (.ofList dot) = 0 ∨ namecmp name (.ofList dotdot) = 0 then
        unlinkBad sb dp
      else do
        let found ← dirlookup sb dp name
        match found with
        | none => unlinkBad sb dp
        | some (ip, off) => do
          ilock sb ip
          let i ← gets (·.itable ip)
          if i.copy.nlink < 1 then
            halt .unlinkNlink
          else if i.copy.type = .dir then do
            let empty ← isdirempty sb ip
            if empty then
              unlinkEntry sb dp ip off
            else do
              iunlockput sb ip
              unlinkBad sb dp
          else
            unlinkEntry sb dp ip off

/-- `create` when the name is there. -/
def createFound (dp ip : Ip) (type : FileType) : M (Option Ip) := do
  iunlockput sb dp
  ilock sb ip
  let i ← gets (·.itable ip)
  if type = .file ∧ (i.copy.type = .file ∨ i.copy.type = .device) then
    pure (some ip)
  else do
    iunlockput sb ip
    pure none

/-- The entries that `create` makes; whether all of them could be written. -/
def createLinks (dp ip : Ip) (name : Name) (type : FileType) : M Bool := do
  let d ← gets (·.itable dp)
  let i ← gets (·.itable ip)
  if type = .dir then do
    let ok ← dirlink sb ip (.ofList dot) i.inum
    if ok then do
      let ok ← dirlink sb ip (.ofList dotdot) d.inum
      if ok then dirlink sb dp name i.inum else pure false
    else
      pure false
  else
    dirlink sb dp name i.inum

/-- `create` when the name is not there. -/
def createNew (dp : Ip) (name : Name) (type : FileType) (major minor : Int) : M (Option Ip) := do
  let r ← ialloc sb type
  match r with
  | none => do
    iunlockput sb dp
    pure none
  | some ip => do
    ilock sb ip
    setCopy ip fun d => { d with major := major, minor := minor, nlink := 1 }
    iupdate sb ip
    let ok ← createLinks sb dp ip name type
    if ok then do
      if type = .dir then do
        setCopy dp fun d => { d with nlink := short (d.nlink + 1) }
        iupdate sb dp
      else
        pure ()
      iunlockput sb dp
      pure (some ip)
    else do
      setCopy ip fun d => { d with nlink := 0 }
      iupdate sb ip
      iunlockput sb ip
      iunlockput sb dp
      pure none

def create (p : Slot) (path : List UInt8) (type : FileType) (major minor : Int) :
    M (Option Ip) := do
  let r ← nameiparent sb p path
  match r with
  | none => pure none
  | some (dp, name) => do
    ilock sb dp
    let found ← dirlookup sb dp name
    match found with
    | some (ip, _) => createFound sb dp ip type
    | none => createNew sb dp name type major minor

/-! ## `open` and its relatives -/

/-- The inode that `sys_open` opens, locked. -/
def openInode (p : Slot) (path : List UInt8) (omode : Nat) : M (Option Ip) :=
  if omode &&& O_CREATE ≠ 0 then
    create sb p path .file 0 0
  else do
    let r ← namei sb p path
    match r with
    | none => pure none
    | some ip => do
      ilock sb ip
      let i ← gets (·.itable ip)
      if i.copy.type = .dir ∧ omode ≠ O_RDONLY then do
        iunlockput sb ip
        pure none
      else
        pure (some ip)

/-- The failures of `sys_open` with the inode locked. -/
def openFail (ip : Ip) : M Int := do
  iunlockput sb ip
  endOp
  pure (-1)

/-- The end of `sys_open`. -/
def openFile (ip : Ip) (f : Fp) (omode : Nat) : M Unit := do
  let i ← gets (·.itable ip)
  setFile f fun x =>
    { (if i.copy.type = .device then
        { x with type := .device, major := i.copy.major }
      else
        { x with type := .inode, off := 0 }) with
      ip := ip
      readable := decide (omode &&& O_WRONLY = 0)
      writable := decide (omode &&& O_WRONLY ≠ 0 ∨ omode &&& O_RDWR ≠ 0) }
  if omode &&& O_TRUNC ≠ 0 ∧ i.copy.type = .file then itrunc sb ip else pure ()
  iunlock sb ip
  endOp

def sysOpen (p : Slot) (path : UserStr) (omode : Nat) : M Int :=
  match argstr path with
  | none => pure (-1)
  | some path => do
    beginOp
    let r ← openInode sb p path omode
    match r with
    | none => do
      endOp
      pure (-1)
    | some ip => do
      let i ← gets (·.itable ip)
      if i.copy.type = .device ∧ (i.copy.major < 0 ∨ i.copy.major ≥ NDEV) then
        openFail sb ip
      else do
        let f ← filealloc
        match f with
        | none => openFail sb ip
        | some f => do
          let fd ← fdalloc p f
          match fd with
          | none => do
            fileclose sb f
            openFail sb ip
          | some fd => do
            openFile sb ip f omode
            pure fd.val

/-- `sys_mkdir` and `sys_mknod` once the arguments are read. -/
def createAndPut (p : Slot) (path : UserStr) (type : FileType) (major minor : Int) : M Int := do
  beginOp
  match argstr path with
  | none => do
    endOp
    pure (-1)
  | some path => do
    let r ← create sb p path type major minor
    match r with
    | none => do
      endOp
      pure (-1)
    | some ip => do
      iunlockput sb ip
      endOp
      pure 0

def sysMkdir (p : Slot) (path : UserStr) : M Int :=
  createAndPut sb p path .dir 0 0

def sysMknod (p : Slot) (path : UserStr) (major minor : Int) : M Int :=
  createAndPut sb p path .device (short major) (short minor)

def sysChdir (p : Slot) (path : UserStr) : M Int := do
  beginOp
  match argstr path with
  | none => do
    endOp
    pure (-1)
  | some path => do
    let r ← namei sb p path
    match r with
    | none => do
      endOp
      pure (-1)
    | some ip => do
      ilock sb ip
      let i ← gets (·.itable ip)
      if i.copy.type ≠ .dir then do
        iunlockput sb ip
        endOp
        pure (-1)
      else do
        iunlock sb ip
        let cwd ← gets fun s => (s.proc p).cwd
        match cwd with
        | none => halt .kerneltrap
        | some cwd => do
          iput sb cwd
          endOp
          setProc p fun x => { x with cwd := some ip }
          pure 0

/-- The reads of `exec` and `loadseg`, as pairs of an offset and a length. -/
def execReads (ip : Ip) : List (Nat × Nat) → M Unit
  | [] => pure ()
  | (off, n) :: l => do
    let _ ← readi sb ip (fun _ => true) off n
    execReads ip l

/-- What `exec` does with files.  Which reads it makes depends on the contents of the program. -/
def execLoad (p : Slot) (path : UserStr) (reads : List (Nat × Nat)) : M Int :=
  match argstr path with
  | none => pure (-1)
  | some path => do
    beginOp
    let r ← namei sb p path
    match r with
    | none => do
      endOp
      pure (-1)
    | some ip => do
      ilock sb ip
      execReads sb ip reads
      iunlockput sb ip
      endOp
      pure 0

/-! ## Processes -/

/-- The file descriptors that `fork` copies. -/
def filedupAll : List (Option Fp) → M Unit
  | [] => pure ()
  | none :: l => filedupAll l
  | some f :: l => do
    filedup f
    filedupAll l

/-- The part of `fork` that copies the parent `p`'s files and directory to the child `q`. -/
def fork (p q : Slot) : M Int := do
  let x ← gets (·.proc p)
  match x.cwd with
  | none => halt .kerneltrap
  | some cwd => do
    filedupAll ((List.finRange NOFILE).map x.ofile)
    let cwd ← idup cwd
    setProc q fun _ => { x with cwd := some cwd }
    pure 0

/-- The loop of `exit` that closes the open files. -/
def exitFiles (p : Slot) : List (Fin NOFILE) → M Unit
  | [] => pure ()
  | fd :: l => do
    let x ← gets (·.proc p)
    match x.ofile fd with
    | none => exitFiles p l
    | some f => do
      fileclose sb f
      setProc p fun x => { x with ofile := update x.ofile fd none }
      exitFiles p l

/-- The part of `exit` that gives up the process's files and directory; slot 0 is `initproc`. -/
def exit (p : Slot) : M Int :=
  if p = 0 then
    halt .initExiting
  else do
    exitFiles sb p (List.finRange NOFILE)
    let x ← gets (·.proc p)
    match x.cwd with
    | none => halt .kerneltrap
    | some cwd => do
      beginOp
      iput sb cwd
      endOp
      setProc p fun x => { x with cwd := none }
      pure 0

/-! ## Steps -/

/-- The calls with their arguments, and what the buffer cache does by itself: a buffer that was
changed and not logged is recycled, or it is in the log for another change and goes to the disk
with the next commit. -/
inductive Call where
  | open (p : Slot) (path : UserStr) (omode : Nat)
  | mkdir (p : Slot) (path : UserStr)
  | mknod (p : Slot) (path : UserStr) (major minor : Int)
  | link (p : Slot) (old new : UserStr)
  | unlink (p : Slot) (path : UserStr)
  | chdir (p : Slot) (path : UserStr)
  | close (p : Slot) (fd : Int)
  | read (p : Slot) (fd : Int) (dst : Nat → Bool) (n : Nat) (io : Int)
  | write (p : Slot) (fd : Int) (src : Nat → Option UInt8) (n io : Int)
  | dup (p : Slot) (fd : Int)
  | fstat (p : Slot) (fd : Int) (ok : Bool)
  | exec (p : Slot) (path : UserStr) (reads : List (Nat × Nat))
  | fork (p q : Slot)
  | exit (p : Slot)
  | evict (b : Nat)
  | flush (b : Nat)

def Call.run : Call → M Int
  | .open p path omode => sysOpen sb p path omode
  | .mkdir p path => sysMkdir sb p path
  | .mknod p path major minor => sysMknod sb p path major minor
  | .link p old new => sysLink sb p old new
  | .unlink p path => sysUnlink sb p path
  | .chdir p path => sysChdir sb p path
  | .close p fd => sysClose sb p fd
  | .read p fd dst n io => sysRead sb p fd dst n io
  | .write p fd src n io => sysWrite sb p fd src n io
  | .dup p fd => sysDup p fd
  | .fstat p fd ok => sysFstat sb p fd ok
  | .exec p path reads => execLoad sb p path reads
  | .fork p q => Fs.fork p q
  | .exit p => Fs.exit sb p
  | .evict b => do
    setVol (·.evict b)
    pure 0
  | .flush b => do
    setVol (·.logged b)
    pure 0

/-- The calls are made by processes that exist, and a child takes a free slot. -/
def Call.enabled (s : St) : Call → Bool
  | .open p _ _ | .mkdir p _ | .mknod p _ _ _ | .link p _ _ | .unlink p _ | .chdir p _
  | .close p _ | .read p _ _ _ _ | .write p _ _ _ _ | .dup p _ | .fstat p _ _ | .exec p _ _
  | .exit p => (s.proc p).cwd.isSome
  | .fork p q => (s.proc p).cwd.isSome && (s.proc q).cwd.isNone
  | .evict _ | .flush _ => true

/-- One completed call. -/
def step (s : St) (c : Call) : Option St :=
  if c.enabled s then
    match c.run sb s with
    | .ok _ t => some t
    | .error _ => none
  else
    none

/-- The state when `userinit` has set the first process's directory with `namei("/")`. -/
def boot (v : Volume) : St :=
  { vol := v
    op := none
    itable := update
      (fun _ => { inum := 0, ref := 0, lock := false, valid := false, copy := .zero }) 0
      { inum := ROOTINO, ref := 1, lock := false, valid := false, copy := .zero }
    ftable := fun _ =>
      { type := .none, ref := 0, readable := false, writable := false, ip := 0, off := 0,
        major := 0 }
    proc := update (fun _ => { cwd := none, ofile := fun _ => none }) 0
      { cwd := some 0, ofile := fun _ => none }
    gen := fun _ => 0
    hist := { holes := 0, stale := 0 } }

end Xv6.Fs
