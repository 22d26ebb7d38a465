import Xv6.Lib.Threads
import Xv6.Lib.Transition
import Xv6.Params
import Mathlib.Data.Multiset.AddSub
import Mathlib.Data.List.FinRange

/-!
# Model — the inode table under concurrent calls

The calls of `kernel/sysfile.c`, `namex`, `dirlookup`, `dirlink`, `iput` and `ilock` of
`kernel/fs.c` and what `exec`, `fork` and `exit` do with inodes, as programs that run at the same
time.  An operation is what a process does under `itable.lock`, under the lock of a buffer, or under
an inode's sleep-lock; taking a sleep-lock is an operation that waits while another process holds
it.

There is one device, so an inode is named by its number.  The content of a directory is the list of
its records, that of a file its bytes.  The log is left out.  `Fs.Calls` has the same calls, one
after another, down to the blocks of the disk and the log; `Fs.Hierarchy` has that its `dirlookup`
and `dirlink` find and place the same records.
-/

namespace Xv6.Itable

open Lib
open Function (update)

/-! ## The state -/

/-- A slot of `itable.inode[NINODE]`. -/
abbrev Ip : Type := Fin NINODE

/-- A slot of `ftable.file[NFILE]`. -/
abbrev Fp : Type := Fin NFILE

/-- A path element, as `skipelem` leaves it. -/
abbrev Name : Type := List UInt8

def dot : Name := [46]

def dotdot : Name := [46, 46]

inductive FileType where
  | none
  | dir
  | file
  | device
  deriving DecidableEq

/-- `struct dirent`; an entry with inode number 0 is free. -/
structure Dirent where
  name : Name
  inum : Nat
  deriving DecidableEq

/-- An inode on the disk with its content. -/
structure Dinode where
  type : FileType
  nlink : Int
  ents : List Dirent
  data : List UInt8
  deriving DecidableEq

/-- `struct inode`. -/
structure Inode (ι : Type) where
  inum : Nat
  ref : Int
  /-- The process that holds the sleep-lock. -/
  lock : Option ι
  valid : Bool
  type : FileType
  nlink : Int
  /-- `iput` has decided to free the inode and still holds the lock; not part of the source. -/
  freeing : Bool
  /-- `iput` has freed the inode and has yet to give up its pointer; not part of the source. -/
  freed : Bool

/-- An open file that stands for an inode. -/
structure File where
  ref : Int
  ip : Ip
  writable : Bool
  /-- Whether its type is `FD_DEVICE`. -/
  device : Bool

structure St (ι : Type) where
  itable : Ip → Inode ι
  disk : Nat → Dinode
  file : Fp → File
  ofile : ι → Fin NOFILE → Option Fp
  cwd : ι → Option Ip
  /-- Whether the slot of a process is in use. -/
  used : ι → Bool
  /-- The pointers that the call of a process has; not part of the source, as all that follows. -/
  held : ι → Multiset Ip
  /-- The inode that `ialloc` has marked for a process that has no pointer to it yet. -/
  fresh : ι → Option Nat
  /-- When an inode was allocated last. -/
  stamp : Nat → Nat
  clock : Nat
  /-- How often an inode was allocated and freed. -/
  allocs : Nat → Nat
  frees : Nat → Nat
  /-- Whether there was a pointer to an inode that has no link and that the table does not keep. -/
  raced : Bool
  /-- Whether a directory was written to as a file. -/
  scribbled : Bool

namespace St

variable {ι : Type} [DecidableEq ι]

def setInode (s : St ι) (q : Ip) (x : Inode ι) : St ι :=
  { s with itable := update s.itable q x }

def setDisk (s : St ι) (i : Nat) (d : Dinode) : St ι :=
  { s with disk := update s.disk i d }

def setFile (s : St ι) (f : Fp) (x : File) : St ι :=
  { s with file := update s.file f x }

def setOfile (s : St ι) (p : ι) (fd : Fin NOFILE) (r : Option Fp) : St ι :=
  { s with ofile := update s.ofile p (update (s.ofile p) fd r) }

def setCwd (s : St ι) (p : ι) (r : Option Ip) : St ι :=
  { s with cwd := update s.cwd p r }

/-- `ip->ref += k` -/
def addRef (s : St ι) (q : Ip) (k : Int) : St ι :=
  s.setInode q { s.itable q with ref := (s.itable q).ref + k }

/-- The call of `p` has one pointer more. -/
def gain (s : St ι) (p : ι) (q : Ip) : St ι :=
  { s with held := update s.held p (q ::ₘ s.held p) }

/-- The call of `p` has one pointer less. -/
def drop (s : St ι) (p : ι) (q : Ip) : St ι :=
  { s with held := update s.held p ((s.held p).erase q) }

/-- The inode on the disk of a table entry. -/
def dinode (s : St ι) (q : Ip) : Dinode :=
  s.disk (s.itable q).inum

end St

/-! ## Operations -/

/-- `(short)n` -/
def short (n : Int) : Int :=
  (n + 2 ^ 15) % 2 ^ 16 - 2 ^ 15

/-- What a user writes to a file.  The bytes of a directory are records: those from `index` on
become `ents`, which are any records, since a write can begin and end within one. -/
structure Chunk where
  index : Nat
  ents : List Dirent
  data : List UInt8

/-- The records `l` of a directory once the chunk is written over them. -/
def Chunk.over (w : Chunk) (l : List Dirent) : List Dirent :=
  l.take w.index ++ w.ents ++ l.drop (w.index + w.ents.length)

inductive Op (ι : Type) where
  | iget (inum : Nat)
  | idupCwd
  | inum (ip : Ip)
  | type (ip : Ip)
  | ilock (ip : Ip)
  | iunlock (ip : Ip)
  | iputBegin (ip : Ip)
  | itrunc (ip : Ip)
  | ifree (ip : Ip)
  | irelease (ip : Ip)
  | iputEnd (ip : Ip)
  | find (dp : Ip) (name : Name)
  | addEntry (dp : Ip) (name : Name) (inum : Nat)
  | eraseEntry (dp : Ip) (index : Nat)
  | isdirempty (dp : Ip)
  | ialloc (type : FileType)
  | setNlink (ip : Ip) (n : Int)
  | readi (ip : Ip)
  | writei (ip : Ip) (c : Chunk)
  | openFile (ip : Ip) (writable device : Bool)
  | file (fd : Fin NOFILE)
  | fileclose (fd : Fin NOFILE)
  | dup (fd : Fin NOFILE)
  | takeCwd
  | setCwd (ip : Ip)
  | fork (child : ι)
  | exit
  | panic

variable {ι : Type}

def Op.Reply : Op ι → Type
  | .iget _ | .idupCwd | .takeCwd => Ip
  | .inum _ => Nat
  | .type _ => FileType
  | .ilock _ => FileType × Int
  | .iputBegin _ | .addEntry .. | .isdirempty _ | .writei .. | .fork _ => Bool
  | .find .. => Option (Nat × Nat)
  | .ialloc _ => Option Nat
  | .openFile .. | .dup _ => Option (Fin NOFILE)
  | .file _ => Option (Ip × Bool × Bool)
  | .fileclose _ => Option Ip
  | .iunlock _ | .itrunc _ | .ifree _ | .irelease _ | .iputEnd _ | .eraseEntry .. | .setNlink ..
  | .readi _ | .setCwd _ | .exit | .panic => Unit

section

variable [DecidableEq ι]

namespace St

/-- The entry of an inode that is in the table. -/
def lookup (s : St ι) (i : Nat) : Option Ip :=
  (List.finRange NINODE).find? fun q => decide (0 < (s.itable q).ref ∧ (s.itable q).inum = i)

/-- The first entry that is not in use. -/
def empty (s : St ι) : Option Ip :=
  (List.finRange NINODE).find? fun q => decide ((s.itable q).ref = 0)

/-- What a pointer to the inode `i` needs for the bookkeeping of `iput` to be right: the inode has a
link, or it is in the table and not about to be freed, or the process has just allocated it and the
table has no entry for it. -/
def igetOk (s : St ι) (p : ι) (i : Nat) : Bool :=
  decide ((s.disk i).type ≠ .none ∧ (s.disk i).nlink ≠ 0) ||
    match s.lookup i with
    | some q => (s.itable q).valid && !(s.itable q).freeing
    | none => decide (s.fresh p = some i)

/-- The end of `iget`. -/
def got (s : St ι) (p : ι) (i : Nat) : St ι :=
  { s with
    fresh := if s.fresh p = some i then update s.fresh p none else s.fresh
    raced := s.raced || !s.igetOk p i }

end St

/-- `iget`; with no entry left it does not return. -/
def St.iget (s : St ι) (p : ι) (i : Nat) : Option (Ip × St ι) :=
  match s.lookup i with
  | some q => some (q, ((s.got p i).addRef q 1).gain p q)
  | none => s.empty.map fun q => (q, ((s.got p i).setInode q { s.itable q with
        inum := i, ref := 1, valid := false, freed := false }).gain p q)

/-- `ilock`; it waits for the lock, and does not return if the inode has no type. -/
def St.ilock (s : St ι) (p : ι) (q : Ip) : Option ((FileType × Int) × St ι) :=
  let x := s.itable q
  if x.ref < 1 ∨ x.lock ≠ none then
    none
  else if x.valid then
    some ((x.type, x.nlink), s.setInode q { x with lock := some p })
  else if (s.dinode q).type = .none then
    none
  else
    some (((s.dinode q).type, (s.dinode q).nlink), s.setInode q { x with
        lock := some p, valid := true, type := (s.dinode q).type, nlink := (s.dinode q).nlink })

/-- `iput` up to where it releases `itable.lock` for the first time; it waits for the sleep-lock if
it has to free the inode. -/
def St.iputBegin (s : St ι) (p : ι) (q : Ip) : Option (Bool × St ι) :=
  let x := s.itable q
  if x.ref = 1 ∧ x.valid = true ∧ x.nlink = 0 then
    if x.lock = none then
      some (true, s.setInode q { x with lock := some p, freeing := true })
    else
      none
  else
    some (false, (s.addRef q (-1)).drop p q)

/-- The record for a name. -/
def findEnt (ents : List Dirent) (name : Name) : Option (Nat × Nat) :=
  (ents.findIdx? fun e => decide (e.inum ≠ 0 ∧ e.name = name)).bind fun n =>
    ents[n]?.map fun e => (n, e.inum)

/-- A record in the first free place. -/
def insertEnt (ents : List Dirent) (e : Dirent) : List Dirent :=
  match ents.findIdx? fun e => decide (e.inum = 0) with
  | some n => ents.set n e
  | none => ents ++ [e]

/-- What `ialloc` writes to a free inode. -/
def St.mark (s : St ι) (p : ι) (i : Nat) (type : FileType) : St ι :=
  { s.setDisk i { type := type, nlink := 0, ents := [], data := [] } with
    fresh := update s.fresh p (some i)
    stamp := update s.stamp i s.clock
    clock := s.clock + 1
    allocs := update s.allocs i (s.allocs i + 1) }

/-- The first free descriptor of a process. -/
def St.freeFd (s : St ι) (p : ι) : Option (Fin NOFILE) :=
  (List.finRange NOFILE).find? fun fd => decide (s.ofile p fd = none)

/-- `filealloc` and `fdalloc`, and what `sys_open` writes to the file; the file takes over the
pointer of the call. -/
def St.openFile (s : St ι) (p : ι) (q : Ip) (writable device : Bool) : Option (Fin NOFILE) × St ι :=
  match (List.finRange NFILE).find? fun f => decide ((s.file f).ref = 0), s.freeFd p with
  | some f, some fd => (some fd,
      ((s.setFile f { ref := 1, ip := q, writable := writable, device := device }).setOfile p fd
        (some f)).drop p q)
  | _, _ => (none, s)

/-- `fileclose` of a descriptor; with the last reference the pointer of the file goes to
the call. -/
def St.fileclose (s : St ι) (p : ι) (fd : Fin NOFILE) : Option Ip × St ι :=
  match s.ofile p fd with
  | none => (none, s)
  | some f =>
    let x := s.file f
    let t := (s.setOfile p fd none).setFile f { x with ref := x.ref - 1 }
    if x.ref - 1 > 0 then (none, t) else (some x.ip, t.gain p x.ip)

/-- `sys_dup` after `argfd`. -/
def St.dup (s : St ι) (p : ι) (fd : Fin NOFILE) : Option (Fin NOFILE) × St ι :=
  match s.ofile p fd, s.freeFd p with
  | some f, some fd' => (some fd',
      (s.setFile f { s.file f with ref := (s.file f).ref + 1 }).setOfile p fd' (some f))
  | _, _ => (none, s)

/-- The references that a child gets to its parent's files. -/
def St.dupAll (s : St ι) (ofile : Fin NOFILE → Option Fp) : List (Fin NOFILE) → St ι
  | [] => s
  | fd :: l =>
    match ofile fd with
    | none => s.dupAll ofile l
    | some f =>
      (s.setFile f { s.file f with ref := (s.file f).ref + 1 }).dupAll ofile l

/-- The part of `fork` that copies files and directory to a process that is not in use.  Nobody
else sees the child before it is complete. -/
def St.fork (s : St ι) (p child : ι) : Bool × St ι :=
  match s.cwd p with
  | none => (false, s)
  | some q =>
    if s.used child = false then
      let t := s.dupAll (s.ofile p) (List.finRange NOFILE)
      (true, ({ t with
        ofile := update t.ofile child (s.ofile p)
        used := update t.used child true }.addRef q 1).setCwd child (some q))
    else
      (false, s)

variable (ninodes : Nat)

/-- What an operation of process `p` does.  The choice `c` says which inode `ialloc` comes upon, and
with 0 that there is none or that the disk is full. -/
def exec : Exec ι (St ι) Nat (Op ι) Op.Reply := fun p c o s =>
  match o with
  | .iget i => s.iget p i
  | .idupCwd => (s.cwd p).map fun q => (q, (s.addRef q 1).gain p q)
  | .inum q => some ((s.itable q).inum, s)
  | .type q => some ((s.itable q).type, s)
  | .ilock q => s.ilock p q
  | .iunlock q =>
    if (s.itable q).lock = some p ∧ 1 ≤ (s.itable q).ref then
      some ((), s.setInode q { s.itable q with lock := none })
    else
      none
  | .iputBegin q => s.iputBegin p q
  | .itrunc q => some ((), s.setDisk (s.itable q).inum { s.dinode q with ents := [], data := [] })
  | .ifree q => some ((), { (s.setInode q { s.itable q with type := .none }).setDisk
      (s.itable q).inum { s.dinode q with type := .none, nlink := (s.itable q).nlink } with
        frees := update s.frees (s.itable q).inum (s.frees (s.itable q).inum + 1) })
  | .irelease q => some ((), s.setInode q
      { s.itable q with valid := false, lock := none, freeing := false, freed := true })
  | .iputEnd q => some ((),
      ((s.setInode q { s.itable q with freed := false }).addRef q (-1)).drop p q)
  | .find q name =>
    if (s.itable q).type = .dir then some (findEnt (s.dinode q).ents name, s) else none
  | .addEntry q name i =>
    if c = 0 then
      some (false, s)
    else
      some (true, s.setDisk (s.itable q).inum
        { s.dinode q with ents := insertEnt (s.dinode q).ents ⟨name, i⟩ })
  | .eraseEntry q n => some ((), s.setDisk (s.itable q).inum
      { s.dinode q with ents := (s.dinode q).ents.set n ⟨[], 0⟩ })
  | .isdirempty q => some (((s.dinode q).ents.drop 2).all fun e => decide (e.inum = 0), s)
  | .ialloc type =>
    if c = 0 then
      some (none, s)
    else if c < ninodes ∧ (s.disk c).type = .none then
      some (some c, s.mark p c type)
    else
      none
  | .setNlink q n => some ((), (s.setInode q { s.itable q with nlink := n }).setDisk
      (s.itable q).inum { s.dinode q with type := (s.itable q).type, nlink := n })
  | .readi _ => some ((), s)
  | .writei q w =>
    if c = 0 then
      some (false, s)
    else if (s.itable q).type = .dir then
      some (true, { s.setDisk (s.itable q).inum
        { s.dinode q with ents := w.over (s.dinode q).ents } with scribbled := true })
    else
      some (true, s.setDisk (s.itable q).inum { s.dinode q with data := w.data })
  | .openFile q writable device => some (s.openFile p q writable device)
  | .file fd => some ((s.ofile p fd).map fun f =>
    ((s.file f).ip, (s.file f).writable, (s.file f).device), s)
  | .fileclose fd => some (s.fileclose p fd)
  | .dup fd => some (s.dup p fd)
  | .takeCwd => (s.cwd p).map fun q => (q, (s.setCwd p none).gain p q)
  | .setCwd q => some ((), (s.setCwd p (some q)).drop p q)
  | .fork child => some (s.fork p child)
  | .exit => some ((), { s with used := update s.used p false })
  | .panic => none

end

/-! ## Programs -/

abbrev Cmd (ι : Type) : Type → Type :=
  Code (Op ι) Op.Reply

namespace Cmd

def iget (inum : Nat) : Cmd ι Ip := Code.call (Op.iget inum)
def idupCwd : Cmd ι Ip := Code.call Op.idupCwd
def inum (ip : Ip) : Cmd ι Nat := Code.call (Op.inum ip)
def type (ip : Ip) : Cmd ι FileType := Code.call (Op.type ip)
def ilock (ip : Ip) : Cmd ι (FileType × Int) := Code.call (Op.ilock ip)
def iunlock (ip : Ip) : Cmd ι Unit := Code.call (Op.iunlock ip)
def iputBegin (ip : Ip) : Cmd ι Bool := Code.call (Op.iputBegin ip)
def itrunc (ip : Ip) : Cmd ι Unit := Code.call (Op.itrunc ip)
def ifree (ip : Ip) : Cmd ι Unit := Code.call (Op.ifree ip)
def irelease (ip : Ip) : Cmd ι Unit := Code.call (Op.irelease ip)
def iputEnd (ip : Ip) : Cmd ι Unit := Code.call (Op.iputEnd ip)
def find (dp : Ip) (name : Name) : Cmd ι (Option (Nat × Nat)) := Code.call (Op.find dp name)
def addEntry (dp : Ip) (name : Name) (inum : Nat) : Cmd ι Bool :=
  Code.call (Op.addEntry dp name inum)
def eraseEntry (dp : Ip) (n : Nat) : Cmd ι Unit := Code.call (Op.eraseEntry dp n)
def isdirempty (dp : Ip) : Cmd ι Bool := Code.call (Op.isdirempty dp)
def ialloc (type : FileType) : Cmd ι (Option Nat) := Code.call (Op.ialloc type)
def setNlink (ip : Ip) (n : Int) : Cmd ι Unit := Code.call (Op.setNlink ip n)
def readi (ip : Ip) : Cmd ι Unit := Code.call (Op.readi ip)
def writei (ip : Ip) (c : Chunk) : Cmd ι Bool := Code.call (Op.writei ip c)
def openFile (ip : Ip) (writable device : Bool) : Cmd ι (Option (Fin NOFILE)) :=
  Code.call (Op.openFile ip writable device)
def file (fd : Fin NOFILE) : Cmd ι (Option (Ip × Bool × Bool)) := Code.call (Op.file fd)
def fileclose (fd : Fin NOFILE) : Cmd ι (Option Ip) := Code.call (Op.fileclose fd)
def dup (fd : Fin NOFILE) : Cmd ι (Option (Fin NOFILE)) := Code.call (Op.dup fd)
def takeCwd : Cmd ι Ip := Code.call Op.takeCwd
def setCwd (ip : Ip) : Cmd ι Unit := Code.call (Op.setCwd ip)
def fork (child : ι) : Cmd ι Bool := Code.call (Op.fork child)
def exit : Cmd ι Unit := Code.call Op.exit
def panic : Cmd ι Unit := Code.call Op.panic

end Cmd

def iput (ip : Ip) : Cmd ι Unit := do
  let freeing ← Cmd.iputBegin ip
  if freeing = true then do
    Cmd.itrunc ip
    Cmd.ifree ip
    Cmd.irelease ip
    Cmd.iputEnd ip
  else
    pure ()

def iunlockput (ip : Ip) : Cmd ι Unit := do
  Cmd.iunlock ip
  iput ip

/-- `dirlookup`, with the place of the record. -/
def dirlookup (dp : Ip) (name : Name) : Cmd ι (Option (Nat × Ip)) := do
  let r ← Cmd.find dp name
  match r with
  | none => pure none
  | some (n, i) => do
    let ip ← Cmd.iget i
    pure (some (n, ip))

def dirlink (dp : Ip) (name : Name) (inum : Nat) : Cmd ι Bool := do
  let r ← dirlookup dp name
  match r with
  | some (_, ip) => do
    iput ip
    pure false
  | none => Cmd.addEntry dp name inum

/-- A path, split by `skipelem`. -/
structure Path where
  absolute : Bool
  elems : List Name

/-- The loop of `namex`, from the inode `ip` on. -/
def namexFrom (parent : Bool) : List Name → Ip → Cmd ι (Option (Ip × Name))
  | [], ip =>
    if parent then do
      iput ip
      pure none
    else
      pure (some (ip, []))
  | name :: elems, ip => do
    let x ← Cmd.ilock ip
    if x.1 ≠ .dir then do
      iunlockput ip
      pure none
    else if parent = true ∧ elems = [] then do
      Cmd.iunlock ip
      pure (some (ip, name))
    else do
      let r ← dirlookup ip name
      match r with
      | none => do
        iunlockput ip
        pure none
      | some (_, next) => do
        iunlockput ip
        namexFrom parent elems next

def namex (parent : Bool) (path : Path) : Cmd ι (Option (Ip × Name)) := do
  let ip ← if path.absolute then Cmd.iget ROOTINO else Cmd.idupCwd
  namexFrom parent path.elems ip

def namei (path : Path) : Cmd ι (Option (Ip × Name)) :=
  namex false path

def nameiparent (path : Path) : Cmd ι (Option (Ip × Name)) :=
  namex true path

/-! ## System calls -/

/-- `create` where the name exists. -/
def createFound (type : FileType) (dp ip : Ip) : Cmd ι (Option Ip) := do
  iunlockput dp
  let x ← Cmd.ilock ip
  if type = .file ∧ (x.1 = .file ∨ x.1 = .device) then
    pure (some ip)
  else do
    iunlockput ip
    pure none

/-- The label `fail` of `create`. -/
def createFail (dp ip : Ip) : Cmd ι (Option Ip) := do
  Cmd.setNlink ip 0
  iunlockput ip
  iunlockput dp
  pure none

/-- The entries `.` and `..` of a new directory. -/
def createDots (dp ip : Ip) : Cmd ι Bool := do
  let i ← Cmd.inum ip
  let ok ← dirlink ip dot i
  if ok = true then do
    let d ← Cmd.inum dp
    dirlink ip dotdot d
  else
    pure false

/-- `create` from where it has locked the new inode; `nlink` is the link count of `dp`. -/
def createNew (type : FileType) (name : Name) (dp ip : Ip) (nlink : Int) : Cmd ι (Option Ip) := do
  Cmd.setNlink ip 1
  let dots ← if type = .dir then createDots dp ip else pure true
  if dots = false then
    createFail dp ip
  else do
    let i ← Cmd.inum ip
    let ok ← dirlink dp name i
    if ok = false then
      createFail dp ip
    else do
      if type = .dir then Cmd.setNlink dp (short (nlink + 1)) else pure ()
      iunlockput dp
      pure (some ip)

def create (type : FileType) (path : Path) : Cmd ι (Option Ip) := do
  let r ← nameiparent path
  match r with
  | none => pure none
  | some (dp, name) => do
    let x ← Cmd.ilock dp
    let r ← dirlookup dp name
    match r with
    | some (_, ip) => createFound type dp ip
    | none => do
      let r ← Cmd.ialloc type
      match r with
      | none => do
        iunlockput dp
        pure none
      | some i => do
        let ip ← Cmd.iget i
        let _ ← Cmd.ilock ip
        createNew type name dp ip x.2

/-- The inode that `sys_open` opens, locked. -/
def openInode (path : Path) (omode : Nat) : Cmd ι (Option Ip) :=
  if omode &&& O_CREATE ≠ 0 then
    create .file path
  else do
    let r ← namei path
    match r with
    | none => pure none
    | some (ip, _) => do
      let x ← Cmd.ilock ip
      if x.1 = .dir ∧ omode ≠ O_RDONLY then do
        iunlockput ip
        pure none
      else
        pure (some ip)

/-- `sys_open`; `refuse` says that the major number of a device is out of range. -/
def sysOpen (path : Path) (omode : Nat) (refuse : Bool) : Cmd ι Unit := do
  let r ← openInode path omode
  match r with
  | none => pure ()
  | some ip => do
    let type ← Cmd.type ip
    if type = .device ∧ refuse = true then
      iunlockput ip
    else do
      let r ← Cmd.openFile ip (decide (omode &&& O_WRONLY ≠ 0 ∨ omode &&& O_RDWR ≠ 0))
        (decide (type = .device))
      match r with
      | none => iunlockput ip
      | some _ => do
        if omode &&& O_TRUNC ≠ 0 ∧ type = .file then Cmd.itrunc ip else pure ()
        Cmd.iunlock ip

/-- `sys_mkdir` and `sys_mknod`. -/
def createAndPut (type : FileType) (path : Path) : Cmd ι Unit := do
  let r ← create type path
  match r with
  | none => pure ()
  | some ip => iunlockput ip

/-- The label `bad` of `sys_link`. -/
def linkBad (ip : Ip) : Cmd ι Unit := do
  let x ← Cmd.ilock ip
  Cmd.setNlink ip (short (x.2 - 1))
  iunlockput ip

def sysLink (old new : Path) : Cmd ι Unit := do
  let r ← namei old
  match r with
  | none => pure ()
  | some (ip, _) => do
    let x ← Cmd.ilock ip
    if x.1 = .dir then
      iunlockput ip
    else do
      Cmd.setNlink ip (short (x.2 + 1))
      Cmd.iunlock ip
      let r ← nameiparent new
      match r with
      | none => linkBad ip
      | some (dp, name) => do
        let _ ← Cmd.ilock dp
        let i ← Cmd.inum ip
        let ok ← dirlink dp name i
        if ok = false then do
          iunlockput dp
          linkBad ip
        else do
          iunlockput dp
          iput ip

/-- `sys_unlink` from where it has locked both inodes; `n` is the place of the record. -/
def unlinkEntry (dp ip : Ip) (n : Nat) (dplink : Int) (x : FileType × Int) : Cmd ι Unit := do
  Cmd.eraseEntry dp n
  if x.1 = .dir then Cmd.setNlink dp (short (dplink - 1)) else pure ()
  iunlockput dp
  Cmd.setNlink ip (short (x.2 - 1))
  iunlockput ip

def sysUnlink (path : Path) : Cmd ι Unit := do
  let r ← nameiparent path
  match r with
  | none => pure ()
  | some (dp, name) => do
    let d ← Cmd.ilock dp
    if name = dot ∨ name = dotdot then
      iunlockput dp
    else do
      let r ← dirlookup dp name
      match r with
      | none => iunlockput dp
      | some (n, ip) => do
        let x ← Cmd.ilock ip
        if x.2 < 1 then
          Cmd.panic
        else do
          let isempty ← if x.1 = .dir then Cmd.isdirempty ip else pure true
          if isempty = false then do
            iunlockput ip
            iunlockput dp
          else
            unlinkEntry dp ip n d.2 x

def sysChdir (path : Path) : Cmd ι Unit := do
  let r ← namei path
  match r with
  | none => pure ()
  | some (ip, _) => do
    let x ← Cmd.ilock ip
    if x.1 ≠ .dir then
      iunlockput ip
    else do
      Cmd.iunlock ip
      let cwd ← Cmd.takeCwd
      iput cwd
      Cmd.setCwd ip

/-- `ilock`, a look at the inode, and `iunlock`. -/
def inspect (ip : Ip) : Cmd ι Unit := do
  let _ ← Cmd.ilock ip
  Cmd.readi ip
  Cmd.iunlock ip

def sysRead (fd : Fin NOFILE) : Cmd ι Unit := do
  let r ← Cmd.file fd
  match r with
  | none => pure ()
  | some (ip, _, device) => if device = true then pure () else inspect ip

def sysFstat (fd : Fin NOFILE) : Cmd ι Unit := do
  let r ← Cmd.file fd
  match r with
  | none => pure ()
  | some (ip, _, _) => inspect ip

/-- The loop of `filewrite` on an inode. -/
def filewrite (ip : Ip) : List Chunk → Cmd ι Unit
  | [] => pure ()
  | c :: l => do
    let _ ← Cmd.ilock ip
    let ok ← Cmd.writei ip c
    Cmd.iunlock ip
    if ok = true then filewrite ip l else pure ()

def sysWrite (fd : Fin NOFILE) (l : List Chunk) : Cmd ι Unit := do
  let r ← Cmd.file fd
  match r with
  | none => pure ()
  | some (ip, writable, device) =>
    if writable = true ∧ device = false then filewrite ip l else pure ()

def sysClose (fd : Fin NOFILE) : Cmd ι Unit := do
  let r ← Cmd.fileclose fd
  match r with
  | none => pure ()
  | some ip => iput ip

def sysDup (fd : Fin NOFILE) : Cmd ι Unit := do
  let _ ← Cmd.dup fd
  pure ()

/-- The inode of `exec`; it is read `n` times. -/
def execReads (ip : Ip) : Nat → Cmd ι Unit
  | 0 => pure ()
  | n + 1 => do
    Cmd.readi ip
    execReads ip n

def sysExec (path : Path) (n : Nat) : Cmd ι Unit := do
  let r ← namei path
  match r with
  | none => pure ()
  | some (ip, _) => do
    let _ ← Cmd.ilock ip
    execReads ip n
    iunlockput ip

def sysFork (child : ι) : Cmd ι Unit := do
  let _ ← Cmd.fork child
  pure ()

/-- The loop of `exit`. -/
def exitFiles : List (Fin NOFILE) → Cmd ι Unit
  | [] => pure ()
  | fd :: l => do
    sysClose fd
    exitFiles l

def sysExit : Cmd ι Unit := do
  exitFiles (List.finRange NOFILE)
  let cwd ← Cmd.takeCwd
  iput cwd
  Cmd.exit

/-! ## Runs -/

inductive Call (ι : Type) where
  | open (path : Path) (omode : Nat) (refuse : Bool)
  | mkdir (path : Path)
  | mknod (path : Path)
  | link (old new : Path)
  | unlink (path : Path)
  | chdir (path : Path)
  | read (fd : Fin NOFILE)
  | fstat (fd : Fin NOFILE)
  | write (fd : Fin NOFILE) (l : List Chunk)
  | close (fd : Fin NOFILE)
  | dup (fd : Fin NOFILE)
  | exec (path : Path) (n : Nat)
  | fork (child : ι)
  | exit

def Call.body : Call ι → Cmd ι Unit
  | .open path omode refuse => sysOpen path omode refuse
  | .mkdir path => createAndPut .dir path
  | .mknod path => createAndPut .device path
  | .link old new => sysLink old new
  | .unlink path => sysUnlink path
  | .chdir path => sysChdir path
  | .read fd => sysRead fd
  | .fstat fd => sysFstat fd
  | .write fd l => sysWrite fd l
  | .close fd => sysClose fd
  | .dup fd => sysDup fd
  | .exec path n => sysExec path n
  | .fork child => sysFork child
  | .exit => sysExit

abbrev Sys (ι : Type) : Type :=
  Threads ι (St ι) (Op ι) Op.Reply Unit

inductive Act (ι : Type) where
  | start (p : ι) (c : Call ι)
  | run (p : ι) (c : Nat)

variable [DecidableEq ι] (ninodes : Nat)

/-- A process begins a call, or does the next operation of the one it is in. -/
def step (s : Sys ι) : Act ι → Option (Sys ι)
  | .start p c =>
    if (s.code p).isNone ∧ s.shared.used p = true then some (s.start p c.body) else none
  | .run p c => s.run (exec ninodes) p c

/-- A volume with a root directory.  If `clean` is set, every inode in use has a link, and if `tree`
is set, the entries of directories lead from smaller to larger ranks, so that there is no cycle. -/
structure Volume where
  disk : Nat → Dinode
  rank : Nat → Nat
  bound : Nat
  clean : Bool
  tree : Bool
  root : (disk ROOTINO).type = .dir
  linked : clean = true → ∀ i, (disk i).type ≠ .none → (disk i).nlink ≠ 0
  rank_lt : ∀ i, rank i < bound
  ordered : tree = true → ∀ d e, (disk d).type = .dir → e ∈ (disk d).ents → e.inum ≠ 0 →
    e.name ≠ dot → e.name ≠ dotdot → (disk e.inum).type = .dir → rank d < rank e.inum

/-- One process exists, in the root directory of the volume. -/
def boot (v : Volume) (p : ι) : Sys ι where
  shared :=
    { itable := update (fun _ =>
        { inum := 0, ref := 0, lock := none, valid := false, type := .none, nlink := 0
          freeing := false, freed := false }) 0
        { inum := ROOTINO, ref := 1, lock := none, valid := false, type := .none, nlink := 0
          freeing := false, freed := false }
      disk := v.disk
      file := fun _ => { ref := 0, ip := 0, writable := false, device := false }
      ofile := fun _ _ => none
      cwd := update (fun _ => none) p (some 0)
      used := update (fun _ => false) p true
      held := fun _ => 0
      fresh := fun _ => none
      stamp := v.rank
      clock := v.bound
      allocs := fun i => if (v.disk i).type = .none then 0 else 1
      frees := fun _ => 0
      raced := !v.clean
      scribbled := !v.tree }
  code := fun _ => none

end Xv6.Itable
