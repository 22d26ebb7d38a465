import Xv6.Fs.Volume
import Xv6.Lib.Prog
import Mathlib.Data.Finset.Card
import Mathlib.Data.List.FinRange

/-!
# Inode — blocks, inodes and their contents

The first layers of `kernel/fs.c`: the block allocator, the inode table and the contents of files.
The state also has the file table and the processes' descriptors of `kernel/file.c` and
`kernel/proc.c`.  System calls run one after another, so a sleep-lock that is held is held by the
running call, and a call that has to wait for one never completes.
-/

namespace Xv6.Fs

open Lib Prog

/-! ## State -/

/-- An entry of `itable.inode`; a `struct inode*` is its index. -/
abbrev Ip : Type := Fin NINODE

/-- An entry of `ftable.file`; a `struct file*` is its index. -/
abbrev Fp : Type := Fin NFILE

/-- `struct inode` of the one device, with its copy of the disk inode as one field. -/
structure Inode where
  inum : Nat
  ref : Int
  lock : Bool
  valid : Bool
  copy : Dinode

/-- The type of a `struct file`; pipes are not part of the file system. -/
inductive FdType where
  | none
  | inode
  | device
  deriving DecidableEq

/-- `struct file`. -/
structure File where
  type : FdType
  ref : Int
  readable : Bool
  writable : Bool
  ip : Ip
  off : Nat
  major : Int

/-- What a process has of the file system; a free slot has no current directory. -/
structure Proc where
  cwd : Option Ip
  ofile : Fin NOFILE → Option Fp

/-- The ways in which a call does not complete: the panics of the source, a fault on a null pointer
(`kerneltrap`), and waiting for a lock that the call itself holds (`blocked`). -/
inductive Panic where
  | freeingFreeBlock
  | igetNoInodes
  | ilock
  | ilockNoType
  | iunlock
  | bmapOutOfRange
  | dirlookupNotDir
  | dirlookupRead
  | dirlinkRead
  | isdiremptyReadi
  | unlinkNlink
  | unlinkWritei
  | filedup
  | fileclose
  | fileread
  | filewrite
  | initExiting
  | tooBig
  | logWriteOutside
  | kerneltrap
  | blocked
  deriving DecidableEq, Repr

/-- Counts of what calls have done, which the code does not have: how often `readi` came to a block
that is not there, so that `bmap` has to allocate it, and how often an inode was unlocked with a
valid copy that differs from the disk inode. -/
structure Hist where
  holes : Nat
  stale : Nat

/-- `op` has the blocks in the log, each of them once, while an operation is open.  `gen` counts how
often `ialloc` has handed out an inode number: a history variable that the code does not have. -/
structure St where
  vol : Volume
  op : Option (Finset Nat)
  itable : Ip → Inode
  ftable : Fp → File
  proc : Slot → Proc
  gen : Nat → Nat
  hist : Hist

abbrev M : Type → Type := Prog St Panic

def setInode (q : Ip) (f : Inode → Inode) : M Unit :=
  modify fun s => { s with itable := Function.update s.itable q (f (s.itable q)) }

/-- Assignments to fields of the copy of the disk inode. -/
def setCopy (q : Ip) (f : Dinode → Dinode) : M Unit :=
  setInode q fun ip => { ip with copy := f ip.copy }

def setVol (f : Volume → Volume) : M Unit :=
  modify fun s => { s with vol := f s.vol }

/-! ## Operations and blocks -/

def beginOp : M Unit :=
  modify fun s => { s with op := some ∅ }

def endOp : M Unit :=
  modify fun s => { s with op := none }

variable (sb : Superblock)

/-- `log_write` takes no block more, not even one that is in the log. -/
def LogFull (l : Finset Nat) : Prop :=
  LOGSIZE ≤ l.card ∨ sb.nlog ≤ l.card + 1

instance (l : Finset Nat) : Decidable (LogFull sb l) :=
  inferInstanceAs (Decidable (_ ∨ _))

def logWrite (b : Nat) : M Unit := do
  let op ← gets (·.op)
  if LogFull sb (op.getD ∅) then
    halt .tooBig
  else
    match op with
    | none => halt .logWriteOutside
    -- A block that is in the log already is absorbed.
    | some l => modify fun s => { s with op := some (insert b l), vol := s.vol.logged b }

def bzero (bno : Nat) : M Unit := do
  setVol (·.setData bno .zero)
  logWrite sb bno

/-- The inner loop of `balloc`, with `n` bits of the bitmap block left from bit `bi` on. -/
def ballocScan (v : Volume) (b : Nat) : Nat → Nat → Option Nat
  | 0, _ => none
  | n + 1, bi =>
    if b + bi < sb.size then
      if v.bitmap (BBLOCK sb b) bi then ballocScan v b n (bi + 1) else some bi
    else
      none

/-- The outer loop of `balloc`, from block `b` on. -/
def ballocFrom : Nat → Nat → M Nat
  | 0, _ => pure 0
  | n + 1, b =>
    if b < sb.size then do
      let v ← gets (·.vol)
      match ballocScan sb v b BPB 0 with
      | some bi => do
        setVol (·.setBit sb (b + bi) true)
        logWrite sb (BBLOCK sb b)
        bzero sb (b + bi)
        pure (b + bi)
      | none => ballocFrom n (b + BPB)
    else
      pure 0

def balloc : M Nat :=
  ballocFrom sb sb.size 0

def bfree (b : Nat) : M Unit := do
  let v ← gets (·.vol)
  if v.bit sb b = false then
    halt .freeingFreeBlock
  else do
    setVol (·.setBit sb b false)
    logWrite sb (BBLOCK sb b)

/-! ## The inode table -/

def iget (inum : Nat) : M Ip := do
  let tab ← gets (·.itable)
  match (List.finRange NINODE).find? fun q => decide (0 < (tab q).ref ∧ (tab q).inum = inum) with
  | some q => do
    setInode q fun ip => { ip with ref := ip.ref + 1 }
    pure q
  | none =>
    match (List.finRange NINODE).find? fun q => decide ((tab q).ref = 0) with
    | some q => do
      setInode q fun ip => { ip with inum := inum, ref := 1, valid := false }
      pure q
    | none => halt .igetNoInodes

def idup (q : Ip) : M Ip := do
  setInode q fun ip => { ip with ref := ip.ref + 1 }
  pure q

/-- The loop of `ialloc`, from `inum` on. -/
def iallocFrom (type : FileType) : Nat → Nat → M (Option Ip)
  | 0, _ => pure none
  | n + 1, inum =>
    if inum < sb.ninodes then do
      let v ← gets (·.vol)
      if (v.dip sb inum).type = .free then do
        modify fun s => { s with
          vol := s.vol.setDip sb inum { Dinode.zero with type := type }
          gen := Function.update s.gen inum (s.gen inum + 1) }
        logWrite sb (IBLOCK sb inum)
        let q ← iget inum
        pure (some q)
      else
        iallocFrom type n (inum + 1)
    else
      pure none

def ialloc (type : FileType) : M (Option Ip) :=
  iallocFrom sb type sb.ninodes 1

def iupdate (q : Ip) : M Unit := do
  let ip ← gets (·.itable q)
  setVol (·.setDip sb ip.inum ip.copy)
  logWrite sb (IBLOCK sb ip.inum)

def ilock (q : Ip) : M Unit := do
  let ip ← gets (·.itable q)
  if ip.ref < 1 then
    halt .ilock
  else if ip.lock then
    halt .blocked
  else if ip.valid then
    setInode q fun ip => { ip with lock := true }
  else do
    let v ← gets (·.vol)
    if (v.dip sb ip.inum).type = .free then
      halt .ilockNoType
    else
      setInode q fun ip =>
        { ip with lock := true, valid := true, copy := v.dip sb ip.inum }

/-- Unlocking with a valid copy that was not written back is recorded. -/
def noteStale (q : Ip) : M Unit :=
  modify fun s => { s with
    hist := { s.hist with
      stale := s.hist.stale +
        if (s.itable q).valid ∧
          (s.itable q).copy.same (s.vol.dip sb (s.itable q).inum) = false then 1 else 0 } }

def iunlock (q : Ip) : M Unit := do
  let ip ← gets (·.itable q)
  if ¬ ip.lock ∨ ip.ref < 1 then
    halt .iunlock
  else do
    noteStale sb q
    setInode q fun ip => { ip with lock := false }

/-! ## Contents -/

/-- The entry `addrs[k]`, with a new block if there is none; 0 if there is no free block. -/
def bmapAddr (q : Ip) (k : Nat) : M Nat := do
  let ip ← gets (·.itable q)
  if ip.copy.addrs k = 0 then do
    let addr ← balloc sb
    if addr = 0 then
      pure 0
    else do
      setCopy q fun d => { d with addrs := Function.update d.addrs k addr }
      pure addr
  else
    pure (ip.copy.addrs k)

def bmap (q : Ip) (bn : Nat) : M Nat :=
  if bn < NDIRECT then
    bmapAddr sb q bn
  else if bn - NDIRECT < NINDIRECT then do
    let ind ← bmapAddr sb q NDIRECT
    if ind = 0 then
      pure 0
    else do
      let a ← gets (·.vol.data ind)
      if a.uint (bn - NDIRECT) = 0 then do
        let addr ← balloc sb
        if addr = 0 then
          pure 0
        else do
          setVol fun v => v.setData ind ((v.data ind).setUint (bn - NDIRECT) addr)
          logWrite sb ind
          pure addr
      else
        pure (a.uint (bn - NDIRECT))
  else
    halt .bmapOutOfRange

/-- The first loop of `itrunc`, with `n` direct blocks left from `addrs[i]` on. -/
def itruncDirect (q : Ip) : Nat → Nat → M Unit
  | 0, _ => pure ()
  | n + 1, i => do
    let ip ← gets (·.itable q)
    if ip.copy.addrs i = 0 then
      itruncDirect q n (i + 1)
    else do
      bfree sb (ip.copy.addrs i)
      setCopy q fun d => { d with addrs := Function.update d.addrs i 0 }
      itruncDirect q n (i + 1)

/-- The second loop of `itrunc`, over the entries of the indirect block. -/
def itruncEntries (a : Block) : Nat → Nat → M Unit
  | 0, _ => pure ()
  | n + 1, j =>
    if a.uint j = 0 then
      itruncEntries a n (j + 1)
    else do
      bfree sb (a.uint j)
      itruncEntries a n (j + 1)

/-- The indirect block's part of `itrunc`. -/
def itruncIndirect (q : Ip) : M Unit := do
  let ip ← gets (·.itable q)
  if ip.copy.addrs NDIRECT = 0 then
    pure ()
  else do
    let a ← gets (·.vol.data (ip.copy.addrs NDIRECT))
    itruncEntries sb a NINDIRECT 0
    bfree sb (ip.copy.addrs NDIRECT)
    setCopy q fun d => { d with addrs := Function.update d.addrs NDIRECT 0 }

def itrunc (q : Ip) : M Unit := do
  itruncDirect sb q NDIRECT 0
  itruncIndirect sb q
  setCopy q fun d => { d with size := 0 }
  iupdate sb q

/-- The part of `iput` that frees an inode without links. -/
def iputFree (q : Ip) : M Unit := do
  let ip ← gets (·.itable q)
  if ip.lock then
    halt .blocked
  else do
    setInode q fun ip => { ip with lock := true }
    itrunc sb q
    setCopy q fun d => { d with type := .free }
    iupdate sb q
    setInode q fun ip => { ip with valid := false, lock := false }

def iput (q : Ip) : M Unit := do
  let ip ← gets (·.itable q)
  if ip.ref = 1 ∧ ip.valid ∧ ip.copy.nlink = 0 then do
    iputFree sb q
    setInode q fun ip => { ip with ref := ip.ref - 1 }
  else
    setInode q fun ip => { ip with ref := ip.ref - 1 }

def iunlockput (q : Ip) : M Unit := do
  iunlock sb q
  iput sb q

/-- A read that comes to a block which is not there is recorded. -/
def noteHole (q : Ip) (bn : Nat) : M Unit :=
  modify fun s => { s with
    hist := { s.hist with
      holes := s.hist.holes +
        if (s.itable q).copy.slot s.vol.data (slotOf bn) = 0 then 1 else 0 } }

/-- The loop of `readi`.  `dst j` says whether byte `j` of the destination can be written; the
bytes read so far are `acc`. -/
def readiLoop (q : Ip) (dst : Nat → Bool) (n : Nat) :
    Nat → Nat → Nat → List UInt8 → M (Int × List UInt8)
  | 0, tot, _, acc => pure (tot, acc)
  | fuel + 1, tot, off, acc =>
    if tot < n then do
      noteHole q (off / BSIZE)
      let addr ← bmap sb q (off / BSIZE)
      if addr = 0 then
        pure (tot, acc)
      else do
        let a ← gets (·.vol.data addr)
        let m := min (n - tot) (BSIZE - off % BSIZE)
        if (List.range m).all fun j => dst (tot + j) then
          readiLoop q dst n fuel (tot + m) (off + m)
            (acc ++ (List.range m).map fun j => a (off % BSIZE + j))
        else
          pure (-1, acc)
    else
      pure (tot, acc)

/-- `off` and `n` are `uint`s; the bytes that were read stand beside the result. -/
def readi (q : Ip) (dst : Nat → Bool) (off n : Nat) : M (Int × List UInt8) := do
  let ip ← gets (·.itable q)
  if off > ip.copy.size ∨ (off + n) % 2 ^ 32 < off then
    pure (0, [])
  else if off + n > ip.copy.size then
    readiLoop sb q dst (ip.copy.size - off) (ip.copy.size - off) 0 off []
  else
    readiLoop sb q dst n n 0 off []

/-- How many of the `m` bytes from position `pos` on `either_copyin` can read. -/
def copied (src : Nat → Option UInt8) (pos m : Nat) : Nat :=
  ((List.range m).takeWhile fun j => (src (pos + j)).isSome).length

/-- The block `a` after `k` bytes from position `pos` of the source were stored at offset `o`. -/
def copyin (src : Nat → Option UInt8) (pos k o : Nat) (a : Block) : Block := fun x =>
  if o ≤ x ∧ x < o + k then (src (pos + (x - o))).getD 0 else a x

/-- The loop of `writei`; it returns the final `tot` and `off`.  `src j` is byte `j` of the source,
if it can be read: `either_copyin` stores the bytes before the first that cannot. -/
def writeiLoop (q : Ip) (src : Nat → Option UInt8) (n : Nat) : Nat → Nat → Nat → M (Nat × Nat)
  | 0, tot, off => pure (tot, off)
  | fuel + 1, tot, off =>
    if tot < n then do
      let addr ← bmap sb q (off / BSIZE)
      if addr = 0 then
        pure (tot, off)
      else do
        let m := min (n - tot) (BSIZE - off % BSIZE)
        let k := copied src tot m
        setVol fun v => v.setData addr (copyin src tot k (off % BSIZE) (v.data addr))
        if k < m then
          pure (tot, off)
        else do
          logWrite sb addr
          writeiLoop q src n fuel (tot + m) (off + m)
    else
      pure (tot, off)

/-- `off` and `n` are `uint`s. -/
def writei (q : Ip) (src : Nat → Option UInt8) (off n : Nat) : M Int := do
  let ip ← gets (·.itable q)
  if off > ip.copy.size ∨ (off + n) % 2 ^ 32 < off then
    pure (-1)
  else if off + n > MAXFILE * BSIZE then
    pure (-1)
  else do
    let r ← writeiLoop sb q src n n 0 off
    setCopy q fun d => if r.2 > d.size then { d with size := r.2 } else d
    iupdate sb q
    pure r.1

end Xv6.Fs
