import Xv6.Fs.Dir

/-!
# Main — the program that makes a file system image

`mkfs/mkfs.c`.  The image is kept as the bytes of its blocks, and a `struct dinode` as the bytes it
has in an inode block, because an inode number that is too large is written over other blocks.
-/

namespace Xv6.Mkfs

open Lib Prog Fs

/-! ## Geometry -/

/-- Size of the file system in blocks. -/
abbrev FSSIZE : Nat := 2000

abbrev NINODES : Nat := 200

abbrev nbitmap : Nat := FSSIZE / (BSIZE * 8) + 1

abbrev ninodeblocks : Nat := NINODES / IPB + 1

abbrev nlog : Nat := LOGSIZE

/-- The number of blocks before the data blocks. -/
abbrev nmeta : Nat := 2 + nlog + ninodeblocks + nbitmap

/-- What `main` puts into the superblock. -/
def sb : Superblock where
  size := FSSIZE
  nblocks := FSSIZE - nmeta
  ninodes := NINODES
  nlog := nlog
  inodestart := 2 + nlog
  bmapstart := 2 + nlog + ninodeblocks
  nblocks_lt := by decide
  size_lt := by decide
  ninodes_le := by decide

/-! ## State -/

/-- How `mkfs` ends when it does not succeed. -/
inductive Exit where
  | assert
  | die
  deriving DecidableEq, Repr

/-- The image file and the global variables. -/
structure Image where
  disk : Nat → Block
  freeinode : Nat
  freeblock : Nat

abbrev M : Type → Type := Prog Image Exit

/-! ## Sectors and inodes -/

/-- The image file has `FSSIZE` blocks: a read beyond its end returns 0 bytes. -/
def rsect (sec : Nat) : M Block := do
  let disk ← gets (·.disk)
  if sec < FSSIZE then pure (disk sec) else halt .die

def wsect (sec : Nat) (buf : Block) : M Unit :=
  modify fun s => { s with disk := Function.update s.disk sec buf }

/-- The bytes of the `struct dinode` in place `k` of an inode block. -/
def slice (buf : Block) (k : Nat) : Block :=
  fun x => buf (64 * k + x)

/-- `din` stored in place `k` of an inode block. -/
def splice (buf : Block) (k : Nat) (din : Block) : Block :=
  fun x => if x / 64 = k then din (x % 64) else buf x

def rinode (inum : Nat) : M Block := do
  let buf ← rsect (IBLOCK sb inum)
  pure (slice buf (inum % IPB))

def winode (inum : Nat) (din : Block) : M Unit := do
  let buf ← rsect (IBLOCK sb inum)
  wsect (IBLOCK sb inum) (splice buf (inum % IPB) din)

/-- The types of `kernel/stat.h`. -/
abbrev T_DIR : UInt8 := 1

abbrev T_FILE : UInt8 := 2

/-- A new `struct dinode`: `type` is its first `short` and `nlink` its fourth. -/
def newInode (type : UInt8) : Block :=
  fun x => if x = 0 then type else if x = 6 then 1 else 0

def ialloc (type : UInt8) : M Nat := do
  let inum ← gets (·.freeinode)
  modify fun s => { s with freeinode := s.freeinode + 1 }
  winode inum (newInode type)
  pure inum

/-! ### The fields of a `struct dinode` -/

def size (din : Block) : Nat :=
  din.uint 2

def setSize (din : Block) (n : Nat) : Block :=
  din.setUint 2 n

def addr (din : Block) (k : Nat) : Nat :=
  din.uint (3 + k)

def setAddr (din : Block) (k b : Nat) : Block :=
  din.setUint (3 + k) b

/-! ## Appending -/

/-- `freeblock++`. -/
def takeBlock : M Nat := do
  let b ← gets (·.freeblock)
  modify fun s => { s with freeblock := s.freeblock + 1 }
  pure b

/-- `din` with `addrs[k]` filled. -/
def fillAddr (din : Block) (k : Nat) : M Block := do
  if addr din k = 0 then do
    let b ← takeBlock
    pure (setAddr din k b)
  else
    pure din

/-- The block `x` of `iappend` for block `fbn` of the file, with the new `din`. -/
def blockOf (din : Block) (fbn : Nat) : M (Block × Nat) := do
  if fbn < NDIRECT then do
    let din ← fillAddr din fbn
    pure (din, addr din fbn)
  else do
    let din ← fillAddr din NDIRECT
    let indirect ← rsect (addr din NDIRECT)
    if indirect.uint (fbn - NDIRECT) = 0 then do
      let b ← takeBlock
      wsect (addr din NDIRECT) (indirect.setUint (fbn - NDIRECT) b)
      pure (din, b)
    else
      pure (din, indirect.uint (fbn - NDIRECT))

/-- The loop of `iappend`, with the bytes of `p` from `pos` on left; it returns the final `din` and
`off`. -/
def iappendLoop (p : List UInt8) : Nat → Block → Nat → Nat → M (Block × Nat)
  | 0, din, off, _ => pure (din, off)
  | fuel + 1, din, off, pos =>
    if pos < p.length then
      if off / BSIZE < MAXFILE then do
        let r ← blockOf din (off / BSIZE)
        let n1 := min (p.length - pos) ((off / BSIZE + 1) * BSIZE - off)
        let buf ← rsect r.2
        wsect r.2 (copyin (fun j => p[j]?) pos n1 (off - off / BSIZE * BSIZE) buf)
        iappendLoop p fuel r.1 (off + n1) (pos + n1)
      else
        halt .assert
    else
      pure (din, off)

def iappend (inum : Nat) (p : List UInt8) : M Unit := do
  let din ← rinode inum
  let r ← iappendLoop p p.length din (size din) 0
  winode inum (setSize r.1 r.2)

/-! ## The bitmap -/

/-- The loop of `balloc`: the bits below `n` are set. -/
def usedBits : Nat → Block
  | 0 => .zero
  | n + 1 => fun x =>
    if x = n / 8 then usedBits n x ||| (1 <<< UInt8.ofNat (n % 8)) else usedBits n x

def balloc (used : Nat) : M Unit :=
  if used < BSIZE * 8 then wsect sb.bmapstart (usedBits used) else halt .assert

/-! ## Input files -/

/-- An argument and what the calls of `read` on the file return, up to the end of the file. -/
structure Input where
  arg : List UInt8
  reads : List (List UInt8)

/-- `"user/"` -/
def user : List UInt8 := [117, 115, 101, 114, 47]

def underscore : UInt8 := 95

/-- The argument without `user/`. -/
def Input.shortname (f : Input) : List UInt8 :=
  let arg := f.arg.takeWhile (· ≠ 0)
  if user.isPrefixOf arg then arg.drop user.length else arg

/-- The name in the file system, before it is cut to `DIRSIZ` bytes. -/
def Input.name (f : Input) : List UInt8 :=
  if f.shortname.head? = some underscore then f.shortname.tail else f.shortname

/-- The bytes of a `struct dirent`. -/
def direntBytes (inum : Nat) (name : List UInt8) : List UInt8 :=
  (List.range DESIZE).map (Dirent.bytes { inum := inum, name := .ofList name })

def appendAll (inum : Nat) : List (List UInt8) → M Unit
  | [] => pure ()
  | buf :: l => do
    iappend inum buf
    appendAll inum l

def addFile (f : Input) : M Unit :=
  if slash ∈ f.shortname then
    halt .assert
  else do
    let inum ← ialloc T_FILE
    iappend ROOTINO (direntBytes inum f.name)
    appendAll inum f.reads

def addFiles : List Input → M Unit
  | [] => pure ()
  | f :: l => do
    addFile f
    addFiles l

/-- The superblock's bytes. -/
def superblock : Block :=
  (((((((Block.zero.setUint 0 0x10203040).setUint 1 FSSIZE).setUint 2 (FSSIZE - nmeta)).setUint 3
    NINODES).setUint 4 nlog).setUint 5 2).setUint 6 (2 + nlog)).setUint 7 (2 + nlog + ninodeblocks)

/-- The root's size is rounded up. -/
def fixRoot : M Unit := do
  let din ← rinode ROOTINO
  winode ROOTINO (setSize din ((size din / BSIZE + 1) * BSIZE))

/-- `main` up to the end of its loop over the arguments. -/
def build (files : List Input) : M Unit := do
  wsect 1 superblock
  let rootino ← ialloc T_DIR
  if rootino = ROOTINO then do
    iappend rootino (direntBytes rootino dot)
    iappend rootino (direntBytes rootino dotdot)
    addFiles files
  else
    halt .assert

def main (files : List Input) : M Unit := do
  build files
  fixRoot
  let used ← gets (·.freeblock)
  balloc used

/-- All blocks have been written with zeros. -/
def start : Image where
  disk := fun _ => .zero
  freeinode := 1
  freeblock := nmeta

end Xv6.Mkfs
