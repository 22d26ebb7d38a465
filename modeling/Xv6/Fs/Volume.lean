import Mathlib.Logic.Function.Basic
import Xv6.Params

/-!
# Volume — the file system's disk as the buffer cache shows it

The blocks that `kernel/fs.c` reads and writes.  An inode block is kept as its `struct dinode`s, a
bitmap block as its bits, and a data block as its bytes, all under the block numbers of the source.
-/

namespace Xv6.Fs

open Function (update)

/-! ## On-disk data -/

/-- The types of `kernel/stat.h`; a free inode has type 0. -/
inductive FileType where
  | free
  | dir
  | file
  | device
  deriving DecidableEq, Repr

/-- The value of a C `short` after an assignment of `x`. -/
def short (x : Int) : Int :=
  x.bmod (2 ^ 16)

/-- The fields of `struct superblock` that `kernel/fs.c` and `kernel/log.c` read, and `nblocks`,
from which the first data block follows. -/
structure Superblock where
  size : Nat
  nblocks : Nat
  ninodes : Nat
  nlog : Nat
  inodestart : Nat
  bmapstart : Nat
  nblocks_lt : nblocks < size
  size_lt : size < 2 ^ 32
  ninodes_le : ninodes ≤ 2 ^ 16

namespace Superblock

/-- The number of blocks before the first data block. -/
def nmeta (sb : Superblock) : Nat :=
  sb.size - sb.nblocks

end Superblock

/-- Block containing inode `i`. -/
def IBLOCK (sb : Superblock) (i : Nat) : Nat :=
  i / IPB + sb.inodestart

/-- Block of the free map containing the bit for block `b`. -/
def BBLOCK (sb : Superblock) (b : Nat) : Nat :=
  b / BPB + sb.bmapstart

/-- `struct dinode`; `addrs` is read at `0 .. NDIRECT`. -/
structure Dinode where
  type : FileType
  major : Int
  minor : Int
  nlink : Int
  size : Nat
  addrs : Nat → Nat

/-- A `struct dinode` after `memset(dip, 0, sizeof(*dip))`. -/
def Dinode.zero : Dinode :=
  { type := .free, major := 0, minor := 0, nlink := 0, size := 0, addrs := fun _ => 0 }

/-- The bytes of a data block, at offsets below `BSIZE`. -/
abbrev Block : Type := Nat → UInt8

namespace Block

def zero : Block :=
  fun _ => 0

/-- `((uint*)data)[j]`. -/
def uint (a : Block) (j : Nat) : Nat :=
  (a (4 * j)).toNat + 2 ^ 8 * (a (4 * j + 1)).toNat + 2 ^ 16 * (a (4 * j + 2)).toNat +
    2 ^ 24 * (a (4 * j + 3)).toNat

/-- `((uint*)data)[j] = v`. -/
def setUint (a : Block) (j v : Nat) : Block := fun x =>
  if x / 4 = j then UInt8.ofNat (v / 2 ^ (8 * (x % 4))) else a x

end Block

/-! ### The block map of an inode -/

/-- The number of slots of an inode. -/
abbrev NSLOT : Nat := NDIRECT + 1 + NINDIRECT

/-- The block in slot `k` of an inode, 0 for none. -/
def Dinode.slot (d : Dinode) (data : Nat → Block) (k : Nat) : Nat :=
  if k ≤ NDIRECT then
    d.addrs k
  else if k < NSLOT ∧ d.addrs NDIRECT ≠ 0 then
    (data (d.addrs NDIRECT)).uint (k - (NDIRECT + 1))
  else
    0

/-- The slot of block `bn` of a file. -/
def slotOf (bn : Nat) : Nat :=
  if bn < NDIRECT then bn else bn + 1

/-- Whether two inodes agree in all their fields. -/
def Dinode.same (d e : Dinode) : Bool :=
  decide (d.type = e.type ∧ d.major = e.major ∧ d.minor = e.minor ∧ d.nlink = e.nlink ∧
    d.size = e.size) && (List.range (NDIRECT + 1)).all fun k => d.addrs k == e.addrs k

/-! ### Directory entries -/

/-- A `char name[DIRSIZ]`, read at offsets below `DIRSIZ`. -/
abbrev Name : Type := Nat → UInt8

/-- `struct dirent`. -/
structure Dirent where
  inum : Nat
  name : Name

namespace Dirent

/-- A `struct dirent` after `memset(&de, 0, sizeof(de))`. -/
def zero : Dirent :=
  { inum := 0, name := fun _ => 0 }

/-- The entry's bytes in memory. -/
def bytes (de : Dirent) : Nat → UInt8
  | 0 => UInt8.ofNat de.inum
  | 1 => UInt8.ofNat (de.inum / 2 ^ 8)
  | j + 2 => de.name j

def ofBytes (a : Nat → UInt8) : Dirent :=
  { inum := (a 0).toNat + 2 ^ 8 * (a 1).toNat, name := fun j => a (j + 2) }

end Dirent

/-! ## The volume -/

/-- The blocks as `bread` returns them.  `disk` has the data blocks as they were last logged: a
buffer that was changed and not logged goes back to that when it is recycled. -/
structure Volume where
  dinode : Nat → Nat → Dinode
  bitmap : Nat → Nat → Bool
  data : Nat → Block
  disk : Nat → Block

namespace Volume

variable (sb : Superblock)

/-- The on-disk inode `i`. -/
def dip (v : Volume) (i : Nat) : Dinode :=
  v.dinode (IBLOCK sb i) (i % IPB)

def setDip (v : Volume) (i : Nat) (d : Dinode) : Volume :=
  { v with
    dinode := update v.dinode (IBLOCK sb i) (update (v.dinode (IBLOCK sb i)) (i % IPB) d) }

/-- The bit of block `b`. -/
def bit (v : Volume) (b : Nat) : Bool :=
  v.bitmap (BBLOCK sb b) (b % BPB)

def setBit (v : Volume) (b : Nat) (x : Bool) : Volume :=
  { v with
    bitmap := update v.bitmap (BBLOCK sb b) (update (v.bitmap (BBLOCK sb b)) (b % BPB) x) }

def setData (v : Volume) (b : Nat) (a : Block) : Volume :=
  { v with data := update v.data b a }

/-- What `log_write` keeps of a data block. -/
def logged (v : Volume) (b : Nat) : Volume :=
  { v with disk := update v.disk b (v.data b) }

/-- The buffer of block `b` is recycled and read again. -/
def evict (v : Volume) (b : Nat) : Volume :=
  { v with data := update v.data b (v.disk b) }

end Volume
end Xv6.Fs
