import Xv6.Lib.Writes
import Xv6.Params

/-!
# Commit — the disk writes of `kernel/log.c`

This module translates the part of the log that touches the disk: `write_log`, `write_head`,
`install_trans`, `commit`, `read_head` and `recover_from_log`.  The buffer cache is seen through
`Cache`: the contents `bread` returns for every block, and the block writes `bwrite` has issued,
oldest first.  Disk writes are synchronous, so a crash keeps a prefix of that list.

Reference counts (`bunpin`, `brelse`) do not reach the disk and are left to the buffer cache model.
-/

namespace Xv6.Log

open Lib

/-! ## Blocks and the log area -/

/-- A block number, `uint blockno`. -/
abbrev BlockNo : Type := UInt32

/-- The contents of a block, as the `BSIZE / 4` words the log header is made of. -/
abbrev Block : Type := Fin (BSIZE / 4) → UInt32

instance : NeZero (BSIZE / 4) :=
  ⟨by decide⟩

abbrev Disk : Type := BlockNo → Block

/-- `log.start` and `log.size`: the header block and the `size - 1` data blocks behind it. -/
structure LogArea where
  start : Nat
  size : Nat
  fits : start + size ≤ 2 ^ 32

namespace LogArea

/-- The log area `mkfs` lays out: `logstart` is 2 and `nlog` is `LOGSIZE`. -/
def mkfs : LogArea :=
  { start := 2, size := LOGSIZE, fits := by decide }

/-- The block number `log.start + i`. -/
def block (L : LogArea) (i : Nat) : BlockNo :=
  UInt32.ofNat (L.start + i)

/-- Block `b` lies in the on-disk log. -/
def Mem (L : LogArea) (b : BlockNo) : Prop :=
  L.start ≤ b.toNat ∧ b.toNat < L.start + L.size

instance (L : LogArea) (b : BlockNo) : Decidable (L.Mem b) :=
  inferInstanceAs (Decidable (_ ∧ _))

theorem toNat_block (L : LogArea) {i : Nat} (hi : i < L.size) :
    (L.block i).toNat = L.start + i := by
  have hfits := L.fits
  have hlt : L.start + i < 2 ^ 32 := by omega
  simpa [block] using Nat.mod_eq_of_lt hlt

theorem mem_block (L : LogArea) {i : Nat} (hi : i < L.size) : L.Mem (L.block i) := by
  have hval := L.toNat_block hi
  unfold Mem
  omega

theorem block_inj (L : LogArea) {i j : Nat} (hi : i < L.size) (hj : j < L.size)
    (h : L.block i = L.block j) : i = j := by
  have hnat := congrArg UInt32.toNat h
  rw [L.toNat_block hi, L.toNat_block hj] at hnat
  omega

end LogArea

/-- `struct logheader`: the numbers of the logged blocks; `n` is the length of the list. -/
structure Logheader where
  block : List BlockNo
  fits : block.length ≤ LOGSIZE

/-! ## Header blocks -/

/-- Word `i` of a block. -/
def word (buf : Block) (i : Nat) : UInt32 :=
  buf (Fin.ofNat _ i)

/-- `lh->n` of a header block, a signed `int`. -/
def headCount (buf : Block) : Int :=
  (word buf 0).toInt32.toInt

/-- `read_head`: the loop copies `n` block numbers.  A count above `LOGSIZE` runs past the end of
`log.lh.block`, so it has no result; a negative one copies nothing. -/
def readHead (buf : Block) : Option Logheader :=
  if h : (headCount buf).toNat ≤ LOGSIZE then
    some
      { block := (List.range (headCount buf).toNat).map fun i => word buf (i + 1)
        fits := by simpa using h }
  else
    none

/-- The header block after `write_head` has stored `n` and the first `n` block numbers in it. -/
def setHead (buf : Block) (lh : List BlockNo) : Block := fun j =>
  if j.val = 0 then
    UInt32.ofNat lh.length
  else
    lh.getD (j.val - 1) (buf j)

/-! ## The buffer cache as the log sees it -/

structure Cache where
  data : BlockNo → Block
  out : List (BlockNo × Block)

namespace Cache

/-- The cache right after boot: every `bread` goes to the disk. -/
def fresh (d : Disk) : Cache :=
  { data := d, out := [] }

/-- `memmove(dst->data, src->data, BSIZE)`. -/
def memmove (c : Cache) (dst src : BlockNo) : Cache :=
  { c with data := Function.update c.data dst (c.data src) }

/-- `bwrite`. -/
def bwrite (c : Cache) (b : BlockNo) : Cache :=
  { c with out := c.out ++ [(b, c.data b)] }

end Cache

/-! ## The log's loops over `tail` -/

/-- `write_log` from index `tail` on: copy each modified block into its log block. -/
def writeLogFrom (L : LogArea) : Nat → List BlockNo → Cache → Cache
  | _, [], c => c
  | tail, b :: bs, c =>
    writeLogFrom L (tail + 1) bs ((c.memmove (L.block (tail + 1)) b).bwrite (L.block (tail + 1)))

def writeLog (L : LogArea) (lh : List BlockNo) (c : Cache) : Cache :=
  writeLogFrom L 0 lh c

/-- `install_trans` from index `tail` on: copy each log block to its home location. -/
def installTransFrom (L : LogArea) : Nat → List BlockNo → Cache → Cache
  | _, [], c => c
  | tail, b :: bs, c =>
    installTransFrom L (tail + 1) bs ((c.memmove b (L.block (tail + 1))).bwrite b)

def installTrans (L : LogArea) (lh : List BlockNo) (c : Cache) : Cache :=
  installTransFrom L 0 lh c

/-- `write_head`. -/
def writeHead (L : LogArea) (lh : List BlockNo) (c : Cache) : Cache :=
  Cache.bwrite
    { c with data := Function.update c.data (L.block 0) (setHead (c.data (L.block 0)) lh) }
    (L.block 0)

/-- `commit`. -/
def commit (L : LogArea) (lh : Logheader) (c : Cache) : Cache :=
  if 0 < lh.block.length then
    writeHead L [] (installTrans L lh.block (writeHead L lh.block (writeLog L lh.block c)))
  else
    c

/-- `recover_from_log`. -/
def recoverFromLog (L : LogArea) (c : Cache) : Option Cache :=
  (readHead (c.data (L.block 0))).map fun lh =>
    writeHead L [] (installTrans L lh.block c)

end Xv6.Log
