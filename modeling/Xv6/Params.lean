import Mathlib.Algebra.Group.Int.Defs
import Mathlib.Algebra.GroupWithZero.Nat

/-!
# Params — the kernel's compile-time constants

The constants of the kernel's headers that the modelled code reads, under the source's own names.
-/

namespace Xv6

/-! ## `kernel/param.h` -/

/-- Maximum number of processes. -/
abbrev NPROC : Nat := 64

/-- A slot of `proc[NPROC]`; a process is named by its slot. -/
abbrev Slot : Type := Fin NPROC

/-- Maximum number of CPUs. -/
abbrev NCPU : Nat := 8

/-- A CPU; one that takes no step is as good as absent. -/
abbrev Cpu : Type := Fin NCPU

/-- Open files per process. -/
abbrev NOFILE : Nat := 16

/-- Open files per system. -/
abbrev NFILE : Nat := 100

/-- Maximum number of active inodes. -/
abbrev NINODE : Nat := 50

/-- Maximum major device number. -/
abbrev NDEV : Nat := 10

/-- Maximum file path name. -/
abbrev MAXPATH : Nat := 128

/-- Device number of the file system's root disk. -/
abbrev ROOTDEV : UInt32 := 1

/-- Maximum number of blocks any file system operation writes. -/
abbrev MAXOPBLOCKS : Nat := 10

/-- Maximum number of data blocks in the on-disk log. -/
abbrev LOGSIZE : Nat := MAXOPBLOCKS * 3

/-- Size of the disk block cache. -/
abbrev NBUF : Nat := MAXOPBLOCKS * 3

/-! ## `kernel/fs.h` -/

/-- Block size in bytes. -/
abbrev BSIZE : Nat := 1024

/-- Root inode number. -/
abbrev ROOTINO : Nat := 1

/-- Block numbers in an inode. -/
abbrev NDIRECT : Nat := 12

/-- Block numbers in an indirect block. -/
abbrev NINDIRECT : Nat := BSIZE / 4

/-- Maximum file size in blocks. -/
abbrev MAXFILE : Nat := NDIRECT + NINDIRECT

/-- Inodes per block; a `struct dinode` has 64 bytes. -/
abbrev IPB : Nat := BSIZE / 64

/-- Bitmap bits per block. -/
abbrev BPB : Nat := BSIZE * 8

/-- Length of a name in a directory entry. -/
abbrev DIRSIZ : Nat := 14

/-- The size of a `struct dirent`. -/
abbrev DESIZE : Nat := 2 + DIRSIZ

/-! ## `kernel/fcntl.h` -/

abbrev O_RDONLY : Nat := 0x000

abbrev O_WRONLY : Nat := 0x001

abbrev O_RDWR : Nat := 0x002

abbrev O_CREATE : Nat := 0x200

abbrev O_TRUNC : Nat := 0x400

/-! ## `kernel/riscv.h` and `kernel/memlayout.h` -/

/-- Bytes per page. -/
abbrev PGSIZE : Nat := 4096

/-- One beyond the highest virtual address. -/
abbrev MAXVA : Nat := 2 ^ 38

/-- The page of the trampoline code, at the highest address. -/
abbrev TRAMPOLINE : Nat := MAXVA - PGSIZE

/-- The page of a process's trapframe. -/
abbrev TRAPFRAME : Nat := TRAMPOLINE - PGSIZE

/-- Where the kernel and physical memory begin. -/
abbrev KERNBASE : Nat := 0x80000000

/-- Where physical memory ends. -/
abbrev PHYSTOP : Nat := KERNBASE + 128 * 1024 * 1024

/-! ## Indices

The tables are not empty, so a numeral names an entry. -/

instance : NeZero NPROC := ⟨by decide⟩

instance : NeZero NCPU := ⟨by decide⟩

instance : NeZero NINODE := ⟨by decide⟩

instance : NeZero NBUF := ⟨by decide⟩

instance neZero_two : NeZero 2 := ⟨by decide⟩

theorem toNat_lt {i : Int} {n : Nat} (h : 0 ≤ i ∧ i < n) : i.toNat < n := by
  omega

end Xv6
