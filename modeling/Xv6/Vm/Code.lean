import Xv6.Vm.Memory

/-!
# Code — page tables and user memory of `kernel/vm.c`

A page table is the address of a page of 512 entries.  Addresses are 64 bits wide, so that sums are
taken modulo `2 ^ 64`.  The address in a loop over pages moves up by a page in each round, and
`walk` panics as soon as it is not below `MAXVA`; the loops below have that many rounds.
-/

namespace Xv6.Vm

open Lib Kalloc

/-! ## Entries -/

abbrev PTE_V : Nat := 1
abbrev PTE_R : Nat := 2
abbrev PTE_W : Nat := 4
abbrev PTE_X : Nat := 8
abbrev PTE_U : Nat := 16

/-- `pte & flags` is not zero. -/
def has (pte flags : Nat) : Prop :=
  pte &&& flags ≠ 0

instance (pte flags : Nat) : Decidable (has pte flags) :=
  inferInstanceAs (Decidable (_ ≠ _))

def PA2PTE (pa : Nat) : Nat :=
  pa / 2 ^ 12 * 2 ^ 10

def PTE2PA (pte : Nat) : Nat :=
  pte / 2 ^ 10 * 2 ^ 12 % 2 ^ 64

def PTE_FLAGS (pte : Nat) : Nat :=
  pte &&& 0x3FF

/-- The index of an address in the table of a level. -/
def PX (level va : Nat) : Nat :=
  va / 2 ^ (12 + 9 * level) % 512

/-- The rounds of a loop over pages. -/
def ROUNDS : Nat :=
  MAXVA / PGSIZE + 1

/-! ## `walk` -/

/-- The loop of `walk`, at a table of this level. -/
def walkFrom (va : Nat) (alloc : Bool) : Nat → Nat → Code Nat
  | 0, pagetable => pure (pagetable + 8 * PX 0 va)
  | level + 1, pagetable => do
    let pte := pagetable + 8 * PX (level + 1) va
    let e ← load pte
    if has e PTE_V then
      walkFrom va alloc level (PTE2PA e)
    else if alloc then do
      let next ← kalloc
      if next = 0 then
        pure 0
      else do
        memset next 0 PGSIZE
        store pte (PA2PTE next ||| PTE_V)
        walkFrom va alloc level next
    else
      pure 0

/-- `walk`; the address is 0 if there is no entry. -/
def walk (pagetable va : Nat) (alloc : Bool) : Code Nat :=
  if MAXVA ≤ va then
    Prog.halt .walk
  else
    walkFrom va alloc 2 pagetable

def walkaddr (pagetable va : Nat) : Code Nat :=
  if MAXVA ≤ va then
    pure 0
  else do
    let pte ← walk pagetable va false
    if pte = 0 then
      pure 0
    else do
      let e ← load pte
      if ¬ has e PTE_V then
        pure 0
      else if ¬ has e PTE_U then
        pure 0
      else
        pure (PTE2PA e)

/-! ## Mappings -/

/-- The loop of `mappages`. -/
def mapLoop (pagetable perm last : Nat) : Nat → Nat → Nat → Code Int
  | 0, _, _ => Prog.halt .walk
  | rounds + 1, a, pa => do
    let pte ← walk pagetable a true
    if pte = 0 then
      pure (-1)
    else do
      let e ← load pte
      if has e PTE_V then
        Prog.halt .mappagesRemap
      else do
        store pte (PA2PTE pa ||| perm ||| PTE_V)
        if a = last then
          pure 0
        else
          mapLoop pagetable perm last rounds ((a + PGSIZE) % 2 ^ 64) ((pa + PGSIZE) % 2 ^ 64)

def mappages (pagetable va size pa perm : Nat) : Code Int :=
  if size = 0 then
    Prog.halt .mappagesSize
  else
    mapLoop pagetable perm (PGROUNDDOWN ((va + size - 1) % 2 ^ 64)) ROUNDS (PGROUNDDOWN va) pa

/-- The loop of `uvmunmap`. -/
def unmapLoop (kend : KernelEnd) (pagetable stop : Nat) (doFree : Bool) : Nat → Nat → Code Unit
  | 0, _ => Prog.halt .walk
  | rounds + 1, a =>
    if a < stop then do
      let pte ← walk pagetable a false
      if pte = 0 then
        Prog.halt .uvmunmapWalk
      else do
        let e ← load pte
        if ¬ has e PTE_V then
          Prog.halt .uvmunmapNotMapped
        else if PTE_FLAGS e = PTE_V then
          Prog.halt .uvmunmapNotALeaf
        else do
          if doFree then kfree kend (PTE2PA e)
          store pte 0
          unmapLoop kend pagetable stop doFree rounds ((a + PGSIZE) % 2 ^ 64)
    else
      pure ()

def uvmunmap (kend : KernelEnd) (pagetable va npages : Nat) (doFree : Bool) : Code Unit :=
  if va % PGSIZE ≠ 0 then
    Prog.halt .uvmunmapNotAligned
  else
    unmapLoop kend pagetable ((va + npages * PGSIZE) % 2 ^ 64) doFree ROUNDS va

/-! ## User memory -/

def uvmcreate : Code Nat := do
  let pagetable ← kalloc
  if pagetable = 0 then
    pure 0
  else do
    memset pagetable 0 PGSIZE
    pure pagetable

/-- A number as an `int`, and that as 64 bits. -/
def intBits (n : Nat) : Nat :=
  if n % 2 ^ 32 < 2 ^ 31 then n % 2 ^ 32 else n % 2 ^ 32 + (2 ^ 64 - 2 ^ 32)

def uvmdealloc (kend : KernelEnd) (pagetable oldsz newsz : Nat) : Code Nat :=
  if oldsz ≤ newsz then
    pure oldsz
  else do
    if PGROUNDUP newsz < PGROUNDUP oldsz then
      uvmunmap kend pagetable (PGROUNDUP newsz)
        (intBits ((PGROUNDUP oldsz - PGROUNDUP newsz) / PGSIZE)) true
    pure newsz

/-- The loop of `uvmalloc`. -/
def allocLoop (kend : KernelEnd) (pagetable oldsz newsz xperm : Nat) : Nat → Nat → Code Nat
  | 0, _ => Prog.halt .walk
  | rounds + 1, a =>
    if a < newsz then do
      let mem ← kalloc
      if mem = 0 then do
        let _ ← uvmdealloc kend pagetable a oldsz
        pure 0
      else do
        memset mem 0 PGSIZE
        let r ← mappages pagetable a PGSIZE mem (PTE_R ||| PTE_U ||| xperm)
        if r ≠ 0 then do
          kfree kend mem
          let _ ← uvmdealloc kend pagetable a oldsz
          pure 0
        else
          allocLoop kend pagetable oldsz newsz xperm rounds ((a + PGSIZE) % 2 ^ 64)
    else
      pure newsz

def uvmalloc (kend : KernelEnd) (pagetable oldsz newsz xperm : Nat) : Code Nat :=
  if newsz < oldsz then
    pure oldsz
  else
    allocLoop kend pagetable (PGROUNDUP oldsz) newsz xperm ROUNDS (PGROUNDUP oldsz)

/-- The loop of `freewalk`, with this many entries left; `child` frees a lower table. -/
def freeEntries (child : Nat → Code Unit) (pagetable : Nat) : Nat → Code Unit
  | 0 => pure ()
  | left + 1 => do
    let i := 511 - left
    let pte ← load (pagetable + 8 * i)
    if has pte PTE_V ∧ ¬ has pte (PTE_R ||| PTE_W ||| PTE_X) then do
      child (PTE2PA pte)
      store (pagetable + 8 * i) 0
      freeEntries child pagetable left
    else if has pte PTE_V then
      Prog.halt .freewalkLeaf
    else
      freeEntries child pagetable left

/-- `freewalk` of a table with this many levels of tables. -/
def freewalk (kend : KernelEnd) : Nat → Nat → Code Unit
  | 0, _ => Prog.halt .freewalkBelow
  | levels + 1, pagetable => do
    freeEntries (freewalk kend levels) pagetable 512
    kfree kend pagetable

def uvmfree (kend : KernelEnd) (pagetable sz : Nat) : Code Unit := do
  if 0 < sz then uvmunmap kend pagetable 0 (PGROUNDUP sz / PGSIZE) true
  freewalk kend 3 pagetable

/-! ## Copies between the kernel and user memory -/

/-- The loop of `copyout`.  `src` has the bytes in the kernel. -/
def copyoutLoop (pagetable : Nat) : Nat → Nat → (Nat → UInt8) → Nat → Code Int
  | 0, _, _, _ => pure (-1)
  | rounds + 1, dstva, src, len =>
    if 0 < len then do
      let va0 := PGROUNDDOWN dstva
      let pa0 ← walkaddr pagetable va0
      if pa0 = 0 then
        pure (-1)
      else do
        let n := min (PGSIZE - (dstva - va0)) len
        Prog.modify fun m => { m with byte := blit m.byte (pa0 + (dstva - va0)) n src }
        copyoutLoop pagetable rounds ((va0 + PGSIZE) % 2 ^ 64) (fun i => src (i + n)) (len - n)
    else
      pure 0

def copyout (pagetable dstva : Nat) (src : Nat → UInt8) (len : Nat) : Code Int :=
  copyoutLoop pagetable (ROUNDS + 1) dstva src len

/-- The bytes of physical memory from an address on. -/
def Mem.slice (m : Mem) (pa n : Nat) : List UInt8 :=
  (List.range n).map fun i => m.byte (pa + i)

/-- The loop of `copyin`, with the bytes that it stores from `dst` on. -/
def copyinLoop (pagetable : Nat) : Nat → Nat → Nat → Code (Int × List UInt8)
  | 0, _, _ => pure (-1, [])
  | rounds + 1, srcva, len =>
    if 0 < len then do
      let va0 := PGROUNDDOWN srcva
      let pa0 ← walkaddr pagetable va0
      if pa0 = 0 then
        pure (-1, [])
      else do
        let n := min (PGSIZE - (srcva - va0)) len
        let bytes ← Prog.gets fun m => m.slice (pa0 + (srcva - va0)) n
        let r ← copyinLoop pagetable rounds ((va0 + PGSIZE) % 2 ^ 64) (len - n)
        pure (r.1, bytes ++ r.2)
    else
      pure (0, [])

def copyin (pagetable srcva len : Nat) : Code (Int × List UInt8) :=
  copyinLoop pagetable (ROUNDS + 1) srcva len

/-- The inner loop of `copyinstr`: the bytes that it stores, and `got_null`. -/
def strPart (b : Nat → UInt8) (p : Nat) : Nat → List UInt8 × Bool
  | 0 => ([], false)
  | n + 1 =>
    if b p = 0 then
      ([0], true)
    else
      let r := strPart b (p + 1) n
      (b p :: r.1, r.2)

/-- The loop of `copyinstr`, with the bytes that it stores from `dst` on. -/
def copyinstrLoop (pagetable : Nat) : Nat → Nat → Nat → Code (Int × List UInt8)
  | 0, _, _ => pure (-1, [])
  | rounds + 1, srcva, max =>
    if 0 < max then do
      let va0 := PGROUNDDOWN srcva
      let pa0 ← walkaddr pagetable va0
      if pa0 = 0 then
        pure (-1, [])
      else do
        let n := min (PGSIZE - (srcva - va0)) max
        let part ← Prog.gets fun m => strPart m.byte (pa0 + (srcva - va0)) n
        if part.2 then
          pure (0, part.1)
        else do
          let r ← copyinstrLoop pagetable rounds ((va0 + PGSIZE) % 2 ^ 64) (max - n)
          pure (r.1, part.1 ++ r.2)
    else
      pure (-1, [])

def copyinstr (pagetable srcva max : Nat) : Code (Int × List UInt8) :=
  copyinstrLoop pagetable (ROUNDS + 1) srcva max

end Xv6.Vm
