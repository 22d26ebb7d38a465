import Xv6.Lib.Intervals
import Xv6.Lib.Transition
import Xv6.Params
import Mathlib.Logic.Function.Basic

/-!
# Model — the user heap of `user/umalloc.c`

The allocator keeps its free blocks in a circular list that goes through `base`, in the order of
their addresses.  A block begins with a header that holds its size in units of the size of a header.

The answers of `sbrk` are an argument of the model.  It returns addresses at or above the end of the
memory it has returned before, as long as the sizes of blocks cannot overflow.
-/

namespace Xv6.Umalloc

open Lib
open Function (update)

/-- `sizeof(Header)` -/
abbrev UNIT : Nat := 16

/-- The address of `base`, and where the memory begins that `sbrk` returns. -/
structure Layout where
  base : Nat
  heap : Nat
  base_pos : 0 < base
  base_lt : base + UNIT ≤ heap

structure Header where
  ptr : Nat
  size : Nat
  deriving DecidableEq

/-- A block that `malloc` has returned: the address of its header and the request. -/
structure Live where
  addr : Nat
  nbytes : Nat
  deriving DecidableEq

structure St where
  mem : Nat → Header
  /-- 0 before the first call of `malloc`. -/
  freep : Nat
  /-- Where the memory ends that `sbrk` has returned. -/
  brk : Nat
  /-- The number of calls of `sbrk`. -/
  calls : Nat
  /-- The blocks that are allocated. -/
  live : List Live
  /-- The regions that `sbrk` has returned. -/
  obtained : List Interval

/-- Where the memory ends whose units the 32 bits of a size can count.  The machine has less:
`PHYSTOP - KERNBASE`. -/
abbrev LIMIT : Nat := UNIT * (2 ^ 32 - 1)

/-- For each call of `sbrk` how far above the end of the heap it returns memory, if it does. -/
abbrev Oracle : Type := Nat → Option Nat

/-- `sbrk(n)`; without an address it returns -1. -/
def sbrk (o : Oracle) (s : St) (n : Nat) : Option Nat × St :=
  match o s.calls with
  | some gap =>
    if s.brk + gap + n ≤ LIMIT then
      (some (s.brk + gap), { s with
        brk := s.brk + gap + n
        calls := s.calls + 1
        obtained := ⟨s.brk + gap, s.brk + gap + n⟩ :: s.obtained })
    else
      (none, { s with calls := s.calls + 1 })
  | none => (none, { s with calls := s.calls + 1 })

/-- `sbrk` for any `int`, given by its 32 bits.  `growproc` makes the process smaller if it is
negative, and leaves it as it is if the process does not have so much. -/
def sbrkInt (o : Oracle) (s : St) (n : Nat) : Option Nat × St :=
  if 0 < n ∧ n < 2 ^ 31 then
    sbrk o s n
  else
    let less := (2 ^ 32 - n) % 2 ^ 32
    let sz := s.brk + (o s.calls).getD 0
    (some sz, { s with
      brk := if less ≤ sz then sz - less else sz
      calls := s.calls + 1 })

/-- The page in which an address lies, or which ends there, is that of a process of this size. -/
def inPages (sz a : Nat) : Prop :=
  a ≤ (sz + PGSIZE - 1) / PGSIZE * PGSIZE

instance (sz a : Nat) : Decidable (inPages sz a) :=
  inferInstanceAs (Decidable (_ ≤ _))

/-! ## `free` -/

/-- The loop of `free`, from `p` on. -/
def place (mem : Nat → Header) (bp : Nat) : Nat → Nat → Option Nat
  | 0, _ => none
  | fuel + 1, p =>
    if p < bp ∧ bp < (mem p).ptr then
      some p
    else if (mem p).ptr ≤ p ∧ (p < bp ∨ bp < (mem p).ptr) then
      some p
    else
      place mem bp fuel (mem p).ptr

/-- `bp` is joined with the block behind it, or linked to it. -/
def joinNext (mem : Nat → Header) (p bp : Nat) : Nat → Header :=
  if bp + UNIT * (mem bp).size = (mem p).ptr then
    update mem bp
      { ptr := (mem (mem p).ptr).ptr, size := ((mem bp).size + (mem (mem p).ptr).size) % 2 ^ 32 }
  else
    update mem bp { mem bp with ptr := (mem p).ptr }

/-- `bp` is joined with the block `p` before it, or `p` is linked to it. -/
def joinPrev (mem : Nat → Header) (p bp : Nat) : Nat → Header :=
  if p + UNIT * (mem p).size = bp then
    update mem p { ptr := (mem bp).ptr, size := ((mem p).size + (mem bp).size) % 2 ^ 32 }
  else
    update mem p { mem p with ptr := bp }

/-- `free` of the block with header `bp`. -/
def release (fuel : Nat) (s : St) (bp : Nat) : Option St :=
  (place s.mem bp fuel s.freep).map fun p =>
    { s with mem := joinPrev (joinNext s.mem p bp) p bp, freep := p }

def free (fuel : Nat) (s : St) (ap : Nat) : Option St :=
  (release fuel s (ap - UNIT)).map fun t =>
    { t with live := t.live.filter fun x => x.addr ≠ ap - UNIT }

/-! ## `malloc` -/

/-- The units that `morecore` asks for. -/
def coreUnits (nu : Nat) : Nat :=
  if nu < 4096 then 4096 else nu

/-- `morecore`; the address is 0 if `sbrk` fails.  The number of bytes becomes an `int`.  A header
that is not in the pages of the process cannot be written. -/
def morecore (o : Oracle) (fuel : Nat) (s : St) (nu : Nat) : Option (Nat × St) :=
  match sbrkInt o s (coreUnits nu * UNIT % 2 ^ 32) with
  | (none, t) => some (0, t)
  | (some hp, t) =>
    if inPages t.brk (hp + UNIT) then
      (release fuel { t with
        mem := update t.mem hp { t.mem hp with size := coreUnits nu } } hp).map
          fun u => (u.freep, u)
    else
      none

/-- Take `n` units from the block `p`, which comes after `prevp`. -/
def take (s : St) (prevp p n : Nat) : Nat × St :=
  if (s.mem p).size = n then
    (p + UNIT, { s with
      mem := update s.mem prevp { s.mem prevp with ptr := (s.mem p).ptr }
      freep := prevp })
  else
    let size := (s.mem p).size - n
    let mem := update s.mem p { s.mem p with size := size }
    let q := p + UNIT * size
    (q + UNIT, { s with
      mem := update mem q { mem q with size := n }
      freep := prevp })

/-- The loop of `malloc`. -/
def search (o : Oracle) (n : Nat) : Nat → St → Nat → Nat → Option (Nat × St)
  | 0, _, _, _ => none
  | fuel + 1, s, prevp, p =>
    if n ≤ (s.mem p).size then
      some (take s prevp p n)
    else if p = s.freep then
      match morecore o fuel s n with
      | some (q, t) => if q = 0 then some (0, t) else search o n fuel t q (t.mem q).ptr
      | none => none
    else
      search o n fuel s p (s.mem p).ptr

def nunits (nbytes : Nat) : Nat :=
  (nbytes + UNIT - 1) / UNIT + 1

def malloc (L : Layout) (o : Oracle) (fuel : Nat) (s : St) (nbytes : Nat) : Option (Nat × St) :=
  let s := if s.freep = 0 then
      { s with mem := update s.mem L.base { ptr := L.base, size := 0 }, freep := L.base }
    else
      s
  (search o (nunits nbytes) fuel s s.freep (s.mem s.freep).ptr).map fun r =>
    (r.1, if r.1 = 0 then r.2
      else { r.2 with live := { addr := r.1 - UNIT, nbytes := nbytes } :: r.2.live })

/-! ## Runs -/

inductive Act
  | malloc (nbytes : Nat)
  | free (ap : Nat)

/-- The loops end long before they have visited more blocks than fit into memory. -/
def fuel : Nat := 4 * LIMIT + 8

def step (L : Layout) (o : Oracle) (s : St) : Act → Option St
  | .malloc nbytes => (malloc L o fuel s nbytes).map Prod.snd
  | .free ap => free fuel s ap

/-- The request fits into an `int`, and what is freed has been allocated. -/
def CallOk (s : St) : Act → Prop
  | .malloc nbytes => nunits nbytes * UNIT < 2 ^ 31
  | .free ap => ∃ x ∈ s.live, ap = x.addr + UNIT

instance (s : St) (a : Act) : Decidable (CallOk s a) := by
  cases a <;> simp only [CallOk] <;> infer_instance

def boot (L : Layout) (mem : Nat → Header) : St where
  mem := mem
  freep := 0
  brk := L.heap
  calls := 0
  live := []
  obtained := []

end Xv6.Umalloc
