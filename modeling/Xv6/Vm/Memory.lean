import Xv6.Lib.Bytes
import Xv6.Lib.Prog
import Xv6.Mem.Kalloc

/-!
# Memory — physical memory and its free pages

The memory of the machine by bytes, with the list of the free pages.  `kalloc` takes the first page
of the list and fills it with junk; `kfree` fills a page with junk, links it to the first page of
the list and puts it in front.  That the links in memory are those of the list is proved at the end.
-/

namespace Xv6.Vm

open Lib Kalloc

/-! ## The code -/

structure Mem where
  byte : Nat → UInt8
  /-- The pages on `kmem.freelist`. -/
  free : List Nat

/-- The panics of `kernel/vm.c`, `kernel/kalloc.c` and `kernel/exec.c`. -/
inductive Panic
  | kfree
  | walk
  | mappagesSize
  | mappagesRemap
  | uvmunmapNotAligned
  | uvmunmapWalk
  | uvmunmapNotMapped
  | uvmunmapNotALeaf
  /-- `freewalk` has taken a page of data for a table. -/
  | freewalkBelow
  | freewalkLeaf
  deriving DecidableEq

abbrev Code (α : Type) : Type :=
  Prog Mem Panic α

def PGROUNDDOWN (a : Nat) : Nat :=
  a / PGSIZE * PGSIZE

def PGROUNDUP (sz : Nat) : Nat :=
  (sz + PGSIZE - 1) % 2 ^ 64 / PGSIZE * PGSIZE

/-- `*(uint64*)pa` -/
def load (pa : Nat) : Code Nat :=
  Prog.gets fun m => le m.byte pa 8

/-- `*(uint64*)pa = v` -/
def store (pa v : Nat) : Code Unit :=
  Prog.modify fun m => { m with byte := blit m.byte pa 8 (leByte v) }

def memset (pa : Nat) (c : UInt8) (n : Nat) : Code Unit :=
  Prog.modify fun m => { m with byte := blit m.byte pa n fun _ => c }

/-- `kalloc`; the address is 0 if there is no page. -/
def kalloc : Code Nat := fun m =>
  match m.free with
  | [] => .ok 0 m
  | p :: l => .ok p { byte := blit m.byte p PGSIZE fun _ => 5, free := l }

def kfree (kend : KernelEnd) (pa : Nat) : Code Unit :=
  if pa % PGSIZE ≠ 0 ∨ pa < kend ∨ PHYSTOP ≤ pa then
    Prog.halt .kfree
  else
    Prog.modify fun m =>
      { byte := blit (blit m.byte pa PGSIZE fun _ => 1) pa 8 (leByte (m.free.headD 0))
        free := pa :: m.free }

/-! ## Pages -/

variable {kend : KernelEnd} {m m' : Mem} {b b' b'' : Nat → UInt8} {p q a i n v : Nat}

/-- Two memories have the same bytes in a page. -/
def Same (b b' : Nat → UInt8) (p : Nat) : Prop :=
  ∀ i, i < PGSIZE → b' (p + i) = b (p + i)

namespace Same

theorem refl (b : Nat → UInt8) (p : Nat) : Same b b p :=
  fun _ _ => rfl

theorem trans (h : Same b b' p) (h' : Same b' b'' p) : Same b b'' p :=
  fun i hi => (h' i hi).trans (h i hi)

theorem le_eq (h : Same b b' p) (hi : i < 512) : le b' (p + 8 * i) 8 = le b (p + 8 * i) 8 := by
  refine le_congr fun j hj => ?_
  rw [Nat.add_assoc]
  exact h _ (by simp only [PGSIZE]; omega)

theorem blit (off : Nat) {f : Nat → UInt8} (hp : p % PGSIZE = 0) (hq : q % PGSIZE = 0) (hne : q ≠ p)
    (hoff : off + n ≤ PGSIZE) : Same b (blit b (p + off) n f) q := by
  intro i hi
  refine blit_of_not ?_
  simp only [PGSIZE] at *
  omega

theorem blit_page {f : Nat → UInt8} (hp : p % PGSIZE = 0) (hq : q % PGSIZE = 0) (hne : q ≠ p)
    (hn : n ≤ PGSIZE) : Same b (Lib.blit b p n f) q :=
  Same.blit 0 hp hq hne (by omega)

end Same

/-! ## Allocation -/

/-- The pages of the list can be allocated, each once. -/
structure Pool (kend : KernelEnd) (m : Mem) : Prop where
  nodup : m.free.Nodup
  page : ∀ p ∈ m.free, IsPage kend p

theorem Pool.congr (h : Pool kend m) (heq : m'.free = m.free) : Pool kend m' :=
  ⟨heq ▸ h.nodup, heq ▸ h.page⟩

theorem Pool.pop {l : List Nat} (h : Pool kend m) (hfree : m.free = p :: l) :
    IsPage kend p ∧ p ∉ l ∧ Pool kend { m with free := l } := by
  have hnodup := h.nodup
  have hpage := h.page
  rw [hfree] at hnodup hpage
  rcases List.nodup_cons.1 hnodup with ⟨hnot, hl⟩
  exact ⟨hpage p List.mem_cons_self, hnot, hl, fun q hq => hpage q (List.mem_cons_of_mem _ hq)⟩

theorem kalloc_nil (h : m.free = []) : kalloc m = .ok 0 m := by
  simp [kalloc, h]

theorem kalloc_cons {l : List Nat} (h : m.free = p :: l) :
    kalloc m = .ok p { byte := blit m.byte p PGSIZE fun _ => 5, free := l } := by
  simp [kalloc, h]

/-- The page after it has been freed in front of the list `l`. -/
def freed (b : Nat → UInt8) (p : Nat) (l : List Nat) : Nat → UInt8 :=
  blit (blit b p PGSIZE fun _ => 1) p 8 (leByte (l.headD 0))

theorem kfree_page (h : IsPage kend p) :
    kfree kend p m = .ok () { byte := freed m.byte p m.free, free := p :: m.free } := by
  rw [kfree, if_neg (kfree_check.2 h)]
  rfl

theorem same_freed {l : List Nat} (hp : p % PGSIZE = 0) (hq : q % PGSIZE = 0) (hne : q ≠ p) :
    Same b (freed b p l) q :=
  (Same.blit_page hp hq hne le_rfl).trans (Same.blit_page hp hq hne (by decide))

theorem Pool.push (h : Pool kend m) (hp : IsPage kend p) (hnot : p ∉ m.free) :
    Pool kend { byte := b, free := p :: m.free } := by
  refine ⟨List.nodup_cons.2 ⟨hnot, h.nodup⟩, fun q hq => ?_⟩
  rcases List.mem_cons.1 hq with rfl | hq
  · exact hp
  · exact h.page q hq

/-! ## The list in memory -/

/-- The words of memory, with the address of the first free page. -/
def Mem.kmem (m : Mem) : Kmem :=
  { mem := fun a => le m.byte a 8, freelist := m.free.headD 0 }

/-- The free pages are linked in memory, in their order. -/
def InMemory (kend : KernelEnd) (m : Mem) : Prop :=
  FreeList kend m.kmem.mem m.kmem.freelist m.free

/-- `kalloc` returns the page that the code finds, and the next one is the one in memory. -/
theorem InMemory.kalloc (h : InMemory kend m) (hcall : kalloc m = .ok a m') : InMemory kend m' ∧
    (Kalloc.kalloc m.kmem).1 = a ∧ (Kalloc.kalloc m.kmem).2.freelist = m'.kmem.freelist := by
  cases hfree : m.free with
  | nil =>
    rw [kalloc_nil hfree] at hcall
    cases hcall
    simp [Kalloc.kalloc, Mem.kmem, hfree, h]
  | cons p l =>
    rw [kalloc_cons hfree] at hcall
    cases hcall
    unfold InMemory Mem.kmem at h
    rw [hfree] at h
    rcases h.pop with ⟨-, hlist, hnot⟩
    have ha := h.pages a List.mem_cons_self
    have hnext : le m.byte a 8 = l.headD 0 := by
      cases l with
      | nil => exact hlist.linked.seg
      | cons q l => exact hlist.linked.seg.1
    refine ⟨?_, ?_⟩
    · unfold InMemory Mem.kmem
      rw [← hnext]
      refine FreeList.congr hlist fun q hq => ?_
      have hq' := h.pages q (List.mem_cons_of_mem _ hq)
      have hne : q ≠ a := fun heq => hnot (heq ▸ hq)
      exact (Same.blit_page ha.aligned hq'.aligned hne le_rfl).le_eq (i := 0) (by decide)
    · simp only [Kalloc.kalloc, Mem.kmem, hfree, List.headD_cons]
      rw [if_pos ha.ne_zero]
      exact ⟨rfl, hnext⟩

theorem InMemory.kfree (h : InMemory kend m) (hp : IsPage kend p) (hnot : p ∉ m.free) :
    InMemory kend { byte := freed m.byte p m.free, free := p :: m.free } := by
  have hlt : m.free.headD 0 < 256 ^ 8 := by
    cases hfree : m.free with
    | nil => decide
    | cons q l =>
      have hhigh := (h.pages q (hfree ▸ List.mem_cons_self)).high
      simp only [PHYSTOP, KERNBASE, List.headD_cons] at *
      omega
  refine FreeList.push ?_ hp (le_blit hlt)
  refine FreeList.congr h fun q hq => ?_
  have hne : q ≠ p := fun heq => hnot (heq ▸ hq)
  exact (same_freed hp.aligned (h.pages q hq).aligned hne).le_eq (i := 0) (by decide)

end Xv6.Vm
