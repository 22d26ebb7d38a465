import Xv6.Lib.Linked
import Mathlib.Data.List.Perm.Basic
import Xv6.Params

/-!
# Kalloc — the page allocator of `kernel/kalloc.c`

Memory is a function from addresses to 64-bit words.  A free page holds the address of the next one
in its first word, so that the free list is a linked list in memory.
-/

namespace Xv6.Kalloc

open Lib

/-! ## The code -/

/-- The first address after the kernel, which is loaded at `KERNBASE`. -/
abbrev KernelEnd : Type := { e : Nat // KERNBASE ≤ e }

def PGROUNDUP (sz : Nat) : Nat :=
  (sz + PGSIZE - 1) / PGSIZE * PGSIZE

/-- `memset(pa, c, PGSIZE)`, by words. -/
def memset (mem : Nat → Nat) (pa c : Nat) : Nat → Nat := fun a =>
  if pa ≤ a ∧ a < pa + PGSIZE then c * 0x0101010101010101 else mem a

structure Kmem where
  mem : Nat → Nat
  freelist : Nat

/-- A page that `kfree` accepts. -/
structure IsPage (kend : KernelEnd) (pa : Nat) : Prop where
  aligned : pa % PGSIZE = 0
  low : kend ≤ pa
  high : pa < PHYSTOP

instance (kend : KernelEnd) (pa : Nat) : Decidable (IsPage kend pa) :=
  decidable_of_iff (pa % PGSIZE = 0 ∧ kend ≤ pa ∧ pa < PHYSTOP)
    ⟨fun h => ⟨h.1, h.2.1, h.2.2⟩, fun h => ⟨h.1, h.2, h.3⟩⟩

/-- `kfree`; `none` is its panic. -/
def kfree (kend : KernelEnd) (m : Kmem) (pa : Nat) : Option Kmem :=
  if pa % PGSIZE ≠ 0 ∨ pa < kend ∨ PHYSTOP ≤ pa then
    none
  else
    some { mem := Function.update (memset m.mem pa 1) pa m.freelist, freelist := pa }

/-- `kalloc`; the address is 0 if there is no page. -/
def kalloc (m : Kmem) : Nat × Kmem :=
  if m.freelist ≠ 0 then
    (m.freelist, { mem := memset m.mem m.freelist 5, freelist := m.mem m.freelist })
  else
    (0, m)

def freerange (kend : KernelEnd) (m : Kmem) (p : Nat) : Option Kmem :=
  if p + PGSIZE ≤ PHYSTOP then
    (kfree kend m p).bind fun m' => freerange kend m' (p + PGSIZE)
  else
    some m
  termination_by PHYSTOP - p
  decreasing_by
    simp only [PGSIZE] at *
    omega

def kinit (kend : KernelEnd) (mem : Nat → Nat) : Option Kmem :=
  freerange kend { mem := mem, freelist := 0 } (PGROUNDUP kend)

/-! ## Pages -/

variable {kend : KernelEnd} {m m' : Kmem} {mem : Nat → Nat} {p q c : Nat} {l : List Nat}

namespace IsPage

theorem ne_zero (h : IsPage kend p) : p ≠ 0 := by
  have hlow := h.low
  have hbase := kend.2
  simp only [KERNBASE] at hbase
  omega

theorem apart (hp : IsPage kend p) (hq : IsPage kend q) (hne : q ≠ p) :
    ¬ (p ≤ q ∧ q < p + PGSIZE) := by
  have h₁ := hp.aligned
  have h₂ := hq.aligned
  simp only [PGSIZE] at *
  omega

end IsPage

theorem memset_of_ne (hp : IsPage kend p) (hq : IsPage kend q) (hne : q ≠ p) :
    memset mem p c q = mem q :=
  if_neg (hp.apart hq hne)

theorem memset_self : memset mem p c p = c * 0x0101010101010101 :=
  if_pos ⟨Nat.le_refl p, Nat.lt_add_of_pos_right (by decide)⟩

theorem kfree_check : ¬ (p % PGSIZE ≠ 0 ∨ p < kend ∨ PHYSTOP ≤ p) ↔ IsPage kend p := by
  constructor
  · intro h
    exact ⟨by omega, by omega, by omega⟩
  · intro h
    have h₁ := h.aligned
    have h₂ := h.low
    have h₃ := h.high
    omega

/-- At most 128 MB of pages. -/
theorem length_le_of_nodup (hnodup : l.Nodup) (hpages : ∀ p ∈ l, IsPage kend p) :
    l.length ≤ 32768 := by
  have hinj : (l.map fun p => (p - KERNBASE) / PGSIZE).Nodup := by
    refine hnodup.map_on fun p hp q hq heq => ?_
    have h₁ := (hpages p hp).aligned
    have h₂ := (hpages q hq).aligned
    have h₃ := (hpages p hp).low
    have h₄ := (hpages q hq).low
    have hbase := kend.2
    simp only [PGSIZE] at *
    omega
  have hsub : (l.map fun p => (p - KERNBASE) / PGSIZE) ⊆ List.range 32768 := by
    intro i hi
    rcases List.mem_map.1 hi with ⟨p, hp, rfl⟩
    have h₁ := (hpages p hp).high
    simp only [PHYSTOP, PGSIZE] at *
    exact List.mem_range.2 (by omega)
  have hle := (List.subperm_of_subset hinj hsub).length_le
  rwa [List.length_map, List.length_range] at hle

/-! ## The free list -/

/-- The free list consists of the pages `l`. -/
structure FreeList (kend : KernelEnd) (mem : Nat → Nat) (freelist : Nat) (l : List Nat) : Prop where
  linked : Linked mem 0 freelist l
  pages : ∀ p ∈ l, IsPage kend p

namespace FreeList

theorem congr {mem' : Nat → Nat} {f : Nat} (h : FreeList kend mem f l)
    (heq : ∀ p ∈ l, mem' p = mem p) : FreeList kend mem' f l :=
  ⟨h.linked.congr heq, h.pages⟩

theorem memset {f : Nat} (h : FreeList kend mem f l) (hp : IsPage kend p) (hnot : p ∉ l) :
    FreeList kend (memset mem p c) f l :=
  h.congr fun q hq => memset_of_ne hp (h.pages q hq) fun heq => hnot (heq ▸ hq)

theorem push {f : Nat} (h : FreeList kend mem f l) (hp : IsPage kend p) (hmem : mem p = f) :
    FreeList kend mem p (p :: l) := by
  refine ⟨Linked.cons (hmem ▸ h.linked) hp.ne_zero, fun q hq => ?_⟩
  rcases List.mem_cons.1 hq with rfl | hq
  · exact hp
  · exact h.pages q hq

theorem pop {f : Nat} (h : FreeList kend mem f (p :: l)) :
    f = p ∧ FreeList kend mem (mem p) l ∧ p ∉ l :=
  ⟨h.linked.seg.1, ⟨h.linked.tail, fun q hq => h.pages q (List.mem_cons_of_mem _ hq)⟩,
    (List.nodup_cons.1 h.linked.nodup).1⟩

end FreeList

theorem kfree_spec (h : FreeList kend m.mem m.freelist l) (hp : IsPage kend p) (hnot : p ∉ l) :
    ∃ m', kfree kend m p = some m' ∧ FreeList kend m'.mem m'.freelist (p :: l) := by
  refine ⟨_, if_neg (kfree_check.2 hp), FreeList.push ?_ hp (Function.update_self ..)⟩
  refine (h.memset (c := 1) hp hnot).congr fun q hq => Function.update_of_ne ?_ _ _
  rintro rfl
  exact hnot hq

theorem freerange_spec (h : FreeList kend m.mem m.freelist l) (hp : p % PGSIZE = 0)
    (hlow : kend ≤ p) (hless : ∀ q ∈ l, q < p) : ∃ m' l', freerange kend m p = some m' ∧
      FreeList kend m'.mem m'.freelist l' ∧
        ∀ q, q ∈ l' ↔ q ∈ l ∨ q % PGSIZE = 0 ∧ p ≤ q ∧ q < PHYSTOP := by
  fun_induction freerange kend m p generalizing l with
  | case1 m p hroom ih =>
    simp only [PGSIZE] at *
    have hpage : IsPage kend p := ⟨hp, hlow, by omega⟩
    rcases kfree_spec h hpage fun hmem => absurd (hless p hmem) (Nat.lt_irrefl p) with
      ⟨m₁, hfree, hlist⟩
    have hless' : ∀ q ∈ p :: l, q < p + 4096 := by
      intro q hq
      rcases List.mem_cons.1 hq with rfl | hq
      · omega
      · have hlt := hless q hq
        omega
    rcases ih m₁ hlist (by omega) (by omega) hless' with ⟨m', l', hrest, hlist', hmem⟩
    refine ⟨m', l', by rw [hfree, Option.bind_some, hrest], hlist', fun q => ?_⟩
    rw [hmem q, List.mem_cons]
    constructor
    · rintro ((rfl | hq) | ⟨h₁, h₂, h₃⟩)
      · exact Or.inr ⟨hp, Nat.le_refl _, by omega⟩
      · exact Or.inl hq
      · exact Or.inr ⟨h₁, by omega, h₃⟩
    · rintro (hq | ⟨h₁, h₂, h₃⟩)
      · exact .inl (.inr hq)
      · by_cases heq : q = p
        · exact .inl (.inl heq)
        · exact .inr ⟨h₁, by omega, h₃⟩
  | case2 m p hroom =>
    refine ⟨m, l, rfl, h, fun q => ⟨.inl, ?_⟩⟩
    rintro (hq | ⟨h₁, h₂, h₃⟩)
    · exact hq
    · simp only [PGSIZE, PHYSTOP, KERNBASE] at *
      omega

theorem kinit_spec (kend : KernelEnd) (mem : Nat → Nat) : ∃ m l, kinit kend mem = some m ∧
    FreeList kend m.mem m.freelist l ∧ ∀ p, p ∈ l ↔ IsPage kend p := by
  have hround : PGROUNDUP kend % PGSIZE = 0 ∧ kend ≤ PGROUNDUP kend ∧
      PGROUNDUP kend < kend + PGSIZE := by
    unfold PGROUNDUP
    simp only [PGSIZE]
    omega
  rcases freerange_spec (m := { mem := mem, freelist := 0 }) (l := []) ⟨.nil, nofun⟩ hround.1
    hround.2.1 nofun with ⟨m, l, hm, hlist, hmem⟩
  refine ⟨m, l, hm, hlist, fun p => (hmem p).trans ⟨?_, fun hp => .inr ?_⟩⟩
  · rintro (hp | ⟨h₁, h₂, h₃⟩)
    · cases hp
    · exact ⟨h₁, by omega, h₃⟩
  · have h₁ := hp.aligned
    have h₂ := hp.low
    simp only [PGSIZE] at *
    exact ⟨h₁, by omega, hp.high⟩

end Xv6.Kalloc
