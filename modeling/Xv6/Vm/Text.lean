import Xv6.Vm.Copy
import Xv6.Vm.Procs

/-!
# Text — pages that the user may not write

`exec` gives each segment of a program the permissions of its ELF flags.  `copyout` asks only for
`PTE_V` and `PTE_U`, and so writes to pages without `PTE_W` as well.
-/

namespace Xv6.Vm

open Lib Kalloc

variable {kend : KernelEnd} {m : Mem} {b : Nat → UInt8} {root va len tramp : Nat} {t : Task}

/-! ## The code -/

def flags2perm (flags : Nat) : Nat :=
  (if flags &&& 0x1 ≠ 0 then PTE_X else 0) ||| if flags &&& 0x2 ≠ 0 then PTE_W else 0

/-- What the loop of `exec` over the segments of a program does with the page table.  A segment is
given by its end and its flags. -/
def loadSegments (kend : KernelEnd) : List (Nat × Nat) → Task → Code (Option Task)
  | [], p => pure (some p)
  | (top, flags) :: l, p => do
    let sz ← uvmalloc kend p.pagetable p.sz top (flags2perm flags)
    if sz = 0 then pure none else loadSegments kend l { p with sz := sz }

/-- A process with the memory that `exec` makes for these segments. -/
def execMemory (kend : KernelEnd) (tramp : Nat) (l : List (Nat × Nat)) : Code (Option Task) := do
  match ← allocproc kend tramp with
  | none => pure none
  | some p => loadSegments kend l p

/-! ## The page tables of processes -/

theorem UserMem.sound (h : UserMem kend m tramp t) : Sound kend m t.pagetable := by
  refine ⟨h.space.wf, ?_⟩
  rintro p ⟨v, e, hv, he, huser, rfl⟩
  rcases Nat.lt_or_ge v (pages t.sz) with hlt | hge
  · have hpage := h.space.page _ (mapped_of_leaf hlt he)
    exact ⟨hpage.1.ne_zero, hpage.2.2⟩
  -- Above its pages the process has only the trapframe and the trampoline, without `PTE_U`.
  · have htop : v = TRAPFRAME / PGSIZE ∨ v = TRAMPOLINE / PGSIZE := by
      have hnone := h.space.above v hge
      simp only [he, reduceCtorEq, imp_false] at hnone
      simp only [USERTOP, TRAPFRAME, TRAMPOLINE, MAXVA, PGSIZE] at hv hnone ⊢
      omega
    rcases htop with rfl | rfl
    · rw [h.fixed.trapframe] at he
      cases he
      exact absurd ((has_entry (by decide)).1 huser) (by decide)
    · rw [h.fixed.trampoline] at he
      cases he
      exact absurd ((has_entry (by decide)).1 huser) (by decide)

theorem loadSegments_spec (h : UserMem kend m tramp t) (l : List (Nat × Nat)) :
    Prog.wp (loadSegments kend l t) Never
      (fun r m' => ∀ t', r = some t' → UserMem kend m' tramp t') m := by
  induction l generalizing m t with
  | nil => exact fun t' ht => Option.some.inj ht ▸ h
  | cons x l ih =>
    have hperm : flags2perm x.2 < 1024 := by
      unfold flags2perm
      split <;> split <;> decide
    refine Prog.wp_seq (uvmalloc_spec h.space hperm) fun sz m' hsz => ?_
    split
    · exact fun _ ht => absurd ht (Option.some_ne_none _).symm
    · rename_i hne
      rcases hsz with ⟨-, rfl, rfl⟩ | ⟨-, rfl, hchange, -⟩ | ⟨-, rfl, -⟩
      · exact ih h
      · exact ih (h.change hchange)
      · exact absurd rfl hne

theorem execMemory_spec (hpool : Pool kend m) (htramp : IsTramp tramp) (l : List (Nat × Nat)) :
    Prog.wp (execMemory kend tramp l) Never
      (fun r m' => ∀ t, r = some t → UserMem kend m' tramp t) m := by
  refine Prog.wp_seq (allocproc_spec hpool htramp) fun y m' hy => ?_
  rcases hy with ⟨rfl, -⟩ | ⟨t, rfl, huser, -⟩
  · exact fun _ ht => absurd ht (Option.some_ne_none _).symm
  · exact loadSegments_spec huser l

/-! ## Writing -/

/-- The user may write the byte. -/
def Writable (b : Nat → UInt8) (root a : Nat) : Prop :=
  Accessible b root a ∧ ∃ e, leaf b root (a / PGSIZE) = some e ∧ has e PTE_W

/-- `copyout` writes only bytes that the user may write, and fails if the range has others. -/
def CopyoutAllowed (m : Mem) (root va : Nat) (src : Nat → UInt8) (len : Nat) : Prop :=
  ∃ r k, copyout root va src len m = .ok r
      { m with byte := applyWrites m.byte (userWrites m.byte root va src k) } ∧
    Copied m.byte root va len r k ∧ (∀ i, i < k → Writable m.byte root (va + i)) ∧
    ((∃ i, i < len ∧ ¬ Writable m.byte root (va + i)) → r = -1)

/-- That is so just if the user may write every byte of the range up to the first that cannot be
accessed. -/
theorem copyoutAllowed_iff (h : Sound kend m root) (va len : Nat) (src : Nat → UInt8) :
    CopyoutAllowed m root va src len ↔ ∀ i, i < len →
      (∀ j, j ≤ i → Accessible m.byte root (va + j)) → Writable m.byte root (va + i) := by
  constructor
  · rintro ⟨r, k, -, hcopied, hall, -⟩ i hi hacc
    refine hall i ?_
    by_contra hki
    by_cases hr : r = 0
    · exact hki (hcopied.all hr ▸ hi)
    · exact (hcopied.fail hr).2.2 (hacc k (Nat.le_of_not_lt hki))
  · intro hall
    rcases copyout_spec h va src len with ⟨k, hext, hcall⟩
    have hwrite : ∀ i, i < k → Writable m.byte root (va + i) := fun i hi =>
      hall i (Nat.lt_of_lt_of_le hi hext.le) fun j hj =>
        hext.accessible j (Nat.lt_of_le_of_lt hj hi)
    refine ⟨_, k, hcall, hext.copied, hwrite, fun ⟨i, hi, hnot⟩ => ?_⟩
    refine (hext.copied.fail fun hr => hnot (hwrite i ?_)).1
    rwa [hext.copied.all hr]

/-! ## A program of two pages -/

/-- A page of text and a page of data. -/
theorem exists_text : ∃ t m, execMemory ⟨KERNBASE, le_rfl⟩ KERNBASE [(4096, 5), (8192, 6)]
      (freePages 12) = .ok (some t) m ∧ UserMem ⟨KERNBASE, le_rfl⟩ m KERNBASE t ∧
    leaf m.byte t.pagetable 0 = some (entry (PHYSTOP - 6 * PGSIZE) (PTE_R ||| PTE_U ||| PTE_X)) ∧
    leaf m.byte t.pagetable 1 =
      some (entry (PHYSTOP - 9 * PGSIZE) (PTE_R ||| PTE_U ||| PTE_W)) := by
  have hspec := @execMemory_spec ⟨KERNBASE, le_rfl⟩ (freePages 12) KERNBASE
    ⟨by decide, by decide⟩ ⟨by decide, by decide⟩ [(4096, 5), (8192, 6)]
  rcases Prog.exists_of_wp hspec fun _ he => he with ⟨r, m, hcall, huser⟩
  have heval : ((execMemory ⟨KERNBASE, le_rfl⟩ KERNBASE [(4096, 5), (8192, 6)] >>= fun r =>
      Prog.gets fun m => r.map fun t => (leaf m.byte t.pagetable 0, leaf m.byte t.pagetable 1))
      (freePages 12)).value? =
      some (some (some (entry (PHYSTOP - 6 * PGSIZE) (PTE_R ||| PTE_U ||| PTE_X)),
        some (entry (PHYSTOP - 9 * PGSIZE) (PTE_R ||| PTE_U ||| PTE_W)))) := by
    decide +kernel
  rw [Prog.bind_ok hcall] at heval
  rcases Option.map_eq_some_iff.1 (Option.some.inj heval) with ⟨t, rfl, hleaf⟩
  exact ⟨t, m, hcall, huser t rfl, (Prod.mk.inj hleaf).1, (Prod.mk.inj hleaf).2⟩

/-- The data of the program can be written from the kernel. -/
theorem copyoutAllowed_iff_data : ∃ t m, execMemory ⟨KERNBASE, le_rfl⟩ KERNBASE
      [(4096, 5), (8192, 6)] (freePages 12) = .ok (some t) m ∧
    ∀ src len, len ≤ 4096 → CopyoutAllowed m t.pagetable 4096 src len := by
  rcases exists_text with ⟨t, m, hcall, huser, -, hdata⟩
  refine ⟨t, m, hcall, fun src len hlen => (copyoutAllowed_iff huser.sound 4096 len src).2 ?_⟩
  intro i hi hacc
  have hpage : (4096 + i) / PGSIZE = 1 := by
    simp only [PGSIZE]
    omega
  exact ⟨hacc i le_rfl, _, hpage ▸ hdata, by decide⟩

/-- So can its text, which the user may not write. -/
theorem copyout_writes_text : ∃ t m m', execMemory ⟨KERNBASE, le_rfl⟩ KERNBASE
      [(4096, 5), (8192, 6)] (freePages 12) = .ok (some t) m ∧
    ¬ Writable m.byte t.pagetable 0 ∧ copyout t.pagetable 0 (fun _ => 7) 1 m = .ok 0 m' ∧
    m'.byte (phys m.byte t.pagetable 0) = 7 ∧
    ¬ CopyoutAllowed m t.pagetable 0 (fun _ => 7) 1 := by
  rcases exists_text with ⟨t, m, hcall, huser, htext, -⟩
  have hnot : ¬ Writable m.byte t.pagetable 0 := by
    rintro ⟨-, e, he, hw⟩
    rw [Nat.zero_div, htext] at he
    cases he
    exact absurd hw (by decide)
  rcases copyout_spec huser.sound 0 (fun _ => 7) 1 with ⟨k, hext, hcopy⟩
  have hk : k = 1 := by
    refine hext.eq_len_iff.2 fun i hi => ?_
    rw [Nat.lt_one_iff.1 hi]
    exact ⟨by decide, _, htext, by decide⟩
  subst hk
  refine ⟨t, m, _, hcall, hnot, hcopy, by simp [userWrites, applyWrites], ?_⟩
  rintro ⟨r, k, hcopy', -, -, hfail⟩
  rw [hcopy] at hcopy'
  cases (Outcome.ok.inj hcopy').1.trans (hfail ⟨0, Nat.one_pos, hnot⟩)

end Xv6.Vm
