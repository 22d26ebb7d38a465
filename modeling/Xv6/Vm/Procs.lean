import Xv6.Vm.Grow

/-!
# Procs — the page tables of processes

The page table of a process has, beside the pages of the user, the trampoline page and the page of
its trapframe.  `proc_pagetable` makes such a table without user pages, or gives back all that it
has taken; `proc_freepagetable` gives back the tables and the pages of the user.
-/

namespace Xv6.Vm

open Lib Kalloc
open Function (update update_of_ne update_self)

/-! ## The code -/

/-- `proc_pagetable` for a process with this trapframe.  `tramp` is the address of the trampoline
code. -/
def procPagetable (kend : KernelEnd) (tramp trapframe : Nat) : Code Nat := do
  let pagetable ← uvmcreate
  if pagetable = 0 then
    pure 0
  else do
    let r ← mappages pagetable TRAMPOLINE PGSIZE tramp (PTE_R ||| PTE_X)
    if r < 0 then do
      uvmfree kend pagetable 0
      pure 0
    else do
      let r ← mappages pagetable TRAPFRAME PGSIZE trapframe (PTE_R ||| PTE_W)
      if r < 0 then do
        uvmunmap kend pagetable TRAMPOLINE 1 false
        uvmfree kend pagetable 0
        pure 0
      else
        pure pagetable

def procFreepagetable (kend : KernelEnd) (pagetable sz : Nat) : Code Unit := do
  uvmunmap kend pagetable TRAMPOLINE 1 false
  uvmunmap kend pagetable TRAPFRAME 1 false
  uvmfree kend pagetable sz

/-- The part of `freeproc` that is about memory. -/
def freeproc (kend : KernelEnd) (p : Task) : Code Unit := do
  if p.trapframe ≠ 0 then kfree kend p.trapframe
  if p.pagetable ≠ 0 then procFreepagetable kend p.pagetable p.sz

/-- The part of `allocproc` that is about memory. -/
def allocproc (kend : KernelEnd) (tramp : Nat) : Code (Option Task) := do
  let trapframe ← kalloc
  if trapframe = 0 then do
    freeproc kend ⟨0, 0, 0⟩
    pure none
  else do
    let pagetable ← procPagetable kend tramp trapframe
    if pagetable = 0 then do
      freeproc kend ⟨0, 0, trapframe⟩
      pure none
    else
      pure (some ⟨pagetable, 0, trapframe⟩)

/-- Calls of `sbrk` one after another; each may fail. -/
def sbrks (kend : KernelEnd) : List Int32 → Task → Code Task
  | [], p => pure p
  | n :: ns, p => do
    let r ← sysSbrk kend p n
    sbrks kend ns r.2

/-- A process from `allocproc` to `freeproc`. -/
def lifetime (kend : KernelEnd) (tramp : Nat) (ns : List Int32) : Code Unit := do
  match ← allocproc kend tramp with
  | none => pure ()
  | some p => do
    let p ← sbrks kend ns p
    freeproc kend p

variable {kend : KernelEnd} {m m' : Mem} {b : Nat → UInt8} {root n p v sz tramp tf perm : Nat}
    {t : Task}

/-- Nobody. -/
def Nobody (_ : Nat) : Prop := False

/-! ## Tables -/

/-- From `m₀` to `m` an owner of pages has got the table of an address space with these entries. -/
structure Table (kend : KernelEnd) (m₀ : Mem) (own : Nat → Prop) (m : Mem) (root n : Nat)
    (f : Nat → Option Nat) : Prop where
  space : Space kend m root n
  leaf : ∀ v, Vm.leaf m.byte root v = f v
  moves : Moves m₀ m own (Owned m.byte root n)

theorem uvmcreate_spec (hpool : Pool kend m) : Prog.wp uvmcreate Never (fun r m' =>
    r = 0 ∧ m' = m ∨ IsPage kend r ∧ Table kend m Nobody m' r 0 fun _ => none) m := by
  rw [uvmcreate]
  cases hfree : m.free with
  | nil =>
    rw [Prog.wp_bind, Prog.wp_of_eq (kalloc_nil hfree), if_pos rfl]
    exact .inl ⟨rfl, rfl⟩
  | cons p l =>
    rcases hpool.pop hfree with ⟨hp, hnot, hpool'⟩
    rw [Prog.wp_bind, Prog.wp_of_eq (kalloc_cons hfree), if_neg hp.ne_zero, Prog.wp_bind, memset,
      Prog.wp_modify, blit_blit, Prog.wp_pure]
    have hzero : ∀ i, i < 512 → pteAt (blit m.byte p PGSIZE fun _ => 0) p i = 0 := by
      intro i hi
      refine le_eq_zero fun j hj => ?_
      rw [Nat.add_assoc]
      exact blit_add (f := fun _ => 0) (by simp only [PGSIZE]; omega)
    rcases wf_empty (m := { byte := blit m.byte p PGSIZE fun _ => 0, free := l })
      (hpool'.congr rfl) hp hnot hzero with ⟨hwf, hleaf, htables⟩
    refine .inr ⟨hp, space_of_empty hwf hleaf, hleaf, ?_⟩
    refine (moves_take _ hp.aligned hfree _).congr (fun _ => Iff.rfl) fun q => ?_
    rw [Owned, htables, mapped_iff]
    simp [Nobody]

namespace Table

variable {m₀ : Mem} {own : Nat → Prop} {f : Nat → Option Nat}

theorem uvmfree_spec (h : Table kend m₀ own m root n f) (hn : n = pages sz)
    (htop : ∀ v, USERTOP ≤ v → f v = none) :
    Prog.wp (uvmfree kend root sz) Never (fun _ m' => Pool kend m' ∧ Moves m₀ m' own Nobody) m := by
  subst hn
  -- First the pages of the user are unmapped.
  have hfreewalk : ∀ m₁, Change kend root m m₁ (pages sz) 0 →
      Prog.wp (freewalk kend 3 root) Never
        (fun _ m' => Pool kend m' ∧ Moves m₀ m' own Nobody) m₁ := by
    intro m₁ hchange
    have hleaf : ∀ v, Vm.leaf m₁.byte root v = none := by
      intro v
      by_cases hv : USERTOP ≤ v
      · exact (hchange.leaf v (.inr hv)).trans ((h.leaf v).trans (htop v hv))
      · exact hchange.space.above v (Nat.zero_le _) (Nat.lt_of_not_le hv)
    refine Prog.wp_post (freewalk_root hchange.space.wf hleaf) fun _ m' hr => ?_
    refine ⟨hr.pool, (h.moves.trans hchange.moves).trans ⟨fun p => ?_, fun p hp hown _ => ?_⟩⟩
    · rw [hr.mem_free, Owned, mapped_iff]
      simp [Nobody]
    · exact hr.bytes p hp (fun ht => hown (.inl ht)) not_false
  rw [uvmfree]
  by_cases hsz : 0 < sz
  · have hcount : PGROUNDUP sz / PGSIZE = pages sz := by
      rw [PGROUNDUP_eq h.space.sz_le_MAXVA, Nat.mul_div_cancel _ (by decide : 0 < PGSIZE)]
    have hunmap := uvmunmap_change h.space (Nat.zero_le _)
    rw [Nat.zero_mul, Nat.sub_zero] at hunmap
    rw [if_pos hsz, hcount]
    exact Prog.wp_seq hunmap fun _ m₁ hr => hfreewalk m₁ hr
  · have hzero : sz = 0 := by omega
    subst hzero
    rw [if_neg hsz]
    exact hfreewalk m (.refl h.space)

theorem mappages_spec {va : Nat} (h : Table kend m₀ own m root n f) (hva : va = v * PGSIZE)
    (hv : USERTOP ≤ v) (hmax : v < MAXVA / PGSIZE) (hp : p % PGSIZE = 0) (hlt : p < 2 ^ 56)
    (hperm : perm < 1024) (hnone : f v = none) :
    Prog.wp (mappages root va PGSIZE p perm) Never (fun r m' =>
      r = 0 ∧ Table kend m₀ own m' root n (update f v (some (entry p perm))) ∨
      r = -1 ∧ Table kend m₀ own m' root n f) m := by
  subst hva
  have hf : Vm.leaf m.byte root = f := funext h.leaf
  refine Prog.wp_post (mappages_one h.space.wf hmax hp hlt hperm ((h.leaf v).trans hnone))
    fun r m' hr => ?_
  rw [← mapped_succ 0, mapped_zero, hf] at hr
  rcases hr with ⟨rfl, hedit⟩ | ⟨rfl, -, hedit⟩
  · rcases hedit.change h.space fun w hw => hf ▸ update_of_ne (by omega) _ _
      with ⟨hspace, hmoves, -⟩
    exact .inl ⟨rfl, hspace, hedit.leaf, h.moves.trans hmoves⟩
  · rcases hedit.change h.space fun w _ => (h.leaf w).symm with ⟨hspace, hmoves, -⟩
    exact .inr ⟨rfl, hspace, hedit.leaf, h.moves.trans hmoves⟩

/-- A page above those of the user is unmapped, and not freed. -/
theorem uvmunmap_spec {va e : Nat} (h : Table kend m₀ own m root n f) (hva : va = v * PGSIZE)
    (hv : USERTOP ≤ v) (hmax : v < MAXVA / PGSIZE) (he : f v = some e)
    (hflags : PTE_FLAGS e ≠ PTE_V) :
    Prog.wp (uvmunmap kend root va 1 false) Never (fun _ m' =>
      Table kend m₀ own m' root n (update f v none)) m := by
  subst hva
  have hbound : (v + 1) * PGSIZE ≤ MAXVA := by
    simp only [PGSIZE, MAXVA] at hmax ⊢
    omega
  refine Prog.wp_post (Vm.uvmunmap_spec h.space.wf hbound (fun w hlo hhi => ?_) nofun)
    fun _ m' hr => ?_
  · obtain rfl : w = v := by omega
    exact ⟨e, (h.leaf w).trans he, hflags⟩
  · rcases hr with ⟨l, hrem, hl⟩
    obtain rfl : l = [] := List.eq_nil_iff_forall_not_mem.2 fun q hq =>
      Bool.false_ne_true ((hl q).1 hq).1
    have hleaf : ∀ w, Vm.leaf m'.byte root w = update f v none w := by
      intro w
      rw [hrem.leaf, ← unmapped_succ, unmapped_zero, funext h.leaf]
    have hnt : n ≤ USERTOP := Nat.le_trans h.space.le_pages (by decide)
    have hold : ∀ w, w < USERTOP → Vm.leaf m'.byte root w = Vm.leaf m.byte root w := fun w hw =>
      (hleaf w).trans ((update_of_ne (by omega) _ _).trans (h.leaf w).symm)
    have hmapped := mapped_congr (n := n) fun w hw => hold w (by omega)
    have hfree : m'.free = m.free := hrem.free
    refine ⟨h.space.of_leaf hrem.wf hold fun q hq => ?_, hleaf,
      h.moves.trans ⟨fun q => ?_, fun q hq hown _ => ?_⟩⟩
    · rw [hfree, hrem.tables]
      exact (h.space.page q hq).2
    · rw [Owned, Owned, hrem.tables, hmapped, hfree]
    · exact hrem.bytes q hq (fun ht => hown (.inl ht)) List.not_mem_nil

end Table

/-! ## The page table of a process -/

/-- The pages above those of the user: the trampoline and the trapframe, which the user cannot
access. -/
structure Fixed (b : Nat → UInt8) (root tramp tf : Nat) : Prop where
  trampoline : leaf b root (TRAMPOLINE / PGSIZE) = some (entry tramp (PTE_R ||| PTE_X))
  trapframe : leaf b root (TRAPFRAME / PGSIZE) = some (entry tf (PTE_R ||| PTE_W))
  top : ∀ v, MAXVA / PGSIZE ≤ v → leaf b root v = none

theorem Fixed.congr {b' : Nat → UInt8} (h : Fixed b root tramp tf)
    (hleaf : ∀ v, USERTOP ≤ v → leaf b' root v = leaf b root v) : Fixed b' root tramp tf :=
  ⟨(hleaf _ (by decide)).trans h.trampoline, (hleaf _ (by decide)).trans h.trapframe,
    fun v hv => (hleaf v (Nat.le_trans (by decide) hv)).trans (h.top v hv)⟩

theorem procFreepagetable_spec (h : Space kend m root (pages sz))
    (hfixed : Fixed m.byte root tramp tf) :
    Prog.wp (procFreepagetable kend root sz) Never (fun _ m' =>
      Pool kend m' ∧ Moves m m' (Owned m.byte root (pages sz)) Nobody) m := by
  have htable : Table kend m (Owned m.byte root (pages sz)) m root (pages sz) (leaf m.byte root) :=
    ⟨h, fun _ => rfl, .refl _ _⟩
  rw [procFreepagetable]
  refine Prog.wp_seq (htable.uvmunmap_spec (v := TRAMPOLINE / PGSIZE) rfl (by decide) (by decide)
    hfixed.trampoline (by rw [flags_entry (by decide)]; decide)) fun _ m₁ hr₁ => ?_
  refine Prog.wp_seq (hr₁.uvmunmap_spec (v := TRAPFRAME / PGSIZE) rfl (by decide) (by decide)
    ((update_of_ne (by decide) _ _).trans hfixed.trapframe)
    (by rw [flags_entry (by decide)]; decide))
    fun _ m₂ hr₂ => hr₂.uvmfree_spec rfl fun v hv => ?_
  -- No page is left above those of the user.
  by_cases hvtf : v = TRAPFRAME / PGSIZE
  · rw [hvtf, update_self]
  by_cases hvtr : v = TRAMPOLINE / PGSIZE
  · rw [update_of_ne hvtf, hvtr, update_self]
  rw [update_of_ne hvtf, update_of_ne hvtr]
  refine hfixed.top v ?_
  simp only [USERTOP, TRAMPOLINE, TRAPFRAME, MAXVA, PGSIZE] at *
  omega

/-- The trampoline code is at the beginning of a page. -/
structure IsTramp (tramp : Nat) : Prop where
  aligned : tramp % PGSIZE = 0
  lt : tramp < 2 ^ 56

theorem procPagetable_spec (hpool : Pool kend m) (htramp : IsTramp tramp) (htf : IsPage kend tf) :
    Prog.wp (procPagetable kend tramp tf) Never (fun r m' =>
      r = 0 ∧ Pool kend m' ∧ Moves m m' Nobody Nobody ∨
      r ≠ 0 ∧ Space kend m' r 0 ∧ Fixed m'.byte r tramp tf ∧
        Moves m m' Nobody (Owned m'.byte r 0)) m := by
  have hne : TRAPFRAME / PGSIZE ≠ TRAMPOLINE / PGSIZE := by decide
  rw [procPagetable]
  refine Prog.wp_seq (uvmcreate_spec hpool) fun root m₁ hr₁ => ?_
  rcases hr₁ with ⟨rfl, rfl⟩ | ⟨hroot, hr₁⟩
  · rw [if_pos rfl]
    exact .inl ⟨rfl, hpool, .refl _ _⟩
  rw [if_neg hroot.ne_zero]
  refine Prog.wp_seq (hr₁.mappages_spec (v := TRAMPOLINE / PGSIZE) rfl (by decide) (by decide)
    htramp.aligned htramp.lt (by decide) rfl) fun r m₂ hr₂ => ?_
  rcases hr₂ with ⟨rfl, hr₂⟩ | ⟨rfl, hr₂⟩
  swap
  · -- The trampoline could not be mapped.
    rw [if_pos (by decide)]
    exact Prog.wp_seq (hr₂.uvmfree_spec rfl fun _ _ => rfl) fun _ m' hr => .inl ⟨rfl, hr⟩
  rw [if_neg (Int.lt_irrefl 0)]
  refine Prog.wp_seq (hr₂.mappages_spec (v := TRAPFRAME / PGSIZE) rfl (by decide) (by decide)
    htf.aligned (IsPage.lt htf) (by decide) (update_of_ne hne _ _)) fun r m₃ hr₃ => ?_
  rcases hr₃ with ⟨rfl, hr₃⟩ | ⟨rfl, hr₃⟩
  · rw [if_neg (Int.lt_irrefl 0)]
    refine .inr ⟨hroot.ne_zero, hr₃.space, ⟨?_, ?_, fun v hv => ?_⟩, hr₃.moves⟩
    · rw [hr₃.leaf, update_of_ne hne.symm, update_self]
    · rw [hr₃.leaf, update_self]
    · have hne : ∀ {w}, w < MAXVA / PGSIZE → v ≠ w := fun hw => (Nat.lt_of_lt_of_le hw hv).ne'
      rw [hr₃.leaf, update_of_ne (hne (by decide)), update_of_ne (hne (by decide))]
  · -- The trapframe could not be mapped.
    rw [if_pos (by decide)]
    refine Prog.wp_seq (hr₃.uvmunmap_spec (v := TRAMPOLINE / PGSIZE) rfl (by decide) (by decide)
      (update_self ..) (by rw [flags_entry (by decide)]; decide)) fun _ m₄ hr₄ => ?_
    refine Prog.wp_seq (hr₄.uvmfree_spec rfl fun v _ => ?_) fun _ m' hr => .inl ⟨rfl, hr⟩
    rw [Function.update_idem]
    exact congrFun (Function.update_eq_self _ _) v

/-! ## The memory of a process -/

/-- The pages of a process. -/
def Task.Owns (p : Task) (m : Mem) (q : Nat) : Prop :=
  Owned m.byte p.pagetable (pages p.sz) q ∨ q = p.trapframe

/-- A process has an address space of its size, with the fixed pages above it. -/
structure UserMem (kend : KernelEnd) (m : Mem) (tramp : Nat) (p : Task) : Prop where
  space : Space kend m p.pagetable (pages p.sz)
  fixed : Fixed m.byte p.pagetable tramp p.trapframe
  frame : IsPage kend p.trapframe
  taken : p.trapframe ∉ m.free
  apart : ¬ Owned m.byte p.pagetable (pages p.sz) p.trapframe

namespace UserMem

theorem change {sz' : Nat} (h : UserMem kend m tramp t)
    (hm : Change kend t.pagetable m m' (pages t.sz) (pages sz')) :
    UserMem kend m' tramp { t with sz := sz' } := by
  rcases hm.moves.other h.apart h.taken with ⟨hown, hfree⟩
  exact ⟨hm.space, h.fixed.congr fun v hv => hm.leaf v (.inr hv), h.frame, hfree, hown⟩

theorem freeproc_spec (h : UserMem kend m tramp t) : Prog.wp (freeproc kend t) Never (fun _ m' =>
    Pool kend m' ∧ Moves m m' (t.Owns m) Nobody) m := by
  rcases h.space.release h.frame h.taken h.apart with ⟨hspace, htree, -⟩
  have hroot := (h.space.wf.page _ (tables_root _ _)).1.ne_zero
  rw [freeproc, if_pos h.frame.ne_zero, Prog.wp_bind, Prog.wp_of_eq (kfree_page h.frame),
    if_pos hroot]
  refine Prog.wp_post (procFreepagetable_spec hspace (h.fixed.congr fun v _ => htree.leaf v))
    fun _ m' hr => ⟨hr.1, ?_⟩
  exact (moves_freed h.frame.aligned).trans (hr.2.congr (fun q => (htree.owned _ q).symm)
    fun _ => Iff.rfl)

end UserMem

/-! ## From `allocproc` to `freeproc` -/

theorem allocproc_spec (hpool : Pool kend m) (htramp : IsTramp tramp) :
    Prog.wp (allocproc kend tramp) Never (fun y m' =>
      y = none ∧ Pool kend m' ∧ Moves m m' Nobody Nobody ∨
      ∃ t, y = some t ∧ UserMem kend m' tramp t ∧ Moves m m' Nobody (t.Owns m')) m := by
  rw [allocproc]
  cases hfree : m.free with
  | nil =>
    rw [Prog.wp_bind, Prog.wp_of_eq (kalloc_nil hfree), if_pos rfl]
    exact .inl ⟨rfl, hpool, .refl _ _⟩
  | cons tf l =>
    rcases hpool.pop hfree with ⟨htf, hnot, hpool₁⟩
    rw [Prog.wp_bind, Prog.wp_of_eq (kalloc_cons hfree), if_neg htf.ne_zero]
    have htake := moves_take Nobody htf.aligned hfree fun _ => 5
    refine Prog.wp_seq (procPagetable_spec (hpool₁.congr rfl) htramp htf) fun r m' hr => ?_
    rcases hr with ⟨rfl, hpool', hmoves⟩ | ⟨hr, hspace, hfixed, hmoves⟩
    · -- The trapframe is given back.
      have htaken := (hmoves.other (p := tf) not_false hnot).2
      rw [if_pos rfl, freeproc, if_pos htf.ne_zero, Prog.wp_bind, Prog.wp_bind,
        Prog.wp_of_eq (kfree_page htf)]
      exact .inl ⟨rfl, hpool'.push htf htaken,
        (htake.trans (hmoves.add tf)).trans (moves_freed htf.aligned)⟩
    · rw [if_neg hr]
      rw [← pages_zero] at hspace hmoves
      rcases hmoves.other (p := tf) not_false hnot with ⟨hown, htaken⟩
      exact .inr ⟨_, rfl, ⟨hspace, hfixed, htf, htaken, hown⟩, htake.trans (hmoves.add tf)⟩

theorem sbrks_spec (h : UserMem kend m tramp t) (ns : List Int32) :
    Prog.wp (sbrks kend ns t) Never (fun t' m' =>
      UserMem kend m' tramp t' ∧ Moves m m' (t.Owns m) (t'.Owns m')) m := by
  induction ns generalizing m t with
  | nil => exact ⟨h, .refl _ _⟩
  | cons n ns ih =>
    refine Prog.wp_seq (sysSbrk_spec h.space n) fun r m₁ hr => ?_
    rcases r with ⟨r, root, sz, tf⟩
    rcases hr with ⟨hroot, htf, hchange, -⟩
    dsimp only at hroot htf hchange
    subst hroot htf
    refine Prog.wp_post (ih (h.change hchange)) fun t' m' ht => ⟨ht.1, ?_⟩
    exact (hchange.moves.add t.trapframe).trans ht.2

/-- A process that is made, moves its break any number of times and is freed never makes the kernel
panic, gives back exactly the pages that it has got, and nothing is written to a page that was not
free. -/
theorem lifetime_restores (hpool : Pool kend m) (htramp : IsTramp tramp) (ns : List Int32) :
    ∃ m', lifetime kend tramp ns m = .ok () m' ∧ m'.free.Perm m.free ∧
      ∀ q, q % PGSIZE = 0 → q ∉ m.free → Same m.byte m'.byte q := by
  have hspec : Prog.wp (lifetime kend tramp ns) Never (fun _ m' =>
      Pool kend m' ∧ Moves m m' Nobody Nobody) m := by
    refine Prog.wp_seq (allocproc_spec hpool htramp) fun y m₁ hy => ?_
    rcases hy with ⟨rfl, hy⟩ | ⟨t, rfl, huser, hmoves⟩
    · exact hy
    refine Prog.wp_seq (sbrks_spec huser ns) fun t' m₂ ht => ?_
    exact Prog.wp_post ht.1.freeproc_spec fun _ m' hr => ⟨hr.1, (hmoves.trans ht.2).trans hr.2⟩
  rcases Prog.exists_of_wp hspec fun _ he => he with ⟨_, m', hrun, hpool', hmoves⟩
  refine ⟨m', hrun, (List.perm_ext_iff_of_nodup hpool'.nodup hpool.nodup).2 fun q => ?_,
    fun q hq hfree => hmoves.bytes q hq not_false hfree⟩
  simpa [Nobody] using hmoves.pages q

def twelveFree : Mem where
  byte := fun _ => 0
  free := (List.range 12).map fun i => PHYSTOP - (i + 1) * PGSIZE

/-- A process gets two pages and gives one back before it is freed. -/
theorem lifetime_restores_pages : ∃ m', lifetime ⟨KERNBASE, le_rfl⟩ KERNBASE [8192, -4096]
      twelveFree =
      .ok () m' ∧ m'.free.Perm twelveFree.free ∧
    ∀ q, q % PGSIZE = 0 → q ∉ twelveFree.free → Same twelveFree.byte m'.byte q :=
  lifetime_restores ⟨by decide, by decide⟩ ⟨by decide, by decide⟩ _

end Xv6.Vm
