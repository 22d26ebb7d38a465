import Xv6.Vm.Space

/-!
# Grow — `uvmalloc`, `uvmdealloc` and `sbrk`

A process of `sz` bytes has `pages sz` pages.  Growing maps pages of zeros one after another and, if
memory runs out, unmaps them again; shrinking unmaps the last pages.  Memory has so few pages that
the address never comes near `MAXVA`.
-/

namespace Xv6.Vm

open Lib Kalloc

variable {kend : KernelEnd} {m m' m'' : Mem} {b : Nat → UInt8}
    {root n k p v sz oldsz newsz xperm perm : Nat}

/-! ## Sizes -/

/-- The pages of a process of this size. -/
def pages (sz : Nat) : Nat :=
  (sz + PGSIZE - 1) / PGSIZE

theorem PGROUNDUP_eq (h : sz ≤ MAXVA) : PGROUNDUP sz = pages sz * PGSIZE := by
  simp only [PGROUNDUP, pages, PGSIZE, MAXVA] at h ⊢
  omega

theorem lt_pages_iff : k < pages sz ↔ k * PGSIZE < sz := by
  simp only [pages, PGSIZE]
  omega

theorem pages_zero : pages 0 = 0 := by
  decide

theorem pages_mono (h : oldsz ≤ newsz) : pages oldsz ≤ pages newsz :=
  Nat.div_le_div_right (by omega)

theorem Space.sz_le (h : Space kend m root (pages sz)) : sz ≤ 2 ^ 27 := by
  have hle := h.le_pages
  simp only [pages, PGSIZE] at hle
  omega

theorem Space.sz_le_MAXVA (h : Space kend m root (pages sz)) : sz ≤ MAXVA :=
  Nat.le_trans h.sz_le (by decide)

/-! ## Growing -/

/-- Page `v` is mapped, with these flags, to a page of zeros. -/
def ZeroPage (b : Nat → UInt8) (root v perm : Nat) : Prop :=
  ∃ p, leaf b root v = some (entry p perm) ∧ PTE2PA (entry p perm) = p ∧
    ∀ i, i < PGSIZE → b (p + i) = 0

theorem Change.zeroPage (h : Change kend root m m' n k) (hn : v < n) (hk : v < k)
    (hv : ZeroPage m.byte root v perm) : ZeroPage m'.byte root v perm := by
  rcases hv with ⟨p, hleaf, hp, hzero⟩
  refine ⟨p, (h.leaf v (.inl ⟨hn, hk⟩)).trans hleaf, hp, fun i hi => ?_⟩
  have hsame := h.kept v _ hn hk hleaf i hi
  rw [hp] at hsame
  exact hsame.trans (hzero i hi)

theorem Moves.add {own own' : Nat → Prop} (h : Moves m m' own own') (p : Nat) :
    Moves m m' (fun q => own q ∨ q = p) (fun q => own' q ∨ q = p) := by
  refine ⟨fun q => ?_, fun q hq hnot => h.bytes q hq (hnot ∘ .inl)⟩
  have hpages := h.pages q
  tauto

/-- A page that has been taken and filled with `f` becomes page `n`, or can be given back. -/
theorem mappages_taken {l : List Nat} {f : Nat → UInt8} (hm : Space kend m root n)
    (hfree : m.free = p :: l) (hperm : perm < 1024) (hflags : perm ||| PTE_V ≠ PTE_V) :
    Prog.wp (mappages root (n * PGSIZE) PGSIZE p perm) Never (fun r m' =>
      (r = 0 ∧ Change kend root m m' n (n + 1) ∧ leaf m'.byte root n = some (entry p perm) ∧
        ∀ i, i < PGSIZE → m'.byte (p + i) = f i) ∨
      r = -1 ∧ ∃ m'', kfree kend p m' = .ok () m'' ∧ Change kend root m m'' n n)
      { byte := blit m.byte p PGSIZE f, free := l } := by
  rcases hm.wf.pool.pop hfree with ⟨hp, hnot, -⟩
  rcases hm.take hfree f with ⟨hspace, htree, hown, hsame⟩
  have hown' : ¬ Owned (blit m.byte p PGSIZE f) root n p := fun ho => hown ((htree.owned n p).1 ho)
  have htake := moves_take (Owned m.byte root n) hp.aligned hfree f
  refine Prog.wp_post (mappages_page hspace hp hnot hown' hperm hflags) fun r m₁ hr => ?_
  rcases hr with ⟨rfl, h⟩ | ⟨rfl, hfree₁, h, hown₁⟩
  · refine .inl ⟨rfl, ⟨h.space, htake.trans (h.moves.congr (fun q => ?_) fun q => Iff.rfl),
      fun v hv => ?_, fun v e hv _ he => ?_⟩, h.new, fun i hi => ?_⟩
    · rw [← htree.owned]
    · exact (h.leaf v (hv.imp_left And.left)).trans (htree.leaf v)
    · have hold := mapped_of_leaf hv he
      refine (hsame _ (.inr hold)).trans (h.kept _ (.inl ?_))
      exact (mapped_congr (fun v _ => htree.leaf v) _).2 hold
    · exact (h.kept p (.inr rfl) i hi).trans (blit_add hi)
  · -- The page is given back.
    have hnil : p ∉ m₁.free := by
      rw [hfree₁]
      exact List.not_mem_nil
    rcases h.space.release hp hnil hown₁ with ⟨hspace', htree', hsame'⟩
    have hmoves : Moves m { byte := freed m₁.byte p m₁.free, free := p :: m₁.free }
        (Owned m.byte root n) (Owned m₁.byte root n) :=
      (htake.trans ((h.moves.congr (fun q => (htree.owned n q).symm) fun _ => Iff.rfl).add p)).trans
        (moves_freed hp.aligned)
    refine .inr ⟨rfl, _, kfree_page hp, hspace', hmoves.congr (fun _ => Iff.rfl) (htree'.owned n),
      fun v hv => ?_, fun v e hv _ he => ?_⟩
    · exact (htree'.leaf v).trans ((h.leaf v hv).trans (htree.leaf v))
    · have he₁ := (htree.leaf v).trans he
      have he₂ := (h.leaf v (.inl ⟨hv, hv⟩)).trans he₁
      exact ((hsame _ (.inr (mapped_of_leaf hv he))).trans (h.kept v e hv hv he₁)).trans
        (hsame' _ (.inr (mapped_of_leaf hv he₂)))

theorem perm_lt (hx : xperm < 1024) : PTE_R ||| PTE_U ||| xperm < 1024 :=
  Nat.or_lt_two_pow (n := 10) (by decide) hx

theorem perm_ne (xperm : Nat) : PTE_R ||| PTE_U ||| xperm ||| PTE_V ≠ PTE_V := by
  intro heq
  have hr : has (PTE_R ||| PTE_U ||| xperm ||| PTE_V) PTE_R := by
    simp only [has_or]
    exact .inl (.inl (.inl (by decide)))
  rw [heq] at hr
  exact absurd hr (by decide)

theorem allocLoop_spec {rounds : Nat} (h : Space kend m root k) (hn : n ≤ k) (hk : k ≤ pages newsz)
    (hrounds : ROUNDS ≤ k + rounds) (hx : xperm < 1024) :
    Prog.wp (allocLoop kend root (n * PGSIZE) newsz xperm rounds (k * PGSIZE)) Never (fun r m' =>
      (r = newsz ∧ Change kend root m m' k (pages newsz) ∧
        ∀ v, k ≤ v → v < pages newsz → ZeroPage m'.byte root v (PTE_R ||| PTE_U ||| xperm)) ∨
      r = 0 ∧ Change kend root m m' k n) m := by
  induction rounds generalizing k m with
  | zero =>
    -- There are not so many pages.
    have hle := h.le_pages
    simp only [ROUNDS, MAXVA, PGSIZE] at hrounds
    omega
  | succ rounds ih =>
    have hle := h.le_pages
    rw [allocLoop]
    by_cases hlt : k * PGSIZE < newsz
    swap
    · have heq : k = pages newsz :=
        Nat.le_antisymm hk (Nat.le_of_not_lt fun hc => hlt (lt_pages_iff.1 hc))
      rw [if_neg hlt]
      subst heq
      exact .inl ⟨rfl, .refl h, fun v hlo hhi => absurd hhi (Nat.not_lt.2 hlo)⟩
    rw [if_pos hlt]
    cases hfree : m.free with
    | nil =>
      rw [Prog.wp_bind, Prog.wp_of_eq (kalloc_nil hfree), if_pos rfl]
      exact Prog.wp_seq (uvmdealloc_change h hn) fun _ m' hr => .inr ⟨rfl, hr⟩
    | cons p l =>
      have hp := (h.wf.pool.pop hfree).1
      rw [Prog.wp_bind, Prog.wp_of_eq (kalloc_cons hfree), if_neg hp.ne_zero, Prog.wp_bind, memset,
        Prog.wp_modify, blit_blit]
      refine Prog.wp_seq (mappages_taken h hfree (perm_lt hx) (perm_ne xperm)) fun r m₁ hr => ?_
      rcases hr with ⟨rfl, hstep, hleaf, hbytes⟩ | ⟨rfl, m₂, hkfree, hstep⟩
      · -- The page has been mapped, and the loop goes on.
        have hnext : (k * PGSIZE + PGSIZE) % 2 ^ 64 = (k + 1) * PGSIZE := by
          simp only [PGSIZE]
          omega
        have hzero : ZeroPage m₁.byte root k (PTE_R ||| PTE_U ||| xperm) := ⟨p, hleaf,
          PTE2PA_entry hp.aligned (Nat.lt_trans (IsPage.lt hp) (by decide)) (perm_lt hx), hbytes⟩
        rw [if_neg (not_not.2 rfl), hnext]
        refine Prog.wp_post (ih hstep.space (by omega) (lt_pages_iff.2 hlt) (by omega))
          fun r m' hr => ?_
        rcases hr with ⟨rfl, hrest, hzeros⟩ | ⟨rfl, hrest⟩
        · refine .inl ⟨rfl, hstep.trans hrest (.inl (by omega)), fun v hlo hhi => ?_⟩
          rcases Nat.eq_or_lt_of_le hlo with rfl | hlo
          · exact hrest.zeroPage (Nat.lt_succ_self _) hhi hzero
          · exact hzeros v hlo hhi
        · exact .inr ⟨rfl, hstep.trans hrest (.inl (by omega))⟩
      · -- There was no page for a table: the page is given back, and the others are unmapped.
        rw [if_pos (by decide), Prog.wp_bind, Prog.wp_of_eq hkfree]
        exact Prog.wp_seq (uvmdealloc_change hstep.space hn)
          fun _ m' hr => .inr ⟨rfl, hstep.trans hr (.inl le_rfl)⟩

/-- `uvmalloc` leaves the address space as it was, or grows it by pages of zeros. -/
theorem uvmalloc_spec (h : Space kend m root (pages oldsz)) (hx : xperm < 1024) :
    Prog.wp (uvmalloc kend root oldsz newsz xperm) Never (fun r m' =>
      (newsz < oldsz ∧ r = oldsz ∧ m' = m) ∨
      (oldsz ≤ newsz ∧ r = newsz ∧ Change kend root m m' (pages oldsz) (pages newsz) ∧
        ∀ v, pages oldsz ≤ v → v < pages newsz →
          ZeroPage m'.byte root v (PTE_R ||| PTE_U ||| xperm)) ∨
      (oldsz ≤ newsz ∧ r = 0 ∧ Change kend root m m' (pages oldsz) (pages oldsz))) m := by
  rw [uvmalloc]
  by_cases hlt : newsz < oldsz
  · rw [if_pos hlt]
    exact .inl ⟨hlt, rfl, rfl⟩
  have hle : oldsz ≤ newsz := Nat.le_of_not_lt hlt
  rw [if_neg hlt, PGROUNDUP_eq h.sz_le_MAXVA]
  refine Prog.wp_post (allocLoop_spec h le_rfl (pages_mono hle) (Nat.le_add_left _ _) hx)
    fun r m' hr => .inr ?_
  rcases hr with ⟨rfl, hchange, hzero⟩ | ⟨rfl, hchange⟩
  · exact .inl ⟨hle, rfl, hchange, hzero⟩
  · exact .inr ⟨hle, rfl, hchange⟩

/-! ## Shrinking -/

theorem uvmdealloc_spec (h : Space kend m root (pages oldsz)) :
    Prog.wp (uvmdealloc kend root oldsz newsz) Never (fun r m' =>
      (oldsz ≤ newsz ∧ r = oldsz ∧ m' = m) ∨
      (newsz < oldsz ∧ r = newsz ∧ Change kend root m m' (pages oldsz) (pages newsz))) m := by
  rw [uvmdealloc]
  by_cases hle : oldsz ≤ newsz
  · rw [if_pos hle]
    exact .inl ⟨hle, rfl, rfl⟩
  have hlt : newsz < oldsz := Nat.lt_of_not_le hle
  have hpages : pages newsz ≤ pages oldsz := pages_mono (Nat.le_of_lt hlt)
  have hn := h.le_pages
  rw [if_neg hle, PGROUNDUP_eq h.sz_le_MAXVA,
    PGROUNDUP_eq (Nat.le_trans (Nat.le_of_lt hlt) h.sz_le_MAXVA)]
  by_cases hmul : pages newsz * PGSIZE < pages oldsz * PGSIZE
  · have hcount : intBits ((pages oldsz * PGSIZE - pages newsz * PGSIZE) / PGSIZE) =
        pages oldsz - pages newsz := by
      rw [← Nat.sub_mul, Nat.mul_div_cancel _ (by decide : 0 < PGSIZE)]
      exact intBits_of_lt (by omega)
    rw [if_pos hmul, hcount, Prog.wp_bind]
    exact Prog.wp_post (uvmunmap_change h hpages) fun _ m' hr => .inr ⟨hlt, rfl, hr⟩
  · have heq : pages newsz = pages oldsz := by
      refine Nat.le_antisymm hpages (Nat.le_of_not_lt fun hc => hmul ?_)
      exact Nat.mul_lt_mul_of_pos_right hc (by decide)
    rw [if_neg hmul]
    refine .inr ⟨hlt, rfl, ?_⟩
    rw [heq]
    exact .refl h

/-! ## `sbrk` -/

/-- The fields of `struct proc` that are about user memory. -/
structure Task where
  pagetable : Nat
  sz : Nat
  /-- The physical page of the trapframe. -/
  trapframe : Nat
  deriving DecidableEq

/-- `sz + n` -/
def addInt (sz : Nat) (n : Int32) : Nat :=
  (((sz : Int) + n.toInt) % 2 ^ 64).toNat

/-- `growproc` of the process `p`, with the process after the call. -/
def growproc (kend : KernelEnd) (p : Task) (n : Int32) : Code (Int × Task) :=
  if 0 < n.toInt then do
    let sz ← uvmalloc kend p.pagetable p.sz (addInt p.sz n) PTE_W
    if sz = 0 then
      pure (-1, p)
    else
      pure (0, { p with sz := sz })
  else if n.toInt < 0 then do
    let sz ← uvmdealloc kend p.pagetable p.sz (addInt p.sz n)
    pure (0, { p with sz := sz })
  else
    pure (0, p)

def sysSbrk (kend : KernelEnd) (p : Task) (n : Int32) : Code (Int × Task) := do
  let addr := p.sz
  let r ← growproc kend p n
  if r.1 < 0 then
    pure (-1, r.2)
  else
    pure (addr, r.2)

/-- The process has grown or shrunk by `n` bytes, or the call has failed and nothing has changed.
Where the old and the new process have a page, it is the same; new pages hold zeros, and the user
can write them. -/
def SbrkExact (m m' : Mem) (p p' : Task) (n : Int32) (r : Int) : Prop :=
  (r = -1 ∧ p' = p ∧ ∀ v, leaf m'.byte p.pagetable v = leaf m.byte p.pagetable v) ∨
  (r = p.sz ∧ p'.pagetable = p.pagetable ∧ (p'.sz : Int) = p.sz + n.toInt ∧
    (∀ v e, v < pages p.sz → v < pages p'.sz → leaf m.byte p.pagetable v = some e →
      leaf m'.byte p.pagetable v = some e ∧ Same m.byte m'.byte (PTE2PA e)) ∧
    ∀ v, pages p.sz ≤ v → v < pages p'.sz →
      ZeroPage m'.byte p.pagetable v (PTE_R ||| PTE_U ||| PTE_W))

theorem toInt_bounds (n : Int32) : -2 ^ 31 ≤ n.toInt ∧ n.toInt < 2 ^ 31 :=
  ⟨n.le_toInt, n.toInt_lt⟩

/-- A process that has not changed its number of pages has the same map. -/
theorem Change.leaf_all (h : Change kend root m m' n n) (hm : Space kend m root n) (v : Nat) :
    Vm.leaf m'.byte root v = Vm.leaf m.byte root v := by
  by_cases hv : v < n
  · exact h.leaf v (.inl ⟨hv, hv⟩)
  · by_cases htop : USERTOP ≤ v
    · exact h.leaf v (.inr htop)
    · rw [h.space.above v (by omega) (by omega), hm.above v (by omega) (by omega)]

/-- After `sbrk` the process has an address space of its size again, and other processes have
theirs. -/
theorem sysSbrk_spec {p : Task} (h : Space kend m p.pagetable (pages p.sz)) (n : Int32) :
    Prog.wp (sysSbrk kend p n) Never (fun r m' => r.2.pagetable = p.pagetable ∧
      r.2.trapframe = p.trapframe ∧
      Change kend p.pagetable m m' (pages p.sz) (pages r.2.sz) ∧
      (0 ≤ p.sz + n.toInt → SbrkExact m m' p r.2 n r.1) ∧
      (n.toInt ≤ 0 → r.1 = p.sz) ∧ (p.sz + n.toInt < 0 → r.2 = p ∧ m' = m)) m := by
  have hsz := h.sz_le
  have hn := toInt_bounds n
  rw [sysSbrk, Prog.wp_bind, growproc]
  rcases Int.lt_trichotomy n.toInt 0 with hneg | hzero | hpos
  · -- The process shrinks.
    rw [if_neg (by omega), if_pos hneg, Prog.wp_bind]
    refine Prog.wp_post (uvmdealloc_spec h) fun sz m' hr => ?_
    rw [Prog.wp_pure, if_neg (Int.lt_irrefl 0), Prog.wp_pure]
    rcases hr with ⟨hle, rfl, rfl⟩ | ⟨hlt, rfl, hchange⟩
    · have hwrap : p.sz + n.toInt < 0 := by
        unfold addInt at hle
        omega
      exact ⟨rfl, rfl, .refl h, fun hc => absurd hc (by omega), fun _ => rfl,
        fun _ => ⟨rfl, rfl⟩⟩
    · have heq : (addInt p.sz n : Int) = p.sz + n.toInt := by
        unfold addInt at hlt ⊢
        omega
      refine ⟨rfl, rfl, hchange, fun _ => .inr ⟨rfl, rfl, heq, fun v e hv hv' he => ?_,
        fun v hlo hhi => ?_⟩, fun _ => rfl, fun hc => absurd hc (by omega)⟩
      · exact ⟨(hchange.leaf v (.inl ⟨hv, hv'⟩)).trans he, hchange.kept v e hv hv' he⟩
      · exact absurd (Nat.lt_of_lt_of_le hhi (pages_mono (Nat.le_of_lt hlt))) (Nat.not_lt.2 hlo)
  · rw [if_neg (by omega), if_neg (by omega), Prog.wp_pure, if_neg (Int.lt_irrefl 0), Prog.wp_pure]
    refine ⟨rfl, rfl, .refl h, fun _ => .inr ⟨rfl, rfl, by rw [hzero]; exact (Int.add_zero _).symm,
      fun v e _ _ he => ⟨he, Same.refl _ _⟩, fun v hlo hhi => absurd hhi (Nat.not_lt.2 hlo)⟩,
      fun _ => rfl, fun hc => absurd hc (by omega)⟩
  · -- The process grows.
    have heq : (addInt p.sz n : Int) = p.sz + n.toInt := by
      unfold addInt
      omega
    rw [if_pos hpos, Prog.wp_bind]
    refine Prog.wp_post (uvmalloc_spec h (by decide : PTE_W < 1024)) fun sz m' hr => ?_
    rcases hr with ⟨hlt, -⟩ | ⟨hle, rfl, hchange, hzero⟩ | ⟨hle, rfl, hchange⟩
    · omega
    · rw [if_neg (by omega), Prog.wp_pure, if_neg (Int.lt_irrefl 0), Prog.wp_pure]
      refine ⟨rfl, rfl, hchange, fun _ => .inr ⟨rfl, rfl, heq, fun v e hv hv' he => ?_, hzero⟩,
        fun _ => rfl, fun hc => absurd hc (by omega)⟩
      exact ⟨(hchange.leaf v (.inl ⟨hv, hv'⟩)).trans he, hchange.kept v e hv hv' he⟩
    · rw [if_pos rfl, Prog.wp_pure, if_pos (by decide : (-1 : Int) < 0), Prog.wp_pure]
      exact ⟨rfl, rfl, hchange, fun _ => .inl ⟨rfl, rfl, hchange.leaf_all h⟩,
        fun hc => absurd hpos (by omega), fun hc => absurd hc (by omega)⟩

/-- If the process does not have so much, the call reports that it has given it back. -/
theorem not_sbrkExact {p : Task} {n : Int32} (h : Space kend m p.pagetable (pages p.sz))
    (hneg : p.sz + n.toInt < 0) : sysSbrk kend p n m = .ok (p.sz, p) m ∧
      ∀ r p' m', sysSbrk kend p n m = .ok (r, p') m' → ¬ SbrkExact m m' p p' n r := by
  rcases Prog.exists_of_wp (sysSbrk_spec h n) fun _ he => he with
    ⟨⟨r, p'⟩, m', hcall, -, -, -, -, hres, hsame⟩
  rcases hsame hneg with ⟨hp, rfl⟩
  have hr := hres (by omega)
  dsimp only at hr hp
  subst hr hp
  refine ⟨hcall, fun r p' m' hcall' hres => ?_⟩
  rw [hcall] at hcall'
  cases hcall'
  rcases hres with ⟨hr, -⟩ | ⟨-, -, hsz, -⟩ <;> omega

/-- `sbrk` does exactly what it reports just if the new size is not negative. -/
theorem sbrk_exact_iff {p : Task} (h : Space kend m p.pagetable (pages p.sz)) (n : Int32) :
    (∃ r p' m', sysSbrk kend p n m = .ok (r, p') m' ∧ SbrkExact m m' p p' n r) ↔
      0 ≤ p.sz + n.toInt := by
  constructor
  · rintro ⟨r, p', m', hcall, hres⟩
    by_contra hlt
    exact (not_sbrkExact h (by omega)).2 r p' m' hcall hres
  · intro hnn
    rcases Prog.exists_of_wp (sysSbrk_spec h n) fun _ he => he with
      ⟨⟨r, p'⟩, m', hcall, -, -, -, hexact, -⟩
    exact ⟨r, p', m', hcall, hexact hnn⟩

/-- A process without pages. -/
def emptyTask : Task :=
  ⟨PHYSTOP - PGSIZE, 0, KERNBASE⟩

theorem space_of_empty (hwf : Wf kend m root) (hleaf : ∀ v, leaf m.byte root v = none) :
    Space kend m root 0 := by
  refine ⟨hwf, nofun, fun v _ _ => hleaf v, fun p hp => ?_, nofun⟩
  rcases mapped_iff.1 hp with ⟨v, -, hv, -⟩
  exact absurd hv (Nat.not_lt_zero _)

theorem space_emptyTask :
    Space ⟨KERNBASE, le_rfl⟩ (freePages 8) emptyTask.pagetable (pages emptyTask.sz) := by
  obtain ⟨hwf, hleaf, -⟩ := @wf_freePages 8 ⟨by decide, by decide⟩ (by decide)
  exact space_of_empty hwf hleaf

theorem exists_onePage : ∃ p m, sysSbrk ⟨KERNBASE, le_rfl⟩ emptyTask 4096 (freePages 8) =
      .ok (0, p) m ∧ p.sz = 4096 ∧ Space ⟨KERNBASE, le_rfl⟩ m p.pagetable (pages p.sz) := by
  obtain ⟨⟨r, p⟩, m, hcall, htable, -, hchange, -⟩ :=
    Prog.exists_of_wp (sysSbrk_spec space_emptyTask 4096) fun _ he => he
  have heval : ((sysSbrk ⟨KERNBASE, le_rfl⟩ emptyTask 4096 (freePages 8)).value?.map
      fun r => (r.1, r.2.sz)) = some (0, 4096) := by
    decide +kernel
  rw [hcall] at heval
  obtain ⟨hr, hsz⟩ := Prod.mk.inj (Option.some.inj heval)
  dsimp only at hr hsz htable hchange
  subst hr
  exact ⟨p, m, hcall, hsz, htable ▸ hchange.space⟩

theorem sbrk_exact_iff_page : ∃ p m r p' m',
    sysSbrk ⟨KERNBASE, le_rfl⟩ emptyTask 4096 (freePages 8) = .ok (0, p) m ∧ p.sz = 4096 ∧
      sysSbrk ⟨KERNBASE, le_rfl⟩ p 8192 m = .ok (r, p') m' ∧ SbrkExact m m' p p' 8192 r ∧
      p'.sz = 12288 := by
  obtain ⟨p, m, hcall, hsz, hspace⟩ := exists_onePage
  obtain ⟨r, p', m', hcall', hexact⟩ := (sbrk_exact_iff hspace 8192).2 (by rw [hsz]; decide)
  refine ⟨p, m, r, p', m', hcall, hsz, hcall', hexact, ?_⟩
  have heval : ((sysSbrk ⟨KERNBASE, le_rfl⟩ emptyTask 4096 >>= fun r =>
      sysSbrk ⟨KERNBASE, le_rfl⟩ r.2 8192) (freePages 8)).value?.map (·.2.sz) = some 12288 := by
    decide +kernel
  rw [Prog.bind_ok hcall, hcall'] at heval
  exact Option.some.inj heval

/-- A process of one page that gives back a byte more than it has is told that it has done so. -/
theorem sbrk_below_zero : ∃ p m,
    sysSbrk ⟨KERNBASE, le_rfl⟩ emptyTask 4096 (freePages 8) = .ok (0, p) m ∧ p.sz = 4096 ∧
      sysSbrk ⟨KERNBASE, le_rfl⟩ p (-4097) m = .ok (4096, p) m ∧
      ∀ r p' m', sysSbrk ⟨KERNBASE, le_rfl⟩ p (-4097) m = .ok (r, p') m' →
        ¬ SbrkExact m m' p p' (-4097) r := by
  obtain ⟨p, m, hcall, hsz, hspace⟩ := exists_onePage
  have hnot := not_sbrkExact hspace (n := -4097) (by rw [hsz]; decide)
  rw [hsz] at hnot
  exact ⟨p, m, hcall, hsz, hnot⟩

end Xv6.Vm
