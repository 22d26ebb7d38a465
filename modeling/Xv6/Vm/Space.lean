import Xv6.Vm.Maps

/-!
# Space — the address space of a process

A process of `n` pages has the pages below `n` mapped, each to a page of its own, and no other page
below `TRAPFRAME`.  What an operation does to it is said in terms of ownership: pages move between
the free list and the process, and the bytes of all other pages stay as they are.
-/

namespace Xv6.Vm

open Lib Kalloc

variable {kend : KernelEnd} {m m' m'' : Mem} {b b' : Nat → UInt8} {root n k p q v w e perm : Nat}

/-! ## Ownership -/

/-- Pages have moved between an owner and the free list, and no others have been written. -/
structure Moves (m m' : Mem) (own own' : Nat → Prop) : Prop where
  pages : ∀ p, own' p ∨ p ∈ m'.free ↔ own p ∨ p ∈ m.free
  bytes : ∀ p, p % PGSIZE = 0 → ¬ own p → p ∉ m.free → Same m.byte m'.byte p

namespace Moves

variable {own own' own'' : Nat → Prop}

theorem refl (m : Mem) (own : Nat → Prop) : Moves m m own own :=
  ⟨fun _ => Iff.rfl, fun p _ _ _ => Same.refl _ p⟩

theorem trans (h : Moves m m' own own') (h' : Moves m' m'' own' own'') : Moves m m'' own own'' := by
  refine ⟨fun p => (h'.pages p).trans (h.pages p), fun p hp hown hfree => ?_⟩
  have hnot : ¬ (own' p ∨ p ∈ m'.free) := fun hor => ((h.pages p).1 hor).elim hown hfree
  exact (h.bytes p hp hown hfree).trans (h'.bytes p hp (hnot ∘ .inl) (hnot ∘ .inr))

theorem congr {own₁ own₁' : Nat → Prop} (h : Moves m m' own own') (hown : ∀ p, own₁ p ↔ own p)
    (hown' : ∀ p, own₁' p ↔ own' p) : Moves m m' own₁ own₁' := by
  refine ⟨fun p => ?_, fun p hp hnot => h.bytes p hp fun ho => hnot ((hown p).2 ho)⟩
  rw [hown, hown']
  exact h.pages p

/-- What someone else owns stays theirs. -/
theorem other (h : Moves m m' own own') (hown : ¬ own p) (hfree : p ∉ m.free) :
    ¬ own' p ∧ p ∉ m'.free := by
  constructor
  · exact fun ho => ((h.pages p).1 (.inl ho)).elim hown hfree
  · exact fun hf => ((h.pages p).1 (.inr hf)).elim hown hfree

end Moves

/-- The pages of a process with `n` pages: its tables and the pages it has mapped. -/
def Owned (b : Nat → UInt8) (root n p : Nat) : Prop :=
  Tables b root p ∨ Mapped b root 0 n p

theorem mapped_iff : Mapped b root 0 n p ↔ ∃ v e, v < n ∧ leaf b root v = some e ∧
    PTE2PA e = p := by
  simp only [Mapped, Nat.zero_le, true_and, Nat.zero_add]

theorem mapped_of_leaf (hv : v < n) (he : leaf b root v = some e) : Mapped b root 0 n (PTE2PA e) :=
  mapped_iff.2 ⟨v, e, hv, he, rfl⟩

theorem mapped_congr (h : ∀ v, v < n → leaf b' root v = leaf b root v) (p : Nat) :
    Mapped b' root 0 n p ↔ Mapped b root 0 n p := by
  rw [mapped_iff, mapped_iff]
  constructor
  · rintro ⟨v, e, hv, he, hp⟩
    exact ⟨v, e, hv, h v hv ▸ he, hp⟩
  · rintro ⟨v, e, hv, he, hp⟩
    exact ⟨v, e, hv, (h v hv).trans he, hp⟩

theorem mapped_aligned (h : Mapped b root 0 n p) : p % PGSIZE = 0 := by
  rcases mapped_iff.1 h with ⟨v, e, -, -, rfl⟩
  exact PTE2PA_aligned e

theorem SameTree.owned (h : SameTree b b' root) (n p : Nat) :
    Owned b' root n p ↔ Owned b root n p := by
  rw [Owned, Owned, h.tables, mapped_congr fun v _ => h.leaf v]

/-! ## Address spaces -/

/-- The number of the first page that is not the user's. -/
abbrev USERTOP : Nat := TRAPFRAME / PGSIZE

/-- The address space of a process with `n` pages. -/
structure Space (kend : KernelEnd) (m : Mem) (root n : Nat) : Prop where
  wf : Wf kend m root
  mapped : ∀ v, v < n → ∃ e, leaf m.byte root v = some e ∧ PTE_FLAGS e ≠ PTE_V
  above : ∀ v, n ≤ v → v < USERTOP → leaf m.byte root v = none
  page : ∀ p, Mapped m.byte root 0 n p → IsPage kend p ∧ p ∉ m.free ∧ ¬ Tables m.byte root p
  inj : ∀ v w e x, v < n → w < n → leaf m.byte root v = some e → leaf m.byte root w = some x →
    PTE2PA e = PTE2PA x → v = w

namespace Space

theorem owned (h : Space kend m root n) (hp : Owned m.byte root n p) :
    IsPage kend p ∧ p ∉ m.free := by
  rcases hp with ht | hm
  · exact h.wf.page p ht
  · exact ⟨(h.page p hm).1, (h.page p hm).2.1⟩

/-- The pages are different pages of memory, which has only so many. -/
theorem le_pages (h : Space kend m root n) : n ≤ 32768 := by
  have hnodup : ((List.range n).map fun v => PTE2PA ((leaf m.byte root v).getD 0)).Nodup := by
    refine List.nodup_range.map_on fun v hv w hw heq => ?_
    rw [List.mem_range] at hv hw
    rcases h.mapped v hv with ⟨e, he, -⟩
    rcases h.mapped w hw with ⟨x, hx, -⟩
    rw [he, hx] at heq
    exact h.inj v w e x hv hw he hx heq
  have hpages : ∀ p ∈ (List.range n).map fun v => PTE2PA ((leaf m.byte root v).getD 0),
      IsPage kend p := by
    intro p hp
    rcases List.mem_map.1 hp with ⟨v, hv, rfl⟩
    rw [List.mem_range] at hv
    rcases h.mapped v hv with ⟨e, he, -⟩
    rw [he]
    exact (h.page _ (mapped_of_leaf hv he)).1
  have hlen := length_le_of_nodup hnodup hpages
  rwa [List.length_map, List.length_range] at hlen

/-- The address space is given by the entries of the user and by what the pages are used for. -/
theorem of_leaf (h : Space kend m root n) (hwf : Wf kend m' root)
    (hleaf : ∀ v, v < USERTOP → leaf m'.byte root v = leaf m.byte root v)
    (hpage : ∀ p, Mapped m.byte root 0 n p → p ∉ m'.free ∧ ¬ Tables m'.byte root p) :
    Space kend m' root n := by
  have hnt : n ≤ USERTOP := Nat.le_trans h.le_pages (by decide)
  refine ⟨hwf, fun v hv => ?_, fun v hlo hhi => ?_, fun p hp => ?_, fun v w e x hv hw he hx => ?_⟩
  · rw [hleaf v (by omega)]
    exact h.mapped v hv
  · rw [hleaf v hhi]
    exact h.above v hlo hhi
  · have hold := (mapped_congr (fun v hv => hleaf v (by omega)) p).1 hp
    exact ⟨(h.page p hold).1, hpage p hold⟩
  · rw [hleaf v (by omega)] at he
    rw [hleaf w (by omega)] at hx
    exact h.inj v w e x hv hw he hx

/-- What is written outside the tables leaves the address space. -/
theorem frame (h : Space kend m root n) (hpool : Pool kend m')
    (hsame : ∀ p, Tables m.byte root p → Same m.byte m'.byte p)
    (hfree : ∀ p, Owned m.byte root n p → p ∉ m'.free) :
    Space kend m' root n ∧ SameTree m.byte m'.byte root := by
  rcases h.wf.frame hpool fun p hp => ⟨hsame p hp, hfree p (.inl hp)⟩ with ⟨hwf, htree⟩
  refine ⟨h.of_leaf hwf (fun v _ => htree.leaf v) fun p hp => ⟨hfree p (.inr hp),
    fun ht => ?_⟩, htree⟩
  exact (h.page p hp).2.2 ((htree.tables p).1 ht)

theorem freeable (h : Space kend m root n) (hle : v + k ≤ n) : Freeable kend m root v k := by
  refine ⟨fun w e _ hhi he => h.page _ (mapped_of_leaf (by omega) he),
    fun w w' e e' _ hhi _ hhi' he he' => h.inj w w' e e' (by omega) (by omega) he he'⟩

end Space

/-! ## Changes of an address space -/

/-- From `m` to `m'` an address space of `n` pages has become one of `k` pages.  The pages that it
has kept are where they were and hold what they held. -/
structure Change (kend : KernelEnd) (root : Nat) (m m' : Mem) (n k : Nat) : Prop where
  space : Space kend m' root k
  moves : Moves m m' (Owned m.byte root n) (Owned m'.byte root k)
  leaf : ∀ v, v < n ∧ v < k ∨ USERTOP ≤ v → leaf m'.byte root v = leaf m.byte root v
  kept : ∀ v e, v < n → v < k → Vm.leaf m.byte root v = some e → Same m.byte m'.byte (PTE2PA e)

namespace Change

theorem refl (h : Space kend m root n) : Change kend root m m n n :=
  ⟨h, .refl _ _, fun _ _ => rfl, fun _ _ _ _ _ => Same.refl _ _⟩

theorem trans {j : Nat} (h : Change kend root m m' n k) (h' : Change kend root m' m'' k j)
    (hmin : n ≤ k ∨ j ≤ k) : Change kend root m m'' n j := by
  refine ⟨h'.space, h.moves.trans h'.moves, fun v hv => ?_, fun v e hn hj he => ?_⟩
  · have hv' : v < k ∧ v < j ∨ USERTOP ≤ v := hv.imp_left fun hvn => ⟨by omega, hvn.2⟩
    have hv'' : v < n ∧ v < k ∨ USERTOP ≤ v := hv.imp_left fun hvn => ⟨hvn.1, by omega⟩
    exact (h'.leaf v hv').trans (h.leaf v hv'')
  · have hk : v < k := by omega
    exact (h.kept v e hn hk he).trans (h'.kept v e hk hj ((h.leaf v (.inl ⟨hn, hk⟩)).trans he))

end Change

/-! ## Removing pages -/

namespace Removed

variable {f : Nat → Option Nat} {l : List Nat}

/-- The last pages of an address space have been removed and freed. -/
theorem change (h : Removed kend root m m' (unmapped (Vm.leaf m.byte root) k (n - k)) l)
    (hm : Space kend m root n) (hl : ∀ p, p ∈ l ↔ Mapped m.byte root k (n - k) p) (hk : k ≤ n) :
    Change kend root m m' n k := by
  have hn := hm.le_pages
  have hleaf : ∀ v, v < k ∨ USERTOP ≤ v → Vm.leaf m'.byte root v = Vm.leaf m.byte root v := by
    intro v hv
    refine (h.leaf v).trans (if_neg ?_)
    have hnt : n ≤ USERTOP := Nat.le_trans hn (by decide)
    omega
  have hmapped := mapped_congr fun v hv => hleaf v (.inl hv)
  -- The pages of the process are those it keeps and those that are freed.
  have hsplit : ∀ p, Mapped m.byte root 0 n p ↔ Mapped m.byte root 0 k p ∨ p ∈ l := by
    intro p
    rw [hl, mapped_iff, mapped_iff]
    constructor
    · rintro ⟨v, e, hv, he, hp⟩
      by_cases hvk : v < k
      · exact .inl ⟨v, e, hvk, he, hp⟩
      · exact .inr ⟨v, e, by omega, by omega, he, hp⟩
    · rintro (⟨v, e, hv, he, hp⟩ | ⟨v, e, hlo, hhi, he, hp⟩)
      · exact ⟨v, e, by omega, he, hp⟩
      · exact ⟨v, e, by omega, he, hp⟩
  -- A page that is kept is not freed.
  have hnot : ∀ v e, v < k → Vm.leaf m.byte root v = some e → PTE2PA e ∉ l := by
    intro v e hv he hmem
    rcases (hl _).1 hmem with ⟨w, x, hlo, hhi, hx, heq⟩
    have hvw := hm.inj v w e x (by omega) (by omega) he hx heq.symm
    omega
  refine ⟨⟨h.wf, fun v hv => ?_, fun v hlo hhi => ?_, fun p hp => ?_,
    fun v w e x hv hw he hx heq => ?_⟩,
    ⟨fun p => ?_, fun p hp hown _ => ?_⟩, fun v hv => hleaf v (hv.imp_left And.right),
    fun v e _ hv he => ?_⟩
  · rw [hleaf v (.inl hv)]
    exact hm.mapped v (by omega)
  · rw [h.leaf, unmapped]
    split
    · rfl
    · exact hm.above v (by omega) hhi
  · have hold := (hmapped p).1 hp
    have hpage := hm.page p ((hsplit p).2 (.inl hold))
    refine ⟨hpage.1, fun hfree => ?_, fun ht => hpage.2.2 ((h.tables p).1 ht)⟩
    rw [h.free, List.mem_append] at hfree
    rcases hfree with hmem | hmem
    · rcases mapped_iff.1 hold with ⟨v, e, hv, he, rfl⟩
      exact hnot v e hv he hmem
    · exact hpage.2.1 hmem
  · rw [hleaf v (.inl hv)] at he
    rw [hleaf w (.inl hw)] at hx
    exact hm.inj v w e x (by omega) (by omega) he hx heq
  · rw [Owned, Owned, h.tables, hmapped, hsplit, h.free, List.mem_append]
    tauto
  · refine h.bytes p hp (fun ht => hown (.inl ht)) fun hmem => hown (.inr ((hsplit p).2 ?_))
    exact .inr hmem
  · have hpage := hm.page _ (mapped_of_leaf (by omega : v < n) he)
    exact h.bytes _ (PTE2PA_aligned e) hpage.2.2 (hnot v e hv he)

end Removed

theorem uvmunmap_change (h : Space kend m root n) (hk : k ≤ n) :
    Prog.wp (uvmunmap kend root (k * PGSIZE) (n - k) true) Never (fun _ m' =>
      Change kend root m m' n k) m := by
  have hn := h.le_pages
  have hbound : (k + (n - k)) * PGSIZE ≤ MAXVA := by
    simp only [PGSIZE, MAXVA]
    omega
  refine Prog.wp_post (uvmunmap_spec h.wf hbound (fun w _ hhi => h.mapped w (by omega))
    fun _ => h.freeable (by omega)) fun _ m' hr => ?_
  rcases hr with ⟨l, hrem, hl⟩
  exact hrem.change h (fun p => (hl p).trans (and_iff_right rfl)) hk

theorem intBits_of_lt (h : n < 2 ^ 31) : intBits n = n := by
  unfold intBits
  split <;> omega

theorem uvmdealloc_change (h : Space kend m root n) (hk : k ≤ n) :
    Prog.wp (uvmdealloc kend root (n * PGSIZE) (k * PGSIZE)) Never (fun _ m' =>
      Change kend root m m' n k) m := by
  have hn := h.le_pages
  have hround : ∀ j, j ≤ n → PGROUNDUP (j * PGSIZE) = j * PGSIZE := by
    intro j hj
    simp only [PGROUNDUP, PGSIZE]
    omega
  rw [uvmdealloc]
  by_cases heq : k = n
  · subst heq
    rw [if_pos le_rfl]
    exact .refl h
  · have hlt : k * PGSIZE < n * PGSIZE := Nat.mul_lt_mul_of_pos_right (by omega) (by decide)
    have hcount : intBits ((n * PGSIZE - k * PGSIZE) / PGSIZE) = n - k := by
      rw [← Nat.sub_mul, Nat.mul_div_cancel _ (by decide : 0 < PGSIZE)]
      exact intBits_of_lt (by omega)
    rw [if_neg (Nat.not_le.2 hlt), hround k hk, hround n le_rfl, if_pos hlt, hcount,
      Prog.wp_bind]
    exact Prog.wp_post (uvmunmap_change h hk) fun _ m' hr => hr

/-! ## Adding pages -/

namespace Edited

variable {f : Nat → Option Nat}

/-- New tables leave the pages of an address space. -/
theorem kept_page (h : Edited kend root m m' f) (hfree : p ∉ m.free) (ht : ¬ Tables m.byte root p)
    (hp : p % PGSIZE = 0) : Same m.byte m'.byte p ∧ p ∉ m'.free ∧ ¬ Tables m'.byte root p := by
  rcases h.taken with ⟨l, hl, htables⟩
  rw [hl, List.mem_append, not_or] at hfree
  refine ⟨h.bytes p hp ht ?_, hfree.2, fun ht' => ((htables p).1 ht').elim ht hfree.1⟩
  rw [hl, List.mem_append, not_or]
  exact hfree

/-- The map has been changed above the pages of the user only. -/
theorem change (h : Edited kend root m m' f) (hm : Space kend m root n)
    (hf : ∀ v, v < USERTOP → f v = Vm.leaf m.byte root v) :
    Space kend m' root n ∧ Moves m m' (Owned m.byte root n) (Owned m'.byte root n) ∧
      ∀ p, Mapped m.byte root 0 n p → Same m.byte m'.byte p := by
  have hn := hm.le_pages
  have hnt : n ≤ USERTOP := Nat.le_trans hn (by decide)
  have hleaf : ∀ v, v < USERTOP → Vm.leaf m'.byte root v = Vm.leaf m.byte root v := fun v hv =>
    (h.leaf v).trans (hf v hv)
  have hmapped := mapped_congr (n := n) fun v hv => hleaf v (by omega)
  have hkept : ∀ p, Mapped m.byte root 0 n p →
      Same m.byte m'.byte p ∧ p ∉ m'.free ∧ ¬ Tables m'.byte root p := fun p hp =>
    h.kept_page (hm.page p hp).2.1 (hm.page p hp).2.2 (mapped_aligned hp)
  rcases h.taken with ⟨l, hl, htables⟩
  refine ⟨hm.of_leaf h.wf hleaf fun p hp => (hkept p hp).2,
    ⟨fun p => ?_, fun p hp hown hfree => ?_⟩,
    fun p hp => (hkept p hp).1⟩
  · rw [Owned, Owned, htables, hmapped, hl, List.mem_append]
    tauto
  · exact h.bytes p hp (fun ht => hown (.inl ht)) hfree

end Edited

/-- From `m` to `m'` the page `p` has become page `n` of an address space. -/
structure Added (kend : KernelEnd) (root : Nat) (m m' : Mem) (n p perm : Nat) : Prop where
  space : Space kend m' root (n + 1)
  moves : Moves m m' (fun q => Owned m.byte root n q ∨ q = p) (Owned m'.byte root (n + 1))
  leaf : ∀ v, v < n ∨ USERTOP ≤ v → leaf m'.byte root v = leaf m.byte root v
  new : Vm.leaf m'.byte root n = some (entry p perm)
  kept : ∀ q, Mapped m.byte root 0 n q ∨ q = p → Same m.byte m'.byte q

theorem IsPage.lt (h : IsPage kend p) : p < 2 ^ 56 := by
  have hhigh := h.high
  simp only [PHYSTOP, KERNBASE] at hhigh
  omega

theorem added_of_edited (h : Edited kend root m m' (mapped (leaf m.byte root) n 1 p perm))
    (hm : Space kend m root n) (hp : IsPage kend p) (hfree : p ∉ m.free)
    (hown : ¬ Owned m.byte root n p) (hn : n < USERTOP) (hperm : perm < 1024)
    (hflags : perm ||| PTE_V ≠ PTE_V) : Added kend root m m' n p perm := by
  have hpa : PTE2PA (entry p perm) = p :=
    PTE2PA_entry hp.aligned (Nat.lt_trans (IsPage.lt hp) (by decide)) hperm
  have hold : ∀ v, v ≠ n → leaf m'.byte root v = leaf m.byte root v := by
    intro v hv
    exact (h.leaf v).trans (if_neg (by omega))
  have hnew : leaf m'.byte root n = some (entry p perm) := by
    refine (h.leaf n).trans ((if_pos (by omega)).trans ?_)
    rw [Nat.sub_self, Nat.zero_mul, Nat.add_zero]
  have hsplit : ∀ q, Mapped m'.byte root 0 (n + 1) q ↔ Mapped m.byte root 0 n q ∨ q = p := by
    intro q
    rw [mapped_iff, mapped_iff]
    constructor
    · rintro ⟨v, e, hv, he, rfl⟩
      by_cases hvn : v = n
      · subst hvn
        rw [hnew] at he
        cases he
        exact .inr hpa
      · rw [hold v hvn] at he
        exact .inl ⟨v, e, by omega, he, rfl⟩
    · rintro (⟨v, e, hv, he, rfl⟩ | rfl)
      · exact ⟨v, e, by omega, (hold v (by omega)).trans he, rfl⟩
      · exact ⟨n, _, Nat.lt_succ_self n, hnew, hpa⟩
  have hkept : ∀ q, Mapped m.byte root 0 n q ∨ q = p →
      IsPage kend q ∧ Same m.byte m'.byte q ∧ q ∉ m'.free ∧ ¬ Tables m'.byte root q := by
    rintro q (hq | rfl)
    · have hpage := hm.page q hq
      exact ⟨hpage.1, h.kept_page hpage.2.1 hpage.2.2 (mapped_aligned hq)⟩
    · exact ⟨hp, h.kept_page hfree (fun ht => hown (.inl ht)) hp.aligned⟩
  rcases h.taken with ⟨l, hl, htables⟩
  refine ⟨⟨h.wf, fun v hv => ?_, fun v hlo hhi => ?_, fun q hq => ?_,
    fun v w e x hv hw he hx heq => ?_⟩,
    ⟨fun q => ?_, fun q hq hnot hfr => ?_⟩, fun v hv => hold v (by omega), hnew,
    fun q hq => (hkept q hq).2.1⟩
  · by_cases hvn : v = n
    · subst hvn
      exact ⟨_, hnew, by rwa [flags_entry hperm]⟩
    · rw [hold v hvn]
      exact hm.mapped v (by omega)
  · rw [hold v (by omega)]
    exact hm.above v (by omega) hhi
  · have hq' := hkept q ((hsplit q).1 hq)
    exact ⟨hq'.1, hq'.2.2⟩
  · -- The new page is none of the old ones.
    have hne : ∀ v e, v < n → leaf m'.byte root v = some e → PTE2PA e ≠ p := by
      intro v e hv he heq
      rw [hold v (by omega)] at he
      exact hown (.inr (heq ▸ mapped_of_leaf hv he))
    by_cases hvn : v = n <;> by_cases hwn : w = n
    · rw [hvn, hwn]
    · subst hvn
      rw [hnew] at he
      cases he
      exact absurd (heq.symm.trans hpa) (hne w x (by omega) hx)
    · subst hwn
      rw [hnew] at hx
      cases hx
      exact absurd (heq.trans hpa) (hne v e (by omega) he)
    · rw [hold v hvn] at he
      rw [hold w hwn] at hx
      exact hm.inj v w e x (by omega) (by omega) he hx heq
  · rw [Owned, Owned, htables, hsplit, hl, List.mem_append]
    tauto
  · exact h.bytes q hq (fun ht => hnot (.inl (.inl ht))) hfr

/-- One page is mapped, or there is no page for a table. -/
theorem mappages_one (h : Wf kend m root) (hv : v < MAXVA / PGSIZE) (hp : p % PGSIZE = 0)
    (hlt : p < 2 ^ 56) (hperm : perm < 1024) (hnone : leaf m.byte root v = none) :
    Prog.wp (mappages root (v * PGSIZE) PGSIZE p perm) Never (fun r m' =>
      r = 0 ∧ Edited kend root m m' (mapped (leaf m.byte root) v 1 p perm) ∨
      r = -1 ∧ m'.free = [] ∧ Edited kend root m m' (leaf m.byte root)) m := by
  have hpage : v * PGSIZE / PGSIZE = v := Nat.mul_div_cancel _ (by decide)
  have hlast : (v * PGSIZE + PGSIZE - 1) / PGSIZE = v := by
    simp only [PGSIZE]
    omega
  have hcount : pageCount (v * PGSIZE) PGSIZE = 1 := by
    rw [pageCount, hpage, hlast, Nat.sub_self]
  have hbound : v * PGSIZE + PGSIZE ≤ MAXVA := by
    simp only [PGSIZE, MAXVA] at hv ⊢
    omega
  refine Prog.wp_post (mappages_spec h (by decide) hbound hp hlt hperm fun w hlo hhi => ?_)
    fun r m' hr => ?_
  · rw [hpage] at hlo
    rw [hlast] at hhi
    rw [Nat.le_antisymm hhi hlo]
    exact hnone
  · rcases hr with ⟨j, hres, hedit⟩
    rw [hpage] at hedit
    rw [hcount] at hres
    rcases hres with ⟨rfl, rfl⟩ | ⟨rfl, hj, hfr⟩
    · exact .inl ⟨rfl, hedit⟩
    · rw [Nat.lt_one_iff.1 hj, mapped_zero] at hedit
      exact .inr ⟨rfl, hfr, hedit⟩

theorem mappages_page (h : Space kend m root n) (hp : IsPage kend p) (hfree : p ∉ m.free)
    (hown : ¬ Owned m.byte root n p) (hperm : perm < 1024) (hflags : perm ||| PTE_V ≠ PTE_V) :
    Prog.wp (mappages root (n * PGSIZE) PGSIZE p perm) Never (fun r m' =>
      r = 0 ∧ Added kend root m m' n p perm ∨
      r = -1 ∧ m'.free = [] ∧ Change kend root m m' n n ∧ ¬ Owned m'.byte root n p) m := by
  have hnt : n < USERTOP := Nat.lt_of_le_of_lt h.le_pages (by decide)
  refine Prog.wp_post (mappages_one h.wf (Nat.lt_trans hnt (by decide)) hp.aligned
    (IsPage.lt hp) hperm
    (h.above n le_rfl hnt)) fun r m' hr => ?_
  rcases hr with ⟨rfl, hedit⟩ | ⟨rfl, hfr, hedit⟩
  · exact .inl ⟨rfl, added_of_edited hedit h hp hfree hown hnt hperm hflags⟩
  · rcases hedit.change h fun _ _ => rfl with ⟨hspace, hmoves, hkept⟩
    refine .inr ⟨rfl, hfr, ⟨hspace, hmoves, fun v _ => hedit.leaf v,
      fun v e hv _ he => hkept _ (mapped_of_leaf hv he)⟩, ?_⟩
    exact (hmoves.other hown hfree).1

/-! ## A page in the hand of the kernel -/

theorem Space.take {l : List Nat} (h : Space kend m root n) (hfree : m.free = p :: l)
    (f : Nat → UInt8) :
    Space kend { byte := blit m.byte p PGSIZE f, free := l } root n ∧
    SameTree m.byte (blit m.byte p PGSIZE f) root ∧ ¬ Owned m.byte root n p ∧
    ∀ q, Owned m.byte root n q → Same m.byte (blit m.byte p PGSIZE f) q := by
  rcases h.wf.pool.pop hfree with ⟨hp, -, hpool⟩
  have hown : ¬ Owned m.byte root n p := fun ho => (h.owned ho).2 (hfree ▸ List.mem_cons_self)
  have hsame : ∀ q, Owned m.byte root n q → Same m.byte (blit m.byte p PGSIZE f) q := fun q hq =>
    Same.blit_page hp.aligned (h.owned hq).1.aligned (fun heq => hown (heq ▸ hq)) le_rfl
  rcases h.frame (show Pool kend { byte := blit m.byte p PGSIZE f, free := l } from hpool.congr rfl)
    (fun q hq => hsame q (.inl hq)) fun q hq hmem =>
      (h.owned hq).2 (hfree ▸ List.mem_cons_of_mem _ hmem) with ⟨hspace, htree⟩
  exact ⟨hspace, htree, hown, hsame⟩

theorem moves_take {l : List Nat} (own : Nat → Prop) (hp : p % PGSIZE = 0) (hfree : m.free = p :: l)
    (f : Nat → UInt8) : Moves m { byte := blit m.byte p PGSIZE f, free := l } own
      (fun q => own q ∨ q = p) := by
  refine ⟨fun q => ?_, fun q hq _ hfr => ?_⟩
  · rw [hfree, List.mem_cons, or_assoc]
  · refine Same.blit_page hp hq (fun heq => hfr ?_) le_rfl
    rw [hfree, heq]
    exact List.mem_cons_self

theorem Space.release (h : Space kend m root n) (hp : IsPage kend p) (hfree : p ∉ m.free)
    (hown : ¬ Owned m.byte root n p) :
    Space kend { byte := freed m.byte p m.free, free := p :: m.free } root n ∧
    SameTree m.byte (freed m.byte p m.free) root ∧
    ∀ q, Owned m.byte root n q → Same m.byte (freed m.byte p m.free) q := by
  have hsame : ∀ q, Owned m.byte root n q → Same m.byte (freed m.byte p m.free) q := fun q hq =>
    same_freed hp.aligned (h.owned hq).1.aligned fun heq => hown (heq ▸ hq)
  rcases h.frame (h.wf.pool.push hp hfree) (fun q hq => hsame q (.inl hq)) fun q hq hmem => by
      rcases List.mem_cons.1 hmem with heq | hmem
      · exact hown (heq ▸ hq)
      · exact (h.owned hq).2 hmem with ⟨hspace, htree⟩
  exact ⟨hspace, htree, hsame⟩

theorem moves_freed {own : Nat → Prop} (hp : p % PGSIZE = 0) :
    Moves m { byte := freed m.byte p m.free, free := p :: m.free }
      (fun q => own q ∨ q = p) own := by
  refine ⟨fun q => ?_, fun q hq hown _ => ?_⟩
  · rw [List.mem_cons, or_assoc]
  · exact same_freed hp hq fun heq => hown (.inr heq)

end Xv6.Vm
