import Xv6.Vm.Free

/-!
# Maps — a page table is a finite map

A tree stands for a partial map from page numbers to physical pages with flags.  `walk` never
changes it; `mappages` extends it, page by page; `uvmunmap` removes pages from it; and when it is
empty, `freewalk` gives back each table once.
-/

namespace Xv6.Vm

open Lib Kalloc

variable {kend : KernelEnd} {m : Mem} {b : Nat → UInt8} {root d y p v : Nat}

/-! ## An empty tree -/

theorem ent_zero_of_empty (hzero : ∀ i, i < 512 → pteAt b root i = 0) (y : Nat) :
    ent b root 0 y = none := by
  rw [ent, table]
  split
  · rw [Option.bind_some, hzero _ (Nat.mod_lt _ (by decide)), valid_zero]
  · rfl

theorem table_of_empty (hzero : ∀ i, i < 512 → pteAt b root i = 0) (d y : Nat) :
    table b root (d + 1) y = none := by
  induction d generalizing y with
  | zero => rw [table_succ, ent_zero_of_empty hzero, Option.map_none]
  | succ d ih => rw [table_succ, ent, ih, Option.bind_none, Option.map_none]

theorem eq_of_table_of_empty (hzero : ∀ i, i < 512 → pteAt b root i = 0)
    (h : table b root d y = some p) : d = 0 ∧ y = 0 ∧ p = root := by
  cases d with
  | zero =>
    rw [table] at h
    split at h
    · rename_i hy
      exact ⟨rfl, hy, (Option.some.inj h).symm⟩
    · cases h
  | succ d =>
    rw [table_of_empty hzero] at h
    cases h

/-- A page of zeros is a tree without entries. -/
theorem wf_empty (hpool : Pool kend m) (hroot : IsPage kend root) (hfree : root ∉ m.free)
    (hzero : ∀ i, i < 512 → pteAt m.byte root i = 0) :
    Wf kend m root ∧ (∀ v, leaf m.byte root v = none) ∧ ∀ p, Tables m.byte root p ↔ p = root := by
  have htables : ∀ p, Tables m.byte root p ↔ p = root := by
    intro p
    constructor
    · rintro ⟨d, y, -, ht⟩
      exact (eq_of_table_of_empty hzero ht).2.2
    · rintro rfl
      exact tables_root _ _
  have hent : ∀ d y, ent m.byte root d y = none := by
    intro d y
    cases d with
    | zero => exact ent_zero_of_empty hzero y
    | succ d => rw [ent, table_of_empty hzero, Option.bind_none]
  refine ⟨⟨hpool, fun p hp => ?_, fun d y d' y' p _ _ ht ht' => ?_, fun d y e _ he => ?_⟩,
    hent 2, htables⟩
  · rw [(htables p).1 hp]
    exact ⟨hroot, hfree⟩
  · rcases eq_of_table_of_empty hzero ht with ⟨rfl, rfl, -⟩
    rcases eq_of_table_of_empty hzero ht' with ⟨rfl, rfl, -⟩
    exact ⟨rfl, rfl⟩
  · rw [hent] at he
    cases he

/-! ## The map of a tree -/

/-- The physical page and the flags that a tree has for a page. -/
def pageMap (b : Nat → UInt8) (root v : Nat) : Option (Nat × Nat) :=
  (leaf b root v).map fun e => (PTE2PA e, PTE_FLAGS e)

theorem pageMap_entry {pa perm : Nat} (h : leaf b root v = some (entry pa perm))
    (hpa : pa % PGSIZE = 0) (hlt : pa < 2 ^ 64) (hperm : perm < 1024) :
    pageMap b root v = some (pa, perm ||| PTE_V) := by
  rw [pageMap, h, Option.map_some, PTE2PA_entry hpa hlt hperm, flags_entry hperm]

theorem pageMap_congr {b' : Nat → UInt8} (h : leaf b' root v = leaf b root v) :
    pageMap b' root v = pageMap b root v := by
  rw [pageMap, pageMap, h]

theorem exists_leaf_of_pageMap {pa flags : Nat} (h : pageMap b root v = some (pa, flags)) :
    ∃ e, leaf b root v = some e ∧ PTE2PA e = pa ∧ PTE_FLAGS e = flags := by
  rcases Option.map_eq_some_iff.1 h with ⟨e, he, heq⟩
  exact ⟨e, he, congrArg Prod.fst heq, congrArg Prod.snd heq⟩

/-- The mapped pages in a range have flags other than `PTE_V` alone, and, if they are to be freed,
they are pages of the allocator that are used once and for nothing else. -/
structure Removable (kend : KernelEnd) (m : Mem) (root v n : Nat) (doFree : Bool) : Prop where
  mapped : ∀ w, v ≤ w → w < v + n → ∃ pa flags, pageMap m.byte root w = some (pa, flags) ∧
    flags ≠ PTE_V ∧
    (doFree = true → IsPage kend pa ∧ pa ∉ m.free ∧ ¬ Tables m.byte root pa)
  inj : doFree = true → ∀ w w' pa flags flags', v ≤ w → w < v + n → v ≤ w' → w' < v + n →
    pageMap m.byte root w = some (pa, flags) → pageMap m.byte root w' = some (pa, flags') → w = w'

theorem Removable.freeable {n : Nat} {doFree : Bool} (h : Removable kend m root v n doFree)
    (hfree : doFree = true) : Freeable kend m root v n := by
  refine ⟨fun w e hlo hhi he => ?_, fun w w' e e' hlo hhi hlo' hhi' he he' heq => ?_⟩
  · rcases h.mapped w hlo hhi with ⟨pa, flags, hmap, -, hpage⟩
    rw [pageMap, he] at hmap
    cases hmap
    exact hpage hfree
  · refine h.inj hfree w w' (PTE2PA e) (PTE_FLAGS e) (PTE_FLAGS e') hlo hhi hlo' hhi' ?_ ?_
    · rw [pageMap, he]
      rfl
    · rw [pageMap, he', heq]
      rfl

/-- `walk` with `alloc` leaves the map and returns the slot of its page; `mappages` maps the pages
of its range to consecutive physical pages, or the first of them; both fail only when there is no
free page left.  `uvmunmap` removes exactly its pages; `freewalk` of an empty tree frees each table
once. All of them keep trees well-formed. -/
theorem page_tables_are_maps (h : Wf kend m root) :
    (∀ va, va < MAXVA → ∃ r m', walk root va true m = .ok r m' ∧ Wf kend m' root ∧
      Found root (va / PGSIZE) r m' ∧ ∀ v, pageMap m'.byte root v = pageMap m.byte root v) ∧
    (∀ va size pa perm, 0 < size → va + size ≤ MAXVA → pa % PGSIZE = 0 → pa < 2 ^ 56 → perm < 1024 →
      (∀ v, va / PGSIZE ≤ v → v ≤ (va + size - 1) / PGSIZE → pageMap m.byte root v = none) →
      ∃ r m' n, mappages root va size pa perm m = .ok r m' ∧ Wf kend m' root ∧
        (r = 0 ∧ n = (va + size - 1) / PGSIZE + 1 ∨
          r = -1 ∧ va / PGSIZE ≤ n ∧ n ≤ (va + size - 1) / PGSIZE ∧ m'.free = []) ∧
        ∀ v, pageMap m'.byte root v =
          if va / PGSIZE ≤ v ∧ v < n then some (pa + (v - va / PGSIZE) * PGSIZE, perm ||| PTE_V)
          else pageMap m.byte root v) ∧
    (∀ v n doFree, (v + n) * PGSIZE ≤ MAXVA → Removable kend m root v n doFree →
      ∃ m' l, uvmunmap kend root (v * PGSIZE) n doFree m = .ok () m' ∧ Wf kend m' root ∧
        m'.free = l ++ m.free ∧ (∀ p, p ∈ l ↔ doFree = true ∧ Mapped m.byte root v n p) ∧
        ∀ w, pageMap m'.byte root w =
          if v ≤ w ∧ w < v + n then none else pageMap m.byte root w) ∧
    ((∀ v, pageMap m.byte root v = none) → ∃ m' l, freewalk kend 3 root m = .ok () m' ∧
      m'.free = l ++ m.free ∧ m'.free.Nodup ∧ ∀ p, p ∈ l ↔ Tables m.byte root p) := by
  refine ⟨fun va hva => ?_, fun va size pa perm hsize hva hpa hlt hperm hnone => ?_,
    fun v n doFree hv hrem => ?_, fun hnone => ?_⟩
  · rcases Prog.exists_of_wp (walk_true h hva) fun _ he => he with ⟨r, m', hwalk, hedit, hfound⟩
    exact ⟨r, m', hwalk, hedit.wf, hfound, fun v => pageMap_congr (hedit.leaf v)⟩
  · have hleaf : ∀ w, va / PGSIZE ≤ w → w ≤ (va + size - 1) / PGSIZE → leaf m.byte root w = none :=
      fun w hlo hhi => Option.map_eq_none_iff.1 (hnone w hlo hhi)
    have hdiv : va / PGSIZE ≤ (va + size - 1) / PGSIZE := Nat.div_le_div_right (by omega)
    rcases Prog.exists_of_wp (mappages_spec h hsize hva hpa hlt hperm hleaf) fun _ he => he with
      ⟨r, m', hmap, j, hres, hedit⟩
    refine ⟨r, m', va / PGSIZE + j, hmap, hedit.wf, ?_, fun v => ?_⟩
    · rcases hres with ⟨rfl, rfl⟩ | ⟨rfl, hj, hfree⟩
      · left
        exact ⟨rfl, by unfold pageCount; omega⟩
      · right
        unfold pageCount at hj
        exact ⟨rfl, by omega, by omega, hfree⟩
    · have hj : j ≤ pageCount va size := by
        rcases hres with ⟨-, rfl⟩ | ⟨-, hj, -⟩
        · exact le_rfl
        · exact Nat.le_of_lt hj
      have hv := hedit.leaf v
      unfold mapped at hv
      by_cases hin : va / PGSIZE ≤ v ∧ v < va / PGSIZE + j
      · rw [if_pos hin] at hv ⊢
        have hbound : v - va / PGSIZE ≤ (va + size - 1) / PGSIZE := by
          simp only [pageCount, PGSIZE] at hj hin hdiv ⊢
          omega
        refine pageMap_entry hv ?_ ?_ hperm
        · simp only [PGSIZE] at hpa ⊢
          omega
        · simp only [PGSIZE, MAXVA] at hva hbound ⊢
          omega
      · rw [if_neg hin] at hv ⊢
        exact pageMap_congr hv
  · have hmap : ∀ w, v ≤ w → w < v + n → ∃ e, leaf m.byte root w = some e ∧
      PTE_FLAGS e ≠ PTE_V := by
      intro w hlo hhi
      rcases hrem.mapped w hlo hhi with ⟨pa, flags, hw, hflags, -⟩
      rcases exists_leaf_of_pageMap hw with ⟨e, he, -, rfl⟩
      exact ⟨e, he, hflags⟩
    rcases Prog.exists_of_wp (uvmunmap_spec h hv hmap hrem.freeable) fun _ he => he with
      ⟨_, m', hcall, l, hremoved, hl⟩
    refine ⟨m', l, hcall, hremoved.wf, hremoved.free, hl, fun w => ?_⟩
    have hw := hremoved.leaf w
    unfold unmapped at hw
    by_cases hin : v ≤ w ∧ w < v + n
    · rw [if_pos hin] at hw ⊢
      rw [pageMap, hw, Option.map_none]
    · rw [if_neg hin] at hw ⊢
      exact pageMap_congr hw
  · have hleaf : ∀ v, leaf m.byte root v = none := fun v => Option.map_eq_none_iff.1 (hnone v)
    rcases Prog.exists_of_wp (freewalk_root h hleaf) fun _ he => he with ⟨_, m', hcall, hfreed⟩
    rcases hfreed.free with ⟨l, hfree, hl⟩
    exact ⟨m', l, hcall, hfree, hfreed.pool.nodup, hl⟩

/-- A memory of zeros with `n` free pages below a table at its end. -/
def freePages (n : Nat) : Mem where
  byte := fun _ => 0
  free := (List.range n).map fun i => PHYSTOP - (i + 2) * PGSIZE

theorem wf_freePages {n : Nat} (hpool : Pool ⟨KERNBASE, le_rfl⟩ (freePages n))
    (hfree : PHYSTOP - PGSIZE ∉ (freePages n).free) :
    Wf ⟨KERNBASE, le_rfl⟩ (freePages n) (PHYSTOP - PGSIZE) ∧
      (∀ v, leaf (freePages n).byte (PHYSTOP - PGSIZE) v = none) ∧
      ∀ p, Tables (freePages n).byte (PHYSTOP - PGSIZE) p ↔ p = PHYSTOP - PGSIZE :=
  wf_empty hpool (by decide) hfree fun _ _ => le_eq_zero fun _ _ => rfl

/-- A page is mapped, which takes two tables; it is unmapped again, and the tables are freed. -/
theorem page_tables_are_maps_page : ∃ m₁ m₂ m₃ l,
    mappages (PHYSTOP - PGSIZE) 0 PGSIZE KERNBASE PTE_R (freePages 3) = .ok 0 m₁ ∧
      pageMap m₁.byte (PHYSTOP - PGSIZE) 0 = some (KERNBASE, PTE_R ||| PTE_V) ∧
      uvmunmap ⟨KERNBASE, le_rfl⟩ (PHYSTOP - PGSIZE) 0 1 false m₁ = .ok () m₂ ∧
      m₂.free = m₁.free ∧ (∀ v, pageMap m₂.byte (PHYSTOP - PGSIZE) v = none) ∧
      freewalk ⟨KERNBASE, le_rfl⟩ 3 (PHYSTOP - PGSIZE) m₂ = .ok () m₃ ∧
      m₃.free = l ++ m₂.free ∧ ∀ p, p ∈ l ↔ Tables m₂.byte (PHYSTOP - PGSIZE) p := by
  obtain ⟨hwf, hleaf, -⟩ := @wf_freePages 3 ⟨by decide, by decide⟩ (by decide)
  obtain ⟨r, m₁, n, hmap, hwf₁, hres, hmap₁⟩ := (page_tables_are_maps hwf).2.1 0 PGSIZE KERNBASE
    PTE_R (by decide) (by decide) (by decide) (by decide) (by decide)
    fun v _ _ => Option.map_eq_none_iff.2 (hleaf v)
  have hcall : (mappages (PHYSTOP - PGSIZE) 0 PGSIZE KERNBASE PTE_R (freePages 3)).value? =
      some 0 := by
    decide +kernel
  rw [hmap] at hcall
  obtain rfl := Option.some.inj hcall
  obtain rfl : n = 1 := by
    rcases hres with ⟨-, rfl⟩ | ⟨hneg, -⟩
    · rfl
    · cases hneg
  have hzero : pageMap m₁.byte (PHYSTOP - PGSIZE) 0 = some (KERNBASE, PTE_R ||| PTE_V) :=
    hmap₁ 0
  have hrem : Removable ⟨KERNBASE, le_rfl⟩ m₁ (PHYSTOP - PGSIZE) 0 1 false := by
    refine ⟨fun w _ hw => ⟨KERNBASE, PTE_R ||| PTE_V, ?_, by decide, nofun⟩, nofun⟩
    obtain rfl : w = 0 := by omega
    exact hzero
  obtain ⟨m₂, l₂, hunmap, hwf₂, hfree₂, hl₂, hmap₂⟩ :=
    (page_tables_are_maps hwf₁).2.2.1 0 1 false (by decide) hrem
  have hnone : ∀ v, pageMap m₂.byte (PHYSTOP - PGSIZE) v = none := by
    intro v
    rw [hmap₂, hmap₁]
    split_ifs with hv hv'
    · rfl
    · exact absurd ⟨Nat.zero_le v, hv'.2⟩ hv
    · exact Option.map_eq_none_iff.2 (hleaf v)
  obtain ⟨m₃, l₃, hwalk, hfree₃, -, hl₃⟩ := (page_tables_are_maps hwf₂).2.2.2 hnone
  have hnil : l₂ = [] := List.eq_nil_iff_forall_not_mem.2 fun p hp => by cases ((hl₂ p).1 hp).1
  rw [hnil] at hfree₂
  exact ⟨m₁, m₂, m₃, l₃, hmap, hzero, hunmap, hfree₂, hnone, hwalk, hfree₃, hl₃⟩

end Xv6.Vm
