import Xv6.Vm.Tree

/-!
# Walk — what `walk`, `mappages`, `uvmunmap` and `freewalk` do to a tree

`walk` finds the entry of a page and may add tables on the way, which leaves the map as it is.
`mappages` and `uvmunmap` go from page to page, and each round changes one entry of the map.
`freewalk` gives the pages of all tables back.
-/

namespace Xv6.Vm

open Lib Kalloc
open Function (update update_apply update_of_ne update_self)

/-- No panic. -/
def Never (_ : Panic) : Prop := False

variable {kend : KernelEnd} {m m' m'' : Mem} {root va t v w p level pa perm : Nat}
variable {f g : Nat → Option Nat}

/-! ## Lookup -/

/-- The number of the entry of an address in the tables of a level. -/
def num (level va : Nat) : Nat :=
  va / 2 ^ (12 + 9 * level)

theorem num_div (level va : Nat) : num level va / 512 = num (level + 1) va := by
  rw [num, num, Nat.div_div_eq_div_mul, show 12 + 9 * (level + 1) = 12 + 9 * level + 9 by omega,
    Nat.pow_add _ _ 9]

/-- The address of the entry of page `v`, 0 if its table is missing. -/
def slot (b : Nat → UInt8) (root v : Nat) : Nat :=
  match table b root 2 (v / 512) with
  | some t => t + 8 * (v % 512)
  | none => 0

theorem slot_of_table {b : Nat → UInt8} (h : table b root 2 (v / 512) = some t) :
    slot b root v = t + 8 * (v % 512) := by
  rw [slot, h]

theorem table_eq_none {b : Nat → UInt8} (hlevel : level ≤ 2)
    (h : table b root (2 - level) (num (level + 1) va) = none) :
    table b root 2 (num 1 va) = none := by
  induction level with
  | zero => exact h
  | succ level ih =>
    refine ih (Nat.le_of_succ_le hlevel) ?_
    rw [show 2 - level = (2 - (level + 1)) + 1 by omega, table_succ, ent, num_div, h]
    rfl

theorem walkFrom_false (hlevel : level ≤ 2)
    (ht : table m.byte root (2 - level) (num (level + 1) va) = some t) :
    walkFrom va false level t m = .ok (slot m.byte root (num 0 va)) m := by
  induction level generalizing t with
  | zero =>
    rw [← num_div] at ht
    rw [slot_of_table ht]
    rfl
  | succ level ih =>
    -- The entry decides the table of the next level.
    have hnext : table m.byte root (2 - level) (num (level + 1) va) =
        (valid (pteAt m.byte t (PX (level + 1) va))).map PTE2PA := by
      rw [← num_div] at ht
      rw [show 2 - level = (2 - (level + 1)) + 1 by omega, table_succ, ent_of_table ht]
      rfl
    rw [walkFrom, load, Prog.bind_gets, show le m.byte (t + 8 * PX (level + 1) va) 8 =
      pteAt m.byte t (PX (level + 1) va) from rfl]
    by_cases hv : has (pteAt m.byte t (PX (level + 1) va)) PTE_V
    · rw [if_pos hv]
      refine ih (Nat.le_of_succ_le hlevel) ?_
      rw [hnext, valid, if_pos hv]
      rfl
    · rw [if_neg hv]
      have hnone : table m.byte root (2 - level) (num (level + 1) va) = none := by
        rw [hnext, valid, if_neg hv]
        rfl
      have hslot := table_eq_none (Nat.le_of_succ_le hlevel) hnone
      rw [← num_div] at hslot
      rw [slot, hslot]
      rfl

theorem walk_false (root : Nat) (hva : va < MAXVA) :
    walk root va false m = .ok (slot m.byte root (va / PGSIZE)) m := by
  rw [walk, if_neg (Nat.not_le.2 hva)]
  refine walkFrom_false le_rfl ?_
  have hzero : num 3 va = 0 := Nat.div_eq_of_lt (Nat.lt_trans hva (by decide))
  rw [hzero]
  rfl

theorem walk_leaf {e : Nat} (h : Wf kend m root) (hva : v * PGSIZE < MAXVA)
    (he : leaf m.byte root v = some e) : ∃ t, table m.byte root 2 (v / 512) = some t ∧
      walk root (v * PGSIZE) false m = .ok (t + 8 * (v % 512)) m ∧ t + 8 * (v % 512) ≠ 0 ∧
      pteAt m.byte t (v % 512) = e ∧ has e PTE_V := by
  rcases ent_eq_some.1 he with ⟨t, ht, hv, rfl⟩
  have hne := (h.page t ⟨2, _, le_rfl, ht⟩).1.ne_zero
  have hpage : v * PGSIZE / PGSIZE = v := Nat.mul_div_cancel _ (by decide)
  refine ⟨t, ht, ?_, by omega, rfl, hv⟩
  rw [walk_false root hva, hpage, slot_of_table ht]

/-! ## Changes of a tree -/

/-- From `m` to `m'` free pages may have become tables, and the map is now `f`. -/
structure Edited (kend : KernelEnd) (root : Nat) (m m' : Mem) (f : Nat → Option Nat) : Prop where
  wf : Wf kend m' root
  leaf : ∀ v, leaf m'.byte root v = f v
  kept : ∀ d y p, d ≤ 2 → table m.byte root d y = some p → table m'.byte root d y = some p
  taken : ∃ l, m.free = l ++ m'.free ∧ ∀ p, Tables m'.byte root p ↔ Tables m.byte root p ∨ p ∈ l
  bytes : ∀ p, p % PGSIZE = 0 → ¬ Tables m.byte root p → p ∉ m.free → Same m.byte m'.byte p

namespace Edited

theorem refl (h : Wf kend m root) : Edited kend root m m (Vm.leaf m.byte root) :=
  ⟨h, fun _ => rfl, fun _ _ _ _ ht => ht, ⟨[], rfl, fun p => by simp⟩, fun p _ _ _ => Same.refl _ p⟩

theorem trans (h : Edited kend root m m' f) (h' : Edited kend root m' m'' g) :
    Edited kend root m m'' g := by
  rcases h.taken with ⟨l, hfree, htables⟩
  rcases h'.taken with ⟨l', hfree', htables'⟩
  refine ⟨h'.wf, h'.leaf, fun d y p hd ht => h'.kept d y p hd (h.kept d y p hd ht),
    ⟨l ++ l', by rw [hfree, hfree', List.append_assoc], fun p => ?_⟩, fun p hp hnot hfr => ?_⟩
  · rw [htables', htables, List.mem_append]
    tauto
  · rw [hfree, List.mem_append] at hfr
    have hnot' : ¬ Tables m'.byte root p := fun ht => ((htables p).1 ht).elim hnot (hfr ∘ .inl)
    refine (h.bytes p hp hnot ?_).trans (h'.bytes p hp hnot' (hfr ∘ .inr))
    rw [hfree, List.mem_append]
    exact hfr

theorem congr (h : Edited kend root m m' f) (heq : ∀ v, f v = g v) : Edited kend root m m' g :=
  ⟨h.wf, fun v => (h.leaf v).trans (heq v), h.kept, h.taken, h.bytes⟩

end Edited

theorem edited_addTable {d y : Nat} {l : List Nat} (h : Wf kend m root) (hd : d < 2)
    (ht : table m.byte root d (y / 512) = some t) (hnone : ent m.byte root d y = none)
    (hfree : m.free = p :: l) :
    Edited kend root m { byte := addTable m.byte t (y % 512) p, free := l } (leaf m.byte root) ∧
      table (addTable m.byte t (y % 512) p) root (d + 1) y = some p := by
  rcases h.addTable hd ht hnone hfree with ⟨hwf, htable, hleaf⟩
  have hp := (h.pool.pop hfree).1
  have hself : table (addTable m.byte t (y % 512) p) root (d + 1) y = some p :=
    (htable _ _ (Nat.succ_le_of_lt hd)).trans (if_pos ⟨rfl, rfl⟩)
  have hbelow : table m.byte root (d + 1) y = none := by
    rw [table_succ, hnone]
    rfl
  have hkept : ∀ d' y' q, d' ≤ 2 → table m.byte root d' y' = some q →
      table (addTable m.byte t (y % 512) p) root d' y' = some q := by
    intro d' y' q hd' hq
    refine (htable d' y' hd').trans ((if_neg ?_).trans hq)
    rintro ⟨rfl, rfl⟩
    rw [hbelow] at hq
    cases hq
  refine ⟨⟨hwf, hleaf, hkept, ⟨[p], hfree, fun q => ?_⟩, fun q hq hnot hfr => ?_⟩, hself⟩
  · rw [List.mem_singleton]
    constructor
    · rintro ⟨d', y', hd', hq⟩
      dsimp only at hq
      rw [htable d' y' hd'] at hq
      split at hq
      · exact .inr (Option.some.inj hq).symm
      · exact .inl ⟨d', y', hd', hq⟩
    · rintro (⟨d', y', hd', hq⟩ | rfl)
      · exact ⟨d', y', hd', hkept d' y' q hd' hq⟩
      · exact ⟨d + 1, y, Nat.succ_le_of_lt hd, hself⟩
  · have htt : Tables m.byte root t := ⟨d, _, Nat.le_of_lt hd, ht⟩
    refine same_addTable (h.aligned htt) hp.aligned hq (Nat.mod_lt _ (by decide))
      (fun heq => hnot (heq ▸ htt)) fun heq => hfr ?_
    rw [hfree, heq]
    exact List.mem_cons_self

/-! ## `walk` with `alloc` -/

/-- The entry has been found, or there was no page for a table. -/
def Found (root v r : Nat) (m : Mem) : Prop :=
  r = 0 ∧ m.free = [] ∨ ∃ t, table m.byte root 2 (v / 512) = some t ∧ r = t + 8 * (v % 512)

theorem walkFrom_true (h : Wf kend m root) (hlevel : level ≤ 2)
    (ht : table m.byte root (2 - level) (num (level + 1) va) = some t) :
    Prog.wp (walkFrom va true level t) Never (fun r m' =>
      Edited kend root m m' (leaf m.byte root) ∧ Found root (num 0 va) r m') m := by
  induction level generalizing t m with
  | zero =>
    rw [← num_div] at ht
    exact ⟨.refl h, .inr ⟨t, ht, rfl⟩⟩
  | succ level ih =>
    have hle : level ≤ 2 := Nat.le_of_succ_le hlevel
    have hdepth : 2 - level = (2 - (level + 1)) + 1 := by omega
    rw [← num_div] at ht
    have hent : ent m.byte root (2 - (level + 1)) (num (level + 1) va) =
        valid (pteAt m.byte t (PX (level + 1) va)) := ent_of_table ht
    rw [walkFrom]
    rw [Prog.wp_bind, wp_load_pte]
    by_cases hv : has (pteAt m.byte t (PX (level + 1) va)) PTE_V
    · rw [if_pos hv]
      refine ih h hle ?_
      rw [hdepth, table_succ, hent, valid, if_pos hv]
      rfl
    · rw [if_neg hv, if_pos rfl]
      rw [valid, if_neg hv] at hent
      cases hfree : m.free with
      | nil =>
        -- There is no page for the table.
        rw [Prog.wp_bind, Prog.wp_of_eq (kalloc_nil hfree), if_pos rfl]
        exact ⟨.refl h, .inl ⟨rfl, hfree⟩⟩
      | cons p l =>
        have hp := (h.pool.pop hfree).1
        rw [Prog.wp_bind, Prog.wp_of_eq (kalloc_cons hfree), if_neg hp.ne_zero]
        rcases edited_addTable h (by omega) ht hent hfree with ⟨hedit, htab⟩
        rw [← hdepth] at htab
        have hrest := ih
          (m := { byte := addTable m.byte t (num (level + 1) va % 512) p, free := l })
          hedit.wf hle htab
        simp only [memset, Prog.wp_bind, Prog.wp_modify, entry_zero, wp_store_pte]
        refine Prog.wp_post hrest fun r m' hr => ⟨?_, hr.2⟩
        exact (hedit.trans hr.1).congr hedit.leaf

theorem walk_true (h : Wf kend m root) (hva : va < MAXVA) :
    Prog.wp (walk root va true) Never (fun r m' =>
      Edited kend root m m' (leaf m.byte root) ∧ Found root (va / PGSIZE) r m') m := by
  rw [walk, if_neg (Nat.not_le.2 hva)]
  refine walkFrom_true h le_rfl ?_
  have hzero : num 3 va = 0 := Nat.div_eq_of_lt (Nat.lt_trans hva (by decide))
  rw [hzero]
  rfl

/-! ## `mappages` -/

theorem edited_setLeaf {e : Nat} (h : Wf kend m root) (ht : table m.byte root 2 (v / 512) = some t)
    (he : e < 2 ^ 64) : Edited kend root m { m with byte := setPte m.byte t (v % 512) e }
      (update (leaf m.byte root) v (valid e)) := by
  rcases h.setLeaf ht he with ⟨hwf, htable, hleaf⟩
  have htt : Tables m.byte root t := ⟨2, _, le_rfl, ht⟩
  refine ⟨hwf, fun w => ?_, fun d y q hd hq => (htable d y hd).trans hq, ⟨[], rfl, fun q => ?_⟩,
    fun q hq hnot _ => same_setPte (h.aligned htt) hq (fun heq => hnot (heq ▸ htt))
      (Nat.mod_lt _ (by decide))⟩
  · rw [hleaf, update_apply]
  · rw [List.mem_nil_iff, or_false]
    constructor
    · rintro ⟨d, y, hd, hq⟩
      exact ⟨d, y, hd, htable d y hd ▸ hq⟩
    · rintro ⟨d, y, hd, hq⟩
      exact ⟨d, y, hd, (htable d y hd).trans hq⟩

/-- The map after `j` pages from page `v` on have been mapped to the physical pages from `pa` on. -/
def mapped (f : Nat → Option Nat) (v j pa perm : Nat) : Nat → Option Nat := fun w =>
  if v ≤ w ∧ w < v + j then some (entry (pa + (w - v) * PGSIZE) perm) else f w

theorem mapped_zero : mapped f v 0 pa perm = f := by
  funext w
  exact if_neg (by omega)

theorem mapped_succ (j : Nat) : mapped (update f v (some (entry pa perm))) (v + 1) j
    (pa + PGSIZE) perm = mapped f v (j + 1) pa perm := by
  funext w
  unfold mapped
  by_cases hw : w = v
  · subst hw
    rw [if_neg (by omega), if_pos (by omega), update_self, Nat.sub_self, Nat.zero_mul, Nat.add_zero]
  · rw [update_of_ne hw]
    by_cases hin : v + 1 ≤ w ∧ w < v + 1 + j
    · have hpage : pa + PGSIZE + (w - (v + 1)) * PGSIZE = pa + (w - v) * PGSIZE := by
        simp only [PGSIZE]
        omega
      rw [if_pos hin, if_pos (by omega), hpage]
    · rw [if_neg hin, if_neg (by omega)]

/-- `j` of `n` pages have been mapped: all, or those before a table was missing. -/
def MapResult (n : Nat) (r : Int) (j : Nat) (m : Mem) : Prop :=
  r = 0 ∧ j = n ∨ r = -1 ∧ j < n ∧ m.free = []

theorem mapLoop_spec {k rounds : Nat} (h : Wf kend m root) (hv : (v + k + 1) * PGSIZE ≤ MAXVA)
    (hpa : pa % PGSIZE = 0) (hlt : pa + k * PGSIZE < 2 ^ 64) (hperm : perm < 1024)
    (hnone : ∀ w, v ≤ w → w ≤ v + k → leaf m.byte root w = none) (hrounds : k < rounds) :
    Prog.wp (mapLoop root perm ((v + k) * PGSIZE) rounds (v * PGSIZE) pa) Never (fun r m' =>
      ∃ j, MapResult (k + 1) r j m' ∧
        Edited kend root m m' (mapped (leaf m.byte root) v j pa perm)) m := by
  induction rounds generalizing k v pa m with
  | zero => exact absurd hrounds (Nat.not_lt_zero _)
  | succ rounds ih =>
    have hva : v * PGSIZE < MAXVA := by
      simp only [PGSIZE] at *
      omega
    have hpage : v * PGSIZE / PGSIZE = v := Nat.mul_div_cancel _ (by decide)
    have hpalt : pa < 2 ^ 64 := by omega
    rw [mapLoop]
    refine Prog.wp_seq (walk_true h hva) fun r m₁ hr => ?_
    rcases hr with ⟨hedit, hfound⟩
    rw [hpage] at hfound
    rcases hfound with ⟨rfl, hfree⟩ | ⟨t, ht, rfl⟩
    · rw [if_pos rfl]
      refine ⟨0, .inr ⟨rfl, Nat.succ_pos _, hfree⟩, ?_⟩
      rwa [mapped_zero]
    have htt : Tables m₁.byte root t := ⟨2, _, le_rfl, ht⟩
    have htne : t + 8 * (v % 512) ≠ 0 := by
      have hne := (hedit.wf.page t htt).1.ne_zero
      omega
    -- The entry is not valid, because page `v` is not mapped.
    have hfree : ¬ has (pteAt m₁.byte t (v % 512)) PTE_V := by
      have hleaf := (hedit.leaf v).trans (hnone v le_rfl (Nat.le_add_right _ _))
      rw [leaf, ent_of_table ht, valid] at hleaf
      intro hv'
      rw [if_pos hv'] at hleaf
      cases hleaf
    have hset := edited_setLeaf hedit.wf ht (entry_lt hpalt hperm)
    rw [valid, if_pos (valid_entry pa perm)] at hset
    rw [if_neg htne, Prog.wp_bind, wp_load_pte, if_neg hfree, Prog.wp_bind, wp_store_pte]
    have hall := (hedit.trans hset).congr (g := mapped (leaf m.byte root) v 1 pa perm) fun w => by
      rw [← mapped_succ 0, mapped_zero, funext hedit.leaf]
    cases k with
    | zero =>
      rw [Nat.add_zero, if_pos rfl]
      exact ⟨1, .inl ⟨rfl, rfl⟩, hall⟩
    | succ k =>
      have hne : v * PGSIZE ≠ (v + (k + 1)) * PGSIZE := by
        simp only [PGSIZE]
        omega
      have hnext : (v * PGSIZE + PGSIZE) % 2 ^ 64 = (v + 1) * PGSIZE := by
        simp only [PGSIZE, MAXVA] at hva ⊢
        omega
      have hlt' : pa + PGSIZE + k * PGSIZE < 2 ^ 64 := by
        simp only [PGSIZE] at hlt ⊢
        omega
      have hnextpa : (pa + PGSIZE) % 2 ^ 64 = pa + PGSIZE :=
        Nat.mod_eq_of_lt (Nat.lt_of_le_of_lt (Nat.le_add_right _ _) hlt')
      have hcomm : v + (k + 1) = v + 1 + k := by omega
      rw [if_neg hne, hnext, hnextpa, hcomm]
      have hrest := ih (m := { m₁ with byte := setPte m₁.byte t (v % 512) (entry pa perm) })
        hset.wf (hcomm ▸ hv) ((Nat.add_mod_right _ _).trans hpa) hlt' ?_
        (Nat.lt_of_succ_lt_succ hrounds)
      · refine Prog.wp_post hrest fun r m' hr => ?_
        rcases hr with ⟨j, hres, hedit'⟩
        refine ⟨j + 1, ?_, (hall.trans hedit').congr fun w => ?_⟩
        · rcases hres with ⟨rfl, rfl⟩ | ⟨rfl, hj, hfr⟩
          · exact .inl ⟨rfl, rfl⟩
          · exact .inr ⟨rfl, Nat.succ_lt_succ hj, hfr⟩
        · rw [← mapped_succ, funext hset.leaf, funext hedit.leaf]
      · intro w hlo hhi
        rw [hset.leaf, update_of_ne (Nat.ne_of_gt hlo), hedit.leaf]
        exact hnone w (Nat.le_of_lt hlo) (hcomm ▸ hhi)

/-- The pages from that of `va` to that of the last byte. -/
def pageCount (va size : Nat) : Nat :=
  (va + size - 1) / PGSIZE - va / PGSIZE + 1

theorem mappages_spec {size : Nat} (h : Wf kend m root) (hsize : 0 < size) (hva : va + size ≤ MAXVA)
    (hpa : pa % PGSIZE = 0) (hlt : pa < 2 ^ 56) (hperm : perm < 1024)
    (hnone : ∀ w, va / PGSIZE ≤ w → w ≤ (va + size - 1) / PGSIZE → leaf m.byte root w = none) :
    Prog.wp (mappages root va size pa perm) Never (fun r m' =>
      ∃ j, MapResult (pageCount va size) r j m' ∧
        Edited kend root m m' (mapped (leaf m.byte root) (va / PGSIZE) j pa perm)) m := by
  have hlast : PGROUNDDOWN ((va + size - 1) % 2 ^ 64) =
      (va / PGSIZE + ((va + size - 1) / PGSIZE - va / PGSIZE)) * PGSIZE := by
    simp only [PGROUNDDOWN, PGSIZE, MAXVA] at *
    omega
  rw [mappages, if_neg (Nat.ne_of_gt hsize), hlast]
  have hdiv : va / PGSIZE ≤ (va + size - 1) / PGSIZE := Nat.div_le_div_right (by omega)
  refine mapLoop_spec h ?_ hpa ?_ hperm (fun w hlo hhi => hnone w hlo (by omega)) ?_
  · simp only [PGSIZE, MAXVA] at *
    omega
  · simp only [PGSIZE, MAXVA] at *
    omega
  · simp only [ROUNDS, PGSIZE, MAXVA] at *
    omega

/-! ## `uvmunmap` -/

/-- From `m` to `m'` the pages `l` have been freed, and the map is now `f`. -/
structure Removed (kend : KernelEnd) (root : Nat) (m m' : Mem) (f : Nat → Option Nat)
    (l : List Nat) : Prop where
  wf : Wf kend m' root
  leaf : ∀ v, leaf m'.byte root v = f v
  table : ∀ d y, d ≤ 2 → table m'.byte root d y = table m.byte root d y
  free : m'.free = l ++ m.free
  bytes : ∀ p, p % PGSIZE = 0 → ¬ Tables m.byte root p → p ∉ l → Same m.byte m'.byte p

namespace Removed

variable {l l' : List Nat}

theorem refl (h : Wf kend m root) : Removed kend root m m (Vm.leaf m.byte root) [] :=
  ⟨h, fun _ => rfl, fun _ _ _ => rfl, rfl, fun p _ _ _ => Same.refl _ p⟩

theorem tables (h : Removed kend root m m' f l) (p : Nat) :
    Tables m'.byte root p ↔ Tables m.byte root p := by
  constructor
  · rintro ⟨d, y, hd, ht⟩
    exact ⟨d, y, hd, h.table d y hd ▸ ht⟩
  · rintro ⟨d, y, hd, ht⟩
    exact ⟨d, y, hd, (h.table d y hd).trans ht⟩

theorem trans (h : Removed kend root m m' f l) (h' : Removed kend root m' m'' g l') :
    Removed kend root m m'' g (l' ++ l) := by
  refine ⟨h'.wf, h'.leaf, fun d y hd => (h'.table d y hd).trans (h.table d y hd),
    by rw [h'.free, h.free, List.append_assoc], fun p hp hnot hl => ?_⟩
  rw [List.mem_append] at hl
  exact (h.bytes p hp hnot (hl ∘ .inr)).trans
    (h'.bytes p hp (fun ht => hnot ((h.tables p).1 ht)) (hl ∘ .inl))

theorem congr (h : Removed kend root m m' f l) (heq : ∀ v, f v = g v) :
    Removed kend root m m' g l :=
  ⟨h.wf, fun v => (h.leaf v).trans (heq v), h.table, h.free, h.bytes⟩

end Removed

/-- The pages that these entries map can be freed: each is used once, and for nothing else. -/
structure Freeable (kend : KernelEnd) (m : Mem) (root v n : Nat) : Prop where
  page : ∀ w e, v ≤ w → w < v + n → leaf m.byte root w = some e →
    IsPage kend (PTE2PA e) ∧ PTE2PA e ∉ m.free ∧ ¬ Tables m.byte root (PTE2PA e)
  inj : ∀ w w' e e', v ≤ w → w < v + n → v ≤ w' → w' < v + n → leaf m.byte root w = some e →
    leaf m.byte root w' = some e' → PTE2PA e = PTE2PA e' → w = w'

/-- The pages that these entries map. -/
def Mapped (b : Nat → UInt8) (root v n p : Nat) : Prop :=
  ∃ w e, v ≤ w ∧ w < v + n ∧ leaf b root w = some e ∧ PTE2PA e = p

/-- The map without these pages. -/
def unmapped (f : Nat → Option Nat) (v n : Nat) : Nat → Option Nat := fun w =>
  if v ≤ w ∧ w < v + n then none else f w

theorem unmapped_zero : unmapped f v 0 = f := by
  funext w
  exact if_neg (by omega)

theorem unmapped_succ (n : Nat) : unmapped (update f v none) (v + 1) n = unmapped f v (n + 1) := by
  funext w
  unfold unmapped
  by_cases hw : w = v
  · subst hw
    rw [if_neg (by omega), if_pos (by omega), update_self]
  · rw [update_of_ne hw]
    by_cases hin : v + 1 ≤ w ∧ w < v + 1 + n
    · rw [if_pos hin, if_pos (by omega)]
    · rw [if_neg hin, if_neg (by omega)]

theorem removed_setLeaf (h : Wf kend m root) (ht : table m.byte root 2 (v / 512) = some t) :
    Removed kend root m { m with byte := setPte m.byte t (v % 512) 0 }
      (update (leaf m.byte root) v none) [] := by
  rcases h.setLeaf (e := 0) ht (by decide) with ⟨hwf, htable, -⟩
  have hedit := edited_setLeaf (e := 0) h ht (by decide)
  refine ⟨hwf, hedit.leaf, htable, rfl, fun q hq hnot _ => ?_⟩
  have htt : Tables m.byte root t := ⟨2, _, le_rfl, ht⟩
  exact same_setPte (h.aligned htt) hq (fun heq => hnot (heq ▸ htt)) (Nat.mod_lt _ (by decide))

theorem removed_freed (h : Wf kend m root) (hp : IsPage kend p) (hfree : p ∉ m.free)
    (hnot : ¬ Tables m.byte root p) :
    Removed kend root m { byte := freed m.byte p m.free, free := p :: m.free }
      (leaf m.byte root) [p] := by
  have hkeep : ∀ q, Tables m.byte root q → Same m.byte (freed m.byte p m.free) q ∧
      q ∉ p :: m.free := by
    intro q hq
    have hne : q ≠ p := fun heq => hnot (heq ▸ hq)
    refine ⟨same_freed hp.aligned (h.aligned hq) hne, fun hmem => ?_⟩
    rcases List.mem_cons.1 hmem with heq | hmem
    · exact hne heq
    · exact (h.page q hq).2 hmem
  rcases h.frame (h.pool.push hp hfree) hkeep with ⟨hwf, htree⟩
  refine ⟨hwf, htree.leaf, htree.table, rfl, fun q hq _ hne => ?_⟩
  exact same_freed hp.aligned hq fun heq => hne (heq ▸ List.mem_singleton_self _)

theorem unmapLoop_spec {n rounds : Nat} {doFree : Bool} (h : Wf kend m root)
    (hv : (v + n) * PGSIZE ≤ MAXVA)
    (hmap : ∀ w, v ≤ w → w < v + n → ∃ e, leaf m.byte root w = some e ∧ PTE_FLAGS e ≠ PTE_V)
    (hpages : doFree = true → Freeable kend m root v n) (hrounds : n < rounds) :
    Prog.wp (unmapLoop kend root ((v + n) * PGSIZE) doFree rounds (v * PGSIZE)) Never (fun _ m' =>
      ∃ l, Removed kend root m m' (unmapped (leaf m.byte root) v n) l ∧
        ∀ p, p ∈ l ↔ doFree = true ∧ Mapped m.byte root v n p) m := by
  induction rounds generalizing v n m with
  | zero => exact absurd hrounds (Nat.not_lt_zero _)
  | succ rounds ih =>
    rw [unmapLoop]
    cases n with
    | zero =>
      rw [Nat.add_zero, if_neg (Nat.lt_irrefl _)]
      refine ⟨[], by rw [unmapped_zero]; exact .refl h, fun p => ?_⟩
      simp only [List.not_mem_nil, false_iff, not_and]
      rintro - ⟨w, e, hlo, hhi, -⟩
      omega
    | succ n =>
      have hva : v * PGSIZE < (v + (n + 1)) * PGSIZE := by
        simp only [PGSIZE]
        omega
      have hlt : v * PGSIZE < MAXVA := Nat.lt_of_lt_of_le hva hv
      have hnext : (v * PGSIZE + PGSIZE) % 2 ^ 64 = (v + 1) * PGSIZE := by
        simp only [PGSIZE, MAXVA] at hlt ⊢
        omega
      have hcomm : v + (n + 1) = v + 1 + n := by omega
      rcases hmap v le_rfl (by omega) with ⟨e, hleaf, hflags⟩
      rcases walk_leaf h hlt hleaf with ⟨t, ht, hwalk, htne, hpte, hvalid⟩
      rw [if_pos hva, Prog.wp_bind, Prog.wp_of_eq hwalk, if_neg htne, Prog.wp_bind,
        wp_load_pte, hpte,
        if_neg (not_not.2 hvalid), if_neg hflags]
      -- The rest of the loop runs in a memory without page `v`.
      have hrest : ∀ m₁ l₁, Removed kend root m m₁ (update (leaf m.byte root) v none) l₁ →
          (∀ p, p ∈ l₁ ↔ doFree = true ∧ p = PTE2PA e) →
          Prog.wp (unmapLoop kend root ((v + (n + 1)) * PGSIZE) doFree rounds
            ((v * PGSIZE + PGSIZE) % 2 ^ 64)) Never (fun _ m' =>
            ∃ l, Removed kend root m m' (unmapped (leaf m.byte root) v (n + 1)) l ∧
              ∀ p, p ∈ l ↔ doFree = true ∧ Mapped m.byte root v (n + 1) p) m₁ := by
        intro m₁ l₁ hrem hl₁
        have hleaf₁ : ∀ w, v + 1 ≤ w → leaf m₁.byte root w = leaf m.byte root w := fun w hw =>
          (hrem.leaf w).trans (update_of_ne (Nat.ne_of_gt hw) _ _)
        rw [hnext, hcomm]
        refine Prog.wp_post (ih hrem.wf (hcomm ▸ hv) (fun w hlo hhi => ?_) (fun hdo => ⟨?_, ?_⟩)
          (Nat.lt_of_succ_lt_succ hrounds)) fun _ m' hr => ?_
        · rw [hleaf₁ w hlo]
          exact hmap w (Nat.le_of_lt hlo) (hcomm ▸ hhi)
        · intro w e' hlo hhi he'
          rw [hleaf₁ w hlo] at he'
          have hold := (hpages hdo).page w e' (Nat.le_of_lt hlo) (hcomm ▸ hhi) he'
          refine ⟨hold.1, fun hmem => ?_, fun htab => hold.2.2 ((hrem.tables _).1 htab)⟩
          rw [hrem.free, List.mem_append] at hmem
          rcases hmem with hmem | hmem
          · have heq := (hpages hdo).inj w v e' e (Nat.le_of_lt hlo) (hcomm ▸ hhi) le_rfl
              (by omega) he' hleaf ((hl₁ _).1 hmem).2
            omega
          · exact hold.2.1 hmem
        · intro w w' e₁ e₂ hlo hhi hlo' hhi' he₁ he₂ heq
          rw [hleaf₁ w hlo] at he₁
          rw [hleaf₁ w' hlo'] at he₂
          exact (hpages hdo).inj w w' e₁ e₂ (Nat.le_of_lt hlo) (hcomm ▸ hhi) (Nat.le_of_lt hlo')
            (hcomm ▸ hhi') he₁ he₂ heq
        · rcases hr with ⟨l, hrem', hl⟩
          refine ⟨l ++ l₁, (hrem.trans hrem').congr fun w => ?_, fun p => ?_⟩
          · rw [← unmapped_succ, funext hrem.leaf]
          · rw [List.mem_append, hl, hl₁]
            constructor
            · rintro (⟨hdo, w, e', hlo, hhi, he', rfl⟩ | ⟨hdo, rfl⟩)
              · rw [hleaf₁ w hlo] at he'
                exact ⟨hdo, w, e', Nat.le_of_lt hlo, hcomm ▸ hhi, he', rfl⟩
              · exact ⟨hdo, v, e, le_rfl, by omega, hleaf, rfl⟩
            · rintro ⟨hdo, w, e', hlo, hhi, he', rfl⟩
              by_cases hw : w = v
              · subst hw
                rw [hleaf] at he'
                exact .inr ⟨hdo, congrArg PTE2PA (Option.some.inj he').symm⟩
              · have hlo' : v + 1 ≤ w := by omega
                exact .inl ⟨hdo, w, e', hlo', hcomm ▸ hhi, (hleaf₁ w hlo').trans he', rfl⟩
      cases doFree with
      | false =>
        have hset := removed_setLeaf h ht
        rw [if_neg Bool.false_ne_true, Prog.wp_bind, wp_store_pte]
        exact hrest _ [] hset (by simp)
      | true =>
        rcases (hpages rfl).page v e le_rfl (by omega) hleaf with ⟨hp, hfree, hnot⟩
        have hfreed := removed_freed h hp hfree hnot
        have ht' := (hfreed.table 2 _ le_rfl).trans ht
        have hset := hfreed.trans (removed_setLeaf hfreed.wf ht')
        rw [if_pos rfl, Prog.wp_bind, Prog.wp_of_eq (kfree_page hp), Prog.wp_bind, wp_store_pte]
        refine hrest _ _ (hset.congr fun w => ?_) (by simp)
        rw [funext hfreed.leaf]

theorem uvmunmap_spec {n : Nat} {doFree : Bool} (h : Wf kend m root) (hv : (v + n) * PGSIZE ≤ MAXVA)
    (hmap : ∀ w, v ≤ w → w < v + n → ∃ e, leaf m.byte root w = some e ∧ PTE_FLAGS e ≠ PTE_V)
    (hpages : doFree = true → Freeable kend m root v n) :
    Prog.wp (uvmunmap kend root (v * PGSIZE) n doFree) Never (fun _ m' =>
      ∃ l, Removed kend root m m' (unmapped (leaf m.byte root) v n) l ∧
        ∀ p, p ∈ l ↔ doFree = true ∧ Mapped m.byte root v n p) m := by
  have hstop : (v * PGSIZE + n * PGSIZE) % 2 ^ 64 = (v + n) * PGSIZE := by
    simp only [PGSIZE, MAXVA] at hv ⊢
    omega
  have halign : v * PGSIZE % PGSIZE = 0 := Nat.mul_mod_left _ _
  rw [uvmunmap, if_neg (not_not.2 halign), hstop]
  refine unmapLoop_spec h hv hmap hpages ?_
  simp only [ROUNDS, PGSIZE, MAXVA] at hv ⊢
  omega

end Xv6.Vm
