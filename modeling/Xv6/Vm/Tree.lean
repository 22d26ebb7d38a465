import Xv6.Vm.Code
import Mathlib.Tactic.Tauto

/-!
# Tree — a page table as a tree of pages

A table at depth `d` has a number `y`: its place among all tables that could stand at that depth.
An entry at depth `d` has a number as well, and belongs to the table with number `y / 512`; it leads
to the table with the number of the entry at the next depth.  An entry at depth 2 has the number of
the page that it maps, so that the entries at depth 2 are the partial map from page numbers that the
tree stands for.
-/

namespace Xv6.Vm

open Lib Kalloc

/-! ## Entries -/

section Entries

variable {e f x pa perm : Nat}

theorem has_or (e x f : Nat) : has (e ||| x) f ↔ has e f ∨ has x f := by
  unfold has
  rw [Nat.and_or_distrib_right, Ne, Nat.or_eq_zero_iff]
  tauto

/-- The address in an entry is above its flags. -/
theorem not_has_PA2PTE (pa : Nat) (hf : f < 1024) : ¬ has (PA2PTE pa) f := by
  unfold has PA2PTE
  rw [not_not]
  apply Nat.eq_of_testBit_eq
  intro i
  rw [Nat.testBit_and, Nat.zero_testBit, Nat.mul_comm, Nat.testBit_two_pow_mul]
  by_cases h : 10 ≤ i
  · have hbit : f.testBit i = false :=
      Nat.testBit_lt_two_pow (Nat.lt_of_lt_of_le hf (Nat.pow_le_pow_right Nat.zero_lt_two h))
    rw [hbit, Bool.and_false]
  · simp [h]

/-- The entry that `mappages` makes. -/
def entry (pa perm : Nat) : Nat :=
  PA2PTE pa ||| perm ||| PTE_V

theorem has_entry (hf : f < 1024) : has (entry pa perm) f ↔ has (perm ||| PTE_V) f := by
  rw [entry, Nat.or_assoc, has_or]
  exact or_iff_right (not_has_PA2PTE pa hf)

theorem valid_entry (pa perm : Nat) : has (entry pa perm) PTE_V := by
  rw [has_entry (by decide), has_or]
  exact .inr (by decide)

theorem flags_lt (hperm : perm < 1024) : perm ||| PTE_V < 1024 :=
  Nat.or_lt_two_pow (n := 10) hperm (by decide)

theorem entry_eq (hperm : perm < 1024) : entry pa perm = PA2PTE pa + (perm ||| PTE_V) := by
  rw [entry, Nat.or_assoc, PA2PTE, Nat.mul_comm]
  exact (Nat.two_pow_add_eq_or_of_lt (flags_lt hperm) _).symm

theorem PTE_FLAGS_eq (e : Nat) : PTE_FLAGS e = e % 1024 :=
  Nat.and_two_pow_sub_one_eq_mod e 10

theorem flags_entry (hperm : perm < 1024) : PTE_FLAGS (entry pa perm) = perm ||| PTE_V := by
  have hlt := flags_lt hperm
  rw [PTE_FLAGS_eq, entry_eq hperm, PA2PTE]
  omega

theorem PTE2PA_entry (hpa : pa % PGSIZE = 0) (hlt : pa < 2 ^ 64) (hperm : perm < 1024) :
    PTE2PA (entry pa perm) = pa := by
  have hflags := flags_lt hperm
  rw [entry_eq hperm, PTE2PA, PA2PTE]
  simp only [PGSIZE] at hpa
  omega

theorem entry_lt (hlt : pa < 2 ^ 64) (hperm : perm < 1024) : entry pa perm < 2 ^ 64 := by
  have hflags := flags_lt hperm
  rw [entry_eq hperm, PA2PTE]
  omega

theorem PTE2PA_aligned (e : Nat) : PTE2PA e % PGSIZE = 0 := by
  simp only [PTE2PA, PGSIZE]
  omega

theorem entry_zero (pa : Nat) : PA2PTE pa ||| PTE_V = entry pa 0 := by
  rw [entry, Nat.or_zero]

end Entries

/-! ## Tables and entries by depth -/

/-- The entry `i` of the table `t`. -/
def pteAt (b : Nat → UInt8) (t i : Nat) : Nat :=
  le b (t + 8 * i) 8

def valid (e : Nat) : Option Nat :=
  if has e PTE_V then some e else none

/-- The table with number `y` at depth `d`. -/
def table (b : Nat → UInt8) (root : Nat) : Nat → Nat → Option Nat
  | 0, y => if y = 0 then some root else none
  | d + 1, y =>
    ((table b root d (y / 512)).bind fun t => valid (pteAt b t (y % 512))).map PTE2PA

/-- The valid entry with number `y` at depth `d`. -/
def ent (b : Nat → UInt8) (root d y : Nat) : Option Nat :=
  (table b root d (y / 512)).bind fun t => valid (pteAt b t (y % 512))

/-- The entry that maps page `v`. -/
abbrev leaf (b : Nat → UInt8) (root v : Nat) : Option Nat :=
  ent b root 2 v

/-- The pages of the tables. -/
def Tables (b : Nat → UInt8) (root p : Nat) : Prop :=
  ∃ d y, d ≤ 2 ∧ table b root d y = some p

variable {kend : KernelEnd} {m m' : Mem} {b b' : Nat → UInt8} {root d y t v w p e i j : Nat}

theorem table_succ : table b root (d + 1) y = (ent b root d y).map PTE2PA := rfl

theorem valid_eq_some {x : Nat} : valid e = some x ↔ has e PTE_V ∧ e = x := by
  unfold valid
  split <;> simp_all

theorem ent_eq_some : ent b root d y = some e ↔
    ∃ t, table b root d (y / 512) = some t ∧ has (pteAt b t (y % 512)) PTE_V ∧
      pteAt b t (y % 512) = e := by
  simp only [ent, Option.bind_eq_some_iff, valid_eq_some]

theorem table_succ_eq_some : table b root (d + 1) y = some p ↔
    ∃ e, ent b root d y = some e ∧ PTE2PA e = p := by
  rw [table_succ, Option.map_eq_some_iff]

theorem tables_root (b : Nat → UInt8) (root : Nat) : Tables b root root :=
  ⟨0, 0, Nat.zero_le _, rfl⟩

theorem ent_of_table (h : table b root d (y / 512) = some t) :
    ent b root d y = valid (pteAt b t (y % 512)) := by
  rw [ent, h, Option.bind_some]

/-! ## What the tree depends on -/

/-- The tables at depth `d` are decided by the entries in the tables above. -/
theorem table_congr {D : Nat}
    (h : ∀ d, d < D → ∀ y t, table b root d y = some t → Same b b' t) (hd : d ≤ D) (y : Nat) :
    table b' root d y = table b root d y := by
  induction d generalizing y with
  | zero => rfl
  | succ d ih =>
    have habove := ih (Nat.le_of_succ_le hd) (y / 512)
    simp only [table, habove]
    cases ht : table b root d (y / 512) with
    | none => simp only [Option.bind_none]
    | some t =>
      have hsame := (h d (Nat.lt_of_succ_le hd) _ t ht).le_eq (Nat.mod_lt y (by decide : 0 < 512))
      simp only [Option.bind_some, pteAt, hsame]

theorem ent_congr (htable : table b' root d (y / 512) = table b root d (y / 512))
    (h : ∀ t, table b root d (y / 512) = some t → Same b b' t) :
    ent b' root d y = ent b root d y := by
  rw [ent, ent, htable]
  cases ht : table b root d (y / 512) with
  | none => simp only [Option.bind_none]
  | some t =>
    have hsame := (h t ht).le_eq (Nat.mod_lt y (by decide : 0 < 512))
    simp only [Option.bind_some, pteAt, hsame]

/-- Two memories have the same tree. -/
structure SameTree (b b' : Nat → UInt8) (root : Nat) : Prop where
  table : ∀ d y, d ≤ 2 → table b' root d y = table b root d y
  ent : ∀ d y, d ≤ 2 → ent b' root d y = ent b root d y

theorem sameTree_of_same (h : ∀ p, Tables b root p → Same b b' p) : SameTree b b' root := by
  have htable : ∀ d y, d ≤ 2 → table b' root d y = table b root d y := fun d y hd =>
    table_congr (D := 2) (fun d hd y t ht => h t ⟨d, y, Nat.le_of_lt hd, ht⟩) hd y
  exact ⟨htable, fun d y hd => ent_congr (htable d _ hd) fun t ht => h t ⟨d, _, hd, ht⟩⟩

namespace SameTree

theorem leaf (h : SameTree b b' root) (v : Nat) : leaf b' root v = leaf b root v :=
  h.ent 2 v le_rfl

theorem tables (h : SameTree b b' root) (p : Nat) : Tables b' root p ↔ Tables b root p := by
  constructor
  · rintro ⟨d, y, hd, ht⟩
    exact ⟨d, y, hd, h.table d y hd ▸ ht⟩
  · rintro ⟨d, y, hd, ht⟩
    exact ⟨d, y, hd, (h.table d y hd).trans ht⟩

end SameTree

/-! ## Well-formed trees -/

/-- The tables are different pages that are not free, and the entries above the lowest tables have
no flag but `PTE_V`. -/
structure Wf (kend : KernelEnd) (m : Mem) (root : Nat) : Prop where
  pool : Pool kend m
  page : ∀ p, Tables m.byte root p → IsPage kend p ∧ p ∉ m.free
  inj : ∀ d y d' y' p, d ≤ 2 → d' ≤ 2 → table m.byte root d y = some p →
    table m.byte root d' y' = some p → d = d' ∧ y = y'
  inner : ∀ d y e, d < 2 → ent m.byte root d y = some e → PTE_FLAGS e = PTE_V

namespace Wf

theorem aligned (h : Wf kend m root) (hp : Tables m.byte root p) : p % PGSIZE = 0 :=
  (h.page p hp).1.aligned

theorem frame (h : Wf kend m root) (hpool : Pool kend m')
    (hsame : ∀ p, Tables m.byte root p → Same m.byte m'.byte p ∧ p ∉ m'.free) :
    Wf kend m' root ∧ SameTree m.byte m'.byte root := by
  have htree := sameTree_of_same fun p hp => (hsame p hp).1
  refine ⟨⟨hpool, fun p hp => ?_, fun d y d' y' p hd hd' ht ht' => ?_,
    fun d y e hd he => ?_⟩, htree⟩
  · have hold := (htree.tables p).1 hp
    exact ⟨(h.page p hold).1, (hsame p hold).2⟩
  · rw [htree.table d y hd] at ht
    rw [htree.table d' y' hd'] at ht'
    exact h.inj d y d' y' p hd hd' ht ht'
  · rw [htree.ent d y (Nat.le_of_lt hd)] at he
    exact h.inner d y e hd he

end Wf

/-! ## Writing an entry -/

/-- An entry is written. -/
def setPte (b : Nat → UInt8) (t i e : Nat) : Nat → UInt8 :=
  blit b (t + 8 * i) 8 (leByte e)

theorem wp_load_pte {E : Panic → Prop} {Q : Nat → Mem → Prop} :
    Prog.wp (load (t + 8 * i)) E Q m ↔ Q (pteAt m.byte t i) m := Iff.rfl

theorem wp_store_pte {E : Panic → Prop} {Q : Unit → Mem → Prop} :
    Prog.wp (store (t + 8 * i) e) E Q m ↔ Q () { m with byte := setPte m.byte t i e } := Iff.rfl

theorem pteAt_setPte (he : e < 2 ^ 64) : pteAt (setPte b t i e) t j =
    if j = i then e else pteAt b t j := by
  unfold pteAt setPte
  split
  · rename_i heq
    rw [heq]
    exact le_blit he
  · exact le_blit_of_disjoint (by omega)

theorem same_setPte (ht : t % PGSIZE = 0) (hp : p % PGSIZE = 0) (hne : p ≠ t) (hi : i < 512) :
    Same b (setPte b t i e) p :=
  Same.blit _ ht hp hne (by simp only [PGSIZE]; omega)

theorem eq_of_div_mod (hdiv : w / 512 = v / 512) (hmod : w % 512 = v % 512) : w = v := by
  omega

namespace Wf

/-- An entry at the lowest depth is written. -/
theorem setLeaf (h : Wf kend m root) (ht : table m.byte root 2 (v / 512) = some t)
    (he : e < 2 ^ 64) :
    Wf kend { m with byte := setPte m.byte t (v % 512) e } root ∧
    (∀ d y, d ≤ 2 → table (setPte m.byte t (v % 512) e) root d y = table m.byte root d y) ∧
    ∀ w, leaf (setPte m.byte t (v % 512) e) root w = if w = v then valid e
      else leaf m.byte root w := by
  have htt : Tables m.byte root t := ⟨2, _, le_rfl, ht⟩
  have hmod : v % 512 < 512 := Nat.mod_lt _ (by decide)
  -- A table with another number is another page.
  have hsame : ∀ d y p, d ≤ 2 → table m.byte root d y = some p → (d = 2 → y ≠ v / 512) →
      Same m.byte (setPte m.byte t (v % 512) e) p := by
    intro d y p hd hp hne
    refine same_setPte (h.aligned htt) (h.aligned ⟨d, y, hd, hp⟩) (fun heq => ?_) hmod
    rcases h.inj d y 2 _ t hd le_rfl (heq ▸ hp) ht with ⟨hd2, hy⟩
    exact hne hd2 hy
  have htable : ∀ d y, d ≤ 2 →
      table (setPte m.byte t (v % 512) e) root d y = table m.byte root d y := fun d y hd =>
    table_congr (D := 2)
      (fun d hd y p hp => hsame d y p (Nat.le_of_lt hd) hp fun heq => absurd heq (Nat.ne_of_lt hd))
      hd y
  have hent : ∀ d y, d < 2 →
      ent (setPte m.byte t (v % 512) e) root d y = ent m.byte root d y := fun d y hd =>
    ent_congr (htable d _ (Nat.le_of_lt hd)) fun p hp =>
      hsame d _ p (Nat.le_of_lt hd) hp fun heq => absurd heq (Nat.ne_of_lt hd)
  have htables : ∀ p, Tables (setPte m.byte t (v % 512) e) root p ↔ Tables m.byte root p := by
    intro p
    constructor
    · rintro ⟨d, y, hd, hp⟩
      exact ⟨d, y, hd, htable d y hd ▸ hp⟩
    · rintro ⟨d, y, hd, hp⟩
      exact ⟨d, y, hd, (htable d y hd).trans hp⟩
  refine ⟨⟨h.pool.congr rfl, fun p hp => h.page p ((htables p).1 hp),
    fun d y d' y' p hd hd' hp hp' => ?_, fun d y x hd hx => ?_⟩, htable, fun w => ?_⟩
  · exact h.inj d y d' y' p hd hd' (htable d y hd ▸ hp) (htable d' y' hd' ▸ hp')
  · exact h.inner d y x hd (hent d y hd ▸ hx)
  · by_cases hdiv : w / 512 = v / 512
    · rw [leaf, ent_of_table ((htable 2 _ le_rfl).trans (hdiv ▸ ht)), pteAt_setPte he]
      by_cases hwv : w % 512 = v % 512
      · rw [if_pos hwv, if_pos (eq_of_div_mod hdiv hwv)]
      · rw [if_neg hwv, if_neg fun heq : w = v => hwv (heq ▸ rfl)]
        exact (ent_of_table (hdiv ▸ ht)).symm
    · rw [if_neg fun heq : w = v => hdiv (heq ▸ rfl)]
      exact ent_congr (htable 2 _ le_rfl) fun p hp =>
        hsame 2 _ p le_rfl hp fun _ => hdiv

end Wf

/-! ## A new table -/

/-- Memory after a page has been cleared and an entry that leads to it has been written. -/
def addTable (b : Nat → UInt8) (t i p : Nat) : Nat → UInt8 :=
  setPte (blit (blit b p PGSIZE fun _ => 5) p PGSIZE fun _ => 0) t i (entry p 0)

section AddTable

variable {l : List Nat}

theorem same_addTable {q : Nat} (ht : t % PGSIZE = 0) (hp : p % PGSIZE = 0) (hq : q % PGSIZE = 0)
    (hi : i < 512) (hqt : q ≠ t) (hqp : q ≠ p) : Same b (addTable b t i p) q :=
  ((Same.blit_page hp hq hqp le_rfl).trans
    (Same.blit_page hp hq hqp le_rfl)).trans (same_setPte ht hq hqt hi)

theorem pteAt_addTable (ht : t % PGSIZE = 0) (hp : p % PGSIZE = 0) (hlt : p < 2 ^ 64) (hne : t ≠ p)
    (hj : j < 512) : pteAt (addTable b t i p) t j = if j = i then entry p 0 else pteAt b t j := by
  rw [addTable, pteAt_setPte (entry_lt hlt (by decide))]
  split
  · rfl
  · exact ((Same.blit_page hp ht hne le_rfl).trans
      (Same.blit_page hp ht hne le_rfl)).le_eq hj

theorem pteAt_addTable_new (ht : t % PGSIZE = 0) (hp : p % PGSIZE = 0) (hne : p ≠ t) (hi : i < 512)
    (hj : j < 512) : pteAt (addTable b t i p) p j = 0 := by
  unfold pteAt
  rw [addTable, (same_setPte ht hp hne hi).le_eq hj]
  refine le_eq_zero fun k hk => ?_
  rw [Nat.add_assoc]
  exact blit_add (by simp only [PGSIZE]; omega)

theorem valid_zero : valid 0 = none := by decide

namespace Wf

/-- A free page becomes the table of an entry that was not valid. -/
theorem addTable (h : Wf kend m root) (hd : d < 2) (ht : table m.byte root d (y / 512) = some t)
    (hnone : ent m.byte root d y = none) (hfree : m.free = p :: l) :
    Wf kend { byte := addTable m.byte t (y % 512) p, free := l } root ∧
    (∀ d' y', d' ≤ 2 → table (addTable m.byte t (y % 512) p) root d' y' =
      if d' = d + 1 ∧ y' = y then some p else table m.byte root d' y') ∧
    ∀ v, leaf (addTable m.byte t (y % 512) p) root v = leaf m.byte root v := by
  have htt : Tables m.byte root t := ⟨d, _, Nat.le_of_lt hd, ht⟩
  rcases h.pool.pop hfree with ⟨hp, hnot, hpool⟩
  have hmod : y % 512 < 512 := Nat.mod_lt _ (by decide)
  have hnew : ¬ Tables m.byte root p := fun hmem =>
    (h.page p hmem).2 (hfree ▸ List.mem_cons_self)
  have htp : t ≠ p := fun heq => hnew (heq ▸ htt)
  have hplt : p < 2 ^ 64 := by
    have hhigh := hp.high
    simp only [PHYSTOP, KERNBASE] at hhigh
    omega
  generalize hb : Vm.addTable m.byte t (y % 512) p = b
  -- Entries of old tables: only the one that has been written is different.
  have hold : ∀ d' y' q, d' ≤ 2 → table m.byte root d' (y' / 512) = some q →
      valid (pteAt b q (y' % 512)) =
        if d' = d ∧ y' = y then some (entry p 0) else ent m.byte root d' y' := by
    intro d' y' q hd' hq
    have hmod' : y' % 512 < 512 := Nat.mod_lt _ (by decide)
    have hqp : q ≠ p := fun heq => hnew (heq ▸ ⟨d', _, hd', hq⟩)
    by_cases hqt : q = t
    · subst hqt
      rcases h.inj d' _ d _ q hd' (Nat.le_of_lt hd) hq ht with ⟨rfl, hdiv⟩
      rw [← hb, pteAt_addTable (h.aligned htt) hp.aligned hplt htp hmod']
      by_cases hy : y' % 512 = y % 512
      · have heq := eq_of_div_mod hdiv hy
        rw [if_pos hy, if_pos ⟨rfl, heq⟩]
        exact if_pos (valid_entry p 0)
      · rw [if_neg hy, if_neg fun hcond : d' = d' ∧ y' = y => hy (hcond.2 ▸ rfl), ent_of_table hq]
    · have hcond : ¬ (d' = d ∧ y' = y) := by
        rintro ⟨rfl, rfl⟩
        rw [ht] at hq
        exact hqt (Option.some.inj hq).symm
      have hsame := (same_addTable (b := m.byte) (h.aligned htt) hp.aligned
        (h.aligned ⟨d', _, hd', hq⟩) hmod hqt hqp).le_eq hmod'
      rw [if_neg hcond, ent_of_table hq, ← hb]
      exact congrArg valid hsame
  have hempty : ∀ j, j < 512 → valid (pteAt b p j) = none := by
    intro j hj
    rw [← hb, pteAt_addTable_new (h.aligned htt) hp.aligned (Ne.symm htp) hmod hj]
    exact valid_zero
  have hbelow : table m.byte root (d + 1) y = none := by
    rw [table_succ, hnone]
    rfl
  -- The tables and entries of one depth after another.
  have hent : ∀ d' y', d' ≤ 2 → (∀ z, table b root d' z =
      if d' = d + 1 ∧ z = y then some p else table m.byte root d' z) →
      ent b root d' y' = if d' = d ∧ y' = y then some (entry p 0) else ent m.byte root d' y' := by
    intro d' y' hd' htab
    have hmod' : y' % 512 < 512 := Nat.mod_lt _ (by decide)
    by_cases hcond : d' = d + 1 ∧ y' / 512 = y
    · have hnone' : ent m.byte root d' y' = none := by
        rw [ent, hcond.1, hcond.2, hbelow]
        rfl
      rw [ent_of_table ((htab _).trans (if_pos hcond)), hempty _ hmod', hnone',
        if_neg fun hc => absurd (hc.1.symm.trans hcond.1) (Nat.ne_of_lt (Nat.lt_succ_self d))]
    · cases hq : table m.byte root d' (y' / 512) with
      | none =>
        have hne : ¬ (d' = d ∧ y' = y) := by
          rintro ⟨rfl, rfl⟩
          rw [ht] at hq
          cases hq
        rw [if_neg hne, ent, ent, htab, if_neg hcond, hq]
        simp only [Option.bind_none]
      | some q =>
        rw [ent_of_table ((htab _).trans ((if_neg hcond).trans hq))]
        exact hold d' y' q hd' hq
  have htable : ∀ d' y', d' ≤ 2 → table b root d' y' =
      if d' = d + 1 ∧ y' = y then some p else table m.byte root d' y' := by
    intro d'
    induction d' with
    | zero =>
      intro y' _
      rw [if_neg fun hc => absurd hc.1 (Nat.succ_ne_zero d).symm]
      rfl
    | succ d' ih =>
      intro y' hd'
      have hle : d' ≤ 2 := Nat.le_of_succ_le hd'
      rw [table_succ, hent d' y' hle fun z => ih z hle]
      by_cases hcond : d' = d ∧ y' = y
      · rw [if_pos hcond, if_pos ⟨congrArg Nat.succ hcond.1, hcond.2⟩, Option.map_some,
          PTE2PA_entry hp.aligned hplt (by decide)]
      · rw [if_neg hcond, if_neg fun hc => hcond ⟨Nat.succ.inj hc.1, hc.2⟩, table_succ]
  refine ⟨⟨⟨hpool.nodup, hpool.page⟩, ?_, ?_, ?_⟩, htable, fun v => ?_⟩
  · rintro q ⟨d', y', hd', hq⟩
    rw [htable d' y' hd'] at hq
    split at hq
    · cases hq
      exact ⟨hp, hnot⟩
    · have hmem := h.page q ⟨d', y', hd', hq⟩
      exact ⟨hmem.1, fun hl => hmem.2 (hfree ▸ List.mem_cons_of_mem _ hl)⟩
  · intro d₁ y₁ d₂ y₂ q hd₁ hd₂ hq₁ hq₂
    rw [htable d₁ y₁ hd₁] at hq₁
    rw [htable d₂ y₂ hd₂] at hq₂
    split at hq₁ <;> split at hq₂
    · rename_i hc₁ hc₂
      exact ⟨hc₁.1.trans hc₂.1.symm, hc₁.2.trans hc₂.2.symm⟩
    · cases hq₁
      exact absurd ⟨d₂, y₂, hd₂, hq₂⟩ hnew
    · cases hq₂
      exact absurd ⟨d₁, y₁, hd₁, hq₁⟩ hnew
    · exact h.inj d₁ y₁ d₂ y₂ q hd₁ hd₂ hq₁ hq₂
  · intro d' y' x hd' hx
    rw [hent d' y' (Nat.le_of_lt hd') fun z => htable d' z (Nat.le_of_lt hd')] at hx
    split at hx
    · cases hx
      rw [flags_entry (by decide), Nat.zero_or]
    · exact h.inner d' y' x hd' hx
  · rw [leaf, hent 2 v le_rfl fun z => htable 2 z le_rfl,
      if_neg fun hc => absurd hc.1.symm (Nat.ne_of_lt hd)]

end Wf
end AddTable

end Xv6.Vm
