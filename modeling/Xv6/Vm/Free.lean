import Xv6.Vm.Walk

/-!
# Free — `freewalk` gives back the tables of a tree

`freewalk` frees the tables below a table one after another, and then the table itself.  Its memory
changes all the time, but the tables that it has still to visit are as they were at the beginning.
-/

namespace Xv6.Vm

open Lib Kalloc

variable {kend : KernelEnd} {m m₀ m' : Mem} {b : Nat → UInt8} {root d y t p q i n v : Nat}

/-! ## The tables below a table -/

/-- The tables below the table with number `y` at depth `d`, and this table: `n` levels in all. -/
def Under (b : Nat → UInt8) (root : Nat) : Nat → Nat → Nat → Nat → Prop
  | 0, _, _, _ => False
  | n + 1, d, y, p => table b root d y = some p ∨ ∃ j, j < 512 ∧
    Under b root n (d + 1) (512 * y + j) p

theorem Under.exists_table (h : Under b root n d y p) :
    ∃ k y', k < n ∧ y' / 512 ^ k = y ∧ table b root (d + k) y' = some p := by
  induction n generalizing d y with
  | zero => exact h.elim
  | succ n ih =>
    rcases h with h | ⟨j, hj, h⟩
    · exact ⟨0, y, Nat.succ_pos _, by rw [Nat.pow_zero, Nat.div_one], h⟩
    · rcases ih h with ⟨k, y', hk, hy, ht⟩
      refine ⟨k + 1, y', Nat.succ_lt_succ hk, ?_, ?_⟩
      · rw [Nat.pow_succ, ← Nat.div_div_eq_div_mul, hy]
        omega
      · rw [show d + (k + 1) = d + 1 + k by omega]
        exact ht

theorem exists_table_above {k : Nat} (h : table b root (d + k) y = some p) :
    ∃ q, table b root d (y / 512 ^ k) = some q := by
  induction k generalizing y p with
  | zero => exact ⟨p, by rw [Nat.pow_zero, Nat.div_one]; exact h⟩
  | succ k ih =>
    rcases table_succ_eq_some.1 h with ⟨e, he, -⟩
    rcases ent_eq_some.1 he with ⟨t, ht, -⟩
    rcases ih ht with ⟨q, hq⟩
    refine ⟨q, ?_⟩
    rwa [Nat.pow_succ, Nat.mul_comm, ← Nat.div_div_eq_div_mul]

theorem Under.ne_none (h : Under b root n d y p) : table b root d y ≠ none := by
  rcases h.exists_table with ⟨k, y', -, rfl, ht⟩
  rcases exists_table_above ht with ⟨q, hq⟩
  rw [hq]
  nofun

theorem under_of_table {k : Nat} (h : table b root (d + k) y = some p) (hk : k < n) :
    Under b root n d (y / 512 ^ k) p := by
  induction n generalizing d k with
  | zero => exact absurd hk (Nat.not_lt_zero _)
  | succ n ih =>
    cases k with
    | zero =>
      rw [Nat.pow_zero, Nat.div_one]
      exact .inl h
    | succ k =>
      refine .inr ⟨y / 512 ^ k % 512, Nat.mod_lt _ (by decide), ?_⟩
      have hnum : 512 * (y / 512 ^ (k + 1)) + y / 512 ^ k % 512 = y / 512 ^ k := by
        rw [Nat.pow_succ, ← Nat.div_div_eq_div_mul]
        omega
      rw [hnum]
      refine ih ?_ (Nat.lt_of_succ_lt_succ hk)
      rw [show d + 1 + k = d + (k + 1) by omega]
      exact h

theorem under_root_iff : Under b root 3 0 0 p ↔ Tables b root p := by
  constructor
  · intro h
    rcases h.exists_table with ⟨k, y', hk, -, ht⟩
    rw [Nat.zero_add] at ht
    exact ⟨k, y', Nat.le_of_lt_succ hk, ht⟩
  · rintro ⟨d, y, hd, ht⟩
    have hzero : y / 512 ^ d = 0 := by
      rw [← Nat.zero_add d] at ht
      rcases exists_table_above ht with ⟨q, hq⟩
      by_contra hne
      rw [table, if_neg hne] at hq
      cases hq
    have hunder := under_of_table (d := 0) (by rwa [Nat.zero_add]) (Nat.lt_succ_of_le hd)
    rwa [hzero] at hunder

namespace Wf

theorem under_unique (h : Wf kend m root) {y' n' : Nat} (hd : d + n ≤ 3) (hd' : d + n' ≤ 3)
    (hp : Under m.byte root n d y p) (hp' : Under m.byte root n' d y' p) : y = y' := by
  rcases hp.exists_table with ⟨k, z, hk, rfl, ht⟩
  rcases hp'.exists_table with ⟨k', z', hk', rfl, ht'⟩
  rcases h.inj _ _ _ _ p (by omega) (by omega) ht ht' with ⟨hdepth, rfl⟩
  rw [Nat.add_left_cancel hdepth]

/-- A table is not below another one of its depth, nor below itself. -/
theorem not_under (h : Wf kend m root) (hd : d + n ≤ 2) (ht : table m.byte root d y = some t)
    (z : Nat) :
    ¬ Under m.byte root n (d + 1) z t := by
  intro hp
  rcases hp.exists_table with ⟨k, z', hk, -, ht'⟩
  have hdepth := (h.inj _ _ _ _ t (by omega) (by omega) ht ht').1
  omega

theorem under_aligned (h : Wf kend m root) (hd : d + n ≤ 3) (hp : Under m.byte root n d y p) :
    IsPage kend p := by
  rcases hp.exists_table with ⟨k, z, hk, -, ht⟩
  exact (h.page p ⟨d + k, z, by omega, ht⟩).1

end Wf

/-! ## `freewalk` -/

/-- From `m` to `m'` the pages with `S` have been freed. -/
structure Freed (kend : KernelEnd) (m m' : Mem) (S : Nat → Prop) (extra : Nat → Prop) : Prop where
  pool : Pool kend m'
  free : ∃ l, m'.free = l ++ m.free ∧ ∀ p, p ∈ l ↔ S p
  bytes : ∀ p, p % PGSIZE = 0 → ¬ S p → ¬ extra p → Same m.byte m'.byte p

namespace Freed

variable {S T X : Nat → Prop} {m'' : Mem}

theorem trans (h : Freed kend m m' S X) (h' : Freed kend m' m'' T X) :
    Freed kend m m'' (fun p => S p ∨ T p) X := by
  rcases h.free with ⟨l, hfree, hl⟩
  rcases h'.free with ⟨l', hfree', hl'⟩
  refine ⟨h'.pool, ⟨l' ++ l, by rw [hfree', hfree, List.append_assoc], fun p => ?_⟩,
    fun p hp hnot hx => ?_⟩
  · rw [List.mem_append, hl, hl']
    exact Or.comm
  · exact (h.bytes p hp (hnot ∘ .inl) hx).trans (h'.bytes p hp (hnot ∘ .inr) hx)

theorem congr (h : Freed kend m m' S X) (heq : ∀ p, S p ↔ T p) : Freed kend m m' T X := by
  rcases h.free with ⟨l, hfree, hl⟩
  exact ⟨h.pool, ⟨l, hfree, fun p => (hl p).trans (heq p)⟩,
    fun p hp hnot hx => h.bytes p hp (fun hs => hnot ((heq p).1 hs)) hx⟩

theorem mem_free (h : Freed kend m m' S X) : p ∈ m'.free ↔ S p ∨ p ∈ m.free := by
  rcases h.free with ⟨l, hfree, hl⟩
  rw [hfree, List.mem_append, hl]

end Freed

/-- The tables below, with `n` levels, are as in `m₀`, and not free. -/
def Intact (m₀ m : Mem) (root n d y : Nat) : Prop :=
  ∀ p, Under m₀.byte root n d y p → Same m₀.byte m.byte p ∧ p ∉ m.free

section Entries

variable (h₀ : Wf kend m₀ root) (hleaf : ∀ v, leaf m₀.byte root v = none)
include h₀ hleaf

theorem freeEntries_spec {left : Nat} (hd : d + (n + 1) = 3) (ht : table m₀.byte root d y = some t)
    (hchild : ∀ m z u, Pool kend m → table m₀.byte root (d + 1) z = some u →
      Intact m₀ m root n (d + 1) z → Prog.wp (freewalk kend n u) Never (fun _ m' =>
        Freed kend m m' (Under m₀.byte root n (d + 1) z) fun _ => False) m)
    (hi : i + left = 512) (hpool : Pool kend m)
    (hpte : ∀ j, i ≤ j → j < 512 → pteAt m.byte t j = pteAt m₀.byte t j)
    (hrest : ∀ j, i ≤ j → j < 512 → Intact m₀ m root n (d + 1) (512 * y + j)) :
    Prog.wp (freeEntries (freewalk kend n) t left) Never (fun _ m' =>
      Freed kend m m' (fun p => ∃ j, i ≤ j ∧ j < 512 ∧ Under m₀.byte root n (d + 1) (512 * y + j) p)
        (· = t)) m := by
  induction left generalizing i m with
  | zero =>
    refine ⟨hpool, ⟨[], rfl, fun p => ?_⟩, fun p _ _ _ => Same.refl _ p⟩
    simp only [List.not_mem_nil, false_iff]
    rintro ⟨j, hlo, hhi, -⟩
    omega
  | succ left ih =>
    have hidx : 511 - left = i := by omega
    have hi512 : i < 512 := by omega
    have hdiv : (512 * y + i) / 512 = y := by omega
    have hmod : (512 * y + i) % 512 = i := by omega
    have htt : IsPage kend t := (h₀.page t ⟨d, y, by omega, ht⟩).1
    -- The entry is that of `m₀`.
    have hent : ent m₀.byte root d (512 * y + i) = valid (pteAt m₀.byte t i) := by
      rw [ent_of_table (t := t) (by rw [hdiv]; exact ht), hmod]
    rw [freeEntries]
    simp only [hidx]
    rw [Prog.wp_bind, wp_load_pte, hpte i le_rfl hi512]
    -- Without a table there is nothing below this entry.
    have hsplit : ∀ p, (Under m₀.byte root n (d + 1) (512 * y + i) p ∨
        ∃ j, i + 1 ≤ j ∧ j < 512 ∧ Under m₀.byte root n (d + 1) (512 * y + j) p) ↔
        ∃ j, i ≤ j ∧ j < 512 ∧ Under m₀.byte root n (d + 1) (512 * y + j) p := by
      intro p
      constructor
      · rintro (hp | ⟨j, hlo, hhi, hp⟩)
        · exact ⟨i, le_rfl, hi512, hp⟩
        · exact ⟨j, Nat.le_of_lt hlo, hhi, hp⟩
      · rintro ⟨j, hlo, hhi, hp⟩
        rcases Nat.eq_or_lt_of_le hlo with rfl | hlt
        · exact .inl hp
        · exact .inr ⟨j, hlt, hhi, hp⟩
    by_cases hv : has (pteAt m₀.byte t i) PTE_V
    · rw [valid, if_pos hv] at hent
      have hdlt : d < 2 := by
        by_contra hge
        have hd2 : d = 2 := by omega
        rw [hd2] at hent
        have hnone := hleaf (512 * y + i)
        rw [leaf, hent] at hnone
        cases hnone
      have hflags := h₀.inner d _ _ hdlt hent
      have hbranch : ¬ has (pteAt m₀.byte t i) (PTE_R ||| PTE_W ||| PTE_X) := by
        intro hrwx
        have hand : pteAt m₀.byte t i &&& (PTE_R ||| PTE_W ||| PTE_X) =
            PTE_FLAGS (pteAt m₀.byte t i) &&& (PTE_R ||| PTE_W ||| PTE_X) := by
          rw [PTE_FLAGS, Nat.and_assoc]
          rfl
        rw [has, hand, hflags] at hrwx
        exact hrwx (by decide)
      rw [if_pos ⟨hv, hbranch⟩, Prog.wp_bind]
      have hsub : table m₀.byte root (d + 1) (512 * y + i) = some (PTE2PA (pteAt m₀.byte t i)) := by
        rw [table_succ, hent]
        rfl
      refine Prog.wp_post (hchild m _ _ hpool hsub (hrest i le_rfl hi512))
        fun _ m₁ hfreed => ?_
      have hnott := h₀.not_under (n := n) (by omega) ht
      rw [Prog.wp_bind, wp_store_pte]
      -- The rest of the loop, after the entry has been cleared.
      have hsame : ∀ p, p % PGSIZE = 0 → ¬ Under m₀.byte root n (d + 1) (512 * y + i) p → p ≠ t →
          Same m.byte (setPte m₁.byte t i 0) p := fun p hp hnot hne =>
        (hfreed.bytes p hp hnot not_false).trans (same_setPte htt.aligned hp hne hi512)
      refine Prog.wp_post (ih (i := i + 1) (m := { m₁ with byte := setPte m₁.byte t i 0 })
        (by omega)
        (hfreed.pool.congr rfl) (fun j hlo hhi => ?_) (fun j hlo hhi p hp => ?_)) fun _ m' hr => ?_
      · rw [pteAt_setPte (by decide), if_neg (by omega)]
        exact ((hfreed.bytes t htt.aligned (hnott _) not_false).le_eq hhi).trans
          (hpte j (Nat.le_of_lt hlo) hhi)
      · have hold := hrest j (Nat.le_of_lt hlo) hhi p hp
        have hother : ¬ Under m₀.byte root n (d + 1) (512 * y + i) p := fun hp' => by
          have heq := h₀.under_unique (by omega) (by omega) hp hp'
          omega
        refine ⟨hold.1.trans (hsame p (h₀.under_aligned (by omega) hp).aligned hother fun heq =>
          hnott _ (heq ▸ hp)), fun hmem => ?_⟩
        rcases hfreed.mem_free.1 hmem with hp' | hmem
        · exact hother hp'
        · exact hold.2 hmem
      · have hstep : Freed kend m { m₁ with byte := setPte m₁.byte t i 0 }
            (Under m₀.byte root n (d + 1) (512 * y + i)) (· = t) :=
          ⟨hfreed.pool.congr rfl, hfreed.free, hsame⟩
        exact (hstep.trans hr).congr hsplit
    · rw [if_neg fun hc => hv hc.1, if_neg hv]
      rw [valid, if_neg hv] at hent
      refine Prog.wp_post (ih (i := i + 1) (by omega) hpool
        (fun j hlo hhi => hpte j (Nat.le_of_lt hlo)
        hhi) fun j hlo hhi => hrest j (Nat.le_of_lt hlo) hhi) fun _ m' hr => ?_
      refine hr.congr fun p => (or_iff_right fun hp => ?_).symm.trans (hsplit p)
      refine hp.ne_none ?_
      rw [table_succ, hent]
      rfl

theorem freewalk_spec (hd : d + n = 3) (hn : 0 < n) (ht : table m₀.byte root d y = some t)
    (hpool : Pool kend m) (hin : Intact m₀ m root n d y) :
    Prog.wp (freewalk kend n t) Never (fun _ m' =>
      Freed kend m m' (Under m₀.byte root n d y) fun _ => False) m := by
  induction n generalizing d y t m with
  | zero => exact absurd hn (Nat.lt_irrefl _)
  | succ n ih =>
    have hself : Under m₀.byte root (n + 1) d y t := .inl ht
    have hpage := h₀.under_aligned (by omega) hself
    have hsame := hin t hself
    rw [freewalk]
    refine Prog.wp_seq (freeEntries_spec h₀ hleaf (i := 0) hd ht (fun m z u hm hu hz => ?_) (by rfl)
      hpool (fun j _ hj => hsame.1.le_eq hj) (fun j _ hj p hp => hin p (.inr ⟨j, hj, hp⟩)))
      fun _ m₁ hr => ?_
    · have hpos : 0 < n := by
        by_contra hzero
        have hn0 : n = 0 := by omega
        subst hn0
        -- At the lowest depth an entry that leads to a table would be a leaf.
        have hd2 : d = 2 := by omega
        subst hd2
        rcases table_succ_eq_some.1 hu with ⟨e, he, -⟩
        have hnone := hleaf z
        rw [leaf, he] at hnone
        cases hnone
      exact ih (by omega) hpos hu hm hz
    · -- The table itself is freed last.
      have hnott := h₀.not_under (n := n) (by omega) ht
      have hfree : t ∉ m₁.free := fun hmem => by
        rcases hr.mem_free.1 hmem with ⟨j, -, -, hp⟩ | hmem
        · exact hnott _ hp
        · exact hsame.2 hmem
      rw [Prog.wp_of_eq (kfree_page hpage)]
      rcases hr.free with ⟨l, hl, hmem⟩
      refine ⟨hr.pool.push hpage hfree, ⟨t :: l, by rw [hl, List.cons_append], fun p => ?_⟩,
        fun p hp hnot _ => ?_⟩
      · rw [List.mem_cons, hmem]
        constructor
        · rintro (rfl | ⟨j, -, hj, hp⟩)
          · exact hself
          · exact .inr ⟨j, hj, hp⟩
        · rintro (hp | ⟨j, hj, hp⟩)
          · rw [ht] at hp
            exact .inl (Option.some.inj hp).symm
          · exact .inr ⟨j, Nat.zero_le _, hj, hp⟩
      · have hne : p ≠ t := fun heq => hnot (heq ▸ hself)
        refine (hr.bytes p hp ?_ hne).trans (same_freed hpage.aligned hp hne)
        rintro ⟨j, -, hj, hp'⟩
        exact hnot (.inr ⟨j, hj, hp'⟩)

end Entries

/-- A tree without leaves is given back, table by table. -/
theorem freewalk_root (h : Wf kend m root) (hleaf : ∀ v, leaf m.byte root v = none) :
    Prog.wp (freewalk kend 3 root) Never (fun _ m' =>
      Freed kend m m' (Tables m.byte root) fun _ => False) m := by
  refine Prog.wp_post (freewalk_spec h hleaf (d := 0) (y := 0) rfl (by decide) rfl h.pool
    fun p hp => ⟨Same.refl _ p, (h.page p (under_root_iff.1 hp)).2⟩) fun _ m' hr => ?_
  exact hr.congr fun p => under_root_iff

end Xv6.Vm
