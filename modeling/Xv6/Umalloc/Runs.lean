import Xv6.Umalloc.Alloc
import Mathlib.Data.List.Pairwise

/-!
# Runs — the user heap over whole runs

Between two calls the free blocks and the allocated blocks are apart from each other and make up
all of the memory that `sbrk` has returned.
-/

namespace Xv6.Umalloc

open Lib
open Function (update update_of_ne update_self)

variable {L : Layout} {o : Oracle} {s t : St} {i j x y : Interval} {l m : List Interval}
variable {n nbytes ap fuel : Nat}

/-- An allocated block with its header. -/
def Live.block (x : Live) : Interval :=
  ⟨x.addr, x.addr + UNIT * nunits x.nbytes⟩

structure Inv (L : Layout) (s : St) (l : List Interval) : Prop where
  list : s.freep ≠ 0 → FreeList L s.mem l ∧ s.freep ∈ L.base :: l.map Interval.lo
  fresh : s.freep = 0 → l = [] ∧ s.live = []
  size : ∀ x ∈ s.live, (s.mem x.addr).size = nunits x.nbytes
  live_apart : s.live.Pairwise fun x y => x.block.Apart y.block
  free_apart : ∀ i ∈ l, ∀ x ∈ s.live, i.Apart x.block
  cover : ∀ a, Interval.Covers (l ++ s.live.map Live.block) a ↔ Interval.Covers s.obtained a
  obtained : ∀ r ∈ s.obtained, L.heap ≤ r.lo ∧ r.hi ≤ s.brk ∧ r.hi ≤ LIMIT
  brk : L.heap ≤ s.brk

theorem Layout.base_lt_heap (L : Layout) : L.base < L.heap := by
  have hlt := L.base_lt
  simp only [UNIT] at hlt
  omega

theorem Live.block_lt (x : Live) : x.block.lo < x.block.hi := by
  simp only [Live.block, nunits, UNIT]
  omega

namespace Inv

theorem range (h : Inv L s l) (hi : i ∈ l ++ s.live.map Live.block) (hlt : i.lo < i.hi) :
    L.heap ≤ i.lo ∧ i.hi ≤ s.brk ∧ i.hi ≤ LIMIT := by
  rcases (h.cover i.lo).1 ⟨i, hi, Nat.le_refl _, hlt⟩ with ⟨r, hr, hlo, -⟩
  rcases (h.cover (i.hi - 1)).1 ⟨i, hi, by omega, by omega⟩ with ⟨r', hr', -, hhi⟩
  have h₁ := h.obtained r hr
  have h₂ := h.obtained r' hr'
  omega

theorem free_lt (h : Inv L s l) (hi : i ∈ l) : i.lo < i.hi := by
  by_cases hf : s.freep = 0
  · rw [(h.fresh hf).1] at hi
    cases hi
  · exact ((h.list hf).1.block i hi).lt

theorem free_range (h : Inv L s l) (hi : i ∈ l) : L.heap ≤ i.lo ∧ i.hi ≤ s.brk :=
  have hr := h.range (List.mem_append_left _ hi) (h.free_lt hi)
  ⟨hr.1, hr.2.1⟩

theorem live_range (h : Inv L s l) {x : Live} (hx : x ∈ s.live) :
    L.heap ≤ x.addr ∧ x.block.hi ≤ s.brk ∧ x.block.hi ≤ LIMIT :=
  h.range (List.mem_append_right _ (List.mem_map_of_mem hx)) x.block_lt

end Inv

/-! ## Moving blocks -/

/-- The allocated blocks are not where the list has its headers. -/
theorem live_not_header {live : List Live} {z : Live} (hz : z ∈ live)
    (hapart : ∀ i ∈ l, ∀ z ∈ live, i.Apart z.block) (hlt : ∀ i ∈ l, i.lo < i.hi)
    (hlow : L.base < z.addr) : z.addr ∉ L.base :: l.map Interval.lo := by
  intro hmem
  rcases List.mem_cons.1 hmem with heq | hmem
  · omega
  · rcases List.mem_map.1 hmem with ⟨i, hi, heq⟩
    have hzlt := z.block_lt
    exact (hapart i hi z hz).not_has ⟨Nat.le_refl _, hlt i hi⟩ (heq ▸ ⟨Nat.le_refl _, hzlt⟩)

/-- A list that has become part of another one is apart from what that one is apart from. -/
theorem apart_of_covers {live : List Live} (hm : ∀ i ∈ m, i.lo < i.hi)
    (hsub : ∀ a, Interval.Covers m a → Interval.Covers l a)
    (hapart : ∀ i ∈ l, ∀ z ∈ live, i.Apart z.block) :
    ∀ i ∈ m, ∀ z ∈ live, i.Apart z.block := by
  intro i hi z hz
  refine Interval.apart_of_not_has (hm i hi) z.block_lt fun a ha hza => ?_
  rcases hsub a ⟨i, hi, ha⟩ with ⟨j, hj, hja⟩
  exact (hapart j hj z hz).not_has hja hza

/-- The heap after the block `x` has been put into the list. -/
theorem inv_of_released {live : List Live} (hlist : FreeList L t.mem m)
    (hfreep : t.freep ∈ L.base :: m.map Interval.lo)
    (hcover : ∀ a, Interval.Covers m a ↔ Interval.Covers l a ∨ x.Has a)
    (hframe : Frame L s t l x.lo) (hlt : ∀ i ∈ x :: l, i.lo < i.hi)
    (hsize : ∀ z ∈ live, (s.mem z.addr).size = nunits z.nbytes)
    (hlive : live.Pairwise fun z w => z.block.Apart w.block)
    (hapart : ∀ i ∈ x :: l, ∀ z ∈ live, i.Apart z.block)
    (hcov : ∀ a, Interval.Covers (x :: l ++ live.map Live.block) a ↔ Interval.Covers s.obtained a)
    (hobt : ∀ r ∈ s.obtained, L.heap ≤ r.lo ∧ r.hi ≤ s.brk ∧ r.hi ≤ LIMIT)
    (hbrk : L.heap ≤ s.brk) : Inv L { t with live := live } m := by
  have hbase := L.base_lt_heap
  have hlow : ∀ z ∈ live, L.base < z.addr := by
    intro z hz
    rcases (hcov z.addr).1 ⟨z.block, List.mem_append_right _ (List.mem_map_of_mem hz),
      Nat.le_refl _, z.block_lt⟩ with ⟨r, hr, hrlo, -⟩
    have hge := (hobt r hr).1
    omega
  have hne : t.freep ≠ 0 := hlist.ne_zero hfreep
  have hsub : ∀ a, Interval.Covers m a → Interval.Covers (x :: l) a := by
    intro a ha
    rw [Interval.covers_cons]
    exact ((hcover a).1 ha).symm
  refine ⟨fun _ => ⟨hlist, hfreep⟩, fun hzero => absurd hzero hne, fun z hz => ?_, hlive,
    apart_of_covers (fun i hi => (hlist.block i hi).lt) hsub hapart, fun a => ?_, ?_, ?_⟩
  · have hnot := live_not_header hz hapart hlt (hlow z hz)
    rw [List.map_cons] at hnot
    refine (congrArg Header.size (hframe.mem z.addr ?_ ?_)).trans (hsize z hz)
    · intro hmem
      rcases List.mem_cons.1 hmem with heq | hmem
      · exact hnot (heq ▸ List.mem_cons_self)
      · exact hnot (List.mem_cons_of_mem _ (List.mem_cons_of_mem _ hmem))
    · intro heq
      exact hnot (List.mem_cons_of_mem _ (heq ▸ List.mem_cons_self))
  · rw [show ({ t with live := live } : St).obtained = s.obtained from hframe.obtained, ← hcov,
      List.cons_append, Interval.covers_cons, Interval.covers_append,
      Interval.covers_append, hcover]
    tauto
  · rw [show ({ t with live := live } : St).obtained = s.obtained from hframe.obtained,
      show ({ t with live := live } : St).brk = s.brk from hframe.brk]
    exact hobt
  · rw [show ({ t with live := live } : St).brk = s.brk from hframe.brk]
    exact hbrk

/-! ## More memory -/

theorem sbrk_cases (o : Oracle) (s : St) (n : Nat) :
    sbrk o s n = (none, { s with calls := s.calls + 1 }) ∨
      ∃ hp, hp = s.brk + (o s.calls).getD 0 ∧ hp + n ≤ LIMIT ∧ sbrk o s n = (some hp, { s with
        brk := hp + n, calls := s.calls + 1, obtained := ⟨hp, hp + n⟩ :: s.obtained }) := by
  unfold sbrk
  split
  · split
    · rename_i gap hgap hroom
      exact Or.inr ⟨s.brk + gap, by rw [hgap, Option.getD_some], hroom, rfl⟩
    · exact Or.inl rfl
  · exact Or.inl rfl

/-- A region that is covered by a separated list is inside of one of its members. -/
theorem exists_cover (hsep : Interval.Sep m) (hx : x.lo < x.hi)
    (hcover : ∀ a, x.Has a → Interval.Covers m a) : ∃ i ∈ m, i.lo ≤ x.lo ∧ x.hi ≤ i.hi := by
  rcases hcover x.lo ⟨Nat.le_refl _, hx⟩ with ⟨i, hi, hlo, hhi⟩
  refine ⟨i, hi, hlo, ?_⟩
  by_contra hlt
  -- The address at which `i` ends belongs to another member, which would touch `i`.
  rcases hcover i.hi ⟨by omega, by omega⟩ with ⟨j, hj, hjlo, hjhi⟩
  rcases List.append_of_mem hi with ⟨u, v, rfl⟩
  rcases Interval.sep_append.1 hsep with ⟨-, hv, hu⟩
  rcases List.mem_append.1 hj with hj | hj
  · have hbefore : j.hi < i.lo := hu j hj i List.mem_cons_self
    omega
  · rcases List.mem_cons.1 hj with rfl | hj
    · omega
    · have hbefore : i.hi < j.lo := (Interval.sep_cons.1 hv).1 j hj
      omega

theorem sbrkInt_of_lt (o : Oracle) (s : St) (hpos : 0 < n) (hn : n < 2 ^ 31) :
    sbrkInt o s (n % 2 ^ 32) = sbrk o s n := by
  rw [Nat.mod_eq_of_lt (Nat.lt_trans hn (by decide)), sbrkInt, if_pos ⟨hpos, hn⟩]

theorem inPages_of_le {sz a : Nat} (h : a ≤ sz) : inPages sz a := by
  simp only [inPages, PGSIZE]
  omega

theorem morecore_spec (h : Inv L s l) (hf : s.freep ≠ 0) (hn : n * UNIT < 2 ^ 31)
    (hfuel : l.length + 1 < fuel) :
    ((sbrk o s (coreUnits n * UNIT)).1 = none ∧
      morecore o fuel s n = some (0, { s with calls := s.calls + 1 })) ∨
    ∃ t m, morecore o fuel s n = some (t.freep, t) ∧ t.freep ≠ 0 ∧ Inv L t m ∧
      (∃ i ∈ m, n ≤ (t.mem i.lo).size) ∧ m.length ≤ l.length + 1 ∧ t.live = s.live ∧
        s.brk + (o s.calls).getD 0 ≤ t.brk := by
  have hcore : n ≤ coreUnits n ∧ 0 < coreUnits n ∧ coreUnits n * UNIT < 2 ^ 31 := by
    unfold coreUnits
    simp only [UNIT] at *
    split <;> omega
  have hint := sbrkInt_of_lt o s (Nat.mul_pos hcore.2.1 (by decide : 0 < UNIT)) hcore.2.2
  rcases sbrk_cases o s (coreUnits n * UNIT) with hfail | ⟨hp, hold, hroom, hsbrk⟩
  · left
    exact ⟨by rw [hfail], by rw [morecore, hint, hfail]⟩
  right
  have hbrk : s.brk ≤ hp := hold ▸ Nat.le_add_right _ _
  rcases h.list hf with ⟨hlist, hfreep⟩
  have hbase := L.base_lt_heap
  have hheap := h.brk
  -- The region, and the heap in which its header has been written.
  generalize hx : (⟨hp, hp + coreUnits n * UNIT⟩ : Interval) = x at hsbrk
  have hxlo : x.lo = hp := by rw [← hx]
  have hxhi : x.hi = hp + coreUnits n * UNIT := by rw [← hx]
  have hxlt : x.lo < x.hi := by
    simp only [UNIT] at hxhi
    omega
  generalize hu : ({ s with
      brk := hp + coreUnits n * UNIT, calls := s.calls + 1, obtained := x :: s.obtained
      mem := update s.mem hp { s.mem hp with size := coreUnits n } } : St) = u
  have hmem : ∀ a, a ≠ x.lo → u.mem a = s.mem a := by
    intro a ha
    rw [← hu]
    exact update_of_ne (hxlo ▸ ha) _ _
  have hfree : ∀ i ∈ l, i.hi ≤ x.lo := fun i hi => hxlo ▸ Nat.le_trans (h.free_range hi).2 hbrk
  have hlive : ∀ z ∈ s.live, z.block.hi ≤ x.lo := fun z hz =>
    hxlo ▸ Nat.le_trans (h.live_range hz).2.1 hbrk
  have hlistu : FreeList L u.mem l := by
    have hsame : ∀ i ∈ l, u.mem i.lo = s.mem i.lo := fun i hi =>
      hmem _ (Nat.ne_of_lt (Nat.lt_of_lt_of_le (h.free_lt hi) (hfree i hi)))
    have hsameb : u.mem L.base = s.mem L.base := hmem _ (by omega)
    refine ⟨hlist.seg.congr fun q hq => ?_, hsameb ▸ hlist.base,
      fun i hi => (hlist.block i hi).congr (by rw [hsame i hi]), hlist.sep⟩
    rcases List.mem_cons.1 hq with rfl | hq
    · exact congrArg Header.ptr hsameb
    · rcases List.mem_map.1 hq with ⟨i, hi, rfl⟩
      exact congrArg Header.ptr (hsame i hi)
  have hxsize : (u.mem x.lo).size = coreUnits n := by
    have hself : u.mem x.lo = { s.mem hp with size := coreUnits n } := by
      rw [← hu, hxlo]
      exact update_self ..
    rw [hself]
  have hxblock : IsBlock L u.mem x :=
    ⟨by rw [hxsize, hxhi, hxlo, Nat.mul_comm], by rw [hxsize]; exact hcore.2.1, by omega, by omega⟩
  have hfreepu : u.freep ∈ L.base :: l.map Interval.lo := by
    rw [← hu]
    exact hfreep
  rcases release_spec hlistu hfreepu hxblock (fun i hi => .inl (hfree i hi)) hfuel with
    ⟨t, m, hrel, hlistt, hfreept, hlen, hcover, hframe⟩
  have hlivet : t.live = s.live := by
    rw [hframe.live, ← hu]
  have hinv : Inv L { t with live := s.live } m := by
    refine inv_of_released hlistt hfreept hcover hframe ?_ ?_ h.live_apart ?_ ?_ ?_ ?_
    · intro i hi
      rcases List.mem_cons.1 hi with rfl | hi
      · exact hxlt
      · exact h.free_lt hi
    · intro z hz
      have hzne : z.addr ≠ x.lo := Nat.ne_of_lt (Nat.lt_of_lt_of_le z.block_lt (hlive z hz))
      rw [hmem _ hzne]
      exact h.size z hz
    · intro i hi z hz
      rcases List.mem_cons.1 hi with rfl | hi
      · exact .inr (hlive z hz)
      · exact h.free_apart i hi z hz
    · intro a
      rw [← hu, List.cons_append, Interval.covers_cons, h.cover, Interval.covers_cons]
    · intro r hr
      rw [← hu] at hr ⊢
      rcases List.mem_cons.1 hr with rfl | hr
      · exact ⟨by omega, Nat.le_of_eq hxhi, by omega⟩
      · have hold := h.obtained r hr
        exact ⟨hold.1, Nat.le_trans hold.2.1 (Nat.le_trans hbrk (Nat.le_add_right _ _)), hold.2.2⟩
    · rw [← hu]
      exact Nat.le_trans hheap (Nat.le_trans hbrk (Nat.le_add_right _ _))
  rw [← hlivet] at hinv
  rcases exists_cover hlistt.sep hxlt fun a ha => (hcover a).2 (.inr ha) with ⟨i, hi, hlo, hhi⟩
  have hib := (hlistt.block i hi).hi
  refine ⟨t, m, ?_, ?_, hinv, ⟨i, hi, ?_⟩, hlen, hlivet, ?_⟩
  · have hpage : inPages (hp + coreUnits n * UNIT) (hp + UNIT) :=
      inPages_of_le (Nat.add_le_add_left (Nat.le_mul_of_pos_left _ hcore.2.1) _)
    rw [hxlo] at hrel
    rw [morecore, hint, hsbrk]
    simp only
    rw [if_pos hpage, hu, hrel]
    rfl
  · exact hlistt.ne_zero hfreept
  · simp only [UNIT] at hib hxhi
    omega
  · rw [hframe.brk, ← hu, ← hold]
    exact Nat.le_add_right _ _

/-! ## `malloc` -/

/-- The heap after a block has been cut off for a request. -/
theorem inv_of_taken (h : Inv L s l) (hf : s.freep ≠ 0) (ht : Taken L s t l m y (nunits nbytes)) :
    Inv L { t with live := ⟨y.lo, nbytes⟩ :: t.live } m := by
  rcases h.list hf with ⟨hlist, -⟩
  have hbase := L.base_lt_heap
  have hy : (⟨y.lo, nbytes⟩ : Live).block = y := by
    rw [Live.block, ← ht.hi]
  have hylt : y.lo < y.hi := by
    have hlt := Live.block_lt ⟨y.lo, nbytes⟩
    rw [hy] at hlt
    exact hlt
  have hsub : ∀ a, Interval.Covers m a → Interval.Covers l a := fun a ha =>
    (ht.cover a).2 (.inl ha)
  have hyapart : ∀ z ∈ s.live, y.Apart z.block := by
    intro z hz
    refine Interval.apart_of_not_has hylt z.block_lt fun a ha hza => ?_
    rcases (ht.cover a).2 (.inr ha) with ⟨i, hi, hia⟩
    exact (h.free_apart i hi z hz).not_has hia hza
  refine ⟨fun _ => ⟨ht.list, ht.freep⟩, fun hzero => ?_, ?_, ?_, ?_, fun a => ?_, ?_, ?_⟩
  · exact absurd hzero (ht.list.ne_zero ht.freep)
  · intro z hz
    rcases List.mem_cons.1 hz with rfl | hz
    · exact ht.size
    · rw [ht.live] at hz
      have hlow : L.base < z.addr := Nat.lt_of_lt_of_le hbase (h.live_range hz).1
      have hne : z.addr ≠ y.lo := by
        intro heq
        exact (hyapart z hz).not_has ⟨Nat.le_refl _, hylt⟩ (heq ▸ ⟨Nat.le_refl _, z.block_lt⟩)
      have hnot := live_not_header hz h.free_apart (fun i hi => h.free_lt hi) hlow
      exact (congrArg Header.size (ht.mem z.addr hnot hne)).trans (h.size z hz)
  · refine List.pairwise_cons.2 ⟨fun z hz => ?_, ht.live ▸ h.live_apart⟩
    rw [ht.live] at hz
    rw [hy]
    exact hyapart z hz
  · intro i hi z hz
    rcases List.mem_cons.1 hz with rfl | hz
    · rw [hy]
      exact ht.apart i hi
    · rw [ht.live] at hz
      exact apart_of_covers (fun i hi => (ht.list.block i hi).lt) hsub h.free_apart i hi z hz
  · rw [show ({ t with live := ⟨y.lo, nbytes⟩ :: t.live } : St).obtained = s.obtained
      from ht.obtained,
      ← h.cover, List.map_cons, hy, ht.live, Interval.covers_append, Interval.covers_append,
      Interval.covers_cons, ht.cover]
    tauto
  · rw [show ({ t with live := ⟨y.lo, nbytes⟩ :: t.live } : St).obtained = s.obtained
      from ht.obtained,
      show ({ t with live := ⟨y.lo, nbytes⟩ :: t.live } : St).brk = s.brk from ht.brk]
    exact h.obtained
  · rw [show ({ t with live := ⟨y.lo, nbytes⟩ :: t.live } : St).brk = s.brk from ht.brk]
    exact h.brk

/-- The process ends where it has ended, or not before where it ended when `sbrk` was called. -/
def Grown (o : Oracle) (s t : St) : Prop :=
  t.brk = s.brk ∨ s.brk + (o s.calls).getD 0 ≤ t.brk

/-- The loop ends with a block of the heap, of which `sbrk` may just have become a part, or `sbrk`
has refused. -/
theorem search_spec (h : Inv L s l) (hf : s.freep ≠ 0) (hn : n * UNIT < 2 ^ 31) (hpos : 0 < n)
    (hfuel : 2 * l.length + 4 < fuel) :
    (∃ u k t m y, search o n fuel s s.freep (s.mem s.freep).ptr = some (y.lo + UNIT, t) ∧
      Inv L u k ∧ u.freep ≠ 0 ∧ u.live = s.live ∧ Grown o s u ∧ Taken L u t k m y n) ∨
    search o n fuel s s.freep (s.mem s.freep).ptr = some (0, { s with calls := s.calls + 1 }) ∧
      (sbrk o s (coreUnits n * UNIT)).1 = none ∧ ∀ i ∈ l, (s.mem i.lo).size < n := by
  rcases h.list hf with ⟨hlist, hfreep⟩
  by_cases hex : ∃ i ∈ l, n ≤ (s.mem i.lo).size
  · rcases search_finds (o := o) hlist hfreep hex hpos (by omega : l.length < fuel) with
      ⟨t, m, y, hsearch, ht⟩
    exact .inl ⟨s, l, t, m, y, hsearch, h, hf, rfl, .inl rfl, ht⟩
  have hsmall : ∀ i ∈ l, (s.mem i.lo).size < n := fun i hi =>
    Nat.lt_of_not_le fun hle => hex ⟨i, hi, hle⟩
  -- No node is large enough, so the loop comes back to `freep`.
  have hnode : ∀ r ∈ L.base :: l.map Interval.lo, (s.mem r).size < n := by
    intro r hr
    rcases List.mem_cons.1 hr with rfl | hr
    · rw [hlist.base]
      exact hpos
    · rcases List.mem_map.1 hr with ⟨i, hi, rfl⟩
      exact hsmall i hi
  rcases hlist.round hfreep with ⟨ps, hseg, hlen, hnot, hmem⟩
  have hps : ∀ r ∈ ps, (s.mem r).size < n ∧ r ≠ s.freep := fun r hr =>
    ⟨hnode r ((hmem r).1 (List.mem_append_left _ hr)), ne_of_mem_of_not_mem hr hnot⟩
  obtain ⟨k, rfl⟩ : ∃ k, fuel = k + 1 + ps.length := ⟨fuel - 1 - ps.length, by omega⟩
  rcases morecore_spec (o := o) h hf hn (by omega : l.length + 1 < k) with
    ⟨hfail, hmore⟩ | ⟨u, m, hmore, hu, hinv, hlarge, hmlen, hlive, hbrk⟩
  · right
    rw [search_of_round _ hseg hps (hnode _ hfreep), hmore]
    exact ⟨if_pos rfl, hfail, hsmall⟩
  · left
    rcases hinv.list hu with ⟨hlistu, hfreepu⟩
    rcases search_finds (o := o) hlistu hfreepu hlarge hpos (by omega : m.length < k) with
      ⟨t, m', y, hsearch, ht⟩
    refine ⟨u, m, t, m', y, ?_, hinv, hu, hlive, .inr hbrk, ht⟩
    rw [search_of_round _ hseg hps (hnode _ hfreep), hmore]
    exact (if_neg hu).trans hsearch

theorem exists_init (h : Inv L s l) : ∃ s', Inv L s' l ∧ s'.freep ≠ 0 ∧ s'.live = s.live ∧
    s'.brk = s.brk ∧ s'.calls = s.calls ∧ (∀ i ∈ l, s'.mem i.lo = s.mem i.lo) ∧
      malloc L o fuel s nbytes =
        (search o (nunits nbytes) fuel s' s'.freep (s'.mem s'.freep).ptr).map fun r =>
          (r.1, if r.1 = 0 then r.2
            else { r.2 with live := { addr := r.1 - UNIT, nbytes := nbytes } :: r.2.live }) := by
  by_cases hf : s.freep = 0
  · rcases h.fresh hf with ⟨rfl, hlive⟩
    refine ⟨{ s with
      mem := update s.mem L.base { ptr := L.base, size := 0 }
      freep := L.base }, ⟨fun _ => ⟨⟨?_, ?_, nofun, List.Pairwise.nil⟩, List.mem_cons_self⟩,
        fun hzero => absurd hzero (Nat.ne_of_gt L.base_pos), ?_, h.live_apart, nofun, h.cover,
        h.obtained, h.brk⟩, Nat.ne_of_gt L.base_pos, rfl, rfl, rfl, nofun, ?_⟩
    · refine ⟨rfl, ?_⟩
      simp only [next, update_self, List.map_nil]
      rfl
    · simp only [update_self]
    · rw [show ({ s with mem := _, freep := _ } : St).live = [] from hlive]
      nofun
    · rw [malloc, if_pos hf]
  · exact ⟨s, h, hf, rfl, rfl, rfl, fun _ _ => rfl, by rw [malloc, if_neg hf]⟩

theorem sbrk_congr (hbrk : t.brk = s.brk) (hcalls : t.calls = s.calls) :
    (sbrk o t n).1 = (sbrk o s n).1 := by
  unfold sbrk
  rw [hbrk, hcalls]
  split
  · split <;> rfl
  · rfl

/-- The call returns with a new block, or without one because `sbrk` has refused and no free block
is large enough. -/
theorem malloc_spec (h : Inv L s l) (hn : nunits nbytes * UNIT < 2 ^ 31)
    (hfuel : 2 * l.length + 4 < fuel) :
    ∃ p t m, malloc L o fuel s nbytes = some (p, t) ∧ Inv L t m ∧
      Grown o s t ∧ (p = 0 → (sbrk o s (coreUnits (nunits nbytes) * UNIT)).1 = none ∧
        ∀ i ∈ l, (s.mem i.lo).size < nunits nbytes) ∧
      (p ≠ 0 → UNIT ≤ p ∧ t.live = ⟨p - UNIT, nbytes⟩ :: s.live) := by
  rcases exists_init (o := o) h with ⟨s', h', hf, hlive, hbrk, hcalls, hmem, hmalloc⟩
  have hpos : 0 < nunits nbytes := Nat.succ_pos _
  rcases search_spec (o := o) h' hf hn hpos hfuel with
    ⟨u, k, t, m, y, hsearch, hu, huf, hulive, hubrk, ht⟩ | ⟨hsearch, hfail, hsmall⟩
  · have hne : y.lo + UNIT ≠ 0 := Nat.succ_ne_zero _
    refine ⟨_, _, m, by rw [hmalloc, hsearch]; rfl, ?_, ?_, fun hzero => absurd hzero hne,
      fun _ => ?_⟩
    · rw [if_neg hne, Nat.add_sub_cancel]
      exact inv_of_taken hu huf ht
    · rw [if_neg hne, Grown, ← hbrk, ← hcalls, show ({ t with live := _ } : St).brk = u.brk
        from ht.brk]
      exact hubrk
    · rw [if_neg hne, ← hlive, ← hulive, ← ht.live]
      exact ⟨Nat.le_add_left _ _, rfl⟩
  · refine ⟨0, _, l, by rw [hmalloc, hsearch]; rfl, ?_, ?_, fun _ => ⟨?_, fun i hi => ?_⟩,
      fun hne => absurd rfl hne⟩
    · rw [if_pos rfl]
      exact ⟨h'.list, h'.fresh, h'.size, h'.live_apart, h'.free_apart, h'.cover,
        h'.obtained, h'.brk⟩
    · rw [if_pos rfl]
      exact .inl hbrk
    · rw [← sbrk_congr hbrk hcalls]
      exact hfail
    · rw [← hmem i hi]
      exact hsmall i hi

/-! ## `free` -/

namespace Inv

theorem live_apart_of_ne (h : Inv L s l) {z w : Live} (hz : z ∈ s.live) (hw : w ∈ s.live)
    (hne : z ≠ w) : z.block.Apart w.block :=
  have : Std.Symm fun z w : Live => z.block.Apart w.block := ⟨fun _ _ hapart => hapart.symm⟩
  h.live_apart.forall hz hw hne

theorem live_unique (h : Inv L s l) {z w : Live} (hz : z ∈ s.live) (hw : w ∈ s.live)
    (heq : w.addr = z.addr) : w = z := by
  by_contra hne
  have hhas : w.block.Has z.addr := heq ▸ ⟨Nat.le_refl _, w.block_lt⟩
  exact (h.live_apart_of_ne hz hw (Ne.symm hne)).not_has ⟨Nat.le_refl _, z.block_lt⟩ hhas

end Inv

/-- The call returns, and the block that was allocated is free. -/
theorem free_spec (h : Inv L s l) {z : Live} (hz : z ∈ s.live) (hfuel : l.length + 1 < fuel) :
    ∃ t m, free fuel s (z.addr + UNIT) = some t ∧ Inv L t m := by
  have hf : s.freep ≠ 0 := by
    intro hzero
    rw [(h.fresh hzero).2] at hz
    cases hz
  rcases h.list hf with ⟨hlist, hfreep⟩
  have hrange := h.live_range hz
  have hzsize := h.size z hz
  have hblock : IsBlock L s.mem z.block :=
    ⟨by rw [Live.block, hzsize], by rw [Live.block, hzsize]; exact Nat.succ_pos _,
      Nat.lt_of_lt_of_le L.base_lt_heap hrange.1, hrange.2.2⟩
  rcases release_spec hlist hfreep hblock (fun i hi => h.free_apart i hi z hz) hfuel with
    ⟨t, m, hrel, hlistt, hfreept, -, hcover, hframe⟩
  have hfree : free fuel s (z.addr + UNIT) =
      some { t with live := s.live.filter fun w => w.addr ≠ z.addr } := by
    rw [free, Nat.add_sub_cancel, show release fuel s z.addr = some t from hrel, Option.map_some,
      hframe.live]
  refine ⟨_, m, hfree, inv_of_released hlistt hfreept hcover hframe ?_ ?_ ?_ ?_ ?_ h.obtained h.brk⟩
  · intro i hi
    rcases List.mem_cons.1 hi with rfl | hi
    · exact z.block_lt
    · exact h.free_lt hi
  · intro w hw
    exact h.size w (List.mem_of_mem_filter hw)
  · exact h.live_apart.filter _
  · intro i hi w hw
    rcases List.mem_filter.1 hw with ⟨hmem, hne⟩
    rcases List.mem_cons.1 hi with rfl | hi
    · exact h.live_apart_of_ne hz hmem fun heq => of_decide_eq_true hne (heq ▸ rfl)
    · exact h.free_apart i hi w hmem
  · intro a
    -- Of the allocated blocks only the one that is freed is not among those that stay.
    have hsplit : Interval.Covers (s.live.map Live.block) a ↔ z.block.Has a ∨
        Interval.Covers ((s.live.filter fun w => w.addr ≠ z.addr).map Live.block) a := by
      simp only [Interval.Covers, List.mem_map, List.mem_filter, decide_eq_true_eq]
      constructor
      · rintro ⟨_, ⟨w, hw, rfl⟩, hwa⟩
        by_cases heq : w.addr = z.addr
        · exact .inl (h.live_unique hz hw heq ▸ hwa)
        · exact .inr ⟨_, ⟨w, ⟨hw, heq⟩, rfl⟩, hwa⟩
      · rintro (hza | ⟨_, ⟨w, ⟨hw, -⟩, rfl⟩, hwa⟩)
        · exact ⟨_, ⟨z, hz, rfl⟩, hza⟩
        · exact ⟨_, ⟨w, hw, rfl⟩, hwa⟩
    rw [← h.cover, List.cons_append, Interval.covers_cons, Interval.covers_append,
      Interval.covers_append, hsplit]
    tauto

/-! ## Whole runs -/

theorem inv_boot (L : Layout) (mem : Nat → Header) : Inv L (boot L mem) [] :=
  ⟨fun hne => absurd rfl hne, fun _ => ⟨rfl, rfl⟩, nofun, List.Pairwise.nil, nofun,
    fun _ => Iff.rfl, nofun, Nat.le_refl _⟩

namespace Inv

theorem enough_fuel (h : Inv L s l) : 2 * l.length + 4 < Umalloc.fuel := by
  have hlen : l.length ≤ LIMIT := by
    by_cases hf : s.freep = 0
    · rw [(h.fresh hf).1]
      exact Nat.zero_le _
    · exact (h.list hf).1.length_le
  unfold Umalloc.fuel
  omega

theorem step {a : Act} (h : Inv L s l) (hok : CallOk s a) (hstep : step L o s a = some t) :
    ∃ m, Inv L t m := by
  have hfuel := h.enough_fuel
  cases a with
  | malloc nbytes =>
    rcases malloc_spec (o := o) h hok hfuel with
      ⟨p, u, m, hmalloc, hu, -, -, -⟩
    rw [Umalloc.step, hmalloc] at hstep
    cases hstep
    exact ⟨m, hu⟩
  | free ap =>
    rcases hok with ⟨z, hz, rfl⟩
    rcases free_spec h hz (by omega : l.length + 1 < Umalloc.fuel) with ⟨u, m, hfree, hu⟩
    rw [Umalloc.step, hfree] at hstep
    cases hstep
    exact ⟨m, hu⟩

end Inv

/-- After any calls of `malloc` and `free` the free list is circular through `base` and ascending,
its blocks have gaps between them, free and allocated blocks are apart and make up all the memory
that `sbrk` has returned, and the next call returns. -/
theorem heap_of_reaches (L : Layout) (o : Oracle) (mem : Nat → Header)
    (h : Reaches (step L o) CallOk (boot L mem) s) : ∃ l : List Interval,
    (s.freep = 0 → l = []) ∧
    (s.freep ≠ 0 → Seg (fun a => (s.mem a).ptr) L.base (L.base :: l.map Interval.lo) L.base ∧
      s.freep ∈ L.base :: l.map Interval.lo ∧ (s.mem L.base).size = 0 ∧
      (L.base :: l.map Interval.lo).Pairwise (· < ·) ∧
      ∀ i ∈ l, i.lo < i.hi ∧ i.hi = i.lo + UNIT * (s.mem i.lo).size) ∧
    l.Pairwise (fun i j => i.hi < j.lo) ∧
    s.live.Pairwise (fun x y => x.block.Apart y.block) ∧
    (∀ i ∈ l, ∀ x ∈ s.live, i.Apart x.block) ∧
    (∀ x ∈ s.live, x.block.hi = x.addr + UNIT * (s.mem x.addr).size ∧
      (x.nbytes + 15) / 16 ≤ (s.mem x.addr).size - 1) ∧
    (∀ a, Interval.Covers (l ++ s.live.map Live.block) a ↔ Interval.Covers s.obtained a) ∧
    (∀ nbytes, CallOk s (.malloc nbytes) → ∃ p t, malloc L o Umalloc.fuel s nbytes = some (p, t) ∧
      (p = 0 → (sbrk o s (coreUnits (nunits nbytes) * UNIT)).1 = none ∧
        ∀ i ∈ l, (s.mem i.lo).size < nunits nbytes) ∧
      (p ≠ 0 → t.live = ⟨p - UNIT, nbytes⟩ :: s.live)) ∧
    ∀ x ∈ s.live, ∃ t, free Umalloc.fuel s (x.addr + UNIT) = some t := by
  rcases h.invariant (P := fun s => ∃ l, Inv L s l) ⟨[], inv_boot L mem⟩
    (fun s a t hs hok hstep => hs.elim fun l hl => hl.step hok hstep) with ⟨l, hl⟩
  have hfuel := hl.enough_fuel
  have hsep : l.Pairwise fun i j => i.hi < j.lo := by
    by_cases hf : s.freep = 0
    · rw [(hl.fresh hf).1]
      exact List.Pairwise.nil
    · exact (hl.list hf).1.sep
  refine ⟨l, fun hf => (hl.fresh hf).1, fun hf => ?_, hsep, hl.live_apart, hl.free_apart, ?_,
    hl.cover, ?_, ?_⟩
  · rcases hl.list hf with ⟨hlist, hfreep⟩
    exact ⟨hlist.seg, hfreep, hlist.base, hlist.sorted,
      fun i hi => ⟨(hlist.block i hi).lt, (hlist.block i hi).hi⟩⟩
  · intro x hx
    rw [hl.size x hx]
    exact ⟨rfl, Nat.le_refl _⟩
  · intro nbytes hok
    rcases malloc_spec (o := o) hl hok hfuel with ⟨p, t, m, hmalloc, -, -, hzero, hlive⟩
    exact ⟨p, t, hmalloc, hzero, fun hp => (hlive hp).2⟩
  · intro x hx
    rcases free_spec hl hx (by omega : l.length + 1 < Umalloc.fuel) with ⟨t, m, hfree, -⟩
    exact ⟨t, hfree⟩

/-- Three requests, of which the second is freed. -/
def threeRequests : List Act :=
  [.malloc 10, .malloc 100, .malloc 10, .free 73584]

theorem heap_of_reaches_three_requests : ∃ s,
    runIf (step ⟨4096, 8192, by decide, by decide⟩ fun _ => some 0) CallOk
      (boot ⟨4096, 8192, by decide, by decide⟩ fun _ => ⟨0, 0⟩) threeRequests = some s ∧
    s.live = [⟨73536, 10⟩, ⟨73696, 10⟩] ∧ s.obtained = [⟨8192, 73728⟩] ∧
    ∃ l : List Interval, ∀ a,
      Interval.Covers (l ++ s.live.map Live.block) a ↔ Interval.Covers s.obtained a := by
  have heval : (runIf (step ⟨4096, 8192, by decide, by decide⟩ fun _ => some 0) CallOk
      (boot ⟨4096, 8192, by decide, by decide⟩ fun _ => ⟨0, 0⟩) threeRequests).any fun s =>
        decide (s.live = [⟨73536, 10⟩, ⟨73696, 10⟩] ∧ s.obtained = [⟨8192, 73728⟩]) := by
    decide +kernel
  rcases exists_of_any heval with ⟨s, hs, hlive, hobtained⟩
  rcases heap_of_reaches _ _ _ (.of_runIf hs) with ⟨l, -, -, -, -, -, -, hcover, -⟩
  exact ⟨s, hs, hlive, hobtained, l, hcover⟩

end Xv6.Umalloc
