import Xv6.Lib.Intervals
import Xv6.Lib.Linked
import Xv6.Umalloc.Model

/-!
# Heap — the free list of the user heap

The free list in memory stands for a list of intervals in ascending order with gaps between them.
`free` finds the place of a block from wherever `freep` points and joins the block with its
neighbours; `malloc` takes a block from the end of an interval.
-/

namespace Xv6.Umalloc

open Lib
open Function (update update_of_ne update_self)

/-! ## Blocks in memory -/

/-- A free block as its header says. -/
structure IsBlock (L : Layout) (mem : Nat → Header) (i : Interval) : Prop where
  hi : i.hi = i.lo + UNIT * (mem i.lo).size
  pos : 0 < (mem i.lo).size
  low : L.base < i.lo
  high : i.hi ≤ LIMIT

abbrev next (mem : Nat → Header) (a : Nat) : Nat :=
  (mem a).ptr

/-- The free list is circular through `base` and made of the blocks `l`. -/
structure FreeList (L : Layout) (mem : Nat → Header) (l : List Interval) : Prop where
  seg : Seg (next mem) L.base (L.base :: l.map Interval.lo) L.base
  base : (mem L.base).size = 0
  block : ∀ i ∈ l, IsBlock L mem i
  sep : Interval.Sep l

variable {L : Layout} {mem mem' : Nat → Header} {i j x : Interval} {l l₁ l₂ : List Interval}
variable {p q bp fuel : Nat}

namespace IsBlock

theorem lt (h : IsBlock L mem i) : i.lo < i.hi := by
  have hhi := h.hi
  have hpos := h.pos
  simp only [UNIT] at hhi
  omega

theorem congr (h : IsBlock L mem i) (heq : (mem' i.lo).size = (mem i.lo).size) : IsBlock L mem' i :=
  ⟨heq ▸ h.hi, heq ▸ h.pos, h.low, h.high⟩

end IsBlock

namespace FreeList

/-- The addresses of a free list ascend, so that none comes twice. -/
theorem lo_lt (h : FreeList L mem (l₁ ++ i :: l₂)) (hj : j ∈ l₁) : j.hi < i.lo :=
  (Interval.sep_append.1 h.sep).2.2 j hj i List.mem_cons_self

theorem lt_lo (h : FreeList L mem (l₁ ++ i :: l₂)) (hj : j ∈ l₂) : i.hi < j.lo :=
  (Interval.sep_cons.1 (Interval.sep_append.1 h.sep).2.1).1 j hj

theorem length_le (h : FreeList L mem l) : l.length ≤ LIMIT := by
  have hle := h.sep.length_le (m := 0) (fun i hi => (h.block i hi).lt) (fun _ _ => Nat.zero_le _)
    fun i hi => (h.block i hi).high
  omega

theorem ne_zero (h : FreeList L mem l) (hp : p ∈ L.base :: l.map Interval.lo) : p ≠ 0 := by
  have hpos := L.base_pos
  rcases List.mem_cons.1 hp with rfl | hp
  · exact Nat.ne_of_gt hpos
  · rcases List.mem_map.1 hp with ⟨i, hi, rfl⟩
    exact Nat.ne_of_gt (Nat.lt_trans hpos (h.block i hi).low)

end FreeList

/-! ## The place of a block -/

/-- The condition on which the loop of `free` ends. -/
def Stops (mem : Nat → Header) (bp p : Nat) : Prop :=
  p < bp ∧ bp < (mem p).ptr ∨ (mem p).ptr ≤ p ∧ (p < bp ∨ bp < (mem p).ptr)

/-- The loop goes on to the first node at which it stops. -/
theorem place_of_seg {ps : List Nat} (hseg : Seg (next mem) p ps q)
    (hps : ∀ r ∈ ps, ¬ Stops mem bp r) (hq : Stops mem bp q) (hfuel : ps.length < fuel) :
    place mem bp fuel p = some q := by
  induction ps generalizing p fuel with
  | nil =>
    cases hseg
    cases fuel with
    | zero => exact absurd hfuel (Nat.not_lt_zero _)
    | succ fuel =>
      rw [place]
      split
      · rfl
      · rename_i hno
        rw [if_pos (hq.resolve_left hno)]
  | cons r ps ih =>
    rcases hseg with ⟨rfl, hseg⟩
    cases fuel with
    | zero => exact absurd hfuel (Nat.not_lt_zero _)
    | succ fuel =>
      have hno := hps p List.mem_cons_self
      rw [place, if_neg fun h => hno (.inl h), if_neg fun h => hno (.inr h)]
      exact ih hseg (fun r hr => hps r (List.mem_cons_of_mem _ hr)) (Nat.lt_of_succ_lt_succ hfuel)

section Stops

variable {as bs : List Nat} {b : Nat}

/-- In an ascending circular list the loop stops at the last node before the block, and only there:
`as` and `p` are before the block and `bs` are behind it. -/
theorem stops_pred (hseg : Seg (next mem) b (as ++ p :: bs) b) (hb : b ≤ p)
    (hp : p < bp) (hbs : ∀ r ∈ bs, bp < r) : Stops mem bp p := by
  have hnext := hseg.mid.2
  cases bs with
  | nil =>
    have heq : (mem p).ptr = b := hnext
    exact .inr ⟨by omega, .inl hp⟩
  | cons r bs =>
    have heq : (mem p).ptr = r := hnext.1
    exact .inl ⟨hp, heq ▸ hbs r List.mem_cons_self⟩

theorem not_stops_before {r : Nat} (hseg : Seg (next mem) b (as ++ p :: bs) b)
    (hsorted : (as ++ p :: bs).Pairwise (· < ·)) (has : ∀ r ∈ as, r < bp) (hp : p < bp)
    (hr : r ∈ as) : ¬ Stops mem bp r := by
  rcases List.append_of_mem hr with ⟨u, v, rfl⟩
  rw [List.append_assoc, List.cons_append] at hseg hsorted
  have hrest := (List.pairwise_cons.1 (List.pairwise_append.1 hsorted).2.1).1
  -- The next node is one of those before the block as well.
  have hnext : r < (mem r).ptr ∧ (mem r).ptr < bp := by
    have hseg' := hseg.mid.2
    cases v with
    | nil =>
      have heq : (mem r).ptr = p := hseg'.1
      exact ⟨heq ▸ hrest p List.mem_cons_self, heq ▸ hp⟩
    | cons q v =>
      have heq : (mem r).ptr = q := hseg'.1
      exact ⟨heq ▸ hrest q List.mem_cons_self, heq ▸ has q (by simp)⟩
  unfold Stops
  omega

theorem not_stops_behind {r : Nat} (hseg : Seg (next mem) b (as ++ p :: bs) b)
    (hsorted : (as ++ p :: bs).Pairwise (· < ·)) (hb : b < bp) (hbs : ∀ r ∈ bs, bp < r)
    (hr : r ∈ bs) : ¬ Stops mem bp r := by
  have hbr := hbs r hr
  rcases List.append_of_mem hr with ⟨u, v, rfl⟩
  have hseg' := hseg.mid.2.mid.2
  have hsorted' := (List.pairwise_cons.1 (List.pairwise_append.1 hsorted).2.1).2
  unfold Stops
  cases v with
  | nil =>
    have heq : (mem r).ptr = b := hseg'
    omega
  | cons q v =>
    have heq : (mem r).ptr = q := hseg'.1
    have hlt : r < q :=
      (List.pairwise_cons.1 (List.pairwise_append.1 hsorted').2.1).1 q List.mem_cons_self
    omega

/-- `free` finds the place from every node of the list. -/
theorem place_spec {freep : Nat} (hseg : Seg (next mem) b (as ++ p :: bs) b)
    (hsorted : (as ++ p :: bs).Pairwise (· < ·)) (hb : b ≤ p) (has : ∀ r ∈ as, r < bp) (hp : p < bp)
    (hbs : ∀ r ∈ bs, bp < r) (hfreep : freep ∈ as ++ p :: bs)
    (hfuel : (as ++ p :: bs).length < fuel) : place mem bp fuel freep = some p := by
  have hstop := stops_pred hseg hb hp hbs
  have hno : ∀ r ∈ as ++ p :: bs, r ≠ p → ¬ Stops mem bp r := by
    intro r hr hne
    rcases List.mem_append.1 hr with hr | hr
    · exact not_stops_before hseg hsorted has hp hr
    · exact not_stops_behind hseg hsorted (by omega) hbs ((List.mem_cons.1 hr).resolve_left hne)
  by_cases hfp : freep = p
  · subst hfp
    have hpath : Seg (next mem) freep [] freep := rfl
    exact place_of_seg hpath nofun hstop (Nat.zero_lt_of_lt hfuel)
  · have hmem : p ∈ as ++ p :: bs := List.mem_append_right _ List.mem_cons_self
    generalize as ++ p :: bs = cs at hseg hsorted hfreep hfuel hno hmem
    rcases List.append_of_mem hfreep with ⟨u, v, rfl⟩
    -- From `freep` the list goes once around, and `p` is on the way.
    have hround : Seg (next mem) freep (freep :: (v ++ u)) freep := ⟨rfl, hseg.rotate⟩
    have hpmem : p ∈ v ++ u := by
      simp only [List.mem_append, List.mem_cons] at hmem ⊢
      rcases hmem with hmem | rfl | hmem
      · exact .inr hmem
      · exact absurd rfl hfp
      · exact .inl hmem
    have hsub : ∀ r ∈ v ++ u, r ∈ u ++ freep :: v := by
      intro r hr
      simp only [List.mem_append, List.mem_cons] at hr ⊢
      rcases hr with hr | hr
      · exact .inr (.inr hr)
      · exact .inl hr
    have hnodup : (v ++ u).Nodup := by
      have hall : (u ++ freep :: v).Nodup := hsorted.imp fun h => Nat.ne_of_lt h
      have hswap : (freep :: v ++ u).Nodup := List.nodup_append_comm.1 hall
      exact (List.nodup_cons.1 hswap).2
    have hlen : (v ++ u).length < (u ++ freep :: v).length := by
      simp only [List.length_append, List.length_cons]
      omega
    generalize v ++ u = w at hround hpmem hsub hnodup hlen
    rcases List.append_of_mem hpmem with ⟨w₁, w₂, rfl⟩
    have hnot : p ∉ w₁ := fun hp₁ =>
      (List.nodup_append.1 hnodup).2.2 p hp₁ p List.mem_cons_self rfl
    rw [← List.cons_append] at hround
    refine place_of_seg hround.mid.1 ?_ hstop ?_
    · intro r hr
      rcases List.mem_cons.1 hr with rfl | hr
      · exact hno r hfreep hfp
      · exact hno r (hsub r (List.mem_append_left _ hr)) fun heq => hnot (heq ▸ hr)
    · rw [List.length_append, List.length_cons] at hlen
      rw [List.length_cons]
      omega

end Stops

/-! ## Joining blocks -/

/-- What is behind the block `y` in the free list. -/
structure Tail (L : Layout) (mem : Nat → Header) (y : Interval) (r : List Interval) : Prop where
  seg : Seg (next mem) (mem y.lo).ptr (r.map Interval.lo) L.base
  block : ∀ i ∈ y :: r, IsBlock L mem i
  sep : Interval.Sep (y :: r)

/-- The size of two blocks without a gap between them does not overflow. -/
theorem size_add_lt (hi : IsBlock L mem i) (hj : IsBlock L mem j) (hij : i.hi = j.lo) :
    (mem i.lo).size + (mem j.lo).size < 2 ^ 32 := by
  have hihi := hi.hi
  have hjhi := hj.hi
  have hhigh := hj.high
  simp only [UNIT, LIMIT] at *
  omega

/-- The block `x` becomes part of the tail of the list behind it. -/
theorem joinNext_spec (hseg : Seg (next mem) (mem p).ptr (l.map Interval.lo) L.base)
    (hblock : ∀ i ∈ l, IsBlock L mem i) (hsep : Interval.Sep l) (hx : IsBlock L mem x)
    (hbehind : ∀ i ∈ l, x.hi ≤ i.lo) : ∃ y r, y.lo = x.lo ∧ Tail L (joinNext mem p x.lo) y r ∧
      (∀ i ∈ r, i ∈ l) ∧ r.length ≤ l.length ∧
        ∀ a, Interval.Covers (y :: r) a ↔ x.Has a ∨ Interval.Covers l a := by
  have hxlt := hx.lt
  have hother : ∀ {h : Header} {i}, i ∈ l → update mem x.lo h i.lo = mem i.lo := by
    intro h i hi
    have hle := hbehind i hi
    exact update_of_ne (by omega) _ _
  have hkeep : ∀ {h : Header} {m : List Interval}, (∀ i ∈ m, i ∈ l) →
      ∀ i ∈ m, IsBlock L (update mem x.lo h) i :=
    fun hsub i hi => (hblock i (hsub i hi)).congr (by rw [hother (hsub i hi)])
  by_cases hjoin : x.lo + UNIT * (mem x.lo).size = (mem p).ptr
  · -- The block behind begins where `x` ends.
    cases l with
    | nil =>
      have hbase : (mem p).ptr = L.base := hseg
      have hlow := hx.low
      have hhi := hx.hi
      omega
    | cons j r =>
      have hj : (mem p).ptr = j.lo := hseg.1
      have hjb := hblock j List.mem_cons_self
      rcases Interval.sep_cons.1 hsep with ⟨hbefore, hsep'⟩
      have hxj : x.hi = j.lo := by rw [hx.hi, hjoin, hj]
      have hsub : ∀ i ∈ r, i ∈ j :: r := fun i hi => List.mem_cons_of_mem _ hi
      have hmem : joinNext mem p x.lo = update mem x.lo
          { ptr := (mem j.lo).ptr, size := (mem x.lo).size + (mem j.lo).size } := by
        rw [joinNext, if_pos hjoin, hj, Nat.mod_eq_of_lt (size_add_lt hx hjb hxj)]
      rw [hmem]
      refine ⟨⟨x.lo, j.hi⟩, r, rfl, ⟨?_, ?_, ?_⟩, hsub, Nat.le_succ _, fun a => ?_⟩
      · rw [update_self]
        refine hseg.2.congr fun q hq => ?_
        rcases List.mem_map.1 hq with ⟨i, hi, rfl⟩
        exact congrArg Header.ptr (hother (hsub i hi))
      · intro i hi
        rcases List.mem_cons.1 hi with rfl | hi
        · have hxhi := hx.hi
          have hjhi := hjb.hi
          have hpos := hx.pos
          simp only [UNIT] at hxhi hjhi
          refine ⟨?_, ?_, hx.low, hjb.high⟩ <;> simp only [update_self, UNIT] <;> omega
        · exact hkeep hsub i hi
      · exact Interval.sep_cons.2 ⟨hbefore, hsep'⟩
      · rw [Interval.covers_cons, Interval.covers_cons, ← or_assoc]
        exact or_congr_left (Interval.has_join (Nat.le_of_lt hxlt) (Nat.le_of_lt hjb.lt) hxj)
  · have hmem : joinNext mem p x.lo = update mem x.lo { mem x.lo with ptr := (mem p).ptr } := by
      rw [joinNext, if_neg hjoin]
    rw [hmem]
    refine ⟨x, l, rfl, ⟨?_, ?_, ?_⟩, fun i hi => hi, Nat.le_refl _, fun a => Interval.covers_cons⟩
    · rw [update_self]
      refine hseg.congr fun q hq => ?_
      rcases List.mem_map.1 hq with ⟨i, hi, rfl⟩
      exact congrArg Header.ptr (hother hi)
    · intro i hi
      rcases List.mem_cons.1 hi with rfl | hi
      · exact hx.congr (by rw [update_self])
      · exact hkeep (fun i hi => hi) i hi
    · -- The first block behind does not touch `x`, and the others are behind that one.
      cases l with
      | nil => exact Interval.sep_cons.2 ⟨nofun, hsep⟩
      | cons j r =>
        have hj : (mem p).ptr = j.lo := hseg.1
        have hle := hbehind j List.mem_cons_self
        have hjlt := (hblock j List.mem_cons_self).lt
        have hne : x.hi ≠ j.lo := by rwa [hx.hi, ← hj]
        refine Interval.sep_cons.2 ⟨fun i hi => ?_, hsep⟩
        rw [Interval.Before]
        rcases List.mem_cons.1 hi with rfl | hi
        · omega
        · have hlt : j.hi < i.lo := (Interval.sep_cons.1 hsep).1 i hi
          omega

/-- A tail becomes the whole list behind `base`. -/
theorem joinPrev_base {y : Interval} {r : List Interval} (htail : Tail L mem y r)
    (hbase : (mem L.base).size = 0) : FreeList L (joinPrev mem L.base y.lo) (y :: r) := by
  have hlow : ∀ i ∈ y :: r, i.lo ≠ L.base := fun i hi => Nat.ne_of_gt (htail.block i hi).low
  have hmem : joinPrev mem L.base y.lo = update mem L.base { mem L.base with ptr := y.lo } := by
    have hy := (htail.block y List.mem_cons_self).low
    rw [joinPrev, hbase, Nat.mul_zero, Nat.add_zero, if_neg (by omega)]
  rw [hmem]
  have hother : ∀ i ∈ y :: r, update mem L.base { mem L.base with ptr := y.lo } i.lo =
      mem i.lo := fun i hi => update_of_ne (hlow i hi) _ _
  refine ⟨⟨rfl, ?_⟩, ?_, ?_, htail.sep⟩
  · rw [next, update_self]
    refine ⟨rfl, ?_⟩
    rw [next, hother y List.mem_cons_self]
    refine htail.seg.congr fun q hq => ?_
    rcases List.mem_map.1 hq with ⟨i, hi, rfl⟩
    exact congrArg Header.ptr (hother i (List.mem_cons_of_mem _ hi))
  · rw [update_self]
    exact hbase
  · exact fun i hi => (htail.block i hi).congr (by rw [hother i hi])

/-- A tail is put behind the block `i`, which it may touch. -/
theorem joinPrev_block {y : Interval} {r : List Interval} (htail : Tail L mem y r)
    (hseg : Seg (next mem) L.base (L.base :: l.map Interval.lo) i.lo)
    (hbase : (mem L.base).size = 0) (hblock : ∀ j ∈ l ++ [i], IsBlock L mem j)
    (hsep : Interval.Sep (l ++ [i])) (hbehind : i.hi ≤ y.lo) : ∃ m,
      FreeList L (joinPrev mem i.lo y.lo) m ∧ i.lo ∈ m.map Interval.lo ∧
        m.length ≤ l.length + r.length + 2 ∧
          ∀ a, Interval.Covers m a ↔ Interval.Covers (l ++ [i]) a ∨ Interval.Covers (y :: r) a := by
  have hi := hblock i (List.mem_append_right _ List.mem_cons_self)
  have hy := htail.block y List.mem_cons_self
  have hilt := hi.lt
  have hylt := hy.lt
  have hbefore := (Interval.sep_append.1 hsep).2.2
  have hafter := (Interval.sep_cons.1 htail.sep).1
  -- Everything else is at other addresses than `i`.
  have hl : ∀ j ∈ l, j.lo ≠ i.lo := by
    intro j hj
    have hlt : j.hi < i.lo := hbefore j hj i List.mem_cons_self
    have hjlt := (hblock j (List.mem_append_left _ hj)).lt
    omega
  have hr : ∀ j ∈ y :: r, j.lo ≠ i.lo := by
    intro j hj
    rcases List.mem_cons.1 hj with rfl | hj
    · omega
    · have hlt : y.hi < j.lo := hafter j hj
      omega
  have hbi : L.base ≠ i.lo := Nat.ne_of_lt hi.low
  have hfront : ∀ {h : Header}, Seg (next (update mem i.lo h)) L.base
      (L.base :: l.map Interval.lo) i.lo := by
    intro h
    refine hseg.congr fun q hq => ?_
    rcases List.mem_cons.1 hq with rfl | hq
    · rw [next, update_of_ne hbi]
    · rcases List.mem_map.1 hq with ⟨j, hj, rfl⟩
      rw [next, update_of_ne (hl j hj)]
  have hback : ∀ {h : Header}, Seg (next (update mem i.lo h)) (mem y.lo).ptr
      (r.map Interval.lo) L.base := by
    intro h
    refine htail.seg.congr fun q hq => ?_
    rcases List.mem_map.1 hq with ⟨j, hj, rfl⟩
    rw [next, update_of_ne (hr j (List.mem_cons_of_mem _ hj))]
  have hkeep : ∀ {h : Header} {j}, IsBlock L mem j → j.lo ≠ i.lo →
      IsBlock L (update mem i.lo h) j :=
    fun hj hne => hj.congr (by rw [update_of_ne hne])
  by_cases hjoin : i.lo + UNIT * (mem i.lo).size = y.lo
  · have hiy : i.hi = y.lo := by rw [hi.hi, hjoin]
    have hmem : joinPrev mem i.lo y.lo = update mem i.lo
        { ptr := (mem y.lo).ptr, size := (mem i.lo).size + (mem y.lo).size } := by
      rw [joinPrev, if_pos hjoin, Nat.mod_eq_of_lt (size_add_lt hi hy hiy)]
    rw [hmem]
    refine ⟨l ++ ⟨i.lo, y.hi⟩ :: r, ⟨?_, ?_, ?_, ?_⟩, ?_, ?_, fun a => ?_⟩
    · rw [List.map_append, List.map_cons, ← List.cons_append]
      refine hfront.append ⟨rfl, ?_⟩
      rw [next, update_self]
      exact hback
    · rw [update_of_ne hbi]
      exact hbase
    · intro j hj
      rcases List.mem_append.1 hj with hj | hj
      · exact hkeep (hblock j (List.mem_append_left _ hj)) (hl j hj)
      · rcases List.mem_cons.1 hj with rfl | hj
        · have hihi := hi.hi
          have hyhi := hy.hi
          have hpos := hi.pos
          simp only [UNIT] at hihi hyhi
          refine ⟨?_, ?_, hi.low, hy.high⟩ <;> simp only [update_self, UNIT] <;> omega
        · exact hkeep (htail.block j (List.mem_cons_of_mem _ hj)) (hr j (List.mem_cons_of_mem _ hj))
    · exact hsep.join htail.sep hilt hylt hbehind
    · rw [List.map_append]
      exact List.mem_append_right _ List.mem_cons_self
    · simp only [List.length_append, List.length_cons]
      omega
    · have hij : (Interval.mk i.lo y.hi).Has a ↔ i.Has a ∨ y.Has a :=
        Interval.has_join (Nat.le_of_lt hilt) (Nat.le_of_lt hylt) hiy
      simp only [Interval.covers_append, Interval.covers_cons, hij, Interval.covers_nil]
      tauto
  · have hmem : joinPrev mem i.lo y.lo = update mem i.lo { mem i.lo with ptr := y.lo } := by
      rw [joinPrev, if_neg hjoin]
    have hiy : i.hi < y.lo := by
      have hne : i.hi ≠ y.lo := by rwa [hi.hi]
      omega
    rw [hmem]
    refine ⟨l ++ i :: y :: r, ⟨?_, ?_, ?_, ?_⟩, ?_, ?_, fun a => ?_⟩
    · rw [List.map_append, List.map_cons, List.map_cons, ← List.cons_append]
      refine hfront.append ⟨rfl, ?_⟩
      rw [next, update_self]
      refine ⟨rfl, ?_⟩
      rw [next, update_of_ne (hr y List.mem_cons_self)]
      exact hback
    · rw [update_of_ne hbi]
      exact hbase
    · intro j hj
      rcases List.mem_append.1 hj with hj | hj
      · exact hkeep (hblock j (List.mem_append_left _ hj)) (hl j hj)
      · rcases List.mem_cons.1 hj with rfl | hj
        · exact hi.congr (by rw [update_self])
        · exact hkeep (htail.block j hj) (hr j hj)
    · exact hsep.behind htail.sep hilt hylt hiy
    · rw [List.map_append]
      exact List.mem_append_right _ List.mem_cons_self
    · simp only [List.length_append, List.length_cons]
      omega
    · simp only [Interval.covers_append, Interval.covers_cons, Interval.covers_nil]
      tauto

/-! ## `free` -/

theorem FreeList.sorted (h : FreeList L mem l) :
    (L.base :: l.map Interval.lo).Pairwise (· < ·) := by
  refine List.pairwise_cons.2 ⟨fun a ha => ?_, ?_⟩
  · rcases List.mem_map.1 ha with ⟨i, hi, rfl⟩
    exact (h.block i hi).low
  · refine List.pairwise_map.2 (h.sep.imp_of_mem fun hi _ hlt => ?_)
    exact Nat.lt_trans (h.block _ hi).lt hlt

/-- What a call leaves as it is: everything but the list and the headers of free blocks. -/
structure Frame (L : Layout) (s t : St) (l : List Interval) (bp : Nat) : Prop where
  brk : t.brk = s.brk
  calls : t.calls = s.calls
  live : t.live = s.live
  obtained : t.obtained = s.obtained
  mem : ∀ a, a ∉ L.base :: l.map Interval.lo → a ≠ bp → t.mem a = s.mem a

theorem join_of_ne {a : Nat} (hp : a ≠ p) (hbp : a ≠ bp) :
    joinPrev (joinNext mem p bp) p bp a = mem a := by
  have hprev : ∀ mem : Nat → Header, joinPrev mem p bp a = mem a := by
    intro mem
    unfold joinPrev
    split <;> exact update_of_ne hp _ _
  have hnext : joinNext mem p bp a = mem a := by
    unfold joinNext
    split <;> exact update_of_ne hbp _ _
  rw [hprev, hnext]

theorem joinNext_of_ne {a : Nat} (ha : a ≠ bp) : joinNext mem p bp a = mem a := by
  unfold joinNext
  split <;> exact update_of_ne ha _ _

/-- The call returns with the block `x` as part of the list. -/
def Released (L : Layout) (fuel : Nat) (s : St) (l : List Interval) (x : Interval) : Prop :=
  ∃ t m, release fuel s x.lo = some t ∧ FreeList L t.mem m ∧
    t.freep ∈ L.base :: m.map Interval.lo ∧ m.length ≤ l.length + 1 ∧
      (∀ a, Interval.Covers m a ↔ Interval.Covers l a ∨ x.Has a) ∧ Frame L s t l x.lo

theorem lo_behind (hx : IsBlock L mem x) (hright : ∀ i ∈ l, x.hi ≤ i.lo) :
    ∀ r ∈ l.map Interval.lo, x.lo < r := by
  intro r hr
  rcases List.mem_map.1 hr with ⟨i, hi, rfl⟩
  exact Nat.lt_of_lt_of_le hx.lt (hright i hi)

theorem release_first {s : St} (h : FreeList L s.mem l)
    (hfreep : s.freep ∈ L.base :: l.map Interval.lo) (hx : IsBlock L s.mem x)
    (hright : ∀ i ∈ l, x.hi ≤ i.lo) (hfuel : l.length + 1 < fuel) : Released L fuel s l x := by
  have hseg : Seg (next s.mem) L.base ([] ++ L.base :: l.map Interval.lo) L.base := h.seg
  have hplace : place s.mem x.lo fuel s.freep = some L.base := by
    refine place_spec hseg h.sorted (Nat.le_refl _) nofun hx.low (lo_behind hx hright) hfreep ?_
    rw [List.nil_append, List.length_cons, List.length_map]
    exact hfuel
  rcases joinNext_spec hseg.mid.2 h.block h.sep hx hright with ⟨y, r, hy, htail, hsub, hlen, hcover⟩
  have hlist := joinPrev_base htail (by rw [joinNext_of_ne (Nat.ne_of_lt hx.low)]; exact h.base)
  rw [hy] at hlist
  have hrel : release fuel s x.lo = some { s with
      mem := joinPrev (joinNext s.mem L.base x.lo) L.base x.lo, freep := L.base } := by
    rw [release, hplace, Option.map_some]
  refine ⟨_, y :: r, hrel, hlist, List.mem_cons_self,
    Nat.succ_le_succ hlen, fun a => (hcover a).trans or_comm, rfl, rfl, rfl, rfl, ?_⟩
  exact fun a ha hne => join_of_ne (fun heq => ha (heq ▸ List.mem_cons_self)) hne

theorem release_after {s : St} (h : FreeList L s.mem ((l₁ ++ [i]) ++ l₂))
    (hfreep : s.freep ∈ L.base :: ((l₁ ++ [i]) ++ l₂).map Interval.lo) (hx : IsBlock L s.mem x)
    (hleft : i.hi ≤ x.lo) (hright : ∀ j ∈ l₂, x.hi ≤ j.lo)
    (hfuel : ((l₁ ++ [i]) ++ l₂).length + 1 < fuel) :
    Released L fuel s ((l₁ ++ [i]) ++ l₂) x := by
  have hmap : L.base :: ((l₁ ++ [i]) ++ l₂).map Interval.lo =
      (L.base :: l₁.map Interval.lo) ++ i.lo :: l₂.map Interval.lo := by
    simp only [List.map_append, List.map_cons, List.append_assoc, List.cons_append, List.nil_append]
  have hseg := h.seg
  have hsorted := h.sorted
  rw [hmap] at hseg hsorted hfreep
  have hi : IsBlock L s.mem i := h.block i (by simp)
  have hilt := hi.lt
  have hfirst : ∀ r ∈ L.base :: l₁.map Interval.lo, r < x.lo := by
    intro r hr
    have hlt := (List.pairwise_append.1 hsorted).2.2 r hr i.lo List.mem_cons_self
    omega
  have hplace : place s.mem x.lo fuel s.freep = some i.lo := by
    refine place_spec hseg hsorted (Nat.le_of_lt hi.low) hfirst (by omega) (lo_behind hx hright)
      hfreep ?_
    rw [← hmap, List.length_cons, List.length_map]
    exact hfuel
  rcases Interval.sep_append.1 h.sep with ⟨hsep₁, hsep₂, -⟩
  rcases joinNext_spec hseg.mid.2 (fun j hj => h.block j (List.mem_append_right _ hj)) hsep₂ hx
    hright with ⟨y, r, hy, htail, hsub, hlen, hcover⟩
  -- Before `x` nothing has changed yet.
  have hfront : Seg (next (joinNext s.mem i.lo x.lo)) L.base (L.base :: l₁.map Interval.lo) i.lo :=
    hseg.mid.1.congr fun q hq => congrArg Header.ptr (joinNext_of_ne (Nat.ne_of_lt (hfirst q hq)))
  have hblock : ∀ j ∈ l₁ ++ [i], IsBlock L (joinNext s.mem i.lo x.lo) j := by
    intro j hj
    refine (h.block j (List.mem_append_left _ hj)).congr ?_
    rw [joinNext_of_ne]
    rcases List.mem_append.1 hj with hj | hj
    · exact Nat.ne_of_lt (hfirst _ (List.mem_cons_of_mem _ (List.mem_map_of_mem hj)))
    · rw [List.mem_singleton.1 hj]
      omega
  rcases joinPrev_block htail hfront
    (by rw [joinNext_of_ne (Nat.ne_of_lt hx.low)]; exact h.base) hblock hsep₁
    (by rw [hy]; exact hleft)
    with ⟨m, hlist, hmem, hlen', hcover'⟩
  rw [hy] at hlist
  have hrel : release fuel s x.lo = some { s with
      mem := joinPrev (joinNext s.mem i.lo x.lo) i.lo x.lo, freep := i.lo } := by
    rw [release, hplace, Option.map_some]
  refine ⟨_, m, hrel, hlist, List.mem_cons_of_mem _ hmem,
    ?_, fun a => ?_, rfl, rfl, rfl, rfl, fun a ha hne => join_of_ne (fun heq => ha ?_) hne⟩
  · simp only [List.length_append, List.length_cons, List.length_nil]
    omega
  · rw [hcover', hcover]
    simp only [Interval.covers_append]
    tauto
  · rw [heq, hmap]
    exact List.mem_append_right _ List.mem_cons_self

theorem release_spec {s : St} (h : FreeList L s.mem l)
    (hfreep : s.freep ∈ L.base :: l.map Interval.lo) (hx : IsBlock L s.mem x)
    (hapart : ∀ i ∈ l, i.Apart x) (hfuel : l.length + 1 < fuel) : Released L fuel s l x := by
  rcases h.sep.split (fun i hi => (h.block i hi).lt) hapart with ⟨l₁, l₂, rfl, hleft, hright⟩
  rcases List.eq_nil_or_concat' l₁ with rfl | ⟨l', i, rfl⟩
  · exact release_first h hfreep hx hright hfuel
  · exact release_after h hfreep hx (hleft i (by simp)) hright hfuel

end Xv6.Umalloc
