import Xv6.Umalloc.Heap

/-!
# Alloc — `malloc` on the user heap

`malloc` goes once around the free list from `freep`.  If there is no block that is large enough,
`morecore` puts one into the list, and the second time around finds it.
-/

namespace Xv6.Umalloc

open Lib
open Function (update update_of_ne update_self)

variable {L : Layout} {o : Oracle} {s t : St} {mem : Nat → Header} {i j y : Interval}
variable {l m l₁ l₂ : List Interval} {p q prevp n fuel : Nat}

/-! ## Taking a block -/

/-- `y` has been cut off from the end of a block of the list `l`, which leaves `m`. -/
structure Taken (L : Layout) (s t : St) (l m : List Interval) (y : Interval) (n : Nat) : Prop where
  list : FreeList L t.mem m
  freep : t.freep ∈ L.base :: m.map Interval.lo
  size : (t.mem y.lo).size = n
  hi : y.hi = y.lo + UNIT * n
  low : L.base < y.lo
  high : y.hi ≤ LIMIT
  apart : ∀ j ∈ m, j.Apart y
  cover : ∀ a, Interval.Covers l a ↔ Interval.Covers m a ∨ y.Has a
  brk : t.brk = s.brk
  live : t.live = s.live
  obtained : t.obtained = s.obtained
  mem : ∀ a, a ∉ L.base :: l.map Interval.lo → a ≠ y.lo → t.mem a = s.mem a

/-- The list without the block `i`: `prevp` is linked to what comes behind it. -/
theorem unlink_list {as : List Nat} (h : FreeList L mem (l₁ ++ i :: l₂))
    (hprev : L.base :: l₁.map Interval.lo = as ++ [prevp]) :
    FreeList L (update mem prevp { mem prevp with ptr := (mem i.lo).ptr }) (l₁ ++ l₂) := by
  have hmap : L.base :: (l₁ ++ i :: l₂).map Interval.lo =
      as ++ prevp :: i.lo :: l₂.map Interval.lo := by
    rw [List.map_append, ← List.cons_append, hprev, List.append_assoc]
    rfl
  have hmap' : L.base :: (l₁ ++ l₂).map Interval.lo = as ++ prevp :: l₂.map Interval.lo := by
    rw [List.map_append, ← List.cons_append, hprev, List.append_assoc]
    rfl
  have hseg := h.seg
  have hsorted := h.sorted
  rw [hmap] at hseg hsorted
  rcases List.pairwise_append.1 hsorted with ⟨-, hsorted', hbefore⟩
  have hprevlt := (List.pairwise_cons.1 hsorted').1
  have hsize : ∀ a, (update mem prevp { mem prevp with ptr := (mem i.lo).ptr } a).size =
      (mem a).size := by
    intro a
    by_cases ha : a = prevp
    · rw [ha, update_self]
    · rw [update_of_ne ha]
  have hsub : ∀ j ∈ l₁ ++ l₂, j ∈ l₁ ++ i :: l₂ := by
    intro j hj
    rcases List.mem_append.1 hj with hj | hj
    · exact List.mem_append_left _ hj
    · exact List.mem_append_right _ (List.mem_cons_of_mem _ hj)
  refine ⟨?_, (hsize _).trans h.base, fun j hj => (h.block j (hsub j hj)).congr (hsize _), ?_⟩
  · rw [hmap']
    refine Seg.append (hseg.mid.1.congr fun q hq => ?_) ⟨rfl, ?_⟩
    · exact congrArg Header.ptr
        (update_of_ne (Nat.ne_of_lt (hbefore q hq prevp List.mem_cons_self)) _ _)
    · rw [next, update_self]
      refine hseg.mid.2.2.congr fun q hq => ?_
      exact congrArg Header.ptr (update_of_ne
        (Nat.ne_of_gt (hprevlt q (List.mem_cons_of_mem _ hq))) _ _)
  · rcases Interval.sep_append.1 h.sep with ⟨hsep₁, hsep₂, hcross⟩
    exact Interval.sep_append.2 ⟨hsep₁, (Interval.sep_cons.1 hsep₂).2, fun j hj k hk =>
      hcross j hj k (List.mem_cons_of_mem _ hk)⟩

/-- The block `i` ends at `q`, where another block of `n` units begins. -/
theorem shrink_list (h : FreeList L mem (l₁ ++ i :: l₂)) (hn : n < (mem i.lo).size) (hpos : 0 < n)
    (hq : i.lo + UNIT * ((mem i.lo).size - n) = q) :
    FreeList L (update (update mem i.lo
        { mem i.lo with size := (mem i.lo).size - n }) q { mem q with size := n })
      (l₁ ++ ⟨i.lo, q⟩ :: l₂) := by
  have hi : IsBlock L mem i := h.block i (by simp)
  have hihi := hi.hi
  have hhigh := hi.high
  simp only [UNIT] at hihi hq
  have hafter : ∀ j ∈ l₂, i.hi < j.lo := fun j hj => h.lt_lo hj
  have hbefore : ∀ j ∈ l₁, j.hi < i.lo := fun j hj => h.lo_lt hj
  have hne : i.lo ≠ q := by omega
  -- Only the size of `i` has changed at the addresses of the list.
  have hold : ∀ a, a ≠ i.lo → a ≠ q → update (update mem i.lo
      { mem i.lo with size := (mem i.lo).size - n }) q { mem q with size := n } a = mem a := by
    intro a ha haq
    rw [update_of_ne haq, update_of_ne ha]
  have hptr : ∀ a, (update (update mem i.lo
      { mem i.lo with size := (mem i.lo).size - n }) q { mem q with size := n } a).ptr =
        (mem a).ptr := by
    intro a
    by_cases haq : a = q
    · rw [haq, update_self]
    · by_cases ha : a = i.lo
      · rw [ha, update_of_ne hne, update_self]
      · rw [hold a ha haq]
  have hother : ∀ j ∈ l₁ ++ l₂, j.lo ≠ i.lo ∧ j.lo ≠ q := by
    intro j hj
    rcases List.mem_append.1 hj with hj | hj
    · have hlt := hbefore j hj
      have hjlt := (h.block j (List.mem_append_left _ hj)).lt
      omega
    · have hlt := hafter j hj
      omega
  refine ⟨?_, ?_, ?_, ?_⟩
  · have hseg := h.seg.congr fun a _ => hptr a
    rw [List.map_append, List.map_cons] at hseg ⊢
    exact hseg
  · have hlow := hi.low
    rw [hold _ (by omega) (by omega)]
    exact h.base
  · intro j hj
    rcases List.mem_append.1 hj with hj | hj
    · rcases hother j (List.mem_append_left _ hj) with ⟨h₁, h₂⟩
      exact (h.block j (List.mem_append_left _ hj)).congr (by rw [hold _ h₁ h₂])
    · rcases List.mem_cons.1 hj with rfl | hj
      · refine ⟨?_, ?_, hi.low, ?_⟩
        all_goals simp only [update_of_ne hne, update_self, UNIT]
        all_goals omega
      · rcases hother j (List.mem_append_right _ hj) with ⟨h₁, h₂⟩
        exact (h.block j (by simp [hj])).congr (by rw [hold _ h₁ h₂])
  · rcases Interval.sep_append.1 h.sep with ⟨hsep₁, hsep₂, hcross⟩
    refine Interval.sep_append.2 ⟨hsep₁, Interval.sep_cons.2 ⟨fun j hj => ?_,
      (Interval.sep_cons.1 hsep₂).2⟩, fun j hj k hk => ?_⟩
    · have hlt := hafter j hj
      simp only [Interval.Before]
      omega
    · rcases List.mem_cons.1 hk with rfl | hk
      · exact hbefore j hj
      · exact hcross j hj k (List.mem_cons_of_mem _ hk)

theorem take_spec {as : List Nat} (h : FreeList L s.mem (l₁ ++ i :: l₂))
    (hprev : L.base :: l₁.map Interval.lo = as ++ [prevp]) (hn : n ≤ (s.mem i.lo).size)
    (hpos : 0 < n) : ∃ t m y, take s prevp i.lo n = (y.lo + UNIT, t) ∧
      Taken L s t (l₁ ++ i :: l₂) m y n := by
  have hi : IsBlock L s.mem i := h.block i (by simp)
  have hihi := hi.hi
  have hhigh := hi.high
  have hlow := hi.low
  have hafter : ∀ j ∈ l₂, i.hi < j.lo := fun j hj => h.lt_lo hj
  have hbefore : ∀ j ∈ l₁, j.hi < i.lo := fun j hj => h.lo_lt hj
  have hin : prevp ∈ L.base :: l₁.map Interval.lo := by
    rw [hprev]
    exact List.mem_append_right _ List.mem_cons_self
  have hprevmem : ∀ m, prevp ∈ L.base :: (l₁ ++ m).map Interval.lo := by
    intro m
    rw [List.map_append, ← List.cons_append]
    exact List.mem_append_left _ hin
  by_cases heq : (s.mem i.lo).size = n
  · have htake : take s prevp i.lo n = (i.lo + UNIT, { s with
        mem := update s.mem prevp { s.mem prevp with ptr := (s.mem i.lo).ptr }
        freep := prevp }) := by
      rw [take, if_pos heq]
    have hne : i.lo ≠ prevp := by
      rcases List.mem_cons.1 hin with heq | hmem
      · omega
      · rcases List.mem_map.1 hmem with ⟨j, hj, rfl⟩
        have hlt := hbefore j hj
        have hjlt := (h.block j (List.mem_append_left _ hj)).lt
        omega
    refine ⟨_, l₁ ++ l₂, i, htake, unlink_list h hprev, hprevmem _, ?_, ?_, hlow, hhigh, ?_,
      fun a => ?_, rfl, rfl, rfl, fun a ha _ => ?_⟩
    · exact (congrArg Header.size (update_of_ne hne _ _)).trans heq
    · rw [hihi, heq]
    · intro j hj
      rcases List.mem_append.1 hj with hj | hj
      · exact .inl (Nat.le_of_lt (hbefore j hj))
      · exact .inr (Nat.le_of_lt (hafter j hj))
    · simp only [Interval.covers_append, Interval.covers_cons]
      tauto
    · refine update_of_ne (fun heq => ha ?_) _ _
      rw [heq]
      exact hprevmem _
  · have hlt : n < (s.mem i.lo).size := by omega
    generalize hq : i.lo + UNIT * ((s.mem i.lo).size - n) = q
    have hqi : i.lo < q ∧ i.hi = q + UNIT * n := by
      simp only [UNIT] at *
      omega
    have htake : take s prevp i.lo n = (q + UNIT, { s with
        mem := update (update s.mem i.lo
          { s.mem i.lo with size := (s.mem i.lo).size - n }) q { s.mem q with size := n }
        freep := prevp }) := by
      rw [take, if_neg heq]
      simp only [hq, update_of_ne (Nat.ne_of_gt hqi.1)]
    refine ⟨_, l₁ ++ ⟨i.lo, q⟩ :: l₂, ⟨q, i.hi⟩, htake, shrink_list h hlt hpos hq, hprevmem _, ?_,
      hqi.2, by simp only; omega, hhigh, ?_, fun a => ?_, rfl, rfl, rfl, fun a ha hne => ?_⟩
    · simp only [update_self]
    · intro j hj
      rcases List.mem_append.1 hj with hj | hj
      · have hlt := hbefore j hj
        exact Or.inl (by simp only; omega)
      · rcases List.mem_cons.1 hj with rfl | hj
        · exact Or.inl (Nat.le_refl _)
        · exact Or.inr (Nat.le_of_lt (hafter j hj))
    · have hjoin : i.Has a ↔ (Interval.mk i.lo q).Has a ∨ (Interval.mk q i.hi).Has a := by
        simp only [Interval.Has]
        omega
      simp only [Interval.covers_append, Interval.covers_cons, hjoin]
      tauto
    · have hai : a ≠ i.lo := by
        rintro rfl
        exact ha (List.mem_cons_of_mem _ (List.mem_map_of_mem (by simp)))
      exact (update_of_ne hne _ _).trans (update_of_ne hai _ _)

/-! ## Searching -/

section Search

variable {ps : List Nat}

/-- The search goes on to the first block that is large enough. -/
theorem search_of_seg (hseg : Seg (next s.mem) p ps q) (hprev : (s.mem prevp).ptr = p)
    (hps : ∀ r ∈ ps, (s.mem r).size < n ∧ r ≠ s.freep) (hq : n ≤ (s.mem q).size)
    (hfuel : ps.length < fuel) : ∃ r, search o n fuel s prevp p = some (take s r q n) ∧
      (s.mem r).ptr = q ∧ r ∈ prevp :: ps := by
  induction ps generalizing p prevp fuel with
  | nil =>
    cases hseg
    cases fuel with
    | zero => exact absurd hfuel (Nat.not_lt_zero _)
    | succ fuel => exact ⟨prevp, by rw [search, if_pos hq], hprev, List.mem_cons_self⟩
  | cons r ps ih =>
    rcases hseg with ⟨rfl, hseg⟩
    cases fuel with
    | zero => exact absurd hfuel (Nat.not_lt_zero _)
    | succ fuel =>
      rcases hps p List.mem_cons_self with ⟨hsmall, hne⟩
      rcases ih hseg rfl (fun r hr => hps r (List.mem_cons_of_mem _ hr))
        (Nat.lt_of_succ_lt_succ hfuel) with ⟨r, hsearch, hnext, hmem⟩
      refine ⟨r, ?_, hnext, List.mem_cons_of_mem _ hmem⟩
      rw [search, if_neg (Nat.not_le_of_lt hsmall), if_neg hne]
      exact hsearch

/-- Back at `freep` without success, the search asks for more memory. -/
theorem search_of_round (ps : List Nat) (hseg : Seg (next s.mem) p ps s.freep)
    (hps : ∀ r ∈ ps, (s.mem r).size < n ∧ r ≠ s.freep) (hfreep : (s.mem s.freep).size < n) :
    search o n (fuel + 1 + ps.length) s prevp p =
      match morecore o fuel s n with
      | some (q, t) => if q = 0 then some (0, t) else search o n fuel t q (t.mem q).ptr
      | none => none := by
  induction ps generalizing p prevp with
  | nil =>
    cases hseg
    exact (if_neg (Nat.not_le_of_lt hfreep)).trans (if_pos rfl)
  | cons r ps ih =>
    rcases hseg with ⟨rfl, hseg⟩
    rcases hps p List.mem_cons_self with ⟨hsmall, hne⟩
    rw [List.length_cons, ← Nat.add_assoc, search, if_neg (Nat.not_le_of_lt hsmall), if_neg hne]
    exact ih hseg fun r hr => hps r (List.mem_cons_of_mem _ hr)

/-- Once around the list: the nodes behind `freep`, and at last `freep` itself. -/
theorem FreeList.round (h : FreeList L s.mem l) (hfreep : s.freep ∈ L.base :: l.map Interval.lo) :
    ∃ ps, Seg (next s.mem) (s.mem s.freep).ptr ps s.freep ∧ ps.length = l.length ∧
      s.freep ∉ ps ∧ (∀ r, r ∈ ps ++ [s.freep] ↔ r ∈ L.base :: l.map Interval.lo) := by
  have hnodup : (L.base :: l.map Interval.lo).Nodup := h.sorted.imp fun hlt => Nat.ne_of_lt hlt
  have hlen : (L.base :: l.map Interval.lo).length = l.length + 1 := by
    rw [List.length_cons, List.length_map]
  have hseg := h.seg
  generalize L.base :: l.map Interval.lo = as at *
  rcases List.append_of_mem hfreep with ⟨u, v, rfl⟩
  refine ⟨v ++ u, hseg.rotate, ?_, ?_, fun r => ?_⟩
  · simp only [List.length_append, List.length_cons] at hlen ⊢
    omega
  · have hswap : (s.freep :: v ++ u).Nodup := List.nodup_append_comm.1 hnodup
    exact (List.nodup_cons.1 hswap).1
  · simp only [List.mem_append, List.mem_cons, List.not_mem_nil, or_false]
    tauto

theorem pred_of_next (h : FreeList L s.mem (l₁ ++ i :: l₂))
    (hp : prevp ∈ L.base :: (l₁ ++ i :: l₂).map Interval.lo) (hnext : (s.mem prevp).ptr = i.lo) :
    ∃ as, L.base :: l₁.map Interval.lo = as ++ [prevp] := by
  rcases List.eq_nil_or_concat' (L.base :: l₁.map Interval.lo) with hnil | ⟨as, r, has⟩
  · cases hnil
  · have hmap : L.base :: (l₁ ++ i :: l₂).map Interval.lo =
        as ++ r :: i.lo :: l₂.map Interval.lo := by
      rw [List.map_append, ← List.cons_append, has, List.append_assoc]
      rfl
    have hseg := h.seg
    rw [hmap] at hseg
    have hr : (s.mem r).ptr = i.lo := hseg.mid.2.1
    have hnodup : (L.base :: (l₁ ++ i :: l₂).map Interval.lo).Nodup :=
      h.sorted.imp fun hlt => Nat.ne_of_lt hlt
    have heq : prevp = r := by
      refine h.seg.next_inj hnodup hp ?_ (hnext.trans hr.symm)
      rw [hmap]
      exact List.mem_append_right _ List.mem_cons_self
    exact ⟨as, heq ▸ has⟩

/-- If there is a block that is large enough, the search takes one. -/
theorem search_finds (h : FreeList L s.mem l) (hfreep : s.freep ∈ L.base :: l.map Interval.lo)
    (hex : ∃ i ∈ l, n ≤ (s.mem i.lo).size) (hpos : 0 < n) (hfuel : l.length < fuel) : ∃ t m y,
      search o n fuel s s.freep (s.mem s.freep).ptr = some (y.lo + UNIT, t) ∧
        Taken L s t l m y n := by
  rcases h.round hfreep with ⟨ps, hseg, hlen, hnot, hmem⟩
  rcases hex with ⟨i, hi, hn⟩
  have hex : ((ps ++ [s.freep]).find? fun a => n ≤ (s.mem a).size).isSome = true :=
    List.find?_isSome.2 ⟨i.lo, (hmem _).2 (List.mem_cons_of_mem _ (List.mem_map_of_mem hi)),
      decide_eq_true hn⟩
  rcases Option.isSome_iff_exists.1 hex with ⟨q, hfind⟩
  rcases List.find?_eq_some_iff_append.1 hfind with ⟨hq, u, v, huv, hu⟩
  simp only [decide_eq_true_eq, Bool.not_eq_true', decide_eq_false_iff_not] at hq hu
  -- The nodes before the first large one come before `freep` as well.
  have hups : ∀ r ∈ u, r ∈ ps := by
    rcases List.eq_nil_or_concat' v with rfl | ⟨w, z, rfl⟩
    · intro r hr
      rwa [(List.append_inj' huv rfl).1]
    · intro r hr
      rw [← List.cons_append, ← List.append_assoc] at huv
      rw [(List.append_inj' huv rfl).1]
      exact List.mem_append_left _ hr
  have hround : Seg (next s.mem) (s.mem s.freep).ptr (ps ++ [s.freep]) (s.mem s.freep).ptr :=
    hseg.append ⟨rfl, rfl⟩
  rw [huv] at hround
  have hulen : u.length < fuel := by
    have hle := congrArg List.length huv
    simp only [List.length_append, List.length_cons, List.length_nil] at hle
    omega
  rcases search_of_seg (o := o) hround.mid.1 rfl (fun r hr => ⟨Nat.lt_of_not_le (hu r hr),
    fun heq => hnot (heq ▸ hups r hr)⟩) hq hulen with ⟨prevp, hsearch, hnext, hprev⟩
  have hprevmem : prevp ∈ L.base :: l.map Interval.lo := by
    rcases List.mem_cons.1 hprev with rfl | hprev
    · exact hfreep
    · exact (hmem _).1 (List.mem_append_left _ (hups prevp hprev))
  have hqmem : q ∈ L.base :: l.map Interval.lo := by
    rw [← hmem, huv]
    exact List.mem_append_right _ List.mem_cons_self
  -- `base` is too small, so it is a block of the list.
  rcases List.mem_cons.1 hqmem with rfl | hqmem
  · have hzero := h.base
    omega
  rcases List.mem_map.1 hqmem with ⟨j, hj, rfl⟩
  rcases List.append_of_mem hj with ⟨l₁, l₂, rfl⟩
  rcases pred_of_next h hprevmem hnext with ⟨as, has⟩
  rcases take_spec h has hq hpos with ⟨t, m, y, htake, htaken⟩
  exact ⟨t, m, y, by rw [hsearch, htake], htaken⟩

end Search

end Xv6.Umalloc
