import Xv6.Umalloc.Runs
import Xv6.Vm.Grow

/-!
# Requests — the requests that `malloc` can serve

The number of bytes that `morecore` asks for is an `int` to `sbrk`.  A request so large that the
number is not one becomes a request for less memory, or for none, or gives memory back, and `malloc`
returns a block that it does not have.
-/

namespace Xv6.Umalloc

open Lib

variable {L : Layout} {o : Oracle} {s t : St} {l : List Interval} {n nbytes : Nat}

/-- The call returns 0, or the bytes that were asked for: `sbrk` has returned them, and they are in
no other block.  The process has not become smaller. -/
def Served (L : Layout) (o : Oracle) (s : St) (nbytes : Nat) : Prop :=
  ∃ p t, malloc L o fuel s nbytes = some (p, t) ∧ Grown o s t ∧
    (p ≠ 0 → ∀ a, p ≤ a → a < p + nbytes →
      Interval.Covers t.obtained a ∧ ∀ x ∈ s.live, ¬ x.block.Has a)

theorem Inv.served (h : Inv L s l) (hn : nunits nbytes * UNIT < 2 ^ 31) : Served L o s nbytes := by
  rcases malloc_spec (o := o) h hn h.enough_fuel with ⟨p, t, m, hmalloc, ht, hgrown, -, hblock⟩
  refine ⟨p, t, hmalloc, hgrown, fun hp a hlo hhi => ?_⟩
  rcases hblock hp with ⟨hle, hlive⟩
  have hhas : (Live.block ⟨p - UNIT, nbytes⟩).Has a := by
    simp only [Live.block, Interval.Has, nunits, UNIT] at *
    omega
  have hx : (⟨p - UNIT, nbytes⟩ : Live) ∈ t.live := hlive ▸ List.mem_cons_self
  constructor
  · rw [← ht.cover]
    exact ⟨_, List.mem_append_right _ (List.mem_map_of_mem hx), hhas⟩
  · intro x hmem
    have hapart := ht.live_apart
    rw [hlive] at hapart
    exact (List.rel_of_pairwise_cons hapart hmem).not_has hhas

/-! ## The `sbrk` of the kernel -/

/-- What the kernel answers to a process whose heap ends where the process does, and what size the
process then has, is an answer of the model. -/
theorem sysSbrk_sbrkInt {kend : Kalloc.KernelEnd} {m : Vm.Mem} {p : Vm.Task}
    (h : Vm.Space kend m p.pagetable (Vm.pages p.sz)) (hbrk : s.brk = p.sz) (n : Int32) :
    ∃ o r p' m', Vm.sysSbrk kend p n m = .ok (r, p') m' ∧
      (sbrkInt o s (n.toInt % 2 ^ 32).toNat).1.elim (-1) Nat.cast = r ∧
      (sbrkInt o s (n.toInt % 2 ^ 32).toNat).2.brk = p'.sz := by
  rcases Prog.exists_of_wp (Vm.sysSbrk_spec h n) fun _ he => he with
    ⟨⟨r, p'⟩, m', hcall, htable, -, hchange, hexact, hres, hsame⟩
  dsimp only at htable hchange hexact hres hsame
  have hn := Vm.toInt_bounds n
  have hle := hchange.space.sz_le
  by_cases hpos : 0 < n.toInt
  · have hint : 0 < (n.toInt % 2 ^ 32).toNat ∧ (n.toInt % 2 ^ 32).toNat < 2 ^ 31 := by omega
    rcases hexact (by omega) with ⟨hr, hp, -⟩ | ⟨hr, -, hsz, -⟩
    · refine ⟨fun _ => none, r, p', m', hcall, ?_⟩
      rw [sbrkInt, if_pos hint]
      exact ⟨hr.symm, hbrk.trans (congrArg _ hp.symm)⟩
    · refine ⟨fun _ => some 0, r, p', m', hcall, ?_⟩
      have hroom : s.brk + 0 + (n.toInt % 2 ^ 32).toNat ≤ LIMIT := by
        simp only [LIMIT, UNIT]
        omega
      rw [sbrkInt, if_pos hint]
      simp only [sbrk]
      rw [if_pos hroom, hr, ← hbrk]
      refine ⟨rfl, ?_⟩
      dsimp only
      omega
  · have hint : ¬ (0 < (n.toInt % 2 ^ 32).toNat ∧ (n.toInt % 2 ^ 32).toNat < 2 ^ 31) := by omega
    refine ⟨fun _ => none, r, p', m', hcall, ?_⟩
    rw [sbrkInt, if_neg hint, hres (by omega)]
    refine ⟨congrArg _ hbrk, ?_⟩
    dsimp only [Option.getD_none]
    by_cases hneg : p.sz + n.toInt < 0
    · rw [(hsame hneg).1, if_neg (by omega)]
      exact hbrk
    · rcases hexact (by omega) with ⟨hr, -⟩ | ⟨-, -, hsz, -⟩
      · have hr' := hres (by omega)
        omega
      · rw [if_pos (by omega)]
        omega

/-! ## A request that is too large -/

section TooLarge

/-- A heap whose end is not that of a page. -/
def unaligned : Layout :=
  ⟨16, 6144, by decide, by decide⟩

def grants : Oracle := fun _ => some 0

/-- The first request finds no block. -/
def first (mem : Nat → Header) : St :=
  { boot unaligned mem with
    mem := Function.update mem 16 { ptr := 16, size := 0 }
    freep := 16 }

/-- What `sbrk` returns begins at the end of the heap, and it is less than what `morecore` needs. -/
theorem sbrkInt_first (mem : Nat → Header) (hn : 2 ^ 31 ≤ n) : ∃ t,
    sbrkInt grants (first mem) (n % 2 ^ 32) = (some 6144, t) ∧ t.mem = (first mem).mem ∧
      t.freep = 16 ∧ ∀ a, 6144 + n ≤ a + 2 ^ 31 → ¬ Interval.Covers t.obtained a := by
  unfold sbrkInt
  split
  · rename_i hint
    have hroom : (first mem).brk + 0 + n % 2 ^ 32 ≤ LIMIT := by
      simp only [first, boot, unaligned, LIMIT, UNIT]
      omega
    simp only [sbrk, grants]
    rw [if_pos hroom]
    refine ⟨_, rfl, rfl, rfl, ?_⟩
    rintro a ha ⟨i, hi, hhas⟩
    rcases List.mem_cons.1 hi with rfl | hi
    · simp only [Interval.Has, first, boot, unaligned] at hhas
      omega
    · cases hi
  · exact ⟨_, rfl, rfl, rfl, fun _ _ h => by rcases h with ⟨_, hi, _⟩; cases hi⟩

theorem release_new {k : Nat} (hbase : s.mem 16 = ⟨16, 0⟩) (hsize : (s.mem 6144).size = n)
    (hfreep : s.freep = 16) : ∃ u, release (k + 1) s 6144 = some u ∧
      u.freep = 16 ∧ (u.mem 16).ptr = 6144 ∧ (u.mem 6144).size = n ∧ u.obtained = s.obtained := by
  have hplace : place s.mem 6144 (k + 1) s.freep = some 16 := by
    simp [place, hfreep, hbase]
  have hlink : 6144 + UNIT * n ≠ 16 := by omega
  refine ⟨{ s with mem := joinPrev (joinNext s.mem 16 6144) 16 6144, freep := 16 },
    by rw [release, hplace, Option.map_some], rfl, ?_, ?_, rfl⟩
  · simp [joinPrev, joinNext, hbase, hsize, hlink]
  · simp [joinPrev, joinNext, hbase, hsize, hlink]

/-- The call takes a block of the size that it needs, of which `sbrk` has not returned the end. -/
theorem not_served_first (mem : Nat → Header) (hn : 2 ^ 31 ≤ nunits nbytes * UNIT) :
    ¬ Served unaligned grants (boot unaligned mem) nbytes := by
  rintro ⟨p, t, hmalloc, -, hbytes⟩
  have hcore : coreUnits (nunits nbytes) = nunits nbytes := by
    rw [coreUnits, if_neg]
    simp only [UNIT] at hn
    omega
  have hpos : 0 < nunits nbytes := Nat.succ_pos _
  obtain ⟨k, hk⟩ : ∃ k, fuel = k + 1 + 1 := ⟨fuel - 2, rfl⟩
  rcases sbrkInt_first mem hn with ⟨u, hsbrk, hmem, hfreep, hcover⟩
  generalize hw : ({ u with
    mem := Function.update u.mem 6144 { u.mem 6144 with size := nunits nbytes } } : St) = w
  have hbase : w.mem 16 = ⟨16, 0⟩ := by
    rw [← hw, hmem]
    rfl
  have hsize : (w.mem 6144).size = nunits nbytes := by
    rw [← hw]
    rfl
  have hwfreep : w.freep = 16 := hw ▸ hfreep
  have hwobt : w.obtained = u.obtained := hw ▸ rfl
  rcases release_new (k := k) hbase hsize hwfreep with ⟨v, hrel, hvfreep, hvptr, hvsize, hvobt⟩
  have hmore : morecore grants (k + 1) (first mem) (nunits nbytes) =
      if inPages u.brk (6144 + UNIT) then some (16, v) else none := by
    rw [morecore, hcore, hsbrk]
    simp only [hw, hrel, Option.map_some, hvfreep]
  have hround : search grants (nunits nbytes) (k + 1 + 1) (first mem) 16 16 = _ :=
    search_of_round [] rfl (fun _ h => by cases h) (by simpa [first] using hpos)
  have hcall : malloc unaligned grants fuel (boot unaligned mem) nbytes =
      (search grants (nunits nbytes) fuel (first mem) 16 16).map fun r =>
        (r.1, if r.1 = 0 then r.2
          else { r.2 with live := { addr := r.1 - UNIT, nbytes := nbytes } :: r.2.live }) := by
    simp only [malloc, boot, if_pos, first, unaligned, Function.update_self]
  rw [hcall, hk, hround, hmore] at hmalloc
  by_cases hpage : inPages u.brk (6144 + UNIT)
  · -- The header can be written, and the block is found at once.
    rw [if_pos hpage] at hmalloc
    have hfound : search grants (nunits nbytes) (k + 1) v 16 6144 =
        some (take v 16 6144 (nunits nbytes)) := by
      rw [search, if_pos (Nat.le_of_eq hvsize.symm)]
    simp only [Nat.reduceEqDiff, if_false, hvptr, hfound, take, if_pos hvsize,
      Option.map_some, Option.some.injEq, Prod.mk.injEq] at hmalloc
    rcases hmalloc with ⟨rfl, rfl⟩
    have hlast : 6144 + UNIT ≤ 6144 + UNIT + (nbytes - 1) ∧
        6144 + UNIT + (nbytes - 1) < 6144 + UNIT + nbytes ∧
        6144 + nunits nbytes * UNIT ≤ 6144 + UNIT + (nbytes - 1) + 2 ^ 31 := by
      simp only [nunits, UNIT] at hn ⊢
      omega
    have hcov := (hbytes (by decide) _ hlast.1 hlast.2.1).1
    exact hcover _ hlast.2.2 (hwobt ▸ hvobt ▸ hcov)
  · rw [if_neg hpage] at hmalloc
    cases hmalloc

end TooLarge

/-- The largest request is one for 16 bytes to `sbrk`, and a smaller one takes 16 bytes away. -/
theorem short_block :
    ((malloc unaligned grants fuel (boot unaligned fun _ => ⟨0, 0⟩) (2 ^ 32 - 1)).map fun r =>
      (r.1, r.2.live, r.2.obtained)) = some (6160, [⟨6144, 2 ^ 32 - 1⟩], [⟨6144, 6160⟩]) ∧
    ¬ Served unaligned grants (boot unaligned fun _ => ⟨0, 0⟩) (2 ^ 32 - 1) ∧
    ((malloc unaligned grants fuel (boot unaligned fun _ => ⟨0, 0⟩) (2 ^ 32 - 32)).map fun r =>
      (r.1, r.2.brk)) = some (6160, 6128) ∧
    ¬ Served unaligned grants (boot unaligned fun _ => ⟨0, 0⟩) (2 ^ 32 - 32) :=
  ⟨by decide +kernel, not_served_first _ (by decide), by decide +kernel,
    not_served_first _ (by decide)⟩

/-- `malloc` serves a request in every state of the heap just if the number of bytes for its units
is an `int`. -/
theorem served_iff (nbytes : Nat) : (∀ (L : Layout) (o : Oracle) (mem : Nat → Header) (s : St),
      Reaches (step L o) CallOk (boot L mem) s → Served L o s nbytes) ↔
    nunits nbytes * UNIT < 2 ^ 31 := by
  constructor
  · intro h
    by_contra hn
    exact not_served_first (fun _ => ⟨0, 0⟩) (Nat.le_of_not_lt hn) (h unaligned grants _ _ .refl)
  · intro hn L o mem s hs
    rcases hs.invariant (P := fun s => ∃ l, Inv L s l) ⟨[], inv_boot L mem⟩
      (fun s a t hs hok hstep => hs.elim fun l hl => hl.step hok hstep) with ⟨l, hl⟩
    exact hl.served hn

end Xv6.Umalloc
