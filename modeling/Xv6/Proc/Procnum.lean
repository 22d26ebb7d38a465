import Xv6.Lib.Families
import Xv6.Lib.Transition
import Xv6.Proc.Table

/-!
# Procnum — counting processes without locks

`procnum` reads the state of one slot after the other and takes no lock, while other CPUs run
`allocproc` and `freeproc`.  A step of another CPU is one store to a `state` or one acquisition of a
lock, so that also the slots of an `allocproc` that runs out of memory are seen as `USED` for a
while.

What `procnum` returns need not be a number of processes there ever was during the scan.  It is one
as long as the slots ahead of the scan do not change against those behind it.
-/

namespace Xv6.Procnum

open Lib
open Function (update update_of_ne)
open ProcTable (ProcState)

/-! ## The code -/

/-- What a CPU does to the process table. -/
inductive Pc
  | idle
  /-- `allocproc` comes to slot `i`. -/
  | alloc (i : Nat)
  /-- `allocproc` has found `p` and holds its lock. -/
  | found (p : Slot)
  /-- `allocproc` has set the state of `p` and goes on to its memory. -/
  | used (p : Slot)
  /-- In `freeproc(p)`, with the lock of `p`. -/
  | free (p : Slot)
  deriving DecidableEq

structure St where
  state : Slot → ProcState
  /-- The CPU that holds `p->lock`. -/
  lock : Slot → Option Cpu
  pc : Cpu → Pc
  /-- The index at which `procnum` stands. -/
  pos : Nat
  num : Nat

inductive Act
  /-- `fork` calls `allocproc`. -/
  | allocproc (c : Cpu)
  /-- One round of the loop of `allocproc`. -/
  | look (c : Cpu)
  /-- `p->state = USED` -/
  | use (c : Cpu)
  /-- `allocproc` returns; `mem` says whether there was memory. -/
  | made (c : Cpu) (mem : Bool)
  /-- `wait` has found the zombie `p`. -/
  | reap (c : Cpu) (p : Slot)
  /-- `p->state = UNUSED` at the end of `freeproc` -/
  | free (c : Cpu)
  /-- The other changes of the state of a process. -/
  | become (p : Slot) (x : ProcState)
  /-- One round of the loop of `procnum`. -/
  | count
  deriving DecidableEq

namespace St

def setPc (s : St) (c : Cpu) (pc : Pc) : St :=
  { s with pc := update s.pc c pc }

def setLock (s : St) (p : Slot) (c : Option Cpu) : St :=
  { s with lock := update s.lock p c }

def setState (s : St) (p : Slot) (x : ProcState) : St :=
  { s with state := update s.state p x }

end St

/-- One round of the loop of `allocproc`. -/
def look (s : St) (c : Cpu) (i : Nat) : Option St :=
  if h : i < NPROC then
    if s.lock ⟨i, h⟩ = none then
      if s.state ⟨i, h⟩ = .UNUSED then
        some ((s.setLock ⟨i, h⟩ (some c)).setPc c (.found ⟨i, h⟩))
      else
        some (s.setPc c (.alloc (i + 1)))
    else
      none
  else
    some (s.setPc c .idle)

/-- One round of the loop of `procnum`. -/
def procnum (s : St) : Option St :=
  if h : s.pos < NPROC then
    some { s with
      pos := s.pos + 1
      num := if s.state ⟨s.pos, h⟩ ≠ .UNUSED then s.num + 1 else s.num }
  else
    none

def step (s : St) : Act → Option St
  | .allocproc c => if s.pc c = .idle then some (s.setPc c (.alloc 0)) else none
  | .look c =>
    match s.pc c with
    | .alloc i => look s c i
    | _ => none
  | .use c =>
    match s.pc c with
    | .found p => some ((s.setState p .USED).setPc c (.used p))
    | _ => none
  | .made c mem =>
    match s.pc c with
    | .used p => some (if mem then (s.setLock p none).setPc c .idle else s.setPc c (.free p))
    | _ => none
  | .reap c p =>
    if s.pc c = .idle ∧ s.lock p = none ∧ s.state p = .ZOMBIE then
      some ((s.setLock p (some c)).setPc c (.free p))
    else
      none
  | .free c =>
    match s.pc c with
    | .free p => some (((s.setState p .UNUSED).setLock p none).setPc c .idle)
    | _ => none
  | .become p x =>
    if s.lock p = none ∧ s.state p ≠ .UNUSED ∧ x ≠ .UNUSED then some (s.setState p x) else none
  | .count => procnum s

/-- A call of `procnum` begins. -/
def St.begin (s : St) : St :=
  { s with pos := 0, num := 0 }

/-- After `userinit`. -/
def boot : St where
  state := update (fun _ => .UNUSED) 0 .RUNNABLE
  lock _ := none
  pc _ := .idle
  pos := NPROC
  num := 0

/-! ## What a step does to the table -/

/-- The store to a `state` that is next. -/
def store (s : St) : Act → Option (Slot × ProcState)
  | .use c =>
    match s.pc c with
    | .found p => some (p, .USED)
    | _ => none
  | .free c =>
    match s.pc c with
    | .free p => some (p, .UNUSED)
    | _ => none
  | .become p x => some (p, x)
  | _ => none

variable {s t : St} {a : Act}

/-- A step counts a slot, stores to a state, or does neither. -/
theorem step_cases (hstep : step s a = some t) : (store s a = none ∧ procnum s = some t) ∨
      t.pos = s.pos ∧ t.num = s.num ∧ (store s a = none ∧ t.state = s.state ∨
          ∃ p x, store s a = some (p, x) ∧ t.state = update s.state p x) := by
  cases a with
  | count => exact .inl ⟨rfl, hstep⟩
  | allocproc c | reap c p =>
    right
    simp only [step] at hstep
    split at hstep
    · cases hstep
      exact ⟨rfl, rfl, .inl ⟨rfl, rfl⟩⟩
    · cases hstep
  | look c =>
    right
    simp only [step, look] at hstep
    repeat' split at hstep
    all_goals cases hstep
    all_goals exact ⟨rfl, rfl, .inl ⟨rfl, rfl⟩⟩
  | made c mem =>
    right
    simp only [step] at hstep
    split at hstep
    · cases mem <;> cases hstep <;> exact ⟨rfl, rfl, .inl ⟨rfl, rfl⟩⟩
    · cases hstep
  | use c | free c =>
    right
    simp only [step] at hstep
    split at hstep
    · rename_i hpc
      cases hstep
      exact ⟨rfl, rfl, .inr ⟨_, _, by simp only [store, hpc], rfl⟩⟩
    · cases hstep
  | become p x =>
    right
    simp only [step] at hstep
    split at hstep
    · cases hstep
      exact ⟨rfl, rfl, .inr ⟨p, x, rfl, rfl⟩⟩
    · cases hstep

/-! ## Counting -/

/-- What a slot adds to the count. -/
def used (x : ProcState) : Nat :=
  if x ≠ .UNUSED then 1 else 0

/-- The number of processes. -/
def St.total (s : St) : Nat :=
  ∑ p, used (s.state p)

/-- The number of processes in the slots that the scan has visited. -/
def St.behind (s : St) : Nat :=
  ∑ p with p.val < s.pos, used (s.state p)

/-- The number of processes in the slots that the scan has still to visit. -/
def St.ahead (s : St) : Nat :=
  ∑ p with ¬ p.val < s.pos, used (s.state p)

theorem total_eq (s : St) : s.total = s.behind + s.ahead :=
  (Finset.sum_filter_add_sum_filter_not _ _ _).symm

theorem ahead_of_end (h : NPROC ≤ s.pos) : s.ahead = 0 := by
  refine Finset.sum_eq_zero fun p hp => absurd ?_ (Finset.mem_filter.1 hp).2
  exact p.isLt.trans_le h

theorem store_behind {p : Slot} {x : ProcState} (hpos : t.pos = s.pos)
    (hst : t.state = update s.state p x) (hp : p.val < s.pos) :
    t.behind + used (s.state p) = s.behind + used x ∧ t.ahead = s.ahead := by
  constructor
  · rw [St.behind, St.behind, hpos, hst]
    exact sum_update_add_of_mem (Finset.mem_filter.2 ⟨Finset.mem_univ p, hp⟩) _ used x
  · rw [St.ahead, St.ahead, hpos, hst]
    refine Finset.sum_congr rfl fun q hq => ?_
    rw [update_of_ne]
    rintro rfl
    exact (Finset.mem_filter.1 hq).2 hp

theorem store_ahead {p : Slot} {x : ProcState} (hpos : t.pos = s.pos)
    (hst : t.state = update s.state p x) (hp : ¬ p.val < s.pos) :
    t.ahead + used (s.state p) = s.ahead + used x ∧ t.behind = s.behind := by
  constructor
  · rw [St.ahead, St.ahead, hpos, hst]
    exact sum_update_add_of_mem (Finset.mem_filter.2 ⟨Finset.mem_univ p, hp⟩) _ used x
  · rw [St.behind, St.behind, hpos, hst]
    refine Finset.sum_congr rfl fun q hq => ?_
    rw [update_of_ne]
    rintro rfl
    exact hp (Finset.mem_filter.1 hq).2

/-- The visit of a slot moves it from ahead to behind, and counts it. -/
theorem procnum_moves (h : procnum s = some t) : ∃ k : Nat,
    t.num = s.num + k ∧ t.behind = s.behind + k ∧ s.ahead = t.ahead + k := by
  unfold procnum at h
  split at h
  · rename_i hpos
    cases h
    have hbehind : (Finset.univ.filter fun p : Slot => p.val < s.pos + 1) =
        insert ⟨s.pos, hpos⟩ (Finset.univ.filter fun p : Slot => p.val < s.pos) := by
      ext p
      simp only [Finset.mem_filter, Finset.mem_univ, true_and, Finset.mem_insert, Fin.ext_iff]
      omega
    have hahead : (Finset.univ.filter fun p : Slot => ¬ p.val < s.pos) =
        insert ⟨s.pos, hpos⟩ (Finset.univ.filter fun p : Slot => ¬ p.val < s.pos + 1) := by
      ext p
      simp only [Finset.mem_filter, Finset.mem_univ, true_and, Finset.mem_insert, Fin.ext_iff]
      omega
    refine ⟨used (s.state ⟨s.pos, hpos⟩), ?_, ?_, ?_⟩
    · simp only [used]
      split <;> rfl
    · simp only [St.behind]
      rw [hbehind, Finset.sum_insert (by simp), Nat.add_comm]
    · simp only [St.ahead]
      rw [hahead, Finset.sum_insert (by simp), Nat.add_comm]
  · cases h

/-! ## Real counts -/

/-- What has happened during the scan, which the code does not record: the numbers of processes
there have been, and how many slots have been allocated and freed behind the scan, after it had
passed them. -/
structure Hist where
  totals : List Nat
  allocs : Nat
  frees : Nat

def Hist.start : Hist :=
  ⟨[], 0, 0⟩

def seen (s : St) (a : Act) (h : Hist) : Hist :=
  match store s a with
  | none => { h with totals := s.total :: h.totals }
  | some (p, x) =>
    if p.val < s.pos then
      { totals := s.total :: h.totals
        allocs := h.allocs + (used x - used (s.state p))
        frees := h.frees + (used (s.state p) - used x) }
    else
      { h with totals := s.total :: h.totals }

/-- A slot ahead of the scan is not freed while more slots have been allocated than freed behind it,
and not allocated while more have been freed than allocated. -/
def ScanOk (x : St × Hist) (a : Act) : Prop :=
  ∀ y ∈ store x.1 a, ¬ y.1.val < x.1.pos →
    (used y.2 < used (x.1.state y.1) → x.2.allocs ≤ x.2.frees) ∧
      (used (x.1.state y.1) < used y.2 → x.2.frees ≤ x.2.allocs)

instance (x : St × Hist) (a : Act) : Decidable (ScanOk x a) :=
  inferInstanceAs (Decidable (∀ y ∈ store x.1 a, _))

/-- What the scan has counted differs from what is there behind it by what has happened there. -/
def Balanced (s : St) (h : Hist) : Prop :=
  s.behind + h.frees = s.num + h.allocs

/-- All numbers between what the scan comes to if nothing changes any more and the number of
processes have been seen. -/
def Covered (s : St) (h : Hist) : Prop :=
  ∀ n, s.num + s.ahead ≤ n ∧ n ≤ s.total ∨ s.total ≤ n ∧ n ≤ s.num + s.ahead →
    n ∈ s.total :: h.totals

theorem used_le_one (x : ProcState) : used x ≤ 1 := by
  unfold used
  split <;> omega

theorem seen_totals (s : St) (a : Act) (h : Hist) : (seen s a h).totals = s.total :: h.totals := by
  unfold seen
  repeat' split
  all_goals rfl

theorem Balanced.step {h : Hist} (hbal : Balanced s h) (hstep : step s a = some t) :
    Balanced t (seen s a h) := by
  unfold Balanced seen at *
  rcases step_cases hstep with ⟨hstore, hcount⟩ | ⟨hpos, hnum, ⟨hstore, hst⟩ | ⟨p, x, hstore, hst⟩⟩
  · obtain ⟨k, hk, hb, -⟩ := procnum_moves hcount
    rw [hstore]
    dsimp only
    omega
  · rw [hstore, hnum, St.behind, hpos, hst]
    exact hbal
  · have hx := used_le_one x
    have hy := used_le_one (s.state p)
    rw [hstore]
    dsimp only
    split
    · have hb := (store_behind hpos hst ‹_›).1
      dsimp only
      omega
    · have hb := (store_ahead hpos hst ‹_›).2
      dsimp only
      omega

theorem Balanced.ahead {h : Hist} {p : Slot} {x : ProcState} (hbal : Balanced s h)
    (hok : ScanOk (s, h) a) (hstore : store s a = some (p, x)) (hp : ¬ p.val < s.pos) :
    (used x < used (s.state p) → s.behind ≤ s.num) ∧
      (used (s.state p) < used x → s.num ≤ s.behind) := by
  obtain ⟨hfree, halloc⟩ := hok (p, x) hstore hp
  unfold Balanced at hbal
  constructor
  · intro hlt
    have hle := hfree hlt
    dsimp only at hle
    omega
  · intro hlt
    have hle := halloc hlt
    dsimp only at hle
    omega

theorem Covered.step {h : Hist} (hcov : Covered s h) (hbal : Balanced s h) (hok : ScanOk (s, h) a)
    (hstep : step s a = some t) : Covered t (seen s a h) := by
  have hs := total_eq s
  have ht := total_eq t
  intro n hn
  rw [seen_totals]
  have hold : s.num + s.ahead ≤ n ∧ n ≤ s.total ∨ s.total ≤ n ∧ n ≤ s.num + s.ahead →
      n ∈ t.total :: s.total :: h.totals := fun hin => List.mem_cons_of_mem _ (hcov n hin)
  have hnew : n = t.total → n ∈ t.total :: s.total :: h.totals :=
    fun heq => List.mem_cons.2 (.inl heq)
  rcases step_cases hstep with ⟨-, hcount⟩ | ⟨hpos, hnum, ⟨-, hst⟩ | ⟨p, x, hstore, hst⟩⟩
  · rcases procnum_moves hcount with ⟨k, hk, hb, ha⟩
    exact hold (by omega)
  · have hb : t.behind = s.behind := by rw [St.behind, St.behind, hpos, hst]
    have ha : t.ahead = s.ahead := by rw [St.ahead, St.ahead, hpos, hst]
    exact hold (by omega)
  · have hx := used_le_one x
    have hy := used_le_one (s.state p)
    by_cases hp : p.val < s.pos
    · rcases store_behind hpos hst hp with ⟨hb, ha⟩
      by_cases heq : n = t.total
      · exact hnew heq
      · exact hold (by omega)
    · rcases store_ahead hpos hst hp with ⟨ha, hb⟩
      obtain ⟨hfree, halloc⟩ := hbal.ahead hok hstore hp
      by_cases heq : n = t.total
      · exact hnew heq
      · exact hold (by omega)

/-- What `procnum` returns is a number of processes there has been during the scan. -/
theorem procnum_real {s₀ : St} {h : Hist}
    (hreach : Reaches (withHistory step seen) ScanOk (s₀.begin, .start) (s, h))
    (hend : s.pos = NPROC) : s.num ∈ s.total :: h.totals := by
  have hzero : s₀.begin.behind = 0 :=
    Finset.sum_eq_zero fun p hp => absurd (Finset.mem_filter.1 hp).2 (Nat.not_lt_zero _)
  have hnum : s₀.begin.num = 0 := rfl
  have hstart : Balanced s₀.begin .start ∧ Covered s₀.begin .start := by
    refine ⟨hzero, fun n hn => ?_⟩
    have htotal := total_eq s₀.begin
    rw [Hist.start, List.mem_singleton]
    omega
  have hcov : Covered s h := by
    refine (hreach.invariant (P := fun x : St × Hist => Balanced x.1 x.2 ∧ Covered x.1 x.2)
      hstart ?_).2
    rintro ⟨s, h⟩ a ⟨t, h'⟩ ⟨hbal, hcov⟩ hok hstep
    rcases Option.map_eq_some_iff.1 hstep with ⟨t', ht, heq⟩
    cases heq
    exact ⟨hbal.step ht, hcov.step hbal hok ht⟩
  refine hcov _ ?_
  have hahead := ahead_of_end (s := s) (by omega)
  have htotal := total_eq s
  omega

/-! ## A count that never was -/

/-- The first process forks twice, and its first child exits and is reaped. -/
def gapRun : List Act :=
  [.allocproc 0, .look 0, .look 0, .use 0, .made 0 true, .allocproc 0, .look 0, .look 0, .look 0,
    .use 0, .made 0 true, .become 1 .ZOMBIE, .become 2 .ZOMBIE, .reap 0 1, .free 0]

/-- The scan passes the empty slot 1, which is then allocated, and comes to slot 2 after that has
been freed. -/
def missRun : List Act :=
  List.flatten [[.count, .count, .allocproc 0, .look 0, .look 0, .use 0, .made 0 true, .reap 1 2,
    .free 1], List.replicate 62 .count]

set_option maxRecDepth 100000 in
/-- There are two or three processes all the time, and `procnum` returns 1. -/
theorem procnum_unreal : ∃ s₀ s h, Reaches step anyStep boot s₀ ∧
    Reaches (withHistory step seen) anyStep (s₀.begin, .start) (s, h) ∧ s.pos = NPROC ∧
    s.num = 1 ∧ ∀ n ∈ s.total :: h.totals, n = 2 ∨ n = 3 := by
  have heval : (run step boot gapRun).any fun s₀ =>
      decide ((run (withHistory step seen) (s₀.begin, .start) missRun).any fun x =>
        decide (x.1.pos = NPROC ∧ x.1.num = 1 ∧
          ∀ n ∈ x.1.total :: x.2.totals, n = 2 ∨ n = 3)) := by
    decide +kernel
  rcases exists_of_any heval with ⟨s₀, hgap, hmiss⟩
  rcases exists_of_any hmiss with ⟨⟨s, h⟩, hrun, hpos, hnum, hall⟩
  exact ⟨s₀, s, h, .of_run_any hgap, .of_run_any hrun, hpos, hnum, hall⟩

/-- A fork behind the scan and one ahead of it. -/
def growRun : List Act :=
  List.flatten [[.count, .count, .allocproc 0, .look 0, .look 0, .use 0, .made 0 true, .allocproc 0,
    .look 0, .look 0, .look 0, .look 0, .use 0], List.replicate 62 .count]

set_option maxRecDepth 100000 in
theorem procnum_real_grow : ∃ s₀ s h, run step boot gapRun = some s₀ ∧
    runIf (withHistory step seen) ScanOk (s₀.begin, .start) growRun = some (s, h) ∧
    s.total = 4 ∧ s.num = 3 ∧ s.num ∈ s.total :: h.totals := by
  have heval : (run step boot gapRun).any fun s₀ =>
      decide ((runIf (withHistory step seen) ScanOk (s₀.begin, .start) growRun).any fun x =>
        decide (x.1.pos = NPROC ∧ x.1.total = 4 ∧ x.1.num = 3)) := by
    decide +kernel
  rcases exists_of_any heval with ⟨s₀, hgap, hgrow⟩
  rcases exists_of_any hgrow with ⟨⟨s, h⟩, hrun, hpos, htotal, hnum⟩
  exact ⟨s₀, s, h, hgap, hrun, htotal, hnum, procnum_real (.of_runIf hrun) hpos⟩

end Xv6.Procnum
