import Xv6.Proc.Cpus

/-!
# Pids — process ids from a counter of 32 bits

`allocpid` hands out `nextpid` and adds one; it looks neither at the processes that exist nor at the
end of the range.  Failed forks count as well.  As long as the counter is positive each time, pids
are positive and no two processes share one; `Proc.Kernel` keeps the same invariant.
-/

namespace Xv6.ProcTable

open Lib
open Function (update update_apply update_idem update_of_ne update_self)

/-- The condition on the steps of a run: the counter is positive whenever `allocpid` is called. -/
def PidOk (s : State) : Act → Prop
  | .forkAlloc _ _ _ => 0 < s.nextpid.toInt
  | _ => True

instance (s : State) (a : Act) : Decidable (PidOk s a) :=
  match a with
  | .forkAlloc _ _ _ => inferInstanceAs (Decidable (_ < _))
  | .scheduler _ | .yield _ | .sleep _ | .wakeup _ | .forkNoProc _ | .forkParent _
  | .forkRunnable _ | .forkMask _ | .trace _ _ | .exit _ _ | .exitKilled _ | .setkilled _
  | .wait _ _ | .kill _ _ | .other _ _ => inferInstanceAs (Decidable True)

/-- Pids in use are positive, different, and below the counter unless that has wrapped. -/
structure PidInv (s : State) : Prop where
  pos : ∀ p, (s.procs p).state ≠ .UNUSED → 0 < (s.procs p).pid.toInt
  below : 0 < s.nextpid.toInt → ∀ p, (s.procs p).state ≠ .UNUSED →
    (s.procs p).pid.toInt < s.nextpid.toInt
  inj : ∀ p q, (s.procs p).state ≠ .UNUSED → (s.procs q).state ≠ .UNUSED →
    (s.procs p).pid = (s.procs q).pid → p = q

theorem pidInv_boot : PidInv boot := by
  have hzero : ∀ p, (boot.procs p).state ≠ .UNUSED → p = 0 := by
    intro p hp
    by_contra hne
    exact hp (by simp [boot, update_of_ne hne, Proc.zero])
  refine ⟨fun p hp => ?_, fun _ p hp => ?_, fun p q hp hq _ => ?_⟩
  · rw [hzero p hp]
    decide
  · rw [hzero p hp]
    decide
  · rw [hzero p hp, hzero q hq]

variable {s t : State}

attribute [local grind =] update_apply

/-- A step that gives no process another pid. -/
theorem PidInv.mono (hs : PidInv s) (hnext : t.nextpid = s.nextpid)
    (hpid : ∀ p, (t.procs p).state ≠ .UNUSED →
      (s.procs p).state ≠ .UNUSED ∧ (t.procs p).pid = (s.procs p).pid) : PidInv t := by
  rcases hs with ⟨pos, below, inj⟩
  constructor <;> grind

theorem PidInv.update (hs : PidInv s) {p : Slot} {new : Proc}
    (hprocs : t.procs = update s.procs p new) (hnext : t.nextpid = s.nextpid)
    (hnew : new.state ≠ .UNUSED → (s.procs p).state ≠ .UNUSED ∧ new.pid = (s.procs p).pid) :
    PidInv t := by
  refine hs.mono hnext fun q hq => ?_
  rw [hprocs] at hq ⊢
  grind

theorem toInt_succ_le {n : Int32} (h : 0 < (n + 1).toInt) (hn : 0 < n.toInt) :
    (n + 1).toInt = n.toInt + 1 := by
  have hle : n.toInt < 2 ^ 31 := n.toInt_lt
  rw [Int32.toInt_add] at h ⊢
  have hone : (1 : Int32).toInt = 1 := by decide
  rw [hone] at h ⊢
  rw [Int.bmod_def] at h ⊢
  omega

/-- With a counter that moves on, the processes that there were stay below it. -/
theorem PidInv.below_succ (hs : PidInv s) (hpos : 0 < s.nextpid.toInt)
    (hsucc : 0 < (s.nextpid + 1).toInt) {p : Slot} (hp : (s.procs p).state ≠ .UNUSED) :
    (s.procs p).pid.toInt < (s.nextpid + 1).toInt := by
  have hlt := hs.below hpos p hp
  have heq := toInt_succ_le hsucc hpos
  omega

theorem PidInv.alloc (hs : PidInv s) (hpos : 0 < s.nextpid.toInt) {np : Slot}
    (hnext : t.nextpid = s.nextpid + 1)
    (hpid : (t.procs np).pid = s.nextpid) (hprocs : ∀ p, p ≠ np → t.procs p = s.procs p) :
    PidInv t := by
  have hne : ∀ p, p ≠ np → (t.procs p).state ≠ .UNUSED → (t.procs p).pid ≠ s.nextpid := by
    intro p hp hlive heq
    rw [hprocs p hp] at hlive heq
    have hlt := hs.below hpos p hlive
    rw [heq] at hlt
    exact absurd hlt (lt_irrefl _)
  have hsucc : 0 < (s.nextpid + 1).toInt → (s.nextpid + 1).toInt = s.nextpid.toInt + 1 :=
    fun h => toInt_succ_le h hpos
  rcases hs with ⟨pos, below, inj⟩
  constructor <;> grind

/-- A pid that is handed out and not kept. -/
theorem PidInv.skip (hs : PidInv s) (hpos : 0 < s.nextpid.toInt) (hnext : t.nextpid = s.nextpid + 1)
    (hpid : ∀ p, (t.procs p).state ≠ .UNUSED →
      (s.procs p).state ≠ .UNUSED ∧ (t.procs p).pid = (s.procs p).pid) : PidInv t := by
  have hkept : PidInv { t with nextpid := s.nextpid } := hs.mono rfl hpid
  refine ⟨hkept.pos, fun hsucc p hp => ?_, hkept.inj⟩
  rw [hnext] at hsucc ⊢
  exact hkept.below_succ hpos hsucc hp

/-! ## Children that are not complete -/

/-- The child that `fork` has yet to make `RUNNABLE`. -/
def Ctl.unfinished : Ctl → Option Slot
  | .forkParent np | .forkRunnable np => some np
  | _ => none

structure ForkInv (s : State) : Prop where
  used : ∀ q np, (s.ctl q).unfinished = some np → (s.procs np).state = .USED
  unique : ∀ q q' np, (s.ctl q).unfinished = some np → (s.ctl q').unfinished = some np → q = q'

theorem forkInv_boot : ForkInv boot := by
  refine ⟨fun q np hq => ?_, fun q q' np hq => ?_⟩
  · cases hq
  · cases hq

theorem ForkInv.mono (hs : ForkInv s)
    (hctl : ∀ q np, (t.ctl q).unfinished = some np → (s.ctl q).unfinished = some np)
    (hused : ∀ q np, (t.ctl q).unfinished = some np → (s.procs np).state = .USED →
      (t.procs np).state = .USED) : ForkInv t :=
  ⟨fun q np hq => hused q np hq (hs.used q np (hctl q np hq)),
    fun q q' np hq hq' => hs.unique q q' np (hctl q np hq) (hctl q' np hq')⟩

theorem ForkInv.update (hs : ForkInv s) {p : Slot} {new : Proc}
    (hprocs : t.procs = update s.procs p new) (hctl : t.ctl = s.ctl)
    (hnew : (s.procs p).state = .USED → new.state = .USED) : ForkInv t := by
  refine hs.mono (by rw [hctl]; exact fun _ _ => id) fun q np _ hused => ?_
  rw [hprocs]
  grind

/-- `allocproc` takes a slot that no `fork` is working on. -/
theorem ForkInv.alloc (hs : ForkInv s) {p np : Slot} (hfree : (s.procs np).state = .UNUSED)
    (hctl : t.ctl = Function.update s.ctl p (.forkParent np))
    (hused : (t.procs np).state = .USED) (hprocs : ∀ q, q ≠ np → t.procs q = s.procs q) :
    ForkInv t := by
  have hnone : ∀ q, (s.ctl q).unfinished ≠ some np := fun q hq => by
    have hstate := hs.used q np hq
    rw [hfree] at hstate
    cases hstate
  rcases hs with ⟨used, unique⟩
  constructor <;> rw [hctl] <;> grind [Ctl.unfinished]

theorem unfinished_update {ctl : Slot → Ctl} {p q x : Slot} {c : Ctl}
    (hc : c.unfinished = none ∨ c.unfinished = (ctl p).unfinished)
    (hq : (update ctl p c q).unfinished = some x) : (ctl q).unfinished = some x := by
  grind

theorem forkInv_step (hs : ForkInv s) {a : Act} (h : step s a = some t) : ForkInv t := by
  cases steps_of_step h with
  | move hmove hold =>
    refine hs.update rfl rfl fun hused => ?_
    rw [hold] at hused
    rcases (Act.move_live hmove).1 with rfl | rfl | rfl <;> cases hused
  | forkAlloc hready hfree =>
    rename_i p np
    refine hs.alloc hfree rfl ?_ fun q hq => update_of_ne hq ..
    simp [allocproc]
  | forkNoMem hready hfree =>
    refine hs.update rfl rfl fun hused => ?_
    rw [hfree] at hused
    cases hused
  | forkParent hctl hrun =>
    rename_i p np
    exact hs.mono (fun q x hq => unfinished_update (.inr (by rw [hctl]; rfl)) hq) (by grind)
  | forkRunnable hctl hrun =>
    rename_i p np
    have hlast : (s.ctl p).unfinished = some np := by rw [hctl]; rfl
    refine hs.mono (fun q x hq => unfinished_update (.inl rfl) hq) fun q x hq hused => ?_
    -- nobody else works on this child
    have hx : x ≠ np := by
      rintro rfl
      have hqp := hs.unique q p x (unfinished_update (.inl rfl) hq) hlast
      subst hqp
      simp [Ctl.unfinished] at hq
    simpa [hx] using hused
  | forkMask hctl hrun =>
    rename_i p np
    exact hs.mono (fun q x hq => unfinished_update (.inl rfl) hq) (by grind)
  | trace hready => exact hs.update rfl rfl id
  | exit ha hready hinit =>
    rename_i p status
    refine hs.mono (fun _ _ => id) fun q x _ hused => ?_
    have hrep : (reparent s p x).state = (s.procs x).state := by
      unfold reparent
      split <;> simp
    have hxp : x ≠ p := by
      rintro rfl
      rw [hready.1] at hused
      cases hused
    simpa [hxp, hrep] using hused
  | setkilled hready => exact hs.update rfl rfl id
  | reap hready hchild hzombie =>
    refine hs.update rfl rfl fun hused => ?_
    rw [hzombie] at hused
    cases hused
  | kill hready =>
    rename_i p pid
    rcases kill_cases s.procs pid with ⟨_, hkill⟩ | ⟨q, hq, hfirst, hkill⟩
    · rw [hkill]
      exact hs
    · have hprocs : (kill s.procs pid).1 = update s.procs q (killProc (s.procs q)) := by
        rw [hkill]
      refine hs.update hprocs rfl fun hused => ?_
      simp [killProc, hused]
  | skip ha hready => exact hs

/-! ## Runs -/

theorem pidInv_step (hs : PidInv s) (hf : ForkInv s) {a : Act} (hok : PidOk s a)
    (h : step s a = some t) : PidInv t := by
  cases steps_of_step h with
  | move hmove hold =>
    refine hs.update rfl rfl fun _ => ⟨?_, rfl⟩
    -- a process that is scheduled exists
    rcases (Act.move_live hmove).1 with rfl | rfl | rfl <;> simp [hold]
  | forkAlloc hready hfree =>
    rename_i p np
    refine hs.alloc hok rfl ?_ fun q hq => update_of_ne hq ..
    simp [allocproc]
  | forkNoMem hready hfree => exact hs.skip hok rfl (by grind [freeproc])
  | forkParent hctl hrun => exact hs.update rfl rfl fun hnew => ⟨hnew, rfl⟩
  | forkRunnable hctl hrun =>
    rename_i p np
    refine hs.update rfl rfl fun _ => ⟨?_, rfl⟩
    rw [hf.used p np (by rw [hctl]; rfl)]
    simp
  | forkMask hctl hrun => exact hs.update rfl rfl fun hnew => ⟨hnew, rfl⟩
  | trace hready => exact hs.update rfl rfl fun hnew => ⟨hnew, rfl⟩
  | exit ha hready hinit =>
    rename_i p status
    refine hs.mono rfl fun q hq => ?_
    have hrep : (reparent s p q).state = (s.procs q).state ∧
        (reparent s p q).pid = (s.procs q).pid := by
      unfold reparent
      split <;> simp
    by_cases hqp : q = p
    · subst hqp
      simp [hready.1, hrep.2]
    · simp only [update_of_ne hqp] at hq ⊢
      exact ⟨hrep.1 ▸ hq, hrep.2⟩
  | setkilled hready => exact hs.update rfl rfl fun hnew => ⟨hnew, rfl⟩
  | reap hready hchild hzombie => exact hs.update rfl rfl fun hnew => absurd rfl hnew
  | kill hready =>
    rename_i p pid
    rcases kill_cases s.procs pid with ⟨_, hkill⟩ | ⟨q, hq, hfirst, hkill⟩
    · rw [hkill]
      exact hs
    · have hprocs : (kill s.procs pid).1 = update s.procs q (killProc (s.procs q)) := by
        rw [hkill]
      refine hs.update hprocs rfl fun hnew => ⟨?_, rfl⟩
      intro hfree
      exact hnew (by simp [killProc, hfree])
  | skip ha hready => exact hs

/-- In every run in which `allocpid` always finds its counter positive, processes have different
pids, and the pid that a further `fork` returns is positive. -/
theorem pids_unique_positive (hs : Reaches step PidOk boot s) :
    (∀ p q, p ≠ q → (s.procs p).state ≠ .UNUSED → (s.procs q).state ≠ .UNUSED →
      (s.procs p).pid ≠ (s.procs q).pid) ∧
    ∀ p np t, PidOk s (.forkAlloc p np true) → step s (.forkAlloc p np true) = some t →
      0 < (t.procs np).pid := by
  have hinv := hs.invariant (P := fun s => PidInv s ∧ ForkInv s) ⟨pidInv_boot, forkInv_boot⟩
    fun _ _ _ hu hok hstep => ⟨pidInv_step hu.1 hu.2 hok hstep, forkInv_step hu.2 hstep⟩
  refine ⟨fun p q hne hp hq heq => hne (hinv.1.inj p q hp hq heq), fun p np t hok hstep => ?_⟩
  have hlive : (t.procs np).state ≠ .UNUSED := by
    cases steps_of_step hstep with
    | move hmove _ => simp [Act.move] at hmove
    | forkAlloc hready hfree => simp [allocproc]
    | exit ha _ _ => simp at ha
    | skip ha _ => simp at ha
  have hpos := (pidInv_step hinv.1 hinv.2 hok hstep).pos np hlive
  exact Int32.lt_iff_toInt_lt.2 hpos

/-- Init forks, at first without success, and then its child forks. -/
theorem pids_unique_positive_child : ∃ s t, Reaches step PidOk boot s ∧
    (s.procs 0).state = .RUNNABLE ∧ (s.procs 1).state = .RUNNING ∧
    (s.procs 0).pid ≠ (s.procs 1).pid ∧ PidOk s (.forkAlloc 1 2 true) ∧
    step s (.forkAlloc 1 2 true) = some t ∧ 0 < (t.procs 2).pid := by
  have hrun : ∃ s t, runIf step PidOk boot [.scheduler 0, .forkAlloc 0 1 false,
      .forkAlloc 0 1 true, .forkParent 0, .forkRunnable 0, .forkMask 0, .yield 0, .scheduler 1] =
        some s ∧ (s.procs 0).state = .RUNNABLE ∧ (s.procs 1).state = .RUNNING ∧
      PidOk s (.forkAlloc 1 2 true) ∧ step s (.forkAlloc 1 2 true) = some t :=
    ⟨_, _, rfl, by decide, by decide, by decide, rfl⟩
  rcases hrun with ⟨s, t, hs, hinit, hchild, hok, hstep⟩
  rcases pids_unique_positive (.of_runIf hs) with ⟨hdiffer, hpos⟩
  exact ⟨s, t, .of_runIf hs, hinit, hchild,
    hdiffer 0 1 (by decide) (by simp [hinit]) (by simp [hchild]), hok, hstep, hpos 1 2 t hok hstep⟩

/-! ## Past the end of the counter -/

/-- After boot, once init runs. -/
def started : State :=
  { boot with procs := update boot.procs 0 { boot.procs 0 with state := .RUNNING } }

/-- Forks that fail for lack of memory leave nothing but a larger counter. -/
theorem reaches_failed_forks (n : Nat) :
    Reaches step anyStep boot { started with nextpid := 2 + Int32.ofNat n } := by
  induction n with
  | zero => exact .tail (.scheduler 0) .refl trivial rfl
  | succ n ih =>
    refine .tail (.forkAlloc 0 1 false) ih trivial ?_
    have hready : Ready { started with nextpid := 2 + Int32.ofNat n } 0 := ⟨rfl, rfl⟩
    have hfree : (started.procs 1).state = .UNUSED := rfl
    have hprocs : update started.procs 1
        (freeproc { started.procs 1 with pid := 2 + Int32.ofNat n, state := .USED }) =
        started.procs := by
      funext q
      by_cases hq : q = 1
      · rw [hq, update_self]
        rfl
      · rw [update_of_ne hq]
    have hnext : 2 + Int32.ofNat n + 1 = 2 + Int32.ofNat (n + 1) := by
      rw [Int32.ofNat_add, Int32.add_assoc]
      rfl
    simp only [step, hready, hfree, and_self, if_true, allocproc, update_self,
      update_idem, Bool.false_eq_true, if_false, hprocs, hnext]

/-- After `2 ^ 31 - 2` failed forks the pid of the next one is negative, and after `2 ^ 32 - 1` it
is that of init. -/
theorem pids_wrap : (∃ s t, Reaches step anyStep boot s ∧ step s (.forkAlloc 0 1 true) = some t ∧
      (t.procs 1).pid < 0) ∧
    ∃ t, Reaches step anyStep boot t ∧ (t.procs 0).state ≠ .UNUSED ∧
      (t.procs 1).state ≠ .UNUSED ∧ (t.procs 0).pid = (t.procs 1).pid := by
  refine ⟨⟨_, _, reaches_failed_forks (2 ^ 31 - 2), rfl, ?_⟩, _,
    .tail (.forkAlloc 0 1 true) (reaches_failed_forks (2 ^ 32 - 1)) trivial rfl, ?_, ?_, ?_⟩
  · decide
  · decide
  · decide
  · decide

end Xv6.ProcTable

/-! ## Pids at the level of locks -/

namespace Xv6.Sched

open Lib
open ProcTable (PidInv)
open Function (update update_apply update_of_ne update_self)

variable {s t : St} {a : Act}

/-- What `Proc.Table` has of a state, apart from masks and the places in `fork`. -/
def St.table (s : St) : ProcTable.State :=
  { procs := fun q => { s.procs q with mask := 0 }
    ctl := fun _ => .user
    nextpid := s.nextpid
    initproc := s.initproc }

attribute [local grind =] update_apply

theorem pidInv_setProc {q : Slot} {x : Proc} (hs : PidInv s.table) (hnext : t.nextpid = s.nextpid)
    (hprocs : t.procs = update s.procs q x)
    (hx : x.state ≠ .UNUSED → (s.procs q).state ≠ .UNUSED ∧ x.pid = (s.procs q).pid) :
    PidInv t.table := by
  refine hs.mono hnext fun r hr => ?_
  simp only [St.table, hprocs] at hr ⊢
  grind

theorem pidInv_table_step (hinv : Inv s) (hs : PidInv s.table) (hpos : 0 < s.nextpid.toInt)
    (h : Steps s a t) : PidInv t.table := by
  cases h with
  | pick | decline | arrive | swtch | back => exact hs
  | choose | resume => exact pidInv_setProc hs rfl rfl (by grind)
  | proc hc hp heff hcode happly =>
    rename_i p _ _
    have hrun := (hinv.switched.running p).2 (.inl hp)
    have hused := hinv.forking.used p
    generalize s.pc p = pc at hcode hused
    cases happly with
    | goto | acquire | release | cond => exact hs
    | parent => exact pidInv_setProc hs rfl rfl (by grind)
    | touch =>
      have hx := hcode.touch
      exact pidInv_setProc hs rfl rfl (by grind [Pc.target, freeproc])
    | alloc =>
      rename_i np _ _ _
      rcases hcode.alloc with ⟨hfree, ⟨rfl, _⟩ | ⟨rfl, _⟩⟩
      · refine hs.alloc hpos rfl ?_ fun q (hq : q ≠ np) => ?_
        · simp only [St.table, St.setProc, St.setPc, update_self]
        · simp only [St.table, St.setProc, St.setPc, update_of_ne hq]
      · refine hs.skip hpos rfl fun q hq => ?_
        simp only [St.table, St.setProc, St.setPc] at hq ⊢
        grind [freeproc]
    | leave => cases hcode <;> exact pidInv_setProc hs rfl rfl (by grind)

/-- Pids are positive and different also while the steps of `fork` and `wait` mix. -/
theorem pidInv_of_reaches (h : Reaches step (fun s _ => 0 < s.nextpid.toInt) boot s) :
    PidInv s.table := by
  have hboot : PidInv boot.table := by
    refine ProcTable.pidInv_boot.mono rfl fun q hq => ?_
    simp only [St.table, boot, ProcTable.boot, update_apply] at hq ⊢
    split at hq <;> simp_all [Proc.zero, ProcTable.Proc.zero]
  have hinv := h.invariant (P := fun s => Inv s ∧ PidInv s.table) ⟨inv_boot, hboot⟩
    fun s a t hs hok hstep => ⟨hs.1.step (steps_of_step hstep),
      pidInv_table_step hs.1 hs.2 hok (steps_of_step hstep)⟩
  exact hinv.2

end Xv6.Sched
