import Xv6.Proc.Table

/-!
# Trace — which system calls print a line

`fork` stores the parent's mask in the child after it has made the child `RUNNABLE`, and `freeproc`
leaves the mask of a slot alone.  Until the store a child runs with whatever mask its slot was left
with, and a `trace` it makes is lost.  In every run in which no process uses its mask before the
`fork` that created it has stored it, every system call prints a line exactly when its bit is set in
the mask the process is to have.
-/

namespace Xv6.ProcTable

open Lib
open Function (update update_apply update_of_ne)

/-! ## The mask a process is to have -/

/-- The masks after a step: those of the most recent `trace` calls, and for a new process the one
of its parent. -/
def maskAfter (w : Slot → BitVec 32) : Act → Slot → BitVec 32
  | .trace p mask => update w p mask
  | .forkAlloc p np true => update w np (w p)
  | _ => w

/-- The process table together with the masks its processes are to have. -/
abbrev Traced : Type := State × (Slot → BitVec 32)

def tracedStep (x : Traced) (a : Act) : Option Traced :=
  (step x.1 a).map fun t => (t, maskAfter x.2 a)

/-- At boot nothing is traced. -/
def tracedBoot : Traced :=
  (boot, fun _ => 0)

/-! ## System calls and their lines -/

/-- The process that makes a system call in this step, and the number of the call.  A call that
returns does so in this step. -/
def called : Act → Option (Slot × Nat)
  | .forkAlloc p _ false => some (p, SYS_fork)
  | .forkNoProc p => some (p, SYS_fork)
  | .forkMask p => some (p, SYS_fork)
  | .trace p _ => some (p, SYS_trace)
  | .exit p _ => some (p, SYS_exit)
  | .wait p _ => some (p, SYS_wait)
  | .kill p _ => some (p, SYS_kill)
  | .other p num => some (p, num)
  | _ => none

/-- Whether `syscall()` prints a line for the call made in a step that ends in table `t`.  It looks
at the mask once the call has returned, which `exit` never does. -/
def prints (t : State) (a : Act) : Bool :=
  match a, called a with
  | .exit _ _, _ => false
  | _, some (p, num) => traced (t.procs p).mask num
  | _, none => false

/-- The condition on the steps of a run: the process that makes a call has been given its mask by
the `fork` that created it, and `exit` is called only where it is not to be traced. -/
def TraceOk (x : Traced) : Act → Prop
  | .exit p _ => (x.2 p).getLsbD SYS_exit = false
  | a => ∀ p num, called a = some (p, num) → ∀ q, x.1.ctl q ≠ .forkMask p

/-! ## The invariant -/

structure TraceInv (x : Traced) : Prop where
  /-- A process inside `fork` is scheduled or may be. -/
  busy : ∀ p, x.1.ctl p ≠ .user → (x.1.procs p).state = .RUNNING ∨ (x.1.procs p).state = .RUNNABLE ∨
      (x.1.procs p).state = .SLEEPING
  /-- Until it is made `RUNNABLE` a child is `USED`. -/
  used : ∀ q np, x.1.ctl q = .forkParent np ∨ x.1.ctl q = .forkRunnable np →
    (x.1.procs np).state = .USED
  parent : ∀ q np, x.1.ctl q = .forkRunnable np ∨ x.1.ctl q = .forkMask np →
    (x.1.procs np).parent = some q
  live : ∀ q np, (x.1.ctl q).target = some np → (x.1.procs np).state ≠ .UNUSED
  inherit : ∀ q np, (x.1.ctl q).target = some np → x.2 np = x.2 q
  unique : ∀ q q' np, (x.1.ctl q).target = some np → (x.1.ctl q').target = some np → q = q'
  settled : ∀ p, (x.1.procs p).state ≠ .UNUSED → (∀ q, (x.1.ctl q).target ≠ some p) →
    (x.1.procs p).mask = x.2 p

theorem traceInv_boot : TraceInv tracedBoot := by
  refine ⟨?_, ?_, ?_, ?_, ?_, ?_, ?_⟩
  all_goals simp [tracedBoot, boot, Ctl.target]
  intro p
  by_cases h : p = 0
  · subst h
    simp [Proc.zero]
  · simp [update_of_ne h, Proc.zero]

variable {s t : State} {w : Slot → BitVec 32} {q np p : Slot} {num : Nat}

/-- A step that changes no mask and nobody's place in `fork` keeps the invariant, as long as it
frees no child that is still being made and disturbs neither its state nor its parent. -/
theorem TraceInv.frame (hs : TraceInv (s, w))
    (hctl : t.ctl = s.ctl) (hmask : ∀ q, (t.procs q).mask = (s.procs q).mask)
    (hfree : ∀ q, (s.procs q).state = .UNUSED → (t.procs q).state = .UNUSED)
    (hkept : ∀ q np, (s.ctl q).target = some np → (t.procs np).state ≠ .UNUSED)
    (hused : ∀ q, (s.procs q).state = .USED → (t.procs q).state = .USED)
    (hbusy : ∀ q, s.ctl q ≠ .user → (t.procs q).state = .RUNNING ∨ (t.procs q).state = .RUNNABLE ∨
        (t.procs q).state = .SLEEPING)
    (hparent : ∀ q np, (s.ctl q).target = some np → (s.procs np).parent = some q →
      (t.procs np).parent = some q) :
    TraceInv (t, w) := by
  rcases hs with ⟨busy, used, parent, live, inherit, unique, settled⟩
  constructor <;> simp only [hctl] at * <;> grind [Ctl.target]

theorem TraceInv.used_or_forkMask (hs : TraceInv (s, w)) (hq : (s.ctl q).target = some np) :
    (s.procs np).state = .USED ∨ s.ctl q = .forkMask np := by
  cases hctl : s.ctl q with
  | user => simp [hctl, Ctl.target] at hq
  | forkParent np' =>
    have hEq : np' = np := by simpa [hctl, Ctl.target] using hq
    exact .inl (hs.used q np (.inl (hEq ▸ hctl)))
  | forkRunnable np' =>
    have hEq : np' = np := by simpa [hctl, Ctl.target] using hq
    exact .inl (hs.used q np (.inr (hEq ▸ hctl)))
  | forkMask np' =>
    have hEq : np' = np := by simpa [hctl, Ctl.target] using hq
    exact .inr (by rw [hEq])

/-- A slot whose `fork` has got past `forkParent` has the forking process as its parent. -/
theorem TraceInv.target_cases (hs : TraceInv (s, w)) (hq : (s.ctl q).target = some np) :
    (s.procs np).state = .USED ∨ (s.procs np).parent = some q :=
  (hs.used_or_forkMask hq).imp_right fun h => hs.parent q np (.inr h)

theorem ctl_ne_user_of_target (h : (s.ctl q).target = some np) : s.ctl q ≠ .user := by
  intro hctl
  simp [hctl, Ctl.target] at h

/-- Changing one slot whose mask, free mark and parent stay keeps the invariant. -/
theorem TraceInv.frame_update (hs : TraceInv (s, w)) {new : Proc} {n : Int32}
    (hmask : new.mask = (s.procs p).mask)
    (hfree : new.state = .UNUSED ↔ (s.procs p).state = .UNUSED)
    (hused : (s.procs p).state = .USED → new.state = .USED)
    (hbusy : s.ctl p ≠ .user → new.state = .RUNNING ∨ new.state = .RUNNABLE ∨ new.state = .SLEEPING)
    (hparent : new.parent = (s.procs p).parent ∨ (s.procs p).state = .UNUSED) :
    TraceInv ({ s with procs := update s.procs p new, nextpid := n }, w) := by
  rcases hs with ⟨busy, used, parent, live, inherit, unique, settled⟩
  constructor <;> grind [Ctl.target, update_apply]

/-- All that can be left to do for a child that already runs is the store of its mask. -/
theorem TraceInv.forkMask_of_running (hs : TraceInv (s, w)) (hp : (s.procs p).state = .RUNNING)
    (hq : (s.ctl q).target = some p) : s.ctl q = .forkMask p :=
  (hs.used_or_forkMask hq).resolve_left (by simp [hp])

/-- The slots that `p` does not work on stay settled. -/
theorem TraceInv.settled_update (hs : TraceInv (s, w)) {c : Ctl} {new : Proc} {x : Slot}
    (hp : (s.ctl p).target ≠ some x) (hxn : x ≠ np)
    (hx : (update s.procs np new x).state ≠ .UNUSED)
    (hnone : ∀ q, (update s.ctl p c q).target ≠ some x) :
    (update s.procs np new x).mask = w x := by
  rw [update_of_ne hxn] at hx ⊢
  refine hs.settled x hx fun q hq => hnone q ?_
  rwa [update_of_ne (by rintro rfl; exact hp hq)]

/-! ## The steps of `fork` and `trace` -/

theorem TraceInv.forkAlloc (hs : TraceInv (s, w)) (hready : Ready s p)
    (hfree : (s.procs np).state = .UNUSED) :
    TraceInv ({ ProcTable.allocproc s np with ctl := update s.ctl p (.forkParent np) },
      update w np (w p)) := by
  have hne : p ≠ np := by
    intro heq
    have hrun := hready.1
    simp [heq, hfree] at hrun
  -- Nobody is working on a free slot, and a free slot is not itself inside `fork`.
  have hnot : ∀ q, (s.ctl q).target ≠ some np := fun q hq => hs.live q np hq hfree
  have hidle : s.ctl np = .user := by
    by_contra hctl
    rcases hs.busy np hctl with h | h | h <;> simp [hfree] at h
  have hself := hs
  rcases hs with ⟨busy, used, parent, live, inherit, unique, settled⟩
  rcases hready with ⟨hrun, huser⟩
  unfold ProcTable.allocproc
  constructor
  case settled =>
    intro x hx hnone
    have hxn : x ≠ np := by
      rintro rfl
      exact hnone p (by simp [Ctl.target])
    refine (hself.settled_update ?_ hxn hx hnone).trans (update_of_ne hxn ..).symm
    exact fun hp => ctl_ne_user_of_target hp huser
  all_goals grind [Ctl.target, update_apply]

/-- A step of `fork` that keeps working on the same child. -/
theorem TraceInv.advance (hs : TraceInv (s, w)) {c : Ctl} {new : Proc}
    (hp : (s.ctl p).target = some np) (hc : c.target = some np)
    (hnp : (s.procs np).state = .USED) (hmask : new.mask = (s.procs np).mask)
    (hlive : new.state ≠ .UNUSED)
    (hused : c = .forkParent np ∨ c = .forkRunnable np → new.state = .USED)
    (hparent : c = .forkRunnable np ∨ c = .forkMask np → new.parent = some p) :
    TraceInv ({ s with
      procs := update s.procs np new
      ctl := update s.ctl p c }, w) := by
  have hidle : s.ctl np = .user := by
    by_contra hctl
    rcases hs.busy np hctl with h | h | h <;> simp [hnp] at h
  -- The child is worked on by `p` alone, so the other forks name other slots.
  have hother : ∀ q x, q ≠ p → (s.ctl q).target = some x → x ≠ np := by
    rintro q x hq hx rfl
    exact hq (hs.unique q p x hx hp)
  have hself := hs
  rcases hs with ⟨busy, used, parent, live, inherit, unique, settled⟩
  constructor
  case settled =>
    intro x hx hnone
    have hxn : x ≠ np := by
      rintro rfl
      exact hnone p (by simpa using hc)
    exact hself.settled_update (by simpa [hp] using hxn.symm) hxn hx hnone
  all_goals grind [Ctl.target, update_apply]

/-- The store that ends `fork`: the parent's own mask is the one it is to have. -/
theorem TraceInv.forkMask (hs : TraceInv (s, w)) (hctl : s.ctl p = .forkMask np)
    (hrun : (s.procs p).state = .RUNNING) (hgiven : ∀ q, s.ctl q ≠ .forkMask p) :
    TraceInv ({ s with
      procs := update s.procs np { s.procs np with mask := (s.procs p).mask }
      ctl := update s.ctl p .user }, w) := by
  have hp : (s.ctl p).target = some np := by simp [hctl, Ctl.target]
  have hother : ∀ q x, q ≠ p → (s.ctl q).target = some x → x ≠ np := by
    rintro q x hq hx rfl
    exact hq (hs.unique q p x hx hp)
  -- `p` runs and its own `fork` is over, so its mask is settled.
  have hmask : (s.procs p).mask = w p := by
    refine hs.settled p (by simp [hrun]) ?_
    intro q hq
    exact hgiven q (hs.forkMask_of_running hrun hq)
  have hself := hs
  rcases hs with ⟨busy, used, parent, live, inherit, unique, settled⟩
  constructor
  case settled =>
    intro x hx hnone
    rcases eq_or_ne x np with rfl | hxn
    · simpa [hmask] using (inherit p x hp).symm
    · exact hself.settled_update (by simpa [hp] using hxn.symm) hxn hx hnone
  all_goals grind [Ctl.target, update_apply]

theorem TraceInv.trace (hs : TraceInv (s, w)) {mask : BitVec 32} (hready : Ready s p)
    (hgiven : ∀ q, s.ctl q ≠ .forkMask p) :
    TraceInv ({ s with procs := update s.procs p { s.procs p with mask := mask } },
      update w p mask) := by
  have hnot : ∀ q, (s.ctl q).target ≠ some p := fun q hq =>
    hgiven q (hs.forkMask_of_running hready.1 hq)
  rcases hs with ⟨busy, used, parent, live, inherit, unique, settled⟩
  rcases hready with ⟨hrun, huser⟩
  -- `p` is outside `fork` and nobody's unfinished child, so no pair of masks is split.
  constructor <;> grind [Ctl.target, update_apply]

/-- The children that `reparent` moves are finished: their old parent is outside `fork`. -/
theorem TraceInv.reparent (hs : TraceInv (s, w)) (hready : Ready s p) :
    TraceInv ({ s with procs := ProcTable.reparent s p }, w) := by
  have hkeep : ∀ q, (ProcTable.reparent s p q).state = (s.procs q).state ∧
      (ProcTable.reparent s p q).mask = (s.procs q).mask := by
    intro q
    unfold ProcTable.reparent
    split <;> exact ⟨rfl, rfl⟩
  refine hs.frame rfl (fun q => (hkeep q).2) ?_ ?_ ?_ ?_ ?_ <;> simp only [hkeep]
  · exact fun _ => id
  · exact hs.live
  · exact fun _ => id
  · exact hs.busy
  · intro r np hr hpar
    have hrp : r ≠ p := fun heq => ctl_ne_user_of_target hr (heq ▸ hready.2)
    have hne : (s.procs np).parent ≠ some p := by
      rw [hpar]
      simpa using hrp
    simpa [ProcTable.reparent, hne] using hpar

theorem TraceInv.exit (hs : TraceInv (s, w)) {status : Int} (hready : Ready s p) :
    TraceInv ({ s with
      procs := update (ProcTable.reparent s p) p
        { ProcTable.reparent s p p with xstate := status, state := .ZOMBIE } }, w) := by
  have hstate : (ProcTable.reparent s p p).state = .RUNNING := by
    have h := hready.1
    unfold ProcTable.reparent
    split <;> exact h
  refine (hs.reparent hready).frame_update (n := s.nextpid) rfl ?_ ?_ ?_ (.inl rfl)
  · simp [hstate]
  · simp [hstate]
  · exact fun hctl => absurd hready.2 hctl

/-- A child that `wait` reaps is finished: its parent, the only one that could still be working on
it, is outside `fork`. -/
theorem TraceInv.reap (hs : TraceInv (s, w)) {pp : Slot} (hready : Ready s p)
    (hchild : (s.procs pp).parent = some p) (hzombie : (s.procs pp).state = .ZOMBIE) :
    TraceInv ({ s with procs := update s.procs pp (freeproc (s.procs pp)) }, w) := by
  have hnot : ∀ q, (s.ctl q).target ≠ some pp := by
    intro q hq
    rcases hs.target_cases hq with husd | hpar
    · simp [hzombie] at husd
    · have hqp : q = p := by simpa [hchild] using hpar.symm
      exact ctl_ne_user_of_target hq (hqp ▸ hready.2)
  have hidle : s.ctl pp = .user := by
    by_contra hctl
    rcases hs.busy pp hctl with h | h | h <;> simp [hzombie] at h
  rcases hs with ⟨busy, used, parent, live, inherit, unique, settled⟩
  unfold freeproc
  constructor <;> grind [Ctl.target, update_apply]

theorem TraceInv.kill (hs : TraceInv (s, w)) (pid : Int32) :
    TraceInv ({ s with procs := (ProcTable.kill s.procs pid).1 }, w) := by
  rcases kill_cases s.procs pid with ⟨_, hkill⟩ | ⟨q, _, _, hkill⟩
  · simpa [hkill] using hs
  · rw [hkill]
    refine hs.frame_update (n := s.nextpid) rfl ?_ ?_ ?_ (.inl rfl)
    · simp only [killProc]
      split <;> simp_all
    · intro husd
      simp [killProc, husd]
    · intro hctl
      rcases hs.busy q hctl with h | h | h <;> simp_all [killProc]

theorem traceInv_step (x : Traced) (a : Act) (y : Traced) (hx : TraceInv x) (hok : TraceOk x a)
    (h : tracedStep x a = some y) : TraceInv y := by
  rcases x with ⟨s, w⟩
  rcases Option.map_eq_some_iff.1 h with ⟨t, (ht : step s a = some t), rfl⟩
  cases steps_of_step ht with
  | move hmove hold =>
    have hw : maskAfter w a = w := by
      cases a <;> simp_all [Act.move, maskAfter]
    rw [hw]
    rcases Act.move_live hmove with ⟨hfrom, hto⟩
    refine hx.frame_update (n := s.nextpid) rfl ?_ ?_ (fun _ => hto) (.inl rfl)
    · rw [hold]
      rcases hfrom with rfl | rfl | rfl <;> rcases hto with rfl | rfl | rfl <;> simp
    · rw [hold]
      rcases hfrom with rfl | rfl | rfl <;> simp
  | forkAlloc hready hfree => exact hx.forkAlloc hready hfree
  | forkNoMem hready hfree =>
    refine hx.frame_update rfl ?_ ?_ ?_ (.inr hfree)
    · simp [freeproc, hfree]
    · simp [hfree]
    · intro hctl
      rcases hx.busy _ hctl with hb | hb | hb <;> simp [hfree] at hb
  | forkParent hctl hrun =>
    have husd : (s.procs _).state = .USED := hx.used _ _ (.inl hctl)
    exact hx.advance (by simp [hctl, Ctl.target]) rfl husd rfl (by simp [husd])
      (fun _ => husd) (fun _ => rfl)
  | forkRunnable hctl hrun =>
    have husd : (s.procs _).state = .USED := hx.used _ _ (.inr hctl)
    have hpar := hx.parent _ _ (.inl hctl)
    exact hx.advance (by simp [hctl, Ctl.target]) rfl husd rfl (by simp) (by simp) (fun _ => hpar)
  | forkMask hctl hrun => exact hx.forkMask hctl hrun (hok _ _ rfl)
  | trace hready => exact hx.trace hready (hok _ _ rfl)
  | exit ha hready hinit =>
    rcases ha with rfl | rfl
    · exact hx.exit hready
    · exact hx.exit hready
  | setkilled hready =>
    refine hx.frame_update (n := s.nextpid) rfl Iff.rfl id ?_ (.inl rfl)
    intro hctl
    exact absurd hready.2 hctl
  | reap hready hchild hzombie => exact hx.reap hready hchild hzombie
  | kill hready => exact hx.kill _
  | skip ha hready =>
    have hw : maskAfter w a = w := by
      rcases ha with rfl | ⟨c, rfl⟩ | ⟨n, _, _, rfl⟩ <;> rfl
    rw [hw]
    exact hx

/-! ## Lines are printed for the calls that are to be traced -/

/-- The test in `syscall()` reads bit `num` of the mask. -/
theorem traced_iff (mask : BitVec 32) (hnum : num < NSYSCALLS) :
    traced mask num = true ↔ mask.getLsbD num = true := by
  have hbit : ∀ i, (1#32 <<< num).getLsbD i = decide (i = num) := by
    intro i
    simp only [NSYSCALLS] at hnum
    rw [BitVec.getLsbD_shiftLeft, BitVec.getLsbD_one]
    by_cases h : i = num <;> simp [h] <;> omega
  have hzero : mask &&& (1#32 <<< num) = 0 ↔ mask.getLsbD num = false := by
    constructor
    · intro h
      have := congrArg (·.getLsbD num) h
      simpa [hbit] using this
    · intro h
      ext i hi
      by_cases hin : i = num
      · simp [← BitVec.getLsbD_eq_getElem, hbit, hin, h]
      · simp [← BitVec.getLsbD_eq_getElem, hbit, hin]
  cases h : mask.getLsbD num <;> simp_all [traced]

/-- A process that makes a system call runs, and calls an entry of the table. -/
theorem running_of_called {a : Act} (h : step s a = some t)
    (hcall : called a = some (p, num)) : (s.procs p).state = .RUNNING ∧ num < NSYSCALLS := by
  cases steps_of_step h with
  | move hmove _ => cases a <;> simp [Act.move] at hmove <;> simp [called] at hcall
  | exit ha hready _ =>
    rcases ha with rfl | rfl
    · rcases (by simpa [called] using hcall : _ = p ∧ _ = num) with ⟨rfl, rfl⟩
      exact ⟨hready.1, by decide⟩
    · simp [called] at hcall
  | skip ha hready =>
    rcases ha with rfl | ⟨c, rfl⟩ | ⟨n, _, hn, rfl⟩ <;>
      rcases (by simpa [called] using hcall : _ = p ∧ _ = num) with ⟨rfl, rfl⟩
    · exact ⟨hready.1, by decide⟩
    · exact ⟨hready.1, by decide⟩
    · exact ⟨hready.1, hn⟩
  | forkMask _ hrun =>
    rcases (by simpa [called] using hcall : _ = p ∧ _ = num) with ⟨rfl, rfl⟩
    exact ⟨hrun, by decide⟩
  | forkNoMem hready _ | trace hready | reap hready _ _ | kill hready =>
    rcases (by simpa [called] using hcall : _ = p ∧ _ = num) with ⟨rfl, rfl⟩
    exact ⟨hready.1, by decide⟩
  | forkAlloc _ _ | forkParent _ _ | forkRunnable _ _ | setkilled _ => simp [called] at hcall

/-- The call itself leaves the caller with the mask it is to have. -/
theorem mask_of_called {a : Act} (h : step s a = some t) (hcall : called a = some (p, num))
    (hmask : (s.procs p).mask = w p) : (t.procs p).mask = maskAfter w a p := by
  have hupdate : ∀ {q : Slot} {new : Proc}, new.mask = (s.procs q).mask →
      (update s.procs q new p).mask = w p := by
    intro q new hnew
    by_cases hpq : p = q
    · subst hpq
      simpa [hnew] using hmask
    · simpa [update_of_ne hpq] using hmask
  cases steps_of_step h with
  | move hmove _ => cases a <;> simp [Act.move] at hmove <;> simp [called] at hcall
  | forkNoMem _ _ | reap _ _ _ => exact hupdate rfl
  | forkMask _ _ =>
    rename_i q np _ _
    rcases (by simpa [called] using hcall : q = p ∧ _ = num) with ⟨rfl, rfl⟩
    by_cases hnp : q = np
    · subst hnp
      simpa [maskAfter] using hmask
    · simpa [update_of_ne hnp, maskAfter] using hmask
  | trace _ =>
    rcases (by simpa [called] using hcall : _ = p ∧ _ = num) with ⟨rfl, rfl⟩
    simp [maskAfter]
  | exit ha _ _ =>
    have hrep : ∀ q r, (reparent s q r).mask = (s.procs r).mask := by
      intro q r
      unfold reparent
      split <;> rfl
    rcases ha with rfl | rfl
    · rcases (by simpa [called] using hcall : _ = p ∧ _ = num) with ⟨rfl, rfl⟩
      simpa [maskAfter, hrep] using hmask
    · simp [called] at hcall
  | kill _ =>
    rename_i _ pid _
    rcases kill_cases s.procs pid with ⟨_, hkill⟩ | ⟨q, _, _, hkill⟩
    · simpa [hkill, maskAfter] using hmask
    · rw [hkill]
      exact hupdate (by unfold killProc; split <;> rfl)
  | skip ha _ => rcases ha with rfl | ⟨c, rfl⟩ | ⟨n, _, _, rfl⟩ <;> exact hmask
  | forkAlloc _ _ | forkParent _ _ | forkRunnable _ _ | setkilled _ => simp [called] at hcall

/-- In every run in which no process makes a call before the `fork` that created it has stored its
mask, and none that is to have `exit` traced calls it, a system call prints a line exactly when its
bit is set in the mask the process is to have: the one of its own last `trace`, or else the one its
parent was to have when it forked. -/
theorem trace_line_iff {s : State} {w : Slot → BitVec 32}
    (hs : Reaches tracedStep TraceOk tracedBoot (s, w)) {a : Act} {t : State} {p : Slot} {num : Nat}
    (hok : TraceOk (s, w) a) (h : step s a = some t) (hcall : called a = some (p, num)) :
    prints t a = true ↔ (maskAfter w a p).getLsbD num = true := by
  have hinv : TraceInv (s, w) := hs.invariant traceInv_boot traceInv_step
  rcases running_of_called h hcall with ⟨hrun, hnum⟩
  by_cases hexit : ∃ q status, a = .exit q status
  · rcases hexit with ⟨q, status, rfl⟩
    rcases (by simpa [called] using hcall : q = p ∧ SYS_exit = num) with ⟨rfl, rfl⟩
    have hbit : (w q).getLsbD SYS_exit = false := hok
    simp [prints, maskAfter, hbit]
  · have hgiven : ∀ q, s.ctl q ≠ .forkMask p := by
      cases a <;> first | exact hok p num hcall | exact absurd ⟨_, _, rfl⟩ hexit
    have hmask : (s.procs p).mask = w p := by
      refine hinv.settled p (by simp [hrun]) ?_
      intro q hq
      exact hgiven q (hinv.forkMask_of_running hrun hq)
    have hprints : prints t a = traced (t.procs p).mask num := by
      cases a <;> simp_all [prints]
    rw [hprints, mask_of_called h hcall hmask, traced_iff _ hnum]

/-- `init` traces `getpid` and forks; its child, which has made no `trace` call, prints a line for
`getpid` once the `fork` has returned. -/
theorem trace_line_iff_inherited :
    ∃ x, run tracedStep tracedBoot [.scheduler 0, .trace 0 (1#32 <<< SYS_getpid),
        .forkAlloc 0 1 true, .forkParent 0, .forkRunnable 0, .scheduler 1, .forkMask 0] = some x ∧
      step x.1 (.other 1 SYS_getpid) = some x.1 ∧
      (x.2 1).getLsbD SYS_getpid = true ∧ prints x.1 (.other 1 SYS_getpid) = true := by
  have hok : AllOk tracedStep TraceOk tracedBoot [.scheduler 0, .trace 0 (1#32 <<< SYS_getpid),
      .forkAlloc 0 1 true, .forkParent 0, .forkRunnable 0, .scheduler 1, .forkMask 0] := by
    refine ⟨by simp [TraceOk, called], ?_⟩
    rintro _ ⟨rfl⟩
    refine ⟨by simp [TraceOk, tracedBoot, boot], ?_⟩
    rintro _ ⟨rfl⟩
    refine ⟨by simp [TraceOk, called], ?_⟩
    rintro _ ⟨rfl⟩
    refine ⟨by simp [TraceOk, called], ?_⟩
    rintro _ ⟨rfl⟩
    refine ⟨by simp [TraceOk, called], ?_⟩
    rintro _ ⟨rfl⟩
    refine ⟨by simp [TraceOk, called], ?_⟩
    rintro _ ⟨rfl⟩
    refine ⟨?_, fun _ _ => trivial⟩
    rintro p num ⟨rfl⟩
    decide
  refine ⟨_, rfl, rfl, by decide, ?_⟩
  refine (trace_line_iff (Reaches.of_run hok rfl) (t := _) (p := 1) (a := .other 1 SYS_getpid)
    ?_ rfl rfl).2
    (by decide)
  rintro p num ⟨rfl⟩
  decide

/-- `init` forks, and its child runs and traces every call before the `fork` has stored the mask:
the store undoes the `trace`, and the child's `getpid` prints nothing. -/
theorem trace_lost_in_fork :
    ∃ x, run tracedStep tracedBoot [.scheduler 0, .forkAlloc 0 1 true, .forkParent 0,
        .forkRunnable 0, .scheduler 1, .trace 1 (BitVec.allOnes 32), .forkMask 0] = some x ∧
      step x.1 (.other 1 SYS_getpid) = some x.1 ∧
      called (.other 1 SYS_getpid) = some (1, SYS_getpid) ∧
      (maskAfter x.2 (.other 1 SYS_getpid) 1).getLsbD SYS_getpid = true ∧
      prints x.1 (.other 1 SYS_getpid) = false := by
  exact ⟨_, rfl, rfl, rfl, by decide, by decide⟩

end Xv6.ProcTable
