import Xv6.Proc.Table

/-!
# Kill — which process `kill` hits

`kill` compares `p->pid` without looking at `p->state`, and the `pid` of a free slot is 0, so
`kill(0)` marks a free slot as killed.  `allocproc` does not clear the mark, so the next process
in that slot starts out killed.  In every run whose `kill(0)` calls do not meet a free slot first,
`kill` hits exactly the live process it names and new processes start unkilled.
-/

namespace Xv6.ProcTable

open Lib
open Function (update update_of_ne update_self)

/-! ## What is asked of `kill` -/

/-- `kill(pid)` returns 0 iff a live process has this `pid`; then it marks that process and changes
no other, and otherwise it changes nothing. -/
def KillsLive (procs : Slot → Proc) (pid : Int32) : Prop :=
  ((kill procs pid).2 = 0 ↔ ∃ q, (procs q).state ≠ .UNUSED ∧ (procs q).pid = pid) ∧
    ((kill procs pid).2 = 0 → ∃ q, (procs q).state ≠ .UNUSED ∧ (procs q).pid = pid ∧
      ((kill procs pid).1 q).killed = 1 ∧ ∀ r, r ≠ q → (kill procs pid).1 r = procs r) ∧
    ((kill procs pid).2 ≠ 0 → (kill procs pid).1 = procs)

/-- The argument is not 0, or the first slot whose `pid` is 0 is in use. -/
def MissesFree (procs : Slot → Proc) (pid : Int32) : Prop :=
  pid = 0 → ∀ q, (procs q).pid = 0 → (∀ r, r < q → (procs r).pid ≠ 0) → (procs q).state ≠ .UNUSED

/-- The condition on the steps of a run: every call of `kill` misses the free slots. -/
def KillOk (s : State) : Act → Prop
  | .kill _ pid => MissesFree s.procs pid
  | _ => True

/-! ## Free slots stay clean -/

/-- A free slot has `pid` 0 and is not marked as killed. -/
def FreeClean (s : State) : Prop :=
  ∀ q, (s.procs q).state = .UNUSED → (s.procs q).pid = 0 ∧ (s.procs q).killed = 0

theorem freeClean_boot : FreeClean boot := by
  intro q hq
  by_cases h : q = 0
  · subst h
    simp [boot] at hq
  · simp [boot, update_of_ne h, Proc.zero]

/-- Replacing one slot keeps the free slots clean if the new contents are clean. -/
theorem FreeClean.update {s t : State} (hs : FreeClean s) {p : Slot} {new : Proc}
    (ht : t.procs = update s.procs p new)
    (hnew : new.state = .UNUSED → new.pid = 0 ∧ new.killed = 0) : FreeClean t := by
  intro q hq
  rw [ht] at hq ⊢
  by_cases h : q = p
  · subst h
    simp only [update_self] at hq ⊢
    exact hnew hq
  · simp only [update_of_ne h] at hq ⊢
    exact hs q hq

/-- A slot that `kill` hits is in use, unless its `pid` is the 0 of a free slot. -/
theorem FreeClean.kill {s : State} (hs : FreeClean s) {pid : Int32}
    (hok : MissesFree s.procs pid) {q : Slot} (hq : (s.procs q).pid = pid)
    (hfirst : ∀ r, r < q → (s.procs r).pid ≠ pid) : (s.procs q).state ≠ .UNUSED := by
  intro hfree
  have hzero : pid = 0 := hq.symm.trans (hs q hfree).1
  subst hzero
  exact hok rfl q hq hfirst hfree

theorem freeClean_step (s : State) (a : Act) (t : State) (hs : FreeClean s) (hok : KillOk s a)
    (h : step s a = some t) : FreeClean t := by
  cases steps_of_step h with
  | move hmove hold =>
    refine hs.update rfl ?_
    intro hnew
    -- No scheduling step makes a slot free.
    rcases (Act.move_live hmove).2 with rfl | rfl | rfl <;> simp at hnew
  | forkAlloc hready hfree =>
    exact hs.update rfl (by simp)
  | forkNoMem hready hfree =>
    exact hs.update rfl (by simp [freeproc])
  | forkParent hctl hrun => exact hs.update rfl (hs _)
  | forkRunnable hctl hrun => exact hs.update rfl (by simp)
  | forkMask hctl hrun => exact hs.update rfl (hs _)
  | trace hready => exact hs.update rfl (hs _)
  | exit ha hready hinit =>
    rename_i p status
    intro q hq
    by_cases hqp : q = p
    · subst hqp
      simp at hq
    · have hrep : (reparent s p q).state = (s.procs q).state ∧
          (reparent s p q).pid = (s.procs q).pid ∧
          (reparent s p q).killed = (s.procs q).killed := by
        unfold reparent
        split <;> simp
      simp only [update_of_ne hqp, hrep] at hq ⊢
      exact hs q hq
  | setkilled hready =>
    refine hs.update rfl ?_
    intro hfree
    simp [hready.1] at hfree
  | reap hready hchild hzombie => exact hs.update rfl (by simp [freeproc])
  | kill hready =>
    rename_i p pid
    rcases kill_cases s.procs pid with ⟨_, hkill⟩ | ⟨q, hq, hfirst, hkill⟩
    · simpa [hkill] using hs
    · refine hs.update (by rw [hkill]) ?_
      intro hfree
      have hlive := hs.kill hok hq hfirst
      simp only [killProc] at hfree
      split at hfree <;> simp_all
  | skip ha hready => exact hs

/-! ## `kill` and the live processes -/

theorem killsLive_iff {s : State} (hs : FreeClean s) (pid : Int32) :
    KillsLive s.procs pid ↔ MissesFree s.procs pid := by
  rcases kill_cases s.procs pid with ⟨hnone, hkill⟩ | ⟨q, hq, hfirst, hkill⟩
  · constructor
    · intro _ hzero q hq
      exact absurd (hq.trans hzero.symm) (hnone q)
    · intro _
      refine ⟨?_, ?_, ?_⟩
      · rw [hkill]
        constructor
        · intro h
          simp at h
        · rintro ⟨q, _, hq⟩
          exact absurd hq (hnone q)
      · rw [hkill]
        intro h
        simp at h
      · intro _
        rw [hkill]
  · constructor
    · rintro ⟨hret, hmark, _⟩ hzero r hr hrfirst hfree
      -- The free slot is the one the scan stops at, so marking it changes a slot that is not live.
      have hrq : r = q := by
        apply le_antisymm
        · exact not_lt.1 fun hlt => hrfirst q hlt (hq.trans hzero)
        · exact not_lt.1 fun hlt => hfirst r hlt (hr.trans hzero.symm)
      subst hrq
      rcases hmark (by rw [hkill]) with ⟨x, hxlive, _, _, hothers⟩
      have hne : r ≠ x := by
        intro heq
        exact hxlive (heq ▸ hfree)
      have hsame := hothers r hne
      rw [hkill] at hsame
      have hmarked := congrArg Proc.killed hsame
      simp [killProc, (hs r hfree).2] at hmarked
    · intro hok
      have hlive := hs.kill hok hq hfirst
      refine ⟨?_, ?_, ?_⟩
      · rw [hkill]
        exact ⟨fun _ => ⟨q, hlive, hq⟩, fun _ => rfl⟩
      · intro _
        rw [hkill]
        refine ⟨q, hlive, hq, by simp [killProc], ?_⟩
        intro r hr
        exact update_of_ne hr _ _
      · intro h
        rw [hkill] at h
        exact absurd rfl h

/-- In every run in which `kill(0)` never meets a free slot first, a call of `kill` hits exactly
the live process it names, if and only if it does not meet a free slot either, and a successful
`fork` yields a process that is not marked as killed. -/
theorem kill_hits_live {s : State} (hs : Reaches step KillOk boot s) :
    (∀ pid, KillsLive s.procs pid ↔ MissesFree s.procs pid) ∧
      ∀ p np t, step s (.forkAlloc p np true) = some t → (t.procs np).killed = 0 := by
  have hclean : FreeClean s := hs.invariant freeClean_boot freeClean_step
  refine ⟨killsLive_iff hclean, ?_⟩
  intro p np t h
  cases steps_of_step h with
  | move hmove _ => simp [Act.move] at hmove
  | forkAlloc hready hfree => simpa [allocproc] using (hclean np hfree).2
  | exit ha _ _ => simp at ha
  | skip ha _ => simp at ha

/-- `init` forks a child, kills it by its `pid` and forks again: the second child is unmarked. -/
theorem kill_hits_live_second_child :
    ∃ s, run step boot [.scheduler 0, .forkAlloc 0 1 true, .forkParent 0, .forkRunnable 0,
        .forkMask 0, .kill 0 2] = some s ∧ KillsLive s.procs 2 ∧
      ∃ t, step s (.forkAlloc 0 2 true) = some t ∧ (t.procs 2).killed = 0 := by
  have hok : AllOk step KillOk boot [.scheduler 0, .forkAlloc 0 1 true, .forkParent 0,
      .forkRunnable 0, .forkMask 0, .kill 0 2] :=
    ⟨trivial, fun _ _ => ⟨trivial, fun _ _ => ⟨trivial, fun _ _ => ⟨trivial, fun _ _ =>
      ⟨trivial, fun _ _ => ⟨fun h => absurd h (by decide), fun _ _ => trivial⟩⟩⟩⟩⟩⟩
  refine ⟨_, rfl, ?_, ?_⟩
  · exact ((kill_hits_live (Reaches.of_run hok rfl)).1 2).2 fun h => absurd h (by decide)
  · exact ⟨_, rfl, (kill_hits_live (Reaches.of_run hok rfl)).2 0 2 _ rfl⟩

/-- `init` calls `kill(0)` while no process has `pid` 0: the call returns 0, and the child of the
next `fork` is born with `killed` set. -/
theorem kill_zero_marks_free_slot :
    ∃ s, run step boot [.scheduler 0] = some s ∧ ¬ KillsLive s.procs 0 ∧
      ∃ t, run step s [.kill 0 0, .forkAlloc 0 1 true] = some t ∧ (t.procs 1).killed = 1 := by
  refine ⟨_, rfl, ?_, _, rfl, by decide⟩
  intro h
  rcases h.1.1 (by decide) with ⟨q, hlive, hpid⟩
  revert q
  decide

end Xv6.ProcTable
