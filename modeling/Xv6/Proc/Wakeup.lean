import Xv6.Proc.Family

/-!
# Wakeup — no wakeup is lost

`wakeup` goes through the table slot by slot and takes the lock of each process in turn, while
`sleep` gives the caller's lock up only with the process's own lock in hand.  The invariants say
which processes may still sleep although what they wait for has happened: only those that the
process with the lock has yet to get to.
-/

namespace Xv6.Sched

open Lib
open Function (update update_apply update_of_ne update_self)

variable {s t : St} {p q : Slot} {c : Cpu} {pc : Pc} {e : Eff} {a : Act} {chan : Chan}

attribute [local grind =] update_apply

/-- A step that wakes `q` up on `chan`. -/
def Eff.Wakes (s : St) (e : Eff) (q : Slot) (chan : Chan) : Prop :=
  e = .touch q (wakeProc (some chan) (s.procs q)) e.next

theorem not_sleepsOn_of_wakes (happly : Applies s c p e t) (h : e.Wakes s q chan) :
    ¬ SleepsOn t q chan := by
  rw [h] at happly
  cases happly
  simp only [SleepsOn, St.setProc, St.setPc, wakeProc, update_self]
  grind

/-! ## Conditions under a lock -/

/-- The process with the lock of monitor `k` has made condition `b` true and has not come to slot
`q` with the `wakeup` for it. -/
def Pc.owes (k b q : Nat) : Pc → Prop
  | .monSect k' dirty _ => k' = k ∧ b ∈ dirty
  | .monWake k' dirty _ b' r => k' = k ∧ b ∈ dirty ∧ (b' = b → r ≤ q)
  | _ => False

/-- The process with the lock of monitor `k` has been at slot `q` with a `wakeup` for condition
`b`. -/
def Pc.served (k b q : Nat) : Pc → Prop
  | .monSect k' _ woken => k' = k ∧ b ∈ woken
  | .monWake k' _ woken b' r => k' = k ∧ (b ∈ woken ∨ b' = b ∧ q < r)
  | _ => False

variable {k b n : Nat}

theorem Pc.owes_holds (h : pc.owes k b n) : pc.holds = some (.monitor k) := by
  cases pc with
  | monSect | monWake =>
    rw [← h.1]
    rfl
  | _ => cases h

theorem Pc.served_holds (h : pc.served k b n) : pc.holds = some (.monitor k) := by
  cases pc with
  | monSect | monWake =>
    rw [← h.1]
    rfl
  | _ => cases h

/-- What is owed to a process stays owed until it is woken. -/
theorem Code.owes (h : Code s p pc e) (hq : pc.owes k b q) :
    e.next.owes k b q ∨ e.Wakes s q (.monitor k b) ∨ q = p := by
  cases h with
  | wake hw hr =>
    cases waking_cases hw with
    | monWake =>
      rename_i r k' b' dirty woken
      rcases hq with ⟨rfl, hb, hr⟩
      by_cases hqr : b' = b ∧ q = r
      · rcases hqr with ⟨rfl, rfl⟩
        exact .inr (.inl rfl)
      · refine .inl ⟨rfl, hb, fun heq => ?_⟩
        have hne : q.val ≠ r.val := fun h => hqr ⟨heq, Fin.ext h⟩
        have := hr heq
        omega
    | _ => cases hq
  | wakeSelf hw =>
    cases waking_cases hw with
    | monWake =>
      rename_i k' b' dirty woken
      rcases hq with ⟨rfl, hb, hr⟩
      by_cases hqp : q = p
      · exact .inr (.inr hqp)
      · refine .inl ⟨rfl, hb, fun heq => ?_⟩
        have hne : q.val ≠ p.val := fun h => hqp (Fin.ext h)
        have := hr heq
        omega
    | _ => cases hq
  | wakeEnd hw hn =>
    cases waking_cases hw with
    | monWake =>
      rename_i n k' b' dirty woken
      rcases hq with ⟨rfl, hb, hr⟩
      refine .inl ⟨rfl, List.mem_filter.2 ⟨hb, decide_eq_true ?_⟩⟩
      rintro rfl
      exact absurd q.isLt (Nat.not_lt.2 (Nat.le_trans hn (hr rfl)))
    | _ => cases hq
  | monSet =>
    refine .inl ⟨hq.1, ?_⟩
    split
    · exact List.mem_cons_of_mem _ hq.2
    · exact hq.2
  | monWake => exact .inl ⟨hq.1, hq.2, fun _ => Nat.zero_le _⟩
  | monHolds => exact .inl hq
  | monWait | monRel => cases hq.2
  | yield => exact .inl hq
  | _ => cases hq

/-- A `wakeup` has been at a slot when it has just been there or has been there before. -/
theorem Code.served (h : Code s p pc e) (hq : e.next.served k b q) :
    pc.served k b q ∨ e.Wakes s q (.monitor k b) ∨ q = p := by
  cases h with
  | enter h =>
    rename_i pc
    cases pc <;> first | exact absurd h id | cases hq
  | wake hw hr =>
    cases waking_cases hw with
    | monWake =>
      rename_i r k' b' dirty woken
      rcases hq with ⟨rfl, hb | ⟨rfl, hr⟩⟩
      · exact .inl ⟨rfl, .inl hb⟩
      · rcases Nat.lt_succ_iff_lt_or_eq.1 hr with hlt | heq
        · exact .inl ⟨rfl, .inr ⟨rfl, hlt⟩⟩
        · rw [Fin.ext heq]
          exact .inr (.inl rfl)
    | _ => cases hq
  | wakeSelf hw =>
    cases waking_cases hw with
    | monWake =>
      rename_i k' b' dirty woken
      rcases hq with ⟨rfl, hb | ⟨rfl, hr⟩⟩
      · exact .inl ⟨rfl, .inl hb⟩
      · rcases Nat.lt_succ_iff_lt_or_eq.1 hr with hlt | heq
        · exact .inl ⟨rfl, .inr ⟨rfl, hlt⟩⟩
        · exact .inr (.inr (Fin.ext heq))
    | _ => cases hq
  | wakeEnd hw hn =>
    cases waking_cases hw with
    | monWake =>
      rename_i n k' b' dirty woken
      rcases hq with ⟨rfl, hb⟩
      rcases List.mem_cons.1 hb with rfl | hb
      · exact .inl ⟨rfl, .inr ⟨rfl, Nat.lt_of_lt_of_le q.isLt hn⟩⟩
      · exact .inl ⟨rfl, .inl hb⟩
    | _ => cases hq
  | waitEnd _ =>
    rename_i kids _ _
    cases kids <;> cases hq
  | loopAlive _ =>
    rename_i l _
    cases l <;> cases hq
  | monSet => exact .inl hq
  | monWake =>
    rcases hq with ⟨rfl, hb | ⟨_, hlt⟩⟩
    · exact .inl ⟨rfl, hb⟩
    · exact absurd hlt (Nat.not_lt_zero _)
  | monHolds | yield => exact .inl hq
  | monStart | monDone => cases hq.2
  | _ => cases hq

/-- A condition is set under its lock; where it becomes true, either the `wakeup` is owed or it has
been called. -/
theorem Code.cond {v : Bool} {pc' : Pc} (h : Code s p pc (.cond k b v pc')) :
    pc.holds = some (.monitor k) ∧ (∀ k b, pc' ≠ .monSleep k b) ∧
      (v = true → pc'.owes k b n ∨ pc.served k b n) := by
  cases h with
  | monSet =>
    refine ⟨rfl, nofun, fun hv => ?_⟩
    rename_i dirty woken
    by_cases hb : b ∈ woken
    · exact .inr ⟨rfl, hb⟩
    · refine .inl ⟨rfl, ?_⟩
      rw [if_pos ⟨hv, hb⟩]
      exact List.mem_cons_self

/-- A process goes to sleep only after it has found the condition false. -/
theorem Code.monSleep_next (h : Code s p pc e) (hnext : e.next = .monSleep k b) :
    pc = .monSleep k b ∨ s.cond k b = false := by
  cases h with
  | enter h =>
    cases hnext
    exact absurd h id
  | wake hw _ | wakeSelf hw | wakeEnd hw _ => cases waking_cases hw <;> cases hnext
  | waitEnd _ =>
    rename_i kids _ _
    cases kids <;> cases hnext
  | loopAlive _ =>
    rename_i l _
    cases l <;> cases hnext
  | monWait hcond | monAgain hcond =>
    cases hnext
    exact .inr hcond
  | yield => exact .inl hnext
  | _ => cases hnext

theorem Code.sleeps_monitor {rel : Option Lock} {x : Proc} {pc' : Pc}
    (h : Code s p pc (.leave x rel pc')) (hstate : x.state = .SLEEPING)
    (hchan : x.chan = some (.monitor k b)) : pc = .monSleep k b := by
  cases h with
  | waitSleep => cases hchan
  | loopSleep =>
    rename_i l
    cases l <;> cases hchan
  | monSleep =>
    cases hchan
    rfl
  | yield | exitZombie => cases hstate

theorem Applies.cond_eq (happly : Applies s c p e t) :
    t.cond = s.cond ∨ ∃ k b v pc, e = .cond k b v pc ∧
      t.cond = update s.cond k (update (s.cond k) b v) := by
  cases happly with
  | cond => exact .inr ⟨_, _, _, _, rfl, rfl⟩
  | _ => exact .inl rfl

/-- The processes that sleep on a condition. -/
structure Signals (s : St) : Prop where
  owed : ∀ (q : Slot) k b, SleepsOn s q (.monitor k b) → s.cond k b = true →
    ∃ p, (s.pc p).owes k b q
  served : ∀ p (q : Slot) k b, (s.pc p).served k b q → ¬ SleepsOn s q (.monitor k b)
  tested : ∀ p k b, s.pc p = .monSleep k b → s.cond k b = false

namespace Signals

variable (h : Signals s) (hinv : Inv s) (hp : s.switch p = .on) (hcode : Code s p (s.pc p) e)
  (happly : Applies s c p e t)

include h hinv hp hcode happly

theorem owed_step (hq : SleepsOn t q (.monitor k b)) (hcond : t.cond k b = true) :
    ∃ p, (t.pc p).owes k b q := by
  have hself := happly.pc_self hcode
  rcases sleepsOn_of_proc hinv hp hcode happly hq with hq' | ⟨rfl, rel, pc, rfl, _⟩
  · by_cases hs : s.cond k b = true
    · rcases h.owed q k b hq' hs with ⟨p', howes⟩
      by_cases hp' : p' = p
      · subst hp'
        rcases hcode.owes howes with hnext | hwakes | rfl
        · exact ⟨p', hself ▸ hnext⟩
        · exact absurd hq (not_sleepsOn_of_wakes happly hwakes)
        · exact absurd hq' (hinv.not_sleepsOn_self hp)
      · rcases happly.pc_other hinv hcode hp' with heq | ⟨_, hnone⟩
        · exact ⟨p', heq ▸ howes⟩
        · rw [Pc.owes_holds howes] at hnone
          cases hnone
    · -- The step has made the condition true.
      rcases happly.cond_eq with heq | ⟨k', b', v, pc, rfl, heq⟩
      · rw [heq] at hcond
        exact absurd hcond hs
      · have hset : k' = k ∧ b' = b ∧ v = true := by
          by_cases hk : k = k'
          · subst hk
            rw [heq, update_self] at hcond
            by_cases hb : b = b'
            · subst hb
              exact ⟨rfl, rfl, by rwa [update_self] at hcond⟩
            · rw [update_of_ne hb] at hcond
              exact absurd hcond hs
          · rw [heq, update_of_ne hk] at hcond
            exact absurd hcond hs
        rcases hset with ⟨rfl, rfl, rfl⟩
        rcases (hcode.cond (n := q)).2.2 rfl with howes | hserved
        · exact ⟨p, hself ▸ howes⟩
        · exact absurd hq' (h.served p q _ _ hserved)
  · -- It has gone to sleep after a test.
    have hpc := hcode.sleeps_monitor rfl rfl
    rcases happly.cond_eq with heq | ⟨_, _, _, _, heq, _⟩
    · rw [heq, h.tested q k b hpc] at hcond
      cases hcond
    · cases heq

theorem served_step {p' : Slot} (hserved : (t.pc p').served k b q) :
    ¬ SleepsOn t q (.monitor k b) := by
  intro hq
  have hself := happly.pc_self hcode
  have hsleeps := sleepsOn_of_proc hinv hp hcode happly hq
  by_cases hp' : p' = p
  · subst hp'
    rw [hself] at hserved
    have hawake : SleepsOn s q (.monitor k b) := by
      rcases hsleeps with hq' | ⟨_, rel, pc, rfl, _⟩
      · exact hq'
      · cases hserved
    rcases hcode.served hserved with hserved' | hwakes | rfl
    · exact h.served p' q k b hserved' hawake
    · exact not_sleepsOn_of_wakes happly hwakes hq
    · exact hinv.not_sleepsOn_self hp hawake
  · rcases happly.pc_other hinv hcode hp' with heq | ⟨heq, _⟩
    · rw [heq] at hserved
      rcases hsleeps with hq' | ⟨rfl, rel, pc, rfl, _⟩
      · exact h.served p' q k b hserved hq'
      · -- Both would have the lock.
        have hpc := hcode.sleeps_monitor rfl rfl
        exact hp' (hinv.holds_unique (Pc.served_holds hserved) (by rw [hpc]; rfl))
    · rw [heq] at hserved
      cases hserved

theorem tested_step {p' : Slot} (hpc : t.pc p' = .monSleep k b) : t.cond k b = false := by
  have hself := happly.pc_self hcode
  have hs : s.cond k b = false := by
    by_cases hp' : p' = p
    · subst hp'
      rcases hcode.monSleep_next (hself.symm.trans hpc) with hsame | hcond
      · exact h.tested p' k b hsame
      · exact hcond
    · rcases happly.pc_other hinv hcode hp' with heq | ⟨heq, _⟩
      · exact h.tested p' k b (heq.symm.trans hpc)
      · cases heq.symm.trans hpc
  rcases happly.cond_eq with heq | ⟨k', b', v, pc, rfl, heq⟩
  · rw [heq, hs]
  · rcases hcode.cond (n := 0) with ⟨hholds, hne, _⟩
    have hp' : p' ≠ p := by
      rintro rfl
      exact hne k b (hself.symm.trans hpc)
    have hk : k' ≠ k := by
      rintro rfl
      rcases happly.pc_other hinv hcode hp' with heq' | ⟨heq', _⟩
      · have hpc' := heq'.symm.trans hpc
        exact hp' (hinv.holds_unique (by rw [hpc']; rfl) hholds)
      · cases heq'.symm.trans hpc
    rw [heq, update_of_ne hk.symm, hs]

end Signals

theorem Signals.moves (h : Signals s) (hm : Moves s t) : Signals t := by
  refine ⟨fun q k b hq hcond => ?_, fun p q k b hserved hq => ?_, fun p k b hpc => ?_⟩
  · rw [hm.cond] at hcond
    rcases h.owed q k b (hm.sleeps q _ hq) hcond with ⟨p, howes⟩
    rcases hm.pc p with heq | ⟨pc, chan, hres, _, _⟩
    · exact ⟨p, heq ▸ howes⟩
    · rw [hres] at howes
      cases howes
  · rcases hm.pc p with heq | ⟨pc, chan, _, heq, hsleeps⟩
    · rw [heq] at hserved
      exact h.served p q k b hserved (hm.sleeps q _ hq)
    · rw [heq] at hserved
      cases hsleeps <;> cases hserved
  · rw [hm.cond]
    rcases hm.pc p with heq | ⟨pc, chan, _, heq, hsleeps⟩
    · exact h.tested p k b (heq.symm.trans hpc)
    · rw [heq] at hpc
      subst hpc
      cases hsleeps

theorem Signals.step (h : Signals s) (hinv : Inv s) (hstep : Steps s a t) : Signals t := by
  rcases moves_or_proc hinv hstep with ⟨hm, _⟩ | ⟨c, p, x, e, _, _, hp, hcode, happly⟩
  · exact h.moves hm
  · exact ⟨fun _ _ _ => h.owed_step hinv hp hcode happly,
      fun _ _ _ _ => h.served_step hinv hp hcode happly,
      fun _ _ _ => h.tested_step hinv hp hcode happly⟩

/-! ## Waiting for children -/

/-- The slots that a scan of `wait` has been through. -/
def Pc.scanned (n : Nat) : Pc → Prop
  | .waitScan _ pp _ => n < pp
  | .waitKilled _ | .waitSleep _ => True
  | _ => False

/-- An exiting process has handed a child over and has not come to slot `n` with the `wakeup` for
the first process. -/
def Pc.owesInit (n : Nat) : Pc → Prop
  | .exitWakeInit _ _ r => r ≤ n
  | _ => False

/-- An exiting process has been at slot `n` with the `wakeup` for its parent. -/
def Pc.wokeParent (n : Nat) : Pc → Prop
  | .exitWakeParent _ _ r => n < r
  | .exitZombie _ => True
  | _ => False

theorem Pc.scanned_holds (h : pc.scanned n) : pc.holds = some .wait := by
  cases pc <;> first | rfl | cases h

theorem Pc.owesInit_holds (h : pc.owesInit n) : pc.holds = some .wait := by
  cases pc <;> first | rfl | cases h

theorem Pc.wokeParent_holds (h : pc.wokeParent n) : pc.holds = some .wait := by
  cases pc <;> first | rfl | cases h

theorem Code.scanned (h : Code s p pc e) (hq : e.next.scanned q) :
    pc.scanned q ∨ (s.procs q).parent ≠ some p ∨ (s.procs q).state ≠ .ZOMBIE := by
  cases h with
  | enter h =>
    rename_i pc
    cases pc <;> first | exact absurd h id | cases hq
  | wake hw _ | wakeSelf hw | wakeEnd hw _ => cases waking_cases hw <;> cases hq
  | waitStart => exact absurd hq (Nat.not_lt_zero _)
  | waitLive _ hz =>
    rcases Nat.lt_succ_iff_lt_or_eq.1 hq with hlt | heq
    · exact .inl hlt
    · rw [Fin.ext heq]
      exact .inr (.inr hz)
  | waitOther hparent =>
    rcases Nat.lt_succ_iff_lt_or_eq.1 hq with hlt | heq
    · exact .inl hlt
    · rw [Fin.ext heq]
      exact .inr (.inl hparent)
  | waitEnd hn =>
    rename_i kids _
    cases kids
    · cases hq
    · exact .inl (Nat.lt_of_lt_of_le q.isLt hn)
  | waitAlive => exact .inl trivial
  | loopAlive _ =>
    rename_i l _
    cases l <;> cases hq
  | yield => exact .inl hq
  | _ => cases hq

theorem Code.owesInit (h : Code s p pc e) (hq : pc.owesInit q) :
    e.next.owesInit q ∨ e.Wakes s q (.proc s.initproc) ∨ q = p := by
  cases h with
  | wake hw hr =>
    cases waking_cases hw with
    | exitWakeInit =>
      rename_i r status n
      rcases Nat.eq_or_lt_of_le hq with heq | hlt
      · rw [← Fin.ext heq]
        exact .inr (.inl rfl)
      · exact .inl hlt
    | _ => cases hq
  | wakeSelf hw =>
    cases waking_cases hw with
    | exitWakeInit =>
      rcases Nat.eq_or_lt_of_le hq with heq | hlt
      · exact .inr (.inr (Fin.ext heq).symm)
      · exact .inl hlt
    | _ => cases hq
  | wakeEnd hw hn =>
    cases waking_cases hw with
    | exitWakeInit => exact absurd q.isLt (Nat.not_lt.2 (Nat.le_trans hn hq))
    | _ => cases hq
  | yield => exact .inl hq
  | _ => cases hq

theorem Code.wokeParent (h : Code s p pc e) (hq : e.next.wokeParent q)
    (hpc : ∀ status chan r, pc = .exitWakeParent status chan r → chan = some q) :
    pc.wokeParent q ∨ e.Wakes s q (.proc q) ∨ q = p := by
  cases h with
  | enter h =>
    rename_i pc
    cases pc <;> first | exact absurd h id | cases hq
  | exitAll => exact absurd hq (Nat.not_lt_zero _)
  | wake hw hr =>
    cases waking_cases hw with
    | exitWakeParent =>
      rcases Nat.lt_succ_iff_lt_or_eq.1 hq with hlt | heq
      · exact .inl hlt
      · rw [hpc _ _ _ rfl, ← Fin.ext heq]
        exact .inr (.inl rfl)
    | _ => cases hq
  | wakeSelf hw =>
    cases waking_cases hw with
    | exitWakeParent =>
      rcases Nat.lt_succ_iff_lt_or_eq.1 hq with hlt | heq
      · exact .inl hlt
      · exact .inr (.inr (Fin.ext heq))
    | _ => cases hq
  | wakeEnd hw hn =>
    cases waking_cases hw with
    | exitWakeParent => exact .inl (Nat.lt_of_lt_of_le q.isLt hn)
    | _ => cases hq
  | waitEnd _ =>
    rename_i kids _ _
    cases kids <;> cases hq
  | loopAlive _ =>
    rename_i l _
    cases l <;> cases hq
  | yield => exact .inl hq
  | _ => cases hq

/-- The channel of the `wakeup` in `exit` is the parent. -/
theorem Code.exitWakeParent_next {status : Int} {par : Option Slot} {r : Nat}
    (h : Code s p pc e) (hnext : e.next = .exitWakeParent status par r) :
    par = (s.procs p).parent ∨ ∃ r, pc = .exitWakeParent status par r := by
  cases h with
  | enter h =>
    cases hnext
    exact absurd h id
  | exitAll =>
    cases hnext
    exact .inl rfl
  | wake hw _ | wakeSelf hw | wakeEnd hw _ =>
    cases waking_cases hw <;> cases hnext
    all_goals exact .inr ⟨_, rfl⟩
  | waitEnd _ =>
    rename_i kids _ _
    cases kids <;> cases hnext
  | loopAlive _ =>
    rename_i l _
    cases l <;> cases hnext
  | yield => exact .inr ⟨_, hnext⟩
  | _ => cases hnext

/-- Parents and children in `wait` and `exit`. -/
structure Waits (s : St) : Prop where
  /-- A process that sleeps in `wait` has a zombie for a child only as long as it is to be woken. -/
  owed : ∀ p q, SleepsOn s p (.proc p) → (s.procs q).parent = some p →
    (s.procs q).state = .ZOMBIE → p = s.initproc ∧ ∃ x, (s.pc x).owesInit p
  scanned : ∀ p (q : Slot), (s.pc p).scanned q → (s.procs q).parent = some p →
    (s.procs q).state ≠ .ZOMBIE
  chan : ∀ p status chan r, s.pc p = .exitWakeParent status chan r → chan = (s.procs p).parent
  woken : ∀ x (p : Slot), (s.procs x).parent = some p → (s.pc x).wokeParent p →
    ¬ SleepsOn s p (.proc p)

/-- A process that sleeps on itself does so in `wait`. -/
theorem Code.sleeps_wait {rel : Option Lock} {x : Proc} {pc' : Pc}
    (h : Code s p pc (.leave x rel pc')) (hstate : x.state = .SLEEPING)
    (hchan : x.chan = some (.proc q)) : ∃ addr, pc = .waitSleep addr := by
  cases h with
  | waitSleep => exact ⟨_, rfl⟩
  | loopSleep =>
    rename_i l
    cases l <;> cases hchan
  | monSleep => cases hchan
  | yield | exitZombie => cases hstate

theorem Code.parent_owes {par : Slot} {pc' : Pc} (h : Code s p pc (.parent q par pc')) :
    pc.holds = some .wait ∧ (par = p ∨ par = s.initproc ∧ pc'.owesInit n) ∧
      ¬ pc'.scanned n ∧ ¬ pc'.wokeParent n ∧ ∀ st chan r, pc' ≠ .exitWakeParent st chan r := by
  cases h with
  | forkSet => exact ⟨rfl, .inl rfl, id, id, nofun⟩
  | exitChild => exact ⟨rfl, .inr ⟨rfl, Nat.zero_le _⟩, id, id, nofun⟩

/-- A process becomes a zombie at the end of its `exit`. -/
theorem Applies.zombie (hcode : Code s p pc e) (happly : Applies s c p e t)
    (hq : (t.procs q).state = .ZOMBIE) : (s.procs q).state = .ZOMBIE ∨
      q = p ∧ e.next = .dead ∧ pc.holds = some .wait ∧ (∀ n, pc.wokeParent n) ∧
        (t.procs q).parent = (s.procs q).parent := by
  cases happly with
  | goto | acquire | release | cond => exact .inl hq
  | parent =>
    simp only [St.setProc, St.setPc] at hq
    grind
  | touch =>
    have hx := hcode.touch
    simp only [St.setProc, St.setPc] at hq
    grind [freeproc]
  | alloc =>
    have hx := hcode.alloc
    simp only [St.setProc, St.setPc] at hq
    grind [freeproc]
  | leave =>
    by_cases hqp : q = p
    · subst hqp
      simp only [St.setProc, St.setPc, update_self] at hq
      cases hcode with
      | exitZombie =>
        refine .inr ⟨rfl, rfl, rfl, fun _ => trivial, ?_⟩
        simp only [St.setProc, St.setPc, update_self]
      | waitSleep | loopSleep | monSleep | yield => cases hq
    · simp only [St.setProc, St.setPc, update_of_ne hqp] at hq
      exact .inl hq

/-- While a process holds `wait_lock`, no other one changes parents or becomes a zombie. -/
theorem Applies.locked_out {r : Slot} (hinv : Inv s) (hcode : Code s p (s.pc p) e)
    (happly : Applies s c p e t) (hr : r ≠ p) (hholds : (s.pc r).holds = some .wait) :
    (s.pc p).holds ≠ some .wait ∧ t.pc r = s.pc r ∧
      (∀ x, (t.procs x).parent = (s.procs x).parent ∨ (t.procs x).parent = none) := by
  have hp' : (s.pc p).holds ≠ some .wait := fun hwait => hr (hinv.holds_unique hholds hwait)
  refine ⟨hp', ?_, fun x => ?_⟩
  · rcases happly.pc_other hinv hcode hr with heq | ⟨_, hnone⟩
    · exact heq
    · rw [hholds] at hnone
      cases hnone
  · rcases happly.parent_eq hcode (q := x) with ⟨par, pc', rfl, _⟩ | ⟨_, hsame | ⟨hnone, _⟩⟩
    · exact absurd (hcode.parent_owes (n := 0)).1 hp'
    · exact .inl hsame
    · exact .inr hnone

/-- The parent of a process that holds `wait_lock` stays, unless the process itself sets it. -/
theorem Applies.parent_stays {x : Slot} (hinv : Inv s) (hp : s.switch p = .on)
    (hcode : Code s p (s.pc p) e) (happly : Applies s c p e t) (hx : (t.pc x).holds = some .wait)
    (hself : x = p → ∀ par pc', e ≠ .parent x par pc') :
    (t.procs x).parent = (s.procs x).parent := by
  have hrun : (s.procs x).state = .RUNNING := by
    refine (hinv.switched.running x).2 (.inl ?_)
    by_cases hxp : x = p
    · rw [hxp, hp]
    · rcases happly.pc_other hinv hcode hxp with heq | ⟨heq, _⟩
      · refine hinv.locked.on x ?_
        rw [← heq, hx]
        exact nofun
      · rw [heq] at hx
        cases hx
  rcases happly.parent_eq hcode (q := x) with ⟨par, pc', rfl, _⟩ | ⟨_, hsame | ⟨_, _, hgone⟩⟩
  · by_cases hxp : x = p
    · exact absurd rfl (hself hxp par pc')
    · rcases happly.pc_other hinv hcode hxp with heq | ⟨heq, _⟩
      · rw [heq] at hx
        exact absurd (hinv.holds_unique hx (hcode.parent_owes (n := 0)).1) hxp
      · rw [heq] at hx
        cases hx
  · exact hsame
  · rw [hrun] at hgone
    rcases hgone with hgone | hgone <;> cases hgone

namespace Waits

variable (h : Waits s) (hinv : Inv s) (hp : s.switch p = .on) (hcode : Code s p (s.pc p) e)
  (happly : Applies s c p e t)

include h hinv hp hcode happly

theorem owed_step {x : Slot} (hq : SleepsOn t q (.proc q)) (hparent : (t.procs x).parent = some q)
    (hz : (t.procs x).state = .ZOMBIE) : q = s.initproc ∧ ∃ y, (t.pc y).owesInit q := by
  have hself := happly.pc_self hcode
  rcases sleepsOn_of_proc hinv hp hcode happly hq with hq' | ⟨rfl, rel, pc, rfl, _⟩
  · have hne : q ≠ p := by
      rintro rfl
      exact hinv.not_sleepsOn_self hp hq'
    rcases happly.zombie hcode hz with hz' | ⟨rfl, _, _, hwoke, hsame⟩
    · rcases happly.parent_eq hcode (q := x) with
        ⟨par, pc', rfl, hpar, _⟩ | ⟨_, hsame | ⟨hnone, _⟩⟩
      · -- The child has just been handed over.
        cases hpar.symm.trans hparent
        rcases (hcode.parent_owes (n := q)).2.1 with heq | ⟨hinit, howes⟩
        · exact absurd heq hne
        · exact ⟨hinit, p, hself ▸ howes⟩
      · rw [hsame] at hparent
        rcases h.owed q x hq' hparent hz' with ⟨hinit, y, howes⟩
        refine ⟨hinit, ?_⟩
        by_cases hy : y = p
        · subst hy
          rcases hcode.owesInit howes with hnext | hwakes | heq
          · exact ⟨y, hself ▸ hnext⟩
          · rw [← hinit] at hwakes
            exact absurd hq (not_sleepsOn_of_wakes happly hwakes)
          · exact absurd heq hne
        · rcases happly.pc_other hinv hcode hy with heq | ⟨_, hnone⟩
          · exact ⟨y, heq ▸ howes⟩
          · rw [Pc.owesInit_holds howes] at hnone
            cases hnone
      · cases hnone.symm.trans hparent
    · -- The child has called `wakeup` before.
      rw [hsame] at hparent
      exact absurd hq' (h.woken x q hparent (hwoke q))
  · -- `wait` has looked at the children before it sleeps.
    rcases hcode.sleeps_wait rfl rfl with ⟨addr, hpc⟩
    have hscanned : (s.pc q).scanned x := by
      rw [hpc]
      trivial
    rcases happly.zombie hcode hz with hz' | ⟨_, hdead, _⟩
    · rcases happly.parent_eq hcode (q := x) with ⟨par, pc', heq, _⟩ | ⟨_, hsame | ⟨hnone, _⟩⟩
      · cases heq
      · exact absurd hz' (h.scanned q x hscanned (hsame.symm.trans hparent))
      · cases hnone.symm.trans hparent
    · cases hdead

theorem scanned_step {r : Slot} (hr : (t.pc r).scanned q) (hparent : (t.procs q).parent = some r) :
    (t.procs q).state ≠ .ZOMBIE := by
  intro hz
  by_cases hrp : r = p
  · subst hrp
    rw [happly.pc_self hcode] at hr
    have hparent' : (s.procs q).parent = some r := by
      rcases happly.parent_eq hcode (q := q) with ⟨par, pc', rfl, _⟩ | ⟨_, hsame | ⟨hnone, _⟩⟩
      · exact absurd hr (hcode.parent_owes (n := q)).2.2.1
      · exact hsame.symm.trans hparent
      · cases hnone.symm.trans hparent
    have hz' : (s.procs q).state = .ZOMBIE := by
      rcases happly.zombie hcode hz with hz' | ⟨_, hdead, _⟩
      · exact hz'
      · rw [hdead] at hr
        cases hr
    rcases hcode.scanned hr with hscanned | hne | hne
    · exact h.scanned r q hscanned hparent' hz'
    · exact hne hparent'
    · exact hne hz'
  · have hsame : t.pc r = s.pc r := by
      rcases happly.pc_other hinv hcode hrp with heq | ⟨heq, _⟩
      · exact heq
      · rw [heq] at hr
        cases hr
    rw [hsame] at hr
    rcases happly.locked_out hinv hcode hrp (Pc.scanned_holds hr) with ⟨hp', _, hpar⟩
    have hz' : (s.procs q).state = .ZOMBIE := by
      rcases happly.zombie hcode hz with hz' | ⟨_, _, hwait, _⟩
      · exact hz'
      · exact absurd hwait hp'
    rcases hpar q with heq | hnone
    · exact h.scanned r q hr (heq.symm.trans hparent) hz'
    · rw [hnone] at hparent
      cases hparent

theorem chan_step {x : Slot} {status : Int} {par : Option Slot} {r : Nat}
    (hx : t.pc x = .exitWakeParent status par r) : par = (t.procs x).parent := by
  have hself : x = p → ∀ par pc', e ≠ .parent x par pc' := by
    rintro rfl par' pc' rfl
    exact (hcode.parent_owes (n := 0)).2.2.2.2 _ _ _ ((happly.pc_self hcode).symm.trans hx)
  rw [happly.parent_stays hinv hp hcode (by rw [hx]; rfl) hself]
  by_cases hxp : x = p
  · subst hxp
    rcases hcode.exitWakeParent_next ((happly.pc_self hcode).symm.trans hx) with heq | ⟨r', hpc⟩
    · exact heq
    · exact h.chan x status par r' hpc
  · rcases happly.pc_other hinv hcode hxp with heq | ⟨heq, _⟩
    · exact h.chan x status par r (heq.symm.trans hx)
    · cases heq.symm.trans hx

theorem woken_step {x : Slot} (hparent : (t.procs x).parent = some q)
    (hx : (t.pc x).wokeParent q) : ¬ SleepsOn t q (.proc q) := by
  intro hq
  have hself : x = p → ∀ par pc', e ≠ .parent x par pc' := by
    rintro rfl par' pc' rfl
    rw [happly.pc_self hcode] at hx
    exact (hcode.parent_owes (n := q)).2.2.2.1 hx
  rw [happly.parent_stays hinv hp hcode (Pc.wokeParent_holds hx) hself] at hparent
  have hsleeps := sleepsOn_of_proc hinv hp hcode happly hq
  by_cases hxp : x = p
  · subst hxp
    rw [happly.pc_self hcode] at hx
    have hq' : SleepsOn s q (.proc q) := by
      rcases hsleeps with hq' | ⟨_, rel, pc, rfl, _⟩
      · exact hq'
      · cases hx
    have hchan : ∀ status par r, s.pc x = .exitWakeParent status par r → par = some q :=
      fun status par r hpc => (h.chan x status par r hpc).trans hparent
    rcases hcode.wokeParent hx hchan with hwoke | hwakes | rfl
    · exact h.woken x q hparent hwoke hq'
    · exact not_sleepsOn_of_wakes happly hwakes hq
    · exact hinv.not_sleepsOn_self hp hq'
  · rcases happly.pc_other hinv hcode hxp with heq | ⟨heq, _⟩
    · rw [heq] at hx
      rcases hsleeps with hq' | ⟨rfl, rel, pc, rfl, _⟩
      · exact h.woken x q hparent hx hq'
      · -- Both would have the lock.
        rcases hcode.sleeps_wait rfl rfl with ⟨addr, hpc⟩
        exact hxp (hinv.holds_unique (Pc.wokeParent_holds hx) (by rw [hpc]; rfl))
    · rw [heq] at hx
      cases hx

end Waits

theorem Waits.moves (h : Waits s) (hm : Moves s t) : Waits t := by
  refine ⟨fun p q hp hparent hz => ?_, fun p q hscan hparent hz => ?_, fun p st chan r hpc => ?_,
    fun x p hparent hx hp => ?_⟩
  · rw [hm.parent q] at hparent
    rcases h.owed p q (hm.sleeps p _ hp) hparent ((hm.zombie q).1 hz) with ⟨hinit, x, hx⟩
    refine ⟨hm.initproc ▸ hinit, x, ?_⟩
    rcases hm.pc x with heq | ⟨pc, chan, hres, _, _⟩
    · rw [heq]
      exact hx
    · rw [hres] at hx
      cases hx
  · rw [hm.parent q] at hparent
    rcases hm.pc p with heq | ⟨pc, chan, _, heq, hsleeps⟩
    · rw [heq] at hscan
      exact h.scanned p q hscan hparent ((hm.zombie q).1 hz)
    · rw [heq] at hscan
      cases hsleeps <;> cases hscan
  · rw [hm.parent p]
    rcases hm.pc p with heq | ⟨pc, chan, _, heq, hsleeps⟩
    · exact h.chan p st _ r (heq.symm.trans hpc)
    · rw [heq] at hpc
      subst hpc
      cases hsleeps
  · rw [hm.parent x] at hparent
    rcases hm.pc x with heq | ⟨pc, chan, _, heq, hsleeps⟩
    · rw [heq] at hx
      exact h.woken x p hparent hx (hm.sleeps p _ hp)
    · rw [heq] at hx
      cases hsleeps <;> cases hx

theorem Waits.step (h : Waits s) (hinv : Inv s) (hstep : Steps s a t) : Waits t := by
  rcases moves_or_proc hinv hstep with ⟨hm, _⟩ | ⟨c, p, x, e, _, _, hp, hcode, happly⟩
  · exact h.moves hm
  · have hinit : t.initproc = s.initproc := by
      cases happly <;> rfl
    refine ⟨?_, fun _ _ => h.scanned_step hinv hp hcode happly,
      fun _ _ _ _ => h.chan_step hinv hp hcode happly,
      fun _ _ => h.woken_step hinv hp hcode happly⟩
    rw [hinit]
    exact fun _ _ => h.owed_step hinv hp hcode happly

/-! ## Runs -/

theorem boot_awake : ¬ SleepsOn boot p chan := by
  intro h
  rcases boot_state p with hp | hp <;> cases hp.symm.trans h.1

theorem signals_boot : Signals boot :=
  ⟨fun _ _ _ h => absurd h boot_awake, nofun, nofun⟩

theorem waits_boot : Waits boot :=
  ⟨fun _ _ h => absurd h boot_awake, nofun, nofun, fun _ _ _ _ => boot_awake⟩

theorem wakeups_of_reaches (h : Reaches step anyStep boot s) : Inv s ∧ Signals s ∧ Waits s :=
  h.invariant (P := fun s => Inv s ∧ Signals s ∧ Waits s) ⟨inv_boot, signals_boot, waits_boot⟩
    fun _ _ _ hs _ hstep => ⟨hs.1.step (steps_of_step hstep),
      hs.2.1.step hs.1 (steps_of_step hstep), hs.2.2.step hs.1 (steps_of_step hstep)⟩

theorem no_lost_wakeup (h : Reaches step anyStep boot s) :
    (∀ k b p, s.lock (.monitor k) = none → s.cond k b = true → ¬ SleepsOn s p (.monitor k b)) ∧
      ∀ p q, s.lock .wait = none → SleepsOn s p (.proc p) → (s.procs q).parent = some p →
        (s.procs q).state ≠ .ZOMBIE := by
  rcases wakeups_of_reaches h with ⟨hinv, hsig, hwaits⟩
  refine ⟨fun k b p hlock hcond hp => ?_, fun p q hlock hp hparent hz => ?_⟩
  · rcases hsig.owed p k b hp hcond with ⟨x, hx⟩
    rw [(hinv.locked.holder _ x).2 (Pc.owes_holds hx)] at hlock
    cases hlock
  · rcases hwaits.owed p q hp hparent hz with ⟨_, x, hx⟩
    rw [(hinv.locked.holder _ x).2 (Pc.owesInit_holds hx)] at hlock
    cases hlock

/-- The first process makes two children and sleeps in `wait`.  One child sleeps on a condition, and
the other makes it true. -/
def wakeRun : List Act :=
  List.flatten
    [[.pick 0 0, .choose 0, .arrive 0, .proc 0 .fork, .proc 0 (.slot 1 true)],
      List.replicate 4 (.proc 0 .go), [.proc 0 .fork, .proc 0 (.slot 2 true)],
      List.replicate 4 (.proc 0 .go), [.proc 0 (.wait false), .proc 0 .go],
      List.replicate 65 (.proc 0 (.flag true)), [.proc 0 .go, .proc 0 .go, .swtch 0, .back 0],
      [.pick 1 1, .choose 1, .arrive 1, .proc 1 (.monitor 0), .proc 1 .go, .proc 1 (.test 0),
        .proc 1 .go, .swtch 1, .back 1],
      [.pick 0 2, .choose 0, .arrive 0, .proc 0 (.monitor 0), .proc 0 .go,
        .proc 0 (.setCond 0 true), .proc 0 (.wakeCond 0)],
      List.replicate 66 (.proc 0 .go)]

set_option maxRecDepth 100000 in
theorem no_lost_wakeup_two : ∃ s, run step boot wakeRun = some s ∧ s.lock .wait = none ∧
    SleepsOn s 0 (.proc 0) ∧ (s.procs 1).parent = some 0 ∧ (s.procs 1).state ≠ .ZOMBIE ∧
    s.lock (.monitor 0) = none ∧ s.cond 0 0 = true ∧ ∀ p, ¬ SleepsOn s p (.monitor 0 0) := by
  have heval : (run step boot wakeRun).any fun s =>
      decide (s.lock .wait = none ∧ s.lock (.monitor 0) = none ∧
        ((s.procs 0).state = .SLEEPING ∧ (s.procs 0).chan = some (.proc 0)) ∧
        (s.procs 1).parent = some 0 ∧ s.cond 0 0 = true) := by
    decide +kernel
  rcases exists_of_any heval with ⟨s, hs, hwait, hmon, hsleeps, hparent, hcond⟩
  have hno := no_lost_wakeup (.of_run_any hs)
  exact ⟨s, hs, hwait, hsleeps, hparent, hno.2 0 1 hwait hsleeps hparent, hmon, hcond,
    fun p => hno.1 0 0 p hmon hcond⟩

end Xv6.Sched
