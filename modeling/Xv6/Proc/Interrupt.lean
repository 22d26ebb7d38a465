import Xv6.Proc.Wakeup

/-!
# Interrupt — `kill` and the loops that can be interrupted

The loops of `piperead`, `pipewrite`, `consoleread`, `sys_sleep` and `wait` ask `killed` before they
sleep, but the lock of the process is free between the question and the `sleep`.  `kill` takes that
lock and no other, so it can come in between; then it finds no sleeping process to wake, and the
process goes to sleep with the flag set.  Apart from this, no kill is missed.
-/

namespace Xv6.Sched

open Lib

variable {s t : St} {p q : Slot} {c : Cpu} {pc : Pc} {e : Eff} {a : Act} {chan : Chan}

attribute [local grind =] Function.update_apply

/-! ## Between `killed` and `sleep` -/

/-- The code has found the flag unset and may go to sleep. -/
def Pc.asked : Pc → Bool
  | .waitSleep _ | .loopSleep _ | .loopFull _ | .loopWake _ _ => true
  | _ => false

/-- The channels of the loops that ask `killed`. -/
def Interruptible (p : Slot) (chan : Chan) : Prop :=
  chan = .proc p ∨ ∃ l : Loop, chan = l.chan

/-- A process gets past the question when the flag is not set. -/
theorem Code.asked (h : Code s p pc e) (hnext : e.next.asked = true) :
    pc.asked = true ∨ (s.procs p).killed = 0 := by
  cases h with
  | enter h =>
    rename_i pc
    cases pc <;> first | exact absurd h id | cases hnext
  | wake hw _ | wakeSelf hw | wakeEnd hw _ =>
    cases waking_cases hw <;> first | exact .inl rfl | cases hnext
  | waitEnd _ =>
    rename_i kids _ _
    cases kids <;> cases hnext
  | waitAlive hk | loopAlive hk => exact .inr hk
  | loopFull => exact .inl rfl
  | yield => exact .inl hnext
  | _ => cases hnext

/-- The loops go to sleep from there. -/
theorem Code.sleeps_asked {rel : Option Lock} {x : Proc} {pc' : Pc}
    (h : Code s p pc (.leave x rel pc')) (hstate : x.state = .SLEEPING)
    (hchan : x.chan = some chan) (hint : Interruptible p chan) : pc.asked = true := by
  cases h with
  | waitSleep | loopSleep => rfl
  | monSleep =>
    cases hchan
    rcases hint with heq | ⟨l, heq⟩
    · cases heq
    · cases l <;> cases heq
  | yield | exitZombie => cases hstate

/-- The question itself leaves the flag alone. -/
theorem Code.touch_asked {y : Proc} {pc' : Pc} (h : Code s p pc (.touch p y pc'))
    (hnext : pc'.asked = true) : y.killed = (s.procs p).killed := by
  cases h with
  | wake _ hr => exact absurd rfl hr
  | setkilled | killHit | waitReap => cases hnext
  | _ => rfl

theorem Code.leave_killed {x : Proc} {rel : Option Lock} {pc' : Pc}
    (h : Code s p pc (.leave x rel pc')) : x.killed = (s.procs p).killed := by
  cases h <;> rfl

/-- The step does not set the flag of a process that has asked for it and is about to sleep. -/
def KillOk (s : St) (a : Act) : Prop :=
  match a with
  | .proc c x =>
    match effect s c x with
    | some (_, .touch q y _) =>
      (s.procs q).killed = 0 → y.killed ≠ 0 → (s.pc q).asked = false
    | _ => True
  | _ => True

/-- Whether the flag was set when a process last began to sleep. -/
def noteSleep (s : St) (a : Act) (late : Slot → Bool) : Slot → Bool :=
  match a with
  | .proc c x =>
    match effect s c x with
    | some (p, .leave y _ _) =>
      if y.state = .SLEEPING then
        Function.update late p (decide ((s.procs p).killed ≠ 0))
      else
        late
    | _ => late
  | _ => late

/-! ## The invariant -/

/-- Between the question and the `sleep` the flag is not set. -/
def Asked (s : St) : Prop :=
  ∀ p, (s.pc p).asked = true → (s.procs p).killed = 0

/-- The processes that sleep in one of the loops began before the flag was set. -/
def InTime (s : St) (late : Slot → Bool) : Prop :=
  ∀ p chan, SleepsOn s p chan → Interruptible p chan → late p = false

theorem Applies.killed (hcode : Code s p pc e) (happly : Applies s c p e t) :
    (t.procs q).killed = (s.procs q).killed ∨ (t.procs q).killed = 0 ∨
      ∃ y pc', e = .touch q y pc' ∧ (t.procs q).killed = y.killed := by
  cases happly with
  | goto | acquire | release | cond => exact .inl rfl
  | parent =>
    simp only [St.setProc, St.setPc]
    grind
  | touch =>
    simp only [St.setProc, St.setPc]
    grind
  | alloc =>
    have hx := hcode.alloc
    simp only [St.setProc, St.setPc]
    grind [freeproc]
  | leave =>
    have hx := hcode.leave_killed
    simp only [St.setProc, St.setPc]
    grind

theorem Asked.step (h : Asked s) (hinv : Inv s) (hok : KillOk s a) (hstep : Steps s a t) :
    Asked t := by
  rcases moves_or_proc hinv hstep with ⟨hm, _⟩ | ⟨c, p, x, e, rfl, heff, hp, hcode, happly⟩
  · intro q hq
    rw [hm.killed]
    rcases hm.pc q with heq | ⟨pc, chan, _, heq, hsleeps⟩
    · exact h q (heq ▸ hq)
    · rw [heq] at hq
      cases hsleeps <;> cases hq
  · intro q hq
    have hbefore : (s.procs q).killed = 0 := by
      by_cases hqp : q = p
      · subst hqp
        rw [happly.pc_self hcode] at hq
        exact (hcode.asked hq).elim (h q) id
      · rcases happly.pc_other hinv hcode hqp with heq | ⟨heq, _⟩
        · exact h q (heq ▸ hq)
        · rw [heq] at hq
          cases hq
    rcases happly.killed hcode (q := q) with heq | hzero | ⟨y, pc', rfl, heq⟩
    · rw [heq, hbefore]
    · exact hzero
    · simp only [KillOk, heff] at hok
      by_contra hset
      rw [heq] at hset
      have hnot := hok hbefore hset
      by_cases hqp : q = p
      · subst hqp
        rw [happly.pc_self hcode] at hq
        exact hset ((hcode.touch_asked hq).trans hbefore)
      · rcases happly.pc_other hinv hcode hqp with heq' | ⟨heq', _⟩ <;> rw [heq'] at hq
        · rw [hq] at hnot
          cases hnot
        · cases hq

theorem InTime.step {late : Slot → Bool} (h : InTime s late) (hinv : Inv s) (hask : Asked s)
    (hstep : Steps s a t) : InTime t (noteSleep s a late) := by
  rcases moves_or_proc hinv hstep with ⟨hm, ha⟩ | ⟨c, p, x, e, rfl, heff, hp, hcode, happly⟩
  · have hnote : noteSleep s a late = late := by
      unfold noteSleep
      split
      · exact absurd rfl (ha _ _)
      · rfl
    rw [hnote]
    exact fun q chan hq => h q chan (hm.sleeps q chan hq)
  · intro q chan hq hint
    rcases sleepsOn_of_proc hinv hp hcode happly hq with hq' | ⟨rfl, rel, pc, rfl, _⟩
    · -- The one that goes to sleep is another process.
      have hne : q ≠ p := by
        rintro rfl
        exact hinv.not_sleepsOn_self hp hq'
      have hlate := h q chan hq' hint
      cases e with
      | leave y rel pc =>
        simp only [noteSleep, heff]
        split
        · rw [Function.update_of_ne hne, hlate]
        · exact hlate
      | _ =>
        simp only [noteSleep, heff]
        exact hlate
    · have hzero := hask q (hcode.sleeps_asked rfl rfl hint)
      simp only [noteSleep, heff, if_true, Function.update_self, hzero]
      decide

/-! ## Runs -/

theorem intime_of_reaches {late : Slot → Bool}
    (h : Reaches (withHistory step noteSleep) (fun x => KillOk x.1) (boot, fun _ => false)
      (s, late)) : (Inv s ∧ Asked s) ∧ InTime s late := by
  refine Reaches.invariant_withHistory (P := fun s => Inv s ∧ Asked s) ⟨inv_boot, nofun⟩ ?_
    (fun _ _ _ _ => rfl) ?_ h
  · exact fun s a t hs hok hstep =>
      ⟨hs.1.step (steps_of_step hstep), hs.2.step hs.1 hok (steps_of_step hstep)⟩
  · exact fun s a t late hs hlate _ hstep => hlate.step hs.1 hs.2 (steps_of_step hstep)

theorem kill_seen_of_reaches {late : Slot → Bool}
    (h : Reaches (withHistory step noteSleep) (fun x => KillOk x.1) (boot, fun _ => false)
      (s, late)) (hchan : Interruptible p chan) :
    ¬ ((s.procs p).killed ≠ 0 ∧ SleepsOn s p chan ∧ late p = true) := by
  rintro ⟨_, hsleeps, hlate⟩
  rw [(intime_of_reaches h).2 p chan hsleeps hchan] at hlate
  cases hlate

/-- The first process makes a child, which asks `killed` in `sys_sleep`. -/
def askRun : List Act :=
  [.pick 0 0, .choose 0, .arrive 0, .proc 0 .fork, .proc 0 (.slot 1 true), .proc 0 .go, .proc 0 .go,
    .proc 0 .go, .proc 0 .go, .pick 1 1, .choose 1, .arrive 1, .proc 1 (.loop .sysSleep),
    .proc 1 .go, .proc 1 (.flag true), .proc 1 .go]

/-- The first process kills the child before it sleeps. -/
def missRun : List Act :=
  askRun ++ [.proc 0 (.kill 2), .proc 0 .go, .proc 0 .go, .proc 1 .go]

set_option maxRecDepth 100000 in
/-- `kill` has returned, and the child sleeps with the flag set. -/
theorem missed_kill : ∃ s late,
    run (withHistory step noteSleep) (boot, fun _ => false) missRun = some (s, late) ∧
      (s.procs 1).killed ≠ 0 ∧ s.pc 0 = .user ∧ SleepsOn s 1 (Loop.chan .sysSleep) ∧
      Interruptible 1 (Loop.chan .sysSleep) ∧ late 1 = true := by
  have heval : (run (withHistory step noteSleep) (boot, fun _ => false) missRun).any fun x =>
      decide ((x.1.procs 1).killed ≠ 0 ∧ x.1.pc 0 = .user ∧
        ((x.1.procs 1).state = .SLEEPING ∧ (x.1.procs 1).chan = some .ticks) ∧ x.2 1 = true) := by
    decide +kernel
  rcases exists_of_any heval with ⟨⟨s, late⟩, hs, hkilled, hpc, hsleeps, hlate⟩
  exact ⟨s, late, hs, hkilled, hpc, hsleeps, .inr ⟨_, rfl⟩, hlate⟩

instance (s : St) (a : Act) : Decidable (KillOk s a) :=
  match a with
  | .proc c x =>
    match h : effect s c x with
    | some (_, .touch q y _) =>
      decidable_of_iff ((s.procs q).killed = 0 → y.killed ≠ 0 → (s.pc q).asked = false)
        (by simp only [KillOk, h])
    | some (_, .goto _) | some (_, .acquire _ _) | some (_, .release _ _)
    | some (_, .alloc _ _ _) | some (_, .parent _ _ _) | some (_, .cond _ _ _ _)
    | some (_, .leave _ _ _) | none => isTrue (by simp only [KillOk, h])
  | .pick _ _ | .choose _ | .arrive _ | .swtch _ | .back _ => isTrue trivial

/-- The first process kills the child in its sleep, and the child asks once more. -/
def hitRun : List Act :=
  askRun ++ [.proc 1 .go, .swtch 1, .back 1, .proc 0 (.kill 2), .proc 0 .go, .proc 0 .go,
    .pick 1 1, .choose 1, .arrive 1, .proc 1 .go, .proc 1 (.flag true), .proc 1 .go]

set_option maxRecDepth 100000 in
theorem kill_seen_of_reaches_hit : ∃ s late,
    runIf (withHistory step noteSleep) (fun x => KillOk x.1) (boot, fun _ => false) hitRun =
      some (s, late) ∧ (s.procs 1).killed ≠ 0 ∧ s.pc 1 = .loopRel .sysSleep ∧
      Interruptible 1 (Loop.chan .sysSleep) ∧
      ¬ ((s.procs 1).killed ≠ 0 ∧ SleepsOn s 1 (Loop.chan .sysSleep) ∧ late 1 = true) := by
  have heval : (runIf (withHistory step noteSleep) (fun x => KillOk x.1) (boot, fun _ => false)
      hitRun).any fun x => decide ((x.1.procs 1).killed ≠ 0 ∧ x.1.pc 1 = .loopRel .sysSleep) := by
    decide +kernel
  rcases exists_of_any heval with ⟨⟨s, late⟩, hs, hkilled, hpc⟩
  exact ⟨s, late, hs, hkilled, hpc, .inr ⟨_, rfl⟩,
    kill_seen_of_reaches (.of_runIf hs) (.inr ⟨_, rfl⟩)⟩

end Xv6.Sched
