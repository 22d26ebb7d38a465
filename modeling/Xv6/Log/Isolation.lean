import Xv6.Log.GroupStep

/-!
# Isolation — a group commit sees none of the operations it does not commit

While a commit runs no operation is open, so neither `log.lh` nor the logged blocks change under
it; it writes home exactly the blocks that were logged since the commit before.
-/

namespace Xv6.Group

open Lib Log Bio

variable {A : LogArea} {s : State}

/-! ## Nothing changes under a running commit -/

/-- `install_trans` is over. -/
def Pc.cleared : Pc → Bool
  | .clear => true
  | .head true => true
  | .gotHead true => true
  | .relHead true _ => true
  | .done => true
  | _ => false

/-- The header and the logged blocks are the same in both states. -/
def Frozen (s t : State) : Prop :=
  t.lh = s.lh ∧ ∀ n ∈ s.lh.block, t.view n = s.view n

variable {t : State} {p : Slot} {pc : Pc} {h : Hist}

theorem Calm.frozen (h : Calm s t) : Frozen s t :=
  ⟨h.lh, h.view⟩

theorem frozen_of_bio_eq (hbio : t.bio = s.bio) (hlh : t.lh = s.lh) : Frozen s t :=
  ⟨hlh, fun n _ => by simp [State.view, hbio]⟩

/-- A write to the log area is not seen in the logged blocks. -/
theorem frozen_put (hs : Base A s) {b : BufId} {m : BlockNo} {data : Block}
    (hb : Holds s p b m) (hm : A.Mem m) : Frozen s (s.put p b data) := by
  refine ⟨(SameCtl.put ..).lh, ?_⟩
  intro n hn
  have hne : n ≠ m := fun h => hs.home n hn (h ▸ hm)
  rw [view_put hs hb, if_neg hne]

theorem frozen_bread (hs : Base A s) {dev : UInt32} {n : BlockNo}
    (hio : (s.bio.thread p).io = none) (hpanic : s.panic = none) :
    Frozen s (s.bread p dev n) := by
  rcases bread_panic p dev n hpanic with h | ⟨_, hbio⟩
  · exact (hs.bread hio h).2.1.frozen
  · exact frozen_of_bio_eq hbio (SameCtl.bread ..).lh

theorem frozen_commitStep (hs : Core A s) (hp : s.pc p = some pc)
    (hio : (s.bio.thread p).io = none) (hpanic : s.panic = none) (hopen : pc.cleared = false) :
    Frozen s (s.commitStep A p pc) := by
  have hknown := hs.pcs p pc hp
  have hself : Frozen s s := frozen_of_bio_eq rfl rfl
  -- Moving the program counter is not seen.
  have hgoto : ∀ t pc', Frozen s t → Frozen s (t.goto p pc') := fun t pc' h => h
  cases pc with
  | check =>
    simp only [State.commitStep]
    split <;> exact hself
  | loop ph tail =>
    simp only [State.commitStep]
    split
    · exact hgoto _ _ (frozen_bread hs.base hio hpanic)
    · cases ph <;> exact hself
  | gotLog ph tail => exact hgoto _ _ (frozen_bread hs.base hio hpanic)
  | gotHome ph tail l =>
    rcases hknown with ⟨hlt, hprog, hl, hwait⟩
    cases ph with
    | writeLog => exact hgoto _ _ (frozen_put hs.base hl (hs.base.mem_block hlt))
    | installTrans =>
      have hinst : s.Installed tail := by
        have hunpinned : s.unpinned = tail := unpinned_of_pc hs.ctl hp
        exact hunpinned ▸ hs.base.settled
      have hview := Installed.put hs.base hl (await_of_none hio hwait) hlt hprog hinst
      exact hgoto _ _ ⟨(SameCtl.put ..).lh, fun n _ => hview.1 n⟩
  | unpin tail l h => exact hgoto _ _ (Calm.of_contents_eq (s.bio.contents_setRefcnt h _)).frozen
  | rel ph tail a b =>
    rcases hknown with ⟨_, _, ⟨n, ha⟩, _⟩
    exact hgoto _ _ (hs.base.brelse hio ha.1).2.1.frozen
  | rel2 ph tail b =>
    rcases hknown with ⟨_, _, n, hb⟩
    exact hgoto _ _ (hs.base.brelse hio hb.1).2.1.frozen
  | head last => exact hgoto _ _ (frozen_bread hs.base hio hpanic)
  | gotHead last =>
    have hb := await_of_none hio hknown.2
    exact hgoto _ _ (frozen_put hs.base hb (A.mem_block hknown.1.1))
  | relHead last b =>
    rcases hknown with ⟨_, n, hb⟩
    exact hgoto _ _ (hs.base.brelse hio hb.1).2.1.frozen
  | clear => simp [Pc.cleared] at hopen
  | done => simp [Pc.cleared] at hopen

/-- No step, of whichever process, touches what a running commit has still to install. -/
theorem frozen_step (hs : Core A s) (hp : s.pc p = some pc)
    (hopen : pc.cleared = false) {a : Act} (hok : ClientOk A s a)
    (h : step A s a = some t) : Frozen s t := by
  have hpanic := panic_none_of_step h
  have hquiet := hs.ctl.quiet (hs.ctl.committing.2 ⟨p, by simp [hp]⟩)
  -- The callers of these functions would be inside an operation.
  have hop : ∀ q, s.op q = true → Frozen s t := by
    intro q hq
    simp [hquiet] at hq
  cases steps_of_step h with
  | beginOp _ => exact frozen_of_bio_eq (beginOp_fields s _).1 (beginOp_fields s _).2.1
  | endOp _ => exact hop _ hok
  | logWrite _ => exact hop _ hok.1
  | store _ => exact hop _ hok.1
  | bread hidle => exact frozen_bread hs.base hidle.2.2 hpanic
  | brelse hidle => exact (hs.base.brelse hidle.2.2 hok).2.1.frozen
  | acquiresleep _ hbio => exact (Served.acquiresleep hs.base hbio).calm.frozen
  | fill _ hbio => exact (Served.fill hs.base hbio).calm.frozen
  | drop _ hbio => exact (Served.drop hs.base hbio).calm.frozen
  | commit _ hio hpc =>
    rcases hs.ctl.same_pc hp hpc with ⟨rfl, rfl⟩
    exact frozen_commitStep hs hp hio hpanic hopen

/-! ## What a commit writes home -/

/-- The calls of `log_write` since the last commit was over, those of each process since its last
`begin_op`, and the home blocks that the commit in progress has written. -/
structure Hist where
  logged : List (Slot × BlockNo)
  current : Slot → List BlockNo
  homes : List BlockNo

namespace Hist

def start : Hist :=
  { logged := [], current := fun _ => [], homes := [] }

def after (s : State) : Act → Hist → Hist
  | .beginOp p, h => { h with current := Function.update h.current p [] }
  | .logWrite p b, h =>
    { h with
      logged := h.logged ++ [(p, (s.bio.buf b).blockno)]
      current := Function.update h.current p ((s.bio.buf b).blockno :: h.current p) }
  | .commit p, h =>
    match s.pc p with
    | some .check => { h with homes := [] }
    | some (.gotHome .installTrans _ _) =>
      { h with homes := h.homes ++ [(s.bio.buf (s.bio.thread p).ret).blockno] }
    | some .done => { h with logged := [] }
    | _ => h
  | _, h => h

end Hist

/-- How many entries of a header of length `n` have been written home. -/
def Pc.installed (n : Nat) : Pc → Nat
  | .unpin tail _ _ => tail + 1
  | pc => pc.unpinned n

/-- Exactly the blocks passed to `log_write` since the last commit, once each. -/
def Covers (blocks : List BlockNo) (logged : List (Slot × BlockNo)) : Prop :=
  blocks.Nodup ∧ ∀ n, n ∈ blocks ↔ ∃ p, (p, n) ∈ logged

structure HistInv (s : State) (h : Hist) : Prop where
  entries : (∀ p pc, s.pc p = some pc → pc.cleared = false) → Covers s.lh.block h.logged
  writing : ∀ p pc, s.pc p = some pc → pc ≠ .check → pc.cleared = false →
    h.homes = s.lh.block.take (pc.installed s.lh.block.length)
  written : ∀ p pc, s.pc p = some pc → pc.cleared = true → Covers h.homes h.logged

theorem histInv_of_started (h : Started s) : HistInv s .start := by
  refine ⟨?_, ?_, ?_⟩
  · intro _
    simp [Covers, h.empty, Hist.start]
  · intro p pc hp
    simp [h.pcs] at hp
  · intro p pc hp
    simp [h.pcs] at hp

theorem HistInv.same {h' : Hist} (hs : HistInv s h) (hpc : t.pc = s.pc)
    (hlh : t.lh = s.lh) (hlogged : h'.logged = h.logged) (hhomes : h'.homes = h.homes) :
    HistInv t h' := by
  refine ⟨?_, ?_, ?_⟩
  · rw [hpc, hlh, hlogged]
    exact hs.entries
  · rw [hpc, hlh, hhomes]
    exact hs.writing
  · rw [hpc, hlogged, hhomes]
    exact hs.written

/-- The state after a step that took the process in `commit` to `pc'`. -/
theorem HistInv.of_goto {u : State} {pc' : Pc} (hctl : CtlInv (u.goto p pc'))
    (hopen : pc'.cleared = false → Covers u.lh.block h.logged)
    (hwriting : pc' ≠ .check → pc'.cleared = false →
      h.homes = u.lh.block.take (pc'.installed u.lh.block.length))
    (hwritten : pc'.cleared = true → Covers h.homes h.logged) : HistInv (u.goto p pc') h := by
  have hp : (u.goto p pc').pc p = some pc' := Function.update_self _ _ _
  refine ⟨fun hall => hopen (hall p pc' hp), ?_, ?_⟩
  · intro q pc hq
    rcases hctl.same_pc hp hq with ⟨_, rfl⟩
    exact hwriting
  · intro q pc hq
    rcases hctl.same_pc hp hq with ⟨_, rfl⟩
    exact hwritten

/-- The steps of `commit` that write nothing home: the counter stays in its part of the code. -/
theorem HistInv.goto {u : State} (hctl : CtlInv s) {pc' : Pc}
    (hs : HistInv s h) (hp : s.pc p = some pc) (hu : SameCtl s u) (hstart : pc ≠ .check)
    (hcleared : pc'.cleared = pc.cleared)
    (hinstalled : pc'.installed s.lh.block.length = pc.installed s.lh.block.length) :
    HistInv (u.goto p pc') h := by
  have hctl' : CtlInv (u.goto p pc') := (hctl.same hu).goto (by rw [hu.pc, hp]; simp) pc'
  refine .of_goto hctl' ?_ ?_ ?_
  · intro hopen
    rw [hu.lh]
    refine hs.entries ?_
    intro q pc₀ hq
    rcases hctl.same_pc hp hq with ⟨_, rfl⟩
    exact hcleared.symm.trans hopen
  · intro _ hopen
    rw [hu.lh, hinstalled]
    exact hs.writing p pc hp hstart (hcleared.symm.trans hopen)
  · intro hdone
    exact hs.written p pc hp (hcleared.symm.trans hdone)

theorem histInv_commitStep (hs : Core A s) (hh : HistInv s h)
    (hp : s.pc p = some pc) (hio : (s.bio.thread p).io = none) :
    HistInv (s.commitStep A p pc) (Hist.after s (.commit p) h) := by
  have hself : SameCtl s s := ⟨rfl, rfl, rfl, rfl, rfl⟩
  have hctl : CtlInv (s.commitStep A p pc) := hs.ctl.commitStep hp
  have hknown := hs.pcs p pc hp
  -- Before the header is cleared its entries are the blocks logged since the last commit.
  have hentries : pc.cleared = false → Covers s.lh.block h.logged := by
    intro hopen
    refine hh.entries ?_
    intro q pc' hq
    rcases hs.ctl.same_pc hp hq with ⟨_, rfl⟩
    exact hopen
  cases pc with
  | check =>
    simp only [Hist.after, hp, State.commitStep] at hctl ⊢
    split at hctl
    · rename_i hpos
      rw [if_pos hpos]
      exact .of_goto hctl (fun _ => hentries rfl) (fun _ _ => rfl) (by simp [Pc.cleared])
    · rename_i hpos
      rw [if_neg hpos]
      have hempty : s.lh.block = [] := List.length_eq_zero_iff.1 (by omega)
      have hcovers : Covers [] h.logged := hempty ▸ hentries rfl
      exact .of_goto hctl (by simp [Pc.cleared]) (by simp [Pc.cleared]) fun _ => hcovers
  | loop ph tail =>
    simp only [Hist.after, hp, State.commitStep] at hctl ⊢
    split at hctl
    · rename_i hlt
      rw [if_pos hlt]
      exact hh.goto hs.ctl hp (.bread ..) (by simp) rfl (by cases ph <;> rfl)
    · rename_i hlt
      rw [if_neg hlt]
      cases ph with
      | writeLog => exact hh.goto hs.ctl hp hself (by simp) rfl rfl
      | installTrans =>
        -- The loop has gone through the whole header.
        have hEq : tail = s.lh.block.length := by
          have hle := hknown.1
          omega
        have hhomes : h.homes = s.lh.block := by
          have htake := hh.writing p _ hp (by simp) rfl
          rw [htake]
          exact List.take_of_length_le (by simp [Pc.installed, Pc.unpinned, hEq])
        refine .of_goto hctl (by simp [Pc.cleared]) (by simp [Pc.cleared]) ?_
        intro _
        rw [hhomes]
        exact hentries rfl
  | gotLog ph tail =>
    simp only [Hist.after, hp]
    exact hh.goto hs.ctl hp (.bread ..) (by simp) rfl (by cases ph <;> rfl)
  | gotHome ph tail l =>
    cases ph with
    | writeLog =>
      simp only [Hist.after, hp]
      exact hh.goto hs.ctl hp (.put ..) (by simp) rfl rfl
    | installTrans =>
      rcases hknown with ⟨hlt, _, _, hwait⟩
      have hhome := await_of_none hio hwait
      have hlh := (SameCtl.put s p (s.bio.thread p).ret (s.bio.buf l).data).lh
      have htake := hh.writing p _ hp (by simp) rfl
      simp only [Hist.after, hp]
      refine .of_goto hctl ?_ ?_ (by simp [Pc.cleared])
      · intro _
        rw [hlh]
        exact hentries rfl
      · intro _ _
        simp only [Pc.installed, Pc.unpinned] at htake ⊢
        rw [hlh, htake, hhome.2.2, List.take_add_one, (hs.base.getD_mem hlt).1]
        rfl
  | unpin tail l b =>
    simp only [Hist.after, hp]
    have hsame : SameCtl s { s with bio := s.bio.bunpin b } := ⟨rfl, rfl, rfl, rfl, rfl⟩
    exact hh.goto hs.ctl hp hsame (by simp) rfl rfl
  | rel ph tail a b =>
    simp only [Hist.after, hp]
    exact hh.goto hs.ctl hp (.brelse ..) (by simp) rfl (by cases ph <;> rfl)
  | rel2 ph tail b =>
    simp only [Hist.after, hp]
    exact hh.goto hs.ctl hp (.brelse ..) (by simp) rfl (by cases ph <;> rfl)
  | head last =>
    simp only [Hist.after, hp]
    exact hh.goto hs.ctl hp (.bread ..) (by simp) (by cases last <;> rfl) (by cases last <;> rfl)
  | gotHead last =>
    simp only [Hist.after, hp]
    exact hh.goto hs.ctl hp (.put ..) (by simp) (by cases last <;> rfl) (by cases last <;> rfl)
  | relHead last b =>
    simp only [Hist.after, hp]
    exact hh.goto hs.ctl hp (.brelse ..) (by simp) (by cases last <;> rfl) (by cases last <;> rfl)
  | clear =>
    simp only [Hist.after, hp]
    exact .of_goto hctl (by simp [Pc.cleared]) (by simp [Pc.cleared]) fun _ => hh.written p _ hp rfl
  | done =>
    simp only [Hist.after, hp]
    have hempty : s.lh.block = [] := hknown
    have hnone : ∀ q, (s.commitStep A p .done).pc q = none := by
      intro q
      by_contra hq
      have hrun := hctl.committing.2 ⟨q, hq⟩
      simp [State.commitStep] at hrun
    refine ⟨?_, ?_, ?_⟩
    · intro _
      simp [State.commitStep, hempty, Covers]
    · intro q pc hq
      simp [hnone] at hq
    · intro q pc hq
      simp [hnone] at hq

theorem histInv_logWrite (hs : Core A s) (hh : HistInv s h) {b : BufId}
    (hop : s.op p = true) (hpanic : (s.logWrite A b).panic = none) :
    HistInv (s.logWrite A b) (Hist.after s (.logWrite p b) h) := by
  have hnone := (hs.ctl.no_commit hop).2
  have hcovers : Covers s.lh.block h.logged := hh.entries fun q pc hq => by simp [hnone] at hq
  rcases logWrite_fields hpanic with ⟨hpc, hlh, _⟩
  refine ⟨?_, ?_, ?_⟩
  · intro _
    refine ⟨?_, ?_⟩
    · rw [hlh]
      split
      · exact hcovers.1
      · exact List.Nodup.append hcovers.1 (List.nodup_singleton _) (by simpa using ‹_›)
    · intro n
      have hold := hcovers.2 n
      rw [hlh]
      by_cases habsorb : (s.bio.buf b).blockno ∈ s.lh.block
      · -- An absorbed block has been logged before.
        have hbefore := (hcovers.2 _).1 habsorb
        rw [if_pos habsorb, hold]
        simp only [Hist.after, List.mem_append, List.mem_singleton, Prod.mk.injEq]
        constructor
        · rintro ⟨q, hq⟩
          exact ⟨q, .inl hq⟩
        · rintro ⟨q, hq | ⟨rfl, rfl⟩⟩
          · exact ⟨q, hq⟩
          · exact hbefore
      · rw [if_neg habsorb, List.mem_append, hold, List.mem_singleton]
        simp only [Hist.after, List.mem_append, List.mem_singleton, Prod.mk.injEq]
        constructor
        · rintro (⟨q, hq⟩ | rfl)
          · exact ⟨q, .inl hq⟩
          · exact ⟨p, .inr ⟨rfl, rfl⟩⟩
        · rintro ⟨q, hq | ⟨_, rfl⟩⟩
          · exact .inl ⟨q, hq⟩
          · exact .inr rfl
  · intro q pc hq
    simp [hpc, hnone] at hq
  · intro q pc hq
    simp [hpc, hnone] at hq

theorem histInv_step (A : LogArea) (s : State) (a : Act) (t : State) (h : Hist) (hs : Safe A s)
    (hh : s.panic = none → HistInv s h) (hok : ClientOk A s a) (hstep : step A s a = some t) :
    t.panic = none → HistInv t (Hist.after s a h) := by
  intro hpanic
  have hcore := hs.core (panic_none_of_step hstep)
  have hinv := hh (panic_none_of_step hstep)
  cases steps_of_step hstep with
  | beginOp _ =>
    rcases beginOp_fields s _ with ⟨_, hlh, hpc, _⟩
    exact hinv.same hpc hlh rfl rfl
  | endOp _ =>
    have hnone := (hcore.ctl.no_commit hok).2
    have hcovers : Covers s.lh.block h.logged := hinv.entries fun q pc hq => by simp [hnone] at hq
    have hctl := hcore.ctl.endOp hok
    rcases endOp_fields hcore.ctl hok with ⟨_, hlh, _, hpc | hcheck⟩
    · exact hinv.same hpc hlh rfl rfl
    · refine ⟨fun _ => by rw [hlh]; exact hcovers, ?_, ?_⟩
      · intro q pc hq hne
        exact absurd (hctl.same_pc hcheck hq).2 hne
      · intro q pc hq hdone
        rw [(hctl.same_pc hcheck hq).2] at hdone
        simp [Pc.cleared] at hdone
  | logWrite _ => exact histInv_logWrite hcore hinv hok.1 hpanic
  | bread _ => exact hinv.same (SameCtl.bread ..).pc (SameCtl.bread ..).lh rfl rfl
  | brelse _ => exact hinv.same (SameCtl.brelse ..).pc (SameCtl.brelse ..).lh rfl rfl
  | store _ | acquiresleep _ _ | fill _ _ | drop _ _ => exact hinv.same rfl rfl rfl rfl
  | commit _ hio hpc => exact histInv_commitStep hcore hinv hpc hio

theorem safe_hist {s₀ : State} (h₀ : Started s₀)
    (hs : Reaches (withHistory (step A) Hist.after) (fun x => ClientOk A x.1) (s₀, .start) (s, h)) :
    Safe A s ∧ (s.panic = none → HistInv s h) :=
  Reaches.invariant_withHistory (Q := fun s h => s.panic = none → HistInv s h)
    (safe_of_started A h₀) (safe_step A) (fun _ => histInv_of_started h₀) (histInv_step A) hs

theorem op_commitStep (A : LogArea) (s : State) (p : Slot) (pc : Pc) :
    (s.commitStep A p pc).op = s.op := by
  cases pc with
  | check =>
    simp only [State.commitStep]
    split <;> rfl
  | loop ph tail =>
    simp only [State.commitStep]
    split
    · exact (SameCtl.bread ..).op
    · cases ph <;> rfl
  | gotLog ph tail => exact (SameCtl.bread ..).op
  | gotHome ph tail l => cases ph <;> exact (SameCtl.put ..).op
  | unpin tail l h => rfl
  | rel ph tail a b => exact (SameCtl.brelse ..).op
  | rel2 ph tail b => exact (SameCtl.brelse ..).op
  | head last => exact (SameCtl.bread ..).op
  | gotHead last => exact (SameCtl.put ..).op
  | relHead last b => exact (SameCtl.brelse ..).op
  | clear => rfl
  | done => rfl

theorem op_step_of_committing (hs : CtlInv s) (hc : s.committing = true) {a : Act}
    (hok : ClientOk A s a) (h : step A s a = some t) : t.op = s.op := by
  have hquiet := hs.quiet hc
  have hop : ∀ q, s.op q = true → t.op = s.op := by
    intro q hq
    simp [hquiet] at hq
  cases steps_of_step h with
  | beginOp _ => simp [State.beginOp, hc]
  | endOp _ => exact hop _ hok
  | logWrite _ => exact hop _ hok.1
  | bread _ => exact (SameCtl.bread ..).op
  | brelse _ => exact (SameCtl.brelse ..).op
  | store _ | acquiresleep _ _ | fill _ _ | drop _ _ => rfl
  | commit _ _ _ => exact op_commitStep A s _ _

/-- In every run of any number of processes that keep the rules for callers: a commit runs only
while nothing is outstanding and every operation has called `end_op`; while `log.committing` is set
no `begin_op` returns and no `log_write` is executed; from `write_log` to the end of
`install_trans` the header and the contents of the logged blocks do not change; a commit has
written home exactly the blocks logged since the one before, once each; and neither
`panic("log.committing")` nor `panic("log_write outside of trans")` is reached. -/
theorem group_commit_isolated {s₀ : State} {h : Hist} (h₀ : Started s₀)
    (hs : Reaches (withHistory (step A) Hist.after) (fun x => ClientOk A x.1) (s₀, .start) (s, h)) :
    (∀ p pc, s.pc p = some pc → s.outstanding = 0 ∧ ∀ q, s.op q = false) ∧
      (s.committing = true → ∀ a t, ClientOk A s a → step A s a = some t →
        t.op = s.op ∧ ∀ p b, a ≠ .logWrite p b) ∧
      (∀ p pc, s.pc p = some pc → pc.cleared = false →
        ∀ a t, ClientOk A s a → step A s a = some t → Frozen s t) ∧
      (s.panic = none → ∀ p, s.pc p = some .done → Covers h.homes h.logged) ∧
      s.panic ≠ some .committing ∧ s.panic ≠ some .outsideTrans := by
  rcases safe_hist h₀ hs with ⟨hsafe, hhist⟩
  have hzero : s.committing = true → s.outstanding = 0 := by
    intro hc
    rw [hsafe.ctl.count]
    simp [hsafe.ctl.quiet hc]
  refine ⟨?_, ?_, ?_, ?_, ?_, ?_⟩
  · intro p pc hp
    have hc : s.committing = true := hsafe.ctl.committing.2 ⟨p, by simp [hp]⟩
    exact ⟨hzero hc, hsafe.ctl.quiet hc⟩
  · intro hc a t hok hstep
    have hquiet := hsafe.ctl.quiet hc
    refine ⟨op_step_of_committing hsafe.ctl hc hok hstep, ?_⟩
    rintro p b rfl
    have hop := hok.1
    simp [hquiet] at hop
  · intro p pc hp hopen a t hok hstep
    exact frozen_step (hsafe.core (panic_none_of_step hstep)) hp hopen hok hstep
  · intro hpanic p hp
    exact (hhist hpanic).written p _ hp rfl
  · rcases hsafe.panic with h | h | h <;> simp [h]
  · rcases hsafe.panic with h | h | h <;> simp [h]

/-- Process `p` reads block `n` into buffer `b`, fills it with `v`, logs and releases it. -/
def writeActs (p : Slot) (n : BlockNo) (b : BufId) (v : UInt32) : List Act :=
  [.bread p ROOTDEV n, .acquiresleep p, .fill p, .store p b fun _ => v, .logWrite p b, .brelse p b,
    .drop p]

/-- The steps of process 0 for one block in `commit`, from the loop test to the copy. -/
def roundActs : List Act :=
  [.commit 0, .acquiresleep 0, .fill 0, .commit 0, .acquiresleep 0, .fill 0, .commit 0]

/-- The end of the round: both buffers are released. -/
def relActs : List Act :=
  [.commit 0, .drop 0, .commit 0, .drop 0]

/-- The steps of `write_head`, from its `bread` to the end of its `brelse`. -/
def headActs : List Act :=
  [.commit 0, .acquiresleep 0, .fill 0, .commit 0, .commit 0, .drop 0]

/-- Two operations that overlap: process 1 changes block 101 and, after process 0, block 100.
Process 0 ends last and commits both. -/
def commitActs : List Act :=
  List.flatten [[.beginOp 0, .beginOp 1], writeActs 0 100 0 5, writeActs 1 101 1 6,
    writeActs 1 100 0 7, [.endOp 1, .endOp 0, .commit 0], roundActs, relActs, roundActs, relActs,
    [.commit 0], headActs, roundActs, [.commit 0], relActs, roundActs, [.commit 0], relActs,
    [.commit 0, .commit 0], headActs]

theorem group_commit_isolated_two_ops :
    ∃ x, runIf (withHistory (step .mkfs) Hist.after) (fun x => ClientOk .mkfs x.1)
        (.boot fun _ _ => 0, .start) commitActs = some x ∧ x.1.pc 0 = some .done ∧
      x.1.outstanding = 0 ∧ x.2.logged = [(0, 100), (1, 101), (1, 100)] ∧
      Covers x.2.homes x.2.logged ∧ x.2.homes = [100, 101] := by
  have hrun : (runIf (withHistory (step .mkfs) Hist.after) (fun x => ClientOk .mkfs x.1)
      (.boot fun _ _ => 0, .start) commitActs).any fun x => decide (x.1.pc 0 = some .done ∧
        x.1.panic = none ∧ x.2.logged = [(0, 100), (1, 101), (1, 100)] ∧
        x.2.homes = [100, 101]) := by
    decide +kernel
  rcases exists_of_any hrun with ⟨x, hx, hpc, hpanic, hlogged, hhomes⟩
  have h := group_commit_isolated (started_boot _) (Reaches.of_runIf hx)
  exact ⟨x, hx, hpc, (h.1 0 _ hpc).1, hlogged, h.2.2.2.1 hpanic 0 hpc, hhomes⟩

/-! ## The cache under the log -/

/-- Until something panics no two buffers cache one block, references are counted, and blocks that
are still to be installed are cached; so `bget` recycles no buffer that is used or pinned. -/
theorem cache_of_reaches {s₀ : State} (h₀ : Started s₀) (hs : Reaches (step A) (ClientOk A) s₀ s)
    (hpanic : s.panic = none) :
    (∀ b c, (s.bio.buf b).dev ≠ 0 → (s.bio.buf b).dev = (s.bio.buf c).dev →
      (s.bio.buf b).blockno = (s.bio.buf c).blockno → b = c) ∧
    (∀ b, (s.bio.buf b).refcnt = s.bio.users b + s.pins b) ∧
    (∀ b p, (s.bio.buf b).lock = some p ↔ (s.bio.thread p).Locks b) ∧
    (∀ n ∈ s.pinned, ∃ b, (s.bio.contents.copy b).Of n) ∧
    ∀ b, s.bio.unused = some b → (∀ p, (s.bio.thread p).uses b = 0) ∧
      ∀ n ∈ s.pinned, ¬ (s.bio.contents.copy b).Of n := by
  have hbase := ((hs.invariant (safe_of_started A h₀) (safe_step A)).core hpanic).base
  refine ⟨hbase.bio.ident, hbase.bio.count, hbase.bio.holder, hbase.cached, fun b hb => ?_⟩
  have hzero : (s.bio.buf b).refcnt = 0 := by simpa [Bio.State.unused] using List.find?_some hb
  have hcount := hbase.bio.count b
  refine ⟨fun p => ?_, fun n hn hof => ?_⟩
  · have hle := Bio.State.uses_le_users s.bio p b
    omega
  · have hblock : (s.bio.buf b).blockno = n := hof.2.1
    have hpin : s.pins b = 1 := if_pos ⟨hof.1, hblock ▸ hn⟩
    omega

/-- A buffer that is held and whose block has been logged has two references. -/
theorem cache_of_reaches_logged : ∃ s, runIf (step .mkfs) (ClientOk .mkfs) (.boot fun _ _ => 0)
      [.beginOp 0, .bread 0 ROOTDEV 100, .acquiresleep 0, .fill 0, .logWrite 0 0] = some s ∧
    (s.bio.buf 0).refcnt = 2 ∧ (s.bio.buf 0).refcnt = s.bio.users 0 + s.pins 0 := by
  have heval : (runIf (step .mkfs) (ClientOk .mkfs) (.boot fun _ _ => 0)
      [.beginOp 0, .bread 0 ROOTDEV 100, .acquiresleep 0, .fill 0, .logWrite 0 0]).any fun s =>
        decide (s.panic = none ∧ (s.bio.buf 0).refcnt = 2) := by
    decide +kernel
  rcases exists_of_any heval with ⟨s, hs, hpanic, href⟩
  exact ⟨s, hs, href, (cache_of_reaches (started_boot _) (.of_runIf hs) hpanic).2.1 0⟩

end Xv6.Group
