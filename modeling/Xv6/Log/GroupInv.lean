import Xv6.Log.Group

/-!
# GroupInv — what holds between the steps of processes and `commit`

The control part says who may be where: `outstanding` counts the operations, and a commit runs
alone and without any operation.  The data part says what is where: the blocks in `log.lh` are
pinned in the cache until `install_trans` has written them home, the log area on the disk is what
the cache has of it, and `commit` knows how far its copies have got.
-/

namespace Xv6.Group

open Lib Log Bio
open Function (update update_of_ne update_self)

/-! ## Clients -/

/-- A block of the root device outside the log area. -/
def Home (A : LogArea) (s : State) (b : BufId) : Prop :=
  (s.bio.buf b).dev = ROOTDEV ∧ ¬ A.Mem (s.bio.buf b).blockno

/-- The rules for callers: operations are not nested, and a block is changed and logged only inside
an operation, by a process that has it from `bread` and has not yet passed it to `brelse`. -/
def ClientOk (A : LogArea) (s : State) : Act → Prop
  | .beginOp p => s.op p = false
  | .endOp p => s.op p = true
  | .logWrite p b => s.op p = true ∧ b ∈ (s.bio.thread p).held ∧ Home A s b
  | .store p b _ => s.op p = true ∧ b ∈ (s.bio.thread p).held ∧ Home A s b
  | .brelse p b => b ∈ (s.bio.thread p).held
  | _ => True

instance (A : LogArea) (s : State) (b : BufId) : Decidable (Home A s b) :=
  inferInstanceAs (Decidable (_ ∧ _))

instance (A : LogArea) (s : State) (a : Act) : Decidable (ClientOk A s a) :=
  match a with
  | .beginOp _ => inferInstanceAs (Decidable (_ = _))
  | .endOp _ => inferInstanceAs (Decidable (_ = _))
  | .logWrite _ _ => inferInstanceAs (Decidable (_ ∧ _ ∧ _))
  | .store _ _ _ => inferInstanceAs (Decidable (_ ∧ _ ∧ _))
  | .brelse _ _ => inferInstanceAs (Decidable (_ ∈ _))
  | .bread _ _ _ => inferInstanceAs (Decidable True)
  | .acquiresleep _ => inferInstanceAs (Decidable True)
  | .fill _ => inferInstanceAs (Decidable True)
  | .drop _ => inferInstanceAs (Decidable True)
  | .commit _ => inferInstanceAs (Decidable True)

/-- The system once `initlog` has returned: nobody uses the cache, which may still hold blocks that
the recovery has read, and the log is empty. -/
structure Started (s : State) : Prop where
  threads : ∀ p, (s.bio.thread p).held = [] ∧ (s.bio.thread p).io = none
  unused : ∀ b, (s.bio.buf b).refcnt = 0 ∧ (s.bio.buf b).lock = none
  ident : ∀ a b, (s.bio.buf a).dev ≠ 0 → (s.bio.buf a).dev = (s.bio.buf b).dev →
    (s.bio.buf a).blockno = (s.bio.buf b).blockno → a = b
  clean : ∀ b n, (s.bio.contents.copy b).Of n → (s.bio.buf b).data = s.bio.disk n
  empty : s.lh.block = []
  outstanding : s.outstanding = 0
  committing : s.committing = false
  ops : ∀ p, s.op p = false
  pcs : ∀ p, s.pc p = none
  panic : s.panic = none

theorem started_boot (d : Disk) : Started (.boot d) := by
  refine ⟨?_, ?_, ?_, ?_, rfl, rfl, rfl, fun _ => rfl, fun _ => rfl, rfl⟩
  · exact fun _ => ⟨rfl, rfl⟩
  · exact fun _ => ⟨rfl, rfl⟩
  · intro a b hdev
    exact absurd rfl hdev
  · rintro b n ⟨_, _, hvalid⟩
    cases hvalid

/-! ## Control -/

structure CtlInv (s : State) : Prop where
  count : s.outstanding = ((∑ p, (s.op p).toNat : Nat) : Int)
  committing : s.committing = true ↔ ∃ p, s.pc p ≠ none
  alone : ∀ p q, s.pc p ≠ none → s.pc q ≠ none → p = q
  quiet : s.committing = true → ∀ p, s.op p = false

variable {p : Slot} {pc : Pc} {t : State} {m : Nat} {b : BufId} {n : BlockNo} {dev : UInt32}

theorem CtlInv.same_pc {s : State} (hs : CtlInv s) {q : Slot} {pc' : Pc}
    (hp : s.pc p = some pc) (hq : s.pc q = some pc') : q = p ∧ pc' = pc := by
  have hqp : q = p := hs.alone q p (by simp [hq]) (by simp [hp])
  subst hqp
  rw [hp] at hq
  exact ⟨rfl, (Option.some.inj hq).symm⟩

/-- The steps that change nothing of the log's state but perhaps the panic flag. -/
structure SameCtl (s t : State) : Prop where
  outstanding : t.outstanding = s.outstanding
  committing : t.committing = s.committing
  op : t.op = s.op
  pc : t.pc = s.pc
  lh : t.lh = s.lh

theorem CtlInv.same {s : State} (hs : CtlInv s) (h : SameCtl s t) : CtlInv t := by
  refine ⟨?_, ?_, ?_, ?_⟩
  · rw [h.outstanding, h.op]
    exact hs.count
  · rw [h.committing, h.pc]
    exact hs.committing
  · rw [h.pc]
    exact hs.alone
  · rw [h.committing, h.op]
    exact hs.quiet

theorem SameCtl.bread (s : State) (p : Slot) (dev : UInt32) (n : BlockNo) :
    SameCtl s (s.bread p dev n) := by
  unfold State.bread
  split <;> exact ⟨rfl, rfl, rfl, rfl, rfl⟩

theorem SameCtl.brelse (s : State) (p : Slot) (b : BufId) : SameCtl s (s.brelse p b) := by
  unfold State.brelse
  split <;> exact ⟨rfl, rfl, rfl, rfl, rfl⟩

theorem SameCtl.put (s : State) (p : Slot) (b : BufId) (data : Block) :
    SameCtl s (s.put p b data) := by
  unfold State.put State.bwrite
  split <;> exact ⟨rfl, rfl, rfl, rfl, rfl⟩

theorem CtlInv.goto {s : State} (hs : CtlInv s) (hp : s.pc p ≠ none) (pc : Pc) :
    CtlInv (s.goto p pc) := by
  have hpc : ∀ q, (s.goto p pc).pc q ≠ none ↔ s.pc q ≠ none := by
    intro q
    by_cases hq : q = p
    · subst hq
      simpa [State.goto] using hp
    · simp [State.goto, update_of_ne hq]
  refine ⟨hs.count, ?_, ?_, hs.quiet⟩
  · simp only [hpc]
    exact hs.committing
  · simpa only [hpc] using hs.alone

theorem CtlInv.commitStep {A : LogArea} {s : State} (hs : CtlInv s)
    (hp : s.pc p = some pc) : CtlInv (s.commitStep A p pc) := by
  have hrun : s.pc p ≠ none := by simp [hp]
  have hgoto : ∀ t pc', SameCtl s t → CtlInv (t.goto p pc') := by
    intro t pc' ht
    refine (hs.same ht).goto ?_ pc'
    rwa [ht.pc]
  have hself : SameCtl s s := ⟨rfl, rfl, rfl, rfl, rfl⟩
  cases pc with
  | check =>
    simp only [State.commitStep]
    split <;> exact hgoto _ _ hself
  | loop ph tail =>
    simp only [State.commitStep]
    split
    · exact hgoto _ _ (SameCtl.bread ..)
    · cases ph <;> exact hgoto _ _ hself
  | gotLog ph tail => exact hgoto _ _ (SameCtl.bread ..)
  | gotHome ph tail l => cases ph <;> exact hgoto _ _ (SameCtl.put ..)
  | unpin tail l h => exact hgoto _ _ ⟨rfl, rfl, rfl, rfl, rfl⟩
  | rel ph tail a b => exact hgoto _ _ (SameCtl.brelse ..)
  | rel2 ph tail b => exact hgoto _ _ (SameCtl.brelse ..)
  | head last => exact hgoto _ _ (SameCtl.bread ..)
  | gotHead last => exact hgoto _ _ (SameCtl.put ..)
  | relHead last b => exact hgoto _ _ (SameCtl.brelse ..)
  | clear =>
    have hempty : CtlInv { s with lh := { block := [], fits := Nat.zero_le _ } } :=
      ⟨hs.count, hs.committing, hs.alone, hs.quiet⟩
    exact hempty.goto hrun _
  | done =>
    have hnone : ∀ q, (s.commitStep A p .done).pc q = none := by
      intro q
      by_cases hq : q = p
      · subst hq
        simp [State.commitStep]
      · -- Nobody else is in `commit`.
        have hother : s.pc q = none := by
          by_contra hne
          exact hq (hs.alone q p hne hrun)
        simpa [State.commitStep, update_of_ne hq] using hother
    refine ⟨hs.count, ?_, ?_, ?_⟩
    · simp only [hnone]
      simp [State.commitStep]
    · intro q r hq
      exact absurd (hnone q) hq
    · simp [State.commitStep]

theorem CtlInv.beginOp {s : State} (hs : CtlInv s) (hop : s.op p = false) :
    CtlInv (s.beginOp p) := by
  unfold State.beginOp
  split
  · exact hs
  · rename_i hcommit
    split
    · exact hs
    · refine ⟨?_, hs.committing, hs.alone, fun h => absurd h hcommit⟩
      have hsum := sum_update_add s.op Bool.toNat p true
      have hcount := hs.count
      simp only [hop, Bool.toNat_false, Bool.toNat_true] at hsum
      simp only
      omega

theorem beginOp_fields (s : State) (p : Slot) :
    (s.beginOp p).bio = s.bio ∧ (s.beginOp p).lh = s.lh ∧ (s.beginOp p).pc = s.pc ∧
      (s.beginOp p).panic = s.panic := by
  unfold State.beginOp
  split
  · exact ⟨rfl, rfl, rfl, rfl⟩
  · split <;> exact ⟨rfl, rfl, rfl, rfl⟩

theorem CtlInv.no_commit {s : State} (hs : CtlInv s) (hop : s.op p = true) :
    s.committing = false ∧ ∀ q, s.pc q = none := by
  have hcommit : s.committing = false := by
    by_contra h
    have hquiet := hs.quiet (by simpa using h) p
    simp [hop] at hquiet
  refine ⟨hcommit, ?_⟩
  intro q
  by_contra hq
  have hrun := hs.committing.2 ⟨q, hq⟩
  simp [hcommit] at hrun

theorem endOp_fields {s : State} (hs : CtlInv s) (hop : s.op p = true) :
    (s.endOp p).bio = s.bio ∧ (s.endOp p).lh = s.lh ∧ (s.endOp p).panic = s.panic ∧
      ((s.endOp p).pc = s.pc ∨ (s.endOp p).pc p = some .check) := by
  simp only [State.endOp, (hs.no_commit hop).1, Bool.false_eq_true, if_false]
  split
  · exact ⟨rfl, rfl, rfl, .inr (update_self _ _ _)⟩
  · exact ⟨rfl, rfl, rfl, .inl rfl⟩

theorem CtlInv.endOp {s : State} (hs : CtlInv s) (hop : s.op p = true) : CtlInv (s.endOp p) := by
  rcases hs.no_commit hop with ⟨hcommit, hpc⟩
  have hsum := sum_update_add s.op Bool.toNat p false
  have hcount := hs.count
  simp only [hop, Bool.toNat_false, Bool.toNat_true] at hsum
  have hnew : s.outstanding - 1 = ((∑ q, (update s.op p false q).toNat : Nat) : Int) := by
    omega
  simp only [State.endOp, hcommit, Bool.false_eq_true, if_false]
  split
  · rename_i hzero
    have hnone : ∀ q, update s.op p false q = false := by
      intro q
      have hle := Finset.single_le_sum (f := fun q => (update s.op p false q).toNat)
        (fun _ _ => Nat.zero_le _) (Finset.mem_univ q)
      have hq : (update s.op p false q).toNat = 0 := by
        omega
      simpa using hq
    refine ⟨hnew, ?_, ?_, fun _ => hnone⟩
    · simp only [State.goto, true_iff]
      exact ⟨p, by simp⟩
    · -- Only `p` is in `commit` now.
      have honly : ∀ q, update s.pc p (some .check) q ≠ none → q = p := by
        intro q hq
        by_contra hqp
        exact hq (by rw [update_of_ne hqp, hpc])
      intro q r hq hr
      exact (honly q hq).trans (honly r hr).symm
  · refine ⟨hnew, ?_, hs.alone, ?_⟩
    · simpa [hcommit] using hpc
    · intro h
      simp at h

theorem CtlInv.logWrite {A : LogArea} {s : State} (hs : CtlInv s) (b : BufId) :
    CtlInv (s.logWrite A b) := by
  unfold State.logWrite
  split
  · exact hs.same ⟨rfl, rfl, rfl, rfl, rfl⟩
  · split
    · exact hs.same ⟨rfl, rfl, rfl, rfl, rfl⟩
    · split
      · exact hs
      · exact ⟨hs.count, hs.committing, hs.alone, hs.quiet⟩

theorem ctlInv_step (A : LogArea) (s : State) (a : Act) (t : State) (hs : CtlInv s)
    (hok : ClientOk A s a) (h : step A s a = some t) : CtlInv t := by
  cases steps_of_step h with
  | beginOp _ => exact hs.beginOp hok
  | endOp _ => exact hs.endOp hok
  | logWrite _ => exact hs.logWrite _
  | bread _ => exact hs.same (.bread ..)
  | brelse _ => exact hs.same (.brelse ..)
  | store _ | acquiresleep _ _ | fill _ _ | drop _ _ => exact hs.same ⟨rfl, rfl, rfl, rfl, rfl⟩
  | commit _ _ hpc => exact hs.commitStep hpc

/-! ## Data -/

/-- How many entries of a header of length `n` `install_trans` has unpinned. -/
def Pc.unpinned (n : Nat) : Pc → Nat
  | .loop .installTrans tail => tail
  | .gotLog .installTrans tail => tail
  | .gotHome .installTrans tail _ => tail
  | .unpin tail _ _ => tail
  | .rel .installTrans tail _ _ => tail + 1
  | .rel2 .installTrans tail _ => tail + 1
  | .clear => n
  | _ => 0

namespace State

/-- Where the running commit stands. -/
def running (s : State) : Option Pc :=
  (List.finRange NPROC).findSome? s.pc

def unpinned (s : State) : Nat :=
  match s.running with
  | some pc => pc.unpinned s.lh.block.length
  | none => 0

/-- The logged blocks that are still pinned. -/
def pinned (s : State) : List BlockNo :=
  s.lh.block.drop s.unpinned

/-- The pins on a buffer. -/
def pins (s : State) (b : BufId) : Nat :=
  if (s.bio.buf b).dev = ROOTDEV ∧ (s.bio.buf b).blockno ∈ s.pinned then 1 else 0

/-- Block `n` as a reader gets it. -/
def view (s : State) (n : BlockNo) : Block :=
  s.bio.contents.view n

/-- The log blocks of the first `m` entries have been written. -/
def Logged (A : LogArea) (s : State) (m : Nat) : Prop :=
  ∀ j n, j < m → s.lh.block[j]? = some n → s.view n = s.bio.disk (A.block (j + 1))

/-- The home blocks of the first `m` entries have been written. -/
def Installed (s : State) (m : Nat) : Prop :=
  ∀ j n, j < m → s.lh.block[j]? = some n → s.view n = s.bio.disk n

end State

theorem running_of_pc {s : State} (hs : CtlInv s) (hp : s.pc p = some pc) :
    s.running = some pc := by
  cases h : s.running with
  | none =>
    have hnone := List.findSome?_eq_none_iff.1 h p (List.mem_finRange p)
    simp [hp] at hnone
  | some pc' =>
    rcases List.exists_of_findSome?_eq_some h with ⟨q, _, hq⟩
    have hqp : q = p := hs.alone q p (by simp [hq]) (by simp [hp])
    rw [hqp, hp] at hq
    exact hq.symm

theorem unpinned_of_pc {s : State} (hs : CtlInv s) (hp : s.pc p = some pc) :
    s.unpinned = pc.unpinned s.lh.block.length := by
  simp [State.unpinned, running_of_pc hs hp]

theorem running_of_none {s : State} (h : ∀ p, s.pc p = none) : s.running = none := by
  refine List.findSome?_eq_none_iff.2 ?_
  intro p _
  exact h p

theorem unpinned_of_none {s : State} (h : ∀ p, s.pc p = none) : s.unpinned = 0 := by
  simp [State.unpinned, running_of_none h]

/-- The process holds the root device's block `n` in buffer `b`. -/
def Holds (s : State) (p : Slot) (b : BufId) (n : BlockNo) : Prop :=
  b ∈ (s.bio.thread p).held ∧ (s.bio.buf b).dev = ROOTDEV ∧ (s.bio.buf b).blockno = n

/-- The process is in `bread` for the root device's block `n`, or has just got it. -/
def Await (s : State) (p : Slot) (n : BlockNo) : Prop :=
  match (s.bio.thread p).io with
  | some (.wait dev m _) => dev = ROOTDEV ∧ m = n
  | some (.fill dev m _) => dev = ROOTDEV ∧ m = n
  | some (.drop _) => False
  | none => Holds s p (s.bio.thread p).ret n

/-- The log blocks a loop of `commit` relies on. -/
def Progress (A : LogArea) (s : State) : Phase → Nat → Prop
  | .writeLog, m => s.Logged A m
  | .installTrans, _ => s.Logged A s.lh.block.length

/-- What `write_head` relies on. -/
def HeadOk (A : LogArea) (s : State) (last : Bool) : Prop :=
  0 < A.size ∧ if last then s.lh.block = [] else s.Logged A s.lh.block.length

def PcInv (A : LogArea) (s : State) (p : Slot) : Pc → Prop
  | .check => True
  | .loop ph tail => tail ≤ s.lh.block.length ∧ 0 < A.size ∧ Progress A s ph tail
  | .gotLog ph tail =>
    tail < s.lh.block.length ∧ Progress A s ph tail ∧ Await s p (A.block (tail + 1))
  | .gotHome ph tail l =>
    tail < s.lh.block.length ∧ Progress A s ph tail ∧ Holds s p l (A.block (tail + 1)) ∧
      Await s p (s.lh.block.getD tail 0)
  | .unpin tail l h =>
    tail < s.lh.block.length ∧ Progress A s .installTrans tail ∧ s.Installed (tail + 1) ∧
      Holds s p l (A.block (tail + 1)) ∧ Holds s p h (s.lh.block.getD tail 0)
  | .rel ph tail a b =>
    tail < s.lh.block.length ∧ Progress A s ph (tail + 1) ∧ (∃ n, Holds s p a n) ∧
      (∃ n, Holds s p b n) ∧ a ≠ b
  | .rel2 ph tail b =>
    tail < s.lh.block.length ∧ Progress A s ph (tail + 1) ∧ ∃ n, Holds s p b n
  | .head last => HeadOk A s last
  | .gotHead last => HeadOk A s last ∧ Await s p (A.block 0)
  | .relHead last b => HeadOk A s last ∧ ∃ n, Holds s p b n
  | .clear => 0 < A.size
  | .done => s.lh.block = []

/-- The data part of the invariant, apart from what the process in `commit` knows. -/
structure Base (A : LogArea) (s : State) : Prop where
  nodup : s.lh.block.Nodup
  home : ∀ n ∈ s.lh.block, ¬ A.Mem n
  room : ∀ j, j < s.lh.block.length → j + 1 < A.size
  bio : s.bio.Inv s.pins
  cached : ∀ n ∈ s.pinned, ∃ b, (s.bio.contents.copy b).Of n
  area : ∀ b n, (s.bio.contents.copy b).Of n → A.Mem n → (s.bio.buf b).data = s.bio.disk n
  settled : s.Installed s.unpinned

/-! ## Steps that `commit` does not notice -/

/-- Nothing that `commit` works on has changed. -/
structure Calm (s t : State) : Prop where
  lh : t.lh = s.lh
  disk : t.bio.disk = s.bio.disk
  view : ∀ n ∈ s.lh.block, t.view n = s.view n

theorem Calm.logged {A : LogArea} {s : State} (h : Calm s t) (hs : s.Logged A m) :
    t.Logged A m := by
  intro j n hj hn
  rw [h.lh] at hn
  rw [h.view n (List.mem_of_getElem? hn), h.disk]
  exact hs j n hj hn

theorem Calm.installed {s : State} (h : Calm s t) (hs : s.Installed m) : t.Installed m := by
  intro j n hj hn
  rw [h.lh] at hn
  rw [h.view n (List.mem_of_getElem? hn), h.disk]
  exact hs j n hj hn

theorem Calm.progress {A : LogArea} {s : State} (h : Calm s t) {ph : Phase}
    (hs : Progress A s ph m) : Progress A t ph m := by
  cases ph with
  | writeLog => exact h.logged hs
  | installTrans =>
    have hlog : t.Logged A s.lh.block.length := h.logged hs
    rw [← h.lh] at hlog
    exact hlog

theorem Calm.headOk {A : LogArea} {s : State} (h : Calm s t) {last : Bool}
    (hs : HeadOk A s last) : HeadOk A t last := by
  refine ⟨hs.1, ?_⟩
  have hrest := hs.2
  cases last with
  | true => simpa [h.lh] using hrest
  | false =>
    rw [h.lh]
    exact h.logged hrest

/-- The process in `commit` keeps what it knows across a calm step that takes no buffer from it. -/
theorem PcInv.mono {A : LogArea} {s : State} (hs : PcInv A s p pc)
    (h : Calm s t) (hholds : ∀ b n, Holds s p b n → Holds t p b n)
    (hawait : ∀ n, Await s p n → Await t p n) : PcInv A t p pc := by
  have hheld : ∀ b, (∃ n, Holds s p b n) → ∃ n, Holds t p b n := fun b ⟨n, hn⟩ =>
    ⟨n, hholds b n hn⟩
  cases pc with
  | check => trivial
  | loop ph tail =>
    rcases hs with ⟨hle, hroom, hprog⟩
    exact ⟨by rwa [h.lh], hroom, h.progress hprog⟩
  | gotLog ph tail =>
    rcases hs with ⟨hlt, hprog, hwait⟩
    exact ⟨by rwa [h.lh], h.progress hprog, hawait _ hwait⟩
  | gotHome ph tail l =>
    rcases hs with ⟨hlt, hprog, hl, hwait⟩
    refine ⟨by rwa [h.lh], h.progress hprog, hholds _ _ hl, ?_⟩
    rw [h.lh]
    exact hawait _ hwait
  | unpin tail l b =>
    rcases hs with ⟨hlt, hprog, hinst, hl, hb⟩
    refine ⟨by rwa [h.lh], h.progress hprog, h.installed hinst, hholds _ _ hl, ?_⟩
    rw [h.lh]
    exact hholds _ _ hb
  | rel ph tail a b =>
    rcases hs with ⟨hlt, hprog, ha, hb, hne⟩
    exact ⟨by rwa [h.lh], h.progress hprog, hheld a ha, hheld b hb, hne⟩
  | rel2 ph tail b =>
    rcases hs with ⟨hlt, hprog, hb⟩
    exact ⟨by rwa [h.lh], h.progress hprog, hheld b hb⟩
  | head last => exact h.headOk hs
  | gotHead last => exact ⟨h.headOk hs.1, hawait _ hs.2⟩
  | relHead last b => exact ⟨h.headOk hs.1, hheld b hs.2⟩
  | clear => exact hs
  | done =>
    have hempty : s.lh.block = [] := hs
    simpa [PcInv, h.lh] using hempty

/-! ## Steps of the buffer cache -/

section Cache

variable {A : LogArea} {s : State} {bio : Bio.State}

theorem pins_congr (hpinned : t.pinned = s.pinned)
    (hid : ∀ b, (t.bio.buf b).dev = (s.bio.buf b).dev ∧
      (t.bio.buf b).blockno = (s.bio.buf b).blockno) : t.pins = s.pins := by
  funext b
  simp [State.pins, hpinned, hid]

/-- Two states of the cache with the same contents name the same blocks. -/
theorem ident_of_contents_eq (h : bio.contents = s.bio.contents) (b : BufId) :
    (bio.buf b).dev = (s.bio.buf b).dev ∧ (bio.buf b).blockno = (s.bio.buf b).blockno ∧
      (bio.buf b).data = (s.bio.buf b).data := by
  have hcopy : bio.contents.copy b = s.bio.contents.copy b := by rw [h]
  exact ⟨congrArg Copy.dev hcopy, congrArg Copy.blockno hcopy, congrArg Copy.data hcopy⟩

theorem Calm.of_contents_eq (h : bio.contents = s.bio.contents) : Calm s { s with bio := bio } := by
  refine ⟨rfl, congrArg Contents.disk h, ?_⟩
  intro n _
  simp [State.view, h]

/-- Locks, counts and the order of the list are not seen. -/
theorem Base.of_contents_eq (hs : Base A s) (hinv : bio.Inv s.pins)
    (h : bio.contents = s.bio.contents) : Base A { s with bio := bio } := by
  have hid := ident_of_contents_eq h
  have hpins : State.pins { s with bio := bio } = s.pins :=
    pins_congr rfl fun b => ⟨(hid b).1, (hid b).2.1⟩
  have hdisk : bio.disk = s.bio.disk := congrArg Contents.disk h
  refine ⟨hs.nodup, hs.home, hs.room, by rwa [hpins], ?_, ?_, ?_⟩
  · simp only [h]
    exact hs.cached
  · simp only [h, hdisk, hid]
    exact hs.area
  · exact (Calm.of_contents_eq h).installed hs.settled

/-- A pinned block is not in a buffer that nobody refers to. -/
theorem Base.not_pinned (hs : Base A s) (hb : (s.bio.buf b).refcnt = 0)
    (hdev : (s.bio.buf b).dev = ROOTDEV) : (s.bio.buf b).blockno ∉ s.pinned := by
  intro hmem
  have hzero := (hs.bio.idle hb).2
  simp [State.pins, hdev, hmem] at hzero

/-- A logged block that is no longer pinned is on the disk. -/
theorem Base.view_of_not_pinned (hs : Base A s) (hn : n ∈ s.lh.block)
    (hnot : n ∉ s.pinned) : s.view n = s.bio.disk n := by
  rcases List.mem_iff_getElem?.1 hn with ⟨j, hj⟩
  refine hs.settled j n ?_ hj
  by_contra hlt
  apply hnot
  refine List.mem_iff_getElem?.2 ⟨j - s.unpinned, ?_⟩
  rw [State.pinned, List.getElem?_drop, ← hj]
  congr 1
  omega

theorem Calm.recycle (hs : Base A s) {m : BlockNo}
    (hinv : bio.Inv s.pins) (hb : (s.bio.buf b).refcnt = 0)
    (h : bio.contents = s.bio.contents.recycle b dev m) : Calm s { s with bio := bio } := by
  refine ⟨rfl, congrArg Contents.disk h, ?_⟩
  intro n hn
  have huniq := hinv.unique
  rw [h] at huniq
  simp only [State.view, h]
  refine Contents.view_recycle hs.bio.unique huniq ?_
  intro hof
  -- The block in the recycled buffer is not pinned, so it has been installed.
  have hnot : n ∉ s.pinned := by
    have hno : (s.bio.buf b).blockno = n := hof.2.1
    rw [← hno]
    exact hs.not_pinned hb hof.1
  rw [← Contents.view_of_copy hs.bio.unique hof]
  exact hs.view_of_not_pinned hn hnot

theorem Base.recycle (hs : Base A s) {m : BlockNo}
    (hinv : bio.Inv s.pins) (hb : (s.bio.buf b).refcnt = 0) (hnone : s.bio.cached dev m = none)
    (h : bio.contents = s.bio.contents.recycle b dev m) : Base A { s with bio := bio } := by
  have hdisk : bio.disk = s.bio.disk := congrArg Contents.disk h
  have hself : bio.contents.copy b =
      { s.bio.contents.copy b with dev := dev, blockno := m, valid := false } := by
    rw [h]
    exact update_self _ _ _
  have hkeep : ∀ c, c ≠ b → bio.contents.copy c = s.bio.contents.copy c := by
    intro c hc
    rw [h]
    exact update_of_ne hc _ _
  have hof : ∀ c n, (bio.contents.copy c).Of n → c ≠ b := by
    rintro c n hc rfl
    simp [hself, Copy.Of] at hc
  -- The recycled buffer is pinned neither before nor after.
  have hpins : State.pins { s with bio := bio } = s.pins := by
    funext c
    by_cases hc : c = b
    · subst hc
      have hold : s.pins c = 0 := (hs.bio.idle hb).2
      rw [hold]
      refine if_neg ?_
      rintro ⟨hdev, hmem⟩
      have hdev' : dev = ROOTDEV := (congrArg Copy.dev hself).symm.trans hdev
      have hno : (bio.buf c).blockno = m := congrArg Copy.blockno hself
      rcases hs.cached _ (hno ▸ hmem) with ⟨a, ha⟩
      exact State.cached_eq_none hnone a ⟨ha.1.trans hdev'.symm, ha.2.1⟩
    · have hdev : (bio.buf c).dev = (s.bio.buf c).dev := congrArg Copy.dev (hkeep c hc)
      have hno : (bio.buf c).blockno = (s.bio.buf c).blockno := congrArg Copy.blockno (hkeep c hc)
      have hpin : State.pinned { s with bio := bio } = s.pinned := rfl
      simp [State.pins, hpin, hdev, hno]
  refine ⟨hs.nodup, hs.home, hs.room, by rwa [hpins], ?_, ?_, ?_⟩
  · intro n hn
    rcases hs.cached n hn with ⟨c, hc⟩
    have hcb : c ≠ b := by
      rintro rfl
      have hno : (s.bio.buf c).blockno = n := hc.2.1
      exact hs.not_pinned hb hc.1 (hno ▸ hn)
    exact ⟨c, by rwa [hkeep c hcb]⟩
  · intro c n hc hmem
    have hcb := hof c n hc
    have hdata : (bio.buf c).data = (s.bio.buf c).data := congrArg Copy.data (hkeep c hcb)
    rw [hkeep c hcb] at hc
    rw [hdata, hdisk]
    exact hs.area c n hc hmem
  · exact (Calm.recycle hs hinv hb h).installed hs.settled

theorem Calm.refill (hinv : bio.Inv s.pins) (hb : (s.bio.buf b).valid = false)
    (h : bio.contents = s.bio.contents.refill b) : Calm s { s with bio := bio } := by
  refine ⟨rfl, congrArg Contents.disk h, ?_⟩
  intro n _
  have huniq := hinv.unique
  rw [h] at huniq
  simp only [State.view, h]
  exact Contents.view_refill huniq hb n

theorem Base.refill (hs : Base A s) (hinv : bio.Inv s.pins)
    (hb : (s.bio.buf b).valid = false) (h : bio.contents = s.bio.contents.refill b) :
    Base A { s with bio := bio } := by
  have hdisk : bio.disk = s.bio.disk := congrArg Contents.disk h
  have hself : bio.contents.copy b = { s.bio.contents.copy b with
      data := s.bio.disk (s.bio.buf b).blockno, valid := true } := by
    rw [h]
    exact update_self _ _ _
  have hkeep : ∀ c, c ≠ b → bio.contents.copy c = s.bio.contents.copy c := by
    intro c hc
    rw [h]
    exact update_of_ne hc _ _
  have hid : ∀ c, (bio.buf c).dev = (s.bio.buf c).dev ∧
      (bio.buf c).blockno = (s.bio.buf c).blockno := by
    intro c
    by_cases hc : c = b
    · subst hc
      exact ⟨congrArg Copy.dev hself, congrArg Copy.blockno hself⟩
    · exact ⟨congrArg Copy.dev (hkeep c hc), congrArg Copy.blockno (hkeep c hc)⟩
  have hpins : State.pins { s with bio := bio } = s.pins := pins_congr rfl hid
  refine ⟨hs.nodup, hs.home, hs.room, by rwa [hpins], ?_, ?_, ?_⟩
  · intro n hn
    rcases hs.cached n hn with ⟨c, hc⟩
    have hcb : c ≠ b := by
      rintro rfl
      have hval : (s.bio.buf c).valid = true := hc.2.2
      simp [hb] at hval
    exact ⟨c, by rwa [hkeep c hcb]⟩
  · intro c n hc hmem
    rw [hdisk]
    by_cases hcb : c = b
    · subst hcb
      have hno : (s.bio.buf c).blockno = n := (hid c).2 ▸ hc.2.1
      have hdata : (bio.buf c).data = s.bio.disk (s.bio.buf c).blockno := congrArg Copy.data hself
      rw [hdata, hno]
    · have hdata : (bio.buf c).data = (s.bio.buf c).data := congrArg Copy.data (hkeep c hcb)
      rw [hkeep c hcb] at hc
      rw [hdata]
      exact hs.area c n hc hmem
  · exact (Calm.refill hinv hb h).installed hs.settled

/-! ## The process that calls into the cache -/

theorem Base.held_ne (hs : Base A s) {c : BufId} (hb : (s.bio.buf b).refcnt = 0)
    (hc : c ∈ (s.bio.thread p).held) : c ≠ b := by
  rintro rfl
  have hzero := (hs.bio.idle hb).1 p
  have hpos := Bio.State.uses_pos_of_held hc
  omega

theorem bread_of_panic_none (h : (s.bread p dev n).panic = none) :
    ∃ bio, s.bio.bget p dev n = some bio ∧ s.bread p dev n = { s with bio := bio } := by
  unfold State.bread at h ⊢
  split
  · exact ⟨_, ‹_›, rfl⟩
  · rename_i hnone
    simp [hnone] at h

theorem Base.bread (hs : Base A s)
    (hio : (s.bio.thread p).io = none) (h : (s.bread p dev n).panic = none) :
    Base A (s.bread p dev n) ∧ Calm s (s.bread p dev n) ∧
      (∀ q b m, Holds s q b m → Holds (s.bread p dev n) q b m) ∧
      (∀ q, q ≠ p → (s.bread p dev n).bio.thread q = s.bio.thread q) ∧
      (dev = ROOTDEV → Await (s.bread p dev n) p n) := by
  rcases bread_of_panic_none h with ⟨bio, hbio, ht⟩
  rw [ht]
  rcases Bio.State.bget_eq_some hbio with ⟨b, x, hnew, hcase⟩
  have hself : bio.thread p = { s.bio.thread p with io := some (.wait dev n b) } := by
    rw [hnew]
    exact update_self _ _ _
  have hthread : ∀ q, q ≠ p → bio.thread q = s.bio.thread q := by
    intro q hq
    rw [hnew]
    exact update_of_ne hq _ _
  have hheld : ∀ q c, c ∈ (s.bio.thread q).held → c ∈ (bio.thread q).held := by
    intro q c hc
    by_cases hq : q = p
    · subst hq
      simpa [hself] using hc
    · rwa [hthread q hq]
  have hawait : dev = ROOTDEV → Await { s with bio := bio } p n := by
    intro hdev
    simp [Await, hself, hdev]
  rcases hcase with ⟨hhit, rfl⟩ | ⟨hmiss, hfree, rfl⟩
  · have hinv : bio.Inv s.pins := hnew ▸ hs.bio.bget_hit hio hhit
    have hcont : bio.contents = s.bio.contents := by
      rw [hnew]
      exact s.bio.contents_setRefcnt b _
    refine ⟨hs.of_contents_eq hinv hcont, .of_contents_eq hcont, ?_, hthread, hawait⟩
    rintro q c m ⟨hc, hdev, hno⟩
    have hid := ident_of_contents_eq hcont c
    exact ⟨hheld q c hc, hid.1.trans hdev, hid.2.1.trans hno⟩
  · have hinv : bio.Inv s.pins := hnew ▸ hs.bio.bget_miss hio hmiss hfree
    have hcont : bio.contents = s.bio.contents.recycle b dev n := by
      rw [hnew]
      exact s.bio.contents_setBuf b _
    refine ⟨hs.recycle hinv hfree hmiss hcont, .recycle hs hinv hfree hcont, ?_, hthread, hawait⟩
    rintro q c m ⟨hc, hdev, hno⟩
    have hbuf : bio.buf c = s.bio.buf c := by
      rw [hnew]
      exact update_of_ne (hs.held_ne hfree hc) _ _
    exact ⟨hheld q c hc, by rwa [hbuf], by rwa [hbuf]⟩

theorem Await.congr (h : Await s p n) (hthread : t.bio.thread p = s.bio.thread p)
    (hholds : ∀ b m, Holds s p b m → Holds t p b m) : Await t p n := by
  unfold Await at h ⊢
  rw [hthread]
  cases hio : (s.bio.thread p).io with
  | none =>
    simp only [hio] at h
    exact hholds _ _ h
  | some io => cases io <;> simp [hio] at h ⊢ <;> exact h

theorem brelse_of_held (hs : Base A s) (hb : b ∈ (s.bio.thread p).held) :
    s.brelse p b = { s with bio := s.bio.releasesleep p b } := by
  simp [State.brelse, Bio.State.holdingsleep, hs.bio.lock_of_held hb]

theorem Base.brelse (hs : Base A s) (hio : (s.bio.thread p).io = none)
    (hb : b ∈ (s.bio.thread p).held) :
    Base A (s.brelse p b) ∧ Calm s (s.brelse p b) ∧
      (∀ q c m, q ≠ p ∨ c ≠ b → Holds s q c m → Holds (s.brelse p b) q c m) ∧
      (∀ q, q ≠ p → (s.brelse p b).bio.thread q = s.bio.thread q) := by
  rw [brelse_of_held hs hb]
  have hcont := s.bio.contents_releasesleep p b
  refine ⟨hs.of_contents_eq (hs.bio.releasesleep hio hb) hcont, .of_contents_eq hcont, ?_, ?_⟩
  · rintro q c m hne ⟨hc, hdev, hno⟩
    have hid := ident_of_contents_eq hcont c
    refine ⟨?_, hid.1.trans hdev, hid.2.1.trans hno⟩
    by_cases hq : q = p
    · subst hq
      have hcb := hne.resolve_left fun h => h rfl
      simpa [Bio.State.releasesleep, Bio.State.setThread, List.mem_erase_of_ne hcb] using hc
    · simpa [Bio.State.releasesleep, Bio.State.setThread, Bio.State.setBuf,
        update_of_ne hq] using hc
  · intro q hq
    exact update_of_ne hq _ _

/-- `acquiresleep`, the end of `bread` and the end of `brelse`: the process in `commit` keeps its
buffers, and gets the one it waits for. -/
structure Served (A : LogArea) (s t : State) : Prop where
  base : Base A t
  calm : Calm s t
  holds : ∀ q b n, Holds s q b n → Holds t q b n
  await : ∀ q n, Await s q n → Await t q n

theorem Served.of_thread (hbase : Base A { s with bio := bio })
    (hcalm : Calm s { s with bio := bio })
    (hid : ∀ b, (bio.buf b).dev = (s.bio.buf b).dev ∧ (bio.buf b).blockno = (s.bio.buf b).blockno)
    (hheld : ∀ b, b ∈ (s.bio.thread p).held → b ∈ (bio.thread p).held)
    (hthread : ∀ q, q ≠ p → bio.thread q = s.bio.thread q)
    (hawait : ∀ n, Await s p n → Await { s with bio := bio } p n) :
    Served A s { s with bio := bio } := by
  have hholds : ∀ q b n, Holds s q b n → Holds { s with bio := bio } q b n := by
    rintro q b n ⟨hb, hdev, hno⟩
    refine ⟨?_, (hid b).1.trans hdev, (hid b).2.trans hno⟩
    by_cases hq : q = p
    · subst hq
      exact hheld b hb
    · simpa [hthread q hq] using hb
  refine ⟨hbase, hcalm, hholds, ?_⟩
  intro q n hn
  by_cases hq : q = p
  · subst hq
    exact hawait n hn
  · exact hn.congr (hthread q hq) (hholds q)

theorem Served.acquiresleep (hs : Base A s) (h : s.bio.acquiresleep p = some bio) :
    Served A s { s with bio := bio } := by
  have hcont := Bio.State.contents_acquiresleep h
  have hid := ident_of_contents_eq hcont
  have hbase := hs.of_contents_eq (hs.bio.acquiresleep h) hcont
  rcases Bio.State.acquiresleep_eq_some h with ⟨dev, n, b, hio, _, rfl⟩
  refine .of_thread (p := p) hbase (.of_contents_eq hcont) (fun b => ⟨(hid b).1, (hid b).2.1⟩)
    ?_ ?_ ?_
  · intro c hc
    simpa [Bio.State.setThread] using hc
  · intro q hq
    exact update_of_ne hq _ _
  · intro m hm
    simpa [Await, hio, Bio.State.setThread] using hm

theorem Served.fill (hs : Base A s) (h : s.bio.fill p = some bio) :
    Served A s { s with bio := bio } := by
  have hinv := hs.bio.fill h
  have hdata : Base A { s with bio := bio } ∧ Calm s { s with bio := bio } := by
    rcases Bio.State.contents_fill h with hcont | ⟨_, _, b, _, hvalid, hcont⟩
    · exact ⟨hs.of_contents_eq hinv hcont, .of_contents_eq hcont⟩
    · exact ⟨hs.refill hinv hvalid hcont, .refill hinv hvalid hcont⟩
  rcases Bio.State.fill_eq_some h with ⟨dev, n, b, hio, rfl⟩
  have hid : ∀ c, (((s.bio.setBuf b (s.bio.filled b)).setThread p
      { held := b :: (s.bio.thread p).held, io := none, ret := b }).buf c).dev = (s.bio.buf c).dev ∧
      (((s.bio.setBuf b (s.bio.filled b)).setThread p
      { held := b :: (s.bio.thread p).held, io := none, ret := b }).buf c).blockno =
        (s.bio.buf c).blockno := by
    intro c
    by_cases hc : c = b
    · subst hc
      simp [Bio.State.setThread, Bio.State.setBuf, Bio.State.filled_fields]
    · simp [Bio.State.setThread, Bio.State.setBuf, update_of_ne hc]
  refine .of_thread (p := p) hdata.1 hdata.2 hid ?_ ?_ ?_
  · intro c hc
    simp [Bio.State.setThread, hc]
  · intro q hq
    exact update_of_ne hq _ _
  · intro m hm
    rcases hs.bio.request p dev n b (.inr hio) with ⟨hdev, hno⟩
    rcases (by simpa [Await, hio] using hm : dev = ROOTDEV ∧ n = m) with ⟨rfl, rfl⟩
    have hnew := hid b
    rw [hdev, hno] at hnew
    simp only [Await, Bio.State.setThread, update_self]
    exact ⟨by simp, hnew.1, hnew.2⟩

theorem Served.drop (hs : Base A s) (h : s.bio.drop p = some bio) :
    Served A s { s with bio := bio } := by
  have hcont := Bio.State.contents_drop h
  have hid := ident_of_contents_eq hcont
  have hbase := hs.of_contents_eq (hs.bio.drop h) hcont
  rcases Bio.State.drop_eq_some h with ⟨b, u, hio, rfl, ht⟩
  have hthread : bio.thread = update s.bio.thread p { s.bio.thread p with io := none } := by
    rcases ht with rfl | rfl <;> rfl
  refine .of_thread (p := p) hbase (.of_contents_eq hcont) (fun b => ⟨(hid b).1, (hid b).2.1⟩)
    ?_ ?_ ?_
  · intro c hc
    simpa [hthread] using hc
  · intro q hq
    rw [hthread]
    exact update_of_ne hq _ _
  · intro m hm
    simp [Await, hio] at hm

end Cache

end Xv6.Group
