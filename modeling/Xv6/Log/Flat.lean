import Xv6.Log.Isolation

/-!
# Flat — the cache and the log as a flat array of blocks

Clients see one block of data for each block number: the one logged last.  The flat array is kept
beside the run; a buffer of a home block agrees with it unless its holder has changed it and not
logged it yet, and so does the disk, unless the block is still to be installed.
-/

namespace Xv6.Group

open Lib Log Bio
open Function (update update_of_ne update_self)

variable {A : LogArea} {s : State}

/-! ## The flat array -/

/-- The data last logged for each block, the buffers changed since they were logged, and the calls
of `bpin` and `bunpin` for each block. -/
structure Flat where
  spec : Disk
  dirty : BufId → Bool
  bpins : BlockNo → Nat
  bunpins : BlockNo → Nat

namespace Flat

def start (d : Disk) : Flat :=
  { spec := d, dirty := fun _ => false, bpins := fun _ => 0, bunpins := fun _ => 0 }

/-- A call of `log_write` that is not absorbed pins the block. -/
def logWrite (s : State) (b : BufId) (f : Flat) : Flat :=
  { f with
    spec := update f.spec (s.bio.buf b).blockno (s.bio.buf b).data
    dirty := update f.dirty b false
    bpins :=
      if (s.bio.buf b).blockno ∈ s.lh.block then
        f.bpins
      else
        update f.bpins (s.bio.buf b).blockno (f.bpins (s.bio.buf b).blockno + 1) }

def bunpin (s : State) (b : BufId) (f : Flat) : Flat :=
  { f with
    bunpins := update f.bunpins (s.bio.buf b).blockno (f.bunpins (s.bio.buf b).blockno + 1) }

def after (s : State) : Act → Flat → Flat
  | .store _ b _, f => { f with dirty := update f.dirty b true }
  | .logWrite _ b, f => f.logWrite s b
  | .commit p, f =>
    match s.pc p with
    | some (.unpin _ _ h) => f.bunpin s h
    | _ => f
  | _, f => f

end Flat

/-- The rules for callers, and a changed buffer is logged before it is released. -/
def FlatOk (A : LogArea) (x : State × Flat) (a : Act) : Prop :=
  ClientOk A x.1 a ∧
    match a with
    | .brelse _ b => x.2.dirty b = false
    | _ => True

instance (A : LogArea) (x : State × Flat) (a : Act) : Decidable (FlatOk A x a) :=
  match a with
  | .brelse _ _ => inferInstanceAs (Decidable (_ ∧ _ = _))
  | .beginOp _ | .endOp _ | .store _ _ _ | .logWrite _ _ | .bread _ _ _ | .acquiresleep _
  | .fill _ | .drop _ | .commit _ => inferInstanceAs (Decidable (_ ∧ True))

/-! ## The invariant -/

namespace State

def installed (s : State) : Nat :=
  match s.running with
  | some pc => pc.installed s.lh.block.length
  | none => 0

/-- The logged blocks that `install_trans` has not yet written home. -/
def pending (s : State) : List BlockNo :=
  s.lh.block.drop s.installed

end State

/-- The buffers a process in `commit` has in its variables. -/
def Pc.bufs : Pc → List BufId
  | .gotHome _ _ l => [l]
  | .unpin _ l h => [l, h]
  | .rel _ _ a b => [a, b]
  | .rel2 _ _ b => [b]
  | .relHead _ b => [b]
  | _ => []

/-- The process has called `bread` and will use what it returns. -/
def Pc.awaits : Pc → Bool
  | .gotLog _ _ => true
  | .gotHome _ _ _ => true
  | .gotHead _ => true
  | _ => false

/-- The buffers of a process in `commit` are as they were logged. -/
def Clean (s : State) (f : Flat) (p : Slot) (pc : Pc) : Prop :=
  (∀ b ∈ pc.bufs, f.dirty b = false) ∧
    (pc.awaits = true → (s.bio.thread p).io = none → f.dirty (s.bio.thread p).ret = false)

structure FlatInv (A : LogArea) (s : State) (f : Flat) : Prop where
  disk : ∀ n, ¬ A.Mem n → n ∉ s.pending → s.bio.disk n = f.spec n
  cache : ∀ b n, (s.bio.contents.copy b).Of n → ¬ A.Mem n → f.dirty b = false →
    (s.bio.buf b).data = f.spec n
  dirty : ∀ b, f.dirty b = true → ∃ p n, Holds s p b n ∧ ¬ A.Mem n
  clean : ∀ p pc, s.pc p = some pc → Clean s f p pc
  pins : ∀ n, f.bpins n = f.bunpins n + s.pinned.count n

variable {p : Slot} {pc : Pc} {n : BlockNo} {f : Flat} {t : State} {dev : UInt32} {b : BufId}
    {a : Act}

theorem installed_of_pc (hs : CtlInv s) (hp : s.pc p = some pc) :
    s.installed = pc.installed s.lh.block.length := by
  simp [State.installed, running_of_pc hs hp]

theorem installed_of_none (h : ∀ p, s.pc p = none) : s.installed = 0 := by
  simp [State.installed, running_of_none h]

/-- A block is written home before it is unpinned. -/
theorem unpinned_le_installed (s : State) : s.unpinned ≤ s.installed := by
  unfold State.unpinned State.installed
  cases s.running with
  | none => exact le_rfl
  | some pc => cases pc <;> simp [Pc.installed, Pc.unpinned]

theorem pinned_of_pending (h : n ∈ s.pending) : n ∈ s.pinned := by
  have hsub : s.pending.Sublist s.pinned :=
    List.drop_sublist_drop_left _ (unpinned_le_installed s)
  exact hsub.subset h

theorem flatInv_of_started (h : Started s) : FlatInv A s (.start s.bio.disk) := by
  refine ⟨?_, ?_, ?_, ?_, ?_⟩
  · intro n _ _
    rfl
  · intro b n hb _ _
    exact h.clean b n hb
  · intro b hb
    simp [Flat.start] at hb
  · intro p pc hp
    simp [h.pcs] at hp
  · intro n
    simp [Flat.start, State.pinned, h.empty]

/-! ## Steps that the array does not see -/

/-- Home blocks stay on the disk, every copy of one is an old copy or fresh from the array, and
changed buffers stay with their holders. -/
structure Kept (A : LogArea) (s : State) (f : Flat) (t : State) : Prop where
  disk : ∀ n, ¬ A.Mem n → t.bio.disk n = s.bio.disk n
  copy : ∀ b n, (t.bio.contents.copy b).Of n → ¬ A.Mem n →
    (s.bio.contents.copy b).Of n ∧ (t.bio.buf b).data = (s.bio.buf b).data ∨
      (t.bio.buf b).data = f.spec n
  dirty : ∀ b p n, f.dirty b = true → Holds s p b n → Holds t p b n

theorem FlatInv.of_kept (hs : FlatInv A s f) (hkept : Kept A s f t)
    (hpending : t.pending = s.pending) (hpinned : t.pinned = s.pinned)
    (hclean : ∀ p pc, t.pc p = some pc → Clean t f p pc) : FlatInv A t f := by
  refine ⟨?_, ?_, ?_, hclean, ?_⟩
  · intro n hn hnot
    rw [hkept.disk n hn]
    exact hs.disk n hn (hpending ▸ hnot)
  · intro b n hb hn hfresh
    rcases hkept.copy b n hb hn with ⟨hold, hdata⟩ | hdata
    · rw [hdata]
      exact hs.cache b n hold hn hfresh
    · exact hdata
  · intro b hb
    rcases hs.dirty b hb with ⟨p, n, hheld, hn⟩
    exact ⟨p, n, hkept.dirty b p n hb hheld, hn⟩
  · rw [hpinned]
    exact hs.pins

theorem Kept.of_contents_eq (h : t.bio.contents = s.bio.contents)
    (hholds : ∀ b p n, f.dirty b = true → Holds s p b n → Holds t p b n) : Kept A s f t := by
  refine ⟨?_, ?_, hholds⟩
  · intro n _
    have hdisk : t.bio.disk = s.bio.disk := congrArg Contents.disk h
    rw [hdisk]
  · intro b n hb _
    rw [h] at hb
    exact .inl ⟨hb, (ident_of_contents_eq h b).2.2⟩

theorem Kept.bread (hs : Base A s) (f : Flat)
    (hio : (s.bio.thread p).io = none) (hpanic : (s.bread p dev n).panic = none) :
    Kept A s f (s.bread p dev n) := by
  rcases hs.bread hio hpanic with ⟨_, hcalm, hholds, _, _⟩
  refine ⟨fun m _ => by rw [hcalm.disk], ?_, fun b q m _ => hholds q b m⟩
  rcases bread_of_panic_none hpanic with ⟨bio, hbio, hbread⟩
  rw [hbread]
  rcases Bio.State.bget_eq_some hbio with ⟨b, x, rfl, hcase⟩
  intro c m hc _
  left
  rcases hcase with ⟨_, rfl⟩ | ⟨_, _, rfl⟩
  · have hcont : ((s.bio.setBuf b { s.bio.buf b with
        refcnt := (s.bio.buf b).refcnt + 1 }).setThread p
        { s.bio.thread p with io := some (.wait dev n b) }).contents = s.bio.contents :=
      s.bio.contents_setRefcnt b _
    rw [hcont] at hc
    exact ⟨hc, (ident_of_contents_eq hcont c).2.2⟩
  · -- The recycled buffer is not valid.
    have hcb : c ≠ b := by
      rintro rfl
      simp [Copy.Of, Bio.State.contents, Bio.State.setThread, Bio.State.setBuf] at hc
    simpa [Copy.Of, Bio.State.contents, Bio.State.setThread, Bio.State.setBuf,
      update_of_ne hcb] using hc

theorem Kept.fill (hs : Base A s) (hf : FlatInv A s f) {bio : Bio.State}
    (h : s.bio.fill p = some bio) : Kept A s f { s with bio := bio } := by
  have hserved := Served.fill hs h
  rcases Bio.State.contents_fill h with hcont | ⟨_, _, b, _, hvalid, hcont⟩
  · exact .of_contents_eq hcont fun c q m _ => hserved.holds q c m
  · refine ⟨fun n _ => by rw [hserved.calm.disk], ?_, fun c q m _ => hserved.holds q c m⟩
    intro c n hc hn
    by_cases hcb : c = b
    · subst hcb
      right
      have hself : bio.contents.copy c = { s.bio.contents.copy c with
          data := s.bio.disk (s.bio.buf c).blockno, valid := true } := by
        rw [hcont]
        exact update_self _ _ _
      have hdev : (s.bio.buf c).dev = ROOTDEV := (congrArg Copy.dev hself).symm.trans hc.1
      have hno : (s.bio.buf c).blockno = n := (congrArg Copy.blockno hself).symm.trans hc.2.1
      have hdata : (bio.buf c).data = s.bio.disk n := by
        rw [← hno]
        exact congrArg Copy.data hself
      -- A block still to be installed is cached, so it would not have to be read.
      have hnot : n ∉ s.pending := by
        intro hmem
        rcases hs.cached n (pinned_of_pending hmem) with ⟨a, ha⟩
        have hac : a = c := hs.bio.unique a c ha.1 hdev (ha.2.1.trans hno.symm)
        have hval : (s.bio.buf c).valid = true := hac ▸ ha.2.2
        simp [hvalid] at hval
      rw [hdata]
      exact hf.disk n hn hnot
    · left
      have hkeep : bio.contents.copy c = s.bio.contents.copy c := by
        rw [hcont]
        exact update_of_ne hcb _ _
      rw [hkeep] at hc
      exact ⟨hc, congrArg Copy.data hkeep⟩

theorem Kept.put (hs : Base A s) (f : Flat) {m : BlockNo} {data : Block}
    (hb : Holds s p b m) (hm : A.Mem m) : Kept A s f (s.put p b data) := by
  refine ⟨?_, ?_, fun c q n _ hc => .put hs hb data hc⟩
  · intro n hn
    have hne : n ≠ m := fun h => hn (h ▸ hm)
    rw [disk_put hs hb, update_of_ne hne]
  · intro c n hc hn
    left
    have hid := ident_put hs hb data c
    have hold : (s.bio.contents.copy c).Of n :=
      ⟨hid.1.symm.trans hc.1, hid.2.1.symm.trans hc.2.1, hid.2.2.symm.trans hc.2.2⟩
    have hcb : c ≠ b := by
      rintro rfl
      have hno : (s.bio.buf c).blockno = n := hold.2.1
      exact hn (hno ▸ hb.2.2 ▸ hm)
    refine ⟨hold, ?_⟩
    rw [put_of_holds hs hb]
    simp [Bio.State.bwrite, Bio.State.store, Bio.State.setBuf, update_of_ne hcb]

/-! ## The steps of `commit` -/

/-- The process in `commit` moves on after a step `s → u` that the array does not see. -/
theorem FlatInv.goto {u : State} {pc' : Pc} (hctl : CtlInv s)
    (hs : FlatInv A s f) (hp : s.pc p = some pc) (hsame : SameCtl s u) (hkept : Kept A s f u)
    (hunpinned : pc'.unpinned s.lh.block.length = pc.unpinned s.lh.block.length)
    (hinstalled : pc'.installed s.lh.block.length = pc.installed s.lh.block.length)
    (hclean : Clean u f p pc') : FlatInv A (u.goto p pc') f := by
  have hup : u.pc p = some pc := by rw [hsame.pc, hp]
  have hctl' : CtlInv (u.goto p pc') := (hctl.same hsame).goto (by simp [hup]) pc'
  have hpc : (u.goto p pc').pc p = some pc' := update_self _ _ _
  have hlh : (u.goto p pc').lh = s.lh := hsame.lh
  refine hs.of_kept (t := u.goto p pc') ⟨hkept.disk, hkept.copy, hkept.dirty⟩ ?_ ?_ ?_
  · rw [State.pending, State.pending, installed_of_pc hctl' hpc, installed_of_pc hctl hp, hlh,
      hinstalled]
  · rw [State.pinned, State.pinned, unpinned_of_pc hctl' hpc, unpinned_of_pc hctl hp,
      hlh, hunpinned]
  · intro q pc'' hq
    rcases hctl'.same_pc hpc hq with ⟨rfl, rfl⟩
    exact hclean

theorem FlatInv.install (hcore : Core A s) (hs : FlatInv A s f) {tail : Nat}
    {l : BufId} (hp : s.pc p = some (.gotHome .installTrans tail l))
    (hio : (s.bio.thread p).io = none) :
    FlatInv A ((s.put p (s.bio.thread p).ret (s.bio.buf l).data).goto p
      (.unpin tail l (s.bio.thread p).ret)) f := by
  rcases hcore.pcs p _ hp with ⟨hlt, hprog, hl, hwait⟩
  have hh := await_of_none hio hwait
  rcases hs.clean p _ hp with ⟨hclean, hfresh⟩
  have hret : f.dirty (s.bio.thread p).ret = false := hfresh rfl hio
  rcases hcore.base.getD_mem hlt with ⟨hget, hhome⟩
  have hbase := hcore.base
  have hsame := SameCtl.put s p (s.bio.thread p).ret (s.bio.buf l).data
  have hctl : CtlInv ((s.put p (s.bio.thread p).ret (s.bio.buf l).data).goto p
      (.unpin tail l (s.bio.thread p).ret)) :=
    (hcore.ctl.same hsame).goto (by rw [hsame.pc, hp]; simp) _
  have hpc : ((s.put p (s.bio.thread p).ret (s.bio.buf l).data).goto p
      (.unpin tail l (s.bio.thread p).ret)).pc p = some (.unpin tail l (s.bio.thread p).ret) :=
    update_self _ _ _
  -- The log block holds the data that was logged last.
  have hdata : (s.bio.buf l).data = f.spec (s.lh.block.getD tail 0) := by
    rw [hbase.area l _ (hbase.copy_of_holds hl) (hbase.mem_block hlt),
      ← hprog tail _ hlt hget, hbase.view_of_holds hh]
    exact hs.cache _ _ (hbase.copy_of_holds hh) hhome hret
  have hid := ident_put hbase hh (s.bio.buf l).data
  refine ⟨?_, ?_, ?_, ?_, ?_⟩
  · intro n hn hnot
    have hdisk := disk_put hbase hh (s.bio.buf l).data
    simp only [State.goto, hdisk]
    by_cases hEq : n = s.lh.block.getD tail 0
    · rw [hEq, update_self, hdata]
    · rw [update_of_ne hEq]
      refine hs.disk n hn ?_
      intro hmem
      apply hnot
      rw [State.pending, installed_of_pc hcore.ctl hp] at hmem
      rw [State.pending, installed_of_pc hctl hpc]
      have hcons : s.lh.block.drop tail = s.lh.block.getD tail 0 :: s.lh.block.drop (tail + 1) := by
        rw [List.drop_eq_getElem_cons hlt]
        simp [hlt]
      have hmem' : n ∈ s.lh.block.getD tail 0 :: s.lh.block.drop (tail + 1) := hcons ▸ hmem
      have hlh : ((s.put p (s.bio.thread p).ret (s.bio.buf l).data).goto p
          (.unpin tail l (s.bio.thread p).ret)).lh = s.lh := hsame.lh
      rw [hlh]
      exact (List.mem_cons.1 hmem').resolve_left hEq
  · intro c n hc hn hfresh'
    have hold : (s.bio.contents.copy c).Of n :=
      ⟨(hid c).1.symm.trans hc.1, (hid c).2.1.symm.trans hc.2.1, (hid c).2.2.symm.trans hc.2.2⟩
    by_cases hcb : c = (s.bio.thread p).ret
    · have hno : s.lh.block.getD tail 0 = n := by
        rw [← hh.2.2, ← hcb]
        exact hold.2.1
      rw [← hno, ← hdata, hcb]
      simp [State.goto, put_of_holds hbase hh, Bio.State.bwrite, Bio.State.store, Bio.State.setBuf]
    · have hbuf : (s.put p (s.bio.thread p).ret (s.bio.buf l).data).bio.buf c = s.bio.buf c := by
        rw [put_of_holds hbase hh]
        exact update_of_ne hcb _ _
      simp only [State.goto, hbuf]
      exact hs.cache c n hold hn hfresh'
  · intro b hb
    rcases hs.dirty b hb with ⟨q, n, hheld, hn⟩
    exact ⟨q, n, .put hbase hh _ hheld, hn⟩
  · intro q pc' hq
    rcases hctl.same_pc hpc hq with ⟨rfl, rfl⟩
    refine ⟨?_, by simp [Pc.awaits]⟩
    intro b hb
    rcases List.mem_pair.1 hb with rfl | rfl
    · exact hclean _ (List.mem_singleton_self _)
    · exact hret
  · intro n
    have hlh : ((s.put p (s.bio.thread p).ret (s.bio.buf l).data).goto p
        (.unpin tail l (s.bio.thread p).ret)).lh = s.lh := hsame.lh
    have hpinned : ((s.put p (s.bio.thread p).ret (s.bio.buf l).data).goto p
        (.unpin tail l (s.bio.thread p).ret)).pinned = s.pinned := by
      rw [State.pinned, State.pinned, unpinned_of_pc hctl hpc, unpinned_of_pc hcore.ctl hp, hlh]
      rfl
    rw [hpinned]
    exact hs.pins n

theorem FlatInv.unpin (hcore : Core A s) (hs : FlatInv A s f) {tail : Nat}
    {l h : BufId} (hp : s.pc p = some (.unpin tail l h)) :
    FlatInv A ({ s with bio := s.bio.bunpin h }.goto p (.rel .installTrans tail l h))
      (f.bunpin s h) := by
  rcases hcore.pcs p _ hp with ⟨hlt, _, _, hl, hh⟩
  have hcont : (s.bio.bunpin h).contents = s.bio.contents := s.bio.contents_setRefcnt h _
  have hid := ident_of_contents_eq hcont
  have hsame : CtlInv { s with bio := s.bio.bunpin h } := hcore.ctl.same ⟨rfl, rfl, rfl, rfl, rfl⟩
  have hctl := hsame.goto (p := p) (by simp [hp]) (.rel .installTrans tail l h)
  have hpc : ({ s with bio := s.bio.bunpin h }.goto p (.rel .installTrans tail l h)).pc p =
      some (.rel .installTrans tail l h) := update_self _ _ _
  have hpending : ({ s with bio := s.bio.bunpin h }.goto p (.rel .installTrans tail l h)).pending =
      s.pending := by
    rw [State.pending, State.pending, installed_of_pc hctl hpc, installed_of_pc hcore.ctl hp]
    rfl
  have hpinned : s.pinned = s.lh.block.getD tail 0 ::
      ({ s with bio := s.bio.bunpin h }.goto p (.rel .installTrans tail l h)).pinned := by
    rw [State.pinned, State.pinned, unpinned_of_pc hctl hpc, unpinned_of_pc hcore.ctl hp]
    simp only [Pc.unpinned, State.goto]
    rw [List.drop_eq_getElem_cons hlt]
    simp [hlt]
  have hkept : Kept A s f { s with bio := s.bio.bunpin h } := by
    refine .of_contents_eq hcont ?_
    rintro b q n _ ⟨hb, hdev, hno⟩
    exact ⟨hb, (hid b).1.trans hdev, (hid b).2.1.trans hno⟩
  refine ⟨?_, ?_, ?_, ?_, ?_⟩
  · intro n hn hnot
    rw [hpending] at hnot
    exact hs.disk n hn hnot
  · intro b n hb hn hfresh
    rcases hkept.copy b n hb hn with ⟨hold, hdata⟩ | hdata
    · exact hdata.trans (hs.cache b n hold hn hfresh)
    · exact hdata
  · intro b hb
    rcases hs.dirty b hb with ⟨q, n, hheld, hn⟩
    exact ⟨q, n, hkept.dirty b q n hb hheld, hn⟩
  · intro q pc' hq
    rcases hctl.same_pc hpc hq with ⟨rfl, rfl⟩
    exact ⟨(hs.clean q _ hp).1, by simp [Pc.awaits]⟩
  · intro n
    have hold := hs.pins n
    rw [hpinned, List.count_cons] at hold
    simp only [Flat.bunpin, hh.2.2]
    by_cases hn : n = s.lh.block.getD tail 0
    · subst hn
      simp only [beq_self_eq_true, if_true] at hold
      rw [update_self]
      omega
    · have hne : (s.lh.block.getD tail 0 == n) = false := by simpa using Ne.symm hn
      simp only [hne, Bool.false_eq_true, if_false] at hold
      rw [update_of_ne hn]
      omega

theorem Kept.brelse (hs : Base A s)
    (hio : (s.bio.thread p).io = none) (hb : b ∈ (s.bio.thread p).held)
    (hfresh : f.dirty b = false) : Kept A s f (s.brelse p b) := by
  rcases hs.brelse hio hb with ⟨_, _, hholds, _⟩
  have hcont : (s.brelse p b).bio.contents = s.bio.contents := by
    rw [brelse_of_held hs hb]
    exact s.bio.contents_releasesleep p b
  refine .of_contents_eq hcont ?_
  intro c q n hc hheld
  refine hholds q c n (.inr ?_) hheld
  rintro rfl
  simp [hfresh] at hc

/-- A `bread` by the process in `commit`, before it has returned. -/
theorem Clean.bread
    (hpanic : (s.bread p dev n).panic = none) (h : ∀ b ∈ pc.bufs, f.dirty b = false) :
    Clean (s.bread p dev n) f p pc := by
  refine ⟨h, ?_⟩
  intro _ hio
  rcases bread_of_panic_none hpanic with ⟨bio, hbio, hbread⟩
  rcases Bio.State.bget_eq_some hbio with ⟨b, x, rfl, _⟩
  rw [hbread] at hio
  simp [Bio.State.setThread] at hio

theorem flatInv_commitStep (hcore : Core A s) (hs : FlatInv A s f)
    (hp : s.pc p = some pc) (hio : (s.bio.thread p).io = none)
    (hpanic : (s.commitStep A p pc).panic = none) :
    FlatInv A (s.commitStep A p pc) (Flat.after s (.commit p) f) := by
  have hself : SameCtl s s := ⟨rfl, rfl, rfl, rfl, rfl⟩
  have hkept : Kept A s f s := .of_contents_eq rfl fun _ _ _ _ h => h
  have hknown := hcore.pcs p pc hp
  have hctl : CtlInv (s.commitStep A p pc) := hcore.ctl.commitStep hp
  rcases hs.clean p pc hp with ⟨hclean, hret⟩
  have hbase := hcore.base
  cases pc with
  | check =>
    simp only [Flat.after, hp, State.commitStep]
    split
    · exact hs.goto hcore.ctl hp hself hkept rfl rfl ⟨hclean, by simp [Pc.awaits]⟩
    · exact hs.goto hcore.ctl hp hself hkept rfl rfl ⟨hclean, by simp [Pc.awaits]⟩
  | loop ph tail =>
    simp only [Flat.after, hp, State.commitStep] at hpanic ⊢
    split at hpanic
    · rename_i hlt
      rw [if_pos hlt]
      exact hs.goto hcore.ctl hp (.bread ..) (.bread hbase f hio hpanic) (by cases ph <;> rfl)
        (by cases ph <;> rfl) (.bread hpanic (by simp [Pc.bufs]))
    · rename_i hlt
      rw [if_neg hlt]
      cases ph with
      | writeLog =>
        exact hs.goto hcore.ctl hp hself hkept rfl rfl ⟨by simp [Pc.bufs], by simp [Pc.awaits]⟩
      | installTrans =>
        have hle := hknown.1
        have hEq : s.lh.block.length = tail := by omega
        exact hs.goto hcore.ctl hp hself hkept hEq hEq ⟨by simp [Pc.bufs], by simp [Pc.awaits]⟩
  | gotLog ph tail =>
    simp only [Flat.after, hp]
    refine hs.goto hcore.ctl hp (.bread ..) (.bread hbase f hio hpanic) (by cases ph <;> rfl)
      (by cases ph <;> rfl) (.bread hpanic ?_)
    intro b hb
    rw [List.mem_singleton.1 hb]
    exact hret rfl hio
  | gotHome ph tail l =>
    simp only [Flat.after, hp]
    cases ph with
    | writeLog =>
      rcases hknown with ⟨hlt, _, hl, _⟩
      refine hs.goto hcore.ctl hp (.put ..) (.put hbase f hl (hbase.mem_block hlt)) rfl rfl
        ⟨?_, by simp [Pc.awaits]⟩
      intro b hb
      rcases List.mem_pair.1 hb with rfl | rfl
      · exact hret rfl hio
      · exact hclean _ (List.mem_singleton_self _)
    | installTrans => exact hs.install hcore hp hio
  | unpin tail l h =>
    simp only [Flat.after, hp]
    exact hs.unpin hcore hp
  | rel ph tail a b =>
    rcases hknown with ⟨_, _, ⟨n, ha⟩, _⟩
    simp only [Flat.after, hp]
    refine hs.goto hcore.ctl hp (.brelse ..) (.brelse hbase hio ha.1 (hclean a (by simp [Pc.bufs])))
      (by cases ph <;> rfl) (by cases ph <;> rfl) ⟨?_, by simp [Pc.awaits]⟩
    intro c hc
    rw [List.mem_singleton.1 hc]
    exact hclean b (by simp [Pc.bufs])
  | rel2 ph tail b =>
    rcases hknown with ⟨_, _, n, hb⟩
    simp only [Flat.after, hp]
    exact hs.goto hcore.ctl hp (.brelse ..) (.brelse hbase hio hb.1 (hclean b (by simp [Pc.bufs])))
      (by cases ph <;> rfl) (by cases ph <;> rfl) ⟨by simp [Pc.bufs], by simp [Pc.awaits]⟩
  | head last =>
    simp only [Flat.after, hp]
    exact hs.goto hcore.ctl hp (.bread ..) (.bread hbase f hio hpanic) rfl rfl
      (.bread hpanic (by simp [Pc.bufs]))
  | gotHead last =>
    have hb := await_of_none hio hknown.2
    simp only [Flat.after, hp]
    refine hs.goto hcore.ctl hp (.put ..) (.put hbase f hb (A.mem_block hknown.1.1)) rfl rfl
      ⟨?_, by simp [Pc.awaits]⟩
    intro c hc
    rw [List.mem_singleton.1 hc]
    exact hret rfl hio
  | relHead last b =>
    rcases hknown with ⟨_, n, hb⟩
    simp only [Flat.after, hp]
    exact hs.goto hcore.ctl hp (.brelse ..) (.brelse hbase hio hb.1 (hclean b (by simp [Pc.bufs])))
      (by cases last <;> rfl) (by cases last <;> rfl)
      ⟨by cases last <;> simp [Pc.bufs], by cases last <;> simp [Pc.awaits]⟩
  | clear =>
    have hpc : (s.commitStep A p .clear).pc p = some (.head true) := update_self _ _ _
    have hpending : s.pending = [] := by
      rw [State.pending, installed_of_pc hcore.ctl hp]
      exact List.drop_length
    have hpinned : s.pinned = [] := by
      rw [State.pinned, unpinned_of_pc hcore.ctl hp]
      exact List.drop_length
    simp only [Flat.after, hp]
    refine hs.of_kept (t := s.commitStep A p .clear) ⟨hkept.disk, hkept.copy, hkept.dirty⟩ ?_ ?_ ?_
    · rw [hpending]
      exact List.drop_nil
    · rw [hpinned]
      exact List.drop_nil
    · intro q pc' hq
      rcases hctl.same_pc hpc hq with ⟨rfl, rfl⟩
      exact ⟨by simp [Pc.bufs], by simp [Pc.awaits]⟩
  | done =>
    have hempty : s.lh.block = [] := hknown
    have hnone : ∀ q, (s.commitStep A p .done).pc q = none := by
      intro q
      by_contra hq
      have hrun := hctl.committing.2 ⟨q, hq⟩
      simp [State.commitStep] at hrun
    simp only [Flat.after, hp]
    refine hs.of_kept (t := s.commitStep A p .done) ⟨hkept.disk, hkept.copy, hkept.dirty⟩ ?_ ?_ ?_
    · simp [State.pending, State.commitStep, hempty]
    · simp [State.pinned, State.commitStep, hempty]
    · intro q pc' hq
      simp [hnone] at hq

/-! ## The steps of the other processes -/

/-- A step `s → t` of the cache that the array does not see, with the log's state unchanged. -/
theorem FlatInv.same (hs : FlatInv A s f) (hsame : SameCtl s t) (hkept : Kept A s f t)
    (hclean : ∀ p pc, s.pc p = some pc → Clean s f p pc → Clean t f p pc) : FlatInv A t f := by
  have hrunning : t.running = s.running := by simp only [State.running, hsame.pc]
  refine hs.of_kept hkept ?_ ?_ ?_
  · simp only [State.pending, State.installed, hrunning, hsame.lh]
  · simp only [State.pinned, State.unpinned, hrunning, hsame.lh]
  · intro p pc hp
    rw [hsame.pc] at hp
    exact hclean p pc hp (hs.clean p pc hp)

theorem Clean.congr (h : Clean s f p pc)
    (hthread : t.bio.thread p = s.bio.thread p) : Clean t f p pc := by
  refine ⟨h.1, ?_⟩
  rw [hthread]
  exact h.2

/-- A buffer that `bread` is about to return is as it was logged: nobody holds it. -/
theorem FlatInv.fresh_of_filling (hcore : Core A s) (hs : FlatInv A s f)
    (hio : (s.bio.thread p).io = some (.fill dev n b)) :
    f.dirty b = false := by
  by_contra hdirty
  rcases hs.dirty b (by simpa using hdirty) with ⟨q, m, hheld, _⟩
  have hbio := hcore.base.bio
  have hp : (s.bio.buf b).lock = some p := (hbio.holder b p).2 (.inr ⟨dev, n, hio⟩)
  rw [hbio.lock_of_held hheld.1] at hp
  have hqp : q = p := by simpa using hp
  exact hbio.filling p dev n b hio (hqp ▸ hheld.1)

/-- While a `bread` of the process in `commit` has not returned it is not in `brelse`. -/
theorem io_ne_drop (h : PcInv A s p pc) (hawaits : pc.awaits = true)
    (b : BufId) : (s.bio.thread p).io ≠ some (.drop b) := by
  intro hio
  cases pc with
  | gotLog ph tail =>
    have hwait := h.2.2
    simp [Await, hio] at hwait
  | gotHome ph tail l =>
    have hwait := h.2.2.2
    simp [Await, hio] at hwait
  | gotHead last =>
    have hwait := h.2
    simp [Await, hio] at hwait
  | check | loop _ _ | unpin _ _ _ | rel _ _ _ _ | rel2 _ _ _ | head _ | relHead _ _ | clear
  | done => simp [Pc.awaits] at hawaits

theorem flatInv_logWrite (hcore : Core A s) (hs : FlatInv A s f)
    (hop : s.op p = true) (hb : b ∈ (s.bio.thread p).held) (hhome : Home A s b)
    (hpanic : (s.logWrite A b).panic = none) : FlatInv A (s.logWrite A b) (f.logWrite s b) := by
  have hnone := (hcore.ctl.no_commit hop).2
  have hbio := hcore.base.bio
  rcases logWrite_fields hpanic with ⟨hsame, hlh, hpin⟩
  have hpc : ∀ q, (s.logWrite A b).pc q = none := hsame ▸ hnone
  have hcont : (s.logWrite A b).bio.contents = s.bio.contents := by
    rw [hpin]
    split
    · rfl
    · exact s.bio.contents_setRefcnt b _
  have hheld : ∀ q, (s.logWrite A b).bio.thread q = s.bio.thread q := by
    intro q
    rw [hpin]
    split <;> rfl
  have hid := ident_of_contents_eq hcont
  -- Without a commit every logged block is pinned and pending.
  have hpending : (s.logWrite A b).pending = (s.logWrite A b).lh.block := by
    rw [State.pending, installed_of_none hpc, List.drop_zero]
  have hpinned : (s.logWrite A b).pinned = (s.logWrite A b).lh.block := by
    rw [State.pinned, unpinned_of_none hpc, List.drop_zero]
  have hpending' : s.pending = s.lh.block := by
    rw [State.pending, installed_of_none hnone, List.drop_zero]
  have hpinned' : s.pinned = s.lh.block := by
    rw [State.pinned, unpinned_of_none hnone, List.drop_zero]
  have hmem : (s.bio.buf b).blockno ∈ (s.logWrite A b).lh.block := by
    rw [hlh]
    split
    · assumption
    · simp
  refine ⟨?_, ?_, ?_, ?_, ?_⟩
  · intro n hn hnot
    rw [hpending] at hnot
    have hne : n ≠ (s.bio.buf b).blockno := fun h => hnot (h ▸ hmem)
    have hold : n ∉ s.pending := by
      rw [hpending']
      intro h
      apply hnot
      rw [hlh]
      split
      · exact h
      · exact List.mem_append_left _ h
    have hdisk : (s.logWrite A b).bio.disk = s.bio.disk := congrArg Contents.disk hcont
    simp only [Flat.logWrite, hdisk, update_of_ne hne]
    exact hs.disk n hn hold
  · intro c n hc hn hfresh
    rw [hcont] at hc
    simp only [Flat.logWrite] at hfresh ⊢
    rw [(hid c).2.2]
    by_cases hcb : c = b
    · subst hcb
      have hno : (s.bio.buf c).blockno = n := hc.2.1
      rw [hno, update_self]
    · have hne : n ≠ (s.bio.buf b).blockno := by
        intro h
        exact hcb (hbio.unique c b hc.1 hhome.1 (hc.2.1.trans h))
      rw [update_of_ne hcb] at hfresh
      rw [update_of_ne hne]
      exact hs.cache c n hc hn hfresh
  · intro c hc
    have hcb : c ≠ b := by
      rintro rfl
      simp [Flat.logWrite] at hc
    simp only [Flat.logWrite, update_of_ne hcb] at hc
    rcases hs.dirty c hc with ⟨q, n, ⟨hq, hdev, hno⟩, hn⟩
    exact ⟨q, n, ⟨by rwa [hheld q], (hid c).1.trans hdev, (hid c).2.1.trans hno⟩, hn⟩
  · intro q pc hq
    simp [hpc] at hq
  · intro n
    have hold := hs.pins n
    rw [hpinned'] at hold
    rw [hpinned, hlh]
    simp only [Flat.logWrite]
    split
    · exact hold
    · rename_i hnew
      rw [List.count_append, List.count_singleton]
      by_cases hn : n = (s.bio.buf b).blockno
      · subst hn
        rw [update_self]
        simp only [beq_self_eq_true, if_true]
        omega
      · have hne : ((s.bio.buf b).blockno == n) = false := by simpa using Ne.symm hn
        rw [update_of_ne hn]
        simp only [hne, Bool.false_eq_true, if_false]
        omega

theorem flatInv_store (hcore : Core A s) (hs : FlatInv A s f)
    {data : Block} (hop : s.op p = true) (hb : b ∈ (s.bio.thread p).held) (hhome : Home A s b) :
    FlatInv A { s with bio := s.bio.store b data } { f with dirty := update f.dirty b true } := by
  have hnone := (hcore.ctl.no_commit hop).2
  have hid := s.bio.store_ident b data
  have hholds : ∀ q c n, Holds s q c n → Holds { s with bio := s.bio.store b data } q c n := by
    rintro q c n ⟨hc, hdev, hno⟩
    exact ⟨hc, (hid c).1.trans hdev, (hid c).2.trans hno⟩
  refine ⟨hs.disk, ?_, ?_, ?_, hs.pins⟩
  · intro c n hc hn hfresh
    have hcb : c ≠ b := by
      rintro rfl
      simp at hfresh
    simp only [update_of_ne hcb] at hfresh
    have hbuf : (s.bio.store b data).buf c = s.bio.buf c := update_of_ne hcb _ _
    simp only [hbuf]
    refine hs.cache c n ?_ hn hfresh
    rw [Bio.State.contents_store] at hc
    exact (s.bio.contents.copy_store_of b c data n).1 hc
  · intro c hc
    by_cases hcb : c = b
    · subst hcb
      exact ⟨p, _, hholds p c _ ⟨hb, hhome.1, rfl⟩, hhome.2⟩
    · simp only [update_of_ne hcb] at hc
      rcases hs.dirty c hc with ⟨q, n, hheld, hn⟩
      exact ⟨q, n, hholds q c n hheld, hn⟩
  · intro q pc hq
    simp [hnone] at hq

/-- A step of a process outside `commit` that changes only its own thread. -/
theorem FlatInv.bystep {q : Slot} (hs : FlatInv A s f)
    (hq : s.pc q = none) (hsame : SameCtl s t) (hkept : Kept A s f t)
    (hthread : ∀ p, p ≠ q → t.bio.thread p = s.bio.thread p) : FlatInv A t f := by
  refine hs.same hsame hkept ?_
  intro p pc hp hclean
  have hpq : p ≠ q := by
    rintro rfl
    rw [hq] at hp
    cases hp
  exact hclean.congr (hthread p hpq)

/-- A step of process `q` in a call of `bio.c`, perhaps on behalf of `commit`. -/
theorem FlatInv.served {q : Slot} (hs : FlatInv A s f) (hsame : SameCtl s t)
    (hkept : Kept A s f t) (hthread : ∀ p, p ≠ q → t.bio.thread p = s.bio.thread p)
    (hret : ∀ pc, s.pc q = some pc → pc.awaits = true → (t.bio.thread q).io = none →
      f.dirty (t.bio.thread q).ret = false) : FlatInv A t f := by
  refine hs.same hsame hkept ?_
  intro p pc hp hclean
  by_cases hpq : p = q
  · subst hpq
    exact ⟨hclean.1, hret pc hp⟩
  · exact hclean.congr (hthread p hpq)

theorem FlatInv.of_bio_eq (hs : FlatInv A s f) (hbio : t.bio = s.bio)
    (hpending : t.pending = s.pending) (hpinned : t.pinned = s.pinned)
    (hclean : ∀ p pc, t.pc p = some pc → Clean s f p pc) : FlatInv A t f := by
  refine hs.of_kept (.of_contents_eq (by rw [hbio]) ?_) hpending hpinned ?_
  · intro b p n _ h
    unfold Holds
    rwa [hbio]
  · intro p pc hp
    exact (hclean p pc hp).congr (by rw [hbio])

theorem flatInv_step (hcore : Core A s) (hs : FlatInv A s f)
    (hok : FlatOk A (s, f) a) (hstep : step A s a = some t) (hpanic : t.panic = none) :
    FlatInv A t (Flat.after s a f) := by
  have hsame : ∀ bio, SameCtl s { s with bio := bio } := fun bio => ⟨rfl, rfl, rfl, rfl, rfl⟩
  cases steps_of_step hstep with
  | beginOp _ =>
    rcases beginOp_fields s _ with ⟨hbio, hlh, hpc, _⟩
    exact hs.of_bio_eq hbio (by simp only [State.pending, State.installed, State.running, hpc, hlh])
      (by simp only [State.pinned, State.unpinned, State.running, hpc, hlh])
      fun q pc hq => hs.clean q pc (hpc ▸ hq)
  | endOp _ =>
    have hnone := (hcore.ctl.no_commit hok.1).2
    have hctl := hcore.ctl.endOp hok.1
    rcases endOp_fields hcore.ctl hok.1 with ⟨hbio, hlh, _, hpc | hcheck⟩
    · exact hs.of_bio_eq hbio
        (by simp only [State.pending, State.installed, State.running, hpc, hlh])
        (by simp only [State.pinned, State.unpinned, State.running, hpc, hlh])
        fun q pc hq => hs.clean q pc (hpc ▸ hq)
    · refine hs.of_bio_eq hbio ?_ ?_ ?_
      · rw [State.pending, State.pending, installed_of_pc hctl hcheck, installed_of_none hnone, hlh]
        rfl
      · rw [State.pinned, State.pinned, unpinned_of_pc hctl hcheck, unpinned_of_none hnone, hlh]
        rfl
      · intro q pc hq
        rcases hctl.same_pc hcheck hq with ⟨rfl, rfl⟩
        exact ⟨by simp [Pc.bufs], by simp [Pc.awaits]⟩
  | logWrite _ => exact flatInv_logWrite hcore hs hok.1.1 hok.1.2.1 hok.1.2.2 hpanic
  | bread hidle =>
    have hthread := (hcore.base.bread hidle.2.2 hpanic).2.2.2.1
    exact hs.bystep hidle.2.1 (.bread ..) (.bread hcore.base f hidle.2.2 hpanic) hthread
  | store _ => exact flatInv_store hcore hs hok.1.1 hok.1.2.1 hok.1.2.2
  | brelse hidle =>
    have hthread := (hcore.base.brelse hidle.2.2 hok.1).2.2.2
    exact hs.bystep hidle.2.1 (.brelse ..) (.brelse hcore.base hidle.2.2 hok.1 hok.2) hthread
  | acquiresleep _ hbio =>
    have hserved := Served.acquiresleep hcore.base hbio
    have hcont := Bio.State.contents_acquiresleep hbio
    rcases Bio.State.acquiresleep_eq_some hbio with ⟨dev, n, b, _, _, rfl⟩
    refine hs.served (hsame _) (.of_contents_eq hcont fun b q n _ => hserved.holds q b n)
      (fun q hq => update_of_ne hq _ _) ?_
    intro pc _ _ hio
    simp [Bio.State.setThread] at hio
  | fill _ hbio =>
    have hkept := Kept.fill hcore.base hs hbio
    rcases Bio.State.fill_eq_some hbio with ⟨dev, n, b, hio, rfl⟩
    refine hs.served (hsame _) hkept (fun q hq => update_of_ne hq _ _) ?_
    intro pc _ _ _
    simpa [Bio.State.setThread] using hs.fresh_of_filling hcore hio
  | @drop p _ _ hbio =>
    have hserved := Served.drop hcore.base hbio
    have hcont := Bio.State.contents_drop hbio
    rcases Bio.State.drop_eq_some hbio with ⟨b, u, hio, rfl, ht⟩
    refine hs.served (q := p) (hsame _)
      (.of_contents_eq hcont fun b q n _ => hserved.holds q b n) ?_ ?_
    · intro q hq
      rcases ht with rfl | rfl <;> exact update_of_ne hq _ _
    · intro pc hpc hawaits
      exact absurd hio (io_ne_drop (hcore.pcs p pc hpc) hawaits b)
  | commit _ hio hpc => exact flatInv_commitStep hcore hs hpc hio hpanic

/-! ## Readers get what was logged last -/

theorem safe_flat {s₀ : State} (h₀ : Started s₀)
    (hs : Reaches (withHistory (step A) Flat.after) (FlatOk A) (s₀, .start s₀.bio.disk) (s, f)) :
    Safe A s ∧ (s.panic = none → FlatInv A s f) := by
  refine hs.invariant (P := fun x => Safe A x.1 ∧ (x.1.panic = none → FlatInv A x.1 x.2))
    ⟨safe_of_started A h₀, fun _ => flatInv_of_started h₀⟩ ?_
  rintro ⟨u, g⟩ a ⟨t, g'⟩ ⟨hu, hg⟩ hok hstep
  rcases Option.map_eq_some_iff.1 hstep with ⟨t', ht, heq⟩
  cases heq
  have hpanic := panic_none_of_step ht
  refine ⟨safe_step A u a t hu hok.1 ht, fun hnew => ?_⟩
  exact flatInv_step (hu.core hpanic) (hg hpanic) hok ht hnew

/-- The buffer stands for the same block in both states. -/
def SameBlock (s t : State) (b : BufId) : Prop :=
  (t.bio.buf b).dev = (s.bio.buf b).dev ∧ (t.bio.buf b).blockno = (s.bio.buf b).blockno

theorem sameBlock_of_contents_eq (h : t.bio.contents = s.bio.contents) (b : BufId) :
    SameBlock s t b :=
  ⟨(ident_of_contents_eq h b).1, (ident_of_contents_eq h b).2.1⟩

/-- `bget` recycles only buffers that nobody refers to. -/
theorem sameBlock_bread (hb : (s.bio.buf b).refcnt ≠ 0) : SameBlock s (s.bread p dev n) b := by
  unfold State.bread
  cases hbio : s.bio.bget p dev n with
  | none => exact ⟨rfl, rfl⟩
  | some bio =>
    rcases Bio.State.bget_eq_some hbio with ⟨c, x, rfl, ⟨_, rfl⟩ | ⟨_, hfree, rfl⟩⟩
    · exact sameBlock_of_contents_eq (t := { s with bio := _ }) (s.bio.contents_setRefcnt c _) b
    · have hbc : b ≠ c := by
        rintro rfl
        exact hb hfree
      simp [SameBlock, Bio.State.setThread, Bio.State.setBuf, update_of_ne hbc]

theorem sameBlock_brelse (p : Slot) (b c : BufId) : SameBlock s (s.brelse p c) b := by
  unfold State.brelse
  split
  · exact sameBlock_of_contents_eq (t := { s with bio := _ }) (s.bio.contents_releasesleep p c) b
  · exact ⟨rfl, rfl⟩

theorem sameBlock_store (b c : BufId) (data : Block) :
    SameBlock s { s with bio := s.bio.store c data } b := by
  by_cases hbc : b = c
  · subst hbc
    simp [SameBlock, Bio.State.store, Bio.State.setBuf]
  · simp [SameBlock, Bio.State.store, Bio.State.setBuf, update_of_ne hbc]

theorem sameBlock_put (p : Slot) (b c : BufId) (data : Block) : SameBlock s (s.put p c data) b := by
  have hstore := sameBlock_store (s := s) b c data
  unfold State.put State.bwrite
  split <;> exact hstore

theorem sameBlock_commitStep (hb : (s.bio.buf b).refcnt ≠ 0) :
    SameBlock s (s.commitStep A p pc) b := by
  have hself : SameBlock s s b := ⟨rfl, rfl⟩
  cases pc with
  | check =>
    simp only [State.commitStep]
    split <;> exact hself
  | loop ph tail =>
    simp only [State.commitStep]
    split
    · exact sameBlock_bread hb
    · cases ph <;> exact hself
  | gotLog ph tail => exact sameBlock_bread hb
  | gotHome ph tail l => cases ph <;> exact sameBlock_put p b _ _
  | unpin tail l h =>
    exact sameBlock_of_contents_eq (t := { s with bio := _ }) (s.bio.contents_setRefcnt h _) b
  | rel ph tail a c => exact sameBlock_brelse p b a
  | rel2 ph tail c => exact sameBlock_brelse p b c
  | head last => exact sameBlock_bread hb
  | gotHead last => exact sameBlock_put p b _ _
  | relHead last c => exact sameBlock_brelse p b c
  | clear => exact hself
  | done => exact hself

/-- A buffer that somebody refers to keeps its block. -/
theorem sameBlock_step (hstep : step A s a = some t)
    (hb : (s.bio.buf b).refcnt ≠ 0) : SameBlock s t b := by
  have hself : SameBlock s s b := ⟨rfl, rfl⟩
  cases steps_of_step hstep with
  | @beginOp p _ =>
    have hbio := (beginOp_fields s p).1
    exact sameBlock_of_contents_eq (by rw [hbio]) b
  | @endOp p _ =>
    unfold State.endOp
    dsimp only
    split
    · exact hself
    · split <;> exact hself
  | @logWrite p c _ =>
    unfold State.logWrite
    split
    · exact hself
    · split
      · exact hself
      · split
        · exact hself
        · exact sameBlock_of_contents_eq (t := { s with bio := _, lh := _ })
            (s.bio.contents_setRefcnt c _) b
  | bread _ => exact sameBlock_bread hb
  | store _ => exact sameBlock_store b _ _
  | brelse _ => exact sameBlock_brelse _ b _
  | acquiresleep _ hbio =>
    exact sameBlock_of_contents_eq (Bio.State.contents_acquiresleep hbio) b
  | fill _ hbio =>
    rcases Bio.State.fill_eq_some hbio with ⟨dev, n, c, _, rfl⟩
    by_cases hbc : b = c
    · subst hbc
      simp [SameBlock, Bio.State.setThread, Bio.State.setBuf, Bio.State.filled_fields]
    · simp [SameBlock, Bio.State.setThread, Bio.State.setBuf, update_of_ne hbc]
  | drop _ hbio => exact sameBlock_of_contents_eq (Bio.State.contents_drop hbio) b
  | commit _ _ _ => exact sameBlock_commitStep hb

/-- A buffer whose block is still to be installed is pinned, so it is not recycled. -/
theorem sameBlock_of_pending (hcore : Core A s)
    (hstep : step A s a = some t) (hdev : (s.bio.buf b).dev = ROOTDEV)
    (hmem : (s.bio.buf b).blockno ∈ s.pending) : SameBlock s t b := by
  refine sameBlock_step hstep ?_
  intro hfree
  exact hcore.base.not_pinned hfree hdev (pinned_of_pending hmem)

/-- In every run in which callers change and log home blocks of the root device inside operations,
and log a changed buffer before they release it: `bread` of a home block returns the data logged
last for it, or the initial data; a buffer whose block is in `log.lh` keeps its block until
`install_trans` has written it home; and after a commit every `bpin` has been undone by one
`bunpin`, so that a buffer's reference count is the number of calls that hold it, wait for it or
are giving it back. -/
theorem bread_returns_logged {s₀ : State} {f : Flat} (h₀ : Started s₀)
    (hs : Reaches (withHistory (step A) Flat.after) (FlatOk A) (s₀, .start s₀.bio.disk) (s, f)) :
    (∀ p b n t, (s.bio.thread p).io = some (.fill ROOTDEV n b) → ¬ A.Mem n →
      step A s (.fill p) = some t →
        b ∈ (t.bio.thread p).held ∧ (t.bio.buf b).blockno = n ∧ (t.bio.buf b).data = f.spec n) ∧
      (∀ a t b, step A s a = some t → (s.bio.buf b).dev = ROOTDEV →
        (s.bio.buf b).blockno ∈ s.pending → SameBlock s t b) ∧
      (s.panic = none → (∀ p, s.pc p = some .done → s.lh.block = []) ∧
        (s.lh.block = [] → (∀ n, f.bpins n = f.bunpins n) ∧
          ∀ b, (s.bio.buf b).refcnt = s.bio.users b)) := by
  rcases safe_flat h₀ hs with ⟨hsafe, hflat⟩
  refine ⟨?_, ?_, ?_⟩
  · intro p b n t hio hn hstep
    have hpanic := panic_none_of_step hstep
    have hcore := hsafe.core hpanic
    have hfresh := (hflat hpanic).fresh_of_filling hcore hio
    rcases hcore.base.bio.request p ROOTDEV n b (.inr hio) with ⟨hdev, hno⟩
    cases steps_of_step hstep with
    | fill _ hbio =>
      have hkept := Kept.fill hcore.base (hflat hpanic) hbio
      rcases Bio.State.fill_eq_some hbio with ⟨dev, m, c, hio', rfl⟩
      rcases (by simpa [hio] using hio' : ROOTDEV = dev ∧ n = m ∧ b = c) with ⟨rfl, rfl, rfl⟩
      rcases s.bio.filled_fields b with ⟨hvalid, hdev', hno', _, _⟩
      -- The copy the call returns, as part of the new contents.
      have hof : (((s.bio.setBuf b (s.bio.filled b)).setThread p
          { held := b :: (s.bio.thread p).held, io := none, ret := b }).contents.copy b).Of n := by
        simp [Copy.Of, Bio.State.contents, Bio.State.setThread, Bio.State.setBuf, hvalid, hdev',
          hno', hdev, hno]
      refine ⟨by simp [Bio.State.setThread], ?_, ?_⟩
      · simp [Bio.State.setThread, Bio.State.setBuf, hno', hno]
      · rcases hkept.copy b n hof hn with ⟨hold, hdata⟩ | hdata
        · rw [hdata]
          exact (hflat hpanic).cache b n hold hn hfresh
        · exact hdata
  · intro a t b hstep
    exact sameBlock_of_pending (hsafe.core (panic_none_of_step hstep)) hstep
  · intro hpanic
    have hcore := hsafe.core hpanic
    refine ⟨fun p hp => hcore.pcs p _ hp, ?_⟩
    intro hempty
    have hpinned : s.pinned = [] := by simp [State.pinned, hempty]
    refine ⟨?_, ?_⟩
    · intro n
      simpa [hpinned] using (hflat hpanic).pins n
    · intro b
      have hpins : s.pins b = 0 := by simp [State.pins, hpinned]
      have hcount := hcore.base.bio.count b
      omega

/-- After the commit process 0 reads block 100 again. -/
theorem bread_returns_logged_after_commit :
    ∃ x t, runIf (withHistory (step .mkfs) Flat.after) (FlatOk .mkfs)
        (.boot fun _ _ => 0, .start fun _ _ => 0)
        (commitActs ++ [.commit 0, .bread 0 ROOTDEV 100, .acquiresleep 0]) = some x ∧
      step .mkfs x.1 (.fill 0) = some t ∧ (t.bio.buf 0).data = x.2.spec 100 ∧
      x.2.spec 100 0 = 7 := by
  have hrun : (runIf (withHistory (step .mkfs) Flat.after) (FlatOk .mkfs)
      (.boot fun _ _ => 0, .start fun _ _ => 0)
      (commitActs ++ [.commit 0, .bread 0 ROOTDEV 100, .acquiresleep 0])).any fun x =>
        decide ((x.1.bio.thread 0).io = some (.fill ROOTDEV 100 0) ∧
          (step .mkfs x.1 (.fill 0)).isSome = true ∧ x.2.spec 100 0 = 7) := by
    decide +kernel
  rcases exists_of_any hrun with ⟨x, hx, hio, hstep, hspec⟩
  rcases Option.isSome_iff_exists.1 hstep with ⟨t, ht⟩
  have hlogged := (bread_returns_logged (started_boot _) (Reaches.of_runIf hx)).1 0 0 100 t hio
    (by decide) ht
  exact ⟨x, t, hx, ht, hlogged.2.2, hspec⟩

/-- A block of the log area is written by `write_log` and never passed to `log_write`: `bread`
returns the copy that the commit has put there, not the initial data. -/
theorem bread_of_log_block : ∃ x, runIf (withHistory (step .mkfs) Flat.after) (FlatOk .mkfs)
        (.boot fun _ _ => 0, .start fun _ _ => 0)
        (commitActs ++ [.commit 0, .bread 0 ROOTDEV 3, .acquiresleep 0, .fill 0]) = some x ∧
      x.1.panic = none ∧ (x.1.bio.thread 0).ret ∈ (x.1.bio.thread 0).held ∧
      (x.1.bio.buf (x.1.bio.thread 0).ret).dev = ROOTDEV ∧
      (x.1.bio.buf (x.1.bio.thread 0).ret).blockno = 3 ∧
      (x.1.bio.buf (x.1.bio.thread 0).ret).data ≠ x.2.spec 3 := by
  have hrun : (runIf (withHistory (step .mkfs) Flat.after) (FlatOk .mkfs)
      (.boot fun _ _ => 0, .start fun _ _ => 0)
      (commitActs ++ [.commit 0, .bread 0 ROOTDEV 3, .acquiresleep 0, .fill 0])).any fun x =>
        decide (x.1.panic = none ∧ (x.1.bio.thread 0).ret ∈ (x.1.bio.thread 0).held ∧
          (x.1.bio.buf (x.1.bio.thread 0).ret).dev = ROOTDEV ∧
          (x.1.bio.buf (x.1.bio.thread 0).ret).blockno = 3 ∧
          (x.1.bio.buf (x.1.bio.thread 0).ret).data 0 ≠ x.2.spec 3 0) := by
    decide +kernel
  rcases exists_of_any hrun with ⟨x, hx, hpanic, hheld, hdev, hno, hdata⟩
  exact ⟨x, hx, hpanic, hheld, hdev, hno, fun heq => hdata (congrFun heq 0)⟩

end Xv6.Group
