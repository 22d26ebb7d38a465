import Xv6.Log.GroupInv

/-!
# GroupStep — the invariant along a run

The steps of `commit` write one block each; the other steps are seen by the process in `commit` only
as buffers it waits for.  `core_step` puts the cases together.
-/

namespace Xv6.Group

open Lib Log Bio
open Function (update update_eq_self update_idem update_of_ne update_self)

variable {A : LogArea} {s : State}

/-! ## Writing a block -/

variable {p : Slot} {b l : BufId} {n : BlockNo} {t : State} {pc : Pc} {tail : Nat} {data : Block}
    {a : Act}

theorem Base.copy_of_holds (hs : Base A s) (h : Holds s p b n) : (s.bio.contents.copy b).Of n :=
  ⟨h.2.1, h.2.2, hs.bio.valid p b h.1⟩

theorem Base.view_of_holds (hs : Base A s) (h : Holds s p b n) : s.view n = (s.bio.buf b).data :=
  Contents.view_of_copy hs.bio.unique (hs.copy_of_holds h)

/-- The effect of storing `data` to a held buffer and writing it. -/
theorem put_of_holds (hs : Base A s) (h : Holds s p b n) (data : Block) :
    s.put p b data = { s with bio := (s.bio.store b data).bwrite b } := by
  have hlock := hs.bio.lock_of_held h.1
  simp [State.put, State.bwrite, Bio.State.holdingsleep, Bio.State.store, Bio.State.setBuf, hlock]

theorem disk_put (hs : Base A s) (h : Holds s p b n)
    (data : Block) : (s.put p b data).bio.disk = update s.bio.disk n data := by
  rw [put_of_holds hs h]
  have hno := h.2.2
  simp [Bio.State.bwrite, Bio.State.store, Bio.State.setBuf, hno]

theorem view_put (hs : Base A s) (h : Holds s p b n) (data : Block) (m : BlockNo) :
    (s.put p b data).view m = if m = n then data else s.view m := by
  rw [put_of_holds hs h]
  have huniq : (s.bio.contents.store b data).Unique := by
    rw [← Bio.State.contents_store]
    exact (hs.bio.store b data).unique
  have hof : ((s.bio.contents.store b data).copy b).Of n :=
    (s.bio.contents.copy_store_of b b data n).2 (hs.copy_of_holds h)
  simp only [State.view, Bio.State.contents_bwrite, Bio.State.contents_store]
  rw [Contents.view_write huniq hof]
  split
  · rename_i hm
    rw [hm]
    exact Contents.view_store huniq (hs.copy_of_holds h)
  · rename_i hm
    refine Contents.view_store_of_not huniq ?_
    intro hof'
    exact hm (hof'.2.1.symm.trans h.2.2)

theorem ident_put (hs : Base A s) (h : Holds s p b n) (data : Block) (c : BufId) :
    ((s.put p b data).bio.buf c).dev = (s.bio.buf c).dev ∧
      ((s.put p b data).bio.buf c).blockno = (s.bio.buf c).blockno ∧
        ((s.put p b data).bio.buf c).valid = (s.bio.buf c).valid := by
  rw [put_of_holds hs h]
  by_cases hc : c = b
  · subst hc
    simp [Bio.State.bwrite, Bio.State.store, Bio.State.setBuf]
  · simp [Bio.State.bwrite, Bio.State.store, Bio.State.setBuf, update_of_ne hc]

theorem Holds.put (hs : Base A s) (h : Holds s p b n)
    (data : Block) {q : Slot} {c : BufId} {m : BlockNo} (hc : Holds s q c m) :
    Holds (s.put p b data) q c m := by
  have hid := ident_put hs h data c
  refine ⟨?_, hid.1.trans hc.2.1, hid.2.1.trans hc.2.2⟩
  rw [put_of_holds hs h]
  exact hc.1

theorem Base.put (hs : Base A s) (h : Holds s p b n) (data : Block) : Base A (s.put p b data) := by
  have hid := ident_put hs h data
  have hlh : (s.put p b data).lh = s.lh := by rw [put_of_holds hs h]
  have hpinned : (s.put p b data).pinned = s.pinned := by rw [put_of_holds hs h]; rfl
  have hunpinned : (s.put p b data).unpinned = s.unpinned := by rw [put_of_holds hs h]; rfl
  have hpins : (s.put p b data).pins = s.pins := pins_congr hpinned
    fun c => ⟨(hid c).1, (hid c).2.1⟩
  have hof : ∀ c m, ((s.put p b data).bio.contents.copy c).Of m ↔ (s.bio.contents.copy c).Of m := by
    intro c m
    simp only [Copy.Of, Bio.State.contents, hid]
  refine ⟨by rw [hlh]; exact hs.nodup, by rw [hlh]; exact hs.home, by rw [hlh]; exact hs.room,
    ?_, ?_, ?_, ?_⟩
  · rw [hpins, put_of_holds hs h]
    exact (hs.bio.store b data).bwrite b
  · simp only [hpinned, hof]
    exact hs.cached
  · intro c m hc hm
    have hinv : (s.put p b data).bio.Inv s.pins := by
      rw [put_of_holds hs h]
      exact (hs.bio.store b data).bwrite b
    have hview : ((s.put p b data).bio.buf c).data = (s.put p b data).view m :=
      (Contents.view_of_copy hinv.unique hc).symm
    rw [hview, view_put hs h, disk_put hs h]
    by_cases hmn : m = n
    · simp [hmn]
    · have hold := hs.area c m ((hof c m).1 hc) hm
      rw [if_neg hmn, update_of_ne hmn, ← hold]
      exact Contents.view_of_copy hs.bio.unique ((hof c m).1 hc)
  · intro j m hj hm
    rw [hlh] at hm
    rw [hunpinned] at hj
    have hmem := List.mem_of_getElem? hm
    rw [view_put hs h, disk_put hs h]
    by_cases hmn : m = n
    · simp [hmn]
    · rw [if_neg hmn, update_of_ne hmn]
      exact hs.settled j m hj hm

/-! ## The steps of `commit` -/

structure Core (A : LogArea) (s : State) : Prop where
  ctl : CtlInv s
  base : Base A s
  pcs : ∀ p pc, s.pc p = some pc → PcInv A s p pc

theorem Core.of_running (hctl : CtlInv t) (hbase : Base A t)
    (hp : t.pc p = some pc) (h : PcInv A t p pc) : Core A t := by
  refine ⟨hctl, hbase, ?_⟩
  intro q pc' hq
  rcases hctl.same_pc hp hq with ⟨rfl, rfl⟩
  exact h

/-- The data part sees of `commit` only how many blocks it has unpinned. -/
theorem Base.of_unpinned_eq (hs : Base A s) (hbio : t.bio = s.bio) (hlh : t.lh = s.lh)
    (hunpinned : t.unpinned = s.unpinned) : Base A t := by
  have hpinned : t.pinned = s.pinned := by
    simp only [State.pinned, hlh, hunpinned]
  have hpins : t.pins = s.pins := pins_congr hpinned fun b => by rw [hbio]; exact ⟨rfl, rfl⟩
  have hcalm : Calm s t := ⟨hlh, by rw [hbio], fun n _ => by simp [State.view, hbio]⟩
  refine ⟨by rw [hlh]; exact hs.nodup, by rw [hlh]; exact hs.home, by rw [hlh]; exact hs.room,
    ?_, ?_, ?_, ?_⟩
  · rw [hbio, hpins]
    exact hs.bio
  · rw [hbio, hpinned]
    exact hs.cached
  · rw [hbio]
    exact hs.area
  · rw [hunpinned]
    exact hcalm.installed hs.settled

/-- What `commit` knows is about the cache and the header. -/
theorem PcInv.congr (h : PcInv A s p pc) (hbio : t.bio = s.bio)
    (hlh : t.lh = s.lh) : PcInv A t p pc := by
  have hholds : ∀ b n, Holds s p b n → Holds t p b n := by
    intro b n hb
    unfold Holds
    rwa [hbio]
  refine h.mono ⟨hlh, by rw [hbio], fun n _ => by simp [State.view, hbio]⟩ hholds ?_
  intro n hn
  exact hn.congr (by rw [hbio]) hholds

/-- The process in `commit` moves on after a step `s → u` of the cache. -/
theorem Core.goto {u : State} {pc' : Pc} (hs : CtlInv s) (hp : s.pc p = some pc)
    (hsame : SameCtl s u) (hbase : Base A u)
    (hunpinned : pc'.unpinned s.lh.block.length = pc.unpinned s.lh.block.length)
    (h : PcInv A u p pc') : Core A (u.goto p pc') := by
  have hpc : (u.goto p pc').pc p = some pc' := update_self _ _ _
  have hup : u.pc p = some pc := by rw [hsame.pc, hp]
  have hctl : CtlInv (u.goto p pc') := (hs.same hsame).goto (by simp [hup]) pc'
  refine .of_running hctl (hbase.of_unpinned_eq rfl rfl ?_) hpc (h.congr rfl rfl)
  rw [unpinned_of_pc hctl hpc, unpinned_of_pc (hs.same hsame) hup]
  have hlh : (u.goto p pc').lh = s.lh := hsame.lh
  rw [hlh, hsame.lh, hunpinned]

/-- In the state after the step the entries of `log.lh` are home blocks with room in the log. -/
theorem Base.getD_mem (hs : Base A s) {j : Nat} (hj : j < s.lh.block.length) :
    s.lh.block[j]? = some (s.lh.block.getD j 0) ∧ ¬ A.Mem (s.lh.block.getD j 0) := by
  have hget : s.lh.block[j]? = some (s.lh.block.getD j 0) := by
    simp [hj]
  exact ⟨hget, hs.home _ (List.mem_of_getElem? hget)⟩

theorem Base.mem_block (hs : Base A s) {j : Nat} (hj : j < s.lh.block.length) :
    A.Mem (A.block (j + 1)) :=
  A.mem_block (hs.room j hj)

theorem await_of_none (hio : (s.bio.thread p).io = none)
    (h : Await s p n) : Holds s p (s.bio.thread p).ret n := by
  simpa [Await, hio] using h

theorem Logged.put (hs : Base A s)
    (hl : Holds s p l (A.block (tail + 1))) (htail : tail < s.lh.block.length)
    (hlog : s.Logged A tail) (hdata : data = s.view (s.lh.block.getD tail 0)) :
    (s.put p l data).Logged A (tail + 1) := by
  have hlh : (s.put p l data).lh = s.lh := (SameCtl.put ..).lh
  intro j n hj hn
  rw [hlh] at hn
  have hhome := hs.home n (List.mem_of_getElem? hn)
  have hne : n ≠ A.block (tail + 1) := fun h => hhome (h ▸ hs.mem_block htail)
  rw [view_put hs hl, disk_put hs hl, if_neg hne]
  by_cases hjt : j = tail
  · subst hjt
    rw [(hs.getD_mem htail).1] at hn
    rw [update_self, hdata, Option.some.inj hn]
  · have hjlt : j < s.lh.block.length := (List.getElem?_eq_some_iff.1 hn).1
    have hblock : A.block (j + 1) ≠ A.block (tail + 1) := by
      intro h
      have hinj := A.block_inj (hs.room j hjlt) (hs.room tail htail) h
      omega
    rw [update_of_ne hblock]
    exact hlog j n (by omega) hn

theorem Logged.put_head (hs : Base A s) {m : Nat}
    (hb : Holds s p b (A.block 0)) (hsize : 0 < A.size) (hm : m ≤ s.lh.block.length)
    (hlog : s.Logged A m) : (s.put p b data).Logged A m := by
  have hlh : (s.put p b data).lh = s.lh := (SameCtl.put ..).lh
  intro j n hj hn
  rw [hlh] at hn
  have hhome := hs.home n (List.mem_of_getElem? hn)
  have hne : n ≠ A.block 0 := fun h => hhome (h ▸ A.mem_block hsize)
  have hblock : A.block (j + 1) ≠ A.block 0 := by
    intro h
    have hinj := A.block_inj (hs.room j (by omega)) hsize h
    omega
  rw [view_put hs hb, disk_put hs hb, if_neg hne, update_of_ne hblock]
  exact hlog j n hj hn

/-- `install_trans` writes home what the cache has already. -/
theorem Installed.put (hs : Base A s) {h : BufId}
    (hl : Holds s p l (A.block (tail + 1))) (hh : Holds s p h (s.lh.block.getD tail 0))
    (htail : tail < s.lh.block.length) (hlog : s.Logged A s.lh.block.length)
    (hinst : s.Installed tail) :
    (∀ n, (s.put p h (s.bio.buf l).data).view n = s.view n) ∧
      (s.put p h (s.bio.buf l).data).Logged A s.lh.block.length ∧
      (s.put p h (s.bio.buf l).data).Installed (tail + 1) := by
  rcases hs.getD_mem htail with ⟨hget, hhome⟩
  have hlh : (s.put p h (s.bio.buf l).data).lh = s.lh := (SameCtl.put ..).lh
  -- The log block holds what `write_log` found in the cache.
  have hdata : (s.bio.buf l).data = s.view (s.lh.block.getD tail 0) := by
    rw [hlog tail _ htail hget]
    exact hs.area l _ (hs.copy_of_holds hl) (hs.mem_block htail)
  have hview : ∀ n, (s.put p h (s.bio.buf l).data).view n = s.view n := by
    intro n
    rw [view_put hs hh]
    split
    · rename_i hn
      rw [hn, hdata]
    · rfl
  refine ⟨hview, ?_, ?_⟩
  · intro j n hj hn
    rw [hlh] at hn
    have hne : A.block (j + 1) ≠ s.lh.block.getD tail 0 := fun heq =>
      hhome (heq ▸ hs.mem_block hj)
    rw [hview, disk_put hs hh, update_of_ne hne]
    exact hlog j n hj hn
  · intro j n hj hn
    rw [hlh] at hn
    rw [hview, disk_put hs hh]
    by_cases hne : n = s.lh.block.getD tail 0
    · rw [hne, update_self, hdata]
    · rw [update_of_ne hne]
      refine hinst j n ?_ hn
      have hjt : j ≠ tail := by
        rintro rfl
        rw [hget] at hn
        exact hne (Option.some.inj hn).symm
      omega

/-- One more pinned block means one more pin on the buffer that caches it. -/
theorem pins_insert {small big : State} (hu : small.bio.contents.Unique)
    (hdev : (small.bio.buf b).dev = ROOTDEV) (hno : (small.bio.buf b).blockno = n)
    (hid : ∀ c, (big.bio.buf c).dev = (small.bio.buf c).dev ∧
      (big.bio.buf c).blockno = (small.bio.buf c).blockno)
    (hmem : ∀ m, m ∈ big.pinned ↔ m = n ∨ m ∈ small.pinned) (hn : n ∉ small.pinned) :
    small.pins b = 0 ∧ big.pins = update small.pins b 1 := by
  refine ⟨by simp [State.pins, hno, hn], ?_⟩
  funext c
  by_cases hc : c = b
  · subst hc
    simp [State.pins, hid, hdev, hno, hmem]
  · -- No other buffer caches the block.
    have hother : ¬ ((small.bio.buf c).dev = ROOTDEV ∧ (small.bio.buf c).blockno = n) := fun h =>
      hc (hu c b h.1 hdev (h.2.trans hno.symm))
    rw [update_of_ne hc]
    simp only [State.pins, hid, hmem]
    by_cases hroot : (small.bio.buf c).dev = ROOTDEV
    · have hne : (small.bio.buf c).blockno ≠ n := fun h => hother ⟨hroot, h⟩
      simp only [hroot, hne, false_or]
    · simp only [hroot, false_and]

/-- A step that changes the pins of one buffer, and its count with them. -/
theorem Base.repin (hs : Base A s) {r : Int} {k : Nat}
    (hbio : t.bio = s.bio.setBuf b { s.bio.buf b with refcnt := r })
    (hpins : t.pins = update s.pins b k)
    (hr : r + s.pins b = (s.bio.buf b).refcnt + k) (hnodup : t.lh.block.Nodup)
    (hhome : ∀ n ∈ t.lh.block, ¬ A.Mem n)
    (hroom : ∀ j, j < t.lh.block.length → j + 1 < A.size)
    (hcached : ∀ n ∈ t.pinned, ∃ b, (s.bio.contents.copy b).Of n)
    (hsettled : t.Installed t.unpinned) : Base A t := by
  have hcont : t.bio.contents = s.bio.contents := by
    rw [hbio]
    exact s.bio.contents_setRefcnt b r
  have hid := ident_of_contents_eq hcont
  have hdisk : t.bio.disk = s.bio.disk := congrArg Contents.disk hcont
  refine ⟨hnodup, hhome, hroom, ?_, ?_, ?_, hsettled⟩
  · rw [hpins, hbio]
    exact hs.bio.setRefcnt hr
  · rw [hcont]
    exact hcached
  · simp only [hcont, hid, hdisk]
    exact hs.area

/-- `bunpin` gives up the pin of the entry that has just been installed. -/
theorem Core.unpin (hs : Core A s) {h : BufId} (hp : s.pc p = some (.unpin tail l h))
    (ht : t = { s with bio := s.bio.bunpin h }.goto p (.rel .installTrans tail l h)) :
    Core A t := by
  rcases hs.pcs p _ hp with ⟨htail, hprog, hinst, hl, hh⟩
  rcases hs.base.getD_mem htail with ⟨hget, hhome⟩
  have hbio : t.bio = s.bio.bunpin h := by rw [ht]; rfl
  have hlh : t.lh = s.lh := by rw [ht]; rfl
  have hpc : t.pc p = some (.rel .installTrans tail l h) := by
    rw [ht]
    exact update_self _ _ _
  have hcont : t.bio.contents = s.bio.contents := by
    rw [hbio]
    exact s.bio.contents_setRefcnt h _
  have hid := ident_of_contents_eq hcont
  have hcalm : Calm s t := ⟨hlh, congrArg Contents.disk hcont, fun n _ => by
    simp only [State.view, hcont]⟩
  have hsame : CtlInv { s with bio := s.bio.bunpin h } := hs.ctl.same ⟨rfl, rfl, rfl, rfl, rfl⟩
  have hctl : CtlInv t := ht ▸ hsame.goto (by simp [hp]) _
  have hunpinned : t.unpinned = tail + 1 := unpinned_of_pc hctl hpc
  have hnew : t.pinned = s.lh.block.drop (tail + 1) := by rw [State.pinned, hunpinned, hlh]
  have hold : s.pinned = s.lh.block.getD tail 0 :: t.pinned := by
    have hunpinned : s.unpinned = tail := unpinned_of_pc hs.ctl hp
    rw [hnew, State.pinned, hunpinned, List.drop_eq_getElem_cons htail]
    simp [htail]
  have hfresh : s.lh.block.getD tail 0 ∉ t.pinned := by
    have hnodup : s.pinned.Nodup := hs.base.nodup.sublist (List.drop_sublist _ _)
    rw [hold] at hnodup
    exact (List.nodup_cons.1 hnodup).1
  have huniq : t.bio.contents.Unique := by
    rw [hcont]
    exact hs.base.bio.unique
  rcases pins_insert huniq ((hid h).1.trans hh.2.1) ((hid h).2.1.trans hh.2.2)
    (fun c => ⟨(hid c).1.symm, (hid c).2.1.symm⟩) (by simp [hold]) hfresh with ⟨hzero, hpins⟩
  have hone : s.pins h = 1 := by simp [hpins]
  have hback : t.pins = update s.pins h 0 := by
    rw [hpins, update_idem, ← hzero, update_eq_self]
  have hbase : Base A t := by
    refine hs.base.repin hbio hback (by rw [hone]; simp) ?_ ?_ ?_ ?_ ?_
    · rw [hlh]
      exact hs.base.nodup
    · rw [hlh]
      exact hs.base.home
    · rw [hlh]
      exact hs.base.room
    · intro n hn
      exact hs.base.cached n (by rw [hold]; exact List.mem_cons_of_mem _ hn)
    · rw [hunpinned]
      exact hcalm.installed hinst
  have hholds : ∀ c n, Holds s p c n → Holds t p c n := by
    rintro c n ⟨hc, hdev, hno⟩
    exact ⟨by rw [hbio]; exact hc, (hid c).1.trans hdev, (hid c).2.1.trans hno⟩
  refine .of_running hctl hbase hpc ⟨by rwa [hlh], hcalm.progress hprog, ⟨_, hholds _ _ hl⟩,
    ⟨_, hholds _ _ hh⟩, ?_⟩
  rintro rfl
  exact hhome (hh.2.2 ▸ hl.2.2 ▸ hs.base.mem_block htail)

theorem Core.clear (hs : Core A s) (hp : s.pc p = some .clear) :
    Core A ({ s with lh := { block := [], fits := Nat.zero_le _ } }.goto p (.head true)) := by
  have hempty : CtlInv { s with lh := { block := [], fits := Nat.zero_le _ } } :=
    ⟨hs.ctl.count, hs.ctl.committing, hs.ctl.alone, hs.ctl.quiet⟩
  have hctl := hempty.goto (p := p) (by simp [hp]) (.head true)
  have hpinned : s.pinned = [] := by
    have hunpinned : s.unpinned = s.lh.block.length := unpinned_of_pc hs.ctl hp
    rw [State.pinned, hunpinned, List.drop_length]
  have hpins : ({ s with lh := { block := [], fits := Nat.zero_le _ } }.goto p (.head true)).pins =
      s.pins := by
    refine pins_congr ?_ fun b => ⟨rfl, rfl⟩
    rw [hpinned]
    exact List.drop_nil
  refine .of_running hctl ⟨?_, ?_, ?_, ?_, ?_, hs.base.area, ?_⟩ (update_self _ _ _)
    ⟨hs.pcs p _ hp, by simp [State.goto]⟩
  · simp [State.goto]
  · simp [State.goto]
  · simp [State.goto]
  · rw [hpins]
    exact hs.base.bio
  · simp [State.goto, State.pinned]
  · intro j n _ hn
    simp [State.goto] at hn

theorem Core.done (hs : Core A s) (hp : s.pc p = some .done) : Core A (s.commitStep A p .done) := by
  have hctl : CtlInv (s.commitStep A p .done) := hs.ctl.commitStep hp
  have hnone : ∀ q, (s.commitStep A p .done).pc q = none := by
    intro q
    by_contra hq
    have hrun := hctl.committing.2 ⟨q, hq⟩
    simp [State.commitStep] at hrun
  refine ⟨hctl, hs.base.of_unpinned_eq rfl rfl ?_, ?_⟩
  · rw [unpinned_of_none hnone, unpinned_of_pc hs.ctl hp]
    rfl
  · intro q pc hq
    rw [hnone q] at hq
    cases hq

theorem core_commitStep (hs : Core A s) (hp : s.pc p = some pc)
    (hio : (s.bio.thread p).io = none) (hpanic : (s.commitStep A p pc).panic = none) :
    Core A (s.commitStep A p pc) := by
  have hself : SameCtl s s := ⟨rfl, rfl, rfl, rfl, rfl⟩
  have hknown := hs.pcs p pc hp
  cases pc with
  | check =>
    simp only [State.commitStep]
    split
    · rename_i hpos
      refine .goto hs.ctl hp hself hs.base rfl ⟨Nat.zero_le _, ?_, ?_⟩
      · have hroom := hs.base.room 0 hpos
        omega
      · intro j n hj
        omega
    · rename_i hpos
      have hempty : s.lh.block = [] := List.length_eq_zero_iff.1 (by omega)
      exact .goto hs.ctl hp hself hs.base rfl hempty
  | loop ph tail =>
    rcases hknown with ⟨hle, hsize, hprog⟩
    simp only [State.commitStep] at hpanic ⊢
    split at hpanic
    · rename_i hlt
      rw [if_pos hlt]
      rcases hs.base.bread hio hpanic with ⟨hbase, hcalm, _, _, hawait⟩
      exact .goto hs.ctl hp (.bread ..) hbase (by cases ph <;> rfl)
        ⟨by rwa [hcalm.lh], hcalm.progress hprog, hawait rfl⟩
    · rename_i hlt
      rw [if_neg hlt]
      have hEq : tail = s.lh.block.length := by omega
      cases ph with
      | writeLog =>
        have hlog : s.Logged A s.lh.block.length := hEq ▸ hprog
        exact .goto hs.ctl hp hself hs.base rfl ⟨hsize, hlog⟩
      | installTrans => exact .goto hs.ctl hp hself hs.base hEq.symm hsize
  | gotLog ph tail =>
    rcases hknown with ⟨hlt, hprog, hwait⟩
    rcases hs.base.bread hio hpanic with ⟨hbase, hcalm, hholds, _, hawait⟩
    refine .goto hs.ctl hp (.bread ..) hbase (by cases ph <;> rfl)
      ⟨by rwa [hcalm.lh], hcalm.progress hprog, hholds _ _ _ (await_of_none hio hwait), ?_⟩
    rw [hcalm.lh]
    exact hawait rfl
  | gotHome ph tail l =>
    rcases hknown with ⟨hlt, hprog, hl, hwait⟩
    have hh := await_of_none hio hwait
    rcases hs.base.getD_mem hlt with ⟨hget, hhome⟩
    have hne : l ≠ (s.bio.thread p).ret := by
      intro heq
      exact hhome (hh.2.2 ▸ heq ▸ hl.2.2 ▸ hs.base.mem_block hlt)
    cases ph with
    | writeLog =>
      have hlh := (SameCtl.put s p l (s.bio.buf (s.bio.thread p).ret).data).lh
      refine .goto hs.ctl hp (.put ..) (hs.base.put hl _) rfl
        ⟨by rwa [hlh], ?_, ⟨_, .put hs.base hl _ hh⟩, ⟨_, .put hs.base hl _ hl⟩, hne.symm⟩
      exact Logged.put hs.base hl hlt hprog (hs.base.view_of_holds hh).symm
    | installTrans =>
      have hinst : s.Installed tail := by
        have hunpinned : s.unpinned = tail := unpinned_of_pc hs.ctl hp
        exact hunpinned ▸ hs.base.settled
      rcases Installed.put hs.base hl hh hlt hprog hinst with ⟨_, hlog', hinst'⟩
      have hlh := (SameCtl.put s p (s.bio.thread p).ret (s.bio.buf l).data).lh
      refine .goto hs.ctl hp (.put ..) (hs.base.put hh _) rfl
        ⟨by rwa [hlh], ?_, hinst', .put hs.base hh _ hl, ?_⟩
      · rw [← hlh] at hlog'
        exact hlog'
      · rw [hlh]
        exact .put hs.base hh _ hh
  | unpin tail l h => exact hs.unpin hp rfl
  | rel ph tail a b =>
    rcases hknown with ⟨hlt, hprog, ⟨n, ha⟩, ⟨m, hb⟩, hne⟩
    rcases hs.base.brelse hio ha.1 with ⟨hbase, hcalm, hholds, _⟩
    exact .goto hs.ctl hp (.brelse ..) hbase (by cases ph <;> rfl)
      ⟨by rwa [hcalm.lh], hcalm.progress hprog, m, hholds _ _ _ (.inr hne.symm) hb⟩
  | rel2 ph tail b =>
    rcases hknown with ⟨hlt, hprog, n, hb⟩
    rcases hs.base.brelse hio hb.1 with ⟨hbase, hcalm, _, _⟩
    have hroom := hs.base.room tail hlt
    refine .goto hs.ctl hp (.brelse ..) hbase (by cases ph <;> rfl)
      ⟨?_, by omega, hcalm.progress hprog⟩
    rw [hcalm.lh]
    exact hlt
  | head last =>
    rcases hs.base.bread hio hpanic with ⟨hbase, hcalm, _, _, hawait⟩
    exact .goto hs.ctl hp (.bread ..) hbase rfl ⟨hcalm.headOk hknown, hawait rfl⟩
  | gotHead last =>
    rcases hknown with ⟨⟨hsize, hhead⟩, hwait⟩
    have hb := await_of_none hio hwait
    have hlh := (SameCtl.put s p (s.bio.thread p).ret
      (setHead (s.bio.buf (s.bio.thread p).ret).data s.lh.block)).lh
    refine .goto hs.ctl hp (.put ..) (hs.base.put hb _) rfl ⟨⟨hsize, ?_⟩, ⟨_, .put hs.base hb _ hb⟩⟩
    cases last with
    | true => simpa [hlh] using hhead
    | false =>
      simp only [Bool.false_eq_true, if_false]
      rw [hlh]
      exact Logged.put_head hs.base hb hsize le_rfl hhead
  | relHead last b =>
    rcases hknown with ⟨hhead, n, hb⟩
    rcases hs.base.brelse hio hb.1 with ⟨hbase, hcalm, _, _⟩
    have hnew := hcalm.headOk hhead
    cases last with
    | true => exact .goto hs.ctl hp (.brelse ..) hbase rfl hnew.2
    | false =>
      exact .goto hs.ctl hp (.brelse ..) hbase rfl ⟨Nat.zero_le _, hnew.1, hnew.2⟩
  | clear => exact hs.clear hp
  | done => exact hs.done hp

/-! ## The steps of the other processes -/

theorem Core.of_no_commit (hctl : CtlInv t) (hbase : Base A t)
    (h : ∀ q, t.pc q = none) : Core A t := by
  refine ⟨hctl, hbase, ?_⟩
  intro q pc hq
  rw [h q] at hq
  cases hq

/-- A process outside `commit` makes a calm step that leaves the others' buffers alone. -/
theorem Core.bystep (hs : Core A s) {q : Slot} (hq : s.pc q = none)
    (hsame : SameCtl s t) (hbase : Base A t) (hcalm : Calm s t)
    (hholds : ∀ p b n, p ≠ q → Holds s p b n → Holds t p b n)
    (hthread : ∀ p, p ≠ q → t.bio.thread p = s.bio.thread p) : Core A t := by
  refine ⟨hs.ctl.same hsame, hbase, ?_⟩
  intro p pc hp
  rw [hsame.pc] at hp
  have hpq : p ≠ q := by
    rintro rfl
    rw [hq] at hp
    cases hp
  refine (hs.pcs p pc hp).mono hcalm (fun b n => hholds p b n hpq) ?_
  intro n hn
  exact hn.congr (hthread p hpq) fun b m => hholds p b m hpq

theorem Core.served (hs : Core A s) {bio : Bio.State} (h : Served A s { s with bio := bio }) :
    Core A { s with bio := bio } := by
  refine ⟨hs.ctl.same ⟨rfl, rfl, rfl, rfl, rfl⟩, h.base, ?_⟩
  intro p pc hp
  exact (hs.pcs p pc hp).mono h.calm (h.holds p) (h.await p)

theorem Core.store (hs : Core A s) (hop : s.op p = true)
    (hb : b ∈ (s.bio.thread p).held) (hhome : Home A s b) :
    Core A { s with bio := s.bio.store b data } := by
  have hnone := (hs.ctl.no_commit hop).2
  have hid := s.bio.store_ident b data
  have hof : ∀ c n, ((s.bio.store b data).contents.copy c).Of n ↔ (s.bio.contents.copy c).Of n := by
    intro c n
    rw [Bio.State.contents_store]
    exact s.bio.contents.copy_store_of b c data n
  have hpins : State.pins { s with bio := s.bio.store b data } = s.pins := pins_congr rfl hid
  have hunpinned : State.unpinned { s with bio := s.bio.store b data } = 0 :=
    unpinned_of_none hnone
  refine .of_no_commit (hs.ctl.same ⟨rfl, rfl, rfl, rfl, rfl⟩)
    ⟨hs.base.nodup, hs.base.home, hs.base.room, ?_, ?_, ?_, ?_⟩ hnone
  · rw [hpins]
    exact hs.base.bio.store b data
  · simp only [hof]
    exact hs.base.cached
  · intro c n hc hmem
    have hc' := (hof c n).1 hc
    have hcb : c ≠ b := by
      rintro rfl
      exact hhome.2 (by have hno : (s.bio.buf c).blockno = n := hc'.2.1; rwa [hno])
    have hbuf : (s.bio.store b data).buf c = s.bio.buf c := update_of_ne hcb _ _
    simp only [hbuf]
    exact hs.base.area c n hc' hmem
  · rw [hunpinned]
    intro j n hj
    omega

theorem logWrite_fields (hpanic : (s.logWrite A b).panic = none) :
    (s.logWrite A b).pc = s.pc ∧
    (s.logWrite A b).lh.block = (if (s.bio.buf b).blockno ∈ s.lh.block then s.lh.block
      else s.lh.block ++ [(s.bio.buf b).blockno]) ∧
    (s.logWrite A b).bio = if (s.bio.buf b).blockno ∈ s.lh.block then s.bio else s.bio.bpin b := by
  unfold State.logWrite at hpanic ⊢
  split at hpanic
  · cases hpanic
  split at hpanic
  · cases hpanic
  rw [dif_neg ‹_›, if_neg ‹_›]
  split <;> exact ⟨rfl, rfl, rfl⟩

/-- A new entry is pinned in the buffer it was logged from. -/
theorem Core.logWrite (hs : Core A s) (hop : s.op p = true)
    (hb : b ∈ (s.bio.thread p).held) (hhome : Home A s b)
    (hpanic : (s.logWrite A b).panic = none) : Core A (s.logWrite A b) := by
  have hnone := (hs.ctl.no_commit hop).2
  have hctl : CtlInv (s.logWrite A b) := hs.ctl.logWrite b
  by_cases hbig : s.lh.block.length ≥ LOGSIZE ∨ s.lh.block.length + 1 ≥ A.size
  · simp [State.logWrite, hbig] at hpanic
  by_cases hout : s.outstanding < 1
  · simp [State.logWrite, hbig, hout] at hpanic
  by_cases habsorb : (s.bio.buf b).blockno ∈ s.lh.block
  · simpa [State.logWrite, hbig, hout, habsorb] using hs
  -- What `log_write` leaves behind, field by field.
  rcases logWrite_fields hpanic with ⟨hsame, hlh, hbio⟩
  rw [if_neg habsorb] at hlh hbio
  have hpc : ∀ q, (s.logWrite A b).pc q = none := hsame ▸ hnone
  have hunpinned : (s.logWrite A b).unpinned = 0 := unpinned_of_none hpc
  have hpinned : (s.logWrite A b).pinned = s.lh.block ++ [(s.bio.buf b).blockno] := by
    rw [State.pinned, hunpinned, List.drop_zero, hlh]
  have hold : s.pinned = s.lh.block := by
    rw [State.pinned, unpinned_of_none hnone, List.drop_zero]
  have hid : ∀ c, ((s.logWrite A b).bio.buf c).dev = (s.bio.buf c).dev ∧
      ((s.logWrite A b).bio.buf c).blockno = (s.bio.buf c).blockno := by
    intro c
    have hsame := ident_of_contents_eq (s.bio.contents_setRefcnt b ((s.bio.buf b).refcnt + 1)) c
    rw [hbio]
    exact ⟨hsame.1, hsame.2.1⟩
  have hmem : ∀ m, m ∈ (s.logWrite A b).pinned ↔ m = (s.bio.buf b).blockno ∨ m ∈ s.pinned := by
    intro m
    rw [hpinned, hold, List.mem_append, List.mem_singleton]
    exact or_comm
  rcases pins_insert hs.base.bio.unique hhome.1 rfl hid hmem (by rwa [hold]) with ⟨hzero, hpins⟩
  refine .of_no_commit hctl (hs.base.repin hbio hpins (by rw [hzero]; simp) ?_ ?_ ?_ ?_ ?_) hpc
  · rw [hlh]
    exact List.Nodup.append hs.base.nodup (List.nodup_singleton _) (by simpa using habsorb)
  · rw [hlh]
    intro n hn
    rcases List.mem_append.1 hn with hn | hn
    · exact hs.base.home n hn
    · rw [List.mem_singleton.1 hn]
      exact hhome.2
  · rw [hlh]
    intro j hj
    simp only [List.length_append, List.length_singleton] at hj
    omega
  · intro n hn
    rcases (hmem n).1 hn with rfl | hn
    · exact ⟨b, hhome.1, rfl, hs.base.bio.valid p b hb⟩
    · exact hs.base.cached n hn
  · rw [hunpinned]
    intro j n hj
    omega

theorem Core.beginOp (hs : Core A s) (hop : s.op p = false) : Core A (s.beginOp p) := by
  rcases beginOp_fields s p with ⟨hbio, hlh, hpc, _⟩
  refine ⟨hs.ctl.beginOp hop, hs.base.of_unpinned_eq hbio hlh ?_, ?_⟩
  · simp only [State.unpinned, State.running, hpc, hlh]
  · intro q pc hq
    rw [hpc] at hq
    exact (hs.pcs q pc hq).congr hbio hlh

theorem Core.endOp (hs : Core A s) (hop : s.op p = true) : Core A (s.endOp p) := by
  have hctl : CtlInv (s.endOp p) := hs.ctl.endOp hop
  have hnone := (hs.ctl.no_commit hop).2
  have hold : s.unpinned = 0 := unpinned_of_none hnone
  rcases endOp_fields hs.ctl hop with ⟨hbio, hlh, _, hpc | hcheck⟩
  · have hnone' : ∀ q, (s.endOp p).pc q = none := hpc ▸ hnone
    exact .of_no_commit hctl (hs.base.of_unpinned_eq hbio hlh
      (by rw [hold, unpinned_of_none hnone'])) hnone'
  · exact .of_running hctl (hs.base.of_unpinned_eq hbio hlh
      (by rw [hold, unpinned_of_pc hctl hcheck]; rfl)) hcheck trivial

theorem core_step (hs : Core A s) (hok : ClientOk A s a)
    (h : step A s a = some t) (hpanic : t.panic = none) : Core A t := by
  cases steps_of_step h with
  | beginOp _ => exact hs.beginOp hok
  | endOp _ => exact hs.endOp hok
  | logWrite _ => exact hs.logWrite hok.1 hok.2.1 hok.2.2 hpanic
  | bread hidle =>
    rcases hs.base.bread hidle.2.2 hpanic with ⟨hbase, hcalm, hholds, hthread, _⟩
    exact hs.bystep hidle.2.1 (.bread ..) hbase hcalm (fun p b n _ => hholds p b n) hthread
  | store _ => exact hs.store hok.1 hok.2.1 hok.2.2
  | brelse hidle =>
    rcases hs.base.brelse hidle.2.2 hok with ⟨hbase, hcalm, hholds, hthread⟩
    exact hs.bystep hidle.2.1 (.brelse ..) hbase hcalm (fun p b n hp => hholds p b n (.inl hp))
      hthread
  | acquiresleep _ hbio => exact hs.served (.acquiresleep hs.base hbio)
  | fill _ hbio => exact hs.served (.fill hs.base hbio)
  | drop _ hbio => exact hs.served (.drop hs.base hbio)
  | commit _ hio hpc => exact core_commitStep hs hpc hio hpanic

/-! ## Panics -/

/-- The steps that end in a panic leave the cache and the header as they are. -/
theorem bread_panic (p : Slot) (dev : UInt32) (n : BlockNo) (hs : s.panic = none) :
    (s.bread p dev n).panic = none ∨
      (s.bread p dev n).panic = some .noBuffers ∧ (s.bread p dev n).bio = s.bio := by
  unfold State.bread
  split
  · exact .inl hs
  · exact .inr ⟨rfl, rfl⟩

theorem commitStep_panic (hs : Core A s) (hp : s.pc p = some pc)
    (hio : (s.bio.thread p).io = none) (hpanic : s.panic = none) :
    (s.commitStep A p pc).panic = none ∨
      (s.commitStep A p pc).panic = some .noBuffers ∧ (s.commitStep A p pc).bio = s.bio ∧
        (s.commitStep A p pc).lh = s.lh := by
  have hknown := hs.pcs p pc hp
  have hbread : ∀ n pc', ((s.bread p ROOTDEV n).goto p pc').panic = none ∨
      ((s.bread p ROOTDEV n).goto p pc').panic = some .noBuffers ∧
        ((s.bread p ROOTDEV n).goto p pc').bio = s.bio ∧
          ((s.bread p ROOTDEV n).goto p pc').lh = s.lh := fun n pc' =>
    (bread_panic p ROOTDEV n hpanic).imp id fun h => ⟨h.1, h.2, (SameCtl.bread ..).lh⟩
  have hbrelse : ∀ b n, Holds s p b n → (s.brelse p b).panic = none := by
    intro b n hb
    rw [brelse_of_held hs.base hb.1]
    exact hpanic
  have hput : ∀ b n data, Holds s p b n → (s.put p b data).panic = none := by
    intro b n data hb
    rw [put_of_holds hs.base hb]
    exact hpanic
  cases pc with
  | check =>
    simp only [State.commitStep]
    split <;> exact .inl hpanic
  | loop ph tail =>
    simp only [State.commitStep]
    split
    · exact hbread _ _
    · cases ph <;> exact .inl hpanic
  | gotLog ph tail => exact hbread _ _
  | gotHome ph tail l =>
    rcases hknown with ⟨_, _, hl, hwait⟩
    cases ph with
    | writeLog => exact .inl (hput _ _ _ hl)
    | installTrans => exact .inl (hput _ _ _ (await_of_none hio hwait))
  | unpin tail l h => exact .inl hpanic
  | rel ph tail a b =>
    rcases hknown with ⟨_, _, ⟨n, ha⟩, _⟩
    exact .inl (hbrelse _ _ ha)
  | rel2 ph tail b =>
    rcases hknown with ⟨_, _, n, hb⟩
    exact .inl (hbrelse _ _ hb)
  | head last => exact hbread _ _
  | gotHead last => exact .inl (hput _ _ _ (await_of_none hio hknown.2))
  | relHead last b =>
    rcases hknown with ⟨_, n, hb⟩
    exact .inl (hbrelse _ _ hb)
  | clear => exact .inl hpanic
  | done => exact .inl hpanic

theorem CtlInv.outstanding_pos (hs : CtlInv s) (hop : s.op p = true) : ¬ s.outstanding < 1 := by
  have hle := Finset.single_le_sum (f := fun q => (s.op q).toNat) (fun _ _ => Nat.zero_le _)
    (Finset.mem_univ p)
  have hcount := hs.count
  simp only [hop, Bool.toNat_true] at hle
  omega

/-- The only panics a run can end in are a cache without free buffers and a full log. -/
theorem step_panic (hs : Core A s) (hok : ClientOk A s a) (h : step A s a = some t) :
    t.panic = none ∨
      (t.panic = some .noBuffers ∨ t.panic = some .tooBig) ∧ t.bio = s.bio ∧ t.lh = s.lh := by
  cases steps_of_step h with
  | beginOp hidle => exact .inl ((beginOp_fields s _).2.2.2.trans hidle.1)
  | endOp hidle => exact .inl ((endOp_fields hs.ctl hok).2.2.1.trans hidle.1)
  | logWrite hidle =>
    have hout := hs.ctl.outstanding_pos hok.1
    simp only [State.logWrite, hout, if_false]
    split
    · exact .inr ⟨.inr rfl, rfl, rfl⟩
    · split <;> exact .inl hidle.1
  | bread hidle =>
    refine (bread_panic _ _ _ hidle.1).imp id fun h => ?_
    exact ⟨.inl h.1, h.2, (SameCtl.bread ..).lh⟩
  | store hidle => exact .inl hidle.1
  | brelse hidle =>
    left
    rw [brelse_of_held hs.base hok]
    exact hidle.1
  | acquiresleep hpanic _ | fill hpanic _ | drop hpanic _ => exact .inl hpanic
  | commit hpanic hio hpc =>
    exact (commitStep_panic hs hpc hio hpanic).imp id fun h => ⟨.inl h.1, h.2⟩

/-! ## Runs -/

/-- What holds in every state of a run. -/
structure Safe (A : LogArea) (s : State) : Prop where
  ctl : CtlInv s
  core : s.panic = none → Core A s
  panic : s.panic = none ∨ s.panic = some .noBuffers ∨ s.panic = some .tooBig

theorem panic_none_of_step (h : step A s a = some t) : s.panic = none := by
  cases steps_of_step h with
  | beginOp hidle | endOp hidle | logWrite hidle | bread hidle | store hidle | brelse hidle =>
    exact hidle.1
  | acquiresleep hpanic _ | fill hpanic _ | drop hpanic _ => exact hpanic
  | commit hpanic _ _ => exact hpanic

theorem safe_step (A : LogArea) (s : State) (a : Act) (t : State) (hs : Safe A s)
    (hok : ClientOk A s a) (h : step A s a = some t) : Safe A t := by
  have hcore := hs.core (panic_none_of_step h)
  refine ⟨ctlInv_step A s a t hs.ctl hok h, core_step hcore hok h, ?_⟩
  exact (step_panic hcore hok h).imp id And.left

theorem safe_of_started (A : LogArea) (h : Started s) : Safe A s := by
  have hctl : CtlInv s := by
    refine ⟨?_, ?_, ?_, ?_⟩
    · simp [h.outstanding, h.ops]
    · simp [h.committing, h.pcs]
    · intro p q hp
      exact absurd (h.pcs p) hp
    · intro hc
      simp [h.committing] at hc
  have hpinned : s.pinned = [] := by simp [State.pinned, h.empty]
  have hpins : s.pins = fun _ => 0 := by
    funext b
    simp [State.pins, hpinned]
  have hlocks : ∀ p b, ¬ (s.bio.thread p).Locks b := by
    intro p b
    simp [Thread.Locks, h.threads p]
  refine ⟨hctl, fun _ => .of_no_commit hctl ⟨?_, ?_, ?_, ?_, ?_, ?_, ?_⟩ h.pcs, .inl h.panic⟩
  · simp [h.empty]
  · simp [h.empty]
  · simp [h.empty]
  · rw [hpins]
    refine ⟨h.ident, ?_, ?_, ?_, ?_, ?_, ?_⟩
    · intro b
      simp [(h.unused b).1, Bio.State.users, Thread.uses, h.threads]
    · intro b p
      simp [(h.unused b).2, hlocks]
    · simp [h.threads]
    · simp [h.threads]
    · simp [h.threads]
    · simp [h.threads]
  · simp [hpinned]
  · intro b n hb _
    exact h.clean b n hb
  · intro j n _ hn
    simp [h.empty] at hn

end Xv6.Group
