import Xv6.Fs.Files

/-!
# Steps — what one completed call does

The calls that start, end and move processes, the calls that open files, and the specification of
every call together.
-/

namespace Xv6.Fs

open Lib Prog Volume
open Function (update update_eq_self update_idem update_of_ne update_self)

variable {sb : Superblock} {s t u : St} {p : Slot} {q ip : Ip} {f : Fp}

/-! ## Processes -/

theorem execReads_spec {reads : List (Nat × Nat)} (hs : Stable sb s) (hq : 0 < (s.itable q).ref)
    (hvalid : (s.itable q).valid = true) : execReads sb q reads s = .ok () s := by
  induction reads with
  | nil => rfl
  | cons x l ih =>
    rcases readi_of_stable hs hq hvalid (fun _ => true) x.1 x.2 with ⟨r, hr⟩
    rw [execReads, bind_ok hr, ih]

variable {path : UserStr} {c : Call} {v : Volume} {a : Deed}

theorem execLoad_spec {reads : List (Nat × Nat)} (h : Inv sb s) :
    wp (execLoad sb p path reads) (Blame sb s) (fun _ t => Quiet sb s t) s := by
  unfold execLoad
  split
  · exact .refl h
  · rw [wp_bind, beginOp, wp_modify]
    refine wp_seq (namei_spec (walk_op h.stable (some ∅)) h.cwd_ref) ?_
    rintro _ t (⟨rfl, hw⟩ | ⟨ip, _, rfl, hw, _⟩)
    · exact (hw.op none).quiet h
    refine wp_seq (ilock_blame hw) ?_
    rintro _ t₁ ⟨hw₁, hlock, _, href, hvalid, _⟩
    rw [wp_bind, wp_of_eq (execReads_spec hw₁.stable (hlock.ref_pos href) hvalid)]
    exact wp_seq (walk_release h.stable hw₁) fun _ _ hu => (hu.op none).quiet h

theorem in_cwd (x : Proc) (q p : Ip) : Proc.in { x with cwd := some q } p = one q p := by
  unfold Proc.in one
  by_cases hpq : p = q
  · rw [if_pos (congrArg some hpq.symm), if_pos hpq]
  · rw [if_neg fun heq => hpq (Option.some.inj heq).symm, if_neg hpq]

theorem in_of_cwd {x : Proc} (h : x.cwd = some q) (p : Ip) : x.in p = one q p := by
  rw [← in_cwd x q p, Proc.in, Proc.in, h]

theorem sysChdir_spec (h : Inv sb s) :
    wp (sysChdir sb p path) (Blame sb s) (fun _ t => Quiet sb s t) s := by
  unfold sysChdir
  rw [wp_bind, beginOp, wp_modify]
  have hop := walk_op h.stable (some ∅)
  split
  · exact (hop.op none).quiet h
  refine wp_seq (namei_spec hop h.cwd_ref) ?_
  rintro _ t (⟨rfl, hw⟩ | ⟨ip, _, rfl, hw, _⟩)
  · exact (hw.op none).quiet h
  refine wp_seq (ilock_blame hw) ?_
  rintro _ t₁ ⟨hw₁, hlock, _, href, hvalid, _⟩
  rw [wp_bind, wp_gets]
  split
  · exact wp_seq (walk_release h.stable hw₁) fun _ _ hu => (hu.op none).quiet h
  refine wp_call (iunlock_spec hw₁.stable) ?_ fun _ he => he.blame sb s
  rintro _ t₂ ⟨hunlock, _⟩
  have hw₂ := hw₁.still hunlock
  have hvalid₂ := (hunlock.valid ip (hlock.ref_pos href) hvalid).1
  rw [wp_bind, wp_gets]
  split
  · exact ⟨by simp, by simp⟩
  rename_i cwd hcwd
  rw [hw₂.proc] at hcwd
  have hcwdref := hw₂.ref_pos (h.cwd_ref cwd hcwd)
  refine wp_call (iput_spec hw₂.stable hcwdref) ?_ fun _ he => he.blame sb s
  intro _ t₃ hput
  rw [wp_bind, endOp, wp_modify, wp_bind, setProc, wp_modify]
  -- The process holds the new directory in place of the old one.
  refine quiet_of_put h hw₂ hput rfl rfl rfl rfl rfl rfl rfl rfl ?_ ?_ ?_ ?_
  · intro x
    have huses := uses_setProc s p { s.proc p with cwd := some ip } x
    rw [in_cwd, in_of_cwd hcwd] at huses
    rw [← huses]
    unfold uses
    simp only [hput.ftable, hput.proc, hw₂.ftable, hw₂.proc]
  · simp only [hput.ftable, hw₂.ftable]
    exact h.closed
  · simp only [hput.ftable, hw₂.ftable]
    exact fun g htype hwritable => ⟨htype, hwritable, trivial⟩
  · intro x hx
    have hxi : x = ip := by
      by_contra hne
      rw [one, if_neg hne] at hx
      exact lt_irrefl _ hx
    rw [hxi]
    exact hvalid₂

theorem filedupAll_spec {l : List (Option Fp)} (h : Inv sb s) : wp (filedupAll l) Benign
      (fun _ t => Quiet sb s t ∧ t.proc = s.proc ∧ t.itable = s.itable) s := by
  induction l generalizing s with
  | nil => exact ⟨.refl h, rfl, rfl⟩
  | cons x l ih =>
    cases x with
    | none => exact ih h
    | some g =>
      rw [filedupAll]
      refine wp_seq (filedup_spec h) ?_
      rintro _ t ⟨hdup, hproc, htab⟩
      refine wp_post (ih hdup.inv) ?_
      rintro _ u ⟨hrest, hproc', htab'⟩
      exact ⟨hdup.trans hrest, hproc'.trans hproc, htab'.trans htab⟩

theorem fork_spec {c : Slot} (h : Inv sb s) (hfree : (s.proc c).cwd = none) :
    wp (Fs.fork p c) (Blame sb s) (fun _ t => Quiet sb s t) s := by
  unfold Fs.fork
  rw [wp_bind, wp_gets]
  split
  · exact ⟨by simp, by simp⟩
  rename_i cwd hcwd
  refine wp_call (filedupAll_spec h) ?_ fun _ he => he.blame sb s
  rintro _ t ⟨hdup, hproc, htab⟩
  have hcwd' : (t.proc p).cwd = some cwd := by rw [hproc, hcwd]
  refine wp_call (idup_spec hdup.inv.stable (hdup.inv.cwd_ref cwd hcwd')) ?_
    fun _ he => he.blame sb s
  rintro cwd t₁ ⟨rfl, hwalk, _⟩
  rw [wp_bind, setProc, wp_modify, wp_pure]
  refine hdup.trans ⟨hdup.inv.of_track hwalk.toTrack rfl rfl (fun x => ?_) ?_
    (fun g htype hwritable => .inl ?_) ?_, hwalk.gen, hwalk.hist, hwalk.frees,
    fun hf => (hwalk.firm hf).frame rfl rfl, fun hf => (hwalk.tended hf).frame rfl rfl⟩
  · have huses := uses_setProc t c { s.proc p with cwd := some cwd } x
    rw [in_cwd] at huses
    have hzero : (t.proc c).in x = 0 := by
      rw [Proc.in, hproc, hfree, if_neg (by simp)]
    rw [hzero, Int.sub_zero] at huses
    rw [← huses]
    unfold uses
    simp only [hwalk.ftable, hwalk.proc]
  · simp only [hwalk.ftable]
    exact hdup.inv.closed
  · simp only [hwalk.ftable] at htype hwritable ⊢
    exact ⟨htype, hwritable, trivial⟩
  · intro x hx hδ
    have hxi : x = cwd := by
      by_contra hne
      rw [one, if_neg hne] at hδ
      exact lt_irrefl _ hδ
    rw [hxi] at hx
    exact absurd (hdup.inv.cwd_ref cwd hcwd') hx

theorem exitFiles_spec {l : List (Fin NOFILE)} (h : Inv sb s) : wp (exitFiles sb p l) Benign
      (fun _ t => Quiet sb s t ∧ (t.proc p).cwd = (s.proc p).cwd) s := by
  induction l generalizing s with
  | nil => exact ⟨.refl h, rfl⟩
  | cons fd l ih =>
    rw [exitFiles, wp_bind, wp_gets]
    split
    · exact ih h
    · rename_i g _
      refine wp_seq (fileclose_spec h) ?_
      rintro _ t ⟨hclose, hproc⟩
      rw [wp_bind, setProc, wp_modify]
      have hclear := quiet_setProc (p := p) (x := { t.proc p with
        ofile := update (t.proc p).ofile fd none }) hclose.inv rfl
      refine wp_post (ih hclear.inv) ?_
      rintro _ u ⟨hrest, hcwd⟩
      refine ⟨(hclose.trans hclear).trans hrest, ?_⟩
      rw [hcwd]
      simp only [update_self, hproc]

theorem exit_spec (h : Inv sb s) : wp (Fs.exit sb p) (Blame sb s) (fun _ t => Quiet sb s t) s := by
  unfold Fs.exit
  split
  · exact ⟨by simp, by simp⟩
  refine wp_call (exitFiles_spec h) ?_ fun _ he => he.blame sb s
  rintro _ t ⟨hfiles, _⟩
  rw [wp_bind, wp_gets]
  split
  · exact ⟨by simp, by simp⟩
  rename_i cwd hcwd
  rw [wp_bind, beginOp, wp_modify]
  have hop := walk_op hfiles.inv.stable (some ∅)
  have hcwdref := hfiles.inv.cwd_ref cwd hcwd
  refine wp_call (iput_spec hop.stable (hop.ref_pos hcwdref)) ?_ fun _ he => he.blame sb s
  intro _ t₁ hput
  rw [wp_bind, endOp, wp_modify, wp_bind, setProc, wp_modify]
  refine hfiles.trans (quiet_of_put hfiles.inv hop hput rfl rfl rfl rfl rfl rfl rfl rfl ?_ ?_ ?_ ?_)
  · intro x
    have huses := uses_setProc t p { t.proc p with cwd := none } x
    rw [in_of_cwd hcwd] at huses
    have hzero : Proc.in { t.proc p with cwd := none } x = 0 := by
      rw [Proc.in, if_neg (by simp)]
    rw [hzero] at huses
    rw [Pi.zero_apply, ← huses]
    unfold uses
    simp only [hput.ftable, hput.proc]
  · simp only [hput.ftable]
    exact hfiles.inv.closed
  · simp only [hput.ftable]
    exact fun g htype hwritable => ⟨htype, hwritable, trivial⟩
  · intro x hx
    exact absurd hx (lt_irrefl _)

/-! ## The buffer cache -/

/-- The buffers of directories and indirect blocks are as logged, so recycling a buffer loses only
data of files. -/
theorem held_evict (h : v.Intact sb) (b : Nat) : (v.evict b).held sb = v.held sb := by
  refine held_congr rfl fun i hne => ?_
  have hclean := h.clean i NDIRECT hne (.inl rfl)
  by_cases hb : v.held sb (i, NDIRECT) = b
  · subst hb
    simp only [evict, update_self]
    exact hclean.symm
  · simp only [evict, update_of_ne hb]

theorem Volume.Intact.evict (h : v.Intact sb) (b : Nat) : (v.evict b).Intact sb := by
  have hheld := held_evict h b
  refine ⟨hheld ▸ h.holding, h.free, fun i hi bn hbn => ?_, fun i k hne hkind => ?_⟩
  · rw [hheld]
    exact h.mapped i hi bn hbn
  · rw [hheld] at hne ⊢
    have hclean := h.clean i k hne hkind
    by_cases hb : v.held sb (i, k) = b
    · subst hb
      simp [CleanAt, Volume.evict]
    · simpa [CleanAt, Volume.evict, update_of_ne hb] using hclean

theorem tree_evict (h : v.Intact sb) (b : Nat) : (v.evict b).tree sb = v.tree sb := by
  funext i
  refine tree_congr rfl rfl (fun _ => rfl) fun hdir x hx => ?_
  have hne := h.mapped i (by rw [hdir]; decide) _
    (Nat.lt_of_le_of_lt (Nat.div_mul_le_self x BSIZE) hx)
  refine byteAt_congr (fun k => congrFun (held_evict h b) _) ?_
  have hclean := h.clean i _ hne (.inr hdir)
  by_cases hb : v.blockAt sb i x = b
  · subst hb
    simp only [Volume.evict, update_self]
    exact hclean.symm
  · simp only [Volume.evict, update_of_ne hb]

/-- What the buffer cache does by itself is no change of the tree. -/
theorem quiet_vol (h : Inv sb s) (hintact : v.Intact sb)
    (hdip : v.dip sb = s.vol.dip sb) (htree : v.tree sb = s.vol.tree sb) :
    Quiet sb s { s with vol := v } := by
  have hstable : Stable sb { s with vol := v } :=
    ⟨hintact, h.stable.nonneg, h.stable.unique, fun q hq hv => by
      rw [h.stable.coherent q hq hv, ← hdip], h.stable.typed⟩
  refine Walk.quiet ⟨⟨hstable, rfl, rfl, rfl, fun _ => Int.le_refl _,
    fun _ => (Int.add_zero _).symm, fun _ _ => rfl, fun _ _ hv => ⟨hv, rfl⟩⟩, rfl, ?_, fun hf => ?_,
    fun ht => ?_⟩ h
  · rw [htree]
    exact .refl _
  · refine hf.of_frees ?_ ?_
    · rw [htree]
      exact .refl _
    · rw [htree]
      exact hf.table
  · intro i n hi hn
    rw [htree] at hi
    exact ht i n hi hn

/-! ## Calls that change the tree -/

/-- A completed call that was to do `a`. -/
structure Ended (sb : Superblock) (a : Deed) (s t : St) : Prop where
  inv : Inv sb t
  hist : t.hist = s.hist
  effect : Sane sb s → Tended sb s →
    Effect sb.ninodes a (s.vol.tree sb) s.gen (t.vol.tree sb) t.gen ∧ Tended sb t

theorem Quiet.ended (h : Quiet sb s t) : Ended sb a s t :=
  ⟨h.inv, h.hist, fun _ htended => ⟨h.gen ▸ .of_frees h.frees, h.tended htended⟩⟩

theorem Mid.ended (h : Mid sb a s t 0) (hi : Inv sb s) : Ended sb a s t :=
  ⟨hi.of_track_zero h.toTrack, h.hist, h.effect⟩

theorem Ended.quiet (h : Ended sb a s t) (h' : Quiet sb t u) : Ended sb a s u := by
  refine ⟨h'.inv, h'.hist.trans h.hist, fun hsane htended => ?_⟩
  rcases h.effect hsane htended with ⟨heffect, ht⟩
  exact ⟨h'.gen ▸ heffect.trans_frees h'.frees, h'.tended ht⟩

theorem createAndPut_spec {type : FileType} {major minor : Int}
    (h : Inv sb s) (htype : type ≠ .free) :
    wp (createAndPut sb p path type major minor) (Fault sb s)
      (fun _ t => Ended sb ((argstr path).elim .none (s.creation sb p · type)) s t) s := by
  unfold createAndPut
  rw [wp_bind, beginOp, wp_modify]
  have hop := walk_op h.stable (some ∅)
  split
  · exact ((hop.op none).quiet h).ended
  rename_i path hpath
  rw [hpath, Option.elim_some]
  refine wp_call (create_spec h.stable h.settled hop htype h.cwd_ref) ?_
    fun _ he => he.fault
  rintro _ t (⟨rfl, hmid⟩ | ⟨ip, rfl, hmid, _⟩)
  · exact (hmid.op none).ended h
  · exact wp_call (mid_release h.stable hmid) (fun _ _ hu => (hu.op none).ended h)
      fun _ he => he.fault sb s

/-- The inode that is opened; a directory only for reading. -/
theorem openInode_spec {path : List UInt8} {omode : Nat} (h : Inv sb s) (hw : Walk sb s t 0) :
    wp (openInode sb p path omode) (Blame sb s)
      (Made sb (if omode &&& O_CREATE ≠ 0 then s.creation sb p path .file else .none) s
        fun k => k = .dir → omode = O_RDONLY) t := by
  unfold openInode
  split
  · refine wp_post (create_spec h.stable h.settled hw (by decide) h.cwd_ref) ?_
    rintro r u (hnone | ⟨ip, hr, hmid, hvalid, hkind⟩)
    · exact .inl hnone
    · refine .inr ⟨ip, hr, hmid, hvalid, fun hdir => ?_⟩
      rcases hkind with hk | ⟨_, hk⟩ <;> rw [hdir] at hk <;> cases hk
  · refine wp_seq (namei_spec hw h.cwd_ref) ?_
    rintro _ t₁ (⟨rfl, hw₁⟩ | ⟨ip, _, rfl, hw₁, _⟩)
    · exact .inl ⟨rfl, hw₁.mid⟩
    refine wp_seq (ilock_blame hw₁) ?_
    rintro _ t₂ ⟨hw₂, _, _, _, hvalid, _⟩
    rw [wp_bind, wp_gets]
    split
    · exact wp_seq (walk_release h.stable hw₂) fun _ _ hu => .inl ⟨rfl, hu.mid⟩
    · rename_i hdir
      refine .inr ⟨ip, rfl, hw₂.mid, hvalid, fun hkind => ?_⟩
      by_contra hmode
      exact hdir ⟨hkind, hmode⟩

theorem openFail_spec (h : Inv sb s) (hmid : Mid sb a s t (one ip)) :
    wp (openFail sb ip) (Blame sb s) (fun _ u => Ended sb a s u) t := by
  unfold openFail
  exact wp_call (mid_release h.stable hmid) (fun _ _ hu => (hu.op none).ended h)
    fun _ he => he.blame sb s

theorem itrunc_walk (hs : Stable sb s) (hq : 0 < (s.itable q).ref)
    (hvalid : (s.itable q).valid = true) (htype : (s.itable q).copy.type ≠ .dir) :
    wp (itrunc sb q) Benign (fun _ t => Walk sb s t 0) s := by
  have hcopy := hs.coherent q hq hvalid
  refine wp_post (itrunc_spec (by rw [hs.eff_eq hq hvalid]; exact hs.intact)
    (hs.typed q hq hvalid)) ?_
  rintro _ t ⟨v, o, addrs, rfl, _, hintact, hdip, hdata, _⟩
  have hsame : ∀ j, j ≠ (s.itable q).inum → v.dip sb j = s.vol.dip sb j := by
    intro j hj
    rw [hdip, update_of_ne hj]
  refine (edit_put (d := { (s.itable q).copy with addrs := addrs, size := 0 }) hs hq hvalid hintact
    (by rw [hdip]; exact update_self _ _ _) hsame rfl ?_).walk ?_
  · intro j hj
    refine tree_congr (by rw [hsame j hj]) (by rw [hsame j hj]) (fun _ => by rw [hsame j hj])
      fun _ x _ => byteAt_congr (fun k => ?_) (by rw [hdata])
    simp only [held, hsame j hj, hdata]
  · rw [hcopy] at htype
    rw [St.vol_put]
    refine tree_congr ?_ ?_ (fun hdir => absurd hdir htype) fun hdir => absurd hdir htype
    all_goals rw [hdip, update_self, hcopy]

/-- What a call has opened is accounted for in the file table. -/
theorem Mid.open {x : File} {y : Proc} (h : Inv sb s) (hmid : Mid sb a s t (one ip))
    (hvalid : (t.itable ip).valid = true) (hfree : (s.ftable f).type = .none)
    (href : x.ref ≠ 0) (htype : x.type ≠ .none) (hip : x.ip = ip)
    (hwritable : x.type = .inode → x.writable = true → (t.itable ip).copy.type = .file)
    (hcwd : y.cwd = (s.proc p).cwd) :
    Ended sb a s { t with
      ftable := update t.ftable f x
      proc := update t.proc p y } := by
  refine ⟨h.of_track hmid.toTrack rfl rfl (fun q => ?_) (fun g hg => ?_)
    (fun g hinode hw => ?_) ?_, hmid.hist, fun hsane htended => ?_⟩
  · have hfile := uses_setFile s f x q
    have hproc := uses_setProc { s with ftable := update s.ftable f x } p y q
    rw [on_of_open htype, hip, on_of_closed hfree, Int.sub_zero] at hfile
    have hin : y.in q = (s.proc p).in q := by rw [Proc.in, Proc.in, hcwd]
    simp only [hin, hfile] at hproc
    have hsame : uses { t with
        ftable := update t.ftable f x
        proc := update t.proc p y } q = uses { s with
          ftable := update s.ftable f x
          proc := update s.proc p y } q := by
      unfold uses
      simp only [hmid.ftable, hmid.proc]
    rw [hsame, hproc]
    omega
  · by_cases hgf : g = f
    · subst hgf
      simp only [update_self] at hg
      exact absurd hg href
    · simp only [update_of_ne hgf, hmid.ftable] at hg ⊢
      exact h.closed g hg
  · by_cases hgf : g = f
    · subst hgf
      simp only [update_self, hip] at hinode hw ⊢
      exact .inr ⟨hvalid, hwritable hinode hw⟩
    · simp only [update_of_ne hgf, hmid.ftable] at hinode hw ⊢
      exact .inl ⟨hinode, hw, trivial⟩
  · intro q _ hq
    have hqi : q = ip := by
      by_contra hne
      rw [one, if_neg hne] at hq
      exact lt_irrefl _ hq
    rw [hqi]
    exact hvalid
  · rcases hmid.effect hsane htended with ⟨heffect, ht⟩
    exact ⟨heffect, ht.frame rfl rfl⟩

theorem sysOpen_spec {omode : Nat} (h : Inv sb s) :
    wp (sysOpen sb p path omode) (Fault sb s)
      (fun _ t => Ended sb (Call.deed sb s (.open p path omode)) s t) s := by
  unfold sysOpen
  split
  · exact (Quiet.refl h).ended
  rename_i path hpath
  simp only [Call.deed, hpath, Option.elim_some]
  rw [wp_bind, beginOp, wp_modify]
  have hinode : wp (openInode sb p path omode) _ _ _ :=
    openInode_spec h (walk_op h.stable (some ∅))
  generalize (if omode &&& O_CREATE ≠ 0 then _ else Deed.none) = a at hinode ⊢
  refine wp_call hinode ?_ fun _ he => he.fault
  rintro _ t (⟨rfl, hmid⟩ | ⟨ip, rfl, hmid, hvalid, hdir⟩)
  · exact (hmid.op none).ended h
  have hfail := wp_mono (openFail_spec h hmid) (fun _ he => he.fault) fun _ _ hpost => hpost
  rw [wp_bind, wp_gets]
  split
  · exact hfail
  unfold filealloc
  rw [wp_bind, wp_bind, wp_gets]
  cases hfind : (List.finRange NFILE).find? fun f => decide ((t.ftable f).ref = 0) with
  | none => exact hfail
  | some f =>
    have href := List.find?_some hfind
    simp only [decide_eq_true_eq] at href
    have hshut : (s.ftable f).type = .none := h.closed f (by rw [← hmid.ftable, href])
    have hshut' : (t.ftable f).type = .none := by rw [hmid.ftable, hshut]
    simp only
    rw [wp_bind, setFile, wp_modify, wp_pure]
    refine wp_seq fdalloc_spec ?_
    rintro _ t₁ (⟨rfl, rfl⟩ | ⟨fd, rfl, rfl⟩)
    · -- No descriptor: the file is closed again, and was never open on an inode.
      have hback : ({ t.ftable f with ref := 0, type := .none } : File) = t.ftable f := by
        rw [← href, ← hshut']
      simp only [wp_bind]
      unfold fileclose
      rw [wp_bind, wp_gets]
      simp only [update_self]
      rw [if_neg (by decide), if_neg (by decide), wp_bind, setFile, wp_modify,
        if_neg (by rw [hshut']; decide), wp_pure]
      simp only [update_self, update_idem, hback, update_eq_self]
      exact hfail
    · rw [wp_bind]
      unfold openFile
      rw [wp_bind, wp_gets, wp_bind, setFile, wp_modify]
      simp only [update_self, update_idem]
      have hrefip : 0 < (t.itable ip).ref := hmid.toTrack.held h.stable (one_self_pos ip)
      have hrest : ∀ z, Ended sb a s z → z.itable = t.itable →
          wp (if omode &&& O_TRUNC ≠ 0 ∧ (t.itable ip).copy.type = .file then do
              itrunc sb ip
              iunlock sb ip
              endOp
            else do
              iunlock sb ip
              endOp) (Fault sb s) (fun _ u => Ended sb a s u) z := by
        intro z hz htab
        have hend : ∀ y, Ended sb a s y →
            wp (do iunlock sb ip; endOp) (Fault sb s) (fun _ u => Ended sb a s u) y := by
          intro y hy
          refine wp_call (iunlock_spec hy.inv.stable) ?_ fun _ he => he.fault sb s
          rintro _ u ⟨hunlock, _⟩
          exact hy.quiet ((hunlock.op none).quiet hy.inv)
        split
        · rename_i hfile
          rw [← htab] at hfile hrefip hvalid
          refine wp_call (itrunc_walk hz.inv.stable hrefip hvalid (by rw [hfile.2]; decide)) ?_
            fun _ he => he.fault sb s
          intro _ u hu
          exact hend u (hz.quiet (hu.quiet hz.inv))
        · exact hend z hz
      refine hrest _ (Mid.open h hmid hvalid hshut ?_ ?_ rfl ?_ ?_) rfl
      · split <;> simp
      · split <;> simp
      · intro hinode hwritable
        have hkind := hmid.stable.typed ip hrefip hvalid
        have hmode : omode ≠ O_RDONLY := by
          rintro rfl
          simp [O_RDONLY, O_WRONLY, O_RDWR] at hwritable
        cases hk : (t.itable ip).copy.type with
        | free => exact absurd hk hkind
        | dir => exact absurd (hdir hk) hmode
        | file => rfl
        | device => simp [hk] at hinode
      · rw [hmid.proc]

/-! ## Every call -/

theorem argfd_call {fd : Int} {k : Fp → M Int} (h : Inv sb s)
    (hk : ∀ f, wp (k f) (Blame sb s) (fun _ t => Quiet sb s t) s) :
    wp (do
      let a ← argfd p fd
      match a with
      | none => pure (-1)
      | some (_, f) => k f) (Blame sb s) (fun _ t => Quiet sb s t) s := by
  refine wp_seq argfd_spec ?_
  rintro (_ | ⟨_, f⟩) t ⟨rfl, _⟩
  · exact .refl h
  · exact hk f

/-- The calls that change names. -/
def Call.names : Call → Bool
  | .open _ _ _ | .mkdir _ _ | .mknod _ _ _ _ | .link _ _ _ | .unlink _ _ => true
  | _ => false

theorem call_quiet (h : Inv sb s) (hc : c.enabled s = true) (hn : c.names = false) :
    wp (c.run sb) (Blame sb s) (fun _ t => Quiet sb s t) s := by
  cases c with
  | «open» | mkdir | mknod | link | unlink => cases hn
  | chdir p path => exact sysChdir_spec h
  | close p fd => exact sysClose_spec h
  | read p fd dst n io => exact argfd_call h fun f => fileread_spec h
  | write p fd src n io => exact argfd_call h fun f => filewrite_spec h
  | dup p fd => exact sysDup_spec h
  | fstat p fd ok => exact argfd_call h fun f => filestat_spec h
  | exec p path reads => exact execLoad_spec h
  | fork p q =>
    have hfree : (s.proc q).cwd = none := by
      simp only [Call.enabled, Bool.and_eq_true, Option.isNone_iff_eq_none] at hc
      exact hc.2
    exact fork_spec h hfree
  | exit p => exact exit_spec h
  | evict b => exact quiet_vol h (h.stable.intact.evict b) rfl (tree_evict h.stable.intact b)
  | flush b => exact quiet_vol h (h.stable.intact.logged b) rfl rfl

theorem call_spec (h : Inv sb s) (hc : c.enabled s = true) :
    wp (c.run sb) (Fault sb s) (fun _ t => Ended sb (c.deed sb s) s t) s := by
  by_cases hn : c.names = false
  · exact wp_mono (call_quiet h hc hn) (fun _ he => he.fault) fun _ _ hq => hq.ended
  cases c with
  | «open» p path omode => exact sysOpen_spec h
  | mkdir p path => exact createAndPut_spec h (by decide)
  | mknod p path major minor => exact createAndPut_spec h (by decide)
  | link p old new =>
    exact wp_post (sysLink_spec h.stable h.cwd_ref) fun _ _ hm => hm.ended h
  | unlink p path =>
    exact wp_post (sysUnlink_spec h.stable h.cwd_ref) fun _ _ hm => hm.ended h
  | _ => exact absurd rfl hn

theorem step_cases (h : step sb s c = some t) : c.enabled s = true ∧ ∃ r, c.run sb s = .ok r t := by
  unfold step at h
  split at h
  · rename_i hc
    split at h
    · rename_i r u hrun
      cases h
      exact ⟨hc, r, hrun⟩
    · cases h
  · cases h

theorem step_ended (h : Inv sb s) (hstep : step sb s c = some t) :
    Ended sb (c.deed sb s) s t := by
  rcases step_cases hstep with ⟨hc, r, hrun⟩
  exact of_wp (Q := fun _ t => Ended sb (c.deed sb s) s t) (call_spec h hc) hrun

theorem inv_boot (hv : v.Intact sb) : Inv sb (boot v) := by
  have hidle : ∀ q : Ip, q ≠ 0 → ((boot v).itable q).ref = 0 := by
    intro q hq
    simp [boot, update_of_ne hq]
  have hroot : ((boot v).itable 0).ref = 1 := rfl
  have hinum : ((boot v).itable 0).inum = ROOTINO := rfl
  have hvalid : ∀ q, ((boot v).itable q).valid = false := by
    intro q
    by_cases hq : q = 0
    · subst hq
      rfl
    · simp [boot, update_of_ne hq]
  have hself : ∀ q, 0 < ((boot v).itable q).ref → q = 0 := by
    intro q hpos
    by_contra hq
    rw [hidle q hq] at hpos
    exact lt_irrefl _ hpos
  refine ⟨⟨hv, ?_, ?_, ?_, ?_⟩, ?_, ?_, ?_, ?_⟩
  · intro q
    by_cases hq : q = 0
    · rw [hq, hroot]
      decide
    · rw [hidle q hq]
  · intro p q hp hq _
    rw [hself p hp, hself q hq]
  · intro q _ hv
    rw [hvalid q] at hv
    cases hv
  · intro q _ hv
    rw [hvalid q] at hv
    cases hv
  · -- The first process's directory is the only reference.
    intro q
    have hfiles : ∑ f, ((boot v).ftable f).on q = 0 :=
      Finset.sum_eq_zero fun f _ => on_of_closed rfl q
    have hprocs : ∑ p, ((boot v).proc p).in q = (((boot v).proc 0).in q : Int) := by
      refine Finset.sum_eq_single 0 (fun p _ hp => ?_) fun hno => absurd (Finset.mem_univ _) hno
      simp [boot, Proc.in, update_of_ne hp]
    rw [uses, hfiles, hprocs, in_of_cwd (q := 0) rfl]
    by_cases hq : q = 0
    · rw [hq]
      rfl
    · rw [hidle q hq, one, if_neg hq]
      rfl
  · intro f _
    rfl
  · intro f htype
    cases htype
  · intro q hq
    rw [hself q hq]
    exact .inr hinum

end Xv6.Fs
