import Xv6.Ftable.Refs

/-!
# Runs — the file table over whole runs

Every call leaves as many references to a file as there are descriptors for it, on all its ways to
fail as well.
-/

namespace Xv6.Ftable

open Lib Prog
open Function (update_apply update_of_ne update_self)

variable {s t : St} {p q : Slot} {f g : Fp} {fd : Fin NOFILE} {x : Fp → Int}

/-- A call does not stop with an error. -/
def Never (_ : Panic) : Prop :=
  False

/-! ## Descriptors -/

theorem argfd_spec (p : Slot) (fd : Int) (s : St) : wp (argfd p fd) Never
    (fun r t => t = s ∧ ∀ a, r = some a → (s.proc p).ofile a.1 = some a.2) s := by
  rw [argfd, wp_bind, wp_gets]
  split
  · refine ⟨rfl, fun a ha => ?_⟩
    rcases Option.map_eq_some_iff.1 ha with ⟨f, hf, rfl⟩
    exact hf
  · exact ⟨rfl, nofun⟩

theorem fdalloc_spec (p : Slot) (f : Fp) (s : St) : wp (fdalloc p f) Never
    (fun r t => (r = none ∧ t = s) ∨
      ∃ fd, r = some fd ∧ (s.proc p).ofile fd = none ∧ t = s.putOfile p fd (some f)) s := by
  rw [fdalloc, wp_bind, wp_gets]
  split
  · rename_i fd hfind
    have hnone := List.find?_some hfind
    exact .inr ⟨fd, rfl, of_decide_eq_true hnone, rfl⟩
  · exact .inl ⟨rfl, rfl⟩

theorem sysDup_spec (h : Inv s 0) (hp : ¬ (s.proc p).Idle) (fd : Int) :
    wp (sysDup p fd) Never (fun _ t => Inv t 0) s := by
  refine wp_seq (argfd_spec p fd s) ?_
  rintro (_ | ⟨fd, f⟩) _ ⟨rfl, hfd⟩
  · exact h
  refine wp_seq (fdalloc_spec p f _) ?_
  rintro _ _ (⟨rfl, rfl⟩ | ⟨r, rfl, hnone, rfl⟩)
  · exact h
  -- The descriptor is there before the reference is.
  have hinv : Inv _ _ := h.install (f := f) hnone hp
  refine wp_seq (hinv.filedup_spec (h.ref_pos (hfd _ rfl))) ?_
  rintro _ t ⟨ht, -⟩
  rw [sub_add_cancel] at ht
  exact ht

theorem sysClose_spec (h : Inv s 0) (fd : Int) :
    wp (sysClose p fd) Never (fun _ t => Inv t 0) s := by
  refine wp_seq (argfd_spec p fd s) ?_
  rintro (_ | ⟨fd, f⟩) _ ⟨rfl, hfd⟩
  · exact h
  have hinv := h.uninstall (hfd _ rfl)
  refine wp_bind.2 (wp_seq (hinv.fileclose_spec (h.ref_pos (hfd _ rfl))) ?_)
  rintro _ t ⟨ht, -⟩
  rw [add_sub_cancel_right] at ht
  exact ht

/-! ## Reading and writing -/

theorem Inv.seek (h : Inv s x) (n : Nat) : Inv (s.putFile f { s.file f with off := n }) x := by
  refine h.congr (fun g => ?_) (fun _ => rfl) h.idle rfl rfl
  by_cases hg : g = f
  · subst hg
    simp only [St.putFile, update_self]
    exact ⟨trivial, trivial, rfl, trivial⟩
  · simp only [St.putFile, update_of_ne hg]
    exact ⟨trivial, trivial, trivial, trivial⟩

theorem Inv.typed (h : Inv s 0) (hf : (s.proc p).ofile fd = some f) : (s.file f).type ≠ .none := by
  intro hnone
  have hzero := (h.free f).2 hnone
  have hpos := h.ref_pos hf
  omega

theorem sysRead_spec (h : Inv s 0) (fd : Int) (dev : Int → Bool) (io : Int) :
    wp (sysRead p fd dev io) Never (fun _ t => Inv t 0) s := by
  refine wp_seq (argfd_spec p fd s) ?_
  rintro (_ | ⟨fd, f⟩) _ ⟨rfl, hfd⟩
  · exact h
  have htyped := h.typed (hfd _ rfl)
  simp only [fileread, wp_bind, wp_gets]
  split
  · exact h
  · split
    · exact h
    · exact h
    · split
      · exact h.seek _
      · exact h
    · exact absurd ‹_› htyped

theorem filewriteLoop_spec (n : Nat) (io : Nat → Int) (fuel i : Nat) (h : Inv s x) :
    wp (filewriteLoop f n io fuel i) Never (fun _ t => Inv t x) s := by
  induction fuel generalizing s i with
  | zero => exact h
  | succ fuel ih =>
    simp only [filewriteLoop]
    split
    · split
      · rw [wp_bind, setFile, wp_modify]
        split
        · exact h.seek _
        · exact ih _ (h.seek _)
      · split
        · exact h
        · exact ih _ h
    · exact h

theorem sysWrite_spec (h : Inv s 0) (fd n : Int) (dev : Int → Bool) (io : Nat → Int) :
    wp (sysWrite p fd n dev io) Never (fun _ t => Inv t 0) s := by
  refine wp_seq (argfd_spec p fd s) ?_
  rintro (_ | ⟨fd, f⟩) _ ⟨rfl, hfd⟩
  · exact h
  have htyped := h.typed (hfd _ rfl)
  simp only [filewrite, wp_bind, wp_gets]
  split
  · exact h
  · split
    · exact h
    · exact h
    · exact wp_seq (filewriteLoop_spec _ io _ _ h) fun _ t ht => ht
    · exact absurd ‹_› htyped

/-! ## Opening -/

theorem filealloc_spec (s : St) : wp filealloc Never
    (fun r t => (r = none ∧ t = s) ∨ ∃ f, r = some f ∧ (s.file f).ref = 0 ∧
      t = s.putFile f { s.file f with ref := 1 }) s := by
  rw [filealloc, wp_bind, wp_gets]
  split
  · rename_i f hfind
    have hfree := List.find?_some hfind
    exact .inr ⟨f, rfl, of_decide_eq_true hfree, rfl⟩
  · exact .inl ⟨rfl, rfl⟩

/-- A file that has been allocated and not opened is given back as it was. -/
theorem fileclose_blank (href : (s.file f).ref = 0) (htype : (s.file f).type = .none) :
    wp (fileclose f) Never (fun _ t => t = s) (s.putFile f { s.file f with ref := 1 }) := by
  have hback : ({ s.file f with ref := 0, type := .none } : File) = s.file f := by
    rw [← href, ← htype]
  rw [fileclose, wp_bind, wp_gets, St.putFile_self, if_neg (show ¬ (1 : Int) < 1 by decide),
    if_neg (show ¬ (1 : Int) - 1 > 0 by decide), wp_bind, closeObj, htype, if_neg (by decide),
    if_neg (by simp)]
  change St.putFile _ f _ = s
  rw [St.putFile_putFile, St.putFile_self]
  exact (congrArg (s.putFile f) hback).trans (s.putFile_eq_self f)

theorem asInode_ref (z : File) (y : Found) (omode : Nat) : (z.asInode y omode).ref = z.ref := by
  unfold File.asInode
  split <;> rfl

theorem asInode_type (z : File) (y : Found) (omode : Nat) : (z.asInode y omode).type ≠ .none := by
  unfold File.asInode
  split <;> nofun

theorem asInode_obj (z : File) (y : Found) (omode : Nat) :
    (z.asInode y omode).obj = .inode y.ip := by
  unfold File.asInode
  split <;> rfl

theorem sysOpen_spec (h : Inv s 0) (hp : ¬ (s.proc p).Idle) (path : Option Found) (omode : Nat) :
    wp (sysOpen p path omode) Never (fun _ t => Inv t 0) s := by
  cases path with
  | none => exact h
  | some y =>
    rw [sysOpen]
    split
    · exact h
    refine wp_seq (filealloc_spec s) ?_
    rintro _ _ (⟨rfl, rfl⟩ | ⟨f, rfl, hf, rfl⟩)
    · exact h
    refine wp_seq (fdalloc_spec p f _) ?_
    rintro _ _ (⟨rfl, rfl⟩ | ⟨fd, rfl, hnone, rfl⟩)
    · refine wp_seq (fileclose_blank hf ((h.free f).1 hf)) ?_
      rintro _ _ rfl
      exact h
    -- The descriptor and the file are set one after the other, in independent parts of the state.
    have hinv : Inv (s.putOfile p fd (some f)) (0 - one f) := h.install hnone hp
    simp only [openFile, wp_bind, setFile, wp_modify]
    have hstate : ∀ z : File, (((s.putFile f { s.file f with ref := 1 }).putOfile p fd
        (some f)).putFile f z) = (s.putOfile p fd (some f)).putFile f z := fun z =>
      St.putFile_putFile (s.putOfile p fd (some f)) f { s.file f with ref := 1 } z
    have hself : ((s.putFile f { s.file f with ref := 1 }).putOfile p fd (some f)).file f =
        { s.file f with ref := 1 } := s.putFile_self f _
    rw [hstate, hself, noteOpen, wp_modify, St.putFile_self, St.putFile_openAs]
    have hopen := hinv.opens (o := .inode y.ip) hf (asInode_ref _ y omode) (asInode_type _ y omode)
      (asInode_obj { s.file f with ref := 1 } y omode)
    rw [sub_add_cancel] at hopen
    exact hopen

/-- Both files of a pipe are opened; what is written to the first before the second does not
matter. -/
theorem openPipe_spec {f₀ f₁ : Fp} {pi : Nat} (h : Inv s x) (hf₀ : (s.file f₀).ref = 0)
    (hf₁ : (s.file f₁).ref = 0) (hne : f₁ ≠ f₀) : wp (openPipe f₀ f₁ pi) Never
      (fun _ t => Inv t (x + one f₀ + one f₁) ∧ t.proc = s.proc)
      ((s.putFile f₀ { s.file f₀ with ref := 1 }).putFile f₁ { s.file f₁ with ref := 1 }) := by
  have ha : ({ s.file f₀ with ref := 1 } : File).ref = 1 := rfl
  have hb : ({ s.file f₁ with ref := 1 } : File).ref = 1 := rfl
  generalize ({ s.file f₀ with ref := 1 } : File) = a at *
  generalize ({ s.file f₁ with ref := 1 } : File) = b at *
  have hinv₀ : Inv (s.openAs f₀ (a.asPipe pi false) (.pipe pi false)) (x + one f₀) :=
    h.opens hf₀ ha nofun rfl
  have hkeep : (s.openAs f₀ (a.asPipe pi false) (.pipe pi false)).file f₁ = s.file f₁ :=
    s.putFile_of_ne _ hne
  have hinv₁ := hinv₀.opens (y := b.asPipe pi true) (o := .pipe pi true) (hkeep ▸ hf₁) hb nofun rfl
  have hblank : ((s.putFile f₀ a).putFile f₁ b).file f₀ = a := by
    rw [St.putFile_of_ne _ _ hne.symm, St.putFile_self]
  simp only [openPipe, noteOpen, setFile, wp_bind, wp_modify, hblank, St.putFile_self,
    St.putFile_openAs, St.putFile_openAs_comm _ _ _ _ hne]
  exact ⟨hinv₁, rfl⟩

theorem pipealloc_spec (h : Inv s 0) (pi : Option Nat) : wp (pipealloc pi) Never
    (fun r t => t.proc = s.proc ∧ (r = none ∧ Inv t 0 ∨
      ∃ f₀ f₁, r = some (f₀, f₁) ∧ Inv t (0 + one f₀ + one f₁))) s := by
  refine wp_seq (filealloc_spec s) ?_
  rintro _ _ (⟨rfl, rfl⟩ | ⟨f₀, rfl, hf₀, rfl⟩)
  · exact ⟨rfl, .inl ⟨rfl, h⟩⟩
  refine wp_seq (filealloc_spec _) ?_
  rintro _ _ (⟨rfl, rfl⟩ | ⟨f₁, rfl, hf₁, rfl⟩)
  · refine wp_seq (fileclose_blank hf₀ ((h.free f₀).1 hf₀)) ?_
    rintro _ _ rfl
    exact ⟨rfl, .inl ⟨rfl, h⟩⟩
  have hne : f₁ ≠ f₀ := by
    rintro rfl
    rw [St.putFile_self] at hf₁
    exact absurd hf₁ (show (1 : Int) ≠ 0 by decide)
  rw [St.putFile_of_ne _ _ hne] at hf₁ ⊢
  cases pi with
  | none =>
    -- Both files are given back as they were.
    rw [St.putFile_comm _ _ _ hne]
    have hkeep := s.putFile_of_ne { s.file f₁ with ref := 1 } hne.symm
    have hblank := fileclose_blank (f := f₀) (s := s.putFile f₁ { s.file f₁ with ref := 1 })
      (hkeep ▸ hf₀) (hkeep ▸ (h.free f₀).1 hf₀)
    rw [hkeep] at hblank
    refine wp_seq hblank ?_
    rintro _ _ rfl
    refine wp_seq (fileclose_blank hf₁ ((h.free f₁).1 hf₁)) ?_
    rintro _ _ rfl
    exact ⟨rfl, .inl ⟨rfl, h⟩⟩
  | some pi =>
    refine wp_seq (openPipe_spec h hf₀ hf₁ hne) ?_
    rintro _ t ⟨ht, hproc⟩
    exact ⟨hproc, .inr ⟨f₀, f₁, rfl, ht⟩⟩

theorem closePipe_spec {f₀ f₁ : Fp} (h : Inv s (0 + one f₀ + one f₁)) :
    wp (do fileclose f₀; fileclose f₁; pure (-1 : Int)) Never (fun _ t => Inv t 0) s := by
  have hpos : ∀ {t : St} {y : Fp → Int} {g : Fp}, Inv t y → 1 ≤ y g → 1 ≤ (t.file g).ref := by
    intro t y g ht hy
    rw [ht.ref g]
    omega
  have hone : ∀ g g' : Fp, 0 ≤ one g g' ∧ one g g = 1 := by
    intro g g'
    unfold one
    exact ⟨by split <;> decide, if_pos rfl⟩
  have h₀ : 1 ≤ (0 + one f₀ + one f₁) f₀ := by
    have h₁ := (hone f₁ f₀).1
    have h₂ := (hone f₀ f₀).2
    simp only [Pi.add_apply, Pi.zero_apply]
    omega
  refine wp_seq (h.fileclose_spec (hpos h h₀)) ?_
  rintro _ t ⟨ht, -⟩
  rw [add_right_comm, add_sub_cancel_right] at ht
  have h₁ : 1 ≤ (0 + one f₁) f₁ := by
    simp only [Pi.add_apply, Pi.zero_apply, (hone f₁ f₁).2]
    decide
  refine wp_seq (ht.fileclose_spec (hpos ht h₁)) ?_
  rintro _ u ⟨hu, -⟩
  rw [add_sub_cancel_right] at hu
  exact hu

theorem sysPipe_spec (h : Inv s 0) (hp : ¬ (s.proc p).Idle) (pi : Option Nat) (copied : Bool) :
    wp (sysPipe p pi copied) Never (fun _ t => Inv t 0) s := by
  refine wp_seq (pipealloc_spec h pi) ?_
  rintro _ t ⟨hproc, ⟨rfl, ht⟩ | ⟨f₀, f₁, rfl, ht⟩⟩
  · exact ht
  rw [← hproc] at hp
  refine wp_seq (fdalloc_spec p f₀ t) ?_
  rintro _ _ (⟨rfl, rfl⟩ | ⟨fd₀, rfl, hnone₀, rfl⟩)
  · exact closePipe_spec ht
  have ht₀ := ht.install (f := f₀) hnone₀ hp
  refine wp_seq (fdalloc_spec p f₁ _) ?_
  rintro _ _ (⟨rfl, rfl⟩ | ⟨fd₁, rfl, hnone₁, rfl⟩)
  · have hback := ht₀.uninstall (t.putOfile_self p fd₀ (some f₀))
    rw [sub_add_cancel] at hback
    exact closePipe_spec hback
  have hp₀ : ¬ ((t.putOfile p fd₀ (some f₀)).proc p).Idle := by
    rw [Proc.Idle, St.putOfile_state]
    exact hp
  have ht₁ := ht₀.install (f := f₁) hnone₁ hp₀
  cases copied with
  | true =>
    rw [add_right_comm, add_sub_cancel_right, add_sub_cancel_right] at ht₁
    exact ht₁
  | false =>
    have hne : fd₁ ≠ fd₀ := by
      rintro rfl
      rw [St.putOfile_self] at hnone₁
      cases hnone₁
    have hfd₀ : (((t.putOfile p fd₀ (some f₀)).putOfile p fd₁ (some f₁)).proc p).ofile fd₀ =
        some f₀ := by
      rw [St.putOfile_of_ne _ _ _ hne.symm, St.putOfile_self]
    have hfd₁ : ((((t.putOfile p fd₀ (some f₀)).putOfile p fd₁ (some f₁)).putOfile p fd₀
        none).proc p).ofile fd₁ = some f₁ := by
      rw [St.putOfile_of_ne _ _ _ hne, St.putOfile_self]
    have hback' := (ht₁.uninstall hfd₀).uninstall hfd₁
    rw [show (0 + one f₀ + one f₁ - one f₀ - one f₁ + one f₀ + one f₁ : Fp → Int) =
      0 + one f₀ + one f₁ by abel] at hback'
    exact closePipe_spec hback'

/-! ## Processes -/

theorem Inv.putProc (h : Inv s x) {y : Proc} (hofile : y.ofile = (s.proc p).ofile)
    (hidle : y.Idle → ∀ fd, y.ofile fd = none) : Inv (s.putProc p y) x := by
  have hself : ∀ q, q = p → (s.putProc p y).proc q = y := by
    rintro q rfl
    exact update_self _ _ _
  have hother : ∀ q, q ≠ p → (s.putProc p y).proc q = s.proc q := fun q hq =>
    update_of_ne hq _ _
  refine h.congr (fun _ => ⟨rfl, rfl, rfl, rfl⟩) (fun q => ?_) (fun q hq fd => ?_) rfl rfl
  · by_cases hqp : q = p
    · rw [hself q hqp, hofile, hqp]
    · rw [hother q hqp]
  · by_cases hqp : q = p
    · rw [hself q hqp] at hq
      rw [hqp, ← hofile]
      exact hidle hq fd
    · rw [hother q hqp] at hq
      exact h.idle q hq fd

theorem freeproc_spec (h : Inv s x) (hq : ∀ fd, (s.proc q).ofile fd = none) :
    wp (freeproc q) Never (fun _ t => Inv t x) s :=
  h.putProc rfl fun _ => hq

/-- The loop of `fork` gives the child the descriptors that it has not got yet. -/
theorem forkFiles_spec {l : List (Fin NOFILE)} (hl : l.Nodup) (h : Inv s 0)
    (hq : ¬ (s.proc q).Idle) (hnone : ∀ fd ∈ l, (s.proc q).ofile fd = none) :
    wp (forkFiles p q l) Never (fun _ t => Inv t 0 ∧ (t.proc q).state = (s.proc q).state) s := by
  induction l generalizing s with
  | nil => exact ⟨h, rfl⟩
  | cons fd l ih =>
    rcases List.nodup_cons.1 hl with ⟨hfd, hl⟩
    rw [forkFiles, wp_bind, wp_gets]
    split
    · exact ih hl h hq fun gd hgd => hnone gd (List.mem_cons_of_mem _ hgd)
    · rename_i f hf
      refine wp_seq (h.filedup_spec (h.ref_pos hf)) ?_
      rintro _ t ⟨ht, hproc⟩
      rw [← hproc] at hq hnone ⊢
      have hinv := ht.install (f := f) (hnone fd List.mem_cons_self) hq
      rw [add_sub_cancel_right] at hinv
      rw [wp_bind, ← St.putOfile_state t q q fd (some f)]
      refine ih hl hinv ?_ fun gd hgd => ?_
      · rw [Proc.Idle, St.putOfile_state]
        exact hq
      · rw [St.putOfile_of_ne _ _ _ (ne_of_mem_of_not_mem hgd hfd)]
        exact hnone gd (List.mem_cons_of_mem _ hgd)

theorem allocproc_spec (h : Inv s 0) (mem : Bool) : wp (allocproc mem) Never
    (fun r t => Inv t 0 ∧ ∀ q, r = some q → (t.proc q).state = .USED ∧
      ∀ fd, (t.proc q).ofile fd = none) s := by
  rw [allocproc, wp_bind, wp_gets]
  split
  · exact ⟨h, nofun⟩
  · rename_i q hfind
    have hfound := List.find?_some hfind
    have hnone := h.idle q (.inl (of_decide_eq_true hfound))
    have hused : Inv (s.putProc q { s.proc q with state := .USED }) 0 := h.putProc rfl nofun
    have hself : (s.putProc q { s.proc q with state := .USED }).proc q =
      { s.proc q with state := .USED } := update_self _ _ _
    rw [wp_bind, setProc, wp_modify]
    cases mem with
    | true =>
      refine ⟨hused, fun r hr => ?_⟩
      cases hr
      rw [hself]
      exact ⟨rfl, hnone⟩
    | false =>
      refine wp_seq (freeproc_spec hused fun fd => ?_) fun _ t ht => ⟨ht, nofun⟩
      rw [hself]
      exact hnone fd

theorem fork_spec (h : Inv s 0) (mem copied : Bool) :
    wp (fork p mem copied) Never (fun _ t => Inv t 0) s := by
  refine wp_seq (allocproc_spec h mem) ?_
  rintro (_ | q) t ⟨ht, hq⟩
  · exact ht
  rcases hq q rfl with ⟨hstate, hnone⟩
  cases copied with
  | false =>
    refine wp_seq (freeproc_spec ht hnone) ?_
    exact fun _ u hu => hu
  | true =>
    refine wp_seq (forkFiles_spec (List.nodup_finRange _) ht ?_ fun fd _ => hnone fd) ?_
    · rw [Proc.Idle, hstate]
      nofun
    rintro _ u ⟨hu, hstate'⟩
    rw [hstate] at hstate'
    have hparent : Inv (u.putProc q { u.proc q with parent := some p }) 0 := by
      refine hu.putProc rfl fun hidle => ?_
      simp only [Proc.Idle, hstate', reduceCtorEq, or_self] at hidle
    exact hparent.putProc rfl nofun

/-- The loop of `exit` clears the descriptors it goes through. -/
theorem exitFiles_spec {l : List (Fin NOFILE)} (h : Inv s 0) : wp (exitFiles p l) Never
    (fun _ t => Inv t 0 ∧ ∀ fd, (s.proc p).ofile fd = none ∨ fd ∈ l → (t.proc p).ofile fd = none)
    s := by
  induction l generalizing s with
  | nil => exact ⟨h, fun fd hfd => hfd.resolve_right List.not_mem_nil⟩
  | cons fd l ih =>
    rw [exitFiles, wp_bind, wp_gets]
    split
    · rename_i hnone
      refine wp_post (ih h) fun _ t ⟨ht, hfds⟩ => ⟨ht, fun gd hgd => hfds gd ?_⟩
      rcases hgd with hgd | hgd
      · exact .inl hgd
      · rcases List.mem_cons.1 hgd with rfl | hgd
        · exact .inl hnone
        · exact .inr hgd
    · rename_i f hf
      -- The reference goes first, and then the descriptor.
      refine wp_seq (h.fileclose_spec (h.ref_pos hf)) ?_
      rintro _ t ⟨ht, hproc⟩
      rw [← hproc] at hf ⊢
      have hinv := ht.uninstall hf
      rw [sub_add_cancel] at hinv
      rw [wp_bind, setOfile, wp_modify]
      refine wp_post (ih hinv) fun _ u ⟨hu, hfds⟩ =>
        ⟨hu, fun gd hgd => hfds gd ?_⟩
      by_cases hgf : gd = fd
      · exact .inl (hgf ▸ t.putOfile_self p fd none)
      · rw [St.putOfile_of_ne _ _ _ hgf]
        exact hgd.imp_right fun hmem => (List.mem_cons.1 hmem).resolve_left hgf

theorem exit_spec (h : Inv s 0) :
    wp (exit p) (fun e => e = .initExiting) (fun _ t => Inv t 0) s := by
  rw [exit]
  split
  · exact rfl
  refine wp_call (exitFiles_spec h) ?_ fun _ he => False.elim he
  rintro _ t ⟨ht, hfds⟩
  have hkeep : ∀ q, ((if (t.proc q).parent = some p then { t.proc q with parent := some 0 }
      else t.proc q : Proc)).ofile = (t.proc q).ofile ∧
      ((if (t.proc q).parent = some p then { t.proc q with parent := some 0 }
        else t.proc q : Proc)).state = (t.proc q).state := by
    intro q
    split <;> exact ⟨rfl, rfl⟩
  have hreparent : Inv { t with
      proc := fun q => if (t.proc q).parent = some p then { t.proc q with parent := some 0 }
        else t.proc q } 0 := by
    refine ht.congr (fun _ => ⟨rfl, rfl, rfl, rfl⟩) (fun q => (hkeep q).1) (fun q hq fd => ?_)
      rfl rfl
    simp only [Proc.Idle, (hkeep q).2] at hq
    exact ht.idle q hq fd
  refine hreparent.putProc rfl fun _ fd => ?_
  exact (congrFun (hkeep p).1 fd).trans (hfds fd (.inr (List.mem_finRange fd)))

theorem wait_spec (h : Inv s 0) (copied : Bool) :
    wp (wait p copied) Never (fun _ t => Inv t 0) s := by
  rw [wait, wp_bind, wp_gets]
  split
  · exact h
  · rename_i q hfind
    have hfound := List.find?_some hfind
    have hzombie := (of_decide_eq_true hfound).2
    split
    · exact wp_seq (freeproc_spec h (h.idle q (.inr hzombie))) fun _ t ht => ht
    · exact h

/-! ## Whole runs -/

theorem call_spec (h : Inv s 0) (hp : (s.proc p).state = .RUNNABLE) (c : Call) :
    wp (c.run p) (fun e => e = .initExiting) (fun _ t => Inv t 0) s := by
  have hlive : ¬ (s.proc p).Idle := by
    rw [Proc.Idle, hp]
    nofun
  have hnever : ∀ {m : M Int}, wp m Never (fun _ t => Inv t 0) s →
      wp m (fun e => e = .initExiting) (fun _ t => Inv t 0) s := fun hm =>
    wp_mono hm (fun _ he => he.elim) fun _ _ ht => ht
  cases c with
  | «open» path omode => exact hnever (sysOpen_spec h hlive path omode)
  | pipe pi copied => exact hnever (sysPipe_spec h hlive pi copied)
  | dup fd => exact hnever (sysDup_spec h hlive fd)
  | close fd => exact hnever (sysClose_spec h fd)
  | read fd dev io => exact hnever (sysRead_spec h fd dev io)
  | write fd n dev io => exact hnever (sysWrite_spec h fd n dev io)
  | fork mem copied => exact hnever (fork_spec h mem copied)
  | exit => exact exit_spec h
  | wait copied => exact hnever (wait_spec h copied)

theorem inv_boot : Inv boot 0 := by
  have hnone : ∀ p, (boot.proc p).ofile = fun _ => none := by
    intro p
    simp only [boot, update_apply]
    split <;> rfl
  refine ⟨fun f => ?_, fun f => iff_of_true rfl rfl, fun p _ fd => congrFun (hnone p) fd,
    fun f hf => absurd rfl hf, fun f g hf => absurd rfl hf, List.nodup_nil, nofun, nofun⟩
  have hzero : pointers (ptr boot) f = 0 :=
    pointers_eq_zero_iff.2 fun a ha => by
      rw [ptr, hnone a.1] at ha
      cases ha
  rw [hzero]
  rfl

theorem inv_of_reaches (h : Reaches step anyStep boot s) : Inv s 0 := by
  refine h.invariant (P := fun s => Inv s 0) inv_boot fun s a t hs _ hstep => ?_
  unfold step at hstep
  split at hstep
  · rename_i hrun
    cases hc : a.2.run a.1 s with
    | ok r u =>
      rw [hc] at hstep
      cases hstep
      have hspec := of_wp (call_spec hs hrun a.2) hc
      exact hspec
    | error e =>
      rw [hc] at hstep
      cases hstep
  · cases hstep

/-- After any calls, also ones that failed, a file has as many references as there are descriptors
for it.  What has been opened has been closed once if there is no descriptor for it any more, and
not at all otherwise.  No further call comes to a panic of the file table. -/
theorem ftable_of_reaches (h : Reaches step anyStep boot s) :
    (∀ f, (s.file f).ref = Fintype.card { a : Slot × Fin NOFILE //
      (s.proc a.1).state ≠ .UNUSED ∧ (s.proc a.1).ofile a.2 = some f }) ∧
    (∀ f, (s.file f).ref = 0 → (s.file f).type = .none) ∧
    (∀ p, (s.proc p).state = .UNUSED → ∀ fd, (s.proc p).ofile fd = none) ∧
    (s.closed.map Prod.fst).Nodup ∧
    (∀ k o, (k, o) ∈ s.closed → s.opened[k]? = some o) ∧
    (∀ p fd f, (s.proc p).ofile fd = some f → s.opened[(s.file f).serial]? = some (s.file f).obj) ∧
    (∀ k, k < s.opened.length → (k ∈ s.closed.map Prod.fst ↔
      ∀ p fd f, (s.proc p).ofile fd = some f → (s.file f).serial ≠ k)) ∧
    ∀ (p : Slot) (c : Call) (e : Panic), (s.proc p).state = .RUNNABLE → c.run p s = .error e →
      e = .initExiting := by
  have hinv := inv_of_reaches h
  have hlive : ∀ f, (s.file f).ref ≠ 0 ↔ ∃ p fd, (s.proc p).ofile fd = some f := by
    intro f
    rw [hinv.ref f, Pi.zero_apply, Int.add_zero]
    constructor
    · intro hne
      rcases pointers_pos_iff.1 (Nat.pos_of_ne_zero fun hzero => hne (by rw [hzero]; rfl)) with
        ⟨⟨p, fd⟩, hf⟩
      exact ⟨p, fd, hf⟩
    · rintro ⟨p, fd, hf⟩
      have hpos : 0 < pointers (ptr s) f := pointers_pos_iff.2 ⟨(p, fd), hf⟩
      omega
  refine ⟨fun f => ?_, fun f => (hinv.free f).1, fun p hp => hinv.idle p (.inl hp), hinv.once,
    fun k o hc => hinv.made _ hc, fun p fd f hf => hinv.obj f ((hlive f).2 ⟨p, fd, hf⟩),
    fun k hk => ?_, fun p c e hp he => ?_⟩
  · have hset : (Finset.univ.filter fun a => ptr s a = some f) =
        Finset.univ.filter fun a : Slot × Fin NOFILE =>
          (s.proc a.1).state ≠ .UNUSED ∧ (s.proc a.1).ofile a.2 = some f := by
      refine Finset.filter_congr fun a _ => ⟨fun ha => ⟨fun hunused => ?_, ha⟩, And.right⟩
      rw [ptr, hinv.idle a.1 (.inl hunused)] at ha
      cases ha
    rw [hinv.ref f, Pi.zero_apply, Int.add_zero, pointers, hset, Fintype.card_subtype]
  · rw [hinv.gone k hk]
    constructor
    · intro hgone p fd f hf
      exact hgone f ((hlive f).2 ⟨p, fd, hf⟩)
    · intro hgone f hf
      rcases (hlive f).1 hf with ⟨p, fd, hf⟩
      exact hgone p fd f hf
  · have hspec := of_wp_error (call_spec hinv hp c) he
    exact hspec

/-- A pipe is shared with a child, the parent closes the read end, and the child exits. -/
def sharedPipe : List (Slot × Call) :=
  [(0, .pipe (some 7) true), (0, .fork true true), (0, .close 0), (1, .exit)]

theorem ftable_of_reaches_shared_pipe : ∃ s, run step boot sharedPipe = some s ∧
    s.closed = [(0, .pipe 7 false)] ∧ (s.file 1).ref = 1 ∧
    (s.file 1).ref = Fintype.card { a : Slot × Fin NOFILE //
      (s.proc a.1).state ≠ .UNUSED ∧ (s.proc a.1).ofile a.2 = some 1 } := by
  have heval : (run step boot sharedPipe).any fun s =>
      decide (s.closed = [(0, .pipe 7 false)] ∧ (s.file 1).ref = 1) := by
    decide +kernel
  rcases exists_of_any heval with ⟨s, hs, hclosed, href⟩
  exact ⟨s, hs, hclosed, href, (ftable_of_reaches (.of_run_any hs)).1 1⟩

end Xv6.Ftable
