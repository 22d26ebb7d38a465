import Mathlib.Algebra.Order.BigOperators.Group.Finset
import Mathlib.Algebra.Order.Group.Int
import Xv6.Fs.Names
import Xv6.Lib.Families

/-!
# Files — open files, current directories and the references they hold

The invariant of the states between calls.  The calls that leave the tree alone, but for inodes
that the last reference frees, are specified here.
-/

namespace Xv6.Fs

open Lib Prog Volume
open Function (update update_of_ne update_self)

variable {sb : Superblock} {s t u : St} {p : Slot} {q : Ip} {f : Fp}

/-! ## References -/

/-- Whether a file is open on entry `q` of the inode table. -/
def File.on (x : File) (q : Ip) : Int :=
  if x.type ≠ .none ∧ x.ip = q then 1 else 0

/-- Whether entry `q` is a process's current directory. -/
def Proc.in (x : Proc) (q : Ip) : Int :=
  if x.cwd = some q then 1 else 0

/-- The references to entry `q` that open files and processes hold. -/
def uses (s : St) (q : Ip) : Int :=
  ∑ f, (s.ftable f).on q + ∑ p, (s.proc p).in q

theorem on_nonneg (x : File) (q : Ip) : 0 ≤ x.on q := by
  unfold File.on
  split <;> omega

theorem in_nonneg (x : Proc) (q : Ip) : 0 ≤ x.in q := by
  unfold Proc.in
  split <;> omega

theorem on_le_uses (s : St) (f : Fp) (q : Ip) : (s.ftable f).on q ≤ uses s q := by
  have hf : (s.ftable f).on q ≤ ∑ g, (s.ftable g).on q :=
    Finset.single_le_sum (f := fun g => (s.ftable g).on q) (fun g _ => on_nonneg _ q)
      (Finset.mem_univ f)
  have hp : 0 ≤ ∑ p, (s.proc p).in q := Finset.sum_nonneg fun p _ => in_nonneg _ q
  unfold uses
  omega

theorem in_le_uses (s : St) (p : Slot) (q : Ip) : (s.proc p).in q ≤ uses s q := by
  have hp : (s.proc p).in q ≤ ∑ r, (s.proc r).in q :=
    Finset.single_le_sum (f := fun r => (s.proc r).in q) (fun r _ => in_nonneg _ q)
      (Finset.mem_univ p)
  have hf : 0 ≤ ∑ g, (s.ftable g).on q := Finset.sum_nonneg fun g _ => on_nonneg _ q
  unfold uses
  omega

theorem uses_setFile (s : St) (f : Fp) (x : File) (q : Ip) :
    uses { s with ftable := update s.ftable f x } q = uses s q + x.on q - (s.ftable f).on q := by
  have hsum := sum_update_add s.ftable (fun y => y.on q) f x
  unfold uses
  simp only
  omega

theorem uses_setProc (s : St) (p : Slot) (x : Proc) (q : Ip) :
    uses { s with proc := update s.proc p x } q = uses s q + x.in q - (s.proc p).in q := by
  have hsum := sum_update_add s.proc (fun y => y.in q) p x
  unfold uses
  simp only
  omega

/-- The invariant between calls. -/
structure Inv (sb : Superblock) (s : St) : Prop where
  stable : Stable sb s
  refs : ∀ q, (s.itable q).ref = uses s q
  closed : ∀ f, (s.ftable f).ref = 0 → (s.ftable f).type = .none
  writable : ∀ f, (s.ftable f).type = .inode → (s.ftable f).writable = true →
    (s.itable (s.ftable f).ip).valid = true ∧ (s.itable (s.ftable f).ip).copy.type = .file
  settled : Settled s

namespace Inv

theorem file_ref (h : Inv sb s) (hf : (s.ftable f).type ≠ .none) :
    0 < (s.itable (s.ftable f).ip).ref := by
  have hle := on_le_uses s f (s.ftable f).ip
  rw [File.on, if_pos ⟨hf, rfl⟩] at hle
  rw [h.refs]
  omega

theorem cwd_ref (h : Inv sb s) (q : Ip) (hcwd : (s.proc p).cwd = some q) :
    0 < (s.itable q).ref := by
  have hle := in_le_uses s p q
  rw [Proc.in, if_pos hcwd] at hle
  rw [h.refs]
  omega

end Inv

/-- A call that only frees inodes without links. -/
structure Quiet (sb : Superblock) (s t : St) : Prop where
  inv : Inv sb t
  gen : t.gen = s.gen
  hist : t.hist = s.hist
  frees : Frees (s.vol.tree sb) (t.vol.tree sb)
  firm : Firm sb s → Firm sb t
  tended : Tended sb s → Tended sb t

namespace Quiet

theorem refl (h : Inv sb s) : Quiet sb s s :=
  ⟨h, rfl, rfl, .refl _, id, id⟩

theorem trans (h : Quiet sb s t) (h' : Quiet sb t u) : Quiet sb s u :=
  ⟨h'.inv, h'.gen.trans h.gen, h'.hist.trans h.hist, h.frees.trans h'.frees,
    fun hs => h'.firm (h.firm hs), fun hs => h'.tended (h.tended hs)⟩

theorem blame (h : Quiet sb s t) {e : Panic} (he : Blame sb t e) : Blame sb s e :=
  ⟨he.1, fun hno hfirm => he.2 hno (h.firm hfirm)⟩

end Quiet

/-! ## Changes beside the inode table -/

theorem Stable.frame (h : Stable sb s) (hvol : t.vol = s.vol) (htab : t.itable = s.itable) :
    Stable sb t := by
  refine ⟨hvol ▸ h.intact, ?_, ?_, ?_, ?_⟩ <;> rw [htab]
  · exact h.nonneg
  · exact h.unique
  · rw [hvol]
    exact h.coherent
  · exact h.typed

theorem Firm.frame (h : Firm sb s) (hvol : t.vol = s.vol) (htab : t.itable = s.itable) :
    Firm sb t := by
  refine h.of_frees (hvol ▸ .refl _) ?_
  rw [htab, hvol]
  exact h.table

theorem Tended.frame (h : Tended sb s) (hvol : t.vol = s.vol) (htab : t.itable = s.itable) :
    Tended sb t := by
  unfold Tended
  rw [htab, hvol]
  exact h

/-- From the references that a call has taken and what it has changed in the file table and in the
processes, the invariant of the state that it leaves. -/
theorem Inv.of_track {δ : Ip → Int} (h : Inv sb s) (ht : Track sb s t δ) (hvol : u.vol = t.vol)
    (htab : u.itable = t.itable) (huses : ∀ q, uses u q = uses s q + δ q)
    (hclosed : ∀ f, (u.ftable f).ref = 0 → (u.ftable f).type = .none)
    (hfiles : ∀ f, (u.ftable f).type = .inode → (u.ftable f).writable = true →
      ((s.ftable f).type = .inode ∧ (s.ftable f).writable = true ∧
        (u.ftable f).ip = (s.ftable f).ip) ∨
      (t.itable (u.ftable f).ip).valid = true ∧ (t.itable (u.ftable f).ip).copy.type = .file)
    (hsettled : ∀ q, ¬ 0 < (s.itable q).ref → 0 < δ q → (t.itable q).valid = true) :
    Inv sb u := by
  refine ⟨ht.stable.frame hvol htab, ?_, hclosed, ?_, ?_⟩
  · intro q
    rw [htab, ht.ref, huses, h.refs]
  · intro f htype hwritable
    rw [htab]
    rcases hfiles f htype hwritable with ⟨htype', hwritable', hip⟩ | hnew
    · rcases h.writable f htype' hwritable' with ⟨hvalid, hkind⟩
      have hpos := h.file_ref (f := f) (by rw [htype']; decide)
      rcases ht.valid _ hpos hvalid with ⟨hvalid', hkind'⟩
      rw [hip]
      exact ⟨hvalid', hkind'.trans hkind⟩
    · exact hnew
  · intro q hq
    rw [htab] at hq ⊢
    have href := ht.ref q
    by_cases hold : 0 < (s.itable q).ref
    · rcases h.settled q hold with hvalid | hinum
      · exact .inl (ht.valid q hold hvalid).1
      · exact .inr ((ht.inum q hold).trans hinum)
    · exact .inl (hsettled q hold (by omega))

theorem Inv.of_track_zero (h : Inv sb s) (ht : Track sb s t 0) : Inv sb t := by
  refine h.of_track ht rfl rfl (fun q => ?_) ?_ (fun f htype hwritable => .inl ?_) ?_
  · rw [uses, ht.ftable, ht.proc]
    exact (Int.add_zero _).symm
  · rw [ht.ftable]
    exact h.closed
  · rw [ht.ftable] at htype hwritable ⊢
    exact ⟨htype, hwritable, rfl⟩
  · intro q _ hq
    exact absurd hq (lt_irrefl _)

theorem Walk.quiet (h : Walk sb s t 0) (hi : Inv sb s) : Quiet sb s t :=
  ⟨hi.of_track_zero h.toTrack, h.gen, h.hist, h.frees, h.firm, h.tended⟩

/-- A change of the file table or of a process that takes and drops no reference. -/
theorem quiet_frame (h : Inv sb s) (hvol : t.vol = s.vol) (htab : t.itable = s.itable)
    (hgen : t.gen = s.gen) (hhist : t.hist = s.hist) (huses : ∀ q, uses t q = uses s q)
    (hclosed : ∀ f, (t.ftable f).ref = 0 → (t.ftable f).type = .none)
    (hfiles : ∀ f, (t.ftable f).type = .inode → (t.ftable f).writable = true →
      (s.ftable f).type = .inode ∧ (s.ftable f).writable = true ∧
        (t.ftable f).ip = (s.ftable f).ip) : Quiet sb s t :=
  ⟨h.of_track (.refl h.stable) hvol htab (fun q => (huses q).trans (Int.add_zero _).symm) hclosed
    (fun f ht hw => .inl (hfiles f ht hw)) (fun _ _ hq => absurd hq (lt_irrefl _)), hgen,
    hhist, hvol ▸ .refl _, fun hf => hf.frame hvol htab, fun ht => ht.frame hvol htab⟩

/-- A call that has taken `δ` references drops one that was held before it, and leaves the file
table and the processes such that the references add up. -/
theorem quiet_of_put {δ : Ip → Int} {x y : St} (h : Inv sb s) (hw : Walk sb s t δ)
    (hput : Put sb q x y) (hvol : x.vol = t.vol) (htab : x.itable = t.itable)
    (hgen : x.gen = t.gen) (hhist : x.hist = t.hist) (hvol' : u.vol = y.vol)
    (htab' : u.itable = y.itable) (hgen' : u.gen = y.gen) (hhist' : u.hist = y.hist)
    (huses : ∀ p, uses u p = uses s p + δ p - one q p)
    (hclosed : ∀ f, (u.ftable f).ref = 0 → (u.ftable f).type = .none)
    (hfiles : ∀ f, (u.ftable f).type = .inode → (u.ftable f).writable = true →
      (s.ftable f).type = .inode ∧ (s.ftable f).writable = true ∧ (u.ftable f).ip = (s.ftable f).ip)
    (hsettled : ∀ p, 0 < δ p → (t.itable p).valid = true) : Quiet sb s u := by
  have hrefs : ∀ p, (u.itable p).ref = uses u p := by
    intro p
    rw [htab', hput.ref, htab, hw.ref, huses, h.refs]
  refine ⟨⟨hput.stable.frame hvol' htab', hrefs, hclosed, ?_, ?_⟩, ?_, ?_, ?_, ?_, ?_⟩
  · intro f htype hwritable
    rcases hfiles f htype hwritable with ⟨htype', hwritable', hip⟩
    rcases h.writable f htype' hwritable' with ⟨hvalid, hkind⟩
    have hpos := h.file_ref (f := f) (by rw [htype']; decide)
    rcases hw.valid _ hpos hvalid with ⟨hvalid', hkind'⟩
    have hle := on_le_uses u f (u.ftable f).ip
    rw [File.on, if_pos ⟨by rw [htype]; decide, rfl⟩, ← hrefs, htab', hip] at hle
    rcases hput.valid (s.ftable f).ip (by omega) (by rw [htab]; exact hvalid') with ⟨hv, hk⟩
    rw [htab', hip]
    refine ⟨hv, ?_⟩
    rw [hk, htab, hkind', hkind]
  · intro p hp
    rw [htab'] at hp ⊢
    have href := hput.ref p
    have hone := one_nonneg q p
    rw [htab] at href
    have hpos : 0 < (t.itable p).ref := by omega
    by_cases hold : 0 < (s.itable p).ref
    · rcases h.settled p hold with hvalid | hinum
      · exact .inl (hput.valid p hp (by rw [htab]; exact (hw.valid p hold hvalid).1)).1
      · refine .inr ?_
        rw [hput.inum p (by rw [htab]; exact hpos), htab, hw.inum p hold, hinum]
    · have hδ : 0 < δ p := by
        have hr := hw.ref p
        omega
      exact .inl (hput.valid p hp (by rw [htab]; exact hsettled p hδ)).1
  · rw [hgen', hput.gen, hgen, hw.gen]
  · rw [hhist', hput.hist, hhist, hw.hist]
  · have hfrees := hput.frees
    rw [hvol] at hfrees
    rw [hvol']
    exact hw.frees.trans hfrees
  · exact fun hf => (hput.firm ((hw.firm hf).frame hvol htab)).frame hvol' htab'
  · exact fun ht => (hput.tended ((hw.tended ht).frame hvol htab)).frame hvol' htab'

/-! ## Descriptors -/

variable {x : File} {fd : Int} {src : Nat → Option UInt8}

/-- A file that is replaced without a change of what it refers to. -/
theorem quiet_setFile (h : Inv sb s) (hon : ∀ q, x.on q = (s.ftable f).on q)
    (hclosed : x.ref = 0 → x.type = .none)
    (hfile : x.type = .inode → x.writable = true →
      (s.ftable f).type = .inode ∧ (s.ftable f).writable = true ∧ x.ip = (s.ftable f).ip) :
    Quiet sb s { s with ftable := update s.ftable f x } := by
  refine quiet_frame h rfl rfl rfl rfl (fun q => ?_) ?_ ?_
  · rw [uses_setFile, hon]
    omega
  · intro g hg
    by_cases hgf : g = f
    · subst hgf
      simp only [update_self] at hg ⊢
      exact hclosed hg
    · simp only [update_of_ne hgf] at hg ⊢
      exact h.closed g hg
  · intro g htype hwritable
    by_cases hgf : g = f
    · subst hgf
      simp only [update_self] at htype hwritable ⊢
      exact hfile htype hwritable
    · simp only [update_of_ne hgf] at htype hwritable
      exact ⟨htype, hwritable, by simp only [update_of_ne hgf]⟩

theorem quiet_setProc {x : Proc} (h : Inv sb s) (hcwd : x.cwd = (s.proc p).cwd) :
    Quiet sb s { s with proc := update s.proc p x } := by
  refine quiet_frame h rfl rfl rfl rfl (fun q => ?_) h.closed fun f htype hwritable =>
    ⟨htype, hwritable, rfl⟩
  rw [uses_setProc, Proc.in, Proc.in, hcwd]
  omega

theorem on_of_open (h : x.type ≠ .none) (q : Ip) : x.on q = one x.ip q := by
  unfold File.on one
  by_cases hq : x.ip = q
  · rw [if_pos ⟨h, hq⟩, if_pos hq.symm]
  · rw [if_neg fun hx => hq hx.2, if_neg fun hx => hq hx.symm]

theorem on_of_closed (h : x.type = .none) (q : Ip) : x.on q = 0 := by
  rw [File.on, if_neg fun hx => hx.1 h]

theorem fileclose_spec (h : Inv sb s) :
    wp (fileclose sb f) Benign (fun _ t => Quiet sb s t ∧ t.proc = s.proc) s := by
  unfold fileclose
  rw [wp_bind, wp_gets]
  split
  · exact ⟨by simp, by simp⟩
  · rename_i href
    split
    · rename_i hmore
      refine ⟨quiet_setFile h (fun q => rfl) (fun hzero => ?_) fun htype hwritable =>
        ⟨htype, hwritable, rfl⟩, rfl⟩
      simp only at hzero
      omega
    · rw [wp_bind, setFile, wp_modify]
      have hclosed : ∀ g, (update s.ftable f
          { s.ftable f with ref := 0, type := .none } g).ref = 0 →
          (update s.ftable f { s.ftable f with ref := 0, type := .none } g).type = .none := by
        intro g hg
        by_cases hgf : g = f
        · subst hgf
          simp
        · simp only [update_of_ne hgf] at hg ⊢
          exact h.closed g hg
      have hfiles : ∀ g, (update s.ftable f
          { s.ftable f with ref := 0, type := .none } g).type = .inode →
          (update s.ftable f { s.ftable f with ref := 0, type := .none } g).writable = true →
          (s.ftable g).type = .inode ∧ (s.ftable g).writable = true ∧ (update s.ftable f
              { s.ftable f with ref := 0, type := .none } g).ip = (s.ftable g).ip := by
        intro g htype hwritable
        by_cases hgf : g = f
        · subst hgf
          simp at htype
        · simp only [update_of_ne hgf] at htype hwritable
          exact ⟨htype, hwritable, by rw [update_of_ne hgf]⟩
      have huses : ∀ q, uses { s with
          ftable := update s.ftable f { s.ftable f with ref := 0, type := .none } } q =
          uses s q - (s.ftable f).on q := by
        intro q
        rw [uses_setFile, on_of_closed rfl]
        omega
      split
      · rename_i htype
        have hopen : (s.ftable f).type ≠ .none := by
          rcases htype with ht | ht <;> rw [ht] <;> decide
        rw [wp_bind, beginOp, wp_modify]
        have hpos := h.file_ref hopen
        refine wp_seq (iput_spec ?_ hpos) ?_
        · exact h.stable.frame rfl rfl
        · intro _ t hput
          refine ⟨quiet_of_put h (.refl h.stable) hput rfl rfl rfl rfl rfl rfl rfl rfl
            ?_ ?_ ?_ ?_, ?_⟩
          · intro q
            have hsame := huses q
            rw [on_of_open hopen] at hsame
            rw [Pi.zero_apply, Int.add_zero, ← hsame]
            unfold uses
            simp only [hput.ftable, hput.proc]
          · simp only [hput.ftable]
            exact hclosed
          · simp only [hput.ftable]
            exact hfiles
          · intro q hq
            exact absurd hq (lt_irrefl _)
          · exact hput.proc
      · rename_i htype
        have hshut : (s.ftable f).type = .none := by
          cases hk : (s.ftable f).type <;> simp_all
        refine ⟨quiet_frame h rfl rfl rfl rfl (fun q => ?_) hclosed hfiles, rfl⟩
        have hsame := huses q
        rw [on_of_closed hshut] at hsame
        exact hsame.trans (Int.sub_zero _)

theorem argfd_spec {E : Panic → Prop} : wp (argfd p fd) E (fun r t => t = s ∧
      ∀ x, r = some x → (s.proc p).ofile x.1 = some x.2) s := by
  unfold argfd
  rw [wp_bind, wp_gets]
  split
  · refine ⟨rfl, ?_⟩
    rintro ⟨fd', g⟩ hx
    rcases Option.map_eq_some_iff.1 hx with ⟨g', hg', heq⟩
    cases heq
    exact hg'
  · exact ⟨rfl, fun x hx => by cases hx⟩

theorem fdalloc_spec {E : Panic → Prop} :
    wp (fdalloc p f) E (fun r t => r = none ∧ t = s ∨ ∃ fd, r = some fd ∧ t = { s with
      proc := update s.proc p { s.proc p with
        ofile := update (s.proc p).ofile fd (some f) } }) s := by
  unfold fdalloc
  rw [wp_bind, wp_gets]
  split
  · exact .inr ⟨_, rfl, rfl⟩
  · exact .inl ⟨rfl, rfl⟩

theorem filedup_spec (h : Inv sb s) :
    wp (filedup f) Benign (fun _ t => Quiet sb s t ∧ t.proc = s.proc ∧ t.itable = s.itable) s := by
  unfold filedup
  rw [wp_bind, wp_gets]
  split
  · exact ⟨by simp, by simp⟩
  · rename_i href
    refine ⟨quiet_setFile h (fun _ => rfl) (fun hzero => ?_) fun htype hwritable =>
      ⟨htype, hwritable, rfl⟩, rfl, rfl⟩
    simp only at hzero
    omega

theorem sysDup_spec (h : Inv sb s) : wp (sysDup p fd) (Blame sb s) (fun _ t => Quiet sb s t) s := by
  unfold sysDup
  refine wp_seq argfd_spec ?_
  rintro (_ | ⟨_, g⟩) t ⟨rfl, _⟩
  · exact .refl h
  · refine wp_seq fdalloc_spec ?_
    rintro _ u (⟨rfl, rfl⟩ | ⟨fd', rfl, rfl⟩)
    · exact .refl h
    · have hproc := quiet_setProc (p := p) (x := { t.proc p with
        ofile := update (t.proc p).ofile fd' (some g) }) h rfl
      refine wp_call (filedup_spec hproc.inv) ?_ fun _ he => he.blame sb t
      rintro _ v ⟨hdup, _⟩
      exact hproc.trans hdup

theorem sysClose_spec (h : Inv sb s) :
    wp (sysClose sb p fd) (Blame sb s) (fun _ t => Quiet sb s t) s := by
  unfold sysClose
  refine wp_seq argfd_spec ?_
  rintro (_ | ⟨fd', g⟩) t ⟨rfl, _⟩
  · exact .refl h
  · rw [wp_bind, setProc, wp_modify]
    have hproc := quiet_setProc (p := p) (x := { t.proc p with
      ofile := update (t.proc p).ofile fd' none }) h rfl
    refine wp_call (fileclose_spec hproc.inv) ?_ fun _ he => he.blame sb t
    rintro _ u ⟨hclose, _⟩
    exact hproc.trans hclose

/-! ## Reading and writing -/

/-- A valid copy is that of a file without holes, so reading it changes nothing. -/
theorem readi_of_stable (hs : Stable sb s) (hq : 0 < (s.itable q).ref)
    (hvalid : (s.itable q).valid = true) (dst : Nat → Bool) (off n : Nat) :
    ∃ r, readi sb q dst off n s = .ok r s := by
  have hcopy := hs.coherent q hq hvalid
  have hmapped : ∀ bn, bn * BSIZE < (s.itable q).copy.size →
      (s.eff sb q).held sb ((s.itable q).inum, slotOf bn) ≠ 0 := by
    intro bn hbn
    rw [hs.eff_eq hq hvalid]
    refine hs.intact.mapped _ ?_ bn ?_
    · rw [← hcopy]
      exact hs.typed q hq hvalid
    · rwa [← hcopy]
  rcases readi_total hmapped dst off n with ⟨r, hr, _⟩
  exact ⟨r, hr⟩

theorem quiet_setOff (h : Inv sb s) (hx : ∃ off, x = { s.ftable f with off := off }) :
    Quiet sb s { s with ftable := update s.ftable f x } := by
  rcases hx with ⟨off, rfl⟩
  exact quiet_setFile h (fun _ => rfl) (h.closed f) fun htype hwritable => ⟨htype, hwritable, rfl⟩

theorem offset_cases (c : Prop) [Decidable c] (x : File) (k : Nat) :
    ∃ off, (if c then { x with off := x.off + k } else x) = { x with off := off } := by
  split
  · exact ⟨_, rfl⟩
  · exact ⟨x.off, rfl⟩

theorem fileread_spec {dst : Nat → Bool} {n : Nat} {io : Int} (h : Inv sb s) :
    wp (fileread sb f dst n io) (Blame sb s) (fun _ t => Quiet sb s t) s := by
  unfold fileread
  rw [wp_bind, wp_gets]
  split
  · exact .refl h
  · split
    · exact ⟨by simp, by simp⟩
    · exact .refl h
    · refine wp_seq (ilock_blame (.refl h.stable)) ?_
      rintro _ t ⟨hlock, _, _, href, hvalid, _⟩
      have ht := hlock.quiet h
      rcases readi_of_stable hlock.stable (hlock.ref_pos href) hvalid dst (s.ftable f).off n
        with ⟨r, hr⟩
      rw [wp_bind, wp_of_eq hr, wp_bind, setFile, wp_modify]
      have hoff := quiet_setOff (f := f) ht.inv (offset_cases (r.1 > 0) (t.ftable f) r.1.toNat)
      refine wp_call (iunlock_spec hoff.inv.stable) ?_ fun _ he => he.blame sb s
      rintro _ u ⟨hunlock, _⟩
      exact (ht.trans hoff).trans (hunlock.quiet hoff.inv)

theorem filestat_spec {ok : Bool} (h : Inv sb s) :
    wp (filestat sb f ok) (Blame sb s) (fun _ t => Quiet sb s t) s := by
  unfold filestat
  rw [wp_bind, wp_gets]
  split
  · refine wp_seq (ilock_blame (.refl h.stable)) ?_
    rintro _ t ⟨hlock, _⟩
    rw [wp_bind, stati, wp_bind, wp_gets, wp_pure]
    refine wp_call (iunlock_spec hlock.stable) ?_ fun _ he => he.blame sb s
    rintro _ u ⟨hunlock, _⟩
    exact (hlock.still hunlock).quiet h
  · exact .refl h

/-- A write to a file is no change of the tree. -/
theorem Done.walk {off m tot : Nat} (hs : Stable sb s)
    (hq : 0 < (s.itable q).ref) (hvalid : (s.itable q).valid = true)
    (htype : (s.itable q).copy.type ≠ .dir) (h : Done sb q src off m tot s t) :
    Walk sb s t 0 := by
  refine (h.edit hs hq hvalid).walk ?_
  rcases h.bytes with ⟨l, hw, _⟩
  rw [hs.eff_eq hq hvalid] at hw
  rcases hw.same with ⟨addrs, size, hsame⟩
  rw [hs.coherent q hq hvalid] at htype
  refine tree_congr (by rw [hsame]) (by rw [hsame]) (fun hdir => absurd hdir htype)
    fun hdir => absurd hdir htype

theorem filewriteLoop_spec {n m i : Nat} (h : Inv sb s)
    (htype : (s.ftable f).type = .inode) (hwritable : (s.ftable f).writable = true) :
    wp (filewriteLoop sb f src n m i) (Blame sb s) (fun _ t => Quiet sb s t) s := by
  induction m generalizing s i with
  | zero => exact .refl h
  | succ m ih =>
    rw [filewriteLoop]
    split
    · simp only
      rw [wp_bind, beginOp, wp_modify, wp_bind, wp_gets]
      refine wp_seq (ilock_blame (walk_op h.stable (some ∅))) ?_
      rintro _ t ⟨hw, hlock, _, href, hvalid, _⟩
      have href' := hlock.ref_pos href
      have hfile : (t.itable (s.ftable f).ip).copy.type = .file := by
        rcases h.writable f htype hwritable with ⟨hv, hkind⟩
        exact (hw.valid _ href hv).2.trans hkind
      have hkind : (t.itable (s.ftable f).ip).copy.type ≠ .free := by rw [hfile]; decide
      refine wp_call (writei_spec (by rw [hw.stable.eff_eq href' hvalid]; exact hw.stable.intact)
        hkind fun hdir => absurd (hfile.symm.trans hdir) (by decide)) ?_ fun _ he => he.blame sb s
      intro r u hwrite
      have hu : Walk sb s u 0 := by
        rcases hwrite with ⟨_, rfl⟩ | ⟨tot, _, hdone⟩
        · exact hw
        · exact hw.still (hdone.walk hw.stable href' hvalid (by rw [hfile]; decide))
      have hq := hu.quiet h
      rw [wp_bind, setFile, wp_modify]
      have hoff := quiet_setOff (f := f) hq.inv (offset_cases (r > 0) (u.ftable f) r.toNat)
      refine wp_call (iunlock_spec hoff.inv.stable) ?_ fun _ he => he.blame sb s
      rintro _ v ⟨hunlock, _⟩
      rw [wp_bind, endOp, wp_modify]
      have hall := (hq.trans hoff).trans ((hunlock.op none).quiet hoff.inv)
      split
      · -- The file is still open for writing.
        have hsame : ∃ off, v.ftable f = { s.ftable f with off := off } := by
          rw [hunlock.ftable]
          simp only [update_self, hu.ftable]
          exact offset_cases _ _ _
        have hstill : (v.ftable f).type = .inode ∧ (v.ftable f).writable = true := by
          rcases hsame with ⟨off, hf⟩
          rw [hf]
          exact ⟨htype, hwritable⟩
        refine wp_mono (ih hall.inv hstill.1 hstill.2) (fun _ he => hall.blame he) ?_
        exact fun _ _ hrest => hall.trans hrest
      · exact hall
    · exact .refl h

theorem filewrite_spec {n io : Int} (h : Inv sb s) :
    wp (filewrite sb f src n io) (Blame sb s) (fun _ t => Quiet sb s t) s := by
  unfold filewrite
  rw [wp_bind, wp_gets]
  split
  · exact .refl h
  · rename_i hwritable
    split
    · exact ⟨by simp, by simp⟩
    · exact .refl h
    · rename_i htype
      rw [wp_bind]
      exact filewriteLoop_spec h htype (by simpa using hwritable)

end Xv6.Fs
