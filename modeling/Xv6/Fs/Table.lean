import Mathlib.Algebra.Group.Int.Defs
import Mathlib.Algebra.Group.Pi.Basic
import Mathlib.Tactic.Abel
import Xv6.Fs.Tree

/-!
# Table — references to inodes

The steps of a call that take and drop references and lock inodes.  They are described by how they
change the reference counts, and by the inodes that the last `iput` of a file without links frees.
-/

namespace Xv6.Fs

open Lib Prog Volume
open Function (update update_apply update_idem update_of_ne update_self)

attribute [local grind =] update_apply

variable {sb : Superblock} {s t u : St} {p q : Ip}

/-! ## Invariants -/

/-- The volume is intact, no inode has two entries in the table, and the copies are those of
allocated inodes as they are on the disk. -/
structure Stable (sb : Superblock) (s : St) : Prop where
  intact : s.vol.Intact sb
  nonneg : ∀ q, 0 ≤ (s.itable q).ref
  unique : ∀ p q, 0 < (s.itable p).ref → 0 < (s.itable q).ref →
    (s.itable p).inum = (s.itable q).inum → p = q
  coherent : ∀ q, 0 < (s.itable q).ref → (s.itable q).valid = true →
    (s.itable q).copy = s.vol.dip sb (s.itable q).inum
  typed : ∀ q, 0 < (s.itable q).ref → (s.itable q).valid = true → (s.itable q).copy.type ≠ .free

theorem Stable.eff_eq (h : Stable sb s) (href : 0 < (s.itable q).ref)
    (hvalid : (s.itable q).valid = true) : s.eff sb q = s.vol := by
  rw [St.eff, h.coherent q href hvalid, setDip_dip]

/-- Everything that is named or referred to is allocated, and only a directory's own `.` names an
inode without links. -/
structure Firm (sb : Superblock) (s : St) : Prop where
  named : ∀ d n e, s.vol.tree sb d = some n → e ∈ n.ents → e.inum ≠ 0 → s.vol.tree sb e.inum ≠ none
  zero : ∀ d n e m, s.vol.tree sb d = some n → e ∈ n.ents → s.vol.tree sb e.inum = some m →
    m.nlink = 0 → e.inum = d
  root : ∃ n, s.vol.tree sb ROOTINO = some n ∧ n.nlink ≠ 0
  table : ∀ q, 0 < (s.itable q).ref → s.vol.tree sb (s.itable q).inum ≠ none

/-- An inode without links is in the table with its copy valid, so that the last `iput` frees it. -/
def Tended (sb : Superblock) (s : St) : Prop :=
  ∀ i n, s.vol.tree sb i = some n → n.nlink = 0 →
    ∃ q, 0 < (s.itable q).ref ∧ (s.itable q).inum = i ∧ (s.itable q).valid = true

/-- The panics of a call that starts in `s`: no block is freed twice, and a free inode is locked
only if something named or referred to was not allocated. -/
def Blame (sb : Superblock) (s : St) (e : Panic) : Prop :=
  e ≠ .freeingFreeBlock ∧ (e = .ilockNoType → ¬ Firm sb s)

theorem Benign.blame {e : Panic} (h : Benign e) (sb : Superblock) (s : St) : Blame sb s e :=
  ⟨h.1, fun he => absurd he h.2⟩

/-- One reference to entry `q`. -/
def one (q : Ip) : Ip → Int :=
  fun p => if p = q then 1 else 0

/-- From `s` to `t` references have been taken, `δ` of them to each entry, and the entries in use
have stayed. -/
structure Track (sb : Superblock) (s t : St) (δ : Ip → Int) : Prop where
  stable : Stable sb t
  ftable : t.ftable = s.ftable
  proc : t.proc = s.proc
  hist : t.hist = s.hist
  nonneg : ∀ q, 0 ≤ δ q
  ref : ∀ q, (t.itable q).ref = (s.itable q).ref + δ q
  inum : ∀ q, 0 < (s.itable q).ref → (t.itable q).inum = (s.itable q).inum
  valid : ∀ q, 0 < (s.itable q).ref → (s.itable q).valid = true →
    (t.itable q).valid = true ∧ (t.itable q).copy.type = (s.itable q).copy.type

/-- Beside taking references, some inodes without links have been freed. -/
structure Walk (sb : Superblock) (s t : St) (δ : Ip → Int) : Prop extends Track sb s t δ where
  gen : t.gen = s.gen
  frees : Frees (s.vol.tree sb) (t.vol.tree sb)
  firm : Firm sb s → Firm sb t
  tended : Tended sb s → Tended sb t

namespace Track

variable {δ δ' : Ip → Int}

theorem refl (h : Stable sb s) : Track sb s s 0 :=
  ⟨h, rfl, rfl, rfl, fun _ => Int.le_refl _, fun _ => (Int.add_zero _).symm, fun _ _ => rfl,
    fun _ _ hvalid => ⟨hvalid, rfl⟩⟩

theorem ref_pos (h : Track sb s t δ) (hq : 0 < (s.itable q).ref) : 0 < (t.itable q).ref := by
  have href := h.ref q
  have hnonneg := h.nonneg q
  omega

theorem trans (h : Track sb s t δ) (h' : Track sb t u δ') : Track sb s u (δ + δ') := by
  refine ⟨h'.stable, h'.ftable.trans h.ftable, h'.proc.trans h.proc, h'.hist.trans h.hist, ?_, ?_,
    ?_, ?_⟩
  · exact fun q => Int.add_nonneg (h.nonneg q) (h'.nonneg q)
  · intro q
    have href := h.ref q
    have href' := h'.ref q
    simp only [Pi.add_apply]
    omega
  · intro q hq
    rw [h'.inum q (h.ref_pos hq), h.inum q hq]
  · intro q hq hvalid
    rcases h.valid q hq hvalid with ⟨hvalid', htype⟩
    rcases h'.valid q (h.ref_pos hq) hvalid' with ⟨hvalid'', htype'⟩
    exact ⟨hvalid'', htype'.trans htype⟩

theorem still (h : Track sb s t δ) (h' : Track sb t u 0) : Track sb s u δ :=
  add_zero δ ▸ h.trans h'

/-- A process keeps its current directory while its call runs. -/
theorem cwd {p : Slot} (h : Track sb s t δ)
    (hcwd : ∀ q, (s.proc p).cwd = some q → 0 < (s.itable q).ref) :
    ∀ q, (t.proc p).cwd = some q → 0 < (t.itable q).ref := by
  intro q hq
  rw [h.proc] at hq
  exact h.ref_pos (hcwd q hq)

end Track

namespace Walk

variable {δ δ' : Ip → Int}

theorem refl (h : Stable sb s) : Walk sb s s 0 :=
  ⟨.refl h, rfl, .refl _, id, id⟩

theorem trans (h : Walk sb s t δ) (h' : Walk sb t u δ') : Walk sb s u (δ + δ') :=
  ⟨h.toTrack.trans h'.toTrack, h'.gen.trans h.gen, h.frees.trans h'.frees,
    fun hs => h'.firm (h.firm hs), fun hs => h'.tended (h.tended hs)⟩

theorem still (h : Walk sb s t δ) (h' : Walk sb t u 0) : Walk sb s u δ :=
  add_zero δ ▸ h.trans h'

theorem blame (h : Walk sb s t δ) {e : Panic} (he : Blame sb t e) : Blame sb s e :=
  ⟨he.1, fun hno hfirm => he.2 hno (h.firm hfirm)⟩

theorem of_vol_eq (hs : Stable sb s) (hvol : t.vol = s.vol) (hftable : t.ftable = s.ftable)
    (hproc : t.proc = s.proc) (hgen : t.gen = s.gen) (hhist : t.hist = s.hist)
    (hnonneg : ∀ q, 0 ≤ δ q)
    (href : ∀ q, (t.itable q).ref = (s.itable q).ref + δ q)
    (hkeep : ∀ q, 0 < (s.itable q).ref → (t.itable q).inum = (s.itable q).inum ∧
      ((s.itable q).valid = true → (t.itable q).valid = true))
    (hunique : ∀ p q, 0 < (t.itable p).ref → 0 < (t.itable q).ref →
      (t.itable p).inum = (t.itable q).inum → p = q)
    (hvalid : ∀ q, 0 < (t.itable q).ref → (t.itable q).valid = true →
      (t.itable q).copy = s.vol.dip sb (t.itable q).inum ∧ (t.itable q).copy.type ≠ .free)
    (hfirm : Firm sb s → ∀ q, 0 < (t.itable q).ref → s.vol.tree sb (t.itable q).inum ≠ none) :
    Walk sb s t δ := by
  have hpos : ∀ q, 0 < (s.itable q).ref → 0 < (t.itable q).ref := by
    intro q hq
    have hnonneg := hnonneg q
    have href := href q
    omega
  refine ⟨⟨⟨hvol ▸ hs.intact, ?_, hunique, ?_, fun q hq hv => (hvalid q hq hv).2⟩, hftable, hproc,
    hhist, hnonneg, href, fun q hq => (hkeep q hq).1, ?_⟩, hgen, hvol ▸ .refl _, ?_, ?_⟩
  · intro q
    rw [href]
    exact Int.add_nonneg (hs.nonneg q) (hnonneg q)
  · intro q hq hv
    rw [hvol]
    exact (hvalid q hq hv).1
  · intro q hq hv
    have hv' := (hkeep q hq).2 hv
    refine ⟨hv', ?_⟩
    rw [(hvalid q (hpos q hq) hv').1, hs.coherent q hq hv, (hkeep q hq).1]
  · intro h
    refine ⟨?_, ?_, ?_, ?_⟩ <;> rw [hvol]
    · exact h.named
    · exact h.zero
    · exact h.root
    · exact hfirm h
  · intro h i n hi hn
    rw [hvol] at hi
    rcases h i n hi hn with ⟨q, hq, hinum, hv⟩
    exact ⟨q, hpos q hq, by rw [(hkeep q hq).1, hinum], (hkeep q hq).2 hv⟩

/-- An entry in use changes, and `n` references to it are taken. -/
theorem of_update {ip : Inode} {n : Int} (hs : Stable sb s) (hq : 0 < (s.itable q).ref)
    (hn : 0 ≤ n) (hinum : ip.inum = (s.itable q).inum) (href : ip.ref = (s.itable q).ref + n)
    (hkeep : (s.itable q).valid = true → ip.valid = true)
    (hvalid : ip.valid = true → ip.copy = s.vol.dip sb ip.inum ∧ ip.copy.type ≠ .free) :
    Walk sb s { s with itable := update s.itable q ip } (fun p => if p = q then n else 0) := by
  have hsame : ∀ p, (update s.itable q ip p).inum = (s.itable p).inum ∧
      (update s.itable q ip p).ref = (s.itable p).ref + (if p = q then n else 0) := by
    intro p
    grind
  have hpos : ∀ p, 0 < (update s.itable q ip p).ref → 0 < (s.itable p).ref := by
    intro p hp
    grind
  refine .of_vol_eq hs rfl rfl rfl rfl rfl (fun p => ?_) (fun p => (hsame p).2) ?_ ?_ ?_ ?_
  · split <;> omega
  · intro p hp
    refine ⟨(hsame p).1, fun hv => ?_⟩
    grind
  · intro a b ha hb hab
    rw [(hsame a).1, (hsame b).1] at hab
    exact hs.unique a b (hpos a ha) (hpos b hb) hab
  · intro p hp hv
    have hcoherent := hs.coherent p
    have htyped := hs.typed p
    grind
  · intro h p hp
    rw [(hsame p).1]
    exact h.table p (hpos p hp)

end Walk

/-! ## Taking references -/

theorem one_nonneg (q p : Ip) : 0 ≤ one q p := by
  unfold one
  split <;> omega

theorem walk_incr (hs : Stable sb s) (hq : 0 < (s.itable q).ref) : Walk sb s { s with
      itable := update s.itable q { s.itable q with ref := (s.itable q).ref + 1 } }
      (one q) :=
  .of_update hs hq (by omega) rfl rfl id fun hv => ⟨hs.coherent q hq hv, hs.typed q hq hv⟩

theorem idup_spec (hs : Stable sb s) (hq : 0 < (s.itable q).ref) :
    wp (idup q) Benign (fun r t => r = q ∧ Walk sb s t (one q) ∧ t.vol = s.vol) s :=
  ⟨rfl, walk_incr hs hq, rfl⟩

variable {i : Nat} {v : Volume} {o : Option (Finset Nat)} {type : FileType}

/-- `iget` finds the entry of the inode or takes an unused one. -/
theorem iget_spec (hs : Stable sb s) (hi : Firm sb s → s.vol.tree sb i ≠ none) :
    wp (iget i) Benign (fun q t => Walk sb s t (one q) ∧ (t.itable q).inum = i ∧
      t.vol = s.vol ∧ ∀ p, (t.itable p).lock = (s.itable p).lock) s := by
  unfold iget
  rw [wp_bind, wp_gets]
  cases hfind : (List.finRange NINODE).find? fun q =>
      decide (0 < (s.itable q).ref ∧ (s.itable q).inum = i) with
  | some q =>
    have hq := List.find?_some hfind
    simp only [decide_eq_true_eq] at hq
    refine ⟨walk_incr hs hq.1, by simp [hq.2], rfl, fun p => ?_⟩
    grind
  | none =>
    have hnone : ∀ q, 0 < (s.itable q).ref → (s.itable q).inum ≠ i := by
      intro q hq hinum
      have hnot := List.find?_eq_none.1 hfind q (List.mem_finRange q)
      simp [hq, hinum] at hnot
    simp only
    cases hfree : (List.finRange NINODE).find? fun q => decide ((s.itable q).ref = 0) with
    | none => exact ⟨by simp, by simp⟩
    | some q =>
      have hq := List.find?_some hfree
      simp only [decide_eq_true_eq] at hq
      have hother : ∀ p, 0 < (s.itable p).ref → p ≠ q := by
        rintro p hp rfl
        omega
      refine ⟨?_, by simp, rfl, fun p => ?_⟩
      · refine .of_vol_eq hs rfl rfl rfl rfl rfl (one_nonneg q) ?_ ?_ ?_ ?_ ?_
        · intro p
          grind [one]
        · intro p hp
          simp [update_of_ne (hother p hp)]
        · intro a b ha hb hab
          have hunique := hs.unique a b
          grind
        · intro p hp hv
          have hcoherent := hs.coherent p
          have htyped := hs.typed p
          grind
        · intro h p hp
          have htable := h.table p
          grind
      · grind

/-! ## Locking -/

/-- Locking reads the inode if the copy is not valid; a free inode is a panic. -/
theorem ilock_spec (hs : Stable sb s) : wp (ilock sb q)
      (fun e => e ≠ .freeingFreeBlock ∧ (e = .ilockNoType → 0 < (s.itable q).ref ∧
        (s.itable q).valid = false ∧ s.vol.tree sb (s.itable q).inum = none))
      (fun _ t => Walk sb s t 0 ∧ t.vol = s.vol ∧ 0 < (s.itable q).ref ∧
        (t.itable q).valid = true ∧ (s.itable q).lock = false ∧ (t.itable q).lock = true) s := by
  unfold ilock
  rw [wp_bind, wp_gets]
  split
  · exact ⟨by simp, by simp⟩
  · rename_i href
    have hq : 0 < (s.itable q).ref := by omega
    have hzero : (fun p => if p = q then (0 : Int) else 0) = (0 : Ip → Int) := by
      funext p
      simp
    split
    · exact ⟨by simp, by simp⟩
    · rename_i hlock
      rw [Bool.not_eq_true] at hlock
      split
      · rename_i hvalid
        refine ⟨hzero ▸ .of_update hs hq (Int.le_refl _) rfl (by simp) id fun hv =>
          ⟨hs.coherent q hq hv, hs.typed q hq hv⟩, rfl, hq, by simp [hvalid], hlock, by simp⟩
      · rename_i hvalid
        rw [wp_bind, wp_gets]
        split
        · rename_i hfree
          exact ⟨by simp, fun _ => ⟨hq, by simpa using hvalid, tree_eq_none_iff.2 hfree⟩⟩
        · rename_i htype
          refine ⟨hzero ▸ .of_update hs hq (Int.le_refl _) rfl (by simp) (fun _ => rfl)
            fun _ => ⟨rfl, htype⟩, rfl, hq, by simp, hlock, by simp⟩

theorem ilock_blame {δ : Ip → Int} (h : Walk sb s t δ) :
    wp (ilock sb q) (Blame sb s) (fun _ u => Walk sb s u δ ∧ Walk sb t u 0 ∧ u.vol = t.vol ∧
      0 < (t.itable q).ref ∧ (u.itable q).valid = true ∧ (t.itable q).lock = false ∧
      (u.itable q).lock = true) t := by
  refine wp_mono (ilock_spec h.stable) (fun e he => ⟨he.1, fun hno hfirm => ?_⟩)
    fun _ _ hl => ⟨h.still hl.1, hl⟩
  rcases he.2 hno with ⟨hq, _, hnone⟩
  exact (h.firm hfirm).table q hq hnone

theorem Dinode.same_self (d : Dinode) : d.same d = true := by
  simp [Dinode.same]

theorem noteStale_of_coherent (h : (s.itable q).valid = true →
      (s.itable q).copy = s.vol.dip sb (s.itable q).inum) :
    noteStale sb q s = .ok () s := by
  have hsame : ¬ ((s.itable q).valid = true ∧
      (s.itable q).copy.same (s.vol.dip sb (s.itable q).inum) = false) := by
    rintro ⟨hvalid, hne⟩
    rw [← h hvalid, Dinode.same_self] at hne
    cases hne
  unfold noteStale Prog.modify
  simp only [if_neg hsame, Nat.add_zero]

theorem iunlock_spec (hs : Stable sb s) :
    wp (iunlock sb q) Benign (fun _ t => Walk sb s t 0 ∧ t.vol = s.vol) s := by
  unfold iunlock
  rw [wp_bind, wp_gets]
  split
  · exact ⟨by simp, by simp⟩
  · rename_i hheld
    have hq : 0 < (s.itable q).ref := by
      rw [not_or] at hheld
      omega
    have hzero : (fun p => if p = q then (0 : Int) else 0) = (0 : Ip → Int) := by
      funext p
      simp
    rw [wp_bind, wp_of_eq (noteStale_of_coherent (hs.coherent q hq))]
    exact ⟨hzero ▸ .of_update hs hq (Int.le_refl _) rfl (by simp) id fun hv =>
      ⟨hs.coherent q hq hv, hs.typed q hq hv⟩, rfl⟩

/-! ## Dropping references -/

/-- From `s` to `t` one reference to entry `q` has been dropped. -/
structure Put (sb : Superblock) (q : Ip) (s t : St) : Prop where
  stable : Stable sb t
  ftable : t.ftable = s.ftable
  proc : t.proc = s.proc
  gen : t.gen = s.gen
  hist : t.hist = s.hist
  ref : ∀ p, (t.itable p).ref = (s.itable p).ref - one q p
  inum : ∀ p, 0 < (s.itable p).ref → (t.itable p).inum = (s.itable p).inum
  valid : ∀ p, 0 < (t.itable p).ref → (s.itable p).valid = true →
    (t.itable p).valid = true ∧ (t.itable p).copy.type = (s.itable p).copy.type
  frees : Frees (s.vol.tree sb) (t.vol.tree sb)
  firm : Firm sb s → Firm sb t
  tended : Tended sb s → Tended sb t

theorem Firm.of_frees (h : Firm sb s) (hf : Frees (s.vol.tree sb) (t.vol.tree sb))
    (ht : ∀ q, 0 < (t.itable q).ref → t.vol.tree sb (t.itable q).inum ≠ none) : Firm sb t := by
  refine ⟨?_, ?_, ?_, ht⟩
  · intro d n e hd he hne
    rcases Option.ne_none_iff_exists'.1 (h.named d n e (hf.of_some hd) he hne) with ⟨m, hm⟩
    intro hnone
    rcases hf e.inum with heq | ⟨_, m', hm', hzero⟩
    · rw [heq, hm] at hnone
      cases hnone
    · -- Only the directory itself could name the freed inode, and it is still there.
      have hself := h.zero d n e m' (hf.of_some hd) he hm' hzero
      rw [hself, hd] at hnone
      cases hnone
  · intro d n e m hd he hm
    exact h.zero d n e m (hf.of_some hd) he (hf.of_some hm)
  · rcases h.root with ⟨n, hn, hlink⟩
    exact ⟨n, hf.some_of_ne hn hlink, hlink⟩

/-- Entry `q` loses a reference; if it is still in use, the inode has stayed. -/
theorem put_of_update {ip : Inode} (hs : Stable sb s)
    (hq : 0 < (s.itable q).ref) (hinum : ip.inum = (s.itable q).inum)
    (href : ip.ref = (s.itable q).ref - 1) (hintact : v.Intact sb)
    (hkeep : 0 < ip.ref → ip.valid = (s.itable q).valid ∧ ip.copy = (s.itable q).copy)
    (hdip : ∀ p, 0 < (update s.itable q ip p).ref →
      v.dip sb (s.itable p).inum = s.vol.dip sb (s.itable p).inum)
    (hfrees : Frees (s.vol.tree sb) (v.tree sb))
    (htended : (s.itable q).valid = true → ∀ n, v.tree sb (s.itable q).inum = some n →
      n.nlink = 0 → 0 < ip.ref) :
    Put sb q s { s with
      vol := v
      op := o
      itable := update s.itable q ip } := by
  have hsame : ∀ p, (update s.itable q ip p).inum = (s.itable p).inum ∧
      (update s.itable q ip p).ref = (s.itable p).ref - one q p := by
    intro p
    grind [one]
  have hpos : ∀ p, 0 < (update s.itable q ip p).ref → 0 < (s.itable p).ref ∧
      (update s.itable q ip p).valid = (s.itable p).valid ∧
      (update s.itable q ip p).copy = (s.itable p).copy := by
    intro p hp
    grind
  refine ⟨⟨hintact, ?_, ?_, ?_, ?_⟩, rfl, rfl, rfl, rfl, fun p => (hsame p).2,
    fun p _ => (hsame p).1, ?_, hfrees, ?_, ?_⟩
  · intro p
    have hp := hs.nonneg p
    grind
  · intro a b ha hb hab
    rw [(hsame a).1, (hsame b).1] at hab
    exact hs.unique a b (hpos a ha).1 (hpos b hb).1 hab
  · intro p hp hv
    rw [(hpos p hp).2.1] at hv
    rw [(hpos p hp).2.2, (hsame p).1, hdip p hp]
    exact hs.coherent p (hpos p hp).1 hv
  · intro p hp hv
    rw [(hpos p hp).2.1] at hv
    rw [(hpos p hp).2.2]
    exact hs.typed p (hpos p hp).1 hv
  · intro p hp hv
    rw [(hpos p hp).2.1, (hpos p hp).2.2]
    exact ⟨hv, rfl⟩
  · refine fun h => h.of_frees hfrees fun p hp => ?_
    have hne := h.table p (hpos p hp).1
    rw [Ne, tree_eq_none_iff] at hne ⊢
    rw [(hsame p).1, hdip p hp]
    exact hne
  · intro h i n hi hn
    rcases h i n (hfrees.of_some hi) hn with ⟨p, hp, rfl, hv⟩
    have hpos' : 0 < (update s.itable q ip p).ref := by
      by_cases hpq : p = q
      · subst hpq
        simpa using htended hv n hi hn
      · simpa [hpq] using hp
    exact ⟨p, hpos', (hsame p).1, (hpos p hpos').2.1.trans hv⟩

/-- The last reference to an inode without links: it is freed with all its blocks. -/
theorem iputFree_spec (hs : Stable sb s) (hq : 0 < (s.itable q).ref)
    (hvalid : (s.itable q).valid = true) :
    wp (iputFree sb q) Benign (fun _ t => ∃ v o d, t = { s with
        vol := v
        op := o
        itable := update s.itable q { s.itable q with lock := false, valid := false, copy := d } } ∧
      v.Intact sb ∧ v.data = s.vol.data ∧ d.type = .free ∧
      v.dip sb = update (s.vol.dip sb) (s.itable q).inum d) s := by
  unfold iputFree
  rw [wp_bind, wp_gets]
  split
  · exact ⟨by simp, by simp⟩
  · simp only [wp_bind, setInode, wp_modify]
    have heff : St.eff sb { s with
        itable := update s.itable q { s.itable q with lock := true } } q = s.vol := by
      have heff := hs.eff_eq hq hvalid
      simpa [St.eff] using heff
    refine wp_post (itrunc_spec (by rw [heff]; exact hs.intact)
      (by simpa using hs.typed q hq hvalid)) ?_
    rintro _ t ⟨v, o, addrs, rfl, hzero, hintact, hdip, hdata, _⟩
    simp only [setCopy, setInode, wp_modify]
    refine wp_post iupdate_spec ?_
    rintro _ t ⟨o', rfl⟩
    simp only [update_self] at hdip
    refine ⟨_, o', { (s.itable q).copy with type := .free, addrs := addrs, size := 0 },
      by simp [St.put]; rfl, ?_, ?_, rfl, ?_⟩
    · refine Intact.logged (hintact.retype (fun k hk => ?_) (fun k hk => ?_) (by simp)) _
      · simpa [St.eff, St.put, hdip] using hzero k hk
      · simpa using hzero k hk
    · simpa [St.eff, St.put] using hdata
    · funext j
      by_cases hj : j = (s.itable q).inum
      · subst hj
        simp [St.eff, dip_setDip]
      · simp [St.eff, dip_setDip, hdip, hj]

/-- The tree when an inode with entry `q` has been freed. -/
theorem tree_of_freed {w : Volume} {d : Dinode} (hdata : w.data = v.data)
    (hfree : d.type = .free) (hdip : w.dip sb = update (v.dip sb) i d) :
    w.tree sb = update (v.tree sb) i none := by
  funext j
  by_cases hj : j = i
  · subst hj
    rw [update_self, tree_eq_none_iff, hdip, update_self, hfree]
  · rw [update_of_ne hj]
    have hsame : w.dip sb j = v.dip sb j := by rw [hdip, update_of_ne hj]
    refine tree_congr (by rw [hsame]) (by rw [hsame]) (fun _ => by rw [hsame]) fun _ x _ => ?_
    exact byteAt_congr (fun k => by simp only [held, hsame, hdata]) (by rw [hdata])

theorem iput_spec (hs : Stable sb s) (hq : 0 < (s.itable q).ref) :
    wp (iput sb q) Benign (fun _ t => Put sb q s t) s := by
  unfold iput
  rw [wp_bind, wp_gets]
  split
  · rename_i hlast
    rcases hlast with ⟨href, hvalid, hnlink⟩
    refine wp_seq (iputFree_spec hs hq hvalid) ?_
    rintro _ t ⟨v, o, d, rfl, hintact, hdata, hfree, hdip⟩
    have htree := tree_of_freed hdata hfree hdip
    have hcopy := hs.coherent q hq hvalid
    rcases Option.ne_none_iff_exists'.1 (mt tree_eq_none_iff.1 (hcopy ▸ hs.typed q hq hvalid))
      with ⟨n, hn⟩
    have hzero : n.nlink = 0 := by rw [(tree_eq_some hn).2.2.1, ← hcopy, hnlink]
    simp only [setInode, wp_modify]
    rw [update_self, update_idem]
    refine put_of_update hs hq rfl rfl hintact ?_ ?_ ?_ ?_
    · intro hpos
      simp [href] at hpos
    · intro p hp
      have hpq : p ≠ q := by
        rintro rfl
        simp [href] at hp
      rw [update_of_ne hpq] at hp
      rw [hdip, update_of_ne fun heq => hpq (hs.unique p q hp hq heq)]
    · intro j
      rw [htree]
      by_cases hj : j = (s.itable q).inum
      · subst hj
        exact .inr ⟨update_self .., n, hn, hzero⟩
      · exact .inl (update_of_ne hj ..)
    · intro _ m hm
      rw [htree, update_self] at hm
      cases hm
  · rename_i hlast
    refine put_of_update (v := s.vol) (o := s.op) hs hq rfl rfl hs.intact (fun _ => ⟨rfl, rfl⟩)
      (fun _ _ => rfl) (.refl _) ?_
    -- A valid copy without links and with one reference would have been freed.
    intro hvalid n hn hzero
    have hlink : (s.itable q).copy.nlink = 0 := by
      rw [hs.coherent q hq hvalid, ← (tree_eq_some hn).2.2.1, hzero]
    have href : (s.itable q).ref ≠ 1 := fun h => hlast ⟨h, hvalid, hlink⟩
    simp only
    omega

theorem Put.of_walk (h : Walk sb s t 0) (hp : Put sb q t u) : Put sb q s u := by
  have href : ∀ p, (t.itable p).ref = (s.itable p).ref := fun p => by simpa using h.ref p
  refine ⟨hp.stable, hp.ftable.trans h.ftable, hp.proc.trans h.proc, hp.gen.trans h.gen,
    hp.hist.trans h.hist, ?_, ?_, ?_, h.frees.trans hp.frees, fun hs => hp.firm (h.firm hs),
    fun hs => hp.tended (h.tended hs)⟩
  · intro p
    rw [hp.ref, href]
  · intro p hpos
    rw [hp.inum p (h.ref_pos hpos), h.inum p hpos]
  · intro p hpos hv
    have hs : 0 < (s.itable p).ref := by
      have hu := hp.ref p
      have hone := one_nonneg q p
      rw [href] at hu
      omega
    rcases h.valid p hs hv with ⟨hv', htype⟩
    rcases hp.valid p hpos hv' with ⟨hv'', htype'⟩
    exact ⟨hv'', htype'.trans htype⟩

theorem iunlockput_spec (hs : Stable sb s) (hq : 0 < (s.itable q).ref) :
    wp (iunlockput sb q) Benign (fun _ t => Put sb q s t) s := by
  unfold iunlockput
  refine wp_seq (iunlock_spec hs) ?_
  rintro _ t ⟨hwalk, _⟩
  exact wp_post (iput_spec hwalk.stable (hwalk.ref_pos hq)) fun _ _ hput => hput.of_walk hwalk

section

variable {δ : Ip → Int}

theorem Track.put (h : Track sb s t δ) (hq : 0 < δ q) (hp : Put sb q t u) :
    Track sb s u (δ - one q) := by
  have hnonneg : ∀ p, 0 ≤ (δ - one q) p := by
    intro p
    have hp := h.nonneg p
    simp only [Pi.sub_apply, one]
    split
    · rename_i hpq
      subst hpq
      omega
    · omega
  have href : ∀ p, (u.itable p).ref = (s.itable p).ref + (δ - one q) p := by
    intro p
    rw [hp.ref, h.ref]
    simp only [Pi.sub_apply]
    omega
  refine ⟨hp.stable, hp.ftable.trans h.ftable, hp.proc.trans h.proc, hp.hist.trans h.hist, hnonneg,
    href, ?_, ?_⟩
  · intro p hpos
    rw [hp.inum p (h.ref_pos hpos), h.inum p hpos]
  · intro p hpos hv
    have hu : 0 < (u.itable p).ref := by
      have hn := hnonneg p
      have hr := href p
      omega
    rcases h.valid p hpos hv with ⟨hv', htype⟩
    rcases hp.valid p hu hv' with ⟨hv'', htype'⟩
    exact ⟨hv'', htype'.trans htype⟩

theorem Walk.put (h : Walk sb s t δ) (hq : 0 < δ q) (hp : Put sb q t u) : Walk sb s u (δ - one q) :=
  ⟨h.toTrack.put hq hp, hp.gen.trans h.gen, h.frees.trans hp.frees,
    fun hs => hp.firm (h.firm hs), fun hs => hp.tended (h.tended hs)⟩

theorem Track.held (h : Track sb s t δ) (hs : Stable sb s) (hq : 0 < δ q) :
    0 < (t.itable q).ref := by
  have href := h.ref q
  have hnonneg := hs.nonneg q
  omega

end

/-! ## Changing an inode -/

/-- From `s` to `t` the inode in entry `q` has changed, on the disk too. -/
structure Edit (sb : Superblock) (q : Ip) (s t : St) : Prop extends Track sb s t 0 where
  gen : t.gen = s.gen
  lock : ∀ p, (t.itable p).lock = (s.itable p).lock
  other : ∀ j, j ≠ (s.itable q).inum → t.vol.tree sb j = s.vol.tree sb j
  tended : Tended sb s → Tended sb t

theorem Edit.tree {x : Option Node} (h : Edit sb q s t)
    (hx : t.vol.tree sb (s.itable q).inum = x) :
    t.vol.tree sb = update (s.vol.tree sb) (s.itable q).inum x := by
  funext j
  by_cases hj : j = (s.itable q).inum
  · rw [hj, hx, update_self]
  · rw [h.other j hj, update_of_ne hj]

theorem edit_put {d : Dinode} (hs : Stable sb s)
    (hq : 0 < (s.itable q).ref) (hvalid : (s.itable q).valid = true) (hintact : v.Intact sb)
    (hself : v.dip sb (s.itable q).inum = d)
    (hdip : ∀ j, j ≠ (s.itable q).inum → v.dip sb j = s.vol.dip sb j)
    (htype : d.type = (s.itable q).copy.type)
    (hother : ∀ j, j ≠ (s.itable q).inum → v.tree sb j = s.vol.tree sb j) :
    Edit sb q s (s.put q v o d) := by
  have hne : ∀ p, p ≠ q → (s.put q v o d).itable p = s.itable p := fun p hpq =>
    update_of_ne hpq ..
  have hsame : ∀ p, ((s.put q v o d).itable p).inum = (s.itable p).inum ∧
      ((s.put q v o d).itable p).ref = (s.itable p).ref ∧
      ((s.put q v o d).itable p).valid = (s.itable p).valid ∧
      ((s.put q v o d).itable p).lock = (s.itable p).lock ∧
      ((s.put q v o d).itable p).copy.type = (s.itable p).copy.type := by
    intro p
    by_cases hpq : p = q
    · subst hpq
      simp [htype]
    · simp [hne p hpq]
  refine ⟨⟨⟨hintact, ?_, ?_, ?_, ?_⟩, rfl, rfl, rfl, fun _ => Int.le_refl _, ?_,
    fun p _ => (hsame p).1, ?_⟩, rfl, fun p => (hsame p).2.2.2.1, hother, ?_⟩
  · intro p
    rw [(hsame p).2.1]
    exact hs.nonneg p
  · intro a b ha hb hab
    rw [(hsame a).1, (hsame b).1] at hab
    exact hs.unique a b ((hsame a).2.1 ▸ ha) ((hsame b).2.1 ▸ hb) hab
  · intro p hp hv
    by_cases hpq : p = q
    · subst hpq
      simp [hself]
    · rw [hne p hpq] at hp hv ⊢
      rw [hs.coherent p hp hv, St.vol_put]
      exact (hdip _ fun heq => hpq (hs.unique p q hp hq heq)).symm
  · intro p hp hv
    rw [(hsame p).2.2.2.2]
    exact hs.typed p ((hsame p).2.1 ▸ hp) ((hsame p).2.2.1 ▸ hv)
  · intro p
    simp [(hsame p).2.1]
  · intro p _ hv
    exact ⟨(hsame p).2.2.1.trans hv, (hsame p).2.2.2.2⟩
  · intro h i n hi hn
    by_cases hiq : i = (s.itable q).inum
    · subst hiq
      exact ⟨q, (hsame q).2.1 ▸ hq, (hsame q).1, (hsame q).2.2.1.trans hvalid⟩
    · rcases h i n (hother i hiq ▸ hi) hn with ⟨p, hp, hinum, hv⟩
      exact ⟨p, (hsame p).2.1.symm ▸ hp, (hsame p).1.trans hinum, (hsame p).2.2.1.trans hv⟩

theorem Stable.node (h : Stable sb s) (hq : 0 < (s.itable q).ref)
    (hvalid : (s.itable q).valid = true) :
    ∃ n, s.vol.tree sb (s.itable q).inum = some n ∧ n.kind = (s.itable q).copy.type ∧
      n.nlink = (s.itable q).copy.nlink := by
  have hcopy := h.coherent q hq hvalid
  rcases Option.ne_none_iff_exists'.1 (mt tree_eq_none_iff.1 (hcopy ▸ h.typed q hq hvalid))
    with ⟨n, hn⟩
  rcases tree_eq_some hn with ⟨hkind, _, hnlink, _⟩
  exact ⟨n, hn, by rw [hkind, hcopy], by rw [hnlink, hcopy]⟩

/-- The copy gets a new link count, or other fields that no directory depends on, and is written
back. -/
theorem wp_relink {β : Type} {f : Dinode → Dinode} {n : Node} {g : M β} {E : Panic → Prop}
    {Q : β → St → Prop} (hs : Stable sb s) (hq : 0 < (s.itable q).ref)
    (hvalid : (s.itable q).valid = true)
    (hf : ∀ d, (f d).type = d.type ∧ (f d).addrs = d.addrs ∧ (f d).size = d.size)
    (hn : s.vol.tree sb (s.itable q).inum = some n) (hE : ∀ e, Benign e → E e)
    (hg : ∀ t, Edit sb q s t → t.vol.tree sb = update (s.vol.tree sb) (s.itable q).inum
      (some { n with nlink := (f (s.itable q).copy).nlink }) → wp g E Q t) :
    wp (do setCopy q f; iupdate sb q; g) E Q s := by
  replace hg := fun t (hedit : Edit sb q s t) hnode => hg t hedit (hedit.tree hnode)
  rw [wp_bind]
  simp only [setCopy, setInode, wp_modify]
  refine wp_call iupdate_spec ?_ hE
  rintro _ t ⟨o, rfl⟩
  have hcopy := hs.coherent q hq hvalid
  have hf' := hf (s.itable q).copy
  generalize f (s.itable q).copy = d at hf' hg ⊢
  have hstate : ({ s with
      vol := (St.eff sb { s with
        itable := update s.itable q { s.itable q with copy := d } } q).logged
          (IBLOCK sb (update s.itable q { s.itable q with copy := d } q).inum)
      op := o
      itable := update s.itable q { s.itable q with copy := d } } : St) =
      s.put q ((s.vol.setDip sb (s.itable q).inum d).logged (IBLOCK sb (s.itable q).inum)) o d := by
    simp [St.put, St.eff]
  have hheld : ∀ x, ((s.vol.setDip sb (s.itable q).inum d).logged
      (IBLOCK sb (s.itable q).inum)).held sb x = s.vol.held sb x := by
    rintro ⟨j, k⟩
    by_cases hj : j = (s.itable q).inum
    · subst hj
      change (s.vol.setDip sb (s.itable q).inum d).held sb _ = _
      rw [held_setDip_self, held, Dinode.slot, Dinode.slot, hf'.2.1, hcopy]
    · exact held_setDip_of_ne _ _ hj _
  refine hstate ▸ hg _ (edit_put hs hq hvalid ?_ ?_ ?_ hf'.1 ?_) ?_
  · exact (hs.intact.relabel (by rw [hf'.1, hcopy]) (by rw [hf'.2.1, hcopy])
      (by rw [hf'.2.2, hcopy])).logged _
  · simp [dip_setDip]
  · intro j hj
    simp [dip_setDip, hj]
  · intro j hj
    refine tree_congr ?_ ?_ ?_ fun _ x _ => byteAt_congr (fun k => hheld _) rfl
    all_goals simp [dip_setDip, hj]
  · have hdip : (s.vol.dip sb (s.itable q).inum).type = d.type ∧
        (s.vol.dip sb (s.itable q).inum).size = d.size := by
      rw [← hcopy]
      exact ⟨hf'.1.symm, hf'.2.2.symm⟩
    rcases tree_eq_some hn with ⟨_, _, _, hdir, hnone⟩
    have hnode := tree_of_some (w := (s.vol.setDip sb (s.itable q).inum d).logged
      (IBLOCK sb (s.itable q).inum)) hn (by simp [dip_setDip, hdip]) (fun hkind => ?_) hnone
    · simpa [dip_setDip] using hnode
    · rw [hdir hkind]
      exact ents_congr (by simp [dip_setDip, hdip]) fun x _ => byteAt_congr (fun k => hheld _) rfl

/-! ## Allocating an inode -/

/-- From `s` to `t` inode `i` has been allocated, with a reference in entry `q`. -/
structure Fresh (sb : Superblock) (type : FileType) (q : Ip) (i : Nat) (s t : St) : Prop
    extends Track sb s t (one q) where
  pos : 0 < i
  lt : i < sb.ninodes
  free : s.vol.tree sb i = none
  entry : (t.itable q).inum = i
  tree : t.vol.tree sb = update (s.vol.tree sb) i (some { kind := type, nlink := 0, ents := [] })
  gen : t.gen = update s.gen i (s.gen i + 1)
  lock : ∀ p, (t.itable p).lock = (s.itable p).lock

theorem track_alloc (hs : Stable sb s)
    (htype : type ≠ .free) (hfree : (s.vol.dip sb i).type = .free) :
    let v := (s.vol.setDip sb i { Dinode.zero with type := type }).logged (IBLOCK sb i)
    Track sb s { s with
      vol := v
      op := o
      gen := update s.gen i (s.gen i + 1) } 0 ∧
    v.tree sb = update (s.vol.tree sb) i (some { kind := type, nlink := 0, ents := [] }) := by
  intro v
  -- A valid copy is that of an allocated inode, so it is not the new one's.
  have hother : ∀ q, 0 < (s.itable q).ref → (s.itable q).valid = true → (s.itable q).inum ≠ i := by
    rintro q hq hv rfl
    exact hs.typed q hq hv (by rw [hs.coherent q hq hv, hfree])
  have hheld : ∀ j k, j ≠ i → v.held sb (j, k) = s.vol.held sb (j, k) :=
    fun j k hj => held_setDip_of_ne _ _ hj k
  refine ⟨⟨⟨?_, hs.nonneg, hs.unique, ?_, hs.typed⟩, rfl, rfl, rfl, fun _ => Int.le_refl _,
    fun _ => (Int.add_zero _).symm, fun _ _ => rfl, fun _ _ hv => ⟨hv, rfl⟩⟩, ?_⟩
  · exact (hs.intact.retype (hs.intact.free i hfree) (fun _ _ => rfl) rfl).logged _
  · intro q hq hv
    rw [hs.coherent q hq hv]
    simp [v, dip_setDip, hother q hq hv]
  · funext j
    by_cases hj : j = i
    · subst hj
      have hkind : (v.dip sb j).type = type := by simp [v, dip_setDip]
      rw [update_self, tree_of_type hkind htype]
      simp [v, dip_setDip, ents, Dinode.zero]
    · rw [update_of_ne hj]
      refine tree_congr ?_ ?_ ?_ fun _ x _ => byteAt_congr (fun k => hheld j k hj) rfl
      all_goals simp [v, dip_setDip, hj]

theorem iallocFrom_spec {n inum : Nat} (hs : Stable sb s) (htype : type ≠ .free) (hpos : 0 < inum) :
    wp (iallocFrom sb type n inum) Benign (fun r t =>
      r = none ∧ t = s ∨ ∃ q i, r = some q ∧ Fresh sb type q i s t) s := by
  induction n generalizing inum with
  | zero => exact .inl ⟨rfl, rfl⟩
  | succ n ih =>
    rw [iallocFrom]
    split
    · rename_i hlt
      rw [wp_bind, wp_gets]
      split
      · rename_i hfree
        rw [wp_bind, wp_modify, wp_bind]
        refine wp_logWrite fun o => ?_
        rcases track_alloc (o := o) hs htype hfree with ⟨htrack, htree⟩
        refine wp_seq (iget_spec htrack.stable fun _ => ?_) ?_
        · rw [htree, update_self]
          simp
        · rintro q t ⟨hwalk, hinum, hvol, hlock⟩
          have hall := htrack.trans hwalk.toTrack
          rw [zero_add] at hall
          refine .inr ⟨q, inum, rfl, hall, hpos, hlt, tree_eq_none_iff.2 hfree, hinum, ?_,
            hwalk.gen, hlock⟩
          rw [hvol]
          exact htree
      · exact ih (Nat.succ_pos _)
    · exact .inl ⟨rfl, rfl⟩

theorem ialloc_spec (hs : Stable sb s) (htype : type ≠ .free) :
    wp (ialloc sb type) Benign (fun r t =>
      r = none ∧ t = s ∨ ∃ q i, r = some q ∧ Fresh sb type q i s t) s :=
  iallocFrom_spec hs htype Nat.one_pos

end Xv6.Fs
