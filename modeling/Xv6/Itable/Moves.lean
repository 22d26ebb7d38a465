import Mathlib.Tactic.Linarith
import Xv6.Itable.Inv

/-!
# Moves — the operations keep the invariant

Each operation of a process keeps the invariant and what the other processes rely on.  There are
three kinds: changes of one entry of the table, moves of pointers, and changes of the disk.
-/

namespace Xv6.Itable

open Lib
open Function (update update_eq_self update_of_ne update_self)

variable {ι : Type} {s t : St ι} {p p' : ι} {q r : Ip} {i : Nat}

/-! ## Entries -/

theorem St.setInode_self (s : St ι) (q : Ip) (x : Inode ι) : (s.setInode q x).itable q = x :=
  update_self ..

theorem St.setInode_of_ne (s : St ι) (x : Inode ι) (h : r ≠ q) :
    (s.setInode q x).itable r = s.itable r :=
  update_of_ne h ..

theorem St.setInode_inum (s : St ι) {x : Inode ι} (h : x.inum = (s.itable q).inum) (r : Ip) :
    ((s.setInode q x).itable r).inum = (s.itable r).inum := by
  by_cases hr : r = q
  · rw [hr, s.setInode_self, h]
  · rw [s.setInode_of_ne x hr]

theorem St.setInode_ref (s : St ι) {x : Inode ι} (h : x.ref = (s.itable q).ref) (r : Ip) :
    ((s.setInode q x).itable r).ref = (s.itable r).ref := by
  by_cases hr : r = q
  · rw [hr, s.setInode_self, h]
  · rw [s.setInode_of_ne x hr]

theorem St.setInode_dinode (s : St ι) {x : Inode ι} (h : x.inum = (s.itable q).inum) (r : Ip) :
    (s.setInode q x).dinode r = s.dinode r := by
  unfold St.dinode
  rw [s.setInode_inum h]
  rfl

theorem St.setDisk_self (s : St ι) (i : Nat) (d : Dinode) : (s.setDisk i d).disk i = d :=
  update_self ..

theorem St.setDisk_of_ne (s : St ι) {i j : Nat} (d : Dinode) (h : j ≠ i) :
    (s.setDisk i d).disk j = s.disk j :=
  update_of_ne h ..

/-- A process writes an inode to the disk and to the table, where it is freed `n` times so far. -/
def St.writeInode (s : St ι) (q : Ip) (x : Inode ι) (d : Dinode) (n : Nat) : St ι :=
  { (s.setInode q x).setDisk x.inum d with frees := update s.frees x.inum n }

/-- What the table repeats of an inode is the same. -/
def Dinode.Same (d e : Dinode) : Prop :=
  e.type = d.type ∧ e.nlink = d.nlink

theorem Dinode.Same.refl (d : Dinode) : d.Same d :=
  ⟨rfl, rfl⟩

theorem Solid.mono (h : Solid s q) (hf : (t.itable q).freeing = (s.itable q).freeing)
    (hv : (s.itable q).valid = true → (t.itable q).valid = true)
    (hd : (s.dinode q).Same (t.dinode q)) (hr : t.raced = false → s.raced = false) :
    Solid t q := by
  refine ⟨⟨hf.trans h.1.1, by rw [hd.1]; exact h.1.2⟩, fun hrt => ?_⟩
  rcases h.2 (hr hrt) with hvs | hn
  · exact .inl (hv hvs)
  · exact .inr (by rw [hd.2]; exact hn)

/-- Another process does not touch the lock of `p`, nor what it protects. -/
structure Calm (p : ι) (x y : Inode ι) : Prop where
  lock : y.lock = some p ↔ x.lock = some p
  own : x.lock = some p → y.freeing = x.freeing ∧ y.type = x.type

theorem Calm.of_eq {x y : Inode ι} (hl : y.lock = x.lock) (hf : y.freeing = x.freeing)
    (hty : y.type = x.type) : Calm p x y :=
  ⟨by rw [hl], fun _ => ⟨hf, hty⟩⟩

theorem Calm.of_ne {x y : Inode ι} (hx : x.lock ≠ some p) (hy : y.lock ≠ some p) : Calm p x y :=
  ⟨iff_of_false hy hx, fun hl => absurd hl hx⟩

/-- The entry has not been taken away, and neither has its inode. -/
theorem Stays.of_entry (hinum : (t.itable q).inum = (s.itable q).inum)
    (hf : (s.itable q).freeing = false → (t.itable q).freeing = false)
    (hv : (s.itable q).freeing = false → (s.itable q).valid = true → (t.itable q).valid = true)
    (hlive : Live s q → (t.disk (s.itable q).inum).type = (s.dinode q).type ∧
      t.stamp (s.itable q).inum = s.stamp (s.itable q).inum ∧
      ((s.itable q).valid = true ∨ (t.disk (s.itable q).inum).nlink = (s.dinode q).nlink))
    (hfreed : t.raced = false → (t.itable q).freed = (s.itable q).freed) : Stays s t q where
  inum := hinum
  live := fun hl => by
    obtain ⟨htype, hstamp, -⟩ := hlive hl
    rw [← hinum] at htype
    refine ⟨⟨hf hl.1, htype ▸ hl.2⟩, htype, ?_⟩
    rw [hinum, hstamp]
  backed := fun hb _ => by
    obtain ⟨htype, -, hn⟩ := hlive hb.1
    rw [← hinum] at htype hn
    refine ⟨⟨hf hb.1.1, htype ▸ hb.1.2⟩, ?_⟩
    rcases hb.2 with hvalid | hn'
    · exact .inl (hv hb.1.1 hvalid)
    · rcases hn with hvalid | hn
      · exact .inl (hv hb.1.1 hvalid)
      · exact .inr (by unfold St.dinode; rw [hn]; exact hn')
  freed := hfreed

theorem Stays.of_same (hinum : (t.itable q).inum = (s.itable q).inum)
    (hf : (s.itable q).freeing = false → (t.itable q).freeing = false)
    (hv : (s.itable q).freeing = false → (s.itable q).valid = true → (t.itable q).valid = true)
    (hdisk : ∀ i, (s.disk i).Same (t.disk i)) (hstamp : t.stamp = s.stamp)
    (hfreed : t.raced = false → (t.itable q).freed = (s.itable q).freed) : Stays s t q :=
  .of_entry hinum hf hv (fun _ => ⟨(hdisk _).1, by rw [hstamp], .inr (hdisk _).2⟩) hfreed

theorem Onward.of_same (hdisk : ∀ i, (s.disk i).Same (t.disk i)) (hstamp : t.stamp = s.stamp)
    (hclock : t.clock = s.clock) (hraced : s.raced = true → t.raced = true)
    (hscribbled : s.scribbled = true → t.scribbled = true) : Onward s t :=
  ⟨hraced, hscribbled, hclock ▸ le_rfl, fun i hi => .inl ⟨(hdisk i).1 ▸ hi, by rw [hstamp]⟩⟩

/-- The variables of `p` itself are as before. -/
structure Untouched (p : ι) (s t : St ι) : Prop where
  held : t.held p = s.held p
  fresh : t.fresh p = s.fresh p
  used : t.used p = s.used p
  cwd : t.cwd p = s.cwd p
  ofile : t.ofile p = s.ofile p
  file : s.used p = true → ∀ fd f, s.ofile p fd = some f → (t.file f).ip = (s.file f).ip

theorem Untouched.points (h : Untouched p s t) : Points t p q ↔ Points s p q := by
  unfold Points
  rw [h.held, h.used, h.cwd, h.ofile]
  refine or_congr Iff.rfl (and_congr_right fun hused => or_congr Iff.rfl ?_)
  refine exists_congr fun fd => exists_congr fun f => and_congr_right fun hfd => ?_
  rw [h.file hused fd f hfd]

section

variable [Fintype ι]

/-- A change of the state that leaves the entry as it is, apart from the number of pointers. -/
theorem EntryOk.mono {x : Inode ι} {n : Int} (h : EntryOk s r x)
    (hd : 0 < n → (s.disk x.inum).Same (t.disk x.inum))
    (hn : 0 < n → x.valid = true → 0 < x.ref)
    (hp : ∀ p, x.lock = some p → Points s p r → Points t p r)
    (hr : t.raced = false → s.raced = false)
    (hu : t.raced = false → x.freeing = true ∨ x.freed = true →
      uses t r = uses s r ∧ (Free s x.inum → Free t x.inum)) :
    EntryOk t r { x with ref := n } where
  lock := fun p hl => hp p hl (h.lock p hl)
  locked := h.locked
  freeing := h.freeing
  copy := fun href hv => by
    simp only [(hd href).1, (hd href).2]
    exact h.copy (hn href hv) hv
  blank := fun href hv => h.blank (hn href hv) hv
  quiet := fun hrt hf => (hu hrt (.inl hf)).1.trans (h.quiet (hr hrt) hf)
  gone := fun hrt hf hty => (hu hrt (.inl hf)).2 (h.gone (hr hrt) hf hty)
  freed := fun hrt hf => by
    obtain ⟨hone, hv, hl, hfree⟩ := h.freed (hr hrt) hf
    exact ⟨(hu hrt (.inr hf)).1.trans hone, hv, hl, (hu hrt (.inr hf)).2 hfree⟩
  zero := fun href hf => by
    simp only [(hd href).2]
    exact h.zero (hn href (h.locked (h.freeing hf).1)) hf

/-- A change of one entry that is not about its pointers. -/
theorem Inv.setEntry (h : Inv s) {x : Inode ι} (hinum : x.inum = (s.itable q).inum)
    (href : x.ref = (s.itable q).ref) (hentry : EntryOk s q x)
    (hkept : Kept s q → (s.itable q).freeing = false →
      x.freeing = false ∧ ((s.itable q).valid = true → x.valid = true)) :
    Inv (s.setInode q x) := by
  have href' := s.setInode_ref href
  have hinum' := s.setInode_inum hinum
  have hd := s.setInode_dinode hinum
  have hsolid : ∀ r, Kept s r → Solid s r → Solid (s.setInode q x) r := by
    intro r hr hs
    by_cases hrq : r = q
    · subst hrq
      obtain ⟨hf, hv⟩ := hkept hr hs.1.1
      exact hs.mono (by rw [s.setInode_self, hf, hs.1.1]) (by rwa [s.setInode_self])
        (hd r ▸ .refl _) id
    · have hx := s.setInode_of_ne x hrq
      exact hs.mono (by rw [hx]) (by rw [hx]; exact id) (hd r ▸ .refl _) id
  refine ⟨fun r => (href' r).trans (h.ref r), h.fref, fun r r' hr hr' heq => ?_, fun r => ?_,
    fun f hf => ?_, fun p' r hr => ?_, h.unused, h.stamp, h.above, h.count, fun hr i hty hn => ?_⟩
  · rw [href'] at hr hr'
    rw [hinum', hinum'] at heq
    exact h.uniq r r' hr hr' heq
  · by_cases hr : r = q
    · rw [hr, s.setInode_self]
      exact hentry.mono (fun _ => .refl _) (fun h _ => h) (fun _ _ => id) id fun _ _ => ⟨rfl, id⟩
    · rw [s.setInode_of_ne x hr]
      exact (h.entry r).mono (fun _ => .refl _) (fun h _ => h) (fun _ _ => id) id
        fun _ _ => ⟨rfl, id⟩
  · exact hsolid _ (.inl ⟨f, if_pos hf⟩) (h.file f hf)
  · obtain ⟨hs, hdir⟩ := h.cwd p' r hr
    exact ⟨hsolid r (.inr ⟨p', hr⟩) hs, by rw [hd]; exact hdir⟩
  · refine (h.lost hr i hty hn).imp_left fun ⟨r, hr, hi⟩ => ⟨r, ?_, ?_⟩
    · rw [href']
      exact hr
    · rw [hinum']
      exact hi

theorem Rely.of_step (hs : Inv s) (ht : Inv t) (hp : Untouched p s t)
    (hcalm : ∀ q, Points s p q → Calm p (s.itable q) (t.itable q))
    (hstays : ∀ q, Points s p q → Stays s t q) (honward : Onward s t) : Rely p s t where
  held := hp.held
  fresh := hp.fresh
  used := fun h => ⟨hp.used.trans h, hp.cwd, hp.ofile⟩
  unused := fun h h' => by
    rw [hp.used, h] at h'
    cases h'
  file := hp.file
  lock := fun q => by
    constructor
    · intro hl
      exact (hcalm q (hp.points.1 ((ht.entry q).lock p hl))).lock.1 hl
    · intro hl
      exact (hcalm q ((hs.entry q).lock p hl)).lock.2 hl
  own := fun q hl => (hcalm q ((hs.entry q).lock p hl)).own hl
  stays := hstays
  onward := honward

/-- The operation of `p` keeps the invariant and what the other processes rely on.  Of the pointers
of `p` it keeps those in `K`. -/
structure Keeps (p : ι) (K : Ip → Prop) (s t : St ι) : Prop where
  inv : Inv t
  onward : Onward s t
  rely : ∀ p', p' ≠ p → Rely p' s t
  stays : ∀ q, K q → Points s p q → Stays s t q

/-! ## Locks -/

theorem Keeps.setEntry {K : Ip → Prop} (h : Inv s) {x : Inode ι}
    (hinum : x.inum = (s.itable q).inum) (href : x.ref = (s.itable q).ref)
    (hentry : EntryOk s q x)
    (hkept : Kept s q → (s.itable q).freeing = false →
      x.freeing = false ∧ ((s.itable q).valid = true → x.valid = true))
    (hcalm : ∀ p', p' ≠ p → Points s p' q → Calm p' (s.itable q) x)
    (hstays : ∀ p', (p' = p → K q) → Points s p' q → ((s.itable q).freeing = false →
        x.freeing = false ∧ ((s.itable q).valid = true → x.valid = true)) ∧
      (s.raced = false → x.freed = (s.itable q).freed)) :
    Keeps p K s (s.setInode q x) := by
  have ht := h.setEntry hinum href hentry hkept
  have hon : Onward s (s.setInode q x) := .of_same (fun _ => .refl _) rfl rfl id id
  have hst : ∀ p' r, (p' = p → K r) → Points s p' r → Stays s (s.setInode q x) r := by
    intro p' r hK hr
    by_cases hrq : r = q
    · subst hrq
      obtain ⟨hx, hfreed⟩ := hstays p' hK hr
      exact .of_same (by rw [s.setInode_self, hinum])
        (fun hf => by rw [s.setInode_self]; exact (hx hf).1)
        (fun hf hv => by rw [s.setInode_self]; exact (hx hf).2 hv) (fun _ => .refl _) rfl
        (fun hr => by rw [s.setInode_self]; exact hfreed hr)
    · have hx := s.setInode_of_ne x hrq
      exact .of_same (by rw [hx]) (by rw [hx]; exact id) (by rw [hx]; exact fun _ => id)
        (fun _ => .refl _) rfl (fun _ => by rw [hx])
  refine ⟨ht, hon, fun p' hp => ?_, fun r hK hr => hst p r (fun _ => hK) hr⟩
  refine Rely.of_step h ht ⟨rfl, rfl, rfl, rfl, rfl, fun _ _ _ _ => rfl⟩ (fun r hr => ?_)
    (fun r hr => hst p' r (fun heq => absurd heq hp) hr) hon
  by_cases hrq : r = q
  · subst hrq
    rw [s.setInode_self]
    exact hcalm p' hp hr
  · rw [s.setInode_of_ne x hrq]
    exact .of_eq rfl rfl rfl

theorem keeps_ilock (h : Inv s) (hq : Points s p q)
    (hfine : s.raced = false → (s.itable q).freed = false) {r : FileType × Int}
    (hexec : s.ilock p q = some (r, t)) : Keeps p (fun _ => True) s t := by
  unfold St.ilock at hexec
  simp only at hexec
  split at hexec
  · cases hexec
  · rename_i hfree
    have hlock : (s.itable q).lock = none := by
      by_contra hl
      exact hfree (.inr hl)
    have hf := h.not_freeing hlock
    have hpoints : ∀ p', some p = some p' → Points s p' q := by
      intro p' hp'
      cases hp'
      exact hq
    have hcalm : ∀ p' v ty n, p' ≠ p → Calm p' (s.itable q)
        { s.itable q with lock := some p, valid := v, type := ty, nlink := n } :=
      fun p' v ty n hp => .of_ne (by simp [hlock]) (by simpa using Ne.symm hp)
    split at hexec
    · rename_i hvalid
      cases hexec
      refine Keeps.setEntry h rfl rfl ?_ (fun _ hf => ⟨hf, id⟩) (fun p' hp _ => hcalm p' _ _ _ hp)
        fun _ _ _ => ⟨fun hf => ⟨hf, id⟩, fun _ => rfl⟩
      exact ⟨hpoints, fun _ => hvalid, fun hf' => absurd hf' (by simp [hf]), (h.entry q).copy,
        (h.entry q).blank, fun _ hf' => absurd hf' (by simp [hf]),
        fun _ hf' => absurd hf' (by simp [hf]), fun _ hf' => absurd hf' (by simp [hf]),
        fun hr hf' => absurd hf' (by simp [hfine hr])⟩
    · split at hexec
      · cases hexec
      · rename_i hvalid htype
        cases hexec
        refine Keeps.setEntry h rfl rfl ?_ (fun _ hf => ⟨hf, fun _ => rfl⟩)
          (fun p' hp _ => hcalm p' _ _ _ hp) fun _ _ _ =>
            ⟨fun hf => ⟨hf, fun _ => rfl⟩, fun _ => rfl⟩
        exact ⟨hpoints, fun _ => rfl, fun hf' => absurd hf' (by simp [hf]),
          fun _ _ _ => ⟨rfl, rfl⟩, fun _ _ hnone => absurd hnone htype,
          fun _ hf' => absurd hf' (by simp [hf]), fun _ hf' => absurd hf' (by simp [hf]),
          fun _ hf' => absurd hf' (by simp [hf]), fun hr hf' => absurd hf' (by simp [hfine hr])⟩

theorem keeps_iunlock (h : Inv s) (hl : (s.itable q).lock = some p)
    (hf : (s.itable q).freeing = false) :
    Keeps p (fun _ => True) s (s.setInode q { s.itable q with lock := none }) := by
  refine Keeps.setEntry h rfl rfl ?_ (fun _ hf => ⟨hf, id⟩) (fun p' hp _ => ?_)
    fun _ _ _ => ⟨fun hf => ⟨hf, id⟩, fun _ => rfl⟩
  · have hx := h.entry q
    refine ⟨fun p' hp' => absurd hp' (by simp), fun hne => absurd rfl hne,
      fun hf' => absurd hf' (by simp [hf]), hx.copy, hx.blank,
      fun _ hf' => absurd hf' (by simp [hf]), fun _ hf' => absurd hf' (by simp [hf]),
      fun _ hf' => absurd hf' (by simp [hf]), fun hr hf' => ?_⟩
    exact absurd (hx.freed hr hf').2.2.1 (by simp [hl])
  · exact .of_ne (by simpa [hl] using Ne.symm hp) (by simp)

theorem keeps_iputLock (h : Inv s) (hq : q ∈ s.held p) (href : (s.itable q).ref = 1)
    (hv : (s.itable q).valid = true) (hn : (s.itable q).nlink = 0)
    (hl : (s.itable q).lock = none) :
    Keeps p (· ≠ q) s (s.setInode q { s.itable q with lock := some p, freeing := true }) := by
  have huses : uses s q = 1 := by
    have hq := h.ref q
    omega
  have hx := h.entry q
  -- no other process has a pointer
  have hother : ∀ p', p' ≠ p → ¬ Points s p' q := by
    intro p' hp hq'
    classical
    have hle := h.two_le_uses hq' hq hp
    omega
  refine Keeps.setEntry h rfl rfl ?_ (fun hk _ => ?_) (fun p' hp hq' => absurd hq' (hother p' hp))
    fun p' hK hq' => ?_
  · refine ⟨fun p' hp' => ?_, fun _ => hv, fun _ => ⟨by simp, hn⟩, hx.copy, fun _ _ _ => rfl,
      fun _ _ => huses, fun hpos _ => ?_, fun _ _ hty => ?_, fun hr hf => ?_⟩
    · cases hp'
      exact .inl hq
    · by_cases hty : (s.itable q).type = .none
      · exact hx.zero hpos (hx.blank hpos hv hty)
      · exact (hx.copy hpos hv hty).2.trans hn
    · have hf := hx.blank (by omega) hv hty
      exact absurd hf (by simp [h.not_freeing hl])
    · exact absurd (hx.freed hr hf).2.1 (by simp [hv])
  · have hle := hk.two_le_uses hq
    omega
  · by_cases hp : p' = p
    · exact absurd rfl (hK hp)
    · exact absurd hq' (hother p' hp)

/-- Nobody else has a pointer to an inode that is being freed, if nothing is out of order. -/
theorem Inv.quiet_points (h : Inv s) (hq : q ∈ s.held p) (hf : (s.itable q).freeing = true)
    (hr : s.raced = false) (hp : p' ≠ p) : ¬ Points s p' q := by
  intro hq'
  classical
  have hone := (h.entry q).quiet hr hf
  have hle := h.two_le_uses hq' hq hp
  omega

theorem keeps_irelease (h : Inv s) (hl : (s.itable q).lock = some p)
    (hf : (s.itable q).freeing = true) (hty : (s.itable q).type = .none) (hq : q ∈ s.held p) :
    Keeps p (· ≠ q) s (s.setInode q
      { s.itable q with valid := false, lock := none, freeing := false, freed := true }) := by
  have hx := h.entry q
  refine Keeps.setEntry h rfl rfl ?_ (fun _ hf' => absurd hf' (by simp [hf])) (fun p' hp _ => ?_)
    fun p' hK hq' => ⟨fun hf' => absurd hf' (by simp [hf]), fun hr => ?_⟩
  · exact ⟨fun p' hp' => absurd hp' (by simp), fun hne => absurd rfl hne,
      fun hf' => absurd hf' (by simp), fun _ hv => absurd hv (by simp),
      fun _ hv => absurd hv (by simp), fun _ hf' => absurd hf' (by simp),
      fun _ hf' => absurd hf' (by simp), fun _ hf' => absurd hf' (by simp),
      fun hr _ => ⟨hx.quiet hr hf, rfl, rfl, hx.gone hr hf hty⟩⟩
  · exact .of_ne (by simpa [hl] using Ne.symm hp) (by simp)
  · by_cases hp : p' = p
    · exact absurd rfl (hK hp)
    · exact absurd hq' (h.quiet_points hq hf hr hp)

/-! ## The disk -/

/-- A process writes to an inode, but not its type and its links. -/
theorem Keeps.setContent (h : Inv s) {d : Dinode} {b : Bool} (hd : (s.disk i).Same d)
    (hb : s.scribbled = true → b = true)
    (hents : b = false → d.type = .dir → ∀ e ∈ d.ents, e.inum ≠ 0 → e.name ≠ dot →
      e.name ≠ dotdot → Ordered s i e.inum) :
    Keeps p (fun _ => True) s { s.setDisk i d with scribbled := b } := by
  have hsame : ∀ j, (s.disk j).Same ((s.setDisk i d).disk j) := by
    intro j
    by_cases hj : j = i
    · rw [hj, s.setDisk_self]
      exact hd
    · rw [s.setDisk_of_ne d hj]
      exact .refl _
  have hsolid : ∀ r, Solid s r → Solid { s.setDisk i d with scribbled := b } r :=
    fun r hs => hs.mono rfl id (hsame _) id
  have hfree : ∀ j, Free s j → Free { s.setDisk i d with scribbled := b } j := by
    intro j hj
    refine hj.imp (fun hty => (hsame j).1.trans hty) fun ⟨hn, hp⟩ => ⟨(hsame j).2.trans hn, hp⟩
  have ht : Inv { s.setDisk i d with scribbled := b } := by
    refine ⟨h.ref, h.fref, h.uniq, fun r => ?_, fun f hf => hsolid _ (h.file f hf),
      fun p' r hr => ?_,
      h.unused, h.stamp, fun hscr j e hj he hi hdot hdotdot => ?_, fun j => ?_,
      fun hr j hty hn => ?_⟩
    · exact (h.entry r).mono (fun _ => hsame _) (fun h _ => h) (fun _ _ => id) id
        fun _ _ => ⟨rfl, hfree _⟩
    · obtain ⟨hs, hdir⟩ := h.cwd p' r hr
      exact ⟨hsolid r hs, (hsame _).1.trans hdir⟩
    · have hord : Ordered s j e.inum := by
        by_cases hji : j = i
        · subst hji
          simp only [s.setDisk_self] at hj he
          exact hents hscr hj e he hi hdot hdotdot
        · simp only [s.setDisk_of_ne d hji] at hj he
          have hscr' : s.scribbled = false := by
            cases hs : s.scribbled with
            | false => rfl
            | true => exact absurd (hb hs) (by simpa using hscr)
          exact h.above hscr' j e hj he hi hdot hdotdot
      exact fun hty => hord ((hsame _).1 ▸ hty)
    · have hc := h.count j
      simp only [(hsame j).1]
      exact hc
    · exact h.lost hr j ((hsame j).1 ▸ hty) ((hsame j).2 ▸ hn)
  have hon : Onward s { s.setDisk i d with scribbled := b } := .of_same hsame rfl rfl id hb
  have hst : ∀ r, Stays s { s.setDisk i d with scribbled := b } r :=
    fun r => .of_same rfl id (fun _ => id) hsame rfl fun _ => rfl
  exact ⟨ht, hon, fun p' hp => Rely.of_step h ht ⟨rfl, rfl, rfl, rfl, rfl, fun _ _ _ _ => rfl⟩
    (fun r _ => .of_eq rfl rfl rfl) (fun r _ => hst r) hon, fun r _ _ => hst r⟩

theorem Inv.inum_ne (h : Inv s) (hl : (s.itable q).lock = some p) (hr : 0 < (s.itable r).ref)
    (hne : r ≠ q) : (s.itable r).inum ≠ (s.itable q).inum :=
  fun heq => hne (h.uniq r q hr (h.ref_pos_of_lock hl) heq)

theorem Kept.ref_pos (hk : Kept s q) (h : Inv s) : 0 < (s.itable q).ref := by
  have hpos : 0 < uses s q := by
    unfold uses
    rcases hk with hf | hcwd
    · have := pointers_pos_iff.2 hf
      omega
    · have := pointers_pos_iff.2 hcwd
      omega
  rw [h.ref q]
  exact_mod_cast hpos

/-- An inode that is being freed, or was freed, still has its one pointer. -/
theorem Inv.ref_pos_of_freed (h : Inv s) (hr : s.raced = false)
    (hf : (s.itable q).freeing = true ∨ (s.itable q).freed = true) : 0 < (s.itable q).ref := by
  have hone : uses s q = 1 := by
    rcases hf with hf | hf
    · exact (h.entry q).quiet hr hf
    · exact ((h.entry q).freed hr hf).1
  rw [h.ref q, hone]
  exact Int.one_pos

section

variable {x : Inode ι} {d : Dinode} {n : Nat}

omit [Fintype ι] in
theorem St.writeInode_dinode (s : St ι) : (s.writeInode q x d n).dinode q = d := by
  have hx : (s.writeInode q x d n).itable q = x := s.setInode_self q x
  unfold St.dinode
  rw [hx]
  exact St.setDisk_self _ _ _

/-- Writing an inode that `p` has locked does not touch the other entries that are in use. -/
theorem Inv.writeInode_of_ne (h : Inv s) (hl : (s.itable q).lock = some p)
    (hinum : x.inum = (s.itable q).inum) (hr : 0 < (s.itable r).ref) (hne : r ≠ q) :
    (s.writeInode q x d n).itable r = s.itable r ∧
      (s.writeInode q x d n).dinode r = s.dinode r := by
  have hx : (s.writeInode q x d n).itable r = s.itable r := s.setInode_of_ne x hne
  refine ⟨hx, ?_⟩
  unfold St.dinode
  rw [hx]
  exact St.setDisk_of_ne _ d (hinum ▸ h.inum_ne hl hr hne)

/-- A process writes the type and the links of an inode that it has locked. -/
theorem Inv.writeInode (h : Inv s) (hl : (s.itable q).lock = some p)
    (hinum : x.inum = (s.itable q).inum) (href : x.ref = (s.itable q).ref)
    (hentry : EntryOk (s.writeInode q x d n) q x)
    (hsolid : Solid s q → Solid (s.writeInode q x d n) q ∧ d.type = (s.dinode q).type)
    (hents : d.ents = (s.dinode q).ents) (htype : d.type = .dir → (s.dinode q).type = .dir)
    (hcount : s.allocs x.inum = n + if d.type = .none then 0 else 1) :
    Inv (s.writeInode q x d n) := by
  have href' : ∀ r, ((s.writeInode q x d n).itable r).ref = (s.itable r).ref :=
    s.setInode_ref href
  have hinum' : ∀ r, ((s.writeInode q x d n).itable r).inum = (s.itable r).inum :=
    s.setInode_inum hinum
  have hsolid' : ∀ r, Kept s r → Solid s r → Solid (s.writeInode q x d n) r ∧
      ((s.writeInode q x d n).dinode r).type = (s.dinode r).type := by
    intro r hk hs
    by_cases hr : r = q
    · subst hr
      refine ⟨(hsolid hs).1, ?_⟩
      rw [s.writeInode_dinode]
      exact (hsolid hs).2
    · obtain ⟨hx, hd⟩ := h.writeInode_of_ne (d := d) (n := n) hl hinum (hk.ref_pos h) hr
      exact ⟨hs.mono (by rw [hx]) (by rw [hx]; exact id) (hd ▸ .refl _) id, by rw [hd]⟩
  have hdir : ∀ j, ((s.writeInode q x d n).disk j).type = .dir → (s.disk j).type = .dir := by
    intro j hj
    by_cases hji : j = x.inum
    · subst hji
      rw [hinum]
      refine htype ?_
      rwa [St.writeInode, St.setDisk_self] at hj
    · rwa [St.writeInode, St.setDisk_of_ne _ _ hji] at hj
  refine ⟨fun r => (href' r).trans (h.ref r), h.fref, fun r r' hr hr' heq => ?_, fun r => ?_,
    fun f hf => ?_, fun p' r hr => ?_, h.unused, h.stamp,
    fun hscr j e hj he hi hdot hdotdot hty => ?_, fun j => ?_, fun hr j hty hn => ?_⟩
  · rw [href'] at hr hr'
    rw [hinum', hinum'] at heq
    exact h.uniq r r' hr hr' heq
  · by_cases hrq : r = q
    · subst hrq
      rw [show (s.writeInode r x d n).itable r = x from s.setInode_self r x]
      exact hentry
    · rw [show (s.writeInode q x d n).itable r = s.itable r from s.setInode_of_ne x hrq]
      refine (h.entry r).mono (fun hr => ?_) (fun h _ => h) (fun _ _ => id) id
        fun hr hf => ⟨rfl, fun hfree => ?_⟩
      · obtain ⟨hx, hd⟩ := h.writeInode_of_ne (d := d) (n := n) hl hinum hr hrq
        unfold St.dinode at hd
        rw [hx] at hd
        rw [hd]
        exact .refl _
      · have hne := hinum ▸ h.inum_ne hl (h.ref_pos_of_freed hr hf) hrq
        unfold Free
        rw [St.writeInode, St.setDisk_of_ne _ _ hne]
        exact hfree
  · exact (hsolid' _ (.inl ⟨f, if_pos hf⟩) (h.file f hf)).1
  · obtain ⟨hs, hdir⟩ := h.cwd p' r hr
    obtain ⟨hs', heq⟩ := hsolid' r (.inr ⟨p', hr⟩) hs
    exact ⟨hs', heq.trans hdir⟩
  · have he' : e ∈ (s.disk j).ents := by
      by_cases hji : j = x.inum
      · subst hji
        rw [St.writeInode, St.setDisk_self, hents] at he
        rw [hinum]
        exact he
      · rwa [St.writeInode, St.setDisk_of_ne _ _ hji] at he
    exact h.above hscr j e (hdir j hj) he' hi hdot hdotdot (hdir _ hty)
  · change s.allocs j = update s.frees x.inum n j +
      if (update s.disk x.inum d j).type = .none then 0 else 1
    by_cases hj : j = x.inum
    · subst hj
      rw [update_self, update_self]
      exact hcount
    · rw [update_of_ne hj, update_of_ne hj]
      exact h.count j
  · by_cases hji : j = x.inum
    · exact .inl ⟨q, by rw [href']; exact h.ref_pos_of_lock hl, by rw [hinum', hji, hinum]⟩
    · rw [St.writeInode, St.setDisk_of_ne _ _ hji] at hty hn
      refine (h.lost hr j hty hn).imp_left fun ⟨r, hr, hi⟩ => ⟨r, ?_, ?_⟩
      · rw [href']
        exact hr
      · rw [hinum']
        exact hi

theorem Keeps.writeInode (h : Inv s) (hl : (s.itable q).lock = some p) (hxl : x.lock = some p)
    (hinum : x.inum = (s.itable q).inum) (hfreed : x.freed = (s.itable q).freed)
    (ht : Inv (s.writeInode q x d n))
    (htype : d.type = .dir → (s.dinode q).type = .dir)
    (hlive : (s.itable q).freeing = false →
      x.freeing = false ∧ x.valid = true ∧ d.type = (s.dinode q).type) :
    Keeps p (fun _ => True) s (s.writeInode q x d n) := by
  have hx : (s.writeInode q x d n).itable q = x := s.setInode_self q x
  have hon : Onward s (s.writeInode q x d n) := by
    refine ⟨id, id, le_rfl, fun j hj => .inl ⟨?_, rfl⟩⟩
    by_cases hji : j = x.inum
    · subst hji
      rw [St.writeInode, St.setDisk_self] at hj
      rw [hinum]
      exact htype hj
    · rwa [St.writeInode, St.setDisk_of_ne _ _ hji] at hj
  have hst : ∀ p' r, Points s p' r → Stays s (s.writeInode q x d n) r := by
    intro p' r hr
    by_cases hrq : r = q
    · subst hrq
      have hd := s.writeInode_dinode (q := r) (x := x) (d := d) (n := n)
      unfold St.dinode at hd
      rw [hx, hinum] at hd
      refine .of_entry (by rw [hx, hinum]) (fun hf => by rw [hx]; exact (hlive hf).1)
        (fun hf _ => by rw [hx]; exact (hlive hf).2.1) (fun hlr => ?_) (fun _ => by rw [hx, hfreed])
      refine ⟨?_, rfl, .inl ((h.entry r).locked (by simp [hl]))⟩
      rw [hd]
      exact (hlive hlr.1).2.2
    · obtain ⟨hx', hd⟩ := h.writeInode_of_ne (d := d) (n := n) hl hinum (h.ref_pos hr) hrq
      unfold St.dinode at hd
      rw [hx'] at hd
      exact .of_entry (by rw [hx']) (by rw [hx']; exact id) (by rw [hx']; exact fun _ => id)
        (fun _ => ⟨by rw [hd]; rfl, rfl, .inr (by rw [hd]; rfl)⟩) (fun _ => by rw [hx'])
  refine ⟨ht, hon, fun p' hp => ?_, fun r _ hr => hst p r hr⟩
  refine Rely.of_step h ht ⟨rfl, rfl, rfl, rfl, rfl, fun _ _ _ _ => rfl⟩ (fun r hr => ?_)
    (fun r hr => hst p' r hr) hon
  by_cases hrq : r = q
  · subst hrq
    rw [hx]
    exact .of_ne (by simpa [hl] using Ne.symm hp) (by simpa [hxl] using Ne.symm hp)
  · rw [(h.writeInode_of_ne hl hinum (h.ref_pos hr) hrq).1]
    exact .of_eq rfl rfl rfl

theorem keeps_setNlink (h : Inv s) (hl : (s.itable q).lock = some p)
    (hf : (s.itable q).freeing = false) (n : Int) :
    Keeps p (fun _ => True) s ((s.setInode q { s.itable q with nlink := n }).setDisk
    (s.itable q).inum
      { s.dinode q with type := (s.itable q).type, nlink := n }) := by
  have href := h.ref_pos_of_lock hl
  have hv : (s.itable q).valid = true := (h.entry q).locked (by simp [hl])
  have hlive := h.live_of_valid href hv hf
  have htype := (h.type_of_live href hv hlive).1
  have heq : (s.setInode q { s.itable q with nlink := n }).setDisk (s.itable q).inum
      { s.dinode q with type := (s.itable q).type, nlink := n } =
      s.writeInode q { s.itable q with nlink := n }
        { s.dinode q with type := (s.itable q).type, nlink := n }
        (s.frees (s.itable q).inum) := by
    rw [St.writeInode, update_eq_self]
    rfl
  rw [heq]
  refine Keeps.writeInode h hl hl rfl rfl ?_ (fun hd => htype.trans hd)
    fun _ => ⟨hf, hv, htype.symm⟩
  refine h.writeInode hl rfl rfl ?_ (fun hs => ⟨?_, htype.symm⟩) rfl (fun hd => htype.trans hd) ?_
  · refine ⟨(h.entry q).lock, (h.entry q).locked, fun hf' => absurd hf' (by simp [hf]),
      fun _ _ _ => ?_, (h.entry q).blank, fun _ hf' => absurd hf' (by simp [hf]),
      fun _ hf' => absurd hf' (by simp [hf]), fun _ hf' => absurd hf' (by simp [hf]),
      fun hr hf' => absurd ((h.entry q).freed hr hf').2.1 (by simp [hv])⟩
    rw [St.writeInode, St.setDisk_self]
    exact ⟨rfl, rfl⟩
  · have hx : (s.writeInode q { s.itable q with nlink := n }
        { s.dinode q with type := (s.itable q).type, nlink := n }
        (s.frees (s.itable q).inum)).itable q = _ := s.setInode_self q _
    refine ⟨⟨by rw [hx]; exact hf, ?_⟩, fun _ => .inl (by rw [hx]; exact hv)⟩
    rw [s.writeInode_dinode, ← htype]
    exact hlive.2
  · rw [← htype]
    exact h.count (s.itable q).inum

theorem keeps_ifree (h : Inv s) (hl : (s.itable q).lock = some p)
    (hf : (s.itable q).freeing = true) (hty : (s.itable q).type ≠ .none) :
    Keeps p (fun _ => True) s (s.writeInode q { s.itable q with type := .none }
      { s.dinode q with type := .none, nlink := (s.itable q).nlink }
      (s.frees (s.itable q).inum + 1)) := by
  have href := h.ref_pos_of_lock hl
  have hv : (s.itable q).valid = true := (h.entry q).locked (by simp [hl])
  have htype := ((h.entry q).copy href hv hty).1
  refine Keeps.writeInode h hl hl rfl rfl ?_ (fun hd => absurd hd (by simp))
    fun hf' => absurd hf' (by simp [hf])
  refine h.writeInode hl rfl rfl ?_ (fun hs => absurd hs.1.1 (by simp [hf])) rfl
    (fun hd => absurd hd (by simp)) ?_
  · refine ⟨(h.entry q).lock, (h.entry q).locked, (h.entry q).freeing,
      fun _ _ hne => absurd rfl hne, fun _ _ _ => hf, fun hr _ => (h.entry q).quiet hr hf,
      fun _ _ => ?_, fun _ _ _ => .inl ?_,
      fun hr hf' => absurd ((h.entry q).freed hr hf').2.1 (by simp [hv])⟩
    · rw [St.writeInode, St.setDisk_self]
      exact ((h.entry q).freeing hf).2
    · rw [St.writeInode, St.setDisk_self]
  · have hc := h.count (s.itable q).inum
    rw [if_neg (by rw [htype]; exact hty)] at hc
    simpa using hc

end

omit [Fintype ι] in
theorem Live.inum_ne (h : Live s q) (hfree : (s.disk i).type = .none) : (s.itable q).inum ≠ i :=
  fun heq => h.2 (by unfold St.dinode; rw [heq, hfree])

/-- `ialloc` marks an inode, which no entry can be for that is in order. -/
theorem keeps_ialloc [DecidableEq ι] (h : Inv s) {type : FileType} (hty : type ≠ .none)
    (hnone : s.fresh p = none) (hfree : (s.disk i).type = .none) :
    Keeps p (fun _ => True) s (s.mark p i type) := by
  have hdisk : ∀ j, j ≠ i → (s.mark p i type).disk j = s.disk j :=
    fun j hj => s.setDisk_of_ne _ hj
  have hself : (s.mark p i type).disk i = ⟨type, 0, [], []⟩ := s.setDisk_self ..
  have hstamp : ∀ j, j ≠ i → (s.mark p i type).stamp j = s.stamp j :=
    fun j hj => update_of_ne hj ..
  have hstamp_self : (s.mark p i type).stamp i = s.clock := update_self ..
  have hsolid : ∀ r, Solid s r → Solid (s.mark p i type) r := fun r hs =>
    hs.mono rfl id (by
      unfold St.dinode
      rw [show (s.mark p i type).itable = s.itable from rfl, hdisk _ (hs.1.inum_ne hfree)]
      exact .refl _) id
  -- the process had no inode of its own, so none is forgotten
  have hfresh : ∀ j, (∃ p', s.fresh p' = some j) → ∃ p', (s.mark p i type).fresh p' = some j := by
    rintro j ⟨p', hp'⟩
    refine ⟨p', (update_of_ne (fun hpp => ?_) ..).trans hp'⟩
    rw [hpp, hnone] at hp'
    cases hp'
  have hstill : ∀ j, Free s j → Free (s.mark p i type) j := by
    intro j hj
    by_cases hji : j = i
    · rw [hji]
      exact .inr ⟨by rw [hself], p, update_self ..⟩
    · unfold Free
      rw [hdisk j hji]
      exact hj.imp_right fun ⟨hn, hp⟩ => ⟨hn, hfresh j hp⟩
  have ht : Inv (s.mark p i type) := by
    refine ⟨h.ref, h.fref, h.uniq, fun r => ?_, fun f hf => hsolid _ (h.file f hf),
      fun p' r hr => ?_, h.unused, fun j => ?_, fun hscr j e hj he hi hdot hdotdot => ?_,
      fun j => ?_, fun hr j hty' hn => ?_⟩
    · have hr := h.entry r
      refine ⟨hr.lock, hr.locked, hr.freeing, fun href hv hne => ?_, hr.blank, hr.quiet,
        fun href hf => ?_, fun hra hf hne => hstill _ (hr.gone hra hf hne), fun hra hf => ?_⟩
      · have hcopy := hr.copy href hv hne
        by_cases hri : (s.itable r).inum = i
        · rw [hri, hfree] at hcopy
          exact absurd hcopy.1.symm hne
        · rw [show (s.mark p i type).itable = s.itable from rfl, hdisk _ hri]
          exact hcopy
      · by_cases hri : (s.itable r).inum = i
        · rw [show (s.mark p i type).itable = s.itable from rfl, hri, hself]
        · rw [show (s.mark p i type).itable = s.itable from rfl, hdisk _ hri]
          exact hr.zero href hf
      · obtain ⟨hone, hv, hl, hfr⟩ := hr.freed hra hf
        exact ⟨hone, hv, hl, hstill _ hfr⟩
    · obtain ⟨hs, hdir⟩ := h.cwd p' r hr
      refine ⟨hsolid r hs, ?_⟩
      unfold St.dinode
      rw [show (s.mark p i type).itable = s.itable from rfl, hdisk _ (hs.1.inum_ne hfree)]
      exact hdir
    · change _ < s.clock + 1
      have hj := h.stamp j
      by_cases hji : j = i
      · rw [hji, hstamp_self]
        omega
      · rw [hstamp j hji]
        omega
    · have hji : j ≠ i := by
        intro hji
        rw [hji, hself] at he
        cases he
      rw [hdisk j hji] at hj he
      intro hdir
      rw [hstamp j hji]
      by_cases hei : e.inum = i
      · rw [hei, hstamp_self]
        exact h.stamp j
      · rw [hdisk _ hei] at hdir
        rw [hstamp _ hei]
        exact h.above hscr j e hj he hi hdot hdotdot hdir
    · have hc := h.count j
      change update s.allocs i _ j = _
      by_cases hji : j = i
      · rw [hji] at hc ⊢
        rw [update_self, hself, hc, hfree]
        simp only [if_neg hty]
        rfl
      · rw [update_of_ne hji, hdisk j hji]
        exact hc
    · by_cases hji : j = i
      · exact .inr ⟨p, hji ▸ update_self ..⟩
      · rw [hdisk j hji] at hty' hn
        exact (h.lost hr j hty' hn).imp_right (hfresh j)
  have hon : Onward s (s.mark p i type) := by
    refine ⟨id, id, Nat.le_succ _, fun j hj => ?_⟩
    by_cases hji : j = i
    · rw [hji, hstamp_self]
      exact .inr le_rfl
    · rw [hdisk j hji] at hj
      exact .inl ⟨hj, hstamp j hji⟩
  have hst : ∀ r, Stays s (s.mark p i type) r := by
    refine fun r => .of_entry rfl id (fun _ => id) (fun hl => ?_) fun _ => rfl
    rw [hdisk _ (hl.inum_ne hfree), hstamp _ (hl.inum_ne hfree)]
    exact ⟨rfl, rfl, .inr rfl⟩
  refine ⟨ht, hon, fun p' hp => ?_, fun r _ _ => hst r⟩
  exact Rely.of_step h ht ⟨rfl, update_of_ne hp .., rfl, rfl, rfl, fun _ _ _ _ => rfl⟩
    (fun r _ => .of_eq rfl rfl rfl) (fun r _ => hst r) hon

end

end Xv6.Itable
