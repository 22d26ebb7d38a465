import Xv6.Itable.Moves

/-!
# Refs — the operations that move pointers

`iget`, `idup`, the end of `iput`, and the calls that give a pointer to an open file or to the
current directory of a process.  They change the count of an entry by as much as the number of its
pointers changes.
-/

namespace Xv6.Itable

open Lib
open Function (update update_apply update_eq_self update_of_ne update_self)

variable {ι : Type} [Fintype ι] {s t u : St ι} {p p' : ι} {q r : Ip} {i : Nat}

/-! ## Moves of pointers -/

/-- Pointers come, go or change hands. -/
structure Move (s t : St ι) : Prop where
  entry : ∀ r, t.itable r = { s.itable r with ref := uses t r }
  disk : t.disk = s.disk
  stamp : t.stamp = s.stamp
  clock : t.clock = s.clock
  scribbled : t.scribbled = s.scribbled
  allocs : t.allocs = s.allocs
  frees : t.frees = s.frees
  fresh : t.fresh = s.fresh
  raced : t.raced = false → s.raced = false
  uniq : ∀ q r, 0 < uses t q → 0 < uses t r → (s.itable q).inum = (s.itable r).inum → q = r
  found : ∀ r, 0 < uses t r → (s.itable r).valid = true → 0 < uses s r
  lock : ∀ p r, (s.itable r).lock = some p → Points s p r → Points t p r
  quiet : t.raced = false → ∀ r, (s.itable r).freeing = true ∨ (s.itable r).freed = true →
    uses t r = uses s r
  lost : t.raced = false → ∀ r, 0 < uses s r → (s.dinode r).type ≠ .none → (s.dinode r).nlink = 0 →
    0 < uses t r ∨ ∃ p, s.fresh p = some (s.itable r).inum
  fref : ∀ f, (t.file f).ref = descriptors t f
  file : ∀ f, 0 < (t.file f).ref → Solid s (t.file f).ip
  cwd : ∀ p q, t.cwd p = some q → Solid s q ∧ (s.dinode q).type = .dir
  unused : ∀ p, t.used p = false → t.held p = 0 ∧ t.cwd p = none ∧ ∀ fd, t.ofile p fd = none

namespace Move

theorem dinode (m : Move s t) (r : Ip) : t.dinode r = s.dinode r := by
  unfold St.dinode
  rw [m.disk, m.entry]

theorem solid (m : Move s t) (h : Solid s r) : Solid t r :=
  h.mono (by rw [m.entry]) (by rw [m.entry]; exact id) (m.dinode r ▸ .refl _) m.raced

theorem inv (m : Move s t) (h : Inv s) : Inv t where
  ref := fun r => by rw [m.entry]
  fref := m.fref
  uniq := fun q r hq hr heq => by
    rw [m.entry] at hq hr heq
    rw [m.entry r] at heq
    exact m.uniq q r (by simpa using hq) (by simpa using hr) heq
  entry := fun r => by
    rw [m.entry]
    refine (h.entry r).mono (fun _ => m.disk ▸ .refl _) (fun hpos hv => ?_) (fun p => m.lock p r)
      m.raced fun hr hf => ⟨m.quiet hr r hf, fun hfree => ?_⟩
    · exact h.ref_pos_iff.2 (m.found r (Int.natCast_pos.1 hpos) hv)
    · unfold Free
      rw [m.disk, m.fresh]
      exact hfree
  file := fun f hf => m.solid (m.file f hf)
  cwd := fun p q hq => by
    obtain ⟨hs, hdir⟩ := m.cwd p q hq
    exact ⟨m.solid hs, by rw [m.dinode]; exact hdir⟩
  unused := m.unused
  stamp := fun i => by
    rw [m.stamp, m.clock]
    exact h.stamp i
  above := by
    unfold Ordered
    rw [m.scribbled, m.disk, m.stamp]
    exact h.above
  count := by
    rw [m.allocs, m.frees, m.disk]
    exact h.count
  lost := fun hr i hty hn => by
    rw [m.disk] at hty hn
    rw [m.fresh]
    rcases h.lost (m.raced hr) i hty hn with ⟨q, hq, rfl⟩ | hp
    · refine (m.lost hr q (h.ref_pos_iff.1 hq) hty hn).imp_left fun hpos => ⟨q, ?_, ?_⟩
      · rw [m.entry]
        simpa using hpos
      · rw [m.entry]
    · exact .inr hp

theorem onward (m : Move s t) : Onward s t := by
  refine .of_same (fun _ => m.disk ▸ .refl _) m.stamp m.clock (fun hs => ?_) fun hs => ?_
  · cases ht : t.raced with
    | true => rfl
    | false => exact absurd (m.raced ht) (by simp [hs])
  · rw [m.scribbled, hs]

theorem stays (m : Move s t) (r : Ip) : Stays s t r :=
  .of_same (by rw [m.entry]) (by rw [m.entry]; exact id) (by rw [m.entry]; exact fun _ => id)
    (fun _ => m.disk ▸ .refl _) m.stamp (fun _ => by rw [m.entry])

theorem rely (m : Move s t) (h : Inv s) (hp : Untouched p s t) : Rely p s t :=
  Rely.of_step h (m.inv h) hp (fun r _ => m.entry r ▸ .of_eq rfl rfl rfl) (fun r _ => m.stays r)
    m.onward

variable {K : Ip → Prop} {f : Fp} {x : File} {fd : Fin NOFILE}

theorem keeps (m : Move s t) (h : Inv s) (hp : ∀ p', p' ≠ p → Untouched p' s t) : Keeps p K s t :=
  ⟨m.inv h, m.onward, fun p' hp' => m.rely h (hp p' hp'), fun r _ _ => m.stays r⟩

end Move

theorem Keeps.refl (h : Inv s) (p : ι) : Keeps p K s s :=
  ⟨h, .refl s, fun p' _ => .refl p' s, fun r _ _ => .refl s r⟩

theorem Keeps.trans (h : Keeps p K s t) (h' : Keeps p K t u)
    (hp : ∀ q, Points s p q → Points t p q) : Keeps p K s u :=
  ⟨h'.inv, h.onward.trans h'.onward, fun p' hp => (h.rely p' hp).trans (h'.rely p' hp),
    fun r hK hr => (h.stays r hK hr).trans (h'.stays r hK (hp r hr)) h'.onward⟩

/-! ## Counting -/

section

variable [DecidableEq ι]

theorem uses_gain (s : St ι) (p : ι) (q r : Ip) :
    uses (s.gain p q) r = uses s r + if r = q then 1 else 0 := by
  have hsum := sum_update_add s.held (fun m => m.count r) p (q ::ₘ s.held p)
  simp only [Multiset.count_cons] at hsum
  change pointers (fileIp s) r + pointers s.cwd r + ∑ p', (update s.held p _ p').count r = _
  unfold uses
  omega

theorem uses_drop (hq : q ∈ s.held p) (r : Ip) :
    uses (s.drop p q) r + (if r = q then 1 else 0) = uses s r := by
  have hsum := sum_update_add s.held (fun m => m.count r) p ((s.held p).erase q)
  have hcount : ((s.held p).erase q).count r + (if r = q then 1 else 0) = (s.held p).count r := by
    rw [← Multiset.count_cons, Multiset.cons_erase hq]
  change pointers (fileIp s) r + pointers s.cwd r + (∑ p', (update s.held p _ p').count r) + _ = _
  unfold uses
  omega

theorem uses_setCwd_some (h : s.cwd p = none) (q r : Ip) :
    uses (s.setCwd p (some q)) r = uses s r + if r = q then 1 else 0 := by
  have hcwd := pointers_set (f := q) (g := r) h
  change pointers (fileIp s) r + pointers (update s.cwd p (some q)) r +
    ∑ p', (s.held p').count r = _
  unfold uses
  omega

theorem uses_setCwd_none (h : s.cwd p = some q) (r : Ip) :
    uses (s.setCwd p none) r + (if r = q then 1 else 0) = uses s r := by
  have hcwd := pointers_clear (g := r) h
  change pointers (fileIp s) r + pointers (update s.cwd p none) r +
    (∑ p', (s.held p').count r) + _ = _
  unfold uses
  omega

omit [Fintype ι] [DecidableEq ι] in
theorem fileIp_setFile (s : St ι) (f : Fp) (x : File) : fileIp (s.setFile f x) =
    update (fileIp s) f (if 0 < x.ref then some x.ip else none) := by
  funext g
  by_cases hg : g = f
  · subst hg
    simp [fileIp, St.setFile]
  · simp [fileIp, St.setFile, hg]

omit [DecidableEq ι] in
theorem uses_setFile_same (h : (if 0 < x.ref then some x.ip else none) = fileIp s f) (r : Ip) :
    uses (s.setFile f x) r = uses s r := by
  unfold uses
  rw [fileIp_setFile, h, update_eq_self]
  rfl

omit [DecidableEq ι] in
theorem uses_setFile_some (h : fileIp s f = none) (hx : 0 < x.ref) (r : Ip) :
    uses (s.setFile f x) r = uses s r + if r = x.ip then 1 else 0 := by
  have hset := pointers_set (f := x.ip) (g := r) h
  unfold uses
  rw [fileIp_setFile, if_pos hx, hset]
  change _ + pointers s.cwd r + ∑ p, (s.held p).count r = _
  omega

omit [DecidableEq ι] in
theorem uses_setFile_none (h : fileIp s f = some q) (hx : ¬ 0 < x.ref)
    (r : Ip) : uses (s.setFile f x) r + (if r = q then 1 else 0) = uses s r := by
  have hset := pointers_clear (g := r) h
  unfold uses
  rw [fileIp_setFile, if_neg hx]
  change _ + pointers s.cwd r + (∑ p, (s.held p).count r) + _ = _
  omega

theorem descriptors_setOfile (s : St ι) (p : ι) (fd : Fin NOFILE) (v : Option Fp) (f : Fp) :
    descriptors (s.setOfile p fd v) f + pointers (s.ofile p) f =
      descriptors s f + pointers (update (s.ofile p) fd v) f :=
  sum_update_add s.ofile (fun o => pointers o f) p _

end

/-- The count of an entry goes along with the number of its pointers. -/
theorem Inv.entry_of_uses (h : Inv s) {k : Int} (ht : t.itable = (s.addRef q k).itable)
    (hu : ∀ r, (uses t r : Int) = uses s r + if r = q then k else 0) (r : Ip) :
    t.itable r = { s.itable r with ref := uses t r } := by
  rw [ht, hu r, ← h.ref r, St.addRef]
  by_cases hr : r = q
  · rw [hr, s.setInode_self, if_pos rfl]
  · rw [s.setInode_of_ne _ hr, if_neg hr, add_zero]

theorem Inv.entry_of_uses_eq (h : Inv s) (ht : t.itable = s.itable)
    (hu : ∀ r, uses t r = uses s r) (r : Ip) :
    t.itable r = { s.itable r with ref := uses t r } := by
  rw [ht, hu r, ← h.ref r]

theorem Inv.used_of_mem (h : Inv s) (hq : q ∈ s.held p) : s.used p = true := by
  cases hu : s.used p with
  | true => rfl
  | false =>
    rw [(h.unused p hu).1] at hq
    exact absurd hq (Multiset.notMem_zero q)

omit [Fintype ι] in
theorem ne_of_unused (hused : s.used p = true) (hp : s.used p' = false) : p' ≠ p := by
  rintro rfl
  rw [hused] at hp
  cases hp

/-! ## Pointers of calls -/

variable [DecidableEq ι]

omit [Fintype ι] in
theorem Points.gain (h : Points s p' r) : Points (s.gain p q) p' r := by
  rcases h with h | h
  · refine .inl ?_
    by_cases hp : p' = p
    · subst hp
      simp [St.gain, h]
    · simpa [St.gain, hp] using h
  · exact .inr h

omit [Fintype ι] in
/-- Only the pointer that is given up can be lost. -/
theorem St.mem_held_drop (h : r ∈ s.held p') (hne : ¬ (p' = p ∧ r = q)) :
    r ∈ (s.drop p q).held p' := by
  change r ∈ update s.held p _ p'
  by_cases hp : p' = p
  · subst hp
    rw [update_self]
    exact (Multiset.mem_erase_of_ne fun hr => hne ⟨rfl, hr⟩).2 h
  · rwa [update_of_ne hp]

/-- A call gets a pointer to an entry that is in use, or to one that was not and is the only one of
its inode. -/
theorem keeps_gain (h : Inv s) (hused : s.used p = true)
    (hq : 0 < (s.itable q).ref ∨ (s.itable q).valid = false ∧
      ∀ r, 0 < (s.itable r).ref → (s.itable r).inum ≠ (s.itable q).inum)
    (hf : s.raced = false → (s.itable q).freeing = false ∧ (s.itable q).freed = false) :
    Keeps p (fun _ => True) s ((s.addRef q 1).gain p q) := by
  have huses : ∀ r, uses ((s.addRef q 1).gain p q) r =
      uses s r + if r = q then 1 else 0 := fun r => uses_gain _ p q r
  have hold : ∀ r, r ≠ q → 0 < uses ((s.addRef q 1).gain p q) r → 0 < (s.itable r).ref := by
    intro r hr hpos
    rw [huses r, if_neg hr, Nat.add_zero] at hpos
    exact h.ref_pos_iff.2 hpos
  refine Move.keeps ⟨h.entry_of_uses rfl fun r => ?_, rfl, rfl, rfl, rfl, rfl, rfl, rfl, id,
    fun r r' hr hr' heq => ?_, fun r hr hv => ?_, fun p' r _ hp => hp.gain,
    fun hr r hfr => ?_, fun _ r hr _ _ => .inl ?_, h.fref, h.file, h.cwd, fun p' hp => ?_⟩ h
    fun p' hp => ⟨update_of_ne hp .., rfl, rfl, rfl, rfl, fun _ _ _ _ => rfl⟩
  · rw [huses r]
    split
    · rfl
    · rfl
  · have huniq := h.uniq
    grind
  · refine h.ref_pos_iff.1 ?_
    grind
  · have hrq : r ≠ q := by
      rintro rfl
      exact absurd hfr (by simp [hf hr])
    rw [huses r, if_neg hrq, Nat.add_zero]
  · rw [huses r]
    exact Nat.add_pos_left hr _
  · have hu := h.unused p' hp
    exact ⟨(update_of_ne (ne_of_unused hused hp) ..).trans hu.1, hu.2⟩

theorem keeps_drop (h : Inv s) (hq : q ∈ s.held p)
    (hl : (s.itable q).lock = some p → 2 ≤ (s.held p).count q)
    (hf : s.raced = false → (s.itable q).freeing = false ∧ (s.itable q).freed = false)
    (hlost : s.raced = false → uses s q = 1 → (s.dinode q).type ≠ .none → (s.dinode q).nlink = 0 →
      ∃ p', s.fresh p' = some (s.itable q).inum) :
    Keeps p (fun _ => True) s ((s.addRef q (-1)).drop p q) := by
  have huses : ∀ r, uses ((s.addRef q (-1)).drop p q) r +
      (if r = q then 1 else 0) = uses s r := fun r => uses_drop hq r
  have hpos : ∀ r, 0 < uses ((s.addRef q (-1)).drop p q) r → 0 < uses s r := by
    intro r hr
    have hu := huses r
    omega
  refine Move.keeps ⟨h.entry_of_uses rfl fun r => ?_, rfl, rfl, rfl, rfl, rfl, rfl, rfl, id,
    fun r r' hr hr' => h.uniq r r' (h.ref_pos_iff.2 (hpos r hr)) (h.ref_pos_iff.2 (hpos r' hr')),
    fun r hr _ => hpos r hr,
    fun p' r hlock hp => ?_, fun hr r hfr => ?_, fun hr r hur hty hn => ?_, h.fref, h.file, h.cwd,
    fun p' hp => ?_⟩ h
    fun p' hp => ⟨update_of_ne hp .., rfl, rfl, rfl, rfl, fun _ _ _ _ => rfl⟩
  · have hu := huses r
    grind
  · rcases hp with hp | hp
    · refine .inl ?_
      by_cases hpq : p' = p ∧ r = q
      · obtain ⟨rfl, rfl⟩ := hpq
        have hle := hl hlock
        change r ∈ update s.held p' _ p'
        rw [update_self, ← Multiset.one_le_count_iff_mem, Multiset.count_erase_self]
        exact Nat.le_sub_one_of_lt hle
      · exact St.mem_held_drop hp hpq
    · exact .inr hp
  · have hrq : r ≠ q := by
      rintro rfl
      exact absurd hfr (by simp [hf hr])
    have hu := huses r
    rwa [if_neg hrq, Nat.add_zero] at hu
  · have hu := huses r
    by_cases hone : r = q ∧ uses s r = 1
    · obtain ⟨rfl, hone⟩ := hone
      exact .inr (hlost hr hone hty hn)
    · exact .inl (by grind)
  · have hu := h.unused p' hp
    exact ⟨(update_of_ne (ne_of_unused (h.used_of_mem hq) hp) ..).trans hu.1, hu.2⟩

/-! ## `iget` -/

omit [Fintype ι] [DecidableEq ι] in
theorem St.lookup_some (h : s.lookup i = some q) :
    0 < (s.itable q).ref ∧ (s.itable q).inum = i := by
  have hq := List.find?_some h
  exact of_decide_eq_true hq

omit [Fintype ι] [DecidableEq ι] in
theorem St.lookup_none (h : s.lookup i = none) (hr : 0 < (s.itable r).ref) :
    (s.itable r).inum ≠ i := by
  intro hi
  have hall := List.find?_eq_none.1 h r (List.mem_finRange r)
  exact hall (decide_eq_true ⟨hr, hi⟩)

omit [Fintype ι] [DecidableEq ι] in
theorem St.empty_some (h : s.empty = some q) : (s.itable q).ref = 0 := by
  have hq := List.find?_some h
  exact of_decide_eq_true hq

omit [DecidableEq ι] in
/-- The bookkeeping of a pointer that may be out of order. -/
theorem keeps_flag (h : Inv s) (p : ι) (b : Bool) :
    Keeps p (fun _ => True) s { s with raced := s.raced || b } := by
  refine Move.keeps ⟨h.entry_of_uses_eq rfl fun _ => rfl, rfl, rfl, rfl, rfl, rfl, rfl, rfl,
    fun hr => (Bool.or_eq_false_iff.1 hr).1, fun r r' hr hr' => h.uniq r r' (h.ref_pos_iff.2 hr)
      (h.ref_pos_iff.2 hr'), fun _ hr _ => hr, fun _ _ _ hp => hp, fun _ _ _ => rfl,
    fun _ _ hr _ _ => .inl hr, h.fref, h.file, h.cwd, h.unused⟩ h fun p' _ =>
    ⟨rfl, rfl, rfl, rfl, rfl, fun _ _ _ _ => rfl⟩

/-- The process has a pointer to the inode that it allocated. -/
theorem keeps_fresh (h : Inv s) (hq : 0 < (s.itable q).ref)
    (hf : s.raced = false → (s.itable q).freeing = false ∧ (s.itable q).freed = false) :
    Keeps p (fun _ => True) s { s with
        fresh := if s.fresh p = some (s.itable q).inum then update s.fresh p none
          else s.fresh } := by
  set fresh := if s.fresh p = some (s.itable q).inum then update s.fresh p none
    else s.fresh with hdef
  -- only the inode that the process has a pointer to is forgotten
  have hother : ∀ i, i ≠ (s.itable q).inum → ∀ p', s.fresh p' = some i → fresh p' = some i := by
    intro i hi p' hp'
    rw [hdef]
    split
    · rename_i hp
      rw [update_of_ne ?_]
      · exact hp'
      · rintro rfl
        rw [hp] at hp'
        exact hi (Option.some.inj hp').symm
    · exact hp'
  have hstill : s.raced = false → ∀ r,
      (s.itable r).freeing = true ∨ (s.itable r).freed = true → Free s (s.itable r).inum →
      Free { s with fresh := fresh } (s.itable r).inum := by
    intro hr r hfr hfree
    refine hfree.imp_right fun ⟨hn, p', hp'⟩ => ⟨hn, p', hother _ (fun heq => ?_) p' hp'⟩
    have hrq := h.uniq r q (h.ref_pos_of_freed hr hfr) hq heq
    subst hrq
    exact absurd hfr (by simp [hf hr])
  have ht : Inv { s with fresh := fresh } := by
    refine ⟨h.ref, h.fref, h.uniq, fun r => ?_, h.file, h.cwd, h.unused, h.stamp, h.above, h.count,
      fun hr i hty hn => ?_⟩
    · exact (h.entry r).mono (fun _ => .refl _) (fun h _ => h) (fun _ _ => id) id
        fun hr hfr => ⟨rfl, hstill hr r hfr⟩
    · by_cases hi : i = (s.itable q).inum
      · exact .inl ⟨q, hq, hi.symm⟩
      · exact (h.lost hr i hty hn).imp_right fun ⟨p', hp'⟩ => ⟨p', hother i hi p' hp'⟩
  have hon : Onward s { s with fresh := fresh } :=
    .of_same (fun _ => .refl _) rfl rfl id id
  have hst : ∀ r, Stays s { s with fresh := fresh } r :=
    fun r => .of_same rfl id (fun _ => id) (fun _ => .refl _) rfl fun _ => rfl
  refine ⟨ht, hon, fun p' hp => ?_, fun r _ _ => hst r⟩
  refine Rely.of_step h ht ⟨rfl, ?_, rfl, rfl, rfl, fun _ _ _ _ => rfl⟩
    (fun r _ => .of_eq rfl rfl rfl) (fun r _ => hst r) hon
  rw [hdef]
  split
  · exact update_of_ne hp ..
  · rfl

omit [DecidableEq ι] in
/-- A pointer that is in order is not to an inode that is being freed or was freed. -/
theorem Inv.igetOk_freeing (h : Inv s) (hq : s.lookup i = some q) (hok : s.igetOk p i = true)
    (hr : s.raced = false) : (s.itable q).freeing = false ∧ (s.itable q).freed = false := by
  obtain ⟨href, hinum⟩ := St.lookup_some hq
  unfold St.igetOk at hok
  rw [hq] at hok
  constructor
  · cases hf : (s.itable q).freeing with
    | false => rfl
    | true =>
      have hzero := (h.entry q).zero href hf
      rw [hinum] at hzero
      simp [hf, hzero] at hok
  · cases hf : (s.itable q).freed with
    | false => rfl
    | true =>
      obtain ⟨-, hv, -, hfree⟩ := (h.entry q).freed hr hf
      rw [hinum] at hfree
      rcases hfree with hty | ⟨hn, -⟩
      · simp [hv, hty] at hok
      · simp [hv, hn] at hok

omit [DecidableEq ι] in
theorem keeps_recycle (h : Inv s) (hq : (s.itable q).ref = 0) (i : Nat) :
    Keeps p (fun _ => True) s
      (s.setInode q { s.itable q with inum := i, valid := false, freed := false }) := by
  set x : Inode ι := { s.itable q with inum := i, valid := false, freed := false }
  have hlock : ∀ p', (s.itable q).lock ≠ some p' := fun p' hl => by
    have hpos := h.ref_pos_of_lock hl
    omega
  have hf : x.freeing = false := h.not_freeing_of_ref hq
  have href := s.setInode_ref (q := q) (x := x) rfl
  have hne : ∀ r, 0 < (s.itable r).ref → r ≠ q := by
    rintro r hr rfl
    omega
  have hother : ∀ r, 0 < (s.itable r).ref → (s.setInode q x).itable r = s.itable r :=
    fun r hr => s.setInode_of_ne _ (hne r hr)
  have hd : ∀ r, 0 < (s.itable r).ref → (s.setInode q x).dinode r = s.dinode r := by
    intro r hr
    unfold St.dinode
    rw [hother r hr]
    rfl
  have hsolid : ∀ r, Kept s r → Solid s r → Solid (s.setInode q x) r := by
    intro r hk hs
    have hr := hk.ref_pos h
    exact hs.mono (by rw [hother r hr]) (by rw [hother r hr]; exact id) (hd r hr ▸ .refl _) id
  have ht : Inv (s.setInode q x) := by
    refine ⟨fun r => (href r).trans (h.ref r), h.fref, fun r r' hr hr' heq => ?_, fun r => ?_,
      fun f hf => hsolid _ (.inl ⟨f, if_pos hf⟩) (h.file f hf), fun p' r hr => ?_,
      h.unused, h.stamp,
      h.above, h.count, fun hr j hty hn => ?_⟩
    · rw [href] at hr hr'
      rw [hother r hr, hother r' hr'] at heq
      exact h.uniq r r' hr hr' heq
    · by_cases hr : r = q
      · rw [hr, s.setInode_self]
        exact ⟨fun p' hl => absurd hl (hlock p'), fun hl =>
          absurd (Option.eq_none_iff_forall_ne_some.2 hlock) hl,
          fun hf' => absurd hf' (by simp [hf]), fun _ hv => absurd hv (by simp),
          fun _ hv => absurd hv (by simp), fun _ hf' => absurd hf' (by simp [hf]),
          fun _ hf' => absurd hf' (by simp [hf]), fun _ hf' => absurd hf' (by simp [hf]),
          fun _ hf' => absurd hf' (by simp)⟩
      · rw [s.setInode_of_ne _ hr]
        exact (h.entry r).mono (fun _ => .refl _) (fun h _ => h) (fun _ _ => id) id
          fun _ _ => ⟨rfl, id⟩
    · obtain ⟨hs, hdir⟩ := h.cwd p' r hr
      have hk : Kept s r := .inr ⟨p', hr⟩
      exact ⟨hsolid r hk hs, by rw [hd r (hk.ref_pos h)]; exact hdir⟩
    · refine (h.lost hr j hty hn).imp_left fun ⟨r, hr, hj⟩ => ⟨r, ?_, ?_⟩
      · rw [href]
        exact hr
      · rw [hother r hr]
        exact hj
  have hon : Onward s (s.setInode q x) :=
    .of_same (fun _ => .refl _) rfl rfl id id
  have hst : ∀ p' r, Points s p' r → Stays s (s.setInode q x) r := by
    intro p' r hr
    have hx := hother r (h.ref_pos hr)
    exact .of_same (by rw [hx]) (by rw [hx]; exact id) (by rw [hx]; exact fun _ => id)
      (fun _ => .refl _) rfl (fun _ => by rw [hx])
  refine ⟨ht, hon, fun p' _ => ?_, fun r _ hr => hst p r hr⟩
  exact Rely.of_step h ht ⟨rfl, rfl, rfl, rfl, rfl, fun _ _ _ _ => rfl⟩
    (fun r hr => hother r (h.ref_pos hr) ▸ .of_eq rfl rfl rfl) (fun r hr => hst p' r hr) hon

/-- A pointer to an entry for the inode `i`, with the bookkeeping of `got` around it. -/
theorem keeps_pointer (h : Inv s) (hused : s.used p = true)
    (hq : 0 < (s.itable q).ref ∨ (s.itable q).valid = false ∧
      ∀ r, 0 < (s.itable r).ref → (s.itable r).inum ≠ (s.itable q).inum)
    (hf : s.raced = false → (s.itable q).freeing = false ∧ (s.itable q).freed = false) :
    Keeps p (fun _ => True) s { (s.addRef q 1).gain p q with
        fresh := if s.fresh p = some (s.itable q).inum then update s.fresh p none
          else s.fresh } := by
  have hgain := keeps_gain h hused hq hf
  have hx : ((s.addRef q 1).gain p q).itable q = { s.itable q with ref := (s.itable q).ref + 1 } :=
    s.setInode_self q _
  have hpos : 0 < (((s.addRef q 1).gain p q).itable q).ref := by
    refine hgain.inv.ref_pos (p := p) (.of_mem ?_)
    simp [St.gain]
  have hfresh := keeps_fresh (p := p) hgain.inv hpos fun hr => by
    rw [hx]
    exact hf hr
  rw [hx] at hfresh
  exact hgain.trans hfresh fun _ hr => hr.gain

theorem keeps_iget (h : Inv s) (hused : s.used p = true) (hexec : s.iget p i = some (q, t)) :
    Keeps p (fun _ => True) s t := by
  have hflag := keeps_flag h p (!s.igetOk p i)
  unfold St.iget at hexec
  split at hexec
  · rename_i q' hq
    cases hexec
    obtain ⟨href, hinum⟩ := St.lookup_some hq
    have hpointer := keeps_pointer hflag.inv hused (q := q) (.inl href) fun hr => by
      obtain ⟨hr, hok⟩ := Bool.or_eq_false_iff.1 hr
      exact h.igetOk_freeing hq (by simpa using hok) hr
    refine hflag.trans ?_ fun _ hr => hr
    simp only [hinum] at hpointer
    exact hpointer
  · rename_i hnone
    rcases Option.map_eq_some_iff.1 hexec with ⟨q', hempty, heq⟩
    cases heq
    have href := St.empty_some hempty
    have hrec := keeps_recycle (p := p) hflag.inv (q := q) href i
    refine (hflag.trans hrec fun _ hr => hr).trans ?_ fun _ hr => hr
    have hpointer := keeps_pointer (p := p) (q := q) hrec.inv hused (.inr ⟨?_, fun r hr => ?_⟩)
      fun _ => ?_
    · simpa [St.got, St.gain, St.addRef, St.setInode, href] using hpointer
    · rw [St.setInode_self]
    · rw [St.setInode_self]
      by_cases hrq : r = q
      · subst hrq
        rw [St.setInode_self] at hr
        simp only [href] at hr
        exact absurd hr (lt_irrefl 0)
      · rw [St.setInode_of_ne _ _ hrq] at hr ⊢
        exact St.lookup_none hnone hr
    · rw [St.setInode_self]
      exact ⟨h.not_freeing_of_ref href, rfl⟩

/-! ## Open files -/

omit [Fintype ι] [DecidableEq ι] in
theorem St.freeFd_some (h : s.freeFd p = some fd) : s.ofile p fd = none := by
  have hfd := List.find?_some h
  exact of_decide_eq_true hfd

omit [DecidableEq ι] in
/-- A move of pointers that keeps the number of pointers to each entry. -/
theorem Inv.exchange (h : Inv s) (hu : ∀ r, uses t r = uses s r) (hitable : t.itable = s.itable)
    (hrest : t.disk = s.disk ∧ t.stamp = s.stamp ∧ t.clock = s.clock ∧
      t.scribbled = s.scribbled ∧ t.allocs = s.allocs ∧ t.frees = s.frees ∧ t.fresh = s.fresh ∧
      t.raced = s.raced)
    (hlock : ∀ p r, (s.itable r).lock = some p → Points s p r → Points t p r)
    (hfref : ∀ f, (t.file f).ref = descriptors t f)
    (hfile : ∀ f, 0 < (t.file f).ref → Solid s (t.file f).ip)
    (hcwd : ∀ p q, t.cwd p = some q → Solid s q ∧ (s.dinode q).type = .dir)
    (hunused : ∀ p, t.used p = false →
      t.held p = 0 ∧ t.cwd p = none ∧ ∀ fd, t.ofile p fd = none) : Move s t where
  entry := h.entry_of_uses_eq hitable hu
  disk := hrest.1
  stamp := hrest.2.1
  clock := hrest.2.2.1
  scribbled := hrest.2.2.2.1
  allocs := hrest.2.2.2.2.1
  frees := hrest.2.2.2.2.2.1
  fresh := hrest.2.2.2.2.2.2.1
  raced := fun hr => hrest.2.2.2.2.2.2.2 ▸ hr
  uniq := fun q r hq hr => by
    rw [hu] at hq hr
    exact h.uniq q r (h.ref_pos_iff.2 hq) (h.ref_pos_iff.2 hr)
  found := fun r hr _ => hu r ▸ hr
  lock := hlock
  quiet := fun _ r _ => hu r
  lost := fun _ r hr _ _ => .inl (hu r ▸ hr)
  fref := hfref
  file := hfile
  cwd := hcwd
  unused := hunused

omit [DecidableEq ι] in
theorem Inv.used_of_ofile (h : Inv s) (hfd : s.ofile p fd = some f) : s.used p = true := by
  cases hu : s.used p with
  | true => rfl
  | false =>
    rw [(h.unused p hu).2.2 fd] at hfd
    cases hfd

omit [Fintype ι] [DecidableEq ι] in
theorem St.setFile_file (s : St ι) (f g : Fp) (x : File) :
    (s.setFile f x).file g = if g = f then x else s.file g :=
  update_apply ..

omit [Fintype ι] [DecidableEq ι] in
theorem St.setFile_self (s : St ι) (f : Fp) (x : File) : (s.setFile f x).file f = x :=
  update_self ..

omit [Fintype ι] [DecidableEq ι] in
theorem St.setFile_of_ne (s : St ι) {g : Fp} (x : File) (h : g ≠ f) :
    (s.setFile f x).file g = s.file g :=
  update_of_ne h ..

omit [Fintype ι] in
theorem St.setOfile_of_ne (s : St ι) (fd : Fin NOFILE) (v : Option Fp) (h : p' ≠ p) :
    (s.setOfile p fd v).ofile p' = s.ofile p' :=
  update_of_ne h ..

omit [Fintype ι] in
theorem St.setOfile_self (s : St ι) (p : ι) (fd : Fin NOFILE) (v : Option Fp) :
    (s.setOfile p fd v).ofile p = update (s.ofile p) fd v :=
  update_self ..

theorem descriptors_set (h : s.ofile p fd = none) (f g : Fp) :
    descriptors (s.setOfile p fd (some f)) g = descriptors s g + if g = f then 1 else 0 := by
  have hset := pointers_set (f := f) (g := g) h
  have hsum := descriptors_setOfile s p fd (some f) g
  omega

theorem descriptors_clear (h : s.ofile p fd = some f) (g : Fp) :
    descriptors (s.setOfile p fd none) g + (if g = f then 1 else 0) = descriptors s g := by
  have hset := pointers_clear (g := g) h
  have hsum := descriptors_setOfile s p fd none g
  omega

omit [Fintype ι] in
/-- Pointers other than those through the descriptors of `p` stay when `p` changes one. -/
theorem Points.setOfile (h : Points s p' r) {v : Option Fp}
    (hx : ∀ fd' f', s.ofile p' fd' = some f' → f' = f → x.ip = (s.file f).ip)
    (hp : p' = p → ∀ f', s.ofile p fd = some f' → v = some f') :
    Points ((s.setFile f x).setOfile p fd v) p' r := by
  rcases h with h | ⟨hused, h | ⟨fd', f', hfd', hip⟩⟩
  · exact .inl h
  · exact .inr ⟨hused, .inl h⟩
  · refine .inr ⟨hused, .inr ⟨fd', f', ?_, ?_⟩⟩
    · change (s.setOfile p fd v).ofile p' fd' = some f'
      by_cases hpp : p' = p
      · subst hpp
        rw [s.setOfile_self, update_apply]
        grind
      · rwa [s.setOfile_of_ne fd v hpp]
    · change ((s.setFile f x).file f').ip = r
      rw [s.setFile_file]
      grind

theorem keeps_openFile (h : Inv s) (hq : q ∈ s.held p) (hs : Solid s q) (writable device : Bool) :
    Keeps p (fun _ => True) s (s.openFile p q writable device).2 := by
  unfold St.openFile
  split
  · rename_i f fd hf hfd
    have hf1 := List.find?_some hf
    have hf0 : (s.file f).ref = 0 := of_decide_eq_true hf1
    have hfd0 := St.freeFd_some hfd
    have hused := h.used_of_mem hq
    have hnone : ∀ p' fd' f', s.ofile p' fd' = some f' → f' ≠ f := by
      rintro p' fd' f' hfd' rfl
      have hpos := h.file_pos hfd'
      omega
    have hip : fileIp s f = none := if_neg (by omega)
    simp only
    generalize hx : ({ ref := 1, ip := q, writable := writable, device := device } : File) = x
    have hxref : x.ref = 1 := hx ▸ rfl
    have hxip : x.ip = q := hx ▸ rfl
    have huses : ∀ r, uses (((s.setFile f x).setOfile p fd (some f)).drop p q) r = uses s r := by
      intro r
      have hdrop := uses_drop (s := (s.setFile f x).setOfile p fd (some f)) (p := p) (q := q) hq r
      have hset := uses_setFile_some (x := x) hip (by omega) r
      rw [hxip] at hset
      change _ = uses (s.setFile f x) r at hdrop
      omega
    refine Move.keeps (h.exchange huses rfl ⟨rfl, rfl, rfl, rfl, rfl, rfl, rfl, rfl⟩
      (fun p' r _ hp => ?_)
      (fun g => ?_) (fun g hg => ?_) h.cwd fun p' hp => ?_) h fun p' hp => ?_
    · have hp' : Points ((s.setFile f x).setOfile p fd (some f)) p' r :=
        hp.setOfile (fun fd' f' hfd' hff => absurd hff (hnone p' fd' f' hfd'))
          fun _ f' hfd' => absurd hfd' (by simp [hfd0])
      by_cases hpp : p' = p ∧ r = q
      · obtain ⟨rfl, rfl⟩ := hpp
        refine .inr ⟨hused, .inr ⟨fd, f, ?_, ?_⟩⟩
        · exact (congrFun (s.setOfile_self p' fd (some f)) fd).trans (update_self ..)
        · exact (congrArg File.ip (s.setFile_self f x)).trans hxip
      · exact hp'.imp_left fun hp' => St.mem_held_drop hp' hpp
    · have hd := descriptors_set hfd0 f g
      have href := h.fref g
      change ((s.setFile f x).file g).ref = descriptors (s.setOfile p fd (some f)) g
      rw [s.setFile_file]
      grind
    · change Solid s ((s.setFile f x).file g).ip
      change 0 < ((s.setFile f x).file g).ref at hg
      have hfile := h.file g
      rw [s.setFile_file] at hg ⊢
      grind
    · have hpp := ne_of_unused hused hp
      have hu := h.unused p' hp
      exact ⟨(update_of_ne hpp ..).trans hu.1, hu.2.1,
        fun fd' => (congrFun (s.setOfile_of_ne fd _ hpp) fd').trans (hu.2.2 fd')⟩
    · refine ⟨update_of_ne hp .., rfl, rfl, rfl, s.setOfile_of_ne fd _ hp, fun _ fd' f' hfd' => ?_⟩
      exact congrArg File.ip (s.setFile_of_ne x (hnone p' fd' f' hfd'))
  · exact .refl h p

theorem Inv.fref_set (h : Inv s) {v : Option Fp} {k : Int}
    (hd : ∀ g, (descriptors (s.setOfile p fd v) g : Int) = descriptors s g + if g = f then k else 0)
    (g : Fp) : ((s.setFile f { s.file f with ref := (s.file f).ref + k }).file g).ref =
      descriptors (s.setOfile p fd v) g := by
  rw [hd g, ← h.fref g, s.setFile_file]
  grind

omit [DecidableEq ι] in
theorem Inv.file_reref (h : Inv s) {g : Fp} {n : Int} (hf : 0 < (s.file f).ref)
    (hg : 0 < ((s.setFile f { s.file f with ref := n }).file g).ref) :
    Solid s ((s.setFile f { s.file f with ref := n }).file g).ip := by
  have hfile := h.file
  rw [s.setFile_file] at hg ⊢
  grind

omit [Fintype ι] [DecidableEq ι] in
theorem St.setFile_ip (s : St ι) (f g : Fp) (n : Int) :
    ((s.setFile f { s.file f with ref := n }).file g).ip = (s.file g).ip := by
  rw [s.setFile_file]
  grind

theorem Inv.unused_setOfile (h : Inv s) (hused : s.used p = true) (fd : Fin NOFILE) (v : Option Fp)
    (hp : s.used p' = false) : ∀ fd', (s.setOfile p fd v).ofile p' fd' = none := by
  intro fd'
  rw [s.setOfile_of_ne fd v (ne_of_unused hused hp)]
  exact (h.unused p' hp).2.2 fd'

theorem keeps_dup (h : Inv s) (p : ι) (fd : Fin NOFILE) :
    Keeps p (fun _ => True) s (s.dup p fd).2 := by
  unfold St.dup
  split
  · rename_i f fd' hf hfd'
    have hfd0 := St.freeFd_some hfd'
    have hpos := h.file_pos hf
    have hused := h.used_of_ofile hf
    have huses : ∀ r, uses ((s.setFile f { s.file f with ref := (s.file f).ref + 1 }).setOfile p fd'
        (some f)) r = uses s r := by
      intro r
      refine uses_setFile_same (f := f) ?_ r
      rw [fileIp, if_pos hpos, if_pos (by simp only; omega)]
    refine Move.keeps (h.exchange huses rfl ⟨rfl, rfl, rfl, rfl, rfl, rfl, rfl, rfl⟩
      (fun p' r _ hp => ?_)
      (h.fref_set fun g => ?_) (fun g hg => h.file_reref hpos hg) h.cwd fun p' hp => ?_) h
      fun p' hp => ⟨rfl, rfl, rfl, rfl, s.setOfile_of_ne fd' _ hp,
        fun _ _ g _ => s.setFile_ip f g _⟩
    · exact hp.setOfile (fun _ _ _ _ => rfl) fun _ f' hf' => absurd hf' (by simp [hfd0])
    · rw [descriptors_set hfd0 f g]
      split
      · rfl
      · rfl
    · have hu := h.unused p' hp
      exact ⟨hu.1, hu.2.1, h.unused_setOfile hused fd' _ hp⟩
  · exact .refl h p

theorem keeps_fileclose (h : Inv s) (hl : ∀ q, (s.itable q).lock ≠ some p) (fd : Fin NOFILE) :
    Keeps p (fun _ => True) s (s.fileclose p fd).2 := by
  unfold St.fileclose
  split
  · exact .refl h p
  · rename_i f hf
    have hpos := h.file_pos hf
    have hused := h.used_of_ofile hf
    have hd : ∀ g, (descriptors (s.setOfile p fd none) g : Int) =
        descriptors s g + if g = f then (-1 : Int) else 0 := by
      intro g
      have hclear := descriptors_clear hf g
      grind
    have hpoints : ∀ p' r, (s.itable r).lock = some p' → Points s p' r →
        Points ((s.setFile f { s.file f with ref := (s.file f).ref - 1 }).setOfile p fd none)
        p' r := by
      intro p' r hlock hp
      refine hp.setOfile (fun _ _ _ _ => rfl) fun hpp _ _ => ?_
      exact absurd (hpp ▸ hlock) (hl r)
    have hunused : ∀ p', s.used p' = false → ∀ fd', (s.setOfile p fd none).ofile p' fd' = none :=
      fun p' hp => h.unused_setOfile hused fd none hp
    have hip : fileIp s f = some (s.file f).ip := h.fileIp_eq hf
    simp only
    split
    · rename_i hlast
      have huses : ∀ r, uses ((s.setOfile p fd none).setFile f
          { s.file f with ref := (s.file f).ref - 1 }) r = uses s r := by
        intro r
        refine uses_setFile_same (s := s.setOfile p fd none) (f := f) ?_ r
        rw [if_pos (by simpa using hlast)]
        exact hip.symm
      refine Move.keeps (h.exchange huses rfl ⟨rfl, rfl, rfl, rfl, rfl, rfl, rfl, rfl⟩ hpoints
        (h.fref_set hd) (fun g hg => h.file_reref hpos hg) h.cwd fun p' hp => ?_) h
        fun p' hp => ⟨rfl, rfl, rfl, rfl, s.setOfile_of_ne fd _ hp,
          fun _ _ g _ => s.setFile_ip f g _⟩
      exact ⟨(h.unused p' hp).1, (h.unused p' hp).2.1, hunused p' hp⟩
    · rename_i hlast
      have huses : ∀ r, uses (((s.setOfile p fd none).setFile f
          { s.file f with ref := (s.file f).ref - 1 }).gain p (s.file f).ip) r = uses s r := by
        intro r
        have hset := uses_setFile_none (s := s.setOfile p fd none) (f := f)
          (x := { s.file f with ref := (s.file f).ref - 1 }) hip (by simpa using hlast) r
        have hgain := uses_gain ((s.setOfile p fd none).setFile f
          { s.file f with ref := (s.file f).ref - 1 }) p (s.file f).ip r
        change _ = uses s r at hset
        omega
      refine Move.keeps (h.exchange huses rfl ⟨rfl, rfl, rfl, rfl, rfl, rfl, rfl, rfl⟩
        (fun p' r hlock hp => (hpoints p' r hlock hp).gain)
        (h.fref_set hd) (fun g hg => h.file_reref hpos hg) h.cwd fun p' hp => ?_) h
        fun p' hp => ⟨update_of_ne hp .., rfl, rfl, rfl, s.setOfile_of_ne fd _ hp,
          fun _ _ g _ => s.setFile_ip f g _⟩
      exact ⟨(update_of_ne (ne_of_unused hused hp) ..).trans (h.unused p' hp).1,
        (h.unused p' hp).2.1,
        hunused p' hp⟩

/-! ## Current directories -/

theorem keeps_takeCwd (h : Inv s) (hq : s.cwd p = some q) :
    Keeps p (fun _ => True) s ((s.setCwd p none).gain p q) := by
  have hused : s.used p = true := by
    cases hu : s.used p with
    | true => rfl
    | false =>
      rw [(h.unused p hu).2.1] at hq
      cases hq
  have huses : ∀ r, uses ((s.setCwd p none).gain p q) r = uses s r := by
    intro r
    have hgain := uses_gain (s.setCwd p none) p q r
    have hset := uses_setCwd_none hq r
    omega
  refine Move.keeps (h.exchange huses rfl ⟨rfl, rfl, rfl, rfl, rfl, rfl, rfl, rfl⟩
    (fun p' r _ hp => ?_)
    h.fref h.file (fun p' r hr => ?_) fun p' hp => ?_) h
    fun p' hp => ⟨update_of_ne hp .., rfl, rfl, update_of_ne hp .., rfl, fun _ _ _ _ => rfl⟩
  · rcases hp with hp | ⟨hused', hp | hp⟩
    · exact Points.gain (s := s.setCwd p none) (.inl hp)
    · by_cases hpp : p' = p
      · subst hpp
        rw [hq] at hp
        cases hp
        exact .inl (by simp [St.gain])
      · exact .inr ⟨hused', .inl ((update_of_ne hpp ..).trans hp)⟩
    · exact .inr ⟨hused', .inr hp⟩
  · by_cases hpp : p' = p
    · subst hpp
      exact absurd hr (by simp [St.gain, St.setCwd])
    · exact h.cwd p' r ((update_of_ne hpp ..).symm.trans hr)
  · have hpp := ne_of_unused hused hp
    have hu := h.unused p' hp
    exact ⟨(update_of_ne hpp ..).trans hu.1, (update_of_ne hpp ..).trans hu.2.1, hu.2.2⟩

theorem keeps_setCwd (h : Inv s) (hq : q ∈ s.held p) (hcwd : s.cwd p = none) (hs : Solid s q)
    (hdir : (s.dinode q).type = .dir) :
    Keeps p (fun _ => True) s ((s.setCwd p (some q)).drop p q) := by
  have hused := h.used_of_mem hq
  have huses : ∀ r, uses ((s.setCwd p (some q)).drop p q) r = uses s r := by
    intro r
    have hdrop := uses_drop (s := s.setCwd p (some q)) (p := p) (q := q) hq r
    have hset := uses_setCwd_some hcwd q r
    omega
  refine Move.keeps (h.exchange huses rfl ⟨rfl, rfl, rfl, rfl, rfl, rfl, rfl, rfl⟩
    (fun p' r _ hp => ?_)
    h.fref h.file (fun p' r hr => ?_) fun p' hp => ?_) h
    fun p' hp => ⟨update_of_ne hp .., rfl, rfl, update_of_ne hp .., rfl, fun _ _ _ _ => rfl⟩
  · by_cases hpq : p' = p ∧ r = q
    · obtain ⟨rfl, rfl⟩ := hpq
      exact .inr ⟨hused, .inl (update_self ..)⟩
    · rcases hp with hp | ⟨hused', hp | hp⟩
      · exact .inl (St.mem_held_drop hp hpq)
      · have hpp : p' ≠ p := by
          rintro rfl
          rw [hcwd] at hp
          cases hp
        exact .inr ⟨hused', .inl ((update_of_ne hpp ..).trans hp)⟩
      · exact .inr ⟨hused', .inr hp⟩
  · by_cases hpp : p' = p
    · subst hpp
      have hqr : q = r := by simpa [St.drop, St.setCwd] using hr
      exact hqr ▸ ⟨hs, hdir⟩
    · exact h.cwd p' r ((update_of_ne hpp ..).symm.trans hr)
  · have hpp := ne_of_unused hused hp
    have hu := h.unused p' hp
    exact ⟨(update_of_ne hpp ..).trans hu.1, (update_of_ne hpp ..).trans hu.2.1, hu.2.2⟩

/-! ## `fork` and `exit` -/

/-- How many of the descriptors in a list are for the file `f`. -/
def times (o : Fin NOFILE → Option Fp) (l : List (Fin NOFILE)) (f : Fp) : Nat :=
  l.countP fun fd => decide (o fd = some f)

omit [Fintype ι] [DecidableEq ι] in
theorem St.dupAll_eq (o : Fin NOFILE → Option Fp) (l : List (Fin NOFILE)) : s.dupAll o l =
    { s with file := fun f => { s.file f with ref := (s.file f).ref + times o l f } } := by
  induction l generalizing s with
  | nil => simp [St.dupAll, times]
  | cons fd l ih =>
    rw [St.dupAll]
    cases hfd : o fd with
    | none => simp [ih, times, hfd]
    | some g =>
      simp only [ih, St.setFile]
      congr 1
      funext f
      by_cases hf : f = g
      · subst hf
        simp [times, hfd]
        omega
      · simp [times, hfd, hf, Ne.symm hf]

theorem times_finRange (o : Fin NOFILE → Option Fp) (f : Fp) :
    times o (List.finRange NOFILE) f = pointers o f := by
  rw [times, pointers, List.countP_eq_length_filter, ← List.toFinset_card_of_nodup]
  · congr 1
    ext fd
    simp
  · exact (List.nodup_finRange NOFILE).filter _

/-- The state after `fork` with the references of the files counted. -/
def forked (s : St ι) (p child : ι) (q : Ip) : St ι :=
  ({ s with
    file := fun f => { s.file f with ref := (s.file f).ref + pointers (s.ofile p) f }
    ofile := update s.ofile child (s.ofile p)
    used := update s.used child true }.addRef q 1).setCwd child (some q)

omit [Fintype ι] in
theorem St.fork_eq (hq : s.cwd p = some q) (hchild : s.used p' = false) :
    s.fork p p' = (true, forked s p p' q) := by
  simp only [St.fork, hq, hchild, if_true, St.dupAll_eq, times_finRange]
  rfl

omit [DecidableEq ι] in
theorem pointers_le_descriptors (s : St ι) (p : ι) (f : Fp) :
    pointers (s.ofile p) f ≤ descriptors s f :=
  Finset.single_le_sum (f := fun p => pointers (s.ofile p) f) (fun _ _ => Nat.zero_le _)
    (Finset.mem_univ p)

omit [DecidableEq ι] in
theorem Inv.not_points (h : Inv s) (hp : s.used p = false) : ¬ Points s p r := by
  rintro (hr | ⟨hused, -⟩)
  · rw [(h.unused p hp).1] at hr
    exact absurd hr (Multiset.notMem_zero r)
  · rw [hp] at hused
    cases hused

section

variable {child : ι} (h : Inv s) (hq : s.cwd p = some q) (hchild : s.used child = false)

include h

omit [DecidableEq ι] in
/-- The parent has a descriptor only for a file that is open. -/
theorem Inv.ref_fork (p : ι) (f : Fp) :
    0 < (s.file f).ref + pointers (s.ofile p) f ↔ 0 < (s.file f).ref := by
  have hle := pointers_le_descriptors s p f
  have hf := h.fref f
  omega

include hchild

theorem uses_forked (r : Ip) : uses (forked s p child q) r = uses s r + if r = q then 1 else 0 := by
  have hset := uses_setCwd_some (s := { s with
    file := fun f => { s.file f with ref := (s.file f).ref + pointers (s.ofile p) f } })
    (h.unused child hchild).2.1 q r
  have hfile : fileIp { s with
      file := fun f => { s.file f with ref := (s.file f).ref + pointers (s.ofile p) f } } =
      fileIp s := by
    funext f
    simp only [fileIp, h.ref_fork p f]
  have hsame : uses { s with
      file := fun f => { s.file f with ref := (s.file f).ref + pointers (s.ofile p) f } } r =
      uses s r := by
    unfold uses
    rw [hfile]
  rw [← hsame]
  exact hset

theorem descriptors_forked (f : Fp) :
    descriptors (forked s p child q) f = descriptors s f + pointers (s.ofile p) f := by
  have hsum := sum_update_add s.ofile (fun o => pointers o f) child (s.ofile p)
  have hnone : pointers (s.ofile child) f = 0 :=
    pointers_eq_zero_iff.2 fun fd => by simp [(h.unused child hchild).2.2 fd]
  rw [hnone, Nat.add_zero] at hsum
  exact hsum

include hq

theorem forked_move : Move s (forked s p child q) := by
  have hsolid := h.cwd p q hq
  have hkept : Kept s q := .inr ⟨p, hq⟩
  have huses := uses_forked (p := p) (q := q) h hchild
  have hpos : ∀ r, 0 < uses (forked s p child q) r → 0 < uses s r := by
    intro r hr
    rw [huses r] at hr
    by_cases hrq : r = q
    · exact hrq ▸ h.ref_pos_iff.1 (hkept.ref_pos h)
    · simpa [hrq] using hr
  refine ⟨h.entry_of_uses rfl fun r => ?_, rfl, rfl, rfl, rfl, rfl, rfl, rfl, id,
    fun r r' hr hr' => h.uniq r r' (h.ref_pos_iff.2 (hpos r hr)) (h.ref_pos_iff.2 (hpos r' hr')),
    fun r hr _ => hpos r hr,
    fun p' r _ hp => ?_, fun hr r hf => ?_, fun _ r hr _ _ => .inl ?_, fun f => ?_,
    fun f hf => h.file f ((h.ref_fork p f).1 hf),
    fun p' r hr => ?_, fun p' hp => ?_⟩
  · rw [huses r]
    split
    · rfl
    · rfl
  · have hpc : p' ≠ child := by
      rintro rfl
      exact h.not_points hchild hp
    rcases hp with hp | ⟨hused, hp | ⟨fd, f, hfd, hip⟩⟩
    · exact .inl hp
    · exact .inr ⟨(update_of_ne hpc ..).trans hused, .inl ((update_of_ne hpc ..).trans hp)⟩
    · exact .inr ⟨(update_of_ne hpc ..).trans hused,
        .inr ⟨fd, f, (congrFun (update_of_ne hpc ..) fd).trans hfd, hip⟩⟩
  · have hrq : r ≠ q := by
      rintro rfl
      exact absurd hf (by simp [hsolid.1.1.1, h.not_freed hr (hsolid.1.backed hr)])
    rw [huses r, if_neg hrq, Nat.add_zero]
  · rw [huses r]
    exact Nat.add_pos_left hr _
  · rw [descriptors_forked h hchild]
    change (s.file f).ref + _ = _
    rw [h.fref f]
    push_cast
    rfl
  · by_cases hpc : p' = child
    · subst hpc
      have hqr : q = r := by simpa [forked, St.setCwd] using hr
      exact hqr ▸ hsolid
    · exact h.cwd p' r ((update_of_ne hpc ..).symm.trans hr)
  · have hpc : p' ≠ child := by
      rintro rfl
      exact absurd hp (by simp [forked, St.setCwd, St.addRef, St.setInode])
    have hu := h.unused p' ((update_of_ne hpc ..).symm.trans hp)
    exact ⟨hu.1, (update_of_ne hpc ..).trans hu.2.1,
      fun fd => (congrFun (update_of_ne hpc ..) fd).trans (hu.2.2 fd)⟩

/-- The slot that `fork` fills had no pointer. -/
theorem rely_forked_child : Rely child s (forked s p child q) := by
  have m := forked_move h hq hchild
  have hno : ∀ r, ¬ Points s child r := fun r => h.not_points hchild
  have hlock : ∀ r, (s.itable r).lock ≠ some child := fun r hl => hno r ((h.entry r).lock child hl)
  refine ⟨rfl, rfl, fun hu => ?_, fun _ _ => ?_, fun hu => ?_, fun r => ?_,
    fun r hl => absurd hl (hlock r), fun r hr => absurd hr (hno r), m.onward⟩
  · rw [hchild] at hu
    cases hu
  · simp [forked, St.setCwd]
  · rw [hchild] at hu
    cases hu
  · rw [m.entry]

end

theorem keeps_fork (h : Inv s) (p child : ι) : Keeps p (fun _ => True) s (s.fork p child).2 := by
  cases hq : s.cwd p with
  | none =>
    simp only [St.fork, hq]
    exact .refl h p
  | some q =>
    cases hchild : s.used child with
    | true =>
      simp only [St.fork, hq, hchild, Bool.true_eq_false, if_false]
      exact .refl h p
    | false =>
      rw [St.fork_eq hq hchild]
      have m := forked_move h hq hchild
      refine ⟨m.inv h, m.onward, fun p' _ => ?_, fun r _ _ => m.stays r⟩
      by_cases hpc : p' = child
      · subst hpc
        exact rely_forked_child h hq hchild
      · exact m.rely h ⟨rfl, rfl, update_of_ne hpc .., update_of_ne hpc ..,
          update_of_ne hpc .., fun _ _ _ _ => rfl⟩

theorem keeps_exit (h : Inv s) (hp : s.held p = 0 ∧ s.cwd p = none ∧ ∀ fd, s.ofile p fd = none) :
    Keeps p (fun _ => True) s { s with used := update s.used p false } := by
  refine Move.keeps (h.exchange (fun _ => rfl) rfl ⟨rfl, rfl, rfl, rfl, rfl, rfl, rfl, rfl⟩
    (fun p' r _ hr => ?_) h.fref h.file h.cwd fun p' hp' => ?_) h
    fun p' hp' => ⟨rfl, rfl, update_of_ne hp' .., rfl, rfl, fun _ _ _ _ => rfl⟩
  · by_cases hpp : p' = p
    · subst hpp
      rcases hr with hr | ⟨-, hr | ⟨fd, f, hfd, -⟩⟩
      · rw [hp.1] at hr
        exact absurd hr (Multiset.notMem_zero r)
      · rw [hp.2.1] at hr
        cases hr
      · rw [hp.2.2 fd] at hfd
        cases hfd
    · rcases hr with hr | ⟨hused, hr⟩
      · exact .inl hr
      · exact .inr ⟨(update_of_ne hpp ..).trans hused, hr⟩
  · by_cases hpp : p' = p
    · exact hpp ▸ hp
    · exact h.unused p' ((update_of_ne hpp ..).symm.trans hp')

end Xv6.Itable
