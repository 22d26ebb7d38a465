import Mathlib.Algebra.BigOperators.Group.Finset.Basic
import Mathlib.Algebra.Order.BigOperators.Group.Finset
import Xv6.Lib.Pointers
import Xv6.Lib.Families
import Xv6.Itable.Model

/-!
# Inv — who points to the entries of the inode table

The invariant of the inode table counts pointers: those of open files, of current directories and of
calls that are under way.  What a process can rely on follows from the count.  An inode is freed
only by a process whose pointer is the only one, so a pointer to an inode that is allocated and not
being freed stays one.

Deadlock is excluded by an order.  Every allocation takes a new stamp, and a directory entry other
than `.` and `..` leads to a directory with a larger one.
-/

namespace Xv6.Itable

open Lib

variable {ι : Type}

/-! ## Pointers -/

/-- The inode that an open file points to. -/
def fileIp (s : St ι) (f : Fp) : Option Ip :=
  if 0 < (s.file f).ref then some (s.file f).ip else none

section

variable [Fintype ι]

/-- The number of pointers to an entry. -/
def uses (s : St ι) (q : Ip) : Nat :=
  pointers (fileIp s) q + pointers s.cwd q + ∑ p, (s.held p).count q

/-- The number of descriptors of an open file. -/
def descriptors (s : St ι) (f : Fp) : Nat :=
  ∑ p, pointers (s.ofile p) f

end

/-- Process `p` has a pointer to the entry `q`. -/
def Points (s : St ι) (p : ι) (q : Ip) : Prop :=
  q ∈ s.held p ∨
    s.used p = true ∧ (s.cwd p = some q ∨ ∃ fd f, s.ofile p fd = some f ∧ (s.file f).ip = q)

/-- The inode of the entry is allocated and not being freed. -/
def Live (s : St ι) (q : Ip) : Prop :=
  (s.itable q).freeing = false ∧ (s.dinode q).type ≠ .none

/-- The last `iput` of the entry will see whether the inode has links. -/
def Backed (s : St ι) (q : Ip) : Prop :=
  Live s q ∧ ((s.itable q).valid = true ∨ (s.dinode q).nlink ≠ 0)

/-- Something other than a call points to the entry. -/
def Kept (s : St ι) (q : Ip) : Prop :=
  (∃ f, fileIp s f = some q) ∨ ∃ p, s.cwd p = some q

/-- What files and current directories point to. -/
def Solid (s : St ι) (q : Ip) : Prop :=
  Live s q ∧ (s.raced = false → (s.itable q).valid = true ∨ (s.dinode q).nlink ≠ 0)

/-- The inode is free, or a process has just allocated it and has no pointer to it yet. -/
def Free (s : St ι) (i : Nat) : Prop :=
  (s.disk i).type = .none ∨ (s.disk i).nlink = 0 ∧ ∃ p, s.fresh p = some i

/-- If `i` is a directory, it was allocated after the directory `d`. -/
def Ordered (s : St ι) (d i : Nat) : Prop :=
  (s.disk i).type = .dir → s.stamp d < s.stamp i

/-! ## The invariant -/

section

variable [Fintype ι]

/-- What is right for the contents `x` of the entry `q`. -/
structure EntryOk (s : St ι) (q : Ip) (x : Inode ι) : Prop where
  lock : ∀ p, x.lock = some p → Points s p q
  locked : x.lock ≠ none → x.valid = true
  freeing : x.freeing = true → x.lock ≠ none ∧ x.nlink = 0
  copy : 0 < x.ref → x.valid = true → x.type ≠ .none →
    (s.disk x.inum).type = x.type ∧ (s.disk x.inum).nlink = x.nlink
  blank : 0 < x.ref → x.valid = true → x.type = .none → x.freeing = true
  quiet : s.raced = false → x.freeing = true → uses s q = 1
  zero : 0 < x.ref → x.freeing = true → (s.disk x.inum).nlink = 0
  gone : s.raced = false → x.freeing = true → x.type = .none → Free s x.inum
  freed : s.raced = false → x.freed = true →
    uses s q = 1 ∧ x.valid = false ∧ x.lock = none ∧ Free s x.inum

structure Inv (s : St ι) : Prop where
  ref : ∀ q, (s.itable q).ref = uses s q
  fref : ∀ f, (s.file f).ref = descriptors s f
  uniq : ∀ q r, 0 < (s.itable q).ref → 0 < (s.itable r).ref →
    (s.itable q).inum = (s.itable r).inum → q = r
  entry : ∀ q, EntryOk s q (s.itable q)
  file : ∀ f, 0 < (s.file f).ref → Solid s (s.file f).ip
  cwd : ∀ p q, s.cwd p = some q → Solid s q ∧ (s.dinode q).type = .dir
  unused : ∀ p, s.used p = false → s.held p = 0 ∧ s.cwd p = none ∧ ∀ fd, s.ofile p fd = none
  stamp : ∀ i, s.stamp i < s.clock
  above : s.scribbled = false → ∀ d e, (s.disk d).type = .dir → e ∈ (s.disk d).ents →
    e.inum ≠ 0 → e.name ≠ dot → e.name ≠ dotdot → Ordered s d e.inum
  count : ∀ i, s.allocs i = s.frees i + if (s.disk i).type = .none then 0 else 1
  lost : s.raced = false → ∀ i, (s.disk i).type ≠ .none → (s.disk i).nlink = 0 →
    (∃ q, 0 < (s.itable q).ref ∧ (s.itable q).inum = i) ∨ ∃ p, s.fresh p = some i

end

/-! ## What a process relies on -/

/-- What a pointer to the entry `q` is good for is the same. -/
structure Stays (s t : St ι) (q : Ip) : Prop where
  inum : (t.itable q).inum = (s.itable q).inum
  live : Live s q → Live t q ∧ (t.dinode q).type = (s.dinode q).type ∧
    t.stamp (t.itable q).inum = s.stamp (s.itable q).inum
  backed : Backed s q → t.raced = false → Backed t q
  freed : t.raced = false → (t.itable q).freed = (s.itable q).freed

/-- What only grows.  A directory that is new has a stamp that is new. -/
structure Onward (s t : St ι) : Prop where
  raced : s.raced = true → t.raced = true
  scribbled : s.scribbled = true → t.scribbled = true
  clock : s.clock ≤ t.clock
  dirs : ∀ i, (t.disk i).type = .dir →
    (s.disk i).type = .dir ∧ t.stamp i = s.stamp i ∨ s.clock ≤ t.stamp i

structure Rely (p : ι) (s t : St ι) : Prop where
  held : t.held p = s.held p
  fresh : t.fresh p = s.fresh p
  used : s.used p = true → t.used p = true ∧ t.cwd p = s.cwd p ∧ t.ofile p = s.ofile p
  unused : s.used p = false → t.used p = true → t.cwd p ≠ none
  file : s.used p = true → ∀ fd f, s.ofile p fd = some f → (t.file f).ip = (s.file f).ip
  lock : ∀ q, (t.itable q).lock = some p ↔ (s.itable q).lock = some p
  own : ∀ q, (s.itable q).lock = some p →
    (t.itable q).freeing = (s.itable q).freeing ∧ (t.itable q).type = (s.itable q).type
  stays : ∀ q, Points s p q → Stays s t q
  onward : Onward s t

/-- What an operation of `p` needs. -/
def Pre (p : ι) : Op ι → St ι → Prop
  | .iget _, s | .idupCwd, s | .takeCwd, s => s.used p = true
  | .ilock q, s => Points s p q ∧ (s.raced = false → (s.itable q).freed = false) ∧
      (s.scribbled = false → ∀ d, (s.itable d).lock = some p →
        (s.dinode d).type = .dir ∧ Ordered s (s.itable d).inum (s.itable q).inum)
  | .iunlock q, s => (s.itable q).freeing = false
  | .iputBegin q, s => q ∈ s.held p ∧ ((s.itable q).lock = some p → 2 ≤ (s.held p).count q) ∧
      (s.raced = false → Backed s q)
  | .itrunc q, s | .find q _, s | .eraseEntry q _, s | .isdirempty q, s | .readi q, s
  | .writei q _, s => (s.itable q).lock = some p
  | .ifree q, s => (s.itable q).lock = some p ∧ (s.itable q).freeing = true ∧
      (s.itable q).type ≠ .none
  | .irelease q, s => (s.itable q).lock = some p ∧ (s.itable q).freeing = true ∧
      (s.itable q).type = .none ∧ q ∈ s.held p
  | .iputEnd q, s => q ∈ s.held p ∧ (s.itable q).lock ≠ some p ∧
      (s.raced = false → (s.itable q).freed = true)
  | .addEntry q name i, s => (s.itable q).lock = some p ∧ Live s q ∧ (s.scribbled = false →
      name ≠ dot → name ≠ dotdot → Ordered s (s.itable q).inum i)
  | .ialloc type, s => type ≠ .none ∧ s.fresh p = none
  | .setNlink q _, s => (s.itable q).lock = some p ∧ (s.itable q).freeing = false
  | .openFile q _ _, s => s.used p = true ∧ q ∈ s.held p ∧ Solid s q
  | .fileclose _, s => s.used p = true ∧ ∀ q, (s.itable q).lock ≠ some p
  | .setCwd q, s => s.used p = true ∧ s.cwd p = none ∧ q ∈ s.held p ∧ Solid s q ∧
      (s.dinode q).type = .dir
  | .exit, s => s.held p = 0 ∧ s.cwd p = none ∧ ∀ fd, s.ofile p fd = none
  | _, _ => True

/-! ## Facts about the relations -/

variable {s t u : St ι} {p p' : ι} {q r : Ip} {i d : Nat}

theorem Points.of_mem (h : q ∈ s.held p) : Points s p q :=
  .inl h

theorem Points.rely (h : Points s p q) (hst : Rely p s t) : Points t p q := by
  rcases h with h | ⟨hused, h⟩
  · exact .inl (hst.held ▸ h)
  · obtain ⟨hused', hcwd, hofile⟩ := hst.used hused
    refine .inr ⟨hused', ?_⟩
    rcases h with h | ⟨fd, f, hfd, hip⟩
    · exact .inl (hcwd ▸ h)
    · exact .inr ⟨fd, f, hofile ▸ hfd, hst.file hused fd f hfd ▸ hip⟩

theorem Stays.refl (s : St ι) (q : Ip) : Stays s s q :=
  ⟨rfl, fun h => ⟨h, rfl, rfl⟩, fun h _ => h, fun _ => rfl⟩

theorem Onward.refl (s : St ι) : Onward s s :=
  ⟨id, id, le_rfl, fun _ h => .inl ⟨h, rfl⟩⟩

theorem Onward.not_raced (h : Onward s t) (hr : t.raced = false) : s.raced = false := by
  cases hs : s.raced with
  | false => rfl
  | true => exact absurd (h.raced hs) (by simp [hr])

theorem Onward.not_scribbled (h : Onward s t) (hr : t.scribbled = false) : s.scribbled = false := by
  cases hs : s.scribbled with
  | false => rfl
  | true => exact absurd (h.scribbled hs) (by simp [hr])

theorem Onward.trans (hst : Onward s t) (htu : Onward t u) : Onward s u where
  raced := fun h => htu.raced (hst.raced h)
  scribbled := fun h => htu.scribbled (hst.scribbled h)
  clock := hst.clock.trans htu.clock
  dirs := fun i hi => by
    rcases htu.dirs i hi with ⟨hi', heq⟩ | hle
    · rcases hst.dirs i hi' with ⟨hi'', heq'⟩ | hle
      · exact .inl ⟨hi'', heq.trans heq'⟩
      · exact .inr (heq ▸ hle)
    · exact .inr (hst.clock.trans hle)

theorem Stays.trans (hst : Stays s t q) (htu : Stays t u q) (hon : Onward t u) : Stays s u q where
  inum := htu.inum.trans hst.inum
  live := fun hl => by
    obtain ⟨hl', hty, hstamp⟩ := hst.live hl
    obtain ⟨hl'', hty', hstamp'⟩ := htu.live hl'
    exact ⟨hl'', hty'.trans hty, hstamp'.trans hstamp⟩
  backed := fun hb hr => htu.backed (hst.backed hb (hon.not_raced hr)) hr
  freed := fun hr => (htu.freed hr).trans (hst.freed (hon.not_raced hr))

theorem Rely.refl (p : ι) (s : St ι) : Rely p s s where
  held := rfl
  fresh := rfl
  used := fun h => ⟨h, rfl, rfl⟩
  unused := fun h h' => by rw [h] at h'; cases h'
  file := fun _ _ _ _ => rfl
  lock := fun _ => Iff.rfl
  own := fun _ _ => ⟨rfl, rfl⟩
  stays := fun q _ => .refl s q
  onward := .refl s

theorem Rely.trans (hst : Rely p s t) (htu : Rely p t u) : Rely p s u where
  held := htu.held.trans hst.held
  fresh := htu.fresh.trans hst.fresh
  used := fun h => by
    obtain ⟨h', hcwd, hofile⟩ := hst.used h
    obtain ⟨h'', hcwd', hofile'⟩ := htu.used h'
    exact ⟨h'', hcwd'.trans hcwd, hofile'.trans hofile⟩
  unused := fun h h' => by
    -- a slot that another process has filled keeps its directory from then on
    cases hused : t.used p with
    | false => exact htu.unused hused h'
    | true => exact (htu.used hused).2.1 ▸ hst.unused h hused
  file := fun h fd f hfd => by
    obtain ⟨h', -, hofile⟩ := hst.used h
    exact (htu.file h' fd f (hofile ▸ hfd)).trans (hst.file h fd f hfd)
  lock := fun q => (htu.lock q).trans (hst.lock q)
  own := fun q h => by
    obtain ⟨hf, hty⟩ := hst.own q h
    obtain ⟨hf', hty'⟩ := htu.own q ((hst.lock q).2 h)
    exact ⟨hf'.trans hf, hty'.trans hty⟩
  stays := fun q h => (hst.stays q h).trans (htu.stays q (h.rely hst)) htu.onward
  onward := hst.onward.trans htu.onward

theorem Solid.backed (h : Solid s q) (hr : s.raced = false) : Backed s q :=
  ⟨h.1, h.2 hr⟩

/-! ## Counting -/

section

variable [Fintype ι]

theorem count_le_uses : (s.held p).count q ≤ uses s q := by
  have h := Finset.single_le_sum (f := fun p => (s.held p).count q) (fun _ _ => Nat.zero_le _)
    (Finset.mem_univ p)
  unfold uses
  omega

theorem Inv.file_pos (h : Inv s) {fd : Fin NOFILE} {f : Fp} (hfd : s.ofile p fd = some f) :
    0 < (s.file f).ref := by
  have hle := Finset.single_le_sum (f := fun p => pointers (s.ofile p) f) (fun _ _ => Nat.zero_le _)
    (Finset.mem_univ p)
  have hpos : 0 < pointers (s.ofile p) f := pointers_pos_iff.2 ⟨fd, hfd⟩
  rw [h.fref f, descriptors]
  exact_mod_cast hpos.trans_le hle

theorem Inv.fileIp_eq (h : Inv s) {fd : Fin NOFILE} {f : Fp} (hfd : s.ofile p fd = some f) :
    fileIp s f = some (s.file f).ip := by
  rw [fileIp, if_pos (h.file_pos hfd)]

/-- A pointer outside of the call of `p'` is one more. -/
theorem Inv.two_le_uses [DecidableEq ι] (h : Inv s) (hp : Points s p q) (hq : q ∈ s.held p')
    (hne : p ≠ p') : 2 ≤ uses s q := by
  have hq' : 1 ≤ (s.held p').count q := Multiset.one_le_count_iff_mem.2 hq
  have hsum : ∑ p, (s.held p).count q =
      (s.held p').count q + ∑ p ∈ Finset.univ.erase p', (s.held p).count q :=
    (Finset.add_sum_erase _ _ (Finset.mem_univ p')).symm
  unfold uses
  rcases hp with hp | ⟨-, hp | ⟨fd, f, hfd, rfl⟩⟩
  · have hle := Finset.single_le_sum (f := fun p => (s.held p).count q)
      (fun _ _ => Nat.zero_le _) (Finset.mem_erase.2 ⟨hne, Finset.mem_univ p⟩)
    have hp' : 1 ≤ (s.held p).count q := Multiset.one_le_count_iff_mem.2 hp
    omega
  · have hcwd : 0 < pointers s.cwd q := pointers_pos_iff.2 ⟨p, hp⟩
    omega
  · have hf : 0 < pointers (fileIp s) (s.file f).ip := pointers_pos_iff.2 ⟨f, h.fileIp_eq hfd⟩
    omega

theorem Inv.uses_pos (h : Inv s) (hp : Points s p q) : 0 < uses s q := by
  rcases hp with hp | ⟨-, hp | ⟨fd, f, hfd, rfl⟩⟩
  · exact (Multiset.count_pos.2 hp).trans_le count_le_uses
  · have hcwd : 0 < pointers s.cwd q := pointers_pos_iff.2 ⟨p, hp⟩
    unfold uses
    omega
  · have hf : 0 < pointers (fileIp s) (s.file f).ip := pointers_pos_iff.2 ⟨f, h.fileIp_eq hfd⟩
    unfold uses
    omega

theorem Kept.two_le_uses (h : Kept s q) (hq : q ∈ s.held p) : 2 ≤ uses s q := by
  have hle := Finset.single_le_sum (f := fun p => (s.held p).count q) (fun _ _ => Nat.zero_le _)
    (Finset.mem_univ p)
  have hq' : 1 ≤ (s.held p).count q := Multiset.one_le_count_iff_mem.2 hq
  unfold uses
  rcases h with hf | hcwd
  · have hpos := pointers_pos_iff.2 hf
    omega
  · have hpos := pointers_pos_iff.2 hcwd
    omega

theorem Inv.ref_pos_iff (h : Inv s) : 0 < (s.itable q).ref ↔ 0 < uses s q := by
  rw [h.ref q]
  exact Int.natCast_pos

theorem Inv.ref_pos (h : Inv s) (hp : Points s p q) : 0 < (s.itable q).ref :=
  h.ref_pos_iff.2 (h.uses_pos hp)

theorem Inv.ref_pos_of_lock (h : Inv s) (hl : (s.itable q).lock = some p) : 0 < (s.itable q).ref :=
  h.ref_pos ((h.entry q).lock p hl)

/-- An inode that is not being freed is allocated as its entry says. -/
theorem Inv.live_of_valid (h : Inv s) (href : 0 < (s.itable q).ref)
    (hv : (s.itable q).valid = true) (hf : (s.itable q).freeing = false) : Live s q := by
  have hty : (s.itable q).type ≠ .none := by
    intro hnone
    rw [(h.entry q).blank href hv hnone] at hf
    cases hf
  exact ⟨hf, fun hnone => hty (((h.entry q).copy href hv hty).1 ▸ hnone)⟩

theorem Inv.type_of_live (h : Inv s) (href : 0 < (s.itable q).ref)
    (hv : (s.itable q).valid = true) (hl : Live s q) :
    (s.dinode q).type = (s.itable q).type ∧ (s.dinode q).nlink = (s.itable q).nlink := by
  refine (h.entry q).copy href hv fun hnone => ?_
  have hf := (h.entry q).blank href hv hnone
  rw [hl.1] at hf
  cases hf

/-- An entry that a process can lock is not being freed. -/
theorem Inv.not_freeing (h : Inv s) (hl : (s.itable q).lock = none) :
    (s.itable q).freeing = false := by
  cases hf : (s.itable q).freeing with
  | false => rfl
  | true => exact absurd hl ((h.entry q).freeing hf).1

theorem Inv.not_freeing_of_ref (h : Inv s) (hq : (s.itable q).ref = 0) :
    (s.itable q).freeing = false := by
  refine h.not_freeing ?_
  cases hl : (s.itable q).lock with
  | none => rfl
  | some p' =>
    have hpos := h.ref_pos_of_lock hl
    omega

/-- A pointer to an inode that is in order is not the last one of an `iput` that has freed it. -/
theorem Inv.not_freed (h : Inv s) (hr : s.raced = false) (hb : Backed s q) :
    (s.itable q).freed = false := by
  cases hf : (s.itable q).freed with
  | false => rfl
  | true =>
    obtain ⟨-, hv, -, hfree⟩ := (h.entry q).freed hr hf
    rcases hb.2 with hv' | hn
    · rw [hv] at hv'
      cases hv'
    · rcases hfree with hty | ⟨hn', -⟩
      · exact absurd hty hb.1.2
      · exact absurd hn' hn

/-- A process that has the only pointer to an entry, and not twice, finds the lock free. -/
theorem Inv.lock_free [DecidableEq ι] (h : Inv s) (hq : q ∈ s.held p)
    (hown : (s.itable q).lock = some p → 2 ≤ (s.held p).count q) (href : (s.itable q).ref = 1) :
    (s.itable q).lock = none := by
  rw [h.ref q] at href
  cases hl : (s.itable q).lock with
  | none => rfl
  | some p' =>
    exfalso
    by_cases hp : p' = p
    · subst hp
      have hle := hown hl
      have hle' := count_le_uses (s := s) (p := p') (q := q)
      omega
    · have hle := h.two_le_uses ((h.entry q).lock p' hl) hq hp
      omega

end

end Xv6.Itable
