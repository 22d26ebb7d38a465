import Xv6.Itable.Refs

/-!
# Rules — what a process knows after each of its operations

The operations of the inode table form a protocol.  What a process knows between two of its
operations is its own part of the state, which no other process changes, and what its pointers are
good for.  There is one rule for each operation.
-/

namespace Xv6.Itable

open Lib
open Lib.Protocol (wp_call wp_mono wp_ret)
open Function (update update_eq_self_iff update_of_ne update_self)

variable {ι : Type} [Fintype ι] [DecidableEq ι] {ninodes : Nat}
variable {s t u v : St ι} {p p' : ι} {q r : Ip} {i : Nat}

/-! ## The protocol -/

/-- The pointers of the process that an operation keeps. -/
def Spared : Op ι → Ip → Prop
  | .iputBegin q, r | .irelease q, r | .iputEnd q, r => r ≠ q
  | _, _ => True

omit [DecidableEq ι] in
theorem Keeps.mono {K K' : Ip → Prop} (h : Keeps p K s t) (hK : ∀ q, K' q → K q) : Keeps p K' s t :=
  ⟨h.inv, h.onward, h.rely, fun q hq => h.stays q (hK q hq)⟩

/-- `iput` of a pointer that is not the last one, or to an inode that has links. -/
theorem keeps_iputDrop (h : Inv s) (hq : q ∈ s.held p)
    (hl : (s.itable q).lock = some p → 2 ≤ (s.held p).count q)
    (hb : s.raced = false → Backed s q)
    (hmore : ¬ ((s.itable q).ref = 1 ∧ (s.itable q).valid = true ∧ (s.itable q).nlink = 0)) :
    Keeps p (fun _ => True) s ((s.addRef q (-1)).drop p q) := by
  refine keeps_drop h hq hl (fun hr => ⟨(hb hr).1.1, h.not_freed hr (hb hr)⟩)
    fun hr hone hty hn => absurd ?_ hmore
  have href : (s.itable q).ref = 1 := by
    rw [h.ref q, hone]
    rfl
  have hv : (s.itable q).valid = true := (hb hr).2.resolve_right fun hne => hne hn
  exact ⟨href, hv, (h.type_of_live (by omega) hv (hb hr).1).2.symm.trans hn⟩

theorem keeps_iputBegin (h : Inv s) (hq : q ∈ s.held p)
    (hl : (s.itable q).lock = some p → 2 ≤ (s.held p).count q)
    (hb : s.raced = false → Backed s q) {b : Bool} (hexec : s.iputBegin p q = some (b, t)) :
    Keeps p (· ≠ q) s t := by
  unfold St.iputBegin at hexec
  simp only at hexec
  split at hexec
  · rename_i hlast
    split at hexec
    · rename_i hfree
      cases hexec
      exact keeps_iputLock h hq hlast.1 hlast.2.1 hlast.2.2 hfree
    · cases hexec
  · rename_i hmore
    cases hexec
    exact (keeps_iputDrop h hq hl hb hmore).mono fun _ _ => trivial

/-- The end of `iput` gives up the pointer to an inode that is free by now. -/
theorem keeps_iputEnd (h : Inv s) (hq : q ∈ s.held p) (hl : (s.itable q).lock ≠ some p)
    (hfreed : s.raced = false → (s.itable q).freed = true) :
    Keeps p (· ≠ q) s
      (((s.setInode q { s.itable q with freed := false }).addRef q (-1)).drop p q) := by
  have hx := s.setInode_self q { s.itable q with freed := false }
  have hset : Keeps p (· ≠ q) s (s.setInode q { s.itable q with freed := false }) := by
    have hentry := h.entry q
    refine Keeps.setEntry h rfl rfl ?_ (fun hv hf => ⟨hf, id⟩) (fun p' _ _ => .of_eq rfl rfl rfl)
      fun p' hK hq' => ⟨fun hf => ⟨hf, id⟩, fun hr => ?_⟩
    · exact ⟨hentry.lock, hentry.locked, hentry.freeing, hentry.copy, hentry.blank, hentry.quiet,
        hentry.zero, hentry.gone, fun _ hf => absurd hf (by simp)⟩
    · -- the process has the only pointer
      have hone := (hentry.freed hr (hfreed hr)).1
      have hp : p' ≠ p := fun hp => hK hp rfl
      have hle := h.two_le_uses hq' hq hp
      omega
  refine hset.trans ((keeps_drop hset.inv hq (fun hl' => ?_) (fun hr => ?_)
    fun hr _ hty hn => ?_).mono
    fun _ _ => trivial) fun _ hr => hr
  · rw [hx] at hl'
    exact absurd hl' hl
  · rw [hx]
    exact ⟨h.not_freeing (((h.entry q).freed hr (hfreed hr)).2.2.1), rfl⟩
  · unfold St.dinode at hty hn
    rw [hx] at hty hn ⊢
    obtain ⟨-, -, -, hty' | ⟨-, hp⟩⟩ := (h.entry q).freed hr (hfreed hr)
    · exact absurd hty' hty
    · exact hp

theorem mem_insertEnt {ents : List Dirent} {e x : Dirent} (h : e ∈ insertEnt ents x) :
    e ∈ ents ∨ e = x := by
  unfold insertEnt at h
  split at h
  · exact List.mem_or_eq_of_mem_set h
  · simpa using h

omit [DecidableEq ι] in
theorem keeps_ents (h : Inv s) {ents : List Dirent} {x : Dirent}
    (hents : ∀ e ∈ ents, e ∈ (s.disk i).ents ∨ e = x)
    (hx : s.scribbled = false → x.inum ≠ 0 → x.name ≠ dot → x.name ≠ dotdot → Ordered s i x.inum) :
    Keeps p (fun _ => True) s (s.setDisk i { s.disk i with ents := ents }) := by
  refine Keeps.setContent (b := s.scribbled) h ⟨rfl, rfl⟩ id
    fun hscr hdir e he hi hdot hdotdot => ?_
  rcases hents e he with he | rfl
  · exact h.above hscr i e hdir he hi hdot hdotdot
  · exact hx hscr hi hdot hdotdot

theorem exec_keeps (h : Inv s) {o : Op ι} (hpre : Pre p o s) {c : Nat} {r : o.Reply}
    (hexec : exec ninodes p c o s = some (r, t)) : Keeps p (Spared o) s t := by
  cases o with
  | iget i => exact keeps_iget h hpre hexec
  | idupCwd =>
    rcases Option.map_eq_some_iff.1 hexec with ⟨q, hq, heq⟩
    cases heq
    have hk : Kept s _ := .inr ⟨p, hq⟩
    have hs := (h.cwd p _ hq).1
    exact keeps_gain h hpre (.inl (hk.ref_pos h)) fun hr => ⟨hs.1.1, h.not_freed hr (hs.backed hr)⟩
  | inum q =>
    cases hexec
    exact .refl h p
  | type q =>
    cases hexec
    exact .refl h p
  | ilock q => exact keeps_ilock h hpre.1 hpre.2.1 hexec
  | iunlock q =>
    simp only [exec] at hexec
    split at hexec
    · rename_i hl
      cases hexec
      exact keeps_iunlock h hl.1 hpre
    · cases hexec
  | iputBegin q => exact keeps_iputBegin h hpre.1 hpre.2.1 hpre.2.2 hexec
  | itrunc q =>
    cases hexec
    exact Keeps.setContent (b := s.scribbled) h ⟨rfl, rfl⟩ id
      fun _ _ e he => absurd he (List.not_mem_nil)
  | ifree q =>
    cases hexec
    exact keeps_ifree h hpre.1 hpre.2.1 hpre.2.2
  | irelease q =>
    cases hexec
    exact keeps_irelease h hpre.1 hpre.2.1 hpre.2.2.1 hpre.2.2.2
  | iputEnd q =>
    cases hexec
    exact keeps_iputEnd h hpre.1 hpre.2.1 hpre.2.2
  | find q name =>
    simp only [exec] at hexec
    split at hexec
    · cases hexec
      exact .refl h p
    · cases hexec
  | addEntry q name i =>
    simp only [exec] at hexec
    split at hexec
    · cases hexec
      exact .refl h p
    · cases hexec
      exact keeps_ents h (fun e => mem_insertEnt) fun hscr _ => hpre.2.2 hscr
  | eraseEntry q n =>
    cases hexec
    exact keeps_ents (x := ⟨[], 0⟩) h (fun e => List.mem_or_eq_of_mem_set) fun _ hi => absurd rfl hi
  | isdirempty q =>
    cases hexec
    exact .refl h p
  | ialloc type =>
    simp only [exec] at hexec
    split at hexec
    · cases hexec
      exact .refl h p
    · split at hexec
      · rename_i hfree
        cases hexec
        exact keeps_ialloc h hpre.1 hpre.2 hfree.2
      · cases hexec
  | setNlink q n =>
    cases hexec
    exact keeps_setNlink h hpre.1 hpre.2 n
  | readi q =>
    cases hexec
    exact .refl h p
  | writei q w =>
    simp only [exec] at hexec
    split at hexec
    · cases hexec
      exact .refl h p
    · split at hexec
      · cases hexec
        exact Keeps.setContent (b := true) h ⟨rfl, rfl⟩ (fun _ => rfl) fun hb => absurd hb (by simp)
      · cases hexec
        exact Keeps.setContent (b := s.scribbled) h ⟨rfl, rfl⟩ id
          fun hscr hdir e he hi hdot hdotdot => h.above hscr _ e hdir he hi hdot hdotdot
  | openFile q writable device =>
    have heq : (s.openFile p q writable device).2 = t := congrArg Prod.snd (Option.some.inj hexec)
    exact heq ▸ keeps_openFile h hpre.2.1 hpre.2.2 writable device
  | file fd =>
    cases hexec
    exact .refl h p
  | fileclose fd =>
    have heq : (s.fileclose p fd).2 = t := congrArg Prod.snd (Option.some.inj hexec)
    exact heq ▸ keeps_fileclose h hpre.2 fd
  | dup fd =>
    have heq : (s.dup p fd).2 = t := congrArg Prod.snd (Option.some.inj hexec)
    exact heq ▸ keeps_dup h p fd
  | takeCwd =>
    rcases Option.map_eq_some_iff.1 hexec with ⟨q, hq, heq⟩
    cases heq
    exact keeps_takeCwd h hq
  | setCwd q =>
    cases hexec
    exact keeps_setCwd h hpre.2.2.1 hpre.2.1 hpre.2.2.2.1 hpre.2.2.2.2
  | fork child =>
    have heq : (s.fork p child).2 = t := congrArg Prod.snd (Option.some.inj hexec)
    exact heq ▸ keeps_fork h p child
  | exit =>
    cases hexec
    exact keeps_exit h hpre
  | panic => cases hexec

variable (ninodes) in
/-- The inode table as a protocol. -/
def protocol : Protocol ι (St ι) Nat (Op ι) Op.Reply where
  exec := exec ninodes
  Inv := Inv
  Rely := Rely
  Pre := Pre

variable (ι ninodes) in
theorem protocol_sound : (protocol ninodes : Protocol ι (St ι) Nat (Op ι) Op.Reply).Sound where
  refl := Rely.refl
  trans := fun _ _ _ _ => Rely.trans
  keep := fun p c o s r t h hpre hexec => by
    have hk := exec_keeps h hpre hexec
    exact ⟨hk.inv, hk.rely⟩

/-- Process `p` can run `c` in `s`, and `Q` holds when it is done. -/
abbrev wp {α : Type} (ninodes : Nat) (p : ι) (Q : α → St ι → Prop) (c : Cmd ι α)
    (s : St ι) : Prop :=
  (protocol ninodes).wp p Q c s

theorem wp_seq {α β : Type} {c : Cmd ι α} {g : α → Cmd ι β} {R : α → St ι → Prop}
    {Q : β → St ι → Prop} (h : wp ninodes p R c s)
    (hg : ∀ a t, Inv t → R a t → wp ninodes p Q (g a) t) : wp ninodes p Q (c >>= g) s :=
  Protocol.wp_seq (protocol_sound ι ninodes) h hg

/-! ## What a process knows -/

/-- The part of the state that belongs to one process. -/
structure Private where
  held : Multiset Ip
  locks : Finset Ip
  fresh : Option Nat
  cwd : Option Ip
  ofile : Fin NOFILE → Option Fp

/-- The private part of `p` is `a`; of the inodes that it has locked it is freeing `f`. -/
structure Own (p : ι) (a : Private) (f : Option Ip) (s : St ι) : Prop where
  used : s.used p = true
  held : s.held p = a.held
  fresh : s.fresh p = a.fresh
  cwd : s.cwd p = a.cwd
  ofile : s.ofile p = a.ofile
  locks : ∀ q, (s.itable q).lock = some p ↔ q ∈ a.locks
  freeing : ∀ q ∈ a.locks, (s.itable q).freeing = decide (f = some q)

abbrev At (p : ι) (a : Private) (s : St ι) : Prop :=
  Own p a none s

/-- What the pointers in `h` are good for is the same as it was in `s`. -/
structure Keep (h : Multiset Ip) (s t : St ι) : Prop where
  stays : ∀ q ∈ h, Stays s t q
  onward : Onward s t

/-- If nothing was out of order, the last `iput` will see the links of the inode. -/
def Sure (s : St ι) (q : Ip) : Prop :=
  s.raced = false → Backed s q

/-- If nothing was out of order, the pointer is not the last one of an `iput` that has freed the
inode. -/
def Fine (s : St ι) (q : Ip) : Prop :=
  s.raced = false → (s.itable q).freed = false

def IsDir (s : St ι) (q : Ip) : Prop :=
  Live s q ∧ (s.dinode q).type = .dir

/-- If no directory was written to as a file, the inode `i` comes after the directory `d`. -/
def Above (s : St ι) (d : Ip) (i : Nat) : Prop :=
  s.scribbled = false → Ordered s (s.itable d).inum i

section

variable {a b : Private} {f : Option Ip} {h h' : Multiset Ip} {d : Ip}

omit [Fintype ι] [DecidableEq ι]

theorem Keep.refl (h : Multiset Ip) (s : St ι) : Keep h s s :=
  ⟨fun q _ => .refl s q, .refl s⟩

theorem Keep.trans (hst : Keep h s t) (htu : Keep h t u) : Keep h s u :=
  ⟨fun q hq => (hst.stays q hq).trans (htu.stays q hq) htu.onward, hst.onward.trans htu.onward⟩

theorem Keep.mono (hst : Keep h s t) (hle : h' ⊆ h) : Keep h' s t :=
  ⟨fun q hq => hst.stays q (hle hq), hst.onward⟩

theorem Own.rely (ha : Own p a f s) (hst : Rely p s t) : Own p a f t where
  used := (hst.used ha.used).1
  held := hst.held.trans ha.held
  fresh := hst.fresh.trans ha.fresh
  cwd := (hst.used ha.used).2.1.trans ha.cwd
  ofile := (hst.used ha.used).2.2.trans ha.ofile
  locks := fun q => (hst.lock q).trans (ha.locks q)
  freeing := fun q hq => (hst.own q ((ha.locks q).2 hq)).1.trans (ha.freeing q hq)

theorem Own.points (ha : Own p a f s) (hq : q ∈ a.held) : Points s p q :=
  .inl (ha.held ▸ hq)

theorem Own.keep (ha : Own p a f s) (hst : Rely p s t) : Keep a.held s t :=
  ⟨fun q hq => hst.stays q (ha.points hq), hst.onward⟩

theorem Sure.stays (hq : Sure s q) (hst : Stays s t q) (hon : Onward s t) : Sure t q :=
  fun hr => hst.backed (hq (hon.not_raced hr)) hr

theorem Fine.stays (hq : Fine s q) (hst : Stays s t q) (hon : Onward s t) : Fine t q :=
  fun hr => (hst.freed hr).trans (hq (hon.not_raced hr))

theorem Sure.rely (hq : Sure s q) (hst : Rely p s t) (hp : Points s p q) : Sure t q :=
  hq.stays (hst.stays q hp) hst.onward

theorem Fine.rely (hq : Fine s q) (hst : Rely p s t) (hp : Points s p q) : Fine t q :=
  hq.stays (hst.stays q hp) hst.onward

theorem Sure.keep (hq : Sure s q) (hst : Keep h s t) (hmem : q ∈ h) : Sure t q :=
  hq.stays (hst.stays q hmem) hst.onward

theorem IsDir.stays (hq : IsDir s q) (hst : Stays s t q) : IsDir t q := by
  obtain ⟨hl, hty, -⟩ := hst.live hq.1
  exact ⟨hl, hty.trans hq.2⟩

theorem Keep.rely (hk : Keep h s u) (ha : Own p a f u) (hh : h ⊆ a.held) (huv : Rely p u v) :
    Keep h s v :=
  hk.trans ((ha.keep huv).mono hh)

theorem Keep.own (hk : Keep a.held s u) (ha : Own p a f u) (huv : Rely p u v) : Keep a.held s v :=
  hk.trans (ha.keep huv)

end

section

variable {a b : Private} {f : Option Ip} {h h' : Multiset Ip} {d : Ip}

omit [DecidableEq ι]

theorem Sure.fine (hq : Sure s q) (hs : Inv s) : Fine s q :=
  fun hr => hs.not_freed hr (hq hr)

/-- A directory that is new comes after those that are there. -/
theorem Above.stays (hd : Above s d i) (hs : Inv s) (hl : Live s d) (hst : Stays s t d)
    (hon : Onward s t) : Above t d i := by
  intro hscr hdir
  obtain ⟨-, -, hstamp⟩ := hst.live hl
  rw [hstamp]
  rcases hon.dirs i hdir with ⟨hdir', heq⟩ | hle
  · rw [heq]
    exact hd (hon.not_scribbled hscr) hdir'
  · exact (hs.stamp _).trans_le hle

theorem Own.live (ha : Own p a f s) (hs : Inv s) (hq : q ∈ a.locks) (hf : f ≠ some q) :
    Live s q := by
  have hl := (ha.locks q).2 hq
  refine hs.live_of_valid (hs.ref_pos_of_lock hl) ((hs.entry q).locked (by simp [hl])) ?_
  rw [ha.freeing q hq]
  exact decide_eq_false hf

/-- The rule for an operation: what the process knows before it, and what it makes of that. -/
theorem wp_op [DecidableEq ι] {o : Op ι} {Q : o.Reply → St ι → Prop} (ha : Own p a f s)
    (hstable : ∀ r u v, Inv u → Rely p u v → Q r u → Q r v)
    (hop : ∀ t, Rely p s t → Inv t → Own p a f t → Pre p o t ∧ ∀ c r u,
      exec ninodes p c o t = some (r, u) → Keeps p (Spared o) t u → Q r u) :
    wp ninodes p Q (Code.call o) s := by
  refine wp_call fun t hst ht => ?_
  obtain ⟨hpre, hpost⟩ := hop t hst ht (ha.rely hst)
  refine ⟨hpre, fun c r u hexec hu v huv _ => hstable r u v hu huv ?_⟩
  exact hpost c r u hexec (exec_keeps ht hpre hexec)

/-- The process keeps its pointers over one of its own operations. -/
theorem Keep.op {K : Ip → Prop} (ha : Own p a f t) (hst : Rely p s t) (hs : Own p a f s)
    (hk : Keeps p K t u) (hh : h ⊆ a.held) (hK : ∀ q ∈ h, K q) : Keep h s u :=
  ((hs.keep hst).mono hh).trans ⟨fun q hq => hk.stays q (hK q hq) (ha.points (hh hq)), hk.onward⟩

theorem Keep.all {K : Ip → Prop} (ha : Own p a f t) (hst : Rely p s t) (hs : Own p a f s)
    (hk : Keeps p K t u) (hK : ∀ q, K q) : Keep a.held s u :=
  .op ha hst hs hk (fun _ hq => hq) fun q _ => hK q

theorem wp_kept [DecidableEq ι] {α : Type} {Q : α → St ι → Prop} {x : α} (ha : Own p a f t)
    (hk : Keep a.held s t) (hQ : ∀ v, Own p a f v → Q x v) :
    wp ninodes p (fun r v => Keep a.held s v ∧ Q r v) (pure x) t :=
  wp_ret _ fun v htv _ => ⟨hk.own ha htv, hQ v (ha.rely htv)⟩

end

/-! ## Operations on the disk and on inodes that are locked -/

section

variable {a : Private} {f : Option Ip} {h : Multiset Ip}

omit [Fintype ι] [DecidableEq ι] in
/-- The private part is `b` if the step has changed nothing but what makes the difference. -/
theorem Own.step {b : Private} (ha : Own p a f t) (hused : u.used p = t.used p)
    (hheld : u.held p = b.held) (hfresh : u.fresh p = b.fresh) (hcwd : u.cwd p = b.cwd)
    (hofile : u.ofile p = b.ofile) (hlocks : b.locks = a.locks)
    (hentry : ∀ q, (u.itable q).lock = (t.itable q).lock ∧
      (u.itable q).freeing = (t.itable q).freeing) : Own p b f u where
  used := hused.trans ha.used
  held := hheld
  fresh := hfresh
  cwd := hcwd
  ofile := hofile
  locks := fun q => by
    rw [(hentry q).1, hlocks]
    exact ha.locks q
  freeing := fun q hq => by
    rw [(hentry q).2]
    exact ha.freeing q (hlocks ▸ hq)

omit [Fintype ι] [DecidableEq ι] in
theorem St.setInode_lock (s : St ι) {x : Inode ι} (hl : x.lock = (s.itable q).lock)
    (hf : x.freeing = (s.itable q).freeing) (r : Ip) :
    ((s.setInode q x).itable r).lock = (s.itable r).lock ∧
      ((s.setInode q x).itable r).freeing = (s.itable r).freeing := by
  by_cases hr : r = q
  · rw [hr, s.setInode_self]
    exact ⟨hl, hf⟩
  · rw [s.setInode_of_ne x hr]
    exact ⟨rfl, rfl⟩

/-- An operation that leaves the private part and the locks as they are. -/
theorem wp_local {o : Op ι} (ha : Own p a f s) (hK : ∀ q, Spared o q)
    (hpre : ∀ t, Inv t → Own p a f t → Pre p o t)
    (hpost : ∀ t c r u, Own p a f t → exec ninodes p c o t = some (r, u) → Own p a f u) :
    wp ninodes p (fun _ v => Own p a f v ∧ Keep a.held s v) (Code.call o) s := by
  refine wp_op ha (fun r u v _ huv hu => ?_) fun t hst ht hat => ⟨hpre t ht hat, ?_⟩
  · exact ⟨hu.1.rely huv, hu.2.own hu.1 huv⟩
  · intro c r u hexec hk
    exact ⟨hpost t c r u hat hexec, .all hat hst ha hk hK⟩

theorem wp_type (ha : Own p a f s) (q : Ip) : wp ninodes p
    (fun _ v => Own p a f v ∧ Keep a.held s v) (Cmd.type q) s :=
  wp_local ha (fun _ => trivial) (fun _ _ _ => trivial) fun t c r u hat hexec => by
    cases hexec
    exact hat

theorem wp_readi (ha : Own p a f s) (hq : q ∈ a.locks) : wp ninodes p
    (fun _ v => Own p a f v ∧ Keep a.held s v) (Cmd.readi q) s :=
  wp_local ha (fun _ => trivial) (fun t _ hat => (hat.locks q).2 hq) fun t c r u hat hexec => by
      cases hexec
      exact hat

theorem wp_isdirempty (ha : Own p a f s) (hq : q ∈ a.locks) : wp ninodes p
    (fun _ v => Own p a f v ∧ Keep a.held s v) (Cmd.isdirempty q) s :=
  wp_local ha (fun _ => trivial) (fun t _ hat => (hat.locks q).2 hq) fun t c r u hat hexec => by
      cases hexec
      exact hat

theorem wp_itrunc (ha : Own p a f s) (hq : q ∈ a.locks) : wp ninodes p
    (fun _ v => Own p a f v ∧ Keep a.held s v) (Cmd.itrunc q) s :=
  wp_local ha (fun _ => trivial) (fun t _ hat => (hat.locks q).2 hq) fun t c r u hat hexec => by
      cases hexec
      exact { hat with }

theorem wp_eraseEntry (ha : Own p a f s) (hq : q ∈ a.locks) (n : Nat) :
    wp ninodes p (fun _ v => Own p a f v ∧ Keep a.held s v) (Cmd.eraseEntry q n) s :=
  wp_local ha (fun _ => trivial) (fun t _ hat => (hat.locks q).2 hq) fun t c r u hat hexec => by
      cases hexec
      exact { hat with }

theorem wp_setNlink (ha : At p a s) (hq : q ∈ a.locks) (n : Int) :
    wp ninodes p (fun _ v => At p a v ∧ Keep a.held s v) (Cmd.setNlink q n) s :=
  wp_local ha (fun _ => trivial) (fun t _ hat => ⟨(hat.locks q).2 hq, hat.freeing q hq⟩)
    fun t c r u hat hexec => by
      cases hexec
      exact hat.step rfl hat.held hat.fresh hat.cwd hat.ofile rfl
        (t.setInode_lock (x := { t.itable q with nlink := n }) rfl rfl)

theorem wp_writei (ha : Own p a f s) (hq : q ∈ a.locks) (w : Chunk) :
    wp ninodes p (fun _ v => Own p a f v ∧ Keep a.held s v) (Cmd.writei q w) s :=
  wp_local ha (fun _ => trivial) (fun t _ hat => (hat.locks q).2 hq) fun t c r u hat hexec => by
      simp only [exec] at hexec
      split at hexec
      · cases hexec
        exact hat
      · split at hexec
        · cases hexec
          exact { hat with }
        · cases hexec
          exact { hat with }

theorem wp_panic (Q : Unit → St ι → Prop) : wp ninodes p Q Cmd.panic s :=
  wp_call fun _ _ _ => ⟨trivial, fun _ _ _ hexec => by cases hexec⟩

theorem wp_inum (ha : Own p a f s) (hq : q ∈ a.held) : wp ninodes p
    (fun r v => Own p a f v ∧ Keep a.held s v ∧ (v.itable q).inum = r) (Cmd.inum q) s := by
  refine wp_op ha (fun r u v _ huv hu => ?_) fun t hst _ hat => ⟨trivial, ?_⟩
  · refine ⟨hu.1.rely huv, hu.2.1.own hu.1 huv, ?_⟩
    exact (huv.stays q (hu.1.points hq)).inum.trans hu.2.2
  · intro c r u hexec hk
    cases hexec
    exact ⟨hat, .all hat hst ha hk fun _ => trivial, rfl⟩

omit [DecidableEq ι] in
/-- A record of a directory leads upwards. -/
theorem Inv.findEnt_above (hs : Inv s) (hdir : (s.dinode q).type = .dir) {name : Name} {n : Nat}
    (hfind : findEnt (s.dinode q).ents name = some (n, i)) (hdot : name ≠ dot)
    (hdotdot : name ≠ dotdot) : Above s q i := by
  intro hscr
  unfold findEnt at hfind
  rcases Option.bind_eq_some_iff.1 hfind with ⟨m, hm, hmap⟩
  rcases Option.map_eq_some_iff.1 hmap with ⟨e, he, heq⟩
  cases heq
  obtain ⟨hlt, hp, -⟩ := List.findIdx?_eq_some_iff_getElem.1 hm
  rw [List.getElem?_eq_getElem hlt] at he
  cases he
  obtain ⟨hi, hname⟩ := of_decide_eq_true hp
  exact hs.above hscr _ _ hdir (List.getElem_mem hlt) hi (hname ▸ hdot) (hname ▸ hdotdot)

theorem wp_find (ha : At p a s) (hl : q ∈ a.locks) (hq : q ∈ a.held) (name : Name) :
    wp ninodes p (fun r v => At p a v ∧ Keep a.held s v ∧ IsDir v q ∧
      ∀ n i, r = some (n, i) → name ≠ dot → name ≠ dotdot → Above v q i) (Cmd.find q name) s := by
  refine wp_op ha (fun r u v hinv huv hu => ?_) fun t hst ht hat => ⟨(hat.locks q).2 hl, ?_⟩
  · obtain ⟨hat, hkeep, hdir, habove⟩ := hu
    have hst := huv.stays q (hat.points hq)
    exact ⟨hat.rely huv, hkeep.own hat huv, hdir.stays hst,
      fun n i hr hdot hdotdot => (habove n i hr hdot hdotdot).stays hinv hdir.1 hst huv.onward⟩
  · intro c r u hexec hk
    simp only [exec] at hexec
    split at hexec
    · rename_i hty
      cases hexec
      have hlive := hat.live ht hl (by simp)
      have hlock := (hat.locks q).2 hl
      have htype := (ht.type_of_live (ht.ref_pos_of_lock hlock)
        ((ht.entry q).locked (by simp [hlock])) hlive).1.trans hty
      exact ⟨hat, .all hat hst ha hk fun _ => trivial, ⟨hlive, htype⟩,
        fun n i hr => ht.findEnt_above htype hr⟩
    · cases hexec

theorem wp_addEntry (ha : At p a s) (hs : Inv s) (hl : q ∈ a.locks) (hq : q ∈ a.held) {name : Name}
    (habove : name ≠ dot → name ≠ dotdot → Above s q i) :
    wp ninodes p (fun _ v => At p a v ∧ Keep a.held s v) (Cmd.addEntry q name i) s := by
  refine wp_op ha (fun r u v _ huv hu => ?_) fun t hst ht hat => ⟨?_, ?_⟩
  · exact ⟨hu.1.rely huv, hu.2.own hu.1 huv⟩
  · refine ⟨(hat.locks q).2 hl, hat.live ht hl (by simp), fun hscr hdot hdotdot => ?_⟩
    exact (habove hdot hdotdot).stays hs (ha.live hs hl (by simp)) (hst.stays q (ha.points hq))
      hst.onward hscr
  · intro c r u hexec hk
    refine ⟨?_, .all hat hst ha hk fun _ => trivial⟩
    simp only [exec] at hexec
    split at hexec
    · cases hexec
      exact hat
    · cases hexec
      exact { hat with }

omit [DecidableEq ι] in
theorem Keep.above {u v : St ι} {d : Ip} (hkeep : Keep h s u) (hd : d ∈ h) (hl : Live s d)
    (hu : Inv u) (habove : Above u d i) (ha : Own p a f u) (hh : h ⊆ a.held) (huv : Rely p u v) :
    Above v d i :=
  habove.stays hu ((hkeep.stays d hd).live hl).1 (huv.stays d (ha.points (hh hd))) huv.onward

/-- A new inode comes after all directories that there are. -/
theorem wp_ialloc (ha : At p a s) (hfresh : a.fresh = none) {type : FileType} (hty : type ≠ .none) :
    wp ninodes p (fun r v => Keep a.held s v ∧ match r with
      | none => At p a v
      | some i => At p { a with fresh := some i } v ∧ ∀ d ∈ a.held, Live s d → Above v d i)
      (Cmd.ialloc type) s := by
  refine wp_op ha (fun r u v hinv huv hu => ?_) fun t hst ht hat =>
    ⟨⟨hty, hat.fresh.trans hfresh⟩, ?_⟩
  · cases r with
    | none => exact ⟨hu.1.own hu.2 huv, hu.2.rely huv⟩
    | some i =>
      obtain ⟨hkeep, hat, habove⟩ := hu
      exact ⟨hkeep.rely hat (fun _ hr => hr) huv, hat.rely huv, fun d hd hlive =>
        hkeep.above hd hlive hinv (habove d hd hlive) hat (fun _ hq => hq) huv⟩
  · intro c r u hexec hk
    have hkeep : Keep a.held s u := .all hat hst ha hk fun _ => trivial
    simp only [exec] at hexec
    split at hexec
    · cases hexec
      exact ⟨hkeep, hat⟩
    · split at hexec
      · rename_i hfree
        cases hexec
        refine ⟨hkeep, hat.step rfl hat.held (update_self ..) hat.cwd hat.ofile rfl
          fun _ => ⟨rfl, rfl⟩, fun d hd hlive _ _ => ?_⟩
        have hlive' := ((hst.stays d (ha.points hd)).live hlive).1
        change update t.stamp c t.clock (t.itable d).inum < update t.stamp c t.clock c
        rw [update_self, update_of_ne (hlive'.inum_ne hfree.2)]
        exact ht.stamp _
      · cases hexec

/-! ## Locks -/

omit [Fintype ι] [DecidableEq ι] in
theorem Own.lock {x : Inode ι} (ha : At p a t) (hx : x.lock = some p)
    (hf : x.freeing = decide (f = some q)) (hother : ∀ r, f = some r → r = q) :
    Own p { a with locks := insert q a.locks } f (t.setInode q x) := by
  refine ⟨ha.used, ha.held, ha.fresh, ha.cwd, ha.ofile, fun r => ?_, fun r hr => ?_⟩
  · by_cases hrq : r = q
    · rw [hrq, t.setInode_self]
      simp [hx]
    · rw [t.setInode_of_ne _ hrq, ha.locks r]
      simp [hrq]
  · by_cases hrq : r = q
    · rw [hrq, t.setInode_self, hf]
    · rw [t.setInode_of_ne _ hrq, ha.freeing r ((Finset.mem_insert.1 hr).resolve_left hrq)]
      exact (decide_eq_false nofun).trans (decide_eq_false fun hr => hrq (hother r hr)).symm

omit [Fintype ι] [DecidableEq ι] in
theorem Own.unlock {x : Inode ι} {L : Finset Ip} (ha : Own p a f t) (hl : a.locks = insert q L)
    (hq : q ∉ L) (hx : x.lock = none) (hother : ∀ r, f = some r → r = q) :
    At p { a with locks := L } (t.setInode q x) := by
  refine ⟨ha.used, ha.held, ha.fresh, ha.cwd, ha.ofile, fun r => ?_, fun r hr => ?_⟩
  · by_cases hrq : r = q
    · rw [hrq, t.setInode_self, hx]
      simpa using hq
    · rw [t.setInode_of_ne _ hrq, ha.locks r, hl]
      simp [hrq]
  · have hrq : r ≠ q := fun hrq => hq (hrq ▸ hr)
    rw [t.setInode_of_ne _ hrq, ha.freeing r (hl ▸ Finset.mem_insert_of_mem hr)]
    exact (decide_eq_false fun hr => hrq (hother r hr)).trans (decide_eq_false nofun).symm

omit [DecidableEq ι] in
theorem ilock_spec (ht : Inv t) (hat : At p a t) (hq : Points t p q) {r : FileType × Int}
    (hexec : t.ilock p q = some (r, u)) (hu : Inv u) :
    q ∉ a.locks ∧ At p { a with locks := insert q a.locks } u ∧ Points u p q ∧ Backed u q ∧
      (u.dinode q).type = r.1 ∧ (u.itable q).inum = (t.itable q).inum := by
  unfold St.ilock at hexec
  simp only at hexec
  split at hexec
  · cases hexec
  · rename_i hfree
    have hlock : (t.itable q).lock = none := by
      by_contra hl
      exact hfree (.inr hl)
    have hf := ht.not_freeing hlock
    have hql : q ∉ a.locks := fun hmem => by
      rw [(hat.locks q).2 hmem] at hlock
      cases hlock
    -- whatever `ilock` reads into the entry, the locks of `p` are one more
    have hown : ∀ v ty n, At p { a with locks := insert q a.locks } (t.setInode q
        { t.itable q with lock := some p, valid := v, type := ty, nlink := n }) := fun _ _ _ =>
      hat.lock rfl hf nofun
    have hlive : At p { a with locks := insert q a.locks } u → Live u q :=
      fun hown => hown.live hu (Finset.mem_insert_self q _) (by simp)
    split at hexec
    · rename_i hvalid
      cases hexec
      have hl := hlive (hown _ _ _)
      have hx := t.setInode_self q { t.itable q with lock := some p }
      have href := hu.ref_pos (q := q) hq
      refine ⟨hql, hown _ _ _, hq, ⟨hl, .inl (by rw [hx]; exact hvalid)⟩, ?_, by rw [hx]⟩
      rw [(hu.type_of_live href (by rw [hx]; exact hvalid) hl).1, hx]
    · split at hexec
      · cases hexec
      · cases hexec
        have hl := hlive (hown _ _ _)
        have hx := t.setInode_self q { t.itable q with
          lock := some p, valid := true, type := (t.dinode q).type, nlink := (t.dinode q).nlink }
        have hd := congrArg (fun x : Inode ι => (t.disk x.inum).type) hx
        exact ⟨hql, hown _ _ _, hq, ⟨hl, .inl (by rw [hx])⟩, hd, by rw [hx]⟩

/-- A process that locks a second inode goes upwards. -/
theorem wp_ilock (ha : At p a s) (hs : Inv s) (hq : Points s p q) (hfine : Fine s q)
    (hord : ∀ d ∈ a.locks, d ∈ a.held ∧ IsDir s d ∧ Above s d (s.itable q).inum) :
    wp ninodes p (fun r v => At p { a with locks := insert q a.locks } v ∧
      Keep a.held s v ∧ q ∉ a.locks ∧ Points v p q ∧ Live v q ∧ Sure v q ∧
      (v.dinode q).type = r.1 ∧ (v.itable q).inum = (s.itable q).inum) (Cmd.ilock q) s := by
  refine wp_op ha (fun r u v hinv huv hu => ?_) fun t hst ht hat => ⟨?_, ?_⟩
  · obtain ⟨hat, hkeep, hql, hp, hlive, hsure, hty, hinum⟩ := hu
    have hstay := huv.stays q hp
    exact ⟨hat.rely huv, hkeep.rely hat (fun _ hr => hr) huv, hql, hp.rely huv,
      (hstay.live hlive).1,
      hsure.stays hstay huv.onward, (hstay.live hlive).2.1.trans hty, hstay.inum.trans hinum⟩
  · refine ⟨hq.rely hst, hfine.stays (hst.stays q hq) hst.onward, fun hscr d hd => ?_⟩
    obtain ⟨hheld, hdir, habove⟩ := hord d ((hat.locks d).1 hd)
    have hstay := hst.stays d (ha.points hheld)
    refine ⟨(hdir.stays hstay).2, ?_⟩
    rw [(hst.stays q hq).inum]
    exact habove.stays hs hdir.1 hstay hst.onward hscr
  · intro c r u hexec hk
    obtain ⟨hql, hown, hp, hb, hty, hinum⟩ := ilock_spec ht hat (hq.rely hst) hexec hk.inv
    exact ⟨hown, .all hat hst ha hk fun _ => trivial, hql, hp, hb.1, fun _ => hb,
      hty, hinum.trans (hst.stays q hq).inum⟩

theorem wp_iunlock {L : Finset Ip} (ha : At p a s) (hl : a.locks = insert q L) (hq : q ∉ L) :
    wp ninodes p (fun _ v => At p { a with locks := L } v ∧ Keep a.held s v)
    (Cmd.iunlock q) s := by
  have hmem : q ∈ a.locks := hl ▸ Finset.mem_insert_self q L
  refine wp_op ha (fun r u v _ huv hu => ?_) fun t hst ht hat => ⟨hat.freeing q hmem, ?_⟩
  · exact ⟨hu.1.rely huv, hu.2.rely hu.1 (fun _ hr => hr) huv⟩
  · intro c r u hexec hk
    refine ⟨?_, .all hat hst ha hk fun _ => trivial⟩
    simp only [exec] at hexec
    split at hexec
    · cases hexec
      exact hat.unlock hl hq rfl nofun
    · cases hexec

/-! ## Pointers of calls -/

section

omit [Fintype ι]

omit [DecidableEq ι] in
theorem St.addRef_lock (t : St ι) (q : Ip) (k : Int) (r : Ip) :
    ((t.addRef q k).itable r).lock = (t.itable r).lock ∧
      ((t.addRef q k).itable r).freeing = (t.itable r).freeing :=
  t.setInode_lock (x := { t.itable q with ref := (t.itable q).ref + k }) rfl rfl r

theorem Own.gain (ha : Own p a f t) (k : Int) :
    Own p { a with held := q ::ₘ a.held } f ((t.addRef q k).gain p q) :=
  ha.step rfl ((update_self ..).trans (congrArg (q ::ₘ ·) ha.held)) ha.fresh ha.cwd ha.ofile
    rfl (t.addRef_lock q k)

theorem Own.erase (ha : Own p a f t) (hheld : a.held = q ::ₘ h) : (t.drop p q).held p = h := by
  refine (update_self ..).trans ?_
  rw [ha.held, hheld, Multiset.erase_cons_head]

theorem Own.drop (ha : Own p a f t) (k : Int) (hheld : a.held = q ::ₘ h) :
    Own p { a with held := h } f ((t.addRef q k).drop p q) :=
  ha.step rfl (ha.erase hheld) ha.fresh ha.cwd ha.ofile rfl (t.addRef_lock q k)

theorem Own.got (ha : Own p a f t) (hf : a.fresh = none ∨ a.fresh = some i) :
    Own p { a with fresh := none } f (t.got p i) := by
  refine ha.step rfl ha.held ?_ ha.cwd ha.ofile rfl fun _ => ⟨rfl, rfl⟩
  unfold St.got
  rw [ha.fresh]
  rcases hf with hf | hf
  · rw [hf, if_neg (by simp), ha.fresh, hf]
  · rw [hf, if_pos rfl]
    exact update_self ..

theorem St.got_raced (hr : (t.got p i).raced = false) : t.igetOk p i = true := by
  have hr' := (Bool.or_eq_false_iff.1 hr).2
  simpa using hr'

end

theorem iget_spec (ht : Inv t) (hat : At p a t) (hf : a.fresh = none ∨ a.fresh = some i)
    (hexec : t.iget p i = some (q, u)) :
    At p { a with held := q ::ₘ a.held, fresh := none } u ∧ (u.itable q).inum = i ∧
      (a.fresh = none → Sure u q) ∧ Fine u q := by
  have hgot := hat.got hf
  unfold St.iget at hexec
  split at hexec
  · rename_i q' hq
    cases hexec
    obtain ⟨href, hinum⟩ := St.lookup_some hq
    have hx : (((t.got p i).addRef q 1).gain p q).itable q =
        { t.itable q with ref := (t.itable q).ref + 1 } := St.setInode_self _ q _
    have hcalm : (t.got p i).raced = false →
        (t.itable q).freeing = false ∧ (t.itable q).freed = false := fun hr =>
      ht.igetOk_freeing hq (St.got_raced hr) (Bool.or_eq_false_iff.1 hr).1
    refine ⟨hgot.gain 1, by rw [hx]; exact hinum, fun _ hr => ?_,
      fun hr => by rw [hx]; exact (hcalm hr).2⟩
    have hok := St.got_raced hr
    have hfree := (hcalm hr).1
    have hback : Backed t q := by
      unfold St.igetOk at hok
      rw [hq] at hok
      rcases Bool.or_eq_true_iff.1 hok with hlink | hvalid
      · obtain ⟨hty, hn⟩ := of_decide_eq_true hlink
        rw [← hinum] at hty hn
        exact ⟨⟨hfree, hty⟩, .inr hn⟩
      · have hv := (Bool.and_eq_true_iff.1 hvalid).1
        exact ⟨ht.live_of_valid href hv hfree, .inl hv⟩
    unfold Backed Live St.dinode at hback ⊢
    rw [hx]
    exact hback
  · rename_i hnone
    rcases Option.map_eq_some_iff.1 hexec with ⟨q', hempty, heq⟩
    cases heq
    have href := St.empty_some hempty
    have hx : (((t.got p i).setInode q { t.itable q with
        inum := i, ref := 1, valid := false, freed := false }).gain p q).itable q =
        { t.itable q with inum := i, ref := 1, valid := false, freed := false } :=
      St.setInode_self _ q _
    refine ⟨?_, by rw [hx], fun hfresh hr => ?_, fun _ => by rw [hx]⟩
    · exact hgot.step rfl ((update_self ..).trans (congrArg (q ::ₘ ·) hgot.held)) hgot.fresh
        hgot.cwd hgot.ofile rfl (St.setInode_lock (t.got p i)
          (x := { t.itable q with inum := i, ref := 1, valid := false, freed := false }) rfl rfl)
    · have hok := St.got_raced hr
      unfold St.igetOk at hok
      rw [hnone, hat.fresh, hfresh] at hok
      obtain ⟨hty, hn⟩ : (t.disk i).type ≠ .none ∧ (t.disk i).nlink ≠ 0 := by simpa using hok
      unfold Backed Live St.dinode
      rw [hx]
      exact ⟨⟨ht.not_freeing_of_ref href, hty⟩, .inr hn⟩

theorem wp_iget (ha : At p a s) (hf : a.fresh = none ∨ a.fresh = some i) :
    wp ninodes p (fun q v =>
      At p { a with held := q ::ₘ a.held, fresh := none } v ∧ Keep a.held s v ∧
      (v.itable q).inum = i ∧ (a.fresh = none → Sure v q) ∧ Fine v q) (Cmd.iget i) s := by
  refine wp_op ha (fun q u v _ huv hu => ?_) fun t hst ht hat => ⟨hat.used, ?_⟩
  · obtain ⟨hat, hkeep, hinum, hsure, hfine⟩ := hu
    have hstay := huv.stays q (hat.points (Multiset.mem_cons_self q _))
    exact ⟨hat.rely huv, hkeep.rely hat (Multiset.subset_cons _ q) huv, hstay.inum.trans hinum,
      fun hfresh => (hsure hfresh).stays hstay huv.onward, hfine.stays hstay huv.onward⟩
  · intro c q u hexec hk
    obtain ⟨hown, hinum, hsure⟩ := iget_spec ht hat hf hexec
    exact ⟨hown, .all hat hst ha hk fun _ => trivial, hinum, hsure⟩

omit [Fintype ι] [DecidableEq ι] in
/-- A pointer that came from the current directory or from a file is in order. -/
theorem Solid.sure (hq : Solid s q) : Sure s q :=
  fun hr => hq.backed hr

theorem wp_idupCwd (ha : At p a s) : wp ninodes p (fun q v =>
    At p { a with held := q ::ₘ a.held } v ∧ Keep a.held s v ∧ Sure v q) Cmd.idupCwd s := by
  refine wp_op ha (fun q u v _ huv hu => ?_) fun t hst ht hat => ⟨hat.used, ?_⟩
  · obtain ⟨hat, hkeep, hsure⟩ := hu
    have hstay := huv.stays q (hat.points (Multiset.mem_cons_self q _))
    exact ⟨hat.rely huv, hkeep.rely hat (Multiset.subset_cons _ q) huv,
      hsure.stays hstay huv.onward⟩
  · intro c q u hexec hk
    rcases Option.map_eq_some_iff.1 hexec with ⟨q', hq, heq⟩
    cases heq
    refine ⟨hat.gain 1, .all hat hst ha hk fun _ => trivial, ?_⟩
    exact (ht.cwd p q hq).1.sure.stays (hk.stays q trivial (.inr ⟨hat.used, .inl hq⟩)) hk.onward

/-! ## `iput` -/

variable {L : Finset Ip}

/-- `iput` begins to free the inode only if the pointer is the last one. -/
theorem wp_iputBegin (ha : At p a s) (hheld : a.held = q ::ₘ h) (hl : q ∈ a.locks → q ∈ h)
    (hsure : Sure s q) : wp ninodes p (fun b v => Keep h s v ∧
      if b = true then
        Own p { a with locks := insert q a.locks } (some q) v ∧ q ∉ h ∧ q ∉ a.locks ∧
          (v.itable q).type ≠ .none
      else
        At p { a with held := h } v) (Cmd.iputBegin q) s := by
  have hsub : h ⊆ a.held := hheld ▸ Multiset.subset_cons h q
  refine wp_op ha (fun b u v _ huv hu => ?_) fun t hst ht hat => ?_
  · cases b with
    | false => exact ⟨hu.1.own hu.2 huv, hu.2.rely huv⟩
    | true =>
      obtain ⟨hkeep, hown, hq, hq', hty⟩ := hu
      refine ⟨hkeep.rely hown hsub huv, hown.rely huv, hq, hq', ?_⟩
      rw [(huv.own q ((hown.locks q).2 (Finset.mem_insert_self q _))).2]
      exact hty
  · have hq : q ∈ t.held p := by rw [hat.held, hheld]; exact Multiset.mem_cons_self q h
    have hl' : (t.itable q).lock = some p → 2 ≤ (t.held p).count q := by
      intro hlock
      have hmem := Multiset.one_le_count_iff_mem.2 (hl ((hat.locks q).1 hlock))
      rw [hat.held, hheld, Multiset.count_cons_self]
      omega
    have hsure' : Sure t q :=
      hsure.stays (hst.stays q (ha.points (hheld ▸ Multiset.mem_cons_self q h))) hst.onward
    refine ⟨⟨hq, hl', hsure'⟩, fun c b u hexec hk => ?_⟩
    simp only [exec, St.iputBegin] at hexec
    split at hexec
    · rename_i hlast
      have hlock := ht.lock_free hq hl' hlast.1
      rw [if_pos hlock] at hexec
      cases hexec
      have hone : uses t q = 1 := by
        have href := ht.ref q
        omega
      have hqh : q ∉ h := by
        intro hmem
        have hle := count_le_uses (s := t) (p := p) (q := q)
        have hpos := Multiset.one_le_count_iff_mem.2 hmem
        rw [hat.held, hheld, Multiset.count_cons_self] at hle
        omega
      have hql : q ∉ a.locks := fun hmem => hqh (hl hmem)
      refine ⟨.op hat hst ha hk hsub fun r hr hrq => hqh (hrq ▸ hr),
        hat.lock rfl (decide_eq_true rfl).symm fun _ hr => (Option.some.inj hr).symm, hqh, hql, ?_⟩
      rw [t.setInode_self]
      have hlive := ht.live_of_valid (by omega) hlast.2.1 (ht.not_freeing hlock)
      rw [← (ht.type_of_live (by omega) hlast.2.1 hlive).1]
      exact hlive.2
    · rename_i hmore
      cases hexec
      have hk' := keeps_iputDrop ht hq hl' hsure' hmore
      exact ⟨.op hat hst ha hk' hsub fun _ _ => trivial, hat.drop (-1) hheld⟩

/-- The inode that is being freed belongs to the process. -/
theorem wp_itrunc_freeing (ha : Own p a (some q) s) (hq : q ∈ a.locks)
    (hty : (s.itable q).type ≠ .none) : wp ninodes p
    (fun _ v => Own p a (some q) v ∧ Keep a.held s v ∧ (v.itable q).type ≠ .none)
    (Cmd.itrunc q) s := by
  refine wp_op ha (fun _ u v _ huv hu => ?_)
    fun t hst ht hat => ⟨(hat.locks q).2 hq, fun c r u hexec hk => ?_⟩
  · refine ⟨hu.1.rely huv, hu.2.1.own hu.1 huv, ?_⟩
    rw [(huv.own q ((hu.1.locks q).2 hq)).2]
    exact hu.2.2
  · cases hexec
    refine ⟨{ hat with }, .all hat hst ha hk fun _ => trivial, ?_⟩
    change (t.itable q).type ≠ .none
    rw [(hst.own q ((ha.locks q).2 hq)).2]
    exact hty

theorem wp_ifree (ha : Own p a (some q) s) (hq : q ∈ a.locks) (hty : (s.itable q).type ≠ .none) :
    wp ninodes p
    (fun _ v => Own p a (some q) v ∧ Keep a.held s v ∧ (v.itable q).type = .none)
    (Cmd.ifree q) s := by
  refine wp_op ha (fun _ u v _ huv hu => ?_) fun t hst ht hat => ⟨⟨(hat.locks q).2 hq, ?_, ?_⟩,
    fun c r u hexec hk => ?_⟩
  · refine ⟨hu.1.rely huv, hu.2.1.own hu.1 huv, ?_⟩
    rw [(huv.own q ((hu.1.locks q).2 hq)).2]
    exact hu.2.2
  · rw [hat.freeing q hq]
    simp
  · rw [(hst.own q ((ha.locks q).2 hq)).2]
    exact hty
  · cases hexec
    refine ⟨hat.step rfl hat.held hat.fresh hat.cwd hat.ofile rfl
      (t.setInode_lock (x := { t.itable q with type := .none }) rfl rfl),
      .all hat hst ha hk fun _ => trivial, ?_⟩
    exact congrArg Inode.type (t.setInode_self q { t.itable q with type := .none })

/-- The lock goes before the pointer does, and in between the entry is for an inode that is free. -/
theorem wp_irelease (ha : Own p { a with locks := insert q L } (some q) s)
    (hheld : a.held = q ::ₘ h)
    (hqh : q ∉ h) (hq : q ∉ L) (hty : (s.itable q).type = .none) : wp ninodes p
    (fun _ v => At p { a with locks := L } v ∧ Keep h s v ∧
      (v.raced = false → (v.itable q).freed = true)) (Cmd.irelease q) s := by
  have hmem : q ∈ insert q L := Finset.mem_insert_self q L
  have hsub : h ⊆ a.held := hheld ▸ Multiset.subset_cons h q
  have hqa : q ∈ a.held := hheld ▸ Multiset.mem_cons_self q h
  refine wp_op ha (fun _ u v _ huv hu => ?_) fun t hst ht hat =>
    ⟨⟨(hat.locks q).2 hmem, ?_, ?_, hat.held ▸ hqa⟩, fun c r u hexec hk => ?_⟩
  · obtain ⟨hown, hkeep, hfreed⟩ := hu
    exact ⟨hown.rely huv, hkeep.rely hown hsub huv,
      fun hr => ((huv.stays q (hown.points hqa)).freed hr).trans (hfreed (huv.onward.not_raced hr))⟩
  · rw [hat.freeing q hmem]
    simp
  · rw [(hst.own q ((ha.locks q).2 hmem)).2]
    exact hty
  · cases hexec
    exact ⟨hat.unlock rfl hq rfl fun _ hr => (Option.some.inj hr).symm,
      .op hat hst ha hk hsub fun r hr hrq => hqh (hrq ▸ hr), fun _ => by rw [t.setInode_self]⟩

theorem wp_iputEnd (ha : At p a s) (hheld : a.held = q ::ₘ h) (hqh : q ∉ h) (hq : q ∉ a.locks)
    (hfreed : s.raced = false → (s.itable q).freed = true) :
    wp ninodes p (fun _ v => At p { a with held := h } v ∧ Keep h s v)
    (Cmd.iputEnd q) s := by
  have hsub : h ⊆ a.held := hheld ▸ Multiset.subset_cons h q
  have hqa : q ∈ a.held := hheld ▸ Multiset.mem_cons_self q h
  refine wp_op ha (fun _ u v _ huv hu => ?_) fun t hst ht hat =>
    ⟨⟨hat.held ▸ hqa, fun hl => hq ((hat.locks q).1 hl), fun hr => ?_⟩, fun c r u hexec hk => ?_⟩
  · exact ⟨hu.1.rely huv, hu.2.own hu.1 huv⟩
  · exact ((hst.stays q (ha.points hqa)).freed hr).trans (hfreed (hst.onward.not_raced hr))
  · cases hexec
    have hset : At p a (t.setInode q { t.itable q with freed := false }) :=
      hat.step rfl hat.held hat.fresh hat.cwd hat.ofile rfl
        (t.setInode_lock (x := { t.itable q with freed := false }) rfl rfl)
    exact ⟨hset.drop (-1) hheld, .op hat hst ha hk hsub fun r hr hrq => hqh (hrq ▸ hr)⟩

theorem wp_iput (ha : At p a s) (hheld : a.held = q ::ₘ h) (hl : q ∈ a.locks → q ∈ h)
    (hsure : Sure s q) : wp ninodes p
    (fun _ v => At p { a with held := h } v ∧ Keep h s v) (iput q) s := by
  have hsub : h ⊆ a.held := hheld ▸ Multiset.subset_cons h q
  refine wp_seq (wp_iputBegin ha hheld hl hsure) fun b t _ ht => ?_
  cases b with
  | false => exact wp_ret _ fun v htv _ => ⟨ht.2.rely htv, ht.1.own ht.2 htv⟩
  | true =>
    obtain ⟨hkt, hown, hqh, hql, hty⟩ := ht
    have hmem : q ∈ insert q a.locks := Finset.mem_insert_self q _
    refine wp_seq (wp_itrunc_freeing hown hmem hty) fun _ u _ hu => ?_
    refine wp_seq (wp_ifree hu.1 hmem hu.2.2) fun _ v _ hv => ?_
    refine wp_seq (wp_irelease hv.1 hheld hqh hql hv.2.2) fun _ w _ hw => ?_
    refine wp_mono (wp_iputEnd hw.1 hheld hqh hql hw.2.2) fun _ x _ hx => ⟨hx.1, ?_⟩
    exact (((hkt.trans (hu.2.1.mono hsub)).trans (hv.2.1.mono hsub)).trans hw.2.1).trans hx.2

/-! ## Files and current directories -/

/-- A new file takes over the pointer of the call. -/
theorem wp_openFile (ha : At p a s) (hheld : a.held = q ::ₘ h) (hlive : Live s q) (hsure : Sure s q)
    (writable device : Bool) : wp ninodes p (fun r v => Keep h s v ∧ match r with
      | none => At p a v ∧ Sure v q
      | some fd => ∃ g, At p { a with held := h, ofile := update a.ofile fd (some g) } v)
    (Cmd.openFile q writable device) s := by
  have hsub : h ⊆ a.held := hheld ▸ Multiset.subset_cons h q
  have hq : q ∈ a.held := hheld ▸ Multiset.mem_cons_self q h
  refine wp_op ha (fun r u v _ huv hu => ?_) fun t hst ht hat => ?_
  · cases r with
    | none =>
      exact ⟨hu.1.rely hu.2.1 hsub huv, hu.2.1.rely huv, hu.2.2.rely huv (hu.2.1.points hq)⟩
    | some fd =>
      obtain ⟨hkeep, g, hown⟩ := hu
      exact ⟨hkeep.own hown huv, g, hown.rely huv⟩
  · have hstay := hst.stays q (ha.points hq)
    have hsure' := hsure.stays hstay hst.onward
    refine ⟨⟨hat.used, hat.held ▸ hq, (hstay.live hlive).1, fun hr => (hsure' hr).2⟩,
      fun c r u hexec hk => ⟨.op hat hst ha hk hsub fun _ _ => trivial, ?_⟩⟩
    have hsure'' := hsure'.stays (hk.stays q trivial (hat.points hq)) hk.onward
    simp only [exec, St.openFile] at hexec
    split at hexec
    · rename_i g fd hg hfd
      cases hexec
      refine ⟨g, hat.step rfl (hat.erase hheld) hat.fresh hat.cwd ?_ rfl fun _ => ⟨rfl, rfl⟩⟩
      refine (update_self ..).trans ?_
      change update (t.ofile p) fd (some g) = _
      rw [hat.ofile]
    · cases hexec
      exact ⟨hat, hsure''⟩

theorem wp_file (ha : At p a s) (fd : Fin NOFILE) : wp ninodes p
    (fun r v => At p a v ∧ Keep a.held s v ∧
      ∀ ip w d, r = some (ip, w, d) → Points v p ip ∧ Fine v ip) (Cmd.file fd) s := by
  refine wp_op ha (fun r u v _ huv hu => ?_) fun t hst ht hat => ⟨trivial, fun c r u hexec hk => ?_⟩
  · refine ⟨hu.1.rely huv, hu.2.1.own hu.1 huv, fun ip w d hr => ?_⟩
    obtain ⟨hp, hfine⟩ := hu.2.2 ip w d hr
    exact ⟨hp.rely huv, hfine.rely huv hp⟩
  · cases hexec
    refine ⟨hat, .all hat hst ha hk fun _ => trivial, fun ip w d hr => ?_⟩
    rcases Option.map_eq_some_iff.1 hr with ⟨g, hg, heq⟩
    cases heq
    exact ⟨.inr ⟨hat.used, .inr ⟨fd, g, hg, rfl⟩⟩, (ht.file g (ht.file_pos hg)).sure.fine ht⟩

/-- With the last descriptor the pointer of a file comes back to the call. -/
theorem wp_fileclose (ha : At p a s) (hl : a.locks = ∅) (fd : Fin NOFILE) :
    wp ninodes p (fun r v => Keep a.held s v ∧ match r with
      | none => At p { a with ofile := update a.ofile fd none } v
      | some q => At p { a with
          held := q ::ₘ a.held
          ofile := update a.ofile fd none } v ∧ Sure v q) (Cmd.fileclose fd) s := by
  refine wp_op ha (fun r u v _ huv hu => ?_) fun t hst ht hat => ?_
  · cases r with
    | none => exact ⟨hu.1.rely hu.2 (fun _ hr => hr) huv, hu.2.rely huv⟩
    | some q =>
      obtain ⟨hkeep, hown, hsure⟩ := hu
      exact ⟨hkeep.rely hown (Multiset.subset_cons _ q) huv, hown.rely huv,
        hsure.rely huv (hown.points (Multiset.mem_cons_self q _))⟩
  · refine ⟨⟨hat.used, fun q hlock => ?_⟩,
      fun c r u hexec hk => ⟨.all hat hst ha hk fun _ => trivial, ?_⟩⟩
    · have hmem := (hat.locks q).1 hlock
      rw [hl] at hmem
      exact absurd hmem (Finset.notMem_empty q)
    simp only [exec, St.fileclose] at hexec
    split at hexec
    · rename_i hnone
      cases hexec
      refine hat.step rfl hat.held hat.fresh hat.cwd ?_ rfl fun _ => ⟨rfl, rfl⟩
      rw [hat.ofile] at hnone ⊢
      exact (update_eq_self_iff.2 hnone.symm).symm
    · rename_i g hg
      have hupd : (t.setOfile p fd none).ofile p = update a.ofile fd none := by
        rw [t.setOfile_self, hat.ofile]
      split at hexec
      · cases hexec
        exact hat.step rfl hat.held hat.fresh hat.cwd hupd rfl fun _ => ⟨rfl, rfl⟩
      · cases hexec
        refine ⟨hat.step rfl ?_ hat.fresh hat.cwd hupd rfl fun _ => ⟨rfl, rfl⟩, ?_⟩
        · exact (update_self ..).trans (congrArg (_ ::ₘ ·) hat.held)
        · have hp : Points t p (t.file g).ip := .inr ⟨hat.used, .inr ⟨fd, g, hg, rfl⟩⟩
          exact (ht.file g (ht.file_pos hg)).sure.stays (hk.stays _ trivial hp) hk.onward

theorem wp_dup (ha : At p a s) (fd : Fin NOFILE) : wp ninodes p
    (fun _ v => (∃ o, At p { a with ofile := o } v) ∧ Keep a.held s v) (Cmd.dup fd) s := by
  refine wp_op ha (fun r u v _ huv hu => ?_) fun t hst ht hat => ⟨trivial,
    fun c r u hexec hk => ⟨?_, .all hat hst ha hk fun _ => trivial⟩⟩
  · obtain ⟨⟨o, hown⟩, hkeep⟩ := hu
    exact ⟨⟨o, hown.rely huv⟩, hkeep.rely hown (fun _ hr => hr) huv⟩
  · simp only [exec, St.dup] at hexec
    split at hexec
    · rename_i g fd' hg hfd'
      cases hexec
      refine ⟨update a.ofile fd' (some g),
        hat.step rfl hat.held hat.fresh hat.cwd ?_ rfl fun _ => ⟨rfl, rfl⟩⟩
      rw [St.setOfile_self]
      exact congrArg (update · fd' (some g)) hat.ofile
    · cases hexec
      exact ⟨a.ofile, hat⟩

theorem wp_takeCwd (ha : At p a s) : wp ninodes p
    (fun q v => At p { a with held := q ::ₘ a.held, cwd := none } v ∧ Keep a.held s v ∧ Sure v q)
    Cmd.takeCwd s := by
  refine wp_op ha (fun q u v _ huv hu => ?_)
    fun t hst ht hat => ⟨hat.used, fun c q u hexec hk => ?_⟩
  · obtain ⟨hown, hkeep, hsure⟩ := hu
    exact ⟨hown.rely huv, hkeep.rely hown (Multiset.subset_cons _ q) huv,
      hsure.rely huv (hown.points (Multiset.mem_cons_self q _))⟩
  · rcases Option.map_eq_some_iff.1 hexec with ⟨q', hq, heq⟩
    cases heq
    refine ⟨hat.step rfl ?_ hat.fresh (update_self ..) hat.ofile rfl fun _ => ⟨rfl, rfl⟩,
      .all hat hst ha hk fun _ => trivial, ?_⟩
    · exact (update_self ..).trans (congrArg (q ::ₘ ·) hat.held)
    · exact (ht.cwd p q hq).1.sure.stays (hk.stays q trivial (.inr ⟨hat.used, .inl hq⟩)) hk.onward

theorem wp_setCwd (ha : At p a s) (hheld : a.held = q ::ₘ h) (hcwd : a.cwd = none)
    (hdir : IsDir s q) (hsure : Sure s q) : wp ninodes p
    (fun _ v => At p { a with held := h, cwd := some q } v ∧ Keep h s v) (Cmd.setCwd q) s := by
  have hsub : h ⊆ a.held := hheld ▸ Multiset.subset_cons h q
  have hq : q ∈ a.held := hheld ▸ Multiset.mem_cons_self q h
  refine wp_op ha (fun q u v _ huv hu => ?_) fun t hst ht hat => ?_
  · exact ⟨hu.1.rely huv, hu.2.own hu.1 huv⟩
  · have hstay := hst.stays q (ha.points hq)
    have hdir' := hdir.stays hstay
    refine ⟨⟨hat.used, hat.cwd.trans hcwd, hat.held ▸ hq,
      ⟨hdir'.1, fun hr => (hsure.stays hstay hst.onward hr).2⟩, hdir'.2⟩, fun c r u hexec hk => ?_⟩
    cases hexec
    exact ⟨hat.step rfl (hat.erase hheld) hat.fresh (update_self ..) hat.ofile rfl
      fun _ => ⟨rfl, rfl⟩,
      .op hat hst ha hk hsub fun _ _ => trivial⟩

theorem wp_fork (ha : At p a s) (child : ι) : wp ninodes p
    (fun _ v => At p a v ∧ Keep a.held s v) (Cmd.fork child) s :=
  wp_local ha (fun _ => trivial) (fun _ _ _ => trivial) fun t c r u hat hexec => by
    have hu : (t.fork p child).2 = u := congrArg Prod.snd (Option.some.inj hexec)
    subst hu
    cases hq : t.cwd p with
    | none =>
      simp only [St.fork, hq]
      exact hat
    | some q =>
      cases hchild : t.used child with
      | true =>
        simp only [St.fork, hq, hchild, Bool.true_eq_false, if_false]
        exact hat
      | false =>
        have hpc : p ≠ child := by
          rintro rfl
          rw [hat.used] at hchild
          cases hchild
        rw [St.fork_eq hq hchild]
        exact hat.step (update_of_ne hpc ..) hat.held hat.fresh
          ((update_of_ne hpc ..).trans hat.cwd)
          ((update_of_ne hpc ..).trans hat.ofile) rfl
          (St.addRef_lock { t with
            file := fun f => { t.file f with ref := (t.file f).ref + pointers (t.ofile p) f }
            ofile := update t.ofile child (t.ofile p)
            used := update t.used child true } q 1)

/-- A process that is not in a call, or whose slot is not in use. -/
structure Ready (p : ι) (s : St ι) : Prop where
  held : s.held p = 0
  fresh : s.fresh p = none
  locks : ∀ q, (s.itable q).lock ≠ some p
  cwd : s.used p = true → s.cwd p ≠ none

omit [Fintype ι] [DecidableEq ι] in
theorem Ready.rely (hr : Ready p s) (hst : Rely p s t) : Ready p t where
  held := hst.held.trans hr.held
  fresh := hst.fresh.trans hr.fresh
  locks := fun q hl => hr.locks q ((hst.lock q).1 hl)
  cwd := fun hused => by
    cases hs : s.used p with
    | false => exact hst.unused hs hused
    | true =>
      rw [(hst.used hs).2.1]
      exact hr.cwd hs

theorem wp_exit (ha : At p a s) (hheld : a.held = 0) (hl : a.locks = ∅) (hfresh : a.fresh = none)
    (hcwd : a.cwd = none) (hofile : ∀ fd, a.ofile fd = none) :
    wp ninodes p (fun _ => Ready p) Cmd.exit s := by
  refine wp_op ha (fun _ u v _ huv hu => hu.rely huv) fun t hst ht hat =>
    ⟨⟨hat.held.trans hheld, hat.cwd.trans hcwd, fun fd => by rw [hat.ofile]; exact hofile fd⟩,
      fun c r u hexec hk => ?_⟩
  cases hexec
  refine ⟨hat.held.trans hheld, hat.fresh.trans hfresh, fun q hlock => ?_, fun hused => ?_⟩
  · have hmem := (hat.locks q).1 hlock
    rw [hl] at hmem
    exact Finset.notMem_empty q hmem
  · exact absurd hused (by simp)

end

end Xv6.Itable
