import Mathlib.Logic.Relation
import Xv6.Lib.Transition
import Xv6.Itable.Calls

/-!
# Runs — the inode table in every state that calls can reach

Every state of a run is good in the sense of the protocol: the invariant holds and each process has
established what its next operation needs.  The two results about whole runs are read off from that.

* Processes that wait for inode locks do not wait in a cycle, as long as no directory is written to
  as a file.
* References, locks and the freeing of inodes are as they should be, as long as no pointer is taken
  to an inode that an `iput` is about to give up.
-/

namespace Xv6.Itable

open Lib

variable {ι : Type} [Fintype ι] [DecidableEq ι] (ninodes : Nat)
variable {s t : St ι} {p p' : ι} {q r : Ip} {i : Nat} {x y : Sys ι}

/-! ## The start -/

section

variable (v : Volume) (p₀ : ι)

omit [Fintype ι] in
theorem boot_entry_of_ne (hq : q ≠ 0) : ((boot v p₀).shared.itable q).ref = 0 ∧
    ((boot v p₀).shared.itable q).lock = none ∧ ((boot v p₀).shared.itable q).valid = false ∧
    ((boot v p₀).shared.itable q).freeing = false ∧
    ((boot v p₀).shared.itable q).freed = false := by
  simp [boot, hq]

theorem boot_uses (q : Ip) : uses (boot v p₀).shared q = if q = 0 then 1 else 0 := by
  have hcwd : pointers (Function.update (fun _ : ι => (none : Option Ip)) p₀ (some 0)) q =
      pointers (fun _ : ι => (none : Option Ip)) q + if q = 0 then 1 else 0 :=
    pointers_set rfl
  have hnone : pointers (fun _ : ι => (none : Option Ip)) q = 0 :=
    pointers_eq_zero_iff.2 fun _ => by simp
  have hfile : pointers (fileIp (boot v p₀).shared) q = 0 :=
    pointers_eq_zero_iff.2 fun f => by simp [fileIp, boot]
  have hheld : ∑ p, ((boot v p₀).shared.held p).count q = 0 := by simp [boot]
  have hcwd' : pointers (boot v p₀).shared.cwd q = if q = 0 then 1 else 0 := by
    rw [hnone, Nat.zero_add] at hcwd
    exact hcwd
  unfold uses
  rw [hfile, hheld, hcwd', Nat.zero_add, Nat.add_zero]

theorem boot_inv : Inv (boot v p₀).shared := by
  have hroot : Live (boot v p₀).shared 0 := by
    refine ⟨by simp [boot], ?_⟩
    simp [St.dinode, boot, v.root]
  refine ⟨fun q => ?_, fun f => ?_, fun q r hq hr _ => ?_, fun q => ?_, fun f hf => ?_,
    fun p q hq => ?_, fun p hp => ⟨rfl, ?_, fun _ => rfl⟩, v.rank_lt,
    fun hscr d e hd he hi hdot hdotdot hdir => ?_, fun i => ?_, fun hr i hty hn => ?_⟩
  · rw [boot_uses]
    by_cases hq : q = 0
    · simp [boot, hq]
    · rw [(boot_entry_of_ne v p₀ hq).1, if_neg hq]
      rfl
  · have hnone : ∀ p, pointers ((boot v p₀).shared.ofile p) f = 0 := fun p =>
      pointers_eq_zero_iff.2 fun _ => by simp [boot]
    simp [descriptors, hnone]
    rfl
  · have hzero : ∀ r, 0 < ((boot v p₀).shared.itable r).ref → r = 0 := by
      intro r hr
      by_contra hne
      rw [(boot_entry_of_ne v p₀ hne).1] at hr
      exact absurd hr (lt_irrefl 0)
    rw [hzero q hq, hzero r hr]
  · have hx : ((boot v p₀).shared.itable q).lock = none ∧
        ((boot v p₀).shared.itable q).valid = false ∧
        ((boot v p₀).shared.itable q).freeing = false ∧
        ((boot v p₀).shared.itable q).freed = false := by
      by_cases hq : q = 0
      · simp [boot, hq]
      · exact (boot_entry_of_ne v p₀ hq).2
    obtain ⟨hl, hv, hf, hfreed⟩ := hx
    exact ⟨fun p hp => absurd hp (by simp [hl]), fun hne => absurd hl hne,
      fun hf' => absurd hf' (by simp [hf]), fun _ hv' => absurd hv' (by simp [hv]),
      fun _ hv' => absurd hv' (by simp [hv]), fun _ hf' => absurd hf' (by simp [hf]),
      fun _ hf' => absurd hf' (by simp [hf]), fun _ hf' => absurd hf' (by simp [hf]),
      fun _ hf' => absurd hf' (by simp [hfreed])⟩
  · exact absurd hf (lt_irrefl 0)
  · have hq0 : 0 = q := by
      by_cases hp : p = p₀
      · simpa [boot, hp] using hq
      · exact absurd hq (by simp [boot, hp])
    subst hq0
    refine ⟨⟨hroot, fun hr => .inr ?_⟩, by simp [St.dinode, boot, v.root]⟩
    have hclean : v.clean = true := by simpa [boot] using hr
    have hlinked := v.linked hclean ROOTINO (by simp [v.root])
    simpa [St.dinode, boot] using hlinked
  · by_cases hpp : p = p₀
    · exact absurd hp (by simp [boot, hpp])
    · simp [boot, hpp]
  · have htree : v.tree = true := by simpa [boot] using hscr
    exact v.ordered htree d e hd he hi hdot hdotdot hdir
  · change (if (v.disk i).type = .none then 0 else 1) = 0 + _
    rw [Nat.zero_add]
    rfl
  · have hclean : v.clean = true := by simpa [boot] using hr
    exact absurd hn (v.linked hclean i hty)

omit [Fintype ι] in
theorem boot_ready (p : ι) : Ready p (boot v p₀).shared := by
  refine ⟨rfl, rfl, fun q => ?_, fun hused => ?_⟩
  · by_cases hq : q = 0
    · simp [boot, hq]
    · simp [(boot_entry_of_ne v p₀ hq).2.1]
  · by_cases hp : p = p₀
    · simp [boot, hp]
    · exact absurd hused (by simp [boot, hp])

end

/-! ## Every state of a run -/

theorem good_step (h : (protocol ninodes).Good Ready x) {a : Act ι}
    (hstep : step ninodes x a = some y) :
    (protocol ninodes).Good Ready y := by
  cases a with
  | start p c =>
    simp only [step] at hstep
    split at hstep
    · rename_i hp
      cases hstep
      exact h.start (wp_body (h.ready p (Option.isNone_iff_eq_none.1 hp.1)) hp.2 c)
    · cases hstep
  | run p c => exact h.run (protocol_sound ι ninodes) (fun _ _ _ hr => hr.rely) hstep

theorem good_boot (v : Volume) (p₀ : ι) : (protocol ninodes).Good Ready (boot v p₀) :=
  ⟨boot_inv v p₀, fun _ _ hc => absurd hc (by simp [boot]), fun p _ => boot_ready v p₀ p⟩

theorem good_of_reaches {v : Volume} {p₀ : ι} {ok : Sys ι → Act ι → Prop}
    (h : Reaches (step ninodes) ok (boot v p₀) x) : (protocol ninodes).Good Ready x :=
  h.invariant (P := fun x => (protocol ninodes).Good Ready x) (good_boot ninodes v p₀)
    fun _ _ _ hx _ hstep => good_step ninodes hx hstep

/-- What one operation of a call does to the shared state. -/
theorem step_run {p : ι} {c : Nat} (h : (protocol ninodes).Good Ready x)
    (hstep : step ninodes x (.run p c) = some y) :
    y.shared = x.shared ∨ ∃ o k r, x.code p = some (.op o k) ∧ Pre p o x.shared ∧
      exec ninodes p c o x.shared = some (r, y.shared) := by
  simp only [step, Threads.run] at hstep
  split at hstep
  · rename_i o k hcode
    rcases Option.map_eq_some_iff.1 hstep with ⟨⟨r, t⟩, hexec, rfl⟩
    exact .inr ⟨o, k, r, hcode, h.pre (protocol_sound ι ninodes) hcode, hexec⟩
  · cases hstep
    exact .inl rfl
  · cases hstep

/-- The same for any step; the beginning of a call changes nothing. -/
theorem step_cases {a : Act ι} (h : (protocol ninodes).Good Ready x)
    (hstep : step ninodes x a = some y) :
    y.shared = x.shared ∨ ∃ p c o k r, a = .run p c ∧ x.code p = some (.op o k) ∧
      Pre p o x.shared ∧ exec ninodes p c o x.shared = some (r, y.shared) := by
  cases a with
  | start p c =>
    simp only [step] at hstep
    split at hstep
    · cases hstep
      exact .inl rfl
    · cases hstep
  | run p c =>
    exact (step_run ninodes h hstep).imp_right fun ⟨o, k, r, hx⟩ => ⟨p, c, o, k, r, rfl, hx⟩

/-! ## The two conditions on runs -/

/-- The operation writes to a directory as if it were a file. -/
def scribbles (s : St ι) (c : Nat) : Op ι → Bool
  | .writei q _ => decide (c ≠ 0 ∧ (s.itable q).type = .dir)
  | _ => false

/-- The operation takes a pointer that is out of order. -/
def races (s : St ι) (p : ι) : Op ι → Bool
  | .iget i => !s.igetOk p i
  | _ => false

/-- The inode on the disk that an operation changes. -/
def target (s : St ι) (c : Nat) : Op ι → Option Nat
  | .itrunc q | .ifree q | .addEntry q _ _ | .eraseEntry q _ | .setNlink q _ | .writei q _ =>
    some (s.itable q).inum
  | .ialloc _ => some c
  | _ => none

/-- What is the same after an operation. -/
structure Effect (p : ι) (c : Nat) (o : Op ι) (s t : St ι) : Prop where
  scribbled : t.scribbled = (s.scribbled || scribbles s c o)
  raced : t.raced = (s.raced || races s p o)
  inum : ∀ q, 0 < (s.itable q).ref → (t.itable q).inum = (s.itable q).inum
  file : ∀ f, 0 < (s.file f).ref → (t.file f).ip = (s.file f).ip
  disk : ∀ i, target s c o ≠ some i → t.disk i = s.disk i

section

variable {o : Op ι} {c : Nat} {x : Inode ι}

omit [Fintype ι]

omit [DecidableEq ι] in
/-- An operation that leaves no mark. -/
theorem Effect.of_calm (hs : scribbles s c o = false) (hr : races s p o = false)
    (hflags : t.scribbled = s.scribbled ∧ t.raced = s.raced)
    (hinum : ∀ q, 0 < (s.itable q).ref → (t.itable q).inum = (s.itable q).inum)
    (hfile : ∀ f, 0 < (s.file f).ref → (t.file f).ip = (s.file f).ip)
    (hdisk : ∀ i, target s c o ≠ some i → t.disk i = s.disk i) : Effect p c o s t :=
  ⟨by rw [hs, hflags.1, Bool.or_false], by rw [hr, hflags.2, Bool.or_false], hinum, hfile, hdisk⟩

omit [DecidableEq ι] in
theorem Effect.refl (hs : scribbles s c o = false) (hr : races s p o = false) : Effect p c o s s :=
  .of_calm hs hr ⟨rfl, rfl⟩ (fun _ _ => rfl) (fun _ _ => rfl) fun _ _ => rfl

omit [DecidableEq ι] in
theorem Effect.setInode (hs : scribbles s c o = false) (hr : races s p o = false)
    (hinum : x.inum = (s.itable q).inum) (ht : t.itable = (s.setInode q x).itable)
    (hrest : t.scribbled = s.scribbled ∧ t.raced = s.raced ∧ t.file = s.file ∧ t.disk = s.disk) :
    Effect p c o s t := by
  refine .of_calm hs hr ⟨hrest.1, hrest.2.1⟩ (fun r _ => ?_) (fun f _ => by rw [hrest.2.2.1])
    fun i _ => by rw [hrest.2.2.2]
  rw [ht]
  exact s.setInode_inum hinum r

omit [DecidableEq ι] in
theorem Effect.setDisk {d : Dinode} (hs : scribbles s c o = false) (hr : races s p o = false)
    (htarget : target s c o = some i) (ht : t.disk = (s.setDisk i d).disk)
    (hrest : t.scribbled = s.scribbled ∧ t.raced = s.raced ∧ t.file = s.file)
    (hinum : ∀ q, (t.itable q).inum = (s.itable q).inum) : Effect p c o s t := by
  refine .of_calm hs hr ⟨hrest.1, hrest.2.1⟩ (fun r _ => hinum r)
    (fun f _ => by rw [hrest.2.2]) fun j hj => ?_
  rw [ht]
  refine s.setDisk_of_ne d fun hji => hj ?_
  rw [htarget, hji]

theorem iget_effect (h : s.iget p i = some (q, t)) : Effect p c (.iget i) s t := by
  unfold St.iget at h
  split at h
  · cases h
    refine ⟨(Bool.or_false _).symm, rfl, fun r _ => ?_, fun _ _ => rfl, fun _ _ => rfl⟩
    exact St.setInode_inum (s.got p i) (q := q)
      (x := { s.itable q with ref := (s.itable q).ref + 1 }) rfl r
  · rcases Option.map_eq_some_iff.1 h with ⟨q', hempty, heq⟩
    cases heq
    refine ⟨(Bool.or_false _).symm, rfl, fun r hr => ?_, fun _ _ => rfl, fun _ _ => rfl⟩
    -- the entry that is taken was not in use
    have hne : r ≠ q := by
      rintro rfl
      have href := St.empty_some hempty
      omega
    exact congrArg Inode.inum (St.setInode_of_ne (s.got p i) _ hne)

omit [DecidableEq ι] in
theorem ilock_effect {r : FileType × Int} (h : s.ilock p q = some (r, t)) :
    Effect p c (.ilock q) s t := by
  unfold St.ilock at h
  simp only at h
  split at h
  · cases h
  · split at h
    · cases h
      exact .setInode (x := { s.itable q with lock := some p }) rfl rfl rfl rfl ⟨rfl, rfl, rfl, rfl⟩
    · split at h
      · cases h
      · cases h
        exact .setInode (x := { s.itable q with
          lock := some p, valid := true, type := (s.dinode q).type, nlink := (s.dinode q).nlink })
          rfl rfl rfl rfl ⟨rfl, rfl, rfl, rfl⟩

theorem iputBegin_effect {b : Bool} (h : s.iputBegin p q = some (b, t)) :
    Effect p c (.iputBegin q) s t := by
  unfold St.iputBegin at h
  simp only at h
  split at h
  · split at h
    · cases h
      exact .setInode (x := { s.itable q with lock := some p, freeing := true }) rfl rfl rfl rfl
        ⟨rfl, rfl, rfl, rfl⟩
    · cases h
  · cases h
    exact .setInode (x := { s.itable q with ref := (s.itable q).ref + -1 }) rfl rfl rfl rfl
      ⟨rfl, rfl, rfl, rfl⟩

theorem writei_effect {w : Chunk} {b : Bool}
    (h : exec ninodes p c (.writei q w) s = some (b, t)) : Effect p c (.writei q w) s t := by
  have hother : ∀ (d : Dinode) (i : Nat), target s c (.writei q w) ≠ some i →
      (s.setDisk (s.itable q).inum d).disk i = s.disk i :=
    fun d i hi => s.setDisk_of_ne d fun heq => hi (congrArg some heq.symm)
  simp only [exec] at h
  split at h
  · rename_i hc
    cases h
    exact .refl (by simp [scribbles, hc]) rfl
  · rename_i hc
    split at h
    · rename_i hty
      cases h
      exact ⟨by simp [scribbles, hc, hty], (Bool.or_false _).symm, fun _ _ => rfl, fun _ _ => rfl,
        hother _⟩
    · rename_i hty
      cases h
      exact .of_calm (by simp [scribbles, hty]) rfl ⟨rfl, rfl⟩ (fun _ _ => rfl) (fun _ _ => rfl)
        (hother _)

theorem openFile_effect (writable device : Bool) :
    Effect p c (.openFile q writable device) s (s.openFile p q writable device).2 := by
  unfold St.openFile
  split
  · rename_i f fd hf _
    have hf' := List.find?_some hf
    have hf0 : (s.file f).ref = 0 := of_decide_eq_true hf'
    refine .of_calm rfl rfl ⟨rfl, rfl⟩ (fun _ _ => rfl) (fun g hg => ?_) fun _ _ => rfl
    have hne : g ≠ f := by
      rintro rfl
      omega
    exact congrArg File.ip (s.setFile_of_ne _ hne)
  · exact .refl rfl rfl

theorem fileclose_effect (fd : Fin NOFILE) : Effect p c (.fileclose fd) s (s.fileclose p fd).2 := by
  unfold St.fileclose
  split
  · exact .refl rfl rfl
  · rename_i f _
    simp only
    split
    · exact .of_calm rfl rfl ⟨rfl, rfl⟩ (fun _ _ => rfl)
        (fun g _ => s.setFile_ip f g ((s.file f).ref - 1)) fun _ _ => rfl
    · exact .of_calm rfl rfl ⟨rfl, rfl⟩ (fun _ _ => rfl)
        (fun g _ => s.setFile_ip f g ((s.file f).ref - 1)) fun _ _ => rfl

theorem dup_effect (fd : Fin NOFILE) : Effect p c (.dup fd) s (s.dup p fd).2 := by
  unfold St.dup
  split
  · rename_i f fd' _ _
    exact .of_calm rfl rfl ⟨rfl, rfl⟩ (fun _ _ => rfl)
      (fun g _ => s.setFile_ip f g ((s.file f).ref + 1)) fun _ _ => rfl
  · exact .refl rfl rfl

theorem fork_effect (child : ι) : Effect p c (.fork child) s (s.fork p child).2 := by
  unfold St.fork
  split
  · exact .refl rfl rfl
  · rename_i q _
    split
    · rw [St.dupAll_eq]
      refine .of_calm rfl rfl ⟨rfl, rfl⟩ (fun r _ => ?_) (fun _ _ => rfl) fun _ _ => rfl
      exact s.setInode_inum (x := { s.itable q with ref := (s.itable q).ref + 1 }) rfl r
    · exact .refl rfl rfl

theorem exec_effect {r : o.Reply} (hexec : exec ninodes p c o s = some (r, t)) :
    Effect p c o s t := by
  cases o with
  | iget i => exact iget_effect hexec
  | ilock q => exact ilock_effect hexec
  | iputBegin q => exact iputBegin_effect hexec
  | writei q w => exact writei_effect ninodes hexec
  | fork child =>
    have heq : (s.fork p child).2 = t := congrArg Prod.snd (Option.some.inj hexec)
    exact heq ▸ fork_effect child
  | openFile q writable device =>
    have heq : (s.openFile p q writable device).2 = t := congrArg Prod.snd (Option.some.inj hexec)
    exact heq ▸ openFile_effect writable device
  | fileclose fd =>
    have heq : (s.fileclose p fd).2 = t := congrArg Prod.snd (Option.some.inj hexec)
    exact heq ▸ fileclose_effect fd
  | dup fd =>
    have heq : (s.dup p fd).2 = t := congrArg Prod.snd (Option.some.inj hexec)
    exact heq ▸ dup_effect fd
  | idupCwd =>
    rcases Option.map_eq_some_iff.1 hexec with ⟨q, -, heq⟩
    cases heq
    exact .setInode (q := r) (x := { s.itable r with ref := (s.itable r).ref + 1 }) rfl rfl rfl rfl
      ⟨rfl, rfl, rfl, rfl⟩
  | takeCwd =>
    rcases Option.map_eq_some_iff.1 hexec with ⟨q, -, heq⟩
    cases heq
    exact .of_calm rfl rfl ⟨rfl, rfl⟩ (fun _ _ => rfl) (fun _ _ => rfl) fun _ _ => rfl
  | iunlock q =>
    simp only [exec] at hexec
    split at hexec
    · cases hexec
      exact .setInode (x := { s.itable q with lock := none }) rfl rfl rfl rfl ⟨rfl, rfl, rfl, rfl⟩
    · cases hexec
  | find q name =>
    simp only [exec] at hexec
    split at hexec
    · cases hexec
      exact .refl rfl rfl
    · cases hexec
  | addEntry q name i =>
    simp only [exec] at hexec
    split at hexec
    · cases hexec
      exact .refl rfl rfl
    · cases hexec
      exact .setDisk rfl rfl rfl rfl ⟨rfl, rfl, rfl⟩ fun _ => rfl
  | ialloc type =>
    simp only [exec] at hexec
    split at hexec
    · cases hexec
      exact .refl rfl rfl
    · split at hexec
      · cases hexec
        exact .setDisk rfl rfl rfl rfl ⟨rfl, rfl, rfl⟩ fun _ => rfl
      · cases hexec
  | itrunc q =>
    cases hexec
    exact .setDisk rfl rfl rfl rfl ⟨rfl, rfl, rfl⟩ fun _ => rfl
  | eraseEntry q n =>
    cases hexec
    exact .setDisk rfl rfl rfl rfl ⟨rfl, rfl, rfl⟩ fun _ => rfl
  | ifree q =>
    cases hexec
    exact .setDisk rfl rfl rfl rfl ⟨rfl, rfl, rfl⟩
      (s.setInode_inum (x := { s.itable q with type := .none }) rfl)
  | setNlink q n =>
    cases hexec
    exact .setDisk rfl rfl rfl rfl ⟨rfl, rfl, rfl⟩
      (s.setInode_inum (x := { s.itable q with nlink := n }) rfl)
  | irelease q =>
    cases hexec
    exact .setInode (x := { s.itable q with
      valid := false, lock := none, freeing := false, freed := true }) rfl rfl rfl rfl
      ⟨rfl, rfl, rfl, rfl⟩
  | iputEnd q =>
    cases hexec
    refine .of_calm rfl rfl ⟨rfl, rfl⟩ (fun r _ => ?_) (fun _ _ => rfl) fun _ _ => rfl
    have hset := s.setInode_inum (q := q) (x := { s.itable q with freed := false }) rfl r
    refine (St.setInode_inum (s.setInode q { s.itable q with freed := false }) ?_ r).trans hset
    rfl
  | setCwd q | exit =>
    cases hexec
    exact .of_calm rfl rfl ⟨rfl, rfl⟩ (fun _ _ => rfl) (fun _ _ => rfl) fun _ _ => rfl
  | inum q | type q | isdirempty q | readi q | file fd =>
    cases hexec
    exact .refl rfl rfl
  | panic => cases hexec

end

/-- The step does not write to a directory as if it were a file. -/
def tidy (x : Sys ι) : Act ι → Bool
  | .start _ _ => true
  | .run p c =>
    match x.code p with
    | some (.op o _) => !scribbles x.shared c o
    | _ => true

/-- The step does not take a pointer that is out of order. -/
def orderly (x : Sys ι) : Act ι → Bool
  | .start _ _ => true
  | .run p _ =>
    match x.code p with
    | some (.op o _) => !races x.shared p o
    | _ => true

/-- A part of the state that no allowed operation changes. -/
theorem constant_of_reaches {α : Type} {f : St ι → α} {ok : Sys ι → Act ι → Prop} {v : Volume}
    {p₀ : ι} (hexec : ∀ x p c o k r t, x.code p = some (.op o k) → ok x (.run p c) →
      exec ninodes p c o x.shared = some (r, t) → f t = f x.shared)
    (h : Reaches (step ninodes) ok (boot v p₀) x) : f x.shared = f (boot v p₀).shared := by
  refine (h.invariant (P := fun x => (protocol ninodes).Good Ready x ∧
    f x.shared = f (boot v p₀).shared) ⟨good_boot ninodes v p₀, rfl⟩ ?_).2
  rintro s a t ⟨hs, hf⟩ hok hstep
  refine ⟨good_step ninodes hs hstep, ?_⟩
  rcases step_cases ninodes hs hstep with heq | ⟨p, c, o, k, r, rfl, hcode, -, hop⟩
  · rw [heq, hf]
  · exact (hexec s p c o k r t.shared hcode hok hop).trans hf

theorem scribbled_of_reaches {v : Volume} {p₀ : ι} (hv : v.tree = true)
    (h : Reaches (step ninodes) (fun x a => tidy x a = true) (boot v p₀) x) :
    x.shared.scribbled = false := by
  rw [constant_of_reaches ninodes (f := St.scribbled) (fun x p c o k r t hcode hok hexec => ?_) h]
  · simp [boot, hv]
  · have hnot : scribbles x.shared c o = false := by simpa [tidy, hcode] using hok
    rw [(exec_effect ninodes hexec).scribbled, hnot, Bool.or_false]

theorem raced_of_reaches {v : Volume} {p₀ : ι} (hv : v.clean = true)
    (h : Reaches (step ninodes) (fun x a => orderly x a = true) (boot v p₀) x) :
    x.shared.raced = false := by
  rw [constant_of_reaches ninodes (f := St.raced) (fun x p c o k r t hcode hok hexec => ?_) h]
  · simp [boot, hv]
  · have hnot : races x.shared p o = false := by simpa [orderly, hcode] using hok
    rw [(exec_effect ninodes hexec).raced, hnot, Bool.or_false]

/-! ## Waiting for locks -/

/-- The entry whose lock the next operation of `p` acquires. -/
def wants (x : Sys ι) (p : ι) : Option Ip :=
  match x.code p with
  | some (.op (.ilock q) _) => some q
  | some (.op (.iputBegin q) _) =>
    let e := x.shared.itable q
    if e.ref = 1 ∧ e.valid = true ∧ e.nlink = 0 then some q else none
  | _ => none

/-- Process `p` waits for an inode lock that `p'` holds. -/
def WaitsFor (x : Sys ι) (p p' : ι) : Prop :=
  ∃ q, wants x p = some q ∧ (x.shared.itable q).lock = some p'

/-- A process that waits is in `ilock`; `iput` finds the lock free. -/
theorem WaitsFor.ilock (h : (protocol ninodes).Good Ready x) (hw : WaitsFor x p p') :
    ∃ q, wants x p = some q ∧ (x.shared.itable q).lock = some p' ∧ Pre p (.ilock q) x.shared := by
  obtain ⟨q, hq, hl⟩ := hw
  refine ⟨q, hq, hl, ?_⟩
  unfold wants at hq
  split at hq
  · rename_i q' k hcode
    cases hq
    exact h.pre (protocol_sound ι ninodes) hcode
  · rename_i q' k hcode
    simp only at hq
    split at hq
    · rename_i hlast
      cases hq
      have hpre := h.pre (protocol_sound ι ninodes) hcode
      have hfree := h.inv.lock_free hpre.1 hpre.2.1 hlast.1
      rw [hl] at hfree
      cases hfree
    · cases hq
  · cases hq

/-- The stamp of what a process wants to lock. -/
def wanted (x : Sys ι) (p : ι) : Nat :=
  match wants x p with
  | some q => x.shared.stamp (x.shared.itable q).inum
  | none => 0

/-- Whoever waits for `p'`, which waits itself, wants a directory. -/
theorem WaitsFor.dir (h : (protocol ninodes).Good Ready x) (hscr : x.shared.scribbled = false)
    {p'' : ι} (hw : WaitsFor x p p') (hw' : WaitsFor x p' p'') :
    ∃ q, wants x p = some q ∧ (x.shared.dinode q).type = .dir := by
  obtain ⟨q, hq, hl, -⟩ := hw.ilock ninodes h
  obtain ⟨q', -, -, -, -, hpre⟩ := hw'.ilock ninodes h
  exact ⟨q, hq, (hpre hscr q hl).1⟩

/-- Stamps grow along the way that processes wait. -/
theorem WaitsFor.wanted_lt (h : (protocol ninodes).Good Ready x) (hscr : x.shared.scribbled = false)
    {p'' p₃ : ι} (hw : WaitsFor x p p') (hw' : WaitsFor x p' p'') (hw₃ : WaitsFor x p'' p₃) :
    wanted x p < wanted x p' := by
  obtain ⟨q, hq, hl, -⟩ := hw.ilock ninodes h
  obtain ⟨q', hq', -, -, -, hpre⟩ := hw'.ilock ninodes h
  obtain ⟨r, hr, hdir⟩ := hw'.dir ninodes h hscr hw₃
  rw [hq'] at hr
  cases hr
  have hlt := (hpre hscr q hl).2 hdir
  simpa [wanted, hq, hq'] using hlt

omit [Fintype ι] [DecidableEq ι] in
/-- Along a chain every process but the last has one behind the next. -/
theorem WaitsFor.chain {a b c : ι} (h : Relation.TransGen (WaitsFor x) a b) (hb : WaitsFor x b c) :
    ∃ d e, WaitsFor x a d ∧ WaitsFor x d e := by
  induction h using Relation.TransGen.head_induction_on with
  | single hab => exact ⟨b, c, hab, hb⟩
  | head had _ ih =>
    obtain ⟨e, -, hde, -⟩ := ih
    exact ⟨_, e, had, hde⟩

theorem WaitsFor.wanted_lt_of_transGen (h : (protocol ninodes).Good Ready x)
    (hscr : x.shared.scribbled = false) {a b c d : ι} (hab : Relation.TransGen (WaitsFor x) a b)
    (hbc : WaitsFor x b c) (hcd : WaitsFor x c d) : wanted x a < wanted x b := by
  induction hab using Relation.TransGen.head_induction_on with
  | single hab => exact hab.wanted_lt ninodes h hscr hbc hcd
  | head hae hrest ih =>
    obtain ⟨f, g, hef, hfg⟩ := WaitsFor.chain hrest hbc
    exact (hae.wanted_lt ninodes h hscr hef hfg).trans ih

/-- No process waits, through any number of others, for an inode lock of its own: not for any volume
whose directories form no cycle, and not in any run in which no directory is written to as
a file. -/
theorem inode_locks_no_deadlock {v : Volume} (hv : v.tree = true) {p₀ : ι}
    (h : Reaches (step ninodes) (fun x a => tidy x a = true) (boot v p₀) x) (p : ι) :
    ¬ Relation.TransGen (WaitsFor x) p p := by
  intro hcycle
  have hgood := good_of_reaches ninodes h
  have hscr := scribbled_of_reaches ninodes hv h
  -- the cycle can be followed from its start as far as one likes
  obtain ⟨d, hpd, hdp⟩ : ∃ d, WaitsFor x p d ∧ Relation.ReflTransGen (WaitsFor x) d p :=
    Relation.TransGen.head'_iff.1 hcycle
  obtain ⟨e, f, hpe, hef⟩ := WaitsFor.chain hcycle hpd
  exact absurd (WaitsFor.wanted_lt_of_transGen ninodes hgood hscr hcycle hpe hef) (lt_irrefl _)

/-! ### A run that does deadlock -/

/-- A volume with nothing but the root directory. -/
def rootOnly : Nat → Dinode := fun i =>
  if i = ROOTINO then
    { type := .dir, nlink := 1, ents := [⟨dot, ROOTINO⟩, ⟨dotdot, ROOTINO⟩], data := [] }
  else
    { type := .none, nlink := 0, ents := [], data := [] }

def emptyVolume : Volume where
  disk := rootOnly
  rank := fun _ => 0
  bound := 1
  clean := true
  tree := true
  root := by decide
  linked := by
    intro _ i hty
    by_cases hi : i = ROOTINO
    · simp [rootOnly, hi]
    · exact absurd hty (by simp [rootOnly, hi])
  rank_lt := by simp
  ordered := by
    intro _ d e _ he _ hdot hdotdot
    by_cases hd : d = ROOTINO
    · have hcases : e = ⟨dot, ROOTINO⟩ ∨ e = ⟨dotdot, ROOTINO⟩ := by
        simpa [rootOnly, hd] using he
      rcases hcases with rfl | rfl
      · exact absurd rfl hdot
      · exact absurd rfl hdotdot
    · exact absurd he (by simp [rootOnly, hd])

/-- Process `p` begins a call and does `n` operations of it. -/
def calls (p : ι) (c : Call ι) (n choice : Nat) : List (Act ι) :=
  .start p c :: List.replicate n (.run p choice)

/-- An absolute path of names of one character. -/
def slash (l : List UInt8) : Path :=
  ⟨true, l.map fun c => [c]⟩

/-- Process 1 is in a directory that was removed, and whose `..` is an inode that is free.  While
process 0 creates the file `/c/f` in that inode, process 1 looks at it through `..` and frees it
again; then process 2 makes it the directory `/g`.  Process 0 has the directory open for writing,
puts an entry for the directory into itself, and removes that. -/
def deadlockRun : List (Act (Fin 3)) :=
  List.flatten [calls 0 (.mkdir (slash [97])) 24 2, calls 0 (.mkdir (slash [97, 98])) 29 3,
    calls 0 (.mkdir (slash [99])) 24 4, calls 0 (.fork 1) 2 0, calls 0 (.fork 2) 2 0,
    calls 1 (.chdir (slash [97, 98])) 17 0, calls 0 (.unlink (slash [97, 98])) 21 1,
    calls 0 (.unlink (slash [97])) 20 1,
    calls 0 (.open (slash [99, 102]) (O_CREATE ||| O_WRONLY) false) 11 2,
    calls 1 (.chdir ⟨false, [dotdot]⟩) 14 0, [.run 0 0], calls 2 (.mkdir (slash [103])) 7 2,
    List.replicate 11 (.run 0 1), List.replicate 17 (.run 2 1),
    calls 0 (.write 0 [⟨0, [⟨[120], 2⟩], []⟩]) 5 1, calls 0 (.unlink (slash [103, 120])) 11 1]

set_option maxRecDepth 100000 in
theorem deadlockRun_waits : ((run (step 200) (boot emptyVolume 0) deadlockRun).map fun x =>
    (wants x 0, (x.shared.itable 3).lock)) = some (some 3, some 0) := by
  decide +kernel

/-- In that run process 0 waits for a lock that it holds itself. -/
theorem inode_locks_self_deadlock : ∃ x : Sys (Fin 3),
    Reaches (step 200) anyStep (boot emptyVolume 0) x ∧ WaitsFor x 0 0 := by
  obtain ⟨x, hx, heq⟩ := Option.map_eq_some_iff.1 deadlockRun_waits
  obtain ⟨hwants, hlock⟩ := Prod.mk.inj heq
  exact ⟨x, .of_run_any hx, 3, hwants, hlock⟩

/-- Process 1 waits for the root directory, in which process 0 creates another directory. -/
def waitingRun : List (Act (Fin 3)) :=
  calls 0 (.fork 1) 2 0 ++ calls 0 (.mkdir (slash [97])) 5 2 ++ calls 1 (.mkdir (slash [98])) 1 0

set_option maxRecDepth 100000 in
theorem waitingRun_waits : ((runIf (step 200) (fun x a => tidy x a = true) (boot emptyVolume 0)
    waitingRun).map fun x => (wants x 1, (x.shared.itable 0).lock)) = some (some 0, some 0) := by
  decide +kernel

theorem inode_locks_no_deadlock_waiting : ∃ x : Sys (Fin 3),
    Reaches (step 200) (fun x a => tidy x a = true) (boot emptyVolume 0) x ∧ WaitsFor x 1 0 ∧
      ∀ p, ¬ Relation.TransGen (WaitsFor x) p p := by
  obtain ⟨x, hx, heq⟩ := Option.map_eq_some_iff.1 waitingRun_waits
  obtain ⟨hwants, hlock⟩ := Prod.mk.inj heq
  have hreach := Reaches.of_runIf hx
  exact ⟨x, hreach, ⟨0, hwants, hlock⟩, inode_locks_no_deadlock 200 rfl hreach⟩

/-! ## References and the freeing of inodes -/

omit [DecidableEq ι] in
/-- Whoever writes to an inode on the disk has its entry locked, or has just found it free. -/
theorem Inv.target_cases (h : Inv s) {o : Op ι} {c : Nat} (hpre : Pre p o s)
    (htarget : target s c o = some i) :
    (∃ type, o = .ialloc type ∧ c = i) ∨
      ∃ q, (s.itable q).inum = i ∧ (s.itable q).lock = some p ∧ 0 < (s.itable q).ref ∧
        (o = .ifree q ∨ o = .itrunc q ∨ (∃ name j, o = .addEntry q name j) ∨
          (∃ n, o = .eraseEntry q n) ∨ (∃ n, o = .setNlink q n) ∨ ∃ w, o = .writei q w) := by
  cases o with
  | ialloc type => exact .inl ⟨type, rfl, Option.some.inj htarget⟩
  | ifree q =>
    exact .inr ⟨q, Option.some.inj htarget, hpre.1, h.ref_pos_of_lock hpre.1, .inl rfl⟩
  | itrunc q =>
    exact .inr ⟨q, Option.some.inj htarget, hpre, h.ref_pos_of_lock hpre, .inr (.inl rfl)⟩
  | addEntry q name j =>
    exact .inr ⟨q, Option.some.inj htarget, hpre.1, h.ref_pos_of_lock hpre.1,
      .inr (.inr (.inl ⟨name, j, rfl⟩))⟩
  | eraseEntry q n =>
    exact .inr ⟨q, Option.some.inj htarget, hpre, h.ref_pos_of_lock hpre,
      .inr (.inr (.inr (.inl ⟨n, rfl⟩)))⟩
  | setNlink q n =>
    exact .inr ⟨q, Option.some.inj htarget, hpre.1, h.ref_pos_of_lock hpre.1,
      .inr (.inr (.inr (.inr (.inl ⟨n, rfl⟩))))⟩
  | writei q w =>
    exact .inr ⟨q, Option.some.inj htarget, hpre, h.ref_pos_of_lock hpre,
      .inr (.inr (.inr (.inr (.inr ⟨w, rfl⟩))))⟩
  | _ => cases htarget

omit [Fintype ι] [DecidableEq ι] in
theorem St.setDisk_type (s : St ι) {d : Dinode} (hd : d.type = (s.disk i).type) :
    ((s.setDisk i d).disk i).type = (s.disk i).type := by
  rw [s.setDisk_self]
  exact hd

/-- An inode that is in use keeps its type until it is freed. -/
theorem exec_type (h : Inv s) {o : Op ι} {c : Nat} {r : o.Reply} (hpre : Pre p o s)
    (hexec : exec ninodes p c o s = some (r, t)) (hty : (s.disk i).type ≠ .none) :
    (t.disk i).type = (s.disk i).type ∨ ∃ q, o = .ifree q ∧ (s.itable q).inum = i := by
  by_cases htarget : target s c o = some i
  · rcases h.target_cases hpre htarget with ⟨type, rfl, rfl⟩ | ⟨q, rfl, hl, href, ho⟩
    · simp only [exec] at hexec
      split at hexec
      · cases hexec
        exact .inl rfl
      · split at hexec
        · rename_i hfree
          exact absurd hfree.2 hty
        · cases hexec
    · rcases ho with rfl | rfl | ⟨name, j, rfl⟩ | ⟨n, rfl⟩ | ⟨n, rfl⟩ | ⟨w, rfl⟩
      · exact .inr ⟨q, rfl, rfl⟩
      · cases hexec
        exact .inl (s.setDisk_type rfl)
      · simp only [exec] at hexec
        split at hexec
        · cases hexec
          exact .inl rfl
        · cases hexec
          exact .inl (s.setDisk_type rfl)
      · cases hexec
        exact .inl (s.setDisk_type rfl)
      · cases hexec
        have hv := (h.entry q).locked (by simp [hl])
        have hlive := h.live_of_valid href hv hpre.2
        refine .inl ((congrArg Dinode.type (St.setDisk_self _ _ _)).trans ?_)
        exact (h.type_of_live href hv hlive).1.symm
      · simp only [exec] at hexec
        split at hexec
        · cases hexec
          exact .inl rfl
        · split at hexec
          · cases hexec
            exact .inl (s.setDisk_type rfl)
          · cases hexec
            exact .inl (s.setDisk_type rfl)
  · rw [(exec_effect ninodes hexec).disk i htarget]
    exact .inl rfl

/-- What is right about the inode table in a state of the system. -/
structure TableOk (x : Sys ι) : Prop where
  /-- At most one entry in use for an inode. -/
  uniq : ∀ q r, 0 < (x.shared.itable q).ref → 0 < (x.shared.itable r).ref →
    (x.shared.itable q).inum = (x.shared.itable r).inum → q = r
  /-- References are the pointers of open files, current directories and calls. -/
  ref : ∀ q, (x.shared.itable q).ref = uses x.shared q
  /-- `iput` does not wait for the sleep-lock. -/
  lock : ∀ p q k, x.code p = some (.op (.iputBegin q) k) → (x.shared.itable q).ref = 1 →
    (x.shared.itable q).lock = none
  /-- `iput` begins to free the inode if the pointer is the last one and there is no link. -/
  begins : ∀ p q k c y, x.code p = some (.op (.iputBegin q) k) →
    step ninodes x (.run p c) = some y →
    ((y.shared.itable q).freeing = true ↔
      (x.shared.itable q).ref = 1 ∧ (x.shared.dinode q).nlink = 0)
  /-- While it does, its pointer is the only one, and the inode has no link. -/
  freeing : ∀ q, (x.shared.itable q).freeing = true → ∃ p, (x.shared.itable q).lock = some p ∧
    Points x.shared p q ∧ uses x.shared q = 1 ∧ (x.shared.dinode q).nlink = 0
  /-- No other step takes the type of an inode that is in use. -/
  frees : ∀ a y i, step ninodes x a = some y → (x.shared.disk i).type ≠ .none →
    (y.shared.disk i).type = .none → ∃ p c q, a = .run p c ∧ (x.shared.itable q).inum = i ∧
      (x.shared.itable q).lock = some p ∧ (x.shared.itable q).freeing = true
  /-- Each allocation is followed by at most one release. -/
  once : ∀ i, x.shared.allocs i = x.shared.frees i + if (x.shared.disk i).type = .none then 0 else 1
  /-- An inode with neither a link nor a pointer is free, unless it was just allocated. -/
  lost : ∀ i, (x.shared.disk i).type ≠ .none → (x.shared.disk i).nlink = 0 →
    (∃ q, 0 < (x.shared.itable q).ref ∧ (x.shared.itable q).inum = i) ∨
      ∃ p, x.shared.fresh p = some i
  /-- An open file keeps the number, the type and the content of its inode, unless a process has it
  locked and writes to it. -/
  opened : ∀ a y f, step ninodes x a = some y → 0 < (x.shared.file f).ref →
    (y.shared.file f).ip = (x.shared.file f).ip ∧
    (y.shared.itable (x.shared.file f).ip).inum = (x.shared.itable (x.shared.file f).ip).inum ∧
    (x.shared.dinode (x.shared.file f).ip).type ≠ .none ∧
    (y.shared.dinode (x.shared.file f).ip).type = (x.shared.dinode (x.shared.file f).ip).type ∧
    (y.shared.dinode (x.shared.file f).ip = x.shared.dinode (x.shared.file f).ip ∨
      ∃ p c, a = .run p c ∧ (x.shared.itable (x.shared.file f).ip).lock = some p ∧
        (x.shared.itable (x.shared.file f).ip).freeing = false)

section

variable (h : (protocol ninodes).Good Ready x)

include h

theorem begins_iff (hr : x.shared.raced = false) {k : Bool → Cmd ι Unit} {c : Nat}
    (hcode : x.code p = some (.op (.iputBegin q) k)) (hstep : step ninodes x (.run p c) = some y) :
    (y.shared.itable q).freeing = true ↔
      (x.shared.itable q).ref = 1 ∧ (x.shared.dinode q).nlink = 0 := by
  have hpre := h.pre (protocol_sound ι ninodes) hcode
  have hb : Backed x.shared q := hpre.2.2 hr
  -- with the last pointer, the copy of the link count in the entry is there and is right
  have hlast : (x.shared.itable q).ref = 1 ∧ (x.shared.itable q).valid = true ∧
      (x.shared.itable q).nlink = 0 ↔
      (x.shared.itable q).ref = 1 ∧ (x.shared.dinode q).nlink = 0 := by
    constructor
    · rintro ⟨href, hv, hn⟩
      exact ⟨href, (h.inv.type_of_live (by omega) hv hb.1).2.trans hn⟩
    · rintro ⟨href, hn⟩
      have hv := hb.2.resolve_right fun hne => hne hn
      exact ⟨href, hv, (h.inv.type_of_live (by omega) hv hb.1).2.symm.trans hn⟩
  simp only [step, Threads.run, hcode] at hstep
  rcases Option.map_eq_some_iff.1 hstep with ⟨⟨b, t⟩, hexec, rfl⟩
  change (t.itable q).freeing = true ↔ _
  rw [← hlast]
  simp only [exec, St.iputBegin] at hexec
  split at hexec
  · rename_i hl
    rw [if_pos (h.inv.lock_free hpre.1 hpre.2.1 hl.1)] at hexec
    cases hexec
    rw [x.shared.setInode_self]
    exact ⟨fun _ => hl, fun _ => rfl⟩
  · rename_i hl
    cases hexec
    have hf : (((x.shared.addRef q (-1)).drop p q).itable q).freeing = false :=
      (x.shared.addRef_lock q (-1) q).2.trans hb.1.1
    rw [hf]
    exact ⟨fun hf => absurd hf (by simp), fun hl' => absurd hl' hl⟩

theorem opened_step {a : Act ι} {f : Fp} (hstep : step ninodes x a = some y)
    (hf : 0 < (x.shared.file f).ref) :
    (y.shared.file f).ip = (x.shared.file f).ip ∧
    (y.shared.itable (x.shared.file f).ip).inum = (x.shared.itable (x.shared.file f).ip).inum ∧
    (x.shared.dinode (x.shared.file f).ip).type ≠ .none ∧
    (y.shared.dinode (x.shared.file f).ip).type = (x.shared.dinode (x.shared.file f).ip).type ∧
    (y.shared.dinode (x.shared.file f).ip = x.shared.dinode (x.shared.file f).ip ∨
      ∃ p c, a = .run p c ∧ (x.shared.itable (x.shared.file f).ip).lock = some p ∧
        (x.shared.itable (x.shared.file f).ip).freeing = false) := by
  have hsolid := h.inv.file f hf
  have hkept : Kept x.shared (x.shared.file f).ip := .inl ⟨f, if_pos hf⟩
  have href := hkept.ref_pos h.inv
  generalize hq : (x.shared.file f).ip = q at hsolid hkept href ⊢
  rcases step_cases ninodes h hstep with heq | ⟨p, c, o, k, r, rfl, hcode, hpre, hexec⟩
  · rw [heq, hq]
    exact ⟨rfl, rfl, hsolid.1.2, rfl, .inl rfl⟩
  · have heff := exec_effect ninodes hexec
    have hinum := heff.inum q href
    refine ⟨(heff.file f hf).trans hq, hinum, hsolid.1.2, ?_, ?_⟩
    · unfold St.dinode
      rw [hinum]
      refine (exec_type ninodes h.inv hpre hexec hsolid.1.2).resolve_right ?_
      -- the inode of an open file is not one that is being freed
      rintro ⟨r', rfl, hr'⟩
      have heq := h.inv.uniq r' q (h.inv.ref_pos_of_lock hpre.1) href hr'
      rw [heq] at hpre
      have hfreeing := hpre.2.1
      rw [hsolid.1.1] at hfreeing
      cases hfreeing
    · by_cases htarget : target x.shared c o = some (x.shared.itable q).inum
      · rcases h.inv.target_cases hpre htarget with ⟨type, rfl, rfl⟩ | ⟨r', hr', hl, hpos, -⟩
        · refine .inl ?_
          unfold St.dinode
          rw [hinum]
          simp only [exec] at hexec
          split at hexec
          · have ht := congrArg Prod.snd (Option.some.inj hexec)
            simp only at ht
            rw [ht]
          · split at hexec
            · rename_i hfree
              exact absurd hfree.2 hsolid.1.2
            · cases hexec
        · have heq := h.inv.uniq r' q hpos href hr'
          rw [heq] at hl
          exact .inr ⟨p, c, rfl, hl, hsolid.1.1⟩
      · refine .inl ?_
        unfold St.dinode
        rw [hinum, heff.disk _ htarget]

end

/-- In every run that takes no pointer out of order, from a volume on which every inode in use has a
link, the inode table is as it should be. -/
theorem inode_table_ok {v : Volume} (hv : v.clean = true) {p₀ : ι}
    (hreach : Reaches (step ninodes) (fun x a => orderly x a = true) (boot v p₀) x) :
    TableOk ninodes x := by
  have h := good_of_reaches ninodes hreach
  have hr := raced_of_reaches ninodes hv hreach
  refine ⟨h.inv.uniq, h.inv.ref, fun p q k hcode href => ?_,
    fun p q k c y hcode hstep => begins_iff ninodes h hr hcode hstep, fun q hf => ?_,
    fun a y i hstep hty hnone => ?_, h.inv.count, h.inv.lost hr,
    fun a y f hstep hf => opened_step ninodes h hstep hf⟩
  · have hpre := h.pre (protocol_sound ι ninodes) hcode
    exact h.inv.lock_free hpre.1 hpre.2.1 href
  · have hentry := h.inv.entry q
    cases hl : (x.shared.itable q).lock with
    | none => exact absurd hl (hentry.freeing hf).1
    | some p =>
      refine ⟨p, rfl, hentry.lock p hl, hentry.quiet hr hf, ?_⟩
      exact hentry.zero (h.inv.ref_pos_of_lock hl) hf
  · rcases step_cases ninodes h hstep with heq | ⟨p, c, o, k, r, rfl, -, hpre, hexec⟩
    · rw [heq] at hnone
      exact absurd hnone hty
    · rcases exec_type ninodes h.inv hpre hexec hty with heq | ⟨q, rfl, hinum⟩
      · rw [hnone] at heq
        exact absurd heq.symm hty
      · exact ⟨p, c, q, rfl, hinum, hpre.1, hpre.2.1⟩

/-! ### A run that loses an inode -/

/-- Process 0 removes `/a`, whose inode it frees.  Before it gives up its pointer, process 1 creates
`/b` in the same inode, gets a pointer to the same entry, and removes `/b` and closes it. -/
def leakRun : List (Act (Fin 2)) :=
  List.flatten [calls 0 (.open (slash [97]) (O_CREATE ||| O_WRONLY) false) 18 2,
    calls 0 (.close 0) 3 0, calls 0 (.fork 1) 2 0, calls 0 (.unlink (slash [97])) 16 1,
    calls 1 (.open (slash [98]) (O_CREATE ||| O_WRONLY) false) 18 2,
    calls 1 (.unlink (slash [98])) 14 1, calls 1 (.close 0) 3 0, List.replicate 2 (.run 0 0)]

set_option maxRecDepth 100000 in
theorem leakRun_lost : ((run (step 200) (boot emptyVolume 0) leakRun).map fun x =>
    ((x.shared.disk 2).type, (x.shared.disk 2).nlink, decide (∀ q, ¬ (0 < (x.shared.itable q).ref ∧
      (x.shared.itable q).inum = 2)), decide (∀ p, (x.code p).isNone = true ∧
      x.shared.fresh p = none))) = some (.file, 0, true, true) := by
  decide +kernel

/-- The inode has a type, but neither a link nor a pointer, and no call is under way. -/
theorem inode_table_leaks : ∃ x : Sys (Fin 2), Reaches (step 200) anyStep (boot emptyVolume 0) x ∧
    (x.shared.disk 2).type = .file ∧ (x.shared.disk 2).nlink = 0 ∧
    (∀ q, ¬ (0 < (x.shared.itable q).ref ∧ (x.shared.itable q).inum = 2)) ∧
    ∀ p, x.code p = none ∧ x.shared.fresh p = none := by
  obtain ⟨x, hx, heq⟩ := Option.map_eq_some_iff.1 leakRun_lost
  obtain ⟨hty, heq⟩ := Prod.mk.inj heq
  obtain ⟨hn, heq⟩ := Prod.mk.inj heq
  obtain ⟨hq, hp⟩ := Prod.mk.inj heq
  refine ⟨x, .of_run_any hx, hty, hn, of_decide_eq_true hq, fun p => ?_⟩
  obtain ⟨hcode, hfresh⟩ := of_decide_eq_true hp p
  exact ⟨Option.isNone_iff_eq_none.1 hcode, hfresh⟩

/-- Process 0 has `/a` open while it removes the file, up to the last `iput` of the
unlinked file. -/
def unlinkedRun : List (Act (Fin 2)) :=
  calls 0 (.open (slash [97]) (O_CREATE ||| O_WRONLY) false) 18 2 ++
  calls 0 (.unlink (slash [97])) 14 1 ++ calls 0 (.close 0) 1 0

set_option maxRecDepth 100000 in
theorem unlinkedRun_open : ((runIf (step 200) (fun x a => orderly x a = true) (boot emptyVolume 0)
    unlinkedRun).map fun x => ((x.shared.itable 1).ref, (x.shared.disk 2).nlink,
      (x.shared.disk 2).type)) = some (1, 0, .file) := by
  decide +kernel

theorem inode_table_ok_unlinked : ∃ x : Sys (Fin 2),
    Reaches (step 200) (fun x a => orderly x a = true) (boot emptyVolume 0) x ∧
    (x.shared.itable 1).ref = 1 ∧ (x.shared.disk 2).nlink = 0 ∧ (x.shared.disk 2).type = .file ∧
    TableOk 200 x := by
  obtain ⟨x, hx, heq⟩ := Option.map_eq_some_iff.1 unlinkedRun_open
  obtain ⟨href, heq⟩ := Prod.mk.inj heq
  obtain ⟨hn, hty⟩ := Prod.mk.inj heq
  have hreach := Reaches.of_runIf hx
  exact ⟨x, hreach, href, hn, hty, inode_table_ok 200 rfl hreach⟩

end Xv6.Itable
