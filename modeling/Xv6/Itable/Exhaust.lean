import Xv6.Itable.Runs
import Xv6.Log.GroupStep

/-!
# Exhaust — when the inode table and the buffer cache are full

`iget` and `bget` panic if every entry is in use.  Entries in use are counted by what refers to
them: open files, current directories and calls for inodes, calls and the log for buffers.  The
limits on processes and descriptors do not bound either number.
-/

namespace Xv6

open Lib

/-! ## Inodes -/

namespace Itable

variable {ι : Type} [Fintype ι] [DecidableEq ι] {s : St ι} {p : ι} {i : Nat}

/-- The inodes that open files, current directories and calls point to. -/
def pointed (s : St ι) : Finset Nat :=
  (Finset.univ.filter fun q => 0 < uses s q).image fun q => (s.itable q).inum

omit [DecidableEq ι] in
theorem Inv.mem_pointed (h : Inv s) :
    i ∈ pointed s ↔ ∃ q, 0 < (s.itable q).ref ∧ (s.itable q).inum = i := by
  have href : ∀ q, 0 < uses s q ↔ 0 < (s.itable q).ref := by
    intro q
    rw [h.ref q]
    exact Nat.cast_pos.symm
  simp [pointed, href]

omit [DecidableEq ι] in
theorem Inv.card_pointed (h : Inv s) :
    (pointed s).card = (Finset.univ.filter fun q => 0 < (s.itable q).ref).card := by
  have hfilter : (Finset.univ.filter fun q => 0 < uses s q) =
      Finset.univ.filter fun q => 0 < (s.itable q).ref := by
    refine Finset.filter_congr fun q _ => ?_
    rw [h.ref q]
    exact Nat.cast_pos.symm
  unfold pointed
  rw [hfilter]
  refine Finset.card_image_of_injOn fun q hq r hr heq => ?_
  have hq' : 0 < (s.itable q).ref := by simpa using hq
  have hr' : 0 < (s.itable r).ref := by simpa using hr
  exact h.uniq q r hq' hr' heq

omit [Fintype ι] [DecidableEq ι] in
theorem St.lookup_isSome_iff :
    (s.lookup i).isSome = true ↔ ∃ q, 0 < (s.itable q).ref ∧ (s.itable q).inum = i := by
  simp [St.lookup, List.find?_isSome]

omit [Fintype ι] [DecidableEq ι] in
theorem St.empty_isSome_iff : (s.empty).isSome = true ↔ ∃ q, (s.itable q).ref = 0 := by
  simp [St.empty, List.find?_isSome]

/-- `iget` does not panic exactly if the inode is in the table or fewer than `NINODE` are. -/
theorem Inv.iget_isSome_iff (h : Inv s) :
    (s.iget p i).isSome = true ↔ i ∈ pointed s ∨ (pointed s).card < NINODE := by
  have hcard : (pointed s).card < NINODE ↔ ∃ q, (s.itable q).ref = 0 := by
    rw [h.card_pointed, ← exists_not_iff_card_lt]
    refine exists_congr fun q => ?_
    have href := h.ref q
    omega
  rw [h.mem_pointed, hcard, ← St.lookup_isSome_iff, ← St.empty_isSome_iff]
  unfold St.iget
  cases hl : s.lookup i with
  | some q => simp
  | none => simp

end Itable

/-! ## Buffers -/

namespace Group

open Log Bio

variable {A : LogArea} {s : State} {p : Slot} {dev : UInt32} {n : BlockNo}

/-- The buffers that calls of `bread` and `brelse` refer to or that the log keeps. -/
def referred (s : State) : Finset BufId :=
  Finset.univ.filter fun b => 0 < s.bio.users b + s.pins b

/-- `bget` does not panic exactly if the block is cached or fewer than `NBUF` buffers are referred
to. -/
theorem bget_isSome_iff (h : s.bio.Inv s.pins) : (s.bio.bget p dev n).isSome = true ↔
      (s.bio.cached dev n).isSome = true ∨ (referred s).card < NBUF := by
  have hunused : (s.bio.unused).isSome = true ↔ ∃ b, (s.bio.buf b).refcnt = 0 := by
    simp [Bio.State.unused, List.find?_isSome, s.bio.mem_lru]
  have hcard : (referred s).card < NBUF ↔ ∃ b, (s.bio.buf b).refcnt = 0 := by
    unfold referred
    rw [← exists_not_iff_card_lt]
    refine exists_congr fun b => ?_
    have hcount := h.count b
    omega
  rw [hcard, ← hunused]
  unfold Bio.State.bget
  cases hc : s.bio.cached dev n with
  | some b => simp
  | none =>
    cases hu : s.bio.unused with
    | some b => simp
    | none => simp

theorem safe_of_reaches {s₀ : State} (h₀ : Started s₀)
    (hs : Reaches (step A) (fun s a => ClientOk A s a) s₀ s) : Safe A s :=
  hs.invariant (P := Safe A) (safe_of_started A h₀) (safe_step A)

end Group

/-! ## Both tables -/

/-- In every state that processes reach, `iget` finds an entry exactly if the inode is in the table
or open files, current directories and calls point to fewer than `NINODE` inodes, and `bget` finds a
buffer exactly if the block is cached or calls and the log refer to fewer than `NBUF` buffers. -/
theorem tables_suffice_iff {ι : Type} [Fintype ι] [DecidableEq ι] {ninodes : Nat}
    {v : Itable.Volume} {p₀ : ι} {x : Itable.Sys ι} {A : Log.LogArea} {s₀ s : Group.State}
    (hx : Reaches (Itable.step ninodes) anyStep (Itable.boot v p₀) x) (h₀ : Group.Started s₀)
    (hs : Reaches (Group.step A) (fun s a => Group.ClientOk A s a) s₀ s) (hpanic : s.panic = none) :
    (∀ p i, (x.shared.iget p i).isSome = true ↔
      i ∈ Itable.pointed x.shared ∨ (Itable.pointed x.shared).card < NINODE) ∧
    ∀ p dev n, (s.bio.bget p dev n).isSome = true ↔
      (s.bio.cached dev n).isSome = true ∨ (Group.referred s).card < NBUF := by
  refine ⟨fun p i => ?_, fun p dev n => ?_⟩
  · exact (Itable.good_of_reaches ninodes hx).inv.iget_isSome_iff
  · have hcore := (Group.safe_of_reaches h₀ hs).core hpanic
    exact Group.bget_isSome_iff hcore.base.bio

/-- A volume with fifty files in its root directory. -/
def Itable.fiftyFiles : Nat → Itable.Dinode := fun i =>
  if i = ROOTINO then
    { type := .dir, nlink := 1, data := []
      ents := ⟨Itable.dot, ROOTINO⟩ :: ⟨Itable.dotdot, ROOTINO⟩ ::
        (List.range 50).map fun n => ⟨[UInt8.ofNat (n + 48)], n + 2⟩ }
  else if 2 ≤ i ∧ i < 52 then
    { type := .file, nlink := 1, ents := [], data := [] }
  else
    { type := .none, nlink := 0, ents := [], data := [] }

theorem Itable.fiftyFiles_dir {d : Nat} (h : (Itable.fiftyFiles d).type = .dir) : d = ROOTINO := by
  by_contra hd
  by_cases hlt : 2 ≤ d ∧ d < 52
  · exact absurd h (by simp [fiftyFiles, hd, hlt])
  · exact absurd h (by simp [fiftyFiles, hd, hlt])

def Itable.fiftyVolume : Itable.Volume where
  disk := Itable.fiftyFiles
  rank := fun _ => 0
  bound := 1
  clean := true
  tree := true
  root := by decide
  linked := by
    intro _ i hty
    by_cases hi : i = ROOTINO
    · simp [Itable.fiftyFiles, hi]
    · by_cases hlt : 2 ≤ i ∧ i < 52
      · simp [Itable.fiftyFiles, hi, hlt]
      · exact absurd hty (by simp [Itable.fiftyFiles, hi, hlt])
  rank_lt := fun _ => Nat.lt_add_one 0
  ordered := by
    intro _ d e hd he _ hdot hdotdot hdir
    rw [Itable.fiftyFiles_dir hd] at he
    have hei := Itable.fiftyFiles_dir hdir
    have hcases : e = ⟨Itable.dot, ROOTINO⟩ ∨ e = ⟨Itable.dotdot, ROOTINO⟩ ∨
        ∃ n < 50, (⟨[UInt8.ofNat (n + 48)], n + 2⟩ : Itable.Dirent) = e := by
      simpa [Itable.fiftyFiles] using he
    rcases hcases with rfl | rfl | ⟨n, -, rfl⟩
    · exact absurd rfl hdot
    · exact absurd rfl hdotdot
    · exact absurd hei (by change n + 2 ≠ 1; omega)

/-- Process `p` opens the file number `n` for reading, up to the `k`-th operation. -/
def Itable.openNth (p : Fin 4) (n k : Nat) : List (Itable.Act (Fin 4)) :=
  Itable.calls p (.open (Itable.slash [UInt8.ofNat (n + 48)]) O_RDONLY false) k 0

set_option maxRecDepth 100000 in
theorem Itable.openNth_runs : ((run (Itable.step 200) (Itable.boot Itable.fiftyVolume 0)
    (Itable.openNth 0 0 11)).map fun x => (x.shared.iget 0 3).isSome) = some true := by
  decide +kernel

theorem Group.reader_runs : ((runIf (Group.step .mkfs) (fun s a => Group.ClientOk .mkfs s a)
    (.boot fun _ _ => 0) [.bread 0 ROOTDEV 100]).map fun s =>
      (s.panic, (s.bio.bget 1 ROOTDEV 101).isSome)) = some (none, true) := by
  decide +kernel

/-- A process has opened a file and takes an entry for another one; while it reads a block another
process takes a buffer. -/
theorem tables_suffice_iff_calls : ∃ (x : Itable.Sys (Fin 4)) (s : Group.State),
    run (Itable.step 200) (Itable.boot Itable.fiftyVolume 0) (Itable.openNth 0 0 11) = some x ∧
    (x.shared.iget 0 3).isSome = true ∧
    (3 ∈ Itable.pointed x.shared ∨ (Itable.pointed x.shared).card < NINODE) ∧
    runIf (Group.step .mkfs) (fun s a => Group.ClientOk .mkfs s a) (.boot fun _ _ => 0)
      [.bread 0 ROOTDEV 100] = some s ∧
    (s.bio.bget 1 ROOTDEV 101).isSome = true ∧
    ((s.bio.cached ROOTDEV 101).isSome = true ∨ (Group.referred s).card < NBUF) := by
  obtain ⟨x, hx, hget⟩ := Option.map_eq_some_iff.1 Itable.openNth_runs
  obtain ⟨s, hs, heq⟩ := Option.map_eq_some_iff.1 Group.reader_runs
  obtain ⟨hpanic, hbget⟩ := Prod.mk.inj heq
  have hboth := tables_suffice_iff (.of_run_any hx) (Group.started_boot _) (.of_runIf hs) hpanic
  exact ⟨x, s, hx, hget, (hboth.1 0 3).1 hget, hs, hbget, (hboth.2 1 ROOTDEV 101).1 hbget⟩

/-- Four processes open forty-nine files, which with the root directory fill the table. -/
def Itable.fullRun : List (Itable.Act (Fin 4)) :=
  Itable.calls 0 (.fork 1) 2 0 ++ Itable.calls 0 (.fork 2) 2 0 ++ Itable.calls 0 (.fork 3) 2 0 ++
  (List.range 49).flatMap (fun n => Itable.openNth (Fin.ofNat 4 (n / 16)) n 11) ++
  Itable.openNth 3 49 3

/-- The inode that the next operation of `p` is an `iget` of. -/
def Itable.gets (x : Itable.Sys (Fin 4)) (p : Fin 4) : Option Nat :=
  match x.code p with
  | some (.op (.iget i) _) => some i
  | _ => none

set_option maxRecDepth 100000 in
theorem Itable.fullRun_gets : ((run (Itable.step 200) (Itable.boot Itable.fiftyVolume 0)
    Itable.fullRun).map fun x => (Itable.gets x 3, (x.shared.iget 3 51).isNone)) =
      some (some 51, true) := by
  decide +kernel

/-- Thirty-one processes read a block each. -/
def Group.readers : List Group.Act :=
  (List.finRange 31).map fun p => .bread (p.castLE (by decide)) ROOTDEV (UInt32.ofNat (100 + p.val))

set_option maxRecDepth 100000 in
theorem Group.readers_panic : ((runIf (Group.step .mkfs) (fun s a => Group.ClientOk .mkfs s a)
    (.boot fun _ _ => 0) Group.readers).map fun s => s.panic) = some (some .noBuffers) := by
  decide +kernel

/-- Both panics are reached. -/
theorem tables_exhausted : (∃ x : Itable.Sys (Fin 4),
      Reaches (Itable.step 200) anyStep (Itable.boot Itable.fiftyVolume 0) x ∧
        Itable.gets x 3 = some 51 ∧ x.shared.iget 3 51 = none) ∧
    ∃ s, Reaches (Group.step .mkfs) (fun s a => Group.ClientOk .mkfs s a)
      (.boot fun _ _ => 0) s ∧ s.panic = some .noBuffers := by
  obtain ⟨x, hx, heq⟩ := Option.map_eq_some_iff.1 Itable.fullRun_gets
  obtain ⟨hgets, hnone⟩ := Prod.mk.inj heq
  obtain ⟨s, hs, hpanic⟩ := Option.map_eq_some_iff.1 Group.readers_panic
  exact ⟨⟨x, .of_run_any hx, hgets, Option.isNone_iff_eq_none.1 hnone⟩, s, .of_runIf hs, hpanic⟩

end Xv6
