import Xv6.Fs.Steps
import Xv6.Lib.Transition
import Xv6.Mkfs.Consistent

/-!
# Runs — what holds after any sequence of calls

Blocks, holes and the copies of inodes in every state that the system calls of any number of
processes reach.
-/

namespace Xv6.Fs

open Lib Prog Volume
open Function (update update_idem update_of_ne update_self)

variable {sb : Superblock} {s₀ s t : St} {q : Ip} {v : Volume}

/-! ## The invariant over runs -/

theorem inv_of_reaches {ok : St → Call → Prop} (h₀ : Inv sb s₀) (h : Reaches (step sb) ok s₀ s) :
    Inv sb s ∧ s.hist = s₀.hist := by
  refine h.invariant (P := fun s => Inv sb s ∧ s.hist = s₀.hist) ⟨h₀, rfl⟩ ?_
  rintro s c t ⟨hinv, hhist⟩ _ hstep
  have hended := step_ended hinv hstep
  exact ⟨hended.inv, hended.hist.trans hhist⟩

/-- No call frees a block that is free. -/
theorem run_ne_freeingFreeBlock {c : Call} (h : Inv sb s) (hc : c.enabled s = true) :
    c.run sb s ≠ .error .freeingFreeBlock := by
  intro herr
  exact (of_wp_error (call_spec h hc) herr).1 rfl

/-! ## Ownership -/

/-- From an image whose blocks are owned and that has no holes, the blocks are owned after any
calls, and `bfree` never finds a block free. -/
theorem owned_of_reaches (hown : v.Owned sb) (hholes : v.NoHoles sb)
    (h : Reaches (step sb) anyStep (boot v.mount) s) :
    s.vol.Owned sb ∧ ∀ c : Call, c.enabled s = true → c.run sb s ≠ .error .freeingFreeBlock := by
  have hinv := (inv_of_reaches (inv_boot (hown.intact hholes)) h).1
  exact ⟨hinv.stable.intact.owned, fun c hc => run_ne_freeingFreeBlock hinv hc⟩

/-- A file is made and removed while it is open; the write to it runs into a bad address. -/
def ownedCalls : List Call :=
  [.open 0 (some [97]) (O_CREATE ||| O_RDWR),
    .write 0 0 (fun j => if j < 3 then some 7 else none) 5 0,
    .mkdir 0 (some [98]),
    .unlink 0 (some [97])]

set_option maxRecDepth 100000 in
theorem owned_of_reaches_calls : ∃ s,
    run (step Mkfs.sb) (boot Mkfs.blank.mount) ownedCalls = some s ∧
      (s.vol.dip Mkfs.sb 2).nlink = 0 ∧ s.vol.bit Mkfs.sb 47 = true ∧ s.vol.Owned Mkfs.sb ∧
      ∀ c : Call, c.enabled s = true → c.run Mkfs.sb s ≠ .error .freeingFreeBlock := by
  have heval : (run (step Mkfs.sb) (boot Mkfs.blank.mount) ownedCalls).any fun s =>
      decide ((s.vol.dip Mkfs.sb 2).nlink = 0 ∧ s.vol.bit Mkfs.sb 47 = true) := by
    decide +kernel
  rcases exists_of_any heval with ⟨s, hs, hnlink, hbit⟩
  exact ⟨s, hs, hnlink, hbit,
    owned_of_reaches Mkfs.intact_blank.owned Mkfs.intact_blank.noHoles (.of_run_any hs)⟩

/-! ## Reading -/

/-- The panics of `ilock`, and that it keeps what it has to. -/
theorem ilock_reads (hs : Stable sb s) : wp (ilock sb q) (· ≠ .logWriteOutside)
      (fun _ t => Stable sb t ∧ 0 < (t.itable q).ref ∧ (t.itable q).valid = true) s := by
  have herr : wp (ilock sb q) (· ≠ .logWriteOutside) (fun _ _ => True) s := by
    unfold ilock
    rw [wp_bind, wp_gets]
    split
    · simp
    split
    · simp
    split
    · trivial
    rw [wp_bind, wp_gets]
    split
    · simp
    · trivial
  refine wp_mono (wp_and herr (ilock_blame (.refl hs))) (fun _ he => he.1) ?_
  rintro _ t ⟨_, hwalk, _, _, href, hvalid, _⟩
  exact ⟨hwalk.stable, hwalk.ref_pos href, hvalid⟩

theorem iunlock_reads : wp (iunlock sb q) (· ≠ .logWriteOutside) (fun _ _ => True) s := by
  unfold iunlock
  rw [wp_bind, wp_gets]
  split
  · simp
  · trivial

theorem fileread_reads {f : Fp} {dst : Nat → Bool} {n : Nat} {io : Int} (hs : Stable sb s) :
    wp (fileread sb f dst n io) (· ≠ .logWriteOutside) (fun _ _ => True) s := by
  unfold fileread
  rw [wp_bind, wp_gets]
  split
  · trivial
  split
  · simp
  · trivial
  refine wp_seq (ilock_reads hs) ?_
  rintro _ t ⟨ht, href, hvalid⟩
  rcases readi_of_stable ht href hvalid dst (s.ftable f).off n with ⟨r, hr⟩
  rw [wp_bind, wp_of_eq hr, wp_bind, setFile, wp_modify]
  exact wp_seq iunlock_reads fun _ _ _ => trivial

theorem filestat_reads {f : Fp} {ok : Bool} (hs : Stable sb s) :
    wp (filestat sb f ok) (· ≠ .logWriteOutside) (fun _ _ => True) s := by
  unfold filestat
  rw [wp_bind, wp_gets]
  split
  · refine wp_seq (ilock_reads hs) ?_
    rintro _ t _
    rw [wp_bind, stati, wp_bind, wp_gets, wp_pure]
    exact wp_seq iunlock_reads fun _ _ _ => trivial
  · trivial

/-- From a state in which the invariant holds there are no holes after any calls, `readi` has never
come to a block that is not there, and reading and `fstat` log nothing. -/
theorem noHoles_of_reaches (h₀ : Inv sb s₀) (h : Reaches (step sb) anyStep s₀ s) :
    s.vol.NoHoles sb ∧ s.hist.holes = s₀.hist.holes ∧
      (∀ q dst off n, 0 < (s.itable q).ref → (s.itable q).valid = true →
        ∃ r, readi sb q dst off n s = .ok r s) ∧
      (∀ p fd dst n io, (Call.read p fd dst n io).run sb s ≠ .error .logWriteOutside) ∧
      ∀ p fd ok, (Call.fstat p fd ok).run sb s ≠ .error .logWriteOutside := by
  rcases inv_of_reaches h₀ h with ⟨hinv, hhist⟩
  have hs := hinv.stable
  refine ⟨hs.intact.noHoles, by rw [hhist], fun q dst off n hq hvalid =>
    readi_of_stable hs hq hvalid dst off n, fun p fd dst n io herr => ?_, fun p fd ok herr => ?_⟩
  · have hspec : wp ((Call.read p fd dst n io).run sb) (· ≠ .logWriteOutside)
        (fun _ _ => True) s := by
      refine wp_seq argfd_spec ?_
      rintro (_ | ⟨_, f⟩) t ⟨rfl, _⟩
      · trivial
      · exact fileread_reads hs
    exact of_wp_error hspec herr rfl
  · have hspec : wp ((Call.fstat p fd ok).run sb) (· ≠ .logWriteOutside) (fun _ _ => True) s := by
      refine wp_seq argfd_spec ?_
      rintro (_ | ⟨_, f⟩) t ⟨rfl, _⟩
      · trivial
      · exact filestat_reads hs
    exact of_wp_error hspec herr rfl

set_option maxRecDepth 100000 in
theorem noHoles_of_reaches_calls : ∃ s,
    run (step Mkfs.sb) (boot Mkfs.blank.mount) ownedCalls = some s ∧
      0 < (s.itable 1).ref ∧ (s.itable 1).valid = true ∧ s.vol.NoHoles Mkfs.sb ∧
      s.hist.holes = 0 ∧ ∃ r, readi Mkfs.sb 1 (fun _ => true) 0 3 s = .ok r s := by
  have heval : (run (step Mkfs.sb) (boot Mkfs.blank.mount) ownedCalls).any fun s =>
      decide (0 < (s.itable 1).ref ∧ (s.itable 1).valid = true) := by
    decide +kernel
  rcases exists_of_any heval with ⟨s, hs, hpos, hvalid⟩
  have hreads := noHoles_of_reaches (inv_boot Mkfs.intact_blank) (.of_run_any hs)
  exact ⟨s, hs, hpos, hvalid, hreads.1, hreads.2.1, hreads.2.2.1 1 _ 0 3 hpos hvalid⟩

/-! ### A block in two places

Without the exact bitmap a file's data may be another file's indirect block. -/

/-- A root directory; inode 2 has block 47 as its data and inode 3 has it as its indirect block. -/
def crossedInode : Nat → Dinode
  | 1 =>
    { Dinode.zero with
      type := .dir, nlink := 1, size := BSIZE, addrs := fun k => if k = 0 then 46 else 0 }
  | 2 =>
    { Dinode.zero with
      type := .file, nlink := 1, size := BSIZE, addrs := fun k => if k = 0 then 47 else 0 }
  | 3 =>
    { Dinode.zero with
      type := .file, nlink := 1, size := 13 * BSIZE
      addrs := fun k => if k < NDIRECT then 48 + k else 47 }
  | _ => .zero

/-- The entries `.`, `..`, `a` and `b` of the root. -/
def crossedDir : Block := fun x =>
  match x / DESIZE with
  | 0 => Dirent.bytes { inum := 1, name := .ofList dot } (x % DESIZE)
  | 1 => Dirent.bytes { inum := 1, name := .ofList dotdot } (x % DESIZE)
  | 2 => Dirent.bytes { inum := 2, name := .ofList [97] } (x % DESIZE)
  | 3 => Dirent.bytes { inum := 3, name := .ofList [98] } (x % DESIZE)
  | _ => 0

def crossedVol : Volume where
  dinode b k := if b = 32 then crossedInode k else .zero
  bitmap b k := decide (b = 45 ∧ k < 61)
  data b := if b = 46 then crossedDir else if b = 47 then Block.zero.setUint 0 60 else .zero
  disk b := if b = 46 then crossedDir else if b = 47 then Block.zero.setUint 0 60 else .zero

theorem dip_crossedVol (i : Nat) : crossedVol.dip Mkfs.sb i = crossedInode i := by
  have hstart : Mkfs.sb.inodestart = 32 := rfl
  have hblock : i / 16 + 32 = 32 ↔ i < 16 := by omega
  simp only [dip, crossedVol, IBLOCK, hstart, IPB, BSIZE, Nat.reduceDiv, hblock]
  split
  · rw [Nat.mod_eq_of_lt (by assumption)]
  · unfold crossedInode
    split <;> first | omega | rfl

theorem noHoles_crossedVol : crossedVol.NoHoles Mkfs.sb := by
  have hone : ∀ i, i < 4 → i ≠ 0 → crossedVol.held Mkfs.sb (i, slotOf 0) ≠ 0 := by
    decide +kernel
  have hthree : ∀ bn, bn < 13 → crossedVol.held Mkfs.sb (3, slotOf bn) ≠ 0 := by
    decide +kernel
  intro i htype bn hbn
  rw [dip_crossedVol] at htype hbn
  unfold crossedInode at htype hbn
  split at htype
  · simp only [BSIZE] at hbn
    rw [show bn = 0 by omega]
    exact hone 1 (by decide) (by decide)
  · simp only [BSIZE] at hbn
    rw [show bn = 0 by omega]
    exact hone 2 (by decide) (by decide)
  · simp only [BSIZE] at hbn
    exact hthree bn (by omega)
  · exact absurd rfl htype

set_option maxRecDepth 100000 in
/-- Writing four zeros to inode 2 takes a block from inode 3. -/
theorem hole_after_write : crossedVol.NoHoles Mkfs.sb ∧ ∃ s,
    run (step Mkfs.sb) (boot crossedVol.mount)
      [.open 0 (some [97]) O_RDWR, .write 0 0 (fun _ => some 0) 4 0] = some s ∧
      ¬ s.vol.NoHoles Mkfs.sb := by
  refine ⟨noHoles_crossedVol, ?_⟩
  have heval : (run (step Mkfs.sb) (boot crossedVol.mount)
      [.open 0 (some [97]) O_RDWR, .write 0 0 (fun _ => some 0) 4 0]).any fun s =>
      decide ((s.vol.dip Mkfs.sb 3).type ≠ .free ∧
        12 < ((s.vol.dip Mkfs.sb 3).size + BSIZE - 1) / BSIZE ∧
        s.vol.held Mkfs.sb (3, slotOf 12) = 0) := by
    decide +kernel
  rcases exists_of_any heval with ⟨s, hs, htype, hsize, hheld⟩
  exact ⟨s, hs, fun hno => hno 3 htype 12 hsize hheld⟩

/-! ## Copies of inodes -/

theorem iupdate_dinode {b k : Nat} (h : iupdate sb q s = .ok () t)
    (hother : (b, k) ≠ (IBLOCK sb (s.itable q).inum, (s.itable q).inum % IPB)) :
    t.vol.dinode b k = s.vol.dinode b k := by
  have hspec : wp (iupdate sb q) (fun _ => True)
      (fun _ t => t.vol.dinode b k = s.vol.dinode b k) s := by
    unfold iupdate setVol
    rw [wp_bind, wp_gets, wp_bind, wp_modify]
    refine wp_mono (wp_logWrite fun o => ?_) (fun _ _ => trivial) fun _ _ h => h
    simp only [logged, setDip]
    by_cases hb : b = IBLOCK sb (s.itable q).inum
    · subst hb
      have hk : k ≠ (s.itable q).inum % IPB := fun hk => hother (by rw [hk])
      rw [update_self, update_of_ne hk]
    · rw [update_of_ne hb]
  exact of_wp (Q := fun _ t => t.vol.dinode b k = s.vol.dinode b k) hspec h

/-- A copy that is as on the disk can be dropped: locking reads the same again. -/
theorem ilock_reread (hs : Stable sb s) (hq : 0 < (s.itable q).ref)
    (hvalid : (s.itable q).valid = true) (d : Dinode) :
    ilock sb q { s with
      itable := update s.itable q { s.itable q with valid := false, copy := d } } =
      ilock sb q s := by
  have hcopy := hs.coherent q hq hvalid
  have htype := hs.typed q hq hvalid
  unfold ilock
  rw [bind_gets, bind_gets]
  simp only [update_self]
  have href : ¬ (s.itable q).ref < 1 := by omega
  rw [if_neg href, if_neg href]
  split
  · rfl
  rw [if_neg (by simp)]
  change (if (s.vol.dip sb (s.itable q).inum).type = .free then _ else _ : M Unit) _ = _
  rw [← hcopy, if_neg htype]
  unfold setInode Prog.modify
  simp only [update_self, update_idem, hvalid, ← hcopy]

theorem iget_vol {i : Nat} : wp (iget i) (fun _ => True) (fun _ t => t.vol = s.vol) s := by
  unfold iget setInode
  rw [wp_bind, wp_gets]
  split
  · rw [wp_bind, wp_modify, wp_pure]
  · split
    · rw [wp_bind, wp_modify, wp_pure]
    · trivial

/-- `ialloc` writes at most one inode, and one that was free. -/
theorem iallocFrom_dinode {type : FileType} {n i : Nat} :
    wp (iallocFrom sb type n i) (fun _ => True) (fun _ t => ∃ j, ∀ b k,
      t.vol.dinode b k = s.vol.dinode b k ∨
        (b, k) = (IBLOCK sb j, j % IPB) ∧ (s.vol.dip sb j).type = .free) s := by
  induction n generalizing i with
  | zero => exact ⟨0, fun _ _ => .inl rfl⟩
  | succ n ih =>
    rw [iallocFrom]
    split
    · rw [wp_bind, wp_gets]
      split
      · rename_i hfree
        rw [wp_bind, wp_modify, wp_bind]
        refine wp_mono (wp_logWrite fun o => ?_) (fun _ _ => trivial) fun _ _ h => h
        refine wp_seq iget_vol ?_
        intro q t ht
        refine ⟨i, fun b k => ?_⟩
        rw [ht]
        simp only [logged, setDip]
        by_cases hb : b = IBLOCK sb i
        · subst hb
          by_cases hk : k = i % IPB
          · exact .inr ⟨by rw [hk], hfree⟩
          · rw [update_self, update_of_ne hk]
            exact .inl rfl
        · rw [update_of_ne hb]
          exact .inl rfl
      · exact ih
    · exact ⟨0, fun _ _ => .inl rfl⟩

/-- From a state in which the invariant holds, after any calls: a valid copy of an inode in use is
the inode on the disk, so locking the entry gives the same whether or not its copy is dropped;
no inode was unlocked with a copy that differs.  What writes inodes, `iupdate` and `ialloc`, writes
one inode of its block. -/
theorem coherent_of_reaches (h₀ : Inv sb s₀) (h : Reaches (step sb) anyStep s₀ s) :
    (∀ q, 0 < (s.itable q).ref → (s.itable q).valid = true → (s.itable q).lock = false →
      (s.itable q).copy = s.vol.dinode (IBLOCK sb (s.itable q).inum) ((s.itable q).inum % IPB) ∧
      ∀ d, ilock sb q { s with
        itable := update s.itable q { s.itable q with valid := false, copy := d } } =
        ilock sb q s) ∧
    s.hist.stale = s₀.hist.stale ∧
    (∀ q t u b k, iupdate sb q t = .ok () u →
      (b, k) ≠ (IBLOCK sb (t.itable q).inum, (t.itable q).inum % IPB) →
      u.vol.dinode b k = t.vol.dinode b k) ∧
    ∀ type t r u, ialloc sb type t = .ok r u → ∃ j, ∀ b k, u.vol.dinode b k = t.vol.dinode b k ∨
        (b, k) = (IBLOCK sb j, j % IPB) ∧ (t.vol.dip sb j).type = .free := by
  rcases inv_of_reaches h₀ h with ⟨hinv, hhist⟩
  refine ⟨fun q hq hvalid _ => ⟨hinv.stable.coherent q hq hvalid,
    ilock_reread hinv.stable hq hvalid⟩, by rw [hhist], fun _ _ _ _ _ => iupdate_dinode, ?_⟩
  intro type t r u hr
  exact of_wp (Q := fun _ u => ∃ j, ∀ b k, u.vol.dinode b k = t.vol.dinode b k ∨
    (b, k) = (IBLOCK sb j, j % IPB) ∧ (t.vol.dip sb j).type = .free) iallocFrom_dinode hr

set_option maxRecDepth 100000 in
theorem coherent_of_reaches_calls : ∃ s,
    run (step Mkfs.sb) (boot Mkfs.blank.mount) ownedCalls = some s ∧
      0 < (s.itable 1).ref ∧ (s.itable 1).valid = true ∧ (s.itable 1).lock = false ∧
      (s.itable 1).copy = s.vol.dinode (IBLOCK Mkfs.sb 2) (2 % IPB) ∧ s.hist.stale = 0 := by
  have heval : (run (step Mkfs.sb) (boot Mkfs.blank.mount) ownedCalls).any fun s =>
      decide (0 < (s.itable 1).ref ∧ (s.itable 1).valid = true ∧ (s.itable 1).lock = false ∧
        (s.itable 1).inum = 2) := by
    decide +kernel
  rcases exists_of_any heval with ⟨s, hs, hpos, hvalid, hlock, hinum⟩
  have hall := coherent_of_reaches (inv_boot Mkfs.intact_blank) (.of_run_any hs)
  have hcopy := (hall.1 1 hpos hvalid hlock).1
  rw [hinum] at hcopy
  exact ⟨s, hs, hpos, hvalid, hlock, hcopy, hall.2.1⟩

/-- Two files are opened and closed; the second is opened again and written. -/
def recycledCalls : List Call :=
  [.open 0 (some [97]) (O_CREATE ||| O_RDWR), .open 0 (some [98]) (O_CREATE ||| O_RDWR),
    .close 0 0, .close 0 1, .open 0 (some [98]) O_RDWR, .write 0 0 (fun _ => some 7) 1 0]

set_option maxRecDepth 100000 in
/-- An entry of the inode table that is not in use keeps `valid` and an old copy. -/
theorem stale_free_entry : Mkfs.blank.NoHoles Mkfs.sb ∧ ∃ s,
    run (step Mkfs.sb) (boot Mkfs.blank.mount) recycledCalls = some s ∧
      (s.itable 2).valid = true ∧ (s.itable 2).lock = false ∧
      (s.itable 2).copy.size ≠
        (s.vol.dinode (IBLOCK Mkfs.sb (s.itable 2).inum) ((s.itable 2).inum % IPB)).size := by
  refine ⟨Mkfs.intact_blank.noHoles, ?_⟩
  have heval : (run (step Mkfs.sb) (boot Mkfs.blank.mount) recycledCalls).any fun s =>
      decide ((s.itable 2).valid = true ∧ (s.itable 2).lock = false ∧ (s.itable 2).copy.size ≠
        (s.vol.dinode (IBLOCK Mkfs.sb (s.itable 2).inum) ((s.itable 2).inum % IPB)).size) := by
    decide +kernel
  exact exists_of_any heval

end Xv6.Fs
