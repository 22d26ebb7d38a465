import Xv6.Fs.Runs
import Xv6.Fs.Write

/-!
# Bytes — inodes as lists of bytes

`readi` and `writei` in terms of the contents of an inode.  A write from a source of which only a
part can be read may leave bytes behind that it does not report.
-/

namespace Xv6.Fs

open Lib Prog Volume

variable {sb : Superblock} {s t u : St} {q : Ip} {l : Finset Nat} {src : Nat → Option UInt8}

/-! ## Contents -/

/-- The bytes `c` with those from `off` on replaced by `bs`. -/
def overwrite (c : List UInt8) (off : Nat) (bs : List UInt8) : List UInt8 :=
  c.take off ++ bs ++ c.drop (off + bs.length)

/-- The first `n` bytes of a source. -/
def source (src : Nat → Option UInt8) (n : Nat) : List UInt8 :=
  (List.range n).map fun j => (src j).getD 0

@[simp]
theorem length_source (n : Nat) : (source src n).length = n := by
  simp [source]

theorem getElem?_overwrite {c bs : List UInt8} {off : Nat} (h : off ≤ c.length) (x : Nat) :
    (overwrite c off bs)[x]? =
      if x < off ∨ off + bs.length ≤ x then getElem? c x else getElem? bs (x - off) := by
  have hlen : (c.take off).length = off := by
    rw [List.length_take, Nat.min_eq_left h]
  unfold overwrite
  split
  · rename_i hout
    rcases hout with hlt | hge
    · rw [List.append_assoc, List.getElem?_append_left (by omega), List.getElem?_take, if_pos hlt]
    · rw [List.getElem?_append_right (by rw [List.length_append]; omega), List.getElem?_drop,
        List.length_append, hlen, Nat.add_sub_cancel' hge]
  · rename_i hin
    rw [List.getElem?_append_left (by rw [List.length_append]; omega),
      List.getElem?_append_right (by omega), hlen]

namespace Volume

variable {v w : Volume} {i : Nat}

/-- The contents of inode `i`. -/
def contents (sb : Superblock) (v : Volume) (i : Nat) : List UInt8 :=
  v.bytesAt sb i 0 (v.dip sb i).size

theorem getElem?_contents (x : Nat) : (v.contents sb i)[x]? =
    if x < (v.dip sb i).size then some (v.byteAt sb i x) else none := by
  rw [contents, bytesAt, List.getElem?_map]
  split
  · rename_i hlt
    rw [List.getElem?_range hlt, Option.map_some, Nat.zero_add]
  · rename_i hge
    rw [List.getElem?_eq_none (by rw [List.length_range]; omega)]
    rfl

theorem length_contents : (v.contents sb i).length = (v.dip sb i).size := by
  simp [contents, bytesAt]

theorem contents_drop_take (off n : Nat) : ((v.contents sb i).drop off).take n =
    v.bytesAt sb i off (min n ((v.dip sb i).size - off)) := by
  refine List.ext_getElem? fun x => ?_
  rw [List.getElem?_take, List.getElem?_drop, getElem?_contents, bytesAt, List.getElem?_map]
  by_cases hx : x < min n ((v.dip sb i).size - off)
  · rw [if_pos (by omega), if_pos (by omega), List.getElem?_range hx]
    rfl
  · rw [List.getElem?_eq_none (by rw [List.length_range]; omega)]
    split_ifs
    · omega
    · rfl
    · rfl

/-- The contents of a longer inode are those of the old one with some bytes replaced. -/
theorem contents_eq_overwrite {off tot : Nat} (hoff : off ≤ (v.dip sb i).size)
    (hsize : (w.dip sb i).size = max (v.dip sb i).size (off + tot))
    (hnew : ∀ x, off ≤ x → x < off + tot → w.byteAt sb i x = (src (x - off)).getD 0)
    (hkept : ∀ x, x < off ∨ off + tot ≤ x → x < (v.dip sb i).size →
      w.byteAt sb i x = v.byteAt sb i x) :
    w.contents sb i = overwrite (v.contents sb i) off (source src tot) := by
  have hold : off ≤ (v.contents sb i).length := by rwa [length_contents]
  refine List.ext_getElem? fun x => ?_
  rw [getElem?_contents, getElem?_overwrite hold, length_source, getElem?_contents]
  by_cases hout : x < off ∨ off + tot ≤ x
  · rw [if_pos hout]
    by_cases hlt : x < (v.dip sb i).size
    · rw [if_pos (by omega), if_pos hlt, hkept x hout hlt]
    · rw [if_neg (by omega), if_neg hlt]
  · rw [if_neg hout, if_pos (by omega), hnew x (by omega) (by omega), source, List.getElem?_map,
      List.getElem?_range (by omega)]
    rfl

theorem contents_congr (hsize : (w.dip sb i).size = (v.dip sb i).size)
    (h : ∀ x, x < (v.dip sb i).size → w.byteAt sb i x = v.byteAt sb i x) :
    w.contents sb i = v.contents sb i := by
  refine List.ext_getElem? fun x => ?_
  rw [getElem?_contents, getElem?_contents, hsize]
  split
  · rename_i hlt
    rw [h x hlt]
  · rfl

theorem Intact.blockAt_ne (h : v.Intact sb) (htype : (v.dip sb i).type ≠ .free) {x : Nat}
    (hx : x < (v.dip sb i).size) : v.blockAt sb i x ≠ 0 :=
  h.mapped i htype _ (Nat.lt_of_le_of_lt (Nat.div_mul_le_self _ _) hx)

end Volume

theorem Written.contents {v w : Volume} {i off tot : Nat} (h : Written sb i src off tot v w)
    (hv : v.Intact sb) (htype : (v.dip sb i).type ≠ .free) (hoff : off ≤ (v.dip sb i).size)
    (hsize : (w.dip sb i).size = max (v.dip sb i).size (off + tot)) :
    w.contents sb i = overwrite (v.contents sb i) off (source src tot) :=
  contents_eq_overwrite hoff hsize h.new
    fun x hout hlt => h.old x (hv.blockAt_ne htype hlt) hout

theorem Written.contents_other {v w : Volume} {i j off tot : Nat}
    (h : Written sb i src off tot v w) (hv : v.Intact sb) (hj : j ≠ i)
    (htype : (v.dip sb j).type ≠ .free) : w.contents sb j = v.contents sb j := by
  refine contents_congr (by rw [h.dip j hj]) fun x hx => ?_
  have hne := hv.blockAt_ne htype hx
  rw [byteAt, byteAt, blockAt, blockAt, h.other j _ hj, h.data j _ hj hne]

/-! ## Reading -/

theorem readi_contents (hmapped : ∀ bn, bn * BSIZE < (s.itable q).copy.size →
      (s.eff sb q).held sb ((s.itable q).inum, slotOf bn) ≠ 0)
    (hmax : (s.itable q).copy.size ≤ MAXFILE * BSIZE) {dst : Nat → Bool} {off n : Nat}
    (hdst : ∀ j, j < n → dst j = true) (hoff : off ≤ (s.itable q).copy.size) (hn : n < 2 ^ 31) :
    readi sb q dst off n s = .ok (((min n ((s.itable q).copy.size - off) : Nat) : Int),
        (((s.eff sb q).contents sb (s.itable q).inum).drop off).take n) s := by
  obtain ⟨r, hr, hval⟩ := readi_total hmapped dst off n
  have hlt : MAXFILE * BSIZE + 2 ^ 31 ≤ 2 ^ 32 := by decide
  rw [hr, hval hdst hoff (by omega), contents_drop_take, s.dip_eff]

theorem readi_intact (hv : (s.eff sb q).Intact sb) (hd : (s.itable q).copy.type ≠ .free)
    {dst : Nat → Bool} {off n : Nat} (hdst : ∀ j, j < n → dst j = true)
    (hoff : off ≤ (s.itable q).copy.size) (hn : n < 2 ^ 31) :
    readi sb q dst off n s = .ok (((min n ((s.itable q).copy.size - off) : Nat) : Int),
        (((s.eff sb q).contents sb (s.itable q).inum).drop off).take n) s := by
  have htype : ((s.eff sb q).dip sb (s.itable q).inum).type ≠ .free := by rwa [s.dip_eff]
  refine readi_contents (fun bn hbn => ?_) ?_ hdst hoff hn
  · exact hv.mapped _ htype bn (by rwa [s.dip_eff])
  · have := hv.size_le htype
    rwa [s.dip_eff] at this

/-! ## Writing from a source that can be read -/

/-- From `s` to `t` the contents of the inode in entry `q` have been overwritten from `off` on by
the first `tot` bytes of the source, and the inode has been written back. -/
structure Overwritten (sb : Superblock) (q : Ip) (src : Nat → Option UInt8) (off tot : Nat)
    (s t : St) : Prop where
  contents : t.vol.contents sb (s.itable q).inum =
    overwrite ((s.eff sb q).contents sb (s.itable q).inum) off (source src tot)
  size : (t.itable q).copy.size = max (s.itable q).copy.size (off + tot)
  inum : (t.itable q).inum = (s.itable q).inum
  eff : t.eff sb q = t.vol
  other : ∀ j, j ≠ (s.itable q).inum → ((s.eff sb q).dip sb j).type ≠ .free →
    t.vol.contents sb j = (s.eff sb q).contents sb j

theorem Done.inum {off n tot : Nat} (h : Done sb q src off n tot s t) :
    (t.itable q).inum = (s.itable q).inum := by
  obtain ⟨v, o, d, rfl⟩ := h.eq
  rw [St.itable_put_self]

theorem Done.eff {off n tot : Nat} (h : Done sb q src off n tot s t) : t.eff sb q = t.vol := by
  rw [St.eff, ← h.coherent, h.inum, setDip_dip]

theorem Done.overwritten {off tot : Nat} (h : Done sb q src off tot tot s t)
    (hv : (s.eff sb q).Intact sb) (hd : (s.itable q).copy.type ≠ .free)
    (hread : Readable src tot) : Overwritten sb q src off tot s t := by
  obtain ⟨k, hw, hk⟩ := h.bytes
  rw [hk hread, Nat.add_zero] at hw
  refine ⟨hw.contents hv ?_ ?_ ?_, h.size, h.inum, h.eff, fun j hj htype => ?_⟩
  · rwa [s.dip_eff]
  · rw [s.dip_eff]
    exact h.off_le
  · rw [s.dip_eff, h.coherent, h.size]
  · exact hw.contents_other hv hj htype

theorem full_sized {m : Nat} (h : u.vol.Full sb) : (u.sized sb q l m).vol.Full sb :=
  h

/-- Blocks that suffice for the whole write suffice for each part of it. -/
theorem enough_of_lastBlock {off n x : Nat} (hx : x < n)
    (h : (s.eff sb q).lacking sb (s.itable q).inum (off / BSIZE) (lastBlock off n) ≤
      s.vol.spare sb) : Enough sb q s off (off + x) :=
  (lacking_mono (Nat.div_le_div_right (by omega))).trans h

/-- An inode is a list of bytes.  A write from a source that can be read stores as much of it as
there are blocks for if there is room in the log, and is refused only beyond the end of the file or
of the block map; a read returns the bytes that are there. -/
theorem inode_bytes (hv : (s.eff sb q).Intact sb) (hd : (s.itable q).copy.type ≠ .free)
    (off n : Nat) :
    (∀ src, s.op = some l → n < 2 ^ 32 → Readable src n →
      (¬ Allowed (s.itable q).copy off n → writei sb q src off n s = .ok (-1) s) ∧
      (Allowed (s.itable q).copy off n → LogRoom sb q off n s l →
        ∃ (tot : Nat) (t : St), writei sb q src off n s = .ok tot t ∧ tot ≤ n ∧
          Overwritten sb q src off tot s t ∧ (tot = n ∨ t.vol.Full sb) ∧
          ((s.eff sb q).lacking sb (s.itable q).inum (off / BSIZE) (lastBlock off n) ≤
            s.vol.spare sb → tot = n))) ∧
    ∀ dst : Nat → Bool, (∀ j, j < n → dst j = true) → off ≤ (s.itable q).copy.size →
      n < 2 ^ 31 → readi sb q dst off n s =
        .ok (((min n ((s.itable q).copy.size - off) : Nat) : Int),
          (((s.eff sb q).contents sb (s.itable q).inum).drop off).take n) s := by
  refine ⟨fun src hop hn hread => ⟨fun hno => ?_, fun hok hroom => ?_⟩,
    fun dst hdst hoff hn => readi_intact hv hd hdst hoff hn⟩
  · have hopen := writei_open src hop hv hd hn fun hok => absurd hok hno
    obtain ⟨r, t, hrun, ⟨-, rfl, rfl⟩ | ⟨hok, -⟩⟩ := exists_of_wp hopen fun _ he => he
    · exact hrun
    · exact absurd hok hno
  · have hopen := writei_open src hop hv hd hn fun _ => hroom
    obtain ⟨r, t, hrun, ⟨hno, -⟩ | ⟨-, tot, l', u₀, u, rfl, hw, hstopped, hop', rfl⟩⟩ :=
      exists_of_wp hopen fun _ he => he
    · exact absurd hok hno
    refine ⟨tot, _, hrun, hstopped.le, ?_⟩
    have hover : Overwritten sb q src off tot s (u₀.sized sb q l' (off + tot)) :=
      (hw.done hd hok.1 l').overwritten hv hd hw.read
    cases hstopped with
    | all hall => exact ⟨hover, .inl hall, fun _ => hall⟩
    | full hlt hfull hno =>
      exact ⟨hover, .inr (full_sized hfull), fun h => absurd (enough_of_lastBlock hlt h) hno⟩
    | torn k hlt hnone =>
      have := hread _ hlt
      rw [hnone] at this
      cases this

/-- A file of five bytes is made. -/
def fileCalls : List Call :=
  [.open 0 (some [97]) (O_CREATE ||| O_RDWR), .write 0 0 (fun _ => some 7) 5 0]

/-- The state in which `sys_write` would write to the file again. -/
structure OneFile (s : St) : Prop where
  op : s.op = some ∅
  inum : (s.itable 1).inum = 2
  type : (s.itable 1).copy.type = .file
  size : (s.itable 1).copy.size = 5
  eff : s.eff Mkfs.sb 1 = s.vol
  intact : s.vol.Intact Mkfs.sb
  contents : s.vol.contents Mkfs.sb 2 = [7, 7, 7, 7, 7]

set_option maxRecDepth 100000 in
theorem exists_oneFile : ∃ s, run (step Mkfs.sb) (boot Mkfs.blank.mount) fileCalls = some s ∧
      OneFile { s with op := some ∅ } := by
  have heval : (run (step Mkfs.sb) (boot Mkfs.blank.mount) fileCalls).any fun s =>
      decide ((s.itable 1).ref = 1 ∧ (s.itable 1).valid = true ∧ (s.itable 1).inum = 2 ∧
        (s.itable 1).copy.type = .file ∧ (s.itable 1).copy.size = 5 ∧
        s.vol.contents Mkfs.sb 2 = [7, 7, 7, 7, 7]) := by
    decide +kernel
  rcases exists_of_any heval with ⟨s, hs, href, hvalid, hinum, htype, hsize, hcontents⟩
  have hstable := (inv_of_reaches (inv_boot Mkfs.intact_blank) (.of_run_any hs)).1.stable
  have hpos : 0 < (s.itable 1).ref := by rw [href]; decide
  exact ⟨s, hs, rfl, hinum, htype, hsize, hstable.eff_eq hpos hvalid, hstable.intact, hcontents⟩

/-- Two bytes or four in the one block of the file. -/
theorem OneFile.room {s : St} {off n : Nat} (hn : lastBlock off n = 0) :
    LogRoom Mkfs.sb 1 off n s ∅ := by
  have hle := (s.eff Mkfs.sb 1).logging_le Mkfs.sb (s.itable 1).inum (off / BSIZE) 0
  have hsize : Mkfs.sb.size / BPB = 0 := by decide
  have hnlog : Mkfs.sb.nlog = 30 := rfl
  rw [hsize] at hle
  unfold LogRoom
  rw [hn, hnlog, Finset.card_empty]
  generalize off / BSIZE = b at hle ⊢
  dsimp only [LOGSIZE, MAXOPBLOCKS]
  omega

theorem OneFile.type_ne {s : St} (h : OneFile s) : (s.itable 1).copy.type ≠ .free := by
  rw [h.type]
  decide

theorem inode_bytes_file : ∃ s, run (step Mkfs.sb) (boot Mkfs.blank.mount) fileCalls = some s ∧
      (∃ (t : St) (tot : Nat),
        writei Mkfs.sb 1 (fun _ => some 9) 3 4 { s with op := some ∅ } = .ok tot t ∧ tot ≤ 4 ∧
          t.vol.contents Mkfs.sb 2 = overwrite [7, 7, 7, 7, 7] 3 (source (fun _ => some 9) tot)) ∧
      readi Mkfs.sb 1 (fun _ => true) 3 4 { s with op := some ∅ } =
        .ok (2, [7, 7]) { s with op := some ∅ } := by
  obtain ⟨s, hs, hfile⟩ := exists_oneFile
  refine ⟨s, hs, ?_⟩
  generalize ({ s with op := some ∅ } : St) = s' at hfile
  have hbytes := @inode_bytes Mkfs.sb s' 1 ∅ (by rw [hfile.eff]; exact hfile.intact)
    hfile.type_ne 3 4
  rw [hfile.eff, hfile.inum, hfile.size, hfile.contents] at hbytes
  refine ⟨?_, hbytes.2 (fun _ => true) (fun _ _ => rfl) (by decide) (by decide)⟩
  obtain ⟨-, hok⟩ := hbytes.1 (fun _ => some 9) hfile.op (by decide) fun _ _ => rfl
  obtain ⟨tot, t, hrun, hle, hover, -⟩ :=
    hok ⟨by rw [hfile.size]; decide, by decide⟩ (OneFile.room (by decide))
  refine ⟨t, tot, hrun, hle, ?_⟩
  have hnew := hover.contents
  rwa [hfile.eff, hfile.inum, hfile.contents] at hnew

set_option maxRecDepth 100000 in
/-- A write of 27 blocks to the file fills the log with those, the bitmap block and the indirect
block, so that the inode cannot be logged. -/
theorem big_write : ∃ s, run (step Mkfs.sb) (boot Mkfs.blank.mount) fileCalls = some s ∧
      Allowed (s.itable 1).copy 0 (27 * BSIZE) ∧ s.vol.Intact Mkfs.sb ∧
      writei Mkfs.sb 1 (fun _ => some 7) 0 (27 * BSIZE) { s with op := some ∅ } =
        .error .tooBig := by
  obtain ⟨s, hs, hfile⟩ := exists_oneFile
  have heval : ((run (step Mkfs.sb) (boot Mkfs.blank.mount) fileCalls).bind fun s =>
      (writei Mkfs.sb 1 (fun _ => some 7) 0 (27 * BSIZE) { s with op := some ∅ }).error?) =
        some .tooBig := by
    decide +kernel
  rw [hs, Option.bind_some] at heval
  refine ⟨s, hs, ⟨Nat.zero_le _, by decide⟩, hfile.intact, Outcome.of_error? heval⟩

/-! ## Writing from a source that cannot be read to its end -/

/-- Byte `x` of inode `i`; a block that is not there would be full of zeros. -/
def Volume.cell (sb : Superblock) (v : Volume) (i x : Nat) : UInt8 :=
  if v.blockAt sb i x = 0 then 0 else v.byteAt sb i x

/-- From `s` to `t` exactly the first `tot` bytes of the source have been written at `off`: that is
what reads return from now on, no other byte in the blocks of the inode and no other inode has
changed, and no cached block has come to differ from what was logged. -/
structure Exact (sb : Superblock) (q : Ip) (src : Nat → Option UInt8) (off tot : Nat)
    (s t : St) : Prop where
  readable : Readable src tot
  size : (t.itable q).copy.size = max (s.itable q).copy.size (off + tot)
  reads : ∀ o m, o ≤ (t.itable q).copy.size → m < 2 ^ 31 → readi sb q (fun _ => true) o m t =
      .ok (((min m ((t.itable q).copy.size - o) : Nat) : Int),
        ((overwrite ((s.eff sb q).contents sb (s.itable q).inum) off (source src tot)).drop
          o).take m) t
  cells : ∀ x, x < off ∨ off + tot ≤ x →
    t.vol.cell sb (s.itable q).inum x = (s.eff sb q).cell sb (s.itable q).inum x
  other : ∀ j, j ≠ (s.itable q).inum → ((s.eff sb q).dip sb j).type ≠ .free →
    t.vol.contents sb j = (s.eff sb q).contents sb j
  clean : ∀ b, s.vol.CleanAt b → t.vol.CleanAt b

/-- A call of `writei` that reports what it does. -/
def Reported (sb : Superblock) (q : Ip) (src : Nat → Option UInt8) (off n : Nat) (s : St) : Prop :=
  ∃ r t, writei sb q src off n s = .ok r t ∧
    (r = -1 ∧ t = s ∨ ∃ tot : Nat, r = tot ∧ tot ≤ n ∧ Exact sb q src off tot s t)

/-- If the source can be read up to byte `p` only, and there are blocks up to there, then the bytes
that come before it in the same block are those that the block has already. -/
def Untorn (sb : Superblock) (q : Ip) (src : Nat → Option UInt8) (off n : Nat) (s : St) : Prop :=
  Allowed (s.itable q).copy off n → ∀ p, p < n → src p = none → Readable src p →
    Enough sb q s off (off + p) → ∀ j, j < p → (off + j) / BSIZE = (off + p) / BSIZE →
      src j = some ((s.eff sb q).cell sb (s.itable q).inum (off + j))

section

variable {off n tot k : Nat}

theorem blockAt_sized (u : St) (i m x : Nat) :
    (u.sized sb q l m).vol.blockAt sb i x = (u.eff sb q).blockAt sb i x := by
  rw [blockAt, blockAt]
  exact congrFun (held_resize u.vol (u.itable q).inum (u.itable q).copy _) _

/-- A byte beside the written ones, whether its block is new or not. -/
theorem Writing.cell {x : Nat} (h : Writing sb q src off n tot s u)
    (hx : x < off ∨ off + tot ≤ x) :
    (u.eff sb q).cell sb (s.itable q).inum x = (s.eff sb q).cell sb (s.itable q).inum x := by
  unfold Volume.cell
  split
  · rename_i hzero
    refine (if_pos ?_).symm
    by_contra hold
    exact hold ((h.written.held _ hold).symm.trans hzero)
  · rename_i hne
    split
    · rename_i hold
      exact h.zero x hold hne hx
    · rename_i hold
      exact h.written.old x hold hx

/-- A write that is not cut short by the source is exact. -/
theorem Writing.exact (h : Writing sb q src off n tot s u) (hv : (s.eff sb q).Intact sb)
    (hd : (s.itable q).copy.type ≠ .free) (hoff : off ≤ (s.itable q).copy.size) (l : Finset Nat) :
    Exact sb q src off tot s (u.sized sb q l (off + tot)) := by
  have hdone := h.done hd hoff l
  have hover := hdone.overwritten hv hd h.read
  have htype : ((u.sized sb q l (off + tot)).vol.dip sb (s.itable q).inum).type ≠ .free := by
    rw [hdone.coherent, St.sized, St.itable_put_self]
    change (u.itable q).copy.type ≠ .free
    rwa [h.type_eq]
  refine ⟨h.read, hdone.size, fun o m ho hm => ?_, fun x hx => ?_, hover.other,
    fun b hb => .logged (.inl (h.logs.clean b hb))⟩
  · rw [← hover.contents, ← hdone.eff, ← hdone.inum]
    refine readi_intact ?_ ?_ (fun _ _ => rfl) ho hm
    · rw [hdone.eff]
      exact hdone.intact
    · rwa [← hdone.coherent]
  · rw [← h.cell hx]
    unfold Volume.cell byteAt
    rw [blockAt_sized]
    rfl

theorem Writing.torn (h : Writing sb q src off n tot s u) (hd : (s.itable q).copy.type ≠ .free)
    (hoff : off ≤ (s.itable q).copy.size) (hk : k < BSIZE - (off + tot) % BSIZE)
    (hne : (u.eff sb q).blockAt sb (s.itable q).inum (off + tot) ≠ 0) :
    Written sb (s.itable q).inum src off (tot + k) (s.eff sb q)
      ((u.torn sb q src (s.itable q).inum off tot k).sized sb q l (off + tot)).vol := by
  have hdone := h.done hd hoff l
  obtain ⟨k', hw, hk'⟩ := hdone.bytes
  rw [hk' h.read, Nat.add_zero] at hw
  have hblock := @blockAt_sized sb q l u (s.itable q).inum (off + tot) (off + tot)
  refine hw.store hdone.intact (by rwa [hblock]) hk.le rfl (fun b hb => ?_) ?_
  · rw [hblock] at hb
    exact Function.update_of_ne hb _ _
  · rw [hblock]
    exact Function.update_self ..

theorem Writing.held_torn (h : Writing sb q src off n tot s u)
    (hd : (s.itable q).copy.type ≠ .free) (hoff : off ≤ (s.itable q).copy.size) :
    ((u.torn sb q src (s.itable q).inum off tot k).sized sb q l (off + tot)).vol.held sb =
      (u.sized sb q l (off + tot)).vol.held sb := by
  refine held_of_data (i := (s.itable q).inum) (h.done hd hoff l).intact
    (slotOf_ne ((off + tot) / BSIZE)) rfl fun b hb => ?_
  have hblock := @blockAt_sized sb q l u (s.itable q).inum (off + tot) (off + tot)
  rw [blockAt] at hblock
  rw [hblock] at hb
  exact Function.update_of_ne hb _ _

/-- A torn write that has stored what was there has changed nothing. -/
theorem Writing.torn_eq (h : Writing sb q src off n tot s u) (hk : k < BSIZE - (off + tot) % BSIZE)
    (hne : (u.eff sb q).blockAt sb (s.itable q).inum (off + tot) ≠ 0)
    (hsame : ∀ j, tot ≤ j → j < tot + k →
      src j = some ((s.eff sb q).cell sb (s.itable q).inum (off + j))) :
    u.torn sb q src (s.itable q).inum off tot k = u := by
  have hcopy : copyin src tot k ((off + tot) % BSIZE)
      (u.vol.data ((u.eff sb q).blockAt sb (s.itable q).inum (off + tot))) =
        u.vol.data ((u.eff sb q).blockAt sb (s.itable q).inum (off + tot)) := by
    funext x
    rw [copyin]
    split
    · rename_i hx
      obtain ⟨hdiv, hmod⟩ := same_block (off + tot) (j := x - (off + tot) % BSIZE) (by omega)
      rw [hsame _ (Nat.le_add_right _ _) (by omega), Option.getD_some, ← Nat.add_assoc,
        ← h.cell (by omega), Volume.cell, byteAt, blockAt, hdiv, hmod, Nat.add_sub_cancel' hx.1]
      exact if_neg hne
    · rfl
  rw [St.torn, hcopy, setData, Function.update_eq_self]

end

/-- The first byte of a source that cannot be read. -/
theorem Readable.le_of_none {p m : Nat} (h : Readable src m) (hp : src p = none) : m ≤ p := by
  by_contra hlt
  have := h p (Nat.lt_of_not_le hlt)
  rw [hp] at this
  cases this

/-- When the write stops at byte `tot + k`, the condition is about the bytes stored before it. -/
theorem untorn_iff {off n tot k : Nat} (hok : Allowed (s.itable q).copy off n)
    (hal : tot = n ∨ tot = 0 ∨ (off + tot) % BSIZE = 0) (hlt : tot + k < n)
    (hnone : src (tot + k) = none) (hread : Readable src (tot + k))
    (hk : k < BSIZE - (off + tot) % BSIZE) (henough : Enough sb q s off (off + tot)) :
    Untorn sb q src off n s ↔ ∀ j, tot ≤ j → j < tot + k →
      src j = some ((s.eff sb q).cell sb (s.itable q).inum (off + j)) := by
  have hsame : ∀ j, tot ≤ j → j ≤ tot + k → (off + j) / BSIZE = (off + tot) / BSIZE := by
    intro j hge hle
    have := (same_block (off + tot) (j := j - tot) (by omega)).1
    rwa [Nat.add_assoc, Nat.add_sub_cancel' hge] at this
  constructor
  · intro h j hge hj
    refine h hok (tot + k) hlt hnone hread ?_ j hj ?_
    · rw [Enough, hsame _ (Nat.le_add_right _ _) le_rfl]
      exact henough
    · rw [hsame j hge hj.le, hsame _ (Nat.le_add_right _ _) le_rfl]
  · intro h _ p hp hpnone hpread _ j hj hblock
    obtain rfl : p = tot + k := le_antisymm (hpread.le_of_none hnone) (hread.le_of_none hpnone)
    refine h j ?_ hj
    -- The loop came to `tot` at the beginning of a block, or at once.
    by_contra hjt
    rw [hsame _ (Nat.le_add_right _ _) le_rfl] at hblock
    simp only [BSIZE] at hal hblock
    omega

/-- A write from user memory reports what it does just if it is not torn. -/
theorem reported_iff {off n : Nat} (hop : s.op = some l) (hv : (s.eff sb q).Intact sb)
    (hd : (s.itable q).copy.type ≠ .free) (hn : n < 2 ^ 32)
    (hroom : Allowed (s.itable q).copy off n → LogRoom sb q off n s l) :
    Reported sb q src off n s ↔ Untorn sb q src off n s := by
  have hopen := @writei_open sb s q l src off n hop hv hd hn hroom
  obtain ⟨r, t, hrun, hpost⟩ := exists_of_wp hopen fun _ he => he
  have hreported : Reported sb q src off n s ↔
      (r = -1 ∧ t = s ∨ ∃ tot : Nat, r = tot ∧ tot ≤ n ∧ Exact sb q src off tot s t) := by
    constructor
    · rintro ⟨r', t', hrun', h⟩
      rw [hrun] at hrun'
      cases hrun'
      exact h
    · intro h
      exact ⟨r, t, hrun, h⟩
  rw [hreported]
  rcases hpost with ⟨hno, hr, ht⟩ | ⟨hok, tot, l', u₀, u, rfl, hw, hstopped, hop', rfl⟩
  · exact iff_of_true (.inl ⟨hr, ht⟩) fun hok => absurd hok hno
  have hret : (((tot : Int) = -1 ∧ u.sized sb q l' (off + tot) = s) ∨ ∃ tot' : Nat,
      (tot : Int) = tot' ∧ tot' ≤ n ∧ Exact sb q src off tot' s (u.sized sb q l' (off + tot))) ↔
      Exact sb q src off tot s (u.sized sb q l' (off + tot)) := by
    constructor
    · rintro (⟨hneg, -⟩ | ⟨tot', heq, -, h⟩)
      · omega
      · obtain rfl := Int.ofNat_inj.1 heq
        exact h
    · exact fun h => .inr ⟨tot, rfl, hstopped.le, h⟩
  rw [hret]
  have hexact := hw.exact hv hd hok.1 l'
  cases hstopped with
  | all hall =>
    refine iff_of_true hexact fun _ p hp hnone => ?_
    have := hw.read.le_of_none hnone
    omega
  | full hlt hfull hno =>
    refine iff_of_true hexact fun _ p hp hnone _ henough => absurd ?_ hno
    have hle := hw.read.le_of_none hnone
    exact (lacking_mono (Nat.div_le_div_right (by omega))).trans henough
  | torn k hlt hnone hread hk hne henough =>
    rw [untorn_iff hok hw.aligned hlt hnone hread hk henough]
    constructor
    · -- The bytes that were stored are those that the inode now has.
      intro h j hge hj
      obtain ⟨c, hc⟩ := Option.isSome_iff_exists.1 (hread j hj)
      have hnew := (hw.torn (l := l') hd hok.1 hk hne).new (off + j) (by omega) (by omega)
      have hdiv := (same_block (off + tot) (j := j - tot) (by omega)).1
      rw [Nat.add_assoc, Nat.add_sub_cancel' hge] at hdiv
      have hcell := h.cells (off + j) (.inr (by omega))
      rw [Volume.cell, if_neg, hnew, Nat.add_sub_cancel_left, hc] at hcell
      · rw [hc, ← hcell]
        rfl
      · rw [blockAt, hw.held_torn hd hok.1]
        rw [← blockAt, blockAt_sized, blockAt, hdiv]
        exact hne
    · intro h
      rwa [hw.torn_eq hk hne h]

theorem reported_iff_stored : ∃ s, run (step Mkfs.sb) (boot Mkfs.blank.mount) fileCalls = some s ∧
      Reported Mkfs.sb 1 (fun j => if j = 0 then some 7 else none) 0 2
        { s with op := some ∅ } := by
  obtain ⟨s, hs, hfile⟩ := exists_oneFile
  refine ⟨s, hs, ?_⟩
  generalize ({ s with op := some ∅ } : St) = s' at hfile
  refine (reported_iff hfile.op (by rw [hfile.eff]; exact hfile.intact) hfile.type_ne (by decide)
    fun _ => OneFile.room (by decide)).2 ?_
  intro _ p hp hnone _ _ j hj _
  have hp1 : p = 1 := by
    by_contra hne
    have hp0 : p = 0 := by omega
    rw [hp0] at hnone
    cases hnone
  have hj0 : j = 0 := by omega
  subst hj0
  have hdip : (s'.eff Mkfs.sb 1).dip Mkfs.sb (s'.itable 1).inum = (s'.itable 1).copy :=
    s'.dip_eff 1
  rw [hfile.eff, hfile.inum] at hdip
  have hzero : (0 : Nat) < (s'.vol.dip Mkfs.sb 2).size := by
    rw [hdip, hfile.size]
    decide
  have hbyte : (s'.vol.contents Mkfs.sb 2)[0]? = _ := getElem?_contents 0
  rw [hfile.contents, if_pos hzero] at hbyte
  have htype : (s'.vol.dip Mkfs.sb 2).type ≠ .free := by
    rw [hdip]
    exact hfile.type_ne
  rw [hfile.eff, hfile.inum, Nat.zero_add, cell, if_neg (hfile.intact.blockAt_ne htype hzero)]
  exact hbyte

set_option maxRecDepth 100000 in
/-- One byte of the source can be read.  The write reports nothing, but the byte has changed. -/
theorem torn_write : ∃ s t u, run (step Mkfs.sb) (boot Mkfs.blank.mount) fileCalls = some s ∧
      writei Mkfs.sb 1 (fun j => if j = 0 then some 9 else none) 0 2 { s with op := some ∅ } =
        .ok 0 t ∧
      readi Mkfs.sb 1 (fun _ => true) 0 5 { s with op := some ∅ } =
        .ok (5, [7, 7, 7, 7, 7]) { s with op := some ∅ } ∧
      readi Mkfs.sb 1 (fun _ => true) 0 5 t = .ok (5, [9, 7, 7, 7, 7]) u ∧
      ¬ Reported Mkfs.sb 1 (fun j => if j = 0 then some 9 else none) 0 2
        { s with op := some ∅ } := by
  obtain ⟨s, hs, hfile⟩ := exists_oneFile
  have heval : ((run (step Mkfs.sb) (boot Mkfs.blank.mount) fileCalls).map fun s =>
      let w := writei Mkfs.sb 1 (fun j => if j = 0 then some 9 else none) 0 2
        { s with op := some ∅ }
      (w.value?, w.state?.map fun t => (readi Mkfs.sb 1 (fun _ => true) 0 5 t).value?)) =
        some (some 0, some (some (5, [9, 7, 7, 7, 7]))) := by
    decide +kernel
  rw [hs, Option.map_some] at heval
  refine ⟨s, ?_⟩
  generalize ({ s with op := some ∅ } : St) = s' at hfile heval ⊢
  have hold := @readi_intact Mkfs.sb s' 1 (by rw [hfile.eff]; exact hfile.intact) hfile.type_ne
    (fun _ => true) 0 5 (fun _ _ => rfl) (Nat.zero_le _) (by decide)
  rw [hfile.eff, hfile.inum, hfile.size, hfile.contents] at hold
  cases hwrite : writei Mkfs.sb 1 (fun j => if j = 0 then some 9 else none) 0 2 s' with
  | error e =>
    rw [hwrite] at heval
    cases heval
  | ok r t =>
    rw [hwrite] at heval
    obtain ⟨hr, hb⟩ := Prod.mk.inj (Option.some.inj heval)
    obtain rfl := Option.some.inj hr
    have hvalue : (readi Mkfs.sb 1 (fun _ => true) 0 5 t).value? = some (5, [9, 7, 7, 7, 7]) :=
      Option.some.inj hb
    cases hread : readi Mkfs.sb 1 (fun _ => true) 0 5 t with
    | error e =>
      rw [hread] at hvalue
      cases hvalue
    | ok b u =>
      rw [hread] at hvalue
      obtain rfl := Option.some.inj hvalue
      refine ⟨t, u, hs, rfl, hold, hread, ?_⟩
      rintro ⟨r', t', hwrite', hreported⟩
      rw [hwrite] at hwrite'
      cases hwrite'
      rcases hreported with ⟨hneg, -⟩ | ⟨tot, htot, -, hexact⟩
      · cases hneg
      · obtain rfl : tot = 0 := by omega
        have hsize := hexact.size
        rw [hfile.size] at hsize
        have hback := hexact.reads 0 5 (Nat.zero_le _) (by decide)
        rw [hread, hfile.eff, hfile.inum, hfile.contents, hsize] at hback
        have hbytes := (Prod.mk.inj (Outcome.ok.inj hback).1).2
        exact absurd hbytes (by decide)

end Xv6.Fs
