import Xv6.Fs.Contents
import Xv6.Mkfs.Main

/-!
# Append — the image as a volume, and what `iappend` does to it

While `mkfs` works, the blocks below `freeblock` are the ones in use, so the image is a volume whose
bitmap is that number.  `iappend` on this volume is a write at the end of an inode, and the lemmas
for `writei` apply to it.
-/

namespace Xv6.Mkfs

open Lib Prog Fs Volume
open Function (update update_apply update_eq_self update_of_ne update_self)

variable {im im' : Image} {din din' : Block} {inum k : Nat}

/-! ## The image as a volume -/

/-- The types of `kernel/stat.h` by number. -/
def fileType : Nat → FileType
  | 0 => .free
  | 1 => .dir
  | 2 => .file
  | _ => .device

/-- The `ushort` at byte `x`. -/
def ushort (a : Block) (x : Nat) : Nat :=
  (a x).toNat + 2 ^ 8 * (a (x + 1)).toNat

/-- A `struct dinode` from its bytes. -/
def dinodeOf (din : Block) : Dinode where
  type := fileType (ushort din 0)
  major := short (ushort din 2)
  minor := short (ushort din 4)
  nlink := short (ushort din 6)
  size := size din
  addrs k := if k ≤ NDIRECT then addr din k else 0

/-- The inode in place `k` of block `b`, if `b` is an inode block. -/
def inodeAt (disk : Nat → Block) (b k : Nat) : Dinode :=
  if sb.inodestart ≤ b ∧ b < sb.bmapstart then dinodeOf (slice (disk b) k) else .zero

/-- Data block `b`. -/
def dataAt (disk : Nat → Block) (b : Nat) : Block :=
  if nmeta ≤ b then disk b else .zero

/-- The volume that the kernel finds in an image. -/
def volOf (disk : Nat → Block) : Volume where
  dinode := inodeAt disk
  bitmap b k := (disk b (k / 8)).toNat.testBit (k % 8)
  data := dataAt disk
  disk := dataAt disk

/-- The volume while `mkfs` works. -/
def Image.vol (im : Image) : Volume :=
  { volOf im.disk with bitmap := fun b k => decide (b = sb.bmapstart ∧ k < im.freeblock) }

theorem nmeta_eq : nmeta = 46 := rfl

theorem dinodeOf_congr {a b : Block} (h : ∀ x, x < 64 → a x = b x) : dinodeOf a = dinodeOf b := by
  have huint : ∀ j, j < 16 → a.uint j = b.uint j := by
    intro j hj
    simp only [Block.uint]
    rw [h _ (by omega), h _ (by omega), h _ (by omega), h _ (by omega)]
  have hshort : ∀ x, x < 8 → ushort a x = ushort b x := by
    intro x hx
    simp only [ushort]
    rw [h _ (by omega), h _ (by omega)]
  unfold dinodeOf size addr
  rw [hshort 0 (by decide), hshort 2 (by decide), hshort 4 (by decide), hshort 6 (by decide),
    huint 2 (by decide)]
  congr 1
  funext j
  split
  · rename_i hj
    exact huint _ (by simp only [NDIRECT] at hj; omega)
  · rfl

theorem slice_splice (buf : Block) (l : Nat) {x : Nat} (hx : x < 64) :
    slice (splice buf k din) l x = if l = k then din x else slice buf l x := by
  have hdiv : (64 * l + x) / 64 = l := by omega
  have hmod : (64 * l + x) % 64 = x := by omega
  unfold slice splice
  rw [hdiv, hmod]

theorem inode_block (h : inum < 208) :
    sb.inodestart ≤ IBLOCK sb inum ∧ IBLOCK sb inum < sb.bmapstart := by
  simp only [IBLOCK, sb, IPB, BSIZE, nlog, ninodeblocks, NINODES, LOGSIZE, MAXOPBLOCKS]
  omega

theorem vol_winode (h : inum < 208) (im : Image) (din : Block) : Image.vol { im with
      disk := update im.disk (IBLOCK sb inum)
        (splice (im.disk (IBLOCK sb inum)) (inum % IPB) din) } =
      im.vol.setDip sb inum (dinodeOf din) := by
  rcases inode_block h with ⟨hlo, hhi⟩
  have hmeta : sb.bmapstart < nmeta := by decide
  have hdata : dataAt (update im.disk (IBLOCK sb inum)
      (splice (im.disk (IBLOCK sb inum)) (inum % IPB) din)) = dataAt im.disk := by
    funext b
    unfold dataAt
    split
    · rw [update_of_ne (by omega)]
    · rfl
  have hinode : inodeAt (update im.disk (IBLOCK sb inum)
      (splice (im.disk (IBLOCK sb inum)) (inum % IPB) din)) =
      update (inodeAt im.disk) (IBLOCK sb inum)
        (update (inodeAt im.disk (IBLOCK sb inum)) (inum % IPB) (dinodeOf din)) := by
    funext b l
    by_cases hb : b = IBLOCK sb inum
    · subst hb
      simp only [inodeAt, update_self, if_pos (And.intro hlo hhi)]
      by_cases hl : l = inum % IPB
      · subst hl
        rw [update_self]
        refine dinodeOf_congr fun x hx => ?_
        rw [slice_splice _ _ hx, if_pos rfl]
      · rw [update_of_ne hl, inodeAt, if_pos ⟨hlo, hhi⟩]
        refine dinodeOf_congr fun x hx => ?_
        rw [slice_splice _ _ hx, if_neg hl]
    · simp only [inodeAt, update_of_ne hb]
  simp only [Image.vol, volOf, setDip, hdata, hinode]

theorem vol_wsect {x : Nat} (hx : nmeta ≤ x) (im : Image) (a : Block) :
    Image.vol { im with disk := update im.disk x a } = (im.vol.setData x a).logged x := by
  have hdata : dataAt (update im.disk x a) = update (dataAt im.disk) x a := by
    funext b
    by_cases hb : b = x
    · subst hb
      rw [update_self, dataAt, if_pos hx, update_self]
    · rw [update_of_ne hb, dataAt, dataAt, update_of_ne hb]
  have hinode : inodeAt (update im.disk x a) = inodeAt im.disk := by
    funext b l
    have hmeta : sb.bmapstart < nmeta := by decide
    unfold inodeAt
    split
    · rw [update_of_ne (by omega)]
    · rfl
  simp only [Image.vol, volOf, setData, logged, hdata, hinode, update_self]

theorem dinodeOf_slice (h : inum < 208) (im : Image) :
    dinodeOf (slice (im.disk (IBLOCK sb inum)) (inum % IPB)) = im.vol.dip sb inum := by
  have hblock : sb.inodestart ≤ IBLOCK sb inum ∧ IBLOCK sb inum < sb.bmapstart := inode_block h
  simp only [Image.vol, volOf, dip, inodeAt, if_pos hblock]

theorem bit_vol (h : im.freeblock ≤ BPB) : im.vol.bit sb = fun b => decide (b < im.freeblock) := by
  funext b
  simp only [BPB, BSIZE] at h
  have hbit : (b / 8192 + sb.bmapstart = sb.bmapstart ∧ b % 8192 < im.freeblock) ↔
      b < im.freeblock := by omega
  simp only [bit, Image.vol, BBLOCK, BPB, BSIZE, Nat.reduceMul, hbit]

/-! ### Fields of an inode's bytes -/

theorem uint_lt (a : Block) (j : Nat) : a.uint j < 2 ^ 32 := by
  unfold Block.uint
  have h₀ := (a (4 * j)).toNat_lt
  have h₁ := (a (4 * j + 1)).toNat_lt
  have h₂ := (a (4 * j + 2)).toNat_lt
  have h₃ := (a (4 * j + 3)).toNat_lt
  omega

theorem ushort_setUint {j x v : Nat} (hj : 2 ≤ j) (hx : x < 7) (a : Block) :
    ushort (a.setUint j v) x = ushort a x := by
  simp only [ushort, Block.setUint]
  rw [if_neg (by omega), if_neg (by omega)]

theorem dinodeOf_setSize {n : Nat} (hn : n < 2 ^ 32) (din : Block) :
    dinodeOf (setSize din n) = { dinodeOf din with size := n } := by
  unfold dinodeOf
  simp only [setSize, size, addr, Block.uint_setUint _ hn,
    ushort_setUint (Nat.le_refl 2) (by decide : 0 < 7),
    ushort_setUint (Nat.le_refl 2) (by decide : 2 < 7),
    ushort_setUint (Nat.le_refl 2) (by decide : 4 < 7),
    ushort_setUint (Nat.le_refl 2) (by decide : 6 < 7), if_true]
  congr 1
  funext j
  have hne : 3 + j ≠ 2 := by omega
  simp only [if_neg hne]

theorem dinodeOf_setAddr {b : Nat} (hk : k ≤ NDIRECT) (hb : b < 2 ^ 32) (din : Block) :
    dinodeOf (setAddr din k b) =
      { dinodeOf din with addrs := update (dinodeOf din).addrs k b } := by
  have hj : 2 ≤ 3 + k := by omega
  unfold dinodeOf
  simp only [setAddr, size, addr, Block.uint_setUint _ hb,
    ushort_setUint hj (by decide : 0 < 7), ushort_setUint hj (by decide : 2 < 7),
    ushort_setUint hj (by decide : 4 < 7), ushort_setUint hj (by decide : 6 < 7)]
  rw [if_neg (by omega)]
  congr 1
  funext j
  by_cases hjk : j = k
  · subst hjk
    rw [update_self, if_pos hk, if_pos rfl]
  · have hne : 3 + j ≠ 3 + k := by omega
    simp only [update_of_ne hjk, if_neg hne]

theorem addrs_dinodeOf (hk : k ≤ NDIRECT) : (dinodeOf din).addrs k = addr din k :=
  if_pos hk

/-! ## The inode in hand -/

/-- The volume with `din` written back. -/
def eff (im : Image) (inum : Nat) (din : Block) : Volume :=
  im.vol.setDip sb inum (dinodeOf din)

theorem dip_eff (im : Image) (inum : Nat) (din : Block) :
    (eff im inum din).dip sb inum = dinodeOf din := by
  simp [eff, dip_setDip]

theorem held_eff (hk : k ≤ NDIRECT) : (eff im inum din).held sb (inum, k) = addr din k := by
  rw [held_addr _ _ hk, dip_eff, addrs_dinodeOf hk]

/-- The blocks are in order, and those that are not in use have only zeros. -/
structure Hand (im : Image) (v : Volume) : Prop where
  intact : v.Intact sb
  low : nmeta ≤ im.freeblock
  high : im.freeblock ≤ FSSIZE
  fresh : ∀ b, im.freeblock ≤ b → im.disk b = .zero

/-- The inode in hand may have taken a block for slot `k`, which has only zeros, and one for the
slot of the indirect block. -/
structure Step (inum k : Nat) (im im' : Image) (din din' : Block) : Prop where
  hand : Hand im' (eff im' inum din')
  freeinode : im'.freeinode = im.freeinode
  grown : Grown sb inum (eff im inum din) (eff im' inum din')
  only : ∀ l, l ≠ k → l ≠ NDIRECT →
    (eff im' inum din').held sb (inum, l) = (eff im inum din).held sb (inum, l)
  zero : (eff im inum din).held sb (inum, k) = 0 →
    (eff im' inum din').data ((eff im' inum din').held sb (inum, k)) = .zero

namespace Step

theorem refl (h : Hand im (eff im inum din))
    (hne : (eff im inum din).held sb (inum, k) ≠ 0) : Step inum k im im din din :=
  ⟨h, rfl, .refl _, fun _ _ _ => rfl, fun hzero => absurd hzero hne⟩

theorem type_eq (h : Step inum k im im' din din') : (dinodeOf din').type = (dinodeOf din).type := by
  rcases h.grown.same with ⟨addrs, hsame⟩
  rw [dip_eff, dip_eff] at hsame
  rw [hsame]

theorem trans {im'' : Image} {din'' : Block} (h : Step inum NDIRECT im im' din din')
    (h' : Step inum k im' im'' din' din'') (hk : k ≠ NDIRECT) :
    Step inum k im im'' din din'' := by
  refine ⟨h'.hand, h'.freeinode.trans h.freeinode, h.grown.trans h'.grown, ?_, ?_⟩
  · intro l hl hl'
    rw [h'.only l hl hl', h.only l hl' hl']
  · intro hzero
    exact h'.zero (by rw [h.only k hk hk, hzero])

end Step

/-- The next block is free and has only zeros. -/
theorem alloc_takeBlock {v : Volume} (h : Hand im v) (hlt : im.freeblock < FSSIZE) :
    Alloc sb im.freeblock im.vol (Image.vol { im with freeblock := im.freeblock + 1 }) := by
  have hfs : FSSIZE < BPB := by decide
  have hbit : im.vol.bit sb = fun b => decide (b < im.freeblock) := bit_vol (by omega)
  have hbit' : (Image.vol { im with freeblock := im.freeblock + 1 }).bit sb =
      fun b => decide (b < im.freeblock + 1) := bit_vol (by simp only; omega)
  refine ⟨hlt, ?_, ?_, rfl, ?_, fun _ _ => rfl⟩
  · rw [hbit]
    simp
  · rw [hbit, hbit']
    funext b
    rw [update_apply]
    by_cases hb : b = im.freeblock
    · simp [hb]
    · have hiff : b < im.freeblock + 1 ↔ b < im.freeblock := by omega
      simp only [hiff, if_neg hb]
  · -- Its data are zeros already.
    have hzero : dataAt im.disk im.freeblock = .zero := by
      rw [dataAt, if_pos h.low, h.fresh _ le_rfl]
    change dataAt im.disk = update (dataAt im.disk) im.freeblock .zero
    rw [← hzero, update_eq_self]

theorem Hand.take {v w : Volume} (h : Hand im v) (hlt : im.freeblock < FSSIZE)
    (hw : w.Intact sb) : Hand { im with freeblock := im.freeblock + 1 } w :=
  ⟨hw, Nat.le_succ_of_le h.low, hlt, fun b hb => h.fresh b (Nat.le_of_succ_le hb)⟩

/-- The slot is filled, if there is a block left: a read of a block beyond the end fails later. -/
theorem fillAddr_spec (h : Hand im (eff im inum din)) (hd : (dinodeOf din).type ≠ .free)
    (hk : k ≤ NDIRECT) :
    wp (fillAddr din k) (fun _ => True) (fun din' im' =>
      addr din' k < FSSIZE → Step inum k im im' din din' ∧ addr din' k ≠ 0) im := by
  unfold fillAddr
  split
  · rename_i hzero
    rw [wp_bind, takeBlock, wp_bind, wp_gets, wp_bind, wp_modify, wp_pure, wp_pure]
    have hlow := h.low
    have hhigh := h.high
    have hfs : FSSIZE < 2 ^ 32 := by decide
    have haddr : addr (setAddr din k im.freeblock) k = im.freeblock := by
      rw [addr, setAddr, Block.uint_setUint _ (by omega), if_pos rfl]
    rw [haddr]
    intro hlt
    have hnew : dinodeOf (setAddr din k im.freeblock) = { dinodeOf din with
        addrs := update (dinodeOf din).addrs k im.freeblock } :=
      dinodeOf_setAddr hk (by omega) din
    have hgain := (alloc_takeBlock h hlt).addr h.intact hd hk (by rw [addrs_dinodeOf hk, hzero])
    rw [← hnew] at hgain
    refine ⟨⟨h.take hlt (hgain.intact h.intact), rfl, hgain.grown h.intact, ?_, fun _ => ?_⟩, ?_⟩
    · intro l hl _
      exact (congrFun hgain.held _).trans (update_of_ne (by simp [hl]) _ _)
    · rw [held_eff hk, haddr]
      change dataAt im.disk im.freeblock = .zero
      rw [dataAt, if_pos hlow, h.fresh _ le_rfl]
    · simp only [nmeta_eq] at hlow
      omega
  · rename_i hne
    exact fun _ => ⟨.refl h (by rwa [held_eff hk]), hne⟩

theorem entry_spec {j : Nat} (h : Hand im (eff im inum din)) (hd : (dinodeOf din).type ≠ .free)
    (hind : addr din NDIRECT ≠ 0) (hj : j < NINDIRECT)
    (hzero : (im.disk (addr din NDIRECT)).uint j = 0) (hlt : im.freeblock < FSSIZE) :
    Step inum (NDIRECT + 1 + j) im { im with
        disk := update im.disk (addr din NDIRECT)
          ((im.disk (addr din NDIRECT)).setUint j im.freeblock)
        freeblock := im.freeblock + 1 } din din ∧
      (eff { im with
        disk := update im.disk (addr din NDIRECT)
          ((im.disk (addr din NDIRECT)).setUint j im.freeblock)
        freeblock := im.freeblock + 1 } inum din).held sb (inum, NDIRECT + 1 + j) =
        im.freeblock := by
  have hheld : (eff im inum din).held sb (inum, NDIRECT) = addr din NDIRECT :=
    held_eff le_rfl
  have hrange := h.intact.holding.range (inum, NDIRECT) (by rwa [hheld])
  have hused := h.intact.holding.used_of_held (k := (inum, NDIRECT)) (by rwa [hheld])
  rw [hheld] at hrange hused
  have hmeta : nmeta ≤ addr din NDIRECT := hrange.1
  have hfs : FSSIZE < BPB := by decide
  have hhigh := h.high
  have hlow := h.low
  have hlt' : addr din NDIRECT < im.freeblock := by
    have hbit : im.vol.bit sb (addr din NDIRECT) = true := hused
    rw [bit_vol (by omega)] at hbit
    simpa using hbit
  have hdata : im.vol.data (addr din NDIRECT) = im.disk (addr din NDIRECT) := if_pos hmeta
  have haddrs : (dinodeOf din).addrs NDIRECT = addr din NDIRECT := addrs_dinodeOf le_rfl
  have hgain := (alloc_takeBlock h hlt).entry (j := j) h.intact hd (by rwa [haddrs]) hj
    (by rw [haddrs, hdata, hzero])
  rw [haddrs] at hgain
  have hvol := vol_wsect hmeta { im with freeblock := im.freeblock + 1 }
    ((im.disk (addr din NDIRECT)).setUint j im.freeblock)
  have hdata' : (Image.vol { im with freeblock := im.freeblock + 1 }).data (addr din NDIRECT) =
      im.disk (addr din NDIRECT) := hdata
  rw [hdata', ← hvol] at hgain
  refine ⟨⟨⟨hgain.intact h.intact, Nat.le_succ_of_le hlow, hlt, ?_⟩, rfl, hgain.grown h.intact,
    ?_, fun _ => ?_⟩, ?_⟩
  · intro b hb
    have hb' : im.freeblock + 1 ≤ b := hb
    simp only
    rw [update_of_ne (by omega), h.fresh b (by omega)]
  · intro l hl _
    exact (congrFun hgain.held _).trans (update_of_ne (by simp [hl]) _ _)
  · have hnew : (eff { im with
        disk := update im.disk (addr din NDIRECT)
          ((im.disk (addr din NDIRECT)).setUint j im.freeblock)
        freeblock := im.freeblock + 1 } inum din).held sb (inum, NDIRECT + 1 + j) =
        im.freeblock :=
      (congrFun hgain.held _).trans (update_self _ _ _)
    rw [hnew]
    change dataAt (update im.disk _ _) im.freeblock = .zero
    rw [dataAt, if_pos hlow, update_of_ne (by omega), h.fresh _ le_rfl]
  · exact (congrFun hgain.held _).trans (update_self _ _ _)

theorem rsect_spec {sec : Nat} :
    wp (rsect sec) (fun _ => True) (fun buf im' => im' = im ∧ buf = im.disk sec ∧ sec < FSSIZE)
      im := by
  unfold rsect
  rw [wp_bind, wp_gets]
  split
  · rename_i hlt
    exact ⟨rfl, rfl, hlt⟩
  · trivial

theorem blockOf_spec {fbn : Nat} (h : Hand im (eff im inum din))
    (hd : (dinodeOf din).type ≠ .free) (hfbn : fbn < MAXFILE) :
    wp (blockOf din fbn) (fun _ => True) (fun r im' => r.2 < FSSIZE →
      Step inum (slotOf fbn) im im' din r.1 ∧ r.2 ≠ 0 ∧
        (eff im' inum r.1).held sb (inum, slotOf fbn) = r.2) im := by
  unfold blockOf
  split
  · rename_i hlt
    refine wp_seq (fillAddr_spec h hd (Nat.le_of_lt hlt)) ?_
    intro din' im' hfill
    rw [wp_pure]
    intro hx
    rcases hfill hx with ⟨hstep, hne⟩
    have hslot : slotOf fbn = fbn := if_pos hlt
    rw [hslot]
    exact ⟨hstep, hne, held_eff (Nat.le_of_lt hlt)⟩
  · rename_i hge
    have hslot : slotOf fbn = NDIRECT + 1 + (fbn - NDIRECT) := by
      rw [slotOf, if_neg hge]
      omega
    have hj : fbn - NDIRECT < NINDIRECT := by
      simp only [MAXFILE] at hfbn
      omega
    refine wp_seq (fillAddr_spec h hd le_rfl) ?_
    intro din' im' hfill
    refine wp_seq rsect_spec ?_
    rintro _ im'' ⟨rfl, rfl, hind⟩
    rcases hfill hind with ⟨hstep, hne⟩
    have hd' : (dinodeOf din').type ≠ .free := by rwa [hstep.type_eq]
    have hk : slotOf fbn ≠ NDIRECT := slotOf_ne fbn
    split
    · rename_i hzero
      rw [wp_bind, takeBlock, wp_bind, wp_gets, wp_bind, wp_modify, wp_pure, wp_bind, wsect,
        wp_modify, wp_pure]
      intro hlt
      rcases entry_spec hstep.hand hd' hne hj hzero hlt with ⟨hentry, hheld⟩
      rw [hslot] at hk ⊢
      refine ⟨hstep.trans hentry hk, ?_, hheld⟩
      have hlow := hstep.hand.low
      simp only [nmeta_eq] at hlow
      omega
    · rename_i hused
      rw [wp_pure]
      intro _
      have hheld : (eff im'' inum din').held sb (inum, slotOf fbn) =
          (im''.disk (addr din' NDIRECT)).uint (fbn - NDIRECT) := by
        have hmeta := (hstep.hand.intact.holding.range (inum, NDIRECT)
          (by rwa [held_eff le_rfl])).1
        rw [held_eff le_rfl] at hmeta
        have hdata : im''.vol.data (addr din' NDIRECT) = im''.disk (addr din' NDIRECT) :=
          if_pos hmeta
        rw [hslot, eff, held_setDip_self, Dinode.slot_of_lt (by omega)
          (by simp only [NSLOT]; omega) (by rwa [addrs_dinodeOf le_rfl]),
          addrs_dinodeOf le_rfl, hdata]
        congr 1
        omega
      exact ⟨hstep.trans (.refl hstep.hand (by rwa [hheld])) hk, hused, hheld⟩

/-! ## The loop -/

/-- In the loop of `iappend`: the first `pos` bytes of `p` have been written from `off` on.  The
blocks of the file end where they end, and the rest of the last block has zeros. -/
structure Loop (inum : Nat) (p : List UInt8) (off pos : Nat) (im₀ im : Image) (din : Block) :
    Prop where
  hand : Hand im (eff im inum din)
  freeinode : im.freeinode = im₀.freeinode
  written : Written sb inum (fun j => p[j]?) off pos im₀.vol (eff im inum din)
  type : (dinodeOf din).type ≠ .free
  tight : ∀ bn, off + pos ≤ bn * BSIZE → (eff im inum din).held sb (inum, slotOf bn) = 0
  tail : ∀ x, off + pos ≤ x → (eff im inum din).blockAt sb inum x ≠ 0 →
    (eff im inum din).byteAt sb inum x = 0

/-- One round of the loop, once it has the block. -/
theorem Loop.store {p : List UInt8} {off pos n : Nat} {im₀ : Image}
    (h : Loop inum p off pos im₀ im din)
    (hstep : Step inum (slotOf ((off + pos) / BSIZE)) im im' din din')
    (hheld : (eff im' inum din').held sb (inum, slotOf ((off + pos) / BSIZE)) ≠ 0)
    (hn : 0 < n) (hn' : n ≤ BSIZE - (off + pos) % BSIZE) :
    Loop inum p off (pos + n) im₀ { im' with
        disk := update im'.disk ((eff im' inum din').held sb (inum, slotOf ((off + pos) / BSIZE)))
          (copyin (fun j => p[j]?) pos n ((off + pos) % BSIZE) (im'.disk
            ((eff im' inum din').held sb (inum, slotOf ((off + pos) / BSIZE))))) } din' := by
  have hintact := hstep.hand.intact
  generalize hx : (eff im' inum din').held sb (inum, slotOf ((off + pos) / BSIZE)) = x at hheld ⊢
  generalize ha : copyin (fun j => p[j]?) pos n ((off + pos) % BSIZE) (im'.disk x) = a
  have hmeta : nmeta ≤ x := by
    rw [← hx] at hheld ⊢
    exact (hintact.holding.range _ hheld).1
  have hdata : (eff im' inum din').data x = im'.disk x := if_pos hmeta
  -- Storing a block is a change of one slot's data.
  have heff : eff { im' with disk := update im'.disk x a } inum din' =
      ((eff im' inum din').setData x a).logged x := by
    unfold eff
    rw [vol_wsect hmeta]
    rfl
  have hp : Poked sb inum (slotOf ((off + pos) / BSIZE)) (eff im' inum din')
      (eff { im' with disk := update im'.disk x a } inum din') := by
    rw [heff, ← hx]
    exact poked_logged (slotOf_ne _) a
  have hheld' := hp.held hintact
  have hw := (h.written.grow hstep.grown).store (k := n) hintact
    (by rw [blockAt, hx]; exact hheld) hn' hp.dip hp.data
    (by rw [heff, blockAt, hx, hdata, ← ha]; exact update_self _ _ _)
  have hlt : x < im'.freeblock := by
    have hused := hintact.holding.used_of_held (k := (inum, slotOf ((off + pos) / BSIZE)))
      (by rwa [hx])
    have hbit : im'.vol.bit sb x = true := by rw [← hx]; exact hused
    have hhigh := hstep.hand.high
    have hfs : FSSIZE < BPB := by decide
    rw [bit_vol (by omega)] at hbit
    simpa using hbit
  refine ⟨⟨hp.intact hintact, hstep.hand.low, hstep.hand.high, ?_⟩,
    hstep.freeinode.trans h.freeinode, hw, by rw [hstep.type_eq]; exact h.type, ?_, ?_⟩
  · intro b hb
    have hb' : im'.freeblock ≤ b := hb
    exact (update_of_ne (by omega) _ _).trans (hstep.hand.fresh b hb')
  · intro bn hbn
    have hne : slotOf bn ≠ slotOf ((off + pos) / BSIZE) := by
      intro heq
      have hbn' := slotOf_inj heq
      rw [hbn'] at hbn
      have hle := Nat.div_mul_le_self (off + pos) BSIZE
      omega
    rw [hheld', hstep.only _ hne (slotOf_ne bn), h.tight bn (by omega)]
  · -- What follows in the same block is as it was, and was zero.
    intro y hy hmapped
    rw [blockAt, hheld'] at hmapped
    have hblock : y / BSIZE = (off + pos) / BSIZE := by
      by_contra hne
      have hslot : slotOf (y / BSIZE) ≠ slotOf ((off + pos) / BSIZE) :=
        fun heq => hne (slotOf_inj heq)
      rw [hstep.only _ hslot (slotOf_ne _)] at hmapped
      refine hmapped (h.tight _ ?_)
      simp only [BSIZE] at hne hy ⊢
      omega
    have hbyte : (eff { im' with disk := update im'.disk x a } inum din').byteAt sb inum y =
        im'.disk x (y % BSIZE) := by
      rw [byteAt, blockAt, hheld', hblock, hx, heff]
      change update (eff im' inum din').data x a x (y % BSIZE) = _
      rw [update_self, ← ha, copyin, if_neg]
      simp only [BSIZE] at hblock hy hn' ⊢
      omega
    rw [hbyte, ← hdata, ← hx]
    by_cases hzero : (eff im inum din).held sb (inum, slotOf ((off + pos) / BSIZE)) = 0
    · rw [hstep.zero hzero]
      rfl
    · rw [hstep.grown.held _ hzero, hstep.grown.data _ hzero (by simp [slotOf_ne])]
      have hold := h.tail y (by omega) (by rw [blockAt, hblock]; exact hzero)
      rwa [byteAt, blockAt, hblock] at hold

theorem iappendLoop_spec {p : List UInt8} {off pos fuel : Nat} {im₀ : Image}
    (h : Loop inum p off pos im₀ im din) (hpos : pos ≤ p.length) (hfuel : p.length - pos ≤ fuel) :
    wp (iappendLoop p fuel din (off + pos) pos) (fun _ => True) (fun r im' =>
      Loop inum p off p.length im₀ im' r.1 ∧ r.2 = off + p.length) im := by
  induction fuel generalizing pos im din with
  | zero =>
    have hend : pos = p.length := by omega
    subst hend
    exact ⟨h, rfl⟩
  | succ fuel ih =>
    rw [iappendLoop]
    split
    · rename_i hlt
      split
      · rename_i hfbn
        refine wp_seq (blockOf_spec h.hand h.type hfbn) ?_
        intro r im' hblock
        refine wp_seq rsect_spec ?_
        rintro _ im'' ⟨rfl, rfl, hx⟩
        rcases hblock hx with ⟨hstep, hne, hheld⟩
        have hoff : off + pos - (off + pos) / BSIZE * BSIZE = (off + pos) % BSIZE := by
          simp only [BSIZE]
          omega
        have hroom : ((off + pos) / BSIZE + 1) * BSIZE - (off + pos) =
            BSIZE - (off + pos) % BSIZE := by
          simp only [BSIZE]
          omega
        rw [hoff, hroom, wp_bind, wsect, wp_modify]
        have hle : min (p.length - pos) (BSIZE - (off + pos) % BSIZE) ≤ p.length - pos :=
          Nat.min_le_left ..
        have hle' := Nat.min_le_right (p.length - pos) (BSIZE - (off + pos) % BSIZE)
        have hn : 0 < min (p.length - pos) (BSIZE - (off + pos) % BSIZE) := by
          simp only [BSIZE]
          omega
        generalize min (p.length - pos) (BSIZE - (off + pos) % BSIZE) = n at hle hle' hn ⊢
        have hnext := h.store hstep (by rwa [hheld]) hn hle'
        rw [hheld] at hnext
        have hrest := ih hnext (by omega) (by omega)
        rw [← Nat.add_assoc] at hrest
        exact hrest
      · trivial
    · have hend : pos = p.length := by omega
      subst hend
      exact ⟨h, rfl⟩

/-! ## Appending to an inode -/

/-- The image between two calls of `iappend` and `ialloc`. -/
structure Sound (im : Image) : Prop extends Hand im im.vol where
  tight : ∀ i bn, (im.vol.dip sb i).size ≤ bn * BSIZE → im.vol.held sb (i, slotOf bn) = 0
  tail : ∀ i x, (im.vol.dip sb i).size ≤ x → im.vol.blockAt sb i x ≠ 0 → im.vol.byteAt sb i x = 0

/-- `p` has been appended to inode `inum`. -/
structure Appended (inum : Nat) (p : List UInt8) (im im' : Image) : Prop where
  sound : Sound im'
  freeinode : im'.freeinode = im.freeinode
  written : Written sb inum (fun j => p[j]?) (im.vol.dip sb inum).size p.length im.vol im'.vol
  size : (im'.vol.dip sb inum).size = (im.vol.dip sb inum).size + p.length

theorem rinode_eq (h : inum < 208) :
    rinode inum im = .ok (slice (im.disk (IBLOCK sb inum)) (inum % IPB)) im := by
  have hlt : IBLOCK sb inum < FSSIZE := Nat.lt_trans (inode_block h).2 (by decide)
  unfold rinode rsect
  simp only [if_pos hlt]
  rfl

/-- The image with `din` as the bytes of inode `inum`. -/
def putInode (im : Image) (inum : Nat) (din : Block) : Image :=
  { im with
    disk := update im.disk (IBLOCK sb inum) (splice (im.disk (IBLOCK sb inum)) (inum % IPB) din) }

theorem winode_eq (h : inum < 208) : winode inum din im = .ok () (putInode im inum din) := by
  have hlt : IBLOCK sb inum < FSSIZE := Nat.lt_trans (inode_block h).2 (by decide)
  unfold winode rsect
  rw [bind_ok (t := im) (a := im.disk (IBLOCK sb inum))]
  · rfl
  · rw [bind_gets, if_pos hlt]
    rfl

/-- The blocks that are not in use are no inode blocks. -/
theorem Hand.putInode {v w : Volume} (h : Hand im v) (hlt : inum < 208) (hw : w.Intact sb) :
    Hand (Mkfs.putInode im inum din) w := by
  refine ⟨hw, h.low, h.high, fun b hb => ?_⟩
  have hlow := h.low
  have hmeta : sb.bmapstart < nmeta := by decide
  have hblock := (inode_block hlt).2
  have hb' : im.freeblock ≤ b := hb
  exact (update_of_ne (by omega) _ _).trans (h.fresh b hb')

theorem iappend_spec {p : List UInt8} (h : Sound im) (hlt : inum < 208)
    (htype : (im.vol.dip sb inum).type ≠ .free) :
    wp (iappend inum p) (fun _ => True) (fun _ im' => Appended inum p im im') im := by
  unfold iappend
  rw [wp_bind, wp_of_eq (rinode_eq hlt)]
  have hslice := dinodeOf_slice hlt im
  generalize slice (im.disk (IBLOCK sb inum)) (inum % IPB) = din at hslice ⊢
  have hsize : size din = (im.vol.dip sb inum).size := by rw [← hslice]; rfl
  have heff : eff im inum din = im.vol := by rw [eff, hslice, setDip_dip]
  have hstart : Loop inum p (size din) 0 im im din := by
    refine ⟨?_, rfl, ?_, ?_, ?_, ?_⟩
    · rw [heff]
      exact h.toHand
    · rw [heff]
      exact .refl _
    · rwa [hslice]
    · rw [heff, hsize]
      exact h.tight inum
    · rw [heff, hsize]
      exact h.tail inum
  refine wp_seq (iappendLoop_spec hstart (Nat.zero_le _) (by omega)) ?_
  rintro ⟨din', off'⟩ im' ⟨hloop, hoff⟩
  simp only at hloop hoff
  subst hoff
  rw [wp_of_eq (winode_eq hlt)]
  -- The new end of the file lies in a block that is there.
  have hn : size din + p.length < 2 ^ 32 := by
    by_cases hp : p.length = 0
    · rw [hp]
      exact uint_lt _ _
    · have hmapped := hloop.written.mapped (size din + p.length - 1) (by omega) (by omega)
      by_contra hge
      refine hmapped (Dinode.slot_of_ge ?_)
      simp only [NSLOT, NDIRECT, NINDIRECT, BSIZE, slotOf]
      split <;> omega
  have hvol : (putInode im' inum (setSize din' (size din + p.length))).vol =
      im'.vol.setDip sb inum { dinodeOf din' with size := size din + p.length } := by
    rw [putInode, vol_winode hlt, dinodeOf_setSize hn]
  have hwritten := hloop.written.resize (n := size din + p.length)
  have hheld := @held_resize sb im'.vol inum (dinodeOf din') (size din + p.length)
  rw [← hvol] at hwritten hheld
  have hself : ((putInode im' inum (setSize din' (size din + p.length))).vol.dip sb inum).size =
      size din + p.length := by
    rw [hvol, dip_setDip, if_pos rfl]
  have hother : ∀ i, i ≠ inum →
      (putInode im' inum (setSize din' (size din + p.length))).vol.dip sb i =
      im.vol.dip sb i := fun i hi => hwritten.dip i hi
  refine ⟨⟨hloop.hand.putInode hlt ?_, ?_, ?_⟩, hloop.freeinode, hsize ▸ hwritten, hsize ▸ hself⟩
  · rw [hvol]
    refine hloop.hand.intact.resize hloop.type fun bn hbn => ?_
    by_cases hlt' : bn * BSIZE < size din
    · have hheld' := h.intact.mapped inum htype bn (hsize ▸ hlt')
      rw [show im'.vol.setDip sb inum (dinodeOf din') = eff im' inum din' from rfl,
        hloop.written.held _ hheld']
      exact hheld'
    · have hbyte := hloop.written.mapped (bn * BSIZE) (by omega) (by omega)
      rwa [blockAt, Nat.mul_div_cancel _ (by decide)] at hbyte
  · intro i bn hbn
    by_cases hi : i = inum
    · subst hi
      rw [hself] at hbn
      rw [hheld]
      exact hloop.tight bn hbn
    · rw [hother i hi] at hbn
      rw [hwritten.other i _ hi, h.tight i bn hbn]
  · intro i x hx hmapped
    by_cases hi : i = inum
    · subst hi
      rw [hself] at hx
      rw [blockAt, hheld] at hmapped
      rw [byteAt, blockAt, hheld, hvol]
      exact hloop.tail x hx hmapped
    · rw [hother i hi] at hx
      rw [blockAt, hwritten.other i _ hi] at hmapped
      rw [byteAt, blockAt, hwritten.other i _ hi, hwritten.data i _ hi hmapped]
      exact h.tail i x hx hmapped

end Xv6.Mkfs
