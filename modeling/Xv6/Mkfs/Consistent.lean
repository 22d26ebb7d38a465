import Xv6.Fs.Image
import Xv6.Lib.Transition
import Xv6.Mkfs.Built

/-!
# Consistent — when the image that `mkfs` writes is consistent

`mkfs` checks neither the number of inodes nor whether the root's last block is full when it rounds
up the root's size, and takes any name.  The image is consistent just if none of this matters.
-/

namespace Xv6.Mkfs

open Lib Prog Fs Volume
open Function (update update_of_ne update_self)

variable {im im' : Image}

/-! ## The end of `main` -/

/-- The bytes of the root's inode. -/
def rootInode (im : Image) : Block :=
  slice (im.disk (IBLOCK sb ROOTINO)) (ROOTINO % IPB)

/-- The root's size when it is rounded up. -/
def rootSize (im : Image) : Nat :=
  ((im.vol.dip sb ROOTINO).size / BSIZE + 1) * BSIZE

/-- The image at the end, when it was `im` after the last input. -/
def finish (im : Image) : Image :=
  { putInode im ROOTINO (setSize (rootInode im) (rootSize im)) with
    disk := update (putInode im ROOTINO (setSize (rootInode im) (rootSize im))).disk sb.bmapstart
      (usedBits im.freeblock) }

theorem main_spec {files : List Input} (hlen : files.length ≤ 206) :
    wp (main files) (fun _ => True) (fun _ im' => ∃ im, im' = finish im ∧
      Built (rootEnts (files.map Input.entryName)) files.length im) start := by
  unfold main
  refine wp_seq (build_spec hlen) ?_
  intro _ im hbuilt
  have hsize : size (rootInode im) = (im.vol.dip sb ROOTINO).size := by
    rw [← dinodeOf_slice (by decide)]
    rfl
  unfold fixRoot
  rw [wp_bind, wp_bind, wp_of_eq (rinode_eq (by decide)), wp_of_eq (winode_eq (by decide)),
    wp_bind, wp_gets, balloc]
  split
  · rw [wsect, wp_modify]
    refine ⟨im, ?_, hbuilt⟩
    unfold finish rootSize
    rw [← hsize]
    rfl
  · trivial

theorem testBit_usedBits (n k : Nat) :
    (usedBits n (k / 8)).toNat.testBit (k % 8) = decide (k < n) := by
  induction n with
  | zero =>
    simp [usedBits, Block.zero]
  | succ n ih =>
    have hpow : ∀ m, m < 8 → ((1 : UInt8) <<< UInt8.ofNat m).toNat = 2 ^ m := by decide
    simp only [usedBits]
    split
    · rename_i hbyte
      rw [UInt8.toNat_or, Nat.testBit_or, ih, hpow _ (Nat.mod_lt _ (by decide)),
        Nat.testBit_two_pow]
      have hiff : (k < n ∨ n % 8 = k % 8) ↔ k < n + 1 := by omega
      simp only [← Bool.decide_or, hiff]
    · rename_i hbyte
      have hiff : k < n ↔ k < n + 1 := by omega
      rw [ih]
      simp only [hiff]

section

variable {es : List Ent} {n : Nat}

theorem Built.size_lt (h : Built es n im) (hes : es.length ≤ 208) : rootSize im < 2 ^ 32 := by
  rw [rootSize, h.size]
  simp only [DESIZE, DIRSIZ, BSIZE]
  omega

theorem volOf_finish (h : Built es n im) (hes : es.length ≤ 208) :
    (volOf (finish im).disk).dinode = (im.vol.setDip sb ROOTINO
      { im.vol.dip sb ROOTINO with size := rootSize im }).dinode ∧
    (volOf (finish im).disk).data = im.vol.data := by
  have hroot : ROOTINO < 208 := by decide
  have hvol := vol_winode hroot im (setSize (rootInode im) (rootSize im))
  rw [dinodeOf_setSize (h.size_lt hes), rootInode, dinodeOf_slice (by decide)] at hvol
  -- The bitmap block is neither an inode block nor a data block.
  constructor
  · rw [← hvol]
    funext b k
    simp only [volOf, Image.vol, inodeAt, finish, putInode]
    split
    · rename_i hb
      rw [update_of_ne (by omega)]
      rfl
    · rfl
  · have hdata := congrArg Volume.data hvol
    refine Eq.trans ?_ hdata
    funext b
    have hmeta : sb.bmapstart < nmeta := by decide
    simp only [volOf, Image.vol, dataAt, finish, putInode]
    split
    · rw [update_of_ne (by omega)]
      rfl
    · rfl

theorem dip_finish (h : Built es n im) (hes : es.length ≤ 208) (i : Nat) :
    (volOf (finish im).disk).dip sb i =
      if i = ROOTINO then { im.vol.dip sb ROOTINO with size := rootSize im }
      else im.vol.dip sb i := by
  rw [dip, (volOf_finish h hes).1]
  exact dip_setDip _ _ _ _

theorem held_finish (h : Built es n im) (hes : es.length ≤ 208) :
    (volOf (finish im).disk).held sb = im.vol.held sb := by
  have hself := @held_resize sb im.vol ROOTINO (im.vol.dip sb ROOTINO) (rootSize im)
  rw [setDip_dip] at hself
  rw [← hself]
  funext x
  unfold held
  rw [(volOf_finish h hes).2, dip, (volOf_finish h hes).1]
  rfl

theorem bit_finish {b : Nat} (hb : b < BPB) :
    (volOf (finish im).disk).bit sb b = decide (b < im.freeblock) := by
  have hblock : BBLOCK sb b = sb.bmapstart := by
    rw [BBLOCK, Nat.div_eq_of_lt hb, Nat.zero_add]
  rw [bit, hblock, Nat.mod_eq_of_lt hb]
  simp only [volOf, finish, update_self]
  exact testBit_usedBits _ _

/-- The bytes after the root's last entry are zeros. -/
theorem byteAt_tail (h : Sound im) {x : Nat} (hx : (im.vol.dip sb ROOTINO).size ≤ x) :
    im.vol.byteAt sb ROOTINO x = 0 := by
  by_cases hmapped : im.vol.blockAt sb ROOTINO x = 0
  · rw [byteAt, hmapped]
    rfl
  · exact h.tail ROOTINO x hx hmapped

/-- The entries that rounding up adds to a directory are free. -/
def freeEnt : Ent :=
  { inum := 0, name := [] }

theorem ents_finish (h : Built es n im) (hes : es.length ≤ 208) :
    (volOf (finish im).disk).ents sb ROOTINO =
      es ++ List.replicate (rootSize im / DESIZE - es.length) freeEnt := by
  have hnode : im.vol.tree sb ROOTINO = some { kind := .dir, nlink := 1, ents := es } := by
    rw [h.tree]
    exact if_pos rfl
  have hold : es = im.vol.ents sb ROOTINO := (tree_eq_some hnode).2.2.2.1 rfl
  have hbyte : ∀ x, (volOf (finish im).disk).byteAt sb ROOTINO x = im.vol.byteAt sb ROOTINO x := by
    intro x
    rw [byteAt, byteAt, blockAt, blockAt, held_finish h hes, (volOf_finish h hes).2]
  have hdirent : ∀ j, (volOf (finish im).disk).dirent sb ROOTINO j =
      im.vol.dirent sb ROOTINO j := by
    intro j
    simp only [dirent, hbyte]
  have hlen : (im.vol.dip sb ROOTINO).size / DESIZE = es.length := by
    rw [h.size]
    exact Nat.mul_div_cancel _ (by decide)
  have hle : es.length ≤ rootSize im / DESIZE := by
    have hsize := h.size
    simp only [rootSize, DESIZE, DIRSIZ, BSIZE] at hsize ⊢
    omega
  have hfree : ∀ j, es.length ≤ j → (im.vol.dirent sb ROOTINO j).ent = freeEnt := by
    intro j hj
    have hzero : im.vol.dirent sb ROOTINO j = .ofBytes fun _ => 0 := by
      unfold dirent
      congr 1
      funext x
      split
      · refine byteAt_tail h.sound ?_
        rw [h.size]
        exact Nat.le_trans (Nat.mul_le_mul_right _ hj) (Nat.le_add_right _ _)
      · rfl
    rw [hzero]
    decide
  have hroot : ((volOf (finish im).disk).dip sb ROOTINO).size = rootSize im := by
    rw [dip_finish h hes, if_pos rfl]
  refine List.ext_getElem? fun j => ?_
  by_cases hj : j < es.length
  · rw [List.getElem?_append_left hj, ents_getElem? (by rw [hroot]; omega), hdirent]
    conv_rhs => rw [hold]
    rw [ents_getElem? (by rw [hlen]; exact hj)]
  · rw [List.getElem?_append_right (by omega), List.getElem?_replicate]
    split
    · rw [ents_getElem? (by rw [hroot]; omega), hdirent, hfree j (by omega)]
    · rw [List.getElem?_eq_none]
      rw [length_ents, hroot]
      omega

/-! ## Consistency -/

end

/-- The image is consistent, with the inodes from 1 to `freeinode` in use. -/
structure Consistent (files : List Input) (im : Image) : Prop where
  inodes : ∀ i, 0 < i → i < im.freeinode → i < NINODES
  mapped : ∀ i, 0 < i → i < im.freeinode → ∀ bn,
    bn < (((volOf im.disk).dip sb i).size + BSIZE - 1) / BSIZE →
      nmeta ≤ (volOf im.disk).held sb (i, slotOf bn) ∧
        (volOf im.disk).held sb (i, slotOf bn) < FSSIZE
  once : ∀ i j k l, 0 < i → i < im.freeinode → 0 < j → j < im.freeinode →
    (volOf im.disk).held sb (i, k) ≠ 0 →
    (volOf im.disk).held sb (i, k) = (volOf im.disk).held sb (j, l) → i = j ∧ k = l
  bitmap : ∀ b, b < BPB → ((volOf im.disk).bit sb b = true ↔ b < nmeta ∨
    b ≠ 0 ∧ ∃ i k, 0 < i ∧ i < im.freeinode ∧ (volOf im.disk).held sb (i, k) = b)
  names : ∀ j l e e', j ≠ l → ((volOf im.disk).ents sb ROOTINO)[j]? = some e →
    ((volOf im.disk).ents sb ROOTINO)[l]? = some e' → e.inum ≠ 0 → e'.inum ≠ 0 →
    e.name = e'.name → ∃ a b f g, j = a + 2 ∧ l = b + 2 ∧ files[a]? = some f ∧
      files[b]? = some g ∧ f.entryName = g.entryName

/-- The inputs for which `mkfs` makes a consistent image. -/
def Fits (files : List Input) : Prop :=
  files.length + 1 < NINODES ∧ (files.length + 2) * DESIZE % BSIZE ≠ 0 ∧
    ∀ f ∈ files, f.entryName ≠ dot ∧ f.entryName ≠ dotdot

instance (files : List Input) : Decidable (Fits files) :=
  inferInstanceAs (Decidable (_ ∧ _))

section

variable {files : List Input}

theorem Built.used {es : List Ent} {n i k : Nat} (h : Built es n im)
    (hheld : im.vol.held sb (i, k) ≠ 0) : 0 < i ∧ i < n + 2 := by
  have hsome : im.vol.tree sb i ≠ none := by
    intro hnone
    rw [tree_eq_none_iff] at hnone
    exact hheld (held_of_free (h.sound.intact.free i hnone) k)
  rw [h.tree] at hsome
  unfold builtTree at hsome
  split at hsome
  · rename_i hi
    rw [hi]
    simp only [ROOTINO]
    omega
  · split at hsome
    · rename_i hi
      simp only [ROOTINO] at hi
      omega
    · exact absurd rfl hsome

theorem Built.typed {es : List Ent} {n i : Nat} (h : Built es n im) (hpos : 0 < i)
    (hlt : i < n + 2) : (im.vol.dip sb i).type ≠ .free := by
  rw [ne_eq, ← tree_eq_none_iff, h.tree]
  unfold builtTree
  split
  · exact Option.some_ne_none _
  · rename_i hi
    rw [if_pos (by simp only [ROOTINO] at hi ⊢; omega)]
    exact Option.some_ne_none _

theorem length_rootEnts_le (hlen : files.length ≤ 206) :
    (rootEnts (files.map Input.entryName)).length ≤ 208 := by
  rw [length_rootEnts, List.length_map]
  omega

/-- All blocks of the finished image are there when the root's last block is not full. -/
theorem Built.mapped (h : Built (rootEnts (files.map Input.entryName)) files.length im)
    (hlen : files.length ≤ 206) (hfull : (files.length + 2) * DESIZE % BSIZE ≠ 0) {i bn : Nat}
    (htype : (im.vol.dip sb i).type ≠ .free)
    (hbn : bn * BSIZE < ((volOf (finish im).disk).dip sb i).size) :
    im.vol.held sb (i, slotOf bn) ≠ 0 := by
  have hes := length_rootEnts_le hlen
  refine h.sound.intact.mapped i htype bn ?_
  rw [dip_finish h hes] at hbn
  split at hbn
  · rename_i hi
    have hsize := h.size
    rw [length_rootEnts, List.length_map] at hsize
    rw [hi]
    simp only [rootSize, hsize, BSIZE, DESIZE, DIRSIZ] at hbn hfull ⊢
    omega
  · exact hbn

/-- The names in the finished root. -/
theorem ents_getElem?_finish (h : Built (rootEnts (files.map Input.entryName)) files.length im)
    (hlen : files.length ≤ 206) {j : Nat} {e : Ent}
    (he : ((volOf (finish im).disk).ents sb ROOTINO)[j]? = some e) :
    (j = 0 ∧ e = { inum := ROOTINO, name := dot }) ∨
      (j = 1 ∧ e = { inum := ROOTINO, name := dotdot }) ∨
      (∃ a f, j = a + 2 ∧ files[a]? = some f ∧ e = { inum := j, name := f.entryName }) ∨
      e = freeEnt := by
  have hes := length_rootEnts_le hlen
  rw [ents_finish h hes, List.getElem?_append] at he
  split at he
  · match j with
    | 0 => exact .inl ⟨rfl, (Option.some.inj he).symm⟩
    | 1 => exact .inr (.inl ⟨rfl, (Option.some.inj he).symm⟩)
    | a + 2 =>
      simp only [rootEnts, List.getElem?_cons_succ, List.getElem?_mapIdx, List.getElem?_map,
        Option.map_map] at he
      rcases Option.map_eq_some_iff.1 he with ⟨f, hf, rfl⟩
      exact .inr (.inr (.inl ⟨a, f, rfl, hf, rfl⟩))
  · refine .inr (.inr (.inr ?_))
    rw [List.getElem?_replicate] at he
    split at he
    · exact (Option.some.inj he).symm
    · cases he

/-- The entries of the inputs are in the finished root. -/
theorem ents_finish_input (h : Built (rootEnts (files.map Input.entryName)) files.length im)
    (hlen : files.length ≤ 206) {a : Nat} {f : Input} (hf : files[a]? = some f) :
    ((volOf (finish im).disk).ents sb ROOTINO)[a + 2]? =
      some { inum := a + 2, name := f.entryName } := by
  have hes := length_rootEnts_le hlen
  have hlt : a + 2 < (rootEnts (files.map Input.entryName)).length := by
    rw [length_rootEnts, List.length_map]
    have := (List.getElem?_eq_some_iff.1 hf).1
    omega
  rw [ents_finish h hes, List.getElem?_append_left hlt]
  simp [rootEnts, hf]

theorem consistent_finish (h : Built (rootEnts (files.map Input.entryName)) files.length im)
    (hfits : Fits files) : Consistent files (finish im) := by
  rcases hfits with ⟨hcount, hfull, hnames⟩
  simp only [NINODES] at hcount
  have hlen : files.length ≤ 206 := by omega
  have hes := length_rootEnts_le hlen
  have hinode : (finish im).freeinode = files.length + 2 := h.freeinode
  have hheld := held_finish h hes
  refine ⟨?_, ?_, ?_, ?_, ?_⟩
  · intro i _ hi
    simp only [NINODES]
    omega
  · intro i hpos hi bn hbn
    rw [hinode] at hi
    have hmapped := h.mapped hlen hfull (h.typed hpos hi) (lt_blocks_iff.1 hbn)
    rw [hheld]
    exact h.sound.intact.holding.range _ hmapped
  · intro i j k l _ _ _ _ hne heq
    rw [hheld] at hne heq
    exact Prod.mk.inj (h.sound.intact.holding.inj _ _ hne heq)
  · intro b hb
    have hhigh := h.sound.high
    have hlow := h.sound.low
    rw [bit_finish hb, decide_eq_true_eq, hinode, hheld]
    constructor
    · intro hlt
      have hused : im.vol.bit sb b = true := by
        rw [bit_vol (Nat.le_trans hhigh (by decide)), decide_eq_true_eq]
        exact hlt
      refine ((h.sound.intact.holding.used_iff b (Nat.lt_of_lt_of_le hlt hhigh)).1
        hused).imp_right ?_
      rintro ⟨hne, ⟨i, k⟩, hik⟩
      rcases h.used (i := i) (k := k) (by rw [hik]; exact hne) with ⟨hpos, hi⟩
      exact ⟨hne, i, k, hpos, hi, hik⟩
    · rintro (hlt | ⟨hne, i, k, _, _, hik⟩)
      · omega
      · have hbit := h.sound.intact.holding.used_of_held (k := (i, k)) (by rw [hik]; exact hne)
        rw [hik, bit_vol (Nat.le_trans hhigh (by decide)), decide_eq_true_eq] at hbit
        exact hbit
  · intro j l e e' hjl he he' hinum hinum' hname
    -- Names that are equal are not those of the first two entries.
    have hmem : ∀ {a : Nat} {f : Input}, files[a]? = some f → f ∈ files :=
      fun hf => List.mem_of_getElem? hf
    rcases ents_getElem?_finish h hlen he with ⟨hj, rfl⟩ | ⟨hj, rfl⟩ | ⟨a, f, hj, hf, rfl⟩ | rfl <;>
      rcases ents_getElem?_finish h hlen he' with ⟨hl, rfl⟩ | ⟨hl, rfl⟩ | ⟨b, g, hl, hg, rfl⟩ | rfl
    · omega
    · cases hname
    · exact absurd hname.symm (hnames g (hmem hg)).1
    · exact absurd rfl hinum'
    · cases hname
    · omega
    · exact absurd hname.symm (hnames g (hmem hg)).2
    · exact absurd rfl hinum'
    · exact absurd hname (hnames f (hmem hf)).1
    · exact absurd hname (hnames f (hmem hf)).2
    · exact ⟨a, b, f, g, hj, hl, hf, hg, hname⟩
    · exact absurd rfl hinum'
    all_goals exact absurd rfl hinum

theorem fits_of_consistent (h : Built (rootEnts (files.map Input.entryName)) files.length im)
    (hlen : files.length + 1 < NINODES) (hcons : Consistent files (finish im)) : Fits files := by
  have hlen' : files.length ≤ 206 := by
    simp only [NINODES] at hlen
    omega
  have hes := length_rootEnts_le hlen'
  have hinode : (finish im).freeinode = files.length + 2 := h.freeinode
  refine ⟨hlen, ?_, ?_⟩
  · -- The root's last block is full, so the block that rounding up adds is not there.
    intro hfull
    have hsize := h.size
    rw [length_rootEnts, List.length_map] at hsize
    have hmapped := hcons.mapped ROOTINO (by decide) (by rw [hinode]; simp only [ROOTINO]; omega)
      ((im.vol.dip sb ROOTINO).size / BSIZE) (by
        rw [dip_finish h hes, if_pos rfl]
        simp only [rootSize, BSIZE]
        omega)
    rw [held_finish h hes, h.sound.tight ROOTINO _ (by
      rw [hsize]
      simp only [BSIZE, DESIZE, DIRSIZ] at hfull ⊢
      omega)] at hmapped
    exact absurd hmapped.1 (by decide)
  · intro f hf
    rcases List.getElem?_of_mem hf with ⟨a, ha⟩
    have hent := ents_finish_input h hlen' ha
    have hfirst : ∀ j name, ((volOf (finish im).disk).ents sb ROOTINO)[j]? =
        some { inum := ROOTINO, name := name } → j < 2 → f.entryName ≠ name := by
      intro j name he hj hname
      rcases hcons.names j (a + 2) _ _ (by omega) he hent Nat.one_ne_zero (by simp) hname.symm with
        ⟨b, _, _, _, hb, _⟩
      omega
    have hroot : ∀ j, j < 2 → ((volOf (finish im).disk).ents sb ROOTINO)[j]? =
        (rootEnts (files.map Input.entryName))[j]? := by
      intro j hj
      rw [ents_finish h hes, List.getElem?_append_left (by rw [length_rootEnts]; omega)]
    exact ⟨hfirst 0 dot (by rw [hroot 0 (by decide)]; rfl) (by decide),
      hfirst 1 dotdot (by rw [hroot 1 (by decide)]; rfl) (by decide)⟩

/-! ### How many inodes are used -/

/-- A part of `mkfs` that allocates no inode. -/
def Keeps {α : Type} (c : M α) : Prop :=
  ∀ im, wp c (fun _ => True) (fun _ im' => im'.freeinode = im.freeinode) im

theorem Keeps.pure {α : Type} (a : α) : Keeps (Pure.pure a : M α) :=
  fun _ => rfl

theorem Keeps.bind {α β : Type} {c : M α} {f : α → M β} (hc : Keeps c) (hf : ∀ a, Keeps (f a)) :
    Keeps (c >>= f) := by
  intro im
  refine wp_seq (hc im) ?_
  intro a im' h
  exact wp_post (hf a im') fun _ _ h' => h'.trans h

theorem keeps_rsect (sec : Nat) : Keeps (rsect sec) := by
  intro im
  refine wp_post rsect_spec ?_
  rintro _ _ ⟨rfl, _⟩
  rfl

theorem keeps_wsect (sec : Nat) (buf : Block) : Keeps (wsect sec buf) :=
  fun _ => rfl

theorem keeps_winode (inum : Nat) (din : Block) : Keeps (winode inum din) :=
  .bind (keeps_rsect _) fun _ => keeps_wsect _ _

theorem keeps_takeBlock : Keeps takeBlock :=
  fun _ => rfl

theorem keeps_fillAddr (din : Block) (k : Nat) : Keeps (fillAddr din k) := by
  unfold fillAddr
  split
  · exact .bind keeps_takeBlock fun _ => .pure _
  · exact .pure _

theorem keeps_blockOf (din : Block) (fbn : Nat) : Keeps (blockOf din fbn) := by
  unfold blockOf
  split
  · exact .bind (keeps_fillAddr _ _) fun _ => .pure _
  · refine .bind (keeps_fillAddr _ _) fun din' => .bind (keeps_rsect _) fun a => ?_
    split
    · exact .bind keeps_takeBlock fun _ => .bind (keeps_wsect _ _) fun _ => .pure _
    · exact .pure _

theorem keeps_iappendLoop (p : List UInt8) (fuel : Nat) (din : Block) (off pos : Nat) :
    Keeps (iappendLoop p fuel din off pos) := by
  induction fuel generalizing din off pos with
  | zero => exact .pure _
  | succ fuel ih =>
    rw [iappendLoop]
    split
    · split
      · exact .bind (keeps_blockOf _ _) fun _ => .bind (keeps_rsect _) fun _ =>
          .bind (keeps_wsect _ _) fun _ => ih _ _ _
      · exact fun _ => trivial
    · exact .pure _

theorem keeps_iappend (inum : Nat) (p : List UInt8) : Keeps (iappend inum p) :=
  .bind (.bind (keeps_rsect _) fun _ => .pure _) fun _ =>
    .bind (keeps_iappendLoop _ _ _ _ _) fun _ => keeps_winode _ _

theorem keeps_appendAll (inum : Nat) (l : List (List UInt8)) : Keeps (appendAll inum l) := by
  induction l with
  | nil => exact .pure _
  | cons p l ih => exact .bind (keeps_iappend _ _) fun _ => ih

theorem ialloc_freeinode (type : UInt8) (im : Image) :
    wp (ialloc type) (fun _ => True) (fun _ im' => im'.freeinode = im.freeinode + 1) im := by
  unfold ialloc
  rw [wp_bind, wp_gets, wp_bind, wp_modify, wp_bind]
  refine wp_post (keeps_winode _ _ _) ?_
  exact fun _ _ h => h

theorem addFiles_freeinode (files : List Input) (im : Image) : wp (addFiles files) (fun _ => True)
      (fun _ im' => im'.freeinode = im.freeinode + files.length) im := by
  induction files generalizing im with
  | nil => rfl
  | cons f l ih =>
    have hfile : wp (addFile f) (fun _ => True)
        (fun _ im' => im'.freeinode = im.freeinode + 1) im := by
      unfold addFile
      split
      · trivial
      · refine wp_seq (ialloc_freeinode _ im) ?_
        intro i im' h
        refine wp_post (Keeps.bind (keeps_iappend _ _) (fun _ => keeps_appendAll _ _) im')
          fun _ _ h' => h'.trans h
    refine wp_seq hfile ?_
    intro _ im' h
    refine wp_post (ih im') fun _ im'' h' => ?_
    rw [h', h, List.length_cons]
    omega

/-- Every input takes an inode number, whether or not there is room for it. -/
theorem main_freeinode (files : List Input) :
    wp (main files) (fun _ => True) (fun _ im' => im'.freeinode = files.length + 2) start := by
  unfold main build
  rw [wp_bind, wp_bind, wsect, wp_modify]
  refine wp_seq (ialloc_freeinode _ _) ?_
  intro i im hi
  have hi : im.freeinode = 2 := hi
  split
  · refine wp_seq (keeps_iappend _ _ im) ?_
    intro _ im₁ h₁
    refine wp_seq (keeps_iappend _ _ im₁) ?_
    intro _ im₂ h₂
    refine wp_post (addFiles_freeinode files im₂) ?_
    intro _ im₃ h₃
    have hrest : Keeps (do
        fixRoot
        let used ← gets (·.freeblock)
        balloc used) := by
      refine .bind (.bind (.bind (keeps_rsect _) fun _ => .pure _) fun _ => keeps_winode _ _)
        fun _ => .bind (fun _ => rfl) fun used => ?_
      unfold balloc
      split
      · exact keeps_wsect _ _
      · exact fun _ => trivial
    refine wp_post (hrest im₃) fun _ im₄ h₄ => ?_
    rw [h₄, h₃, h₂, h₁, hi]
    omega
  · trivial

/-- The image that `mkfs` writes is consistent just if there are inodes for all inputs, the root's
entries do not fill its last block, and no input is called `.` or `..`. -/
theorem consistent_iff_fits (h : main files start = .ok () im) :
    Consistent files im ↔ Fits files := by
  have hinode := of_wp (Q := fun _ im' => im'.freeinode = files.length + 2) (main_freeinode files) h
  by_cases hlen : files.length + 1 < NINODES
  · rcases of_wp (Q := fun _ im' => ∃ im, im' = finish im ∧
        Built (rootEnts (files.map Input.entryName)) files.length im)
      (main_spec (by simp only [NINODES] at hlen; omega)) h with ⟨im₀, rfl, hbuilt⟩
    exact ⟨fits_of_consistent hbuilt hlen, consistent_finish hbuilt⟩
  · constructor
    · intro hcons
      exact absurd (hcons.inodes (files.length + 1) (by omega) (by omega)) hlen
    · exact fun hfits => absurd hfits.1 hlen

/-- A file that needs an indirect block, with a name to be shortened, and empty files with which the
root has two blocks. -/
def twoBlocks : List Input :=
  { arg := user ++ [95, 115, 104], reads := List.replicate 13 (List.replicate BSIZE 1) } ::
    (List.range 70).map fun j => { arg := [UInt8.ofNat (128 + j)], reads := [] }

set_option maxRecDepth 100000 in
theorem consistent_iff_fits_two_blocks : ∃ im, main twoBlocks start = .ok () im ∧
    (volOf im.disk).held sb (2, slotOf NDIRECT) ≠ 0 ∧
    ((volOf im.disk).dip sb ROOTINO).size = 2 * BSIZE ∧
    (Consistent twoBlocks im ↔ Fits twoBlocks) ∧ Fits twoBlocks := by
  have heval : (main twoBlocks start).state?.any fun im =>
      decide ((volOf im.disk).held sb (2, slotOf NDIRECT) ≠ 0 ∧
        ((volOf im.disk).dip sb ROOTINO).size = 2 * BSIZE) := by
    decide +kernel
  rcases exists_of_any heval with ⟨im, him, hheld, hsize⟩
  exact ⟨im, Outcome.of_state? him, hheld, hsize, consistent_iff_fits (Outcome.of_state? him),
    by decide⟩
/-- Empty files whose entries fill one block of the root together with `.` and `..`. -/
def fullRoot : List Input :=
  (List.range 62).map fun j => { arg := [UInt8.ofNat (128 + j)], reads := [] }

set_option maxRecDepth 10000 in
/-- Rounding up the root's size adds a block that is not there. -/
theorem inconsistent_full_root : ∃ im, main fullRoot start = .ok () im ∧
    ¬ Consistent fullRoot im := by
  have heval : (main fullRoot start).state?.any fun im => decide (ROOTINO < im.freeinode ∧
      1 < (((volOf im.disk).dip sb ROOTINO).size + BSIZE - 1) / BSIZE ∧
      (volOf im.disk).held sb (ROOTINO, slotOf 1) = 0) := by
    decide +kernel
  rcases exists_of_any heval with ⟨im, him, hinode, hsize, hheld⟩
  refine ⟨im, Outcome.of_state? him, fun hcons => ?_⟩
  have hmapped := hcons.mapped ROOTINO (by decide) hinode 1 hsize
  rw [hheld] at hmapped
  exact absurd hmapped.1 (by decide)

/-! ## The volume of a consistent image -/

theorem intact_finish (h : Built (rootEnts (files.map Input.entryName)) files.length im)
    (hfits : Fits files) : (volOf (finish im).disk).Intact sb := by
  rcases hfits with ⟨hcount, hfull, _⟩
  simp only [NINODES] at hcount
  have hlen : files.length ≤ 206 := by omega
  have hes := length_rootEnts_le hlen
  have hheld := held_finish h hes
  have htype : ∀ i, ((volOf (finish im).disk).dip sb i).type = (im.vol.dip sb i).type ∧
      ((volOf (finish im).disk).dip sb i).addrs = (im.vol.dip sb i).addrs := by
    intro i
    rw [dip_finish h hes]
    split
    · rename_i hi
      rw [hi]
      exact ⟨rfl, rfl⟩
    · exact ⟨rfl, rfl⟩
  have hold := h.sound.intact.holding
  refine ⟨⟨?_, ?_, ?_⟩, ?_, ?_, fun _ _ _ _ => rfl⟩
  · rw [hheld]
    exact hold.inj
  · rw [hheld]
    exact hold.range
  · intro b hb
    have hbpb : b < BPB := Nat.lt_trans hb (by decide)
    rw [bit_finish hbpb, hheld, ← hold.used_iff b hb,
      bit_vol (Nat.le_trans h.sound.high (by decide))]
  · intro i hi k hk
    rw [(htype i).1] at hi
    rw [(htype i).2]
    exact h.sound.intact.free i hi k hk
  · intro i hi bn hbn
    rw [(htype i).1] at hi
    rw [hheld]
    exact h.mapped hlen hfull hi hbn

theorem tree_finish (h : Built (rootEnts (files.map Input.entryName)) files.length im)
    (hlen : files.length ≤ 206) : (volOf (finish im).disk).tree sb =
      builtTree (rootEnts (files.map Input.entryName) ++ List.replicate
        (rootSize im / DESIZE - (files.length + 2)) freeEnt) files.length := by
  have hlength : (rootEnts (files.map Input.entryName)).length = files.length + 2 := by
    rw [length_rootEnts, List.length_map]
  have hes : (rootEnts (files.map Input.entryName)).length ≤ 208 := by omega
  have hents := ents_finish h hes
  rw [hlength] at hents
  have hnode : im.vol.tree sb ROOTINO = some
      { kind := .dir, nlink := 1, ents := rootEnts (files.map Input.entryName) } := by
    rw [h.tree]
    exact if_pos rfl
  have htype := (tree_eq_some hnode).1
  have hnlink := (tree_eq_some hnode).2.2.1
  rw [← builtTree_root (rootEnts (files.map Input.entryName)), ← h.tree]
  funext i
  have hdip := dip_finish h hes i
  by_cases hi : i = ROOTINO
  · subst hi
    rw [if_pos rfl] at hdip
    rw [update_self, tree_of_some hnode (by rw [hdip]) (fun _ => hents)
      fun hne => absurd rfl hne, hdip]
    simp only [← hnlink]
  · rw [if_neg hi] at hdip
    rw [update_of_ne hi]
    refine tree_congr (by rw [hdip]) (by rw [hdip]) (fun _ => by rw [hdip]) fun _ x _ => ?_
    exact byteAt_congr (fun k => congrFun (held_finish h hes) _) (by rw [(volOf_finish h hes).2])

/-- `mkfs` has made an image of inputs that fit. -/
theorem built_of_main (h : main files start = .ok () im) (hfits : Fits files) :
    ∃ im₀, im = finish im₀ ∧ Built (rootEnts (files.map Input.entryName)) files.length im₀ := by
  have hcount := hfits.1
  simp only [NINODES] at hcount
  exact of_wp (Q := fun _ im' => ∃ im, im' = finish im ∧ Built _ _ im) (main_spec (by omega)) h

theorem intact_of_main (h : main files start = .ok () im) (hfits : Fits files) :
    (volOf im.disk).Intact sb := by
  rcases built_of_main h hfits with ⟨_, rfl, hbuilt⟩
  exact intact_finish hbuilt hfits

end

/-- The volume of an image that is made of no files. -/
def blank : Volume :=
  volOf (((main [] start).state?).getD start).disk

theorem main_nil : main [] start = .ok () (((main [] start).state?).getD start) := by
  have heval : ((main [] start).state?).isSome = true := by decide +kernel
  rcases Option.isSome_iff_exists.1 heval with ⟨im, him⟩
  rw [him]
  exact Outcome.of_state? him

theorem intact_blank : blank.Intact sb :=
  intact_of_main main_nil (by decide)

end Xv6.Mkfs
