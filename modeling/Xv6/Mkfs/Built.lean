import Xv6.Fs.Entries
import Xv6.Mkfs.Append

/-!
# Built — the tree that `mkfs` makes

The root directory has an entry for each input, in order, and inode `j + 2` is the file of input
`j`.  This holds as long as the inode numbers stay in the inode blocks.
-/

namespace Xv6.Mkfs

open Lib Prog Fs Volume
open Function (update update_of_ne update_self)

variable {im im' : Image} {inum : Nat}

/-! ## The tree -/

/-- The 14 bytes of an input's name, as a string. -/
def Input.entryName (f : Input) : List UInt8 :=
  (Name.ofList f.name).str

/-- The root's entries for the names of the inputs. -/
def rootEnts (names : List (List UInt8)) : List Ent :=
  { inum := ROOTINO, name := dot } :: { inum := ROOTINO, name := dotdot } ::
    names.mapIdx fun j name => { inum := j + 2, name := name }

/-- The root and `n` files. -/
def builtTree (es : List Ent) (n : Nat) : Tree := fun i =>
  if i = ROOTINO then
    some { kind := .dir, nlink := 1, ents := es }
  else if ROOTINO < i ∧ i < n + 2 then
    some { kind := .file, nlink := 1, ents := [] }
  else
    none

/-- The image with the root's entries `es` and `n` files. -/
structure Built (es : List Ent) (n : Nat) (im : Image) : Prop where
  sound : Sound im
  freeinode : im.freeinode = n + 2
  tree : im.vol.tree sb = builtTree es n
  size : (im.vol.dip sb ROOTINO).size = es.length * DESIZE

theorem rootEnts_append (names : List (List UInt8)) (name : List UInt8) :
    rootEnts (names ++ [name]) =
      rootEnts names ++ [{ inum := names.length + 2, name := name }] := by
  simp [rootEnts, List.mapIdx_append]

theorem length_rootEnts (names : List (List UInt8)) :
    (rootEnts names).length = names.length + 2 := by
  simp [rootEnts]

variable {n i : Nat} {es : List Ent}

theorem builtTree_file (es : List Ent) (hn : n + 2 < 2 ^ 16) :
    update (builtTree es n) (n + 2) (some { kind := .file, nlink := 1, ents := [] }) =
      builtTree es (n + 1) := by
  funext i
  unfold builtTree
  by_cases hi : i = n + 2
  · subst hi
    rw [update_self, if_neg (by simp only [ROOTINO]; omega), if_pos (by simp only [ROOTINO]; omega)]
  · have hiff : (ROOTINO < i ∧ i < n + 2) ↔ (ROOTINO < i ∧ i < n + 1 + 2) := by omega
    rw [update_of_ne hi]
    simp only [hiff]

theorem builtTree_root (es es' : List Ent) (n : Nat) :
    update (builtTree es n) ROOTINO (some { kind := .dir, nlink := 1, ents := es' }) =
      builtTree es' n := by
  funext i
  unfold builtTree
  by_cases hi : i = ROOTINO
  · rw [hi, update_self, if_pos rfl]
  · rw [update_of_ne hi, if_neg hi, if_neg hi]

/-! ## Allocating an inode -/

theorem dinodeOf_newInode (type : UInt8) : dinodeOf (newInode type) =
      { Dinode.zero with type := fileType type.toNat, nlink := 1 } := by
  have haddrs : ∀ k, addr (newInode type) k = 0 := by
    intro k
    simp only [addr, Block.uint, newInode]
    rw [if_neg (by omega), if_neg (by omega), if_neg (by omega), if_neg (by omega),
      if_neg (by omega), if_neg (by omega), if_neg (by omega), if_neg (by omega)]
    rfl
  have htype : ushort (newInode type) 0 = type.toNat := by simp [ushort, newInode]
  have hmajor : ushort (newInode type) 2 = 0 := by simp [ushort, newInode]
  have hminor : ushort (newInode type) 4 = 0 := by simp [ushort, newInode]
  have hnlink : ushort (newInode type) 6 = 1 := by simp [ushort, newInode]
  have hsize : size (newInode type) = 0 := by simp [size, Block.uint, newInode]
  have hzero : short (0 : Nat) = 0 := by decide
  have hone : short (1 : Nat) = 1 := by decide
  unfold dinodeOf
  simp only [haddrs, htype, hmajor, hminor, hnlink, hsize, hzero, hone, ite_self, Dinode.zero]

theorem tree_setDip {v : Volume} {type : FileType} (hfree : type ≠ .free)
    {d : Dinode} (htype : d.type = type) (hsize : d.size = 0) :
    (v.setDip sb i d).tree sb =
      update (v.tree sb) i (some { kind := type, nlink := d.nlink, ents := [] }) := by
  funext j
  by_cases hj : j = i
  · subst hj
    have hdip : (v.setDip sb j d).dip sb j = d := by simp [dip_setDip]
    have hents : (v.setDip sb j d).ents sb j = [] := by
      rw [Volume.ents, hdip, hsize]
      rfl
    rw [tree_of_type (by rw [hdip, htype]) hfree, update_self, hents, hdip, ite_self]
  · have hdip : (v.setDip sb i d).dip sb j = v.dip sb j := by simp [dip_setDip, hj]
    rw [update_of_ne hj]
    refine tree_congr (by rw [hdip]) (by rw [hdip]) (fun _ => by rw [hdip]) fun _ x _ => ?_
    exact byteAt_congr (fun k => held_setDip_of_ne _ _ hj k) rfl

theorem ialloc_spec {type : UInt8} (h : Sound im) (hlt : im.freeinode < 208)
    (hfree : (im.vol.dip sb im.freeinode).type = .free) :
    wp (ialloc type) (fun _ => True) (fun r im' => r = im.freeinode ∧
      im'.freeinode = im.freeinode + 1 ∧ Sound im' ∧
      im'.vol = im.vol.setDip sb im.freeinode
        { Dinode.zero with type := fileType type.toNat, nlink := 1 }) im := by
  unfold ialloc
  rw [wp_bind, wp_gets, wp_bind, wp_modify, wp_bind, wp_of_eq (winode_eq hlt), wp_pure]
  have hvol : (putInode { im with freeinode := im.freeinode + 1 } im.freeinode
      (newInode type)).vol = im.vol.setDip sb im.freeinode
        { Dinode.zero with type := fileType type.toNat, nlink := 1 } := by
    rw [putInode, vol_winode hlt, dinodeOf_newInode]
    rfl
  have hzero := h.intact.free _ hfree
  have hintact := h.intact.retype (d := { Dinode.zero with
    type := fileType type.toNat, nlink := 1 }) hzero (fun _ _ => rfl) rfl
  have hempty : ∀ k, (im.vol.setDip sb im.freeinode { Dinode.zero with
      type := fileType type.toNat, nlink := 1 }).held sb (im.freeinode, k) = 0 := by
    intro k
    rw [held_setDip_self]
    by_cases hk : k ≤ NDIRECT
    · exact Dinode.slot_of_le hk
    · exact Dinode.slot_of_zero (by omega) rfl
  have hhand : Hand { im with freeinode := im.freeinode + 1 } im.vol :=
    ⟨h.intact, h.low, h.high, h.fresh⟩
  refine ⟨rfl, rfl, ⟨hhand.putInode hlt ?_, ?_, ?_⟩, hvol⟩
  · rw [hvol]
    exact hintact
  · intro i bn hbn
    rw [hvol] at hbn ⊢
    by_cases hi : i = im.freeinode
    · rw [hi, hempty]
    · rw [dip_setDip, if_neg hi] at hbn
      rw [held_setDip_of_ne _ _ hi, h.tight i bn hbn]
  · intro i x hx hmapped
    rw [hvol] at hx hmapped ⊢
    by_cases hi : i = im.freeinode
    · rw [blockAt, hi, hempty] at hmapped
      exact absurd rfl hmapped
    · rw [dip_setDip, if_neg hi] at hx
      rw [blockAt, held_setDip_of_ne _ _ hi] at hmapped
      rw [byteAt, blockAt, held_setDip_of_ne _ _ hi]
      exact h.tail i x hx hmapped

/-! ## Appending -/

theorem Written.of_src {v w : Volume} {off tot : Nat} {src : Nat → Option UInt8}
    (h : Written sb i src off tot v w) (src' : Nat → Option UInt8)
    (hsrc : ∀ j, j < tot → src j = src' j) :
    Written sb i src' off tot v w := by
  refine ⟨h.dip, h.same, h.held, h.other, h.data, h.mapped, fun x hx hx' => ?_, h.old⟩
  rw [h.new x hx hx', hsrc _ (by omega)]

theorem length_direntBytes (i : Nat) (name : List UInt8) :
    (direntBytes i name).length = DESIZE := by
  simp [direntBytes]

theorem Built.root {name : List UInt8} (h : Built es n im) (hi : i < 2 ^ 16) :
    wp (iappend ROOTINO (direntBytes i name)) (fun _ => True)
      (fun _ im' => Built (es ++ [{ inum := i, name := (Name.ofList name).str }]) n im') im := by
  have hnode : im.vol.tree sb ROOTINO = some { kind := .dir, nlink := 1, ents := es } := by
    rw [h.tree]
    exact if_pos rfl
  rcases tree_eq_some hnode with ⟨htype, _, hnlink, hents, _⟩
  have htyped : (im.vol.dip sb ROOTINO).type ≠ .free := by
    rw [← htype]
    exact FileType.noConfusion
  refine wp_post (iappend_spec h.sound (by decide) htyped) ?_
  intro _ im' happ
  have hsize := happ.size
  rw [length_direntBytes] at hsize
  have hw := happ.written
  rw [length_direntBytes, h.size] at hw
  have hw' := Written.of_src hw (fun j => some (Dirent.bytes { inum := i, name := .ofList name } j))
    fun j hj => by
      simp only [direntBytes, List.getElem?_map, List.getElem?_range hj, Option.map_some]
  have hlen : (im.vol.ents sb ROOTINO).length = es.length := by rw [← hents rfl]
  have hes := ents_written h.sound.intact htyped hw'
    (by rw [hsize, h.size]; exact (Nat.max_eq_right (Nat.le_add_right ..)).symm)
    (.inr h.size.symm)
  rw [setEnt, if_neg (by omega), ← hents rfl, Nat.mod_eq_of_lt hi] at hes
  rcases hw.same with ⟨addrs, size, hsame⟩
  refine ⟨happ.sound, happ.freeinode.trans h.freeinode, ?_, ?_⟩
  · rw [← builtTree_root es, ← h.tree]
    funext j
    by_cases hj : j = ROOTINO
    · subst hj
      rw [update_self, tree_of_some hnode (by rw [hsame]) (fun _ => hes)
        fun hne => absurd rfl hne, hsame]
      simp only [← hnlink]
    · rw [update_of_ne hj, tree_of_written hw h.sound.intact hj]
  · rw [hsize, h.size, List.length_append, List.length_singleton, Nat.add_mul, Nat.one_mul]

theorem Built.file {p : List UInt8} (h : Built es n im)
    (hlo : ROOTINO < inum) (hhi : inum < n + 2) (hlt : inum < 208) :
    wp (iappend inum p) (fun _ => True) (fun _ im' => Built es n im') im := by
  have hnode : im.vol.tree sb inum = some { kind := .file, nlink := 1, ents := [] } := by
    rw [h.tree]
    exact (if_neg (Nat.ne_of_gt hlo)).trans (if_pos ⟨hlo, hhi⟩)
  rcases tree_eq_some hnode with ⟨htype, _, hnlink, _⟩
  have htyped : (im.vol.dip sb inum).type ≠ .free := by
    rw [← htype]
    decide
  refine wp_post (iappend_spec h.sound hlt htyped) ?_
  intro _ im' happ
  rcases happ.written.same with ⟨addrs, size, hsame⟩
  refine ⟨happ.sound, happ.freeinode.trans h.freeinode, ?_, ?_⟩
  · rw [← h.tree]
    funext j
    by_cases hj : j = inum
    · subst hj
      have hdir : (im.vol.dip sb j).type ≠ .dir := by
        rw [← htype]
        decide
      exact tree_congr (by rw [hsame]) (by rw [hsame]) (fun hd => absurd hd hdir)
        fun hd => absurd hd hdir
    · exact tree_of_written happ.written h.sound.intact hj
  · rw [happ.written.dip _ (Nat.ne_of_lt hlo), h.size]

theorem appendAll_spec {l : List (List UInt8)} (h : Built es n im)
    (hlo : ROOTINO < inum) (hhi : inum < n + 2) (hlt : inum < 208) :
    wp (appendAll inum l) (fun _ => True) (fun _ im' => Built es n im') im := by
  induction l generalizing im with
  | nil => exact h
  | cons p l ih =>
    refine wp_seq (h.file hlo hhi hlt) ?_
    exact fun _ im' h' => ih h'

/-! ## The inputs -/

theorem addFile_spec {names : List (List UInt8)} {f : Input}
    (h : Built (rootEnts names) names.length im) (hlt : names.length < 206) :
    wp (addFile f) (fun _ => True) (fun _ im' =>
      Built (rootEnts (names ++ [f.entryName])) (names ++ [f.entryName]).length im') im := by
  unfold addFile
  split
  · trivial
  have hfree : (im.vol.dip sb im.freeinode).type = .free := by
    rw [← tree_eq_none_iff, h.tree, h.freeinode]
    exact (if_neg (by simp only [ROOTINO]; omega)).trans (if_neg (by omega))
  refine wp_seq (ialloc_spec h.sound (by rw [h.freeinode]; omega) hfree) ?_
  rintro i im₁ ⟨rfl, hnext, hsound, hvol⟩
  have hbuilt : Built (rootEnts names) (names.length + 1) im₁ := by
    refine ⟨hsound, by rw [hnext, h.freeinode], ?_, ?_⟩
    · rw [hvol, tree_setDip (by decide) rfl rfl, h.tree, h.freeinode]
      exact builtTree_file _ (by omega)
    · rw [hvol, dip_setDip, if_neg (by rw [h.freeinode]; simp only [ROOTINO]; omega), h.size]
  rw [h.freeinode]
  refine wp_seq (hbuilt.root (by omega)) ?_
  intro _ im₂ hroot
  refine wp_post (appendAll_spec hroot (by simp only [ROOTINO]; omega) (by omega) (by omega))
    fun _ im₃ hall => ?_
  rw [rootEnts_append, List.length_append, List.length_singleton]
  exact hall

theorem addFiles_spec {names : List (List UInt8)} (files : List Input)
    (h : Built (rootEnts names) names.length im) (hlt : names.length + files.length ≤ 206) :
    wp (addFiles files) (fun _ => True) (fun _ im' =>
      Built (rootEnts (names ++ files.map Input.entryName))
        (names ++ files.map Input.entryName).length im') im := by
  induction files generalizing names im with
  | nil =>
    rw [List.map_nil, List.append_nil]
    exact h
  | cons f l ih =>
    rw [List.length_cons] at hlt
    refine wp_seq (addFile_spec (f := f) h (by omega)) ?_
    intro _ im' h'
    have hrest := ih h' (by rw [List.length_append, List.length_singleton]; omega)
    rwa [List.append_assoc] at hrest

/-! ## The start -/

theorem dinodeOf_zero : dinodeOf .zero = .zero := by
  have hshort : ∀ x, ushort .zero x = 0 := by
    intro x
    simp [ushort, Block.zero]
  have hzero : short (0 : Nat) = 0 := by decide
  unfold dinodeOf
  simp only [hshort, hzero, size, addr, Block.uint_zero, ite_self, Dinode.zero, fileType]

theorem sound_start (im : Image) (hdisk : ∀ b, b ≠ 1 → im.disk b = .zero)
    (hblock : im.freeblock = nmeta) : Sound im ∧ ∀ i, im.vol.dip sb i = .zero := by
  have hdip : ∀ i, im.vol.dip sb i = .zero := by
    intro i
    simp only [dip, Image.vol, volOf, inodeAt]
    split
    · rename_i hb
      rw [hdisk _ fun h1 => by rw [h1] at hb; exact absurd hb (by decide)]
      exact dinodeOf_zero
    · rfl
  have hheld : ∀ x, im.vol.held sb x = 0 := by
    intro x
    rw [held, hdip]
    by_cases hk : x.2 ≤ NDIRECT
    · exact Dinode.slot_of_le hk
    · exact Dinode.slot_of_zero (by omega) rfl
  have hle : nmeta ≤ BPB := by decide
  refine ⟨⟨⟨⟨⟨?_, ?_, ?_⟩, ?_, ?_, ?_⟩, ?_, ?_, ?_⟩, ?_, ?_⟩, hdip⟩
  · intro x y hx
    exact absurd (hheld x) hx
  · intro x hx
    exact absurd (hheld x) hx
  · intro b _
    rw [bit_vol (by rw [hblock]; exact hle), hblock, decide_eq_true_eq]
    constructor
    · exact .inl
    · rintro (hb | ⟨hne, x, hx⟩)
      · exact hb
      · exact absurd (hx.symm.trans (hheld x)) hne
  · intro i _ k _
    rw [hdip]
    rfl
  · intro i htype
    rw [hdip] at htype
    exact absurd rfl htype
  · intro i k hne
    exact absurd (hheld _) hne
  · rw [hblock]
  · rw [hblock]
    decide
  · intro b hb
    refine hdisk b fun h1 => ?_
    rw [hblock, h1] at hb
    exact absurd hb (by decide)
  · exact fun i bn _ => hheld _
  · exact fun i x _ hne => absurd (hheld _) hne

theorem build_spec {files : List Input} (hlen : files.length ≤ 206) :
    wp (build files) (fun _ => True)
      (fun _ im => Built (rootEnts (files.map Input.entryName)) files.length im) start := by
  unfold build
  rw [wp_bind, wsect, wp_modify]
  have hstart := sound_start { start with disk := update start.disk 1 superblock }
    (fun b hb => update_of_ne hb _ _) rfl
  refine wp_seq (ialloc_spec hstart.1 (by decide) (by rw [hstart.2]; rfl)) ?_
  rintro i im₁ ⟨hi, hnext, hsound, hvol⟩
  have hroot : i = ROOTINO := hi
  subst hroot
  rw [if_pos rfl]
  have hbuilt : Built [] 0 im₁ := by
    refine ⟨hsound, hnext, ?_, ?_⟩
    · rw [hvol, tree_setDip (by decide) rfl rfl]
      funext j
      by_cases hj : j = ROOTINO
      · rw [hj]
        exact (update_self _ _ _).trans (if_pos rfl).symm
      · have hnone : (Image.vol { start with
            disk := update start.disk 1 superblock }).tree sb j = none := by
          rw [tree_eq_none_iff, hstart.2]
          rfl
        refine (update_of_ne hj _ _).trans (hnone.trans ?_)
        exact ((if_neg hj).trans (if_neg (by simp only [ROOTINO]; omega))).symm
    · rw [hvol, dip_setDip]
      exact congrArg Dinode.size (if_pos rfl)
  refine wp_seq (hbuilt.root (by decide)) ?_
  intro _ im₂ h₂
  refine wp_seq (h₂.root (by decide)) ?_
  intro _ im₃ h₃
  have hroot : Built (rootEnts []) ([] : List (List UInt8)).length im₃ := h₃
  have hfiles := addFiles_spec files hroot (by simpa using hlen)
  rw [List.nil_append, List.length_map] at hfiles
  exact hfiles

end Xv6.Mkfs
