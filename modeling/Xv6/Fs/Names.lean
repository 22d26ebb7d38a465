import Xv6.Fs.Paths

/-!
# Names — the calls that change directories

`create`, `link` and `unlink` as changes of the tree.  A call that has started in `s` is described
by the references that it holds and by its effect on the tree so far.
-/

namespace Xv6.Fs

open Lib Prog Volume
open Function (update update_eq_self update_idem update_of_ne update_self)

variable {sb : Superblock} {s t u : St} {p : Slot} {q dp ip : Ip} {n m : Node} {a : Deed}

/-! ## What a call is to do -/

section

variable (sb : Superblock) (s : St) (p : Slot)

/-- The deed of `create`: the path leads to the directory of the new entry. -/
def St.creation (path : List UInt8) (kind : FileType) : Deed :=
  (s.resolve sb p path true).elim .none fun x => .create x.1 x.2.str kind

def St.linking (old new : List UInt8) : Deed :=
  (s.resolve sb p old false).elim .none fun x =>
    (s.resolve sb p new true).elim .none fun y => .link y.1 y.2.str x.1

def St.unlinking (path : List UInt8) : Deed :=
  (s.resolve sb p path true).elim .none fun x =>
    ((s.vol.tree sb x.1).bind (·.lookup x.2.str)).elim .none (.unlink x.1 x.2.str)

/-- What a call is to do, as the state before it has it. -/
def Call.deed : Call → Deed
  | .open p path omode => (argstr path).elim .none fun path =>
      if omode &&& O_CREATE ≠ 0 then s.creation sb p path .file else .none
  | .mkdir p path => (argstr path).elim .none (s.creation sb p · .dir)
  | .mknod p path _ _ => (argstr path).elim .none (s.creation sb p · .device)
  | .link p old new => (argstr old).elim .none fun old =>
      (argstr new).elim .none (s.linking sb p old)
  | .unlink p path => (argstr path).elim .none (s.unlinking sb p)
  | _ => .none

end

/-! ## A call on its way -/

/-- The root directory is there and has links, and no link count has overflowed. -/
structure Sane (sb : Superblock) (s : St) : Prop where
  root : ∃ n, s.vol.tree sb ROOTINO = some n ∧ n.nlink ≠ 0
  nlink : ∀ i n, s.vol.tree sb i = some n → 0 ≤ n.nlink ∧ n.nlink < 2 ^ 15

/-- A call that is to do `a` has come from `s` to `t` and holds `δ` references. -/
structure Mid (sb : Superblock) (a : Deed) (s t : St) (δ : Ip → Int) : Prop
    extends Track sb s t δ where
  effect : Sane sb s → Tended sb s →
    Effect sb.ninodes a (s.vol.tree sb) s.gen (t.vol.tree sb) t.gen ∧ Tended sb t

section

variable {δ δ' : Ip → Int}

theorem Walk.mid (h : Walk sb s t δ) : Mid sb a s t δ :=
  ⟨h.toTrack, fun _ htended => ⟨h.gen ▸ .of_frees h.frees, h.tended htended⟩⟩

theorem Mid.walk (h : Mid sb a s t δ) (h' : Walk sb t u δ') : Mid sb a s u (δ + δ') := by
  refine ⟨h.toTrack.trans h'.toTrack, fun hsane htended => ?_⟩
  rcases h.effect hsane htended with ⟨heffect, ht⟩
  exact ⟨h'.gen ▸ heffect.trans_frees h'.frees, h'.tended ht⟩

theorem Mid.put (h : Mid sb a s t δ) (hq : 0 < δ q) (hp : Put sb q t u) :
    Mid sb a s u (δ - one q) := by
  refine ⟨h.toTrack.put hq hp, fun hsane htended => ?_⟩
  rcases h.effect hsane htended with ⟨heffect, ht⟩
  exact ⟨hp.gen ▸ heffect.trans_frees hp.frees, hp.tended ht⟩

theorem mid_iunlockput (hs : Stable sb s) (h : Mid sb a s t δ) (hq : 0 < δ q) :
    wp (iunlockput sb q) Benign (fun _ u => Mid sb a s u (δ - one q)) t :=
  wp_post (iunlockput_spec h.stable (h.toTrack.held hs hq)) fun _ _ hput => h.put hq hput

theorem mid_release (hs : Stable sb s) (h : Mid sb a s t (one q)) :
    wp (iunlockput sb q) Benign (fun _ u => Mid sb a s u 0) t :=
  sub_self (one q) ▸ mid_iunlockput hs h (one_self_pos q)

/-- Opening or closing a log operation changes nothing that is described here. -/
theorem walk_op (hs : Stable sb s) (o : Option (Finset Nat)) : Walk sb s { s with op := o } 0 :=
  .of_vol_eq hs rfl rfl rfl rfl rfl (fun _ => Int.le_refl _) (fun _ => (Int.add_zero _).symm)
    (fun _ _ => ⟨rfl, id⟩) hs.unique (fun q hq hv => ⟨hs.coherent q hq hv, hs.typed q hq hv⟩)
    fun hfirm => hfirm.table

theorem Walk.op (h : Walk sb s t δ) (o : Option (Finset Nat)) : Walk sb s { t with op := o } δ :=
  h.still (walk_op h.stable o)

theorem Mid.op (h : Mid sb a s t δ) (o : Option (Finset Nat)) : Mid sb a s { t with op := o } δ :=
  add_zero δ ▸ h.walk (walk_op h.stable o)

end

theorem Frees.update {T T' : Tree} (h : Frees T T') (i : Nat) (x : Option Node) :
    Frees (update T i x) (update T' i x) := by
  intro j
  by_cases hj : j = i
  · subst hj
    exact .inl (by rw [update_self, update_self])
  · rw [update_of_ne hj, update_of_ne hj]
    exact h j

/-! ## Directories in hand -/

/-- A directory stays in hand while its node does. -/
theorem Dir.of_track {δ : Ip → Int} (h : Dir sb s q n) (ht : Track sb s t δ)
    (hnode : t.vol.tree sb (s.itable q).inum = some m) (hkind : m.kind = .dir) : Dir sb t q m :=
  ⟨ht.stable, ht.ref_pos h.ref, (ht.valid q h.ref h.valid).1, by rw [ht.inum q h.ref, hnode], hkind⟩

variable {name : Name} {k : Nat} {type : FileType} {major minor x : Int}

theorem Linked.tree {i : Nat} (h : Linked sb q n name i k s t) :
    t.vol.tree sb = update (s.vol.tree sb) (s.itable q).inum (some { n with
      ents := setEnt n.ents k { inum := i % 2 ^ 16, name := name.str } }) :=
  h.toEdit.tree h.node

theorem Linked.room {i : Nat} (hd : Dir sb s q n)
    (h : Linked sb q n name i k s t) : Room n k name.str :=
  ⟨hd.kind, h.le, h.empty, h.fresh⟩

/-- A call that locks an inode which is in the tree does not find it free. -/
theorem ilock_benign (hs : Stable sb s) (hnode : s.vol.tree sb (s.itable q).inum ≠ none) :
    wp (ilock sb q) Benign (fun _ t => Walk sb s t 0 ∧ t.vol = s.vol ∧
      0 < (s.itable q).ref ∧ (t.itable q).valid = true ∧ (s.itable q).lock = false ∧
      (t.itable q).lock = true) s :=
  wp_mono (ilock_spec hs) (fun _ he => ⟨he.1, fun hno => hnode (he.2 hno).2.2⟩) fun _ _ h => h

/-! ## `create` -/

/-- `createLinks` has made the entries of the new inode `ip`, or some of its own ones only. -/
theorem createLinks_spec (name : Name) (hd : Dir sb s dp n)
    (href : 0 < (s.itable ip).ref) (hvalid : (s.itable ip).valid = true)
    (hnode : s.vol.tree sb (s.itable ip).inum = some { kind := type, nlink := 1, ents := [] })
    (hne : (s.itable ip).inum ≠ (s.itable dp).inum) (hpos : (s.itable ip).inum % 2 ^ 16 ≠ 0) :
    wp (createLinks sb dp ip name type) Benign (fun r t => Track sb s t 0 ∧ t.gen = s.gen ∧
      (Tended sb s → Tended sb t) ∧
      ((r = false ∧ ∃ es, Frees (update (s.vol.tree sb) (s.itable ip).inum
          (some { kind := type, nlink := 1, ents := es })) (t.vol.tree sb)) ∨
        r = true ∧ ∃ k, Room n k name.str ∧ t.vol.tree sb = update
          (update (s.vol.tree sb) (s.itable ip).inum
            (some (newNode type (s.itable ip).inum (s.itable dp).inum))) (s.itable dp).inum
          (some { n with
            ents := setEnt n.ents k { inum := (s.itable ip).inum % 2 ^ 16, name := name.str } })))
      s := by
  unfold createLinks
  simp only [wp_bind, wp_gets]
  have hself : update (s.vol.tree sb) (s.itable ip).inum
      (some { kind := type, nlink := 1, ents := [] }) = s.vol.tree sb := by
    rw [← hnode, update_eq_self]
  split
  · rename_i hdir
    subst hdir
    have hip : Dir sb s ip { kind := .dir, nlink := 1, ents := [] } :=
      ⟨hd.stable, href, hvalid, hnode, rfl⟩
    rw [wp_bind]
    refine wp_post (dirlink_spec hip) ?_
    rintro r t (⟨rfl, hwalk⟩ | ⟨rfl, k, hdot⟩)
    · exact ⟨hwalk.toTrack, hwalk.gen, hwalk.tended,
        .inl ⟨rfl, [], by rw [hself]; exact hwalk.frees⟩⟩
    -- The new directory has `.`.
    have htree := hdot.tree
    have hnode₁ := hdot.node
    have hk : k = 0 := Nat.le_zero.1 hdot.le
    subst hk
    have hip₁ := hip.of_track hdot.toTrack hnode₁ rfl
    have hinum := hdot.toTrack.inum ip href
    rw [if_pos rfl, wp_bind]
    refine wp_post (dirlink_spec hip₁) ?_
    rintro r u (⟨rfl, hwalk⟩ | ⟨rfl, k, hdotdot⟩)
    · have htrack := hdot.toTrack.still hwalk.toTrack
      refine ⟨htrack, hwalk.gen.trans hdot.gen, fun h => hwalk.tended (hdot.tended h),
        .inl ⟨rfl, [{ inum := (s.itable ip).inum % 2 ^ 16, name := dot }], ?_⟩⟩
      have hfrees := hwalk.frees
      rw [htree] at hfrees
      exact hfrees
    -- And `..`, behind it.
    have htree' := hdotdot.tree
    rw [hinum, htree, update_idem] at htree'
    have hk : k = 1 := by
      have hle := hdotdot.le
      have hempty := hdotdot.empty
      rcases Nat.lt_or_ge k 1 with hlt | hge
      · obtain rfl : k = 0 := by omega
        exact absurd (hempty _ rfl) hpos
      · simp only [setEnt, List.length_nil, Nat.lt_irrefl, if_false, List.nil_append,
          List.length_singleton] at hle
        omega
    subst hk
    have htrack := hdot.toTrack.still hdotdot.toTrack
    have hd₂ : Dir sb u dp n := by
      refine hd.of_track htrack ?_ hd.kind
      rw [htree', update_of_ne (Ne.symm hne), hd.node]
    have hnew : u.vol.tree sb = update (s.vol.tree sb) (s.itable ip).inum
        (some (newNode .dir (s.itable ip).inum (s.itable dp).inum)) := htree'
    rw [if_pos rfl]
    refine wp_post (dirlink_spec hd₂) ?_
    rintro r x (⟨rfl, hwalk⟩ | ⟨rfl, k, hlink⟩)
    · have hall := htrack.still hwalk.toTrack
      refine ⟨hall, hwalk.gen.trans (hdotdot.gen.trans hdot.gen),
        fun h => hwalk.tended (hdotdot.tended (hdot.tended h)),
        .inl ⟨rfl, (newNode .dir (s.itable ip).inum (s.itable dp).inum).ents, ?_⟩⟩
      have hfrees := hwalk.frees
      rw [hnew] at hfrees
      exact hfrees
    · have hall := htrack.still hlink.toTrack
      refine ⟨hall, hlink.gen.trans (hdotdot.gen.trans hdot.gen),
        fun h => hlink.tended (hdotdot.tended (hdot.tended h)),
        .inr ⟨rfl, k, hlink.room hd₂, ?_⟩⟩
      rw [hlink.tree, hnew, htrack.inum dp hd.ref]
  · rename_i hdir
    refine wp_post (dirlink_spec hd) ?_
    rintro r t (⟨rfl, hwalk⟩ | ⟨rfl, k, hlink⟩)
    · exact ⟨hwalk.toTrack, hwalk.gen, hwalk.tended,
        .inl ⟨rfl, [], by rw [hself]; exact hwalk.frees⟩⟩
    · refine ⟨hlink.toTrack, hlink.gen, hlink.tended, .inr ⟨rfl, k, hlink.room hd, ?_⟩⟩
      rw [hlink.tree, newNode, if_neg hdir, hself]

/-- From `s` to `t` a new inode `i` has been made, with one link to come, and is locked. -/
structure Born (sb : Superblock) (type : FileType) (ip : Ip) (i : Nat) (s t : St) : Prop
    extends Track sb s t (one ip) where
  pos : 0 < i
  lt : i < sb.ninodes
  free : s.vol.tree sb i = none
  entry : (t.itable ip).inum = i
  ready : (t.itable ip).valid = true
  tree : t.vol.tree sb = update (s.vol.tree sb) i (some { kind := type, nlink := 1, ents := [] })
  gen : t.gen = update s.gen i (s.gen i + 1)
  tended : Tended sb s → Tended sb t

theorem wp_born {β : Type} {i : Nat} {g : M β}
    {E : Panic → Prop} {Q : β → St → Prop} (hf : Fresh sb type ip i s t)
    (hE : ∀ e, Benign e → E e) (hg : ∀ u, Born sb type ip i s u → wp g E Q u) :
    wp (do
      ilock sb ip
      setCopy ip fun d => { d with major := major, minor := minor, nlink := 1 }
      iupdate sb ip
      g) E Q t := by
  have hnew : t.vol.tree sb (t.itable ip).inum = some { kind := type, nlink := 0, ents := [] } := by
    rw [hf.entry, hf.tree, update_self]
  refine wp_call (ilock_benign hf.stable (by simp [hnew])) ?_ hE
  rintro _ t₁ ⟨hwalk, hvol, href, hvalid, _⟩
  have htrack := hf.toTrack.still hwalk.toTrack
  have href₁ := hwalk.ref_pos href
  have hinum : (t₁.itable ip).inum = i := by rw [hwalk.inum ip href, hf.entry]
  -- The new inode has no links yet, but it is in the table with its copy valid.
  have htended : Tended sb s → Tended sb t₁ := by
    intro h j k hj hk
    rw [hvol, hf.tree] at hj
    by_cases hji : j = i
    · exact ⟨ip, href₁, hinum.trans hji.symm, hvalid⟩
    · rw [update_of_ne hji] at hj
      rcases h j k hj hk with ⟨x, hx, rfl, hv⟩
      exact ⟨x, htrack.ref_pos hx, htrack.inum x hx, (htrack.valid x hx hv).1⟩
  refine wp_relink (n := { kind := type, nlink := 0, ents := [] }) hwalk.stable href₁ hvalid
    (fun _ => ⟨rfl, rfl, rfl⟩) ?_ hE ?_
  · rw [hvol, hwalk.inum ip href, hnew]
  · intro u hedit htree
    refine hg u ⟨htrack.still hedit.toTrack, hf.pos, hf.lt, hf.free, ?_,
      (hedit.valid ip href₁ hvalid).1, ?_, ?_, fun h => hedit.tended (htended h)⟩
    · rw [hedit.inum ip href₁, hinum]
    · rw [htree, hinum, hvol, hf.tree, update_idem]
    · rw [hedit.gen, hwalk.gen, hf.gen]

/-- Every entry in use has been locked before, but for the root's. -/
def Settled (s : St) : Prop :=
  ∀ q, 0 < (s.itable q).ref → (s.itable q).valid = true ∨ (s.itable q).inum = ROOTINO

/-- An inode that was free before a call is not in the table when it has ended. -/
theorem Settled.ne {δ : Ip → Int} {i : Nat} (h : Settled s) (hsane : Sane sb s)
    (hw : Walk sb s t δ) (hfree : t.vol.tree sb i = none) (hq : 0 < (s.itable q).ref) :
    (s.itable q).inum ≠ i := by
  rintro rfl
  rcases h q hq with hvalid | hinum
  · rw [← hw.inum q hq] at hfree
    rcases hw.stable.node (hw.ref_pos hq) (hw.valid q hq hvalid).1 with ⟨k, hk, _⟩
    rw [hk] at hfree
    cases hfree
  · rcases hsane.root with ⟨k, hk, hlink⟩
    rw [hinum, hw.frees.some_of_ne hk hlink] at hfree
    cases hfree

/-- A `create` that fails leaves nothing behind: the inode it made is free again. -/
theorem mid_of_failed {i : Nat} {k : Node} (hsettled : Settled s) (hw : Walk sb s t (one dp))
    (htrack : Track sb s u 0) (hfree : t.vol.tree sb i = none)
    (htree : Frees (update (t.vol.tree sb) i (some k)) (u.vol.tree sb))
    (hk : k.nlink = 0) (hgen : u.gen = update t.gen i (t.gen i + 1))
    (htended : Tended sb t → Tended sb u) : Mid sb a s u 0 := by
  refine ⟨htrack, fun hsane hs => ?_⟩
  have hu := htended (hw.tended hs)
  refine ⟨⟨t.vol.tree sb, t.vol.tree sb, hw.frees, .none, ?_, ?_, ?_⟩, hu⟩
  · intro j
    by_cases hj : j = i
    · subst hj
      rw [hfree]
      refine .inl ?_
      rcases htree j with heq | ⟨hnone, _⟩
      · rw [update_self] at heq
        rcases hu j k heq hk with ⟨x, hx, hinum, _⟩
        have href := htrack.ref x
        simp only [Pi.zero_apply, Int.add_zero] at href
        rw [href] at hx
        rw [htrack.inum x hx] at hinum
        exact absurd hinum (hsettled.ne hsane hw hfree hx)
      · exact hnone
    · have hj' := htree j
      rwa [update_of_ne hj] at hj'
  · intro x
    rw [hgen, hw.gen]
    by_cases hx : x = i
    · subst hx
      rw [update_self]
      exact .inr ⟨Nat.lt_succ_self _, hfree⟩
    · exact .inl (update_of_ne hx ..)
  · exact fun _ hnone hsome => absurd hnone hsome

/-- What `create` returns: an inode that is locked, or nothing. -/
def Made (sb : Superblock) (a : Deed) (s : St) (P : FileType → Prop) (r : Option Ip)
    (t : St) : Prop :=
  r = none ∧ Mid sb a s t 0 ∨ ∃ ip, r = some ip ∧ Mid sb a s t (one ip) ∧
    (t.itable ip).valid = true ∧
      P (t.itable ip).copy.type

theorem mid_of_created {name : List UInt8} {i : Nat}
    (hw : Walk sb s t (one dp)) (htrack : Track sb s u (one dp + one ip)) (hpos : 0 < i)
    (hlt : i < sb.ninodes) (hfree : t.vol.tree sb i = none) (htype : type ≠ .free)
    (hd : t.vol.tree sb (t.itable dp).inum = some n) (hroom : Room n k name)
    (htree : u.vol.tree sb = update (update (t.vol.tree sb) i
      (some (newNode type i (t.itable dp).inum))) (t.itable dp).inum
      (some { n with
        nlink := if type = .dir then short (n.nlink + 1) else n.nlink
        ents := setEnt n.ents k { inum := i % 2 ^ 16, name := name } }))
    (hgen : u.gen = update t.gen i (t.gen i + 1)) (htended : Tended sb t → Tended sb u)
    (ha : a = .create (t.itable dp).inum name type) : Mid sb a s u (one dp + one ip) := by
  refine ⟨htrack, fun _ hs => ⟨⟨t.vol.tree sb, u.vol.tree sb, hw.frees, ?_, .refl _, ?_, ?_⟩,
    htended (hw.tended hs)⟩⟩
  · rw [htree, ha]
    exact .create hd hroom hfree hpos hlt htype
  · intro x
    rw [hgen, hw.gen]
    by_cases hx : x = i
    · subst hx
      rw [update_self]
      exact .inr ⟨Nat.lt_succ_self _, hfree⟩
    · exact .inl (update_of_ne hx ..)
  · intro x hnone hsome
    by_cases hx : x = i
    · subst hx
      rw [hgen, hw.gen, update_self]
      exact Nat.lt_succ_self _
    · by_cases hxd : x = (t.itable dp).inum
      · rw [hxd, hd] at hnone
        cases hnone
      · rw [htree, update_of_ne hxd, update_of_ne hx] at hsome
        exact absurd hnone hsome

theorem createNew_spec (hs : Stable sb s)
    (hsettled : Settled s) (hw : Walk sb s t (one dp)) (hd : Dir sb t dp n)
    (htype : type ≠ .free) (ha : a = .create (t.itable dp).inum name.str type) :
    wp (createNew sb dp name type major minor) (Blame sb s) (Made sb a s (· = type)) t := by
  unfold createNew
  refine wp_call (ialloc_spec hd.stable htype) ?_ fun _ he => he.blame sb s
  rintro _ t₁ (⟨rfl, rfl⟩ | ⟨ip, i, rfl, hfresh⟩)
  · exact wp_seq (walk_release hs hw) fun _ _ hu => .inl ⟨rfl, hu.mid⟩
  refine wp_born hfresh (fun _ he => he.blame sb s) fun t₂ hborn => ?_
  have hlt : i % 2 ^ 16 = i := Nat.mod_eq_of_lt (Nat.lt_of_lt_of_le hborn.lt sb.ninodes_le)
  have hpos := hborn.pos
  have hne : i ≠ (t.itable dp).inum := by
    rintro rfl
    have hnode := hd.node
    rw [hborn.free] at hnode
    cases hnode
  have hinum : (t₂.itable dp).inum = (t.itable dp).inum := hborn.toTrack.inum dp hd.ref
  have hd₂ : Dir sb t₂ dp n := by
    refine hd.of_track hborn.toTrack ?_ hd.kind
    rw [hborn.tree, update_of_ne (Ne.symm hne), hd.node]
  have hip₂ : 0 < (t₂.itable ip).ref := hborn.toTrack.held hd.stable (one_self_pos ip)
  refine wp_call (createLinks_spec name hd₂ hip₂ hborn.ready
    (by rw [hborn.entry, hborn.tree, update_self]) (by rw [hborn.entry, hinum]; exact hne)
    (by rw [hborn.entry, hlt]; omega)) ?_ fun _ he => he.blame sb s
  rintro ok t₃ ⟨htrack, hgen, htended, hok⟩
  rw [hborn.entry, hinum, hborn.tree] at hok
  simp only [update_idem] at hok
  have htrack₃ := (hw.toTrack.trans hborn.toTrack).still htrack
  have hgen₃ : t₃.gen = update t.gen i (t.gen i + 1) := hgen.trans hborn.gen
  have htended₃ : Tended sb t → Tended sb t₃ := fun h => htended (hborn.tended h)
  have hip₃ : 0 < (t₃.itable ip).ref := htrack.ref_pos hip₂
  have hvalid₃ := (htrack.valid ip hip₂ hborn.ready).1
  have hentry₃ : (t₃.itable ip).inum = i := by rw [htrack.inum ip hip₂, hborn.entry]
  rcases hok with ⟨rfl, es, hfrees⟩ | ⟨rfl, k, hroom, htree⟩
  · -- Something went wrong: the inode loses its link and is freed when it is put.
    rw [if_neg Bool.false_ne_true]
    have hnode : t₃.vol.tree sb (t₃.itable ip).inum =
        some { kind := type, nlink := 1, ents := es } := by
      rw [hentry₃]
      exact hfrees.some_of_ne (update_self ..) (by simp)
    refine wp_relink htrack.stable hip₃ hvalid₃ (fun _ => ⟨rfl, rfl, rfl⟩) hnode
      (fun _ he => he.blame sb s) fun t₄ hedit htree₄ => ?_
    rw [hentry₃] at htree₄
    have htrack₄ := htrack₃.still hedit.toTrack
    have hfrees₄ := hfrees.update i (some { kind := type, nlink := 0, ents := es })
    rw [update_idem, ← htree₄] at hfrees₄
    have hpos' := one_add_right_pos dp ip
    refine wp_call (iunlockput_spec htrack₄.stable (htrack₄.held hs hpos')) ?_
      fun _ he => he.blame sb s
    intro _ t₅ hput
    have htrack₅ := htrack₄.put hpos' hput
    rw [add_sub_cancel_right] at htrack₅
    refine wp_call (iunlockput_spec htrack₅.stable (htrack₅.held hs (one_self_pos dp))) ?_
      fun _ he => he.blame sb s
    intro _ u hput'
    have htrack₆ := htrack₅.put (one_self_pos dp) hput'
    rw [sub_self] at htrack₆
    refine .inl ⟨rfl, mid_of_failed hsettled hw htrack₆ hborn.free
      ((hfrees₄.trans hput.frees).trans hput'.frees) rfl ?_ ?_⟩
    · rw [hput'.gen, hput.gen, hedit.gen, hgen₃]
    · exact fun h => hput'.tended (hput.tended (hedit.tended (htended₃ h)))
  · rw [if_pos rfl]
    have hinum₃ : (t₃.itable dp).inum = (t.itable dp).inum := by
      rw [htrack.inum dp hd₂.ref, hinum]
    have hnode₃ : t₃.vol.tree sb (t₃.itable ip).inum =
        some (newNode type i (t.itable dp).inum) := by
      rw [hentry₃, htree, update_of_ne hne, update_self]
    have htype₃ : (t₃.itable ip).copy.type = type := by
      rcases htrack.stable.node hip₃ hvalid₃ with ⟨k', hk', hkind, _⟩
      rw [hnode₃] at hk'
      cases hk'
      exact hkind.symm
    -- The directory is given back; the new inode stays locked.
    have hrest : ∀ t₄, Mid sb a s t₄ (one dp + one ip) → (t₄.itable ip).valid = true →
        (t₄.itable ip).copy.type = type →
        wp (do iunlockput sb dp; pure (some ip)) (Blame sb s) (Made sb a s (· = type)) t₄ := by
      intro t₄ hmid hvalid htype'
      have hpos' := one_add_left_pos dp ip
      refine wp_call (iunlockput_spec hmid.stable (hmid.toTrack.held hs hpos')) ?_
        fun _ he => he.blame sb s
      intro _ u hput
      have hmid' := hmid.put hpos' hput
      rw [add_sub_cancel_left] at hmid'
      rcases hput.valid ip (hmid'.toTrack.held hs (one_self_pos ip)) hvalid with ⟨hv, hkind⟩
      exact .inr ⟨ip, rfl, hmid', hv, hkind.trans htype'⟩
    split
    · rename_i hdir
      have hnode : t₃.vol.tree sb (t₃.itable dp).inum = some { n with
          ents := setEnt n.ents k { inum := i % 2 ^ 16, name := name.str } } := by
        rw [hinum₃, htree, update_self]
      have href₃ := htrack.ref_pos hd₂.ref
      have hvalid' := (htrack.valid dp hd₂.ref hd₂.valid).1
      have hnlink : (t₃.itable dp).copy.nlink = n.nlink := by
        rw [htrack.stable.coherent dp href₃ hvalid', ← (tree_eq_some hnode).2.2.1]
      refine wp_relink htrack.stable href₃ hvalid' (fun _ => ⟨rfl, rfl, rfl⟩) hnode
        (fun _ he => he.blame sb s) fun t₄ hedit htree₄ => ?_
      rcases hedit.valid ip hip₃ hvalid₃ with ⟨hv, hkind⟩
      refine hrest t₄ (mid_of_created hw (htrack₃.still hedit.toTrack) hpos hborn.lt hborn.free
        htype hd.node hroom ?_ (hedit.gen.trans hgen₃) (fun h => hedit.tended (htended₃ h)) ha) hv
        (hkind.trans htype₃)
      rw [htree₄, hinum₃, htree, update_idem, if_pos hdir, hnlink]
    · rename_i hdir
      refine hrest t₃ (mid_of_created hw htrack₃ hpos hborn.lt hborn.free htype hd.node hroom ?_
        hgen₃ htended₃ ha) hvalid₃ htype₃
      rw [htree, if_neg hdir]

theorem createFound_spec (hs : Stable sb s) (hw : Walk sb s t (one dp + one ip)) :
    wp (createFound sb dp ip type) (Blame sb s)
      (Made sb a s fun k => type = .file ∧ (k = .file ∨ k = .device)) t := by
  unfold createFound
  have hpos := one_add_left_pos dp ip
  refine wp_seq (walk_iunlockput hs hw hpos) ?_
  intro _ t₁ hw₁
  rw [add_sub_cancel_left] at hw₁
  refine wp_seq (ilock_blame hw₁) ?_
  rintro _ t₂ ⟨hw₂, _, _, _, hvalid, _⟩
  rw [wp_bind, wp_gets]
  split
  · rename_i htype
    exact .inr ⟨ip, rfl, hw₂.mid, hvalid, htype⟩
  · exact wp_seq (walk_release hs hw₂) fun _ _ hu => .inl ⟨rfl, hu.mid⟩

/-- `create`, after the log operation was opened. -/
theorem create_spec {path : List UInt8} (hs : Stable sb s)
    (hsettled : Settled s) (hw : Walk sb s t 0) (htype : type ≠ .free)
    (hcwd : ∀ q, (s.proc p).cwd = some q → 0 < (s.itable q).ref) :
    wp (create sb p path type major minor) (Blame sb s)
      (Made sb (s.creation sb p path type) s fun k => k = type ∨ type = .file ∧ k = .device) t := by
  unfold create
  refine wp_seq (nameiparent_spec hw hcwd) ?_
  rintro _ t₁ (⟨rfl, hw₁⟩ | ⟨dp, name, rfl, hw₁, hpath, hvalid₁, htype₁⟩)
  · exact .inl ⟨rfl, hw₁.mid⟩
  refine wp_seq (ilock_blame hw₁) ?_
  rintro _ t₂ ⟨hw₂, hlock, _, href, hvalid, _⟩
  have ha : s.creation sb p path type = .create (t₂.itable dp).inum name.str type := by
    rw [St.creation, hpath, hlock.inum dp href]
    rfl
  have hdir := (hlock.valid dp href hvalid₁).2.trans htype₁
  rcases hw₂.stable.dir (hlock.ref_pos href) hvalid hdir with ⟨n, hd⟩
  refine wp_call (dirlookup_spec hd) ?_ fun _ he => he.blame sb s
  rintro _ t₃ (⟨rfl, rfl, _⟩ | ⟨ip, k, rfl, hfound⟩)
  · refine wp_post (createNew_spec hs hsettled hw₂ hd htype ha) ?_
    rintro r u (hnone | ⟨ip, hr, hmid, hv, hkind⟩)
    · exact .inl hnone
    · exact .inr ⟨ip, hr, hmid, hv, .inl hkind⟩
  · refine wp_post (createFound_spec (a := s.creation sb p path type) hs
      (hw₂.trans hfound.toWalk)) ?_
    rintro r u (hnone | ⟨ip, hr, hmid, hv, hfile, hkind⟩)
    · exact .inl hnone
    · exact .inr ⟨ip, hr, hmid, hv, hkind.imp (fun h => h.trans hfile.symm) fun h => ⟨hfile, h⟩⟩

/-! ## `link` -/

theorem short_add_one_ne_zero (h : 0 ≤ x ∧ x < 2 ^ 15) : short (x + 1) ≠ 0 := by
  simp only [short, Int.bmod]
  split <;> omega

theorem short_sub_one (h : 0 ≤ x ∧ x < 2 ^ 15) : short (short (x + 1) - 1) = x := by
  simp only [short, Int.bmod]
  split <;> split <;> omega

/-- The panics of a call: a free inode is locked only if something named or referred to was not
allocated, or a link count had overflowed. -/
def Fault (sb : Superblock) (s : St) (e : Panic) : Prop :=
  e ≠ .freeingFreeBlock ∧ (e = .ilockNoType → Firm sb s → ¬ Sane sb s)

theorem Benign.fault {e : Panic} (h : Benign e) (sb : Superblock) (s : St) : Fault sb s e :=
  ⟨h.1, fun he => absurd he h.2⟩

theorem Blame.fault {e : Panic} (h : Blame sb s e) : Fault sb s e :=
  ⟨h.1, fun he hfirm => absurd hfirm (h.2 he)⟩

/-- A call of `link` has come from `s` to `t`: inode `i`, which was `m`, is in entry `ip` and has
one link more. -/
structure Bumped (sb : Superblock) (ip : Ip) (i : Nat) (m : Node) (s t : St) (δ : Ip → Int) : Prop
    extends Track sb s t δ where
  gen : t.gen = s.gen
  entry : (t.itable ip).inum = i
  ready : (t.itable ip).valid = true
  node : t.vol.tree sb i = some { m with nlink := short (m.nlink + 1) }
  undo : Frees (s.vol.tree sb) (update (t.vol.tree sb) i (some m))
  tended : Tended sb s → Tended sb t

namespace Bumped

variable {i : Nat} {δ δ' : Ip → Int}

/-- The inode stays while the call holds it. -/
theorem of_frees {δ : Ip → Int} (h : Bumped sb ip i m s t δ) (htrack : Track sb s u δ')
    (hgen : u.gen = t.gen) (href : 0 < (u.itable ip).ref) (hinum : (u.itable ip).inum = i)
    (hvalid : (u.itable ip).valid = true) (hfrees : Frees (t.vol.tree sb) (u.vol.tree sb))
    (htended : Tended sb t → Tended sb u) : Bumped sb ip i m s u δ' := by
  refine ⟨htrack, hgen.trans h.gen, hinum, hvalid, ?_, h.undo.trans (hfrees.update i _),
    fun hs => htended (h.tended hs)⟩
  rcases htrack.stable.node href hvalid with ⟨k, hk, _⟩
  rw [hinum] at hk
  rw [hk, ← h.node, hfrees.of_some hk]

theorem walk (h : Bumped sb ip i m s t δ) (href : 0 < (t.itable ip).ref)
    (hw : Walk sb t u δ') : Bumped sb ip i m s u (δ + δ') :=
  h.of_frees (h.toTrack.trans hw.toTrack) hw.gen (hw.ref_pos href)
    ((hw.inum ip href).trans h.entry) (hw.valid ip href h.ready).1 hw.frees hw.tended

theorem still (h : Bumped sb ip i m s t δ) (href : 0 < (t.itable ip).ref)
    (hw : Walk sb t u 0) : Bumped sb ip i m s u δ :=
  add_zero δ ▸ h.walk href hw

theorem put (hs : Stable sb s) (h : Bumped sb ip i m s t δ) (hq : 0 < δ q)
    (hip : 0 < (δ - one q) ip) (hp : Put sb q t u) : Bumped sb ip i m s u (δ - one q) := by
  have htrack := h.toTrack.put hq hp
  have href := htrack.held hs hip
  have href' : 0 < (t.itable ip).ref := by
    have hr := hp.ref ip
    have hone := one_nonneg q ip
    omega
  exact h.of_frees htrack hp.gen href ((hp.inum ip href').trans h.entry)
    (hp.valid ip href h.ready).1 hp.frees hp.tended

end Bumped

theorem linkBad_spec {i : Nat} (hs : Stable sb s) (hm : Sane sb s → 0 ≤ m.nlink ∧ m.nlink < 2 ^ 15)
    (h : Bumped sb ip i m s t (one ip)) :
    wp (linkBad sb ip) Benign (fun _ u => Mid sb a s u 0) t := by
  unfold linkBad
  have href := h.toTrack.held hs (one_self_pos ip)
  refine wp_seq (ilock_benign h.stable (by simp [h.entry, h.node])) ?_
  rintro _ t₁ ⟨hlock, _, _, hvalid, _⟩
  have h₁ := h.still href hlock
  have href₁ := hlock.ref_pos href
  have hcopy : (t₁.itable ip).copy.nlink = short (m.nlink + 1) := by
    rcases h₁.stable.node href₁ hvalid with ⟨k, hk, _, hnlink⟩
    rw [h₁.entry, h₁.node] at hk
    cases hk
    exact hnlink.symm
  refine wp_relink h₁.stable href₁ hvalid (fun _ => ⟨rfl, rfl, rfl⟩)
    (by rw [h₁.entry, h₁.node]) (fun _ he => he) fun t₂ hedit htree => ?_
  have hmid : Mid sb a s t₂ (one ip) := by
    refine ⟨h₁.toTrack.still hedit.toTrack, fun hsane hs => ⟨?_, hedit.tended (h₁.tended hs)⟩⟩
    simp only [h₁.entry, hcopy, short_sub_one (hm hsane)] at htree
    rw [hedit.gen, h₁.gen, htree]
    exact .of_frees h₁.undo
  exact wp_seq (mid_release hs hmid) fun _ _ hu => hu.op none

/-- The new entry makes up for the link that was counted before. -/
theorem mid_of_linked {i : Nat} {δ : Ip → Int} (h : Bumped sb ip i m s t δ)
    (hkind : m.kind ≠ .dir) (hd : Dir sb t dp n) (hlink : Linked sb dp n name i k t u)
    (ha : a = .link (t.itable dp).inum name.str i) : Mid sb a s u δ := by
  have hne : (t.itable dp).inum ≠ i := by
    intro heq
    have hnode := hd.node
    rw [heq, h.node] at hnode
    cases hnode
    exact hkind hd.kind
  have hchange : update (update (update (t.vol.tree sb) i (some m)) i
        (some { m with nlink := short (m.nlink + 1) })) (t.itable dp).inum
      (some { n with ents := setEnt n.ents k { inum := i % 2 ^ 16, name := name.str } }) =
      u.vol.tree sb := by
    rw [hlink.tree, update_idem, ← h.node, update_eq_self]
  have htrack := h.toTrack.still hlink.toTrack
  refine ⟨htrack, fun _ hs => ⟨⟨_, u.vol.tree sb, h.undo, ?_, .refl _, ?_, ?_⟩,
    hlink.tended (h.tended hs)⟩⟩
  · rw [← hchange, ha]
    refine .link ?_ (hlink.room hd) (update_self ..) hkind
    rw [update_of_ne hne, hd.node]
  · exact fun x => .inl (by rw [hlink.gen, h.gen])
  · intro x hnone hsome
    by_cases hx : x = i
    · rw [hx, update_self] at hnone
      cases hnone
    · rw [update_of_ne hx] at hnone
      by_cases hxd : x = (t.itable dp).inum
      · rw [hxd, hd.node] at hnone
        cases hnone
      · rw [hlink.other x hxd] at hsome
        exact absurd hnone hsome

/-- A path leads where it did before the link was counted. -/
theorem Bumped.resolve {i : Nat} {δ : Ip → Int} {path : List UInt8} {parent : Bool} {x : Nat × Name}
    (h : Bumped sb ip i m s t δ) (hcwd : ∀ q, (s.proc p).cwd = some q → 0 < (s.itable q).ref)
    (hx : t.resolve sb p path parent = some x) : s.resolve sb p path parent = some x := by
  refine St.resolve_mono h.proc (fun q hq => h.inum q (hcwd q hq)) (fun j n hn => ?_) hx
  by_cases hj : j = i
  · subst hj
    cases Option.some.inj (h.node.symm.trans hn)
    exact ⟨m, h.undo.of_some (update_self ..), rfl, rfl⟩
  · exact ⟨n, h.undo.of_some ((update_of_ne hj ..).trans hn), rfl, rfl⟩

theorem linkNew_spec {new : List UInt8} {i : Nat} (hs : Stable sb s)
    (hm : Sane sb s → 0 ≤ m.nlink ∧ m.nlink < 2 ^ 15) (hkind : m.kind ≠ .dir)
    (h : Bumped sb ip i m s t (one ip)) (hfault : ∀ e, Blame sb t e → Fault sb s e)
    (hcwd : ∀ q, (s.proc p).cwd = some q → 0 < (s.itable q).ref)
    (ha : ∀ y, s.resolve sb p new true = some y → a = .link y.1 y.2.str i) :
    wp (linkNew sb p ip new) (Fault sb s) (fun _ u => Mid sb a s u 0) t := by
  unfold linkNew
  have href := h.toTrack.held hs (one_self_pos ip)
  have hbad : ∀ t, Bumped sb ip i m s t (one ip) →
      wp (linkBad sb ip) (Fault sb s) (fun _ u => Mid sb a s u 0) t := fun t ht =>
    wp_mono (linkBad_spec hs hm ht) (fun _ he => he.fault sb s) fun _ _ h => h
  refine wp_call (nameiparent_spec (.refl h.stable) (h.toTrack.cwd hcwd)) ?_ hfault
  rintro _ t₁ (⟨rfl, hwalk⟩ | ⟨dp, name, rfl, hwalk, hpath, hvalid₁, htype₁⟩)
  · exact hbad t₁ (h.still href hwalk)
  refine wp_call (ilock_blame hwalk) ?_ hfault
  rintro _ t₂ ⟨hboth, hlock, _, hdref, hvalid, _⟩
  have h₂ := h.walk href hboth
  have hdir := (hlock.valid dp hdref hvalid₁).2.trans htype₁
  rcases h₂.stable.dir (hlock.ref_pos hdref) hvalid hdir with ⟨n, hd⟩
  have hpos := one_add_right_pos ip dp
  rw [wp_bind, wp_gets, h₂.entry]
  refine wp_call (dirlink_spec hd) ?_ fun _ he => he.fault sb s
  rintro ok t₃ (⟨rfl, hfail⟩ | ⟨rfl, k, hlink⟩)
  · have h₃ := h₂.still (hboth.ref_pos href) hfail
    refine wp_call (iunlockput_spec h₃.stable (h₃.toTrack.held hs hpos)) ?_
      fun _ he => he.fault sb s
    intro _ t₄ hput
    have h₄ := h₃.put hs hpos (by rw [add_sub_cancel_right]; exact one_self_pos ip) hput
    rw [add_sub_cancel_right] at h₄
    rw [if_neg Bool.false_ne_true]
    exact hbad t₄ h₄
  · have ha' := ha _ (h.resolve hcwd hpath)
    rw [← hlock.inum dp hdref] at ha'
    refine wp_call (mid_iunlockput hs (mid_of_linked h₂ hkind hd hlink ha') hpos) ?_
      fun _ he => he.fault sb s
    intro _ t₄ hmid₄
    rw [add_sub_cancel_right] at hmid₄
    rw [if_pos rfl]
    refine wp_call (iput_spec hmid₄.stable (hmid₄.toTrack.held hs (one_self_pos ip))) ?_
      fun _ he => he.fault sb s
    intro _ u hput'
    have hend := (hmid₄.put (one_self_pos ip) hput').op none
    rw [sub_self] at hend
    exact hend

/-- One link more to an inode in use leaves everything named and allocated. -/
theorem Firm.bump {i : Nat} (h : Firm sb s) (hedit : Edit sb ip s t)
    (hi : (s.itable ip).inum = i) (hnode : s.vol.tree sb i = some m)
    (hnode' : t.vol.tree sb i = some { m with nlink := x }) (hx : x ≠ 0) : Firm sb t := by
  subst hi
  have hold : ∀ j k, t.vol.tree sb j = some k → ∃ k', s.vol.tree sb j = some k' ∧
      k'.ents = k.ents ∧ (k.nlink = 0 → k'.nlink = 0) := by
    intro j k hj
    by_cases hji : j = (s.itable ip).inum
    · subst hji
      rw [hnode'] at hj
      cases hj
      exact ⟨m, hnode, rfl, fun h => absurd h hx⟩
    · exact ⟨k, by rw [← hedit.other j hji, hj], rfl, id⟩
  have hnone : ∀ j, s.vol.tree sb j ≠ none → t.vol.tree sb j ≠ none := by
    intro j hj
    by_cases hji : j = (s.itable ip).inum
    · rw [hji, hnode']
      simp
    · rwa [hedit.other j hji]
  refine ⟨?_, ?_, ?_, ?_⟩
  · intro d k e hd he hne
    rcases hold d k hd with ⟨k', hk', hents, _⟩
    exact hnone _ (h.named d k' e hk' (hents ▸ he) hne)
  · intro d k e l hd he hl hzero
    rcases hold d k hd with ⟨k', hk', hents, _⟩
    rcases hold _ l hl with ⟨l', hl', _, hzero'⟩
    exact h.zero d k' e l' hk' (hents ▸ he) hl' (hzero' hzero)
  · rcases h.root with ⟨k, hk, hlink⟩
    by_cases hroot : ROOTINO = (s.itable ip).inum
    · exact ⟨_, hroot ▸ hnode', hx⟩
    · exact ⟨k, by rw [hedit.other _ hroot, hk], hlink⟩
  · intro q hq
    have href := hedit.ref q
    simp only [Pi.zero_apply, Int.add_zero] at href
    rw [href] at hq
    rw [hedit.inum q hq]
    exact hnone _ (h.table q hq)

theorem sysLink_spec {old new : UserStr} (hs : Stable sb s)
    (hcwd : ∀ q, (s.proc p).cwd = some q → 0 < (s.itable q).ref) :
    wp (sysLink sb p old new) (Fault sb s)
      (fun _ u => Mid sb (Call.deed sb s (.link p old new)) s u 0) s := by
  unfold sysLink
  split
  · rename_i old new hold hnew
    simp only [Call.deed, hold, hnew, Option.elim_some]
    rw [wp_bind, beginOp, wp_modify]
    refine wp_call (namei_spec (walk_op hs (some ∅)) hcwd) ?_ fun _ he => he.fault
    rintro _ t (⟨rfl, hw⟩ | ⟨ip, name, rfl, hw, hpath⟩)
    · exact hw.mid.op none
    refine wp_call (ilock_blame hw) ?_ fun _ he => he.fault
    rintro _ t₁ ⟨hw₁, hlock, _, href, hvalid, _⟩
    rw [← hlock.inum ip href] at hpath
    have href₁ := hlock.ref_pos href
    rcases hw₁.stable.node href₁ hvalid with ⟨m, hm, hkind, hnlink⟩
    rw [wp_bind, wp_gets]
    split
    · exact wp_call (walk_release hs hw₁) (fun _ _ hu => hu.mid.op none) fun _ he => he.fault
    · rename_i htype
      have hmkind : m.kind ≠ .dir := hkind ▸ htype
      have hrange : Sane sb s → 0 ≤ m.nlink ∧ m.nlink < 2 ^ 15 := fun h =>
        h.nlink _ m (hw₁.frees.of_some hm)
      refine wp_relink hw₁.stable href₁ hvalid (fun _ => ⟨rfl, rfl, rfl⟩) hm
        (fun _ he => he.fault sb s) fun t₂ hedit htree => ?_
      rw [← hnlink] at htree
      have hnode := congrFun htree (t₁.itable ip).inum
      rw [update_self] at hnode
      have hbump : Bumped sb ip (t₁.itable ip).inum m s t₂ (one ip) := by
        refine ⟨hw₁.toTrack.still hedit.toTrack, hedit.gen.trans hw₁.gen, hedit.inum ip href₁,
          (hedit.valid ip href₁ hvalid).1, hnode, ?_, fun h => hedit.tended (hw₁.tended h)⟩
        rw [htree, update_idem, ← hm, update_eq_self]
        exact hw₁.frees
      refine wp_call (iunlock_spec hbump.stable) ?_ fun _ he => he.fault sb s
      rintro _ t₃ ⟨hunlock, _⟩
      have h₃ := hbump.still (hedit.ref_pos href₁) hunlock
      refine linkNew_spec hs hrange hmkind h₃ (fun e he => ⟨he.1, fun hno hfirm hsane => ?_⟩)
        hcwd fun y hy => ?_
      · exact he.2 hno (hunlock.firm ((hw₁.firm hfirm).bump hedit rfl hm hnode
          (short_add_one_ne_zero (hrange hsane))))
      · rw [St.linking, hpath, hy]
        rfl
  · exact (Walk.refl hs).mid

/-! ## `unlink` -/

theorem str_zero : Dirent.zero.name.str = [] := by
  decide

/-- The entry and the link of inode `ip` have gone; both inodes are still held. -/
theorem mid_of_unlinked {name : List UInt8} {δ δ' : Ip → Int}
    (hw : Walk sb s t δ) (htrack : Track sb s u δ') (hd : Dir sb t dp n)
    (hm : t.vol.tree sb (t.itable ip).inum = some m)
    (hent : n.ents[k]? = some { inum := (t.itable ip).inum, name := name })
    (hname : name ≠ dot ∧ name ≠ dotdot) (hpos : (t.itable ip).inum ≠ 0)
    (hne : (t.itable ip).inum ≠ (t.itable dp).inum) (hlink : 1 ≤ m.nlink)
    (hempty : m.kind = .dir → ∀ j e, 2 ≤ j → m.ents[j]? = some e → e.inum = 0)
    (htree : Frees (update (update (t.vol.tree sb) (t.itable dp).inum (some { n with
        nlink := if m.kind = .dir then short (n.nlink - 1) else n.nlink
        ents := n.ents.set k { inum := 0, name := [] } })) (t.itable ip).inum
      (some { m with nlink := short (m.nlink - 1) })) (u.vol.tree sb))
    (hgen : u.gen = t.gen) (htended : Tended sb t → Tended sb u)
    (ha : a = .unlink (t.itable dp).inum name (t.itable ip).inum) : Mid sb a s u δ' := by
  refine ⟨htrack, fun _ hs => ⟨⟨t.vol.tree sb, _, hw.frees,
    ha ▸ .unlink hd.node hd.kind hent hname hpos hm hne hlink hempty, htree, ?_, ?_⟩,
    htended (hw.tended hs)⟩⟩
  · exact fun x => .inl (by rw [hgen, hw.gen])
  · intro x hnone hsome
    by_cases hx : x = (t.itable ip).inum
    · rw [hx, hm] at hnone
      cases hnone
    · rw [update_of_ne hx] at hsome
      by_cases hxd : x = (t.itable dp).inum
      · rw [hxd, hd.node] at hnone
        cases hnone
      · rw [update_of_ne hxd] at hsome
        exact absurd hnone hsome

theorem unlinkEntry_spec {name : List UInt8} (hs : Stable sb s)
    (hw : Walk sb s t (one dp + one ip)) (hd : Dir sb t dp n) (hvalid : (t.itable ip).valid = true)
    (hm : t.vol.tree sb (t.itable ip).inum = some m)
    (hent : n.ents[k]? = some { inum := (t.itable ip).inum, name := name })
    (hname : name ≠ dot ∧ name ≠ dotdot) (hpos : (t.itable ip).inum ≠ 0)
    (hne : (t.itable ip).inum ≠ (t.itable dp).inum) (hlink : 1 ≤ m.nlink)
    (hempty : m.kind = .dir → ∀ j e, 2 ≤ j → m.ents[j]? = some e → e.inum = 0)
    (ha : a = .unlink (t.itable dp).inum name (t.itable ip).inum) :
    wp (unlinkEntry sb dp ip (k * DESIZE)) (Fault sb s) (fun _ u => Mid sb a s u 0) t := by
  unfold unlinkEntry
  rw [wp_bind, wp_gets]
  have hklt : k < n.ents.length := (List.getElem?_eq_some_iff.1 hent).1
  have href : 0 < (t.itable ip).ref := hw.toTrack.held hs (one_add_right_pos dp ip)
  have hkind : (t.itable ip).copy.type = m.kind := by
    rw [hw.stable.coherent ip href hvalid, (tree_eq_some hm).1]
  refine wp_call (writeDirent_spec hd (.inl hklt)) ?_ fun _ he => he.fault sb s
  rintro r t₁ ⟨hedit, ⟨hr, _⟩ | ⟨rfl, hnode⟩⟩
  · rw [if_neg (by exact_mod_cast hr)]
    exact ⟨by simp, by simp⟩
  rw [if_pos rfl]
  have hinum : (t₁.itable dp).inum = (t.itable dp).inum := hedit.inum dp hd.ref
  have hdref := hedit.ref_pos hd.ref
  have hdvalid := (hedit.valid dp hd.ref hd.valid).1
  have hcleared : Dirent.zero.inum % 2 ^ 16 = 0 := rfl
  simp only [setEnt, if_pos hklt, str_zero, hcleared] at hnode
  -- What is left once the directory is as it will be.
  have hrest : ∀ t₂, Track sb t t₂ 0 → t₂.gen = t.gen → (Tended sb t → Tended sb t₂) →
      t₂.vol.tree sb = update (t.vol.tree sb) (t.itable dp).inum (some { n with
        nlink := if m.kind = .dir then short (n.nlink - 1) else n.nlink
        ents := n.ents.set k { inum := 0, name := [] } }) →
      wp (do
        iunlockput sb dp
        setCopy ip fun d => { d with nlink := short (d.nlink - 1) }
        iupdate sb ip
        iunlockput sb ip
        endOp
        pure (0 : Int)) (Fault sb s) (fun _ u => Mid sb a s u 0) t₂ := by
    intro t₂ htrack hgen htended htree
    have hall := hw.toTrack.still htrack
    have hpos' := one_add_left_pos dp ip
    refine wp_call (iunlockput_spec hall.stable (hall.held hs hpos')) ?_ fun _ he => he.fault sb s
    intro _ t₃ hput
    have hall₃ := hall.put hpos' hput
    rw [add_sub_cancel_left] at hall₃
    have href₂ := htrack.ref_pos href
    have href₃ := hall₃.held hs (one_self_pos ip)
    have hvalid₃ := (hput.valid ip href₃ (htrack.valid ip href hvalid).1).1
    have hinum₃ : (t₃.itable ip).inum = (t.itable ip).inum := by
      rw [hput.inum ip href₂, htrack.inum ip href]
    -- The inode is still there, since the call holds it.
    have hm₃ : t₃.vol.tree sb (t₃.itable ip).inum = some m := by
      rcases hall₃.stable.node href₃ hvalid₃ with ⟨k', hk', _⟩
      have hk₂ := hput.frees.of_some hk'
      rw [htree, hinum₃, update_of_ne hne, hm] at hk₂
      rw [hk', ← hk₂]
    have hnlink : (t₃.itable ip).copy.nlink = m.nlink := by
      rw [hall₃.stable.coherent ip href₃ hvalid₃, ← (tree_eq_some hm₃).2.2.1]
    refine wp_relink hall₃.stable href₃ hvalid₃ (fun _ => ⟨rfl, rfl, rfl⟩) hm₃
      (fun _ he => he.fault sb s) fun t₄ hedit₄ htree₄ => ?_
    simp only [hinum₃, hnlink] at htree₄
    have hmid : Mid sb a s t₄ (one ip) := by
      refine mid_of_unlinked hw (hall₃.still hedit₄.toTrack) hd hm hent hname hpos hne hlink hempty
        ?_ ?_ (fun h => hedit₄.tended (hput.tended (htended h))) ha
      · rw [htree₄, ← htree]
        exact hput.frees.update _ _
      · rw [hedit₄.gen, hput.gen, hgen]
    exact wp_call (mid_release hs hmid) (fun _ _ hu => hu.op none) fun _ he => he.fault sb s
  split
  · rename_i hdir
    rw [hkind] at hdir
    have hnlink : (t₁.itable dp).copy.nlink = n.nlink := by
      rw [hedit.stable.coherent dp hdref hdvalid, hinum, ← (tree_eq_some hnode).2.2.1]
    refine wp_relink hedit.stable hdref hdvalid (fun _ => ⟨rfl, rfl, rfl⟩)
      (by rw [hinum]; exact hnode) (fun _ he => he.fault sb s) fun t₂ hedit₂ htree₂ => ?_
    refine hrest t₂ (hedit.toTrack.still hedit₂.toTrack) (hedit₂.gen.trans hedit.gen)
      (fun h => hedit₂.tended (hedit.tended h)) ?_
    rw [htree₂, hedit.tree hnode, hinum, hnlink, update_idem, if_pos hdir]
  · rename_i hdir
    rw [hkind] at hdir
    refine hrest t₁ hedit.toTrack hedit.gen hedit.tended ?_
    rw [hedit.tree hnode, if_neg hdir]

theorem unlinkBad_spec (hs : Stable sb s) (h : Mid sb a s t (one dp)) :
    wp (unlinkBad sb dp) (Fault sb s) (fun _ u => Mid sb a s u 0) t := by
  unfold unlinkBad
  exact wp_call (mid_release hs h) (fun _ _ hu => hu.op none) fun _ he => he.fault sb s

theorem str_ofList_dot : (Name.ofList dot).str = dot := by
  decide

theorem str_ofList_dotdot : (Name.ofList dotdot).str = dotdot := by
  decide

theorem sysUnlink_spec {path : UserStr} (hs : Stable sb s)
    (hcwd : ∀ q, (s.proc p).cwd = some q → 0 < (s.itable q).ref) :
    wp (sysUnlink sb p path) (Fault sb s)
      (fun _ u => Mid sb (Call.deed sb s (.unlink p path)) s u 0) s := by
  unfold sysUnlink
  split
  · exact (Walk.refl hs).mid
  rename_i path hpath
  simp only [Call.deed, hpath, Option.elim_some]
  rw [wp_bind, beginOp, wp_modify]
  refine wp_call (nameiparent_spec (walk_op hs (some ∅)) hcwd) ?_ fun _ he => he.fault
  rintro _ t (⟨rfl, hw⟩ | ⟨dp, name, rfl, hw, hparent, hvalid, htype⟩)
  · exact hw.mid.op none
  refine wp_call (ilock_blame hw) ?_ fun _ he => he.fault
  rintro _ t₁ ⟨hw₁, hlock, _, hdref, hdvalid, _, hheld⟩
  have hdir := (hlock.valid dp hdref hvalid).2.trans htype
  rcases hw₁.stable.dir (hlock.ref_pos hdref) hdvalid hdir with ⟨n, hd⟩
  split
  · exact unlinkBad_spec hs hw₁.mid
  rename_i hdots
  rw [not_or, namecmp_eq_zero_iff, namecmp_eq_zero_iff, str_ofList_dot, str_ofList_dotdot] at hdots
  refine wp_call (dirlookup_spec hd) ?_ fun _ he => he.fault sb s
  rintro _ t₂ (⟨rfl, rfl, _⟩ | ⟨ip, k, rfl, hfound⟩)
  · exact unlinkBad_spec hs hw₁.mid
  have hw₂ := hw₁.trans hfound.toWalk
  refine wp_call (ilock_blame hw₂) ?_ fun _ he => he.fault
  rintro _ t₃ ⟨hw₃, hlock', hvol, href, hvalid', hfree, _⟩
  have href₃ := hlock'.ref_pos href
  -- The directory is locked, so the inode that was just locked is another one.
  have hpq : ip ≠ dp := by
    rintro rfl
    rw [hfound.lock, hheld] at hfree
    cases hfree
  have hdref₂ : 0 < (t₂.itable dp).ref := hfound.ref_pos hd.ref
  have hdinum : (t₃.itable dp).inum = (t₁.itable dp).inum := by
    rw [hlock'.inum dp hdref₂, hfound.toTrack.inum dp hd.ref]
  have hne : (t₃.itable ip).inum ≠ (t₃.itable dp).inum := fun heq =>
    hpq (hw₃.stable.unique ip dp href₃ (hlock'.ref_pos hdref₂) heq)
  have hd₃ : Dir sb t₃ dp n := by
    have htrack := hfound.toTrack.trans hlock'.toTrack
    exact hd.of_track htrack (by rw [hvol, hfound.vol, hd.node]) hd.kind
  rcases hw₃.stable.node href₃ hvalid' with ⟨m, hm, hkind, hnlink⟩
  have hent := hfound.ent
  rw [← hlock'.inum ip href] at hent
  have hused := hfound.used
  rw [← hlock'.inum ip href] at hused
  have ha : s.unlinking sb p path =
      .unlink (t₃.itable dp).inum name.str (t₃.itable ip).inum := by
    rw [St.unlinking, hparent, Option.elim_some, ← hlock.inum dp hdref, hw₁.frees.of_some hd.node,
      Option.bind_some, hfound.lookup, hdinum, hlock'.inum ip href]
    rfl
  rw [wp_bind, wp_gets]
  split
  · exact ⟨by simp, by simp⟩
  rename_i hlinks
  have hlink : 1 ≤ m.nlink := by omega
  split
  · rename_i hisdir
    have hip₃ : Dir sb t₃ ip m := ⟨hw₃.stable, href₃, hvalid', hm, hkind.trans hisdir⟩
    refine wp_call (isdirempty_spec hip₃) ?_ fun _ he => he.fault sb s
    rintro r t₃ ⟨rfl, hempty⟩
    split
    · rename_i hr
      exact unlinkEntry_spec hs hw₃ hd₃ hvalid' hm hent hdots hused hne hlink
        (fun _ => hempty hr) ha
    · refine wp_call (walk_iunlockput hs hw₃ (one_add_right_pos dp ip)) ?_ fun _ he => he.fault
      intro _ u hu
      rw [add_sub_cancel_right] at hu
      exact unlinkBad_spec hs hu.mid
  · rename_i hisdir
    exact unlinkEntry_spec hs hw₃ hd₃ hvalid' hm hent hdots hused hne hlink
      (fun hdir => absurd (hkind ▸ hdir) hisdir) ha

end Xv6.Fs
