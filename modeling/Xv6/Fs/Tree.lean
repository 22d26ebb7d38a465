import Xv6.Fs.Contents
import Xv6.Fs.Dir

/-!
# Tree — the volume as a graph of directories

What the name layer is about: which inodes are allocated, their link counts, and the entries of
the directories with their names as strings.
-/

namespace Xv6.Fs

open Lib Prog Volume
open Function (update)

variable {sb : Superblock} {v w : Volume} {i j : Nat}

/-- The string in a name buffer: up to the first NUL or `DIRSIZ` bytes. -/
def Name.str (name : Name) : List UInt8 :=
  ((List.range DIRSIZ).map name).takeWhile (· ≠ 0)

/-- A directory entry; it is free if `inum` is 0. -/
structure Ent where
  inum : Nat
  name : List UInt8
  deriving DecidableEq

/-- An allocated inode; only directories have entries. -/
structure Node where
  kind : FileType
  nlink : Int
  ents : List Ent
  deriving DecidableEq

/-- The allocated inodes by number. -/
abbrev Tree : Type := Nat → Option Node

def Dirent.ent (de : Dirent) : Ent :=
  { inum := de.inum, name := de.name.str }

namespace Volume

/-- The `struct dirent` at offset `k * sizeof(struct dirent)` of inode `i`. -/
def dirent (sb : Superblock) (v : Volume) (i k : Nat) : Dirent :=
  .ofBytes fun j => if j < DESIZE then v.byteAt sb i (k * DESIZE + j) else 0

def ents (sb : Superblock) (v : Volume) (i : Nat) : List Ent :=
  (List.range ((v.dip sb i).size / DESIZE)).map fun k => (v.dirent sb i k).ent

def tree (sb : Superblock) (v : Volume) : Tree := fun i =>
  match (v.dip sb i).type with
  | .free => none
  | .dir => some { kind := .dir, nlink := (v.dip sb i).nlink, ents := v.ents sb i }
  | kind => some { kind := kind, nlink := (v.dip sb i).nlink, ents := [] }

theorem tree_eq_none_iff : v.tree sb i = none ↔ (v.dip sb i).type = .free := by
  unfold tree
  cases (v.dip sb i).type <;> simp

theorem tree_eq_some {n : Node} (h : v.tree sb i = some n) :
    n.kind = (v.dip sb i).type ∧ n.kind ≠ .free ∧ n.nlink = (v.dip sb i).nlink ∧
      (n.kind = .dir → n.ents = v.ents sb i) ∧ (n.kind ≠ .dir → n.ents = []) := by
  unfold tree at h
  cases htype : (v.dip sb i).type <;> rw [htype] at h <;> cases h <;> simp

theorem tree_of_type {kind : FileType} (h : (v.dip sb i).type = kind) (hk : kind ≠ .free) :
    v.tree sb i = some
      { kind := kind
        nlink := (v.dip sb i).nlink
        ents := if kind = .dir then v.ents sb i else [] } := by
  subst h
  unfold tree
  cases htype : (v.dip sb i).type <;> simp_all

theorem ents_congr (hsize : (w.dip sb i).size = (v.dip sb i).size)
    (hbyte : ∀ x, x < (v.dip sb i).size → w.byteAt sb i x = v.byteAt sb i x) :
    w.ents sb i = v.ents sb i := by
  unfold ents
  rw [hsize]
  refine List.map_congr_left fun k hk => ?_
  have hlt := List.mem_range.1 hk
  have hdirent : w.dirent sb i k = v.dirent sb i k := by
    unfold dirent
    congr 1
    funext x
    split
    · rename_i hx
      refine hbyte _ ?_
      have hmul := Nat.div_mul_le_self (v.dip sb i).size DESIZE
      have hle : (k + 1) * DESIZE ≤ (v.dip sb i).size / DESIZE * DESIZE :=
        Nat.mul_le_mul_right _ hlt
      rw [Nat.add_mul, Nat.one_mul] at hle
      omega
    · rfl
  rw [hdirent]

theorem tree_of_some {n : Node} {es : List Ent} (hn : v.tree sb i = some n)
    (htype : (w.dip sb i).type = (v.dip sb i).type)
    (hents : n.kind = .dir → w.ents sb i = es) (hnone : n.kind ≠ .dir → es = []) :
    w.tree sb i = some { kind := n.kind, nlink := (w.dip sb i).nlink, ents := es } := by
  rcases tree_eq_some hn with ⟨hkind, hfree, _⟩
  rw [tree_of_type (htype.trans hkind.symm) hfree]
  split
  · rename_i hdir
    rw [hents hdir]
  · rename_i hdir
    rw [hnone hdir]

theorem tree_congr (htype : (w.dip sb i).type = (v.dip sb i).type)
    (hnlink : (w.dip sb i).nlink = (v.dip sb i).nlink)
    (hsize : (v.dip sb i).type = .dir → (w.dip sb i).size = (v.dip sb i).size)
    (hbyte : (v.dip sb i).type = .dir → ∀ x, x < (v.dip sb i).size →
      w.byteAt sb i x = v.byteAt sb i x) :
    w.tree sb i = v.tree sb i := by
  unfold tree
  rw [htype, hnlink]
  cases hkind : (v.dip sb i).type with
  | dir => simp [ents_congr (hsize hkind) (hbyte hkind)]
  | free | file | device => rfl

theorem byteAt_congr {x : Nat} (hheld : ∀ k, w.held sb (i, k) = v.held sb (i, k))
    (hdata : w.data (v.blockAt sb i x) = v.data (v.blockAt sb i x)) :
    w.byteAt sb i x = v.byteAt sb i x := by
  unfold byteAt
  rw [← hdata, blockAt, hheld]
  rfl

end Volume

/-! ## Paths -/

/-- The inode of the first entry in use that has a name. -/
def Node.lookup (n : Node) (name : List UInt8) : Option Nat :=
  (n.ents.find? fun e => e.inum ≠ 0 ∧ e.name = name).map Ent.inum

/-- Where a path leads from inode `d`, as `namex` follows it, and the last element. -/
def follow (T : Tree) (parent : Bool) : Nat → Nat → List UInt8 → Name → Option (Nat × Name)
  | 0, d, _, name => if parent then none else some (d, name)
  | m + 1, d, path, name =>
    match skipelem path name with
    | none => if parent then none else some (d, name)
    | some (rest, name) =>
      (T d).bind fun n =>
        if n.kind ≠ .dir then none
        else if parent ∧ rest = [] then some (d, name)
        else (n.lookup name.str).bind fun i => follow T parent m i rest name

/-- A path leads on where it led in a part of the tree; the link counts do not matter. -/
theorem follow_mono {T T' : Tree} {parent : Bool} {m d : Nat} {path : List UInt8} {name : Name}
    {r : Nat × Name} (hT : ∀ j n', T' j = some n' → ∃ n, T j = some n ∧ n.kind = n'.kind ∧
      n.ents = n'.ents) (h : follow T' parent m d path name = some r) :
    follow T parent m d path name = some r := by
  induction m generalizing d path name with
  | zero => exact h
  | succ m ih =>
    rw [follow] at h ⊢
    split at h
    · exact h
    · rcases Option.bind_eq_some_iff.1 h with ⟨n', hd, h⟩
      rcases hT d n' hd with ⟨n, hn, hkind, hents⟩
      rw [hn, Option.bind_some, hkind]
      split at h
      · cases h
      rename_i hdir
      rw [if_neg hdir]
      split at h
      · rename_i hlast
        rwa [if_pos hlast]
      · rename_i hlast
        rcases Option.bind_eq_some_iff.1 h with ⟨i, hi, h⟩
        rw [if_neg hlast, Node.lookup, hents]
        exact Option.bind_eq_some_iff.2 ⟨i, hi, ih h⟩

/-! ## Changes of the tree -/

/-- Entry `k` is replaced, or added at the end. -/
def setEnt (es : List Ent) (k : Nat) (e : Ent) : List Ent :=
  if k < es.length then es.set k e else es ++ [e]

/-- The node of a new inode `i` in directory `d`. -/
def newNode (kind : FileType) (i d : Nat) : Node :=
  { kind := kind
    nlink := 1
    ents := if kind = .dir then
      [{ inum := i % 2 ^ 16, name := dot }, { inum := d % 2 ^ 16, name := dotdot }] else [] }

/-- Place `k` of directory `n` can take an entry called `name`; it may be the one after the last. -/
structure Room (n : Node) (k : Nat) (name : List UInt8) : Prop where
  dir : n.kind = .dir
  le : k ≤ n.ents.length
  empty : ∀ e, n.ents[k]? = some e → e.inum = 0
  fresh : ∀ e ∈ n.ents, e.inum ≠ 0 → e.name ≠ name

/-- What a call is to do to the entry of a name in directory `d`. -/
inductive Deed where
  | none
  | create (d : Nat) (name : List UInt8) (kind : FileType)
  | link (d : Nat) (name : List UInt8) (i : Nat)
  | unlink (d : Nat) (name : List UInt8) (i : Nat)

/-- What a call does to the tree beside freeing inodes, with `N` inodes on the volume: its deed, or
nothing. -/
inductive Change (N : Nat) (T : Tree) : Deed → Tree → Prop where
  | none {a : Deed} : Change N T a T
  | create {d i k : Nat} {n : Node} {kind : FileType} {name : List UInt8} (hd : T d = some n)
      (hroom : Room n k name) (hi : T i = .none) (hpos : 0 < i) (hlt : i < N)
      (hkind : kind ≠ .free) :
      Change N T (.create d name kind) (update (update T i (some (newNode kind i d))) d
        (some { n with
          nlink := if kind = .dir then short (n.nlink + 1) else n.nlink
          ents := setEnt n.ents k { inum := i % 2 ^ 16, name := name } }))
  | link {d i k : Nat} {n m : Node} {name : List UInt8} (hd : T d = some n)
      (hroom : Room n k name) (hi : T i = some m) (hkind : m.kind ≠ .dir) :
      Change N T (.link d name i)
        (update (update T i (some { m with nlink := short (m.nlink + 1) })) d
        (some { n with ents := setEnt n.ents k { inum := i % 2 ^ 16, name := name } }))
  | unlink {d i k : Nat} {n m : Node} {name : List UInt8} (hd : T d = some n)
      (hdir : n.kind = .dir) (hent : n.ents[k]? = some { inum := i, name := name })
      (hname : name ≠ dot ∧ name ≠ dotdot) (hpos : i ≠ 0) (hi : T i = some m) (hne : i ≠ d)
      (hlink : 1 ≤ m.nlink)
      (hempty : m.kind = .dir → ∀ j e, 2 ≤ j → m.ents[j]? = some e → e.inum = 0) :
      Change N T (.unlink d name i) (update (update T d (some { n with
          nlink := if m.kind = .dir then short (n.nlink - 1) else n.nlink
          ents := n.ents.set k { inum := 0, name := [] } })) i
        (some { m with nlink := short (m.nlink - 1) }))

/-! ## Freeing inodes -/

/-- Some inodes without links have been freed. -/
def Frees (T T' : Tree) : Prop :=
  ∀ i, T' i = T i ∨ T' i = none ∧ ∃ n, T i = some n ∧ n.nlink = 0

namespace Frees

variable {T T' T'' : Tree}

theorem refl (T : Tree) : Frees T T :=
  fun _ => .inl rfl

theorem trans (h : Frees T T') (h' : Frees T' T'') : Frees T T'' := by
  intro i
  rcases h' i with hi | ⟨hi, n, hn, hzero⟩
  · rw [hi]
    exact h i
  · rcases h i with hi' | ⟨hi', _⟩
    · exact .inr ⟨hi, n, hi' ▸ hn, hzero⟩
    · rw [hi'] at hn
      cases hn

theorem of_some (h : Frees T T') {i : Nat} {n : Node} (hi : T' i = some n) : T i = some n := by
  rcases h i with heq | ⟨hnone, _⟩
  · rw [← heq, hi]
  · rw [hnone] at hi
    cases hi

theorem some_of_ne (h : Frees T T') {i : Nat} {n : Node} (hi : T i = some n)
    (hn : n.nlink ≠ 0) : T' i = some n := by
  rcases h i with heq | ⟨_, m, hm, hzero⟩
  · rw [heq, hi]
  · rw [hi] at hm
    cases hm
    exact absurd hzero hn

end Frees

/-- One call: inodes without links are freed, the tree changes, and again inodes are freed.  The
counts `g` of how often inodes were allocated grow with the ones that are new. -/
def Effect (N : Nat) (a : Deed) (T : Tree) (g : Nat → Nat) (T' : Tree) (g' : Nat → Nat) : Prop :=
  ∃ T₁ T₂, Frees T T₁ ∧ Change N T₁ a T₂ ∧ Frees T₂ T' ∧
    (∀ x, g' x = g x ∨ g x < g' x ∧ T₁ x = none) ∧
    ∀ x, T₁ x = none → T₂ x ≠ none → g x < g' x

namespace Effect

variable {N : Nat} {a : Deed} {T T' T'' : Tree} {g g' : Nat → Nat}

theorem of_frees (h : Frees T T') : Effect N a T g T' g :=
  ⟨T', T', h, .none, .refl _, fun _ => .inl rfl, fun _ hnone hsome => absurd hnone hsome⟩

theorem trans_frees (h : Effect N a T g T' g') (hf : Frees T' T'') : Effect N a T g T'' g' := by
  rcases h with ⟨T₁, T₂, h₁, hchange, h₂, hgen, hnew⟩
  exact ⟨T₁, T₂, h₁, hchange, h₂.trans hf, hgen, hnew⟩

end Effect

end Xv6.Fs
