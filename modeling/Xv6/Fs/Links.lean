import Xv6.Fs.Tree
import Xv6.Lib.Families
import Mathlib.Algebra.Order.BigOperators.Group.Finset

/-!
# Links — the directories as a graph

How often live directories name an inode and where `..` leads, and what of this the changes of the
tree keep.
-/

namespace Xv6.Fs

open Lib
open Function (update update_comm update_of_ne update_self)

variable {N : Nat} {a : Deed} {T T' : Tree} {d i j k : Nat} {n m : Node} {e : Ent}

/-! ## Counting names -/

/-- The entries of a live directory, one with links, that name `i` by another name than `.`. -/
def Node.nameCount (n : Node) (i : Nat) : Nat :=
  if n.kind = .dir ∧ 0 < n.nlink then n.ents.countP fun e => e.inum = i ∧ e.name ≠ dot else 0

/-- The terms of `nameCount`; an inode that is not allocated names nothing. -/
def nameTerm (i : Nat) (x : Option Node) : Nat :=
  x.elim 0 (·.nameCount i)

/-- How often the live directories among the `N` inodes name `i`. -/
def nameCount (N : Nat) (T : Tree) (i : Nat) : Nat :=
  ∑ d ∈ Finset.range N, nameTerm i (T d)

theorem nameCount_update (hd : d < N) (T : Tree) (x : Option Node) (i : Nat) :
    nameCount N (update T d x) i + nameTerm i (T d) = nameCount N T i + nameTerm i x :=
  sum_update_add_of_mem (Finset.mem_range.2 hd) T (nameTerm i) x

/-- Directory `d` and inode `i` get new nodes, as in every change of the tree. -/
def swap (T : Tree) (d : Nat) (n : Node) (i : Nat) (m : Node) : Tree :=
  update (update T i (some m)) d (some n)

theorem nameCount_swap (hd : d < N) (hi : i < N) (hne : i ≠ d) (T : Tree) (n m : Node) (j : Nat) :
    nameCount N (swap T d n i m) j + (nameTerm j (T d) + nameTerm j (T i)) =
      nameCount N T j + (n.nameCount j + m.nameCount j) := by
  have hfirst := nameCount_update hi T (some m) j
  have hsecond := nameCount_update hd (update T i (some m)) (some n) j
  rw [update_of_ne (Ne.symm hne)] at hsecond
  unfold swap
  simp only [nameTerm, Option.elim_some] at hfirst hsecond ⊢
  omega

theorem nameTerm_le (hd : d < N) : nameTerm i (T d) ≤ nameCount N T i :=
  Finset.single_le_sum (f := fun d => nameTerm i (T d)) (fun _ _ => Nat.zero_le _)
    (Finset.mem_range.2 hd)

/-! ## Directories -/

/-- The inode that the second entry, `..`, names. -/
def Node.up (n : Node) : Nat :=
  (n.ents[1]?).elim 0 (·.inum)

/-- The entries after `.` and `..`. -/
def Node.rest (n : Node) : List Ent :=
  n.ents.drop 2

def Node.restCount (n : Node) (i : Nat) : Nat :=
  n.rest.countP fun e => e.inum = i

/-- The entries of directory `d`: first `.` and `..`; without links it has no others. -/
structure Shaped (d : Nat) (n : Node) : Prop where
  ents : n.ents = { inum := d, name := dot } :: { inum := n.up, name := dotdot } :: n.rest
  plain : ∀ e ∈ n.rest, e.inum ≠ 0 → e.name ≠ dot ∧ e.name ≠ dotdot
  dead : n.nlink = 0 → ∀ e ∈ n.rest, e.inum = 0

/-- Directory `d` is allocated and has links. -/
structure Live (T : Tree) (d : Nat) (n : Node) : Prop where
  node : T d = some n
  dir : n.kind = .dir
  linked : 0 < n.nlink

namespace Node

theorem nameCount_of_not_live (h : ¬ (n.kind = .dir ∧ 0 < n.nlink)) : n.nameCount i = 0 :=
  if_neg h

theorem restCount_pos_iff : 0 < n.restCount i ↔ ∃ e ∈ n.rest, e.inum = i := by
  simp [restCount, List.countP_pos_iff]

theorem restCount_eq_zero (h : ∀ e ∈ n.rest, e.inum ≠ i) : n.restCount i = 0 := by
  refine List.countP_eq_zero.2 fun e he => ?_
  simpa using h e he

theorem rest_getElem? (hk : 2 ≤ k) : n.rest[k - 2]? = n.ents[k]? := by
  rw [rest, List.getElem?_drop]
  congr 1
  omega

theorem rest_empty (h : ∀ j e, 2 ≤ j → n.ents[j]? = some e → e.inum = 0) :
    ∀ e ∈ n.rest, e.inum = 0 := by
  intro e he
  rcases List.getElem?_of_mem he with ⟨j, hj⟩
  rw [rest, List.getElem?_drop] at hj
  exact h _ e (by omega) hj

/-- A live directory names its parent and what its own entries name. -/
theorem nameCount_of_live (hs : Shaped d n) (hdir : n.kind = .dir) (hlinked : 0 < n.nlink)
    (hi : i ≠ 0) : n.nameCount i = (if n.up = i then 1 else 0) + n.restCount i := by
  rw [nameCount, if_pos ⟨hdir, hlinked⟩, hs.ents, List.countP_cons, List.countP_cons]
  have hrest : (n.rest.countP fun e => e.inum = i ∧ e.name ≠ dot) = n.restCount i := by
    refine List.countP_congr fun e he => ?_
    simp only [decide_eq_true_eq]
    refine ⟨And.left, fun heq => ⟨heq, (hs.plain e he fun hz => ?_).1⟩⟩
    exact hi (heq.symm.trans hz)
  have hdots : dotdot ≠ dot := by decide
  rw [hrest]
  by_cases hup : n.up = i
  · simp [hup, hdots]
    omega
  · simp [hup]

end Node

/-! ## Setting an entry -/

variable {es : List Ent} {z : Nat} {w : Node}

theorem mem_setEnt {x : Ent} (h : x ∈ setEnt es k e) : x = e ∨ x ∈ es := by
  unfold setEnt at h
  split at h
  · exact (List.mem_or_eq_of_mem_set h).symm
  · rcases List.mem_append.1 h with hx | hx
    · exact .inr hx
    · exact .inl (List.mem_singleton.1 hx)

theorem countP_setEnt (p : Ent → Bool) (hk : k ≤ es.length) :
    (setEnt es k e).countP p + (es[k]?).elim 0 (fun x => if p x then 1 else 0) =
      es.countP p + if p e then 1 else 0 := by
  unfold setEnt
  split
  · rename_i hlt
    have hset := List.countP_set (p := p) (a := e) hlt
    have hle : (if p es[k] then 1 else 0) ≤ es.countP p := by
      split
      · rename_i hp
        exact List.countP_pos_iff.2 ⟨_, List.getElem_mem hlt, hp⟩
      · exact Nat.zero_le _
    rw [hset, List.getElem?_eq_getElem hlt, Option.elim_some]
    omega
  · rw [List.getElem?_eq_none (by omega), List.countP_append, List.countP_singleton]
    rfl

/-- A directory with another link count and entry `k` replaced or added. -/
def Node.put (n : Node) (l : Int) (k : Nat) (e : Ent) : Node :=
  { n with nlink := l, ents := setEnt n.ents k e }

namespace Shaped

variable {l : Int}

theorem put_ents (h : Shaped d n) (hk : 2 ≤ k) :
    (n.put l k e).ents = { inum := d, name := dot } :: { inum := n.up, name := dotdot } ::
      setEnt n.rest (k - 2) e := by
  rcases Nat.exists_eq_add_of_le' hk with ⟨k, rfl⟩
  show setEnt n.ents (k + 2) e = _
  rw [h.ents, setEnt, setEnt]
  simp only [List.length_cons, Nat.add_lt_add_iff_right, Nat.add_sub_cancel]
  split <;> rfl

theorem put_up (h : Shaped d n) (hk : 2 ≤ k) : (n.put l k e).up = n.up := by
  rw [Node.up, h.put_ents hk]
  rfl

theorem put_rest (h : Shaped d n) (hk : 2 ≤ k) : (n.put l k e).rest = setEnt n.rest (k - 2) e := by
  rw [Node.rest, h.put_ents hk]
  rfl

theorem put (h : Shaped d n) (hk : 2 ≤ k) (hl : l ≠ 0)
    (he : e.inum ≠ 0 → e.name ≠ dot ∧ e.name ≠ dotdot) : Shaped d (n.put l k e) := by
  refine ⟨?_, ?_, fun hz => absurd hz hl⟩
  · rw [h.put_up hk, h.put_rest hk]
    exact h.put_ents hk
  · rw [h.put_rest hk]
    intro x hx
    rcases mem_setEnt hx with rfl | hx
    · exact he
    · exact h.plain x hx

theorem length (h : Shaped d n) : n.ents.length = n.rest.length + 2 :=
  congrArg List.length h.ents

/-- The count after entry `k`, which named `x`, names `e.inum`. -/
theorem restCount_put (h : Shaped d n) (hk : 2 ≤ k) (hle : k ≤ n.ents.length) (i : Nat) :
    (n.put l k e).restCount i + (n.ents[k]?).elim 0 (fun x => if x.inum = i then 1 else 0) =
      n.restCount i + if e.inum = i then 1 else 0 := by
  have hrest : k - 2 ≤ n.rest.length := by
    have := h.length
    omega
  have hcount := countP_setEnt (e := e) (fun x => decide (x.inum = i)) hrest
  rw [Node.rest_getElem? hk] at hcount
  simp only [decide_eq_true_eq] at hcount
  rw [Node.restCount, h.put_rest hk]
  exact hcount

end Shaped

/-! ## The invariant -/

/-- The links of a tree on a volume with `N` inodes. -/
structure Wired (N : Nat) (T : Tree) : Prop where
  bound : ∀ i n, T i = some n → 0 < i ∧ i < N
  shape : ∀ d n, T d = some n → n.kind = .dir → Shaped d n
  nlink : ∀ i n, T i = some n → n.nlink = nameCount N T i
  small : ∀ i n, T i = some n → n.nlink < 2 ^ 15
  named : ∀ d n e, Live T d n → e ∈ n.rest → e.inum ≠ 0 → T e.inum ≠ none
  parent : ∀ y n, Live T y n → ∃ m, Live T n.up m
  root : ∃ n, Live T ROOTINO n ∧ n.up = ROOTINO
  once : ∀ y m d n, Live T y m → Live T d n →
    n.restCount y = if y ≠ ROOTINO ∧ d = m.up then 1 else 0

/-- Also the directories that have been removed lead up to live ones. -/
def Anchored (T : Tree) : Prop :=
  ∀ d n, T d = some n → n.kind = .dir → ∃ m, Live T n.up m

theorem Live.unique (h : Live T d n) (h' : Live T d m) : n = m :=
  Option.some.inj (h.node.symm.trans h'.node)

namespace Wired

theorem pos (h : Wired N T) (hd : Live T d n) : 0 < d ∧ d < N :=
  h.bound d n hd.node

theorem up_pos (h : Wired N T) (hd : Live T d n) : n.up ≠ 0 := by
  rcases h.parent d n hd with ⟨m, hm⟩
  exact (h.pos hm).1.ne'

theorem nonneg (h : Wired N T) (hi : T i = some n) : 0 ≤ n.nlink := by
  rw [h.nlink i n hi]
  exact Int.natCast_nonneg _

theorem live_of_dir (h : Wired N T) (hd : T d = some n) (hdir : n.kind = .dir)
    (hne : n.nlink ≠ 0) : Live T d n :=
  ⟨hd, hdir, lt_of_le_of_ne (h.nonneg hd) (Ne.symm hne)⟩

theorem nameCount_live (h : Wired N T) (hd : Live T d n) (hi : i ≠ 0) :
    n.nameCount i = (if n.up = i then 1 else 0) + n.restCount i :=
  Node.nameCount_of_live (h.shape d n hd.node hd.dir) hd.dir hd.linked hi

/-- Nothing names an inode that is not allocated. -/
theorem restCount_none (h : Wired N T) (hd : Live T d n) (hi : T i = none) (hpos : i ≠ 0) :
    n.restCount i = 0 := by
  refine Node.restCount_eq_zero fun e he heq => ?_
  exact h.named d n e hd he (heq ▸ hpos) (heq ▸ hi)

theorem up_ne_none (h : Wired N T) (hd : Live T d n) (hi : T i = none) : n.up ≠ i := by
  rcases h.parent d n hd with ⟨m, hm⟩
  intro heq
  rw [← heq, hm.node] at hi
  cases hi

theorem nameTerm_eq_zero (h : ∀ n, Live T d n → n.nameCount i = 0) : nameTerm i (T d) = 0 := by
  cases hd : T d with
  | none => rfl
  | some n =>
    by_cases hlive : n.kind = .dir ∧ 0 < n.nlink
    · exact h n ⟨hd, hlive.1, hlive.2⟩
    · exact Node.nameCount_of_not_live hlive

theorem nameCount_none (h : Wired N T) (hi : T i = none) (hpos : i ≠ 0) : nameCount N T i = 0 := by
  refine Finset.sum_eq_zero fun d _ => nameTerm_eq_zero fun n hd => ?_
  rw [h.nameCount_live hd hpos, h.restCount_none hd hi hpos, if_neg (h.up_ne_none hd hi)]

/-! ### Freeing inodes -/

theorem live_frees (hf : Frees T T') : Live T' d n ↔ Live T d n := by
  constructor
  · exact fun hd => ⟨hf.of_some hd.node, hd.dir, hd.linked⟩
  · exact fun hd => ⟨hf.some_of_ne hd.node hd.linked.ne', hd.dir, hd.linked⟩

theorem nameCount_frees (hf : Frees T T') : nameCount N T' i = nameCount N T i := by
  refine Finset.sum_congr rfl fun d _ => ?_
  rcases hf d with heq | ⟨hnone, n, hn, hzero⟩
  · rw [heq]
  · rw [hnone, hn]
    exact (Node.nameCount_of_not_live (by omega)).symm

theorem nlink_ne_zero (h : Wired N T) (hd : Live T d n) (he : e ∈ n.rest) (hpos : e.inum ≠ 0)
    (hi : T e.inum = some m) : m.nlink ≠ 0 := by
  have hle := nameTerm_le (T := T) (i := e.inum) (h.pos hd).2
  have hterm : nameTerm e.inum (T d) = n.nameCount e.inum := by rw [hd.node]; rfl
  rw [hterm, h.nameCount_live hd hpos] at hle
  have hcount : 0 < n.restCount e.inum := Node.restCount_pos_iff.2 ⟨e, he, rfl⟩
  rw [h.nlink _ _ hi]
  omega

theorem frees (h : Wired N T) (hf : Frees T T') : Wired N T' := by
  refine ⟨?_, ?_, ?_, ?_, ?_, ?_, ?_, ?_⟩
  · exact fun i n hi => h.bound i n (hf.of_some hi)
  · exact fun d n hd => h.shape d n (hf.of_some hd)
  · intro i n hi
    rw [nameCount_frees hf]
    exact h.nlink i n (hf.of_some hi)
  · exact fun i n hi => h.small i n (hf.of_some hi)
  · -- What is named has links, so it is not among the inodes freed.
    intro d n e hd he hpos
    have hlive := (live_frees hf).1 hd
    cases hi : T e.inum with
    | none => exact absurd hi (h.named d n e hlive he hpos)
    | some m =>
      rw [hf.some_of_ne hi (h.nlink_ne_zero hlive he hpos hi)]
      exact Option.some_ne_none m
  · intro y n hy
    rcases h.parent y n ((live_frees hf).1 hy) with ⟨m, hm⟩
    exact ⟨m, (live_frees hf).2 hm⟩
  · rcases h.root with ⟨n, hn, hup⟩
    exact ⟨n, (live_frees hf).2 hn, hup⟩
  · exact fun y m d n hy hd => h.once y m d n ((live_frees hf).1 hy) ((live_frees hf).1 hd)

end Wired

theorem Anchored.frees (h : Anchored T) (hf : Frees T T') : Anchored T' := by
  intro d n hd hdir
  rcases h d n (hf.of_some hd) hdir with ⟨m, hm⟩
  exact ⟨m, (Wired.live_frees hf).2 hm⟩

/-! ## Changing an entry -/

theorem swap_dir (T : Tree) (d : Nat) (n : Node) (i : Nat) (m : Node) : swap T d n i m d = some n :=
  update_self _ _ _

theorem swap_inode (hne : i ≠ d) (T : Tree) (n m : Node) : swap T d n i m i = some m :=
  (update_of_ne hne _ _).trans (update_self _ _ _)

theorem swap_other (hd : j ≠ d) (hi : j ≠ i) (T : Tree) (n m : Node) : swap T d n i m j = T j :=
  (update_of_ne hd _ _).trans (update_of_ne hi _ _)

theorem swap_comm (hne : i ≠ d) (T : Tree) (n m : Node) : swap T d n i m = swap T i m d n :=
  update_comm hne _ _ _

/-- Entry `k` of the live directory `d` is set to `e` and its link count to `l`; inode `i`, which
the entry names after or before that, becomes `m`. -/
structure Rewire (N : Nat) (T : Tree) (d : Nat) (n : Node) (l : Int) (k : Nat) (e : Ent) (i : Nat)
    (m : Node) : Prop where
  dir : Live T d n
  place : 2 ≤ k ∧ k ≤ n.ents.length
  ne : i ≠ d
  bound : 0 < i ∧ i < N
  notRoot : i ≠ ROOTINO
  links : 0 < l ∧ l < 2 ^ 15
  name : e.inum ≠ 0 → e.inum = i ∧ e.name ≠ dot ∧ e.name ≠ dotdot
  old : ∀ x, n.ents[k]? = some x → x.inum = 0 ∨ x.inum = i
  shape : m.kind = .dir → Shaped i m
  small : m.nlink < 2 ^ 15
  /-- No live directory is in `i`. -/
  alone : ∀ y x, Live T y x → y ≠ i → x.up ≠ i
  parent : m.kind = .dir → m.up = d
  same : ∀ x, T i = some x → m.kind = x.kind ∧ m.ents = x.ents
  /-- A live directory in place of `i` is new. -/
  born : m.kind = .dir → 0 < m.nlink → T i = none ∧ m.rest = [] ∧ e.inum = i ∧
    ∀ x, n.ents[k]? = some x → x.inum = 0
  nlink : ∀ j x, swap T d (n.put l k e) i m j = some x →
    x.nlink = nameCount N (swap T d (n.put l k e) i m) j

namespace Rewire

variable {l : Int}

theorem cases (h : Rewire N T d n l k e i m) (hz : swap T d (n.put l k e) i m z = some w) :
    (z = d ∧ w = n.put l k e) ∨ (z = i ∧ w = m) ∨ (z ≠ d ∧ z ≠ i ∧ T z = some w) := by
  by_cases hd : z = d
  · subst hd
    rw [swap_dir] at hz
    exact .inl ⟨rfl, (Option.some.inj hz).symm⟩
  by_cases hi : z = i
  · subst hi
    rw [swap_inode h.ne] at hz
    exact .inr (.inl ⟨rfl, (Option.some.inj hz).symm⟩)
  · rw [swap_other hd hi] at hz
    exact .inr (.inr ⟨hd, hi, hz⟩)

theorem alloc (h : Rewire N T d n l k e i m) (hj : T j ≠ none) :
    swap T d (n.put l k e) i m j ≠ none := by
  by_cases hd : j = d
  · subst hd
    rw [swap_dir]
    exact Option.some_ne_none _
  by_cases hi : j = i
  · subst hi
    rw [swap_inode h.ne]
    exact Option.some_ne_none _
  · rwa [swap_other hd hi]

theorem live_dir (h : Rewire N T d n l k e i m) :
    Live (swap T d (n.put l k e) i m) d (n.put l k e) :=
  ⟨swap_dir _ _ _ _ _, h.dir.dir, h.links.1⟩

/-- A live directory other than `i` stays one and keeps its `..`. -/
theorem live (h : Rewire N T d n l k e i m) (hw : Wired N T) (hz : Live T z w) (hi : z ≠ i) :
    ∃ x, Live (swap T d (n.put l k e) i m) z x ∧ x.up = w.up := by
  by_cases hd : z = d
  · subst hd
    rw [hz.unique h.dir]
    have hs := hw.shape _ _ h.dir.node h.dir.dir
    exact ⟨_, h.live_dir, hs.put_up h.place.1⟩
  · exact ⟨w, ⟨(swap_other hd hi _ _ _).trans hz.node, hz.dir, hz.linked⟩, rfl⟩

/-- A live directory other than `i` was one, with the same `..` and the same entries except for
`i`. -/
theorem was_live (h : Rewire N T d n l k e i m) (hw : Wired N T)
    (hz : Live (swap T d (n.put l k e) i m) z w) (hi : z ≠ i) :
    ∃ x, Live T z x ∧ w.up = x.up ∧ ∀ y, y ≠ 0 → y ≠ i → w.restCount y = x.restCount y := by
  rcases h.cases hz.node with ⟨rfl, rfl⟩ | ⟨rfl, _⟩ | ⟨hd, _, hnode⟩
  · have hs := hw.shape _ _ h.dir.node h.dir.dir
    refine ⟨n, h.dir, hs.put_up h.place.1, fun y hpos hy => ?_⟩
    have hcount := hs.restCount_put (l := l) (e := e) h.place.1 h.place.2 y
    have hnew : e.inum ≠ y := by
      intro heq
      exact hy (heq.symm.trans (h.name (heq ▸ hpos)).1)
    have hold : (n.ents[k]?).elim 0 (fun x => if x.inum = y then 1 else 0) = 0 := by
      cases hx : n.ents[k]? with
      | none => rfl
      | some x =>
        refine if_neg fun heq => ?_
        rcases h.old x hx with hz | hz
        · exact hpos (heq.symm.trans hz)
        · exact hy (heq.symm.trans hz)
    rw [hold, if_neg hnew] at hcount
    exact hcount
  · exact absurd rfl hi
  · exact ⟨w, ⟨hnode, hz.dir, hz.linked⟩, rfl, fun _ _ _ => rfl⟩

theorem once (h : Rewire N T d n l k e i m) (hw : Wired N T) {y : Nat} {u : Node}
    (hy : Live (swap T d (n.put l k e) i m) y u) (hz : Live (swap T d (n.put l k e) i m) z w) :
    w.restCount y = if y ≠ ROOTINO ∧ z = u.up then 1 else 0 := by
  have hnode : ∀ {x}, Live (swap T d (n.put l k e) i m) i x → x = m := fun hx =>
    Option.some.inj (hx.node.symm.trans (swap_inode h.ne _ _ _))
  have hempty : ∀ {x : Node}, x.rest = [] → x.restCount y = 0 := fun hx => by
    rw [Node.restCount, hx, List.countP_nil]
  by_cases hyi : y = i
  · -- `i` is a new directory, and the entry just set is the only one that names it.
    subst hyi
    cases hnode hy
    rcases h.born hy.dir hy.linked with ⟨hnone, hrest, hent, hfree⟩
    rw [h.parent hy.dir]
    by_cases hzi : z = y
    · subst hzi
      cases hnode hz
      rw [hempty hrest, if_neg fun hc => h.ne hc.2]
    rcases h.cases hz.node with ⟨rfl, rfl⟩ | ⟨hzy, _⟩ | ⟨hd, _, hw'⟩
    · have hs := hw.shape _ _ h.dir.node h.dir.dir
      have hcount := hs.restCount_put (l := l) (e := e) h.place.1 h.place.2 y
      have hold : (n.ents[k]?).elim 0 (fun x => if x.inum = y then 1 else 0) = 0 := by
        cases hx : n.ents[k]? with
        | none => rfl
        | some x => exact if_neg fun heq => h.bound.1.ne' (heq.symm.trans (hfree x hx))
      rw [hold, if_pos hent, hw.restCount_none h.dir hnone h.bound.1.ne'] at hcount
      rw [if_pos ⟨h.notRoot, rfl⟩]
      exact hcount
    · exact absurd hzy hzi
    · rw [if_neg fun hc => hd hc.2]
      exact hw.restCount_none ⟨hw', hz.dir, hz.linked⟩ hnone h.bound.1.ne'
  · rcases h.was_live hw hy hyi with ⟨x, hx, hup, _⟩
    rw [hup]
    by_cases hzi : z = i
    · subst hzi
      cases hnode hz
      rw [hempty (h.born hz.dir hz.linked).2.1, if_neg fun hc => h.alone y x hx hyi hc.2.symm]
    · rcases h.was_live hw hz hzi with ⟨x', hx', _, hcount⟩
      rw [hcount y (hw.pos hx).1.ne' hyi]
      exact hw.once y x z x' hx hx'

theorem wired (h : Rewire N T d n l k e i m) (hw : Wired N T) :
    Wired N (swap T d (n.put l k e) i m) := by
  have hs := hw.shape d n h.dir.node h.dir.dir
  refine ⟨?_, ?_, h.nlink, ?_, ?_, ?_, ?_, fun y u z w hy hz => h.once hw hy hz⟩
  · intro j x hj
    rcases h.cases hj with ⟨rfl, _⟩ | ⟨rfl, _⟩ | ⟨_, _, hx⟩
    · exact hw.pos h.dir
    · exact h.bound
    · exact hw.bound j x hx
  · intro j x hj hdir
    rcases h.cases hj with ⟨rfl, rfl⟩ | ⟨rfl, rfl⟩ | ⟨_, _, hx⟩
    · exact hs.put h.place.1 h.links.1.ne' fun hpos => (h.name hpos).2
    · exact h.shape hdir
    · exact hw.shape j x hx hdir
  · intro j x hj
    rcases h.cases hj with ⟨rfl, rfl⟩ | ⟨rfl, rfl⟩ | ⟨_, _, hx⟩
    · exact h.links.2
    · exact h.small
    · exact hw.small j x hx
  · intro z w x hz hx hpos
    rcases h.cases hz.node with ⟨rfl, rfl⟩ | ⟨rfl, rfl⟩ | ⟨_, _, hnode⟩
    · rw [hs.put_rest h.place.1] at hx
      rcases mem_setEnt hx with rfl | hx
      · rw [(h.name hpos).1, swap_inode h.ne]
        exact Option.some_ne_none _
      · exact h.alloc (hw.named z n x h.dir hx hpos)
    · rw [(h.born hz.dir hz.linked).2.1] at hx
      cases hx
    · exact h.alloc (hw.named z w x ⟨hnode, hz.dir, hz.linked⟩ hx hpos)
  · intro y u hy
    by_cases hyi : y = i
    · subst hyi
      have hu : u = m := Option.some.inj (hy.node.symm.trans (swap_inode h.ne _ _ _))
      subst hu
      rw [h.parent hy.dir]
      exact ⟨_, h.live_dir⟩
    · rcases h.was_live hw hy hyi with ⟨x, hx, hup, _⟩
      rcases hw.parent y x hx with ⟨w, hparent⟩
      rcases h.live hw hparent (h.alone y x hx hyi) with ⟨w', hw', _⟩
      rw [hup]
      exact ⟨w', hw'⟩
  · rcases hw.root with ⟨r, hr, hup⟩
    rcases h.live hw hr (Ne.symm h.notRoot) with ⟨x, hx, hxup⟩
    exact ⟨x, hx, hxup.trans hup⟩

theorem up_eq (h : Rewire N T d n l k e i m) (hw : Wired N T) {u : Node}
    (hu : T z = some u) (hz : swap T d (n.put l k e) i m z = some w) :
    w.kind = u.kind ∧ w.up = u.up := by
  rcases h.cases hz with ⟨rfl, rfl⟩ | ⟨rfl, rfl⟩ | ⟨_, _, hnode⟩
  · cases Option.some.inj (hu.symm.trans h.dir.node)
    exact ⟨rfl, (hw.shape z n h.dir.node h.dir.dir).put_up h.place.1⟩
  · rcases h.same u hu with ⟨hkind, hents⟩
    exact ⟨hkind, by rw [Node.up, Node.up, hents]⟩
  · cases Option.some.inj (hu.symm.trans hnode)
    exact ⟨rfl, rfl⟩

/-- The directories stay below live ones if a directory that is removed has none in it, not even
one that was removed before. -/
theorem anchored (h : Rewire N T d n l k e i m) (hw : Wired N T) (ha : Anchored T)
    (horphan : ∀ x, Live T i x → ∀ y w, T y = some w → w.kind = .dir → y ≠ i → w.up ≠ i) :
    Anchored (swap T d (n.put l k e) i m) := by
  have hstay : ∀ y w, T y = some w → w.kind = .dir → y ≠ i →
      ∃ x, Live (swap T d (n.put l k e) i m) w.up x := by
    intro y w hy hdir hne
    rcases ha y w hy hdir with ⟨x, hx⟩
    have hup : w.up ≠ i := fun heq => horphan x (heq ▸ hx) y w hy hdir hne heq
    rcases h.live hw hx hup with ⟨x', hx', _⟩
    exact ⟨x', hx'⟩
  intro z w hz hdir
  rcases h.cases hz with ⟨rfl, rfl⟩ | ⟨rfl, rfl⟩ | ⟨_, hi, hnode⟩
  · rw [(hw.shape z n h.dir.node h.dir.dir).put_up h.place.1]
    exact hstay z n h.dir.node h.dir.dir (Ne.symm h.ne)
  · rw [h.parent hdir]
    exact ⟨_, h.live_dir⟩
  · exact hstay z w hnode hdir hi

end Rewire

/-! ## Changes of the tree -/

theorem Room.place (h : Wired N T) (hd : Live T d n) {name : List UInt8} (hroom : Room n k name) :
    2 ≤ k ∧ name ≠ dot ∧ name ≠ dotdot := by
  have hs := h.shape d n hd.node hd.dir
  have hdot : { inum := d, name := dot } ∈ n.ents := by
    rw [hs.ents]
    exact List.mem_cons_self
  have hdotdot : { inum := n.up, name := dotdot } ∈ n.ents := by
    rw [hs.ents]
    exact List.mem_cons_of_mem _ List.mem_cons_self
  refine ⟨?_, Ne.symm (hroom.fresh _ hdot (h.pos hd).1.ne'),
    Ne.symm (hroom.fresh _ hdotdot (h.up_pos hd))⟩
  have hempty := hroom.empty
  rw [hs.ents] at hempty
  rcases k with _ | _ | k
  · exact absurd (hempty _ rfl) (h.pos hd).1.ne'
  · exact absurd (hempty _ rfl) (h.up_pos hd)
  · omega

theorem shaped_newNode (hi : i < 2 ^ 16) (hd : d < 2 ^ 16) :
    Shaped i (newNode .dir i d) ∧ (newNode .dir i d).up = d := by
  have hup : (newNode .dir i d).up = d := Nat.mod_eq_of_lt hd
  refine ⟨⟨?_, fun e he => absurd he List.not_mem_nil, fun hz => absurd hz Int.one_ne_zero⟩, hup⟩
  rw [hup]
  simp only [newNode, if_pos, Nat.mod_eq_of_lt hi, Nat.mod_eq_of_lt hd]
  rfl

theorem nameCount_newNode {kind : FileType} (hi : i < 2 ^ 16) (hd : d < 2 ^ 16) (hj : j ≠ 0) :
    (newNode kind i d).nameCount j = if kind = .dir ∧ d = j then 1 else 0 := by
  by_cases hdir : kind = .dir
  · subst hdir
    rcases shaped_newNode hi hd with ⟨hs, hup⟩
    rw [Node.nameCount_of_live hs rfl Int.one_pos hj, hup, Node.restCount_eq_zero fun e he =>
      absurd he List.not_mem_nil]
    simp
  · rw [if_neg fun hc => hdir hc.1]
    exact Node.nameCount_of_not_live fun hc => hdir hc.1

theorem short_of_small {x : Int} (h : 0 ≤ x ∧ x < 2 ^ 15) : short x = x := by
  simp only [short, Int.bmod]
  split <;> omega

namespace Wired

variable {l : Int} {name : List UInt8}

theorem nameCount_put (h : Wired N T) (hd : Live T d n) (hk : 2 ≤ k ∧ k ≤ n.ents.length)
    (hl : 0 < l) (he : e.inum ≠ 0 → e.name ≠ dot ∧ e.name ≠ dotdot) (hj : j ≠ 0) :
    (n.put l k e).nameCount j + (n.ents[k]?).elim 0 (fun x => if x.inum = j then 1 else 0) =
      n.nameCount j + if e.inum = j then 1 else 0 := by
  have hs := h.shape d n hd.node hd.dir
  have hcount := hs.restCount_put (l := l) (e := e) hk.1 hk.2 j
  rw [Node.nameCount_of_live (hs.put hk.1 hl.ne' he) hd.dir hl hj, h.nameCount_live hd hj,
    hs.put_up hk.1]
  omega

/-- The link counts stay right if the counts of names change with them. -/
theorem nlink_swap (h : Wired N T) (hd : Live T d n) (hne : i ≠ d) (hi : 0 < i) {n' : Node}
    {g : Nat → Int} (hcount : ∀ j, j ≠ 0 →
      (nameCount N (swap T d n' i m) j : Int) = nameCount N T j + g j)
    (hn : n'.nlink = n.nlink + g d) (hm : m.nlink = nameCount N T i + g i)
    (hother : ∀ j, j ≠ d → j ≠ i → g j = 0) (j : Nat) (x : Node)
    (hj : swap T d n' i m j = some x) : x.nlink = nameCount N (swap T d n' i m) j := by
  by_cases hjd : j = d
  · subst hjd
    rw [swap_dir] at hj
    rw [← Option.some.inj hj, hn, h.nlink j n hd.node, hcount j (h.pos hd).1.ne']
  by_cases hji : j = i
  · subst hji
    rw [swap_inode hne] at hj
    rw [← Option.some.inj hj, hm, hcount j hi.ne']
  · rw [swap_other hjd hji] at hj
    rw [h.nlink j x hj, hcount j (h.bound j x hj).1.ne', hother j hjd hji, Int.add_zero]

theorem nameTerm_dir (hd : Live T d n) : nameTerm j (T d) = n.nameCount j := by
  rw [hd.node]
  rfl

theorem nameTerm_file (hi : T i = some m) (hm : m.kind ≠ .dir) : nameTerm j (T i) = 0 := by
  rw [hi]
  exact Node.nameCount_of_not_live fun hc => hm hc.1

theorem old_free (hempty : ∀ x, n.ents[k]? = some x → x.inum = 0) (hj : j ≠ 0) :
    (n.ents[k]?).elim 0 (fun x => if x.inum = j then 1 else 0) = 0 := by
  cases hx : n.ents[k]? with
  | none => rfl
  | some x => exact if_neg fun heq => hj (heq.symm.trans (hempty x hx))

/-- `create` adds a name for the new inode, and `..` of a new directory names the old one. -/
theorem edit_create {kind : FileType} (h : Wired N T) (hN : N ≤ 2 ^ 16) (hd : Live T d n)
    (hroom : Room n k name) (hi : T i = none) (hpos : 0 < i) (hlt : i < N)
    (hover : kind = .dir → n.nlink + 1 < 2 ^ 15) :
    Rewire N T d n (if kind = .dir then short (n.nlink + 1) else n.nlink) k
      { inum := i % 2 ^ 16, name := name } i (newNode kind i d) := by
  have hne : i ≠ d := by
    rintro rfl
    rw [hd.node] at hi
    cases hi
  have hi16 : i < 2 ^ 16 := by omega
  have hd16 : d < 2 ^ 16 := by
    have := (h.pos hd).2
    omega
  rcases Room.place h hd hroom with ⟨hk, hname⟩
  have hlink := hd.linked
  have hsmall := h.small d n hd.node
  have hl : (if kind = .dir then short (n.nlink + 1) else n.nlink) =
      n.nlink + ((if kind = .dir then 1 else 0 : Nat) : Int) := by
    split
    · rename_i hdir
      have := hover hdir
      rw [short_of_small (by omega)]
      rfl
    · exact (Int.add_zero _).symm
  have hl' : 0 < n.nlink + ((if kind = .dir then 1 else 0 : Nat) : Int) ∧
      n.nlink + ((if kind = .dir then 1 else 0 : Nat) : Int) < 2 ^ 15 := by
    split
    · rename_i hdir
      have := hover hdir
      omega
    · omega
  rw [hl, Nat.mod_eq_of_lt hi16]
  refine ⟨hd, ⟨hk, hroom.le⟩, hne, ⟨hpos, hlt⟩, ?_, hl', fun _ => ⟨rfl, hname⟩,
    fun x hx => .inl (hroom.empty x hx), ?_, by simp [newNode], ?_, ?_, ?_, ?_, ?_⟩
  · rintro rfl
    rcases h.root with ⟨r, hr, _⟩
    rw [hr.node] at hi
    cases hi
  · rintro hdir
    cases hdir
    exact (shaped_newNode hi16 hd16).1
  · exact fun y x hy _ => h.up_ne_none hy hi
  · rintro hdir
    cases hdir
    exact (shaped_newNode hi16 hd16).2
  · intro x hx
    rw [hi] at hx
    cases hx
  · rintro hdir _
    cases hdir
    exact ⟨hi, rfl, rfl, hroom.empty⟩
  · refine h.nlink_swap hd hne hpos (g := fun j => (((if i = j then 1 else 0) +
      if kind = .dir ∧ d = j then 1 else 0 : Nat) : Int)) ?_ ?_ ?_ ?_
    · intro j hj
      have hswap := nameCount_swap (h.pos hd).2 hlt hne T
        (n.put (n.nlink + ((if kind = .dir then 1 else 0 : Nat) : Int)) k
          { inum := i, name := name }) (newNode kind i d) j
      have hput := h.nameCount_put (e := { inum := i, name := name }) hd ⟨hk, hroom.le⟩ hl'.1
        (fun _ => hname) hj
      rw [nameTerm_dir hd, hi, nameCount_newNode hi16 hd16 hj, nameTerm, Option.elim_none] at hswap
      simp only [old_free hroom.empty hj] at hput
      omega
    · simp only [Node.put, if_neg hne, and_true, Nat.zero_add]
    · simp only [h.nameCount_none hi hpos.ne', Ne.symm hne, and_false, if_pos, if_false]
      rfl
    · intro j hjd hji
      simp only [Ne.symm hji, Ne.symm hjd, and_false, if_false]
      rfl

theorem edit_link (h : Wired N T) (hN : N ≤ 2 ^ 16) (hd : Live T d n) (hroom : Room n k name)
    (hi : T i = some m) (hkind : m.kind ≠ .dir) (hover : m.nlink + 1 < 2 ^ 15) :
    Rewire N T d n n.nlink k { inum := i % 2 ^ 16, name := name } i
      { m with nlink := short (m.nlink + 1) } := by
  have hne : i ≠ d := by
    rintro rfl
    rw [hd.node] at hi
    exact hkind (Option.some.inj hi ▸ hd.dir)
  rcases h.bound i m hi with ⟨hpos, hlt⟩
  rcases Room.place h hd hroom with ⟨hk, hname⟩
  have hnonneg := h.nonneg hi
  rw [Nat.mod_eq_of_lt (by omega), short_of_small (by omega)]
  refine ⟨hd, ⟨hk, hroom.le⟩, hne, ⟨hpos, hlt⟩, ?_, ⟨hd.linked, h.small d n hd.node⟩,
    fun _ => ⟨rfl, hname⟩, fun x hx => .inl (hroom.empty x hx), fun hdir => absurd hdir hkind,
    hover, ?_, fun hdir => absurd hdir hkind, ?_, fun hdir => absurd hdir hkind, ?_⟩
  · rintro rfl
    rcases h.root with ⟨r, hr, _⟩
    rw [hr.node] at hi
    exact hkind (Option.some.inj hi ▸ hr.dir)
  · intro y x hy _ hup
    rcases h.parent y x hy with ⟨z, hz⟩
    rw [hup] at hz
    exact hkind (Option.some.inj (hi.symm.trans hz.node) ▸ hz.dir)
  · intro x hx
    cases Option.some.inj (hi.symm.trans hx)
    exact ⟨rfl, rfl⟩
  · refine h.nlink_swap hd hne hpos (g := fun j => ((if i = j then 1 else 0 : Nat) : Int))
      ?_ ?_ ?_ ?_
    · intro j hj
      have hswap := nameCount_swap (h.pos hd).2 hlt hne T
        (n.put n.nlink k { inum := i, name := name }) { m with nlink := m.nlink + 1 } j
      have hput := h.nameCount_put (e := { inum := i, name := name }) hd ⟨hk, hroom.le⟩ hd.linked
        (fun _ => hname) hj
      have hfile : Node.nameCount { m with nlink := m.nlink + 1 } j = 0 :=
        Node.nameCount_of_not_live fun hc => hkind hc.1
      rw [nameTerm_dir hd, nameTerm_file hi hkind, hfile] at hswap
      simp only [old_free hroom.empty hj] at hput
      omega
    · simp only [Node.put, if_neg hne, Int.natCast_zero, Int.add_zero]
    · simp only [h.nlink i m hi, if_pos]
      rfl
    · intro j _ hji
      exact congrArg _ (if_neg (Ne.symm hji))

/-- No live directory is in one that is empty. -/
theorem alone_of_empty (h : Wired N T) (hi : Live T i m) (hroot : i ≠ ROOTINO)
    (hempty : ∀ e ∈ m.rest, e.inum = 0) (y : Nat) (x : Node) (hy : Live T y x) : x.up ≠ i := by
  intro hup
  have hne : y ≠ ROOTINO := by
    rintro rfl
    rcases h.root with ⟨r, hr, hrup⟩
    rw [hy.unique hr, hrup] at hup
    exact hroot hup.symm
  have honce := h.once y x i m hy hi
  rw [if_pos ⟨hne, hup.symm⟩] at honce
  rcases Node.restCount_pos_iff.1 (honce ▸ Nat.one_pos) with ⟨e, he, heq⟩
  exact (h.pos hy).1.ne' (heq ▸ hempty e he)

/-- An empty directory is named once, by the one it is in. -/
theorem nlink_of_empty (h : Wired N T) (hd : Live T d n) (hi : Live T i m) (hroot : i ≠ ROOTINO)
    (hempty : ∀ e ∈ m.rest, e.inum = 0) (hup : m.up = d) : m.nlink = 1 := by
  have hcount : ∀ z x, Live T z x → x.nameCount i = if z = d then 1 else 0 := by
    intro z x hz
    rw [h.nameCount_live hz (h.pos hi).1.ne', h.once i m z x hi hz, hup,
      if_neg (h.alone_of_empty hi hroot hempty z x hz), Nat.zero_add]
    simp only [hroot, ne_eq, not_false_eq_true, true_and]
  rw [h.nlink i m hi.node, nameCount, Finset.sum_eq_single d]
  · rw [nameTerm_dir hd, hcount d n hd, if_pos rfl]
    rfl
  · intro z _ hz
    refine nameTerm_eq_zero fun x hx => ?_
    rw [hcount z x hx, if_neg hz]
  · exact fun hno => absurd (Finset.mem_range.2 (h.pos hd).2) hno

/-- A live directory is named by the one it is in, and the root by itself. -/
theorem named_by_parent (h : Wired N T) (hd : Live T d n) : ∃ z x, Live T z x ∧
    0 < x.nameCount d ∧ (z = d ∨ z = n.up) := by
  by_cases hroot : d = ROOTINO
  · rcases h.root with ⟨r, hr, hup⟩
    refine ⟨ROOTINO, r, hr, ?_, .inl hroot.symm⟩
    rw [hroot, h.nameCount_live hr Nat.one_ne_zero, if_pos hup]
    omega
  · rcases h.parent d n hd with ⟨x, hx⟩
    refine ⟨n.up, x, hx, ?_, .inr rfl⟩
    have honce := h.once d n n.up x hd hx
    rw [if_pos ⟨hroot, rfl⟩] at honce
    rw [h.nameCount_live hx (h.pos hd).1.ne', honce]
    omega

/-- The directory of an empty directory has another link. -/
theorem two_le_nlink (h : Wired N T) (hd : Live T d n) (hi : Live T i m) (hne : i ≠ d)
    (hroot : i ≠ ROOTINO) (hempty : ∀ e ∈ m.rest, e.inum = 0) (hup : m.up = d) :
    2 ≤ n.nlink := by
  rcases h.named_by_parent hd with ⟨z, x, hz, hcount, hcase⟩
  have hzi : z ≠ i := by
    rintro rfl
    rcases hcase with rfl | hz'
    · exact hne rfl
    · exact h.alone_of_empty hi hroot hempty d n hd hz'.symm
  have hsplit := nameCount_update (h.pos hi).2 T none d
  have hle := nameTerm_le (T := update T i none) (i := d) (h.pos hz).2
  rw [update_of_ne hzi, nameTerm_dir hz] at hle
  have hdi : n.nlink = nameCount N T d := h.nlink d n hd.node
  have hterm : 0 < m.nameCount d := by
    rw [h.nameCount_live hi (h.pos hd).1.ne', if_pos hup]
    omega
  rw [nameTerm_dir hi, nameTerm, Option.elim_none] at hsplit
  omega

/-- What `unlink` finds: the directory is live, and a directory that is removed is in it. -/
theorem unlink_facts (h : Wired N T) (hd : T d = some n) (hdir : n.kind = .dir)
    (hent : n.ents[k]? = some { inum := i, name := name }) (hname : name ≠ dot ∧ name ≠ dotdot)
    (hpos : i ≠ 0) (hi : T i = some m) (hne : i ≠ d) (hlink : 1 ≤ m.nlink) :
    Live T d n ∧ 2 ≤ k ∧ i ≠ ROOTINO ∧ (m.kind = .dir → m.up = d) := by
  have hs := h.shape d n hd hdir
  have hk : 2 ≤ k := by
    rw [hs.ents] at hent
    rcases k with _ | _ | k
    · exact absurd (congrArg Ent.name (Option.some.inj hent)).symm hname.1
    · exact absurd (congrArg Ent.name (Option.some.inj hent)).symm hname.2
    · omega
  have hmem : { inum := i, name := name } ∈ n.rest := by
    rw [← Node.rest_getElem? hk] at hent
    exact List.mem_of_getElem? hent
  have hlive : Live T d n := h.live_of_dir hd hdir fun hz => hpos (hs.dead hz _ hmem)
  have hcount : 0 < n.restCount i := Node.restCount_pos_iff.2 ⟨_, hmem, rfl⟩
  have honce : ∀ x, Live T i x → i ≠ ROOTINO ∧ d = x.up := by
    intro x hx
    rw [h.once i x d n hx hlive] at hcount
    by_contra hno
    rw [if_neg hno] at hcount
    exact lt_irrefl _ hcount
  refine ⟨hlive, hk, ?_, fun hmdir => (honce m ⟨hi, hmdir, by omega⟩).2.symm⟩
  rintro rfl
  rcases h.root with ⟨r, hr, _⟩
  exact (honce r hr).1 rfl

/-- `unlink` takes a name from an inode, and `..` of a directory that is removed from the one it
was in. -/
theorem edit_unlink (h : Wired N T) (hd : T d = some n) (hdir : n.kind = .dir)
    (hent : n.ents[k]? = some { inum := i, name := name }) (hname : name ≠ dot ∧ name ≠ dotdot)
    (hpos : i ≠ 0) (hi : T i = some m) (hne : i ≠ d) (hlink : 1 ≤ m.nlink)
    (hempty : m.kind = .dir → ∀ j e, 2 ≤ j → m.ents[j]? = some e → e.inum = 0) :
    Rewire N T d n (if m.kind = .dir then short (n.nlink - 1) else n.nlink) k
      { inum := 0, name := [] } i { m with nlink := short (m.nlink - 1) } := by
  rcases h.unlink_facts hd hdir hent hname hpos hi hne hlink with ⟨hlive, hk, hroot, hup⟩
  rcases h.bound i m hi with ⟨_, hlt⟩
  have hklt : k < n.ents.length := (List.getElem?_eq_some_iff.1 hent).1
  have hzero : m.kind = .dir → ∀ e ∈ m.rest, e.inum = 0 := fun hmdir =>
    Node.rest_empty (hempty hmdir)
  have hilive : m.kind = .dir → Live T i m := fun hmdir => ⟨hi, hmdir, by omega⟩
  have hone : m.kind = .dir → m.nlink = 1 := fun hmdir =>
    h.nlink_of_empty hlive (hilive hmdir) hroot (hzero hmdir) (hup hmdir)
  have htwo : m.kind = .dir → 2 ≤ n.nlink := fun hmdir =>
    h.two_le_nlink hlive (hilive hmdir) hne hroot (hzero hmdir) (hup hmdir)
  have hsmall := h.small d n hd
  have hsmall' := h.small i m hi
  have hl : (if m.kind = .dir then short (n.nlink - 1) else n.nlink) =
      n.nlink - ((if m.kind = .dir then 1 else 0 : Nat) : Int) := by
    split
    · rename_i hmdir
      have := htwo hmdir
      rw [short_of_small (by omega)]
      rfl
    · exact (Int.sub_zero _).symm
  have hl' : 0 < n.nlink - ((if m.kind = .dir then 1 else 0 : Nat) : Int) ∧
      n.nlink - ((if m.kind = .dir then 1 else 0 : Nat) : Int) < 2 ^ 15 := by
    have := hlive.linked
    split
    · rename_i hmdir
      have := htwo hmdir
      omega
    · omega
  rw [hl, short_of_small (by omega)]
  refine ⟨hlive, ⟨hk, hklt.le⟩, hne, ⟨Nat.pos_of_ne_zero hpos, hlt⟩, hroot, hl',
    fun hz => absurd rfl hz, ?_, ?_, ?_, ?_, hup, ?_, ?_, ?_⟩
  · intro x hx
    rw [hent] at hx
    exact .inr (congrArg Ent.inum (Option.some.inj hx)).symm
  · intro hmdir
    have hs := h.shape i m hi hmdir
    exact ⟨hs.ents, hs.plain, fun _ => hzero hmdir⟩
  · show m.nlink - 1 < 2 ^ 15
    omega
  · intro y x hy _ hxup
    rcases h.parent y x hy with ⟨z, hz⟩
    rw [hxup] at hz
    rw [Option.some.inj (hz.node.symm.trans hi)] at hz
    exact h.alone_of_empty hz hroot (hzero hz.dir) y x hy hxup
  · intro x hx
    cases Option.some.inj (hi.symm.trans hx)
    exact ⟨rfl, rfl⟩
  · intro hmdir hpos
    have := hone hmdir
    simp only at hpos
    omega
  · refine h.nlink_swap hlive hne (Nat.pos_of_ne_zero hpos) (g := fun j => -(((if i = j then 1
      else 0) + if m.kind = .dir ∧ d = j then 1 else 0 : Nat) : Int)) ?_ ?_ ?_ ?_
    · intro j hj
      have hswap := nameCount_swap (h.pos hlive).2 hlt hne T
        (n.put (n.nlink - ((if m.kind = .dir then 1 else 0 : Nat) : Int)) k
          { inum := 0, name := [] }) { m with nlink := m.nlink - 1 } j
      have hput := h.nameCount_put (e := { inum := 0, name := [] }) hlive ⟨hk, hklt.le⟩ hl'.1
        (fun hz => absurd rfl hz) hj
      have hold : nameTerm j (T i) = if m.kind = .dir ∧ d = j then 1 else 0 := by
        by_cases hmdir : m.kind = .dir
        · have hrest : m.restCount j = 0 :=
            Node.restCount_eq_zero fun e he heq => hj (heq.symm.trans (hzero hmdir e he))
          rw [nameTerm_dir (hilive hmdir), h.nameCount_live (hilive hmdir) hj, hrest, hup hmdir]
          simp [hmdir]
        · rw [nameTerm_file hi hmdir, if_neg fun hc => hmdir hc.1]
      have hnew : Node.nameCount { m with nlink := m.nlink - 1 } j = 0 := by
        refine Node.nameCount_of_not_live fun hc => ?_
        have := hone hc.1
        have := hc.2
        simp only at this
        omega
      rw [nameTerm_dir hlive, hold, hnew] at hswap
      simp only [hent, Option.elim_some, if_neg (Ne.symm hj)] at hput
      omega
    · simp only [Node.put, if_neg hne, and_true, Nat.zero_add]
      rfl
    · simp only [← h.nlink i m hi, Ne.symm hne, and_false, if_pos, if_false]
      rfl
    · intro j hjd hji
      simp only [Ne.symm hji, Ne.symm hjd, and_false, if_false]
      rfl

end Wired

/-! ## Calls -/

theorem setEnt_eq_set (h : k < es.length) (e : Ent) : setEnt es k e = es.set k e :=
  if_pos h

theorem getElem?_setEnt (h : k ≤ es.length) (e : Ent) : (setEnt es k e)[k]? = some e := by
  unfold setEnt
  split
  · rename_i hlt
    exact List.getElem?_set_self hlt
  · have hk : k = es.length := by omega
    rw [hk, List.getElem?_concat_length]

/-- What the links need of a call: directories without links stay as they are, and no link count
goes beyond a `short`. -/
structure LinksKept (T T' : Tree) : Prop where
  dead : ∀ d n, T d = some n → n.kind = .dir → n.nlink = 0 → T' d = some n
  count : ∀ i n m, T i = some n → T' i = some m → n.nlink = 2 ^ 15 - 1 → m.nlink ≠ -2 ^ 15

theorem LinksKept.inner {T₁ T₂ : Tree} (h : LinksKept T T') (h₁ : Frees T T₁) (h₂ : Frees T₂ T') :
    LinksKept T₁ T₂ := by
  refine ⟨fun d n hd hdir hzero => h₂.of_some (h.dead d n (h₁.of_some hd) hdir hzero), ?_⟩
  intro i n m hi hm hn hneg
  refine h.count i n m (h₁.of_some hi) (h₂.some_of_ne hm ?_) hn hneg
  rw [hneg]
  decide

/-- The directory that gets an entry is live. -/
theorem LinksKept.live (h : LinksKept T T') (hw : Wired N T) {l : Int} (hd : T d = some n)
    (hdir : n.kind = .dir) (hd' : T' d = some (n.put l k e)) (hk : k ≤ n.ents.length)
    (hempty : ∀ x, n.ents[k]? = some x → x.inum = 0) (he : e.inum ≠ 0) : Live T d n := by
  refine hw.live_of_dir hd hdir fun hzero => he ?_
  have heq : n = n.put l k e := Option.some.inj ((h.dead d n hd hdir hzero).symm.trans hd')
  have hget := getElem?_setEnt hk e
  have hents : setEnt n.ents k e = n.ents := (congrArg Node.ents heq).symm
  rw [hents] at hget
  exact hempty e hget

theorem LinksKept.small (h : LinksKept T T') (hw : Wired N T) (hi : T i = some n)
    (hi' : T' i = some m) (hm : m.nlink = short (n.nlink + 1)) : n.nlink + 1 < 2 ^ 15 := by
  have hlt := hw.small i n hi
  by_contra hge
  have hn : n.nlink = 2 ^ 15 - 1 := by omega
  refine h.count i n m hi hi' hn ?_
  rw [hm, hn]
  decide

namespace Deed

/-- What the links need of a deed: the directory that gets an entry has links, and the link counts
that grow are not at their limit. -/
def Sound (T : Tree) : Deed → Prop
  | none | unlink _ _ _ => True
  | create d _ kind => ∀ n ∈ T d, 0 < n.nlink ∧ (kind = .dir → n.nlink < 2 ^ 15 - 1)
  | link d _ i => (∀ n ∈ T d, 0 < n.nlink) ∧ ∀ m ∈ T i, m.nlink < 2 ^ 15 - 1

/-- What `..` needs of a deed: a directory that is empty is not removed while it is `..` of
another that was removed before. -/
def NoOrphans (N : Nat) (T : Tree) : Deed → Prop
  | unlink _ _ i => ∀ m ∈ T i, m.kind = .dir → (∀ e ∈ m.rest, e.inum = 0) →
      ∀ x < N, ∀ w ∈ T x, w.kind = .dir → w.nlink = 0 → w.up ≠ i
  | _ => True

instance (T : Tree) (a : Deed) : Decidable (a.Sound T) :=
  match a with
  | none | unlink _ _ _ => isTrue trivial
  | create d _ _ => inferInstanceAs (Decidable (∀ n ∈ T d, _))
  | link d _ i => inferInstanceAs (Decidable ((∀ n ∈ T d, _) ∧ ∀ m ∈ T i, _))

instance (N : Nat) (T : Tree) (a : Deed) : Decidable (a.NoOrphans N T) :=
  match a with
  | unlink _ _ i => inferInstanceAs (Decidable (∀ m ∈ T i, _))
  | none | create _ _ _ | link _ _ _ => isTrue trivial

/-- What the links need of a call, seen from the trees before and after it or from its deed. -/
def Fit (a : Deed) (T T' : Tree) : Prop :=
  LinksKept T T' ∨ a.Sound T

theorem Sound.frees (h : a.Sound T) (hf : Frees T T') : a.Sound T' := by
  cases a with
  | none | unlink => trivial
  | create d name kind => exact fun n hn => h n (hf.of_some hn)
  | link d name i => exact ⟨fun n hn => h.1 n (hf.of_some hn), fun m hm => h.2 m (hf.of_some hm)⟩

theorem Fit.inner {T₁ T₂ : Tree} (h : a.Fit T T') (h₁ : Frees T T₁) (h₂ : Frees T₂ T') :
    a.Fit T₁ T₂ :=
  h.imp (·.inner h₁ h₂) (·.frees h₁)

end Deed

/-- A change is an edit of one entry; a directory that goes is the one to be removed, and empty. -/
theorem Wired.change (h : Wired N T) (hN : N ≤ 2 ^ 16) (hc : Change N T a T') (hok : a.Fit T T') :
    T' = T ∨ ∃ d n l k e i m, Rewire N T d n l k e i m ∧ T' = swap T d (n.put l k e) i m ∧
      ∀ x, Live T i x → (∃ d name, a = .unlink d name i) ∧ ∀ e ∈ x.rest, e.inum = 0 := by
  cases hc with
  | none => exact .inl rfl
  | @create d i k n kind name hd hroom hi hpos hlt hkind =>
    have hd' := swap_dir T d (n.put (if kind = .dir then short (n.nlink + 1) else n.nlink) k
      { inum := i % 2 ^ 16, name := name }) i (newNode kind i d)
    have hlive : Live T d n := hok.elim (fun hok => hok.live h hd hroom.dir hd' hroom.le hroom.empty
      (by rw [Nat.mod_eq_of_lt (by omega)]; exact hpos.ne')) fun ha => ⟨hd, hroom.dir, (ha n hd).1⟩
    refine .inr ⟨_, _, _, _, _, _, _, h.edit_create hN hlive hroom hi hpos hlt ?_, rfl, ?_⟩
    · intro hdir
      rcases hok with hok | ha
      · exact hok.small h hd hd' (if_pos hdir)
      · have := (ha n hd).2 hdir
        omega
    · intro x hx
      cases hi.symm.trans hx.node
  | @link d i k n m name hd hroom hi hkind =>
    have hd' := swap_dir T d (n.put n.nlink k { inum := i % 2 ^ 16, name := name }) i
      { m with nlink := short (m.nlink + 1) }
    have hpos := h.bound i m hi
    have hlive : Live T d n := hok.elim (fun hok => hok.live h hd hroom.dir hd' hroom.le hroom.empty
      (by rw [Nat.mod_eq_of_lt (by omega)]; exact hpos.1.ne')) fun ha => ⟨hd, hroom.dir, ha.1 n hd⟩
    have hne : i ≠ d := by
      rintro rfl
      exact hkind (Option.some.inj (hi.symm.trans hd) ▸ hroom.dir)
    refine .inr ⟨_, _, _, _, _, _, _, h.edit_link hN hlive hroom hi hkind ?_, rfl, ?_⟩
    · rcases hok with hok | ha
      · exact hok.small h hi (swap_inode hne T _ _) rfl
      · have := ha.2 m hi
        omega
    · intro x hx
      exact absurd (Option.some.inj (hx.node.symm.trans hi) ▸ hx.dir) hkind
  | @unlink d i k n m name hd hdir hent hname hpos hi hne hlink hempty =>
    have hlt : k < n.ents.length := (List.getElem?_eq_some_iff.1 hent).1
    refine .inr ⟨_, _, _, _, _, _, _,
      h.edit_unlink hd hdir hent hname hpos hi hne hlink hempty, ?_, ?_⟩
    · rw [swap_comm hne, Node.put, setEnt_eq_set hlt]
      rfl
    · intro x hx
      cases Option.some.inj (hi.symm.trans hx.node)
      exact ⟨⟨d, name, rfl⟩, Node.rest_empty (hempty hx.dir)⟩

section

variable {g g' : Nat → Nat}

theorem Wired.effect (h : Wired N T) (hN : N ≤ 2 ^ 16) (he : Effect N a T g T' g')
    (hok : a.Fit T T') : Wired N T' := by
  rcases he with ⟨T₁, T₂, h₁, hchange, h₂, _⟩
  rcases (h.frees h₁).change hN hchange (hok.inner h₁ h₂) with
    rfl | ⟨_, _, _, _, _, _, _, he, rfl, _⟩
  · exact (h.frees h₁).frees h₂
  · exact (he.wired (h.frees h₁)).frees h₂

theorem Anchored.effect (ha : Anchored T) (h : Wired N T) (hN : N ≤ 2 ^ 16)
    (he : Effect N a T g T' g') (hok : a.Fit T T') (horphan : a.NoOrphans N T) :
    Anchored T' := by
  rcases he with ⟨T₁, T₂, h₁, hchange, h₂, _⟩
  have hw₁ := h.frees h₁
  rcases hw₁.change hN hchange (hok.inner h₁ h₂) with
    rfl | ⟨d, n, l, k, e, i, m, he, rfl, hgone⟩
  · exact (ha.frees h₁).frees h₂
  refine (he.anchored hw₁ (ha.frees h₁) fun x hx y w hy hdir hne => ?_).frees h₂
  -- A live directory in `i` is an entry of it; the others were removed before.
  by_cases hzero : w.nlink = 0
  · rcases hgone x hx with ⟨⟨_, _, rfl⟩, hempty⟩
    exact horphan x (h₁.of_some hx.node) hx.dir hempty y (hw₁.bound y w hy).2 w (h₁.of_some hy)
      hdir hzero
  · exact he.alone y w (hw₁.live_of_dir hy hdir hzero) hne

/-- A directory that is not allocated anew keeps its `..`. -/
theorem Wired.up_effect (h : Wired N T) (hN : N ≤ 2 ^ 16) (he : Effect N a T g T' g')
    (hok : a.Fit T T') (hd : T' d = some m) (hgen : g' d = g d) :
    ∃ n, T d = some n ∧ m.kind = n.kind ∧ m.up = n.up := by
  rcases he with ⟨T₁, T₂, h₁, hchange, h₂, _, hnew⟩
  have hd₂ : T₂ d = some m := h₂.of_some hd
  cases hd₁ : T₁ d with
  | none =>
    have hlt := hnew d hd₁ (hd₂ ▸ Option.some_ne_none m)
    omega
  | some n =>
    refine ⟨n, h₁.of_some hd₁, ?_⟩
    rcases (h.frees h₁).change hN hchange (hok.inner h₁ h₂) with
      rfl | ⟨_, _, _, _, _, _, _, he, rfl, _⟩
    · cases Option.some.inj (hd₁.symm.trans hd₂)
      exact ⟨rfl, rfl⟩
    · exact he.up_eq (h.frees h₁) hd₁ hd₂

/-- An inode that has links is not allocated anew. -/
theorem Effect.gen_eq (he : Effect N a T g T' g') (hd : T d = some n) (hn : n.nlink ≠ 0) :
    g' d = g d := by
  rcases he with ⟨T₁, T₂, h₁, _, _, hgen, _⟩
  rcases hgen d with heq | ⟨_, hnone⟩
  · exact heq
  · rw [h₁.some_of_ne hd hn] at hnone
    cases hnone

theorem Effect.gen_le (he : Effect N a T g T' g') (d : Nat) : g d ≤ g' d := by
  rcases he with ⟨_, _, _, _, _, hgen, _⟩
  rcases hgen d with heq | ⟨hlt, _⟩
  · exact heq.ge
  · exact hlt.le

end

end Xv6.Fs
