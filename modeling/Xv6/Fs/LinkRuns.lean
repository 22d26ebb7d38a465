import Xv6.Fs.Links
import Xv6.Fs.Steps
import Xv6.Lib.Transition
import Xv6.Mkfs.Consistent

/-!
# LinkRuns — link counts and names after any sequence of calls

The links of the image that `mkfs` makes, and what the system calls of any number of processes
keep of them.
-/

namespace Xv6.Fs

open Lib Prog Volume

variable {sb : Superblock} {s t : St} {c : Call}

/-! ## The image -/

section

open Mkfs

variable {N : Nat} {names : List (List UInt8)}

theorem countP_inputs (names : List (List UInt8)) (i : Nat) :
    ((names.mapIdx fun j name => ({ inum := j + 2, name := name } : Ent)).countP
      fun e => e.inum = i) = if 2 ≤ i ∧ i < names.length + 2 then 1 else 0 := by
  induction names using List.reverseRecOn with
  | nil => exact (if_neg fun hc => Nat.not_lt.2 hc.1 hc.2).symm
  | append_singleton names name ih =>
    rw [List.mapIdx_append, List.countP_append, ih]
    simp only [List.mapIdx_cons, List.mapIdx_nil, List.countP_singleton, List.length_append,
      List.length_singleton, decide_eq_true_eq]
    split <;> split <;> split <;> omega

/-- The root directory of an image. -/
def rootNode (names : List (List UInt8)) (c : Nat) : Node :=
  { kind := .dir, nlink := 1, ents := rootEnts names ++ List.replicate c freeEnt }

theorem rest_rootNode (names : List (List UInt8)) (c : Nat) : (rootNode names c).rest =
    (names.mapIdx fun j name => { inum := j + 2, name := name }) ++ List.replicate c freeEnt :=
  rfl

theorem restCount_rootNode (names : List (List UInt8)) (c : Nat) {i : Nat} (hi : i ≠ 0) :
    (rootNode names c).restCount i = if 2 ≤ i ∧ i < names.length + 2 then 1 else 0 := by
  have hfree : (List.replicate c freeEnt).countP (fun e => e.inum = i) = 0 := by
    refine List.countP_eq_zero.2 fun e he => ?_
    rw [List.eq_of_mem_replicate he]
    exact fun hc => hi (of_decide_eq_true hc).symm
  rw [Node.restCount, rest_rootNode, List.countP_append, countP_inputs, hfree, Nat.add_zero]

theorem shaped_rootNode (hdots : ∀ name ∈ names, name ≠ dot ∧ name ≠ dotdot) (c : Nat) :
    Shaped ROOTINO (rootNode names c) := by
  refine ⟨rfl, ?_, fun hz => absurd hz Int.one_ne_zero⟩
  intro e he hpos
  rw [rest_rootNode] at he
  rcases List.mem_append.1 he with he | he
  · rcases List.mem_mapIdx.1 he with ⟨j, hj, rfl⟩
    exact hdots _ (List.getElem_mem hj)
  · rw [List.eq_of_mem_replicate he] at hpos
    exact absurd rfl hpos

theorem builtTree_eq (names : List (List UInt8)) (c : Nat) {i : Nat} {n : Node}
    (h : builtTree (rootNode names c).ents names.length i = some n) :
    (i = ROOTINO ∧ n = rootNode names c) ∨
      (2 ≤ i ∧ i < names.length + 2 ∧ n = { kind := .file, nlink := 1, ents := [] }) := by
  unfold builtTree at h
  split at h
  · rename_i hi
    cases h
    exact .inl ⟨hi, rfl⟩
  split at h
  · rename_i hi
    cases h
    exact .inr ⟨hi.1, hi.2, rfl⟩
  · cases h

theorem live_builtTree (names : List (List UInt8)) (c : Nat) {i : Nat} {n : Node} :
    Live (builtTree (rootNode names c).ents names.length) i n ↔
      i = ROOTINO ∧ n = rootNode names c := by
  constructor
  · intro h
    rcases builtTree_eq names c h.node with heq | ⟨_, _, rfl⟩
    · exact heq
    · cases h.dir
  · rintro ⟨rfl, rfl⟩
    exact ⟨if_pos rfl, rfl, Int.one_pos⟩

/-- The root names itself and every input once. -/
theorem wired_builtTree (hN : names.length + 2 ≤ N)
    (hdots : ∀ name ∈ names, name ≠ dot ∧ name ≠ dotdot) (c : Nat) :
    Wired N (builtTree (rootNode names c).ents names.length) := by
  have hroot := (live_builtTree names c).2 ⟨rfl, rfl⟩
  have hcount : ∀ i, i ≠ 0 → nameCount N (builtTree (rootNode names c).ents names.length) i =
      (if ROOTINO = i then 1 else 0) + if 2 ≤ i ∧ i < names.length + 2 then 1 else 0 := by
    intro i hi
    rw [nameCount, Finset.sum_eq_single ROOTINO, hroot.node, ← restCount_rootNode names c hi]
    · exact Node.nameCount_of_live (shaped_rootNode hdots c) rfl Int.one_pos hi
    · intro d _ hd
      refine Wired.nameTerm_eq_zero fun n hn => ?_
      exact absurd ((live_builtTree names c).1 hn).1 hd
    · exact fun hno => absurd (Finset.mem_range.2 (by simp only [ROOTINO]; omega)) hno
  refine ⟨?_, ?_, ?_, ?_, ?_, ?_, ⟨_, hroot, rfl⟩, ?_⟩
  · intro i n hi
    rcases builtTree_eq names c hi with ⟨rfl, _⟩ | ⟨hlo, hhi, _⟩
    · simp only [ROOTINO]
      omega
    · omega
  · intro d n hd hdir
    rcases builtTree_eq names c hd with ⟨rfl, rfl⟩ | ⟨_, _, rfl⟩
    · exact shaped_rootNode hdots c
    · cases hdir
  · intro i n hi
    rcases builtTree_eq names c hi with ⟨rfl, rfl⟩ | ⟨hlo, hhi, rfl⟩
    · rw [hcount _ Nat.one_ne_zero, if_pos rfl, if_neg fun hc => absurd hc.1 (by decide)]
      rfl
    · rw [hcount _ (by omega), if_neg (by simp only [ROOTINO]; omega), if_pos ⟨hlo, hhi⟩]
      rfl
  · intro i n hi
    have hone : n.nlink = 1 := by
      rcases builtTree_eq names c hi with ⟨_, rfl⟩ | ⟨_, _, rfl⟩ <;> rfl
    rw [hone]
    decide
  · intro d n e hd he hpos
    rcases (live_builtTree names c).1 hd with ⟨rfl, rfl⟩
    have hmem : 0 < (rootNode names c).restCount e.inum := Node.restCount_pos_iff.2 ⟨e, he, rfl⟩
    rw [restCount_rootNode names c hpos] at hmem
    split at hmem
    · rename_i hin
      unfold builtTree
      rw [if_neg (by simp only [ROOTINO]; omega)]
      exact (if_pos hin).trans_ne (Option.some_ne_none _)
    · exact absurd hmem (lt_irrefl _)
  · intro y n hy
    rcases (live_builtTree names c).1 hy with ⟨rfl, rfl⟩
    exact ⟨_, hroot⟩
  · intro y m d n hy hd
    rcases (live_builtTree names c).1 hy with ⟨rfl, rfl⟩
    rcases (live_builtTree names c).1 hd with ⟨rfl, rfl⟩
    rw [restCount_rootNode names c Nat.one_ne_zero, if_neg fun hc => absurd hc.1 (by decide),
      if_neg fun hc => hc.1 rfl]

/-- What the kernel finds on an image of inputs that fit. -/
theorem wired_of_main {files : List Input} {im : Image} (h : main files start = .ok () im)
    (hfits : Fits files) : ∃ c, (volOf im.disk).tree Mkfs.sb =
      builtTree (rootNode (files.map Input.entryName) c).ents (files.map Input.entryName).length ∧
      Wired NINODES ((volOf im.disk).tree Mkfs.sb) := by
  have hcount := hfits.1
  simp only [NINODES] at hcount
  rcases built_of_main h hfits with ⟨_, rfl, hbuilt⟩
  have htree := tree_finish hbuilt (by omega)
  rw [← List.length_map (f := Input.entryName)] at htree
  refine ⟨_, htree, ?_⟩
  rw [htree]
  refine wired_builtTree (by rw [List.length_map]; exact hfits.1) ?_ _
  intro name hname
  rcases List.mem_map.1 hname with ⟨f, hf, rfl⟩
  exact hfits.2.2 f hf

end

/-! ## Steps -/

def Node.isDead (n : Node) : Bool :=
  n.kind = .dir ∧ n.nlink = 0

/-- The condition on a call, on the state before it: the directory that its path leads to has links
if it gets an entry, and the link counts that grow are not at their limit. -/
def DeedOk (sb : Superblock) (s : St) (c : Call) : Prop :=
  (c.deed sb s).Sound (s.vol.tree sb)

instance (sb : Superblock) (s : St) (c : Call) : Decidable (DeedOk sb s c) :=
  inferInstanceAs (Decidable (Deed.Sound _ _))

/-- The condition by what a call does: if it changes names, the directories without links stay as
they are, and no link count grows beyond a `short`. -/
def LinkOk (sb : Superblock) (s : St) (c : Call) : Prop :=
  ∀ t ∈ step sb s c, (c.names = true → ∀ d < sb.ninodes, (s.vol.tree sb d).any Node.isDead = true →
      t.vol.tree sb d = s.vol.tree sb d) ∧
    ∀ i < sb.ninodes, (s.vol.tree sb i).any (·.nlink = 2 ^ 15 - 1) = true →
      (t.vol.tree sb i).any (·.nlink = -2 ^ 15) = false

instance (sb : Superblock) (s : St) (c : Call) : Decidable (LinkOk sb s c) :=
  inferInstanceAs (Decidable (∀ t ∈ step sb s c, _))

/-- The state between calls with the links counted. -/
structure Counted (sb : Superblock) (s : St) : Prop extends Inv sb s where
  wired : Wired sb.ninodes (s.vol.tree sb)
  tended : Tended sb s

namespace Counted

theorem sane (h : Counted sb s) : Sane sb s := by
  rcases h.wired.root with ⟨n, hn, _⟩
  exact ⟨⟨n, hn.node, hn.linked.ne'⟩, fun i n hi => ⟨h.wired.nonneg hi, h.wired.small i n hi⟩⟩

theorem effect (h : Counted sb s) (hstep : step sb s c = some t) :
    Effect sb.ninodes (c.deed sb s) (s.vol.tree sb) s.gen (t.vol.tree sb) t.gen ∧ Tended sb t :=
  (step_ended h.toInv hstep).effect h.sane h.tended

theorem fit (h : Counted sb s) (hok : LinkOk sb s c) (hstep : step sb s c = some t) :
    (c.deed sb s).Fit (s.vol.tree sb) (t.vol.tree sb) := by
  by_cases hn : c.names = true
  · rcases hok t hstep with ⟨hdead, hcount⟩
    refine .inl ⟨?_, ?_⟩
    · intro d n hd hdir hzero
      rw [hdead hn d (h.wired.bound d n hd).2 (by rw [hd]; exact decide_eq_true ⟨hdir, hzero⟩), hd]
    · intro i n m hi hm hn hneg
      have hno := hcount i (h.wired.bound i n hi).2 (by rw [hi]; exact decide_eq_true hn)
      rw [hm] at hno
      exact of_decide_eq_false hno hneg
  · have hnone : c.deed sb s = .none := by
      cases c <;> first | rfl | exact absurd rfl hn
    exact .inr (hnone ▸ trivial)

theorem step (h : Counted sb s) (hfit : (c.deed sb s).Fit (s.vol.tree sb) (t.vol.tree sb))
    (hstep : step sb s c = some t) : Counted sb t :=
  ⟨(step_ended h.toInv hstep).inv, h.wired.effect sb.ninodes_le (h.effect hstep).1 hfit,
    (h.effect hstep).2⟩

/-- Nothing names a free inode if the directories are below live ones. -/
theorem firm (h : Counted sb s) (ha : Anchored (s.vol.tree sb)) : Firm sb s := by
  have hents : ∀ d n e, s.vol.tree sb d = some n → e ∈ n.ents →
      n.kind = .dir ∧ (e.inum = d ∨ e.inum = n.up ∨ e ∈ n.rest) := by
    intro d n e hd he
    by_cases hdir : n.kind = .dir
    · rw [(h.wired.shape d n hd hdir).ents] at he
      rcases List.mem_cons.1 he with rfl | he
      · exact ⟨hdir, .inl rfl⟩
      rcases List.mem_cons.1 he with rfl | he
      · exact ⟨hdir, .inr (.inl rfl)⟩
      · exact ⟨hdir, .inr (.inr he)⟩
    · rw [(tree_eq_some hd).2.2.2.2 hdir] at he
      cases he
  have hrest : ∀ d n e, s.vol.tree sb d = some n → n.kind = .dir → e ∈ n.rest → e.inum ≠ 0 →
      Live (s.vol.tree sb) d n := by
    intro d n e hd hdir he hpos
    exact h.wired.live_of_dir hd hdir fun hzero =>
      hpos ((h.wired.shape d n hd hdir).dead hzero e he)
  refine ⟨?_, ?_, h.sane.root, ?_⟩
  · intro d n e hd he hpos
    rcases hents d n e hd he with ⟨hdir, heq | heq | he⟩
    · rw [heq, hd]
      exact Option.some_ne_none n
    · rcases ha d n hd hdir with ⟨m, hm⟩
      rw [heq, hm.node]
      exact Option.some_ne_none m
    · exact h.wired.named d n e (hrest d n e hd hdir he hpos) he hpos
  · intro d n e m hd he hm hzero
    rcases hents d n e hd he with ⟨hdir, heq | heq | he⟩
    · exact heq
    · rcases ha d n hd hdir with ⟨x, hx⟩
      rw [heq, hx.node] at hm
      cases hm
      exact absurd hzero hx.linked.ne'
    · have hpos := (h.wired.bound _ _ hm).1.ne'
      exact absurd hzero (h.wired.nlink_ne_zero (hrest d n e hd hdir he hpos) he hpos hm)
  · intro q hq
    rcases h.settled q hq with hvalid | hroot
    · rw [ne_eq, tree_eq_none_iff, ← h.stable.coherent q hq hvalid]
      exact h.stable.typed q hq hvalid
    · rcases h.sane.root with ⟨n, hn, _⟩
      rw [hroot, hn]
      exact Option.some_ne_none n

end Counted

theorem counted_boot {files : List Mkfs.Input} {im : Mkfs.Image}
    (h : Mkfs.main files Mkfs.start = .ok () im) (hfits : Mkfs.Fits files) :
    Counted Mkfs.sb (boot (Mkfs.volOf im.disk)) ∧ Anchored ((Mkfs.volOf im.disk).tree Mkfs.sb) := by
  rcases wired_of_main h hfits with ⟨c, htree, hwired⟩
  refine ⟨⟨inv_boot (Mkfs.intact_of_main h hfits), hwired, ?_⟩, ?_⟩
  · intro i n hi hzero
    have hone : n.nlink = 1 := by
      have hi' : (Mkfs.volOf im.disk).tree Mkfs.sb i = some n := hi
      rw [htree] at hi'
      rcases builtTree_eq _ c hi' with ⟨_, rfl⟩ | ⟨_, _, rfl⟩ <;> rfl
    rw [hone] at hzero
    cases hzero
  · intro d n hd hdir
    refine hwired.parent d n ⟨hd, hdir, ?_⟩
    rw [htree] at hd
    rcases builtTree_eq _ c hd with ⟨_, rfl⟩ | ⟨_, _, rfl⟩
    · exact Int.one_pos
    · exact Int.one_pos

/-! ## Link counts -/

/-- In every state reached the link count of an inode is the number of its names in live
directories, and an inode that nothing refers to is allocated exactly if it has a name. -/
theorem nlink_of_reaches {files : List Mkfs.Input} {im : Mkfs.Image}
    (hmain : Mkfs.main files Mkfs.start = .ok () im) (hfits : Mkfs.Fits files)
    (h : Reaches (step Mkfs.sb) (DeedOk Mkfs.sb) (boot (Mkfs.volOf im.disk)) s) :
    (∀ i n, s.vol.tree Mkfs.sb i = some n →
      n.nlink = nameCount Mkfs.NINODES (s.vol.tree Mkfs.sb) i) ∧
    ∀ i, 0 < i → i < Mkfs.NINODES → (∀ q, (s.itable q).inum = i → (s.itable q).ref = 0) →
      (s.vol.tree Mkfs.sb i ≠ none ↔ 0 < nameCount Mkfs.NINODES (s.vol.tree Mkfs.sb) i) := by
  have hcounted : Counted Mkfs.sb s :=
    h.invariant (counted_boot hmain hfits).1 fun s c t hs hok hstep => hs.step (.inr hok) hstep
  have hwired : Wired Mkfs.NINODES (s.vol.tree Mkfs.sb) := hcounted.wired
  refine ⟨hwired.nlink, fun i hpos _ hidle => ?_⟩
  cases hi : s.vol.tree Mkfs.sb i with
  | none =>
    have hzero := hwired.nameCount_none hi hpos.ne'
    exact ⟨fun hc => absurd rfl hc, fun hc => absurd (hzero ▸ hc) (lt_irrefl _)⟩
  | some n =>
    refine ⟨fun _ => ?_, fun _ => Option.some_ne_none n⟩
    have hn : n.nlink ≠ 0 := by
      intro hzero
      rcases hcounted.tended i n hi hzero with ⟨q, hq, hinum, _⟩
      rw [hidle q hinum] at hq
      exact lt_irrefl _ hq
    have hcount : n.nlink = nameCount Mkfs.NINODES (s.vol.tree Mkfs.sb) i :=
      hwired.nlink i n hi
    omega

/-- A file in a directory gets a second name, and both names and the directory are removed. -/
def linkCalls : List Call :=
  [.mkdir 0 (some [97]), .open 0 (some [97, 47, 102]) O_CREATE,
    .link 0 (some [97, 47, 102]) (some [103]), .unlink 0 (some [97, 47, 102]),
    .unlink 0 (some [97]), .close 0 0]

set_option maxRecDepth 100000 in
theorem nlink_of_reaches_calls : ∃ s, runIf (step Mkfs.sb) (DeedOk Mkfs.sb) (boot Mkfs.blank)
      linkCalls = some s ∧ s.vol.tree Mkfs.sb 2 = none ∧
    (∀ i n, s.vol.tree Mkfs.sb i = some n →
      n.nlink = nameCount Mkfs.NINODES (s.vol.tree Mkfs.sb) i) ∧
    ∀ i, 0 < i → i < Mkfs.NINODES → (∀ q, (s.itable q).inum = i → (s.itable q).ref = 0) →
      (s.vol.tree Mkfs.sb i ≠ none ↔ 0 < nameCount Mkfs.NINODES (s.vol.tree Mkfs.sb) i) := by
  have heval : (runIf (step Mkfs.sb) (DeedOk Mkfs.sb) (boot Mkfs.blank) linkCalls).any fun s =>
      decide (s.vol.tree Mkfs.sb 2 = none) := by
    decide +kernel
  rcases exists_of_any heval with ⟨s, hs, hfree⟩
  exact ⟨s, hs, hfree, nlink_of_reaches Mkfs.main_nil (by decide) (.of_runIf hs)⟩

/-- A file is made in a directory that has been removed. -/
def unnamedCalls : List Call :=
  [.mkdir 0 (some [97]), .chdir 0 (some [97]), .unlink 0 (some [47, 97]),
    .open 0 (some [102]) O_CREATE, .close 0 0, .chdir 0 (some [47])]

set_option maxRecDepth 100000 in
/-- The file stays with a link, no name and nothing that refers to it. -/
theorem unnamed_file : ∃ s n, run (step Mkfs.sb) (boot Mkfs.blank) unnamedCalls = some s ∧
    s.vol.tree Mkfs.sb 3 = some n ∧ n.nlink = 1 ∧
    nameCount Mkfs.NINODES (s.vol.tree Mkfs.sb) 3 = 0 ∧
    ∀ q, (s.itable q).inum = 3 → (s.itable q).ref = 0 := by
  have heval : (run (step Mkfs.sb) (boot Mkfs.blank) unnamedCalls).any fun s =>
      decide (s.vol.tree Mkfs.sb 3 = some { kind := .file, nlink := 1, ents := [] } ∧
        nameCount Mkfs.NINODES (s.vol.tree Mkfs.sb) 3 = 0 ∧
        ∀ q, (s.itable q).inum = 3 → (s.itable q).ref = 0) := by
    decide +kernel
  rcases exists_of_any heval with ⟨s, hs, hnode, hcount, hidle⟩
  exact ⟨s, _, hs, hnode, rfl, hcount, hidle⟩

/-! ## Directory entries -/

/-- The conditions on a call for directory entries: also, no directory is removed that is `..` of
one that was removed before. -/
def NameOk (sb : Superblock) (s : St) (c : Call) : Prop :=
  DeedOk sb s c ∧ (c.deed sb s).NoOrphans sb.ninodes (s.vol.tree sb)

instance (sb : Superblock) (s : St) (c : Call) : Decidable (NameOk sb s c) :=
  inferInstanceAs (Decidable (_ ∧ _))

/-- The state between calls with every directory below a live one. -/
structure Named (sb : Superblock) (s : St) : Prop extends Counted sb s where
  anchored : Anchored (s.vol.tree sb)

namespace Named

theorem step (h : Named sb s) (hok : NameOk sb s c) (hstep : step sb s c = some t) :
    Named sb t :=
  ⟨h.toCounted.step (.inr hok.1) hstep,
    h.anchored.effect h.wired sb.ninodes_le (h.effect hstep).1 (.inr hok.1) hok.2⟩

end Named

/-- `d` was directory `n` in `s` and has been allocated since then or still has the same `..`,
which has not been allocated since then. -/
def UpKept (sb : Superblock) (s t : St) : Prop :=
  (∀ d, s.gen d ≤ t.gen d) ∧ ∀ d n m, s.vol.tree sb d = some n → n.kind = .dir →
    t.vol.tree sb d = some m → t.gen d = s.gen d →
      m.kind = .dir ∧ m.up = n.up ∧ t.gen n.up = s.gen n.up

/-- One call keeps `..`: the directory above is live, so it is not allocated anew. -/
theorem UpKept.step {u : St} (h : UpKept sb s t) (ht : Named sb t) (hok : NameOk sb t c)
    (hstep : Fs.step sb t c = some u) : UpKept sb s u := by
  have heffect := (ht.effect hstep).1
  refine ⟨fun d => (h.1 d).trans (heffect.gen_le d), fun d n m hd hdir hm hgen => ?_⟩
  have hgen' : t.gen d = s.gen d := le_antisymm (hgen ▸ heffect.gen_le d) (h.1 d)
  rcases ht.wired.up_effect sb.ninodes_le heffect (.inr hok.1) hm (hgen.trans hgen'.symm) with
    ⟨x, hx, hkind, hup⟩
  rcases h.2 d n x hd hdir hx hgen' with ⟨hxdir, hxup, hxgen⟩
  rcases ht.anchored d x hx hxdir with ⟨y, hy⟩
  rw [hxup] at hy
  exact ⟨hkind.trans hxdir, hup.trans hxup, (heffect.gen_eq hy.node hy.linked.ne').trans hxgen⟩

/-- In every state reached each entry of a directory names an allocated inode, its `.` and `..`
stay those they were, also in directories that have been removed, and no call locks a free
inode. -/
theorem names_of_reaches {files : List Mkfs.Input} {im : Mkfs.Image}
    (hmain : Mkfs.main files Mkfs.start = .ok () im) (hfits : Mkfs.Fits files)
    (h : Reaches (step Mkfs.sb) (NameOk Mkfs.sb) (boot (Mkfs.volOf im.disk)) s) :
    (∀ d n e, s.vol.tree Mkfs.sb d = some n → n.kind = .dir → e ∈ n.ents → e.inum ≠ 0 →
      s.vol.tree Mkfs.sb e.inum ≠ none) ∧
    (∀ t d n m, Reaches (step Mkfs.sb) (NameOk Mkfs.sb) s t → s.vol.tree Mkfs.sb d = some n →
      n.kind = .dir → t.vol.tree Mkfs.sb d = some m → t.gen d = s.gen d →
        ∃ up, n.ents[0]? = some { inum := d, name := dot } ∧
          n.ents[1]? = some { inum := up, name := dotdot } ∧
          m.ents[0]? = some { inum := d, name := dot } ∧
          m.ents[1]? = some { inum := up, name := dotdot } ∧ t.gen up = s.gen up) ∧
    ∀ c : Call, c.enabled s = true → c.run Mkfs.sb s ≠ .error .ilockNoType := by
  have hboot := counted_boot hmain hfits
  have hnamed : Named Mkfs.sb s := h.invariant (P := Named Mkfs.sb) ⟨hboot.1, hboot.2⟩
    fun s c t hs hok hstep => hs.step hok hstep
  have hfirm := hnamed.firm hnamed.anchored
  refine ⟨fun d n e hd _ => hfirm.named d n e hd, ?_, ?_⟩
  · intro t d n m ht hd hdir hm hgen
    have hstart : UpKept Mkfs.sb s s := by
      refine ⟨fun _ => le_rfl, fun d n m hd hdir hm _ => ?_⟩
      cases Option.some.inj (hd.symm.trans hm)
      exact ⟨hdir, rfl, rfl⟩
    rcases ht.invariant (P := fun t => Named Mkfs.sb t ∧ UpKept Mkfs.sb s t) ⟨hnamed, hstart⟩
      fun t c u ht hok hstep => ⟨ht.1.step hok hstep, ht.2.step ht.1 hok hstep⟩ with ⟨hnt, hkept⟩
    rcases hkept.2 d n m hd hdir hm hgen with ⟨hmdir, hup, hgenup⟩
    have hs := hnamed.wired.shape d n hd hdir
    have hs' := hnt.wired.shape d m hm hmdir
    refine ⟨n.up, ?_, ?_, ?_, ?_, hgenup⟩
    · rw [hs.ents]
      rfl
    · rw [hs.ents]
      rfl
    · rw [hs'.ents]
      rfl
    · rw [hs'.ents, ← hup]
      rfl
  · intro c hc herr
    exact (of_wp_error (call_spec hnamed.toInv hc) herr).2 rfl hfirm hnamed.sane

set_option maxRecDepth 100000 in
theorem names_of_reaches_calls : ∃ s, runIf (step Mkfs.sb) (NameOk Mkfs.sb) (boot Mkfs.blank)
      linkCalls = some s ∧
    (∀ d n e, s.vol.tree Mkfs.sb d = some n → n.kind = .dir → e ∈ n.ents → e.inum ≠ 0 →
      s.vol.tree Mkfs.sb e.inum ≠ none) ∧
    ∀ c : Call, c.enabled s = true → c.run Mkfs.sb s ≠ .error .ilockNoType := by
  have heval : (runIf (step Mkfs.sb) (NameOk Mkfs.sb) (boot Mkfs.blank) linkCalls).isSome =
      true := by
    decide +kernel
  rcases Option.isSome_iff_exists.1 heval with ⟨s, hs⟩
  have hnames := names_of_reaches Mkfs.main_nil (by decide) (.of_runIf hs)
  exact ⟨s, hs, hnames.1, hnames.2.2⟩

/-- A directory in a directory is removed while a process is in it, and then the one above. -/
def danglingCalls : List Call :=
  [.mkdir 0 (some [97]), .mkdir 0 (some [97, 47, 98]), .chdir 0 (some [97, 47, 98]),
    .unlink 0 (some [47, 97, 47, 98]), .unlink 0 (some [47, 97])]

set_option maxRecDepth 100000 in
/-- The entry `..` then names a free inode, and a path through it makes `ilock` panic. -/
theorem dangling_parent : ∃ s n, run (step Mkfs.sb) (boot Mkfs.blank) danglingCalls = some s ∧
    s.vol.tree Mkfs.sb 3 = some n ∧ n.kind = .dir ∧
    n.ents[1]? = some { inum := 2, name := dotdot } ∧ s.vol.tree Mkfs.sb 2 = none ∧
    Call.enabled s (.open 0 (some dotdot) 0) = true ∧
    Call.run Mkfs.sb (.open 0 (some dotdot) 0) s = .error .ilockNoType := by
  have heval : (run (step Mkfs.sb) (boot Mkfs.blank) danglingCalls).any fun s =>
      decide (((s.vol.tree Mkfs.sb 3).any fun n =>
          decide (n.kind = .dir ∧ n.ents[1]? = some { inum := 2, name := dotdot })) ∧
        s.vol.tree Mkfs.sb 2 = none ∧ Call.enabled s (.open 0 (some dotdot) 0) = true ∧
        (Call.run Mkfs.sb (.open 0 (some dotdot) 0) s).error? = some .ilockNoType) := by
    decide +kernel
  rcases exists_of_any heval with ⟨s, hs, hnode, hfree, henabled, herr⟩
  rcases exists_of_any hnode with ⟨n, hn, hdir, hup⟩
  exact ⟨s, n, hs, hn, hdir, hup, hfree, henabled, Outcome.of_error? herr⟩

end Xv6.Fs
