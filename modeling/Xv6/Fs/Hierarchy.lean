import Xv6.Fs.LinkRuns
import Xv6.Fs.Runs
import Xv6.Itable.Model

/-!
# Hierarchy — the directories form a tree, and each one is a map

What the calls keep of the names beside the link counts: following `..` one comes to the root, and
a directory has no name twice.  What `dirlookup` and `dirlink` do to the blocks of a directory
`Itable.Model` has as one step on its records.
-/

namespace Xv6.Fs

open Lib Prog Volume
open Function (update update_apply)

variable {N d i k z : Nat} {l : Int} {T T' : Tree} {n m : Node} {e x y : Ent} {es : List Ent}
  {names : List (List UInt8)} {sb : Superblock} {s t : St} {c : Call}

/-! ## The way to the root -/

/-- Following `..` from `d` through live directories one comes to the root. -/
inductive Rooted (T : Tree) : Nat → Prop where
  | root : Rooted T ROOTINO
  | up {d : Nat} {n : Node} (hd : Live T d n) (hup : Rooted T n.up) : Rooted T d

def Connected (T : Tree) : Prop :=
  ∀ d n, Live T d n → Rooted T d

theorem Rooted.frees (hf : Frees T T') (h : Rooted T d) : Rooted T' d := by
  induction h with
  | root => exact .root
  | up hd _ ih => exact .up ((Wired.live_frees hf).2 hd) ih

theorem Connected.frees (hf : Frees T T') (h : Connected T) : Connected T' :=
  fun d n hd => (h d n ((Wired.live_frees hf).1 hd)).frees hf

namespace Rewire

/-- A directory stays on its way: the one that is removed has no other in it. -/
theorem rooted (h : Rewire N T d n l k e i m) (hw : Wired N T) (hz : Rooted T z) (hne : z ≠ i) :
    Rooted (swap T d (n.put l k e) i m) z := by
  induction hz with
  | root => exact .root
  | up hz _ ih =>
    rcases h.live hw hz hne with ⟨x, hx, hup⟩
    exact .up hx (hup ▸ ih (h.alone _ _ hz hne))

theorem connected (h : Rewire N T d n l k e i m) (hw : Wired N T) (hc : Connected T) :
    Connected (swap T d (n.put l k e) i m) := by
  intro z x hz
  by_cases hi : z = i
  · -- `i` is new and in `d`, which is live and not `i`.
    subst hi
    cases Option.some.inj (hz.node.symm.trans (swap_inode h.ne _ _ _))
    refine .up hz ?_
    rw [h.parent hz.dir]
    exact h.rooted hw (hc d n h.dir) (Ne.symm h.ne)
  · rcases h.was_live hw hz hi with ⟨u, hu, _⟩
    exact h.rooted hw (hc z u hu) hi

end Rewire

theorem Counted.connected (h : Counted sb s) (hok : LinkOk sb s c) (hstep : Fs.step sb s c = some t)
    (hc : Connected (s.vol.tree sb)) : Connected (t.vol.tree sb) := by
  rcases h.effect hstep with ⟨⟨T₁, T₂, h₁, hchange, h₂, _⟩, _⟩
  refine .frees h₂ ?_
  rcases (h.wired.frees h₁).change sb.ninodes_le hchange ((h.fit hok hstep).inner h₁ h₂) with
    rfl | ⟨_, _, _, _, _, _, _, he, rfl, _⟩
  · exact hc.frees h₁
  · exact he.connected (h.wired.frees h₁) (hc.frees h₁)

/-- In every state reached one comes from each live directory to the root by following `..`, and
but for the root it has exactly one name in live directories, in the one that its `..` names. -/
theorem hierarchy_of_reaches {files : List Mkfs.Input} {im : Mkfs.Image}
    (hmain : Mkfs.main files Mkfs.start = .ok () im) (hfits : Mkfs.Fits files)
    (h : Reaches (step Mkfs.sb) (LinkOk Mkfs.sb) (boot (Mkfs.volOf im.disk)) s)
    (hd : Live (s.vol.tree Mkfs.sb) d n) :
    Rooted (s.vol.tree Mkfs.sb) d ∧ (∃ m, Live (s.vol.tree Mkfs.sb) n.up m) ∧
      ∀ p m, Live (s.vol.tree Mkfs.sb) p m →
        m.restCount d = if d ≠ ROOTINO ∧ p = n.up then 1 else 0 := by
  have hboot : Connected ((Mkfs.volOf im.disk).tree Mkfs.sb) := by
    rcases wired_of_main hmain hfits with ⟨c, htree, _⟩
    rw [htree]
    intro d n hd
    rw [((live_builtTree _ c).1 hd).1]
    exact .root
  rcases h.invariant (P := fun s => Counted Mkfs.sb s ∧ Connected (s.vol.tree Mkfs.sb))
    ⟨(counted_boot hmain hfits).1, hboot⟩
    fun s c t hs hok hstep =>
      ⟨hs.1.step (hs.1.fit hok hstep) hstep, hs.1.connected hok hstep hs.2⟩ with
    ⟨hcounted, hconn⟩
  exact ⟨hconn d n hd, hcounted.wired.parent d n hd,
    fun p m hp => hcounted.wired.once d n p m hd hp⟩

/-- A directory is made in another one. -/
def nestedCalls : List Call :=
  [.mkdir 0 (some [97]), .mkdir 0 (some [97, 47, 98])]

set_option maxRecDepth 100000 in
theorem exists_nested : ∃ s n, runIf (step Mkfs.sb) (LinkOk Mkfs.sb) (boot Mkfs.blank) nestedCalls =
    some s ∧ Live (s.vol.tree Mkfs.sb) 3 n ∧ n.up = 2 := by
  have heval : ((runIf (step Mkfs.sb) (LinkOk Mkfs.sb) (boot Mkfs.blank) nestedCalls).bind fun s =>
      (s.vol.tree Mkfs.sb 3).map fun n => decide (n.kind = .dir ∧ 0 < n.nlink ∧ n.up = 2)) =
      some true := by
    decide +kernel
  rcases Option.bind_eq_some_iff.1 heval with ⟨s, hs, hval⟩
  rcases Option.map_eq_some_iff.1 hval with ⟨n, hn, hlive⟩
  rcases of_decide_eq_true hlive with ⟨hdir, hlinked, hup⟩
  exact ⟨s, n, hs, ⟨hn, hdir, hlinked⟩, hup⟩

theorem hierarchy_of_reaches_nested : ∃ s n, runIf (step Mkfs.sb) (LinkOk Mkfs.sb)
      (boot Mkfs.blank) nestedCalls = some s ∧
    Live (s.vol.tree Mkfs.sb) 3 n ∧ n.up = 2 ∧ Rooted (s.vol.tree Mkfs.sb) 3 := by
  rcases exists_nested with ⟨s, n, hs, hn, hup⟩
  have hn' := hierarchy_of_reaches Mkfs.main_nil (by decide) (.of_runIf hs) hn
  exact ⟨s, n, hs, hn, hup, hn'.1⟩

/-! ## Names in one directory -/

/-- No two entries in use have the same name. -/
def Distinct (es : List Ent) : Prop :=
  es.Pairwise fun x y => x.inum ≠ 0 → y.inum ≠ 0 → x.name ≠ y.name

namespace Distinct

theorem eq (h : Distinct es) (hx : es[i]? = some x) (hy : es[k]? = some y) (hxi : x.inum ≠ 0)
    (hyi : y.inum ≠ 0) (hname : x.name = y.name) : i = k := by
  have hget := List.pairwise_iff_getElem.1 h
  grind

/-- An entry is set whose name is new, or which is free. -/
theorem setEnt (h : Distinct es)
    (hfresh : e.inum ≠ 0 → ∀ x ∈ es, x.inum ≠ 0 → x.name ≠ e.name) : Distinct (setEnt es k e) := by
  unfold Distinct at *
  rw [List.pairwise_iff_getElem] at h ⊢
  unfold Fs.setEnt
  grind

theorem newNode {kind : FileType} : Distinct (newNode kind i d).ents := by
  have hdots : dot ≠ dotdot := by decide
  unfold Fs.newNode
  split <;> simp [Distinct, hdots]

theorem rootNode (hnodup : names.Nodup) (hdots : ∀ name ∈ names, name ≠ dot ∧ name ≠ dotdot) :
    Distinct (rootNode names k).ents := by
  have hne : dot ≠ dotdot := by decide
  have hnames := List.pairwise_iff_getElem.1 hnodup
  unfold Distinct Fs.rootNode Mkfs.rootEnts
  rw [List.pairwise_iff_getElem]
  grind [Mkfs.freeEnt]

end Distinct

def AllDistinct (T : Tree) : Prop :=
  ∀ d n, T d = some n → Distinct n.ents

namespace AllDistinct

theorem frees (hf : Frees T T') (h : AllDistinct T) : AllDistinct T' :=
  fun d n hd => h d n (hf.of_some hd)

theorem update (h : AllDistinct T) (hm : Distinct m.ents) : AllDistinct (update T i (some m)) := by
  intro d n hd
  rw [update_apply] at hd
  split at hd
  · cases hd
    exact hm
  · exact h d n hd

/-- A call gives an entry only a name that the directory does not have. -/
theorem effect {a : Deed} {g g' : Nat → Nat} (h : AllDistinct T) (he : Effect N a T g T' g') :
    AllDistinct T' := by
  rcases he with ⟨T₁, T₂, h₁, hchange, h₂, _⟩
  refine .frees h₂ ?_
  replace h := h.frees h₁
  cases hchange with
  | none => exact h
  | create hn hroom => exact (h.update .newNode).update ((h _ _ hn).setEnt fun _ => hroom.fresh)
  | link hn hroom hm =>
    have hm' := h _ _ hm
    refine (h.update ?_).update ?_
    · exact hm'
    · exact (h _ _ hn).setEnt fun _ => hroom.fresh
  | unlink hn _ hent _ _ hm =>
    have hm' := h _ _ hm
    refine (h.update ?_).update ?_
    · rw [← setEnt_eq_set (List.getElem?_eq_some_iff.1 hent).1]
      exact (h _ _ hn).setEnt fun hc => absurd rfl hc
    · exact hm'

end AllDistinct

/-- In every state reached from an image of files with different names no directory has a name
twice, and `dirlookup` finds each entry under its name. -/
theorem lookups_of_reaches {files : List Mkfs.Input} {im : Mkfs.Image}
    (hmain : Mkfs.main files Mkfs.start = .ok () im) (hfits : Mkfs.Fits files)
    (hnames : (files.map Mkfs.Input.entryName).Nodup)
    (h : Reaches (step Mkfs.sb) (LinkOk Mkfs.sb) (boot (Mkfs.volOf im.disk)) s) :
    AllDistinct (s.vol.tree Mkfs.sb) ∧
    ∀ q n name r t, Dir Mkfs.sb s q n → dirlookup Mkfs.sb q name s = .ok r t →
      ∀ k, (∃ e, n.ents[k]? = some e ∧ e.inum ≠ 0 ∧ e.name = name.str) ↔
        ∃ ip, r = some (ip, k * DESIZE) := by
  have hboot : AllDistinct ((Mkfs.volOf im.disk).tree Mkfs.sb) := by
    rcases wired_of_main hmain hfits with ⟨c, htree, _⟩
    rw [htree]
    intro d n hd
    rcases builtTree_eq _ c hd with ⟨_, rfl⟩ | ⟨_, _, rfl⟩
    · exact .rootNode hnames (List.forall_mem_map.2 hfits.2.2)
    · exact .nil
  rcases h.invariant (P := fun s => Counted Mkfs.sb s ∧ AllDistinct (s.vol.tree Mkfs.sb))
    ⟨(counted_boot hmain hfits).1, hboot⟩
    fun s c t hs hok hstep =>
      ⟨hs.1.step (hs.1.fit hok hstep) hstep, hs.2.effect (hs.1.effect hstep).1⟩ with
    ⟨_, hdistinct⟩
  refine ⟨hdistinct, fun q n name r t hq hcall k => ?_⟩
  rcases of_wp (dirlookup_spec hq) hcall with ⟨rfl, _, hnone⟩ | ⟨ip, j, rfl, hfound⟩
  · constructor
    · rintro ⟨e, he, hi, hname⟩
      exact absurd hname (hnone e (List.mem_of_getElem? he) hi)
    · rintro ⟨_, ⟨⟩⟩
  · constructor
    · rintro ⟨e, he, hi, hname⟩
      rw [(hdistinct _ n hq.node).eq he hfound.ent hi hfound.used hname]
      exact ⟨ip, rfl⟩
    · rintro ⟨_, hr⟩
      have hk : j = k := Nat.eq_of_mul_eq_mul_right (by decide) (Prod.mk.inj (Option.some.inj hr)).2
      exact ⟨_, hk ▸ hfound.ent, hfound.used, rfl⟩

set_option maxRecDepth 100000 in
/-- `dirlookup` finds `a` in the third entry of the root directory. -/
theorem lookups_of_reaches_found : ∃ s n ip t, runIf (step Mkfs.sb) (LinkOk Mkfs.sb)
      (boot Mkfs.blank) nestedCalls = some s ∧
    AllDistinct (s.vol.tree Mkfs.sb) ∧ Dir Mkfs.sb s 0 n ∧
    dirlookup Mkfs.sb 0 (.ofList [97]) s = .ok (some (ip, 2 * DESIZE)) t ∧
    ∃ e, n.ents[2]? = some e ∧ e.inum ≠ 0 ∧ e.name = (Name.ofList [97]).str := by
  have heval : (runIf (step Mkfs.sb) (LinkOk Mkfs.sb) (boot Mkfs.blank) nestedCalls).any fun s =>
      decide (0 < (s.itable 0).ref ∧ (s.itable 0).valid = true ∧ (s.itable 0).copy.type = .dir ∧
        (dirlookup Mkfs.sb 0 (.ofList [97]) s).value? = some (some (1, 2 * DESIZE))) := by
    decide +kernel
  rcases exists_of_any heval with ⟨s, hs, href, hvalid, htype, hfound⟩
  have hreach := Reaches.of_runIf hs
  have hstable := (inv_of_reaches (inv_boot Mkfs.intact_blank) hreach).1.stable
  rcases hstable.dir href hvalid htype with ⟨n, hdir⟩
  rcases Outcome.of_value? hfound with ⟨t, hcall⟩
  have hlookup := lookups_of_reaches Mkfs.main_nil (by decide) .nil hreach
  exact ⟨s, n, 1, t, hs, hlookup.1, hdir, hcall, (hlookup.2 0 n _ _ t hdir hcall 2).2 ⟨1, rfl⟩⟩

/-! ## The records of the concurrent model -/

/-- The entries as `Itable.Model` has them. -/
def Node.dirents (n : Node) : List Itable.Dirent :=
  n.ents.map fun e => { name := e.name, inum := e.inum }

/-- `dirlookup` on the blocks of the disk finds the record that the concurrent model finds. -/
theorem dirlookup_findEnt {q : Ip} {name : Name} {r : Option (Ip × Nat)} (h : Dir sb s q n)
    (hcall : dirlookup sb q name s = .ok r t) :
    (Itable.findEnt n.dirents name.str).map (fun x => (x.2, x.1 * DESIZE)) =
      r.map fun x => ((t.itable x.1).inum, x.2) := by
  simp only [Itable.findEnt, Node.dirents, List.findIdx?_map, Function.comp_def]
  rcases of_wp (dirlookup_spec h) hcall with ⟨rfl, _, hnone⟩ | ⟨ip, k, rfl, hfound⟩
  · rw [List.findIdx?_eq_none_iff.2 fun e he => by simpa using hnone e he]
    rfl
  · rcases List.getElem?_eq_some_iff.1 hfound.ent with ⟨hlt, hget⟩
    have hidx : n.ents.findIdx? (fun e => decide (e.inum ≠ 0 ∧ e.name = name.str)) = some k := by
      refine List.findIdx?_eq_some_iff_getElem.2 ⟨hlt, ?_, fun j hj => ?_⟩
      · rw [hget]
        exact decide_eq_true ⟨hfound.used, rfl⟩
      · simpa using hfound.first j _ hj (List.getElem?_eq_getElem (hj.trans hlt))
    rw [hidx]
    simp [hfound.ent]

/-- `dirlink` puts the record where the concurrent model puts it. -/
theorem dirlink_insertEnt {q : Ip} {name : Name} (h : Dir sb s q n)
    (hcall : dirlink sb q name i s = .ok true t) :
    (t.vol.tree sb (s.itable q).inum).map Node.dirents =
      some (Itable.insertEnt n.dirents { name := name.str, inum := i % 2 ^ 16 }) := by
  rcases of_wp (dirlink_spec h) hcall with ⟨⟨⟩, _⟩ | ⟨_, k, hlink⟩
  rw [hlink.node]
  simp only [Itable.insertEnt, Node.dirents, setEnt, List.findIdx?_map, Function.comp_def,
    Option.map_some]
  split
  · rename_i hlt
    rw [List.findIdx?_eq_some_iff_getElem.2 ⟨hlt,
      decide_eq_true (hlink.empty _ (List.getElem?_eq_getElem hlt)), fun j hj => by
        simpa using hlink.first j _ hj (List.getElem?_eq_getElem (hj.trans hlt))⟩]
    simp [List.map_set]
  · rename_i hge
    rw [List.findIdx?_eq_none_iff.2 fun e he => ?_]
    · simp
    · rcases List.getElem?_of_mem he with ⟨j, hj⟩
      simpa using hlink.first j e (by grind) hj

end Xv6.Fs
