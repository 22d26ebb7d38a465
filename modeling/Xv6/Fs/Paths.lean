import Xv6.Fs.Entries

/-!
# Paths — walking a path

`namex` holds a reference to one inode at a time.  It locks a free inode only if something that is
named or referred to is not allocated.
-/

namespace Xv6.Fs

open Lib Prog Volume

variable {sb : Superblock} {s t u : St} {p : Slot} {q : Ip}

theorem Stable.dir (h : Stable sb s) (hq : 0 < (s.itable q).ref)
    (hvalid : (s.itable q).valid = true) (htype : (s.itable q).copy.type = .dir) :
    ∃ n, Dir sb s q n := by
  rcases h.node hq hvalid with ⟨n, hn, hkind, _⟩
  exact ⟨n, h, hq, hvalid, hn, hkind.trans htype⟩

/-- What a walk to a path's inode, which is `x`, leaves: one reference to it, and nothing else. -/
def Walked (sb : Superblock) (s : St) (parent : Bool) (x : Option (Nat × Name))
    (r : Option (Ip × Name)) (t : St) : Prop :=
  match r with
  | none => Walk sb s t 0
  | some (q, name) => Walk sb s t (one q) ∧ x = some ((t.itable q).inum, name) ∧
      (parent = true → (t.itable q).valid = true ∧ (t.itable q).copy.type = .dir)

theorem walk_iunlockput {δ : Ip → Int} (hs : Stable sb s) (h : Walk sb s t δ) (hq : 0 < δ q) :
    wp (iunlockput sb q) (Blame sb s) (fun _ u => Walk sb s u (δ - one q)) t :=
  wp_mono (iunlockput_spec h.stable (h.toTrack.held hs hq)) (fun _ he => he.blame sb s)
    fun _ _ hput => h.put hq hput

theorem one_self_pos (q : Ip) : 0 < one q q := by
  simp [one]

theorem walk_release (hs : Stable sb s) (h : Walk sb s t (one q)) :
    wp (iunlockput sb q) (Blame sb s) (fun _ u => Walk sb s u 0) t :=
  sub_self (one q) ▸ walk_iunlockput hs h (one_self_pos q)

theorem one_add_left_pos (p q : Ip) : 0 < (one p + one q) p := by
  have hnonneg := one_nonneg q p
  simp only [Pi.add_apply, one, if_true] at hnonneg ⊢
  omega

theorem one_add_right_pos (p q : Ip) : 0 < (one p + one q) q := by
  rw [add_comm]
  exact one_add_left_pos q p

variable {parent : Bool} {name : Name} {path : List UInt8}

theorem namexEnd_spec (hs : Stable sb s) (h : Walk sb s t (one q)) :
    wp (namexFrom.namexEnd sb parent q name) (Blame sb s)
      (Walked sb s parent (if parent then none else some ((t.itable q).inum, name))) t := by
  unfold namexFrom.namexEnd
  split
  · rename_i hparent
    have hput := iput_spec (q := q) h.stable (h.toTrack.held hs (one_self_pos q))
    refine wp_call hput ?_ fun _ he => he.blame sb s
    intro _ u hu
    have hwalk := h.put (one_self_pos q) hu
    rwa [sub_self] at hwalk
  · rename_i hparent
    exact ⟨h, rfl, fun htrue => absurd htrue hparent⟩

theorem namexFrom_spec {m : Nat} (hs : Stable sb s) (h : Walk sb s t (one q)) :
    wp (namexFrom sb parent m q path name) (Blame sb s)
      (Walked sb s parent (follow (s.vol.tree sb) parent m (t.itable q).inum path name)) t := by
  induction m generalizing q path name t with
  | zero => exact namexEnd_spec hs h
  | succ m ih =>
    rw [namexFrom, follow]
    rcases skipelem path name with _ | ⟨rest, elem⟩
    · exact namexEnd_spec hs h
    · dsimp only
      refine wp_seq (ilock_blame h) ?_
      rintro _ t' ⟨hw, hlock, _, href, hvalid, _⟩
      have href' : 0 < (t'.itable q).ref := hlock.ref_pos href
      rw [wp_bind, wp_gets]
      split
      · exact wp_seq (walk_release hs hw) fun _ _ hu => hu
      · rename_i htype
        rw [ne_eq, not_not] at htype
        rcases hw.stable.dir href' hvalid htype with ⟨n, hdir⟩
        have hn := hw.frees.of_some hdir.node
        rw [hlock.inum q href] at hn
        rw [hn, Option.bind_some, if_neg (not_not.2 hdir.kind)]
        split
        · refine wp_call (iunlock_spec hw.stable) ?_ fun _ he => he.blame sb s
          rintro _ u ⟨hu, _⟩
          refine ⟨hw.still hu, ?_, fun _ => ?_⟩
          · rw [hu.inum q href', hlock.inum q href]
          · rcases hu.valid q href' hvalid with ⟨hv, hkind⟩
            exact ⟨hv, hkind.trans htype⟩
        · refine wp_call (dirlookup_spec hdir) ?_ fun _ he => he.blame sb s
          rintro r u (⟨rfl, rfl, _⟩ | ⟨next, k, rfl, hfound⟩)
          · exact wp_seq (walk_release hs hw) fun _ _ hu => hu
          · -- The next inode is held before the directory is given back.
            have hboth := hw.trans hfound.toWalk
            have hpos := one_add_left_pos q next
            refine wp_call (iunlockput_spec hboth.stable (hboth.toTrack.held hs hpos)) ?_
              fun _ he => he.blame sb s
            intro _ x hput
            have hx := hboth.put hpos hput
            rw [add_sub_cancel_left] at hx
            have hnext := hput.inum next (hboth.toTrack.held hs (one_add_right_pos q next))
            rw [hfound.lookup, Option.bind_some, ← hnext]
            exact ih hx

/-- The inode at which a path of process `p` starts. -/
def St.start (s : St) (p : Slot) (path : List UInt8) : Option Nat :=
  if path.head? = some slash then some ROOTINO else (s.proc p).cwd.map fun q => (s.itable q).inum

/-- Where a path leads process `p`: to its inode, or to the directory of its last element. -/
def St.resolve (sb : Superblock) (s : St) (p : Slot) (path : List UInt8) (parent : Bool) :
    Option (Nat × Name) :=
  (s.start p path).bind fun d => follow (s.vol.tree sb) parent path.length d path fun _ => 0

/-- A path leads where it does later in a call. -/
theorem St.resolve_mono (hproc : t.proc = s.proc)
    (hinum : ∀ q, (s.proc p).cwd = some q → (t.itable q).inum = (s.itable q).inum)
    (htree : ∀ j n', t.vol.tree sb j = some n' → ∃ n, s.vol.tree sb j = some n ∧
      n.kind = n'.kind ∧ n.ents = n'.ents) {x : Nat × Name}
    (h : t.resolve sb p path parent = some x) : s.resolve sb p path parent = some x := by
  have hstart : t.start p path = s.start p path := by
    unfold start
    rw [hproc, Option.map_congr hinum]
  rcases Option.bind_eq_some_iff.1 h with ⟨d, hd, h⟩
  exact Option.bind_eq_some_iff.2 ⟨d, hstart ▸ hd, follow_mono htree h⟩

theorem namex_spec (hs : Stable sb s) (hcwd : ∀ q, (s.proc p).cwd = some q → 0 < (s.itable q).ref) :
    wp (namex sb p path parent fun _ => 0) (Blame sb s)
      (Walked sb s parent (s.resolve sb p path parent)) s := by
  unfold namex St.resolve St.start
  rw [wp_bind, wp_gets]
  split
  · refine wp_call (iget_spec hs fun hfirm => ?_) ?_ fun _ he => he.blame sb s
    · rcases hfirm.root with ⟨n, hn, _⟩
      simp [hn]
    · rintro q t ⟨hwalk, hinum, _⟩
      rw [← hinum]
      exact namexFrom_spec hs hwalk
  · split
    · exact ⟨by simp, by simp⟩
    · rename_i cwd hsome
      refine wp_call (idup_spec hs (hcwd cwd hsome)) ?_ fun _ he => he.blame sb s
      rintro q t ⟨rfl, hwalk, _⟩
      rw [hsome, Option.map_some, Option.bind_some, ← hwalk.inum q (hcwd q hsome)]
      exact namexFrom_spec hs hwalk

section

variable (hw : Walk sb s t 0) (hcwd : ∀ q, (s.proc p).cwd = some q → 0 < (s.itable q).ref)

include hw hcwd

theorem Walk.resolve {x : Nat × Name} (h : t.resolve sb p path parent = some x) :
    s.resolve sb p path parent = some x :=
  St.resolve_mono hw.proc (fun q hq => hw.inum q (hcwd q hq))
    (fun _ n hn => ⟨n, hw.frees.of_some hn, rfl, rfl⟩) h

theorem namei_spec : wp (namei sb p path) (Blame sb s)
    (fun r u => r = none ∧ Walk sb s u 0 ∨ ∃ q name, r = some q ∧ Walk sb s u (one q) ∧
      s.resolve sb p path false = some ((u.itable q).inum, name)) t := by
  unfold namei
  refine wp_call (namex_spec hw.stable (hw.toTrack.cwd hcwd)) ?_ fun _ he => hw.blame he
  rintro (_ | ⟨q, name⟩) u h
  · exact .inl ⟨rfl, hw.still h⟩
  · exact .inr ⟨q, name, rfl, zero_add (one q) ▸ hw.trans h.1, hw.resolve hcwd h.2.1⟩

theorem nameiparent_spec : wp (nameiparent sb p path) (Blame sb s)
    (fun r u => r = none ∧ Walk sb s u 0 ∨ ∃ q name, r = some (q, name) ∧
      Walk sb s u (one q) ∧ s.resolve sb p path true = some ((u.itable q).inum, name) ∧
      (u.itable q).valid = true ∧ (u.itable q).copy.type = .dir) t := by
  unfold nameiparent
  refine wp_mono (namex_spec hw.stable (hw.toTrack.cwd hcwd)) (fun _ he => hw.blame he) ?_
  rintro (_ | ⟨q, name⟩) u h
  · exact .inl ⟨rfl, hw.still h⟩
  · exact .inr ⟨q, name, rfl, zero_add (one q) ▸ hw.trans h.1, hw.resolve hcwd h.2.1, h.2.2 rfl⟩

end

end Xv6.Fs
