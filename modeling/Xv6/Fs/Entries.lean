import Xv6.Fs.Calls
import Xv6.Fs.Table

/-!
# Entries — what the directory layer does to the tree

`dirlookup`, `dirlink` and `isdirempty` in terms of the lists of entries.
-/

namespace Xv6.Fs

open Lib Prog Volume

variable {sb : Superblock} {s t u : St} {q : Ip}

/-! ## Names -/

theorem strncmp_eq_zero_iff (p r : Name) (n j : Nat) : strncmp p r n j = 0 ↔
      ((List.range' j n).map p).takeWhile (· ≠ 0) =
        ((List.range' j n).map r).takeWhile (· ≠ 0) := by
  induction n generalizing j with
  | zero => simp [strncmp]
  | succ n ih =>
    rw [strncmp, List.range'_succ, List.map_cons, List.map_cons, List.takeWhile_cons,
      List.takeWhile_cons]
    split
    · rename_i hsame
      have hr : r j ≠ 0 := hsame.2 ▸ hsame.1
      simp [hr, hsame.2, ih]
    · rename_i hdiff
      -- The strings end here together, or differ in this character.
      have hsub : ((p j).toNat : Int) - (r j).toNat = 0 ↔ p j = r j := by
        rw [Int.sub_eq_zero, Int.natCast_inj, UInt8.toNat_inj]
      rw [hsub]
      by_cases hp : p j = 0 <;> by_cases hr : r j = 0
      · simp [hp, hr]
      · simp [hp, hr, Ne.symm hr]
      · simp [hp, hr]
      · have hne : p j ≠ r j := fun h => hdiff ⟨hp, h⟩
        simp [hp, hr, hne]

/-- `namecmp` compares the strings. -/
theorem namecmp_eq_zero_iff (p r : Name) : namecmp p r = 0 ↔ p.str = r.str := by
  simpa [namecmp, Name.str, List.range_eq_range'] using strncmp_eq_zero_iff p r DIRSIZ 0

theorem takeWhile_strncpy (name : Name) (n j : Nat) (h : ∀ i, i < j → name i ≠ 0) :
    ((List.range' j n).map (strncpy name)).takeWhile (· ≠ 0) =
      ((List.range' j n).map name).takeWhile (· ≠ 0) := by
  have hj : strncpy name j = name j := by
    unfold strncpy
    rw [if_pos]
    simpa using h
  induction n generalizing j with
  | zero => rfl
  | succ n ih =>
    rw [List.range'_succ, List.map_cons, List.map_cons, List.takeWhile_cons,
      List.takeWhile_cons, hj]
    split
    · rename_i hne
      have hnext : ∀ i, i < j + 1 → name i ≠ 0 := by
        intro i hi
        rcases Nat.lt_succ_iff_lt_or_eq.1 hi with hlt | rfl
        · exact h i hlt
        · simpa using hne
      rw [ih (j + 1) hnext]
      unfold strncpy
      rw [if_pos]
      simpa using hnext
    · rfl

theorem str_strncpy (name : Name) : (strncpy name).str = name.str := by
  have h := takeWhile_strncpy name DIRSIZ 0 (fun _ hi => absurd hi (Nat.not_lt_zero _))
  rwa [← List.range_eq_range'] at h

/-- Only the first `DIRSIZ` bytes of a name count. -/
theorem str_congr {p r : Name} (h : ∀ j, j < DIRSIZ → p j = r j) : p.str = r.str := by
  unfold Name.str
  rw [List.map_congr_left fun j hj => h j (List.mem_range.1 hj)]

/-- An entry that is stored and read again; `inum` is a `ushort`. -/
theorem ent_ofBytes {a : Nat → UInt8} {de : Dirent} (h : ∀ j, j < DESIZE → a j = de.bytes j) :
    (Dirent.ofBytes a).ent = { inum := de.inum % 2 ^ 16, name := de.name.str } := by
  have hinum : (Dirent.ofBytes a).inum = de.inum % 2 ^ 16 := by
    have h0 := h 0 (by decide)
    have h1 := h 1 (by decide)
    simp only [Dirent.ofBytes, h0, h1, Dirent.bytes, UInt8.toNat_ofNat']
    omega
  have hname : (Dirent.ofBytes a).name.str = de.name.str := by
    refine str_congr fun j hj => ?_
    exact h (j + 2) (by simp only [DESIZE]; omega)
  rw [Dirent.ent, hinum, hname]

/-! ## Reading entries -/

namespace Volume

variable {v w : Volume} {i k : Nat}

/-- A file without holes is no longer than the block map. -/
theorem Intact.size_le (h : v.Intact sb) (htype : (v.dip sb i).type ≠ .free) :
    (v.dip sb i).size ≤ MAXFILE * BSIZE := by
  by_contra hlt
  refine h.mapped i htype MAXFILE (by omega) (Dinode.slot_of_ge ?_)
  change NSLOT ≤ slotOf MAXFILE
  decide

theorem length_ents : (v.ents sb i).length = (v.dip sb i).size / DESIZE := by
  simp [ents]

theorem ents_getElem? (hk : k < (v.dip sb i).size / DESIZE) :
    (v.ents sb i)[k]? = some (v.dirent sb i k).ent := by
  simp [ents, hk]

end Volume

/-- A directory in hand: entry `q` of the table is in use and has a valid copy of directory `n`. -/
structure Dir (sb : Superblock) (s : St) (q : Ip) (n : Node) : Prop where
  stable : Stable sb s
  ref : 0 < (s.itable q).ref
  valid : (s.itable q).valid = true
  node : s.vol.tree sb (s.itable q).inum = some n
  kind : n.kind = .dir

namespace Dir

variable {n : Node}

theorem copy (h : Dir sb s q n) : (s.itable q).copy = s.vol.dip sb (s.itable q).inum :=
  h.stable.coherent q h.ref h.valid

theorem type (h : Dir sb s q n) : (s.vol.dip sb (s.itable q).inum).type = .dir := by
  rw [← (tree_eq_some h.node).1, h.kind]

theorem ents (h : Dir sb s q n) : n.ents = s.vol.ents sb (s.itable q).inum :=
  (tree_eq_some h.node).2.2.2.1 h.kind

theorem size_le (h : Dir sb s q n) : (s.itable q).copy.size ≤ MAXFILE * BSIZE := by
  rw [h.copy]
  exact h.stable.intact.size_le (by rw [h.type]; decide)

theorem length (h : Dir sb s q n) : n.ents.length = (s.itable q).copy.size / DESIZE := by
  rw [h.ents, length_ents, h.copy]

theorem mapped (h : Dir sb s q n) (bn : Nat) (hbn : bn * BSIZE < (s.itable q).copy.size) :
    s.vol.held sb ((s.itable q).inum, slotOf bn) ≠ 0 := by
  rw [h.copy] at hbn
  exact h.stable.intact.mapped _ (by rw [h.type]; decide) bn hbn

theorem eff_eq (h : Dir sb s q n) : s.eff sb q = s.vol :=
  h.stable.eff_eq h.ref h.valid

end Dir

section

variable {n : Node} {k : Nat}

/-- Entry `k` is read, or the directory ends within it. -/
theorem readDirent_spec (h : Dir sb s q n) {e : Panic}
    (hoff : k * DESIZE < (s.itable q).copy.size) :
    wp (readDirent sb q (k * DESIZE) e) (fun e' => e' = e)
      (fun de t => t = s ∧ (k + 1) * DESIZE ≤ (s.itable q).copy.size ∧
        n.ents[k]? = some de.ent) s := by
  unfold readDirent
  have hmapped := h.mapped
  rw [← h.eff_eq] at hmapped
  rcases readi_total hmapped (fun _ => true) (k * DESIZE) DESIZE with ⟨r, hr, hval⟩
  have hsize : MAXFILE * BSIZE + DESIZE < 2 ^ 32 := by decide
  have hle := h.size_le
  have hr' := hval (fun _ _ => rfl) (Nat.le_of_lt hoff) (by omega)
  rw [wp_bind, wp_of_eq hr, hr']
  simp only
  split
  · rename_i hfull
    have hend : (k + 1) * DESIZE ≤ (s.itable q).copy.size := by
      rw [Nat.add_mul, Nat.one_mul]
      omega
    refine ⟨rfl, hend, ?_⟩
    have hk : k < (s.vol.dip sb (s.itable q).inum).size / DESIZE := by
      rw [Nat.lt_div_iff_mul_lt (by decide), ← h.copy]
      simp only [DESIZE, DIRSIZ] at hend ⊢
      omega
    rw [h.ents, ents_getElem? hk]
    congr 2
    unfold dirent
    congr 1
    funext j
    have hmin : min DESIZE ((s.itable q).copy.size - k * DESIZE) = DESIZE := by omega
    rw [hmin, h.eff_eq]
    by_cases hj : j < DESIZE
    · simp [bytesAt, hj]
    · simp [bytesAt, hj]
  · rfl

/-! ## Looking up a name -/

/-- `dirlookup` has found entry `k` of directory `n`, and has its inode in entry `ip`. -/
structure Found (sb : Superblock) (n : Node) (name : Name) (ip : Ip) (k : Nat) (s t : St) :
    Prop extends Walk sb s t (one ip) where
  vol : t.vol = s.vol
  lock : ∀ p, (t.itable p).lock = (s.itable p).lock
  ent : n.ents[k]? = some { inum := (t.itable ip).inum, name := name.str }
  used : (t.itable ip).inum ≠ 0
  first : ∀ j e, j < k → n.ents[j]? = some e → e.inum ≠ 0 → e.name ≠ name.str

theorem Found.lookup {name : Name} {ip : Ip} (h : Found sb n name ip k s t) :
    n.lookup name.str = some (t.itable ip).inum := by
  rcases List.getElem?_eq_some_iff.1 h.ent with ⟨hlt, hget⟩
  refine Option.map_eq_some_iff.2 ⟨_, List.find?_eq_some_iff_getElem.2 ⟨?_, k, hlt, hget, ?_⟩, rfl⟩
  · exact decide_eq_true ⟨h.used, rfl⟩
  · intro j hj
    have hno := h.first j _ hj (List.getElem?_eq_getElem (hj.trans hlt))
    simpa [or_iff_not_imp_left] using hno

/-- `dirlookup` from entry `k` on, when no entry before it has the name. -/
theorem dirlookupFrom_spec (h : Dir sb s q n) {name : Name} {m k : Nat}
    (hm : (s.itable q).copy.size ≤ k * DESIZE + m * DESIZE)
    (hbefore : ∀ j e, j < k → n.ents[j]? = some e → e.inum ≠ 0 → e.name ≠ name.str) :
    wp (dirlookupFrom sb q name m (k * DESIZE)) Benign (fun r t =>
      (r = none ∧ t = s ∧ ∀ e ∈ n.ents, e.inum ≠ 0 → e.name ≠ name.str) ∨
      ∃ ip j, r = some (ip, j * DESIZE) ∧ Found sb n name ip j s t) s := by
  have hlen := h.length
  have hend : ∀ k, (s.itable q).copy.size ≤ k * DESIZE → (∀ j e, j < k → n.ents[j]? = some e →
      e.inum ≠ 0 → e.name ≠ name.str) → ∀ e ∈ n.ents, e.inum ≠ 0 → e.name ≠ name.str := by
    intro k hk hall e he
    rcases List.getElem?_of_mem he with ⟨j, hj⟩
    refine hall j e ?_ hj
    have hlt := (List.getElem?_eq_some_iff.1 hj).1
    simp only [DESIZE, DIRSIZ] at hk hlen
    omega
  induction m generalizing k with
  | zero => exact .inl ⟨rfl, rfl, hend k (by omega) hbefore⟩
  | succ m ih =>
    rw [dirlookupFrom, wp_bind, wp_gets]
    have hnext : (s.itable q).copy.size ≤ (k + 1) * DESIZE + m * DESIZE := by
      rw [Nat.add_mul] at hm ⊢
      omega
    -- An entry that does not match only shortens what is left to search.
    have hskip := fun e (he : n.ents[k]? = some e) (hno : e.inum ≠ 0 → e.name ≠ name.str) =>
      ih hnext fun j e' hj he' => by
        rcases Nat.lt_succ_iff_lt_or_eq.1 hj with hlt | rfl
        · exact hbefore j e' hlt he'
        · exact Option.some.inj (he.symm.trans he') ▸ hno
    rw [Nat.add_mul, Nat.one_mul] at hskip
    split
    · rename_i hlt
      refine wp_call (readDirent_spec h hlt) ?_ ?_
      · rintro de t ⟨rfl, _, hent⟩
        split
        · rename_i hzero
          exact hskip _ hent fun hinum => absurd hzero hinum
        · rename_i hinum
          split
          · rename_i hcmp
            have hname := (namecmp_eq_zero_iff _ _).1 hcmp
            have hfirm : Firm sb t → t.vol.tree sb de.inum ≠ none := fun hf =>
              hf.named _ _ _ h.node (List.mem_of_getElem? hent) hinum
            refine wp_seq (iget_spec h.stable hfirm) ?_
            rintro ip t' ⟨hwalk, hip, hvol, hlock⟩
            refine .inr ⟨ip, k, rfl, hwalk, hvol, hlock, ?_, hip ▸ hinum, hbefore⟩
            rw [hent, hip, hname]
            rfl
          · rename_i hcmp
            exact hskip _ hent fun _ hname => hcmp ((namecmp_eq_zero_iff _ _).2 hname.symm)
      · rintro _ rfl
        exact ⟨by simp, by simp⟩
    · rename_i hge
      exact .inl ⟨rfl, rfl, hend k (by omega) hbefore⟩

theorem dirlookup_spec (h : Dir sb s q n) {name : Name} :
    wp (dirlookup sb q name) Benign (fun r t =>
      (r = none ∧ t = s ∧ ∀ e ∈ n.ents, e.inum ≠ 0 → e.name ≠ name.str) ∨
      ∃ ip k, r = some (ip, k * DESIZE) ∧ Found sb n name ip k s t) s := by
  unfold dirlookup
  rw [wp_bind, wp_gets]
  split
  · have hloop := @dirlookupFrom_spec sb s q n h name (s.itable q).copy.size 0
      (by simp only [DESIZE, DIRSIZ]; omega) fun _ _ hj => absurd hj (Nat.not_lt_zero _)
    rwa [Nat.zero_mul] at hloop
  · exact ⟨by simp, by simp⟩

/-! ## Writing entries -/

theorem Edit.refl (hs : Stable sb s) : Edit sb q s s :=
  ⟨.refl hs, rfl, fun _ => rfl, fun _ _ => rfl, id⟩

theorem dirent_written {v w : Volume} {i j : Nat} {de : Dirent} (hv : v.Intact sb)
    (htype : (v.dip sb i).type ≠ .free)
    (hw : Written sb i (fun x => some (de.bytes x)) (k * DESIZE) DESIZE v w)
    (hj : j = k ∨ (j + 1) * DESIZE ≤ (v.dip sb i).size) :
    (w.dirent sb i j).ent =
      if j = k then { inum := de.inum % 2 ^ 16, name := de.name.str } else
        (v.dirent sb i j).ent := by
  by_cases hjk : j = k
  · subst hjk
    rw [if_pos rfl]
    refine ent_ofBytes fun x hx => ?_
    rw [if_pos hx, hw.new _ (Nat.le_add_right ..) (by omega), Nat.add_sub_cancel_left]
    rfl
  · rw [if_neg hjk]
    have hsize := hj.resolve_left hjk
    congr 1
    unfold dirent
    congr 1
    funext x
    split
    · rename_i hx
      refine hw.old _ ?_ ?_
      · -- The old entry lies below the size, so its block is there.
        refine hv.mapped i htype _ (Nat.lt_of_le_of_lt (Nat.div_mul_le_self _ _) ?_)
        rw [Nat.add_mul, Nat.one_mul] at hsize
        omega
      · simp only [DESIZE, DIRSIZ] at hx ⊢
        omega
    · rfl

theorem ents_written {v w : Volume} {i : Nat} {de : Dirent} (hv : v.Intact sb)
    (htype : (v.dip sb i).type ≠ .free)
    (hw : Written sb i (fun x => some (de.bytes x)) (k * DESIZE) DESIZE v w)
    (hsize : (w.dip sb i).size = max (v.dip sb i).size (k * DESIZE + DESIZE))
    (hk : k < (v.ents sb i).length ∨ k * DESIZE = (v.dip sb i).size) :
    w.ents sb i = setEnt (v.ents sb i) k { inum := de.inum % 2 ^ 16, name := de.name.str } := by
  have hold : ∀ j, j = k ∨ j < (v.ents sb i).length → (w.dirent sb i j).ent =
      if j = k then { inum := de.inum % 2 ^ 16, name := de.name.str }
      else (v.dirent sb i j).ent := by
    intro j hj
    refine dirent_written hv htype hw (hj.imp_right fun hlt => ?_)
    rw [length_ents] at hlt
    simp only [DESIZE, DIRSIZ] at hlt ⊢
    omega
  unfold setEnt
  split
  · rename_i hlt
    have hsame : (w.dip sb i).size = (v.dip sb i).size := by
      rw [length_ents] at hlt
      simp only [DESIZE, DIRSIZ] at hlt hsize
      omega
    refine List.ext_getElem? fun j => ?_
    by_cases hj : j < (v.ents sb i).length
    · have hlen := hj
      rw [length_ents] at hlen
      rw [ents_getElem? (hsame.symm ▸ hlen), hold j (.inr hj), List.getElem?_set]
      by_cases hjk : j = k
      · simp [hjk, hlt]
      · simp [hjk, Ne.symm hjk, ents_getElem? hlen]
    · rw [List.getElem?_eq_none (by rw [length_ents] at hj ⊢; rw [hsame]; omega),
        List.getElem?_eq_none (by rw [List.length_set]; omega)]
  · rename_i hge
    have hend := hk.resolve_left hge
    have hlen : (v.dip sb i).size / DESIZE = k := by
      rw [← hend]
      exact Nat.mul_div_cancel _ (by decide)
    have hlen' : (w.dip sb i).size / DESIZE = k + 1 := by
      simp only [DESIZE, DIRSIZ] at hend hsize ⊢
      omega
    rw [Volume.ents, Volume.ents, hlen, hlen', List.range_succ, List.map_append, List.map_singleton,
      hold k (.inl rfl), if_pos rfl]
    congr 1
    refine List.map_congr_left fun j hj => ?_
    have hlt := List.mem_range.1 hj
    rw [hold j (.inr (by rw [length_ents, hlen]; exact hlt)), if_neg (by omega)]

theorem tree_of_written {v w : Volume} {i j off tot : Nat} {src : Nat → Option UInt8}
    (hw : Written sb i src off tot v w) (hv : v.Intact sb) (hj : j ≠ i) :
    w.tree sb j = v.tree sb j := by
  have hdip := hw.dip j hj
  refine tree_congr (by rw [hdip]) (by rw [hdip]) (fun _ => by rw [hdip]) fun htype x hx => ?_
  refine byteAt_congr (fun k => hw.other j k hj) (hw.data j _ hj ?_)
  refine hv.mapped j (by rw [htype]; decide) _ (Nat.lt_of_le_of_lt (Nat.div_mul_le_self _ _) hx)

/-- What a write does to an inode and to the rest of the tree. -/
theorem Done.edit {src : Nat → Option UInt8} {off m tot : Nat} (hs : Stable sb s)
    (hq : 0 < (s.itable q).ref) (hvalid : (s.itable q).valid = true)
    (h : Done sb q src off m tot s t) : Edit sb q s t := by
  rcases h.bytes with ⟨l, hw, _⟩
  rw [hs.eff_eq hq hvalid] at hw
  have hcopy := hs.coherent q hq hvalid
  have hcoherent := h.coherent
  rcases hw.same with ⟨addrs, size, hsame⟩
  rw [hcoherent, ← hcopy] at hsame
  have hdip := hw.dip
  have hother : ∀ j, j ≠ (s.itable q).inum → t.vol.tree sb j = s.vol.tree sb j :=
    fun j hj => tree_of_written hw hs.intact hj
  have hintact := h.intact
  rcases h.eq with ⟨v, o, d, rfl⟩
  rw [St.itable_put_self] at hcoherent hsame
  simp only [St.vol_put] at hcoherent hsame hdip hother hintact
  exact edit_put hs hq hvalid hintact hcoherent hdip (by rw [hsame]) hother

theorem writeDirent_spec (h : Dir sb s q n) {de : Dirent}
    (hk : k < n.ents.length ∨ k * DESIZE = (s.itable q).copy.size) :
    wp (writeDirent sb q (k * DESIZE) de) Benign (fun r t => Edit sb q s t ∧
      ((r ≠ DESIZE ∧ t.vol.tree sb (s.itable q).inum = some n) ∨
        r = DESIZE ∧ t.vol.tree sb (s.itable q).inum = some { n with
          ents := setEnt n.ents k { inum := de.inum % 2 ^ 16, name := de.name.str } })) s := by
  unfold writeDirent
  refine wp_post (writei_spec (h.eff_eq ▸ h.stable.intact) (h.stable.typed q h.ref h.valid)
    fun _ _ _ => rfl) ?_
  rintro r t (⟨rfl, rfl⟩ | ⟨tot, rfl, hdone⟩)
  · exact ⟨.refl h.stable, .inl ⟨by decide, h.node⟩⟩
  refine ⟨hdone.edit h.stable h.ref h.valid, ?_⟩
  have hread : Readable (fun j => some (de.bytes j)) DESIZE := fun _ _ => rfl
  rcases hdone.bytes with ⟨l, hw, hl⟩
  rw [hl hread, Nat.add_zero, h.eff_eq] at hw
  have hlen := h.length
  have hsize := hdone.size
  have hfree : (s.vol.dip sb (s.itable q).inum).type ≠ .free := by rw [h.type]; decide
  have hlabel : (t.vol.dip sb (s.itable q).inum).type = (s.vol.dip sb (s.itable q).inum).type ∧
      (t.vol.dip sb (s.itable q).inum).nlink = n.nlink := by
    rcases hw.same with ⟨addrs, size, hsame⟩
    rw [hsame, (tree_eq_some h.node).2.2.1]
    exact ⟨rfl, rfl⟩
  rw [← hdone.coherent, h.copy] at hsize
  rw [h.copy] at hk hlen
  have hoff := hdone.off_le
  rw [h.copy] at hoff
  by_cases htot : tot = DESIZE
  · subst htot
    refine .inr ⟨rfl, ?_⟩
    have hents := ents_written h.stable.intact hfree hw hsize (h.ents ▸ hk)
    rw [tree_of_some h.node hlabel.1 (fun _ => hents) (fun hne => absurd h.kind hne), hlabel.2,
      h.ents]
  · -- A directory entry lies in one block, so nothing at all has been written.
    have hzero : tot = 0 := by
      have hle := hdone.le
      rcases hdone.full hread with hfull | hfull | hfull
      · exact absurd hfull htot
      · exact hfull
      · simp only [DESIZE, DIRSIZ, BSIZE] at hle hfull htot
        omega
    subst hzero
    refine .inl ⟨fun heq => htot (by exact_mod_cast heq), ?_⟩
    have hsame : (t.vol.dip sb (s.itable q).inum).size = (s.vol.dip sb (s.itable q).inum).size := by
      omega
    have hents : t.vol.ents sb (s.itable q).inum = n.ents := by
      rw [h.ents]
      refine ents_congr hsame fun x hx => hw.old x ?_ (by omega)
      exact h.stable.intact.mapped _ hfree _ (Nat.lt_of_le_of_lt (Nat.div_mul_le_self _ _) hx)
    rw [tree_of_some h.node hlabel.1 (fun _ => hents) (fun hne => absurd h.kind hne), hlabel.2]

/-- An inode that has changed without a change to the tree. -/
theorem Edit.walk (h : Edit sb q s t)
    (htree : t.vol.tree sb (s.itable q).inum = s.vol.tree sb (s.itable q).inum) :
    Walk sb s t 0 := by
  have hsame : t.vol.tree sb = s.vol.tree sb := by
    funext j
    by_cases hj : j = (s.itable q).inum
    · rw [hj, htree]
    · exact h.other j hj
  refine ⟨h.toTrack, h.gen, hsame ▸ .refl _, fun hfirm => ?_, h.tended⟩
  refine hfirm.of_frees (hsame ▸ .refl _) fun p hp => ?_
  have href := h.ref p
  simp only [Pi.zero_apply, Int.add_zero] at href
  rw [href] at hp
  rw [hsame, h.inum p hp]
  exact hfirm.table p hp

/-! ## Adding an entry -/

theorem dirlinkFrom_spec (h : Dir sb s q n) {m k : Nat}
    (hm : (s.itable q).copy.size ≤ k * DESIZE + m * DESIZE)
    (hk : k * DESIZE ≤ (s.itable q).copy.size)
    (hbefore : ∀ j e, j < k → n.ents[j]? = some e → e.inum ≠ 0) :
    wp (dirlinkFrom sb q m (k * DESIZE)) Benign (fun r t => t = s ∧ ∃ k, r = k * DESIZE ∧
      (∀ j e, j < k → n.ents[j]? = some e → e.inum ≠ 0) ∧
      ((∃ e, n.ents[k]? = some e ∧ e.inum = 0) ∨ k * DESIZE = (s.itable q).copy.size)) s := by
  induction m generalizing k with
  | zero => exact ⟨rfl, k, rfl, hbefore, .inr (by omega)⟩
  | succ m ih =>
    rw [dirlinkFrom, wp_bind, wp_gets]
    split
    · rename_i hlt
      refine wp_call (readDirent_spec h hlt) ?_ ?_
      · rintro de t ⟨rfl, hend, hent⟩
        split
        · rename_i hzero
          exact ⟨rfl, k, rfl, hbefore, .inl ⟨_, hent, hzero⟩⟩
        · have hrest := ih (k := k + 1) (by rw [Nat.add_mul] at hm ⊢; omega) hend
            (by grind [Dirent.ent])
          rwa [Nat.add_mul, Nat.one_mul] at hrest
      · rintro _ rfl
        exact ⟨by simp, by simp⟩
    · exact ⟨rfl, k, rfl, hbefore, .inr (by omega)⟩

/-- From `s` to `t` the directory in entry `q` has got an entry for inode `i`, in place of the
first empty one or at its end; its name is new there. -/
structure Linked (sb : Superblock) (q : Ip) (n : Node) (name : Name) (i k : Nat)
    (s t : St) : Prop extends Edit sb q s t where
  fresh : ∀ e ∈ n.ents, e.inum ≠ 0 → e.name ≠ name.str
  first : ∀ j e, j < k → n.ents[j]? = some e → e.inum ≠ 0
  empty : ∀ e, n.ents[k]? = some e → e.inum = 0
  le : k ≤ n.ents.length
  node : t.vol.tree sb (s.itable q).inum = some { n with
    ents := setEnt n.ents k { inum := i % 2 ^ 16, name := name.str } }

theorem dirlink_spec (h : Dir sb s q n) {name : Name} {inum : Nat} :
    wp (dirlink sb q name inum) Benign (fun r t =>
      r = false ∧ Walk sb s t 0 ∨ r = true ∧ ∃ k, Linked sb q n name inum k s t) s := by
  unfold dirlink
  refine wp_seq (dirlookup_spec h) ?_
  rintro r t (⟨rfl, rfl, hfresh⟩ | ⟨ip, k, rfl, hfound⟩)
  · simp only [wp_bind, wp_gets]
    have hloop := @dirlinkFrom_spec sb t q n h (t.itable q).copy.size 0
      (by simp only [DESIZE, DIRSIZ]; omega) (by omega) (by omega)
    rw [Nat.zero_mul] at hloop
    refine wp_post hloop ?_
    rintro _ t ⟨rfl, k, rfl, hfirst, hk⟩
    have hend : k * DESIZE = (t.itable q).copy.size → k = n.ents.length := by
      rw [h.length]
      simp only [DESIZE, DIRSIZ]
      omega
    refine wp_post (writeDirent_spec h (hk.imp_left (by grind))) ?_
    rintro r u ⟨hedit, ⟨hr, hnode⟩ | ⟨rfl, hnode⟩⟩
    · exact .inl ⟨by simpa using hr, hedit.walk (by rw [hnode, h.node])⟩
    · exact .inr ⟨by simp, k, hedit, hfresh, hfirst, by grind, by grind,
        by simpa [str_strncpy] using hnode⟩
  · refine wp_seq (iput_spec hfound.stable (hfound.toTrack.held h.stable (by simp [one]))) ?_
    intro _ u hput
    have hwalk := hfound.toWalk.put (q := ip) (by simp [one]) hput
    rw [sub_self] at hwalk
    exact .inl ⟨rfl, hwalk⟩

/-! ## Empty directories -/

theorem isdiremptyFrom_spec (h : Dir sb s q n) {m k : Nat}
    (hm : (s.itable q).copy.size ≤ k * DESIZE + m * DESIZE) :
    wp (isdiremptyFrom sb q m (k * DESIZE)) Benign (fun r t => t = s ∧
      (r = true → ∀ j e, k ≤ j → n.ents[j]? = some e → e.inum = 0)) s := by
  have hlen := h.length
  have hend : ∀ k, (s.itable q).copy.size ≤ k * DESIZE → ∀ j e, k ≤ j → n.ents[j]? = some e →
      e.inum = 0 := by
    intro k hk j e hj he
    have hlt := (List.getElem?_eq_some_iff.1 he).1
    simp only [DESIZE, DIRSIZ] at hk hlen
    omega
  induction m generalizing k with
  | zero => exact ⟨rfl, fun _ => hend k (by omega)⟩
  | succ m ih =>
    rw [isdiremptyFrom, wp_bind, wp_gets]
    split
    · rename_i hlt
      refine wp_call (readDirent_spec h hlt) ?_ ?_
      · rintro de t ⟨rfl, _, hent⟩
        split
        · rename_i hzero
          have hrest := ih (k := k + 1) (by rw [Nat.add_mul] at hm ⊢; omega)
          rw [Nat.add_mul, Nat.one_mul] at hrest
          refine wp_post hrest fun r u hpost => ⟨hpost.1, fun hr j e hj he => ?_⟩
          rcases Nat.eq_or_lt_of_le hj with rfl | hlt'
          · rw [hent] at he
            cases he
            exact hzero
          · exact hpost.2 hr j e hlt' he
        · exact ⟨rfl, fun hr => absurd hr (by decide)⟩
      · rintro _ rfl
        exact ⟨by simp, by simp⟩
    · exact ⟨rfl, fun _ => hend k (by omega)⟩

theorem isdirempty_spec (h : Dir sb s q n) : wp (isdirempty sb q) Benign (fun r t => t = s ∧
      (r = true → ∀ j e, 2 ≤ j → n.ents[j]? = some e → e.inum = 0)) s := by
  unfold isdirempty
  rw [wp_bind, wp_gets]
  exact isdiremptyFrom_spec h (by simp only [DESIZE, DIRSIZ]; omega)

end

end Xv6.Fs
