import Mathlib.Data.List.TakeWhile
import Xv6.Fs.Blocks

/-!
# Contents — inodes as arrays of bytes

What `readi` and `writei` do in terms of the bytes of an inode, block by block through the block
map.
-/

namespace Xv6.Fs

open Lib Prog Volume

variable {sb : Superblock} {s t u : St} {q : Ip}

/-! ## Bytes -/

namespace Volume

/-- The block that has byte `x` of inode `i`, 0 for none. -/
def blockAt (sb : Superblock) (v : Volume) (i x : Nat) : Nat :=
  v.held sb (i, slotOf (x / BSIZE))

/-- Byte `x` of inode `i`. -/
def byteAt (sb : Superblock) (v : Volume) (i x : Nat) : UInt8 :=
  v.data (v.blockAt sb i x) (x % BSIZE)

/-- The `n` bytes of inode `i` from `off` on. -/
def bytesAt (sb : Superblock) (v : Volume) (i off n : Nat) : List UInt8 :=
  (List.range n).map fun j => v.byteAt sb i (off + j)

theorem bytesAt_add (v : Volume) (i off m n : Nat) :
    v.bytesAt sb i off (m + n) = v.bytesAt sb i off m ++ v.bytesAt sb i (off + m) n := by
  simp [bytesAt, List.range_add, Nat.add_assoc, Function.comp_def]

end Volume

theorem same_block (off : Nat) {j : Nat} (h : j < BSIZE - off % BSIZE) :
    (off + j) / BSIZE = off / BSIZE ∧ (off + j) % BSIZE = off % BSIZE + j := by
  simp only [BSIZE] at h ⊢
  omega

theorem block_start_lt {off n : Nat} (h : 0 < n) : off / BSIZE * BSIZE < off + n := by
  simp only [BSIZE]
  omega

/-! ## Reading -/

/-- The slots of the inode in hand are those of its copy. -/
theorem held_eff (k : Nat) :
    (s.eff sb q).held sb ((s.itable q).inum, k) = (s.itable q).copy.slot s.vol.data k := by
  rw [held, s.dip_eff]
  rfl

theorem noteHole_of_mapped {bn : Nat}
    (h : (s.eff sb q).held sb ((s.itable q).inum, slotOf bn) ≠ 0) :
    noteHole q bn s = .ok () s := by
  rw [held_eff] at h
  unfold noteHole Prog.modify
  simp only [if_neg h, Nat.add_zero]

/-- One round of `readi` or `writei` moves `m` bytes, at most to the end of the block. -/
theorem round_spec (off : Nat) {tot n : Nat} (h : tot < n) :
    ∃ m, min (n - tot) (BSIZE - off % BSIZE) = m ∧ 0 < m ∧ tot + m ≤ n ∧ m ≤ BSIZE - off % BSIZE ∧
      (tot + m = n ∨ (off + m) % BSIZE = 0 ∧ (off + m) / BSIZE = off / BSIZE + 1) := by
  refine ⟨_, rfl, ?_⟩
  simp only [BSIZE]
  omega

/-- Reading changes nothing when the blocks are there. -/
theorem readiLoop_total (dst : Nat → Bool) {n fuel : Nat} (tot off : Nat) (acc : List UInt8)
    (hfuel : n - tot ≤ fuel)
    (hmapped : ∀ bn, bn * BSIZE < off + (n - tot) →
      (s.eff sb q).held sb ((s.itable q).inum, slotOf bn) ≠ 0) :
    ∃ r, readiLoop sb q dst n fuel tot off acc s = .ok r s ∧
      ((∀ j, j < n → dst j = true) → tot ≤ n → r =
        ((n : Int), acc ++ (s.eff sb q).bytesAt sb (s.itable q).inum off (n - tot))) := by
  induction fuel generalizing tot off acc with
  | zero =>
    refine ⟨_, rfl, fun _ htot => ?_⟩
    have hn : tot = n := by omega
    simp [hn, bytesAt]
  | succ fuel ih =>
    rw [readiLoop]
    split
    · rename_i htot
      have hheld := hmapped (off / BSIZE) (block_start_lt (by omega))
      rw [bind_ok (noteHole_of_mapped hheld), bind_ok (bmap_of_mapped hheld), if_neg hheld,
        bind_gets]
      obtain ⟨m, hmin, hm, hle, hblock, -⟩ := round_spec off htot
      rw [hmin]
      have hbytes : (List.range m).map (fun j =>
          s.vol.data ((s.eff sb q).held sb ((s.itable q).inum, slotOf (off / BSIZE)))
            (off % BSIZE + j)) = (s.eff sb q).bytesAt sb (s.itable q).inum off m := by
        refine List.map_congr_left fun j hj => ?_
        have hjm := List.mem_range.1 hj
        rcases same_block off (j := j) (by omega) with ⟨hdiv, hmod⟩
        rw [byteAt, blockAt, hdiv, hmod]
        rfl
      split
      · rcases ih (tot + m) (off + m) (acc ++ (List.range m).map fun j =>
          s.vol.data ((s.eff sb q).held sb ((s.itable q).inum, slotOf (off / BSIZE)))
            (off % BSIZE + j)) (by omega)
          (fun bn hbn => hmapped bn (by omega)) with ⟨r, hr, hall⟩
        refine ⟨r, hr, fun hdst _ => ?_⟩
        rw [hall hdst (by omega), hbytes, List.append_assoc, ← bytesAt_add]
        congr 3
        omega
      · rename_i hdst
        refine ⟨_, rfl, fun hall _ => absurd ?_ hdst⟩
        refine List.all_eq_true.2 fun j hj => hall _ ?_
        have := List.mem_range.1 hj
        omega
    · rename_i htot
      refine ⟨_, rfl, fun _ hle => ?_⟩
      have hn : tot = n := by omega
      simp [hn, bytesAt]

/-- `readi` of a file without holes stops at the end of the file. -/
theorem readi_total (hmapped : ∀ bn, bn * BSIZE < (s.itable q).copy.size →
      (s.eff sb q).held sb ((s.itable q).inum, slotOf bn) ≠ 0) (dst : Nat → Bool) (off n : Nat) :
    ∃ r, readi sb q dst off n s = .ok r s ∧
      ((∀ j, j < n → dst j = true) → off ≤ (s.itable q).copy.size → off + n < 2 ^ 32 → r =
        (((min n ((s.itable q).copy.size - off) : Nat) : Int),
          (s.eff sb q).bytesAt sb (s.itable q).inum off
            (min n ((s.itable q).copy.size - off)))) := by
  unfold readi
  rw [bind_gets]
  split
  · rename_i hbad
    refine ⟨_, rfl, fun _ hoff hlt => ?_⟩
    rw [Nat.mod_eq_of_lt hlt] at hbad
    omega
  · split
    · rename_i hgt
      rw [Nat.min_eq_right (by omega)]
      rcases readiLoop_total dst (n := (s.itable q).copy.size - off) 0 off [] le_rfl
        (fun bn hbn => hmapped bn (by omega)) with ⟨r, hr, hall⟩
      refine ⟨r, hr, fun hdst _ _ => ?_⟩
      simpa using hall (fun j hj => hdst j (by omega)) (Nat.zero_le _)
    · rename_i hle
      rw [Nat.min_eq_left (by omega)]
      rcases readiLoop_total dst (n := n) 0 off [] le_rfl
        (fun bn hbn => hmapped bn (by omega)) with ⟨r, hr, hall⟩
      exact ⟨r, hr, fun hdst _ _ => by simpa using hall hdst (Nat.zero_le _)⟩

/-! ## Writing -/

/-- The source can be read as far as it is needed. -/
def Readable (src : Nat → Option UInt8) (n : Nat) : Prop :=
  ∀ j, j < n → (src j).isSome

theorem copied_le (src : Nat → Option UInt8) (pos m : Nat) : copied src pos m ≤ m := by
  have h := (List.takeWhile_sublist (l := List.range m) fun j => (src (pos + j)).isSome).length_le
  simpa [copied] using h

theorem copied_eq {src : Nat → Option UInt8} {pos m n : Nat} (h : Readable src n)
    (hm : pos + m ≤ n) : copied src pos m = m := by
  have hall : (List.range m).takeWhile (fun j => (src (pos + j)).isSome) = List.range m := by
    rw [List.takeWhile_eq_self_iff]
    intro j hj
    have hjm := List.mem_range.1 hj
    exact h _ (by omega)
  rw [copied, hall, List.length_range]

/-- From `v` to `w` inode `i` has been written: its bytes in `[off, off + tot)` come from the
source, blocks may have been added, and no other inode has changed. -/
structure Written (sb : Superblock) (i : Nat) (src : Nat → Option UInt8) (off tot : Nat)
    (v w : Volume) : Prop where
  dip : ∀ j, j ≠ i → w.dip sb j = v.dip sb j
  same : ∃ addrs size, w.dip sb i = { v.dip sb i with addrs := addrs, size := size }
  held : ∀ x, v.held sb x ≠ 0 → w.held sb x = v.held sb x
  other : ∀ j k, j ≠ i → w.held sb (j, k) = v.held sb (j, k)
  data : ∀ j k, j ≠ i → v.held sb (j, k) ≠ 0 → w.data (v.held sb (j, k)) = v.data (v.held sb (j, k))
  mapped : ∀ x, off ≤ x → x < off + tot → w.blockAt sb i x ≠ 0
  new : ∀ x, off ≤ x → x < off + tot → w.byteAt sb i x = (src (x - off)).getD 0
  old : ∀ x, v.blockAt sb i x ≠ 0 → x < off ∨ off + tot ≤ x → w.byteAt sb i x = v.byteAt sb i x

namespace Written

variable {i off tot : Nat} {src : Nat → Option UInt8} {v w x : Volume}

theorem refl (v : Volume) : Written sb i src off 0 v v :=
  ⟨fun _ _ => rfl, ⟨_, _, rfl⟩, fun _ _ => rfl, fun _ _ _ => rfl, fun _ _ _ _ => rfl,
    fun _ h h' => absurd h' (by omega), fun _ h h' => absurd h' (by omega), fun _ _ _ => rfl⟩

theorem byteAt_grown (h : Grown sb i v w) {y : Nat}
    (hy : v.blockAt sb i y ≠ 0) : w.byteAt sb i y = v.byteAt sb i y := by
  have hne : ((i, slotOf (y / BSIZE)) : Nat × Nat) ≠ (i, NDIRECT) := by simp [slotOf_ne]
  simp only [byteAt, blockAt]
  rw [h.held _ hy, h.data _ hy hne]

theorem grow (h : Written sb i src off tot v w) (g : Grown sb i w x) :
    Written sb i src off tot v x := by
  refine ⟨?_, ?_, ?_, ?_, ?_, ?_, ?_, ?_⟩
  · intro j hj
    rw [g.dip j hj, h.dip j hj]
  · rcases h.same with ⟨a, n, ha⟩
    rcases g.same with ⟨b, hb⟩
    exact ⟨b, n, by rw [hb, ha]⟩
  · intro y hy
    have hw := h.held y hy
    rw [g.held y (by rwa [hw]), hw]
  · intro j k hj
    rw [g.other j k hj, h.other j k hj]
  · intro j k hj hjk
    have hw := h.held _ hjk
    have hdata := g.data (j, k) (by rwa [hw]) (by simp [hj])
    rw [hw] at hdata
    rw [hdata, h.data j k hj hjk]
  · intro y hy hy'
    have hw := h.mapped y hy hy'
    rwa [blockAt, g.held _ hw]
  · intro y hy hy'
    rw [byteAt_grown g (h.mapped y hy hy'), h.new y hy hy']
  · intro y hy hy'
    have hw := h.held _ hy
    rw [byteAt_grown g (by rwa [blockAt, hw]), h.old y hy hy']

/-- Bytes of inode `i` in other blocks, and in this block outside the stored range, stay. -/
theorem byteAt_store {o pos k y : Nat} (hw : w.Intact sb) (hdip : x.dip sb = w.dip sb)
    (hother : ∀ b, b ≠ w.blockAt sb i o → x.data b = w.data b)
    (hdata : x.data (w.blockAt sb i o) = copyin src pos k (o % BSIZE) (w.data (w.blockAt sb i o)))
    (hy : w.blockAt sb i y ≠ 0) (hout : y < o ∨ o + k ≤ y) :
    x.byteAt sb i y = w.byteAt sb i y := by
  have hxheld : x.held sb = w.held sb := held_of_data hw (slotOf_ne _) hdip hother
  simp only [byteAt, blockAt, hxheld] at hdata ⊢
  by_cases hblock : y / BSIZE = o / BSIZE
  · rw [hblock, hdata, copyin, if_neg]
    simp only [BSIZE] at hblock ⊢
    omega
  · rw [hother _ fun heq => hblock (slotOf_inj (Prod.mk.inj (hw.holding.inj _ _ hy heq)).2)]

theorem store {k : Nat} (h : Written sb i src off tot v w) (hw : w.Intact sb)
    (hheld : w.blockAt sb i (off + tot) ≠ 0)
    (hk : k ≤ BSIZE - (off + tot) % BSIZE) (hdip : x.dip sb = w.dip sb)
    (hother : ∀ b, b ≠ w.blockAt sb i (off + tot) → x.data b = w.data b)
    (hdata : x.data (w.blockAt sb i (off + tot)) = copyin src tot k ((off + tot) % BSIZE)
        (w.data (w.blockAt sb i (off + tot)))) :
    Written sb i src off (tot + k) v x := by
  have hxheld : x.held sb = w.held sb := held_of_data hw (slotOf_ne _) hdip hother
  have hbyte : ∀ y, w.blockAt sb i y ≠ 0 → y < off + tot ∨ off + tot + k ≤ y →
      x.byteAt sb i y = w.byteAt sb i y := fun _ => byteAt_store hw hdip hother hdata
  have hstored : ∀ y, off + tot ≤ y → y < off + tot + k →
      y / BSIZE = (off + tot) / BSIZE ∧ y % BSIZE = (off + tot) % BSIZE + (y - (off + tot)) := by
    intro y hy hy'
    have hblock := same_block (off + tot) (j := y - (off + tot)) (by omega)
    rwa [Nat.add_sub_cancel' hy] at hblock
  refine ⟨?_, ?_, ?_, ?_, ?_, ?_, ?_, ?_⟩
  · intro j hj
    rw [hdip, h.dip j hj]
  · rw [hdip]
    exact h.same
  · intro y hy
    rw [hxheld, h.held y hy]
  · intro j l hj
    rw [hxheld, h.other j l hj]
  · intro j l hj hjl
    have hwjl := h.held _ hjl
    have hne : v.held sb (j, l) ≠ w.blockAt sb i (off + tot) := by
      intro heq
      rw [← hwjl] at heq hjl
      exact hj (Prod.mk.inj (hw.holding.inj _ _ hjl heq)).1
    rw [hother _ hne, h.data j l hj hjl]
  · intro y hy hy'
    rw [blockAt, hxheld]
    by_cases hlt : y < off + tot
    · exact h.mapped y hy hlt
    · rw [(hstored y (by omega) (by omega)).1]
      exact hheld
  · intro y hy hy'
    by_cases hlt : y < off + tot
    · rw [hbyte y (h.mapped y hy hlt) (.inl hlt), h.new y hy hlt]
    · rcases hstored y (by omega) (by omega) with ⟨hdiv, hmod⟩
      simp only [blockAt] at hdata
      rw [byteAt, blockAt, hxheld, hdiv, hdata, hmod, copyin, if_pos (by omega)]
      congr 2
      omega
  · intro y hy hout
    have hwy := h.held _ hy
    rw [hbyte y (by rwa [blockAt, hwy]) (by omega), h.old y hy (by omega)]

theorem resize {d : Dinode} {n : Nat} (h : Written sb i src off tot v (w.setDip sb i d)) :
    Written sb i src off tot v (w.setDip sb i { d with size := n }) := by
  have hheld := @held_resize sb w i d n
  refine ⟨?_, ?_, ?_, ?_, h.data, ?_, ?_, ?_⟩
  · intro j hj
    rw [← h.dip j hj]
    simp [dip_setDip, hj]
  · rcases h.same with ⟨addrs, size, hsame⟩
    rw [dip_setDip, if_pos rfl] at hsame
    exact ⟨addrs, n, by simp [dip_setDip, hsame]⟩
  · intro y hy
    rw [hheld, h.held y hy]
  · intro j l hj
    rw [hheld, h.other j l hj]
  · intro y hy hy'
    rw [blockAt, hheld]
    exact h.mapped y hy hy'
  · intro y hy hy'
    rw [← h.new y hy hy', byteAt, byteAt, blockAt, blockAt, hheld]
    rfl
  · intro y hy hy'
    rw [← h.old y hy hy', byteAt, byteAt, blockAt, blockAt, hheld]
    rfl

end Written

theorem poked_setData {v : Volume} {i k : Nat} (hk : k ≠ NDIRECT)
    (hdir : (v.dip sb i).type ≠ .dir) (a : Block) :
    Poked sb i k v (v.setData (v.held sb (i, k)) a) :=
  ⟨hk, rfl, rfl, fun _ hb => Function.update_of_ne hb _ _, fun _ hb hclean => hclean.setData hb,
    fun h => absurd h hdir⟩

theorem poked_logged {v : Volume} {i k : Nat} (hk : k ≠ NDIRECT) (a : Block) :
    Poked sb i k v ((v.setData (v.held sb (i, k)) a).logged (v.held sb (i, k))) :=
  ⟨hk, rfl, rfl, fun _ hb => Function.update_of_ne hb _ _,
    fun _ hb hclean => .logged (.inl (hclean.setData hb)), fun _ => .logged (.inr rfl)⟩

theorem St.poked_setData {i k : Nat} (hi : (u.itable q).inum = i) (hk : k ≠ NDIRECT)
    (hdir : (u.itable q).copy.type ≠ .dir) (a : Block) : Poked sb i k (u.eff sb q)
      (St.eff sb { u with vol := u.vol.setData ((u.eff sb q).held sb (i, k)) a } q) := by
  subst hi
  exact Fs.poked_setData hk (by rwa [u.dip_eff]) a

theorem St.poked_logged {i k : Nat} (hi : (u.itable q).inum = i) (hk : k ≠ NDIRECT) (a : Block)
    (o : Option (Finset Nat)) : Poked sb i k (u.eff sb q) (St.eff sb { u with
      vol := (u.vol.setData ((u.eff sb q).held sb (i, k)) a).logged ((u.eff sb q).held sb (i, k))
      op := o } q) := by
  subst hi
  exact Fs.poked_logged hk a

/-- In the loop of `writei`: the bytes in `[off, off + tot)` have been written, the size is old. -/
structure Wrote (sb : Superblock) (q : Ip) (src : Nat → Option UInt8) (off tot : Nat)
    (s t : St) : Prop where
  eq : ∃ v o d, t = s.put q v o d
  intact : (t.eff sb q).Intact sb
  written : Written sb (s.itable q).inum src off tot (s.eff sb q) (t.eff sb q)
  size : (t.itable q).copy.size = (s.itable q).copy.size

namespace Wrote

variable {src : Nat → Option UInt8} {off tot : Nat}

theorem inum (h : Wrote sb q src off tot s t) : (t.itable q).inum = (s.itable q).inum := by
  rcases h.eq with ⟨v, o, d, rfl⟩
  simp

theorem type_eq (h : Wrote sb q src off tot s t) :
    (t.itable q).copy.type = (s.itable q).copy.type := by
  rcases h.written.same with ⟨addrs, size, hsame⟩
  rw [s.dip_eff, ← h.inum, t.dip_eff] at hsame
  rw [hsame]

theorem ext (h : Wrote sb q src off tot s t) (g : Ext sb q t u) : Wrote sb q src off tot s u := by
  refine ⟨?_, g.intact, h.written.grow (h.inum ▸ g.grown), ?_⟩
  · rcases h.eq with ⟨v, o, d, rfl⟩
    rcases g.eq with ⟨v', o', d', rfl⟩
    exact ⟨v', o', d', St.put_put ..⟩
  · rcases g.copy with ⟨addrs, hcopy⟩
    rw [hcopy]
    exact h.size

theorem store {k : Nat} {v : Volume} {o : Option (Finset Nat)} (h : Wrote sb q src off tot s t)
    (hheld : (t.eff sb q).blockAt sb (s.itable q).inum (off + tot) ≠ 0)
    (hk : k ≤ BSIZE - (off + tot) % BSIZE)
    (hp : Poked sb (s.itable q).inum (slotOf ((off + tot) / BSIZE)) (t.eff sb q)
      (St.eff sb { t with vol := v, op := o } q))
    (hdata : v.data ((t.eff sb q).blockAt sb (s.itable q).inum (off + tot)) =
      copyin src tot k ((off + tot) % BSIZE) (t.vol.data
        ((t.eff sb q).blockAt sb (s.itable q).inum (off + tot)))) :
    Wrote sb q src off (tot + k) s { t with vol := v, op := o } := by
  refine ⟨?_, hp.intact h.intact, h.written.store h.intact hheld hk hp.dip hp.data hdata, h.size⟩
  rcases h.eq with ⟨v', o', d, rfl⟩
  exact ⟨v, o, d, rfl⟩

end Wrote

/-- The loop stops with fewer than `n` bytes at a block boundary, for want of a block, or because
the source cannot be read further; then `k` bytes more than it reports may have been stored. -/
theorem writeiLoop_spec {src : Nat → Option UInt8} {off n fuel tot : Nat}
    (hd : (s.itable q).copy.type ≠ .free)
    (hdir : (s.itable q).copy.type = .dir → Readable src n) (htot : tot ≤ n)
    (hfuel : n - tot ≤ fuel) (hal : tot = n ∨ tot = 0 ∨ (off + tot) % BSIZE = 0)
    (h : Wrote sb q src off tot s t) :
    wp (writeiLoop sb q src n fuel tot (off + tot)) Benign (fun r u => ∃ k,
      Wrote sb q src off (r.1 + k) s u ∧ r.2 = off + r.1 ∧ r.1 + k ≤ n ∧
      (Readable src n → k = 0 ∧ (r.1 = n ∨ r.1 = 0 ∨ (off + r.1) % BSIZE = 0))) t := by
  induction fuel generalizing tot t with
  | zero => exact ⟨0, h, rfl, htot, fun _ => ⟨rfl, hal⟩⟩
  | succ fuel ih =>
    rw [writeiLoop]
    split
    · rename_i hlt
      have htype : (t.itable q).copy.type ≠ .free := by rwa [h.type_eq]
      refine wp_seq (bmap_spec h.intact htype _) ?_
      rintro addr u ⟨hext, haddr⟩
      have hu := h.ext hext
      split
      · exact ⟨0, hu, rfl, htot, fun _ => ⟨rfl, hal⟩⟩
      · rename_i hne
        have haddr := haddr hne
        rw [h.inum] at haddr
        subst haddr
        obtain ⟨m, hmin, hm, hmn, hmb, hend⟩ := round_spec (off + tot) hlt
        rw [Nat.add_assoc] at hend
        have hkm := copied_le src tot m
        simp only [hmin, wp_bind, setVol, wp_modify]
        split
        · -- `either_copyin` failed: a directory's source can always be read.
          rename_i hshort
          have hnot : ¬ Readable src n := by
            intro hread
            rw [copied_eq hread hmn] at hshort
            omega
          have hnotdir : (u.itable q).copy.type ≠ .dir := by
            rw [hu.type_eq]
            exact fun hdir' => hnot (hdir hdir')
          exact ⟨_, hu.store hne (hkm.trans hmb) (St.poked_setData hu.inum (slotOf_ne _) hnotdir _)
            (Function.update_self ..), rfl, by omega, fun hread => absurd hread hnot⟩
        · rename_i hfull
          have hk : copied src tot m = m := by omega
          rw [hk, wp_bind]
          refine wp_logWrite fun o => ?_
          have hstored := hu.store hne hmb (St.poked_logged hu.inum (slotOf_ne _) _ o)
            (Function.update_self ..)
          have hrest := ih (by omega) (by omega) (by omega) hstored
          rw [← Nat.add_assoc] at hrest
          exact hrest
    · exact ⟨0, h, rfl, htot, fun _ => ⟨rfl, hal⟩⟩

/-- `writei` has stored `tot` of `n` bytes and written the inode back. -/
structure Done (sb : Superblock) (q : Ip) (src : Nat → Option UInt8) (off n tot : Nat)
    (s t : St) : Prop where
  eq : ∃ v o d, t = s.put q v o d
  intact : t.vol.Intact sb
  coherent : t.vol.dip sb (s.itable q).inum = (t.itable q).copy
  bytes : ∃ k, Written sb (s.itable q).inum src off (tot + k) (s.eff sb q) t.vol ∧
    (Readable src n → k = 0)
  size : (t.itable q).copy.size = max (s.itable q).copy.size (off + tot)
  off_le : off ≤ (s.itable q).copy.size
  le : tot ≤ n
  full : Readable src n → tot = n ∨ tot = 0 ∨ (off + tot) % BSIZE = 0

theorem Wrote.done {src : Nat → Option UInt8} {off n tot k b : Nat} {o : Option (Finset Nat)}
    (h : Wrote sb q src off (tot + k) s t) (hd : (s.itable q).copy.type ≠ .free)
    (hoff : off ≤ (s.itable q).copy.size) (hle : tot ≤ n)
    (hfull : Readable src n → k = 0 ∧ (tot = n ∨ tot = 0 ∨ (off + tot) % BSIZE = 0)) :
    Done sb q src off n tot s (t.put q ((t.vol.setDip sb (s.itable q).inum { (t.itable q).copy with
        size := max (s.itable q).copy.size (off + tot) }).logged b) o
      { (t.itable q).copy with size := max (s.itable q).copy.size (off + tot) }) := by
  have hw := h.written
  have heff : t.eff sb q = t.vol.setDip sb (s.itable q).inum (t.itable q).copy := by
    rw [St.eff, h.inum]
  have hintact := h.intact
  rw [heff] at hw hintact
  have htype : (t.itable q).copy.type ≠ .free := by rwa [h.type_eq]
  refine ⟨?_, ?_, ?_, ⟨k, ?_, fun hread => (hfull hread).1⟩, by simp, hoff, hle,
    fun hread => (hfull hread).2⟩
  · rcases h.eq with ⟨v, o', d, rfl⟩
    exact ⟨_, o, _, St.put_put ..⟩
  · refine (hintact.resize htype fun bn hbn => ?_).logged b
    by_cases hsize : bn * BSIZE < (s.itable q).copy.size
    · refine hintact.mapped _ ?_ bn ?_
      · simpa [dip_setDip] using htype
      · simpa [dip_setDip, h.size] using hsize
    · -- The block lies in what has been written.
      have hbyte := hw.mapped (bn * BSIZE) (by omega) (by omega)
      rwa [blockAt, Nat.mul_div_cancel _ (by decide)] at hbyte
  · simp [dip_setDip]
  · have hsized := hw.resize (n := max (s.itable q).copy.size (off + tot))
    exact ⟨hsized.dip, hsized.same, hsized.held, hsized.other, hsized.data, hsized.mapped,
      hsized.new, hsized.old⟩

theorem writei_spec {src : Nat → Option UInt8} {off n : Nat} (hv : (s.eff sb q).Intact sb)
    (hd : (s.itable q).copy.type ≠ .free)
    (hdir : (s.itable q).copy.type = .dir → Readable src n) :
    wp (writei sb q src off n) Benign (fun r t =>
      r = -1 ∧ t = s ∨ ∃ tot : Nat, r = tot ∧ Done sb q src off n tot s t) s := by
  unfold writei
  rw [wp_bind, wp_gets]
  split
  · exact .inl ⟨rfl, rfl⟩
  · rename_i hoff
    split
    · exact .inl ⟨rfl, rfl⟩
    · have hstart : Wrote sb q src off 0 s s :=
        ⟨⟨s.vol, s.op, _, (s.put_self ..).symm⟩, hv, .refl _, rfl⟩
      refine wp_seq (writeiLoop_spec hd hdir (Nat.zero_le n) le_rfl
        (.inr (.inl rfl)) hstart) ?_
      rintro r t ⟨k, ht, hr, hle, hfull⟩
      simp only [wp_bind, setCopy, setInode, wp_modify, hr]
      refine wp_post iupdate_spec ?_
      rintro _ u ⟨o, rfl⟩
      have hcopy : (if off + r.1 > (t.itable q).copy.size then
          { (t.itable q).copy with size := off + r.1 } else (t.itable q).copy) =
            { (t.itable q).copy with size := max (s.itable q).copy.size (off + r.1) } := by
        have hsize := ht.size
        split
        · rw [Nat.max_eq_right (by omega)]
        · rw [Nat.max_eq_left (by omega), ← hsize]
      have hdone := ht.done (n := n) (b := IBLOCK sb (s.itable q).inum) (o := o) hd (by omega)
        (by omega) hfull
      rw [wp_pure]
      refine .inr ⟨r.1, rfl, ?_⟩
      have heq : ∀ v : St, v = t.put q ((t.vol.setDip sb (s.itable q).inum { (t.itable q).copy with
            size := max (s.itable q).copy.size (off + r.1) }).logged
              (IBLOCK sb (s.itable q).inum)) o
          { (t.itable q).copy with size := max (s.itable q).copy.size (off + r.1) } →
          Done sb q src off n r.1 s v := fun v hv => hv ▸ hdone
      refine heq _ ?_
      simp [St.put, St.eff, hcopy, ht.inum]

end Xv6.Fs
