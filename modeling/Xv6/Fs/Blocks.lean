import Xv6.Fs.Inode
import Xv6.Fs.Slots

/-!
# Blocks — what the block layer does to the volume

An inode that is being changed is ahead of the disk: its blocks are those of the copy in the inode
table.  The functions are specified on the volume with that copy written back.
-/

namespace Xv6.Fs

open Lib Prog Volume
open Function (update update_apply update_eq_self update_of_ne update_self)

variable {sb : Superblock} {s t u : St} {q : Ip}

/-- The panics that are not excluded here: neither a block freed twice nor a free inode locked. -/
def Benign (e : Panic) : Prop :=
  e ≠ .freeingFreeBlock ∧ e ≠ .ilockNoType

/-! ## The inode in hand -/

namespace St

/-- `s` with another volume and another copy of the disk inode in entry `q`. -/
def put (s : St) (q : Ip) (v : Volume) (o : Option (Finset Nat)) (d : Dinode) : St :=
  { s with
    vol := v
    op := o
    itable := update s.itable q { s.itable q with copy := d } }

@[simp]
theorem put_put (v v' : Volume) (o o' : Option (Finset Nat)) (d d' : Dinode) :
    (s.put q v o d).put q v' o' d' = s.put q v' o' d' := by
  simp [put]

theorem put_self (s : St) (q : Ip) (v : Volume) (o : Option (Finset Nat)) :
    s.put q v o (s.itable q).copy = { s with vol := v, op := o } := by
  simp [put]

@[simp]
theorem itable_put_self (s : St) (q : Ip) (v : Volume) (o : Option (Finset Nat)) (d : Dinode) :
    (s.put q v o d).itable q = { s.itable q with copy := d } :=
  update_self ..

@[simp]
theorem vol_put (s : St) (q : Ip) (v : Volume) (o : Option (Finset Nat)) (d : Dinode) :
    (s.put q v o d).vol = v := rfl

/-- The volume with the copy in entry `q` written back. -/
def eff (sb : Superblock) (s : St) (q : Ip) : Volume :=
  s.vol.setDip sb (s.itable q).inum (s.itable q).copy

theorem eff_put (s : St) (q : Ip) (v : Volume) (o : Option (Finset Nat)) (d : Dinode) :
    (s.put q v o d).eff sb q = v.setDip sb (s.itable q).inum d := by
  simp [eff]

theorem dip_eff (s : St) (q : Ip) : (s.eff sb q).dip sb (s.itable q).inum = (s.itable q).copy := by
  simp [eff, dip_setDip]

end St

/-- From `s` to `t` the inode in entry `q` has taken some blocks. -/
structure Ext (sb : Superblock) (q : Ip) (s t : St) : Prop where
  eq : ∃ v o d, t = s.put q v o d
  intact : (t.eff sb q).Intact sb
  grown : Grown sb (s.itable q).inum (s.eff sb q) (t.eff sb q)

namespace Ext

theorem refl (h : (s.eff sb q).Intact sb) : Ext sb q s s :=
  ⟨⟨s.vol, s.op, (s.itable q).copy, (s.put_self ..).symm⟩, h, .refl _⟩

theorem inum (h : Ext sb q s t) : (t.itable q).inum = (s.itable q).inum := by
  rcases h.eq with ⟨v, o, d, rfl⟩
  simp

theorem trans (h : Ext sb q s t) (h' : Ext sb q t u) : Ext sb q s u := by
  refine ⟨?_, h'.intact, h.grown.trans (h.inum ▸ h'.grown)⟩
  rcases h.eq with ⟨v, o, d, rfl⟩
  rcases h'.eq with ⟨v', o', d', rfl⟩
  exact ⟨v', o', d', St.put_put ..⟩

theorem copy (h : Ext sb q s t) :
    ∃ addrs, (t.itable q).copy = { (s.itable q).copy with addrs := addrs } := by
  rcases h.grown.same with ⟨addrs, hsame⟩
  rw [s.dip_eff, ← h.inum, t.dip_eff] at hsame
  exact ⟨addrs, hsame⟩

theorem type_eq (h : Ext sb q s t) : (t.itable q).copy.type = (s.itable q).copy.type := by
  rcases h.copy with ⟨addrs, haddrs⟩
  rw [haddrs]

end Ext

/-! ## Logging and the bitmap -/

theorem wp_logWrite {b : Nat} {Q : Unit → St → Prop}
    (hQ : ∀ o, Q () { s with op := o, vol := s.vol.logged b }) :
    wp (logWrite sb b) Benign Q s := by
  unfold logWrite
  rw [wp_bind, wp_gets]
  split
  · exact ⟨by simp, by simp⟩
  · cases s.op with
    | none => exact ⟨by simp, by simp⟩
    | some l => exact hQ _

theorem ballocScan_eq_some {v : Volume} {b c : Nat} {n bi : Nat}
    (h : ballocScan sb v b n bi = some c) :
    c < bi + n ∧ b + c < sb.size ∧ v.bitmap (BBLOCK sb b) c = false := by
  induction n generalizing bi with
  | zero => simp [ballocScan] at h
  | succ n ih =>
    rw [ballocScan] at h
    split at h
    · split at h
      · have hrec := ih h
        exact ⟨by omega, hrec.2⟩
      · rename_i hlt hbit
        cases h
        exact ⟨by omega, hlt, by simpa using hbit⟩
    · cases h

/-- The bits of one bitmap block belong to consecutive blocks. -/
theorem bitmap_eq_bit (v : Volume) {b c : Nat} (hb : BPB ∣ b) (hc : c < BPB) :
    v.bitmap (BBLOCK sb b) c = v.bit sb (b + c) := by
  rcases hb with ⟨m, rfl⟩
  have hdiv : (BPB * m + c) / BPB = m := by
    rw [Nat.mul_add_div (by decide), Nat.div_eq_of_lt hc, Nat.add_zero]
  have hmod : (BPB * m + c) % BPB = c := by
    rw [Nat.mul_add_mod, Nat.mod_eq_of_lt hc]
  unfold bit BBLOCK
  rw [hdiv, hmod, Nat.mul_div_cancel_left m (by decide)]

theorem ballocFrom_spec {n b : Nat} (hb : BPB ∣ b) :
    wp (ballocFrom sb n b) Benign (fun r t => r = 0 ∧ t = s ∨
      ∃ v o, t = { s with vol := v, op := o } ∧ Alloc sb r s.vol v) s := by
  induction n generalizing b with
  | zero => exact .inl ⟨rfl, rfl⟩
  | succ n ih =>
    rw [ballocFrom]
    split
    · rw [wp_bind, wp_gets]
      cases hscan : ballocScan sb s.vol b BPB 0 with
      | some bi =>
        rcases ballocScan_eq_some hscan with ⟨hlt, hsize, hbit⟩
        rw [bitmap_eq_bit _ hb (by simpa using hlt)] at hbit
        have halloc := alloc_of_unused (b := BBLOCK sb b) hsize hbit
        simp only [wp_bind, setVol, wp_modify, bzero]
        refine wp_logWrite fun o => wp_logWrite fun o' => ?_
        exact .inr ⟨_, o', rfl, halloc⟩
      | none => exact ih (Nat.dvd_add hb (Nat.dvd_refl _))
    · exact .inl ⟨rfl, rfl⟩

theorem balloc_spec : wp (balloc sb) Benign (fun r t => r = 0 ∧ t = s ∨
    ∃ v o, t = { s with vol := v, op := o } ∧ Alloc sb r s.vol v) s :=
  ballocFrom_spec (Nat.dvd_zero _)

theorem bfree_spec {b : Nat} (hb : s.vol.bit sb b = true) :
    wp (bfree sb b) Benign (fun _ t => ∃ o, t =
      { s with vol := (s.vol.setBit sb b false).logged (BBLOCK sb b), op := o }) s := by
  unfold bfree
  rw [wp_bind, wp_gets, if_neg (by simp [hb])]
  simp only [wp_bind, setVol, wp_modify]
  exact wp_logWrite fun o => ⟨o, rfl⟩

/-! ## The block map -/

theorem bmapAddr_spec (hv : (s.eff sb q).Intact sb) (hd : (s.itable q).copy.type ≠ .free)
    {k : Nat} (hk : k ≤ NDIRECT) :
    wp (bmapAddr sb q k) Benign (fun r t => Ext sb q s t ∧
      r = (t.eff sb q).held sb ((s.itable q).inum, k)) s := by
  have hheld : (s.eff sb q).held sb ((s.itable q).inum, k) = (s.itable q).copy.addrs k := by
    rw [held_addr _ _ hk, s.dip_eff]
  unfold bmapAddr
  rw [wp_bind, wp_gets]
  split
  · rename_i hzero
    refine wp_seq balloc_spec ?_
    rintro r t (⟨rfl, rfl⟩ | ⟨v, o, rfl, halloc⟩)
    · exact ⟨.refl hv, by rw [hheld, hzero]⟩
    · have hgain := halloc.addr hv hd hk hzero
      rw [if_neg (hv.fresh halloc.lt halloc.unused).1]
      simp only [wp_bind, setCopy, setInode, wp_modify, wp_pure]
      have heq : ({ s with
          vol := v
          op := o
          itable := update s.itable q { s.itable q with copy :=
            { (s.itable q).copy with
              addrs := update (s.itable q).copy.addrs k r } } } : St) =
          s.put q v o { (s.itable q).copy with
            addrs := update (s.itable q).copy.addrs k r } := rfl
      rw [heq]
      refine ⟨⟨⟨_, _, _, rfl⟩, ?_, ?_⟩, ?_⟩
      · rw [St.eff_put]
        exact hgain.intact hv
      · rw [St.eff_put]
        exact hgain.grown hv
      · rw [St.eff_put, hgain.held, update_self]
  · exact ⟨.refl hv, hheld.symm⟩

theorem bmap_spec (hv : (s.eff sb q).Intact sb) (hd : (s.itable q).copy.type ≠ .free) (bn : Nat) :
    wp (bmap sb q bn) Benign (fun r t => Ext sb q s t ∧
      (r ≠ 0 → r = (t.eff sb q).held sb ((s.itable q).inum, slotOf bn))) s := by
  unfold bmap
  split
  · rename_i hbn
    refine wp_post (bmapAddr_spec hv hd (Nat.le_of_lt hbn)) ?_
    rintro r t ⟨hext, hr⟩
    exact ⟨hext, fun _ => by rw [hr, slotOf, if_pos hbn]⟩
  · rename_i hbn
    split
    · rename_i hlt
      refine wp_seq (bmapAddr_spec hv hd le_rfl) ?_
      rintro ind t ⟨hext, hind⟩
      split
      · exact ⟨hext, fun h => absurd rfl h⟩
      · rename_i hne
        have htype : (t.itable q).copy.type ≠ .free := by rwa [hext.type_eq]
        have haddr : (t.itable q).copy.addrs NDIRECT = ind := by
          rw [hind, ← hext.inum, held_addr _ _ le_rfl, t.dip_eff]
        have hslot : slotOf bn = NDIRECT + 1 + (bn - NDIRECT) := by
          rw [slotOf, if_neg hbn]
          omega
        rw [wp_bind, wp_gets]
        split
        · rename_i hzero
          refine wp_seq balloc_spec ?_
          rintro r u (⟨rfl, rfl⟩ | ⟨v, o, rfl, halloc⟩)
          · exact ⟨hext, fun h => absurd rfl h⟩
          · subst haddr
            have hgain := halloc.entry hext.intact htype hne hlt hzero
            rw [if_neg (hext.intact.fresh halloc.lt halloc.unused).1]
            simp only [wp_bind, setVol, wp_modify]
            refine wp_logWrite fun o' => ?_
            rw [wp_pure]
            have hstep : Ext sb q t (t.put q _ o' (t.itable q).copy) :=
              ⟨⟨_, _, _, rfl⟩, by rw [St.eff_put]; exact hgain.intact hext.intact,
                by rw [St.eff_put]; exact hgain.grown hext.intact⟩
            have hheld := hgain.held
            rw [St.put_self] at hstep
            refine ⟨hext.trans hstep, fun _ => ?_⟩
            rw [hslot, ← hext.inum]
            exact (by rw [hheld, update_self] :
              r = (((v.setData _ _).logged _).setDip sb (t.itable q).inum _).held sb _)
        · refine ⟨hext, fun _ => ?_⟩
          rw [hslot, ← hext.inum, held, t.dip_eff,
            Dinode.slot_of_lt (by omega) (by simp only [NSLOT]; omega) (by rwa [haddr]), haddr]
          congr 1
          omega
    · exact ⟨by simp, by simp⟩

/-- An existing block is found without any change. -/
theorem bmapAddr_of_ne {k : Nat} (h : (s.itable q).copy.addrs k ≠ 0) :
    bmapAddr sb q k s = .ok ((s.itable q).copy.addrs k) s := by
  unfold bmapAddr
  rw [bind_gets, if_neg h]
  rfl

theorem bmap_of_mapped {bn : Nat} (h : (s.eff sb q).held sb ((s.itable q).inum, slotOf bn) ≠ 0) :
    bmap sb q bn s = .ok ((s.eff sb q).held sb ((s.itable q).inum, slotOf bn)) s := by
  unfold bmap
  rw [held, s.dip_eff] at h ⊢
  by_cases hbn : bn < NDIRECT
  · rw [slotOf, if_pos hbn, Dinode.slot_of_le (Nat.le_of_lt hbn)] at h
    rw [if_pos hbn, bmapAddr_of_ne h, slotOf, if_pos hbn, Dinode.slot_of_le (Nat.le_of_lt hbn)]
  · rw [slotOf, if_neg hbn] at h
    have hlt : bn + 1 < NSLOT := by
      by_contra hge
      exact h (Dinode.slot_of_ge (Nat.le_of_not_lt hge))
    have hind : (s.itable q).copy.addrs NDIRECT ≠ 0 := by
      intro hzero
      exact h (Dinode.slot_of_zero (by omega) hzero)
    rw [Dinode.slot_of_lt (by omega) hlt hind] at h
    have hsub : bn + 1 - (NDIRECT + 1) = bn - NDIRECT := by omega
    rw [hsub] at h
    rw [if_neg hbn, if_pos (by simp only [NSLOT] at hlt; omega), bind_ok (bmapAddr_of_ne hind),
      if_neg hind, bind_gets, slotOf, if_neg hbn, Dinode.slot_of_lt (by omega) hlt hind, hsub]
    exact if_neg h ▸ rfl

/-! ## Truncation -/

/-- From `s` to `t` the inode in entry `q` has given back some blocks; it is to have size 0. -/
structure Trim (sb : Superblock) (q : Ip) (s t : St) : Prop where
  eq : ∃ v o addrs, t = s.put q v o { (s.itable q).copy with addrs := addrs }
  dip : t.vol.dip sb = s.vol.dip sb
  data : t.vol.data = s.vol.data
  clean : ∀ b, s.vol.CleanAt b → t.vol.CleanAt b
  intact : (t.vol.setDip sb (s.itable q).inum { (t.itable q).copy with size := 0 }).Intact sb

namespace Trim

theorem refl (h : (s.eff sb q).Intact sb) (hd : (s.itable q).copy.type ≠ .free) : Trim sb q s s :=
  ⟨⟨s.vol, s.op, (s.itable q).copy.addrs, (s.put_self ..).symm⟩, rfl, rfl, fun _ hb => hb,
    h.resize hd fun _ hbn => absurd hbn (Nat.not_lt_zero _)⟩

theorem copy (h : Trim sb q s t) :
    ∃ addrs, (t.itable q).copy = { (s.itable q).copy with addrs := addrs } := by
  rcases h.eq with ⟨v, o, d, rfl⟩
  exact ⟨d, by simp⟩

end Trim

theorem itruncDirect_spec (hd : (s.itable q).copy.type ≠ .free) {n i : Nat} (hni : i + n = NDIRECT)
    (h : Trim sb q s t) :
    wp (itruncDirect sb q n i) Benign (fun _ u => Trim sb q s u ∧ ∀ k, (u.itable q).copy.addrs k =
        if i ≤ k ∧ k < NDIRECT then 0 else (t.itable q).copy.addrs k) t := by
  induction n generalizing i t with
  | zero =>
    refine ⟨h, fun k => ?_⟩
    rw [if_neg (by omega)]
  | succ n ih =>
    rw [itruncDirect, wp_bind, wp_gets]
    split
    · rename_i hzero
      refine wp_post (ih (by omega) h) ?_
      rintro _ u ⟨htrim, haddrs⟩
      refine ⟨htrim, fun k => ?_⟩
      rw [haddrs]
      by_cases hk : k = i
      · subst hk
        rw [if_neg (by omega), if_pos (by omega), hzero]
      · by_cases hik : i + 1 ≤ k ∧ k < NDIRECT
        · rw [if_pos hik, if_pos (by omega)]
        · rw [if_neg hik, if_neg (by omega)]
    · rename_i hne
      rcases h.copy with ⟨addrs, hcopy⟩
      have htype : (t.itable q).copy.type ≠ .free := by rwa [hcopy]
      have hused : t.vol.bit sb ((t.itable q).copy.addrs i) = true := by
        have hheld := h.intact.holding.used_of_held (k := ((s.itable q).inum, i))
        rw [held_setDip_self, Dinode.slot_of_le (by omega)] at hheld
        exact hheld hne
      refine wp_seq (bfree_spec hused) ?_
      rintro _ u ⟨o, rfl⟩
      rw [wp_bind, setCopy, setInode, wp_modify]
      have hstep : Trim sb q s (t.put q ((t.vol.setBit sb ((t.itable q).copy.addrs i) false).logged
            (BBLOCK sb ((t.itable q).copy.addrs i))) o
          { (t.itable q).copy with
            addrs := update (t.itable q).copy.addrs i 0 }) := by
        refine ⟨?_, h.dip, h.data, fun b hb => .logged (.inl (h.clean b hb)), ?_⟩
        · rcases h.eq with ⟨v, o', d, rfl⟩
          exact ⟨_, _, _, by rw [St.put_put, St.itable_put_self]⟩
        · have hrel := h.intact.release (k := i) htype rfl (by omega) hne
            (BBLOCK sb ((t.itable q).copy.addrs i))
          simpa using hrel
      have hrest := ih (i := i + 1) (by omega) hstep
      refine wp_post hrest ?_
      rintro _ u ⟨htrim, haddrs⟩
      refine ⟨htrim, fun k => ?_⟩
      rw [haddrs, St.itable_put_self]
      by_cases hk : k = i
      · subst hk
        rw [if_neg (by omega), if_pos (by omega)]
        exact update_self ..
      · by_cases hik : i + 1 ≤ k ∧ k < NDIRECT
        · rw [if_pos hik, if_pos (by omega)]
        · rw [if_neg hik, if_neg (by omega)]
          exact update_of_ne hk _ _

/-- The blocks of the entries from `j` on are given back; `H` is what the slots hold. -/
theorem itruncEntries_spec {a : Block} {i n j : Nat} (hnj : j + n = NINDIRECT)
    {H : Nat × Nat → Nat} (hH : ∀ l, l < NINDIRECT → j ≤ l → H (i, NDIRECT + 1 + l) = a.uint l)
    (hholding : Holding sb.nmeta sb.size (s.vol.bit sb) H) :
    wp (itruncEntries sb a n j) Benign (fun _ t => ∃ v o, t = { s with vol := v, op := o } ∧
      v.dip sb = s.vol.dip sb ∧ v.data = s.vol.data ∧ (∀ b, s.vol.CleanAt b → v.CleanAt b) ∧
      Holding sb.nmeta sb.size (v.bit sb) (fun x =>
        if x.1 = i ∧ NDIRECT + 1 + j ≤ x.2 ∧ x.2 < NSLOT then 0 else H x)) s := by
  induction n generalizing j s H with
  | zero =>
    refine ⟨s.vol, s.op, rfl, rfl, rfl, fun _ hb => hb, ?_⟩
    have heq : (fun x : Nat × Nat =>
        if x.1 = i ∧ NDIRECT + 1 + j ≤ x.2 ∧ x.2 < NSLOT then 0 else H x) = H := by
      funext x
      rw [if_neg (by simp only [NSLOT]; omega)]
    rw [heq]
    exact hholding
  | succ n ih =>
    have hj := hH j (by omega) le_rfl
    -- Emptying slot `j` first and then the later ones empties all of them.
    have hstep : ∀ x : Nat × Nat, (if x.1 = i ∧ NDIRECT + 1 + (j + 1) ≤ x.2 ∧ x.2 < NSLOT then 0
        else update H (i, NDIRECT + 1 + j) 0 x) =
          if x.1 = i ∧ NDIRECT + 1 + j ≤ x.2 ∧ x.2 < NSLOT then 0 else H x := by
      rintro ⟨m, l⟩
      by_cases hx : m = i ∧ l = NDIRECT + 1 + j
      · rcases hx with ⟨rfl, rfl⟩
        rw [if_neg (by simp), update_self, if_pos (by simp only [NSLOT]; simp; omega)]
      · rw [update_of_ne (by simpa using hx)]
        refine if_congr ?_ rfl rfl
        constructor
        · rintro ⟨h1, h2, h3⟩
          exact ⟨h1, by simp only at h2 ⊢; omega, h3⟩
        · rintro ⟨h1, h2, h3⟩
          refine ⟨h1, ?_, h3⟩
          have hne : l ≠ NDIRECT + 1 + j := fun hl => hx ⟨h1, hl⟩
          simp only at h2 ⊢
          omega
    rw [itruncEntries]
    split
    · rename_i hzero
      have hself : update H (i, NDIRECT + 1 + j) 0 = H := by
        rw [← hzero, ← hj, update_eq_self]
      refine wp_post (ih (by omega) (fun l hl hjl => hH l hl (by omega)) hholding) ?_
      rintro _ t ⟨v, o, rfl, hdip, hdata, hclean, hhold⟩
      refine ⟨v, o, rfl, hdip, hdata, hclean, ?_⟩
      rw [← funext hstep, hself]
      exact hhold
    · rename_i hne
      have hused : s.vol.bit sb (a.uint j) = true := by
        rw [← hj] at hne ⊢
        exact hholding.used_of_held hne
      refine wp_seq (bfree_spec hused) ?_
      rintro _ t ⟨o, rfl⟩
      have hrel := hholding.release (k := (i, NDIRECT + 1 + j)) (by rwa [hj])
      rw [hj] at hrel
      have hbit : ((s.vol.setBit sb (a.uint j) false).logged (BBLOCK sb (a.uint j))).bit sb =
          update (s.vol.bit sb) (a.uint j) false := by
        funext c
        simp only [bit_logged, bit_setBit, update_apply]
      rw [← hbit] at hrel
      refine wp_post (ih (H := update H (i, NDIRECT + 1 + j) 0) (by omega) ?_ hrel) ?_
      · intro l hl hjl
        rw [update_of_ne (by simp; omega)]
        exact hH l hl (by omega)
      · rintro _ t ⟨v, o', rfl, hdip, hdata, hclean, hhold⟩
        refine ⟨v, o', rfl, hdip, hdata, fun b hb => hclean b (.logged (.inl hb)), ?_⟩
        rw [← funext hstep]
        exact hhold

theorem itruncIndirect_spec (hd : (s.itable q).copy.type ≠ .free) (h : Trim sb q s t) :
    wp (itruncIndirect sb q) Benign (fun _ u => Trim sb q s u ∧ ∀ k, (u.itable q).copy.addrs k =
        if k = NDIRECT then 0 else (t.itable q).copy.addrs k) t := by
  rcases h.copy with ⟨addrs, hcopy⟩
  have htype : (t.itable q).copy.type ≠ .free := by rwa [hcopy]
  unfold itruncIndirect
  rw [wp_bind, wp_gets]
  split
  · rename_i hzero
    refine ⟨h, fun k => ?_⟩
    split
    · rename_i hk
      rw [hk, hzero]
    · rfl
  · rename_i hne
    rw [wp_bind, wp_gets]
    have hslot : ∀ l, l < NINDIRECT → 0 ≤ l →
        (t.vol.setDip sb (s.itable q).inum { (t.itable q).copy with size := 0 }).held sb
          ((s.itable q).inum, NDIRECT + 1 + l) =
            (t.vol.data ((t.itable q).copy.addrs NDIRECT)).uint l := by
      intro l hl _
      rw [held_setDip_self]
      change (t.itable q).copy.slot t.vol.data _ = _
      rw [Dinode.slot_of_lt (by omega) (by simp only [NSLOT]; omega) hne]
      congr 1
      omega
    refine wp_seq (itruncEntries_spec (by omega) hslot h.intact.holding) ?_
    rintro _ u ⟨v, o, rfl, hdip, hdata, hclean, hholding⟩
    -- What the slots hold without the entries of the indirect block.
    have hH : ∀ x : Nat × Nat, (if x.1 = (s.itable q).inum ∧ NDIRECT + 1 + 0 ≤ x.2 ∧ x.2 < NSLOT
        then 0 else (t.vol.setDip sb (s.itable q).inum
          { (t.itable q).copy with size := 0 }).held sb x) =
        if x.1 = (s.itable q).inum ∧ NDIRECT < x.2 then 0 else
          (t.vol.setDip sb (s.itable q).inum { (t.itable q).copy with size := 0 }).held sb x := by
      rintro ⟨j, l⟩
      by_cases hx : j = (s.itable q).inum ∧ NDIRECT < l
      · rw [if_pos hx]
        rcases hx with ⟨rfl, hl⟩
        split
        · rfl
        · rename_i hnot
          rw [held_setDip_self]
          refine Dinode.slot_of_ge (Nat.le_of_not_lt fun hlt => hnot ⟨rfl, ?_, hlt⟩)
          simp only
          omega
      · rw [if_neg hx, if_neg (fun hy => hx ⟨hy.1, by have := hy.2.1; simp only at this ⊢; omega⟩)]
    rw [funext hH] at hholding
    have hused : v.bit sb ((t.itable q).copy.addrs NDIRECT) = true := by
      have hheld := hholding.used_of_held (k := ((s.itable q).inum, NDIRECT))
      simp only [lt_self_iff_false, and_false, if_false, held_setDip_self,
        Dinode.slot_of_le (Nat.le_refl NDIRECT)] at hheld
      exact hheld hne
    refine wp_seq (bfree_spec hused) ?_
    rintro _ u ⟨o', rfl⟩
    rw [setCopy, setInode, wp_modify]
    refine ⟨⟨?_, ?_, ?_, ?_, ?_⟩, ?_⟩
    · rcases h.eq with ⟨v', o'', d, rfl⟩
      exact ⟨(v.setBit sb (d NDIRECT) false).logged (BBLOCK sb (d NDIRECT)), o',
        update d NDIRECT 0, by simp [St.put]⟩
    · exact hdip.trans h.dip
    · exact hdata.trans h.data
    · exact fun b hb => .logged (.inl (hclean b (h.clean b hb)))
    · have hrel := h.intact.release_indirect (w := v) htype rfl hdip hdata hclean hne
        (fun _ => rfl) hholding (BBLOCK sb ((t.itable q).copy.addrs NDIRECT))
      simpa using hrel
    · intro k
      simp [update_apply]

theorem iupdate_spec : wp (iupdate sb q) Benign (fun _ t => ∃ o, t = { s with
      vol := (s.eff sb q).logged (IBLOCK sb (s.itable q).inum)
      op := o }) s := by
  unfold iupdate
  simp only [wp_bind, wp_gets, setVol, wp_modify]
  exact wp_logWrite fun o => ⟨o, rfl⟩

/-- The file gives back all its blocks and has size 0, on the disk too. -/
theorem itrunc_spec (hv : (s.eff sb q).Intact sb) (hd : (s.itable q).copy.type ≠ .free) :
    wp (itrunc sb q) Benign (fun _ t => ∃ v o addrs,
      t = s.put q v o { (s.itable q).copy with addrs := addrs, size := 0 } ∧
      (∀ k, k ≤ NDIRECT → addrs k = 0) ∧ v.Intact sb ∧
      v.dip sb = update (s.vol.dip sb) (s.itable q).inum
        { (s.itable q).copy with addrs := addrs, size := 0 } ∧
      v.data = s.vol.data ∧ ∀ b, s.vol.CleanAt b → v.CleanAt b) s := by
  unfold itrunc
  refine wp_seq (itruncDirect_spec hd (by omega) (.refl hv hd)) ?_
  rintro _ t ⟨htrim, hdirect⟩
  refine wp_seq (itruncIndirect_spec hd htrim) ?_
  rintro _ u ⟨hu, hindirect⟩
  simp only [wp_bind, setCopy, setInode, wp_modify]
  refine wp_post iupdate_spec ?_
  rintro _ x ⟨o, rfl⟩
  rcases hu.eq with ⟨v, o', addrs, rfl⟩
  have hzero : ∀ k, k ≤ NDIRECT → addrs k = 0 := by
    intro k hk
    have hik := hindirect k
    rw [St.itable_put_self] at hik
    simp only at hik
    rw [hik]
    split
    · rfl
    · rw [hdirect, if_pos (by omega)]
  have hintact := hu.intact
  simp only [St.itable_put_self, St.vol_put] at hintact
  refine ⟨((v.setDip sb (s.itable q).inum
    { (s.itable q).copy with addrs := addrs, size := 0 }).logged (IBLOCK sb (s.itable q).inum)),
    o, addrs, by simp [St.put, St.eff], hzero, ?_, ?_, hu.data, ?_⟩
  · exact hintact.logged _
  · funext j
    have hdip := congrFun hu.dip j
    simp only [St.vol_put] at hdip
    simp only [dip_logged, dip_setDip, update_apply, hdip]
  · exact fun b hb => .logged (.inl (hu.clean b hb))

end Xv6.Fs
