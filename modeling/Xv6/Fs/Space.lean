import Mathlib.Order.Interval.Finset.Nat
import Xv6.Fs.Contents

/-!
# Space — free blocks and what an operation logs

Inside an operation the block layer does not panic on a volume that is intact.  It says how many
blocks a write takes, what happens when there are not enough, and which blocks it logs.
-/

namespace Xv6.Fs

open Lib Prog Volume
open Function (update update_eq_self update_of_ne update_self)

variable {sb : Superblock} {s t u : St} {q : Ip} {l : Finset Nat} {F G : Nat → Prop}

/-- No panic at all. -/
def Never (_ : Panic) : Prop := False

/-! ## Free blocks -/

namespace Volume

variable {v w : Volume} {r : Nat}

/-- The number of free blocks. -/
def spare (sb : Superblock) (v : Volume) : Nat :=
  ((Finset.range sb.size).filter fun b => v.bit sb b = false).card

def Full (sb : Superblock) (v : Volume) : Prop :=
  ∀ b, b < sb.size → v.bit sb b = true

theorem spare_eq_zero (h : v.Full sb) : v.spare sb = 0 := by
  rw [spare, Finset.card_eq_zero, Finset.filter_eq_empty_iff]
  intro b hb hfree
  rw [h b (Finset.mem_range.1 hb)] at hfree
  cases hfree

theorem Alloc.spare_eq (a : Alloc sb r v w) : v.spare sb = w.spare sb + 1 := by
  have hmem : r ∈ (Finset.range sb.size).filter fun b => v.bit sb b = false :=
    Finset.mem_filter.2 ⟨Finset.mem_range.2 a.lt, a.unused⟩
  have herase : ((Finset.range sb.size).filter fun b => w.bit sb b = false) =
      ((Finset.range sb.size).filter fun b => v.bit sb b = false).erase r := by
    ext b
    by_cases hb : b = r <;> simp [a.bit, hb]
  rw [spare, spare, herase]
  exact (Finset.card_erase_add_one hmem).symm

end Volume

/-! ## What is logged -/

/-- From `s` to `t` an operation has stayed open and has logged only blocks in `F`.  A block that
was as it had been logged still is. -/
structure Logs (F : Nat → Prop) (s t : St) : Prop where
  op : ∃ l l', s.op = some l ∧ t.op = some l' ∧ ∀ b ∈ l', b ∈ l ∨ F b
  clean : ∀ b, s.vol.CleanAt b → t.vol.CleanAt b

namespace Logs

theorem refl (h : s.op = some l) : Logs F s s :=
  ⟨⟨l, l, h, h, fun _ hb => .inl hb⟩, fun _ hb => hb⟩

theorem mono (h : Logs F s t) (hFG : ∀ b, F b → G b) : Logs G s t := by
  obtain ⟨l, l', hs, ht, hl⟩ := h.op
  exact ⟨⟨l, l', hs, ht, fun b hb => (hl b hb).imp_right (hFG b)⟩, h.clean⟩

theorem trans (h : Logs F s t) (h' : Logs F t u) : Logs F s u := by
  obtain ⟨l, m, hs, ht, hm⟩ := h.op
  obtain ⟨m', l', ht', hu, hl⟩ := h'.op
  obtain rfl : m = m' := Option.some.inj (ht.symm.trans ht')
  refine ⟨⟨l, l', hs, hu, fun b hb => ?_⟩, fun b hb => h'.clean b (h.clean b hb)⟩
  exact (hl b hb).elim (hm b) .inr

theorem opened (h : Logs F s t) : ∃ l, t.op = some l := by
  obtain ⟨_, l', _, ht, _⟩ := h.op
  exact ⟨l', ht⟩

/-- A change beside the data blocks and the log. -/
theorem frame (h : Logs F s t) (hop : u.op = t.op) (hdata : u.vol.data = t.vol.data)
    (hdisk : u.vol.disk = t.vol.disk) : Logs F s u := by
  obtain ⟨l, l', hs, ht, hl⟩ := h.op
  refine ⟨⟨l, l', hs, hop.trans ht, hl⟩, fun b hb => ?_⟩
  have hclean := h.clean b hb
  rw [CleanAt] at hclean ⊢
  rw [hdata, hdisk, hclean]

end Logs

theorem LogFull.mono {l' : Finset Nat} (h : LogFull sb l) (hl : l ⊆ l') : LogFull sb l' := by
  have hcard := Finset.card_le_card hl
  exact h.imp (fun hle => by omega) fun hle => by omega

theorem logWrite_open (h : s.op = some l) (hroom : ¬ LogFull sb l) (b : Nat) :
    logWrite sb b s = .ok () { s with op := some (insert b l), vol := s.vol.logged b } := by
  unfold logWrite
  rw [bind_gets, h, Option.getD_some, if_neg hroom]
  rfl

theorem wp_logWrite_open {b : Nat} {E : Panic → Prop} {Q : Unit → St → Prop} (h : s.op = some l)
    (hroom : ¬ LogFull sb l) (hQ : Q () { s with op := some (insert b l), vol := s.vol.logged b }) :
    wp (logWrite sb b) E Q s :=
  (wp_of_eq (logWrite_open h hroom b)).2 hQ

theorem bind_setVol {α : Type} (g : Volume → Volume) (f : Unit → M α) (s : St) :
    (setVol g >>= f) s = f () { s with vol := g s.vol } := rfl

/-! ## `balloc` -/

/-- The state after `balloc` has found block `r`. -/
def St.claim (s : St) (sb : Superblock) (l : Finset Nat) (r : Nat) : St :=
  { s with
    vol := (((s.vol.setBit sb r true).logged (BBLOCK sb r)).setData r .zero).logged r
    op := some (insert r (insert (BBLOCK sb r) l)) }

theorem ballocScan_eq_none {v : Volume} {b n bi : Nat} (h : ballocScan sb v b n bi = none) :
    ∀ c, bi ≤ c → c < bi + n → b + c < sb.size → v.bitmap (BBLOCK sb b) c = true := by
  induction n generalizing bi with
  | zero =>
    intro c hle hlt
    omega
  | succ n ih =>
    intro c hle hlt hsize
    rw [ballocScan, if_pos (by omega)] at h
    split at h
    · rename_i hbit
      rcases Nat.eq_or_lt_of_le hle with rfl | hgt
      · exact hbit
      · exact ih h c hgt (by omega) hsize
    · cases h

theorem BBLOCK_add {b c : Nat} (hb : BPB ∣ b) (hc : c < BPB) : BBLOCK sb (b + c) = BBLOCK sb b := by
  obtain ⟨m, rfl⟩ := hb
  rw [BBLOCK, BBLOCK, Nat.mul_add_div (by decide), Nat.div_eq_of_lt hc, Nat.add_zero,
    Nat.mul_div_cancel_left m (by decide)]

/-- Whichever free block `balloc` takes, there is room in the log to the end. -/
def BallocRoom (sb : Superblock) (v : Volume) (l : Finset Nat) : Prop :=
  ∀ r, r < sb.size → v.bit sb r = false → ¬ LogFull sb (insert r (insert (BBLOCK sb r) l))

theorem ballocFrom_open (h : s.op = some l) (hroom : BallocRoom sb s.vol l) {n b : Nat}
    (hb : BPB ∣ b) (hn : sb.size ≤ b + n * BPB) :
    (∃ r, r < sb.size ∧ s.vol.bit sb r = false ∧ ballocFrom sb n b s = .ok r (s.claim sb l r)) ∨
      ballocFrom sb n b s = .ok 0 s ∧ ∀ c, b ≤ c → c < sb.size → s.vol.bit sb c = true := by
  induction n generalizing b with
  | zero =>
    refine .inr ⟨rfl, fun c hle hlt => ?_⟩
    omega
  | succ n ih =>
    rw [ballocFrom]
    split
    · rw [bind_gets]
      cases hscan : ballocScan sb s.vol b BPB 0 with
      | some c =>
        obtain ⟨hc, hlt, hbit⟩ := ballocScan_eq_some hscan
        rw [Nat.zero_add] at hc
        rw [bitmap_eq_bit _ hb hc] at hbit
        refine .inl ⟨b + c, hlt, hbit, ?_⟩
        have hfull := hroom _ hlt hbit
        rw [BBLOCK_add hb hc] at hfull
        have hfull' : ¬ LogFull sb (insert (BBLOCK sb b) l) := fun hf =>
          hfull (hf.mono (Finset.subset_insert ..))
        have hlog := logWrite_open (s := { s with vol := s.vol.setBit sb (b + c) true }) h
          (fun hf => hfull' (hf.mono (Finset.subset_insert ..))) (BBLOCK sb b)
        have hzero : bzero sb (b + c) { s with
            vol := (s.vol.setBit sb (b + c) true).logged (BBLOCK sb b)
            op := some (insert (BBLOCK sb b) l) } = .ok () (s.claim sb l (b + c)) := by
          rw [bzero, bind_setVol, logWrite_open rfl hfull', St.claim, BBLOCK_add hb hc]
        simp only
        rw [bind_setVol, bind_ok hlog, bind_ok hzero]
        rfl
      | none =>
        -- All blocks of this bitmap block are in use.
        have hused : ∀ c, b ≤ c → c < b + BPB → c < sb.size → s.vol.bit sb c = true := by
          intro c hle hlt hsize
          have hset := ballocScan_eq_none hscan (c - b) (Nat.zero_le _) (by omega) (by omega)
          rwa [bitmap_eq_bit _ hb (by omega), Nat.add_sub_cancel' hle] at hset
        have hnext := ih (b := b + BPB) (Nat.dvd_add hb (Nat.dvd_refl _))
          (by rw [Nat.add_mul] at hn; omega)
        refine hnext.imp_right fun hnone => ⟨hnone.1, fun c hle hsize => ?_⟩
        rcases Nat.lt_or_ge c (b + BPB) with hlt | hge
        · exact hused c hle hlt hsize
        · exact hnone.2 c hge hsize
    · refine .inr ⟨rfl, fun c hle hlt => ?_⟩
      omega

theorem balloc_open (h : s.op = some l) (hroom : BallocRoom sb s.vol l) :
    (∃ r, r < sb.size ∧ s.vol.bit sb r = false ∧ balloc sb s = .ok r (s.claim sb l r)) ∨
      balloc sb s = .ok 0 s ∧ s.vol.Full sb := by
  have hn : sb.size ≤ 0 + sb.size * BPB := by
    rw [Nat.zero_add]
    exact Nat.le_mul_of_pos_right _ (by decide)
  have hfrom := ballocFrom_open h hroom (Nat.dvd_zero BPB) hn
  exact hfrom.imp_right fun hnone => ⟨hnone.1, fun b hb => hnone.2 b (Nat.zero_le _) hb⟩

theorem logs_claim (h : s.op = some l) {r : Nat} (ha : Alloc sb r s.vol (s.claim sb l r).vol) :
    Logs (fun b => b = r ∨ b = BBLOCK sb r) s (s.claim sb l r) := by
  refine ⟨⟨l, _, h, rfl, fun b hb => ?_⟩, fun b hb => ha.clean b (.inr hb)⟩
  rcases Finset.mem_insert.1 hb with rfl | hb
  · exact .inr (.inl rfl)
  · rcases Finset.mem_insert.1 hb with rfl | hb
    · exact .inr (.inr rfl)
    · exact .inl hb

/-! ## `bmap` -/

namespace Volume

/-- The number of blocks that inode `i` still needs to have its blocks `lo` to `hi`. -/
def lacking (sb : Superblock) (v : Volume) (i lo hi : Nat) : Nat :=
  ((Finset.Icc lo hi).filter fun bn => v.held sb (i, slotOf bn) = 0).card +
    if NDIRECT ≤ hi ∧ v.held sb (i, NDIRECT) = 0 then 1 else 0

theorem lacking_self (v : Volume) (i bn : Nat) :
    v.lacking sb i bn bn = (if v.held sb (i, slotOf bn) = 0 then 1 else 0) +
      if NDIRECT ≤ bn ∧ v.held sb (i, NDIRECT) = 0 then 1 else 0 := by
  rw [lacking, Finset.Icc_self, Finset.filter_singleton]
  split <;> rfl

end Volume

/-- The blocks that `bmap` logs to give inode `i` its block `bn`: the new block and its bit, and the
indirect block, which may be new too. -/
def MapLog (sb : Superblock) (i bn : Nat) (v w : Volume) (b : Nat) : Prop :=
  v.held sb (i, slotOf bn) = 0 ∧ (w.held sb (i, slotOf bn) ≠ 0 ∧
        (b = w.held sb (i, slotOf bn) ∨ b = BBLOCK sb (w.held sb (i, slotOf bn))) ∨
      NDIRECT ≤ bn ∧ w.held sb (i, NDIRECT) ≠ 0 ∧ (b = w.held sb (i, NDIRECT) ∨
        v.held sb (i, NDIRECT) = 0 ∧ b = BBLOCK sb (w.held sb (i, NDIRECT))))

/-- Slots that are filled stay, so what is logged between two moments is logged over a longer
time. -/
theorem MapLog.widen {i bn b : Nat} {v v' w w' : Volume} (h : MapLog sb i bn v' w b)
    (hv : ∀ x, v.held sb x ≠ 0 → v'.held sb x = v.held sb x)
    (hw : ∀ x, w.held sb x ≠ 0 → w'.held sb x = w.held sb x) : MapLog sb i bn v w' b := by
  have hzero : ∀ x, v'.held sb x = 0 → v.held sb x = 0 := by
    intro x hx
    by_contra hne
    exact hne (hv x hne ▸ hx)
  refine ⟨hzero _ h.1, h.2.imp ?_ ?_⟩
  · rintro ⟨hne, hb⟩
    rw [hw _ hne]
    exact ⟨hne, hb⟩
  · rintro ⟨hle, hne, hb⟩
    rw [hw _ hne]
    exact ⟨hle, hne, hb.imp_right (And.imp_left (hzero _))⟩

/-- What `bmap` leaves in slot `k` of the inode itself: a block that was there, or a new one. -/
structure AddrMapped (sb : Superblock) (q : Ip) (k r : Nat) (s t : St) : Prop where
  ext : Ext sb q s t
  held : (t.eff sb q).held sb = update ((s.eff sb q).held sb) ((s.itable q).inum, k) r
  logs : Logs (fun b => (s.eff sb q).held sb ((s.itable q).inum, k) = 0 ∧
    (b = r ∨ b = BBLOCK sb r)) s t

theorem bmapAddr_open (h : s.op = some l) (hv : (s.eff sb q).Intact sb)
    (hd : (s.itable q).copy.type ≠ .free) {k : Nat} (hk : k ≤ NDIRECT)
    (hroom : ∀ r t l', r ≠ 0 → AddrMapped sb q k r s t → t.op = some l' → ¬ LogFull sb l') :
    wp (bmapAddr sb q k) Never (fun r t => AddrMapped sb q k r s t ∧
      (r ≠ 0 → s.vol.spare sb = t.vol.spare sb +
        if (s.eff sb q).held sb ((s.itable q).inum, k) = 0 then 1 else 0) ∧
      (r ≠ 0 → (s.eff sb q).held sb ((s.itable q).inum, k) = 0 → t.vol.data r = .zero) ∧
      (r = 0 → (s.eff sb q).held sb ((s.itable q).inum, k) = 0 ∧ s.vol.Full sb ∧ t = s)) s := by
  have hheld : (s.eff sb q).held sb ((s.itable q).inum, k) = (s.itable q).copy.addrs k := by
    rw [held_addr _ _ hk, s.dip_eff]
  rw [hheld]
  unfold bmapAddr
  rw [wp_bind, wp_gets]
  split
  · rename_i hzero
    have hself : update ((s.eff sb q).held sb) ((s.itable q).inum, k) 0 = (s.eff sb q).held sb := by
      rw [← hzero, ← hheld, update_eq_self]
    have hnew : ∀ r, r < sb.size → s.vol.bit sb r = false → AddrMapped sb q k r s
        (s.put q (s.claim sb l r).vol (s.claim sb l r).op { (s.itable q).copy with
          addrs := update (s.itable q).copy.addrs k r }) := by
      intro r hlt hbit
      have ha : Alloc sb r s.vol (s.claim sb l r).vol := alloc_of_unused hlt hbit
      have hgain := ha.addr hv hd hk hzero
      refine ⟨⟨⟨_, _, _, rfl⟩, ?_, ?_⟩, ?_, ?_⟩
      · rw [St.eff_put]
        exact hgain.intact hv
      · rw [St.eff_put]
        exact hgain.grown hv
      · rw [St.eff_put]
        exact hgain.held
      · refine ((logs_claim h ha).mono fun b hb => ?_).frame rfl rfl rfl
        exact ⟨hheld.trans hzero, hb⟩
    have hballoc : BallocRoom sb s.vol l := fun r hlt hbit =>
      hroom r _ _ (hv.fresh hlt hbit).1 (hnew r hlt hbit) rfl
    rcases balloc_open h hballoc with ⟨r, hlt, hbit, hrun⟩ | ⟨hrun, hfull⟩
    · have ha : Alloc sb r s.vol (s.claim sb l r).vol := alloc_of_unused hlt hbit
      have hr := (hv.fresh hlt hbit).1
      rw [wp_bind, wp_of_eq hrun, if_neg hr]
      simp only [wp_bind, setCopy, setInode, wp_modify, wp_pure]
      refine ⟨hnew r hlt hbit, fun _ => ha.spare_eq, fun _ _ => ?_, fun h0 => absurd h0 hr⟩
      rw [ha.data, update_self]
    · rw [wp_bind, wp_of_eq hrun, if_pos rfl, wp_pure]
      exact ⟨⟨.refl hv, hself.symm, .refl h⟩, fun h0 => absurd rfl h0, fun h0 => absurd rfl h0,
        fun _ => ⟨hzero, hfull, rfl⟩⟩
  · rename_i hne
    rw [wp_pure, ← hheld]
    rw [← hheld] at hne
    exact ⟨⟨.refl hv, (update_eq_self ..).symm, .refl h⟩, fun _ => rfl,
      fun _ h0 => absurd h0 hne, fun h0 => absurd h0 hne⟩

/-- What `bmap` leaves: block `bn` in its slot, or no free block. -/
structure Mapped (sb : Superblock) (q : Ip) (bn r : Nat) (s t : St) : Prop where
  ext : Ext sb q s t
  logs : Logs (MapLog sb (s.itable q).inum bn (s.eff sb q) (t.eff sb q)) s t
  kept : ∀ x, x ≠ ((s.itable q).inum, slotOf bn) →
    (x = ((s.itable q).inum, NDIRECT) → bn < NDIRECT) →
      (t.eff sb q).held sb x = (s.eff sb q).held sb x
  found : r ≠ 0 → r = (t.eff sb q).held sb ((s.itable q).inum, slotOf bn) ∧
    s.vol.spare sb = t.vol.spare sb + (s.eff sb q).lacking sb (s.itable q).inum bn bn
  zero : (s.eff sb q).held sb ((s.itable q).inum, slotOf bn) = 0 →
    (t.eff sb q).held sb ((s.itable q).inum, slotOf bn) ≠ 0 →
      t.vol.data ((t.eff sb q).held sb ((s.itable q).inum, slotOf bn)) = .zero
  full : r = 0 → t.vol.Full sb ∧ s.vol.spare sb < (s.eff sb q).lacking sb (s.itable q).inum bn bn

/-- Whatever `bmap` has logged from `s` on, there is room for one block more. -/
def MapRoom (sb : Superblock) (q : Ip) (bn : Nat) (s : St) : Prop :=
  ∀ t l, Ext sb q s t → Logs (MapLog sb (s.itable q).inum bn (s.eff sb q) (t.eff sb q)) s t →
    t.op = some l → ¬ LogFull sb l

theorem slotOf_of_lt {bn : Nat} (h : bn < NDIRECT) : slotOf bn = bn :=
  if_pos h

theorem slotOf_of_ge {bn : Nat} (h : ¬ bn < NDIRECT) :
    slotOf bn = NDIRECT + 1 + (bn - NDIRECT) := by
  rw [slotOf, if_neg h]
  omega

theorem held_entry (sb : Superblock) {bn : Nat} (hge : ¬ bn < NDIRECT) (hlt : bn < MAXFILE)
    (hind : (s.itable q).copy.addrs NDIRECT ≠ 0) :
    (s.eff sb q).held sb ((s.itable q).inum, slotOf bn) =
      (s.vol.data ((s.itable q).copy.addrs NDIRECT)).uint (bn - NDIRECT) := by
  rw [slotOf_of_ge hge, held_eff,
    Dinode.slot_of_lt (by omega) (by simp only [NSLOT, MAXFILE] at hlt ⊢; omega) hind]
  congr 1
  omega

/-- The state after block `r` has been put into the entry of the indirect block for block `bn`. -/
def St.enter (s : St) (sb : Superblock) (q : Ip) (l : Finset Nat) (bn r : Nat) : St :=
  { s.claim sb l r with
    op := some (insert ((s.itable q).copy.addrs NDIRECT) (insert r (insert (BBLOCK sb r) l)))
    vol := ((s.claim sb l r).vol.setData ((s.itable q).copy.addrs NDIRECT)
      (((s.claim sb l r).vol.data ((s.itable q).copy.addrs NDIRECT)).setUint
        (bn - NDIRECT) r)).logged ((s.itable q).copy.addrs NDIRECT) }

theorem enter_spec {bn r : Nat} (h : s.op = some l) (hv : (s.eff sb q).Intact sb)
    (hd : (s.itable q).copy.type ≠ .free) (hge : ¬ bn < NDIRECT) (hlt : bn < MAXFILE)
    (hind : (s.itable q).copy.addrs NDIRECT ≠ 0)
    (hzero : (s.vol.data ((s.itable q).copy.addrs NDIRECT)).uint (bn - NDIRECT) = 0)
    (hr : r < sb.size) (hbit : s.vol.bit sb r = false) :
    Ext sb q s (s.enter sb q l bn r) ∧
      ((s.enter sb q l bn r).eff sb q).held sb =
        update ((s.eff sb q).held sb) ((s.itable q).inum, slotOf bn) r ∧
      Logs (MapLog sb (s.itable q).inum bn (s.eff sb q) ((s.enter sb q l bn r).eff sb q)) s
        (s.enter sb q l bn r) := by
  have ha : Alloc sb r s.vol (s.claim sb l r).vol := alloc_of_unused hr hbit
  have hne := (hv.fresh hr hbit).1
  have hgain := ha.entry hv hd hind (by simp only [MAXFILE] at hlt; omega) hzero
  have hext : Ext sb q s (s.enter sb q l bn r) :=
    ⟨⟨_, _, _, (s.put_self q ..).symm⟩, hgain.intact hv, hgain.grown hv⟩
  have hheld := hgain.held
  rw [← slotOf_of_ge hge] at hheld
  refine ⟨hext, hheld, ⟨l, _, h, rfl, fun b hb => ?_⟩, fun b hb => hgain.clean b (.inr hb)⟩
  have hslot := (congrFun hheld ((s.itable q).inum, slotOf bn)).symm
  rw [update_self] at hslot
  have hold : (s.eff sb q).held sb ((s.itable q).inum, slotOf bn) = 0 :=
    (held_entry sb hge hlt hind).trans hzero
  have hindheld : (s.eff sb q).held sb ((s.itable q).inum, NDIRECT) =
      (s.itable q).copy.addrs NDIRECT := by
    rw [held_addr _ _ le_rfl, s.dip_eff]
  have hsame := hext.grown.held _ (hindheld.symm ▸ hind)
  rw [hindheld] at hsame
  rcases Finset.mem_insert.1 hb with rfl | hb
  · exact .inr ⟨hold, .inr ⟨Nat.le_of_not_lt hge, hsame ▸ hind, .inl hsame.symm⟩⟩
  rcases Finset.mem_insert.1 hb with rfl | hb
  · exact .inr ⟨hold, .inl ⟨hslot ▸ hne, .inl hslot⟩⟩
  rcases Finset.mem_insert.1 hb with rfl | hb
  · exact .inr ⟨hold, .inl ⟨hslot ▸ hne, .inr (congrArg (BBLOCK sb) hslot)⟩⟩
  · exact .inl hb

theorem bmap_entry_open {bn : Nat} (h : s.op = some l) (hv : (s.eff sb q).Intact sb)
    (hd : (s.itable q).copy.type ≠ .free) (hge : ¬ bn < NDIRECT) (hlt : bn < MAXFILE)
    (hind : (s.itable q).copy.addrs NDIRECT ≠ 0) (hroom : MapRoom sb q bn s) :
    wp (do
      let a ← gets (·.vol.data ((s.itable q).copy.addrs NDIRECT))
      if a.uint (bn - NDIRECT) = 0 then do
        let addr ← balloc sb
        if addr = 0 then
          pure 0
        else do
          setVol fun v => v.setData ((s.itable q).copy.addrs NDIRECT)
            ((v.data ((s.itable q).copy.addrs NDIRECT)).setUint (bn - NDIRECT) addr)
          logWrite sb ((s.itable q).copy.addrs NDIRECT)
          pure addr
      else
        pure (a.uint (bn - NDIRECT))) Never (Mapped sb q bn · s ·) s := by
  have hentry := held_entry sb hge hlt hind
  have hindheld : (s.eff sb q).held sb ((s.itable q).inum, NDIRECT) =
      (s.itable q).copy.addrs NDIRECT := by
    rw [held_addr _ _ le_rfl, s.dip_eff]
  have hlack : (s.eff sb q).lacking sb (s.itable q).inum bn bn =
      if (s.eff sb q).held sb ((s.itable q).inum, slotOf bn) = 0 then 1 else 0 := by
    rw [lacking_self, hindheld]
    simp [hind]
  rw [wp_bind, wp_gets]
  split
  · rename_i hzero
    rw [hentry, if_pos hzero] at hlack
    have hballoc : BallocRoom sb s.vol l := by
      intro r hr hbit hfull
      obtain ⟨hext, -, hlogs⟩ := enter_spec h hv hd hge hlt hind hzero hr hbit
      exact hroom _ _ hext hlogs rfl (hfull.mono (Finset.subset_insert ..))
    rcases balloc_open h hballoc with ⟨r, hr, hbit, hrun⟩ | ⟨hrun, hfull⟩
    · have ha : Alloc sb r s.vol (s.claim sb l r).vol := alloc_of_unused hr hbit
      have hne := (hv.fresh hr hbit).1
      obtain ⟨hext, hheld, hlogs⟩ := enter_spec h hv hd hge hlt hind hzero hr hbit
      rw [wp_bind, wp_of_eq hrun, if_neg hne]
      simp only [wp_bind, setVol, wp_modify]
      rw [wp_of_eq (logWrite_open rfl (hballoc r hr hbit) _), wp_pure]
      have hslot := (congrFun hheld ((s.itable q).inum, slotOf bn)).symm
      rw [update_self] at hslot
      have hindr : r ≠ (s.itable q).copy.addrs NDIRECT := by
        rw [← hindheld]
        exact ((hv.fresh hr hbit).2 _).symm
      refine ⟨hext, hlogs, fun x hx _ => ?_, fun _ => ⟨hslot, ?_⟩, fun _ _ => ?_,
        fun h0 => absurd h0 hne⟩
      · exact (congrFun hheld x).trans (update_of_ne hx _ _)
      · rw [hlack]
        exact ha.spare_eq
      · refine (congrArg _ hslot.symm).trans ((update_of_ne hindr _ _).trans ?_)
        rw [ha.data, update_self]
    · rw [wp_bind, wp_of_eq hrun, if_pos rfl, wp_pure]
      refine ⟨.refl hv, .refl h, fun _ _ _ => rfl, fun h0 => absurd rfl h0,
        fun h0 h1 => absurd h0 h1, fun _ => ⟨hfull, ?_⟩⟩
      rw [hlack, spare_eq_zero hfull]
      exact Nat.one_pos
  · rename_i hne
    rw [wp_pure, ← hentry]
    rw [← hentry] at hne
    rw [if_neg hne] at hlack
    exact ⟨.refl hv, .refl h, fun _ _ _ => rfl, fun _ => ⟨rfl, by rw [hlack, Nat.add_zero]⟩,
      fun h0 => absurd h0 hne, fun h0 => absurd h0 hne⟩

namespace AddrMapped

variable {bn ind r : Nat}

theorem mapLog_direct (h : AddrMapped sb q bn r s t) (hlt : bn < NDIRECT) (hr : r ≠ 0) :
    Logs (MapLog sb (s.itable q).inum bn (s.eff sb q) (t.eff sb q)) s t := by
  refine h.logs.mono ?_
  rintro b ⟨hzero, hb⟩
  rw [← slotOf_of_lt hlt] at hzero
  refine ⟨hzero, .inl ?_⟩
  rw [h.held, slotOf_of_lt hlt, update_self]
  exact ⟨hr, hb⟩

theorem mapLog_indirect (h : AddrMapped sb q NDIRECT ind s t) (hge : ¬ bn < NDIRECT)
    (hind : ind ≠ 0) : Logs (MapLog sb (s.itable q).inum bn (s.eff sb q) (t.eff sb q)) s t := by
  refine h.logs.mono ?_
  rintro b ⟨hzero, hb⟩
  -- Without an indirect block there is no entry either.
  have hempty : (s.eff sb q).held sb ((s.itable q).inum, slotOf bn) = 0 := by
    rw [held_addr _ _ le_rfl, s.dip_eff] at hzero
    rw [held_eff, Dinode.slot_of_zero (by rw [slotOf_of_ge hge]; omega) hzero]
  refine ⟨hempty, .inr ⟨Nat.le_of_not_lt hge, ?_⟩⟩
  rw [h.held, update_self]
  exact ⟨hind, hb.imp_right fun hb => ⟨hzero, hb⟩⟩

/-- The indirect block is found or made before the entry is. -/
theorem then_entry (h : AddrMapped sb q NDIRECT ind s t) (hge : ¬ bn < NDIRECT) (hind : ind ≠ 0)
    (hext : Ext sb q t u)
    (hlogs : Logs (MapLog sb (t.itable q).inum bn (t.eff sb q) (u.eff sb q)) t u) :
    Logs (MapLog sb (s.itable q).inum bn (s.eff sb q) (u.eff sb q)) s u := by
  rw [h.ext.inum] at hlogs
  refine ((h.mapLog_indirect hge hind).mono fun b hb => ?_).trans (hlogs.mono fun b hb => ?_)
  · exact hb.widen (fun _ _ => rfl) hext.grown.held
  · exact hb.widen h.ext.grown.held fun _ _ => rfl

theorem mapped (ha : AddrMapped sb q NDIRECT ind s t) (hge : ¬ bn < NDIRECT) (hind : ind ≠ 0)
    (hspare : s.vol.spare sb = t.vol.spare sb +
      if (s.eff sb q).held sb ((s.itable q).inum, NDIRECT) = 0 then 1 else 0)
    (h : Mapped sb q bn r t u) : Mapped sb q bn r s u := by
  have hindt : (t.eff sb q).held sb ((s.itable q).inum, NDIRECT) = ind := by
    rw [ha.held, update_self]
  have hslott : (t.eff sb q).held sb ((s.itable q).inum, slotOf bn) =
      (s.eff sb q).held sb ((s.itable q).inum, slotOf bn) := by
    rw [ha.held, update_of_ne (by simp [slotOf_ne])]
  have hlack : (s.eff sb q).lacking sb (s.itable q).inum bn bn =
      (t.eff sb q).lacking sb (s.itable q).inum bn bn +
        if (s.eff sb q).held sb ((s.itable q).inum, NDIRECT) = 0 then 1 else 0 := by
    rw [lacking_self, lacking_self, hslott, hindt]
    simp [hind, Nat.le_of_not_lt hge]
  have hfound := h.found
  have hfull := h.full
  have hkept := h.kept
  have hzero := h.zero
  rw [ha.ext.inum] at hfound hfull hkept hzero
  refine ⟨ha.ext.trans h.ext, ha.then_entry hge hind h.ext h.logs, fun x hx hxind => ?_,
    fun hr => ?_, fun h0 h1 => hzero (hslott.trans h0) h1, fun hr => ?_⟩
  · have hne : x ≠ ((s.itable q).inum, NDIRECT) := fun heq => hge (hxind heq)
    rw [hkept x hx hxind, ha.held, update_of_ne hne]
  · refine ⟨(hfound hr).1, ?_⟩
    have := (hfound hr).2
    omega
  · refine ⟨(hfull hr).1, ?_⟩
    have := (hfull hr).2
    omega

end AddrMapped

theorem bmap_open {bn : Nat} (h : s.op = some l) (hv : (s.eff sb q).Intact sb)
    (hd : (s.itable q).copy.type ≠ .free) (hbn : bn < MAXFILE) (hroom : MapRoom sb q bn s) :
    wp (bmap sb q bn) Never (Mapped sb q bn · s ·) s := by
  unfold bmap
  split
  · rename_i hlt
    have haddr := bmapAddr_open h hv hd (Nat.le_of_lt hlt) fun r t l' hr ha hop =>
      hroom t l' ha.ext (ha.mapLog_direct hlt hr) hop
    refine wp_post haddr ?_
    rintro r t ⟨ha, hspare, hnew, hfull⟩
    have hslot : (t.eff sb q).held sb ((s.itable q).inum, slotOf bn) = r := by
      rw [ha.held, slotOf_of_lt hlt, update_self]
    have hlack : (s.eff sb q).lacking sb (s.itable q).inum bn bn =
        if (s.eff sb q).held sb ((s.itable q).inum, bn) = 0 then 1 else 0 := by
      rw [lacking_self, slotOf_of_lt hlt]
      simp only [Nat.not_le.2 hlt, false_and, if_false, Nat.add_zero]
    refine ⟨ha.ext, ?_, fun x hx _ => ?_, fun hr => ⟨hslot.symm, hlack ▸ hspare hr⟩,
      fun h0 h1 => ?_, fun hr => ?_⟩
    · by_cases hr : r = 0
      · obtain ⟨-, -, rfl⟩ := hfull hr
        exact .refl h
      · exact ha.mapLog_direct hlt hr
    · rw [slotOf_of_lt hlt] at hx
      rw [ha.held, update_of_ne hx]
    · rw [hslot] at h1 ⊢
      rw [slotOf_of_lt hlt] at h0
      exact hnew h1 h0
    · obtain ⟨hzero, hfull, rfl⟩ := hfull hr
      rw [hlack, if_pos hzero, spare_eq_zero hfull]
      exact ⟨hfull, Nat.one_pos⟩
  · rename_i hge
    rw [if_pos (by simp only [MAXFILE] at hbn; omega)]
    have haddr := bmapAddr_open h hv hd le_rfl fun ind t l' hind ha hop =>
      hroom t l' ha.ext (ha.mapLog_indirect hge hind) hop
    refine wp_seq haddr ?_
    rintro ind t ⟨ha, hspare, -, hfull⟩
    split
    · rename_i hzero
      obtain ⟨hnone, hfull, rfl⟩ := hfull hzero
      refine ⟨ha.ext, .refl h, fun _ _ _ => rfl, fun hr => absurd rfl hr,
        fun h0 h1 => absurd h0 h1, fun _ => ⟨hfull, ?_⟩⟩
      rw [lacking_self, spare_eq_zero hfull]
      simp only [Nat.le_of_not_lt hge, hnone, and_self, if_true]
      exact Nat.succ_pos _
    · rename_i hind
      obtain ⟨m, hm⟩ := ha.logs.opened
      have htype : (t.itable q).copy.type ≠ .free := by rwa [ha.ext.type_eq]
      have heq : (t.itable q).copy.addrs NDIRECT = ind := by
        have hself := congrFun ha.held ((s.itable q).inum, NDIRECT)
        rw [update_self, ← ha.ext.inum, held_addr _ _ le_rfl, t.dip_eff] at hself
        exact hself
      have hentry := bmap_entry_open hm ha.ext.intact htype hge hbn (by rwa [heq])
        fun u l' hext hlogs => hroom u l' (ha.ext.trans hext) (ha.then_entry hge hind hext hlogs)
      rw [heq] at hentry
      exact wp_post hentry fun r u hu => ha.mapped hge hind (hspare hind) hu

end Xv6.Fs
