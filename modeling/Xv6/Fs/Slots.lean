import Xv6.Fs.Volume
import Xv6.Lib.Holding

/-!
# Slots — which inode holds which block

The slots of an inode are `addrs[0 .. NDIRECT]` and the entries of its indirect block.  A volume is
intact when the bitmap is exact for the slots of all inodes, free inodes hold nothing, files have
no holes, and the blocks that the file system itself reads are as they were logged.
-/

namespace Xv6.Fs

open Lib
open Function (update update_apply update_of_ne update_self)

/-! ## Reading back what was stored -/

namespace Block

@[simp]
theorem uint_zero (j : Nat) : zero.uint j = 0 := by
  simp [zero, uint]

theorem uint_setUint (a : Block) {v : Nat} (hv : v < 2 ^ 32) (j l : Nat) :
    (a.setUint j v).uint l = if l = j then v else a.uint l := by
  have hdiv : 4 * l / 4 = l ∧ (4 * l + 1) / 4 = l ∧ (4 * l + 2) / 4 = l ∧ (4 * l + 3) / 4 = l := by
    omega
  have hmod : 4 * l % 4 = 0 ∧ (4 * l + 1) % 4 = 1 ∧ (4 * l + 2) % 4 = 2 ∧ (4 * l + 3) % 4 = 3 := by
    omega
  by_cases hl : l = j
  · subst hl
    simp only [uint, setUint, hdiv, hmod, if_true, UInt8.toNat_ofNat']
    omega
  · simp only [uint, setUint, hdiv, if_neg hl]

end Block

/-- Records that lie `n` to a block, from block `start` on: only the `i`-th changes. -/
theorem update_div_mod {α : Type} (f : Nat → Nat → α) (n start i j : Nat) (x : α) :
    update f (i / n + start) (update (f (i / n + start)) (i % n) x) (j / n + start) (j % n) =
      if j = i then x else f (j / n + start) (j % n) := by
  have hi := Nat.div_add_mod i n
  have hj := Nat.div_add_mod j n
  by_cases hdiv : j / n = i / n
  · rw [hdiv, update_self, update_apply]
    grind
  · rw [update_of_ne (by omega)]
    grind

namespace Volume

variable {sb : Superblock}

theorem dip_setDip (v : Volume) (i j : Nat) (d : Dinode) :
    (v.setDip sb i d).dip sb j = if j = i then d else v.dip sb j :=
  update_div_mod v.dinode IPB sb.inodestart i j d

@[simp]
theorem setDip_dip (v : Volume) (i : Nat) : v.setDip sb i (v.dip sb i) = v := by
  simp [setDip, dip]

theorem bit_setBit (v : Volume) (b c : Nat) (x : Bool) :
    (v.setBit sb b x).bit sb c = if c = b then x else v.bit sb c :=
  update_div_mod v.bitmap BPB sb.bmapstart b c x

@[simp]
theorem dip_setBit (v : Volume) (b : Nat) (x : Bool) : (v.setBit sb b x).dip sb = v.dip sb := rfl

@[simp]
theorem dip_setData (v : Volume) (b : Nat) (a : Block) : (v.setData b a).dip sb = v.dip sb := rfl

@[simp]
theorem dip_logged (v : Volume) (b : Nat) : (v.logged b).dip sb = v.dip sb := rfl

@[simp]
theorem bit_setDip (v : Volume) (i : Nat) (d : Dinode) : (v.setDip sb i d).bit sb = v.bit sb := rfl

@[simp]
theorem bit_setData (v : Volume) (b : Nat) (a : Block) : (v.setData b a).bit sb = v.bit sb := rfl

@[simp]
theorem bit_logged (v : Volume) (b : Nat) : (v.logged b).bit sb = v.bit sb := rfl

@[simp]
theorem data_setDip (v : Volume) (i : Nat) (d : Dinode) : (v.setDip sb i d).data = v.data := rfl

@[simp]
theorem data_setBit (v : Volume) (b : Nat) (x : Bool) : (v.setBit sb b x).data = v.data := rfl

@[simp]
theorem data_logged (v : Volume) (b : Nat) : (v.logged b).data = v.data := rfl

/-! ## Slots -/

end Volume

theorem slotOf_ne (bn : Nat) : slotOf bn ≠ NDIRECT := by
  unfold slotOf
  split <;> omega

theorem slotOf_inj {m n : Nat} (h : slotOf m = slotOf n) : m = n := by
  unfold slotOf at h
  split at h <;> split at h <;> omega

namespace Dinode

variable {d : Dinode} {data : Nat → Block} {k : Nat}

theorem slot_of_le (h : k ≤ NDIRECT) : d.slot data k = d.addrs k :=
  if_pos h

theorem slot_of_lt (h : NDIRECT < k) (hk : k < NSLOT) (hind : d.addrs NDIRECT ≠ 0) :
    d.slot data k = (data (d.addrs NDIRECT)).uint (k - (NDIRECT + 1)) := by
  rw [slot, if_neg (by omega), if_pos ⟨hk, hind⟩]

theorem slot_of_zero (h : NDIRECT < k) (hind : d.addrs NDIRECT = 0) : d.slot data k = 0 := by
  rw [slot, if_neg (by omega), if_neg (by simp [hind])]

theorem slot_of_ge (h : NSLOT ≤ k) : d.slot data k = 0 := by
  simp only [NSLOT] at h
  rw [slot, if_neg (by omega), if_neg (by simp only [NSLOT]; omega)]

theorem slot_congr {data' : Nat → Block}
    (h : d.addrs NDIRECT ≠ 0 → data' (d.addrs NDIRECT) = data (d.addrs NDIRECT)) (k : Nat) :
    d.slot data' k = d.slot data k := by
  unfold slot
  split
  · rfl
  · split
    · rename_i hk
      rw [h hk.2]
    · rfl

end Dinode

namespace Volume

variable {sb : Superblock}

/-- The block in slot `x.2` of inode `x.1`. -/
def held (sb : Superblock) (v : Volume) (x : Nat × Nat) : Nat :=
  (v.dip sb x.1).slot v.data x.2

/-- The data block is as it was last logged. -/
def CleanAt (v : Volume) (b : Nat) : Prop :=
  v.data b = v.disk b

theorem CleanAt.logged {v : Volume} {b c : Nat} (h : v.CleanAt b ∨ b = c) :
    (v.logged c).CleanAt b := by
  by_cases hbc : b = c
  · subst hbc
    simp [CleanAt, Volume.logged]
  · simpa [CleanAt, Volume.logged, update_of_ne hbc, hbc] using h

theorem CleanAt.setData {v : Volume} {b c : Nat} {a : Block} (h : v.CleanAt b) (hbc : b ≠ c) :
    (v.setData c a).CleanAt b := by
  simpa [CleanAt, Volume.setData, update_of_ne hbc] using h

structure Intact (sb : Superblock) (v : Volume) : Prop where
  holding : Holding sb.nmeta sb.size (v.bit sb) (v.held sb)
  free : ∀ i, (v.dip sb i).type = .free → ∀ k, k ≤ NDIRECT → (v.dip sb i).addrs k = 0
  mapped : ∀ i, (v.dip sb i).type ≠ .free → ∀ bn, bn * BSIZE < (v.dip sb i).size →
    v.held sb (i, slotOf bn) ≠ 0
  clean : ∀ i k, v.held sb (i, k) ≠ 0 → k = NDIRECT ∨ (v.dip sb i).type = .dir →
    v.CleanAt (v.held sb (i, k))

theorem nmeta_pos (sb : Superblock) : 0 < sb.nmeta := by
  have h := sb.nblocks_lt
  unfold Superblock.nmeta
  omega

variable {u v w : Volume} {i k r : Nat}

theorem held_addr (v : Volume) (i : Nat) {k : Nat} (hk : k ≤ NDIRECT) :
    v.held sb (i, k) = (v.dip sb i).addrs k :=
  Dinode.slot_of_le hk

theorem held_congr (hdip : w.dip sb = v.dip sb) (hdata : ∀ i, v.held sb (i, NDIRECT) ≠ 0 →
      w.data (v.held sb (i, NDIRECT)) = v.data (v.held sb (i, NDIRECT))) :
    w.held sb = v.held sb := by
  funext x
  unfold held
  rw [hdip]
  refine Dinode.slot_congr ?_ x.2
  rw [← held_addr v x.1 (Nat.le_refl _)]
  exact hdata x.1

namespace Intact

/-- A block whose bit is clear can be taken: it is a data block that no slot holds. -/
theorem fresh (h : v.Intact sb) (hlt : r < sb.size) (hbit : v.bit sb r = false) :
    r ≠ 0 ∧ ∀ x, v.held sb x ≠ r := by
  rcases h.holding.of_unused hlt hbit with ⟨hlo, hfree⟩
  have hpos := nmeta_pos sb
  have hr : r ≠ 0 := by omega
  exact ⟨hr, fun x hx => hr (hfree x hx)⟩

theorem logged (h : v.Intact sb) (b : Nat) : (v.logged b).Intact sb :=
  ⟨h.holding, h.free, h.mapped, fun i k hne hkind => .logged (.inl (h.clean i k hne hkind))⟩

end Intact

/-! ## Taking a block -/

/-- Inode `i` has taken block `r`, which was free, into its empty slot `k`. -/
structure Gain (sb : Superblock) (i k r : Nat) (v w : Volume) : Prop where
  lt : r < sb.size
  unused : v.bit sb r = false
  empty : v.held sb (i, k) = 0
  typed : (v.dip sb i).type ≠ .free
  held : w.held sb = update (v.held sb) (i, k) r
  bit : w.bit sb = update (v.bit sb) r true
  dip : ∀ j, j ≠ i → w.dip sb j = v.dip sb j
  same : ∃ addrs, w.dip sb i = { v.dip sb i with addrs := addrs }
  data : ∀ b, b ≠ r → b ≠ v.held sb (i, NDIRECT) → w.data b = v.data b
  clean : ∀ b, b = r ∨ v.CleanAt b → w.CleanAt b

theorem Gain.type_eq (g : Gain sb i k r v w) (j : Nat) :
    (w.dip sb j).type = (v.dip sb j).type ∧ (w.dip sb j).size = (v.dip sb j).size := by
  by_cases hj : j = i
  · subst hj
    rcases g.same with ⟨addrs, hsame⟩
    rw [hsame]
    exact ⟨rfl, rfl⟩
  · rw [g.dip j hj]
    exact ⟨rfl, rfl⟩

theorem Gain.intact (g : Gain sb i k r v w) (h : v.Intact sb) : w.Intact sb := by
  have hr := (h.fresh g.lt g.unused).1
  have hheld : ∀ x, w.held sb x = if x = (i, k) then r else v.held sb x := by
    intro x
    rw [g.held, update_apply]
  refine ⟨?_, ?_, ?_, ?_⟩
  · rw [g.held, g.bit]
    exact h.holding.gain (nmeta_pos sb) g.empty g.lt g.unused
  · intro j hj
    have hji : j ≠ i := by
      rintro rfl
      exact g.typed ((g.type_eq j).1 ▸ hj)
    rw [g.dip j hji] at hj ⊢
    exact h.free j hj
  · intro j hj bn hbn
    rw [(g.type_eq j).1] at hj
    rw [(g.type_eq j).2] at hbn
    rw [hheld]
    split
    · exact hr
    · exact h.mapped j hj bn hbn
  · intro j l hne hkind
    rw [(g.type_eq j).1] at hkind
    rw [hheld] at hne ⊢
    split
    · exact g.clean r (.inl rfl)
    · rename_i hx
      rw [if_neg hx] at hne
      exact g.clean _ (.inr (h.clean j l hne hkind))

/-- What `balloc` does: block `r` is marked and filled with zeros. -/
structure Alloc (sb : Superblock) (r : Nat) (v w : Volume) : Prop where
  lt : r < sb.size
  unused : v.bit sb r = false
  bit : w.bit sb = update (v.bit sb) r true
  dip : w.dip sb = v.dip sb
  data : w.data = update v.data r .zero
  clean : ∀ b, b = r ∨ v.CleanAt b → w.CleanAt b

theorem alloc_of_unused {v : Volume} {b r : Nat} (hlt : r < sb.size) (hbit : v.bit sb r = false) :
    Alloc sb r v ((((v.setBit sb r true).logged b).setData r .zero).logged r) := by
  refine ⟨hlt, hbit, ?_, rfl, rfl, ?_⟩
  · funext x
    simp only [bit_logged, bit_setData, bit_setBit, update_apply]
  · intro x hx
    by_cases hxr : x = r
    · exact .logged (.inr hxr)
    · have hclean : v.CleanAt x := hx.resolve_left hxr
      exact .logged (.inl (.setData (.logged (.inl hclean)) hxr))

theorem Alloc.addr {d : Dinode} (a : Alloc sb r v w) (hv : (v.setDip sb i d).Intact sb)
    (hd : d.type ≠ .free) (hk : k ≤ NDIRECT) (hzero : d.addrs k = 0) :
    Gain sb i k r (v.setDip sb i d) (w.setDip sb i { d with addrs := update d.addrs k r }) := by
  rcases hv.fresh (r := r) a.lt a.unused with ⟨hr, hfresh⟩
  have hself : (v.setDip sb i d).dip sb i = d := by simp [dip_setDip]
  have hempty : (v.setDip sb i d).held sb (i, k) = 0 := by
    rw [held_addr _ _ hk, hself, hzero]
  -- Block `r` was nobody's indirect block, so clearing it changes no slot.
  have hdata : ∀ j, ((v.setDip sb i d).dip sb j).addrs NDIRECT ≠ r := by
    intro j
    rw [← held_addr _ _ (Nat.le_refl _)]
    exact hfresh (j, NDIRECT)
  refine
    { lt := a.lt, unused := a.unused, empty := hempty, typed := by rwa [hself], held := ?_,
      bit := a.bit, dip := ?_, same := ?_, data := ?_, clean := a.clean }
  · funext ⟨j, l⟩
    by_cases hj : j = i
    · subst hj
      have hind := hdata j
      rw [hself] at hind
      by_cases hl : l ≤ NDIRECT
      · by_cases hlk : l = k
        · subst hlk
          simp [held, dip_setDip, Dinode.slot_of_le hl]
        · simp [held, dip_setDip, Dinode.slot_of_le hl, hlk]
      · have hlk : l ≠ k := by omega
        have hpair : ((j, l) : Nat × Nat) ≠ (j, k) := by simp [hlk]
        rw [update_of_ne hpair]
        by_cases hkn : k = NDIRECT
        · -- A new indirect block has no entries yet.
          subst hkn
          by_cases hl' : l < NSLOT
          · simp [held, dip_setDip, a.data, Dinode.slot_of_zero (Nat.lt_of_not_le hl) hzero,
              Dinode.slot_of_lt (Nat.lt_of_not_le hl) hl', hr]
          · simp [held, dip_setDip, Dinode.slot_of_ge (Nat.le_of_not_lt hl')]
        · simp only [held, dip_setDip, if_true, a.data, data_setDip]
          rw [← @Dinode.slot_congr d v.data _ (fun _ => update_of_ne hind .zero v.data) l]
          simp [Dinode.slot, hl, update_of_ne (Ne.symm hkn)]
    · have hpair : ((j, l) : Nat × Nat) ≠ (i, k) := by simp [hj]
      have hind := hdata j
      rw [update_of_ne hpair]
      simp only [held, dip_setDip, if_neg hj, a.data, a.dip, data_setDip] at hind ⊢
      exact Dinode.slot_congr (fun _ => update_of_ne hind .zero v.data) l
  · intro j hj
    simp [dip_setDip, hj, a.dip]
  · exact ⟨update d.addrs k r, by simp [dip_setDip]⟩
  · intro b hb _
    simp [a.data, update_of_ne hb]

theorem Alloc.entry {d : Dinode} {j : Nat} (a : Alloc sb r v w)
    (hv : (v.setDip sb i d).Intact sb) (hd : d.type ≠ .free) (hind : d.addrs NDIRECT ≠ 0)
    (hj : j < NINDIRECT) (hzero : (v.data (d.addrs NDIRECT)).uint j = 0) :
    Gain sb i (NDIRECT + 1 + j) r (v.setDip sb i d)
      (((w.setData (d.addrs NDIRECT) ((w.data (d.addrs NDIRECT)).setUint j r)).logged
        (d.addrs NDIRECT)).setDip sb i d) := by
  rcases hv.fresh (r := r) a.lt a.unused with ⟨hr, hfresh⟩
  have hself : (v.setDip sb i d).dip sb i = d := by simp [dip_setDip]
  have hheldInd : (v.setDip sb i d).held sb (i, NDIRECT) = d.addrs NDIRECT := by
    rw [held_addr _ _ (Nat.le_refl _), hself]
  have hindr : d.addrs NDIRECT ≠ r := by
    rw [← hheldInd]
    exact hfresh _
  have hlt : r < 2 ^ 32 := Nat.lt_trans a.lt sb.size_lt
  have hwdata : w.data (d.addrs NDIRECT) = v.data (d.addrs NDIRECT) := by
    rw [a.data, update_of_ne hindr]
  have hempty : (v.setDip sb i d).held sb (i, NDIRECT + 1 + j) = 0 := by
    rw [held, hself]
    simp only [data_setDip]
    rw [Dinode.slot_of_lt (by omega) (by simp only [NSLOT]; omega) hind]
    simpa using hzero
  refine
    { lt := a.lt, unused := a.unused, empty := hempty, typed := by rwa [hself], held := ?_,
      bit := a.bit, dip := ?_, same := ?_, data := ?_, clean := ?_ }
  · funext ⟨m, l⟩
    by_cases hm : m = i
    · subst hm
      by_cases hl : l ≤ NDIRECT
      · have hpair : ((m, l) : Nat × Nat) ≠ (m, NDIRECT + 1 + j) := by
          simp only [ne_eq, Prod.mk.injEq, true_and]
          omega
        rw [update_of_ne hpair]
        simp [held, dip_setDip, Dinode.slot_of_le hl]
      · by_cases hl' : l < NSLOT
        · simp only [held, dip_setDip, if_true, data_setDip, data_logged, setData, hwdata,
            Dinode.slot_of_lt (Nat.lt_of_not_le hl) hl' hind, update_self,
            Block.uint_setUint _ hlt]
          by_cases hlj : l = NDIRECT + 1 + j
          · subst hlj
            rw [if_pos (by omega), update_self]
          · have hpair : ((m, l) : Nat × Nat) ≠ (m, NDIRECT + 1 + j) := by simp [hlj]
            rw [if_neg (by omega), update_of_ne hpair]
            simp [held, dip_setDip, Dinode.slot_of_lt (Nat.lt_of_not_le hl) hl' hind]
        · have hpair : ((m, l) : Nat × Nat) ≠ (m, NDIRECT + 1 + j) := by
            simp only [NSLOT] at hl'
            simp only [ne_eq, Prod.mk.injEq, true_and]
            omega
          rw [update_of_ne hpair]
          simp [held, dip_setDip, Dinode.slot_of_ge (Nat.le_of_not_lt hl')]
    · -- Another inode's indirect block is neither the new block nor the one just written.
      have hpair : ((m, l) : Nat × Nat) ≠ (i, NDIRECT + 1 + j) := by simp [hm]
      rw [update_of_ne hpair]
      have hne : ((v.setDip sb i d).dip sb m).addrs NDIRECT ≠ 0 →
          ((v.setDip sb i d).dip sb m).addrs NDIRECT ≠ d.addrs NDIRECT := by
        intro h0 heq
        rw [← hheldInd, ← held_addr _ _ (Nat.le_refl _)] at heq
        rw [← held_addr _ _ (Nat.le_refl _)] at h0
        have hinj := hv.holding.inj _ _ h0 heq
        simp [hm] at hinj
      have hner : ((v.setDip sb i d).dip sb m).addrs NDIRECT ≠ r := by
        rw [← held_addr _ _ (Nat.le_refl _)]
        exact hfresh _
      simp only [dip_setDip, if_neg hm] at hne hner
      simp only [held, dip_setDip, if_neg hm, data_setDip, data_logged, setData, dip_logged]
      change (w.dip sb m).slot _ l = _
      rw [a.dip]
      refine Dinode.slot_congr (fun h0 => ?_) l
      rw [update_of_ne (hne h0), a.data, update_of_ne hner]
  · intro m hm
    simp only [dip_setDip, if_neg hm, dip_logged, dip_setData, a.dip]
  · exact ⟨d.addrs, by simp [dip_setDip]⟩
  · intro b hb hbi
    rw [hheldInd] at hbi
    simp [setData, update_of_ne hbi, a.data, update_of_ne hb]
  · intro b hb
    have hclean := a.clean b hb
    by_cases hbi : b = d.addrs NDIRECT
    · subst hbi
      simp [CleanAt, setDip, logged, setData]
    · simpa [CleanAt, setDip, logged, setData, update_of_ne hbi] using hclean

/-! ## Growing and writing an inode -/

/-- Inode `i` has taken some blocks; nothing that was there has changed but its indirect block. -/
structure Grown (sb : Superblock) (i : Nat) (v w : Volume) : Prop where
  dip : ∀ j, j ≠ i → w.dip sb j = v.dip sb j
  same : ∃ addrs, w.dip sb i = { v.dip sb i with addrs := addrs }
  held : ∀ x, v.held sb x ≠ 0 → w.held sb x = v.held sb x
  other : ∀ j k, j ≠ i → w.held sb (j, k) = v.held sb (j, k)
  data : ∀ x, v.held sb x ≠ 0 → x ≠ (i, NDIRECT) → w.data (v.held sb x) = v.data (v.held sb x)

theorem Grown.refl (v : Volume) : Grown sb i v v :=
  ⟨fun _ _ => rfl, ⟨_, rfl⟩, fun _ _ => rfl, fun _ _ _ => rfl, fun _ _ _ => rfl⟩

theorem Grown.trans (h : Grown sb i u v) (h' : Grown sb i v w) : Grown sb i u w := by
  refine ⟨?_, ?_, ?_, ?_, ?_⟩
  · intro j hj
    rw [h'.dip j hj, h.dip j hj]
  · rcases h.same with ⟨a, ha⟩
    rcases h'.same with ⟨b, hb⟩
    exact ⟨b, by rw [hb, ha]⟩
  · intro x hx
    have hv := h.held x hx
    rw [h'.held x (by rwa [hv]), hv]
  · intro j k hj
    rw [h'.other j k hj, h.other j k hj]
  · intro x hx hxi
    have hv := h.held x hx
    have hdata := h'.data x (by rwa [hv]) hxi
    rw [hv] at hdata
    rw [hdata, h.data x hx hxi]

theorem Gain.grown (g : Gain sb i k r v w) (h : v.Intact sb) : Grown sb i v w := by
  rcases h.fresh g.lt g.unused with ⟨_, hfresh⟩
  refine ⟨g.dip, g.same, ?_, ?_, ?_⟩
  · intro x hx
    have hxk : x ≠ (i, k) := by
      rintro rfl
      exact hx g.empty
    rw [g.held, update_of_ne hxk]
  · intro j l hj
    rw [g.held, update_of_ne (by simp [hj])]
  · intro x hx hxi
    refine g.data _ (hfresh x) ?_
    intro heq
    exact hxi (h.holding.inj x _ hx heq)

/-- The data of one block of inode `i`, in slot `k`, have changed. -/
structure Poked (sb : Superblock) (i k : Nat) (v w : Volume) : Prop where
  ne : k ≠ NDIRECT
  dip : w.dip sb = v.dip sb
  bit : w.bit sb = v.bit sb
  data : ∀ b, b ≠ v.held sb (i, k) → w.data b = v.data b
  clean : ∀ b, b ≠ v.held sb (i, k) → v.CleanAt b → w.CleanAt b
  dir : (v.dip sb i).type = .dir → w.CleanAt (v.held sb (i, k))

/-- The data of a block that is not indirect are no part of the block map. -/
theorem held_of_data (h : v.Intact sb) (hk : k ≠ NDIRECT) (hdip : w.dip sb = v.dip sb)
    (hdata : ∀ b, b ≠ v.held sb (i, k) → w.data b = v.data b) : w.held sb = v.held sb := by
  refine held_congr hdip fun j hj => hdata _ ?_
  intro heq
  have hinj := h.holding.inj _ _ hj heq
  exact hk (Prod.mk.inj hinj).2.symm

theorem Poked.held (p : Poked sb i k v w) (h : v.Intact sb) : w.held sb = v.held sb :=
  held_of_data h p.ne p.dip p.data

theorem Poked.intact (p : Poked sb i k v w) (h : v.Intact sb) : w.Intact sb := by
  have hheld := p.held h
  refine ⟨?_, ?_, ?_, ?_⟩
  · rw [hheld, p.bit]
    exact h.holding
  · rw [p.dip]
    exact h.free
  · rw [p.dip, hheld]
    exact h.mapped
  · intro j l hne hkind
    rw [p.dip] at hkind
    rw [hheld] at hne ⊢
    by_cases hik : v.held sb (j, l) = v.held sb (i, k)
    · rcases Prod.mk.inj (h.holding.inj _ _ hne hik) with ⟨rfl, rfl⟩
      rcases hkind with hkind | hkind
      · exact absurd hkind p.ne
      · exact p.dir hkind
    · exact p.clean _ hik (h.clean j l hne hkind)

/-! ## Giving blocks back -/

theorem held_setDip_self (v : Volume) (i : Nat) (d : Dinode) (k : Nat) :
    (v.setDip sb i d).held sb (i, k) = d.slot v.data k := by
  simp [held, dip_setDip]

theorem held_setDip_of_ne (v : Volume) (d : Dinode) {i j : Nat} (hj : j ≠ i) (k : Nat) :
    (v.setDip sb i d).held sb (j, k) = v.held sb (j, k) := by
  simp [held, dip_setDip, hj]

/-- Intactness after a change to inode `i`, which is to have size 0, when no block gets dirty and
the bitmap is exact again. -/
theorem Intact.shrink {d e : Dinode} (h : (v.setDip sb i d).Intact sb) (hd : d.type ≠ .free)
    (htype : e.type = d.type) (hsize : e.size = 0) (hdip : w.dip sb = v.dip sb)
    (hdata : w.data = v.data) (hclean : ∀ b, v.CleanAt b → w.CleanAt b)
    (hheld : ∀ k, e.slot v.data k = 0 ∨ e.slot v.data k = d.slot v.data k)
    (hholding : Holding sb.nmeta sb.size (w.bit sb) ((w.setDip sb i e).held sb)) :
    (w.setDip sb i e).Intact sb := by
  have hother : ∀ j, j ≠ i → (w.setDip sb i e).dip sb j = (v.setDip sb i d).dip sb j := by
    intro j hj
    simp [dip_setDip, hj, hdip]
  have hotherHeld : ∀ j k, j ≠ i →
      (w.setDip sb i e).held sb (j, k) = (v.setDip sb i d).held sb (j, k) := by
    intro j k hj
    rw [held, held, hother j hj]
    simp [hdata]
  refine ⟨hholding, ?_, ?_, ?_⟩
  · intro j hj
    by_cases hji : j = i
    · subst hji
      simp [dip_setDip, htype, hd] at hj
    · rw [hother j hji] at hj ⊢
      exact h.free j hj
  · intro j hj bn hbn
    by_cases hji : j = i
    · subst hji
      simp [dip_setDip, hsize] at hbn
    · rw [hother j hji] at hj hbn
      rw [hotherHeld j _ hji]
      exact h.mapped j hj bn hbn
  · intro j k hne hkind
    refine hclean _ ?_
    by_cases hji : j = i
    · subst hji
      rw [held_setDip_self, hdata] at hne ⊢
      rcases hheld k with hk | hk
      · exact absurd hk hne
      · rw [hk] at hne ⊢
        rw [← @held_setDip_self sb v j d k] at hne ⊢
        refine h.clean j k hne ?_
        simpa [dip_setDip, htype] using hkind
    · rw [hotherHeld j k hji] at hne ⊢
      rw [hother j hji] at hkind
      exact h.clean j k hne hkind

theorem held_resize (v : Volume) (i : Nat) (d : Dinode) (n : Nat) :
    (v.setDip sb i { d with size := n }).held sb = (v.setDip sb i d).held sb := by
  funext ⟨j, k⟩
  by_cases hj : j = i
  · subst hj
    rw [held_setDip_self, held_setDip_self]
    rfl
  · rw [held_setDip_of_ne _ _ hj, held_setDip_of_ne _ _ hj]

/-- The size may be any for which there are no holes. -/
theorem Intact.resize {d : Dinode} {n : Nat} (h : (v.setDip sb i d).Intact sb) (hd : d.type ≠ .free)
    (hmapped : ∀ bn, bn * BSIZE < n → (v.setDip sb i d).held sb (i, slotOf bn) ≠ 0) :
    (v.setDip sb i { d with size := n }).Intact sb := by
  have hheld := @held_resize sb v i d n
  have hdip : ∀ j, j ≠ i →
      (v.setDip sb i { d with size := n }).dip sb j = (v.setDip sb i d).dip sb j := by
    intro j hj
    simp [dip_setDip, hj]
  have htype : ∀ j, ((v.setDip sb i { d with size := n }).dip sb j).type =
      ((v.setDip sb i d).dip sb j).type := by
    intro j
    by_cases hj : j = i
    · simp [dip_setDip, hj]
    · rw [hdip j hj]
  refine ⟨?_, ?_, ?_, ?_⟩
  · rw [hheld]
    exact h.holding
  · intro j hj k hk
    by_cases hji : j = i
    · subst hji
      simp [dip_setDip, hd] at hj
    · rw [hdip j hji] at hj ⊢
      exact h.free j hj k hk
  · intro j hj bn hbn
    rw [hheld]
    by_cases hji : j = i
    · subst hji
      rw [dip_setDip, if_pos rfl] at hbn
      exact hmapped bn hbn
    · rw [hdip j hji] at hj hbn
      exact h.mapped j hj bn hbn
  · intro j k hne hkind
    rw [htype] at hkind
    rw [hheld] at hne ⊢
    exact h.clean j k hne hkind

theorem Intact.release {d : Dinode} (h : (v.setDip sb i d).Intact sb) (hd : d.type ≠ .free)
    (hsize : d.size = 0) (hk : k < NDIRECT) (hne : d.addrs k ≠ 0) (b : Nat) :
    (((v.setBit sb (d.addrs k) false).logged b).setDip sb i
      { d with addrs := update d.addrs k 0 }).Intact sb := by
  have hslot : ∀ l, Dinode.slot { d with addrs := update d.addrs k 0 } v.data l =
      if l = k then 0 else d.slot v.data l := by
    intro l
    have hind : update d.addrs k 0 NDIRECT = d.addrs NDIRECT :=
      update_of_ne (by omega) _ _
    by_cases hl : l = k
    · subst hl
      rw [Dinode.slot_of_le (Nat.le_of_lt hk), if_pos rfl]
      exact update_self ..
    · simp only [Dinode.slot, hind, update_of_ne hl, if_neg hl]
  have hheld : (((v.setBit sb (d.addrs k) false).logged b).setDip sb i
      { d with addrs := update d.addrs k 0 }).held sb =
        update ((v.setDip sb i d).held sb) (i, k) 0 := by
    funext ⟨j, l⟩
    by_cases hj : j = i
    · subst hj
      rw [held_setDip_self, data_logged, data_setBit, hslot, update_apply, held_setDip_self]
      simp
    · rw [held_setDip_of_ne _ _ hj, update_of_ne (by simp [hj]), held_setDip_of_ne _ _ hj]
      rfl
  have hkeep : (v.setDip sb i d).held sb (i, k) = d.addrs k := by
    rw [held_setDip_self, Dinode.slot_of_le (Nat.le_of_lt hk)]
  refine h.shrink hd rfl hsize rfl rfl (fun _ hb => .logged (.inl hb)) ?_ ?_
  · intro l
    rw [hslot]
    split
    · exact .inl rfl
    · exact .inr rfl
  · rw [hheld]
    have hrel := h.holding.release (k := (i, k)) (by rwa [hkeep])
    rw [hkeep] at hrel
    have hbit : ((v.setBit sb (d.addrs k) false).logged b).bit sb =
        update (v.bit sb) (d.addrs k) false := by
      funext c
      simp only [bit_logged, bit_setBit, update_apply]
    rw [hbit]
    exact hrel

/-- The indirect block is given back, once its entries' blocks have been: `held` is what the slots
hold without them. -/
theorem Intact.release_indirect {d : Dinode} {H : Nat × Nat → Nat}
    (h : (v.setDip sb i d).Intact sb) (hd : d.type ≠ .free) (hsize : d.size = 0)
    (hdip : w.dip sb = v.dip sb) (hdata : w.data = v.data)
    (hclean : ∀ b, v.CleanAt b → w.CleanAt b) (hne : d.addrs NDIRECT ≠ 0)
    (hH : ∀ x, H x = if x.1 = i ∧ NDIRECT < x.2 then 0 else (v.setDip sb i d).held sb x)
    (hholding : Holding sb.nmeta sb.size (w.bit sb) H) (b : Nat) :
    (((w.setBit sb (d.addrs NDIRECT) false).logged b).setDip sb i
      { d with addrs := update d.addrs NDIRECT 0 }).Intact sb := by
  have hslot : ∀ l, Dinode.slot { d with addrs := update d.addrs NDIRECT 0 } v.data l =
      if NDIRECT ≤ l then 0 else d.slot v.data l := by
    intro l
    by_cases hl : l < NDIRECT
    · have hl' : ¬ NDIRECT ≤ l := by omega
      simp only [Dinode.slot_of_le (Nat.le_of_lt hl), if_neg hl']
      exact update_of_ne (by omega) _ _
    · rw [if_pos (by omega)]
      rcases Nat.lt_or_eq_of_le (Nat.le_of_not_lt hl) with hl | rfl
      · exact Dinode.slot_of_zero hl (by simp)
      · simp [Dinode.slot_of_le (Nat.le_refl _)]
  have hkeep : H (i, NDIRECT) = d.addrs NDIRECT := by
    rw [hH, if_neg (by simp), held_setDip_self, Dinode.slot_of_le (Nat.le_refl _)]
  have hheld : (((w.setBit sb (d.addrs NDIRECT) false).logged b).setDip sb i
      { d with addrs := update d.addrs NDIRECT 0 }).held sb = update H (i, NDIRECT) 0 := by
    funext ⟨j, l⟩
    by_cases hj : j = i
    · subst hj
      rw [held_setDip_self, data_logged, data_setBit, hdata, hslot, update_apply, hH,
        held_setDip_self]
      rcases Nat.lt_trichotomy l NDIRECT with hl | rfl | hl
      · rw [if_neg (by omega), if_neg (by simp; omega), if_neg (by omega)]
      · simp
      · rw [if_pos (by omega), if_neg (by simp; omega), if_pos ⟨rfl, hl⟩]
    · rw [held_setDip_of_ne _ _ hj, update_of_ne (by simp [hj]), hH,
        if_neg (by simp [hj]), held_setDip_of_ne _ _ hj]
      simp only [held, dip_logged, dip_setBit, data_logged, data_setBit, hdip, hdata]
  refine h.shrink hd rfl hsize (by simpa using hdip) (by simpa using hdata)
    (fun c hc => .logged (.inl (hclean c hc))) ?_ ?_
  · intro l
    rw [hslot]
    split
    · exact .inl rfl
    · exact .inr rfl
  · rw [hheld]
    have hrel := hholding.release (k := (i, NDIRECT)) (by rwa [hkeep])
    rw [hkeep] at hrel
    have hbit : ((w.setBit sb (d.addrs NDIRECT) false).logged b).bit sb =
        update (w.bit sb) (d.addrs NDIRECT) false := by
      funext c
      simp only [bit_logged, bit_setBit, update_apply]
    rw [hbit]
    exact hrel

/-- An inode that holds nothing may change its type. -/
theorem Intact.retype {d : Dinode} (h : v.Intact sb)
    (hzero : ∀ k, k ≤ NDIRECT → (v.dip sb i).addrs k = 0)
    (hzero' : ∀ k, k ≤ NDIRECT → d.addrs k = 0) (hsize : d.size = 0) :
    (v.setDip sb i d).Intact sb := by
  have hempty : ∀ e : Dinode, (∀ k, k ≤ NDIRECT → e.addrs k = 0) → ∀ k, e.slot v.data k = 0 := by
    intro e he k
    by_cases hk : k ≤ NDIRECT
    · rw [Dinode.slot_of_le hk, he k hk]
    · exact Dinode.slot_of_zero (by omega) (he _ (Nat.le_refl _))
  have hself : ∀ k, (v.setDip sb i d).held sb (i, k) = 0 := by
    intro k
    rw [held_setDip_self, hempty d hzero']
  have hheld : (v.setDip sb i d).held sb = v.held sb := by
    funext ⟨j, k⟩
    by_cases hj : j = i
    · subst hj
      rw [hself, held, hempty _ hzero]
    · rw [held_setDip_of_ne _ _ hj]
  refine ⟨?_, ?_, ?_, ?_⟩
  · rw [hheld]
    exact h.holding
  · intro j hj k hk
    by_cases hji : j = i
    · subst hji
      rw [dip_setDip, if_pos rfl, hzero' k hk]
    · rw [dip_setDip, if_neg hji] at hj ⊢
      exact h.free j hj k hk
  · intro j hj bn hbn
    by_cases hji : j = i
    · subst hji
      rw [dip_setDip, if_pos rfl, hsize] at hbn
      exact absurd hbn (Nat.not_lt_zero _)
    · rw [dip_setDip, if_neg hji] at hj hbn
      rw [hheld]
      exact h.mapped j hj bn hbn
  · intro j k hne hkind
    by_cases hji : j = i
    · subst hji
      exact absurd (hself k) hne
    · rw [dip_setDip, if_neg hji] at hkind
      rw [hheld] at hne ⊢
      exact h.clean j k hne hkind

/-- The link count and the device numbers are no part of the block map. -/
theorem Intact.relabel {d : Dinode} (h : v.Intact sb) (htype : d.type = (v.dip sb i).type)
    (haddrs : d.addrs = (v.dip sb i).addrs) (hsize : d.size = (v.dip sb i).size) :
    (v.setDip sb i d).Intact sb := by
  have hheld : (v.setDip sb i d).held sb = v.held sb := by
    funext ⟨j, k⟩
    by_cases hj : j = i
    · subst hj
      rw [held_setDip_self, held, Dinode.slot, Dinode.slot, haddrs]
    · rw [held_setDip_of_ne _ _ hj]
  have hdip : ∀ j, ((v.setDip sb i d).dip sb j).type = (v.dip sb j).type ∧
      ((v.setDip sb i d).dip sb j).addrs = (v.dip sb j).addrs ∧
      ((v.setDip sb i d).dip sb j).size = (v.dip sb j).size := by
    intro j
    by_cases hj : j = i
    · subst hj
      simp [dip_setDip, htype, haddrs, hsize]
    · simp [dip_setDip, hj]
  refine ⟨by rw [hheld]; exact h.holding, ?_, ?_, ?_⟩
  · intro j hj k hk
    rw [(hdip j).1] at hj
    rw [(hdip j).2.1]
    exact h.free j hj k hk
  · intro j hj bn hbn
    rw [(hdip j).1] at hj
    rw [(hdip j).2.2] at hbn
    rw [hheld]
    exact h.mapped j hj bn hbn
  · intro j k hne hkind
    rw [(hdip j).1] at hkind
    rw [hheld] at hne ⊢
    exact h.clean j k hne hkind

end Volume
end Xv6.Fs
