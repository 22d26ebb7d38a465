import Xv6.Fs.Space

/-!
# Write — inodes as byte arrays

`writei` inside an operation, in terms of the contents of the inode.  It stops early for want of
blocks, or because the source cannot be read, and in the second case it has stored more than it
reports.
-/

namespace Xv6.Fs

open Lib Prog Volume
open Function (update_self)

variable {sb : Superblock} {s t u : St} {q : Ip} {l : Finset Nat} {src : Nat → Option UInt8}

/-! ## The blocks of a write -/

namespace Volume

variable {v w : Volume} {i lo hi bn : Nat}

theorem held_indirect_ne (hge : NDIRECT ≤ bn) (h : v.held sb (i, slotOf bn) ≠ 0) :
    v.held sb (i, NDIRECT) ≠ 0 := by
  intro hzero
  rw [held_addr _ _ le_rfl] at hzero
  exact h (Dinode.slot_of_zero (by rw [slotOf_of_ge (Nat.not_lt.2 hge)]; omega) hzero)

theorem lacking_congr (h : w.held sb = v.held sb) :
    w.lacking sb i lo hi = v.lacking sb i lo hi := by
  rw [lacking, lacking, h]

theorem lacking_mono {hi' : Nat} (hle : hi ≤ hi') :
    v.lacking sb i lo hi ≤ v.lacking sb i lo hi' := by
  refine Nat.add_le_add (Finset.card_le_card ?_) ?_
  · exact Finset.filter_subset_filter _ (Finset.Icc_subset_Icc_right hle)
  · split_ifs <;> omega

theorem lacking_step (sb : Superblock) (hle : lo ≤ hi)
    (hkept : ∀ x, x ≠ (i, slotOf lo) → (x = (i, NDIRECT) → lo < NDIRECT) →
      w.held sb x = v.held sb x) (hlo : w.held sb (i, slotOf lo) ≠ 0) :
    v.lacking sb i lo hi = w.lacking sb i (lo + 1) hi + v.lacking sb i lo lo := by
  have hicc : Finset.Icc lo hi = insert lo (Finset.Icc (lo + 1) hi) := by
    ext bn
    simp only [Finset.mem_Icc, Finset.mem_insert]
    omega
  have hsame : ((Finset.Icc (lo + 1) hi).filter fun bn => w.held sb (i, slotOf bn) = 0) =
      (Finset.Icc (lo + 1) hi).filter fun bn => v.held sb (i, slotOf bn) = 0 := by
    refine Finset.filter_congr fun bn hbn => ?_
    have hne : bn ≠ lo := by
      have := (Finset.mem_Icc.1 hbn).1
      omega
    rw [hkept]
    · exact fun heq => hne (slotOf_inj (Prod.mk.inj heq).2)
    · exact fun heq => absurd (Prod.mk.inj heq).2 (slotOf_ne bn)
  have hsplit : ((Finset.Icc lo hi).filter fun bn => v.held sb (i, slotOf bn) = 0).card =
      ((Finset.Icc (lo + 1) hi).filter fun bn => v.held sb (i, slotOf bn) = 0).card +
        if v.held sb (i, slotOf lo) = 0 then 1 else 0 := by
    rw [hicc, Finset.filter_insert]
    split
    · rw [Finset.card_insert_of_notMem (by simp)]
    · rfl
  have hind : (if NDIRECT ≤ hi ∧ v.held sb (i, NDIRECT) = 0 then 1 else 0) =
      (if NDIRECT ≤ hi ∧ w.held sb (i, NDIRECT) = 0 then 1 else 0) +
        if NDIRECT ≤ lo ∧ v.held sb (i, NDIRECT) = 0 then 1 else 0 := by
    by_cases hge : NDIRECT ≤ lo
    · have hne := held_indirect_ne hge hlo
      simp only [hne, and_false, if_false, hge, hge.trans hle, true_and, Nat.zero_add]
    · have heq := hkept (i, NDIRECT)
        (fun heq => slotOf_ne lo (Prod.mk.inj heq).2.symm) fun _ => Nat.lt_of_not_le hge
      simp only [heq, hge, false_and, if_false, Nat.add_zero]
  rw [lacking_self, lacking, lacking, hsplit, hsame, hind]
  omega

end Volume

/-- The blocks that a write of blocks `lo` to `hi` of inode `i` logs, beside that of the inode. -/
def WriteLog (sb : Superblock) (i lo hi : Nat) (v w : Volume) (b : Nat) : Prop :=
  ∃ bn, lo ≤ bn ∧ bn ≤ hi ∧
    (w.held sb (i, slotOf bn) ≠ 0 ∧ b = w.held sb (i, slotOf bn) ∨ MapLog sb i bn v w b)

theorem WriteLog.widen {i lo hi b : Nat} {v w w' : Volume} (h : WriteLog sb i lo hi v w b)
    (hw : ∀ x, w.held sb x ≠ 0 → w'.held sb x = w.held sb x) : WriteLog sb i lo hi v w' b := by
  obtain ⟨bn, hlo, hhi, ⟨hne, rfl⟩ | hmap⟩ := h
  · exact ⟨bn, hlo, hhi, .inl ⟨hw _ hne ▸ hne, (hw _ hne).symm⟩⟩
  · exact ⟨bn, hlo, hhi, .inr (hmap.widen (fun _ _ => rfl) hw)⟩

/-- How many blocks such a write logs at most: those of the file, the bitmap blocks of the new ones
and the indirect block. -/
def Volume.logging (sb : Superblock) (v : Volume) (i lo hi : Nat) : Nat :=
  (hi + 1 - lo) + min (v.lacking sb i lo hi) (sb.size / BPB + 1) +
    if ∃ bn ∈ Finset.Icc lo hi, NDIRECT ≤ bn ∧ v.held sb (i, slotOf bn) = 0 then 1 else 0

theorem Volume.logging_le (sb : Superblock) (v : Volume) (i lo hi : Nat) :
    v.logging sb i lo hi ≤ (hi + 1 - lo) + (sb.size / BPB + 1) + 1 := by
  refine Nat.add_le_add (Nat.add_le_add_left (min_le_right _ _) _) ?_
  split <;> decide

/-- The blocks of the bitmap. -/
def bitmapBlocks (sb : Superblock) : Finset Nat :=
  (Finset.range (sb.size / BPB + 1)).image (· + sb.bmapstart)

theorem Volume.Intact.bblock_mem {w : Volume} (h : w.Intact sb) {x : Nat × Nat}
    (hx : w.held sb x ≠ 0) : BBLOCK sb (w.held sb x) ∈ bitmapBlocks sb := by
  have hdiv := Nat.div_le_div_right (c := BPB) (h.holding.range x hx).2.le
  exact Finset.mem_image.2 ⟨_, Finset.mem_range.2 (Nat.lt_succ_of_le hdiv), rfl⟩

/-- The bitmap blocks of the new blocks of such a write. -/
def newBits (sb : Superblock) (i lo hi : Nat) (v w : Volume) : Finset Nat :=
  (((Finset.Icc lo hi).filter fun bn => v.held sb (i, slotOf bn) = 0).image
      fun bn => BBLOCK sb (w.held sb (i, slotOf bn))) ∪
    if NDIRECT ≤ hi ∧ v.held sb (i, NDIRECT) = 0 then {BBLOCK sb (w.held sb (i, NDIRECT))} else ∅

theorem card_newBits_le (i lo hi : Nat) (v w : Volume) :
    (newBits sb i lo hi v w).card ≤ v.lacking sb i lo hi := by
  refine (Finset.card_union_le _ _).trans (Nat.add_le_add Finset.card_image_le ?_)
  split <;> simp

/-- All blocks that such a write logs. -/
def logSet (sb : Superblock) (i lo hi : Nat) (v w : Volume) : Finset Nat :=
  ((Finset.Icc lo hi).image fun bn => w.held sb (i, slotOf bn)) ∪
    newBits sb i lo hi v w ∩ bitmapBlocks sb ∪
      if ∃ bn ∈ Finset.Icc lo hi, NDIRECT ≤ bn ∧ v.held sb (i, slotOf bn) = 0 then
        {w.held sb (i, NDIRECT)} else ∅

theorem WriteLog.mem_logSet {i lo hi b : Nat} {v w : Volume} (h : WriteLog sb i lo hi v w b)
    (hw : w.Intact sb) : b ∈ logSet sb i lo hi v w := by
  obtain ⟨bn, hlo, hhi, hb⟩ := h
  have hbn := Finset.mem_Icc.2 ⟨hlo, hhi⟩
  simp only [logSet, Finset.mem_union, Finset.mem_inter]
  rcases hb with ⟨-, rfl⟩ | ⟨hzero, ⟨hne, rfl | rfl⟩ | ⟨hge, hne, rfl | ⟨hnew, rfl⟩⟩⟩
  · exact .inl (.inl (Finset.mem_image_of_mem _ hbn))
  · exact .inl (.inl (Finset.mem_image_of_mem _ hbn))
  · refine .inl (.inr ⟨Finset.mem_union_left _ ?_, hw.bblock_mem hne⟩)
    exact Finset.mem_image_of_mem _ (Finset.mem_filter.2 ⟨hbn, hzero⟩)
  · refine .inr ?_
    rw [if_pos ⟨bn, hbn, hge, hzero⟩]
    exact Finset.mem_singleton_self _
  · refine .inl (.inr ⟨Finset.mem_union_right _ ?_, hw.bblock_mem hne⟩)
    rw [if_pos ⟨hge.trans hhi, hnew⟩]
    exact Finset.mem_singleton_self _

theorem card_logSet_le (sb : Superblock) (i lo hi : Nat) (v w : Volume) :
    (logSet sb i lo hi v w).card ≤ v.logging sb i lo hi := by
  refine (Finset.card_union_le _ _).trans (Nat.add_le_add ?_ (by split <;> simp))
  refine (Finset.card_union_le _ _).trans (Nat.add_le_add ?_ (le_min ?_ ?_))
  · exact Finset.card_image_le.trans (Nat.card_Icc lo hi).le
  · exact (Finset.card_le_card Finset.inter_subset_left).trans (card_newBits_le i lo hi v w)
  · refine (Finset.card_le_card Finset.inter_subset_right).trans ?_
    exact Finset.card_image_le.trans (Finset.card_range _).le

/-- The last block of `n` bytes from `off` on. -/
def lastBlock (off n : Nat) : Nat := (off + n - 1) / BSIZE

/-- There is room in the log for a write of `n` bytes at `off`, up to the inode. -/
def LogRoom (sb : Superblock) (q : Ip) (off n : Nat) (s : St) (l : Finset Nat) : Prop :=
  let k := l.card + (s.eff sb q).logging sb (s.itable q).inum (off / BSIZE) (lastBlock off n)
  k < LOGSIZE ∧ k + 1 < sb.nlog

/-- The log does not fill up on the way. -/
theorem LogRoom.not_full {off n : Nat} {l' : Finset Nat} (h : LogRoom sb q off n s l)
    (hop : s.op = some l) (ht : (t.eff sb q).Intact sb)
    (hlogs : Logs (WriteLog sb (s.itable q).inum (off / BSIZE) (lastBlock off n) (s.eff sb q)
      (t.eff sb q)) s t) (hop' : t.op = some l') : ¬ LogFull sb l' := by
  obtain ⟨l₀, l₁, h₀, h₁, hl⟩ := hlogs.op
  obtain rfl : l = l₀ := Option.some.inj (hop.symm.trans h₀)
  obtain rfl : l' = l₁ := Option.some.inj (hop'.symm.trans h₁)
  have hsub : l' ⊆ l ∪ logSet sb (s.itable q).inum (off / BSIZE) (lastBlock off n) (s.eff sb q)
      (t.eff sb q) := fun b hb =>
    Finset.mem_union.2 ((hl b hb).imp_right fun hb => hb.mem_logSet ht)
  have hcard := (Finset.card_le_card hsub).trans (Finset.card_union_le _ _)
  have hle := card_logSet_le sb (s.itable q).inum (off / BSIZE) (lastBlock off n)
    (s.eff sb q) (t.eff sb q)
  unfold LogRoom at h
  unfold LogFull
  omega

/-! ## The loop -/

/-- The state when the source could not be read after `k` bytes more than are reported. -/
def St.torn (u : St) (sb : Superblock) (q : Ip) (src : Nat → Option UInt8) (i off tot k : Nat) :
    St :=
  { u with
    vol := u.vol.setData ((u.eff sb q).blockAt sb i (off + tot))
      (copyin src tot k ((off + tot) % BSIZE)
        (u.vol.data ((u.eff sb q).blockAt sb i (off + tot)))) }

/-- The loop of `writei` has stopped with `tot` of `n` bytes written in `u`: all are written, or
there is no free block, or the source cannot be read after `k` more bytes, which then have been
stored without being logged.  `room` says whether there were blocks for the byte at which it
stopped. -/
inductive Stopped (sb : Superblock) (q : Ip) (src : Nat → Option UInt8) (off n tot i : Nat)
    (room : Prop) (u : St) : St → Prop where
  | all : tot = n → Stopped sb q src off n tot i room u u
  | full : tot < n → u.vol.Full sb → ¬ room → Stopped sb q src off n tot i room u u
  | torn (k : Nat) : tot + k < n → src (tot + k) = none → Readable src (tot + k) →
      k < BSIZE - (off + tot) % BSIZE → (u.eff sb q).blockAt sb i (off + tot) ≠ 0 → room →
      Stopped sb q src off n tot i room u (u.torn sb q src i off tot k)

namespace Stopped

variable {off n tot i : Nat} {room room' : Prop}

theorem le (h : Stopped sb q src off n tot i room s t) : tot ≤ n := by
  cases h <;> omega

theorem congr (h : Stopped sb q src off n tot i room s t) (hroom : tot < n → (room ↔ room')) :
    Stopped sb q src off n tot i room' s t := by
  cases h with
  | all hall => exact .all hall
  | full hlt hfull hno => exact .full hlt hfull fun hyes => hno ((hroom hlt).2 hyes)
  | torn k hlt hnone hread hk hheld hyes =>
    exact .torn k hlt hnone hread hk hheld ((hroom (by omega)).1 hyes)

end Stopped

theorem takeWhile_range' (p : Nat → Bool) (a m : Nat) :
    (∀ j, j < ((List.range' a m).takeWhile p).length → p (a + j) = true) ∧
      (((List.range' a m).takeWhile p).length < m →
        p (a + ((List.range' a m).takeWhile p).length) = false) := by
  induction m generalizing a with
  | zero => simp
  | succ m ih =>
    rw [List.range'_succ, List.takeWhile_cons]
    cases hp : p a with
    | true =>
      simp only [if_true, List.length_cons, Nat.add_lt_add_iff_right]
      refine ⟨fun j hj => ?_, fun hlt => ?_⟩
      · cases j with
        | zero => exact hp
        | succ j =>
          have := (ih (a + 1)).1 j (by omega)
          rwa [Nat.add_right_comm] at this
      · have := (ih (a + 1)).2 hlt
        rwa [Nat.add_right_comm] at this
    | false => simpa using hp

/-- `either_copyin` stores the bytes before the first that cannot be read. -/
theorem copied_spec (src : Nat → Option UInt8) (pos m : Nat) :
    (∀ j, j < copied src pos m → (src (pos + j)).isSome) ∧
      (copied src pos m < m → src (pos + copied src pos m) = none) := by
  have hspec := takeWhile_range' (fun j => (src (pos + j)).isSome) 0 m
  rw [← List.range_eq_range'] at hspec
  simp only [Nat.zero_add] at hspec
  refine ⟨hspec.1, fun hlt => ?_⟩
  have hnone := hspec.2 hlt
  rwa [Option.isSome_eq_false_iff, Option.isNone_iff_eq_none] at hnone

/-- The state after block `b` has been changed by `f` and logged. -/
def St.stored (u : St) (l : Finset Nat) (b : Nat) (f : Block → Block) : St :=
  { u with op := some (insert b l), vol := (u.vol.setData b (f (u.vol.data b))).logged b }

theorem stored_poked (sb : Superblock) {i k : Nat} (hi : (u.itable q).inum = i) (hk : k ≠ NDIRECT)
    (f : Block → Block) : Poked sb i k (u.eff sb q)
      ((u.stored l ((u.eff sb q).held sb (i, k)) f).eff sb q) :=
  St.poked_logged hi hk _ _

/-- The loop has written `tot` bytes from `s` to `t`, and has logged no more than it has to. -/
structure Writing (sb : Superblock) (q : Ip) (src : Nat → Option UInt8) (off n tot : Nat)
    (s t : St) : Prop extends Wrote sb q src off tot s t where
  logs : Logs (WriteLog sb (s.itable q).inum (off / BSIZE) (lastBlock off n) (s.eff sb q)
    (t.eff sb q)) s t
  read : Readable src tot
  zero : ∀ x, (s.eff sb q).blockAt sb (s.itable q).inum x = 0 →
    (t.eff sb q).blockAt sb (s.itable q).inum x ≠ 0 → x < off ∨ off + tot ≤ x →
      (t.eff sb q).byteAt sb (s.itable q).inum x = 0
  aligned : tot = n ∨ tot = 0 ∨ (off + tot) % BSIZE = 0

namespace Writing

variable {off n tot : Nat}

theorem refl (h : s.op = some l) (hv : (s.eff sb q).Intact sb) : Writing sb q src off n 0 s s :=
  ⟨⟨⟨s.vol, s.op, _, (s.put_self ..).symm⟩, hv, .refl _, rfl⟩, .refl h,
    fun _ hj => absurd hj (Nat.not_lt_zero _), fun _ h0 h1 => absurd h0 h1, .inr (.inl rfl)⟩

theorem block_le (off : Nat) (htot : tot < n) :
    off / BSIZE ≤ (off + tot) / BSIZE ∧ (off + tot) / BSIZE ≤ lastBlock off n :=
  ⟨Nat.div_le_div_right (Nat.le_add_right _ _), Nat.div_le_div_right (by omega)⟩

theorem mapLogs (h : Writing sb q src off n tot s t) (htot : tot < n) (hext : Ext sb q t u)
    (hlogs : Logs (MapLog sb (t.itable q).inum ((off + tot) / BSIZE) (t.eff sb q) (u.eff sb q))
      t u) : Logs (WriteLog sb (s.itable q).inum (off / BSIZE) (lastBlock off n) (s.eff sb q)
        (u.eff sb q)) s u := by
  rw [h.inum] at hlogs
  refine (h.logs.mono fun b hb => hb.widen hext.grown.held).trans (hlogs.mono fun b hb => ?_)
  obtain ⟨hlo, hhi⟩ := block_le off htot
  exact ⟨_, hlo, hhi, .inr (hb.widen h.written.held fun _ _ => rfl)⟩

theorem map {addr : Nat} (h : Writing sb q src off n tot s t) (htot : tot < n)
    (hm : Mapped sb q ((off + tot) / BSIZE) addr t u) : Writing sb q src off n tot s u := by
  refine ⟨h.toWrote.ext hm.ext, h.mapLogs htot hm.ext hm.logs, h.read, fun x h0 h1 hout => ?_,
    h.aligned⟩
  have hzero := hm.zero
  have hkept := hm.kept
  have hgrown := hm.ext.grown
  rw [h.inum] at hzero hkept hgrown
  by_cases ht : (t.eff sb q).blockAt sb (s.itable q).inum x = 0
  · -- Only one block is new, and it is full of zeros.
    have hbn : x / BSIZE = (off + tot) / BSIZE := by
      by_contra hne
      have hsame := hkept ((s.itable q).inum, slotOf (x / BSIZE))
        (fun heq => hne (slotOf_inj (Prod.mk.inj heq).2))
        (fun heq => absurd (Prod.mk.inj heq).2 (slotOf_ne _))
      exact h1 (hsame.trans ht)
    rw [blockAt, hbn] at ht h1
    rw [byteAt, blockAt, hbn]
    exact congrFun (hzero ht h1) (x % BSIZE)
  · rw [Written.byteAt_grown hgrown ht]
    exact h.zero x h0 ht hout

theorem store {m : Nat} (h : Writing sb q src off n tot s u) (hop : u.op = some l)
    (htot : tot < n) (hheld : (u.eff sb q).blockAt sb (s.itable q).inum (off + tot) ≠ 0)
    (hm : m ≤ BSIZE - (off + tot) % BSIZE)
    (hend : tot + m = n ∨ (off + (tot + m)) % BSIZE = 0)
    (hread : ∀ j, j < m → (src (tot + j)).isSome) :
    Writing sb q src off n (tot + m) s
      (u.stored l ((u.eff sb q).blockAt sb (s.itable q).inum (off + tot))
        (copyin src tot m ((off + tot) % BSIZE))) := by
  have hpoked := stored_poked sb (l := l) h.inum (slotOf_ne ((off + tot) / BSIZE))
    (copyin src tot m ((off + tot) % BSIZE))
  have hstored := h.toWrote.store hheld hm hpoked (update_self ..)
  have hkept := hpoked.held h.intact
  refine ⟨hstored, (h.logs.mono fun b hb => hb.widen fun x _ => congrFun hkept x).trans
    ⟨⟨l, _, hop, rfl, fun b hb => ?_⟩, fun b hb => ?_⟩, fun j hj => ?_, fun x h0 h1 hout => ?_,
    hend.imp_right .inr⟩
  · rcases Finset.mem_insert.1 hb with rfl | hb
    · obtain ⟨hlo, hhi⟩ := block_le off htot
      refine .inr ⟨_, hlo, hhi, .inl ?_⟩
      rw [hkept]
      exact ⟨hheld, rfl⟩
    · exact .inl hb
  · by_cases hbe : b = (u.eff sb q).blockAt sb (s.itable q).inum (off + tot)
    · exact .logged (.inr hbe)
    · exact .logged (.inl (hb.setData hbe))
  · by_cases hlt : j < tot
    · exact h.read j hlt
    · have := hread (j - tot) (by omega)
      rwa [Nat.add_sub_cancel' (by omega)] at this
  · have hblock := congrFun hkept ((s.itable q).inum, slotOf (x / BSIZE))
    have hbyte := Written.byteAt_store h.intact hpoked.dip hpoked.data
      (update_self ..) (y := x) (fun hzero => h1 (hblock.trans hzero)) (by omega)
    refine hbyte.trans (h.zero x h0 (fun hzero => h1 (hblock.trans hzero)) (by omega))

end Writing

/-- Whether there are blocks for the bytes from `off` to `x`. -/
def Enough (sb : Superblock) (q : Ip) (s : St) (off x : Nat) : Prop :=
  (s.eff sb q).lacking sb (s.itable q).inum (off / BSIZE) (x / BSIZE) ≤ s.vol.spare sb

theorem writeiLoop_open {off n fuel tot : Nat} (hs : s.op = some l)
    (hlog : LogRoom sb q off n s l) (hd : (s.itable q).copy.type ≠ .free)
    (hmax : off + n ≤ MAXFILE * BSIZE) (htot : tot ≤ n) (hfuel : n - tot ≤ fuel)
    (h : Writing sb q src off n tot s t) :
    wp (writeiLoop sb q src n fuel tot (off + tot)) Never (fun r u => r.2 = off + r.1 ∧
      tot ≤ r.1 ∧ ∃ u₀, Writing sb q src off n r.1 s u₀ ∧
        Stopped sb q src off n r.1 (s.itable q).inum (Enough sb q t (off + tot) (off + r.1))
          u₀ u) t := by
  induction fuel generalizing tot t with
  | zero => exact ⟨rfl, le_rfl, t, h, .all (by omega)⟩
  | succ fuel ih =>
    rw [writeiLoop]
    split
    · rename_i hlt
      have htype : (t.itable q).copy.type ≠ .free := by rwa [h.type_eq]
      obtain ⟨l₁, hop⟩ := h.logs.opened
      have hbn : (off + tot) / BSIZE < MAXFILE := by
        rw [Nat.div_lt_iff_lt_mul (by decide)]
        omega
      have hmap : MapRoom sb q ((off + tot) / BSIZE) t := fun u l' hext hlogs =>
        hlog.not_full hs hext.intact (h.mapLogs hlt hext hlogs)
      refine wp_seq (bmap_open hop h.intact htype hbn hmap) ?_
      intro addr u hm
      have hu := h.map hlt hm
      split
      · rename_i hzero
        refine ⟨rfl, le_rfl, u, hu, .full hlt (hm.full hzero).1 (Nat.not_le.2 (hm.full hzero).2)⟩
      · rename_i hne
        obtain ⟨haddr, hspare⟩ := hm.found hne
        have hroom : Enough sb q t (off + tot) (off + tot) := by
          rw [Enough, hspare]
          exact Nat.le_add_left _ _
        rw [h.inum] at haddr
        subst haddr
        obtain ⟨l', hop'⟩ := hu.logs.opened
        obtain ⟨m, hmin, hm0, hmn, hmb, hend⟩ := round_spec (off + tot) hlt
        rw [Nat.add_assoc] at hend
        have hkm := copied_le src tot m
        obtain ⟨hreads, hstop⟩ := copied_spec src tot m
        simp only [hmin, wp_bind, setVol, wp_modify]
        split
        · -- `either_copyin` failed.
          rename_i hshort
          have hkb : copied src tot m < BSIZE - (off + tot) % BSIZE := by omega
          have hkn : tot + copied src tot m < n := by omega
          refine ⟨rfl, le_rfl, u, hu, .torn _ hkn (hstop hshort) (fun j hj => ?_) hkb hne hroom⟩
          by_cases hjt : j < tot
          · exact h.read j hjt
          · have := hreads (j - tot) (by omega)
            rwa [Nat.add_sub_cancel' (by omega)] at this
        · rename_i hlong
          have hk : copied src tot m = m := by omega
          rw [hk] at hreads ⊢
          refine wp_bind.2 (wp_logWrite_open hop' (hlog.not_full hs hu.intact hu.logs hop') ?_)
          have hstored := hu.store hop' hlt hne hmb (hend.imp_right And.left) hreads
          have hrest := ih (by omega) (by omega) hstored
          rw [← Nat.add_assoc] at hrest
          refine wp_post hrest ?_
          rintro r x ⟨hr, hle, u₀, hu₀, hstopped⟩
          refine ⟨hr, by omega, u₀, hu₀, hstopped.congr fun hrn => ?_⟩
          -- The blocks that are still lacking are fewer by those just taken.
          have hnext := (hend.resolve_left (by omega)).2
          have hblock : (off + tot) / BSIZE ≤ (off + r.1) / BSIZE :=
            Nat.div_le_div_right (by omega)
          have hkept := (stored_poked sb (l := l') hu.inum (slotOf_ne ((off + tot) / BSIZE))
            (copyin src tot m ((off + tot) % BSIZE))).held hu.intact
          have hstep := lacking_step sb hblock hm.kept (by rw [h.inum]; exact hne)
          have hlack : ((u.stored l' ((u.eff sb q).blockAt sb (s.itable q).inum (off + tot))
              (copyin src tot m ((off + tot) % BSIZE))).eff sb q).lacking sb
                (t.itable q).inum ((off + tot) / BSIZE + 1) ((off + r.1) / BSIZE) =
              (u.eff sb q).lacking sb (t.itable q).inum ((off + tot) / BSIZE + 1)
                ((off + r.1) / BSIZE) := lacking_congr hkept
          rw [Enough, Enough, hstep, hspare, Nat.add_le_add_iff_right, ← hlack,
            Nat.add_assoc, hnext]
          rw [show ((u.stored l' _ _).itable q).inum = (t.itable q).inum from
            hu.inum.trans h.inum.symm]
          rfl
    · exact ⟨rfl, le_rfl, t, h, .all (by omega)⟩

/-! ## `writei` -/

/-- The state after `writei` has given the inode at least size `m` and written it back. -/
def St.sized (u : St) (sb : Superblock) (q : Ip) (l : Finset Nat) (m : Nat) : St :=
  u.put q ((u.vol.setDip sb (u.itable q).inum { (u.itable q).copy with
      size := max (u.itable q).copy.size m }).logged (IBLOCK sb (u.itable q).inum))
    (some (insert (IBLOCK sb (u.itable q).inum) l))
    { (u.itable q).copy with size := max (u.itable q).copy.size m }

/-- `writei` of `n` bytes at `off` is not refused. -/
def Allowed (d : Dinode) (off n : Nat) : Prop :=
  off ≤ d.size ∧ off + n ≤ MAXFILE * BSIZE

theorem wp_iupdate_open {E : Panic → Prop} {Q : Unit → St → Prop} (h : s.op = some l)
    (hroom : ¬ LogFull sb l) (hQ : Q () { s with
      vol := (s.vol.setDip sb (s.itable q).inum (s.itable q).copy).logged
        (IBLOCK sb (s.itable q).inum)
      op := some (insert (IBLOCK sb (s.itable q).inum) l) }) : wp (iupdate sb q) E Q s := by
  unfold iupdate
  simp only [wp_bind, wp_gets, setVol, wp_modify]
  exact wp_logWrite_open h hroom hQ

theorem writei_open (src : Nat → Option UInt8) {off n : Nat} (h : s.op = some l)
    (hv : (s.eff sb q).Intact sb) (hd : (s.itable q).copy.type ≠ .free) (hn : n < 2 ^ 32)
    (hroom : Allowed (s.itable q).copy off n → LogRoom sb q off n s l) :
    wp (writei sb q src off n) Never (fun r t =>
      ¬ Allowed (s.itable q).copy off n ∧ r = -1 ∧ t = s ∨
      Allowed (s.itable q).copy off n ∧ ∃ (tot : Nat) (l' : Finset Nat) (u₀ u : St), r = tot ∧
        Writing sb q src off n tot s u₀ ∧
        Stopped sb q src off n tot (s.itable q).inum (Enough sb q s off (off + tot)) u₀ u ∧
        u₀.op = some l' ∧ t = u.sized sb q l' (off + tot)) s := by
  unfold writei
  rw [wp_bind, wp_gets]
  split
  · rename_i hbad
    refine .inl ⟨fun hok => ?_, rfl, rfl⟩
    have hmax : MAXFILE * BSIZE < 2 ^ 32 := by decide
    rcases hbad with hbad | hbad
    · exact absurd hok.1 (Nat.not_le.2 hbad)
    · rw [Nat.mod_eq_of_lt (hok.2.trans_lt hmax)] at hbad
      omega
  · rename_i hgood
    split
    · rename_i hbig
      exact .inl ⟨fun hok => absurd hok.2 (Nat.not_le.2 hbig), rfl, rfl⟩
    · rename_i hfits
      have hok : Allowed (s.itable q).copy off n := ⟨by omega, by omega⟩
      have hstart : Writing sb q src off n 0 s s := .refl h hv
      have hloop := writeiLoop_open h (hroom hok) hd hok.2 (Nat.zero_le n) le_rfl hstart
      refine wp_seq hloop ?_
      rintro ⟨tot, pos⟩ u ⟨hr, -, u₀, hw, hstopped⟩
      simp only at hr
      subst hr
      obtain ⟨l', hop⟩ := hw.logs.opened
      have hop' : u.op = some l' := by
        cases hstopped <;> exact hop
      have hcopy : (if off + tot > (u.itable q).copy.size then
          { (u.itable q).copy with size := off + tot } else (u.itable q).copy) =
            { (u.itable q).copy with size := max (u.itable q).copy.size (off + tot) } := by
        split
        · rw [Nat.max_eq_right (by omega)]
        · rw [Nat.max_eq_left (by omega)]
      simp only [wp_bind, setCopy, setInode, wp_modify]
      refine wp_iupdate_open hop' ((hroom hok).not_full h hw.intact hw.logs hop) ?_
      rw [wp_pure]
      refine .inr ⟨hok, tot, l', u₀, u, rfl, hw, hstopped, hop, ?_⟩
      simp only [St.sized, St.put, update_self, hcopy]

theorem Writing.done {off n tot : Nat} (h : Writing sb q src off n tot s t)
    (hd : (s.itable q).copy.type ≠ .free) (hoff : off ≤ (s.itable q).copy.size) (l : Finset Nat) :
    Done sb q src off tot tot s (t.sized sb q l (off + tot)) := by
  have hdone := h.toWrote.done (k := 0) (b := IBLOCK sb (s.itable q).inum)
    (o := some (insert (IBLOCK sb (s.itable q).inum) l)) hd hoff (Nat.le_refl tot)
    fun _ => ⟨rfl, .inl rfl⟩
  rw [St.sized, h.inum, h.size]
  exact hdone

end Xv6.Fs
