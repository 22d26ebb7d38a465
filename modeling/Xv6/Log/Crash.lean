import Xv6.Log.Commit

/-!
# Crash — the log is atomic across crashes

`commit` is cut off after any number of its disk writes, the machine reboots any number of times
with each recovery cut off as well, and one last recovery completes.  The disk then shows all of
the transaction or nothing of it.

The argument follows one disk through three kinds of states: `Clean` before the header write,
`Committed` between the two header writes, and `Clean` again afterwards, with the new contents.
`commit` walks through them in this order and every recovery, partial or not, only moves forward.
-/

namespace Xv6.Log

open Lib
open Function (update update_of_ne)

/-! ## Crashes -/

/-- The disk after a boot that is cut off after `k` writes of its recovery. -/
def bootCut (L : LogArea) (k : Nat) (d : Disk) : Option Disk :=
  (recoverFromLog L (Cache.fresh d)).map fun c => applyWrites d (c.out.take k)

/-- The disk after a boot whose recovery completes. -/
def boot (L : LogArea) (d : Disk) : Option Disk :=
  (recoverFromLog L (Cache.fresh d)).map fun c => applyWrites d c.out

/-- One interrupted boot for each entry of the list. -/
def bootsCut (L : LogArea) : List Nat → Disk → Option Disk
  | [], d => some d
  | k :: ks, d => (bootCut L k d).bind (bootsCut L ks)

/-- The home blocks once the blocks in `lh` carry the contents `v`. -/
def installed (lh : List BlockNo) (v d : BlockNo → Block) : BlockNo → Block := fun b =>
  if b ∈ lh then v b else d b

/-! ## Reading back a header block -/

theorem word_setHead_zero (buf : Block) (lh : List BlockNo) :
    word (setHead buf lh) 0 = UInt32.ofNat lh.length := by
  simp [word, setHead]

theorem word_setHead_succ {buf : Block} {lh : List BlockNo} {i : Nat}
    (hi : i < lh.length) (hfits : lh.length ≤ LOGSIZE) :
    word (setHead buf lh) (i + 1) = lh[i] := by
  have hmod : (i + 1) % (BSIZE / 4) = i + 1 := by
    apply Nat.mod_eq_of_lt
    simp only [LOGSIZE, MAXOPBLOCKS, BSIZE] at hfits ⊢
    omega
  simp [word, setHead, hmod, hi]

theorem headCount_setHead (buf : Block) {lh : List BlockNo} (hfits : lh.length ≤ LOGSIZE) :
    headCount (setHead buf lh) = lh.length := by
  have hlt : lh.length < 2 ^ 31 := by
    simp only [LOGSIZE, MAXOPBLOCKS] at hfits
    omega
  unfold headCount
  rw [word_setHead_zero, UInt32.toInt32_ofNat']
  exact Int32.toInt_ofNat_of_lt hlt

theorem headCount_setHead_nil (buf : Block) : headCount (setHead buf []) = 0 := by
  simpa using headCount_setHead buf (show ([] : List BlockNo).length ≤ LOGSIZE by simp)

theorem readHead_setHead (buf : Block) (lh : Logheader) :
    readHead (setHead buf lh.block) = some lh := by
  have hcount := headCount_setHead buf lh.fits
  have hwords : ((List.range lh.block.length).map fun i => word (setHead buf lh.block) (i + 1)) =
        lh.block := by
    apply List.ext_getElem
    · simp
    · intro i h₁ h₂
      simpa using word_setHead_succ h₂ lh.fits
  cases lh with
  | mk block fits =>
    simp only [readHead, hcount, Int.toNat_natCast, fits, dif_pos]
    simpa using hwords

theorem readHead_of_headCount_zero {buf : Block} (h : headCount buf = 0) :
    readHead buf = some { block := [], fits := Nat.zero_le _ } := by
  simp [readHead, h]

/-! ## What the two loops write -/

/-- The log blocks from index `tail` on hold the contents `v` of the blocks `bs`. -/
def LogHolds (L : LogArea) (tail : Nat) (bs : List BlockNo) (v d : BlockNo → Block) : Prop :=
  ∀ i b, bs[i]? = some b → d (L.block (tail + i + 1)) = v b

theorem LogHolds.tail {L : LogArea} {tail : Nat} {b : BlockNo} {bs : List BlockNo}
    {v d : BlockNo → Block} (h : LogHolds L tail (b :: bs) v d) :
    LogHolds L (tail + 1) bs v d := by
  intro i b' hb'
  have hidx : tail + 1 + i + 1 = tail + (i + 1) + 1 := by omega
  simpa [hidx] using h (i + 1) b' (by simpa using hb')

/-- The header block is not one of the log's data blocks. -/
theorem LogHolds.writeHead {L : LogArea} {bs : List BlockNo} {v data : BlockNo → Block}
    (h : LogHolds L 0 bs v data) (hroom : bs.length < L.size) (x : Block) :
    LogHolds L 0 bs v (update data (L.block 0) x) := by
  intro i b hb
  have hi : i < bs.length := (List.getElem?_eq_some_iff.1 hb).1
  have hne : L.block (0 + i + 1) ≠ L.block 0 := by
    intro heq
    have hEq := L.block_inj (by omega) (by omega) heq
    omega
  rw [update_of_ne hne]
  exact h i b hb

/-- `write_log`'s disk writes: one per log block, in order. -/
def logWrites (L : LogArea) (v : BlockNo → Block) : Nat → List BlockNo → List (BlockNo × Block)
  | _, [] => []
  | tail, b :: bs => (L.block (tail + 1), v b) :: logWrites L v (tail + 1) bs

theorem length_logWrites (L : LogArea) (v : BlockNo → Block) (tail : Nat) (bs : List BlockNo) :
    (logWrites L v tail bs).length = bs.length := by
  induction bs generalizing tail with
  | nil => rfl
  | cons b bs ih => simp [logWrites, ih]

theorem mem_logWrites {L : LogArea} {v : BlockNo → Block} {tail : Nat} {bs : List BlockNo}
    {w : BlockNo × Block} (h : w ∈ logWrites L v tail bs) :
    ∃ i b, bs[i]? = some b ∧ w = (L.block (tail + i + 1), v b) := by
  induction bs generalizing tail with
  | nil => simp [logWrites] at h
  | cons b bs ih =>
    rcases List.mem_cons.1 h with hhead | htail
    · exact ⟨0, b, by simp, hhead⟩
    · rcases ih htail with ⟨i, b', hb', hw⟩
      refine ⟨i + 1, b', by simpa using hb', ?_⟩
      have hidx : tail + 1 + i + 1 = tail + (i + 1) + 1 := by omega
      simpa [hidx] using hw

/-- `write_log` issues `logWrites`, leaves the home blocks in the cache alone and puts their
contents into the cached log blocks. -/
theorem writeLogFrom_spec {L : LogArea} {tail : Nat} {bs : List BlockNo} {c : Cache}
    (hout : ∀ b ∈ bs, ¬ L.Mem b) (hroom : tail + bs.length < L.size) :
    (writeLogFrom L tail bs c).out = c.out ++ logWrites L c.data tail bs ∧
      (∀ b, ¬ L.Mem b → (writeLogFrom L tail bs c).data b = c.data b) ∧
      (∀ i, i ≤ tail → (writeLogFrom L tail bs c).data (L.block i) = c.data (L.block i)) ∧
      LogHolds L tail bs c.data (writeLogFrom L tail bs c).data := by
  induction bs generalizing tail c with
  | nil =>
    refine ⟨by simp [writeLogFrom, logWrites], fun _ _ => rfl, fun _ _ => rfl, ?_⟩
    intro i b hb
    simp at hb
  | cons b bs ih =>
    have hroom' : tail + 1 + bs.length < L.size := by
      simp only [List.length_cons] at hroom
      omega
    let c' := (c.memmove (L.block (tail + 1)) b).bwrite (L.block (tail + 1))
    have hlog : L.Mem (L.block (tail + 1)) := L.mem_block (by omega)
    have hhome : ∀ x, ¬ L.Mem x → c'.data x = c.data x := by
      intro x hx
      have hne : x ≠ L.block (tail + 1) := fun heq => hx (heq ▸ hlog)
      simp [c', Cache.memmove, Cache.bwrite, update_of_ne hne]
    have hself : c'.data (L.block (tail + 1)) = c.data b := by
      simp [c', Cache.memmove, Cache.bwrite]
    rcases ih (c := c') (fun x hx => hout x (by simp [hx])) hroom' with
      ⟨hw, hdata, hlow, hholds⟩
    -- The remaining blocks are home blocks, so the copy into the log block hides none of them.
    have hview : logWrites L c'.data (tail + 1) bs = logWrites L c.data (tail + 1) bs := by
      have hgen : ∀ (t : Nat) (l : List BlockNo), (∀ x ∈ l, ¬ L.Mem x) →
          logWrites L c'.data t l = logWrites L c.data t l := by
        intro t l
        induction l generalizing t with
        | nil => intro _; rfl
        | cons x l ihl =>
          intro hl
          simp [logWrites, hhome x (hl x (by simp)), ihl (t + 1) (fun y hy => hl y (by simp [hy]))]
      exact hgen _ _ (fun x hx => hout x (by simp [hx]))
    refine ⟨?_, ?_, ?_, ?_⟩
    · have hc' : c'.out = c.out ++ [(L.block (tail + 1), c.data b)] := by
        simp [c', Cache.memmove, Cache.bwrite]
      simpa [writeLogFrom, logWrites, hview, hc'] using hw
    · intro x hx
      exact (hdata x hx).trans (hhome x hx)
    · intro i hi
      have hne : L.block i ≠ L.block (tail + 1) := by
        intro heq
        have hEq := L.block_inj (by omega) (by omega) heq
        omega
      have hkeep : c'.data (L.block i) = c.data (L.block i) := by
        simp [c', Cache.memmove, Cache.bwrite, update_of_ne hne]
      exact (hlow i (by omega)).trans hkeep
    · intro i x hx
      cases i with
      | zero =>
        have hbx : b = x := by simpa using hx
        subst hbx
        exact (hlow (tail + 1) (Nat.le_refl _)).trans hself
      | succ i =>
        have hx' : bs[i]? = some x := by simpa using hx
        have hidx : tail + (i + 1) + 1 = tail + 1 + i + 1 := by omega
        have hmem : x ∈ b :: bs := List.mem_cons_of_mem _ (List.mem_of_getElem? hx')
        rw [hidx]
        exact (hholds i x hx').trans (hhome x (hout x hmem))

/-- `install_trans` writes every logged block home with the contents its log block holds. -/
theorem installTransFrom_spec {L : LogArea} {tail : Nat} {bs : List BlockNo} {c : Cache}
    {v : BlockNo → Block} (hout : ∀ b ∈ bs, ¬ L.Mem b) (hroom : tail + bs.length < L.size)
    (hholds : LogHolds L tail bs v c.data) :
    (installTransFrom L tail bs c).out = c.out ++ bs.map fun b => (b, v b) := by
  induction bs generalizing tail c with
  | nil => simp [installTransFrom]
  | cons b bs ih =>
    have hroom' : tail + 1 + bs.length < L.size := by
      simp only [List.length_cons] at hroom
      omega
    let c' := (c.memmove b (L.block (tail + 1))).bwrite b
    have hnew : c.data (L.block (tail + 1)) = v b := hholds 0 b (by simp)
    -- Installing `b` changes no log block, because `b` lies outside the log.
    have hkeep : LogHolds L (tail + 1) bs v c'.data := by
      intro i x hx
      have hi : i < bs.length := (List.getElem?_eq_some_iff.1 hx).1
      have hlog : L.Mem (L.block (tail + 1 + i + 1)) := L.mem_block (by omega)
      have hne : L.block (tail + 1 + i + 1) ≠ b := by
        intro heq
        exact hout b (by simp) (heq ▸ hlog)
      simpa [c', Cache.memmove, Cache.bwrite, update_of_ne hne] using hholds.tail i x hx
    have hc' : c'.out = c.out ++ [(b, v b)] := by
      simp [c', Cache.memmove, Cache.bwrite, hnew]
    simpa [installTransFrom, hc'] using
      ih (c := c') (fun x hx => hout x (by simp [hx])) hroom' hkeep

/-! ## The states of the disk -/

/-- The on-disk log is empty and the home blocks are those of `home`. -/
structure Clean (L : LogArea) (home d : BlockNo → Block) : Prop where
  head : headCount (d (L.block 0)) = 0
  agree : ∀ b, ¬ L.Mem b → d b = home b

/-- The header names the blocks of `lh` and their log blocks hold `v`; each of them is at home
either still the block of `d₀` or already installed, and no other home block has changed. -/
structure Committed (L : LogArea) (lh : Logheader) (v d₀ d : BlockNo → Block) : Prop where
  head : readHead (d (L.block 0)) = some lh
  holds : LogHolds L 0 lh.block v d
  agree : ∀ b, ¬ L.Mem b → d b = d₀ b ∨ (b ∈ lh.block ∧ d b = v b)

section Transitions

variable {L : LogArea} {lh : Logheader} {v d₀ d : BlockNo → Block}

theorem logWrites_ne_header (hroom : lh.block.length < L.size) {w : BlockNo × Block}
    (hw : w ∈ logWrites L v 0 lh.block) : w.1 ≠ L.block 0 := by
  rcases mem_logWrites hw with ⟨i, b, hb, rfl⟩
  have hi : i < lh.block.length := (List.getElem?_eq_some_iff.1 hb).1
  intro heq
  have hEq := L.block_inj (by omega) (by omega) heq
  omega

theorem logWrites_mem (hroom : lh.block.length < L.size) {w : BlockNo × Block}
    (hw : w ∈ logWrites L v 0 lh.block) : L.Mem w.1 := by
  rcases mem_logWrites hw with ⟨i, b, hb, rfl⟩
  have hi : i < lh.block.length := (List.getElem?_eq_some_iff.1 hb).1
  exact L.mem_block (by omega)

theorem Clean.logWrites (hclean : Clean L d₀ d) (hroom : lh.block.length < L.size) (k : Nat) :
    Clean L d₀ (applyWrites d ((logWrites L v 0 lh.block).take k)) where
  head := by
    rw [applyWrites_of_notMem]
    · exact hclean.head
    · intro w hw
      exact logWrites_ne_header hroom (List.mem_of_mem_take hw)
  agree := by
    intro b hb
    rw [applyWrites_of_notMem]
    · exact hclean.agree b hb
    · intro w hw heq
      exact hb (heq ▸ logWrites_mem hroom (List.mem_of_mem_take hw))

theorem nodup_logWrites {tail : Nat} {bs : List BlockNo} (hroom : tail + bs.length < L.size) :
    ((Log.logWrites L v tail bs).map Prod.fst).Nodup := by
  induction bs generalizing tail with
  | nil => simp [Log.logWrites]
  | cons b bs ih =>
    have hroom' : tail + 1 + bs.length < L.size := by
      simp only [List.length_cons] at hroom
      omega
    simp only [Log.logWrites, List.map_cons, List.nodup_cons]
    refine ⟨?_, ih hroom'⟩
    intro hmem
    rcases List.mem_map.1 hmem with ⟨w, hw, hEq⟩
    rcases mem_logWrites hw with ⟨i, x, hx, rfl⟩
    have hi : i < bs.length := (List.getElem?_eq_some_iff.1 hx).1
    have hidx := L.block_inj (by omega) (by omega) hEq
    omega

theorem mem_logWrites_of_getElem? {tail i : Nat} {bs : List BlockNo} {b : BlockNo}
    (h : bs[i]? = some b) : (L.block (tail + i + 1), v b) ∈ Log.logWrites L v tail bs := by
  induction bs generalizing tail i with
  | nil => simp at h
  | cons x bs ih =>
    cases i with
    | zero =>
      have hx : x = b := by simpa using h
      simp [Log.logWrites, hx]
    | succ i =>
      have hidx : tail + (i + 1) + 1 = tail + 1 + i + 1 := by omega
      rw [hidx]
      exact List.mem_cons_of_mem _ (ih (by simpa using h))

theorem logHolds_logWrites (hroom : lh.block.length < L.size) :
    LogHolds L 0 lh.block v (applyWrites d (Log.logWrites L v 0 lh.block)) := by
  intro i b hb
  exact applyWrites_of_mem (nodup_logWrites (by omega)) (mem_logWrites_of_getElem? hb)

/-- The header write is the point at which the transaction commits. -/
theorem Clean.writeHead (hclean : Clean L d₀ d) (hroom : lh.block.length < L.size)
    (hholds : LogHolds L 0 lh.block v d) (buf : Block) :
    Committed L lh v d₀ (update d (L.block 0) (setHead buf lh.block)) where
  head := by simpa using readHead_setHead buf lh
  holds := hholds.writeHead hroom _
  agree := by
    intro b hb
    have hne : b ≠ L.block 0 := by
      intro heq
      exact hb (heq ▸ L.mem_block (by omega))
    left
    rw [update_of_ne hne]
    exact hclean.agree b hb

/-- Any part of `install_trans` keeps a committed transaction committed. -/
theorem Committed.installed (hcom : Committed L lh v d₀ d) (hroom : lh.block.length < L.size)
    (hout : ∀ b ∈ lh.block, ¬ L.Mem b) (k : Nat) :
    Committed L lh v d₀ (applyWrites d ((lh.block.map fun b => (b, v b)).take k)) := by
  have hmem : ∀ w ∈ (lh.block.map fun b => (b, v b)).take k, w.1 ∈ lh.block ∧ w.2 = v w.1 := by
    intro w hw
    rcases List.mem_map.1 (List.mem_of_mem_take hw) with ⟨b, hb, rfl⟩
    exact ⟨hb, rfl⟩
  have hlog : ∀ b, L.Mem b → applyWrites d ((lh.block.map fun b => (b, v b)).take k) b = d b := by
    intro b hb
    apply applyWrites_of_notMem
    intro w hw heq
    exact hout w.1 (hmem w hw).1 (heq ▸ hb)
  refine ⟨?_, ?_, ?_⟩
  · rw [hlog _ (L.mem_block (by omega))]
    exact hcom.head
  · intro i b hb
    have hi : i < lh.block.length := (List.getElem?_eq_some_iff.1 hb).1
    rw [hlog _ (L.mem_block (by omega))]
    exact hcom.holds i b hb
  · intro b hb
    rcases applyWrites_eq_or_mem d ((lh.block.map fun b => (b, v b)).take k) b with hold | hnew
    · rw [hold]
      exact hcom.agree b hb
    · exact .inr (hmem _ hnew)

/-- All of `install_trans` and the second header write end the transaction. -/
theorem Committed.clear (hcom : Committed L lh v d₀ d) (hroom : lh.block.length < L.size)
    (hnodup : lh.block.Nodup) (buf : Block) :
    Clean L (Log.installed lh.block v d₀)
      (applyWrites d ((lh.block.map fun b => (b, v b)) ++ [(L.block 0, setHead buf [])])) := by
  have hkeys : ((lh.block.map fun b => (b, v b)).map Prod.fst).Nodup := by
    simpa [Function.comp_def] using hnodup
  refine ⟨?_, ?_⟩
  · rw [applyWrites_append]
    simpa using headCount_setHead_nil buf
  · intro b hb
    have hne : b ≠ L.block 0 := by
      intro heq
      exact hb (heq ▸ L.mem_block (by omega))
    rw [applyWrites_append, applyWrites_cons, applyWrites_nil, update_of_ne hne]
    by_cases hmem : b ∈ lh.block
    · have hw : (b, v b) ∈ lh.block.map fun b => (b, v b) := List.mem_map.2 ⟨b, hmem, rfl⟩
      simpa [Log.installed, hmem] using applyWrites_of_mem hkeys hw
    · have hnot : ∀ w ∈ lh.block.map (fun b => (b, v b)), w.1 ≠ b := by
        intro w hw heq
        rcases List.mem_map.1 hw with ⟨x, hx, rfl⟩
        exact hmem (heq ▸ hx)
      rw [applyWrites_of_notMem hnot]
      rcases hcom.agree b hb with hold | hnew
      · simpa [Log.installed, hmem] using hold
      · exact absurd hnew.1 hmem

/-- A committed transaction that is installed and cleared up to any point is still committed, or
it is finished. -/
theorem Committed.installCut (hcom : Committed L lh v d₀ d) (hroom : lh.block.length < L.size)
    (hnodup : lh.block.Nodup) (hout : ∀ b ∈ lh.block, ¬ L.Mem b) (buf : Block) (k : Nat) :
    Committed L lh v d₀ (applyWrites d
          (((lh.block.map fun b => (b, v b)) ++ [(L.block 0, setHead buf [])]).take k)) ∨
      Clean L (Log.installed lh.block v d₀) (applyWrites d
          (((lh.block.map fun b => (b, v b)) ++ [(L.block 0, setHead buf [])]).take k)) := by
  by_cases hk : k ≤ lh.block.length
  · left
    rw [List.take_append_of_le_length (by simpa using hk)]
    exact hcom.installed hroom hout k
  · right
    rw [List.take_of_length_le (by simp; omega)]
    exact hcom.clear hroom hnodup buf

/-! ## Recovery -/

/-- The transaction is committed, or already installed and cleared. -/
def Durable (L : LogArea) (lh : Logheader) (v d₀ d : BlockNo → Block) : Prop :=
  Committed L lh v d₀ d ∨ Clean L (Log.installed lh.block v d₀) d

theorem writeHead_out (L : LogArea) (lh : List BlockNo) (c : Cache) :
    (writeHead L lh c).out = c.out ++ [(L.block 0, setHead (c.data (L.block 0)) lh)] := by
  simp [Log.writeHead, Cache.bwrite]

/-- On a clean disk recovery only writes the empty header again. -/
theorem Clean.recover {home : BlockNo → Block} (hclean : Clean L home d) :
    ∃ c buf, recoverFromLog L (Cache.fresh d) = some c ∧ c.out = [(L.block 0, setHead buf [])] := by
  have hread := readHead_of_headCount_zero hclean.head
  have hrec : recoverFromLog L (Cache.fresh d) = some (Log.writeHead L [] (Cache.fresh d)) := by
    simp [recoverFromLog, Cache.fresh, hread, installTrans, installTransFrom]
  exact ⟨_, d (L.block 0), hrec, by simp [writeHead_out, Cache.fresh]⟩

/-- On a committed disk recovery installs every logged block and clears the header. -/
theorem Committed.recover (hcom : Committed L lh v d₀ d) (hroom : lh.block.length < L.size)
    (hout : ∀ b ∈ lh.block, ¬ L.Mem b) :
    ∃ c buf, recoverFromLog L (Cache.fresh d) = some c ∧
      c.out = (lh.block.map fun b => (b, v b)) ++ [(L.block 0, setHead buf [])] := by
  have hinst := installTransFrom_spec (c := Cache.fresh d) hout (by omega) hcom.holds
  let c := installTrans L lh.block (Cache.fresh d)
  have hrec : recoverFromLog L (Cache.fresh d) = some (Log.writeHead L [] c) := by
    simp [recoverFromLog, Cache.fresh, hcom.head, c]
  have hc : c.out = lh.block.map fun b => (b, v b) := by
    simpa [c, installTrans, Cache.fresh] using hinst
  exact ⟨_, c.data (L.block 0), hrec, by rw [writeHead_out, hc]⟩

theorem Clean.clearHead {home : BlockNo → Block} (hclean : Clean L home d) (hsize : 0 < L.size)
    (buf : Block) (k : Nat) :
    Clean L home (applyWrites d ([(L.block 0, setHead buf [])].take k)) := by
  cases k with
  | zero => simpa using hclean
  | succ k =>
    refine ⟨by simpa using headCount_setHead_nil buf, ?_⟩
    intro b hb
    have hne : b ≠ L.block 0 := by
      intro heq
      exact hb (heq ▸ L.mem_block hsize)
    simpa [update_of_ne hne] using hclean.agree b hb

theorem Clean.bootsCut {home : BlockNo → Block} (hclean : Clean L home d) (hsize : 0 < L.size)
    (ks : List Nat) : ∃ d', Log.bootsCut L ks d = some d' ∧ Clean L home d' := by
  induction ks generalizing d with
  | nil => exact ⟨d, rfl, hclean⟩
  | cons k ks ih =>
    rcases hclean.recover with ⟨c, buf, hrec, hw⟩
    rcases ih (hclean.clearHead hsize buf k) with ⟨d', hd', hclean'⟩
    refine ⟨d', ?_, hclean'⟩
    simpa [Log.bootsCut, bootCut, hrec, hw] using hd'

theorem Clean.boot {home : BlockNo → Block} (hclean : Clean L home d) (hsize : 0 < L.size) :
    ∃ d', Log.boot L d = some d' ∧ Clean L home d' := by
  rcases hclean.recover with ⟨c, buf, hrec, hw⟩
  refine ⟨_, by simp [Log.boot, hrec]; rfl, ?_⟩
  simpa [hw] using hclean.clearHead hsize buf 1

theorem Durable.bootsCut (hdur : Durable L lh v d₀ d) (hroom : lh.block.length < L.size)
    (hnodup : lh.block.Nodup) (hout : ∀ b ∈ lh.block, ¬ L.Mem b) (ks : List Nat) :
    ∃ d', Log.bootsCut L ks d = some d' ∧ Durable L lh v d₀ d' := by
  induction ks generalizing d with
  | nil => exact ⟨d, rfl, hdur⟩
  | cons k ks ih =>
    rcases hdur with hcom | hclean
    · rcases hcom.recover hroom hout with ⟨c, buf, hrec, hw⟩
      rcases ih (hcom.installCut hroom hnodup hout buf k) with ⟨d', hd', hdur'⟩
      refine ⟨d', ?_, hdur'⟩
      simpa [Log.bootsCut, bootCut, hrec, hw] using hd'
    · rcases hclean.bootsCut (by omega) (k :: ks) with ⟨d', hd', hclean'⟩
      exact ⟨d', hd', .inr hclean'⟩

theorem Durable.boot (hdur : Durable L lh v d₀ d) (hroom : lh.block.length < L.size)
    (hnodup : lh.block.Nodup) (hout : ∀ b ∈ lh.block, ¬ L.Mem b) :
    ∃ d', Log.boot L d = some d' ∧ Clean L (Log.installed lh.block v d₀) d' := by
  rcases hdur with hcom | hclean
  · rcases hcom.recover hroom hout with ⟨c, buf, hrec, hw⟩
    refine ⟨_, by simp [Log.boot, hrec]; rfl, ?_⟩
    simpa [hw] using hcom.clear hroom hnodup buf
  · exact hclean.boot (by omega)

/-! ## Commit -/

/-- The writes of `commit`, in order: log blocks, header, home blocks, cleared header. -/
theorem commit_out (hroom : lh.block.length < L.size) (hout : ∀ b ∈ lh.block, ¬ L.Mem b)
    (hpos : 0 < lh.block.length) :
    ∃ buf₁ buf₂, (commit L lh { data := v, out := [] }).out =
      Log.logWrites L v 0 lh.block ++ (L.block 0, setHead buf₁ lh.block) ::
        ((lh.block.map fun b => (b, v b)) ++ [(L.block 0, setHead buf₂ [])]) := by
  let c : Cache := { data := v, out := [] }
  let c₁ := writeLog L lh.block c
  let c₂ := Log.writeHead L lh.block c₁
  have hroom' : 0 + lh.block.length < L.size := by omega
  rcases writeLogFrom_spec (c := c) hout hroom' with ⟨hlog, _, _, hholds⟩
  have hlog₁ : c₁.out = Log.logWrites L v 0 lh.block := by
    simpa [c₁, c, writeLog] using hlog
  have hout₂ : c₂.out = c₁.out ++ [(L.block 0, setHead (c₁.data (L.block 0)) lh.block)] :=
    writeHead_out L lh.block c₁
  have hholds₂ : LogHolds L 0 lh.block v c₂.data := hholds.writeHead hroom _
  have hinst := installTransFrom_spec (c := c₂) hout hroom' hholds₂
  refine ⟨c₁.data (L.block 0), (installTrans L lh.block c₂).data (L.block 0), ?_⟩
  have hcommit : commit L lh c = Log.writeHead L [] (installTrans L lh.block c₂) := by
    simp [commit, hpos, c₂, c₁]
  rw [hcommit, writeHead_out, installTrans, hinst, hout₂, hlog₁]
  simp

/-- The disk after any part of `commit`: still clean before the first header write, durable from
then on. -/
theorem commit_cut (hclean : Clean L d₀ d₀) (hroom : lh.block.length < L.size)
    (hnodup : lh.block.Nodup) (hout : ∀ b ∈ lh.block, ¬ L.Mem b) (hpos : 0 < lh.block.length)
    (k : Nat) :
    (k ≤ lh.block.length ∧
        Clean L d₀ (applyWrites d₀ ((commit L lh { data := v, out := [] }).out.take k))) ∨
      (lh.block.length + 1 ≤ k ∧
        Durable L lh v d₀
          (applyWrites d₀ ((commit L lh { data := v, out := [] }).out.take k))) := by
  rcases commit_out (v := v) hroom hout hpos with ⟨buf₁, buf₂, hw⟩
  have hlen := length_logWrites L v 0 lh.block
  rw [hw]
  by_cases hk : k ≤ lh.block.length
  · left
    refine ⟨hk, ?_⟩
    rw [List.take_append_of_le_length (by omega)]
    exact hclean.logWrites hroom k
  · right
    refine ⟨by omega, ?_⟩
    obtain ⟨j, rfl⟩ : ∃ j, k = (Log.logWrites L v 0 lh.block).length + (j + 1) :=
      ⟨k - lh.block.length - 1, by omega⟩
    rw [List.take_length_add_append, List.take_succ_cons, applyWrites_append, applyWrites_cons]
    have hlogged := hclean.logWrites (v := v) hroom (Log.logWrites L v 0 lh.block).length
    rw [List.take_length] at hlogged
    have hcom := hlogged.writeHead hroom (logHolds_logWrites hroom) buf₁
    exact hcom.installCut hroom hnodup hout buf₂ j

end Transitions

/-! ## Crash atomicity -/

/-- Cut `commit` off after `k` disk writes, cut any number of recoveries off after any number of
theirs, and let one recovery complete: outside the log the disk is the one before the transaction
or the one with all logged blocks replaced, the latter as soon as the header was written, and the
on-disk log is empty. -/
theorem commit_crash_atomic (L : LogArea) (lh : Logheader) (d v : BlockNo → Block)
    (hempty : headCount (d (L.block 0)) = 0) (hroom : lh.block.length ≤ L.size - 1)
    (hsize : 0 < L.size) (hnodup : lh.block.Nodup) (hout : ∀ b ∈ lh.block, ¬ L.Mem b)
    (k : Nat) (ks : List Nat) :
    ∃ d', (bootsCut L ks (applyWrites d ((commit L lh { data := v, out := [] }).out.take k))).bind
        (boot L) = some d' ∧
      ((∀ b, ¬ L.Mem b → d' b = d b) ∨
        (∀ b, ¬ L.Mem b → d' b = if b ∈ lh.block then v b else d b)) ∧
      (lh.block.length + 1 ≤ k → ∀ b, ¬ L.Mem b → d' b = if b ∈ lh.block then v b else d b) ∧
      headCount (d' (L.block 0)) = 0 := by
  have hclean : Clean L d d := ⟨hempty, fun _ _ => rfl⟩
  have hroom' : lh.block.length < L.size := by omega
  by_cases hpos : 0 < lh.block.length
  · rcases commit_cut (v := v) hclean hroom' hnodup hout hpos k with ⟨hk, hold⟩ | ⟨hk, hnew⟩
    · rcases hold.bootsCut hsize ks with ⟨d₁, hd₁, hclean₁⟩
      rcases hclean₁.boot hsize with ⟨d₂, hd₂, hclean₂⟩
      refine ⟨d₂, by simp [hd₁, hd₂], .inl hclean₂.agree, ?_, hclean₂.head⟩
      intro hk'
      omega
    · rcases hnew.bootsCut hroom' hnodup hout ks with ⟨d₁, hd₁, hdur₁⟩
      rcases hdur₁.boot hroom' hnodup hout with ⟨d₂, hd₂, hclean₂⟩
      exact ⟨d₂, by simp [hd₁, hd₂], .inr hclean₂.agree, fun _ => hclean₂.agree, hclean₂.head⟩
  · -- An empty transaction writes nothing, and both alternatives describe the same disk.
    have hnil : lh.block = [] := List.length_eq_zero_iff.1 (by omega)
    have hnone : (commit L lh { data := v, out := [] }).out = [] := by simp [commit, hnil]
    rcases hclean.bootsCut hsize ks with ⟨d₁, hd₁, hclean₁⟩
    rcases hclean₁.boot hsize with ⟨d₂, hd₂, hclean₂⟩
    refine ⟨d₂, by simp [hnone, hd₁, hd₂], .inl hclean₂.agree, ?_, hclean₂.head⟩
    intro _ b hb
    simpa [hnil] using hclean₂.agree b hb

/-- Two blocks are logged, the crash hits between their two home writes, and two recoveries fail
before one completes: both blocks carry their new contents. -/
theorem commit_crash_atomic_two_blocks : ∃ d', (bootsCut LogArea.mkfs [1, 0]
        (applyWrites (fun _ _ => 0) ((commit LogArea.mkfs { block := [46, 50], fits := by decide }
            { data := fun b _ => b, out := [] }).out.take 4))).bind (boot LogArea.mkfs) = some d' ∧
      (∀ b, ¬ LogArea.mkfs.Mem b → d' b = if b ∈ [46, 50] then fun _ => b else fun _ => 0) ∧
      headCount (d' (LogArea.mkfs.block 0)) = 0 := by
  have hout : ∀ b ∈ [46, 50], ¬ LogArea.mkfs.Mem b := by
    intro b hb
    rcases List.mem_pair.1 hb with rfl | rfl <;> decide
  rcases commit_crash_atomic LogArea.mkfs { block := [46, 50], fits := by decide } (fun _ _ => 0)
      (fun b _ => b) (by decide) (by decide) (by decide) (by decide) hout 4 [1, 0] with
    ⟨d', hd', _, hnew, hhead⟩
  exact ⟨d', hd', hnew (by decide), hhead⟩

end Xv6.Log
