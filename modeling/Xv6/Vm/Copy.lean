import Xv6.Lib.Writes
import Xv6.Vm.Maps

/-!
# Copy — `copyout`, `copyin` and `copyinstr`

The copies go from page to page.  A byte of user memory can be accessed if it lies below `MAXVA` in
a page whose entry has `PTE_V` and `PTE_U`; a copy ends before the first byte that cannot.
-/

namespace Xv6.Vm

open Lib Kalloc

variable {kend : KernelEnd} {m m' : Mem} {b b' : Nat → UInt8} {root a len k n va p v e : Nat}

/-! ## Addresses -/

/-- The entry of the page of an address lets the user access it. -/
def Accessible (b : Nat → UInt8) (root a : Nat) : Prop :=
  a < MAXVA ∧ ∃ e, leaf b root (a / PGSIZE) = some e ∧ has e PTE_U

/-- The physical address of an address that is mapped. -/
def phys (b : Nat → UInt8) (root a : Nat) : Nat :=
  PTE2PA ((leaf b root (a / PGSIZE)).getD 0) + a % PGSIZE

/-- The pages that the user can access. -/
def UserPage (b : Nat → UInt8) (root p : Nat) : Prop :=
  ∃ v e, v < MAXVA / PGSIZE ∧ leaf b root v = some e ∧ has e PTE_U ∧ PTE2PA e = p

/-- No table and no page of the user is at address 0. -/
structure NonNull (b : Nat → UInt8) (root : Nat) : Prop where
  tables : ∀ p, Tables b root p → p ≠ 0
  pages : ∀ p, UserPage b root p → p ≠ 0

theorem PGROUNDDOWN_div (a : Nat) : PGROUNDDOWN a / PGSIZE = a / PGSIZE :=
  Nat.mul_div_cancel _ (by decide)

theorem PGROUNDDOWN_add_mod (a : Nat) : PGROUNDDOWN a + a % PGSIZE = a := by
  simp only [PGROUNDDOWN, PGSIZE]
  omega

theorem PGROUNDDOWN_lt_iff : PGROUNDDOWN a < MAXVA ↔ a < MAXVA := by
  simp only [PGROUNDDOWN, PGSIZE, MAXVA]
  omega

theorem Accessible.page (h : Accessible b root a) :
    UserPage b root (phys b root a - a % PGSIZE) := by
  rcases h with ⟨ha, e, he, hu⟩
  refine ⟨a / PGSIZE, e, ?_, he, hu, ?_⟩
  · simp only [PGSIZE, MAXVA] at ha ⊢
    omega
  · rw [phys, he, Option.getD_some, Nat.add_sub_cancel]

theorem accessible_congr {x : Nat} (hx : x / PGSIZE = a / PGSIZE) :
    Accessible b root x ↔ Accessible b root a := by
  have hlt : x < MAXVA ↔ a < MAXVA := by
    simp only [PGSIZE, MAXVA] at hx ⊢
    omega
  rw [Accessible, Accessible, hx, hlt]

/-! ## `walkaddr` -/

open Classical in
theorem walkaddr_eq (h : NonNull b root) (hb : m.byte = b) (a : Nat) :
    walkaddr root (PGROUNDDOWN a) m =
      .ok (if Accessible b root a then phys b root a - a % PGSIZE else 0) m := by
  rw [walkaddr]
  by_cases hlt : MAXVA ≤ PGROUNDDOWN a
  · rw [if_pos hlt, if_neg fun hacc => absurd (PGROUNDDOWN_lt_iff.2 hacc.1) (Nat.not_lt.2 hlt)]
    rfl
  rw [if_neg hlt, Prog.bind_ok (walk_false root (Nat.lt_of_not_le hlt)), PGROUNDDOWN_div, hb]
  have ha : a < MAXVA := PGROUNDDOWN_lt_iff.1 (Nat.lt_of_not_le hlt)
  cases ht : table b root 2 (a / PGSIZE / 512) with
  | none =>
    have hleaf : leaf b root (a / PGSIZE) = none := by
      rw [leaf, ent, ht]
      rfl
    have hnot : ¬ Accessible b root a := by
      rintro ⟨-, e, he, -⟩
      rw [hleaf] at he
      cases he
    rw [slot, ht, if_pos rfl, if_neg hnot]
    rfl
  | some t =>
    have htne : t + 8 * (a / PGSIZE % 512) ≠ 0 := by
      have hne := h.tables t ⟨2, _, le_rfl, ht⟩
      omega
    have hleaf : leaf b root (a / PGSIZE) = valid (pteAt b t (a / PGSIZE % 512)) := ent_of_table ht
    have hload : load (t + 8 * (a / PGSIZE % 512)) m = .ok (pteAt b t (a / PGSIZE % 512)) m := by
      rw [← hb]
      rfl
    rw [slot_of_table ht, if_neg htne, Prog.bind_ok hload]
    by_cases hv : has (pteAt b t (a / PGSIZE % 512)) PTE_V
    · rw [valid, if_pos hv] at hleaf
      rw [if_neg (not_not.2 hv)]
      by_cases hu : has (pteAt b t (a / PGSIZE % 512)) PTE_U
      · rw [if_neg (not_not.2 hu), if_pos ⟨ha, _, hleaf, hu⟩, phys, hleaf, Option.getD_some,
          Nat.add_sub_cancel]
        rfl
      · have hnot : ¬ Accessible b root a := by
          rintro ⟨-, e, he, hue⟩
          exact hu (Option.some.inj (hleaf.symm.trans he) ▸ hue)
        rw [if_pos hu, if_neg hnot]
        rfl
    · rw [valid, if_neg hv] at hleaf
      have hnot : ¬ Accessible b root a := by
        rintro ⟨-, e, he, -⟩
        rw [hleaf] at he
        cases he
      rw [if_pos hv, if_neg hnot]
      rfl

/-! ## How far a copy goes -/

/-- `k` is the number of bytes from `a` on, up to `len`, before the first that cannot
be accessed. -/
structure Extent (b : Nat → UInt8) (root a len k : Nat) : Prop where
  le : k ≤ len
  accessible : ∀ i, i < k → Accessible b root (a + i)
  stop : k < len → ¬ Accessible b root (a + k)

namespace Extent

theorem unique {k' : Nat} (h : Extent b root a len k) (h' : Extent b root a len k') : k = k' := by
  rcases Nat.lt_trichotomy k k' with hlt | heq | hlt
  · exact absurd (h'.accessible k hlt) (h.stop (Nat.lt_of_lt_of_le hlt h'.le))
  · exact heq
  · exact absurd (h.accessible k' hlt) (h'.stop (Nat.lt_of_lt_of_le hlt h.le))

theorem eq_len_iff (h : Extent b root a len k) :
    k = len ↔ ∀ i, i < len → Accessible b root (a + i) := by
  constructor
  · rintro rfl
    exact h.accessible
  · intro hall
    by_contra hne
    have hlt : k < len := Nat.lt_of_le_of_ne h.le hne
    exact h.stop hlt (hall k hlt)

theorem step {a' : Nat} (hn : n ≤ len) (hacc : ∀ i, i < n → Accessible b root (a + i))
    (hnext : len - n = 0 ∨ a' = a + n) (h : Extent b root a' (len - n) k) :
    Extent b root a len (n + k) := by
  have hle := h.le
  refine ⟨by omega, fun i hi => ?_, fun hlt => ?_⟩
  · by_cases hin : i < n
    · exact hacc i hin
    · rcases hnext with hzero | rfl
      · omega
      · have hold := h.accessible (i - n) (by omega)
        rwa [show a + n + (i - n) = a + i by omega] at hold
  · rcases hnext with hzero | rfl
    · omega
    · rw [← Nat.add_assoc]
      exact h.stop (by omega)

end Extent

/-- The part of a copy in the page of `a`. -/
def chunk (a len : Nat) : Nat :=
  min (PGSIZE - (a - PGROUNDDOWN a)) len

theorem chunk_page {i : Nat} (hi : i < chunk a len) : (a + i) / PGSIZE = a / PGSIZE ∧
    (a + i) % PGSIZE = a % PGSIZE + i := by
  simp only [chunk, PGROUNDDOWN, PGSIZE] at hi ⊢
  omega

theorem chunk_le : chunk a len ≤ len :=
  Nat.min_le_right _ _

theorem phys_add {i : Nat} (hi : i < chunk a len) : phys b root (a + i) = phys b root a + i := by
  rcases chunk_page hi with ⟨hdiv, hmod⟩
  rw [phys, phys, hdiv, hmod, Nat.add_assoc]

theorem phys_page (b : Nat → UInt8) (root a : Nat) :
    phys b root a - a % PGSIZE + (a - PGROUNDDOWN a) = phys b root a := by
  have hsub : a - PGROUNDDOWN a = a % PGSIZE := by
    have heq := PGROUNDDOWN_add_mod a
    omega
  rw [hsub, phys]
  omega

theorem accessible_chunk {i : Nat} (h : Accessible b root a) (hi : i < chunk a len) :
    Accessible b root (a + i) :=
  (accessible_congr (chunk_page hi).1).2 h

/-- After the chunk comes the next page, or nothing. -/
theorem chunk_next (len : Nat) (ha : a < MAXVA) : len - chunk a len = 0 ∨
    (PGROUNDDOWN a + PGSIZE) % 2 ^ 64 = a + chunk a len := by
  simp only [chunk, PGROUNDDOWN, PGSIZE, MAXVA] at ha ⊢
  omega

/-- The loop has rounds for all pages up to `MAXVA`. -/
def Enough (rounds a : Nat) : Prop :=
  0 < rounds ∧ MAXVA / PGSIZE + 1 ≤ a / PGSIZE + rounds

theorem Enough.next {rounds : Nat} (h : Enough (rounds + 1) a) (ha : a < MAXVA) :
    Enough rounds ((PGROUNDDOWN a + PGSIZE) % 2 ^ 64) := by
  simp only [Enough, PGROUNDDOWN, PGSIZE, MAXVA] at h ha ⊢
  omega

theorem enough_rounds (a : Nat) : Enough (ROUNDS + 1) a := by
  simp only [Enough, ROUNDS, PGSIZE, MAXVA]
  omega

/-! ## `copyin` -/

/-- The bytes of user memory from an address on. -/
def userBytes (b : Nat → UInt8) (root a k : Nat) : List UInt8 :=
  (List.range k).map fun i => b (phys b root (a + i))

/-- A list made from the first chunk and then from what follows it. -/
theorem map_range_chunk {α : Type} {f g : Nat → α} {h : Nat → α} (hf : ∀ i, i < n → f i = h i)
    (hg : k = 0 ∨ ∀ i, g i = h (n + i)) :
    (List.range n).map f ++ (List.range k).map g = (List.range (n + k)).map h := by
  rw [List.range_add, List.map_append, List.map_map]
  refine congrArg₂ (· ++ ·) (List.map_congr_left fun i hi => hf i (List.mem_range.1 hi)) ?_
  rcases hg with rfl | hg
  · rfl
  · exact List.map_congr_left fun i _ => hg i

theorem userBytes_add {a' : Nat} (hn : n = chunk a len) (hnext : k = 0 ∨ a' = a + n) :
    (List.range n).map (fun i => b (phys b root a + i)) ++ userBytes b root a' k =
      userBytes b root a (n + k) := by
  subst hn
  refine map_range_chunk (fun i hi => ?_) (hnext.imp_right fun ha i => ?_)
  · rw [phys_add hi]
  · rw [ha, Nat.add_assoc]

/-- The value that a copy of `len` bytes returns after `k` bytes. -/
def copyResult (len k : Nat) : Int :=
  if k = len then 0 else -1

theorem copyResult_add (hn : n ≤ len) : copyResult (len - n) k = copyResult len (n + k) := by
  unfold copyResult
  by_cases hk : k = len - n
  · rw [if_pos hk, if_pos (by omega)]
  · rw [if_neg hk, if_neg (by omega)]

theorem copyinLoop_spec {rounds : Nat} (h : NonNull m.byte root) (len : Nat)
    (hrounds : Enough rounds a) :
    ∃ k, Extent m.byte root a len k ∧
      copyinLoop root rounds a len m = .ok (copyResult len k, userBytes m.byte root a k) m := by
  induction rounds generalizing a len with
  | zero => exact absurd hrounds.1 (Nat.lt_irrefl _)
  | succ rounds ih =>
    rw [copyinLoop]
    by_cases hlen : 0 < len
    swap
    · have hzero : len = 0 := by omega
      subst hzero
      exact ⟨0, ⟨le_rfl, nofun, nofun⟩, by rw [if_neg hlen]; rfl⟩
    rw [if_pos hlen]
    simp only
    rw [Prog.bind_ok (walkaddr_eq h rfl a)]
    by_cases hacc : Accessible m.byte root a
    swap
    · rw [if_neg hacc, if_pos rfl]
      refine ⟨0, ⟨Nat.zero_le _, nofun, fun _ => hacc⟩, ?_⟩
      rw [copyResult, if_neg (Nat.ne_of_lt hlen)]
      rfl
    rw [if_pos hacc, if_neg (h.pages _ hacc.page), phys_page]
    rcases ih (len - chunk a len) (hrounds.next hacc.1) with ⟨k, hext, hrest⟩
    have hnext := chunk_next len hacc.1
    refine ⟨chunk a len + k, .step chunk_le (fun i hi => accessible_chunk hacc hi) hnext hext, ?_⟩
    rw [Prog.bind_gets, show min (PGSIZE - (a - PGROUNDDOWN a)) len = chunk a len from rfl,
      Prog.bind_ok hrest, copyResult_add chunk_le, ← userBytes_add rfl]
    · rfl
    · refine hnext.imp_left fun hzero => ?_
      have hle := hext.le
      omega

theorem copyin_spec (h : NonNull m.byte root) (a len : Nat) : ∃ k, Extent m.byte root a len k ∧
    copyin root a len m = .ok (copyResult len k, userBytes m.byte root a k) m :=
  copyinLoop_spec h len (enough_rounds a)

/-! ## `copyinstr` -/

/-- The bytes before a NUL are stored, and the NUL if there is one. -/
theorem strPart_spec (b : Nat → UInt8) (p n : Nat) : ∃ j, (∀ i, i < j → b (p + i) ≠ 0) ∧
    (j < n ∧ b (p + j) = 0 ∧ strPart b p n = ((List.range (j + 1)).map fun i => b (p + i), true) ∨
      j = n ∧ strPart b p n = ((List.range n).map fun i => b (p + i), false)) := by
  induction n generalizing p with
  | zero => exact ⟨0, nofun, .inr ⟨rfl, rfl⟩⟩
  | succ n ih =>
    rw [strPart]
    by_cases hnul : b p = 0
    · rw [if_pos hnul]
      refine ⟨0, nofun, .inl ⟨Nat.succ_pos _, hnul, ?_⟩⟩
      simp [hnul]
    rw [if_neg hnul]
    rcases ih (p + 1) with ⟨j, hbefore, hrest⟩
    have hcons : ∀ j, b p :: (List.range j).map (fun i => b (p + 1 + i)) =
        (List.range (j + 1)).map fun i => b (p + i) := by
      intro j
      rw [List.range_succ_eq_map, List.map_cons, List.map_map, Nat.add_zero]
      refine congrArg _ (List.map_congr_left fun i _ => ?_)
      rw [Function.comp_apply, Nat.succ_eq_add_one, Nat.add_assoc, Nat.add_comm 1 i]
    refine ⟨j + 1, fun i hi => ?_, ?_⟩
    · cases i with
      | zero => exact hnul
      | succ i =>
        have hi' := hbefore i (Nat.lt_of_succ_lt_succ hi)
        rwa [Nat.add_assoc, Nat.add_comm 1 i] at hi'
    · rcases hrest with ⟨hlt, hzero, heq⟩ | ⟨rfl, heq⟩
      · left
        refine ⟨Nat.succ_lt_succ hlt, ?_, by simp only [heq, hcons]⟩
        rwa [Nat.add_assoc, Nat.add_comm 1 j] at hzero
      · right
        exact ⟨rfl, by simp only [heq, hcons]⟩

/-- `k` bytes that are not NUL can be read, and then there is a NUL, or the string goes on where it
cannot be read. -/
structure StrExtent (b : Nat → UInt8) (root a max k : Nat) (nul : Bool) : Prop where
  le : k ≤ max
  before : ∀ i, i < k → Accessible b root (a + i) ∧ b (phys b root (a + i)) ≠ 0
  found : nul = true → k < max ∧ Accessible b root (a + k) ∧ b (phys b root (a + k)) = 0
  stop : nul = false → k < max → ¬ Accessible b root (a + k)

namespace StrExtent

theorem step {a' max : Nat} {nul : Bool} (hn : n ≤ max)
    (hacc : ∀ i, i < n → Accessible b root (a + i) ∧ b (phys b root (a + i)) ≠ 0)
    (hnext : max - n = 0 ∨ a' = a + n) (h : StrExtent b root a' (max - n) k nul) :
    StrExtent b root a max (n + k) nul := by
  have hle := h.le
  refine ⟨by omega, fun i hi => ?_, fun hnul => ?_, fun hnul hlt => ?_⟩
  · by_cases hin : i < n
    · exact hacc i hin
    · rcases hnext with hzero | rfl
      · omega
      · have hold := h.before (i - n) (by omega)
        rwa [show a + n + (i - n) = a + i by omega] at hold
  · have hfound := h.found hnul
    rcases hnext with hzero | rfl
    · omega
    · rw [Nat.add_assoc] at hfound
      exact ⟨by omega, hfound.2⟩
  · rcases hnext with hzero | rfl
    · omega
    · rw [← Nat.add_assoc]
      exact h.stop hnul (by omega)

theorem not_lt {max k' : Nat} {nul nul' : Bool} (h : StrExtent b root a max k nul)
    (h' : StrExtent b root a max k' nul') : ¬ k < k' := by
  intro hlt
  rcases h'.before k hlt with ⟨hacc, hne⟩
  cases nul with
  | true => exact hne (h.found rfl).2.2
  | false => exact h.stop rfl (Nat.lt_of_lt_of_le hlt h'.le) hacc

theorem unique {max k' : Nat} {nul nul' : Bool} (h : StrExtent b root a max k nul)
    (h' : StrExtent b root a max k' nul') : k = k' ∧ nul = nul' := by
  have hk : k = k' := Nat.le_antisymm (Nat.le_of_not_lt (h'.not_lt h))
    (Nat.le_of_not_lt (h.not_lt h'))
  subst hk
  refine ⟨rfl, ?_⟩
  cases nul <;> cases nul'
  · rfl
  · exact absurd (h'.found rfl).2.1 (h.stop rfl (h'.found rfl).1)
  · exact absurd (h.found rfl).2.1 (h'.stop rfl (h.found rfl).1)
  · rfl

end StrExtent

/-- The value of `copyinstr`, and the bytes that it stores. -/
def strResult (b : Nat → UInt8) (root a k : Nat) (nul : Bool) : Int × List UInt8 :=
  if nul then (0, userBytes b root a (k + 1)) else (-1, userBytes b root a k)

theorem copyinstrLoop_spec {rounds : Nat} (h : NonNull m.byte root) (max : Nat)
    (hrounds : Enough rounds a) :
    ∃ k nul, StrExtent m.byte root a max k nul ∧
      copyinstrLoop root rounds a max m = .ok (strResult m.byte root a k nul) m := by
  induction rounds generalizing a max with
  | zero => exact absurd hrounds.1 (Nat.lt_irrefl _)
  | succ rounds ih =>
    rw [copyinstrLoop]
    by_cases hmax : 0 < max
    swap
    · have hzero : max = 0 := by omega
      subst hzero
      exact ⟨0, false, ⟨le_rfl, nofun, nofun, nofun⟩, by rw [if_neg hmax]; rfl⟩
    rw [if_pos hmax]
    simp only
    rw [Prog.bind_ok (walkaddr_eq h rfl a)]
    by_cases hacc : Accessible m.byte root a
    swap
    · rw [if_neg hacc, if_pos rfl]
      exact ⟨0, false, ⟨Nat.zero_le _, nofun, nofun, fun _ _ => hacc⟩, rfl⟩
    rw [if_pos hacc, if_neg (h.pages _ hacc.page), phys_page, Prog.bind_gets,
      show min (PGSIZE - (a - PGROUNDDOWN a)) max = chunk a max from rfl]
    rcases strPart_spec m.byte (phys m.byte root a) (chunk a max) with ⟨j, hbefore, hpart⟩
    rcases hpart with ⟨hlt, hzero, hpart⟩ | ⟨rfl, hpart⟩
    · -- The NUL is in this page.
      rw [hpart, if_pos rfl]
      have hbytes : ∀ i, i ≤ j → phys m.byte root (a + i) = phys m.byte root a + i := fun i hi =>
        phys_add (Nat.lt_of_le_of_lt hi hlt)
      refine ⟨j, true, ⟨?_, fun i hi => ?_, fun _ => ?_, nofun⟩, ?_⟩
      · exact Nat.le_of_lt (Nat.lt_of_lt_of_le hlt chunk_le)
      · rw [hbytes i (Nat.le_of_lt hi)]
        exact ⟨accessible_chunk hacc (Nat.lt_trans hi hlt), hbefore i hi⟩
      · rw [hbytes j le_rfl]
        exact ⟨Nat.lt_of_lt_of_le hlt chunk_le, accessible_chunk hacc hlt, hzero⟩
      · have hlist : ((List.range (j + 1)).map fun i => m.byte (phys m.byte root a + i)) =
            userBytes m.byte root a (j + 1) := by
          refine List.map_congr_left fun i hi => ?_
          rw [hbytes i (Nat.le_of_lt_succ (List.mem_range.1 hi))]
        rw [strResult, if_pos rfl, ← hlist]
        rfl
    · rw [hpart, if_neg Bool.false_ne_true]
      rcases ih (max - chunk a max) (hrounds.next hacc.1) with ⟨k, nul, hext, hrest⟩
      have hnext := chunk_next max hacc.1
      refine ⟨chunk a max + k, nul, .step chunk_le (fun i hi => ?_) hnext hext, ?_⟩
      · rw [phys_add hi]
        exact ⟨accessible_chunk hacc hi, hbefore i hi⟩
      · rw [Prog.bind_ok hrest]
        cases nul with
        | true =>
          have hlt := (hext.found rfl).1
          rw [strResult, strResult, if_pos rfl, if_pos rfl, Nat.add_assoc,
            ← userBytes_add rfl (hnext.imp_left fun hzero => by omega)]
          rfl
        | false =>
          have hle := hext.le
          rw [strResult, strResult, if_neg Bool.false_ne_true, if_neg Bool.false_ne_true,
            ← userBytes_add rfl (hnext.imp_left fun hzero => by omega)]
          rfl

theorem copyinstr_spec (h : NonNull m.byte root) (a max : Nat) :
    ∃ k nul, StrExtent m.byte root a max k nul ∧
      copyinstr root a max m = .ok (strResult m.byte root a k nul) m :=
  copyinstrLoop_spec h max (enough_rounds a)

/-! ## `copyout` -/

/-- The pages of the user are not tables. -/
structure Sound (kend : KernelEnd) (m : Mem) (root : Nat) : Prop where
  wf : Wf kend m root
  apart : ∀ p, UserPage m.byte root p → p ≠ 0 ∧ ¬ Tables m.byte root p

theorem Sound.nonNull (h : Sound kend m root) : NonNull m.byte root :=
  ⟨fun p hp => (h.wf.page p hp).1.ne_zero, fun p hp => (h.apart p hp).1⟩

namespace SameTree

theorem userPage (h : SameTree b b' root) (p : Nat) : UserPage b' root p ↔ UserPage b root p := by
  simp only [UserPage, h.leaf]

theorem accessible (h : SameTree b b' root) (a : Nat) :
    Accessible b' root a ↔ Accessible b root a := by
  simp only [Accessible, h.leaf]

theorem phys (h : SameTree b b' root) (a : Nat) : phys b' root a = phys b root a := by
  simp only [Vm.phys, h.leaf]

theorem extent (h : SameTree b b' root) (hext : Extent b' root a len k) : Extent b root a len k :=
  ⟨hext.le, fun i hi => (h.accessible _).1 (hext.accessible i hi),
    fun hlt hacc => hext.stop hlt ((h.accessible _).2 hacc)⟩

end SameTree

theorem Sound.frame (h : Sound kend m root) (hpool : Pool kend m')
    (hsame : ∀ p, Tables m.byte root p → Same m.byte m'.byte p ∧ p ∉ m'.free) :
    Sound kend m' root ∧ SameTree m.byte m'.byte root := by
  rcases h.wf.frame hpool hsame with ⟨hwf, htree⟩
  refine ⟨⟨hwf, fun p hp => ?_⟩, htree⟩
  have hold := h.apart p ((htree.userPage p).1 hp)
  exact ⟨hold.1, fun ht => hold.2 ((htree.tables p).1 ht)⟩

theorem blit_eq_applyWrites (b : Nat → UInt8) (a n : Nat) (f : Nat → UInt8) :
    blit b a n f = applyWrites b ((List.range n).map fun i => (a + i, f i)) := by
  induction n with
  | zero =>
    funext x
    exact blit_of_not (by omega)
  | succ n ih =>
    rw [List.range_succ, List.map_append, applyWrites_append, ← ih]
    funext x
    simp only [List.map_cons, List.map_nil, applyWrites_cons, applyWrites_nil]
    by_cases hx : x = a + n
    · subst hx
      rw [Function.update_self]
      exact blit_add (Nat.lt_succ_self n)
    · rw [Function.update_of_ne hx]
      unfold blit
      by_cases hin : a ≤ x ∧ x < a + n
      · rw [if_pos hin, if_pos (by omega)]
      · rw [if_neg hin, if_neg (by omega)]

/-- The bytes that are stored in user memory from an address on. -/
def userWrites (b : Nat → UInt8) (root a : Nat) (src : Nat → UInt8) (k : Nat) :
    List (Nat × UInt8) :=
  (List.range k).map fun i => (phys b root (a + i), src i)

theorem userWrites_add {a' : Nat} {src : Nat → UInt8} (hn : n = chunk a len)
    (hnext : k = 0 ∨ a' = a + n) :
    (List.range n).map (fun i => (phys b root a + i, src i)) ++
      userWrites b root a' (fun i => src (i + n)) k = userWrites b root a src (n + k) := by
  subst hn
  refine map_range_chunk (fun i hi => ?_) (hnext.imp_right fun ha i => ?_)
  · rw [phys_add hi]
  · rw [ha, Nat.add_assoc, Nat.add_comm (chunk a len) i]

theorem copyoutLoop_spec {rounds : Nat} (h : Sound kend m root) (src : Nat → UInt8) (len : Nat)
    (hrounds : Enough rounds a) : ∃ k, Extent m.byte root a len k ∧
      copyoutLoop root rounds a src len m = .ok (copyResult len k)
        { m with byte := applyWrites m.byte (userWrites m.byte root a src k) } := by
  induction rounds generalizing a len src m with
  | zero => exact absurd hrounds.1 (Nat.lt_irrefl _)
  | succ rounds ih =>
    rw [copyoutLoop]
    by_cases hlen : 0 < len
    swap
    · have hzero : len = 0 := by omega
      subst hzero
      exact ⟨0, ⟨le_rfl, nofun, nofun⟩, by rw [if_neg hlen]; rfl⟩
    rw [if_pos hlen]
    simp only
    rw [Prog.bind_ok (walkaddr_eq h.nonNull rfl a)]
    by_cases hacc : Accessible m.byte root a
    swap
    · rw [if_neg hacc, if_pos rfl]
      refine ⟨0, ⟨Nat.zero_le _, nofun, fun _ => hacc⟩, ?_⟩
      rw [copyResult, if_neg (Nat.ne_of_lt hlen)]
      rfl
    rw [if_pos hacc, if_neg (h.nonNull.pages _ hacc.page), phys_page,
      show min (PGSIZE - (a - PGROUNDDOWN a)) len = chunk a len from rfl]
    -- The chunk lies in a page that is not a table.
    have hframe : ∀ p, Tables m.byte root p →
        Same m.byte (blit m.byte (phys m.byte root a) (chunk a len) src) p ∧ p ∉ m.free := by
      intro p hp
      refine ⟨?_, (h.wf.page p hp).2⟩
      have hne : p ≠ phys m.byte root a - a % PGSIZE := fun heq =>
        (h.apart _ hacc.page).2 (heq ▸ hp)
      have haligned : (phys m.byte root a - a % PGSIZE) % PGSIZE = 0 := by
        rw [phys, Nat.add_sub_cancel]
        exact PTE2PA_aligned _
      have hoff : a % PGSIZE + chunk a len ≤ PGSIZE := by
        simp only [chunk, PGROUNDDOWN, PGSIZE]
        omega
      have hphys : phys m.byte root a = phys m.byte root a - a % PGSIZE + a % PGSIZE := by
        rw [phys]
        omega
      rw [hphys]
      exact Same.blit _ haligned (h.wf.aligned hp) hne hoff
    rcases h.frame (show Pool kend
      { m with byte := blit m.byte (phys m.byte root a) (chunk a len) src } from
        h.wf.pool.congr rfl) hframe with ⟨hsound, htree⟩
    rcases ih hsound (fun i => src (i + chunk a len)) (len - chunk a len)
      (hrounds.next hacc.1) with ⟨k, hext, hrest⟩
    have hnext := chunk_next len hacc.1
    have hext' := htree.extent hext
    refine ⟨chunk a len + k, .step chunk_le (fun i hi => accessible_chunk hacc hi) hnext hext', ?_⟩
    have hwrites : userWrites (blit m.byte (phys m.byte root a) (chunk a len) src) root
        ((PGROUNDDOWN a + PGSIZE) % 2 ^ 64) (fun i => src (i + chunk a len)) k =
        userWrites m.byte root ((PGROUNDDOWN a + PGSIZE) % 2 ^ 64)
          (fun i => src (i + chunk a len)) k := by
      simp only [userWrites, htree.phys]
    refine (Prog.bind_ok rfl).trans (hrest.trans ?_)
    rw [copyResult_add chunk_le, hwrites, blit_eq_applyWrites, ← applyWrites_append,
      userWrites_add rfl]
    refine hnext.imp_left fun hzero => ?_
    have hle := hext.le
    omega

theorem copyout_spec (h : Sound kend m root) (a : Nat) (src : Nat → UInt8) (len : Nat) :
    ∃ k, Extent m.byte root a len k ∧ copyout root a src len m = .ok (copyResult len k)
      { m with byte := applyWrites m.byte (userWrites m.byte root a src k) } :=
  copyoutLoop_spec h src len (enough_rounds a)

/-! ## All copies -/

theorem copyResult_eq_zero : copyResult len k = 0 ↔ k = len := by
  unfold copyResult
  split <;> simp_all

/-- What a copy of `len` bytes from `a` on returns, and that it goes over `k` bytes. -/
structure Copied (b : Nat → UInt8) (root a len : Nat) (r : Int) (k : Nat) : Prop where
  /-- It succeeds just if all bytes can be accessed. -/
  zero : r = 0 ↔ ∀ i, i < len → Accessible b root (a + i)
  all : r = 0 → k = len
  /-- If it fails, it stops before the first byte that cannot. -/
  fail : r ≠ 0 → r = -1 ∧ k < len ∧ ¬ Accessible b root (a + k)
  accessible : ∀ i, i < k → Accessible b root (a + i)

theorem Extent.copied (h : Extent b root a len k) : Copied b root a len (copyResult len k) k := by
  refine ⟨copyResult_eq_zero.trans h.eq_len_iff, copyResult_eq_zero.1, fun hne => ?_, h.accessible⟩
  have hk : k ≠ len := fun heq => hne (copyResult_eq_zero.2 heq)
  have hlt : k < len := Nat.lt_of_le_of_ne h.le hk
  exact ⟨if_neg hk, hlt, h.stop hlt⟩

/-- The same for a string of at most `max` bytes, of which `l` are stored. -/
structure StrCopied (b : Nat → UInt8) (root a max : Nat) (r : Int) (l : List UInt8) : Prop where
  zero : r = 0 ↔ ∃ k, k < max ∧ (∀ i, i ≤ k → Accessible b root (a + i)) ∧
    b (phys b root (a + k)) = 0
  string : r = 0 → ∃ k, l = userBytes b root a (k + 1) ∧ b (phys b root (a + k)) = 0 ∧
    ∀ i, i < k → b (phys b root (a + i)) ≠ 0
  fail : r ≠ 0 → r = -1
  accessible : ∃ k, k ≤ max ∧ l = userBytes b root a k ∧ ∀ i, i < k → Accessible b root (a + i)

theorem length_userBytes (b : Nat → UInt8) (root a k : Nat) :
    (userBytes b root a k).length = k := by
  rw [userBytes, List.length_map, List.length_range]

theorem StrCopied.length_le {max : Nat} {r : Int} {l : List UInt8}
    (h : StrCopied b root a max r l) :
    l.length ≤ max := by
  rcases h.accessible with ⟨k, hk, rfl, -⟩
  rwa [length_userBytes]

theorem StrExtent.copied {max : Nat} {nul : Bool} (h : StrExtent b root a max k nul) :
    StrCopied b root a max (strResult b root a k nul).1 (strResult b root a k nul).2 := by
  cases nul with
  | true =>
    rcases h.found rfl with ⟨hlt, hacc, hzero⟩
    have hall : ∀ i, i ≤ k → Accessible b root (a + i) := by
      intro i hi
      rcases Nat.eq_or_lt_of_le hi with rfl | hi
      · exact hacc
      · exact (h.before i hi).1
    refine ⟨⟨fun _ => ⟨k, hlt, hall, hzero⟩, fun _ => rfl⟩,
      fun _ => ⟨k, rfl, hzero, fun i hi => (h.before i hi).2⟩, fun hne => absurd rfl hne,
      k + 1, hlt, rfl, fun i hi => hall i (Nat.le_of_lt_succ hi)⟩
  | false =>
    refine ⟨⟨nofun, ?_⟩, nofun, fun _ => rfl, k, h.le, rfl, fun i hi => (h.before i hi).1⟩
    rintro ⟨j, hj, hacc, hzero⟩
    -- A NUL would have been met before the string stops.
    rcases Nat.lt_or_ge j k with hlt | hge
    · exact absurd hzero (h.before j hlt).2
    · exact absurd (hacc k hge) (h.stop rfl (Nat.lt_of_le_of_lt hge hj))

/-- Two memories that agree in the tables and in the pages of the user. -/
def AgreeOn (b b' : Nat → UInt8) (root : Nat) : Prop :=
  ∀ p, Tables b root p ∨ UserPage b root p → Same b b' p

theorem AgreeOn.sameTree (h : AgreeOn b b' root) : SameTree b b' root :=
  sameTree_of_same fun p hp => h p (.inl hp)

theorem AgreeOn.byte (h : AgreeOn b b' root) (ha : Accessible b root a) :
    b' (phys b root a) = b (phys b root a) := by
  have hsame := h _ (.inr ha.page) (a % PGSIZE) (Nat.mod_lt _ (by decide))
  have hphys : phys b root a - a % PGSIZE + a % PGSIZE = phys b root a := by
    rw [phys]
    omega
  rwa [hphys] at hsame

theorem NonNull.congr (h : NonNull b root) (htree : SameTree b b' root) : NonNull b' root :=
  ⟨fun p hp => h.tables p ((htree.tables p).1 hp), fun p hp => h.pages p ((htree.userPage p).1 hp)⟩

theorem AgreeOn.userBytes (h : AgreeOn b b' root) (hacc : ∀ i, i < k → Accessible b root (a + i)) :
    userBytes b' root a k = userBytes b root a k := by
  refine List.map_congr_left fun i hi => ?_
  rw [h.sameTree.phys, h.byte (hacc i (List.mem_range.1 hi))]

theorem AgreeOn.strExtent {max : Nat} {nul : Bool} (h : AgreeOn b b' root)
    (hext : StrExtent b' root a max k nul) : StrExtent b root a max k nul := by
  have hbyte : ∀ i, Accessible b root (a + i) →
      b' (phys b' root (a + i)) = b (phys b root (a + i)) := fun i hi => by
    rw [h.sameTree.phys, h.byte hi]
  refine ⟨hext.le, fun i hi => ?_, fun hnul => ?_, fun hnul hlt hacc => ?_⟩
  · rcases hext.before i hi with ⟨hacc, hne⟩
    have hacc' := (h.sameTree.accessible _).1 hacc
    exact ⟨hacc', hbyte i hacc' ▸ hne⟩
  · rcases hext.found hnul with ⟨hlt, hacc, hzero⟩
    have hacc' := (h.sameTree.accessible _).1 hacc
    exact ⟨hlt, hacc', hbyte k hacc' ▸ hzero⟩
  · exact hext.stop hnul hlt ((h.sameTree.accessible _).2 hacc)

theorem AgreeOn.copyin (h : AgreeOn m.byte m'.byte root) (hnull : NonNull m.byte root) {r : Int}
    {l : List UInt8} (hcall : copyin root a len m = .ok (r, l) m) :
    copyin root a len m' = .ok (r, l) m' := by
  rcases copyin_spec hnull a len with ⟨k, hext, heq⟩
  rcases copyin_spec (hnull.congr h.sameTree) a len with ⟨k', hext', heq'⟩
  rw [hcall] at heq
  cases heq
  have hk := hext.unique (h.sameTree.extent hext')
  rw [heq', ← hk, h.userBytes hext.accessible]

theorem AgreeOn.copyinstr (h : AgreeOn m.byte m'.byte root) (hnull : NonNull m.byte root) {r : Int}
    {l : List UInt8} {max : Nat} (hcall : copyinstr root a max m = .ok (r, l) m) :
    copyinstr root a max m' = .ok (r, l) m' := by
  rcases copyinstr_spec hnull a max with ⟨k, nul, hext, heq⟩
  rcases copyinstr_spec (hnull.congr h.sameTree) a max with ⟨k', nul', hext', heq'⟩
  rw [hcall] at heq
  rcases hext.unique (h.strExtent hext') with ⟨rfl, rfl⟩
  rw [heq', strResult]
  have hval := (Outcome.ok.inj heq).1
  rw [strResult] at hval
  rw [hval]
  cases nul with
  | true =>
    rw [if_pos rfl, if_pos rfl, h.userBytes fun i hi => ?_]
    rcases Nat.eq_or_lt_of_le (Nat.le_of_lt_succ hi) with rfl | hi
    · exact (hext.found rfl).2.1
    · exact (hext.before i hi).1
  | false =>
    rw [if_neg Bool.false_ne_true, if_neg Bool.false_ne_true,
      h.userBytes fun i hi => (hext.before i hi).1]

/-- `copyin`, `copyout` and `copyinstr` return 0 just if all the bytes they need can be accessed,
and then transfer exactly these; they read and write no byte outside the pages of the user, and do
not panic. -/
theorem copies_respect_user_memory (h : Sound kend m root) (va len : Nat) :
    (∃ r k, copyin root va len m = .ok (r, userBytes m.byte root va k) m ∧
      Copied m.byte root va len r k) ∧
    (∀ src, ∃ r k, copyout root va src len m = .ok r
        { m with byte := applyWrites m.byte (userWrites m.byte root va src k) } ∧
      Copied m.byte root va len r k) ∧
    (∃ r l, copyinstr root va len m = .ok (r, l) m ∧ StrCopied m.byte root va len r l ∧
      l.length ≤ len) ∧
    (∀ a, Accessible m.byte root a → ∃ p i, UserPage m.byte root p ∧ i < PGSIZE ∧
      phys m.byte root a = p + i) ∧
    ∀ m', AgreeOn m.byte m'.byte root →
      (∀ r l, copyin root va len m = .ok (r, l) m → copyin root va len m' = .ok (r, l) m') ∧
      ∀ r l, copyinstr root va len m = .ok (r, l) m → copyinstr root va len m' = .ok (r, l) m' := by
  refine ⟨?_, fun src => ?_, ?_, fun a ha => ?_, fun m' hm' =>
    ⟨fun r l hcall => ?_, fun r l hcall => ?_⟩⟩
  · rcases copyin_spec h.nonNull va len with ⟨k, hext, hcall⟩
    exact ⟨_, k, hcall, hext.copied⟩
  · rcases copyout_spec h va src len with ⟨k, hext, hcall⟩
    exact ⟨_, k, hcall, hext.copied⟩
  · rcases copyinstr_spec h.nonNull va len with ⟨k, nul, hext, hcall⟩
    exact ⟨_, _, hcall, hext.copied, hext.copied.length_le⟩
  · refine ⟨_, a % PGSIZE, ha.page, Nat.mod_lt _ (by decide), ?_⟩
    rw [phys]
    omega
  · exact hm'.copyin h.nonNull hcall
  · exact hm'.copyinstr h.nonNull hcall

/-! ## A page for the user -/

/-- The user has page 0, which is the page at `KERNBASE`. -/
theorem exists_sound : ∃ m, Sound ⟨KERNBASE, le_rfl⟩ m (PHYSTOP - PGSIZE) ∧
    ∀ v, leaf m.byte (PHYSTOP - PGSIZE) v =
      if v = 0 then some (entry KERNBASE (PTE_R ||| PTE_U)) else none := by
  obtain ⟨hwf, hleaf, htables⟩ := @wf_freePages 2 ⟨by decide, by decide⟩ (by decide)
  have hspec : Prog.wp (mappages (PHYSTOP - PGSIZE) 0 PGSIZE KERNBASE (PTE_R ||| PTE_U)) _ _ _ :=
    mappages_spec hwf (by decide) (by decide) (by decide) (by decide) (by decide)
      fun w _ _ => hleaf w
  have hcall : (mappages (PHYSTOP - PGSIZE) 0 PGSIZE KERNBASE (PTE_R ||| PTE_U)
      (freePages 2)).value? = some 0 := by
    decide +kernel
  rcases Prog.exists_of_wp hspec fun _ he => he with ⟨r, m, hmap, j, hres, hedit⟩
  have hr : r = 0 := by
    rw [hmap] at hcall
    exact Option.some.inj hcall
  have hj : j = 1 := by
    rcases hres with ⟨-, rfl⟩ | ⟨hneg, -⟩
    · rfl
    · rw [hr] at hneg
      cases hneg
  subst hj
  have hmapped : ∀ v, leaf m.byte (PHYSTOP - PGSIZE) v =
      if v = 0 then some (entry KERNBASE (PTE_R ||| PTE_U)) else none := by
    intro v
    rw [hedit.leaf, mapped, hleaf]
    by_cases hv : v = 0
    · subst hv
      rfl
    · rw [if_neg hv, if_neg (by rw [Nat.zero_div]; omega)]
  refine ⟨m, ⟨hedit.wf, ?_⟩, hmapped⟩
  rintro p ⟨v, e, -, he, -, rfl⟩
  rw [hmapped] at he
  split at he
  · cases he
    rw [PTE2PA_entry (by decide) (by decide) (by decide)]
    refine ⟨by decide, fun ht => ?_⟩
    rcases hedit.taken with ⟨l, hl, htab⟩
    rcases (htab _).1 ht with ht | ht
    · exact absurd ((htables _).1 ht) (by decide)
    · have hmem : KERNBASE ∈ (freePages 2).free := hl ▸ List.mem_append_left _ ht
      exact absurd hmem (by decide)
  · cases he

theorem copies_respect_user_memory_page : ∃ m,
    Accessible m.byte (PHYSTOP - PGSIZE) 4095 ∧ ¬ Accessible m.byte (PHYSTOP - PGSIZE) 4096 ∧
    ∃ r k, copyin (PHYSTOP - PGSIZE) 4095 2 m =
        .ok (r, userBytes m.byte (PHYSTOP - PGSIZE) 4095 k) m ∧
      Copied m.byte (PHYSTOP - PGSIZE) 4095 2 r k := by
  rcases exists_sound with ⟨m, hsound, hleaf⟩
  refine ⟨m, ⟨by decide, _, (hleaf 0).trans (if_pos rfl), by decide⟩, ?_,
    (copies_respect_user_memory hsound 4095 2).1⟩
  rintro ⟨-, e, he, -⟩
  rw [hleaf] at he
  cases he

end Xv6.Vm
