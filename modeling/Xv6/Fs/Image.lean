import Xv6.Fs.Slots

/-!
# Image — the volumes that the file system starts from

What it means that the bitmap, the inodes and the indirect blocks of a volume agree, in the terms of
the disk alone.
-/

namespace Xv6.Fs

open Lib

namespace Volume

variable {sb : Superblock} {v : Volume}

/-- The volume when nothing of it has been changed since it was read from the disk. -/
def mount (v : Volume) : Volume :=
  { v with disk := v.data }

/-! ## Ownership -/

/-- Slot `x.2` of the allocated inode `x.1` has block `b`. -/
def Owns (sb : Superblock) (v : Volume) (x : Nat × Nat) (b : Nat) : Prop :=
  (v.dip sb x.1).type ≠ .free ∧ x.2 < NSLOT ∧ v.held sb x = b ∧ b ≠ 0

/-- A block's bit is set just if it is a metadata block or in one slot of one allocated inode; what
slots have are data blocks, none of them twice; and a free inode has no blocks. -/
structure Owned (sb : Superblock) (v : Volume) : Prop where
  bits : ∀ b, b < sb.size → (v.bit sb b = true ↔ b < sb.nmeta ∨ ∃! x, v.Owns sb x b)
  once : ∀ x y b, v.Owns sb x b → v.Owns sb y b → x = y
  range : ∀ x b, v.Owns sb x b → sb.nmeta ≤ b ∧ b < sb.size
  free : ∀ i, (v.dip sb i).type = .free → ∀ k, k ≤ NDIRECT → (v.dip sb i).addrs k = 0

/-- All blocks below the size of an allocated inode are there. -/
def NoHoles (sb : Superblock) (v : Volume) : Prop :=
  ∀ i, (v.dip sb i).type ≠ .free → ∀ bn, bn < ((v.dip sb i).size + BSIZE - 1) / BSIZE →
    v.held sb (i, slotOf bn) ≠ 0

theorem lt_blocks_iff {bn size : Nat} : bn < (size + BSIZE - 1) / BSIZE ↔ bn * BSIZE < size := by
  simp only [BSIZE]
  omega

theorem held_of_free {i : Nat} (h : ∀ k, k ≤ NDIRECT → (v.dip sb i).addrs k = 0) (k : Nat) :
    v.held sb (i, k) = 0 := by
  by_cases hk : k ≤ NDIRECT
  · rw [held_addr v i hk, h k hk]
  · exact Dinode.slot_of_zero (by omega) (h _ (Nat.le_refl _))

theorem owns_iff
    (hfree : ∀ i, (v.dip sb i).type = .free → ∀ k, k ≤ NDIRECT → (v.dip sb i).addrs k = 0)
    (x : Nat × Nat) (b : Nat) : v.Owns sb x b ↔ v.held sb x = b ∧ b ≠ 0 := by
  refine ⟨fun h => h.2.2, fun ⟨hheld, hb⟩ => ⟨fun htype => ?_, ?_, hheld, hb⟩⟩
  · rw [← hheld, held_of_free (hfree x.1 htype)] at hb
    exact hb rfl
  · by_contra hk
    rw [← hheld] at hb
    exact hb (Dinode.slot_of_ge (Nat.le_of_not_lt hk))

theorem owned_iff : v.Owned sb ↔ Holding sb.nmeta sb.size (v.bit sb) (v.held sb) ∧
    ∀ i, (v.dip sb i).type = .free → ∀ k, k ≤ NDIRECT → (v.dip sb i).addrs k = 0 := by
  constructor
  · intro h
    have howns := owns_iff h.free
    refine ⟨⟨?_, ?_, ?_⟩, h.free⟩
    · intro x y hx hxy
      exact h.once x y _ ((howns x _).2 ⟨rfl, hx⟩) ((howns y _).2 ⟨hxy.symm, hx⟩)
    · intro x hx
      exact h.range x _ ((howns x _).2 ⟨rfl, hx⟩)
    · intro b hb
      rw [h.bits b hb]
      refine or_congr_right ⟨?_, ?_⟩
      · rintro ⟨x, hx, _⟩
        rcases (howns x b).1 hx with ⟨hheld, hne⟩
        exact ⟨hne, x, hheld⟩
      · rintro ⟨hne, x, hx⟩
        have hown := (howns x b).2 ⟨hx, hne⟩
        exact ⟨x, hown, fun y hy => h.once y x b hy hown⟩
  · rintro ⟨h, hfree⟩
    have howns := owns_iff hfree
    have honce : ∀ x y b, v.Owns sb x b → v.Owns sb y b → x = y := by
      intro x y b hx hy
      rcases (howns x b).1 hx with ⟨hxb, hne⟩
      rcases (howns y b).1 hy with ⟨hyb, _⟩
      exact h.inj x y (by rwa [hxb]) (hxb.trans hyb.symm)
    refine ⟨?_, honce, ?_, hfree⟩
    · intro b hb
      rw [h.used_iff b hb]
      refine or_congr_right ⟨?_, ?_⟩
      · rintro ⟨hne, x, hx⟩
        have hown := (howns x b).2 ⟨hx, hne⟩
        exact ⟨x, hown, fun y hy => honce y x b hy hown⟩
      · rintro ⟨x, hx, _⟩
        rcases (howns x b).1 hx with ⟨hheld, hne⟩
        exact ⟨hne, x, hheld⟩
    · intro x b hx
      rcases (howns x b).1 hx with ⟨rfl, hne⟩
      exact h.range x hne

theorem Owned.intact (h : v.Owned sb) (hmapped : v.NoHoles sb) : v.mount.Intact sb := by
  rcases owned_iff.1 h with ⟨hholding, hfree⟩
  refine ⟨hholding, hfree, ?_, fun _ _ _ _ => rfl⟩
  intro i htype bn hbn
  exact hmapped i htype bn (lt_blocks_iff.2 hbn)

theorem Intact.owned (h : v.Intact sb) : v.Owned sb :=
  owned_iff.2 ⟨h.holding, h.free⟩

theorem Intact.noHoles (h : v.Intact sb) : v.NoHoles sb :=
  fun i htype bn hbn => h.mapped i htype bn (lt_blocks_iff.1 hbn)

end Volume
end Xv6.Fs
