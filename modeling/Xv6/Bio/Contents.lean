import Xv6.Bio.Ownership

/-!
# Contents — what the cache and the disk hold for a block

Locks, reference counts and the order of the list do not matter to what is stored where.
`Contents` keeps the rest of the cache and the disk, and an operation of `bio.c` either leaves it
as it is or recycles, reads, changes or writes one buffer.  `view` is the block as a reader of the
root device gets it: from the buffer that caches it, or else from the disk.
-/

namespace Xv6.Bio

open Log
open Function (update update_eq_self update_of_ne update_self)

/-- The part of a buffer that stands for a block. -/
structure Copy where
  dev : UInt32
  blockno : BlockNo
  valid : Bool
  data : Block

/-- A valid copy of block `n` of the root device. -/
def Copy.Of (x : Copy) (n : BlockNo) : Prop :=
  x.dev = ROOTDEV ∧ x.blockno = n ∧ x.valid = true

instance (x : Copy) (n : BlockNo) : Decidable (x.Of n) :=
  inferInstanceAs (Decidable (_ ∧ _))

structure Contents where
  copy : BufId → Copy
  disk : Disk

namespace Contents

variable {a : BufId} {data : Block}

/-- At most one buffer stands for a block of the root device. -/
def Unique (c : Contents) : Prop :=
  ∀ a b, (c.copy a).dev = ROOTDEV → (c.copy b).dev = ROOTDEV →
    (c.copy a).blockno = (c.copy b).blockno → a = b

/-- Block `n` as `bread` finds it. -/
def view (c : Contents) (n : BlockNo) : Block :=
  match (List.finRange NBUF).find? fun b => (c.copy b).Of n with
  | some b => (c.copy b).data
  | none => c.disk n

theorem view_cases (c : Contents) (n : BlockNo) :
    (∃ b, (c.copy b).Of n ∧ c.view n = (c.copy b).data) ∨
      (∀ b, ¬ (c.copy b).Of n) ∧ c.view n = c.disk n := by
  unfold view
  cases h : (List.finRange NBUF).find? fun b => (c.copy b).Of n with
  | some b => exact .inl ⟨b, by simpa using List.find?_some h, rfl⟩
  | none =>
    refine .inr ⟨?_, rfl⟩
    intro b
    simpa using List.find?_eq_none.1 h b (List.mem_finRange b)

variable {c : Contents} {n : BlockNo}

theorem view_of_copy (hc : c.Unique) {b : BufId}
    (h : (c.copy b).Of n) : c.view n = (c.copy b).data := by
  rcases c.view_cases n with ⟨a, ha, hview⟩ | ⟨hnone, _⟩
  · have hab : a = b := hc a b ha.1 h.1 (ha.2.1.trans h.2.1.symm)
    rwa [hab] at hview
  · exact absurd h (hnone b)

theorem view_of_not (h : ∀ b, ¬ (c.copy b).Of n) : c.view n = c.disk n := by
  rcases c.view_cases n with ⟨a, ha, _⟩ | ⟨_, hview⟩
  · exact absurd ha (h a)
  · exact hview

/-! ## The four operations -/

/-- `bget` takes a buffer for another block. -/
def recycle (c : Contents) (b : BufId) (dev : UInt32) (n : BlockNo) : Contents :=
  { c with
    copy := update c.copy b { c.copy b with dev := dev, blockno := n, valid := false } }

/-- `bread` reads the disk. -/
def refill (c : Contents) (b : BufId) : Contents :=
  { c with
    copy := update c.copy b { c.copy b with data := c.disk (c.copy b).blockno, valid := true } }

def store (c : Contents) (b : BufId) (data : Block) : Contents :=
  { c with copy := update c.copy b { c.copy b with data := data } }

def write (c : Contents) (b : BufId) : Contents :=
  { c with disk := update c.disk (c.copy b).blockno (c.copy b).data }

/-- Recycling a buffer is not seen if its block was on the disk. -/
theorem view_recycle (hc : c.Unique) {a : BufId} {dev : UInt32} {m : BlockNo}
    (hd : (c.recycle a dev m).Unique) (h : (c.copy a).Of n → (c.copy a).data = c.disk n) :
    (c.recycle a dev m).view n = c.view n := by
  have hkeep : ∀ b, b ≠ a → (c.recycle a dev m).copy b = c.copy b := fun b hb =>
    update_of_ne hb _ _
  have hgone : ∀ b, ((c.recycle a dev m).copy b).Of n → b ≠ a := by
    rintro b hb rfl
    simp [recycle, Copy.Of] at hb
  rcases c.view_cases n with ⟨b, hb, hview⟩ | ⟨hnone, hview⟩
  · by_cases hba : b = a
    · -- The block was cached in the recycled buffer; now it is read from the disk.
      subst hba
      rw [hview, h hb]
      apply view_of_not
      intro d hdn
      have hdb := hgone d hdn
      rw [hkeep d hdb] at hdn
      exact hdb (hc d b hdn.1 hb.1 (hdn.2.1.trans hb.2.1.symm))
    · rw [hview, view_of_copy hd (b := b) (by rwa [hkeep b hba]), hkeep b hba]
  · rw [hview]
    apply view_of_not
    intro b hb
    have hba := hgone b hb
    rw [hkeep b hba] at hb
    exact hnone b hb

/-- Reading a block into the cache is not seen. -/
theorem view_refill (hd : (c.refill a).Unique) (ha : (c.copy a).valid = false)
    (n : BlockNo) : (c.refill a).view n = c.view n := by
  have hkeep : ∀ b, b ≠ a → (c.refill a).copy b = c.copy b := fun b hb =>
    update_of_ne hb _ _
  have hself : (c.refill a).copy a =
      { c.copy a with data := c.disk (c.copy a).blockno, valid := true } :=
    update_self _ _ _
  rcases c.view_cases n with ⟨b, hb, hview⟩ | ⟨hnone, hview⟩
  · have hba : b ≠ a := by
      rintro rfl
      simp [Copy.Of, ha] at hb
    rw [hview, view_of_copy hd (b := b) (by rwa [hkeep b hba]), hkeep b hba]
  · rw [hview]
    by_cases h : ((c.refill a).copy a).Of n
    · have hno := h.2.1
      rw [view_of_copy hd h]
      simp only [hself] at hno ⊢
      rw [hno]
    · apply view_of_not
      intro b hb
      by_cases hba : b = a
      · exact h (hba ▸ hb)
      · rw [hkeep b hba] at hb
        exact hnone b hb

theorem copy_store_of (c : Contents) (a b : BufId) (data : Block) (n : BlockNo) :
    ((c.store a data).copy b).Of n ↔ (c.copy b).Of n := by
  by_cases hba : b = a
  · subst hba
    simp [store, Copy.Of]
  · simp [store, update_of_ne hba]

/-- Storing to a buffer changes the block it caches. -/
theorem view_store (hd : (c.store a data).Unique)
    (ha : (c.copy a).Of n) : (c.store a data).view n = data := by
  rw [view_of_copy hd ((c.copy_store_of a a data n).2 ha)]
  simp [store]

theorem view_store_of_not (hd : (c.store a data).Unique)
    (ha : ¬ (c.copy a).Of n) : (c.store a data).view n = c.view n := by
  rcases c.view_cases n with ⟨b, hb, hview⟩ | ⟨hnone, hview⟩
  · have hba : b ≠ a := fun h => ha (h ▸ hb)
    rw [hview, view_of_copy hd ((c.copy_store_of a b data n).2 hb)]
    simp [store, update_of_ne hba]
  · rw [hview]
    exact view_of_not fun b hb => hnone b ((c.copy_store_of a b data n).1 hb)

/-- Writing a valid copy to the disk is not seen. -/
theorem view_write (hc : c.Unique) {m : BlockNo} (ha : (c.copy a).Of m)
    (n : BlockNo) : (c.write a).view n = c.view n := by
  rcases c.view_cases n with ⟨b, hb, hview⟩ | ⟨hnone, hview⟩
  · rw [hview]
    exact view_of_copy (c := c.write a) hc hb
  · have hn : n ≠ (c.copy a).blockno := by
      rintro rfl
      exact hnone a ⟨ha.1, rfl, ha.2.2⟩
    rw [hview, view_of_not (c := c.write a) hnone]
    exact update_of_ne hn _ _

end Contents

/-! ## What the operations of the cache do to the contents -/

namespace State

variable {s t : State} {p : Slot} {n : BlockNo}

def contents (s : State) : Contents where
  copy b := { dev := (s.buf b).dev, blockno := (s.buf b).blockno,
              valid := (s.buf b).valid, data := (s.buf b).data }
  disk := s.disk

theorem Inv.unique {pins : BufId → Nat} (hs : s.Inv pins) : s.contents.Unique := by
  intro a b ha hb hno
  have hroot : (s.buf a).dev = ROOTDEV := ha
  exact hs.ident a b (by rw [hroot]; decide) (ha.trans hb.symm) hno

theorem contents_setThread (s : State) (p : Slot) (th : Thread) :
    (s.setThread p th).contents = s.contents := rfl

theorem contents_setBuf (s : State) (b : BufId) (x : Buf) : (s.setBuf b x).contents =
      { s.contents with
        copy := update s.contents.copy b
          { dev := x.dev, blockno := x.blockno, valid := x.valid, data := x.data } } := by
  have hcopy : (s.setBuf b x).contents.copy = update s.contents.copy b
      { dev := x.dev, blockno := x.blockno, valid := x.valid, data := x.data } := by
    funext c
    by_cases hc : c = b
    · subst hc
      simp [contents, setBuf]
    · simp [contents, setBuf, update_of_ne hc]
  rw [← hcopy]
  rfl

theorem contents_setBuf_same (s : State) {b : BufId} {x : Buf} (hdev : x.dev = (s.buf b).dev)
    (hno : x.blockno = (s.buf b).blockno) (hvalid : x.valid = (s.buf b).valid)
    (hdata : x.data = (s.buf b).data) : (s.setBuf b x).contents = s.contents := by
  have hself : s.contents.copy b =
      { dev := x.dev, blockno := x.blockno, valid := x.valid, data := x.data } := by
    simp [contents, hdev, hno, hvalid, hdata]
  rw [contents_setBuf, ← hself, update_eq_self]

theorem contents_acquiresleep (h : s.acquiresleep p = some t) : t.contents = s.contents := by
  rcases acquiresleep_eq_some h with ⟨dev, n, b, _, _, rfl⟩
  exact s.contents_setBuf_same rfl rfl rfl rfl

theorem contents_fill (h : s.fill p = some t) :
    t.contents = s.contents ∨ ∃ dev n b, (s.thread p).io = some (.fill dev n b) ∧
      (s.buf b).valid = false ∧ t.contents = s.contents.refill b := by
  rcases fill_eq_some h with ⟨dev, n, b, hio, rfl⟩
  rw [contents_setThread]
  by_cases hvalid : (s.buf b).valid = true
  · refine .inl (s.contents_setBuf_same ?_ ?_ ?_ ?_) <;> simp [filled, hvalid]
  · refine .inr ⟨dev, n, b, hio, by simpa using hvalid, ?_⟩
    rw [contents_setBuf]
    simp [filled, hvalid, Contents.refill, contents]

theorem contents_releasesleep (s : State) (p : Slot) (b : BufId) :
    (s.releasesleep p b).contents = s.contents :=
  s.contents_setBuf_same rfl rfl rfl rfl

theorem contents_drop (h : s.drop p = some t) : t.contents = s.contents := by
  rcases drop_eq_some h with ⟨b, u, _, rfl, rfl | rfl⟩
  · exact s.contents_setBuf_same rfl rfl rfl rfl
  · exact s.contents_setBuf_same rfl rfl rfl rfl

theorem contents_setRefcnt (s : State) (b : BufId) (r : Int) :
    (s.setBuf b { s.buf b with refcnt := r }).contents = s.contents :=
  s.contents_setBuf_same rfl rfl rfl rfl

theorem contents_store (s : State) (b : BufId) (data : Block) :
    (s.store b data).contents = s.contents.store b data :=
  s.contents_setBuf b _

theorem store_ident (s : State) (b : BufId) (data : Block) (c : BufId) :
    ((s.store b data).buf c).dev = (s.buf c).dev ∧
      ((s.store b data).buf c).blockno = (s.buf c).blockno := by
  by_cases hc : c = b
  · subst hc
    simp [store, setBuf]
  · simp [store, setBuf, update_of_ne hc]

theorem contents_bwrite (s : State) (b : BufId) : (s.bwrite b).contents = s.contents.write b := rfl

end State

end Xv6.Bio
