import Mathlib.Data.List.Nodup

/-!
# Linked — linked lists in a memory

A memory in which every node holds the address of the next one is a function; a list of nodes is a
stretch of what one comes through by following it.
-/

namespace Xv6.Lib

variable {α : Type*} {next next' : α → α} {a b c null : α} {l l₁ l₂ : List α}

/-- From `a` one comes through the nodes `l` to `b`. -/
def Seg (next : α → α) (a : α) : List α → α → Prop
  | [], b => a = b
  | p :: l, b => a = p ∧ Seg next (next p) l b

namespace Seg

theorem append (h₁ : Seg next a l₁ b) (h₂ : Seg next b l₂ c) : Seg next a (l₁ ++ l₂) c := by
  induction l₁ generalizing a with
  | nil =>
    cases h₁
    exact h₂
  | cons p l ih => exact ⟨h₁.1, ih h₁.2⟩

/-- Only the nodes passed matter. -/
theorem congr (h : Seg next a l b) (heq : ∀ p ∈ l, next' p = next p) : Seg next' a l b := by
  induction l generalizing a with
  | nil => exact h
  | cons p l ih =>
    refine ⟨h.1, ?_⟩
    rw [heq p List.mem_cons_self]
    exact ih h.2 fun q hq => heq q (List.mem_cons_of_mem _ hq)

theorem split (h : Seg next a (l₁ ++ l₂) c) : ∃ b, Seg next a l₁ b ∧ Seg next b l₂ c := by
  induction l₁ generalizing a with
  | nil => exact ⟨a, rfl, h⟩
  | cons p l ih =>
    rcases ih h.2 with ⟨b, hl, hr⟩
    exact ⟨b, ⟨h.1, hl⟩, hr⟩

theorem mid {p : α} (h : Seg next a (l₁ ++ p :: l₂) c) :
    Seg next a l₁ p ∧ Seg next (next p) l₂ c := by
  rcases h.split with ⟨b, hl, hb, hr⟩
  exact ⟨hb ▸ hl, hr⟩

/-- A circular list may be begun at each of its nodes. -/
theorem rotate {p : α} (h : Seg next a (l₁ ++ p :: l₂) a) : Seg next (next p) (l₂ ++ l₁) p :=
  h.mid.2.append h.mid.1

theorem map_next {p : α} (h : Seg next a (p :: l) b) : (p :: l).map next = l ++ [b] := by
  induction l generalizing a p with
  | nil =>
    have hb : next p = b := h.2
    rw [List.map_singleton, hb, List.nil_append]
  | cons q l ih =>
    have hq : next p = q := h.2.1
    rw [List.map_cons, ih h.2, hq, List.cons_append]

/-- In a circular list without repetitions every node is behind one node only. -/
theorem next_inj {p q : α} (h : Seg next a (a :: l) a) (hnodup : (a :: l).Nodup) (hp : p ∈ a :: l)
    (hq : q ∈ a :: l) (heq : next p = next q) : p = q := by
  have hmap : ((a :: l).map next).Nodup := by
    rw [h.map_next]
    exact List.nodup_append_comm.1 hnodup
  exact List.inj_on_of_nodup_map hmap hp hq heq

end Seg

/-- The nodes `l` are a list from `a` that ends in `null`. -/
structure Linked (next : α → α) (null a : α) (l : List α) : Prop where
  seg : Seg next a l null
  null : null ∉ l

namespace Linked

theorem nil : Linked next null null [] :=
  ⟨rfl, List.not_mem_nil⟩

theorem cons (h : Linked next null (next a) l) (ha : a ≠ null) : Linked next null a (a :: l) :=
  ⟨⟨rfl, h.seg⟩, fun hmem => (List.mem_cons.1 hmem).elim (fun heq => ha heq.symm) h.null⟩

theorem tail (h : Linked next null a (b :: l)) : Linked next null (next b) l :=
  ⟨h.seg.2, fun hmem => h.null (List.mem_cons_of_mem _ hmem)⟩

theorem congr (h : Linked next null a l) (heq : ∀ p ∈ l, next' p = next p) :
    Linked next' null a l :=
  ⟨h.seg.congr heq, h.null⟩

theorem ne_nil (h : Linked next null a l) (ha : a ≠ null) : ∃ l', l = a :: l' := by
  cases l with
  | nil => exact absurd h.seg ha
  | cons p l => exact ⟨l, by rw [h.seg.1]⟩

theorem eq_nil (h : Linked next null null l) : l = [] := by
  cases l with
  | nil => rfl
  | cons p l => exact absurd List.mem_cons_self (h.seg.1 ▸ h.null)

theorem unique (h₁ : Linked next null a l₁) (h₂ : Linked next null a l₂) : l₁ = l₂ := by
  induction l₁ generalizing a l₂ with
  | nil =>
    have ha : a = null := h₁.seg
    rw [ha] at h₂
    exact h₂.eq_nil.symm
  | cons p l ih =>
    have ha : a = p := h₁.seg.1
    have hne : a ≠ null := fun heq => h₁.null (by rw [← heq, ha]; exact List.mem_cons_self)
    rcases h₂.ne_nil hne with ⟨l', rfl⟩
    have htail : Linked next null (next p) l' := ha ▸ h₂.tail
    rw [ih h₁.tail htail, ha]

theorem drop (h : Linked next null a (l₁ ++ b :: l₂)) : Linked next null b (b :: l₂) := by
  rcases h.seg.split with ⟨c, -, hr⟩
  have hb : c = b := hr.1
  refine ⟨hb ▸ hr, fun hmem => h.null (List.mem_append_right _ hmem)⟩

/-- A node that came twice would be followed by two lists of different lengths. -/
theorem nodup (h : Linked next null a l) : l.Nodup := by
  induction l generalizing a with
  | nil => exact List.nodup_nil
  | cons p l ih =>
    refine List.nodup_cons.2 ⟨fun hmem => ?_, ih h.tail⟩
    rcases List.append_of_mem hmem with ⟨l₁, l₂, rfl⟩
    have hlong : Linked next null p (p :: (l₁ ++ p :: l₂)) := h.seg.1 ▸ h
    have hshort : Linked next null p (p :: l₂) := h.tail.drop
    have hlen := congrArg List.length (hlong.unique hshort)
    simp only [List.length_cons, List.length_append] at hlen
    omega

end Linked

end Xv6.Lib
