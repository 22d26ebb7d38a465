import Mathlib.Algebra.Order.BigOperators.Group.Finset
import Xv6.Bio.Cache

/-!
# Ownership — who holds and who waits for a buffer

A buffer's reference count is the number of calls that hold it, wait for it or are giving it back,
plus the number of times the log has pinned it.  A buffer in use keeps its block, so a process gets
the buffer of the block it asked for, and no two buffers cache one block of a device.
-/

namespace Xv6.Bio

open Lib Log
open Function (update_apply update_of_ne)

/-- How often a process refers to buffer `b`. -/
def Thread.uses (th : Thread) (b : BufId) : Nat :=
  th.held.count b + if th.io.map Io.target = some b then 1 else 0

/-- The process holds the sleep lock of buffer `b`. -/
def Thread.Locks (th : Thread) (b : BufId) : Prop :=
  b ∈ th.held ∨ ∃ dev n, th.io = some (.fill dev n b)

namespace State

/-- The references to buffer `b` from calls of `bread` and `brelse`. -/
def users (s : State) (b : BufId) : Nat :=
  ∑ p, (s.thread p).uses b

structure Inv (s : State) (pins : BufId → Nat) : Prop where
  ident : ∀ b c, (s.buf b).dev ≠ 0 → (s.buf b).dev = (s.buf c).dev →
    (s.buf b).blockno = (s.buf c).blockno → b = c
  count : ∀ b, (s.buf b).refcnt = s.users b + pins b
  holder : ∀ b p, (s.buf b).lock = some p ↔ (s.thread p).Locks b
  nodup : ∀ p, (s.thread p).held.Nodup
  filling : ∀ p dev n b, (s.thread p).io = some (.fill dev n b) → b ∉ (s.thread p).held
  request : ∀ p dev n b,
    (s.thread p).io = some (.wait dev n b) ∨ (s.thread p).io = some (.fill dev n b) →
      (s.buf b).dev = dev ∧ (s.buf b).blockno = n
  valid : ∀ p b, b ∈ (s.thread p).held → (s.buf b).valid = true

/-! ## Counting references -/

theorem users_setThread (s : State) (p : Slot) (th : Thread) (b : BufId) :
    (s.setThread p th).users b + (s.thread p).uses b = s.users b + th.uses b :=
  sum_update_add s.thread (fun th => th.uses b) p th

@[simp]
theorem users_setBuf (s : State) (b c : BufId) (x : Buf) : (s.setBuf b x).users c = s.users c := rfl

theorem uses_le_users (s : State) (p : Slot) (b : BufId) : (s.thread p).uses b ≤ s.users b :=
  Finset.single_le_sum (f := fun p => (s.thread p).uses b) (fun _ _ => Nat.zero_le _)
    (Finset.mem_univ p)

variable {th : Thread} {b : BufId} {p : Slot} {dev : UInt32} {n : BlockNo} {t : State}

theorem uses_pos_of_held (h : b ∈ th.held) : 0 < th.uses b := by
  have hcount := List.count_pos_iff.2 h
  unfold Thread.uses
  omega

theorem uses_pos_of_io {io : Io} (h : th.io = some io) : 0 < th.uses io.target := by
  simp [Thread.uses, h]

/-- A buffer without references is neither held, waited for nor pinned. -/
theorem Inv.idle {s : State} {pins : BufId → Nat} (hs : s.Inv pins)
    (h : (s.buf b).refcnt = 0) : (∀ p, (s.thread p).uses b = 0) ∧ pins b = 0 := by
  have hcount := hs.count b
  refine ⟨?_, by omega⟩
  intro p
  have hle := s.uses_le_users p b
  omega

/-- Nor is it locked, and no call is about it. -/
theorem Inv.unreferenced {s : State} {pins : BufId → Nat} (hs : s.Inv pins)
    (h : (s.buf b).refcnt = 0) : (s.buf b).lock = none ∧ (∀ q, b ∉ (s.thread q).held) ∧
      ∀ q io, (s.thread q).io = some io → io.target ≠ b := by
  have hidle := (hs.idle h).1
  have hheld : ∀ q, b ∉ (s.thread q).held := fun q hq =>
    Nat.ne_of_gt (uses_pos_of_held hq) (hidle q)
  have hbusy : ∀ q io, (s.thread q).io = some io → io.target ≠ b := by
    rintro q io hq rfl
    exact Nat.ne_of_gt (uses_pos_of_io hq) (hidle q)
  refine ⟨Option.eq_none_iff_forall_ne_some.2 fun q hq => ?_, hheld, hbusy⟩
  rcases (hs.holder b q).1 hq with hq | ⟨_, _, hq⟩
  · exact hheld q hq
  · exact hbusy q _ hq rfl

theorem Inv.lock_of_held {s : State} {pins : BufId → Nat} (hs : s.Inv pins)
    (h : b ∈ (s.thread p).held) : (s.buf b).lock = some p :=
  (hs.holder b p).2 (.inl h)

/-! ## The operations keep the invariant -/

section Operations

variable {s : State} {pins : BufId → Nat}

attribute [local grind =] update_apply

/-- A step of process `p` on a buffer that keeps its block. -/
theorem Inv.update (hs : s.Inv pins) {x : Buf}
    {pins' : BufId → Nat} (hdev : x.dev = (s.buf b).dev) (hblockno : x.blockno = (s.buf b).blockno)
    (hvalid : (s.buf b).valid = true → x.valid = true)
    (hcount : x.refcnt + (s.thread p).uses b + pins b = (s.buf b).refcnt + th.uses b + pins' b)
    (hothers : ∀ c, c ≠ b → th.uses c = (s.thread p).uses c ∧ pins' c = pins c)
    (hlock : ∀ q, x.lock = some q ↔ (Function.update s.thread p th q).Locks b)
    (hlocks : ∀ c, c ≠ b → (th.Locks c ↔ (s.thread p).Locks c))
    (hnodup : th.held.Nodup)
    (hfilling : ∀ dev n c, th.io = some (.fill dev n c) → c ∉ th.held)
    (hrequest : ∀ dev n c, th.io = some (.wait dev n c) ∨ th.io = some (.fill dev n c) →
      (s.buf c).dev = dev ∧ (s.buf c).blockno = n)
    (hheld : ∀ c, c ∈ th.held → c ∈ (s.thread p).held ∨ c = b ∧ x.valid = true) :
    ((s.setBuf b x).setThread p th).Inv pins' := by
  rcases hs with ⟨ident, count, holder, nodup, filling, request, valid⟩
  constructor
  case count =>
    intro c
    have hsum := (s.setBuf b x).users_setThread p th c
    have hold := count c
    have hother := hothers c
    have hbuf : ((s.setBuf b x).setThread p th).buf c = if c = b then x else s.buf c :=
      update_apply ..
    rw [users_setBuf, show (s.setBuf b x).thread p = s.thread p from rfl] at hsum
    grind
  all_goals simp only [setBuf, setThread]
  all_goals grind

theorem cached_eq_some (h : s.cached dev n = some b) :
    (s.buf b).dev = dev ∧ (s.buf b).blockno = n := by
  simpa [cached] using List.find?_some h

theorem cached_eq_none (h : s.cached dev n = none) (b : BufId) :
    ¬ ((s.buf b).dev = dev ∧ (s.buf b).blockno = n) := by
  simpa [cached] using List.find?_eq_none.1 h b (s.mem_lru b)

theorem bget_eq_some (h : s.bget p dev n = some t) :
    ∃ b x, t = (s.setBuf b x).setThread p { s.thread p with io := some (.wait dev n b) } ∧
      (s.cached dev n = some b ∧ x = { s.buf b with refcnt := (s.buf b).refcnt + 1 } ∨
        s.cached dev n = none ∧ (s.buf b).refcnt = 0 ∧
          x = { s.buf b with dev := dev, blockno := n, valid := false, refcnt := 1 }) := by
  unfold bget at h
  split at h
  · rename_i b hb
    cases h
    exact ⟨b, _, rfl, .inl ⟨hb, rfl⟩⟩
  · split at h
    · rename_i b hb
      cases h
      exact ⟨b, _, rfl, .inr ⟨‹_›, by simpa [unused] using List.find?_some hb, rfl⟩⟩
    · cases h

theorem Inv.bget_hit (hs : s.Inv pins)
    (hio : (s.thread p).io = none) (hb : s.cached dev n = some b) :
    ((s.setBuf b { s.buf b with refcnt := (s.buf b).refcnt + 1 }).setThread p
      { s.thread p with io := some (.wait dev n b) }).Inv pins := by
  refine hs.update rfl rfl id ?_ ?_ ?_ ?_ (hs.nodup p) ?_ ?_ ?_
  · simp [Thread.uses, hio, Io.target]
    omega
  · intro c hc
    simp [Thread.uses, hio, Io.target, Ne.symm hc]
  · intro q
    have hheld := hs.holder b q
    by_cases hq : q = p
    · subst hq
      simpa [Thread.Locks, hio] using hheld
    · simpa [update_of_ne hq] using hheld
  · intro c _
    simp [Thread.Locks, hio]
  · simp
  · simpa using cached_eq_some hb
  · exact fun c hc => .inl hc

theorem Inv.bget_miss (hs : s.Inv pins)
    (hio : (s.thread p).io = none) (hnone : s.cached dev n = none) (hb : (s.buf b).refcnt = 0) :
    ((s.setBuf b { s.buf b with dev := dev, blockno := n, valid := false, refcnt := 1 }).setThread p
        { s.thread p with io := some (.wait dev n b) }).Inv pins := by
  have hpins := (hs.idle hb).2
  rcases hs.unreferenced hb with ⟨hfree, hheld, hbusy⟩
  have hcached := cached_eq_none hnone
  -- A thread refers to buffer `b` after the step only if it is `p`, in its new wait.
  have huses : ∀ c, Thread.uses { s.thread p with io := some (.wait dev n b) } c =
      (s.thread p).uses c + if c = b then 1 else 0 := by
    simp [Thread.uses, hio, Io.target, eq_comm]
  rcases hs with ⟨ident, count, holder, nodup, filling, request, valid⟩
  constructor
  case count =>
    intro c
    have hsum := (s.setBuf b { s.buf b with
      dev := dev, blockno := n, valid := false, refcnt := 1 }).users_setThread p
        { s.thread p with io := some (.wait dev n b) } c
    have hold := count c
    rw [users_setBuf, huses c] at hsum
    simp only [setBuf, setThread] at hsum ⊢
    grind
  all_goals simp only [setBuf, setThread]
  all_goals grind [Thread.Locks, Io.target]

theorem acquiresleep_eq_some (h : s.acquiresleep p = some t) :
    ∃ dev n b, (s.thread p).io = some (.wait dev n b) ∧ (s.buf b).lock = none ∧
      t = (s.setBuf b { s.buf b with lock := some p }).setThread p
        { s.thread p with io := some (.fill dev n b) } := by
  unfold acquiresleep at h
  split at h
  · rename_i dev n b hio
    split at h
    · cases h
      exact ⟨dev, n, b, hio, ‹_›, rfl⟩
    · cases h
  · cases h

theorem Inv.acquiresleep (hs : s.Inv pins) (h : s.acquiresleep p = some t) : t.Inv pins := by
  rcases acquiresleep_eq_some h with ⟨dev, n, b, hio, hfree, rfl⟩
  have hnot : ∀ q, ¬ (s.thread q).Locks b := by
    intro q hq
    have hlock := (hs.holder b q).2 hq
    simp [hfree] at hlock
  refine hs.update rfl rfl id ?_ ?_ ?_ ?_ (hs.nodup p) ?_ ?_ ?_
  · simp [Thread.uses, hio, Io.target]
  · intro c _
    simp [Thread.uses, hio, Io.target]
  · intro q
    by_cases hq : q = p
    · subst hq
      simp [Thread.Locks]
    · simpa [update_of_ne hq, Ne.symm hq] using hnot q
  · intro c hc
    simp [Thread.Locks, hio, Ne.symm hc]
  · rintro dev' n' c hc hheld
    rcases (by simpa using hc : dev = dev' ∧ n = n' ∧ b = c) with ⟨rfl, rfl, rfl⟩
    exact hnot p (.inl hheld)
  · intro dev' n' c hc
    rcases (by simpa using hc : dev = dev' ∧ n = n' ∧ b = c) with ⟨rfl, rfl, rfl⟩
    exact hs.request p dev n b (.inl hio)
  · exact fun c hc => .inl hc

theorem fill_eq_some (h : s.fill p = some t) : ∃ dev n b, (s.thread p).io = some (.fill dev n b) ∧
      t = (s.setBuf b (s.filled b)).setThread p
        { held := b :: (s.thread p).held, io := none, ret := b } := by
  unfold fill at h
  split at h
  · rename_i dev n b hio
    cases h
    exact ⟨dev, n, b, hio, rfl⟩
  · cases h

theorem filled_fields (s : State) (b : BufId) :
    (s.filled b).valid = true ∧ (s.filled b).dev = (s.buf b).dev ∧
      (s.filled b).blockno = (s.buf b).blockno ∧ (s.filled b).lock = (s.buf b).lock ∧
        (s.filled b).refcnt = (s.buf b).refcnt := by
  unfold filled
  split
  · exact ⟨‹_›, rfl, rfl, rfl, rfl⟩
  · exact ⟨rfl, rfl, rfl, rfl, rfl⟩

theorem Inv.fill (hs : s.Inv pins) (h : s.fill p = some t) : t.Inv pins := by
  rcases fill_eq_some h with ⟨dev, n, b, hio, rfl⟩
  rcases s.filled_fields b with ⟨hvalid, hdev, hno, hlock, href⟩
  have hnew := hs.filling p dev n b hio
  refine hs.update hdev hno (fun _ => hvalid) ?_ ?_ ?_ ?_ ?_ (by simp) (by simp) ?_
  · rw [href]
    simp [Thread.uses, hio, Io.target, List.count_eq_zero_of_not_mem hnew]
  · intro c hc
    simp [Thread.uses, hio, Io.target, Ne.symm hc]
  · intro q
    rw [hlock, hs.holder b q]
    by_cases hq : q = p
    · subst hq
      simp [Thread.Locks, hio]
    · rw [update_of_ne hq]
  · intro c hc
    simp [Thread.Locks, hio, hc, Ne.symm hc]
  · exact List.nodup_cons.2 ⟨hnew, hs.nodup p⟩
  · intro c hc
    exact (List.mem_cons.1 hc).symm.imp id fun h => ⟨h, hvalid⟩

theorem Inv.releasesleep (hs : s.Inv pins) (hio : (s.thread p).io = none)
    (hheld : b ∈ (s.thread p).held) : (s.releasesleep p b).Inv pins := by
  have hcount := List.count_pos_iff.2 hheld
  refine hs.update rfl rfl id ?_ ?_ ?_ ?_ ((hs.nodup p).erase b) (by simp) (by simp) ?_
  · simp [Thread.uses, hio, Io.target, List.count_erase_self]
    omega
  · intro c hc
    simp [Thread.uses, hio, Io.target, Ne.symm hc, List.count_erase_of_ne hc]
  · intro q
    by_cases hq : q = p
    · subst hq
      simp [Thread.Locks, (List.Nodup.mem_erase_iff (hs.nodup q))]
    · have hnot : ¬ (s.thread q).Locks b := by
        intro h
        have hlock := (hs.holder b q).2 h
        rw [hs.lock_of_held hheld] at hlock
        exact hq (by simpa using hlock.symm)
      simpa [update_of_ne hq] using hnot
  · intro c hc
    simp [Thread.Locks, hio, List.mem_erase_of_ne hc]
  · exact fun c hc => .inl (List.mem_of_mem_erase hc)

theorem drop_eq_some (h : s.drop p = some t) : ∃ b u, (s.thread p).io = some (.drop b) ∧
      u = (s.setBuf b { s.buf b with refcnt := (s.buf b).refcnt - 1 }).setThread p
        { s.thread p with io := none } ∧ (t = u ∨ t = u.touch b) := by
  unfold drop at h
  split at h
  · rename_i b hio
    refine ⟨b, _, hio, rfl, ?_⟩
    have ht := Option.some.inj h
    rw [← ht]
    split
    · exact .inr rfl
    · exact .inl rfl
  · cases h

/-- The order of the list is nobody's business. -/
theorem Inv.touch (hs : s.Inv pins) (b : BufId) : (s.touch b).Inv pins :=
  ⟨hs.ident, hs.count, hs.holder, hs.nodup, hs.filling, hs.request, hs.valid⟩

theorem Inv.drop (hs : s.Inv pins) (h : s.drop p = some t) : t.Inv pins := by
  rcases drop_eq_some h with ⟨b, u, hio, rfl, ht⟩
  have hu : ((s.setBuf b { s.buf b with refcnt := (s.buf b).refcnt - 1 }).setThread p
      { s.thread p with io := none }).Inv pins := by
    refine hs.update rfl rfl id ?_ ?_ ?_ ?_ (hs.nodup p) (by simp) (by simp) ?_
    · simp [Thread.uses, hio, Io.target]
    · intro c hc
      simp [Thread.uses, hio, Io.target, Ne.symm hc]
    · intro q
      have hlock := hs.holder b q
      by_cases hq : q = p
      · subst hq
        simpa [Thread.Locks, hio] using hlock
      · simpa [update_of_ne hq] using hlock
    · intro c _
      simp [Thread.Locks, hio]
    · exact fun c hc => .inl hc
  rcases ht with rfl | rfl
  · exact hu
  · exact hu.touch b

/-- A step that leaves the processes and the locks alone and counts the pins it adds or removes. -/
theorem Inv.of_thread_eq (hs : s.Inv pins) {pins' : BufId → Nat} (hthread : t.thread = s.thread)
    (hbuf : ∀ c, (t.buf c).dev = (s.buf c).dev ∧ (t.buf c).blockno = (s.buf c).blockno ∧
      (t.buf c).lock = (s.buf c).lock ∧ (t.buf c).valid = (s.buf c).valid)
    (hcount : ∀ c, (t.buf c).refcnt + pins c = (s.buf c).refcnt + pins' c) : t.Inv pins' := by
  have husers : ∀ c, t.users c = s.users c := fun c => by rw [users, users, hthread]
  rcases hs with ⟨ident, count, holder, nodup, filling, request, valid⟩
  refine ⟨by grind, by grind, ?_, ?_, ?_, ?_, ?_⟩ <;> rw [hthread] <;> grind

theorem Inv.setRefcnt (hs : s.Inv pins) {r : Int} {k : Nat}
    (h : r + pins b = (s.buf b).refcnt + k) :
    (s.setBuf b { s.buf b with refcnt := r }).Inv (Function.update pins b k) := by
  refine hs.of_thread_eq rfl ?_ ?_ <;> simp only [setBuf] <;> grind

theorem Inv.store (hs : s.Inv pins) (b : BufId) (data : Block) : (s.store b data).Inv pins := by
  refine hs.of_thread_eq rfl ?_ ?_ <;> simp only [State.store, setBuf] <;> grind

theorem Inv.bwrite (hs : s.Inv pins) (b : BufId) : (s.bwrite b).Inv pins :=
  hs.of_thread_eq rfl (fun _ => ⟨rfl, rfl, rfl, rfl⟩) fun _ => rfl

end Operations

end State

end Xv6.Bio
