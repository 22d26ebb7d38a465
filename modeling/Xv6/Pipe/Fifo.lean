import Xv6.Pipe.Model
import Xv6.Lib.Families
import Xv6.Params
import Mathlib.Algebra.Order.BigOperators.Group.Finset

/-!
# Fifo — a pipe is a queue

What is in `data` are the bytes that were put in and not taken out, in their order, for any number
of writers, readers and closes, however often the counters wrap.
-/

namespace Xv6.Pipes

open Lib Lib.RingBuf
open Function (update update_of_ne update_self)

variable {ι : Type} {s t : St ι} {pi : Pipe} {w : List UInt8} {k : Nat}

/-! ## The loops -/

/-- The pipe has had `w` put in and `k` bytes of it taken out. -/
abbrev Pipe.Reps (pi : Pipe) (w : List UInt8) (k : Nat) : Prop :=
  RingBuf.Reps PIPESIZE (2 ^ 32) pi.toRingBuf w k

/-- What a stretch of `pipewrite` puts in comes from the user buffer, in order. -/
theorem pipewriteLoop_spec (src : Nat → Option UInt8) (killed : Nat → Bool) (rem i : Nat)
    (h : pi.Reps w k) :
    Pipe.Reps (pipewriteLoop src killed rem i pi).1
        (w ++ (pipewriteLoop src killed rem i pi).2.1) k ∧
      (pipewriteLoop src killed rem i pi).1.readopen = pi.readopen ∧
      (pipewriteLoop src killed rem i pi).1.writeopen = pi.writeopen ∧
      ∀ j, j < (pipewriteLoop src killed rem i pi).2.1.length →
        src (i + j) = (pipewriteLoop src killed rem i pi).2.1[j]? := by
  have hstop : pi.Reps (w ++ []) k ∧ pi.readopen = pi.readopen ∧ pi.writeopen = pi.writeopen ∧
      ∀ j, j < ([] : List UInt8).length → src (i + j) = ([] : List UInt8)[j]? := by
    rw [List.append_nil]
    exact ⟨h, rfl, rfl, fun j hj => absurd hj (Nat.not_lt_zero j)⟩
  induction rem generalizing i pi w with
  | zero => exact hstop
  | succ rem ih =>
    rw [pipewriteLoop]
    split
    · exact hstop
    split
    · exact hstop
    rename_i hfull
    split
    · exact hstop
    · rename_i ch hch
      have hroom : w.length < k + PIPESIZE := by
        rcases Nat.lt_or_ge w.length (k + PIPESIZE) with hlt | hge
        · exact hlt
        · exact absurd ((h.full_iff (by decide)).2 (le_antisymm h.room hge)) hfull
      have hput := h.put (by decide) ch hroom
      rcases @ih (pi.put ch) (w ++ [ch]) (i + 1) hput
        ⟨by rw [List.append_nil]; exact hput, rfl, rfl,
          fun j hj => absurd hj (Nat.not_lt_zero j)⟩ with ⟨hreps, hr, hw, hbytes⟩
      refine ⟨?_, hr, hw, fun j hj => ?_⟩
      · rw [List.append_assoc] at hreps
        exact hreps
      · cases j with
        | zero => exact hch
        | succ j =>
          rw [List.getElem?_cons_succ, ← hbytes j (Nat.lt_of_succ_lt_succ hj)]
          congr 1
          omega

/-- What `piperead` takes out is what is next in the pipe; with room for a byte and a byte in the
pipe it takes one. -/
theorem pipereadLoop_spec (dst : Nat → Bool) (rem i : Nat) (h : pi.Reps w k) :
    Pipe.Reps (pipereadLoop dst rem i pi).1 w (k + (pipereadLoop dst rem i pi).2.1.length) ∧
      (pipereadLoop dst rem i pi).1.readopen = pi.readopen ∧
      (pipereadLoop dst rem i pi).1.writeopen = pi.writeopen ∧
      w.take k ++ (pipereadLoop dst rem i pi).2.1 =
        w.take (k + (pipereadLoop dst rem i pi).2.1.length) ∧
      (0 < rem → (pipereadLoop dst rem i pi).2.1 = [] → k = w.length) := by
  induction rem generalizing i pi k with
  | zero => exact ⟨h, rfl, rfl, List.append_nil _, fun hpos => absurd hpos (lt_irrefl _)⟩
  | succ rem ih =>
    rw [pipereadLoop]
    split
    · rename_i hempty
      exact ⟨h, rfl, rfl, List.append_nil _, fun _ _ => (h.empty_iff (by decide)).1 hempty⟩
    rename_i hempty
    have hlt : k < w.length := by
      refine lt_of_le_of_ne h.le fun heq => hempty ?_
      exact (h.empty_iff (by decide)).2 heq
    have hhead := h.head (by decide) hlt
    have htake := h.take hlt
    have hone : w.take k ++ [pi.data (pi.nread % PIPESIZE)] = w.take (k + 1) := by
      rw [List.take_add_one, hhead]
      rfl
    split
    · rcases @ih pi.take (k + 1) (i + 1) htake with ⟨hreps, hr, hw, hbytes, _⟩
      generalize pipereadLoop dst rem (i + 1) pi.take = r at hreps hr hw hbytes ⊢
      have hlen : k + (r.2.1.length + 1) = k + 1 + r.2.1.length := by omega
      refine ⟨?_, hr, hw, ?_, fun _ hnil => absurd hnil (List.cons_ne_nil _ _)⟩
      · show r.1.Reps w (k + (r.2.1.length + 1))
        rw [hlen]
        exact hreps
      · show w.take k ++ pi.data (pi.nread % PIPESIZE) :: r.2.1 = w.take (k + (r.2.1.length + 1))
        rw [hlen, ← hbytes, ← hone, List.append_assoc]
        rfl
    · exact ⟨htake, rfl, rfl, hone, fun _ hnil => absurd hnil (List.cons_ne_nil _ _)⟩

/-! ## The queue -/

/-- The bytes that a call has put in so far, as they are in the user buffer. -/
def Call.sent : Call → List (Option UInt8)
  | .write src _ i _ => (List.range i).map src
  | .read .. => []

/-- The bytes of call `c` among those put in. -/
def putBy (c : Nat) (l : List (Nat × UInt8)) : List (Option UInt8) :=
  (l.filter fun x => x.1 = c).map fun x => some x.2

/-- A call that has not been made has put in nothing. -/
def sentBy (x : Option Call) : List (Option UInt8) :=
  (x.map Call.sent).getD []

structure Inv (s : St ι) : Prop where
  ring : s.pipe.Reps (s.put.map Prod.snd) s.taken.length
  order : s.taken.map Prod.snd = (s.put.map Prod.snd).take s.taken.length
  sent : ∀ c, putBy c s.put = sentBy (s.call c)

theorem sentBy_wakeup (w : Bool) (x : Option Call) : sentBy (x.map (Call.wakeup w)) = sentBy x := by
  have hsent : ∀ x : Call, (x.wakeup w).sent = x.sent := by
    intro x
    unfold Call.wakeup
    split
    · split <;> rfl
    · split <;> rfl
    · rfl
  cases x with
  | none => rfl
  | some x => exact hsent x

theorem sentBy_update (f : Nat → Option Call) (c : Nat) (x : Call) (d : Nat) :
    sentBy (update f c (some x) d) = if d = c then x.sent else sentBy (f d) := by
  by_cases hd : d = c
  · rw [if_pos hd, hd, update_self]
    rfl
  · rw [if_neg hd, update_of_ne hd]

namespace Inv

/-- The calls may change in anything but the bytes they have put in. -/
theorem frame (h : Inv s) (hpipe : t.pipe.toRingBuf = s.pipe.toRingBuf) (hput : t.put = s.put)
    (htaken : t.taken = s.taken)
    (hcall : ∀ c, sentBy (t.call c) = sentBy (s.call c)) : Inv t := by
  refine ⟨?_, ?_, fun c => ?_⟩
  · rw [Pipe.Reps, hpipe, hput, htaken]
    exact h.ring
  · rw [hput, htaken]
    exact h.order
  · rw [hput, hcall]
    exact h.sent c

theorem wakeup (h : Inv s) (writable : Bool) : Inv (s.wakeup writable) :=
  h.frame rfl rfl rfl fun _ => sentBy_wakeup _ _

theorem setCall (h : Inv s) {c : Nat} {x : Call} (hx : x.sent = sentBy (s.call c)) :
    Inv (s.setCall c x) := by
  refine h.frame rfl rfl rfl fun d => (sentBy_update s.call c x d).trans ?_
  split
  · rename_i hd
    rw [hx, hd]
  · rfl

theorem putBy_append (c d : Nat) (l : List (Nat × UInt8)) (bs : List UInt8) :
    putBy d (l ++ bs.map fun ch => (c, ch)) =
      if d = c then putBy d l ++ bs.map some else putBy d l := by
  unfold putBy
  rw [List.filter_append, List.map_append]
  by_cases hd : d = c
  · subst hd
    have hall : (bs.map fun ch => (d, ch)).filter (fun x => x.1 = d) =
        bs.map fun ch => (d, ch) := List.filter_eq_self.2 (by simp)
    rw [if_pos rfl, hall, List.map_map]
    rfl
  · have hnone : (bs.map fun ch => (c, ch)).filter (fun x => x.1 = d) = [] :=
      List.filter_eq_nil_iff.2 (by simp [Ne.symm hd])
    rw [if_neg hd, hnone, List.map_nil, List.append_nil]

theorem range_append_sent (src : Nat → Option UInt8) (i : Nat) (bs : List UInt8)
    (h : ∀ j, j < bs.length → src (i + j) = bs[j]?) :
    (List.range i).map src ++ bs.map some = (List.range (i + bs.length)).map src := by
  rw [List.range_add, List.map_append, List.map_map]
  congr 1
  refine List.ext_getElem? fun j => ?_
  rw [List.getElem?_map, List.getElem?_map]
  by_cases hj : j < bs.length
  · rw [List.getElem?_range hj, Option.map_some, Function.comp_apply, h j hj,
      List.getElem?_eq_getElem hj]
    rfl
  · rw [List.getElem?_eq_none (by omega), List.getElem?_eq_none (by simpa using hj)]
    rfl

theorem pipewrite {c i : Nat} {src : Nat → Option UInt8} {n : Int} {phase : Phase} (h : Inv s)
    (hc : s.call c = some (.write src n i phase)) (killed : Nat → Bool) :
    Inv (pipewrite s c src n i killed) := by
  rcases pipewriteLoop_spec src killed (n - i).toNat i h.ring with ⟨hreps, _, _, hbytes⟩
  unfold Pipes.pipewrite
  generalize pipewriteLoop src killed (n - i).toNat i s.pipe = r at hreps hbytes ⊢
  have hsent : putBy c s.put = (List.range i).map src := by
    rw [h.sent c, hc]
    rfl
  -- The bytes are put in, and the call's own record is brought up to date.
  have hall : ∀ f : Nat → Option Call, (∀ d, sentBy (f d) = if d = c then
      (List.range (i + r.2.1.length)).map src else sentBy (s.call d)) →
      Inv { s with pipe := r.1, put := s.put ++ r.2.1.map (fun ch => (c, ch)), call := f } := by
    intro f hf
    refine ⟨?_, ?_, fun d => ?_⟩
    · simp only [List.map_append, List.map_map, Function.comp_def, List.map_id']
      exact hreps
    · simp only [List.map_append]
      rw [List.take_append_of_le_length h.ring.le]
      exact h.order
    · simp only
      rw [putBy_append, hf d]
      by_cases hd : d = c
      · subst hd
        rw [if_pos rfl, if_pos rfl, hsent, range_append_sent src i _ hbytes]
      · rw [if_neg hd, if_neg hd, h.sent d]
  dsimp only
  split
  · exact hall _ fun d => by rw [sentBy_update]; simp only [St.wakeup, sentBy_wakeup]; rfl
  · exact hall _ fun d => by rw [sentBy_update]; rfl
  · exact hall _ fun d => by rw [sentBy_update]; simp only [St.wakeup, sentBy_wakeup]; rfl

/-- A reader that sees the pipe empty takes nothing; otherwise it takes what is next. -/
theorem piperead {c : Nat} {dst : Nat → Bool} {n : Int} {phase : Phase} (h : Inv s)
    (hc : s.call c = some (.read dst n phase)) (killed : Bool) :
    Inv (piperead s c dst n killed) := by
  have hsent : sentBy (s.call c) = [] := by
    rw [hc]
    rfl
  unfold Pipes.piperead
  split
  · split
    · exact h.setCall hsent.symm
    · exact h.setCall hsent.symm
  · rcases pipereadLoop_spec dst n.toNat 0 h.ring with ⟨hreps, _, _, hbytes, _⟩
    generalize pipereadLoop dst n.toNat 0 s.pipe = r at hreps hbytes ⊢
    have htaken : Inv { s with
        pipe := r.1
        taken := s.taken ++ r.2.1.map fun ch => (c, ch) } := by
      refine ⟨?_, ?_, h.sent⟩
      · simp only [List.length_append, List.length_map]
        exact hreps
      · simp only [List.map_append, List.length_append, List.length_map, List.map_map,
          Function.comp_def, List.map_id']
        rw [h.order, hbytes]
    refine (htaken.wakeup true).setCall ?_
    simp only [St.wakeup, sentBy_wakeup]
    exact hsent.symm

theorem pipeclose (h : Inv s) (w : Bool) : Inv (Pipes.pipeclose s w) := by
  unfold Pipes.pipeclose
  split
  · refine Inv.wakeup ?_ false
    exact h.frame rfl rfl rfl fun _ => rfl
  · refine Inv.wakeup ?_ true
    exact h.frame rfl rfl rfl fun _ => rfl

end Inv

/-- A reader that may take a byte and takes none returns 0 only at the end of what was written. -/
theorem piperead_zero {c : Nat} {dst : Nat → Bool} {n : Int} {killed : Bool} (h : Inv s)
    (hn : 0 < n) (hdone : (piperead s c dst n killed).call c = some (.read dst n (.done 0)))
    (hnone : (piperead s c dst n killed).taken = s.taken) :
    (piperead s c dst n killed).pipe.writeopen = false ∧
      (piperead s c dst n killed).taken.map Prod.snd =
        (piperead s c dst n killed).put.map Prod.snd := by
  unfold piperead at hdone hnone ⊢
  split at hdone
  · split at hdone <;> simp [St.setCall] at hdone
  rename_i hwait
  rw [if_neg hwait] at hnone ⊢
  rcases pipereadLoop_spec dst n.toNat 0 h.ring with ⟨_, _, hopen, _, hall⟩
  generalize pipereadLoop dst n.toNat 0 s.pipe = r at hnone hopen hall ⊢
  have hnil : r.2.1 = [] := by
    have happ : s.taken ++ r.2.1.map (fun ch => (c, ch)) = s.taken := hnone
    exact List.map_eq_nil_iff.1 (List.append_right_eq_self.1 happ)
  have hlen := hall (by omega) hnil
  constructor
  · show r.1.writeopen = false
    rw [hopen]
    by_contra hw
    exact hwait ⟨(h.ring.empty_iff (by decide)).2 hlen, Bool.eq_true_of_not_eq_false hw⟩
  · show (s.taken ++ r.2.1.map fun ch => (c, ch)).map Prod.snd = s.put.map Prod.snd
    rw [hnil, List.map_nil, List.append_nil, h.order, hlen, List.take_length]

/-! ## Steps -/

section

variable [DecidableEq ι]

theorem Inv.start {p : ι} {c : Nat} {x : Call} (h : Inv s) (hx : x.sent = [])
    (hstep : start s p c x = some t) : Inv t := by
  unfold Pipes.start at hstep
  split at hstep
  · rename_i hguard
    cases hstep
    refine (h.setCall (c := c) (x := x) ?_).frame rfl rfl rfl fun _ => rfl
    rw [Option.isNone_iff_eq_none.1 hguard.2.2]
    exact hx
  · cases hstep

theorem inv_step {a : Act ι} (h : Inv s) (hstep : step s a = some t) : Inv t := by
  cases a with
  | dup p w | fork p q w =>
    simp only [step] at hstep
    split at hstep
    · cases hstep
      exact h.frame rfl rfl rfl fun _ => rfl
    · cases hstep
  | close p w =>
    simp only [step] at hstep
    split at hstep
    · cases hstep
      unfold fileclose
      dsimp only
      split
      · refine Inv.pipeclose ?_ w
        exact h.frame rfl rfl rfl fun _ => rfl
      · exact h.frame rfl rfl rfl fun _ => rfl
    · cases hstep
  | write p c src n => exact h.start rfl hstep
  | read p c dst n => exact h.start rfl hstep
  | run p killed =>
    simp only [step] at hstep
    split at hstep
    · cases hstep
    split at hstep
    · rename_i hc
      cases hstep
      exact h.pipewrite hc killed
    · rename_i hc
      cases hstep
      exact h.piperead hc (killed 0)
    · cases hstep
  | kill p =>
    simp only [step] at hstep
    split at hstep
    · cases hstep
    split at hstep
    · rename_i hc
      cases hstep
      exact h.setCall (by rw [hc]; rfl)
    · rename_i hc
      cases hstep
      exact h.setCall (by rw [hc]; rfl)
    · cases hstep
  | ret p =>
    simp only [step] at hstep
    split at hstep
    · cases hstep
    split at hstep
    · cases hstep
      exact h.frame rfl rfl rfl fun _ => rfl
    · cases hstep
      exact h.frame rfl rfl rfl fun _ => rfl
    · cases hstep

theorem inv_alloc (p : ι) (data : Nat → UInt8) : Inv (alloc p data) := by
  refine ⟨⟨rfl, rfl, le_rfl, Nat.zero_le _, ?_⟩, rfl, fun _ => rfl⟩
  intro j x _ hx
  cases hx

/-- What comes out of a pipe is what was put in, in order: for any calls and closes, the counters
differ by at most the size, the bytes taken are the first of the bytes put in and the rest is in
`data`, each call's bytes are in the order of its buffer, and a reader finds the end only when the
write end is closed and everything has been taken. -/
theorem fifo_of_reaches {p : ι} {data : Nat → UInt8} (h : Reaches step anyStep (alloc p data) s) :
    (s.pipe.nread < 2 ^ 32 ∧ s.pipe.nwrite < 2 ^ 32 ∧
      (s.pipe.nwrite + 2 ^ 32 - s.pipe.nread) % 2 ^ 32 ≤ PIPESIZE) ∧
    s.taken.map Prod.snd <+: s.put.map Prod.snd ∧
    ((List.range ((s.pipe.nwrite + 2 ^ 32 - s.pipe.nread) % 2 ^ 32)).map fun j =>
      s.pipe.data ((s.pipe.nread + j) % 2 ^ 32 % PIPESIZE)) =
        (s.put.map Prod.snd).drop s.taken.length ∧
    (∀ c src n i phase, s.call c = some (.write src n i phase) →
      ((s.put.filter fun x => x.1 = c).map fun x => some x.2) = (List.range i).map src) ∧
    ∀ q c dst n killed t, s.busy q = some c → s.call c = some (.read dst n .ready) → 0 < n →
      step s (.run q killed) = some t → t.call c = some (.read dst n (.done 0)) →
      t.taken = s.taken → t.pipe.writeopen = false ∧ t.taken.map Prod.snd = t.put.map Prod.snd := by
  have hinv : Inv s := h.invariant (inv_alloc p data) fun _ _ _ hs _ hstep => inv_step hs hstep
  have hlen := hinv.ring.length_eq (by decide)
  refine ⟨⟨?_, ?_, ?_⟩, ?_, ?_, ?_, ?_⟩
  · rw [hinv.ring.nread]
    exact Nat.mod_lt _ (by decide)
  · rw [hinv.ring.nwrite]
    exact Nat.mod_lt _ (by decide)
  · have hroom := hinv.ring.room
    rw [hlen]
    omega
  · rw [hinv.order]
    exact List.take_prefix _ _
  · rw [hlen]
    exact hinv.ring.pending (by decide)
  · intro c src n i phase hc
    have hsent := hinv.sent c
    rw [hc] at hsent
    exact hsent
  · intro q c dst n killed t hq hc hn hstep hdone hnone
    simp only [step, hq, hc, Option.some.injEq] at hstep
    subst hstep
    exact piperead_zero hinv hn hdone hnone

/-- One process writes three bytes and another, to which it has given the read end, reads two. -/
def twoProcs : List (Act (Fin 2)) :=
  [.fork 0 1 false, .read 1 0 (fun _ => true) 2, .run 1 fun _ => false,
    .write 0 1 (fun j => some (.ofNat j)) 3, .run 0 fun _ => false, .run 1 fun _ => false]

theorem fifo_of_reaches_two_procs : ∃ s, run step (alloc 0 fun _ => 7) twoProcs = some s ∧
    s.put = [(1, 0), (1, 1), (1, 2)] ∧ s.taken = [(0, 0), (0, 1)] ∧
    s.taken.map Prod.snd <+: s.put.map Prod.snd ∧
    ((List.range ((s.pipe.nwrite + 2 ^ 32 - s.pipe.nread) % 2 ^ 32)).map fun j =>
      s.pipe.data ((s.pipe.nread + j) % 2 ^ 32 % PIPESIZE)) =
        (s.put.map Prod.snd).drop s.taken.length := by
  have heval : (run step (alloc 0 fun _ => 7) twoProcs).any fun s =>
      decide (s.put = [(1, 0), (1, 1), (1, 2)] ∧ s.taken = [(0, 0), (0, 1)]) := by
    decide +kernel
  rcases exists_of_any heval with ⟨s, hs, hput, htaken⟩
  have hfifo := fifo_of_reaches (.of_run_any hs)
  exact ⟨s, hs, hput, htaken, hfifo.2.1, hfifo.2.2.1⟩

end

end Xv6.Pipes
