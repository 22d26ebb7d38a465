import Xv6.Console.Editor
import Xv6.Pipe.Model

/-!
# Loss — bytes that a read takes and does not deliver

`piperead` and `consoleread` advance the read index before they copy the byte to the user.  If the
copy fails, the byte is gone.
-/

namespace Xv6

open Lib

/-- How many of the `m` bytes from position `i` on can be stored before one that cannot. -/
def stored (dst : Nat → Bool) : Nat → Nat → Nat
  | _, 0 => 0
  | i, m + 1 => if dst i then stored dst (i + 1) m + 1 else 0

theorem stored_le (dst : Nat → Bool) (i m : Nat) : stored dst i m ≤ m := by
  induction m generalizing i with
  | zero => exact Nat.le_refl 0
  | succ m ih =>
    rw [stored]
    split
    · exact Nat.succ_le_succ (ih _)
    · exact Nat.zero_le _

theorem stored_eq_iff (dst : Nat → Bool) (i m : Nat) :
    stored dst i m = m ↔ ∀ j, j < m → dst (i + j) = true := by
  induction m generalizing i with
  | zero => simp [stored]
  | succ m ih =>
    rw [stored, Nat.forall_lt_succ_left]
    split
    · rename_i hi
      simp only [Nat.add_right_cancel_iff, ih, Nat.add_assoc, Nat.add_comm 1, Nat.add_zero, hi,
        true_and]
    · rename_i hi
      simp [hi]

/-! ## Pipes -/

namespace Pipes

/-- The counters are `uint`s. -/
structure Pipe.Uints (pi : Pipe) : Prop where
  nread : pi.nread < 2 ^ 32
  nwrite : pi.nwrite < 2 ^ 32

/-- The number of bytes in a pipe. -/
def Pipe.count (pi : Pipe) : Nat := usub pi.nwrite pi.nread

variable {dst : Nat → Bool} {pi : Pipe}

theorem Pipe.Uints.take (h : pi.Uints) : pi.take.Uints :=
  ⟨Nat.mod_lt _ (by decide), h.nwrite⟩

theorem count_eq_zero_iff (h : pi.Uints) : pi.count = 0 ↔ pi.nread = pi.nwrite := by
  have hr := h.nread
  have hw := h.nwrite
  simp only [Pipe.count, usub]
  omega

theorem count_take (h : pi.Uints) (hne : pi.nread ≠ pi.nwrite) : pi.count = pi.take.count + 1 := by
  have hr := h.nread
  have hw := h.nwrite
  simp only [Pipe.count, Pipe.take, RingBuf.take, usub]
  omega

/-- The loop stores what it can, and loses the byte at which it stops. -/
theorem pipereadLoop_eq (dst : Nat → Bool) (h : pi.Uints) (rem i : Nat) :
    (pipereadLoop dst rem i pi).2.2 = i + stored dst i (min rem pi.count) ∧
      (pipereadLoop dst rem i pi).1.nread = (pi.nread + stored dst i (min rem pi.count) +
          if stored dst i (min rem pi.count) < min rem pi.count then 1 else 0) % 2 ^ 32 := by
  induction rem generalizing i pi with
  | zero => simpa [pipereadLoop, stored] using (Nat.mod_eq_of_lt h.nread).symm
  | succ rem ih =>
    rw [pipereadLoop]
    split
    · rename_i hempty
      rw [(count_eq_zero_iff h).2 hempty, Nat.min_zero]
      simpa [stored] using (Nat.mod_eq_of_lt h.nread).symm
    · rename_i hne
      rw [count_take h hne, Nat.succ_min_succ, stored]
      split
      · obtain ⟨hi, hread⟩ := ih h.take (i + 1)
        refine ⟨by rw [hi]; omega, ?_⟩
        have htake : pi.take.nread = (pi.nread + 1) % 2 ^ 32 := rfl
        rw [hread, htake]
        simp only [Nat.succ_eq_add_one, Nat.add_lt_add_iff_right]
        omega
      · simp [Pipe.take, RingBuf.take]

variable {ι : Type} [DecidableEq ι]

/-- A call of `piperead` is exact: what it returns is the number of bytes taken out. -/
def Exact (s : St ι) (c : Nat) (dst : Nat → Bool) (n : Int) (killed : Bool) : Prop :=
  let t := piperead s c dst n killed
  ∀ ret, t.call c = some (.read dst n (.done ret)) →
    (usub t.pipe.nread s.pipe.nread : Int) = max ret 0

omit [DecidableEq ι] in
theorem exact_iff {s : St ι} {c : Nat} {n : Int} {killed : Bool} (h : s.pipe.Uints)
    (hn : n < 2 ^ 31) :
    Exact s c dst n killed ↔ ∀ j, j < min n.toNat s.pipe.count → dst j = true := by
  have hstored := stored_eq_iff dst 0 (min n.toNat s.pipe.count)
  simp only [Nat.zero_add] at hstored
  unfold Exact piperead
  split
  · rename_i hwait
    have hzero := (count_eq_zero_iff h).2 hwait.1
    refine iff_of_true (fun ret hret => ?_) fun j hj => by rw [hzero] at hj; omega
    split at hret
    · simp only [St.setCall, Function.update_self, Option.some.injEq, Call.read.injEq,
        Phase.done.injEq, true_and] at hret
      subst hret
      rw [if_pos ‹_›]
      change ((usub s.pipe.nread s.pipe.nread : Nat) : Int) = _
      rw [usub_self]
      decide
    · simp [St.setCall] at hret
  · obtain ⟨hi, hread⟩ := pipereadLoop_eq dst h n.toNat 0
    have hle := stored_le dst 0 (min n.toNat s.pipe.count)
    rw [← hstored]
    simp only [St.setCall, Function.update_self, St.wakeup, Option.some.injEq, Call.read.injEq,
      Phase.done.injEq, true_and, hi, hread, Nat.zero_add]
    have hr := h.nread
    simp only [usub]
    constructor
    · intro hall
      have := hall _ rfl
      split at this <;> omega
    · rintro hall ret rfl
      rw [if_neg (by omega)]
      omega

end Pipes

/-! ## The console -/

namespace Console

/-- The indices are `uint`s. -/
structure Cons.Uints (s : Cons) : Prop where
  r : s.r < 2 ^ 32
  w : s.w < 2 ^ 32

/-- The bytes that a read of `n` bytes is to deliver of those that are there. -/
def wanted : Nat → List UInt8 → List UInt8
  | 0, _ => []
  | _ + 1, [] => []
  | n + 1, c :: q =>
    if c = C 'D' then [] else if c = newline then [c] else c :: wanted n q

/-- The bytes that are there do not complete a read of `n` bytes, which then has to wait. -/
def dry : Nat → List UInt8 → Bool
  | 0, _ => false
  | _ + 1, [] => true
  | n + 1, c :: q => if c = C 'D' ∨ c = newline then false else dry n q

/-- The data that were taken out from `s` to `t`; an end-of-file is not one of them. -/
def removed (s t : Cons) : List UInt8 :=
  (s.slice s.r t.r).filter (· ≠ C 'D')

variable {s t : Cons} {dst : Nat → Bool} {killed : Bool} {target n : Nat}

theorem usub_usucc {a b : Nat} (ha : a < 2 ^ 32) (hb : b < 2 ^ 32) (hne : a ≠ b) :
    usub b a = usub b (usucc a) + 1 := by
  simp only [usub, usucc]
  omega

theorem slice_self (a : Nat) : s.slice a a = [] := by
  rw [Cons.slice, usub_self]
  rfl

theorem slice_cons {a b : Nat} (ha : a < 2 ^ 32) (h : usub b a = usub b (usucc a) + 1) :
    s.slice a b = s.buf (a % INPUT_BUF_SIZE) :: s.slice (usucc a) b := by
  rw [Cons.slice, h, List.range_succ_eq_map, List.map_cons, List.map_map, Nat.add_zero,
    Nat.mod_eq_of_lt ha, Cons.slice]
  refine congrArg _ (List.map_congr_left fun j _ => ?_)
  have hindex : (a + (j + 1)) % 2 ^ 32 = (usucc a + j) % 2 ^ 32 := by
    simp only [usucc]
    omega
  simp only [Function.comp_apply, Nat.succ_eq_add_one, hindex]

/-- The next byte is given up. -/
def Cons.skip (s : Cons) : Cons := { s with r := usucc s.r }

theorem Cons.Uints.skip (h : s.Uints) : s.skip.Uints :=
  ⟨Nat.mod_lt _ (by decide), h.w⟩

theorem committed_eq_nil (h : s.r = s.w) : s.committed = [] := by
  rw [Cons.committed, h, slice_self]

theorem committed_cons (h : s.Uints) (hne : s.r ≠ s.w) :
    s.committed = s.buf (s.r % INPUT_BUF_SIZE) :: s.skip.committed :=
  slice_cons h.r (usub_usucc h.r h.w hne)

/-- From `s` to `t` the read index has moved on, at most to the write index. -/
structure Moved (s t : Cons) : Prop where
  buf : t.buf = s.buf
  r : t.r < 2 ^ 32
  le : usub t.r s.r ≤ usub s.w s.r

theorem Moved.refl (h : s.Uints) : Moved s s :=
  ⟨rfl, h.r, by rw [usub_self]; exact Nat.zero_le _⟩

theorem Moved.skip (h : s.Uints) (hne : s.r ≠ s.w) : Moved s s.skip := by
  refine ⟨rfl, h.skip.r, ?_⟩
  have hr := h.r
  have hw := h.w
  simp only [Cons.skip, usub, usucc]
  omega

theorem removed_skip (h : s.Uints) (hne : s.r ≠ s.w) (ht : Moved s.skip t)
    (hc : s.buf (s.r % INPUT_BUF_SIZE) ≠ C 'D') :
    removed s t = s.buf (s.r % INPUT_BUF_SIZE) :: removed s.skip t ∧ Moved s t := by
  have hle := ht.le
  have hr := h.r
  have hw := h.w
  have htr := ht.r
  have hstep : usub t.r s.r = usub t.r (usucc s.r) + 1 := by
    simp only [Cons.skip, usub, usucc] at hle ⊢
    omega
  refine ⟨?_, ht.buf, htr, ?_⟩
  · rw [removed, slice_cons hr hstep, List.filter_cons_of_pos (by simpa using hc)]
    rfl
  · rw [hstep, usub_usucc hr hw hne]
    exact Nat.succ_le_succ hle

theorem removed_self : removed s s = [] := by
  rw [removed, slice_self]
  rfl

theorem removed_one (h : s.Uints) (hne : s.r ≠ s.w) (hc : s.buf (s.r % INPUT_BUF_SIZE) ≠ C 'D') :
    removed s s.skip = [s.buf (s.r % INPUT_BUF_SIZE)] := by
  rw [(removed_skip h hne (.refl h.skip) hc).1, removed_self]

/-- A stretch of `consoleread` delivers what it can store, and loses the byte at which it stops. -/
theorem consolereadLoop_eq (dst : Nat → Bool) (killed : Bool) (h : s.Uints) (hn : n ≤ target) :
    let q := wanted n s.committed
    let p := stored dst (target - n) q.length
    let x := consolereadLoop dst killed target n s
    x.2.1 = q.take p ∧ removed s x.1 = q.take (p + 1) ∧ x.2.2.1 + p = n ∧ Moved s x.1 := by
  induction n generalizing s with
  | zero => exact ⟨rfl, removed_self, rfl, .refl h⟩
  | succ n ih =>
    rw [consolereadLoop]
    split
    · rename_i hempty
      rw [committed_eq_nil hempty]
      exact ⟨rfl, removed_self, rfl, .refl h⟩
    · rename_i hne
      rw [committed_cons h hne, wanted]
      generalize hc : s.buf (s.r % INPUT_BUF_SIZE) = c
      simp only
      split
      · -- The end-of-file is taken only by a read that has nothing yet.
        rename_i heof
        split
        · have hback : usub (usucc s.r) 1 = s.r := by
            have hr := h.r
            simp only [usub, usucc]
            omega
          rw [hback]
          exact ⟨rfl, removed_self, rfl, .refl h⟩
        · refine ⟨rfl, ?_, rfl, Moved.skip h hne⟩
          change removed s s.skip = []
          have hstep := usub_usucc h.r h.skip.r (by
            have hr := h.r
            simp only [Cons.skip, usucc]
            omega)
          rw [removed, slice_cons h.r hstep, hc, heof]
          change List.filter _ (C 'D' :: s.slice s.skip.r s.skip.r) = []
          rw [slice_self]
          rfl
      · rename_i hdata
        have hdata' : s.buf (s.r % INPUT_BUF_SIZE) ≠ C 'D' := hc ▸ hdata
        have hone := removed_one h hne hdata'
        rw [hc] at hone
        split
        · -- The copy fails.
          rename_i hbad
          have hzero : stored dst (target - (n + 1))
              (if c = newline then [c] else c :: wanted n s.skip.committed).length = 0 := by
            split <;> rw [List.length_cons, stored, if_neg (by simp [hbad])]
          rw [hzero]
          refine ⟨by simp, ?_, rfl, Moved.skip h hne⟩
          refine hone.trans ?_
          split <;> rfl
        · rename_i hgood
          have hgood' : dst (target - (n + 1)) = true := by simpa using hgood
          split
          · rw [List.length_singleton, stored, if_pos hgood', stored]
            exact ⟨rfl, hone, rfl, Moved.skip h hne⟩
          · obtain ⟨hgot, hremoved, hcount, hmoved⟩ := ih h.skip (by omega)
            rw [List.length_cons, stored, if_pos hgood',
              show target - (n + 1) + 1 = target - n by omega]
            obtain ⟨hcons, hmoved'⟩ := removed_skip h hne hmoved hdata'
            rw [hc] at hcons
            refine ⟨?_, ?_, ?_, hmoved'⟩
            · rw [List.take_succ_cons, ← hgot]
              rfl
            · rw [List.take_succ_cons, ← hremoved]
              exact hcons
            · rw [← Nat.add_assoc]
              exact congrArg Nat.succ hcount

/-- How a stretch ends in which every byte that is wanted can be stored. -/
theorem consolereadLoop_stop (killed : Bool) (h : s.Uints) (hn : n ≤ target)
    (hall : ∀ j, j < (wanted n s.committed).length → dst (target - n + j) = true) :
    (consolereadLoop dst killed target n s).2.2.2 =
      if dry n s.committed then if killed then .fail else .sleep else .finish := by
  induction n generalizing s with
  | zero => rfl
  | succ n ih =>
    rw [consolereadLoop]
    split
    · rename_i hempty
      rw [committed_eq_nil hempty]
      rfl
    · rename_i hne
      rw [committed_cons h hne, wanted] at hall
      rw [committed_cons h hne, dry]
      generalize s.buf (s.r % INPUT_BUF_SIZE) = c at hall ⊢
      simp only
      split
      · rename_i heof
        simp only [heof, true_or, if_true, Bool.false_eq_true, if_false]
      · rename_i hdata
        rw [if_neg hdata] at hall
        split
        · rename_i hbad
          have hgood := hall 0 (by split <;> exact Nat.succ_pos _)
          rw [Nat.add_zero, hbad] at hgood
          cases hgood
        · split
          · rename_i hline
            simp only [hline, or_true, if_true, Bool.false_eq_true, if_false]
          · rename_i hline
            rw [if_neg hline] at hall
            simp only [hdata, hline, or_self, if_false]
            refine ih h.skip (by omega) fun j hj => ?_
            have := hall (j + 1) (Nat.succ_lt_succ hj)
            rwa [show target - (n + 1) + (j + 1) = target - n + j by omega] at this

/-- A call of `consoleread` over its stretches, with the console as each of them finds it, and the
number of data bytes it takes out. -/
def Call.life (x : Call) : List (Cons × Bool) → Call × Nat
  | [] => (x, 0)
  | (s, killed) :: later =>
    let r := consolereadLoop x.dst killed x.target x.n s
    let y := x.advance r.2
    if y.phase = .asleep then
      let z := y.life later
      (z.1, (removed s r.1).length + z.2)
    else
      (y, (removed s r.1).length)

/-- In each stretch the bytes that the call is to deliver can be stored, and the process is not
killed when the call would have to wait after it has taken a byte. -/
def Call.Lands (x : Call) : List (Cons × Bool) → Prop
  | [] => True
  | (s, killed) :: later =>
    let y := x.advance (consolereadLoop x.dst killed x.target x.n s).2
    (∀ j, j < (wanted x.n s.committed).length → x.dst (x.target - x.n + j) = true) ∧
      (killed = true → dry x.n s.committed = true →
        x.n = x.target ∧ wanted x.n s.committed = []) ∧
      (y.phase = .asleep → y.Lands later)

/-- What a call returns is the number of bytes it has stored; if it returns -1 that is none. -/
def Call.Reports (x : Call) : Prop :=
  ∀ k, x.phase = .done k → max k 0 = x.got.length

/-- A call is exact: it has taken out as many data bytes as it has stored, and reports them. -/
def Call.Exact (x : Call) (taken : Nat) : Prop :=
  taken = x.got.length ∧ x.Reports

/-- What a call has delivered and what it still wants. -/
def Call.Counts (x : Call) : Prop :=
  x.n + x.got.length = x.target

section

variable {x : Call}

/-- One stretch: it takes out the bytes it stores, and one more if a copy fails. -/
theorem advance_eq (h : s.Uints) (hx : x.Counts) (killed : Bool) :
    let r := consolereadLoop x.dst killed x.target x.n s
    let m := (wanted x.n s.committed).length
    (x.advance r.2).Counts ∧
      (x.advance r.2).got.length = x.got.length + stored x.dst (x.target - x.n) m ∧
      (removed s r.1).length = min (stored x.dst (x.target - x.n) m + 1) m := by
  obtain ⟨hgot, hremoved, hcount, -⟩ := consolereadLoop_eq x.dst killed h (Nat.le.intro hx)
  have hle := stored_le x.dst (x.target - x.n) (wanted x.n s.committed).length
  have hlen : (x.advance (consolereadLoop x.dst killed x.target x.n s).2).got.length =
      x.got.length + stored x.dst (x.target - x.n) (wanted x.n s.committed).length := by
    rw [Call.advance, List.length_append, hgot, List.length_take, Nat.min_eq_left hle]
  refine ⟨?_, hlen, by rw [hremoved, List.length_take]⟩
  unfold Call.Counts at hx ⊢
  rw [hlen]
  change (consolereadLoop x.dst killed x.target x.n s).2.2.1 + _ = x.target
  omega

/-- After a stretch in which every byte that is wanted can be stored, the call sleeps or reports
what it has stored, unless it is killed after it has taken a byte. -/
theorem reports_iff (killed : Bool) (h : s.Uints) (hx : x.Counts)
    (hall : ∀ j, j < (wanted x.n s.committed).length → x.dst (x.target - x.n + j) = true) :
    (x.advance (consolereadLoop x.dst killed x.target x.n s).2).Reports ↔
      (killed = true → dry x.n s.committed = true →
        x.n = x.target ∧ wanted x.n s.committed = []) := by
  obtain ⟨hcounts, hlen, -⟩ := advance_eq h hx killed
  have hstop := consolereadLoop_stop killed h (Nat.le.intro hx) hall
  rw [← stored_eq_iff] at hall
  rw [hall] at hlen
  unfold Call.Counts at hx hcounts
  unfold Call.Reports
  rw [hlen] at hcounts ⊢
  simp only [Call.advance, hstop] at hcounts ⊢
  cases dry x.n s.committed with
  | false =>
    simp only [Bool.false_eq_true, if_false, false_implies, implies_true, iff_true,
      Phase.done.injEq]
    rintro k rfl
    omega
  | true =>
    cases killed with
    | false => simp
    | true =>
      simp only [if_true, Phase.done.injEq, forall_eq', forall_const, ← List.length_eq_zero_iff]
      omega

/-- From here on the call takes out what it stores, and reports it. -/
theorem life_exact_iff (hx : x.Counts) {ss : List (Cons × Bool)} (h : ∀ s ∈ ss, s.1.Uints)
    (hphase : x.Reports) :
    (x.life ss).1.got.length ≤ x.got.length + (x.life ss).2 ∧
      (x.got.length + (x.life ss).2 = (x.life ss).1.got.length ∧ (x.life ss).1.Reports ↔
        x.Lands ss) := by
  induction ss generalizing x with
  | nil => exact ⟨le_rfl, iff_of_true ⟨rfl, hphase⟩ trivial⟩
  | cons s ss ih =>
    obtain ⟨s, killed⟩ := s
    have hs : s.Uints := h (s, killed) (List.mem_cons_self ..)
    obtain ⟨hcounts, hlen, hremoved⟩ := advance_eq hs hx killed
    have hle := stored_le x.dst (x.target - x.n) (wanted x.n s.committed).length
    have hstored := stored_eq_iff x.dst (x.target - x.n) (wanted x.n s.committed).length
    have hreports := reports_iff killed hs hx
    rw [Call.life, Call.Lands]
    dsimp only
    split
    · rename_i hasleep
      have hrep : (x.advance (consolereadLoop x.dst killed x.target x.n s).2).Reports := by
        intro k hk
        rw [hasleep] at hk
        cases hk
      obtain ⟨hge, hiff⟩ := ih hcounts (fun s hs => h s (List.mem_cons_of_mem _ hs)) hrep
      dsimp only
      refine ⟨by omega, ?_⟩
      simp only [hasleep, forall_true_left, ← hiff]
      constructor
      · rintro ⟨heq, hlast⟩
        have hall := hstored.1 (by omega)
        exact ⟨hall, (hreports hall).1 hrep, by omega, hlast⟩
      · rintro ⟨hall, -, heq, hlast⟩
        have := hstored.2 hall
        exact ⟨by omega, hlast⟩
    · rename_i hawake
      dsimp only
      refine ⟨by omega, ?_⟩
      simp only [hawake, false_implies, and_true]
      constructor
      · rintro ⟨heq, hlast⟩
        have hall := hstored.1 (by omega)
        exact ⟨hall, (hreports hall).1 hlast⟩
      · rintro ⟨hall, hkilled⟩
        have := hstored.2 hall
        exact ⟨by omega, (hreports hall).2 hkilled⟩

end

/-- A call of `consoleread` is exact just if every byte it is to deliver can be stored and its
process is not killed after it has taken one. -/
theorem exact_iff (n : Int) (dst : Nat → Bool) {ss : List (Cons × Bool)} (h : ∀ s ∈ ss, s.1.Uints) :
    ((Call.start n dst).life ss).1.Exact ((Call.start n dst).life ss).2 ↔
      (Call.start n dst).Lands ss := by
  have hiff := (life_exact_iff (x := .start n dst) rfl h fun k hk => Phase.noConfusion hk).2
  rw [← hiff, show (Call.start n dst).got.length = 0 from rfl, Nat.zero_add]
  rfl

end Console

/-- Reads from pipes and from the console lose no byte just if what they are to deliver can be
stored, and `consoleread` is not killed in the middle. -/
theorem reads_exact_iff {ι : Type} {s : Pipes.St ι} (c : Nat) (dst dst' : Nat → Bool) {n : Int}
    (m : Int) (killed : Bool) (hs : s.pipe.Uints) (hn : n < 2 ^ 31)
    {ss : List (Console.Cons × Bool)} (hss : ∀ s ∈ ss, s.1.Uints) :
    (Pipes.Exact s c dst n killed ↔ ∀ j, j < min n.toNat s.pipe.count → dst j = true) ∧
      (((Console.Call.start m dst').life ss).1.Exact ((Console.Call.start m dst').life ss).2 ↔
        (Console.Call.start m dst').Lands ss) :=
  ⟨Pipes.exact_iff hs hn, Console.exact_iff m dst' hss⟩

/-- A pipe with one byte in it. -/
def onePipe : Pipes.St Unit :=
  { Pipes.alloc () fun _ => 0 with pipe := (Pipes.alloc () fun _ => 0 : Pipes.St Unit).pipe.put 7 }

/-- A console with one line of one character. -/
def oneLine : Console.Cons :=
  (Console.consoleintr (Console.consoleintr Console.console.init 97).1 Console.newline).1

theorem reads_exact_iff_one : Pipes.Exact onePipe 0 (fun _ => true) 1 false ∧
      ((Console.Call.start 2 fun _ => true).life [(oneLine, false)]).1.Exact
        ((Console.Call.start 2 fun _ => true).life [(oneLine, false)]).2 := by
  have hline : ∀ s ∈ [(oneLine, false)], s.1.Uints := by
    intro s hs
    obtain rfl := List.mem_singleton.1 hs
    exact ⟨by decide, by decide⟩
  obtain ⟨hpipe, hcons⟩ := reads_exact_iff (s := onePipe) (n := 1) 0 (fun _ => true)
    (fun _ => true) 2 false ⟨by decide, by decide⟩ (by decide) hline
  exact ⟨hpipe.2 fun _ _ => rfl, hcons.2 ⟨fun _ _ => rfl, nofun, fun _ => trivial⟩⟩

/-- The only byte is lost if it cannot be stored: the read returns 0 and leaves nothing behind. -/
theorem byte_lost : (¬ Pipes.Exact onePipe 0 (fun _ => false) 1 false ∧
      (Pipes.piperead onePipe 0 (fun _ => false) 1 false).call 0 =
        some (.read (fun _ => false) 1 (.done 0)) ∧
      onePipe.pipe.count = 1 ∧
      (Pipes.piperead onePipe 0 (fun _ => false) 1 false).pipe.count = 0) ∧
    ¬ ((Console.Call.start 2 fun _ => false).life [(oneLine, false)]).1.Exact
        ((Console.Call.start 2 fun _ => false).life [(oneLine, false)]).2 ∧
      oneLine.committed = [97, Console.newline] ∧
      (Console.consolereadLoop (fun _ => false) false 2 2 oneLine).1.committed =
        [Console.newline] ∧
      ((Console.Call.start 2 fun _ => false).life [(oneLine, false)]).1.phase = .done 0 := by
  refine ⟨⟨fun h => ?_, rfl, by decide, by decide⟩, fun h => ?_, by decide, by decide, by decide⟩
  · exact absurd (h 0 rfl) (by decide)
  · exact absurd h.1 (by decide)

end Xv6
