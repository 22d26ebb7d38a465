import Mathlib.Data.List.TakeDrop
import Xv6.Console.Model

/-!
# Editor — the console is a line editor

The line editor keeps a queue of characters that readers may have and the line that is being typed.
The ring with its three wrapping indices shows the editor's state at all times: `[r, w)` is the
queue and `[w, e)` the line.
-/

namespace Xv6.Console

open Lib

structure Editor where
  queue : List UInt8
  line : List UInt8
  deriving DecidableEq

/-- The characters that commit a line. -/
def breaks (c : UInt8) : Bool := c = newline || c = C 'D'

/-! ## The line editor -/

namespace Editor

/-- A character is typed. -/
def input (d : Editor) (c : UInt8) : Editor × Bool :=
  if c = C 'P' ∨ c = 0 then
    (d, false)
  else if c = C 'U' then
    ({ d with line := [] }, false)
  else if c = C 'H' ∨ c = 0x7f then
    ({ d with line := d.line.dropLast }, false)
  else if d.queue.length + d.line.length = INPUT_BUF_SIZE then
    (d, false)
  else
    let c := if c = 13 then newline else c
    let line := d.line ++ [c]
    if breaks c ∨ d.queue.length + line.length = INPUT_BUF_SIZE then
      (⟨d.queue ++ line, []⟩, true)
    else
      (⟨d.queue, line⟩, false)

/-- A read that wants `n` more characters takes the text before the next break, and a newline after
it.  An end-of-file is taken by the read that has nothing yet. -/
def read (d : Editor) (started : Bool) (n : Nat) : Editor × List UInt8 × Nat × Stop :=
  let text := (d.queue.take n).takeWhile fun c => !breaks c
  let rest := d.queue.drop text.length
  if text.length = n then
    ({ d with queue := rest }, text, 0, .finish)
  else
    match rest with
    | [] => ({ d with queue := [] }, text, n - text.length, .sleep)
    | c :: after =>
      if c = newline then
        ({ d with queue := after }, text ++ [c], n - text.length - 1, .finish)
      else if started = false ∧ text = [] then
        ({ d with queue := after }, [], n, .finish)
      else
        ({ d with queue := rest }, text, n - text.length, .finish)

variable {c : UInt8} {q l : List UInt8} {started : Bool} {n : Nat}

theorem read_zero (d : Editor) : d.read started 0 = (d, [], 0, .finish) := by
  simp [read]

theorem read_nil : (Editor.mk [] l).read started (n + 1) = (⟨[], l⟩, [], n + 1, .sleep) := by
  simp [read]

theorem read_eof : (Editor.mk (C 'D' :: q) l).read started (n + 1) =
    (if started then ⟨C 'D' :: q, l⟩ else ⟨q, l⟩, [], n + 1, .finish) := by
  have hne : C 'D' ≠ newline := by decide
  cases started <;> simp [read, breaks, hne]

theorem read_newline : (Editor.mk (newline :: q) l).read started (n + 1) =
    (⟨q, l⟩, [newline], n, .finish) := by
  simp [read, breaks]

theorem read_cons (hc : breaks c = false) : (Editor.mk (c :: q) l).read started (n + 1) =
    let x := (Editor.mk q l).read true n
    (x.1, c :: x.2.1, x.2.2) := by
  simp only [read, List.take_succ_cons, List.takeWhile_cons, hc, Bool.not_false, if_true,
    List.length_cons, List.drop_succ_cons, Nat.add_right_cancel_iff]
  split
  · rfl
  · cases hrest : q.drop ((q.take n).takeWhile fun c => !breaks c).length with
    | nil => simp
    | cons b after => by_cases hb : b = newline <;> simp [hb]

end Editor

/-- The console that is a line editor, for readers that are not killed. -/
def editor : Device Editor where
  init := ⟨[], []⟩
  intr := Editor.input
  read d x _ := d.read (decide (x.got ≠ [])) x.n

/-! ## What the ring shows -/

namespace Cons

/-- The indices `r` and `e` with the buffer are a ring with wrapping counters. -/
def ring (s : Cons) : RingBuf UInt8 := ⟨s.buf, s.r, s.e⟩

/-- The characters between two indices. -/
def slice (s : Cons) (a b : Nat) : List UInt8 :=
  (List.range (usub b a)).map fun j => s.buf ((a + j) % 2 ^ 32 % INPUT_BUF_SIZE)

/-- What readers may have. -/
def committed (s : Cons) : List UInt8 := s.slice s.r s.w

/-- What is still being typed. -/
def editing (s : Cons) : List UInt8 := s.slice s.w s.e

end Cons

/-- The console shows the editor: `h` is all that was put in and not erased again, and the first
`k` characters of it have been read. -/
structure Shows (s : Cons) (d : Editor) (h : List UInt8) (k : Nat) : Prop where
  reps : s.ring.Reps INPUT_BUF_SIZE (2 ^ 32) h k
  pending : h.drop k = d.queue ++ d.line
  write : s.w = (k + d.queue.length) % 2 ^ 32
  unbroken : ∀ c ∈ d.line, breaks c = false
  full : d.queue.length + d.line.length = INPUT_BUF_SIZE → d.line = []

theorem usub_mod {a b : Nat} (hle : a ≤ b) (hlt : b < a + 2 ^ 32) :
    usub (b % 2 ^ 32) (a % 2 ^ 32) = b - a := by
  simp only [usub]
  omega

namespace Shows

variable {s : Cons} {d : Editor} {h : List UInt8} {k : Nat}

theorem length (H : Shows s d h k) : h.length = k + d.queue.length + d.line.length := by
  have hle := H.reps.le
  have hdrop := congrArg List.length H.pending
  rw [List.length_drop, List.length_append] at hdrop
  omega

theorem length_le (H : Shows s d h k) : d.queue.length + d.line.length ≤ INPUT_BUF_SIZE := by
  have hroom := H.reps.room
  rw [H.length] at hroom
  omega

theorem e_eq (H : Shows s d h k) : s.e = (k + d.queue.length + d.line.length) % 2 ^ 32 := by
  rw [← H.length]
  exact H.reps.nwrite

theorem r_eq (H : Shows s d h k) : s.r = k % 2 ^ 32 := H.reps.nread

theorem usub_e_r (H : Shows s d h k) : usub s.e s.r = d.queue.length + d.line.length := by
  have hle := H.length_le
  simp only [INPUT_BUF_SIZE] at hle
  rw [H.e_eq, H.r_eq, usub_mod (by omega) (by omega)]
  omega

theorem usub_w_r (H : Shows s d h k) : usub s.w s.r = d.queue.length := by
  have hle := H.length_le
  simp only [INPUT_BUF_SIZE] at hle
  rw [H.write, H.r_eq, usub_mod (by omega) (by omega)]
  omega

theorem usub_e_w (H : Shows s d h k) : usub s.e s.w = d.line.length := by
  have hle := H.length_le
  simp only [INPUT_BUF_SIZE] at hle
  rw [H.e_eq, H.write, usub_mod (by omega) (by omega)]
  omega

theorem e_eq_w_iff (H : Shows s d h k) : s.e = s.w ↔ d.line = [] := by
  have hle := H.length_le
  have he := H.e_eq
  have hw := H.write
  simp only [INPUT_BUF_SIZE] at hle
  rw [← List.length_eq_zero_iff]
  omega

theorem r_eq_w_iff (H : Shows s d h k) : s.r = s.w ↔ d.queue = [] := by
  have hle := H.length_le
  have hr := H.r_eq
  have hw := H.write
  simp only [INPUT_BUF_SIZE] at hle
  rw [← List.length_eq_zero_iff]
  omega

theorem committed (H : Shows s d h k) : s.committed = d.queue := by
  have hslice := H.reps.slice (by decide) (a := k) (b := k + d.queue.length) le_rfl
    (by rw [H.length]; omega)
  rw [Nat.add_sub_cancel_left, H.pending, List.take_left'  rfl] at hslice
  rw [Cons.committed, Cons.slice, H.usub_w_r, H.r_eq]
  exact hslice

theorem editing (H : Shows s d h k) : s.editing = d.line := by
  have hslice := H.reps.slice (by decide) (a := k + d.queue.length) (b := h.length)
    (by omega) le_rfl
  have hlen : h.length - (k + d.queue.length) = d.line.length := by
    rw [H.length]
    omega
  rw [hlen, ← List.drop_drop, H.pending, List.drop_left' rfl,
    List.take_of_length_le le_rfl] at hslice
  rw [Cons.editing, Cons.slice, H.usub_e_w, H.write]
  exact hslice

/-! ## Typing -/

/-- `e--` takes the last character of the line back. -/
theorem erase (H : Shows s d h k) (hline : d.line ≠ []) :
    Shows { s with e := usub s.e 1 } { d with line := d.line.dropLast } h.dropLast k := by
  have hpos := List.length_pos_iff.2 hline
  have hlen := H.length
  have hle := H.length_le
  refine ⟨H.reps.unput (by omega) (by decide), ?_, H.write,
    fun c hc => H.unbroken c (List.dropLast_subset _ hc), fun hfull => ?_⟩
  · rw [← List.dropLast_drop_eq_drop_dropLast, H.pending, List.dropLast_append_of_ne_nil hline]
  · simp only [List.length_dropLast] at hfull
    omega

theorem last (H : Shows s d h k) {c : UInt8} (hc : d.line.getLast? = some c) :
    s.buf (usub s.e 1 % INPUT_BUF_SIZE) = c := by
  have hpos : 0 < d.line.length := List.length_pos_iff.2 fun hnil => by simp [hnil] at hc
  have hlen := H.length
  have hlast := H.reps.last (by decide) (by omega) (by decide)
  have hsuffix : h.getLast? = d.line.getLast? := by
    have hsplit : h = h.take k ++ (d.queue ++ d.line) := by
      rw [← H.pending, List.take_append_drop]
    rw [hsplit, List.getLast?_append, List.getLast?_append, hc]
    rfl
  rw [hsuffix, hc] at hlast
  exact (Option.some.inj hlast).symm

/-- `C('U')` erases the line, as no newline is in it. -/
theorem killLine (H : Shows s d h k) : ∃ h', Shows (Console.killLine d.line.length s)
    { d with line := [] } h' k ∧ (Console.killLine d.line.length s).r = s.r := by
  -- Each turn takes the last character; the line left is the induction's measure.
  generalize hn : d.line.length = n
  induction n generalizing s d h with
  | zero =>
    have hnil : d.line = [] := List.length_eq_zero_iff.1 hn
    rw [← hnil]
    exact ⟨h, H, rfl⟩
  | succ n ih =>
    have hline : d.line ≠ [] := List.length_pos_iff.1 (by omega)
    have hmem := List.getLast_mem hline
    have hlast := H.last (List.getLast?_eq_some_getLast hline)
    have hne : s.buf (usub s.e 1 % INPUT_BUF_SIZE) ≠ newline := by
      intro heq
      have hbreak := H.unbroken _ hmem
      rw [← hlast, heq] at hbreak
      cases hbreak
    have hew : s.e ≠ s.w := fun heq => hline (H.e_eq_w_iff.1 heq)
    simp only [Console.killLine, ne_eq, hew, hne, not_false_eq_true, and_self, if_true]
    refine ih (d := { d with line := d.line.dropLast }) (H.erase hline) ?_
    rw [List.length_dropLast, hn, Nat.add_sub_cancel]

/-- A character is stored behind the line. -/
theorem store (H : Shows s d h k) (c : UInt8) (hroom : d.queue.length + d.line.length < 128) :
    ({ s with buf := Function.update s.buf (s.e % INPUT_BUF_SIZE) c, e := usucc s.e } :
      Cons).ring.Reps INPUT_BUF_SIZE (2 ^ 32) (h ++ [c]) k ∧
      (h ++ [c]).drop k = d.queue ++ (d.line ++ [c]) := by
  have hlen := H.length
  refine ⟨H.reps.put (by decide) c (by simp only [INPUT_BUF_SIZE]; omega), ?_⟩
  rw [List.drop_append_of_le_length (by omega), H.pending, List.append_assoc]

theorem consoleintr (H : Shows s d h k) (c : UInt8) : (Console.consoleintr s c).2 = (d.input c).2 ∧
      ∃ h', Shows (Console.consoleintr s c).1 (d.input c).1 h' k := by
  have hle := H.length_le
  simp only [Console.consoleintr, Editor.input]
  by_cases hP : c = C 'P'
  · simp only [hP, if_true, true_or]
    exact ⟨trivial, h, H⟩
  by_cases h0 : c = 0
  · have h0U : (0 : UInt8) ≠ C 'U' := by decide
    have h0H : ¬ ((0 : UInt8) = C 'H' ∨ (0 : UInt8) = 0x7f) := by decide
    have h0P : (0 : UInt8) ≠ C 'P' := by decide
    simp only [h0, h0P, h0U, h0H, if_false, ne_eq, not_true_eq_false, false_and, or_true, if_true]
    exact ⟨trivial, h, H⟩
  by_cases hU : c = C 'U'
  · have hUP : C 'U' ≠ C 'P' := by decide
    have hU0 : C 'U' ≠ 0 := by decide
    simp only [hU, hUP, hU0, or_self, if_false, if_true, H.usub_e_w]
    obtain ⟨h', H', -⟩ := H.killLine
    exact ⟨trivial, h', H'⟩
  by_cases hH : c = C 'H' ∨ c = 0x7f
  · simp only [hP, h0, hU, hH, or_self, if_false, if_true, ne_eq, H.e_eq_w_iff]
    by_cases hline : d.line = []
    · simp only [hline, not_true_eq_false, if_false, List.dropLast_nil]
      rw [← hline]
      exact ⟨trivial, h, H⟩
    · simp only [hline, not_false_eq_true, if_true]
      exact ⟨trivial, _, H.erase hline⟩
  simp only [hP, h0, hU, hH, or_self, if_false, ne_eq, not_false_eq_true, true_and, H.usub_e_r]
  by_cases hfull : d.queue.length + d.line.length = INPUT_BUF_SIZE
  · -- No more input until something is read.
    simp only [hfull, lt_self_iff_false, if_false, if_true]
    exact ⟨trivial, h, H⟩
  have hroom : d.queue.length + d.line.length < INPUT_BUF_SIZE := by omega
  simp only [hroom, hfull, if_true, if_false]
  generalize (if c = 13 then newline else c) = c'
  obtain ⟨hreps, hpending⟩ := H.store c' hroom
  have he : usub (usucc s.e) s.r = d.queue.length + (d.line ++ [c']).length := by
    have hmod := usub_mod (a := k) (b := k + d.queue.length + d.line.length + 1) (by omega)
      (by simp only [INPUT_BUF_SIZE] at hroom; omega)
    rw [H.r_eq, H.e_eq, usucc, Nat.mod_add_mod, hmod, List.length_append, List.length_singleton]
    omega
  have hbreak : (c' = newline ∨ c' = C 'D' ∨
      d.queue.length + (d.line ++ [c']).length = INPUT_BUF_SIZE) ↔
      (breaks c' = true ∨ d.queue.length + (d.line ++ [c']).length = INPUT_BUF_SIZE) := by
    simp [breaks, or_assoc]
  simp only [he, hbreak]
  split
  · -- The line is committed, and what readers may have ends where the ring does.
    refine ⟨rfl, h ++ [c'], hreps, ?_, ?_, fun c hc => absurd hc List.not_mem_nil, fun _ => rfl⟩
    · rw [hpending, List.append_nil]
    · show usucc s.e = _
      rw [H.e_eq, usucc, Nat.mod_add_mod]
      simp only [List.length_append, List.length_singleton]
      congr 1
      omega
  · rename_i hopen
    rw [not_or] at hopen
    refine ⟨rfl, h ++ [c'], hreps, hpending, H.write, ?_, fun hlen => absurd hlen hopen.2⟩
    intro c hc
    rcases List.mem_append.1 hc with hold | hnew
    · exact H.unbroken c hold
    · rw [List.mem_singleton.1 hnew]
      exact Bool.eq_false_of_not_eq_true hopen.1

/-! ## Reading -/

/-- `r++` takes the first character that readers may have. -/
theorem take {c : UInt8} {q : List UInt8} (H : Shows s d h k) (hq : d.queue = c :: q) :
    s.buf (s.r % INPUT_BUF_SIZE) = c ∧
      Shows { s with r := usucc s.r } { d with queue := q } h (k + 1) := by
  have hlen := H.length
  have hle := H.length_le
  rw [hq, List.length_cons] at hlen hle
  have hhead := H.reps.head (by decide) (by omega)
  have hcons : h.drop k = c :: (q ++ d.line) := by
    rw [H.pending, hq]
    rfl
  refine ⟨?_, H.reps.take (by omega), ?_, ?_, H.unbroken, fun hfull => ?_⟩
  · have hget : h[k]? = some c := by
      rw [← List.head?_drop, hcons]
      rfl
    rw [hget] at hhead
    exact (Option.some.inj hhead).symm
  · rw [← List.drop_drop, hcons]
    rfl
  · rw [H.write, hq, List.length_cons, Nat.add_right_comm, Nat.add_assoc]
  · change q.length + d.line.length = INPUT_BUF_SIZE at hfull
    omega

theorem consolereadLoop {dst : Nat → Bool} {target n : Nat} (H : Shows s d h k)
    (hdst : ∀ j, dst j = true) (hn : n ≤ target) :
    (Console.consolereadLoop dst false target n s).2 = (d.read (decide (n < target)) n).2 ∧
      ∃ k', Shows (Console.consolereadLoop dst false target n s).1
        (d.read (decide (n < target)) n).1 h k' := by
  induction n generalizing s d k with
  | zero =>
    rw [Editor.read_zero]
    exact ⟨rfl, k, H⟩
  | succ n ih =>
    obtain ⟨queue, line⟩ := d
    cases queue with
    | nil =>
      have hrw : s.r = s.w := H.r_eq_w_iff.2 rfl
      rw [Editor.read_nil]
      simp only [Console.consolereadLoop, hrw, if_true]
      exact ⟨rfl, k, H⟩
    | cons c q =>
      have hrw : s.r ≠ s.w := fun heq => List.cons_ne_nil c q (H.r_eq_w_iff.1 heq)
      obtain ⟨hc, Hnext⟩ := H.take rfl
      simp only [Console.consolereadLoop, hrw, if_false, hc, hdst, Bool.true_eq_false]
      by_cases heof : c = C 'D'
      · subst heof
        rw [Editor.read_eof]
        by_cases hlt : n + 1 < target
        · -- The end-of-file is put back.
          have hback : usub (usucc s.r) 1 = s.r := by
            rw [usub, usucc, RingBuf.mod_add_sub_one (by decide), H.r_eq, Nat.mod_mod]
          simp only [hlt, if_true, decide_true, hback]
          exact ⟨trivial, k, H⟩
        · simp only [hlt, if_true, if_false, decide_false]
          exact ⟨trivial, k + 1, Hnext⟩
      by_cases hnl : c = newline
      · subst hnl
        rw [Editor.read_newline]
        simp only [heof, if_true, if_false]
        exact ⟨trivial, k + 1, Hnext⟩
      · have hunbroken : breaks c = false := by simp [breaks, heof, hnl]
        obtain ⟨hout, k', Hout⟩ := ih Hnext (by omega)
        have hstarted : decide (n < target) = true := decide_eq_true (by omega)
        rw [hstarted] at hout Hout
        rw [Editor.read_cons hunbroken]
        simp only [heof, hnl, if_false, hout]
        exact ⟨trivial, k', Hout⟩

end Shows

/-! ## Runs -/

/-- The actions of readers that are not killed and whose copies succeed. -/
def Act.Served : Act → Prop
  | .consoleread _ _ dst => ∀ j, dst j = true
  | .resume _ killed => killed = false
  | _ => True

/-- What is known of a call. -/
structure Call.Ok (x : Call) : Prop where
  dst : ∀ j, x.dst j = true
  target : x.got.length + x.n = x.target

/-- The console and the editor with the same calls. -/
structure Rel (s : St Cons) (t : St Editor) : Prop where
  shows : ∃ h k, Shows s.cons t.cons h k
  call : s.call = t.call
  ok : ∀ i x, s.call i = some x → x.Ok

theorem Editor.read_length (d : Editor) (started : Bool) (n : Nat) :
    (d.read started n).2.1.length + (d.read started n).2.2.1 = n := by
  have hle : ((d.queue.take n).takeWhile fun c => !breaks c).length ≤ n :=
    (List.takeWhile_sublist _).length_le.trans (List.length_take_le _ _)
  simp only [Editor.read]
  split
  · simpa using ‹_›
  · split
    · simp only
      omega
    · split_ifs <;> simp <;> omega

theorem Call.Ok.wakeup {x : Call} (h : x.Ok) : x.wakeup.Ok := by
  unfold Call.wakeup
  split
  · exact ⟨h.dst, h.target⟩
  · exact h

namespace Rel

variable {s : St Cons} {t : St Editor}

theorem setCall (H : Rel s t) {i : Nat} {x : Call} (hx : x.Ok) :
    Rel (s.setCall i x) (t.setCall i x) := by
  refine ⟨H.shows, ?_, fun j y hy => ?_⟩
  · simp only [St.setCall, H.call]
  by_cases hj : j = i
  · subst hj
    simp only [St.setCall, Function.update_self, Option.some.injEq] at hy
    exact hy ▸ hx
  · simp only [St.setCall, Function.update_of_ne hj] at hy
    exact H.ok j y hy

theorem wakeup (H : Rel s t) : Rel s.wakeup t.wakeup := by
  refine ⟨H.shows, ?_, fun i x hx => ?_⟩
  · simp only [St.wakeup, H.call]
  · obtain ⟨y, hy, rfl⟩ := Option.map_eq_some_iff.1 hx
    exact (H.ok i y hy).wakeup

theorem setCons (H : Rel s t) {cons : Cons} {d : Editor} (h : ∃ h k, Shows cons d h k) :
    Rel { s with cons } { t with cons := d } :=
  ⟨h, H.call, H.ok⟩

theorem read (H : Rel s t) {i : Nat} {x : Call} (hx : s.call i = some x) :
    (console.read s.cons x false).2 = (editor.read t.cons x false).2 ∧
      ∃ h k, Shows (console.read s.cons x false).1 (editor.read t.cons x false).1 h k := by
  obtain ⟨h, k, hshows⟩ := H.shows
  have hok := H.ok i x hx
  have htarget := hok.target
  have hstarted : decide (x.got ≠ []) = decide (x.n < x.target) := by
    rw [decide_eq_decide, ← List.length_pos_iff]
    omega
  have hle : x.n ≤ x.target := by omega
  obtain ⟨hout, k', hnext⟩ := hshows.consolereadLoop hok.dst hle
  simp only [console, editor, hstarted]
  exact ⟨hout, h, k', hnext⟩

theorem step (H : Rel s t) {a : Act} (ha : a.Served) :
    Option.Rel Rel (Console.step console s a) (Console.step editor t a) := by
  cases a with
  | intr c =>
    obtain ⟨h, k, hshows⟩ := H.shows
    obtain ⟨hwake, h', hnext⟩ := hshows.consoleintr c
    have hcons := H.setCons ⟨h', k, hnext⟩
    refine .some ?_
    simp only [console, editor, hwake]
    by_cases hcommit : (t.cons.input c).2 = true
    · simp only [hcommit, if_true]
      exact hcons.wakeup
    · simp only [hcommit]
      exact hcons
  | consoleread i n dst =>
    simp only [Console.step, H.call]
    split
    · exact .some (H.setCall ⟨ha, by simp [Call.start]⟩)
    · exact .none
  | resume i killed =>
    have hkilled : killed = false := ha
    subst hkilled
    simp only [Console.step, ← H.call]
    cases hx : s.call i with
    | none => exact .none
    | some x =>
      simp only
      split
      · obtain ⟨hout, hnext⟩ := H.read hx
        have hok := H.ok i x hx
        have hlen := t.cons.read_length (decide (x.got ≠ [])) x.n
        have hadvance : (x.advance (editor.read t.cons x false).2).Ok := by
          refine ⟨hok.dst, ?_⟩
          have htarget := hok.target
          simp only [Call.advance, editor, List.length_append]
          omega
        have hnext' := (H.setCons hnext).setCall (i := i) hadvance
        rw [← H.call] at hnext'
        rw [hout]
        exact .some hnext'
      · exact .none
  | kill i =>
    simp only [Console.step, ← H.call]
    cases hx : s.call i with
    | none => exact .none
    | some x => exact .some (H.setCall (H.ok i x hx).wakeup)

theorem start : Rel (start console) (start editor) := by
  refine ⟨⟨[], 0, ⟨rfl, rfl, le_rfl, Nat.zero_le _, fun _ _ _ hx => by simp at hx⟩, rfl, rfl,
    fun _ hc => absurd hc List.not_mem_nil, fun _ => rfl⟩, rfl, fun _ _ hx => by cases hx⟩

theorem of_run {as : List Act} (hok : ∀ a ∈ as, a.Served) :
    Option.Rel Rel (run (Console.step console) (Console.start console) as)
      (run (Console.step editor) (Console.start editor) as) :=
  run_lockstep (fun _ _ _ H ha => H.step ha) start hok

end Rel

/-- What holds of the indices at any time: nothing is overwritten, no line is open behind a break,
and erasing leaves what readers may have as it is. -/
structure LineOk (s : Cons) : Prop where
  pending : usub s.e s.r ≤ INPUT_BUF_SIZE
  order : usub s.w s.r ≤ usub s.e s.r
  unbroken : ∀ c ∈ s.editing, c ≠ newline ∧ c ≠ C 'D'
  backspace : ∀ c, c = C 'H' ∨ c = 0x7f → (consoleintr s c).1.committed = s.committed ∧
      (consoleintr s c).1.editing = s.editing.dropLast
  killLine : (consoleintr s (C 'U')).1.committed = s.committed ∧
    (consoleintr s (C 'U')).1.editing = []

theorem Shows.lineOk {s : Cons} {d : Editor} {h : List UInt8} {k : Nat} (H : Shows s d h k) :
    LineOk s := by
  have hkeys : (C 'U' ≠ C 'P' ∧ C 'U' ≠ 0) ∧ (C 'H' ≠ C 'P' ∧ C 'H' ≠ 0 ∧ C 'H' ≠ C 'U') ∧
      ((0x7f : UInt8) ≠ C 'P' ∧ (0x7f : UInt8) ≠ 0 ∧ (0x7f : UInt8) ≠ C 'U') := by
    decide
  refine ⟨?_, ?_, fun c hc => ?_, fun c hc => ?_, ?_⟩
  · rw [H.usub_e_r]
    exact H.length_le
  · rw [H.usub_e_r, H.usub_w_r]
    exact Nat.le_add_right _ _
  · rw [H.editing] at hc
    simpa [breaks] using H.unbroken c hc
  · obtain ⟨-, h', H'⟩ := H.consoleintr c
    have hinput : (d.input c).1 = { d with line := d.line.dropLast } := by
      rcases hc with rfl | rfl <;> simp [Editor.input, hkeys]
    rw [hinput] at H'
    exact ⟨H'.committed.trans H.committed.symm, H'.editing.trans (by rw [H.editing])⟩
  · obtain ⟨-, h', H'⟩ := H.consoleintr (C 'U')
    have hinput : (d.input (C 'U')).1 = { d with line := [] } := by
      simp [Editor.input, hkeys]
    rw [hinput] at H'
    exact ⟨H'.committed.trans H.committed.symm, H'.editing⟩

/-- Whatever is typed and read, and however often the indices wrap: the calls on the console get
and return what the same calls on the line editor get and return, and the ring holds the editor's
queue and line. -/
theorem console_refines_editor (as : List Act) (hok : ∀ a ∈ as, a.Served) :
    ((run (step console) (start console) as).map fun s =>
        (s.call, s.cons.committed, s.cons.editing)) =
      ((run (step editor) (start editor) as).map fun t => (t.call, t.cons.queue, t.cons.line)) ∧
    ∀ s, run (step console) (start console) as = some s → LineOk s.cons := by
  have hrel := Rel.of_run hok
  cases hs : run (step console) (start console) as <;>
    cases ht : run (step editor) (start editor) as <;> rw [hs, ht] at hrel <;> cases hrel
  · exact ⟨rfl, fun s hs => by cases hs⟩
  · rename_i s t H
    obtain ⟨h, k, hshows⟩ := H.shows
    refine ⟨?_, fun u hu => ?_⟩
    · simp only [Option.map_some, H.call, hshows.committed, hshows.editing]
    · cases hu
      exact hshows.lineOk

/-- A line with a character taken back, and an end-of-file: the first read gets the two characters
that are left, the second one the newline and the third one nothing. -/
def typed : List Act :=
  [.consoleread 0 2 fun _ => true, .resume 0 false, .intr 97, .intr 98, .intr (C 'H'), .intr 99,
    .intr 13, .intr (C 'D'), .resume 0 false, .consoleread 1 9 fun _ => true, .resume 1 false,
    .consoleread 2 9 fun _ => true, .resume 2 false]

theorem console_refines_editor_typed : ((run (step console) (start console) typed).bind fun s =>
        (s.call 2).map fun x => (x.got, x.phase)) = some ([], .done 0) ∧
      ∀ s, run (step console) (start console) typed = some s → LineOk s.cons := by
  refine ⟨by decide +kernel, (console_refines_editor typed fun a ha => ?_).2⟩
  simp only [typed, List.mem_cons, List.not_mem_nil, or_false] at ha
  rcases ha with rfl | rfl | rfl | rfl | rfl | rfl | rfl | rfl | rfl | rfl | rfl | rfl | rfl <;>
    simp [Act.Served]

end Xv6.Console
