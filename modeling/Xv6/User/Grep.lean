import Mathlib.Data.List.Basic
import Mathlib.Data.List.TakeWhile

/-!
# Grep — the matcher and the line buffer of `grep`

Strings are the characters before the NUL, so that `re[0] == '\0'` reads `re = []`.  The buffer
holds the `m` bytes that are not yet cut into lines.
-/

namespace Xv6.Grep

/-! ## The matcher -/

mutual

def matchhere (re text : List Char) : Bool :=
  match re with
  | [] => true
  | c :: re =>
    if re.head? = some '*' then
      matchstar c re.tail text
    else if c = '$' ∧ re = [] then
      text.isEmpty
    else
      match text with
      | [] => false
      | t :: text => if c = '.' ∨ c = t then matchhere re text else false
termination_by (re.length, text.length, 0)
decreasing_by
  all_goals simp +arith [Prod.lex_def]

def matchstar (c : Char) (re text : List Char) : Bool :=
  if matchhere re text then
    true
  else
    match text with
    | [] => false
    | t :: text => if t = c ∨ c = '.' then matchstar c re text else false
termination_by (re.length, text.length, 1)
decreasing_by
  all_goals simp +arith [Prod.lex_def]

end

/-- The loop of `match`, over the suffixes of the text down to the empty one. -/
def search (re : List Char) : List Char → Bool
  | [] => matchhere re []
  | t :: text => if matchhere re (t :: text) then true else search re text

/-- `match` -/
def matchText (re text : List Char) : Bool :=
  if re.head? = some '^' then matchhere re.tail text else search re text

/-- The character `x` is one that `c` stands for. -/
def Accepts (c x : Char) : Prop :=
  c = '.' ∨ x = c

/-- The items `re` stand for `w`, where `w` is followed by `rest` in the text. -/
inductive Denotes : List Char → List Char → List Char → Prop
  | nil (rest : List Char) : Denotes [] [] rest
  | star {c : Char} {re u w rest : List Char} (hu : ∀ x ∈ u, Accepts c x) (hw : Denotes re w rest) :
      Denotes (c :: '*' :: re) (u ++ w) rest
  | last : Denotes ['$'] [] []
  | one {c x : Char} {re w rest : List Char} (hstar : re.head? ≠ some '*')
    (hlast : ¬ (c = '$' ∧ re = []))
      (hx : Accepts c x) (hw : Denotes re w rest) : Denotes (c :: re) (x :: w) rest

theorem matchstar_iff {c : Char} {re text : List Char} :
    matchstar c re text = true ↔
      ∃ u v, text = u ++ v ∧ (∀ x ∈ u, Accepts c x) ∧ matchhere re v = true := by
  induction text with
  | nil =>
    rw [matchstar]
    simp
  | cons t text ih =>
    rw [matchstar]
    constructor
    · intro h
      by_cases hhere : matchhere re (t :: text) = true
      · exact ⟨[], t :: text, rfl, by simp, hhere⟩
      by_cases ht : t = c ∨ c = '.'
      · rw [if_neg hhere, if_pos ht] at h
        obtain ⟨u, v, htext, hu, hv⟩ := ih.1 h
        refine ⟨t :: u, v, by rw [htext, List.cons_append], ?_, hv⟩
        exact List.forall_mem_cons.2 ⟨ht.symm, hu⟩
      · simp [hhere, ht] at h
    · rintro ⟨u, v, htext, hu, hv⟩
      cases u with
      | nil =>
        rw [htext, List.nil_append, if_pos hv]
      | cons x u =>
        obtain ⟨rfl, htail⟩ := List.cons.inj htext
        obtain ⟨hx, hu⟩ := List.forall_mem_cons.1 hu
        split
        · rfl
        · rw [if_pos hx.symm]
          exact ih.2 ⟨u, v, htail, hu, hv⟩

theorem denotes_star {c : Char} {re v rest : List Char} :
    Denotes (c :: '*' :: re) v rest ↔ ∃ u w, v = u ++ w ∧ (∀ x ∈ u, Accepts c x) ∧
    Denotes re w rest := by
  constructor
  · intro h
    cases h with
    | star hu hw => exact ⟨_, _, rfl, hu, hw⟩
    | one hstar => exact absurd rfl hstar
  · rintro ⟨u, w, rfl, hu, hw⟩
    exact .star hu hw

theorem matchhere_iff {re text : List Char} :
    matchhere re text = true ↔ ∃ w rest, text = w ++ rest ∧ Denotes re w rest := by
  -- The items after a star are two characters down, so the induction is on the length of the
  -- pattern.
  induction hn : re.length using Nat.strong_induction_on generalizing re text with
  | _ n ih =>
  subst hn
  match re with
  | [] =>
    rw [matchhere.eq_def]
    exact iff_of_true rfl ⟨[], text, rfl, .nil text⟩
  | c :: re =>
    rw [matchhere.eq_def]
    dsimp only
    by_cases hstar : re.head? = some '*'
    · obtain ⟨re, rfl⟩ : ∃ re', re = '*' :: re' := ⟨_, (List.cons_head?_tail hstar).symm⟩
      rw [if_pos hstar, List.tail_cons, matchstar_iff]
      have ihre : ∀ v, matchhere re v = true ↔ ∃ w rest, v = w ++ rest ∧ Denotes re w rest :=
        fun v => ih re.length (by simp only [List.length_cons]; omega) rfl
      constructor
      · rintro ⟨u, v, rfl, hu, hv⟩
        obtain ⟨w, rest, rfl, hw⟩ := (ihre v).1 hv
        exact ⟨u ++ w, rest, (List.append_assoc u w rest).symm, .star hu hw⟩
      · rintro ⟨v, rest, rfl, hv⟩
        obtain ⟨u, w, rfl, hu, hw⟩ := denotes_star.1 hv
        exact ⟨u, w ++ rest, List.append_assoc u w rest, hu, (ihre _).2 ⟨w, rest, rfl, hw⟩⟩
    rw [if_neg hstar]
    by_cases hlast : c = '$' ∧ re = []
    · rw [if_pos hlast]
      obtain ⟨rfl, rfl⟩ := hlast
      constructor
      · intro h
        exact ⟨[], [], List.isEmpty_iff.1 h, .last⟩
      · rintro ⟨w, rest, rfl, hw⟩
        cases hw with
        | last => rfl
        | one _ hlast => exact absurd ⟨rfl, rfl⟩ hlast
    rw [if_neg hlast]
    constructor
    · intro h
      cases text with
      | nil => simp at h
      | cons t text =>
        by_cases ht : c = '.' ∨ c = t
        · simp only [if_pos ht] at h
          obtain ⟨w, rest, rfl, hw⟩ := (ih re.length (by simp) rfl).1 h
          exact ⟨t :: w, rest, rfl, .one hstar hlast (ht.imp id Eq.symm) hw⟩
        · simp [ht] at h
    · rintro ⟨w, rest, rfl, hw⟩
      cases hw with
      | star => exact absurd rfl hstar
      | last => exact absurd ⟨rfl, rfl⟩ hlast
      | one _ _ hx hw =>
        simp only [List.cons_append, if_pos (hx.imp id Eq.symm)]
        exact (ih re.length (by simp) rfl).2 ⟨_, _, rfl, hw⟩

theorem search_iff {re text : List Char} :
    search re text = true ↔ ∃ pre suf, text = pre ++ suf ∧ matchhere re suf = true := by
  induction text with
  | nil => simp [search]
  | cons t text ih =>
    rw [search]
    constructor
    · intro h
      by_cases hhere : matchhere re (t :: text) = true
      · exact ⟨[], t :: text, rfl, hhere⟩
      · rw [if_neg hhere] at h
        obtain ⟨pre, suf, rfl, hsuf⟩ := ih.1 h
        exact ⟨t :: pre, suf, rfl, hsuf⟩
    · rintro ⟨pre, suf, htext, hsuf⟩
      cases pre with
      | nil => rw [htext, List.nil_append, if_pos hsuf]
      | cons x pre =>
        split
        · rfl
        · exact ih.2 ⟨pre, suf, (List.cons.inj htext).2, hsuf⟩

/-- The pattern without its leading `^`, and what precedes the match where it has one. -/
theorem matchText_iff (re text : List Char) :
    matchText re text = true ↔
      ∃ pre w post, text = pre ++ w ++ post ∧
        if re.head? = some '^' then pre = [] ∧ Denotes re.tail w post else Denotes re w post := by
  rw [matchText]
  by_cases h : re.head? = some '^'
  · simp only [if_pos h, matchhere_iff]
    constructor
    · rintro ⟨w, post, rfl, hw⟩
      exact ⟨[], w, post, rfl, rfl, hw⟩
    · rintro ⟨_, w, post, rfl, rfl, hw⟩
      exact ⟨w, post, rfl, hw⟩
  · simp only [if_neg h, search_iff, matchhere_iff]
    constructor
    · rintro ⟨pre, _, rfl, w, post, rfl, hw⟩
      exact ⟨pre, w, post, (List.append_assoc pre w post).symm, hw⟩
    · rintro ⟨pre, w, post, rfl, hw⟩
      exact ⟨pre, w ++ post, List.append_assoc pre w post, w, post, rfl, hw⟩

/-! ## The buffer -/

section Buffer

variable (pattern : List Char)

/-- The inner loop: each line that is complete is matched and written; the text after the last
newline stays. -/
def printLines (text : List Char) : List Char × List Char :=
  match _h : text.dropWhile (· ≠ '\n') with
  | [] => ([], text)
  | _ :: p =>
    let line := text.takeWhile (· ≠ '\n')
    let (out, left) := printLines p
    (if matchText pattern line then line ++ '\n' :: out else out, left)
termination_by text.length
decreasing_by
  have hle := (List.dropWhile_suffix (fun x => decide (x ≠ '\n')) (l := text)).length_le
  rw [_h, List.length_cons] at hle
  exact hle

/-- `sizeof(buf)` -/
def BUFSIZE : Nat := 1024

/-- The loop of `grep`, with `text` in the buffer and `input` still to be read.  `read` returns at
least one byte where it can and else as many as `pick` says; no two calls have the same input left,
so `pick` stands for any division into pieces. -/
def grep (pick : Nat → Nat) (text input : List Char) : List Char :=
  let n := min (max 1 (pick input.length)) (BUFSIZE - text.length - 1)
  if _h : input.take n = [] then
    []
  else
    let (out, left) := printLines pattern (text ++ input.take n)
    out ++ grep pick left (input.drop n)
termination_by input.length
decreasing_by
  rw [List.take_eq_nil_iff, not_or] at _h
  rw [List.length_drop]
  have := List.length_pos_iff.2 _h.2
  omega

/-- A line of a file of characters, without its newline. -/
def IsLine (l : List Char) : Prop :=
  '\n' ∉ l ∧ '\x00' ∉ l

instance (l : List Char) : Decidable (IsLine l) :=
  inferInstanceAs (Decidable (_ ∧ _))

def unlines (ls : List (List Char)) : List Char :=
  ls.flatMap (· ++ ['\n'])

/-- The line and its newline leave room for the NUL. -/
def Fits (l : List Char) : Bool :=
  l.length + 1 < BUFSIZE

variable {pattern}

@[simp] theorem unlines_nil : unlines [] = [] :=
  rfl

@[simp] theorem unlines_cons (l : List Char) (ls : List (List Char)) :
    unlines (l :: ls) = l ++ '\n' :: unlines ls := by
  simp [unlines]

@[simp] theorem unlines_append (ls ms : List (List Char)) :
    unlines (ls ++ ms) = unlines ls ++ unlines ms := by
  simp [unlines]

theorem length_lt_unlines {l : List Char} {ls : List (List Char)} (h : l ∈ ls) :
    l.length < (unlines ls).length := by
  obtain ⟨as, bs, rfl⟩ := List.append_of_mem h
  simp only [unlines_append, unlines_cons, List.length_append, List.length_cons]
  omega

/-- What the inner loop does with any text: it is cut into lines and a rest without newline. -/
theorem printLines_spec (pattern text : List Char) :
    ∃ ls left, text = unlines ls ++ left ∧ (∀ l ∈ ls, '\n' ∉ l) ∧ '\n' ∉ left ∧
      printLines pattern text = (unlines (ls.filter (matchText pattern)), left) := by
  fun_induction printLines pattern text with
  | case1 text h =>
    refine ⟨[], text, rfl, by simp, ?_, rfl⟩
    intro hmem
    simpa using List.dropWhile_eq_nil_iff.1 h _ hmem
  | case2 text c p h line out left heq ih =>
    obtain ⟨ls, left', hp, hls, hleft, hrest⟩ := ih
    obtain ⟨rfl, rfl⟩ := Prod.mk.inj (heq.symm.trans hrest)
    have hc : c = '\n' := by
      have hhead := List.head_dropWhile_not (fun x => decide (x ≠ '\n')) (h ▸ List.cons_ne_nil c p)
      simpa only [h, List.head_cons, decide_eq_false_iff_not, not_not] using hhead
    have hline : '\n' ∉ line := by
      intro hmem
      simpa using List.mem_takeWhile_imp hmem
    refine ⟨line :: ls, left, ?_, List.forall_mem_cons.2 ⟨hline, hls⟩, hleft, ?_⟩
    · calc
        text = line ++ text.dropWhile (· ≠ '\n') := List.takeWhile_append_dropWhile.symm
        _ = line ++ '\n' :: (unlines ls ++ left) := by rw [h, hc, hp]
        _ = unlines (line :: ls) ++ left := by simp
    · by_cases hm : matchText pattern line = true <;> simp [hm]

theorem length_le_of_append {l text input rest : List Char} (ht : '\n' ∉ text)
    (h : text ++ input = l ++ '\n' :: rest) : text.length ≤ l.length := by
  rcases List.append_eq_append_iff.1 h with ⟨a, rfl, -⟩ | ⟨a, rfl, ha⟩
  · simp
  · cases a with
    | nil => simp
    | cons x a =>
      obtain ⟨rfl, -⟩ := List.cons.inj ha
      exact absurd (by simp) ht

/-- Lines are determined by the text they are cut from. -/
theorem unlines_split {ls ms : List (List Char)} {rest : List Char} (hls : ∀ l ∈ ls, '\n' ∉ l)
    (hms : ∀ l ∈ ms, '\n' ∉ l) (h : unlines ls ++ rest = unlines ms) :
    ∃ ms', ms = ls ++ ms' ∧ rest = unlines ms' := by
  induction ls generalizing ms with
  | nil => exact ⟨ms, rfl, h⟩
  | cons l ls ih =>
    cases ms with
    | nil => simp at h
    | cons m ms =>
      obtain ⟨hl, hls⟩ := List.forall_mem_cons.1 hls
      obtain ⟨hm, hmt⟩ := List.forall_mem_cons.1 hms
      rw [unlines_cons, unlines_cons, List.append_assoc, List.cons_append] at h
      have hlen := Nat.le_antisymm (length_le_of_append hl h) (length_le_of_append hm h.symm)
      obtain ⟨rfl, hrest⟩ := List.append_inj h hlen
      obtain ⟨ms', rfl, hms'⟩ := ih hls hmt (List.cons.inj hrest).2
      exact ⟨ms', rfl, hms'⟩

/-- However the input is divided, the matching lines before the first one that does not fit are
written, and then `read` is asked for no bytes. -/
theorem grep_eq {pick : Nat → Nat} {text input : List Char} {ls : List (List Char)}
    (hls : ∀ l ∈ ls, '\n' ∉ l) (hlines : text ++ input = unlines ls) (htext : '\n' ∉ text)
    (hroom : text.length < BUFSIZE) :
    grep pattern pick text input = unlines ((ls.takeWhile Fits).filter (matchText pattern)) := by
  -- By induction on what is left to read: `text` is the part of the next line already in the
  -- buffer.
  induction hn : input.length using Nat.strong_induction_on generalizing text input ls with
  | _ k ih =>
  rw [grep]
  set n := min (max 1 (pick input.length)) (BUFSIZE - text.length - 1) with hndef
  by_cases h : input.take n = []
  · rw [dif_pos h]
    cases ls with
    | nil => rfl
    | cons l ls =>
      -- No byte was read although the line has no newline yet: the buffer is full.
      have hne : input ≠ [] := by
        rintro rfl
        rw [List.append_nil] at hlines
        exact htext (by rw [hlines]; simp)
      have hfull : ¬ l.length + 1 < BUFSIZE := by
        have hle := length_le_of_append htext (hlines.trans (unlines_cons l ls))
        have hzero := (List.take_eq_nil_iff.1 h).resolve_right hne
        omega
      rw [List.takeWhile_cons_of_neg (by simpa [Fits] using hfull)]
      rfl
  · rw [dif_neg h]
    obtain ⟨ls1, left, hcut, hls1, hleft, hprint⟩ := printLines_spec pattern (text ++ input.take n)
    simp only [hprint]
    have hall : unlines ls1 ++ (left ++ input.drop n) = unlines ls := by
      rw [← hlines, ← List.append_assoc, ← hcut, List.append_assoc, List.take_append_drop]
    obtain ⟨ls2, rfl, hls2⟩ := unlines_split hls1 hls hall
    have hlen : (unlines ls1).length + left.length < BUFSIZE := by
      have := congrArg List.length hcut
      simp only [List.length_append, List.length_take] at this
      omega
    have hfits : ∀ l ∈ ls1, Fits l = true := by
      intro l hl
      have hlt := length_lt_unlines hl
      simp only [Fits, decide_eq_true_eq]
      omega
    have hshort : (input.drop n).length < k := by
      rw [List.take_eq_nil_iff, not_or] at h
      have := List.length_pos_iff.2 h.2
      rw [List.length_drop]
      omega
    rw [ih _ hshort (fun l hl => hls l (List.mem_append_right ls1 hl)) hls2 hleft (by omega) rfl,
      List.takeWhile_append_of_pos hfits, List.filter_append, unlines_append]

/-- The output is right exactly if no line is lost with the first one that does not fit. -/
theorem grep_prints_iff (pattern : List Char) (pick : Nat → Nat) {ls : List (List Char)}
    (hls : ∀ l ∈ ls, IsLine l) :
    grep pattern pick [] (unlines ls) = unlines (ls.filter (matchText pattern)) ↔
      ∀ l ∈ ls.dropWhile Fits, matchText pattern l = false := by
  rw [grep_eq (fun l hl => (hls l hl).1) (List.nil_append _) (by simp) (by decide)]
  have hsplit : ls.filter (matchText pattern) =
      (ls.takeWhile Fits).filter (matchText pattern) ++
        (ls.dropWhile Fits).filter (matchText pattern) := by
    rw [← List.filter_append, List.takeWhile_append_dropWhile]
  rw [hsplit, unlines_append, List.self_eq_append_right]
  constructor
  · intro h l hl
    by_contra hm
    have hmem : l ∈ (ls.dropWhile Fits).filter (matchText pattern) :=
      List.mem_filter.2 ⟨hl, by simpa using hm⟩
    have hlt := length_lt_unlines hmem
    rw [h] at hlt
    exact Nat.not_lt_zero _ hlt
  · intro h
    rw [List.filter_eq_nil_iff.2 fun l hl => by simp [h l hl]]
    rfl

theorem grep_prints_iff_short :
    grep ['^', 'b'] (fun k => k) [] (unlines [['a'], ['b']]) =
      unlines ([['a'], ['b']].filter (matchText ['^', 'b'])) :=
  (grep_prints_iff ['^', 'b'] (fun k => k) (by decide)).2 (by decide)

/-- A line of 1023 characters fills the buffer without its newline and is not printed. -/
theorem grep_long_line :
    IsLine (List.replicate 1023 'a') ∧
      grep ['a'] (fun k => k) [] (unlines [List.replicate 1023 'a']) ≠
        unlines ([List.replicate 1023 'a'].filter (matchText ['a'])) := by
  have hline : IsLine (List.replicate 1023 'a') :=
    ⟨fun h => absurd (List.eq_of_mem_replicate h) (by decide),
      fun h => absurd (List.eq_of_mem_replicate h) (by decide)⟩
  have hcons : ∀ text, matchText ['a'] ('a' :: text) = true := by
    simp [matchText, search, matchhere]
  have hmatch : matchText ['a'] (List.replicate 1023 'a') = true := hcons (List.replicate 1022 'a')
  have hfits : ¬ Fits (List.replicate 1023 'a') = true := by
    rw [Fits, List.length_replicate]
    decide
  refine ⟨hline, ?_⟩
  rw [grep_eq (List.forall_mem_singleton.2 hline.1) (List.nil_append _) (by simp) (by decide),
    List.takeWhile_cons_of_neg hfits, List.filter_cons_of_pos hmatch,
    unlines_cons]
  exact (List.append_ne_nil_of_right_ne_nil _ (List.cons_ne_nil _ _)).symm

end Buffer

end Xv6.Grep
