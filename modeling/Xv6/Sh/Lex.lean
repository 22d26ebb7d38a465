import Xv6.Sh.Parse
import Mathlib.Data.List.TakeWhile

/-!
# Lex — the tokens of a line

A line is a sequence of tokens: words are maximal runs of characters that are neither blanks nor
symbols, and `>>` is one token.  The parser sees the line only through `peek` and `gettoken`, and
these two depend on nothing but the tokens that are left at the cursor.
-/

namespace Xv6.Sh

open Lib

inductive Tok
  /-- A symbol of one character. -/
  | sym (c : Char)
  /-- `>>` -/
  | append
  | word (w : List Char)
  deriving DecidableEq

def tokens : List Char → List Tok
  | [] => []
  | c :: cs =>
    if isSpace c then
      tokens cs
    else if isWord c then
      .word (c :: cs.takeWhile isWord) :: tokens (cs.dropWhile isWord)
    else if c = '>' ∧ cs.head? = some '>' then
      .append :: tokens cs.tail
    else
      .sym c :: tokens cs
  termination_by cs => cs.length
  decreasing_by
    all_goals simp only [List.length_cons, List.length_tail]
    · omega
    · exact Nat.lt_succ_of_le (List.length_dropWhile_le _ _)
    · omega
    · omega

/-- What `gettoken` returns for a token. -/
def Tok.code : Tok → Char
  | .sym c => c
  | .append => '+'
  | .word _ => 'a'

/-- The token begins with one of the characters, which are symbols. -/
def Tok.starts (cs : List Char) : Tok → Bool
  | .sym c => strchr cs c
  | .append => strchr cs '>'
  | .word _ => false

/-! ## Characters -/

variable {c : Char} {cs : List Char} {q : Nat}

theorem isWord_iff : isWord c = true ↔ isSpace c = false ∧ strchr symbols c = false := by
  rw [isWord, isSpace, Bool.and_eq_true, Bool.not_eq_true', Bool.not_eq_true']

theorem strchr_sub {as bs : List Char} (hsub : as ⊆ bs) (h : strchr bs c = false) :
    strchr as c = false := by
  rw [strchr, List.contains_eq_mem, decide_eq_false_iff_not] at h ⊢
  exact fun hmem => h (hsub hmem)

/-! ## The cursor -/

theorem skip_eq (p : Char → Bool) (cs : List Char) (i : Nat) :
    skip p cs i = i + (cs.takeWhile p).length := by
  induction cs generalizing i with
  | nil => rfl
  | cons c cs ih =>
    rw [skip]
    split
    · rename_i hc
      rw [ih, List.takeWhile_cons_of_pos hc, List.length_cons]
      omega
    · rename_i hc
      rw [List.takeWhile_cons_of_neg hc]
      rfl

namespace Line

variable (s : Line)

/-- The characters from the cursor on. -/
def rest (i : Nat) : List Char :=
  s.chars.drop i

variable {s} {i j : Nat}

theorem rest_length (i : Nat) : (s.rest i).length = s.length - i :=
  List.length_drop

theorem rest_succ (i : Nat) : s.rest (i + 1) = (s.rest i).tail := by
  rw [rest, rest, List.tail_drop]

theorem rest_eq_nil : s.rest i = [] ↔ s.length ≤ i :=
  List.drop_eq_nil_iff

/-- A loop of the tokenizer stays in the line and drops the characters it passes. -/
theorem skip_spec (p : Char → Bool) (hi : i ≤ s.length) : i ≤ s.skip p i ∧
    s.skip p i ≤ s.length ∧ s.rest (s.skip p i) = (s.rest i).dropWhile p ∧
      s.skip p i = i + ((s.rest i).takeWhile p).length := by
  have heq : s.skip p i = i + ((s.rest i).takeWhile p).length := skip_eq p _ i
  have hle := (List.takeWhile_sublist p (l := s.rest i)).length_le
  rw [rest_length] at hle
  refine ⟨by omega, by omega, ?_, heq⟩
  rw [heq, rest, ← List.drop_drop]
  calc
    List.drop ((s.rest i).takeWhile p).length (s.rest i) = List.drop ((s.rest i).takeWhile p).length
            ((s.rest i).takeWhile p ++ (s.rest i).dropWhile p) := by
          rw [List.takeWhile_append_dropWhile]
    _ = (s.rest i).dropWhile p := List.drop_left

theorem load_eq (hi : i ≤ s.length) : s.load i = pure ((s.rest i).headD '\x00') := by
  unfold load
  split
  · rename_i h
    rw [rest, List.drop_eq_getElem_cons h]
    rfl
  · rename_i h
    have hlen : i = s.chars.length := Nat.le_antisymm hi (Nat.le_of_not_lt h)
    rw [if_pos hlen, rest, hlen, List.drop_length]
    rfl

end Line

/-! ## Tokens from the cursor on -/

theorem tokens_space (hc : isSpace c = true) (cs : List Char) : tokens (c :: cs) = tokens cs := by
  rw [tokens, if_pos hc]

theorem tokens_dropWhile (cs : List Char) : tokens (cs.dropWhile isSpace) = tokens cs := by
  induction cs with
  | nil => rfl
  | cons c cs ih =>
    by_cases hc : isSpace c = true
    · rw [List.dropWhile_cons_of_pos hc, tokens_space hc, ih]
    · rw [List.dropWhile_cons_of_neg hc]

/-- The tokens that are left at the cursor. -/
def toks (s : Line) (i : Nat) : List Tok :=
  tokens (s.rest i)

variable {s : Line} {i j : Nat} {t : Tok} {ts : List Tok}

/-- The characters of a word. -/
def text (s : Line) (x : Span) : List Char :=
  (s.chars.drop x.1).take (x.2 - x.1)

/-- A maximal run of characters of a word. -/
structure WordAt (s : Line) (x : Span) : Prop where
  lt : x.1 < x.2
  le : x.2 ≤ s.length
  word : ∀ c ∈ text s x, isWord c = true
  stop : ∀ c, s.chars[x.2]? = some c → isWord c = false

theorem toks_skip (hi : i ≤ s.length) : toks s (s.skip isSpace i) = toks s i := by
  rw [toks, (s.skip_spec isSpace hi).2.2.1, tokens_dropWhile]
  rfl

/-- Behind the blanks there is the end of the line or a character that is no blank. -/
theorem rest_skip (hi : i ≤ s.length) : (s.rest (s.skip isSpace i) = [] ∧ toks s i = []) ∨
    ∃ c cs, s.rest (s.skip isSpace i) = c :: cs ∧ isSpace c = false ∧ c ≠ '\x00' ∧
      toks s i = tokens (c :: cs) := by
  rw [← toks_skip hi, toks]
  cases hrest : s.rest (s.skip isSpace i) with
  | nil => exact .inl ⟨rfl, by rw [tokens]⟩
  | cons c cs =>
    refine .inr ⟨c, cs, rfl, ?_, ?_, rfl⟩
    · have hhead := List.head?_dropWhile_not isSpace (s.rest i)
      rw [← (s.skip_spec isSpace hi).2.2.1, hrest] at hhead
      simpa using hhead
    · rintro rfl
      exact s.nul (List.mem_of_mem_drop (hrest ▸ List.mem_cons_self))

theorem tokens_word (hc : isWord c = true) :
    tokens (c :: cs) = .word (c :: cs.takeWhile isWord) :: tokens (cs.dropWhile isWord) := by
  rw [tokens, if_neg (by rw [(isWord_iff.1 hc).1]; decide), if_pos hc]

theorem tokens_append : tokens ('>' :: '>' :: cs) = .append :: tokens cs := by
  rw [tokens, if_neg (by decide), if_neg (by decide), if_pos ⟨rfl, rfl⟩]
  rfl

theorem tokens_sym (hspace : isSpace c = false)
    (hword : isWord c = false) (hne : ¬ (c = '>' ∧ cs.head? = some '>')) :
    tokens (c :: cs) = .sym c :: tokens cs := by
  rw [tokens, if_neg (by rw [hspace]; decide), if_neg (by rw [hword]; decide), if_neg hne]

/-- The ways in which a line can go on at a character that is no blank. -/
theorem tokens_cases (cs : List Char) (hspace : isSpace c = false) : (isWord c = true ∧
        tokens (c :: cs) = .word (c :: cs.takeWhile isWord) :: tokens (cs.dropWhile isWord)) ∨
      (∃ cs', c = '>' ∧ cs = '>' :: cs' ∧ tokens (c :: cs) = .append :: tokens cs') ∨
        strchr symbols c = true ∧ ¬ (c = '>' ∧ cs.head? = some '>') ∧
          tokens (c :: cs) = .sym c :: tokens cs := by
  by_cases hword : isWord c = true
  · exact .inl ⟨hword, tokens_word hword⟩
  · by_cases hgt : c = '>' ∧ cs.head? = some '>'
    · rcases List.head?_eq_some_iff.1 hgt.2 with ⟨cs', rfl⟩
      exact .inr (.inl ⟨cs', hgt.1, rfl, hgt.1 ▸ tokens_append⟩)
    · refine .inr (.inr ⟨?_, hgt, tokens_sym hspace (Bool.not_eq_true _ ▸ hword) hgt⟩)
      rw [isWord_iff, hspace, eq_self, true_and, Bool.not_eq_false] at hword
      exact hword

/-- The first token tells whether the first character is one of some symbols. -/
theorem starts_head {toks : List Char} (hspace : isSpace c = false)
    (hsub : toks ⊆ symbols) : (tokens (c :: cs)).head?.any (Tok.starts toks) = strchr toks c := by
  rcases tokens_cases cs hspace with ⟨hword, heq⟩ | ⟨cs', rfl, rfl, heq⟩ | ⟨-, -, heq⟩
  · rw [heq, strchr_sub hsub (isWord_iff.1 hword).2]
    rfl
  · rw [heq]
    rfl
  · rw [heq]
    rfl

theorem tokens_ne_nil (hspace : isSpace c = false) : tokens (c :: cs) ≠ [] := by
  rcases tokens_cases cs hspace with ⟨-, heq⟩ | ⟨cs', -, -, heq⟩ | ⟨-, -, heq⟩
  all_goals rw [heq]; exact List.cons_ne_nil _ _

theorem sym_of_mem (h : .sym c ∈ tokens cs) : strchr symbols c = true := by
  fun_induction tokens cs with
  | case1 => cases h
  | case2 c' cs hspace ih => exact ih h
  | case3 c' cs hspace hword ih =>
    rcases List.mem_cons.1 h with heq | h
    · cases heq
    · exact ih h
  | case4 c' cs hspace hword hgt ih =>
    rcases List.mem_cons.1 h with heq | h
    · cases heq
    · exact ih h
  | case5 c' cs hspace hword hgt ih =>
    rcases List.mem_cons.1 h with heq | h
    · cases heq
      rw [Bool.not_eq_true] at hspace
      rw [isWord_iff, hspace, eq_self, true_and, Bool.not_eq_false] at hword
      exact hword
    · exact ih h

/-- What `gettoken` returns tells words and the end of the line from the other tokens. -/
theorem code_spec (ht : toks s i = t :: ts) :
    t.code ≠ '\x00' ∧ (t.code = 'a' ↔ ∃ w, t = .word w) := by
  cases t with
  | sym c =>
    have hsym : strchr symbols c = true := sym_of_mem (ht ▸ List.mem_cons_self)
    refine ⟨?_, fun ha => ?_, nofun⟩
    · rintro rfl
      exact absurd hsym (by decide)
    · cases ha
      exact absurd hsym (by decide)
  | append => exact ⟨by decide, fun h => absurd h (by decide), nofun⟩
  | word w => exact ⟨(by decide : 'a' ≠ '\x00'), fun _ => ⟨w, rfl⟩, fun _ => rfl⟩

/-! ## `peek` and `gettoken` -/

theorem peek_spec (hi : i ≤ s.length) (hcs : cs ⊆ symbols) : ∃ j,
    peek s cs i = .ok ((toks s i).head?.any (Tok.starts cs)) j ∧ j ≤ s.length ∧
      toks s j = toks s i ∧ (j = s.length ↔ toks s i = []) := by
  have hskip := s.skip_spec isSpace hi
  have hpeek : peek s cs i = .ok ((s.rest (s.skip isSpace i)).headD '\x00' ≠ '\x00' &&
        strchr cs ((s.rest (s.skip isSpace i)).headD '\x00')) (s.skip isSpace i) := by
    change (s.load (s.skip isSpace i) >>= _) (s.skip isSpace i) = _
    rw [Line.load_eq hskip.2.1]
    rfl
  refine ⟨s.skip isSpace i, ?_, hskip.2.1, toks_skip hi, ?_⟩
  all_goals rcases rest_skip hi with ⟨hrest, htoks⟩ | ⟨c, cs', hrest, hspace, hnul, htoks⟩
  · rw [hpeek, hrest, htoks]
    rfl
  · rw [hpeek, hrest, htoks, starts_head hspace hcs]
    simp [hnul]
  · refine iff_of_true ?_ htoks
    exact Nat.le_antisymm hskip.2.1 (Line.rest_eq_nil.1 hrest)
  · refine iff_of_false (fun hlen => ?_) (htoks ▸ tokens_ne_nil hspace)
    rw [hlen, Line.rest_eq_nil.2 le_rfl] at hrest
    cases hrest

theorem gettoken_eq {ret : Char} {eq : Nat} (hscan : scan s (s.skip isSpace i) = pure (ret, eq)) :
    gettoken s i = .ok (ret, s.skip isSpace i, eq) (s.skip isSpace eq) := by
  change (scan s (s.skip isSpace i) >>= _) i = _
  rw [hscan]
  rfl

theorem gettoken_nil (hi : i ≤ s.length) (ht : toks s i = []) : ∃ x j,
    gettoken s i = .ok ('\x00', x) j ∧ j ≤ s.length ∧ toks s j = [] := by
  have hskip := s.skip_spec isSpace hi
  rcases rest_skip hi with ⟨hrest, -⟩ | ⟨c, cs, -, hspace, -, htoks⟩
  · have hscan : scan s (s.skip isSpace i) = pure ('\x00', s.skip isSpace i) := by
      rw [scan, Line.load_eq hskip.2.1, hrest]
      rfl
    refine ⟨_, _, gettoken_eq hscan, (s.skip_spec isSpace hskip.2.1).2.1, ?_⟩
    rw [toks_skip hskip.2.1, toks_skip hi, ht]
  · rw [htoks] at ht
    exact absurd ht (tokens_ne_nil hspace)

/-- A word, from its first character to the next blank or symbol. -/
theorem wordAt_skip (hrest : s.rest q = c :: cs)
    (hc : isWord c = true) : WordAt s (q, s.skip isWord q) ∧
      text s (q, s.skip isWord q) = c :: cs.takeWhile isWord ∧
        s.rest (s.skip isWord q) = cs.dropWhile isWord := by
  have hq : q < s.length := by
    by_contra hle
    rw [Line.rest_eq_nil.2 (Nat.le_of_not_lt hle)] at hrest
    cases hrest
  rcases s.skip_spec isWord (Nat.le_of_lt hq) with ⟨hle, hlen, hdrop, heq⟩
  rw [hrest, List.takeWhile_cons_of_pos hc, List.length_cons] at heq
  have htext : text s (q, s.skip isWord q) = c :: cs.takeWhile isWord := by
    have hsub : s.skip isWord q - q = (cs.takeWhile isWord).length + 1 := by omega
    change (s.rest q).take (s.skip isWord q - q) = _
    rw [hrest, hsub, List.take_succ_cons]
    congr 1
    calc
      cs.take (cs.takeWhile isWord).length
          = (cs.takeWhile isWord ++ cs.dropWhile isWord).take (cs.takeWhile isWord).length := by
            rw [List.takeWhile_append_dropWhile]
      _ = cs.takeWhile isWord := List.take_left
  refine ⟨⟨by simp only; omega, hlen, fun x hx => ?_, fun x hx => ?_⟩, htext, ?_⟩
  · rw [htext] at hx
    rcases List.mem_cons.1 hx with rfl | hx
    · exact hc
    · exact List.mem_takeWhile_imp hx
  · have hhead := List.head?_dropWhile_not isWord (s.rest q)
    rw [← hdrop, Line.rest, List.head?_drop, hx] at hhead
    simpa using hhead
  · rw [hdrop, hrest, List.dropWhile_cons_of_pos hc]

theorem scan_word (hq : q ≤ s.length)
    (hrest : s.rest q = c :: cs) (hnul : c ≠ '\x00') (hc : isWord c = true) :
    scan s q = pure ('a', s.skip isWord q) := by
  have hsym := (isWord_iff.1 hc).2
  have hgt : c ≠ '>' := by
    rintro rfl
    exact absurd hsym (by decide)
  rw [scan, Line.load_eq hq, hrest, Prog.pure_bind, List.headD_cons, if_neg hnul,
    strchr_sub (by decide) hsym, if_neg (by decide), if_neg hgt]

theorem scan_gt (hq : q ≤ s.length) (hrest : s.rest q = '>' :: cs) :
    scan s q = pure (if cs.head? = some '>' then ('+', q + 2) else ('>', q + 1)) := by
  have hlt : q < s.length := by
    by_contra hle
    rw [Line.rest_eq_nil.2 (Nat.le_of_not_lt hle)] at hrest
    cases hrest
  rw [scan, Line.load_eq hq, hrest, Prog.pure_bind, List.headD_cons, if_neg (by decide),
    if_neg (by decide), if_pos rfl, Line.load_eq hlt, Line.rest_succ, hrest, Prog.pure_bind,
    List.tail_cons]
  cases cs with
  | nil => rfl
  | cons c cs => simp

theorem scan_sym (hq : q ≤ s.length)
    (hrest : s.rest q = c :: cs) (hnul : c ≠ '\x00') (hc : strchr symbols c = true)
    (hne : c ≠ '>') : scan s q = pure (c, q + 1) := by
  have hmem : strchr ['|', '(', ')', ';', '&', '<'] c = true := by
    rw [strchr, List.contains_eq_mem, decide_eq_true_iff] at hc ⊢
    simp only [symbols, List.mem_cons, List.not_mem_nil, or_false] at hc ⊢
    grind
  rw [scan, Line.load_eq hq, hrest, Prog.pure_bind, List.headD_cons, if_neg hnul, if_pos hmem]

theorem gettoken_cons (hi : i ≤ s.length) (ht : toks s i = t :: ts) : ∃ x j,
    gettoken s i = .ok (t.code, x) j ∧ j ≤ s.length ∧ toks s j = ts ∧
      ∀ w, t = .word w → WordAt s x ∧ text s x = w := by
  rcases s.skip_spec isSpace hi with ⟨-, hq, -, -⟩
  rcases rest_skip hi with ⟨-, hnil⟩ | ⟨c, cs, hrest, hspace, hnul, htoks⟩
  · rw [hnil] at ht
    cases ht
  rw [htoks] at ht
  have hsucc : s.skip isSpace i + 1 ≤ s.length := by
    by_contra hle
    rw [Line.rest_eq_nil.2 (by omega)] at hrest
    cases hrest
  have hone : s.rest (s.skip isSpace i + 1) = cs := by rw [Line.rest_succ, hrest, List.tail_cons]
  -- After the token the cursor passes the blanks again.
  have hnext : ∀ {eq}, eq ≤ s.length → s.skip isSpace eq ≤ s.length ∧
      toks s (s.skip isSpace eq) = tokens (s.rest eq) :=
    fun heq => ⟨(s.skip_spec isSpace heq).2.1, toks_skip heq⟩
  rcases tokens_cases cs hspace with ⟨hword, heq⟩ | ⟨cs', rfl, rfl, heq⟩ | ⟨hsym, hne, heq⟩
  · rw [heq] at ht
    cases ht
    rcases wordAt_skip hrest hword with ⟨hat, htext, hafter⟩
    rcases hnext hat.le with ⟨hle, htoks'⟩
    refine ⟨_, _, gettoken_eq (scan_word hq hrest hnul hword), hle, ?_, fun w hw => ?_⟩
    · exact htoks'.trans (by rw [hafter])
    · cases hw
      exact ⟨hat, htext⟩
  · rw [heq] at ht
    cases ht
    have htwo : s.skip isSpace i + 2 ≤ s.length := by
      by_contra hle
      rw [Line.rest_eq_nil.2 (by omega)] at hone
      cases hone
    rcases hnext htwo with ⟨hle, htoks'⟩
    refine ⟨_, _, gettoken_eq ((scan_gt hq hrest).trans
      (by rw [List.head?_cons, if_pos rfl]; rfl)), hle,
      ?_, nofun⟩
    exact htoks'.trans (by rw [Line.rest_succ, hone, List.tail_cons])
  · rw [heq] at ht
    cases ht
    rcases hnext hsucc with ⟨hle, htoks'⟩
    have hscan : scan s (s.skip isSpace i) = pure (c, s.skip isSpace i + 1) := by
      by_cases hgt : c = '>'
      · subst hgt
        rw [scan_gt hq hrest, if_neg fun h => hne ⟨rfl, h⟩]
      · exact scan_sym hq hrest hnul hsym hgt
    exact ⟨_, _, gettoken_eq hscan, hle, htoks'.trans (by rw [hone]), nofun⟩

end Xv6.Sh
