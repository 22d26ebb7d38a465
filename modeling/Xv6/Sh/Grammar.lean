import Xv6.Sh.Lex
import Mathlib.Data.List.Induction

/-!
# Grammar — the language of the shell

The grammar of command lines over tokens, with the command that belongs to each derivation.  The
parser accepts exactly the lines that derive from it and builds the command of the derivation.
-/

namespace Xv6.Sh

open Lib

variable {V W : Type}

/-! ## The grammar -/

structure Redir (W : Type) where
  file : W
  mode : Nat
  fd : Nat

/-- Each later redirection wraps the earlier ones. -/
def wrap (rs : List (Redir W)) (cmd : Cmd W) : Cmd W :=
  rs.foldl (fun cmd r => .redir cmd r.file r.mode r.fd) cmd

/-- In the background, `n` times over. -/
def backs : Nat → Cmd W → Cmd W
  | 0, cmd => cmd
  | n + 1, cmd => backs n (.back cmd)

/-- The operators with their mode and file descriptor. -/
inductive Operator : Tok → Nat → Nat → Prop where
  | read : Operator (.sym '<') O_RDONLY 0
  | write : Operator (.sym '>') (O_WRONLY ||| O_CREATE ||| O_TRUNC) 1
  | append : Operator .append (O_WRONLY ||| O_CREATE) 1

/-- `redirs ::= {('<' | '>' | '>>') word}` -/
inductive Redirs : List Tok → List (Redir (List Char)) → Prop where
  | nil : Redirs [] []
  | cons {op : Tok} {mode fd : Nat} {w : List Char} {ts : List Tok}
      {rs : List (Redir (List Char))} (hop : Operator op mode fd) (h : Redirs ts rs) :
      Redirs (op :: .word w :: ts) (⟨w, mode, fd⟩ :: rs)

/-- `{word redirs}` -/
inductive Words : List Tok → List (List Char) → List (Redir (List Char)) → Prop where
  | nil : Words [] [] []
  | cons {w : List Char} {ts us : List Tok} {rs rs' : List (Redir (List Char))}
      {ws : List (List Char)} (hr : Redirs ts rs) (hw : Words us ws rs') :
      Words (.word w :: (ts ++ us)) (w :: ws) (rs ++ rs')

inductive Sym
  | line
  | pipe
  | exec

/-- The derivations of the grammar. -/
inductive Derives : Sym → List Tok → Cmd (List Char) → Prop where
  /-- `line ::= pipe {'&'}` -/
  | line {ts : List Tok} {c : Cmd (List Char)} {n : Nat} (h : Derives .pipe ts c) :
      Derives .line (ts ++ List.replicate n (.sym '&')) (backs n c)
  /-- `line ::= pipe {'&'} ';' line` -/
  | list {ts us : List Tok} {c d : Cmd (List Char)} {n : Nat} (h : Derives .pipe ts c)
      (h' : Derives .line us d) :
      Derives .line (ts ++ (List.replicate n (.sym '&') ++ .sym ';' :: us)) (.list (backs n c) d)
  /-- `pipe ::= exec` -/
  | single {ts : List Tok} {c : Cmd (List Char)} (h : Derives .exec ts c) : Derives .pipe ts c
  /-- `pipe ::= exec '|' pipe` -/
  | pipe {ts us : List Tok} {c d : Cmd (List Char)} (h : Derives .exec ts c)
      (h' : Derives .pipe us d) : Derives .pipe (ts ++ .sym '|' :: us) (.pipe c d)
  /-- `exec ::= '(' line ')' redirs` -/
  | block {ts us : List Tok} {c : Cmd (List Char)} {rs : List (Redir (List Char))}
      (h : Derives .line ts c) (h' : Redirs us rs) :
      Derives .exec (.sym '(' :: (ts ++ .sym ')' :: us)) (wrap rs c)
  /-- `exec ::= redirs {word redirs}` with at most `MAXARGS - 1` words -/
  | words {ts us : List Tok} {rs rs' : List (Redir (List Char))} {ws : List (List Char)}
      (h : Redirs ts rs) (h' : Words us ws rs') (hlen : ws.length ≤ MAXARGS - 1) :
      Derives .exec (ts ++ us) (wrap (rs ++ rs') (.exec ws))

/-! ## Commands and their words -/

def Cmd.map (f : V → W) : Cmd V → Cmd W
  | .exec argv => .exec (argv.map f)
  | .redir cmd file mode fd => .redir (cmd.map f) (f file) mode fd
  | .pipe left right => .pipe (left.map f) (right.map f)
  | .list left right => .list (left.map f) (right.map f)
  | .back cmd => .back (cmd.map f)

def Cmd.words : Cmd W → List W
  | .exec argv => argv
  | .redir cmd file _ _ => cmd.words ++ [file]
  | .pipe left right => left.words ++ right.words
  | .list left right => left.words ++ right.words
  | .back cmd => cmd.words

theorem wrap_append (rs rs' : List (Redir W)) (c : Cmd W) :
    wrap (rs ++ rs') c = wrap rs' (wrap rs c) :=
  List.foldl_append

theorem wrap_concat (rs : List (Redir W)) (r : Redir W) (c : Cmd W) :
    wrap (rs ++ [r]) c = .redir (wrap rs c) r.file r.mode r.fd := by
  rw [wrap_append]
  rfl

theorem addArg_wrap (rs : List (Redir W)) (argv : List W) (x : W) :
    (wrap rs (.exec argv)).addArg x = wrap rs (.exec (argv ++ [x])) := by
  induction rs using List.reverseRecOn with
  | nil => rfl
  | append_singleton rs r ih => rw [wrap_concat, wrap_concat, Cmd.addArg, ih]

theorem map_addArg (f : V → W) (c : Cmd V) (x : V) :
    (c.addArg x).map f = (c.map f).addArg (f x) := by
  induction c with
  | exec argv => simp [Cmd.addArg, Cmd.map]
  | redir cmd file mode fd ih => simp only [Cmd.addArg, Cmd.map, ih]
  | pipe | list | back => rfl

theorem mem_words_addArg {c : Cmd W} {x y : W} (h : y ∈ (c.addArg x).words) :
    y = x ∨ y ∈ c.words := by
  induction c with
  | exec argv =>
    simp only [Cmd.addArg, Cmd.words, List.mem_append, List.mem_singleton] at h
    exact h.symm
  | redir cmd file mode fd ih =>
    simp only [Cmd.addArg, Cmd.words, List.mem_append, List.mem_singleton] at h ⊢
    rcases h with h | h
    · exact (ih h).imp_right .inl
    · exact .inr (.inr h)
  | pipe | list | back => exact .inr h

theorem map_back (f : V → W) (n : Nat) (c : Cmd V) : (backs n c).map f = backs n (c.map f) := by
  induction n generalizing c with
  | zero => rfl
  | succ n ih => exact ih (.back c)

theorem words_back (n : Nat) (c : Cmd W) : (backs n c).words = c.words := by
  induction n generalizing c with
  | zero => rfl
  | succ n ih => exact ih (.back c)

/-! ## Rules for `peek` and `gettoken` -/

variable {s : Line} {i j fuel : Nat} {t : Tok} {ts us : List Tok}

section Rules

variable {α : Type} {E : Err → Prop} {Q : α → Nat → Prop}

theorem wp_peek {cs : List Char} {a b : Prog Nat Err α} (hi : i ≤ s.length) (hcs : cs ⊆ symbols)
    (hyes : ∀ t ts j, toks s i = t :: ts → t.starts cs = true → j ≤ s.length →
      toks s j = t :: ts → Prog.wp a E Q j)
    (hno : ∀ j, (∀ t ts, toks s i = t :: ts → t.starts cs = false) → j ≤ s.length →
      toks s j = toks s i → Prog.wp b E Q j) :
    Prog.wp (peek s cs >>= fun r => if r = true then a else b) E Q i := by
  rcases peek_spec hi hcs with ⟨j, hpeek, hj, htoks, -⟩
  refine Prog.wp_bind.2 ((Prog.wp_of_eq hpeek).2 ?_)
  cases ht : toks s i with
  | nil => exact hno j (fun t ts heq => absurd (ht.symm.trans heq) nofun) hj htoks
  | cons t ts =>
    rw [List.head?_cons, Option.any_some]
    split
    · rename_i hstart
      exact hyes t ts j ht hstart hj (htoks.trans ht)
    · rename_i hstart
      refine hno j (fun t' ts' heq => ?_) hj htoks
      cases ht.symm.trans heq
      exact Bool.not_eq_true _ ▸ hstart

theorem wp_gettoken {f : Char × Span → Prog Nat Err α} (hi : i ≤ s.length)
    (ht : toks s i = t :: ts) (h : ∀ x j, j ≤ s.length → toks s j = ts →
      (∀ w, t = .word w → WordAt s x ∧ text s x = w) → Prog.wp (f (t.code, x)) E Q j) :
    Prog.wp (gettoken s >>= f) E Q i := by
  rcases gettoken_cons hi ht with ⟨x, j, hget, hj, htoks, hword⟩
  exact Prog.wp_bind.2 ((Prog.wp_of_eq hget).2 (h x j hj htoks hword))

theorem wp_gettoken_end {f : Char × Span → Prog Nat Err α} (hi : i ≤ s.length)
    (ht : toks s i = []) (h : ∀ x j, j ≤ s.length → toks s j = [] →
      Prog.wp (f ('\x00', x)) E Q j) : Prog.wp (gettoken s >>= f) E Q i := by
  rcases gettoken_nil hi ht with ⟨x, j, hget, hj, htoks⟩
  exact Prog.wp_bind.2 ((Prog.wp_of_eq hget).2 (h x j hj htoks))

end Rules

/-! ## What the parser accepts derives -/

def Panics (e : Err) : Prop :=
  ∃ msg, e = .panic msg

theorem starts_redir (h : t.starts ['<', '>'] = true) : ∃ mode fd, Operator t mode fd := by
  cases t with
  | sym c =>
    simp only [Tok.starts, strchr, List.contains_eq_mem, decide_eq_true_iff, List.mem_cons,
      List.not_mem_nil, or_false] at h
    rcases h with rfl | rfl
    · exact ⟨_, _, .read⟩
    · exact ⟨_, _, .write⟩
  | append => exact ⟨_, _, .append⟩
  | word w => cases h

theorem starts_sym {c : Char} (hc : c ≠ '>') : t.starts [c] = true ↔ t = .sym c := by
  cases t with
  | sym c' =>
    rw [Tok.starts, strchr, List.contains_eq_mem, decide_eq_true_iff, List.mem_singleton,
      Tok.sym.injEq]
  | append =>
    refine ⟨fun h => ?_, by rintro ⟨⟩⟩
    rw [Tok.starts, strchr, List.contains_eq_mem, decide_eq_true_iff, List.mem_singleton] at h
    exact absurd h.symm hc
  | word w => exact ⟨by rintro ⟨⟩, by rintro ⟨⟩⟩

theorem redircmd_of_operator {mode fd : Nat} (h : Operator t mode fd) (cmd : Cmd Span) (x : Span) :
    redircmd t.code cmd x = .redir cmd x mode fd := by
  cases h <;> rfl

theorem parseredirs_sound {cmd : Cmd Span} (hi : i ≤ s.length)
    (hfuel : (toks s i).length + 1 ≤ fuel) :
    Prog.wp (parseredirs s fuel cmd) Panics (fun c j => j ≤ s.length ∧ ∃ us rs,
      toks s i = us ++ toks s j ∧ Redirs us rs ∧ c.map (text s) = wrap rs (cmd.map (text s)) ∧
          ∀ x ∈ c.words, x ∈ cmd.words ∨ WordAt s x) i := by
  induction fuel generalizing i cmd with
  | zero => omega
  | succ fuel ih =>
    rw [parseredirs]
    refine wp_peek hi (by decide) (fun op ts j ht hstart hj htoks => ?_) fun j _ hj htoks => ?_
    · rcases starts_redir hstart with ⟨mode, fd, hop⟩
      refine wp_gettoken hj htoks fun x k hk hkt _ => ?_
      cases ts with
      | nil =>
        refine wp_gettoken_end hk hkt fun x l hl hlt => ?_
        exact ⟨_, rfl⟩
      | cons t ts =>
        refine wp_gettoken hk hkt fun x l hl hlt hword => ?_
        by_cases ha : t.code = 'a'
        · rcases (code_spec hkt).2.1 ha with ⟨w, rfl⟩
          rcases hword w rfl with ⟨hat, htext⟩
          simp only [Tok.code, ne_eq, not_true_eq_false, if_false]
          change Prog.wp (parseredirs s fuel (redircmd op.code cmd x)) _ _ l
          rw [redircmd_of_operator hop]
          have hlen : (toks s l).length + 1 ≤ fuel := by
            rw [ht, List.length_cons, List.length_cons] at hfuel
            rw [hlt]
            omega
          refine Prog.wp_post (ih hl hlen) ?_
          rintro c m ⟨hm, us, rs, hus, hrs, hmap, hwords⟩
          refine ⟨hm, op :: .word w :: us, ⟨w, mode, fd⟩ :: rs, ?_, .cons hop hrs, ?_, ?_⟩
          · rw [ht, ← hlt, hus]
            rfl
          · rw [hmap, ← htext]
            rfl
          · intro y hy
            rcases hwords y hy with hy | hy
            · rcases List.mem_append.1 hy with hy | hy
              · exact .inl hy
              · rw [List.mem_singleton.1 hy]
                exact .inr hat
            · exact .inr hy
        · simp only [ne_eq, ha, not_false_eq_true, if_true]
          exact ⟨_, rfl⟩
    · exact ⟨hj, [], [], htoks.symm, .nil, rfl, fun x hx => .inl hx⟩

theorem parseargs_sound {ret : Cmd Span} {argc : Nat} {rs₀ : List (Redir (List Char))}
    {argv : List (List Char)} (hi : i ≤ s.length) (hfuel : (toks s i).length + 1 ≤ fuel)
    (hret : ret.map (text s) = wrap rs₀ (.exec argv)) (hargv : argv.length = argc)
    (hargc : argc ≤ MAXARGS - 1) :
    Prog.wp (parseargs s fuel ret argc) Panics (fun c j => j ≤ s.length ∧ ∃ us ws rs,
      toks s i = us ++ toks s j ∧ Words us ws rs ∧
        c.map (text s) = wrap (rs₀ ++ rs) (.exec (argv ++ ws)) ∧
          argc + ws.length ≤ MAXARGS - 1 ∧ ∀ x ∈ c.words, x ∈ ret.words ∨ WordAt s x) i := by
  induction fuel generalizing i ret argc rs₀ argv with
  | zero => omega
  | succ fuel ih =>
    have hroom : argc < MAXARGS := Nat.lt_of_le_of_lt hargc (by decide)
    have hdone : ∀ j, j ≤ s.length → toks s j = toks s i →
        Prog.wp (if argc < MAXARGS then pure ret else Prog.halt .fault : Prog Nat Err (Cmd Span))
          Panics (fun c j => j ≤ s.length ∧ ∃ us ws rs, toks s i = us ++ toks s j ∧
            Words us ws rs ∧ c.map (text s) = wrap (rs₀ ++ rs) (.exec (argv ++ ws)) ∧
              argc + ws.length ≤ MAXARGS - 1 ∧ ∀ x ∈ c.words, x ∈ ret.words ∨ WordAt s x) j := by
      intro j hj htoks
      rw [if_pos hroom]
      refine ⟨hj, [], [], [], htoks.symm, .nil, ?_, hargc, fun x hx => .inl hx⟩
      rw [List.append_nil, List.append_nil, hret]
    rw [parseargs]
    refine wp_peek hi (by decide) (fun t ts j ht _ hj htoks => hdone j hj (htoks.trans ht.symm))
      fun j _ hj htoks => ?_
    cases ht : toks s i with
    | nil =>
      refine wp_gettoken_end hj (htoks.trans ht) fun x k hk hkt => ?_
      exact ht ▸ hdone k hk (hkt.trans ht.symm)
    | cons t ts =>
      refine wp_gettoken hj (htoks.trans ht) fun x k hk hkt hword => ?_
      have hcode := code_spec ht
      simp only [hcode.1, if_false]
      by_cases ha : t.code = 'a'
      · rcases hcode.2.1 ha with ⟨w, rfl⟩
        rcases hword w rfl with ⟨hat, htext⟩
        simp only [Tok.code, ne_eq, not_true_eq_false, if_false, if_neg (Nat.not_le_of_lt hroom)]
        split
        · exact ⟨_, rfl⟩
        · rename_i hmax
          have hlen : (toks s k).length + 1 ≤ fuel := by
            rw [ht, List.length_cons] at hfuel
            rw [hkt]
            omega
          refine Prog.wp_seq (parseredirs_sound hk hlen) ?_
          rintro c l ⟨hl, us, rs, hus, hrs, hmap, hwords⟩
          have hret' : c.map (text s) = wrap (rs₀ ++ rs) (.exec (argv ++ [w])) := by
            rw [hmap, map_addArg, hret, addArg_wrap, htext, wrap_append]
          have hlen' : (toks s l).length + 1 ≤ fuel := by
            rw [hus, List.length_append] at hlen
            omega
          refine Prog.wp_post (ih hl hlen' hret' (by rw [List.length_append, hargv]; rfl)
            (Nat.le_pred_of_lt (Nat.lt_of_not_le hmax))) ?_
          rintro c' m ⟨hm, us', ws, rs', hus', hws, hmap', hcount, hwords'⟩
          refine ⟨hm, .word w :: (us ++ us'), w :: ws, rs ++ rs', ?_, .cons hrs hws, ?_, ?_, ?_⟩
          · rw [List.cons_append, List.append_assoc, ← hus', ← hus, hkt]
          · rw [hmap', List.append_assoc, List.append_assoc]
            rfl
          · rw [List.length_cons]
            omega
          · intro y hy
            rcases hwords' y hy with hy | hy
            · rcases hwords y hy with hy | hy
              · rcases mem_words_addArg hy with rfl | hy
                · exact .inr hat
                · exact .inl hy
              · exact .inr hy
            · exact .inr hy
      · simp only [ne_eq, ha, not_false_eq_true, if_true]
        exact ⟨_, rfl⟩

theorem parsebacks_sound {cmd : Cmd Span} (hi : i ≤ s.length)
    (hfuel : (toks s i).length + 1 ≤ fuel) :
    Prog.wp (parsebacks s fuel cmd) Panics (fun c j => j ≤ s.length ∧ ∃ n,
      toks s i = List.replicate n (.sym '&') ++ toks s j ∧ c = backs n cmd) i := by
  induction fuel generalizing i cmd with
  | zero => omega
  | succ fuel ih =>
    rw [parsebacks]
    refine wp_peek hi (by decide) (fun t ts j ht hstart hj htoks => ?_) fun j _ hj htoks => ?_
    · have hamp := (starts_sym (by decide)).1 hstart
      refine wp_gettoken hj htoks fun x k hk hkt _ => ?_
      have hlen : (toks s k).length + 1 ≤ fuel := by
        rw [ht, List.length_cons] at hfuel
        rw [hkt]
        omega
      refine Prog.wp_post (ih hk hlen) ?_
      rintro c l ⟨hl, n, hn, rfl⟩
      refine ⟨hl, n + 1, ?_, rfl⟩
      rw [ht, hamp, ← hkt, hn]
      rfl
    · exact ⟨hj, 0, htoks.symm, rfl⟩

/-- What a call of the parser has done when it returns. -/
def Parsed (s : Line) (sym : Sym) (i : Nat) (c : Cmd Span) (j : Nat) : Prop :=
  j ≤ s.length ∧ ∃ us, toks s i = us ++ toks s j ∧ Derives sym us (c.map (text s)) ∧
    ∀ x ∈ c.words, WordAt s x

/-- With enough fuel the functions of the parser panic or return what derives.  Between two tokens
there are at most four calls, so that four units of fuel for each token are enough. -/
structure Sound (s : Line) (fuel : Nat) : Prop where
  line : ∀ i, i ≤ s.length → 4 * (toks s i).length + 4 ≤ fuel →
    Prog.wp (parseline s fuel) Panics (Parsed s .line i) i
  pipe : ∀ i, i ≤ s.length → 4 * (toks s i).length + 3 ≤ fuel →
    Prog.wp (parsepipe s fuel) Panics (Parsed s .pipe i) i
  exec : ∀ i, i ≤ s.length → 4 * (toks s i).length + 2 ≤ fuel →
    Prog.wp (parseexec s fuel) Panics (Parsed s .exec i) i
  block : ∀ i, i ≤ s.length → 4 * (toks s i).length + 1 ≤ fuel →
    Prog.wp (parseblock s fuel) Panics (Parsed s .exec i) i

namespace Sound

theorem line_succ (h : Sound s fuel) (hi : i ≤ s.length)
    (hfuel : 4 * (toks s i).length + 4 ≤ fuel + 1) :
    Prog.wp (parseline s (fuel + 1)) Panics (Parsed s .line i) i := by
  rw [parseline]
  refine Prog.wp_seq (h.pipe i hi (by omega)) ?_
  rintro c j ⟨hj, us, hus, hc, hwords⟩
  have hlen := congrArg List.length hus
  rw [List.length_append] at hlen
  refine Prog.wp_seq (parsebacks_sound hj (by omega)) ?_
  rintro _ k ⟨hk, n, hn, rfl⟩
  have hlen' := congrArg List.length hn
  rw [List.length_append, List.length_replicate] at hlen'
  refine wp_peek hk (by decide) (fun t ts l ht hstart hl htoks => ?_) fun l _ hl htoks => ?_
  · rw [(starts_sym (by decide)).1 hstart] at ht htoks
    refine wp_gettoken hl htoks fun x m hm hmt _ => ?_
    have hlen'' := congrArg List.length ht
    rw [List.length_cons] at hlen''
    refine Prog.wp_seq (h.line m hm (by rw [hmt]; omega)) ?_
    rintro d o ⟨ho, vs, hvs, hd, hwords'⟩
    refine ⟨ho, us ++ (List.replicate n (.sym '&') ++ .sym ';' :: vs), ?_, ?_, fun x hx => ?_⟩
    · rw [hus, hn, ht, ← hmt, hvs]
      simp only [List.append_assoc, List.cons_append]
    · rw [Cmd.map, map_back]
      exact .list hc hd
    · rw [Cmd.words, words_back] at hx
      exact (List.mem_append.1 hx).elim (hwords x) (hwords' x)
  · refine ⟨hl, us ++ List.replicate n (.sym '&'), ?_, ?_, fun x hx => ?_⟩
    · rw [hus, hn, htoks, List.append_assoc]
    · rw [map_back]
      exact .line hc
    · rw [words_back] at hx
      exact hwords x hx

theorem pipe_succ (h : Sound s fuel) (hi : i ≤ s.length)
    (hfuel : 4 * (toks s i).length + 3 ≤ fuel + 1) :
    Prog.wp (parsepipe s (fuel + 1)) Panics (Parsed s .pipe i) i := by
  rw [parsepipe]
  refine Prog.wp_seq (h.exec i hi (by omega)) ?_
  rintro c j ⟨hj, us, hus, hc, hwords⟩
  have hlen := congrArg List.length hus
  rw [List.length_append] at hlen
  refine wp_peek hj (by decide) (fun t ts l ht hstart hl htoks => ?_) fun l _ hl htoks => ?_
  · rw [(starts_sym (by decide)).1 hstart] at ht htoks
    refine wp_gettoken hl htoks fun x m hm hmt _ => ?_
    have hlen' := congrArg List.length ht
    rw [List.length_cons] at hlen'
    refine Prog.wp_seq (h.pipe m hm (by rw [hmt]; omega)) ?_
    rintro d o ⟨ho, vs, hvs, hd, hwords'⟩
    refine ⟨ho, us ++ .sym '|' :: vs, ?_, .pipe hc hd, fun x hx => ?_⟩
    · rw [hus, ht, ← hmt, hvs, List.append_assoc]
      rfl
    · exact (List.mem_append.1 hx).elim (hwords x) (hwords' x)
  · exact ⟨hl, us, by rw [hus, htoks], .single hc, hwords⟩

theorem block_succ (h : Sound s fuel) (hi : i ≤ s.length)
    (hfuel : 4 * (toks s i).length + 1 ≤ fuel + 1) :
    Prog.wp (parseblock s (fuel + 1)) Panics (Parsed s .exec i) i := by
  rw [parseblock]
  refine wp_peek hi (by decide) (fun t ts j ht hstart hj htoks => ?_) fun j _ hj htoks => ⟨_, rfl⟩
  rw [(starts_sym (by decide)).1 hstart] at ht htoks
  have hlen := congrArg List.length ht
  rw [List.length_cons] at hlen
  refine wp_gettoken hj htoks fun x k hk hkt _ => ?_
  refine Prog.wp_seq (h.line k hk (by rw [hkt]; omega)) ?_
  rintro c l ⟨hl, us, hus, hc, hwords⟩
  have hlen' := congrArg List.length hus
  rw [List.length_append, hkt] at hlen'
  refine wp_peek hl (by decide) (fun t' ts' m ht' hstart' hm hmt => ?_) fun _ _ _ _ => ⟨_, rfl⟩
  rw [(starts_sym (by decide)).1 hstart'] at ht' hmt
  have hlen'' := congrArg List.length ht'
  rw [List.length_cons] at hlen''
  refine wp_gettoken hm hmt fun y n hn hnt _ => ?_
  refine Prog.wp_post (parseredirs_sound hn (by rw [hnt]; omega)) ?_
  rintro d o ⟨ho, vs, rs, hvs, hrs, hmap, hwords'⟩
  refine ⟨ho, .sym '(' :: (us ++ .sym ')' :: vs), ?_, ?_, fun z hz => ?_⟩
  · rw [ht, ← hkt, hus, ht', ← hnt, hvs]
    simp only [List.cons_append, List.append_assoc]
  · rw [hmap]
    exact .block hc hrs
  · exact (hwords' z hz).elim (hwords z) id

theorem exec_succ (h : Sound s fuel) (hi : i ≤ s.length)
    (hfuel : 4 * (toks s i).length + 2 ≤ fuel + 1) :
    Prog.wp (parseexec s (fuel + 1)) Panics (Parsed s .exec i) i := by
  rw [parseexec]
  refine wp_peek hi (by decide) (fun t ts j ht _ hj htoks => ?_) fun j _ hj htoks => ?_
  · refine Prog.wp_post (h.block j hj (by rw [htoks, ← ht]; omega)) ?_
    rintro c k ⟨hk, us, hus, hc⟩
    exact ⟨hk, us, by rw [ht, ← htoks, hus], hc⟩
  · refine Prog.wp_seq (parseredirs_sound hj (by rw [htoks]; omega)) ?_
    rintro c k ⟨hk, us, rs, hus, hrs, hmap, hwords⟩
    have hlen := congrArg List.length hus
    rw [List.length_append, htoks] at hlen
    refine Prog.wp_post (parseargs_sound hk (by omega) hmap rfl (by decide)) ?_
    rintro d l ⟨hl, vs, ws, rs', hvs, hws, hmap', hcount, hwords'⟩
    refine ⟨hl, us ++ vs, ?_, ?_, fun x hx => ?_⟩
    · rw [← htoks, hus, hvs, List.append_assoc]
    · rw [Nat.zero_add] at hcount
      rw [hmap']
      exact .words hrs hws hcount
    · rcases hwords' x hx with hx | hx
      · exact (hwords x hx).elim (fun hnil => absurd hnil List.not_mem_nil) id
      · exact hx

end Sound

theorem sound (s : Line) (fuel : Nat) : Sound s fuel := by
  induction fuel with
  | zero => exact ⟨by omega, by omega, by omega, by omega⟩
  | succ fuel ih =>
    exact ⟨fun i => ih.line_succ, fun i => ih.pipe_succ, fun i => ih.exec_succ,
      fun i => ih.block_succ⟩

end Xv6.Sh
