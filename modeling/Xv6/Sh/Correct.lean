import Xv6.Sh.Grammar

/-!
# Correct — the shell accepts its grammar

What derives is accepted, by induction on the derivation: each phrase is parsed when it is followed
by a token that cannot continue it.  With the other direction and the terminators that
`nulterminate` writes into the line this gives the correctness of `parsecmd`.
-/

namespace Xv6.Sh

open Lib

variable {s : Line} {i j fuel : Nat} {t : Tok} {ts us vs rest : List Tok}
variable {rs rs' : List (Redir (List Char))} {ws argv : List (List Char)}

/-! ## What derives is accepted -/

/-- The rest of the line is empty or begins with one of the characters. -/
def Begins (cs : List Char) (rest : List Tok) : Prop :=
  ∀ t ts, rest = t :: ts → t.starts cs = true

/-- The rest of the line does not begin with any of the characters. -/
def Avoids (cs : List Char) (rest : List Tok) : Prop :=
  ∀ t ts, rest = t :: ts → t.starts cs = false

variable {as bs buf : List Char} {c d : Cmd (List Char)} {n k : Nat} {xs : List Span} {x : Span}

theorem starts_false (hdisj : (as.all fun c => !bs.contains c) = true)
    (h : t.starts as = true) : t.starts bs = false := by
  simp only [List.all_eq_true, List.contains_eq_mem, Bool.not_eq_true', decide_eq_false_iff_not]
    at hdisj
  cases t with
  | sym c =>
    simp only [Tok.starts, strchr, List.contains_eq_mem, decide_eq_true_iff,
      decide_eq_false_iff_not] at h ⊢
    exact hdisj c h
  | append =>
    simp only [Tok.starts, strchr, List.contains_eq_mem, decide_eq_true_iff,
      decide_eq_false_iff_not] at h ⊢
    exact hdisj '>' h
  | word w => cases h

theorem starts_mono (hsub : as ⊆ bs) (h : t.starts as = true) : t.starts bs = true := by
  cases t with
  | sym c =>
    simp only [Tok.starts, strchr, List.contains_eq_mem, decide_eq_true_iff] at h ⊢
    exact hsub h
  | append =>
    simp only [Tok.starts, strchr, List.contains_eq_mem, decide_eq_true_iff] at h ⊢
    exact hsub h
  | word w => cases h

theorem Begins.avoids (h : Begins as rest)
    (hdisj : (as.all fun c => !bs.contains c) = true) : Avoids bs rest :=
  fun t ts heq => starts_false hdisj (h t ts heq)

theorem Begins.mono (h : Begins as rest) (hsub : as ⊆ bs) : Begins bs rest :=
  fun t ts heq => starts_mono hsub (h t ts heq)

theorem begins_sym {cs : List Char} {c : Char} (hc : strchr cs c = true) (ts : List Tok) :
    Begins cs (.sym c :: ts) := by
  intro t ts' heq
  cases heq
  exact hc

/-- What can follow a phrase. -/
def Sym.follow : Sym → List Char
  | .exec => ['|', ')', '&', ';']
  | .pipe => [')', '&', ';']
  | .line => [')']

/-- No error at all. -/
def Never (_ : Err) : Prop := False

theorem parseredirs_complete {cmd : Cmd Span} (hr : Redirs us rs) (hrest : Avoids ['<', '>'] rest)
    (hi : i ≤ s.length) (ht : toks s i = us ++ rest) (hfuel : (toks s i).length + 1 ≤ fuel) :
    Prog.wp (parseredirs s fuel cmd) Never (fun c j => j ≤ s.length ∧ toks s j = rest ∧
      c.map (text s) = wrap rs (cmd.map (text s))) i := by
  induction hr generalizing i cmd fuel with
  | nil =>
    cases fuel with
    | zero => omega
    | succ fuel =>
      rw [parseredirs]
      refine wp_peek hi (by decide) (fun t ts j ht' hstart hj htoks => ?_) fun j _ hj htoks => ?_
      · rw [hrest t ts (ht.symm.trans ht')] at hstart
        cases hstart
      · exact ⟨hj, htoks.trans ht, rfl⟩
  | cons hop hr ih =>
    rename_i op mode fd w us rs
    cases fuel with
    | zero => omega
    | succ fuel =>
      rw [parseredirs]
      have hstart : op.starts ['<', '>'] = true := by cases hop <;> rfl
      rw [List.cons_append, List.cons_append] at ht
      refine wp_peek hi (by decide) (fun t ts j ht' _ hj htoks => ?_) fun j hno hj htoks => ?_
      · cases ht.symm.trans ht'
        refine wp_gettoken hj htoks fun x k hk hkt _ => ?_
        refine wp_gettoken hk hkt fun x l hl hlt hword => ?_
        rcases hword w rfl with ⟨hat, htext⟩
        simp only [Tok.code, ne_eq, not_true_eq_false, if_false]
        change Prog.wp (parseredirs s fuel (redircmd op.code cmd x)) _ _ l
        rw [redircmd_of_operator hop]
        have hlen : (toks s l).length + 1 ≤ fuel := by
          rw [ht, List.length_cons, List.length_cons] at hfuel
          rw [hlt]
          omega
        refine Prog.wp_post (ih hl hlt hlen) ?_
        rintro c m ⟨hm, hmt, hmap⟩
        refine ⟨hm, hmt, ?_⟩
        rw [hmap, ← htext]
        rfl
      · rw [hno op _ ht] at hstart
        cases hstart

theorem Words.avoids {cs : List Char} (hw : Words us ws rs) (hrest : Avoids cs rest) :
    Avoids cs (us ++ rest) := by
  cases hw with
  | nil => exact hrest
  | cons =>
    intro t ts heq
    cases heq
    rfl

theorem Redirs.avoids_paren (hr : Redirs us rs) (hrest : Avoids ['('] rest) :
    Avoids ['('] (us ++ rest) := by
  cases hr with
  | nil => exact hrest
  | cons hop =>
    intro t ts heq
    cases heq
    cases hop <;> rfl

theorem parseargs_complete {ret : Cmd Span} {argc : Nat} {rs₀ : List (Redir (List Char))}
    (hw : Words us ws rs) (hrest : Begins Sym.exec.follow rest) (hi : i ≤ s.length)
    (ht : toks s i = us ++ rest) (hfuel : (toks s i).length + 1 ≤ fuel)
    (hret : ret.map (text s) = wrap rs₀ (.exec argv)) (hargc : argc + ws.length ≤ MAXARGS - 1) :
    Prog.wp (parseargs s fuel ret argc) Never (fun c j => j ≤ s.length ∧ toks s j = rest ∧
      c.map (text s) = wrap (rs₀ ++ rs) (.exec (argv ++ ws))) i := by
  induction hw generalizing i ret argc rs₀ argv fuel with
  | nil =>
    cases fuel with
    | zero => omega
    | succ fuel =>
      have hroom : argc < MAXARGS := Nat.lt_of_le_of_lt hargc (by decide)
      have hmap : ret.map (text s) = wrap (rs₀ ++ []) (.exec (argv ++ [])) := by
        rw [List.append_nil, List.append_nil, hret]
      rw [parseargs]
      refine wp_peek hi (by decide) (fun t ts j ht' _ hj htoks => ?_) fun j hno hj htoks => ?_
      · rw [if_pos hroom]
        exact ⟨hj, htoks.trans (ht'.symm.trans ht), hmap⟩
      · -- What follows begins with a symbol that ends the arguments, or there is nothing.
        have hnil : toks s i = [] := by
          cases hcase : toks s i with
          | nil => rfl
          | cons t ts =>
            have hyes := hrest t ts (ht.symm.trans hcase)
            rw [Sym.follow, hno t ts hcase] at hyes
            cases hyes
        refine wp_gettoken_end hj (htoks.trans hnil) fun x k hk hkt => ?_
        simp only [if_true, if_pos hroom]
        exact ⟨hk, hkt.trans (hnil.symm.trans ht), hmap⟩
  | cons hr hw ih =>
    rename_i w us vs rs rs' ws
    cases fuel with
    | zero => omega
    | succ fuel =>
      rw [List.length_cons] at hargc
      have hmax : argc + 1 < MAXARGS := by
        simp only [MAXARGS] at hargc ⊢
        omega
      rw [List.cons_append, List.append_assoc] at ht
      rw [parseargs]
      refine wp_peek hi (by decide) (fun t ts j ht' hstart hj htoks => ?_) fun j _ hj htoks => ?_
      · cases ht.symm.trans ht'
        cases hstart
      · refine wp_gettoken hj (htoks.trans ht) fun x k hk hkt hword => ?_
        rcases hword w rfl with ⟨hat, htext⟩
        simp only [Tok.code, ne_eq, not_true_eq_false, if_false,
          if_neg (Nat.not_le_of_lt hmax), if_neg (Nat.not_le_of_lt (Nat.lt_of_succ_lt hmax))]
        have hlen : (toks s k).length + 1 ≤ fuel := by
          rw [ht, List.length_cons] at hfuel
          rw [hkt]
          omega
        refine Prog.wp_seq (parseredirs_complete hr (hw.avoids (hrest.avoids (by decide)))
          hk hkt hlen) ?_
        rintro c l ⟨hl, hlt, hmap⟩
        have hret' : c.map (text s) = wrap (rs₀ ++ rs) (.exec (argv ++ [w])) := by
          rw [hmap, map_addArg, hret, addArg_wrap, htext, wrap_append]
        have hlen' : (toks s l).length + 1 ≤ fuel := by
          rw [hkt, List.length_append] at hlen
          rw [hlt]
          omega
        refine Prog.wp_post (ih hl hlt hlen' hret' (by omega)) ?_
        rintro c' m ⟨hm, hmt, hmap'⟩
        refine ⟨hm, hmt, ?_⟩
        rw [hmap', List.append_assoc, List.append_assoc]
        rfl

theorem parsebacks_complete {cmd : Cmd Span} (hrest : Avoids ['&'] rest)
    (hi : i ≤ s.length) (ht : toks s i = List.replicate n (.sym '&') ++ rest)
    (hfuel : (toks s i).length + 1 ≤ fuel) :
    Prog.wp (parsebacks s fuel cmd) Never (fun c j => j ≤ s.length ∧ toks s j = rest ∧
      c = backs n cmd) i := by
  induction n generalizing i cmd fuel with
  | zero =>
    cases fuel with
    | zero => omega
    | succ fuel =>
      rw [parsebacks]
      refine wp_peek hi (by decide) (fun t ts j ht' hstart hj htoks => ?_) fun j _ hj htoks => ?_
      · rw [hrest t ts (ht.symm.trans ht')] at hstart
        cases hstart
      · exact ⟨hj, htoks.trans ht, rfl⟩
  | succ n ih =>
    cases fuel with
    | zero => omega
    | succ fuel =>
      rw [List.replicate_succ, List.cons_append] at ht
      rw [parsebacks]
      refine wp_peek hi (by decide) (fun t ts j ht' _ hj htoks => ?_) fun j hno hj htoks => ?_
      · cases ht.symm.trans ht'
        refine wp_gettoken hj htoks fun x k hk hkt _ => ?_
        have hlen : (toks s k).length + 1 ≤ fuel := by
          rw [ht, List.length_cons] at hfuel
          rw [hkt]
          omega
        exact ih hk hkt hlen
      · exact absurd (hno _ _ ht) (by decide)

/-- The function for a phrase. -/
def Sym.parse (s : Line) : Sym → Nat → Prog Nat Err (Cmd Span)
  | .line => parseline s
  | .pipe => parsepipe s
  | .exec => parseexec s

/-- The fuel that is enough for `n` tokens. -/
def Sym.need (n : Nat) : Sym → Nat
  | .line => 4 * n + 4
  | .pipe => 4 * n + 3
  | .exec => 4 * n + 2

/-- A phrase is parsed when it is followed by a token that cannot continue it. -/
def Accepts (s : Line) (sym : Sym) (us : List Tok) (d : Cmd (List Char)) : Prop :=
  ∀ ⦃rest i fuel⦄, Begins sym.follow rest → i ≤ s.length → toks s i = us ++ rest →
    sym.need (toks s i).length ≤ fuel →
      Prog.wp (sym.parse s fuel) Never (fun c j => j ≤ s.length ∧ toks s j = rest ∧
        c.map (text s) = d) i

theorem accepts_line (ih : Accepts s .pipe us c) :
    Accepts s .line (us ++ List.replicate n (.sym '&')) (backs n c) := by
  intro rest i fuel hrest hi ht hfuel
  rcases fuel with _ | fuel <;> simp only [Sym.need] at hfuel
  · omega
  rw [List.append_assoc] at ht
  have hlen := congrArg List.length ht
  rw [List.length_append] at hlen
  simp only [Sym.parse, parseline]
  have hfollow : Begins Sym.pipe.follow (List.replicate n (.sym '&') ++ rest) := by
    cases n with
    | zero => exact hrest.mono (by decide)
    | succ n => exact begins_sym (by decide) _
  refine Prog.wp_seq (ih hfollow hi ht (by simp only [Sym.need]; omega)) ?_
  rintro c j ⟨hj, hjt, hmap⟩
  refine Prog.wp_seq (parsebacks_complete (hrest.avoids (by decide)) hj hjt (by rw [hjt]; omega)) ?_
  rintro _ k ⟨hk, hkt, rfl⟩
  refine wp_peek hk (by decide) (fun t ts l ht' hstart hl htoks => ?_) fun l _ hl htoks => ?_
  · rw [hrest.avoids (by decide) t ts (hkt.symm.trans ht')] at hstart
    cases hstart
  · exact ⟨hl, htoks.trans hkt, by rw [map_back, hmap]⟩

theorem accepts_list (ih : Accepts s .pipe us c) (ih' : Accepts s .line vs d) :
    Accepts s .line (us ++ (List.replicate n (.sym '&') ++ .sym ';' :: vs))
      (.list (backs n c) d) := by
  intro rest i fuel hrest hi ht hfuel
  rcases fuel with _ | fuel <;> simp only [Sym.need] at hfuel
  · omega
  rw [List.append_assoc, List.append_assoc, List.cons_append] at ht
  have hlen := congrArg List.length ht
  rw [List.length_append, List.length_append, List.length_cons] at hlen
  simp only [Sym.parse, parseline]
  have hfollow : Begins Sym.pipe.follow
      (List.replicate n (.sym '&') ++ .sym ';' :: (vs ++ rest)) := by
    cases n with
    | zero => exact begins_sym (by decide) _
    | succ n => exact begins_sym (by decide) _
  refine Prog.wp_seq (ih hfollow hi ht (by simp only [Sym.need]; omega)) ?_
  rintro c j ⟨hj, hjt, hmap⟩
  have hsemi : Begins [';'] (.sym ';' :: (vs ++ rest)) := begins_sym (by decide) _
  have hjlen := congrArg List.length hjt
  rw [List.length_append, List.length_cons] at hjlen
  refine Prog.wp_seq (parsebacks_complete (hsemi.avoids (by decide)) hj hjt (by omega)) ?_
  rintro _ k ⟨hk, hkt, rfl⟩
  refine wp_peek hk (by decide) (fun t ts l ht' _ hl htoks => ?_) fun l hno hl htoks => ?_
  · cases hkt.symm.trans ht'
    refine wp_gettoken hl htoks fun x m hm hmt _ => ?_
    refine Prog.wp_seq (ih' hrest hm hmt (by simp only [Sym.need]; rw [hmt]; omega)) ?_
    rintro e o ⟨ho, hot, hmap'⟩
    exact ⟨ho, hot, by rw [Cmd.map, map_back, hmap, hmap']⟩
  · exact absurd (hno _ _ hkt) (by decide)

theorem accepts_single (ih : Accepts s .exec us c) : Accepts s .pipe us c := by
  intro rest i fuel hrest hi ht hfuel
  rcases fuel with _ | fuel <;> simp only [Sym.need] at hfuel
  · omega
  simp only [Sym.parse, parsepipe]
  refine Prog.wp_seq (ih (hrest.mono (by decide)) hi ht (by simp only [Sym.need]; omega)) ?_
  rintro c j ⟨hj, hjt, hmap⟩
  refine wp_peek hj (by decide) (fun t ts l ht' hstart hl htoks => ?_) fun l _ hl htoks => ?_
  · rw [hrest.avoids (by decide) t ts (hjt.symm.trans ht')] at hstart
    cases hstart
  · exact ⟨hl, htoks.trans hjt, hmap⟩

theorem accepts_pipe (ih : Accepts s .exec us c)
    (ih' : Accepts s .pipe vs d) : Accepts s .pipe (us ++ .sym '|' :: vs) (.pipe c d) := by
  intro rest i fuel hrest hi ht hfuel
  rcases fuel with _ | fuel <;> simp only [Sym.need] at hfuel
  · omega
  rw [List.append_assoc, List.cons_append] at ht
  have hlen := congrArg List.length ht
  rw [List.length_append, List.length_cons] at hlen
  simp only [Sym.parse, parsepipe]
  refine Prog.wp_seq (ih (begins_sym (by decide) _) hi ht (by simp only [Sym.need]; omega)) ?_
  rintro c j ⟨hj, hjt, hmap⟩
  refine wp_peek hj (by decide) (fun t ts l ht' _ hl htoks => ?_) fun l hno hl htoks => ?_
  · cases hjt.symm.trans ht'
    refine wp_gettoken hl htoks fun x m hm hmt _ => ?_
    refine Prog.wp_seq (ih' hrest hm hmt (by simp only [Sym.need]; rw [hmt]; omega)) ?_
    rintro e o ⟨ho, hot, hmap'⟩
    exact ⟨ho, hot, by rw [Cmd.map, hmap, hmap']⟩
  · exact absurd (hno _ _ hjt) (by decide)

theorem accepts_block (ih : Accepts s .line us c) (h' : Redirs vs rs) :
    Accepts s .exec (.sym '(' :: (us ++ .sym ')' :: vs)) (wrap rs c) := by
  intro rest i fuel hrest hi ht hfuel
  rcases fuel with _ | _ | fuel <;> simp only [Sym.need] at hfuel
  · omega
  · omega
  rw [List.cons_append, List.append_assoc, List.cons_append] at ht
  have hlen := congrArg List.length ht
  rw [List.length_cons, List.length_append, List.length_cons] at hlen
  simp only [Sym.parse, parseexec]
  refine wp_peek hi (by decide) (fun t ts j ht' _ hj htoks => ?_) fun j hno hj htoks => ?_
  · cases ht.symm.trans ht'
    rw [parseblock]
    refine wp_peek hj (by decide) (fun t ts k ht'' _ hk hkt => ?_) fun k hno hk hkt => ?_
    · cases htoks.symm.trans ht''
      refine wp_gettoken hk hkt fun x l hl hlt _ => ?_
      refine Prog.wp_seq (ih (begins_sym (by decide) _) hl hlt
        (by simp only [Sym.need]; rw [hlt, List.length_append, List.length_cons]; omega)) ?_
      rintro e m ⟨hm, hmt, hmap⟩
      refine wp_peek hm (by decide) (fun t ts n ht₁ _ hn hnt => ?_) fun n hno hn hnt => ?_
      · cases hmt.symm.trans ht₁
        refine wp_gettoken hn hnt fun y o ho hot _ => ?_
        refine Prog.wp_post (parseredirs_complete h' (hrest.avoids (by decide)) ho hot
          (by rw [hot]; omega)) ?_
        rintro e' p ⟨hp, hpt, hmap'⟩
        exact ⟨hp, hpt, by rw [hmap', hmap]⟩
      · exact absurd (hno _ _ hmt) (by decide)
    · exact absurd (hno _ _ htoks) (by decide)
  · exact absurd (hno _ _ ht) (by decide)

theorem accepts_words (h : Redirs us rs) (h' : Words vs ws rs') (hcount : ws.length ≤ MAXARGS - 1) :
    Accepts s .exec (us ++ vs) (wrap (rs ++ rs') (.exec ws)) := by
  intro rest i fuel hrest hi ht hfuel
  rcases fuel with _ | fuel <;> simp only [Sym.need] at hfuel
  · omega
  rw [List.append_assoc] at ht
  have hlen := congrArg List.length ht
  rw [List.length_append] at hlen
  simp only [Sym.parse, parseexec]
  refine wp_peek hi (by decide) (fun t ts j ht' hstart hj htoks => ?_) fun j _ hj htoks => ?_
  · -- The first token of a redirection or of a word is no parenthesis.
    rw [h.avoids_paren (h'.avoids (hrest.avoids (by decide))) t ts (ht.symm.trans ht')] at hstart
    cases hstart
  · refine Prog.wp_seq (parseredirs_complete h (h'.avoids (hrest.avoids (by decide))) hj
      (htoks.trans ht)
      (by rw [htoks]; omega)) ?_
    rintro c k ⟨hk, hkt, hmap⟩
    refine Prog.wp_post (parseargs_complete h' hrest hk hkt (by rw [hkt]; omega) hmap (by omega)) ?_
    rintro c' l ⟨hl, hlt, hmap'⟩
    exact ⟨hl, hlt, hmap'⟩

theorem parse_complete {sym : Sym} (h : Derives sym us d) : Accepts s sym us d := by
  induction h with
  | line _ ih => exact accepts_line ih
  | list _ _ ih ih' => exact accepts_list ih ih'
  | single _ ih => exact accepts_single ih
  | pipe _ _ ih ih' => exact accepts_pipe ih ih'
  | block _ h' ih => exact accepts_block ih h'
  | words h h' hcount => exact accepts_words h h' hcount

/-! ## The terminators -/

/-- The buffer after the ends of words have been overwritten. -/
def terminate (xs : List Span) (buf : List Char) : List Char :=
  xs.foldl (fun b x => b.set x.2 '\x00') buf

theorem terminate_length (xs : List Span) (buf : List Char) :
    (terminate xs buf).length = buf.length := by
  induction xs generalizing buf with
  | nil => rfl
  | cons x xs ih => exact (ih _).trans List.length_set

theorem terminate_append (xs ys : List Span) (buf : List Char) :
    terminate (xs ++ ys) buf = terminate ys (terminate xs buf) :=
  List.foldl_append

theorem nulargs_eq (h : ∀ x ∈ xs, x.2 < buf.length) :
    nulargs xs buf = .ok () (terminate xs buf) := by
  induction xs generalizing buf with
  | nil => rfl
  | cons x xs ih =>
    have hx : nul x buf = .ok () (buf.set x.2 '\x00') := if_pos (h x List.mem_cons_self)
    rw [nulargs, Prog.bind_ok hx]
    exact ih fun y hy => by
      rw [List.length_set]
      exact h y (List.mem_cons_of_mem _ hy)

theorem nulterminate_eq {c : Cmd Span} (h : ∀ x ∈ c.words, x.2 < buf.length) :
    nulterminate c buf = .ok () (terminate c.words buf) := by
  induction c generalizing buf with
  | exec argv => exact nulargs_eq h
  | redir cmd file mode fd ih =>
    have hcmd := ih fun x hx => h x (List.mem_append_left _ hx)
    have hfile : file.2 < (terminate cmd.words buf).length := by
      rw [terminate_length]
      exact h file (List.mem_append_right _ List.mem_cons_self)
    rw [nulterminate, Prog.bind_ok hcmd, Cmd.words, terminate_append]
    exact if_pos hfile
  | pipe left right ihl ihr | list left right ihl ihr =>
    have hleft := ihl fun x hx => h x (List.mem_append_left _ hx)
    rw [nulterminate, Prog.bind_ok hleft, Cmd.words, terminate_append]
    refine ihr fun x hx => ?_
    rw [terminate_length]
    exact h x (List.mem_append_right _ hx)
  | back cmd ih => exact ih h

theorem terminate_of_notMem (h : ∀ x ∈ xs, x.2 ≠ k) (buf : List Char) :
    (terminate xs buf)[k]? = buf[k]? := by
  induction xs generalizing buf with
  | nil => rfl
  | cons x xs ih =>
    have hrest := ih (fun y hy => h y (List.mem_cons_of_mem _ hy)) (buf.set x.2 '\x00')
    rw [List.getElem?_set_ne (h x List.mem_cons_self)] at hrest
    exact hrest

theorem terminate_of_mem (h : ∃ x ∈ xs, x.2 = k)
    (hk : k < buf.length) : (terminate xs buf)[k]? = some '\x00' := by
  induction xs generalizing buf with
  | nil =>
    rcases h with ⟨x, hx, -⟩
    cases hx
  | cons y xs ih =>
    change (terminate xs (buf.set y.2 '\x00'))[k]? = _
    by_cases hlater : ∃ x ∈ xs, x.2 = k
    · exact ih hlater (by rwa [List.length_set])
    · have hy : y.2 = k := by
        rcases h with ⟨x, hx, hxk⟩
        rcases List.mem_cons.1 hx with rfl | hx
        · exact hxk
        · exact absurd ⟨x, hx, hxk⟩ hlater
      rw [terminate_of_notMem (fun x hx heq => hlater ⟨x, hx, heq⟩), hy, List.getElem?_set_self hk]

/-- The string at an address. -/
def cstr (buf : List Char) (q : Nat) : List Char :=
  (buf.drop q).takeWhile (· ≠ '\x00')

theorem takeWhile_eq {p : Char → Bool} {w l : List Char} {z : Char}
    (hw : ∀ k < w.length, l[k]? = w[k]?) (hz : l[w.length]? = some z) (hp : ∀ c ∈ w, p c = true)
    (hpz : p z = false) : l.takeWhile p = w := by
  induction w generalizing l with
  | nil =>
    cases l with
    | nil => rfl
    | cons c l =>
      rw [List.length_nil, List.getElem?_cons_zero, Option.some.injEq] at hz
      rw [List.takeWhile_cons_of_neg (by rw [hz, hpz]; decide)]
  | cons c w ih =>
    cases l with
    | nil =>
      have h0 := hw 0 (Nat.succ_pos _)
      cases h0
    | cons c' l =>
      have h0 := hw 0 (Nat.succ_pos _)
      rw [List.getElem?_cons_zero, List.getElem?_cons_zero, Option.some.injEq] at h0
      rw [h0, List.takeWhile_cons_of_pos (hp c List.mem_cons_self)]
      rw [List.length_cons, List.getElem?_cons_succ] at hz
      rw [ih (fun k hk => ?_) hz fun d hd => hp d (List.mem_cons_of_mem _ hd)]
      have hk' := hw (k + 1) (Nat.succ_lt_succ hk)
      rwa [List.getElem?_cons_succ, List.getElem?_cons_succ] at hk'

theorem getElem?_text (hk : k < x.2 - x.1) : (text s x)[k]? = s.chars[x.1 + k]? := by
  rw [text, List.getElem?_take_of_lt hk, List.getElem?_drop]

/-- No word ends inside of another one or where another one begins. -/
theorem WordAt.end_notMem {y : Span} (hx : WordAt s x) (hy : WordAt s y) :
    ¬ (x.1 ≤ y.2 ∧ y.2 < x.2) := by
  rintro ⟨hle, hlt⟩
  have hlt' : y.2 < s.chars.length := Nat.lt_of_lt_of_le hlt hx.le
  have hget : s.chars[y.2]? = some s.chars[y.2] := List.getElem?_eq_getElem hlt'
  have hmem : (text s x)[y.2 - x.1]? = some s.chars[y.2] := by
    rw [getElem?_text (by omega), Nat.add_sub_cancel' hle, hget]
  exact absurd (hx.word _ (List.mem_of_getElem? hmem)) (by rw [hy.stop _ hget]; decide)

theorem terminate_end (hx : x ∈ xs) (hat : WordAt s x) :
    (terminate xs (s.chars ++ ['\x00']))[x.2]? = some '\x00' := by
  refine terminate_of_mem ⟨x, hx, rfl⟩ ?_
  rw [List.length_append, List.length_singleton]
  exact Nat.lt_succ_of_le hat.le

theorem cstr_terminate (hat : ∀ y ∈ xs, WordAt s y) (hx : x ∈ xs) :
    cstr (terminate xs (s.chars ++ ['\x00'])) x.1 = text s x := by
  have hxat := hat x hx
  have hlt := hxat.lt
  have hle : x.2 ≤ s.chars.length := hxat.le
  have hlen : (text s x).length = x.2 - x.1 := by
    rw [text, List.length_take, List.length_drop]
    omega
  refine takeWhile_eq (z := '\x00') (fun k hk => ?_) ?_ (fun c hc => ?_) (by decide)
  · rw [hlen] at hk
    rw [List.getElem?_drop, terminate_of_notMem ?_, List.getElem?_append_left (by omega),
      getElem?_text hk]
    intro y hy heq
    exact hxat.end_notMem (hat y hy) (by omega)
  · rw [hlen, List.getElem?_drop, Nat.add_sub_cancel' (Nat.le_of_lt hlt)]
    exact terminate_end hx hxat
  · have hmem : c ∈ s.chars := List.mem_of_mem_drop (List.mem_of_mem_take hc)
    rw [decide_eq_true_iff]
    rintro rfl
    exact s.nul hmem

theorem map_congr {V W : Type} {f g : V → W} {c : Cmd V} (h : ∀ x ∈ c.words, f x = g x) :
    c.map f = c.map g := by
  induction c with
  | exec argv => exact congrArg Cmd.exec (List.map_congr_left h)
  | redir cmd file mode fd ih =>
    rw [Cmd.map, Cmd.map, ih fun x hx => h x (List.mem_append_left _ hx),
      h file (List.mem_append_right _ List.mem_cons_self)]
  | pipe left right ihl ihr | list left right ihl ihr =>
    rw [Cmd.map, Cmd.map, ihl fun x hx => h x (List.mem_append_left _ hx),
      ihr fun x hx => h x (List.mem_append_right _ hx)]
  | back cmd ih => rw [Cmd.map, Cmd.map, ih h]

/-! ## `parsecmd` -/

theorem length_tokens_le (cs : List Char) : (tokens cs).length ≤ cs.length := by
  fun_induction tokens cs with
  | case1 => exact le_rfl
  | case2 c cs hspace ih => exact Nat.le_succ_of_le ih
  | case3 c cs hspace hword ih =>
    have hle := List.length_dropWhile_le isWord cs
    simp only [List.length_cons]
    omega
  | case4 c cs hspace hword hgt ih =>
    simp only [List.length_cons, List.length_tail] at ih ⊢
    omega
  | case5 c cs hspace hword hgt ih =>
    simp only [List.length_cons]
    omega

theorem parsetop_wp {Q : Cmd Span → Nat → Prop} {E : Err → Prop}
    (h : Prog.wp (parseline s fuel) E (fun c j => j ≤ s.length ∧
      (toks s j = [] → Q c s.length) ∧ (toks s j ≠ [] → E (.panic "syntax"))) 0) :
    Prog.wp (parsetop s fuel) E Q 0 := by
  refine Prog.wp_seq h ?_
  rintro c j ⟨hj, hdone, hleft⟩
  rcases peek_spec hj (List.nil_subset symbols) with ⟨k, hpeek, hk, -, hend⟩
  refine Prog.wp_bind.2 ((Prog.wp_of_eq hpeek).2 (Prog.wp_bind.2 (Prog.wp_gets id |>.2 ?_)))
  change Prog.wp (if k ≠ s.length then _ else _) E Q k
  by_cases hlen : k = s.length
  · rw [if_neg (not_not.2 hlen), hlen]
    exact hdone (hend.1 hlen)
  · rw [if_pos hlen]
    exact hleft fun hnil => hlen (hend.2 hnil)

/-- The whole line derives when `parsetop` returns. -/
theorem parsetop_sound (hfuel : 4 * s.length + 4 ≤ fuel) :
    Prog.wp (parsetop s fuel) Panics (fun c _ => Derives .line (tokens s.chars) (c.map (text s)) ∧
      ∀ x ∈ c.words, WordAt s x) 0 := by
  have hlen : (toks s 0).length ≤ s.length := length_tokens_le s.chars
  refine parsetop_wp (Prog.wp_post ((sound s fuel).line 0 (Nat.zero_le _) (by omega)) ?_)
  rintro c j ⟨hj, us, hus, hc, hwords⟩
  refine ⟨hj, fun hnil => ⟨?_, hwords⟩, fun _ => ⟨_, rfl⟩⟩
  rw [hnil, List.append_nil] at hus
  rw [← hus] at hc
  exact hc

theorem parsetop_complete (h : Derives .line (tokens s.chars) d) (hfuel : 4 * s.length + 4 ≤ fuel) :
    Prog.wp (parsetop s fuel) Never (fun c _ => c.map (text s) = d) 0 := by
  have hlen : (toks s 0).length ≤ s.length := length_tokens_le s.chars
  have hparse : Prog.wp (parseline s fuel) Never (fun c j => j ≤ s.length ∧ toks s j = [] ∧
      c.map (text s) = d) 0 :=
    parse_complete h nofun (Nat.zero_le _) (List.append_nil _).symm (by simp only [Sym.need]; omega)
  refine parsetop_wp (Prog.wp_post hparse ?_)
  rintro c j ⟨hj, hnil, hmap⟩
  exact ⟨hj, fun _ => hmap, fun hne => hne hnil⟩

/-- After `parsetop` nothing fails any more, and the ends of the words are overwritten. -/
theorem parsecmd_of_parsetop {c : Cmd Span} {j : Nat} (h : parsetop s fuel 0 = .ok c j)
    (hwords : ∀ x ∈ c.words, WordAt s x) :
    parsecmd s fuel = .ok c (terminate c.words (s.chars ++ ['\x00'])) := by
  have hbound : ∀ x ∈ c.words, x.2 < (s.chars ++ ['\x00']).length := by
    intro x hx
    rw [List.length_append, List.length_singleton]
    exact Nat.lt_succ_of_le (hwords x hx).le
  rw [parsecmd, h]
  exact Prog.bind_ok (nulterminate_eq hbound)

/-- `parsecmd` accepts the lines that derive from the grammar, with the command of the derivation,
and panics on all others. -/
theorem parsecmd_iff (s : Line) (fuel : Nat) (hfuel : 4 * s.length + 4 ≤ fuel) :
    (∀ d, Derives .line (tokens s.chars) d ↔
      ∃ cmd buf, parsecmd s fuel = .ok cmd buf ∧ cmd.map (fun x => cstr buf x.1) = d) ∧
    ((∀ d, ¬ Derives .line (tokens s.chars) d) → ∃ msg, parsecmd s fuel = .error (.panic msg)) := by
  have hsound := parsetop_sound hfuel
  cases htop : parsetop s fuel 0 with
  | ok c j =>
    rcases Prog.of_wp hsound htop with ⟨hderives, hwords⟩
    have hcmd := parsecmd_of_parsetop htop hwords
    have hmap := map_congr fun x hx => cstr_terminate hwords (x := x) hx
    refine ⟨fun d => ⟨fun hd => ⟨c, _, hcmd, ?_⟩, ?_⟩, fun hnone => absurd hderives (hnone _)⟩
    · have hcd : c.map (text s) = d :=
        (Prog.wp_of_eq htop).1 (parsetop_complete hd hfuel)
      rw [hmap, hcd]
    · rintro ⟨c', buf', hcmd', rfl⟩
      rw [hcmd] at hcmd'
      cases hcmd'
      rw [hmap]
      exact hderives
  | error e =>
    have herror : parsecmd s fuel = .error e := by rw [parsecmd, htop]
    rcases Prog.of_wp_error hsound htop with ⟨msg, rfl⟩
    refine ⟨fun d => ⟨fun hd => ?_, ?_⟩, fun _ => ⟨msg, herror⟩⟩
    · exact (Prog.of_wp_error (parsetop_complete hd hfuel) htop).elim
    · rintro ⟨c, buf, hcmd, -⟩
      rw [herror] at hcmd
      cases hcmd

/-- `(a;b)>f` -/
def redirected : Line where
  chars := ['(', 'a', ';', 'b', ')', '>', 'f']
  nul := by decide

theorem parsecmd_iff_redirected : ∃ cmd buf, parsecmd redirected 32 = .ok cmd buf ∧
    cmd.map (fun x => cstr buf x.1) =
      .redir (.list (.exec [['a']]) (.exec [['b']])) ['f']
        (O_WRONLY ||| O_CREATE ||| O_TRUNC) 1 := by
  have htokens : tokens redirected.chars = [.sym '(', .word ['a'], .sym ';', .word ['b'], .sym ')',
      .sym '>', .word ['f']] := by
    simp [redirected, tokens, isSpace, isWord, strchr, whitespace, symbols]
  have hword : ∀ w, Derives .pipe [.word w] (.exec [w]) := fun w =>
    .single (.words .nil (.cons .nil .nil) (by simp))
  have hline : Derives .line [.word ['a'], .sym ';', .word ['b']]
      (.list (.exec [['a']]) (.exec [['b']])) :=
    .list (n := 0) (hword ['a']) (.line (n := 0) (hword ['b']))
  refine ((parsecmd_iff redirected 32 (by decide)).1 _).1 ?_
  rw [htokens]
  exact .line (n := 0) (.single (.block hline (.cons .write .nil)))

/-- In the buffer that `parsecmd` leaves, every word of the command is a string of its own; no end
of a word is in another one, so the order in which the ends are overwritten does not matter. -/
theorem nulterminate_cuts {s : Line} {fuel : Nat} (hfuel : 4 * s.length + 4 ≤ fuel) {cmd : Cmd Span}
    {buf : List Char} (h : parsecmd s fuel = .ok cmd buf) {x : Span} (hx : x ∈ cmd.words) :
    WordAt s x ∧ cstr buf x.1 = text s x ∧ buf[x.2]? = some '\x00' ∧
      (∀ y ∈ cmd.words, ¬ (x.1 ≤ y.2 ∧ y.2 < x.2)) ∧
      ∀ ys : List Span, ys ⊆ cmd.words → x ∈ ys →
        cstr (terminate ys (s.chars ++ ['\x00'])) x.1 = text s x := by
  cases htop : parsetop s fuel 0 with
  | error e =>
    rw [parsecmd, htop] at h
    cases h
  | ok c j =>
    obtain ⟨-, hwords⟩ := Prog.of_wp (parsetop_sound hfuel) htop
    rw [parsecmd_of_parsetop htop hwords] at h
    cases h
    exact ⟨hwords x hx, cstr_terminate hwords hx, terminate_end hx (hwords x hx),
      fun y hy => (hwords x hx).end_notMem (hwords y hy),
      fun ys hys hx => cstr_terminate (fun y hy => hwords y (hys hy)) hx⟩

/-- The word `f` of the redirection ends with the line. -/
theorem nulterminate_cuts_redirected : ∃ cmd buf, parsecmd redirected 32 = .ok cmd buf ∧
    cmd.words = [(1, 2), (3, 4), (6, 7)] ∧ cstr buf 6 = ['f'] := by
  refine ⟨_, _, rfl, rfl, ?_⟩
  have hparse : parsecmd redirected 32 = .ok _ _ := rfl
  exact (nulterminate_cuts (x := (6, 7)) (by decide) hparse (by decide)).2.1

end Xv6.Sh
