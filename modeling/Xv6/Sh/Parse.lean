import Xv6.Lib.Prog
import Xv6.Params

/-!
# Parse — the parser of `user/sh.c`

The parser is a recursive descent over one line with a cursor `*ps`, the state of the programs here.
Pointers into the line are indices.  A read past the terminator, a write past the end of `argv` and
the end of the fuel are errors of their own, apart from `panic`.
-/

namespace Xv6.Sh

open Lib

/-! ## Commands and lines -/

abbrev MAXARGS : Nat := 10

/-- A parsed command over its words. -/
inductive Cmd (W : Type)
  | exec (argv : List W)
  | redir (cmd : Cmd W) (file : W) (mode fd : Nat)
  | pipe (left right : Cmd W)
  | list (left right : Cmd W)
  | back (cmd : Cmd W)
  deriving DecidableEq

/-- A word of the line: where it begins and where it ends. -/
abbrev Span : Type := Nat × Nat

inductive Err
  | panic (msg : String)
  /-- An access outside of the line or of `argv`. -/
  | fault
  | fuel
  deriving DecidableEq

/-- The characters of a line up to the terminator. -/
structure Line where
  chars : List Char
  nul : '\x00' ∉ chars

/-! ## Tokens -/

/-- `strchr`, which does not find the terminator. -/
def strchr (cs : List Char) (c : Char) : Bool :=
  cs.contains c

def whitespace : List Char :=
  [' ', '\t', '\r', '\n', '\x0b']

def symbols : List Char :=
  ['<', '|', '>', '&', ';', '(', ')']

/-- `while(s < es && p(*s)) s++`, along the characters from `s` to `es`. -/
def skip (p : Char → Bool) : List Char → Nat → Nat
  | [], i => i
  | c :: cs, i => if p c then skip p cs (i + 1) else i

namespace Line

variable (s : Line)

/-- `es` -/
def length : Nat :=
  s.chars.length

def skip (p : Char → Bool) (i : Nat) : Nat :=
  Sh.skip p (s.chars.drop i) i

/-- `*s` at index `i` -/
def load (i : Nat) : Prog Nat Err Char :=
  if h : i < s.chars.length then
    pure s.chars[i]
  else if i = s.chars.length then
    pure '\x00'
  else
    Prog.halt .fault

end Line

def isSpace (c : Char) : Bool :=
  strchr whitespace c

def isWord (c : Char) : Bool :=
  !strchr whitespace c && !strchr symbols c

/-- The `switch` of `gettoken` at `q`: the token and where it ends. -/
def scan (s : Line) (q : Nat) : Prog Nat Err (Char × Nat) := do
  let c ← s.load q
  if c = '\x00' then
    pure (c, q)
  else if strchr ['|', '(', ')', ';', '&', '<'] c then
    pure (c, q + 1)
  else if c = '>' then do
    let c' ← s.load (q + 1)
    pure (if c' = '>' then ('+', q + 2) else (c, q + 1))
  else
    pure ('a', s.skip isWord q)

/-- The token with its beginning and its end. -/
def gettoken (s : Line) : Prog Nat Err (Char × Span) := do
  let i ← Prog.gets id
  let q := s.skip isSpace i
  let (ret, eq) ← scan s q
  Prog.modify fun _ => s.skip isSpace eq
  pure (ret, q, eq)

def peek (s : Line) (toks : List Char) : Prog Nat Err Bool := do
  Prog.modify fun i => s.skip isSpace i
  let i ← Prog.gets id
  let c ← s.load i
  pure (c ≠ '\x00' && strchr toks c)

/-! ## The parser -/

/-- The `redircmd` of an operator. -/
def redircmd (tok : Char) (cmd : Cmd Span) (file : Span) : Cmd Span :=
  if tok = '<' then
    .redir cmd file O_RDONLY 0
  else if tok = '>' then
    .redir cmd file (O_WRONLY ||| O_CREATE ||| O_TRUNC) 1
  else if tok = '+' then
    .redir cmd file (O_WRONLY ||| O_CREATE) 1
  else
    cmd

def parseredirs (s : Line) : Nat → Cmd Span → Prog Nat Err (Cmd Span)
  | 0, _ => Prog.halt .fuel
  | fuel + 1, cmd => do
    if ← peek s ['<', '>'] then
      let (tok, _) ← gettoken s
      let (tok', file) ← gettoken s
      if tok' ≠ 'a' then
        Prog.halt (.panic "missing file for redirection")
      else
        parseredirs s fuel (redircmd tok cmd file)
    else
      pure cmd

/-- `cmd->argv[argc] = q` for the `execcmd` inside of the redirections. -/
def Cmd.addArg {W : Type} (x : W) : Cmd W → Cmd W
  | .exec argv => .exec (argv ++ [x])
  | .redir cmd file mode fd => .redir (cmd.addArg x) file mode fd
  | cmd => cmd

/-- The loop of `parseexec`. -/
def parseargs (s : Line) : Nat → Cmd Span → Nat → Prog Nat Err (Cmd Span)
  | 0, _, _ => Prog.halt .fuel
  | fuel + 1, ret, argc => do
    if ← peek s ['|', ')', '&', ';'] then
      -- The terminators of `argv` and `eargv`.
      if argc < MAXARGS then pure ret else Prog.halt .fault
    else
      let (tok, x) ← gettoken s
      if tok = '\x00' then
        if argc < MAXARGS then pure ret else Prog.halt .fault
      else if tok ≠ 'a' then
        Prog.halt (.panic "syntax")
      else if MAXARGS ≤ argc then
        Prog.halt .fault
      else if MAXARGS ≤ argc + 1 then
        Prog.halt (.panic "too many args")
      else do
        let ret ← parseredirs s fuel (ret.addArg x)
        parseargs s fuel ret (argc + 1)

/-- The loop of `parseline`. -/
def parsebacks (s : Line) : Nat → Cmd Span → Prog Nat Err (Cmd Span)
  | 0, _ => Prog.halt .fuel
  | fuel + 1, cmd => do
    if ← peek s ['&'] then
      let _ ← gettoken s
      parsebacks s fuel (.back cmd)
    else
      pure cmd

mutual

def parseline (s : Line) : Nat → Prog Nat Err (Cmd Span)
  | 0 => Prog.halt .fuel
  | fuel + 1 => do
    let cmd ← parsepipe s fuel
    let cmd ← parsebacks s fuel cmd
    if ← peek s [';'] then
      let _ ← gettoken s
      let rest ← parseline s fuel
      pure (.list cmd rest)
    else
      pure cmd

def parsepipe (s : Line) : Nat → Prog Nat Err (Cmd Span)
  | 0 => Prog.halt .fuel
  | fuel + 1 => do
    let cmd ← parseexec s fuel
    if ← peek s ['|'] then
      let _ ← gettoken s
      let rest ← parsepipe s fuel
      pure (.pipe cmd rest)
    else
      pure cmd

def parseblock (s : Line) : Nat → Prog Nat Err (Cmd Span)
  | 0 => Prog.halt .fuel
  | fuel + 1 => do
    if ← peek s ['('] then
      let _ ← gettoken s
      let cmd ← parseline s fuel
      if ← peek s [')'] then
        let _ ← gettoken s
        parseredirs s fuel cmd
      else
        Prog.halt (.panic "syntax - missing )")
    else
      Prog.halt (.panic "parseblock")

def parseexec (s : Line) : Nat → Prog Nat Err (Cmd Span)
  | 0 => Prog.halt .fuel
  | fuel + 1 => do
    if ← peek s ['('] then
      parseblock s fuel
    else
      let ret ← parseredirs s fuel (.exec [])
      parseargs s fuel ret 0

end

/-! ## The end -/

/-- `*efile = 0` and `*eargv[i] = 0`, in the buffer with the line and its terminator. -/
def nul (x : Span) : Prog (List Char) Err Unit := fun buf =>
  if x.2 < buf.length then .ok () (buf.set x.2 '\x00') else .error .fault

def nulargs : List Span → Prog (List Char) Err Unit
  | [] => pure ()
  | x :: argv => do
    nul x
    nulargs argv

def nulterminate : Cmd Span → Prog (List Char) Err Unit
  | .exec argv => nulargs argv
  | .redir cmd file _ _ => do
    nulterminate cmd
    nul file
  | .pipe left right => do
    nulterminate left
    nulterminate right
  | .list left right => do
    nulterminate left
    nulterminate right
  | .back cmd => nulterminate cmd

/-- `parsecmd` up to `nulterminate` -/
def parsetop (s : Line) (fuel : Nat) : Prog Nat Err (Cmd Span) := do
  let cmd ← parseline s fuel
  let _ ← peek s []
  let i ← Prog.gets id
  if i ≠ s.length then
    Prog.halt (.panic "syntax")
  else
    pure cmd

/-- `parsecmd`: the command, and the buffer as the state in which it returns. -/
def parsecmd (s : Line) (fuel : Nat) : Outcome (List Char) Err (Cmd Span) :=
  match parsetop s fuel 0 with
  | .error e => .error e
  | .ok cmd _ => (nulterminate cmd >>= fun _ => pure cmd) (s.chars ++ ['\x00'])

end Xv6.Sh
