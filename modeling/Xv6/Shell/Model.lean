import Mathlib.Init

/-!
# The parser of the shell

The functions of `sh.c` between `gettoken` and `nulterminate`. A pointer into the line is its index in `buf`; what is
behind the end of `buf` reads as NUL. A parsing function takes the position `*ps` and returns it with its result, and a
command holds the positions of its words, where each word begins and ends.

A loop or a call gives up with `Stop.fuel` when `n` is used up; `panic` ends the process. The text that `parsecmd` prints
before it panics is left out.
-/

namespace Xv6.Shell

abbrev nul : Char := '\x00'

abbrev O_RDONLY : Nat := 0x000
abbrev O_WRONLY : Nat := 0x001
abbrev O_CREATE : Nat := 0x200
abbrev O_TRUNC : Nat := 0x400

abbrev MAXARGS : Nat := 10

/-- `struct cmd`, with words `W`; `argv` without the null pointer at its end. -/
inductive Cmd (W : Type)
  | exec (argv : List W)
  | redir (cmd : Cmd W) (file : W) (mode fd : Nat)
  | pipe (left right : Cmd W)
  | list (left right : Cmd W)
  | back (cmd : Cmd W)
  deriving DecidableEq, Repr

/-- Where a word begins, and where it ends. -/
abbrev Span := Nat × Nat

/-- Why there is no result. -/
inductive Stop
  | panic (msg : String)
  | fuel
  deriving DecidableEq, Repr

/-! ## Characters -/

def whitespace : List Char := [' ', '\t', '\r', '\n', '\x0b']
def symbols : List Char := ['<', '|', '>', '&', ';', '(', ')']

def isSpace (c : Char) : Bool := whitespace.contains c
def isWord (c : Char) : Bool := !whitespace.contains c && !symbols.contains c

section Parser

variable (buf : List Char) (es : Nat)

/-- `*s`. -/
def deref (s : Nat) : Char := buf.getD s nul

/-- `strlen(buf)`. -/
def strlen : Nat := (buf.takeWhile (· ≠ nul)).length

/-- `while(s < es && p(*s)) s++`, in at most `n` turns. -/
def skipN (p : Char → Bool) : Nat → Nat → Nat
  | 0, s => s
  | n + 1, s => if p (deref buf s) then skipN p n (s + 1) else s

def skip (p : Char → Bool) (s : Nat) : Nat := skipN buf p (es - s) s

/-! ## Tokens -/

/-- The part of `gettoken` after the white space: the token at `q`, and its end. -/
def token (q : Nat) : Char × Nat :=
  let c := deref buf q
  if c = nul then (c, q)
  else if ['|', '(', ')', ';', '&', '<'].contains c then (c, q + 1)
  else if c = '>' then if deref buf (q + 1) = '>' then ('+', q + 2) else (c, q + 1)
  else ('a', skip buf es isWord q)

/-- `gettoken(ps, es, q, eq)`: what it returns, `*q`, `*eq` and `*ps`. -/
def gettoken (s : Nat) : Char × Nat × Nat × Nat :=
  let q := skip buf es isSpace s
  let (ret, eq) := token buf es q
  (ret, q, eq, skip buf es isSpace eq)

/-- `peek(ps, es, toks)`: what it returns, and `*ps`. -/
def peek (s : Nat) (toks : List Char) : Bool × Nat :=
  let s := skip buf es isSpace s
  (deref buf s ≠ nul && toks.contains (deref buf s), s)

/-! ## Commands -/

/-- `cmd->argv[argc] = q`, where `ret` is `cmd` inside the redirections read so far. -/
def Cmd.push {W : Type} (w : W) : Cmd W → Cmd W
  | .exec argv => .exec (argv ++ [w])
  | .redir cmd file mode fd => .redir (cmd.push w) file mode fd
  | cmd => cmd

/-- The `switch` in `parseredirs`. -/
def redircmd {W : Type} (tok : Char) (cmd : Cmd W) (file : W) : Cmd W :=
  if tok = '<' then .redir cmd file O_RDONLY 0
  else if tok = '>' then .redir cmd file (O_WRONLY ||| O_CREATE ||| O_TRUNC) 1
  else if tok = '+' then .redir cmd file (O_WRONLY ||| O_CREATE) 1
  else cmd

/-- `parseredirs(cmd, ps, es)`. -/
def parseredirs : Nat → Cmd Span → Nat → Except Stop (Cmd Span × Nat)
  | 0, _, _ => .error .fuel
  | n + 1, cmd, s =>
    let (found, s) := peek buf es s ['<', '>']
    if found then
      let (tok, _, _, s) := gettoken buf es s
      let (ret, q, eq, s) := gettoken buf es s
      if ret ≠ 'a' then .error (.panic "missing file for redirection")
      else parseredirs n (redircmd tok cmd (q, eq)) s
    else .ok (cmd, s)

/-- The loop of `parseexec`, with `argc` words read. -/
def parseargs : Nat → Cmd Span → Nat → Nat → Except Stop (Cmd Span × Nat)
  | 0, _, _, _ => .error .fuel
  | n + 1, ret, argc, s =>
    let (found, s) := peek buf es s ['|', ')', '&', ';']
    if found then .ok (ret, s)
    else
      let (tok, q, eq, s) := gettoken buf es s
      if tok = nul then .ok (ret, s)
      else if tok ≠ 'a' then .error (.panic "syntax")
      else if argc + 1 ≥ MAXARGS then .error (.panic "too many args")
      else do
        let (ret, s) ← parseredirs buf es n (ret.push (q, eq)) s
        parseargs n ret (argc + 1) s

/-- The loop of `parseline`. -/
def parsebacks : Nat → Cmd Span → Nat → Except Stop (Cmd Span × Nat)
  | 0, _, _ => .error .fuel
  | n + 1, cmd, s =>
    let (found, s) := peek buf es s ['&']
    if found then
      let (_, _, _, s) := gettoken buf es s
      parsebacks n (.back cmd) s
    else .ok (cmd, s)

mutual

/-- `parseline(ps, es)`. -/
def parseline : Nat → Nat → Except Stop (Cmd Span × Nat)
  | 0, _ => .error .fuel
  | n + 1, s => do
    let (cmd, s) ← parsepipe n s
    let (cmd, s) ← parsebacks buf es n cmd s
    let (found, s) := peek buf es s [';']
    if found then
      let (_, _, _, s) := gettoken buf es s
      let (right, s) ← parseline n s
      return (.list cmd right, s)
    else return (cmd, s)
termination_by structural n => n

/-- `parsepipe(ps, es)`. -/
def parsepipe : Nat → Nat → Except Stop (Cmd Span × Nat)
  | 0, _ => .error .fuel
  | n + 1, s => do
    let (cmd, s) ← parseexec n s
    let (found, s) := peek buf es s ['|']
    if found then
      let (_, _, _, s) := gettoken buf es s
      let (right, s) ← parsepipe n s
      return (.pipe cmd right, s)
    else return (cmd, s)
termination_by structural n => n

/-- `parseexec(ps, es)`. -/
def parseexec : Nat → Nat → Except Stop (Cmd Span × Nat)
  | 0, _ => .error .fuel
  | n + 1, s => do
    let (found, s) := peek buf es s ['(']
    if found then parseblock n s
    else
      let (ret, s) ← parseredirs buf es n (.exec []) s
      parseargs buf es n ret 0 s
termination_by structural n => n

/-- `parseblock(ps, es)`. -/
def parseblock : Nat → Nat → Except Stop (Cmd Span × Nat)
  | 0, _ => .error .fuel
  | n + 1, s => do
    let (found, s) := peek buf es s ['(']
    if !found then throw (.panic "parseblock")
    let (_, _, _, s) := gettoken buf es s
    let (cmd, s) ← parseline n s
    let (found, s) := peek buf es s [')']
    if !found then throw (.panic "syntax - missing )")
    let (_, _, _, s) := gettoken buf es s
    parseredirs buf es n cmd s
termination_by structural n => n

end

end Parser

/-- `nulterminate(cmd)`, on the line. -/
def nulterminate : Cmd Span → List Char → List Char
  | .exec argv, buf => argv.foldl (fun buf w => buf.set w.2 nul) buf
  | .redir cmd file _ _, buf => (nulterminate cmd buf).set file.2 nul
  | .pipe left right, buf => nulterminate right (nulterminate left buf)
  | .list left right, buf => nulterminate right (nulterminate left buf)
  | .back cmd, buf => nulterminate cmd buf

/-- `parsecmd(s)`: the command, and the line afterwards. -/
def parsecmd (n : Nat) (buf : List Char) : Except Stop (Cmd Span × List Char) := do
  let es := strlen buf
  let (cmd, s) ← parseline buf es n 0
  let (_, s) := peek buf es s []
  if s ≠ es then throw (.panic "syntax")
  return (cmd, nulterminate cmd buf)

/-- The string that begins at a position. -/
def cstr (buf : List Char) (s : Nat) : List Char := (buf.drop s).takeWhile (· ≠ nul)

/-- A command with its words replaced. -/
def Cmd.map {V W : Type} (f : V → W) : Cmd V → Cmd W
  | .exec argv => .exec (argv.map f)
  | .redir cmd file mode fd => .redir (cmd.map f) (f file) mode fd
  | .pipe left right => .pipe (left.map f) (right.map f)
  | .list left right => .list (left.map f) (right.map f)
  | .back cmd => .back (cmd.map f)

/-- What is in the hands of the caller of `parsecmd`: each word is the string at its pointer. -/
def parsed (n : Nat) (buf : List Char) : Except Stop (Cmd (List Char)) :=
  (parsecmd n buf).map fun (cmd, buf) => cmd.map fun w => cstr buf w.1

end Xv6.Shell
