import Xv6.Sys.File

/-! # The parser of the shell

A pointer into the line is the rest of the line from there on, and the end of the line `es`
is the empty rest. The cursor `*ps` is the state. A loop or a recursion that has not ended
after `turns` rounds is blocked; `panic` ends the shell's child. The allocation of the nodes
does not fail.
-/
namespace Xv6.Sh
open Function Sys

abbrev Text := List UInt8

def ch (c : Char) : UInt8 := UInt8.ofNat c.toNat

/-- The last one is the vertical tab. -/
def whitespace : Text := [ch ' ', ch '\t', ch '\r', ch '\n', 11]
def symbols : Text := [ch '<', ch '|', ch '>', ch '&', ch ';', ch '(', ch ')']
def MAXARGS : ℕ := 10

def letter (c : UInt8) : Bool := decide (c ∉ whitespace ∧ c ∉ symbols)

def skip (s : Text) : Text := s.dropWhile (· ∈ whitespace)

/-- The `switch` of `gettoken`: what it returns, and the end of the token. -/
def scan : Text → UInt8 × Text
  | [] => (0, [])
  | c :: s =>
    if c = ch '>' then
      match s with
      | [] => (c, s)
      | d :: s' => if d = ch '>' then (ch '+', s') else (c, s)
    else if c ∈ symbols then (c, s)
    else (ch 'a', (c :: s).dropWhile letter)

structure Token where
  tok : UInt8
  q : Text
  eq : Text

def gettoken : Comp Text Token := fun s =>
  let (ret, eq) := scan (skip s)
  .ok (⟨ret, skip s, eq⟩, skip eq)

def peek (toks : Text) : Comp Text Bool := fun s =>
  .ok ((skip s).head?.any (· ∈ toks), skip s)

/-- An argument and a file name are a pointer and a pointer to the end. -/
inductive Cmd
  | exec (argv : List (Text × Text))
  | redir (cmd : Cmd) (file efile : Text) (mode : Word) (fd : ℕ)
  | pipe (left right : Cmd)
  | list (left right : Cmd)
  | back (cmd : Cmd)

def redirect (cmd : Cmd) (tok : UInt8) (f : Token) : Cmd :=
  if tok = ch '<' then .redir cmd f.q f.eq O_RDONLY 0
  else if tok = ch '>' then .redir cmd f.q f.eq (O_WRONLY ||| O_CREATE) 1
  else if tok = ch '+' then .redir cmd f.q f.eq (O_WRONLY ||| O_CREATE) 1
  else cmd

def parseredirs : (turns : ℕ) → Cmd → Comp Text Cmd
  | 0, _ => Comp.block
  | turns + 1, cmd => do
    if ← peek [ch '<', ch '>'] then
      let tok ← gettoken
      let file ← gettoken
      if file.tok ≠ ch 'a' then Comp.panic "missing file for redirection"
      else parseredirs turns (redirect cmd tok.tok file)
    else return cmd

/-- `cmd->argv[argc] = q` where `cmd` is the node below the redirections of `ret`. -/
def Cmd.addArg (q eq : Text) : Cmd → Cmd
  | .exec argv => .exec (argv ++ [(q, eq)])
  | .redir cmd file efile mode fd => .redir (cmd.addArg q eq) file efile mode fd
  | cmd => cmd

def parseargs : (turns : ℕ) → (argc : ℕ) → (ret : Cmd) → Comp Text Cmd
  | 0, _, _ => Comp.block
  | turns + 1, argc, ret => do
    if ← peek [ch '|', ch ')', ch '&', ch ';'] then return ret
    else
      let t ← gettoken
      if t.tok = 0 then return ret
      else if t.tok ≠ ch 'a' then Comp.panic "syntax"
      else if argc + 1 ≥ MAXARGS then Comp.panic "too many args"
      else parseargs turns (argc + 1) (← parseredirs turns (ret.addArg t.q t.eq))

/-- The `while` loop of `parseline`. -/
def parsebacks : (turns : ℕ) → Cmd → Comp Text Cmd
  | 0, _ => Comp.block
  | turns + 1, cmd => do
    if ← peek [ch '&'] then
      let _ ← gettoken
      parsebacks turns (.back cmd)
    else return cmd

mutual

def parseline : (turns : ℕ) → Comp Text Cmd
  | 0 => Comp.block
  | turns + 1 => do
    let cmd ← parsebacks turns (← parsepipe turns)
    if ← peek [ch ';'] then
      let _ ← gettoken
      return .list cmd (← parseline turns)
    else return cmd

def parsepipe : (turns : ℕ) → Comp Text Cmd
  | 0 => Comp.block
  | turns + 1 => do
    let cmd ← parseexec turns
    if ← peek [ch '|'] then
      let _ ← gettoken
      return .pipe cmd (← parsepipe turns)
    else return cmd

def parseblock : (turns : ℕ) → Comp Text Cmd
  | 0 => Comp.block
  | turns + 1 => do
    if ← peek [ch '('] then
      let _ ← gettoken
      let cmd ← parseline turns
      if ← peek [ch ')'] then
        let _ ← gettoken
        parseredirs turns cmd
      else Comp.panic "syntax - missing )"
    else Comp.panic "parseblock"

def parseexec : (turns : ℕ) → Comp Text Cmd
  | 0 => Comp.block
  | turns + 1 => do
    if ← peek [ch '('] then parseblock turns
    else parseargs turns 0 (← parseredirs turns (.exec []))

end

def parseall (turns : ℕ) : Comp Text Cmd := do
  let cmd ← parseline turns
  let _ ← peek []
  if (← Comp.get) ≠ [] then Comp.panic "syntax" else return cmd

/-- The line of length `len` lies at address 0. -/
def nulterminate (len : ℕ) : Cmd → Mem → Mem
  | .exec argv, m => argv.foldl (fun m a => update m (len - a.2.length) 0) m
  | .redir cmd _ efile _ _, m => update (nulterminate len cmd m) (len - efile.length) 0
  | .pipe left right, m => nulterminate len right (nulterminate len left m)
  | .list left right, m => nulterminate len right (nulterminate len left m)
  | .back cmd, m => nulterminate len cmd m

def parsecmd (turns : ℕ) (line : CStr) (m : Mem) : Except Stop (Cmd × Mem) :=
  match parseall turns line.bytes with
  | .ok (cmd, _) => .ok (cmd, nulterminate line.length cmd (m.strcpy 0 line))
  | .error e => .error e

end Xv6.Sh
