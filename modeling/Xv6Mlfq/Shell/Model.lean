import Xv6Mlfq.Lib.Prog

/-!
# The shell's parser (sh.c)

`parsecmd` on a buffer of bytes. A pointer into the line is its index in the buffer; a read outside the buffer is a
fault. The parser only moves its position `*ps`; the words of a command stay in the buffer, and `nulterminate`
writes a NUL after each of them once the tree is complete. `malloc` does not fail.
-/

namespace Xv6Mlfq.Shell

open Lib (Prog look update stop)

abbrev MAXARGS : Nat := 10

def ch (c : Char) : UInt8 := c.toUInt8

def whitespace : List UInt8 := [' ', '\t', '\r', '\n', '\x0b'].map ch

def symbols : List UInt8 := ['<', '|', '>', '&', ';', '(', ')'].map ch

/-- `strchr(s, c) != 0` for a string without NUL. -/
def strchr (s : List UInt8) (c : UInt8) : Bool := s.contains c

/-- `struct cmd`. The two arrays of an `execcmd` hold pointers, `none` for the null pointer. -/
inductive Cmd
  | exec (argv eargv : List (Option Nat))
  | redir (cmd : Cmd) (file efile : Nat) (mode fd : Nat)
  | pipe (left right : Cmd)
  | list (left right : Cmd)
  | back (cmd : Cmd)
deriving DecidableEq, Repr

/-- Ways not to return: `panic`, an access outside an array, a loop that goes on past the end of the line. -/
inductive Stop
  | panic (msg : String)
  | fault
  | spin
deriving DecidableEq, Repr

abbrev M := Prog Nat Stop

section parser

variable (buf : List UInt8) (es : Nat)

def load (s : Nat) : M UInt8 :=
  match buf[s]? with
  | some c => return c
  | none => stop .fault

/-- `while(s < es && f(*s)) s++`, with `n` bytes left before `es`. -/
def skip (f : UInt8 → Bool) : Nat → Nat → M Nat
  | 0, s => return s
  | n + 1, s => do
    let c ← load buf s
    if f c then skip f n (s + 1) else return s

def isSpace (c : UInt8) : Bool := strchr whitespace c

def isWord (c : UInt8) : Bool := !strchr whitespace c && !strchr symbols c

/-- The `switch` of `gettoken`: the token and where it ends. -/
def token (c : UInt8) (s : Nat) : M (UInt8 × Nat) :=
  if c = 0 then return (c, s)
  else if c ∈ ['|', '(', ')', ';', '&', '<'].map ch then return (c, s + 1)
  else if c = ch '>' then do
    let d ← load buf (s + 1)
    if d = ch '>' then return (ch '+', s + 2) else return (c, s + 1)
  else do
    let e ← skip buf isWord (es - s) s
    return (ch 'a', e)

def gettoken : M (UInt8 × Nat × Nat) := do
  let s ← look id
  let q ← skip buf isSpace (es - s) s
  let c ← load buf q
  let (ret, eq) ← token buf es c q
  let s ← skip buf isSpace (es - eq) eq
  update fun _ => s
  return (ret, q, eq)

def peek (toks : List Char) : M Bool := do
  let s ← look id
  let s ← skip buf isSpace (es - s) s
  update fun _ => s
  let c ← load buf s
  return c ≠ 0 && strchr (toks.map ch) c

/-! ## Commands -/

/-- The arguments of `redircmd` after the command it goes around. -/
structure Redir where
  file : Nat
  efile : Nat
  mode : Nat
  fd : Nat
deriving DecidableEq, Repr

abbrev O_RDONLY : Nat := 0

abbrev O_WRONLY : Nat := 1

abbrev O_CREATE : Nat := 512

/-- The redirections around a command, the innermost first. -/
def Cmd.around (cmd : Cmd) (rs : List Redir) : Cmd :=
  rs.foldl (fun c r => .redir c r.file r.efile r.mode r.fd) cmd

def redirOf (tok : UInt8) (q eq : Nat) : List Redir :=
  if tok = ch '<' then [⟨q, eq, O_RDONLY, 0⟩]
  else if tok = ch '>' then [⟨q, eq, O_WRONLY ||| O_CREATE, 1⟩]
  else if tok = ch '+' then [⟨q, eq, O_WRONLY ||| O_CREATE, 1⟩]
  else []

/-- The loop of `parseredirs`: the redirections it puts around the command. -/
def redirLoop : Nat → M (List Redir)
  | 0 => stop .spin
  | fuel + 1 => do
    if ← peek buf es ['<', '>'] then do
      let (tok, _, _) ← gettoken buf es
      let (t, q, eq) ← gettoken buf es
      if t ≠ ch 'a' then stop (.panic "missing file for redirection")
      else do
        let rs ← redirLoop fuel
        return redirOf tok q eq ++ rs
    else return []

def parseredirs : M (List Redir) := redirLoop buf es (es + 1)

/-- `parseline` is the parser of the line between the parentheses. -/
def parseblock (parseline : M Cmd) : M Cmd := do
  if ← peek buf es ['('] then do
    let _ ← gettoken buf es
    let cmd ← parseline
    if ← peek buf es [')'] then do
      let _ ← gettoken buf es
      let rs ← parseredirs buf es
      return cmd.around rs
    else stop (.panic "syntax - missing )")
  else stop (.panic "parseblock")

/-- The loop of `parseexec`. The `execcmd` is filled in after redirections have been put around it, so the arrays and
the redirections are kept side by side. -/
def argLoop : Nat → List (Option Nat) → List (Option Nat) → Nat → List Redir → M Cmd
  | 0, _, _, _, _ => stop .spin
  | fuel + 1, argv, eargv, argc, rs => do
    if ← peek buf es ['|', ')', '&', ';'] then return (Cmd.exec (argv.set argc none) (eargv.set argc none)).around rs
    else do
      let (tok, q, eq) ← gettoken buf es
      if tok = 0 then return (Cmd.exec (argv.set argc none) (eargv.set argc none)).around rs
      else if tok ≠ ch 'a' then stop (.panic "syntax")
      else if argc + 1 ≥ MAXARGS then stop (.panic "too many args")
      else do
        let rs' ← parseredirs buf es
        argLoop fuel (argv.set argc (some q)) (eargv.set argc (some eq)) (argc + 1) (rs ++ rs')

def parseexec (parseline : M Cmd) : M Cmd := do
  if ← peek buf es ['('] then parseblock buf es parseline
  else do
    let rs ← parseredirs buf es
    argLoop buf es (es + 1) (List.replicate MAXARGS none) (List.replicate MAXARGS none) 0 rs

def parsepipe (parseline : M Cmd) : Nat → M Cmd
  | 0 => stop .spin
  | fuel + 1 => do
    let cmd ← parseexec buf es parseline
    if ← peek buf es ['|'] then do
      let _ ← gettoken buf es
      let right ← parsepipe parseline fuel
      return .pipe cmd right
    else return cmd

/-- `while(peek(ps, es, "&"))` of `parseline`. -/
def backLoop : Nat → Cmd → M Cmd
  | 0, _ => stop .spin
  | fuel + 1, cmd => do
    if ← peek buf es ['&'] then do
      let _ ← gettoken buf es
      backLoop fuel (.back cmd)
    else return cmd

def parseline : Nat → M Cmd
  | 0 => stop .spin
  | fuel + 1 => do
    let cmd ← parsepipe buf es (parseline fuel) (es + 1)
    let cmd ← backLoop buf es (es + 1) cmd
    if ← peek buf es [';'] then do
      let _ ← gettoken buf es
      let right ← parseline fuel
      return .list cmd right
    else return cmd

end parser

/-! ## The line -/

def poke (e : Nat) : Prog (List UInt8) Stop Unit := do
  let buf ← look id
  if e < buf.length then update fun buf => buf.set e 0 else stop .fault

def nulArgs : List (Option Nat) → List (Option Nat) → Prog (List UInt8) Stop Unit
  | none :: _, _ => return ()
  | some _ :: argv, some e :: eargv => do
    poke e
    nulArgs argv eargv
  | _, _ => stop .fault

def nulterminate : Cmd → Prog (List UInt8) Stop Unit
  | .exec argv eargv => nulArgs argv eargv
  | .redir cmd _ efile _ _ => do
    nulterminate cmd
    poke efile
  | .pipe left right => do
    nulterminate left
    nulterminate right
  | .list left right => do
    nulterminate left
    nulterminate right
  | .back cmd => nulterminate cmd

/-- `strlen` of the string at the start of the buffer. -/
def strlen (buf : List UInt8) : Nat := (buf.takeWhile (· ≠ 0)).length

/-- The body of `parsecmd` before `nulterminate`. -/
def parseAll (buf : List UInt8) (es : Nat) : M Cmd := do
  let cmd ← parseline buf es (es + 1)
  let _ ← peek buf es []
  let s ← look id
  if s ≠ es then stop (.panic "syntax") else return cmd

def parsecmd (buf : List UInt8) : Except Stop (Cmd × List UInt8) :=
  match parseAll buf (strlen buf) 0 with
  | .ok (cmd, _) =>
    match nulterminate cmd buf with
    | .ok (_, buf') => .ok (cmd, buf')
    | .error e => .error e
  | .error e => .error e

end Xv6Mlfq.Shell
