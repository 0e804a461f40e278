import Mathlib.Data.List.Basic

/-!
# The shell's parser

`parsecmd` of `user/sh.c` with the functions that it calls. The command is the bytes before the NUL; a
pointer into it is its offset, and the cursor `*ps` is the offset with the bytes that follow it. A word of a
command is the two pointers `q` and `eq`; `nulterminate` makes strings of them in the buffer.

An `EXEC` node is filled in after the redirections are put around it, so the redirections are collected in
order and are put around the node when it is complete. The functions call each other and have loops: both
take `fuel`, and run out of it with `Err.fuel`. Where `malloc` fails the shell crashes; that is not here.
-/

namespace Xv6.Sh

/-- `MAXARGS`. -/
def MAXARGS : Nat := 10

def O_RDONLY : Nat := 0x000
def O_WRONLY : Nat := 0x001
def O_CREATE : Nat := 0x200
def O_TRUNC : Nat := 0x400

/-- The pointers to the start and the end of a word. -/
structure Word where
  q : Nat
  eq : Nat
  deriving DecidableEq, Repr

/-- `struct cmd`. -/
inductive Cmd where
  | exec (argv : List Word)
  | redir (cmd : Cmd) (file : Word) (mode fd : Nat)
  | pipe (left right : Cmd)
  | list (left right : Cmd)
  | back (cmd : Cmd)
  deriving DecidableEq, Repr

/-- The file, the mode and the descriptor of a redirection. -/
structure Redir where
  file : Word
  mode : Nat
  fd : Nat
  deriving DecidableEq, Repr

/-- The redirections around a command, the last one outermost. -/
def Cmd.redirs (c : Cmd) (rs : List Redir) : Cmd := rs.foldl (fun c r => .redir c r.file r.mode r.fd) c

inductive Err where
  | panic (s : String)
  /-- The model ran out of fuel. -/
  | fuel
  deriving DecidableEq, Repr

/-! ## Tokens -/

/-- `strchr(whitespace, c)`. -/
def whitespace (c : Char) : Bool := c ∈ [' ', '\t', '\r', '\n', '\x0b']

/-- `strchr(symbols, c)`. -/
def symbols (c : Char) : Bool := c ∈ ['<', '|', '>', '&', ';', '(', ')']

/-- The cursor: an offset, and the bytes from there to the end. -/
structure Cur where
  pos : Nat
  rest : List Char
  deriving DecidableEq, Repr

/-- `while(s < es && p(*s)) s++`. -/
def skipWhile (p : Char → Bool) (i : Nat) : List Char → Cur
  | [] => ⟨i, []⟩
  | c :: s => if p c then skipWhile p (i + 1) s else ⟨i, c :: s⟩

/-- The cursor behind the white space. -/
def Cur.skip (s : Cur) : Cur := skipWhile whitespace s.pos s.rest

/-- What `gettoken` returns and sets. -/
structure Got where
  ret : Char
  q : Nat
  eq : Nat
  s : Cur

/-- The `switch` of `gettoken`. -/
def scan (s : Cur) : Char × Cur :=
  match s.rest with
  | [] => ('\x00', s)
  | c :: r =>
    if c ∈ ['|', '(', ')', ';', '&', '<'] then (c, ⟨s.pos + 1, r⟩)
    else if c = '>' then
      match r with
      | '>' :: r' => ('+', ⟨s.pos + 2, r'⟩)
      | _ => ('>', ⟨s.pos + 1, r⟩)
    else ('a', skipWhile (fun c => !whitespace c && !symbols c) s.pos s.rest)

/-- `gettoken`. -/
def gettoken (s : Cur) : Got :=
  ⟨(scan s.skip).1, s.skip.pos, (scan s.skip).2.pos, (scan s.skip).2.skip⟩

def Got.word (g : Got) : Word := ⟨g.q, g.eq⟩

/-- `peek`; it moves the cursor over white space. -/
def peek (s : Cur) (toks : List Char) : Bool :=
  match s.skip.rest with
  | [] => false
  | c :: _ => c ∈ toks

/-! ## The parser -/

/-- `parseredirs`; `rs` are the redirections that the command has. -/
def parseredirs : Nat → List Redir → Cur → Except Err (List Redir × Cur)
  | 0, _, _ => .error .fuel
  | n + 1, rs, s =>
    if peek s ['<', '>'] then
      let tok := gettoken s.skip
      let f := gettoken tok.s
      if f.ret ≠ 'a' then .error (.panic "missing file for redirection")
      else if tok.ret = '<' then parseredirs n (rs ++ [⟨f.word, O_RDONLY, 0⟩]) f.s
      else if tok.ret = '>' then parseredirs n (rs ++ [⟨f.word, O_WRONLY ||| O_CREATE ||| O_TRUNC, 1⟩]) f.s
      else if tok.ret = '+' then parseredirs n (rs ++ [⟨f.word, O_WRONLY ||| O_CREATE, 1⟩]) f.s
      else parseredirs n rs f.s
    else .ok (rs, s.skip)

/-- The loop of `parseexec`. -/
def parseargs : Nat → List Word → List Redir → Cur → Except Err (Cmd × Cur)
  | 0, _, _, _ => .error .fuel
  | n + 1, argv, rs, s =>
    if peek s ['|', ')', '&', ';'] then .ok ((Cmd.exec argv).redirs rs, s.skip)
    else
      let tok := gettoken s.skip
      if tok.ret = '\x00' then .ok ((Cmd.exec argv).redirs rs, tok.s)
      else if tok.ret ≠ 'a' then .error (.panic "syntax")
      else if argv.length + 1 ≥ MAXARGS then .error (.panic "too many args")
      else do
        let (rs, s) ← parseredirs n rs tok.s
        parseargs n (argv ++ [tok.word]) rs s

/-- The loop of `parseline`. -/
def parseamps : Nat → Cmd → Cur → Except Err (Cmd × Cur)
  | 0, _, _ => .error .fuel
  | n + 1, cmd, s =>
    if peek s ['&'] then parseamps n (.back cmd) (gettoken s.skip).s else .ok (cmd, s.skip)

mutual

/-- `parseline`. -/
def parseline : Nat → Cur → Except Err (Cmd × Cur)
  | 0, _ => .error .fuel
  | n + 1, s => do
    let (cmd, s) ← parsepipe n s
    let (cmd, s) ← parseamps n cmd s
    if peek s [';'] then do
      let (right, s) ← parseline n (gettoken s.skip).s
      .ok (.list cmd right, s)
    else .ok (cmd, s.skip)

/-- `parsepipe`. -/
def parsepipe : Nat → Cur → Except Err (Cmd × Cur)
  | 0, _ => .error .fuel
  | n + 1, s => do
    let (cmd, s) ← parseexec n s
    if peek s ['|'] then do
      let (right, s) ← parsepipe n (gettoken s.skip).s
      .ok (.pipe cmd right, s)
    else .ok (cmd, s.skip)

/-- `parseexec`. -/
def parseexec : Nat → Cur → Except Err (Cmd × Cur)
  | 0, _ => .error .fuel
  | n + 1, s =>
    if peek s ['('] then parseblock n s.skip
    else do
      let (rs, s) ← parseredirs n [] s.skip
      parseargs n [] rs s

/-- `parseblock`. -/
def parseblock : Nat → Cur → Except Err (Cmd × Cur)
  | 0, _ => .error .fuel
  | n + 1, s =>
    if peek s ['('] then do
      let (cmd, s) ← parseline n (gettoken s.skip).s
      if peek s [')'] then do
        let (rs, s) ← parseredirs n [] (gettoken s.skip).s
        .ok (cmd.redirs rs, s)
      else .error (.panic "syntax - missing )")
    else .error (.panic "parseblock")

end

/-- `nulterminate`: a NUL at the end of each word. -/
def nulterminate : Cmd → List Char → List Char
  | .exec argv, b => argv.foldl (fun b w => b.set w.eq '\x00') b
  | .redir cmd file _ _, b => (nulterminate cmd b).set file.eq '\x00'
  | .pipe left right, b => nulterminate right (nulterminate left b)
  | .list left right, b => nulterminate right (nulterminate left b)
  | .back cmd, b => nulterminate cmd b

/-- `parsecmd`: the command, and the buffer that holds its strings. -/
def parsecmd (n : Nat) (s : List Char) : Except Err (Cmd × List Char) := do
  let (cmd, cur) ← parseline n ⟨0, s⟩
  if cur.skip.rest ≠ [] then .error (.panic "syntax")
  else .ok (cmd, nulterminate cmd (s ++ ['\x00']))

/-- The string at a pointer. -/
def cstring (b : List Char) (p : Nat) : List Char := (b.drop p).takeWhile (· ≠ '\x00')

end Xv6.Sh
