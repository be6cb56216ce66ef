import Laboratorio.Shell.Cmd

/-!
# The parser of `xv6/sh.c`

This parser does not copy tokens: `argv[i]` and `file` point at the first character of a token in
the line and `eargv[i]` and `efile` at the character after its last one.  Both pointers of a token
are kept together as a `Span` of positions; the position of a suffix `s` of the line is
`es - s.length`.  After parsing, `nulterminate` writes a NUL through every end pointer into the
buffer that holds the line and its terminating NUL.

As in the other parser, loops and recursive functions take a bound on the number of their turns as
first argument.  Four calls lead from one `parseline` through a `(` to the next.
-/

namespace Laboratorio.Shell.Xv6

/-- The `strchr` of `xv6/ulib.c`, which does not find the terminating NUL. -/
def strchr (s : List Char) (c : Char) : Bool := s.contains c

/-- The pointers to the beginning and to the end of a token, as positions in the line. -/
structure Span where
  q : Nat
  eq : Nat
  deriving DecidableEq, Repr

def redircmd (subcmd : Cmd Span) (file : Span) (mode : List Flag) (fd : Nat) : Cmd Span :=
  .redir subcmd file mode fd

def pipecmd (left right : Cmd Span) : Cmd Span := .pipe left right

def listcmd (left right : Cmd Span) : Cmd Span := .list left right

def backcmd (subcmd : Cmd Span) : Cmd Span := .back subcmd

def symbols : List Char := ['<', '|', '>', '&', ';', '(', ')']

def gettoken (ps : List Char) : Token :=
  let s := skip strchr ps
  let (ret, eq) :=
    if deref s = NUL then (deref s, s)
    else if deref s ∈ ['|', '(', ')', ';', '&', '<'] then (deref s, s.tail)
    else if deref s = '>' then
      if deref s.tail = '>' then ('+', s.tail.tail) else (deref s, s.tail)
    else ('a', s.dropWhile fun c => !strchr whitespace c && !strchr symbols c)
  ⟨ret, s, eq, skip strchr eq⟩

def peek (toks ps : List Char) : Bool × List Char := peekWith strchr toks ps

section

variable (es : Nat)

/-- The pair of pointers `q` and `eq` of a token. -/
def span (t : Token) : Span := ⟨es - t.q.length, es - t.eq.length⟩

def parseredirs : Nat → Cmd Span → List Char → Except Error (Cmd Span × List Char)
  | 0, _, _ => .error .diverge
  | n + 1, cmd, ps =>
    let (found, ps) := peek ['<', '>'] ps
    if found then
      let t := gettoken ps
      let u := gettoken t.ps
      if u.ret ≠ 'a' then .error .missingFile
      else if t.ret = '<' then
        parseredirs n (redircmd cmd (span es u) [.O_RDONLY] 0) u.ps
      else if t.ret = '>' then
        parseredirs n (redircmd cmd (span es u) [.O_WRONLY, .O_CREAT] 1) u.ps
      else if t.ret = '+' then
        parseredirs n (redircmd cmd (span es u) [.O_WRONLY, .O_CREAT] 1) u.ps
      else parseredirs n cmd u.ps
    else .ok (cmd, ps)

/-- The loop of `parseexec` and the stores after it. -/
def parseargs : Nat → Cmd Span → Nat → List Char → Except Error (Cmd Span × List Char)
  | 0, _, _, _ => .error .diverge
  | n + 1, ret, argc, ps =>
    let (found, ps) := peek ['|', ')', '&', ';'] ps
    if found then do
      let ret ← storeArg ret argc none
      return (ret, ps)
    else
      let t := gettoken ps
      if t.ret = NUL then do
        let ret ← storeArg ret argc none
        return (ret, t.ps)
      else if t.ret ≠ 'a' then .error .syntaxError
      else do
        let ret ← storeArg ret argc (some (span es t))
        if argc + 1 ≥ 10 then .error .tooManyArgs
        else
          let (ret, ps) ← parseredirs es n ret t.ps
          parseargs n ret (argc + 1) ps

/-- The loop of `parseline`: one `backcmd` for each `&`. -/
def parsebacks : Nat → Cmd Span → List Char → Except Error (Cmd Span × List Char)
  | 0, _, _ => .error .diverge
  | n + 1, cmd, ps =>
    let (found, ps) := peek ['&'] ps
    if found then parsebacks n (backcmd cmd) (gettoken ps).ps else .ok (cmd, ps)

mutual

def parseline : Nat → List Char → Except Error (Cmd Span × List Char)
  | 0, _ => .error .diverge
  | n + 1, ps => do
    let (cmd, ps) ← parsepipe n ps
    let (cmd, ps) ← parsebacks (n + 1) cmd ps
    let (found, ps) := peek [';'] ps
    if found then
      let (right, ps) ← parseline n (gettoken ps).ps
      return (listcmd cmd right, ps)
    else return (cmd, ps)

def parsepipe : Nat → List Char → Except Error (Cmd Span × List Char)
  | 0, _ => .error .diverge
  | n + 1, ps => do
    let (cmd, ps) ← parseexec n ps
    let (found, ps) := peek ['|'] ps
    if found then
      let (right, ps) ← parsepipe n (gettoken ps).ps
      return (pipecmd cmd right, ps)
    else return (cmd, ps)

def parseblock : Nat → List Char → Except Error (Cmd Span × List Char)
  | 0, _ => .error .diverge
  | n + 1, ps => do
    let (found, ps) := peek ['('] ps
    if !found then .error .parseblock
    else
      let (cmd, ps) ← parseline n (gettoken ps).ps
      let (found, ps) := peek [')'] ps
      if !found then .error .missingParen
      else parseredirs es (n + 1) cmd (gettoken ps).ps

def parseexec : Nat → List Char → Except Error (Cmd Span × List Char)
  | 0, _ => .error .diverge
  | n + 1, ps =>
    let (found, ps) := peek ['('] ps
    if found then parseblock n ps
    else do
      let (ret, ps) ← parseredirs es (n + 1) execcmd ps
      parseargs es (n + 1) ret 0 ps

end

end

/-- `for (i = 0; argv[i]; i++) *eargv[i] = 0;` -/
def terminateArgs : List (Option Span) → List Char → List Char
  | some arg :: argv, buf => terminateArgs argv (buf.set arg.eq NUL)
  | _, buf => buf

/-- NUL-terminate all the counted strings in the buffer. -/
def nulterminate : Cmd Span → List Char → List Char
  | .exec argv, buf => terminateArgs argv buf
  | .redir cmd file _ _, buf => (nulterminate cmd buf).set file.eq NUL
  | .pipe left right, buf => nulterminate right (nulterminate left buf)
  | .list left right, buf => nulterminate right (nulterminate left buf)
  | .back cmd, buf => nulterminate cmd buf

/-- The tree and the buffer, with the line and its NUL, as it is left. -/
def parsecmd (s : List Char) : Except Error (Cmd Span × List Char) := do
  let (cmd, rest) ← parseline s.length (4 * s.length + 4) s
  let (_, rest) := peek [] rest
  if rest ≠ [] then .error (.leftovers rest)
  else return (cmd, nulterminate cmd (s ++ [NUL]))

end Laboratorio.Shell.Xv6
