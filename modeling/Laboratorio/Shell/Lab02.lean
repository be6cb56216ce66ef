import Laboratorio.Shell.Cmd

/-!
# The parser of `lab-02/sh.c`

The functions keep the order and the names of the source.  A loop or a recursion takes a bound on
the number of its turns as first argument; `parsecmd` starts with one more than the line has
characters, and `Error.diverge` is the answer when the bound is used up.
-/

namespace Laboratorio.Shell.Lab02

/-- The `strchr` of the C library, which also finds the terminating NUL. -/
def strchr (s : List Char) (c : Char) : Bool := s.contains c || c == NUL

def redircmd (subcmd : Cmd (List Char)) (file : List Char) (type : Char) : Cmd (List Char) :=
  .redir subcmd file
    (if type = '<' then [.O_RDONLY] else [.O_WRONLY, .O_CREAT, .O_TRUNC])
    (if type = '<' then 0 else 1)

def pipecmd (left right : Cmd (List Char)) : Cmd (List Char) := .pipe left right

def symbols : List Char := ['<', '|', '>']

def gettoken (ps : List Char) : Token :=
  let s := skip strchr ps
  let (ret, eq) :=
    if deref s = NUL then (deref s, s)
    else if deref s = '|' ∨ deref s = '<' then (deref s, s.tail)
    else if deref s = '>' then (deref s, s.tail)
    else ('a', s.dropWhile fun c => !strchr whitespace c && !strchr symbols c)
  ⟨ret, s, eq, skip strchr eq⟩

def peek (toks ps : List Char) : Bool × List Char := peekWith strchr toks ps

/-- The characters from `s` up to `es`. -/
def mkcopy (s es : List Char) : List Char := s.take (s.length - es.length)

def parseredirs : Nat → Cmd (List Char) → List Char → Except Error (Cmd (List Char) × List Char)
  | 0, _, _ => .error .diverge
  | n + 1, cmd, ps =>
    let (found, ps) := peek ['<', '>'] ps
    if found then
      let t := gettoken ps
      let u := gettoken t.ps
      if u.ret ≠ 'a' then .error .missingFile
      else if t.ret = '<' then parseredirs n (redircmd cmd (mkcopy u.q u.eq) '<') u.ps
      else if t.ret = '>' then parseredirs n (redircmd cmd (mkcopy u.q u.eq) '>') u.ps
      else parseredirs n cmd u.ps
    else .ok (cmd, ps)

/-- The loop of `parseexec` and the store after it. -/
def parseargs : Nat → Cmd (List Char) → Nat → List Char →
    Except Error (Cmd (List Char) × List Char)
  | 0, _, _, _ => .error .diverge
  | n + 1, ret, argc, ps =>
    let (found, ps) := peek ['|'] ps
    if found then do
      let ret ← storeArg ret argc none
      return (ret, ps)
    else
      let t := gettoken ps
      if t.ret = NUL then do
        let ret ← storeArg ret argc none
        return (ret, t.ps)
      else if t.ret ≠ 'a' then .error .syntaxError
      else do
        let ret ← storeArg ret argc (some (mkcopy t.q t.eq))
        if argc + 1 ≥ 10 then .error .tooManyArgs
        else
          let (ret, ps) ← parseredirs n ret t.ps
          parseargs n ret (argc + 1) ps

def parseexec (n : Nat) (ps : List Char) : Except Error (Cmd (List Char) × List Char) := do
  let (ret, ps) ← parseredirs n execcmd ps
  parseargs n ret 0 ps

def parsepipe : Nat → List Char → Except Error (Cmd (List Char) × List Char)
  | 0, _ => .error .diverge
  | n + 1, ps => do
    let (cmd, ps) ← parseexec (n + 1) ps
    let (found, ps) := peek ['|'] ps
    if found then
      let (right, ps) ← parsepipe n (gettoken ps).ps
      return (pipecmd cmd right, ps)
    else return (cmd, ps)

def parseline (n : Nat) (ps : List Char) : Except Error (Cmd (List Char) × List Char) :=
  parsepipe n ps

def parsecmd (s : List Char) : Except Error (Cmd (List Char)) := do
  let (cmd, s) ← parseline (s.length + 1) s
  let (_, s) := peek [] s
  if s ≠ [] then .error (.leftovers s) else return cmd

end Laboratorio.Shell.Lab02
