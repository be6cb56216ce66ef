import Mathlib

/-!
# Commands and scanning, common to the shells of `lab-02/sh.c` and `xv6/sh.c`

A pointer into the line is the suffix of the line that starts there, and `es` is the empty suffix:
`s < es` is `s ≠ []`, and `*s` at `es` is the terminating NUL.

`Cmd σ` is the tree that the parsers build, with strings of type `σ`: copies in one shell, pointers
into the line in the other.  An `execcmd` has `MAXARGS = 10` cells in `argv`.  While `parseexec`
runs, `cmd` keeps pointing at the exec node under the redirections that have been wrapped around it;
`Cmd.setArg` is a store through that pointer.
-/

namespace Laboratorio.Shell

inductive Flag where
  | O_RDONLY
  | O_WRONLY
  | O_CREAT
  | O_TRUNC
  deriving DecidableEq, Repr

inductive Cmd (σ : Type) where
  | exec (argv : List (Option σ))
  | redir (cmd : Cmd σ) (file : σ) (mode : List Flag) (fd : Nat)
  | pipe (left right : Cmd σ)
  | list (left right : Cmd σ)
  | back (cmd : Cmd σ)
  deriving DecidableEq, Repr

/-- How a parser gives up.  The last two are not exits of the programs: a store outside `argv`, and
a loop that has run more often than the line has characters. -/
inductive Error where
  /-- `"missing file for redirection"` -/
  | missingFile
  /-- `"syntax error"` or `"syntax"` -/
  | syntaxError
  /-- `"too many args"` -/
  | tooManyArgs
  /-- `"leftovers: %s"` -/
  | leftovers (s : List Char)
  /-- `"parseblock"` -/
  | parseblock
  /-- `"syntax - missing )"` -/
  | missingParen
  | outOfBounds
  | diverge
  deriving DecidableEq, Repr

def NUL : Char := Char.ofNat 0

def whitespace : List Char := [' ', '\t', '\r', '\n', Char.ofNat 11]

/-- `*s`. -/
def deref (s : List Char) : Char := s.headD NUL

/-- `while (s < es && strchr(whitespace, *s)) s++;` -/
def skip (strchr : List Char → Char → Bool) (s : List Char) : List Char :=
  s.dropWhile (strchr whitespace)

theorem skip_suffix (strchr : List Char → Char → Bool) (s : List Char) : skip strchr s <:+ s :=
  List.dropWhile_suffix _

/-- `peek`: the answer and the new `*ps`. -/
def peekWith (strchr : List Char → Char → Bool) (toks ps : List Char) : Bool × List Char :=
  let s := skip strchr ps
  (deref s ≠ NUL && strchr toks (deref s), s)

/-- What `gettoken` returns and what it stores through `q`, `eq` and `ps`. -/
structure Token where
  ret : Char
  q : List Char
  eq : List Char
  ps : List Char
  deriving DecidableEq, Repr

/-- `execcmd()`. -/
def execcmd {σ : Type} : Cmd σ := .exec (List.replicate 10 none)

/-- `cmd->argv[k] = v`, where `cmd` is the exec node under the redirections. -/
def Cmd.setArg {σ : Type} (k : Nat) (v : Option σ) : Cmd σ → Cmd σ
  | .exec argv => .exec (argv.set k v)
  | .redir cmd file mode fd => .redir (cmd.setArg k v) file mode fd
  | cmd => cmd

def storeArg {σ : Type} (cmd : Cmd σ) (k : Nat) (v : Option σ) : Except Error (Cmd σ) :=
  if k < 10 then .ok (cmd.setArg k v) else .error .outOfBounds

/-- `argv` with the given words, followed by nulls. -/
def argvOf {σ : Type} (ws : List σ) : List (Option σ) :=
  ws.map some ++ List.replicate (10 - ws.length) none

theorem argvOf_set_some {σ : Type} {ws : List σ} (w : σ) (h : ws.length < 10) :
    (argvOf ws).set ws.length (some w) = argvOf (ws ++ [w]) := by
  obtain ⟨k, hk⟩ : ∃ k, 10 - ws.length = k + 1 := ⟨9 - ws.length, by omega⟩
  have hk' : 10 - (ws ++ [w]).length = k := by
    rw [List.length_append, List.length_singleton]
    omega
  unfold argvOf
  rw [hk, hk', List.set_append_right _ _ (by simp)]
  simp [List.replicate_succ]

theorem argvOf_set_none {σ : Type} {ws : List σ} (h : ws.length < 10) :
    (argvOf ws).set ws.length none = argvOf ws := by
  obtain ⟨k, hk⟩ : ∃ k, 10 - ws.length = k + 1 := ⟨9 - ws.length, by omega⟩
  unfold argvOf
  rw [hk, List.set_append_right _ _ (by simp)]
  simp [List.replicate_succ]

end Laboratorio.Shell
