import Laboratorio.Shell.Lab02
import Laboratorio.Shell.Xv6

/-!
# `runcmd` of both shells, and where redirections land

The descriptors of a process are a list with `none` for those that are closed; `open` takes the
lowest one that is closed.  `Proc.opens` says which of the next calls of `open` find their file, and
`Proc.stderr` is what has been printed.

`runcmd` stops at `execvp` or `exec`.  A redirection is `close(fd)` and then `open`: when the `open`
fails, `fd` stays closed, and the `open` of the next redirection may get it.  That happens to a `>`
behind a `<` that has failed.
-/

namespace Laboratorio.Shell

open List

/-- What a descriptor refers to: what it did before, or the file of a redirection. -/
inductive Target (σ : Type) where
  | inherited (fd : Nat)
  | opened (file : σ) (mode : List Flag)
  deriving DecidableEq, Repr

abbrev Fds (σ : Type) := List (Option (Target σ))

structure Proc (σ : Type) where
  ofile : Fds σ
  opens : List Bool
  stderr : List String

variable {σ : Type}

def Proc.close (p : Proc σ) (fd : Nat) : Proc σ := { p with ofile := p.ofile.set fd none }

/-- `open`, where `err` is printed if it returns -1. -/
def Proc.openFile (p : Proc σ) (file : σ) (mode : List Flag) (err : String) : Proc σ :=
  let p' := { p with opens := p.opens.tail }
  match p.opens.headD false, p.ofile.findIdx? Option.isNone with
  | true, some fd => { p' with ofile := p.ofile.set fd (some (.opened file mode)) }
  | _, _ => { p' with stderr := p.stderr ++ [err] }

/-- How `runcmd` ends. -/
inductive Outcome (σ : Type) where
  | exit
  | unknown
  | exec (argv : List (Option σ)) (p : Proc σ)

/-- `runcmd` of `lab-02/sh.c`, which knows no `list` and no `back`. -/
def Lab02.runcmd : Cmd (List Char) → Proc (List Char) → Outcome (List Char)
  | .exec argv, p => if argv.headD none = none then .exit else .exec argv p
  | .redir cmd file mode fd, p => runcmd cmd ((p.close fd).openFile file mode "Redir")
  | .pipe left _, p => runcmd left p
  | .list _ _, _ => .unknown
  | .back _, _ => .unknown

/-- `runcmd` of `xv6/sh.c`. -/
def Xv6.runcmd : Cmd Xv6.Span → Proc Xv6.Span → Outcome Xv6.Span
  | .exec argv, p => if argv.headD none = none then .exit else .exec argv p
  | .redir cmd file mode fd, p => runcmd cmd ((p.close fd).openFile file mode "Cannot open file\n")
  | .list left _, p => runcmd left { p with stderr := p.stderr ++ ["list not implemented\n"] }
  | .pipe left _, p => runcmd left { p with stderr := p.stderr ++ ["pipe not implemented\n"] }
  | .back cmd, p => runcmd cmd { p with stderr := p.stderr ++ ["background not implemented\n"] }

/-! ## Chains of redirections -/

/-- A redirection, and whether its `open` finds the file. -/
structure Redirect (σ : Type) where
  output : Bool
  file : σ
  ok : Bool
  deriving DecidableEq

/-- The descriptor that is meant. -/
def Redirect.fd (r : Redirect σ) : Nat := if r.output then 1 else 0

/-- The command with redirections around it, the outermost first. -/
def Lab02.chain (rs : List (Redirect (List Char))) (cmd : Cmd (List Char)) : Cmd (List Char) :=
  rs.foldr (fun r cmd => Lab02.redircmd cmd r.file (if r.output then '>' else '<')) cmd

def Lab02.mode (output : Bool) : List Flag :=
  if output then [.O_WRONLY, .O_CREAT, .O_TRUNC] else [.O_RDONLY]

def Xv6.mode (output : Bool) : List Flag := if output then [.O_WRONLY, .O_CREAT] else [.O_RDONLY]

def Xv6.chain (rs : List (Redirect Xv6.Span)) (cmd : Cmd Xv6.Span) : Cmd Xv6.Span :=
  rs.foldr (fun r cmd => Xv6.redircmd cmd r.file (Xv6.mode r.output) r.fd) cmd

/-- The process in which `runcmd` starts. -/
def Proc.start (rest : Fds σ) (rs : List (Redirect σ)) : Proc σ :=
  ⟨some (.inherited 0) :: some (.inherited 1) :: some (.inherited 2) :: rest, rs.map (·.ok), []⟩

/-- The descriptors do not cross: 0 is no file for output and 1 none for input, and the last
redirection of a descriptor, if its `open` has succeeded, is where the descriptor goes. -/
structure Straight (mode : Bool → List Flag) (rs : List (Redirect σ)) (ofile : Fds σ) : Prop where
  input : ∀ f, ofile[0]? ≠ some (some (.opened f (mode true)))
  output : ∀ f, ofile[1]? ≠ some (some (.opened f (mode false)))
  last : ∀ front r back, rs = front ++ r :: back → (∀ q ∈ back, q.output ≠ r.output) → r.ok →
    ofile[r.fd]? = some (some (.opened r.file (mode r.output)))

/-- A `<` has failed and left descriptor 0 closed. -/
def Vacant (rs : List (Redirect σ)) : Prop :=
  ∃ front r back, rs = front ++ r :: back ∧ r.output = false ∧ r.ok = false ∧
    ∀ q ∈ back, q.output = true ∧ q.ok = false

/-- A `>` gets descriptor 0 in place of a `<` that has failed, and either no `<` or no `>` follows. -/
def Crossed (rs : List (Redirect σ)) : Prop :=
  ∃ front r back, rs = front ++ r :: back ∧ Vacant front ∧ r.output = true ∧ r.ok = true ∧
    ((∀ q ∈ back, q.output = true) ∨ ∀ q ∈ back, q.output = false)

/-! ## The first two descriptors -/

/-- Descriptors 0 and 1. -/
structure Pair (σ : Type) where
  zero : Option (Target σ)
  one : Option (Target σ)

/-- What a redirection does to them. -/
def Pair.step (mode : Bool → List Flag) (d : Pair σ) (r : Redirect σ) : Pair σ :=
  if r.output then
    if r.ok then
      if d.zero = none then ⟨some (.opened r.file (mode true)), none⟩
      else ⟨d.zero, some (.opened r.file (mode true))⟩
    else ⟨d.zero, none⟩
  else ⟨if r.ok then some (.opened r.file (mode false)) else none, d.one⟩

def Pair.ofile (d : Pair σ) (c : Target σ) (rest : Fds σ) : Fds σ := d.zero :: d.one :: some c :: rest

/-- Descriptors 0 and 1 after the redirections. -/
def pair (mode : Bool → List Flag) (rs : List (Redirect σ)) : Pair σ :=
  rs.foldl (Pair.step mode) ⟨some (.inherited 0), some (.inherited 1)⟩

variable {mode : Bool → List Flag} {rs front back : List (Redirect σ)} {r : Redirect σ} {d : Pair σ}

@[simp] theorem step_input (h : r.output = false) : d.step mode r =
    ⟨if r.ok then some (.opened r.file (mode false)) else none, d.one⟩ := by
  simp [Pair.step, h]

@[simp] theorem step_output_failed (h : r.output = true) (hok : r.ok = false) :
    d.step mode r = ⟨d.zero, none⟩ := by
  simp [Pair.step, h, hok]

@[simp] theorem step_output_vacant (h : r.output = true) (hok : r.ok = true) (hd : d.zero = none) :
    d.step mode r = ⟨some (.opened r.file (mode true)), none⟩ := by
  simp [Pair.step, h, hok, hd]

@[simp] theorem step_output (h : r.output = true) (hok : r.ok = true) (hd : d.zero ≠ none) :
    d.step mode r = ⟨d.zero, some (.opened r.file (mode true))⟩ := by
  simp [Pair.step, h, hok, hd]

theorem redirect (mode : Bool → List Flag) (d : Pair σ) (c : Target σ) (rest : Fds σ) (r : Redirect σ) (opens : List Bool)
    (stderr : List String) (err : String) : ∃ stderr',
    ((⟨d.ofile c rest, r.ok :: opens, stderr⟩ : Proc σ).close r.fd).openFile r.file (mode r.output) err =
      ⟨(d.step mode r).ofile c rest, opens, stderr'⟩ := by
  obtain ⟨zero, one⟩ := d
  obtain ⟨output, file, ok⟩ := r
  cases output <;> cases ok <;> cases zero <;>
    exact ⟨_, rfl⟩

theorem pair_concat (rs : List (Redirect σ)) (r : Redirect σ) :
    pair mode (rs ++ [r]) = (pair mode rs).step mode r := by
  unfold pair
  rw [foldl_append, foldl_cons, foldl_nil]

theorem pair_append (front back : List (Redirect σ)) (r : Redirect σ) :
    pair mode (front ++ r :: back) = back.foldl (Pair.step mode) ((pair mode front).step mode r) := by
  unfold pair
  rw [foldl_append, foldl_cons]

theorem zero_of_outputs {t : Target σ} (hback : ∀ q ∈ back, q.output = true) (hd : d.zero = some t) :
    (back.foldl (Pair.step mode) d).zero = some t := by
  induction back generalizing d with
  | nil => exact hd
  | cons r back ih =>
    obtain ⟨hr, hback⟩ := forall_mem_cons.1 hback
    refine ih hback ?_
    cases hok : r.ok with
    | false =>
      rw [step_output_failed hr hok]
      exact hd
    | true =>
      rw [step_output hr hok (by rw [hd]; exact Option.some_ne_none t)]
      exact hd

theorem one_of_inputs (hback : ∀ q ∈ back, q.output = false) :
    (back.foldl (Pair.step mode) d).one = d.one := by
  induction back generalizing d with
  | nil => rfl
  | cons r back ih =>
    obtain ⟨hr, hback⟩ := forall_mem_cons.1 hback
    rw [foldl_cons, ih hback, step_input hr]

theorem vacant_concat : Vacant (rs ++ [r]) ↔
    r.ok = false ∧ (r.output = true → Vacant rs) := by
  constructor
  · rintro ⟨front, q, back, heq, hq, hok, hback⟩
    rcases eq_nil_or_concat back with rfl | ⟨back, b, rfl⟩
    · obtain ⟨rfl, hrq⟩ := append_inj' heq rfl
      obtain rfl := head_eq_of_cons_eq hrq
      refine ⟨hok, fun h => ?_⟩
      rw [h] at hq
      cases hq
    · rw [concat_eq_append, ← cons_append, ← append_assoc] at heq
      obtain ⟨rfl, hrb⟩ := append_inj' heq rfl
      obtain rfl := head_eq_of_cons_eq hrb
      refine ⟨(hback r (by simp)).2, fun _ => ⟨front, q, back, rfl, hq, hok, fun b hb => ?_⟩⟩
      exact hback b (by simp [hb])
  · rintro ⟨hok, hrs⟩
    cases hr : r.output with
    | false => exact ⟨rs, r, [], rfl, hr, hok, nofun⟩
    | true =>
      obtain ⟨front, q, back, rfl, hq, hqok, hback⟩ := hrs hr
      refine ⟨front, q, back ++ [r], by simp, hq, hqok, fun b hb => ?_⟩
      rcases mem_append.1 hb with hb | hb
      · exact hback b hb
      · rw [mem_singleton.1 hb]
        exact ⟨hr, hok⟩

theorem zero_none_iff (rs : List (Redirect σ)) : (pair mode rs).zero = none ↔ Vacant rs := by
  induction rs using reverseRecOn with
  | nil =>
    refine iff_of_false (Option.some_ne_none _) ?_
    rintro ⟨front, r, back, h, -⟩
    exact append_ne_nil_of_right_ne_nil front (cons_ne_nil r back) h.symm
  | append_singleton rs r ih =>
    rw [pair_concat, vacant_concat, ← ih]
    cases hr : r.output with
    | false =>
      rw [step_input hr]
      cases r.ok <;> simp
    | true =>
      cases hok : r.ok with
      | false =>
        rw [step_output_failed hr hok]
        simp
      | true =>
        by_cases hd : (pair mode rs).zero = none
        · rw [step_output_vacant hr hok hd]
          simp
        · rw [step_output hr hok hd]
          simp [hd]

theorem one_ne_input (hmode : mode true ≠ mode false) (rs : List (Redirect σ)) (f : σ) :
    (pair mode rs).one ≠ some (.opened f (mode false)) := by
  induction rs using reverseRecOn with
  | nil =>
    intro h
    cases h
  | append_singleton rs r ih =>
    rw [pair_concat]
    cases hr : r.output with
    | false =>
      rw [step_input hr]
      exact ih
    | true =>
      cases hok : r.ok with
      | false =>
        rw [step_output_failed hr hok]
        exact nofun
      | true =>
        by_cases hd : (pair mode rs).zero = none
        · rw [step_output_vacant hr hok hd]
          exact nofun
        · rw [step_output hr hok hd]
          intro h
          exact hmode (Target.opened.inj (Option.some.inj h)).2

theorem zero_output (hmode : mode true ≠ mode false) {f : σ}
    (h : (pair mode rs).zero = some (.opened f (mode true))) :
    ∃ front r back, rs = front ++ r :: back ∧ Vacant front ∧ r.output = true ∧ r.ok = true ∧
      ∀ q ∈ back, q.output = true := by
  induction rs using reverseRecOn with
  | nil => cases h
  | append_singleton rs r ih =>
    rw [pair_concat] at h
    cases hr : r.output with
    | false =>
      rw [step_input hr] at h
      dsimp only at h
      split at h
      · exact absurd (Target.opened.inj (Option.some.inj h)).2.symm hmode
      · cases h
    | true =>
      -- the file has come to descriptor 0 now, or it was there before
      by_cases hnew : r.ok = true ∧ (pair mode rs).zero = none
      · exact ⟨rs, r, [], rfl, (zero_none_iff rs).1 hnew.2, hr, hnew.1, nofun⟩
      · have hold : (pair mode rs).zero = some (.opened f (mode true)) := by
          cases hok : r.ok with
          | false =>
            rw [step_output_failed hr hok] at h
            exact h
          | true =>
            rw [step_output hr hok fun hd => hnew ⟨hok, hd⟩] at h
            exact h
        obtain ⟨front, q, back, rfl, hv, hq, hqok, hback⟩ := ih hold
        refine ⟨front, q, back ++ [r], by simp, hv, hq, hqok, fun b hb => ?_⟩
        rcases mem_append.1 hb with hb | hb
        · exact hback b hb
        · rw [mem_singleton.1 hb]
          exact hr

theorem straight_iff (hmode : mode true ≠ mode false) (c : Target σ) (rest : Fds σ)
    (rs : List (Redirect σ)) : Straight mode rs ((pair mode rs).ofile c rest) ↔ ¬ Crossed rs := by
  have hget0 : ((pair mode rs).ofile c rest)[0]? = some (pair mode rs).zero := rfl
  have hget1 : ((pair mode rs).ofile c rest)[1]? = some (pair mode rs).one := rfl
  constructor
  · rintro ⟨hin, -, hlast⟩ ⟨front, r, back, rfl, hv, hr, hok, hback⟩
    have hvacant : (pair mode front).zero = none := (zero_none_iff front).2 hv
    rw [pair_append, step_output_vacant hr hok hvacant] at hget0 hget1
    rcases hback with hback | hback
    · refine hin r.file ?_
      rw [pair_append, step_output_vacant hr hok hvacant, hget0,
        zero_of_outputs hback (t := .opened r.file (mode true)) rfl]
    · have hone := hlast front r back rfl (fun q hq => by rw [hback q hq, hr]; decide) hok
      rw [pair_append, step_output_vacant hr hok hvacant, Redirect.fd, if_pos hr, hget1,
        one_of_inputs hback] at hone
      cases hone
  · intro hcrossed
    refine ⟨fun f hf => ?_, fun f hf => ?_, fun front r back heq hback hok => ?_⟩
    · rw [hget0] at hf
      obtain ⟨front, r, back, heq, hv, hr, hok, hback⟩ := zero_output hmode (Option.some.inj hf)
      exact hcrossed ⟨front, r, back, heq, hv, hr, hok, .inl hback⟩
    · rw [hget1] at hf
      exact one_ne_input hmode rs f (Option.some.inj hf)
    · subst heq
      cases hr : r.output with
      | false =>
        have hback : ∀ q ∈ back, q.output = true := by
          intro q hq
          have := hback q hq
          rw [hr] at this
          exact eq_true_of_ne_false this
        have hfd : r.fd = 0 := by simp [Redirect.fd, hr]
        rw [hfd, hget0, pair_append, step_input hr, if_pos hok,
          zero_of_outputs hback (t := .opened r.file (mode false)) rfl]
      | true =>
        have hback : ∀ q ∈ back, q.output = false := by
          intro q hq
          have := hback q hq
          rw [hr] at this
          exact eq_false_of_ne_true this
        have hv : (pair mode front).zero ≠ none := by
          rw [Ne, zero_none_iff]
          exact fun hv => hcrossed ⟨front, r, back, rfl, hv, hr, hok, .inr hback⟩
        have hfd : r.fd = 1 := by simp [Redirect.fd, hr]
        rw [hfd, hget1, pair_append, step_output hr hok hv, one_of_inputs hback]

/-! ## The shells -/

theorem Lab02.runcmd_chain (rs : List (Redirect (List Char))) (d : Pair (List Char))
    (c : Target (List Char)) (rest : Fds (List Char)) (stderr : List String) (cmd : Cmd (List Char)) :
    ∃ stderr', Lab02.runcmd (Lab02.chain rs cmd) ⟨d.ofile c rest, rs.map (·.ok), stderr⟩ =
      Lab02.runcmd cmd ⟨(rs.foldl (Pair.step Lab02.mode) d).ofile c rest, [], stderr'⟩ := by
  induction rs generalizing d stderr with
  | nil => exact ⟨stderr, rfl⟩
  | cons r rs ih =>
    obtain ⟨stderr', hstep⟩ := redirect Lab02.mode d c rest r (rs.map (·.ok)) stderr "Redir"
    obtain ⟨stderr'', hrest⟩ := ih (d.step Lab02.mode r) stderr'
    refine ⟨stderr'', ?_⟩
    rw [← hstep] at hrest
    rw [foldl_cons, ← hrest]
    obtain ⟨output, file, ok⟩ := r
    cases output <;> rfl

theorem Xv6.runcmd_chain (rs : List (Redirect Xv6.Span)) (d : Pair Xv6.Span) (c : Target Xv6.Span)
    (rest : Fds Xv6.Span) (stderr : List String) (cmd : Cmd Xv6.Span) :
    ∃ stderr', Xv6.runcmd (Xv6.chain rs cmd) ⟨d.ofile c rest, rs.map (·.ok), stderr⟩ =
      Xv6.runcmd cmd ⟨(rs.foldl (Pair.step Xv6.mode) d).ofile c rest, [], stderr'⟩ := by
  induction rs generalizing d stderr with
  | nil => exact ⟨stderr, rfl⟩
  | cons r rs ih =>
    obtain ⟨stderr', hstep⟩ :=
      redirect Xv6.mode d c rest r (rs.map (·.ok)) stderr "Cannot open file\n"
    obtain ⟨stderr'', hrest⟩ := ih (d.step Xv6.mode r) stderr'
    refine ⟨stderr'', ?_⟩
    rw [← hstep] at hrest
    rw [foldl_cons, ← hrest]
    rfl

/-- **Redirections may cross.**  In both shells, for every chain of redirections around a command and
every pattern of success and failure of their `open`s, the command is run, and then the descriptors
are right if and only if no `>` has got descriptor 0 from a failed `<` for good. -/
theorem redirections_iff (rs : List (Redirect (List Char))) (rest : Fds (List Char))
    (arg : List Char) (args : List (Option (List Char))) (spans : List (Redirect Xv6.Span))
    (tail : Fds Xv6.Span) (word : Xv6.Span) (words : List (Option Xv6.Span)) :
    (∃ p, Lab02.runcmd (Lab02.chain rs (.exec (some arg :: args))) (.start rest rs) =
        .exec (some arg :: args) p ∧ (Straight Lab02.mode rs p.ofile ↔ ¬ Crossed rs)) ∧
    (∃ p, Xv6.runcmd (Xv6.chain spans (.exec (some word :: words))) (.start tail spans) =
        .exec (some word :: words) p ∧ (Straight Xv6.mode spans p.ofile ↔ ¬ Crossed spans)) := by
  constructor
  · obtain ⟨stderr, h⟩ := Lab02.runcmd_chain rs ⟨some (.inherited 0), some (.inherited 1)⟩
      (.inherited 2) rest [] (.exec (some arg :: args))
    exact ⟨_, h, straight_iff (by decide) (.inherited 2) rest rs⟩
  · obtain ⟨stderr, h⟩ := Xv6.runcmd_chain spans ⟨some (.inherited 0), some (.inherited 1)⟩
      (.inherited 2) tail [] (.exec (some word :: words))
    exact ⟨_, h, straight_iff (by decide) (.inherited 2) tail spans⟩

/-- `a > o < i` in the shell of `lab-02`, where `i` does not exist: the output file is the input. -/
theorem output_on_zero :
    let rs : List (Redirect (List Char)) := [⟨false, ['i'], false⟩, ⟨true, ['o'], true⟩]
    Lab02.parsecmd ['a', ' ', '>', ' ', 'o', ' ', '<', ' ', 'i'] =
        .ok (Lab02.chain rs (.exec (argvOf [['a']]))) ∧
      ∃ p, Lab02.runcmd (Lab02.chain rs (.exec (argvOf [['a']]))) (.start [] rs) =
          .exec (argvOf [['a']]) p ∧
        p.ofile = [some (.opened ['o'] (Lab02.mode true)), none, some (.inherited 2)] := by
  exact ⟨by decide, _, rfl, rfl⟩

end Laboratorio.Shell
