import Laboratorio.Shell.Lab02

/-!
# `getcmd` and `main` of `lab-02/sh.c`

`fgets` is that of the C standard.  The standard input has no NUL, so that a read that has stored
something never leaves a NUL in `buf[0]`, and the string in `buf` is all that has been read.  The
prompt is left out, and `fork1` makes a child.

The child shares the open file of the standard input with the shell.  It may read from it, and its
`exit` moves the offset of a regular file back to what its own copy of the buffer has not consumed, so
that the shell reads lines again.  `child buf stdin` is what is left of the input once the child for
`buf` is gone, and `LeavesInput` says that it is what was left before.
-/

namespace Laboratorio.Shell.Lab02

open List

/-- `sizeof(buf)` in `main`. -/
def NBUF : Nat := 100

/-- What `fgets` stores if there is room for `n` characters, and what is left of the input. -/
def fgets : (n : Nat) → (stdin : List Char) → List Char × List Char
  | 0, s => ([], s)
  | _ + 1, [] => ([], [])
  | n + 1, c :: s =>
    if c = '\n' then ([c], s)
    else
      let (buf, s) := fgets n s
      (c :: buf, s)

/-- The string in `buf`, or `none` for -1. -/
def getcmd (stdin : List Char) : Option (List Char) × List Char :=
  let (buf, stdin) := fgets (NBUF - 1) stdin
  if deref buf = NUL then (none, stdin) else (some buf, stdin)

inductive Action where
  | chdir (path : List Char)
  /-- A child that calls `runcmd(parsecmd(buf))`. -/
  | child (buf : List Char)
  deriving DecidableEq, Repr

def cd : List Char := ['c', 'd', ' ']

/-- One turn of the loop of `main`; a `cd` loses its last character, whatever it is. -/
def turn (buf : List Char) : Action :=
  if cd <+: buf then .chdir (buf.dropLast.drop 3) else .child buf

/-- What is left of the input after the turn: `chdir` does not touch it. -/
def turnInput (child : List Char → List Char → List Char) (buf stdin : List Char) : List Char :=
  if cd <+: buf then stdin else child buf stdin

/-- The loop of `main`, with `n` turns at most; `none` if that is not enough. -/
def mainLoop (child : List Char → List Char → List Char) : (n : Nat) → List Char →
    Option (List Action)
  | 0, _ => none
  | n + 1, stdin =>
    match getcmd stdin with
    | (none, _) => some []
    | (some buf, stdin) => (mainLoop child n (turnInput child buf stdin)).map (turn buf :: ·)

def main (child : List Char → List Char → List Char) (stdin : List Char) : Option (List Action) :=
  mainLoop child (stdin.length + 1) stdin

/-- The children leave the standard input of the shell alone. -/
def LeavesInput (child : List Char → List Char → List Char) : Prop :=
  ∀ buf stdin, child buf stdin = stdin

/-! ## What should happen -/

/-- The lines of the input with their newlines. -/
def lines : List Char → List (List Char)
  | [] => []
  | c :: s =>
    if c = '\n' then [c] :: lines s
    else
      match lines s with
      | [] => [[c]]
      | l :: ls => (c :: l) :: ls

/-- The line without its newline. -/
def chomp (l : List Char) : List Char := if l.getLast? = some '\n' then l.dropLast else l

/-- The action for a line. -/
def action (l : List Char) : Action :=
  if cd <+: l then .chdir (chomp (l.drop 3)) else .child l

variable {s l : List Char} {ls : List (List Char)} {n : Nat}
  {child : List Char → List Char → List Char}

theorem lines_flatten (s : List Char) : (lines s).flatten = s := by
  induction s with
  | nil => rfl
  | cons c s ih =>
    unfold lines
    split
    · rw [flatten_cons, ih]
      rfl
    · split
      · rename_i hnil
        rw [hnil] at ih
        simp [← ih]
      · rename_i l ls hcons
        rw [hcons] at ih
        rw [← ih]
        rfl

/-- A line has a newline at its end or nowhere, and at its end if it is not the last one. -/
inductive FirstLine : List Char → List Char → Prop where
  | newline (rest : List Char) : FirstLine ['\n'] rest
  | last {c : Char} (hc : c ≠ '\n') : FirstLine [c] []
  | cons {c : Char} {l rest : List Char} (hc : c ≠ '\n') (h : FirstLine l rest) : FirstLine (c :: l) rest

theorem firstLine_of_lines (h : lines s = l :: ls) : FirstLine l ls.flatten := by
  induction s generalizing l with
  | nil => cases h
  | cons c s ih =>
    unfold lines at h
    split at h
    · rename_i hc
      obtain ⟨rfl, rfl⟩ := List.cons.inj h
      rw [hc]
      exact .newline _
    · rename_i hc
      split at h
      · obtain ⟨rfl, rfl⟩ := List.cons.inj h
        exact .last hc
      · rename_i l' ls' hcons
        obtain ⟨rfl, rfl⟩ := List.cons.inj h
        exact .cons hc (ih hcons)

theorem FirstLine.lines_eq {rest : List Char} (h : FirstLine l rest) : lines (l ++ rest) = l :: lines rest := by
  induction h with
  | newline rest => rfl
  | last hc => simp [lines, hc]
  | cons hc h ih => rw [cons_append, lines, if_neg hc, ih]

/-- A line that fits is read as a whole. -/
theorem FirstLine.fgets_short {rest : List Char} (h : FirstLine l rest) (hn : l.length ≤ n) :
    fgets n (l ++ rest) = (l, rest) := by
  induction h generalizing n with
  | newline rest =>
    obtain ⟨n, rfl⟩ := Nat.exists_eq_succ_of_ne_zero (Nat.ne_of_gt hn)
    rfl
  | last hc =>
    obtain ⟨n, rfl⟩ := Nat.exists_eq_succ_of_ne_zero (Nat.ne_of_gt hn)
    simp only [append_nil, fgets, if_neg hc]
    cases n with
    | zero => rfl
    | succ n => rfl
  | cons hc h ih =>
    obtain ⟨n, rfl⟩ := Nat.exists_eq_succ_of_ne_zero (Nat.ne_of_gt (Nat.zero_lt_of_lt hn))
    rw [cons_append, fgets, if_neg hc, ih (Nat.le_of_succ_le_succ hn)]

/-- A line that is too long is cut, and the rest of it is the next line. -/
theorem FirstLine.fgets_long {rest : List Char} (h : FirstLine l rest) (hn : n < l.length) :
    fgets n (l ++ rest) = (l.take n, l.drop n ++ rest) ∧ FirstLine (l.drop n) rest := by
  induction h generalizing n with
  | newline rest =>
    obtain rfl : n = 0 := Nat.lt_one_iff.1 hn
    exact ⟨rfl, .newline _⟩
  | last hc =>
    obtain rfl : n = 0 := Nat.lt_one_iff.1 hn
    exact ⟨rfl, .last hc⟩
  | @cons c l rest hc h ih =>
    cases n with
    | zero => exact ⟨rfl, .cons hc h⟩
    | succ n =>
      obtain ⟨hread, hline⟩ := ih (Nat.lt_of_succ_lt_succ hn)
      refine ⟨?_, hline⟩
      rw [cons_append, fgets, if_neg hc, hread]
      rfl

theorem FirstLine.ne_nil {rest : List Char} (h : FirstLine l rest) : l ≠ [] := by
  cases h <;> exact cons_ne_nil _ _

/-- A `cd` with a newline, or with nothing behind it. -/
def Closed (l : List Char) : Prop := cd <+: l → l.getLast? = some '\n' ∨ l = cd

/-- The last character of a `cd` is dropped as if it were a newline. -/
theorem turn_eq_action (l : List Char) : turn l = action l ↔ Closed l := by
  unfold turn action Closed
  by_cases hcd : cd <+: l
  · obtain ⟨t, rfl⟩ := hcd
    rw [if_pos (prefix_append ..), if_pos (prefix_append ..), Action.chdir.injEq]
    have hdrop : (cd ++ t).drop 3 = t := rfl
    rw [hdrop]
    rcases eq_nil_or_concat t with rfl | ⟨t, c, rfl⟩
    · simp [chomp, cd]
    · have hlast : (cd ++ (t ++ [c])).getLast? = some c := by
        rw [← append_assoc, getLast?_concat]
      have hne : cd ++ (t ++ [c]) ≠ cd := by simp
      have hdrop' : (cd ++ t).drop 3 = t := rfl
      rw [concat_eq_append, hlast, ← append_assoc, dropLast_concat, hdrop', chomp,
        getLast?_concat, append_assoc]
      simp only [Option.some.injEq, hne, or_false, prefix_append, forall_const]
      by_cases hc : c = '\n'
      · simp [hc]
      · simp [hc]
  · simp [hcd]

theorem getcmd_of_read {rest : List Char} (hread : fgets (NBUF - 1) s = (l, rest)) (hl : l ≠ [])
    (hnul : NUL ∉ l) : getcmd s = (some l, rest) := by
  obtain ⟨c, t, rfl⟩ := exists_cons_of_ne_nil hl
  have hc : c ≠ NUL := fun h => hnul (h ▸ mem_cons_self)
  unfold getcmd
  rw [hread]
  exact if_neg hc

theorem LeavesInput.turnInput_eq (h : LeavesInput child) (buf stdin : List Char) :
    turnInput child buf stdin = stdin := by
  unfold turnInput
  rw [h, ite_self]

theorem mainLoop_turn {rest : List Char} {acts : List Action} (hchild : LeavesInput child)
    (hget : getcmd s = (some l, rest)) (hacts : mainLoop child n rest = some acts) :
    mainLoop child (n + 1) s = some (turn l :: acts) := by
  unfold mainLoop
  rw [hget]
  dsimp only
  rw [hchild.turnInput_eq, hacts]
  rfl

/-- The actions of the loop are those for the lines if all lines fit and are closed; if one does not
fit, there are more of them. -/
theorem mainLoop_lines (hchild : LeavesInput child) (hnul : NUL ∉ s) (hn : s.length < n) :
    ∃ acts, mainLoop child n s = some acts ∧ (lines s).length ≤ acts.length ∧
    (acts = (lines s).map action ↔ ∀ l ∈ lines s, l.length < NBUF ∧ Closed l) := by
  induction n generalizing s with
  | zero => omega
  | succ n ih =>
    cases hs : lines s with
    | nil =>
      have hnil : s = [] := by
        rw [← lines_flatten s, hs]
        rfl
      subst hnil
      exact ⟨[], rfl, Nat.le_refl _, by simp⟩
    | cons l ls =>
      have hline := firstLine_of_lines hs
      obtain rfl : s = l ++ ls.flatten := by
        rw [← lines_flatten s, hs]
        rfl
      have hrest : lines ls.flatten = ls :=
        (List.cons.inj (hline.lines_eq.symm.trans hs)).2
      have hl := length_pos_iff.2 hline.ne_nil
      have hN : NBUF = 100 := rfl
      rw [length_append] at hn
      have hnul' : NUL ∉ l ∧ NUL ∉ ls.flatten := not_or.1 (mt mem_append.2 hnul)
      by_cases hfit : l.length ≤ NBUF - 1
      · -- the line is one turn of the loop
        obtain ⟨acts, hacts, hlen, hiff⟩ := ih hnul'.2 (by omega)
        rw [hrest] at hlen hiff
        have hget := getcmd_of_read (hline.fgets_short hfit) hline.ne_nil hnul'.1
        refine ⟨turn l :: acts, mainLoop_turn hchild hget hacts, Nat.succ_le_succ hlen, ?_⟩
        rw [map_cons, List.cons.injEq, turn_eq_action, hiff, forall_mem_cons]
        exact and_congr_left fun _ => ⟨fun h => ⟨by omega, h⟩, fun h => h.2⟩
      · -- the rest of the line is left to the next turn
        obtain ⟨hread, hline'⟩ := hline.fgets_long (n := NBUF - 1) (by omega)
        have htake : l.take (NBUF - 1) ≠ [] := by
          rw [← length_pos_iff, length_take]
          omega
        have hget := getcmd_of_read hread htake fun h => hnul'.1 (mem_of_mem_take h)
        have hsub : NUL ∉ l.drop (NBUF - 1) ++ ls.flatten := by
          rw [mem_append]
          exact not_or.2 ⟨fun h => hnul'.1 (mem_of_mem_drop h), hnul'.2⟩
        obtain ⟨acts, hacts, hlen, -⟩ := ih hsub (by
          rw [length_append, length_drop]
          omega)
        rw [hline'.lines_eq, hrest, length_cons] at hlen
        refine ⟨_, mainLoop_turn hchild hget hacts, ?_, iff_of_false (fun h => ?_) fun h => ?_⟩
        · rw [length_cons, length_cons]
          omega
        · have := congrArg List.length h
          rw [length_map, length_cons, length_cons] at this
          omega
        · have := (h l mem_cons_self).1
          omega

/-- **One action per line, if the lines fit.**  For every input without NUL that the children leave
alone the program ends, and it has done exactly one action per line, `chdir` or a child for that
line, if and only if every line fits into `buf` with its newline, and no `cd` with a path is left
without a newline. -/
theorem main_iff (stdin : List Char) (h : NUL ∉ stdin) (hchild : LeavesInput child) :
    ∃ acts, main child stdin = some acts ∧ (acts = (lines stdin).map action ↔
      ∀ l ∈ lines stdin, l.length < NBUF ∧ (cd <+: l → l.getLast? = some '\n' ∨ l = cd)) := by
  obtain ⟨acts, hacts, -, hiff⟩ := mainLoop_lines hchild h (Nat.lt_succ_self _)
  exact ⟨acts, hacts, hiff⟩

theorem main_three_lines : ∃ acts,
    main (fun _ s => s) ['c', 'd', ' ', 'a', '\n', 'l', 's', '\n', 'w'] = some acts ∧
    acts = [.chdir ['a'], .child ['l', 's', '\n'], .child ['w']] := by
  obtain ⟨acts, hacts, hiff⟩ :=
    main_iff ['c', 'd', ' ', 'a', '\n', 'l', 's', '\n', 'w'] (by decide) fun _ _ => rfl
  exact ⟨acts, hacts, hiff.2 (by decide)⟩

/-- The `a` is taken for the newline. -/
theorem main_cd_at_eof : main (fun _ s => s) ['c', 'd', ' ', 'a'] = some [.chdir []] ∧
    (lines ['c', 'd', ' ', 'a']).map action = [.chdir ['a']] := by
  decide

end Laboratorio.Shell.Lab02
