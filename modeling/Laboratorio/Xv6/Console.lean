import Laboratorio.Lib.Ring

/-!
# The console input of `xv6/console.c`

`consoleintr` holds `cons.lock` for a whole batch of characters.  `consoleread` gives it up only in
`sleep`, so a step of a process is what it does up to the next `sleep` or up to its return.  A process
may be woken at any time; `kill` only sets its flag.  What `consputc` shows and the process listing of
`^P` are left out.  A negative size reads nothing, as 0 does.

The state records what has been committed, which characters have been copied to which process, and
how the calls of `consoleread` have ended.
-/

namespace Laboratorio.Xv6.Console

open Laboratorio.Lib Function List

def INPUT_BUF : Nat := 128

structure Input where
  buf : Nat → UInt8
  r : UInt32
  w : UInt32
  e : UInt32

/-- `C('D')` -/
def ctrlD : UInt8 := 4

/-- `C('H')` -/
def ctrlH : UInt8 := 8

/-- `C('P')` -/
def ctrlP : UInt8 := 16

/-- `C('U')` -/
def ctrlU : UInt8 := 21

/-- `'\x7f'` -/
def del : UInt8 := 127

def newline : UInt8 := 10

def carriageReturn : UInt8 := 13

abbrev Pid := Nat

/-- A process in `consoleread`, with `n` bytes to go. -/
structure Reader where
  target : Nat
  n : Nat
  dst : List UInt8

/-- Why a call of `consoleread` has ended. -/
inductive Why where
  | size
  | newline
  | eof
  | killed
  deriving DecidableEq, Repr

/-- A call that has ended, and what it has copied. -/
structure Return where
  pid : Pid
  dst : List UInt8
  why : Why

structure State where
  input : Input
  reader : Pid → Option Reader
  killed : Pid → Bool
  committed : List UInt8
  delivered : List (Pid × UInt8)
  returns : List Return

/-- The character with this index. -/
def Input.at (i : Input) (k : UInt32) : UInt8 := i.buf (k.toNat % INPUT_BUF)

/-- The characters from index `a` up to index `b`. -/
def Input.chars (i : Input) (a b : UInt32) : List UInt8 :=
  (List.range (b - a).toNat).map fun k => i.at (a + UInt32.ofNat k)

/-! ## `consoleintr` -/

/-- The loop of `^U`, with `n` characters to go at most. -/
def killLoop : (n : Nat) → Input → Input
  | 0, i => i
  | n + 1, i =>
    if i.e ≠ i.w ∧ i.at (i.e - 1) ≠ newline then killLoop n { i with e := i.e - 1 } else i

/-- `input.buf[input.e++ % INPUT_BUF] = c` -/
def Input.store (i : Input) (c : UInt8) : Input :=
  { i with buf := update i.buf (i.e.toNat % INPUT_BUF) c, e := i.e + 1 }

/-- `input.w = input.e` -/
def State.commit (s : State) : State :=
  { s with
    input := { s.input with w := s.input.e }
    committed := s.committed ++ s.input.chars s.input.w s.input.e }

/-- The case `default`. -/
def typed (s : State) (c : UInt8) : State :=
  if c ≠ 0 ∧ (s.input.e - s.input.r).toNat < INPUT_BUF then
    let c := if c = carriageReturn then newline else c
    let s := { s with input := s.input.store c }
    if c = newline ∨ c = ctrlD ∨ s.input.e = s.input.r + UInt32.ofNat INPUT_BUF then s.commit else s
  else s

/-- One turn of the loop of `consoleintr`. -/
def intrChar (s : State) (c : UInt8) : State :=
  if c = ctrlP then s
  else if c = ctrlU then
    { s with input := killLoop (s.input.e - s.input.w).toNat s.input }
  else if c = ctrlH ∨ c = del then
    if s.input.e ≠ s.input.w then { s with input := { s.input with e := s.input.e - 1 } } else s
  else typed s c

def consoleintr (s : State) (cs : List UInt8) : State := cs.foldl intrChar s

/-! ## `consoleread` -/

/-- `consoleread` returns. -/
def State.finish (s : State) (p : Pid) (dst : List UInt8) (why : Why) : State :=
  { s with reader := update s.reader p none, returns := s.returns ++ [⟨p, dst, why⟩] }

/-- `input.r++` -/
def State.advance (s : State) : State := { s with input := { s.input with r := s.input.r + 1 } }

/-- `*dst++ = c` -/
def State.deliver (s : State) (p : Pid) (c : UInt8) : State :=
  { s with delivered := s.delivered ++ [(p, c)] }

/-- The loop of `consoleread` up to `sleep` or the return. -/
def readLoop (p : Pid) (target : Nat) : (n : Nat) → (dst : List UInt8) → State → State
  | 0, dst, s => s.finish p dst .size
  | n + 1, dst, s =>
    if s.input.r = s.input.w then
      if s.killed p then s.finish p dst .killed
      else { s with reader := update s.reader p (some ⟨target, n + 1, dst⟩) }
    else
      let c := s.input.at s.input.r
      if c = ctrlD then (if n + 1 < target then s else s.advance).finish p dst .eof
      else if c = newline then (s.advance.deliver p c).finish p (dst ++ [c]) .newline
      else readLoop p target n (dst ++ [c]) (s.advance.deliver p c)

inductive Op where
  | consoleintr (cs : List UInt8)
  | consoleread (p : Pid) (n : Int)
  /-- A process that is asleep in `consoleread` is woken. -/
  | wake (p : Pid)
  | kill (p : Pid)

/-- A process that is asleep makes no call, and one that is not asleep is not woken. -/
def step (s : State) : Op → State
  | .consoleintr cs => consoleintr s cs
  | .consoleread p n =>
    match s.reader p with
    | none => readLoop p n.toNat n.toNat [] s
    | some _ => s
  | .wake p =>
    match s.reader p with
    | none => s
    | some q => readLoop p q.target q.n q.dst s
  | .kill p => { s with killed := update s.killed p true }

def start : State where
  input := ⟨fun _ => 0, 0, 0, 0⟩
  reader := fun _ => none
  killed := fun _ => false
  committed := []
  delivered := []
  returns := []

/-! ## The books -/

/-- `out` has been read, and `line` has been typed and not been committed.  The indices count these
characters modulo `2 ^ 32`, and those that have not been read are in their cells. -/
structure Books (i : Input) (out committed line : List UInt8) : Prop where
  r : i.r.toNat = out.length % 2 ^ 32
  w : i.w.toNat = committed.length % 2 ^ 32
  e : i.e.toNat = (committed ++ line).length % 2 ^ 32
  read : out <+: committed
  room : (committed ++ line).length ≤ out.length + INPUT_BUF
  cells : Holds (fun k => (committed ++ line).getD k 0) INPUT_BUF i.buf out.length
    (committed ++ line).length

variable {i : Input} {out committed line : List UInt8} {c : UInt8} {s : State} {p : Pid}

theorem input_buf_dvd : INPUT_BUF ∣ 2 ^ 32 := by decide

theorem Books.read_le (h : Books i out committed line) : out.length ≤ committed.length :=
  h.read.length_le

theorem Books.lengths (h : Books i out committed line) : out.length ≤ committed.length ∧
    committed.length + line.length ≤ out.length + 128 :=
  ⟨h.read_le, length_append ▸ h.room⟩

theorem Books.size_eq (h : Books i out committed line) :
    (i.e - i.r).toNat = (committed ++ line).length - out.length := by
  obtain ⟨hread, hroom⟩ := h.lengths
  rw [length_append]
  refine toNat_sub_of_counts h.r ?_ (by omega) (by omega)
  rw [h.e, length_append]

theorem Books.pending_eq (h : Books i out committed line) :
    (i.w - i.r).toNat = committed.length - out.length := by
  obtain ⟨hread, hroom⟩ := h.lengths
  exact toNat_sub_of_counts h.r h.w hread (by omega)

theorem Books.line_eq (h : Books i out committed line) : (i.e - i.w).toNat = line.length := by
  obtain ⟨hread, hroom⟩ := h.lengths
  rw [toNat_sub_of_counts h.w h.e (by rw [length_append]; omega)
    (by rw [length_append]; omega), length_append]
  omega

theorem Books.empty_iff (h : Books i out committed line) : i.r = i.w ↔ out = committed := by
  obtain ⟨hread, hroom⟩ := h.lengths
  rw [counts_eq_iff h.r h.w hread (by omega)]
  exact ⟨fun hlen => h.read.eq_of_length hlen, fun heq => congrArg _ heq⟩

theorem Books.line_nil_iff (h : Books i out committed line) : i.e = i.w ↔ line = [] := by
  obtain ⟨hread, hroom⟩ := h.lengths
  rw [eq_comm, counts_eq_iff h.w h.e (by rw [length_append]; omega)
    (by rw [length_append]; omega), length_append, ← length_eq_zero_iff]
  omega

theorem Books.at_eq (h : Books i out committed line) {a : UInt32} {k : Nat}
    (ha : a.toNat = k % 2 ^ 32) (hout : out.length ≤ k) (hk : k < (committed ++ line).length) :
    some (i.at a) = (committed ++ line)[k]? := by
  unfold Input.at
  rw [count_mod input_buf_dvd ha, h.cells k hout hk]
  simp only [getD_eq_getElem?_getD, getElem?_eq_getElem hk, Option.getD_some]

theorem Books.chars_eq (h : Books i out committed line) {a b : UInt32} {k l : Nat}
    (ha : a.toNat = k % 2 ^ 32) (hb : (b - a).toNat = l) (hout : out.length ≤ k)
    (hl : k + l ≤ (committed ++ line).length) :
    i.chars a b = ((committed ++ line).drop k).take l := by
  unfold Input.chars
  rw [hb]
  refine ext_getElem? fun j => ?_
  by_cases hj : j < l
  · rw [getElem?_map, getElem?_range hj, Option.map_some, getElem?_take_of_lt hj,
      getElem?_drop, h.at_eq (count_add j ha) (by omega) (by omega)]
  · rw [getElem?_eq_none (by simpa using hj),
      getElem?_eq_none (by rw [length_take]; omega)]

/-- The characters that have been committed and not been read. -/
def State.pending (s : State) : List UInt8 := s.input.chars s.input.r s.input.w

theorem Books.chars_pending (h : Books i out committed line) :
    committed = out ++ i.chars i.r i.w := by
  have hread := h.read_le
  rw [h.chars_eq h.r h.pending_eq (Nat.le_refl _) (by rw [length_append]; omega)]
  obtain ⟨rest, rfl⟩ := h.read
  rw [append_assoc, drop_left, length_append, Nat.add_sub_cancel_left, take_left]

theorem Books.chars_line (h : Books i out committed line) : i.chars i.w i.e = line := by
  rw [h.chars_eq h.w h.line_eq h.read_le (by rw [length_append]), drop_left,
    take_length]

theorem Books.store (h : Books i out committed line)
    (hroom : (committed ++ line).length < out.length + INPUT_BUF) (c : UInt8) :
    Books (i.store c) out committed (line ++ [c]) := by
  have hlen : (committed ++ (line ++ [c])).length = (committed ++ line).length + 1 := by
    rw [← append_assoc, length_append, length_singleton]
  refine ⟨h.r, h.w, ?_, h.read, by omega, ?_⟩
  · rw [hlen]
    exact count_succ h.e
  · have hcells : Holds (fun k => (committed ++ (line ++ [c])).getD k 0) INPUT_BUF i.buf out.length
        (committed ++ line).length := by
      refine h.cells.congr fun k _ hk => ?_
      rw [← append_assoc, getD_append _ _ _ _ hk]
    have hlast : (committed ++ (line ++ [c])).getD (committed ++ line).length 0 = c := by
      rw [← append_assoc, getD_append_right _ _ _ _ (Nat.le_refl _), Nat.sub_self]
      rfl
    have hwrite := hcells.write hroom
    rw [hlast, ← count_mod input_buf_dvd h.e] at hwrite
    rw [hlen]
    exact hwrite

theorem Books.commit (h : Books i out committed line) :
    Books { i with w := i.e } out (committed ++ line) [] := by
  refine ⟨h.r, h.e, ?_, h.read.trans (prefix_append ..), ?_, ?_⟩
  · rw [append_nil]
    exact h.e
  · rw [append_nil]
    exact h.room
  · rw [append_nil]
    exact h.cells

theorem Books.erase (h : Books i out committed (line ++ [c])) :
    Books { i with e := i.e - 1 } out committed line := by
  have hlen : (committed ++ (line ++ [c])).length = (committed ++ line).length + 1 := by
    rw [← append_assoc, length_append, length_singleton]
  have hroom := h.room
  refine ⟨h.r, h.w, ?_, h.read, by omega, ?_⟩
  · refine count_pred ?_
    rw [← hlen]
    exact h.e
  · refine (h.cells.mono (by omega)).congr fun k _ hk => ?_
    rw [← append_assoc, getD_append _ _ _ _ hk]

theorem Books.take (h : Books i out (out ++ c :: committed) line) :
    i.at i.r = c ∧ Books { i with r := i.r + 1 } (out ++ [c]) (out ++ c :: committed) line := by
  have hroom := h.room
  have hlen : (out ++ [c]).length = out.length + 1 := by
    rw [length_append, length_singleton]
  constructor
  · have := h.at_eq h.r (Nat.le_refl _) (by simp)
    simpa using this
  · refine ⟨?_, h.w, h.e, ⟨committed, by simp⟩, by omega, ?_⟩
    · rw [hlen]
      exact count_succ h.r
    · rw [hlen]
      exact h.cells.drop

/-! ## The calls keep the books -/

/-- What has been copied to process `p`. -/
def State.copied (s : State) (p : Pid) : List UInt8 :=
  (s.delivered.filter (·.1 = p)).map Prod.snd

/-- What the calls of process `p` have copied that have ended. -/
def State.returned (s : State) (p : Pid) : List UInt8 :=
  (s.returns.filter (·.pid = p)).flatMap (·.dst)

/-- What the call that process `p` sleeps in has copied. -/
def State.current (s : State) (p : Pid) : List UInt8 :=
  match s.reader p with
  | none => []
  | some q => q.dst

/-- The calls that have ended with a `^D` and nothing else. -/
def State.eofs (s : State) : List Return := s.returns.filter fun q => q.why = .eof ∧ q.dst = []

/-- `cur` is what the calls have copied that have not ended. -/
structure Inv (s : State) (cur : Pid → List UInt8) (out line : List UInt8) : Prop where
  books : Books s.input out s.committed line
  delivered : s.delivered.map Prod.snd = out.filter (· ≠ ctrlD)
  eofs : s.eofs.length = (out.filter (· = ctrlD)).length
  copied : ∀ p, s.copied p = s.returned p ++ cur p
  readers : ∀ p q, s.reader p = some q → q.dst.length + q.n = q.target

variable {cur : Pid → List UInt8} {dst rest : List UInt8} {why : Why} {n target : Nat}

theorem returned_finish (s : State) (p : Pid) (dst : List UInt8) (why : Why) (q : Pid) :
    (s.finish p dst why).returned q = s.returned q ++ if q = p then dst else [] := by
  unfold State.returned State.finish
  rw [filter_append, flatMap_append]
  by_cases hq : q = p
  · simp [hq]
  · simp [hq, Ne.symm hq]

theorem Inv.finish_readers (h : Inv s cur out line) (dst : List UInt8) (why : Why) (q : Pid)
    (x : Reader) (hx : (s.finish p dst why).reader q = some x) : x.dst.length + x.n = x.target := by
  by_cases hq : q = p
  · have : update s.reader p none q = some x := hx
    rw [hq, update_self] at this
    cases this
  · have : update s.reader p none q = some x := hx
    rw [update_of_ne hq] at this
    exact h.readers q x this

theorem Inv.finish_copied (h : Inv s cur out line) (why : Why) (q : Pid) :
    s.copied q = (s.finish p (cur p) why).returned q ++ update cur p [] q := by
  rw [h.copied q, returned_finish]
  by_cases hq : q = p
  · rw [hq, update_self, if_pos rfl, append_nil]
  · rw [update_of_ne hq, if_neg hq, append_nil]

theorem Inv.finish (h : Inv s cur out line) (p : Pid) (why : Why)
    (hwhy : ¬ (why = .eof ∧ cur p = [])) :
    Inv (s.finish p (cur p) why) (update cur p []) out line := by
  refine ⟨h.books, h.delivered, ?_, h.finish_copied why, h.finish_readers (cur p) why⟩
  have heofs : (s.finish p (cur p) why).eofs = s.eofs := by
    unfold State.eofs State.finish
    rw [filter_append]
    simp [hwhy]
  rw [heofs]
  exact h.eofs

/-- A call ends because the first thing it has seen is a `^D`. -/
theorem Inv.finish_eof (h : Inv s cur out line) (hp : cur p = [])
    (hc : s.committed = out ++ ctrlD :: rest) :
    Inv (s.advance.finish p [] .eof) (update cur p []) (out ++ [ctrlD]) line := by
  have hbooks := h.books
  rw [hc] at hbooks
  refine ⟨?_, ?_, ?_, fun q => ?_, h.finish_readers [] .eof⟩
  · show Books _ _ s.committed _
    rw [hc]
    exact hbooks.take.2
  · show s.delivered.map Prod.snd = _
    rw [h.delivered, filter_append]
    simp
  · have heofs : (s.advance.finish p [] .eof).eofs = s.eofs ++ [⟨p, [], .eof⟩] := by
      unfold State.eofs State.finish
      rw [filter_append]
      rfl
    rw [heofs, length_append, h.eofs, filter_append, length_append]
    rfl
  · have := h.finish_copied (p := p) .eof q
    rw [hp] at this
    exact this

theorem Inv.deliver (h : Inv s cur out line) (hc : s.committed = out ++ c :: rest)
    (hne : c ≠ ctrlD) : Inv (s.advance.deliver p c) (update cur p (cur p ++ [c]))
      (out ++ [c]) line := by
  have hbooks := h.books
  rw [hc] at hbooks
  refine ⟨?_, ?_, ?_, fun q => ?_, h.readers⟩
  · show Books _ _ s.committed _
    rw [hc]
    exact hbooks.take.2
  · show (s.delivered ++ [(p, c)]).map Prod.snd = _
    rw [map_append, h.delivered, filter_append]
    simp [hne]
  · show s.eofs.length = _
    rw [h.eofs, filter_append]
    simp [hne]
  · show ((s.delivered ++ [(p, c)]).filter (·.1 = q)).map Prod.snd = s.returned q ++ _
    rw [filter_append, map_append]
    have hq := h.copied q
    unfold State.copied at hq
    rw [hq]
    by_cases hqp : q = p
    · rw [hqp, update_self]
      simp
    · rw [update_of_ne hqp]
      simp [Ne.symm hqp]

theorem current_finish (s : State) (p : Pid) (dst : List UInt8) (why : Why) (q : Pid) :
    (s.finish p dst why).current q = if q = p then [] else s.current q := by
  unfold State.current State.finish
  by_cases hq : q = p
  · simp [hq]
  · simp [hq]

theorem Inv.of_finish {t : State} (h : Inv (t.finish p dst why) (update cur p []) out line)
    (hcur : ∀ q, q ≠ p → cur q = t.current q) :
    Inv (t.finish p dst why) (t.finish p dst why).current out line := by
  have heq : update cur p [] = (t.finish p dst why).current := by
    funext q
    rw [current_finish]
    by_cases hq : q = p
    · rw [hq, update_self, if_pos rfl]
    · rw [update_of_ne hq, if_neg hq, hcur q hq]
  rwa [heq] at h

theorem Inv.next (h : Inv s cur out line) (hne : s.input.r ≠ s.input.w) :
    ∃ rest, s.committed = out ++ s.input.at s.input.r :: rest := by
  obtain ⟨tail, htail⟩ := h.books.read
  cases tail with
  | nil =>
    rw [append_nil] at htail
    exact absurd (h.books.empty_iff.2 htail) hne
  | cons c rest =>
    have hbooks := h.books
    rw [← htail] at hbooks
    refine ⟨rest, ?_⟩
    rw [hbooks.take.1]
    exact htail.symm

theorem readLoop_inv (h : Inv s cur out line) (hp : cur p = dst)
    (hcur : ∀ q, q ≠ p → cur q = s.current q) (hn : dst.length + n = target) :
    ∃ out', out <+: out' ∧ (readLoop p target n dst s).committed = s.committed ∧
      Inv (readLoop p target n dst s) (readLoop p target n dst s).current out' line := by
  induction n generalizing s cur out dst with
  | zero =>
    subst hp
    exact ⟨out, prefix_rfl, rfl, (h.finish p .size (by simp)).of_finish hcur⟩
  | succ n ih =>
    subst hp
    unfold readLoop
    by_cases hempty : s.input.r = s.input.w
    · rw [if_pos hempty]
      by_cases hkilled : s.killed p
      · rw [if_pos hkilled]
        exact ⟨out, prefix_rfl, rfl, (h.finish p .killed (by simp)).of_finish hcur⟩
      · rw [if_neg hkilled]
        refine ⟨out, prefix_rfl, rfl, h.books, h.delivered, h.eofs, fun q => ?_,
          fun q x hx => ?_⟩
        · have hcurrent : State.current { s with
              reader := update s.reader p (some ⟨target, n + 1, cur p⟩) } q = cur q := by
            unfold State.current
            by_cases hq : q = p
            · simp [hq]
            · have := hcur q hq
              unfold State.current at this
              simp [hq, this]
          rw [hcurrent]
          exact h.copied q
        · have hx : update s.reader p (some ⟨target, n + 1, cur p⟩) q = some x := hx
          by_cases hq : q = p
          · rw [hq, update_self] at hx
            rw [← Option.some.inj hx]
            exact hn
          · rw [update_of_ne hq] at hx
            exact h.readers q x hx
    · rw [if_neg hempty]
      dsimp only
      obtain ⟨rest, hrest⟩ := h.next hempty
      generalize s.input.at s.input.r = c at hrest
      by_cases hD : c = ctrlD
      · rw [if_pos hD]
        subst hD
        by_cases hlt : n + 1 < target
        · -- the `^D` is left for the next call
          rw [if_pos hlt]
          have hne : cur p ≠ [] := by
            intro hnil
            rw [hnil, length_nil] at hn
            omega
          exact ⟨out, prefix_rfl, rfl, (h.finish p .eof (by simp [hne])).of_finish hcur⟩
        · rw [if_neg hlt]
          have hnil : cur p = [] := length_eq_zero_iff.1 (by omega)
          refine ⟨out ++ [ctrlD], prefix_append .., rfl, ?_⟩
          rw [hnil]
          exact (h.finish_eof hnil hrest).of_finish hcur
      · rw [if_neg hD]
        have hdeliver := h.deliver (p := p) hrest hD
        have hcur' : ∀ q, q ≠ p → update cur p (cur p ++ [c]) q =
            (s.advance.deliver p c).current q := by
          intro q hq
          rw [update_of_ne hq]
          exact hcur q hq
        by_cases hline : c = newline
        · rw [if_pos hline]
          have hfinish := hdeliver.finish p .newline (by simp)
          rw [update_self] at hfinish
          exact ⟨out ++ [c], prefix_append .., rfl, hfinish.of_finish hcur'⟩
        · rw [if_neg hline]
          obtain ⟨out', hout', hcommitted, hinv⟩ := ih hdeliver (update_self ..) hcur'
            (by rw [length_append, length_singleton]; omega)
          exact ⟨out', (prefix_append ..).trans hout', hcommitted, hinv⟩

/-! ## Typing -/

theorem Books.erase_of_ne (h : Books i out committed line) (hne : i.e ≠ i.w) :
    ∃ line', Books { i with e := i.e - 1 } out committed line' := by
  rcases eq_nil_or_concat line with rfl | ⟨line', c, rfl⟩
  · exact absurd (h.line_nil_iff.2 rfl) hne
  · rw [concat_eq_append] at h
    exact ⟨line', h.erase⟩

theorem Books.killLoop (h : Books i out committed line) (n : Nat) :
    ∃ line', Books (killLoop n i) out committed line' := by
  induction n generalizing i line with
  | zero => exact ⟨line, h⟩
  | succ n ih =>
    unfold Console.killLoop
    split
    · rename_i hcond
      obtain ⟨line', h'⟩ := h.erase_of_ne hcond.1
      exact ih h'
    · exact ⟨line, h⟩

/-- Only the ring, and what has been committed, changes. -/
structure Typed (s t : State) : Prop where
  reader : t.reader = s.reader
  delivered : t.delivered = s.delivered
  returns : t.returns = s.returns
  committed : s.committed <+: t.committed

theorem Inv.typed {t : State} {line' : List UInt8} (h : Inv s cur out line) (ht : Typed s t)
    (hbooks : Books t.input out t.committed line') : Inv t cur out line' := by
  refine ⟨hbooks, ?_, ?_, fun p => ?_, fun p q hq => h.readers p q ?_⟩
  · rw [ht.delivered]
    exact h.delivered
  · unfold State.eofs
    rw [ht.returns]
    exact h.eofs
  · unfold State.copied State.returned
    rw [ht.delivered, ht.returns]
    exact h.copied p
  · rw [← ht.reader]
    exact hq

theorem typed_inv (h : Inv s cur out line) (c : UInt8) :
    ∃ line', Typed s (typed s c) ∧ Inv (typed s c) cur out line' := by
  unfold Console.typed
  split
  · rename_i hcond
    dsimp only
    generalize (if c = carriageReturn then newline else c) = c'
    have hroom : (s.committed ++ line).length < out.length + INPUT_BUF := by
      have := hcond.2
      rw [h.books.size_eq] at this
      omega
    have hstore := h.books.store hroom c'
    split
    · have hcommit := hstore.commit
      rw [← hstore.chars_line] at hcommit
      have htyped : Typed s (State.commit { s with input := s.input.store c' }) :=
        ⟨rfl, rfl, rfl, prefix_append ..⟩
      exact ⟨[], htyped, h.typed htyped hcommit⟩
    · exact ⟨_, ⟨rfl, rfl, rfl, prefix_rfl⟩, h.typed ⟨rfl, rfl, rfl, prefix_rfl⟩ hstore⟩
  · exact ⟨line, ⟨rfl, rfl, rfl, prefix_rfl⟩, h⟩

theorem intrChar_inv (h : Inv s cur out line) (c : UInt8) :
    ∃ line', Typed s (intrChar s c) ∧ Inv (intrChar s c) cur out line' := by
  have hsame : Typed s s := ⟨rfl, rfl, rfl, prefix_rfl⟩
  unfold intrChar
  split
  · exact ⟨line, hsame, h⟩
  split
  · obtain ⟨line', hbooks⟩ := h.books.killLoop (s.input.e - s.input.w).toNat
    exact ⟨line', ⟨rfl, rfl, rfl, prefix_rfl⟩, h.typed ⟨rfl, rfl, rfl, prefix_rfl⟩ hbooks⟩
  split
  · split
    · rename_i hne
      obtain ⟨line', hbooks⟩ := h.books.erase_of_ne hne
      exact ⟨line', ⟨rfl, rfl, rfl, prefix_rfl⟩, h.typed ⟨rfl, rfl, rfl, prefix_rfl⟩ hbooks⟩
    · exact ⟨line, hsame, h⟩
  · exact typed_inv h c

theorem consoleintr_inv (h : Inv s cur out line) (cs : List UInt8) :
    ∃ line', Typed s (consoleintr s cs) ∧ Inv (consoleintr s cs) cur out line' := by
  induction cs generalizing s line with
  | nil => exact ⟨line, ⟨rfl, rfl, rfl, prefix_rfl⟩, h⟩
  | cons c cs ih =>
    obtain ⟨line1, ht1, h1⟩ := intrChar_inv h c
    obtain ⟨line2, ht2, h2⟩ := ih h1
    exact ⟨line2, ⟨ht2.reader.trans ht1.reader, ht2.delivered.trans ht1.delivered,
      ht2.returns.trans ht1.returns, ht1.committed.trans ht2.committed⟩, h2⟩

/-! ## Runs -/

theorem step_inv (h : Inv s s.current out line) (op : Op) : ∃ out' line', out <+: out' ∧
    s.committed <+: (step s op).committed ∧ Inv (step s op) (step s op).current out' line' := by
  have hsame : ∃ out' line', out <+: out' ∧ s.committed <+: s.committed ∧
      Inv s s.current out' line' := ⟨out, line, prefix_rfl, prefix_rfl, h⟩
  cases op with
  | consoleintr cs =>
    obtain ⟨line', ht, h'⟩ := consoleintr_inv h cs
    refine ⟨out, line', prefix_rfl, ht.committed, ?_⟩
    have hcurrent : (step s (.consoleintr cs)).current = s.current := by
      funext p
      unfold State.current
      show (match (consoleintr s cs).reader p with | none => [] | some q => q.dst) = _
      rw [ht.reader]
    rw [hcurrent]
    exact h'
  | consoleread p n =>
    cases hr : s.reader p with
    | some q =>
      have hstep : step s (.consoleread p n) = s := by simp only [step, hr]
      rw [hstep]
      exact hsame
    | none =>
      have hstep : step s (.consoleread p n) = readLoop p n.toNat n.toNat [] s := by
        simp only [step, hr]
      have hp : s.current p = [] := by
        unfold State.current
        rw [hr]
      obtain ⟨out', hout, hcommitted, h'⟩ :=
        readLoop_inv (n := n.toNat) h hp (fun _ _ => rfl) (Nat.zero_add _)
      rw [hstep]
      exact ⟨out', line, hout, hcommitted ▸ prefix_rfl, h'⟩
  | wake p =>
    cases hr : s.reader p with
    | none =>
      have hstep : step s (.wake p) = s := by simp only [step, hr]
      rw [hstep]
      exact hsame
    | some q =>
      have hstep : step s (.wake p) = readLoop p q.target q.n q.dst s := by simp only [step, hr]
      have hp : s.current p = q.dst := by
        unfold State.current
        rw [hr]
      obtain ⟨out', hout, hcommitted, h'⟩ :=
        readLoop_inv h hp (fun _ _ => rfl) (h.readers p q hr)
      rw [hstep]
      exact ⟨out', line, hout, hcommitted ▸ prefix_rfl, h'⟩
  | kill p =>
    exact ⟨out, line, prefix_rfl, prefix_rfl, h.books, h.delivered, h.eofs, h.copied,
      h.readers⟩

/-- The state after these steps. -/
def runs (s : State) (ops : List Op) : State := ops.foldl step s

theorem start_inv : Inv start start.current [] [] :=
  ⟨⟨rfl, rfl, rfl, prefix_rfl, Nat.zero_le _, nofun⟩, rfl, rfl, fun _ => rfl, nofun⟩

theorem runs_inv (h : Inv s s.current out line) (ops : List Op) : ∃ out' line', out <+: out' ∧
    s.committed <+: (runs s ops).committed ∧ Inv (runs s ops) (runs s ops).current out' line' := by
  induction ops generalizing s out line with
  | nil => exact ⟨out, line, prefix_rfl, prefix_rfl, h⟩
  | cons op ops ih =>
    obtain ⟨out1, line1, hout1, hc1, h1⟩ := step_inv h op
    obtain ⟨out2, line2, hout2, hc2, h2⟩ := ih h1
    exact ⟨out2, line2, hout1.trans hout2, hc1.trans hc2, h2⟩

/-- What the line discipline promises of a state, where `out` has been read. -/
structure Discipline (s : State) (out : List UInt8) : Prop where
  committed_le : s.input.w - s.input.r ≤ s.input.e - s.input.r
  size_le : s.input.e - s.input.r ≤ UInt32.ofNat INPUT_BUF
  /-- What has been committed has been read or is still there. -/
  kept : s.committed = out ++ s.pending
  delivered : s.delivered.map Prod.snd = out.filter (· ≠ ctrlD)
  /-- Every process has what its calls have copied. -/
  copied : ∀ p, s.copied p = s.returned p ++ s.current p
  /-- A `^D` that has been read has ended a call that has copied nothing. -/
  eofs : s.eofs.length = (out.filter (· = ctrlD)).length

theorem Inv.discipline (h : Inv s s.current out line) : Discipline s out := by
  have hread := h.books.read_le
  have hroom := h.books.room
  refine ⟨?_, ?_, h.books.chars_pending, h.delivered, h.copied, h.eofs⟩
  · rw [UInt32.le_iff_toNat_le, h.books.pending_eq, h.books.size_eq, length_append]
    omega
  · have hsize : (UInt32.ofNat INPUT_BUF).toNat = INPUT_BUF := rfl
    rw [UInt32.le_iff_toNat_le, h.books.size_eq, hsize]
    omega

/-- **The line discipline of the console.**  In every run the indices are in order, and what is read
is what has been committed, in order and once, with a `^D` only ending a call; and later nothing that
has been committed is altered, or erased before it is read. -/
theorem console_discipline (ops more : List Op) : ∃ out out',
    Discipline (runs start ops) out ∧ Discipline (runs start (ops ++ more)) out' ∧ out <+: out' ∧
      (runs start ops).committed <+: (runs start (ops ++ more)).committed := by
  obtain ⟨out, line, -, -, h⟩ := runs_inv start_inv ops
  obtain ⟨out', line', hout, hc, h'⟩ := runs_inv h more
  have happend : runs start (ops ++ more) = runs (runs start ops) more := foldl_append
  rw [happend]
  exact ⟨out, out', h.discipline, h'.discipline, hout, hc⟩

/-- A line, a `^D`, and three reads. -/
example : (runs start [.consoleread 1 9, .consoleintr [104, 105, 8, 13, 106, 4], .wake 1,
    .consoleread 1 9, .consoleread 1 9]).returns.map (fun q => (q.dst, q.why)) =
    [([104, 10], .newline), ([106], .eof), ([], .eof)] := by
  decide

end Laboratorio.Xv6.Console
