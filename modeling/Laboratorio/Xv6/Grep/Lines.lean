import Laboratorio.Lib.Bytes
import Laboratorio.Xv6.Grep.Match

/-!
# The line buffer of `xv6/grep.c`

`buf` holds 1024 bytes, of which the first `m` are the beginning of a line that has not ended yet.
Every turn of the outer loop reads a chunk behind them, takes the lines off the front, and moves what
is left to the front of the buffer.  The input is the list of the chunks that `read` returns before it
returns 0, and `Reads` says that none is empty or longer than what was asked for.

When a turn has found no newline at all, `p == buf`, and the source sets `m = 0`: the buffer is
dropped.  `kept` is what stays, and `turn_spec` the whole turn on lists.
-/

namespace Laboratorio.Xv6.Grep

open Laboratorio.Lib Bytes Function List

def nl : UInt8 := '\n'.toUInt8

/-- `sizeof(buf)`. -/
def BUF : Nat := 1024

/-- `strchr(buf + p, c)` as an index, looking at `n` bytes at most. -/
def strchr (buf : Nat → UInt8) (c : UInt8) : (n p : Nat) → Option Nat
  | 0, _ => none
  | n + 1, p => if buf p = 0 then none else if buf p = c then some p else strchr buf c n (p + 1)

/-- The string that starts at `buf + p`, of `n` bytes at most. -/
def cstr (buf : Nat → UInt8) : (n p : Nat) → List UInt8
  | 0, _ => []
  | n + 1, p => if buf p = 0 then [] else buf p :: cstr buf n (p + 1)

/-- `memmove(buf + dst, buf + src, n)` of `xv6/ulib.c`, byte after byte. -/
def memmove : (n dst src : Nat) → (Nat → UInt8) → Nat → UInt8
  | 0, _, _, buf => buf
  | n + 1, dst, src, buf => memmove n (dst + 1) (src + 1) (update buf dst (buf src))

/-- Whether `match(re, text)` returns 1. -/
def matched (re text : List UInt8) : Bool := match_ (re.length + text.length + 2) re text == some true

structure St where
  buf : Nat → UInt8
  m : Nat
  /-- The calls of `write`. -/
  out : List (List UInt8)

/-- The inner loop from `p` on, with `n` turns at most; it ends with `p` behind the last newline. -/
def lineLoop (re : List UInt8) : (n p : Nat) → St → Nat × St
  | 0, p, s => (p, s)
  | n + 1, p, s =>
    match strchr s.buf nl (BUF - p) p with
    | none => (p, s)
    | some q =>
      let buf := update s.buf q 0
      if matched re (cstr buf (BUF - p) p) then
        let buf := update buf q nl
        lineLoop re n (q + 1) { s with buf := buf, out := s.out ++ [slice buf p (q + 1 - p)] }
      else lineLoop re n (q + 1) { s with buf := buf }

/-- `read` has returned `chunk`: `m += n; buf[m] = '\0'`. -/
def fill (s : St) (chunk : List UInt8) : St :=
  { s with
    buf := update (splice s.buf s.m chunk) (s.m + chunk.length) 0
    m := s.m + chunk.length }

/-- The end of a turn, when the inner loop has left `p`. -/
def shift (p : Nat) (s : St) : St :=
  let m := if p = 0 then 0 else s.m
  if 0 < m then { s with m := m - p, buf := memmove (m - p) 0 p s.buf } else { s with m := m }

/-- A turn of the outer loop. -/
def turn (re : List UInt8) (s : St) (chunk : List UInt8) : St :=
  let (p, s) := lineLoop re BUF 0 (fill s chunk)
  shift p s

/-- The buffer is static. -/
def St.start : St := ⟨fun _ => 0, 0, []⟩

/-- What `grep` writes. -/
def grep (re : List UInt8) (chunks : List (List UInt8)) : List (List UInt8) :=
  (chunks.foldl (turn re) .start).out

/-- Every chunk is a possible answer to `read(fd, buf + m, sizeof(buf) - m - 1)`. -/
def Reads (re : List UInt8) : St → List (List UInt8) → Prop
  | _, [] => True
  | s, chunk :: chunks =>
    chunk ≠ [] ∧ chunk.length ≤ BUF - s.m - 1 ∧ Reads re (turn re s chunk) chunks

/-! ## Lines -/

/-- The lines that a newline ends. -/
def terminated (t : List UInt8) : List (List UInt8) := (t.splitOn nl).dropLast

/-- What is behind the last newline. -/
def behind (t : List UInt8) : List UInt8 := (t.splitOn nl).getLastD []

/-- The lines that match, each with its newline. -/
def matching (re t : List UInt8) : List (List UInt8) :=
  ((terminated t).filter (matched re)).map (· ++ [nl])

/-- What a turn leaves in the buffer. -/
def kept (t : List UInt8) : List UInt8 := if nl ∈ t then behind t else []

variable {re t line : List UInt8} {buf : Nat → UInt8} {c : UInt8} {n p i : Nat}

/-- The bytes of a line without a newline. -/
theorem beq_nl_of_notMem (h : nl ∉ t) : ∀ b ∈ t, (b == nl) = false := by
  intro b hb
  rw [beq_eq_false_iff_ne]
  rintro rfl
  exact h hb

theorem splitOn_of_notMem (h : nl ∉ t) : t.splitOn nl = [t] :=
  splitOnP_eq_singleton (beq_nl_of_notMem h)

theorem splitOn_line (h : nl ∉ line) : (line ++ nl :: t).splitOn nl = line :: t.splitOn nl :=
  splitOnP_append_cons_of_forall_mem (beq_nl_of_notMem h) nl (by simp) t

theorem splitOn_ne_nil (t : List UInt8) : t.splitOn nl ≠ [] := splitOnP_ne_nil _ _

@[simp] theorem terminated_of_notMem (h : nl ∉ t) : terminated t = [] := by
  simp [terminated, splitOn_of_notMem h]

@[simp] theorem behind_of_notMem (h : nl ∉ t) : behind t = t := by
  simp [behind, splitOn_of_notMem h]

theorem terminated_line (h : nl ∉ line) : terminated (line ++ nl :: t) = line :: terminated t := by
  rw [terminated, splitOn_line h, dropLast_cons_of_ne_nil (splitOn_ne_nil t), terminated]

theorem behind_line (h : nl ∉ line) : behind (line ++ nl :: t) = behind t := by
  obtain ⟨a, l, hal⟩ := exists_cons_of_ne_nil (splitOn_ne_nil t)
  rw [behind, splitOn_line h, behind, hal]
  rfl

/-- A text is its first line and the rest, until no newline is left. -/
theorem lines_induction {motive : List UInt8 → Prop} (last : ∀ t, nl ∉ t → motive t)
    (line : ∀ l t, nl ∉ l → motive t → motive (l ++ nl :: t)) (t : List UInt8) : motive t := by
  by_cases h : nl ∈ t
  · obtain ⟨l, t', rfl, hl⟩ := eq_append_cons_of_mem h
    exact line l t' hl (lines_induction last line t')
  · exact last t h
  termination_by t.length
  decreasing_by
    subst_vars
    simp
    omega

/-! ## One turn -/

/-- The string `t` stands at `buf + p`. -/
def At (buf : Nat → UInt8) (p : Nat) : List UInt8 → Prop
  | [] => buf p = 0
  | b :: t => buf p = b ∧ At buf (p + 1) t

theorem At.congr {buf' : Nat → UInt8} (h : At buf p t) (heq : ∀ i, p ≤ i → i ≤ p + t.length → buf' i = buf i) :
    At buf' p t := by
  induction t generalizing p with
  | nil => exact (heq p (by omega) (by simp)).trans h
  | cons b t ih =>
    rw [length_cons] at heq
    exact ⟨(heq p (by omega) (by omega)).trans h.1, ih h.2 fun i hp hi => heq i (by omega) (by omega)⟩

theorem At.drop (h : At buf p (line ++ t)) : At buf (p + line.length) t := by
  induction line generalizing p with
  | nil => exact h
  | cons b line ih =>
    have := ih h.2
    rwa [length_cons, Nat.add_comm line.length, ← Nat.add_assoc]

/-- A line becomes a string when the byte behind it becomes 0. -/
theorem At.take (h : At buf p (line ++ t)) : At (update buf (p + line.length) 0) p line := by
  induction line generalizing p with
  | nil => simp [At]
  | cons b line ih =>
    have := ih h.2
    rw [length_cons, Nat.add_comm line.length, ← Nat.add_assoc]
    refine ⟨?_, this⟩
    rw [update_of_ne (by omega)]
    exact h.1

theorem At.slice (h : At buf p (line ++ t)) : slice buf p line.length = line := by
  refine slice_eq fun i hi => ?_
  induction line generalizing p i with
  | nil => exact absurd hi (Nat.not_lt_zero i)
  | cons b line ih =>
    cases i with
    | zero => simpa using h.1.symm
    | succ i =>
      have := ih h.2 i (by simpa using hi)
      rw [getElem?_cons_succ, this, Nat.add_assoc, Nat.add_comm 1]

theorem strchr_none (h : At buf p t) (ht : Str t) (hnl : nl ∉ t) (n : Nat) : strchr buf nl n p = none := by
  induction t generalizing p n with
  | nil =>
    cases n with
    | zero => rfl
    | succ n => exact if_pos h
  | cons b t ih =>
    cases n with
    | zero => rfl
    | succ n =>
      obtain ⟨hb, hrest⟩ := h
      have hne : b ≠ nl := fun hb => hnl (hb ▸ mem_cons_self)
      unfold strchr
      rw [hb, if_neg ht.head, if_neg hne]
      exact ih hrest ht.tail (fun h => hnl (mem_cons_of_mem _ h)) n

theorem strchr_some (h : At buf p (line ++ nl :: t)) (ht : Str line) (hnl : nl ∉ line)
    (hn : line.length < n) : strchr buf nl n p = some (p + line.length) := by
  induction line generalizing p n with
  | nil =>
    obtain ⟨n, rfl⟩ := Nat.exists_eq_add_of_lt hn
    have hne : nl ≠ 0 := by decide
    unfold strchr
    rw [h.1, if_neg hne, if_pos rfl]
    rfl
  | cons b line ih =>
    obtain ⟨hb, hrest⟩ := h
    have hne : b ≠ nl := fun hb => hnl (hb ▸ mem_cons_self)
    obtain ⟨n, rfl⟩ : ∃ k, n = k + 1 := Nat.exists_eq_succ_of_ne_zero (by omega)
    rw [length_cons] at hn ⊢
    unfold strchr
    rw [hb, if_neg ht.head, if_neg hne,
      ih hrest ht.tail (fun h => hnl (mem_cons_of_mem _ h)) (by omega), Nat.add_comm line.length,
      Nat.add_assoc]

theorem cstr_eq (h : At buf p t) (ht : Str t) (hn : t.length < n) : cstr buf n p = t := by
  induction t generalizing p n with
  | nil =>
    obtain ⟨n, rfl⟩ := Nat.exists_eq_add_of_lt hn
    exact if_pos h
  | cons b t ih =>
    obtain ⟨n, rfl⟩ : ∃ k, n = k + 1 := Nat.exists_eq_succ_of_ne_zero (by omega)
    rw [length_cons] at hn
    obtain ⟨hb, hrest⟩ := h
    unfold cstr
    rw [hb, if_neg ht.head, ih hrest ht.tail (by omega)]

/-- Moving bytes down, byte after byte. -/
theorem memmove_eq (n : Nat) : ∀ {dst src : Nat} (buf : Nat → UInt8), dst ≤ src → ∀ i,
    memmove n dst src buf i = if dst ≤ i ∧ i < dst + n then buf (src + (i - dst)) else buf i := by
  induction n with
  | zero =>
    intro dst src buf _ i
    rw [if_neg (by omega)]
    rfl
  | succ n ih =>
    intro dst src buf h i
    unfold memmove
    rw [ih _ (by omega)]
    by_cases hi : i = dst
    · subst hi
      rw [if_neg (by omega), if_pos (by omega), update_self, Nat.sub_self]
      rfl
    · by_cases hin : dst ≤ i ∧ i < dst + (n + 1)
      · rw [if_pos (by omega), if_pos hin, update_of_ne (by omega)]
        congr 1
        omega
      · rw [if_neg (by omega), if_neg hin, update_of_ne hi]

theorem terminated_length (t : List UInt8) : (terminated t).length ≤ t.length := by
  induction t using lines_induction with
  | last t h => simp [h]
  | line l t h ih =>
    rw [terminated_line h, length_cons, length_append, length_cons]
    omega

theorem matching_line (h : nl ∉ line) : matching re (line ++ nl :: t) =
    (if matched re line then [line ++ [nl]] else []) ++ matching re t := by
  unfold matching
  rw [terminated_line h, filter_cons]
  split <;> rfl

theorem matching_of_notMem (h : nl ∉ t) : matching re t = [] := by simp [matching, h]

theorem length_behind_le (t : List UInt8) : (behind t).length ≤ t.length := by
  induction t using lines_induction with
  | last t h => rw [behind_of_notMem h]
  | line l t h ih =>
    rw [behind_line h, length_append, length_cons]
    omega

/-- The inner loop on the text `t` at `buf + p`.  By induction on its lines: the turn for the first
one changes no byte behind it. -/
theorem lineLoop_spec (re t : List UInt8) : ∀ {n p : Nat} {s : St}, At s.buf p t → Str t →
    p + t.length < BUF → (terminated t).length ≤ n → ∃ buf,
      lineLoop re n p s = (p + (t.length - (behind t).length), ⟨buf, s.m, s.out ++ matching re t⟩) ∧
      At buf (p + (t.length - (behind t).length)) (behind t) := by
  induction t using lines_induction with
  | last t h =>
    intro n p s hat ht _ _
    refine ⟨s.buf, ?_, ?_⟩
    · rw [behind_of_notMem h, matching_of_notMem h, Nat.sub_self, append_nil]
      cases n with
      | zero => rfl
      | succ n =>
        unfold lineLoop
        rw [strchr_none hat ht h]
        rfl
    · rw [behind_of_notMem h, Nat.sub_self]
      exact hat
  | line l t h ih =>
    intro n p s hat ht hlen hn
    have hl : Str l := fun hm => ht (mem_append_left _ hm)
    have ht' : Str t := fun hm => ht (mem_append_right _ (mem_cons_of_mem _ hm))
    rw [length_append, length_cons] at hlen
    rw [terminated_line h, length_cons] at hn
    obtain ⟨n, rfl⟩ : ∃ k, n = k + 1 := Nat.exists_eq_succ_of_ne_zero (by omega)
    have hq : strchr s.buf nl (BUF - p) p = some (p + l.length) := strchr_some hat hl h (by omega)
    have hline : cstr (update s.buf (p + l.length) 0) (BUF - p) p = l :=
      cstr_eq hat.take hl (by omega)
    have hbehind := length_behind_le t
    have hp : p + l.length + 1 + (t.length - (behind t).length) =
        p + ((l ++ nl :: t).length - (behind (l ++ nl :: t)).length) := by
      rw [behind_line h, length_append, length_cons]
      omega
    have hrest : At s.buf (p + l.length + 1) t := hat.drop.2
    rw [← hp, behind_line h, matching_line h]
    unfold lineLoop
    rw [hq]
    simp only [hline]
    by_cases hm : matched re l
    · -- the newline is written back, so the buffer is as it was
      have hnl : s.buf (p + l.length) = nl := hat.drop.1
      have hbuf : update (update s.buf (p + l.length) 0) (p + l.length) nl = s.buf := by
        rw [update_idem, ← hnl, update_eq_self]
      have hwrite : slice s.buf p (p + l.length + 1 - p) = l ++ [nl] := by
        have hlen' : p + l.length + 1 - p = (l ++ [nl]).length := by
          rw [length_append, length_singleton]
          omega
        rw [hlen']
        exact At.slice (t := t) (by simpa using hat)
      rw [if_pos hm, if_pos hm, hbuf, hwrite, ← append_assoc]
      exact ih hrest ht' (by omega) (by omega)
    · rw [if_neg hm, if_neg hm]
      refine ih (hrest.congr fun i hi _ => ?_) ht' (by omega) (by omega)
      exact update_of_ne (by omega) ..

/-- The buffer holds `c`, a line that has not ended. -/
structure Holds (s : St) (c : List UInt8) : Prop where
  m : s.m = c.length
  bytes : slice s.buf 0 c.length = c
  str : Str c
  line : nl ∉ c

theorem at_of_slice (h : slice buf p t.length = t) (hend : buf (p + t.length) = 0) : At buf p t := by
  induction t generalizing p with
  | nil => exact hend
  | cons b t ih =>
    rw [length_cons, Nat.add_comm, slice_add] at h
    rw [length_cons, Nat.add_comm t.length, ← Nat.add_assoc] at hend
    have hcons : slice buf p 1 = [buf p] := by simp [slice]
    rw [hcons, singleton_append, List.cons.injEq] at h
    exact ⟨h.1, ih h.2 hend⟩

theorem str_append {s t : List UInt8} (hs : Str s) (ht : Str t) : Str (s ++ t) := fun h =>
  (mem_append.1 h).elim hs ht

theorem notMem_behind (t : List UInt8) : nl ∉ behind t := by
  induction t using lines_induction with
  | last t h => rwa [behind_of_notMem h]
  | line l t h ih => rwa [behind_line h]

theorem str_behind (ht : Str t) : Str (behind t) := by
  induction t using lines_induction with
  | last t h => rwa [behind_of_notMem h]
  | line l t h ih =>
    rw [behind_line h]
    exact ih fun hm => ht (mem_append_right _ (mem_cons_of_mem _ hm))

/-- A newline was found exactly if `p` has moved. -/
theorem length_behind_lt_iff (t : List UInt8) : (behind t).length < t.length ↔ nl ∈ t := by
  induction t using lines_induction with
  | last t h => simp [h]
  | line l t h ih =>
    rw [behind_line h]
    have := length_behind_le t
    simp
    omega

theorem Holds.at_fill {s : St} {c chunk : List UInt8} (hs : Holds s c) :
    At (fill s chunk).buf 0 (c ++ chunk) := by
  have hm := hs.m
  show At (update (splice s.buf s.m chunk) (s.m + chunk.length) 0) 0 (c ++ chunk)
  refine at_of_slice ?_ ?_
  · rw [length_append, slice_add, Nat.zero_add, hm]
    congr 1
    · refine Eq.trans (slice_congr fun i hi => ?_) hs.bytes
      rw [update_of_ne (by omega), splice_outside (by omega)]
    · refine Eq.trans (slice_congr fun i hi => ?_) (slice_splice s.buf c.length chunk)
      exact update_of_ne (by omega) ..
  · rw [Nat.zero_add, length_append, hm, update_self]

/-- The end of a turn: the text `t` has been looked through. -/
theorem holds_shift {s : St} (hstr : Str t) (hne : t ≠ []) (hm : s.m = t.length)
    (hat : At s.buf (t.length - (behind t).length) (behind t)) :
    Holds (shift (t.length - (behind t).length) s) (kept t) := by
  have hpos : 0 < t.length := length_pos_of_ne_nil hne
  by_cases hnl : nl ∈ t
  · have hlt := (length_behind_lt_iff t).2 hnl
    have hback : t.length - (t.length - (behind t).length) = (behind t).length := by omega
    have hp : t.length - (behind t).length ≠ 0 := by omega
    rw [kept, if_pos hnl]
    unfold shift
    simp only [hm, hp, if_false, hpos, if_true, hback]
    refine ⟨rfl, ?_, str_behind hstr, notMem_behind t⟩
    -- `behind t` is moved from `p` to the front
    have hslice : slice s.buf (t.length - (behind t).length) (behind t).length = behind t :=
      At.slice (t := []) (by simpa using hat)
    refine Eq.trans (map_congr_left fun i hi => ?_) hslice
    have hi := mem_range.1 hi
    show memmove _ 0 _ s.buf (0 + i) = _
    rw [memmove_eq _ _ (Nat.zero_le _), if_pos (by omega), Nat.zero_add, Nat.sub_zero]
  · rw [behind_of_notMem hnl, Nat.sub_self, kept, if_neg hnl]
    exact ⟨rfl, rfl, nofun, nofun⟩

theorem shift_out (p : Nat) (s : St) : (shift p s).out = s.out := by
  by_cases hp : p = 0 <;> by_cases hm : 0 < s.m <;> simp [shift, hp, hm]

theorem turn_spec {s : St} {c chunk : List UInt8} (re : List UInt8) (hs : Holds s c)
    (hchunk : Str chunk) (hne : chunk ≠ []) (hlen : chunk.length ≤ BUF - s.m - 1) :
    Holds (turn re s chunk) (kept (c ++ chunk)) ∧
      (turn re s chunk).out = s.out ++ matching re (c ++ chunk) := by
  have hm := hs.m
  have hpos : 0 < chunk.length := length_pos_of_ne_nil hne
  have hT : (c ++ chunk).length = s.m + chunk.length := by rw [length_append, hm]
  have hstr : Str (c ++ chunk) := str_append hs.str hchunk
  obtain ⟨buf, hloop, hat⟩ := lineLoop_spec re (c ++ chunk) (n := BUF) hs.at_fill hstr (by omega)
    ((terminated_length _).trans (by omega))
  rw [Nat.zero_add] at hloop hat
  unfold turn
  rw [hloop]
  refine ⟨holds_shift hstr (append_ne_nil_of_right_ne_nil _ hne) ?_ hat, shift_out _ _⟩
  exact hT.symm

/-! ## Whole runs -/

/-- Every `read` up to the one with the last newline delivers a newline. -/
def Whole : List (List UInt8) → Prop
  | [] => True
  | chunk :: chunks => (nl ∈ chunk ∨ nl ∉ chunks.flatten) ∧ Whole chunks

instance decidableWhole : (chunks : List (List UInt8)) → Decidable (Whole chunks)
  | [] => .isTrue trivial
  | _ :: chunks =>
    have := decidableWhole chunks
    inferInstanceAs (Decidable (_ ∧ _))

/-- What is written, on lists, when the buffer holds `c`. -/
def writes (re : List UInt8) : List UInt8 → List (List UInt8) → List (List UInt8)
  | _, [] => []
  | c, chunk :: chunks => matching re (c ++ chunk) ++ writes re (kept (c ++ chunk)) chunks

theorem grep_spec (chunks : List (List UInt8)) : ∀ {s : St} {c : List UInt8}, Holds s c →
    (∀ chunk ∈ chunks, Str chunk) → Reads re s chunks →
    (chunks.foldl (turn re) s).out = s.out ++ writes re c chunks := by
  induction chunks with
  | nil => exact fun _ _ _ => (append_nil _).symm
  | cons chunk chunks ih =>
    intro s c hs hstr ⟨hne, hlen, hreads⟩
    obtain ⟨hholds, hout⟩ := turn_spec re hs (hstr chunk mem_cons_self) hne hlen
    have := ih hholds (fun b hb => hstr b (mem_cons_of_mem _ hb)) hreads
    rw [foldl_cons, this, hout, writes, append_assoc]

theorem behind_append (s r : List UInt8) : behind (s ++ r) = behind (behind s ++ r) := by
  induction s using lines_induction with
  | last s h => rw [behind_of_notMem h]
  | line l s h ih => rw [append_assoc, cons_append, behind_line h, behind_line h, ih]

theorem behind_append_of_mem {s r : List UInt8} (hs : nl ∉ s) (hr : nl ∈ r) : behind (s ++ r) = behind r := by
  obtain ⟨l, r', rfl, hl⟩ := eq_append_cons_of_mem hr
  have hsl : nl ∉ s ++ l := by
    rw [mem_append]
    exact fun h => h.elim hs hl
  rw [← append_assoc, behind_line hsl, behind_line hl]

theorem matching_append (re s r : List UInt8) :
    matching re (s ++ r) = matching re s ++ matching re (behind s ++ r) := by
  induction s using lines_induction with
  | last s h => rw [behind_of_notMem h, matching_of_notMem h, nil_append]
  | line l s h ih =>
    rw [append_assoc, cons_append, matching_line h, matching_line h, behind_line h, ih,
      append_assoc]

theorem notMem_kept (t : List UInt8) : nl ∉ kept t := by
  unfold kept
  split
  · exact notMem_behind t
  · exact nofun

/-- If every read delivers a newline, nothing is dropped. -/
theorem writes_of_whole (chunks : List (List UInt8)) : ∀ {c : List UInt8}, nl ∉ c → Whole chunks →
    writes re c chunks = matching re (c ++ chunks.flatten) := by
  induction chunks with
  | nil =>
    intro c hc _
    rw [flatten_nil, append_nil, matching_of_notMem hc]
    rfl
  | cons chunk chunks ih =>
    intro c hc ⟨hchunk, hwhole⟩
    rw [writes, ih (notMem_kept _) hwhole, flatten_cons, ← append_assoc,
      matching_append re (c ++ chunk)]
    by_cases hnl : nl ∈ c ++ chunk
    · rw [kept, if_pos hnl]
    · -- no newline in this chunk, hence none in the rest
      have hrest : nl ∉ chunks.flatten := by
        rcases hchunk with h | h
        · exact absurd (mem_append_right c h) hnl
        · exact h
      have hall : nl ∉ behind (c ++ chunk) ++ chunks.flatten := by
        rw [behind_of_notMem hnl, mem_append]
        exact fun h => h.elim hnl hrest
      rw [kept, if_neg hnl, nil_append, matching_of_notMem hrest, matching_of_notMem hall]

/-- The empty pattern matches every line. -/
theorem matched_nil (t : List UInt8) : matched [] t = true := by
  cases t with
  | nil => rfl
  | cons b t => simp [matched, match_, matchLoop, matchhere, deref]

/-- The number of bytes written. -/
def size (out : List (List UInt8)) : Nat := (out.map List.length).sum

theorem size_append (a b : List (List UInt8)) : size (a ++ b) = size a + size b := by simp [size]

theorem size_matching_nil (t : List UInt8) : size (matching [] t) + (behind t).length = t.length := by
  induction t using lines_induction with
  | last t h => simp [matching_of_notMem h, behind_of_notMem h, size]
  | line l t h ih =>
    rw [matching_line h, matched_nil, if_pos rfl, behind_line h, size_append, Nat.add_assoc, ih,
      length_append, length_cons]
    simp [size]
    omega

theorem whole_of_notMem (chunks : List (List UInt8)) (h : nl ∉ chunks.flatten) : Whole chunks := by
  induction chunks with
  | nil => trivial
  | cons chunk chunks ih =>
    rw [flatten_cons, mem_append, not_or] at h
    exact ⟨.inr h.2, ih h.2⟩

/-- With the empty pattern every byte up to the last newline has to be written, and what is dropped
is missing. -/
theorem writes_nil_le (chunks : List (List UInt8)) : ∀ {c : List UInt8}, nl ∉ c →
    (∀ chunk ∈ chunks, chunk ≠ []) →
    size (writes [] c chunks) + (behind (c ++ chunks.flatten)).length ≤ (c ++ chunks.flatten).length ∧
    (size (writes [] c chunks) + (behind (c ++ chunks.flatten)).length = (c ++ chunks.flatten).length →
      Whole chunks) := by
  induction chunks with
  | nil =>
    intro c hc _
    simp [writes, size, behind_of_notMem hc, Whole]
  | cons chunk chunks ih =>
    intro c hc hne
    have hpos : 0 < chunk.length := length_pos_of_ne_nil (hne chunk mem_cons_self)
    have hsize := size_matching_nil (c ++ chunk)
    obtain ⟨hle, heq⟩ := ih (notMem_kept (c ++ chunk)) fun b hb => hne b (mem_cons_of_mem _ hb)
    have hlen : (c ++ chunk ++ chunks.flatten).length = (c ++ chunk).length + chunks.flatten.length :=
      length_append
    rw [writes, size_append, flatten_cons, ← append_assoc, hlen]
    by_cases hnl : nl ∈ c ++ chunk
    · have hchunk : nl ∈ chunk := (mem_append.1 hnl).resolve_left hc
      rw [kept, if_pos hnl, length_append] at hle heq
      rw [kept, if_pos hnl, behind_append (c ++ chunk)]
      exact ⟨by omega, fun h => ⟨.inl hchunk, heq (by omega)⟩⟩
    · rw [kept, if_neg hnl, nil_append] at hle heq
      rw [kept, if_neg hnl]
      rw [behind_of_notMem hnl] at hsize
      have hlost : 0 < (c ++ chunk).length := by
        rw [length_append]
        omega
      by_cases hrest : nl ∈ chunks.flatten
      · rw [behind_append_of_mem hnl hrest]
        exact ⟨by omega, fun h => absurd h (by omega)⟩
      · have hall : nl ∉ c ++ chunk ++ chunks.flatten := by
          rw [mem_append]
          exact fun h => h.elim hnl hrest
        rw [behind_of_notMem hrest] at hle
        rw [behind_of_notMem hall, hlen]
        exact ⟨by omega, fun _ => ⟨.inr hrest, whole_of_notMem chunks hrest⟩⟩

theorem holds_start : Holds .start [] := ⟨rfl, rfl, nofun, nofun⟩

/-- `Reads` on lists, for any pattern: the buffer holds `c`. -/
def Served : List UInt8 → List (List UInt8) → Prop
  | _, [] => True
  | c, chunk :: chunks =>
    chunk ≠ [] ∧ chunk.length ≤ BUF - c.length - 1 ∧ Served (kept (c ++ chunk)) chunks

instance decidableServed : (c : List UInt8) → (chunks : List (List UInt8)) → Decidable (Served c chunks)
  | _, [] => .isTrue trivial
  | c, chunk :: chunks =>
    have := decidableServed (kept (c ++ chunk)) chunks
    inferInstanceAs (Decidable (_ ∧ _ ∧ _))

theorem reads_iff (re : List UInt8) (chunks : List (List UInt8)) : ∀ {s : St} {c : List UInt8},
    Holds s c → (∀ chunk ∈ chunks, Str chunk) → (Reads re s chunks ↔ Served c chunks) := by
  induction chunks with
  | nil => exact fun _ _ => Iff.rfl
  | cons chunk chunks ih =>
    intro s c hs hstr
    unfold Reads Served
    rw [← hs.m]
    refine and_congr_right fun hne => and_congr_right fun hlen => ?_
    exact ih (turn_spec re hs (hstr chunk mem_cons_self) hne hlen).1
      fun b hb => hstr b (mem_cons_of_mem _ hb)

theorem Served.ne_nil {chunks : List (List UInt8)} : ∀ {c : List UInt8}, Served c chunks →
    ∀ chunk ∈ chunks, chunk ≠ [] := by
  induction chunks with
  | nil => exact fun _ => nofun
  | cons chunk chunks ih =>
    rintro c ⟨hne, -, hrest⟩ b hb
    rcases mem_cons.1 hb with rfl | hb
    · exact hne
    · exact ih hrest b hb

/-- **`grep` loses the beginning of a line.**  However `read` splits a text into chunks, the lines that
match are written for every pattern if and only if every `read` up to the one with the last newline
has delivered a newline: without one, the source sets `m = 0` and drops the buffer. -/
theorem grep_iff (chunks : List (List UInt8)) (hstr : ∀ chunk ∈ chunks, Str chunk)
    (hreads : ∀ re : CStr, Reads re.bytes .start chunks) :
    (∀ re : CStr, grep re.bytes chunks = matching re.bytes chunks.flatten) ↔ Whole chunks := by
  have hgrep (re : CStr) : grep re.bytes chunks = writes re.bytes [] chunks :=
    grep_spec chunks holds_start hstr (hreads re)
  simp only [hgrep]
  constructor
  · intro h
    have hserved := (reads_iff [] chunks holds_start hstr).1 (hreads ⟨[], nofun⟩)
    obtain ⟨-, heq⟩ := writes_nil_le chunks not_mem_nil hserved.ne_nil
    refine heq ?_
    rw [h ⟨[], nofun⟩, nil_append, size_matching_nil]
  · intro hwhole re
    rw [writes_of_whole chunks not_mem_nil hwhole, nil_append]

/-- Two chunks, the second with the end of a line that the first has begun. -/
theorem grep_iff_ab :
    (∀ re : CStr, grep re.bytes [[nl, 97], [98, nl]] = matching re.bytes [nl, 97, 98, nl]) ∧
      Whole [[nl, 97], [98, nl]] := by
  have hstr : ∀ chunk ∈ [[nl, 97], [98, nl]], Str chunk := by decide
  have hserved : Served [] [[nl, 97], [98, nl]] := by decide
  have hwhole : Whole [[nl, 97], [98, nl]] := by decide
  refine ⟨(grep_iff [[nl, 97], [98, nl]] hstr fun re => ?_).2 hwhole, hwhole⟩
  exact (reads_iff re.bytes _ holds_start hstr).2 hserved

/-- The line `ab` in the chunks `a` and `b\n`, and the pattern `a`: nothing is written. -/
theorem grep_drops_a :
    Reads [97] .start [[97], [98, nl]] ∧ grep [97] [[97], [98, nl]] = [] ∧
      matching [97] [97, 98, nl] = [[97, 98, nl]] := by
  have hstr : ∀ chunk ∈ [[97], [98, nl]], Str chunk := by decide
  have hserved : Served [] [[97], [98, nl]] := by decide
  exact ⟨(reads_iff [97] _ holds_start hstr).2 hserved, by decide +kernel, by decide +kernel⟩

end Laboratorio.Xv6.Grep
