import Laboratorio.Lib.Front

/-!
# The matcher of `xv6/grep.c`

A C string is the list of its bytes, none of them 0, and a pointer into it is the rest of the string;
`deref s i` is `s[i]`, which is 0 at the end.  `matchhere` and `matchstar` call each other, so they
are given a number of calls that they may nest, and return nothing when it is too small.

`parse` reads a pattern as a list of items, each one letter or any number of them, and a mark for a
`$` at its end.  `Found` is the declarative meaning: some piece of the text is a word of the product
of the items' languages, at the start of the text after a `^`, and at its end before a `$`.

* `matchhere_matchstar_spec` — with as many calls as the strings have bytes, both return, and what they
  return is the meaning.
-/

namespace Laboratorio.Xv6.Grep

open Laboratorio.Lib Computability

def deref (s : List UInt8) (i : Nat) : UInt8 := s.getD i 0

mutual

/-- Search for `re` at the beginning of `text`. -/
def matchhere : (n : Nat) → (re text : List UInt8) → Option Bool
  | 0, _, _ => none
  | n + 1, re, text =>
    if deref re 0 = 0 then some true
    else if deref re 1 = '*'.toUInt8 then matchstar n (deref re 0) (re.drop 2) text
    else if deref re 0 = '$'.toUInt8 ∧ deref re 1 = 0 then some (deref text 0 == 0)
    else if deref text 0 ≠ 0 ∧ (deref re 0 = '.'.toUInt8 ∨ deref re 0 = deref text 0) then
      matchhere n (re.drop 1) (text.drop 1)
    else some false

/-- Search for `c*re` at the beginning of `text`. -/
def matchstar : (n : Nat) → (c : UInt8) → (re text : List UInt8) → Option Bool
  | 0, _, _, _ => none
  | n + 1, c, re, text =>
    match matchhere n re text with
    | none => none
    | some true => some true
    | some false =>
      if deref text 0 ≠ 0 ∧ (deref text 0 = c ∨ c = '.'.toUInt8) then matchstar n c re (text.drop 1)
      else some false

end

/-- The loop of `match`. -/
def matchLoop : (n : Nat) → (re text : List UInt8) → Option Bool
  | 0, _, _ => none
  | n + 1, re, text =>
    match matchhere n re text with
    | none => none
    | some true => some true
    | some false => if deref text 0 ≠ 0 then matchLoop n re (text.drop 1) else some false

/-- `match`, with `n` nested calls and turns. -/
def match_ (n : Nat) (re text : List UInt8) : Option Bool :=
  if deref re 0 = '^'.toUInt8 then matchhere n (re.drop 1) text else matchLoop n re text

/-! ## The meaning of a pattern -/

/-- A letter of a pattern, alone or with a `*` behind it. -/
inductive Item where
  | one (c : UInt8)
  | star (c : UInt8)
  deriving DecidableEq, Repr

/-- `.` stands for every byte, any other letter for itself. -/
def letter (c : UInt8) : Language UInt8 := letters fun b => c = '.'.toUInt8 ∨ c = b

def Item.lang : Item → Language UInt8
  | .one c => letter c
  | .star c => (letter c)∗

/-- The items of a pattern, and whether a `$` ends it. -/
def parse : List UInt8 → List Item × Bool
  | [] => ([], false)
  | [c] => if c = '$'.toUInt8 then ([], true) else ([.one c], false)
  | c :: d :: re =>
    if d = '*'.toUInt8 then (.star c :: (parse re).1, (parse re).2)
    else (.one c :: (parse (d :: re)).1, (parse (d :: re)).2)

def lang (re : List UInt8) : Language UInt8 := ((parse re).1.map Item.lang).prod

/-- The pattern without a `^` at its start. -/
def body (re : List UInt8) : List UInt8 := if deref re 0 = '^'.toUInt8 then re.drop 1 else re

/-- Some piece of the text is in the language of the pattern, where its anchors allow it. -/
def Found (re text : List UInt8) : Prop :=
  ∃ pre mid post, pre ++ (mid ++ post) = text ∧ mid ∈ lang (body re) ∧
    (deref re 0 = '^'.toUInt8 → pre = []) ∧ ((parse (body re)).2 = true → post = [])

/-- A word of the pattern stands at the beginning of the text. -/
def Here (re : List UInt8) : List UInt8 → Prop :=
  Front (lang re) fun rest => (parse re).2 = true → rest = []

variable {re text : List UInt8} {c d : UInt8} {n : Nat}

/-- The byte 0 is in no string. -/
def Str (s : List UInt8) : Prop := (0 : UInt8) ∉ s

instance (s : List UInt8) : Decidable (Str s) := inferInstanceAs (Decidable (¬ _))

theorem Str.tail (h : Str (c :: re)) : Str re := fun hm => h (List.mem_cons_of_mem _ hm)

theorem Str.head (h : Str (c :: re)) : c ≠ 0 := by
  rintro rfl
  exact h List.mem_cons_self

theorem here_nil : Here [] text := by simp [Here, lang, parse]

theorem here_star : Here (c :: '*'.toUInt8 :: re) text ↔ Front (letter c)∗ (Here re) text := by
  have hlang : lang (c :: '*'.toUInt8 :: re) = (letter c)∗ * lang re := by simp [lang, parse, Item.lang]
  have hend : (parse (c :: '*'.toUInt8 :: re)).2 = (parse re).2 := by simp [parse]
  unfold Here
  rw [hlang, hend, front_mul]

theorem here_dollar : Here ['$'.toUInt8] text ↔ text = [] := by simp [Here, lang, parse]

/-- A letter that no `*` follows and that is not the final `$`. -/
def Plain (c : UInt8) (re : List UInt8) : Prop :=
  deref re 0 ≠ '*'.toUInt8 ∧ ¬ (c = '$'.toUInt8 ∧ re = [])

theorem parse_plain (h : Plain c re) :
    parse (c :: re) = (.one c :: (parse re).1, (parse re).2) := by
  cases re with
  | nil => simp [parse, show c ≠ '$'.toUInt8 from fun hc => h.2 ⟨hc, rfl⟩]
  | cons d re => simp [parse, show d ≠ '*'.toUInt8 from h.1]

theorem here_plain (h : Plain c re) : Here (c :: re) text ↔ Front (letter c) (Here re) text := by
  have hlang : lang (c :: re) = letter c * lang re := by simp [lang, parse_plain h, Item.lang]
  have hend : (parse (c :: re)).2 = (parse re).2 := by rw [parse_plain h]
  unfold Here
  rw [hlang, hend, front_mul]

/-! ## The matcher returns the meaning -/

/-- A call has returned, and 1 exactly if `P` holds. -/
def Decides (r : Option Bool) (P : Prop) : Prop := ∃ b, r = some b ∧ (b = true ↔ P)

theorem decides_some {b : Bool} {P : Prop} (h : b = true ↔ P) : Decides (some b) P := ⟨b, rfl, h⟩

theorem Decides.congr {r : Option Bool} {P Q : Prop} (h : Decides r P) (hPQ : P ↔ Q) : Decides r Q := by
  rw [← hPQ]
  exact h

/-- The comparison of one letter, as `matchhere` makes it. -/
theorem front_letter_iff {k : List UInt8 → Prop} (ht : Str text) : Front (letter c) k text ↔
    (deref text 0 ≠ 0 ∧ (c = '.'.toUInt8 ∨ c = deref text 0)) ∧ k (text.drop 1) := by
  cases text with
  | nil => simp [letter, deref]
  | cons b text => simp [letter, deref, ht.head]

theorem decides_letter {r : Option Bool} {k : List UInt8 → Prop} (ht : Str text)
    (hr : deref text 0 ≠ 0 → Decides r (k (text.drop 1))) :
    Decides (if deref text 0 ≠ 0 ∧ (c = '.'.toUInt8 ∨ c = deref text 0) then r else some false)
      (Front (letter c) k text) := by
  rw [front_letter_iff ht]
  split
  · rename_i hb
    exact (hr hb.1).congr (and_iff_right hb).symm
  · rename_i hb
    exact decides_some (by simpa using fun h1 h2 _ => hb ⟨h1, h2⟩)

/-- A turn of both loops: a try at this place, and if it fails the rest of the loop. -/
theorem decides_try {r r' : Option Bool} {P Q : Prop} : Decides r P → Decides r' Q →
    Decides (match r with | none => none | some true => some true | some false => r') (P ∨ Q) := by
  rintro ⟨b, rfl, hb⟩ h'
  cases b with
  | true => exact decides_some (by simpa using Or.inl (hb.1 rfl))
  | false =>
    simp only [Bool.false_eq_true, false_iff] at hb
    exact h'.congr (or_iff_right hb).symm

theorem Str.drop (ht : Str text) (n : Nat) : Str (text.drop n) := fun h => ht (List.mem_of_mem_drop h)

theorem deref_eq_zero (ht : Str text) : deref text 0 = 0 ↔ text = [] := by
  cases text with
  | nil => simp [deref]
  | cons b text => simp [deref, ht.head]

theorem length_drop_one (hb : deref text 0 ≠ 0) : (text.drop 1).length + 1 = text.length := by
  cases text with
  | nil => exact absurd rfl hb
  | cons b text => simp

theorem matchhere_star (hc : c ≠ 0) :
    matchhere (n + 1) (c :: '*'.toUInt8 :: re) text = matchstar n c re text := by
  simp [matchhere, deref, hc]

theorem matchhere_dollar : matchhere (n + 1) ['$'.toUInt8] text = some (deref text 0 == 0) := by
  have h0 : '$'.toUInt8 ≠ 0 := by decide
  have h1 : (0 : UInt8) ≠ '*'.toUInt8 := by decide
  simp [matchhere, deref, h0, h1]

theorem matchhere_plain (hre : Str (c :: re)) (h : Plain c re) : matchhere (n + 1) (c :: re) text =
    if deref text 0 ≠ 0 ∧ (c = '.'.toUInt8 ∨ c = deref text 0) then matchhere n re (text.drop 1)
    else some false := by
  have hend : ¬ (c = '$'.toUInt8 ∧ deref re 0 = 0) := fun hc =>
    h.2 ⟨hc.1, (deref_eq_zero hre.tail).1 hc.2⟩
  show (if c = 0 then some true else if deref re 0 = '*'.toUInt8 then _
    else if c = '$'.toUInt8 ∧ deref re 0 = 0 then _ else _) = _
  rw [if_neg hre.head, if_neg h.1, if_neg hend]
  rfl

/-- By induction on the number of calls: `matchhere` uses up a letter of the pattern, a turn of
`matchstar` one of the text. -/
theorem matchhere_matchstar_spec (n : Nat) :
    (∀ re text, Str re → Str text → re.length + text.length + 1 ≤ n →
      Decides (matchhere n re text) (Here re text)) ∧
    (∀ c re text, Str re → Str text → re.length + text.length + 2 ≤ n →
      Decides (matchstar n c re text) (Front (letter c)∗ (Here re) text)) := by
  induction n with
  | zero => exact ⟨fun _ _ _ _ h => absurd h (by omega), fun _ _ _ _ _ h => absurd h (by omega)⟩
  | succ n ih =>
    obtain ⟨ihhere, ihstar⟩ := ih
    constructor
    · intro re text hre htext hn
      by_cases hnil : re = []
      · subst hnil
        exact decides_some (by simpa using here_nil)
      obtain ⟨c, re, rfl⟩ := List.exists_cons_of_ne_nil hnil
      rw [List.length_cons] at hn
      by_cases hstar : deref re 0 = '*'.toUInt8
      · obtain ⟨re, rfl⟩ : ∃ re', re = '*'.toUInt8 :: re' := by
          cases re with
          | nil => cases hstar
          | cons d re => exact ⟨re, congrArg (· :: re) hstar⟩
        rw [List.length_cons] at hn
        rw [matchhere_star hre.head, here_star]
        exact ihstar c re text hre.tail.tail htext (by omega)
      by_cases hdollar : c = '$'.toUInt8 ∧ re = []
      · obtain ⟨rfl, rfl⟩ := hdollar
        rw [matchhere_dollar, here_dollar]
        exact decides_some (by simpa using deref_eq_zero htext)
      · have hplain : Plain c re := ⟨hstar, hdollar⟩
        rw [matchhere_plain hre hplain, here_plain hplain]
        refine decides_letter htext fun hb => ihhere re _ hre.tail (htext.drop 1) ?_
        have := length_drop_one hb
        omega
    · intro c re text hre htext hn
      rw [front_kstar]
      unfold matchstar
      have hcond : (deref text 0 = c ∨ c = '.'.toUInt8) ↔ (c = '.'.toUInt8 ∨ c = deref text 0) := by
        rw [or_comm, eq_comm (a := c) (b := deref text 0)]
      simp only [hcond]
      refine decides_try (ihhere re text hre htext (by omega)) (decides_letter htext fun hb => ?_)
      refine ihstar c re _ hre (htext.drop 1) ?_
      have := length_drop_one hb
      omega

theorem matchLoop_spec (hre : Str re) (n : Nat) : ∀ text, Str text →
    re.length + text.length + 2 ≤ n →
    Decides (matchLoop n re text) (∃ pre rest, pre ++ rest = text ∧ Here re rest) := by
  induction n with
  | zero => exact fun _ _ h => absurd h (by omega)
  | succ n ih =>
    intro text htext hn
    have hsplit : (∃ pre rest, pre ++ rest = text ∧ Here re rest) ↔
        Here re text ∨ deref text 0 ≠ 0 ∧ ∃ pre rest, pre ++ rest = text.drop 1 ∧ Here re rest := by
      constructor
      · rintro ⟨pre, rest, rfl, hrest⟩
        cases pre with
        | nil => exact .inl hrest
        | cons b pre => exact .inr ⟨htext.head, pre, rest, rfl, hrest⟩
      · rintro (hhere | ⟨hb, pre, rest, hpre, hrest⟩)
        · exact ⟨[], text, rfl, hhere⟩
        · cases text with
          | nil => exact absurd rfl hb
          | cons b text => exact ⟨b :: pre, rest, congrArg (b :: ·) hpre, hrest⟩
    rw [hsplit]
    unfold matchLoop
    refine decides_try ((matchhere_matchstar_spec n).1 re text hre htext (by omega)) ?_
    split
    · rename_i hb
      have := length_drop_one hb
      exact (ih _ (htext.drop 1) (by omega)).congr (and_iff_right hb).symm
    · rename_i hb
      exact decides_some (by simpa using fun h => absurd h hb)

theorem found_iff_of_start (h : deref re 0 = '^'.toUInt8) : Found re text ↔ Here (re.drop 1) text := by
  simp only [Found, body, h, if_true, true_imp_iff]
  constructor
  · rintro ⟨_, mid, post, rfl, hmid, rfl, hpost⟩
    exact ⟨mid, hmid, post, rfl, hpost⟩
  · rintro ⟨mid, hmid, post, rfl, hpost⟩
    exact ⟨[], mid, post, rfl, hmid, rfl, hpost⟩

theorem found_iff_of_free (h : deref re 0 ≠ '^'.toUInt8) :
    Found re text ↔ ∃ pre rest, pre ++ rest = text ∧ Here re rest := by
  simp only [Found, body, h, if_false, false_imp_iff, true_and]
  constructor
  · rintro ⟨pre, mid, post, rfl, hmid, hpost⟩
    exact ⟨pre, mid ++ post, rfl, mid, hmid, post, rfl, hpost⟩
  · rintro ⟨pre, _, rfl, mid, hmid, post, rfl, hpost⟩
    exact ⟨pre, mid, post, rfl, hmid, hpost⟩

theorem match_decides (hre : Str re) (htext : Str text) (hn : re.length + text.length + 2 ≤ n) :
    Decides (match_ n re text) (Found re text) := by
  unfold match_
  split
  · rename_i h
    rw [found_iff_of_start h]
    refine (matchhere_matchstar_spec n).1 _ _ (hre.drop 1) htext ?_
    rw [List.length_drop]
    omega
  · rename_i h
    rw [found_iff_of_free h]
    exact matchLoop_spec hre n text htext hn

/-- A string of C. -/
structure CStr where
  bytes : List UInt8
  str : Str bytes

/-- **The matcher is a regular-expression matcher.**  On every pattern and every text the three
functions return, whatever the number of calls above the lengths of the two strings, and `match`
returns 1 exactly if some piece of the text is in the language of the pattern. -/
theorem match_spec (re text : CStr) (c : UInt8) (k : Nat) :
    (∃ b, match_ (re.bytes.length + text.bytes.length + 2 + k) re.bytes text.bytes = some b ∧
      (b = true ↔ Found re.bytes text.bytes)) ∧
    (∃ b, matchhere (re.bytes.length + text.bytes.length + 1 + k) re.bytes text.bytes = some b) ∧
    (∃ b, matchstar (re.bytes.length + text.bytes.length + 2 + k) c re.bytes text.bytes = some b) := by
  have hhere := (matchhere_matchstar_spec (re.bytes.length + text.bytes.length + 1 + k)).1 re.bytes
    text.bytes re.str text.str (by omega)
  have hstar := (matchhere_matchstar_spec (re.bytes.length + text.bytes.length + 2 + k)).2 c re.bytes
    text.bytes re.str text.str (by omega)
  refine ⟨match_decides re.str text.str (by omega), ?_, ?_⟩
  · obtain ⟨b, hb, -⟩ := hhere
    exact ⟨b, hb⟩
  · obtain ⟨b, hb, -⟩ := hstar
    exact ⟨b, hb⟩

-- The pattern `^a*$`, and the pattern `*` whose first letter is an ordinary one.
example : match_ 8 [94, 97, 42, 36] [97, 97] = some true ∧ match_ 5 [42] [97, 97] = some false := by
  decide

end Laboratorio.Xv6.Grep
