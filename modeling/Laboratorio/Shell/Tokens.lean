import Laboratorio.Shell.Lab02

/-!
# The tokens of a line

`tokens` cuts a line into symbols and words, where a word is a maximal run of characters that are
neither whitespace nor a symbol.  On lines without NUL, `gettoken` takes the first token off
(`gettoken_spec`) and `peek` looks at it (`peek_spec`).
-/

namespace Laboratorio.Shell.Lab02

open List

inductive Tok where
  | word (w : List Char)
  | lt
  | bar
  | gt
  deriving DecidableEq, Repr

/-- What `gettoken` returns for the token. -/
def Tok.ret : Tok → Char
  | .word _ => 'a'
  | .lt => '<'
  | .bar => '|'
  | .gt => '>'

def isWord (c : Char) : Bool := !whitespace.contains c && !symbols.contains c

/-- The token sequence of a line. -/
def tokens (s : List Char) : List Tok :=
  match s with
  | [] => []
  | c :: s =>
    if whitespace.contains c then tokens s
    else if c = '<' then .lt :: tokens s
    else if c = '|' then .bar :: tokens s
    else if c = '>' then .gt :: tokens s
    else .word (c :: s.takeWhile isWord) :: tokens (s.dropWhile isWord)
termination_by s.length
decreasing_by
  · simp
  · simp
  · simp
  · simp
  · have := (dropWhile_sublist isWord (l := s)).length_le
    simp only [length_cons]
    omega

@[simp] theorem tokens_nil : tokens [] = [] := by rw [tokens]

theorem tokens_space {c : Char} {s : List Char} (h : whitespace.contains c = true) :
    tokens (c :: s) = tokens s := by
  rw [tokens, if_pos h]

theorem tokens_lt (s : List Char) : tokens ('<' :: s) = .lt :: tokens s := by
  rw [tokens]; rfl

theorem tokens_bar (s : List Char) : tokens ('|' :: s) = .bar :: tokens s := by
  rw [tokens]; rfl

theorem tokens_gt (s : List Char) : tokens ('>' :: s) = .gt :: tokens s := by
  rw [tokens]; rfl

theorem isWord_iff {c : Char} : isWord c = true ↔
    whitespace.contains c = false ∧ c ≠ '<' ∧ c ≠ '|' ∧ c ≠ '>' := by
  unfold isWord symbols
  simp

theorem tokens_word {c : Char} {s : List Char} (h : isWord c = true) :
    tokens (c :: s) = .word (c :: s.takeWhile isWord) :: tokens (s.dropWhile isWord) := by
  obtain ⟨hw, h1, h2, h3⟩ := isWord_iff.1 h
  rw [tokens, if_neg (by rw [hw]; exact Bool.false_ne_true), if_neg h1, if_neg h2, if_neg h3]

theorem length_tokens_le (s : List Char) : (tokens s).length ≤ s.length := by
  induction s using tokens.induct with
  | case1 => simp
  | case2 c s h ih =>
    rw [tokens_space h]
    simp only [length_cons]
    omega
  | case3 s _ ih => rw [tokens_lt]; simpa using ih
  | case4 s _ _ ih => rw [tokens_bar]; simpa using ih
  | case5 s _ _ _ ih => rw [tokens_gt]; simpa using ih
  | case6 c s hw h1 h2 h3 ih =>
    have hc : isWord c = true := isWord_iff.2 ⟨by simpa using hw, h1, h2, h3⟩
    have := (dropWhile_sublist isWord (l := s)).length_le
    rw [tokens_word hc]
    simp only [length_cons]
    omega

/-! ## Scanning a line without NUL -/

theorem strchr_of_ne {c : Char} (h : c ≠ NUL) (toks : List Char) :
    strchr toks c = toks.contains c := by
  simp [strchr, h]

theorem tokens_skip {s : List Char} (h0 : NUL ∉ s) : tokens (skip strchr s) = tokens s := by
  unfold skip
  induction s with
  | nil => rfl
  | cons c s ih =>
    have hc : c ≠ NUL := fun h => h0 (h ▸ mem_cons_self)
    have hs : NUL ∉ s := fun h => h0 (mem_cons_of_mem _ h)
    rw [dropWhile_cons, strchr_of_ne hc]
    split
    · rename_i hw
      rw [ih hs, tokens_space hw]
    · rfl

/-- After skipping, the line is at its end or at a character that is not whitespace. -/
theorem skip_cases {s : List Char} (h0 : NUL ∉ s) :
    skip strchr s = [] ∨
    ∃ c r, skip strchr s = c :: r ∧ c ≠ NUL ∧ whitespace.contains c = false ∧ NUL ∉ r := by
  cases h : skip strchr s with
  | nil => exact Or.inl rfl
  | cons c r =>
    have hmem : ∀ d ∈ c :: r, d ∈ s := fun d hd => (skip_suffix strchr s).subset (h ▸ hd)
    have hc : c ≠ NUL := fun e => h0 (e ▸ hmem c mem_cons_self)
    refine Or.inr ⟨c, r, rfl, hc, ?_, fun hr => h0 (hmem _ (mem_cons_of_mem _ hr))⟩
    have hhead := List.head?_dropWhile_not (strchr whitespace) s
    unfold skip at h
    rw [h] at hhead
    rw [← strchr_of_ne hc]
    exact hhead

/-- What the scanners see at the first character of the next token. -/
theorem next_cases {s : List Char} (h0 : NUL ∉ s) :
    (skip strchr s = [] ∧ tokens s = []) ∨
    ∃ c r, skip strchr s = c :: r ∧ c ≠ NUL ∧ NUL ∉ r ∧
      ((c = '<' ∧ tokens s = .lt :: tokens r) ∨ (c = '|' ∧ tokens s = .bar :: tokens r) ∨
        (c = '>' ∧ tokens s = .gt :: tokens r) ∨
        (isWord c = true ∧
          tokens s = .word (c :: r.takeWhile isWord) :: tokens (r.dropWhile isWord))) := by
  rw [← tokens_skip h0]
  obtain h | ⟨c, r, h, hc, hw, hr⟩ := skip_cases h0
  · exact Or.inl ⟨h, by rw [h, tokens_nil]⟩
  · refine Or.inr ⟨c, r, h, hc, hr, ?_⟩
    rw [h]
    by_cases h1 : c = '<'
    · subst h1; exact Or.inl ⟨rfl, tokens_lt r⟩
    by_cases h2 : c = '|'
    · subst h2; exact Or.inr (Or.inl ⟨rfl, tokens_bar r⟩)
    by_cases h3 : c = '>'
    · subst h3; exact Or.inr (Or.inr (Or.inl ⟨rfl, tokens_gt r⟩))
    · have hword : isWord c = true := isWord_iff.2 ⟨hw, h1, h2, h3⟩
      exact Or.inr (Or.inr (Or.inr ⟨hword, tokens_word hword⟩))

theorem skip_of_tokens_nil {s : List Char} (h0 : NUL ∉ s) (h : tokens s = []) :
    skip strchr s = [] := by
  obtain ⟨hs, _⟩ | ⟨c, r, _, _, _, hk⟩ := next_cases h0
  · exact hs
  · simp [h] at hk

/-- On characters other than NUL the test of `gettoken`'s inner loop is `isWord`. -/
theorem dropWhile_word {s : List Char} (h0 : NUL ∉ s) :
    (s.dropWhile fun c => !strchr whitespace c && !strchr symbols c) = s.dropWhile isWord := by
  induction s with
  | nil => rfl
  | cons c s ih =>
    have hc : c ≠ NUL := fun h => h0 (h ▸ mem_cons_self)
    have hs : NUL ∉ s := fun h => h0 (mem_cons_of_mem _ h)
    rw [dropWhile_cons, dropWhile_cons, strchr_of_ne hc, strchr_of_ne hc, ih hs]
    rfl

theorem mkcopy_dropWhile (p : Char → Bool) (s : List Char) :
    mkcopy s (s.dropWhile p) = s.takeWhile p := by
  have h : s.length - (s.dropWhile p).length = (s.takeWhile p).length := by
    have := congrArg List.length (takeWhile_append_dropWhile (p := p) (l := s))
    rw [length_append] at this
    omega
  unfold mkcopy
  rw [h]
  exact (prefix_iff_eq_take.1 (List.takeWhile_prefix p)).symm

/-- The pointer that `gettoken` leaves behind. -/
theorem gettoken_suffix (s : List Char) : (gettoken s).ps <:+ s := by
  have htail : ∀ l : List Char, l.tail <:+ l := tail_suffix
  unfold gettoken
  simp only
  refine (skip_suffix strchr _).trans (List.IsSuffix.trans ?_ (skip_suffix strchr s))
  split
  · exact suffix_refl _
  split
  · exact htail _
  split
  · exact htail _
  · exact dropWhile_suffix _

theorem gettoken_end {s : List Char} (h : skip strchr s = []) :
    gettoken s = ⟨NUL, [], [], []⟩ := by
  unfold gettoken
  rw [h]
  rfl

theorem gettoken_symbol {s r : List Char} {c : Char} (h : skip strchr s = c :: r)
    (hc : c = '<' ∨ c = '|' ∨ c = '>') : gettoken s = ⟨c, c :: r, r, skip strchr r⟩ := by
  unfold gettoken
  rw [h]
  rcases hc with rfl | rfl | rfl <;> rfl

theorem gettoken_word {s r : List Char} {c : Char} (h : skip strchr s = c :: r)
    (hc : isWord c = true) (h0 : c ≠ NUL) (hr : NUL ∉ r) :
    gettoken s =
      ⟨'a', c :: r, (c :: r).dropWhile isWord, skip strchr ((c :: r).dropWhile isWord)⟩ := by
  obtain ⟨_, h1, h2, h3⟩ := isWord_iff.1 hc
  have hcr : NUL ∉ c :: r := by
    rw [mem_cons]
    rintro (h | h)
    · exact h0 h.symm
    · exact hr h
  have hd : deref (c :: r) = c := rfl
  unfold gettoken
  simp only
  rw [h, hd, if_neg h0, if_neg (by simp [h1, h2]), if_neg h3, dropWhile_word hcr]

/-- **`gettoken` takes the first token off the line.** -/
theorem gettoken_spec {s : List Char} (h0 : NUL ∉ s) :
    (tokens s = [] ∧ (gettoken s).ret = NUL ∧ (gettoken s).ps = []) ∨
    ∃ k, tokens s = k :: tokens (gettoken s).ps ∧ (gettoken s).ret = k.ret ∧
      ∀ w, k = .word w → mkcopy (gettoken s).q (gettoken s).eq = w := by
  obtain ⟨h, ht⟩ | ⟨c, r, h, hc, hr, hk⟩ := next_cases h0
  · rw [gettoken_end h]
    exact Or.inl ⟨ht, rfl, rfl⟩
  · right
    rcases hk with ⟨rfl, ht⟩ | ⟨rfl, ht⟩ | ⟨rfl, ht⟩ | ⟨hw, ht⟩
    · rw [gettoken_symbol h (by simp), tokens_skip hr]
      exact ⟨.lt, ht, rfl, nofun⟩
    · rw [gettoken_symbol h (by simp), tokens_skip hr]
      exact ⟨.bar, ht, rfl, nofun⟩
    · rw [gettoken_symbol h (by simp), tokens_skip hr]
      exact ⟨.gt, ht, rfl, nofun⟩
    · have hd : (c :: r).dropWhile isWord = r.dropWhile isWord := by
        rw [dropWhile_cons, if_pos hw]
      have hr' : NUL ∉ r.dropWhile isWord := fun hm =>
        hr ((dropWhile_sublist isWord).subset hm)
      rw [gettoken_word h hw hc hr]
      refine ⟨_, by rw [hd, tokens_skip hr']; exact ht, rfl, ?_⟩
      intro w hw'
      rw [mkcopy_dropWhile, takeWhile_cons, if_pos hw]
      exact Tok.word.inj hw'

theorem gettoken_cons {s : List Char} (h0 : NUL ∉ s) {k : Tok} {ts : List Tok}
    (h : tokens s = k :: ts) :
    (gettoken s).ret = k.ret ∧ tokens (gettoken s).ps = ts ∧ NUL ∉ (gettoken s).ps ∧
      ∀ w, k = .word w → mkcopy (gettoken s).q (gettoken s).eq = w := by
  have hps : NUL ∉ (gettoken s).ps := fun hm => h0 ((gettoken_suffix s).subset hm)
  obtain ⟨hnil, _⟩ | ⟨k', ht, hret, hw⟩ := gettoken_spec h0
  · rw [h] at hnil
    cases hnil
  · rw [h] at ht
    cases ht
    exact ⟨hret, rfl, hps, hw⟩

theorem gettoken_nil {s : List Char} (h0 : NUL ∉ s) (h : tokens s = []) :
    (gettoken s).ret = NUL ∧ (gettoken s).ps = [] := by
  obtain ⟨_, hret⟩ | ⟨k, ht, _⟩ := gettoken_spec h0
  · exact hret
  · rw [h] at ht
    cases ht

theorem peek_snd (toks s : List Char) : (peek toks s).2 = skip strchr s := rfl

/-- **`peek` looks at the first token**, for a set of symbols. -/
theorem peek_spec {s toks : List Char} (h0 : NUL ∉ s) (htoks : ∀ c ∈ toks, c ∈ symbols) :
    (peek toks s).1 = (tokens s).head?.any fun k => toks.contains k.ret := by
  unfold peek peekWith
  obtain ⟨h, ht⟩ | ⟨c, r, h, hc, hr, hk⟩ := next_cases h0
  · rw [h, ht]
    rfl
  · have hd : deref (c :: r) = c := rfl
    simp only [h, hd, strchr_of_ne hc]
    rcases hk with ⟨rfl, ht⟩ | ⟨rfl, ht⟩ | ⟨rfl, ht⟩ | ⟨hw, ht⟩
    · rw [ht]; simp [Tok.ret, hc]
    · rw [ht]; simp [Tok.ret, hc]
    · rw [ht]; simp [Tok.ret, hc]
    · obtain ⟨_, h1, h2, h3⟩ := isWord_iff.1 hw
      have hno : ∀ d, d ∉ symbols → toks.contains d = false := by
        intro d hd
        rw [contains_eq_mem, decide_eq_false_iff_not]
        exact fun hm => hd (htoks d hm)
      rw [ht, hno c (by simp [symbols, h1, h2, h3])]
      simp only [Bool.and_false, List.head?_cons, Option.any_some, Tok.ret]
      exact (hno 'a' (by decide)).symm

end Laboratorio.Shell.Lab02
