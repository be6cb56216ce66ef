import Laboratorio.Shell.Grammar
import Laboratorio.Shell.InPlace

/-!
# The two parsers on their common language

On a line without `&`, `;`, `(`, `)` and `>>` the two shells cut the same tokens
(`gettoken_eq`, `peek_eq`), so their parsers run in lockstep: `parsepipe_agree` compares them for
every bound on the number of turns, with the strings of the xv6 tree read from the line.
`parsers_agree` puts this together with what `nulterminate` leaves in the buffer.
-/

namespace Laboratorio.Shell

open List

/-- A line, or the rest of one, in the common language. -/
structure Common (s : List Char) : Prop where
  nul : NUL ∉ s
  plain : ∀ c ∈ s, c ∉ ['&', ';', '(', ')']
  single : ¬ ['>', '>'] <:+: s

theorem Common.of_suffix {s s' : List Char} (h : Common s) (hs : s' <:+ s) : Common s' where
  nul hm := h.nul (hs.subset hm)
  plain c hc := h.plain c (hs.subset hc)
  single hi := h.single (hi.trans hs.isInfix)

/-- The tree without the modes in which files are opened. -/
def Cmd.forget {σ : Type} : Cmd σ → Cmd σ
  | .exec argv => .exec argv
  | .redir cmd file _ fd => .redir cmd.forget file [] fd
  | .pipe left right => .pipe left.forget right.forget
  | .list left right => .list left.forget right.forget
  | .back cmd => .back cmd.forget

theorem forget_setArg {σ : Type} (cmd : Cmd σ) (k : Nat) (v : Option σ) :
    (cmd.setArg k v).forget = cmd.forget.setArg k v := by
  induction cmd with
  | exec argv => rfl
  | redir cmd file mode fd ih => simp only [Cmd.setArg, Cmd.forget, ih]
  | pipe => rfl
  | list => rfl
  | back => rfl

/-! ## Scanning -/

section Scanning

variable {s : List Char}

theorem strchr_eq {c : Char} (h : c ≠ NUL) (toks : List Char) :
    Xv6.strchr toks c = Lab02.strchr toks c := (Lab02.strchr_of_ne h toks).symm

theorem dropWhile_congr {p q : Char → Bool} (h : ∀ c ∈ s, p c = q c) :
    s.dropWhile p = s.dropWhile q := by
  induction s with
  | nil => rfl
  | cons c s ih =>
    rw [dropWhile_cons, dropWhile_cons, h c mem_cons_self,
      ih fun d hd => h d (mem_cons_of_mem _ hd)]

theorem skip_eq (h : NUL ∉ s) : skip Xv6.strchr s = skip Lab02.strchr s :=
  dropWhile_congr fun _ hc => strchr_eq (fun e => h (e ▸ hc)) whitespace

theorem word_eq {c : Char} (h0 : c ≠ NUL) (h : c ∉ ['&', ';', '(', ')']) :
    (!Xv6.strchr whitespace c && !Xv6.strchr Xv6.symbols c) =
      (!Lab02.strchr whitespace c && !Lab02.strchr Lab02.symbols c) := by
  have hs : Xv6.symbols.contains c = Lab02.symbols.contains c := by
    simp only [mem_cons, not_mem_nil, or_false, not_or] at h
    simp [Xv6.symbols, Lab02.symbols, h]
  rw [strchr_eq h0, Lab02.strchr_of_ne h0 Lab02.symbols, ← hs]
  rfl

/-- **The same tokens.** -/
theorem gettoken_eq (h : Common s) : Xv6.gettoken s = Lab02.gettoken s := by
  have hq := h.of_suffix (skip_suffix Lab02.strchr s)
  unfold Xv6.gettoken Lab02.gettoken
  rw [skip_eq h.nul]
  generalize skip Lab02.strchr s = q at hq ⊢
  cases q with
  | nil => rfl
  | cons c r =>
    have hd : deref (c :: r) = c := rfl
    have hc0 : c ≠ NUL := fun e => hq.nul (e ▸ mem_cons_self)
    have hcp := hq.plain c mem_cons_self
    have hr := hq.of_suffix (suffix_cons c r)
    simp only [mem_cons, not_mem_nil, or_false, not_or] at hcp
    simp only [hd, tail_cons, if_neg hc0]
    by_cases h1 : c = '|' ∨ c = '<'
    · have h1' : c ∈ ['|', '(', ')', ';', '&', '<'] := by
        rcases h1 with rfl | rfl <;> decide
      rw [if_pos h1, if_pos h1', skip_eq hr.nul]
    · have h1' : c ∉ ['|', '(', ')', ';', '&', '<'] := by
        simp only [not_or] at h1
        simp [h1, hcp]
      rw [if_neg h1, if_neg h1']
      by_cases h2 : c = '>'
      · subst h2
        have h3 : deref r ≠ '>' := by
          intro he
          cases r with
          | nil => exact absurd he (by decide)
          | cons d r =>
            have hd' : d = '>' := he
            subst hd'
            exact hq.single ⟨[], r, rfl⟩
        rw [if_pos rfl, if_pos rfl, if_neg h3, skip_eq hr.nul]
      · rw [if_neg h2, if_neg h2]
        have hw : ((c :: r).dropWhile fun c => !Xv6.strchr whitespace c &&
            !Xv6.strchr Xv6.symbols c) = (c :: r).dropWhile fun c =>
            !Lab02.strchr whitespace c && !Lab02.strchr Lab02.symbols c :=
          dropWhile_congr fun d hm => word_eq (fun e => hq.nul (e ▸ hm)) (hq.plain d hm)
        rw [hw, skip_eq fun hm => hq.nul ((dropWhile_suffix _).subset hm)]

/-- **The same answers**, for sets of symbols that agree on the common language. -/
theorem peek_eq (h : Common s) {toks toks' : List Char}
    (ht : ∀ c, c ∉ ['&', ';', '(', ')'] → toks.contains c = toks'.contains c) :
    Xv6.peek toks s = Lab02.peek toks' s := by
  have hq := h.of_suffix (skip_suffix Lab02.strchr s)
  unfold Xv6.peek Lab02.peek peekWith
  rw [skip_eq h.nul]
  generalize skip Lab02.strchr s = q at hq ⊢
  cases q with
  | nil => rfl
  | cons c r =>
    have hd : deref (c :: r) = c := rfl
    have hc0 : c ≠ NUL := fun e => hq.nul (e ▸ mem_cons_self)
    simp only [hd]
    rw [strchr_eq hc0, Lab02.strchr_of_ne hc0, Lab02.strchr_of_ne hc0,
      ht c (hq.plain c mem_cons_self)]

/-- The symbols of the larger language are not there. -/
theorem peek_none (h : Common s) {toks : List Char}
    (ht : ∀ c, c ∉ ['&', ';', '(', ')'] → toks.contains c = false) :
    Xv6.peek toks s = (false, skip Lab02.strchr s) := by
  rw [peek_eq h fun c hc => show toks.contains c = ([] : List Char).contains c from ht c hc]
  have hp : (Lab02.peek [] s).1 = false := by
    rw [Lab02.peek_spec h.nul (by simp)]
    cases (Lab02.tokens s).head? <;> rfl
  exact Prod.ext hp rfl

theorem gettoken_ret_ne_plus (h0 : NUL ∉ s) : (Lab02.gettoken s).ret ≠ '+' := by
  obtain ⟨_, hret, _⟩ | ⟨k, _, hret, _⟩ := Lab02.gettoken_spec h0
  · rw [hret]
    decide
  · rw [hret]
    cases k with
    | word w => exact show 'a' ≠ '+' by decide
    | lt => decide
    | bar => decide
    | gt => decide

end Scanning

/-! ## Lockstep -/

section Lockstep

variable {line s : List Char} {x : Cmd Xv6.Span} {c : Cmd (List Char)}

/-- The xv6 tree with the texts of its tokens, without modes. -/
def readLine (line : List Char) (x : Cmd Xv6.Span) : Cmd (List Char) :=
  (x.map (Xv6.text line)).forget

/-- Both parsers give up for the same reason, or both arrive at the same place with the same
tree. -/
def Agree (line : List Char) (r : Except Error (Cmd Xv6.Span × List Char))
    (r' : Except Error (Cmd (List Char) × List Char)) : Prop :=
  r.map (fun p => (readLine line p.1, p.2)) = r'.map (fun p => (p.1.forget, p.2))

theorem agree_ok {s' : List Char} (h : readLine line x = c.forget) :
    Agree line (.ok (x, s')) (.ok (c, s')) := by
  unfold Agree
  simp only [Except.map, h]

section

variable {r : Except Error (Cmd Xv6.Span × List Char)}
  {r' : Except Error (Cmd (List Char) × List Char)}

theorem Agree.error {e : Error} (h : Agree line r (.error e)) : r = .error e := by
  cases r with
  | error e' => cases h; rfl
  | ok p => cases h

theorem Agree.ok {s' : List Char} (h : Agree line r (.ok (c, s'))) :
    ∃ x, r = .ok (x, s') ∧ readLine line x = c.forget := by
  cases r with
  | error e => cases h
  | ok p =>
    obtain ⟨x, s1⟩ := p
    have hp := Except.ok.inj h
    simp only [Prod.mk.injEq] at hp
    obtain ⟨hx, rfl⟩ := hp
    exact ⟨x, rfl, hx⟩

theorem agree_bind {f : Cmd Xv6.Span × List Char → Except Error (Cmd Xv6.Span × List Char)}
    {f' : Cmd (List Char) × List Char → Except Error (Cmd (List Char) × List Char)}
    (h : Agree line r r')
    (hf : ∀ x c s', r = .ok (x, s') → r' = .ok (c, s') → readLine line x = c.forget →
      Agree line (f (x, s')) (f' (c, s'))) :
    Agree line (r.bind f) (r'.bind f') := by
  cases r' with
  | error e =>
    rw [h.error]
    rfl
  | ok p =>
    obtain ⟨c, s'⟩ := p
    obtain ⟨x, rfl, hx⟩ := h.ok
    exact hf x c s' rfl rfl hx

end

theorem readLine_word (h : readLine line x = c.forget) {t : Token} (hq : t.q <:+ line)
    (heq : t.eq <:+ t.q) (k : Nat) :
    readLine line (x.setArg k (some (Xv6.span line.length t))) =
      (c.setArg k (some (Lab02.mkcopy t.q t.eq))).forget := by
  unfold readLine at h ⊢
  rw [map_setArg, forget_setArg, forget_setArg, h, Option.map_some, Xv6.text_span hq heq]
  rfl

theorem readLine_null (h : readLine line x = c.forget) (k : Nat) :
    readLine line (x.setArg k none) = (c.setArg k none).forget := by
  unfold readLine at h ⊢
  rw [map_setArg, forget_setArg, forget_setArg, h]
  rfl

theorem readLine_redir (h : readLine line x = c.forget) {t : Token} (hq : t.q <:+ line)
    (heq : t.eq <:+ t.q) (mode mode' : List Flag) (fd : Nat) :
    readLine line (.redir x (Xv6.span line.length t) mode fd) =
      (Cmd.redir c (Lab02.mkcopy t.q t.eq) mode' fd).forget := by
  unfold readLine at h ⊢
  simp only [Cmd.map, Cmd.forget, h, Xv6.text_span hq heq]
  rfl

theorem parseredirs_agree (hc : Common line) (n : Nat) :
    ∀ {s x c}, s <:+ line → readLine line x = c.forget →
      Agree line (Xv6.parseredirs line.length n x s) (Lab02.parseredirs n c s) := by
  induction n with
  | zero => intro s x c _ _; rfl
  | succ n ih =>
    intro s x c hs hx
    have hcs := hc.of_suffix hs
    have hpeek : (Lab02.peek ['<', '>'] s).2 <:+ line := (skip_suffix _ s).trans hs
    have ht := (Lab02.gettoken_suffix (Lab02.peek ['<', '>'] s).2).trans hpeek
    have hu := (Lab02.gettoken_suffix (Lab02.gettoken (Lab02.peek ['<', '>'] s).2).ps).trans ht
    rw [Xv6.parseredirs, Lab02.parseredirs]
    simp only
    rw [peek_eq hcs fun _ _ => rfl, gettoken_eq (hc.of_suffix hpeek),
      gettoken_eq (hc.of_suffix ht)]
    -- the xv6 parser also reads `>>`, as `'+'`
    have hplus := gettoken_ret_ne_plus (hc.of_suffix hpeek).nul
    have hsub := Xv6.gettoken_suffix (Lab02.gettoken (Lab02.peek ['<', '>'] s).2).ps
    rw [gettoken_eq (hc.of_suffix ht)] at hsub
    generalize Lab02.gettoken (Lab02.gettoken (Lab02.peek ['<', '>'] s).2).ps = u at *
    generalize Lab02.gettoken (Lab02.peek ['<', '>'] s).2 = t at *
    have hfile := readLine_redir hx (hsub.1.trans ht) hsub.2.1
    split
    · split
      · rfl
      split
      · exact ih hu (hfile _ _ _)
      split
      · exact ih hu (hfile _ _ _)
      · exact ih hu hx
    · exact agree_ok hx

theorem parseargs_agree (hc : Common line) (n : Nat) :
    ∀ {s x c argc}, s <:+ line → readLine line x = c.forget →
      Agree line (Xv6.parseargs line.length n x argc s) (Lab02.parseargs n c argc s) := by
  induction n with
  | zero => intro s x c argc _ _; rfl
  | succ n ih =>
    intro s x c argc hs hx
    have hcs := hc.of_suffix hs
    have hpeek : (Lab02.peek ['|'] s).2 <:+ line := (skip_suffix _ s).trans hs
    have hp : Xv6.peek ['|', ')', '&', ';'] s = Lab02.peek ['|'] s := peek_eq hcs fun c hc => by
      simp only [mem_cons, not_mem_nil, or_false, not_or] at hc
      simp [hc]
    have ht := (Lab02.gettoken_suffix (Lab02.peek ['|'] s).2).trans hpeek
    have hsub := Xv6.gettoken_suffix (Lab02.peek ['|'] s).2
    rw [gettoken_eq (hc.of_suffix hpeek)] at hsub
    rw [Xv6.parseargs, Lab02.parseargs]
    simp only
    rw [hp, gettoken_eq (hc.of_suffix hpeek)]
    by_cases hk : argc < 10
    · simp only [storeArg, if_pos hk]
      split
      · exact agree_ok (readLine_null hx argc)
      split
      · exact agree_ok (readLine_null hx argc)
      split
      · rfl
      · simp only [bind, Except.bind]
        split
        · rfl
        · have hword := readLine_word hx (hsub.1.trans hpeek) hsub.2.1 argc
          apply agree_bind (parseredirs_agree hc n ht hword)
          intro x' c' s' _ hr hx'
          exact ih ((Lab02.parseredirs_suffix hr).trans ht) hx'
    · simp only [storeArg, if_neg hk]
      split
      · rfl
      split
      · rfl
      split
      · rfl
      · rfl

theorem parseredirs_skip (s : List Char) (n : Nat) (c : Cmd (List Char)) :
    Lab02.parseredirs n c (skip Lab02.strchr s) = Lab02.parseredirs n c s := by
  cases n with
  | zero => rfl
  | succ n =>
    have hidem : Lab02.peek ['<', '>'] (skip Lab02.strchr s) = Lab02.peek ['<', '>'] s := by
      unfold Lab02.peek peekWith skip
      rw [dropWhile_idempotent]
    rw [Lab02.parseredirs, Lab02.parseredirs, hidem]

theorem parseexec_agree (hc : Common line) (hs : s <:+ line) (n : Nat) :
    Agree line (Xv6.parseexec line.length (n + 1) s) (Lab02.parseexec (n + 1) s) := by
  have hcs := hc.of_suffix hs
  have hskip : skip Lab02.strchr s <:+ line := (skip_suffix _ s).trans hs
  rw [Xv6.parseexec]
  simp only
  rw [peek_none hcs (by simp +contextual)]
  simp only [Bool.false_eq_true, if_false]
  unfold Lab02.parseexec
  rw [← parseredirs_skip]
  apply agree_bind (parseredirs_agree hc (n + 1) hskip rfl)
  intro x' c' s' _ hr hx'
  exact parseargs_agree hc (n + 1) ((Lab02.parseredirs_suffix hr).trans hskip) hx'

theorem parsepipe_agree (hc : Common line) (n : Nat) :
    ∀ {s}, s <:+ line →
      Agree line (Xv6.parsepipe line.length (n + 1) s) (Lab02.parsepipe n s) := by
  induction n with
  | zero =>
    intro s _
    rw [Xv6.parsepipe, Xv6.parseexec]
    rfl
  | succ n ih =>
    intro s hs
    rw [Xv6.parsepipe, Lab02.parsepipe]
    apply agree_bind (parseexec_agree hc hs n)
    intro x c s' _ hexec hx
    have hs' := (Lab02.parseexec_suffix hexec).trans hs
    have hpeek : (Lab02.peek ['|'] s').2 <:+ line := (skip_suffix _ s').trans hs'
    simp only
    rw [peek_eq (hc.of_suffix hs') fun _ _ => rfl, gettoken_eq (hc.of_suffix hpeek)]
    split
    · apply agree_bind (ih ((Lab02.gettoken_suffix _).trans hpeek))
      intro x2 c2 s2 _ _ hx2
      apply agree_ok
      unfold readLine at hx hx2 ⊢
      simp only [Xv6.pipecmd, Lab02.pipecmd, Cmd.map, Cmd.forget, hx, hx2]
    · exact agree_ok hx

/-- Neither `&` nor `;` is there to be read. -/
theorem parseline_eq (hc : Common line) (n : Nat) :
    Xv6.parseline line.length (n + 1) line =
      (Xv6.parsepipe line.length n line).map fun p => (p.1, skip Lab02.strchr p.2) := by
  rw [Xv6.parseline]
  cases hp : Xv6.parsepipe line.length n line with
  | error e => rfl
  | ok p =>
    obtain ⟨x, s'⟩ := p
    have hs' := ((Xv6.parse_wf line n).2.1 line x s' (suffix_refl _) hp).2
    have hskip : skip Lab02.strchr s' <:+ line := (skip_suffix _ s').trans hs'
    have hidem : skip Lab02.strchr (skip Lab02.strchr s') = skip Lab02.strchr s' :=
      dropWhile_idempotent _ _
    simp only [bind, Except.bind, Xv6.parsebacks]
    rw [peek_none (hc.of_suffix hs') (by simp +contextual)]
    simp only [Bool.false_eq_true, if_false]
    rw [peek_none (hc.of_suffix hskip) (by simp +contextual), hidem]
    rfl

/-- **The parsers agree.**  On a line of the common language both shells give up, for a missing file
or for too many arguments, or both succeed with the same tree: the same nodes, the same file
descriptors and the same strings, those of xv6 read from the buffer that `nulterminate` leaves. -/
theorem parsers_agree (line : List Char) (h0 : NUL ∉ line)
    (hplain : ∀ c ∈ line, c ∉ ['&', ';', '(', ')']) (hsingle : ¬ ['>', '>'] <:+: line) :
    (∃ e e', Lab02.parsecmd line = .error e ∧ Xv6.parsecmd line = .error e' ∧
      (e = .missingFile ∨ e = .tooManyArgs) ∧ (e' = .missingFile ∨ e' = .tooManyArgs)) ∨
    (∃ cmd x buf, Lab02.parsecmd line = .ok cmd ∧ Xv6.parsecmd line = .ok (x, buf) ∧
      (x.map fun a => Xv6.cString buf a.q).forget = cmd.forget) := by
  have hc : Common line := ⟨h0, hplain, hsingle⟩
  have hlen := Lab02.length_tokens_le line
  have hspec := Lab02.parsepipe_spec (line.length + 1) line h0 (by omega)
  have hspec' := Lab02.parsepipe_spec (4 * line.length + 2) line h0 (by omega)
  have hagree := parsepipe_agree hc (4 * line.length + 2) (suffix_refl line)
  cases hp : Lab02.parsepipe (4 * line.length + 2) line with
  | error e' =>
    rw [hp] at hagree
    have hX : Xv6.parsecmd line = .error e' := by
      unfold Xv6.parsecmd
      rw [parseline_eq hc, hagree.error]
      rfl
    rw [Lab02.parsecmd_eq h0]
    cases hp' : Lab02.parsepipe (line.length + 1) line with
    | error e => exact .inl ⟨e, e', rfl, hX, hspec.error e hp', hspec'.error e' hp⟩
    | ok p =>
      -- more turns do not make a good line bad
      obtain ⟨s', h⟩ := hspec'.complete p.1 (hspec.sound p.1 p.2 hp').2.2
      rw [hp] at h
      cases h
  | ok p =>
    obtain ⟨cmd, s'⟩ := p
    obtain ⟨hnil, h0', hL⟩ := hspec'.sound cmd s' hp
    obtain ⟨s'', hp'⟩ := hspec.complete cmd hL
    rw [hp] at hagree
    obtain ⟨x, hx, hsame⟩ := hagree.ok
    have hX : Xv6.parsecmd line = .ok (x, Xv6.nulterminate x (line ++ [NUL])) := by
      unfold Xv6.parsecmd
      rw [parseline_eq hc, hx]
      simp only [bind, Except.bind, Except.map, Lab02.skip_of_tokens_nil h0' hnil]
      rfl
    have hwf := ((Xv6.parse_wf line _).2.1 line x s' (suffix_refl _) hx).1
    refine .inr ⟨cmd, x, _, by rw [Lab02.parsecmd_eq h0, hp']; rfl, hX, ?_⟩
    rw [Cmd.map_congr fun a ha => Xv6.cString_nulterminate h0 hwf ha]
    exact hsame

/-- Tokens and operators that abut. -/
theorem parsers_agree_abutting :
    (∃ e e', Lab02.parsecmd "a>b|c<d e".toList = .error e ∧
      Xv6.parsecmd "a>b|c<d e".toList = .error e' ∧
      (e = .missingFile ∨ e = .tooManyArgs) ∧ (e' = .missingFile ∨ e' = .tooManyArgs)) ∨
    (∃ cmd x buf, Lab02.parsecmd "a>b|c<d e".toList = .ok cmd ∧
      Xv6.parsecmd "a>b|c<d e".toList = .ok (x, buf) ∧
      (x.map fun a => Xv6.cString buf a.q).forget = cmd.forget) :=
  parsers_agree "a>b|c<d e".toList (by decide +kernel) (by simp)
    (by decide +kernel)

end Lockstep

end Laboratorio.Shell
