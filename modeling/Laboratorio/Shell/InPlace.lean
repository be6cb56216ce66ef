import Laboratorio.Lib.Runs
import Laboratorio.Shell.Xv6

/-!
# Tokens terminated in place

Every span that the xv6 parser stores is a maximal run of word characters (`IsToken`).  The
character after it is no word character, so the NUL that `nulterminate` writes there hits no other
token, and each token reads back as a C string with its text.
-/

namespace Laboratorio.Shell

open Laboratorio.Lib List

section Strings

variable {σ τ : Type}

def Cmd.map (f : σ → τ) : Cmd σ → Cmd τ
  | .exec argv => .exec (argv.map (Option.map f))
  | .redir cmd file mode fd => .redir (cmd.map f) (f file) mode fd
  | .pipe left right => .pipe (left.map f) (right.map f)
  | .list left right => .list (left.map f) (right.map f)
  | .back cmd => .back (cmd.map f)

/-- All the strings of a tree. -/
def Cmd.strings : Cmd σ → List σ
  | .exec argv => argv.filterMap id
  | .redir cmd file _ _ => cmd.strings ++ [file]
  | .pipe left right => left.strings ++ right.strings
  | .list left right => left.strings ++ right.strings
  | .back cmd => cmd.strings

theorem strings_exec (ws : List σ) : (Cmd.exec (argvOf ws)).strings = ws := by
  simp [Cmd.strings, argvOf, filterMap_append]

theorem map_setArg (f : σ → τ) (cmd : Cmd σ) (k : Nat) (v : Option σ) :
    (cmd.setArg k v).map f = (cmd.map f).setArg k (v.map f) := by
  induction cmd with
  | exec argv => simp only [Cmd.setArg, Cmd.map, map_set]
  | redir cmd file mode fd ih => simp only [Cmd.setArg, Cmd.map, ih]
  | pipe => rfl
  | list => rfl
  | back => rfl

theorem Cmd.map_congr {f g : σ → τ} {cmd : Cmd σ} (h : ∀ a ∈ cmd.strings, f a = g a) :
    cmd.map f = cmd.map g := by
  induction cmd with
  | exec argv =>
    simp only [Cmd.map, Cmd.exec.injEq]
    apply map_congr_left
    intro a ha
    cases a with
    | none => rfl
    | some a =>
      have : a ∈ (Cmd.exec argv).strings := mem_filterMap.2 ⟨some a, ha, rfl⟩
      simp only [Option.map_some, h a this]
  | redir cmd file mode fd ih =>
    simp only [Cmd.strings, mem_append, mem_singleton] at h
    simp only [Cmd.map]
    rw [ih fun a ha => h a (.inl ha), h file (.inr rfl)]
  | pipe left right ihl ihr =>
    simp only [Cmd.strings, mem_append] at h
    simp only [Cmd.map]
    rw [ihl fun a ha => h a (.inl ha), ihr fun a ha => h a (.inr ha)]
  | list left right ihl ihr =>
    simp only [Cmd.strings, mem_append] at h
    simp only [Cmd.map]
    rw [ihl fun a ha => h a (.inl ha), ihr fun a ha => h a (.inr ha)]
  | back cmd ih =>
    simp only [Cmd.map]
    rw [ih h]

end Strings

namespace Xv6

def isWord (c : Char) : Bool := !strchr whitespace c && !strchr symbols c

/-- The characters that a C string has from position `p` of the buffer on. -/
def cString (buf : List Char) (p : Nat) : List Char := (buf.drop p).takeWhile (· ≠ NUL)

/-- The characters of a span of the line. -/
def text (str : List Char) (a : Span) : List Char := (str.drop a.q).take (a.eq - a.q)

/-- The span covers the maximal run `w` of word characters. -/
def IsToken (str : List Char) (a : Span) : Prop :=
  ∃ pre w post, str = pre ++ w ++ post ∧ a.q = pre.length ∧ a.eq = pre.length + w.length ∧
    (∀ c ∈ w, isWord c = true) ∧ (∀ c ∈ post.head?, isWord c = false)

/-- `argv` holds words in its first cells and nulls after them, at least one, and all the strings
of the tree are tokens of the line. -/
def Wf (str : List Char) : Cmd Span → Prop
  | .exec argv => ∃ ws, ws.length ≤ 9 ∧ argv = argvOf ws ∧ ∀ a ∈ ws, IsToken str a
  | .redir cmd file _ _ => Wf str cmd ∧ IsToken str file
  | .pipe left right => Wf str left ∧ Wf str right
  | .list left right => Wf str left ∧ Wf str right
  | .back cmd => Wf str cmd

/-! ## What `nulterminate` writes -/

/-- `buf'` is `buf` with NULs written at the positions `E`. -/
def Overwritten (E : List Nat) (buf buf' : List Char) : Prop :=
  ∀ i : Nat, buf'[i]? = if i ∈ E then (buf[i]?).map (fun _ => NUL) else buf[i]?

variable {str buf buf' buf'' : List Char} {E F : List Nat} {cmd : Cmd Span} {a : Span}

theorem Overwritten.refl (buf : List Char) : Overwritten [] buf buf := fun i => by simp

theorem Overwritten.trans (h : Overwritten E buf buf') (h' : Overwritten F buf' buf'') :
    Overwritten (E ++ F) buf buf'' := by
  intro i
  rw [h' i, h i]
  by_cases hE : i ∈ E <;> by_cases hF : i ∈ F <;> simp [hE, hF, Function.comp_def]

theorem overwritten_set (e : Nat) (buf : List Char) : Overwritten [e] buf (buf.set e NUL) := by
  intro i
  rw [List.getElem?_set]
  by_cases hi : e = i
  · subst hi
    simp only [if_true, mem_singleton]
    split
    · rename_i hlt
      rw [List.getElem?_eq_getElem hlt]
      rfl
    · rename_i hge
      rw [List.getElem?_eq_none (by omega)]
      rfl
  · simp [hi, Ne.symm hi]

theorem terminateArgs_overwritten (ws : List Span) (k : Nat) (buf : List Char) :
    Overwritten (ws.map Span.eq) buf
      (terminateArgs (ws.map some ++ List.replicate k none) buf) := by
  induction ws generalizing buf with
  | nil =>
    cases k with
    | zero => exact Overwritten.refl buf
    | succ k => exact Overwritten.refl buf
  | cons a ws ih => exact (overwritten_set a.eq buf).trans (ih (buf.set a.eq NUL))

theorem nulterminate_overwritten (h : Wf str cmd) (buf : List Char) :
    Overwritten (cmd.strings.map Span.eq) buf (nulterminate cmd buf) := by
  induction cmd generalizing buf with
  | exec argv =>
    obtain ⟨ws, _, rfl, _⟩ := h
    rw [strings_exec]
    exact terminateArgs_overwritten ws _ buf
  | redir cmd file mode fd ih =>
    simp only [Cmd.strings, map_append]
    exact (ih h.1 buf).trans (overwritten_set file.eq _)
  | pipe left right ihl ihr =>
    simp only [Cmd.strings, map_append]
    exact (ihl h.1 buf).trans (ihr h.2 _)
  | list left right ihl ihr =>
    simp only [Cmd.strings, map_append]
    exact (ihl h.1 buf).trans (ihr h.2 _)
  | back cmd ih => exact ih h buf

theorem Wf.strings (h : Wf str cmd) : ∀ a ∈ cmd.strings, IsToken str a := by
  induction cmd with
  | exec argv =>
    obtain ⟨ws, _, rfl, hws⟩ := h
    intro a ha
    rw [strings_exec] at ha
    exact hws a ha
  | redir cmd file mode fd ih =>
    intro a ha
    simp only [Cmd.strings, mem_append, mem_singleton] at ha
    rcases ha with ha | rfl
    · exact ih h.1 a ha
    · exact h.2
  | pipe left right ihl ihr =>
    intro a ha
    rcases mem_append.1 ha with ha | ha
    · exact ihl h.1 a ha
    · exact ihr h.2 a ha
  | list left right ihl ihr =>
    intro a ha
    rcases mem_append.1 ha with ha | ha
    · exact ihl h.1 a ha
    · exact ihr h.2 a ha
  | back cmd ih => exact ih h

/-! ## Reading back -/

/-- What stands where a token ends: another character than those of words, or the end. -/
theorem IsToken.end_not_word (h : IsToken str a) :
    a.eq ≤ str.length ∧ ∀ c, str[a.eq]? = some c → isWord c = false := by
  obtain ⟨pre, w, post, rfl, hq, heq, hw, hp⟩ := h
  have hlen : (pre ++ w).length = a.eq := by rw [length_append]; omega
  constructor
  · rw [length_append, hlen]
    omega
  · intro c hc
    rw [List.getElem?_append_right (by omega), hlen, Nat.sub_self, ← List.head?_eq_getElem?] at hc
    exact hp c hc

theorem cString_of_get {w : List Char} {p : Nat} (hw : NUL ∉ w)
    (hget : ∀ k (hk : k < w.length), buf[p + k]? = some w[k])
    (hend : buf[p + w.length]? = some NUL) : cString buf p = w := by
  have hdrop : ∀ (w : List Char) (p : Nat), (∀ k (hk : k < w.length), buf[p + k]? = some w[k]) →
      buf.drop p = w ++ buf.drop (p + w.length) := by
    intro w
    induction w with
    | nil => intro p _; rfl
    | cons c w ih =>
      intro p h
      have h0 := h 0 (by simp)
      rw [Nat.add_zero] at h0
      obtain ⟨hlt, hc⟩ := List.getElem?_eq_some_iff.1 h0
      rw [drop_eq_getElem_cons hlt, hc, ih (p + 1)]
      · simp [Nat.add_comm, Nat.add_left_comm]
      · intro k hk
        have := h (k + 1) (by simp; omega)
        rw [show p + 1 + k = p + (k + 1) by omega, this]
        rfl
  obtain ⟨hlt, hc⟩ := List.getElem?_eq_some_iff.1 hend
  unfold cString
  rw [hdrop w p hget, drop_eq_getElem_cons hlt, hc,
    takeWhile_append_of_pos (by
      intro c hm
      simp only [decide_eq_true_eq]
      exact fun e => hw (e ▸ hm))]
  simp

/-- **Terminating in place is safe.**  In the buffer that `nulterminate` leaves, every string of a
well-formed tree reads as the token it was. -/
theorem cString_nulterminate (h0 : NUL ∉ str) (h : Wf str cmd) (ha : a ∈ cmd.strings) :
    cString (nulterminate cmd (str ++ [NUL])) a.q = text str a := by
  have hover := nulterminate_overwritten h (str ++ [NUL])
  have hends : ∀ e ∈ cmd.strings.map Span.eq, ∀ c, str[e]? = some c → isWord c = false := by
    intro e he
    obtain ⟨b, hb, rfl⟩ := mem_map.1 he
    exact (h.strings b hb).end_not_word.2
  have hle := (h.strings a ha).end_not_word.1
  obtain ⟨pre, w, post, hline, hq, heq, hw, hp⟩ := h.strings a ha
  have htext : text str a = w := by
    unfold text
    rw [hline, hq, append_assoc, drop_left,
      show a.eq - pre.length = w.length by omega, take_left]
  have hwget : ∀ k (hk : k < w.length), str[a.q + k]? = some w[k] := by
    intro k hk
    rw [hline, hq, append_assoc, List.getElem?_append_right (by omega),
      Nat.add_sub_cancel_left, List.getElem?_append_left hk, List.getElem?_eq_getElem hk]
  rw [htext]
  apply cString_of_get
  · intro hm
    apply h0
    rw [hline]
    simp [hm]
  · intro k hk
    have hlt : a.q + k < str.length := by omega
    have hno : a.q + k ∉ cmd.strings.map Span.eq := by
      intro hm
      have := hends _ hm _ (hwget k hk)
      rw [hw _ (getElem_mem hk)] at this
      cases this
    rw [hover, if_neg hno, List.getElem?_append_left hlt, hwget k hk]
  · have hmem : a.q + w.length ∈ cmd.strings.map Span.eq :=
      mem_map.2 ⟨a, ha, by omega⟩
    have hlt : a.q + w.length < (str ++ [NUL]).length := by
      rw [length_append, length_singleton]
      omega
    rw [hover, if_pos hmem, List.getElem?_eq_getElem hlt]
    rfl

/-! ## The parser stores tokens -/

variable {s : List Char}

theorem gettoken_suffix (s : List Char) :
    (gettoken s).q <:+ s ∧ (gettoken s).eq <:+ (gettoken s).q ∧ (gettoken s).ps <:+ s := by
  have heq : (gettoken s).eq <:+ (gettoken s).q := by
    unfold gettoken
    simp only
    split
    · exact suffix_refl _
    split
    · exact tail_suffix _
    split
    · split
      · exact (tail_suffix _).trans (tail_suffix _)
      · exact tail_suffix _
    · exact dropWhile_suffix _
  have hq : (gettoken s).q <:+ s := skip_suffix strchr s
  exact ⟨hq, heq, (skip_suffix strchr _).trans (heq.trans hq)⟩

/-- A token of kind `'a'` ends where the run of word characters ends. -/
theorem gettoken_word (h : (gettoken s).ret = 'a') :
    (gettoken s).eq = (gettoken s).q.dropWhile isWord := by
  unfold gettoken at h ⊢
  simp only at h ⊢
  generalize deref (skip strchr s) = c at h ⊢
  by_cases h1 : c = NUL
  · rw [if_pos h1] at h
    subst h1
    exact absurd (show NUL = 'a' from h) (by decide)
  rw [if_neg h1] at h ⊢
  by_cases h2 : c ∈ ['|', '(', ')', ';', '&', '<']
  · rw [if_pos h2] at h
    have hc : c = 'a' := h
    subst hc
    exact absurd h2 (by decide)
  rw [if_neg h2] at h ⊢
  by_cases h3 : c = '>'
  · rw [if_pos h3] at h
    split at h
    · exact absurd (show '+' = 'a' from h) (by decide)
    · subst h3
      exact absurd (show '>' = 'a' from h) (by decide)
  · rw [if_neg h3]
    rfl

theorem suffix_position {r : List Char} (h : r <:+ str) :
    ∃ pre, str = pre ++ r ∧ str.length - r.length = pre.length := by
  obtain ⟨pre, rfl⟩ := h
  exact ⟨pre, rfl, by simp⟩

/-- The text of a token that the scanner has found: what `mkcopy` would copy. -/
theorem text_span {t : Token} (hq : t.q <:+ str) (heq : t.eq <:+ t.q) :
    text str (span str.length t) = t.q.take (t.q.length - t.eq.length) := by
  obtain ⟨pre, rfl⟩ := hq
  have hle := heq.length_le
  unfold text span
  simp only [length_append]
  rw [show pre.length + t.q.length - t.q.length = pre.length by omega, drop_left]
  congr 1
  omega

/-- Every span that is stored is a token of the line. -/
theorem span_isToken (hs : s <:+ str) (h : (gettoken s).ret = 'a') :
    IsToken str (span str.length (gettoken s)) := by
  obtain ⟨hq, heq, _⟩ := gettoken_suffix s
  obtain ⟨pre, hline, hpos⟩ := suffix_position (hq.trans hs)
  have hword := gettoken_word h
  have hlen : ((gettoken s).q.takeWhile isWord).length + ((gettoken s).eq).length =
      ((gettoken s).q).length := by
    rw [hword, ← length_append, takeWhile_append_dropWhile]
  refine ⟨pre, (gettoken s).q.takeWhile isWord, (gettoken s).q.dropWhile isWord, ?_, hpos,
    ?_, ?_, ?_⟩
  · rw [append_assoc, takeWhile_append_dropWhile]
    exact hline
  · show str.length - (gettoken s).eq.length = _
    have := congrArg List.length hline
    rw [length_append] at this
    omega
  · intro c hc
    exact all_eq_true.1 all_takeWhile c hc
  · intro c hc
    have := List.head?_dropWhile_not isWord (gettoken s).q
    rw [hc] at this
    exact this

/-- `parseredirs` wraps redirections to tokens around the command, and nothing else. -/
theorem parseredirs_inv {P : Cmd Span → Prop} {n : Nat} {cmd' : Cmd Span} {s' : List Char}
    (hP : ∀ cmd file mode fd, P cmd → IsToken str file → P (.redir cmd file mode fd))
    (hs : s <:+ str) (hcmd : P cmd)
    (h : parseredirs str.length n cmd s = .ok (cmd', s')) : P cmd' ∧ s' <:+ str := by
  induction n generalizing cmd s with
  | zero => cases h
  | succ n ih =>
    have hpeek : (peek ['<', '>'] s).2 <:+ str := (skip_suffix strchr s).trans hs
    have ht := (gettoken_suffix (peek ['<', '>'] s).2).2.2.trans hpeek
    have hu := (gettoken_suffix (gettoken (peek ['<', '>'] s).2).ps).2.2.trans ht
    rw [parseredirs] at h
    simp only at h
    split at h
    · split at h
      · cases h
      rename_i hword
      have hfile := span_isToken ht (Decidable.of_not_not hword)
      split at h
      · exact ih hu (hP _ _ _ _ hcmd hfile) h
      split at h
      · exact ih hu (hP _ _ _ _ hcmd hfile) h
      split at h
      · exact ih hu (hP _ _ _ _ hcmd hfile) h
      · exact ih hu hcmd h
    · cases h
      exact ⟨hcmd, hpeek⟩

/-- An exec node with `argc` words so far, under redirections. -/
def Open (str : List Char) (argc : Nat) : Cmd Span → Prop
  | .exec argv => ∃ ws, ws.length = argc ∧ argv = argvOf ws ∧ ∀ a ∈ ws, IsToken str a
  | .redir cmd file _ _ => Open str argc cmd ∧ IsToken str file
  | _ => False

theorem open_execcmd (str : List Char) : Open str 0 execcmd := ⟨[], rfl, rfl, nofun⟩

theorem Open.word {argc : Nat} (h : Open str argc cmd) (hargc : argc < 10)
    (ha : IsToken str a) : Open str (argc + 1) (cmd.setArg argc (some a)) := by
  induction cmd with
  | exec argv =>
    obtain ⟨ws, rfl, rfl, hws⟩ := h
    refine ⟨ws ++ [a], by simp, argvOf_set_some a hargc, ?_⟩
    intro b hb
    rcases mem_append.1 hb with hb | hb
    · exact hws b hb
    · rw [mem_singleton.1 hb]
      exact ha
  | redir cmd file mode fd ih => exact ⟨ih h.1, h.2⟩
  | pipe => exact h.elim
  | list => exact h.elim
  | back => exact h.elim

theorem Open.close {argc : Nat} (h : Open str argc cmd) (hargc : argc < 10) :
    Wf str (cmd.setArg argc none) := by
  induction cmd with
  | exec argv =>
    obtain ⟨ws, rfl, rfl, hws⟩ := h
    exact ⟨ws, by omega, argvOf_set_none hargc, hws⟩
  | redir cmd file mode fd ih => exact ⟨ih h.1, h.2⟩
  | pipe => exact h.elim
  | list => exact h.elim
  | back => exact h.elim

theorem storeArg_ok {σ : Type} {cmd cmd' : Cmd σ} {k : Nat} {v : Option σ}
    (h : storeArg cmd k v = .ok cmd') : k < 10 ∧ cmd' = cmd.setArg k v := by
  unfold storeArg at h
  split at h
  · rename_i hk
    cases h
    exact ⟨hk, rfl⟩
  · cases h

theorem parseargs_inv {n argc : Nat} {cmd' : Cmd Span} {s' : List Char} (hs : s <:+ str)
    (hcmd : Open str argc cmd)
    (h : parseargs str.length n cmd argc s = .ok (cmd', s')) : Wf str cmd' ∧ s' <:+ str := by
  induction n generalizing cmd argc s with
  | zero => cases h
  | succ n ih =>
    have hpeek : (peek ['|', ')', '&', ';'] s).2 <:+ str := (skip_suffix strchr s).trans hs
    have ht := (gettoken_suffix (peek ['|', ')', '&', ';'] s).2).2.2.trans hpeek
    rw [parseargs] at h
    simp only at h
    split at h
    · obtain ⟨ret, hret, h⟩ := exists_of_bind_eq_ok h
      obtain ⟨hargc, rfl⟩ := storeArg_ok hret
      cases h
      exact ⟨hcmd.close hargc, hpeek⟩
    split at h
    · obtain ⟨ret, hret, h⟩ := exists_of_bind_eq_ok h
      obtain ⟨hargc, rfl⟩ := storeArg_ok hret
      cases h
      exact ⟨hcmd.close hargc, ht⟩
    split at h
    · cases h
    · rename_i hword
      have harg := span_isToken hpeek (Decidable.of_not_not hword)
      obtain ⟨ret, hret, h⟩ := exists_of_bind_eq_ok h
      obtain ⟨hargc, rfl⟩ := storeArg_ok hret
      split at h
      · cases h
      · obtain ⟨⟨ret, ps⟩, hr, h⟩ := exists_of_bind_eq_ok h
        obtain ⟨hopen, hps⟩ := parseredirs_inv (P := Open str (argc + 1))
          (fun _ _ _ _ hc hf => ⟨hc, hf⟩) ht (hcmd.word hargc harg) hr
        exact ih hps hopen h

theorem parsebacks_inv {n : Nat} {cmd' : Cmd Span} {s' : List Char} (hs : s <:+ str)
    (hcmd : Wf str cmd) (h : parsebacks n cmd s = .ok (cmd', s')) :
    Wf str cmd' ∧ s' <:+ str := by
  induction n generalizing cmd s with
  | zero => cases h
  | succ n ih =>
    have hpeek : (peek ['&'] s).2 <:+ str := (skip_suffix strchr s).trans hs
    rw [parsebacks] at h
    simp only at h
    split at h
    · exact ih ((gettoken_suffix _).2.2.trans hpeek) (show Wf str (backcmd cmd) from hcmd) h
    · cases h
      exact ⟨hcmd, hpeek⟩

/-- A parser that returns well-formed trees and moves along the line. -/
def Safe (str : List Char) (p : List Char → Except Error (Cmd Span × List Char)) : Prop :=
  ∀ s cmd s', s <:+ str → p s = .ok (cmd, s') → Wf str cmd ∧ s' <:+ str

theorem safe_parseline {n : Nat} (hpipe : Safe str (parsepipe str.length n))
    (hline : Safe str (parseline str.length n)) : Safe str (parseline str.length (n + 1)) := by
  intro s cmd s' hs h
  rw [parseline] at h
  obtain ⟨⟨c1, s1⟩, h1, h⟩ := exists_of_bind_eq_ok h
  obtain ⟨hw1, hs1⟩ := hpipe s c1 s1 hs h1
  obtain ⟨⟨c2, s2⟩, h2, h⟩ := exists_of_bind_eq_ok h
  obtain ⟨hw2, hs2⟩ := parsebacks_inv hs1 hw1 h2
  have hpeek : (peek [';'] s2).2 <:+ str := (skip_suffix strchr s2).trans hs2
  simp only at h
  split at h
  · obtain ⟨⟨c3, s3⟩, h3, h⟩ := exists_of_bind_eq_ok h
    obtain ⟨hw3, hs3⟩ := hline _ c3 s3 ((gettoken_suffix _).2.2.trans hpeek) h3
    cases h
    exact ⟨⟨hw2, hw3⟩, hs3⟩
  · cases h
    exact ⟨hw2, hpeek⟩

theorem safe_parsepipe {n : Nat} (hexec : Safe str (parseexec str.length n))
    (hpipe : Safe str (parsepipe str.length n)) : Safe str (parsepipe str.length (n + 1)) := by
  intro s cmd s' hs h
  rw [parsepipe] at h
  obtain ⟨⟨c1, s1⟩, h1, h⟩ := exists_of_bind_eq_ok h
  obtain ⟨hw1, hs1⟩ := hexec s c1 s1 hs h1
  have hpeek : (peek ['|'] s1).2 <:+ str := (skip_suffix strchr s1).trans hs1
  simp only at h
  split at h
  · obtain ⟨⟨c2, s2⟩, h2, h⟩ := exists_of_bind_eq_ok h
    obtain ⟨hw2, hs2⟩ := hpipe _ c2 s2 ((gettoken_suffix _).2.2.trans hpeek) h2
    cases h
    exact ⟨⟨hw1, hw2⟩, hs2⟩
  · cases h
    exact ⟨hw1, hpeek⟩

theorem safe_parseblock {n : Nat} (hline : Safe str (parseline str.length n)) :
    Safe str (parseblock str.length (n + 1)) := by
  intro s cmd s' hs h
  have hpeek : (peek ['('] s).2 <:+ str := (skip_suffix strchr s).trans hs
  rw [parseblock] at h
  simp only at h
  split at h
  · cases h
  · obtain ⟨⟨c1, s1⟩, h1, h⟩ := exists_of_bind_eq_ok h
    obtain ⟨hw1, hs1⟩ := hline _ c1 s1 ((gettoken_suffix _).2.2.trans hpeek) h1
    have hpeek1 : (peek [')'] s1).2 <:+ str := (skip_suffix strchr s1).trans hs1
    simp only at h
    split at h
    · cases h
    · exact parseredirs_inv (P := Wf str) (fun _ _ _ _ hc hf => ⟨hc, hf⟩)
        ((gettoken_suffix _).2.2.trans hpeek1) hw1 h

theorem safe_parseexec {n : Nat} (hblock : Safe str (parseblock str.length n)) :
    Safe str (parseexec str.length (n + 1)) := by
  intro s cmd s' hs h
  have hpeek : (peek ['('] s).2 <:+ str := (skip_suffix strchr s).trans hs
  rw [parseexec] at h
  simp only at h
  split at h
  · exact hblock _ cmd s' hpeek h
  · obtain ⟨⟨c1, s1⟩, h1, h⟩ := exists_of_bind_eq_ok h
    obtain ⟨hopen, hs1⟩ := parseredirs_inv (P := Open str 0)
      (fun _ _ _ _ hc hf => ⟨hc, hf⟩) hpeek (open_execcmd str) h1
    exact parseargs_inv hs1 hopen h

/-- **The four functions build well-formed trees.** -/
theorem parse_wf (str : List Char) (n : Nat) :
    Safe str (parseline str.length n) ∧ Safe str (parsepipe str.length n) ∧
      Safe str (parseblock str.length n) ∧ Safe str (parseexec str.length n) := by
  induction n with
  | zero =>
    refine ⟨?_, ?_, ?_, ?_⟩
    · intro s cmd s' _ h; rw [parseline] at h; cases h
    · intro s cmd s' _ h; rw [parsepipe] at h; cases h
    · intro s cmd s' _ h; rw [parseblock] at h; cases h
    · intro s cmd s' _ h; rw [parseexec] at h; cases h
  | succ n ih =>
    obtain ⟨hline, hpipe, hblock, hexec⟩ := ih
    exact ⟨safe_parseline hpipe hline, safe_parsepipe hexec hpipe, safe_parseblock hline,
      safe_parseexec hblock⟩

/-! ## The writes of `nulterminate` -/

/-- Where `nulterminate` writes, in the order in which it does. -/
def writes : Cmd Span → List Nat
  | .exec argv => ((argv.takeWhile Option.isSome).filterMap id).map Span.eq
  | .redir cmd file _ _ => writes cmd ++ [file.eq]
  | .pipe left right => writes left ++ writes right
  | .list left right => writes left ++ writes right
  | .back cmd => writes cmd

theorem terminateArgs_eq (argv : List (Option Span)) (buf : List Char) :
    terminateArgs argv buf =
      (((argv.takeWhile Option.isSome).filterMap id).map Span.eq).foldl
        (fun buf e => buf.set e NUL) buf := by
  induction argv generalizing buf with
  | nil => rfl
  | cons a argv ih =>
    cases a with
    | none => rfl
    | some a => exact ih (buf.set a.eq NUL)

theorem nulterminate_eq (cmd : Cmd Span) (buf : List Char) :
    nulterminate cmd buf = (writes cmd).foldl (fun buf e => buf.set e NUL) buf := by
  induction cmd generalizing buf with
  | exec argv => exact terminateArgs_eq argv buf
  | redir cmd file mode fd ih =>
    rw [nulterminate, writes, foldl_append, ih]
    rfl
  | pipe left right ihl ihr => rw [nulterminate, writes, foldl_append, ihl, ihr]
  | list left right ihl ihr => rw [nulterminate, writes, foldl_append, ihl, ihr]
  | back cmd ih => exact ih buf

/-- It writes at the ends of the strings of the tree and nowhere else. -/
theorem mem_strings_of_mem_writes {e : Nat} (h : e ∈ writes cmd) :
    ∃ a ∈ cmd.strings, a.eq = e := by
  induction cmd with
  | exec argv =>
    obtain ⟨a, ha, he⟩ := mem_map.1 h
    obtain ⟨v, hv, hva⟩ := mem_filterMap.1 ha
    exact ⟨a, mem_filterMap.2 ⟨v, (takeWhile_sublist _).subset hv, hva⟩, he⟩
  | redir cmd file mode fd ih =>
    rcases mem_append.1 h with h | h
    · obtain ⟨a, ha, he⟩ := ih h
      exact ⟨a, mem_append_left _ ha, he⟩
    · exact ⟨file, mem_append_right _ (mem_singleton.2 rfl), (mem_singleton.1 h).symm⟩
  | pipe left right ihl ihr =>
    rcases mem_append.1 h with h | h
    · obtain ⟨a, ha, he⟩ := ihl h
      exact ⟨a, mem_append_left _ ha, he⟩
    · obtain ⟨a, ha, he⟩ := ihr h
      exact ⟨a, mem_append_right _ ha, he⟩
  | list left right ihl ihr =>
    rcases mem_append.1 h with h | h
    · obtain ⟨a, ha, he⟩ := ihl h
      exact ⟨a, mem_append_left _ ha, he⟩
    · obtain ⟨a, ha, he⟩ := ihr h
      exact ⟨a, mem_append_right _ ha, he⟩
  | back cmd ih => exact ih h

theorem parsecmd_inv {line : List Char} (h : parsecmd line = .ok (cmd, buf)) :
    Wf line cmd ∧ buf = nulterminate cmd (line ++ [NUL]) := by
  obtain ⟨⟨c, rest⟩, hp, h⟩ := exists_of_bind_eq_ok h
  simp only at h
  split at h
  · cases h
  · cases h
    exact ⟨((parse_wf line _).1 line _ rest (suffix_refl _) hp).1, rfl⟩

/-- **Tokens can be terminated in place.**  When `parsecmd` accepts a line, the buffer it leaves is
the line with its NUL, overwritten by NULs at positions inside it; and each `argv[i]` and each file
of a redirection is a token of the line that reads, as a C string of this buffer, as it did in the
line. -/
theorem parsecmd_in_place (line : List Char) (h0 : NUL ∉ line) {cmd : Cmd Span} {buf : List Char}
    (h : parsecmd line = .ok (cmd, buf)) :
    (∀ a ∈ cmd.strings, IsToken line a ∧ cString buf a.q = text line a) ∧
    buf = (writes cmd).foldl (fun buf e => buf.set e NUL) (line ++ [NUL]) ∧
    ∀ e ∈ writes cmd, e ≤ line.length := by
  obtain ⟨hwf, rfl⟩ := parsecmd_inv h
  refine ⟨?_, nulterminate_eq cmd _, ?_⟩
  · intro a ha
    exact ⟨hwf.strings a ha, cString_nulterminate h0 hwf ha⟩
  · intro e he
    obtain ⟨a, ha, rfl⟩ := mem_strings_of_mem_writes he
    exact (hwf.strings a ha).end_not_word.1

/-- Tokens and operators that abut. -/
theorem parsecmd_in_place_abutting :
    parsecmd "a>b|c;d".toList =
      .ok (.list (.pipe (.redir (.exec (argvOf [⟨0, 1⟩])) ⟨2, 3⟩ [.O_WRONLY, .O_CREAT] 1)
        (.exec (argvOf [⟨4, 5⟩]))) (.exec (argvOf [⟨6, 7⟩])),
        ['a', NUL, 'b', NUL, 'c', NUL, 'd', NUL]) ∧
    cString ['a', NUL, 'b', NUL, 'c', NUL, 'd', NUL] 4 = text "a>b|c;d".toList ⟨4, 5⟩ :=
  have h : parsecmd "a>b|c;d".toList = .ok (_, ['a', NUL, 'b', NUL, 'c', NUL, 'd', NUL]) := by
    decide +kernel
  ⟨h, ((parsecmd_in_place "a>b|c;d".toList (by decide +kernel) h).1 ⟨4, 5⟩ (by decide +kernel)).2⟩

end Xv6

end Laboratorio.Shell
