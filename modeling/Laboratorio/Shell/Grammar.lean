import Laboratorio.Lib.Runs
import Laboratorio.Shell.Tokens

/-!
# The grammar of the lab-02 shell

    line  := exec ('|' line)?
    exec  := redir* (word redir*)*      with at most 9 words
    redir := ('<' | '>') word
-/

namespace Laboratorio.Shell.Lab02

open Laboratorio.Lib List

/-! ## Trees of the grammar -/

/-- An exec node with the words `ws` inside the redirections `rs`, the first one innermost. -/
def execTree (ws : List (List Char)) (rs : List (List Char × Char)) : Cmd (List Char) :=
  rs.foldl (fun cmd r => redircmd cmd r.1 r.2) (.exec (argvOf ws))

/-- A redirection: its file and its symbol. -/
inductive Redir : List Tok → List Char × Char → Prop
  | input (f : List Char) : Redir [.lt, .word f] (f, '<')
  | output (f : List Char) : Redir [.gt, .word f] (f, '>')

/-- `redir*` -/
inductive Redirs : List Tok → List (List Char × Char) → Prop
  | nil : Redirs [] []
  | cons {ts us : List Tok} {r : List Char × Char} {rs : List (List Char × Char)} :
      Redir ts r → Redirs us rs → Redirs (ts ++ us) (r :: rs)

/-- `(word redir*)*` -/
inductive Args : List Tok → List (List Char) → List (List Char × Char) → Prop
  | nil : Args [] [] []
  | cons {ts us : List Tok} {w : List Char} {ws : List (List Char)}
      {rs rs' : List (List Char × Char)} :
      Redirs ts rs → Args us ws rs' → Args (.word w :: (ts ++ us)) (w :: ws) (rs ++ rs')

/-- `redir* (word redir*)*`, with at most 9 words. -/
inductive Exec : List Tok → Cmd (List Char) → Prop
  | mk {ts us : List Tok} {ws : List (List Char)} {rs rs' : List (List Char × Char)} :
      Redirs ts rs → Args us ws rs' → ws.length ≤ 9 → Exec (ts ++ us) (execTree ws (rs ++ rs'))

/-- `exec ('|' line)?` -/
inductive Line : List Tok → Cmd (List Char) → Prop
  | exec {ts : List Tok} {cmd : Cmd (List Char)} : Exec ts cmd → Line ts cmd
  | pipe {ts us : List Tok} {left right : Cmd (List Char)} :
      Exec ts left → Line us right → Line (ts ++ .bar :: us) (.pipe left right)

theorem foldl_setArg (rs : List (List Char × Char)) (cmd : Cmd (List Char)) (k : Nat)
    (v : Option (List Char)) :
    (rs.foldl (fun cmd r => redircmd cmd r.1 r.2) cmd).setArg k v =
      rs.foldl (fun cmd r => redircmd cmd r.1 r.2) (cmd.setArg k v) := by
  induction rs generalizing cmd with
  | nil => rfl
  | cons r rs ih => exact ih (redircmd cmd r.1 r.2)

theorem execTree_word {ws : List (List Char)} (rs : List (List Char × Char)) (w : List Char)
    (h : ws.length < 10) :
    (execTree ws rs).setArg ws.length (some w) = execTree (ws ++ [w]) rs := by
  unfold execTree
  rw [foldl_setArg, Cmd.setArg, argvOf_set_some w h]

theorem execTree_null {ws : List (List Char)} (rs : List (List Char × Char))
    (h : ws.length < 10) : (execTree ws rs).setArg ws.length none = execTree ws rs := by
  unfold execTree
  rw [foldl_setArg, Cmd.setArg, argvOf_set_none h]

theorem redircmd_execTree (ws : List (List Char)) (rs : List (List Char × Char)) (f : List Char)
    (c : Char) : redircmd (execTree ws rs) f c = execTree ws (rs ++ [(f, c)]) := by
  unfold execTree
  rw [foldl_append]
  rfl

/-! ## `parseexec` on tokens -/

/-- What `parseexec` does from the point where it has `ws` and `rs`: the node and the tokens that
are left. -/
def execToks (ws : List (List Char)) (rs : List (List Char × Char)) :
    List Tok → Except Error (Cmd (List Char) × List Tok)
  | [] => .ok (execTree ws rs, [])
  | .bar :: ts => .ok (execTree ws rs, .bar :: ts)
  | .word w :: ts =>
    if ws.length + 1 ≥ 10 then .error .tooManyArgs else execToks (ws ++ [w]) rs ts
  | .lt :: .word f :: ts => execToks ws (rs ++ [(f, '<')]) ts
  | .gt :: .word f :: ts => execToks ws (rs ++ [(f, '>')]) ts
  | .lt :: _ | .gt :: _ => .error .missingFile

/-- An `exec` is over at the end of the line or at a `|`. -/
def AtEnd (ts : List Tok) : Prop := ts = [] ∨ ∃ us, ts = .bar :: us

variable {s : List Char} {cmd : Cmd (List Char)} {ts us : List Tok} {k : Tok} {w : List Char}
  {ws ws' : List (List Char)} {rs rs' : List (List Char × Char)}

theorem skip_not_mem (h0 : NUL ∉ s) : NUL ∉ skip strchr s :=
  fun hm => h0 ((skip_suffix strchr s).subset hm)

/-- With no redirection ahead `parseredirs` only skips whitespace. -/
theorem parseredirs_stop (h0 : NUL ∉ s) (h : ∀ k ∈ (tokens s).head?, k ≠ .lt ∧ k ≠ .gt)
    (n : Nat) (cmd : Cmd (List Char)) :
    parseredirs (n + 1) cmd s = .ok (cmd, skip strchr s) := by
  have hp : (peek ['<', '>'] s).1 = false := by
    rw [peek_spec h0 (by simp [symbols])]
    cases ht : (tokens s).head? with
    | none => rfl
    | some k =>
      obtain ⟨h1, h2⟩ := h k ht
      cases k with
      | word w => rfl
      | bar => rfl
      | lt => exact absurd rfl h1
      | gt => exact absurd rfl h2
  rw [parseredirs]
  simp only [hp, Bool.false_eq_true, if_false]
  rfl

/-- The symbol of a redirection and what follows it. -/
theorem parseredirs_symbol (h0 : NUL ∉ s) (ht : tokens s = k :: ts) (hk : k = .lt ∨ k = .gt)
    (n : Nat) (cmd : Cmd (List Char)) :
    ∃ s', tokens s' = ts ∧ NUL ∉ s' ∧ parseredirs (n + 1) cmd s =
      if (gettoken s').ret ≠ 'a' then .error .missingFile
      else parseredirs n (redircmd cmd (mkcopy (gettoken s').q (gettoken s').eq) k.ret)
        (gettoken s').ps := by
  have hp : (peek ['<', '>'] s).1 = true := by
    rw [peek_spec h0 (by simp [symbols]), ht]
    rcases hk with rfl | rfl <;> rfl
  have hs : tokens (skip strchr s) = k :: ts := by rw [tokens_skip h0, ht]
  obtain ⟨hret, hps, hps0, _⟩ := gettoken_cons (skip_not_mem h0) hs
  refine ⟨(gettoken (skip strchr s)).ps, hps, hps0, ?_⟩
  rw [parseredirs]
  simp only [hp, if_true, peek_snd, hret]
  rcases hk with rfl | rfl <;> rfl

theorem parseredirs_file (h0 : NUL ∉ s) (ht : tokens s = k :: .word w :: ts)
    (hk : k = .lt ∨ k = .gt) (n : Nat) (cmd : Cmd (List Char)) :
    ∃ s', tokens s' = ts ∧ NUL ∉ s' ∧
      parseredirs (n + 1) cmd s = parseredirs n (redircmd cmd w k.ret) s' := by
  obtain ⟨s1, hs1, h1, heq⟩ := parseredirs_symbol h0 ht hk n cmd
  obtain ⟨hret, hps, hps0, hw⟩ := gettoken_cons h1 hs1
  refine ⟨(gettoken s1).ps, hps, hps0, ?_⟩
  rw [heq, if_neg (by rw [hret]; exact fun h => h rfl), hw w rfl]

theorem parseredirs_missing (h0 : NUL ∉ s) (ht : tokens s = k :: ts) (hk : k = .lt ∨ k = .gt)
    (hts : ∀ w us, ts ≠ .word w :: us) (n : Nat) (cmd : Cmd (List Char)) :
    parseredirs (n + 1) cmd s = .error .missingFile := by
  obtain ⟨s1, hs1, h1, heq⟩ := parseredirs_symbol h0 ht hk n cmd
  have hret : (gettoken s1).ret ≠ 'a' := by
    cases ts with
    | nil => rw [(gettoken_nil h1 hs1).1]; decide
    | cons k' us =>
      rw [(gettoken_cons h1 hs1).1]
      cases k' with
      | word w => exact absurd rfl (hts w us)
      | lt => decide
      | bar => decide
      | gt => decide
  rw [heq, if_pos hret]

/-- At a `|` or at the end `parseargs` stores the null and stops. -/
theorem parseargs_stop (h0 : NUL ∉ s) (ht : AtEnd (tokens s)) (n : Nat) {argc : Nat}
    (ha : argc < 10) (cmd : Cmd (List Char)) :
    ∃ s', tokens s' = tokens s ∧ parseargs (n + 1) cmd argc s = .ok (cmd.setArg argc none, s') := by
  have hst : storeArg cmd argc none = .ok (cmd.setArg argc none) := if_pos ha
  rcases ht with ht | ⟨ts, ht⟩
  · have hp : (peek ['|'] s).1 = false := by rw [peek_spec h0 (by simp [symbols]), ht]; rfl
    have hs : tokens (skip strchr s) = [] := by rw [tokens_skip h0, ht]
    obtain ⟨hret, hps⟩ := gettoken_nil (skip_not_mem h0) hs
    refine ⟨[], by rw [ht, tokens_nil], ?_⟩
    rw [parseargs]
    simp only [hp, Bool.false_eq_true, if_false, peek_snd, hret, if_true, hst, hps]
    rfl
  · have hp : (peek ['|'] s).1 = true := by rw [peek_spec h0 (by simp [symbols]), ht]; rfl
    refine ⟨skip strchr s, tokens_skip h0, ?_⟩
    rw [parseargs]
    simp only [hp, if_true, hst]
    rfl

/-- A word goes into `argv`, unless it is the tenth. -/
theorem parseargs_word (h0 : NUL ∉ s) (ht : tokens s = .word w :: ts) (n : Nat) {argc : Nat}
    (ha : argc < 10) (cmd : Cmd (List Char)) :
    ∃ s', tokens s' = ts ∧ NUL ∉ s' ∧ parseargs (n + 1) cmd argc s =
      if argc + 1 ≥ 10 then .error .tooManyArgs
      else (parseredirs n (cmd.setArg argc (some w)) s').bind fun p =>
        parseargs n p.1 (argc + 1) p.2 := by
  have hp : (peek ['|'] s).1 = false := by rw [peek_spec h0 (by simp [symbols]), ht]; rfl
  have hs : tokens (skip strchr s) = .word w :: ts := by rw [tokens_skip h0, ht]
  obtain ⟨hret, hps, hps0, hw⟩ := gettoken_cons (skip_not_mem h0) hs
  have hst : storeArg cmd argc (some w) = .ok (cmd.setArg argc (some w)) := if_pos ha
  refine ⟨(gettoken (skip strchr s)).ps, hps, hps0, ?_⟩
  rw [parseargs]
  simp only [hp, Bool.false_eq_true, if_false, peek_snd, hret, hw w rfl, hst]
  rfl

/-- The rest of `parseexec`, from a point where `ws` and `rs` have been read. -/
def execRest (n m : Nat) (ws : List (List Char)) (rs : List (List Char × Char)) (s : List Char) :
    Except Error (Cmd (List Char) × List Char) :=
  (parseredirs n (execTree ws rs) s).bind fun p => parseargs m p.1 ws.length p.2

theorem execRest_no_redir (h0 : NUL ∉ s) (h : ∀ k ∈ (tokens s).head?, k ≠ .lt ∧ k ≠ .gt)
    (n m : Nat) :
    execRest (n + 1) m ws rs s = parseargs m (execTree ws rs) ws.length (skip strchr s) := by
  rw [execRest, parseredirs_stop h0 h]
  rfl

theorem execRest_stop (h0 : NUL ∉ s) (ht : AtEnd (tokens s)) (hw : ws.length ≤ 9) (n m : Nat) :
    (execRest (n + 1) (m + 1) ws rs s).map (fun p => (p.1, tokens p.2)) =
      .ok (execTree ws rs, tokens s) := by
  have hs := tokens_skip h0
  have hhead : ∀ k ∈ (tokens s).head?, k ≠ .lt ∧ k ≠ .gt := by
    rcases ht with ht | ⟨us, ht⟩
    · rw [ht]
      nofun
    · rw [ht]
      rintro k ⟨⟩
      decide
  obtain ⟨s', hs', heq⟩ := parseargs_stop (skip_not_mem h0) (by rw [hs]; exact ht) m
    (show ws.length < 10 by omega) (execTree ws rs)
  rw [execRest_no_redir h0 hhead, heq, execTree_null rs (by omega)]
  show Except.ok (execTree ws rs, tokens s') = _
  rw [hs', hs]

theorem execRest_word (h0 : NUL ∉ s) (ht : tokens s = .word w :: ts) (hw : ws.length ≤ 9)
    (rs : List (List Char × Char)) (n m : Nat) :
    ∃ s', tokens s' = ts ∧ NUL ∉ s' ∧ execRest (n + 1) (m + 1) ws rs s =
      if ws.length + 1 ≥ 10 then .error .tooManyArgs else execRest m m (ws ++ [w]) rs s' := by
  have hs : tokens (skip strchr s) = .word w :: ts := by rw [tokens_skip h0, ht]
  obtain ⟨s', hs', h0', heq⟩ := parseargs_word (skip_not_mem h0) hs m
    (show ws.length < 10 by omega) (execTree ws rs)
  refine ⟨s', hs', h0', ?_⟩
  rw [execRest_no_redir h0 (by rw [ht]; rintro k ⟨⟩; exact ⟨nofun, nofun⟩), heq,
    execTree_word rs w (by omega), execRest, length_append]
  rfl

theorem execRest_redir (h0 : NUL ∉ s) (ht : tokens s = k :: .word w :: ts)
    (hk : k = .lt ∨ k = .gt) (ws : List (List Char)) (rs : List (List Char × Char)) (n m : Nat) :
    ∃ s', tokens s' = ts ∧ NUL ∉ s' ∧
      execRest (n + 1) m ws rs s = execRest n m ws (rs ++ [(w, k.ret)]) s' := by
  obtain ⟨s', hs', h0', heq⟩ := parseredirs_file h0 ht hk n (execTree ws rs)
  refine ⟨s', hs', h0', ?_⟩
  rw [execRest, heq, redircmd_execTree]
  rfl

theorem execRest_missing (h0 : NUL ∉ s) (ht : tokens s = k :: ts) (hk : k = .lt ∨ k = .gt)
    (hts : ∀ w us, ts ≠ .word w :: us) (n m : Nat) :
    execRest (n + 1) m ws rs s = .error .missingFile := by
  rw [execRest, parseredirs_missing h0 ht hk hts]
  rfl

/-- **Simulation.**  The rest of `parseexec` does on characters what `execToks` does on tokens. -/
theorem exec_sim (ws : List (List Char)) (rs : List (List Char × Char)) (ts : List Tok) :
    ∀ (s : List Char) (n m : Nat), tokens s = ts → NUL ∉ s → ws.length ≤ 9 →
      ts.length < n → ts.length < m →
      (execRest n m ws rs s).map (fun p => (p.1, tokens p.2)) = execToks ws rs ts := by
  induction ws, rs, ts using execToks.induct with
  | case1 ws rs =>
    rintro s (_ | n) (_ | m) ht h0 hw hn hm <;> try omega
    rw [execRest_stop h0 (.inl ht) hw, ht]
    rfl
  | case2 ws rs ts =>
    rintro s (_ | n) (_ | m) ht h0 hw hn hm <;> try omega
    rw [execRest_stop h0 (.inr ⟨ts, ht⟩) hw, ht]
    rfl
  | case3 ws rs w ts hfull =>
    rintro s (_ | n) (_ | m) ht h0 hw hn hm <;> try omega
    obtain ⟨s', _, _, heq⟩ := execRest_word h0 ht hw rs n m
    rw [heq, if_pos hfull, execToks, if_pos hfull]
    rfl
  | case4 ws rs w ts hroom ih =>
    rintro s (_ | n) (_ | m) ht h0 hw hn hm <;> try omega
    simp only [length_cons] at hn hm
    obtain ⟨s', hs', h0', heq⟩ := execRest_word h0 ht hw rs n m
    rw [heq, if_neg hroom, execToks, if_neg hroom]
    exact ih s' m m hs' h0' (by simp; omega) (by omega) (by omega)
  | case5 ws rs f ts ih =>
    rintro s (_ | n) m ht h0 hw hn hm
    · omega
    simp only [length_cons] at hn hm
    obtain ⟨s', hs', h0', heq⟩ := execRest_redir h0 ht (.inl rfl) ws rs n m
    rw [heq, execToks]
    exact ih s' n m hs' h0' hw (by omega) (by omega)
  | case6 ws rs f ts ih =>
    rintro s (_ | n) m ht h0 hw hn hm
    · omega
    simp only [length_cons] at hn hm
    obtain ⟨s', hs', h0', heq⟩ := execRest_redir h0 ht (.inr rfl) ws rs n m
    rw [heq, execToks]
    exact ih s' n m hs' h0' hw (by omega) (by omega)
  | case7 ws rs ts hts =>
    rintro s (_ | n) m ht h0 hw hn hm
    · omega
    rw [execRest_missing h0 ht (.inl rfl) hts, execToks]
    · rfl
    · exact hts
  | case8 ws rs ts hts =>
    rintro s (_ | n) m ht h0 hw hn hm
    · omega
    rw [execRest_missing h0 ht (.inr rfl) hts, execToks]
    · rfl
    · exact hts

/-! ## The parser moves forward only -/

theorem parseredirs_suffix {n : Nat} {s' : List Char} {cmd' : Cmd (List Char)}
    (h : parseredirs n cmd s = .ok (cmd', s')) : s' <:+ s := by
  induction n generalizing cmd s with
  | zero => cases h
  | succ n ih =>
    have hnext : (gettoken (gettoken (peek ['<', '>'] s).2).ps).ps <:+ s :=
      (gettoken_suffix _).trans ((gettoken_suffix _).trans (skip_suffix strchr s))
    rw [parseredirs] at h
    simp only at h
    split at h
    · split at h
      · cases h
      split at h
      · exact (ih h).trans hnext
      split at h
      · exact (ih h).trans hnext
      · exact (ih h).trans hnext
    · cases h
      exact skip_suffix strchr s

theorem parseargs_suffix {n argc : Nat} {s' : List Char} {cmd' : Cmd (List Char)}
    (h : parseargs n cmd argc s = .ok (cmd', s')) : s' <:+ s := by
  induction n generalizing cmd argc s with
  | zero => cases h
  | succ n ih =>
    have hnext : (gettoken (peek ['|'] s).2).ps <:+ s :=
      (gettoken_suffix _).trans (skip_suffix strchr s)
    rw [parseargs] at h
    simp only at h
    split at h
    · obtain ⟨_, _, h⟩ := exists_of_bind_eq_ok h
      cases h
      exact skip_suffix strchr s
    split at h
    · obtain ⟨_, _, h⟩ := exists_of_bind_eq_ok h
      cases h
      exact hnext
    split at h
    · cases h
    · obtain ⟨_, _, h⟩ := exists_of_bind_eq_ok h
      split at h
      · cases h
      · obtain ⟨⟨ret, ps⟩, hr, h⟩ := exists_of_bind_eq_ok h
        exact (ih h).trans ((parseredirs_suffix hr).trans hnext)

theorem parseexec_suffix {n : Nat} {s' : List Char} (h : parseexec n s = .ok (cmd, s')) :
    s' <:+ s := by
  obtain ⟨⟨ret, ps⟩, hr, ha⟩ := exists_of_bind_eq_ok h
  exact (parseargs_suffix ha).trans (parseredirs_suffix hr)

/-! ## `execToks` and the grammar -/

theorem Redirs.execToks (h : Redirs ts rs') (ws : List (List Char))
    (rs : List (List Char × Char)) (us : List Tok) :
    execToks ws rs (ts ++ us) = Lab02.execToks ws (rs ++ rs') us := by
  induction h generalizing rs with
  | nil => simp
  | cons hr _ ih =>
    cases hr with
    | input f =>
      simp only [cons_append, nil_append, Lab02.execToks]
      rw [ih, append_assoc, singleton_append]
    | output f =>
      simp only [cons_append, nil_append, Lab02.execToks]
      rw [ih, append_assoc, singleton_append]

theorem Args.execToks (h : Args ts ws' rs') (ws : List (List Char))
    (rs : List (List Char × Char)) (us : List Tok) (h9 : ws.length + ws'.length ≤ 9) :
    execToks ws rs (ts ++ us) = Lab02.execToks (ws ++ ws') (rs ++ rs') us := by
  induction h generalizing ws rs with
  | nil => simp
  | cons hr _ ih =>
    simp only [length_cons] at h9
    simp only [cons_append, Lab02.execToks]
    rw [if_neg (by omega), append_assoc, hr.execToks, ih _ _ (by simp; omega)]
    simp

theorem execToks_of_exec (h : Exec ts cmd) (hus : AtEnd us) :
    execToks [] [] (ts ++ us) = .ok (cmd, us) := by
  cases h with
  | mk hr ha h9 =>
    rw [append_assoc, hr.execToks, ha.execToks _ _ _ (by simpa using h9)]
    simp only [nil_append]
    rcases hus with rfl | ⟨us, rfl⟩
    · rfl
    · rfl

theorem exec_of_execToks (h : execToks ws rs ts = .ok (cmd, us)) (h9 : ws.length ≤ 9) :
    AtEnd us ∧ ∃ ts1 ts2 rs1 ws2 rs2, ts = ts1 ++ ts2 ++ us ∧ Redirs ts1 rs1 ∧ Args ts2 ws2 rs2 ∧
      ws.length + ws2.length ≤ 9 ∧ cmd = execTree (ws ++ ws2) (rs ++ (rs1 ++ rs2)) := by
  induction ws, rs, ts using execToks.induct with
  | case1 ws rs =>
    cases h
    exact ⟨.inl rfl, [], [], [], [], [], rfl, .nil, .nil, h9, by simp⟩
  | case2 ws rs ts =>
    cases h
    exact ⟨.inr ⟨ts, rfl⟩, [], [], [], [], [], rfl, .nil, .nil, h9, by simp⟩
  | case3 ws rs w ts hfull =>
    rw [execToks, if_pos hfull] at h
    cases h
  | case4 ws rs w ts hroom ih =>
    rw [execToks, if_neg hroom] at h
    obtain ⟨hend, ts1, ts2, rs1, ws2, rs2, rfl, hr, ha, hlen, hcmd⟩ := ih h (by simp; omega)
    refine ⟨hend, [], .word w :: (ts1 ++ ts2), [], w :: ws2, rs1 ++ rs2, rfl, .nil,
      .cons hr ha, ?_, ?_⟩
    · simp only [length_append, length_cons, length_nil] at hlen ⊢
      omega
    · rw [hcmd]
      simp
  | case5 ws rs f ts ih =>
    rw [execToks] at h
    obtain ⟨hend, ts1, ts2, rs1, ws2, rs2, rfl, hr, ha, hlen, hcmd⟩ := ih h h9
    refine ⟨hend, [.lt, .word f] ++ ts1, ts2, (f, '<') :: rs1, ws2, rs2, rfl,
      .cons (.input f) hr, ha, hlen, ?_⟩
    rw [hcmd]
    simp
  | case6 ws rs f ts ih =>
    rw [execToks] at h
    obtain ⟨hend, ts1, ts2, rs1, ws2, rs2, rfl, hr, ha, hlen, hcmd⟩ := ih h h9
    refine ⟨hend, [.gt, .word f] ++ ts1, ts2, (f, '>') :: rs1, ws2, rs2, rfl,
      .cons (.output f) hr, ha, hlen, ?_⟩
    rw [hcmd]
    simp
  | case7 ws rs ts hts =>
    rw [execToks] at h
    · cases h
    · exact hts
  | case8 ws rs ts hts =>
    rw [execToks] at h
    · cases h
    · exact hts

/-- `execToks` gives up for two reasons only. -/
theorem execToks_error {e : Error} (h : execToks ws rs ts = .error e) :
    e = .missingFile ∨ e = .tooManyArgs := by
  induction ws, rs, ts using execToks.induct with
  | case1 => cases h
  | case2 => cases h
  | case3 ws rs w ts hfull =>
    rw [execToks, if_pos hfull] at h
    cases h
    exact .inr rfl
  | case4 ws rs w ts hroom ih =>
    rw [execToks, if_neg hroom] at h
    exact ih h
  | case5 ws rs f ts ih => rw [execToks] at h; exact ih h
  | case6 ws rs f ts ih => rw [execToks] at h; exact ih h
  | case7 ws rs ts hts =>
    rw [execToks] at h
    · cases h; exact .inl rfl
    · exact hts
  | case8 ws rs ts hts =>
    rw [execToks] at h
    · cases h; exact .inl rfl
    · exact hts

/-! ## Pipes -/

theorem parseexec_sim {n : Nat} (h0 : NUL ∉ s) (hn : (tokens s).length < n) :
    (parseexec n s).map (fun p => (p.1, tokens p.2)) = execToks [] [] (tokens s) :=
  exec_sim [] [] (tokens s) s n n rfl h0 (Nat.zero_le _) hn hn

theorem parseexec_ok {n : Nat} {s' : List Char} (h0 : NUL ∉ s) (hn : (tokens s).length < n)
    (h : parseexec n s = .ok (cmd, s')) :
    NUL ∉ s' ∧ execToks [] [] (tokens s) = .ok (cmd, tokens s') := by
  refine ⟨fun hm => h0 ((parseexec_suffix h).subset hm), ?_⟩
  rw [← parseexec_sim h0 hn, h]
  rfl

theorem parsepipe_end {n : Nat} {s' : List Char} (h : parseexec (n + 1) s = .ok (cmd, s'))
    (h0 : NUL ∉ s') (ht : tokens s' = []) :
    parsepipe (n + 1) s = .ok (cmd, skip strchr s') := by
  have hp : (peek ['|'] s').1 = false := by rw [peek_spec h0 (by simp [symbols]), ht]; rfl
  rw [parsepipe, h]
  simp only [bind, Except.bind, hp, Bool.false_eq_true, if_false]
  rfl

theorem parsepipe_bar {n : Nat} {s' : List Char} (h : parseexec (n + 1) s = .ok (cmd, s'))
    (h0 : NUL ∉ s') (ht : tokens s' = .bar :: us) :
    ∃ s2, tokens s2 = us ∧ NUL ∉ s2 ∧
      parsepipe (n + 1) s = (parsepipe n s2).map fun p => (.pipe cmd p.1, p.2) := by
  have hp : (peek ['|'] s').1 = true := by rw [peek_spec h0 (by simp [symbols]), ht]; rfl
  have hs : tokens (skip strchr s') = .bar :: us := by rw [tokens_skip h0, ht]
  obtain ⟨_, hps, hps0, _⟩ := gettoken_cons (skip_not_mem h0) hs
  refine ⟨(gettoken (skip strchr s')).ps, hps, hps0, ?_⟩
  rw [parsepipe, h]
  simp only [bind, Except.bind, hp, if_true, peek_snd]
  cases parsepipe n (gettoken (skip strchr s')).ps with
  | error e => rfl
  | ok p => rfl

/-- What is asked of `parsepipe` on the rest `s` of the line. -/
structure PipeSpec (n : Nat) (s : List Char) : Prop where
  sound : ∀ cmd s', parsepipe n s = .ok (cmd, s') → tokens s' = [] ∧ NUL ∉ s' ∧ Line (tokens s) cmd
  complete : ∀ cmd, Line (tokens s) cmd → ∃ s', parsepipe n s = .ok (cmd, s')
  error : ∀ e, parsepipe n s = .error e → e = .missingFile ∨ e = .tooManyArgs

theorem execToks_of_line (h : Line ts cmd) :
    execToks [] [] ts = .ok (cmd, []) ∨
    ∃ us left right, execToks [] [] ts = .ok (left, .bar :: us) ∧ Line us right ∧
      cmd = .pipe left right := by
  cases h with
  | exec hE =>
    have := execToks_of_exec hE (.inl rfl)
    rw [append_nil] at this
    exact .inl this
  | pipe hE hL => exact .inr ⟨_, _, _, execToks_of_exec hE (.inr ⟨_, rfl⟩), hL, rfl⟩

/-- What `parseexec` reads from the start of a line is an `exec`. -/
theorem exec_of_execToks_nil (h : execToks [] [] ts = .ok (cmd, us)) :
    AtEnd us ∧ ∃ ts', ts = ts' ++ us ∧ Exec ts' cmd := by
  obtain ⟨hend, ts1, ts2, rs1, ws2, rs2, hts, hr, ha, h9, hcmd⟩ :=
    exec_of_execToks h (Nat.zero_le _)
  refine ⟨hend, ts1 ++ ts2, hts, ?_⟩
  rw [hcmd, nil_append, nil_append]
  exact .mk hr ha (by simpa using h9)

theorem pipeSpec_error {n : Nat} {e : Error} (h0 : NUL ∉ s) (hn : (tokens s).length < n + 1)
    (hx : parseexec (n + 1) s = .error e) : PipeSpec (n + 1) s := by
  have hsim : execToks [] [] (tokens s) = .error e := by
    rw [← parseexec_sim h0 hn, hx]
    rfl
  have hpipe : parsepipe (n + 1) s = .error e := by
    rw [parsepipe, hx]
    rfl
  refine ⟨?_, ?_, ?_⟩
  · intro cmd s' h
    rw [hpipe] at h
    cases h
  · intro cmd hL
    rcases execToks_of_line hL with h | ⟨us, left, right, h, _⟩
    · rw [hsim] at h
      cases h
    · rw [hsim] at h
      cases h
  · intro e' h
    rw [hpipe] at h
    cases h
    exact execToks_error hsim

theorem pipeSpec_end {n : Nat} {s' : List Char} (h0 : NUL ∉ s') (hnil : tokens s' = [])
    (hx : parseexec (n + 1) s = .ok (cmd, s'))
    (hsim : execToks [] [] (tokens s) = .ok (cmd, [])) : PipeSpec (n + 1) s := by
  have hpipe := parsepipe_end hx h0 hnil
  refine ⟨?_, ?_, ?_⟩
  · intro cmd' s'' h
    rw [hpipe] at h
    cases h
    obtain ⟨-, ts', hts, hE⟩ := exec_of_execToks_nil hsim
    refine ⟨by rw [tokens_skip h0, hnil], skip_not_mem h0, ?_⟩
    rw [hts, append_nil]
    exact .exec hE
  · intro cmd' hL
    rcases execToks_of_line hL with h | ⟨us, left, right, h, _⟩
    · rw [hsim] at h
      cases h
      exact ⟨_, hpipe⟩
    · rw [hsim] at h
      cases h
  · intro e h
    rw [hpipe] at h
    cases h

theorem pipeSpec_bar {n : Nat} {s2 : List Char} (ih : PipeSpec n s2)
    (hsim : execToks [] [] (tokens s) = .ok (cmd, .bar :: tokens s2))
    (hpipe : parsepipe (n + 1) s = (parsepipe n s2).map fun p => (.pipe cmd p.1, p.2)) :
    PipeSpec (n + 1) s := by
  refine ⟨?_, ?_, ?_⟩
  · intro cmd' s'' h
    rw [hpipe] at h
    obtain ⟨⟨right, s3⟩, hp, he⟩ := exists_of_map_eq_ok h
    cases he
    obtain ⟨hnil, hnul, hL⟩ := ih.sound right s3 hp
    obtain ⟨-, ts', hts, hE⟩ := exec_of_execToks_nil hsim
    refine ⟨hnil, hnul, ?_⟩
    rw [hts]
    exact .pipe hE hL
  · intro cmd' hL
    rcases execToks_of_line hL with h | ⟨us, left, right, h, hR, rfl⟩
    · rw [hsim] at h
      cases h
    · rw [hsim] at h
      cases h
      obtain ⟨s'', hs''⟩ := ih.complete right hR
      exact ⟨s'', by rw [hpipe, hs'']; rfl⟩
  · intro e h
    rw [hpipe] at h
    cases hp : parsepipe n s2 with
    | error e' =>
      rw [hp] at h
      cases h
      exact ih.error _ hp
    | ok p =>
      rw [hp] at h
      cases h

theorem parsepipe_spec (n : Nat) :
    ∀ s, NUL ∉ s → (tokens s).length < n → PipeSpec n s := by
  induction n with
  | zero => intro s _ hn; omega
  | succ n ih =>
    intro s h0 hn
    cases hx : parseexec (n + 1) s with
    | error e => exact pipeSpec_error h0 hn hx
    | ok p =>
      obtain ⟨cmd, s'⟩ := p
      obtain ⟨h0', hsim⟩ := parseexec_ok h0 hn hx
      obtain ⟨hend, ts', hts, -⟩ := exec_of_execToks_nil hsim
      rcases hend with hnil | ⟨us, hbar⟩
      · exact pipeSpec_end h0' hnil hx (by rw [hsim, hnil])
      · obtain ⟨s2, rfl, h0₂, hpipe⟩ := parsepipe_bar hx h0' hbar
        refine pipeSpec_bar (ih s2 h0₂ ?_) (by rw [hsim, hbar]) hpipe
        rw [hts, hbar] at hn
        simp only [length_append, length_cons] at hn
        omega

/-- `parsecmd` adds nothing to `parsepipe`: no leftovers are possible. -/
theorem parsecmd_eq (h0 : NUL ∉ s) :
    parsecmd s = (parsepipe (s.length + 1) s).map Prod.fst := by
  have hlen := length_tokens_le s
  have hspec := parsepipe_spec (s.length + 1) s h0 (by omega)
  unfold parsecmd parseline
  cases hp : parsepipe (s.length + 1) s with
  | error e => rfl
  | ok p =>
    obtain ⟨cmd, s'⟩ := p
    obtain ⟨hnil, h0', _⟩ := hspec.sound cmd s' hp
    simp only [bind, Except.bind, peek_snd, skip_of_tokens_nil h0' hnil]
    rfl

/-- **The lab-02 parser accepts exactly its grammar.**  On a line without NUL, `parsecmd` returns a
tree if and only if the tokens of the line form a `line` of the grammar with that tree, and the only
ways in which it gives up are a missing file and too many arguments. -/
theorem parsecmd_iff (line : List Char) (h0 : NUL ∉ line) :
    (∀ cmd, parsecmd line = .ok cmd ↔ Line (tokens line) cmd) ∧
    (∀ e, parsecmd line = .error e → e = .missingFile ∨ e = .tooManyArgs) := by
  have hlen := length_tokens_le line
  have hspec := parsepipe_spec (line.length + 1) line h0 (by omega)
  rw [parsecmd_eq h0]
  refine ⟨fun cmd => ⟨fun h => ?_, fun hL => ?_⟩, fun e h => ?_⟩
  · cases hp : parsepipe (line.length + 1) line with
    | error e => rw [hp] at h; cases h
    | ok p =>
      rw [hp] at h
      cases h
      exact (hspec.sound p.1 p.2 hp).2.2
  · obtain ⟨s', h⟩ := hspec.complete cmd hL
    rw [h]
    rfl
  · cases hp : parsepipe (line.length + 1) line with
    | error e' =>
      rw [hp] at h
      cases h
      exact hspec.error e hp
    | ok p => rw [hp] at h; cases h

/-- A pipe with a redirection on its left. -/
theorem parsecmd_iff_pipe_redir :
    (∀ cmd, parsecmd "ls -l >f | wc".toList = .ok cmd ↔
      Line (tokens "ls -l >f | wc".toList) cmd) ∧
    parsecmd "ls -l >f | wc".toList =
      .ok (.pipe (execTree ["ls".toList, "-l".toList] [("f".toList, '>')])
        (execTree ["wc".toList] [])) :=
  ⟨(parsecmd_iff "ls -l >f | wc".toList (by decide)).1, by decide +kernel⟩

end Laboratorio.Shell.Lab02
