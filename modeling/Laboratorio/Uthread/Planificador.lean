import Laboratorio.Lib.Cyclic
import Laboratorio.Uthread.Modelo

/-!
# The scheduler of `uthreadlib.c`

The branch for "the current thread is the only runnable thread" is never taken, because `t` is an
element of `all_thread` after the scan.
-/

namespace Laboratorio.Uthread

open Laboratorio.Lib Laboratorio.Lib.Cyclic

variable {s t u : State} {ctx : Ctx} {op : Op} {ops : List Op}

/-- What holds between two calls of the library. -/
structure Inv (s : State) : Prop where
  lastIndex : s.lastIndex = s.current_thread
  running : (s.all_thread s.current_thread).state = .RUNNING
  next_thread : s.next_thread = none

theorem Inv.thread_init : Inv thread_init := ⟨rfl, rfl, rfl⟩

/-- Some thread other than the current one is `RUNNABLE`. -/
def OtherRunnable (s : State) : Prop :=
  ∃ j, j ≠ s.current_thread ∧ (s.all_thread j).state = .RUNNABLE

instance (s : State) : Decidable (OtherRunnable s) := inferInstanceAs (Decidable (∃ _, _))

/-- Slot `j` is the first `RUNNABLE` one in cyclic order after the current one. -/
def FirstRunnable (s : State) (j : Slot) : Prop :=
  (s.all_thread j).state = .RUNNABLE ∧ j ≠ s.current_thread ∧
    ∀ e, 1 ≤ e → e < dist s.current_thread j →
      (s.all_thread (after s.current_thread e)).state ≠ .RUNNABLE

/-! ## States of threads -/

@[simp] theorem setState_state (i j : Slot) (st : TState) :
    ((setState s i st).all_thread j).state = if j = i then st else (s.all_thread j).state := by
  unfold setState
  rcases eq_or_ne j i with rfl | h
  · simp
  · simp [h]

@[simp] theorem setState_current (i : Slot) (st : TState) :
    (setState s i st).current_thread = s.current_thread := rfl

theorem thread_switch_state (next j : Slot) :
    ((thread_switch ctx s next).all_thread j).state = (s.all_thread j).state := by
  unfold thread_switch
  rcases eq_or_ne j s.current_thread with rfl | h
  · simp
  · simp [Function.update_of_ne h]

theorem eligible_iff (h : s.lastIndex = s.current_thread) {i : Nat} :
    eligible s i = true ↔ (s.all_thread (after s.current_thread i)).state = .RUNNABLE ∧
      after s.current_thread i ≠ s.current_thread := by
  unfold eligible after
  rw [h, decide_eq_true_eq]

/-! ## The two outcomes of `thread_schedule` -/

/-- The scan leaves `t` inside `all_thread`, so the fallback after it is dead code. -/
theorem scan_lt (s : State) : (scan s).2 < 8 := by
  unfold scan
  split
  · exact Nat.mod_lt _ (by decide)
  · exact Nat.mod_lt _ (by decide)

theorem thread_schedule_of_none (ctx : Ctx) (h : (scan s).1.next_thread = none) :
    thread_schedule ctx s = .error .noRunnable := by
  have ht := scan_lt s
  unfold thread_schedule
  simp only
  rw [if_neg (fun h => absurd h.1 (by omega)), h]

theorem thread_schedule_of_some (ctx : Ctx) {next : Slot}
    (h : (scan s).1.next_thread = some next) (hne : (scan s).1.current_thread ≠ next) :
    thread_schedule ctx s =
      .ok (thread_switch ctx (setState (scan s).1 next .RUNNING) next) := by
  have ht := scan_lt s
  unfold thread_schedule
  simp only
  rw [if_neg (fun h => absurd h.1 (by omega)), h]
  exact if_pos hne

theorem thread_schedule_none (h : s.lastIndex = s.current_thread) (hno : ¬ OtherRunnable s) :
    thread_schedule ctx s = .error .noRunnable := by
  have hf : (List.range' 1 7).find? (eligible s) = none := by
    rw [List.find?_eq_none]
    intro i _ he
    obtain ⟨hr, hne⟩ := (eligible_iff h).1 he
    exact hno ⟨_, hne, hr⟩
  apply thread_schedule_of_none
  unfold scan
  rw [hf]

/-- What a successful call does to the rest of the state. -/
theorem thread_schedule_some (ctx : Ctx) (h : s.lastIndex = s.current_thread)
    (hyes : OtherRunnable s) :
    ∃ t, thread_schedule ctx s = .ok t ∧ FirstRunnable s t.current_thread ∧ Inv t ∧
      ∀ i, (t.all_thread i).state =
        if i = t.current_thread then .RUNNING else (s.all_thread i).state := by
  obtain ⟨j, hj, hrun⟩ := hyes
  cases hf : (List.range' 1 7).find? (eligible s) with
  | none =>
    rw [List.find?_eq_none] at hf
    have hd := dist_lt s.current_thread j
    have hp := dist_pos hj
    refine absurd ((eligible_iff h).2 ?_) (hf (dist s.current_thread j) ?_)
    · rw [after_dist]; exact ⟨hrun, hj⟩
    · rw [List.mem_range'_1]; omega
  | some d =>
    have hd := List.find?_range'_eq_some.1 hf
    obtain ⟨hel, hmem, hmin⟩ := hd
    rw [List.mem_range'_1] at hmem
    obtain ⟨hr, hne⟩ := (eligible_iff h).1 hel
    have hnext : Fin.ofNat 8 (s.lastIndex + d) = after s.current_thread d := by
      unfold after; rw [h]
    have hdist : dist s.current_thread (after s.current_thread d) = d := by
      have h1 := dist_lt s.current_thread (after s.current_thread d)
      have h2 := dist_cases s.current_thread (after s.current_thread d)
      have h3 := after_cases (a := s.current_thread) (show d < 8 by omega)
      have h4 := s.current_thread.isLt
      omega
    have hscan : scan s = ({ s with
        next_thread := some (after s.current_thread d)
        lastIndex := (s.lastIndex + d) % 8 }, (s.lastIndex + d) % 8) := by
      unfold scan
      rw [hf, ← hnext]
    have hsched : thread_schedule ctx s = _ :=
      thread_schedule_of_some ctx (congrArg (fun p => p.1.next_thread) hscan) (by
        rw [hscan]; exact Ne.symm hne)
    rw [hsched, hscan]
    refine ⟨_, rfl, ⟨hr, hne, ?_⟩, ⟨?_, ?_, rfl⟩, ?_⟩
    · intro e he hlt hre
      show False
      have hlt' : e < d := by
        have : e < dist s.current_thread (after s.current_thread d) := hlt
        omega
      have := hmin e he hlt'
      rw [(eligible_iff h).2 ⟨hre, after_ne (by omega) (by omega)⟩] at this
      cases this
    · show (s.lastIndex + d) % 8 = (after s.current_thread d : Nat)
      unfold after
      rw [h, Fin.val_ofNat]
    · rw [thread_switch_state, setState_state]
      exact if_pos rfl
    · intro i
      rw [thread_switch_state, setState_state]
      rfl

/-! ## Runs -/

/-- Every operation that calls `thread_schedule` is that call. -/
theorem step_of_enters (h : op.enters s = some (ctx, u)) : step s op = thread_schedule ctx u := by
  cases op with
  | create func => cases h
  | yield ctx => cases h; rfl
  | exit ctx => cases h; rfl
  | schedule ctx => cases h; rfl

theorem thread_schedule_ne_outOfBounds (ctx : Ctx) (s : State) :
    thread_schedule ctx s ≠ .error .outOfBounds := by
  have ht := scan_lt s
  unfold thread_schedule
  intro h
  simp only at h
  rw [if_neg (fun h => absurd h.1 (by omega))] at h
  split at h
  · cases h
  · split at h <;> cases h

/-- The call is entered with the same current thread; only its state may have been changed. -/
theorem enters_spec (h : op.enters s = some (ctx, u)) :
    u.current_thread = s.current_thread ∧ u.lastIndex = s.lastIndex ∧
      ∀ j, j ≠ s.current_thread → (u.all_thread j).state = (s.all_thread j).state := by
  cases op with
  | create func => cases h
  | yield ctx => cases h; exact ⟨rfl, rfl, fun j hj => by simp [hj]⟩
  | exit ctx => cases h; exact ⟨rfl, rfl, fun j hj => by simp [hj]⟩
  | schedule ctx => cases h; exact ⟨rfl, rfl, fun j hj => rfl⟩

theorem thread_create_ok {func : Int} (h : thread_create func s = .ok t) :
    ∃ i, firstFree s = some i ∧ (s.all_thread i).state = .FREE ∧
      t.current_thread = s.current_thread ∧ t.lastIndex = s.lastIndex ∧
      t.next_thread = s.next_thread ∧
      ∀ j, (t.all_thread j).state = if j = i then .RUNNABLE else (s.all_thread j).state := by
  unfold thread_create at h
  split at h
  · cases h
  · rename_i i hi
    cases h
    refine ⟨i, hi, by simpa using Fin.eq_true_of_find?_eq_some hi, rfl, rfl, rfl, ?_⟩
    intro j
    rcases eq_or_ne j i with rfl | hj
    · simp
    · simp [hj]

theorem Inv.enters (hi : Inv s) (h : op.enters s = some (ctx, u)) :
    u.lastIndex = u.current_thread := by
  obtain ⟨hc, hl, _⟩ := enters_spec h
  rw [hl, hc]
  exact hi.lastIndex

/-- What a successful call can do: it fills a `FREE` slot, or it switches to the first `RUNNABLE`
thread. -/
theorem step_cases (hi : Inv s) (h : step s op = .ok t) :
    (∃ func i, op = .create func ∧ firstFree s = some i ∧ (s.all_thread i).state = .FREE ∧
      t.current_thread = s.current_thread ∧ t.lastIndex = s.lastIndex ∧
      t.next_thread = s.next_thread ∧
      ∀ j, (t.all_thread j).state = if j = i then .RUNNABLE else (s.all_thread j).state) ∨
    ∃ ctx u, op.enters s = some (ctx, u) ∧ FirstRunnable u t.current_thread ∧ Inv t ∧
      ∀ i, (t.all_thread i).state =
        if i = t.current_thread then .RUNNING else (u.all_thread i).state := by
  cases he : op.enters s with
  | none =>
    cases op with
    | create func =>
      obtain ⟨i, hcreate⟩ := thread_create_ok h
      exact Or.inl ⟨func, i, rfl, hcreate⟩
    | yield ctx => cases he
    | exit ctx => cases he
    | schedule ctx => cases he
  | some p =>
    obtain ⟨ctx, u⟩ := p
    rw [step_of_enters he] at h
    by_cases hy : OtherRunnable u
    · obtain ⟨t', ht', hsched⟩ := thread_schedule_some ctx (hi.enters he) hy
      rw [h] at ht'
      cases ht'
      exact Or.inr ⟨ctx, u, rfl, hsched⟩
    · rw [thread_schedule_none (hi.enters he) hy] at h
      cases h

theorem Inv.step (hi : Inv s) (h : step s op = .ok t) : Inv t := by
  rcases step_cases hi h with ⟨func, i, rfl, _, hfree, hc, hl, hn, hst⟩ | ⟨ctx, u, _, _, hinv, _⟩
  · refine ⟨by rw [hl, hc]; exact hi.lastIndex, ?_, by rw [hn]; exact hi.next_thread⟩
    rw [hst, hc, if_neg]
    · exact hi.running
    · rintro rfl
      rw [hi.running] at hfree
      cases hfree
  · exact hinv

theorem run_inv (ops : List Op) (s : State) (h : run step thread_init ops = .ok s) : Inv s :=
  run_invariant (P := fun _ s => Inv s) Inv.thread_init (fun _ _ _ _ _ hi h => hi.step h) ops s h

/-! ## When the program ends -/

/-- `thread_schedule` ends the program only when no thread, the current one included, is
`RUNNABLE`: what `ops` asks of each of its calls. -/
def EndsOnlyIdle (ops : List Op) : Prop :=
  ∀ pre op, pre ++ [op] <+: ops → ∀ s, run step thread_init pre = .ok s →
    ∀ ctx u, op.enters s = some (ctx, u) → thread_schedule ctx u = .error .noRunnable →
      ∀ i, (u.all_thread i).state ≠ .RUNNABLE

/-- A thread yields only while another one is `RUNNABLE`. -/
def YieldsToOther (s : State) : Op → Prop
  | .yield _ => OtherRunnable s
  | _ => True

instance (s : State) (op : Op) : Decidable (YieldsToOther s op) :=
  match op with
  | .yield _ => inferInstanceAs (Decidable (OtherRunnable s))
  | .create _ | .exit _ | .schedule _ => inferInstanceAs (Decidable True)

theorem otherRunnable_enters (h : op.enters s = some (ctx, u)) :
    OtherRunnable u ↔ OtherRunnable s := by
  obtain ⟨hc, _, hst⟩ := enters_spec h
  unfold OtherRunnable
  constructor
  · rintro ⟨j, hj, hr⟩
    rw [hc] at hj
    exact ⟨j, hj, by rw [← hst j hj]; exact hr⟩
  · rintro ⟨j, hj, hr⟩
    exact ⟨j, by rw [hc]; exact hj, by rw [hst j hj]; exact hr⟩

/-- A thread that yields alone ends the program, although it is `RUNNABLE` by then. -/
theorem thread_yield_alone (ctx : Ctx) (hi : Inv s) (hno : ¬ OtherRunnable s) :
    thread_yield ctx s = .error .noRunnable := by
  have he : (Op.yield ctx).enters s = some (ctx, setState s s.current_thread .RUNNABLE) := rfl
  exact thread_schedule_none hi.lastIndex fun ho => hno ((otherRunnable_enters he).1 ho)

/-- **When `thread_schedule` may be trusted to end the program.**  In a run of the library every
"no runnable threads" comes with no thread `RUNNABLE` if and only if no thread yields while it is
the only one that could run. -/
theorem no_runnable_iff (ops : List Op) :
    EndsOnlyIdle ops ↔ Meets step thread_init YieldsToOther ops := by
  constructor
  · intro h pre op hpre s hs
    cases op with
    | yield ctx =>
      refine Classical.byContradiction fun hno => ?_
      have hend := thread_yield_alone ctx (run_inv pre s hs) hno
      exact h pre _ hpre s hs ctx _ rfl hend s.current_thread (by simp)
    | create func => trivial
    | exit ctx => trivial
    | schedule ctx => trivial
  · intro hm pre op hpre s hs ctx u he hend i hrun
    have hi := run_inv pre s hs
    have hno : ¬ OtherRunnable u := by
      intro hy
      obtain ⟨t, ht, _⟩ := thread_schedule_some ctx (hi.enters he) hy
      rw [hend] at ht
      cases ht
    -- the thread left `RUNNABLE` is the current one, so it has just yielded
    have hcur : i = u.current_thread := Classical.byContradiction fun hne => hno ⟨i, hne, hrun⟩
    subst hcur
    cases op with
    | create func => cases he
    | yield ctx' =>
      exact hno ((otherRunnable_enters he).2 (hm pre _ hpre s hs))
    | exit ctx' =>
      cases he
      simp at hrun
    | schedule ctx' =>
      cases he
      rw [hi.running] at hrun
      cases hrun

/-- `main` creates a thread and yields to it, the thread exits, and `main` yields once more: the
program ends although `main` is `RUNNABLE`. -/
theorem yield_alone_ends :
    ¬ EndsOnlyIdle [.create 1, .yield ⟨0, fun _ => 0⟩, .exit ⟨0, fun _ => 0⟩,
      .yield ⟨0, fun _ => 0⟩] := by
  intro h
  obtain ⟨s, hs, halone⟩ : ∃ s, run step thread_init
      [.create 1, .yield ⟨0, fun _ => 0⟩, .exit ⟨0, fun _ => 0⟩] = .ok s ∧ ¬ OtherRunnable s := by
    decide +kernel
  have hend := thread_yield_alone ⟨0, fun _ => 0⟩ (run_inv _ s hs) halone
  exact h _ (.yield _) (List.prefix_refl _) s hs _ _ rfl hend s.current_thread (by simp)

/-! ## Live threads and free slots -/

/-- Slots whose thread was made by `thread_create` and has not exited. -/
def created (s : State) (C : Finset Slot) : Op → Finset Slot
  | .create _ =>
    match firstFree s with
    | some i => insert i C
    | none => C
  | .exit _ => C.erase s.current_thread
  | .yield _ | .schedule _ => C

/-- A step that also keeps the set of live created threads. -/
def stepLive (p : State × Finset Slot) (op : Op) : Except Stop (State × Finset Slot) :=
  match step p.1 op with
  | .ok t => .ok (t, created p.1 p.2 op)
  | .error e => .error e

/-- A thread is created only while at most 6 created threads are live. -/
def LiveBound (p : State × Finset Slot) : Op → Prop
  | .create _ => p.2.card ≤ 6
  | _ => True

instance (p : State × Finset Slot) (op : Op) : Decidable (LiveBound p op) :=
  match op with
  | .create _ => inferInstanceAs (Decidable (_ ≤ _))
  | .yield _ | .exit _ | .schedule _ => inferInstanceAs (Decidable True)

/-- At most 7 created threads are live at any time of the run. -/
def AtMost7Live (ops : List Op) : Prop := Meets stepLive (thread_init, ∅) LiveBound ops

theorem stepLive_ok {p q : State × Finset Slot} :
    stepLive p op = .ok q ↔ step p.1 op = .ok q.1 ∧ q.2 = created p.1 p.2 op := by
  obtain ⟨q, D⟩ := q
  unfold stepLive
  split
  · rename_i t ht
    rw [ht]
    simp only [Except.ok.injEq, Prod.mk.injEq]
    constructor
    · rintro ⟨rfl, rfl⟩; exact ⟨rfl, rfl⟩
    · rintro ⟨rfl, rfl⟩; exact ⟨rfl, rfl⟩
  · rename_i e he
    rw [he]
    simp

/-- The instrumented run follows the run of the library. -/
theorem run_stepLive {C : Finset Slot} (h : run step s ops = .ok t) :
    ∃ D, run stepLive (s, C) ops = .ok (t, D) := by
  induction ops generalizing s C with
  | nil =>
    rw [run_nil] at h
    cases h
    exact ⟨C, rfl⟩
  | cons op ops ih =>
    obtain ⟨u, hu, ht⟩ := run_cons_ok.1 h
    obtain ⟨D, hD⟩ := ih (C := created s C op) ht
    exact ⟨D, run_cons_ok.2 ⟨(u, created s C op), stepLive_ok.2 ⟨hu, rfl⟩, hD⟩⟩

/-- Every thread that is not `FREE` is the one of slot 0 or a live created one, and the machine
is between two calls. -/
def LiveInv (p : State × Finset Slot) : Prop :=
  Inv p.1 ∧ ∀ i, (p.1.all_thread i).state ≠ .FREE → i = 0 ∨ i ∈ p.2

theorem LiveInv.step {p q : State × Finset Slot} (hi : LiveInv p) (h : stepLive p op = .ok q) :
    LiveInv q := by
  obtain ⟨h, hD⟩ := stepLive_ok.1 h
  refine ⟨hi.1.step h, fun i hf => ?_⟩
  rw [hD]
  rcases step_cases hi.1 h with
    ⟨func, k, rfl, hk, _, _, _, _, hst⟩ | ⟨ctx, u, he, ⟨hrun, _, _⟩, _, hst⟩
  · simp only [created, hk, Finset.mem_insert]
    rw [hst] at hf
    split at hf
    · rename_i hik
      exact Or.inr (Or.inl hik)
    · exact (hi.2 i hf).imp_right Or.inr
  · rw [hst] at hf
    -- a slot that is not `FREE` after the call was not `FREE` before it
    have hold : (u.all_thread i).state ≠ .FREE := by
      split at hf
      · rename_i heq
        rw [heq, hrun]
        decide
      · exact hf
    rcases eq_or_ne i p.1.current_thread with rfl | hic
    · cases op with
      | create func => cases he
      | yield ctx' => exact hi.2 _ (by rw [hi.1.running]; decide)
      | exit ctx' =>
        cases he
        simp at hold
      | schedule ctx' => exact hi.2 _ (by rw [hi.1.running]; decide)
    · rw [(enters_spec he).2.2 i hic] at hold
      refine (hi.2 i hold).imp_right fun hC => ?_
      cases op with
      | create func => cases he
      | yield ctx' => exact hC
      | exit ctx' => exact Finset.mem_erase.2 ⟨hic, hC⟩
      | schedule ctx' => exact hC

theorem LiveInv.thread_init : LiveInv (thread_init, ∅) := by
  refine ⟨Inv.thread_init, ?_⟩
  decide

theorem run_liveInv (ops : List Op) (p : State × Finset Slot)
    (h : run stepLive (thread_init, ∅) ops = .ok p) : LiveInv p :=
  run_invariant (P := fun _ p => LiveInv p) LiveInv.thread_init
    (fun _ _ _ _ _ hi h => hi.step h) ops p h

/-- With at most 6 created threads live, `thread_create` finds a `FREE` slot. -/
theorem LiveInv.firstFree_ne_none {p : State × Finset Slot} (hi : LiveInv p) (h6 : p.2.card ≤ 6) :
    firstFree p.1 ≠ none := by
  intro hnone
  have hall : ∀ i, i ∈ insert 0 p.2 := by
    intro i
    have := Fin.eq_false_of_find?_eq_none hnone i
    simp only [decide_eq_false_iff_not] at this
    exact Finset.mem_insert.2 (hi.2 i this)
  have h8 : (Finset.univ : Finset Slot).card ≤ (insert 0 p.2).card :=
    Finset.card_le_card fun i _ => hall i
  have h7 := Finset.card_insert_le (0 : Slot) p.2
  rw [Finset.card_univ, Fintype.card_fin] at h8
  omega

/-- **`thread_create` never runs off the table** while at most 7 created threads are live. -/
theorem run_ne_outOfBounds (ops : List Op) (hlive : AtMost7Live ops) :
    run step thread_init ops ≠ .error .outOfBounds := by
  apply run_ne_error
  intro pre op s hpre hs h
  obtain ⟨D, hD⟩ := run_stepLive (C := ∅) hs
  cases op with
  | create func =>
    have hne := (run_liveInv pre (s, D) hD).firstFree_ne_none (hlive pre _ hpre _ hD)
    simp only [step, thread_create] at h
    split at h
    · rename_i hnone
      exact hne hnone
    · cases h
  | yield ctx => exact thread_schedule_ne_outOfBounds _ _ h
  | exit ctx => exact thread_schedule_ne_outOfBounds _ _ h
  | schedule ctx => exact thread_schedule_ne_outOfBounds _ _ h

/-! ## Round robin -/

/-- The first `RUNNABLE` slot does not lie beyond a given `RUNNABLE` one. -/
theorem FirstRunnable.dist_le {i j : Slot} (h : FirstRunnable s i)
    (hj : (s.all_thread j).state = .RUNNABLE) (hne : j ≠ s.current_thread) :
    dist s.current_thread i ≤ dist s.current_thread j := by
  refine Nat.le_of_not_lt fun hlt => ?_
  exact h.2.2 _ (dist_pos hne) hlt (by rw [after_dist]; exact hj)

theorem Inv.ne_current (hi : Inv s) {j : Slot} (hj : (s.all_thread j).state = .RUNNABLE) :
    j ≠ s.current_thread := by
  rintro rfl
  rw [hi.running] at hj
  cases hj

/-- A scheduling call while slot `j` waits runs `j` or brings the current thread nearer to it. -/
theorem schedule_nearer {j : Slot} (hi : Inv s) (hj : (s.all_thread j).state = .RUNNABLE)
    (he : op.enters s = some (ctx, u)) :
    ∃ t, step s op = .ok t ∧ Inv t ∧ (t.current_thread = j ∨
      ((t.all_thread j).state = .RUNNABLE ∧
        dist t.current_thread j < dist s.current_thread j)) := by
  have hne := hi.ne_current hj
  obtain ⟨hc, _, hother⟩ := enters_spec he
  have hju : (u.all_thread j).state = .RUNNABLE := by
    rw [hother j hne]
    exact hj
  have hneu : j ≠ u.current_thread := by
    rw [hc]
    exact hne
  obtain ⟨t, ht, hfirst, hinv, hst⟩ := thread_schedule_some ctx (hi.enters he) ⟨j, hneu, hju⟩
  refine ⟨t, by rw [step_of_enters he]; exact ht, hinv, ?_⟩
  rcases eq_or_ne t.current_thread j with htj | htj
  · exact Or.inl htj
  · right
    refine ⟨by rw [hst, if_neg (Ne.symm htj)]; exact hju, ?_⟩
    have hstep := dist_after_left (hfirst.dist_le hju hneu)
    have hpos := dist_pos hfirst.2.1
    rw [after_dist, hc] at hstep
    rw [hc] at hpos
    omega

theorem thread_create_error {func : Int} {e : Stop} (h : thread_create func s = .error e) :
    e = .outOfBounds := by
  unfold thread_create at h
  split at h
  · cases h
    rfl
  · cases h

/-- A thread that is `RUNNABLE` at distance at most `k` runs within `k` calls. -/
theorem picked_within {j : Slot} (more : List Op) :
    ∀ (s : State) (k : Nat), Inv s → (s.all_thread j).state = .RUNNABLE →
      dist s.current_thread j ≤ k → k ≤ more.countP Op.schedules →
      run step s more ≠ .error .outOfBounds →
      ∃ w, w <+: more ∧ w.countP Op.schedules ≤ k ∧
        ∃ t, run step s w = .ok t ∧ t.current_thread = j := by
  induction more with
  | nil =>
    intro s k hi hj hd hk _
    have := dist_pos (hi.ne_current hj)
    simp only [List.countP_nil] at hk
    omega
  | cons op more ih =>
    intro s k hi hj hd hk hoob
    cases he : op.enters s with
    | none =>
      -- a creation: the current thread stays, and so does the distance
      obtain ⟨func, rfl⟩ : ∃ func, op = .create func := by
        cases op with
        | create func => exact ⟨func, rfl⟩
        | yield ctx => cases he
        | exit ctx => cases he
        | schedule ctx => cases he
      have hno : ¬ (Op.schedules (.create func) = true) := by simp [Op.schedules]
      rw [List.countP_cons_of_neg hno] at hk
      cases ht : step s (.create func) with
      | error e =>
        rw [run_cons_of_error ht, thread_create_error ht] at hoob
        exact absurd rfl hoob
      | ok t =>
        rw [run_cons_of_ok ht] at hoob
        obtain ⟨i, _, _, hc, _, _, hst⟩ := thread_create_ok ht
        have hjt : (t.all_thread j).state = .RUNNABLE := by
          rw [hst]
          split
          · rfl
          · exact hj
        obtain ⟨w, hw, hcount, u, hu, huj⟩ :=
          ih t k (hi.step ht) hjt (by rw [hc]; exact hd) hk hoob
        refine ⟨.create func :: w, List.cons_prefix_cons.2 ⟨rfl, hw⟩, ?_, u,
          run_cons_ok.2 ⟨t, ht, hu⟩, huj⟩
        rwa [List.countP_cons_of_neg hno]
    | some c =>
      obtain ⟨ctx, u⟩ := c
      have hsched : op.schedules = true := by
        cases op with
        | create func => cases he
        | yield ctx => rfl
        | exit ctx => rfl
        | schedule ctx => rfl
      rw [List.countP_cons_of_pos hsched] at hk
      have hpos := dist_pos (hi.ne_current hj)
      obtain ⟨t, ht, hinv, htj | ⟨hjt, hnear⟩⟩ := schedule_nearer hi hj he
      · refine ⟨[op], by simp, ?_, t, run_cons_ok.2 ⟨t, ht, rfl⟩, htj⟩
        rw [List.countP_cons_of_pos hsched, List.countP_nil]
        omega
      · rw [run_cons_of_ok ht] at hoob
        obtain ⟨w, hw, hcount, v, hv, hvj⟩ :=
          ih t (k - 1) hinv hjt (by omega) (by omega) hoob
        refine ⟨op :: w, List.cons_prefix_cons.2 ⟨rfl, hw⟩, ?_, v,
          run_cons_ok.2 ⟨t, ht, hv⟩, hvj⟩
        rw [List.countP_cons_of_pos hsched]
        omega

/-- **Round robin without starvation.**  In every run with at most 7 live created threads and at
every point of it: `lastIndex` is the index of the current thread; a call of `thread_schedule`
that finds another `RUNNABLE` thread picks the first one in cyclic order; and a `RUNNABLE` thread
is picked within the next 7 calls, whatever the threads do in between. -/
theorem round_robin (ops pre more : List Op) (hlive : AtMost7Live ops) (hsplit : ops = pre ++ more)
    (s : State) (hs : run step thread_init pre = .ok s) :
    s.lastIndex = s.current_thread ∧
    (∀ op ctx u, op.enters s = some (ctx, u) → OtherRunnable u →
      ∃ t, step s op = .ok t ∧ FirstRunnable u t.current_thread) ∧
    (∀ j, (s.all_thread j).state = .RUNNABLE → 7 ≤ more.countP Op.schedules →
      ∃ w, w <+: more ∧ w.countP Op.schedules ≤ 7 ∧
        ∃ t, run step s w = .ok t ∧ t.current_thread = j) := by
  have hi := run_inv pre s hs
  refine ⟨hi.lastIndex, ?_, ?_⟩
  · intro op ctx u he hy
    obtain ⟨t, ht, hfirst, _⟩ := thread_schedule_some ctx (hi.enters he) hy
    exact ⟨t, by rw [step_of_enters he]; exact ht, hfirst⟩
  · intro j hj h7
    refine picked_within more s 7 hi hj ?_ h7 ?_
    · have := dist_lt s.current_thread j
      omega
    · have hoob := run_ne_outOfBounds ops hlive
      rw [hsplit, run_append, hs] at hoob
      exact hoob

/-- Two threads are created and the three of them yield in turn: the second one is picked. -/
theorem round_robin_two_threads :
    ∃ s, run step thread_init [.create 1, .create 2] = .ok s ∧
      ∃ w, w <+: List.replicate 7 (Op.yield ⟨0, fun _ => 0⟩) ∧ w.countP Op.schedules ≤ 7 ∧
        ∃ t, run step s w = .ok t ∧ t.current_thread = 2 :=
  ⟨_, rfl, (round_robin ([.create 1, .create 2] ++ List.replicate 7 (.yield ⟨0, fun _ => 0⟩)) _ _
    (meets_of_meetsB (by decide +kernel)) rfl _ rfl).2.2 2 (by decide) (by decide)⟩

end Laboratorio.Uthread
