import Laboratorio.Xv6.Exclusive

/-!
# Which children are born killed

`kill` looks for its `pid` without looking at the state of the slot, and `allocproc` does not clear
`killed`.  An `UNUSED` slot has `pid` 0 (never used, or cleared by `wait`) or the `pid` of a `fork`
that failed, and an `EMBRYO` has its `pid` in the table while `fork` goes on without the lock.  A
`kill` that ends at such a slot marks the process that is being made there, or the next one.
-/

namespace Laboratorio.Xv6.Sched

open Laboratorio.Lib Function

/-- There is no process in the slot, or `fork` is still making it. -/
def Unborn (t : State) (i : Slot) : Prop :=
  (t.proc i).state = .UNUSED ∨ (t.proc i).state = .EMBRYO

/-- A `kill` finds its argument first in the slot of a process that `fork` has finished, or in no
slot. -/
def KillsBorn (m : Machine) (a : Cpu × Op) : Prop :=
  ∀ pid m' i, a.2 = .kill pid → step m a = .ok m' → firstWithPid m.table pid = some i →
    ¬ Unborn m.table i

/-- The process that a `fork` is making has `killed = 0` from the moment its slot is taken to the
moment it is `RUNNABLE`, and `kill` changes only processes that exist. -/
def BornAlive (as : List (Cpu × Op)) : Prop :=
  ∀ pre a, pre ++ [a] <+: as → ∀ m m', run step boot pre = .ok m → step m a = .ok m' →
    (∀ i, (m'.table.proc i).state = .EMBRYO → (m'.table.proc i).killed = false) ∧
    (∀ i, (m.table.proc i).state = .EMBRYO → (m'.table.proc i).state = .RUNNABLE →
      (m'.table.proc i).killed = false) ∧
    (∀ pid i, a.2 = .kill pid → (m.table.proc i).state = .UNUSED →
      m'.table.proc i = m.table.proc i)

section

variable {m m' : Machine} {t t' : State} {i : Slot} {op : Op} {a : Cpu × Op} {as : List (Cpu × Op)}

/-! ## What one step does to `killed` -/

/-- Each slot loses its mark, or keeps what it had and is not taken out of use. -/
def Unmarked (t t' : State) : Prop :=
  ∀ i, (t'.proc i).killed = false ∨
    (t'.proc i).killed = (t.proc i).killed ∧ (Unborn t' i → Unborn t i)

theorem unmarked_set {x : Proc} (hproc : t'.proc = update t.proc i x)
    (hx : x.killed = false ∨
      x.killed = (t.proc i).killed ∧ (x.state = .UNUSED ∨ x.state = .EMBRYO → Unborn t i)) :
    Unmarked t t' := by
  intro j
  unfold Unborn at hx ⊢
  by_cases hj : j = i
  · subst hj
    rw [hproc, update_self]
    exact hx
  · rw [hproc, update_of_ne hj]
    exact .inr ⟨rfl, id⟩

theorem unmarked_woken (hk : ∀ j, (t'.proc j).killed = (t.proc j).killed)
    (hst : ∀ j, (t'.proc j).state = (t.proc j).state ∨
      (t'.proc j).state = .RUNNABLE ∨ (t'.proc j).state = .ZOMBIE) : Unmarked t t' := by
  intro j
  refine .inr ⟨hk j, fun hu => ?_⟩
  unfold Unborn at hu ⊢
  rcases hst j with h | h | h
  · rwa [h] at hu
  · simp [h] at hu
  · simp [h] at hu

theorem exitTable_state_or (curproc : Slot) (t : State) (j : Slot) :
    ((exitTable curproc t).proc j).state = (t.proc j).state ∨
      ((exitTable curproc t).proc j).state = .RUNNABLE ∨
      ((exitTable curproc t).proc j).state = .ZOMBIE := by
  by_cases hj : j = curproc
  · subst hj
    exact .inr (.inr (exitTable_self j t))
  · exact (exitTable_state t hj).imp_right fun h => .inl h.2

/-- A `fork` that fails gives its slot back as it was marked. -/
theorem Next.unmarked (hn : Next m op m') (hf : Forks m) (hop : ∀ pid, op ≠ .kill pid) :
    Unmarked m.table m'.table := by
  cases hn with
  | kill pid hlock => exact absurd rfl (hop pid)
  | wakeup chan hlock =>
    refine unmarked_woken (fun j => ?_) fun j => ?_
    · simp only [wakeup1]
      split <;> rfl
    · exact (wakeup1_state _ m.table j).imp_right fun h => .inl h.2
  | exit c i p hs hp hpc hlock hinit =>
    exact unmarked_woken (fun j => (exitTable_rest p m.table j).2.1) (exitTable_state_or p m.table)
  | schedAcquire | schedRelease | schedSkip | schedSwitch | schedBack | same | copyuvm | getppid
  | getppidRead | wait | waitReturn | swtch | backYield | backForkret =>
    exact fun j => .inr ⟨rfl, id⟩
  | fork c i p np hs hp hpc hlock hnp => exact unmarked_set rfl (.inr ⟨rfl, fun _ => .inl hnp⟩)
  | unfork c i p np hs hp hpc =>
    refine unmarked_set rfl (.inr ⟨rfl, fun _ => .inr ?_⟩)
    rcases hpc with hpc | hpc
    · exact hf.embryo i _ np (call_run hpc) rfl
    · exact hf.embryo i _ np (call_run hpc) rfl
  | waitReap c i p q hs hp hpc hlock hq => exact unmarked_set rfl (.inl rfl)
  | kalloc | setParent | backSleep | backWait => exact unmarked_set rfl (.inr ⟨rfl, id⟩)
  | schedPick | setRunnable | waitSleep | sleep | yield =>
    exact unmarked_set rfl (.inr ⟨rfl, by simp⟩)

theorem kill_marks {pid : Int} (h : firstWithPid t pid = some i) :
    ((Xv6.kill pid t).2.proc i).killed = true := by
  unfold Xv6.kill
  rw [h]
  simp only [State.set, update_self]

theorem kill_of_ne {pid : Int} (h : firstWithPid t pid ≠ some i) :
    (Xv6.kill pid t).2.proc i = t.proc i := by
  unfold Xv6.kill
  cases hj : firstWithPid t pid with
  | none => rfl
  | some j =>
    have hij : i ≠ j := by
      rintro rfl
      exact h hj
    simp [State.set, hij]

/-! ## Whole runs -/

/-- No slot is marked before a process has been made there. -/
def Clean (t : State) : Prop := ∀ i, Unborn t i → (t.proc i).killed = false

theorem step_kill {pid : Int} (ha : a.2 = .kill pid) (h : step m a = .ok m') :
    m'.table = (Xv6.kill pid m.table).2 := by
  have hn := step_next h
  rw [ha] at hn
  cases hn
  rfl

/-- **Step lemma.**  While `kill` ends only at processes that `fork` has finished, what was or is
`UNUSED` or an `EMBRYO` is not marked. -/
theorem Clean.step (hs : Clean m.table) (hf : Forks m) (hk : KillsBorn m a)
    (h : step m a = .ok m') (hi : Unborn m.table i ∨ Unborn m'.table i) :
    (m'.table.proc i).killed = false := by
  by_cases ha : ∃ pid, a.2 = .kill pid
  · obtain ⟨pid, ha⟩ := ha
    have ht := step_kill ha h
    have hold : Unborn m.table i := by
      refine hi.elim id fun hu => ?_
      unfold Unborn at hu ⊢
      rw [ht] at hu
      rcases kill_state pid m.table i with hst | ⟨-, hst⟩
      · rwa [hst] at hu
      · simp [hst] at hu
    rw [ht, kill_of_ne fun hfirst => hk pid m' i ha h hfirst hold]
    exact hs i hold
  · push Not at ha
    rcases (step_next h).unmarked hf ha i with hclear | ⟨hsame, hold⟩
    · exact hclear
    · rw [hsame]
      exact hs i (hi.elim id hold)

theorem clean_boot : Clean boot.table := by
  intro i _
  simp only [boot, userinit]
  by_cases hi : i = 0
  · subst hi
    rfl
  · rw [update_of_ne hi]

theorem run_clean (hm : Meets step boot KillsBorn as) (h : run step boot as = .ok m) :
    Clean m.table := by
  refine run_invariant_of_meets (P := fun _ m => Clean m.table) clean_boot ?_ as m hm h
  intro _ a u v hu hclean hk hv i hi
  exact hclean.step (run_cpus_forks hu).2 hk hv (.inr hi)

theorem BornAlive.of_prefix {bs : List (Cpu × Op)} (h : BornAlive bs) (hp : as <+: bs) :
    BornAlive as :=
  fun pre a hpre => h pre a (hpre.trans hp)

/-- A `kill` that ends at an unmarked slot changes it, and leaves an `EMBRYO` what it is. -/
theorem killsBorn_of_bornAlive (h : BornAlive (as ++ [a])) (hrun : run step boot as = .ok m)
    (hs : Clean m.table) : KillsBorn m a := by
  intro pid m' i ha hstep hfirst hi
  obtain ⟨hembryo, -, hunused⟩ := h as a (List.prefix_refl _) m m' hrun hstep
  have hmark : (m'.table.proc i).killed = true := by
    rw [step_kill ha hstep]
    exact kill_marks hfirst
  have hclean := hs i hi
  rcases hi with hi | hi
  · rw [hunused pid i ha hi, hclean] at hmark
    cases hmark
  · have hst : (m'.table.proc i).state = .EMBRYO := by
      rw [step_kill ha hstep]
      rcases kill_state pid m.table i with hst | ⟨hst, -⟩
      · exact hst.trans hi
      · cases hi.symm.trans hst
    rw [hembryo i hst] at hmark
    cases hmark

/-- In every run from boot, with any interleaving of the processors: every process that `fork` makes
has `killed = 0` until it is `RUNNABLE` and every `kill` leaves the `UNUSED` slots alone if and only
if each `kill` finds its `pid` first in a slot that is neither `UNUSED` nor an `EMBRYO`, or not at
all. -/
theorem born_alive_iff (as : List (Cpu × Op)) :
    BornAlive as ↔ Meets step boot KillsBorn as := by
  constructor
  · intro hb
    induction as using List.reverseRecOn with
    | nil => exact fun pre a hpre => by simp at hpre
    | append_singleton as a ih =>
      have hm := ih (hb.of_prefix (List.prefix_append as [a]))
      exact meets_concat.2 ⟨hm, fun m hrun => killsBorn_of_bornAlive hb hrun (run_clean hm hrun)⟩
  · intro hm pre a hpre m m' hrun hstep
    have hclean := run_clean (hm.of_prefix ((List.prefix_append pre [a]).trans hpre)) hrun
    have hk : KillsBorn m a := hm pre a hpre m hrun
    have halive := fun i => hclean.step (i := i) (run_cpus_forks hrun).2 hk hstep
    refine ⟨fun i hi => halive i (.inr (.inr hi)), fun i hi _ => halive i (.inl (.inr hi)), ?_⟩
    intro pid i ha hi
    rw [step_kill ha hstep]
    exact kill_of_ne fun hfirst => hk pid m' i ha hstep hfirst (.inl hi)

end

/-- After boot: init runs, calls `kill(0)`, which finds slot 1, and forks into it. -/
theorem kill_zero_marks_child :
    ¬ BornAlive (dispatch 0 0 ++ [(0, .kill 0)] ++ (forks 0).take 4 ++ [(0, .go true)]) := by
  intro h
  obtain ⟨m, hrun, m', hstep, hold, hnew, hmark⟩ :
      ∃ m, run step boot (dispatch 0 0 ++ [(0, .kill 0)] ++ (forks 0).take 4) = .ok m ∧
        ∃ m', step m (0, .go true) = .ok m' ∧ (m.table.proc 1).state = .EMBRYO ∧
          (m'.table.proc 1).state = .RUNNABLE ∧ (m'.table.proc 1).killed = true := by
    decide +kernel
  rw [(h _ _ (List.prefix_refl _) m m' hrun hstep).2.1 1 hold hnew] at hmark
  cases hmark

end Laboratorio.Xv6.Sched
