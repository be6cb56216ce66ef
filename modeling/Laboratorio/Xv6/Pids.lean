import Laboratorio.Xv6.Exclusive

/-!
# Process ids

`allocproc` numbers processes with `nextpid++` and compares the number with nothing.  On the machine
of `Xv6/Sched.lean`, where every processor forks, exits and waits at its own pace, pids identify
processes for as long as the numbers handed out are positive and not in use (`pids_identify`).

The counter also moves when `fork` fails, and a 32-bit `int` comes around: after `2 ^ 31 - 2`
allocations `fork` returns a negative pid, and after `2 ^ 32 - 1` the pid of init is given out a
second time (`pids_wrap`).
-/

namespace Laboratorio.Xv6.Sched

open Laboratorio.Lib

/-- A process that exists, in whatever state. -/
def Used (t : State) (i : Slot) : Prop := (t.proc i).state ≠ .UNUSED

instance (t : State) (i : Slot) : Decidable (Used t i) := inferInstanceAs (Decidable (_ ≠ _))

/-- The value that the `fork` of process `i` returns to it in its next step. -/
def forkReturn (m : Machine) (i : Slot) : Option Int :=
  match m.pc i with
  | .run (.setRunnable np) => some (m.table.proc np).pid
  | _ => none

/-- When `allocproc` takes a slot, the counter is positive and is the pid of no process. -/
def FreshPid (m : Machine) (a : Cpu × Op) : Prop :=
  a.2 = .fork → firstUnused m.table ≠ none →
    0 < m.table.nextpid ∧ ∀ i, Used m.table i → (m.table.proc i).pid ≠ m.table.nextpid

instance (m : Machine) (a : Cpu × Op) : Decidable (FreshPid m a) :=
  inferInstanceAs (Decidable (_ → _))

/-! ## Only `allocproc` hands out pids -/

section

variable {m m' : Machine} {c : Cpu} {i p : Slot} {op : Op}

/-- The processes of `t'` are processes of `t`, with their pids. -/
def Keeps (t t' : State) : Prop :=
  ∀ j, Used t' j → Used t j ∧ (t'.proc j).pid = (t.proc j).pid

variable {t t' : State}

theorem keeps_set {x : Proc} (hproc : t'.proc = Function.update t.proc i x)
    (hx : x.state ≠ .UNUSED → Used t i ∧ x.pid = (t.proc i).pid) : Keeps t t' := by
  intro j hj
  unfold Used at hj
  by_cases hji : j = i
  · subst hji
    rw [hproc, Function.update_self] at hj ⊢
    exact hx hj
  · rw [hproc, Function.update_of_ne hji] at hj ⊢
    exact ⟨hj, rfl⟩

theorem keeps_woken (hpid : ∀ j, (t'.proc j).pid = (t.proc j).pid)
    (hst : ∀ j, (t'.proc j).state = (t.proc j).state ∨
      (t.proc j).state = .SLEEPING ∧ (t'.proc j).state = .RUNNABLE) : Keeps t t' := by
  intro j hj
  refine ⟨?_, hpid j⟩
  rcases hst j with h | ⟨h, -⟩
  · unfold Used at hj
    rwa [h] at hj
  · unfold Used
    rw [h]
    exact nofun

theorem wakeup1_pid (chan : Option Chan) (t : State) (j : Slot) :
    ((wakeup1 chan t).proc j).pid = (t.proc j).pid := by
  simp only [wakeup1]
  split <;> rfl

theorem keeps_exit (h : Used t p) : Keeps t (exitTable p t) := by
  intro j hj
  refine ⟨?_, (exitTable_rest p t j).1⟩
  by_cases hjp : j = p
  · subst hjp
    exact h
  · rcases exitTable_state t hjp with hst | ⟨hst, -⟩
    · unfold Used at hj
      rwa [hst] at hj
    · unfold Used
      rw [hst]
      exact nofun

theorem used_of_running (h : (t.proc i).state = .RUNNING) : Used t i := by
  unfold Used
  rw [h]
  exact nofun

theorem Forks.used {k : Call} {np : Slot} (hf : Forks m) (hpc : m.pc i = .run k)
    (hk : k.child = some np) : Used m.table np := by
  unfold Used
  rw [hf.embryo i k np (by rw [hpc]; rfl) hk]
  exact nofun

/-- What a step does to the processes that exist: they keep their pids, and the only one that can
be added is made by `fork` and has got `nextpid`. -/
theorem Next.used (hn : Next m op m') (hc : Cpus m) (hf : Forks m) :
    Keeps m.table m'.table ∨
    (op = .fork ∧ ∃ np, ¬ Used m.table np ∧
      (m'.table.proc np).pid = m.table.nextpid ∧
      ∀ j, j ≠ np → m'.table.proc j = m.table.proc j) := by
  cases hn with
  | fork c i p np hs hp hpc hlock hnp =>
    right
    refine ⟨rfl, np, fun h => h hnp, ?_, ?_⟩
    · simp [State.set, Machine.jump]
    · intro j hj
      simp [State.set, Machine.jump, hj]
  | wakeup chan hlock =>
    exact .inl (keeps_woken (wakeup1_pid _ m.table) (wakeup1_state _ m.table))
  | kill pid hlock =>
    exact .inl (keeps_woken (fun j => (kill_proc pid m.table j).2.2.2) (kill_state pid m.table))
  | schedAcquire | schedRelease | schedSkip | schedSwitch | schedBack | same | copyuvm | getppid
  | getppidRead | wait | waitReturn | swtch | backYield | backForkret =>
    exact .inl fun j hj => ⟨hj, rfl⟩
  | schedPick c p hs hl hp =>
    left
    refine keeps_set (i := p) rfl fun _ => ⟨?_, rfl⟩
    unfold Used
    rw [hp]
    simp
  | kalloc c i p np hs hp hpc => exact .inl (keeps_set rfl fun _ => ⟨hf.used hpc rfl, rfl⟩)
  | unfork c i p np hs hp hpc => exact .inl (keeps_set rfl fun h => absurd rfl h)
  | setParent c i p np hs hp hpc => exact .inl (keeps_set rfl fun _ => ⟨hf.used hpc rfl, rfl⟩)
  | setRunnable c i p np hs hp hpc hlock =>
    exact .inl (keeps_set rfl fun _ => ⟨hf.used hpc rfl, rfl⟩)
  | exit c i p hs hp hpc hlock hinit =>
    cases hc.myproc hs hp
    exact .inl (keeps_exit (used_of_running (hc.run_ok hs hpc .user).2))
  | waitReap c i p q hs hp hpc hlock hq => exact .inl (keeps_set rfl fun h => absurd rfl h)
  | waitSleep c i p hs hp hpc hchild hzombie =>
    cases hc.myproc hs hp
    have hrun := hc.executing hs hpc
    exact .inl (keeps_set rfl fun _ => ⟨used_of_running hrun.2, rfl⟩)
  | sleep c i p addr hs hp hpc hlock =>
    cases hc.myproc hs hp
    exact .inl (keeps_set rfl fun _ => ⟨used_of_running (hc.run_ok hs hpc .user).2, rfl⟩)
  | yield c i p k hs hp hpc hlock =>
    cases hc.myproc hs hp
    exact .inl (keeps_set rfl fun _ => ⟨used_of_running (hc.run_ok hs hpc .user).2, rfl⟩)
  | backSleep c i p hs hp hpc hlock => exact .inl (keeps_set rfl fun h => ⟨h, rfl⟩)
  | backWait c i p hs hp hpc => exact .inl (keeps_set rfl fun h => ⟨h, rfl⟩)

/-! ## Pids that are fresh when they are handed out -/

/-- Pids are positive and identify processes. -/
structure Pids (t : State) : Prop where
  pos : ∀ i, Used t i → 0 < (t.proc i).pid
  inj : ∀ i j, Used t i → Used t j → (t.proc i).pid = (t.proc j).pid → i = j

theorem Pids.keeps (h : Pids t) (hk : Keeps t t') : Pids t' := by
  constructor
  · intro i hi
    obtain ⟨hu, hpid⟩ := hk i hi
    rw [hpid]
    exact h.pos i hu
  · intro i j hi hj hij
    obtain ⟨hui, hpi⟩ := hk i hi
    obtain ⟨huj, hpj⟩ := hk j hj
    rw [hpi, hpj] at hij
    exact h.inj i j hui huj hij

/-- A process is added with a pid that is positive and new. -/
theorem Pids.add {np : Slot} (h : Pids t) (hpos : 0 < (t'.proc np).pid)
    (hnew : ∀ i, Used t i → (t.proc i).pid ≠ (t'.proc np).pid)
    (hother : ∀ j, j ≠ np → t'.proc j = t.proc j) : Pids t' := by
  have hused : ∀ j, j ≠ np → Used t' j → Used t j := by
    intro j hj hu
    unfold Used at hu ⊢
    rwa [hother j hj] at hu
  constructor
  · intro i hi
    by_cases hinp : i = np
    · rw [hinp]
      exact hpos
    · rw [hother i hinp]
      exact h.pos i (hused i hinp hi)
  · intro i j hi hj hij
    by_cases hinp : i = np <;> by_cases hjnp : j = np
    · rw [hinp, hjnp]
    · subst hinp
      rw [hother j hjnp] at hij
      exact absurd hij.symm (hnew j (hused j hjnp hj))
    · subst hjnp
      rw [hother i hinp] at hij
      exact absurd hij (hnew i (hused i hinp hi))
    · rw [hother i hinp, hother j hjnp] at hij
      exact h.inj i j (hused i hinp hi) (hused j hjnp hj) hij

theorem Pids.step {a : Cpu × Op} (h : Pids m.table) (hc : Cpus m) (hf : Forks m)
    (hfresh : FreshPid m a) (hstep : step m a = .ok m') : Pids m'.table := by
  rcases (step_next hstep).used hc hf with hk | ⟨ha, np, hnp, hpid, hother⟩
  · exact h.keeps hk
  · have hslot : firstUnused m.table ≠ none := by
      intro hnone
      have := Fin.find?_eq_none_iff.1 hnone np
      simp only [Used, not_not] at hnp
      simp [hnp] at this
    obtain ⟨hpos, hnew⟩ := hfresh ha hslot
    rw [← hpid] at hpos hnew
    exact h.add hpos hnew hother

theorem pids_boot : Pids boot.table := by
  constructor
  · decide
  · decide

/-- **Pids identify processes**, in every run of any length and any interleaving in which
`allocproc` hands out positive pids that are not in use: processes that exist have distinct pids,
and `fork` returns a positive one. -/
theorem pids_identify {as : List (Cpu × Op)} (h : run step boot as = .ok m)
    (hfresh : Meets step boot FreshPid as) :
    (∀ i j, Used m.table i → Used m.table j → (m.table.proc i).pid = (m.table.proc j).pid → i = j) ∧
    (∀ i r, forkReturn m i = some r → 0 < r) := by
  have hpids : Pids m.table := by
    refine run_invariant_of_meets (P := fun _ m => Pids m.table) pids_boot ?_ as m hfresh h
    intro as a u t hu hP hC hstep
    obtain ⟨hc, hf⟩ := run_cpus_forks hu
    exact hP.step hc hf hC hstep
  obtain ⟨hc, hf⟩ := run_cpus_forks h
  refine ⟨hpids.inj, ?_⟩
  intro i r hr
  unfold forkReturn at hr
  split at hr
  · rename_i np hpc
    cases hr
    exact hpids.pos np (hf.used hpc rfl)
  · cases hr

end

/-- init has forked once and is about to return from its second `fork`. -/
theorem pids_identify_three : ∃ m : Machine,
    run step boot (dispatch 0 0 ++ forks 0 ++ (forks 0).take 4) = .ok m ∧
    Used m.table 1 ∧ Used m.table 2 ∧ forkReturn m 0 = some 3 ∧
    ((m.table.proc 1).pid = (m.table.proc 2).pid → (1 : Slot) = 2) ∧ (0 : Int) < 3 := by
  obtain ⟨m, hrun, h1, h2, h3⟩ :
      ∃ m, run step boot (dispatch 0 0 ++ forks 0 ++ (forks 0).take 4) = .ok m ∧
        Used m.table 1 ∧ Used m.table 2 ∧ forkReturn m 0 = some 3 := by decide +kernel
  have hmeets : Meets step boot FreshPid (dispatch 0 0 ++ forks 0 ++ (forks 0).take 4) :=
    meets_of_meetsB (by decide +kernel)
  have hid := pids_identify hrun hmeets
  exact ⟨m, hrun, h1, h2, h3, hid.1 1 2 h1 h2, hid.2 0 3 h3⟩

/-! ## The counter comes around -/

/-- init runs on processor 0 and is about to fork, the first free slot is 1, and the counter is at
`k`. -/
structure Forking (k : Int) (m : Machine) : Prop where
  stack : m.stack 0 = some 0
  cpu : m.table.cpu 0 = some 0
  pc : m.pc 0 = .run .user
  lock : m.lock = none
  init : (m.table.proc 0).state = .RUNNING ∧ (m.table.proc 0).pid = 1
  free : (m.table.proc 1).state = .UNUSED
  next : m.table.nextpid = k

/-- The machine once `allocproc` has taken slot 1. -/
def claimed (m : Machine) : Machine :=
  { m with
    table := { m.table.set 1 { m.table.proc 1 with state := .EMBRYO, pid := m.table.nextpid } with
      nextpid := wrap32 (m.table.nextpid + 1) } }.jump 0 (.run (.kalloc 1))

section

variable {m : Machine} {k : Int}

theorem Forking.firstUnused (h : Forking k m) : firstUnused m.table = some 1 := by
  apply Fin.find?_eq_some_iff.2
  refine ⟨by simp [h.free], ?_⟩
  intro j hj
  have hj0 : j = 0 := by
    ext
    have : (j : Nat) < 1 := hj
    simp only [Fin.val_zero]
    omega
  rw [hj0, h.init.1]
  rfl

theorem Forking.fork (h : Forking k m) : step m (0, .fork) = .ok (claimed m) := by
  have hstep : step m (0, .fork) = Sched.fork 0 0 m := by
    simp only [step, h.stack, h.cpu, h.pc, call]
  have hacquire : acquire 0 m = .ok { m with lock := some 0 } := acquire_ok.2 ⟨h.lock, rfl⟩
  have hclaim : claimSlot m.table = some (1, { m.table.set 1 { m.table.proc 1 with
      state := .EMBRYO, pid := m.table.nextpid } with nextpid := wrap32 (m.table.nextpid + 1) }) := by
    unfold claimSlot
    rw [h.firstUnused]
  rw [hstep, Sched.fork, hacquire]
  simp only [bind, Except.bind, hclaim]
  rw [release_ok]
  refine ⟨rfl, ?_⟩
  unfold claimed Machine.jump
  rw [← h.lock]

/-- A `fork` for which `kalloc` fails moves the counter and nothing else. -/
theorem Forking.fail (h : Forking k m) :
    ∃ m', run step m [(0, .fork), (0, .go false)] = .ok m' ∧ Forking (wrap32 (k + 1)) m' := by
  have hgo : step (claimed m) (0, .go false) =
      .ok (((claimed m).unfork 1).jump 0 (.run .user)) := by
    simp [step, claimed, Machine.jump, State.set, h.stack, h.cpu, go]
  refine ⟨_, run_cons_ok.2 ⟨_, h.fork, run_cons_ok.2 ⟨_, hgo, rfl⟩⟩, ?_⟩
  constructor
  · exact h.stack
  · exact h.cpu
  · exact Machine.jump_self _ _ _
  · exact h.lock
  · simp [claimed, Machine.unfork, Machine.set, State.set, Machine.jump, h.init]
  · simp [claimed, Machine.unfork, Machine.set, State.set, Machine.jump]
  · simp [claimed, Machine.unfork, Machine.set, State.set, Machine.jump, h.next]

theorem forking_boot : ∃ m, run step boot (dispatch 0 0) = .ok m ∧ Forking 2 m := by
  obtain ⟨m, hrun, ⟨h1, h2, h3⟩, h4, h5, h6, h7⟩ : ∃ m, run step boot (dispatch 0 0) = .ok m ∧
      (m.stack 0 = some 0 ∧ m.table.cpu 0 = some 0 ∧ m.pc 0 = .run .user) ∧ m.lock = none ∧
      ((m.table.proc 0).state = .RUNNING ∧ (m.table.proc 0).pid = 1) ∧
      (m.table.proc 1).state = .UNUSED ∧ m.table.nextpid = 2 := by
    decide +kernel
  exact ⟨m, hrun, ⟨h1, h2, h3, h4, h5, h6, h7⟩⟩

/-- A run that takes the counter to any value. -/
theorem forking_reached (n : Nat) :
    ∃ as m, run step boot as = .ok m ∧ Forking (wrap32 (2 + n)) m := by
  induction n with
  | zero =>
    obtain ⟨m, hrun, hm⟩ := forking_boot
    exact ⟨_, m, hrun, hm⟩
  | succ n ih =>
    obtain ⟨as, m, hrun, hm⟩ := ih
    obtain ⟨m', hrun', hm'⟩ := hm.fail
    refine ⟨as ++ [(0, .fork), (0, .go false)], m', ?_, ?_⟩
    · rw [run_append, hrun]
      exact hrun'
    · rw [wrap32_wrap32_succ] at hm'
      rw [show ((2 : Int) + (n + 1 : Nat)) = 2 + n + 1 by push_cast; omega]
      exact hm'

/-- A `fork` for which everything succeeds, up to its last step. -/
theorem Forking.succeed (h : Forking k m) : ∃ m',
    run step m ((0, .fork) :: List.replicate 3 (0, .go true)) = .ok m' ∧
    forkReturn m' 0 = some k ∧ Used m'.table 0 ∧ Used m'.table 1 ∧ (m'.table.proc 0).pid = 1 ∧
    (m'.table.proc 1).pid = k := by
  let m1 := ((claimed m).set 1 { (claimed m).table.proc 1 with kstack := true }).jump 1
    (.saved .forkret) |>.jump 0 (.run (.copyuvm 1))
  let m2 := m1.jump 0 (.run (.setParent 1))
  let m3 := (m2.set 1 { m2.table.proc 1 with parent := some 0 }).jump 0 (.run (.setRunnable 1))
  have h1 : step (claimed m) (0, .go true) = .ok m1 := by
    simp [m1, step, claimed, Machine.jump, Machine.set, State.set, h.stack, h.cpu, go]
  have h2 : step m1 (0, .go true) = .ok m2 := by
    simp [m2, m1, step, claimed, Machine.jump, Machine.set, State.set, h.stack, h.cpu, go]
  have h3 : step m2 (0, .go true) = .ok m3 := by
    simp [m3, m2, m1, step, claimed, Machine.jump, Machine.set, State.set, h.stack, h.cpu, go]
  refine ⟨m3, run_cons_ok.2 ⟨_, h.fork, run_cons_ok.2 ⟨_, h1, run_cons_ok.2 ⟨_, h2,
    run_cons_ok.2 ⟨_, h3, rfl⟩⟩⟩⟩, ?_⟩
  simp [m3, m2, m1, claimed, forkReturn, Used, Machine.jump, Machine.set, State.set, h.init, h.next]

end

/-- **Pids come around.**  There is a run in which `fork` returns a negative number to its caller,
and one in which a new process has the pid of init. -/
theorem pids_wrap :
    (∃ as m r, run step boot as = .ok m ∧ forkReturn m 0 = some r ∧ r < 0) ∧
    (∃ as m, run step boot as = .ok m ∧ Used m.table 0 ∧ Used m.table 1 ∧
      (m.table.proc 0).pid = (m.table.proc 1).pid) := by
  constructor
  · obtain ⟨as, m, hrun, hm⟩ := forking_reached (2 ^ 31 - 2)
    obtain ⟨m', hrun', hret, -⟩ := hm.succeed
    refine ⟨_, m', _, (run_append as _).trans (by rw [hrun]; exact hrun'), hret, ?_⟩
    decide
  · obtain ⟨as, m, hrun, hm⟩ := forking_reached (2 ^ 32 - 1)
    obtain ⟨m', hrun', -, h0, h1, hpid, hpid'⟩ := hm.succeed
    refine ⟨_, m', (run_append as _).trans (by rw [hrun]; exact hrun'), h0, h1, ?_⟩
    rw [hpid, hpid']
    decide

end Laboratorio.Xv6.Sched
