import Laboratorio.Xv6.Sched

/-!
# A process runs on one processor at a time

* `Cpus` — what holds of every processor, of its `c->proc`, and of the processes that are on no
  processor.
-/

namespace Laboratorio.Xv6.Sched

open Laboratorio.Lib Function

/-! ## Processors and processes -/

/-- The state of a process that has called `sched` from `r`. -/
def Resume.Left : Resume → ProcState → Prop
  | .yield _, st => st = .RUNNABLE
  | .sleep, st | .wait, st => st = .SLEEPING
  | .exit, st => st = .ZOMBIE
  | .forkret, _ => False

/-- The states that a process may have while its context is saved and no scheduler has picked it. -/
def Resume.Off : Resume → ProcState → Prop
  | .yield _, st => st = .RUNNABLE
  | .sleep, st | .wait, st => st = .SLEEPING ∨ st = .RUNNABLE
  | .exit, st => st = .ZOMBIE ∨ st = .UNUSED ∨ st = .EMBRYO
  | .forkret, st => st = .UNUSED ∨ st = .EMBRYO ∨ st = .RUNNABLE

/-- Whether a process that executes holds the lock, and its state. -/
def Pc.Ok (holds : Prop) (st : ProcState) : Pc → Prop
  | .run _ => ¬ holds ∧ st = .RUNNING
  | .wait => holds ∧ st = .RUNNING
  | .back r => holds ∧ st = .RUNNING ∧ r ≠ .exit
  | .sched r => holds ∧ r.Left st
  | .saved _ => False

/-- What holds of a processor, and of the process that is its `c->proc`. -/
def CpuOk (m : Machine) (c : Cpu) : Prop :=
  match m.stack c, m.loop c with
  | none, .sti => m.table.cpu c = none ∧ m.lock ≠ some c
  | none, .scan _ => m.table.cpu c = none ∧ m.lock = some c
  | none, .switch i =>
    m.table.cpu c = some i ∧ m.lock = some c ∧ (m.table.proc i).state = .RUNNING ∧
      ∃ r, m.pc i = .saved r ∧ r ≠ .exit
  | none, .away i =>
    m.table.cpu c = some i ∧ m.lock = some c ∧
      ∃ r, m.pc i = .saved r ∧ r.Left (m.table.proc i).state
  | some i, .away j =>
    i = j ∧ m.table.cpu c = some i ∧ (m.pc i).Ok (m.lock = some c) (m.table.proc i).state
  | some _, _ => False

structure Cpus (m : Machine) : Prop where
  cpu : ∀ c, CpuOk m c
  inj : ∀ c d i, m.table.cpu c = some i → m.table.cpu d = some i → c = d
  off : ∀ i, (∀ c, m.table.cpu c ≠ some i) →
    ∃ r, m.pc i = .saved r ∧ r.Off (m.table.proc i).state

section

variable {m m' : Machine} {c d : Cpu} {i p : Slot} {op : Op}

theorem Resume.Left.off {r : Resume} {st : ProcState} (h : r.Left st) : r.Off st := by
  cases r with
  | yield k => exact h
  | sleep => exact .inl h
  | wait => exact .inl h
  | exit => exact .inl h
  | forkret => exact h.elim

@[grind →]
theorem Resume.Left.cases {r : Resume} {st : ProcState} (h : r.Left st) :
    st = .RUNNABLE ∨ st = .SLEEPING ∨ st = .ZOMBIE := by
  cases r <;> simp_all [Resume.Left]

/-- On the stack of a process, that process is `c->proc`. -/
theorem cpuOk_stack (hs : m.stack c = some i) :
    CpuOk m c ↔ m.loop c = .away i ∧ m.table.cpu c = some i ∧
      (m.pc i).Ok (m.lock = some c) (m.table.proc i).state := by
  unfold CpuOk
  rw [hs]
  cases m.loop c <;> simp [eq_comm]

theorem Cpus.on (h : Cpus m) (hs : m.stack c = some i) : m.table.cpu c = some i :=
  ((cpuOk_stack hs).1 (h.cpu c)).2.1

theorem Cpus.executing {pc : Pc} (h : Cpus m) (hs : m.stack c = some i) (hpc : m.pc i = pc) :
    pc.Ok (m.lock = some c) (m.table.proc i).state :=
  hpc ▸ ((cpuOk_stack hs).1 (h.cpu c)).2.2

theorem Cpus.myproc (h : Cpus m) (hs : m.stack c = some i) (hp : m.table.cpu c = some p) :
    p = i :=
  Option.some.inj (hp.symm.trans (h.on hs))

theorem Pc.Ok.run_of_unlocked {holds : Prop} {st : ProcState} {pc : Pc} (h : pc.Ok holds st)
    (hlock : ¬ holds) : st = .RUNNING ∧ ∃ k, pc = .run k := by
  cases pc with
  | run k => exact ⟨h.2, k, rfl⟩
  | wait => exact absurd h.1 hlock
  | back r => exact absurd h.1 hlock
  | sched r => exact absurd h.1 hlock
  | saved r => exact h.elim

theorem CpuOk.stack_of_unlocked (h : CpuOk m c) (hi : m.table.cpu c = some i)
    (hlock : m.lock ≠ some c) :
    m.stack c = some i ∧ (m.table.proc i).state = .RUNNING ∧ ∃ k, m.pc i = .run k := by
  cases hs : m.stack c with
  | some j =>
    obtain ⟨-, hj, hok⟩ := (cpuOk_stack hs).1 h
    cases hi.symm.trans hj
    exact ⟨rfl, hok.run_of_unlocked hlock⟩
  | none =>
    unfold CpuOk at h
    grind

/-- A processor does not see what happens to processes that are not on it. -/
theorem CpuOk.frame (h : CpuOk m d) (hs : m'.stack d = m.stack d) (hl : m'.loop d = m.loop d)
    (hcpu : m'.table.cpu d = m.table.cpu d) (hlock : m'.lock = some d ↔ m.lock = some d)
    (hproc : ∀ i, m.table.cpu d = some i →
      (m'.table.proc i).state = (m.table.proc i).state ∧ m'.pc i = m.pc i) : CpuOk m' d := by
  unfold CpuOk at h ⊢
  rw [hs, hl, hcpu]
  grind

/-- A step of processor `c` that touches no process of another one. -/
theorem Cpus.of_local (h : Cpus m) (c : Cpu)
    (hcpu : ∀ d, d ≠ c → m'.stack d = m.stack d ∧ m'.loop d = m.loop d ∧
      m'.table.cpu d = m.table.cpu d ∧ (m'.lock = some d ↔ m.lock = some d))
    (hother : ∀ d i, d ≠ c → m.table.cpu d = some i →
      (m'.table.proc i).state = (m.table.proc i).state ∧ m'.pc i = m.pc i)
    (hc : CpuOk m' c)
    (hfree : ∀ i d, m'.table.cpu c = some i → d ≠ c → m.table.cpu d ≠ some i)
    (hoff : ∀ i, m'.table.cpu c ≠ some i → (∀ d, d ≠ c → m.table.cpu d ≠ some i) →
      ∃ r, m'.pc i = .saved r ∧ r.Off (m'.table.proc i).state) : Cpus m' := by
  refine ⟨fun d => ?_, fun d e i hd he => ?_, fun i hi => hoff i (hi c) fun d hdc => ?_⟩
  · by_cases hdc : d = c
    · subst hdc
      exact hc
    · obtain ⟨hs, hl, hp, hlock⟩ := hcpu d hdc
      exact (h.cpu d).frame hs hl hp hlock fun i => hother d i hdc
  · by_cases hdc : d = c <;> by_cases hec : e = c
    · rw [hdc, hec]
    · subst hdc
      rw [(hcpu e hec).2.2.1] at he
      exact absurd he (hfree i e hd hec)
    · subst hec
      rw [(hcpu d hdc).2.2.1] at hd
      exact absurd hd (hfree i d he hdc)
    · rw [(hcpu d hdc).2.2.1] at hd
      rw [(hcpu e hec).2.2.1] at he
      exact h.inj d e i hd he
  · rw [← (hcpu d hdc).2.2.1]
    exact hi d

/-- The process that a `fork` in progress is making. -/
def Call.child : Call → Option Slot
  | .kalloc np | .copyuvm np | .setParent np | .setRunnable np => some np
  | .user | .getppid _ => none

/-- The call that a process is in, also while another one runs. -/
def Pc.call : Pc → Option Call
  | .run k | .sched (.yield k) | .saved (.yield k) | .back (.yield k) => some k
  | _ => none

/-- Forks in progress make different processes, each in the state `EMBRYO`. -/
structure Forks (m : Machine) : Prop where
  embryo : ∀ i k np, (m.pc i).call = some k → k.child = some np →
    (m.table.proc np).state = .EMBRYO
  context : ∀ i k np, (m.pc i).call = some k → k.child = some np → k ≠ .kalloc np →
    m.pc np = .saved .forkret
  parent : ∀ i k np, (m.pc i).call = some k → k.child = some np →
    (m.table.proc np).parent = if k = .setRunnable np then some i else none
  inj : ∀ i j k l np, (m.pc i).call = some k → (m.pc j).call = some l →
    k.child = some np → l.child = some np → i = j
  unused : ∀ i, (m.table.proc i).state = .UNUSED → (m.table.proc i).parent = none

theorem call_run {k : Call} (hpc : m.pc i = .run k) : (m.pc i).call = some k := by
  rw [hpc]
  rfl

/-- A step of the process `i` on processor `c`: it may change processes that are on none. -/
theorem Cpus.of_process (h : Cpus m) (hs : m.stack c = some i) (hloop : m'.loop = m.loop)
    (hcpu : m'.table.cpu = m.table.cpu) (hstack : m'.stack = m.stack)
    (hlock : ∀ d, d ≠ c → (m'.lock = some d ↔ m.lock = some d))
    (hpc : (m'.pc i).Ok (m'.lock = some c) (m'.table.proc i).state)
    (hproc : ∀ j, j ≠ i → ((m'.table.proc j).state = (m.table.proc j).state ∧ m'.pc j = m.pc j) ∨
      ((∀ d, m.table.cpu d ≠ some j) ∧ ∃ r, m'.pc j = .saved r ∧ r.Off (m'.table.proc j).state)) :
    Cpus m' := by
  obtain ⟨hl, hi, -⟩ := (cpuOk_stack hs).1 (h.cpu c)
  have hc : CpuOk m' c := by
    rw [cpuOk_stack (hstack ▸ hs), hloop, hcpu]
    exact ⟨hl, hi, hpc⟩
  refine h.of_local c (fun d hdc => ?_) (fun d j hdc hd => ?_) hc (fun j d hj hdc hd => ?_)
    (fun j hj hother => ?_)
  · exact ⟨congrFun hstack d, congrFun hloop d, congrFun hcpu d, hlock d hdc⟩
  · have hne : j ≠ i := fun he => hdc (h.inj d c i (he ▸ hd) hi)
    rcases hproc j hne with hsame | ⟨hoff, -⟩
    · exact hsame
    · exact absurd hd (hoff d)
  · rw [hcpu, hi] at hj
    cases hj
    exact hdc (h.inj d c i hd hi)
  · rw [hcpu, hi] at hj
    have hne : j ≠ i := fun he => hj (congrArg some he.symm)
    rcases hproc j hne with ⟨hst, hpc⟩ | ⟨-, hoff⟩
    · rw [hst, hpc]
      refine h.off j fun d hd => ?_
      by_cases hdc : d = c
      · subst hdc
        rw [hi] at hd
        exact hj hd
      · exact hother d hdc hd
    · exact hoff

theorem Cpus.of_own (h : Cpus m) (hs : m.stack c = some i) (hloop : m'.loop = m.loop)
    (hcpu : m'.table.cpu = m.table.cpu) (hstack : m'.stack = m.stack)
    (hlock : ∀ d, d ≠ c → (m'.lock = some d ↔ m.lock = some d))
    (hpc : (m'.pc i).Ok (m'.lock = some c) (m'.table.proc i).state)
    (hproc : ∀ j, j ≠ i →
      (m'.table.proc j).state = (m.table.proc j).state ∧ m'.pc j = m.pc j) : Cpus m' :=
  h.of_process hs hloop hcpu hstack hlock hpc fun j hj => .inl (hproc j hj)

/-- A process that no scheduler or process is just switching from is off all processors unless it
is `RUNNING`. -/
theorem Cpus.off_of_ne_running (h : Cpus m) (hlock : ∀ d, m.table.cpu d = some i → m.lock ≠ some d)
    (hst : (m.table.proc i).state ≠ .RUNNING) : ∀ d, m.table.cpu d ≠ some i :=
  fun d hd => hst ((h.cpu d).stack_of_unlocked hd (hlock d hd)).2.1

/-- `EMBRYO` and `UNUSED` processes are on no processor, whoever holds the lock. -/
theorem Cpus.off_of_new (h : Cpus m)
    (hst : (m.table.proc i).state = .EMBRYO ∨ (m.table.proc i).state = .UNUSED) :
    ∀ d, m.table.cpu d ≠ some i := by
  intro d hd
  have hd' := h.cpu d
  cases hs : m.stack d with
  | some j =>
    obtain ⟨-, hj, hok⟩ := (cpuOk_stack hs).1 hd'
    cases hd.symm.trans hj
    revert hok
    cases m.pc i <;> simp only [Pc.Ok] <;> grind
  | none =>
    unfold CpuOk at hd'
    grind

theorem Cpus.ne_of_new {j : Slot} (h : Cpus m) (hs : m.stack c = some i)
    (hst : (m.table.proc j).state = .EMBRYO ∨ (m.table.proc j).state = .UNUSED) : j ≠ i :=
  fun hji => h.off_of_new hst c (hji ▸ h.on hs)

theorem Resume.Off.wake {r : Resume} (h : r.Off .SLEEPING) : r.Off .RUNNABLE := by
  cases r <;> simp_all [Resume.Off]

theorem kill_proc (pid : Int) (t : State) (j : Slot) :
    ((Xv6.kill pid t).2.proc j).parent = (t.proc j).parent ∧
      ((Xv6.kill pid t).2.proc j).chan = (t.proc j).chan ∧
      ((Xv6.kill pid t).2.proc j).kstack = (t.proc j).kstack ∧
      ((Xv6.kill pid t).2.proc j).pid = (t.proc j).pid := by
  unfold Xv6.kill
  split
  · simp only [State.set]
    grind
  · exact ⟨rfl, rfl, rfl, rfl⟩

theorem Resume.off_unused_iff {r : Resume} : r.Off .UNUSED ↔ r.Off .EMBRYO := by
  cases r <;> simp [Resume.Off]

theorem wakeup1_state (chan : Option Chan) (t : State) (j : Slot) :
    ((wakeup1 chan t).proc j).state = (t.proc j).state ∨
      (t.proc j).state = .SLEEPING ∧ ((wakeup1 chan t).proc j).state = .RUNNABLE := by
  simp only [wakeup1]
  grind

/-- The children of `curproc` get a new parent, and init wakes up if there is a zombie among them. -/
theorem reparent_proc (curproc : Slot) (t : State) (j : Slot) :
    (reparent curproc t).proc j = { t.proc j with
      parent := if (t.proc j).parent = some curproc then some t.initproc else (t.proc j).parent
      state :=
        if (∃ i, (t.proc i).parent = some curproc ∧ (t.proc i).state = .ZOMBIE) ∧
            (t.proc j).state = .SLEEPING ∧ (t.proc j).chan = some (.proc t.initproc) then .RUNNABLE
        else (t.proc j).state } := by
  simp only [reparent]
  by_cases hz : ∃ i, (t.proc i).parent = some curproc ∧ (t.proc i).state = .ZOMBIE
  · rw [if_pos hz]
    simp only [wakeup1, hz, true_and]
    by_cases hj : (t.proc j).parent = some curproc
    · simp only [if_pos hj]
      split <;> rfl
    · simp only [if_neg hj]
      split <;> rfl
  · rw [if_neg hz]
    simp only [hz, false_and, if_false]
    split <;> rfl

/-- Whether `exit` of `curproc` wakes `j` up. -/
def WokenByExit (curproc : Slot) (t : State) (j : Slot) : Prop :=
  (t.proc j).state = .SLEEPING ∧
    ((t.proc j).chan = (t.proc curproc).parent.map .proc ∨
      (t.proc j).chan = some (.proc t.initproc) ∧
        ∃ i, (t.proc i).parent = some curproc ∧ (t.proc i).state = .ZOMBIE)

open Classical in
theorem exitTable_proc {curproc : Slot} (t : State) {j : Slot} (hj : j ≠ curproc) :
    (exitTable curproc t).proc j = { t.proc j with
      parent := if (t.proc j).parent = some curproc then some t.initproc else (t.proc j).parent
      state := if WokenByExit curproc t j then .RUNNABLE else (t.proc j).state } := by
  have hsame : ∀ i, ((wakeup1 ((t.proc curproc).parent.map .proc) t).proc i).parent =
      (t.proc i).parent ∧ (((wakeup1 ((t.proc curproc).parent.map .proc) t).proc i).state = .ZOMBIE ↔
        (t.proc i).state = .ZOMBIE) := by
    intro i
    simp only [wakeup1]
    split
    · rename_i h
      simp [h.1]
    · simp
  simp only [exitTable, State.set, update_of_ne hj, reparent_proc, hsame]
  simp only [wakeup1, WokenByExit]
  grind

theorem exitTable_self (curproc : Slot) (t : State) :
    ((exitTable curproc t).proc curproc).state = .ZOMBIE := by
  simp [exitTable, State.set]

theorem exitTable_cpu (curproc : Slot) (t : State) : (exitTable curproc t).cpu = t.cpu := by
  simp only [exitTable, State.set, reparent]
  split <;> rfl

/-- `exit` leaves the `pid`, the mark and the kernel stack of every process alone. -/
theorem exitTable_rest (curproc : Slot) (t : State) (j : Slot) :
    ((exitTable curproc t).proc j).pid = (t.proc j).pid ∧
      ((exitTable curproc t).proc j).killed = (t.proc j).killed ∧
      ((exitTable curproc t).proc j).kstack = (t.proc j).kstack := by
  have h : ∀ i, ((reparent curproc (wakeup1 ((t.proc curproc).parent.map .proc) t)).proc i).pid =
      (t.proc i).pid ∧
      ((reparent curproc (wakeup1 ((t.proc curproc).parent.map .proc) t)).proc i).killed =
        (t.proc i).killed ∧
      ((reparent curproc (wakeup1 ((t.proc curproc).parent.map .proc) t)).proc i).kstack =
        (t.proc i).kstack := by
    intro i
    rw [reparent_proc]
    simp only [wakeup1]
    split <;> exact ⟨rfl, rfl, rfl⟩
  simp only [exitTable, State.set]
  by_cases hj : j = curproc
  · subst hj
    rw [update_self]
    exact h j
  · rw [update_of_ne hj]
    exact h j

theorem exitTable_state {curproc : Slot} (t : State) {j : Slot} (hj : j ≠ curproc) :
    ((exitTable curproc t).proc j).state = (t.proc j).state ∨
      (t.proc j).state = .SLEEPING ∧ ((exitTable curproc t).proc j).state = .RUNNABLE := by
  rw [exitTable_proc t hj]
  by_cases hw : WokenByExit curproc t j
  · exact .inr ⟨hw.1, if_pos hw⟩
  · exact .inl (if_neg hw)

theorem kill_state (pid : Int) (t : State) (j : Slot) :
    ((Xv6.kill pid t).2.proc j).state = (t.proc j).state ∨
      (t.proc j).state = .SLEEPING ∧ ((Xv6.kill pid t).2.proc j).state = .RUNNABLE := by
  unfold Xv6.kill
  split
  · simp only [State.set]
    grind
  · exact .inl rfl

theorem Cpus.switch {r : Resume} (h : Cpus m) (hs : m.stack c = none) (hl : m.loop c = .switch p)
    (hpc : m.pc p = .saved r) :
    Cpus { m with
        pc := update m.pc p (.back r)
        stack := update m.stack c (some p)
        loop := update m.loop c (.away p) } := by
  have hc := h.cpu c
  simp only [CpuOk, hs, hl] at hc
  obtain ⟨hcp, hlock, hst, r', hr', hne⟩ := hc
  cases hpc.symm.trans hr'
  have hinj := h.inj
  apply h.of_local c
  · grind
  · grind
  · rw [cpuOk_stack (i := p) (by simp)]
    simpa using ⟨hcp, hlock, hst, hne⟩
  · grind
  · intro i hi hother
    have := h.off i
    grind

theorem Cpus.back (h : Cpus m) (hs : m.stack c = none) (hl : m.loop c = .away p) :
    Cpus { m with
        table := { m.table with cpu := update m.table.cpu c none }
        loop := update m.loop c (.scan (p + 1)) } := by
  have hc := h.cpu c
  simp only [CpuOk, hs, hl] at hc
  obtain ⟨hcp, hlock, r, hr, hleft⟩ := hc
  have hinj := h.inj
  apply h.of_local c
  · grind
  · grind
  · simp only [CpuOk, update_self, hs]
    grind
  · grind
  · intro i hi hother
    have := hleft.off
    have := h.off i
    grind

theorem Cpus.swtch {r : Resume} (h : Cpus m) (hs : m.stack c = some i) (hpc : m.pc i = .sched r) :
    Cpus { m with
        pc := update m.pc i (.saved r), stack := update m.stack c none } := by
  obtain ⟨hl, hi, hok⟩ := (cpuOk_stack hs).1 (h.cpu c)
  rw [hpc] at hok
  have hinj := h.inj
  apply h.of_local c
  · grind
  · grind
  · simp only [CpuOk, update_self, hl]
    exact ⟨hi, hok.1, r, rfl, hok.2⟩
  · grind
  · intro j hj hother
    have := h.off j
    grind

theorem Cpus.pick (h : Cpus m) (hs : m.stack c = none) (hl : m.loop c = .scan p)
    (hp : (m.table.proc p).state = .RUNNABLE) :
    Cpus { m with
        table := { m.table.set p { m.table.proc p with state := .RUNNING } with
          cpu := update m.table.cpu c (some p) }
        loop := update m.loop c (.switch p) } := by
  have hc := h.cpu c
  simp only [CpuOk, hs, hl] at hc
  have hnot : ∀ d, d ≠ c → m.table.cpu d ≠ some p := by
    intro d hdc hd
    have hd' := (h.cpu d).stack_of_unlocked hd (by grind)
    simp [hp] at hd'
  have hoff := h.off
  apply h.of_local c
  · grind
  · simp only [State.set]
    grind
  · have := hoff p
    simp only [CpuOk, hs, State.set]
    grind [Resume.Off]
  · grind
  · simp only [State.set]
    intro j hj hd
    have := hoff j
    grind

theorem Cpus.of_scheduler (h : Cpus m) (hs : m'.stack = m.stack) (hpc : m'.pc = m.pc)
    (hproc : m'.table = m.table) (hloop : ∀ d, d ≠ c → m'.loop d = m.loop d)
    (hlock : ∀ d, d ≠ c → (m'.lock = some d ↔ m.lock = some d)) (hc : CpuOk m' c) : Cpus m' := by
  apply h.of_local c
  · grind
  · grind
  · exact hc
  · intro i d hi hdc hd
    rw [hproc] at hi
    exact hdc (h.inj d c i hd hi)
  · intro i hi hother
    rw [hproc] at hi
    rw [hpc, hproc]
    exact h.off i (by grind)

theorem Cpus.of_woken (h : Cpus m) (hlock : m.lock = none) (hs : m'.stack = m.stack)
    (hpc : m'.pc = m.pc) (hl : m'.loop = m.loop) (hlock' : m'.lock = m.lock)
    (hcpu : m'.table.cpu = m.table.cpu)
    (hproc : ∀ j, (m'.table.proc j).state = (m.table.proc j).state ∨
      (m.table.proc j).state = .SLEEPING ∧ (m'.table.proc j).state = .RUNNABLE) : Cpus m' := by
  have hsame : ∀ d i, m.table.cpu d = some i →
      (m'.table.proc i).state = (m.table.proc i).state := by
    intro d i hd
    have := ((h.cpu d).stack_of_unlocked hd (by simp [hlock])).2.1
    grind
  refine ⟨fun d => (h.cpu d).frame (congrFun hs d) (congrFun hl d) (congrFun hcpu d)
    (by rw [hlock']) fun i hi => ⟨hsame d i hi, congrFun hpc i⟩, ?_, fun i hi => ?_⟩
  · rw [hcpu]
    exact h.inj
  · rw [hcpu] at hi
    rw [hpc]
    obtain ⟨r, hr, hst⟩ := h.off i hi
    refine ⟨r, hr, ?_⟩
    rcases hproc i with he | ⟨he, hnew⟩
    · rwa [he]
    · rw [hnew]
      exact (he ▸ hst).wake

theorem lock_taken (hlock : m.lock = none) (d : Cpu) (hdc : d ≠ c) :
    some c = some d ↔ m.lock = some d := by
  simp [hlock, hdc.symm]

theorem lock_given (hlock : m.lock = some c) (d : Cpu) (hdc : d ≠ c) :
    none = some d ↔ m.lock = some d := by
  simp [hlock, hdc.symm]

/-- `exit` wakes sleepers up, changes parents and leaves everything else to the others. -/
theorem Cpus.exit (h : Cpus m) (hs : m.stack c = some i) (hlock : m.lock = none) :
    Cpus ({ m with lock := some c, table := exitTable i m.table }.jump i (.sched .exit)) := by
  refine h.of_process hs rfl (exitTable_cpu i m.table) rfl (lock_taken hlock) ?_ fun j hj => ?_
  · rw [Machine.jump_self]
    exact ⟨rfl, exitTable_self i m.table⟩
  · rw [Machine.jump_of_ne _ _ hj]
    rcases exitTable_state m.table hj with he | ⟨he, hnew⟩
    · exact .inl ⟨he, rfl⟩
    · have hoff := h.off_of_ne_running (i := j) (by simp [hlock]) (by simp [he])
      obtain ⟨r, hr, hst⟩ := h.off j hoff
      rw [he] at hst
      exact .inr ⟨hoff, r, hr, hnew ▸ hst.wake⟩

theorem Cpus.jump {l : Option Cpu} {pc : Pc} (h : Cpus m) (hs : m.stack c = some i)
    (hlock : ∀ d, d ≠ c → (l = some d ↔ m.lock = some d))
    (hok : pc.Ok (l = some c) (m.table.proc i).state) : Cpus ({ m with lock := l }.jump i pc) := by
  refine h.of_own hs rfl rfl rfl hlock ?_ fun j hj => ?_
  · rwa [Machine.jump_self]
  · exact ⟨rfl, Machine.jump_of_ne _ _ hj⟩

theorem Cpus.set_jump {l : Option Cpu} {pc : Pc} {x : Proc} (h : Cpus m) (hs : m.stack c = some i)
    (hlock : ∀ d, d ≠ c → (l = some d ↔ m.lock = some d)) (hok : pc.Ok (l = some c) x.state) :
    Cpus ({ m with lock := l, table := m.table.set i x }.jump i pc) := by
  refine h.of_own hs rfl rfl rfl hlock ?_ fun j hj => ?_
  · simpa [State.set] using hok
  · simp [Machine.jump_of_ne _ _ hj, State.set, hj]

theorem Cpus.run_ok {k : Call} (h : Cpus m) (hs : m.stack c = some i) (hpc : m.pc i = .run k)
    (k' : Call) : (Pc.run k').Ok (m.lock = some c) (m.table.proc i).state :=
  (h.executing hs hpc :)

theorem jump_saved {q : Slot} {r : Resume} (hq : m.pc q = .saved r) (pc : Pc) :
    update m.pc i pc = update (update m.pc q (.saved r)) i pc := by
  rw [← hq, update_eq_self]

/-- A process changes another one, `q`, that is on no processor. -/
theorem Cpus.set_other {l : Option Cpu} {x : Proc} {q : Slot} {r : Resume} (h : Cpus m) (pc : Pc)
    (hs : m.stack c = some i) (hlock : ∀ d, d ≠ c → (l = some d ↔ m.lock = some d))
    (hok : pc.Ok (l = some c) (m.table.proc i).state) (hq : ∀ d, m.table.cpu d ≠ some q)
    (hstack : m'.stack = m.stack) (hloop : m'.loop = m.loop) (hl : m'.lock = l)
    (hcpu : m'.table.cpu = m.table.cpu) (hproc : m'.table.proc = update m.table.proc q x)
    (hpc : m'.pc = update (update m.pc q (.saved r)) i pc)
    (hoff : r.Off x.state) : Cpus m' := by
  have hne : q ≠ i := fun he => hq c (he ▸ h.on hs)
  refine h.of_process hs hloop hcpu hstack (by rwa [hl]) ?_ fun j hj => ?_
  · rw [hpc, hproc, hl, update_self, update_of_ne hne.symm]
    exact hok
  · rw [hpc, hproc, update_of_ne hj]
    by_cases hjq : j = q
    · subst hjq
      rw [update_self, update_self]
      exact .inr ⟨hq, r, rfl, hoff⟩
    · rw [update_of_ne hjq, update_of_ne hjq]
      exact .inl ⟨rfl, rfl⟩

theorem Cpus.next (h : Cpus m) (hf : Forks m) (hn : Next m op m') : Cpus m' := by
  cases hn with
  | wakeup chan hlock =>
    exact h.of_woken hlock rfl rfl rfl rfl rfl (wakeup1_state (some chan) m.table)
  | kill pid hlock =>
    refine h.of_woken hlock rfl rfl rfl rfl ?_ (kill_state pid m.table)
    unfold Xv6.kill
    split <;> rfl
  | schedAcquire c hs hl hlock =>
    have hc := h.cpu c
    simp only [CpuOk, hs, hl] at hc
    refine h.of_scheduler (c := c) rfl rfl rfl ?_ (lock_taken hlock) ?_
    · grind
    · simp [CpuOk, hs, hc]
  | schedRelease c n hs hl hlock =>
    have hc := h.cpu c
    simp only [CpuOk, hs, hl] at hc
    refine h.of_scheduler (c := c) rfl rfl rfl ?_ (lock_given hlock) ?_
    · grind
    · simp [CpuOk, hs, hc]
  | schedSkip c n hs hl =>
    have hc := h.cpu c
    simp only [CpuOk, hs, hl] at hc
    refine h.of_scheduler (c := c) rfl rfl rfl ?_ (fun _ _ => Iff.rfl) ?_
    · grind
    · simp [CpuOk, hs, hc]
  | schedPick c p hs hl hp => exact h.pick hs hl hp
  | schedSwitch c p r hs hl hpc => exact h.switch hs hl hpc
  | schedBack c p hs hl => exact h.back hs hl
  | same => exact h
  | fork c i p np hs hp hpc hlock hnp =>
    have hoff := h.off_of_new (.inr hnp)
    obtain ⟨r, hr, hst⟩ := h.off np hoff
    rw [hnp, Resume.off_unused_iff] at hst
    exact h.set_other _ hs (fun _ _ => Iff.rfl) (h.run_ok hs hpc (.kalloc np)) hoff rfl rfl rfl
      rfl rfl (jump_saved hr _) hst
  | kalloc c i p np hs hp hpc =>
    have hnp := hf.embryo i (.kalloc np) np (call_run hpc) rfl
    exact h.set_other _ hs (fun _ _ => Iff.rfl) (h.run_ok hs hpc (.copyuvm np))
      (h.off_of_new (.inl hnp)) rfl rfl rfl rfl rfl rfl (.inr (.inl hnp))
  | unfork c i p np hs hp hpc =>
    obtain ⟨k, hpc, hk⟩ : ∃ k, m.pc i = .run k ∧ k.child = some np := by
      rcases hpc with hpc | hpc
      · exact ⟨_, hpc, rfl⟩
      · exact ⟨_, hpc, rfl⟩
    have hnp := hf.embryo i k np (call_run hpc) hk
    have hoff := h.off_of_new (.inl hnp)
    obtain ⟨r, hr, hst⟩ := h.off np hoff
    rw [hnp, ← Resume.off_unused_iff] at hst
    exact h.set_other _ hs (fun _ _ => Iff.rfl) (h.run_ok hs hpc .user) hoff rfl rfl rfl rfl rfl
      (jump_saved hr _) hst
  | setParent c i p np hs hp hpc =>
    have hnp := hf.embryo i (.setParent np) np (call_run hpc) rfl
    have hctx := hf.context i (.setParent np) np (call_run hpc) rfl nofun
    exact h.set_other _ hs (fun _ _ => Iff.rfl) (h.run_ok hs hpc (.setRunnable np)) (h.off_of_new (.inl hnp))
      rfl rfl rfl rfl rfl (jump_saved hctx _) (.inr (.inl hnp))
  | setRunnable c i p np hs hp hpc hlock =>
    have hnp := hf.embryo i (.setRunnable np) np (call_run hpc) rfl
    have hctx := hf.context i (.setRunnable np) np (call_run hpc) rfl nofun
    exact h.set_other _ hs (fun _ _ => Iff.rfl) (h.run_ok hs hpc .user) (h.off_of_new (.inl hnp))
      rfl rfl rfl rfl rfl (jump_saved hctx _) (.inr (.inr rfl))
  | copyuvm c i p np hs hp hpc | getppid c i p hs hp hpc | getppidRead c i p q hs hp hpc =>
    exact h.jump hs (fun _ _ => Iff.rfl) (h.run_ok hs hpc _)
  | exit c i p hs hp hpc hlock hinit =>
    cases h.myproc hs hp
    exact h.exit hs hlock
  | wait c i p hs hp hpc hlock => exact h.jump hs (lock_taken hlock) ⟨rfl, (h.run_ok hs hpc .user).2⟩
  | waitReap c i p q hs hp hpc hlock hq =>
    have hrun := h.executing hs hpc
    have hoff := h.off_of_ne_running (i := q) ?_ (by simp [hq.2])
    · obtain ⟨r, hr, hst⟩ := h.off q hoff
      have hexit : r = .exit := by
        rw [hq.2] at hst
        cases r <;> simp_all [Resume.Off]
      subst hexit
      exact h.set_other (.run .user) hs (lock_given hlock) ⟨nofun, hrun.2⟩ hoff
        rfl rfl rfl rfl rfl (jump_saved hr _) (.inr (.inl rfl))
    · intro d hd hd'
      cases hlock.symm.trans hd'
      cases h.myproc hs hd
      rw [hq.2] at hrun
      cases hrun.2
  | waitReturn c i p hs hp hpc hlock =>
    exact h.jump hs (lock_given hlock) ⟨nofun, (h.executing hs hpc).2⟩
  | waitSleep c i p hs hp hpc hchild hzombie =>
    cases h.myproc hs hp
    exact h.set_jump hs (fun _ _ => Iff.rfl) ⟨(h.executing hs hpc).1, rfl⟩
  | sleep c i p addr hs hp hpc hlock | yield c i p k hs hp hpc hlock =>
    cases h.myproc hs hp
    exact h.set_jump hs (lock_taken hlock) ⟨rfl, rfl⟩
  | swtch c i p r hs hp hpc hlock => exact h.swtch hs hpc
  | backYield c i p k hs hp hpc hlock | backForkret c i p hs hp hpc hlock =>
    exact h.jump hs (lock_given hlock) ⟨nofun, (h.executing hs hpc).2.1⟩
  | backSleep c i p hs hp hpc hlock =>
    cases h.myproc hs hp
    exact h.set_jump hs (lock_given hlock) ⟨nofun, (h.executing hs hpc).2.1⟩
  | backWait c i p hs hp hpc =>
    cases h.myproc hs hp
    obtain ⟨hlock, hrun, -⟩ := h.executing hs hpc
    exact h.set_jump hs (fun _ _ => Iff.rfl) ⟨hlock, hrun⟩

/-! ## Forks in progress -/

/-- What `Forks` says of the process `np` that `i` is making. -/
def Making (m : Machine) (i : Slot) (k : Call) (np : Slot) : Prop :=
  (m.table.proc np).state = .EMBRYO ∧ (k ≠ .kalloc np → m.pc np = .saved .forkret) ∧
    (m.table.proc np).parent = if k = .setRunnable np then some i else none

theorem Forks.making {k : Call} {np : Slot} (h : Forks m) (hk : (m.pc i).call = some k)
    (hnp : k.child = some np) : Making m i k np :=
  ⟨h.embryo i k np hk hnp, h.context i k np hk hnp, h.parent i k np hk hnp⟩

theorem Forks.of_making (hmaking : ∀ i k np, (m.pc i).call = some k → k.child = some np → Making m i k np)
    (hinj : ∀ i j k l np, (m.pc i).call = some k → (m.pc j).call = some l →
      k.child = some np → l.child = some np → i = j)
    (hunused : ∀ i, (m.table.proc i).state = .UNUSED → (m.table.proc i).parent = none) : Forks m where
  embryo i k np hk hnp := (hmaking i k np hk hnp).1
  context i k np hk hnp := (hmaking i k np hk hnp).2.1
  parent i k np hk hnp := (hmaking i k np hk hnp).2.2
  inj := hinj
  unused := hunused

/-- The two machines agree on what `Forks` says of a process. -/
def Alike (m m' : Machine) (np : Slot) : Prop :=
  (m'.table.proc np).state = (m.table.proc np).state ∧
    (m'.table.proc np).parent = (m.table.proc np).parent ∧ m'.pc np = m.pc np

theorem Making.alike {k : Call} {np : Slot} (h : Making m i k np) (he : Alike m m' np) :
    Making m' i k np := by
  obtain ⟨hstate, hparent, hpc⟩ := he
  unfold Making
  rw [hstate, hparent, hpc]
  exact h

theorem Forks.of_call (h : Forks m) (k' : Call) (hi : (m'.pc i).call = some k')
    (hpc : ∀ j, j ≠ i → (m'.pc j).call = (m.pc j).call)
    (hother : ∀ j k np, j ≠ i → (m.pc j).call = some k → k.child = some np → Alike m m' np)
    (hnew : ∀ np, k'.child = some np → Making m' i k' np ∧
      ∀ j k, j ≠ i → (m.pc j).call = some k → k.child ≠ some np)
    (hunused : ∀ j, (m'.table.proc j).state = .UNUSED → (m'.table.proc j).parent = none) :
    Forks m' := by
  refine .of_making (fun j k np hk hnp => ?_) (fun a b k l np hk hl hknp hlnp => ?_) hunused
  · by_cases hj : j = i
    · subst hj
      cases hi.symm.trans hk
      exact (hnew np hnp).1
    · rw [hpc j hj] at hk
      exact (h.making hk hnp).alike (hother j k np hj hk hnp)
  · by_cases ha : a = i <;> by_cases hb : b = i
    · rw [ha, hb]
    · subst ha
      cases hi.symm.trans hk
      rw [hpc b hb] at hl
      exact absurd hlnp ((hnew np hknp).2 b l hb hl)
    · subst hb
      cases hi.symm.trans hl
      rw [hpc a ha] at hk
      exact absurd hknp ((hnew np hlnp).2 a k ha hk)
    · rw [hpc a ha] at hk
      rw [hpc b hb] at hl
      exact h.inj a b k l np hk hl hknp hlnp

theorem Forks.frame (h : Forks m)
    (hpc : ∀ j k np, (m'.pc j).call = some k → k.child = some np → (m.pc j).call = some k)
    (hproc : ∀ j k np, (m.pc j).call = some k → k.child = some np → Alike m m' np)
    (hunused : ∀ j, (m'.table.proc j).state = .UNUSED → (m'.table.proc j).parent = none) :
    Forks m' := by
  refine .of_making (fun j k np hk hnp => ?_) (fun a b k l np hk hl hknp hlnp => ?_) hunused
  · have hk' := hpc j k np hk hnp
    exact (h.making hk' hnp).alike (hproc j k np hk' hnp)
  · exact h.inj a b k l np (hpc a k np hk hknp) (hpc b l np hl hlnp) hknp hlnp

/-- A step that leaves the parents and the `EMBRYO` and `UNUSED` processes alone. -/
theorem Forks.quiet (h : Forks m)
    (hpc : ∀ j k np, (m'.pc j).call = some k → k.child = some np → (m.pc j).call = some k)
    (hctx : ∀ j, (m.table.proc j).state = .EMBRYO → m'.pc j = m.pc j)
    (hparent : ∀ j, (m'.table.proc j).parent = (m.table.proc j).parent)
    (hstate : ∀ j, (m.table.proc j).state = .EMBRYO ∨ (m'.table.proc j).state = .UNUSED →
      (m'.table.proc j).state = (m.table.proc j).state) : Forks m' := by
  refine h.frame hpc (fun j k np hk hnp => ?_) fun j hj => ?_
  · have he := h.embryo j k np hk hnp
    exact ⟨hstate np (.inl he), hparent np, hctx np he⟩
  · rw [hparent]
    exact h.unused j ((hstate j (.inr hj)).symm.trans hj)

/-- Only process `i` may be in another call, and not in one that makes a process. -/
theorem call_jump {pc : Pc} (hpc : ∀ k np, pc.call = some k → k.child = some np → (m.pc i).call = some k)
    (j : Slot) (k : Call) (np : Slot) (hk : ((m.jump i pc).pc j).call = some k)
    (hnp : k.child = some np) : (m.pc j).call = some k := by
  by_cases hji : j = i
  · subst hji
    rw [Machine.jump_self] at hk
    exact hpc k np hk hnp
  · rwa [Machine.jump_of_ne _ _ hji] at hk

/-- The process on whose stack a processor executes goes on, in the same call or in one that makes
no process. -/
theorem Forks.jump {l : Option Cpu} {pc : Pc} (h : Forks m) (hc : Cpus m) (hs : m.stack c = some i)
    (hpc : ∀ k np, pc.call = some k → k.child = some np → (m.pc i).call = some k) :
    Forks ({ m with lock := l }.jump i pc) := by
  refine h.quiet (call_jump hpc) (fun j hj => ?_) (fun _ => rfl) fun _ _ => rfl
  exact Machine.jump_of_ne _ _ (hc.ne_of_new hs (.inl hj))

theorem Forks.set_jump {l : Option Cpu} {pc : Pc} {x : Proc} (h : Forks m) (hc : Cpus m)
    (hs : m.stack c = some i) (hparent : x.parent = (m.table.proc i).parent)
    (hx : x.state ≠ .UNUSED)
    (hpc : ∀ k np, pc.call = some k → k.child = some np → (m.pc i).call = some k) :
    Forks ({ m with lock := l, table := m.table.set i x }.jump i pc) := by
  have hne : ∀ j, (m.table.proc j).state = .EMBRYO → j ≠ i := fun j hj => hc.ne_of_new hs (.inl hj)
  have hset : ∀ j, j ≠ i → (m.table.set i x).proc j = m.table.proc j := fun j hj =>
    update_of_ne hj _ _
  have hself : (m.table.set i x).proc i = x := update_self _ _ _
  refine h.quiet (call_jump hpc) (fun j hj => Machine.jump_of_ne _ _ (hne j hj))
    (fun j => ?_) fun j hj => ?_
  · rw [Machine.jump_table]
    by_cases hji : j = i
    · rw [hji, hself, hparent]
    · rw [hset j hji]
  · rw [Machine.jump_table] at hj ⊢
    by_cases hji : j = i
    · subst hji
      rcases hj with hj | hj
      · exact absurd rfl (hne j hj)
      · rw [hself] at hj
        exact absurd hj hx
    · rw [hset j hji]

theorem Forks.exit (h : Forks m) (hc : Cpus m) (hs : m.stack c = some i)
    (hpc : m.pc i = .run .user) :
    Forks ({ m with lock := some c, table := exitTable i m.table }.jump i (.sched .exit)) := by
  refine h.frame (call_jump nofun) (fun j k np hk hnp => ?_) fun j hj => ?_
  · have he := h.embryo j k np hk hnp
    have hne : np ≠ i := hc.ne_of_new hs (.inl he)
    have hpar : (m.table.proc np).parent ≠ some i := by
      rw [h.parent j k np hk hnp]
      split
      · intro hji
        cases hji
        rw [hpc] at hk
        cases hk
        cases hnp
      · nofun
    rw [Alike, Machine.jump_of_ne _ _ hne, Machine.jump_table]
    have hst := exitTable_state m.table hne
    rw [he] at hst
    refine ⟨by simpa [he] using hst, ?_, rfl⟩
    rw [exitTable_proc m.table hne]
    exact if_neg hpar
  · rw [Machine.jump_table] at hj ⊢
    by_cases hji : j = i
    · rw [hji, exitTable_self] at hj
      cases hj
    · have hun : (m.table.proc j).state = .UNUSED := by
        rcases exitTable_state m.table hji with he | ⟨-, he⟩
        · rw [← he, hj]
        · rw [hj] at he
          cases he
      rw [exitTable_proc m.table hji]
      simp [h.unused j hun]

/-- A step of `fork` in process `i`, on the process `q` that no other `fork` makes. -/
theorem Forks.of_fork {q : Slot} {x : Proc} {r : Resume} (h : Forks m) (hc : Cpus m) (k' : Call)
    (hs : m.stack c = some i)
    (hq : (m.table.proc q).state = .EMBRYO ∨ (m.table.proc q).state = .UNUSED)
    (hfree : ∀ j l, j ≠ i → (m.pc j).call = some l → l.child ≠ some q)
    (hproc : m'.table.proc = update m.table.proc q x)
    (hpc : m'.pc = update (update m.pc q (.saved r)) i (.run k'))
    (hr : r = .forkret ∨ r = .exit)
    (hnew : ∀ np, k'.child = some np → np = q ∧ x.state = .EMBRYO ∧
      (k' ≠ .kalloc np → r = .forkret) ∧ x.parent = if k' = .setRunnable np then some i else none)
    (hunused : x.state = .UNUSED → x.parent = none) : Forks m' := by
  have hqi : q ≠ i := hc.ne_of_new hs hq
  have hq' : m'.pc q = .saved r := by rw [hpc, update_of_ne hqi, update_self]
  have hother : ∀ j, j ≠ i → j ≠ q → m'.pc j = m.pc j := fun j hj hjq => by
    rw [hpc, update_of_ne hj, update_of_ne hjq]
  have hpc_q : (m.pc q).call = none := by
    obtain ⟨r', hr', hoff⟩ := hc.off q (hc.off_of_new hq)
    rw [hr']
    rcases hq with hq | hq <;> rw [hq] at hoff <;> cases r' <;> simp_all [Resume.Off, Pc.call]
  refine h.of_call (i := i) k' ?_ (fun j hj => ?_) (fun j l np hj hl hnp => ?_)
    (fun np hnp => ?_) fun j hj => ?_
  · rw [hpc, update_self]
    rfl
  · by_cases hjq : j = q
    · rw [hjq, hq', hpc_q]
      rcases hr with rfl | rfl <;> rfl
    · rw [hother j hj hjq]
  · have hnq : np ≠ q := fun he => hfree j l hj hl (he ▸ hnp)
    have hni : np ≠ i := hc.ne_of_new hs (.inl (h.embryo j l np hl hnp))
    rw [Alike, hproc, update_of_ne hnq, hother np hni hnq]
    exact ⟨rfl, rfl, rfl⟩
  · obtain ⟨rfl, hst, hctx, hpar⟩ := hnew np hnp
    rw [Making, hproc, update_self, hq']
    exact ⟨⟨hst, fun hk => by rw [hctx hk], hpar⟩, hfree⟩
  · rw [hproc] at hj ⊢
    by_cases hjq : j = q
    · rw [hjq, update_self] at hj ⊢
      exact hunused hj
    · rw [update_of_ne hjq] at hj ⊢
      exact h.unused j hj

theorem Forks.free {k : Call} {np : Slot} (h : Forks m) (hk : (m.pc i).call = some k)
    (hnp : k.child = some np) (j : Slot) (l : Call) (hj : j ≠ i) (hl : (m.pc j).call = some l) :
    l.child ≠ some np :=
  fun hl' => hj (h.inj j i l k np hl hk hl' hnp)

theorem Cpus.context_of_new (h : Cpus m)
    (hst : (m.table.proc i).state = .EMBRYO ∨ (m.table.proc i).state = .UNUSED) :
    ∃ r, m.pc i = .saved r ∧ (r = .forkret ∨ r = .exit) := by
  obtain ⟨r, hr, hoff⟩ := h.off i (h.off_of_new hst)
  refine ⟨r, hr, ?_⟩
  rcases hst with hst | hst <;> rw [hst] at hoff <;> cases r <;> simp_all [Resume.Off]

theorem Forks.next (h : Forks m) (hc : Cpus m) (hn : Next m op m') : Forks m' := by
  cases hn with
  | wakeup chan hlock =>
    refine h.quiet (fun _ _ _ hk _ => hk) (fun _ _ => rfl) (fun j => ?_) fun j hj => ?_
    · simp only [wakeup1]
      split <;> rfl
    · have := wakeup1_state (some chan) m.table j
      grind
  | kill pid hlock =>
    refine h.quiet (fun _ _ _ hk _ => hk) (fun _ _ => rfl) (fun j => ?_) fun j hj => ?_
    · exact (kill_proc pid m.table j).1
    · have := kill_state pid m.table j
      grind
  | schedAcquire | schedRelease | schedSkip | schedBack =>
    exact h.quiet (fun _ _ _ hk _ => hk) (fun _ _ => rfl) (fun _ => rfl) fun _ _ => rfl
  | schedPick c p hs hl hp =>
    refine h.quiet (fun _ _ _ hk _ => hk) (fun _ _ => rfl) (fun j => ?_) fun j hj => ?_
    · simp only [State.set]
      grind
    · simp only [State.set] at hj ⊢
      grind
  | schedSwitch c p r hs hl hpc =>
    have hcp := hc.cpu c
    simp only [CpuOk, hs, hl] at hcp
    refine h.quiet (fun j k np hk hnp => ?_) (fun j hj => ?_) (fun _ => rfl) fun _ _ => rfl
    · by_cases hjp : j = p
      · subst hjp
        dsimp only at hk
        rw [update_self] at hk
        rw [hpc]
        cases r <;> exact hk
      · simpa [hjp] using hk
    · refine update_of_ne (fun hjp => ?_) _ _
      rw [hjp, hcp.2.2.1] at hj
      cases hj
  | swtch c i p r hs hp hpc hlock =>
    refine h.quiet (fun j k np hk hnp => ?_) (fun j hj => ?_) (fun _ => rfl) fun _ _ => rfl
    · by_cases hji : j = i
      · subst hji
        dsimp only at hk
        rw [update_self] at hk
        rw [hpc]
        cases r <;> exact hk
      · simpa [hji] using hk
    · exact update_of_ne (hc.ne_of_new hs (.inl hj)) _ _
  | same => exact h
  | getppid c i p hs | getppidRead c i p q hs | waitReturn c i p hs | backForkret c i p hs =>
    refine h.jump hc hs fun k np hk hnp => ?_
    cases hk
    cases hnp
  | wait c i p hs hp hpc hlock => exact h.jump hc hs nofun
  | waitSleep c i p hs hp | sleep c i p addr hs hp =>
    cases hc.myproc hs hp
    exact h.set_jump hc hs rfl nofun nofun
  | yield c i p k hs hp hpc hlock =>
    cases hc.myproc hs hp
    refine h.set_jump hc hs rfl nofun fun k' np hk hnp => ?_
    rw [hpc]
    exact hk
  | backYield c i p k hs hp hpc hlock =>
    refine h.jump hc hs fun k' np hk hnp => ?_
    rw [hpc]
    exact hk
  | backSleep c i p hs hp hpc hlock =>
    cases hc.myproc hs hp
    have hrun := hc.executing hs hpc
    refine h.set_jump hc hs rfl (by simp [hrun.2.1]) fun k np hk hnp => ?_
    cases hk
    cases hnp
  | backWait c i p hs hp hpc =>
    cases hc.myproc hs hp
    have hrun := hc.executing hs hpc
    exact h.set_jump hc hs rfl (by simp [hrun.2.1]) nofun
  | exit c i p hs hp hpc hlock hinit =>
    cases hc.myproc hs hp
    exact h.exit hc hs hpc
  | fork c i p np hs hp hpc hlock hnp =>
    obtain ⟨r, hr, hr'⟩ := hc.context_of_new (.inr hnp)
    refine h.of_fork hc (.kalloc np) hs (.inr hnp) (fun j l _ hl hl' => ?_) rfl
      (jump_saved hr _) hr' (fun q hq => ?_) nofun
    · have he := h.embryo j l np hl hl'
      rw [hnp] at he
      cases he
    · cases hq
      exact ⟨rfl, rfl, fun hk => absurd rfl hk, h.unused np hnp⟩
  | kalloc c i p np hs hp hpc =>
    have hk : (m.pc i).call = some (.kalloc np) := call_run hpc
    refine h.of_fork hc (.copyuvm np) hs (.inl (h.embryo i _ np hk rfl)) (h.free hk rfl) rfl rfl
      (.inl rfl) (fun q hq => ?_) fun hx => ?_
    · cases hq
      exact ⟨rfl, h.embryo i _ np hk rfl, fun _ => rfl, h.parent i (.kalloc np) np hk rfl⟩
    · exact h.unused np hx
  | unfork c i p np hs hp hpc =>
    obtain ⟨k, hk, hnp, hset⟩ : ∃ k, (m.pc i).call = some k ∧ k.child = some np ∧
        k ≠ .setRunnable np := by
      rcases hpc with hpc | hpc <;> rw [hpc] <;> exact ⟨_, rfl, rfl, nofun⟩
    obtain ⟨r, hr, hr'⟩ := hc.context_of_new (.inl (h.embryo i k np hk hnp))
    refine h.of_fork hc .user hs (.inl (h.embryo i k np hk hnp)) (h.free hk hnp) rfl
      (jump_saved hr _) hr' nofun fun _ => ?_
    exact (h.parent i k np hk hnp).trans (if_neg hset)
  | copyuvm c i p np hs hp hpc =>
    have hk : (m.pc i).call = some (.copyuvm np) := call_run hpc
    have hctx := h.context i _ np hk rfl nofun
    refine h.of_fork (x := m.table.proc np) hc (.setParent np) hs (.inl (h.embryo i _ np hk rfl))
      (h.free hk rfl) ?_ (jump_saved hctx _) (.inl rfl) (fun q hq => ?_) (h.unused np)
    · rw [update_eq_self]
      rfl
    · cases hq
      exact ⟨rfl, h.embryo i _ np hk rfl, fun _ => rfl, h.parent i (.copyuvm np) np hk rfl⟩
  | setParent c i p np hs hp hpc =>
    cases hc.myproc hs hp
    have hk : (m.pc i).call = some (.setParent np) := call_run hpc
    have he := h.embryo i _ np hk rfl
    have hctx := h.context i _ np hk rfl nofun
    refine h.of_fork hc (.setRunnable np) hs (.inl he) (h.free hk rfl) rfl (jump_saved hctx _)
      (.inl rfl) (fun q hq => ?_) fun hx => ?_
    · cases hq
      exact ⟨rfl, he, fun _ => rfl, (if_pos rfl).symm⟩
    · dsimp only at hx
      rw [he] at hx
      cases hx
  | setRunnable c i p np hs hp hpc hlock =>
    have hk : (m.pc i).call = some (.setRunnable np) := call_run hpc
    have hctx := h.context i _ np hk rfl nofun
    exact h.of_fork hc .user hs (.inl (h.embryo i _ np hk rfl)) (h.free hk rfl) rfl
      (jump_saved hctx _) (.inl rfl) nofun nofun
  | waitReap c i p q hs hp hpc hlock hq =>
    refine h.frame (call_jump fun k np hk hnp => ?_) (fun j k np hk hnp => ?_) fun j hj => ?_
    · cases hk
      cases hnp
    · have he := h.embryo j k np hk hnp
      have hne : np ≠ i := hc.ne_of_new hs (.inl he)
      have hnq : np ≠ q := by
        intro hnq
        rw [hnq, hq.2] at he
        cases he
      rw [Alike, Machine.jump_of_ne _ _ hne]
      simp [State.set, hnq]
    · simp only [Machine.jump_table, State.set] at hj ⊢
      by_cases hjq : j = q
      · rw [hjq, update_self]
      · rw [update_of_ne hjq] at hj ⊢
        exact h.unused j hj

/-! ## Runs -/

theorem cpus_boot : Cpus boot := by
  refine ⟨fun c => ⟨rfl, nofun⟩, nofun, fun i _ => ⟨.forkret, rfl, ?_⟩⟩
  simp only [boot, userinit]
  by_cases hi : i = 0
  · subst hi
    exact .inr (.inr rfl)
  · rw [update_of_ne hi]
    exact .inl rfl

theorem forks_boot : Forks boot := by
  refine ⟨nofun, nofun, nofun, nofun, fun i hi => ?_⟩
  simp only [boot, userinit] at hi ⊢
  by_cases h0 : i = 0
  · subst h0
    rfl
  · rw [update_of_ne h0]

theorem run_cpus_forks {as : List (Cpu × Op)} (h : run step boot as = .ok m) :
    Cpus m ∧ Forks m := by
  refine run_invariant (P := fun _ m => Cpus m ∧ Forks m) ⟨cpus_boot, forks_boot⟩ ?_ as m h
  intro _ a u v _ hu hv
  exact ⟨hu.1.next hu.2 (step_next hv), hu.2.next hu.1 (step_next hv)⟩

/-- A kernel stack is freed by the parent in `wait`, or by a `fork` that fails. -/
theorem Next.kstack (hn : Next m op m') (hold : (m.table.proc i).kstack = true)
    (hnew : (m'.table.proc i).kstack = false) :
    (∃ c j, m.stack c = some j ∧ m.pc j = .wait ∧ m.lock = some c ∧
      (m.table.proc i).state = .ZOMBIE) ∨
      ∃ j k, (m.pc j).call = some k ∧ k.child = some i := by
  have hset : ∀ (q : Slot) (x : Proc), (update m.table.proc q x i).kstack = false →
      x.kstack ≠ (m.table.proc q).kstack := by
    grind
  cases hn with
  | unfork c j p np hs hp hpc =>
    by_cases hi : i = np
    · subst hi
      right
      rcases hpc with hpc | hpc <;> exact ⟨j, _, by rw [hpc]; rfl, rfl⟩
    · rw [Machine.jump_table] at hnew
      simp only [Machine.unfork, Machine.set, State.set, update_of_ne hi] at hnew
      rw [hold] at hnew
      cases hnew
  | waitReap c j p q hs hp hpc hlock hq =>
    by_cases hi : i = q
    · subst hi
      exact .inl ⟨c, j, hs, hpc, hlock, hq.2⟩
    · rw [Machine.jump_table] at hnew
      simp only [State.set, update_of_ne hi] at hnew
      rw [hold] at hnew
      cases hnew
  | kalloc c j p np hs hp hpc =>
    by_cases hi : i = np
    · subst hi
      simp [Machine.set, State.set] at hnew
    · simp only [Machine.jump_table, Machine.set, State.set, update_of_ne hi] at hnew
      cases hold.symm.trans hnew
  | exit c j p hs hp hpc hlock hinit =>
    rw [Machine.jump_table, (exitTable_rest p m.table i).2.2] at hnew
    cases hold.symm.trans hnew
  | wakeup chan hlock =>
    simp only [wakeup1] at hnew
    split at hnew <;> cases hold.symm.trans hnew
  | kill pid hlock =>
    dsimp only at hnew
    rw [(kill_proc pid m.table i).2.2.1] at hnew
    cases hold.symm.trans hnew
  | schedAcquire | schedRelease | schedSkip | schedSwitch | schedBack | same | copyuvm | getppid
  | getppidRead | wait | waitReturn | swtch | backYield | backForkret =>
    cases hold.symm.trans hnew
  | schedPick | fork | setParent | setRunnable | waitSleep | sleep | yield | backSleep | backWait =>
    exact (hset _ _ hnew rfl).elim

/-- **One processor for each process.**  While `ptable.lock` is free a process is `RUNNING` exactly
if one processor has it as `c->proc`, and two processors never have the same one.  No step frees a
kernel stack on which a processor executes. -/
theorem scheduler_exclusive {as : List (Cpu × Op)} (h : run step boot as = .ok m) :
    (m.lock = none →
      (∀ i, (m.table.proc i).state = .RUNNING ↔ ∃! c, m.table.cpu c = some i) ∧
        ∀ c d i, m.table.cpu c = some i → m.table.cpu d = some i → c = d) ∧
      ∀ a m', step m a = .ok m' → ∀ i, (m.table.proc i).kstack = true →
        (m'.table.proc i).kstack = false → ∀ c, m.stack c ≠ some i := by
  obtain ⟨hc, hf⟩ := run_cpus_forks h
  refine ⟨fun hlock => ⟨fun i => ⟨fun hrun => ?_, ?_⟩, hc.inj⟩, ?_⟩
  · by_contra hno
    have hoff : ∀ c, m.table.cpu c ≠ some i := fun c hi =>
      hno ⟨c, hi, fun d hd => hc.inj d c i hd hi⟩
    obtain ⟨r, -, hr⟩ := hc.off i hoff
    rw [hrun] at hr
    cases r <;> simp [Resume.Off] at hr
  · rintro ⟨c, hi, -⟩
    exact ((hc.cpu c).stack_of_unlocked hi (by simp [hlock])).2.1
  · intro a m' hstep i hold hnew c hs
    have hok := hc.executing hs rfl
    rcases (step_next hstep).kstack hold hnew with ⟨d, j, hd, hpc, hlock, hz⟩ | ⟨j, k, hk, hnp⟩
    · -- the parent holds the lock, so a zombie that still executes would be the parent itself
      by_cases hdc : d = c
      · subst hdc
        cases hs.symm.trans hd
        rw [hpc, hz] at hok
        cases hok.2
      · have hrun := hok.run_of_unlocked (by simp [hlock, hdc])
        rw [hz] at hrun
        cases hrun.1
    · exact hc.off_of_new (.inl (hf.embryo j k i hk hnp)) c (hc.on hs)

theorem scheduler_exclusive_two_cpus : ∃ m : Machine,
    run step boot (dispatch 0 0 ++ forks 0 ++ dispatch 1 1) = .ok m ∧
      (∃! c, m.table.cpu c = some 0) ∧ (∃! c, m.table.cpu c = some 1) ∧
      ¬ ∃! c, m.table.cpu c = some 2 := by
  obtain ⟨m, hrun, hlock, h0, h1, h2⟩ :
      ∃ m, run step boot (dispatch 0 0 ++ forks 0 ++ dispatch 1 1) = .ok m ∧ m.lock = none ∧
        (m.table.proc 0).state = .RUNNING ∧ (m.table.proc 1).state = .RUNNING ∧
        (m.table.proc 2).state = .UNUSED := by
    decide +kernel
  have hiff := ((scheduler_exclusive hrun).1 hlock).1
  refine ⟨m, hrun, (hiff 0).1 h0, (hiff 1).1 h1, fun hex => ?_⟩
  cases h2.symm.trans ((hiff 2).2 hex)

end

end Laboratorio.Xv6.Sched
