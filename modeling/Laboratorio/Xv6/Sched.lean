import Laboratorio.Xv6.Proc

/-!
# Context switches of `xv6/proc.c`

The process table of `Xv6/Proc.lean` under `ptable.lock`, with the processors' stacks.  A processor
executes on the kernel stack of a process or on its own stack, where `scheduler` runs.  A process
that gives up the processor takes `ptable.lock`, changes its `state` while it still runs on its own
stack, and calls `swtch`; the scheduler it switches to holds the lock from then on, and the process
it switches to next releases it.

A step is what one processor does between two points at which others can see a difference: a
critical section up to its `release` or `swtch`, or one unlocked access to the table (`fork` after
`allocproc`, `sys_getppid`).
-/

namespace Laboratorio.Xv6.Sched

open Laboratorio.Lib Function

/-- What a process is doing while it does not hold `ptable.lock`. -/
inductive Call where
  /-- User code, or kernel code that does not use the process table. -/
  | user
  /-- `fork`, up to the next thing it does to the new process `np`. -/
  | kalloc (np : Slot)
  | copyuvm (np : Slot)
  | setParent (np : Slot)
  | setRunnable (np : Slot)
  /-- `sys_getppid` after it has loaded `myproc()->parent`. -/
  | getppid (parent : Option Slot)
  deriving DecidableEq, Repr

/-- The call of `sched` in which the context of a process was saved. -/
inductive Resume where
  | yield (k : Call)
  | sleep
  | wait
  | exit
  /-- The context that `allocproc` makes. -/
  | forkret
  deriving DecidableEq, Repr

/-- Where a process is in the kernel. -/
inductive Pc where
  | run (k : Call)
  /-- At the top of the loop of `wait`, with `ptable.lock`. -/
  | wait
  /-- In `sched`, with its `state` changed, before `swtch`. -/
  | sched (r : Resume)
  /-- Its context is in `p->context`. -/
  | saved (r : Resume)
  /-- `swtch` has returned to it. -/
  | back (r : Resume)
  deriving DecidableEq, Repr

/-- Where `scheduler` is. -/
inductive Loop where
  | sti
  | scan (p : Nat)
  /-- `c->proc` and `p->state` are set, `swtch` comes next. -/
  | switch (p : Slot)
  /-- In `swtch`, until the process switches back. -/
  | away (p : Slot)
  deriving DecidableEq, Repr

structure Machine where
  table : State
  /-- The processor that holds `ptable.lock`. -/
  lock : Option Cpu
  /-- The process on whose kernel stack a processor executes. -/
  stack : Cpu → Option Slot
  loop : Cpu → Loop
  pc : Slot → Pc

def boot : Machine where
  table := userinit
  lock := none
  stack := fun _ => none
  loop := fun _ => .sti
  pc := fun _ => .saved .forkret

/-- Why a step does not return: the processor is elsewhere, it spins in `acquire`, or a panic. -/
inductive Halt where
  | turn
  | spin
  | acquire
  | release
  | initExiting
  | schedLock
  | schedRunning
  | zombieExit
  /-- `swtch` to a process whose context is not in `p->context`. -/
  | badContext
  deriving DecidableEq, Repr

def acquire (c : Cpu) (m : Machine) : Except Halt Machine :=
  match m.lock with
  | none => .ok { m with lock := some c }
  | some d => if d = c then .error .acquire else .error .spin

def release (c : Cpu) (m : Machine) : Except Halt Machine :=
  if m.lock = some c then .ok { m with lock := none } else .error .release

def Machine.set (m : Machine) (i : Slot) (p : Proc) : Machine :=
  { m with table := m.table.set i p }

def Machine.jump (m : Machine) (i : Slot) (pc : Pc) : Machine :=
  { m with pc := update m.pc i pc }

@[simp] theorem Machine.jump_table (m : Machine) (i : Slot) (pc : Pc) :
    (m.jump i pc).table = m.table := rfl

@[simp] theorem Machine.jump_lock (m : Machine) (i : Slot) (pc : Pc) :
    (m.jump i pc).lock = m.lock := rfl

@[simp] theorem Machine.jump_self (m : Machine) (i : Slot) (pc : Pc) : (m.jump i pc).pc i = pc :=
  update_self _ _ _

theorem Machine.jump_of_ne (m : Machine) (pc : Pc) {i j : Slot} (h : j ≠ i) :
    (m.jump i pc).pc j = m.pc j :=
  update_of_ne h _ _

/-- The loop of `scheduler` on processor `c`. -/
def scheduler (c : Cpu) (m : Machine) : Except Halt Machine :=
  match m.loop c with
  | .sti => do
    let m ← acquire c m
    .ok { m with loop := update m.loop c (.scan 0) }
  | .scan n =>
    if h : n < 64 then
      let p : Slot := ⟨n, h⟩
      if (m.table.proc p).state = .RUNNABLE then
        let t := m.table.set p { m.table.proc p with state := .RUNNING }
        .ok { m with
          table := { t with cpu := update t.cpu c (some p) }
          loop := update m.loop c (.switch p) }
      else .ok { m with loop := update m.loop c (.scan (n + 1)) }
    else release c { m with loop := update m.loop c .sti }
  | .switch p =>
    match m.pc p with
    | .saved r =>
      .ok { m with
        pc := update m.pc p (.back r)
        stack := update m.stack c (some p)
        loop := update m.loop c (.away p) }
    | _ => .error .badContext
  | .away p =>
    .ok { m with
      table := { m.table with cpu := update m.table.cpu c none }
      loop := update m.loop c (.scan (p + 1)) }

/-- The critical section of `allocproc`. -/
def fork (c : Cpu) (i : Slot) (m : Machine) : Except Halt Machine := do
  let m ← acquire c m
  match claimSlot m.table with
  | none => release c m
  | some (np, t) => release c ({ m with table := t }.jump i (.run (.kalloc np)))

/-- What `exit` does to the table. -/
def exitTable (curproc : Slot) (t : State) : State :=
  let t := wakeup1 ((t.proc curproc).parent.map .proc) t
  let t := reparent curproc t
  t.set curproc { t.proc curproc with state := .ZOMBIE }

/-- `exit` once its files are closed, up to the `swtch` in `sched`. -/
def exit (c : Cpu) (i curproc : Slot) (m : Machine) : Except Halt Machine :=
  if curproc = m.table.initproc then .error .initExiting
  else do
    let m ← acquire c m
    .ok ({ m with table := exitTable curproc m.table }.jump i (.sched .exit))

/-- One turn of the loop of `wait`. -/
def wait (c : Cpu) (i curproc : Slot) (m : Machine) : Except Halt Machine :=
  match zombieChild curproc m.table with
  | some p =>
    release c ((m.set p { m.table.proc p with
      kstack := false, pid := 0, parent := none, killed := false, state := .UNUSED }).jump i
        (.run .user))
  | none =>
    if (¬ ∃ p, (m.table.proc p).parent = some curproc) ∨
        (m.table.proc curproc).killed = true then
      release c (m.jump i (.run .user))
    else
      .ok ((m.set curproc { m.table.proc curproc with
        chan := some (.proc curproc), state := .SLEEPING }).jump i (.sched .wait))

/-- `sleep` on something that is not a process. -/
def sleep (c : Cpu) (i p : Slot) (addr : Nat) (m : Machine) : Except Halt Machine := do
  let m ← acquire c m
  .ok ((m.set p { m.table.proc p with chan := some (.other addr), state := .SLEEPING }).jump i
    (.sched .sleep))

def yield (c : Cpu) (i p : Slot) (k : Call) (m : Machine) : Except Halt Machine := do
  let m ← acquire c m
  .ok ((m.set p { m.table.proc p with state := .RUNNABLE }).jump i (.sched (.yield k)))

def wakeup (c : Cpu) (chan : Chan) (m : Machine) : Except Halt Machine := do
  let m ← acquire c m
  release c { m with table := wakeup1 (some chan) m.table }

def kill (c : Cpu) (pid : Int) (m : Machine) : Except Halt Machine := do
  let m ← acquire c m
  release c { m with table := (Xv6.kill pid m.table).2 }

/-- The new process goes back into the table when `kalloc` or `copyuvm` fails. -/
def Machine.unfork (m : Machine) (np : Slot) : Machine :=
  m.set np { m.table.proc np with kstack := false, state := .UNUSED }

/-- What process `i` does next without being interrupted; `p` is its `myproc()`, and `ok` says what
`kalloc` or `copyuvm` returns. -/
def go (c : Cpu) (i p : Slot) (ok : Bool) (m : Machine) : Except Halt Machine :=
  match m.pc i with
  | .run .user => .error .turn
  | .run (.kalloc np) =>
    if ok then
      .ok (((m.set np { m.table.proc np with kstack := true }).jump np (.saved .forkret)).jump i
        (.run (.copyuvm np)))
    else .ok ((m.unfork np).jump i (.run .user))
  | .run (.copyuvm np) =>
    if ok then .ok (m.jump i (.run (.setParent np)))
    else .ok ((m.unfork np).jump i (.run .user))
  | .run (.setParent np) =>
    .ok ((m.set np { m.table.proc np with parent := some p }).jump i (.run (.setRunnable np)))
  | .run (.setRunnable np) => do
    let m ← acquire c m
    release c ((m.set np { m.table.proc np with state := .RUNNABLE }).jump i (.run .user))
  | .run (.getppid _) => .ok (m.jump i (.run .user))
  | .wait => wait c i p m
  | .sched r =>
    if m.lock ≠ some c then .error .schedLock
    else if (m.table.proc p).state = .RUNNING then .error .schedRunning
    else .ok { m with
      pc := update m.pc i (.saved r), stack := update m.stack c none }
  | .saved _ => .error .turn
  | .back (.yield k) => release c (m.jump i (.run k))
  | .back .sleep =>
    release c ((m.set p { m.table.proc p with chan := none }).jump i (.run .user))
  | .back .wait => .ok ((m.set p { m.table.proc p with chan := none }).jump i .wait)
  | .back .forkret => release c (m.jump i (.run .user))
  | .back .exit => .error .zombieExit

/-- The value of `sys_getppid` when its second load is made now; `none` for a null pointer. -/
def ppid (m : Machine) (i : Slot) : Option Int :=
  match m.pc i with
  | .run (.getppid q) => q.map fun q => (m.table.proc q).pid
  | _ => none

inductive Op where
  | scheduler
  | fork
  | exit
  | wait
  | sleep (addr : Nat)
  | kill (pid : Int)
  | getppid
  | go (ok : Bool)
  /-- A timer interrupt. -/
  | yield
  /-- From any kernel code and from interrupt handlers. -/
  | wakeup (chan : Chan)
  deriving DecidableEq, Repr

/-- The steps that a process `i` may make at a point `k` where it does not hold the lock. -/
def call (c : Cpu) (i p : Slot) (op : Op) (k : Call) (m : Machine) : Except Halt Machine :=
  match op, k with
  | .yield, k => yield c i p k m
  | .fork, .user => fork c i m
  | .exit, .user => exit c i p m
  | .wait, .user => do
    let m ← acquire c m
    .ok (m.jump i .wait)
  | .sleep addr, .user => sleep c i p addr m
  | .kill pid, .user => kill c pid m
  | .getppid, .user => .ok (m.jump i (.run (.getppid (m.table.proc p).parent)))
  | _, _ => .error .turn

/-- A step of processor `c`. -/
def step (m : Machine) (a : Cpu × Op) : Except Halt Machine :=
  match a.2, m.stack a.1, m.table.cpu a.1 with
  -- no interrupts while the processor holds the lock
  | .wakeup chan, _, _ => if m.lock = some a.1 then .error .turn else wakeup a.1 chan m
  | .scheduler, none, _ => scheduler a.1 m
  | .go ok, some i, some p => go a.1 i p ok m
  | op, some i, some p =>
    match m.pc i with
    | .run k => call a.1 i p op k m
    | _ => .error .turn
  | _, _, _ => .error .turn

/-- The scheduler of `c` finds its first `RUNNABLE` process in slot `i`, which comes out of `sched` or
`forkret`. -/
def dispatch (c : Cpu) (i : Nat) : List (Cpu × Op) :=
  List.replicate (i + 3) (c, .scheduler) ++ [(c, .go true)]

/-- A `fork` on `c` that succeeds. -/
def forks (c : Cpu) : List (Cpu × Op) := (c, .fork) :: List.replicate 4 (c, .go true)

/-! ## Everything a step can do -/

section

variable {m m' : Machine} {c : Cpu}

theorem acquire_ok : acquire c m = .ok m' ↔ m.lock = none ∧ m' = { m with lock := some c } := by
  unfold acquire
  cases m.lock with
  | none => simp [eq_comm]
  | some d =>
    simp only [reduceCtorEq, false_and, iff_false]
    split <;> nofun

theorem release_ok : release c m = .ok m' ↔ m.lock = some c ∧ m' = { m with lock := none } := by
  unfold release
  split <;> simp_all [eq_comm]

end

/-- The steps, each with its operation and its guard.  In the steps of a process, `i` is the process
on whose stack processor `c` executes and `p` is `myproc()`. -/
inductive Next (m : Machine) : Op → Machine → Prop
  | wakeup (chan : Chan) (hlock : m.lock = none) :
      Next m (.wakeup chan) { m with table := wakeup1 (some chan) m.table }
  | schedAcquire (c : Cpu) (hs : m.stack c = none) (hl : m.loop c = .sti) (hlock : m.lock = none) :
      Next m .scheduler { m with lock := some c, loop := update m.loop c (.scan 0) }
  | schedRelease (c : Cpu) (n : Nat) (hs : m.stack c = none) (hl : m.loop c = .scan n)
      (hlock : m.lock = some c) :
      Next m .scheduler { m with lock := none, loop := update m.loop c .sti }
  | schedSkip (c : Cpu) (n : Nat) (hs : m.stack c = none) (hl : m.loop c = .scan n) :
      Next m .scheduler { m with loop := update m.loop c (.scan (n + 1)) }
  | schedPick (c : Cpu) (p : Slot) (hs : m.stack c = none) (hl : m.loop c = .scan p)
      (hp : (m.table.proc p).state = .RUNNABLE) :
      Next m .scheduler { m with
        table := { m.table.set p { m.table.proc p with state := .RUNNING } with
          cpu := update m.table.cpu c (some p) }
        loop := update m.loop c (.switch p) }
  | schedSwitch (c : Cpu) (p : Slot) (r : Resume) (hs : m.stack c = none)
      (hl : m.loop c = .switch p) (hpc : m.pc p = .saved r) :
      Next m .scheduler { m with
        pc := update m.pc p (.back r)
        stack := update m.stack c (some p)
        loop := update m.loop c (.away p) }
  | schedBack (c : Cpu) (p : Slot) (hs : m.stack c = none) (hl : m.loop c = .away p) :
      Next m .scheduler { m with
        table := { m.table with cpu := update m.table.cpu c none }
        loop := update m.loop c (.scan (p + 1)) }
  | same : Next m .fork m
  | fork (c : Cpu) (i p np : Slot) (hs : m.stack c = some i) (hp : m.table.cpu c = some p)
      (hpc : m.pc i = .run .user) (hlock : m.lock = none)
      (hnp : (m.table.proc np).state = .UNUSED) :
      Next m .fork ({ m with
        table := { m.table.set np { m.table.proc np with
          state := .EMBRYO, pid := m.table.nextpid } with
            nextpid := wrap32 (m.table.nextpid + 1) } }.jump i (.run (.kalloc np)))
  | kalloc {ok : Bool} (c : Cpu) (i p np : Slot) (hs : m.stack c = some i)
      (hp : m.table.cpu c = some p) (hpc : m.pc i = .run (.kalloc np)) :
      Next m (.go ok) (((m.set np { m.table.proc np with kstack := true }).jump np
        (.saved .forkret)).jump i (.run (.copyuvm np)))
  | unfork {ok : Bool} (c : Cpu) (i p np : Slot) (hs : m.stack c = some i)
      (hp : m.table.cpu c = some p) (hpc : m.pc i = .run (.kalloc np) ∨ m.pc i = .run (.copyuvm np))
      :
      Next m (.go ok) ((m.unfork np).jump i (.run .user))
  | copyuvm {ok : Bool} (c : Cpu) (i p np : Slot) (hs : m.stack c = some i)
      (hp : m.table.cpu c = some p) (hpc : m.pc i = .run (.copyuvm np)) :
      Next m (.go ok) (m.jump i (.run (.setParent np)))
  | setParent {ok : Bool} (c : Cpu) (i p np : Slot) (hs : m.stack c = some i)
      (hp : m.table.cpu c = some p) (hpc : m.pc i = .run (.setParent np)) :
      Next m (.go ok) ((m.set np { m.table.proc np with parent := some p }).jump i
        (.run (.setRunnable np)))
  | setRunnable {ok : Bool} (c : Cpu) (i p np : Slot) (hs : m.stack c = some i)
      (hp : m.table.cpu c = some p) (hpc : m.pc i = .run (.setRunnable np)) (hlock : m.lock = none)
      :
      Next m (.go ok) ((m.set np { m.table.proc np with state := .RUNNABLE }).jump i (.run .user))
  | getppid (c : Cpu) (i p : Slot) (hs : m.stack c = some i) (hp : m.table.cpu c = some p)
      (hpc : m.pc i = .run .user) :
      Next m .getppid (m.jump i (.run (.getppid (m.table.proc p).parent)))
  | getppidRead {ok : Bool} (c : Cpu) (i p : Slot) (q : Option Slot) (hs : m.stack c = some i)
      (hp : m.table.cpu c = some p) (hpc : m.pc i = .run (.getppid q)) :
      Next m (.go ok) (m.jump i (.run .user))
  | exit (c : Cpu) (i p : Slot) (hs : m.stack c = some i) (hp : m.table.cpu c = some p)
      (hpc : m.pc i = .run .user) (hlock : m.lock = none) (hinit : p ≠ m.table.initproc) :
      Next m .exit ({ m with lock := some c, table := exitTable p m.table }.jump i (.sched .exit))
  | wait (c : Cpu) (i p : Slot) (hs : m.stack c = some i) (hp : m.table.cpu c = some p)
      (hpc : m.pc i = .run .user) (hlock : m.lock = none) :
      Next m .wait ({ m with lock := some c }.jump i .wait)
  | waitReap {ok : Bool} (c : Cpu) (i p q : Slot) (hs : m.stack c = some i)
      (hp : m.table.cpu c = some p) (hpc : m.pc i = .wait) (hlock : m.lock = some c)
      (hq : (m.table.proc q).parent = some p ∧ (m.table.proc q).state = .ZOMBIE) :
      Next m (.go ok) ({ m with
        lock := none
        table := m.table.set q { m.table.proc q with
          kstack := false, pid := 0, parent := none, killed := false, state := .UNUSED } }.jump i
            (.run .user))
  | waitReturn {ok : Bool} (c : Cpu) (i p : Slot) (hs : m.stack c = some i)
      (hp : m.table.cpu c = some p) (hpc : m.pc i = .wait) (hlock : m.lock = some c) :
      Next m (.go ok) ({ m with lock := none }.jump i (.run .user))
  | waitSleep {ok : Bool} (c : Cpu) (i p : Slot) (hs : m.stack c = some i)
      (hp : m.table.cpu c = some p) (hpc : m.pc i = .wait)
      (hchild : ∃ q, (m.table.proc q).parent = some p)
      (hzombie : ∀ q, (m.table.proc q).parent = some p → (m.table.proc q).state ≠ .ZOMBIE) :
      Next m (.go ok) ((m.set p { m.table.proc p with
        chan := some (.proc p), state := .SLEEPING }).jump i (.sched .wait))
  | sleep (c : Cpu) (i p : Slot) (addr : Nat) (hs : m.stack c = some i)
      (hp : m.table.cpu c = some p) (hpc : m.pc i = .run .user) (hlock : m.lock = none) :
      Next m (.sleep addr) ({ m with
        lock := some c
        table := m.table.set p { m.table.proc p with
          chan := some (.other addr), state := .SLEEPING } }.jump i (.sched .sleep))
  | kill (pid : Int) (hlock : m.lock = none) :
      Next m (.kill pid) { m with table := (Xv6.kill pid m.table).2 }
  | yield (c : Cpu) (i p : Slot) (k : Call) (hs : m.stack c = some i) (hp : m.table.cpu c = some p)
      (hpc : m.pc i = .run k) (hlock : m.lock = none) :
      Next m .yield ({ m with
        lock := some c
        table := m.table.set p { m.table.proc p with state := .RUNNABLE } }.jump i
          (.sched (.yield k)))
  | swtch {ok : Bool} (c : Cpu) (i p : Slot) (r : Resume) (hs : m.stack c = some i)
      (hp : m.table.cpu c = some p) (hpc : m.pc i = .sched r) (hlock : m.lock = some c) :
      Next m (.go ok) { m with
        pc := update m.pc i (.saved r), stack := update m.stack c none }
  | backYield {ok : Bool} (c : Cpu) (i p : Slot) (k : Call) (hs : m.stack c = some i)
      (hp : m.table.cpu c = some p) (hpc : m.pc i = .back (.yield k)) (hlock : m.lock = some c) :
      Next m (.go ok) ({ m with lock := none }.jump i (.run k))
  | backSleep {ok : Bool} (c : Cpu) (i p : Slot) (hs : m.stack c = some i)
      (hp : m.table.cpu c = some p) (hpc : m.pc i = .back .sleep) (hlock : m.lock = some c) :
      Next m (.go ok) ({ m with
        lock := none
        table := m.table.set p { m.table.proc p with chan := none } }.jump i (.run .user))
  | backWait {ok : Bool} (c : Cpu) (i p : Slot) (hs : m.stack c = some i)
      (hp : m.table.cpu c = some p) (hpc : m.pc i = .back .wait) :
      Next m (.go ok) ((m.set p { m.table.proc p with chan := none }).jump i .wait)
  | backForkret {ok : Bool} (c : Cpu) (i p : Slot) (hs : m.stack c = some i)
      (hp : m.table.cpu c = some p) (hpc : m.pc i = .back .forkret) (hlock : m.lock = some c) :
      Next m (.go ok) ({ m with lock := none }.jump i (.run .user))

section

variable {m m' : Machine} {c : Cpu} {i p : Slot}

/-- A critical section that begins and ends within one step. -/
theorem acquire_release {f : Machine → Machine}
    (h : (acquire c m >>= fun m => release c (f m)) = .ok m') :
    m.lock = none ∧ m' = { f { m with lock := some c } with lock := none } := by
  obtain ⟨u, hu, hm⟩ := exists_of_bind_eq_ok h
  obtain ⟨hlock, rfl⟩ := acquire_ok.1 hu
  exact ⟨hlock, (release_ok.1 hm).2⟩

theorem scheduler_next (hs : m.stack c = none) (h : scheduler c m = .ok m') :
    Next m .scheduler m' := by
  unfold scheduler at h
  split at h
  · rename_i hl
    obtain ⟨u, hu, hm⟩ := exists_of_bind_eq_ok h
    obtain ⟨hlock, rfl⟩ := acquire_ok.1 hu
    cases hm
    exact .schedAcquire c hs hl hlock
  · rename_i n hl
    split at h
    · dsimp only at h
      split at h
      · rename_i hp
        cases h
        exact .schedPick c _ hs hl hp
      · cases h
        exact .schedSkip c n hs hl
    · obtain ⟨hlock, rfl⟩ := release_ok.1 h
      exact .schedRelease c n hs hl hlock
  · rename_i q hl
    split at h
    · rename_i r hpc
      cases h
      exact .schedSwitch c q r hs hl hpc
    · cases h
  · rename_i q hl
    cases h
    exact .schedBack c q hs hl

theorem fork_next (hs : m.stack c = some i) (hp : m.table.cpu c = some p)
    (hpc : m.pc i = .run .user) (h : fork c i m = .ok m') : Next m .fork m' := by
  obtain ⟨u, hu, hm⟩ := exists_of_bind_eq_ok h
  obtain ⟨hlock, rfl⟩ := acquire_ok.1 hu
  cases m
  subst hlock
  unfold claimSlot at hm
  cases hnp : firstUnused _ with
  | none =>
    rw [hnp] at hm
    obtain ⟨-, rfl⟩ := release_ok.1 hm
    exact .same
  | some np =>
    rw [hnp] at hm
    obtain ⟨-, rfl⟩ := release_ok.1 hm
    exact .fork c i p np hs hp hpc rfl (of_decide_eq_true (Fin.find?_eq_some_iff.1 hnp).1)

theorem wait_next {ok : Bool} (hs : m.stack c = some i) (hp : m.table.cpu c = some p)
    (hpc : m.pc i = .wait) (h : wait c i p m = .ok m') :
    Next m (.go ok) m' := by
  unfold wait at h
  split at h
  · rename_i q hq
    obtain ⟨hlock, rfl⟩ := release_ok.1 h
    exact .waitReap c i p q hs hp hpc hlock (of_decide_eq_true (Fin.find?_eq_some_iff.1 hq).1)
  · rename_i hq
    split at h
    · obtain ⟨hlock, rfl⟩ := release_ok.1 h
      exact .waitReturn c i p hs hp hpc hlock
    · rename_i hsleep
      cases h
      push Not at hsleep
      refine .waitSleep c i p hs hp hpc hsleep.1 fun q hq' hz => ?_
      have := Fin.find?_eq_none_iff.1 hq q
      simp [hq', hz] at this

theorem go_next {ok : Bool} (hs : m.stack c = some i) (hp : m.table.cpu c = some p)
    (h : go c i p ok m = .ok m') : Next m (.go ok) m' := by
  unfold go at h
  split at h
  case h_1 => cases h
  case h_2 np hpc =>
    split at h <;> cases h
    · exact .kalloc c i p np hs hp hpc
    · exact .unfork c i p np hs hp (.inl hpc)
  case h_3 np hpc =>
    split at h <;> cases h
    · exact .copyuvm c i p np hs hp hpc
    · exact .unfork c i p np hs hp (.inr hpc)
  case h_4 np hpc =>
    cases h
    exact .setParent c i p np hs hp hpc
  case h_5 np hpc =>
    obtain ⟨hlock, rfl⟩ := acquire_release h
    cases m
    subst hlock
    exact .setRunnable c i p np hs hp hpc rfl
  case h_6 q hpc =>
    cases h
    exact .getppidRead c i p q hs hp hpc
  case h_7 hpc => exact wait_next hs hp hpc h
  case h_8 r hpc =>
    split at h
    · cases h
    · rename_i hlock
      split at h <;> cases h
      exact .swtch c i p r hs hp hpc (not_not.1 hlock)
  case h_9 => cases h
  case h_10 k hpc =>
    obtain ⟨hlock, rfl⟩ := release_ok.1 h
    exact .backYield c i p k hs hp hpc hlock
  case h_11 hpc =>
    obtain ⟨hlock, rfl⟩ := release_ok.1 h
    exact .backSleep c i p hs hp hpc hlock
  case h_12 hpc =>
    cases h
    exact .backWait c i p hs hp hpc
  case h_13 hpc =>
    obtain ⟨hlock, rfl⟩ := release_ok.1 h
    exact .backForkret c i p hs hp hpc hlock
  case h_14 => cases h

theorem call_next {op : Op} {k : Call} (hs : m.stack c = some i) (hp : m.table.cpu c = some p)
    (hpc : m.pc i = .run k) (h : call c i p op k m = .ok m') : Next m op m' := by
  unfold call at h
  split at h
  case h_1 =>
    obtain ⟨u, hu, hm⟩ := exists_of_bind_eq_ok h
    obtain ⟨hlock, rfl⟩ := acquire_ok.1 hu
    cases hm
    exact .yield c i p _ hs hp hpc hlock
  case h_2 => exact fork_next hs hp hpc h
  case h_3 =>
    unfold exit at h
    split at h
    · cases h
    · rename_i hinit
      obtain ⟨u, hu, hm⟩ := exists_of_bind_eq_ok h
      obtain ⟨hlock, rfl⟩ := acquire_ok.1 hu
      cases hm
      exact .exit c i p hs hp hpc hlock hinit
  case h_4 =>
    obtain ⟨u, hu, hm⟩ := exists_of_bind_eq_ok h
    obtain ⟨hlock, rfl⟩ := acquire_ok.1 hu
    cases hm
    exact .wait c i p hs hp hpc hlock
  case h_5 addr =>
    obtain ⟨u, hu, hm⟩ := exists_of_bind_eq_ok h
    obtain ⟨hlock, rfl⟩ := acquire_ok.1 hu
    cases hm
    exact .sleep c i p addr hs hp hpc hlock
  case h_6 pid =>
    obtain ⟨hlock, rfl⟩ := acquire_release h
    cases m
    subst hlock
    exact .kill pid rfl
  case h_7 =>
    cases h
    exact .getppid c i p hs hp hpc
  case h_8 => cases h

theorem step_next {a : Cpu × Op} (h : step m a = .ok m') : Next m a.2 m' := by
  obtain ⟨c, op⟩ := a
  unfold step at h
  dsimp only at h ⊢
  split at h
  · split at h
    · cases h
    · obtain ⟨hlock, rfl⟩ := acquire_release h
      cases m
      subst hlock
      exact .wakeup _ rfl
  · rename_i hs
    exact scheduler_next hs h
  · rename_i hs hp
    exact go_next hs hp h
  · rename_i hs hp
    split at h
    · rename_i hpc
      exact call_next hs hp hpc h
    · cases h
  · cases h

end

end Laboratorio.Xv6.Sched
