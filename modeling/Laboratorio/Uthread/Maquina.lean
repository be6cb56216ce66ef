import Laboratorio.Lib.X86
import Laboratorio.Uthread.Modelo

/-!
# `uthreadlib.c` and `uthread_switch.S` in memory

Here `all_thread` and the variables are bytes at the addresses that the linker gave them, and
`thread_switch` is its nine instructions.  A pointer is followed wherever it points to.

* Between two calls of the library the thread that runs may do anything to the registers and to the
  bytes of its own stack (`Op.work`).  The stack of `main` is the page that `exec` made for it, that
  of another thread is in its `struct thread`.
* `thread_schedule` may choose any thread that its search may find (`eligible`), whatever the order
  of the search (`search` is the one of the code).
* `running`, `main` and `last` are not in memory: they say who runs, whether slot 0 still belongs to
  `main`, and what each thread is to find when it goes on.
-/

namespace Laboratorio.Uthread.Maquina

open Laboratorio.Lib X86

/-- `STACK_SIZE`. -/
def STACK_SIZE : Nat := 8192

/-- `sizeof(struct thread)`: `sp`, the stack and `state`. -/
def THREAD : Nat := 4 + STACK_SIZE + 4

/-- The pieces of memory that the library knows, and the page of the stack of `main`. -/
def pieces (all_thread lastIndex current_thread next_thread ustack : Nat) : List (Nat × Nat) :=
  [(all_thread, 8 * THREAD), (lastIndex, 4), (current_thread, 4), (next_thread, 4), (ustack, 4096)]

/-- The addresses of a program. -/
structure Layout where
  all_thread : Nat
  lastIndex : Nat
  current_thread : Nat
  next_thread : Nat
  ustack : Nat
  apart : (pieces all_thread lastIndex current_thread next_thread ustack).Pairwise
    fun x y => x.1 + x.2 ≤ y.1 ∨ y.1 + y.2 ≤ x.1
  /-- All of it is below `KERNBASE`. -/
  user : ∀ x ∈ pieces all_thread lastIndex current_thread next_thread ustack, x.1 + x.2 ≤ 2 ^ 31

/-- The address of `all_thread[i]`, which is also that of its `sp`. -/
def Layout.thread (L : Layout) (i : Nat) : Nat := L.all_thread + THREAD * i

def Layout.stack (L : Layout) (i : Nat) : Nat := L.thread i + 4

def Layout.state (L : Layout) (i : Nat) : Nat := L.thread i + 4 + STACK_SIZE

/-- The values of `state`. -/
def code : TState → Word
  | .FREE => 0x0
  | .RUNNING => 0x1
  | .RUNNABLE => 0x2

def thread_init (L : Layout) (m : Mem) : Mem :=
  let m := store m L.current_thread (BitVec.ofNat 32 (L.thread 0))
  store m ((load m L.current_thread).toNat + 4 + STACK_SIZE) (code .RUNNING)

/-- Where the loop of `thread_create` leaves `t`: at the first `FREE` slot, or behind the last
one. -/
def firstFree (L : Layout) (m : Mem) : Nat :=
  ((List.range 8).find? fun i => decide (load m (L.state i) = code .FREE)).getD 8

/-- The words that `thread_create` writes, one after the other. -/
def createStores (L : Layout) (func : Word) (m : Mem) : List (Nat × Word) :=
  let t := firstFree L m
  let top := L.stack t + STACK_SIZE
  [(L.thread t, BitVec.ofNat 32 top),
    (L.thread t, BitVec.ofNat 32 (top - 4)),
    (top - 4, func),
    (L.thread t, BitVec.ofNat 32 (top - 4 - 32)),
    (L.state t, code .RUNNABLE)]

def thread_create (L : Layout) (func : Word) (m : Mem) : Mem :=
  (createStores L func m).foldl (fun m x => store m x.1 x.2) m

def thread_switch (L : Layout) : List Instr :=
  [.pushal,
    -- current_thread->sp = esp
    .movl (.abs L.current_thread) (.reg .eax), .movl (.reg .esp) (.ind .eax),
    -- esp = next_thread->sp
    .movl (.abs L.next_thread) (.reg .eax), .movl (.ind .eax) (.reg .esp),
    .movl (.reg .eax) (.abs L.current_thread),
    .movl (.imm 0x0) (.abs L.next_thread),
    .popal,
    .ret]

/-- `t->state == RUNNABLE && t != current_thread`. -/
def eligible (L : Layout) (m : Mem) (j : Slot) : Bool :=
  decide (load m (L.state j) = code .RUNNABLE ∧
    BitVec.ofNat 32 (L.thread j) ≠ load m L.current_thread)

/-- The search of `thread_schedule`. -/
def search (L : Layout) (m : Mem) : Option Slot :=
  ((List.range' 1 7).map fun i => Fin.ofNat 8 ((load m L.lastIndex).toNat + i)).find? (eligible L m)

/-- What `thread_schedule` writes for the thread that it has found, before it calls
`thread_switch`. -/
def choose (L : Layout) (next : Slot) (m : Mem) : Mem :=
  let m := store m L.next_thread (BitVec.ofNat 32 (L.thread next))
  let m := store m L.lastIndex (BitVec.ofNat 32 next)
  store m ((load m L.next_thread).toNat + 4 + STACK_SIZE) (code .RUNNING)

/-- The functions that call `thread_switch`, `thread_yield` and `thread_exit` through
`thread_schedule`. -/
inductive Call where
  | yield
  | exit
  | schedule
  deriving DecidableEq, Repr

/-- `current_thread->state = st`. -/
def setCurrent (L : Layout) (st : TState) (m : Mem) : Mem :=
  store m ((load m L.current_thread).toNat + 4 + STACK_SIZE) (code st)

def Call.enter (L : Layout) (m : Mem) : Call → Mem
  | .yield => setCurrent L .RUNNABLE m
  | .exit => setCurrent L .FREE m
  | .schedule => m

/-- How a thread is to go on. -/
inductive Resume where
  /-- At the function that was given to `thread_create`. -/
  | first (func : Word)
  /-- Behind its call of `thread_switch`, with the registers that it had there. -/
  | back (regs : Reg → Word) (eip : Word)

structure Machine where
  cpu : Cpu
  running : Slot
  main : Bool
  last : Slot → Option Resume

/-- The stack of the thread in slot `i`: where it begins, and its size. -/
def Machine.own (L : Layout) (M : Machine) (i : Slot) : Nat × Nat :=
  if i = 0 ∧ M.main = true then (L.ustack, 4096) else (L.stack i, STACK_SIZE)

inductive Op where
  /-- The running thread computes: its registers, and the bytes that it writes. -/
  | work (regs : Reg → Word) (bytes : List (Nat × BitVec 8))
  | create (func : Word)
  /-- A call that ends in `thread_switch`, which is to return to `ret`. -/
  | switch (call : Call) (next : Slot) (ret : Word)

inductive Stop where
  /-- A thread has written outside of its own stack. -/
  | outside
  /-- The search cannot find this thread. -/
  | notEligible
  deriving DecidableEq, Repr

/-- Whether the words from `a` up to `b` are on the stack of the running thread. -/
def Machine.onStack (L : Layout) (M : Machine) (a b : Nat) : Bool :=
  decide ((M.own L M.running).1 ≤ a ∧ b ≤ (M.own L M.running).1 + (M.own L M.running).2)

def poke (m : Mem) (x : Nat × BitVec 8) : Mem := Function.update m x.1 x.2

/-- What `thread_create` means for the slot that it takes. -/
def Machine.created (M : Machine) (t : Nat) (func : Word) (m : Mem) : Machine :=
  { cpu := { M.cpu with mem := m }
    running := M.running
    main := M.main && t ≠ 0
    last := fun i => if i = t then some (.first func) else M.last i }

/-- The call of `thread_switch` pushes 4 bytes, `pushal` 32. -/
def step (L : Layout) (M : Machine) : Op → Except Stop Machine
  | .work regs bytes =>
    if bytes.all fun x => M.onStack L x.1 (x.1 + 1) then
      .ok { M with cpu := ⟨regs, M.cpu.eip, bytes.foldl poke M.cpu.mem⟩ }
    else .error .outside
  | .create func =>
    .ok (M.created (firstFree L M.cpu.mem) func (thread_create L func M.cpu.mem))
  | .switch call next ret =>
    if M.onStack L ((M.cpu.regs .esp).toNat - 36) (M.cpu.regs .esp).toNat ∧ 36 ≤ (M.cpu.regs .esp).toNat then
      let m := call.enter L M.cpu.mem
      if eligible L m next then
        .ok { M with
          cpu := exec (thread_switch L) (push ret { M.cpu with mem := choose L next m })
          running := next
          last := Function.update M.last M.running (some (.back M.cpu.regs ret)) }
      else .error .notEligible
    else .error .outside

/-- The static data are zero before `thread_init`. -/
def bss (L : Layout) (m : Mem) : Mem := fun a =>
  if (L.all_thread ≤ a ∧ a < L.all_thread + 8 * THREAD) ∨ (L.lastIndex ≤ a ∧ a < L.lastIndex + 4) ∨
      (L.current_thread ≤ a ∧ a < L.current_thread + 4) ∨ (L.next_thread ≤ a ∧ a < L.next_thread + 4)
  then 0 else m a

/-- `main` after `thread_init`, with anything in the rest of memory. -/
def start (L : Layout) (c : Cpu) : Machine :=
  { cpu := { c with mem := thread_init L (bss L c.mem) }
    running := 0
    main := true
    last := fun _ => none }

end Laboratorio.Uthread.Maquina
