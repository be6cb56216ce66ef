import Laboratorio.Lib.Runs

/-!
# The user-level threads of `xv6/uthreadlib.c`

* A pointer into `all_thread` is the index of its slot; `current_thread` is not null after
  `thread_init`, `next_thread` may be.
* `sp` is kept relative to the slot's own `stack`, and `stack` is read and written by words, at
  their byte offset.
* What the running thread has left in its registers and on its stack when it calls the library is
  the argument `ctx` of the call: `thread_switch` saves it in the slot of the current thread.
* The variable `t` of `thread_schedule` is an index too, so that the test
  `t >= all_thread + MAX_THREAD` after the loop is `8 ≤ t`.

A run of the library is `run step thread_init ops`.  It ends early with `noRunnable` when
`thread_schedule` finds nothing to run, and with `outOfBounds` when `thread_create` finds no
`FREE` slot and goes on with `t = all_thread + MAX_THREAD`.
-/

namespace Laboratorio.Uthread

open Laboratorio.Lib

/-- Possible states of a thread. -/
inductive TState where
  | FREE
  | RUNNING
  | RUNNABLE
  deriving DecidableEq, Repr

/-- Slots of `all_thread`: `MAX_THREAD = 8`. -/
abbrev Slot := Fin 8

scoped instance neZero_8 : NeZero 8 := ⟨by decide⟩

structure Thread where
  sp : Int
  stack : Nat → Int
  state : TState

structure State where
  all_thread : Slot → Thread
  lastIndex : Nat
  current_thread : Slot
  next_thread : Option Slot

/-- Stack pointer and stack of the thread that calls the library. -/
structure Ctx where
  esp : Int
  stack : Nat → Int

/-- How a run of the library ends early. -/
inductive Stop where
  /-- `"thread_schedule: no runnable threads"`, then `exit()`. -/
  | noRunnable
  | outOfBounds
  deriving DecidableEq, Repr

def setState (s : State) (i : Slot) (st : TState) : State :=
  { s with all_thread := Function.update s.all_thread i { s.all_thread i with state := st } }

/-- The static data, all zero, after `thread_init`. -/
def thread_init : State :=
  setState
    { all_thread := fun _ => ⟨0, fun _ => 0, .FREE⟩
      lastIndex := 0
      current_thread := 0
      next_thread := none } 0 .RUNNING

/-- Save the context of `current_thread` in its slot, resume `next_thread`. -/
def thread_switch (ctx : Ctx) (s : State) (next : Slot) : State :=
  { s with
    all_thread := Function.update s.all_thread s.current_thread
      { s.all_thread s.current_thread with sp := ctx.esp, stack := ctx.stack }
    current_thread := next
    next_thread := none }

/-- `t->state == RUNNABLE && t != current_thread`, for the slot after `i` steps. -/
def eligible (s : State) (i : Nat) : Bool :=
  decide ((s.all_thread (Fin.ofNat 8 (s.lastIndex + i))).state = .RUNNABLE ∧
    Fin.ofNat 8 (s.lastIndex + i) ≠ s.current_thread)

/-- The scan `for (i = 1; i < MAX_THREAD; i++)`: the state and the value of `t` after it. -/
def scan (s : State) : State × Nat :=
  match (List.range' 1 7).find? (eligible s) with
  | some i =>
    ({ s with
        next_thread := some (Fin.ofNat 8 (s.lastIndex + i))
        lastIndex := (s.lastIndex + i) % 8 }, (s.lastIndex + i) % 8)
  | none => ({ s with next_thread := none }, (s.lastIndex + 7) % 8)

def thread_schedule (ctx : Ctx) (s : State) : Except Stop State :=
  let (s₁, t) := scan s
  let s₂ :=
    if 8 ≤ t ∧ (s₁.all_thread s₁.current_thread).state = .RUNNABLE then
      { s₁ with next_thread := some s₁.current_thread }
    else s₁
  match s₂.next_thread with
  | none => .error .noRunnable
  | some next =>
    if s₂.current_thread ≠ next then .ok (thread_switch ctx (setState s₂ next .RUNNING) next)
    else .ok { s₂ with next_thread := none }

/-- The first `FREE` slot. -/
def firstFree (s : State) : Option Slot :=
  Fin.find? fun i => decide ((s.all_thread i).state = .FREE)

/-- `STACK_SIZE = 8192`: the return address goes to the top word, and 32 bytes below it are left
for the registers that `thread_switch` restores. -/
def thread_create (func : Int) (s : State) : Except Stop State :=
  match firstFree s with
  | none => .error .outOfBounds
  | some i =>
    .ok { s with
      all_thread := Function.update s.all_thread i
        { sp := 8192 - 4 - 32
          stack := Function.update (s.all_thread i).stack (8192 - 4) func
          state := .RUNNABLE } }

/-- A call of the library by the running thread. -/
inductive Op where
  | create (func : Int)
  | yield (ctx : Ctx)
  | exit (ctx : Ctx)
  /-- The direct call of `uthread.c`'s `main`. -/
  | schedule (ctx : Ctx)

/-- The call of `thread_schedule` that an operation makes: its context and the state in which it
is entered. -/
def Op.enters (s : State) : Op → Option (Ctx × State)
  | .create _ => none
  | .yield ctx => some (ctx, setState s s.current_thread .RUNNABLE)
  | .exit ctx => some (ctx, setState s s.current_thread .FREE)
  | .schedule ctx => some (ctx, s)

/-- The operation calls `thread_schedule`. -/
def Op.schedules : Op → Bool
  | .create _ => false
  | _ => true

def thread_yield (ctx : Ctx) (s : State) : Except Stop State :=
  thread_schedule ctx (setState s s.current_thread .RUNNABLE)

def thread_exit (ctx : Ctx) (s : State) : Except Stop State :=
  thread_schedule ctx (setState s s.current_thread .FREE)

def step (s : State) : Op → Except Stop State
  | .create func => thread_create func s
  | .yield ctx => thread_yield ctx s
  | .exit ctx => thread_exit ctx s
  | .schedule ctx => thread_schedule ctx s

end Laboratorio.Uthread
