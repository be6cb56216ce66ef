import Laboratorio.Lib.CInt
import Laboratorio.Lib.Runs

/-!
# The process table of `xv6/proc.c`

A pointer to a `struct proc` is the index of its slot in `ptable.proc`, a null pointer is `none`.
Of `struct proc` the model keeps what the functions below read or write: `state`, `pid`, `parent`,
`chan`, `killed` and whether a kernel stack is attached.  `State.cpu c` is `c->proc`.

The functions are what the critical sections do to the table; `Xv6/Sched.lean` has the calls they are
parts of, with the locking.
-/

namespace Laboratorio.Xv6

open Laboratorio.Lib

inductive ProcState where
  | UNUSED
  | EMBRYO
  | SLEEPING
  | RUNNABLE
  | RUNNING
  | ZOMBIE
  deriving DecidableEq, Repr

/-- `NPROC = 64`. -/
abbrev Slot := Fin 64

scoped instance neZero_64 : NeZero 64 := ⟨by decide⟩

/-- `NCPU = 8`. -/
abbrev Cpu := Fin 8

scoped instance neZero_8 : NeZero 8 := ⟨by decide⟩

/-- What a process may sleep on: a process (`wait`), or any other address. -/
inductive Chan where
  | proc (i : Slot)
  | other (addr : Nat)
  deriving DecidableEq, Repr

structure Proc where
  state : ProcState
  pid : Int
  parent : Option Slot
  chan : Option Chan
  killed : Bool
  kstack : Bool
  deriving DecidableEq, Repr

structure State where
  proc : Slot → Proc
  nextpid : Int
  initproc : Slot
  cpu : Cpu → Option Slot

def State.set (s : State) (i : Slot) (p : Proc) : State :=
  { s with proc := Function.update s.proc i p }

/-- The table after `userinit`: `initcode` in slot 0, everything else zero. -/
def userinit : State where
  proc := Function.update (fun _ => ⟨.UNUSED, 0, none, none, false, false⟩) 0
    ⟨.RUNNABLE, 1, none, none, false, true⟩
  nextpid := 2
  initproc := 0
  cpu := fun _ => none

/-- The first `UNUSED` slot. -/
def firstUnused (s : State) : Option Slot :=
  Fin.find? fun i => decide ((s.proc i).state = .UNUSED)

/-- The critical section of `allocproc`: the first `UNUSED` slot becomes an `EMBRYO` with a fresh
`pid`. -/
def claimSlot (s : State) : Option (Slot × State) :=
  match firstUnused s with
  | none => none
  | some i =>
    some (i, { s.set i { s.proc i with state := .EMBRYO, pid := s.nextpid } with
      nextpid := wrap32 (s.nextpid + 1) })

def wakeup1 (chan : Option Chan) (s : State) : State :=
  { s with
    proc := fun i =>
      if (s.proc i).state = .SLEEPING ∧ (s.proc i).chan = chan then
        { s.proc i with state := .RUNNABLE }
      else s.proc i }

/-- Pass abandoned children to init. -/
def reparent (curproc : Slot) (s : State) : State :=
  let s' := { s with
    proc := fun i =>
      if (s.proc i).parent = some curproc then { s.proc i with parent := some s.initproc }
      else s.proc i }
  -- `wakeup1(initproc)` is called once for each zombie handed over; once is enough
  if ∃ i, (s.proc i).parent = some curproc ∧ (s.proc i).state = .ZOMBIE then
    wakeup1 (some (.proc s.initproc)) s'
  else s'

/-- The first `ZOMBIE` child in table order. -/
def zombieChild (curproc : Slot) (s : State) : Option Slot :=
  Fin.find? fun i => decide ((s.proc i).parent = some curproc ∧ (s.proc i).state = .ZOMBIE)

/-- The first slot with the given `pid`, whatever its state. -/
def firstWithPid (s : State) (pid : Int) : Option Slot :=
  Fin.find? fun i => decide ((s.proc i).pid = pid)

def kill (pid : Int) (s : State) : Int × State :=
  match firstWithPid s pid with
  | some i =>
    (0, s.set i { s.proc i with
      killed := true
      state := if (s.proc i).state = .SLEEPING then .RUNNABLE else (s.proc i).state })
  | none => (-1, s)

end Laboratorio.Xv6
