import Laboratorio.Lib.CInt
import Laboratorio.Lib.Runs

/-!
# Spin locks: `xv6/spinlock.c`

`spinlock_safe` is about one lock and any number of processors; a step is one access to the lock.
`interrupts_exact` is about `pushcli` and `popcli` on a processor that takes interrupts.
-/

namespace Laboratorio.Xv6.Spinlock

open Laboratorio.Lib Function

variable {C : Type} [DecidableEq C]

/-- `own` says that `acquire` has returned, and no `release` since has come to its stores. -/
inductive Pc where
  | out (own : Bool)
  /-- `holding`, called by `acquire` or `release`, reads `lock->locked`, then `lock->cpu`. -/
  | locked (own acq : Bool)
  | cpu (own acq : Bool)
  | xchg
  | record
  | clear
  | unlock
  deriving DecidableEq

structure State (C : Type) where
  locked : Bool
  cpu : Option C
  pc : C → Pc

def initlock : State C := ⟨false, none, fun _ => .out false⟩

inductive Panic where
  | acquire
  | release
  | popcliInterruptible
  | popcli
  deriving DecidableEq

/-- `acquire` or `release` when `holding` returns `r`. -/
def afterHolding (acq r : Bool) : Except Panic Pc :=
  match acq, r with
  | true, true => .error .acquire
  | true, false => .ok .xchg
  | false, true => .ok .clear
  | false, false => .error .release

/-- One step of processor `c`; between calls it calls `acquire` or `release`, as `acq` says. -/
def step (s : State C) : C × Bool → Except Panic (State C)
  | (c, acq) =>
    let goto pc := { s with pc := update s.pc c pc }
    match s.pc c with
    | .out own => .ok (goto (.locked own acq))
    | .locked own acq =>
      if s.locked then .ok (goto (.cpu own acq)) else (afterHolding acq false).map goto
    | .cpu _ acq => (afterHolding acq (s.cpu = some c)).map goto
    | .xchg => if s.locked then .ok s else .ok { goto .record with locked := true }
    | .record => .ok { goto (.out true) with cpu := some c }
    | .clear => .ok { goto .unlock with cpu := none }
    | .unlock => .ok { goto (.out false) with locked := false }

/-- `lock->cpu` is the processor. -/
@[grind] def Pc.named : Pc → Bool
  | .out own | .locked own _ | .cpu own _ => own
  | .clear => true
  | _ => false

@[grind] def Pc.owns (pc : Pc) : Bool := pc.named || pc = .record || pc = .unlock

/-- The panic that a call in `holding` has earned: `acquire` by the processor that has the lock, or
`release` by one that has not. -/
def Pc.misuse : Pc → Option Panic
  | .locked own acq | .cpu own acq =>
    if own = acq then some (if acq then .acquire else .release) else none
  | _ => none

structure Inv (s : State C) : Prop where
  locked : s.locked ↔ ∃ c, (s.pc c).owns
  excl : ∀ c d, (s.pc c).owns → (s.pc d).owns → c = d
  cpu : ∀ c, s.cpu = some c ↔ (s.pc c).named

variable {s t : State C} {c : C} {acq : Bool}

theorem Inv.set {locked : Bool} {cpu : Option C} {pc : Pc} (h : Inv s)
    (hmine : pc.owns → ∀ d ≠ c, ¬ (s.pc d).owns)
    (hlocked : locked ↔ pc.owns ∨ ∃ d ≠ c, (s.pc d).owns)
    (hcpu : ∀ d, cpu = some d ↔ if d = c then pc.named else (s.pc d).named) :
    Inv ⟨locked, cpu, update s.pc c pc⟩ := by
  obtain ⟨-, hexcl, hold⟩ := h
  refine ⟨hlocked.trans ⟨?_, ?_⟩, ?_, ?_⟩
  · rintro (hp | ⟨d, hd, ho⟩)
    · exact ⟨c, by simpa using hp⟩
    · exact ⟨d, by simpa [hd] using ho⟩
  all_goals grind -linarith [update_apply]

theorem Inv.step (h : Inv s) (ht : step s (c, acq) = .ok t) : Inv t := by
  obtain ⟨hlocked, hexcl, hcpu⟩ := id h
  have hsub : ∀ d, (s.pc d).named → (s.pc d).owns := by simp +contextual [Pc.owns]
  cases hp : s.pc c with
  | out | record | clear | unlock =>
    simp only [Spinlock.step, hp] at ht
    cases ht
    apply h.set <;> grind -linarith
  | locked own acq =>
    simp only [Spinlock.step, hp] at ht
    split at ht
    · cases ht
      apply h.set <;> grind -linarith
    · -- the processor does not have the lock, and goes on to take it
      cases acq <;> cases ht
      apply h.set <;> grind -linarith
  | cpu own acq =>
    simp only [Spinlock.step, hp] at ht
    cases acq <;> by_cases hme : s.cpu = some c <;> simp only [hme] at ht <;> cases ht
    · apply h.set <;> grind -linarith
    · apply h.set <;> grind -linarith
  | xchg =>
    simp only [Spinlock.step, hp] at ht
    split at ht <;> cases ht
    · exact h
    · apply h.set <;> grind -linarith

omit [DecidableEq C] in
theorem Inv.holding {own acq : Bool} (h : Inv s) :
    (s.pc c = .locked own acq → own → s.locked) ∧ (s.pc c = .cpu own acq → (s.cpu = some c ↔ own)) := by
  refine ⟨fun hp hown => ?_, fun hp => ?_⟩
  · exact h.locked.2 ⟨c, by simp [hp, Pc.owns, Pc.named, hown]⟩
  · rw [h.cpu, hp, Pc.named]

theorem Inv.misuse_of_panic {e : Panic} (h : Inv s) (he : Spinlock.step s (c, acq) = .error e) :
    (s.pc c).misuse = some e := by
  cases hp : s.pc c with
  | out | record | clear | unlock => simp [Spinlock.step, hp] at he
  | xchg =>
    simp only [Spinlock.step, hp] at he
    split at he <;> cases he
  | locked own acq =>
    have hfree := h.holding.1 hp
    simp only [Spinlock.step, hp] at he
    split at he
    · cases he
    · cases acq <;> cases own <;> simp_all [afterHolding, Except.map, Pc.misuse]
  | cpu own acq =>
    have hcpu := h.holding.2 hp
    simp only [Spinlock.step, hp] at he
    cases acq <;> cases own <;> simp_all [afterHolding, Except.map, Pc.misuse]

/-- The first read of `holding` may come before the panic. -/
theorem Inv.panic_of_misuse {e : Panic} (h : Inv s) (he : (s.pc c).misuse = some e) :
    Spinlock.step s (c, acq) = .error e ∨ ∃ t own acq', s.pc c = .locked own acq' ∧
      Spinlock.step s (c, acq) = .ok t ∧ t.pc c = .cpu own acq' := by
  cases hp : s.pc c with
  | out | record | clear | unlock | xchg => simp [hp, Pc.misuse] at he
  | locked own acq =>
    have hfree := h.holding.1 hp
    simp only [Spinlock.step, hp]
    by_cases hl : s.locked = true
    · refine .inr ⟨_, own, acq, rfl, if_pos hl, ?_⟩
      simp
    · rw [hp] at he
      cases acq <;> cases own <;> simp_all [afterHolding, Except.map, Pc.misuse]
  | cpu own acq =>
    have hcpu := h.holding.2 hp
    rw [hp] at he
    simp only [Spinlock.step, hp]
    cases acq <;> cases own <;> simp_all [afterHolding, Except.map, Pc.misuse]

/-- **Mutual exclusion.**  In every interleaving at most one processor has the lock, the lock is free when
none has it, and `holding` returns to each processor whether it has the lock itself.  A panic comes of
a call that has earned it, and such a call panics at its next read of the lock or at the one after. -/
theorem spinlock_safe (ops : List (C × Bool)) (s : State C) (hrun : run step initlock ops = .ok s) :
    (∀ c d, (s.pc c).owns → (s.pc d).owns → c = d) ∧ (s.locked ↔ ∃ c, (s.pc c).owns) ∧
    (∀ c own acq, (s.pc c = .locked own acq → own → s.locked) ∧
      (s.pc c = .cpu own acq → (s.cpu = some c ↔ own))) ∧
    ∀ c acq e, (step s (c, acq) = .error e → (s.pc c).misuse = some e) ∧
      ((s.pc c).misuse = some e → step s (c, acq) = .error e ∨
        ∃ t own acq', s.pc c = .locked own acq' ∧ step s (c, acq) = .ok t ∧
          t.pc c = .cpu own acq') := by
  have h0 : Inv (initlock : State C) := by constructor <;> simp [initlock, Pc.owns, Pc.named]
  have h : Inv s := run_invariant (P := fun _ s => Inv s) h0 (fun _ _ _ _ _ h => h.step) ops s hrun
  refine ⟨h.excl, h.locked, fun c own acq => h.holding, fun c acq e => ?_⟩
  exact ⟨h.misuse_of_panic, h.panic_of_misuse⟩

/-- One processor has taken the lock, the other spins. -/
theorem spinlock_safe_two : ∃ s : State Bool, s.pc false = .out true ∧ s.pc true = .xchg ∧
    (s.locked ↔ ∃ c, (s.pc c).owns) :=
  ⟨_, rfl, rfl, (spinlock_safe ([false, true, false, true, false, false].map (·, true)) _ rfl).2.1⟩

/-! ## Interrupts -/

/-- A processor; `ncli` is an `int`.  `eflags` is the variable of a `pushcli` that has not yet disabled
interrupts, and `frames` has that of the code which a handler has interrupted. -/
structure Cpu where
  IF : Bool
  ncli : Int
  intena : Bool
  eflags : Option Bool
  frames : List (Option Bool)

inductive Op where
  | pushcli
  | popcli
  | interrupt
  | iret
  deriving DecidableEq

/-- A step; `pushcli` takes two, and a handler returns when it has undone its own calls. -/
def cliStep (k : Cpu) (op : Op) : Except Panic Cpu :=
  match op, k.eflags, k.frames with
  | .pushcli, none, _ => .ok { k with eflags := some k.IF }
  | .pushcli, some eflags, _ =>
    .ok { k with
      eflags := none, IF := false, intena := if k.ncli = 0 then eflags else k.intena
      ncli := wrap32 (k.ncli + 1) }
  | .popcli, none, _ =>
    let ncli := wrap32 (k.ncli - 1)
    if k.IF then .error .popcliInterruptible
    else if ncli < 0 then .error .popcli
    else .ok { k with ncli := ncli, IF := decide (ncli = 0) && k.intena }
  | .interrupt, eflags, frames =>
    .ok (if k.IF then { k with IF := false, eflags := none, frames := eflags :: frames } else k)
  | .iret, none, eflags :: frames =>
    .ok (if k.ncli = 0 then { k with IF := true, eflags := eflags, frames := frames } else k)
  | _, _, _ => .ok k

/-- `pushcli` is called with room in `ncli`. -/
def Shallow (k : Cpu) (op : Op) : Prop := op = .pushcli → k.ncli < INT_MAX

instance (k : Cpu) (op : Op) : Decidable (Shallow k op) := inferInstanceAs (Decidable (_ → _))

structure Cpu.Ok (k : Cpu) : Prop where
  nonneg : 0 ≤ k.ncli
  le : k.ncli ≤ INT_MAX
  IF : k.IF ↔ k.ncli = 0 ∧ k.frames = []
  intena : k.ncli ≠ 0 → k.intena = k.frames.isEmpty
  eflags : ∀ b, k.eflags = some b → b = k.IF
  frames : k.frames = [] ∨ ∃ e ≠ some false, k.frames = [e]

theorem Cpu.Ok.pred {k : Cpu} (h : k.Ok) : wrap32 (k.ncli - 1) = k.ncli - 1 := by
  have hle := h.le
  have hnonneg := h.nonneg
  unfold INT_MAX at hle
  exact wrap32_of_range (by omega) (by omega)

theorem Cpu.Ok.step {k k' : Cpu} {op : Op} (h : k.Ok) (hop : Shallow k op)
    (ht : cliStep k op = .ok k') : k'.Ok := by
  have hpred := h.pred
  have hsucc : k.ncli < INT_MAX → wrap32 (k.ncli + 1) = k.ncli + 1 := by
    intro hlt
    have hnonneg := h.nonneg
    unfold INT_MAX at hlt
    exact wrap32_of_range (by omega) (by omega)
  obtain ⟨hnonneg, hle, hIF, hintena, heflags, hframes⟩ := h
  unfold Shallow at hop
  unfold cliStep at ht
  split at ht <;> constructor <;> grind -linarith

end Laboratorio.Xv6.Spinlock
