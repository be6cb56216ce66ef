import Laboratorio.Uthread.Contextos
import Laboratorio.Uthread.Planificador

/-!
# The machine runs the scheduler

A run of the machine in which `thread_schedule` takes the thread that its search finds, and each
`thread_create` finds a slot, is a run of the scheduler of `Modelo`: a call of the library is the same
call there, and what a thread does between two calls is nothing.  So what `Planificador` proves of
all runs of the scheduler holds for the words in memory.
-/

namespace Laboratorio.Uthread.Maquina

open Laboratorio.Lib X86 Function

variable {L : Layout} {M M' : Machine} {m : Mem} {s : State} {dst : Slot}

/-! ## The words of a state -/

/-- What the library reads in memory, as in `s`. -/
structure Holds (L : Layout) (m : Mem) (s : State) : Prop where
  state : ∀ i, load m (L.addr (.state i)) = code (s.all_thread i).state
  current : load m (L.addr .current) = L.ptr s.current_thread
  last : (load m (L.addr .lastIndex)).toNat = s.lastIndex

theorem ptr_inj {i j : Slot} : L.ptr i = L.ptr j ↔ i = j := by
  rw [← BitVec.toNat_inj, L.ptr_toNat, L.ptr_toNat, Fin.ext_iff]
  simp only [Layout.addr, L.thread_eq]
  omega

theorem code_inj {st st' : TState} : code st = code st' ↔ st = st' := by
  cases st <;> cases st' <;> decide

theorem Holds.eligible_iff (h : Holds L m s) (k : Nat) :
    eligible L m (Fin.ofNat 8 (s.lastIndex + k)) = Uthread.eligible s k := by
  refine decide_eq_decide.2 (and_congr ?_ (not_congr ?_))
  · rw [← code_inj, ← h.state]
    rfl
  · rw [← ptr_inj, ← h.current]
    rfl

theorem Holds.search (h : Holds L m s) : search L m = (scan s).1.next_thread := by
  unfold Maquina.search scan
  rw [List.find?_map, show (load m L.lastIndex).toNat = _ from h.last,
    show eligible L m ∘ _ = Uthread.eligible s from funext h.eligible_iff]
  cases (List.range' 1 7).find? (Uthread.eligible s) <;> rfl

theorem Holds.firstFree (h : Holds L m s) : firstFree L m = (Uthread.firstFree s).elim 8 Fin.val := by
  have hfree : ∀ i : Slot, load m (L.state i) = code .FREE ↔ (s.all_thread i).state = .FREE := by
    intro i
    rw [← code_inj, ← h.state]
    rfl
  cases hs : Uthread.firstFree s with
  | none =>
    rcases firstFree_cases L m with ⟨i, -, hi⟩ | ⟨h8, -⟩
    · have hno := Fin.eq_false_of_find?_eq_none hs i
      exact absurd ((hfree i).1 hi) (of_decide_eq_false hno)
    · exact h8
  | some i =>
    obtain ⟨hi, hbefore⟩ := Fin.find?_eq_some_iff.1 hs
    have hfind : (List.range 8).find? (fun i => decide (load m (L.state i) = code .FREE)) = some i.val := by
      rw [List.find?_range_eq_some]
      refine ⟨decide_eq_true ((hfree i).2 (of_decide_eq_true hi)), List.mem_range.2 i.isLt, fun j hj => ?_⟩
      have hj' := hbefore ⟨j, hj.trans i.isLt⟩ hj
      simpa [← hfree] using hj'
    rw [Maquina.firstFree, hfind]
    rfl

theorem scan_some (h : (scan s).1.next_thread = some dst) :
    (scan s).1 = { s with next_thread := some dst, lastIndex := dst } ∧ s.current_thread ≠ dst := by
  unfold scan at h ⊢
  split at h
  · rename_i i hi
    cases h
    have hel := List.find?_some hi
    exact ⟨rfl, (of_decide_eq_true hel).2.symm⟩
  · cases h

/-! ## Calls -/

/-- The stack pointer behind `pushal`, relative to the stack in the slot, and the words of that stack. -/
def Machine.ctx (L : Layout) (M : Machine) : Ctx where
  esp := (M.cpu.regs .esp - 36 - BitVec.ofNat 32 (L.stack M.running)).toInt
  stack k := (load M.cpu.mem (L.stack M.running + k)).toInt

def Call.op (ctx : Ctx) : Call → Uthread.Op
  | .yield => .yield ctx
  | .exit => .exit ctx
  | .schedule => .schedule ctx

/-- The calls of the library in a step. -/
def Op.calls (L : Layout) (M : Machine) : Op → List Uthread.Op
  | .work _ _ => []
  | .create func => [.create func.toInt]
  | .switch call _ _ => [call.op (M.ctx L)]

theorem Holds.setCurrent (h : Holds L m s) (st : TState) :
    Holds L (setCurrent L st m) (setState s s.current_thread st) := by
  unfold Maquina.setCurrent
  rw [show load m L.current_thread = _ from h.current, L.ptr_state]
  constructor
  · intro i
    rw [load_store_addr, setState_state]
    by_cases hi : i = s.current_thread
    · simp [hi]
    · simp [hi, h.state]
  · simpa using h.current
  · simpa [setState] using h.last

/-- The state in which `thread_schedule` is entered. -/
theorem Holds.enter (h : Holds L m s) (call : Call) (ctx : Ctx) :
    ∃ u, (call.op ctx).enters s = some (ctx, u) ∧ Holds L (call.enter L m) u ∧
      u.current_thread = s.current_thread ∧ ∀ i ≠ s.current_thread, u.all_thread i = s.all_thread i := by
  cases call with
  | yield => exact ⟨_, rfl, h.setCurrent .RUNNABLE, rfl, fun i hi => update_of_ne hi ..⟩
  | exit => exact ⟨_, rfl, h.setCurrent .FREE, rfl, fun i hi => update_of_ne hi ..⟩
  | schedule => exact ⟨s, rfl, h, rfl, fun _ _ => rfl⟩

theorem Holds.noRunnable_iff (h : Holds L m s) (call : Call) (ctx : Ctx) :
    Maquina.search L (call.enter L m) = none ↔ Uthread.step s (call.op ctx) = .error .noRunnable := by
  obtain ⟨u, hu, hholds, -⟩ := h.enter call ctx
  rw [step_of_enters hu, hholds.search]
  cases hnext : (scan u).1.next_thread with
  | none => simp [thread_schedule_of_none ctx hnext]
  | some dst =>
    obtain ⟨hscan, hne⟩ := scan_some hnext
    rw [thread_schedule_of_some ctx hnext (by rw [hscan]; exact hne)]
    exact iff_of_false nofun nofun

theorem Holds.hasFree_iff (h : Holds L m s) (func : Int) :
    HasFree L m ↔ Uthread.step s (.create func) ≠ .error .outOfBounds := by
  have hfirst := h.firstFree
  show _ ↔ Uthread.thread_create func s ≠ _
  unfold Uthread.thread_create
  cases hs : Uthread.firstFree s with
  | none =>
    refine iff_of_false (fun hfree => ?_) fun hne => hne rfl
    obtain ⟨i, hi, -⟩ := hfree.firstFree
    rw [hs, hi] at hfirst
    exact absurd hfirst i.isLt.ne
  | some i =>
    refine iff_of_true ⟨i, ?_⟩ nofun
    have hi := (Fin.find?_eq_some_iff.1 hs).1
    exact (h.state i).trans (congrArg code (of_decide_eq_true hi))

/-! ## Steps -/

/-- The words in memory are those of `s`, and a thread that waits has its `sp`. -/
structure Simulates (L : Layout) (M : Machine) (s : State) : Prop where
  holds : Holds L M.cpu.mem s
  sp : ∀ i ≠ M.running, (s.all_thread i).state = .RUNNABLE →
    load M.cpu.mem (L.addr (.sp i)) = BitVec.ofInt 32 (L.stack i + (s.all_thread i).sp)

theorem Simulates.current (h : Simulates L M s) (hI : Inv L M) : s.current_thread = M.running :=
  ptr_inj.1 (h.holds.current.symm.trans hI.current)

theorem Simulates.work {regs : Reg → Word} {bytes : List (Nat × BitVec 8)} (h : Simulates L M s)
    (hstep : step L M (.work regs bytes) = .ok M') : Simulates L M' s := by
  obtain ⟨m, rfl, hplace, -⟩ := work_cases hstep
  refine ⟨⟨fun i => ?_, ?_, ?_⟩, fun i hi hst => ?_⟩
  · exact (hplace _).trans (h.holds.state i)
  · exact (hplace _).trans h.holds.current
  · exact (congrArg _ (hplace _)).trans h.holds.last
  · exact (hplace _).trans (h.sp i hi hst)

theorem Simulates.create {func : Word} (h : Simulates L M s) (hfree : HasFree L M.cpu.mem)
    (hstep : step L M (.create func) = .ok M') :
    ∃ s', Uthread.step s (.create func.toInt) = .ok s' ∧ Simulates L M' s' := by
  obtain ⟨j, hj, -⟩ := hfree.firstFree
  have hs : Uthread.firstFree s = some j := by
    have hfirst := h.holds.firstFree
    rw [hj] at hfirst
    cases hs : Uthread.firstFree s with
    | none =>
      rw [hs] at hfirst
      exact absurd hfirst j.isLt.ne
    | some i =>
      rw [hs] at hfirst
      exact congrArg some (Fin.ext hfirst.symm)
  have hc := created func hj
  simp only [step, hj] at hstep
  cases hstep
  show ∃ s', Uthread.thread_create func.toInt s = .ok s' ∧ _
  unfold Uthread.thread_create
  rw [hs]
  refine ⟨_, rfl, ⟨fun i => ?_, ?_, ?_⟩, fun i hi hst => ?_⟩
  · dsimp only [Machine.created]
    by_cases hij : i = j
    · rw [hij, update_self]
      exact hc.state
    · rw [update_of_ne hij]
      exact (hc.place (by simp) (by simpa using hij)).trans (h.holds.state i)
  · exact (hc.place (by simp) (by simp)).trans h.holds.current
  · exact (congrArg _ (hc.place (by simp) (by simp))).trans h.holds.last
  · dsimp only [Machine.created] at hst ⊢
    by_cases hij : i = j
    · rw [hij, update_self]
      refine hc.sp.trans ?_
      have htop : L.stack j + STACK_SIZE - 4 - 32 = L.stack j + (8192 - 4 - 32) := by
        simp only [STACK_SIZE]
        omega
      rw [htop]
      exact (BitVec.ofInt_natCast ..).symm
    · rw [update_of_ne hij] at hst ⊢
      exact (hc.place (by simpa using hij) (by simp)).trans (h.sp i hi hst)

theorem Simulates.switch {call : Call} {ret : Word} (h : Simulates L M s) (hI : Inv L M)
    (hfound : search L (call.enter L M.cpu.mem) = some dst)
    (hstep : step L M (.switch call dst ret) = .ok M') :
    ∃ s', Uthread.step s (call.op (M.ctx L)) = .ok s' ∧ Simulates L M' s' := by
  obtain ⟨u, hu, hholds, hcur, hother⟩ := h.holds.enter call (M.ctx L)
  obtain ⟨-, regs, eip, m, -, hs, -, rfl⟩ := hI.switch_cases hstep
  have hnext := hholds.search.symm.trans hfound
  obtain ⟨hscan, hne⟩ := scan_some hnext
  rw [step_of_enters hu, thread_schedule_of_some _ hnext (by rw [hscan]; exact hne), hscan]
  have hrun := hcur.trans (h.current hI)
  refine ⟨_, rfl, ⟨fun i => ?_, hs.current, ?_⟩, fun i hi hst => ?_⟩
  · rw [thread_switch_state, setState_state]
    by_cases hi : i = dst
    · rw [hi, if_pos rfl]
      exact hs.state
    · rw [if_neg hi]
      exact (hs.other i hi).trans (hholds.state i)
  · refine (congrArg _ hs.last).trans ?_
    exact Nat.mod_eq_of_lt (dst.isLt.trans (by decide))
  · change i ≠ dst at hi
    rw [thread_switch_state, setState_state, if_neg hi] at hst
    change load m (L.addr (.sp i)) = BitVec.ofInt 32 (L.stack i + (update
      (update u.all_thread dst { u.all_thread dst with state := .RUNNING }) u.current_thread _ i).sp)
    by_cases hir : i = M.running
    · -- the thread that called has its frame below its stack pointer
      rw [hir, hrun, update_self, hs.frame.sp, BitVec.ofInt_add, Machine.ctx, BitVec.ofInt_toInt,
        BitVec.ofInt_natCast, BitVec.add_comm, BitVec.sub_add_cancel]
    · have hother := hother i (by rwa [h.current hI])
      rw [hrun, update_of_ne hir, update_of_ne hi, hother, hs.sp i hir]
      exact h.sp i hir (by rwa [← hother])

/-- `thread_schedule` takes the thread that it finds. -/
def Searched (L : Layout) (M : Machine) : Op → Prop
  | .switch call dst _ => search L (call.enter L M.cpu.mem) = some dst
  | _ => True

instance (L : Layout) (M : Machine) : ∀ op : Op, Decidable (Searched L M op)
  | .switch .. => inferInstanceAs (Decidable (_ = _))
  | .work .. => inferInstanceAs (Decidable True)
  | .create _ => inferInstanceAs (Decidable True)

theorem Simulates.step {op : Op} (h : Simulates L M s) (hI : Inv L M) (hfree : FreeSlot L M op)
    (hsearch : Searched L M op) (hstep : step L M op = .ok M') :
    ∃ s', run Uthread.step s (op.calls L M) = .ok s' ∧ Simulates L M' s' := by
  cases op with
  | work regs bytes => exact ⟨s, rfl, h.work hstep⟩
  | create func =>
    obtain ⟨s', hs', h'⟩ := h.create hfree hstep
    exact ⟨s', run_cons_ok.2 ⟨s', hs', rfl⟩, h'⟩
  | switch call dst ret =>
    obtain ⟨s', hs', h'⟩ := h.switch hI hsearch hstep
    exact ⟨s', run_cons_ok.2 ⟨s', hs', rfl⟩, h'⟩

/-! ## Runs -/

/-- The calls of the library in a run. -/
def calls (L : Layout) : Machine → List Op → List Uthread.Op
  | _, [] => []
  | M, op :: ops => op.calls L M ++
    match step L M op with
    | .ok M' => calls L M' ops
    | .error _ => []

theorem Simulates.run (ops : List Op) : ∀ {M : Machine} {s : State}, Simulates L M s → Inv L M →
    Meets (Maquina.step L) M (FreeSlot L) ops → Meets (Maquina.step L) M (Searched L) ops →
    run (Maquina.step L) M ops = .ok M' →
    ∃ s', run Uthread.step s (calls L M ops) = .ok s' ∧ Simulates L M' s' := by
  induction ops with
  | nil =>
    intro M s h hI _ _ hrun
    cases hrun
    exact ⟨s, rfl, h⟩
  | cons op ops ih =>
    intro M s h hI hfree hsearch hrun
    obtain ⟨M1, hstep, hrun⟩ := run_cons_ok.1 hrun
    obtain ⟨hop, hfree⟩ := meets_cons.1 hfree
    obtain ⟨hop', hsearch⟩ := meets_cons.1 hsearch
    obtain ⟨s1, hs1, h1⟩ := h.step hI hop hop' hstep
    obtain ⟨s', hs', h'⟩ := ih h1 (hI.step hop hstep) (hfree M1 hstep) (hsearch M1 hstep) hrun
    refine ⟨s', ?_, h'⟩
    rw [calls, hstep, run_append, hs1]
    exact hs'

theorem Simulates.start (L : Layout) (c : Cpu) : Simulates L (start L c) Uthread.thread_init := by
  refine ⟨⟨fun i => ?_, ?_, ?_⟩, fun i hi hst => ?_⟩
  · rw [start_mem, Uthread.thread_init, setState_state]
    by_cases hi : i = 0
    · simp [hi]
    · simp [hi, bss_zero, code]
  · rw [start_mem]
    simp [Uthread.thread_init]
  · rw [start_mem]
    simp [bss_zero, Uthread.thread_init, setState]
  · rw [Uthread.thread_init, setState_state, if_neg (show i ≠ 0 from hi)] at hst
    cases hst

/-- **Every run of the machine is one of the scheduler**, with the same calls, if each `thread_create`
finds a slot and `thread_schedule` takes the thread that it finds.  From where it ends, the next call
ends the program, or goes beyond the table, exactly when it does there. -/
theorem machine_refines (L : Layout) (c : Cpu) (ops : List Op)
    (hfree : Meets (step L) (start L c) (FreeSlot L) ops)
    (hsearch : Meets (step L) (start L c) (Searched L) ops) {M : Machine}
    (hrun : run (step L) (start L c) ops = .ok M) :
    ∃ s, run Uthread.step Uthread.thread_init (calls L (start L c) ops) = .ok s ∧ Simulates L M s ∧
      (∀ (call : Call) ctx, search L (call.enter L M.cpu.mem) = none ↔
        Uthread.step s (call.op ctx) = .error .noRunnable) ∧
      ∀ func, HasFree L M.cpu.mem ↔ Uthread.step s (.create func) ≠ .error .outOfBounds := by
  obtain ⟨s, hs, h⟩ := (Simulates.start L c).run ops (Inv.start L c) hfree hsearch hrun
  exact ⟨s, hs, h, h.holds.noRunnable_iff, h.holds.hasFree_iff⟩

theorem machine_refines_one : ∃ M, run (step uthread) (start uthread mainCpu) oneThread = .ok M ∧
    ∃ s, run Uthread.step Uthread.thread_init (calls uthread (start uthread mainCpu) oneThread) = .ok s ∧
      Simulates uthread M s := by
  have hok : (run (step uthread) (start uthread mainCpu) oneThread).isOk = true := by
    decide +kernel
  cases hrun : run (step uthread) (start uthread mainCpu) oneThread with
  | error e =>
    rw [hrun] at hok
    cases hok
  | ok M =>
    obtain ⟨s, hs, h, -⟩ := machine_refines uthread mainCpu oneThread (meets_of_meetsB (by decide +kernel))
      (meets_of_meetsB (by decide +kernel)) hrun
    exact ⟨M, rfl, s, hs, h⟩

end Laboratorio.Uthread.Maquina
