import Laboratorio.Uthread.Maquina

/-!
# Slots and contexts in memory
-/

namespace Laboratorio.Uthread.Maquina

open Laboratorio.Lib X86 Function

variable {L : Layout} {M M' : Machine} {m m' : Mem} {i j : Slot} {w : Word}

/-! ## The words of the library -/

inductive Place where
  | lastIndex
  | current
  | next
  | sp (i : Slot)
  | state (i : Slot)
  deriving DecidableEq

def Layout.addr (L : Layout) : Place → Nat
  | .lastIndex => L.lastIndex
  | .current => L.current_thread
  | .next => L.next_thread
  | .sp i => L.thread i
  | .state i => L.state i

/-- The variables and the page of `main` are not in `all_thread`. -/
theorem Layout.outside (L : Layout) :
    (L.lastIndex + 4 ≤ L.all_thread ∨ L.all_thread + 65600 ≤ L.lastIndex) ∧
      (L.current_thread + 4 ≤ L.all_thread ∨ L.all_thread + 65600 ≤ L.current_thread) ∧
      (L.next_thread + 4 ≤ L.all_thread ∨ L.all_thread + 65600 ≤ L.next_thread) ∧
      (L.ustack + 4096 ≤ L.all_thread ∨ L.all_thread + 65600 ≤ L.ustack) := by
  have h := (List.pairwise_cons.1 L.apart).1
  simp only [List.forall_mem_cons, THREAD, STACK_SIZE] at h
  omega

theorem Layout.all_thread_le (L : Layout) : L.all_thread + 65600 ≤ 2 ^ 31 :=
  L.user (L.all_thread, 8 * THREAD) (by simp [pieces])

theorem Layout.ustack_le (L : Layout) : L.ustack + 4096 ≤ 2 ^ 31 :=
  L.user (L.ustack, 4096) (by simp [pieces])

theorem Layout.thread_eq (L : Layout) (i : Nat) : L.thread i = L.all_thread + 8200 * i := by
  simp [thread, THREAD, STACK_SIZE]

theorem Layout.stack_eq (L : Layout) (i : Nat) : L.stack i = L.all_thread + 8200 * i + 4 := by
  simp [stack, thread_eq]

theorem Layout.state_eq (L : Layout) (i : Nat) : L.state i = L.all_thread + 8200 * i + 8196 := by
  simp [state, thread_eq, STACK_SIZE, Nat.add_assoc]

theorem Layout.addr_apart (L : Layout) {p q : Place} (h : p ≠ q) :
    L.addr q + 4 ≤ L.addr p ∨ L.addr p + 4 ≤ L.addr q := by
  have hvars := (List.pairwise_cons.1 L.apart).2
  simp only [List.pairwise_cons, List.mem_cons, forall_eq_or_imp, List.not_mem_nil] at hvars
  obtain ⟨⟨hlc, hln, -⟩, ⟨hcn, -⟩, -⟩ := hvars
  have hout := L.outside
  cases p <;> cases q <;> simp only [ne_eq, not_true, Place.sp.injEq, Place.state.injEq, Fin.ext_iff, addr,
    Layout.thread_eq, Layout.state_eq] at h ⊢ <;> omega

@[simp] theorem load_store_addr (p q : Place) :
    load (store m (L.addr p) w) (L.addr q) = if q = p then w else load m (L.addr q) := by
  split
  · subst q
    exact load_store_same
  · exact load_store_of_disjoint (L.addr_apart (Ne.symm ‹_›))

/-- A pointer to a slot. -/
def Layout.ptr (L : Layout) (i : Slot) : Word := BitVec.ofNat 32 (L.thread i)

theorem Layout.ptr_toNat (L : Layout) (i : Slot) : (L.ptr i).toNat = L.addr (.sp i) := by
  have := L.all_thread_le
  have := L.thread_eq i
  have := i.isLt
  exact Nat.mod_eq_of_lt (by omega)

theorem Layout.ptr_state (L : Layout) (i : Slot) :
    (L.ptr i).toNat + 4 + STACK_SIZE = L.addr (.state i) := by
  rw [ptr_toNat]
  rfl

/-! ## Stacks -/

theorem own_le (L : Layout) (M : Machine) (i : Slot) : (M.own L i).1 + (M.own L i).2 ≤ 2 ^ 31 := by
  have := L.all_thread_le
  have := i.isLt
  unfold Machine.own
  split
  · exact L.ustack_le
  · simp only [L.stack_eq, STACK_SIZE]
    omega

theorem own_addr (L : Layout) (M : Machine) (i : Slot) (p : Place) :
    L.addr p + 4 ≤ (M.own L i).1 ∨ (M.own L i).1 + (M.own L i).2 ≤ L.addr p := by
  have hvars := (List.pairwise_cons.1 L.apart).2
  simp only [List.pairwise_cons, List.mem_cons, forall_eq_or_imp, List.not_mem_nil] at hvars
  obtain ⟨⟨-, -, hlu, -⟩, ⟨-, hcu, -⟩, ⟨hnu, -⟩, -⟩ := hvars
  have hout := L.outside
  unfold Machine.own
  split <;> cases p <;> simp only [Layout.addr, L.thread_eq, L.state_eq, L.stack_eq, STACK_SIZE] <;> omega

theorem own_own (L : Layout) (M : Machine) (h : i ≠ j) :
    (M.own L i).1 + (M.own L i).2 ≤ (M.own L j).1 ∨ (M.own L j).1 + (M.own L j).2 ≤ (M.own L i).1 := by
  have hout := L.outside
  rw [ne_eq, Fin.ext_iff] at h
  unfold Machine.own
  split <;> split <;> simp only [L.stack_eq, STACK_SIZE, Fin.ext_iff, Fin.val_zero] at * <;> omega

/-! ## `thread_create` -/

/-- The search ends at a `FREE` slot, or behind the last one if there is none. -/
theorem firstFree_cases (L : Layout) (m : Mem) :
    (∃ i : Slot, firstFree L m = i ∧ load m (L.state i) = code .FREE) ∨
      firstFree L m = 8 ∧ ∀ i : Slot, load m (L.state i) ≠ code .FREE := by
  unfold firstFree
  cases hf : (List.range 8).find? fun i => decide (load m (L.state i) = code .FREE) with
  | none =>
    refine Or.inr ⟨rfl, fun i hi => ?_⟩
    have := List.find?_eq_none.1 hf i (List.mem_range.2 i.isLt)
    exact this (decide_eq_true hi)
  | some i =>
    have hlt := List.mem_range.1 (List.mem_of_find?_eq_some hf)
    have hfree := List.find?_some hf
    exact Or.inl ⟨⟨i, hlt⟩, rfl, of_decide_eq_true hfree⟩

/-- All that is written lies in one element of `all_thread`, if there is one. -/
theorem createStores_within (L : Layout) (func : Word) (m : Mem) {x : Nat × Word}
    (hx : x ∈ createStores L func m) :
    L.thread (firstFree L m) ≤ x.1 ∧ x.1 + 4 ≤ L.thread (firstFree L m) + THREAD := by
  simp only [createStores, List.mem_cons, List.not_mem_nil, or_false] at hx
  simp only [L.thread_eq, L.stack_eq, L.state_eq, THREAD, STACK_SIZE] at hx ⊢
  rcases hx with rfl | rfl | rfl | rfl | rfl <;> simp only <;> omega

theorem thread_create_frame (L : Layout) (func : Word) (m : Mem) {b : Nat}
    (hb : b < L.thread (firstFree L m) ∨ L.thread (firstFree L m) + THREAD ≤ b) :
    thread_create L func m b = m b := by
  unfold thread_create
  refine foldl_store_of_notMem _ _ fun x hx => ?_
  have := createStores_within L func m hx
  omega

/-- The frame that `thread_switch` is to find. -/
structure Created (L : Layout) (i : Slot) (func : Word) (m m' : Mem) : Prop where
  sp : load m' (L.addr (.sp i)) = BitVec.ofNat 32 (L.stack i + STACK_SIZE - 4 - 32)
  func : load m' (L.stack i + STACK_SIZE - 4) = func
  state : load m' (L.addr (.state i)) = code .RUNNABLE
  frame : ∀ b, b < L.thread i ∨ L.thread i + THREAD ≤ b → m' b = m b

theorem created (func : Word) (hi : firstFree L m = i) : Created L i func m (thread_create L func m) := by
  have hstack : L.stack i + STACK_SIZE - 4 = L.all_thread + 8200 * i + 8192 := by
    simp only [L.stack_eq, STACK_SIZE]
    omega
  have hm : thread_create L func m = store (store (store (store (store m
      (L.addr (.sp i)) (BitVec.ofNat 32 (L.stack i + STACK_SIZE)))
      (L.addr (.sp i)) (BitVec.ofNat 32 (L.stack i + STACK_SIZE - 4)))
      (L.stack i + STACK_SIZE - 4) func)
      (L.addr (.sp i)) (BitVec.ofNat 32 (L.stack i + STACK_SIZE - 4 - 32)))
      (L.addr (.state i)) (code .RUNNABLE) := by
    unfold thread_create createStores
    rw [hi]
    rfl
  constructor
  · rw [hm]
    simp
  · rw [hm, load_store_of_disjoint, load_store_of_disjoint, load_store_same]
    · simp only [hstack, Layout.addr, L.thread_eq]
      omega
    · simp only [hstack, Layout.addr, L.state_eq]
      omega
  · rw [hm]
    simp
  · intro b hb
    exact thread_create_frame L func m (by rwa [hi])

/-- `thread_create` claims a `FREE` slot, or changes nothing. -/
def CreateOk (L : Layout) (func : Word) (m : Mem) : Prop :=
  (∃ i : Slot, load m (L.state i) = code .FREE ∧
    (∀ x ∈ createStores L func m, L.thread i ≤ x.1 ∧ x.1 + 4 ≤ L.thread i + THREAD) ∧
    load (thread_create L func m) (L.state i) = code .RUNNABLE ∧
    ∀ b, b < L.thread i ∨ L.thread i + THREAD ≤ b → thread_create L func m b = m b) ∨
  (∀ i : Slot, load m (L.state i) ≠ code .FREE) ∧ createStores L func m = []

def HasFree (L : Layout) (m : Mem) : Prop := ∃ i : Slot, load m (L.state i) = code .FREE

instance (L : Layout) (m : Mem) : Decidable (HasFree L m) :=
  inferInstanceAs (Decidable (∃ i : Slot, load m (L.state i) = code .FREE))

theorem HasFree.firstFree (h : HasFree L m) :
    ∃ i : Slot, firstFree L m = i ∧ load m (L.state i) = code .FREE := by
  rcases firstFree_cases L m with hi | ⟨-, hno⟩
  · exact hi
  · obtain ⟨i, hi⟩ := h
    exact absurd hi (hno i)

theorem createOk_iff (L : Layout) (func : Word) (m : Mem) : CreateOk L func m ↔ HasFree L m := by
  constructor
  · rintro (⟨i, hi, -⟩ | ⟨-, hnil⟩)
    · exact ⟨i, hi⟩
    · simp [createStores] at hnil
  · intro h
    obtain ⟨i, hi, hfree⟩ := h.firstFree
    have hc := created func hi
    refine Or.inl ⟨i, hfree, fun x hx => ?_, hc.state, hc.frame⟩
    rw [← hi]
    exact createStores_within L func m hx

/-- `thread_create` does what it should in the memory in which it is called. -/
def Claims (L : Layout) (M : Machine) : Op → Prop
  | .create func => CreateOk L func M.cpu.mem
  | _ => True

/-- `thread_create` is called while there is a `FREE` slot. -/
def FreeSlot (L : Layout) (M : Machine) : Op → Prop
  | .create _ => HasFree L M.cpu.mem
  | _ => True

instance (L : Layout) (M : Machine) (op : Op) : Decidable (FreeSlot L M op) :=
  match op with
  | .create _ => inferInstanceAs (Decidable (HasFree L M.cpu.mem))
  | .work _ _ => inferInstanceAs (Decidable True)
  | .switch _ _ _ => inferInstanceAs (Decidable True)

theorem claims_iff (L : Layout) (M : Machine) (op : Op) : Claims L M op ↔ FreeSlot L M op := by
  cases op with
  | work regs bytes => exact Iff.rfl
  | create func => exact createOk_iff L func M.cpu.mem
  | switch call next ret => exact Iff.rfl

/-- **`thread_create` claims nothing but a `FREE` slot, in every call of a run, exactly when each of
them finds one.** -/
theorem creates_iff (L : Layout) (c : Cpu) (ops : List Op) :
    Meets (step L) (start L c) (Claims L) ops ↔ Meets (step L) (start L c) (FreeSlot L) ops := by
  unfold Meets
  simp only [claims_iff]

/-- `uthread`, with `all_thread[1]` where the `README` of lab 4 shows it. -/
def uthread : Layout where
  all_thread := 0xd60
  lastIndex := 0xd40
  current_thread := 0x10da8
  next_thread := 0x10dac
  ustack := 0x12000
  apart := by decide
  user := by decide

/-- `main` with an empty stack. -/
def mainCpu : Cpu := ⟨fun _ => 0x13000, 0, fun _ => 0⟩

/-- `uthread 8 n`: the eighth thread finds no slot. -/
theorem creates_eight : ¬ Meets (step uthread) (start uthread mainCpu) (Claims uthread)
    (List.replicate 8 (.create 0x100)) := by
  intro h
  have hrun : ∃ M, run (step uthread) (start uthread mainCpu) (List.replicate 7 (.create 0x100)) = .ok M ∧
      ¬ HasFree uthread M.cpu.mem := by
    refine ⟨_, rfl, ?_⟩
    decide +kernel
  obtain ⟨M, hM, hno⟩ := hrun
  exact hno ((claims_iff _ _ _).1 (h (List.replicate 7 (.create 0x100)) (.create 0x100)
    (List.prefix_refl _) M hM))

/-! ## `thread_switch` -/

/-- Memory after `current_thread->sp = esp`. -/
def saveSp (L : Layout) (c : Cpu) : Mem :=
  store c.mem (load c.mem L.current_thread).toNat (c.regs .esp)

/-- The instructions between `pushal` and `popal` change `eax`, `esp` and three words. -/
theorem exec_moves {c : Cpu} {n sp : Word} (hn : load (saveSp L c) L.next_thread = n)
    (hsp : load (saveSp L c) n.toNat = sp) :
    exec (((thread_switch L).drop 1).take 6) c =
      ⟨update (update c.regs .eax n) .esp sp, c.eip,
        store (store (saveSp L c) L.current_thread n) L.next_thread 0⟩ := by
  subst hn hsp
  simp [exec, thread_switch, Instr.exec, Operand.get, Operand.set, saveSp]

/-- Who finds a frame of `pushal` and a return address goes on with them. -/
theorem exec_thread_switch {c : Cpu} {n sp : Word} {regs : Reg → Word} {m : Mem}
    (hn : load (saveSp L (Instr.exec c .pushal)) L.next_thread = n)
    (hsp : load (saveSp L (Instr.exec c .pushal)) n.toNat = sp)
    (hm : m = store (store (saveSp L (Instr.exec c .pushal)) L.current_thread n) L.next_thread 0)
    (hsaved : Saved m sp.toNat regs) (hesp : regs .esp = sp + 36) (hfits : sp.toNat + 36 < 2 ^ 32) :
    exec (thread_switch L) c = ⟨regs, load m (sp.toNat + 32), m⟩ := by
  have hsplit : exec (thread_switch L) c =
      Instr.exec (Instr.exec (exec (((thread_switch L).drop 1).take 6) (Instr.exec c .pushal)) .popal) .ret := rfl
  rw [hsplit, exec_moves hn hsp, ← hm, popal_of_saved (by simpa using hsaved) (by simp; omega)]
  have h32 : (sp + 32).toNat = sp.toNat + 32 := by bv_omega
  simp only [Instr.exec, pop, update_self, h32]
  congr 1
  rw [update_idem, update_eq_iff]
  exact ⟨by rw [hesp]; bv_omega, fun _ _ => rfl⟩

/-! ## Contexts -/

/-- Whether these are the registers and the address with which a thread is to go on. -/
def Resumes (L : Layout) (i : Slot) (regs : Reg → Word) (eip : Word) : Option Resume → Prop
  | none => False
  | some (.first func) => regs .esp = BitVec.ofNat 32 (L.stack i + STACK_SIZE) ∧ eip = func
  | some (.back regs' eip') => regs = regs' ∧ eip = eip'

/-- The registers and the return address at the saved `sp`, on the thread's own stack. -/
structure Frame (m : Mem) (own : Nat × Nat) (sp : Word) (regs : Reg → Word) (ret : Word) : Prop where
  sp : sp = regs .esp - 36
  low : own.1 + 36 ≤ (regs .esp).toNat
  high : (regs .esp).toNat ≤ own.1 + own.2
  saved : Saved m ((regs .esp).toNat - 36) regs
  ret : load m ((regs .esp).toNat - 4) = ret

/-- The two memories agree on a stack. -/
def Same (own : Nat × Nat) (m m' : Mem) : Prop := ∀ b, own.1 ≤ b → b < own.1 + own.2 → m' b = m b

theorem Same.trans {own : Nat × Nat} {m1 m2 m3 : Mem} (h : Same own m1 m2) (h' : Same own m2 m3) :
    Same own m1 m3 := fun b hlo hhi => (h' b hlo hhi).trans (h b hlo hhi)

theorem Frame.congr {own : Nat × Nat} {sp ret : Word} {regs : Reg → Word} (h : Frame m own sp regs ret)
    (hm : Same own m m') : Frame m' own sp regs ret := by
  have hlow := h.low
  have hhigh := h.high
  refine ⟨h.sp, hlow, hhigh, h.saved.congr fun k hk => hm _ (by omega) (by omega), ?_⟩
  rw [← h.ret]
  exact load_congr fun k hk => hm _ (by omega) (by omega)

/-- Between two steps `current_thread` points to the thread that runs, and every other `RUNNABLE` thread
has on its own stack the frame that `popal` and `ret` need to let it go on. -/
structure Inv (L : Layout) (M : Machine) : Prop where
  current : load M.cpu.mem (L.addr .current) = L.ptr M.running
  running : load M.cpu.mem (L.addr (.state M.running)) = code .RUNNING
  waiting : ∀ i ≠ M.running, load M.cpu.mem (L.addr (.state i)) = code .RUNNABLE →
    ∃ regs ret, Resumes L i regs ret (M.last i) ∧
      Frame M.cpu.mem (M.own L i) (load M.cpu.mem (L.addr (.sp i))) regs ret

theorem store_same (p : Place) : Same (M.own L i) m (store m (L.addr p) w) := by
  intro b hlo hhi
  have := own_addr L M i p
  exact store_of_notMem (by omega)

/-- `thread_yield` and `thread_exit` write the state of the thread that calls them. -/
theorem enter_frame (hcur : load m (L.addr .current) = L.ptr j) (call : Call) :
    (∀ p ≠ .state j, load (call.enter L m) (L.addr p) = load m (L.addr p)) ∧
      ∀ (M : Machine) i, Same (M.own L i) m (call.enter L m) := by
  have hframe : ∀ st, (∀ p ≠ .state j, load (setCurrent L st m) (L.addr p) = load m (L.addr p)) ∧
      ∀ (M : Machine) i, Same (M.own L i) m (setCurrent L st m) := by
    intro st
    unfold setCurrent
    rw [show load m L.current_thread = _ from hcur, L.ptr_state]
    exact ⟨fun p hp => by rw [load_store_addr, if_neg hp], fun M i => store_same _⟩
  cases call with
  | yield => exact hframe .RUNNABLE
  | exit => exact hframe .FREE
  | schedule => exact ⟨fun _ _ => rfl, fun _ _ _ _ _ => rfl⟩

theorem choose_eq (L : Layout) (next : Slot) (m : Mem) :
    choose L next m = store (store (store m (L.addr .next) (L.ptr next)) (L.addr .lastIndex)
      (BitVec.ofNat 32 next)) (L.addr (.state next)) (code .RUNNING) := by
  have h : load (store (store m (L.addr .next) (L.ptr next)) (L.addr .lastIndex) (BitVec.ofNat 32 next))
      L.next_thread = L.ptr next := by
    show load _ (L.addr .next) = _
    simp
  show store _ ((load (store (store m (L.addr .next) (L.ptr next)) (L.addr .lastIndex)
    (BitVec.ofNat 32 next)) L.next_thread).toNat + 4 + STACK_SIZE) _ = _
  rw [h, L.ptr_state]
  rfl

/-- Memory when `thread_schedule` calls `thread_switch`. -/
structure Chosen (L : Layout) (M : Machine) (call : Call) (dst : Slot) (m : Mem) : Prop where
  last : load m (L.addr .lastIndex) = BitVec.ofNat 32 dst
  current : load m (L.addr .current) = L.ptr M.running
  next : load m (L.addr .next) = L.ptr dst
  state : load m (L.addr (.state dst)) = code .RUNNING
  sp : ∀ i, load m (L.addr (.sp i)) = load M.cpu.mem (L.addr (.sp i))
  other : ∀ i ≠ dst, load m (L.addr (.state i)) = load (call.enter L M.cpu.mem) (L.addr (.state i))
  own : ∀ i, Same (M.own L i) M.cpu.mem m

theorem Inv.chosen (hI : Inv L M) (call : Call) (dst : Slot) :
    Chosen L M call dst (choose L dst (call.enter L M.cpu.mem)) := by
  obtain ⟨hplace, hown⟩ := enter_frame hI.current call
  rw [choose_eq]
  constructor
  · simp
  · simp [hplace, hI.current]
  · simp
  · simp
  · intro i
    simp [hplace]
  · intro i hi
    simp [hi]
  · intro i
    exact (((hown M i).trans (store_same _)).trans (store_same _)).trans (store_same _)

/-- Memory at the end of `thread_switch`. -/
structure Switched (L : Layout) (M : Machine) (call : Call) (dst : Slot) (ret : Word) (m : Mem) : Prop where
  last : load m (L.addr .lastIndex) = BitVec.ofNat 32 dst
  current : load m (L.addr .current) = L.ptr dst
  next : load m (L.addr .next) = 0
  state : load m (L.addr (.state dst)) = code .RUNNING
  frame : Frame m (M.own L M.running) (load m (L.addr (.sp M.running))) M.cpu.regs ret
  sp : ∀ i ≠ M.running, load m (L.addr (.sp i)) = load M.cpu.mem (L.addr (.sp i))
  other : ∀ i ≠ dst, load m (L.addr (.state i)) = load (call.enter L M.cpu.mem) (L.addr (.state i))
  own : ∀ i ≠ M.running, Same (M.own L i) M.cpu.mem m

/-- The thread that runs has room on its stack for the frame. -/
def Room (L : Layout) (M : Machine) : Prop :=
  (M.own L M.running).1 + 36 ≤ (M.cpu.regs .esp).toNat ∧
    (M.cpu.regs .esp).toNat ≤ (M.own L M.running).1 + (M.own L M.running).2

section Called

variable {call : Call} {dst : Slot} {c' : Cpu} {ret : Word} (hch : Chosen L M call dst m)
  (hc : Called { M.cpu with mem := m } ret c')

include hch hc

/-- The call of `thread_switch` and `pushal` write to the stack of the running thread only. -/
theorem Called.chosen (hroom : Room L M) : (∀ p, load c'.mem (L.addr p) = load m (L.addr p)) ∧
    ∀ i ≠ M.running, Same (M.own L i) M.cpu.mem c'.mem := by
  obtain ⟨hlow, hhigh⟩ := hroom
  constructor
  · intro p
    have := own_addr L M M.running p
    exact load_congr fun k hk => hc.frame _ (by simp only; omega)
  · intro i hi b hlo hhi
    have := own_own L M hi
    rw [hc.frame b (by simp only; omega)]
    exact hch.own i b hlo hhi

theorem Called.saveSp (hplace : ∀ p, load c'.mem (L.addr p) = load m (L.addr p)) :
    saveSp L c' = store c'.mem (L.addr (.sp M.running)) (M.cpu.regs .esp - 36) := by
  have hcur : load c'.mem L.current_thread = L.ptr M.running := (hplace .current).trans hch.current
  unfold Maquina.saveSp
  rw [hcur, L.ptr_toNat, hc.esp]

theorem Called.switched (hroom : Room L M) :
    Switched L M call dst ret (store (store (Maquina.saveSp L c') (L.addr .current) (L.ptr dst)) (L.addr .next) 0) := by
  obtain ⟨hplace, hown⟩ := Called.chosen hch hc hroom
  rw [Called.saveSp hch hc hplace]
  constructor
  · simp [hplace, hch.last]
  · simp
  · simp
  · simp [hplace, hch.state]
  · have hf : Frame c'.mem (M.own L M.running) (M.cpu.regs .esp - 36) M.cpu.regs ret :=
      ⟨rfl, hroom.1, hroom.2, hc.saved, hc.ret⟩
    simp only [load_store_addr, reduceCtorEq, if_false, if_true]
    exact hf.congr (((store_same _).trans (store_same _)).trans (store_same _))
  · intro i hi
    simp [hi, hplace, hch.sp]
  · intro i hi
    simp [hplace, hch.other i hi]
  · intro i hi
    exact (((hown i hi).trans (store_same _)).trans (store_same _)).trans (store_same _)

theorem Called.found (hplace : ∀ p, load c'.mem (L.addr p) = load m (L.addr p)) (hne : dst ≠ M.running) :
    load (Maquina.saveSp L c') L.next_thread = L.ptr dst ∧
      load (Maquina.saveSp L c') (L.ptr dst).toNat = load M.cpu.mem (L.addr (.sp dst)) := by
  rw [Called.saveSp hch hc hplace, L.ptr_toNat]
  constructor
  · show load _ (L.addr .next) = _
    simp [hplace, hch.next]
  · simp [hne, hplace, hch.sp]

end Called

theorem Inv.switched {dst : Slot} {regs : Reg → Word} {eip : Word} (hI : Inv L M) (call : Call)
    (ret : Word) (hne : dst ≠ M.running) (hroom : Room L M)
    (hframe : Frame M.cpu.mem (M.own L dst) (load M.cpu.mem (L.addr (.sp dst))) regs eip) :
    ∃ m, exec (thread_switch L) (push ret { M.cpu with mem := choose L dst (call.enter L M.cpu.mem) }) =
        ⟨regs, eip, m⟩ ∧ Switched L M call dst ret m := by
  have hch := hI.chosen call dst
  have hc := called { M.cpu with mem := choose L dst (call.enter L M.cpu.mem) } ret
    (by have := hroom.1; simp only; omega)
  obtain ⟨hplace, -⟩ := Called.chosen hch hc hroom
  obtain ⟨hnext, hsp⟩ := Called.found hch hc hplace hne
  have hs := Called.switched hch hc hroom
  have hf := hframe.congr (hs.own dst hne)
  have hlow := hf.low
  have hhigh := hf.high
  have hle := own_le L M dst
  have hnat : (regs .esp - 36).toNat = (regs .esp).toNat - 36 := by bv_omega
  rw [hframe.sp] at hsp
  refine ⟨_, ?_, hs⟩
  rw [exec_thread_switch hnext hsp rfl (by rw [hnat]; exact hf.saved) (by bv_omega) (by omega), hnat,
    show (regs .esp).toNat - 36 + 32 = (regs .esp).toNat - 4 by omega]
  exact congrArg (Cpu.mk regs · _) hf.ret

/-! ## Steps -/

theorem onStack_iff {a b : Nat} : M.onStack L a b = true ↔
    (M.own L M.running).1 ≤ a ∧ b ≤ (M.own L M.running).1 + (M.own L M.running).2 := by
  simp [Machine.onStack]

theorem foldl_poke_of_notMem (bytes : List (Nat × BitVec 8)) (m : Mem) {b : Nat}
    (h : ∀ x ∈ bytes, x.1 ≠ b) : bytes.foldl poke m b = m b := by
  induction bytes generalizing m with
  | nil => rfl
  | cons x bytes ih =>
    rw [List.foldl_cons, ih _ fun y hy => h y (List.mem_cons_of_mem x hy)]
    exact update_of_ne (h x List.mem_cons_self).symm _ _

/-- A thread that computes leaves the words of the library and the stacks of the others alone. -/
theorem work_cases {regs : Reg → Word} {bytes : List (Nat × BitVec 8)}
    (h : step L M (.work regs bytes) = .ok M') : ∃ m, M' = { M with cpu := ⟨regs, M.cpu.eip, m⟩ } ∧
      (∀ p, load m (L.addr p) = load M.cpu.mem (L.addr p)) ∧ ∀ i ≠ M.running, Same (M.own L i) M.cpu.mem m := by
  simp only [step] at h
  split at h
  · rename_i hin
    cases h
    have hout : ∀ b, b < (M.own L M.running).1 ∨ (M.own L M.running).1 + (M.own L M.running).2 ≤ b →
        bytes.foldl poke M.cpu.mem b = M.cpu.mem b := by
      intro b hb
      refine foldl_poke_of_notMem _ _ fun x hx => ?_
      have := onStack_iff.1 (List.all_eq_true.1 hin x hx)
      omega
    refine ⟨_, rfl, fun p => ?_, fun i hi b hlo hhi => ?_⟩
    · have := own_addr L M M.running p
      exact load_congr fun k hk => hout _ (by omega)
    · have := own_own L M hi
      exact hout b (by omega)
  · cases h

theorem Inv.work {regs : Reg → Word} {bytes : List (Nat × BitVec 8)} (hI : Inv L M)
    (h : step L M (.work regs bytes) = .ok M') : Inv L M' := by
  obtain ⟨m, rfl, hplace, hown⟩ := work_cases h
  refine ⟨(hplace _).trans hI.current, (hplace _).trans hI.running, fun i hi hst => ?_⟩
  obtain ⟨regs, ret, hr, hf⟩ := hI.waiting i hi ((hplace _).symm.trans hst)
  refine ⟨regs, ret, hr, ?_⟩
  simp only [hplace]
  exact hf.congr (hown i hi)

/-- What a switch is: the running thread has room for the frame, and the other one is waiting. -/
theorem Inv.switch_cases {call : Call} {dst : Slot} {ret : Word} (hI : Inv L M)
    (h : step L M (.switch call dst ret) = .ok M') :
    dst ≠ M.running ∧ ∃ regs eip m, Resumes L dst regs eip (M.last dst) ∧ Switched L M call dst ret m ∧
      Frame M.cpu.mem (M.own L dst) (load M.cpu.mem (L.addr (.sp dst))) regs eip ∧
      M' = { M with cpu := ⟨regs, eip, m⟩, running := dst,
                    last := update M.last M.running (some (.back M.cpu.regs ret)) } := by
  obtain ⟨hplace, -⟩ := enter_frame hI.current call
  simp only [step] at h
  split at h
  · rename_i hroom
    obtain ⟨hroom, h36⟩ := hroom
    rw [onStack_iff] at hroom
    split at h
    · rename_i hel
      cases h
      obtain ⟨hst, hcur⟩ := of_decide_eq_true hel
      have hne : dst ≠ M.running := by
        rintro rfl
        exact hcur ((hplace .current (by simp)).trans hI.current).symm
      have hst' : load M.cpu.mem (L.addr (.state dst)) = code .RUNNABLE := by
        rw [← hplace (.state dst) (by simpa using hne)]
        exact hst
      obtain ⟨regs, eip, hr, hf⟩ := hI.waiting dst hne hst'
      obtain ⟨m, hexec, hs⟩ := hI.switched call ret hne ⟨by omega, hroom.2⟩ hf
      exact ⟨hne, regs, eip, m, hr, hs, hf, by rw [hexec]⟩
    · cases h
  · cases h

theorem Inv.switch {call : Call} {dst : Slot} {ret : Word} (hI : Inv L M)
    (h : step L M (.switch call dst ret) = .ok M') : Inv L M' := by
  obtain ⟨hne, regs, eip, m, -, hs, -, rfl⟩ := hI.switch_cases h
  refine ⟨hs.current, hs.state, fun i hi hst => ?_⟩
  change load m (L.addr (.state i)) = _ at hst
  rcases eq_or_ne i M.running with rfl | hrun
  · exact ⟨M.cpu.regs, ret, by simp [Resumes], hs.frame⟩
  · rw [hs.other i hi, (enter_frame hI.current call).1 _ (by simpa using hrun)] at hst
    obtain ⟨regs', ret', hr, hf⟩ := hI.waiting i hrun hst
    refine ⟨regs', ret', by simpa [hrun] using hr, ?_⟩
    show Frame m (M.own L i) (load m (L.addr (.sp i))) regs' ret'
    rw [hs.sp i hrun]
    exact hf.congr (hs.own i hrun)

/-- The stack of a thread that is not the new one is not in its slot. -/
theorem own_thread (L : Layout) (M : Machine) (h : i ≠ j) :
    L.thread j + THREAD ≤ (M.own L i).1 ∨ (M.own L i).1 + (M.own L i).2 ≤ L.thread j := by
  have hout := L.outside
  rw [ne_eq, Fin.ext_iff] at h
  unfold Machine.own
  split <;> simp only [L.thread_eq, L.stack_eq, THREAD, STACK_SIZE] <;> omega

theorem addr_thread (L : Layout) {p : Place} (hsp : p ≠ .sp j) (hst : p ≠ .state j) :
    L.thread j + THREAD ≤ L.addr p ∨ L.addr p + 4 ≤ L.thread j := by
  have hout := L.outside
  cases p <;> simp only [ne_eq, Place.sp.injEq, Place.state.injEq, Fin.ext_iff, Layout.addr, L.thread_eq,
    L.state_eq, THREAD, STACK_SIZE] at hsp hst ⊢ <;> omega

theorem own_created (func : Word) (m : Mem) (h : i ≠ j) : (M.created j func m).own L i = M.own L i := by
  by_cases h0 : i = 0
  · subst i
    have hj : (j : Nat) ≠ 0 := fun h' => h (Fin.ext h'.symm)
    simp [Machine.own, Machine.created, hj]
  · simp [Machine.own, h0]

theorem own_created_self (func : Word) (m : Mem) :
    (M.created j func m).own L j = (L.stack j, STACK_SIZE) := by
  by_cases h0 : j = 0
  · subst j
    simp [Machine.own, Machine.created]
  · simp [Machine.own, h0]

/-- A new thread starts at its function, with its stack empty. -/
theorem Created.resumes {func : Word} (hc : Created L i func m m') :
    ∃ regs, regs .esp = BitVec.ofNat 32 (L.stack i + STACK_SIZE) ∧
      Frame m' (L.stack i, STACK_SIZE) (load m' (L.addr (.sp i))) regs func := by
  have hle := L.all_thread_le
  have hlt := i.isLt
  have htop : L.stack i + STACK_SIZE = L.all_thread + 8200 * i + 8196 := by
    have := L.stack_eq i
    unfold STACK_SIZE
    omega
  have hnat : (BitVec.ofNat 32 (L.stack i + STACK_SIZE)).toNat = L.stack i + STACK_SIZE :=
    Nat.mod_eq_of_lt (by omega)
  refine ⟨fun r => if r = .esp then BitVec.ofNat 32 (L.stack i + STACK_SIZE)
    else load m' (L.stack i + STACK_SIZE - 36 + offset r), if_pos rfl, ?_⟩
  constructor
  · rw [hc.sp, if_pos rfl]
    bv_omega
  · rw [if_pos rfl, hnat]
    simp only [STACK_SIZE]
    omega
  · rw [if_pos rfl, hnat]
  · intro r hr
    rw [if_pos rfl, hnat]
    exact (if_neg hr).symm
  · rw [if_pos rfl, hnat]
    exact hc.func

theorem Created.place {func : Word} (hc : Created L j func m m') {p : Place} (hsp : p ≠ .sp j)
    (hst : p ≠ .state j) : load m' (L.addr p) = load m (L.addr p) := by
  have := addr_thread L hsp hst
  exact load_congr fun k hk => hc.frame _ (by omega)

/-- The slot of the running thread is not `FREE`, so a new thread does not get it. -/
theorem Inv.create {func : Word} (hI : Inv L M) (hfree : HasFree L M.cpu.mem)
    (h : step L M (.create func) = .ok M') : Inv L M' := by
  obtain ⟨j, hj, hst⟩ := hfree.firstFree
  have hc := created func hj
  have hrun : M.running ≠ j := by
    rintro rfl
    have := hI.running.symm.trans hst
    simp [code] at this
  simp only [step, hj] at h
  cases h
  refine ⟨(hc.place (by simp) (by simp)).trans hI.current,
    (hc.place (p := .state M.running) (by simp) (by simpa using hrun)).trans hI.running, fun i hi hst' => ?_⟩
  change load (thread_create L func M.cpu.mem) _ = _ at hst'
  rcases eq_or_ne i j with rfl | hij
  · obtain ⟨regs, hesp, hf⟩ := hc.resumes
    refine ⟨regs, func, by simpa [Machine.created, Resumes] using hesp, ?_⟩
    rw [own_created_self]
    exact hf
  · rw [hc.place (by simp) (by simpa using hij)] at hst'
    obtain ⟨regs, ret, hr, hf⟩ := hI.waiting i hi hst'
    refine ⟨regs, ret, ?_, ?_⟩
    · simpa [Machine.created, Fin.val_inj, hij] using hr
    · have := own_thread L M hij
      rw [own_created _ _ hij]
      show Frame (thread_create L func M.cpu.mem) (M.own L i)
        (load (thread_create L func M.cpu.mem) (L.addr (.sp i))) regs ret
      rw [hc.place (by simpa using hij) (by simp)]
      exact hf.congr fun b hlo hhi => hc.frame b (by omega)

theorem bss_zero (L : Layout) (m : Mem) {p : Place} (hp : ∀ i, p ≠ .sp i) : load (bss L m) (L.addr p) = 0 := by
  have hzero : ∀ k < 4, bss L m (L.addr p + k) = 0 := by
    intro k hk
    refine if_pos ?_
    cases p with
    | lastIndex => exact .inr (.inl ⟨Nat.le_add_right _ k, Nat.add_lt_add_left hk _⟩)
    | current => exact .inr (.inr (.inl ⟨Nat.le_add_right _ k, Nat.add_lt_add_left hk _⟩))
    | next => exact .inr (.inr (.inr ⟨Nat.le_add_right _ k, Nat.add_lt_add_left hk _⟩))
    | sp i => exact absurd rfl (hp i)
    | state i =>
      have := i.isLt
      simp only [Layout.addr, L.state_eq, THREAD, STACK_SIZE]
      omega
  unfold load
  rw [hzero 3 (by decide), hzero 2 (by decide), hzero 1 (by decide), show bss L m (L.addr p) = 0 from
    hzero 0 (by decide)]
  rfl

theorem start_mem (L : Layout) (c : Cpu) : (start L c).cpu.mem =
    store (store (bss L c.mem) (L.addr .current) (L.ptr 0)) (L.addr (.state 0)) (code .RUNNING) := by
  have hcur : load (store (bss L c.mem) (L.addr .current) (L.ptr 0)) L.current_thread = L.ptr 0 :=
    load_store_same
  show store _ ((load (store (bss L c.mem) (L.addr .current) (L.ptr 0)) L.current_thread).toNat + 4 +
    STACK_SIZE) _ = _
  rw [hcur, L.ptr_state]
  rfl

theorem Inv.start (L : Layout) (c : Cpu) : Inv L (start L c) := by
  constructor
  · rw [start_mem]
    simp [Maquina.start]
  · rw [start_mem]
    simp [Maquina.start]
  · intro i hi hst
    have hi0 : i ≠ 0 := hi
    rw [start_mem] at hst
    simp [hi0, bss_zero, code] at hst

theorem Inv.step {op : Op} (hI : Inv L M) (hok : FreeSlot L M op) (h : step L M op = .ok M') : Inv L M' := by
  cases op with
  | work regs bytes => exact hI.work h
  | create func => exact hI.create hok h
  | switch call dst ret => exact hI.switch h

/-! ## Runs -/

/-- A thread that is resumed goes on as it is to, `current_thread` is that thread and `next_thread`
is 0. -/
def Preserves (L : Layout) (M : Machine) : Op → Prop
  | .switch call dst ret => ∀ M', step L M (.switch call dst ret) = .ok M' →
      Resumes L dst M'.cpu.regs M'.cpu.eip (M.last dst) ∧
        load M'.cpu.mem L.current_thread = BitVec.ofNat 32 (L.thread dst) ∧
        load M'.cpu.mem L.next_thread = 0
  | _ => True

theorem Inv.preserves (hI : Inv L M) (op : Op) : Preserves L M op := by
  cases op with
  | work regs bytes => trivial
  | create func => trivial
  | switch call dst ret =>
    intro M' h
    obtain ⟨-, regs, eip, m, hr, hs, -, rfl⟩ := hI.switch_cases h
    exact ⟨hr, hs.current, hs.next⟩

/-- **Every thread goes on with its own registers, stack and address**, in every run in which each
`thread_create` finds a `FREE` slot. -/
theorem contexts_preserved (L : Layout) (c : Cpu) (ops : List Op)
    (hfree : Meets (step L) (start L c) (FreeSlot L) ops) :
    Meets (step L) (start L c) (Preserves L) ops := by
  intro pre op hpre M hM
  have hI : Inv L M := run_invariant_of_meets (P := fun _ M => Inv L M) (Inv.start L c)
    (fun _ _ _ _ _ hI hok h => hI.step hok h) pre M
    (hfree.of_prefix ((List.prefix_append pre [op]).trans hpre)) hM
  exact hI.preserves op

/-- A thread is created and runs, and `main` goes on after it. -/
def oneThread : List Op :=
  [.create 0x100, .switch .yield 1 0x200, .work (fun _ => 0x4d00) [], .switch .exit 0 0x300]

theorem contexts_preserved_one : (run (step uthread) (start uthread mainCpu) oneThread).isOk = true ∧
    Meets (step uthread) (start uthread mainCpu) (Preserves uthread) oneThread :=
  ⟨by decide +kernel, contexts_preserved _ _ _ (meets_of_meetsB (by decide +kernel))⟩

/-- The stack of `main` is 36 bytes below the point that an eighth thread would have for its stack. -/
def deep : Reg → Word
  | .esp => 0x12dc4
  | _ => 0

/-- Seven threads, the first of which runs and creates another one. -/
def eighth : List Op :=
  .work deep [] :: List.replicate 7 (.create 0x100) ++ [.switch .yield 1 0x200, .create 0x300]

/-- The function of the eighth thread is written over the register that `main` has saved. -/
theorem contexts_lost : ¬ Meets (step uthread) (start uthread mainCpu) (Preserves uthread)
    (eighth ++ [.switch .yield 0 0x400]) := by
  intro h
  have hrun : ∃ M M', run (step uthread) (start uthread mainCpu) eighth = .ok M ∧
      step uthread M (.switch .yield 0 0x400) = .ok M' ∧
      M.last 0 = some (.back deep 0x200) ∧ M'.cpu.regs .edi = 0x300 := by
    refine ⟨_, _, rfl, rfl, rfl, ?_⟩
    decide +kernel
  obtain ⟨M, M', hM, hM', hlast, hedi⟩ := hrun
  have hr := (h eighth _ (List.prefix_refl _) M hM M' hM').1
  rw [hlast] at hr
  obtain ⟨hregs, -⟩ := hr
  rw [hregs] at hedi
  simp [deep] at hedi

end Laboratorio.Uthread.Maquina
