import Mathlib

/-!
# Registers, memory and a few instructions of the 80386

Memory is a function from addresses to bytes; a word is four bytes, the lowest one first.  The stack
grows downwards and the register `esp` points to the word that was pushed last.

* `load_store_same`, `load_store_of_disjoint` and `store_of_notMem` — what a word that is written
  changes.
* `Saved m sp regs` — the words above `sp` are the registers as `pushal` leaves them: `pushal_saved`
  makes them and `popal_of_saved` takes them back.
-/

namespace Laboratorio.Lib.X86

open Function

abbrev Word := BitVec 32

abbrev Mem := Nat → BitVec 8

/-! ## Words in memory -/

def load (m : Mem) (a : Nat) : Word := m (a + 3) ++ m (a + 2) ++ m (a + 1) ++ m a

def store (m : Mem) (a : Nat) (w : Word) : Mem := fun b =>
  if a ≤ b ∧ b < a + 4 then w.extractLsb' (8 * (b - a)) 8 else m b

variable {m m' : Mem} {a b : Nat} {w : Word}

theorem store_of_notMem (h : b < a ∨ a + 4 ≤ b) : store m a w b = m b := by
  unfold store
  rw [if_neg (by omega)]

theorem load_congr (h : ∀ k < 4, m' (a + k) = m (a + k)) : load m' a = load m a := by
  have h0 := h 0 (by decide)
  unfold load
  rw [h 3 (by decide), h 2 (by decide), h 1 (by decide), show m' a = m a from h0]

theorem load_store_of_disjoint (h : b + 4 ≤ a ∨ a + 4 ≤ b) : load (store m a w) b = load m b :=
  load_congr fun _ _ => store_of_notMem (by omega)

theorem foldl_store_of_notMem (ws : List (Nat × Word)) (m : Mem)
    (h : ∀ x ∈ ws, b < x.1 ∨ x.1 + 4 ≤ b) : ws.foldl (fun m x => store m x.1 x.2) m b = m b := by
  induction ws generalizing m with
  | nil => rfl
  | cons x ws ih =>
    rw [List.foldl_cons, ih _ fun y hy => h y (List.mem_cons_of_mem x hy)]
    exact store_of_notMem (h x List.mem_cons_self)

theorem bytes_append (w : Word) : w.extractLsb' 24 8 ++ w.extractLsb' 16 8 ++ w.extractLsb' 8 8 ++
    w.extractLsb' 0 8 = w := by
  ext i hi
  have hbit : ∀ k, k = i → w.getLsbD k = w[i] := by
    rintro k rfl
    exact BitVec.getLsbD_eq_getElem hi
  simp only [BitVec.getElem_append, BitVec.getElem_extractLsb']
  split
  · exact hbit _ (by omega)
  · split
    · exact hbit _ (by omega)
    · split <;> exact hbit _ (by omega)

@[simp] theorem load_store_same : load (store m a w) a = w := by
  have h : ∀ k < 4, store m a w (a + k) = w.extractLsb' (8 * k) 8 := by
    intro k hk
    unfold store
    rw [if_pos ⟨by omega, by omega⟩, Nat.add_sub_cancel_left]
  unfold load
  rw [h 3 (by decide), h 2 (by decide), h 1 (by decide), show store m a w a = _ from h 0 (by decide)]
  exact bytes_append w

/-! ## Instructions -/

inductive Reg where
  | eax | ecx | edx | ebx | esp | ebp | esi | edi
  deriving DecidableEq, Repr

structure Cpu where
  regs : Reg → Word
  eip : Word
  mem : Mem

def push (w : Word) (c : Cpu) : Cpu :=
  { c with
    regs := update c.regs .esp (c.regs .esp - 4)
    mem := store c.mem (c.regs .esp - 4).toNat w }

/-- The word on top of the stack, without it. -/
def pop (c : Cpu) : Word × Cpu :=
  (load c.mem (c.regs .esp).toNat, { c with regs := update c.regs .esp (c.regs .esp + 4) })

def popTo (r : Reg) (c : Cpu) : Cpu :=
  let (w, c) := pop c
  { c with regs := update c.regs r w }

inductive Operand where
  | reg (r : Reg)
  | imm (w : Word)
  /-- The word at a fixed address. -/
  | abs (a : Nat)
  /-- The word that a register points to. -/
  | ind (r : Reg)

def Operand.get (c : Cpu) : Operand → Word
  | reg r => c.regs r
  | imm w => w
  | abs a => load c.mem a
  | ind r => load c.mem (c.regs r).toNat

/-- Nothing can be moved to a constant. -/
def Operand.set (c : Cpu) (w : Word) : Operand → Cpu
  | reg r => { c with regs := update c.regs r w }
  | imm _ => c
  | abs a => { c with mem := store c.mem a w }
  | ind r => { c with mem := store c.mem (c.regs r).toNat w }

inductive Instr where
  | movl (src dst : Operand)
  | pushal
  | popal
  | ret

/-- The value of `esp` that `pushal` pushes is the one before it; `popal` leaves it out. -/
def Instr.exec (c : Cpu) : Instr → Cpu
  | movl src dst => dst.set c (src.get c)
  | pushal => ([.eax, .ecx, .edx, .ebx, .esp, .ebp, .esi, .edi].map c.regs).foldl (fun c w => push w c) c
  | popal => [.ebx, .edx, .ecx, .eax].foldl (fun c r => popTo r c)
      (pop ([.edi, .esi, .ebp].foldl (fun c r => popTo r c) c)).2
  | ret =>
    let (w, c) := pop c
    { c with eip := w }

def exec (p : List Instr) (c : Cpu) : Cpu := p.foldl Instr.exec c

/-! ## The frame of `pushal` -/

/-- Where `pushal` leaves a register, in bytes above `esp`. -/
def offset : Reg → Nat
  | .edi => 0
  | .esi => 4
  | .ebp => 8
  | .esp => 12
  | .ebx => 16
  | .edx => 20
  | .ecx => 24
  | .eax => 28

theorem offset_le (r : Reg) : offset r ≤ 28 := by
  cases r <;> decide

/-- The registers, `esp` apart, stand above `sp`. -/
def Saved (m : Mem) (sp : Nat) (regs : Reg → Word) : Prop :=
  ∀ r ≠ .esp, load m (sp + offset r) = regs r

theorem Saved.congr {sp : Nat} {regs : Reg → Word} (h : Saved m sp regs)
    (hm : ∀ k < 32, m' (sp + k) = m (sp + k)) : Saved m' sp regs := by
  intro r hr
  have hle := offset_le r
  rw [← h r hr]
  exact load_congr fun k hk => by
    rw [Nat.add_assoc]
    exact hm _ (by omega)

/-- The registers and the memory after words have been pushed one after the other. -/
structure Pushed (c : Cpu) (ws : List Word) (c' : Cpu) : Prop where
  esp : c'.regs .esp = c.regs .esp - BitVec.ofNat 32 (4 * ws.length)
  regs : ∀ r ≠ .esp, c'.regs r = c.regs r
  eip : c'.eip = c.eip
  frame : ∀ b, b < (c.regs .esp).toNat - 4 * ws.length ∨ (c.regs .esp).toNat ≤ b → c'.mem b = c.mem b
  word : ∀ i, (hi : i < ws.length) → load c'.mem ((c.regs .esp).toNat - 4 * (i + 1)) = ws[i]

theorem pushed (ws : List Word) (c : Cpu) (hroom : 4 * ws.length ≤ (c.regs .esp).toNat) :
    Pushed c ws (ws.foldl (fun c w => push w c) c) := by
  induction ws generalizing c with
  | nil =>
    constructor
    · simp
    · exact fun _ _ => rfl
    · rfl
    · exact fun _ _ => rfl
    · intro i hi
      cases hi
  | cons w ws ih =>
    rw [List.length_cons] at hroom
    have hesp : (push w c).regs .esp = c.regs .esp - 4 := by simp [push]
    have hnat : (c.regs .esp - 4).toNat = (c.regs .esp).toNat - 4 := by bv_omega
    have hp := ih (push w c) (by rw [hesp]; omega)
    have hframe := hp.frame
    have hword := hp.word
    rw [hesp, hnat] at hframe hword
    constructor
    · rw [List.foldl_cons, hp.esp, hesp, List.length_cons]
      bv_omega
    · intro r hr
      rw [List.foldl_cons, hp.regs r hr]
      exact update_of_ne hr _ _
    · rw [List.foldl_cons, hp.eip]
      rfl
    · intro b hb
      rw [List.length_cons] at hb
      rw [List.foldl_cons, hframe b (by omega)]
      exact store_of_notMem (by omega)
    · intro i hi
      cases i with
      | zero =>
        rw [List.foldl_cons, load_congr (fun k _ => hframe _ (by omega))]
        show load (store c.mem (c.regs .esp - 4).toNat w) _ = w
        rw [hnat]
        exact load_store_same
      | succ i =>
        rw [List.length_cons] at hi
        have := hword i (by omega)
        rw [List.foldl_cons, ← show (c.regs .esp).toNat - 4 - 4 * (i + 1) =
          (c.regs .esp).toNat - 4 * (i + 1 + 1) by omega, this]
        rfl

/-- `pushal` leaves the registers below the old top of the stack. -/
theorem pushal_saved (c : Cpu) (hroom : 32 ≤ (c.regs .esp).toNat) :
    Pushed c ([.eax, .ecx, .edx, .ebx, .esp, .ebp, .esi, .edi].map c.regs) (Instr.exec c .pushal) ∧
      Saved (Instr.exec c .pushal).mem ((c.regs .esp).toNat - 32) c.regs := by
  have hp := pushed ([.eax, .ecx, .edx, .ebx, .esp, .ebp, .esi, .edi].map c.regs) c hroom
  refine ⟨hp, ?_⟩
  have hat : ∀ i, (hi : i < 8) → ∀ r, ([.eax, .ecx, .edx, .ebx, .esp, .ebp, .esi, .edi] : List Reg)[i] = r →
      offset r = 28 - 4 * i → load (Instr.exec c .pushal).mem ((c.regs .esp).toNat - 32 + offset r) = c.regs r := by
    intro i hi r hr ho
    have hw := hp.word i hi
    rw [List.getElem_map, hr] at hw
    rw [← hw, ho]
    congr 1
    omega
  intro r hr
  cases r with
  | eax => exact hat 0 (by decide) _ rfl rfl
  | ecx => exact hat 1 (by decide) _ rfl rfl
  | edx => exact hat 2 (by decide) _ rfl rfl
  | ebx => exact hat 3 (by decide) _ rfl rfl
  | esp => exact absurd rfl hr
  | ebp => exact hat 5 (by decide) _ rfl rfl
  | esi => exact hat 6 (by decide) _ rfl rfl
  | edi => exact hat 7 (by decide) _ rfl rfl

/-- What stands on the stack behind a call and `pushal`. -/
structure Called (c : Cpu) (ret : Word) (c' : Cpu) : Prop where
  esp : c'.regs .esp = c.regs .esp - 36
  frame : ∀ b, b < (c.regs .esp).toNat - 36 ∨ (c.regs .esp).toNat ≤ b → c'.mem b = c.mem b
  saved : Saved c'.mem ((c.regs .esp).toNat - 36) c.regs
  ret : load c'.mem ((c.regs .esp).toNat - 4) = ret

theorem called (c : Cpu) (ret : Word) (hroom : 36 ≤ (c.regs .esp).toNat) :
    Called c ret (Instr.exec (push ret c) .pushal) := by
  have hesp : (push ret c).regs .esp = c.regs .esp - 4 := by simp [push]
  have hnat : (c.regs .esp - 4).toNat = (c.regs .esp).toNat - 4 := by bv_omega
  obtain ⟨hp, hs⟩ := pushal_saved (push ret c) (by rw [hesp]; omega)
  have hframe := hp.frame
  rw [hesp, hnat, List.length_map] at hframe
  simp only [List.length_cons, List.length_nil] at hframe
  rw [hesp, hnat] at hs
  constructor
  · rw [hp.esp, hesp]
    simp only [List.length_map, List.length_cons, List.length_nil]
    bv_omega
  · intro b hb
    rw [hframe b (by omega)]
    exact store_of_notMem (by omega)
  · intro r hr
    rw [show (c.regs .esp).toNat - 36 = (c.regs .esp).toNat - 4 - 32 by omega, hs r hr]
    exact update_of_ne hr _ _
  · rw [load_congr (m := (push ret c).mem) fun k _ => hframe _ (by omega)]
    show load (store c.mem (c.regs .esp - 4).toNat ret) _ = ret
    rw [hnat]
    exact load_store_same

/-- `popal` takes the registers back that stand above `esp`. -/
theorem popal_of_saved {c : Cpu} {regs : Reg → Word} (hs : Saved c.mem (c.regs .esp).toNat regs)
    (hfits : (c.regs .esp).toNat + 32 < 2 ^ 32) :
    Instr.exec c .popal = { c with regs := update regs .esp (c.regs .esp + 32) } := by
  have hat : ∀ r ≠ .esp, load c.mem (c.regs .esp + BitVec.ofNat 32 (offset r)).toNat = regs r := by
    intro r hr
    have hle := offset_le r
    rw [← hs r hr]
    congr 1
    bv_omega
  have hregs : (Instr.exec c .popal).regs = update regs .esp (c.regs .esp + 32) := by
    funext r
    cases r with
    | esp => simp [Instr.exec, popTo, pop, BitVec.add_assoc]
    | eax => simpa [Instr.exec, popTo, pop, offset, BitVec.add_assoc] using hat .eax (by decide)
    | ecx => simpa [Instr.exec, popTo, pop, offset, BitVec.add_assoc] using hat .ecx (by decide)
    | edx => simpa [Instr.exec, popTo, pop, offset, BitVec.add_assoc] using hat .edx (by decide)
    | ebx => simpa [Instr.exec, popTo, pop, offset, BitVec.add_assoc] using hat .ebx (by decide)
    | ebp => simpa [Instr.exec, popTo, pop, offset, BitVec.add_assoc] using hat .ebp (by decide)
    | esi => simpa [Instr.exec, popTo, pop, offset, BitVec.add_assoc] using hat .esi (by decide)
    | edi => simpa [Instr.exec, popTo, pop, offset, BitVec.add_assoc] using hat .edi (by decide)
  rw [← hregs]
  rfl

end Laboratorio.Lib.X86
