import Laboratorio.Lib.Ring
import Laboratorio.Lib.Runs
import Laboratorio.Lib.Sync

/-!
# The bounded buffer of `lab-05/buf.c`

One producer and one consumer share `buf`, the semaphores `sem_prod` (free cells) and `sem_cons`
(items) and a mutex.  Each has a private counter `i`, and its program counter `Pc` stands before
the next of its atomic steps; the test `i < items` of the loop is made together with `i++`.
What the threads print or wait for between two turns is left out, what the consumer prints at the
end is `impreso`.

An interleaving is a list of threads: `run (paso size items) (inicial …) sched`.

* `Inv` — semaphores, counters and cells in step at every pair of program points.
-/

namespace Laboratorio.Lab05.Buf

open Laboratorio.Lib

inductive Hilo where
  | producer
  | consumer
  deriving DecidableEq, Repr

/-- The next step of a thread. -/
inductive Pc where
  | semWait
  | lock
  | access
  | unlock
  | semPost
  /-- The consumer prints what it has read. -/
  | print
  | done
  deriving DecidableEq, Repr

/-- The counter of the loop and the next step. -/
structure Local where
  i : Nat
  pc : Pc
  deriving DecidableEq, Repr

structure Estado where
  buf : Nat → Int
  sem_prod : Nat
  sem_cons : Nat
  mutex : Option Hilo
  producer : Local
  consumer : Local
  reader_results : Nat → Int
  impreso : List Int

inductive Stop where
  | blocked
  | finished
  deriving DecidableEq, Repr

variable (size items : Nat)

/-- `for (…; i < items; …)`: into the body, or on to what comes after the loop. -/
def loop (i : Nat) (after : Pc) : Local := ⟨i, if i < items then .semWait else after⟩

/-- One step of `producer`. -/
def producer (s : Estado) : Except Stop Estado :=
  match s.producer with
  | ⟨i, .semWait⟩ =>
    match semWait s.sem_prod with
    | some v => .ok { s with sem_prod := v, producer := ⟨i, .lock⟩ }
    | none => .error .blocked
  | ⟨i, .lock⟩ =>
    match mutexLock .producer s.mutex with
    | some m => .ok { s with mutex := m, producer := ⟨i, .access⟩ }
    | none => .error .blocked
  | ⟨i, .access⟩ =>
    .ok { s with buf := Function.update s.buf (i % size) i, producer := ⟨i, .unlock⟩ }
  | ⟨i, .unlock⟩ => .ok { s with mutex := none, producer := ⟨i, .semPost⟩ }
  | ⟨i, .semPost⟩ =>
    .ok { s with sem_cons := s.sem_cons + 1, producer := loop items (i + 1) .done }
  | ⟨_, .print⟩ | ⟨_, .done⟩ => .error .finished

/-- One step of `consumer`. -/
def consumer (s : Estado) : Except Stop Estado :=
  match s.consumer with
  | ⟨i, .semWait⟩ =>
    match semWait s.sem_cons with
    | some v => .ok { s with sem_cons := v, consumer := ⟨i, .lock⟩ }
    | none => .error .blocked
  | ⟨i, .lock⟩ =>
    match mutexLock .consumer s.mutex with
    | some m => .ok { s with mutex := m, consumer := ⟨i, .access⟩ }
    | none => .error .blocked
  | ⟨i, .access⟩ =>
    .ok { s with
      reader_results := Function.update s.reader_results i (s.buf (i % size))
      consumer := ⟨i, .unlock⟩ }
  | ⟨i, .unlock⟩ => .ok { s with mutex := none, consumer := ⟨i, .semPost⟩ }
  | ⟨i, .semPost⟩ =>
    .ok { s with sem_prod := s.sem_prod + 1, consumer := loop items (i + 1) .print }
  | ⟨i, .print⟩ =>
    .ok { s with impreso := (List.range items).map s.reader_results, consumer := ⟨i, .done⟩ }
  | ⟨_, .done⟩ => .error .finished

def paso (s : Estado) : Hilo → Except Stop Estado
  | .producer => producer size items s
  | .consumer => consumer size items s

/-- `main` has initialised the semaphores and the mutex and created both threads; `buf` and
`reader_results` are as `malloc` gave them. -/
def inicial (buf reader_results : Nat → Int) : Estado where
  buf := buf
  sem_prod := size
  sem_cons := 0
  mutex := none
  producer := loop items 0 .done
  consumer := loop items 0 .print
  reader_results := reader_results
  impreso := []

/-! ## The invariant -/

/-- The thread has taken a token and has not used it. -/
def Pc.holding : Pc → Nat
  | .lock | .access => 1
  | _ => 0

/-- The thread has made its access and owes a `sem_post`. -/
def Pc.owing : Pc → Nat
  | .unlock | .semPost => 1
  | _ => 0

/-- Accesses of a thread to the buffer. -/
def Local.accesses (l : Local) : Nat := l.i + l.pc.owing

/-- Where the counter of a loop stands. -/
def Local.Bounded (l : Local) : Prop :=
  match l.pc with
  | .print | .done => l.i = items
  | _ => l.i < items

structure Inv (s : Estado) : Prop where
  free : s.sem_prod + s.producer.pc.holding + s.consumer.pc.owing + s.producer.accesses =
    size + s.consumer.accesses
  used : s.sem_cons + s.consumer.pc.holding + s.producer.pc.owing + s.consumer.accesses =
    s.producer.accesses
  cells : Holds (fun k => (k : Int)) size s.buf s.consumer.accesses s.producer.accesses
  results : ∀ k < s.consumer.accesses, s.reader_results k = k
  producer : s.producer.Bounded items
  consumer : s.consumer.Bounded items
  impreso : s.consumer.pc = .done → s.impreso = (List.range items).map Int.ofNat

variable {size items} {s t : Estado} {i : Nat}

theorem loop_spec (after : Pc) (ha : after = .print ∨ after = .done) (hi : i ≤ items) :
    (loop items i after).Bounded items ∧ (loop items i after).accesses = i ∧
      (loop items i after).pc.holding = 0 ∧ (loop items i after).pc.owing = 0 := by
  unfold loop
  rcases ha with rfl | rfl <;> split
  · exact ⟨‹_›, rfl, rfl, rfl⟩
  · exact ⟨show i = items by omega, rfl, rfl, rfl⟩
  · exact ⟨‹_›, rfl, rfl, rfl⟩
  · exact ⟨show i = items by omega, rfl, rfl, rfl⟩

/-- The producer writes only while it holds a token of `sem_prod`. -/
theorem Inv.room (hi : Inv size items s) (hpc : s.producer.pc = .access) :
    s.producer.accesses = s.producer.i ∧ s.producer.accesses < s.consumer.accesses + size := by
  have hfree := hi.free
  unfold Local.accesses at hfree ⊢
  rw [hpc] at hfree ⊢
  simp only [Pc.holding, Pc.owing] at hfree ⊢
  omega

/-- The consumer reads only while it holds a token of `sem_cons`. -/
theorem Inv.item (hi : Inv size items s) (hpc : s.consumer.pc = .access) :
    s.consumer.accesses = s.consumer.i ∧ s.consumer.accesses < s.producer.accesses := by
  have hused := hi.used
  unfold Local.accesses at hused ⊢
  rw [hpc] at hused ⊢
  simp only [Pc.holding, Pc.owing] at hused ⊢
  omega

theorem Inv.producer_post (hi : Inv size items s) (hl : s.producer = ⟨i, .semPost⟩) :
    Inv size items
      { s with sem_cons := s.sem_cons + 1, producer := loop items (i + 1) .done } := by
  obtain ⟨hfree, hused, hcells, hres, hp, hc, himp⟩ := hi
  rw [hl] at hfree hused hcells hp
  have hlt : i < items := hp
  have hacc : (⟨i, .semPost⟩ : Local).accesses = i + 1 := rfl
  rw [hacc] at hfree hused hcells
  obtain ⟨hb, ha, hh, ho⟩ := loop_spec .done (.inr rfl) (show i + 1 ≤ items by omega)
  refine ⟨?_, ?_, ?_, hres, hb, hc, himp⟩
  · show _ + (loop items (i + 1) .done).pc.holding + _ + (loop items (i + 1) .done).accesses = _
    rw [ha, hh]
    exact hfree
  · show s.sem_cons + 1 + s.consumer.pc.holding + (loop items (i + 1) .done).pc.owing +
      s.consumer.accesses = (loop items (i + 1) .done).accesses
    rw [ha, ho]
    simp only [Pc.owing] at hused
    omega
  · show Holds _ size s.buf _ (loop items (i + 1) .done).accesses
    rw [ha]
    exact hcells

theorem Inv.producer_step (hi : Inv size items s) (h : Buf.producer size items s = .ok t) :
    Inv size items t := by
  unfold Buf.producer at h
  split at h
  · rename_i i hl
    obtain ⟨hfree, hused, hcells, hres, hp, hc, himp⟩ := hi
    rw [hl] at hfree hused hcells hp
    split at h
    · rename_i v hv
      cases h
      have := semWait_eq_some.1 hv
      refine ⟨?_, hused, hcells, hres, hp, hc, himp⟩
      simp only [Local.accesses, Pc.holding, Pc.owing] at hfree ⊢
      omega
    · cases h
  · rename_i i hl
    obtain ⟨hfree, hused, hcells, hres, hp, hc, himp⟩ := hi
    rw [hl] at hfree hused hcells hp
    split at h
    · cases h
      exact ⟨hfree, hused, hcells, hres, hp, hc, himp⟩
    · cases h
  · rename_i i hl
    have hroom := hi.room
    obtain ⟨hfree, hused, hcells, hres, hp, hc, himp⟩ := hi
    rw [hl] at hfree hused hcells hp hroom
    cases h
    refine ⟨?_, ?_, hcells.write (hroom rfl).2, hres, hp, hc, himp⟩
    · simp only [Local.accesses, Pc.holding, Pc.owing] at hfree ⊢
      omega
    · simp only [Local.accesses, Pc.holding, Pc.owing] at hused ⊢
      omega
  · rename_i i hl
    obtain ⟨hfree, hused, hcells, hres, hp, hc, himp⟩ := hi
    rw [hl] at hfree hused hcells hp
    cases h
    exact ⟨hfree, hused, hcells, hres, hp, hc, himp⟩
  · rename_i i hl
    cases h
    exact hi.producer_post hl
  · cases h
  · cases h

theorem Inv.consumer_access (hi : Inv size items s) (hl : s.consumer = ⟨i, .access⟩) :
    Inv size items
      { s with
        reader_results := Function.update s.reader_results i (s.buf (i % size))
        consumer := ⟨i, .unlock⟩ } := by
  have hitem := hi.item
  obtain ⟨hfree, hused, hcells, hres, hp, hc, himp⟩ := hi
  rw [hl] at hfree hused hcells hres hc hitem
  have hlt : i < s.producer.accesses := (hitem rfl).2
  refine ⟨?_, ?_, hcells.drop, ?_, hp, hc, nofun⟩
  · simp only [Local.accesses, Pc.holding, Pc.owing] at hfree ⊢
    omega
  · simp only [Local.accesses, Pc.holding, Pc.owing] at hused ⊢
    omega
  · show ∀ k < i + 1, Function.update s.reader_results i (s.buf (i % size)) k = k
    intro k hk
    rcases eq_or_ne k i with rfl | hne
    · rw [Function.update_self]
      exact hcells k (Nat.le_refl _) hlt
    · rw [Function.update_of_ne hne]
      exact hres k (show k < i by omega)

theorem Inv.consumer_post (hi : Inv size items s) (hl : s.consumer = ⟨i, .semPost⟩) :
    Inv size items
      { s with sem_prod := s.sem_prod + 1, consumer := loop items (i + 1) .print } := by
  obtain ⟨hfree, hused, hcells, hres, hp, hc, himp⟩ := hi
  rw [hl] at hfree hused hcells hres hc
  have hlt : i < items := hc
  have hacc : (⟨i, .semPost⟩ : Local).accesses = i + 1 := rfl
  rw [hacc] at hfree hused hcells hres
  obtain ⟨hb, ha, hh, ho⟩ := loop_spec .print (.inl rfl) (show i + 1 ≤ items by omega)
  refine ⟨?_, ?_, ?_, ?_, hp, hb, ?_⟩
  · show s.sem_prod + 1 + s.producer.pc.holding + (loop items (i + 1) .print).pc.owing +
      s.producer.accesses = size + (loop items (i + 1) .print).accesses
    rw [ha, ho]
    simp only [Pc.owing] at hfree
    omega
  · show _ + (loop items (i + 1) .print).pc.holding + _ + (loop items (i + 1) .print).accesses = _
    rw [ha, hh]
    exact hused
  · show Holds _ size s.buf (loop items (i + 1) .print).accesses _
    rw [ha]
    exact hcells
  · show ∀ k < (loop items (i + 1) .print).accesses, _
    rw [ha]
    exact hres
  · show (loop items (i + 1) .print).pc = .done → _
    unfold loop
    split <;> nofun

theorem Inv.consumer_print (hi : Inv size items s) (hl : s.consumer = ⟨i, .print⟩) :
    Inv size items
      { s with impreso := (List.range items).map s.reader_results, consumer := ⟨i, .done⟩ } := by
  obtain ⟨hfree, hused, hcells, hres, hp, hc, himp⟩ := hi
  rw [hl] at hfree hused hcells hres hc
  have hi : i = items := hc
  refine ⟨hfree, hused, hcells, hres, hp, hc, fun _ => ?_⟩
  show (List.range items).map s.reader_results = (List.range items).map Int.ofNat
  apply List.map_congr_left
  intro k hk
  exact hres k (show k < i from hi ▸ List.mem_range.1 hk)

theorem Inv.consumer_step (hi : Inv size items s) (h : Buf.consumer size items s = .ok t) :
    Inv size items t := by
  unfold Buf.consumer at h
  split at h
  · rename_i i hl
    obtain ⟨hfree, hused, hcells, hres, hp, hc, himp⟩ := hi
    rw [hl] at hfree hused hcells hres hc
    split at h
    · rename_i v hv
      cases h
      have := semWait_eq_some.1 hv
      refine ⟨hfree, ?_, hcells, hres, hp, hc, nofun⟩
      simp only [Local.accesses, Pc.holding, Pc.owing] at hused ⊢
      omega
    · cases h
  · rename_i i hl
    obtain ⟨hfree, hused, hcells, hres, hp, hc, himp⟩ := hi
    rw [hl] at hfree hused hcells hres hc
    split at h
    · cases h
      exact ⟨hfree, hused, hcells, hres, hp, hc, nofun⟩
    · cases h
  · rename_i i hl
    cases h
    exact hi.consumer_access hl
  · rename_i i hl
    obtain ⟨hfree, hused, hcells, hres, hp, hc, himp⟩ := hi
    rw [hl] at hfree hused hcells hres hc
    cases h
    exact ⟨hfree, hused, hcells, hres, hp, hc, nofun⟩
  · rename_i i hl
    cases h
    exact hi.consumer_post hl
  · rename_i i hl
    cases h
    exact hi.consumer_print hl
  · cases h

theorem Inv.inicial (buf reader_results : Nat → Int) :
    Inv size items (inicial size items buf reader_results) := by
  obtain ⟨hp, hpa, hph, hpo⟩ := loop_spec .done (.inr rfl) (Nat.zero_le items)
  obtain ⟨hc, hca, hch, hco⟩ := loop_spec .print (.inl rfl) (Nat.zero_le items)
  constructor
  · show size + (loop items 0 .done).pc.holding + (loop items 0 .print).pc.owing +
      (loop items 0 .done).accesses = size + (loop items 0 .print).accesses
    omega
  · show 0 + (loop items 0 .print).pc.holding + (loop items 0 .done).pc.owing +
      (loop items 0 .print).accesses = (loop items 0 .done).accesses
    omega
  · show Holds _ size buf (loop items 0 .print).accesses (loop items 0 .done).accesses
    rw [hpa]
    exact fun k _ hk => absurd hk (Nat.not_lt_zero k)
  · show ∀ k < (loop items 0 .print).accesses, _
    rw [hca]
    exact fun k hk => absurd hk (Nat.not_lt_zero k)
  · exact hp
  · exact hc
  · show (loop items 0 .print).pc = .done → _
    unfold loop
    split <;> nofun

theorem run_inv {buf reader_results : Nat → Int} {sched : List Hilo}
    (h : run (paso size items) (inicial size items buf reader_results) sched = .ok s) :
    Inv size items s := by
  refine run_invariant (P := fun _ s => Inv size items s) (.inicial buf reader_results) ?_ _ _ h
  intro _ hilo u t _ hu ht
  cases hilo with
  | producer => exact hu.producer_step ht
  | consumer => exact hu.consumer_step ht

/-- **The bounded buffer.**  For every size, every number of items and every interleaving: the cell
the producer is about to write holds no unread item, between 0 and `size` items are unread, and
when the consumer has finished it has read, and printed, `0, 1, …, items - 1`. -/
theorem bounded_buffer (size items : Nat) (buf reader_results : Nat → Int)
    (sched : List Hilo) (s : Estado)
    (h : run (paso size items) (inicial size items buf reader_results) sched = .ok s) :
    (s.producer.pc = .access →
      ∀ k, s.consumer.accesses ≤ k → k < s.producer.accesses →
        k % size ≠ s.producer.i % size) ∧
    (s.consumer.accesses ≤ s.producer.accesses ∧
      s.producer.accesses ≤ s.consumer.accesses + size) ∧
    (s.consumer.pc = .done →
      (∀ k < items, s.reader_results k = k) ∧
      s.impreso = (List.range items).map Int.ofNat) := by
  have hi := run_inv h
  refine ⟨?_, ?_, ?_⟩
  · intro hpc k hck hkp
    obtain ⟨hacc, hroom⟩ := hi.room hpc
    rw [← hacc]
    exact mod_ne_of_window hck hkp hroom
  · have h1 := hi.free
    have h2 := hi.used
    omega
  · intro hpc
    refine ⟨fun k hk => hi.results k ?_, hi.impreso hpc⟩
    have hc := hi.consumer
    unfold Local.Bounded at hc
    rw [hpc] at hc
    unfold Local.accesses
    have : s.consumer.i = items := hc
    omega

/-- Two items through one cell: the second is written after the first has been read. -/
theorem bounded_buffer_one_cell :
    ∃ s, run (paso 1 2) (inicial 1 2 (fun _ => 7) (fun _ => 7))
        (List.replicate 5 .producer ++ List.replicate 5 .consumer ++
          List.replicate 5 .producer ++ List.replicate 6 .consumer) = .ok s ∧
      s.impreso = [0, 1] := by
  obtain ⟨s, hs, hdone⟩ : ∃ s, run (paso 1 2) (inicial 1 2 (fun _ => 7) (fun _ => 7))
      (List.replicate 5 .producer ++ List.replicate 5 .consumer ++
        List.replicate 5 .producer ++ List.replicate 6 .consumer) = .ok s ∧
      s.consumer.pc = .done := by decide +kernel
  exact ⟨s, hs, ((bounded_buffer 1 2 _ _ _ s hs).2.2 hdone).2⟩

end Laboratorio.Lab05.Buf
