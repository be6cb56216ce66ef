import Laboratorio.Lab05.Buf

/-!
# When `lab-05/buf.c` destroys its semaphores and its mutex

`main` checks its arguments, creates both threads, destroys the mutex and the two semaphores, and
leaves with `pthread_exit`, which lets the threads run on.  The threads are those of `Lab05/Buf.lean`;
they can make steps from the moment they are created.  An operation on an object that has been
destroyed is undefined, so the state only remembers that one took place: `tarde`.
-/

namespace Laboratorio.Lab05.Buf

open Laboratorio.Lib

inductive Objeto where
  | mutex
  | sem_prod
  | sem_cons
  deriving DecidableEq, Repr

/-- The next step of `main`. -/
inductive PcMain where
  /-- The checks of the arguments, the calls of `malloc` and the initialisations. -/
  | inicio
  | crear (h : Hilo)
  | destruir (o : Objeto)
  | fin
  deriving DecidableEq, Repr

/-- What `atoi` makes of the arguments, and whether `malloc` finds memory. -/
structure Argumentos where
  size : Int
  items : Int
  wait_prod : Int
  wait_cons : Int
  memoria : Bool

def Argumentos.aceptados (a : Argumentos) : Prop :=
  0 < a.size ∧ 0 < a.items ∧ 0 < a.wait_prod ∧ 0 < a.wait_cons ∧ a.memoria = true

instance (a : Argumentos) : Decidable a.aceptados := inferInstanceAs (Decidable (_ ∧ _))

structure Sistema where
  main : PcMain
  creado : Hilo → Bool
  destruido : Objeto → Bool
  /-- A thread has used an object after its destruction. -/
  tarde : Bool
  hilos : Estado

inductive Actor where
  | main
  | hilo (h : Hilo)
  deriving DecidableEq, Repr

/-- The object that the next step of a thread operates on. -/
def usa : Hilo → Pc → Option Objeto
  | .producer, .semWait => some .sem_prod
  | .producer, .semPost => some .sem_cons
  | .consumer, .semWait => some .sem_cons
  | .consumer, .semPost => some .sem_prod
  | _, .lock => some .mutex
  | _, .unlock => some .mutex
  | _, .access => none
  | _, .print => none
  | _, .done => none

def Estado.pc (s : Estado) : Hilo → Pc
  | .producer => s.producer.pc
  | .consumer => s.consumer.pc

/-- The next step of thread `h` uses an object that is gone. -/
def Sistema.usaDestruido (s : Sistema) (h : Hilo) : Bool := (usa h (s.hilos.pc h)).any s.destruido

/-- One step of `main`. -/
def pasoMain (a : Argumentos) (s : Sistema) : Except Stop Sistema :=
  match s.main with
  | .inicio => .ok { s with main := if a.aceptados then .crear .producer else .fin }
  | .crear .producer =>
    .ok { s with creado := Function.update s.creado .producer true, main := .crear .consumer }
  | .crear .consumer =>
    .ok { s with creado := Function.update s.creado .consumer true, main := .destruir .mutex }
  | .destruir .mutex =>
    .ok { s with destruido := Function.update s.destruido .mutex true, main := .destruir .sem_prod }
  | .destruir .sem_prod =>
    .ok { s with destruido := Function.update s.destruido .sem_prod true, main := .destruir .sem_cons }
  | .destruir .sem_cons =>
    .ok { s with destruido := Function.update s.destruido .sem_cons true, main := .fin }
  | .fin => .error .finished

def pasoSistema (a : Argumentos) (s : Sistema) : Actor → Except Stop Sistema
  | .main => pasoMain a s
  | .hilo h =>
    if s.creado h then
      (paso a.size.toNat a.items.toNat s.hilos h).map fun e =>
        { s with hilos := e, tarde := s.tarde || s.usaDestruido h }
    else .error .finished

def arranque (a : Argumentos) (buf reader_results : Nat → Int) : Sistema where
  main := .inicio
  creado := fun _ => false
  destruido := fun _ => false
  tarde := false
  hilos := inicial a.size.toNat a.items.toNat buf reader_results

/-! ## The two sides -/

variable {a : Argumentos} {s t : Sistema} {x : Actor}

/-- `main` has turned its arguments down. -/
structure Rechazado (s : Sistema) : Prop where
  main : s.main = .inicio ∨ s.main = .fin
  creado : ∀ h, s.creado h = false
  tarde : s.tarde = false

theorem Rechazado.paso (h : Rechazado s) (ha : ¬ a.aceptados) (hstep : pasoSistema a s x = .ok t) :
    Rechazado t := by
  cases x with
  | main =>
    unfold pasoSistema pasoMain at hstep
    rcases h.main with hm | hm
    · rw [hm] at hstep
      simp only [if_neg ha] at hstep
      cases hstep
      exact ⟨.inr rfl, h.creado, h.tarde⟩
    · rw [hm] at hstep
      cases hstep
  | hilo k =>
    rw [pasoSistema, h.creado k] at hstep
    cases hstep

/-- Both threads have ended. -/
def Estado.terminados (s : Estado) : Prop := ∀ h, s.pc h = .done

instance (s : Estado) : Decidable s.terminados :=
  decidable_of_iff (s.pc .producer = .done ∧ s.pc .consumer = .done)
    ⟨fun h k => by cases k <;> simp [h], fun h => ⟨h _, h _⟩⟩

/-- `main` destroys an object only when both threads have ended. -/
def Espera (s : Sistema) (x : Actor) : Prop := x = .main → (∃ o, s.main = .destruir o) → s.hilos.terminados

/-- What such a run keeps. -/
structure Ordenado (s : Sistema) : Prop where
  gone : ∀ o, s.destruido o = true → s.hilos.terminados
  tarde : s.tarde = false

theorem paso_done {size items : Nat} {e : Estado} {h : Hilo} (hpc : e.pc h = .done) :
    Buf.paso size items e h = .error .finished := by
  cases h with
  | producer =>
    unfold Estado.pc at hpc
    unfold Buf.paso producer
    rcases hp : e.producer with ⟨i, pc⟩
    simp only [hp] at hpc
    subst hpc
    rfl
  | consumer =>
    unfold Estado.pc at hpc
    unfold Buf.paso consumer
    rcases hp : e.consumer with ⟨i, pc⟩
    simp only [hp] at hpc
    subst hpc
    rfl

theorem ordenado_arranque (a : Argumentos) (buf reader_results : Nat → Int) :
    Ordenado (arranque a buf reader_results) :=
  ⟨fun _ ho => Bool.noConfusion ho, rfl⟩

/-- A step of `main` leaves the threads alone, and destroys nothing before its time. -/
theorem pasoMain_cases (h : pasoMain a s = .ok t) : t.hilos = s.hilos ∧ t.tarde = s.tarde ∧
    (t.destruido = s.destruido ∨ ∃ o, s.main = .destruir o) := by
  unfold pasoMain at h
  split at h
  case h_1 | h_2 | h_3 =>
    cases h
    exact ⟨rfl, rfl, .inl rfl⟩
  case h_4 hm | h_5 hm | h_6 hm =>
    cases h
    exact ⟨rfl, rfl, .inr ⟨_, hm⟩⟩
  case h_7 => cases h

theorem Ordenado.paso (h : Ordenado s) (hw : Espera s x) (hstep : pasoSistema a s x = .ok t) :
    Ordenado t := by
  cases x with
  | main =>
    obtain ⟨hhilos, htarde, hgone⟩ := pasoMain_cases hstep
    refine ⟨fun o ho => ?_, htarde.trans h.tarde⟩
    rw [hhilos]
    rcases hgone with heq | hm
    · exact h.gone o (heq ▸ ho)
    · exact hw rfl hm
  | hilo k =>
    -- a thread that makes a step has not ended, so nothing is destroyed yet
    rw [pasoSistema] at hstep
    split at hstep
    · obtain ⟨e, he, rfl⟩ := exists_of_map_eq_ok hstep
      have hnone : ∀ o, s.destruido o = false := by
        intro o
        by_contra ho
        rw [paso_done (h.gone o (by simpa using ho) k)] at he
        cases he
      have huso : s.usaDestruido k = false := by
        unfold Sistema.usaDestruido
        cases usa k (s.hilos.pc k) with
        | none => rfl
        | some o => exact hnone o
      refine ⟨fun o ho => ?_, ?_⟩
      · rw [hnone o] at ho
        cases ho
      · simp only [h.tarde, huso, Bool.or_false]
    · cases hstep

/-- `main` gets to the destruction of `sem_prod` before the producer has made a step. -/
theorem tarde_run (ha : a.aceptados) (buf reader_results : Nat → Int) :
    ∃ t, run (pasoSistema a) (arranque a buf reader_results)
      [.main, .main, .main, .main, .main, .hilo .producer] = .ok t ∧ t.tarde = true := by
  have hitems : 0 < a.items.toNat := by have := ha.2.1; omega
  have hsem : semWait a.size.toNat = some (a.size.toNat - 1) := by
    have := ha.1
    rw [semWait, if_neg (by omega)]
  have hstart : pasoSistema a (arranque a buf reader_results) .main =
      .ok { arranque a buf reader_results with main := .crear .producer } := by
    simp only [pasoSistema, pasoMain, arranque, if_pos ha]
  rw [run_cons_of_ok hstart]
  simp [run, pasoSistema, pasoMain, arranque, inicial, loop, hitems, paso, producer, hsem,
    Sistema.usaDestruido, usa, Estado.pc, bind, Except.bind, Except.map, pure, Except.pure]

/-- **The objects are destroyed too early.**  No thread uses a destroyed object in any interleaving if
and only if `main` does not accept its arguments, and so creates no threads.  In every interleaving in
which `main` calls the destroying functions only when both threads have ended, there is no such use. -/
theorem destruir_iff (a : Argumentos) (buf reader_results : Nat → Int) :
    ((∀ sched t, run (pasoSistema a) (arranque a buf reader_results) sched = .ok t → t.tarde = false) ↔
      ¬ a.aceptados) ∧
    (∀ sched t, Meets (pasoSistema a) (arranque a buf reader_results) Espera sched →
      run (pasoSistema a) (arranque a buf reader_results) sched = .ok t → t.tarde = false) := by
  constructor
  · constructor
    · intro h ha
      obtain ⟨t, ht, htarde⟩ := tarde_run ha buf reader_results
      rw [h _ t ht] at htarde
      cases htarde
    · intro ha sched t ht
      have hinv : Rechazado t := run_invariant (P := fun _ s => Rechazado s)
        ⟨.inl rfl, fun _ => rfl, rfl⟩ (fun _ _ _ _ _ h hstep => h.paso ha hstep) sched t ht
      exact hinv.tarde
  · intro sched t hmeets ht
    have hinv : Ordenado t := run_invariant_of_meets (P := fun _ s => Ordenado s)
      (ordenado_arranque a buf reader_results) (fun _ _ _ _ _ h hw hstep => h.paso hw hstep) sched t
      hmeets ht
    exact hinv.tarde

/-- `buf 1 1 1 1`: `main` runs up to `sem_destroy(&sem_prod)`, and then the producer calls
`sem_wait(&sem_prod)`. -/
theorem destruir_uno : ∃ t, run (pasoSistema ⟨1, 1, 1, 1, true⟩)
    (arranque ⟨1, 1, 1, 1, true⟩ (fun _ => 0) (fun _ => 0))
    [.main, .main, .main, .main, .main, .hilo .producer] = .ok t ∧ t.tarde = true :=
  tarde_run (by decide) _ _

end Laboratorio.Lab05.Buf
