import Laboratorio.Lib.Runs
import Laboratorio.Lib.Sync

/-!
# The shared stack of words of `lab-05/wordheap.c`

The segment is the structure `Wordheap`; `heap` is the flat array of `ITEMS * MAX_WORD = 750`
bytes, so that row `i` starts at byte `50 * i`.  A process runs one command, `-w palabra`, `-r` or
`-p`, and its program counter `Pc` stands before the next of its atomic steps: the test outside the
mutex, `sem_wait`, `pthread_mutex_lock`, the body, `pthread_mutex_unlock`, `sem_post`.

An interleaving of any number of processes is a list of process numbers: `run paso (crear …) sched`
lets process `sched[0]` make a step, then process `sched[1]`, and so on.
-/

namespace Laboratorio.Lab05

open Laboratorio.Lib

/-- `struct wordheap`. -/
structure Wordheap where
  free : Int
  items : Int
  max_word : Int
  heap : Nat → UInt8
  mutex : Option Nat
  full : Nat
  empty : Nat

/-- The command of a process. -/
inductive Comando where
  | w (palabra : List UInt8)
  | r
  | p
  deriving DecidableEq, Repr

/-- The next step of a process. -/
inductive Pc where
  | test
  | semWait
  | lock
  | body
  | unlock
  | semPost
  | done
  deriving DecidableEq, Repr

/-- What a process prints. -/
inductive Salida where
  /-- `"Pila llena."` -/
  | llena
  /-- `"Pila vacía."` -/
  | vacia
  /-- `"Palabra %s agregada a la pila %s."` -/
  | agregada (palabra : List UInt8)
  /-- `"Palabra eliminada de la pila %s."` -/
  | eliminada
  /-- One line of `-p`. -/
  | palabra (bytes : List UInt8)
  deriving DecidableEq, Repr

/-- Why a process cannot make a step: there is none left or no such process, it is blocked, or
`strcpy` leaves the array `heap`. -/
inductive Stop where
  | finished
  | blocked
  | outOfBounds
  deriving DecidableEq, Repr

/-- `strcpy(heap + dst, palabra)`. -/
def strcpy (heap : Nat → UInt8) (dst : Nat) (palabra : List UInt8) : Nat → UInt8 := fun k =>
  if dst ≤ k then
    match (palabra ++ [0])[k - dst]? with
    | some c => c
    | none => heap k
  else heap k

/-- The bytes that `printf("%s")` prints from byte `src` on. -/
def cString (heap : Nat → UInt8) (src : Nat) : List UInt8 :=
  ((List.range' src (750 - src)).map heap).takeWhile (· ≠ 0)

/-- `wordheap->heap[wordheap->items]` gets the word, `items++`, `free--`. -/
def push (palabra : List UInt8) (m : Wordheap) : Except Stop Wordheap :=
  if 0 ≤ m.items ∧ 50 * m.items + palabra.length < 750 then
    .ok { m with
      heap := strcpy m.heap (50 * m.items.toNat) palabra
      items := m.items + 1
      free := m.free - 1 }
  else .error .outOfBounds

/-- `items--`, `free++`. -/
def pop (m : Wordheap) : Wordheap := { m with items := m.items - 1, free := m.free + 1 }

/-- The lines that `-p` prints inside the mutex. -/
def imprimir (m : Wordheap) : List Salida :=
  if m.items = 0 then [.vacia]
  else (List.range m.items.toNat).map fun i => .palabra (cString m.heap (50 * i))

/-- `pthread_mutex_lock` and `pthread_mutex_unlock`, the same in the three commands. -/
def lock (me : Nat) (m : Wordheap) : Except Stop Wordheap :=
  match mutexLock me m.mutex with
  | some mutex => .ok { m with mutex := mutex }
  | none => .error .blocked

def unlock (m : Wordheap) : Wordheap := { m with mutex := none }

/-- The steps of `-w palabra`: the new memory, the next step and what is printed. -/
def caseW (me : Nat) (palabra : List UInt8) (m : Wordheap) :
    Pc → Except Stop (Wordheap × Pc × List Salida)
  | .test => if m.free = 0 then .ok (m, .done, [.llena]) else .ok (m, .semWait, [])
  | .semWait =>
    match semWait m.empty with
    | some v => .ok ({ m with empty := v }, .lock, [])
    | none => .error .blocked
  | .lock => (lock me m).map fun m => (m, .body, [])
  | .body => (push palabra m).map fun m => (m, .unlock, [])
  | .unlock => .ok (unlock m, .semPost, [])
  | .semPost => .ok ({ m with full := m.full + 1 }, .done, [.agregada palabra])
  | .done => .error .finished

/-- The steps of `-r`. -/
def caseR (me : Nat) (m : Wordheap) : Pc → Except Stop (Wordheap × Pc × List Salida)
  | .test => if m.items = 0 then .ok (m, .done, [.vacia]) else .ok (m, .semWait, [])
  | .semWait =>
    match semWait m.full with
    | some v => .ok ({ m with full := v }, .lock, [])
    | none => .error .blocked
  | .lock => (lock me m).map fun m => (m, .body, [])
  | .body => .ok (pop m, .unlock, [])
  | .unlock => .ok (unlock m, .semPost, [])
  | .semPost => .ok ({ m with empty := m.empty + 1 }, .done, [.eliminada])
  | .done => .error .finished

/-- The steps of `-p`, which uses no semaphore. -/
def caseP (me : Nat) (m : Wordheap) : Pc → Except Stop (Wordheap × Pc × List Salida)
  | .test => if m.items = 0 then .ok (m, .done, [.vacia]) else .ok (m, .lock, [])
  | .lock => (lock me m).map fun m => (m, .body, [])
  | .body => .ok (m, .unlock, imprimir m)
  | .unlock => .ok (unlock m, .done, [])
  | .semWait | .semPost | .done => .error .finished

structure Proceso where
  comando : Comando
  pc : Pc
  salida : List Salida
  deriving DecidableEq, Repr

structure Estado where
  wordheap : Wordheap
  procesos : List Proceso

/-- One step of process `me` on the shared memory. -/
def correr (me : Nat) (p : Proceso) (m : Wordheap) :
    Except Stop (Wordheap × Pc × List Salida) :=
  match p.comando with
  | .w palabra => caseW me palabra m p.pc
  | .r => caseR me m p.pc
  | .p => caseP me m p.pc

def paso (s : Estado) (me : Nat) : Except Stop Estado :=
  match s.procesos[me]? with
  | none => .error .finished
  | some p =>
    match correr me p s.wordheap with
    | .error e => .error e
    | .ok (m, pc, salida) =>
      .ok ⟨m, s.procesos.set me { p with pc := pc, salida := p.salida ++ salida }⟩

/-- The segment after `-c`; whatever bytes `heap` had before stay there. -/
def crear (heap : Nat → UInt8) : Wordheap where
  free := 15 - 1
  items := 0
  max_word := 50
  heap := heap
  mutex := none
  full := 0
  empty := 15

/-- After `-c`, with the given commands about to start. -/
def inicial (heap : Nat → UInt8) (comandos : List Comando) : Estado :=
  ⟨crear heap, comandos.map fun c => ⟨c, .test, []⟩⟩

/-! ## The tokens of one process -/

/-- Tokens taken from `empty` that no stored word stands for. -/
def Proceso.emptyTokens (p : Proceso) : Nat :=
  match p.comando, p.pc with
  | .w _, .lock | .w _, .body | .r, .unlock | .r, .semPost => 1
  | _, _ => 0

/-- Stored words for which `full` has no token. -/
def Proceso.fullTokens (p : Proceso) : Nat :=
  match p.comando, p.pc with
  | .r, .lock | .r, .body | .w _, .unlock | .w _, .semPost => 1
  | _, _ => 0

variable {m m' : Wordheap} {p : Proceso} {pc : Pc} {salida : List Salida} {me : Nat}
  {s t : Estado}

theorem lock_eq_ok : lock me m = .ok m' ↔ m.mutex = none ∧ m' = { m with mutex := some me } := by
  unfold lock
  split
  · rename_i mutex h
    obtain ⟨hm, rfl⟩ := mutexLock_eq_some.1 h
    simp [hm, eq_comm]
  · rename_i h
    cases hm : m.mutex with
    | none => simp [mutexLock, hm] at h
    | some j => simp

theorem push_eq_ok {palabra : List UInt8} : push palabra m = .ok m' ↔
    (0 ≤ m.items ∧ 50 * m.items + palabra.length < 750) ∧
      m' = { m with
        heap := strcpy m.heap (50 * m.items.toNat) palabra
        items := m.items + 1
        free := m.free - 1 } := by
  unfold push
  split
  · rename_i h
    simp [h, eq_comm]
  · rename_i h
    simp [h]

/-- What a step does: it keeps the value of each semaphore, the tokens of the process and `items` in
balance. -/
structure Kept (p p' : Proceso) (m m' : Wordheap) : Prop where
  empty : (m'.empty + p'.emptyTokens + m'.items : Int) = m.empty + p.emptyTokens + m.items
  full : (m'.full + p'.fullTokens - m'.items : Int) = m.full + p.fullTokens - m.items
  free : m'.free + m'.items = m.free + m.items

/-- Both outcomes of a test, the mutex, and everything that a process does by itself. -/
theorem Kept.rest {p' : Proceso} (he : p'.emptyTokens = p.emptyTokens)
    (hf : p'.fullTokens = p.fullTokens) (hm : m' = { m with mutex := m'.mutex }) : Kept p p' m m' := by
  rw [hm]
  refine ⟨?_, ?_, rfl⟩
  · rw [he]
  · rw [hf]

theorem Kept.lock {p' : Proceso} (he : p'.emptyTokens = p.emptyTokens)
    (hf : p'.fullTokens = p.fullTokens) (h : lock me m = .ok m') : Kept p p' m m' :=
  .rest he hf (by rw [(lock_eq_ok.1 h).2])

theorem kept_caseW {palabra : List UInt8} {pc' : Pc} {l l' : List Salida}
    (h : caseW me palabra m pc = .ok (m', pc', salida)) :
    Kept ⟨.w palabra, pc, l⟩ ⟨.w palabra, pc', l'⟩ m m' := by
  cases pc with
  | test =>
    unfold caseW at h
    simp only at h
    split at h
    · cases h; exact .rest rfl rfl rfl
    · cases h; exact .rest rfl rfl rfl
  | semWait =>
    unfold caseW at h
    simp only at h
    split at h
    · rename_i v hv
      cases h
      have := semWait_eq_some.1 hv
      refine ⟨?_, rfl, rfl⟩
      simp only [Proceso.emptyTokens]
      omega
    · cases h
  | lock =>
    obtain ⟨m1, hm, he⟩ := exists_of_map_eq_ok h
    cases he
    exact .lock rfl rfl hm
  | body =>
    obtain ⟨m1, hm, he⟩ := exists_of_map_eq_ok h
    cases he
    obtain ⟨_, rfl⟩ := push_eq_ok.1 hm
    refine ⟨?_, ?_, ?_⟩ <;>
      simp only [Proceso.emptyTokens, Proceso.fullTokens] <;> omega
  | unlock => cases h; exact .rest rfl rfl rfl
  | semPost =>
    cases h
    refine ⟨rfl, ?_, rfl⟩
    simp only [Proceso.fullTokens]
    omega
  | done => cases h

theorem kept_caseR {pc' : Pc} {l l' : List Salida} (h : caseR me m pc = .ok (m', pc', salida)) :
    Kept ⟨.r, pc, l⟩ ⟨.r, pc', l'⟩ m m' := by
  cases pc with
  | test =>
    unfold caseR at h
    simp only at h
    split at h
    · cases h; exact .rest rfl rfl rfl
    · cases h; exact .rest rfl rfl rfl
  | semWait =>
    unfold caseR at h
    simp only at h
    split at h
    · rename_i v hv
      cases h
      have := semWait_eq_some.1 hv
      refine ⟨rfl, ?_, rfl⟩
      simp only [Proceso.fullTokens]
      omega
    · cases h
  | lock =>
    obtain ⟨m1, hm, he⟩ := exists_of_map_eq_ok h
    cases he
    exact .lock rfl rfl hm
  | body =>
    cases h
    refine ⟨?_, ?_, ?_⟩ <;>
      simp only [Proceso.emptyTokens, Proceso.fullTokens, pop] <;> omega
  | unlock => cases h; exact .rest rfl rfl rfl
  | semPost =>
    cases h
    refine ⟨?_, rfl, rfl⟩
    simp only [Proceso.emptyTokens]
    omega
  | done => cases h

theorem kept_caseP {pc' : Pc} {l l' : List Salida} (h : caseP me m pc = .ok (m', pc', salida)) :
    Kept ⟨.p, pc, l⟩ ⟨.p, pc', l'⟩ m m' := by
  cases pc with
  | test =>
    unfold caseP at h
    simp only at h
    split at h
    · cases h; exact .rest rfl rfl rfl
    · cases h; exact .rest rfl rfl rfl
  | lock =>
    obtain ⟨m1, hm, he⟩ := exists_of_map_eq_ok h
    cases he
    exact .lock rfl rfl hm
  | body => cases h; exact .rest rfl rfl rfl
  | unlock => cases h; exact .rest rfl rfl rfl
  | semWait => cases h
  | semPost => cases h
  | done => cases h

theorem tokens_step {pc' : Pc} {l : List Salida} (h : correr me p m = .ok (m', pc', salida)) :
    Kept p { p with pc := pc', salida := l } m m' := by
  obtain ⟨comando, pc, l0⟩ := p
  cases comando with
  | w palabra => exact kept_caseW h
  | r => exact kept_caseR h
  | p => exact kept_caseP h

/-! ## Every interleaving -/

theorem paso_eq_ok (h : paso s me = .ok t) :
    ∃ p m pc salida, s.procesos[me]? = some p ∧ correr me p s.wordheap = .ok (m, pc, salida) ∧
      t = ⟨m, s.procesos.set me { p with pc := pc, salida := p.salida ++ salida }⟩ := by
  unfold paso at h
  split at h
  · cases h
  · rename_i p hp
    split at h
    · cases h
    · rename_i m pc salida hc
      cases h
      exact ⟨p, m, pc, salida, hp, hc, rfl⟩

/-- The two semaphores, `items` and `free`, with what all the processes hold. -/
structure Balance (s : Estado) : Prop where
  empty :
    (s.wordheap.empty + (s.procesos.map Proceso.emptyTokens).sum + s.wordheap.items : Int) = 15
  full : (s.wordheap.full + (s.procesos.map Proceso.fullTokens).sum : Int) = s.wordheap.items
  free : s.wordheap.free + s.wordheap.items = 14

theorem Balance.paso (hb : Balance s) (h : paso s me = .ok t) : Balance t := by
  obtain ⟨p, m, pc, salida, hp, hc, rfl⟩ := paso_eq_ok h
  have hk := tokens_step (l := p.salida ++ salida) hc
  have he := sum_map_set Proceso.emptyTokens { p with pc := pc, salida := p.salida ++ salida } hp
  have hf := sum_map_set Proceso.fullTokens { p with pc := pc, salida := p.salida ++ salida } hp
  obtain ⟨k1, k2, k3⟩ := hk
  obtain ⟨b1, b2, b3⟩ := hb
  constructor
  · show (m.empty + ((s.procesos.set me _).map Proceso.emptyTokens).sum + m.items : Int) = 15
    omega
  · show (m.full + ((s.procesos.set me _).map Proceso.fullTokens).sum : Int) = m.items
    omega
  · show m.free + m.items = 14
    omega

theorem Balance.inicial (heap : Nat → UInt8) (comandos : List Comando) :
    Balance (inicial heap comandos) := by
  have hz : ∀ f : Proceso → Nat, (∀ c, f ⟨c, .test, []⟩ = 0) →
      ((Lab05.inicial heap comandos).procesos.map f).sum = 0 := by
    intro f hf
    apply sum_map_eq_zero
    intro a ha
    obtain ⟨c, _, rfl⟩ := List.mem_map.1 ha
    exact hf c
  have he := hz Proceso.emptyTokens (fun c => by cases c <;> rfl)
  have hf := hz Proceso.fullTokens (fun c => by cases c <;> rfl)
  constructor
  · rw [he]; rfl
  · rw [hf]; rfl
  · rfl

theorem balance_run {heap : Nat → UInt8} {comandos : List Comando} {sched : List Nat}
    (h : run paso (inicial heap comandos) sched = .ok s) : Balance s :=
  run_invariant (P := fun _ s => Balance s) (.inicial heap comandos)
    (fun _ _ _ _ _ hb h => hb.paso h) sched s h

theorem Balance.items (hb : Balance s) : 0 ≤ s.wordheap.items ∧ s.wordheap.items ≤ 15 := by
  obtain ⟨b1, b2, _⟩ := hb
  omega

/-- A writer about to push holds a token of `empty`. -/
theorem Balance.items_lt {palabra : List UInt8} {l : List Salida} (hb : Balance s)
    (hp : ⟨.w palabra, .body, l⟩ ∈ s.procesos) : s.wordheap.items ≤ 14 := by
  have h1 : 1 ≤ _ := le_sum_map Proceso.emptyTokens hp
  have := hb.empty
  omega

/-- A reader about to pop holds a token of `full`. -/
theorem Balance.items_pos {l : List Salida} (hb : Balance s)
    (hp : ⟨.r, .body, l⟩ ∈ s.procesos) : 1 ≤ s.wordheap.items := by
  have h1 : 1 ≤ _ := le_sum_map Proceso.fullTokens hp
  have := hb.full
  omega

theorem Balance.finished (hb : Balance s) (hd : ∀ p ∈ s.procesos, p.pc = .done) :
    s.wordheap.full = s.wordheap.items ∧ s.wordheap.empty = 15 - s.wordheap.items := by
  have he : (s.procesos.map Proceso.emptyTokens).sum = 0 := sum_map_eq_zero _ fun p hp => by
    unfold Proceso.emptyTokens
    rw [hd p hp]
    cases p.comando <;> rfl
  have hf : (s.procesos.map Proceso.fullTokens).sum = 0 := sum_map_eq_zero _ fun p hp => by
    unfold Proceso.fullTokens
    rw [hd p hp]
    cases p.comando <;> rfl
  obtain ⟨b1, b2, _⟩ := hb
  omega

/-! ## The stack is safe -/

theorem caseW_outOfBounds {palabra : List UInt8}
    (h : caseW me palabra m pc = .error .outOfBounds) :
    pc = .body ∧ ¬ (0 ≤ m.items ∧ 50 * m.items + palabra.length < 750) := by
  cases pc with
  | test => unfold caseW at h; simp only at h; split at h <;> cases h
  | semWait => unfold caseW at h; simp only at h; split at h <;> cases h
  | lock =>
    unfold caseW lock at h
    simp only at h
    split at h <;> cases h
  | body =>
    refine ⟨rfl, fun hin => ?_⟩
    unfold caseW push at h
    simp only at h
    rw [if_pos hin] at h
    cases h
  | unlock => cases h
  | semPost => cases h
  | done => cases h

theorem caseR_ne_outOfBounds : caseR me m pc ≠ .error .outOfBounds := by
  intro h
  cases pc with
  | test => unfold caseR at h; simp only at h; split at h <;> cases h
  | semWait => unfold caseR at h; simp only at h; split at h <;> cases h
  | lock =>
    unfold caseR lock at h
    simp only at h
    split at h <;> cases h
  | body => cases h
  | unlock => cases h
  | semPost => cases h
  | done => cases h

theorem caseP_ne_outOfBounds : caseP me m pc ≠ .error .outOfBounds := by
  intro h
  cases pc with
  | test => unfold caseP at h; simp only at h; split at h <;> cases h
  | lock =>
    unfold caseP lock at h
    simp only at h
    split at h <;> cases h
  | body => cases h
  | unlock => cases h
  | semWait => cases h
  | semPost => cases h
  | done => cases h

/-- A step can leave the array only as the push of a writer. -/
theorem paso_outOfBounds (h : paso s me = .error .outOfBounds) :
    ∃ palabra l, ⟨.w palabra, .body, l⟩ ∈ s.procesos ∧
      ¬ (0 ≤ s.wordheap.items ∧ 50 * s.wordheap.items + palabra.length < 750) := by
  unfold paso at h
  split at h
  · cases h
  · rename_i p hp
    split at h
    · rename_i e hc
      cases h
      obtain ⟨comando, pc, l⟩ := p
      cases comando with
      | w palabra =>
        obtain ⟨rfl, hout⟩ := caseW_outOfBounds hc
        exact ⟨palabra, l, List.mem_of_getElem? hp, hout⟩
      | r => exact absurd hc caseR_ne_outOfBounds
      | p => exact absurd hc caseP_ne_outOfBounds
    · cases h

/-- No process changes its command. -/
theorem comandos_run {heap : Nat → UInt8} {comandos : List Comando} {sched : List Nat}
    (h : run paso (inicial heap comandos) sched = .ok s) :
    s.procesos.map Proceso.comando = comandos := by
  refine run_invariant (P := fun _ s => s.procesos.map Proceso.comando = comandos) ?_ ?_ _ _ h
  · show (comandos.map _).map _ = comandos
    rw [List.map_map]
    exact List.map_id comandos
  · intro _ me u t _ hu ht
    obtain ⟨p, m, pc, salida, hp, _, rfl⟩ := paso_eq_ok ht
    have hc : (u.procesos.map Proceso.comando)[me]? = some p.comando := by
      rw [List.getElem?_map, hp]
      rfl
    obtain ⟨hlt, he⟩ := List.getElem?_eq_some_iff.1 hc
    rw [← hu]
    simp only [List.map_set]
    rw [← he, List.set_getElem_self]

theorem run_ne_outOfBounds {heap : Nat → UInt8} {comandos : List Comando}
    (hw : ∀ palabra, .w palabra ∈ comandos → palabra.length < 50) (sched : List Nat) :
    run paso (inicial heap comandos) sched ≠ .error .outOfBounds := by
  apply run_ne_error
  intro pre me s _ hs h
  have hb := balance_run hs
  obtain ⟨palabra, l, hp, hout⟩ := paso_outOfBounds h
  have hmem : Comando.w palabra ∈ comandos := by
    rw [← comandos_run hs]
    exact List.mem_map_of_mem (f := Proceso.comando) hp
  have hlen := hw palabra hmem
  have h14 := hb.items_lt hp
  have h0 := hb.items.1
  omega

/-- **The shared stack is safe.**  After `-c`, for any commands whose words have fewer than 50
bytes and any interleaving of their steps: no step leaves the array, `0 ≤ items ≤ 15`, a push writes
a row between 0 and 14, a pop starts from at least one word, and when all the processes have
finished `full = items` and `empty = 15 - items`. -/
theorem shared_stack_safe (heap : Nat → UInt8) (comandos : List Comando)
    (hw : ∀ palabra, .w palabra ∈ comandos → palabra.length < 50) (sched : List Nat) :
    run paso (inicial heap comandos) sched ≠ .error .outOfBounds ∧
    ∀ s, run paso (inicial heap comandos) sched = .ok s →
      (0 ≤ s.wordheap.items ∧ s.wordheap.items ≤ 15) ∧
      (∀ palabra l, ⟨.w palabra, .body, l⟩ ∈ s.procesos →
        0 ≤ s.wordheap.items ∧ s.wordheap.items ≤ 14) ∧
      (∀ l, ⟨.r, .body, l⟩ ∈ s.procesos → 0 ≤ s.wordheap.items - 1) ∧
      ((∀ p ∈ s.procesos, p.pc = .done) →
        s.wordheap.full = s.wordheap.items ∧ s.wordheap.empty = 15 - s.wordheap.items) := by
  refine ⟨run_ne_outOfBounds hw sched, fun s hs => ?_⟩
  have hb := balance_run hs
  refine ⟨hb.items, fun palabra l hp => ⟨hb.items.1, hb.items_lt hp⟩, fun l hp => ?_, hb.finished⟩
  have := hb.items_pos hp
  omega

/-- A writer and a reader that pops the word, one after the other. -/
theorem shared_stack_safe_push_pop :
    ∃ s, run paso (inicial (fun _ => 0) [.w [104, 111, 108, 97], .r])
        [0, 0, 0, 0, 0, 0, 1, 1, 1, 1, 1, 1] = .ok s ∧
      s.wordheap.full = s.wordheap.items ∧ s.wordheap.empty = 15 - s.wordheap.items :=
  ⟨_, rfl, ((shared_stack_safe (fun _ => 0) [.w [104, 111, 108, 97], .r] (by simp)
    [0, 0, 0, 0, 0, 0, 1, 1, 1, 1, 1, 1]).2 _ rfl).2.2.2 (by decide)⟩

end Laboratorio.Lab05
