import Laboratorio.Lib.CInt
import Laboratorio.Lib.Runs

/-!
# The paging simulator of `lab-07/sim.c`

The globals of `sim.c` are the fields of `Estado`; its fixed-size arrays are functions on `Fin`.
`iteracion` is the body of `main`'s loop, `fifo` and `lru` are the two replacement functions.

* The code both replacement functions repeat is written once: `desalojar` copies a frame to
  `mem_secundaria` and marks its page `'D'`, `insertar` fills a frame and the page table.
* `buscarMasChico` is the search for the smallest timestamp.  `lru` runs it twice: the first
  time from an inner `ubicacionMemoria = 0`, which picks the page that is copied to disk, and
  the second time from the outer `ubicacionMemoria = posActualMemoria % 8`, which picks the
  frame that is overwritten.
* `fifo` leaves `pag.timestamp` uninitialised; the value is the parameter `basura`.
* `falsoTimestamp` is an `int` and wraps; the two positions only grow on a fault, at most 24
  times before `Disco lleno`, and are natural numbers.
* An index outside its array has no defined behaviour in C: it ends the run with
  `Fallo.fueraDeRango`.
-/

namespace Laboratorio.Sim

open Laboratorio.Lib Function

/-- Frames: `MEMORIA_FISICA / TAM_PAGINA = 32 / 4`. -/
abbrev Marco := Fin 8

scoped instance neZero_8 : NeZero 8 := ⟨by decide⟩

/-- Disk slots: `MEMORIA_SECUNDARIA / TAM_PAGINA = 64 / 4`. -/
abbrev Ranura := Fin 16

scoped instance neZero_16 : NeZero 16 := ⟨by decide⟩

/-- Entries of a page table: `MEMORIA_VIRTUAL / TAM_PAGINA = 64 / 4`. -/
abbrev Entrada := Fin 16

/-- Slots of `tablaProcesos`: `PROCESOS = 20`. -/
abbrev Slot := Fin 20

structure Pagina where
  numero : Int
  pid : Int
  timestamp : Int
  deriving DecidableEq, Repr

structure Proceso where
  pid : Int
  /-- `'F'` in physical memory, `'D'` on disk. -/
  memoria : Entrada → Char
  /-- The table of open pages. -/
  paginas : Entrada → Int

structure Estado where
  falsoTimestamp : Int
  posActualMemoria : Nat
  posActualDisco : Nat
  tablaProcesos : Slot → Proceso
  mem_fisica : Marco → Pagina
  mem_secundaria : Ranura → Pagina

/-- A reference read from standard input. -/
structure Ref where
  pid : Int
  pagina : Int
  deriving DecidableEq, Repr

/-- The replacement algorithm: `-f` or `-l`. -/
inductive Modo where
  | f
  | l
  deriving DecidableEq, Repr

/-- How the simulator stops before the end of its input. -/
inductive Fallo where
  | pidInvalido
  | discoLleno
  | fueraDeRango
  deriving DecidableEq, Repr

/-- The globals after `vaciarMemoria`, `vaciarDisco` and `vaciarTablaProcesos`. -/
def Estado.inicial : Estado where
  falsoTimestamp := 0
  posActualMemoria := 0
  posActualDisco := 0
  tablaProcesos := fun _ => ⟨-1, fun _ => '-', fun _ => -1⟩
  mem_fisica := fun _ => ⟨-1, -1, -1⟩
  mem_secundaria := fun _ => ⟨-1, -1, 0⟩

/-- `posActualMemoria % (MEMORIA_FISICA / TAM_PAGINA)`. -/
def Estado.marcoActual (s : Estado) : Marco := Fin.ofNat 8 s.posActualMemoria

/-- Find the page in the process table and set its state to disk. -/
def marcarDisco (tabla : Slot → Proceso) (pag : Pagina) : Slot → Proceso :=
  match Fin.find? fun i => decide ((tabla i).pid ≠ -1 ∧ (tabla i).pid = pag.pid) with
  | none => tabla
  | some i =>
    match Fin.find? fun j => decide ((tabla i).paginas j = pag.numero) with
    | none => tabla
    | some j =>
      update tabla i
        { tabla i with memoria := update (tabla i).memoria j 'D' }

/-- Move the page of frame `v` to disk, unless the disk is full. -/
def desalojar (s : Estado) (v : Marco) : Except Fallo Estado :=
  if h : s.posActualDisco < 16 then
    .ok { s with
      mem_secundaria := update s.mem_secundaria ⟨s.posActualDisco, h⟩ (s.mem_fisica v)
      tablaProcesos := marcarDisco s.tablaProcesos (s.mem_fisica v)
      posActualDisco := s.posActualDisco + 1 }
  else .error .discoLleno

/-- Put `pag` in frame `w` and record it in the page table of its process. -/
def insertar (s : Estado) (w : Marco) (pag : Pagina) : Except Fallo Estado :=
  match indice 20 (pag.pid - 1), indice 16 (pag.numero - 1) with
  | some p, some j =>
    .ok { s with
      mem_fisica := update s.mem_fisica w pag
      tablaProcesos := update s.tablaProcesos p
        { s.tablaProcesos p with
          paginas := update (s.tablaProcesos p).paginas j pag.numero
          memoria := update (s.tablaProcesos p).memoria j 'F' } }
  | _, _ => .error .fueraDeRango

def fifo (basura : Int) (s : Estado) (pid pagina : Int) : Except Fallo Estado := do
  let s' ← if 8 ≤ s.posActualMemoria then desalojar s s.marcoActual else .ok s
  insertar s' s.marcoActual ⟨pagina, pid, basura⟩

/-- The search loop for the smallest timestamp: `(timestampMasChico, ubicacionMemoria)` starts
from `mem_fisica[0].timestamp` and the given `ubicacionMemoria`. -/
def buscarMasChico (mem : Marco → Pagina) (ubicacionMemoria : Marco) : Marco :=
  ((List.finRange 8).foldl
    (fun acc i => if (mem i).timestamp < acc.1 then ((mem i).timestamp, i) else acc)
    ((mem 0).timestamp, ubicacionMemoria)).2

def lru (s : Estado) (pid pagina : Int) : Except Fallo Estado := do
  let s' ← if 8 ≤ s.posActualMemoria then desalojar s (buscarMasChico s.mem_fisica 0) else .ok s
  insertar s' (buscarMasChico s'.mem_fisica s.marcoActual) ⟨pagina, pid, s.falsoTimestamp⟩

/-- The `switch (modo)` of `main` and the `posActualMemoria++` after it. -/
def reemplazar (modo : Modo) (basura : Nat → Int) (s : Estado) (r : Ref) : Except Fallo Estado := do
  let s' ← match modo with
    | .f => fifo (basura s.posActualMemoria) s r.pid r.pagina
    | .l => lru s r.pid r.pagina
  .ok { s' with posActualMemoria := s'.posActualMemoria + 1 }

/-- A process seen for the first time gets its slot; `memoria[0] = 'F'` is set on the way. -/
def crearProceso (s : Estado) (p : Slot) (pid : Int) : Estado :=
  { s with
    tablaProcesos := update s.tablaProcesos p
      { s.tablaProcesos p with
        pid := pid
        memoria := update (s.tablaProcesos p).memoria 0 'F' } }

/-- The frame that holds the page, if it is in physical memory. -/
def enMemoria (s : Estado) (r : Ref) : Option Marco :=
  Fin.find? fun i => decide ((s.mem_fisica i).pid = r.pid ∧ (s.mem_fisica i).numero = r.pagina)

/-- A hit only renews the timestamp of the frame. -/
def refrescar (s : Estado) (i : Marco) : Estado :=
  { s with
    mem_fisica := update s.mem_fisica i
      { s.mem_fisica i with timestamp := s.falsoTimestamp } }

/-- One iteration of the loop of `main`. -/
def iteracion (modo : Modo) (basura : Nat → Int) (s₀ : Estado) (r : Ref) : Except Fallo Estado :=
  let s := { s₀ with falsoTimestamp := wrap32 (s₀.falsoTimestamp + 1) }
  if r.pid < 0 ∨ 20 < r.pid then .error .pidInvalido
  else
    match indice 20 (r.pid - 1) with
    | none => .error .fueraDeRango
    | some p =>
      if (s.tablaProcesos p).pid = -1 then
        reemplazar modo basura (crearProceso s p r.pid) r
      else
        -- the residency test is skipped for a process seen for the first time
        match enMemoria s r with
        | some i => .ok (refrescar s i)
        | none => reemplazar modo basura s r

/-- The loop of `main` over the references read. -/
def simular (modo : Modo) (basura : Nat → Int) (refs : List Ref) : Except Fallo Estado :=
  run (iteracion modo basura) Estado.inicial refs

end Laboratorio.Sim
