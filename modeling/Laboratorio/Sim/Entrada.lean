import Laboratorio.Sim.Coherencia

/-!
# How `sim.c` reads its input

`scanf("%d\n%d", &pid, &pagina)` is modelled as the C standard has it: a conversion skips white space,
takes an optional sign and as many digits as there are, and fails without consuming a character that
is neither; the result is `EOF` only if the input ends before the first conversion.  A number that is
no `int` has no defined value.  `pid` and `pagina` keep what they had when a conversion fails, and
`vars` is what they hold at the beginning.

`main` goes on as long as the result is not `EOF`, so `ciclo` is given a number of turns and returns
nothing when they are not enough.  It keeps the references that have been processed.
-/

namespace Laboratorio.Sim

open Laboratorio.Lib

/-! ## `scanf` -/

def isspace (c : UInt8) : Bool := c == 32 || (9 ≤ c && c ≤ 13)

def isdigit (c : UInt8) : Bool := 48 ≤ c && c ≤ 57

def valor (ds : List UInt8) : Int := ds.foldl (fun v d => v * 10 + (d.toNat - 48 : Int)) 0

/-- The outcome of one `%d`. -/
inductive Conversion where
  | eof
  /-- What is there is not a number; `resto` has not been consumed. -/
  | mal (resto : List UInt8)
  | num (v : Int) (resto : List UInt8)
  /-- A number that an `int` cannot hold. -/
  | indefinida
  deriving DecidableEq, Repr

/-- The sign and what follows it. -/
def signo : List UInt8 → Int × List UInt8
  | [] => (1, [])
  | c :: cs => if c = '-'.toUInt8 then (-1, cs) else if c = '+'.toUInt8 then (1, cs) else (1, c :: cs)

/-- `%d`. -/
def leerEntero (texto : List UInt8) : Conversion :=
  let item := texto.dropWhile isspace
  if item = [] then .eof
  else
    let ds := (signo item).2.takeWhile isdigit
    let v := (signo item).1 * valor ds
    if ds = [] then .mal (signo item).2
    else if -2 ^ 31 ≤ v ∧ v < 2 ^ 31 then .num v ((signo item).2.dropWhile isdigit)
    else .indefinida

/-- The outcome of `scanf("%d\n%d", &pid, &pagina)`, with what has been assigned. -/
inductive Lectura where
  | eof
  | cero (resto : List UInt8)
  | uno (pid : Int) (resto : List UInt8)
  | dos (r : Ref) (resto : List UInt8)
  | indefinida
  deriving DecidableEq, Repr

def scanf (texto : List UInt8) : Lectura :=
  match leerEntero texto with
  | .eof => .eof
  | .mal resto => .cero resto
  | .indefinida => .indefinida
  | .num pid resto =>
    -- the white space of the format is skipped by `%d` as well
    match leerEntero (resto.dropWhile isspace) with
    | .eof => .uno pid []
    | .mal resto => .uno pid resto
    | .indefinida => .indefinida
    | .num pagina resto => .dos ⟨pid, pagina⟩ resto

/-! ## The loop -/

/-- How a run ends. -/
inductive Final where
  /-- `scanf` has returned `EOF`, and the tables are printed. -/
  | completo (s : Estado)
  | fallo (f : Fallo)
  | indefinido

/-- A turn with the reference `r`, whose iteration ends as `it` says; `siguientes` are the others. -/
def procesar (r : Ref) (it : Except Fallo Estado) (siguientes : Estado → Option (List Ref × Final)) :
    Option (List Ref × Final) :=
  match it with
  | .error f => some ([r], .fallo f)
  | .ok t => (siguientes t).map fun p => (r :: p.1, p.2)

/-- The loop of `main`, with `n` turns at most: the references that it processes, and its end. -/
def ciclo (modo : Modo) (basura : Nat → Int) : (n : Nat) → Estado → (vars : Ref) → List UInt8 →
    Option (List Ref × Final)
  | 0, _, _, _ => none
  | n + 1, s, vars, texto =>
    match scanf texto with
    | .eof => some ([], .completo s)
    | .indefinida => some ([], .indefinido)
    | .cero resto =>
      procesar vars (iteracion modo basura s vars) fun t => ciclo modo basura n t vars resto
    | .uno pid resto =>
      procesar ⟨pid, vars.pagina⟩ (iteracion modo basura s ⟨pid, vars.pagina⟩) fun t =>
        ciclo modo basura n t ⟨pid, vars.pagina⟩ resto
    | .dos r resto => procesar r (iteracion modo basura s r) fun t => ciclo modo basura n t r resto

/-- The complete pairs that can be read one after the other, and whether the input ends behind them. -/
def leerPares : (n : Nat) → List UInt8 → List Ref × Bool
  | 0, _ => ([], false)
  | n + 1, texto =>
    match scanf texto with
    | .eof => ([], true)
    | .dos r resto => (r :: (leerPares n resto).1, (leerPares n resto).2)
    | _ => ([], false)

/-- Every pair takes a character at least. -/
def pares (texto : List UInt8) : List Ref := (leerPares (texto.length + 1) texto).1

/-- Nothing but white space follows the last pair. -/
def termina (texto : List UInt8) : Bool := (leerPares (texto.length + 1) texto).2

/-- The end of a run that has processed `rs` is one that the program may have: all of the pairs have
been read, or a message has been printed before that, and no access was outside of the tables. -/
def Final.Correcto (ps rs : List Ref) : Final → Prop
  | .completo _ => rs = ps
  | .fallo f => rs <+: ps ∧ f ≠ .fueraDeRango
  | .indefinido => False

/-- The loop ends, and the references it processes are the pairs of the text. -/
def Correcta (modo : Modo) (basura : Nat → Int) (vars : Ref) (texto : List UInt8) : Prop :=
  ∃ n rs fin, ciclo modo basura n .inicial vars texto = some (rs, fin) ∧ fin.Correcto (pares texto) rs

/-! ## One reference -/

/-- The process has been seen and its page is in physical memory. -/
def Estado.Acierto (s : Estado) (r : Ref) : Prop := (s.tablaProcesos r.slot).pid ≠ -1 ∧ s.Residente r

/-- There is no room for another page, neither in memory nor on the disk. -/
def Estado.Lleno (s : Estado) : Prop := 8 ≤ s.posActualMemoria ∧ 16 ≤ s.posActualDisco

/-- The program ends with a message. -/
def Rechaza (s : Estado) (r : Ref) : Prop :=
  r.pid < 0 ∨ 20 < r.pid ∨ 1 ≤ r.pid ∧ s.Lleno ∧ ¬ s.Acierto r

/-- All indices are inside of the arrays. -/
def EnTablas (s : Estado) (r : Ref) : Prop :=
  1 ≤ r.pid ∧ r.pid ≤ 20 ∧ (s.Acierto r ∨ 1 ≤ r.pagina ∧ r.pagina ≤ 16)

variable {modo : Modo} {basura : Nat → Int} {s t : Estado} {r : Ref} {v w : Marco} {g : Pagina}

theorem insertar_dentro (hp : 1 ≤ g.pid ∧ g.pid ≤ 20) (hn : 1 ≤ g.numero ∧ g.numero ≤ 16) :
    ∃ t, insertar s w g = .ok t := by
  have h1 : 0 ≤ g.pid - 1 ∧ g.pid - 1 < (20 : Nat) := by omega
  have h2 : 0 ≤ g.numero - 1 ∧ g.numero - 1 < (16 : Nat) := by omega
  unfold insertar indice
  rw [dif_pos h1, dif_pos h2]
  exact ⟨_, rfl⟩

theorem insertar_fuera (hn : ¬ (1 ≤ g.numero ∧ g.numero ≤ 16)) : insertar s w g = .error .fueraDeRango := by
  have h2 : ¬ (0 ≤ g.numero - 1 ∧ g.numero - 1 < (16 : Nat)) := by omega
  unfold insertar indice
  rw [dif_neg h2]
  split <;> simp_all

theorem desalojar_lleno (h : 16 ≤ s.posActualDisco) : desalojar s v = .error .discoLleno := by
  rw [desalojar, dif_neg (by omega)]

theorem desalojar_libre (h : ¬ 16 ≤ s.posActualDisco) : ∃ t, desalojar s v = .ok t := by
  rw [desalojar, dif_pos (by omega)]
  exact ⟨_, rfl⟩

theorem reemplazar_lleno (h : s.Lleno) : reemplazar modo basura s r = .error .discoLleno := by
  cases modo <;> simp only [reemplazar, fifo, lru, if_pos h.1, desalojar_lleno h.2] <;> rfl

/-- With room left, the page that was read is put into some frame. -/
theorem reemplazar_libre (modo : Modo) (basura : Nat → Int) (r : Ref) (h : ¬ s.Lleno) :
    ∃ t w g, g.pid = r.pid ∧ g.numero = r.pagina ∧ reemplazar modo basura s r =
      (insertar t w g).map fun u => { u with posActualMemoria := u.posActualMemoria + 1 } := by
  by_cases h8 : 8 ≤ s.posActualMemoria
  · have hd : ¬ 16 ≤ s.posActualDisco := fun hd => h ⟨h8, hd⟩
    cases modo with
    | f =>
      obtain ⟨t, ht⟩ := desalojar_libre (v := s.marcoActual) hd
      refine ⟨t, s.marcoActual, ⟨r.pagina, r.pid, basura s.posActualMemoria⟩, rfl, rfl, ?_⟩
      simp only [reemplazar, fifo, if_pos h8, ht]
      rfl
    | l =>
      obtain ⟨t, ht⟩ := desalojar_libre (v := buscarMasChico s.mem_fisica 0) hd
      refine ⟨t, buscarMasChico t.mem_fisica s.marcoActual, ⟨r.pagina, r.pid, s.falsoTimestamp⟩, rfl,
        rfl, ?_⟩
      simp only [reemplazar, lru, if_pos h8, ht]
      rfl
  · cases modo with
    | f =>
      refine ⟨s, s.marcoActual, ⟨r.pagina, r.pid, basura s.posActualMemoria⟩, rfl, rfl, ?_⟩
      simp only [reemplazar, fifo, if_neg h8]
      rfl
    | l =>
      refine ⟨s, buscarMasChico s.mem_fisica s.marcoActual, ⟨r.pagina, r.pid, s.falsoTimestamp⟩, rfl,
        rfl, ?_⟩
      simp only [reemplazar, lru, if_neg h8]
      rfl

/-- A reference to a process of the table: a hit, or a replacement from a state with the same room. -/
theorem iteracion_pid (modo : Modo) (basura : Nat → Int) (s : Estado) (hp : 1 ≤ r.pid ∧ r.pid ≤ 20) :
    (s.Acierto r ∧ ∃ t, iteracion modo basura s r = .ok t) ∨
    (¬ s.Acierto r ∧ ∃ t, (t.Lleno ↔ s.Lleno) ∧
      iteracion modo basura s r = reemplazar modo basura t r) := by
  have hin : 0 ≤ r.pid - 1 ∧ r.pid - 1 < (20 : Nat) := by omega
  have hslot : indice 20 (r.pid - 1) = some r.slot := by
    unfold indice Ref.slot
    rw [dif_pos hin]
    congr 1
    apply Fin.ext
    simp only [Fin.val_ofNat]
    omega
  have hrange : ¬ (r.pid < 0 ∨ 20 < r.pid) := by omega
  have hiter : iteracion modo basura s r =
      if (s.tic.tablaProcesos r.slot).pid = -1 then
        reemplazar modo basura (crearProceso s.tic r.slot r.pid) r
      else (enMemoria s.tic r).elim (reemplazar modo basura s.tic r)
        fun i => .ok (refrescar s.tic i) := by
    unfold iteracion
    rw [if_neg hrange, hslot]
    refine if_congr Iff.rfl rfl ?_
    split <;> rename_i hm
    · rw [show enMemoria s.tic r = some _ from hm]
      rfl
    · rw [show enMemoria s.tic r = none from hm]
      rfl
  rw [hiter]
  by_cases hnew : (s.tablaProcesos r.slot).pid = -1
  · exact .inr ⟨fun h => h.1 hnew, crearProceso s.tic r.slot r.pid, Iff.rfl, if_pos hnew⟩
  · rw [if_neg (show ¬ (s.tic.tablaProcesos r.slot).pid = -1 from hnew)]
    cases hm : enMemoria s.tic r with
    | some i => exact .inl ⟨⟨hnew, i, enMemoria_some hm⟩, _, rfl⟩
    | none => exact .inr ⟨fun h => enMemoria_none hm h.2, s.tic, Iff.rfl, rfl⟩

theorem iteracion_rechaza (modo : Modo) (basura : Nat → Int) (h : Rechaza s r) :
    ∃ f, iteracion modo basura s r = .error f ∧ f ≠ .fueraDeRango := by
  by_cases hp : r.pid < 0 ∨ 20 < r.pid
  · refine ⟨.pidInvalido, ?_, nofun⟩
    unfold iteracion
    rw [if_pos hp]
  · obtain ⟨hpos, hlleno, hac⟩ : 1 ≤ r.pid ∧ s.Lleno ∧ ¬ s.Acierto r := by
      rcases h with h | h | h
      · exact absurd (.inl h) hp
      · exact absurd (.inr h) hp
      · exact h
    refine ⟨.discoLleno, ?_, nofun⟩
    rcases iteracion_pid modo basura s (r := r) (by omega) with ⟨hac', -⟩ | ⟨-, t, ht, heq⟩
    · exact absurd hac' hac
    · rw [heq, reemplazar_lleno (ht.2 hlleno)]

theorem iteracion_entra (modo : Modo) (basura : Nat → Int) (hr : ¬ Rechaza s r) (h : EnTablas s r) :
    ∃ t, iteracion modo basura s r = .ok t := by
  obtain ⟨h1, h2, h3⟩ := h
  rcases iteracion_pid modo basura s ⟨h1, h2⟩ with ⟨-, hok⟩ | ⟨hac, t, ht, heq⟩
  · exact hok
  · have hlleno : ¬ t.Lleno := fun hl => hr (.inr (.inr ⟨h1, ht.1 hl, hac⟩))
    obtain ⟨u, w, g, hpid, hnum, hins⟩ := reemplazar_libre modo basura r hlleno
    obtain ⟨t', ht'⟩ := insertar_dentro (s := u) (w := w) (g := g) (by omega)
      (by have := h3.resolve_left hac; omega)
    rw [heq, hins, ht']
    exact ⟨_, rfl⟩

theorem iteracion_fuera (hr : ¬ Rechaza s r) (h : ¬ EnTablas s r) :
    iteracion modo basura s r = .error .fueraDeRango := by
  have hrange : ¬ (r.pid < 0 ∨ 20 < r.pid) := fun hp => hr (hp.imp_right .inl)
  by_cases hzero : r.pid = 0
  · have hin : ¬ (0 ≤ r.pid - 1 ∧ r.pid - 1 < (20 : Nat)) := by omega
    have hindex : indice 20 (r.pid - 1) = none := by
      unfold indice
      rw [dif_neg hin]
    unfold iteracion
    rw [if_neg hrange, hindex]
  · have hp : 1 ≤ r.pid ∧ r.pid ≤ 20 := by omega
    rcases iteracion_pid modo basura s hp with ⟨hac, -⟩ | ⟨hac, t, ht, heq⟩
    · exact absurd ⟨hp.1, hp.2, .inl hac⟩ h
    · have hlleno : ¬ t.Lleno := fun hl => hr (.inr (.inr ⟨hp.1, ht.1 hl, hac⟩))
      have hpag : ¬ (1 ≤ r.pagina ∧ r.pagina ≤ 16) := fun hn => h ⟨hp.1, hp.2, .inr hn⟩
      obtain ⟨u, w, g, hpid, hnum, hins⟩ := reemplazar_libre modo basura r hlleno
      rw [heq, hins, insertar_fuera (by rw [hnum]; exact hpag)]
      rfl

/-! ## The whole input -/

/-- Every pair is one that the program refuses with a message, after which nothing is read any more,
or one that stays inside of the tables; and if all have been read, the input ends there. -/
def Admisible (modo : Modo) (basura : Nat → Int) (fin : Bool) : Estado → List Ref → Prop
  | _, [] => fin = true
  | s, r :: rs => Rechaza s r ∨
      EnTablas s r ∧ ∀ t, iteracion modo basura s r = .ok t → Admisible modo basura fin t rs

variable {texto resto : List UInt8} {vars : Ref} {n m : Nat} {x : Int}

theorem leerEntero_length (h : leerEntero texto = .num x resto) : resto.length < texto.length := by
  have hitem : (texto.dropWhile isspace).length ≤ texto.length := (List.dropWhile_suffix _).length_le
  have hsigno (l : List UInt8) : (signo l).2.length ≤ l.length := by
    unfold signo
    split
    · rfl
    · split
      · simp
      · split <;> simp
  have hsum := congrArg List.length
    (List.takeWhile_append_dropWhile (p := isdigit) (l := (signo (texto.dropWhile isspace)).2))
  rw [List.length_append] at hsum
  have := hsigno (texto.dropWhile isspace)
  unfold leerEntero at h
  simp only at h
  split at h
  · cases h
  · split at h
    · cases h
    · rename_i hds
      have hpos := List.length_pos_iff.2 hds
      split at h
      · cases h
        omega
      · cases h

theorem scanf_length (h : scanf texto = .dos r resto) : resto.length < texto.length := by
  unfold scanf at h
  split at h
  case h_4 pid resto1 h1 =>
    have hle : (resto1.dropWhile isspace).length ≤ resto1.length := (List.dropWhile_suffix _).length_le
    have hlt := leerEntero_length h1
    split at h
    case h_4 pagina resto2 h2 =>
      cases h
      have := leerEntero_length h2
      omega
    all_goals cases h
  all_goals cases h

theorem correcto_cons {ps rs : List Ref} {fin : Final} :
    fin.Correcto (r :: ps) (r :: rs) ↔ fin.Correcto ps rs := by
  cases fin <;> simp [Final.Correcto]

/-- By induction on the pairs: the loop processes the first one and goes on with the rest. -/
theorem ciclo_admisible (n : Nat) : ∀ {texto : List UInt8} {s : Estado} (vars : Ref),
    texto.length + 1 ≤ n → Admisible modo basura (leerPares n texto).2 s (leerPares n texto).1 →
    ∃ m rs fin, ciclo modo basura m s vars texto = some (rs, fin) ∧
      fin.Correcto (leerPares n texto).1 rs := by
  induction n with
  | zero => exact fun _ h => absurd h (by omega)
  | succ n ih =>
    intro texto s vars hn hadm
    cases hs : scanf texto with
    | eof =>
      refine ⟨1, [], .completo s, ?_, ?_⟩
      · simp only [ciclo, hs]
      · simp [leerPares, hs, Final.Correcto]
    | dos r resto =>
      have hlen := scanf_length hs
      simp only [leerPares, hs] at hadm ⊢
      by_cases hr : Rechaza s r
      · obtain ⟨f, hf, hne⟩ := iteracion_rechaza modo basura hr
        refine ⟨1, [r], .fallo f, ?_, ?_, hne⟩
        · simp only [ciclo, hs, hf, procesar]
        · exact List.cons_prefix_cons.2 ⟨rfl, List.nil_prefix⟩
      · obtain ⟨hin, hrest⟩ := hadm.resolve_left hr
        obtain ⟨t, ht⟩ := iteracion_entra modo basura hr hin
        obtain ⟨m, rs, fin, hm, hfin⟩ := ih r (by omega) (hrest t ht)
        refine ⟨m + 1, r :: rs, fin, ?_, correcto_cons.2 hfin⟩
        simp only [ciclo, hs, ht, procesar, hm, Option.map_some]
    | cero resto => simp [leerPares, hs, Admisible] at hadm
    | uno pid resto => simp [leerPares, hs, Admisible] at hadm
    | indefinida => simp [leerPares, hs, Admisible] at hadm

theorem procesar_eq_some {it : Except Fallo Estado} {f : Estado → Option (List Ref × Final)}
    {rs : List Ref} {fin : Final} (h : procesar r it f = some (rs, fin)) :
    (∃ e, it = .error e ∧ rs = [r] ∧ fin = .fallo e) ∨
      ∃ t rs', it = .ok t ∧ f t = some (rs', fin) ∧ rs = r :: rs' := by
  cases it with
  | error e =>
    cases h
    exact .inl ⟨e, rfl, rfl, rfl⟩
  | ok t =>
    obtain ⟨⟨rs', fin'⟩, hf, heq⟩ := Option.map_eq_some_iff.1 h
    cases heq
    exact .inr ⟨t, rs', rfl, hf, rfl⟩

/-- A reference that was not read as a pair is one too many. -/
theorem not_correcto_nil {it : Except Fallo Estado} {f : Estado → Option (List Ref × Final)}
    {rs : List Ref} {fin : Final} (h : procesar r it f = some (rs, fin)) : ¬ fin.Correcto [] rs := by
  obtain ⟨rs', rfl⟩ : ∃ rs', rs = r :: rs' := by
    rcases procesar_eq_some h with ⟨_, -, rfl, -⟩ | ⟨_, rs', -, -, rfl⟩
    · exact ⟨[], rfl⟩
    · exact ⟨rs', rfl⟩
  cases fin <;> simp [Final.Correcto]

theorem admisible_of_ciclo (n : Nat) : ∀ {texto : List UInt8} {s : Estado} {vars : Ref} {m : Nat}
    {rs : List Ref} {fin : Final}, texto.length + 1 ≤ n →
    ciclo modo basura m s vars texto = some (rs, fin) → fin.Correcto (leerPares n texto).1 rs →
    Admisible modo basura (leerPares n texto).2 s (leerPares n texto).1 := by
  induction n with
  | zero => exact fun h => absurd h (by omega)
  | succ n ih =>
    intro texto s vars m rs fin hn hm hfin
    cases m with
    | zero => cases hm
    | succ m =>
      unfold ciclo at hm
      cases hs : scanf texto with
      | eof => simp [leerPares, hs, Admisible]
      | indefinida =>
        simp only [hs] at hm
        cases hm
        exact hfin.elim
      | cero resto =>
        simp only [hs] at hm
        simp only [leerPares, hs] at hfin
        exact absurd hfin (not_correcto_nil hm)
      | uno pid resto =>
        simp only [hs] at hm
        simp only [leerPares, hs] at hfin
        exact absurd hfin (not_correcto_nil hm)
      | dos r resto =>
        have hlen := scanf_length hs
        simp only [hs] at hm
        simp only [leerPares, hs] at hfin ⊢
        rcases procesar_eq_some hm with ⟨e, he, rfl, rfl⟩ | ⟨t, rs', ht, hrest, rfl⟩
        · -- the program has stopped at this reference, and not with an index out of range
          refine .inl ?_
          by_contra hr
          by_cases hin : EnTablas s r
          · obtain ⟨t, ht⟩ := iteracion_entra modo basura hr hin
            rw [ht] at he
            cases he
          · rw [iteracion_fuera hr hin] at he
            cases he
            exact hfin.2 rfl
        · have hr : ¬ Rechaza s r := by
            intro hr
            obtain ⟨f, hf, -⟩ := iteracion_rechaza modo basura hr
            rw [hf] at ht
            cases ht
          have hin : EnTablas s r := by
            by_contra hin
            rw [iteracion_fuera hr hin] at ht
            cases ht
          refine .inr ⟨hin, fun t' ht' => ?_⟩
          rw [ht] at ht'
          cases ht'
          exact ih (by omega) hrest (correcto_cons.1 hfin)

/-- **What `sim.c` makes of its input.**  For every text, the loop ends, the references that it
processes are the complete pairs of the text, and no access is outside of the tables, if and only if
all pairs up to one that is refused with a message stay inside of the tables, and without such a pair
nothing but white space follows the last of them. -/
theorem entrada_iff (modo : Modo) (basura : Nat → Int) (vars : Ref) (texto : List UInt8) :
    Correcta modo basura vars texto ↔
      Admisible modo basura (termina texto) .inicial (pares texto) := by
  constructor
  · rintro ⟨m, rs, fin, hm, hfin⟩
    exact admisible_of_ciclo (texto.length + 1) (Nat.le_refl _) hm hfin
  · intro h
    exact ciclo_admisible (texto.length + 1) vars (Nat.le_refl _) h

/-- `1 2 x`: the pair is processed, and then `scanf` returns 0 for ever, without consuming the `x`. -/
theorem entrada_x : ¬ Correcta .f (fun _ => 0) ⟨0, 0⟩ [49, 32, 50, 32, 120] ∧
    (ciclo .f (fun _ => 0) 30 .inicial ⟨0, 0⟩ [49, 32, 50, 32, 120]).isNone := by
  refine ⟨?_, by decide +kernel⟩
  rintro ⟨m, rs, fin, hm, hfin⟩
  have hadm := admisible_of_ciclo 6 (by decide) hm hfin
  have hpares : leerPares 6 [49, 32, 50, 32, 120] = ([⟨1, 2⟩], false) := by decide +kernel
  rw [hpares] at hadm
  have hr : ¬ Rechaza .inicial ⟨1, 2⟩ := by
    rintro (h | h | ⟨-, h, -⟩)
    · exact absurd h (by decide)
    · exact absurd h (by decide)
    · exact absurd h.1 (by decide)
  obtain ⟨hin, hrest⟩ := hadm.resolve_left hr
  obtain ⟨t, ht⟩ := iteracion_entra .f (fun _ => 0) hr hin
  exact Bool.noConfusion (hrest t ht)

end Laboratorio.Sim
