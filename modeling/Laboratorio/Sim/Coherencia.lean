import Laboratorio.Sim.Modelo

/-!
# Coherence of frames, disk and page tables in `sim.c`

`Coherente s vistas` is the part of the simulator's invariant that does not depend on the
replacement algorithm: `vistas` are the pages referenced so far; the page tables record exactly
these; a page is marked `'F'` when some frame holds it and `'D'` otherwise; a page without a frame
is on disk; the frames are filled from the first one on and hold distinct pages.

Both replacement functions write one frame, after evicting one when memory is full.  When it is
the same frame they are `sustituir` (`fifo_eq`, `lru_eq`), and `sustituir_coherente` shows that
`Coherente` is kept whichever frame was chosen.  `iteracion_acierto` and `iteracion_fallo` reduce
an iteration of `main` to a hit or to a replacement.
-/

namespace Laboratorio.Sim

open Laboratorio.Lib Function

/-! ## References and the table entries they name -/

/-- A reference to a page of the machine: `1 ≤ pid ≤ 20` and `1 ≤ pagina ≤ 16`. -/
def Ref.valida (r : Ref) : Prop := 1 ≤ r.pid ∧ r.pid ≤ 20 ∧ 1 ≤ r.pagina ∧ r.pagina ≤ 16

instance (r : Ref) : Decidable r.valida := inferInstanceAs (Decidable (_ ∧ _))

/-- The page a frame or a disk slot holds. -/
def Pagina.ref (g : Pagina) : Ref := ⟨g.pid, g.numero⟩

def Ref.slot (r : Ref) : Slot := Fin.ofNat 20 (r.pid - 1).toNat

def Ref.entrada (r : Ref) : Entrada := Fin.ofNat 16 (r.pagina - 1).toNat

/-- `tablaProcesos[pid - 1].paginas[pagina - 1]`. -/
def Estado.paginaDe (s : Estado) (r : Ref) : Int := (s.tablaProcesos r.slot).paginas r.entrada

/-- `tablaProcesos[pid - 1].memoria[pagina - 1]`. -/
def Estado.marcaDe (s : Estado) (r : Ref) : Char := (s.tablaProcesos r.slot).memoria r.entrada

/-- Some frame holds the page. -/
def Estado.Residente (s : Estado) (r : Ref) : Prop := ∃ i, (s.mem_fisica i).ref = r

/-- Some disk slot holds the page. -/
def Estado.EnDisco (s : Estado) (r : Ref) : Prop := ∃ k, (s.mem_secundaria k).ref = r

instance (s : Estado) (r : Ref) : Decidable (s.Residente r) := inferInstanceAs (Decidable (∃ _, _))

instance (s : Estado) (r : Ref) : Decidable (s.EnDisco r) := inferInstanceAs (Decidable (∃ _, _))

variable {s t : Estado} {r r' : Ref} {vistas : List Ref}

theorem Ref.slot_val (h : r.valida) : (r.slot : Int) + 1 = r.pid := by
  obtain ⟨h1, h2, _, _⟩ := h
  simp only [Ref.slot, Fin.val_ofNat]
  omega

theorem Ref.entrada_val (h : r.valida) : (r.entrada : Int) + 1 = r.pagina := by
  obtain ⟨_, _, h1, h2⟩ := h
  simp only [Ref.entrada, Fin.val_ofNat]
  omega

theorem indice_slot (h : r.valida) : indice 20 (r.pid - 1) = some r.slot := by
  rw [← indice_ofNat r.slot]
  congr 1
  have := r.slot_val h
  omega

theorem indice_entrada (h : r.valida) : indice 16 (r.pagina - 1) = some r.entrada := by
  rw [← indice_ofNat r.entrada]
  congr 1
  have := r.entrada_val h
  omega

theorem Ref.eq_of_slot_entrada (h : r.valida) (h' : r'.valida) (hs : r.slot = r'.slot)
    (he : r.entrada = r'.entrada) : r = r' := by
  obtain ⟨p, g⟩ := r
  obtain ⟨p', g'⟩ := r'
  have a := Ref.slot_val h
  have a' := Ref.slot_val h'
  have b := Ref.entrada_val h
  have b' := Ref.entrada_val h'
  rw [hs] at a
  rw [he] at b
  simp only at a a' b b'
  simp only [Ref.mk.injEq]
  constructor <;> omega

/-! ## The invariant -/

/-- The page tables record the pages referenced so far. -/
structure Tablas (s : Estado) (vistas : List Ref) : Prop where
  validas : ∀ r ∈ vistas, r.valida
  pid : ∀ p, (s.tablaProcesos p).pid = -1 ∨ (s.tablaProcesos p).pid = (p : Int) + 1
  pid_vista : ∀ r ∈ vistas, (s.tablaProcesos r.slot).pid = r.pid
  paginas : ∀ p j, (s.tablaProcesos p).paginas j = -1 ∨
    (s.tablaProcesos p).paginas j = (j : Int) + 1
  vista_iff : ∀ r, r.valida → (s.paginaDe r ≠ -1 ↔ r ∈ vistas)

/-- Frames, disk and page tables agree about the pages referenced so far. -/
structure Coherente (s : Estado) (vistas : List Ref) : Prop extends Tablas s vistas where
  marca : ∀ r ∈ vistas, s.marcaDe r = if s.Residente r then 'F' else 'D'
  en_disco : ∀ r ∈ vistas, ¬ s.Residente r → s.EnDisco r
  ocupado : ∀ i : Marco, i < s.posActualMemoria → (s.mem_fisica i).ref ∈ vistas
  libre : ∀ i : Marco, s.posActualMemoria ≤ i → s.mem_fisica i = ⟨-1, -1, -1⟩
  distintos : ∀ i j : Marco, i < s.posActualMemoria → j < s.posActualMemoria →
    (s.mem_fisica i).ref = (s.mem_fisica j).ref → i = j
  pos_disco : s.posActualDisco = s.posActualMemoria - 8
  ranura_libre : ∀ k : Ranura, s.posActualDisco ≤ k → s.mem_secundaria k = ⟨-1, -1, 0⟩

theorem Coherente.inicial : Coherente Estado.inicial [] where
  validas := by simp
  pid := fun _ => Or.inl rfl
  pid_vista := by simp
  paginas := fun _ _ => Or.inl rfl
  vista_iff := by simp [Estado.paginaDe, Estado.inicial]
  marca := by simp
  en_disco := by simp
  ocupado := fun i h => by simp [Estado.inicial] at h
  libre := fun _ _ => rfl
  distintos := fun i _ h => by simp [Estado.inicial] at h
  pos_disco := rfl
  ranura_libre := fun _ _ => rfl

namespace Coherente

/-- A frame that holds a page of the machine is one of those filled. -/
theorem ocupado_of_valida (hc : Coherente s vistas) {i : Marco} (h : (s.mem_fisica i).ref.valida) :
    i < s.posActualMemoria := by
  refine Nat.lt_of_not_le fun hle => ?_
  rw [hc.libre i hle] at h
  exact absurd h (by decide)

theorem vista_of_residente (hc : Coherente s vistas) (hv : r.valida) (h : s.Residente r) :
    r ∈ vistas := by
  obtain ⟨i, rfl⟩ := h
  exact hc.ocupado i (hc.ocupado_of_valida hv)

theorem marco_unico (hc : Coherente s vistas) (hv : r.valida) {i j : Marco}
    (hi : (s.mem_fisica i).ref = r) (hj : (s.mem_fisica j).ref = r) : i = j :=
  hc.distintos i j (hc.ocupado_of_valida (by rw [hi]; exact hv))
    (hc.ocupado_of_valida (by rw [hj]; exact hv)) (by rw [hi, hj])

theorem congr (hc : Coherente s vistas) (t : Estado) (vistas' : List Ref)
    (hm : ∀ i, (t.mem_fisica i).ref = (s.mem_fisica i).ref)
    (hl : ∀ i : Marco, s.posActualMemoria ≤ i → t.mem_fisica i = s.mem_fisica i)
    (hd : t.mem_secundaria = s.mem_secundaria) (hp : t.posActualMemoria = s.posActualMemoria)
    (hq : t.posActualDisco = s.posActualDisco) (ht : t.tablaProcesos = s.tablaProcesos)
    (hvs : ∀ r, r ∈ vistas' ↔ r ∈ vistas) : Coherente t vistas' := by
  have hres : ∀ r, t.Residente r ↔ s.Residente r := fun r => by
    simp only [Estado.Residente, hm]
  have hdisco : ∀ r, t.EnDisco r ↔ s.EnDisco r := fun r => by
    simp only [Estado.EnDisco, hd]
  refine ⟨⟨?_, ?_, ?_, ?_, ?_⟩, ?_, ?_, ?_, ?_, ?_, ?_, ?_⟩
  · intro r hr; exact hc.validas r ((hvs r).1 hr)
  · intro p; rw [ht]; exact hc.pid p
  · intro r hr; rw [ht]; exact hc.pid_vista r ((hvs r).1 hr)
  · intro p j; rw [ht]; exact hc.paginas p j
  · intro r hr; rw [hvs, ← hc.vista_iff r hr]; simp only [Estado.paginaDe, ht]
  · intro r hr
    simp only [hres]
    rw [← hc.marca r ((hvs r).1 hr)]
    simp only [Estado.marcaDe, ht]
  · intro r hr hn
    exact (hdisco r).2 (hc.en_disco r ((hvs r).1 hr) (fun h => hn ((hres r).2 h)))
  · intro i hi; rw [hm, hvs]; exact hc.ocupado i (by omega)
  · intro i hi; rw [hl i (by omega)]; exact hc.libre i (by omega)
  · intro i j hi hj h; rw [hm, hm] at h; exact hc.distintos i j (by omega) (by omega) h
  · rw [hp, hq]; exact hc.pos_disco
  · intro k hk; rw [hd]; exact hc.ranura_libre k (by omega)

end Coherente

/-! ## Hits -/

theorem enMemoria_some {i : Marco} (h : enMemoria s r = some i) : (s.mem_fisica i).ref = r := by
  unfold enMemoria at h
  have := Fin.eq_true_of_find?_eq_some h
  simp only [decide_eq_true_eq] at this
  obtain ⟨pid, pagina⟩ := r
  simp only [Pagina.ref, Ref.mk.injEq]
  exact this

theorem enMemoria_none (h : enMemoria s r = none) : ¬ s.Residente r := by
  rintro ⟨i, hi⟩
  unfold enMemoria at h
  have := Fin.eq_false_of_find?_eq_none h i
  subst hi
  simp [Pagina.ref] at this

theorem enMemoria_of_residente (h : s.Residente r) :
    ∃ i, enMemoria s r = some i ∧ (s.mem_fisica i).ref = r := by
  cases he : enMemoria s r with
  | none => exact absurd h (enMemoria_none he)
  | some i => exact ⟨i, rfl, enMemoria_some he⟩

/-- The state in which an iteration looks at its reference: only the clock has moved. -/
def Estado.tic (s : Estado) : Estado :=
  { s with falsoTimestamp := wrap32 (s.falsoTimestamp + 1) }

theorem Coherente.tic (hc : Coherente s vistas) : Coherente s.tic vistas :=
  hc.congr _ _ (fun _ => rfl) (fun _ _ => rfl) rfl rfl rfl rfl (fun _ => Iff.rfl)

theorem refrescar_of_ne {i j : Marco} (h : j ≠ i) :
    (refrescar s i).mem_fisica j = s.mem_fisica j := by
  unfold refrescar
  exact update_of_ne h _ _

theorem refrescar_ref (s : Estado) (i j : Marco) :
    ((refrescar s i).mem_fisica j).ref = (s.mem_fisica j).ref := by
  rcases eq_or_ne j i with rfl | hj
  · simp [refrescar, Pagina.ref]
  · rw [refrescar_of_ne hj]

theorem Coherente.refrescar (hc : Coherente s vistas) (hr : r ∈ vistas) {i : Marco}
    (hi : (s.mem_fisica i).ref = r) : Coherente (refrescar s i) (vistas ++ [r]) := by
  have hocc : i < s.posActualMemoria := hc.ocupado_of_valida (by rw [hi]; exact hc.validas r hr)
  refine hc.congr _ _ (refrescar_ref s i) ?_ rfl rfl rfl rfl ?_
  · intro j hj
    apply refrescar_of_ne
    rintro rfl
    omega
  · intro q
    rw [List.mem_append, List.mem_singleton]
    constructor
    · rintro (h | rfl)
      · exact h
      · exact hr
    · exact Or.inl

/-- A reference to a resident page is a hit: the iteration only renews the frame's timestamp. -/
theorem iteracion_acierto (modo : Modo) (basura : Nat → Int) (hc : Coherente s vistas)
    (hv : r.valida) (hres : s.Residente r) :
    ∃ i, (s.mem_fisica i).ref = r ∧ iteracion modo basura s r = .ok (refrescar s.tic i) := by
  have hr : r ∈ vistas := hc.vista_of_residente hv hres
  have hpid := hc.pid_vista r hr
  obtain ⟨i, hi, href⟩ := enMemoria_of_residente (s := s.tic) hres
  refine ⟨i, href, ?_⟩
  have h1 : ¬ (r.pid < 0 ∨ 20 < r.pid) := by obtain ⟨_, _, _, _⟩ := hv; omega
  have h2 : (s.tablaProcesos r.slot).pid ≠ -1 := by
    rw [hpid]; obtain ⟨_, _, _, _⟩ := hv; omega
  unfold iteracion
  rw [if_neg h1, indice_slot hv]
  simp only
  rw [if_neg h2]
  unfold Estado.tic at hi
  rw [hi]
  rfl

/-! ## Table updates -/

/-- Set the mark of one page. -/
def ponerMarca (tabla : Slot → Proceso) (r : Ref) (c : Char) : Slot → Proceso :=
  update tabla r.slot
    { tabla r.slot with memoria := update (tabla r.slot).memoria r.entrada c }

/-- Open one page. -/
def ponerPagina (tabla : Slot → Proceso) (r : Ref) : Slot → Proceso :=
  update tabla r.slot
    { tabla r.slot with paginas := update (tabla r.slot).paginas r.entrada r.pagina }

section

variable (tabla : Slot → Proceso) (c : Char)

theorem ponerMarca_resto (p : Slot) : (ponerMarca tabla r c p).pid = (tabla p).pid ∧
    (ponerMarca tabla r c p).paginas = (tabla p).paginas := by
  unfold ponerMarca
  by_cases hp : p = r.slot
  · subst hp; simp
  · simp [update_of_ne hp]

theorem ponerMarca_memoria (h : r.valida) (h' : r'.valida) :
    (ponerMarca tabla r c r'.slot).memoria r'.entrada =
      if r' = r then c else (tabla r'.slot).memoria r'.entrada := by
  unfold ponerMarca
  by_cases hp : r'.slot = r.slot
  · rw [hp, update_self]
    by_cases he : r'.entrada = r.entrada
    · rw [if_pos (Ref.eq_of_slot_entrada h' h hp he), he]
      simp
    · rw [if_neg (fun e => he (by rw [e]))]
      simp [update_of_ne he]
  · rw [if_neg (fun e => hp (by rw [e]))]
    simp [update_of_ne hp]

theorem ponerPagina_resto (p : Slot) : (ponerPagina tabla r p).pid = (tabla p).pid ∧
    (ponerPagina tabla r p).memoria = (tabla p).memoria := by
  unfold ponerPagina
  by_cases hp : p = r.slot
  · subst hp; simp
  · simp [update_of_ne hp]

theorem ponerPagina_paginas (p : Slot) (j : Entrada) :
    (ponerPagina tabla r p).paginas j =
      if p = r.slot ∧ j = r.entrada then r.pagina else (tabla p).paginas j := by
  unfold ponerPagina
  by_cases hp : p = r.slot
  · subst hp
    by_cases hj : j = r.entrada
    · subst hj; simp
    · simp [hj]
  · simp [hp]

end

/-! ## Faults -/

theorem Coherente.crearProceso (hc : Coherente s vistas) (hv : r.valida)
    (hpid : (s.tablaProcesos r.slot).pid = -1) :
    Coherente (crearProceso s r.slot r.pid) vistas := by
  have hne : ∀ q ∈ vistas, q.slot ≠ r.slot := by
    intro q hq he
    have h1 := hc.pid_vista q hq
    have h2 := hc.validas q hq
    rw [he, hpid] at h1
    obtain ⟨_, _, _, _⟩ := h2
    omega
  have htabla : ∀ q, (Sim.crearProceso s r.slot r.pid).paginaDe q = s.paginaDe q := by
    intro q
    unfold Estado.paginaDe Sim.crearProceso
    by_cases hq : q.slot = r.slot
    · rw [hq]; simp
    · simp [update_of_ne hq]
  refine ⟨⟨hc.validas, ?_, ?_, ?_, ?_⟩, ?_, hc.en_disco, hc.ocupado, hc.libre, hc.distintos,
    hc.pos_disco, hc.ranura_libre⟩
  · intro p
    by_cases hp : p = r.slot
    · subst hp
      right
      simp only [Sim.crearProceso, update_self]
      exact (Ref.slot_val hv).symm
    · simp only [Sim.crearProceso, update_of_ne hp]
      exact hc.pid p
  · intro q hq
    simp only [Sim.crearProceso, update_of_ne (hne q hq)]
    exact hc.pid_vista q hq
  · intro p j
    by_cases hp : p = r.slot
    · subst hp
      simp only [Sim.crearProceso, update_self]
      exact hc.paginas r.slot j
    · simp only [Sim.crearProceso, update_of_ne hp]
      exact hc.paginas p j
  · intro q hq
    rw [htabla]
    exact hc.vista_iff q hq
  · intro q hq
    have := hc.marca q hq
    simp only [Estado.marcaDe, Sim.crearProceso, update_of_ne (hne q hq)] at this ⊢
    exact this

/-- A reference to a page that is not resident is a fault: the iteration runs the replacement
function, on a state in which the process has its slot. -/
theorem iteracion_fallo (modo : Modo) (basura : Nat → Int) (hc : Coherente s vistas)
    (hv : r.valida) (hres : ¬ s.Residente r) :
    ∃ t, iteracion modo basura s r = reemplazar modo basura t r ∧ Coherente t vistas ∧
      (t.tablaProcesos r.slot).pid = r.pid ∧ t.mem_fisica = s.mem_fisica ∧
      t.mem_secundaria = s.mem_secundaria ∧ t.posActualMemoria = s.posActualMemoria ∧
      t.posActualDisco = s.posActualDisco ∧
      t.falsoTimestamp = wrap32 (s.falsoTimestamp + 1) := by
  have h1 : ¬ (r.pid < 0 ∨ 20 < r.pid) := by obtain ⟨_, _, _, _⟩ := hv; omega
  unfold iteracion
  rw [if_neg h1, indice_slot hv]
  simp only
  by_cases hpid : (s.tablaProcesos r.slot).pid = -1
  · rw [if_pos hpid]
    exact ⟨Sim.crearProceso s.tic r.slot r.pid, rfl, hc.tic.crearProceso hv hpid,
      by simp [Sim.crearProceso], rfl, rfl, rfl, rfl, rfl⟩
  · rw [if_neg hpid]
    have hslot : (s.tablaProcesos r.slot).pid = r.pid := by
      have := Ref.slot_val hv
      rcases hc.pid r.slot with h | h
      · exact absurd h hpid
      · omega
    cases he : enMemoria s.tic r with
    | some i => exact absurd ⟨i, enMemoria_some he⟩ hres
    | none =>
      refine ⟨s.tic, ?_, hc.tic, hslot, rfl, rfl, rfl, rfl, rfl⟩
      unfold Estado.tic at he
      rw [he]
      rfl

/-- On a page that has been referenced, the two nested searches end at its table entry. -/
theorem marcarDisco_eq (hc : Coherente s vistas) {g : Pagina} (hg : g.ref ∈ vistas) :
    marcarDisco s.tablaProcesos g = ponerMarca s.tablaProcesos g.ref 'D' := by
  have hv := hc.validas _ hg
  have hpid : (s.tablaProcesos g.ref.slot).pid = g.pid := hc.pid_vista _ hg
  have hpos : 1 ≤ g.pid := hv.1
  have hslot : Fin.find? (fun i => decide ((s.tablaProcesos i).pid ≠ -1 ∧
      (s.tablaProcesos i).pid = g.pid)) = some g.ref.slot := by
    rw [Fin.find?_eq_some_iff]
    refine ⟨by simp only [decide_eq_true_eq]; omega, fun j hj => ?_⟩
    have h1 : (g.ref.slot : Int) + 1 = g.pid := Ref.slot_val hv
    have h2 : (j : Nat) < g.ref.slot := hj
    simp only [decide_eq_false_iff_not]
    rcases hc.pid j with h | h <;> omega
  have hpag : (s.tablaProcesos g.ref.slot).paginas g.ref.entrada = g.numero := by
    have h1 := (hc.vista_iff _ hv).2 hg
    have h2 : (g.ref.entrada : Int) + 1 = g.numero := Ref.entrada_val hv
    unfold Estado.paginaDe at h1
    rcases hc.paginas g.ref.slot g.ref.entrada with h | h
    · exact absurd h h1
    · omega
  have hnum : 1 ≤ g.numero := hv.2.2.1
  have hent : Fin.find? (fun j => decide ((s.tablaProcesos g.ref.slot).paginas j = g.numero)) =
      some g.ref.entrada := by
    rw [Fin.find?_eq_some_iff]
    refine ⟨by simp only [decide_eq_true_eq]; exact hpag, fun j hj => ?_⟩
    have h1 : (g.ref.entrada : Int) + 1 = g.numero := Ref.entrada_val hv
    have h2 : (j : Nat) < g.ref.entrada := hj
    simp only [decide_eq_false_iff_not]
    rcases hc.paginas g.ref.slot j with h | h <;> omega
  unfold marcarDisco
  rw [hslot]
  simp only
  rw [hent]
  rfl

/-- What both replacement functions do when the frame evicted is the frame filled. -/
def sustituir (s : Estado) (w : Marco) (g : Pagina) : Except Fallo Estado := do
  let s' ← if 8 ≤ s.posActualMemoria then desalojar s w else .ok s
  insertar s' w g

theorem fifo_eq (basura : Int) (s : Estado) (pid pagina : Int) :
    fifo basura s pid pagina = sustituir s s.marcoActual ⟨pagina, pid, basura⟩ := rfl

theorem desalojar_ok {v : Marco} (h : desalojar s v = .ok t) :
    (∃ hd : s.posActualDisco < 16, t.mem_secundaria =
      update s.mem_secundaria ⟨s.posActualDisco, hd⟩ (s.mem_fisica v)) ∧
    t.tablaProcesos = marcarDisco s.tablaProcesos (s.mem_fisica v) ∧
    t.posActualDisco = s.posActualDisco + 1 ∧ t.mem_fisica = s.mem_fisica ∧
    t.posActualMemoria = s.posActualMemoria ∧ t.falsoTimestamp = s.falsoTimestamp := by
  unfold desalojar at h
  split at h
  · rename_i hd
    cases h
    exact ⟨⟨hd, rfl⟩, rfl, rfl, rfl, rfl, rfl⟩
  · cases h

/-- `lru` is a substitution as soon as its two searches end at the same frame. -/
theorem lru_eq (s : Estado) (pid pagina : Int)
    (h : 8 ≤ s.posActualMemoria →
      buscarMasChico s.mem_fisica 0 = buscarMasChico s.mem_fisica s.marcoActual) :
    lru s pid pagina = sustituir s (buscarMasChico s.mem_fisica s.marcoActual)
      ⟨pagina, pid, s.falsoTimestamp⟩ := by
  unfold lru sustituir
  by_cases h8 : 8 ≤ s.posActualMemoria
  · rw [if_pos h8, if_pos h8, h h8]
    cases hd : desalojar s (buscarMasChico s.mem_fisica s.marcoActual) with
    | error e => rfl
    | ok s' =>
      simp only [bind, Except.bind]
      rw [(desalojar_ok hd).2.2.2.1]
  · rw [if_neg h8, if_neg h8]
    rfl

/-! ## Filling a frame -/

/-- Some frame other than `w` holds the page. -/
def Estado.ResidenteFuera (s : Estado) (w : Marco) (r : Ref) : Prop :=
  ∃ i, i ≠ w ∧ (s.mem_fisica i).ref = r

instance (s : Estado) (w : Marco) (r : Ref) : Decidable (s.ResidenteFuera w r) :=
  inferInstanceAs (Decidable (∃ _, _))

/-- `Coherente` for all frames but `w`, whose page may be overwritten: this is the state between
the eviction and the insertion. -/
structure Listo (s : Estado) (w : Marco) (vistas : List Ref) : Prop extends Tablas s vistas where
  marca : ∀ r ∈ vistas, s.marcaDe r = if s.ResidenteFuera w r then 'F' else 'D'
  en_disco : ∀ r ∈ vistas, ¬ s.ResidenteFuera w r → s.EnDisco r
  ocupado : ∀ i : Marco, i ≠ w → i < s.posActualMemoria → (s.mem_fisica i).ref ∈ vistas
  libre : ∀ i : Marco, i ≠ w → s.posActualMemoria ≤ i → s.mem_fisica i = ⟨-1, -1, -1⟩
  distintos : ∀ i j : Marco, i ≠ w → j ≠ w → i < s.posActualMemoria → j < s.posActualMemoria →
    (s.mem_fisica i).ref = (s.mem_fisica j).ref → i = j
  es_pos : s.posActualMemoria < 8 → (w : Nat) = s.posActualMemoria
  pos_disco : s.posActualDisco = s.posActualMemoria + 1 - 8
  ranura_libre : ∀ k : Ranura, s.posActualDisco ≤ k → s.mem_secundaria k = ⟨-1, -1, 0⟩

/-- The first free frame may be filled at once. -/
theorem Coherente.listo_libre (hc : Coherente s vistas) {w : Marco}
    (hw : (w : Nat) = s.posActualMemoria) : Listo s w vistas := by
  have hfuera : ∀ q ∈ vistas, s.ResidenteFuera w q ↔ s.Residente q := by
    intro q hq
    constructor
    · rintro ⟨i, _, hi⟩; exact ⟨i, hi⟩
    · rintro ⟨i, hi⟩
      refine ⟨i, ?_, hi⟩
      rintro rfl
      have := hc.ocupado_of_valida (i := i) (by rw [hi]; exact hc.validas q hq)
      omega
  refine ⟨hc.toTablas, ?_, ?_, fun i _ => hc.ocupado i, fun i _ => hc.libre i,
    fun i j _ _ => hc.distintos i j, fun _ => hw, ?_, hc.ranura_libre⟩
  · intro q hq
    simp only [hfuera q hq]
    exact hc.marca q hq
  · intro q hq hn
    exact hc.en_disco q hq fun h => hn ((hfuera q hq).2 h)
  · have := hc.pos_disco
    have := w.isLt
    omega

/-- With all frames taken, any frame may be filled once its page has been evicted. -/
theorem Coherente.listo_desalojar (hc : Coherente s vistas) (h8 : 8 ≤ s.posActualMemoria)
    {w : Marco} (h : desalojar s w = .ok t) : Listo t w vistas := by
  have hw : (w : Nat) < s.posActualMemoria := by have := w.isLt; omega
  have hg : (s.mem_fisica w).ref ∈ vistas := hc.ocupado w hw
  obtain ⟨⟨hd, hsec⟩, htab, hpd, hmem, hpm, _⟩ := desalojar_ok h
  rw [marcarDisco_eq hc hg] at htab
  generalize hG : s.mem_fisica w = g at hg hsec htab
  have hgv := hc.validas _ hg
  have hfuera : ∀ q, t.ResidenteFuera w q ↔ q ≠ g.ref ∧ s.Residente q := by
    intro q
    constructor
    · rintro ⟨i, hne, hi⟩
      rw [hmem] at hi
      refine ⟨?_, i, hi⟩
      rintro rfl
      exact hne (hc.marco_unico hgv hi (by rw [hG]))
    · rintro ⟨hq, i, hi⟩
      refine ⟨i, ?_, by rw [hmem]; exact hi⟩
      rintro rfl
      exact hq (by rw [← hi, hG])
  refine ⟨⟨hc.validas, ?_, ?_, ?_, ?_⟩, ?_, ?_, ?_, ?_, ?_, fun _ => by omega, ?_, ?_⟩
  · intro p; rw [htab, (ponerMarca_resto ..).1]; exact hc.pid p
  · intro q hq; rw [htab, (ponerMarca_resto ..).1]; exact hc.pid_vista q hq
  · intro p j; rw [htab, (ponerMarca_resto ..).2]; exact hc.paginas p j
  · intro q hq
    rw [← hc.vista_iff q hq]
    simp only [Estado.paginaDe, htab, (ponerMarca_resto ..).2]
  · intro q hq
    simp only [Estado.marcaDe, htab]
    rw [ponerMarca_memoria _ _ hgv (hc.validas q hq)]
    by_cases hqg : q = g.ref
    · rw [if_pos hqg, if_neg (fun hf => ((hfuera q).1 hf).1 hqg)]
    · rw [if_neg hqg]
      have := hc.marca q hq
      simp only [Estado.marcaDe] at this
      simp only [this, hfuera q, hqg, ne_eq, not_false_eq_true, true_and]
  · intro q hq hn
    by_cases hqg : q = g.ref
    · subst hqg
      exact ⟨⟨s.posActualDisco, hd⟩, by rw [hsec, update_self]⟩
    · obtain ⟨k, hk⟩ := hc.en_disco q hq (fun h => hn ((hfuera q).2 ⟨hqg, h⟩))
      have hkne : k ≠ ⟨s.posActualDisco, hd⟩ := by
        rintro rfl
        rw [hc.ranura_libre _ (Nat.le_refl _)] at hk
        exact absurd (hc.validas q hq) (by rw [← hk]; decide)
      exact ⟨k, by rw [hsec, update_of_ne hkne]; exact hk⟩
  · intro i _ hi; rw [hmem]; exact hc.ocupado i (by omega)
  · intro i _ hi; rw [hmem]; exact hc.libre i (by omega)
  · intro i j _ _ hi hj he
    rw [hmem] at he
    exact hc.distintos i j (by omega) (by omega) he
  · have := hc.pos_disco
    omega
  · intro k hk
    have hkne : k ≠ ⟨s.posActualDisco, hd⟩ := by
      intro he
      have := congrArg Fin.val he
      simp only at this
      omega
    rw [hsec, update_of_ne hkne]
    exact hc.ranura_libre k (by omega)

theorem insertar_ok {w : Marco} {g : Pagina} (hv : g.ref.valida) :
    ∃ t, insertar s w g = .ok t ∧ t.mem_fisica = update s.mem_fisica w g ∧
      t.tablaProcesos = ponerMarca (ponerPagina s.tablaProcesos g.ref) g.ref 'F' ∧
      t.mem_secundaria = s.mem_secundaria ∧ t.posActualMemoria = s.posActualMemoria ∧
      t.posActualDisco = s.posActualDisco ∧ t.falsoTimestamp = s.falsoTimestamp := by
  have h1 : indice 20 (g.pid - 1) = some g.ref.slot := indice_slot hv
  have h2 : indice 16 (g.numero - 1) = some g.ref.entrada := indice_entrada hv
  unfold insertar
  rw [h1, h2]
  refine ⟨_, rfl, rfl, ?_, rfl, rfl, rfl, rfl⟩
  simp only [ponerMarca, ponerPagina, update_idem, update_self]
  rfl

section

variable {w : Marco} {g : Pagina}

theorem residente_insertar (hmem : t.mem_fisica = update s.mem_fisica w g) (q : Ref) :
    t.Residente q ↔ q = g.ref ∨ s.ResidenteFuera w q := by
  constructor
  · rintro ⟨i, hi⟩
    rw [hmem] at hi
    rcases eq_or_ne i w with rfl | hiw
    · left
      rw [← hi, update_self]
    · right
      rw [update_of_ne hiw] at hi
      exact ⟨i, hiw, hi⟩
  · rintro (rfl | ⟨i, hiw, hi⟩)
    · exact ⟨w, by rw [hmem, update_self]⟩
    · exact ⟨i, by rw [hmem, update_of_ne hiw]; exact hi⟩

theorem marcaDe_insertar (hv : g.ref.valida)
    (htab : t.tablaProcesos = ponerMarca (ponerPagina s.tablaProcesos g.ref) g.ref 'F')
    {q : Ref} (hq : q.valida) : t.marcaDe q = if q = g.ref then 'F' else s.marcaDe q := by
  unfold Estado.marcaDe
  rw [htab, ponerMarca_memoria _ _ hv hq, (ponerPagina_resto ..).2]

theorem paginaDe_insertar (hv : g.ref.valida)
    (htab : t.tablaProcesos = ponerMarca (ponerPagina s.tablaProcesos g.ref) g.ref 'F')
    {q : Ref} (hq : q.valida) : t.paginaDe q = if q = g.ref then g.numero else s.paginaDe q := by
  unfold Estado.paginaDe
  rw [htab, (ponerMarca_resto ..).2, ponerPagina_paginas]
  by_cases hqg : q = g.ref
  · subst hqg
    rw [if_pos ⟨rfl, rfl⟩, if_pos rfl]
    rfl
  · rw [if_neg hqg, if_neg]
    exact fun h => hqg (Ref.eq_of_slot_entrada hq hv h.1 h.2)

/-- Filling the frame left out of account restores `Coherente`. -/
theorem Listo.insertar (hl : Listo s w vistas) (hv : g.ref.valida)
    (hpid : (s.tablaProcesos g.ref.slot).pid = g.pid) (hres : ¬ s.ResidenteFuera w g.ref)
    (hmem : t.mem_fisica = update s.mem_fisica w g)
    (htab : t.tablaProcesos = ponerMarca (ponerPagina s.tablaProcesos g.ref) g.ref 'F')
    (hsec : t.mem_secundaria = s.mem_secundaria)
    (hpm : t.posActualMemoria = s.posActualMemoria + 1)
    (hpd : t.posActualDisco = s.posActualDisco) : Coherente t (vistas ++ [g.ref]) := by
  have hvistas : ∀ q, q ∈ vistas ++ [g.ref] → q = g.ref ∨ q ∈ vistas := by
    intro q hq
    rcases List.mem_append.1 hq with h | h
    · exact Or.inr h
    · exact Or.inl (List.mem_singleton.1 h)
  have hval : ∀ q ∈ vistas ++ [g.ref], q.valida := by
    intro q hq
    rcases hvistas q hq with rfl | h
    · exact hv
    · exact hl.validas q h
  have hw : t.mem_fisica w = g := by rw [hmem, update_self]
  have hne : ∀ i, i ≠ w → t.mem_fisica i = s.mem_fisica i := fun i hi => by
    rw [hmem, update_of_ne hi]
  have hfuera := residente_insertar hmem
  -- frame `w` is the next free one, unless all are taken
  have hviejo : ∀ i : Marco, i ≠ w → i < t.posActualMemoria → i < s.posActualMemoria := by
    intro i hiw hi
    have h1 := i.isLt
    have h2 := hl.es_pos
    have h3 : (i : Nat) ≠ w := fun e => hiw (Fin.ext e)
    omega
  refine ⟨⟨hval, ?_, ?_, ?_, ?_⟩, ?_, ?_, ?_, ?_, ?_, ?_, ?_⟩
  · intro p
    rw [htab, (ponerMarca_resto ..).1, (ponerPagina_resto ..).1]
    exact hl.pid p
  · intro q hq
    rw [htab, (ponerMarca_resto ..).1, (ponerPagina_resto ..).1]
    rcases hvistas q hq with rfl | h
    · exact hpid
    · exact hl.pid_vista q h
  · intro p j
    rw [htab, (ponerMarca_resto ..).2, ponerPagina_paginas]
    split
    · rename_i h
      right
      rw [h.2]
      exact (Ref.entrada_val hv).symm
    · exact hl.paginas p j
  · intro q hq
    have hpos : 1 ≤ g.numero := hv.2.2.1
    rw [paginaDe_insertar hv htab hq, List.mem_append, List.mem_singleton]
    by_cases hqg : q = g.ref
    · simp only [hqg, if_true, or_true, iff_true]
      omega
    · simp only [hqg, if_false, or_false]
      exact hl.vista_iff q hq
  · intro q hq
    rw [marcaDe_insertar hv htab (hval q hq)]
    by_cases hqg : q = g.ref
    · rw [if_pos hqg, if_pos ((hfuera q).2 (Or.inl hqg))]
    · rw [if_neg hqg, hl.marca q ((hvistas q hq).resolve_left hqg)]
      simp only [hfuera q, hqg, false_or]
  · intro q hq hn
    have hqg : q ≠ g.ref := fun e => hn ((hfuera q).2 (Or.inl e))
    obtain ⟨k, hk⟩ := hl.en_disco q ((hvistas q hq).resolve_left hqg)
      (fun h => hn ((hfuera q).2 (Or.inr h)))
    exact ⟨k, by rw [hsec]; exact hk⟩
  · intro i hi
    rcases eq_or_ne i w with rfl | hiw
    · rw [hw]
      simp
    · rw [hne i hiw]
      exact List.mem_append_left _ (hl.ocupado i hiw (hviejo i hiw hi))
  · intro i hi
    have hiw : i ≠ w := by
      rintro rfl
      have := i.isLt
      have := hl.es_pos
      omega
    rw [hne i hiw]
    exact hl.libre i hiw (by omega)
  · intro i j hi hj he
    by_cases hiw : i = w <;> by_cases hjw : j = w
    · rw [hiw, hjw]
    · subst hiw
      rw [hw, hne j hjw] at he
      exact absurd ⟨j, hjw, he.symm⟩ hres
    · subst hjw
      rw [hw, hne i hiw] at he
      exact absurd ⟨i, hiw, he⟩ hres
    · rw [hne i hiw, hne j hjw] at he
      exact hl.distintos i j hiw hjw (hviejo i hiw hi) (hviejo j hjw hj) he
  · rw [hpd, hl.pos_disco]
    omega
  · intro k hk
    rw [hsec]
    exact hl.ranura_libre k (by omega)

end

/-- **A substitution keeps the invariant**, whichever frame was chosen among the full ones, and
fails only when it has to evict and the disk is full. -/
theorem sustituir_coherente {w : Marco} {g : Pagina} (hc : Coherente s vistas)
    (hv : g.ref.valida) (hpid : (s.tablaProcesos g.ref.slot).pid = g.pid)
    (hres : ¬ s.Residente g.ref)
    (hw : s.posActualMemoria < 8 → (w : Nat) = s.posActualMemoria) :
    (sustituir s w g = .error .discoLleno ∧ 8 ≤ s.posActualMemoria ∧ 16 ≤ s.posActualDisco) ∨
    ∃ t, sustituir s w g = .ok t ∧
      t.mem_fisica = update s.mem_fisica w g ∧
      t.posActualMemoria = s.posActualMemoria ∧ t.falsoTimestamp = s.falsoTimestamp ∧
      (∀ k : Ranura, t.mem_secundaria k = if 8 ≤ s.posActualMemoria ∧ (k : Nat) = s.posActualDisco
        then s.mem_fisica w else s.mem_secundaria k) ∧
      Coherente { t with posActualMemoria := t.posActualMemoria + 1 } (vistas ++ [g.ref]) := by
  have hresf : ∀ u : Estado, u.mem_fisica = s.mem_fisica → ¬ u.ResidenteFuera w g.ref := by
    rintro u hu ⟨i, _, hi⟩
    rw [hu] at hi
    exact hres ⟨i, hi⟩
  unfold sustituir
  by_cases h8 : 8 ≤ s.posActualMemoria
  · rw [if_pos h8]
    cases hd : desalojar s w with
    | error e =>
      unfold desalojar at hd
      split at hd
      · cases hd
      · rename_i hlleno
        cases hd
        exact Or.inl ⟨rfl, h8, by omega⟩
    | ok u =>
      right
      have hl := hc.listo_desalojar h8 hd
      obtain ⟨⟨hlt, usec⟩, utab, upd, umem, upm, uts⟩ := desalojar_ok hd
      obtain ⟨t, ht, tmem, ttab, tsec, tpm, tpd, tts⟩ := insertar_ok (s := u) (w := w) hv
      have hpidu : (u.tablaProcesos g.ref.slot).pid = g.pid := by
        rw [utab, marcarDisco_eq hc (hc.ocupado w (by omega)), (ponerMarca_resto ..).1]
        exact hpid
      refine ⟨t, ht, by rw [tmem, umem], by rw [tpm, upm], by rw [tts, uts], ?_,
        hl.insertar hv hpidu (hresf u umem) tmem ttab tsec (by simp only [tpm]) tpd⟩
      intro k
      rw [tsec, usec]
      by_cases hk : (k : Nat) = s.posActualDisco
      · have : k = ⟨s.posActualDisco, hlt⟩ := Fin.ext hk
        rw [if_pos ⟨h8, hk⟩, this, update_self]
      · have : k ≠ ⟨s.posActualDisco, hlt⟩ := fun e => hk (congrArg Fin.val e)
        rw [if_neg (fun h => hk h.2), update_of_ne this]
  · rw [if_neg h8]
    right
    obtain ⟨t, ht, tmem, ttab, tsec, tpm, tpd, tts⟩ := insertar_ok (s := s) (w := w) hv
    refine ⟨t, ht, tmem, tpm, tts, ?_, (hc.listo_libre (hw (by omega))).insertar hv hpid
      (hresf s rfl) tmem ttab tsec (by simp only [tpm]) tpd⟩
    intro k
    rw [tsec, if_neg (fun h => h8 h.1)]

end Laboratorio.Sim
