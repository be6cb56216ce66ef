import Laboratorio.Sim.Coherencia

/-!
# When `sim.c` says `Disco lleno`

Every page that is replaced takes a new slot of `mem_secundaria`, and no slot is ever given back.  So
the disk holds all pages that have left physical memory, once for each time that they left it.

* `Reparto` — then each page is in one place at most, and there have been no more faults than pages.
-/

namespace Laboratorio.Sim

open Laboratorio.Lib Function

/-- No page is in two slots of `mem_secundaria`; an empty slot has the number -1. -/
def Estado.SinRepetidos (s : Estado) : Prop :=
  ∀ k k', (s.mem_secundaria k).numero ≠ -1 → (s.mem_secundaria k).ref = (s.mem_secundaria k').ref →
    k = k'

/-- The page is in physical memory or has never been there.  In the mode `-l` a page is only replaced
when both searches for the smallest timestamp find the same frame. -/
def Unica (modo : Modo) (s : Estado) (r : Ref) : Prop :=
  (s.Residente r ∨ s.paginaDe r = -1) ∧
    (modo = .l → ¬ s.Residente r → 8 ≤ s.posActualMemoria →
      buscarMasChico s.mem_fisica 0 = buscarMasChico s.mem_fisica s.marcoActual)

instance (modo : Modo) (s : Estado) (r : Ref) : Decidable (Unica modo s r) :=
  inferInstanceAs (Decidable (_ ∧ _))

/-! ## Where the pages are -/

/-- A frame or a slot without a page. -/
def vacio : Ref := ⟨-1, -1⟩

/-- The frames `f` and the slots `d` hold pages of `V`, and each of them once. -/
structure Lugares (V : Finset Ref) (f : Marco → Ref) (d : Ranura → Ref) : Prop where
  fisica : ∀ i, f i ∈ V ∨ f i = vacio
  secundaria : ∀ k, d k ∈ V ∨ d k = vacio
  distintas : ∀ i j, f i ∈ V → f i = f j → i = j
  aparte : ∀ i k, f i ∈ V → f i ≠ d k
  sin : ∀ k k', d k ∈ V → d k = d k' → k = k'

variable {V : Finset Ref} {f : Marco → Ref} {d : Ranura → Ref} {r : Ref} {w : Marco} {k : Ranura}

/-- A new page comes into frame `w`, and what was there is lost. -/
theorem Lugares.poner (h : Lugares V f d) (hr : r ∉ V) (hvacio : r ≠ vacio) :
    Lugares (insert r V) (update f w r) d := by
  have hf : ∀ i, f i ≠ r := by
    intro i hi
    rcases h.fisica i with hmem | he
    · exact hr (hi ▸ hmem)
    · exact hvacio (hi.symm.trans he)
  have hd : ∀ k, d k ≠ r := by
    intro k hk
    rcases h.secundaria k with hmem | he
    · exact hr (hk ▸ hmem)
    · exact hvacio (hk.symm.trans he)
  have hold : ∀ {q}, q ∈ insert r V → q ≠ r → q ∈ V := fun hq hne =>
    (Finset.mem_insert.1 hq).resolve_left hne
  refine ⟨fun i => ?_, fun k => ?_, fun i j hi hij => ?_, fun i k hi => ?_, fun k k' hk => ?_⟩
  · by_cases hi : i = w
    · rw [hi, update_self]
      exact .inl (Finset.mem_insert_self _ _)
    · rw [update_of_ne hi]
      exact (h.fisica i).imp_left Finset.mem_insert_of_mem
  · exact (h.secundaria k).imp_left Finset.mem_insert_of_mem
  · by_cases hiw : i = w
    · by_cases hjw : j = w
      · rw [hiw, hjw]
      · rw [hiw, update_self, update_of_ne hjw] at hij
        exact absurd hij.symm (hf j)
    · rw [update_of_ne hiw] at hi hij
      by_cases hjw : j = w
      · rw [hjw, update_self] at hij
        exact absurd hij (hf i)
      · rw [update_of_ne hjw] at hij
        exact h.distintas i j (hold hi (hf i)) hij
  · by_cases hiw : i = w
    · rw [hiw, update_self]
      exact (hd k).symm
    · rw [update_of_ne hiw] at hi ⊢
      exact h.aparte i k (hold hi (hf i))
  · exact h.sin k k' (hold hk (hd k))

theorem Lugares.olvidar (h : Lugares V f d) (hV : vacio ∉ V) (w : Marco) :
    Lugares V (update f w vacio) d := by
  have hne : ∀ {i}, update f w vacio i ∈ V → i ≠ w := by
    rintro i hi rfl
    rw [update_self] at hi
    exact hV hi
  refine ⟨fun i => ?_, h.secundaria, fun i j hi hij => ?_, fun i k hi => ?_, h.sin⟩
  · by_cases hi : i = w
    · rw [hi, update_self]
      exact .inr rfl
    · rw [update_of_ne hi]
      exact h.fisica i
  · have hiw := hne hi
    have hjw := hne (hij ▸ hi)
    rw [update_of_ne hiw] at hi hij
    rw [update_of_ne hjw] at hij
    exact h.distintas i j hi hij
  · have hiw := hne hi
    rw [update_of_ne hiw] at hi ⊢
    exact h.aparte i k hi

/-- A page that is nowhere else goes to slot `k`. -/
theorem Lugares.guardar {q : Ref} (h : Lugares V f d) (hq : q ∈ V ∨ q = vacio)
    (hf : ∀ i, f i ∈ V → f i ≠ q) (hd : q ∈ V → ∀ k, q ≠ d k) (k : Ranura) :
    Lugares V f (update d k q) := by
  refine ⟨h.fisica, fun k' => ?_, h.distintas, fun i k' hi => ?_, fun k1 k2 hk hkk => ?_⟩
  · by_cases hk : k' = k
    · rw [hk, update_self]
      exact hq
    · rw [update_of_ne hk]
      exact h.secundaria k'
  · by_cases hk : k' = k
    · rw [hk, update_self]
      exact hf i hi
    · rw [update_of_ne hk]
      exact h.aparte i k' hi
  · by_cases hk1 : k1 = k
    · by_cases hk2 : k2 = k
      · rw [hk1, hk2]
      · rw [hk1, update_self] at hk hkk
        rw [update_of_ne hk2] at hkk
        exact absurd hkk (hd hk k2)
    · rw [update_of_ne hk1] at hk hkk
      by_cases hk2 : k2 = k
      · rw [hk2, update_self] at hkk
        exact absurd hkk.symm (hd (hkk ▸ hk) k1)
      · rw [update_of_ne hk2] at hkk
        exact h.sin k1 k2 hk hkk

/-- The page of frame `w` goes to slot `k`. -/
theorem Lugares.mover (h : Lugares V f d) (hV : vacio ∉ V) (k : Ranura) (w : Marco) :
    Lugares V (update f w vacio) (update d k (f w)) := by
  refine (h.olvidar hV w).guardar (h.fisica w) (fun i hi he => ?_) (fun hw k' => h.aparte w k' hw) k
  by_cases hiw : i = w
  · rw [hiw, update_self] at hi
    exact hV hi
  · rw [update_of_ne hiw] at hi he
    exact hiw (h.distintas i w hi he)

/-! ## The invariant -/

def Estado.marcos (s : Estado) (i : Marco) : Ref := (s.mem_fisica i).ref

def Estado.ranuras (s : Estado) (k : Ranura) : Ref := (s.mem_secundaria k).ref

/-- The pages `V` have been referenced. -/
structure Reparto (V : Finset Ref) (s : Estado) : Prop where
  validas : ∀ r ∈ V, r.valida
  pid : ∀ r ∈ V, (s.tablaProcesos r.slot).pid ≠ -1
  abierta : ∀ r ∈ V, s.paginaDe r ≠ -1
  fallos : s.posActualMemoria ≤ V.card
  disco : s.posActualDisco = s.posActualMemoria - 8
  lugares : Lugares V s.marcos s.ranuras

variable {s t : Estado} {modo : Modo} {basura : Nat → Int} {g : Pagina} {i : Marco}

theorem reparto_inicial : Reparto ∅ Estado.inicial := by
  refine ⟨nofun, nofun, nofun, Nat.le_refl _, rfl, ?_⟩
  exact ⟨fun _ => .inr rfl, fun _ => .inr rfl, nofun, nofun, nofun⟩

theorem Reparto.sinRepetidos (h : Reparto V s) : s.SinRepetidos := by
  intro k k' hk heq
  rcases h.lugares.secundaria k with hmem | hvacio
  · exact h.lugares.sin k k' hmem heq
  · have : (s.mem_secundaria k).numero = -1 := congrArg Ref.pagina hvacio
    exact absurd this hk

theorem Reparto.residente (h : Reparto V s) (hv : r.valida) (hres : s.Residente r) : r ∈ V := by
  obtain ⟨i, rfl⟩ := hres
  rcases h.lugares.fisica i with hmem | hvacio
  · exact hmem
  · have : vacio.valida := by
      rw [← hvacio]
      exact hv
    exact absurd this (by decide)

theorem Reparto.vacio_notMem (h : Reparto V s) : vacio ∉ V := fun hmem =>
  absurd (h.validas vacio hmem) (by decide)

/-- A new process is entered, the clock ticks, or a timestamp is renewed. -/
theorem Reparto.congr (h : Reparto V s)
    (hpid : ∀ p, (s.tablaProcesos p).pid ≠ -1 → (t.tablaProcesos p).pid ≠ -1)
    (hpag : ∀ p j, (t.tablaProcesos p).paginas j = (s.tablaProcesos p).paginas j)
    (hpm : t.posActualMemoria = s.posActualMemoria) (hpd : t.posActualDisco = s.posActualDisco)
    (hmem : t.marcos = s.marcos) (hsec : t.ranuras = s.ranuras) : Reparto V t := by
  refine ⟨h.validas, fun r hr => hpid _ (h.pid r hr), fun r hr => ?_, ?_, ?_, ?_⟩
  · unfold Estado.paginaDe
    rw [hpag]
    exact h.abierta r hr
  · rw [hpm]
    exact h.fallos
  · rw [hpm, hpd]
    exact h.disco
  · rw [hmem, hsec]
    exact h.lugares

theorem Reparto.refrescar (h : Reparto V s) (i : Marco) : Reparto V (refrescar s.tic i) :=
  h.congr (fun _ hp => hp) (fun _ _ => rfl) rfl rfl (funext fun j => refrescar_ref s.tic i j) rfl

theorem crearProceso_pid (s : Estado) (p q : Slot) (hr : r.valida) (hq : (s.tablaProcesos q).pid ≠ -1 ∨ q = p) :
    ((crearProceso s p r.pid).tablaProcesos q).pid ≠ -1 := by
  obtain ⟨hpos, -⟩ := hr
  unfold crearProceso
  by_cases hqp : q = p
  · subst hqp
    simp only [update_self]
    omega
  · simp only [update_of_ne hqp]
    exact hq.resolve_right hqp

theorem crearProceso_paginas (s : Estado) (p q : Slot) (n : Int) :
    ((crearProceso s p n).tablaProcesos q).paginas = (s.tablaProcesos q).paginas := by
  unfold crearProceso
  by_cases hqp : q = p
  · subst hqp
    simp only [update_self]
  · simp only [update_of_ne hqp]

/-- One iteration is a hit, or the replacement for a page that is not there. -/
theorem Reparto.iteracion_cases (modo : Modo) (basura : Nat → Int) (h : Reparto V s) (hv : r.valida) :
    (∃ i, s.marcos i = r ∧ iteracion modo basura s r = .ok (Sim.refrescar s.tic i)) ∨
      (¬ s.Residente r ∧ ∃ t, iteracion modo basura s r = reemplazar modo basura t r ∧ Reparto V t ∧
        (t.tablaProcesos r.slot).pid ≠ -1 ∧ t.mem_fisica = s.mem_fisica ∧
        t.posActualMemoria = s.posActualMemoria) := by
  have hrange : ¬ (r.pid < 0 ∨ 20 < r.pid) := by
    obtain ⟨hpid1, hpid2, -⟩ := hv
    omega
  unfold iteracion
  rw [if_neg hrange, indice_slot hv]
  dsimp only
  split
  · rename_i hnew
    have hnew : (s.tablaProcesos r.slot).pid = -1 := hnew
    refine .inr ⟨fun hres => h.pid r (h.residente hv hres) hnew, _, rfl, ?_, ?_, rfl, rfl⟩
    · refine h.congr (fun p hp => ?_) (fun p j => ?_) rfl rfl rfl rfl
      · exact crearProceso_pid _ _ p hv (.inl hp)
      · rw [crearProceso_paginas]
    · exact crearProceso_pid _ _ _ hv (.inr rfl)
  · rename_i hold
    split
    · rename_i i hi
      exact .inl ⟨i, enMemoria_some hi, rfl⟩
    · rename_i hnone
      exact .inr ⟨enMemoria_none hnone, _, rfl, h.congr (fun _ hp => hp) (fun _ _ => rfl) rfl rfl rfl rfl,
        hold, rfl, rfl⟩

/-! ## A fault -/

theorem marcarDisco_cases (tabla : Slot → Proceso) (g : Pagina) : marcarDisco tabla g = tabla ∨
    ∃ p j, marcarDisco tabla g = update tabla p
      { tabla p with memoria := update (tabla p).memoria j 'D' } := by
  unfold marcarDisco
  split
  · exact .inl rfl
  · split
    · exact .inl rfl
    · exact .inr ⟨_, _, rfl⟩

theorem marcarDisco_rest (tabla : Slot → Proceso) (g : Pagina) (q : Slot) :
    (marcarDisco tabla g q).pid = (tabla q).pid ∧ (marcarDisco tabla g q).paginas = (tabla q).paginas := by
  rcases marcarDisco_cases tabla g with he | ⟨p, j, he⟩
  · rw [he]
    exact ⟨rfl, rfl⟩
  · rw [he]
    by_cases hq : q = p
    · subst hq
      rw [update_self]
      exact ⟨rfl, rfl⟩
    · rw [update_of_ne hq]
      exact ⟨rfl, rfl⟩

/-- The page of the frame is moved to the disk, and the frame is as good as empty. -/
theorem Reparto.desalojar (h : Reparto V s) (h8 : 8 ≤ s.posActualMemoria) (hd : s.posActualDisco < 16)
    (w : Marco) : ∃ t, desalojar s w = .ok t ∧
      Lugares V (update t.marcos w vacio) t.ranuras ∧
      (∀ p, (t.tablaProcesos p).pid = (s.tablaProcesos p).pid) ∧
      (∀ p, (t.tablaProcesos p).paginas = (s.tablaProcesos p).paginas) ∧
      t.posActualMemoria = s.posActualMemoria ∧ t.posActualDisco = s.posActualMemoria + 1 - 8 := by
  have hran : (fun k => (update s.mem_secundaria ⟨s.posActualDisco, hd⟩ (s.mem_fisica w) k).ref) =
      update s.ranuras ⟨s.posActualDisco, hd⟩ (s.marcos w) := by
    funext k
    by_cases hk : k = ⟨s.posActualDisco, hd⟩
    · rw [hk, update_self, update_self]
      rfl
    · rw [update_of_ne hk, update_of_ne hk]
      rfl
  unfold Sim.desalojar
  rw [dif_pos hd]
  refine ⟨_, rfl, ?_, fun p => (marcarDisco_rest _ _ p).1, fun p => (marcarDisco_rest _ _ p).2, rfl, ?_⟩
  · have := h.lugares.mover h.vacio_notMem ⟨s.posActualDisco, hd⟩ w
    rw [← hran] at this
    exact this
  · show s.posActualDisco + 1 = _
    rw [h.disco]
    omega

theorem lugares_insertar (hr : g.ref ∉ V) (hv : g.ref.valida)
    (h : Lugares V (update s.marcos w vacio) s.ranuras)
    (ht : t.mem_fisica = update s.mem_fisica w g) (hd : t.mem_secundaria = s.mem_secundaria) :
    Lugares (insert g.ref V) t.marcos t.ranuras := by
  have hvacio : g.ref ≠ vacio := by
    intro he
    rw [he] at hv
    exact absurd hv (by decide)
  have hm : t.marcos = update s.marcos w g.ref := by
    funext i
    unfold Estado.marcos
    rw [ht]
    by_cases hi : i = w
    · rw [hi, update_self, update_self]
    · rw [update_of_ne hi, update_of_ne hi]
  have hran : t.ranuras = s.ranuras := by
    unfold Estado.ranuras
    rw [hd]
  have hput := h.poner (w := w) hr hvacio
  rw [update_idem] at hput
  rw [hm, hran]
  exact hput

theorem Reparto.insertar (h : Reparto V s) (hr : g.ref ∉ V) (hv : g.ref.valida)
    (hpid : (s.tablaProcesos g.ref.slot).pid ≠ -1) {u : Estado}
    (hl : Lugares V (update u.marcos w vacio) u.ranuras)
    (hup : ∀ p, (u.tablaProcesos p).pid = (s.tablaProcesos p).pid)
    (hupag : ∀ p, (u.tablaProcesos p).paginas = (s.tablaProcesos p).paginas)
    (hpm : u.posActualMemoria = s.posActualMemoria)
    (hpd : u.posActualDisco = s.posActualMemoria + 1 - 8) :
    ∃ t, insertar u w g = .ok t ∧
      Reparto (insert g.ref V) { t with posActualMemoria := t.posActualMemoria + 1 } := by
  obtain ⟨t, hins, hmem, htab, hsec, htm, htd, -⟩ := insertar_ok (s := u) (w := w) hv
  refine ⟨t, hins, fun q hq => ?_, fun q hq => ?_, fun q hq => ?_, ?_, ?_, ?_⟩
  · rcases Finset.mem_insert.1 hq with rfl | hq
    · exact hv
    · exact h.validas q hq
  · show (t.tablaProcesos q.slot).pid ≠ -1
    rw [htab, (ponerMarca_resto ..).1, (ponerPagina_resto ..).1, hup]
    rcases Finset.mem_insert.1 hq with rfl | hq
    · exact hpid
    · exact h.pid q hq
  · show (t.tablaProcesos q.slot).paginas q.entrada ≠ -1
    rw [htab, (ponerMarca_resto ..).2, ponerPagina_paginas]
    split
    · have := hv.2.2.1
      omega
    · rename_i hne
      rcases Finset.mem_insert.1 hq with rfl | hq
      · exact absurd ⟨rfl, rfl⟩ hne
      · rw [hupag]
        exact h.abierta q hq
  · show t.posActualMemoria + 1 ≤ _
    rw [Finset.card_insert_of_notMem hr, htm, hpm]
    exact Nat.succ_le_succ h.fallos
  · show t.posActualDisco = t.posActualMemoria + 1 - 8
    rw [htd, htm, hpm, hpd]
  · exact lugares_insertar hr hv hl hmem hsec

theorem Reparto.sustituir (h : Reparto V s) (hr : g.ref ∉ V) (hv : g.ref.valida)
    (hpid : (s.tablaProcesos g.ref.slot).pid ≠ -1) (w : Marco) :
    (sustituir s w g = .error .discoLleno ∧ 24 ≤ V.card) ∨
      ∃ t, sustituir s w g = .ok t ∧
        Reparto (insert g.ref V) { t with posActualMemoria := t.posActualMemoria + 1 } := by
  unfold Sim.sustituir
  by_cases h8 : 8 ≤ s.posActualMemoria
  · rw [if_pos h8]
    by_cases hd : s.posActualDisco < 16
    · obtain ⟨u, hdes, hl, hup, hupag, hpm, hpd⟩ := h.desalojar h8 hd w
      obtain ⟨t, hins, ht⟩ := h.insertar hr hv hpid hl hup hupag hpm hpd
      refine .inr ⟨t, ?_, ht⟩
      rw [hdes]
      exact hins
    · have hfallos := h.fallos
      have hdisco := h.disco
      refine .inl ⟨?_, by omega⟩
      unfold Sim.desalojar
      rw [dif_neg hd]
      rfl
  · rw [if_neg h8]
    have hdisco := h.disco
    obtain ⟨t, hins, ht⟩ := h.insertar hr hv hpid (h.lugares.olvidar h.vacio_notMem w) (fun _ => rfl)
      (fun _ => rfl) rfl (by omega)
    exact .inr ⟨t, hins, ht⟩

/-- Under `Unica` both replacement functions overwrite the frame that they have copied. -/
theorem reemplazar_eq (basura : Nat → Int) (r : Ref) (h : modo = .l → 8 ≤ s.posActualMemoria →
      buscarMasChico s.mem_fisica 0 = buscarMasChico s.mem_fisica s.marcoActual) :
    ∃ w g, g.ref = r ∧ reemplazar modo basura s r = (sustituir s w g).bind fun t =>
      .ok { t with posActualMemoria := t.posActualMemoria + 1 } := by
  cases modo with
  | f => exact ⟨s.marcoActual, ⟨r.pagina, r.pid, basura s.posActualMemoria⟩, rfl, rfl⟩
  | l =>
    refine ⟨buscarMasChico s.mem_fisica s.marcoActual, ⟨r.pagina, r.pid, s.falsoTimestamp⟩, rfl, ?_⟩
    rw [← lru_eq s r.pid r.pagina (h rfl)]
    rfl

/-- One step under the condition: the disk is full only if 24 other pages have been seen. -/
theorem Reparto.iteracion (basura : Nat → Int) (h : Reparto V s) (hv : r.valida) (hu : Unica modo s r) :
    (iteracion modo basura s r = .error .discoLleno ∧ r ∉ V ∧ 24 ≤ V.card) ∨
      ∃ t, iteracion modo basura s r = .ok t ∧ Reparto (insert r V) t := by
  rcases h.iteracion_cases modo basura hv with ⟨i, hi, hit⟩ | ⟨hres, t, hit, ht, hpid, hmem, hpm⟩
  · have hr : r ∈ V := h.residente hv ⟨i, hi⟩
    refine .inr ⟨_, hit, ?_⟩
    rw [Finset.insert_eq_self.2 hr]
    exact h.refrescar i
  · have hr : r ∉ V := fun hr => h.abierta r hr (hu.1.resolve_left hres)
    obtain ⟨w, g, rfl, hree⟩ := reemplazar_eq (s := t) basura r
      (fun hl h8 => by
        have := hu.2 hl hres (hpm ▸ h8)
        unfold Estado.marcoActual at this ⊢
        rw [hmem, hpm]
        exact this)
    rw [hit, hree]
    rcases ht.sustituir hr hv hpid w with ⟨herr, hcard⟩ | ⟨u, hok, hu'⟩
    · rw [herr]
      exact .inl ⟨rfl, hr, hcard⟩
    · rw [hok]
      exact .inr ⟨_, rfl, hu'⟩

/-! ## Runs -/

theorem reparto_run {refs : List Ref} (hv : ∀ r ∈ refs, r.valida) (hcard : refs.toFinset.card ≤ 24)
    (hu : Meets (iteracion modo basura) Estado.inicial (Unica modo) refs) :
    ∃ s, simular modo basura refs = .ok s ∧ Reparto refs.toFinset s := by
  induction refs using List.reverseRecOn with
  | nil => exact ⟨_, rfl, reparto_inicial⟩
  | append_singleton refs r ih =>
    have hset : (refs ++ [r]).toFinset = insert r refs.toFinset := by
      ext q
      rw [List.mem_toFinset, Finset.mem_insert, List.mem_toFinset, List.mem_append,
        List.mem_singleton, or_comm]
    rw [hset] at hcard ⊢
    obtain ⟨hu, hr⟩ := meets_concat.1 hu
    have hsub := Finset.card_le_card (Finset.subset_insert r refs.toFinset)
    obtain ⟨s, hrun, hs⟩ := ih (fun q hq => hv q (List.mem_append_left _ hq)) (hsub.trans hcard) hu
    have hrv := hv r (List.mem_append_right _ (List.mem_singleton_self r))
    rcases hs.iteracion basura hrv (hr s hrun) with ⟨-, hnew, hfull⟩ | ⟨t, hit, ht⟩
    · rw [Finset.card_insert_of_notMem hnew] at hcard
      omega
    · exact ⟨t, run_concat_ok.2 ⟨s, hrun, hit⟩, ht⟩

/-- **The disk is large enough.**  In either mode, for references to at most 24 pages all of whose steps
meet `Unica`, the simulator does not exit with `Disco lleno`, and no page is ever in two slots of
`mem_secundaria`. -/
theorem disco_alcanza (modo : Modo) (basura : Nat → Int) (refs : List Ref) (hv : ∀ r ∈ refs, r.valida)
    (hcard : refs.toFinset.card ≤ 24)
    (hu : Meets (iteracion modo basura) Estado.inicial (Unica modo) refs) :
    simular modo basura refs ≠ .error .discoLleno ∧
      ∀ pre, pre <+: refs → ∃ s, simular modo basura pre = .ok s ∧ s.SinRepetidos := by
  have hpre : ∀ pre, pre <+: refs → ∃ s, simular modo basura pre = .ok s ∧ s.SinRepetidos := by
    intro pre hp
    have hsub : pre.toFinset ⊆ refs.toFinset := fun q hq =>
      List.mem_toFinset.2 (hp.subset (List.mem_toFinset.1 hq))
    obtain ⟨s, hrun, hs⟩ := reparto_run (fun r hr => hv r (hp.subset hr))
      ((Finset.card_le_card hsub).trans hcard) (hu.of_prefix hp)
    exact ⟨s, hrun, hs.sinRepetidos⟩
  refine ⟨?_, hpre⟩
  obtain ⟨s, hrun, -⟩ := hpre refs (List.prefix_refl _)
  rw [hrun]
  nofun

/-- The pages 1 to `n` of process 1. -/
def paginasHasta (n : Nat) : List Ref := (List.range n).map fun i => ⟨1, i + 1⟩

/-- Ten pages, each of them once. -/
theorem disco_alcanza_diez :
    ∃ s, simular .f (fun _ => 0) (paginasHasta 10) = .ok s ∧ s.SinRepetidos :=
  (disco_alcanza .f (fun _ => 0) (paginasHasta 10) (by decide) (by decide)
    (meets_of_meetsB (by decide +kernel))).2 _ (List.prefix_refl _)

/-- Nine pages in turn: the 25th reference finds the disk full, and before it page 1 is there twice. -/
theorem disco_lleno_nueve :
    simular .f (fun _ => 0) (paginasHasta 9 ++ paginasHasta 9 ++ paginasHasta 7) = .error .discoLleno ∧
      (paginasHasta 9 ++ paginasHasta 9 ++ paginasHasta 7).toFinset.card = 9 ∧
      ∃ s, simular .f (fun _ => 0) (paginasHasta 9 ++ paginasHasta 9) = .ok s ∧ ¬ s.SinRepetidos := by
  refine ⟨by decide +kernel, by decide, ?_⟩
  obtain ⟨s, hs, hpage, hsame⟩ :
      ∃ s, simular .f (fun _ => 0) (paginasHasta 9 ++ paginasHasta 9) = .ok s ∧
        (s.mem_secundaria 0).numero ≠ -1 ∧ (s.mem_secundaria 0).ref = (s.mem_secundaria 9).ref := by
    decide +kernel
  exact ⟨s, hs, fun h => absurd (h 0 9 hpage hsame) (by decide)⟩

end Laboratorio.Sim
