import Laboratorio.Lib.Paging
import Laboratorio.Lib.Search
import Laboratorio.Sim.Coherencia

/-!
# When `sim.c -l` is least recently used replacement

The abstract side is `Lib.Paging.recency refs`: textbook LRU with 8 frames keeps
`(recency refs).take 8` resident and evicts the last page of that list.

`lru` looks for its victim twice.  The first search starts at frame 0 and picks the page that is
copied to disk.  The second search starts at `posActualMemoria % 8`, a variable of the same name
in the outer scope, and picks the frame that is overwritten.  Both move only on a strict
improvement over frame 0, so they part exactly when frame 0 is the least recently used one and
`posActualMemoria % 8` is not 0: the page of frame 0 is copied to disk and another page is lost.
-/

namespace Laboratorio.Sim

open Laboratorio.Lib Laboratorio.Lib.Paging Function List

variable {s t : Estado} {refs : List Ref} {r : Ref}

/-! ## The two searches -/

section

variable {mem : Marco → Pagina} (u : Marco)

theorem buscarMasChico_eq_minScan : buscarMasChico mem u =
    (minScan (fun i => (mem i).timestamp) (List.finRange 8) (mem 0).timestamp u).2 := rfl

/-- When frame 0 is the oldest, the search stays where it started. -/
theorem buscarMasChico_of_forall (h : ∀ i, (mem 0).timestamp ≤ (mem i).timestamp) :
    buscarMasChico mem u = u := by
  rw [buscarMasChico_eq_minScan, minScan_of_forall fun i _ => h i]

/-- Otherwise it ends at the first of the oldest frames, wherever it started. -/
theorem buscarMasChico_of_exists (h : ∃ i, (mem i).timestamp < (mem 0).timestamp) (j : Marco) :
    (mem (buscarMasChico mem u)).timestamp ≤ (mem j).timestamp ∧
      (j < buscarMasChico mem u →
        (mem (buscarMasChico mem u)).timestamp < (mem j).timestamp) := by
  obtain ⟨i, hi⟩ := h
  exact minScan_of_exists (f := fun i => (mem i).timestamp) (pairwise_lt_finRange 8)
    ⟨i, mem_finRange i, hi⟩ j (mem_finRange j)

theorem buscarMasChico_eq (h : ∃ i, (mem i).timestamp < (mem 0).timestamp) {w : Marco}
    (hmin : ∀ j, (mem w).timestamp ≤ (mem j).timestamp)
    (hfirst : ∀ j < w, (mem w).timestamp < (mem j).timestamp) : buscarMasChico mem u = w := by
  have hb := buscarMasChico_of_exists u h
  rcases lt_trichotomy (buscarMasChico mem u) w with hlt | heq | hgt
  · exact absurd (hfirst _ hlt) (not_lt.2 (hb w).1)
  · exact heq
  · exact absurd ((hb w).2 hgt) (not_lt.2 (hmin _))

end

/-! ## What refinement means -/

/-- Pages and marks are those of textbook LRU after `refs`. -/
structure RefinaLru (refs : List Ref) (s : Estado) : Prop where
  /-- The frames hold the `min 8 (number of distinct pages)` most recent distinct pages … -/
  residentes : ∀ r : Ref, r.valida → (s.Residente r ↔ r ∈ (recency refs).take 8)
  marcos : ∀ i : Marco, s.mem_fisica i = ⟨-1, -1, -1⟩ ∨
    (s.mem_fisica i).ref ∈ (recency refs).take 8
  /-- … each in one frame only. -/
  distintos : ∀ (i j : Marco) (r : Ref), r.valida → (s.mem_fisica i).ref = r →
    (s.mem_fisica j).ref = r → i = j
  marca : ∀ r : Ref, r.valida → s.paginaDe r ≠ -1 → (s.marcaDe r = 'F' ↔ s.Residente r)
  disco : ∀ r : Ref, r.valida → s.paginaDe r ≠ -1 → s.marcaDe r = 'D' → s.EnDisco r
  /-- No referenced page is in neither store. -/
  alguna : ∀ r ∈ refs, s.Residente r ∨ s.EnDisco r

/-- The frame overwritten by the fault on `r` is the one whose page has just been copied to
disk, and that page is the least recently referenced resident one. -/
def VictimaLru (refs : List Ref) (s t : Estado) (r : Ref) : Prop :=
  ∃ (w : Marco) (g : Pagina) (k : Ranura), g.ref = r ∧ (k : Nat) = s.posActualDisco ∧
    t.mem_fisica = update s.mem_fisica w g ∧
    t.mem_secundaria = update s.mem_secundaria k (s.mem_fisica w) ∧
    ((recency refs).take 8).getLast? = some (s.mem_fisica w).ref

/-- At every point of the run before `Disco lleno`, the simulator is where textbook LRU is. -/
def CumpleLru (basura : Nat → Int) (refs : List Ref) : Prop :=
  (∀ e, simular .l basura refs = .error e → e = .discoLleno) ∧
  ∀ pre, pre <+: refs → ∀ s, simular .l basura pre = .ok s →
    RefinaLru pre s ∧
    ∀ r t, pre ++ [r] <+: refs → iteracion .l basura s r = .ok t → ¬ s.Residente r →
      8 ≤ s.posActualMemoria → VictimaLru pre s t r

/-- The two searches of `lru` agree: if the reference is a fault with memory full and room on
disk, then frame 0 is not the oldest, or the next position is a multiple of 8. -/
def VictimaComun (s : Estado) (r : Ref) : Prop :=
  ¬ s.Residente r → 8 ≤ s.posActualMemoria → s.posActualDisco < 16 →
    s.posActualMemoria % 8 = 0 ∨ ∃ i, (s.mem_fisica i).timestamp < (s.mem_fisica 0).timestamp

instance (s : Estado) (r : Ref) : Decidable (VictimaComun s r) :=
  inferInstanceAs (Decidable (_ → _))

/-! ## The invariant -/

/-- The filled frames, most recently used first. -/
structure Orden (refs : List Ref) (s : Estado) (ord : List Marco) : Prop where
  nodup : ord.Nodup
  mem_iff : ∀ i : Marco, i ∈ ord ↔ (i : Nat) < s.posActualMemoria
  length : ord.length = min 8 s.posActualMemoria
  paginas : ord.map (fun i => (s.mem_fisica i).ref) = (recency refs).take 8
  tiempos : ord.Pairwise fun i j => (s.mem_fisica j).timestamp < (s.mem_fisica i).timestamp

/-- The relation kept in mode `-l` while the two searches agree. -/
structure LruInv (refs : List Ref) (s : Estado) : Prop where
  coherente : Coherente s refs
  reloj : s.falsoTimestamp = refs.length
  orden : ∃ ord, Orden refs s ord
  rango : ∀ i : Marco, i < s.posActualMemoria →
    1 ≤ (s.mem_fisica i).timestamp ∧ (s.mem_fisica i).timestamp ≤ refs.length

theorem LruInv.inicial : LruInv [] Estado.inicial := by
  refine ⟨Coherente.inicial, rfl, ⟨[], ?_⟩, fun i h => by simp [Estado.inicial] at h⟩
  exact ⟨nodup_nil, fun i => by simp [Estado.inicial], rfl, rfl, List.Pairwise.nil⟩

theorem LruInv.residente_iff (h : LruInv refs s) (hv : r.valida) :
    s.Residente r ↔ r ∈ (recency refs).take 8 := by
  obtain ⟨ord, ho⟩ := h.orden
  rw [← ho.paginas, mem_map]
  constructor
  · rintro ⟨i, hi⟩
    exact ⟨i, (ho.mem_iff i).2 (h.coherente.ocupado_of_valida (by rw [hi]; exact hv)), hi⟩
  · rintro ⟨i, _, hi⟩
    exact ⟨i, hi⟩

theorem LruInv.refina (h : LruInv refs s) : RefinaLru refs s := by
  have hc := h.coherente
  have hmarca : ∀ q : Ref, q.valida → s.paginaDe q ≠ -1 →
      s.marcaDe q = if s.Residente q then 'F' else 'D' :=
    fun q hq hp => hc.marca q ((hc.vista_iff q hq).1 hp)
  refine ⟨fun q hq => h.residente_iff hq, ?_, fun i j q hq => hc.marco_unico hq, ?_, ?_, ?_⟩
  · intro i
    rcases Nat.lt_or_ge i s.posActualMemoria with hi | hi
    · right
      exact (h.residente_iff (hc.validas _ (hc.ocupado i hi))).1 ⟨i, rfl⟩
    · exact Or.inl (hc.libre i hi)
  · intro q hq hp
    rw [hmarca q hq hp]
    split
    · rename_i hr; simp [hr]
    · rename_i hr; simp [hr]
  · intro q hq hp hd
    rw [hmarca q hq hp] at hd
    split at hd
    · exact absurd hd (by decide)
    · rename_i hr
      exact hc.en_disco q ((hc.vista_iff q hq).1 hp) hr
  · intro q hq
    rcases Decidable.em (s.Residente q) with hr | hr
    · exact Or.inl hr
    · exact Or.inr (hc.en_disco q hq hr)

/-! ## One iteration -/

/-- A hit moves its frame to the front of the order. -/
theorem Orden.acierto {ord : List Marco} (ho : Orden refs s ord) {i : Marco} (hmem : i ∈ ord)
    (hlast : ∀ j ∈ ord, (s.mem_fisica j).timestamp < s.falsoTimestamp) :
    Orden (refs ++ [(s.mem_fisica i).ref]) (refrescar s i) (i :: ord.erase i) := by
  have hself : ((refrescar s i).mem_fisica i).timestamp = s.falsoTimestamp := by
    simp only [refrescar, update_self]
  refine ⟨nodup_cons.2 ⟨ho.nodup.not_mem_erase, ho.nodup.erase i⟩, ?_, ?_, ?_, ?_⟩
  · intro j
    show j ∈ i :: ord.erase i ↔ (j : Nat) < s.posActualMemoria
    rw [mem_cons, ho.nodup.mem_erase_iff, ← ho.mem_iff j]
    rcases eq_or_ne j i with rfl | hj
    · simp [hmem]
    · simp [hj]
  · show (i :: ord.erase i).length = min 8 s.posActualMemoria
    rw [← ho.length, length_cons, length_erase_of_mem hmem]
    have := length_pos_of_mem hmem
    omega
  · simp only [refrescar_ref]
    have hn : (ord.map fun j => (s.mem_fisica j).ref).Nodup := by
      rw [ho.paginas]
      exact (recency_nodup refs).sublist (take_sublist 8 _)
    have hres : (s.mem_fisica i).ref ∈ (recency refs).take 8 := by
      rw [← ho.paginas]
      exact mem_map_of_mem hmem
    rw [recency_take_hit hres, ← ho.paginas, map_cons,
      map_erase_of_nodup (f := fun j => (s.mem_fisica j).ref) hn hmem]
  · rw [pairwise_cons]
    refine ⟨?_, (ho.tiempos.sublist erase_sublist).imp_of_mem ?_⟩
    · intro j hj
      rw [ho.nodup.mem_erase_iff] at hj
      rw [hself, refrescar_of_ne hj.1]
      exact hlast j hj.2
    · intro j k hj hk hlt
      rw [refrescar_of_ne (ho.nodup.mem_erase_iff.1 hj).1,
        refrescar_of_ne (ho.nodup.mem_erase_iff.1 hk).1]
      exact hlt

theorem LruInv.acierto (h : LruInv refs s) (hv : r.valida) (hlen : refs.length + 1 < 2 ^ 31)
    {i : Marco} (hi : (s.mem_fisica i).ref = r) : LruInv (refs ++ [r]) (refrescar s.tic i) := by
  have hc := h.coherente
  have hocc : i < s.posActualMemoria := hc.ocupado_of_valida (by rw [hi]; exact hv)
  have hreloj : s.tic.falsoTimestamp = refs.length + 1 := by
    show wrap32 (s.falsoTimestamp + 1) = _
    rw [h.reloj, wrap32_of_range (by omega) (by omega)]
  obtain ⟨ord, ho⟩ := h.orden
  have ho' : Orden refs s.tic ord := ⟨ho.1, ho.2, ho.3, ho.4, ho.5⟩
  have hlast : ∀ j ∈ ord, (s.tic.mem_fisica j).timestamp < s.tic.falsoTimestamp := by
    intro j hj
    have := (h.rango j ((ho.mem_iff j).1 hj)).2
    rw [hreloj]
    show (s.mem_fisica j).timestamp < _
    omega
  refine ⟨hc.tic.refrescar (hc.vista_of_residente hv ⟨i, hi⟩) hi, ?_, ⟨i :: ord.erase i, ?_⟩, ?_⟩
  · rw [length_append, length_singleton]
    push_cast
    exact hreloj
  · subst hi
    exact ho'.acierto ((ho.mem_iff i).2 hocc) hlast
  · intro j hj
    rw [length_append, length_singleton]
    push_cast
    rcases eq_or_ne j i with rfl | hji
    · have hself : ((refrescar s.tic j).mem_fisica j).timestamp = s.tic.falsoTimestamp := by
        simp only [refrescar, update_self]
      rw [hself, hreloj]
      omega
    · rw [refrescar_of_ne hji]
      have := h.rango j hj
      show 1 ≤ (s.mem_fisica j).timestamp ∧ (s.mem_fisica j).timestamp ≤ _
      omega

/-- With all frames taken, the last frame of the order is the only oldest one. -/
theorem Orden.ultimo {ord : List Marco} (ho : Orden refs s ord) (h8 : 8 ≤ s.posActualMemoria) :
    ∃ pre w, ord = pre ++ [w] ∧ pre.length = 7 ∧
      ∀ j, j ≠ w → (s.mem_fisica w).timestamp < (s.mem_fisica j).timestamp := by
  have hl := ho.length
  rcases eq_nil_or_concat ord with rfl | ⟨pre, w, rfl⟩
  · simp only [length_nil] at hl; omega
  · rw [concat_eq_append] at *
    rw [length_append, length_singleton] at hl
    refine ⟨pre, w, rfl, by omega, ?_⟩
    intro j hj
    have hjm : j ∈ pre ++ [w] := (ho.mem_iff j).2 (by have := j.isLt; omega)
    rcases mem_append.1 hjm with hjp | hjw
    · exact (pairwise_append.1 ho.tiempos).2.2 j hjp w (by simp)
    · exact absurd (mem_singleton.1 hjw) hj

/-- Before memory is full the second search ends at the first free frame. -/
theorem LruInv.buscar_libre (h : LruInv refs s) (hlt : s.posActualMemoria < 8) :
    (buscarMasChico s.mem_fisica s.marcoActual : Nat) = s.posActualMemoria := by
  have hc := h.coherente
  have hval : (s.marcoActual : Nat) = s.posActualMemoria := by
    simp only [Estado.marcoActual, Fin.val_ofNat]; omega
  have hlibre : ∀ i : Marco, s.posActualMemoria ≤ i → (s.mem_fisica i).timestamp = -1 :=
    fun i hi => by rw [hc.libre i hi]
  rcases Nat.eq_zero_or_pos s.posActualMemoria with h0 | h0
  · rw [buscarMasChico_of_forall, hval]
    intro i
    rw [hlibre 0 (by omega), hlibre i (by omega)]
  · have hcero := (h.rango 0 h0).1
    have hact := hlibre s.marcoActual (by omega)
    rw [buscarMasChico_eq s.marcoActual ⟨s.marcoActual, by omega⟩ (w := s.marcoActual), hval]
    · intro j
      rcases Nat.lt_or_ge j s.posActualMemoria with hj | hj
      · have := (h.rango j hj).1; omega
      · rw [hlibre j hj]; omega
    · intro j hj
      have hj' : (j : Nat) < s.marcoActual := hj
      have := (h.rango j (by omega)).1
      omega

/-- The frames that stay filled at a fault, when frame `w` is the one textbook LRU fills. -/
theorem Orden.restantes {ord : List Marco} (ho : Orden refs s ord) {w : Marco}
    (hw : s.posActualMemoria < 8 → (w : Nat) = s.posActualMemoria)
    (hw8 : 8 ≤ s.posActualMemoria →
      ∀ j, j ≠ w → (s.mem_fisica w).timestamp < (s.mem_fisica j).timestamp) :
    ∃ pre : List Marco, (w :: pre).Nodup ∧ List.Sublist pre ord ∧
      (∀ i : Marco, i ∈ w :: pre ↔ (i : Nat) < s.posActualMemoria + 1) ∧
      (w :: pre).length = min 8 (s.posActualMemoria + 1) ∧
      pre.map (fun i => (s.mem_fisica i).ref) = (recency refs).take 7 := by
  have hl := ho.length
  rcases Nat.lt_or_ge s.posActualMemoria 8 with hlt | h8
  · have hwp := hw hlt
    refine ⟨ord, ?_, List.Sublist.refl _, ?_, by rw [length_cons]; omega, ?_⟩
    · refine nodup_cons.2 ⟨fun hm => ?_, ho.nodup⟩
      have := (ho.mem_iff w).1 hm
      omega
    · intro i
      rw [mem_cons, ho.mem_iff i, Fin.ext_iff]
      omega
    · have hlen := congrArg List.length ho.paginas
      rw [length_map, length_take, hl] at hlen
      rw [ho.paginas, take_of_length_le (by omega), take_of_length_le (by omega)]
  · obtain ⟨pre, v, rfl, hpre, hmin⟩ := ho.ultimo h8
    have hvw : v = w := by
      refine Classical.byContradiction fun hne => ?_
      have h1 := hmin w (Ne.symm hne)
      have h2 := hw8 h8 v hne
      omega
    subst hvw
    have hn := nodup_append.1 ho.nodup
    refine ⟨pre, ?_, sublist_append_left pre [v], ?_, ?_, ?_⟩
    · refine nodup_cons.2 ⟨fun hm => ?_, hn.1⟩
      exact hn.2.2 v hm v (by simp) rfl
    · intro i
      have h1 := ho.mem_iff i
      rw [mem_append, mem_singleton] at h1
      rw [mem_cons, or_comm, h1]
      have := i.isLt
      omega
    · rw [length_cons, hpre]; omega
    · have hp := congrArg (List.take 7) ho.paginas
      rw [map_append, take_take, take_append_of_le_length (by simp [hpre]),
        take_of_length_le (by simp [hpre])] at hp
      exact hp

theorem LruInv.fallo (h : LruInv refs s) (hv : r.valida) (hres : ¬ s.Residente r)
    {w : Marco} {g : Pagina} (hg : g.ref = r) (hts : g.timestamp = refs.length + 1)
    (hw : s.posActualMemoria < 8 → (w : Nat) = s.posActualMemoria)
    (hw8 : 8 ≤ s.posActualMemoria →
      ∀ j, j ≠ w → (s.mem_fisica w).timestamp < (s.mem_fisica j).timestamp)
    (hmem : t.mem_fisica = update s.mem_fisica w g)
    (hpm : t.posActualMemoria = s.posActualMemoria + 1)
    (hreloj : t.falsoTimestamp = refs.length + 1) (hcoh : Coherente t (refs ++ [r])) :
    LruInv (refs ++ [r]) t := by
  have hself : t.mem_fisica w = g := by rw [hmem, update_self]
  have hother : ∀ j, j ≠ w → t.mem_fisica j = s.mem_fisica j := fun j hj => by
    rw [hmem, update_of_ne hj]
  obtain ⟨ord, ho⟩ := h.orden
  obtain ⟨pre, hnd, hsub, hiff, hlen, hpag⟩ := ho.restantes hw hw8
  have hne : ∀ j ∈ pre, j ≠ w := fun j hj e => (nodup_cons.1 hnd).1 (e ▸ hj)
  have hocc : ∀ j ∈ pre, j < s.posActualMemoria := fun j hj =>
    (ho.mem_iff j).1 (hsub.subset hj)
  refine ⟨hcoh, ?_, ⟨w :: pre, hnd, ?_, ?_, ?_, ?_⟩, ?_⟩
  · rw [hreloj, length_append, length_singleton]; push_cast; rfl
  · rw [hpm]; exact hiff
  · rw [hpm]; exact hlen
  · rw [recency_take_miss (fun hm => hres ((h.residente_iff hv).2 hm)), map_cons, hself, hg,
      ← hpag]
    congr 1
    refine map_congr_left fun j hj => ?_
    rw [hother j (hne j hj)]
  · rw [pairwise_cons]
    refine ⟨?_, (ho.tiempos.sublist hsub).imp_of_mem ?_⟩
    · intro j hj
      rw [hself, hother j (hne j hj), hts]
      have := (h.rango j (hocc j hj)).2
      omega
    · intro j k hj hk hlt
      rw [hother j (hne j hj), hother k (hne k hk)]
      exact hlt
  · intro j hj
    rw [length_append, length_singleton]
    rcases eq_or_ne j w with rfl | hjw
    · rw [hself, hts]; push_cast; omega
    · have hjm : j ∈ w :: pre := (hiff j).2 (by omega)
      have hjp : j ∈ pre := (mem_cons.1 hjm).resolve_left hjw
      have := h.rango j (hocc j hjp)
      rw [hother j hjw]
      push_cast
      omega

/-- When the two searches agree with memory full, they end at the only oldest frame. -/
theorem LruInv.busquedas (h : LruInv refs s) (h8 : 8 ≤ s.posActualMemoria)
    (hcomun : s.posActualMemoria % 8 = 0 ∨
      ∃ i, (s.mem_fisica i).timestamp < (s.mem_fisica 0).timestamp) :
    buscarMasChico s.mem_fisica 0 = buscarMasChico s.mem_fisica s.marcoActual ∧
    (∀ j, j ≠ buscarMasChico s.mem_fisica s.marcoActual →
      (s.mem_fisica (buscarMasChico s.mem_fisica s.marcoActual)).timestamp <
        (s.mem_fisica j).timestamp) ∧
    ((recency refs).take 8).getLast? =
      some (s.mem_fisica (buscarMasChico s.mem_fisica s.marcoActual)).ref := by
  obtain ⟨ord, ho⟩ := h.orden
  obtain ⟨pre, v, rfl, hpre, hmin⟩ := ho.ultimo h8
  have hlast : ((recency refs).take 8).getLast? = some (s.mem_fisica v).ref := by
    rw [← ho.paginas, map_append]; simp
  suffices hv : ∀ u, (u = 0 ∨ u = s.marcoActual) → buscarMasChico s.mem_fisica u = v by
    rw [hv 0 (Or.inl rfl), hv s.marcoActual (Or.inr rfl)]
    exact ⟨rfl, hmin, hlast⟩
  intro u hu
  rcases eq_or_ne v 0 with rfl | hv0
  · -- frame 0 is the oldest: the search stays at its start, which is 0 both times
    have h0 : ∀ i, (s.mem_fisica 0).timestamp ≤ (s.mem_fisica i).timestamp := by
      intro i
      rcases eq_or_ne i 0 with rfl | hi
      · exact Int.le_refl _
      · exact Int.le_of_lt (hmin i hi)
    have hmod : s.posActualMemoria % 8 = 0 := by
      rcases hcomun with hm | ⟨i, hi⟩
      · exact hm
      · have := h0 i; omega
    rw [buscarMasChico_of_forall u h0]
    rcases hu with rfl | rfl
    · rfl
    · exact Fin.ext hmod
  · refine buscarMasChico_eq u ⟨v, hmin 0 (Ne.symm hv0)⟩ ?_ ?_
    · intro j
      rcases eq_or_ne j v with rfl | hj
      · exact Int.le_refl _
      · exact Int.le_of_lt (hmin j hj)
    · intro j hj
      exact hmin j (ne_of_lt hj)

/-- **One iteration of `main` in mode `-l`** keeps the relation, or stops at a full disk, when the
two searches agree. -/
theorem iteracion_lru (basura : Nat → Int) (h : LruInv refs s) (hv : r.valida)
    (hlen : refs.length + 1 < 2 ^ 31) (hcomun : VictimaComun s r) :
    iteracion .l basura s r = .error .discoLleno ∨
    ∃ t, iteracion .l basura s r = .ok t ∧ LruInv (refs ++ [r]) t ∧
      (¬ s.Residente r → 8 ≤ s.posActualMemoria → VictimaLru refs s t r) := by
  rcases Decidable.em (s.Residente r) with hres | hres
  · right
    obtain ⟨i, hi, hit⟩ := iteracion_acierto .l basura h.coherente hv hres
    exact ⟨_, hit, h.acierto hv hlen hi, fun hn => absurd hres hn⟩
  · obtain ⟨u, hit, hcu, hpid, umem, usec, upm, upd, ureloj⟩ :=
      iteracion_fallo .l basura h.coherente hv hres
    have hureloj : u.falsoTimestamp = refs.length + 1 := by
      rw [ureloj, h.reloj, wrap32_of_range (by omega) (by omega)]
    have hresu : ¬ u.Residente r := by
      rintro ⟨i, hi⟩; rw [umem] at hi; exact hres ⟨i, hi⟩
    have hact : u.marcoActual = s.marcoActual := by unfold Estado.marcoActual; rw [upm]
    rw [hit]
    unfold reemplazar
    simp only
    rcases Nat.lt_or_ge s.posActualDisco 16 with hd | hd
    · have hbus := fun h8 => h.busquedas h8 (hcomun hres h8 hd)
      rw [lru_eq u r.pid r.pagina (fun h8 => by
        rw [umem, hact]; exact (hbus (by omega)).1), umem, hact]
      generalize hw : buscarMasChico s.mem_fisica s.marcoActual = w at hbus
      have hlibre : s.posActualMemoria < 8 → (w : Nat) = s.posActualMemoria := fun hlt => by
        rw [← hw]; exact h.buscar_libre hlt
      rcases sustituir_coherente (w := w) (g := ⟨r.pagina, r.pid, u.falsoTimestamp⟩) hcu hv hpid
          hresu (by rw [upm]; exact hlibre) with
        ⟨_, _, hlleno⟩ | ⟨t, ht, tmem, tpm, tts, tsec, tcoh⟩
      · omega
      · right
        rw [ht]
        refine ⟨_, rfl, ?_, ?_⟩
        · exact h.fallo hv hres (w := w) (g := ⟨r.pagina, r.pid, u.falsoTimestamp⟩) rfl hureloj
            hlibre (fun h8 => (hbus h8).2.1) (by simp only [tmem, umem])
            (by simp only [tpm, upm]) (by simp only [tts, hureloj]) tcoh
        · intro _ h8
          refine ⟨w, ⟨r.pagina, r.pid, u.falsoTimestamp⟩, ⟨s.posActualDisco, hd⟩, rfl, rfl,
            by simp only [tmem, umem], ?_, (hbus h8).2.2⟩
          funext k
          simp only [tsec k]
          rw [upm, upd, umem, usec, update_apply]
          simp only [h8, true_and, Fin.ext_iff]
    · -- no room left: the disk is full, so memory is too
      left
      have h8 : 8 ≤ u.posActualMemoria := by
        have := h.coherente.pos_disco
        omega
      have hlleno : ∀ v, desalojar u v = .error .discoLleno := fun v => by
        unfold desalojar
        rw [dif_neg (by omega)]
      unfold lru
      rw [if_pos h8, hlleno]
      rfl

/-- With memory full, room on disk and frame 0 the oldest, `lru` copies the page of frame 0 to disk
and overwrites frame `posActualMemoria % 8`. -/
theorem lru_aparte (hv : r.valida) (h8 : 8 ≤ s.posActualMemoria) (hd : s.posActualDisco < 16)
    (hcero : ∀ i, (s.mem_fisica 0).timestamp ≤ (s.mem_fisica i).timestamp) :
    ∃ t, lru s r.pid r.pagina = .ok t ∧
      t.mem_fisica = update s.mem_fisica s.marcoActual
        ⟨r.pagina, r.pid, s.falsoTimestamp⟩ ∧
      t.mem_secundaria = update s.mem_secundaria ⟨s.posActualDisco, hd⟩
        (s.mem_fisica 0) := by
  obtain ⟨v, hdes⟩ : ∃ v, desalojar s 0 = .ok v := by
    unfold desalojar
    rw [dif_pos hd]
    exact ⟨_, rfl⟩
  obtain ⟨⟨_, vsec⟩, _, _, vmem, _, _⟩ := desalojar_ok hdes
  obtain ⟨t, ht, tmem, _, tsec, _, _, _⟩ := insertar_ok (s := v) (w := s.marcoActual)
    (g := ⟨r.pagina, r.pid, s.falsoTimestamp⟩) hv
  refine ⟨t, ?_, by rw [tmem, vmem], by rw [tsec, vsec]⟩
  unfold lru
  rw [if_pos h8, buscarMasChico_of_forall 0 hcero, hdes]
  show insertar v (buscarMasChico v.mem_fisica s.marcoActual) _ = _
  rw [buscarMasChico_of_forall s.marcoActual (by rw [vmem]; exact hcero)]
  exact ht

/-- **The bug.**  When the two searches part, the page copied to disk is not the one that is
overwritten. -/
theorem iteracion_lru_aparte (basura : Nat → Int) (hc : Coherente s refs) (hv : r.valida)
    (hmal : ¬ VictimaComun s r) :
    ∃ t, iteracion .l basura s r = .ok t ∧ ¬ s.Residente r ∧ 8 ≤ s.posActualMemoria ∧
      ¬ VictimaLru refs s t r := by
  simp only [VictimaComun, Classical.not_imp, not_or, not_exists, Int.not_lt] at hmal
  obtain ⟨hres, h8, hd, hmod, hcero⟩ := hmal
  obtain ⟨u, hit, hcu, hpid, umem, usec, upm, upd, _⟩ := iteracion_fallo .l basura hc hv hres
  have hact : (u.marcoActual : Nat) = s.posActualMemoria % 8 := by
    simp only [Estado.marcoActual, Fin.val_ofNat, upm]
  obtain ⟨t, hlru, hfis, hsec⟩ := lru_aparte (s := u) (r := r) hv (by omega) (by omega)
    (by rw [umem]; exact hcero)
  rw [umem] at hfis hsec
  rw [usec] at hsec
  refine ⟨{ t with posActualMemoria := t.posActualMemoria + 1 }, ?_, hres, h8, ?_⟩
  · rw [hit]
    unfold reemplazar
    simp only
    rw [hlru]
    rfl
  · rintro ⟨w, g, k, hg, hk, hfis', hsec', _⟩
    simp only [hfis] at hfis'
    simp only [hsec] at hsec'
    -- the frame that changed is `posActualMemoria % 8` …
    have hw : w = u.marcoActual := by
      refine Classical.byContradiction fun hne => ?_
      have := congrFun hfis' u.marcoActual
      rw [update_self, update_of_ne (Ne.symm hne)] at this
      exact hres ⟨u.marcoActual, by rw [← this]; rfl⟩
    -- … and the page copied is that of frame 0
    have hcopia := congrFun hsec' k
    have hkk : k = ⟨u.posActualDisco, by omega⟩ := Fin.ext (by simp only [hk, upd])
    rw [update_self, hkk, update_self] at hcopia
    have h0w : (0 : Marco) = w := hc.distintos 0 w (by show 0 < _; omega)
      (by have := w.isLt; omega) (by rw [hcopia])
    have := congrArg Fin.val (h0w.trans hw)
    rw [hact] at this
    exact hmod this.symm

/-! ## Runs -/

theorem simular_lru_inv (basura : Nat → Int) (refs : List Ref) (hv : ∀ r ∈ refs, r.valida)
    (hlen : refs.length < 2 ^ 31)
    (hm : Meets (iteracion .l basura) Estado.inicial VictimaComun refs) :
    simular .l basura refs = .error .discoLleno ∨
    ∃ s, simular .l basura refs = .ok s ∧ LruInv refs s := by
  unfold simular
  induction refs using reverseRecOn with
  | nil => exact Or.inr ⟨_, rfl, LruInv.inicial⟩
  | append_singleton refs r ih =>
    rw [length_append, length_singleton] at hlen
    obtain ⟨hm, hr⟩ := meets_concat.1 hm
    rw [run_concat]
    rcases ih (fun q hq => hv q (mem_append_left _ hq)) (by omega) hm with h | ⟨s, hs, h⟩
    · left; rw [h]; rfl
    · rw [hs]
      rcases iteracion_lru basura h (hv r (by simp)) hlen (hr s hs) with he | ⟨t, ht, hinv, _⟩
      · exact Or.inl he
      · exact Or.inr ⟨t, ht, hinv⟩

/-- **Exactly when `sim.c -l` is LRU.**  A run of fewer than `2 ^ 31` references (so that
`falsoTimestamp` does not wrap) refines textbook LRU at every point before `Disco lleno` if and
only if at each of its faults with memory full the two searches of `lru` agree. -/
theorem simular_lru_refina_iff (basura : Nat → Int) (refs : List Ref)
    (hv : ∀ r ∈ refs, r.valida) (hlen : refs.length < 2 ^ 31) :
    CumpleLru basura refs ↔
      Meets (iteracion .l basura) Estado.inicial VictimaComun refs := by
  constructor
  · rintro ⟨_, hcum⟩
    -- induction on prefixes: up to the first bad fault the invariant holds, and there it breaks
    suffices ∀ pre, pre <+: refs → Meets (iteracion .l basura) Estado.inicial VictimaComun pre
      from this refs (prefix_refl _)
    intro pre
    induction pre using reverseRecOn with
    | nil => intro _ q a hq; simp at hq
    | append_singleton pre r ih =>
      intro hpre
      have hpre' : pre <+: refs := (prefix_append pre [r]).trans hpre
      have hm := ih hpre'
      refine meets_concat.2 ⟨hm, fun s hs => ?_⟩
      have hvp : ∀ q ∈ pre, q.valida := fun q hq => hv q (hpre'.subset hq)
      rcases simular_lru_inv basura pre hvp (by have := hpre'.length_le; omega) hm with
        he | ⟨s', hs', hinv⟩
      · rw [simular, hs] at he; cases he
      · rw [simular, hs] at hs'
        cases hs'
        refine Classical.byContradiction fun hmal => ?_
        obtain ⟨t, ht, hres, h8, hno⟩ :=
          iteracion_lru_aparte basura hinv.coherente (hv r (hpre.subset (by simp))) hmal
        exact hno ((hcum pre hpre' s hs).2 r t hpre ht hres h8)
  · intro hm
    refine ⟨?_, ?_⟩
    · intro e he
      rcases simular_lru_inv basura refs hv hlen hm with h | ⟨s, hs, _⟩
      · rw [h] at he; cases he; rfl
      · rw [hs] at he; cases he
    · intro pre hpre s hs
      have hvp : ∀ q ∈ pre, q.valida := fun q hq => hv q (hpre.subset hq)
      have hle := hpre.length_le
      rcases simular_lru_inv basura pre hvp (by omega) (hm.of_prefix hpre) with he | ⟨s', hs', hinv⟩
      · rw [hs] at he; cases he
      · rw [hs] at hs'
        cases hs'
        refine ⟨hinv.refina, ?_⟩
        intro r t hpr ht hres h8
        have hlp := hpr.length_le
        rw [length_append, length_singleton] at hlp
        rcases iteracion_lru basura hinv (hv r (hpr.subset (by simp))) (by omega)
            (hm pre r hpr s hs) with he | ⟨t', ht', _, hvic⟩
        · rw [ht] at he; cases he
        · rw [ht] at ht'
          cases ht'
          exact hvic hres h8

/-- Faults that fill memory, hits on pages 2 and 4, and faults that evict pages 1, 3 and 5. -/
theorem simular_lru_refina_ejemplo :
    CumpleLru (fun _ => 0) ([1, 2, 3, 4, 5, 6, 7, 8, 2, 4, 9, 10, 11].map fun p => ⟨1, p⟩) :=
  (simular_lru_refina_iff _ _ (by decide) (by decide)).2 (meets_of_meetsB (by decide +kernel))

/-- The first 8 pages of process 1, page 1 again, then pages 9 to 16. -/
def refsPerdida : List Ref :=
  [1, 2, 3, 4, 5, 6, 7, 8, 1, 9, 10, 11, 12, 13, 14, 15, 16].map fun p => ⟨1, p⟩

/-- On `refsPerdida` the fault on page 16 finds page 1 oldest, in frame 0, copies it to disk and
overwrites page 15: the latter is marked `'F'` and is in neither store. -/
theorem simular_lru_pierde_pagina : ¬ CumpleLru (fun _ => 0) refsPerdida := by
  rintro ⟨_, h⟩
  obtain ⟨s, hs, hno, hnd⟩ : ∃ s, simular .l (fun _ => 0) refsPerdida = .ok s ∧
      ¬ s.Residente ⟨1, 15⟩ ∧ ¬ s.EnDisco ⟨1, 15⟩ := by decide +kernel
  rcases (h _ (prefix_refl _) s hs).1.alguna ⟨1, 15⟩ (by decide) with hr | hd
  · exact hno hr
  · exact hnd hd

end Laboratorio.Sim
