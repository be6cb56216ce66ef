import Laboratorio.Lib.Paging
import Laboratorio.Sim.Coherencia

/-!
# `sim.c -f` is first-in first-out replacement

The abstract side is `Lib.Paging.misses 8 refs`, the page faults of textbook FIFO with 8 frames.
`FifoInv` relates them to the simulator's frames and disk, `iteracion_fifo` shows that one
iteration of `main` keeps the relation, and `simular_fifo_refina` is the refinement for reference
strings of any length.
-/

namespace Laboratorio.Sim

open Laboratorio.Lib Laboratorio.Lib.Paging

/-- `m` is the latest of the faults `fs` with `m mod 8 = j`. -/
def EsUltimo (fs : List Ref) (j : Marco) (m : Nat) : Prop :=
  m < fs.length ∧ m % 8 = j ∧ ∀ m' < fs.length, m' % 8 = j → m' ≤ m

/-- The state of the simulator is the one textbook FIFO prescribes after `refs`. -/
structure RefinaFifo (refs : List Ref) (s : Estado) : Prop where
  pos : s.posActualMemoria = (misses 8 refs).length
  /-- Frame `j` holds the latest fault `f_m` with `m mod 8 = j`. -/
  marco : ∀ (j : Marco) (m : Nat) (f : Ref), EsUltimo (misses 8 refs) j m →
    (misses 8 refs)[m]? = some f → (s.mem_fisica j).ref = f
  marco_libre : ∀ j : Marco, (∀ m < (misses 8 refs).length, m % 8 ≠ j) →
    s.mem_fisica j = ⟨-1, -1, -1⟩
  /-- The disk holds `f_0 … f_{k-9}` in eviction order. -/
  disco : ∀ (k : Ranura) (f : Ref), k + 9 ≤ (misses 8 refs).length →
    (misses 8 refs)[k.val]? = some f → (s.mem_secundaria k).ref = f
  disco_libre : ∀ k : Ranura, (misses 8 refs).length < k + 9 → s.mem_secundaria k = ⟨-1, -1, 0⟩
  pos_disco : s.posActualDisco = (misses 8 refs).length - 8
  /-- No page is in two frames. -/
  distintos : ∀ (i j : Marco) (r : Ref), r.valida → (s.mem_fisica i).ref = r →
    (s.mem_fisica j).ref = r → i = j
  marca : ∀ r : Ref, r.valida → s.paginaDe r ≠ -1 →
    s.marcaDe r = if s.Residente r then 'F' else 'D'

/-- The relation kept by every iteration in mode `-f`. -/
structure FifoInv (refs : List Ref) (s : Estado) : Prop where
  coherente : Coherente s refs
  pos : s.posActualMemoria = (misses 8 refs).length
  marco : ∀ m f, (misses 8 refs)[m]? = some f → (misses 8 refs).length ≤ m + 8 →
    (s.mem_fisica (Fin.ofNat 8 m)).ref = f
  disco : ∀ (k : Ranura) (f : Ref), k + 9 ≤ (misses 8 refs).length →
    (misses 8 refs)[k.val]? = some f → (s.mem_secundaria k).ref = f

variable {s t : Estado} {refs : List Ref} {r : Ref}

theorem FifoInv.inicial : FifoInv [] Estado.inicial :=
  ⟨Coherente.inicial, rfl, fun _ _ h => by simp at h, fun _ _ h => by simp at h⟩

/-- The resident pages are the last 8 faults. -/
theorem FifoInv.residente_iff (h : FifoInv refs s) (hv : r.valida) :
    s.Residente r ↔ r ∈ window 8 (misses 8 refs) := by
  rw [mem_window_iff]
  constructor
  · rintro ⟨i, hi⟩
    have hocc : i < s.posActualMemoria := h.coherente.ocupado_of_valida (by rw [hi]; exact hv)
    rw [h.pos] at hocc
    obtain ⟨m, hm, hmod, hle⟩ : ∃ m, m < (misses 8 refs).length ∧ m % 8 = i ∧
        (misses 8 refs).length ≤ m + 8 := by
      have := i.isLt
      exact ⟨((misses 8 refs).length - 1 - i) / 8 * 8 + i, by omega, by omega, by omega⟩
    refine ⟨m, hle, ?_⟩
    have hf := h.marco m _ (List.getElem?_eq_getElem hm) hle
    have hi' : Fin.ofNat 8 m = i := Fin.ext hmod
    rw [hi', hi] at hf
    rw [hf, List.getElem?_eq_getElem hm]
  · rintro ⟨m, hle, hm⟩
    exact ⟨Fin.ofNat 8 m, h.marco m r hm hle⟩

theorem FifoInv.refina (h : FifoInv refs s) : RefinaFifo refs s := by
  refine ⟨h.pos, ?_, ?_, h.disco, ?_, ?_, ?_, ?_⟩
  · rintro j m f ⟨hm, hmod, hult⟩ hf
    have hj : Fin.ofNat 8 m = j := Fin.ext hmod
    rw [← hj]
    refine h.marco m f hf (Nat.le_of_not_lt fun hlt => ?_)
    have := hult (m + 8) hlt (by omega)
    omega
  · intro j hj
    refine h.coherente.libre j (Nat.le_of_not_lt fun hlt => ?_)
    rw [h.pos] at hlt
    exact hj j hlt (by have := j.isLt; omega)
  · intro k hk
    refine h.coherente.ranura_libre k ?_
    rw [h.coherente.pos_disco, h.pos]
    omega
  · rw [h.coherente.pos_disco, h.pos]
  · intro i j q hq hi hj
    exact h.coherente.marco_unico hq hi hj
  · intro q hq hp
    exact h.coherente.marca q ((h.coherente.vista_iff q hq).1 hp)

theorem FifoInv.acierto (h : FifoInv refs s) (hv : r.valida) {i : Marco}
    (hi : (s.mem_fisica i).ref = r) : FifoInv (refs ++ [r]) (refrescar s.tic i) := by
  have hres : s.Residente r := ⟨i, hi⟩
  have hfs : misses 8 (refs ++ [r]) = misses 8 refs :=
    misses_concat_hit ((h.residente_iff hv).1 hres)
  refine ⟨h.coherente.tic.refrescar (h.coherente.vista_of_residente hv hres) hi, ?_, ?_, ?_⟩
  · rw [hfs]
    exact h.pos
  · rw [hfs]
    intro m f hf hle
    rw [refrescar_ref]
    exact h.marco m f hf hle
  · rw [hfs]
    exact h.disco

/-- A fault: `r` is appended to the faults and goes to frame `k mod 8`, whose page goes to disk when
memory is full. -/
theorem FifoInv.fallo (h : FifoInv refs s) {g : Pagina}
    (hfs : misses 8 (refs ++ [g.ref]) = misses 8 refs ++ [g.ref])
    (hmem : t.mem_fisica = Function.update s.mem_fisica s.marcoActual g)
    (hsec : ∀ k : Ranura, t.mem_secundaria k =
      if 8 ≤ s.posActualMemoria ∧ (k : Nat) = s.posActualDisco then s.mem_fisica s.marcoActual
      else s.mem_secundaria k)
    (hpm : t.posActualMemoria = s.posActualMemoria + 1)
    (hcoh : Coherente t (refs ++ [g.ref])) : FifoInv (refs ++ [g.ref]) t := by
  have hpos := h.pos
  have hact : (s.marcoActual : Nat) = (misses 8 refs).length % 8 := by
    simp only [Estado.marcoActual, Fin.val_ofNat, hpos]
  have hlen : (misses 8 refs ++ [g.ref]).length = (misses 8 refs).length + 1 := by simp
  refine ⟨hcoh, ?_, ?_, ?_⟩
  · rw [hfs, hlen, hpm, hpos]
  · rw [hfs, hlen]
    intro m f hf hle
    rw [hmem]
    rcases Nat.lt_or_ge m (misses 8 refs).length with hm | hm
    · rw [List.getElem?_append_left hm] at hf
      have hne : Fin.ofNat 8 m ≠ s.marcoActual := by
        intro he
        have := congrArg Fin.val he
        rw [hact, Fin.val_ofNat] at this
        omega
      rw [Function.update_of_ne hne]
      exact h.marco m f hf (by omega)
    · rw [List.getElem?_append_right hm, List.getElem?_singleton] at hf
      split at hf
      · cases hf
        have he : Fin.ofNat 8 m = s.marcoActual := by
          apply Fin.ext
          rw [hact, Fin.val_ofNat]
          omega
        rw [he, Function.update_self]
      · cases hf
  · rw [hfs, hlen]
    intro k f hk hf
    rw [List.getElem?_append_left (by omega)] at hf
    have hdisco := h.coherente.pos_disco
    rw [hsec k]
    split
    · have he : s.marcoActual = Fin.ofNat 8 k := by
        apply Fin.ext
        rw [hact, Fin.val_ofNat]
        omega
      rw [he]
      exact h.marco k f hf (by omega)
    · exact h.disco k f (by omega) hf

/-- **One iteration of `main` in mode `-f`** keeps the relation or stops at a full disk. -/
theorem iteracion_fifo (basura : Nat → Int) (h : FifoInv refs s) (hv : r.valida) :
    (iteracion .f basura s r = .error .discoLleno ∧ 24 < (misses 8 (refs ++ [r])).length) ∨
    ∃ t, iteracion .f basura s r = .ok t ∧ FifoInv (refs ++ [r]) t := by
  by_cases hres : s.Residente r
  · right
    obtain ⟨i, hi, hit⟩ := iteracion_acierto .f basura h.coherente hv hres
    exact ⟨_, hit, h.acierto hv hi⟩
  · have hfs : misses 8 (refs ++ [r]) = misses 8 refs ++ [r] :=
      misses_concat_miss fun hw => hres ((h.residente_iff hv).2 hw)
    obtain ⟨u, hit, hcu, hpid, umem, usec, upm, upd, _⟩ :=
      iteracion_fallo .f basura h.coherente hv hres
    have hu : FifoInv refs u := by
      refine ⟨hcu, by rw [upm, h.pos], ?_, ?_⟩
      · rw [umem]
        exact h.marco
      · rw [usec]
        exact h.disco
    have hresu : ¬ u.Residente r := by
      rintro ⟨i, hi⟩
      rw [umem] at hi
      exact hres ⟨i, hi⟩
    have hw : u.posActualMemoria < 8 → (u.marcoActual : Nat) = u.posActualMemoria := by
      intro hlt
      simp only [Estado.marcoActual, Fin.val_ofNat]
      omega
    rw [hit]
    unfold reemplazar
    simp only
    rw [fifo_eq]
    rcases sustituir_coherente (g := ⟨r.pagina, r.pid, basura u.posActualMemoria⟩) hcu hv hpid
        hresu hw with ⟨he, h8, h16⟩ | ⟨t, ht, tmem, tpm, _, tsec, tcoh⟩
    · left
      have := hcu.pos_disco
      rw [he, hfs, List.length_append, List.length_singleton, ← hu.pos]
      exact ⟨rfl, by omega⟩
    · right
      rw [ht]
      exact ⟨_, rfl, hu.fallo (g := ⟨r.pagina, r.pid, basura u.posActualMemoria⟩) hfs tmem tsec
        (congrArg (· + 1) tpm) tcoh⟩

/-- **Refinement.**  For every string of references to pages of the machine, `sim.c -f` is in the
state textbook FIFO prescribes, until the 25th fault stops it with `Disco lleno`. -/
theorem simular_fifo_refina (basura : Nat → Int) (refs : List Ref) (hv : ∀ r ∈ refs, r.valida) :
    (simular .f basura refs = .error .discoLleno ∧ 24 < (misses 8 refs).length) ∨
    ∃ s, simular .f basura refs = .ok s ∧ RefinaFifo refs s := by
  suffices (simular .f basura refs = .error .discoLleno ∧ 24 < (misses 8 refs).length) ∨
      ∃ s, simular .f basura refs = .ok s ∧ FifoInv refs s by
    rcases this with h | ⟨s, hs, h⟩
    · exact Or.inl h
    · exact Or.inr ⟨s, hs, h.refina⟩
  unfold simular
  induction refs using List.reverseRecOn with
  | nil => exact Or.inr ⟨_, rfl, FifoInv.inicial⟩
  | append_singleton refs r ih =>
    rw [run_concat]
    rcases ih (fun q hq => hv q (List.mem_append_left _ hq)) with ⟨h, hlen⟩ | ⟨s, hs, h⟩
    · left
      rw [h]
      exact ⟨rfl, hlen.trans_le (length_misses_le 8 refs r)⟩
    · rw [hs]
      exact iteracion_fifo basura h (hv r (by simp))

/-- Eight pages fill memory; page 1 is used again and is still the first to be evicted. -/
def refsCola : List Ref := [1, 2, 3, 4, 5, 6, 7, 8, 1, 9, 10, 1].map fun p => ⟨1, p⟩

theorem simular_fifo_refina_ejemplo :
    ∃ s, simular .f (fun _ => 0) refsCola = .ok s ∧ RefinaFifo refsCola s := by
  rcases simular_fifo_refina (fun _ => 0) refsCola (by decide) with h | h
  · exact absurd h.2 (by decide)
  · exact h

end Laboratorio.Sim
