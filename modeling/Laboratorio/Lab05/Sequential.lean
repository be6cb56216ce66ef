import Laboratorio.Lab05.Wordheap

/-!
# Commands of `lab-05/wordheap.c` that run one after another

`ejecutar m c` lets a single process run the command `c` from its first step to its last one.

* `Cuenta n m` — what the three counters and the two semaphores say when `n` words are stored.  They
  do not agree: `free` starts at 14 and `empty` at 15.
-/

namespace Laboratorio.Lab05

open Laboratorio.Lib List

/-- The remaining steps of a command, of which there are at most `n`. -/
def completar (c : Comando) : (n : Nat) → Wordheap → Pc → Except Stop (Wordheap × List Salida)
  | _, m, .done => .ok (m, [])
  | 0, _, _ => .error .finished
  | n + 1, m, pc =>
    (correr 0 ⟨c, pc, []⟩ m).bind fun r =>
      (completar c n r.1 r.2.1).map fun q => (q.1, r.2.2 ++ q.2)

/-- A command from its start to its end: the memory it leaves and what it prints. -/
def ejecutar (m : Wordheap) (c : Comando) : Except Stop (Wordheap × List Salida) :=
  completar c 6 m .test

/-- The same as a step of a run. -/
def orden (m : Wordheap) (c : Comando) : Except Stop Wordheap := (ejecutar m c).map Prod.fst

variable {m m' : Wordheap} {palabra : List UInt8} {n k i : Nat} {c : Comando} {ps : List (List UInt8)}
  {heap : Nat → UInt8}

/-! ## The three commands -/

theorem ejecutar_w (hm : m.mutex = none) (hf : m.free ≠ 0) (he : m.empty = n + 1)
    (hi : 0 ≤ m.items) (hb : 50 * m.items + palabra.length < 750) :
    ejecutar m (.w palabra) = .ok ({ m with
      heap := strcpy m.heap (50 * m.items.toNat) palabra
      items := m.items + 1
      free := m.free - 1
      full := m.full + 1
      empty := n }, [.agregada palabra]) := by
  simp [ejecutar, completar, correr, caseW, hf, semWait, he, lock, mutexLock, hm, push, hi, hb,
    unlock, Except.bind, Except.map]

theorem ejecutar_w_llena (hf : m.free = 0) : ejecutar m (.w palabra) = .ok (m, [.llena]) := by
  simp [ejecutar, completar, correr, caseW, hf, Except.bind, Except.map]

theorem ejecutar_r (hm : m.mutex = none) (hi : m.items ≠ 0) (hf : m.full = n + 1) :
    ejecutar m .r = .ok ({ m with
      items := m.items - 1
      free := m.free + 1
      full := n
      empty := m.empty + 1 }, [.eliminada]) := by
  simp [ejecutar, completar, correr, caseR, hi, semWait, hf, lock, mutexLock, hm, pop, unlock,
    Except.bind, Except.map]

theorem ejecutar_r_vacia (hi : m.items = 0) : ejecutar m .r = .ok (m, [.vacia]) := by
  simp [ejecutar, completar, correr, caseR, hi, Except.bind, Except.map]

theorem ejecutar_p (hm : m.mutex = none) : ejecutar m .p = .ok (m, imprimir m) := by
  obtain ⟨free, items, max_word, heap, mutex, full, empty⟩ := m
  dsimp only at hm
  subst hm
  by_cases hi : items = 0
  · simp [ejecutar, completar, correr, caseP, hi, imprimir, Except.bind, Except.map]
  · simp [ejecutar, completar, correr, caseP, hi, lock, mutexLock, unlock, imprimir, Except.bind,
      Except.map]

/-! ## The counters -/

/-- The counters when `n` words are stored. -/
structure Cuenta (n : Nat) (m : Wordheap) : Prop where
  mutex : m.mutex = none
  items : m.items = n
  free : m.free = 14 - n
  full : m.full = n
  empty : m.empty + n = 15
  le : n ≤ 14

theorem cuenta_crear (heap : Nat → UInt8) : Cuenta 0 (crear heap) :=
  ⟨rfl, rfl, rfl, rfl, rfl, by decide⟩

/-- A push: the counters and semaphores move by one, and only the row of the word is written. -/
theorem Cuenta.push (h : Cuenta n m) (hn : n < 14) {palabra : List UInt8} (hp : palabra.length < 50) :
    ∃ m', ejecutar m (.w palabra) = .ok (m', [.agregada palabra]) ∧ Cuenta (n + 1) m' ∧
      m'.heap = strcpy m.heap (50 * n) palabra ∧ m'.mutex = m.mutex ∧ m'.full = m.full + 1 ∧
      m'.empty + 1 = m.empty := by
  obtain ⟨hmutex, hitems, hfree, hfull, hempty, hle⟩ := h
  have hrow : m.items.toNat = n := by omega
  refine ⟨_, ejecutar_w (n := 14 - n) hmutex (by omega) (by omega) (by omega) (by omega),
    ⟨hmutex, ?_, ?_, ?_, ?_, hn⟩, ?_, rfl, rfl, ?_⟩
  · dsimp only
    omega
  · dsimp only
    omega
  · dsimp only
    omega
  · dsimp only
    omega
  · dsimp only
    rw [hrow]
  · dsimp only
    omega

theorem Cuenta.llena (h : Cuenta 14 m) : ejecutar m (.w palabra) = .ok (m, [.llena]) :=
  ejecutar_w_llena (by rw [h.free]; rfl)

theorem Cuenta.pop (h : Cuenta n m) :
    ∃ m' out, ejecutar m .r = .ok (m', out) ∧ Cuenta (n - 1) m' ∧ m'.heap = m.heap := by
  obtain ⟨hmutex, hitems, hfree, hfull, hempty, hle⟩ := h
  by_cases hn : n = 0
  · subst hn
    exact ⟨m, _, ejecutar_r_vacia hitems, ⟨hmutex, hitems, hfree, hfull, hempty, hle⟩, rfl⟩
  · refine ⟨_, _, ejecutar_r (n := n - 1) hmutex (by omega) (by omega),
      ⟨hmutex, ?_, ?_, rfl, ?_, by omega⟩, rfl⟩
    · dsimp only
      omega
    · dsimp only
      omega
    · dsimp only
      omega

/-- Every command ends, and the counters stay in step. -/
theorem Cuenta.orden (h : Cuenta n m) (hw : ∀ palabra, c = .w palabra → palabra.length < 50) :
    ∃ n' m', orden m c = .ok m' ∧ Cuenta n' m' := by
  cases c with
  | w palabra =>
    by_cases hn : n < 14
    · obtain ⟨m', hrun, h', -⟩ := h.push hn (hw palabra rfl)
      exact ⟨n + 1, m', by rw [Lab05.orden, hrun]; rfl, h'⟩
    · obtain rfl : n = 14 := by
        have := h.le
        omega
      exact ⟨14, m, by rw [Lab05.orden, h.llena]; rfl, h⟩
  | r =>
    obtain ⟨m', out, hrun, h', -⟩ := h.pop
    exact ⟨n - 1, m', by rw [Lab05.orden, hrun]; rfl, h'⟩
  | p => exact ⟨n, m, by rw [Lab05.orden, ejecutar_p h.mutex]; rfl, h⟩

theorem cuenta_run (heap : Nat → UInt8) (comandos : List Comando)
    (hw : ∀ palabra, .w palabra ∈ comandos → palabra.length < 50) :
    ∃ n m, run orden (crear heap) comandos = .ok m ∧ Cuenta n m := by
  induction comandos using reverseRecOn with
  | nil => exact ⟨0, _, rfl, cuenta_crear heap⟩
  | append_singleton comandos c ih =>
    obtain ⟨n, m, hrun, h⟩ := ih fun palabra hp => hw palabra (mem_append_left _ hp)
    obtain ⟨n', m', hstep, h'⟩ := h.orden (c := c) fun palabra hc =>
      hw palabra (mem_append_right _ (mem_singleton.2 hc.symm))
    exact ⟨n', m', run_concat_ok.2 ⟨m, hrun, hstep⟩, h'⟩

/-- **A place is lost.**  Whatever commands have run, `items + free` is 14 and not 15, `-w` answers
`Pila llena` exactly when 14 words are stored, and the semaphore still has a place for one more. -/
theorem capacity_never (heap : Nat → UInt8) (comandos : List Comando)
    (hw : ∀ palabra, .w palabra ∈ comandos → palabra.length < 50) :
    ∃ m, run orden (crear heap) comandos = .ok m ∧ m.items + m.free ≠ 15 ∧
      (∀ palabra : List UInt8, palabra.length < 50 →
        (ejecutar m (.w palabra) = .ok (m, [.llena]) ↔ m.items = 14)) ∧
      m.empty = 15 - m.items := by
  obtain ⟨n, m, hrun, h⟩ := cuenta_run heap comandos hw
  refine ⟨m, hrun, ?_, fun palabra hp => ?_, ?_⟩
  · rw [h.items, h.free]
    omega
  · rw [h.items]
    constructor
    · intro hllena
      by_contra hne
      have hlt : n < 14 := by
        have := h.le
        omega
      obtain ⟨m', hpush, -⟩ := h.push hlt hp
      rw [hpush] at hllena
      cases hllena
    · intro hn
      obtain rfl : n = 14 := by omega
      exact h.llena
  · rw [h.items]
    have := h.empty
    omega

/-- A push and a pop. -/
theorem capacity_never_push_pop :
    ∃ m, run orden (crear fun _ => 0) [.w [97], .r] = .ok m ∧ m.items + m.free ≠ 15 := by
  obtain ⟨m, hrun, hne, -⟩ := capacity_never (fun _ => 0) [.w [97], .r] (by simp)
  exact ⟨m, hrun, hne⟩

/-- After 14 words the next one is turned away, though `empty` is 1. -/
theorem fifteenth_word_refused :
    ∃ m, run orden (crear fun _ => 0) (List.replicate 14 (.w [97])) = .ok m ∧ m.items = 14 ∧
      m.free = 0 ∧ m.empty = 1 ∧ ejecutar m (.w [97]) = .ok (m, [.llena]) :=
  ⟨_, rfl, rfl, rfl, rfl, rfl⟩

/-! ## The words -/

theorem strcpy_inside (hk : k ≤ palabra.length) :
    some (strcpy heap n palabra (n + k)) = (palabra ++ [0])[k]? := by
  have hlt : k < (palabra ++ [0]).length := by
    rw [length_append]
    exact Nat.lt_succ_of_le hk
  unfold strcpy
  rw [if_pos (Nat.le_add_right n k), Nat.add_sub_cancel_left, List.getElem?_eq_getElem hlt]

theorem strcpy_outside (hk : k < n ∨ n + palabra.length < k) : strcpy heap n palabra k = heap k := by
  unfold strcpy
  split
  · rw [List.getElem?_eq_none]
    rw [length_append]
    show palabra.length + 1 ≤ k - n
    omega
  · rfl

/-- A word that ends inside of the array is printed as it is. -/
theorem cString_eq (hnul : 0 ∉ palabra) (hn : n + palabra.length < 750)
    (hbytes : ∀ k, k ≤ palabra.length → some (heap (n + k)) = (palabra ++ [0])[k]?) :
    cString heap n = palabra := by
  have hsplit : List.range' n (750 - n) = List.range' n (palabra.length + 1) ++
      List.range' (n + (palabra.length + 1)) (750 - n - (palabra.length + 1)) := by
    rw [range'_append_1]
    congr 1
    omega
  have hmap : (List.range' n (palabra.length + 1)).map heap = palabra ++ [0] := by
    apply ext_getElem?
    intro k
    by_cases hk : k < palabra.length + 1
    · rw [← hbytes k (by omega)]
      simp [hk]
    · rw [List.getElem?_eq_none (by simpa using hk), List.getElem?_eq_none (by simpa using hk)]
  unfold cString
  rw [hsplit, map_append, hmap, append_assoc, takeWhile_append_of_pos]
  · simp
  · intro b hb
    have hne : b ≠ 0 := fun h => hnul (h ▸ hb)
    simpa using hne

/-- The rows of the array hold the words `ps`, from the first one on. -/
structure Guarda (ps : List (List UInt8)) (heap : Nat → UInt8) : Prop where
  fits : ∀ palabra ∈ ps, 0 ∉ palabra ∧ palabra.length < 50
  bytes : ∀ i palabra, ps[i]? = some palabra → ∀ k, k ≤ palabra.length →
    some (heap (50 * i + k)) = (palabra ++ [0])[k]?

theorem guarda_nil (heap : Nat → UInt8) : Guarda [] heap := ⟨nofun, nofun⟩

theorem Guarda.push (h : Guarda ps heap) (hnul : 0 ∉ palabra) (hp : palabra.length < 50) :
    Guarda (ps ++ [palabra]) (strcpy heap (50 * ps.length) palabra) := by
  refine ⟨fun q hq => ?_, fun i q hq k hk => ?_⟩
  · rcases mem_append.1 hq with hq | hq
    · exact h.fits q hq
    · rw [mem_singleton.1 hq]
      exact ⟨hnul, hp⟩
  · by_cases hi : i < ps.length
    · rw [List.getElem?_append_left hi] at hq
      have hlen := (h.fits q (mem_of_getElem? hq)).2
      rw [strcpy_outside (.inl (by omega))]
      exact h.bytes i q hq k hk
    · rw [List.getElem?_append_right (Nat.le_of_not_lt hi)] at hq
      rw [List.getElem?_singleton] at hq
      split at hq
      · obtain rfl : i = ps.length := by omega
        cases hq
        exact strcpy_inside hk
      · cases hq

theorem Guarda.pop (h : Guarda ps heap) : Guarda ps.dropLast heap := by
  refine ⟨fun q hq => h.fits q (dropLast_subset ps hq), fun i q hq => ?_⟩
  have hi : i < ps.length - 1 := by
    have := (List.getElem?_eq_some_iff.1 hq).1
    rwa [length_dropLast] at this
  rw [List.getElem?_dropLast, if_pos hi] at hq
  exact h.bytes i q hq

/-- What `-p` prints. -/
def lineas (ps : List (List UInt8)) : List Salida := if ps = [] then [.vacia] else ps.map .palabra

theorem Guarda.imprimir (h : Guarda ps m.heap) (hc : Cuenta ps.length m) : imprimir m = lineas ps := by
  have hle := hc.le
  unfold Lab05.imprimir lineas
  rw [hc.items]
  by_cases hps : ps = []
  · subst hps
    rfl
  · have hlen : ps.length ≠ 0 := fun h0 => hps (length_eq_zero_iff.1 h0)
    rw [if_neg (by omega), if_neg hps]
    apply ext_getElem?
    intro i
    by_cases hi : i < ps.length
    · have hq : ps[i]? = some ps[i] := List.getElem?_eq_getElem hi
      obtain ⟨hnul, hp⟩ := h.fits _ (getElem_mem hi)
      have hread := cString_eq hnul (by omega) (h.bytes i _ hq)
      simp [hi, hread]
    · rw [List.getElem?_eq_none (by simpa using hi), List.getElem?_eq_none (by simpa using hi)]

/-- The words that have been pushed and not popped, from the bottom to the top. -/
def pila (ps : List (List UInt8)) : Comando → List (List UInt8)
  | .w palabra => ps ++ [palabra]
  | .r => ps.dropLast
  | .p => ps

theorem guarda_orden (h : Guarda ps m.heap) (hc : Cuenta ps.length m)
    (hw : ∀ palabra, c = .w palabra → 0 ∉ palabra ∧ palabra.length < 50)
    (hroom : (pila ps c).length ≤ 14) :
    ∃ m', orden m c = .ok m' ∧ Guarda (pila ps c) m'.heap ∧ Cuenta (pila ps c).length m' := by
  cases c with
  | w palabra =>
    obtain ⟨hnul, hp⟩ := hw palabra rfl
    have hlen : (pila ps (.w palabra)).length = ps.length + 1 := length_append
    rw [hlen] at hroom ⊢
    obtain ⟨m', hrun, hc', hheap, -⟩ := hc.push hroom hp
    refine ⟨m', by rw [orden, hrun]; rfl, ?_, hc'⟩
    rw [hheap]
    exact h.push hnul hp
  | r =>
    obtain ⟨m', out, hrun, hc', hheap⟩ := hc.pop
    refine ⟨m', by rw [orden, hrun]; rfl, ?_, ?_⟩
    · rw [hheap]
      exact h.pop
    · rw [pila, length_dropLast]
      exact hc'
  | p => exact ⟨m, by rw [orden, ejecutar_p hc.mutex]; rfl, h, hc⟩

theorem guarda_run (heap : Nat → UInt8) (comandos : List Comando)
    (hw : ∀ palabra, .w palabra ∈ comandos → 0 ∉ palabra ∧ palabra.length < 50)
    (hroom : ∀ pre, pre <+: comandos → (pre.foldl pila []).length ≤ 14) :
    ∃ m, run orden (crear heap) comandos = .ok m ∧ Guarda (comandos.foldl pila []) m.heap ∧
      Cuenta (comandos.foldl pila []).length m := by
  induction comandos using reverseRecOn with
  | nil => exact ⟨_, rfl, guarda_nil _, cuenta_crear heap⟩
  | append_singleton comandos c ih =>
    obtain ⟨m, hrun, h, hc⟩ := ih (fun palabra hp => hw palabra (mem_append_left _ hp))
      fun pre hpre => hroom pre (hpre.trans (prefix_append _ _))
    have hlast := hroom _ (prefix_refl _)
    rw [foldl_concat] at hlast ⊢
    obtain ⟨m', hstep, h', hc'⟩ := guarda_orden h hc (c := c) (fun palabra hc =>
      hw palabra (mem_append_right _ (mem_singleton.2 hc.symm))) hlast
    exact ⟨m', run_concat_ok.2 ⟨m, hrun, hstep⟩, h', hc'⟩

/-- **A stack of words.**  After `-c`, with words that are shorter than a row and at most 14 of them on
the stack at a time, every command ends, `-p` prints the words that have been pushed and not popped
from the bottom to the top, and a push writes its own row only and moves the semaphores by one. -/
theorem stack_of_words (heap : Nat → UInt8) (comandos : List Comando)
    (hnul : ∀ palabra, .w palabra ∈ comandos → 0 ∉ palabra)
    (hw : ∀ palabra, .w palabra ∈ comandos → palabra.length < 50)
    (hroom : ∀ pre, pre <+: comandos → (pre.foldl pila []).length ≤ 14) :
    ∃ m, run orden (crear heap) comandos = .ok m ∧
      ejecutar m .p = .ok (m, lineas (comandos.foldl pila [])) ∧
      ∀ palabra : List UInt8, palabra.length < 50 → (comandos.foldl pila []).length < 14 →
        ∃ m', ejecutar m (.w palabra) = .ok (m', [.agregada palabra]) ∧
          (∀ k, k / 50 ≠ (comandos.foldl pila []).length → m'.heap k = m.heap k) ∧
          m'.mutex = m.mutex ∧ m'.full = m.full + 1 ∧ m'.empty + 1 = m.empty := by
  obtain ⟨m, hrun, h, hc⟩ := guarda_run heap comandos
    (fun palabra hp => ⟨hnul palabra hp, hw palabra hp⟩) hroom
  refine ⟨m, hrun, ?_, fun palabra hp hlt => ?_⟩
  · rw [ejecutar_p hc.mutex, h.imprimir hc]
  · obtain ⟨m', hpush, -, hheap, hmutex, hfull, hempty⟩ := hc.push hlt hp
    refine ⟨m', hpush, fun k hk => ?_, hmutex, hfull, hempty⟩
    rw [hheap, strcpy_outside]
    omega

/-- Two words, of which the second one is popped. -/
theorem stack_of_words_two :
    ∃ m, run orden (crear fun _ => 0) [.w [104, 105], .w [97], .r] = .ok m ∧
      ejecutar m .p = .ok (m, [.palabra [104, 105]]) := by
  obtain ⟨m, hrun, hp, -⟩ := stack_of_words (fun _ => 0) [.w [104, 105], .w [97], .r] (by simp) (by simp)
    (by
      intro pre hpre
      rw [← mem_inits] at hpre
      revert pre
      decide)
  exact ⟨m, hrun, hp⟩

/-- A word of 50 bytes runs into the next row: the word that is pushed after it is printed as its end. -/
theorem long_word_altered :
    ∃ m, run orden (crear fun _ => 0) [.w (List.replicate 50 97), .w [98]] = .ok m ∧
      ejecutar m .p = .ok (m, [.palabra (List.replicate 50 97 ++ [98]), .palabra [98]]) :=
  ⟨_, rfl, rfl⟩

end Laboratorio.Lab05
