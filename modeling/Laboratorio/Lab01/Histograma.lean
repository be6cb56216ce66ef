import Laboratorio.Lib.CInt

/-!
# The histogram of `lab-01/histograma.c`

`cantidad` has 20 elements, and the first loop already writes `cantidad[20]`.  What is behind the array
is not ours to say, so it is a parameter: `libre` means that the `int` there belongs to no other
object, and then it holds what is written into it; otherwise the write has no meaning.  The counters
are `int`s, and `basura` are the values that the array has before it is initialised.

A word is counted when the separator behind it is read.  `cerradas` are the lengths that are counted
in this way, and `abierta` is the length of the run that the end of the input cuts off.
-/

namespace Laboratorio.Histograma

open Laboratorio.Lib Function List

def cantdidadMaximaLetras : Nat := 20

/-- A row: `printf("%d ", i)`, the stars, and a newline. -/
structure Fila where
  longitud : Nat
  estrellas : Nat
  deriving DecidableEq, Repr

/-- How a run ends before the histogram is printed. -/
inductive Parada where
  /-- An access outside of `cantidad` to an object that is not free. -/
  | fuera
  /-- `"\nLa palabra mas larga permitida es de %d caracteres.\n"`, then `exit(132)`. -/
  | larga
  deriving DecidableEq, Repr

structure Estado where
  cantidad : Nat → Int
  auxLength : Nat

def separador (c : UInt8) : Bool := c == ' '.toUInt8 || c == '\n'.toUInt8

/-- `cantidad[i] = v`. -/
def asignar (libre : Bool) (cantidad : Nat → Int) (i : Nat) (v : Int) : Except Parada (Nat → Int) :=
  if i < cantdidadMaximaLetras ∨ i = cantdidadMaximaLetras ∧ libre = true then
    .ok (update cantidad i v)
  else .error .fuera

/-- `for (i = 0; i <= cantdidadMaximaLetras; i++) cantidad[i] = 0`, with `n` turns left. -/
def iniciar (libre : Bool) : (n : Nat) → (i : Nat) → (Nat → Int) → Except Parada (Nat → Int)
  | 0, _, cantidad => .ok cantidad
  | n + 1, i, cantidad => do
    let cantidad ← asignar libre cantidad i 0
    iniciar libre n (i + 1) cantidad

/-- The loop over the input. -/
def bucle (libre : Bool) : List UInt8 → Estado → Except Parada Estado
  | [], s => .ok s
  | caracter :: texto, s =>
    if separador caracter then do
      let cantidad ← asignar libre s.cantidad s.auxLength (wrap32 (s.cantidad s.auxLength + 1))
      bucle libre texto ⟨cantidad, 0⟩
    else if s.auxLength + 1 > cantdidadMaximaLetras then .error .larga
    else bucle libre texto { s with auxLength := s.auxLength + 1 }

/-- `indicePalabraMasLarga` after the search in the first `n` counters. -/
def masLarga (cantidad : Nat → Int) : Nat → Nat
  | 0 => 0
  | n + 1 => if cantidad n > 0 then n else masLarga cantidad n

def filas (cantidad : Nat → Int) : List Fila :=
  (List.range' 1 (masLarga cantidad cantdidadMaximaLetras)).map fun i => ⟨i, (cantidad i).toNat⟩

def main (libre : Bool) (basura : Nat → Int) (texto : List UInt8) : Except Parada (List Fila) := do
  let cantidad ← iniciar libre (cantdidadMaximaLetras + 1) 0 basura
  let s ← bucle libre texto ⟨cantidad, 0⟩
  .ok (filas s.cantidad)

/-! ## What is asked for -/

/-- The lengths of the words of a text. -/
def longitudes (texto : List UInt8) : List Nat :=
  ((texto.splitOnP separador).map List.length).filter (0 < ·)

def maxima (ls : List Nat) : Nat := ls.foldr max 0

/-- For each length up to that of the longest word, a row with the number of such words. -/
def pedido (texto : List UInt8) : List Fila :=
  (List.range' 1 (maxima (longitudes texto))).map fun l => ⟨l, (longitudes texto).count l⟩

/-- The last character is a separator, if there is one. -/
def Termina (texto : List UInt8) : Prop := ∀ c ∈ texto.getLast?, separador c = true

/-! ## The loop -/

variable {libre : Bool} {texto : List UInt8} {cantidad : Nat → Int} {a i l n : Nat}

/-- The lengths that are counted, when `a` characters of a word have been read. -/
def cerradas : (a : Nat) → List UInt8 → List Nat
  | _, [] => []
  | a, c :: texto => if separador c then a :: cerradas 0 texto else cerradas (a + 1) texto

/-- The length that is not counted. -/
def abierta : (a : Nat) → List UInt8 → Nat
  | a, [] => a
  | a, c :: texto => if separador c then abierta 0 texto else abierta (a + 1) texto

theorem map_length_splitOnP (texto : List UInt8) : ∀ a,
    ((texto.splitOnP separador).map List.length).modifyHead (a + ·) =
      cerradas a texto ++ [abierta a texto] := by
  induction texto with
  | nil => simp [splitOnP_nil, cerradas, abierta]
  | cons c texto ih =>
    intro a
    obtain ⟨r, rs, hr⟩ := exists_cons_of_ne_nil (splitOnP_ne_nil separador texto)
    have ih' := fun b => ih b
    rw [splitOnP_cons_eq_if_modifyHead, cerradas, abierta]
    rw [hr] at ih' ⊢
    by_cases hc : separador c = true
    · simpa [hc] using ih' 0
    · simpa [hc, Nat.add_assoc, Nat.add_comm 1] using ih' (a + 1)

theorem longitudes_eq (texto : List UInt8) :
    longitudes texto = (cerradas 0 texto ++ [abierta 0 texto]).filter (0 < ·) := by
  obtain ⟨r, rs, hr⟩ := exists_cons_of_ne_nil (splitOnP_ne_nil separador texto)
  have h := map_length_splitOnP texto 0
  rw [longitudes]
  rw [hr] at h ⊢
  simpa using congrArg (List.filter (0 < ·)) h

theorem le_of_runs (texto : List UInt8) : ∀ {a : Nat}, (∀ l ∈ cerradas a texto, l ≤ 20) →
    abierta a texto ≤ 20 → a ≤ 20 := by
  induction texto with
  | nil => exact fun _ h => h
  | cons c texto ih =>
    intro a hcerradas habierta
    by_cases hc : separador c = true
    · simp only [cerradas, hc, if_true] at hcerradas
      exact hcerradas a mem_cons_self
    · simp only [cerradas, abierta, hc] at hcerradas habierta
      exact Nat.le_of_succ_le (ih hcerradas habierta)

/-- The counters after the loop: each has been incremented once for each of the words it counts. -/
theorem bucle_spec (texto : List UInt8) : ∀ {cantidad : Nat → Int} {a : Nat},
    (∀ l ≤ 20, wrap32 (cantidad l) = cantidad l) → (∀ l ∈ cerradas a texto, l ≤ 20) →
    abierta a texto ≤ 20 → ∃ s, bucle true texto ⟨cantidad, a⟩ = .ok s ∧
      ∀ l ≤ 20, s.cantidad l = wrap32 (cantidad l + (cerradas a texto).count l) := by
  induction texto with
  | nil =>
    intro cantidad a hwrap _ _
    exact ⟨_, rfl, fun l hl => by simp [cerradas, hwrap l hl]⟩
  | cons c texto ih =>
    intro cantidad a hwrap hcerradas habierta
    have ha := le_of_runs _ hcerradas habierta
    unfold bucle
    by_cases hc : separador c = true
    · simp only [cerradas, abierta, hc, if_true] at hcerradas habierta ⊢
      have hin : a < cantdidadMaximaLetras ∨ a = cantdidadMaximaLetras ∧ true = true := by
        rcases Nat.lt_or_eq_of_le ha with h | h
        · exact .inl h
        · exact .inr ⟨h, rfl⟩
      obtain ⟨cantidad', hcantidad'⟩ :
          ∃ cantidad', cantidad' = update cantidad a (wrap32 (cantidad a + 1)) := ⟨_, rfl⟩
      have hwrap' : ∀ l ≤ 20, wrap32 (cantidad' l) = cantidad' l := by
        intro l hl
        rw [hcantidad']
        by_cases hla : l = a
        · rw [hla, update_self, wrap32_wrap32]
        · rw [update_of_ne hla, hwrap l hl]
      obtain ⟨s, hs, hcount⟩ := ih hwrap' (fun l hl => hcerradas l (mem_cons_of_mem _ hl)) habierta
      refine ⟨s, ?_, fun l hl => ?_⟩
      · rw [asignar, if_pos hin, ← hcantidad']
        exact hs
      · rw [hcount l hl, hcantidad']
        by_cases hla : l = a
        · subst hla
          rw [update_self, wrap32_wrap32_add, count_cons_self]
          congr 1
          push_cast
          omega
        · rw [update_of_ne hla, count_cons_of_ne fun h => hla h.symm]
    · simp only [cerradas, abierta, hc] at hcerradas habierta ⊢
      have hlt := le_of_runs texto hcerradas habierta
      have hshort : ¬ a + 1 > cantdidadMaximaLetras := by
        unfold cantdidadMaximaLetras
        omega
      simp only [hshort, if_false]
      exact ih hwrap hcerradas habierta

theorem iniciar_spec (n : Nat) : ∀ {i : Nat} (cantidad : Nat → Int), i + n ≤ 21 → ∃ cantidad',
    iniciar true n i cantidad = .ok cantidad' ∧ (∀ l, i ≤ l → l < i + n → cantidad' l = 0) ∧
      ∀ l < i, cantidad' l = cantidad l := by
  induction n with
  | zero => exact fun _ _ => ⟨_, rfl, fun l h1 h2 => absurd h1 (by omega), fun _ _ => rfl⟩
  | succ n ih =>
    intro i cantidad h
    have hin : i < cantdidadMaximaLetras ∨ i = cantdidadMaximaLetras ∧ true = true := by
      rcases Nat.lt_or_eq_of_le (show i ≤ 20 by omega) with h | h
      · exact .inl h
      · exact .inr ⟨h, rfl⟩
    obtain ⟨cantidad', hini, hzero, hrest⟩ := ih (i := i + 1) (update cantidad i 0) (by omega)
    refine ⟨cantidad', ?_, fun l h1 h2 => ?_, fun l hl => ?_⟩
    · rw [iniciar, asignar, if_pos hin]
      exact hini
    · by_cases hl : l = i
      · subst hl
        rw [hrest l (by omega), update_self]
      · exact hzero l (by omega) (by omega)
    · rw [hrest l (by omega), update_of_ne (by omega)]

/-- The search ends at the last counter that is positive, or at 0. -/
theorem masLarga_spec (cantidad : Nat → Int) (n : Nat) :
    (masLarga cantidad n = 0 ∨ masLarga cantidad n < n ∧ 0 < cantidad (masLarga cantidad n)) ∧
      ∀ i < n, 0 < cantidad i → i ≤ masLarga cantidad n := by
  induction n with
  | zero => exact ⟨.inl rfl, fun i hi => absurd hi (Nat.not_lt_zero i)⟩
  | succ n ih =>
    unfold masLarga
    split
    · rename_i hn
      exact ⟨.inr ⟨Nat.lt_succ_self n, hn⟩, fun i hi _ => Nat.le_of_lt_succ hi⟩
    · rename_i hn
      refine ⟨ih.1.imp_right fun h => ⟨Nat.lt_succ_of_lt h.1, h.2⟩, fun i hi hpos => ?_⟩
      rcases Nat.lt_or_eq_of_le (Nat.le_of_lt_succ hi) with h | rfl
      · exact ih.2 i h hpos
      · exact absurd hpos hn

theorem le_maxima {ls : List Nat} (h : l ∈ ls) : l ≤ maxima ls := by
  induction ls with
  | nil => cases h
  | cons k ls ih =>
    rw [maxima, foldr_cons]
    rcases mem_cons.1 h with rfl | h
    · exact Nat.le_max_left _ _
    · exact Nat.le_trans (ih h) (Nat.le_max_right _ _)

theorem maxima_mem (ls : List Nat) : maxima ls = 0 ∨ maxima ls ∈ ls := by
  induction ls with
  | nil => exact .inl rfl
  | cons k ls ih =>
    have hcons : maxima (k :: ls) = max k (maxima ls) := rfl
    rw [hcons]
    rcases Nat.le_total k (maxima ls) with hk | hk
    · rw [Nat.max_eq_right hk]
      exact ih.imp_right fun h => mem_cons_of_mem _ h
    · rw [Nat.max_eq_left hk]
      exact .inr mem_cons_self

theorem filas_eq_iff {f g : Nat → Nat} {r t : Nat} :
    ((List.range' 1 r).map fun i => (⟨i, f i⟩ : Fila)) = (List.range' 1 t).map (fun i => ⟨i, g i⟩) ↔
      r = t ∧ ∀ i, 1 ≤ i → i ≤ r → f i = g i := by
  constructor
  · intro h
    have hlen : r = t := by simpa using congrArg List.length h
    subst hlen
    refine ⟨rfl, fun i h1 h2 => ?_⟩
    have := map_inj_left.1 h i (mem_range'_1.2 ⟨h1, by omega⟩)
    exact congrArg Fila.estrellas this
  · rintro ⟨rfl, h⟩
    refine map_congr_left fun i hi => ?_
    obtain ⟨h1, h2⟩ := mem_range'_1.1 hi
    rw [h i h1 (by omega)]

theorem abierta_eq_zero_iff (texto : List UInt8) : abierta 0 texto = 0 ↔ Termina texto := by
  have hlast : ∀ (t : List UInt8) (c : UInt8) (a : Nat), abierta a (c :: t) = 0 ↔ Termina (c :: t) := by
    intro t
    induction t with
    | nil =>
      intro c a
      by_cases hc : separador c = true <;> simp [abierta, Termina, hc]
    | cons d t ih =>
      intro c a
      have hstep : Termina (c :: d :: t) ↔ Termina (d :: t) := by
        unfold Termina
        rw [getLast?_cons_cons]
      rw [hstep, abierta]
      split
      · exact ih d 0
      · exact ih d (a + 1)
  cases texto with
  | nil => simp [abierta, Termina]
  | cons c t => exact hlast t c 0

/-- Of the words, only the one at the end of the text is not counted. -/
theorem count_longitudes (hl : 0 < l) : (longitudes texto).count l =
    (cerradas 0 texto).count l + if abierta 0 texto = l then 1 else 0 := by
  rw [longitudes_eq, count_filter (by simpa using hl), count_append, count_singleton]
  simp

theorem mem_longitudes : l ∈ longitudes texto ↔ 0 < l ∧ (l ∈ cerradas 0 texto ∨ l = abierta 0 texto) := by
  rw [longitudes_eq, mem_filter, mem_append, mem_singleton, decide_eq_true_eq, and_comm]

theorem toNat_wrap32_le (k : Nat) : (wrap32 k).toNat ≤ k := by
  show (if (k : Int) % 2 ^ 32 < (2 ^ 32 + 1) / 2 then (k : Int) % 2 ^ 32
    else (k : Int) % 2 ^ 32 - 2 ^ 32).toNat ≤ k
  split <;> omega

/-- The program as far as the array goes: the first loop writes `cantidad[20]`. -/
theorem main_fuera (basura : Nat → Int) (texto : List UInt8) :
    main false basura texto = .error .fuera := rfl

theorem main_libre (basura : Nat → Int) (h : ∀ l ∈ longitudes texto, l ≤ 20) :
    ∃ cantidad, main true basura texto = .ok (filas cantidad) ∧
      ∀ l ≤ 20, cantidad l = wrap32 ((cerradas 0 texto).count l) := by
  have hcerradas : ∀ l ∈ cerradas 0 texto, l ≤ 20 := by
    intro l hl
    by_cases h0 : 0 < l
    · exact h l (mem_longitudes.2 ⟨h0, .inl hl⟩)
    · omega
  have habierta : abierta 0 texto ≤ 20 := by
    by_cases h0 : 0 < abierta 0 texto
    · exact h _ (mem_longitudes.2 ⟨h0, .inr rfl⟩)
    · omega
  obtain ⟨cantidad, hini, hzero, -⟩ := iniciar_spec 21 (i := 0) basura (by omega)
  have hwrap : ∀ l ≤ 20, wrap32 (cantidad l) = cantidad l := by
    intro l hl
    rw [hzero l (by omega) (by omega)]
    rfl
  obtain ⟨s, hs, hcount⟩ := bucle_spec texto hwrap hcerradas habierta
  refine ⟨s.cantidad, ?_, fun l hl => ?_⟩
  · rw [main, cantdidadMaximaLetras, hini]
    show (bucle true texto ⟨cantidad, 0⟩).bind _ = _
    rw [hs]
    rfl
  · rw [hcount l hl, hzero l (by omega) (by omega), Int.zero_add]

/-- **The last word, the longest words and the array.**  For every text whose words have at most 20
characters, the rows are right if and only if the `int` behind the array is free, the text ends in a
separator, no word has 20 characters, and no length has `2 ^ 31` words. -/
theorem histograma_iff (libre : Bool) (basura : Nat → Int) (texto : List UInt8)
    (h : ∀ l ∈ longitudes texto, l ≤ 20) : main libre basura texto = .ok (pedido texto) ↔
      libre = true ∧ Termina texto ∧ 20 ∉ longitudes texto ∧
        ∀ l, (longitudes texto).count l < 2 ^ 31 := by
  cases libre with
  | false =>
    rw [main_fuera]
    simp
  | true =>
    obtain ⟨cantidad, hmain, hcount⟩ := main_libre basura h
    obtain ⟨hmas, hmayor⟩ := masLarga_spec cantidad cantdidadMaximaLetras
    simp only [hmain, Except.ok.injEq, true_and]
    rw [filas, pedido, filas_eq_iff, ← abierta_eq_zero_iff]
    generalize masLarga cantidad cantdidadMaximaLetras = r at *
    simp only [cantdidadMaximaLetras] at *
    constructor
    · rintro ⟨rfl, hfilas⟩
      -- the row of a length in the text has all its words
      have hfila : ∀ l ∈ longitudes texto, (cantidad l).toNat = (longitudes texto).count l := fun l hl =>
        hfilas l (mem_longitudes.1 hl).1 (le_maxima hl)
      refine ⟨?_, fun h20 => ?_, fun l => ?_⟩
      · by_contra hne
        have hpos : 0 < abierta 0 texto := Nat.pos_of_ne_zero hne
        have hmem : abierta 0 texto ∈ longitudes texto := mem_longitudes.2 ⟨hpos, .inr rfl⟩
        have hrow := hfila _ hmem
        have hle := toNat_wrap32_le ((cerradas 0 texto).count (abierta 0 texto))
        rw [count_longitudes hpos, if_pos rfl, hcount _ (h _ hmem)] at hrow
        omega
      · have := le_maxima h20
        rcases hmas with h | h <;> omega
      · by_contra hge
        have hmem : l ∈ longitudes texto := count_pos_iff.1 (by omega)
        have hrow := hfila l hmem
        have hle := wrap32_le ((cerradas 0 texto).count l)
        rw [hcount l (h l hmem)] at hrow
        unfold INT_MAX at hle
        omega
    · rintro ⟨hfin, h20, h31⟩
      -- every word is counted, and no counter has overflowed
      have hexact : ∀ l ≤ 20, 0 < l → cantidad l = (longitudes texto).count l := by
        intro l hl hpos
        have hlt := h31 l
        rw [count_longitudes hpos, if_neg (by omega), Nat.add_zero] at hlt ⊢
        rw [hcount l hl, wrap32_of_range (by omega) (by omega)]
      have hr : r = maxima (longitudes texto) := by
        refine Nat.le_antisymm ?_ ?_
        · by_cases hr₀ : r = 0
          · omega
          · obtain ⟨hlt, hpos⟩ := hmas.resolve_left hr₀
            rw [hexact r (by omega) (Nat.pos_of_ne_zero hr₀)] at hpos
            exact le_maxima (count_pos_iff.1 (by omega))
        · rcases maxima_mem (longitudes texto) with h₀ | hmem
          · omega
          · have hle := h _ hmem
            have hne : maxima (longitudes texto) ≠ 20 := fun heq => h20 (heq ▸ hmem)
            have hcuenta := count_pos_iff.2 hmem
            refine hmayor _ (by omega) ?_
            rw [hexact _ hle (mem_longitudes.1 hmem).1]
            omega
      refine ⟨hr, fun l h₁ h₂ => ?_⟩
      have hlt : r ≤ 20 := by rcases hmas with h | h <;> omega
      rw [hexact l (by omega) h₁]
      rfl

/-- `es un` and a newline. -/
theorem histograma_iff_es_un : (∀ l ∈ longitudes [101, 115, 32, 117, 110, 10], l ≤ 20) ∧
    main true (fun _ => 0) [101, 115, 32, 117, 110, 10] =
      .ok (pedido [101, 115, 32, 117, 110, 10]) := by
  have h : ∀ l ∈ longitudes [101, 115, 32, 117, 110, 10], l ≤ 20 := by decide
  refine ⟨h, (histograma_iff true _ _ h).2 ⟨rfl, ?_, by decide, fun l => ?_⟩⟩
  · rw [← abierta_eq_zero_iff]
    decide
  · have hlen : (longitudes [101, 115, 32, 117, 110, 10]).length = 2 := by decide
    have := count_le_length (a := l) (l := longitudes [101, 115, 32, 117, 110, 10])
    omega

/-- The text `a`, without a newline: no row is printed. -/
theorem histograma_a : main true (fun _ => 0) [97] = .ok [] ∧ pedido [97] = [⟨1, 1⟩] := by
  exact ⟨rfl, by decide +kernel⟩

end Laboratorio.Histograma
