import Mathlib

/-!
# Writing a word on the canvas of `lab-05/canvas.c`

The canvas is the flat array of `HEIGHT * WIDTH = 625` characters.  `x` and `y` are `int`s, the length
of the word and the loop variable are `size_t`s, so the sums in the tests and in the indices are taken
modulo `2 ^ 64`.  An assignment outside the array has no outcome.

`Cabe` is what the exercise asks for: every cell of the word lies in the grid.  `Escrito` says that the
cells of the word, and no others, have been changed.
-/

namespace Laboratorio.Canvas

def HEIGHT : Nat := 25

def WIDTH : Nat := 25

/-- `canvas_t`. -/
abbrev Pizarra := Fin (HEIGHT * WIDTH) → UInt8

/-- `argv[3]`: a string that is not empty, in an object that C can have. -/
structure Palabra where
  letras : List UInt8
  nonul : (0 : UInt8) ∉ letras
  ne_nil : letras ≠ []
  objeto : letras.length < 2 ^ 63

/-- What is written to `stderr`. -/
inductive Aviso where
  /-- `"Error: coordenadas fuera de rango.\n"` -/
  | fueraDeRango
  /-- `"Error: dirección desconocida '%c'. Use 'h' para horizontal o 'v' para vertical.\n"` -/
  | direccionDesconocida (c : UInt8)
  deriving DecidableEq, Repr

/-- A `size_t` sum. -/
def suma (a b : Nat) : Nat := (a + b) % 2 ^ 64

/-- An `int` as a `size_t`. -/
def size (v : Int) : Nat := (v % 2 ^ 64).toNat

/-- `canvas->canvas[k] = b`. -/
def guardar (c : Pizarra) (k : Nat) (b : UInt8) : Option Pizarra :=
  if h : k < HEIGHT * WIDTH then some (Function.update c ⟨k, h⟩ b) else none

/-- The loop over the letters, from number `i` on, with the index `f i` for letter `i`. -/
def escribir (f : Nat → Nat) : (i : Nat) → List UInt8 → Pizarra → Option Pizarra
  | _, [], c => some c
  | i, b :: w, c => (guardar c (f i) b).bind (escribir f (i + 1) w)

/-- `x * WIDTH + y + i`. -/
def indiceH (x y : Int32) (i : Nat) : Nat := suma (size (x.toInt * WIDTH + y.toInt)) i

/-- `(x + i) * WIDTH + y`. -/
def indiceV (x y : Int32) (i : Nat) : Nat :=
  suma (suma (size x.toInt) i * WIDTH % 2 ^ 64) (size y.toInt)

/-- The case `w` once the canvas is mapped; `dir` is `argv[6][0]`. -/
def casoW (c : Pizarra) (w : Palabra) (x y : Int32) (dir : UInt8) : Option (Pizarra × List Aviso) :=
  let len := w.letras.length
  if dir = 'h'.toUInt8 then
    if x.toInt ≥ 0 ∧ x.toInt < HEIGHT ∧ y.toInt ≥ 0 ∧ suma (size y.toInt) len ≤ WIDTH then
      (escribir (indiceH x y) 0 w.letras c).map fun c => (c, [])
    else some (c, [.fueraDeRango])
  else if dir = 'v'.toUInt8 then
    if x.toInt ≥ 0 ∧ suma (size x.toInt) len < HEIGHT ∧ y.toInt ≥ 0 ∧ y.toInt < WIDTH then
      (escribir (indiceV x y) 0 w.letras c).map fun c => (c, [])
    else some (c, [.fueraDeRango])
  else some (c, [.direccionDesconocida dir])

/-! ## What is asked for -/

inductive Dir where
  | h
  | v
  deriving DecidableEq, Repr

def Dir.char : Dir → UInt8
  | .h => 'h'.toUInt8
  | .v => 'v'.toUInt8

/-- Row and column of letter `i`. -/
def pos (x y : Int32) (i : Nat) : Dir → Int × Int
  | .h => (x.toInt, y.toInt + i)
  | .v => (x.toInt + i, y.toInt)

/-- Every cell of the word lies in the grid. -/
def Cabe (w : Palabra) (x y : Int32) (dir : Dir) : Prop :=
  ∀ i < w.letras.length, 0 ≤ (pos x y i dir).1 ∧ (pos x y i dir).1 < HEIGHT ∧
    0 ≤ (pos x y i dir).2 ∧ (pos x y i dir).2 < WIDTH

def celda (c : Pizarra) (f k : Fin 25) : UInt8 :=
  c ⟨f * WIDTH + k, by unfold HEIGHT WIDTH; omega⟩

/-- The cells of the word have its letters, and all others are as before. -/
structure Escrito (w : Palabra) (x y : Int32) (dir : Dir) (c c' : Pizarra) : Prop where
  letras : ∀ i b, w.letras[i]? = some b → ∀ f k : Fin 25, pos x y i dir = (↑f.val, ↑k.val) →
    celda c' f k = b
  resto : ∀ f k : Fin 25, (∀ i < w.letras.length, pos x y i dir ≠ (↑f.val, ↑k.val)) →
    celda c' f k = celda c f k

/-- The word is written if it fits, and rejected if not. -/
def Correcto (c : Pizarra) (w : Palabra) (x y : Int32) (dir : Dir) : Prop :=
  (Cabe w x y dir → ∃ c', casoW c w x y dir.char = some (c', []) ∧ Escrito w x y dir c c') ∧
    (¬ Cabe w x y dir → casoW c w x y dir.char = some (c, [.fueraDeRango]))

def traspuesta (c : Pizarra) : Pizarra := fun n =>
  celda c ⟨n % WIDTH, Nat.mod_lt _ (by decide)⟩ ⟨n / WIDTH, by
    have := n.isLt
    unfold HEIGHT WIDTH at *
    omega⟩

/-- Writing down at `(x, y)` is writing to the right at `(y, x)` on the transposed canvas. -/
def Traspone (c : Pizarra) (w : Palabra) (x y : Int32) : Prop :=
  casoW c w x y 'v'.toUInt8 =
    (casoW (traspuesta c) w y x 'h'.toUInt8).map fun r => (traspuesta r.1, r.2)

/-! ## The loop -/

variable {c c' : Pizarra} {w : Palabra} {x y : Int32} {dir : Dir}

theorem escribir_spec {f : Nat → Nat} (l : List UInt8) : ∀ {i : Nat} {c : Pizarra},
    (∀ j < l.length, f (i + j) < HEIGHT * WIDTH) →
    (∀ j < l.length, ∀ k < l.length, f (i + j) = f (i + k) → j = k) →
    ∃ c', escribir f i l c = some c' ∧
      (∀ j b, l[j]? = some b → ∀ n : Fin (HEIGHT * WIDTH), n.val = f (i + j) → c' n = b) ∧
      ∀ n : Fin (HEIGHT * WIDTH), (∀ j < l.length, n.val ≠ f (i + j)) → c' n = c n := by
  induction l with
  | nil =>
    intro i c _ _
    exact ⟨c, rfl, by simp, fun _ _ => rfl⟩
  | cons b l ih =>
    intro i c hlt hinj
    have h0 : f i < HEIGHT * WIDTH := hlt 0 (by simp)
    have hsucc (j : Nat) : i + 1 + j = i + (j + 1) := by omega
    obtain ⟨c', hc', hletras, hresto⟩ := ih (i := i + 1) (c := Function.update c ⟨f i, h0⟩ b)
      (fun j hj => by rw [hsucc]; exact hlt (j + 1) (by simpa using hj))
      (fun j hj k hk h => by
        rw [hsucc, hsucc] at h
        have := hinj (j + 1) (by simpa using hj) (k + 1) (by simpa using hk) h
        omega)
    refine ⟨c', ?_, fun j b' hj n hn => ?_, fun n hn => ?_⟩
    · rw [escribir, guardar, dif_pos h0, Option.bind_some, hc']
    · cases j with
      | zero =>
        have hb : b = b' := by simpa using hj
        subst hb
        have hother : ∀ j < l.length, n.val ≠ f (i + 1 + j) := by
          intro j hj h
          have := hinj 0 (by simp) (j + 1) (by simpa using hj) (by rw [← hsucc, ← h, ← hn])
          omega
        rw [hresto n hother, show n = ⟨f i, h0⟩ from Fin.ext hn, Function.update_self]
      | succ j => exact hletras j b' (by simpa using hj) n (by rw [hn, hsucc])
    · have hne : n ≠ ⟨f i, h0⟩ := fun h => hn 0 (by simp) (congrArg Fin.val h)
      rw [hresto n fun j hj => by rw [hsucc]; exact hn (j + 1) (by simpa using hj),
        Function.update_of_ne hne]

/-! ## The two directions -/

theorem size_eq {v : Int} (h0 : 0 ≤ v) (h : v < 2 ^ 63) : (size v : Int) = v := by
  unfold size
  omega

/-- Letter `j` is in its cell when the index is the one of that cell. -/
theorem escrito_of_indice {f : Nat → Nat} (hcabe : Cabe w x y dir)
    (hf : ∀ j < w.letras.length, (f j : Int) = (pos x y j dir).1 * 25 + (pos x y j dir).2)
    (c : Pizarra) : ∃ c', escribir f 0 w.letras c = some c' ∧ Escrito w x y dir c c' := by
  have hlt : ∀ j < w.letras.length, f (0 + j) < HEIGHT * WIDTH := by
    intro j hj
    obtain ⟨h1, h2, h3, h4⟩ := hcabe j hj
    have := hf j hj
    unfold HEIGHT WIDTH at *
    rw [Nat.zero_add]
    omega
  have hinj : ∀ j < w.letras.length, ∀ k < w.letras.length, f (0 + j) = f (0 + k) → j = k := by
    intro j hj k hk h
    have hfj := hf j hj
    have hfk := hf k hk
    rw [Nat.zero_add, Nat.zero_add] at h
    rw [h] at hfj
    cases dir <;> simp only [pos] at hfj hfk <;> omega
  obtain ⟨c', hc', hletras, hresto⟩ := escribir_spec w.letras hlt hinj
  refine ⟨c', hc', ⟨fun i b hb f' k hpos => ?_, fun f' k hpos => ?_⟩⟩
  · have hi : i < w.letras.length := (List.getElem?_eq_some_iff.1 hb).1
    refine hletras i b hb _ ?_
    have := hf i hi
    rw [hpos] at this
    simp only [WIDTH, Nat.zero_add]
    omega
  · refine hresto _ fun j hj hn => hpos j hj ?_
    -- a row and a column below 25 are determined by the index
    have hfj := hf j hj
    obtain ⟨h1, h2, h3, h4⟩ := hcabe j hj
    simp only [WIDTH, HEIGHT, Nat.zero_add] at hn h2 h4
    rw [← hn] at hfj
    refine Prod.ext ?_ ?_ <;> push_cast at * <;> omega

theorem cabe_h_iff : Cabe w x y .h ↔
    0 ≤ x.toInt ∧ x.toInt < 25 ∧ 0 ≤ y.toInt ∧ y.toInt + w.letras.length ≤ 25 := by
  have hpos : 0 < w.letras.length := List.length_pos_iff.2 w.ne_nil
  simp only [Cabe, pos, HEIGHT, WIDTH]
  constructor
  · intro h
    have h0 := h 0 hpos
    have h1 := h (w.letras.length - 1) (by omega)
    omega
  · intro h i hi
    omega

theorem cabe_v_iff : Cabe w x y .v ↔
    0 ≤ x.toInt ∧ x.toInt + w.letras.length ≤ 25 ∧ 0 ≤ y.toInt ∧ y.toInt < 25 := by
  have hpos : 0 < w.letras.length := List.length_pos_iff.2 w.ne_nil
  simp only [Cabe, pos, HEIGHT, WIDTH]
  constructor
  · intro h
    have h0 := h 0 hpos
    have h1 := h (w.letras.length - 1) (by omega)
    omega
  · intro h i hi
    omega

/-- A coordinate and the length do not wrap around. -/
theorem suma_eq {v : Int32} (h0 : 0 ≤ v.toInt) :
    (suma (size v.toInt) w.letras.length : Int) = v.toInt + w.letras.length := by
  have hv : v.toInt < 2 ^ 31 := v.toInt_lt
  have hsize := size_eq h0 (by omega)
  have hlen := w.objeto
  unfold suma
  omega

theorem caso_h (c : Pizarra) (w : Palabra) (x y : Int32) : Correcto c w x y .h := by
  have htest : (x.toInt ≥ 0 ∧ x.toInt < HEIGHT ∧ y.toInt ≥ 0 ∧
      suma (size y.toInt) w.letras.length ≤ WIDTH) ↔ Cabe w x y .h := by
    rw [cabe_h_iff]
    simp only [HEIGHT, WIDTH]
    constructor <;> rintro ⟨h1, h2, h3, h4⟩ <;> have := suma_eq (w := w) h3 <;> omega
  refine ⟨fun hcabe => ?_, fun hcabe => ?_⟩
  · have hf : ∀ j < w.letras.length,
        (indiceH x y j : Int) = (pos x y j .h).1 * 25 + (pos x y j .h).2 := by
      intro j hj
      obtain ⟨h1, h2, h3, h4⟩ := cabe_h_iff.1 hcabe
      have := size_eq (v := x.toInt * WIDTH + y.toInt)
      simp only [indiceH, suma, pos, WIDTH] at *
      omega
    obtain ⟨c', hc', hescrito⟩ := escrito_of_indice hcabe hf c
    refine ⟨c', ?_, hescrito⟩
    simp only [casoW, Dir.char, if_true, htest, hcabe, hc', Option.map_some]
  · simp only [casoW, Dir.char, if_true, htest, hcabe, if_false]

/-- The vertical test asks for one more row than the word has. -/
theorem caso_v_test : (x.toInt ≥ 0 ∧ suma (size x.toInt) w.letras.length < HEIGHT ∧ y.toInt ≥ 0 ∧
    y.toInt < WIDTH) ↔ Cabe w x y .v ∧ x.toInt + w.letras.length ≠ 25 := by
  rw [cabe_v_iff]
  simp only [HEIGHT, WIDTH]
  constructor
  · rintro ⟨h1, h2, h3, h4⟩
    have := suma_eq (w := w) h1
    omega
  · rintro ⟨⟨h1, h2, h3, h4⟩, h5⟩
    have := suma_eq (w := w) h1
    omega

theorem dir_v_ne : 'v'.toUInt8 ≠ 'h'.toUInt8 := by decide

theorem caso_v_escrito (c : Pizarra) (hcabe : Cabe w x y .v) (hne : x.toInt + w.letras.length ≠ 25) :
    ∃ c', casoW c w x y 'v'.toUInt8 = some (c', []) ∧ Escrito w x y .v c c' := by
  have hf : ∀ j < w.letras.length,
      (indiceV x y j : Int) = (pos x y j .v).1 * 25 + (pos x y j .v).2 := by
    intro j hj
    obtain ⟨h1, h2, h3, h4⟩ := cabe_v_iff.1 hcabe
    have hx := size_eq h1 (by omega)
    have hy := size_eq h3 (by omega)
    simp only [indiceV, suma, pos, WIDTH] at *
    omega
  obtain ⟨c', hc', hescrito⟩ := escrito_of_indice hcabe hf c
  refine ⟨c', ?_, hescrito⟩
  simp only [casoW, dir_v_ne, if_false, if_true, caso_v_test.2 ⟨hcabe, hne⟩, hc', Option.map_some, and_self]

theorem caso_v_rechazado (c : Pizarra) (h : ¬ (Cabe w x y .v ∧ x.toInt + w.letras.length ≠ 25)) :
    casoW c w x y 'v'.toUInt8 = some (c, [.fueraDeRango]) := by
  have htest := mt caso_v_test.1 h
  simp only [casoW, dir_v_ne, if_false, if_true, htest]

theorem caso_v_iff (c : Pizarra) : Correcto c w x y .v ↔
    ¬ (Cabe w x y .v ∧ x.toInt + w.letras.length = 25) := by
  constructor
  · rintro ⟨hescribe, -⟩ ⟨hcabe, heq⟩
    obtain ⟨c', hc', -⟩ := hescribe hcabe
    have := caso_v_rechazado (w := w) (x := x) (y := y) c fun h => h.2 heq
    simp only [Dir.char] at hc'
    rw [this] at hc'
    cases hc'
  · intro h
    refine ⟨fun hcabe => caso_v_escrito c hcabe fun heq => h ⟨hcabe, heq⟩, fun hcabe => ?_⟩
    exact caso_v_rechazado c fun h' => hcabe h'.1

/-! ## Transposition -/

theorem celda_traspuesta (c : Pizarra) (f k : Fin 25) : celda (traspuesta c) f k = celda c k f := by
  have hk := k.isLt
  have hmod : (f.val * WIDTH + k.val) % WIDTH = k.val := by
    unfold WIDTH
    omega
  have hdiv : (f.val * WIDTH + k.val) / WIDTH = f.val := by
    unfold WIDTH
    omega
  simp only [celda, traspuesta, hmod, hdiv]

theorem pizarra_ext (h : ∀ f k, celda c f k = celda c' f k) : c = c' := by
  funext n
  have hn := n.isLt
  have hf : n.val / 25 < 25 := by
    unfold HEIGHT WIDTH at hn
    omega
  have := h ⟨n.val / 25, hf⟩ ⟨n.val % 25, Nat.mod_lt _ (by decide)⟩
  have hval : n.val / 25 * WIDTH + n.val % 25 = n.val := by
    unfold WIDTH
    omega
  simpa only [celda, hval] using this

theorem traspuesta_traspuesta (c : Pizarra) : traspuesta (traspuesta c) = c :=
  pizarra_ext fun f k => by rw [celda_traspuesta, celda_traspuesta]

/-- What is written is determined by the word and its place. -/
theorem Escrito.unico {c1 c2 : Pizarra} (h1 : Escrito w x y dir c c1) (h2 : Escrito w x y dir c c2) :
    c1 = c2 := by
  refine pizarra_ext fun f k => ?_
  by_cases h : ∃ i < w.letras.length, pos x y i dir = (↑f.val, ↑k.val)
  · obtain ⟨i, hi, hpos⟩ := h
    have hb := List.getElem?_eq_getElem hi
    rw [h1.letras i _ hb f k hpos, h2.letras i _ hb f k hpos]
  · simp only [not_exists, not_and] at h
    rw [h1.resto f k h, h2.resto f k h]

theorem pos_swap (x y : Int32) (i : Nat) : pos x y i .v = (pos y x i .h).swap := rfl

theorem Escrito.traspuesta (h : Escrito w y x .h (traspuesta c) c') :
    Escrito w x y .v c (Canvas.traspuesta c') := by
  refine ⟨fun i b hb f k hpos => ?_, fun f k hpos => ?_⟩
  · rw [celda_traspuesta]
    refine h.letras i b hb k f ?_
    rw [pos_swap] at hpos
    simpa using congrArg Prod.swap hpos
  · rw [celda_traspuesta, h.resto k f fun i hi heq => hpos i hi ?_, celda_traspuesta]
    rw [pos_swap, heq]
    rfl

theorem cabe_swap : Cabe w x y .v ↔ Cabe w y x .h := by
  rw [cabe_v_iff, cabe_h_iff]
  omega

theorem traspone_iff (c : Pizarra) : Traspone c w x y ↔
    ¬ (Cabe w x y .v ∧ x.toInt + w.letras.length = 25) := by
  obtain ⟨hescribe, hrechaza⟩ := caso_h (traspuesta c) w y x
  simp only [Dir.char] at hescribe hrechaza
  constructor
  · rintro h ⟨hcabe, heq⟩
    obtain ⟨c1, hc1, -⟩ := hescribe (cabe_swap.1 hcabe)
    rw [Traspone, hc1, caso_v_rechazado c fun h' => h'.2 heq] at h
    simp at h
  · intro h
    obtain ⟨hescribe', hrechaza'⟩ := (caso_v_iff c).2 h
    simp only [Dir.char] at hescribe' hrechaza'
    unfold Traspone
    by_cases hcabe : Cabe w x y .v
    · obtain ⟨c1, hc1, h1⟩ := hescribe (cabe_swap.1 hcabe)
      obtain ⟨c2, hc2, h2⟩ := hescribe' hcabe
      rw [hc1, hc2, h2.unico h1.traspuesta]
      rfl
    · rw [hrechaza' hcabe, hrechaza (mt cabe_swap.2 hcabe), Option.map_some, traspuesta_traspuesta]

/-- **A vertical word cannot end in the last row.**  For every canvas, every word and every `x` and `y`,
the word is written in a direction if and only if it fits, unless the direction is vertical and the
word fits and ends in row 24; the law that ties the directions together fails for the same words. -/
theorem canvas_iff (c : Pizarra) (w : Palabra) (x y : Int32) :
    (∀ dir, Correcto c w x y dir ↔
      ¬ (dir = .v ∧ 0 ≤ x.toInt ∧ x.toInt + w.letras.length = 25 ∧ 0 ≤ y.toInt ∧ y.toInt < 25)) ∧
    (Traspone c w x y ↔
      ¬ (0 ≤ x.toInt ∧ x.toInt + w.letras.length = 25 ∧ 0 ≤ y.toInt ∧ y.toInt < 25)) := by
  have hcond : (0 ≤ x.toInt ∧ x.toInt + w.letras.length = 25 ∧ 0 ≤ y.toInt ∧ y.toInt < 25) ↔
      (Cabe w x y .v ∧ x.toInt + w.letras.length = 25) := by
    rw [cabe_v_iff]
    omega
  rw [hcond]
  refine ⟨fun dir => ?_, traspone_iff c⟩
  cases dir with
  | h => simp [caso_h c w x y]
  | v => simpa using caso_v_iff c

/-- `canvas -w c ab 23 0 v` on a canvas of blanks. -/
theorem canvas_last_row : Cabe ⟨[97, 98], by decide, by decide, by decide⟩ 23 0 .v ∧
    casoW (fun _ => 32) ⟨[97, 98], by decide, by decide, by decide⟩ 23 0 'v'.toUInt8 =
      some (fun _ => 32, [.fueraDeRango]) := by
  refine ⟨cabe_v_iff.2 (by decide), caso_v_rechazado _ fun h => h.2 (by decide)⟩

end Laboratorio.Canvas
