import Laboratorio.Lab05.Wordheap

/-!
# The test on `free` in `lab-05/wordheap.c`

`-w` tests `free == 0` before it takes the semaphore and the mutex, and updates `free` inside of the
mutex.  Between the two it is admitted.  `free` starts at 14 while the semaphore lets 15 writers in,
so nothing but the test keeps `free` from going below zero.
-/

namespace Laboratorio.Lab05

open Laboratorio.Lib

/-- A `-w` before its test. -/
def Proceso.tests (p : Proceso) : Bool :=
  match p.comando, p.pc with
  | .w _, .test => true
  | _, _ => false

/-- A `-w` between its test and its update of `free`. -/
def Proceso.admitted (p : Proceso) : Nat :=
  match p.comando, p.pc with
  | .w _, .semWait | .w _, .lock | .w _, .body => 1
  | _, _ => 0

/-- The writers that `free` does not count yet. -/
def Estado.admitted (s : Estado) : Nat := (s.procesos.map Proceso.admitted).sum

/-- If the step of `me` is the test of a `-w`, there is room for all that are admitted, or none. -/
def Admits (s : Estado) (me : Nat) : Prop :=
  s.procesos[me]?.any Proceso.tests = true →
    s.wordheap.free = 0 ∨ (s.admitted : Int) < s.wordheap.free

instance (s : Estado) (me : Nat) : Decidable (Admits s me) := inferInstanceAs (Decidable (_ → _))

variable {m m' : Wordheap} {p : Proceso} {pc pc' : Pc} {salida : List Salida} {me : Nat}
  {s t : Estado} {palabra : List UInt8}

theorem admitted_caseW (h : caseW me palabra m pc = .ok (m', pc', salida)) (l l' : List Salida) :
    m.free + (⟨.w palabra, pc', l'⟩ : Proceso).admitted ≤
        m'.free + (⟨.w palabra, pc, l⟩ : Proceso).admitted ∨
      (pc = .test ∧ m.free ≠ 0 ∧ m' = m ∧ pc' = .semWait) := by
  cases pc with
  | test =>
    unfold caseW at h
    simp only at h
    split at h
    · cases h
      exact .inl (Int.le_refl _)
    · rename_i hfree
      cases h
      exact .inr ⟨rfl, hfree, rfl, rfl⟩
  | semWait =>
    unfold caseW at h
    simp only at h
    split at h
    · cases h
      exact .inl (Int.le_refl _)
    · cases h
  | lock =>
    obtain ⟨m1, hm, he⟩ := exists_of_map_eq_ok h
    cases he
    obtain ⟨-, rfl⟩ := lock_eq_ok.1 hm
    exact .inl (Int.le_refl _)
  | body =>
    obtain ⟨m1, hm, he⟩ := exists_of_map_eq_ok h
    cases he
    obtain ⟨-, rfl⟩ := push_eq_ok.1 hm
    left
    show m.free + 0 ≤ m.free - 1 + 1
    omega
  | unlock =>
    cases h
    exact .inl (Int.le_refl _)
  | semPost =>
    cases h
    exact .inl (Int.le_refl _)
  | done => cases h

/-- The other commands are not counted, and `-r` only adds places. -/
theorem free_le_caseR (h : caseR me m pc = .ok (m', pc', salida)) : m.free ≤ m'.free := by
  cases pc with
  | test =>
    unfold caseR at h
    simp only at h
    split at h <;> cases h <;> exact Int.le_refl _
  | semWait =>
    unfold caseR at h
    simp only at h
    split at h <;> cases h
    exact Int.le_refl _
  | lock =>
    obtain ⟨m1, hm, he⟩ := exists_of_map_eq_ok h
    cases he
    obtain ⟨-, rfl⟩ := lock_eq_ok.1 hm
    exact Int.le_refl _
  | body =>
    cases h
    show m.free ≤ m.free + 1
    omega
  | unlock => cases h; exact Int.le_refl _
  | semPost => cases h; exact Int.le_refl _
  | done => cases h

theorem free_le_caseP (h : caseP me m pc = .ok (m', pc', salida)) : m.free ≤ m'.free := by
  cases pc with
  | test =>
    unfold caseP at h
    simp only at h
    split at h <;> cases h <;> exact Int.le_refl _
  | lock =>
    obtain ⟨m1, hm, he⟩ := exists_of_map_eq_ok h
    cases he
    obtain ⟨-, rfl⟩ := lock_eq_ok.1 hm
    exact Int.le_refl _
  | body => cases h; exact Int.le_refl _
  | unlock => cases h; exact Int.le_refl _
  | semWait => cases h
  | semPost => cases h
  | done => cases h

/-- One step either keeps the room that is left for the admitted writers, or admits one more. -/
theorem admitted_step (h : correr me p m = .ok (m', pc', salida)) (l' : List Salida) :
    m.free + ({ p with pc := pc', salida := l' } : Proceso).admitted ≤ m'.free + p.admitted ∨
      (p.tests = true ∧ m.free ≠ 0 ∧ m' = m ∧
        ({ p with pc := pc', salida := l' } : Proceso).admitted = p.admitted + 1) := by
  obtain ⟨comando, pc, l⟩ := p
  cases comando with
  | w palabra =>
    rcases admitted_caseW h l l' with hle | ⟨rfl, hfree, rfl, rfl⟩
    · exact .inl hle
    · exact .inr ⟨rfl, hfree, rfl, rfl⟩
  | r =>
    left
    show m.free + 0 ≤ m'.free + 0
    have := free_le_caseR h
    omega
  | p =>
    left
    show m.free + 0 ≤ m'.free + 0
    have := free_le_caseP h
    omega

theorem admitted_paso (hadm : (s.admitted : Int) ≤ s.wordheap.free) (hroom : Admits s me)
    (h : paso s me = .ok t) : (t.admitted : Int) ≤ t.wordheap.free := by
  obtain ⟨p, m, pc, salida, hp, hc, rfl⟩ := paso_eq_ok h
  have hsum := sum_map_set Proceso.admitted { p with pc := pc, salida := p.salida ++ salida } hp
  show ((((s.procesos.set me _).map Proceso.admitted).sum : Nat) : Int) ≤ m.free
  unfold Estado.admitted at hadm
  rcases admitted_step hc (p.salida ++ salida) with hle | ⟨htest, hfree, hm, hone⟩
  · omega
  · have hany : s.procesos[me]?.any Proceso.tests = true := by
      rw [hp]
      exact htest
    rcases hroom hany with hzero | hlt
    · exact absurd hzero hfree
    · subst hm
      unfold Estado.admitted at hlt
      omega

theorem admitted_inicial (heap : Nat → UInt8) (comandos : List Comando) :
    (inicial heap comandos).admitted = 0 := by
  apply sum_map_eq_zero
  intro p hp
  obtain ⟨c, -, rfl⟩ := List.mem_map.1 hp
  cases c <;> rfl

/-- **`free` stays a count.**  In every interleaving in which each test of a `-w` finds `free` at zero or
above the number of admitted writers, `free` is never negative, and a `-w` that makes its test when
there is no place left is turned away. -/
theorem free_nonneg (heap : Nat → UInt8) (comandos : List Comando) (sched : List Nat)
    (hroom : Meets paso (inicial heap comandos) Admits sched) (s : Estado)
    (hrun : run paso (inicial heap comandos) sched = .ok s) :
    0 ≤ s.wordheap.free ∧
      ∀ me palabra l, s.procesos[me]? = some ⟨.w palabra, .test, l⟩ → s.wordheap.free ≤ 0 →
        paso s me = .ok ⟨s.wordheap, s.procesos.set me ⟨.w palabra, .done, l ++ [.llena]⟩⟩ := by
  have hadm : (s.admitted : Int) ≤ s.wordheap.free := by
    refine run_invariant_of_meets (P := fun _ s => (s.admitted : Int) ≤ s.wordheap.free) ?_ ?_ sched s
      hroom hrun
    · rw [admitted_inicial]
      show (0 : Int) ≤ 14
      decide
    · intro _ me u t _ hu hme ht
      exact admitted_paso hu hme ht
  have hnonneg : 0 ≤ s.wordheap.free := by omega
  refine ⟨hnonneg, fun me palabra l hp hle => ?_⟩
  have hzero : s.wordheap.free = 0 := by omega
  unfold paso
  simp [hp, correr, caseW, hzero]

/-- Two writers, the second of which starts when the first one is admitted. -/
theorem free_nonneg_two :
    ∃ s, run paso (inicial (fun _ => 0) [.w [97], .w [98]]) [0, 1, 0, 0, 0, 0, 0, 1, 1, 1] = .ok s ∧
      0 ≤ s.wordheap.free :=
  ⟨_, rfl, (free_nonneg (fun _ => 0) [.w [97], .w [98]] [0, 1, 0, 0, 0, 0, 0, 1, 1, 1]
    (meets_of_meetsB (by decide)) _ rfl).1⟩

/-- 13 words are stored.  Two writers make their test before either of them updates `free`, which ends
at -1; the next writer is not turned away but blocked by the semaphore. -/
theorem free_negative :
    ∃ s, run paso (inicial (fun _ => 0) (List.replicate 16 (.w [97])))
        ((List.range 13).flatMap (List.replicate 6) ++ [13, 14] ++ List.replicate 5 13 ++
          List.replicate 5 14 ++ [15]) = .ok s ∧
      s.wordheap.free = -1 ∧ paso s 15 = .error .blocked :=
  ⟨_, rfl, rfl, rfl⟩

end Laboratorio.Lab05
