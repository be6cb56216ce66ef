import Laboratorio.Lib.CInt
import Laboratorio.Lib.Runs
import Laboratorio.Lib.Sync

/-!
# The shared counter of `lab-04/glob.c`

Two threads run `increment_glob`.  `glob` is a 64-bit `long`, the local copy `loc` and the loop
variable `j` are 32-bit `int`s, and `mutex` is a semaphore with value 1.  Every statement of the loop
is one step: the test of the `for`, `sem_wait`, the load, the increment, the store, `sem_post`, and
`j++`.  An interleaving is a list that says which thread makes the next step.

* `Inv` — at most one thread is between `sem_wait` and `sem_post`, and `glob` is the `int` that the
  number of stores so far wraps to.
-/

namespace Laboratorio.Lab04

open Laboratorio.Lib Function

/-- The next step of a thread. -/
inductive Pc where
  | test
  | semWait
  | load
  | increment
  | store
  | semPost
  | next
  | done
  deriving DecidableEq, Repr

structure Hilo where
  pc : Pc
  loc : Int
  j : Int
  deriving DecidableEq, Repr

structure Estado where
  glob : Int
  mutex : Nat
  loops : Int
  hilos : Fin 2 → Hilo

/-- Why a thread cannot make a step. -/
inductive Stop where
  | finished
  | blocked
  deriving DecidableEq, Repr

def Estado.hilo (s : Estado) (i : Fin 2) (h : Hilo) : Estado :=
  { s with hilos := update s.hilos i h }

/-- One step of thread `i` in `increment_glob`. -/
def paso (s : Estado) (i : Fin 2) : Except Stop Estado :=
  let h := s.hilos i
  match h.pc with
  | .test => .ok (s.hilo i { h with pc := if h.j < s.loops then .semWait else .done })
  | .semWait =>
    match semWait s.mutex with
    | some v => .ok ({ s with mutex := v }.hilo i { h with pc := .load })
    | none => .error .blocked
  | .load => .ok (s.hilo i { h with pc := .increment, loc := wrap32 s.glob })
  | .increment => .ok (s.hilo i { h with pc := .store, loc := wrap32 (h.loc + 1) })
  | .store => .ok ({ s with glob := h.loc }.hilo i { h with pc := .semPost })
  | .semPost => .ok ({ s with mutex := s.mutex + 1 }.hilo i { h with pc := .next })
  | .next => .ok (s.hilo i { h with pc := .test, j := wrap32 (h.j + 1) })
  | .done => .error .finished

/-- After `sem_init`, with both threads created; `j = 0` has been executed, `loc` has no value yet. -/
def inicial (loops : Int) : Estado := ⟨0, 1, loops, fun _ => ⟨.test, 0, 0⟩⟩

/-- `pthread_join` has returned for both threads. -/
def Estado.terminado (s : Estado) : Prop := ∀ i, (s.hilos i).pc = .done

instance (s : Estado) : Decidable s.terminado := inferInstanceAs (Decidable (∀ _, _))

/-! ## The invariant -/

/-- Between `sem_wait` and `sem_post`. -/
def Pc.critical : Pc → Bool
  | .load | .increment | .store | .semPost => true
  | _ => false

/-- The number of times that a thread has stored into `glob`. -/
def Hilo.stores (h : Hilo) : Int :=
  match h.pc with
  | .semPost | .next => h.j + 1
  | _ => h.j

/-- What the thread itself keeps. -/
structure Hilo.Ok (h : Hilo) (glob loops : Int) : Prop where
  nonneg : 0 ≤ h.j
  le : h.j ≤ loops
  body : h.pc ≠ .test → h.pc ≠ .done → h.j < loops
  done : h.pc = .done → h.j = loops
  loaded : h.pc = .increment → h.loc = glob
  added : h.pc = .store → h.loc = wrap32 (glob + 1)

structure Inv (s : Estado) : Prop where
  ok : ∀ i, (s.hilos i).Ok s.glob s.loops
  mutex : s.mutex + (s.hilos 0).pc.critical.toNat + (s.hilos 1).pc.critical.toNat = 1
  glob : s.glob = wrap32 ((s.hilos 0).stores + (s.hilos 1).stores)

variable {s s' : Estado} {i : Fin 2} {h h' : Hilo} {glob loops g : Int}

theorem inv_inicial (hl : 1 ≤ loops) : Inv (inicial loops) := by
  refine ⟨fun i => ⟨Int.le_refl _, ?_, fun ht => absurd rfl ht, nofun, nofun, nofun⟩, rfl, rfl⟩
  show (0 : Int) ≤ loops
  omega

/-- A thread outside of its critical section does not look at `glob`. -/
theorem Hilo.Ok.frame (hok : h.Ok glob loops) (hc : h.pc.critical = false) (g : Int) :
    h.Ok g loops := by
  refine ⟨hok.nonneg, hok.le, hok.body, hok.done, fun hpc => ?_, fun hpc => ?_⟩
  · rw [hpc] at hc
    cases hc
  · rw [hpc] at hc
    cases hc

theorem Inv.other (hinv : Inv s) {k : Fin 2} (hk : k ≠ i) (hc : (s.hilos i).pc.critical = true) :
    (s.hilos k).pc.critical = false := by
  have hm := hinv.mutex
  match i, k with
  | 0, 0 | 1, 1 => exact absurd rfl hk
  | 0, 1 | 1, 0 =>
    rw [hc] at hm
    by_contra hk'
    rw [Bool.not_eq_false] at hk'
    rw [hk'] at hm
    simp at hm

/-- Thread `i` moves from `h` to `h'`, and `glob` and `mutex` change with it. -/
theorem Inv.move (hinv : Inv s) (hi : s.hilos i = h) {v : Nat} (hok : h'.Ok g s.loops)
    (hglob : g = s.glob ∨ h.pc.critical = true)
    (hmutex : v + h'.pc.critical.toNat = s.mutex + h.pc.critical.toNat)
    (hstores : g = wrap32 (s.glob + (h'.stores - h.stores))) :
    Inv ⟨g, v, s.loops, update s.hilos i h'⟩ := by
  subst hi
  have hm := hinv.mutex
  have hg := hinv.glob
  refine ⟨fun k => ?_, ?_, ?_⟩
  · dsimp only
    by_cases hk : k = i
    · rw [hk, update_self]
      exact hok
    · rw [update_of_ne hk]
      rcases hglob with hglob | hc
      · rw [hglob]
        exact hinv.ok k
      · exact (hinv.ok k).frame (hinv.other hk hc) g
  · match i with
    | 0 =>
      show v + h'.pc.critical.toNat + (s.hilos 1).pc.critical.toNat = 1
      omega
    | 1 =>
      show v + (s.hilos 0).pc.critical.toNat + h'.pc.critical.toNat = 1
      omega
  · have hsum : ∀ a b : Int, wrap32 (wrap32 a + b) = wrap32 (a + b) := fun a b => Int.bmod_add_bmod
    show g = _
    rw [hstores, hg, hsum]
    congr 1
    match i with
    | 0 =>
      show _ = h'.stores + (s.hilos 1).stores
      omega
    | 1 =>
      show _ = (s.hilos 0).stores + h'.stores
      omega

/-- A step that leaves `glob` and the number of stores alone. -/
theorem Inv.quiet (hinv : Inv s) (hi : s.hilos i = h) {v : Nat} (hok : h'.Ok s.glob s.loops)
    (hmutex : v + h'.pc.critical.toNat = s.mutex + h.pc.critical.toNat)
    (hstores : h'.stores = h.stores) :
    Inv ⟨s.glob, v, s.loops, update s.hilos i h'⟩ := by
  refine hinv.move hi hok (.inl rfl) hmutex ?_
  rw [hstores, Int.sub_self, Int.add_zero, hinv.glob, wrap32_wrap32]

theorem Inv.paso (hinv : Inv s) (hl : s.loops ≤ INT_MAX) (hstep : paso s i = .ok s') : Inv s' := by
  obtain ⟨hnonneg, hle, hbody, hdone, hloaded, hadded⟩ := hinv.ok i
  unfold Lab04.paso at hstep
  dsimp only at hstep
  generalize hi : s.hilos i = h at *
  obtain ⟨pc, loc, j⟩ := h
  dsimp only at hnonneg hle hbody hdone hloaded hadded hstep
  cases pc with
  | test =>
    cases hstep
    split
    · rename_i hlt
      exact hinv.quiet hi ⟨hnonneg, hle, fun _ _ => hlt, nofun, nofun, nofun⟩ rfl rfl
    · rename_i hge
      have hj : j = s.loops := by omega
      exact hinv.quiet hi ⟨hnonneg, hle, fun _ hne => absurd rfl hne, fun _ => hj, nofun, nofun⟩ rfl rfl
  | semWait =>
    have hlt : j < s.loops := hbody nofun nofun
    dsimp only at hstep
    split at hstep
    · rename_i v hv
      cases hstep
      rw [semWait_eq_some] at hv
      exact hinv.quiet hi ⟨hnonneg, hle, fun _ _ => hlt, nofun, nofun, nofun⟩ hv.symm rfl
    · cases hstep
  | load =>
    have hlt : j < s.loops := hbody nofun nofun
    cases hstep
    refine hinv.quiet hi ⟨hnonneg, hle, fun _ _ => hlt, nofun, fun _ => ?_, nofun⟩ rfl rfl
    show wrap32 s.glob = s.glob
    rw [hinv.glob, wrap32_wrap32]
  | increment =>
    have hlt : j < s.loops := hbody nofun nofun
    cases hstep
    refine hinv.quiet hi ⟨hnonneg, hle, fun _ _ => hlt, nofun, nofun, fun _ => ?_⟩ rfl rfl
    rw [hloaded rfl]
  | store =>
    have hlt : j < s.loops := hbody nofun nofun
    cases hstep
    refine hinv.move hi ⟨hnonneg, hle, fun _ _ => hlt, nofun, nofun, nofun⟩ (.inr rfl) rfl ?_
    rw [hadded rfl]
    show wrap32 (s.glob + 1) = wrap32 (s.glob + (j + 1 - j))
    congr 1
    omega
  | semPost =>
    have hlt : j < s.loops := hbody nofun nofun
    cases hstep
    exact hinv.quiet hi ⟨hnonneg, hle, fun _ _ => hlt, nofun, nofun, nofun⟩ rfl rfl
  | next =>
    have hlt : j < s.loops := hbody nofun nofun
    have hj : wrap32 (j + 1) = j + 1 := wrap32_of_range (by omega) (by unfold INT_MAX at hl; omega)
    cases hstep
    rw [hj]
    refine hinv.quiet hi ⟨?_, ?_, fun hne => absurd rfl hne, nofun, nofun, nofun⟩ rfl rfl
    · show 0 ≤ j + 1
      omega
    · show j + 1 ≤ s.loops
      omega
  | done => cases hstep

theorem paso_loops (hstep : paso s i = .ok s') : s'.loops = s.loops := by
  unfold paso at hstep
  dsimp only at hstep
  split at hstep
  case h_2 =>
    split at hstep
    · cases hstep
      rfl
    · cases hstep
  case h_8 => cases hstep
  all_goals
    cases hstep
    rfl

/-- **The value at the end**, for any interleaving. -/
theorem glob_final {sched : List (Fin 2)} (hl : 1 ≤ loops) (hl' : loops ≤ INT_MAX)
    (hrun : run paso (inicial loops) sched = .ok s) (hend : s.terminado) :
    s.glob = wrap32 (2 * loops) := by
  have hinv : s.loops = loops ∧ Inv s := by
    refine run_invariant (P := fun _ s => s.loops = loops ∧ Inv s) ⟨rfl, inv_inicial hl⟩ ?_ sched s hrun
    rintro _ i u t - ⟨hu, hinv⟩ hstep
    exact ⟨(paso_loops hstep).trans hu, hinv.paso (by rw [hu]; exact hl') hstep⟩
  obtain ⟨hs, hinv⟩ := hinv
  have hstores : ∀ i, (s.hilos i).stores = loops := by
    intro i
    rw [← hs, ← (hinv.ok i).done (hend i)]
    unfold Hilo.stores
    rw [hend i]
  rw [hinv.glob, hstores, hstores]
  congr 1
  omega

/-! ## Runs that end -/

/-- Seven steps of a thread are one turn of its loop. -/
theorem vuelta {loc j : Int} (hm : s.mutex = 1) (hi : s.hilos i = ⟨.test, loc, j⟩) (hlt : j < s.loops) :
    run paso s (List.replicate 7 i) =
      .ok ⟨wrap32 (wrap32 s.glob + 1), 1, s.loops,
        update s.hilos i ⟨.test, wrap32 (wrap32 s.glob + 1), wrap32 (j + 1)⟩⟩ := by
  obtain ⟨glob, mutex, loops, hilos⟩ := s
  dsimp only at hm hi hlt
  subst hm
  simp [run, List.replicate, paso, hi, hlt, Estado.hilo, semWait, bind, Except.bind, pure, Except.pure]

/-- A thread that nobody disturbs ends after `n` turns. -/
theorem exists_done (n : Nat) {loc j : Int} (hm : s.mutex = 1) (hi : s.hilos i = ⟨.test, loc, j⟩)
    (hj : 0 ≤ j) (hn : j + n = s.loops) (hl : s.loops ≤ INT_MAX) :
    ∃ sched t, run paso s sched = .ok t ∧ t.mutex = 1 ∧ t.loops = s.loops ∧
      (t.hilos i).pc = .done ∧ ∀ k, k ≠ i → t.hilos k = s.hilos k := by
  induction n generalizing s loc j with
  | zero =>
    have hend : ¬ j < s.loops := by omega
    refine ⟨[i], s.hilo i ⟨.done, loc, j⟩, ?_, hm, rfl, ?_, fun k hk => ?_⟩
    · simp [run, paso, hi, hend, bind, Except.bind, pure, Except.pure]
    · show (update s.hilos i _ i).pc = .done
      rw [update_self]
    · exact update_of_ne hk _ _
  | succ n ih =>
    have hlt : j < s.loops := by omega
    have hj' : wrap32 (j + 1) = j + 1 := wrap32_of_range (by omega) (by unfold INT_MAX at hl; omega)
    have hturn := vuelta hm hi hlt
    rw [hj'] at hturn
    have hn' : j + 1 + n = s.loops := by
      push_cast at hn
      omega
    obtain ⟨sched, t, hrun, hmt, hlt', hdone, hother⟩ := ih
      (s := ⟨wrap32 (wrap32 s.glob + 1), 1, s.loops,
        update s.hilos i ⟨.test, wrap32 (wrap32 s.glob + 1), j + 1⟩⟩)
      rfl (update_self ..) (by omega) hn' hl
    refine ⟨List.replicate 7 i ++ sched, t, ?_, hmt, hlt', hdone, fun k hk => ?_⟩
    · rw [run_append, hturn]
      exact hrun
    · rw [hother k hk]
      exact update_of_ne hk _ _

theorem exists_terminado (loops : Int) (hl : 1 ≤ loops) (hl' : loops ≤ INT_MAX) :
    ∃ sched s, run paso (inicial loops) sched = .ok s ∧ s.terminado := by
  have hn : (0 : Int) + loops.toNat = loops := by omega
  obtain ⟨sched, s, hrun, hm, hls, hdone, hother⟩ :=
    exists_done (s := inicial loops) (i := 0) loops.toNat rfl rfl (Int.le_refl 0) hn hl'
  obtain ⟨sched', t, hrun', -, -, hdone', hother'⟩ :=
    exists_done (s := s) (i := 1) loops.toNat hm (hother 1 (by decide)) (Int.le_refl 0)
      (by rw [hls]; exact hn) (by rw [hls]; exact hl')
  refine ⟨sched ++ sched', t, ?_, fun i => ?_⟩
  · rw [run_append, hrun]
    exact hrun'
  · match i with
    | 0 =>
      rw [hother' 0 (by decide)]
      exact hdone
    | 1 => exact hdone'

/-- **When the counter is right.**  For every argument that `main` accepts, all interleavings in which
both threads finish end with `glob = 2 * loops` if and only if that number is an `int`. -/
theorem glob_iff (loops : Int) (hl : 1 ≤ loops) (hl' : loops ≤ INT_MAX) :
    (∀ sched s, run paso (inicial loops) sched = .ok s → s.terminado → s.glob = 2 * loops) ↔
      2 * loops ≤ INT_MAX := by
  constructor
  · intro h
    obtain ⟨sched, s, hrun, hend⟩ := exists_terminado loops hl hl'
    rw [← h sched s hrun hend, glob_final hl hl' hrun hend]
    exact wrap32_le _
  · intro hle sched s hrun hend
    rw [glob_final hl hl' hrun hend]
    exact wrap32_of_range (by omega) (by unfold INT_MAX at hle; omega)

/-- Three turns of each thread. -/
theorem glob_iff_three : 2 * 3 ≤ INT_MAX ∧
    ∀ sched s, run paso (inicial 3) sched = .ok s → s.terminado → s.glob = 2 * 3 :=
  ⟨by decide, (glob_iff 3 (by decide) (by decide)).2 (by decide)⟩

/-- With 2 ^ 30 turns of each thread, `loc` overflows at the last one. -/
theorem glob_overflow : ∃ sched s, run paso (inicial 1073741824) sched = .ok s ∧ s.terminado ∧
    s.glob = -2147483648 := by
  obtain ⟨sched, s, hrun, hend⟩ := exists_terminado 1073741824 (by decide) (by decide)
  exact ⟨sched, s, hrun, hend, glob_final (by decide) (by decide) hrun hend⟩

end Laboratorio.Lab04
