import Mathlib

/-!
# Semaphores, mutexes and the tokens of many processes

A semaphore is its value and a mutex is its holder.  An operation that would block returns `none`.

For a system of arbitrarily many processes, kept in a list, a counting invariant adds up what each
process holds.  `sum_map_set` says what the step of one process does to such a sum, and
`le_sum_map` bounds the share of one process by the whole.
-/

namespace Laboratorio.Lib

/-- `sem_wait`. -/
def semWait (v : Nat) : Option Nat := if v = 0 then none else some (v - 1)

/-- `pthread_mutex_lock`, called by `me`. -/
def mutexLock {ι : Type*} (me : ι) (m : Option ι) : Option (Option ι) :=
  match m with
  | none => some (some me)
  | some _ => none

theorem semWait_eq_some {v u : Nat} : semWait v = some u ↔ v = u + 1 := by
  unfold semWait
  split
  · rename_i h
    simp [h]
  · simp only [Option.some.injEq]
    omega

theorem mutexLock_eq_some {ι : Type*} {me : ι} {m m' : Option ι} :
    mutexLock me m = some m' ↔ m = none ∧ m' = some me := by
  cases m with
  | none => simp [mutexLock, eq_comm]
  | some j => simp [mutexLock]

section Tokens

variable {α : Type*} (f : α → Nat)

theorem sum_map_set (b : α) :
    ∀ {l : List α} {i : Nat} {a : α}, l[i]? = some a →
      ((l.set i b).map f).sum + f a = (l.map f).sum + f b
  | [], i, a, h => by simp at h
  | c :: l, 0, a, h => by
    simp only [List.getElem?_cons_zero, Option.some.injEq] at h
    subst h
    simp only [List.set_cons_zero, List.map_cons, List.sum_cons]
    omega
  | c :: l, i + 1, a, h => by
    simp only [List.getElem?_cons_succ] at h
    have ih := sum_map_set b h
    simp only [List.set_cons_succ, List.map_cons, List.sum_cons]
    omega

theorem le_sum_map {l : List α} {a : α} (h : a ∈ l) : f a ≤ (l.map f).sum :=
  List.single_le_sum (fun _ _ => Nat.zero_le _) _ (List.mem_map_of_mem h)

theorem sum_map_eq_zero {l : List α} (h : ∀ a ∈ l, f a = 0) : (l.map f).sum = 0 := by
  apply List.sum_eq_zero
  intro n hn
  obtain ⟨a, ha, rfl⟩ := List.mem_map.1 hn
  exact h a ha

end Tokens

end Laboratorio.Lib
