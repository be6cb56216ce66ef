import Mathlib

/-!
# Demand paging, abstractly

The textbook description of two replacement policies, over pages of any type.

* `recency refs` — the distinct pages referenced, most recent first.  With `n` frames, least
  recently used replacement keeps `(recency refs).take n` resident, and its victim is the last
  page of that list.
* `misses n refs` — the page faults of first-in first-out replacement with `n` frames, in order:
  a reference is a fault exactly when it is not among the last `n` faults (`window`).

`recency_take_hit`, `recency_take_miss` and `misses_concat_hit`, `misses_concat_miss` say how one
more reference changes the resident pages.
-/

namespace Laboratorio.Lib.Paging

open List

variable {α : Type*} [DecidableEq α]

/-! ## Least recently used -/

/-- The distinct pages referenced, most recent first. -/
def recency (refs : List α) : List α := refs.foldl (fun l x => x :: l.erase x) []

theorem recency_concat (refs : List α) (x : α) :
    recency (refs ++ [x]) = x :: (recency refs).erase x := by
  unfold recency
  rw [foldl_append]
  rfl

theorem recency_nodup (refs : List α) : (recency refs).Nodup := by
  induction refs using reverseRecOn with
  | nil => exact nodup_nil
  | append_singleton refs x ih =>
    rw [recency_concat, nodup_cons]
    exact ⟨ih.not_mem_erase, ih.erase x⟩

theorem take_erase_of_mem {l : List α} {x : α} {n : Nat} (h : x ∈ l.take (n + 1)) :
    (l.erase x).take n = (l.take (n + 1)).erase x := by
  induction l generalizing n with
  | nil => simp
  | cons y l ih =>
    by_cases hy : y = x
    · subst hy; simp
    · have hx : x ∈ l.take n := by
        rw [take_succ_cons, mem_cons] at h
        exact h.resolve_left (Ne.symm hy)
      obtain ⟨m, rfl⟩ : ∃ m, n = m + 1 := by
        cases n with
        | zero => simp at hx
        | succ m => exact ⟨m, rfl⟩
      rw [erase_cons_tail (by simpa using hy), take_succ_cons, ih hx,
        take_succ_cons, erase_cons_tail (by simpa using hy)]

theorem take_erase_of_not_mem {l : List α} {x : α} {n : Nat} (h : x ∉ l.take n) :
    (l.erase x).take n = l.take n := by
  induction l generalizing n with
  | nil => simp
  | cons y l ih =>
    cases n with
    | zero => simp
    | succ n =>
      rw [take_succ_cons, mem_cons, not_or] at h
      rw [erase_cons_tail (by simpa using Ne.symm h.1), take_succ_cons,
        take_succ_cons, ih h.2]

/-- Removing a frame from a list of frames with distinct pages removes its page. -/
theorem map_erase_of_nodup {ι : Type*} [DecidableEq ι] {f : ι → α} {l : List ι} {i : ι}
    (hn : (l.map f).Nodup) (hi : i ∈ l) : (l.erase i).map f = (l.map f).erase (f i) := by
  induction l with
  | nil => cases hi
  | cons j l ih =>
    rw [map_cons, nodup_cons] at hn
    rcases eq_or_ne j i with rfl | hji
    · simp
    · have hil : i ∈ l := (mem_cons.1 hi).resolve_left (Ne.symm hji)
      have hf : f j ≠ f i := fun e => hn.1 (e ▸ mem_map_of_mem hil)
      rw [erase_cons_tail (by simpa using hji), map_cons, map_cons,
        erase_cons_tail (by simpa using hf), ih hn.2 hil]

/-- A hit moves the page to the front of the resident pages. -/
theorem recency_take_hit {refs : List α} {x : α} {n : Nat}
    (h : x ∈ (recency refs).take (n + 1)) :
    (recency (refs ++ [x])).take (n + 1) = x :: ((recency refs).take (n + 1)).erase x := by
  rw [recency_concat, take_succ_cons, take_erase_of_mem h]

/-- A fault puts the page in front; if all frames are taken the last resident page goes. -/
theorem recency_take_miss {refs : List α} {x : α} {n : Nat}
    (h : x ∉ (recency refs).take (n + 1)) :
    (recency (refs ++ [x])).take (n + 1) = x :: (recency refs).take n := by
  rw [recency_concat, take_succ_cons, take_erase_of_not_mem]
  intro hx
  exact h (take_subset_take_left _ (Nat.le_succ n) hx)

/-! ## First in, first out -/

/-- The last `n` faults: the resident pages. -/
def window (n : Nat) (fs : List α) : List α := fs.drop (fs.length - n)

/-- The faults of first-in first-out replacement with `n` frames, in order. -/
def misses (n : Nat) (refs : List α) : List α :=
  refs.foldl (fun fs x => if x ∈ window n fs then fs else fs ++ [x]) []

@[simp] theorem misses_nil (n : Nat) : misses n ([] : List α) = [] := rfl

theorem misses_concat (n : Nat) (refs : List α) (x : α) :
    misses n (refs ++ [x]) =
      if x ∈ window n (misses n refs) then misses n refs else misses n refs ++ [x] := by
  unfold misses
  rw [foldl_append]
  rfl

theorem misses_concat_hit {n : Nat} {refs : List α} {x : α} (h : x ∈ window n (misses n refs)) :
    misses n (refs ++ [x]) = misses n refs := by
  rw [misses_concat, if_pos h]

theorem misses_concat_miss {n : Nat} {refs : List α} {x : α} (h : x ∉ window n (misses n refs)) :
    misses n (refs ++ [x]) = misses n refs ++ [x] := by
  rw [misses_concat, if_neg h]

theorem length_misses_le (n : Nat) (refs : List α) (x : α) :
    (misses n refs).length ≤ (misses n (refs ++ [x])).length := by
  rw [misses_concat]
  split
  · exact Nat.le_refl _
  · rw [length_append]
    exact Nat.le_add_right _ _

omit [DecidableEq α] in
theorem mem_window_iff {n : Nat} {fs : List α} {x : α} :
    x ∈ window n fs ↔ ∃ m, fs.length ≤ m + n ∧ fs[m]? = some x := by
  unfold window
  rw [mem_iff_getElem?]
  constructor
  · rintro ⟨i, hi⟩
    rw [getElem?_drop] at hi
    exact ⟨fs.length - n + i, by omega, hi⟩
  · rintro ⟨m, hm, hx⟩
    refine ⟨m - (fs.length - n), ?_⟩
    rw [getElem?_drop, show fs.length - n + (m - (fs.length - n)) = m by omega, hx]

end Laboratorio.Lib.Paging
