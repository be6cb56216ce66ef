import Mathlib

/-!
# The search for a minimum with a running best

`minScan f l b u` is the loop that keeps the smallest value seen so far and where it was seen,
starting from a value `b` and a position `u`.  The position moves only on a strict improvement,
so the result is the first of the smallest positions when something is below `b`
(`minScan_of_exists`), and the starting position `u` when nothing is (`minScan_of_forall`).
-/

namespace Laboratorio.Lib

variable {ι β : Type*} [LinearOrder β]

/-- `for i in l: if f i < best: best = f i; pos = i`. -/
def minScan (f : ι → β) (l : List ι) (b : β) (u : ι) : β × ι :=
  l.foldl (fun acc i => if f i < acc.1 then (f i, i) else acc) (b, u)

theorem minScan_concat (f : ι → β) (l : List ι) (b : β) (u x : ι) :
    minScan f (l ++ [x]) b u =
      if f x < (minScan f l b u).1 then (f x, x) else minScan f l b u := by
  unfold minScan
  rw [List.foldl_append]
  rfl

theorem minScan_of_forall {f : ι → β} {l : List ι} {b : β} {u : ι} (h : ∀ i ∈ l, b ≤ f i) :
    minScan f l b u = (b, u) := by
  induction l using List.reverseRecOn with
  | nil => rfl
  | append_singleton l x ih =>
    rw [minScan_concat, ih fun i hi => h i (List.mem_append_left _ hi),
      if_neg (not_lt.2 (h x (by simp)))]

theorem minScan_spec [LinearOrder ι] {f : ι → β} {l : List ι} {b : β} {u : ι}
    (hl : l.Pairwise (· < ·)) :
    (∀ i ∈ l, (minScan f l b u).1 ≤ f i) ∧
    (minScan f l b u = (b, u) ∨
      ((minScan f l b u).1 < b ∧ f (minScan f l b u).2 = (minScan f l b u).1 ∧
        (minScan f l b u).2 ∈ l ∧
        ∀ j ∈ l, j < (minScan f l b u).2 → (minScan f l b u).1 < f j)) := by
  induction l using List.reverseRecOn with
  | nil => exact ⟨by simp, Or.inl rfl⟩
  | append_singleton l x ih =>
    obtain ⟨hl1, _, hlx⟩ := List.pairwise_append.1 hl
    obtain ⟨hle, hcase⟩ := ih hl1
    rw [minScan_concat]
    split
    · rename_i hlt
      refine ⟨?_, Or.inr ⟨?_, rfl, by simp, ?_⟩⟩
      · rw [List.forall_mem_append, List.forall_mem_singleton]
        exact ⟨fun i hi => (hlt.trans_le (hle i hi)).le, le_rfl⟩
      · rcases hcase with h | h
        · rw [h] at hlt
          exact hlt
        · exact hlt.trans h.1
      · rw [List.forall_mem_append, List.forall_mem_singleton]
        exact ⟨fun j hj _ => hlt.trans_le (hle j hj), fun h => absurd h (lt_irrefl x)⟩
    · rename_i hge
      refine ⟨?_, ?_⟩
      · rw [List.forall_mem_append, List.forall_mem_singleton]
        exact ⟨hle, not_lt.1 hge⟩
      · rcases hcase with h | ⟨h1, h2, h3, h4⟩
        · exact Or.inl h
        · refine Or.inr ⟨h1, h2, List.mem_append_left _ h3, ?_⟩
          rw [List.forall_mem_append, List.forall_mem_singleton]
          refine ⟨h4, fun hx => ?_⟩
          exact absurd (hlx _ h3 x (by simp)) (lt_asymm hx)

/-- If something is below the starting value, the scan ends at the first smallest position. -/
theorem minScan_of_exists [LinearOrder ι] {f : ι → β} {l : List ι} {b : β} {u : ι}
    (hl : l.Pairwise (· < ·)) (h : ∃ i ∈ l, f i < b) :
    ∀ j ∈ l, f (minScan f l b u).2 ≤ f j ∧
      (j < (minScan f l b u).2 → f (minScan f l b u).2 < f j) := by
  obtain ⟨hle, hcase⟩ := minScan_spec (f := f) (b := b) (u := u) hl
  obtain ⟨i, hi, hib⟩ := h
  rcases hcase with he | ⟨_, h2, _, h4⟩
  · have := hle i hi
    rw [he] at this
    exact absurd hib (not_lt.2 this)
  · intro j hj
    rw [h2]
    exact ⟨hle j hj, h4 j hj⟩

end Laboratorio.Lib
