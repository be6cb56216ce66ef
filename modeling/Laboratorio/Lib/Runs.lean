import Mathlib

/-!
# Runs of step functions

`run step s as` is a deterministic machine that consumes a list of inputs and may stop with an
error.  An interleaving of several processes is such a machine whose inputs say which of them makes
the next step.

* `run_concat_ok` splits off the last input.
* `run_invariant` is the induction rule for every state reached, `run_ne_error` the one for errors.
* `run_invariant_of_meets` is the same rule for runs all of whose steps meet a side condition
  (`Meets`).
-/

namespace Laboratorio.Lib

variable {σ α ε : Type*}

/-- How a computation ends is found by evaluating it. -/
instance (priority := low) decidableEndsOk {x : Except ε σ} {P : σ → Prop} [DecidablePred P] :
    Decidable (∃ s, x = .ok s ∧ P s) :=
  match x with
  | .ok s => decidable_of_iff (P s) (by simp)
  | .error _ => .isFalse (by simp)

instance (priority := low) decidableEndsWith {β : Type*} [DecidableEq β] {x : Except ε (β × σ)} {b : β}
    {P : σ → Prop} [DecidablePred P] : Decidable (∃ s, x = .ok (b, s) ∧ P s) :=
  match x with
  | .ok (b', s) => decidable_of_iff (b' = b ∧ P s) (by grind)
  | .error _ => .isFalse (by simp)

instance (priority := low) decidableStops [DecidableEq ε] {x : Except ε σ} {e : ε} :
    Decidable (x = .error e) :=
  match x with
  | .ok _ => .isFalse (by simp)
  | .error e' => decidable_of_iff (e' = e) (by simp)

theorem exists_of_map_eq_ok {β : Type*} {f : σ → β} {x : Except ε σ} {b : β}
    (h : x.map f = .ok b) : ∃ a, x = .ok a ∧ f a = b := by
  cases x with
  | error e => cases h
  | ok a => cases h; exact ⟨a, rfl, rfl⟩

theorem exists_of_bind_eq_ok {β : Type*} {f : σ → Except ε β} {x : Except ε σ} {b : β}
    (h : x.bind f = .ok b) : ∃ a, x = .ok a ∧ f a = .ok b := by
  cases x with
  | error e => cases h
  | ok a => exact ⟨a, rfl, h⟩

/-- Consume the inputs from left to right; the first error ends the run. -/
def run (step : σ → α → Except ε σ) (s : σ) (as : List α) : Except ε σ :=
  as.foldlM step s

variable {step : σ → α → Except ε σ} {s u t : σ} {a : α} {as bs : List α}

@[simp] theorem run_nil : run step s [] = .ok s := rfl

theorem run_cons_ok :
    run step s (a :: as) = .ok t ↔ ∃ u, step s a = .ok u ∧ run step u as = .ok t := by
  unfold run
  rw [List.foldlM_cons]
  cases h : step s a with
  | error e => simp [bind, Except.bind]
  | ok u => simp [bind, Except.bind]

theorem run_cons_of_ok (h : step s a = .ok u) : run step s (a :: as) = run step u as := by
  unfold run
  rw [List.foldlM_cons, h]
  rfl

theorem run_cons_of_error {e : ε} (h : step s a = .error e) : run step s (a :: as) = .error e := by
  unfold run
  rw [List.foldlM_cons, h]
  rfl

theorem run_append (as bs : List α) :
    run step s (as ++ bs) = (run step s as).bind fun u => run step u bs := by
  unfold run
  rw [List.foldlM_append]
  rfl

theorem run_concat (as : List α) (a : α) :
    run step s (as ++ [a]) = (run step s as).bind fun u => step u a := by
  rw [run_append]
  congr 1
  funext u
  unfold run
  rw [List.foldlM_cons]
  cases step u a <;> rfl

theorem run_concat_ok :
    run step s (as ++ [a]) = .ok t ↔ ∃ u, run step s as = .ok u ∧ step u a = .ok t := by
  rw [run_concat]
  cases h : run step s as with
  | error e => simp [Except.bind]
  | ok u => simp [Except.bind]

/-- **Invariant rule for runs.**  What holds initially and is kept by each successful step holds
of every state reached.  The property may mention the inputs consumed so far. -/
theorem run_invariant {P : List α → σ → Prop} (h0 : P [] s)
    (hstep : ∀ as a u t, run step s as = .ok u → P as u → step u a = .ok t → P (as ++ [a]) t) :
    ∀ as t, run step s as = .ok t → P as t := by
  intro as
  induction as using List.reverseRecOn with
  | nil => intro t h; rw [run_nil] at h; cases h; exact h0
  | append_singleton as a ih =>
    intro t h
    obtain ⟨u, hu, ht⟩ := run_concat_ok.1 h
    exact hstep as a u t hu (ih u hu) ht

/-- **Safety rule for runs.**  A run does not end with `e` if none of its steps does. -/
theorem run_ne_error {e : ε} (h : ∀ pre a u, pre ++ [a] <+: as → run step s pre = .ok u →
    step u a ≠ .error e) : run step s as ≠ .error e := by
  induction as using List.reverseRecOn with
  | nil => nofun
  | append_singleton as a ih =>
    intro hrun
    rw [run_concat] at hrun
    cases hs : run step s as with
    | error e' =>
      rw [hs] at hrun
      cases hrun
      exact ih (fun pre b u hp => h pre b u (hp.trans (List.prefix_append as [a]))) hs
    | ok u =>
      rw [hs] at hrun
      exact h as a u (List.prefix_refl _) hs hrun

/-- Every step of the run on `as`, taken from the state it is taken in, meets `C`. -/
def Meets (step : σ → α → Except ε σ) (s : σ) (C : σ → α → Prop) (as : List α) : Prop :=
  ∀ pre a, pre ++ [a] <+: as → ∀ u, run step s pre = .ok u → C u a

theorem Meets.of_prefix {C : σ → α → Prop} (h : Meets step s C bs) (hp : as <+: bs) :
    Meets step s C as :=
  fun pre a hpre u hu => h pre a (hpre.trans hp) u hu

theorem meets_concat {C : σ → α → Prop} :
    Meets step s C (as ++ [a]) ↔ Meets step s C as ∧ ∀ u, run step s as = .ok u → C u a := by
  constructor
  · intro h
    exact ⟨h.of_prefix (List.prefix_append as [a]), h as a (List.prefix_refl _)⟩
  · rintro ⟨h, ha⟩ pre b hpre u hu
    rcases List.prefix_concat_iff.1 hpre with he | hp
    · obtain ⟨rfl, hb⟩ := List.append_inj' he rfl
      cases hb
      exact ha u hu
    · exact h pre b hp u hu

theorem meets_cons {C : σ → α → Prop} :
    Meets step s C (a :: as) ↔ C s a ∧ ∀ u, step s a = .ok u → Meets step u C as := by
  constructor
  · intro h
    refine ⟨h [] a (by simp) s rfl, fun u hu pre b hpre v hv => ?_⟩
    exact h (a :: pre) b (by simpa using hpre) v (run_cons_ok.2 ⟨u, hu, hv⟩)
  · rintro ⟨ha, h⟩ pre b hpre v hv
    cases pre with
    | nil =>
      rw [run_nil] at hv
      cases hv
      simp only [List.nil_append, List.cons_prefix_cons] at hpre
      rw [hpre.1]
      exact ha
    | cons c pre =>
      simp only [List.cons_append, List.cons_prefix_cons] at hpre
      obtain ⟨rfl, hpre⟩ := hpre
      obtain ⟨u, hu, hv⟩ := run_cons_ok.1 hv
      exact h u hu pre b hpre v hv

/-- `Meets` along one concrete run, computed. -/
def meetsB (step : σ → α → Except ε σ) (C : σ → α → Prop) [∀ s a, Decidable (C s a)] :
    σ → List α → Bool
  | _, [] => true
  | s, a :: as =>
    decide (C s a) &&
      match step s a with
      | .ok u => meetsB step C u as
      | .error _ => true

theorem meets_of_meetsB {C : σ → α → Prop} [∀ s a, Decidable (C s a)] :
    ∀ {as : List α} {s : σ}, meetsB step C s as = true → Meets step s C as
  | [], _, _ => fun pre b hpre => by simp at hpre
  | a :: as, s, h => by
    simp only [meetsB, Bool.and_eq_true, decide_eq_true_eq] at h
    refine meets_cons.2 ⟨h.1, fun u hu => meets_of_meetsB ?_⟩
    have := h.2
    rw [hu] at this
    exact this

/-- The invariant rule for runs whose steps all meet a side condition. -/
theorem run_invariant_of_meets {P : List α → σ → Prop} {C : σ → α → Prop} (h0 : P [] s)
    (hstep : ∀ as a u t, run step s as = .ok u → P as u → C u a → step u a = .ok t →
      P (as ++ [a]) t) :
    ∀ as t, Meets step s C as → run step s as = .ok t → P as t := by
  intro as
  induction as using List.reverseRecOn with
  | nil => intro t _ h; rw [run_nil] at h; cases h; exact h0
  | append_singleton as a ih =>
    intro t hm h
    obtain ⟨u, hu, ht⟩ := run_concat_ok.1 h
    have hP := ih u (meets_concat.1 hm).1 hu
    exact hstep as a u t hu hP ((meets_concat.1 hm).2 u hu) ht

end Laboratorio.Lib
