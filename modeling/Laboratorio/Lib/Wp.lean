import Mathlib

/-!
# Weakest preconditions for programs with state and errors

A program is a `StateT σ (Except ε) α`.  `wp E x Q s` says that `x`, started in `s`, ends in a state
and with a value that satisfy `Q`, or stops with an error that satisfies `E`.

* `wp_bind`, `wp_pure`, … compute the precondition of a program from those of its parts.
* `wp_mono` is the rule of consequence, `wp_seq` that of sequencing: a caller uses what is known about
  a call, not its body.
* `wp.of_ok`, `wp.of_error` and `wp.total` read the outcome of a run off.
* `Fixes key x` says that `x` leaves one part of the state as it is.
-/

namespace Laboratorio.Lib

variable {σ τ ε α β : Type}

def wp (E : ε → Prop) (x : StateT σ (Except ε) α) (Q : α → σ → Prop) (s : σ) : Prop :=
  match x s with
  | .ok (a, s') => Q a s'
  | .error e => E e

variable {E : ε → Prop} {x : StateT σ (Except ε) α} {f : α → StateT σ (Except ε) β}
  {Q R : α → σ → Prop} {s s' : σ} {a : α} {e : ε}

theorem wp.of_ok (h : wp E x Q s) (hx : x s = .ok (a, s')) : Q a s' := by
  unfold wp at h
  rw [hx] at h
  exact h

theorem wp.of_error (h : wp E x Q s) (hx : x s = .error e) : E e := by
  unfold wp at h
  rw [hx] at h
  exact h

/-- A program that cannot stop has an outcome. -/
theorem wp.total (h : wp (fun _ => False) x Q s) : ∃ a s', x s = .ok (a, s') ∧ Q a s' := by
  cases hx : x s with
  | ok p => exact ⟨p.1, p.2, rfl, h.of_ok hx⟩
  | error e => exact (h.of_error hx).elim

theorem wp_weaken {D : ε → Prop} (h : wp E x Q s) (hQR : ∀ a s', Q a s' → R a s')
    (hED : ∀ e, E e → D e) : wp D x R s := by
  unfold wp at h ⊢
  split
  · rename_i hx
    rw [hx] at h
    exact hQR _ _ h
  · rename_i hx
    rw [hx] at h
    exact hED _ h

theorem wp_mono (h : wp E x Q s) (hQR : ∀ a s', Q a s' → R a s') : wp E x R s :=
  wp_weaken h hQR fun _ he => he

/-- A fact about the outcome that says nothing about errors. -/
theorem wp_also (hQ : wp E x Q s) (hR : wp (fun _ => True) x R s) :
    wp E x (fun a s' => Q a s' ∧ R a s') s := by
  unfold wp at hQ hR ⊢
  split
  · rename_i hx
    rw [hx] at hQ hR
    exact ⟨hQ, hR⟩
  · rename_i hx
    rw [hx] at hQ
    exact hQ

theorem wp_and (hQ : wp E x Q s) (hR : wp E x R s) : wp E x (fun a s' => Q a s' ∧ R a s') s :=
  wp_also hQ (wp_weaken hR (fun _ _ h => h) fun _ _ => trivial)

@[simp] theorem wp_pure : wp E (pure a : StateT σ (Except ε) α) Q s ↔ Q a s := Iff.rfl

@[simp] theorem wp_bind {Q : β → σ → Prop} :
    wp E (x >>= f) Q s ↔ wp E x (fun a s' => wp E (f a) Q s') s := by
  have hbind : (x >>= f) s = (x s >>= fun p => f p.1 p.2) := rfl
  unfold wp
  rw [hbind]
  cases x s with
  | error e => rfl
  | ok p => rfl

theorem wp_seq {Q : β → σ → Prop} (hx : wp E x R s) (hf : ∀ a s', R a s' → wp E (f a) Q s') :
    wp E (x >>= f) Q s :=
  wp_bind.2 (wp_mono hx hf)

@[simp] theorem wp_get {Q : σ → σ → Prop} :
    wp E (get : StateT σ (Except ε) σ) Q s ↔ Q s s := Iff.rfl

@[simp] theorem wp_set {Q : PUnit → σ → Prop} :
    wp E (set s' : StateT σ (Except ε) PUnit) Q s ↔ Q ⟨⟩ s' := Iff.rfl

@[simp] theorem wp_modify {g : σ → σ} {Q : PUnit → σ → Prop} :
    wp E (modify g : StateT σ (Except ε) PUnit) Q s ↔ Q ⟨⟩ (g s) := Iff.rfl

@[simp] theorem wp_throw :
    wp E (throw e : StateT σ (Except ε) α) Q s ↔ E e := Iff.rfl

theorem wp_ite {c : Prop} [Decidable c] {y : StateT σ (Except ε) α} :
    wp E (if c then x else y) Q s ↔ (c → wp E x Q s) ∧ (¬ c → wp E y Q s) := by
  split <;> simp_all

theorem wp_true : wp (fun _ => True) x (fun _ _ => True) s := by
  unfold wp
  split <;> trivial

/-- A program on one part of the state, with its own kind of errors.  It is irreducible, so that what
a program does is only unfolded where a proof asks for it. -/
@[irreducible] def zoom {δ : Type} (read : τ → σ) (write : σ → τ → τ) (wrap : ε → δ)
    (x : StateT σ (Except ε) α) : StateT τ (Except δ) α :=
  fun t =>
    match x (read t) with
    | .ok (a, s) => .ok (a, write s t)
    | .error e => .error (wrap e)

@[simp] theorem wp_zoom {δ : Type} {D : δ → Prop} {read : τ → σ} {write : σ → τ → τ} {wrap : ε → δ}
    {Q : α → τ → Prop} {t : τ} :
    wp D (zoom read write wrap x) Q t ↔
      wp (fun e => D (wrap e)) x (fun a s => Q a (write s t)) (read t) := by
  unfold wp zoom
  cases x (read t) with
  | error e => rfl
  | ok p => rfl

/-- The program leaves this part of the state as it is. -/
def Fixes {κ : Type} (key : σ → κ) (x : StateT σ (Except ε) α) : Prop :=
  ∀ s, wp (fun _ => True) x (fun _ s' => key s' = key s) s

section Fixes

variable {κ : Type} {key : σ → κ}

theorem Fixes.bind (hx : Fixes key x) (hf : ∀ a, Fixes key (f a)) : Fixes key (x >>= f) := by
  intro s
  refine wp_seq (hx s) ?_
  intro a s1 h1
  exact wp_mono (hf a s1) fun _ _ h2 => h2.trans h1

theorem Fixes.pure (a : α) : Fixes key (pure a : StateT σ (Except ε) α) := fun _ => rfl

theorem Fixes.throw (e : ε) : Fixes key (throw e : StateT σ (Except ε) α) := fun _ => trivial

theorem Fixes.get : Fixes key (get : StateT σ (Except ε) σ) := fun _ => rfl

theorem Fixes.modify {g : σ → σ} (hg : ∀ s, key (g s) = key s) :
    Fixes key (modify g : StateT σ (Except ε) PUnit) := hg

/-- A program that reads the state first. -/
theorem Fixes.get_bind {h : σ → StateT σ (Except ε) α}
    (hh : ∀ s, wp (fun _ => True) (h s) (fun _ s' => key s' = key s) s) :
    Fixes key (MonadState.get >>= h) := hh

end Fixes

end Laboratorio.Lib
