import Laboratorio.Xv6.Bio.Content

/-!
# The buffer cache is transparent
-/

namespace Laboratorio.Xv6.Bio

open Laboratorio.Lib DList

variable {β : Type} {s t : State β} {h : Task} {k : Nat} {b : Ptr} {pos : Pos}

/-! ## Recycling -/

theorem mark_block (b : Ptr) (s : State β) (c : Ptr) :
    ((mark b s).buf c).dev = (s.buf c).dev ∧ ((mark b s).buf c).blockno = (s.buf c).blockno := by
  by_cases hcb : c = b
  · simp [mark, State.setBuf, hcb]
  · simp [mark, State.setBuf, hcb]

/-- A step gives a buffer to another block only if nobody uses it and it is not dirty. -/
theorem step_keeps_block {op : Op β} (hs : Shape s) (hstep : step s op = .ok t)
    (hb : 0 < (s.buf b).refcnt ∨ (s.buf b).dirty = true) :
    (t.buf b).dev = (s.buf b).dev ∧ (t.buf b).blockno = (s.buf b).blockno := by
  have hused : s.unused b = false := by
    rcases hb with hb | hb
    · simp [State.unused, Nat.pos_iff_ne_zero.1 hb]
    · simp [State.unused, hb]
  cases op with
  | bread h k =>
    simp only [step] at hstep
    split at hstep
    · rcases hs.bget_cases k with ⟨c, -, hget⟩ | ⟨-, ⟨c, hc, hget⟩ | ⟨-, hget⟩⟩
      · rw [hget] at hstep
        cases hstep
        by_cases hbc : b = c
        · simp [State.goto, State.setBuf, hbc]
        · simp [State.goto, State.setBuf, hbc]
      · rw [hget] at hstep
        cases hstep
        have hbc : b ≠ c := by
          intro he
          rw [he, hc] at hused
          cases hused
        simp [State.goto, State.setBuf, hbc]
      · rw [hget] at hstep
        cases hstep
    · cases hstep
  | next h =>
    simp only [step] at hstep
    split at hstep
    · cases hstep
    · obtain ⟨u, pc, hu, rfl, -⟩ := advance_cases hstep
      exact hu.block b
  | modify h d =>
    simp only [step] at hstep
    split at hstep
    · rename_i k c hpc
      cases hstep
      by_cases hbc : b = c
      · simp [State.goto, State.setBuf, hbc]
      · simp [State.goto, State.setBuf, hbc]
    · cases hstep
  | log_write h =>
    simp only [step] at hstep
    split at hstep
    · cases hstep
      exact mark_block _ s b
    · cases hstep
  | bwrite h =>
    simp only [step] at hstep
    split at hstep
    · rename_i k c hpc
      obtain ⟨u, hu, rfl⟩ := exists_of_map_eq_ok hstep
      unfold bwrite at hu
      split at hu
      · cases hu
      · have hio := (kept_iderw hu).block b
        have hmark := mark_block c s b
        exact ⟨hio.1.trans hmark.1, hio.2.trans hmark.2⟩
    · cases hstep
  | brelse h =>
    simp only [step] at hstep
    split at hstep
    · obtain ⟨u, hu, rfl⟩ := exists_of_map_eq_ok hstep
      exact (kept_brelse hu).block b
    · cases hstep
  | ideintr => exact (kept_ideintr hstep).block b

/-! ## Transparency -/

/-- In every state that is reached the list is a ring of all buffers in both directions, no block is
in two buffers, the next step takes no buffer away that is referred to or dirty, and a task to which
`bread(1, k)` has returned holds a buffer with the contents last written to block `k`, or with those
of the disk if nothing has been written to it. -/
theorem bcache_transparent (disk : Nat × Nat → β) (zero : β) (ops : List (Op β)) (s : State β)
    (hrun : run step (boot disk zero) ops = .ok s) :
    (∃ l, Ring s.links l ∧ ∀ b, b ∈ l) ∧
    (∀ b c, (s.buf b).dev = Fs.ROOTDEV → (s.buf c).dev = Fs.ROOTDEV →
      (s.buf b).blockno = (s.buf c).blockno → b = c) ∧
    (∀ op t, step s op = .ok t → ∀ b, 0 < (s.buf b).refcnt ∨ (s.buf b).dirty = true →
      (t.buf b).dev = (s.buf b).dev ∧ (t.buf b).blockno = (s.buf b).blockno) ∧
    (∀ h k b, s.pc h = .use k b .held → (s.buf b).lock = some h ∧
      (s.buf b).data = (s.written k).getD (disk (Fs.ROOTDEV, k))) := by
  have hI := run_inv disk zero ops s hrun
  refine ⟨hI.shape.ring, hI.shape.unique, fun op t hstep b hb => ?_, fun h k b hpc => ?_⟩
  · exact step_keeps_block hI.shape hstep hb
  · have hlock := (hI.shape.lock h b).2 ⟨k, .held, hpc, rfl⟩
    obtain ⟨hdev, hblk⟩ := hI.shape.ident h k b .held hpc
    have hvalid := hI.content.ready h k b (by rw [hpc]; rfl)
    have hclean := hI.content.clean b hdev hvalid fun g l hg => by
      rw [hI.shape.holder_unique (.inr hlock) hg rfl, hpc] at hg
      cases hg
    rw [hblk] at hclean
    exact ⟨hlock, hclean⟩

/-- Task 0 reads block 5 from the disk, changes it and logs it; task 1 reads it again. -/
def reread : List (Op Nat) :=
  [.bread 0 5, .next 0, .next 0, .ideintr, .next 0, .modify 0 7, .log_write 0, .brelse 0, .next 0,
    .bread 1 5, .next 1, .next 1]

theorem bcache_transparent_reread : ∃ s b, run step (boot (fun p => p.2) 0) reread = .ok s ∧
    s.pc 1 = .use 5 b .held ∧ s.written 5 = some 7 ∧ (s.buf b).data = 7 := by
  obtain ⟨s, hrun, hpc, hwritten⟩ : ∃ s, run step (boot (fun p => p.2) 0) reread = .ok s ∧
      s.pc 1 = .use 5 ⟨0, by decide⟩ .held ∧ s.written 5 = some 7 := by decide +kernel
  have hdata := (bcache_transparent _ 0 reread s hrun).2.2.2 1 5 _ hpc
  rw [hwritten] at hdata
  exact ⟨s, _, hrun, hpc, hwritten, hdata.2⟩

end Laboratorio.Xv6.Bio
