import Laboratorio.Xv6.Log

/-!
# What recovery makes of a disk

`Recoverable g v d` says that the log on the disk `d` is in order and that replaying it gives the
blocks outside the log area the contents `v`.  A disk with an empty log is recoverable to its own
contents (`recoverable_of_empty`).

* `Recoverable.atEvery` — recovery may be interrupted between any two of its block writes: the
  disk stays recoverable to the same contents.
* `Recoverable.initlog` — a recovery that is not interrupted succeeds, empties the log and leaves
  these contents.

The second half of `commit` makes the same writes as a recovery, and `clearLog_install_trans`
describes both.
-/

namespace Laboratorio.Xv6.Log

open Laboratorio.Lib

variable {g : Geometry} {s : State} {d d' v : Disk} {b : Int} {i n : Nat}
  {ws vs : List (Int × Block)}

theorem not_home_start : ¬ Home g g.start := by
  have := g.size_pos
  unfold Home
  omega

theorem not_home_logBlock (h : (i : Int) + 1 < g.size) : ¬ Home g (logBlock g i) := by
  unfold Home logBlock
  omega

theorem logBlock_ne_start : logBlock g i ≠ g.start := by
  unfold logBlock
  omega

theorem bread_of_clean (h : s.dirty b = none) : bread s b = s.disk b := by
  rw [bread, h, Option.getD_none]

/-! ## Sequences of writes -/

/-- The state after the block writes `ws`. -/
def State.wrote (s : State) (ws : List (Int × Block)) : State :=
  { s with
    disk := Redo.apply ws s.disk
    dirty := fun b => if b ∈ ws.map Prod.fst then none else s.dirty b
    writes := s.writes ++ ws }

theorem wrote_nil (s : State) : s.wrote [] = s := by
  simp [State.wrote]

theorem wrote_wrote : (s.wrote ws).wrote vs = s.wrote (ws ++ vs) := by
  simp only [State.wrote, Redo.apply_append, List.append_assoc, List.map_append, List.mem_append]
  congr
  funext b
  by_cases hv : b ∈ vs.map Prod.fst <;> by_cases hw : b ∈ ws.map Prod.fst <;> simp [hv, hw]

theorem bwrite_eq_wrote (s : State) (b : Int) (data : Block) :
    bwrite s b data = s.wrote [(b, data)] := by
  unfold bwrite State.wrote
  congr
  funext c
  by_cases hc : c = b
  · simp [hc]
  · simp [hc]

theorem bread_wrote_of_notMem (h : b ∉ ws.map Prod.fst) : bread (s.wrote ws) b = bread s b := by
  show (if b ∈ ws.map Prod.fst then none else s.dirty b).getD (Redo.apply ws s.disk b) = bread s b
  rw [if_neg h, Redo.apply_of_notMem h]
  rfl

theorem wrote_clean (h : s.dirty b = none) : (s.wrote ws).dirty b = none := by
  show (if b ∈ ws.map Prod.fst then none else s.dirty b) = none
  split
  · rfl
  · exact h

/-- A copy whose sources are not overwritten on the way. -/
theorem copyBlocks_eq {src dst : Nat → Int} (h : ∀ i < n, ∀ j < n, src i ≠ dst j) :
    copyBlocks src dst n s =
      s.wrote ((List.range n).map fun i => (dst i, bread s (src i))) := by
  induction n with
  | zero => exact (wrote_nil s).symm
  | succ n ih =>
    have hsrc : src n ∉
        ((List.range n).map fun i => (dst i, bread s (src i))).map Prod.fst := by
      rw [List.map_map]
      intro hmem
      obtain ⟨j, hj, he⟩ := List.mem_map.1 hmem
      exact h n (Nat.lt_succ_self n) j (Nat.lt_succ_of_lt (List.mem_range.1 hj)) he.symm
    have hrec := ih fun i hi j hj => h i (Nat.lt_succ_of_lt hi) j (Nat.lt_succ_of_lt hj)
    unfold copyBlocks at hrec ⊢
    rw [List.range_succ, List.foldl_append, hrec, List.map_append]
    show bwrite _ _ _ = _
    rw [bread_wrote_of_notMem hsrc, bwrite_eq_wrote, wrote_wrote]
    rfl

/-! ## The log on a disk -/

/-- The writes that install the log of the disk `d`. -/
def installs (g : Geometry) (d : Disk) : List (Int × Block) :=
  (List.range (d g.start 0).toNat).map fun i => (Block.block (d g.start) i, d (logBlock g i))

/-- The block writes of a recovery of the disk `d`. -/
def recovery (g : Geometry) (d : Disk) : List (Int × Block) :=
  installs g d ++ [(g.start, Function.update (d g.start) 0 0)]

/-- The log of `d` is in order, and replaying it gives the home blocks the contents `v`. -/
structure Recoverable (g : Geometry) (v d : Disk) : Prop where
  n_le : d g.start 0 ≤ LOGSIZE
  n_lt : d g.start 0 < g.size
  home : ∀ w ∈ installs g d, Home g w.1
  contents : ∀ b, Home g b → Redo.apply (installs g d) d b = v b

theorem installs_of_empty (h : d g.start 0 = 0) : installs g d = [] := by
  rw [installs, h]
  rfl

theorem recoverable_of_empty (h : d g.start 0 = 0) (hv : ∀ b, Home g b → d b = v b) :
    Recoverable g v d where
  n_le := by rw [h]; decide
  n_lt := by rw [h]; exact g.size_pos
  home := by rw [installs_of_empty h]; nofun
  contents := by rw [installs_of_empty h]; exact hv

/-- The installs depend on the log area alone. -/
theorem installs_congr (hn : d g.start 0 < g.size) (h : ∀ b, ¬ Home g b → d' b = d b) :
    installs g d' = installs g d := by
  unfold installs
  rw [h g.start not_home_start]
  apply List.map_congr_left
  intro i hi
  rw [h (logBlock g i)]
  apply not_home_logBlock
  have := List.mem_range.1 hi
  omega

/-- Writes to home blocks leave the log area alone. -/
theorem apply_of_not_home (hws : ∀ w ∈ ws, Home g w.1) (hb : ¬ Home g b) :
    Redo.apply ws d b = d b := by
  apply Redo.apply_of_notMem
  intro hmem
  obtain ⟨w, hw, rfl⟩ := List.mem_map.1 hmem
  exact hb (hws w hw)

/-- Writes to the log area leave the home blocks alone. -/
theorem apply_of_home (hws : ∀ w ∈ ws, ¬ Home g w.1) (hb : Home g b) :
    Redo.apply ws d b = d b := by
  apply Redo.apply_of_notMem
  intro hmem
  obtain ⟨w, hw, rfl⟩ := List.mem_map.1 hmem
  exact hws w hw hb

/-- An interrupted installation. -/
theorem Recoverable.atEvery_installs (h : Recoverable g v d) :
    Redo.AtEvery (Recoverable g v) (installs g d) d := by
  intro p hp
  have hout : ∀ b, ¬ Home g b → Redo.apply p d b = d b := fun b hb =>
    apply_of_not_home (fun w hw => h.home w (hp.subset hw)) hb
  have hinst := installs_congr h.n_lt hout
  have hstart := hout g.start not_home_start
  refine ⟨?_, ?_, ?_, ?_⟩
  · rw [hstart]
    exact h.n_le
  · rw [hstart]
    exact h.n_lt
  · rw [hinst]
    exact h.home
  · intro b hb
    rw [hinst, Redo.apply_of_prefix hp]
    exact h.contents b hb

theorem apply_recovery_start : Redo.apply (recovery g d) d g.start 0 = 0 := by
  rw [recovery, Redo.apply_append, Redo.apply_cons, Redo.apply_nil, Function.update_self]
  exact Function.update_self 0 0 (d g.start)

theorem Recoverable.apply_recovery (h : Recoverable g v d) (hb : Home g b) :
    Redo.apply (recovery g d) d b = v b := by
  have hne : b ≠ g.start := fun he => not_home_start (he ▸ hb)
  rw [recovery, Redo.apply_append, Redo.apply_cons, Redo.apply_nil, Function.update_of_ne hne]
  exact h.contents b hb

/-- **A recovery may itself be interrupted** between any two of its block writes. -/
theorem Recoverable.atEvery (h : Recoverable g v d) :
    Redo.AtEvery (Recoverable g v) (recovery g d) d := by
  refine h.atEvery_installs.append (Redo.atEvery_singleton h.atEvery_installs.last ?_)
  rw [← Redo.apply_append]
  exact recoverable_of_empty apply_recovery_start fun b hb => h.apply_recovery hb

/-! ## The code -/

/-- The in-memory header is the one on disk, and the cache holds nothing else for the log area. -/
structure Loaded (g : Geometry) (s : State) : Prop where
  n : s.lh.n = s.disk g.start 0
  block : ∀ i < s.lh.n.toNat, s.lh.block i = Block.block (s.disk g.start) i
  clean : ∀ b, ¬ Home g b → s.dirty b = none

theorem headBlock_emptied (s : State) (hb : Block) :
    headBlock s.emptied.lh hb = Function.update hb 0 0 := by
  funext w
  unfold headBlock State.emptied
  by_cases hw : w = 0
  · subst hw
    simp
  · simp [hw]

theorem install_trans_eq (hl : Loaded g s) (h : Recoverable g v s.disk) :
    install_trans g s = s.wrote (installs g s.disk) := by
  have hin : ∀ i < s.lh.n.toNat, ¬ Home g (logBlock g i) := by
    intro i hi
    have := h.n_lt
    have := hl.n
    exact not_home_logBlock (by omega)
  have hlist : (List.range s.lh.n.toNat).map (fun i => (s.lh.block i, bread s (logBlock g i))) =
      installs g s.disk := by
    unfold installs
    rw [← hl.n]
    apply List.map_congr_left
    intro i hi
    rw [List.mem_range] at hi
    rw [hl.block i hi, bread_of_clean (hl.clean _ (hin i hi))]
  rw [install_trans, copyBlocks_eq, hlist]
  intro i hi j hj he
  apply hin i hi
  rw [he]
  refine h.home (s.lh.block j, bread s (logBlock g j)) ?_
  rw [← hlist]
  exact List.mem_map.2 ⟨j, List.mem_range.2 hj, rfl⟩

/-- Installing and emptying the log makes the writes of a recovery. -/
theorem clearLog_install_trans (hl : Loaded g s) (h : Recoverable g v s.disk) :
    clearLog g (install_trans g s) = (s.wrote (recovery g s.disk)).emptied := by
  rw [install_trans_eq hl h]
  have hhead : bread (s.wrote (installs g s.disk)).emptied g.start = s.disk g.start := by
    apply (bread_of_clean (wrote_clean (hl.clean _ not_home_start))).trans
    exact apply_of_not_home h.home not_home_start
  unfold clearLog write_head
  rw [hhead, headBlock_emptied, bwrite_eq_wrote, recovery, ← wrote_wrote]
  rfl

/-- **Recovery** of a recoverable disk succeeds with the writes `recovery g d`. -/
theorem Recoverable.initlog (h : Recoverable g v d) :
    ∃ r, initlog g d = .ok r ∧ r.writes = recovery g d ∧ r.disk = Redo.apply (recovery g d) d := by
  unfold Log.initlog recover_from_log read_head
  have hhead : bread (boot d) g.start = d g.start := rfl
  rw [hhead, if_neg (not_lt.2 h.n_le)]
  refine ⟨_, rfl, ?_⟩
  rw [clearLog_install_trans ⟨rfl, ?_, fun _ _ => rfl⟩ h]
  · exact ⟨rfl, rfl⟩
  · intro i hi
    exact if_pos hi

end Laboratorio.Xv6.Log
