import Laboratorio.Xv6.Recovery

/-!
# Transactions of the log survive crashes whole or not at all

`Store` is what the log is for: contents that are durable, and the updates recorded since the last
commit, which become durable together.  Every run of the kernel from `initlog` on refines it
(`run_refines`), whatever the disk held before.

The invariant `Inv` ties the header on disk, the header in memory and the pinned buffers together.
From it, `commit_eq` lists the block writes of `commit`, and every point between two of them is
recoverable: to the old contents until the header is written, to the new ones afterwards.

`transaction_atomic` puts this together with any number of interrupted recoveries (`Crashes`).
-/

namespace Laboratorio.Xv6.Log

open Laboratorio.Lib Function List

/-! ## The abstract store -/

structure Store where
  durable : Disk
  pending : List (Int × Block)

/-- The contents that readers see. -/
def Store.current (t : Store) : Disk := Redo.apply t.pending t.durable

def Store.step (t : Store) : Op → Store
  | .log_write b data => { t with pending := t.pending ++ [(b, data)] }
  | .commit => ⟨t.current, []⟩
  | .begin_op => t
  | .end_op => t

def Store.after (d : Disk) (ops : List Op) : Store := ops.foldl Store.step ⟨d, []⟩

/-- On the home blocks the disk has the durable contents and the cache the current ones. -/
structure Refines (g : Geometry) (s : State) (t : Store) : Prop where
  durable : ∀ b, Home g b → s.disk b = t.durable b
  current : ∀ b, Home g b → bread s b = t.current b

/-! ## The invariant -/

/-- The on-disk log is empty, and the in-memory header lists the pinned buffers. -/
structure Inv (g : Geometry) (s : State) : Prop where
  empty : s.disk g.start 0 = 0
  n_nonneg : 0 ≤ s.lh.n
  n_le : s.lh.n ≤ LOGSIZE
  n_lt : s.lh.n < g.size
  home : ∀ i < s.lh.n.toNat, Home g (s.lh.block i)
  pinned : ∀ b, s.dirty b = none ↔ ∀ i < s.lh.n.toNat, s.lh.block i ≠ b

variable {g : Geometry} {s t : State} {d d' v : Disk} {b : Int} {data : Block} {i n : Nat}
  {ws p : List (Int × Block)} {st : Store}

theorem Inv.clean (h : Inv g s) (hb : ¬ Home g b) : s.dirty b = none := by
  rw [h.pinned]
  intro i hi he
  exact hb (he ▸ h.home i hi)

theorem Inv.not_home_logBlock (h : Inv g s) (hi : i < s.lh.n.toNat) :
    ¬ Home g (logBlock g i) := by
  have := h.n_lt
  exact Log.not_home_logBlock (by omega)

/-! ## The block writes of `commit` -/

/-- The writes of `write_log`. -/
def logWrites (g : Geometry) (s : State) : List (Int × Block) :=
  (List.range s.lh.n.toNat).map fun i => (logBlock g i, bread s (s.lh.block i))

/-- The write of `write_head` that commits the transaction. -/
def headWrite (g : Geometry) (s : State) : Int × Block :=
  (g.start, headBlock s.lh (s.disk g.start))

theorem length_logWrites (h : Inv g s) : ((logWrites g s).length : Int) = s.lh.n := by
  have := h.n_nonneg
  simp only [logWrites, length_map, length_range]
  omega

theorem Inv.logWrites_not_home (h : Inv g s) : ∀ w ∈ logWrites g s, ¬ Home g w.1 := by
  intro w hw
  obtain ⟨i, hi, rfl⟩ := mem_map.1 hw
  exact h.not_home_logBlock (mem_range.1 hi)

theorem start_notMem_logWrites : g.start ∉ (logWrites g s).map Prod.fst := by
  intro hmem
  obtain ⟨w, hw, he⟩ := mem_map.1 hmem
  obtain ⟨i, -, rfl⟩ := mem_map.1 hw
  exact logBlock_ne_start he

theorem write_head_write_log (h : Inv g s) :
    write_head g (write_log g s) = s.wrote (logWrites g s ++ [headWrite g s]) := by
  have hlog : write_log g s = s.wrote (logWrites g s) := by
    apply copyBlocks_eq
    intro i hi j hj he
    exact h.not_home_logBlock hj (he ▸ h.home i hi)
  have hhead : bread (s.wrote (logWrites g s)) g.start = s.disk g.start := by
    rw [bread_wrote_of_notMem start_notMem_logWrites, bread_of_clean (h.clean not_home_start)]
  rw [hlog, write_head, hhead, bwrite_eq_wrote, wrote_wrote]
  rfl

/-- The disk at the commit point. -/
def committed (g : Geometry) (s : State) : Disk :=
  Redo.apply (logWrites g s ++ [headWrite g s]) s.disk

theorem committed_start : committed g s g.start = headBlock s.lh (s.disk g.start) := by
  rw [committed, Redo.apply_append, Redo.apply_cons, Redo.apply_nil]
  exact update_self _ _ _

theorem committed_of_ne (hb : b ≠ g.start) :
    committed g s b = Redo.apply (logWrites g s) s.disk b := by
  rw [committed, Redo.apply_append, Redo.apply_cons, Redo.apply_nil]
  exact update_of_ne hb _ _

theorem committed_logBlock (hi : i < s.lh.n.toNat) :
    committed g s (logBlock g i) = bread s (s.lh.block i) := by
  rw [committed_of_ne logBlock_ne_start]
  have hpos : ∀ j, (logBlock g j - g.start - 1).toNat = j := by
    intro j
    unfold logBlock
    omega
  have hmem : logBlock g i ∈ (logWrites g s).map Prod.fst :=
    mem_map.2 ⟨_, mem_map.2 ⟨i, mem_range.2 hi, rfl⟩, rfl⟩
  -- the copies sit at different places, so each place determines what it holds
  rw [Redo.apply_of_mem (f := fun k => bread s (s.lh.block (k - g.start - 1).toNat)) ?_ hmem, hpos]
  intro w hw
  obtain ⟨j, -, rfl⟩ := mem_map.1 hw
  simp only [hpos]

theorem block_headBlock {lh : LogHeader} {hb : Block} (hn : lh.n ≤ LOGSIZE)
    (hi : i < lh.n.toNat) : Block.block (headBlock lh hb) i = lh.block i := by
  have h30 : lh.n ≤ 30 := hn
  have hval : (Fin.ofNat 128 (i + 1)).val = i + 1 := Nat.mod_eq_of_lt (by omega)
  have hne : Fin.ofNat 128 (i + 1) ≠ 0 := by
    intro he
    rw [he] at hval
    exact absurd hval (by simp)
  unfold Block.block headBlock
  rw [if_neg hne, hval, Nat.add_sub_cancel, if_pos hi]

/-- What the log installs at the commit point. -/
theorem installs_committed (h : Inv g s) :
    installs g (committed g s) =
      (List.range s.lh.n.toNat).map fun i => (s.lh.block i, bread s (s.lh.block i)) := by
  unfold installs
  rw [committed_start]
  apply map_congr_left
  intro i hi
  have hi' : i < s.lh.n.toNat := mem_range.1 hi
  rw [block_headBlock h.n_le hi', committed_logBlock hi']

theorem recoverable_committed (h : Inv g s) : Recoverable g (bread s) (committed g s) where
  n_le := by rw [committed_start]; exact h.n_le
  n_lt := by rw [committed_start]; exact h.n_lt
  home := by
    rw [installs_committed h]
    intro w hw
    obtain ⟨i, hi, rfl⟩ := mem_map.1 hw
    exact h.home i (mem_range.1 hi)
  contents := by
    intro b hb
    rw [installs_committed h]
    by_cases hpin : s.dirty b = none
    · -- a block that is not in the transaction
      have hne : b ≠ g.start := fun he => not_home_start (he ▸ hb)
      rw [Redo.apply_of_notMem, committed_of_ne hne, apply_of_home h.logWrites_not_home hb,
        bread_of_clean hpin]
      intro hmem
      obtain ⟨w, hw, he⟩ := mem_map.1 hmem
      obtain ⟨i, hi, rfl⟩ := mem_map.1 hw
      exact (h.pinned b).1 hpin i (mem_range.1 hi) he
    · rw [h.pinned] at hpin
      push Not at hpin
      obtain ⟨i, hi, rfl⟩ := hpin
      apply Redo.apply_of_mem
      · intro w hw
        obtain ⟨j, -, rfl⟩ := mem_map.1 hw
        rfl
      · exact mem_map.2 ⟨_, mem_map.2 ⟨i, mem_range.2 hi, rfl⟩, rfl⟩

theorem loaded_committed (h : Inv g s) :
    Loaded g (s.wrote (logWrites g s ++ [headWrite g s])) where
  n := by
    show s.lh.n = committed g s g.start 0
    rw [committed_start]
    rfl
  block := by
    intro i hi
    show s.lh.block i = Block.block (committed g s g.start) i
    rw [committed_start, block_headBlock h.n_le hi]
  clean := fun b hb => wrote_clean (h.clean hb)

/-- All block writes of `commit`, in their order. -/
def commitWrites (g : Geometry) (s : State) : List (Int × Block) :=
  logWrites g s ++ [headWrite g s] ++ recovery g (committed g s)

theorem commit_eq (h : Inv g s) (hn : 0 < s.lh.n) :
    commit g s = (s.wrote (commitWrites g s)).emptied := by
  rw [commit, if_pos hn, write_head_write_log h,
    clearLog_install_trans (loaded_committed h) (recoverable_committed h), wrote_wrote]
  rfl

/-! ## Crashes in `commit` -/

/-- Until the header is written, the disk recovers to what it held before. -/
theorem atEvery_logWrites (h : Inv g s) :
    Redo.AtEvery (Recoverable g s.disk) (logWrites g s) s.disk := by
  intro p hp
  apply recoverable_of_empty
  · rw [Redo.apply_of_notMem]
    · exact h.empty
    · exact fun hmem => start_notMem_logWrites ((hp.map Prod.fst).subset hmem)
  · intro b hb
    exact apply_of_home (fun w hw => h.logWrites_not_home w (hp.subset hw)) hb

/-- **Every crash point of `commit`**: the disk recovers to the old contents if the header has not
been written, and to the contents of the cache if it has. -/
theorem commit_crash (h : Inv g s) (hp : s.writes ++ p <+: (commit g s).writes) :
    (p.length ≤ s.lh.n ∧ Recoverable g s.disk (Redo.apply p s.disk)) ∨
      (s.lh.n < p.length ∧ Recoverable g (bread s) (Redo.apply p s.disk)) := by
  have hlen := length_logWrites h
  by_cases hn : 0 < s.lh.n
  · rw [commit_eq h hn] at hp
    have hcut : p <+: logWrites g s ++ (headWrite g s :: recovery g (committed g s)) := by
      rw [append_cons]
      exact (prefix_append_right_inj s.writes).1 hp
    rcases Redo.cut_append hcut with hlog | ⟨q, hq, rfl⟩
    · left
      have := hlog.length_le
      exact ⟨by omega, atEvery_logWrites h p hlog⟩
    rcases q with _ | ⟨w, q⟩
    · left
      rw [append_nil]
      exact ⟨by omega, (atEvery_logWrites h).last⟩
    · right
      obtain ⟨rfl, hrec⟩ := cons_prefix_cons.1 hq
      refine ⟨by simp only [length_append, length_cons]; omega, ?_⟩
      rw [append_cons, Redo.apply_append]
      exact (recoverable_committed h).atEvery q hrec
  · left
    have hnil : p = [] := by
      rw [commit, if_neg hn] at hp
      have hle := hp.length_le
      rw [length_append] at hle
      exact length_eq_zero_iff.1 (by omega)
    subst hnil
    exact ⟨h.n_nonneg, recoverable_of_empty h.empty fun _ _ => rfl⟩

/-! ## One step -/

theorem absorb_spec (lh : LogHeader) (b : Int) :
    (absorb lh b < lh.n.toNat ∧ lh.block (absorb lh b) = b) ∨
      (absorb lh b = lh.n.toNat ∧ ∀ i < lh.n.toNat, lh.block i ≠ b) := by
  unfold absorb
  cases hf : (List.range lh.n.toNat).find? fun i => lh.block i = b with
  | none =>
    right
    refine ⟨rfl, ?_⟩
    simpa using hf
  | some i =>
    left
    have hi := mem_of_find?_eq_some hf
    have hb := List.find?_some hf
    exact ⟨mem_range.1 hi, by simpa using hb⟩

/-- A `log_write` that returns: the block was in the transaction already, or it is appended. -/
theorem log_write_cases (hn : 0 ≤ s.lh.n) (h : log_write g s b data = .ok t) :
    s.lh.n < LOGSIZE ∧ s.lh.n < g.size - 1 ∧
      ((∃ i < s.lh.n.toNat, s.lh.block i = b ∧
          t = { s with dirty := update s.dirty b (some data) }) ∨
        ((∀ i < s.lh.n.toNat, s.lh.block i ≠ b) ∧
          t = { s with
            lh := ⟨s.lh.n + 1, update s.lh.block s.lh.n.toNat b⟩
            dirty := update s.dirty b (some data) })) := by
  unfold log_write at h
  split at h
  · cases h
  rename_i hroom
  split at h
  · cases h
  cases h
  push Not at hroom
  refine ⟨hroom.1, hroom.2, ?_⟩
  rcases absorb_spec s.lh b with ⟨hlt, hb⟩ | ⟨he, hnot⟩
  · left
    refine ⟨_, hlt, hb, ?_⟩
    have hne : ¬ ((absorb s.lh b : Int) = s.lh.n) := by omega
    have hself : update s.lh.block (absorb s.lh b) b = s.lh.block := by
      rw [update_eq_self_iff, hb]
    simp only [hself, if_neg hne]
  · right
    refine ⟨hnot, ?_⟩
    have heq : (s.lh.n.toNat : Int) = s.lh.n := by omega
    simp only [he, if_pos heq]

theorem begin_op_eq (h : begin_op s = .ok t) : t = { s with outstanding := s.outstanding + 1 } := by
  unfold begin_op at h
  split at h
  · cases h
  split at h
  · cases h
  cases h
  rfl

theorem end_op_eq (h : end_op s = .ok t) :
    ∃ c, t = { s with outstanding := s.outstanding - 1, committing := c } := by
  unfold end_op at h
  split at h
  · cases h
  split at h
  · cases h
    exact ⟨true, rfl⟩
  · cases h
    exact ⟨s.committing, rfl⟩

theorem inv_log_write (h : Inv g s) (hb : Home g b) (ht : log_write g s b data = .ok t) :
    Inv g t := by
  obtain ⟨hn30, hnsize, ⟨j, hj, hjb, rfl⟩ | ⟨hnew, rfl⟩⟩ := log_write_cases h.n_nonneg ht
  · refine ⟨h.empty, h.n_nonneg, h.n_le, h.n_lt, h.home, ?_⟩
    intro c
    show update s.dirty b (some data) c = none ↔ _
    rcases eq_or_ne c b with rfl | hc
    · rw [update_self]
      exact ⟨nofun, fun hall => absurd hjb (hall j hj)⟩
    · rw [update_of_ne hc]
      exact h.pinned c
  · have hn := h.n_nonneg
    have hsucc : (s.lh.n + 1).toNat = s.lh.n.toNat + 1 := by omega
    refine ⟨h.empty, ?_, ?_, ?_, ?_, ?_⟩
    · show 0 ≤ s.lh.n + 1
      omega
    · show s.lh.n + 1 ≤ LOGSIZE
      omega
    · show s.lh.n + 1 < g.size
      omega
    · show ∀ i < (s.lh.n + 1).toNat, Home g (update s.lh.block s.lh.n.toNat b i)
      rw [hsucc, Nat.forall_lt_succ_right]
      refine ⟨fun i hi => ?_, ?_⟩
      · rw [update_of_ne hi.ne]
        exact h.home i hi
      · rw [update_self]
        exact hb
    · intro c
      show update s.dirty b (some data) c = none ↔
        ∀ i < (s.lh.n + 1).toNat, update s.lh.block s.lh.n.toNat b i ≠ c
      rw [hsucc, Nat.forall_lt_succ_right, update_self]
      have hold : (∀ i < s.lh.n.toNat, update s.lh.block s.lh.n.toNat b i ≠ c) ↔
          s.dirty c = none := by
        rw [h.pinned c]
        refine forall₂_congr fun i hi => ?_
        rw [update_of_ne hi.ne]
      rw [hold]
      rcases eq_or_ne c b with rfl | hc
      · rw [update_self]
        exact ⟨nofun, fun hall => absurd rfl hall.2⟩
      · rw [update_of_ne hc]
        exact ⟨fun hnone => ⟨hnone, hc.symm⟩, fun hall => hall.1⟩

/-- Nothing is logged, on disk or in memory. -/
structure Settled (g : Geometry) (s : State) : Prop where
  empty : s.disk g.start 0 = 0
  n : s.lh.n = 0
  clean : ∀ b, s.dirty b = none

theorem Settled.inv (h : Settled g s) : Inv g s := by
  refine ⟨h.empty, ?_, ?_, ?_, ?_, ?_⟩
  · rw [h.n]
  · rw [h.n]
    decide
  · rw [h.n]
    exact g.size_pos
  · rw [h.n]
    nofun
  · intro b
    rw [h.n]
    exact ⟨fun _ => nofun, fun _ => h.clean b⟩

theorem settled_commit (h : Inv g s) : Settled g (commit g s) := by
  by_cases hn : 0 < s.lh.n
  · rw [commit_eq h hn]
    refine ⟨?_, rfl, ?_⟩
    · show Redo.apply (commitWrites g s) s.disk g.start 0 = 0
      rw [commitWrites, Redo.apply_append]
      exact apply_recovery_start
    · intro b
      by_cases hb : s.dirty b = none
      · exact wrote_clean hb
      · -- the buffers of the transaction are written by `install_trans`
        rw [h.pinned] at hb
        push Not at hb
        obtain ⟨i, hi, rfl⟩ := hb
        apply if_pos
        have hmem : s.lh.block i ∈ (installs g (committed g s)).map Prod.fst := by
          rw [installs_committed h]
          exact mem_map.2 ⟨_, mem_map.2 ⟨i, mem_range.2 hi, rfl⟩, rfl⟩
        simp only [commitWrites, recovery, map_append, mem_append]
        exact Or.inr (Or.inl hmem)
  · have hzero : s.lh.n = 0 := by
      have := h.n_nonneg
      omega
    rw [commit, if_neg hn]
    refine ⟨h.empty, hzero, ?_⟩
    intro b
    rw [h.pinned, hzero]
    simp

theorem commit_home (h : Inv g s) (hb : Home g b) : (commit g s).disk b = bread s b := by
  by_cases hn : 0 < s.lh.n
  · rw [commit_eq h hn]
    show Redo.apply (commitWrites g s) s.disk b = bread s b
    rw [commitWrites, Redo.apply_append]
    exact (recoverable_committed h).apply_recovery hb
  · rw [← bread_of_clean ((settled_commit h).clean b), commit, if_neg hn]

theorem bwrite_clean (h : ∀ b, s.dirty b = none) (c : Int) (x : Block) :
    ∀ b, (bwrite s c x).dirty b = none := by
  intro b
  rw [bwrite_eq_wrote]
  exact wrote_clean (h b)

theorem copyBlocks_clean {src dst : Nat → Int} (h : ∀ b, s.dirty b = none) :
    ∀ b, (copyBlocks src dst n s).dirty b = none := by
  induction n with
  | zero => exact h
  | succ n ih =>
    unfold copyBlocks at ih ⊢
    rw [range_succ, foldl_append]
    exact bwrite_clean ih _ _

theorem settled_clearLog (h : ∀ b, s.dirty b = none) : Settled g (clearLog g s) := by
  have hempty : ∀ b, s.emptied.dirty b = none := h
  unfold clearLog write_head
  refine ⟨?_, rfl, bwrite_clean hempty _ _⟩
  rw [headBlock_emptied]
  show update s.disk g.start _ g.start 0 = 0
  rw [update_self, update_self]

/-- A kernel that comes up has settled the log, whatever it found on the disk. -/
theorem settled_initlog (h : initlog g d = .ok s) : Settled g s := by
  obtain ⟨u, hu, hs⟩ := exists_of_bind_eq_ok h
  cases hs
  have hclean : ∀ b, u.dirty b = none := by
    unfold read_head at hu
    simp only at hu
    split at hu
    · cases hu
    · cases hu
      exact fun _ => rfl
  exact settled_clearLog (copyBlocks_clean hclean)

/-! ## Runs -/

theorem Settled.refines (h : Settled g s) (hd : ∀ b, Home g b → s.disk b = d b) :
    Refines g s ⟨d, []⟩ := by
  refine ⟨hd, ?_⟩
  intro b hb
  rw [bread_of_clean (h.clean b)]
  exact hd b hb

/-- One call keeps the invariant and is a step of the abstract store. -/
theorem step_refines {op : Op} (hi : Inv g s) (hr : Refines g s st) (hop : op.LogsHome g)
    (h : step g s op = .ok t) : Inv g t ∧ Refines g t (st.step op) := by
  cases op with
  | begin_op =>
    cases begin_op_eq h
    exact ⟨⟨hi.1, hi.2, hi.3, hi.4, hi.5, hi.6⟩, ⟨hr.1, hr.2⟩⟩
  | end_op =>
    obtain ⟨c, rfl⟩ := end_op_eq h
    exact ⟨⟨hi.1, hi.2, hi.3, hi.4, hi.5, hi.6⟩, ⟨hr.1, hr.2⟩⟩
  | log_write b data =>
    refine ⟨inv_log_write hi hop h, ?_⟩
    have hdisk : t.disk = s.disk ∧ t.dirty = update s.dirty b (some data) := by
      obtain ⟨-, -, ⟨-, -, -, rfl⟩ | ⟨-, rfl⟩⟩ := log_write_cases hi.n_nonneg h
      · exact ⟨rfl, rfl⟩
      · exact ⟨rfl, rfl⟩
    refine ⟨?_, ?_⟩
    · rw [hdisk.1]
      exact hr.durable
    · intro c hc
      show (t.dirty c).getD (t.disk c) = Redo.apply (st.pending ++ [(b, data)]) st.durable c
      rw [hdisk.1, hdisk.2, Redo.apply_append, Redo.apply_cons, Redo.apply_nil]
      rcases eq_or_ne c b with rfl | hne
      · rw [update_self, update_self]
        rfl
      · rw [update_of_ne hne, update_of_ne hne]
        exact hr.current c hc
  | commit =>
    simp only [step] at h
    split at h
    · cases h
      have hs := settled_commit hi
      have hs' : Settled g { commit g s with committing := false } := ⟨hs.1, hs.2, hs.3⟩
      refine ⟨hs'.inv, hs'.refines ?_⟩
      intro b hb
      show (commit g s).disk b = st.current b
      rw [commit_home hi hb]
      exact hr.current b hb
    · cases h

/-- **The log refines the abstract store** along every run of calls that log home blocks. -/
theorem run_refines {s0 : State} (hboot : initlog g d = .ok s0) :
    ∀ ops s, (∀ op ∈ ops, op.LogsHome g) → run (step g) s0 ops = .ok s →
      Inv g s ∧ Refines g s (Store.after s0.disk ops) := by
  have hs := settled_initlog hboot
  intro ops s hops hrun
  revert hops
  refine run_invariant (P := fun ops s => (∀ op ∈ ops, op.LogsHome g) →
    Inv g s ∧ Refines g s (Store.after s0.disk ops)) ?_ ?_ ops s hrun
  · intro _
    exact ⟨hs.inv, hs.refines fun _ _ => rfl⟩
  · intro ops op u t _ ih hstep hops
    obtain ⟨hi, hr⟩ := ih fun o ho => hops o (mem_append_left _ ho)
    have hop := hops op (mem_append_right _ mem_cons_self)
    rw [Store.after, foldl_append]
    exact step_refines hi hr hop hstep

/-! ## Crash after crash -/

/-- `Crashes g d e`: starting from the disk `d`, any number of recoveries that are cut short
between two of their block writes leave the disk `e`. -/
inductive Crashes (g : Geometry) (d : Disk) : Disk → Prop where
  | none : Crashes g d d
  | again {e : Disk} {r : State} {p : List (Int × Block)} (h : Crashes g d e)
      (hr : initlog g e = .ok r) (hp : p <+: r.writes) : Crashes g d (Redo.apply p e)

theorem Recoverable.crashes {e : Disk} (h : Recoverable g v d) (hc : Crashes g d e) :
    Recoverable g v e := by
  induction hc with
  | none => exact h
  | again _ hr hp ih =>
    obtain ⟨r', hr', hw, -⟩ := ih.initlog
    rw [hr] at hr'
    cases hr'
    rw [hw] at hp
    exact ih.atEvery _ hp

/-- A recovery that is let through ends with an empty log and the contents `v`. -/
theorem Recoverable.recovers (h : Recoverable g v d) :
    ∃ r, Log.initlog g d = .ok r ∧ r.disk g.start 0 = 0 ∧ ∀ b, Home g b → r.disk b = v b := by
  obtain ⟨r, hr, -, hd⟩ := h.initlog
  refine ⟨r, hr, ?_, ?_⟩
  · rw [hd]
    exact apply_recovery_start
  · intro b hb
    rw [hd]
    exact h.apply_recovery hb

/-- **Crash atomicity.**  A kernel comes up on any disk `d` and runs any sequence of calls that
log home blocks, up to a state `s` in which it commits.  The machine crashes after the block
writes `p` of `commit`, and again in any number of recoveries.  The next recovery succeeds, empties
the log, and leaves on the home blocks the contents from before the transaction, all of them, if
the header of the log had not been written, and the recorded ones, all of them, if it had. -/
theorem transaction_atomic {s₀ : State} {e : Disk} {ops : List Op} (hboot : initlog g d = .ok s₀)
    (hops : ∀ op ∈ ops, op.LogsHome g) (hrun : run (step g) s₀ ops = .ok s)
    (hcrash : s.writes ++ p <+: (commit g s).writes) (hagain : Crashes g (Redo.apply p s.disk) e) :
    (∀ b, Home g b → s.disk b = (Store.after s₀.disk ops).durable b) ∧
    ∃ r, initlog g e = .ok r ∧ r.disk g.start 0 = 0 ∧
      ((p.length ≤ s.lh.n ∧
          ∀ b, Home g b → r.disk b = (Store.after s₀.disk ops).durable b) ∨
        (s.lh.n < p.length ∧
          ∀ b, Home g b → r.disk b = (Store.after s₀.disk ops).current b)) := by
  obtain ⟨hi, hr⟩ := run_refines hboot ops s hops hrun
  refine ⟨hr.durable, ?_⟩
  rcases commit_crash hi hcrash with ⟨hlen, hrec⟩ | ⟨hlen, hrec⟩
  · obtain ⟨r, hok, hempty, hhome⟩ := (hrec.crashes hagain).recovers
    exact ⟨r, hok, hempty, Or.inl ⟨hlen, fun b hb => (hhome b hb).trans (hr.durable b hb)⟩⟩
  · obtain ⟨r, hok, hempty, hhome⟩ := (hrec.crashes hagain).recovers
    exact ⟨r, hok, hempty, Or.inr ⟨hlen, fun b hb => (hhome b hb).trans (hr.current b hb)⟩⟩

/-- A transaction of two blocks.  The machine crashes after the first block is installed, and the
recovery after its first write: both blocks are there in the end. -/
theorem transaction_atomic_two_crashes :
    ∃ (s₀ s : State) (p : List (Int × Block)) (e : Disk),
      initlog mkfsLog (fun _ _ => 0) = .ok s₀ ∧
      run (step mkfsLog) s₀
        [.begin_op, .log_write 40 fun _ => 7, .log_write 41 fun _ => 8, .end_op] = .ok s ∧
      s.writes ++ p <+: (commit mkfsLog s).writes ∧ p.length = 4 ∧
      Crashes mkfsLog (Redo.apply p s.disk) e ∧ e 41 0 = 0 ∧
      ∃ r, initlog mkfsLog e = .ok r ∧ r.disk 2 0 = 0 ∧ r.disk 40 0 = 7 ∧ r.disk 41 0 = 8 := by
  let cut (s : State) := ((commit mkfsLog s).writes.drop s.writes.length).take 4
  obtain ⟨s₀, h₀, s, hs, r, hr, hn, hcut, hlen, h41⟩ :
      ∃ s₀, initlog mkfsLog (fun _ _ => 0) = .ok s₀ ∧
        ∃ s, run (step mkfsLog) s₀
            [.begin_op, .log_write 40 fun _ => 7, .log_write 41 fun _ => 8, .end_op] = .ok s ∧
          ∃ r, initlog mkfsLog (Redo.apply (cut s) s.disk) = .ok r ∧ s.lh.n = 2 ∧
            s.writes ++ cut s <+: (commit mkfsLog s).writes ∧ (cut s).length = 4 ∧
            Redo.apply (r.writes.take 1) (Redo.apply (cut s) s.disk) 41 0 = 0 := by
    decide +kernel
  have hagain := Crashes.again (Crashes.none (g := mkfsLog)) hr (List.take_prefix 1 r.writes)
  refine ⟨s₀, s, _, _, h₀, hs, hcut, hlen, hagain, h41, ?_⟩
  have hhome : ∀ op ∈ [Op.begin_op, .log_write 40 fun _ => 7, .log_write 41 fun _ => 8, .end_op],
      op.LogsHome mkfsLog := by
    simp [Op.LogsHome, Home, mkfsLog, LOGSIZE, MAXOPBLOCKS]
  obtain ⟨-, u, hu, hzero, hall⟩ := transaction_atomic h₀ hhome hs hcut hagain
  refine ⟨u, hu, hzero, ?_⟩
  rcases hall with ⟨hle, -⟩ | ⟨-, hnew⟩
  · omega
  · rw [hnew 40 (by decide), hnew 41 (by decide)]
    exact ⟨rfl, rfl⟩

end Laboratorio.Xv6.Log
