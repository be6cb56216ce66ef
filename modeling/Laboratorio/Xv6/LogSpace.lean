import Laboratorio.Lib.Sync
import Laboratorio.Xv6.Commit

/-!
# How much of the log operations may use

Any number of processes run operations: `begin_op`, calls of `log_write`, `end_op`, and `commit` for
the one whose `end_op` was the last.  `log_write` tests `log.lh.n` before it takes `log.lock`, so it
is two steps here: the tests (`Call.log_write`) and the locked part (`Call.log_append`).

`begin_op` reserves `MAXOPBLOCKS` of `LOGSIZE` blocks for each operation, but the log that `mkfs`
lays out has `LOGSIZE` blocks with the header among them, and `log_write` stops one block earlier.

* `SpaceInv` — the header lists the blocks logged since the last commit, each once, and every
  operation has the rest of its reservation.
-/

namespace Laboratorio.Xv6.Log

open Laboratorio.Lib List

/-- The block numbers in `log.lh.block`. -/
def LogHeader.entries (lh : LogHeader) : List Int := (List.range lh.n.toNat).map lh.block

/-- The locked part of `log_write`. -/
def log_append (s : State) (b : Int) (data : Block) : Except Stop State :=
  let i := absorb s.lh b
  -- the array `log.lh.block` ends here
  if (i : Int) ≥ LOGSIZE then .error .outOfBounds
  else .ok { s with
    lh :=
      { n := if i = s.lh.n then s.lh.n + 1 else s.lh.n
        block := Function.update s.lh.block i b }
    dirty := Function.update s.dirty b (some data) }

/-- Where a process stands; `blocks` are the blocks its operation has logged. -/
inductive OpPc where
  | idle
  | inOp (blocks : Finset Int)
  /-- The tests of `log_write` are passed, `log.lock` is not taken yet. -/
  | logging (blocks : Finset Int) (b : Int) (data : Block)
  /-- The `end_op` of this process has set `log.committing`. -/
  | committing

structure Shared where
  log : State
  pc : List OpPc
  /-- The blocks logged since the last commit, in order. -/
  logged : List Int

inductive Call where
  | begin_op
  | log_write (b : Int) (data : Block)
  | log_append
  | end_op
  | commit

/-- A call stops, or the process is not at this call. -/
inductive Halt where
  | stop (e : Stop)
  | turn
  deriving DecidableEq, Repr

/-- The tests at the start of `log_write`. -/
def logWriteTests (g : Geometry) (s : State) : Except Stop Unit :=
  if s.lh.n ≥ LOGSIZE ∨ s.lh.n ≥ g.size - 1 then .error .tooBig
  else if s.outstanding < 1 then .error .outsideOfTrans
  else .ok ()

/-- A call of process `i`. -/
def callStep (g : Geometry) (s : Shared) (a : Nat × Call) : Except Halt Shared :=
  match a.2, s.pc[a.1]? with
  | .begin_op, some .idle =>
    match begin_op s.log with
    | .ok log => .ok { s with log := log, pc := s.pc.set a.1 (.inOp ∅) }
    | .error e => .error (.stop e)
  | .log_write b data, some (.inOp blocks) =>
    match logWriteTests g s.log with
    | .ok () => .ok { s with pc := s.pc.set a.1 (.logging blocks b data) }
    | .error e => .error (.stop e)
  | .log_append, some (.logging blocks b data) =>
    match log_append s.log b data with
    | .ok log => .ok ⟨log, s.pc.set a.1 (.inOp (insert b blocks)), s.logged ++ [b]⟩
    | .error e => .error (.stop e)
  | .end_op, some (.inOp _) =>
    match end_op s.log with
    | .ok log =>
      .ok { s with log := log, pc := s.pc.set a.1 (if log.committing then .committing else .idle) }
    | .error e => .error (.stop e)
  | .commit, some .committing =>
    .ok ⟨{ commit g s.log with committing := false }, s.pc.set a.1 .idle, []⟩
  | _, _ => .error .turn

/-- `n` processes on a kernel that has come up. -/
def start (n : Nat) (s₀ : State) : Shared := ⟨s₀, List.replicate n .idle, []⟩

/-- The blocks that the operation of process `i` has logged, if it is at a point where it may call
`log_write`. -/
def Shared.opBlocks (s : Shared) (i : Nat) : Option (Finset Int) :=
  match s.pc[i]? with
  | some (.inOp blocks) => some blocks
  | _ => none

/-- The operation that makes this call stays within `MAXOPBLOCKS` distinct blocks. -/
def SmallOp (s : Shared) (a : Nat × Call) : Prop :=
  match a.2 with
  | .log_write b _ => ((insert b ((s.opBlocks a.1).getD ∅)).card : Int) ≤ MAXOPBLOCKS
  | _ => True

/-- A `log_write` is called while at most 28 distinct blocks have been logged since the last
commit. -/
def Fits (s : Shared) (a : Nat × Call) : Prop :=
  match a.2 with
  | .log_write _ _ => (s.opBlocks a.1).isSome = true → s.logged.toFinset.card ≤ 28
  | _ => True

instance (s : Shared) (a : Nat × Call) : Decidable (SmallOp s a) :=
  match a with
  | (i, .log_write b _) =>
    inferInstanceAs (Decidable (((insert b ((s.opBlocks i).getD ∅)).card : Int) ≤ MAXOPBLOCKS))
  | (_, .begin_op) | (_, .log_append) | (_, .end_op) | (_, .commit) =>
    inferInstanceAs (Decidable True)

/-! ## The invariant -/

/-- Operations in progress. -/
def OpPc.active : OpPc → Nat
  | .inOp _ | .logging _ _ _ => 1
  | .idle | .committing => 0

/-- What an operation may still use. -/
def OpPc.reserve : OpPc → Nat
  | .inOp blocks | .logging blocks _ _ => 10 - blocks.card
  | .idle | .committing => 0

/-- Processes that are about to commit. -/
def OpPc.commits : OpPc → Nat
  | .committing => 1
  | .inOp _ | .logging _ _ _ | .idle => 0

/-- The blocks of one operation are among those logged, and there is room for one more. -/
def OpPc.Ok (logged : List Int) : OpPc → Prop
  | .inOp blocks => blocks ⊆ logged.toFinset
  | .logging blocks b _ => blocks ⊆ logged.toFinset ∧ (insert b blocks).card ≤ 10
  | .idle | .committing => True

structure SpaceInv (s : Shared) : Prop where
  n_nonneg : 0 ≤ s.log.lh.n
  nodup : s.log.lh.entries.Nodup
  entries : s.log.lh.entries.toFinset = s.logged.toFinset
  outstanding : s.log.outstanding = (s.pc.map OpPc.active).sum
  committing : s.log.committing = true → s.log.outstanding = 0
  commits : (s.pc.map OpPc.commits).sum = if s.log.committing then 1 else 0
  pcs : ∀ pc ∈ s.pc, pc.Ok s.logged
  reserve : s.log.lh.n.toNat + (s.pc.map OpPc.reserve).sum ≤ 30

variable {g : Geometry} {s t : Shared} {l l' : State} {i : Nat} {b : Int} {data : Block}

theorem SpaceInv.length_entries (h : SpaceInv s) :
    s.logged.toFinset.card = s.log.lh.n.toNat := by
  rw [← h.entries, toFinset_card_of_nodup h.nodup]
  simp [LogHeader.entries]

/-! ## What the calls do to the header -/

/-- The block is in the header already, or it is appended to it. -/
theorem log_append_cases (hn : 0 ≤ l.lh.n) (h : log_append l b data = .ok l') :
    l'.outstanding = l.outstanding ∧ l'.committing = l.committing ∧
      ((b ∈ l.lh.entries ∧ l'.lh = l.lh) ∨
        (b ∉ l.lh.entries ∧ l'.lh.n = l.lh.n + 1 ∧ l'.lh.entries = l.lh.entries ++ [b])) := by
  unfold log_append at h
  simp only at h
  split at h
  · cases h
  · cases h
    refine ⟨rfl, rfl, ?_⟩
    rcases absorb_spec l.lh b with ⟨hlt, hb⟩ | ⟨he, hnot⟩
    · left
      refine ⟨mem_map.2 ⟨_, mem_range.2 hlt, hb⟩, ?_⟩
      have hne : ¬ ((absorb l.lh b : Int) = l.lh.n) := by omega
      have hself : Function.update l.lh.block (absorb l.lh b) b = l.lh.block := by
        rw [Function.update_eq_self_iff, hb]
      simp only [hself, if_neg hne]
    · right
      have heq : (l.lh.n.toNat : Int) = l.lh.n := by omega
      have hsucc : (l.lh.n + 1).toNat = l.lh.n.toNat + 1 := by omega
      refine ⟨?_, by simp only [he, if_pos heq], ?_⟩
      · intro hmem
        obtain ⟨j, hj, hjb⟩ := mem_map.1 hmem
        exact hnot j (mem_range.1 hj) hjb
      · simp only [he, if_pos heq, LogHeader.entries, hsucc, range_succ, map_append,
          map_singleton, Function.update_self]
        congr 1
        apply map_congr_left
        intro j hj
        exact Function.update_of_ne (mem_range.1 hj).ne _ _

theorem copyBlocks_flags {src dst : Nat → Int} (n : Nat) :
    (copyBlocks src dst n l).outstanding = l.outstanding ∧
      (copyBlocks src dst n l).committing = l.committing := by
  induction n with
  | zero => exact ⟨rfl, rfl⟩
  | succ n ih =>
    unfold copyBlocks at ih ⊢
    rw [range_succ, foldl_append]
    exact ih

theorem commit_lh (g : Geometry) (hn : 0 ≤ l.lh.n) :
    (commit g l).lh.n = 0 ∧ (commit g l).outstanding = l.outstanding := by
  unfold commit
  split
  · refine ⟨rfl, ?_⟩
    show (copyBlocks _ _ _ (write_head g (write_log g l))).outstanding = l.outstanding
    rw [(copyBlocks_flags _).1]
    exact (copyBlocks_flags _).1
  · exact ⟨by omega, rfl⟩

/-! ## One call -/

theorem forall_mem_set {P : OpPc → Prop} {pcs : List OpPc} {x : OpPc} (h : ∀ pc ∈ pcs, P pc)
    (hx : P x) : ∀ pc ∈ pcs.set i x, P pc := by
  intro pc hpc
  rcases mem_or_eq_of_mem_set hpc with hmem | rfl
  · exact h pc hmem
  · exact hx

theorem sum_reserve_le (pcs : List OpPc) :
    (pcs.map OpPc.reserve).sum ≤ 10 * (pcs.map OpPc.active).sum := by
  induction pcs with
  | nil => exact Nat.le_refl _
  | cons pc pcs ih =>
    have hpc : pc.reserve ≤ 10 * pc.active := by
      cases pc <;> simp [OpPc.reserve, OpPc.active]
    simp only [map_cons, sum_cons]
    omega

theorem SpaceInv.begin_op (h : SpaceInv s) (hpc : s.pc[i]? = some .idle)
    (ht : begin_op s.log = .ok l) :
    SpaceInv { s with log := l, pc := s.pc.set i (.inOp ∅) } := by
  have hact := sum_map_set OpPc.active (.inOp ∅) hpc
  have hres := sum_map_set OpPc.reserve (.inOp ∅) hpc
  have hcom := sum_map_set OpPc.commits (.inOp ∅) hpc
  have hle := sum_reserve_le s.pc
  have hout := h.outstanding
  have hn := h.n_nonneg
  simp only [OpPc.active, OpPc.reserve, OpPc.commits, Finset.card_empty] at hact hres hcom
  unfold Log.begin_op at ht
  split at ht
  · cases ht
  · split at ht
    · cases ht
    · rename_i hidle hroom
      cases ht
      simp only [LOGSIZE, MAXOPBLOCKS] at hroom
      refine ⟨h.n_nonneg, h.nodup, h.entries, ?_, fun hc => absurd hc hidle,
        hcom.trans h.commits, forall_mem_set h.pcs (Finset.empty_subset _), ?_⟩
      · dsimp only
        omega
      · dsimp only
        omega

theorem SpaceInv.log_write {blocks : Finset Int} (h : SpaceInv s)
    (hpc : s.pc[i]? = some (.inOp blocks)) (hsmall : (insert b blocks).card ≤ 10) :
    SpaceInv { s with pc := s.pc.set i (.logging blocks b data) } := by
  have hact := sum_map_set OpPc.active (.logging blocks b data) hpc
  have hres := sum_map_set OpPc.reserve (.logging blocks b data) hpc
  have hcom := sum_map_set OpPc.commits (.logging blocks b data) hpc
  have hout := h.outstanding
  have hspace := h.reserve
  simp only [OpPc.active, OpPc.reserve, OpPc.commits] at hact hres hcom
  refine ⟨h.n_nonneg, h.nodup, h.entries, ?_, h.committing, hcom.trans h.commits,
    forall_mem_set h.pcs ⟨?_, hsmall⟩, ?_⟩
  · dsimp only
    omega
  · exact h.pcs _ (mem_of_getElem? hpc)
  · dsimp only
    omega

/-- A block that is new to the header is new to its operation, whose reservation pays for it. -/
theorem SpaceInv.log_append {blocks : Finset Int} (h : SpaceInv s)
    (hpc : s.pc[i]? = some (.logging blocks b data)) (ht : log_append s.log b data = .ok l) :
    SpaceInv ⟨l, s.pc.set i (.inOp (insert b blocks)), s.logged ++ [b]⟩ := by
  obtain ⟨hsub, hsmall⟩ : blocks ⊆ s.logged.toFinset ∧ (insert b blocks).card ≤ 10 :=
    h.pcs _ (mem_of_getElem? hpc)
  have hact := sum_map_set OpPc.active (.inOp (insert b blocks)) hpc
  have hres := sum_map_set OpPc.reserve (.inOp (insert b blocks)) hpc
  have hcommits := sum_map_set OpPc.commits (.inOp (insert b blocks)) hpc
  have hout := h.outstanding
  have hspace := h.reserve
  simp only [OpPc.active, OpPc.reserve, OpPc.commits] at hact hres hcommits
  obtain ⟨hlout, hlcom, hcases⟩ := log_append_cases h.n_nonneg ht
  have hpcs : ∀ pc ∈ s.pc.set i (.inOp (insert b blocks)),
      pc.Ok (s.logged ++ [b]) := by
    apply forall_mem_set
    · intro pc hmem
      have hok := h.pcs pc hmem
      cases pc with
      | idle => trivial
      | committing => trivial
      | inOp B => exact hok.trans (by simp)
      | logging B c d => exact ⟨hok.1.trans (by simp), hok.2⟩
    · show insert b blocks ⊆ (s.logged ++ [b]).toFinset
      rw [toFinset_append, Finset.insert_subset_iff]
      exact ⟨by simp, hsub.trans Finset.subset_union_left⟩
  have hcom : l.committing = true → l.outstanding = 0 := by
    rw [hlcom, hlout]
    exact h.committing
  have hcount : l.outstanding =
      ((s.pc.set i (.inOp (insert b blocks))).map OpPc.active).sum := by
    rw [hlout]
    omega
  have hcommitters : ((s.pc.set i (.inOp (insert b blocks))).map OpPc.commits).sum =
      if l.committing then 1 else 0 := by
    rw [hlcom]
    exact hcommits.trans h.commits
  rcases hcases with ⟨hmem, hlh⟩ | ⟨hnew, hn, hentries⟩
  · have hlogged : b ∈ s.logged.toFinset := h.entries ▸ mem_toFinset.2 hmem
    refine ⟨hlh ▸ h.n_nonneg, hlh ▸ h.nodup, ?_, hcount, hcom, hcommitters, hpcs, ?_⟩
    · show l.lh.entries.toFinset = (s.logged ++ [b]).toFinset
      rw [hlh, h.entries, toFinset_append]
      ext x
      simp only [Finset.mem_union, toFinset_cons, toFinset_nil, insert_empty_eq,
        Finset.mem_singleton]
      exact ⟨Or.inl, fun hx => hx.elim id fun hx => hx ▸ hlogged⟩
    · have hcard := Finset.card_le_card (Finset.subset_insert b blocks)
      dsimp only
      rw [hlh]
      omega
  · have hfresh : b ∉ blocks := by
      intro hb
      apply hnew
      have := hsub hb
      rw [← h.entries] at this
      exact mem_toFinset.1 this
    have hpos := h.n_nonneg
    refine ⟨by show 0 ≤ l.lh.n; omega, ?_, ?_, hcount, hcom, hcommitters, hpcs, ?_⟩
    · show l.lh.entries.Nodup
      rw [hentries, nodup_append]
      exact ⟨h.nodup, nodup_singleton b, by
        intro x hx y hy he
        rw [mem_singleton.1 hy] at he
        exact hnew (he ▸ hx)⟩
    · show l.lh.entries.toFinset = (s.logged ++ [b]).toFinset
      rw [hentries, toFinset_append, toFinset_append, h.entries]
    · rw [Finset.card_insert_of_notMem hfresh] at hsmall hres
      dsimp only
      rw [hn]
      omega

theorem end_op_cases (h : end_op l = .ok l') :
    l.committing = false ∧ l'.lh = l.lh ∧ l'.outstanding = l.outstanding - 1 ∧
      (l'.committing = true → l'.outstanding = 0) := by
  unfold Log.end_op at h
  split at h
  · cases h
  · rename_i hidle
    split at h
    · rename_i hlast
      cases h
      exact ⟨by simpa using hidle, rfl, rfl, fun _ => hlast⟩
    · cases h
      exact ⟨by simpa using hidle, rfl, rfl, fun hc => absurd hc hidle⟩

theorem SpaceInv.end_op {blocks : Finset Int} (h : SpaceInv s)
    (hpc : s.pc[i]? = some (.inOp blocks)) (ht : end_op s.log = .ok l) :
    SpaceInv { s with
      log := l, pc := s.pc.set i (if l.committing then .committing else .idle) } := by
  obtain ⟨hidle, hlh, hlout, hlcom⟩ := end_op_cases ht
  generalize hx : (if l.committing then OpPc.committing else .idle) = x
  have hact := sum_map_set OpPc.active x hpc
  have hres := sum_map_set OpPc.reserve x hpc
  have hcom := sum_map_set OpPc.commits x hpc
  have hxs : x.active = 0 ∧ x.reserve = 0 ∧ x.commits = (if l.committing then 1 else 0) ∧
      x.Ok s.logged := by
    subst hx
    cases l.committing <;> exact ⟨rfl, rfl, rfl, trivial⟩
  have hout := h.outstanding
  have hspace := h.reserve
  have hcommits := h.commits
  rw [hidle, if_neg Bool.false_ne_true] at hcommits
  rw [hxs.1] at hact
  rw [hxs.2.1] at hres
  rw [hxs.2.2.1] at hcom
  simp only [OpPc.active, OpPc.reserve, OpPc.commits] at hact hres hcom
  refine ⟨hlh ▸ h.n_nonneg, hlh ▸ h.nodup, hlh ▸ h.entries, ?_, hlcom, ?_,
    forall_mem_set h.pcs hxs.2.2.2, ?_⟩
  · dsimp only
    omega
  · dsimp only
    omega
  · dsimp only
    rw [hlh]
    omega

theorem SpaceInv.commit (h : SpaceInv s) (hpc : s.pc[i]? = some .committing) :
    SpaceInv ⟨{ commit g s.log with committing := false }, s.pc.set i .idle, []⟩ := by
  have hact := sum_map_set OpPc.active .idle hpc
  have hres := sum_map_set OpPc.reserve .idle hpc
  have hcommits := sum_map_set OpPc.commits .idle hpc
  have hle := sum_reserve_le s.pc
  have hout := h.outstanding
  have hone := h.commits
  simp only [OpPc.active, OpPc.reserve, OpPc.commits] at hact hres hcommits
  have hcom : s.log.committing = true := by
    by_contra hno
    rw [if_neg hno] at hone
    omega
  have hnone := h.committing hcom
  rw [if_pos hcom] at hone
  obtain ⟨hn, hcout⟩ := commit_lh g h.n_nonneg
  have hempty : (Log.commit g s.log).lh.entries = [] := by simp [LogHeader.entries, hn]
  refine ⟨hn.ge, ?_, ?_, ?_, nofun, ?_, ?_, ?_⟩
  · show (Log.commit g s.log).lh.entries.Nodup
    rw [hempty]
    exact nodup_nil
  · show (Log.commit g s.log).lh.entries.toFinset = _
    rw [hempty]
  · dsimp only
    omega
  · show _ = 0
    dsimp only
    omega
  · -- no operation is in progress, so nothing has to be in the new, empty transaction
    apply forall_mem_set
    · intro pc hmem
      have hzero : pc.active = 0 := by
        have := le_sum_map OpPc.active hmem
        omega
      cases pc with
      | idle => trivial
      | committing => trivial
      | inOp B => cases hzero
      | logging B x d => cases hzero
    · trivial
  · dsimp only
    omega

/-! ## Whole runs -/

/-- What a call that returns does: one of the five cases. -/
theorem SpaceInv.callStep {a : Nat × Call} (h : SpaceInv s) (hsmall : SmallOp s a)
    (ht : callStep g s a = .ok t) : SpaceInv t := by
  unfold Log.callStep at ht
  split at ht
  · rename_i hpc
    split at ht
    · rename_i l hl
      cases ht
      exact h.begin_op hpc hl
    · cases ht
  · rename_i b data blocks hcall hpc
    split at ht
    · cases ht
      refine h.log_write hpc ?_
      simp only [SmallOp, hcall, Shared.opBlocks, hpc, Option.getD_some, MAXOPBLOCKS] at hsmall
      omega
    · cases ht
  · rename_i hpc
    split at ht
    · rename_i l hl
      cases ht
      exact h.log_append hpc hl
    · cases ht
  · rename_i hpc
    split at ht
    · rename_i l hl
      cases ht
      exact h.end_op hpc hl
    · cases ht
  · rename_i hpc
    cases ht
    exact h.commit hpc
  · cases ht

theorem SpaceInv.start {s0 : State} (n : Nat) (hn : s0.lh.n = 0) (hout : s0.outstanding = 0)
    (hcom : s0.committing = false) : SpaceInv (start n s0) := by
  have hempty : s0.lh.entries = [] := by simp [LogHeader.entries, hn]
  have hidle : ∀ pc ∈ List.replicate n OpPc.idle, pc = .idle := fun pc hpc =>
    eq_of_mem_replicate hpc
  refine ⟨hn.ge, ?_, ?_, ?_, fun hc => ?_, ?_, ?_, ?_⟩
  · show s0.lh.entries.Nodup
    rw [hempty]
    exact nodup_nil
  · show s0.lh.entries.toFinset = _
    rw [hempty]
    rfl
  · show s0.outstanding = _
    rw [hout, Log.start, sum_map_eq_zero OpPc.active fun pc hpc => by rw [hidle pc hpc]; rfl]
    rfl
  · exact hout
  · show _ = if s0.committing then 1 else 0
    rw [hcom]
    exact sum_map_eq_zero OpPc.commits fun pc hpc => by rw [hidle pc hpc]; rfl
  · exact fun pc hpc => hidle pc hpc ▸ trivial
  · show s0.lh.n.toNat + _ ≤ 30
    rw [hn, Log.start, sum_map_eq_zero OpPc.reserve fun pc hpc => by rw [hidle pc hpc]; rfl]
    decide

theorem initlog_idle {d : Disk} {s0 : State} (h : initlog g d = .ok s0) :
    s0.outstanding = 0 ∧ s0.committing = false := by
  obtain ⟨u, hu, hs⟩ := exists_of_bind_eq_ok h
  cases hs
  have hidle : u.outstanding = 0 ∧ u.committing = false := by
    unfold read_head at hu
    simp only at hu
    split at hu
    · cases hu
    · cases hu
      exact ⟨rfl, rfl⟩
  rw [← hidle.1, ← hidle.2]
  exact copyBlocks_flags _

theorem run_spaceInv {d : Disk} {s0 : State} {n : Nat} {ops : List (Nat × Call)}
    (hboot : initlog g d = .ok s0) (hops : Meets (callStep g) (start n s0) SmallOp ops)
    (hrun : run (callStep g) (start n s0) ops = .ok s) : SpaceInv s := by
  obtain ⟨hout, hcom⟩ := initlog_idle hboot
  refine run_invariant_of_meets (P := fun _ s => SpaceInv s)
    (SpaceInv.start n (settled_initlog hboot).n hout hcom) ?_ ops s hops hrun
  intro _ a u t _ hu hsmall ht
  exact hu.callStep hsmall ht

/-! ## The panics -/

theorem begin_op_error {e : Stop} (h : begin_op l = .error e) : e = .sleeping := by
  unfold Log.begin_op at h
  split at h
  · cases h
    rfl
  · split at h <;> cases h
    rfl

theorem end_op_error {e : Stop} (h : end_op l = .error e) : e = .committing := by
  unfold Log.end_op at h
  split at h
  · cases h
    rfl
  · split at h <;> cases h

/-- A call that stops is a `log_write`, or it is not for want of space. -/
theorem callStep_stop {a : Nat × Call} {e : Stop} (h : callStep g s a = .error (.stop e)) :
    e = .sleeping ∨ e = .committing ∨
      (∃ b data blocks, a.2 = .log_write b data ∧ s.pc[a.1]? = some (.inOp blocks) ∧
        logWriteTests g s.log = .error e) ∨
      ∃ b data blocks, s.pc[a.1]? = some (.logging blocks b data) ∧
        log_append s.log b data = .error e := by
  unfold Log.callStep at h
  split at h
  · split at h
    · cases h
    · rename_i hl
      cases h
      exact .inl (begin_op_error hl)
  · rename_i b data blocks hcall hpc
    split at h
    · cases h
    · rename_i hl
      cases h
      exact .inr (.inr (.inl ⟨b, data, blocks, hcall, hpc, hl⟩))
  · rename_i blocks b data hcall hpc
    split at h
    · cases h
    · rename_i hl
      cases h
      exact .inr (.inr (.inr ⟨b, data, blocks, hpc, hl⟩))
  · split at h
    · cases h
    · rename_i hl
      cases h
      exact .inr (.inl (end_op_error hl))
  · cases h
  · cases h

/-- The locked part of `log_write` stays inside `log.lh.block`. -/
theorem SpaceInv.log_append_ne_error {blocks : Finset Int} {e : Stop} (h : SpaceInv s)
    (hpc : s.pc[i]? = some (.logging blocks b data)) :
    Log.log_append s.log b data ≠ .error e := by
  obtain ⟨hsub, hsmall⟩ : blocks ⊆ s.logged.toFinset ∧ (insert b blocks).card ≤ 10 :=
    h.pcs _ (mem_of_getElem? hpc)
  have hspace := h.reserve
  have hshare : 10 - blocks.card ≤ _ := le_sum_map OpPc.reserve (mem_of_getElem? hpc)
  have hroom : absorb s.log.lh b < 30 := by
    rcases absorb_spec s.log.lh b with ⟨hlt, -⟩ | ⟨he, hnot⟩
    · omega
    · have hnew : b ∉ blocks := by
        intro hb
        have hmem := hsub hb
        rw [← h.entries, mem_toFinset, LogHeader.entries, mem_map] at hmem
        obtain ⟨j, hj, hjb⟩ := hmem
        exact hnot j (mem_range.1 hj) hjb
      rw [Finset.card_insert_of_notMem hnew] at hsmall
      omega
  have hfits : ¬ ((absorb s.log.lh b : Int) ≥ LOGSIZE) := by
    show ¬ ((absorb s.log.lh b : Int) ≥ 30)
    omega
  unfold Log.log_append
  simp only [if_neg hfits]
  nofun

theorem logWriteTests_tooBig_iff :
    logWriteTests mkfsLog l = .error .tooBig ↔ 29 ≤ l.lh.n := by
  have hfull : (l.lh.n ≥ LOGSIZE ∨ l.lh.n ≥ mkfsLog.size - 1) ↔ 29 ≤ l.lh.n := by
    show (l.lh.n ≥ 30 ∨ l.lh.n ≥ 30 - 1) ↔ _
    omega
  unfold logWriteTests
  by_cases hn : 29 ≤ l.lh.n
  · rw [if_pos (hfull.2 hn)]
    exact iff_of_true rfl hn
  · rw [if_neg (mt hfull.1 hn)]
    by_cases hout : l.outstanding < 1
    · rw [if_pos hout]
      exact iff_of_false nofun hn
    · rw [if_neg hout]
      exact iff_of_false nofun hn

theorem SpaceInv.ne_outOfBounds {a : Nat × Call} (h : SpaceInv s) :
    Log.callStep g s a ≠ .error (.stop .outOfBounds) := by
  intro he
  rcases callStep_stop he with hs | hs | ⟨b, data, blocks, -, -, ht⟩ | ⟨b, data, blocks, hpc, ht⟩
  · cases hs
  · cases hs
  · unfold logWriteTests at ht
    split at ht
    · cases ht
    · split at ht <;> cases ht
  · exact h.log_append_ne_error hpc ht

/-- With the log of `mkfs`, a call panics exactly when 29 blocks are in the header. -/
theorem SpaceInv.tooBig_iff {a : Nat × Call} (h : SpaceInv s) :
    Log.callStep mkfsLog s a ≠ .error (.stop .tooBig) ↔ Fits s a := by
  have hcard := h.length_entries
  have hn := h.n_nonneg
  constructor
  · intro hne
    obtain ⟨i, c⟩ := a
    cases c with
    | begin_op | log_append | end_op | commit => trivial
    | log_write b data =>
      intro hsome
      by_contra hfull
      apply hne
      unfold Shared.opBlocks at hsome
      split at hsome
      · rename_i blocks hpc
        have ht : logWriteTests mkfsLog s.log = .error .tooBig :=
          logWriteTests_tooBig_iff.2 (by omega)
        dsimp only at hpc
        simp only [Log.callStep, hpc, ht]
      · cases hsome
  · intro hfits he
    rcases callStep_stop he with hs | hs | ⟨b, data, blocks, hcall, hpc, ht⟩ |
      ⟨b, data, blocks, hpc, ht⟩
    · cases hs
    · cases hs
    · have hfull := logWriteTests_tooBig_iff.1 ht
      simp only [Fits, hcall, Shared.opBlocks, hpc, Option.isSome_some, true_imp_iff] at hfits
      omega
    · exact h.log_append_ne_error hpc ht

/-- **Log space.**  Operations of at most `MAXOPBLOCKS` distinct blocks each never overrun
`log.lh.block` and never put a block into it twice.  They panic with "too big a transaction" exactly
when one of them calls `log_write` after 29 distinct blocks have been logged. -/
theorem log_space_iff {d : Disk} {s₀ : State} {n : Nat} {ops : List (Nat × Call)}
    (hboot : initlog mkfsLog d = .ok s₀)
    (hops : Meets (callStep mkfsLog) (start n s₀) SmallOp ops) :
    (run (callStep mkfsLog) (start n s₀) ops ≠ .error (.stop .tooBig) ↔
        Meets (callStep mkfsLog) (start n s₀) Fits ops) ∧
      run (callStep mkfsLog) (start n s₀) ops ≠ .error (.stop .outOfBounds) ∧
      ∀ s, run (callStep mkfsLog) (start n s₀) ops = .ok s → s.log.lh.entries.Nodup := by
  have hinv : ∀ pre u, pre <+: ops → run (callStep mkfsLog) (start n s₀) pre = .ok u →
      SpaceInv u := fun pre u hpre hu => run_spaceInv hboot (hops.of_prefix hpre) hu
  refine ⟨⟨?_, ?_⟩, ?_, fun s hs => (hinv ops s (prefix_refl _) hs).nodup⟩
  · intro hne pre a hpre u hu
    have hu' := hinv pre u ((prefix_append pre [a]).trans hpre) hu
    rw [← hu'.tooBig_iff]
    intro he
    obtain ⟨rest, rfl⟩ := hpre
    apply hne
    rw [run_append, run_concat, hu]
    show (callStep mkfsLog u a).bind _ = _
    rw [he]
    rfl
  · intro hfits
    refine run_ne_error fun pre a u hpre hu => ?_
    exact (hinv pre u ((prefix_append pre [a]).trans hpre) hu).tooBig_iff.2
      (hfits pre a hpre u hu)
  · refine run_ne_error fun pre a u hpre hu => ?_
    exact (hinv pre u ((prefix_append pre [a]).trans hpre) hu).ne_outOfBounds

/-- Two operations that log the same block at the same time. -/
def sharedBlock : List (Nat × Call) :=
  [(0, .begin_op), (1, .begin_op), (0, .log_write 40 fun _ => 7), (1, .log_write 40 fun _ => 8),
    (1, .log_append), (0, .log_append), (0, .end_op), (1, .end_op), (1, .commit)]

theorem log_space_iff_shared_block : ∃ s₀ s, initlog mkfsLog (fun _ _ => 0) = .ok s₀ ∧
    run (callStep mkfsLog) (start 2 s₀) (sharedBlock.take 8) = .ok s ∧ s.log.lh.n = 1 ∧
    s.log.lh.entries.Nodup ∧ Meets (callStep mkfsLog) (start 2 s₀) Fits sharedBlock := by
  obtain ⟨s₀, h₀, hmeets, s, hs, t, ht, hn⟩ : ∃ s₀, initlog mkfsLog (fun _ _ => 0) = .ok s₀ ∧
      meetsB (callStep mkfsLog) SmallOp (start 2 s₀) sharedBlock = true ∧
        ∃ s, run (callStep mkfsLog) (start 2 s₀) (sharedBlock.take 8) = .ok s ∧
          ∃ t, callStep mkfsLog s (1, .commit) = .ok t ∧ s.log.lh.n = 1 := by decide +kernel
  have hall : run (callStep mkfsLog) (start 2 s₀) sharedBlock = .ok t :=
    run_concat_ok.2 ⟨s, hs, ht⟩
  have hsmall := meets_of_meetsB hmeets
  refine ⟨s₀, s, h₀, hs, hn, ?_, (log_space_iff h₀ hsmall).1.1 ?_⟩
  · exact (log_space_iff h₀ (hsmall.of_prefix (List.take_prefix 8 _))).2.2 s hs
  · rw [hall]
    nofun

/-- Process `i` logs the blocks from `b` to `b + k - 1`. -/
def logs (i : Nat) (b : Int) (k : Nat) : List (Nat × Call) :=
  (List.range k).flatMap fun j => [(i, .log_write (b + j) fun _ => 0), (i, .log_append)]

/-- `begin_op` admits three operations of ten blocks each, and the last block is one too many. -/
theorem three_full_operations_panic :
    ¬ ∀ (d : Disk) (s₀ : State) (n : Nat) (ops : List (Nat × Call)),
      initlog mkfsLog d = .ok s₀ → Meets (callStep mkfsLog) (start n s₀) SmallOp ops →
        run (callStep mkfsLog) (start n s₀) ops ≠ .error (.stop .tooBig) := by
  intro hall
  let ops := [(0, Call.begin_op), (1, .begin_op), (2, .begin_op)] ++ logs 0 100 10 ++
    logs 1 110 10 ++ logs 2 120 10
  obtain ⟨s₀, h₀, hmeets, he⟩ : ∃ s₀, initlog mkfsLog (fun _ _ => 0) = .ok s₀ ∧
      meetsB (callStep mkfsLog) SmallOp (start 3 s₀) ops = true ∧
        run (callStep mkfsLog) (start 3 s₀) ops = .error (.stop .tooBig) := by decide +kernel
  exact hall _ s₀ 3 _ h₀ (meets_of_meetsB hmeets) he

end Laboratorio.Xv6.Log
