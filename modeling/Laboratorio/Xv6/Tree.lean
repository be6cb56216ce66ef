import Laboratorio.Xv6.Exclusive

/-!
# Parents and children
-/

namespace Laboratorio.Xv6.Sched

open Laboratorio.Lib Function

/-- `RUNNABLE`, `RUNNING` or `SLEEPING`. -/
def Live (st : ProcState) : Prop := st = .RUNNABLE ∨ st = .RUNNING ∨ st = .SLEEPING

instance (st : ProcState) : Decidable (Live st) := inferInstanceAs (Decidable (_ ∨ _ ∨ _))

/-- Live or `ZOMBIE`. -/
def Present (st : ProcState) : Prop := Live st ∨ st = .ZOMBIE

/-- Every process has a parent that is alive, and every parent is reached by `exit`. -/
structure Tree (t : State) : Prop where
  init : Live (t.proc t.initproc).state
  root : (t.proc t.initproc).parent = none
  noself : ∀ i, (t.proc i).parent ≠ some i
  parent : ∀ i, i ≠ t.initproc → Present (t.proc i).state →
    ∃ q, (t.proc i).parent = some q ∧ Live (t.proc q).state

section

variable {m m' : Machine} {t t' : State} {c : Cpu} {i p : Slot} {op : Op}

/-- A step that keeps the parents of the processes that are there, and ends none that is live. -/
theorem Tree.frame (h : Tree t) (hinit : t'.initproc = t.initproc)
    (hlive : ∀ j, Live (t.proc j).state → Live (t'.proc j).state)
    (hparent : ∀ j, (t'.proc j).parent = (t.proc j).parent ∨ (t'.proc j).parent ≠ some j ∧
      ¬ Present (t'.proc j).state)
    (hpresent : ∀ j, Present (t'.proc j).state → Present (t.proc j).state) : Tree t' := by
  have hroot : (t'.proc t.initproc).parent = none := by
    rcases hparent t.initproc with he | ⟨-, hno⟩
    · rw [he, h.root]
    · exact absurd (.inl (hlive _ h.init)) hno
  refine ⟨?_, ?_, fun i hi => ?_, fun i hi hp => ?_⟩
  · rw [hinit]
    exact hlive _ h.init
  · rw [hinit]
    exact hroot
  · rcases hparent i with he | ⟨he, -⟩
    · exact h.noself i (he.symm.trans hi)
    · exact he hi
  · rw [hinit] at hi
    obtain ⟨q, hq, hlq⟩ := h.parent i hi (hpresent i hp)
    rcases hparent i with he | ⟨-, hno⟩
    · exact ⟨q, he.trans hq, hlive q hlq⟩
    · exact absurd hp hno

theorem Tree.set {x : Proc} (h : Tree t) (hproc : t'.proc = update t.proc i x)
    (hinit : t'.initproc = t.initproc) (hlive : Live (t.proc i).state → Live x.state)
    (hparent : x.parent = (t.proc i).parent ∨ x.parent ≠ some i ∧ ¬ Present x.state)
    (hpresent : Present x.state → Present (t.proc i).state) : Tree t' := by
  refine h.frame hinit ?_ ?_ ?_ <;> intro j <;> rw [hproc] <;> by_cases hj : j = i
  all_goals first
    | (rw [update_of_ne hj]; simp)
    | (subst hj; rw [update_self]; assumption)

theorem Tree.adopt {q : Slot} (h : Tree t) (hq : (t.proc i).parent = some q)
    (hlive : Live (t.proc q).state) (hi : ¬ Present (t.proc i).state) :
    Tree (t.set i { t.proc i with state := .RUNNABLE }) := by
  have hne : ∀ j, Live (t.proc j).state → j ≠ i := by
    rintro j hj rfl
    exact hi (.inl hj)
  have hset : ∀ j, j ≠ i → (t.set i { t.proc i with state := .RUNNABLE }).proc j = t.proc j :=
    fun j hj => update_of_ne hj _ _
  have hparent : ∀ j, ((t.set i { t.proc i with state := .RUNNABLE }).proc j).parent =
      (t.proc j).parent := by
    intro j
    by_cases hj : j = i
    · subst hj
      simp [State.set]
    · rw [hset j hj]
  have hkeep : ∀ j, Live (t.proc j).state →
      Live ((t.set i { t.proc i with state := .RUNNABLE }).proc j).state := by
    intro j hj
    rwa [hset j (hne j hj)]
  refine ⟨hkeep _ h.init, (hparent _).trans h.root, fun j => ?_, fun j hj hp => ?_⟩
  · rw [hparent]
    exact h.noself j
  · rw [hparent]
    by_cases hji : j = i
    · rw [hji]
      exact ⟨q, hq, hkeep q hlive⟩
    · rw [hset j hji] at hp
      obtain ⟨q', hq', hlq'⟩ := h.parent j hj hp
      exact ⟨q', hq', hkeep q' hlq'⟩

theorem live_of_running {st : ProcState} (h : st = .RUNNING) : Live st := .inr (.inl h)

theorem exitTable_initproc (p : Slot) (t : State) : (exitTable p t).initproc = t.initproc := by
  simp only [exitTable, State.set, reparent]
  split <;> rfl

theorem exitTable_parent (p : Slot) (t : State) (j : Slot) :
    ((exitTable p t).proc j).parent =
      if (t.proc j).parent = some p then some t.initproc else (t.proc j).parent := by
  have h : ∀ i, ((reparent p (wakeup1 ((t.proc p).parent.map .proc) t)).proc i).parent =
      if (t.proc i).parent = some p then some t.initproc else (t.proc i).parent := by
    intro i
    rw [reparent_proc]
    have hw : ((wakeup1 ((t.proc p).parent.map .proc) t).proc i).parent = (t.proc i).parent := by
      simp only [wakeup1]
      split <;> rfl
    rw [← hw]
    rfl
  simp only [exitTable, State.set]
  by_cases hj : j = p
  · subst hj
    rw [update_self]
    exact h j
  · rw [update_of_ne hj]
    exact h j

/-- A live process other than the one that exits stays live. -/
theorem exitTable_live {j : Slot} (hj : j ≠ p) (h : Live (t.proc j).state) :
    Live ((exitTable p t).proc j).state := by
  rcases exitTable_state t hj with he | ⟨-, he⟩
  · rwa [he]
  · exact .inl he

/-- The children of the process that exits get init as their parent, which is live. -/
theorem Tree.exit (h : Tree t) (hp : Live (t.proc p).state) (hinit : p ≠ t.initproc) :
    Tree (exitTable p t) := by
  have hlive : Live ((exitTable p t).proc t.initproc).state :=
    exitTable_live hinit.symm h.init
  refine ⟨?_, ?_, fun i hi => ?_, fun i hi hpres => ?_⟩
  · rwa [exitTable_initproc]
  · rw [exitTable_initproc, exitTable_parent, h.root, if_neg nofun]
  · rw [exitTable_parent] at hi
    split at hi
    · rename_i hip
      cases hi
      rw [h.root] at hip
      cases hip
    · exact h.noself i hi
  · rw [exitTable_initproc] at hi
    have hold : Present (t.proc i).state := by
      by_cases hip : i = p
      · rw [hip]
        exact .inl hp
      · rcases exitTable_state t hip with he | ⟨he, -⟩
        · rwa [← he]
        · exact .inl (.inr (.inr he))
    obtain ⟨q, hq, hlq⟩ := h.parent i hi hold
    rw [exitTable_parent]
    by_cases hqp : q = p
    · rw [if_pos (hqp ▸ hq)]
      exact ⟨_, rfl, hlive⟩
    · rw [if_neg (by rw [hq]; simpa using hqp)]
      exact ⟨q, hq, exitTable_live hqp hlq⟩

/-- A process that is `SLEEPING` and woken up is live before and after. -/
theorem Tree.woken (h : Tree t) (hinit : t'.initproc = t.initproc)
    (hparent : ∀ j, (t'.proc j).parent = (t.proc j).parent)
    (hstate : ∀ j, (t'.proc j).state = (t.proc j).state ∨
      (t.proc j).state = .SLEEPING ∧ (t'.proc j).state = .RUNNABLE) : Tree t' := by
  refine h.frame hinit (fun j hj => ?_) (fun j => .inl (hparent j)) fun j hj => ?_
  · rcases hstate j with he | ⟨-, he⟩
    · rwa [he]
    · exact .inl he
  · rcases hstate j with he | ⟨he, -⟩
    · rwa [← he]
    · exact .inl (.inr (.inr he))

theorem Tree.next (h : Tree m.table) (hc : Cpus m) (hf : Forks m) (hn : Next m op m') :
    Tree m'.table := by
  cases hn with
  | wakeup chan hlock =>
    refine h.woken rfl (fun j => ?_) (wakeup1_state (some chan) m.table)
    simp only [wakeup1]
    split <;> rfl
  | kill pid hlock =>
    refine h.woken ?_ (fun j => (kill_proc pid m.table j).1) (kill_state pid m.table)
    unfold Xv6.kill
    split <;> rfl
  | schedAcquire | schedRelease | schedSkip | schedSwitch | same | copyuvm | getppid
  | getppidRead | wait | waitReturn | swtch | backYield | backForkret => exact h
  | schedBack c p hs hl => exact ⟨h.init, h.root, h.noself, h.parent⟩
  | schedPick c p hs hl hp =>
    exact h.set rfl rfl (fun _ => .inr (.inl rfl)) (.inl rfl) fun _ => .inl (.inl hp)
  | fork c i p np hs hp hpc hlock hnp =>
    refine h.set rfl rfl (fun hl => ?_) (.inl rfl) fun hx => ?_
    · simp [hnp, Live] at hl
    · simp [Present, Live] at hx
  | kalloc c i p np hs hp hpc => exact h.set rfl rfl id (.inl rfl) id
  | unfork c i p np hs hp hpc =>
    obtain ⟨k, hk, hnp⟩ : ∃ k, (m.pc i).call = some k ∧ k.child = some np := by
      rcases hpc with hpc | hpc <;> rw [hpc] <;> exact ⟨_, rfl, rfl⟩
    refine h.set rfl rfl (fun hl => ?_) (.inl rfl) fun hx => ?_
    · simp [hf.embryo i k np hk hnp, Live] at hl
    · simp [Present, Live] at hx
  | setParent c i p np hs hp hpc =>
    cases hc.myproc hs hp
    have he := hf.embryo i (.setParent np) np (by rw [hpc]; rfl) rfl
    have hi := hc.run_ok hs hpc .user
    refine h.set rfl rfl id (.inr ⟨fun hx => ?_, ?_⟩) id
    · cases hx
      cases he.symm.trans hi.2
    · simp [he, Present, Live]
  | setRunnable c i p np hs hp hpc hlock =>
    have hk : (m.pc i).call = some (.setRunnable np) := by rw [hpc]; rfl
    refine h.adopt ((hf.parent i _ np hk rfl).trans (if_pos rfl))
      (live_of_running (hc.run_ok hs hpc .user).2) ?_
    simp [hf.embryo i _ np hk rfl, Present, Live]
  | exit c i p hs hp hpc hlock hinit =>
    cases hc.myproc hs hp
    exact h.exit (live_of_running (hc.run_ok hs hpc .user).2) hinit
  | waitReap c i p q hs hp hpc hlock hq =>
    refine h.set rfl rfl (fun hl => ?_) (.inr ⟨by simp, ?_⟩) fun hx => ?_
    · simp [hq.2, Live] at hl
    · simp [Present, Live]
    · simp [Present, Live] at hx
  | waitSleep c i p hs hp hpc hchild hzombie =>
    cases hc.myproc hs hp
    have hrun := hc.executing hs hpc
    exact h.set rfl rfl (fun _ => .inr (.inr rfl)) (.inl rfl) fun _ => .inl (live_of_running hrun.2)
  | sleep c i p addr hs hp hpc hlock =>
    cases hc.myproc hs hp
    exact h.set rfl rfl (fun _ => .inr (.inr rfl)) (.inl rfl) fun _ =>
      .inl (live_of_running (hc.run_ok hs hpc .user).2)
  | yield c i p k hs hp hpc hlock =>
    cases hc.myproc hs hp
    exact h.set rfl rfl (fun _ => .inl rfl) (.inl rfl) fun _ =>
      .inl (live_of_running (hc.run_ok hs hpc .user).2)
  | backSleep | backWait => exact h.set rfl rfl id (.inl rfl) id

/-! ## Sleepers -/

/-- The calls of `sleep` from which a process sleeps, and their channels. -/
def Asleep (i : Slot) (chan : Option Chan) (pc : Pc) : Prop :=
  chan = some (.proc i) ∧ (pc = .sched .wait ∨ pc = .saved .wait) ∨
    (∃ addr, chan = some (.other addr)) ∧ (pc = .sched .sleep ∨ pc = .saved .sleep)

/-- A process that sleeps in `wait` has a child and no `ZOMBIE` child. -/
structure Waits (m : Machine) : Prop where
  asleep : ∀ i, (m.table.proc i).state = .SLEEPING → Asleep i (m.table.proc i).chan (m.pc i)
  child : ∀ i, (m.table.proc i).state = .SLEEPING → (m.table.proc i).chan = some (.proc i) →
    ∃ q, (m.table.proc q).parent = some i
  zombie : ∀ i q, (m.table.proc i).state = .SLEEPING → (m.table.proc i).chan = some (.proc i) →
    (m.table.proc q).parent = some i → (m.table.proc q).state ≠ .ZOMBIE

/-- A step that puts no process to sleep, and that neither changes a parent who sleeps nor makes a
`ZOMBIE`. -/
theorem Waits.frame (h : Waits m)
    (hsleep : ∀ i, (m'.table.proc i).state = .SLEEPING → (m.table.proc i).state = .SLEEPING ∧
      (m'.table.proc i).chan = (m.table.proc i).chan ∧
      (m'.pc i = m.pc i ∨ ∃ r, m.pc i = .sched r ∧ m'.pc i = .saved r))
    (hparent : ∀ i q, (m.table.proc i).state = .SLEEPING →
      ((m'.table.proc q).parent = some i ↔ (m.table.proc q).parent = some i))
    (hzombie : ∀ q, (m'.table.proc q).state = .ZOMBIE → (m.table.proc q).state = .ZOMBIE) :
    Waits m' := by
  refine ⟨fun i hi => ?_, fun i hi hchan => ?_, fun i q hi hchan hq hz => ?_⟩
  · obtain ⟨hst, hchan, hpc⟩ := hsleep i hi
    have hold := h.asleep i hst
    rw [hchan]
    rcases hpc with hpc | ⟨r, hr, hr'⟩
    · rwa [hpc]
    · rw [hr] at hold
      rw [hr']
      simp only [Asleep, Pc.sched.injEq, reduceCtorEq, or_false, Pc.saved.injEq, false_or] at hold ⊢
      exact hold
  · obtain ⟨hst, hchan', -⟩ := hsleep i hi
    obtain ⟨q, hq⟩ := h.child i hst (hchan' ▸ hchan)
    exact ⟨q, (hparent i q hst).2 hq⟩
  · obtain ⟨hst, hchan', -⟩ := hsleep i hi
    exact h.zombie i q hst (hchan' ▸ hchan) ((hparent i q hst).1 hq) (hzombie q hz)

theorem Waits.set {x : Proc} (h : Waits m) (hproc : m'.table.proc = update m.table.proc p x)
    (hst : x.state ≠ .SLEEPING) (hz : x.state = .ZOMBIE → (m.table.proc p).state = .ZOMBIE)
    (hpc : ∀ j, (m.table.proc j).state = .SLEEPING → m'.pc j = m.pc j)
    (hparent : ∀ i, (m.table.proc i).state = .SLEEPING →
      (x.parent = some i ↔ (m.table.proc p).parent = some i)) : Waits m' := by
  refine h.frame (fun j hj => ?_) (fun j q hj => ?_) fun q hq => ?_
  · rw [hproc] at hj ⊢
    by_cases hjp : j = p
    · rw [hjp, update_self] at hj
      exact absurd hj hst
    · rw [update_of_ne hjp] at hj ⊢
      exact ⟨hj, rfl, .inl (hpc j hj)⟩
  · rw [hproc]
    by_cases hqp : q = p
    · rw [hqp, update_self]
      exact hparent j hj
    · rw [update_of_ne hqp]
  · rw [hproc] at hq
    by_cases hqp : q = p
    · rw [hqp, update_self] at hq
      rw [hqp]
      exact hz hq
    · rwa [update_of_ne hqp] at hq

theorem Waits.sleep {x : Proc} {l : Option Cpu} {pc : Pc} (h : Waits m)
    (hx : x.parent = (m.table.proc i).parent) (hst : x.state = .SLEEPING)
    (hpc : Asleep i x.chan pc)
    (hchild : x.chan = some (.proc i) → (∃ q, (m.table.proc q).parent = some i) ∧
      ∀ q, (m.table.proc q).parent = some i → (m.table.proc q).state ≠ .ZOMBIE) :
    Waits ({ m with lock := l, table := m.table.set i x }.jump i pc) := by
  have hparent : ∀ q, ((m.table.set i x).proc q).parent = (m.table.proc q).parent := by
    intro q
    by_cases hq : q = i
    · subst hq
      simp [State.set, hx]
    · simp [State.set, hq]
  have hzombie : ∀ q, ((m.table.set i x).proc q).state = .ZOMBIE →
      (m.table.proc q).state = .ZOMBIE := by
    intro q hq
    by_cases hqi : q = i
    · subst hqi
      simp [State.set, hst] at hq
    · simpa [State.set, hqi] using hq
  refine ⟨fun j hj => ?_, fun j hj hchan => ?_, fun j q hj hchan hq hqz => ?_⟩ <;>
    simp only [Machine.jump_table] at * <;> by_cases hji : j = i
  · subst hji
    simpa [State.set] using hpc
  · rw [Machine.jump_of_ne _ _ hji]
    simp only [State.set, update_of_ne hji] at hj ⊢
    exact h.asleep j hj
  · subst hji
    simp only [State.set, update_self] at hchan
    obtain ⟨q, hq⟩ := (hchild hchan).1
    exact ⟨q, (hparent q).trans hq⟩
  · simp only [State.set, update_of_ne hji] at hj hchan
    obtain ⟨q, hq⟩ := h.child j hj hchan
    exact ⟨q, (hparent q).trans hq⟩
  · subst hji
    simp only [State.set, update_self] at hchan
    rw [hparent] at hq
    exact (hchild hchan).2 q hq (hzombie q hqz)
  · simp only [State.set, update_of_ne hji] at hj hchan
    rw [hparent] at hq
    exact h.zombie j q hj hchan hq (hzombie q hqz)

/-- `exit` wakes up the parent of the process that becomes a `ZOMBIE`, and init when it becomes the
parent of one. -/
theorem Waits.exit (h : Waits m) (ht : Tree m.table) (hi : (m.table.proc i).state = .RUNNING) :
    Waits ({ m with lock := some c, table := exitTable i m.table }.jump i (.sched .exit)) := by
  have hsleep : ∀ j, ((exitTable i m.table).proc j).state = .SLEEPING → j ≠ i ∧
      (m.table.proc j).state = .SLEEPING ∧ ((exitTable i m.table).proc j).chan =
        (m.table.proc j).chan ∧ ¬ WokenByExit i m.table j := by
    intro j hj
    have hji : j ≠ i := by
      rintro rfl
      rw [exitTable_self] at hj
      cases hj
    rw [exitTable_proc m.table hji] at hj ⊢
    by_cases hw : WokenByExit i m.table j
    · simp [hw] at hj
    · simp only [hw, if_false] at hj
      exact ⟨hji, hj, rfl, hw⟩
  refine ⟨fun j hj => ?_, fun j hj hchan => ?_, fun j q hj hchan hq hqz => ?_⟩ <;>
    simp only [Machine.jump_table] at * <;>
    obtain ⟨hji, hst, hchan', hw⟩ := hsleep j hj
  · rw [Machine.jump_of_ne _ _ hji, hchan']
    exact h.asleep j hst
  · rw [hchan'] at hchan
    obtain ⟨q, hq⟩ := h.child j hst hchan
    refine ⟨q, ?_⟩
    rw [exitTable_parent, if_neg (by rw [hq]; simpa using hji), hq]
  · rw [hchan'] at hchan
    rw [exitTable_parent] at hq
    by_cases hqi : q = i
    · subst hqi
      rw [if_neg (ht.noself q)] at hq
      exact hw ⟨hst, .inl (by rw [hchan, hq]; rfl)⟩
    · have hqz' : (m.table.proc q).state = .ZOMBIE := by
        rcases exitTable_state m.table hqi with he | ⟨-, he⟩
        · rw [← he, hqz]
        · cases he.symm.trans hqz
      split at hq
      · rename_i hqp
        cases hq
        exact hw ⟨hst, .inr ⟨hchan, q, hqp, hqz'⟩⟩
      · exact h.zombie j q hst hchan hq hqz'

theorem Waits.woken (h : Waits m) (hpc : m'.pc = m.pc)
    (hproc : ∀ j, (m'.table.proc j).parent = (m.table.proc j).parent ∧
      (m'.table.proc j).chan = (m.table.proc j).chan)
    (hstate : ∀ j, (m'.table.proc j).state = (m.table.proc j).state ∨
      (m.table.proc j).state = .SLEEPING ∧ (m'.table.proc j).state = .RUNNABLE) : Waits m' := by
  refine h.frame (fun j hj => ?_) (fun j q _ => by rw [(hproc q).1]) fun q hq => ?_
  · refine ⟨?_, (hproc j).2, .inl (congrFun hpc j)⟩
    rcases hstate j with he | ⟨he, -⟩
    · rw [← he, hj]
    · exact he
  · rcases hstate q with he | ⟨-, he⟩
    · rw [← he, hq]
    · cases he.symm.trans hq

/-- A step of the process `i` leaves the sleepers where they are. -/
theorem jump_sleeper {j : Slot} {pc : Pc} (hi : (m.table.proc i).state = .RUNNING)
    (hj : (m.table.proc j).state = .SLEEPING) : (m'.jump i pc).pc j = m'.pc j := by
  refine Machine.jump_of_ne _ _ ?_
  rintro rfl
  cases hi.symm.trans hj

theorem Waits.jump {l : Option Cpu} {pc : Pc} (h : Waits m)
    (hi : (m.table.proc i).state = .RUNNING) : Waits ({ m with lock := l }.jump i pc) :=
  h.frame (fun _ hj => ⟨hj, rfl, .inl (jump_sleeper hi hj)⟩) (fun _ _ _ => Iff.rfl) fun _ => id

theorem Waits.next (h : Waits m) (hc : Cpus m) (hf : Forks m) (ht : Tree m.table)
    (hn : Next m op m') : Waits m' := by
  cases hn with
  | wakeup chan hlock =>
    refine h.woken rfl (fun j => ?_) (wakeup1_state (some chan) m.table)
    simp only [wakeup1]
    split <;> exact ⟨rfl, rfl⟩
  | kill pid hlock =>
    exact h.woken rfl (fun j => ⟨(kill_proc pid m.table j).1, (kill_proc pid m.table j).2.1⟩)
      (kill_state pid m.table)
  | schedAcquire | schedRelease | schedSkip | same | schedBack => exact ⟨h.asleep, h.child, h.zombie⟩
  | schedPick c p hs hl hp =>
    exact h.set rfl (by simp) (by simp) (fun _ _ => rfl) fun _ _ => Iff.rfl
  | schedSwitch c p r hs hl hpc =>
    have hcp := hc.cpu c
    simp only [CpuOk, hs, hl] at hcp
    refine h.frame (fun j hj => ⟨hj, rfl, .inl ?_⟩) (fun _ _ _ => Iff.rfl) fun _ => id
    refine update_of_ne ?_ _ _
    rintro rfl
    cases hcp.2.2.1.symm.trans hj
  | swtch c i p r hs hp hpc hlock =>
    refine h.frame (fun j hj => ⟨hj, rfl, ?_⟩) (fun _ _ _ => Iff.rfl) fun _ => id
    by_cases hji : j = i
    · subst hji
      exact .inr ⟨r, hpc, update_self _ _ _⟩
    · exact .inl (update_of_ne hji _ _)
  | copyuvm c i p np hs hp hpc => exact h.jump (hc.run_ok hs hpc .user).2
  | getppid c i p hs hp hpc => exact h.jump (hc.run_ok hs hpc .user).2
  | getppidRead c i p q hs hp hpc => exact h.jump (hc.run_ok hs hpc .user).2
  | wait c i p hs hp hpc hlock => exact h.jump (hc.run_ok hs hpc .user).2
  | waitReturn c i p hs hp hpc hlock =>
    have hrun := hc.executing hs hpc
    exact h.jump hrun.2
  | backYield c i p k hs hp hpc hlock =>
    have hrun := hc.executing hs hpc
    exact h.jump hrun.2.1
  | backForkret c i p hs hp hpc hlock =>
    have hrun := hc.executing hs hpc
    exact h.jump hrun.2.1
  | fork c i p np hs hp hpc hlock hnp =>
    exact h.set rfl (by simp) (by simp) (fun j hj => jump_sleeper (hc.run_ok hs hpc .user).2 hj)
      fun _ _ => Iff.rfl
  | kalloc c i p np hs hp hpc =>
    have he := hf.embryo i (.kalloc np) np (by rw [hpc]; rfl) rfl
    refine h.set rfl (by simp [he]) id (fun j hj => ?_) fun _ _ => Iff.rfl
    rw [jump_sleeper (hc.run_ok hs hpc .user).2 hj]
    refine Machine.jump_of_ne _ _ ?_
    rintro rfl
    cases he.symm.trans hj
  | unfork c i p np hs hp hpc =>
    have hrun : (m.table.proc i).state = .RUNNING := by
      rcases hpc with hpc | hpc <;> exact (hc.run_ok hs hpc .user).2
    exact h.set rfl (by simp) (by simp) (fun j hj => jump_sleeper hrun hj) fun _ _ => Iff.rfl
  | setParent c i p np hs hp hpc =>
    have hk : (m.pc i).call = some (.setParent np) := by rw [hpc]; rfl
    have he := hf.embryo i _ np hk rfl
    have hrun := (hc.run_ok hs hpc .user).2
    cases hc.myproc hs hp
    refine h.set rfl (by simp [he]) id (fun j hj => jump_sleeper hrun hj) fun j hj => ?_
    rw [hf.parent _ _ np hk rfl, if_neg (by simp)]
    simp only [Option.some.injEq, reduceCtorEq, iff_false]
    rintro rfl
    cases hrun.symm.trans hj
  | setRunnable c i p np hs hp hpc hlock =>
    exact h.set rfl (by simp) (by simp) (fun j hj => jump_sleeper (hc.run_ok hs hpc .user).2 hj)
      fun _ _ => Iff.rfl
  | exit c i p hs hp hpc hlock hinit =>
    cases hc.myproc hs hp
    exact h.exit ht (hc.run_ok hs hpc .user).2
  | waitReap c i p q hs hp hpc hlock hq =>
    have hrun := hc.executing hs hpc
    cases hc.myproc hs hp
    refine h.set rfl (by simp) (by simp) (fun j hj => jump_sleeper hrun.2 hj) fun j hj => ?_
    rw [hq.1]
    simp only [reduceCtorEq, Option.some.injEq, false_iff]
    rintro rfl
    cases hrun.2.symm.trans hj
  | waitSleep c i p hs hp hpc hchild hzombie =>
    cases hc.myproc hs hp
    exact h.sleep rfl rfl (.inl ⟨rfl, .inl rfl⟩) fun _ => ⟨hchild, hzombie⟩
  | sleep c i p addr hs hp hpc hlock =>
    cases hc.myproc hs hp
    exact h.sleep rfl rfl (.inr ⟨⟨addr, rfl⟩, .inl rfl⟩) (by simp)
  | yield c i p k hs hp hpc hlock =>
    cases hc.myproc hs hp
    exact h.set rfl (by simp) (by simp) (fun j hj => jump_sleeper (hc.run_ok hs hpc .user).2 hj)
      fun _ _ => Iff.rfl
  | backSleep c i p hs hp hpc hlock =>
    have hrun := hc.executing hs hpc
    cases hc.myproc hs hp
    exact h.set rfl (by simp [hrun.2.1]) id (fun j hj => jump_sleeper hrun.2.1 hj)
      fun _ _ => Iff.rfl
  | backWait c i p hs hp hpc =>
    have hrun := hc.executing hs hpc
    cases hc.myproc hs hp
    exact h.set rfl (by simp [hrun.2.1]) id (fun j hj => jump_sleeper hrun.2.1 hj)
      fun _ _ => Iff.rfl

/-! ## Runs -/

theorem tree_boot : Tree boot.table := by
  have hne : ∀ i : Slot, i ≠ 0 →
      boot.table.proc i = ⟨.UNUSED, 0, none, none, false, false⟩ := by
    intro i hi
    simp [boot, userinit, hi]
  refine ⟨.inl rfl, rfl, fun i hi => ?_, fun i hi hp => ?_⟩
  · by_cases h0 : i = 0
    · subst h0
      cases hi
    · rw [hne i h0] at hi
      cases hi
  · rw [hne i hi] at hp
    simp [Present, Live] at hp

theorem waits_boot : Waits boot := by
  have hne : ∀ i, (boot.table.proc i).state ≠ .SLEEPING := by decide
  exact ⟨fun i hi => absurd hi (hne i), fun i hi => absurd hi (hne i),
    fun i _ hi => absurd hi (hne i)⟩

theorem run_tree_waits {as : List (Cpu × Op)} (h : run step boot as = .ok m) :
    Tree m.table ∧ Waits m := by
  refine run_invariant (P := fun _ m => Tree m.table ∧ Waits m) ⟨tree_boot, waits_boot⟩ ?_ as m h
  intro pre a u v hu ⟨htree, hwaits⟩ hv
  obtain ⟨hc, hf⟩ := run_cpus_forks hu
  exact ⟨htree.next hc hf (step_next hv), hwaits.next hc hf htree (step_next hv)⟩

/-- **The process tree.**  In every state that is reached, every process but init that is
`RUNNABLE`, `RUNNING`, `SLEEPING` or `ZOMBIE` has a live parent, and the `UNUSED` slots have none.
`sys_getppid` returns the `pid` of a live process if the pointer that it has loaded is still the
parent when it reads the `pid`. -/
theorem process_tree {as : List (Cpu × Op)} (h : run step boot as = .ok m) :
    (∀ i, i ≠ m.table.initproc → Present (m.table.proc i).state →
      ∃ q, (m.table.proc i).parent = some q ∧ Live (m.table.proc q).state) ∧
    (∀ i, (m.table.proc i).state = .UNUSED → (m.table.proc i).parent = none) ∧
    ∀ c i q, m.stack c = some i → m.pc i = .run (.getppid q) → i ≠ m.table.initproc →
      (m.table.proc i).parent = q →
      ∃ j, Live (m.table.proc j).state ∧ ppid m i = some (m.table.proc j).pid := by
  obtain ⟨htree, -⟩ := run_tree_waits h
  obtain ⟨hc, hf⟩ := run_cpus_forks h
  refine ⟨htree.parent, hf.unused, fun c i q hs hpc hi hq => ?_⟩
  obtain ⟨j, hj, hlive⟩ := htree.parent i hi (.inl (live_of_running (hc.run_ok hs hpc .user).2))
  refine ⟨j, hlive, ?_⟩
  cases hq.symm.trans hj
  simp [ppid, hpc]

theorem process_tree_init_child : ∃ m : Machine,
    run step boot (dispatch 0 0 ++ forks 0 ++ dispatch 1 1 ++ [(1, .getppid)]) = .ok m ∧
      (∃ q, (m.table.proc 1).parent = some q ∧ Live (m.table.proc q).state) ∧
      ∃ j, Live (m.table.proc j).state ∧ ppid m 1 = some (m.table.proc j).pid := by
  obtain ⟨m, hrun, hs, hpc, hinit, hparent, hst⟩ :
      ∃ m, run step boot (dispatch 0 0 ++ forks 0 ++ dispatch 1 1 ++ [(1, .getppid)]) = .ok m ∧
        m.stack 1 = some 1 ∧ m.pc 1 = .run (.getppid (some 0)) ∧ (1 : Slot) ≠ m.table.initproc ∧
        (m.table.proc 1).parent = some 0 ∧ (m.table.proc 1).state = .RUNNING := by
    decide +kernel
  exact ⟨m, hrun, (process_tree hrun).1 1 hinit (.inl (live_of_running hst)),
    (process_tree hrun).2.2 1 1 _ hs hpc hinit hparent⟩

/-- The child of a child of init has loaded its parent pointer; the parent exits and init reaps
it. -/
def orphaned : List (Cpu × Op) :=
  dispatch 0 0 ++ forks 0 ++ dispatch 1 1 ++ forks 1 ++ dispatch 2 2 ++
    [(2, .getppid), (1, .exit), (1, .go true)] ++
    -- processor 1 goes on with its scan and releases the lock
    List.replicate 64 (1, .scheduler) ++ [(0, .wait), (0, .go true)]

/-- `sys_getppid` reads the `pid` of a slot that is `UNUSED` again and returns 0. -/
theorem getppid_of_reaped_parent :
    ¬ ∀ (as : List (Cpu × Op)) (m : Machine) (c : Cpu) (i : Slot) (q : Option Slot),
      run step boot as = .ok m → m.stack c = some i → m.pc i = .run (.getppid q) →
        i ≠ m.table.initproc →
        ∃ j, Live (m.table.proc j).state ∧ ppid m i = some (m.table.proc j).pid := by
  intro hall
  obtain ⟨m, hrun, hs, hpc, hinit, hppid, hpids⟩ : ∃ m, run step boot orphaned = .ok m ∧
      m.stack 2 = some 2 ∧ m.pc 2 = .run (.getppid (some 1)) ∧ (2 : Slot) ≠ m.table.initproc ∧
      ppid m 2 = some 0 ∧ ∀ j, Live (m.table.proc j).state → (m.table.proc j).pid ≠ 0 := by
    decide +kernel
  obtain ⟨j, hlive, hj⟩ := hall orphaned m 2 2 _ hrun hs hpc hinit
  exact hpids j hlive (Option.some.inj (hj.symm.trans hppid))

/-- **No lost wakeup.**  A process that sleeps in `wait` sleeps on itself, has a child that is in
use, and no `ZOMBIE` child. -/
theorem no_lost_wakeup {as : List (Cpu × Op)} (h : run step boot as = .ok m) (p : Slot)
    (hp : (m.table.proc p).state = .SLEEPING) :
    (m.pc p = .saved .wait → (m.table.proc p).chan = some (.proc p)) ∧
      ((m.table.proc p).chan = some (.proc p) →
        (∃ i, (m.table.proc i).parent = some p ∧ (m.table.proc i).state ≠ .UNUSED) ∧
          ∀ i, (m.table.proc i).parent = some p → (m.table.proc i).state ≠ .ZOMBIE) := by
  obtain ⟨-, hwaits⟩ := run_tree_waits h
  obtain ⟨-, hf⟩ := run_cpus_forks h
  refine ⟨fun hpc => ?_, fun hchan => ⟨?_, fun i => hwaits.zombie p i hp hchan⟩⟩
  · rcases hwaits.asleep p hp with ⟨hchan, -⟩ | ⟨-, hno | hno⟩
    · exact hchan
    · cases hpc.symm.trans hno
    · cases hpc.symm.trans hno
  · obtain ⟨i, hi⟩ := hwaits.child p hp hchan
    refine ⟨i, hi, fun hun => ?_⟩
    cases hi.symm.trans (hf.unused i hun)

/-- Init sleeps in `wait` while its child runs. -/
theorem no_lost_wakeup_init : ∃ m : Machine,
    run step boot (dispatch 0 0 ++ forks 0 ++
      [(0, .wait), (0, .go true), (0, .go true), (0, .scheduler), (0, .scheduler), (0, .scheduler),
        (0, .go true)]) = .ok m ∧
      m.lock = none ∧ (m.table.proc 0).state = .SLEEPING ∧
      (m.table.proc 0).chan = some (.proc 0) ∧
      (∃ i, (m.table.proc i).parent = some 0 ∧ (m.table.proc i).state ≠ .UNUSED) ∧
      ∀ i, (m.table.proc i).parent = some 0 → (m.table.proc i).state ≠ .ZOMBIE := by
  obtain ⟨m, hrun, hlock, hst, hpc⟩ : ∃ m, run step boot (dispatch 0 0 ++ forks 0 ++
      [(0, .wait), (0, .go true), (0, .go true), (0, .scheduler), (0, .scheduler), (0, .scheduler),
        (0, .go true)]) = .ok m ∧
      m.lock = none ∧ (m.table.proc 0).state = .SLEEPING ∧ m.pc 0 = .saved .wait := by
    decide +kernel
  have hchan := (no_lost_wakeup hrun 0 hst).1 hpc
  exact ⟨m, hrun, hlock, hst, hchan, (no_lost_wakeup hrun 0 hst).2 hchan⟩

end

end Laboratorio.Xv6.Sched
