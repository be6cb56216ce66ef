import Laboratorio.Xv6.Pipe

/-!
# Who sleeps on a pipe

A reader sleeps on an empty pipe whose write end is open, a writer on a full one whose read end is
open.  Whoever changes this while it holds the lock calls `wakeup` before it gives the lock back,
with one exception: a writer that finds the pipe full and itself killed (or the read end closed)
returns `-1` at once, after it may have stored bytes.
-/

namespace Laboratorio.Xv6.Pipes

open Laboratorio.Lib Function

/-- Asleep in `piperead`. -/
def Pc.readerAsleep : Pc → Bool
  | .read _ .asleep => true
  | _ => false

/-- Asleep in `pipewrite`. -/
def Pc.writerAsleep : Pc → Bool
  | .write _ _ _ .asleep => true
  | _ => false

/-- In the locked part of `pipewrite`, on the way to `wakeup(&p->nread)`. -/
def Pc.storing : Pc → Bool
  | .write _ _ _ .loop | .write _ _ _ .full | .write _ _ _ .wake => true
  | _ => false

/-- In `piperead` after its first loop, on the way to `wakeup(&p->nwrite)`. -/
def Pc.copying : Pc → Bool
  | .read _ (.copy _) | .read _ (.wake _) => true
  | _ => false

/-- About to sleep in `pipewrite`, or to return. -/
def Pc.atFull : Pc → Bool
  | .write _ _ _ .full => true
  | _ => false

/-- About to sleep in `piperead`, or to return. -/
def Pc.atEmpty : Pc → Bool
  | .read _ .empty => true
  | _ => false

/-- A process sleeps although what it waits for has happened. -/
def Stranded (s : State) : Prop :=
  (∃ p, (s.pc p).readerAsleep = true ∧ (¬ s.pipe.empty ∨ s.pipe.writeopen = false)) ∨
  (∃ p, (s.pc p).writerAsleep = true ∧ (¬ s.pipe.full ∨ s.pipe.readopen = false))

/-- No writer returns `-1` from a full pipe while a reader sleeps. -/
def NoSilentReturn (s : State) : Op → Prop
  | .next p => (s.pc p).atFull = true → (s.pipe.readopen = false ∨ s.killed p = true) →
      ∀ q, (s.pc q).readerAsleep = false
  | _ => True

/-- Those who sleep have a reason to, or the holder of the lock is on the way to wake them. -/
structure Sleepers (s : State) : Prop where
  readers : ∀ p, (s.pc p).readerAsleep = true →
    (s.pipe.empty ∧ s.pipe.writeopen = true) ∨ ∃ q, s.lock = some q ∧ (s.pc q).storing = true
  writers : ∀ p, (s.pc p).writerAsleep = true →
    (s.pipe.full ∧ s.pipe.readopen = true) ∨ ∃ q, s.lock = some q ∧ (s.pc q).copying = true
  full : ∀ p, (s.pc p).atFull = true → s.pipe.full
  empty : ∀ p, (s.pc p).atEmpty = true → s.pipe.empty ∧ s.pipe.writeopen = true

variable {s t : State} {p : Pid}

/-! ## `wakeup` -/

theorem woken_cases (chan : Chan) (pc : Pc) :
    (pc.woken chan = pc ∧ (pc.readerAsleep = true → chan ≠ .nread) ∧
      (pc.writerAsleep = true → chan ≠ .nwrite)) ∨
    (∃ addr n i, pc.woken chan = .write addr n i .acquire ∧ pc.writerAsleep = true) ∨
    (∃ n, pc.woken chan = .read n .acquire ∧ pc.readerAsleep = true) := by
  cases pc with
  | out => exact .inl ⟨rfl, nofun, nofun⟩
  | write addr n i pos =>
    cases pos with
    | asleep =>
      cases chan with
      | nread => exact .inl ⟨rfl, nofun, fun _ => nofun⟩
      | nwrite => exact .inr (.inl ⟨addr, n, i, rfl, rfl⟩)
    | _ => exact .inl ⟨rfl, nofun, nofun⟩
  | read n pos =>
    cases pos with
    | asleep =>
      cases chan with
      | nread => exact .inr (.inr ⟨n, rfl, rfl⟩)
      | nwrite => exact .inl ⟨rfl, fun _ => nofun, nofun⟩
    | _ => exact .inl ⟨rfl, nofun, nofun⟩

theorem readerAsleep_woken {chan : Chan} {pc : Pc} (h : (pc.woken chan).readerAsleep = true) :
    pc.readerAsleep = true ∧ chan ≠ .nread := by
  rcases woken_cases chan pc with ⟨heq, hr, -⟩ | ⟨_, _, _, heq, -⟩ | ⟨_, heq, -⟩
  · rw [heq] at h
    exact ⟨h, hr h⟩
  · rw [heq] at h
    cases h
  · rw [heq] at h
    cases h

theorem writerAsleep_woken {chan : Chan} {pc : Pc} (h : (pc.woken chan).writerAsleep = true) :
    pc.writerAsleep = true ∧ chan ≠ .nwrite := by
  rcases woken_cases chan pc with ⟨heq, -, hw⟩ | ⟨_, _, _, heq, -⟩ | ⟨_, heq, -⟩
  · rw [heq] at h
    exact ⟨h, hw h⟩
  · rw [heq] at h
    cases h
  · rw [heq] at h
    cases h

/-- `wakeup` moves nobody who does not sleep. -/
theorem woken_eq {chan : Chan} {pc x : Pc} (h : pc.woken chan = x) (hx : x.holds = true) :
    pc = x := by
  rcases woken_cases chan pc with ⟨heq, -⟩ | ⟨_, _, _, heq, -⟩ | ⟨_, heq, -⟩
  · rw [← h, heq]
  · rw [heq] at h
    subst h
    cases hx
  · rw [heq] at h
    subst h
    cases hx

/-! ## Frames -/

/-- Process `p` has moved; the others are where they were, or have been woken. -/
structure Others (pc pc' : Pid → Pc) (p : Pid) : Prop where
  reader : ∀ q, q ≠ p → (pc' q).readerAsleep = true → (pc q).readerAsleep = true
  writer : ∀ q, q ≠ p → (pc' q).writerAsleep = true → (pc q).writerAsleep = true
  holder : ∀ q, q ≠ p → (pc' q).holds = true → pc' q = pc q

theorem others_goto (pc : Pid → Pc) (p : Pid) (x : Pc) : Others pc (update pc p x) p := by
  constructor
  · intro q hq h
    rwa [update_of_ne hq] at h
  · intro q hq h
    rwa [update_of_ne hq] at h
  · intro q hq _
    exact update_of_ne hq _ _

theorem others_wakeup (pc : Pid → Pc) (chan : Chan) (p : Pid) (x : Pc) :
    Others pc (update (fun q => (pc q).woken chan) p x) p := by
  constructor
  · intro q hq h
    rw [update_of_ne hq] at h
    exact (readerAsleep_woken h).1
  · intro q hq h
    rw [update_of_ne hq] at h
    exact (writerAsleep_woken h).1
  · intro q hq h
    rw [update_of_ne hq] at h ⊢
    exact (woken_eq rfl h).symm

theorem readerAsleep_of_wakeup (pc : Pid → Pc) (p : Pid) {x : Pc} (hx : x.readerAsleep = false)
    (q : Pid) :
    (update (fun q => (pc q).woken .nread) p x q).readerAsleep = false := by
  by_cases hqp : q = p
  · rw [hqp, update_self]
    exact hx
  · rw [update_of_ne hqp]
    cases hb : ((pc q).woken .nread).readerAsleep with
    | false => rfl
    | true => exact absurd rfl (readerAsleep_woken hb).2

theorem writerAsleep_of_wakeup (pc : Pid → Pc) (p : Pid) {x : Pc} (hx : x.writerAsleep = false)
    (q : Pid) :
    (update (fun q => (pc q).woken .nwrite) p x q).writerAsleep = false := by
  by_cases hqp : q = p
  · rw [hqp, update_self]
    exact hx
  · rw [update_of_ne hqp]
    cases hb : ((pc q).woken .nwrite).writerAsleep with
    | false => rfl
    | true => exact absurd rfl (writerAsleep_woken hb).2

theorem holds_of_storing {pc : Pc} (h : pc.storing = true) : pc.holds = true := by
  cases pc with
  | write addr n i pos => cases pos <;> first | rfl | cases h
  | _ => cases h

theorem holds_of_copying {pc : Pc} (h : pc.copying = true) : pc.holds = true := by
  cases pc with
  | read n pos => cases pos <;> first | rfl | cases h
  | _ => cases h

theorem holds_of_atFull {pc : Pc} (h : pc.atFull = true) : pc.holds = true := by
  cases pc with
  | write addr n i pos => cases pos <;> first | rfl | cases h
  | _ => cases h

theorem holds_of_atEmpty {pc : Pc} (h : pc.atEmpty = true) : pc.holds = true := by
  cases pc with
  | read n pos => cases pos <;> first | rfl | cases h
  | _ => cases h

/-- Why a reader may sleep. -/
def ReaderWaits (s : State) : Prop := s.pipe.empty ∧ s.pipe.writeopen = true

/-- Why a writer may sleep. -/
def WriterWaits (s : State) : Prop := s.pipe.full ∧ s.pipe.readopen = true

/-- A step of the holder of the lock.  For the readers, either it goes on storing, or it has woken
them, or it was not storing and leaves their reason to sleep alone; likewise for the writers. -/
theorem Sleepers.of_holder {x : Pc} (h : Sleepers s) (hlock : LockOk s.lock s.pc)
    (hme : s.lock = some p) (ho : Others s.pc t.pc p) (hx : t.pc p = x)
    (hr : (t.lock = some p ∧ x.storing = true) ∨ (∀ q, (t.pc q).readerAsleep = false) ∨
      ((s.pc p).storing = false ∧ (ReaderWaits s → ReaderWaits t) ∧
        (x.readerAsleep = true → ReaderWaits t)))
    (hw : (t.lock = some p ∧ x.copying = true) ∨ (∀ q, (t.pc q).writerAsleep = false) ∨
      ((s.pc p).copying = false ∧ (WriterWaits s → WriterWaits t) ∧
        (x.writerAsleep = true → WriterWaits t)))
    (hfull : x.atFull = true → t.pipe.full)
    (hempty : x.atEmpty = true → ReaderWaits t) : Sleepers t := by
  subst hx
  have halone : ∀ q, (t.pc q).holds = true → q = p := by
    intro q hq
    by_contra hne
    have hs := hlock q (by rw [← ho.holder q hne hq]; exact hq)
    rw [hme] at hs
    exact hne (Option.some.inj hs).symm
  constructor
  · intro q hq
    rcases hr with ⟨hl, hst⟩ | hnone | ⟨hst, hkeep, hself⟩
    · exact .inr ⟨p, hl, hst⟩
    · rw [hnone q] at hq
      cases hq
    · left
      by_cases hqp : q = p
      · subst hqp
        exact hself hq
      · rcases h.readers q (ho.reader q hqp hq) with hwait | ⟨q', hq', hst'⟩
        · exact hkeep hwait
        · rw [hme] at hq'
          cases hq'
          rw [hst] at hst'
          cases hst'
  · intro q hq
    rcases hw with ⟨hl, hst⟩ | hnone | ⟨hst, hkeep, hself⟩
    · exact .inr ⟨p, hl, hst⟩
    · rw [hnone q] at hq
      cases hq
    · left
      by_cases hqp : q = p
      · subst hqp
        exact hself hq
      · rcases h.writers q (ho.writer q hqp hq) with hwait | ⟨q', hq', hst'⟩
        · exact hkeep hwait
        · rw [hme] at hq'
          cases hq'
          rw [hst] at hst'
          cases hst'
  · intro q hq
    have hqp := halone q (holds_of_atFull hq)
    subst hqp
    exact hfull hq
  · intro q hq
    have hqp := halone q (holds_of_atEmpty hq)
    subst hqp
    exact hempty hq

/-- A step outside the locked part: nobody falls asleep, the holder of the lock, if there is one,
stays where it is, and sleepers keep their reasons. -/
theorem Sleepers.of_outside (h : Sleepers s) (hl : t.lock = s.lock ∨ s.lock = none)
    (hheld : ∀ q, (s.pc q).holds = true → t.pc q = s.pc q)
    (hr : ∀ q, (t.pc q).readerAsleep = true →
      (s.pc q).readerAsleep = true ∧ (ReaderWaits s → ReaderWaits t))
    (hw : ∀ q, (t.pc q).writerAsleep = true →
      (s.pc q).writerAsleep = true ∧ (WriterWaits s → WriterWaits t))
    (hfull : ∀ q, (t.pc q).atFull = true →
      (s.pc q).atFull = true ∧ (s.pipe.full → t.pipe.full))
    (hempty : ∀ q, (t.pc q).atEmpty = true →
      (s.pc q).atEmpty = true ∧ (ReaderWaits s → ReaderWaits t)) : Sleepers t := by
  constructor
  · intro q hq
    obtain ⟨hs, hkeep⟩ := hr q hq
    rcases h.readers q hs with hwait | ⟨q', hq', hst⟩
    · exact .inl (hkeep hwait)
    · right
      rcases hl with hl | hl
      · exact ⟨q', hl.trans hq', by rw [hheld q' (holds_of_storing hst)]; exact hst⟩
      · rw [hl] at hq'
        cases hq'
  · intro q hq
    obtain ⟨hs, hkeep⟩ := hw q hq
    rcases h.writers q hs with hwait | ⟨q', hq', hst⟩
    · exact .inl (hkeep hwait)
    · right
      rcases hl with hl | hl
      · exact ⟨q', hl.trans hq', by rw [hheld q' (holds_of_copying hst)]; exact hst⟩
      · rw [hl] at hq'
        cases hq'
  · intro q hq
    obtain ⟨hs, hkeep⟩ := hfull q hq
    exact hkeep (h.full q hs)
  · intro q hq
    obtain ⟨hs, hkeep⟩ := hempty q hq
    exact hkeep (h.empty q hs)

theorem Sleepers.goto {x : Pc} {l : Option Pid} (h : Sleepers s) (hout : (s.pc p).holds = false)
    (hl : l = s.lock ∨ s.lock = none) (hr : x.readerAsleep = false) (hw : x.writerAsleep = false)
    (hfull : x.atFull = false) (hempty : x.atEmpty = false) :
    Sleepers { s.goto p x with lock := l } := by
  have hother : ∀ q, q ≠ p → ({ s.goto p x with lock := l } : State).pc q = s.pc q := by
    intro q hq
    simp [State.goto, hq]
  have hself : ({ s.goto p x with lock := l } : State).pc p = x := by simp [State.goto]
  have hkept : ∀ b : Pc → Bool, b x = false → ∀ q,
      b (({ s.goto p x with lock := l } : State).pc q) = true → b (s.pc q) = true := by
    intro b hb q hq
    by_cases hqp : q = p
    · rw [hqp, hself, hb] at hq
      cases hq
    · rwa [hother q hqp] at hq
  apply h.of_outside hl
  · intro q hq
    apply hother
    rintro rfl
    rw [hout] at hq
    cases hq
  · exact fun q hq => ⟨hkept _ hr q hq, id⟩
  · exact fun q hq => ⟨hkept _ hw q hq, id⟩
  · exact fun q hq => ⟨hkept _ hfull q hq, id⟩
  · exact fun q hq => ⟨hkept _ hempty q hq, id⟩

/-! ## The steps -/

theorem Sleepers.acquire {x : Pc} (h : Sleepers s) (hout : (s.pc p).holds = false)
    (hr : x.readerAsleep = false) (hw : x.writerAsleep = false)
    (hfull : x.atFull = false) (hempty : x.atEmpty = false)
    (ht : acquire p x s = .ok t) : Sleepers t := by
  unfold Pipes.acquire at ht
  split at ht
  · rename_i hfree
    cases ht
    exact h.goto hout (.inr hfree) hr hw hfull hempty
  · cases ht

theorem Sleepers.pipewrite {addr : Nat → UInt8} {n : Int} {i : Nat} {pos : WriteAt}
    (h : Sleepers s) (hlock : LockOk s.lock s.pc) (hpc : s.pc p = .write addr n i pos)
    (hquiet : NoSilentReturn s (.next p)) (ht : pipewrite p addr n i s pos = .ok t) :
    Sleepers t := by
  have hno : ∀ {P : Prop}, false = true → P := Bool.noConfusion
  have hme := hlock p
  have hcopy : (s.pc p).copying = false := by rw [hpc]; rfl
  rw [hpc] at hme
  cases pos with
  | acquire => exact h.acquire (by rw [hpc]; rfl) rfl rfl rfl rfl ht
  | asleep => cases ht
  | loop =>
    simp only [Pipes.pipewrite] at ht
    split at ht
    · split at ht
      · rename_i hfull
        cases ht
        exact h.of_holder hlock (hme rfl) (others_goto _ p _) (update_self _ _ _)
          (.inl ⟨hme rfl, rfl⟩) (.inr (.inr ⟨hcopy, id, hno⟩)) (fun _ => hfull) hno
      · -- no writer sleeps while the pipe has room
        rename_i hroom
        cases ht
        exact h.of_holder hlock (hme rfl) (others_goto _ p _) (update_self _ _ _)
          (.inl ⟨hme rfl, rfl⟩) (.inr (.inr ⟨hcopy, fun hw => absurd hw.1 hroom, hno⟩))
          hno hno
    · cases ht
      exact h.of_holder hlock (hme rfl) (others_goto _ p _) (update_self _ _ _)
        (.inl ⟨hme rfl, rfl⟩) (.inr (.inr ⟨hcopy, id, hno⟩)) hno hno
  | full =>
    have hfull := h.full p (by rw [hpc]; rfl)
    simp only [Pipes.pipewrite] at ht
    split at ht
    · rename_i hreturn
      cases ht
      have hnone := hquiet (by rw [hpc]; rfl) hreturn
      refine h.of_holder hlock (hme rfl) (others_goto _ p .out) (update_self _ _ _)
        (.inr (.inl ?_)) (.inr (.inr ⟨hcopy, id, hno⟩)) hno hno
      intro q
      show (update s.pc p .out q).readerAsleep = false
      by_cases hqp : q = p
      · rw [hqp, update_self]
        rfl
      · rw [update_of_ne hqp]
        exact hnone q
    · rename_i hstay
      cases ht
      push Not at hstay
      have hopen : s.pipe.readopen = true := by simpa using hstay.1
      exact h.of_holder hlock (hme rfl) (others_wakeup _ .nread p _) (update_self _ _ _)
        (.inr (.inl (readerAsleep_of_wakeup _ p rfl)))
        (.inr (.inr ⟨hcopy, id, fun _ => ⟨hfull, hopen⟩⟩)) hno hno
  | wake =>
    cases ht
    exact h.of_holder hlock (hme rfl) (others_wakeup _ .nread p _) (update_self _ _ _)
      (.inr (.inl (readerAsleep_of_wakeup _ p rfl))) (.inr (.inr ⟨hcopy, id, hno⟩)) hno hno

theorem Sleepers.piperead {n : Int} {pos : ReadAt} (h : Sleepers s) (hlock : LockOk s.lock s.pc)
    (hpc : s.pc p = .read n pos) (ht : piperead p n s pos = .ok t) : Sleepers t := by
  have hno : ∀ {P : Prop}, false = true → P := Bool.noConfusion
  have hme := hlock p
  have hstore : (s.pc p).storing = false := by rw [hpc]; rfl
  rw [hpc] at hme
  cases pos with
  | acquire => exact h.acquire (by rw [hpc]; rfl) rfl rfl rfl rfl ht
  | asleep => cases ht
  | test =>
    have hcopy : (s.pc p).copying = false := by rw [hpc]; rfl
    simp only [Pipes.piperead] at ht
    split at ht
    · rename_i hempty
      cases ht
      exact h.of_holder hlock (hme rfl) (others_goto _ p _) (update_self _ _ _)
        (.inr (.inr ⟨hstore, id, hno⟩)) (.inr (.inr ⟨hcopy, id, hno⟩)) hno
        (fun _ => hempty)
    · cases ht
      exact h.of_holder hlock (hme rfl) (others_goto _ p _) (update_self _ _ _)
        (.inr (.inr ⟨hstore, id, hno⟩)) (.inl ⟨hme rfl, rfl⟩) hno hno
  | empty =>
    have hcopy : (s.pc p).copying = false := by rw [hpc]; rfl
    have hempty := h.empty p (by rw [hpc]; rfl)
    simp only [Pipes.piperead] at ht
    split at ht
    · cases ht
      exact h.of_holder hlock (hme rfl) (others_goto _ p .out) (update_self _ _ _)
        (.inr (.inr ⟨hstore, id, hno⟩)) (.inr (.inr ⟨hcopy, id, hno⟩)) hno hno
    · cases ht
      exact h.of_holder hlock (hme rfl) (others_goto _ p _) (update_self _ _ _)
        (.inr (.inr ⟨hstore, id, fun _ => hempty⟩)) (.inr (.inr ⟨hcopy, id, hno⟩)) hno hno
  | copy got =>
    simp only [Pipes.piperead] at ht
    split at ht
    · -- no reader sleeps while there are bytes to fetch
      rename_i hmore
      cases ht
      exact h.of_holder hlock (hme rfl) (others_goto _ p _) (update_self _ _ _)
        (.inr (.inr ⟨hstore, fun hr => absurd hr.1 hmore.2, hno⟩)) (.inl ⟨hme rfl, rfl⟩)
        hno hno
    · cases ht
      exact h.of_holder hlock (hme rfl) (others_goto _ p _) (update_self _ _ _)
        (.inr (.inr ⟨hstore, id, hno⟩)) (.inl ⟨hme rfl, rfl⟩) hno hno
  | wake got =>
    cases ht
    exact h.of_holder hlock (hme rfl) (others_wakeup _ .nwrite p _) (update_self _ _ _)
      (.inr (.inr ⟨hstore, id, hno⟩)) (.inr (.inl (writerAsleep_of_wakeup _ p rfl))) hno hno

/-- `wakeup` by a process that closes an end; `killed` and the open end are not looked at. -/
theorem Sleepers.pipeclose {writable : Bool} (h : Sleepers s) (hlock : LockOk s.lock s.pc)
    (ht : pipeclose writable s = .ok t) : Sleepers t := by
  unfold Pipes.pipeclose at ht
  split at ht
  · cases ht
  rename_i hfree
  have hfree : s.lock = none := not_not.1 hfree
  have hnobody : ∀ q, (s.pc q).holds = false := by
    intro q
    cases hq : (s.pc q).holds with
    | false => rfl
    | true =>
      have := hlock q hq
      rw [hfree] at this
      cases this
  have hfull : ∀ chan q, ((s.pc q).woken chan).atFull ≠ true := by
    intro chan q hb
    have := holds_of_atFull hb
    rw [holds_woken, hnobody q] at this
    cases this
  have hempty : ∀ chan q, ((s.pc q).woken chan).atEmpty ≠ true := by
    intro chan q hb
    have := holds_of_atEmpty hb
    rw [holds_woken, hnobody q] at this
    cases this
  cases writable with
  | true =>
    simp only [if_true] at ht
    split at ht
    · cases ht
    · cases ht
      apply h.of_outside (.inr hfree)
      · intro q hq
        rw [hnobody q] at hq
        cases hq
      · intro q hq
        exact absurd rfl (readerAsleep_woken hq).2
      · intro q hq
        exact ⟨(writerAsleep_woken hq).1, id⟩
      · intro q hq
        exact absurd hq (hfull .nread q)
      · intro q hq
        exact absurd hq (hempty .nread q)
  | false =>
    simp only [Bool.false_eq_true, if_false] at ht
    split at ht
    · cases ht
    · cases ht
      apply h.of_outside (.inr hfree)
      · intro q hq
        rw [hnobody q] at hq
        cases hq
      · intro q hq
        exact ⟨(readerAsleep_woken hq).1, id⟩
      · intro q hq
        exact absurd rfl (writerAsleep_woken hq).2
      · intro q hq
        exact absurd hq (hfull .nwrite q)
      · intro q hq
        exact absurd hq (hempty .nwrite q)

/-- `kill` takes a process out of its sleep and moves no other. -/
theorem killed_cases (pc : Pc) :
    (pc.woken .nread).woken .nwrite = pc ∨
    (pc.holds = false ∧
      ((∃ addr n i, (pc.woken .nread).woken .nwrite = .write addr n i .acquire) ∨
        ∃ n, (pc.woken .nread).woken .nwrite = .read n .acquire)) := by
  cases pc with
  | out => exact .inl rfl
  | write addr n i pos =>
    cases pos with
    | asleep => exact .inr ⟨rfl, .inl ⟨addr, n, i, rfl⟩⟩
    | _ => exact .inl rfl
  | read n pos =>
    cases pos with
    | asleep => exact .inr ⟨rfl, .inr ⟨n, rfl⟩⟩
    | _ => exact .inl rfl

theorem Sleepers.congr (h : Sleepers s) (hpc : t.pc = s.pc) (hl : t.lock = s.lock)
    (hpipe : t.pipe = s.pipe) : Sleepers t := by
  obtain ⟨h1, h2, h3, h4⟩ := h
  rw [← hpc, ← hl, ← hpipe] at h1 h2
  rw [← hpc, ← hpipe] at h3 h4
  exact ⟨h1, h2, h3, h4⟩

theorem Sleepers.kill (h : Sleepers s) (p : Pid) : Sleepers (kill p s) := by
  rcases killed_cases (s.pc p) with heq | ⟨hout, ⟨addr, n, i, heq⟩ | ⟨n, heq⟩⟩
  · refine h.congr ?_ rfl rfl
    unfold Pipes.kill
    rw [heq]
    exact update_eq_self p s.pc
  · have := h.goto (x := .write addr n i .acquire) hout (.inl rfl) rfl rfl rfl rfl
    unfold Pipes.kill
    rw [heq]
    exact this.congr rfl rfl rfl
  · have := h.goto (x := .read n .acquire) hout (.inl rfl) rfl rfl rfl rfl
    unfold Pipes.kill
    rw [heq]
    exact this.congr rfl rfl rfl

theorem Sleepers.step {op : Op} (h : Sleepers s) (hlock : LockOk s.lock s.pc)
    (hquiet : NoSilentReturn s op) (ht : step s op = .ok t) : Sleepers t := by
  cases op with
  | pipewrite p addr n =>
    simp only [Pipes.step] at ht
    split at ht
    · rename_i hpc
      cases ht
      exact h.goto (by rw [hpc]; rfl) (.inl rfl) rfl rfl rfl rfl
    · cases ht
  | piperead p n =>
    simp only [Pipes.step] at ht
    split at ht
    · rename_i hpc
      cases ht
      exact h.goto (by rw [hpc]; rfl) (.inl rfl) rfl rfl rfl rfl
    · cases ht
  | next p =>
    simp only [Pipes.step] at ht
    split at ht
    · cases ht
    · rename_i hpc
      exact h.pipewrite hlock hpc hquiet ht
    · rename_i hpc
      exact h.piperead hlock hpc ht
  | pipeclose writable => exact h.pipeclose hlock ht
  | kill p =>
    cases ht
    exact h.kill p

theorem sleepers_pipealloc (page : Nat → UInt8) : Sleepers (pipealloc page) := ⟨nofun, nofun, nofun, nofun⟩

/-! ## Whole runs -/

/-- While the lock is free, sleepers have their reasons. -/
theorem Sleepers.not_stranded (h : Sleepers s) (hfree : s.lock = none) : ¬ Stranded s := by
  rintro (⟨p, hp, hreason⟩ | ⟨p, hp, hreason⟩)
  · rcases h.readers p hp with ⟨hempty, hopen⟩ | ⟨q, hq, -⟩
    · rcases hreason with hne | hclosed
      · exact hne hempty
      · rw [hopen] at hclosed
        cases hclosed
    · rw [hfree] at hq
      cases hq
  · rcases h.writers p hp with ⟨hfull, hopen⟩ | ⟨q, hq, -⟩
    · rcases hreason with hne | hclosed
      · exact hne hfull
      · rw [hopen] at hclosed
        cases hclosed
    · rw [hfree] at hq
      cases hq

theorem not_empty_of_full {q : Pipe} (h : q.full) : ¬ q.empty := by
  unfold Pipe.full at h
  unfold Pipe.empty
  rw [h, ← UInt32.toNat_inj, UInt32.toNat_add]
  have : (UInt32.ofNat PIPESIZE).toNat = 512 := rfl
  have := q.nread.toNat_lt
  omega

/-- The return of a writer that leaves a reader asleep leaves it stranded. -/
theorem Sleepers.stranded_of_return {op : Op} (h : Sleepers s) (hop : ¬ NoSilentReturn s op) :
    ∃ t, Pipes.step s op = .ok t ∧ t.lock = none ∧ Stranded t := by
  cases op with
  | next p =>
    simp only [NoSilentReturn, not_forall] at hop
    obtain ⟨hat, hreturn, q, hq⟩ := hop
    have hfull := h.full p hat
    cases hpc : s.pc p with
    | out => rw [hpc] at hat; cases hat
    | read n pos => rw [hpc] at hat; cases hat
    | write addr n i pos =>
      rw [hpc] at hat
      cases pos with
      | full =>
        refine ⟨s.leave p (-1), ?_, rfl, .inl ⟨q, ?_, .inl (not_empty_of_full hfull)⟩⟩
        · simp only [Pipes.step, hpc, Pipes.pipewrite, if_pos hreturn]
        · have hqp : q ≠ p := by
            rintro rfl
            rw [hpc] at hq
            exact hq rfl
          show (update s.pc p .out q).readerAsleep = true
          rw [update_of_ne hqp]
          exact Bool.of_not_eq_false hq
      | _ => cases hat
  | _ => exact absurd trivial hop

theorem run_sleepers {page : Nat → UInt8} {ops : List Op}
    (hquiet : Meets step (pipealloc page) NoSilentReturn ops)
    (h : run step (pipealloc page) ops = .ok s) : Sleepers s :=
  run_invariant_of_meets (P := fun _ s => Sleepers s) (sleepers_pipealloc page)
    (fun _ _ _ _ hu hs hC ht => hs.step (run_inv hu).lock hC ht) ops s hquiet h

/-- **Sleepers of a pipe.**  For any processes and any interleaving of `pipewrite`, `piperead`,
`pipeclose` and `kill`: nobody is stranded in any state in which the lock is free if and only if no
writer that finds the pipe full and itself killed, or the read end closed, returns while a reader
sleeps. -/
theorem pipe_sleepers_iff (page : Nat → UInt8) (ops : List Op) :
    (∀ pre s, pre <+: ops → run step (pipealloc page) pre = .ok s → s.lock = none →
      ¬ Stranded s) ↔ Meets step (pipealloc page) NoSilentReturn ops := by
  constructor
  · intro h
    induction ops using List.reverseRecOn with
    | nil => exact fun pre a hpre => by simp at hpre
    | append_singleton ops op ih =>
      have hmeets := ih fun pre s hpre => h pre s (hpre.trans (List.prefix_append ops [op]))
      refine meets_concat.2 ⟨hmeets, ?_⟩
      intro s hs
      by_contra hop
      obtain ⟨t, ht, hfree, hstranded⟩ := (run_sleepers hmeets hs).stranded_of_return hop
      exact h _ t (List.prefix_refl _) (run_concat_ok.2 ⟨s, hs, ht⟩) hfree hstranded
  · intro h pre s hpre hs hfree
    exact (run_sleepers (h.of_prefix hpre) hs).not_stranded hfree

/-- A reader sleeps on the empty pipe; a writer that has been killed fills it and returns without a
`wakeup`. -/
def killedWriter : List Op :=
  [.piperead 1 1] ++ List.replicate 3 (.next 1) ++ [.pipewrite 2 (fun _ => 1) 513, .kill 2] ++
    List.replicate 515 (.next 2)

theorem reader_stranded : ∃ s, run step (pipealloc fun _ => 0) killedWriter = .ok s ∧
    s.lock = none ∧ s.pipe.writeopen = true ∧ Stranded s := by
  obtain ⟨s, hs, hfree, hopen, hasleep, hbytes⟩ :
      ∃ s, run step (pipealloc fun _ => 0) killedWriter = .ok s ∧ s.lock = none ∧
        s.pipe.writeopen = true ∧ (s.pc 1).readerAsleep = true ∧ ¬ s.pipe.empty := by decide +kernel
  exact ⟨s, hs, hfree, hopen, .inl ⟨1, hasleep, .inl hbytes⟩⟩

end Laboratorio.Xv6.Pipes
