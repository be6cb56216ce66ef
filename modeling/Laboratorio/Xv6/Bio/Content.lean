import Laboratorio.Xv6.Bio.Shape

/-!
# The contents of the buffers and of the disk
-/

namespace Laboratorio.Xv6.Bio

open Laboratorio.Lib DList Function

variable {β : Type}

/-- The contents last written to a block, or those the disk had at first. -/
def State.latest (s : State β) (disk : Nat × Nat → β) (k : Nat) : β :=
  (s.written k).getD (disk (Fs.ROOTDEV, k))

/-- A valid buffer that its holder is not changing has the contents last written to its block, and so has
the disk for a block without a dirty buffer. -/
structure Content (disk : Nat × Nat → β) (s : State β) : Prop where
  queue : s.idequeue.Nodup
  io : ∀ b ∈ s.idequeue, ∃ h k, s.pc h = .use k b .io
  busy : ∀ b ∈ s.idequeue, (s.buf b).valid = true → (s.buf b).dirty = true
  ready : ∀ h k b, (s.pc h).inHand = some (k, b) → (s.buf b).valid = true
  dirty : ∀ b, (s.buf b).dirty = true → (s.buf b).dev = Fs.ROOTDEV ∧ (s.buf b).valid = true
  clean : ∀ b, (s.buf b).dev = Fs.ROOTDEV → (s.buf b).valid = true →
    (∀ h k, s.pc h ≠ .use k b .modified) → (s.buf b).data = s.latest disk (s.buf b).blockno
  fresh : ∀ k, (∀ b, (s.buf b).dev = Fs.ROOTDEV → (s.buf b).blockno = k → (s.buf b).dirty = false) →
    s.disk (Fs.ROOTDEV, k) = s.latest disk k

/-- The data of the write at the head of the queue are on the disk. -/
def Started (s : State β) : Prop :=
  ∀ b q, s.idequeue = b :: q → (s.buf b).dirty = true →
    s.disk (Fs.ROOTDEV, (s.buf b).blockno) = (s.buf b).data

structure Inv (disk : Nat × Nat → β) (s : State β) : Prop where
  shape : Shape s
  content : Content disk s
  started : Started s

variable {s t : State β} {disk : Nat × Nat → β} {h g : Task} {k : Nat} {b c : Ptr} {pos : Pos}

/-! ## Contents -/

theorem inHand_cases {pc : Pc} (hpc : pc.inHand = some (k, b)) :
    ∃ pos, pc = .use k b pos ∧ (pos = .held ∨ pos = .modified) := by
  cases pc with
  | out => cases hpc
  | use l c q =>
    cases q with
    | held =>
      cases hpc
      exact ⟨.held, rfl, .inl rfl⟩
    | modified =>
      cases hpc
      exact ⟨.modified, rfl, .inr rfl⟩
    | _ => cases hpc

/-- The flags, the block and the data of every buffer are the same. -/
def SameContent (s t : State β) : Prop :=
  ∀ c, (t.buf c).valid = (s.buf c).valid ∧ (t.buf c).dirty = (s.buf c).dirty ∧
    (t.buf c).dev = (s.buf c).dev ∧ (t.buf c).blockno = (s.buf c).blockno ∧
    (t.buf c).data = (s.buf c).data

theorem Content.tasks (hs : Content disk s) (hbuf : SameContent s t)
    (hqueue : t.idequeue = s.idequeue) (hdisk : t.disk = s.disk) (hwritten : t.written = s.written)
    (hio : ∀ b ∈ s.idequeue, ∃ h k, t.pc h = .use k b .io)
    (hready : ∀ h k b, (t.pc h).inHand = some (k, b) → (s.buf b).valid = true)
    (hmod : ∀ h k b, s.pc h = .use k b .modified → t.pc h = .use k b .modified) :
    Content disk t := by
  have hlatest : ∀ k, t.latest disk k = s.latest disk k := by
    intro k
    unfold State.latest
    rw [hwritten]
  constructor
  · rw [hqueue]
    exact hs.queue
  · rw [hqueue]
    exact hio
  · intro b hb
    rw [hqueue] at hb
    rw [(hbuf b).1, (hbuf b).2.1]
    exact hs.busy b hb
  · intro h k b hh
    rw [(hbuf b).1]
    exact hready h k b hh
  · intro b
    rw [(hbuf b).1, (hbuf b).2.1, (hbuf b).2.2.1]
    exact hs.dirty b
  · intro b hdev hvalid hno
    obtain ⟨hv, hd, hdev', hblk, hdata⟩ := hbuf b
    rw [hdata, hblk, hlatest]
    exact hs.clean b (hdev' ▸ hdev) (hv ▸ hvalid) fun h k hh => hno h k (hmod h k b hh)
  · intro k hk
    rw [hdisk, hlatest]
    apply hs.fresh k
    intro b hdev hblk
    obtain ⟨-, hd, hdev', hblk', -⟩ := hbuf b
    rw [← hd]
    exact hk b (hdev'.trans hdev) (hblk'.trans hblk)

/-- An unused buffer is given to another block. -/
theorem Content.recycle (hs : Shape s) (hc : Content disk s) (hpc : s.pc h = .out)
    (hb : s.unused b = true) :
    Content disk ((s.setBuf b { s.buf b with
      dev := Fs.ROOTDEV, blockno := k, valid := false, dirty := false, refcnt := 1 }).goto h
      (.use k b .acquire)) := by
  obtain ⟨hrefcnt, hdirty⟩ : (s.buf b).refcnt = 0 ∧ (s.buf b).dirty = false := by
    simpa [State.unused] using hb
  have hfree : ∀ g l c q, s.pc g = .use l c q → c ≠ b := by
    intro g l c q hg he
    exact hs.refcnt_ne_zero hg (he ▸ hrefcnt)
  have hne : ∀ g l c q, s.pc g = .use l c q → g ≠ h := by
    intro g l c q hg he
    rw [he, hpc] at hg
    cases hg
  constructor
  · exact hc.queue
  · intro c hcq
    obtain ⟨g, l, hg⟩ := hc.io c hcq
    exact ⟨g, l, (update_of_ne (hne _ _ _ _ hg) _ _).trans hg⟩
  · intro c hcq
    obtain ⟨g, l, hg⟩ := hc.io c hcq
    simp only [State.goto, State.setBuf, update_of_ne (hfree _ _ _ _ hg)]
    exact hc.busy c hcq
  · intro g l c hg
    by_cases hgh : g = h
    · simp only [State.goto, hgh, update_self] at hg
      cases hg
    · simp only [State.goto, State.setBuf, update_of_ne hgh] at hg
      have hcb : c ≠ b := by
        obtain ⟨q, hq, -⟩ := inHand_cases hg
        exact hfree _ _ _ _ hq
      simp only [State.goto, State.setBuf, update_of_ne hcb]
      exact hc.ready g l c hg
  · intro c hd
    by_cases hcb : c = b
    · simp [State.goto, State.setBuf, hcb] at hd
    · simp only [State.goto, State.setBuf, update_of_ne hcb] at hd ⊢
      exact hc.dirty c hd
  · intro c hdev hvalid hno
    by_cases hcb : c = b
    · simp [State.goto, State.setBuf, hcb] at hvalid
    · simp only [State.goto, State.setBuf, update_of_ne hcb] at hdev hvalid ⊢
      refine hc.clean c hdev hvalid fun g l hg => hno g l ?_
      exact (update_of_ne (hne _ _ _ _ hg) _ _).trans hg
  · intro l hl
    refine hc.fresh l fun c hdev hno => ?_
    by_cases hcb : c = b
    · rw [hcb]
      exact hdirty
    · have := hl c
      simp only [State.goto, State.setBuf, update_of_ne hcb] at this
      exact this hdev hno

/-- A task that holds the lock and does not wait for the disk: its buffer is not in the queue. -/
theorem Content.notMem_queue (hs : Shape s) (hc : Content disk s)
    (hlock : (s.buf b).lock = some h) (hpc : s.pc h = .use k b pos) (hpos : pos ≠ .io) :
    b ∉ s.idequeue := by
  intro hb
  obtain ⟨g, l, hg⟩ := hc.io b hb
  have hgh := hs.holder_unique (.inr hlock) hg rfl
  rw [hgh, hpc] at hg
  cases hg
  exact hpos rfl

/-- A task works on the buffer it holds: on the data, the flags and the record of what was written. -/
theorem Content.touch {pos' : Pos} (hs : Shape s) (hc : Content disk s)
    (hpc : s.pc h = .use k b pos) (hlock : (s.buf b).lock = some h) (hpos : pos ≠ .io)
    (hqueue : t.idequeue = s.idequeue) (hdisk : t.disk = s.disk)
    (hpc' : t.pc = update s.pc h (.use k b pos')) (hbuf : ∀ c, c ≠ b → t.buf c = s.buf c)
    (hb : (t.buf b).dev = (s.buf b).dev ∧ (t.buf b).blockno = (s.buf b).blockno ∧
      (t.buf b).valid = true)
    (hlatest : ∀ l, l ≠ k → t.latest disk l = s.latest disk l)
    (hdata : pos' ≠ .modified → (t.buf b).data = t.latest disk k)
    (hdirty : (t.buf b).dirty = false →
      (s.buf b).dirty = false ∧ t.latest disk k = s.latest disk k) : Content disk t := by
  obtain ⟨hdevb, hblkb⟩ := hs.ident h k b pos hpc
  have hnotMem := hc.notMem_queue hs hlock hpc hpos
  have hother : ∀ g l c q, s.pc g = .use l c q → c ≠ b → t.pc g = .use l c q := by
    intro g l c q hg hcb
    have hgh : g ≠ h := by
      intro he
      rw [he, hpc] at hg
      cases hg
      exact hcb rfl
    rw [hpc', update_of_ne hgh]
    exact hg
  have hqne : ∀ c ∈ s.idequeue, c ≠ b := fun c hcq he => hnotMem (he ▸ hcq)
  constructor
  · rw [hqueue]
    exact hc.queue
  · intro c hcq
    rw [hqueue] at hcq
    obtain ⟨g, l, hg⟩ := hc.io c hcq
    exact ⟨g, l, hother g l c .io hg (hqne c hcq)⟩
  · intro c hcq
    rw [hqueue] at hcq
    rw [hbuf c (hqne c hcq)]
    exact hc.busy c hcq
  · intro g l c hg
    by_cases hcb : c = b
    · rw [hcb]
      exact hb.2.2
    · rw [hbuf c hcb]
      have hgh : g ≠ h := by
        intro he
        obtain ⟨q, hq, -⟩ := inHand_cases hg
        rw [hpc', he, update_self] at hq
        cases hq
        exact hcb rfl
      rw [hpc', update_of_ne hgh] at hg
      exact hc.ready g l c hg
  · intro c hd
    by_cases hcb : c = b
    · rw [hcb]
      exact ⟨hb.1.trans hdevb, hb.2.2⟩
    · rw [hbuf c hcb] at hd ⊢
      exact hc.dirty c hd
  · intro c hdev hvalid hno
    by_cases hcb : c = b
    · rw [hcb] at hno ⊢
      rw [hb.2.1, hblkb]
      apply hdata
      intro he
      apply hno h k
      rw [hpc', update_self, he]
    · rw [hbuf c hcb] at hdev hvalid ⊢
      have hne : (s.buf c).blockno ≠ k := by
        intro he
        exact hcb (hs.unique c b hdev hdevb (he.trans hblkb.symm))
      rw [hlatest _ hne]
      exact hc.clean c hdev hvalid fun g l hg => hno g l (hother g l c .modified hg hcb)
  · intro l hl
    have hold : (l = k → (s.buf b).dirty = false) → s.disk (Fs.ROOTDEV, l) = s.latest disk l := by
      intro hbl
      refine hc.fresh l fun c hdev hno => ?_
      by_cases hcb : c = b
      · rw [hcb] at hno ⊢
        exact hbl (hno.symm.trans hblkb)
      · have := hl c
        rw [hbuf c hcb] at this
        exact this hdev hno
    rw [hdisk]
    by_cases hlk : l = k
    · have := hdirty (hl b (hb.1.trans hdevb) (by rw [hb.2.1, hblkb, hlk]))
      rw [hold fun _ => this.1, hlk, this.2]
    · rw [hlatest l hlk]
      exact hold fun he => absurd he hlk

/-- `iderw` puts the buffer of a task into the queue. -/
theorem Content.enqueue (hs : Shape s) (hc : Content disk s) (hpc : s.pc h = .use k b pos)
    (hlock : (s.buf b).lock = some h) (hpos : pos ≠ .io) (hpos' : pos ≠ .modified)
    (hbusy : (s.buf b).valid = true → (s.buf b).dirty = true) :
    Content disk (({ s with idequeue := s.idequeue ++ [b] } : State β).goto h (.use k b .io)) := by
  have hnotMem := hc.notMem_queue hs hlock hpc hpos
  constructor
  · exact List.nodup_append.2 ⟨hc.queue, List.nodup_singleton b, fun x hx y hy he => hnotMem
      (List.mem_singleton.1 hy ▸ he ▸ hx)⟩
  · intro c hcq
    rcases List.mem_append.1 hcq with hcq | hcb
    · obtain ⟨g, l, hg⟩ := hc.io c hcq
      have hgh : g ≠ h := by
        intro he
        rw [he, hpc] at hg
        cases hg
        exact hpos rfl
      exact ⟨g, l, (update_of_ne hgh _ _).trans hg⟩
    · rw [List.mem_singleton.1 hcb]
      exact ⟨h, k, update_self ..⟩
  · intro c hcq
    rcases List.mem_append.1 hcq with hcq | hcb
    · exact hc.busy c hcq
    · rw [List.mem_singleton.1 hcb]
      exact hbusy
  · intro g l c hg
    by_cases hgh : g = h
    · simp only [State.goto, hgh, update_self] at hg
      cases hg
    · simp only [State.goto, update_of_ne hgh] at hg
      exact hc.ready g l c hg
  · exact hc.dirty
  · intro c hdev hvalid hno
    refine hc.clean c hdev hvalid fun g l hg => hno g l ?_
    have hgh : g ≠ h := by
      intro he
      rw [he, hpc] at hg
      cases hg
      exact hpos' rfl
    exact (update_of_ne hgh _ _).trans hg
  · exact hc.fresh

/-- `idestart` may only put the data of a dirty buffer on the disk. -/
theorem idestart_cases (hstart : idestart b s = .ok t) :
    ((s.buf b).dirty = false ∧ t = s) ∨
    ((s.buf b).dirty = true ∧ t = { s with
      disk := update s.disk ((s.buf b).dev % 2, (s.buf b).blockno) (s.buf b).data }) := by
  unfold idestart at hstart
  dsimp only at hstart
  split at hstart
  · cases hstart
  · split at hstart
    · rename_i hd
      exact .inr ⟨hd, (Except.ok.inj hstart).symm⟩
    · rename_i hd
      exact .inl ⟨by simpa using hd, (Except.ok.inj hstart).symm⟩

theorem Shape.idestart (hs : Shape s) (hstart : idestart b s = .ok t) : Shape t := by
  rcases idestart_cases hstart with ⟨-, rfl⟩ | ⟨-, rfl⟩
  · exact hs
  · exact hs.congr rfl rfl fun c => ⟨rfl, rfl, rfl, rfl⟩

theorem Content.idestart (hc : Content disk s) (hstart : idestart b s = .ok t) :
    Content disk t := by
  rcases idestart_cases hstart with ⟨-, rfl⟩ | ⟨hd, rfl⟩
  · exact hc
  · obtain ⟨hdev, -⟩ := hc.dirty b hd
    refine ⟨hc.queue, hc.io, hc.busy, hc.ready, hc.dirty, hc.clean, fun k hk => ?_⟩
    have hne : (Fs.ROOTDEV, k) ≠ ((s.buf b).dev % 2, (s.buf b).blockno) := by
      intro he
      have := hk b hdev (Prod.mk.inj he).2.symm
      rw [hd] at this
      cases this
    exact (update_of_ne hne _ _).trans (hc.fresh k hk)

theorem Started.idestart {q : List Ptr} (hc : Content disk s) (hq : s.idequeue = b :: q)
    (hstart : idestart b s = .ok t) : Started t := by
  rcases idestart_cases hstart with ⟨hd, rfl⟩ | ⟨hd, rfl⟩
  · intro c q' hc' hd'
    rw [hq] at hc'
    cases hc'
    rw [hd] at hd'
    cases hd'
  · intro c q' hc' hd'
    rw [show ({ s with disk := _ } : State β).idequeue = s.idequeue from rfl, hq] at hc'
    cases hc'
    obtain ⟨hdev, -⟩ := hc.dirty b hd
    dsimp only
    rw [hdev]
    exact update_self ..

/-- The interrupt of the disk, up to the start of the next request. -/
theorem Content.finish {q : List Ptr} (hs : Shape s) (hc : Content disk s) (hst : Started s)
    (hq : s.idequeue = b :: q) :
    Content disk (({ s with idequeue := q } : State β).setBuf b { s.buf b with
      data := if (s.buf b).dirty then (s.buf b).data
        else s.disk ((s.buf b).dev % 2, (s.buf b).blockno)
      valid := true
      dirty := false }) := by
  have hbq : b ∈ s.idequeue := by rw [hq]; exact List.mem_cons_self
  have hsub : ∀ c ∈ q, c ∈ s.idequeue := fun c hcq => by rw [hq]; exact List.mem_cons_of_mem b hcq
  have hnodup := List.nodup_cons.1 (hq ▸ hc.queue)
  obtain ⟨h, k, hpc⟩ := hc.io b hbq
  obtain ⟨hdevb, hblkb⟩ := hs.ident h k b .io hpc
  have hlock := (hs.lock h b).2 ⟨k, .io, hpc, rfl⟩
  have hnomod : ∀ g l, s.pc g ≠ .use l b .modified := by
    intro g l hg
    rw [hs.holder_unique (.inr hlock) hg rfl, hpc] at hg
    cases hg
  have hdata : (if (s.buf b).dirty then (s.buf b).data
      else s.disk ((s.buf b).dev % 2, (s.buf b).blockno)) = s.latest disk (s.buf b).blockno := by
    split
    · rename_i hd
      exact hc.clean b hdevb (hc.dirty b hd).2 hnomod
    · rename_i hd
      rw [hdevb]
      refine hc.fresh _ fun c hdev hno => ?_
      rw [hs.unique c b hdev hdevb hno]
      simpa using hd
  constructor
  · exact hnodup.2
  · exact fun c hcq => hc.io c (hsub c hcq)
  · intro c hcq
    have hcb : c ≠ b := fun he => hnodup.1 (he ▸ hcq)
    simp only [State.setBuf, update_of_ne hcb]
    exact hc.busy c (hsub c hcq)
  · intro g l c hg
    by_cases hcb : c = b
    · simp [State.setBuf, hcb]
    · simp only [State.setBuf, update_of_ne hcb]
      exact hc.ready g l c hg
  · intro c hd
    by_cases hcb : c = b
    · simp [State.setBuf, hcb] at hd
    · simp only [State.setBuf, update_of_ne hcb] at hd ⊢
      exact hc.dirty c hd
  · intro c hdev hvalid hno
    by_cases hcb : c = b
    · subst hcb
      simp only [State.setBuf, update_self]
      exact hdata
    · simp only [State.setBuf, update_of_ne hcb] at hdev hvalid ⊢
      exact hc.clean c hdev hvalid hno
  · intro l hl
    by_cases hlk : (s.buf b).dirty = true ∧ l = (s.buf b).blockno
    · obtain ⟨hd, rfl⟩ := hlk
      have := hst b q hq hd
      rw [if_pos hd] at hdata
      exact this.trans hdata
    · refine hc.fresh l fun c hdev hno => ?_
      by_cases hcb : c = b
      · subst hcb
        by_contra hd
        exact hlk ⟨by simpa using hd, hno.symm⟩
      · have := hl c
        simp only [State.setBuf, update_of_ne hcb] at this
        exact this hdev hno

/-! ## Steps -/

theorem Started.congr (hst : Started s) (hqueue : t.idequeue = s.idequeue) (hdisk : t.disk = s.disk)
    (hbuf : ∀ c ∈ s.idequeue, (t.buf c).dirty = (s.buf c).dirty ∧
      (t.buf c).blockno = (s.buf c).blockno ∧ (t.buf c).data = (s.buf c).data) : Started t := by
  intro c q hq hd
  rw [hqueue] at hq
  obtain ⟨hdirty, hblk, hdata⟩ := hbuf c (by rw [hq]; exact List.mem_cons_self)
  rw [hdirty] at hd
  rw [hdisk, hblk, hdata]
  exact hst c q hq hd

theorem inv_boot (disk : Nat × Nat → β) (zero : β) : Inv disk (boot disk zero) := by
  refine ⟨⟨⟨_, ring_binit, fun b => by simp⟩, fun b => ?_, nofun, nofun, fun h b => ?_⟩,
    ⟨List.nodup_nil, nofun, nofun, nofun, nofun, nofun, fun _ _ => rfl⟩, nofun⟩
  · simp [boot, Pc.ptr]
  · simp [boot]

/-- A step that changes nothing but where a task stands and who holds the lock of its buffer. -/
theorem Inv.move (hI : Inv disk s) (pos' : Pos) (hpc : s.pc h = .use k b pos)
    (hlock : (s.buf b).lock = none ∨ (s.buf b).lock = some h)
    (hio : pos = .io → b ∉ s.idequeue) (hmod : pos ≠ .modified)
    (hvalid : pos' = .held ∨ pos' = .modified → (s.buf b).valid = true) :
    Inv disk ((s.setBuf b { s.buf b with lock := if pos'.locked then some h else none }).goto h
      (.use k b pos')) := by
  have hother : ∀ g l c q, s.pc g = .use l c q → g ≠ h ∨ (c = b ∧ q = pos) := by
    intro g l c q hg
    by_cases hgh : g = h
    · rw [hgh, hpc] at hg
      cases hg
      exact .inr ⟨rfl, rfl⟩
    · exact .inl hgh
  have hsame : SameContent s ((s.setBuf b
      { s.buf b with lock := if pos'.locked then some h else none }).goto h (.use k b pos')) := by
    intro c
    by_cases hcb : c = b
    · simp [State.goto, State.setBuf, hcb]
    · simp [State.goto, State.setBuf, hcb]
  refine ⟨?_, ?_, ?_⟩
  · refine hI.shape.move hpc hlock rfl rfl ?_ ?_ ?_
    · intro c
      by_cases hcb : c = b
      · simp [State.goto, State.setBuf, hcb]
      · simp [State.goto, State.setBuf, hcb]
    · simp [State.goto, State.setBuf]
    · intro c hcb
      simp [State.goto, State.setBuf, hcb]
  · refine hI.content.tasks hsame rfl rfl rfl ?_ ?_ ?_
    · intro c hcq
      obtain ⟨g, l, hg⟩ := hI.content.io c hcq
      rcases hother g l c .io hg with hgh | ⟨rfl, hq⟩
      · exact ⟨g, l, (update_of_ne hgh _ _).trans hg⟩
      · exact absurd hcq (hio hq.symm)
    · intro g l c hg
      by_cases hgh : g = h
      · obtain ⟨q, hq, hq'⟩ := inHand_cases hg
        simp only [State.goto, hgh, update_self] at hq
        cases hq
        exact hvalid hq'
      · simp only [State.goto, update_of_ne hgh] at hg
        exact hI.content.ready g l c hg
    · intro g l c hg
      rcases hother g l c .modified hg with hgh | ⟨-, hq⟩
      · exact (update_of_ne hgh _ _).trans hg
      · exact absurd hq.symm hmod
  · exact hI.started.congr rfl rfl fun c _ => ⟨(hsame c).2.1, (hsame c).2.2.2⟩

theorem goto_goto (s : State β) (h : Task) (pc pc' : Pc) :
    (s.goto h pc).goto h pc' = s.goto h pc' := by
  unfold State.goto
  simp

theorem setBuf_self (s : State β) (b : Ptr) : s.setBuf b (s.buf b) = s := by
  unfold State.setBuf
  rw [update_eq_self]

theorem Inv.goto {pos' : Pos} (hI : Inv disk s) (hpc : s.pc h = .use k b pos)
    (hlocked : pos.locked = true) (hlocked' : pos'.locked = true)
    (hio : pos = .io → b ∉ s.idequeue) (hmod : pos ≠ .modified)
    (hvalid : pos' = .held ∨ pos' = .modified → (s.buf b).valid = true) :
    Inv disk (s.goto h (.use k b pos')) := by
  have hlock := (hI.shape.lock h b).2 ⟨k, pos, hpc, hlocked⟩
  have := hI.move pos' hpc (.inr hlock) hio hmod hvalid
  rwa [if_pos hlocked', ← hlock, setBuf_self] at this

theorem idestart_goto (b : Ptr) (s : State β) (h : Task) (pc : Pc) :
    idestart b (s.goto h pc) = (idestart b s).map (·.goto h pc) := by
  unfold idestart
  by_cases hno : Fs.FSSIZE ≤ (s.buf b).blockno
  · simp [State.goto, hno, Except.map]
  · by_cases hd : (s.buf b).dirty = true
    · simp [State.goto, hno, hd, Except.map]
    · simp [State.goto, hno, hd, Except.map]

theorem iderw_goto (b : Ptr) (s : State β) (h g : Task) (pc : Pc) :
    iderw g b (s.goto h pc) = (iderw g b s).map (·.goto h pc) := by
  have hstart := idestart_goto b ({ s with idequeue := s.idequeue ++ [b] } : State β) h pc
  unfold iderw
  by_cases hl : (s.buf b).lock ≠ some g
  · simp [State.goto, hl, Except.map]
  · by_cases hv : (s.buf b).valid = true ∧ (s.buf b).dirty = false
    · simp [State.goto, hl, hv, Except.map]
    · by_cases hh : (s.idequeue ++ [b]).head? = some b
      · simp only [State.goto, hl, hv, hh, if_true, if_false]
        exact hstart
      · simp only [State.goto, hl, hv, hh, if_false]
        rfl

theorem Inv.iderw (hI : Inv disk s) (hpc : s.pc h = .use k b pos) (hpos : pos ≠ .io)
    (hpos' : pos ≠ .modified) (hio : iderw h b s = .ok t) :
    Inv disk (t.goto h (.use k b .io)) := by
  unfold Bio.iderw at hio
  split at hio
  · cases hio
  · rename_i hlock
    rw [not_not] at hlock
    split at hio
    · cases hio
    · rename_i hbusy
      have hbusy' : (s.buf b).valid = true → (s.buf b).dirty = true := by
        intro hv
        by_contra hd
        exact hbusy ⟨hv, by simpa using hd⟩
      have hnotMem := hI.content.notMem_queue hI.shape hlock hpc hpos
      have hcontent := hI.content.enqueue hI.shape hpc hlock hpos hpos' hbusy'
      have hshape : Shape (({ s with idequeue := s.idequeue ++ [b] } : State β).goto h
          (.use k b .io)) := by
        refine hI.shape.move hpc (.inr hlock) rfl rfl ?_ ?_ ?_
        · exact fun c => ⟨rfl, rfl, rfl⟩
        · exact hlock
        · exact fun c _ => rfl
      dsimp only at hio
      cases hq : s.idequeue with
      | nil =>
        rw [hq, List.nil_append] at hio hcontent hshape
        rw [List.head?_cons, if_pos rfl] at hio
        have hstart := idestart_goto b ({ s with idequeue := [b] } : State β) h (.use k b .io)
        rw [hio] at hstart
        exact ⟨hshape.idestart hstart, hcontent.idestart hstart,
          Started.idestart hcontent rfl hstart⟩
      | cons c q =>
        have hcb : c ≠ b := by
          intro he
          rw [hq, he] at hnotMem
          exact hnotMem List.mem_cons_self
        rw [if_neg] at hio
        · cases hio
          refine ⟨hshape, hcontent, fun d q' hd hdirty => ?_⟩
          simp only [State.goto, hq, List.cons_append] at hd
          cases hd
          exact hI.started c q hq hdirty
        · rw [hq]
          simpa using hcb

theorem Inv.touch {pos' : Pos} (hI : Inv disk s) (hpc : (s.pc h).inHand = some (k, b))
    (hlinks : t.links = s.links) (hqueue : t.idequeue = s.idequeue) (hdisk : t.disk = s.disk)
    (hpc' : t.pc = update s.pc h (.use k b pos')) (hbuf : ∀ c, c ≠ b → t.buf c = s.buf c)
    (hpos' : pos'.locked = true) (hb : ∃ d data, t.buf b = { s.buf b with dirty := d, data := data })
    (hlatest : ∀ l, l ≠ k → t.latest disk l = s.latest disk l)
    (hdata : pos' ≠ .modified → (t.buf b).data = t.latest disk k)
    (hdirty : (t.buf b).dirty = false →
      (s.buf b).dirty = false ∧ t.latest disk k = s.latest disk k) : Inv disk t := by
  have hvalid := hI.content.ready h k b hpc
  obtain ⟨pos, hpos, hcases⟩ := inHand_cases hpc
  have hlocked : pos.locked = true ∧ pos ≠ .io := by
    rcases hcases with rfl | rfl
    · exact ⟨rfl, nofun⟩
    · exact ⟨rfl, nofun⟩
  have hlock := (hI.shape.lock h b).2 ⟨k, pos, hpos, hlocked.1⟩
  have hnotMem := hI.content.notMem_queue hI.shape hlock hpos hlocked.2
  obtain ⟨d, data, hb⟩ := hb
  refine ⟨?_, ?_, ?_⟩
  · apply hI.shape.move hpos (.inr hlock) hlinks hpc'
    · intro c
      by_cases hcb : c = b
      · rw [hcb, hb]
        exact ⟨rfl, rfl, rfl⟩
      · rw [hbuf c hcb]
        exact ⟨rfl, rfl, rfl⟩
    · rw [hb, if_pos hpos']
      exact hlock
    · exact fun c hcb => by rw [hbuf c hcb]
  · refine hI.content.touch hI.shape hpos hlock hlocked.2 hqueue hdisk hpc' hbuf ?_ hlatest hdata hdirty
    rw [hb]
    exact ⟨rfl, rfl, hvalid⟩
  · refine hI.started.congr hqueue hdisk fun c hcq => ?_
    rw [hbuf c fun he => hnotMem (he ▸ hcq)]
    exact ⟨rfl, rfl, rfl⟩

theorem Inv.modify (hI : Inv disk s) (hpc : (s.pc h).inHand = some (k, b)) (d : β) :
    Inv disk ((s.setBuf b { s.buf b with data := d }).goto h (.use k b .modified)) := by
  refine hI.touch hpc rfl rfl rfl rfl ?_ ?_ ?_ ?_ ?_ ?_
  · exact fun c hcb => update_of_ne hcb _ _
  · rfl
  · exact ⟨_, d, update_self ..⟩
  · exact fun _ _ => rfl
  · exact fun he => absurd rfl he
  · intro hd
    simp only [State.goto, State.setBuf, update_self] at hd
    exact ⟨hd, rfl⟩

theorem Inv.log_write (hI : Inv disk s) (hpc : (s.pc h).inHand = some (k, b)) :
    Inv disk ((mark b s).goto h (.use k b .held)) := by
  obtain ⟨pos, hpos, -⟩ := inHand_cases hpc
  obtain ⟨-, hblk⟩ := hI.shape.ident h k b pos hpos
  refine hI.touch hpc rfl rfl rfl rfl ?_ ?_ ?_ ?_ ?_ ?_
  · exact fun c hcb => update_of_ne hcb _ _
  · rfl
  · exact ⟨true, _, update_self ..⟩
  · intro l hl
    simp only [State.latest, State.goto, mark, hblk, update_of_ne hl]
  · intro _
    simp [State.latest, State.goto, mark, State.setBuf, hblk]
  · intro hd
    simp [State.goto, mark, State.setBuf] at hd

theorem Inv.bread (hI : Inv disk s) (hpc : s.pc h = .out)
    (hstep : (bget Fs.ROOTDEV k s).map (fun r => r.2.goto h (.use k r.1 .acquire)) = .ok t) :
    Inv disk t := by
  have hne : ∀ g l c q, s.pc g = .use l c q → g ≠ h := by
    intro g l c q hg he
    rw [he, hpc] at hg
    cases hg
  rcases hI.shape.bget_cases k with ⟨b, hb, hget⟩ | ⟨hno, ⟨b, hb, hget⟩ | ⟨-, hget⟩⟩
  · rw [hget] at hstep
    cases hstep
    obtain ⟨hdev, hblk⟩ : (s.buf b).dev = Fs.ROOTDEV ∧ (s.buf b).blockno = k := by
      simpa [State.cached] using hb
    have hsame : SameContent s ((s.setBuf b
        { s.buf b with refcnt := (s.buf b).refcnt + 1 }).goto h (.use k b .acquire)) := by
      intro c
      by_cases hcb : c = b
      · simp [State.goto, State.setBuf, hcb]
      · simp [State.goto, State.setBuf, hcb]
    refine ⟨?_, ?_, ?_⟩
    · refine hI.shape.enter hpc rfl rfl ?_ ?_ ?_ ?_
      · simp [State.goto, State.setBuf, hdev, hblk]
      · exact fun c hcb => update_of_ne hcb _ _
      · exact fun c hcb hdev' hblk' => hcb (hI.shape.unique c b hdev' hdev (hblk'.trans hblk.symm))
      · exact fun _ => ⟨hdev, hblk⟩
    · refine hI.content.tasks hsame rfl rfl rfl ?_ ?_ ?_
      · intro c hcq
        obtain ⟨g, l, hg⟩ := hI.content.io c hcq
        exact ⟨g, l, (update_of_ne (hne _ _ _ _ hg) _ _).trans hg⟩
      · intro g l c hg
        have hgh : g ≠ h := by
          intro he
          simp only [State.goto, he, update_self] at hg
          cases hg
        simp only [State.goto, update_of_ne hgh] at hg
        exact hI.content.ready g l c hg
      · exact fun g l c hg => (update_of_ne (hne _ _ _ _ hg) _ _).trans hg
    · exact hI.started.congr rfl rfl fun c _ => ⟨(hsame c).2.1, (hsame c).2.2.2⟩
  · rw [hget] at hstep
    cases hstep
    have hrefcnt : (s.buf b).refcnt = 0 := by
      have : (s.buf b).refcnt = 0 ∧ (s.buf b).dirty = false := by simpa [State.unused] using hb
      exact this.1
    refine ⟨?_, hI.content.recycle hI.shape hpc hb, ?_⟩
    · refine hI.shape.enter hpc rfl rfl ?_ ?_ ?_ ?_
      · simp [State.goto, State.setBuf, hrefcnt]
      · exact fun c hcb => update_of_ne hcb _ _
      · intro c _ hdev hblk
        have := hno c
        simp [State.cached, hdev, hblk] at this
      · exact fun h0 => absurd hrefcnt h0
    · refine hI.started.congr rfl rfl fun c hcq => ?_
      obtain ⟨g, l, hg⟩ := hI.content.io c hcq
      have hcb : c ≠ b := fun he => hI.shape.refcnt_ne_zero hg (he ▸ hrefcnt)
      simp [State.goto, State.setBuf, hcb]
  · rw [hget] at hstep
    cases hstep

theorem Inv.leave (hI : Inv disk s) (hpc : s.pc h = .use k b .release) :
    Inv disk ((bdrop b s).goto h .out) := by
  have hbuf : (bdrop b s).buf = update s.buf b
        { s.buf b with refcnt := (s.buf b).refcnt - 1 } ∧ (bdrop b s).pc = s.pc ∧
      (bdrop b s).idequeue = s.idequeue ∧ (bdrop b s).disk = s.disk ∧
      (bdrop b s).written = s.written := by
    unfold bdrop
    dsimp only
    split
    · exact ⟨rfl, rfl, rfl, rfl, rfl⟩
    · exact ⟨rfl, rfl, rfl, rfl, rfl⟩
  obtain ⟨hbuf, hpcs, hqueue, hdisk, hwritten⟩ := hbuf
  have hsame : SameContent s ((bdrop b s).goto h .out) := by
    intro c
    simp only [State.goto, hbuf]
    by_cases hcb : c = b
    · simp [hcb]
    · simp [hcb]
  have hne : ∀ g l c q, s.pc g = .use l c q → q ≠ .release →
      ((bdrop b s).goto h .out).pc g = .use l c q := by
    intro g l c q hg hq
    have hgh : g ≠ h := by
      intro he
      rw [he, hpc] at hg
      cases hg
      exact hq rfl
    simp only [State.goto, hpcs]
    rw [update_of_ne hgh]
    exact hg
  refine ⟨hI.shape.leave hpc, hI.content.tasks hsame hqueue hdisk hwritten ?_ ?_ ?_, ?_⟩
  · intro c hcq
    obtain ⟨g, l, hg⟩ := hI.content.io c hcq
    exact ⟨g, l, hne g l c .io hg (by simp)⟩
  · intro g l c hg
    have hgh : g ≠ h := by
      intro he
      simp only [State.goto, he, update_self] at hg
      cases hg
    simp only [State.goto, hpcs, update_of_ne hgh] at hg
    exact hI.content.ready g l c hg
  · exact fun g l c hg => hne g l c .modified hg (by simp)
  · exact hI.started.congr hqueue hdisk fun c _ => ⟨(hsame c).2.1, (hsame c).2.2.2⟩

theorem Inv.ideintr (hI : Inv disk s) (hintr : ideintr s = .ok t) : Inv disk t := by
  unfold Bio.ideintr at hintr
  cases hq : s.idequeue with
  | nil =>
    rw [hq] at hintr
    cases hintr
    exact hI
  | cons b q =>
    rw [hq] at hintr
    dsimp only at hintr
    have hcontent := hI.content.finish hI.shape hI.started hq
    have hshape : Shape (({ s with idequeue := q } : State β).setBuf b { s.buf b with
        data := if (s.buf b).dirty then (s.buf b).data
          else s.disk ((s.buf b).dev % 2, (s.buf b).blockno)
        valid := true
        dirty := false }) := by
      refine hI.shape.congr rfl rfl fun c => ?_
      by_cases hcb : c = b
      · simp [State.setBuf, hcb]
      · simp [State.setBuf, hcb]
    cases q with
    | nil =>
      cases hintr
      exact ⟨hshape, hcontent, nofun⟩
    | cons c q =>
      exact ⟨hshape.idestart hintr, hcontent.idestart hintr,
        Started.idestart hcontent rfl hintr⟩

theorem Inv.advance (hI : Inv disk s) (hpc : s.pc h = .use k b pos)
    (hstep : advance h k b s pos = .ok t) : Inv disk t := by
  cases pos with
  | acquire =>
    simp only [Bio.advance] at hstep
    split at hstep
    · rename_i hlock
      cases hstep
      exact hI.move .test hpc (.inl hlock) nofun nofun nofun
    · cases hstep
  | test =>
    simp only [Bio.advance] at hstep
    split at hstep
    · rename_i hvalid
      cases hstep
      exact hI.goto hpc rfl rfl nofun nofun fun _ => hvalid
    · obtain ⟨u, hu, rfl⟩ := exists_of_map_eq_ok hstep
      exact hI.iderw hpc nofun nofun hu
  | io =>
    simp only [Bio.advance] at hstep
    split at hstep
    · rename_i hdone
      cases hstep
      refine hI.goto hpc rfl rfl (fun _ hb => ?_) nofun fun _ => hdone.1
      have := hI.content.busy b hb hdone.1
      rw [hdone.2] at this
      cases this
    · cases hstep
  | release =>
    simp only [Bio.advance] at hstep
    cases hstep
    exact hI.leave hpc
  | held => cases hstep
  | modified => cases hstep

theorem Inv.bwrite (hI : Inv disk s) (hpc : (s.pc h).inHand = some (k, b))
    (hw : bwrite h b s = .ok t) : Inv disk (t.goto h (.use k b .io)) := by
  unfold Bio.bwrite at hw
  split at hw
  · cases hw
  · have hio : Bio.iderw h b ((mark b s).goto h (.use k b .held)) = .ok (t.goto h (.use k b .held)) := by
      rw [iderw_goto, hw]
      rfl
    have hpc' : ((mark b s).goto h (.use k b .held)).pc h = .use k b .held := update_self ..
    have := (hI.log_write hpc).iderw hpc' nofun nofun hio
    rwa [goto_goto] at this

theorem Inv.step {op : Op β} (hI : Inv disk s) (hstep : step s op = .ok t) : Inv disk t := by
  cases op with
  | bread h k =>
    simp only [Bio.step] at hstep
    split at hstep
    · rename_i hpc
      exact hI.bread hpc hstep
    · cases hstep
  | next h =>
    simp only [Bio.step] at hstep
    split at hstep
    · cases hstep
    · rename_i hpc
      exact hI.advance hpc hstep
  | modify h d =>
    simp only [Bio.step] at hstep
    split at hstep
    · rename_i hpc
      cases hstep
      exact hI.modify hpc d
    · cases hstep
  | log_write h =>
    simp only [Bio.step] at hstep
    split at hstep
    · rename_i hpc
      cases hstep
      exact hI.log_write hpc
    · cases hstep
  | bwrite h =>
    simp only [Bio.step] at hstep
    split at hstep
    · rename_i hpc
      obtain ⟨u, hu, rfl⟩ := exists_of_map_eq_ok hstep
      exact hI.bwrite hpc hu
    · cases hstep
  | brelse h =>
    simp only [Bio.step] at hstep
    split at hstep
    · rename_i k b hpc
      obtain ⟨u, hu, rfl⟩ := exists_of_map_eq_ok hstep
      unfold brelse at hu
      split at hu
      · cases hu
      · rename_i hlock
        cases hu
        exact hI.move .release hpc (.inr (not_not.1 hlock)) nofun nofun nofun
    · cases hstep
  | ideintr => exact hI.ideintr hstep

theorem run_inv (disk : Nat × Nat → β) (zero : β) (ops : List (Op β)) (s : State β)
    (hrun : run step (boot disk zero) ops = .ok s) : Inv disk s :=
  run_invariant (P := fun _ s => Inv disk s) (inv_boot disk zero)
    (fun _ _ _ _ _ hI hstep => hI.step hstep) ops s hrun

/-! ## What stays -/

/-- What the disk and the locks do to the state: every buffer keeps its block and none becomes
dirty. -/
structure Kept (s t : State β) : Prop where
  block : ∀ c, (t.buf c).dev = (s.buf c).dev ∧ (t.buf c).blockno = (s.buf c).blockno
  dirty : ∀ c, (t.buf c).dirty = true → (s.buf c).dirty = true
  written : t.written = s.written
  pc : t.pc = s.pc

theorem Kept.refl (s : State β) : Kept s s := ⟨fun _ => ⟨rfl, rfl⟩, fun _ h => h, rfl, rfl⟩

theorem Kept.trans {u : State β} (hst : Kept s t) (htu : Kept t u) : Kept s u where
  block c := ⟨(htu.block c).1.trans (hst.block c).1, (htu.block c).2.trans (hst.block c).2⟩
  dirty c hc := hst.dirty c (htu.dirty c hc)
  written := htu.written.trans hst.written
  pc := htu.pc.trans hst.pc

theorem kept_update {x : Buf β} (hbuf : t.buf = update s.buf b x)
    (hx : x.dev = (s.buf b).dev ∧ x.blockno = (s.buf b).blockno ∧
      (x.dirty = true → (s.buf b).dirty = true))
    (hrest : t.written = s.written ∧ t.pc = s.pc) : Kept s t := by
  refine ⟨fun c => ?_, fun c hc => ?_, hrest.1, hrest.2⟩
  · rw [hbuf]
    by_cases hcb : c = b
    · rw [hcb, update_self]
      exact ⟨hx.1, hx.2.1⟩
    · rw [update_of_ne hcb]
      exact ⟨rfl, rfl⟩
  · rw [hbuf] at hc
    by_cases hcb : c = b
    · rw [hcb, update_self] at hc
      rw [hcb]
      exact hx.2.2 hc
    · rwa [update_of_ne hcb] at hc

theorem kept_idestart (hstart : idestart b s = .ok t) : Kept s t := by
  rcases idestart_cases hstart with ⟨-, rfl⟩ | ⟨-, rfl⟩
  · exact Kept.refl t
  · exact ⟨fun _ => ⟨rfl, rfl⟩, fun _ h => h, rfl, rfl⟩

theorem kept_iderw (hio : iderw h b s = .ok t) : Kept s t := by
  unfold iderw at hio
  split at hio
  · cases hio
  · split at hio
    · cases hio
    · dsimp only at hio
      have hs : Kept s { s with idequeue := s.idequeue ++ [b] } :=
        ⟨fun _ => ⟨rfl, rfl⟩, fun _ h => h, rfl, rfl⟩
      split at hio
      · exact hs.trans (kept_idestart hio)
      · cases hio
        exact hs

theorem kept_ideintr (hintr : ideintr s = .ok t) : Kept s t := by
  unfold ideintr at hintr
  split at hintr
  · cases hintr
    exact Kept.refl s
  · dsimp only at hintr
    split at hintr
    · cases hintr
      exact kept_update rfl ⟨rfl, rfl, nofun⟩ ⟨rfl, rfl⟩
    · refine Kept.trans ?_ (kept_idestart hintr)
      exact kept_update rfl ⟨rfl, rfl, nofun⟩ ⟨rfl, rfl⟩

theorem kept_bdrop (b : Ptr) (s : State β) : Kept s (bdrop b s) := by
  unfold bdrop
  dsimp only
  split
  · exact kept_update rfl ⟨rfl, rfl, fun h => h⟩ ⟨rfl, rfl⟩
  · exact kept_update rfl ⟨rfl, rfl, fun h => h⟩ ⟨rfl, rfl⟩

/-- A task inside a call moves; it leaves its buffer only at the end of `brelse`. -/
theorem advance_cases (hstep : advance h k b s pos = .ok t) :
    ∃ u pc, Kept s u ∧ t = u.goto h pc ∧
      (pos ≠ .release → ∃ pos', pc = .use k b pos' ∧ pos' ≠ .release) := by
  cases pos with
  | acquire =>
    simp only [advance] at hstep
    split at hstep
    · cases hstep
      refine ⟨_, _, ?_, rfl, fun _ => ⟨.test, rfl, nofun⟩⟩
      exact kept_update rfl ⟨rfl, rfl, fun h => h⟩ ⟨rfl, rfl⟩
    · cases hstep
  | test =>
    simp only [advance] at hstep
    split at hstep
    · cases hstep
      exact ⟨s, _, Kept.refl s, rfl, fun _ => ⟨.held, rfl, nofun⟩⟩
    · obtain ⟨u, hu, rfl⟩ := exists_of_map_eq_ok hstep
      exact ⟨u, _, kept_iderw hu, rfl, fun _ => ⟨.io, rfl, nofun⟩⟩
  | io =>
    simp only [advance] at hstep
    split at hstep
    · cases hstep
      exact ⟨s, _, Kept.refl s, rfl, fun _ => ⟨.held, rfl, nofun⟩⟩
    · cases hstep
  | release =>
    cases hstep
    exact ⟨_, _, kept_bdrop b s, rfl, fun hne => absurd rfl hne⟩
  | held => cases hstep
  | modified => cases hstep

theorem kept_brelse (hrel : brelse h b s = .ok t) : Kept s t := by
  unfold brelse at hrel
  split at hrel
  · cases hrel
  · cases hrel
    exact kept_update rfl ⟨rfl, rfl, fun h => h⟩ ⟨rfl, rfl⟩

end Laboratorio.Xv6.Bio
