import Laboratorio.Xv6.Bio.Cache

/-!
# The list of buffers, the reference counts and the locks
-/

namespace Laboratorio.Xv6.Bio

open Laboratorio.Lib DList Function

variable {β : Type}

/-- The buffer a task refers to. -/
def Pc.ptr : Pc → Option Ptr
  | .out => none
  | .use _ b _ => some b

/-- The list is a ring of all buffers, `refcnt` counts the tasks at a buffer, no block of device 1 is in
two buffers, and a sleep lock is held by a task inside the part it protects. -/
structure Shape (s : State β) : Prop where
  ring : ∃ l, Ring s.links l ∧ ∀ b, b ∈ l
  refs : ∀ b, {h | (s.pc h).ptr = some b}.encard = (s.buf b).refcnt
  ident : ∀ h k b pos, s.pc h = .use k b pos →
    (s.buf b).dev = Fs.ROOTDEV ∧ (s.buf b).blockno = k
  unique : ∀ b c, (s.buf b).dev = Fs.ROOTDEV → (s.buf c).dev = Fs.ROOTDEV →
    (s.buf b).blockno = (s.buf c).blockno → b = c
  lock : ∀ h b, (s.buf b).lock = some h ↔ ∃ k pos, s.pc h = .use k b pos ∧ pos.locked = true

variable {s t : State β} {h g : Task} {k : Nat} {b c : Ptr} {pos : Pos}

/-! ## The list -/

theorem ring_foldl {l m : List Ptr} {s : Links Ptr} (hs : Ring s m) (hl : (l.reverse ++ m).Nodup) :
    Ring (l.foldl (fun s b => insertFront b s) s) (l.reverse ++ m) := by
  induction l generalizing s m with
  | nil => exact hs
  | cons b l ih =>
    rw [List.reverse_cons, List.append_assoc, List.singleton_append] at hl ⊢
    have hb : b ∉ m := (List.nodup_cons.1 (List.nodup_append.1 hl).2.1).1
    exact ih (hs.insertFront hb) hl

theorem ring_binit : Ring binit (List.finRange NBUF).reverse := by
  have hnodup : ((List.finRange NBUF).reverse ++ []).Nodup := by
    rw [List.append_nil]
    exact List.nodup_reverse.2 (List.nodup_finRange NBUF)
  have := ring_foldl ring_empty hnodup
  rwa [List.append_nil] at this

theorem Shape.walk_next (hs : Shape s) (p : Ptr → Bool) :
    (∃ b, walk s.links.next p NBUF (s.links.next none) = some (some b) ∧ p b = true) ∨
      walk s.links.next p NBUF (s.links.next none) = some none ∧ ∀ b, p b = false := by
  obtain ⟨l, hl, hmem⟩ := hs.ring
  exact hl.walk_cases hmem p (by simpa using hl.nodup.length_le_card)

theorem Shape.walk_prev (hs : Shape s) (p : Ptr → Bool) :
    (∃ b, walk s.links.prev p NBUF (s.links.prev none) = some (some b) ∧ p b = true) ∨
      walk s.links.prev p NBUF (s.links.prev none) = some none ∧ ∀ b, p b = false := by
  obtain ⟨l, hl, hmem⟩ := hs.ring
  apply hl.flip.walk_cases (fun b => List.mem_reverse.2 (hmem b)) p
  simpa using hl.nodup.length_le_card

/-- What `bget` does: the block is in a buffer already, or an unused buffer is given to it. -/
theorem Shape.bget_cases (hs : Shape s) (k : Nat) :
    (∃ b, s.cached Fs.ROOTDEV k b = true ∧
      bget Fs.ROOTDEV k s = .ok (b, s.setBuf b { s.buf b with refcnt := (s.buf b).refcnt + 1 })) ∨
    ((∀ b, s.cached Fs.ROOTDEV k b = false) ∧
      ((∃ b, s.unused b = true ∧ bget Fs.ROOTDEV k s = .ok (b, s.setBuf b
        { s.buf b with
          dev := Fs.ROOTDEV, blockno := k, valid := false, dirty := false, refcnt := 1 })) ∨
      ((∀ b, s.unused b = false) ∧ bget Fs.ROOTDEV k s = .error .noBuffers))) := by
  unfold bget recycle
  rcases hs.walk_next (s.cached Fs.ROOTDEV k) with ⟨b, hw, hb⟩ | ⟨hw, hno⟩
  · rw [hw]
    exact .inl ⟨b, hb, rfl⟩
  · rw [hw]
    refine .inr ⟨hno, ?_⟩
    rcases hs.walk_prev s.unused with ⟨b, hw, hb⟩ | ⟨hw, hno⟩
    · rw [hw]
      exact .inl ⟨b, hb, rfl⟩
    · rw [hw]
      exact .inr ⟨hno, rfl⟩

/-! ## Shape -/

theorem Shape.holder_unique (hs : Shape s) (hlock : (s.buf b).lock = none ∨ (s.buf b).lock = some h)
    (hg : s.pc g = .use k b pos) (hpos : pos.locked = true) : g = h := by
  have := (hs.lock g b).2 ⟨k, pos, hg, hpos⟩
  rcases hlock with hl | hl
  · rw [hl] at this
    cases this
  · rw [hl] at this
    exact (Option.some.inj this).symm

theorem Shape.move {pos' : Pos} (hs : Shape s) (hpc : s.pc h = .use k b pos)
    (hlock : (s.buf b).lock = none ∨ (s.buf b).lock = some h)
    (hlinks : t.links = s.links) (hpc' : t.pc = update s.pc h (.use k b pos'))
    (hbuf : ∀ c, (t.buf c).dev = (s.buf c).dev ∧ (t.buf c).blockno = (s.buf c).blockno ∧
      (t.buf c).refcnt = (s.buf c).refcnt)
    (hb : (t.buf b).lock = if pos'.locked then some h else none)
    (hc : ∀ c, c ≠ b → (t.buf c).lock = (s.buf c).lock) : Shape t := by
  have hptr : ∀ g, (t.pc g).ptr = (s.pc g).ptr := by
    intro g
    rw [hpc']
    by_cases hg : g = h
    · rw [hg, hpc, update_self]
      rfl
    · rw [update_of_ne hg]
  constructor
  · rw [hlinks]
    exact hs.ring
  · intro c
    simp only [hptr, (hbuf c).2.2]
    exact hs.refs c
  · intro g l c q hg
    rw [(hbuf c).1, (hbuf c).2.1]
    rw [hpc'] at hg
    by_cases hgh : g = h
    · rw [hgh, update_self] at hg
      cases hg
      exact hs.ident h k b pos hpc
    · rw [update_of_ne hgh] at hg
      exact hs.ident g l c q hg
  · intro c d hcd hdd hno
    rw [(hbuf c).1] at hcd
    rw [(hbuf d).1] at hdd
    rw [(hbuf c).2.1, (hbuf d).2.1] at hno
    exact hs.unique c d hcd hdd hno
  · intro g c
    rw [hpc']
    by_cases hgh : g = h
    · subst hgh
      rw [update_self]
      by_cases hcb : c = b
      · subst hcb
        rw [hb]
        cases hp : pos'.locked with
        | true =>
          simp only [if_true, true_iff]
          exact ⟨k, pos', rfl, hp⟩
        | false =>
          constructor
          · nofun
          · rintro ⟨l, q, hq, hq'⟩
            cases hq
            rw [hp] at hq'
            cases hq'
      · rw [hc c hcb, hs.lock g c, hpc]
        constructor
        · rintro ⟨l, q, hq, -⟩
          cases hq
          exact absurd rfl hcb
        · rintro ⟨l, q, hq, -⟩
          cases hq
          exact absurd rfl hcb
    · rw [update_of_ne hgh]
      by_cases hcb : c = b
      · subst hcb
        rw [hb]
        constructor
        · intro hl
          split at hl
          · exact absurd (Option.some.inj hl).symm hgh
          · cases hl
        · rintro ⟨l, q, hq, hq'⟩
          exact absurd (hs.holder_unique hlock hq hq') hgh
      · rw [hc c hcb]
        exact hs.lock g c

theorem Shape.refcnt_ne_zero (hs : Shape s) (hg : s.pc g = .use k b pos) :
    (s.buf b).refcnt ≠ 0 := by
  intro h0
  have hrefs := hs.refs b
  rw [h0] at hrefs
  have hmem : g ∈ {g | (s.pc g).ptr = some b} := by
    rw [Set.mem_ofPred_eq, hg]
    rfl
  rw [Set.encard_eq_zero.1 hrefs] at hmem
  exact hmem

theorem refs_enter (hpc : s.pc h = .out) (c : Ptr) :
    {g | (update s.pc h (.use k b pos) g).ptr = some c} =
      if c = b then insert h {g | (s.pc g).ptr = some c} else {g | (s.pc g).ptr = some c} := by
  ext g
  by_cases hg : g = h
  · subst hg
    by_cases hc : c = b
    · simp [hc, Pc.ptr]
    · simp [hc, Pc.ptr, hpc, Ne.symm hc]
  · by_cases hc : c = b
    · simp [hc, hg]
    · simp [hc, hg]

/-- `bget` gives a task the buffer `b`, which may have been made the buffer of block `k` for it. -/
theorem Shape.enter (hs : Shape s) (hpc : s.pc h = .out) (hlinks : t.links = s.links)
    (hpc' : t.pc = update s.pc h (.use k b .acquire))
    (hb : (t.buf b).dev = Fs.ROOTDEV ∧ (t.buf b).blockno = k ∧
      (t.buf b).refcnt = (s.buf b).refcnt + 1 ∧ (t.buf b).lock = (s.buf b).lock)
    (hc : ∀ c, c ≠ b → t.buf c = s.buf c)
    (hk : ∀ c, c ≠ b → (s.buf c).dev = Fs.ROOTDEV → (s.buf c).blockno ≠ k)
    (hident : (s.buf b).refcnt ≠ 0 → (s.buf b).dev = Fs.ROOTDEV ∧ (s.buf b).blockno = k) :
    Shape t := by
  have hout : ∀ c, h ∉ {g | (s.pc g).ptr = some c} := by
    intro c hmem
    rw [Set.mem_ofPred_eq, hpc] at hmem
    cases hmem
  constructor
  · rw [hlinks]
    exact hs.ring
  · intro c
    rw [hpc', refs_enter hpc]
    by_cases hcb : c = b
    · subst hcb
      rw [if_pos rfl, Set.encard_insert_of_notMem (hout c), hs.refs, hb.2.2.1]
      rfl
    · rw [if_neg hcb, hs.refs, hc c hcb]
  · intro g l c q hg
    rw [hpc'] at hg
    by_cases hgh : g = h
    · rw [hgh, update_self] at hg
      cases hg
      exact ⟨hb.1, hb.2.1⟩
    · rw [update_of_ne hgh] at hg
      by_cases hcb : c = b
      · subst hcb
        -- another task refers to `b` already
        have hne := hs.refcnt_ne_zero hg
        have := hs.ident g l c q hg
        exact ⟨hb.1, hb.2.1.trans ((hident hne).2.symm.trans this.2)⟩
      · rw [hc c hcb]
        exact hs.ident g l c q hg
  · intro c d hcd hdd hno
    by_cases hcb : c = b
    · subst hcb
      by_cases hdc : d = c
      · exact hdc.symm
      · rw [hc d hdc] at hdd hno
        exact absurd (hno.symm.trans hb.2.1) (hk d hdc hdd)
    · rw [hc c hcb] at hcd hno
      by_cases hdb : d = b
      · subst hdb
        exact absurd (hno.trans hb.2.1) (hk c hcb hcd)
      · rw [hc d hdb] at hdd hno
        exact hs.unique c d hcd hdd hno
  · intro g c
    have hlock : (t.buf c).lock = (s.buf c).lock := by
      by_cases hcb : c = b
      · rw [hcb]
        exact hb.2.2.2
      · rw [hc c hcb]
    rw [hlock, hs.lock, hpc']
    by_cases hgh : g = h
    · rw [hgh, hpc, update_self]
      constructor
      · rintro ⟨l, q, hq, -⟩
        cases hq
      · rintro ⟨l, q, hq, hq'⟩
        cases hq
        cases hq'
    · rw [update_of_ne hgh]

theorem refs_leave (hpc : s.pc h = .use k b pos) (c : Ptr) :
    {g | (update s.pc h .out g).ptr = some c} =
      if c = b then {g | (s.pc g).ptr = some c} \ {h} else {g | (s.pc g).ptr = some c} := by
  ext g
  by_cases hg : g = h
  · subst hg
    by_cases hc : c = b
    · simp [hc, Pc.ptr]
    · simp [hc, Pc.ptr, hpc, Ne.symm hc]
  · by_cases hc : c = b
    · simp [hc, hg]
    · simp [hc, hg]

theorem Shape.leave (hs : Shape s) (hpc : s.pc h = .use k b .release) :
    Shape ((bdrop b s).goto h .out) := by
  have hbuf : (bdrop b s).buf = update s.buf b
      { s.buf b with refcnt := (s.buf b).refcnt - 1 } := by
    unfold bdrop
    dsimp only
    split <;> rfl
  have hpcs : (bdrop b s).pc = s.pc := by
    unfold bdrop
    dsimp only
    split <;> rfl
  have hkeep : ∀ c, ((bdrop b s).buf c).dev = (s.buf c).dev ∧
      ((bdrop b s).buf c).blockno = (s.buf c).blockno ∧
      ((bdrop b s).buf c).lock = (s.buf c).lock := by
    intro c
    rw [hbuf]
    by_cases hc : c = b
    · rw [hc, update_self]
      exact ⟨rfl, rfl, rfl⟩
    · rw [update_of_ne hc]
      exact ⟨rfl, rfl, rfl⟩
  constructor
  · show ∃ l, Ring (bdrop b s).links l ∧ ∀ b, b ∈ l
    obtain ⟨l, hl, hmem⟩ := hs.ring
    unfold bdrop
    dsimp only
    split
    · refine ⟨b :: l.erase b, hl.moveToFront (hmem b), fun c => ?_⟩
      by_cases hc : c = b
      · rw [hc]
        exact List.mem_cons_self
      · exact List.mem_cons_of_mem b ((List.mem_erase_of_ne hc).2 (hmem c))
    · exact ⟨l, hl, hmem⟩
  · intro c
    have hset := refs_leave hpc c
    rw [← hpcs] at hset
    simp only [State.goto]
    rw [hset, hbuf, hpcs]
    by_cases hc : c = b
    · subst hc
      have hmem : h ∈ {g | (s.pc g).ptr = some c} := by
        rw [Set.mem_ofPred_eq, hpc]
        rfl
      have hne := hs.refcnt_ne_zero hpc
      have hadd := Set.encard_sdiff_singleton_add_one hmem
      rw [hs.refs] at hadd
      rw [if_pos rfl, update_self]
      have hsub : (((s.buf c).refcnt - 1 : ℕ) : ℕ∞) + 1 = ((s.buf c).refcnt : ℕ∞) := by
        exact_mod_cast Nat.sub_add_cancel (Nat.pos_of_ne_zero hne)
      exact WithTop.add_right_cancel ENat.one_ne_top (hadd.trans hsub.symm)
    · rw [if_neg hc, update_of_ne hc]
      exact hs.refs c
  · intro g l c q hg
    simp only [State.goto, hpcs] at hg
    have hgh : g ≠ h := by
      intro he
      rw [he, update_self] at hg
      cases hg
    rw [update_of_ne hgh] at hg
    show ((bdrop b s).buf c).dev = _ ∧ ((bdrop b s).buf c).blockno = _
    rw [(hkeep c).1, (hkeep c).2.1]
    exact hs.ident g l c q hg
  · intro c d hc hd hno
    simp only [State.goto, (hkeep c).1, (hkeep d).1, (hkeep c).2.1, (hkeep d).2.1] at hc hd hno
    exact hs.unique c d hc hd hno
  · intro g c
    simp only [State.goto, (hkeep c).2.2, hpcs]
    rw [hs.lock]
    by_cases hgh : g = h
    · rw [hgh, hpc, update_self]
      constructor
      · rintro ⟨l, q, hq, hq'⟩
        cases hq
        cases hq'
      · rintro ⟨l, q, hq, -⟩
        cases hq
    · rw [update_of_ne hgh]

/-- Steps that the list, the counts, the blocks and the locks do not see. -/
theorem Shape.congr (hs : Shape s) (hlinks : t.links = s.links) (hpc : t.pc = s.pc)
    (hbuf : ∀ c, (t.buf c).dev = (s.buf c).dev ∧ (t.buf c).blockno = (s.buf c).blockno ∧
      (t.buf c).refcnt = (s.buf c).refcnt ∧ (t.buf c).lock = (s.buf c).lock) : Shape t := by
  constructor
  · rw [hlinks]
    exact hs.ring
  · intro c
    rw [hpc, (hbuf c).2.2.1]
    exact hs.refs c
  · intro g l c q hg
    rw [hpc] at hg
    rw [(hbuf c).1, (hbuf c).2.1]
    exact hs.ident g l c q hg
  · intro c d hc hd hno
    rw [(hbuf c).1] at hc
    rw [(hbuf d).1] at hd
    rw [(hbuf c).2.1, (hbuf d).2.1] at hno
    exact hs.unique c d hc hd hno
  · intro g c
    rw [hpc, (hbuf c).2.2.2]
    exact hs.lock g c

end Laboratorio.Xv6.Bio
