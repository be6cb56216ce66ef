import Laboratorio.Xv6.Uvm

/-!
# The memory of a process

`Image g m d sz guard` says that the directory `d` maps, for the user, exactly the pages below
`PGROUNDUP(sz)`, that the user may access all of them but the page number `guard`, and that its kernel
half is the one of `setupkvm`.  `allocuvm`, `deallocuvm`, `clearpteu` and `copyuvm` turn images into
images.
-/

namespace Laboratorio.Xv6.Vm

open Laboratorio.Lib TwoLevel

variable {g : Geometry} {ds held : Multiset Page} {m m' : Mem} {d : Page} {sz newsz : Nat}
  {guard : Option Nat}

/-- The present user pages are those below `PGROUNDUP(sz)`. -/
def Exact (page : Page → Nat → Pte) (d : Page) (sz : Nat) : Prop :=
  ∀ va < KERNBASE, (pte page d va).isSome ↔ va < PGROUNDUP sz

structure Image (g : Geometry) (page : Page → Nat → Pte) (d : Page) (sz : Nat) (guard : Option Nat) :
    Prop where
  kern : g.Kernel page d
  size : sz ≤ KERNBASE
  exact : Exact page d sz
  access : ∀ va < KERNBASE, ∀ e, pte page d va = some e → (e.U = true ↔ guard ≠ some (va / PGSIZE))
  below : ∀ v, guard = some v → v * PGSIZE < PGROUNDUP sz

theorem isSome_user (m : Mem) (d : Page) (va : Nat) : (user m d va).isSome = (pte m.page d va).isSome :=
  Option.isSome_map

theorem pte_of_user {u : Option (Pte × (Nat → UInt8))} {va : Nat} (h : user m d va = u) :
    pte m.page d va = u.map Prod.fst := by
  rw [← h]
  unfold user
  cases pte m.page d va <;> rfl

theorem Blank.image (h : Blank g m d) : Image g m.page d 0 none := by
  have hnone : ∀ va < KERNBASE, pte m.page d va = none := fun va hva => user_eq_none.1 (h.empty va hva)
  refine ⟨h.kern, Nat.zero_le _, fun va hva => ?_, fun va hva e he => ?_, nofun⟩
  · rw [hnone va hva]
    simp [PGROUNDUP, PGSIZE]
  · rw [hnone va hva] at he
    cases he

theorem Image.congr (h : Image g m.page d sz guard) (hkern : g.Kernel m'.page d)
    (hpte : ∀ va < KERNBASE, pte m'.page d va = pte m.page d va) : Image g m'.page d sz guard := by
  refine ⟨hkern, h.size, fun va hva => ?_, fun va hva e he => ?_, h.below⟩
  · rw [hpte va hva]
    exact h.exact va hva
  · rw [hpte va hva] at he
    exact h.access va hva e he

theorem Image.kept (h : Image g m.page d sz guard) (hkept : Kept ds held m m') (hd : d ∈ ds) :
    Image g m'.page d sz guard :=
  h.congr (hkept.kern hd h.kern) fun _ _ => hkept.pte hd

theorem Image.first {p : Page} {b : Nat → UInt8} (h : Image g m.page d 0 none)
    (hedit : Edited d ds held m m' (put (user m d) 0 (some (⟨p, true, true, true, 0⟩, b)))) :
    Image g m'.page d PGSIZE none := by
  have huser : ∀ va < KERNBASE, user m' d va = if va < PGSIZE then some (⟨p, true, true, true, 0⟩, b) else none := by
    intro va hva
    rw [hedit.mapped va hva, put]
    split
    · rw [if_pos]
      unfold PGSIZE at *
      omega
    · rw [if_neg, user_eq_none, ← Option.not_isSome_iff_eq_none, h.exact va hva]
      · simp [PGROUNDUP, PGSIZE]
      · unfold PGSIZE at *
        omega
  refine ⟨hedit.kern h.kern, by decide, fun va hva => ?_, fun va hva e he => ?_, by simp⟩
  · have hround : PGROUNDUP PGSIZE = PGSIZE := by decide
    rw [← isSome_user, huser va hva, hround]
    split <;> simp [*]
  · rw [pte_of_user (huser va hva)] at he
    split at he
    · cases he
      simp
    · cases he

/-! ## Growing and shrinking -/

theorem Exact.absent (h : Exact m.page d sz) {va : Nat} (hlo : PGROUNDUP sz ≤ va) (hva : va < KERNBASE) :
    user m d va = none := by
  rw [user_eq_none, ← Option.not_isSome_iff_eq_none, h va hva]
  omega

theorem Exact.present (h : Exact m.page d sz) {va : Nat} (hlt : va < PGROUNDUP sz) (hva : va < KERNBASE) :
    (user m d va).isSome := by
  rw [isSome_user, h va hva]
  exact hlt

/-- After a failure of `allocuvm` everything is as before. -/
theorem Exact.undo {hi : Nat} (h : Exact m.page d sz) (hcut : Edited d ds held m m' (cut (user m d) (PGROUNDUP sz) hi)) :
    Edited d ds held m m' (user m d) := by
  refine hcut.congr fun va hva => ?_
  unfold cut
  split
  · rename_i hrange
    exact (h.absent hrange.1 hva).symm
  · rfl

theorem Exact.grow (h : Exact m.page d sz) (hle : sz ≤ newsz)
    (hgrown : Grown Zeroed d ds held (PGROUNDUP sz) (PGROUNDUP newsz) m m') : Exact m'.page d newsz := by
  have hmono := PGROUNDUP_mono hle
  intro va hva
  rw [← isSome_user]
  by_cases hin : PGROUNDUP sz ≤ va ∧ va < PGROUNDUP newsz
  · obtain ⟨x, hx, -⟩ := hgrown.filled va hin.1 hin.2 hva
    simp [hx, hin.2]
  · rw [hgrown.edited.mapped va hva, if_neg hin, isSome_user, h va hva]
    omega

theorem Exact.shrink (h : Exact m.page d sz) (hle : newsz ≤ sz)
    (hcut : Edited d ds held m m' (cut (user m d) (PGROUNDUP newsz) (PGROUNDUP sz))) :
    Exact m'.page d newsz := by
  have hmono := PGROUNDUP_mono hle
  intro va hva
  rw [← isSome_user, hcut.mapped va hva, cut]
  split
  · rename_i hrange
    simp only [Option.isSome_none, Bool.false_eq_true, false_iff]
    omega
  · rw [isSome_user, h va hva]
    omega

theorem Image.undo {hi : Nat} (h : Image g m.page d sz guard)
    (hcut : Edited d ds held m m' (cut (user m d) (PGROUNDUP sz) hi)) : Image g m'.page d sz guard := by
  have hsame := h.exact.undo hcut
  refine h.congr (hcut.kern h.kern) fun va hva => ?_
  rw [pte_of_user (hsame.mapped va hva), ← pte_of_user rfl]

theorem Image.grow (h : Image g m.page d sz guard) (hnew : newsz < KERNBASE)
    (hgrown : Grown Zeroed d ds held (PGROUNDUP sz) (PGROUNDUP newsz) m m') :
    Image g m'.page d (max sz newsz) guard := by
  rcases Nat.lt_or_ge newsz sz with hlt | hle
  · -- nothing has been asked for
    have hmono := PGROUNDUP_mono hlt.le
    rw [max_eq_left hlt.le]
    refine h.congr (hgrown.edited.kern h.kern) fun va hva => ?_
    rw [pte_of_user (hgrown.edited.mapped va hva), if_neg (by omega), ← pte_of_user rfl]
  · rw [max_eq_right hle]
    have hmono := PGROUNDUP_mono hle
    refine ⟨hgrown.edited.kern h.kern, hnew.le, h.exact.grow hle hgrown, fun va hva e he => ?_,
      fun v hv => (h.below v hv).trans_le hmono⟩
    by_cases hin : PGROUNDUP sz ≤ va ∧ va < PGROUNDUP newsz
    · obtain ⟨x, hx, p, rfl⟩ := hgrown.filled va hin.1 hin.2 hva
      rw [pte_of_user hx] at he
      cases he
      simp only [true_iff]
      intro hg
      have := h.below _ hg
      unfold PGROUNDUP PGSIZE at *
      omega
    · rw [pte_of_user (hgrown.edited.mapped va hva), if_neg hin, ← pte_of_user rfl] at he
      exact h.access va hva e he

/-- The guard page, if it is still there after shrinking to `sz`. -/
def guardBelow (sz : Nat) (guard : Option Nat) : Option Nat := guard.filter fun v => decide (v * PGSIZE < sz)

theorem Image.shrink (h : Image g m.page d sz guard) (hle : newsz ≤ sz)
    (hcut : Edited d ds held m m' (cut (user m d) (PGROUNDUP newsz) (PGROUNDUP sz))) :
    Image g m'.page d newsz (guardBelow newsz guard) := by
  have hmono := PGROUNDUP_mono hle
  refine ⟨hcut.kern h.kern, hle.trans h.size, h.exact.shrink hle hcut, fun va hva e he => ?_,
    fun v hv => ?_⟩
  · rw [pte_of_user (hcut.mapped va hva), cut] at he
    split at he
    · cases he
    · rename_i hrange
      rw [← pte_of_user rfl] at he
      have hlt : va < PGROUNDUP sz := by
        rw [← h.exact va hva, he]
        rfl
      rw [h.access va hva e he]
      refine not_congr ?_
      unfold guardBelow
      rw [Option.filter_eq_some_iff]
      refine ⟨fun hg => ⟨hg, ?_⟩, fun hg => hg.1⟩
      refine decide_eq_true ?_
      unfold PGROUNDUP PGSIZE at *
      omega
  · unfold guardBelow at hv
    rw [Option.filter_eq_some_iff] at hv
    exact (of_decide_eq_true hv.2).trans_le (le_PGROUNDUP _)

theorem guardBelow_of_le (h : Image g m.page d sz guard) (hle : sz ≤ newsz) :
    guardBelow newsz guard = guard := by
  unfold guardBelow
  cases guard with
  | none => rfl
  | some v =>
    refine Option.filter_eq_some_iff.2 ⟨rfl, decide_eq_true ?_⟩
    have := h.below v rfl
    unfold PGROUNDUP PGSIZE at *
    omega

theorem Image.clear {uva : Nat} (h : Image g m.page d sz none) (huva : uva < PGROUNDUP sz)
    (haligned : uva % PGSIZE = 0)
    (hedit : Edited d ds held m m'
      (put (user m d) uva ((user m d uva).map (Prod.map Pte.clearU id)))) :
    Image g m'.page d sz (some (uva / PGSIZE)) := by
  have hk : uva < KERNBASE := huva.trans_le (PGROUNDUP_le_KERNBASE h.size)
  refine ⟨hedit.kern h.kern, h.size, fun va hva => ?_, fun va hva e he => ?_, fun v hv => ?_⟩
  · rw [← isSome_user, hedit.mapped va hva, put, ← h.exact va hva, ← isSome_user]
    split
    · rename_i hsame
      rw [Option.isSome_map, user_of_same (lt_of_user hk) (lt_of_user hva) hsame]
    · rfl
  · rw [pte_of_user (hedit.mapped va hva), put] at he
    split at he
    · rename_i hsame
      obtain ⟨⟨e', c⟩, hx⟩ := Option.isSome_iff_exists.1 (h.exact.present huva hk)
      rw [hx] at he
      cases he
      simp [Pte.clearU, hsame]
    · rename_i hsame
      rw [← pte_of_user rfl] at he
      have := h.access va hva e he
      simp only [ne_eq, reduceCtorEq, not_false_eq_true, iff_true] at this
      simp [this, Ne.symm hsame]
  · cases hv
    unfold PGSIZE at *
    omega

theorem Copied.kept {u : Mapping} (h : Copied g u sz m d) (hkept : Kept ds held m m') (hd : d ∈ ds) :
    Copied g u sz m' d := by
  refine ⟨hkept.kern hd h.kern, fun va hlt hva => ?_, fun va hge hva => ?_⟩
  · rw [hkept.user hd hva]
    exact h.below va hlt hva
  · rw [hkept.user hd hva]
    exact h.above va hge hva

theorem Copied.image {d' : Page} (h : Copied g (user m d) sz m' d')
    (himg : Image g m.page d sz guard) : Image g m'.page d' sz guard := by
  refine ⟨h.kern, himg.size, fun va hva => ?_, fun va hva e he => ?_, himg.below⟩
  · rw [← isSome_user]
    rcases Nat.lt_or_ge va (PGROUNDUP sz) with hlt | hge
    · obtain ⟨x, hx, -⟩ := h.below va hlt hva
      simp [hx, hlt]
    · simp [h.above va hge hva, hge]
  · rcases Nat.lt_or_ge va (PGROUNDUP sz) with hlt | hge
    · obtain ⟨x, hx, e', c, p, hu, rfl⟩ := h.below va hlt hva
      rw [pte_of_user hx] at he
      cases he
      exact himg.access va hva e' (by rw [pte_of_user hu]; rfl)
    · rw [pte_of_user (h.above va hge hva)] at he
      cases he

end Laboratorio.Xv6.Vm
