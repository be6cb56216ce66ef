import Laboratorio.Xv6.Uvm

/-!
# Which pages `deallocuvm` frees

`dealloc32` is `deallocuvm` with its arithmetic on 32 bits: where a page table is missing, the loop
variable goes to `PGADDR(PDX(a) + 1, 0, 0) - PGSIZE` and is then incremented.  It returns nothing when
`n` turns have not been enough.  `dealloc32_eq` says that up to `KERNBASE` nothing wraps around, and
that it is the `deallocuvm` that the rest of the development uses.

`Frames` is what is asked of the page directory: its present user entries map distinct frames that
`kfree` takes, none of them the directory or one of its tables.  `Released S m m'` says that exactly
the entries at the addresses in `S` have been cleared and their frames given to `kfree`, each once.
-/

namespace Laboratorio.Xv6.Vm

open Laboratorio.Lib

def PGADDR (d t o : Nat) : Nat := (d <<< 22 ||| t <<< 12 ||| o) % 2 ^ 32

/-- The loop of `deallocuvm`. -/
def dealloc32Loop (g : Geometry) (pgdir : Page) (oldsz : Nat) : (n a : Nat) → M (Option Unit)
  | 0, _ => pure none
  | n + 1, a =>
    if a < oldsz then do
      match ← walkpgdir pgdir a false with
      | none =>
        let a := (PGADDR (PDX a + 1) 0 0 + 2 ^ 32 - PGSIZE) % 2 ^ 32
        dealloc32Loop g pgdir oldsz n ((a + PGSIZE) % 2 ^ 32)
      | some (t, j) => do
        let m ← get
        let pte := m.page t j
        if pte.P then
          if pte.ppn = 0 then throw .kfree
          else do
            kfree g pte.ppn
            store t j .zero
            dealloc32Loop g pgdir oldsz n ((a + PGSIZE) % 2 ^ 32)
        else dealloc32Loop g pgdir oldsz n ((a + PGSIZE) % 2 ^ 32)
    else pure (some ())

def dealloc32 (g : Geometry) (pgdir : Page) (n oldsz newsz : Nat) : M (Option Nat) :=
  if newsz ≥ oldsz then pure (some oldsz)
  else do
    match ← dealloc32Loop g pgdir oldsz n ((newsz + PGSIZE - 1) % 2 ^ 32 / PGSIZE * PGSIZE) with
    | none => pure none
    | some () => pure (some newsz)

theorem PGADDR_table (i : Nat) : PGADDR i 0 0 = i * 2 ^ 22 % 2 ^ 32 := by
  simp [PGADDR, Nat.shiftLeft_eq]

/-- The jump ends at the next table, and below `KERNBASE` it does not wrap around. -/
theorem jump_eq {a : Nat} (ha : a < KERNBASE) :
    ((PGADDR (PDX a + 1) 0 0 + 2 ^ 32 - PGSIZE) % 2 ^ 32 + PGSIZE) % 2 ^ 32 = (PDX a + 1) * 2 ^ 22 := by
  rw [PGADDR_table]
  unfold PDX PGSIZE KERNBASE at *
  omega

variable {g : Geometry} {m m1 m2 m' : Mem} {d p t : Page} {a oldsz newsz j n k : Nat} {e : Pte}

/-- Every turn goes on by a page at least, so both loops end when `oldsz` is `k` pages away. -/
theorem dealloc32Loop_eq (hold : oldsz ≤ KERNBASE) (k : Nat) : ∀ {n a : Nat}, a % PGSIZE = 0 →
    oldsz ≤ a + k * PGSIZE → k + 1 ≤ n →
    dealloc32Loop g d oldsz n a = some <$> deallocLoop g d oldsz k a := by
  induction k with
  | zero =>
    intro n a _ ha hn
    obtain ⟨n, rfl⟩ := Nat.exists_eq_add_of_le' hn
    unfold dealloc32Loop deallocLoop
    rw [if_neg (by omega)]
    rfl
  | succ k ih =>
    intro n a hmod ha hn
    obtain ⟨n, rfl⟩ : ∃ l, n = l + 1 := Nat.exists_eq_succ_of_ne_zero (by omega)
    unfold dealloc32Loop deallocLoop
    by_cases hlt : a < oldsz
    · have hak : a < KERNBASE := hlt.trans_le hold
      have hstep : (a + PGSIZE) % 2 ^ 32 = a + PGSIZE := by
        unfold PGSIZE KERNBASE at *
        omega
      rw [Nat.succ_mul] at ha
      have hnext : dealloc32Loop g d oldsz n (a + PGSIZE) = some <$> deallocLoop g d oldsz k (a + PGSIZE) :=
        ih (by rw [Nat.add_mod_right, hmod]) (by omega) (by omega)
      have hjump : dealloc32Loop g d oldsz n ((PDX a + 1) * 2 ^ 22) =
          some <$> deallocLoop g d oldsz k ((PDX a + 1) * 2 ^ 22) := by
        refine ih ?_ ?_ (by omega)
        · unfold PGSIZE
          omega
        · unfold PDX PGSIZE KERNBASE at *
          omega
      simp only [hlt, if_true, jump_eq hak, hstep, map_bind]
      refine bind_congr fun r => ?_
      rcases r with _ | ⟨t, j⟩
      · exact hjump
      · simp only [map_bind]
        refine bind_congr fun m => ?_
        split
        · split
          · rfl
          · simp only [map_bind, hnext]
        · exact hnext
    · rw [if_neg hlt, if_neg hlt]
      rfl

theorem dealloc32_eq (hold : oldsz ≤ KERNBASE) (hn : oldsz / PGSIZE + 2 ≤ n) :
    dealloc32 g d n oldsz newsz = some <$> deallocuvm g d oldsz newsz := by
  unfold dealloc32 deallocuvm
  split
  · rfl
  · rename_i hlt
    have hup : (newsz + PGSIZE - 1) % 2 ^ 32 / PGSIZE * PGSIZE = PGROUNDUP newsz := by
      unfold PGROUNDUP PGSIZE KERNBASE at *
      omega
    have hfuel : oldsz ≤ PGROUNDUP newsz + (oldsz / PGSIZE + 1) * PGSIZE := by
      unfold PGSIZE
      omega
    rw [hup, dealloc32Loop_eq hold (oldsz / PGSIZE + 1) (PGROUNDUP_mod newsz) hfuel hn]
    simp only [map_bind, bind_map_left, map_pure]

/-! ## The pages that are freed -/

/-- The present user entries map distinct frames that `kfree` takes, none of them the directory or one
of its tables. -/
structure Frames (g : Geometry) (page : Page → Nat → Pte) (d : Page) : Prop where
  valid : ∀ {a e}, a < KERNBASE → pte page d a = some e → g.first ≤ e.ppn ∧ e.ppn < g.top
  distinct : ∀ {a b e e'}, a < KERNBASE → b < KERNBASE → pte page d a = some e → pte page d b = some e' →
    e.ppn = e'.ppn → a / PGSIZE = b / PGSIZE
  apart : ∀ {a e}, a < KERNBASE → pte page d a = some e →
    e.ppn ≠ d ∧ ∀ i < 1024, view page d i ≠ some e.ppn

/-- The page addresses in `[lo, hi)` with a present entry. -/
structure Mapped (page : Page → Nat → Pte) (d : Page) (lo hi a : Nat) : Prop where
  ge : lo ≤ a
  lt : a < hi
  aligned : a % PGSIZE = 0
  present : (pte page d a).isSome

/-- The frame that is mapped at `a`. -/
def frame (page : Page → Nat → Pte) (d : Page) (a : Nat) : Option Page := (pte page d a).map Pte.ppn

/-- From `m` to `m'`, exactly the entries at the addresses of `S` were cleared, and their frames were
given to `kfree`, each once. -/
structure Released (d : Page) (S : Nat → Prop) (m m' : Mem) : Prop where
  freed : ∃ as : List Nat, as.Pairwise (· < ·) ∧ (∀ a, a ∈ as ↔ S a) ∧
    m'.free = (as.filterMap (frame m.page d)).reverse ++ m.free
  cleared : ∀ {a t j}, S a → lookup m.page d a = some (t, j) → m'.page t j = .zero
  entries : ∀ {p j}, (∀ a, S a → frame m.page d a ≠ some p) →
    (∀ a, S a → lookup m.page d a ≠ some (p, j)) → m'.page p j = m.page p j
  bytes : ∀ {p}, (∀ a, S a → frame m.page d a ≠ some p) → m'.bytes p = m.bytes p

theorem Released.congr {S S' : Nat → Prop} (h : Released d S m m') (hS : ∀ a, S a ↔ S' a) :
    Released d S' m m' := by
  obtain rfl : S = S' := funext fun a => propext (hS a)
  exact h

theorem Released.refl {S : Nat → Prop} (hS : ∀ a, ¬ S a) : Released d S m m :=
  ⟨⟨[], .nil, fun a => by simp [hS a], rfl⟩, fun h => absurd h (hS _), fun _ _ => rfl, fun _ => rfl⟩

theorem lookup_eq_some : lookup m.page d a = some (t, j) ↔ view m.page d (PDX a) = some t ∧ PTX a = j := by
  simp [lookup]

theorem pte_of_lookup (h : lookup m.page d a = some (t, j)) :
    pte m.page d a = if (m.page t j).P then some (m.page t j) else none := by
  obtain ⟨ht, rfl⟩ := lookup_eq_some.1 h
  exact pte_of_table ht

theorem frame_eq_some : frame m.page d a = some p ↔ ∃ e, pte m.page d a = some e ∧ e.ppn = p := by
  simp [frame]

/-- No user part of the directory is its own table: the address whose two indices are both `PDX a`
would be mapped to the directory. -/
theorem Frames.table_ne (hf : Frames g m.page d) (ha : a < KERNBASE)
    (ht : view m.page d (PDX a) = some t) : t ≠ d := by
  rintro rfl
  obtain ⟨b, hb, hPDX, hPTX⟩ : ∃ b < KERNBASE, PDX b = PDX a ∧ PTX b = PDX a := by
    have hi : PDX a < 512 := by simpa [shape_owned] using PDX_user ha
    generalize PDX a = i at hi
    have htable : (i * 2 ^ 22 + i * 2 ^ 12) / 2 ^ 22 = i := by omega
    have hindex : (i * 2 ^ 22 + i * 2 ^ 12) / 2 ^ 12 = i * 1024 + i := by omega
    refine ⟨i * 2 ^ 22 + i * 2 ^ 12, ?_, ?_, ?_⟩
    · unfold KERNBASE
      omega
    · rw [PDX, htable]
      omega
    · rw [PTX, hindex]
      omega
  have hP : (m.page t (PDX a)).P = true ∧ (m.page t (PDX a)).ppn = t := by
    simpa [view, Pte.points] using ht
  have hpte : pte m.page t b = some (m.page t (PDX a)) := by
    rw [pte_of_table (hPDX.symm ▸ ht), hPTX, if_pos hP.1]
  exact (hf.apart hb hpte).1 hP.2

/-- The addresses that the loop has done when it gets to `a`. -/
def Done (page : Page → Nat → Pte) (d : Page) (lo hi a b : Nat) : Prop := Mapped page d lo hi b ∧ b < a

variable {lo : Nat}

/-- The tables are not freed, and neither is the directory. -/
theorem Frames.kept (hf : Frames g m.page d) (hold : oldsz ≤ KERNBASE)
    (hr : Released d (Done m.page d lo oldsz a) m m1) (i : Nat) : m1.page d i = m.page d i := by
  refine hr.entries (fun b hb hframe => ?_) fun b hb hlook => ?_
  · obtain ⟨e, he, hp⟩ := frame_eq_some.1 hframe
    exact (hf.apart (hb.1.lt.trans_le hold) he).1 hp
  · exact hf.table_ne (hb.1.lt.trans_le hold) (lookup_eq_some.1 hlook).1 rfl

/-- The entry for `a` is still the one of the beginning. -/
theorem Frames.entry (hf : Frames g m.page d) (hold : oldsz ≤ KERNBASE) (ha : a < oldsz)
    (hmod : a % PGSIZE = 0) (hr : Released d (Done m.page d lo oldsz a) m m1)
    (hlook : lookup m.page d a = some (t, j)) : m1.page t j = m.page t j := by
  have hak : a < KERNBASE := ha.trans_le hold
  refine hr.entries (fun b hb hframe => ?_) fun b hb hlook' => ?_
  · obtain ⟨e, he, hp⟩ := frame_eq_some.1 hframe
    refine (hf.apart (hb.1.lt.trans_le hold) he).2 (PDX a) ?_ (hp ▸ (lookup_eq_some.1 hlook).1)
    simpa [shape_dir] using PDX_lt a
  · -- both addresses have this entry, so they have the same frame
    obtain ⟨e, he⟩ := Option.isSome_iff_exists.1 hb.1.present
    have hsame : pte m.page d a = some e := by rw [pte_of_lookup hlook, ← pte_of_lookup hlook', he]
    have hpage := hf.distinct (hb.1.lt.trans_le hold) hak he hsame rfl
    have hlt := hb.2
    have hmod' := hb.1.aligned
    unfold PGSIZE at *
    omega

/-- Where nothing is mapped from `a` up to `b`, the loop may go on at `b`. -/
theorem Released.skip {b : Nat} (hr : Released d (Done m.page d lo oldsz a) m m1) (hab : a ≤ b)
    (hnone : ∀ c, a ≤ c → c < b → c % PGSIZE = 0 → pte m.page d c = none) :
    Released d (Done m.page d lo oldsz b) m m1 := by
  refine hr.congr fun c => ⟨fun hc => ⟨hc.1, hc.2.trans_le hab⟩, fun hc => ⟨hc.1, ?_⟩⟩
  by_contra hle
  have := hc.1.present
  rw [hnone c (by omega) hc.2 hc.1.aligned] at this
  cases this

/-- The turn that frees the page at `a`. -/
theorem Released.step (hr : Released d (Done m.page d lo oldsz a) m m1) (hf : Frames g m.page d)
    (hold : oldsz ≤ KERNBASE) (hlo : lo ≤ a) (ha : a < oldsz) (hmod : a % PGSIZE = 0)
    (hlook : lookup m.page d a = some (t, j)) (he : pte m.page d a = some e) :
    wp (fun _ => False) (do kfree g e.ppn; store t j .zero)
      (fun _ m2 => Released d (Done m.page d lo oldsz (a + PGSIZE)) m m2) m1 := by
  have hak : a < KERNBASE := ha.trans_le hold
  have hvalid := hf.valid hak he
  have hmap : Mapped m.page d lo oldsz a := ⟨hlo, ha, hmod, by rw [he]; rfl⟩
  have hframe : frame m.page d a = some e.ppn := frame_eq_some.2 ⟨e, he, rfl⟩
  have htable : t ≠ e.ppn := by
    rintro rfl
    refine (hf.apart hak he).2 (PDX a) ?_ (lookup_eq_some.1 hlook).1
    simpa [shape_dir] using PDX_lt a
  -- the page at `a` is the only one between `a` and `a + PGSIZE`
  have hdone : ∀ b, Done m.page d lo oldsz (a + PGSIZE) b ↔ Done m.page d lo oldsz a b ∨ b = a := by
    intro b
    constructor
    · intro hb
      by_cases hba : b < a
      · exact .inl ⟨hb.1, hba⟩
      · have hlt := hb.2
        have hmod' := hb.1.aligned
        unfold PGSIZE at *
        exact .inr (by omega)
    · rintro (hb | rfl)
      · exact ⟨hb.1, hb.2.trans_le (Nat.le_add_right _ _)⟩
      · exact ⟨hmap, Nat.lt_add_of_pos_right (by decide)⟩
  obtain ⟨m2, hm2⟩ : ∃ m2, m2 = ({ m1 with
      free := e.ppn :: m1.free
      page := Function.update (Function.update m1.page e.ppn fun _ => .junk) t
        (Function.update (m1.page t) j .zero)
      bytes := Function.update m1.bytes e.ppn fun _ => 1 } : Mem) := ⟨_, rfl⟩
  have hself : m2.page t j = .zero := by simp [hm2]
  have hother : ∀ {p j'}, p ≠ e.ppn → ¬ (p = t ∧ j' = j) → m2.page p j' = m1.page p j' := by
    intro p j' hp hpj
    rw [hm2]
    by_cases hpt : p = t
    · subst hpt
      have hj : j' ≠ j := fun hj => hpj ⟨rfl, hj⟩
      simp [hj]
    · simp [hpt, hp]
  have hwp : wp (fun _ => False) (do kfree g e.ppn; store t j .zero) (fun _ m' => m' = m2) m1 := by
    have hin : ¬ (e.ppn < g.first ∨ g.top ≤ e.ppn) :=
      not_or.2 ⟨not_lt.2 hvalid.1, not_le.2 hvalid.2⟩
    unfold kfree store
    rw [if_neg hin, wp_bind, wp_modify, wp_modify, hm2]
    simp only [Function.update_of_ne htable]
  refine wp_mono hwp ?_
  rintro ⟨⟩ m' rfl
  refine Released.congr ⟨?_, ?_, ?_, ?_⟩ fun b => (hdone b).symm
  · obtain ⟨as, hsorted, hmem, hfree⟩ := hr.freed
    refine ⟨as ++ [a], ?_, fun b => ?_, ?_⟩
    · refine List.pairwise_append.2 ⟨hsorted, List.pairwise_singleton _ _, fun b hb c hc => ?_⟩
      rw [List.mem_singleton.1 hc]
      exact ((hmem b).1 hb).2
    · rw [List.mem_append, hmem, List.mem_singleton]
    · simp [hm2, hfree, hframe]
  · intro b t' j' hb hlook'
    by_cases hcell : t' = t ∧ j' = j
    · rw [hcell.1, hcell.2, hself]
    · have hbk : Done m.page d lo oldsz a b := by
        refine hb.resolve_right ?_
        rintro rfl
        rw [hlook] at hlook'
        cases hlook'
        exact hcell ⟨rfl, rfl⟩
      have ht' : t' ≠ e.ppn := by
        rintro rfl
        refine (hf.apart hak he).2 (PDX b) ?_ (lookup_eq_some.1 hlook').1
        simpa [shape_dir] using PDX_lt b
      rw [hother ht' hcell, hr.cleared hbk hlook']
  · intro p j' hframe' hlook'
    have hp : p ≠ e.ppn := by
      rintro rfl
      exact hframe' a (.inr rfl) hframe
    have hcell : ¬ (p = t ∧ j' = j) := by
      rintro ⟨rfl, rfl⟩
      exact hlook' a (.inr rfl) hlook
    rw [hother hp hcell]
    exact hr.entries (fun b hb => hframe' b (.inl hb)) fun b hb => hlook' b (.inl hb)
  · intro p hframe'
    have hp : p ≠ e.ppn := by
      rintro rfl
      exact hframe' a (.inr rfl) hframe
    rw [hm2]
    show Function.update m1.bytes e.ppn (fun _ => 1) p = m.bytes p
    rw [Function.update_of_ne hp]
    exact hr.bytes fun b hb => hframe' b (.inl hb)

theorem deallocLoop_released (hf : Frames g m.page d) (hold : oldsz ≤ KERNBASE) (k : Nat) :
    ∀ {a : Nat} {m1 : Mem}, lo ≤ a → a % PGSIZE = 0 → oldsz ≤ a + k * PGSIZE →
      Released d (Done m.page d lo oldsz a) m m1 →
      wp (fun _ => False) (deallocLoop g d oldsz k a)
        (fun _ m' => Released d (Mapped m.page d lo oldsz) m m') m1 := by
  have hend : ∀ {a : Nat} {m1 : Mem}, oldsz ≤ a → Released d (Done m.page d lo oldsz a) m m1 →
      Released d (Mapped m.page d lo oldsz) m m1 := fun hle hr =>
    hr.congr fun b => ⟨fun hb => hb.1, fun hb => ⟨hb, hb.lt.trans_le hle⟩⟩
  induction k with
  | zero =>
    intro a m1 _ _ hk hr
    exact hend (by omega) hr
  | succ k ih =>
    intro a m1 hlo hmod hk hr
    rw [Nat.succ_mul] at hk
    unfold deallocLoop
    split
    · rename_i hlt
      have hak : a < KERNBASE := hlt.trans_le hold
      have hnext : (a + PGSIZE) % PGSIZE = 0 := by rw [Nat.add_mod_right, hmod]
      have hlook : lookup m1.page d a = lookup m.page d a := by
        unfold lookup view
        rw [hf.kept hold hr]
      rw [wp_bind, walkpgdir_false_wp, hlook]
      cases hl : lookup m.page d a with
      | none =>
        have hnone : view m.page d (PDX a) = none := by simpa [lookup] using hl
        have hge : a ≤ (PDX a + 1) * 2 ^ 22 := by
          unfold PDX KERNBASE at *
          omega
        refine ih ?_ ?_ ?_ (hr.skip ?_ fun c hac hcb _ => ?_)
        · exact hlo.trans hge
        · unfold PGSIZE
          omega
        · exact hk.trans (by unfold PDX PGSIZE KERNBASE at *; omega)
        · exact hge
        · have hPDX : PDX c = PDX a := by
            unfold PDX KERNBASE at *
            omega
          exact pte_of_noTable (hPDX ▸ hnone)
      | some tj =>
        obtain ⟨t, j⟩ := tj
        have hentry := hf.entry hold hlt hmod hr hl
        simp only [wp_bind, wp_get, hentry]
        have hpte := pte_of_lookup hl
        split
        · rename_i hP
          rw [if_pos hP] at hpte
          have hpos := g.first_pos.trans_le (hf.valid hak hpte).1
          rw [if_neg hpos.ne', ← bind_assoc]
          exact wp_seq (hr.step hf hold hlo hlt hmod hl hpte) fun _ m2 hr2 =>
            ih (by omega) hnext (by omega) hr2
        · rename_i hP
          rw [if_neg hP] at hpte
          refine ih (by omega) hnext (by omega) (hr.skip (Nat.le_add_right _ _) fun c hac hcb hc => ?_)
          obtain rfl : c = a := by
            unfold PGSIZE at *
            omega
          exact hpte
    · exact hend (by omega) hr

/-- **`deallocuvm` frees exactly the right pages.**  With `oldsz / PGSIZE + 2` turns or more the call
returns.  If `newsz < oldsz`, exactly the entries that are present at a page address in
`[PGROUNDUP(newsz), oldsz)` are cleared and their frames given to `kfree`, each once, and everything
else is as it was, whatever page tables are missing; otherwise nothing changes. -/
theorem deallocuvm_exact (g : Geometry) (d : Page) (m : Mem) (oldsz newsz n : Nat)
    (hframes : Frames g m.page d) (hold : oldsz ≤ KERNBASE) (hn : oldsz / PGSIZE + 2 ≤ n) :
    ∃ m', dealloc32 g d n oldsz newsz m = .ok (some (min oldsz newsz), m') ∧
      (newsz < oldsz → Released d (Mapped m.page d (PGROUNDUP newsz) oldsz) m m') ∧
      (oldsz ≤ newsz → m' = m) := by
  rw [dealloc32_eq hold hn]
  by_cases hle : newsz ≥ oldsz
  · refine ⟨m, ?_, fun h => absurd h (by omega), fun _ => rfl⟩
    rw [deallocuvm, if_pos hle, min_eq_left hle]
    rfl
  · have hstart : Released d (Done m.page d (PGROUNDUP newsz) oldsz (PGROUNDUP newsz)) m m :=
      .refl fun b hb => absurd hb.1.ge (by have := hb.2; omega)
    have hfuel : oldsz ≤ PGROUNDUP newsz + (oldsz / PGSIZE + 1) * PGSIZE := by
      unfold PGSIZE
      omega
    have hwp : wp (fun _ => False) (some <$> deallocuvm g d oldsz newsz) (fun r m' =>
        r = some newsz ∧ Released d (Mapped m.page d (PGROUNDUP newsz) oldsz) m m') m := by
      rw [deallocuvm, if_neg hle, map_bind]
      exact wp_seq (deallocLoop_released hframes hold _ (Nat.le_refl _) (PGROUNDUP_mod newsz) hfuel
        hstart) fun _ m' hr => ⟨rfl, hr⟩
    obtain ⟨_, m', hm', rfl, hr⟩ := wp.total hwp
    rw [min_eq_right (by omega)]
    exact ⟨m', hm', fun _ => hr, fun h => absurd h hle⟩

/-- A directory of the small machine with one table, which maps page 4 at address 4096. -/
def Mem.onePage : Mem where
  free := []
  page := fun p i =>
    if p = 2 ∧ i = 0 then ⟨3, true, true, true, 0⟩
    else if p = 3 ∧ i = 1 then ⟨4, true, true, true, 0⟩ else .zero
  bytes := fun _ _ => 0
  deny := []

theorem pte_onePage (h : pte Mem.onePage.page 2 a = some e) (ha : a < KERNBASE) :
    a / PGSIZE = 1 ∧ e.ppn = 4 := by
  obtain ⟨t, ht, rfl, hP⟩ := exists_table h
  have hdir : PDX a = 0 ∧ 3 = t := by
    by_cases hi : PDX a = 0 <;> simp_all [view, Mem.onePage, Pte.points, Pte.zero]
  obtain ⟨hPDX, rfl⟩ := hdir
  have hleaf : PTX a = 1 := by
    by_contra hi
    simp [Mem.onePage, hi, Pte.zero] at hP
  refine ⟨?_, by simp [Mem.onePage, hleaf]⟩
  unfold PDX PTX PGSIZE KERNBASE at *
  omega

theorem deallocuvm_exact_onePage :
    Frames .small Mem.onePage.page 2 ∧
    ∃ m', dealloc32 .small 2 (KERNBASE / PGSIZE + 2) KERNBASE 0 Mem.onePage =
        .ok (some (min KERNBASE 0), m') ∧
      (0 < KERNBASE → Released 2 (Mapped Mem.onePage.page 2 (PGROUNDUP 0) KERNBASE) Mem.onePage m') ∧
      (KERNBASE ≤ 0 → m' = Mem.onePage) := by
  have hframes : Frames .small Mem.onePage.page 2 := by
    refine ⟨fun ha h => ?_, fun ha hb h h' _ => ?_, fun ha h => ?_⟩
    · rw [(pte_onePage h ha).2]
      decide
    · rw [(pte_onePage h ha).1, (pte_onePage h' hb).1]
    · rw [(pte_onePage h ha).2]
      refine ⟨by decide, fun i _ => ?_⟩
      by_cases hi : i = 0 <;> simp [view, Mem.onePage, Pte.points, Pte.zero, hi]
  exact ⟨hframes, deallocuvm_exact .small 2 Mem.onePage KERNBASE 0 _ hframes (Nat.le_refl _)
    (Nat.le_refl _)⟩

end Laboratorio.Xv6.Vm
