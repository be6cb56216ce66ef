import Laboratorio.Lib.Spans
import Laboratorio.Xv6.Umalloc.Model

/-!
# The heap stays sound

`FreeList base h F` says that the pointers of `h` link the blocks `F`, `base` first, in the order of their
addresses and back to `base`, and that there is something between any two of them.

`Sound` is the invariant of a program that calls `malloc` and `free`.

The account of the memory is kept in bytes: `total` for the free blocks, `liveTotal` for those in use,
`spans` for what `sbrk` has returned.  That a loop ends means that it ends for every bound on its
turns that is large enough (`∀ᶠ n in Filter.atTop`).
-/

namespace Laboratorio.Xv6.Umalloc

open Laboratorio.Lib SList Function Multiset

/-- The first block ends before the second one begins. -/
def Before (x y : Nat × Nat) : Prop := x.1 + HEADER * x.2 < y.1

/-- The free list: `F` are the blocks with their sizes, `base` first. -/
structure FreeList (base : Nat) (h : Heap) (F : List (Nat × Nat)) : Prop where
  head : F.head? = some (base, 0)
  sorted : F.Pairwise Before
  ring : Walk h.ptr base (F.map Prod.fst) base
  sizes : ∀ x ∈ F, h.size x.1 = x.2
  start : h.freep ∈ F.map Prod.fst
  pos : ∀ x ∈ F, x.1 ≠ base → 0 < x.2

variable {base bp k n a m : Nat} {h h' h1 : Heap} {F G F2 : List (Nat × Nat)} {x y : Nat × Nat}

theorem Before.lt (hxy : Before x y) : x.1 < y.1 := by
  unfold Before at hxy
  omega

theorem Before.trans {z : Nat × Nat} (hxy : Before x y) (hyz : Before y z) : Before x z := by
  unfold Before at *
  omega

theorem FreeList.base_mem (hF : FreeList base h F) : (base, 0) ∈ F := List.mem_of_head? hF.head

theorem FreeList.base_le (hF : FreeList base h F) (hx : x ∈ F) : base ≤ x.1 := by
  obtain ⟨B, rfl⟩ : ∃ B, F = (base, 0) :: B := List.head?_eq_some_iff.1 hF.head
  obtain rfl | hx := List.mem_cons.1 hx
  · exact le_rfl
  · exact ((List.pairwise_cons.1 hF.sorted).1 x hx).lt.le

theorem sorted_cut (hs : (G ++ x :: F2).Pairwise Before) : (∀ y ∈ G, Before y x) ∧ (∀ y ∈ F2, Before x y) ∧
    (∀ y ∈ G, ∀ z ∈ F2, Before y z) ∧ G.Pairwise Before ∧ F2.Pairwise Before := by
  obtain ⟨hG, hx, hGx⟩ := List.pairwise_append.1 hs
  obtain ⟨hx, hF2⟩ := List.pairwise_cons.1 hx
  exact ⟨fun y hy => hGx y hy x List.mem_cons_self, hx,
    fun y hy z hz => hGx y hy z (List.mem_cons_of_mem x hz), hG, hF2⟩

theorem FreeList.walk_cut (hF : FreeList base h (G ++ x :: F2)) :
    Walk h.ptr base (G.map Prod.fst) x.1 ∧ Walk h.ptr (h.ptr x.1) (F2.map Prod.fst) base := by
  have hring := hF.ring
  rw [List.map_append, List.map_cons] at hring
  exact walk_append_cons.1 hring

/-- Where the search of `free` ends: at the last block below `bp`. -/
theorem FreeList.stops_iff (hF : FreeList base h F) (hbp : base < bp) (hx : x ∈ F) :
    Stops h bp x.1 ↔ x.1 < bp ∧ ∀ y ∈ F, x.1 < y.1 → bp < y.1 := by
  have hbase := hF.base_le hx
  obtain ⟨G, F2, rfl⟩ := List.append_of_mem hx
  obtain ⟨hG, hF2, -, -, hsorted⟩ := sorted_cut hF.sorted
  have hwalk := hF.walk_cut.2
  have hnotG : ∀ y ∈ G, ¬ x.1 < y.1 := fun y hy hlt => by
    have := (hG y hy).lt
    omega
  unfold Stops
  cases F2 with
  | nil =>
    -- the last block points to `base`
    rw [List.map_nil, walk_nil] at hwalk
    rw [hwalk]
    constructor
    · intro hstop
      refine ⟨by omega, fun y hy hlt => ?_⟩
      rcases List.mem_append.1 hy with hy | hy
      · exact absurd hlt (hnotG y hy)
      · rw [List.mem_singleton.1 hy] at hlt
        omega
    · rintro ⟨hlt, -⟩
      exact .inr ⟨hbase, .inl hlt⟩
  | cons y F3 =>
    obtain ⟨hnext, -⟩ := hwalk
    rw [hnext]
    have hxy := (hF2 y List.mem_cons_self).lt
    constructor
    · intro hstop
      refine ⟨by omega, fun z hz hlt => ?_⟩
      rcases List.mem_append.1 hz with hz | hz
      · exact absurd hlt (hnotG z hz)
      · rcases List.mem_cons.1 hz with rfl | hz
        · omega
        · rcases List.mem_cons.1 hz with rfl | hz
          · omega
          · have := ((List.pairwise_cons.1 hsorted).1 z hz).lt
            omega
    · rintro ⟨hlt, hall⟩
      exact .inl ⟨hlt, hall y (by simp) hxy⟩

theorem exists_last {α : Type*} {P : α → Prop} {l : List α} (h : ∃ x ∈ l, P x) :
    ∃ l1 x l2, l = l1 ++ x :: l2 ∧ P x ∧ ∀ y ∈ l2, ¬ P y := by
  induction l with
  | nil =>
    obtain ⟨x, hx, -⟩ := h
    cases hx
  | cons y l ih =>
    by_cases hl : ∃ x ∈ l, P x
    · obtain ⟨l1, x, l2, rfl, hx, hl2⟩ := ih hl
      exact ⟨y :: l1, x, l2, rfl, hx, hl2⟩
    · push Not at hl
      obtain ⟨x, hx, hP⟩ := h
      obtain rfl | hx := List.mem_cons.1 hx
      · exact ⟨[], x, l, rfl, hP, hl⟩
      · exact absurd hP (hl x hx)

/-- A block that lies apart from all free ones. -/
structure Loose (base : Nat) (h : Heap) (F : List (Nat × Nat)) (bp k : Nat) : Prop where
  size : h.size bp = k
  pos : 0 < k
  base : base < bp
  apart : ∀ x ∈ F, x.1 + HEADER * x.2 ≤ bp ∨ bp + HEADER * k ≤ x.1
  fits : bp + HEADER * k ≤ KERNBASE
  all : ∀ x ∈ F, x.1 + HEADER * x.2 ≤ KERNBASE

/-- The place of such a block in the list. -/
theorem Loose.place (hb : Loose base h F bp k) (hF : FreeList base h F) : ∃ G a m F2, F = G ++ (a, m) :: F2 ∧
    a < bp ∧ a + HEADER * m ≤ bp ∧ ∀ y ∈ F2, bp + HEADER * k ≤ y.1 := by
  obtain ⟨G, ⟨a, m⟩, F2, rfl, ha, hF2⟩ :=
    exists_last (P := fun x : Nat × Nat => x.1 < bp) ⟨(base, 0), hF.base_mem, hb.base⟩
  refine ⟨G, a, m, F2, rfl, ha, ?_, fun y hy => ?_⟩
  · rcases hb.apart (a, m) (by simp) with hle | hle
    · exact hle
    · dsimp only at *
      omega
  · have hnot := hF2 y hy
    have hmem : y ∈ G ++ (a, m) :: F2 := by simp [hy]
    rcases hb.apart y hmem with hle | hle
    · have hpos := hF.pos y hmem (by have := hb.base; omega)
      unfold HEADER at *
      omega
    · exact hle

/-- The search of `free` finds that place. -/
theorem Loose.scan (hb : Loose base h (G ++ (a, m) :: F2) bp k) (hF : FreeList base h (G ++ (a, m) :: F2))
    (ha : a < bp) (hF2 : ∀ y ∈ F2, bp + HEADER * k ≤ y.1) (hn : (G ++ (a, m) :: F2).length ≤ n) :
    SList.scan h.ptr (Stops h bp) n h.freep = some a := by
  have hmem : (a, m) ∈ G ++ (a, m) :: F2 := by simp
  have hstop : Stops h bp a := by
    rw [hF.stops_iff hb.base hmem]
    refine ⟨ha, fun y hy hlt => ?_⟩
    rcases List.mem_append.1 hy with hy | hy
    · have := ((sorted_cut hF.sorted).1 y hy).lt
      dsimp only at *
      omega
    · rcases List.mem_cons.1 hy with rfl | hy
      · exact absurd hlt (lt_irrefl _)
      · have := hF2 y hy
        have := hb.pos
        unfold HEADER at *
        omega
  refine hF.ring.scan hF.start (List.mem_map_of_mem hmem) hstop (fun z hz hz' => ?_) (by simpa using hn)
  obtain ⟨x, hx, rfl⟩ := List.mem_map.1 hz
  rw [hF.stops_iff hb.base hx] at hz'
  rw [hF.stops_iff hb.base hmem] at hstop
  rcases lt_trichotomy x.1 a with hlt | heq | hlt
  · have := hz'.2 _ hmem hlt
    dsimp only at *
    omega
  · exact heq
  · have := hstop.2 x hx hlt
    omega

/-! ## Joining blocks -/

def block (x : Nat × Nat) : Multiset Nat := span x.1 (HEADER * x.2)

/-- The memory of some blocks. -/
def total (F : List (Nat × Nat)) : Multiset Nat := (F.map block).sum

@[simp] theorem total_nil : total [] = 0 := rfl

@[simp] theorem total_cons : total (x :: F) = block x + total F := by
  simp [total]

@[simp] theorem total_append : total (F ++ G) = total F + total G := by
  simp [total]

theorem block_join {j : Nat} (hend : bp + HEADER * k = a) : block (bp, k + j) = block (bp, k) + block (a, j) := by
  unfold block
  dsimp only
  rw [Nat.mul_add, span_add, hend]

theorem plus_of_le {p k : Nat} (hle : p + HEADER * k ≤ KERNBASE) : plus p k = p + HEADER * k := by
  unfold plus
  unfold KERNBASE at hle
  omega

/-- Everything but the headers. -/
def Heap.rest (h : Heap) : Nat × List (Option Nat) × List (Nat × Nat) := (h.brk, h.answers, h.regions)

/-- After the first `if` of `free`: the block has the size `k'`, and `F'` of the blocks behind it are
left. -/
structure Joined (base : Nat) (h : Heap) (F : List (Nat × Nat)) (bp k : Nat) (h' : Heap)
    (F' : List (Nat × Nat)) (k' : Nat) : Prop where
  size : h'.size bp = k'
  walk : Walk h.ptr (h'.ptr bp) (F'.map Prod.fst) base
  others : ∀ c ≠ bp, h'.ptr c = h.ptr c ∧ h'.size c = h.size c
  rest : h'.rest = h.rest
  suffix : F' <:+ F
  le : k ≤ k'
  account : block (bp, k') + total F' = block (bp, k) + total F
  before : ∀ y ∈ F', Before (bp, k') y
  fits : bp + HEADER * k' ≤ KERNBASE

theorem Loose.joinNext (hb : Loose base h (G ++ (a, m) :: F2) bp k) (hF : FreeList base h (G ++ (a, m) :: F2))
    (hF2 : ∀ y ∈ F2, bp + HEADER * k ≤ y.1) : ∃ F' k', Joined base h F2 bp k (joinNext bp a h) F' k' := by
  have hplus : plus bp (h.size bp) = bp + HEADER * k := by
    rw [hb.size, plus_of_le hb.fits]
  have hwalk := hF.walk_cut.2
  obtain ⟨-, -, -, -, hsorted⟩ := sorted_cut hF.sorted
  unfold Umalloc.joinNext
  split
  · rename_i hend
    rw [hplus] at hend
    cases F2 with
    | nil =>
      rw [List.map_nil, walk_nil] at hwalk
      have := hb.base
      dsimp only at hwalk
      omega
    | cons y F3 =>
      obtain ⟨hy, hwalk⟩ := hwalk
      dsimp only at hy
      have hmem : y ∈ G ++ (a, m) :: y :: F3 := by simp
      have hsize := hF.sizes y hmem
      have hall := hb.all y hmem
      have hlast := (List.pairwise_cons.1 hsorted).1
      rw [hy] at hend ⊢
      have hk : (h.size bp + h.size y.1) % 2 ^ 32 = k + y.2 := by
        rw [hb.size, hsize]
        refine Nat.mod_eq_of_lt ?_
        unfold HEADER KERNBASE at *
        omega
      have hfits : bp + HEADER * (k + y.2) ≤ KERNBASE := by
        rw [Nat.mul_add]
        omega
      refine ⟨F3, k + y.2, ?_, ?_, fun c hc => ?_, rfl, List.suffix_cons y F3, Nat.le_add_right k _, ?_,
        fun z hz => ?_, hfits⟩
      · exact (update_self ..).trans hk
      · simpa using hwalk
      · simp [hc]
      · rw [block_join hend, total_cons, add_assoc]
      · have := hlast z hz
        simp only [Before, Nat.mul_add] at this ⊢
        omega
  · rename_i hend
    rw [hplus] at hend
    refine ⟨F2, k, hb.size, ?_, fun c hc => ?_, rfl, List.suffix_rfl, le_rfl, rfl, fun z hz => ?_, hb.fits⟩
    · simpa using hwalk
    · simp [hc]
    · cases F2 with
      | nil => cases hz
      | cons y F3 =>
        obtain ⟨hy, -⟩ := hwalk
        have hle := hF2 y List.mem_cons_self
        dsimp only at hy
        simp only [Before]
        rcases List.mem_cons.1 hz with rfl | hz
        · omega
        · have := ((List.pairwise_cons.1 hsorted).1 z hz).lt
          omega

/-- What `free` has made of the block. -/
structure Freed (base : Nat) (h : Heap) (F : List (Nat × Nat)) (bp k : Nat) (h' : Heap)
    (F' : List (Nat × Nat)) : Prop where
  list : FreeList base h' F'
  account : total F' = block (bp, k) + total F
  large : ∃ x ∈ F', k ≤ x.2
  others : ∀ c ≠ bp, c ∉ F.map Prod.fst → h'.size c = h.size c
  rest : h'.rest = h.rest

theorem Loose.joinPrev {F' : List (Nat × Nat)} {k' : Nat} (hb : Loose base h (G ++ (a, m) :: F2) bp k)
    (hF : FreeList base h (G ++ (a, m) :: F2)) (ha : a < bp) (hend : a + HEADER * m ≤ bp)
    (hj : Joined base h F2 bp k h1 F' k') :
    ∃ F'', Freed base h (G ++ (a, m) :: F2) bp k { joinPrev bp a h1 with freep := a } F'' := by
  obtain ⟨hG, hF2, hGF2, hsG, hsF2⟩ := sorted_cut hF.sorted
  obtain ⟨hwalkG, -⟩ := hF.walk_cut
  have hsub : ∀ y ∈ F', y ∈ F2 := fun y hy => hj.suffix.subset hy
  have hF' : F'.Pairwise Before := hsF2.sublist hj.suffix.sublist
  have hold : ∀ y, y ∈ G ∨ y ∈ F' → y ∈ G ++ (a, m) :: F2 := by
    rintro y (hy | hy)
    · simp [hy]
    · simp [hsub y hy]
  -- the other blocks are neither `a` nor `bp`
  have hne : ∀ y, y ∈ G ∨ y ∈ F' → y.1 ≠ a ∧ y.1 ≠ bp := by
    rintro y (hy | hy)
    · have := (hG y hy).lt
      dsimp only at this
      omega
    · have := (hF2 y (hsub y hy)).lt
      have := (hj.before y hy).lt
      dsimp only at *
      omega
  have hsizes : ∀ y, y ∈ G ∨ y ∈ F' → h1.size y.1 = y.2 := fun y hy => by
    rw [(hj.others y.1 (hne y hy).2).2, hF.sizes y (hold y hy)]
  have hptr : ∀ c ∈ G.map Prod.fst, h1.ptr c = h.ptr c ∧ c ≠ a := by
    intro c hc
    obtain ⟨y, hy, rfl⟩ := List.mem_map.1 hc
    exact ⟨(hj.others _ (hne y (.inl hy)).2).1, (hne y (.inl hy)).1⟩
  have hptr' : ∀ c ∈ F'.map Prod.fst, h1.ptr c = h.ptr c ∧ c ≠ a := by
    intro c hc
    obtain ⟨y, hy, rfl⟩ := List.mem_map.1 hc
    exact ⟨(hj.others _ (hne y (.inr hy)).2).1, (hne y (.inr hy)).1⟩
  have hsizea : h1.size a = m := by
    rw [(hj.others a ha.ne).2, hF.sizes (a, m) (by simp)]
  have hpos : ∀ y, y ∈ G ∨ y ∈ F' → y.1 ≠ base → 0 < y.2 := fun y hy => hF.pos y (hold y hy)
  have hplus : plus a (h1.size a) = a + HEADER * m := by
    rw [hsizea, plus_of_le (hb.all (a, m) (by simp))]
  have hhead : ∀ z l, (∀ m', z = (a, m') → G = [] → m' = m) → z.1 = a →
      (G ++ z :: l).head? = some (base, 0) := by
    intro z l hz hza
    have hhead := hF.head
    cases G with
    | nil =>
      obtain ⟨z1, z2⟩ := z
      dsimp only at hza
      subst hza
      rw [hz z2 rfl rfl]
      simpa using hhead
    | cons x G => simpa using hhead
  unfold Umalloc.joinPrev
  rw [hplus]
  split
  · -- the block before takes it in
    rename_i hjoin
    have hk' : (h1.size a + h1.size bp) % 2 ^ 32 = m + k' := by
      rw [hsizea, hj.size]
      have := hj.fits
      refine Nat.mod_eq_of_lt ?_
      unfold HEADER KERNBASE at *
      omega
    have hbase : G ≠ [] := by
      rintro rfl
      have hhead := hF.head
      simp only [List.nil_append, List.head?_cons, Option.some.injEq, Prod.mk.injEq] at hhead
      unfold HEADER at *
      omega
    have hafter : ∀ y ∈ F', Before (a, m + k') y := by
      intro y hy
      have := hj.before y hy
      simp only [Before, Nat.mul_add] at this ⊢
      omega
    refine ⟨G ++ (a, m + k') :: F', ⟨hhead _ _ (fun _ _ hnil => (hbase hnil).elim) rfl, ?_, ?_, ?_, ?_, ?_⟩, ?_,
      ⟨(a, m + k'), by simp, hj.le.trans (Nat.le_add_left k' m)⟩, fun c hc hcF => ?_, hj.rest⟩
    · rw [List.pairwise_append, List.pairwise_cons]
      exact ⟨hsG, ⟨hafter, hF'⟩, fun y hy => List.forall_mem_cons.2
        ⟨hG y hy, fun z hz => hGF2 y hy z (hsub z hz)⟩⟩
    · rw [List.map_append, List.map_cons, walk_append_cons]
      refine ⟨hwalkG.congr fun c hc => ?_, ?_⟩
      · simp [hptr c hc]
      · simp only [update_self]
        exact hj.walk.congr fun c hc => by simp [hptr' c hc]
    · rw [List.forall_mem_append, List.forall_mem_cons]
      refine ⟨fun y hy => ?_, (update_self ..).trans hk', fun y hy => ?_⟩
      · simp [(hne y (.inl hy)).1, hsizes y (.inl hy)]
      · simp [(hne y (.inr hy)).1, hsizes y (.inr hy)]
    · simp
    · rw [List.forall_mem_append, List.forall_mem_cons]
      exact ⟨fun y hy => hpos y (.inl hy), fun _ => Nat.add_pos_right m (hb.pos.trans_le hj.le),
        fun y hy => hpos y (.inr hy)⟩
    · rw [total_append, total_cons, block_join hjoin, add_assoc (block (a, m)), hj.account, total_append,
        total_cons]
      abel
    · have hca : c ≠ a := by
        rintro rfl
        simp at hcF
      simp [hca, (hj.others c hc).2]
  · rename_i hjoin
    have hafter : Before (a, m) (bp, k') := by
      simp only [Before]
      omega
    refine ⟨G ++ (a, m) :: (bp, k') :: F', ⟨hhead _ _ (fun m' hm' _ => by simpa using hm'.symm) rfl, ?_, ?_, ?_,
      ?_, ?_⟩, ?_, ⟨(bp, k'), by simp, hj.le⟩, fun c hc _ => (hj.others c hc).2, hj.rest⟩
    · rw [List.pairwise_append, List.pairwise_cons, List.pairwise_cons]
      refine ⟨hsG, ⟨List.forall_mem_cons.2 ⟨hafter, fun z hz => hF2 z (hsub z hz)⟩, hj.before, hF'⟩, fun y hy => ?_⟩
      rw [List.forall_mem_cons, List.forall_mem_cons]
      exact ⟨hG y hy, (hG y hy).trans hafter, fun z hz => hGF2 y hy z (hsub z hz)⟩
    · rw [List.map_append, List.map_cons, List.map_cons, walk_append_cons]
      refine ⟨hwalkG.congr fun c hc => ?_, ?_, ?_⟩
      · simp [hptr c hc]
      · simp
      · dsimp only
        rw [update_of_ne ha.ne']
        exact hj.walk.congr fun c hc => by simp [hptr' c hc]
    · rw [List.forall_mem_append, List.forall_mem_cons, List.forall_mem_cons]
      exact ⟨fun y hy => hsizes y (.inl hy), hsizea, hj.size, fun y hy => hsizes y (.inr hy)⟩
    · simp
    · rw [List.forall_mem_append, List.forall_mem_cons, List.forall_mem_cons]
      exact ⟨fun y hy => hpos y (.inl hy), hF.pos (a, m) (by simp), fun _ => hb.pos.trans_le hj.le,
        fun y hy => hpos y (.inr hy)⟩
    · rw [total_append, total_cons, total_cons, hj.account, total_append, total_cons]
      abel

/-- **`free` of a block that lies apart.** -/
theorem Loose.free (hb : Loose base h F bp k) (hF : FreeList base h F) :
    ∃ h' F', (∀ n, F.length ≤ n → free n (bp + HEADER) h = .ok h') ∧ Freed base h F bp k h' F' := by
  obtain ⟨G, a, m, F2, rfl, ha, hend, hF2⟩ := hb.place hF
  obtain ⟨F1, k1, hj⟩ := hb.joinNext hF hF2
  obtain ⟨F', hfreed⟩ := hb.joinPrev hF ha hend hj
  refine ⟨_, F', fun n hn => ?_, hfreed⟩
  have hbp : (bp + HEADER + 2 ^ 32 - HEADER) % 2 ^ 32 = bp := by
    have := hb.fits
    have := hb.pos
    unfold HEADER KERNBASE at *
    omega
  unfold Umalloc.free
  simp only [hbp]
  rw [hb.scan hF ha hF2 hn]

/-! ## Taking a block -/

theorem block_le_total (hx : x ∈ F) : block x ≤ total F := by
  obtain ⟨G, F2, rfl⟩ := List.append_of_mem hx
  rw [total_append, total_cons, add_left_comm]
  exact le_add_right _ _

theorem FreeList.mem_total (hF : FreeList base h F) (hx : x ∈ F) (hbase : x.1 ≠ base) : x.1 ∈ total F := by
  refine mem_of_le (block_le_total hx) ?_
  have := hF.pos x hx hbase
  rw [block, mem_span]
  unfold HEADER
  omega

/-- `malloc` has taken the block at `b` out of the list. -/
structure Taken (base : Nat) (h : Heap) (F : List (Nat × Nat)) (nu b : Nat) (h' : Heap)
    (F' : List (Nat × Nat)) : Prop where
  list : FreeList base h' F'
  size : h'.size b = nu
  account : block (b, nu) + total F' = total F
  others : ∀ c, c ∉ total F → h'.size c = h.size c
  rest : h'.rest = h.rest

theorem FreeList.cut_at {p : Nat} (hF : FreeList base h F) (hp : p ∈ F.map Prod.fst) (hne : h.ptr p ≠ base) :
    ∃ G m k F2, F = G ++ (p, m) :: (h.ptr p, k) :: F2 := by
  obtain ⟨⟨p, m⟩, hx, rfl⟩ := List.mem_map.1 hp
  obtain ⟨G, F2, rfl⟩ := List.append_of_mem hx
  have hwalk := hF.walk_cut.2
  cases F2 with
  | nil => exact absurd hwalk hne
  | cons y F3 =>
    obtain ⟨hy, -⟩ := hwalk
    dsimp only at hy ⊢
    exact ⟨G, m, y.2, F3, by rw [hy]⟩

theorem FreeList.take_all {nu prevp : Nat} (hF : FreeList base h F) (hne : h.ptr prevp ≠ base)
    (hexact : h.size (h.ptr prevp) = nu) (hprevp : prevp ∈ F.map Prod.fst)
    (hall : ∀ x ∈ F, x.1 + HEADER * x.2 ≤ KERNBASE) :
    ∃ b h' F', (plus (h.ptr prevp) 1, { h with
      ptr := update h.ptr prevp (h.ptr (h.ptr prevp)), freep := prevp }) = (b + HEADER, h') ∧
      Taken base h F nu b h' F' := by
  obtain ⟨G, m, k, F2, rfl⟩ := hF.cut_at hprevp hne
  have hk : h.size (h.ptr prevp) = k := hF.sizes (h.ptr prevp, k) (by simp)
  obtain rfl : k = nu := hk.symm.trans hexact
  obtain ⟨hG, hF2, hGF2, hsG, hsF2⟩ := sorted_cut hF.sorted
  obtain ⟨hwalkG, -, hwalk⟩ := hF.walk_cut
  obtain ⟨hF3, hsF3⟩ := List.pairwise_cons.1 hsF2
  have hfit := hall (h.ptr prevp, k) (by simp)
  have hlt := (hF2 _ List.mem_cons_self).lt
  have hsub : ∀ x ∈ G ++ (prevp, m) :: F2, x ∈ G ++ (prevp, m) :: (h.ptr prevp, k) :: F2 := by
    simp only [List.mem_append, List.mem_cons]
    tauto
  have hpos := hF.pos (h.ptr prevp, k) (by simp) hne
  have hplus : plus (h.ptr prevp) 1 = h.ptr prevp + HEADER := by
    rw [plus_of_le, Nat.mul_one]
    unfold HEADER at *
    dsimp only at hfit hpos
    omega
  refine ⟨h.ptr prevp, _, G ++ (prevp, m) :: F2, Prod.ext hplus rfl, ⟨?_, ?_, ?_,
    fun x hx => hF.sizes x (hsub x hx), ?_, fun x hx => hF.pos x (hsub x hx)⟩, hexact, ?_, fun _ _ => rfl, rfl⟩
  · have hhead := hF.head
    cases G <;> simpa using hhead
  · rw [List.pairwise_append, List.pairwise_cons]
    refine ⟨hsG, ⟨fun y hy => hF2 y (List.mem_cons_of_mem _ hy), hsF3⟩, fun y hy => ?_⟩
    exact List.forall_mem_cons.2 ⟨hG y hy, fun z hz => hGF2 y hy z (List.mem_cons_of_mem _ hz)⟩
  · rw [List.map_append, List.map_cons, walk_append_cons]
    refine ⟨hwalkG.congr fun c hc => update_of_ne ?_ _ _, ?_⟩
    · obtain ⟨y, hy, rfl⟩ := List.mem_map.1 hc
      exact (hG y hy).lt.ne
    · simp only [update_self]
      refine hwalk.congr fun c hc => update_of_ne ?_ _ _
      obtain ⟨y, hy, rfl⟩ := List.mem_map.1 hc
      exact (hF2 y (List.mem_cons_of_mem _ hy)).lt.ne'
  · simp
  · simp only [total_append, total_cons]
    abel

theorem FreeList.take_tail {nu prevp p : Nat} (hF : FreeList base h F) (hnu : 0 < nu) (hx : (p, k) ∈ F)
    (hne : p ≠ base) (hsize : nu ≤ k) (hmore : k ≠ nu) (hprevp : prevp ∈ F.map Prod.fst)
    (hall : ∀ x ∈ F, x.1 + HEADER * x.2 ≤ KERNBASE) :
    ∃ b h' F', (plus (plus p (k - nu)) 1, { h with
      size := update (update h.size p (k - nu)) (plus p (k - nu)) nu, freep := prevp }) =
        (b + HEADER, h') ∧ Taken base h F nu b h' F' := by
  obtain ⟨G, F2, rfl⟩ := List.append_of_mem hx
  obtain ⟨hG, hF2, hGF2, hsG, hsF2⟩ := sorted_cut hF.sorted
  have hfit := hall (p, k) hx
  have hsplit : HEADER * k = HEADER * (k - nu) + HEADER * nu := by
    rw [← Nat.mul_add, Nat.sub_add_cancel hsize]
  dsimp only at hfit
  have hplus : plus p (k - nu) = p + HEADER * (k - nu) := plus_of_le (by omega)
  have hplus' : plus (p + HEADER * (k - nu)) 1 = p + HEADER * (k - nu) + HEADER := by
    rw [plus_of_le, Nat.mul_one]
    unfold HEADER at *
    omega
  have hin : p < p + HEADER * (k - nu) ∧ p + HEADER * (k - nu) < p + HEADER * k := by
    unfold HEADER at *
    omega
  have hne' : ∀ y, y ∈ G ∨ y ∈ F2 → y.1 ≠ p ∧ y.1 ≠ p + HEADER * (k - nu) := by
    rintro y (hy | hy)
    · have := (hG y hy).lt
      dsimp only at this
      omega
    · have := hF2 y hy
      simp only [Before] at this
      omega
  rw [hplus]
  refine ⟨p + HEADER * (k - nu), _, G ++ (p, k - nu) :: F2, Prod.ext hplus' rfl, ⟨?_, ?_, ?_, ?_, ?_, ?_⟩, ?_, ?_, fun c hc => ?_,
    rfl⟩
  · have hhead := hF.head
    cases G with
    | nil =>
      simp only [List.nil_append, List.head?_cons, Option.some.injEq, Prod.mk.injEq] at hhead
      exact absurd hhead.1 hne
    | cons y G => simpa using hhead
  · rw [List.pairwise_append, List.pairwise_cons]
    refine ⟨hsG, ⟨fun y hy => ?_, hsF2⟩, fun y hy => List.forall_mem_cons.2 ⟨hG y hy, hGF2 y hy⟩⟩
    have := hF2 y hy
    simp only [Before] at this ⊢
    omega
  · simpa using hF.ring
  · rw [List.forall_mem_append, List.forall_mem_cons]
    refine ⟨fun y hy => ?_, ?_, fun y hy => ?_⟩
    · simp [hne' y (.inl hy), hF.sizes y (by simp [hy])]
    · dsimp only
      rw [update_of_ne hin.1.ne, update_self]
    · simp [hne' y (.inr hy), hF.sizes y (by simp [hy])]
  · simpa using hprevp
  · rw [List.forall_mem_append, List.forall_mem_cons]
    refine ⟨fun y hy => hF.pos y (by simp [hy]), fun _ => ?_, fun y hy => hF.pos y (by simp [hy])⟩
    dsimp only
    omega
  · simp
  · have hjoin : block (p, k) = block (p, k - nu) + block (p + HEADER * (k - nu), nu) := by
      rw [← block_join rfl, Nat.sub_add_cancel hsize]
    simp only [total_append, total_cons, hjoin]
    abel
  · have hmem : ∀ u, p ≤ u → u < p + HEADER * k → u ∈ total (G ++ (p, k) :: F2) := by
      intro u hlo hhi
      exact mem_of_le (block_le_total hx) (mem_span.2 ⟨hlo, hhi⟩)
    have hc1 : c ≠ p := by
      rintro rfl
      exact hc (hmem c le_rfl (by omega))
    have hc2 : c ≠ p + HEADER * (k - nu) := by
      rintro rfl
      exact hc (hmem _ (by omega) hin.2)
    simp [hc1, hc2]

theorem FreeList.take {nu prevp p : Nat} (hF : FreeList base h F) (hnu : 0 < nu) (hp : p ∈ F.map Prod.fst)
    (hsize : nu ≤ h.size p) (hprevp : prevp ∈ F.map Prod.fst) (hprev : h.ptr prevp = p)
    (hall : ∀ x ∈ F, x.1 + HEADER * x.2 ≤ KERNBASE) :
    ∃ b h' F', take nu prevp p h = (b + HEADER, h') ∧ Taken base h F nu b h' F' := by
  have hne : p ≠ base := by
    rintro rfl
    have := hF.sizes _ hF.base_mem
    dsimp only at this
    omega
  unfold Umalloc.take
  split
  · rename_i hexact
    subst hprev
    exact hF.take_all hne hexact hprevp hall
  · rename_i hmore
    obtain ⟨⟨p, k⟩, hx, rfl⟩ := List.mem_map.1 hp
    have hk : h.size p = k := hF.sizes (p, k) hx
    dsimp only at *
    rw [hk] at hsize hmore ⊢
    exact hF.take_tail hnu hx hne hsize hmore hprevp hall

/-! ## The search of `malloc` -/

theorem FreeList.nodup (hF : FreeList base h F) : (F.map Prod.fst).Nodup := by
  rw [List.nodup_iff_pairwise_ne, List.pairwise_map]
  exact hF.sorted.imp fun hxy => hxy.lt.ne

/-- The first element of a list that satisfies `P`, or none does. -/
theorem exists_first {α : Type*} (P : α → Prop) (l : List α) :
    (∃ l1 x l2, l = l1 ++ x :: l2 ∧ P x ∧ ∀ y ∈ l1, ¬ P y) ∨ ∀ y ∈ l, ¬ P y := by
  induction l with
  | nil => exact .inr nofun
  | cons y l ih =>
    by_cases hy : P y
    · exact .inl ⟨[], y, l, rfl, hy, nofun⟩
    · obtain ⟨l1, x, l2, rfl, hx, hl1⟩ | hl := ih
      · exact .inl ⟨y :: l1, x, l2, rfl, hx, List.forall_mem_cons.2 ⟨hy, hl1⟩⟩
      · exact .inr (List.forall_mem_cons.2 ⟨hy, hl⟩)

/-- Blocks that are too small, up to `p`. -/
structure Skipped (h : Heap) (F : List (Nat × Nat)) (nu : Nat) (u : List Nat) (p : Nat) : Prop where
  walk : Walk h.ptr (h.ptr h.freep) u p
  small : ∀ y ∈ u, h.size y < nu ∧ y ≠ h.freep
  mem : ∀ y ∈ u, y ∈ F.map Prod.fst
  stop : p ∈ F.map Prod.fst

/-- From `freep` on, `malloc` comes to a block that is large enough, or back to `freep` when there is
none. -/
theorem FreeList.skip (hF : FreeList base h F) (nu : Nat) : ∃ u p, Skipped h F nu u p ∧
    (nu ≤ h.size p ∨ p = h.freep ∧ ∀ x ∈ F, x.2 < nu) := by
  obtain ⟨c1, c2, hc⟩ := List.append_of_mem hF.start
  have hring := hF.ring
  have hnodup := hF.nodup
  rw [hc] at hring hnodup
  have hwalk := hring.rotate.2
  have hfreep : ∀ y ∈ c2 ++ c1, y ≠ h.freep := by
    rintro y hy rfl
    rw [List.nodup_append, List.nodup_cons] at hnodup
    rcases List.mem_append.1 hy with hy | hy
    · exact hnodup.2.1.1 hy
    · exact hnodup.2.2 _ hy _ List.mem_cons_self rfl
  have hmem : ∀ y, y ∈ c2 ++ c1 ∨ y = h.freep ↔ y ∈ F.map Prod.fst := by
    intro y
    rw [hc, List.mem_append, List.mem_append, List.mem_cons]
    tauto
  obtain ⟨u, p, w, hsplit, hp, hu⟩ | hall := exists_first (fun y => nu ≤ h.size y) (c2 ++ c1)
  · rw [hsplit] at hwalk hfreep hmem
    refine ⟨u, p, ⟨(walk_append_cons.1 hwalk).1, fun y hy => ⟨not_le.1 (hu y hy), hfreep y ?_⟩, fun y hy => ?_, ?_⟩,
      .inl hp⟩
    · simp [hy]
    · exact (hmem y).1 (.inl (by simp [hy]))
    · exact (hmem p).1 (.inl (by simp))
  · refine ⟨c2 ++ c1, h.freep, ⟨hwalk, fun y hy => ⟨not_le.1 (hall y hy), hfreep y hy⟩,
      fun y hy => (hmem y).1 (.inl hy), hF.start⟩, ?_⟩
    by_cases hlast : nu ≤ h.size h.freep
    · exact .inl hlast
    · refine .inr ⟨rfl, fun x hx => ?_⟩
      rw [← hF.sizes x hx]
      rcases (hmem x.1).2 (List.mem_map_of_mem hx) with hx | hx
      · exact not_le.1 (hall _ hx)
      · rw [hx]
        exact not_le.1 hlast

theorem mallocLoop_skip {nu p q : Nat} {u : List Nat} (hwalk : Walk h.ptr p u q)
    (hsmall : ∀ y ∈ u, h.size y < nu ∧ y ≠ h.freep) (turns prevp : Nat) :
    mallocLoop n nu (turns + u.length) prevp p h =
      mallocLoop n nu turns ((prevp :: u).getLast (List.cons_ne_nil prevp u)) q h := by
  induction u generalizing p prevp with
  | nil =>
    rw [walk_nil] at hwalk
    rw [hwalk]
    rfl
  | cons y u ih =>
    obtain ⟨rfl, hwalk⟩ := hwalk
    obtain ⟨hp, hfreep⟩ := hsmall p List.mem_cons_self
    rw [List.length_cons, ← Nat.add_assoc, mallocLoop, if_neg (not_le.2 hp), if_neg hfreep,
      ih hwalk (fun y hy => hsmall y (List.mem_cons_of_mem p hy)), List.getLast_cons_cons]

/-- The block before `p`. -/
def before (h : Heap) (u : List Nat) : Nat := (h.freep :: u).getLast (List.cons_ne_nil h.freep u)

theorem Skipped.before_mem {nu p : Nat} {u : List Nat} (hs : Skipped h F nu u p) (hF : FreeList base h F) :
    before h u ∈ F.map Prod.fst := by
  rcases List.mem_cons.1 (List.getLast_mem (List.cons_ne_nil h.freep u)) with hlast | hlast
  · rw [before, hlast]
    exact hF.start
  · exact hs.mem _ hlast

theorem Skipped.ptr_before {nu p : Nat} {u : List Nat} (hs : Skipped h F nu u p) : h.ptr (before h u) = p :=
  hs.walk.next_getLast

theorem Skipped.loop {nu p turns : Nat} {u : List Nat} (hs : Skipped h F nu u p) (hturns : u.length < turns) :
    mallocLoop n nu turns h.freep (h.ptr h.freep) h =
      mallocLoop n nu (turns - u.length - 1 + 1) (before h u) p h := by
  have hsplit : turns - u.length - 1 + 1 + u.length = turns := by omega
  have hskip := mallocLoop_skip (n := n) hs.walk hs.small (turns - u.length - 1 + 1) h.freep
  rw [hsplit] at hskip
  exact hskip

theorem FreeList.found {nu : Nat} (hF : FreeList base h F) (hnu : 0 < nu) (hlarge : ∃ x ∈ F, nu ≤ x.2)
    (hall : ∀ x ∈ F, x.1 + HEADER * x.2 ≤ KERNBASE) :
    ∃ b h' F' N, (∀ n turns, N ≤ turns →
      mallocLoop n nu turns h.freep (h.ptr h.freep) h = .ok (b + HEADER, h')) ∧ Taken base h F nu b h' F' := by
  obtain ⟨u, p, hs, hstop⟩ := hF.skip nu
  have hp : nu ≤ h.size p := by
    rcases hstop with hp | ⟨-, hno⟩
    · exact hp
    · obtain ⟨x, hx, hle⟩ := hlarge
      exact absurd hle (not_le.2 (hno x hx))
  obtain ⟨b, h', F', htake, htaken⟩ := hF.take hnu hs.stop hp (hs.before_mem hF) hs.ptr_before hall
  refine ⟨b, h', F', u.length + 1, fun n turns hturns => ?_, htaken⟩
  rw [hs.loop hturns, mallocLoop, if_pos hp, htake]

/-! ## More memory -/

/-- The memory of some regions. -/
def spans (R : List (Nat × Nat)) : Multiset Nat := (R.map fun x => span x.1 x.2).sum

/-- The regions from `sbrk` lie above `base`, and no byte is in two of them. -/
structure Granted (base : Nat) (h : Heap) : Prop where
  nodup : (spans h.regions).Nodup
  range : ∀ u ∈ spans h.regions, base < u ∧ u < h.brk
  base : base < h.brk
  brk : h.brk ≤ KERNBASE

/-- All blocks end below a bound on their memory. -/
theorem FreeList.le_of_total {b : Nat} (hF : FreeList base h F) (hb : ∀ u ∈ total F, u < b) (hbase : base < b)
    (hx : x ∈ F) : x.1 + HEADER * x.2 ≤ b := by
  by_cases hpos : 0 < x.2
  · have hmem : x.1 + HEADER * x.2 - 1 ∈ total F := by
      refine mem_of_le (block_le_total hx) (mem_span.2 ?_)
      unfold HEADER
      omega
    have := hb _ hmem
    omega
  · have hxb : x.1 = base := by
      by_contra hne
      exact hpos (hF.pos x hx hne)
    have : x.2 = 0 := by omega
    rw [this, hxb]
    omega

theorem sbrk_cases (k : Nat) (h : Heap) :
    (sbrk k h = (none, { h with answers := h.answers.tail })) ∨
      ∃ p, h.brk ≤ p ∧ p + k ≤ KERNBASE ∧ sbrk k h = (some p, { h with
        brk := p + k, answers := h.answers.tail, regions := (p, k) :: h.regions }) := by
  unfold sbrk
  split
  · rename_i gap answers hanswers
    dsimp only
    by_cases hfits : h.brk + gap + k ≤ KERNBASE
    · rw [if_pos hfits]
      refine .inr ⟨h.brk + gap, Nat.le_add_right _ _, hfits, ?_⟩
      rw [hanswers, List.tail_cons]
    · rw [if_neg hfits, hanswers, List.tail_cons]
      exact .inl rfl
  · exact .inl rfl

theorem Granted.congr (hg : Granted base h) (hrest : h'.rest = h.rest) : Granted base h' := by
  simp only [Heap.rest, Prod.mk.injEq] at hrest
  obtain ⟨hnodup, hrange, hbase, hbrk⟩ := hg
  rw [← hrest.2.2] at hnodup hrange
  rw [← hrest.1] at hrange hbase hbrk
  exact ⟨hnodup, hrange, hbase, hbrk⟩

theorem Granted.grow {p k : Nat} (hg : Granted base h) (hp : h.brk ≤ p) (hfits : p + k ≤ KERNBASE)
    (hbrk : h'.brk = p + k) (hregions : h'.regions = (p, k) :: h.regions) : Granted base h' := by
  have hspans : spans h'.regions = span p k + spans h.regions := by
    rw [hregions]
    simp [spans]
  refine ⟨?_, fun u hu => ?_, ?_, ?_⟩
  · rw [hspans, nodup_add]
    refine ⟨nodup_span, hg.nodup, disjoint_left.2 fun hu hu' => ?_⟩
    have := hg.range _ hu'
    rw [mem_span] at hu
    omega
  · rw [hspans, mem_add, mem_span] at hu
    have hbase := hg.base
    rcases hu with hu | hu
    · omega
    · have := hg.range u hu
      omega
  · have := hg.base
    omega
  · rw [hbrk]
    exact hfits

/-- What `morecore` leaves when `sbrk` has given it memory. -/
structure Grew (base : Nat) (h : Heap) (F : List (Nat × Nat)) (nu : Nat) (h' : Heap)
    (F' : List (Nat × Nat)) : Prop where
  list : FreeList base h' F'
  large : ∃ x ∈ F', nu ≤ x.2
  account : total F' + spans h.regions = total F + spans h'.regions
  others : ∀ c < h.brk, c ∉ F.map Prod.fst → h'.size c = h.size c
  granted : Granted base h'
  new : ∀ u ∈ total F', u < h'.brk ∧ (u ∈ total F ∨ h.brk ≤ u)

/-- `sbrk` does not give what `morecore` asks for. -/
def Refused (nu : Nat) (h : Heap) : Prop := (sbrk ((if nu < 4096 then 4096 else nu) * HEADER) h).1 = none

theorem FreeList.morecore {nu : Nat} (hF : FreeList base h F) (hg : Granted base h)
    (hbelow : ∀ u ∈ total F, u < h.brk) (hnu : nu * HEADER < 2 ^ 32) :
    ∃ h', (Refused nu h ∧ ∀ n, morecore n nu h = .ok (0, h') ∧ h' = { h with answers := h.answers.tail }) ∨
      ¬ Refused nu h ∧
        ∃ F', (∀ n, F.length ≤ n → morecore n nu h = .ok (h'.freep, h')) ∧ Grew base h F nu h' F' := by
  unfold Umalloc.morecore Refused
  generalize hnu' : (if nu < 4096 then 4096 else nu) = nu'
  have hle : nu ≤ nu' ∧ 0 < nu' ∧ nu' * HEADER < 2 ^ 32 := by
    unfold HEADER at *
    split at hnu' <;> omega
  simp only [Nat.mod_eq_of_lt hle.2.2]
  obtain hfail | ⟨hp, hlo, hhi, hok⟩ := sbrk_cases (nu' * HEADER) h
  · exact ⟨_, .inl ⟨by rw [hfail], fun n => by rw [hfail]; exact ⟨rfl, rfl⟩⟩⟩
  · have hbase := hg.base
    have hall : ∀ x ∈ F, x.1 + HEADER * x.2 ≤ h.brk := fun x hx => hF.le_of_total hbelow hbase hx
    have hne : ∀ x ∈ F, x.1 ≠ hp := by
      intro x hx
      have := hall x hx
      by_cases hxb : x.1 = base
      · omega
      · have := hF.pos x hx hxb
        unfold HEADER at *
        omega
    have hF1 : FreeList base { h with
        brk := hp + nu' * HEADER, answers := h.answers.tail, regions := (hp, nu' * HEADER) :: h.regions
        size := update h.size hp nu' } F :=
      ⟨hF.head, hF.sorted, hF.ring, fun x hx => by simp [hne x hx, hF.sizes x hx], hF.start, hF.pos⟩
    have hcomm : HEADER * nu' = nu' * HEADER := Nat.mul_comm _ _
    have hbrk := hg.brk
    have hloose : Loose base { h with
        brk := hp + nu' * HEADER, answers := h.answers.tail, regions := (hp, nu' * HEADER) :: h.regions
        size := update h.size hp nu' } F hp nu' := by
      refine ⟨by simp, hle.2.1, by omega, fun x hx => .inl ((hall x hx).trans hlo), by omega, fun x hx => ?_⟩
      exact (hall x hx).trans hbrk
    obtain ⟨h', F', hfree, hfreed⟩ := hloose.free hF1
    have hplus : plus hp 1 = hp + HEADER := by
      rw [plus_of_le, Nat.mul_one]
      have := hle.2.1
      unfold HEADER at *
      omega
    have hrest := hfreed.rest
    simp only [Heap.rest, Prod.mk.injEq] at hrest
    refine ⟨h', .inr ⟨by rw [hok]; nofun, F', fun n hn => ?_, hfreed.list, ?_, ?_, fun c hc hcF => ?_, ?_, ?_⟩⟩
    · rw [hok]
      simp only [hplus]
      rw [hfree n hn]
      rfl
    · obtain ⟨x, hx, hxle⟩ := hfreed.large
      exact ⟨x, hx, hle.1.trans hxle⟩
    · rw [hfreed.account, hrest.2.2]
      simp only [spans, block, List.map_cons, List.sum_cons, hcomm]
      abel
    · rw [hfreed.others c (by omega) hcF]
      simp [show c ≠ hp by omega]
    · exact hg.grow hlo hhi hrest.1 hrest.2.2
    · intro u hu
      rw [hfreed.account, mem_add, block, mem_span] at hu
      rcases hu with hu | hu
      · dsimp only at hu
        exact ⟨by omega, .inr (by omega)⟩
      · have := hbelow u hu
        exact ⟨by omega, .inl hu⟩

/-! ## `malloc` -/

/-- `malloc` has returned the block at `b`. -/
structure Got (base : Nat) (h : Heap) (F : List (Nat × Nat)) (nu b : Nat) (h' : Heap)
    (F' : List (Nat × Nat)) : Prop where
  list : FreeList base h' F'
  size : h'.size b = nu
  account : block (b, nu) + total F' + spans h.regions = total F + spans h'.regions
  others : ∀ c < h.brk, c ≠ base → c ∉ total F → h'.size c = h.size c
  granted : Granted base h'

theorem Taken.got {nu b : Nat} {F' : List (Nat × Nat)} (ht : Taken base h F nu b h' F') (hg : Granted base h) :
    Got base h F nu b h' F' := by
  have hrest := ht.rest
  simp only [Heap.rest, Prod.mk.injEq] at hrest
  refine ⟨ht.list, ht.size, ?_, fun c _ _ hc => ht.others c hc, hg.congr ht.rest⟩
  rw [ht.account, hrest.2.2]

/-- There is no block that is large enough, and no memory for one. -/
def NoRoom (nu : Nat) (F : List (Nat × Nat)) (h : Heap) : Prop := (∀ x ∈ F, x.2 < nu) ∧ Refused nu h

/-- **`malloc`, with the list set up.** -/
theorem FreeList.malloc {nu : Nat} (hF : FreeList base h F) (h0 : 0 < base) (hg : Granted base h)
    (hbelow : ∀ u ∈ total F, u < h.brk) (hnu : 0 < nu) (hfit : nu * HEADER < 2 ^ 32) :
    ∃ r h', (∀ᶠ n in Filter.atTop, mallocLoop n nu n h.freep (h.ptr h.freep) h = .ok (r, h')) ∧
      (NoRoom nu F h ∧ r = 0 ∧ h' = { h with answers := h.answers.tail } ∨
        ¬ NoRoom nu F h ∧ ∃ b F', r = b + HEADER ∧ Got base h F nu b h' F') := by
  have hall : ∀ x ∈ F, x.1 + HEADER * x.2 ≤ KERNBASE := fun x hx =>
    (hF.le_of_total hbelow hg.base hx).trans hg.brk
  obtain ⟨u, p, hs, hp | ⟨rfl, hsmall⟩⟩ := hF.skip nu
  · -- the first turn around the list finds a block
    have hlarge : ∃ x ∈ F, nu ≤ x.2 := by
      obtain ⟨x, hx, rfl⟩ := List.mem_map.1 hs.stop
      exact ⟨x, hx, by rwa [← hF.sizes x hx]⟩
    obtain ⟨b, h', F', N, hloop, htaken⟩ := hF.found hnu hlarge hall
    refine ⟨b + HEADER, h', ?_, .inr ⟨fun hno => ?_, b, F', rfl, htaken.got hg⟩⟩
    · filter_upwards [Filter.eventually_ge_atTop N] with n hn
      exact hloop n n hn
    · obtain ⟨x, hx, hle⟩ := hlarge
      exact absurd hle (not_le.2 (hno.1 x hx))
  · have hfreep : h.size h.freep < nu := by
      obtain ⟨x, hx, hxf⟩ := List.mem_map.1 hF.start
      rw [← hxf, hF.sizes x hx]
      exact hsmall x hx
    obtain ⟨h1, ⟨hrefused, hfail⟩ | ⟨hgiven, F1, hok, hgrew⟩⟩ := hF.morecore hg hbelow hfit
    · refine ⟨0, h1, ?_, .inl ⟨⟨hsmall, hrefused⟩, rfl, (hfail 0).2⟩⟩
      filter_upwards [Filter.eventually_gt_atTop u.length] with n hn
      rw [hs.loop hn, mallocLoop, if_neg (not_le.2 hfreep), if_pos rfl, (hfail n).1]
      rfl
    · -- the new block is large enough
      have hall1 : ∀ x ∈ F1, x.1 + HEADER * x.2 ≤ KERNBASE := fun x hx =>
        (hgrew.list.le_of_total (fun u hu => (hgrew.new u hu).1) hgrew.granted.base hx).trans hgrew.granted.brk
      have hne : h1.freep ≠ 0 := by
        obtain ⟨x, hx, hxf⟩ := List.mem_map.1 hgrew.list.start
        have := hgrew.list.base_le hx
        omega
      obtain ⟨b, h', F', N, hloop, htaken⟩ := hgrew.list.found hnu hgrew.large hall1
      have hgot := htaken.got hgrew.granted
      refine ⟨b + HEADER, h', ?_, .inr ⟨fun hno => hgiven hno.2, b, F', rfl, hgot.list, hgot.size, ?_,
        fun c hc hcb hcF => ?_, hgot.granted⟩⟩
      · filter_upwards [Filter.eventually_ge_atTop (u.length + 1 + N), Filter.eventually_ge_atTop F.length]
          with n hn hnF
        rw [hs.loop (by omega), mallocLoop, if_neg (not_le.2 hfreep), if_pos rfl, hok n hnF]
        show (if h1.freep = 0 then _ else _) = _
        rw [if_neg hne]
        exact hloop n _ (by omega)
      · have h1' := hgot.account
        have h2' := hgrew.account
        have : block (b, nu) + total F' + spans h.regions + spans h1.regions =
            total F + spans h'.regions + spans h1.regions := by
          rw [add_right_comm, h1', add_right_comm, h2']
          abel
        exact add_right_cancel this
      · have hcF1 : c ∉ F.map Prod.fst := by
          intro hc'
          obtain ⟨x, hx, rfl⟩ := List.mem_map.1 hc'
          exact hcF (hF.mem_total hx hcb)
        rw [← hgrew.others c hc hcF1]
        refine htaken.others c fun hc1 => ?_
        rcases (hgrew.new c hc1).2 with hold | hnew
        · exact hcF hold
        · omega

/-! ## Programs -/

/-- The free list, which `malloc` sets up when it is called for the first time. -/
def Listed (base : Nat) (h : Heap) (F : List (Nat × Nat)) : Prop :=
  FreeList base h F ∨ h.freep = 0 ∧ F = [(base, 0)] ∧ h.regions = []

/-- The block behind a pointer from `malloc`. -/
def liveBlock (h : Heap) (x : Nat × Nat) : Multiset Nat := block (x.1 - HEADER, h.size (x.1 - HEADER))

def liveTotal (m : Machine) : Multiset Nat := (m.live.map (liveBlock m.heap)).sum

structure Sound (base : Nat) (m : Machine) (F : List (Nat × Nat)) : Prop where
  list : Listed base m.heap F
  granted : Granted base m.heap
  account : total F + liveTotal m = spans m.heap.regions
  usable : ∀ x ∈ m.live, HEADER ≤ x.1 ∧ x.2 + HEADER ≤ HEADER * m.heap.size (x.1 - HEADER)

variable {M : Machine}

theorem Sound.nodup (hS : Sound base M F) : (total F + liveTotal M).Nodup := by
  rw [hS.account]
  exact hS.granted.nodup

theorem Sound.range (hS : Sound base M F) {u : Nat} (hu : u ∈ total F + liveTotal M) :
    base < u ∧ u < M.heap.brk := by
  rw [hS.account] at hu
  exact hS.granted.range u hu

theorem liveTotal_cut {l1 l2 : List (Nat × Nat)} (hlive : M.live = l1 ++ x :: l2) :
    liveTotal M = liveBlock M.heap x + ((l1 ++ l2).map (liveBlock M.heap)).sum := by
  rw [liveTotal, hlive]
  simp only [List.map_append, List.map_cons, List.sum_append, List.sum_cons]
  abel

theorem mem_liveTotal {u : Nat} (hx : x ∈ M.live) (hu : u ∈ liveBlock M.heap x) : u ∈ liveTotal M := by
  obtain ⟨l1, l2, hlive⟩ := List.append_of_mem hx
  rw [liveTotal_cut hlive]
  exact mem_add.2 (.inl hu)

theorem Sound.header_mem (hS : Sound base M F) (hx : x ∈ M.live) : x.1 - HEADER ∈ liveBlock M.heap x := by
  have := (hS.usable x hx).2
  rw [liveBlock, block, mem_span]
  unfold HEADER at *
  omega

theorem Sound.notMem_total (hS : Sound base M F) {u : Nat} (hx : x ∈ M.live) (hu : u ∈ liveBlock M.heap x) :
    u ∉ total F := fun hF =>
  disjoint_left.1 (nodup_add.1 hS.nodup).2.2 hF (mem_liveTotal hx hu)

/-- No free block begins in a block that is in use. -/
theorem Sound.notMem_list (hS : Sound base M F) (hF : FreeList base M.heap F) {u : Nat} (hx : x ∈ M.live)
    (hu : u ∈ liveBlock M.heap x) : u ∉ F.map Prod.fst := by
  intro hmem
  obtain ⟨y, hy, rfl⟩ := List.mem_map.1 hmem
  by_cases hbase : y.1 = base
  · have := hS.range (mem_add.2 (.inr (mem_liveTotal hx hu)))
    omega
  · exact hS.notMem_total hx hu (hF.mem_total hy hbase)

/-- The sizes in the headers of the blocks in use decide what they are. -/
theorem live_congr {l : List (Nat × Nat)} (h' : Heap) (hsize : ∀ x ∈ l, h'.size (x.1 - HEADER) = h.size (x.1 - HEADER)) :
    (l.map (liveBlock h')).sum = (l.map (liveBlock h)).sum := by
  refine congrArg List.sum (List.map_congr_left fun x hx => ?_)
  rw [liveBlock, liveBlock, hsize x hx]

theorem Listed.init (hL : Listed base h F) (h0 : 0 < base) : FreeList base (init base h) F := by
  unfold Umalloc.init
  rcases hL with hF | ⟨hfreep, rfl, -⟩
  · obtain ⟨x, hx, hxf⟩ := List.mem_map.1 hF.start
    have := hF.base_le hx
    rw [if_neg (by omega)]
    exact hF
  · rw [if_pos hfreep]
    refine ⟨rfl, List.pairwise_singleton _ _, ?_, ?_, ?_, ?_⟩
    · simp
    · simp
    · simp
    · simp

theorem init_rest (base : Nat) (h : Heap) : (init base h).rest = h.rest := by
  unfold init
  split <;> rfl

theorem init_size {c : Nat} (hc : c ≠ base) : (init base h).size c = h.size c := by
  unfold init
  split <;> simp [hc]

theorem sbrk_fst_congr (k : Nat) (hrest : h'.rest = h.rest) : (sbrk k h').1 = (sbrk k h).1 := by
  simp only [Heap.rest, Prod.mk.injEq] at hrest
  unfold sbrk
  rw [hrest.1, hrest.2.1]
  cases h.answers with
  | nil => rfl
  | cons answer answers =>
    cases answer with
    | none => rfl
    | some gap =>
      dsimp only
      rw [apply_ite Prod.fst, apply_ite Prod.fst]

theorem init_refused (base nu : Nat) (h : Heap) : Refused nu (init base h) ↔ Refused nu h := by
  unfold Refused
  rw [sbrk_fst_congr _ (init_rest base h)]

/-- A call that returns 0 leaves the heap sound, and so does one that returns a block, if that is as
large as was asked for. -/
theorem Sound.malloc {nbytes : Nat} (hS : Sound base M F) (h0 : 0 < base)
    (hfit : nunits nbytes * HEADER < 2 ^ 32) :
    ∃ r h', (∀ᶠ n in Filter.atTop, malloc base n nbytes M.heap = .ok (r, h')) ∧
      (NoRoom (nunits nbytes) F M.heap ∧ r = 0 ∧ FreeList base h' F ∧ Sound base ⟨h', M.live⟩ F ∨
        ¬ NoRoom (nunits nbytes) F M.heap ∧ r ≠ 0 ∧ h'.size (r - HEADER) = nunits nbytes ∧
          (nbytes + HEADER ≤ HEADER * nunits nbytes → ∃ F', Sound base ⟨h', (r, nbytes) :: M.live⟩ F')) := by
  have hF := hS.list.init h0
  have hrest := init_rest base M.heap
  simp only [Heap.rest, Prod.mk.injEq] at hrest
  have hg := hS.granted.congr (init_rest base M.heap)
  have hbelow : ∀ u ∈ total F, u < (init base M.heap).brk := by
    intro u hu
    rw [hrest.1]
    exact (hS.range (mem_add.2 (.inl hu))).2
  have hroom : NoRoom (nunits nbytes) F (init base M.heap) ↔ NoRoom (nunits nbytes) F M.heap :=
    and_congr_right fun _ => init_refused base _ _
  have hheader : ∀ x ∈ M.live, x.1 - HEADER ≠ base := by
    intro x hx
    have := hS.range (mem_add.2 (.inr (mem_liveTotal hx (hS.header_mem hx))))
    omega
  obtain ⟨r, h', hrun, hres⟩ := hF.malloc h0 hg hbelow (show 0 < nunits nbytes from Nat.succ_pos _) hfit
  refine ⟨r, h', hrun, ?_⟩
  rw [hroom] at hres
  rcases hres with ⟨hno, rfl, rfl⟩ | ⟨hno, b, F', rfl, hgot⟩
  · have hlist : FreeList base { init base M.heap with answers := (init base M.heap).answers.tail } F :=
      ⟨hF.head, hF.sorted, hF.ring, hF.sizes, hF.start, hF.pos⟩
    refine .inl ⟨hno, rfl, hlist, .inl hlist, ⟨hg.nodup, hg.range, hg.base, hg.brk⟩, ?_, fun x hx => ?_⟩
    · have hlive : liveTotal ⟨{ init base M.heap with answers := (init base M.heap).answers.tail }, M.live⟩ =
          liveTotal M := live_congr _ fun x hx => init_size (hheader x hx)
      dsimp only
      rw [hlive, hS.account, hrest.2.2]
    · dsimp only
      rw [init_size (hheader x hx)]
      exact hS.usable x hx
  · have hsize : ∀ x ∈ M.live, h'.size (x.1 - HEADER) = M.heap.size (x.1 - HEADER) := by
      intro x hx
      have hmem := hS.header_mem hx
      have hrange := hS.range (mem_add.2 (.inr (mem_liveTotal hx hmem)))
      rw [hgot.others _ (by rw [hrest.1]; exact hrange.2) (hheader x hx) (hS.notMem_total hx hmem),
        init_size (hheader x hx)]
    refine .inr ⟨hno, by unfold HEADER; omega, by rw [Nat.add_sub_cancel, hgot.size], fun hunits =>
      ⟨F', .inl hgot.list, hgot.granted, ?_, ?_⟩⟩
    · have hlive : liveTotal ⟨h', (b + HEADER, nbytes) :: M.live⟩ = block (b, nunits nbytes) + liveTotal M := by
        rw [liveTotal, List.map_cons, List.sum_cons, liveBlock, Nat.add_sub_cancel, hgot.size]
        exact congrArg _ (live_congr _ hsize)
      have haccount := hgot.account
      rw [hrest.2.2, ← hS.account] at haccount
      dsimp only
      rw [hlive]
      refine add_left_cancel (a := total F) ?_
      rw [← haccount]
      abel
    · refine List.forall_mem_cons.2 ⟨⟨Nat.le_add_left _ _, ?_⟩, fun x hx => ?_⟩
      · rw [Nat.add_sub_cancel, hgot.size]
        exact hunits
      · rw [hsize x hx]
        exact hS.usable x hx

/-- A program that has a pointer has called `malloc`. -/
theorem Sound.freeList (hS : Sound base M F) (hx : x ∈ M.live) : FreeList base M.heap F := by
  refine hS.list.resolve_right ?_
  rintro ⟨-, -, hnone⟩
  have hmem : x.1 - HEADER ∈ spans M.heap.regions := by
    rw [← hS.account]
    exact mem_add.2 (.inr (mem_liveTotal hx (hS.header_mem hx)))
  rw [hnone] at hmem
  simp [spans] at hmem

theorem Sound.loose (hS : Sound base M F) (hF : FreeList base M.heap F) (hx : x ∈ M.live) :
    Loose base M.heap F (x.1 - HEADER) (M.heap.size (x.1 - HEADER)) := by
  have hmem := hS.header_mem hx
  have hrange : ∀ u ∈ liveBlock M.heap x, base < u ∧ u < M.heap.brk := fun u hu =>
    hS.range (mem_add.2 (.inr (mem_liveTotal hx hu)))
  have hpos : 0 < M.heap.size (x.1 - HEADER) := by
    have := (hS.usable x hx).2
    unfold HEADER at *
    omega
  have hbrk := hS.granted.brk
  have hall : ∀ y ∈ F, y.1 + HEADER * y.2 ≤ M.heap.brk := fun y hy =>
    hF.le_of_total (fun u hu => (hS.range (mem_add.2 (.inl hu))).2) hS.granted.base hy
  refine ⟨rfl, hpos, (hrange _ hmem).1, fun y hy => ?_, ?_, fun y hy => (hall y hy).trans hbrk⟩
  · by_cases hbase : y.1 = base
    · -- `base` has no memory
      left
      have hsize : y.2 = 0 := by
        have h1 := hF.sizes y hy
        have h2 := hF.sizes _ hF.base_mem
        rw [hbase] at h1
        exact h1.symm.trans h2
      rw [hsize, hbase]
      exact (hrange _ hmem).1.le
    · have hdisj : Disjoint (block y) (liveBlock M.heap x) := by
        rw [disjoint_left]
        exact fun hu hu' => hS.notMem_total hx hu' (mem_of_le (block_le_total hy) hu)
      exact apart_of_disjoint hdisj (Nat.mul_pos (by decide) (hF.pos y hy hbase))
        (Nat.mul_pos (by decide) hpos)
  · have hlast : x.1 - HEADER + HEADER * M.heap.size (x.1 - HEADER) - 1 ∈ liveBlock M.heap x := by
      rw [liveBlock, block, mem_span]
      unfold HEADER at *
      dsimp only
      omega
    have := (hrange _ hlast).2
    omega

theorem Sound.free {k : Nat} (hS : Sound base M F) (hk : M.live[k]? = some x) :
    ∃ h' F', (∀ᶠ n in Filter.atTop, free n x.1 M.heap = .ok h') ∧ Sound base ⟨h', M.live.eraseIdx k⟩ F' := by
  obtain ⟨hlt, hget⟩ := List.getElem?_eq_some_iff.1 hk
  have hx : x ∈ M.live := List.mem_of_getElem? hk
  have hmem := hS.header_mem hx
  have husable := hS.usable x hx
  have hperm := List.getElem_cons_eraseIdx_perm hlt
  rw [hget] at hperm
  have htotal : liveTotal M = liveBlock M.heap x + ((M.live.eraseIdx k).map (liveBlock M.heap)).sum := by
    rw [liveTotal, ← ((hperm.map (liveBlock M.heap)).sum_eq), List.map_cons, List.sum_cons]
  have hF := hS.freeList hx
  have hrange : ∀ u ∈ liveBlock M.heap x, base < u ∧ u < M.heap.brk := fun u hu =>
    hS.range (mem_add.2 (.inr (mem_liveTotal hx hu)))
  -- the other pointers have blocks of their own
  have hothers : ∀ y ∈ M.live.eraseIdx k, y.1 - HEADER ∉ liveBlock M.heap x := by
    intro y hy hyx
    have hnodup := (nodup_add.1 hS.nodup).2.1
    rw [htotal] at hnodup
    refine disjoint_left.1 (nodup_add.1 hnodup).2.2 hyx ?_
    obtain ⟨l1, l2, hcut⟩ := List.append_of_mem hy
    rw [hcut, List.map_append, List.map_cons, List.sum_append, List.sum_cons]
    have := hS.header_mem (List.mem_of_mem_eraseIdx hy)
    exact mem_add.2 (.inr (mem_add.2 (.inl this)))
  obtain ⟨h', F', hfree, hfreed⟩ := (hS.loose hF hx).free hF
  rw [Nat.sub_add_cancel husable.1] at hfree
  have hrest := hfreed.rest
  simp only [Heap.rest, Prod.mk.injEq] at hrest
  have hsize : ∀ y ∈ M.live.eraseIdx k, h'.size (y.1 - HEADER) = M.heap.size (y.1 - HEADER) := by
    intro y hy
    refine hfreed.others _ (fun heq => hothers y hy ?_) ?_
    · rw [heq]
      exact hmem
    · have hy' := List.mem_of_mem_eraseIdx hy
      exact hS.notMem_list hF hy' (hS.header_mem hy')
  refine ⟨h', F', ?_, .inl hfreed.list, ?_, ?_, fun y hy => ?_⟩
  · filter_upwards [Filter.eventually_ge_atTop F.length] with n hn
    exact hfree n hn
  · exact hS.granted.congr hfreed.rest
  · have hlive : liveTotal ⟨h', M.live.eraseIdx k⟩ = ((M.live.eraseIdx k).map (liveBlock M.heap)).sum :=
      live_congr _ hsize
    have haccount := hS.account
    rw [htotal] at haccount
    dsimp only
    rw [hlive, hfreed.account, hrest.2.2, ← haccount, liveBlock]
    abel
  · dsimp only
    rw [hsize y hy]
    exact hS.usable y (List.mem_of_mem_eraseIdx hy)

/-- A program writes to memory that it has asked for. -/
theorem Sound.write {u p z : Nat} (hS : Sound base M F) (hx : x ∈ M.live) (hlo : x.1 ≤ u) (hhi : u < x.1 + x.2) :
    Sound base { M with heap := { M.heap with
      ptr := update M.heap.ptr u p, size := update M.heap.size u z } } F := by
  have husable := hS.usable x hx
  have hmem : u ∈ liveBlock M.heap x := by
    rw [liveBlock, block, mem_span]
    unfold HEADER at *
    dsimp only
    omega
  have hF := hS.freeList hx
  have hnot : ∀ y ∈ F, y.1 ≠ u := fun y hy heq =>
    hS.notMem_list hF hx hmem (heq ▸ List.mem_map_of_mem hy)
  -- no header is written
  have hheader : ∀ y ∈ M.live, y.1 - HEADER ≠ u := by
    intro y hy heq
    by_cases hyx : y = x
    · subst hyx
      unfold HEADER at *
      omega
    · obtain ⟨l1, l2, hcut⟩ := List.append_of_mem hx
      have hy' : y ∈ l1 ++ l2 := by
        rw [hcut, List.mem_append, List.mem_cons] at hy
        rw [List.mem_append]
        tauto
      have hnodup := (nodup_add.1 hS.nodup).2.1
      rw [liveTotal_cut hcut] at hnodup
      refine disjoint_left.1 (nodup_add.1 hnodup).2.2 hmem ?_
      obtain ⟨l3, l4, hcut'⟩ := List.append_of_mem hy'
      rw [hcut', List.map_append, List.map_cons, List.sum_append, List.sum_cons, ← heq]
      exact mem_add.2 (.inr (mem_add.2 (.inl (hS.header_mem hy))))
  have hsize : ∀ y ∈ M.live, update M.heap.size u z (y.1 - HEADER) = M.heap.size (y.1 - HEADER) :=
    fun y hy => update_of_ne (hheader y hy) _ _
  refine ⟨.inl ⟨hF.head, hF.sorted, hF.ring.congr fun c hc => ?_, fun y hy => ?_, hF.start, hF.pos⟩,
    hS.granted.congr rfl, ?_, fun y hy => ?_⟩
  · obtain ⟨y, hy, rfl⟩ := List.mem_map.1 hc
    exact update_of_ne (hnot y hy) _ _
  · exact (update_of_ne (hnot y hy) _ _).trans (hF.sizes y hy)
  · exact (congrArg _ (live_congr _ hsize)).trans hS.account
  · dsimp only
    rw [hsize y hy]
    exact hS.usable y hy

theorem nunits_fit (nbytes : Nat) (hn : nbytes + 16 ≤ 2 ^ 31) :
    nbytes + HEADER ≤ HEADER * nunits nbytes ∧ nunits nbytes * HEADER < 2 ^ 31 ∧
      nunits nbytes * HEADER < 2 ^ 32 := by
  unfold nunits HEADER
  omega

theorem Sound.step (hS : Sound base M F) (h0 : 0 < base) (op : Op) :
    ∃ M' F', (∀ᶠ n in Filter.atTop, step base n M op = .ok M') ∧ Sound base M' F' := by
  cases op with
  | malloc nbytes =>
    by_cases hn : nbytes < 2 ^ 30
    · have hfit := nunits_fit nbytes (by omega)
      obtain ⟨r, h', hrun, ⟨-, rfl, -, hS'⟩ | ⟨-, hr, -, hS'⟩⟩ := hS.malloc h0 hfit.2.2
      · refine ⟨_, F, hrun.mono fun n hn' => ?_, hS'⟩
        simp only [Umalloc.step, if_pos hn, hn']
        rfl
      · obtain ⟨F', hS'⟩ := hS' hfit.1
        refine ⟨_, F', hrun.mono fun n hn' => ?_, hS'⟩
        simp only [Umalloc.step, if_pos hn, hn']
        show Except.ok _ = _
        rw [if_neg hr]
    · exact ⟨M, F, .of_forall fun n => if_neg hn, hS⟩
  | free k =>
    cases hk : M.live[k]? with
    | none =>
      refine ⟨M, F, .of_forall fun n => ?_, hS⟩
      simp only [Umalloc.step, hk]
    | some x =>
      obtain ⟨h', F', hrun, hS'⟩ := hS.free hk
      refine ⟨_, F', hrun.mono fun n hn => ?_, hS'⟩
      simp only [Umalloc.step, hk, hn]
      rfl
  | write u p z =>
    by_cases hu : ∃ x ∈ M.live, x.1 ≤ u ∧ u < x.1 + x.2
    · obtain ⟨x, hx, hlo, hhi⟩ := hu
      exact ⟨_, F, .of_forall fun n => if_pos ⟨x, hx, hlo, hhi⟩, hS.write hx hlo hhi⟩
    · exact ⟨M, F, .of_forall fun n => if_neg hu, hS⟩

theorem Sound.run (h0 : 0 < base) (ops : List Op) : ∀ {M F}, Sound base M F →
    ∃ M' F', (∀ᶠ n in Filter.atTop, Lib.run (Umalloc.step base n) M ops = .ok M') ∧ Sound base M' F' := by
  induction ops with
  | nil => exact fun hS => ⟨_, _, .of_forall fun _ => rfl, hS⟩
  | cons op ops ih =>
    intro M F hS
    obtain ⟨M1, F1, hstep, hS1⟩ := hS.step h0 op
    obtain ⟨M2, F2, hrun, hS2⟩ := ih hS1
    refine ⟨M2, F2, ?_, hS2⟩
    filter_upwards [hstep, hrun] with n hn hn'
    rw [run_cons_of_ok hn, hn']

/-- Where a program has `base`, and where its memory ends when it starts. -/
structure Layout where
  base : Nat
  brk : Nat
  base_pos : 0 < base
  base_lt : base + HEADER ≤ brk
  brk_le : brk ≤ KERNBASE

theorem start_sound (L : Layout) (ptr size : Nat → Nat) (answers : List (Option Nat)) :
    Sound L.base (start ptr size L.brk answers) [(L.base, 0)] := by
  refine ⟨.inr ⟨rfl, rfl, rfl⟩, ⟨nodup_zero, nofun, ?_, L.brk_le⟩, ?_, nofun⟩
  · have := L.base_lt
    unfold HEADER at this
    dsimp only [start]
    omega
  · simp [total, block, liveTotal, start, spans]

/-- **The heap of a program.**  For every sequence of calls of `malloc` and `free` and of writes to what
`malloc` has returned, whatever `sbrk` answers: every call returns; the free list is one circular list,
sorted by address, and no free block ends where another begins; the free blocks and the blocks in use
share no byte and make up what `sbrk` has returned; each block in use is as large as was asked for; and
if the next call of `malloc` fails, the free list is what it was. -/
theorem heap_sound (L : Layout) (ptr size : Nat → Nat) (answers : List (Option Nat)) (ops : List Op) :
    ∃ M F, (∀ᶠ n in Filter.atTop, Lib.run (Umalloc.step L.base n) (start ptr size L.brk answers) ops = .ok M) ∧
      Listed L.base M.heap F ∧
      (total F + liveTotal M).Nodup ∧ total F + liveTotal M = spans M.heap.regions ∧
      (∀ x ∈ M.live, x.2 + HEADER ≤ HEADER * M.heap.size (x.1 - HEADER)) ∧
      ∀ nbytes < 2 ^ 30, ∃ r h', (∀ᶠ n in Filter.atTop, malloc L.base n nbytes M.heap = .ok (r, h')) ∧
        (r = 0 → FreeList L.base h' F) := by
  obtain ⟨M, F, hrun, hS⟩ := Sound.run L.base_pos ops (start_sound L ptr size answers)
  refine ⟨M, F, hrun, hS.list, hS.nodup, hS.account, fun x hx => (hS.usable x hx).2, fun nbytes hn => ?_⟩
  have hfit := nunits_fit nbytes (by omega)
  obtain ⟨r, h', hmalloc, ⟨-, rfl, hlist, -⟩ | ⟨-, hr, -⟩⟩ := hS.malloc L.base_pos hfit.2.2
  · exact ⟨0, h', hmalloc, fun _ => hlist⟩
  · exact ⟨r, h', hmalloc, fun h0 => absurd h0 hr⟩

/-- Two blocks are cut from the end of the first region; the second of them is free again, and joins
what is left. -/
example : (match Lib.run (Umalloc.step 96 9) (start (fun _ => 0) (fun _ => 0) 4096 [some 0])
      [.malloc 10, .malloc 100, .free 0] with
    | .ok M => M.live == [(36848, 10)] && M.heap.ptr 96 == 4096 && M.heap.ptr 4096 == 96 &&
        M.heap.size 4096 == 4093 && M.heap.freep == 4096
    | .error _ => false) = true := by
  decide +kernel

end Laboratorio.Xv6.Umalloc
