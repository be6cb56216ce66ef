import Laboratorio.Lib.CInt
import Laboratorio.Xv6.Umalloc.Sound

/-!
# The sizes that `umalloc.c` asks for

`malloc` once more, for every `uint`: with the `int` that `sbrk` gets, and with what the kernel does
when that is not positive.  The requests to `sbrk` are kept in a list.
-/

namespace Laboratorio.Xv6.Umalloc.Sizes

open Laboratorio.Lib SList

/-- The regions that are left below the end of memory. -/
def cut (sz : Nat) (R : List (Nat × Nat)) : List (Nat × Nat) := R.map fun x => (x.1, min x.2 (sz - x.1))

/-- `sbrk`, with `growproc` and `deallocuvm` for a number that is not positive: memory gets smaller,
unless the new size is above the old one, as it is when `sz + n` wraps around. -/
def sbrk (n : Int) (h : Heap) : Option Nat × Heap :=
  if 0 < n then Umalloc.sbrk n.toNat h
  else
    let sz := h.brk + (h.answers.head?.bind id).getD 0
    let h := { h with brk := sz, answers := h.answers.tail }
    let newsz := ((sz + n) % 2 ^ 32).toNat
    if sz ≤ newsz then (some sz, h)
    else if newsz = 0 then (none, h)
    else (some sz, { h with brk := newsz, regions := cut newsz h.regions })

/-- A call of `sbrk`: for so many units, with this argument. -/
structure Request where
  nu : Nat
  bytes : Int
  deriving DecidableEq, Repr

/-- `if(nu < 4096) nu = 4096;`. -/
def atLeast (nu : Nat) : Nat := if nu < 4096 then 4096 else nu

def request (nu : Nat) : Request := ⟨atLeast nu, wrap32 (atLeast nu * HEADER)⟩

/-- `morecore` behind `sbrk`, for the answer of `sbrk`. -/
def addCore (n nu : Nat) : Option Nat × Heap → Except Stop (Nat × Heap)
  | (none, h) => .ok (0, h)
  | (some hp, h) => do
    let h ← free n (plus hp 1) { h with size := Function.update h.size hp nu }
    .ok (h.freep, h)

/-- `freep` or 0, with the request that was made. -/
def morecore (n nu : Nat) (h : Heap) : Except Stop (Nat × Request × Heap) :=
  (addCore n (atLeast nu) (sbrk (request nu).bytes h)).map fun r => (r.1, request nu, r.2)

/-- The loop of `malloc`, with the requests so far. -/
def mallocLoop (n nunits : Nat) :
    (turns prevp p : Nat) → List Request → Heap → Except Stop (Nat × List Request × Heap)
  | 0, _, _, _, _ => .error .turns
  | turns + 1, prevp, p, rs, h =>
    if h.size p ≥ nunits then .ok ((take nunits prevp p h).1, rs, (take nunits prevp p h).2)
    else if p = h.freep then do
      let (p, r, h) ← morecore n nunits h
      if p = 0 then .ok (0, rs ++ [r], h) else mallocLoop n nunits turns p (h.ptr p) (rs ++ [r]) h
    else mallocLoop n nunits turns p (h.ptr p) rs h

def malloc (base n nbytes : Nat) (h : Heap) : Except Stop (Nat × List Request × Heap) :=
  let h := init base h
  mallocLoop n (nunits nbytes) n h.freep (h.ptr h.freep) [] h

/-! ## Programs -/

inductive Op where
  | malloc (nbytes : BitVec 32)
  | free (k : Nat)
  | write (a ptr size : Nat)

def step (base n : Nat) (m : Machine) : Op → Except Stop Machine
  | .malloc nbytes => do
    let (p, _, h) ← malloc base n nbytes.toNat m.heap
    .ok ⟨h, if p = 0 then m.live else (p, nbytes.toNat) :: m.live⟩
  | .free k => Umalloc.step base n m (.free k)
  | .write a ptr size => Umalloc.step base n m (.write a ptr size)

/-- What `sbrk` gets is a positive number, the size of so many units. -/
def Request.Good (q : Request) : Prop := 0 < q.bytes ∧ q.bytes = q.nu * HEADER

/-- There are `nbytes` bytes behind `r`: in its block, and in the memory from `sbrk`. -/
def Usable (h : Heap) (r nbytes : Nat) : Prop :=
  nbytes + HEADER ≤ HEADER * h.size (r - HEADER) ∧
    ∀ u, r ≤ u → u < r + nbytes → ∃ x ∈ h.regions, x.1 ≤ u ∧ u < x.1 + x.2

/-- `malloc` returns, with 0 or enough memory, and all it asked `sbrk` for was right. -/
def SizeOk (base nbytes : Nat) (h : Heap) : Prop :=
  ∃ r h', (∀ᶠ n in Filter.atTop, ∃ rs, malloc base n nbytes h = .ok (r, rs, h') ∧ ∀ q ∈ rs, q.Good) ∧
    (r = 0 ∨ Usable h' r nbytes)

/-- The free list is empty: `malloc` has not been called, or `base` is alone. -/
def NoBlock (base : Nat) (h : Heap) : Prop := h.freep = 0 ∨ h.ptr base = base

instance (base : Nat) (h : Heap) : Decidable (NoBlock base h) := inferInstanceAs (Decidable (_ ∨ _))

/-- The sizes that `malloc` can work with; for the last seven there must be no memory at all. -/
def Fits (base : Nat) (m : Machine) : Op → Prop
  | .malloc nbytes => nbytes.toNat + 16 ≤ 2 ^ 31 ∨
      2 ^ 32 ≤ nbytes.toNat + 7 ∧ NoBlock base m.heap ∧ (sbrk 32768 m.heap).1 = none
  | _ => True

instance (base : Nat) (m : Machine) (op : Op) : Decidable (Fits base m op) :=
  match op with
  | .malloc _ => inferInstanceAs (Decidable (_ ∨ _))
  | .free _ => inferInstanceAs (Decidable True)
  | .write _ _ _ => inferInstanceAs (Decidable True)

/-- The states of a program all of whose calls of `malloc` have sizes that fit. -/
inductive Reached (L : Layout) (ptr size : Nat → Nat) (answers : List (Option Nat)) : Machine → Prop
  | start : Reached L ptr size answers (start ptr size L.brk answers)
  | step {M M' : Machine} {op : Op} : Reached L ptr size answers M → Fits L.base M op →
      (∀ᶠ n in Filter.atTop, step L.base n M op = .ok M') → Reached L ptr size answers M'

variable {base n : Nat} {h h' : Heap} {F : List (Nat × Nat)} {M : Machine}

/-! ## Small sizes -/

theorem sbrk_of_pos {k : Nat} (hk : 0 < k) (h : Heap) : sbrk k h = Umalloc.sbrk k h := by
  unfold sbrk
  rw [if_pos (by omega)]
  rfl

theorem atLeast_fit {nu : Nat} (hnu : nu * HEADER < 2 ^ 31) :
    0 < atLeast nu * HEADER ∧ atLeast nu * HEADER < 2 ^ 31 := by
  unfold atLeast HEADER at *
  split <;> omega

theorem request_bytes {nu : Nat} (hnu : nu * HEADER < 2 ^ 31) :
    (request nu).bytes = (atLeast nu * HEADER : Nat) := by
  have hfit := atLeast_fit hnu
  have hlo : -2 ^ 31 ≤ ((atLeast nu * HEADER : Nat) : Int) := by omega
  have hhi : ((atLeast nu * HEADER : Nat) : Int) < 2 ^ 31 := by omega
  have h := wrap32_of_range hlo hhi
  unfold request
  rw [← Nat.cast_mul, h]

theorem request_good {nu : Nat} (hnu : nu * HEADER < 2 ^ 31) : (request nu).Good := by
  have := atLeast_fit hnu
  have hbytes := request_bytes hnu
  exact ⟨by omega, by rw [hbytes, Nat.cast_mul]; rfl⟩

theorem morecore_eq (n nu : Nat) (h : Heap) :
    Umalloc.morecore n nu h = addCore n (atLeast nu) (Umalloc.sbrk (atLeast nu * HEADER % 2 ^ 32) h) := by
  unfold Umalloc.morecore addCore atLeast
  generalize (if nu < 4096 then 4096 else nu) = nu'
  rfl

theorem morecore_small {nu : Nat} (hnu : nu * HEADER < 2 ^ 31) (n : Nat) (h : Heap) :
    morecore n nu h = (Umalloc.morecore n nu h).map fun r => (r.1, request nu, r.2) := by
  have hfit := atLeast_fit hnu
  rw [morecore_eq, Nat.mod_eq_of_lt (by omega), morecore, request_bytes hnu, sbrk_of_pos hfit.1]

/-- A block below `2 ^ 31` bytes: the same loop, and every request is right. -/
theorem mallocLoop_small {nu : Nat} (hnu : nu * HEADER < 2 ^ 31) : ∀ {turns prevp p : Nat} {rs : List Request}
    {h : Heap} {r : Nat} {h' : Heap}, (∀ q ∈ rs, q.Good) →
    Umalloc.mallocLoop n nu turns prevp p h = .ok (r, h') →
    ∃ rs', mallocLoop n nu turns prevp p rs h = .ok (r, rs', h') ∧ ∀ q ∈ rs', q.Good
  | 0, _, _, _, _, _, _, _, hrun => by cases hrun
  | turns + 1, prevp, p, rs, h, r, h', hrs, hrun => by
      rw [Umalloc.mallocLoop] at hrun
      rw [mallocLoop]
      split at hrun
      · rename_i hsize
        rw [if_pos hsize]
        exact ⟨rs, by rw [Except.ok.inj hrun], hrs⟩
      · rename_i hsize
        rw [if_neg hsize]
        split at hrun
        · rename_i hp
          rw [if_pos hp, morecore_small hnu]
          have hrs' : ∀ q ∈ rs ++ [request nu], q.Good := by
            simpa [or_imp, forall_and, request_good hnu] using hrs
          cases hmore : Umalloc.morecore n nu h with
          | error e =>
            rw [hmore] at hrun
            cases hrun
          | ok w =>
            obtain ⟨p', h1⟩ := w
            rw [hmore] at hrun
            change (if p' = 0 then Except.ok (0, h1) else Umalloc.mallocLoop n nu turns p' (h1.ptr p') h1) =
              .ok (r, h') at hrun
            show ∃ rs', (if p' = 0 then Except.ok (0, rs ++ [request nu], h1)
              else mallocLoop n nu turns p' (h1.ptr p') (rs ++ [request nu]) h1) = .ok (r, rs', h') ∧ _
            split at hrun
            · rename_i hp'
              rw [if_pos hp']
              cases hrun
              exact ⟨_, rfl, hrs'⟩
            · rename_i hp'
              rw [if_neg hp']
              exact mallocLoop_small hnu hrs' hrun
        · rename_i hp
          rw [if_neg hp]
          exact mallocLoop_small hnu hrs hrun

/-! ## Large sizes -/

/-- The requests are only ever added to. -/
theorem mallocLoop_requests {nu : Nat} : ∀ {turns prevp p : Nat} {rs rs' : List Request} {h h' : Heap} {r : Nat},
    mallocLoop n nu turns prevp p rs h = .ok (r, rs', h') → rs <+: rs'
  | 0, _, _, _, _, _, _, _, hrun => by cases hrun
  | turns + 1, prevp, p, rs, rs', h, h', r, hrun => by
      rw [mallocLoop] at hrun
      split at hrun
      · cases hrun
        exact List.prefix_refl _
      · split at hrun
        · obtain ⟨⟨p', q, h1⟩, -, hrun⟩ := exists_of_bind_eq_ok hrun
          refine (List.prefix_append rs [q]).trans ?_
          dsimp only at hrun
          split at hrun
          · cases hrun
            exact List.prefix_refl _
          · exact mallocLoop_requests hrun
        · exact mallocLoop_requests hrun

/-- If no free block is large enough, `sbrk` is asked. -/
theorem mallocLoop_asks {nu : Nat} (hF : FreeList base h F) (hsmall : ∀ x ∈ F, x.2 < nu) :
    ∀ {turns prevp p : Nat} {rs rs' : List Request} {r : Nat}, p ∈ F.map Prod.fst →
      mallocLoop n nu turns prevp p rs h = .ok (r, rs', h') → request nu ∈ rs'
  | 0, _, _, _, _, _, _, hrun => by cases hrun
  | turns + 1, prevp, p, rs, rs', r, hp, hrun => by
      have hsize : h.size p < nu := by
        obtain ⟨x, hx, rfl⟩ := List.mem_map.1 hp
        rw [hF.sizes x hx]
        exact hsmall x hx
      rw [mallocLoop, if_neg (not_le.2 hsize)] at hrun
      split at hrun
      · obtain ⟨w, hmore, hrun⟩ := exists_of_bind_eq_ok hrun
        obtain ⟨v, -, rfl⟩ := exists_of_map_eq_ok hmore
        have hmem : request nu ∈ rs ++ [request nu] := by simp
        dsimp only at hrun
        split at hrun
        · cases hrun
          exact hmem
        · exact (mallocLoop_requests hrun).subset hmem
      · exact mallocLoop_asks hF hsmall (hF.ring.next_mem hp) hrun

/-- From `2 ^ 28` units on, the number of bytes is not a positive `int`. -/
theorem request_bad {nu : Nat} (hlo : 2 ^ 28 ≤ nu) (hhi : nu ≤ 2 ^ 29) : ¬ (request nu).Good := by
  rintro ⟨hpos, -⟩
  have hnu : atLeast nu = nu := if_neg (by omega)
  have hunits : 2 ^ 31 ≤ nu * HEADER ∧ nu * HEADER ≤ 2 ^ 32 := by
    unfold HEADER
    omega
  have hwrap : wrap32 (nu * HEADER) ≤ 0 :=
    wrap32_nonpos (by exact_mod_cast hunits.1) (by exact_mod_cast hunits.2)
  have hbytes : (request nu).bytes = wrap32 (nu * HEADER) := by
    unfold request
    rw [hnu]
  rw [hbytes] at hpos
  omega

/-! ## All sizes -/

theorem Sound.small_blocks (hS : Sound base M F) (h0 : 0 < base) {x : Nat × Nat} (hx : x ∈ F) :
    x.2 < 2 ^ 28 := by
  have hF := hS.list.init h0
  have hle := hF.le_of_total (fun u hu => (hS.range (Multiset.mem_add.2 (.inl hu))).2) hS.granted.base hx
  have hbrk := hS.granted.brk
  have hbase := hF.base_le hx
  unfold KERNBASE at hbrk
  unfold HEADER at hle
  omega

/-- The free list is empty when no block has a unit. -/
theorem Listed.noBlock_iff (hL : Listed base h F) (h0 : 0 < base) : NoBlock base h ↔ ∀ x ∈ F, x.2 < 1 := by
  rcases hL with hF | ⟨hfreep, rfl, -⟩
  · obtain ⟨B, rfl⟩ : ∃ B, F = (base, 0) :: B := List.head?_eq_some_iff.1 hF.head
    have hne : h.freep ≠ 0 := by
      obtain ⟨x, hx, hxf⟩ := List.mem_map.1 hF.start
      have := hF.base_le hx
      omega
    have hring := hF.ring
    rw [List.map_cons, walk_cons] at hring
    cases B with
    | nil =>
      rw [List.map_nil, walk_nil] at hring
      simp [NoBlock, hring.2]
    | cons x B =>
      rw [List.map_cons, walk_cons] at hring
      have hlt : base < x.1 := ((List.pairwise_cons.1 hF.sorted).1 x List.mem_cons_self).lt
      have hx := hF.pos x (by simp) (by omega)
      have hnext : h.ptr base = x.1 := hring.2.1
      constructor
      · rintro (hf | hf)
        · exact absurd hf hne
        · omega
      · intro hall
        have := hall x (by simp)
        omega
  · simp [NoBlock, hfreep]

theorem malloc_small {nbytes r : Nat} (hfit : nunits nbytes * HEADER < 2 ^ 31)
    (hrun : ∀ᶠ n in Filter.atTop, Umalloc.malloc base n nbytes h = .ok (r, h')) :
    ∀ᶠ n in Filter.atTop, ∃ rs, malloc base n nbytes h = .ok (r, rs, h') ∧ ∀ q ∈ rs, q.Good :=
  hrun.mono fun _ hn => mallocLoop_small hfit (by simp) hn

theorem mem_spans {u : Nat} (R : List (Nat × Nat)) : u ∈ spans R ↔ ∃ x ∈ R, x.1 ≤ u ∧ u < x.1 + x.2 := by
  induction R with
  | nil => simp [spans]
  | cons x R ih =>
    have hcons : spans (x :: R) = span x.1 x.2 + spans R := by simp [spans]
    rw [hcons, Multiset.mem_add, mem_span, ih]
    simp

/-- What a block in use has behind its pointer. -/
theorem Sound.usable_bytes {r nbytes : Nat} (hS : Sound base M F) (hx : (r, nbytes) ∈ M.live) :
    Usable M.heap r nbytes := by
  obtain ⟨hr, hsize⟩ := hS.usable _ hx
  refine ⟨hsize, fun u hlo hhi => ?_⟩
  have hmem : u ∈ liveBlock M.heap (r, nbytes) := by
    unfold liveBlock block
    rw [mem_span]
    dsimp only at *
    omega
  have hspans : u ∈ spans M.heap.regions := by
    rw [← hS.account]
    exact Multiset.mem_add.2 (.inr (mem_liveTotal hx hmem))
  exact (mem_spans _).1 hspans

theorem noRoom_one_iff (hL : Listed base h F) (h0 : 0 < base) :
    NoRoom 1 F h ↔ NoBlock base h ∧ (sbrk 32768 h).1 = none := by
  rw [Listed.noBlock_iff hL h0]
  have hsbrk : sbrk 32768 h = Umalloc.sbrk 32768 h := sbrk_of_pos (by decide) h
  rw [hsbrk]
  exact Iff.rfl

/-- **When `malloc` is right about sizes.** -/
theorem Sound.sizeOk_iff (hS : Sound base M F) (h0 : 0 < base) (nbytes : BitVec 32) :
    SizeOk base nbytes.toNat M.heap ↔ Fits base M (.malloc nbytes) := by
  have hlt := nbytes.isLt
  simp only [Fits]
  generalize nbytes.toNat = v at hlt ⊢
  by_cases hsmall : v + 16 ≤ 2 ^ 31
  · refine iff_of_true ?_ (.inl hsmall)
    obtain ⟨hunits, hfit, hfit'⟩ := nunits_fit v hsmall
    obtain ⟨r, h', hrun, ⟨-, rfl, -⟩ | ⟨-, -, -, hS'⟩⟩ := hS.malloc h0 hfit'
    · exact ⟨0, h', malloc_small hfit hrun, .inl rfl⟩
    · obtain ⟨F', hS'⟩ := hS' hunits
      exact ⟨r, h', malloc_small hfit hrun, .inr (usable_bytes hS' List.mem_cons_self)⟩
  · by_cases hlast : 2 ^ 32 ≤ v + 7
    · have hone : nunits v = 1 := by
        unfold nunits HEADER
        omega
      have hfit : nunits v * HEADER < 2 ^ 31 := by rw [hone]; decide
      rw [or_iff_right hsmall, and_iff_right hlast, ← noRoom_one_iff hS.list h0]
      obtain ⟨r, h', hrun, ⟨hno, rfl, -⟩ | ⟨hno, hr, hsize, -⟩⟩ := hS.malloc h0 (hfit.trans (by decide))
      · rw [hone] at hno
        exact iff_of_true ⟨0, h', malloc_small hfit hrun, .inl rfl⟩ hno
      · rw [hone] at hno hsize
        refine iff_of_false ?_ hno
        rintro ⟨r', h'', hrun', hres⟩
        obtain ⟨n, ⟨rs, hn, -⟩, rs', hn', -⟩ := ((malloc_small hfit hrun).and hrun').exists
        rw [hn] at hn'
        cases hn'
        rcases hres with rfl | ⟨hle, -⟩
        · exact hr rfl
        · rw [hsize] at hle
          unfold HEADER at hle
          omega
    · refine iff_of_false ?_ (by tauto)
      rintro ⟨r, h', hrun, -⟩
      obtain ⟨n, rs, hn, hgood⟩ := hrun.exists
      have hunits : 2 ^ 28 ≤ nunits v ∧ nunits v ≤ 2 ^ 29 := by
        unfold nunits HEADER
        omega
      have hF := hS.list.init h0
      have hall : ∀ x ∈ F, x.2 < nunits v := fun x hx => (small_blocks hS h0 hx).trans_le hunits.1
      exact request_bad hunits.1 hunits.2
        (hgood _ (mallocLoop_asks hF hall (hF.ring.next_mem hF.start) hn))

/-- A call with a size that fits keeps the heap sound. -/
theorem Sound.step_fits {M' : Machine} {op : Op} (hS : Sound base M F) (h0 : 0 < base) (hfits : Fits base M op)
    (hstep : ∀ᶠ n in Filter.atTop, step base n M op = .ok M') : ∃ F', Sound base M' F' := by
  have hother : ∀ op', (∀ n, step base n M op = Umalloc.step base n M op') → ∃ F', Sound base M' F' := by
    intro op' heq
    obtain ⟨M'', F', hrun, hS'⟩ := hS.step h0 op'
    obtain ⟨n, hn, hn'⟩ := (hrun.and hstep).exists
    rw [← heq, hn'] at hn
    cases hn
    exact ⟨F', hS'⟩
  cases op with
  | free k => exact hother (.free k) fun _ => rfl
  | write a ptr size => exact hother (.write a ptr size) fun _ => rfl
  | malloc nbytes =>
    have hfit : nunits nbytes.toNat * HEADER < 2 ^ 31 ∧ nunits nbytes.toNat * HEADER < 2 ^ 32 := by
      have := nbytes.isLt
      simp only [Fits] at hfits
      unfold nunits HEADER
      omega
    obtain ⟨r, h', hrun, hres⟩ := hS.malloc h0 hfit.2
    obtain ⟨n, ⟨rs, hn, -⟩, hn'⟩ := ((malloc_small hfit.1 hrun).and hstep).exists
    have hM : M' = ⟨h', if r = 0 then M.live else (r, nbytes.toNat) :: M.live⟩ := by
      simp only [step, hn] at hn'
      exact (Except.ok.inj hn').symm
    subst hM
    rcases hres with ⟨-, rfl, -, hS'⟩ | ⟨hroom, hr, -, hS'⟩
    · exact ⟨F, hS'⟩
    · rw [if_neg hr]
      refine hS' ?_
      rcases hfits with hsmall | ⟨hlast, hno⟩
      · exact (nunits_fit _ hsmall).1
      · -- One of the last seven sizes: there was room after all.
        have hone : nunits nbytes.toNat = 1 := by
          have := nbytes.isLt
          unfold nunits HEADER
          omega
        rw [hone] at hroom
        exact absurd ((noRoom_one_iff hS.list h0).2 hno) hroom

theorem Reached.sound {L : Layout} {ptr size : Nat → Nat} {answers : List (Option Nat)}
    (hM : Reached L ptr size answers M) : ∃ F, Sound L.base M F := by
  induction hM with
  | start => exact ⟨_, start_sound L ptr size answers⟩
  | step _ hfits hstep ih =>
    obtain ⟨F, hS⟩ := ih
    exact Sound.step_fits hS L.base_pos hfits hstep

/-- **Every size.**  `malloc` returns 0 or enough memory from `sbrk`, which it asked for a positive
number of bytes, exactly when the size fits. -/
theorem malloc_sizes_iff (L : Layout) (ptr size : Nat → Nat) (answers : List (Option Nat)) (M : Machine)
    (hM : Reached L ptr size answers M) (nbytes : BitVec 32) :
    SizeOk L.base nbytes.toNat M.heap ↔ Fits L.base M (.malloc nbytes) := by
  obtain ⟨F, hS⟩ := hM.sound
  exact Sound.sizeOk_iff hS L.base_pos nbytes

/-- A program with its memory up to the first page, before its first call. -/
def onePage : Layout where
  base := 96
  brk := 4096
  base_pos := by decide
  base_lt := by decide
  brk_le := by decide

theorem malloc_sizes_iff_hundred :
    SizeOk onePage.base 100 (start (fun _ => 0) (fun _ => 0) onePage.brk [some 0]).heap :=
  (malloc_sizes_iff onePage _ _ _ _ .start 100).2 (by decide)

/-- `malloc(0xffffffff)` returns a block of one unit, and `malloc(0x80000000)` asks `sbrk` for a
negative number. -/
theorem malloc_sizes_wrap :
    ¬ SizeOk onePage.base 0xffffffff (start (fun _ => 0) (fun _ => 0) onePage.brk [some 0]).heap ∧
      ¬ SizeOk onePage.base 0x80000000 (start (fun _ => 0) (fun _ => 0) onePage.brk [some 0]).heap := by
  have hS := start_sound onePage (fun _ => 0) (fun _ => 0) [some 0]
  constructor
  · exact fun h => absurd ((Sound.sizeOk_iff hS onePage.base_pos 0xffffffff).1 h) (by decide)
  · exact fun h => absurd ((Sound.sizeOk_iff hS onePage.base_pos 0x80000000).1 h) (by decide)

end Laboratorio.Xv6.Umalloc.Sizes
