import Laboratorio.Xv6.Image
import Laboratorio.Xv6.Kernel

/-!
# The arguments of `exec`

`exec` pushes the argument strings on the new stack one below the other, without a look at where the
stack ends: `sp` is an unsigned number that may run through the guard page, through the program and
on through zero into the kernel's half.  What happens depends on `argBytes`, the room that the strings
take.

While they fit in the stack page, all is well.  The first string that does not fit ends at the guard
page, if `sp` is still an address of the program.  If `sp` has wrapped around, `uva2ka` finds a page of
the kernel, which is not for the user, or a table without an entry, or no table at all; in the last
case it reads through a null pointer.
-/

namespace Laboratorio.Xv6.Vm

open Laboratorio.Lib

variable {g : Geometry} {m : Mem} {d : Page} {sz : Nat} {guard : Option Nat} {E : Stop → Prop}

/-! ## `copyout` -/

/-- Inside the program, `copyout` goes on until it finds the guard page. -/
theorem copyout_user_wp (n : Nat) : ∀ {va : Nat} {buf : List UInt8} {m : Mem},
    Image g m.page d sz guard → va + buf.length ≤ PGROUNDUP sz →
    va % PGSIZE + buf.length ≤ n * PGSIZE →
    wp E (copyout d n va buf) (fun r m' => Wrote d m m' ∧
      (r = true ↔ ∀ k < buf.length, guard ≠ some ((va + k) / PGSIZE))) m := by
  induction n with
  | zero =>
    intro va buf m _ _ hn
    refine ⟨.refl, iff_of_true rfl fun k hk => ?_⟩
    omega
  | succ n ih =>
    intro va buf m himg hend hn
    by_cases hlen : 0 < buf.length
    · have hsize := PGROUNDUP_le_KERNBASE himg.size
      have hdown : PGROUNDDOWN va < KERNBASE := by
        unfold PGROUNDDOWN PGSIZE at *
        omega
      have hpage : PGROUNDDOWN va / PGSIZE = va / PGSIZE := by
        unfold PGROUNDDOWN PGSIZE
        omega
      obtain ⟨e, he⟩ : ∃ e, pte m.page d (PGROUNDDOWN va) = some e := by
        refine Option.isSome_iff_exists.1 ((himg.exact _ hdown).2 ?_)
        unfold PGROUNDDOWN PGSIZE at *
        omega
      have haccess := himg.access _ hdown e he
      rw [hpage] at haccess
      refine copyout_turn hlen (fun hnone => ?_) (fun _ hno => ?_) fun e' he' hU => ?_
      · rw [pte_of_noTable hnone] at he
        cases he
      · refine ⟨.refl, iff_of_false nofun fun hall => ?_⟩
        have hU := haccess.2 (hall 0 hlen)
        rw [hno e he] at hU
        cases hU
      · rw [he] at he'
        cases he'
        -- the first `k₀` bytes are in this page, the others in the pages from the next one on
        have hguard := haccess.1 hU
        generalize hk0 : min (PGSIZE - (va - PGROUNDDOWN va)) buf.length = k0
        have hnext : (PGROUNDDOWN va + PGSIZE) % 2 ^ 32 = PGROUNDDOWN va + PGSIZE := by
          refine Nat.mod_eq_of_lt ?_
          unfold KERNBASE at hdown
          unfold PGSIZE
          omega
        have hpos : PGROUNDDOWN va ≤ va ∧ va < PGROUNDDOWN va + PGSIZE := by
          unfold PGROUNDDOWN PGSIZE
          omega
        have haligned : PGROUNDDOWN va % PGSIZE = 0 := Nat.mul_mod_left _ _
        have hrest : k0 < buf.length → va + k0 = PGROUNDDOWN va + PGSIZE := by omega
        rw [hnext]
        refine wp_mono (ih himg ?_ ?_) ?_
        · have hup := PGROUNDUP_mod sz
          rw [List.length_drop]
          unfold PGROUNDDOWN PGSIZE at *
          omega
        · rw [Nat.add_mod_right, haligned, List.length_drop]
          rw [Nat.succ_mul] at hn
          unfold PGROUNDDOWN PGSIZE at *
          omega
        · rintro r m' ⟨hwrote, hr⟩
          refine ⟨(Wrote.memmove (lt_of_user hdown) he hU).trans hwrote, hr.trans ?_⟩
          rw [List.length_drop]
          constructor
          · intro hall k hk
            by_cases hk' : k < k0
            · have hsame : (va + k) / PGSIZE = va / PGSIZE := by
                unfold PGROUNDDOWN PGSIZE at *
                omega
              rw [hsame]
              exact hguard
            · have := hall (k - k0) (by omega)
              rwa [← hrest (by omega), show va + k0 + (k - k0) = va + k by omega] at this
          · intro hall k hk
            have := hall (k0 + k) (by omega)
            rwa [← Nat.add_assoc, hrest (by omega)] at this
    · unfold copyout
      rw [if_neg hlen]
      exact ⟨.refl, iff_of_true rfl fun k hk => absurd hk (by omega)⟩

theorem PDX_PGROUNDDOWN (va : Nat) : PDX (PGROUNDDOWN va) = PDX va := by
  unfold PDX PGROUNDDOWN PGSIZE
  omega

/-- In the kernel's half, `copyout` fails at once. -/
theorem copyout_kernel_wp {n va : Nat} {buf : List UInt8} (hkern : g.Kernel m.page d)
    (hva : KERNBASE ≤ va) (hlt : va < 2 ^ 32) (hlen : 0 < buf.length)
    (hnull : view m.page d (PDX va) = none → E .nullPte) :
    wp E (copyout d (n + 1) va buf)
      (fun r m' => r = false ∧ m' = m ∧ view m.page d (PDX va) ≠ none) m := by
  refine copyout_turn hlen (fun hnone => hnull ?_) (fun hsome _ => ⟨rfl, rfl, ?_⟩) fun e he hU => ?_
  · rwa [← PDX_PGROUNDDOWN]
  · rwa [← PDX_PGROUNDDOWN]
  · have hfalse : e.U = false := by
      refine (hkern.entry _ ?_ ?_ e he).1
      · unfold PGROUNDDOWN PGSIZE KERNBASE at *
        omega
      · unfold PGROUNDDOWN PGSIZE
        omega
    rw [hU] at hfalse
    cases hfalse

end Laboratorio.Xv6.Vm

namespace Laboratorio.Xv6.Kernel

open Laboratorio.Lib
open Vm (Page Mem Geometry PGSIZE KERNBASE Image Wrote PDX view)

variable {g : Geometry} {s : State} {d : Page} {sz used sp : Nat} {E : Stop → Prop}
  {buf : List UInt8} {argv args : List (List UInt8)} {ustack : List Nat}

theorem wp_mem {α : Type} {x : Vm.M α} {Q : α → State → Prop}
    (h : wp (fun e => E (.vm e)) x (fun a m => Q a { s with mem := m }) s.mem) : wp E (mem x) Q s :=
  wp_zoom.2 h

/-! ## The stack page -/

/-- A program of size `sz` with its guard page and its stack page, as `exec` has built it. -/
structure Stacked (g : Geometry) (page : Page → Nat → Vm.Pte) (d : Page) (sz : Nat) : Prop where
  image : Image g page d sz (some (sz / PGSIZE - 2))
  aligned : sz % PGSIZE = 0
  big : 2 * PGSIZE ≤ sz

/-- Only bytes in pages for the user have been written since `s`. -/
def Pushed (d : Page) (s s' : State) : Prop := ∃ m, s' = { s with mem := m } ∧ Wrote d s.mem m

theorem Pushed.refl : Pushed d s s := ⟨s.mem, rfl, .refl⟩

theorem Pushed.trans {s1 s2 : State} (h1 : Pushed d s s1) (h2 : Pushed d s1 s2) : Pushed d s s2 := by
  obtain ⟨m1, rfl, hw1⟩ := h1
  obtain ⟨m2, rfl, hw2⟩ := h2
  exact ⟨m2, rfl, hw1.trans hw2⟩

theorem Stacked.of_pushed {s' : State} (h : Stacked g s.mem.page d sz) (hp : Pushed d s s') :
    Stacked g s'.mem.page d sz := by
  obtain ⟨m, rfl, hw⟩ := hp
  dsimp only
  rwa [hw.page]

theorem Stacked.roundup (h : Stacked g s.mem.page d sz) : Vm.PGROUNDUP sz = sz := by
  have := h.aligned
  unfold Vm.PGROUNDUP PGSIZE at *
  omega

/-- Inside the program, `push` fails if and only if it meets the guard page. -/
theorem push_user_wp (h : Stacked g s.mem.page d sz) (hend : sp + buf.length ≤ sz) :
    wp E (push d sp buf) (fun r s' => Pushed d s s' ∧
      (r = true ↔ ∀ k < buf.length, (sp + k) / PGSIZE ≠ sz / PGSIZE - 2)) s := by
  unfold push
  refine wp_mem (wp_mono (Vm.copyout_user_wp _ h.image ?_ ?_) ?_)
  · rw [h.roundup]
    exact hend
  · unfold PGSIZE
    omega
  · rintro r m ⟨hw, hr⟩
    refine ⟨⟨m, rfl, hw⟩, hr.trans ?_⟩
    simp only [ne_eq, Option.some.injEq, eq_comm]

/-- In the stack page, `push` succeeds. -/
theorem push_stack_wp (h : Stacked g s.mem.page d sz) (hlo : sz - PGSIZE ≤ sp)
    (hend : sp + buf.length ≤ sz) :
    wp E (push d sp buf) (fun r s' => r = true ∧ Pushed d s s') s := by
  refine wp_mono (push_user_wp h hend) ?_
  rintro r s' ⟨hp, hr⟩
  refine ⟨hr.2 fun k hk => ?_, hp⟩
  have haligned := h.aligned
  have hbig := h.big
  unfold PGSIZE at *
  omega

/-- What runs from the stack page into the guard page is refused. -/
theorem push_guard_wp (h : Stacked g s.mem.page d sz) (hlo : sp < sz - PGSIZE)
    (hhi : sz - 2 * PGSIZE < sp + buf.length) (hend : sp + buf.length ≤ sz) (hlen : 0 < buf.length) :
    wp E (push d sp buf) (fun r s' => r = false ∧ Pushed d s s') s := by
  refine wp_mono (push_user_wp h hend) ?_
  rintro r s' ⟨hp, hr⟩
  refine ⟨?_, hp⟩
  cases r with
  | false => rfl
  | true =>
    have haligned := h.aligned
    have hbig := h.big
    have hall := hr.1 rfl (sz - 2 * PGSIZE - sp) (by omega)
    unfold PGSIZE at *
    omega

theorem push_kernel_wp (h : Stacked g s.mem.page d sz) (hlo : KERNBASE ≤ sp) (hlt : sp < 2 ^ 32)
    (hlen : 0 < buf.length) (hnull : view s.mem.page d (PDX sp) = none → E (.vm .nullPte)) :
    wp E (push d sp buf) (fun r s' => r = false ∧ s' = s ∧ view s.mem.page d (PDX sp) ≠ none) s := by
  unfold push
  refine wp_mem (wp_mono (Vm.copyout_kernel_wp h.image.kern hlo hlt hlen hnull) ?_)
  rintro r m ⟨hr, rfl, hview⟩
  exact ⟨hr, rfl, hview⟩

/-! ## The strings -/

/-- The room that a string takes on the stack. -/
def room (arg : List UInt8) : Nat := (arg.length + 4) / 4 * 4

def argBytes (argv : List (List UInt8)) : Nat := (argv.map room).sum

@[simp] theorem argBytes_nil : argBytes [] = 0 := rfl

@[simp] theorem argBytes_cons (arg : List UInt8) : argBytes (arg :: args) = room arg + argBytes args :=
  rfl

theorem argBytes_take_le (argv : List (List UInt8)) : ∀ k, argBytes (argv.take k) ≤ argBytes argv := by
  induction argv with
  | nil => simp
  | cons arg args ih =>
    rintro (_ | k)
    · simp
    · simpa using ih k

theorem alignDown_eq {arg : List UInt8} (hsz : sz % 4 = 0) (hused : used % 4 = 0) (hle : used ≤ sz)
    (hlt : sz < 2 ^ 32) (harg : arg.length + 1 ≤ KERNBASE) :
    alignDown (sz - used) (arg.length + 1) =
      if used + room arg ≤ sz then sz - (used + room arg) else 2 ^ 32 + sz - (used + room arg) := by
  unfold alignDown room KERNBASE at *
  split <;> omega

/-- When the stack has come down by `used` bytes from `sz`, there is a page table for `sp`. -/
def Lands (g : Geometry) (sz used : Nat) : Prop :=
  used ≤ sz ∨ ∃ k ∈ g.kmap, k.Uses ((2 ^ 32 + sz - used) / 2 ^ 22)

/-- So it is for each of the strings, up to the first that does not fit in the stack page. -/
def ArgsLand (g : Geometry) (sz used : Nat) (argv : List (List UInt8)) : Prop :=
  ∀ k < argv.length, used + argBytes (argv.take k) ≤ PGSIZE →
    Lands g sz (used + argBytes (argv.take (k + 1)))

theorem argsLand_cons {arg : List UInt8} (hused : used ≤ PGSIZE) : ArgsLand g sz used (arg :: args) ↔
    Lands g sz (used + room arg) ∧ ArgsLand g sz (used + room arg) args := by
  unfold ArgsLand
  constructor
  · intro h
    refine ⟨by simpa using h 0 (by simp) (by simpa using hused), fun k hk hfit => ?_⟩
    have := h (k + 1) (by simpa using hk) (by simpa [Nat.add_assoc] using hfit)
    simpa [Nat.add_assoc] using this
  · rintro ⟨h0, h⟩ (_ | k) hk hfit
    · simpa using h0
    · have := h k (by simpa using hk) (by simpa [Nat.add_assoc] using hfit)
      simpa [Nat.add_assoc] using this

/-- Where a string goes that is pushed with `used` bytes on the stack already. -/
theorem push_arg_wp {arg : List UInt8} (h : Stacked g s.mem.page d sz) (hfour : used % 4 = 0)
    (hused : used ≤ PGSIZE) (harg : arg.length + 1 ≤ KERNBASE)
    (hnull : ¬ Lands g sz (used + room arg) → E (.vm .nullPte)) :
    wp E (push d (alignDown (sz - used) (arg.length + 1)) (arg ++ [0])) (fun r s' => Pushed d s s' ∧
      (r = true ↔ used + room arg ≤ PGSIZE) ∧ Lands g sz (used + room arg)) s := by
  have haligned := h.aligned
  have hbig := h.big
  have hsize := h.image.size
  have hlen : (arg ++ [0]).length = arg.length + 1 := by simp
  rw [alignDown_eq ?_ hfour ?_ ?_ harg]
  · split
    · rename_i hle
      by_cases hfit : used + room arg ≤ PGSIZE
      · refine wp_mono (push_stack_wp h ?_ ?_) ?_
        · unfold PGSIZE at *
          omega
        · rw [hlen]
          unfold room at *
          omega
        · rintro r s' ⟨rfl, hp⟩
          exact ⟨hp, iff_of_true rfl hfit, .inl hle⟩
      · refine wp_mono (push_guard_wp h ?_ ?_ ?_ (by simp)) ?_
        · unfold PGSIZE at *
          omega
        · rw [hlen]
          unfold room PGSIZE at *
          omega
        · rw [hlen]
          unfold room at *
          omega
        · rintro r s' ⟨rfl, hp⟩
          exact ⟨hp, iff_of_false nofun hfit, .inl hle⟩
    · rename_i hwrap
      have hsp : KERNBASE ≤ 2 ^ 32 + sz - (used + room arg) ∧ 2 ^ 32 + sz - (used + room arg) < 2 ^ 32 := by
        unfold room PGSIZE KERNBASE at *
        omega
      have htable := h.image.kern.table _ (Vm.PDX_kernel hsp.1 hsp.2) (Vm.PDX_lt _)
      have hPDX : PDX (2 ^ 32 + sz - (used + room arg)) = (2 ^ 32 + sz - (used + room arg)) / 2 ^ 22 := by
        have := hsp.2
        unfold PDX
        omega
      refine wp_mono (push_kernel_wp h hsp.1 hsp.2 (by simp) fun hnone => hnull ?_) ?_
      · rintro (hle | hex)
        · exact hwrap hle
        · rw [← hPDX, ← htable, hnone] at hex
          cases hex
      · rintro r s' ⟨rfl, rfl, hview⟩
        have huses := htable.1 (Option.isSome_iff_ne_none.2 hview)
        rw [hPDX] at huses
        refine ⟨.refl, iff_of_false nofun ?_, .inr huses⟩
        unfold PGSIZE at *
        omega
  · unfold PGSIZE at haligned
    omega
  · unfold PGSIZE at *
    omega
  · exact hsize.trans_lt (by decide)

theorem argsLand_of_gt (h : PGSIZE < used) : ArgsLand g sz used args :=
  fun k _ hfit => absurd hfit (by omega)

/-- The loop over the strings stops if and only if a string goes where there is no page table. -/
theorem pushArgs_wp (args : List (List UInt8)) : ∀ {used : Nat} {ustack : List Nat} {s : State},
    Stacked g s.mem.page d sz → used % 4 = 0 → used ≤ PGSIZE → ustack.length ≤ MAXARG →
    (∀ arg ∈ args, arg.length + 1 ≤ KERNBASE) → (¬ ArgsLand g sz used args → E (.vm .nullPte)) →
    wp E (pushArgs d args ustack (sz - used)) (fun r s' => Pushed d s s' ∧
      (ustack.length + args.length ≤ MAXARG → ArgsLand g sz used args) ∧
      ∀ us sp, r = some (us, sp) → us.length ≤ MAXARG ∧ sp = sz - (used + argBytes args) ∧
        used + argBytes args ≤ PGSIZE) s := by
  induction args with
  | nil =>
    intro used ustack s _ _ hused hmax _ _
    refine ⟨.refl, fun _ k hk => absurd hk (by simp), ?_⟩
    rintro us sp ⟨⟩
    exact ⟨hmax, rfl, hused⟩
  | cons arg args ih =>
    intro used ustack s h hfour hused hmax hargs hnull
    unfold pushArgs
    split
    · rename_i hfull
      refine ⟨.refl, fun hle => ?_, nofun⟩
      rw [List.length_cons] at hle
      omega
    · rename_i hroom
      have hland : ArgsLand g sz used (arg :: args) ↔
          Lands g sz (used + room arg) ∧ ArgsLand g sz (used + room arg) args := argsLand_cons hused
      have harg := hargs arg List.mem_cons_self
      have hbig := h.big
      refine wp_seq (push_arg_wp h hfour hused harg fun hno => hnull fun hall => hno (hland.1 hall).1) ?_
      rintro r s1 ⟨hpush, hr, hfirst⟩
      cases r with
      | false =>
        have hgt : PGSIZE < used + room arg := by
          by_contra hle
          exact absurd (hr.2 (by omega)) nofun
        exact ⟨hpush, fun _ => hland.2 ⟨hfirst, argsLand_of_gt hgt⟩, nofun⟩
      | true =>
        have hfit := hr.1 rfl
        have hsp : alignDown (sz - used) (arg.length + 1) = sz - (used + room arg) := by
          rw [alignDown_eq ?_ hfour ?_ (h.image.size.trans_lt (by decide)) harg, if_pos]
          · omega
          · have := h.aligned
            unfold PGSIZE at this
            omega
          · omega
        rw [hsp]
        refine wp_mono (ih (h.of_pushed hpush) ?_ hfit ?_ ?_ ?_) ?_
        · unfold room
          omega
        · rw [List.length_append]
          simpa using hroom
        · exact fun a ha => hargs a (List.mem_cons_of_mem _ ha)
        · exact fun hno => hnull fun hall => hno (hland.1 hall).2
        · rintro r s2 ⟨hpush2, hargs2, hres⟩
          refine ⟨hpush.trans hpush2, fun hle => hland.2 ⟨hfirst, hargs2 ?_⟩, fun us sp hsome => ?_⟩
          · simp only [List.length_cons, List.length_append, List.length_nil] at hle ⊢
            omega
          · rw [argBytes_cons, ← Nat.add_assoc]
            exact hres us sp hsome

theorem length_ustackBytes (ustack : List Nat) (sp : Nat) :
    (ustackBytes ustack sp).length = (3 + ustack.length + 1) * 4 := by
  have hwords : ∀ ws : List Nat, (ws.flatMap (Bytes.toBytes 4)).length = ws.length * 4 := by
    intro ws
    induction ws with
    | nil => rfl
    | cons w ws ih => simp [ih, Nat.succ_mul, Nat.add_comm]
  unfold ustackBytes
  rw [hwords]
  simp only [List.length_append, List.length_cons, List.length_nil]

/-- **Copying the arguments.**  Whatever `sp` becomes, what is written are pages of the new program
that are for the user; and the copying ends, unless a string goes where there is no page table. -/
theorem pushStack_wp (h : Stacked g s.mem.page d sz) (hargs : ∀ arg ∈ argv, arg.length + 1 ≤ KERNBASE)
    (hnull : ¬ ArgsLand g sz 0 argv → E (.vm .nullPte)) :
    wp E (pushStack d argv sz) (fun _ s' => Pushed d s s' ∧
      (argv.length ≤ MAXARG → ArgsLand g sz 0 argv)) s := by
  unfold pushStack
  refine wp_seq (pushArgs_wp argv h rfl (Nat.zero_le _) (Nat.zero_le _) hargs hnull) ?_
  rintro (_ | ⟨us, sp⟩) s1 ⟨hpush, hland, hres⟩
  · exact ⟨hpush, fun hle => hland (by simpa using hle)⟩
  · obtain ⟨hmax, rfl, hfit⟩ := hres us sp rfl
    have hbig := h.big
    have hsize := h.image.size
    have hsp : (sz - (0 + argBytes argv) + 2 ^ 32 - (3 + us.length + 1) * 4) % 2 ^ 32 =
        sz - (0 + argBytes argv) - (3 + us.length + 1) * 4 := by
      unfold MAXARG PGSIZE KERNBASE at *
      omega
    dsimp only
    rw [hsp]
    refine wp_seq (push_user_wp (h.of_pushed hpush) ?_) ?_
    · rw [length_ustackBytes]
      unfold MAXARG PGSIZE at *
      omega
    · rintro (_ | _) s2 ⟨hpush2, -⟩
      · exact ⟨hpush.trans hpush2, fun hle => hland (by simpa using hle)⟩
      · exact ⟨hpush.trans hpush2, fun hle => hland (by simpa using hle)⟩

/-- However the copying of these arguments goes, it may end only in what `E` allows, and it writes
only pages for the user. -/
def Copying (E : Stop → Prop) (g : Geometry) (argv : List (List UInt8)) : Prop :=
  ∀ d sz s, Stacked g s.mem.page d sz → wp E (pushStack d argv sz) (fun _ s' => Pushed d s s') s

/-- The strings and the vector fit in the stack page. -/
def Fits (argv : List (List UInt8)) : Prop := argBytes argv + (3 + argv.length + 1) * 4 ≤ PGSIZE

theorem Copying.of_fits (hfits : Fits argv) : Copying E g argv := by
  have hle : argBytes argv ≤ PGSIZE := by
    unfold Fits at hfits
    omega
  intro d sz s h
  refine wp_mono (pushStack_wp h (fun arg harg => ?_) fun hno => absurd (fun k _ _ => .inl ?_) hno)
    fun _ _ h' => h'.1
  · have hroom : room arg ≤ argBytes argv := List.single_le_sum (by simp) _ (List.mem_map_of_mem harg)
    unfold room PGSIZE KERNBASE at *
    omega
  · have := argBytes_take_le argv (k + 1)
    have := h.big
    omega

theorem push_wp (hnull : E (.vm .nullPte)) (hsp : sp < 2 ^ 32) :
    wp E (push d sp buf) (fun _ s' => Pushed d s s') s := by
  unfold push
  exact wp_mem (wp_mono (Vm.copyout_wp hnull _ hsp) fun _ m hw => ⟨m, rfl, hw⟩)

/-- Without a look at the strings, an access through a null pointer is not excluded. -/
theorem Copying.of_null (hnull : E (.vm .nullPte)) : Copying E g argv := by
  have hargs : ∀ {args : List (List UInt8)} {ustack : List Nat} {sp : Nat} {s : State} {d : Page},
      wp E (pushArgs d args ustack sp) (fun _ s' => Pushed d s s') s := by
    intro args
    induction args with
    | nil => exact .refl
    | cons arg args ih =>
      intro ustack sp s d
      unfold pushArgs
      split
      · exact .refl
      · refine wp_seq (push_wp hnull ?_) ?_
        · unfold alignDown
          omega
        · rintro (_ | _) s1 h1
          · exact h1
          · exact wp_mono ih fun _ _ h2 => h1.trans h2
  intro d sz s _
  unfold pushStack
  refine wp_seq hargs ?_
  rintro (_ | ⟨us, sp⟩) s1 h1
  · exact h1
  · dsimp only
    refine wp_seq (push_wp hnull (Nat.mod_lt _ (by decide))) ?_
    rintro (_ | _) s2 h2
    · exact h1.trans h2
    · exact h1.trans h2

/-! ## The machine -/

section Xv6

variable {data kend : Nat} {hdata : KERNBASE + Vm.EXTMEM < data} {hend : data ≤ kend}
  {hlow : kend ≤ KERNBASE + 4 * 1024 * 1024}

/-- On the machine of xv6 there are page tables for all addresses of the kernel's half but those
between the physical memory and the devices. -/
theorem uses_xv6_iff {sp : Nat} (hlo : KERNBASE ≤ sp) (hlt : sp < 2 ^ 32) :
    (∃ k ∈ (Geometry.xv6 data kend hdata hend hlow).kmap, k.Uses (sp / 2 ^ 22)) ↔
      ¬ (KERNBASE + Vm.PHYSTOP ≤ sp ∧ sp < Vm.DEVSPACE) := by
  simp only [Geometry.xv6, List.exists_mem_cons_iff, List.not_mem_nil, false_and, exists_false, or_false,
    Vm.Kmap.Uses, Vm.Kmap.size]
  unfold KERNBASE Vm.EXTMEM Vm.PHYSTOP Vm.DEVSPACE at *
  omega

end Xv6

/-- All the copying of arguments has ended, and the only pages it has written to are pages of the new
program with `PTE_P` and `PTE_U`. -/
def CopiesSafely (d : Page) (argv : List (List UInt8)) (sz : Nat) (s : State) : Prop :=
  ∃ r s', pushStack d argv sz s = .ok (r, s') ∧ s'.mem.page = s.mem.page ∧
    ∀ p, s'.mem.bytes p = s.mem.bytes p ∨ ∃ va < KERNBASE, ∃ e, Vm.pte s.mem.page d va = some e ∧
      e.P = true ∧ e.U = true ∧ e.ppn = p

theorem Pushed.safely {s' : State} {r : Option Nat} (h : Pushed d s s') (hkern : g.Kernel s.mem.page d)
    (hrun : pushStack d argv sz s = .ok (r, s')) : CopiesSafely d argv sz s := by
  obtain ⟨m, rfl, hw⟩ := h
  refine ⟨r, _, hrun, hw.page, fun p => ?_⟩
  rcases hw.bytes p with hp | ⟨va, hva, e, he, hU, hp⟩
  · exact .inl hp
  · obtain ⟨-, -, -, hP⟩ := Vm.exists_table he
    refine .inr ⟨va, ?_, e, he, hP, hU, hp⟩
    by_contra hge
    have := (hkern.entry va (by omega) hva e he).1
    rw [hU] at this
    cases this

/-- Which vectors of arguments `exec` copies safely. -/
theorem copiesSafely_iff (h : Stacked g s.mem.page d sz) (hmax : argv.length ≤ MAXARG)
    (hargs : ∀ arg ∈ argv, arg.length + 1 ≤ KERNBASE) :
    CopiesSafely d argv sz s ↔ ArgsLand g sz 0 argv := by
  have hwp := pushStack_wp (E := fun e => ¬ ArgsLand g sz 0 argv) h hargs id
  constructor
  · rintro ⟨r, s', hrun, -⟩
    exact (hwp.of_ok hrun).2 hmax
  · intro hland
    cases hrun : pushStack d argv sz s with
    | error e => exact absurd hland (hwp.of_error hrun)
    | ok rs =>
      obtain ⟨r, s'⟩ := rs
      exact (hwp.of_ok hrun).1.safely h.image.kern hrun

/-- **Where the arguments of `exec` go.**  For a program with its stack, and arguments that `sys_exec`
accepts: the copying is safe if and only if the first string that does not fit in the stack page, if
there is one, does not carry `sp` below zero and to an address between the kernel's mapping of the
physical memory and the devices, for which there is no page table. -/
theorem arguments_copied_iff (data kend : Nat) (hdata : KERNBASE + Vm.EXTMEM < data)
    (hend : data ≤ kend) (hlow : kend ≤ KERNBASE + 4 * 1024 * 1024) (s : State) (d : Page) (sz : Nat)
    (h : Stacked (Geometry.xv6 data kend hdata hend hlow) s.mem.page d sz)
    (argv : List (List UInt8)) (hmax : argv.length < MAXARG)
    (hargs : ∀ arg ∈ argv, arg.length + 1 ≤ KERNBASE) :
    CopiesSafely d argv sz s ↔ ∀ k < argv.length, argBytes (argv.take k) ≤ PGSIZE →
      argBytes (argv.take (k + 1)) ≤ sz ∨
        ¬ (KERNBASE + Vm.PHYSTOP ≤ 2 ^ 32 + sz - argBytes (argv.take (k + 1)) ∧
          2 ^ 32 + sz - argBytes (argv.take (k + 1)) < Vm.DEVSPACE) := by
  have hbig := h.big
  have hsize := h.image.size
  rw [copiesSafely_iff h hmax.le hargs]
  refine forall_congr' fun k => forall_congr' fun hk => ?_
  rw [Nat.zero_add, Nat.zero_add]
  refine forall_congr' fun hfit => ?_
  unfold Lands
  by_cases hle : argBytes (argv.take (k + 1)) ≤ sz
  · simp [hle]
  · have harg := hargs _ (List.getElem_mem hk)
    have hstep : argBytes (argv.take (k + 1)) = argBytes (argv.take k) + room argv[k] := by
      unfold argBytes
      rw [List.take_succ_eq_append_getElem hk, List.map_append, List.sum_append, List.map_singleton,
        List.sum_singleton]
    refine or_congr_right (uses_xv6_iff ?_ ?_)
    · unfold room PGSIZE KERNBASE at *
      omega
    · omega

/-! ## A program of two pages -/

instance (k : Vm.Kmap) (va : Nat) : Decidable (k.Covers va) := inferInstanceAs (Decidable (_ ∧ _))

instance (k : Vm.Kmap) (i : Nat) : Decidable (k.Uses i) := inferInstanceAs (Decidable (_ ∧ _))

/-- The page tables that `exec` builds for a program with nothing but its guard page and its stack
page.  The directory is page 57343 and the table number `i` is page `56000 + i`. -/
def twoPages (g : Geometry) : Page → Nat → Vm.Pte := fun p i =>
  if p = 57343 then
    if i = 0 ∨ ∃ k ∈ g.kmap, k.Uses i then ⟨56000 + i, true, true, true, 0⟩ else .zero
  else if p = 56000 then
    if i = 0 then ⟨55000, true, true, false, 0⟩ else if i = 1 then ⟨55001, true, true, true, 0⟩ else .zero
  else
    match g.kmap.find? fun k => k.Covers ((p - 56000) * 2 ^ 22 + i * 2 ^ 12) with
    | some k =>
      ⟨(k.phys_start + ((p - 56000) * 2 ^ 22 + i * 2 ^ 12 - k.virt)) / PGSIZE, true, k.W, false, 0⟩
    | none => .zero

theorem view_twoPages (g : Geometry) (i : Nat) : view (twoPages g) 57343 i =
    if i = 0 ∨ ∃ k ∈ g.kmap, k.Uses i then some (56000 + i) else none := by
  unfold view twoPages Vm.Pte.points
  rw [if_pos rfl]
  split <;> rfl

theorem twoPages_low (g : Geometry) (i : Nat) : twoPages g 56000 i =
    if i = 0 then ⟨55000, true, true, false, 0⟩ else if i = 1 then ⟨55001, true, true, true, 0⟩ else .zero :=
  (if_neg (by decide)).trans (if_pos rfl)

theorem twoPages_stacked (g : Geometry) : Stacked g (twoPages g) 57343 (2 * PGSIZE) := by
  have hround : Vm.PGROUNDUP (2 * PGSIZE) = 2 * PGSIZE := rfl
  have hguard : 2 * PGSIZE / PGSIZE - 2 = 0 := rfl
  have hkernel : ∀ i, (∃ k ∈ g.kmap, k.Uses i) → 512 ≤ i := by
    rintro i ⟨k, hk, hlo, -⟩
    have := (g.kmap_ok k hk).1
    unfold KERNBASE at this
    omega
  -- below `KERNBASE` there is one table, with two entries
  have huser : ∀ va < KERNBASE, Vm.pte (twoPages g) 57343 va =
      if va < PGSIZE then some ⟨55000, true, true, false, 0⟩
      else if va < 2 * PGSIZE then some ⟨55001, true, true, true, 0⟩ else none := by
    intro va hva
    by_cases hD : PDX va = 0
    · have hview : view (twoPages g) 57343 (PDX va) = some 56000 := by
        rw [view_twoPages, if_pos (.inl hD), hD]
      have hT : Vm.PTX va = va / PGSIZE := by
        unfold PDX KERNBASE Vm.PTX PGSIZE at *
        omega
      rw [Vm.pte_of_table hview, hT, twoPages_low]
      by_cases h₀ : va < PGSIZE
      · have hv : va / PGSIZE = 0 := Nat.div_eq_of_lt h₀
        simp [h₀, hv]
      · by_cases h1 : va < 2 * PGSIZE
        · have hv : va / PGSIZE = 1 := by
            unfold PGSIZE at *
            omega
          simp [h₀, h1, hv]
        · have hv : va / PGSIZE ≠ 0 ∧ va / PGSIZE ≠ 1 := by
            unfold PGSIZE at *
            omega
          rw [if_neg hv.1, if_neg hv.2, if_neg h₀, if_neg h1]
          rfl
    · have hview : view (twoPages g) 57343 (PDX va) = none := by
        rw [view_twoPages, if_neg]
        rintro (h0 | hex)
        · exact hD h0
        · have := hkernel _ hex
          unfold PDX KERNBASE at *
          omega
      rw [Vm.pte_of_noTable hview, if_neg, if_neg]
      · unfold PDX KERNBASE PGSIZE at *
        omega
      · unfold PDX KERNBASE PGSIZE at *
        omega
  refine ⟨⟨⟨fun va hva hlt e he => ?_, fun i hi hlt => ?_⟩, by decide, fun va hva => ?_,
    fun va hva e he => ?_, ?_⟩, rfl, le_rfl⟩
  · obtain ⟨t, ht, rfl, hP⟩ := Vm.exists_table he
    rw [view_twoPages] at ht
    split at ht
    · cases ht
      have hD : 512 ≤ PDX va ∧ PDX va < 1024 := by
        unfold PDX KERNBASE at *
        omega
      have hpage : (56000 + PDX va - 56000) * 2 ^ 22 + Vm.PTX va * 2 ^ 12 = Vm.PGROUNDDOWN va := by
        unfold PDX Vm.PTX Vm.PGROUNDDOWN PGSIZE
        omega
      have h1 : 56000 + PDX va ≠ 57343 := by omega
      have h2 : 56000 + PDX va ≠ 56000 := by omega
      unfold twoPages at hP ⊢
      rw [if_neg h1, if_neg h2, hpage] at hP ⊢
      cases hfind : g.kmap.find? fun k => k.Covers (Vm.PGROUNDDOWN va) with
      | none =>
        rw [hfind] at hP
        cases hP
      | some k =>
        refine ⟨rfl, k, List.mem_of_find?_eq_some hfind, ?_⟩
        have hcovers : k.Covers (Vm.PGROUNDDOWN va) := by
          simpa using List.find?_some hfind
        unfold Vm.Kmap.Covers Vm.PGROUNDDOWN Vm.PGROUNDUP PGSIZE at *
        omega
    · cases ht
  · rw [Vm.shape_owned] at hi
    rw [view_twoPages]
    by_cases hex : ∃ k ∈ g.kmap, k.Uses i
    · rw [if_pos (.inr hex)]
      exact iff_of_true rfl hex
    · rw [if_neg (not_or.2 ⟨by omega, hex⟩)]
      exact iff_of_false nofun hex
  · rw [huser va hva, hround]
    split
    · exact iff_of_true rfl (by omega)
    · split
      · exact iff_of_true rfl ‹_›
      · exact iff_of_false nofun ‹_›
  · rw [huser va hva] at he
    split at he
    · cases he
      have : va / PGSIZE = 0 := Nat.div_eq_of_lt ‹_›
      simp [this, hguard]
    · split at he
      · cases he
        have : va / PGSIZE = 1 := by
          unfold PGSIZE at *
          omega
        simp [this, hguard]
      · cases he
  · rintro v ⟨⟩
    decide

def twoPagesState (g : Geometry) : State :=
  { start .mkfs [] with mem := ⟨[], twoPages g, fun _ _ => 0, []⟩ }

/-- The machine, with a kernel that has its data at `0x80108000` and ends at `0x80115000`. -/
def machine : Geometry :=
  Geometry.xv6 (KERNBASE + 0x108000) (KERNBASE + 0x115000) (by decide) (by decide) (by decide)

theorem arguments_copied_short :
    Stacked machine (twoPagesState machine).mem.page 57343 (2 * PGSIZE) ∧
      CopiesSafely 57343 [[101, 99, 104, 111], [104, 105]] (2 * PGSIZE) (twoPagesState machine) := by
  refine ⟨twoPages_stacked machine, (arguments_copied_iff (KERNBASE + 0x108000) (KERNBASE + 0x115000)
    (by decide) (by decide) (by decide) (twoPagesState machine) 57343 (2 * PGSIZE)
    (twoPages_stacked machine) _ (by decide) (by decide)).2 ?_⟩
  intro k hk _
  refine .inl ((argBytes_take_le _ _).trans ?_)
  decide

/-- With an argument of 40 megabytes, `sp` becomes `0xfd802000`, where there is no page table. -/
theorem pushStack_forty (arg : List UInt8) (hlen : arg.length + 1 = 40 * 2 ^ 20) :
    pushStack 57343 [arg] (2 * PGSIZE) (twoPagesState machine) = .error (.vm .nullPte) := by
  have hroom : room arg = 40 * 2 ^ 20 := by
    unfold room
    omega
  have harg : ∀ a ∈ [arg], a.length + 1 ≤ KERNBASE := by
    intro a ha
    rw [List.mem_singleton.1 ha, hlen]
    decide
  have hwp := pushStack_wp (E := (· = .vm .nullPte)) (s := twoPagesState machine)
    (twoPages_stacked machine) harg fun _ => rfl
  cases hrun : pushStack 57343 [arg] (2 * PGSIZE) (twoPagesState machine) with
  | error e => rw [hwp.of_error hrun]
  | ok rs =>
    obtain ⟨r, s'⟩ := rs
    have hland := (hwp.of_ok hrun).2 (by simp [MAXARG]) 0 (by simp) (by simp)
    simp only [List.take_succ_cons, List.take_zero, argBytes_cons, argBytes_nil, hroom] at hland
    rcases hland with hle | hex
    · exact absurd hle (by decide)
    · exact absurd ((uses_xv6_iff (by decide) (by decide)).1 hex) (by decide)

theorem long_argument_null : ∃ (s : State) (d : Page) (sz : Nat) (arg : List UInt8),
    Stacked machine s.mem.page d sz ∧ arg.length + 1 = 40 * 2 ^ 20 ∧
      pushStack d [arg] sz s = .error (.vm .nullPte) := by
  have hlen : (List.replicate (40 * 2 ^ 20 - 1) (97 : UInt8)).length + 1 = 40 * 2 ^ 20 := by
    rw [List.length_replicate]
    omega
  exact ⟨twoPagesState machine, 57343, 2 * PGSIZE, _, twoPages_stacked machine, hlen,
    pushStack_forty _ hlen⟩

end Laboratorio.Xv6.Kernel
