import Laboratorio.Xv6.Ownership

/-!
# What `exec` puts on the stack

`exec` pushes the strings one below the other, each at a multiple of four, and below them the words of
`ustack`.  `copyout` refuses the guard page, so that a copying that succeeds has stayed in the stack
page.
-/

namespace Laboratorio.Xv6.Vm

open Laboratorio.Lib Bytes

variable {g : Geometry} {page : Page → Nat → Pte} {m m' : Mem} {d : Page} {va a : Nat}
  {buf : List UInt8}

/-! ## `copyout` -/

/-- The byte that a directory shows at an address. -/
def byteAt (m : Mem) (d : Page) (va : Nat) : Option UInt8 :=
  (user m d va).map fun x => x.2 (va % PGSIZE)

/-- The byte at an address of the program. -/
def userByte (m : Mem) (d : Page) (va : Nat) : Option UInt8 :=
  if va < KERNBASE then byteAt m d va else none

theorem byteAt_memmove {off : Nat} {e : Pte} (hn : (space m.page d).Nodup) (hva : va < KERNBASE)
    (he : pte m.page d va = some e) (ha : a < KERNBASE) :
    byteAt { m with bytes := Function.update m.bytes e.ppn (splice (m.bytes e.ppn) off buf) } d a =
      if a / PGSIZE = va / PGSIZE ∧ off ≤ a % PGSIZE ∧ a % PGSIZE < off + buf.length then
        buf[a % PGSIZE - off]?
      else byteAt m d a := by
  unfold byteAt user
  by_cases hsame : a / PGSIZE = va / PGSIZE
  · have hpte : pte m.page d a = some e := by
      obtain ⟨hD, hT⟩ := (index_eq_iff (lt_of_user hva) (lt_of_user ha)).2 hsame
      rw [← he, pte, pte, hD, hT]
    simp only [hpte, Option.map_some, Function.update_self, hsame, true_and]
    split
    · rename_i hin
      obtain ⟨i, hi⟩ := Nat.exists_eq_add_of_le hin.1
      rw [hi, splice_inside (by omega), Nat.add_sub_cancel_left]
    · rename_i hout
      rw [splice_outside (by omega)]
  · rw [if_neg fun h => hsame h.1]
    cases hpte : pte m.page d a with
    | none => rfl
    | some e' =>
      have hne : e'.ppn ≠ e.ppn := fun heq => hsame (page_of_ppn hn ha hva hpte he heq)
      simp only [Option.map_some, Function.update_of_ne hne]

/-- The bytes `buf` have been put at `va`, in pages for the user. -/
structure Put (d : Page) (va : Nat) (buf : List UInt8) (m m' : Mem) : Prop where
  inside : 0 < buf.length → va + buf.length ≤ KERNBASE
  user : ∀ a, va ≤ a → a < va + buf.length → ∃ e, pte m.page d a = some e ∧ e.U = true
  bytes : ∀ a < KERNBASE, byteAt m' d a =
    if va ≤ a ∧ a < va + buf.length then buf[a - va]? else byteAt m d a

theorem Put.nil : Put d va [] m m :=
  ⟨fun h => absurd h (Nat.lt_irrefl 0), fun _ hlo hhi => absurd hhi (Nat.not_lt.2 hlo),
    fun _ _ => (if_neg fun h => Nat.not_lt.2 h.1 h.2).symm⟩

/-- What is put into the rest of the first page, and then from the next page on. -/
theorem Put.cons {e : Pte} {k : Nat} (hn : (space m.page d).Nodup) (hlen : 0 < buf.length)
    (hk : k = min (PGSIZE - (va - PGROUNDDOWN va)) buf.length) (hlow : PGROUNDDOWN va < KERNBASE)
    (he : pte m.page d (PGROUNDDOWN va) = some e) (hU : e.U = true)
    (h : Put d (PGROUNDDOWN va + PGSIZE) (buf.drop k) { m with
      bytes := Function.update m.bytes e.ppn
        (splice (m.bytes e.ppn) (va - PGROUNDDOWN va) (buf.take k)) } m') :
    Put d va buf m m' := by
  have htake : (buf.take k).length = k := by
    rw [List.length_take]
    omega
  have hdrop : (buf.drop k).length = buf.length - k := List.length_drop
  have hva : PGROUNDDOWN va + va % PGSIZE = va := by
    unfold PGROUNDDOWN PGSIZE
    omega
  have hdiv : PGROUNDDOWN va % PGSIZE = 0 := by
    unfold PGROUNDDOWN PGSIZE
    omega
  have hin : va + buf.length ≤ KERNBASE := by
    have hrest := h.inside
    rw [hdrop] at hrest
    unfold KERNBASE PGSIZE at *
    omega
  refine ⟨fun _ => hin, fun a hlo hhi => ?_, fun a ha => ?_⟩
  · by_cases hfirst : a < PGROUNDDOWN va + PGSIZE
    · have hsame : a / PGSIZE = PGROUNDDOWN va / PGSIZE := by
        unfold PGSIZE at *
        omega
      obtain ⟨hD, hT⟩ := (index_eq_iff (lt_of_user hlow) (lt_of_user (hhi.trans_le hin))).2 hsame
      refine ⟨e, ?_, hU⟩
      rw [← he, pte, pte, hD, hT]
    · refine h.user a (by omega) ?_
      rw [hdrop]
      unfold PGSIZE at *
      omega
  · rw [h.bytes a ha, hdrop, byteAt_memmove hn hlow he ha, htake]
    by_cases hrest : PGROUNDDOWN va + PGSIZE ≤ a ∧ a < PGROUNDDOWN va + PGSIZE + (buf.length - k)
    · have hput : va ≤ a ∧ a < va + buf.length := by
        unfold PGSIZE at *
        omega
      have hindex : k + (a - (PGROUNDDOWN va + PGSIZE)) = a - va := by
        unfold PGSIZE at *
        omega
      rw [if_pos hrest, if_pos hput, List.getElem?_drop, hindex]
    · rw [if_neg hrest]
      by_cases hfirst : a / PGSIZE = PGROUNDDOWN va / PGSIZE ∧ va - PGROUNDDOWN va ≤ a % PGSIZE ∧
          a % PGSIZE < va - PGROUNDDOWN va + k
      · have hput : va ≤ a ∧ a < va + buf.length := by
          unfold PGSIZE at *
          omega
        have hindex : a % PGSIZE - (va - PGROUNDDOWN va) = a - va ∧ a - va < k := by
          unfold PGSIZE at *
          omega
        rw [if_pos hfirst, if_pos hput, List.getElem?_take, hindex.1, if_pos hindex.2]
      · have hnot : ¬ (va ≤ a ∧ a < va + buf.length) := by
          unfold PGSIZE at *
          omega
        rw [if_neg hfirst, if_neg hnot]

/-- `copyout` that succeeds has put all the bytes where they belong; an address that has wrapped is not
for the user. -/
theorem copyout_put (hkern : g.Kernel page d) (hn : (space page d).Nodup) (n : Nat) :
    ∀ {va : Nat} {buf : List UInt8} {m : Mem}, m.page = page → va < 2 ^ 32 →
      va % PGSIZE + buf.length ≤ n * PGSIZE →
      wp (fun _ => True) (copyout d n va buf) (fun r m' => r = true → Put d va buf m m') m := by
  induction n with
  | zero =>
    intro va buf m _ _ hfuel _
    obtain rfl : buf = [] := List.eq_nil_of_length_eq_zero (by omega)
    exact .nil
  | succ n ih =>
    intro va buf m hpage hva hfuel
    by_cases hlen : 0 < buf.length
    · refine copyout_turn hlen (fun _ => trivial) (fun _ _ => nofun) fun e he hU => ?_
      have hlow : PGROUNDDOWN va < KERNBASE := by
        by_contra hge
        have hlt : PGROUNDDOWN va < 2 ^ 32 := by
          unfold PGROUNDDOWN PGSIZE
          omega
        have hkernel := (hkern.entry _ (Nat.le_of_not_lt hge) hlt e (hpage ▸ he)).1
        rw [hU] at hkernel
        cases hkernel
      have hnext : (PGROUNDDOWN va + PGSIZE) % 2 ^ 32 = PGROUNDDOWN va + PGSIZE := by
        unfold KERNBASE PGSIZE at *
        omega
      rw [hnext]
      refine wp_mono (ih hpage ?_ ?_) fun r m' h hr => Put.cons (hpage ▸ hn) hlen rfl hlow he hU (h hr)
      · unfold KERNBASE PGSIZE at *
        omega
      · rw [List.length_drop]
        unfold PGROUNDDOWN PGSIZE at *
        omega
    · obtain rfl : buf = [] := List.eq_nil_of_length_eq_zero (by omega)
      unfold copyout
      rw [if_neg hlen]
      exact fun _ => .nil

end Laboratorio.Xv6.Vm

namespace Laboratorio.Xv6.Kernel

open Laboratorio.Lib Bytes
open Vm (Page Mem Geometry PGSIZE PGROUNDUP KERNBASE Account Put byteAt userByte)
open Fs (Path Superblock)

variable {g : Geometry} {sb : Superblock} {s : State} {i : Slot} {d : Page} {sz sp : Nat}
  {argv args : List (List UInt8)} {f f' : Nat → Option UInt8} {ps : List Nat}

theorem push_put {buf : List UInt8} (h : Stacked g s.mem.page d sz)
    (hn : (Vm.space s.mem.page d).Nodup) (hsp : sp < 2 ^ 32) :
    wp (fun _ => True) (push d sp buf) (fun r s' => Pushed d s s' ∧ (r = true → Put d sp buf s.mem s'.mem)) s := by
  have hput : wp (fun _ => True) (push d sp buf) (fun r s' => r = true → Put d sp buf s.mem s'.mem) s := by
    unfold push
    refine wp_mem (Vm.copyout_put h.image.kern hn _ rfl hsp ?_)
    unfold PGSIZE
    omega
  exact wp_and (push_wp trivial hsp) hput

/-- What `push` has written lies outside the guard page and below `sz`. -/
theorem Stacked.put {buf : List UInt8} {m : Mem} {a : Nat} (h : Stacked g s.mem.page d sz)
    (hput : Put d sp buf s.mem m) (hlo : sp ≤ a) (hhi : a < sp + buf.length) :
    a < sz ∧ ¬ (sz - 2 * PGSIZE ≤ a ∧ a < sz - PGSIZE) := by
  obtain ⟨e, he, hU⟩ := hput.user a hlo hhi
  have hk : a < KERNBASE := hhi.trans_le (hput.inside (by omega))
  have hsz : a < sz := by
    have hexact := (h.image.exact a hk).1 (by rw [he]; rfl)
    rwa [h.roundup] at hexact
  have hguard := (h.image.access a hk e he).1 hU
  have haligned := h.aligned
  have hbig := h.big
  simp only [ne_eq, Option.some.injEq] at hguard
  unfold PGSIZE at *
  omega

/-! ## The strings -/

/-- The bytes of `arg` and a zero stand at `p`. -/
def StringAt (f : Nat → Option UInt8) (p : Nat) (arg : List UInt8) : Prop :=
  ∀ k ≤ arg.length, f (p + k) = (arg ++ [0])[k]?

/-- The strings `args` stand at the addresses `ps`, each below the one before, from `hi` down to
`lo`. -/
def Strings (f : Nat → Option UInt8) : List (List UInt8) → List Nat → (hi lo : Nat) → Prop
  | [], [], hi, lo => lo = hi
  | arg :: args, p :: ps, hi, lo =>
    p % 4 = 0 ∧ p + (arg.length + 1) ≤ hi ∧ StringAt f p arg ∧ Strings f args ps p lo
  | _, _, _, _ => False

theorem Strings.congr (hf : ∀ a, sp ≤ a → a < KERNBASE → f' a = f a) :
    ∀ {args : List (List UInt8)} {ps : List Nat} {hi : Nat}, hi ≤ KERNBASE → Strings f args ps hi sp →
      Strings f' args ps hi sp ∧ sp ≤ hi
  | [], [], hi, _, h => ⟨h, h.le⟩
  | [], _ :: _, _, _, h => h.elim
  | _ :: _, [], _, _, h => h.elim
  | arg :: args, p :: ps, hi, hhi, ⟨hfour, hend, hstr, h⟩ => by
      obtain ⟨h', hle⟩ := Strings.congr hf (by omega) h
      refine ⟨⟨hfour, hend, fun k hk => ?_, h'⟩, by omega⟩
      rw [hf (p + k) (by omega) (by omega)]
      exact hstr k hk

/-- The next string starts in the stack page, or the copying fails. -/
theorem Stacked.alignDown {arg : List UInt8} {m : Mem} (h : Stacked g s.mem.page d sz)
    (hlo : sz - PGSIZE ≤ sp) (hle : sp ≤ sz) (hfour : sp % 4 = 0)
    (hput : Put d (alignDown sp (arg.length + 1)) (arg ++ [0]) s.mem m) :
    sz - PGSIZE ≤ alignDown sp (arg.length + 1) ∧ alignDown sp (arg.length + 1) + (arg.length + 1) ≤ sp := by
  have hlen : (arg ++ [0]).length = arg.length + 1 := by simp
  have hin := hput.inside (by simp)
  have hbig := h.big
  have hsize := h.image.size
  have hbelow : Kernel.alignDown sp (arg.length + 1) + (arg.length + 1) ≤ sp ∧
      sp < Kernel.alignDown sp (arg.length + 1) + (arg.length + 1) + 4 := by
    rw [hlen] at hin
    unfold Kernel.alignDown KERNBASE at *
    omega
  refine ⟨?_, hbelow.1⟩
  by_contra hlow
  -- a string that leaves the stack page has a byte in the guard page
  have hguard := h.put hput (a := max (Kernel.alignDown sp (arg.length + 1)) (sz - 2 * PGSIZE))
    (le_max_left _ _) (by rw [hlen]; unfold PGSIZE at *; omega)
  unfold PGSIZE at *
  omega

theorem pushArgs_put (args : List (List UInt8)) : ∀ {ustack : List Nat} {sp : Nat} {s : State},
    Stacked g s.mem.page d sz → (Vm.space s.mem.page d).Nodup → sz - PGSIZE ≤ sp → sp ≤ sz → sp % 4 = 0 →
    ustack.length ≤ MAXARG →
    wp (fun _ => True) (pushArgs d args ustack sp) (fun r s' => Pushed d s s' ∧ ∀ us lo, r = some (us, lo) →
      sz - PGSIZE ≤ lo ∧ us.length ≤ MAXARG ∧
      (∃ ps, us = ustack ++ ps ∧ Strings (byteAt s'.mem d) args ps sp lo) ∧
      ∀ a, sp ≤ a → a < KERNBASE → byteAt s'.mem d a = byteAt s.mem d a) s := by
  induction args with
  | nil =>
    intro ustack sp s _ _ hlo _ _ hmax
    refine ⟨.refl, ?_⟩
    rintro us lo ⟨⟩
    exact ⟨hlo, hmax, ⟨[], (List.append_nil _).symm, rfl⟩, fun _ _ _ => rfl⟩
  | cons arg args ih =>
    intro ustack sp s h hn hlo hle hfour hmax
    unfold pushArgs
    split
    · exact ⟨.refl, by simp⟩
    · rename_i hroom
      refine wp_seq (push_put h hn ?_) ?_
      · unfold alignDown
        omega
      rintro (_ | _) s1 ⟨hpush, hput⟩
      · exact ⟨hpush, by simp⟩
      · have hput := hput rfl
        have hlen : (arg ++ [0]).length = arg.length + 1 := by simp
        have hsize := h.image.size
        obtain ⟨hlo1, hend1⟩ := h.alignDown hlo hle hfour hput
        have hfour1 : alignDown sp (arg.length + 1) % 4 = 0 := Nat.mul_mod_left _ _
        generalize alignDown sp (arg.length + 1) = p at *
        have hn1 : (Vm.space s1.mem.page d).Nodup := by
          obtain ⟨m, rfl, hw⟩ := hpush
          dsimp only
          rwa [hw.page]
        refine wp_mono (ih (h.of_pushed hpush) hn1 hlo1 (by omega) hfour1 ?_) ?_
        · rw [List.length_append, List.length_singleton]
          omega
        rintro r s2 ⟨hpush2, hres⟩
        refine ⟨hpush.trans hpush2, fun us lo hsome => ?_⟩
        obtain ⟨hlo2, hmax2, ⟨ps, rfl, hstrings⟩, hframe⟩ := hres us lo hsome
        refine ⟨hlo2, hmax2, ⟨p :: ps, by simp, hfour1, hend1, fun k hk => ?_, hstrings⟩,
          fun a ha hk => ?_⟩
        · rw [hframe (p + k) (by omega) (by omega), hput.bytes _ (by omega), if_pos (by omega),
            Nat.add_sub_cancel_left]
        · rw [hframe a (by omega) hk, hput.bytes a hk, if_neg (by omega)]

/-! ## The words -/

/-- The word at an address. -/
def wordAt (f : Nat → Option UInt8) (a : Nat) : Option Nat :=
  ((List.range 4).mapM fun k => f (a + k)).map ofBytes

theorem wordAt_of_bytes {w a : Nat} (hw : w < 2 ^ 32) (h : ∀ k < 4, f (a + k) = (toBytes 4 w)[k]?) :
    wordAt f a = some w := by
  have hbytes : (List.range 4).mapM (fun k => f (a + k)) = some (toBytes 4 w) := by
    have hrange : List.range 4 = [0, 1, 2, 3] := rfl
    rw [hrange]
    simp only [List.mapM_cons, List.mapM_nil, h 0 (by omega), h 1 (by omega), h 2 (by omega),
      h 3 (by omega)]
    rfl
  have hmod : w % 256 ^ 4 = w := Nat.mod_eq_of_lt hw
  rw [wordAt, hbytes, Option.map_some, ofBytes_toBytes, hmod]

/-- The bytes of the word number `j`. -/
theorem getElem?_words {ws : List Nat} : ∀ {j w k : Nat}, ws[j]? = some w → k < 4 →
    (ws.flatMap (toBytes 4))[4 * j + k]? = (toBytes 4 w)[k]? := by
  induction ws with
  | nil => exact fun h => nomatch h
  | cons v ws ih =>
    rintro (_ | j) w k h hk
    · cases h
      rw [List.flatMap_cons, Nat.mul_zero, Nat.zero_add, List.getElem?_append_left]
      simpa using hk
    · have hpos : (toBytes 4 v).length = 4 := length_toBytes 4 v
      rw [List.flatMap_cons, List.getElem?_append_right (by omega), hpos]
      have hindex : 4 * (j + 1) + k - 4 = 4 * j + k := by omega
      rw [hindex]
      exact ih h hk

/-- The parts of the stack: where each one starts, and its length.  `av` is the address of the array of
pointers. -/
def regions (esp av : Nat) (argv : List (List UInt8)) (ps : List Nat) : List (Nat × Nat) :=
  (esp, 12) :: (av, 4 * (argv.length + 1)) :: List.zipWith (fun p arg => (p, arg.length + 1)) ps argv

/-- What `main(argc, argv)` of a program of size `sz` finds in its memory `f`. -/
structure Handed (f : Nat → Option UInt8) (sz esp : Nat) (argv : List (List UInt8)) (av : Nat)
    (ps : List Nat) : Prop where
  ret : wordAt f esp = some 0xffffffff
  argc : wordAt f (esp + 4) = some argv.length
  vector : wordAt f (esp + 8) = some av
  pointers : ∀ k < argv.length, wordAt f (av + 4 * k) = ps[k]?
  null : wordAt f (av + 4 * argv.length) = some 0
  strings : List.Forall₂ (fun p arg => p % 4 = 0 ∧ StringAt f p arg) ps argv
  inside : ∀ r ∈ regions esp av argv ps, sz - PGSIZE ≤ r.1 ∧ r.1 + r.2 ≤ sz
  disjoint : (regions esp av argv ps).Pairwise fun r r' => r.1 + r.2 ≤ r'.1 ∨ r'.1 + r'.2 ≤ r.1

theorem Strings.forall₂ : ∀ {args : List (List UInt8)} {ps : List Nat} {hi lo : Nat},
    Strings f args ps hi lo → List.Forall₂ (fun p arg => p % 4 = 0 ∧ StringAt f p arg) ps args
  | [], [], _, _, _ => .nil
  | [], _ :: _, _, _, h => h.elim
  | _ :: _, [], _, _, h => h.elim
  | _ :: _, _ :: _, _, _, ⟨hfour, _, hstr, h⟩ => .cons ⟨hfour, hstr⟩ h.forall₂

theorem Strings.lt : ∀ {args : List (List UInt8)} {ps : List Nat} {hi lo : Nat},
    Strings f args ps hi lo → ∀ p ∈ ps, p < hi
  | [], [], _, _, _, _, hp => nomatch hp
  | [], _ :: _, _, _, h, _, _ => h.elim
  | _ :: _, [], _, _, h, _, _ => h.elim
  | _ :: _, q :: ps, hi, _, ⟨_, hend, _, h⟩, p, hp => by
      rcases List.mem_cons.1 hp with rfl | hp
      · omega
      · have := Strings.lt h p hp
        omega

theorem Strings.regions : ∀ {args : List (List UInt8)} {ps : List Nat} {hi lo : Nat},
    Strings f args ps hi lo →
      lo ≤ hi ∧ (∀ r ∈ List.zipWith (fun p arg => (p, arg.length + 1)) ps args,
        lo ≤ r.1 ∧ r.1 + r.2 ≤ hi) ∧
      (List.zipWith (fun p arg => (p, arg.length + 1)) ps args).Pairwise
        fun r r' => r.1 + r.2 ≤ r'.1 ∨ r'.1 + r'.2 ≤ r.1
  | [], [], _, _, h => ⟨h.le, by simp, .nil⟩
  | [], _ :: _, _, _, h => h.elim
  | _ :: _, [], _, _, h => h.elim
  | arg :: args, p :: ps, hi, lo, ⟨_, hend, _, h⟩ => by
      obtain ⟨hle, hin, hdis⟩ := Strings.regions h
      refine ⟨by omega, ?_, ?_⟩
      · rw [List.zipWith_cons_cons, List.forall_mem_cons]
        refine ⟨⟨hle, hend⟩, fun r hr => ?_⟩
        have := hin r hr
        omega
      · rw [List.zipWith_cons_cons, List.pairwise_cons]
        exact ⟨fun r hr => .inr (hin r hr).2, hdis⟩

/-- The words of `ustack` just below the strings. -/
theorem Strings.handed {lo : Nat} (hlo : sz - PGSIZE ≤ lo - (3 + ps.length + 1) * 4)
    (hroom : (3 + ps.length + 1) * 4 ≤ lo) (hsz : sz ≤ KERNBASE) (hmax : ps.length ≤ MAXARG)
    (h : Strings f argv ps sz lo)
    (hwords : ∀ k < (3 + ps.length + 1) * 4,
      f (lo - (3 + ps.length + 1) * 4 + k) = (ustackBytes ps lo)[k]?) :
    Handed f sz (lo - (3 + ps.length + 1) * 4) argv (lo - (ps.length + 1) * 4) ps := by
  obtain ⟨hle, hin, hdis⟩ := h.regions
  have hlen : ps.length = argv.length := h.forall₂.length_eq
  have hword : ∀ j w, w < 2 ^ 32 →
      ([0xffffffff, ps.length, (lo + 2 ^ 32 - (ps.length + 1) * 4) % 2 ^ 32] ++ ps ++ [0])[j]? = some w →
      wordAt f (lo - (3 + ps.length + 1) * 4 + 4 * j) = some w := by
    intro j w hw hj
    have hlt := (List.getElem?_eq_some_iff.1 hj).1
    simp only [List.length_append, List.length_cons, List.length_nil] at hlt
    refine wordAt_of_bytes hw fun k hk => ?_
    rw [Nat.add_assoc, hwords (4 * j + k) (by omega)]
    exact getElem?_words hj hk
  have hbelow : ∀ p ∈ ps, p < 2 ^ 32 := fun p hp => (h.lt p hp).trans_le (hsz.trans (by decide))
  have hav : (lo + 2 ^ 32 - (ps.length + 1) * 4) % 2 ^ 32 = lo - (ps.length + 1) * 4 := by
    unfold KERNBASE at hsz
    omega
  rw [hav] at hword
  refine ⟨?_, ?_, ?_, fun k hk => ?_, ?_, h.forall₂, ?_, ?_⟩
  · exact hword 0 _ (by decide) rfl
  · rw [← hlen]
    exact hword 1 _ (by unfold MAXARG at hmax; omega) rfl
  · exact hword 2 _ (by unfold KERNBASE at hsz; omega) rfl
  · have hk' : k < ps.length := hlen ▸ hk
    have haddr : lo - (ps.length + 1) * 4 + 4 * k = lo - (3 + ps.length + 1) * 4 + 4 * (3 + k) := by omega
    rw [haddr, List.getElem?_eq_getElem hk']
    refine hword (3 + k) _ (hbelow _ (List.getElem_mem hk')) ?_
    rw [List.getElem?_append_left (by simp; omega), List.getElem?_append_right (by simp)]
    simp [hk']
  · have haddr : lo - (ps.length + 1) * 4 + 4 * argv.length =
        lo - (3 + ps.length + 1) * 4 + 4 * (3 + ps.length) := by omega
    rw [haddr]
    refine hword (3 + ps.length) 0 (by decide) ?_
    have hlast : ([0xffffffff, ps.length, lo - (ps.length + 1) * 4] ++ ps).length = 3 + ps.length := by
      simp only [List.length_append, List.length_cons, List.length_nil]
    rw [List.getElem?_append_right hlast.le, hlast, Nat.sub_self]
    rfl
  · unfold Kernel.regions
    rw [List.forall_mem_cons, List.forall_mem_cons]
    refine ⟨⟨hlo, ?_⟩, ⟨?_, ?_⟩, fun r hr => ?_⟩
    · dsimp only
      omega
    · dsimp only
      omega
    · dsimp only
      omega
    · have := hin r hr
      omega
  · unfold Kernel.regions
    rw [List.pairwise_cons, List.pairwise_cons, List.forall_mem_cons]
    refine ⟨⟨.inl ?_, fun r hr => .inl ?_⟩, fun r hr => .inl ?_, hdis⟩
    · dsimp only
      omega
    · have := (hin r hr).1
      dsimp only
      omega
    · have := (hin r hr).1
      dsimp only
      omega

/-! ## `exec` -/

theorem pushStack_put (h : Stacked g s.mem.page d sz) (hn : (Vm.space s.mem.page d).Nodup) :
    wp (fun _ => True) (pushStack d argv sz) (fun r s' => Pushed d s s' ∧ ∀ sp, r = some sp →
      ∃ av ps, Handed (userByte s'.mem d) sz sp argv av ps) s := by
  have hbig := h.big
  have hsize := h.image.size
  have haligned := h.aligned
  unfold pushStack
  refine wp_seq (pushArgs_put argv h hn (Nat.sub_le _ _) le_rfl ?_ (Nat.zero_le _)) ?_
  · unfold PGSIZE at haligned
    omega
  rintro (_ | ⟨us, lo⟩) s1 ⟨hpush, hres⟩
  · exact ⟨hpush, nofun⟩
  · obtain ⟨hlo, hmax, ⟨ps, hus, hstrings⟩, -⟩ := hres us lo rfl
    obtain rfl : us = ps := hus
    have hle : lo ≤ sz := hstrings.regions.1
    have hroom : (3 + us.length + 1) * 4 ≤ lo ∧ (3 + us.length + 1) * 4 ≤ PGSIZE := by
      unfold MAXARG PGSIZE at *
      omega
    have hsp : (lo + 2 ^ 32 - (3 + us.length + 1) * 4) % 2 ^ 32 = lo - (3 + us.length + 1) * 4 := by
      unfold KERNBASE at hsize
      omega
    have hn1 : (Vm.space s1.mem.page d).Nodup := by
      obtain ⟨m, rfl, hw⟩ := hpush
      dsimp only
      rwa [hw.page]
    have h1 := h.of_pushed hpush
    dsimp only
    rw [hsp]
    refine wp_seq (push_put h1 hn1 ?_) ?_
    · unfold KERNBASE at hsize
      omega
    rintro (_ | _) s2 ⟨hpush2, hput⟩
    · exact ⟨hpush.trans hpush2, nofun⟩
    · have hput := hput rfl
      have hlen := length_ustackBytes us lo
      refine ⟨hpush.trans hpush2, ?_⟩
      rintro sp ⟨⟩
      have hpage : sz - PGSIZE ≤ lo - (3 + us.length + 1) * 4 := by
        by_contra hlow
        have hguard := h1.put hput le_rfl (by omega)
        omega
      have hframe : ∀ a, lo ≤ a → a < KERNBASE → userByte s2.mem d a = byteAt s1.mem d a := by
        intro a ha hk
        rw [userByte, if_pos hk, hput.bytes a hk, if_neg (by omega)]
      refine ⟨_, us, (Strings.congr hframe hsize hstrings).1.handed hpage hroom.1 hsize hmax ?_⟩
      intro k hk
      rw [userByte, if_pos (by omega), hput.bytes _ (by omega), if_pos (by omega),
        Nat.add_sub_cancel_left]

theorem userByte_congr {m m' : Mem} (h : ∀ va < KERNBASE, Vm.user m' d va = Vm.user m d va) :
    userByte m' d = userByte m d := by
  funext a
  unfold userByte
  split
  · rename_i ha
    rw [byteAt, h a ha, byteAt]
  · rfl

/-- What the copying leaves behind, whatever else happens to the memory. -/
theorem leaves_handed : Leaves (fun _ => True) g argv fun m d sz sp =>
    ∃ av ps, Handed (userByte m d) sz sp argv av ps := by
  refine ⟨fun d sz s h hn => pushStack_put h hn, fun huser h => ?_⟩
  rwa [userByte_congr huser]

/-- **`exec` hands over its arguments.**  After any calls of any processes, for every vector of
arguments: if `exec` returns 0, then the new program has its guard page and its stack page, and finds
its arguments in the stack page. -/
theorem exec_hands_over (g : Geometry) (sb : Superblock) (ncpu : Nat) (disk : Fs.State)
    (deny : List Bool) (cs : List (Slot × Call)) (i : Slot) (path : Path) (argv : List (List UInt8)) :
    wp (fun _ => True) (do main g ncpu; calls g sb cs; call g sb (i, .exec (some (path, argv))))
      (fun r s => r = 0 → Stacked g s.mem.page (s.proc i).pgdir (s.proc i).sz ∧
        ∃ av ps, Handed (userByte s.mem (s.proc i).pgdir) (s.proc i).sz (s.proc i).esp argv av ps)
      (start disk deny) := by
  rw [← bind_assoc, wp_bind]
  refine wp_weaken (run_owned g sb ncpu disk deny cs) ?_ fun _ _ => trivial
  intro _ s h
  unfold call
  simp only [wp_bind, wp_get]
  split
  · rename_i hi
    have hlive : (s.proc i).state ≠ .UNUSED := by
      rw [hi]
      decide
    obtain ⟨D, hD, -⟩ := exists_dirs hlive
    have haccount := h.files.2
    rw [hD] at haccount
    unfold syscall sys_exec
    dsimp only
    split
    · exact fun h => absurd h (by decide)
    · refine wp_mono (exec_leaves (fun _ => trivial) trivial (fun _ => trivial) leaves_handed haccount) ?_
      rintro r s' (⟨rfl, -⟩ | ⟨-, hnew, hhanded⟩)
      · exact fun h => absurd h (by decide)
      · exact fun _ => ⟨hnew.stacked, hhanded⟩
  · trivial

/-- A program without segments gets two arguments: the first is at the end of the stack page. -/
example :
    let elf : List UInt8 := [0x7f, 0x45, 0x4c, 0x46] ++ List.replicate 48 0
    let cs : List (Slot × Call) := [(0, .opens (some [47, 97]) 0x202), (0, .write 0 (some elf))]
    (match (do main .small 1; calls .small .mkfs cs; call .small .mkfs (0, .exec (some ([47, 97], [[97], [98]]))))
        (start .mkfs []) with
    | .ok (r, s) =>
      let f := userByte s.mem (s.proc 0).pgdir
      let esp := (s.proc 0).esp
      decide (r = 0) && decide (wordAt f (esp + 4) = some 2) &&
        decide (wordAt f (esp + 12) = some (2 * PGSIZE - 4)) && decide (f (2 * PGSIZE - 4) = some 97)
    | .error _ => false) = true := by
  decide +kernel

end Laboratorio.Xv6.Kernel
