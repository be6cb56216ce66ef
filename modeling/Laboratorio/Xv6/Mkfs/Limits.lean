import Laboratorio.Lib.Runs
import Laboratorio.Xv6.Mkfs.Image

/-!
# The limits that `mkfs` keeps

A block that `iappend` takes is read before anything else happens, and a read behind the end of the
image ends the program.  So all blocks are below `FSSIZE`, whatever the input.  Nothing of that kind
bounds `freeinode`.
-/

namespace Laboratorio.Xv6.Mkfs

open Laboratorio.Lib Bytes
open Fs (BSIZE NDIRECT NINDIRECT MAXFILE FSSIZE ROOTINO DIRSIZ)

/-- The image has its size, the blocks taken so far are in it, and `ialloc` has counted to `n`. -/
structure Limits (n : Nat) (s : State) : Prop where
  len : s.len = FSSIZE
  freeblock : s.freeblock ≤ FSSIZE
  blocks : ∀ b ∈ s.blocks, b < FSSIZE
  inums : s.inums = (List.range n).map fun i => (i + 1) % 2 ^ 32
  freeinode : s.freeinode = (n + 1) % 2 ^ 32
  iwrites : ∀ w ∈ s.iwrites, ∃ i ∈ s.inums, w = IBLOCK i

/-- The same once sector `x` has been read. -/
def Pending (n x : Nat) (s : State) : Prop := s.len = FSSIZE ∧ (sector x < FSSIZE → Limits n s)

variable {n x i k off turns : Nat} {s : State} {d : Din} {p : List UInt8} {buf : Buf}

/-- Nothing is said about runs that stop with an error. -/
abbrev partly {α : Type} (m : M α) (Q : α → State → Prop) (s : State) : Prop :=
  wp (fun _ => True) m Q s

theorem sector_of_lt (h : x < 2 ^ 23) : sector x = x := by
  unfold sector BSIZE
  omega

theorem Limits.pending (h : Limits n s) (x : Nat) : Pending n x s := ⟨h.len, fun _ => h⟩

theorem rsect_wp {Q : Buf → State → Prop} (h : sector x < s.len → Q (s.sect (sector x)) s) :
    partly (rsect x) Q s := by
  unfold partly rsect
  rw [wp_bind, wp_get]
  split
  · rename_i hlt
    exact h hlt
  · trivial

theorem rinode_wp {Q : Din → State → Prop} (h : sector (IBLOCK i) < s.len →
    Q (Din.read (s.sect (sector (IBLOCK i))) (i % IPB * DINODE)) s) : partly (rinode i) Q s := by
  unfold partly rinode
  rw [wp_bind]
  exact rsect_wp h

theorem Pending.rsect (h : Pending n x s) :
    partly (rsect x) (fun _ s' => Limits n s' ∧ sector x < s'.len) s := by
  refine rsect_wp fun hlt => ⟨h.2 ?_, hlt⟩
  rw [← h.1]
  exact hlt

theorem Limits.wsect (h : Limits n s) (hx : sector x < s.len) :
    partly (wsect x buf) (fun _ s' => Limits n s') s := by
  have hlen : max s.len (sector x + 1) = s.len := by omega
  exact ⟨hlen.trans h.len, h.freeblock, h.blocks, h.inums, h.freeinode, h.iwrites⟩

theorem Limits.nextblock (h : Limits n s) :
    partly nextblock (fun b s' => Pending n b s' ∧ s'.len = s.len) s := by
  have hfb := h.freeblock
  have hfs : FSSIZE = 1000 := rfl
  refine ⟨⟨h.len, fun hlt => ?_⟩, rfl⟩
  have hlt' : s.freeblock < FSSIZE := by
    rwa [sector_of_lt (by omega)] at hlt
  refine ⟨h.len, ?_, ?_, h.inums, h.freeinode, h.iwrites⟩
  · show (s.freeblock + 1) % 2 ^ 32 ≤ FSSIZE
    rw [Nat.mod_eq_of_lt (by omega)]
    omega
  · intro b hb
    rcases List.mem_append.1 hb with hb | hb
    · exact h.blocks b hb
    · rw [List.mem_singleton.1 hb]
      exact hlt'

theorem Limits.addr (h : Limits n s) :
    partly (addr d k) (fun d' s' => Pending n (d'.addrs k) s') s := by
  unfold partly Mkfs.addr
  split
  · refine wp_seq h.nextblock ?_
    rintro b s1 ⟨h1, -⟩
    show Pending n (Function.update d.addrs k b k) s1
    rwa [Function.update_self]
  · exact h.pending _

theorem Pending.indirectAddr (h : Pending n (d.addrs NDIRECT) s) :
    partly (indirectAddr d k) (fun b s' => Pending n b s') s := by
  unfold partly Mkfs.indirectAddr
  refine wp_seq h.rsect ?_
  rintro indirect s1 ⟨h1, hlt⟩
  rw [wp_ite]
  constructor
  · intro _
    refine wp_seq h1.nextblock ?_
    rintro b s2 ⟨h2, hlen⟩
    have hmax : max s2.len (sector (d.addrs NDIRECT) + 1) = s2.len := by omega
    refine ⟨hmax.trans h2.1, fun hx => ?_⟩
    have h3 := h2.2 hx
    exact ⟨hmax.trans h3.len, h3.freeblock, h3.blocks, h3.inums, h3.freeinode, h3.iwrites⟩
  · exact fun _ => h1.pending _

theorem Limits.blockOf (h : Limits n s) :
    partly (blockOf d k) (fun r s' => Pending n r.2 s') s := by
  unfold partly Mkfs.blockOf
  split
  · exact wp_seq h.addr fun _ _ h1 => h1
  · refine wp_seq h.addr ?_
    intro d1 s1 h1
    exact wp_seq h1.indirectAddr fun _ _ h2 => h2

theorem Limits.appendLoop (h : Limits n s) :
    partly (appendLoop turns d off p) (fun _ s' => Limits n s') s := by
  induction turns generalizing d off p s with
  | zero => exact h
  | succ turns ih =>
    unfold partly Mkfs.appendLoop
    rw [wp_ite]
    refine ⟨fun _ => h, fun _ => ?_⟩
    rw [wp_ite]
    refine ⟨fun _ => ?_, fun _ => trivial⟩
    refine wp_seq h.blockOf ?_
    intro r s1 h1
    refine wp_seq h1.rsect ?_
    rintro buf s2 ⟨h2, hlt⟩
    refine wp_seq (h2.wsect hlt) ?_
    intro _ s3 h3
    exact ih h3

theorem Limits.winode (h : Limits n s) (hi : i ∈ s.inums) :
    partly (winode i d) (fun _ s' => Limits n s') s := by
  unfold partly Mkfs.winode
  simp only [wp_bind]
  refine rsect_wp fun hlt => ?_
  have hmax : max s.len (sector (IBLOCK i) + 1) = s.len := by omega
  refine ⟨hmax.trans h.len, h.freeblock, h.blocks, h.inums, h.freeinode, fun w hw => ?_⟩
  rcases List.mem_append.1 hw with hw | hw
  · exact h.iwrites w hw
  · exact ⟨i, hi, List.mem_singleton.1 hw⟩

theorem Limits.mem_inums (h : Limits n s) (hi : i ∈ (List.range n).map fun i => (i + 1) % 2 ^ 32) :
    i ∈ s.inums := by
  rw [h.inums]
  exact hi

theorem Limits.iappend (h : Limits n s)
    (hi : i ∈ (List.range n).map fun i => (i + 1) % 2 ^ 32) :
    partly (iappend i p) (fun _ s' => Limits n s') s := by
  unfold partly Mkfs.iappend
  simp only [wp_bind]
  refine rinode_wp fun _ => ?_
  refine wp_mono h.appendLoop ?_
  intro r s1 h1
  exact h1.winode (h1.mem_inums hi)

theorem Limits.ialloc (h : Limits n s) :
    partly (ialloc k) (fun i s' => Limits (n + 1) s' ∧ i = (n + 1) % 2 ^ 32) s := by
  unfold partly Mkfs.ialloc nextinode
  simp only [wp_bind, wp_get, wp_set, wp_pure]
  have h1 : Limits (n + 1) { s with
      freeinode := (s.freeinode + 1) % 2 ^ 32, inums := s.inums ++ [s.freeinode] } := by
    refine ⟨h.len, h.freeblock, h.blocks, ?_, ?_, fun w hw => ?_⟩
    · rw [List.range_succ, List.map_append, h.inums, h.freeinode]
      rfl
    · show (s.freeinode + 1) % 2 ^ 32 = _
      rw [h.freeinode]
      omega
    · obtain ⟨i, hi, hw⟩ := h.iwrites w hw
      exact ⟨i, List.mem_append_left _ hi, hw⟩
  refine wp_mono (h1.winode (List.mem_append_right _ (List.mem_singleton_self _))) ?_
  intro _ s2 h2
  exact ⟨h2, h.freeinode⟩

theorem Limits.appendChunks {cs : List (List UInt8)} (h : Limits n s)
    (hi : i ∈ (List.range n).map fun i => (i + 1) % 2 ^ 32) :
    partly (appendChunks i cs) (fun _ s' => Limits n s') s := by
  induction cs generalizing s with
  | nil => exact h
  | cons c cs ih =>
    unfold partly Mkfs.appendChunks
    refine wp_seq (h.iappend hi) ?_
    intro _ s1 h1
    exact ih h1

theorem last_mem (n : Nat) : (n + 1) % 2 ^ 32 ∈ (List.range (n + 1)).map fun i => (i + 1) % 2 ^ 32 :=
  List.mem_map.2 ⟨n, List.mem_range.2 (Nat.lt_succ_self n), rfl⟩

theorem root_mem (n : Nat) : ROOTINO ∈ (List.range (n + 1)).map fun i => (i + 1) % 2 ^ 32 :=
  List.mem_map.2 ⟨0, List.mem_range.2 (Nat.succ_pos n), rfl⟩

theorem Limits.addFile {f : Input} (h : Limits (n + 1) s) :
    partly (addFile ROOTINO f) (fun _ s' => Limits (n + 2) s') s := by
  unfold partly Mkfs.addFile
  rw [wp_ite]
  refine ⟨fun _ => trivial, fun _ => ?_⟩
  cases f.fd with
  | none => trivial
  | some cs =>
    refine wp_seq h.ialloc ?_
    rintro i s1 ⟨h1, rfl⟩
    refine wp_seq (h1.iappend (root_mem _)) ?_
    intro _ s2 h2
    exact h2.appendChunks (last_mem _)

theorem Limits.addFiles {fs : List Input} (h : Limits (n + 1) s) :
    partly (addFiles ROOTINO fs) (fun _ s' => Limits (n + 1 + fs.length) s') s := by
  induction fs generalizing n s with
  | nil => exact h
  | cons f fs ih =>
    unfold partly Mkfs.addFiles
    refine wp_seq h.addFile ?_
    intro _ s1 h1
    refine wp_mono (ih h1) ?_
    intro _ s2 h2
    rwa [List.length_cons, show n + 1 + (fs.length + 1) = n + 1 + 1 + fs.length by omega]

theorem clear_eq (n : Nat) (hn : n ≤ FSSIZE) : clear n start = .ok ((), { start with len := n }) := by
  induction n with
  | zero =>
    rw [clear_zero]
    rfl
  | succ n ih =>
    have hlt : n < 2 ^ 23 := by
      have : FSSIZE = 1000 := rfl
      omega
    have hzero : Function.update start.sect n zeroes = start.sect := Function.update_eq_self n _
    rw [clear_succ]
    show ((clear n start).bind fun r => wsect n zeroes r.2) = _
    rw [ih (by omega)]
    show Except.ok ((), _) = _
    rw [sector_of_lt hlt]
    dsimp only
    rw [hzero, Nat.max_eq_right (Nat.le_succ n)]

theorem clear_wp {E : Exit → Prop} {Q : Unit → State → Prop} (hn : n ≤ FSSIZE)
    (h : Q () { start with len := n }) : wp E (clear n) Q start := by
  unfold wp
  rw [clear_eq n hn]
  exact h

theorem Limits.makeRoot (h : Limits 0 s) :
    partly makeRoot (fun i s' => Limits 1 s' ∧ i = ROOTINO) s := by
  unfold partly Mkfs.makeRoot
  refine wp_seq h.ialloc ?_
  rintro i s1 ⟨h1, hi⟩
  rw [wp_ite]
  refine ⟨fun hroot => ?_, fun _ => trivial⟩
  simp only [wp_bind]
  rw [hroot]
  refine wp_mono (h1.iappend (root_mem _)) ?_
  intro _ s2 h2
  refine wp_mono (h2.iappend (root_mem _)) ?_
  intro _ s3 h3
  exact ⟨h3, rfl⟩

theorem Limits.fixRoot (h : Limits (n + 1) s) :
    partly (fixRoot ROOTINO) (fun _ s' => Limits (n + 1) s') s := by
  unfold partly Mkfs.fixRoot
  rw [wp_bind]
  exact rinode_wp fun _ => h.winode (h.mem_inums (root_mem n))

theorem Limits.balloc (h : Limits n s) :
    partly (balloc k) (fun _ s' => Limits n s') s := by
  have hlt : sector bmapstart < s.len := by
    rw [h.len]
    decide
  unfold partly Mkfs.balloc
  rw [wp_ite]
  exact ⟨fun _ => h.wsect hlt, fun _ => trivial⟩

theorem limits_cleared : Limits 0 { start with len := FSSIZE } :=
  ⟨rfl, by decide, nofun, rfl, rfl, nofun⟩

theorem limits_main (files : List Input) :
    partly (main files) (fun _ s => Limits (files.length + 1) s) start := by
  unfold partly main
  rw [wp_bind]
  refine clear_wp (Nat.le_refl _) ?_
  refine wp_seq (limits_cleared.wsect (by decide)) ?_
  intro _ s1 h1
  refine wp_seq h1.makeRoot ?_
  rintro i s2 ⟨h2, rfl⟩
  refine wp_seq h2.addFiles ?_
  intro _ s3 h3
  rw [Nat.zero_add, Nat.add_comm] at h3
  refine wp_seq h3.fixRoot ?_
  intro _ s4 h4
  rw [wp_bind, wp_get]
  exact h4.balloc

theorem mkfs_limits {files : List Input} (h : mkfs files = .ok s) : Limits (files.length + 1) s := by
  unfold mkfs at h
  obtain ⟨⟨⟨⟩, s'⟩, hrun, rfl⟩ := exists_of_map_eq_ok h
  exact (limits_main files).of_ok hrun

end Laboratorio.Xv6.Mkfs
