import Laboratorio.Lib.TwoLevel
import Laboratorio.Xv6.Fs.Dir

/-!
# Rules for path names, from rules for inodes

`J L n E s` is an invariant of the file system while a call runs: `E` are the references to cached
inodes that are held, by the call and by everyone else, `L` are the inodes whose locks the call holds,
and `n` operations are open.  `Rules` is what such an invariant has to say about the functions that
work on one inode.  From these follow its rules for path names and for the calls that use them; they
are proved once, for every invariant.
-/

namespace Laboratorio.Xv6.Fs

open Laboratorio.Lib TwoLevel Multiset

/-- The reference that a search has taken. -/
def found {β : Type} (r : Option (Ino × β)) : Multiset Ino := target (r.map Prod.fst)

@[simp] theorem found_none {β : Type} : found (none : Option (Ino × β)) = 0 := rfl

@[simp] theorem found_some {β : Type} (x : Ino × β) : found (some x) = {x.1} := rfl

/-! ## Loops over the entries of a directory -/

section Reading

variable {sb : Superblock} {D : Panic → Prop} {K : State → Prop} {s : State} {dp : Ino}

/-- `K` holds on while entries of `dp` are read. -/
def Reads (sb : Superblock) (D : Panic → Prop) (dp : Ino) (K : State → Prop) : Prop :=
  ∀ off k {s : State}, K s → wp D (readi sb dp off k) (fun _ s' => K s') s

theorem Reads.readDirent (R : Reads sb D dp K) {e : Panic} (he : D e) (off : Nat) (h : K s) :
    wp D (readDirent sb e dp off) (fun _ s' => K s') s := by
  unfold Fs.readDirent
  refine wp_seq (R off _ h) ?_
  rintro (_ | bytes) s1 h1
  · exact he
  · exact wp_ite.2 ⟨fun _ => h1, fun _ => he⟩

/-- The loop only stops at multiples of the size of an entry. -/
theorem Reads.lookupLoop (R : Reads sb D dp K) (he : D .dirlookupRead) (name : Name) (size turns : Nat) :
    ∀ {off : Nat} {s : State}, DIRENT ∣ off → K s →
    wp D (lookupLoop sb dp name size turns off)
      (fun r s' => K s' ∧ ∀ x, r = some x → DIRENT ∣ x.1) s := by
  induction turns with
  | zero => exact fun _ h => ⟨h, nofun⟩
  | succ turns ih =>
    intro off s hoff h
    unfold Fs.lookupLoop
    refine wp_ite.2 ⟨fun _ => ?_, fun _ => ⟨h, nofun⟩⟩
    refine wp_seq (R.readDirent he off h) fun de s1 h1 => ?_
    have hnext := ih (Nat.dvd_add hoff (Nat.dvd_refl DIRENT)) h1
    refine wp_ite.2 ⟨fun _ => hnext, fun _ => wp_ite.2 ⟨fun _ => ⟨h1, ?_⟩, fun _ => hnext⟩⟩
    rintro _ ⟨⟩
    exact hoff

theorem Reads.emptyLoop (R : Reads sb D dp K) (he : D .dirlinkRead) (size turns : Nat) :
    ∀ {off : Nat} {s : State}, DIRENT ∣ off → K s →
    wp D (emptyLoop sb dp size turns off) (fun r s' => K s' ∧ DIRENT ∣ r) s := by
  induction turns with
  | zero => exact fun hoff h => ⟨h, hoff⟩
  | succ turns ih =>
    intro off s hoff h
    unfold Fs.emptyLoop
    refine wp_ite.2 ⟨fun _ => ?_, fun _ => ⟨h, hoff⟩⟩
    refine wp_seq (R.readDirent he off h) fun de s1 h1 => ?_
    exact wp_ite.2 ⟨fun _ => ⟨h1, hoff⟩, fun _ => ih (Nat.dvd_add hoff (Nat.dvd_refl DIRENT)) h1⟩

theorem Reads.isdiremptyLoop (R : Reads sb D dp K) (he : D .isdirempty) (size turns : Nat) :
    ∀ {off : Nat} {s : State}, K s →
    wp D (isdiremptyLoop sb dp size turns off) (fun _ s' => K s') s := by
  induction turns with
  | zero => exact fun h => h
  | succ turns ih =>
    intro off s h
    unfold Fs.isdiremptyLoop
    refine wp_ite.2 ⟨fun _ => ?_, fun _ => h⟩
    refine wp_seq (R.readDirent he off h) fun de s1 h1 => ?_
    exact wp_ite.2 ⟨fun _ => ih h1, fun _ => h1⟩

theorem Reads.isdirfull (R : Reads sb D dp K) (he : D .isdirempty) (h : K s) :
    wp D (isdirfull sb dp) (fun _ s' => K s') s := by
  unfold Fs.isdirfull isdirempty
  simp only [wp_bind, wp_get]
  refine wp_ite.2 ⟨fun _ => ?_, fun _ => h⟩
  simp only [wp_bind, wp_get]
  exact wp_mono (R.isdiremptyLoop he _ _ h) fun _ _ h1 => h1

end Reading

/-! ## Walks along a path -/

/-- `J L X s` while `namex` walks: `X` are the references and `L` the locks that it holds. -/
structure PathRules (sb : Superblock) (D : Panic → Prop) (cwd : Ino)
    (J : Multiset Ino → Multiset Ino → State → Prop) : Prop where
  root : ∀ {L X s}, J L X s → wp D (iget ROOTDEV ROOTINO) (fun ip s' => J L (ip ::ₘ X) s') s
  cwd : ∀ {L X s}, J L X s → wp D (idup cwd) (fun ip s' => J L (ip ::ₘ X) s') s
  iput : ∀ {L X s ip}, J L (ip ::ₘ X) s → wp D (iput ip) (fun _ s' => J L X s') s
  ilock : ∀ {L X s ip}, ip ∈ X → J L X s → wp D (ilock ip) (fun _ s' => J (ip ::ₘ L) X s') s
  iunlock : ∀ {L X s ip}, J (ip ::ₘ L) X s → wp D (iunlock ip) (fun _ s' => J L X s') s
  dirlookup : ∀ {L X s dp} name, dp ∈ L → J L X s →
    wp D (dirlookup sb dp name) (fun r s' => J L (found r + X) s') s

namespace PathRules

variable {sb : Superblock} {D : Panic → Prop} {cwd : Ino}
  {J : Multiset Ino → Multiset Ino → State → Prop} {L X : Multiset Ino} {s : State} {ip : Ino}
  (R : PathRules sb D cwd J)

include R

theorem iunlockput (h : J (ip ::ₘ L) (ip ::ₘ X) s) :
    wp D (iunlockput ip) (fun _ s' => J L X s') s := by
  unfold Fs.iunlockput
  exact wp_seq (R.iunlock h) fun _ _ h1 => R.iput h1

theorem namexLoop (parent : Bool) (turns : Nat) : ∀ {path : Path}
    {name : Name} {ip : Ino} {s : State}, J L (ip ::ₘ X) s →
    wp D (namexLoop sb parent turns path name ip) (fun r s' => J L (found r + X) s') s := by
  induction turns with
  | zero => exact fun h => h
  | succ turns ih =>
    intro path name ip s h
    unfold Fs.namexLoop
    split
    · refine wp_ite.2 ⟨fun _ => ?_, fun _ => h⟩
      refine wp_seq (R.iput h) fun _ _ h1 => ?_
      simpa using h1
    · refine wp_seq (R.ilock (mem_cons_self ip X) h) fun _ s1 h1 => ?_
      simp only [wp_bind, wp_get]
      refine wp_ite.2 ⟨fun _ => ?_, fun _ => wp_ite.2 ⟨fun _ => ?_, fun _ => ?_⟩⟩
      · refine wp_seq (R.iunlockput h1) fun _ _ h2 => ?_
        simpa using h2
      · exact wp_seq (R.iunlock h1) fun _ _ h2 => h2
      · refine wp_seq (R.dirlookup _ (mem_cons_self ip L) h1) ?_
        rintro (_ | ⟨next, off⟩) s2 h2
        · simp only [found_none, zero_add, wp_bind] at h2 ⊢
          refine wp_mono (R.iunlockput h2) fun _ _ h3 => ?_
          simpa using h3
        · simp only [found_some, singleton_add, wp_bind] at h2 ⊢
          rw [cons_swap] at h2
          exact wp_mono (R.iunlockput h2) fun _ _ h3 => ih h3

theorem namex (path : Path) (parent : Bool) (h : J L X s) :
    wp D (namex sb cwd path parent) (fun r s' => J L (found r + X) s') s := by
  unfold Fs.namex
  refine wp_ite.2 ⟨fun _ => ?_, fun _ => ?_⟩
  · exact wp_seq (R.root h) fun ip _ h1 => R.namexLoop parent _ h1
  · exact wp_seq (R.cwd h) fun ip _ h1 => R.namexLoop parent _ h1

theorem namei (path : Path) (h : J L X s) :
    wp D (namei sb cwd path) (fun r s' => J L (target r + X) s') s := by
  unfold Fs.namei
  refine wp_seq (R.namex path false h) ?_
  rintro (_ | ⟨ip, name⟩) s1 h1
  · exact h1
  · exact h1

end PathRules

/-- `D` are the panics that may happen. -/
structure Rules (sb : Superblock) (D : Panic → Prop)
    (J : Multiset Ino → Nat → Multiset Ino → State → Prop) : Prop where
  other : ∀ e, e ≠ .freeingFreeBlock → e ≠ .ilockNoType → D e
  begin_op : ∀ {L n E s}, J L n E s → wp D begin_op (fun _ s' => J L (n + 1) E s') s
  end_op : ∀ {L n E s}, J L (n + 1) E s → wp D end_op (fun _ s' => J L n E s') s
  root : ∀ {L n E s}, J L n E s → wp D (iget ROOTDEV ROOTINO) (fun ip s' => J L n (ip ::ₘ E) s') s
  idup : ∀ {L n E s ip}, ip ∈ E → J L n E s →
    wp D (idup ip) (fun r s' => r = ip ∧ J L n (ip ::ₘ E) s') s
  iput : ∀ {L n E s ip}, J L n (ip ::ₘ E) s → wp D (iput ip) (fun _ s' => J L n E s') s
  ilock : ∀ {L n E s ip}, ip ∈ E → J L n E s → wp D (ilock ip) (fun _ s' => J (ip ::ₘ L) n E s') s
  iunlock : ∀ {L n E s ip}, J (ip ::ₘ L) n E s → wp D (iunlock ip) (fun _ s' => J L n E s') s
  readi : ∀ {L n E s ip} off k, ip ∈ L → J L n E s →
    wp D (readi sb ip off k) (fun _ s' => J L n E s') s
  writei : ∀ {L n E s ip} src off, ip ∈ L → J L n E s →
    wp D (writei sb ip src off) (fun _ s' => J L n E s') s
  dirlookup : ∀ {L n E s dp} name, dp ∈ L → J L n E s →
    wp D (dirlookup sb dp name) (fun r s' => J L n (found r + E) s') s
  addLink : ∀ {L n E s ip} d, ip ∈ L → J L n E s → wp D (addLink ip d) (fun _ s' => J L n E s') s
  fresh : ∀ {L n E s dp type}, type ≠ .free → dp ∈ L → J L n E s →
    wp D (do
      let ip ← ialloc sb (s.inode dp).dev type
      Fs.ilock ip
      pure ip) (fun ip s' => J (ip ::ₘ L) n (ip ::ₘ E) s') s
  fill : ∀ {L n E s ip} major minor, ip ∈ L → J L n E s →
    wp D (do
      modCopy ip fun c => { c with major := major, minor := minor, nlink := 1 }
      iupdate ip) (fun _ s' => J L n E s') s

namespace Rules

variable {sb : Superblock} {D : Panic → Prop} {J : Multiset Ino → Nat → Multiset Ino → State → Prop}
  {L E : Multiset Ino} {n : Nat} {s : State} {ip dp cwd : Ino}
  (R : Rules sb D J)

include R

theorem iunlockput (h : J (ip ::ₘ L) n (ip ::ₘ E) s) :
    wp D (iunlockput ip) (fun _ s' => J L n E s') s := by
  unfold Fs.iunlockput
  exact wp_seq (R.iunlock h) fun _ _ h1 => R.iput h1

theorem reads (hdp : dp ∈ L) : Reads sb D dp fun s => J L n E s :=
  fun off k _ h => R.readi off k hdp h

/-! ## Directories and paths -/

theorem dirlink (name : Name) (inum : Nat) (hdp : dp ∈ L) (h : J L n E s) :
    wp D (dirlink sb dp name inum) (fun _ s' => J L n E s') s := by
  unfold Fs.dirlink
  refine wp_seq (R.dirlookup name hdp h) ?_
  rintro (_ | ⟨ip, off⟩) s1 h1
  · simp only [found_none, zero_add, wp_bind, wp_get] at h1 ⊢
    refine wp_mono ((R.reads hdp).emptyLoop (R.other _ (by simp) (by simp)) _ _ (dvd_zero _) h1)
      fun off s2 h2 => ?_
    refine wp_mono (R.writei _ _ hdp h2.1) ?_
    rintro (_ | k) s3 h3
    · exact R.other _ (by simp) (by simp)
    · exact wp_ite.2 ⟨fun _ => h3, fun _ => R.other _ (by simp) (by simp)⟩
  · simp only [found_some, singleton_add, wp_bind] at h1 ⊢
    exact wp_mono (R.iput h1) fun _ _ h2 => h2

/-- A walk, next to the references that are held already. -/
theorem path (n : Nat) (hcwd : cwd ∈ E) :
    PathRules sb D cwd fun L X s => J L n (X + E) s where
  root h := wp_mono (R.root h) fun _ _ h1 => by rwa [cons_add]
  cwd h := wp_mono (R.idup (mem_add.2 (.inr hcwd)) h) fun _ _ h1 => by
    rw [cons_add, h1.1]
    exact h1.2
  iput h := R.iput (by rwa [← cons_add])
  ilock hip h := R.ilock (mem_add.2 (.inl hip)) h
  iunlock h := R.iunlock h
  dirlookup name hdp h := wp_mono (R.dirlookup name hdp h) fun _ _ h1 => by rwa [add_assoc]

theorem namex (path : Path) (parent : Bool) (hcwd : cwd ∈ E) (h : J L n E s) :
    wp D (namex sb cwd path parent) (fun r s' => J L n (found r + E) s') s := by
  have hwalk := (R.path n hcwd).namex (X := 0) path parent (by rwa [zero_add])
  simpa using hwalk

theorem namei (path : Path) (hcwd : cwd ∈ E) (h : J L n E s) :
    wp D (namei sb cwd path) (fun r s' => J L n (target r + E) s') s := by
  have hwalk := (R.path n hcwd).namei (X := 0) path (by rwa [zero_add])
  simpa using hwalk

/-! ## `link`, `unlink` and `create` -/

theorem unlinkBack (h : J L (n + 1) (ip ::ₘ E) s) :
    wp D (unlinkBack ip) (fun _ s' => J L n E s') s := by
  unfold Fs.unlinkBack
  refine wp_seq (R.ilock (mem_cons_self ip E) h) fun _ s1 h1 => ?_
  refine wp_seq (R.addLink _ (mem_cons_self ip L) h1) fun _ s2 h2 => ?_
  refine wp_seq (R.iunlockput h2) fun _ s3 h3 => ?_
  exact wp_seq (R.end_op h3) fun _ _ h4 => h4

theorem link (old new : Path) (hcwd : cwd ∈ E) (h : J L n E s) :
    wp D (link sb cwd old new) (fun _ s' => J L n E s') s := by
  unfold Fs.link
  refine wp_seq (R.begin_op h) fun _ s1 h1 => ?_
  refine wp_seq (R.namei old hcwd h1) ?_
  rintro (_ | ip) s2 h2
  · simp only [target_none, zero_add, wp_bind] at h2 ⊢
    exact wp_mono (R.end_op h2) fun _ _ h3 => h3
  simp only [target_some, singleton_add, wp_bind] at h2 ⊢
  refine wp_mono (R.ilock (mem_cons_self ip E) h2) fun _ s3 h3 => ?_
  rw [wp_get]
  refine wp_ite.2 ⟨fun _ => ?_, fun _ => ?_⟩
  · refine wp_seq (R.iunlockput h3) fun _ s4 h4 => ?_
    exact wp_seq (R.end_op h4) fun _ _ h5 => h5
  refine wp_seq (R.addLink _ (mem_cons_self ip L) h3) fun _ s4 h4 => ?_
  refine wp_seq (R.iunlock h4) fun _ s5 h5 => ?_
  refine wp_seq (R.namex new true (mem_cons_of_mem hcwd) h5) ?_
  rintro (_ | ⟨dp, name⟩) s6 h6
  · exact R.unlinkBack (by simpa using h6)
  simp only [found_some, singleton_add, wp_bind] at h6 ⊢
  refine wp_mono (R.ilock (mem_cons_self dp _) h6) fun _ s7 h7 => ?_
  rw [wp_get]
  refine wp_ite.2 ⟨fun _ => ?_, fun _ => ?_⟩
  · exact wp_seq (R.iunlockput h7) fun _ s8 h8 => R.unlinkBack h8
  refine wp_seq (R.dirlink name _ (mem_cons_self dp L) h7) fun ok s8 h8 => ?_
  refine wp_ite.2 ⟨fun _ => ?_, fun _ => ?_⟩
  · refine wp_seq (R.iunlockput h8) fun _ s9 h9 => ?_
    refine wp_seq (R.iput h9) fun _ s10 h10 => ?_
    exact wp_seq (R.end_op h10) fun _ _ h11 => h11
  · exact wp_seq (R.iunlockput h8) fun _ s9 h9 => R.unlinkBack h9

theorem unlinkBad (h : J (dp ::ₘ L) (n + 1) (dp ::ₘ E) s) :
    wp D (unlinkBad dp) (fun _ s' => J L n E s') s := by
  unfold Fs.unlinkBad
  refine wp_seq (R.iunlockput h) fun _ s1 h1 => ?_
  exact wp_seq (R.end_op h1) fun _ _ h2 => h2

theorem unlinkParent (hdp : dp ∈ L) (h : J L n E s) :
    wp D (unlinkParent dp ip) (fun _ s' => J L n E s') s := by
  unfold Fs.unlinkParent
  simp only [wp_bind, wp_get]
  exact wp_ite.2 ⟨fun _ => R.addLink _ hdp h, fun _ => h⟩

theorem unlinkEntry (off : Nat)
    (h : J (ip ::ₘ dp ::ₘ L) (n + 1) (ip ::ₘ dp ::ₘ E) s) :
    wp D (unlinkEntry sb dp ip off) (fun _ s' => J L n E s') s := by
  have hdp : dp ∈ ip ::ₘ dp ::ₘ L := mem_cons_of_mem (mem_cons_self dp L)
  unfold Fs.unlinkEntry
  refine wp_seq (R.writei _ _ hdp h) ?_
  rintro (_ | k) s1 h1
  · exact R.other _ (by simp) (by simp)
  refine wp_ite.2 ⟨fun _ => ?_, fun _ => R.other _ (by simp) (by simp)⟩
  refine wp_seq (R.unlinkParent hdp h1) fun _ s2 h2 => ?_
  rw [cons_swap ip dp L, cons_swap ip dp E] at h2
  refine wp_seq (R.iunlockput h2) fun _ s3 h3 => ?_
  refine wp_seq (R.addLink _ (mem_cons_self ip L) h3) fun _ s4 h4 => ?_
  refine wp_seq (R.iunlockput h4) fun _ s5 h5 => ?_
  exact wp_seq (R.end_op h5) fun _ _ h6 => h6

theorem unlink (path : Path) (hcwd : cwd ∈ E) (h : J L n E s) :
    wp D (unlink sb cwd path) (fun _ s' => J L n E s') s := by
  unfold Fs.unlink unlinkLocked
  refine wp_seq (R.begin_op h) fun _ s1 h1 => ?_
  refine wp_seq (R.namex path true hcwd h1) ?_
  rintro (_ | ⟨dp, name⟩) s2 h2
  · simp only [found_none, zero_add, wp_bind] at h2 ⊢
    exact wp_mono (R.end_op h2) fun _ _ h3 => h3
  simp only [found_some, singleton_add, wp_bind] at h2 ⊢
  refine wp_mono (R.ilock (mem_cons_self dp E) h2) fun _ s3 h3 => ?_
  refine wp_ite.2 ⟨fun _ => R.unlinkBad h3, fun _ => ?_⟩
  refine wp_seq (R.dirlookup name (mem_cons_self dp L) h3) ?_
  rintro (_ | ⟨ip, off⟩) s4 h4
  · exact R.unlinkBad (by simpa using h4)
  simp only [found_some, singleton_add, wp_bind] at h4 ⊢
  refine wp_mono (R.ilock (mem_cons_self ip _) h4) fun _ s5 h5 => ?_
  rw [wp_get]
  refine wp_ite.2 ⟨fun _ => R.other _ (by simp) (by simp), fun _ => ?_⟩
  refine wp_seq ((R.reads (mem_cons_self ip _)).isdirfull (R.other _ (by simp) (by simp)) h5)
    fun full s6 h6 => ?_
  refine wp_ite.2 ⟨fun _ => ?_, fun _ => R.unlinkEntry off h6⟩
  exact wp_seq (R.iunlockput h6) fun _ s7 h7 => R.unlinkBad h7

theorem createDir (type : FType) (hdp : dp ∈ L) (hip : ip ∈ L) (h : J L n E s) :
    wp D (createDir sb dp ip type) (fun _ s' => J L n E s') s := by
  unfold Fs.createDir createDots
  refine wp_ite.2 ⟨fun _ => ?_, fun _ => h⟩
  simp only [wp_bind, wp_get]
  refine wp_mono (R.addLink _ hdp h) fun _ s1 h1 => ?_
  refine wp_mono (R.dirlink dot _ hip h1) fun ok s2 h2 => ?_
  refine wp_ite.2 ⟨fun _ => ?_, fun _ => R.other _ (by simp) (by simp)⟩
  refine wp_seq (R.dirlink dotdot _ hip h2) fun ok s3 h3 => ?_
  exact wp_ite.2 ⟨fun _ => h3, fun _ => R.other _ (by simp) (by simp)⟩

theorem createNew (name : Name) {type : FType} (major minor : Int)
    (htype : type ≠ .free) (h : J (dp ::ₘ L) n (dp ::ₘ E) s) :
    wp D (createNew sb dp name type major minor) (fun ip s' => J (ip ::ₘ L) n (ip ::ₘ E) s') s := by
  unfold Fs.createNew
  simp only [wp_bind, wp_get]
  have hfresh := R.fresh htype (mem_cons_self dp L) h
  simp only [wp_bind, wp_pure] at hfresh
  refine wp_mono hfresh fun ip s1 h1 => wp_mono h1 fun _ s2 h2 => ?_
  have hip : ip ∈ ip ::ₘ dp ::ₘ L := mem_cons_self ip _
  have hdp : dp ∈ ip ::ₘ dp ::ₘ L := mem_cons_of_mem (mem_cons_self dp L)
  have hfill := R.fill major minor hip h2
  rw [wp_bind] at hfill
  refine wp_mono hfill fun _ s3 h3 => wp_mono h3 fun _ s4 h4 => ?_
  refine wp_mono (R.createDir type hdp hip h4) fun _ s5 h5 => ?_
  refine wp_mono (R.dirlink name _ hdp h5) fun ok s6 h6 => ?_
  refine wp_ite.2 ⟨fun _ => ?_, fun _ => R.other _ (by simp) (by simp)⟩
  rw [cons_swap ip dp L, cons_swap ip dp E] at h6
  exact wp_seq (R.iunlockput h6) fun _ _ h7 => h7

theorem create (path : Path) {type : FType} (major minor : Int)
    (htype : type ≠ .free) (hcwd : cwd ∈ E) (h : J L n E s) :
    wp D (create sb cwd path type major minor)
      (fun r s' => J (target r + L) n (target r + E) s') s := by
  unfold Fs.create
  refine wp_seq (R.namex path true hcwd h) ?_
  rintro (_ | ⟨dp, name⟩) s1 h1
  · simpa using h1
  simp only [found_some, singleton_add, wp_bind] at h1 ⊢
  refine wp_mono (R.ilock (mem_cons_self dp E) h1) fun _ s2 h2 => ?_
  refine wp_mono (R.dirlookup name (mem_cons_self dp L) h2) ?_
  rintro (_ | ⟨ip, off⟩) s3 h3
  · simp only [found_none, zero_add, wp_bind] at h3 ⊢
    exact wp_mono (R.createNew name major minor htype h3) fun ip s4 h4 => h4
  · simp only [found_some, singleton_add, wp_bind] at h3 ⊢
    rw [cons_swap] at h3
    refine wp_mono (R.iunlockput h3) fun _ s4 h4 => ?_
    refine wp_mono (R.ilock (mem_cons_self ip E) h4) fun _ s5 h5 => ?_
    rw [wp_get]
    refine wp_ite.2 ⟨fun _ => h5, fun _ => ?_⟩
    refine wp_seq (R.iunlockput h5) fun _ _ h6 => ?_
    simpa using h6

end Rules

end Laboratorio.Xv6.Fs
