import Laboratorio.Lib.Runs
import Laboratorio.Xv6.Fs.Dir

/-!
# Path resolution: `skipelem`, `namei` and `nameiparent`

`components` says what the elements of a path are, without a loop.  `namex` is then a fold over them:
each step locks a directory, looks one name up and unlocks it.

* `Resolves` — `namei` and `nameiparent` are equal, as programs, to folds over the components: in every
  state they have the same result and the same effects, or the same panic.
-/

namespace Laboratorio.Xv6.Fs

open Laboratorio.Lib List

variable {sb : Superblock} {cwd ip dp : Ino} {path rest : Path} {name : Name} {names : List Name}

/-! ## The elements of a path -/

/-- The parts between slashes that are not empty. -/
def pieces (path : Path) : List Path := (path.splitOn slash).filter (· ≠ [])

/-- The parts between slashes that are not empty, each cut to `DIRSIZ` bytes. -/
def components (path : Path) : List Name := (pieces path).map (·.take DIRSIZ)

@[simp] theorem pieces_nil : pieces [] = [] := rfl

@[simp] theorem pieces_slash (path : Path) : pieces (slash :: path) = pieces path := by
  simp [pieces, List.splitOn, splitOnP_cons_eq_if_modifyHead]

@[simp] theorem pieces_dropWhile (path : Path) : pieces (path.dropWhile (· = slash)) = pieces path := by
  induction path with
  | nil => rfl
  | cons c path ih =>
    by_cases hc : c = slash
    · simp [hc, ih]
    · simp [hc]

/-- What is dropped ends where it should. -/
theorem not_of_dropWhile {p : UInt8 → Bool} {l d : List UInt8} {c : UInt8} (h : l.dropWhile p = c :: d) :
    p c = false := by
  have hne : l.dropWhile p ≠ [] := by simp [h]
  simpa [h] using head_dropWhile_not p hne

theorem pieces_cons {c : UInt8} (hc : c ≠ slash) (path : Path) :
    pieces (c :: path) = (c :: path).takeWhile (· ≠ slash) ::
      pieces ((c :: path).dropWhile (· ≠ slash)) := by
  have hfirst : ∀ x ∈ (c :: path).takeWhile (· ≠ slash), (x == slash) = false := by
    intro x hx
    simpa using mem_takeWhile_imp hx
  have hne : (c :: path).takeWhile (· ≠ slash) ≠ [] := by simp [hc]
  have hsplit : (c :: path).takeWhile (· ≠ slash) ++ (c :: path).dropWhile (· ≠ slash) = c :: path :=
    takeWhile_append_dropWhile
  cases hd : (c :: path).dropWhile (· ≠ slash) with
  | nil =>
    rw [hd, append_nil] at hsplit
    rw [hsplit] at hfirst hne ⊢
    rw [pieces, List.splitOn, splitOnP_eq_singleton hfirst]
    simp
  | cons x d =>
    have hx : x = slash := by simpa using not_of_dropWhile hd
    subst hx
    rw [hd] at hsplit
    rw [pieces_slash]
    conv_lhs => rw [← hsplit]
    rw [pieces, List.splitOn, splitOnP_append_cons_of_forall_mem hfirst slash (by simp)]
    rw [filter_cons_of_pos (by simpa using hne), pieces, List.splitOn]

theorem skipelem_none : skipelem path = none ↔ components path = [] := by
  rw [components, ← pieces_dropWhile, skipelem]
  cases h : path.dropWhile (· = slash) with
  | nil => simp
  | cons c d =>
    have hc : c ≠ slash := by simpa using not_of_dropWhile h
    simp [pieces_cons hc]

/-- One call of `skipelem` takes the first component off. -/
theorem skipelem_some (h : skipelem path = some (name, rest)) :
    components path = name :: components rest ∧ rest.length < path.length ∧
      (rest = [] ↔ components rest = []) := by
  unfold skipelem at h
  have hlen : (path.dropWhile (· = slash)).length ≤ path.length :=
    (dropWhile_sublist _).length_le
  cases hd : path.dropWhile (· = slash) with
  | nil => simp [hd] at h
  | cons c d =>
    have hc : c ≠ slash := by simpa using not_of_dropWhile hd
    rw [hd] at h hlen
    obtain ⟨rfl, rfl⟩ := Prod.mk.inj (Option.some.inj h)
    refine ⟨?_, ?_, ?_⟩
    · rw [components, ← pieces_dropWhile, hd, pieces_cons hc, map_cons, components,
        pieces_dropWhile]
    · have htail : (c :: d).dropWhile (· ≠ slash) = d.dropWhile (· ≠ slash) := by simp [hc]
      have h1 := (dropWhile_sublist (l := (c :: d).dropWhile (· ≠ slash)) (· = slash)).length_le
      have h2 := (dropWhile_sublist (l := d) (· ≠ slash)).length_le
      rw [htail] at h1 ⊢
      simp only [length_cons] at hlen
      omega
    · generalize (c :: d).dropWhile (· ≠ slash) = l
      cases hl : l.dropWhile (· = slash) with
      | nil => simp [components]
      | cons x l' =>
        have hx : x ≠ slash := by simpa using not_of_dropWhile hl
        simp [components, pieces_cons hx]

/-- What calling `skipelem` yields until it returns 0. -/
inductive Yields : Path → List Name → Prop where
  | done {path : Path} : skipelem path = none → Yields path []
  | elem {path rest : Path} {name : Name} {names : List Name} :
    skipelem path = some (name, rest) → Yields rest names → Yields path (name :: names)

theorem yields_components (path : Path) : Yields path (components path) := by
  induction hn : path.length using Nat.strongRecOn generalizing path with
  | ind n ih =>
    cases h : skipelem path with
    | none =>
      rw [skipelem_none.1 h]
      exact .done h
    | some x =>
      obtain ⟨hcomp, hlt, -⟩ := skipelem_some h
      rw [hcomp]
      exact .elem h (ih _ (hn ▸ hlt) _ rfl)

/-! ## The walk -/

variable (sb)

/-- Where a path starts: the root, or the current directory. -/
def origin (cwd : Ino) (path : Path) : F Ino :=
  if path.head? = some slash then iget ROOTDEV ROOTINO else idup cwd

/-- `dirlookup` in a locked directory, which is then given back. -/
def lookupPut (dp : Ino) (name : Name) : F (Option Ino) := do
  match ← dirlookup sb dp name with
  | none => do
    iunlockput dp
    pure none
  | some (next, _) => do
    iunlockput dp
    pure (some next)

/-- One step down, from a directory. -/
def descend (ip : Ino) (name : Name) : F (Option Ino) := do
  ilock ip
  let s ← get
  if (s.inode ip).copy.type ≠ .T_DIR then do
    iunlockput ip
    pure none
  else lookupPut sb ip name

/-- `dirlookup` folded over names. -/
def walk : List Name → Ino → F (Option Ino)
  | [], ip => pure (some ip)
  | name :: names, ip => do
    match ← descend sb ip name with
    | none => pure none
    | some next => walk names next

/-- The check of `nameiparent` that what it has found is a directory. -/
def parentOf (ip : Ino) (name : Name) : F (Option (Ino × Name)) := do
  ilock ip
  let s ← get
  if (s.inode ip).copy.type ≠ .T_DIR then do
    iunlockput ip
    pure none
  else do
    iunlock ip
    pure (some (ip, name))

variable {sb}

theorem walk_append (names names' : List Name) : ∀ ip, walk sb (names ++ names') ip = (do
    match ← walk sb names ip with
    | none => pure none
    | some next => walk sb names' next) := by
  induction names with
  | nil => simp [walk]
  | cons name names ih =>
    intro ip
    simp only [cons_append, walk, bind_assoc]
    refine bind_congr fun r => ?_
    cases r with
    | none => simp
    | some next => exact ih next

theorem walk_singleton (name : Name) (ip : Ino) : walk sb [name] ip = descend sb ip name := by
  conv_rhs => rw [← bind_pure (descend sb ip name)]
  simp only [walk]
  refine bind_congr fun r => ?_
  cases r <;> rfl

/-- `namex` for `namei`.  A turn takes a byte off the path at least, so the turns are enough. -/
theorem namexLoop_eq (n : Nat) : ∀ {path : Path}, path.length < n → ∀ name ip, (do
    match ← namexLoop sb false n path name ip with
    | none => pure none
    | some (ip, _) => pure (some ip)) = walk sb (components path) ip := by
  induction n with
  | zero => exact fun h => absurd h (Nat.not_lt_zero _)
  | succ n ih =>
    intro path hn name ip
    unfold namexLoop
    cases h : skipelem path with
    | none => simp [skipelem_none.1 h, walk]
    | some x =>
      obtain ⟨hcomp, hlt, -⟩ := skipelem_some h
      rw [hcomp]
      simp only [walk, descend, lookupPut, bind_assoc, Bool.false_eq_true, false_and, if_false]
      refine bind_congr fun _ => bind_congr fun s => ?_
      split
      · simp
      · simp only [bind_assoc]
        refine bind_congr fun r => ?_
        cases r with
        | none => simp
        | some next =>
          simp only [bind_assoc, pure_bind]
          exact bind_congr fun _ => ih (by omega) _ _

/-- `namex` for `nameiparent`, for a path with a component. -/
theorem namexLoop_parent (n : Nat) : ∀ {path : Path}, path.length < n → ∀ names name,
    components path = names ++ [name] → ∀ name' ip, namexLoop sb true n path name' ip = (do
      match ← walk sb names ip with
      | none => pure none
      | some dp => parentOf dp name) := by
  induction n with
  | zero => exact fun h => absurd h (Nat.not_lt_zero _)
  | succ n ih =>
    intro path hn names last hlast name' ip
    unfold namexLoop
    cases h : skipelem path with
    | none =>
      rw [skipelem_none.1 h] at hlast
      simp at hlast
    | some x =>
      obtain ⟨name, rest⟩ := x
      obtain ⟨hcomp, hlt, hend⟩ := skipelem_some h
      rw [hcomp] at hlast
      cases names with
      | nil =>
        simp only [nil_append, List.cons.injEq] at hlast
        obtain ⟨rfl, hnil⟩ := hlast
        simp [walk, parentOf, hend.2 hnil]
      | cons first names =>
        simp only [cons_append, List.cons.injEq] at hlast
        obtain ⟨rfl, hrest⟩ := hlast
        have hne : rest ≠ [] := fun hnil => by simp [hend.1 hnil] at hrest
        simp only [walk, descend, lookupPut, bind_assoc, hne, and_false, if_false]
        refine bind_congr fun _ => bind_congr fun s => ?_
        split
        · simp
        · simp only [bind_assoc]
          refine bind_congr fun r => ?_
          cases r with
          | none => simp
          | some next =>
            simp only [bind_assoc, pure_bind]
            exact bind_congr fun _ => ih (by omega) _ _ hrest _ _

/-! ## `namei` and `nameiparent` -/

theorem bind_of_ok {α β : Type} {x : F α} {f : α → F β} {a : α} {s s' : State} (h : x s = .ok (a, s')) :
    (x >>= f) s = f a s' := by
  simp only [bind, StateT.bind, h, Except.bind]

theorem bind_of_error {α β : Type} {x : F α} {f : α → F β} {e : Panic} {s : State}
    (h : x s = .error e) : (x >>= f) s = .error e := by
  simp only [bind, StateT.bind, h, Except.bind]

/-- An inode that has been locked can be unlocked and locked again. -/
theorem relock {s s' : State} (h : ilock ip s = .ok ((), s')) :
    (do iunlock ip; ilock ip) s' = .ok ((), s') := by
  have hlocked : wp (fun _ => True) (ilock ip) (fun _ s' => (s'.inode ip).lock = true ∧
      ¬ (s'.inode ip).ref < 1 ∧ (s'.inode ip).valid = true) s := by
    rw [ilock_wp]
    repeat' split
    all_goals simp_all [State.setInode]
  obtain ⟨hlock, href, hvalid⟩ := hlocked.of_ok h
  have hsame : (⟨(s'.inode ip).dev, (s'.inode ip).inum, (s'.inode ip).ref, true, true,
      (s'.inode ip).copy⟩ : Inode) = s'.inode ip := by
    cases hi : s'.inode ip
    simp_all
  have hwp : wp (fun _ => False) (do iunlock ip; ilock ip) (fun _ s'' => s'' = s') s' := by
    rw [wp_bind, iunlock_wp, if_neg (by simp [hlock, href]), ilock_wp]
    simp [State.setInode, href, hvalid, hsame]
  cases hrun : (do iunlock ip; ilock ip) s' with
  | error e => exact (hwp.of_error hrun).elim
  | ok x =>
    obtain ⟨⟨⟩, s''⟩ := x
    rw [hwp.of_ok hrun]

/-- A step is the check of `nameiparent`, and then `dirlookup`. -/
theorem descend_eq (ip : Ino) (name : Name) : descend sb ip name = (do
    match ← parentOf ip name with
    | none => pure none
    | some (dp, name) => do
      ilock dp
      lookupPut sb dp name) := by
  funext s
  unfold descend parentOf
  simp only [bind_assoc]
  cases h : ilock ip s with
  | error e => rw [bind_of_error h, bind_of_error h]
  | ok x =>
    obtain ⟨⟨⟩, s'⟩ := x
    have hget : (get : F State) s' = .ok (s', s') := rfl
    rw [bind_of_ok h, bind_of_ok h, bind_of_ok hget, bind_of_ok hget]
    split
    · simp only [bind_assoc, pure_bind]
    · simp only [bind_assoc, pure_bind]
      rw [← bind_assoc, bind_of_ok (relock h)]

/-- What `namei` and `nameiparent` are for this path, in terms of its components. -/
structure Resolves (sb : Superblock) (cwd : Ino) (path : Path) : Prop where
  yields : Yields path (components path)
  namei : namei sb cwd path = (do
    let ip ← origin cwd path
    walk sb (components path) ip)
  /-- Without a component there is no parent. -/
  none : components path = [] → nameiparent sb cwd path = (do
    let ip ← origin cwd path
    iput ip
    pure none)
  parent : ∀ names name, components path = names ++ [name] → nameiparent sb cwd path = (do
    let ip ← origin cwd path
    match ← walk sb names ip with
    | .none => pure .none
    | some dp => parentOf dp name)
  /-- The two lookups agree. -/
  agree : components path ≠ [] → Fs.namei sb cwd path = (do
    match ← nameiparent sb cwd path with
    | .none => pure .none
    | some (dp, name) => do
      ilock dp
      lookupPut sb dp name)

theorem namex_eq (cwd : Ino) (path : Path) (parent : Bool) : namex sb cwd path parent = (do
    let ip ← origin cwd path
    namexLoop sb parent (path.length + 1) path [] ip) := by
  unfold namex origin
  split <;> rfl

theorem namei_eq (cwd : Ino) (path : Path) : namei sb cwd path = (do
    let ip ← origin cwd path
    walk sb (components path) ip) := by
  unfold namei
  rw [namex_eq]
  simp only [bind_assoc]
  exact bind_congr fun ip => namexLoop_eq _ (Nat.lt_succ_self _) _ _

theorem nameiparent_eq (names : List Name) (name : Name) (h : components path = names ++ [name]) :
    nameiparent sb cwd path = (do
      let ip ← origin cwd path
      match ← walk sb names ip with
      | none => pure none
      | some dp => parentOf dp name) := by
  unfold nameiparent
  rw [namex_eq]
  exact bind_congr fun ip => namexLoop_parent _ (Nat.lt_succ_self _) _ _ h _ _

theorem path_resolves (sb : Superblock) (cwd : Ino) (path : Path) : Resolves sb cwd path where
  yields := yields_components path
  namei := namei_eq cwd path
  none h := by
    unfold nameiparent
    rw [namex_eq]
    refine bind_congr fun ip => ?_
    unfold namexLoop
    simp [skipelem_none.2 h]
  parent := nameiparent_eq
  agree h := by
    obtain ⟨names, name, hsplit⟩ : ∃ names name, components path = names ++ [name] :=
      ⟨_, _, (dropLast_append_getLast h).symm⟩
    rw [namei_eq, nameiparent_eq names name hsplit, hsplit]
    simp only [bind_assoc, walk_append]
    refine bind_congr fun ip => bind_congr fun r => ?_
    cases r with
    | none => simp
    | some dp =>
      simp only [walk_singleton]
      exact descend_eq dp name

/-- A disk with the file `/a`. -/
def withFile : F Unit := do
  match ← create .mkfs 0 [slash, 97] .T_FILE 0 0 with
  | none => pure ()
  | some ip => iunlockput ip

/-- For `/a/x` the walk over all but the last component finds the file `/a`, but `nameiparent` fails. -/
theorem nameiparent_of_file : ∃ s s₁ s₂ ip, withFile .mkfs = .ok ((), s) ∧
    components [slash, 97, slash, 120] = [[97], [120]] ∧
    (do let ip ← origin 0 [slash, 97, slash, 120]; walk .mkfs [[97]] ip) s = .ok (some ip, s₁) ∧
    nameiparent .mkfs 0 [slash, 97, slash, 120] s = .ok (none, s₂) := by
  obtain ⟨s, hs, ⟨_ | ip, s₁⟩, h₁, hsome, ⟨_ | _, s₂⟩, h₂, hnone⟩ : ∃ s, withFile .mkfs = .ok ((), s) ∧
      ∃ p, (do let ip ← origin 0 [slash, 97, slash, 120]; walk .mkfs [[97]] ip) s = .ok p ∧
        p.1.isSome ∧
        ∃ q, nameiparent .mkfs 0 [slash, 97, slash, 120] s = .ok q ∧ q.1.isNone := by decide +kernel
  · cases hsome
  · cases hsome
  · exact ⟨s, s₁, s₂, ip, hs, rfl, h₁, h₂⟩
  · cases hnone

end Laboratorio.Xv6.Fs
