import Mathlib.Algebra.Group.Int.Defs
import Mathlib.Algebra.Group.Nat.Defs
import Mathlib.Data.List.Infix
import Mathlib.Tactic.Common

/-!
# A POSIX file tree

`Fs` is a finite tree of files, directories and symbolic links, addressed by absolute component
lists. The fields carry what every kernel keeps: the root is a directory, an entry's parent is a
directory, and a file fits the offset type.

* `walk`: pathname resolution. A link is replaced by its target's components, at most `maxLinks`
  times; the result is the real location of an existing object.
* `locate`: the entry a path names, its parents resolved and the entry itself left alone. The
  entry need not exist.
* The system calls (`mkdir`, `openFile`, `writeFile`, ...) run in `HostM`: an error leaves the
  changes made before it. Permissions, quotas and concurrent changes inside one call are not
  modelled.
-/

namespace Posix

abbrev Name := List UInt8

/-- An absolute path as its components. -/
abbrev Path := List Name

/-- The error kinds the calls below report (`std::io::ErrorKind`). -/
inductive ErrorKind where
  | notFound
  | alreadyExists
  | isADirectory
  | notADirectory
  | directoryNotEmpty
  | invalidInput
  | filesystemLoop
  | fileTooLarge
  | resourceBusy
  deriving DecidableEq, Repr

/-- Permission bits and modification time (seconds) of an entry. -/
structure Info where
  mode : Nat
  mtime : Nat
  deriving DecidableEq, Repr

inductive Node where
  | file (info : Info) (content : List UInt8)
  /-- `len` is the length the host reports for the directory itself. -/
  | dir (info : Info) (len : Nat)
  | symlink (info : Info) (target : List UInt8)
  deriving DecidableEq, Repr

namespace Node

def isDir : Node → Bool
  | .dir .. => true
  | _ => false

def isFile : Node → Bool
  | .file .. => true
  | _ => false

def isSymlink : Node → Bool
  | .symlink .. => true
  | _ => false

def info : Node → Info
  | .file i _ | .dir i _ | .symlink i _ => i

/-- `metadata().len()`. -/
def len : Node → Nat
  | .file _ c => c.length
  | .dir _ n => n
  | .symlink _ t => t.length

/-- A directory whose entries changed at `now`. -/
def touch (now : Nat) : Node → Node
  | .dir i n => .dir { i with mtime := now } n
  | nd => nd

@[simp] theorem isDir_touch (now : Nat) (nd : Node) : (nd.touch now).isDir = nd.isDir := by
  cases nd <;> rfl

@[simp] theorem isSymlink_touch (now : Nat) (nd : Node) :
    (nd.touch now).isSymlink = nd.isSymlink := by
  cases nd <;> rfl

end Node

/-- The largest file (`i64::MAX` bytes). -/
def maxFileSize : Nat := 2 ^ 63 - 1

/-- The node's bytes fit the offset type. -/
def Node.fits : Node → Bool
  | .file _ c => decide (c.length ≤ maxFileSize)
  | _ => true

/-- What the host gives new entries, and its clock. -/
structure Env where
  now : Nat
  fileMode : Nat
  dirMode : Nat
  dirLen : Nat
  deriving DecidableEq, Repr

/-- A file tree. -/
structure Fs where
  node : Path → Option Node
  /-- The tree is finite: every entry is listed here. -/
  support : List Path
  env : Env
  supported : ∀ p, (node p).isSome → p ∈ support
  rootDir : (node []).any Node.isDir = true
  closed : ∀ p n, (node (p ++ [n])).isSome → (node p).any Node.isDir = true
  sized : ∀ p nd, node p = some nd → nd.fits = true

namespace Fs

/-- A tree with nothing but the root directory. -/
def empty (env : Env) : Fs where
  node p := if p = [] then some (.dir ⟨env.dirMode, env.now⟩ env.dirLen) else none
  support := [[]]
  env := env
  supported := by intro p hp; by_cases h : p = [] <;> simp_all
  rootDir := rfl
  closed := by intro p n hp; simp at hp
  sized := by
    intro p nd h
    split at h
    · cases h; rfl
    · cases h

def isDir (fs : Fs) (p : Path) : Bool := (fs.node p).any Node.isDir

theorem isDir_iff {fs : Fs} {p : Path} : fs.isDir p = true ↔ ∃ i n, fs.node p = some (.dir i n) := by
  unfold isDir
  cases h : fs.node p with
  | none => simp
  | some nd => cases nd <;> simp [Node.isDir]

/-- Every proper prefix of an entry is a directory. -/
theorem isDir_of_append {fs : Fs} {p q : Path} (h : (fs.node (p ++ q)).isSome) (hq : q ≠ []) :
    fs.isDir p = true := by
  induction q using List.reverseRecOn with
  | nil => exact absurd rfl hq
  | append_singleton q n ih =>
    rw [← List.append_assoc] at h
    have hd := fs.closed _ _ h
    by_cases h0 : q = []
    · subst h0; simpa [isDir] using hd
    · exact ih (by cases hn : fs.node (p ++ q) <;> simp_all) h0

theorem node_none_append {fs : Fs} {p q : Path} (h : fs.node p = none) : fs.node (p ++ q) = none := by
  by_cases hq : q = []
  · simpa [hq] using h
  · cases hn : fs.node (p ++ q) with
    | none => rfl
    | some nd =>
      have : fs.isDir p = true := isDir_of_append (by rw [hn]; rfl) hq
      simp [isDir, h] at this

/-! ## Pathname resolution -/

/-- One component of a link target: `.` (or an empty one, which asks for a directory too), `..`,
or a name. -/
inductive Comp where
  | cur
  | up
  | name (n : Name)
  deriving DecidableEq, Repr

/-- The components of a link target. -/
def targetComps (t : List UInt8) : List Comp :=
  (t.splitOn 47).map fun c =>
    if c = [] ∨ c = [46] then .cur else if c = [46, 46] then .up else .name c

/-- Follow `comps` from the real location `cur`; `onLink` continues at a link in `cur`. -/
def walkWith (fs : Fs) (onLink : Path → List UInt8 → List Comp → Except ErrorKind Path) :
    Path → List Comp → Except ErrorKind Path
  | cur, [] => .ok cur
  | cur, .cur :: rest =>
    if fs.isDir cur then walkWith fs onLink cur rest else .error .notADirectory
  | cur, .up :: rest =>
    if fs.isDir cur then walkWith fs onLink cur.dropLast rest else .error .notADirectory
  | cur, .name n :: rest =>
    if fs.isDir cur then
      match fs.node (cur ++ [n]) with
      | none => .error .notFound
      | some (.symlink _ t) => onLink cur t rest
      | some _ => walkWith fs onLink (cur ++ [n]) rest
    else .error .notADirectory

/-- Resolution that may follow `k` more links. An empty target does not resolve. -/
def walk (fs : Fs) : Nat → Path → List Comp → Except ErrorKind Path
  | 0 => walkWith fs fun _ _ _ => .error .filesystemLoop
  | k + 1 => walkWith fs fun cur t rest =>
    if t = [] then .error .notFound
    else walk fs k (if t.head? = some 47 then [] else cur) (targetComps t ++ rest)

/-- The kernel's limit on links followed in one resolution. -/
def maxLinks : Nat := 40

/-- The real location of an existing object (`realpath`). -/
def canonicalize (fs : Fs) (p : Path) : Except ErrorKind Path :=
  walk fs maxLinks [] (p.map .name)

/-- The entry `p` names: its parents resolved, the entry itself not followed. -/
def locate (fs : Fs) (p : Path) : Except ErrorKind Path :=
  match p.getLast? with
  | none => .ok []
  | some n =>
    match fs.canonicalize p.dropLast with
    | .error e => .error e
    | .ok d => if fs.isDir d then .ok (d ++ [n]) else .error .notADirectory

/-- `symlink_metadata`. -/
def lstat (fs : Fs) (p : Path) : Except ErrorKind Node :=
  match fs.locate p with
  | .error e => .error e
  | .ok l =>
    match fs.node l with
    | none => .error .notFound
    | some nd => .ok nd

/-- `Path::is_dir`: the object exists, links followed, and is a directory. -/
def isDirPath (fs : Fs) (p : Path) : Bool :=
  match fs.canonicalize p with
  | .ok l => fs.isDir l
  | .error _ => false

/-! ## Changing one entry -/

/-- Replace the node of `p`, keeping files small and directories directories. -/
def setNode (fs : Fs) (p : Path) (nd : Node) : Fs :=
  if h : (fs.node p).map Node.isDir = some nd.isDir ∧
      nd.fits = true then
    { fs with
      node := fun q => if q = p then some nd else fs.node q
      supported := by
        intro q hq
        by_cases e : q = p
        · subst e
          apply fs.supported
          cases hn : fs.node q with
          | none => simp [hn] at h
          | some _ => rfl
        · exact fs.supported q (by simpa [e] using hq)
      rootDir := by
        by_cases e : ([] : Path) = p
        · have := fs.rootDir
          rw [e] at this
          simp only [e, ↓reduceIte, Option.any_some]
          cases hn : fs.node p with
          | none => simp [hn] at this
          | some m => simp only [hn, Option.map_some, Option.some.injEq] at h; rw [← h.1]
                      simpa [hn] using this
        · simpa [e] using fs.rootDir
      closed := by
        intro q n hq
        have hd : fs.isDir q = true := by
          apply fs.closed q n
          by_cases e : q ++ [n] = p
          · rw [e]; cases hn : fs.node p with
            | none => simp [hn] at h
            | some _ => rfl
          · simpa [e] using hq
        by_cases e : q = p
        · subst e
          simp only [↓reduceIte, Option.any_some]
          cases hn : fs.node q with
          | none => simp [hn] at h
          | some m => simp only [hn, Option.map_some, Option.some.injEq] at h; rw [← h.1]
                      simpa [isDir, hn] using hd
        · simpa [e, isDir] using hd
      sized := by
        intro q m hq
        by_cases e : q = p
        · simp only [e, ↓reduceIte, Option.some.injEq] at hq; exact hq ▸ h.2
        · exact fs.sized q m (by simpa [e] using hq) }
  else fs

/-- The entries of directory `d` changed. -/
def touch (fs : Fs) (d : Path) : Fs :=
  match fs.node d with
  | some nd => fs.setNode d (nd.touch fs.env.now)
  | none => fs

/-- Add the entry `l` to its directory, where there is none. -/
def addEntry (fs : Fs) (l : Path) (nd : Node) : Fs :=
  if h : l ≠ [] ∧ fs.isDir l.dropLast = true ∧ fs.node l = none ∧ nd.fits = true then
    Fs.touch
      { fs with
        node := fun q => if q = l then some nd else fs.node q
        support := l :: fs.support
        supported := by
          intro q hq
          by_cases e : q = l
          · simp [e]
          · exact List.mem_cons_of_mem _ (fs.supported q (by simpa [e] using hq))
        rootDir := by
          have := h.1.symm
          simpa [this] using fs.rootDir
        closed := by
          intro q m hq
          have hd : fs.isDir q = true := by
            by_cases e : q ++ [m] = l
            · have := h.2.1; rwa [← e, List.dropLast_concat] at this
            · exact fs.closed q m (by simpa [e] using hq)
          have hne : q ≠ l := by
            rintro rfl; simp [isDir, h.2.2.1] at hd
          simpa [hne, isDir] using hd
        sized := by
          intro q m hq
          by_cases e : q = l
          · simp only [e, ↓reduceIte, Option.some.injEq] at hq; exact hq ▸ h.2.2.2
          · exact fs.sized q m (by simpa [e] using hq) }
      l.dropLast
  else fs

/-- The directory `d` has no entry. -/
def isEmptyDir (fs : Fs) (d : Path) : Bool :=
  fs.support.all fun q => !(q.dropLast == d && q != [] && (fs.node q).isSome)

theorem isEmptyDir_iff {fs : Fs} {d : Path} :
    fs.isEmptyDir d = true ↔ ∀ n, fs.node (d ++ [n]) = none := by
  unfold isEmptyDir
  rw [List.all_eq_true]
  constructor
  · intro h n
    cases hn : fs.node (d ++ [n]) with
    | none => rfl
    | some nd =>
      have := h _ (fs.supported (d ++ [n]) (by simp [hn]))
      simp [hn] at this
  · intro h q _
    rcases List.eq_nil_or_concat q with rfl | ⟨q, m, rfl⟩
    · simp
    · rw [List.concat_eq_append]
      by_cases e : q = d
      · simp [e, h m]
      · simp [e]

/-- Remove the entry `l`, a directory only when it is empty. -/
def removeEntry (fs : Fs) (l : Path) : Fs :=
  if h : l ≠ [] ∧ (fs.isDir l = false ∨ fs.isEmptyDir l = true) then
    Fs.touch
      { fs with
        node := fun q => if q = l then none else fs.node q
        supported := by
          intro q hq
          by_cases e : q = l
          · simp [e] at hq
          · exact fs.supported q (by simpa [e] using hq)
        rootDir := by
          have := h.1.symm
          simpa [this] using fs.rootDir
        closed := by
          intro q m hq
          by_cases e : q ++ [m] = l
          · simp [e] at hq
          · have hs : (fs.node (q ++ [m])).isSome = true := by simpa [e] using hq
            have hd := fs.closed q m hs
            have hne : q ≠ l := by
              rintro rfl
              rcases h.2 with h | h
              · rw [isDir, hd] at h; cases h
              · rw [isEmptyDir_iff.mp h m] at hs; cases hs
            simpa [hne] using hd
        sized := by
          intro q m hq
          by_cases e : q = l
          · simp [e] at hq
          · exact fs.sized q m (by simpa [e] using hq) }
      l.dropLast
  else fs

/-- Where an entry at or below `dst` came from. -/
def moved (fs : Fs) (src dst q : Path) : Option Node :=
  if dst.isPrefixOf q then fs.node (src ++ q.drop dst.length)
  else if src.isPrefixOf q then none
  else fs.node q

/-- Move the subtree at `src` to `dst`, in place of what was there. -/
def moveEntry (fs : Fs) (src dst : Path) : Fs :=
  if h : src ≠ [] ∧ dst ≠ [] ∧ src.isPrefixOf dst = false ∧ fs.isDir dst.dropLast = true then
    Fs.touch (Fs.touch
      { fs with
        node := fs.moved src dst
        support := fs.support ++ fs.support.map fun q => dst ++ q.drop src.length
        supported := by
          intro q hq
          unfold moved at hq
          rw [List.mem_append]
          split at hq
          · rename_i hd
            obtain ⟨r, rfl⟩ := List.isPrefixOf_iff_prefix.mp hd
            rw [List.drop_left] at hq
            exact .inr (List.mem_map.mpr ⟨_, fs.supported _ hq, by simp⟩)
          · split at hq
            · cases hq
            · exact .inl (fs.supported q hq)
        rootDir := by
          have h1 : dst.isPrefixOf ([] : Path) = false := by
            rcases dst with _ | _
            · exact absurd rfl h.2.1
            · rfl
          have h2 : src.isPrefixOf ([] : Path) = false := by
            rcases src with _ | _
            · exact absurd rfl h.1
            · rfl
          simpa [moved, h1, h2] using fs.rootDir
        closed := by
          intro q n hq
          unfold moved at hq ⊢
          obtain ⟨hs0, hd0, hsd, hdir⟩ := h
          by_cases h1 : dst.isPrefixOf q = true
          · -- `q` lies in the moved subtree, and so does its entry.
            obtain ⟨r, rfl⟩ := List.isPrefixOf_iff_prefix.mp h1
            rw [if_pos (List.isPrefixOf_iff_prefix.mpr ⟨r ++ [n], by simp⟩), List.append_assoc,
              List.drop_left, ← List.append_assoc] at hq
            rw [if_pos h1, List.drop_left]
            exact fs.closed _ _ hq
          · rw [if_neg h1]
            by_cases h2 : dst = q ++ [n]
            · -- The entry is `dst` itself: its directory stays where it is.
              subst h2
              rw [List.dropLast_concat] at hdir
              have h3 : src.isPrefixOf q = false := by
                rw [Bool.eq_false_iff] at hsd ⊢
                intro hp
                obtain ⟨r, rfl⟩ := List.isPrefixOf_iff_prefix.mp hp
                exact hsd (List.isPrefixOf_iff_prefix.mpr ⟨r ++ [n], by simp⟩)
              rw [if_neg (by simp [h3])]
              exact hdir
            · have h4 : dst.isPrefixOf (q ++ [n]) = false := by
                rw [Bool.eq_false_iff]
                intro hp
                rcases List.prefix_concat_iff.mp (List.isPrefixOf_iff_prefix.mp hp) with e | e
                · exact h2 e
                · exact h1 (List.isPrefixOf_iff_prefix.mpr e)
              rw [if_neg (by simp [h4])] at hq
              by_cases h5 : src.isPrefixOf q = true
              · obtain ⟨r, rfl⟩ := List.isPrefixOf_iff_prefix.mp h5
                rw [if_pos (List.isPrefixOf_iff_prefix.mpr ⟨r ++ [n], by simp⟩)] at hq
                cases hq
              · rw [if_neg h5]
                split at hq
                · cases hq
                · exact fs.closed _ _ hq
        sized := by
          intro q m hq
          unfold moved at hq
          split at hq
          · exact fs.sized _ _ hq
          · split at hq
            · cases hq
            · exact fs.sized _ _ hq }
      src.dropLast) dst.dropLast
  else fs

end Fs
end Posix
