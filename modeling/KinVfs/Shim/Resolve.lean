import KinVfs.Lib.Loop
import KinVfs.Core.PathMap
import KinVfs.Core.Provider
import KinVfs.Shim.StatCache

/-!
# Path resolution in the shim (`crates/kin-vfs-shim/src/intercept.rs`)

`followSymlinkedPath` walks a key one component at a time and follows the graph's own symlinks;
`resolveGraphPath` asks about the whole path first and walks only when a link is in play. Both ask a
`GraphOracle`, whose answers may change from call to call. `Asked.queries` and `Asked.redirects` are
history, read by no step: what was asked, and the keys the targets of followed links map to.

`roots` is the configuration `workspace_graph_key` reads: the workspace root and its aliases.
-/

namespace KinVfs

open Fallible

inductive GraphPathError where
  | authority
  | missingFinal
  /-- A component before the last one has no entry in the graph. -/
  | missingPrefix
  | invalidSymlink
  | symlinkLoop
  | outsideWorkspace
  | notDirectory
  deriving DecidableEq, Repr

/-- One turn of the loop in `normalize_graph_path`. -/
def foldComponent (components : List Bytes) (component : Bytes) : Option (List Bytes) :=
  if component = [] ∨ component = [dot] then some components
  else if component = [dot, dot] then
    if components = [] then none else some components.dropLast
  else some (components ++ [component])

/-- `.` and `..` folded lexically; `none` when the path is relative or `..` leaves the root. -/
def normalizeGraphPath (path : Bytes) : Option Bytes :=
  if path.head? ≠ some slash then none
  else do
    let components ← (path.splitOn slash).foldlM foldComponent []
    let normalized := components.flatMap (slash :: ·)
    return if normalized = [] then [slash] else normalized

/-- An answer about one path. -/
inductive StatProbe where
  | present (stat : VirtualStat) (generation : Nat)
  /-- The graph was reached and holds no entry here. -/
  | absent (generation : Nat)
  | unavailable

/-- The two questions resolution asks of graph truth. -/
structure GraphOracle (σ : Type) where
  stat : Bytes → σ → StatProbe × σ
  readLink : Bytes → σ → Option Bytes × σ

inductive Query where
  | stat (path : Bytes)
  | readLink (path : Bytes)
  deriving DecidableEq

namespace Query

def path : Query → Bytes
  | .stat p | .readLink p => p

def isReadLink : Query → Bool
  | .stat _ => false
  | .readLink _ => true

end Query

/-- The oracle and what has been asked of it. -/
structure Asked (σ : Type) where
  oracle : σ
  queries : List Query
  redirects : List VfsPath

def Asked.init {σ : Type} (s : σ) : Asked σ := ⟨s, [], []⟩

abbrev AskM (σ : Type) := Fallible GraphPathError (Asked σ)

section Walk

variable {σ : Type} (oracle : GraphOracle σ) (roots : List Bytes) (root : Bytes)

/-- The state after a stat of `path`. -/
def Asked.stat (path : Bytes) (s : Asked σ) : Asked σ :=
  { s with oracle := (oracle.stat path s.oracle).2, queries := s.queries ++ [Query.stat path] }

/-- The state after a read of the link `path`. -/
def Asked.readLink (path : Bytes) (s : Asked σ) : Asked σ :=
  { s with oracle := (oracle.readLink path s.oracle).2, queries := s.queries ++ [Query.readLink path] }

/-- The state after a target mapped to `key`. -/
def Asked.redirect (key : VfsPath) (s : Asked σ) : Asked σ :=
  { s with redirects := s.redirects ++ [key] }

def askStat (path : Bytes) : AskM σ StatProbe := do
  let s ← get
  set (s.stat oracle path)
  return (oracle.stat path s.oracle).1

def askLink (path : Bytes) : AskM σ (Option Bytes) := do
  let s ← get
  set (s.readLink oracle path)
  return (oracle.readLink path s.oracle).1

/-- The variables of the walk. -/
structure Walk where
  pending : List Bytes
  current : Bytes
  followed : Nat

/-- The key that the target of a link in `current` maps to. -/
def targetKey (current target : Bytes) : Except GraphPathError VfsPath :=
  if target.contains 0 ∨ target = [] then .error .invalidSymlink
  else
    match normalizeGraphPath (joinAtPath current target) with
    | none => .error .invalidSymlink
    | some normalized =>
      (workspaceGraphKeyFromRoots normalized roots).mapError fun _ => .outsideWorkspace

/-- The answer about the workspace root. -/
def askRoot : AskM σ (Bytes × VirtualStat) := do
  match ← askStat oracle root with
  | .present stat _ => return (root, stat)
  | _ => throw .authority

/-- Follow the link at `candidate`, with `pending` left after it. -/
def followLink (current candidate : Bytes) (pending : List Bytes) (followed : Nat) :
    AskM σ (Turn Walk (Bytes × VirtualStat)) :=
  if followed + 1 > 40 then throw .symlinkLoop
  else do
    let some target ← askLink oracle candidate | throw .authority
    match targetKey roots current target with
    | .error e => throw e
    | .ok key =>
      modify (Asked.redirect key)
      if key.components ++ pending = [] then return .stop (← askRoot oracle root)
      else return .again ⟨key.components ++ pending, root, followed + 1⟩

/-- One turn of the loop. -/
def followTurn (w : Walk) : AskM σ (Turn Walk (Bytes × VirtualStat)) :=
  match w.pending with
  | [] => throw .authority
  | component :: pending => do
    let candidate := joinAtPath w.current component
    match ← askStat oracle candidate with
    | .absent _ => throw (if pending = [] then .missingFinal else .missingPrefix)
    | .unavailable => throw .authority
    | .present stat _ =>
      if stat.isSymlink then followLink oracle roots root w.current candidate pending w.followed
      else if pending ≠ [] ∧ stat.isDir = false then throw .notDirectory
      else if pending = [] then return .stop (candidate, stat)
      else return .again ⟨pending, candidate, w.followed⟩

/-- What a turn makes smaller: the links left, and between two links the components left. -/
def Walk.measure (w : Walk) : Nat × Nat := (41 - w.followed, w.pending.length)

variable {oracle roots root}

@[simp] theorem exec_askStat (path : Bytes) (s : Asked σ) :
    exec (askStat oracle path) s = (.ok (oracle.stat path s.oracle).1, s.stat oracle path) := rfl

@[simp] theorem exec_askLink (path : Bytes) (s : Asked σ) :
    exec (askLink oracle path) s = (.ok (oracle.readLink path s.oracle).1, s.readLink oracle path) :=
  rfl

theorem exec_askRoot (s : Asked σ) :
    exec (askRoot oracle root) s =
      match (oracle.stat root s.oracle).1 with
      | .present stat _ => (.ok (root, stat), s.stat oracle root)
      | _ => (.error .authority, s.stat oracle root) := by
  unfold askRoot
  rw [exec_bind, exec_askStat]
  dsimp only
  cases (oracle.stat root s.oracle).1 <;> rfl

theorem exec_followLink (current candidate : Bytes) (pending : List Bytes) (followed : Nat)
    (s : Asked σ) :
    exec (followLink oracle roots root current candidate pending followed) s =
      if followed + 1 > 40 then (.error .symlinkLoop, s)
      else
        match (oracle.readLink candidate s.oracle).1 with
        | none => (.error .authority, s.readLink oracle candidate)
        | some target =>
          match targetKey roots current target with
          | .error e => (.error e, s.readLink oracle candidate)
          | .ok key =>
            if key.components ++ pending = [] then
              match (oracle.stat root ((s.readLink oracle candidate).redirect key).oracle).1 with
              | .present stat _ => (.ok (.stop (root, stat)),
                  ((s.readLink oracle candidate).redirect key).stat oracle root)
              | _ => (.error .authority,
                  ((s.readLink oracle candidate).redirect key).stat oracle root)
            else (.ok (.again ⟨key.components ++ pending, root, followed + 1⟩),
              (s.readLink oracle candidate).redirect key) := by
  unfold followLink
  split
  · rfl
  · rw [exec_bind, exec_askLink]
    dsimp only
    cases (oracle.readLink candidate s.oracle).1 with
    | none => rfl
    | some target =>
      dsimp only
      cases targetKey roots current target with
      | error e => rfl
      | ok key =>
        dsimp only
        rw [exec_bind, exec_modify]
        dsimp only
        split
        · rw [exec_bind, exec_askRoot]
          cases (oracle.stat root ((s.readLink oracle candidate).redirect key).oracle).1 <;> rfl
        · rfl

theorem exec_followTurn_nil (current : Bytes) (followed : Nat) (s : Asked σ) :
    exec (followTurn oracle roots root ⟨[], current, followed⟩) s = (.error .authority, s) := rfl

theorem exec_followTurn_cons (component : Bytes) (pending : List Bytes) (current : Bytes)
    (followed : Nat) (s : Asked σ) :
    exec (followTurn oracle roots root ⟨component :: pending, current, followed⟩) s =
      match (oracle.stat (joinAtPath current component) s.oracle).1 with
      | .absent _ => (.error (if pending = [] then .missingFinal else .missingPrefix),
          s.stat oracle (joinAtPath current component))
      | .unavailable => (.error .authority, s.stat oracle (joinAtPath current component))
      | .present stat _ =>
        if stat.isSymlink then
          exec (followLink oracle roots root current (joinAtPath current component) pending followed)
            (s.stat oracle (joinAtPath current component))
        else if pending ≠ [] ∧ stat.isDir = false then
          (.error .notDirectory, s.stat oracle (joinAtPath current component))
        else if pending = [] then
          (.ok (.stop (joinAtPath current component, stat)),
            s.stat oracle (joinAtPath current component))
        else (.ok (.again ⟨pending, joinAtPath current component, followed⟩),
          s.stat oracle (joinAtPath current component)) := by
  unfold followTurn
  dsimp only
  rw [exec_bind, exec_askStat]
  dsimp only
  cases (oracle.stat (joinAtPath current component) s.oracle).1 with
  | absent g => rfl
  | unavailable => rfl
  | present stat g =>
    dsimp only
    split
    · rfl
    · split
      · rfl
      · split <;> rfl

/-- A link is followed at most 40 times, and between two links each turn takes a component. -/
theorem followTurn_decreases : Decreases (followTurn oracle roots root) Walk.measure := by
  rintro ⟨pending, current, followed⟩ s w' s' h
  cases pending with
  | nil =>
    rw [exec_followTurn_nil] at h
    cases h
  | cons component pending =>
    rw [exec_followTurn_cons] at h
    split at h
    · cases h
    · cases h
    · split at h
      · rw [exec_followLink] at h
        split at h
        · cases h
        · rename_i hfollowed
          split at h
          · cases h
          · split at h
            · cases h
            · split at h
              · split at h <;> cases h
              · cases h
                have hlt : 41 - (followed + 1) < 41 - followed := by omega
                exact Prod.Lex.left _ _ hlt
      · split at h
        · cases h
        · split at h
          · cases h
          · cases h
            exact Prod.Lex.right _ (Nat.lt_succ_self _)

variable (oracle roots root)

/-- Walk the path one component at a time, following graph-owned symlinks. -/
def followSymlinkedPath (key : VfsPath) : AskM σ (Bytes × VirtualStat) :=
  loop (followTurn oracle roots root) Walk.measure followTurn_decreases ⟨key.components, root, 0⟩

end Walk

/-! ## One round trip -/

/-- What the proper prefixes of a path turned out to be. -/
inductive PrefixVerdict where
  | directories
  | symlinked

structure Resolver (σ : Type) where
  asked : Asked σ
  cache : StatCache

abbrev ResolveM (σ : Type) := Fallible GraphPathError (Resolver σ)

def factOf (stat : VirtualStat) : PathFact := .present stat.isDir stat.isSymlink

/-- The prefixes before the last component, without the root, the outermost first. -/
def prefixes (key : VfsPath) : List VfsPath :=
  (key.ancestors.takeWhile fun p => !p.isRoot).reverse

section Resolve

variable {σ : Type} (oracle : GraphOracle σ) (roots : List Bytes) (root : Bytes)

def ask {α : Type} (x : AskM σ α) : ResolveM σ α :=
  zoom Resolver.asked (fun asked r => { r with asked := asked }) id x

def noteFact (key : VfsPath) (generation : Nat) (fact : PathFact) : ResolveM σ Unit :=
  modify fun r => { r with cache := (r.cache.observe generation).remember key generation fact }

/-- The fact of one prefix, remembered or asked for. -/
def prefixFact (p : VfsPath) : ResolveM σ PathFact := do
  let r ← get
  set { r with cache := (r.cache.recallPath p).2 }
  match (r.cache.recallPath p).1 with
  | some fact => return fact
  | none =>
    match ← ask (askStat oracle (joinAtPath root p.bytes)) with
    | .present stat generation =>
      noteFact p generation (factOf stat)
      return factOf stat
    | .absent generation =>
      noteFact p generation .absent
      return .absent
    | .unavailable => throw .authority

/-- The loop over the prefixes. -/
def classifyPrefixes : List VfsPath → ResolveM σ PrefixVerdict
  | [] => return .directories
  | p :: rest => do
    match ← prefixFact oracle root p with
    | .present _ true => return .symlinked
    | .present true false => classifyPrefixes rest
    | .present false false => throw .notDirectory
    | .absent => throw .missingPrefix

def classifyPrefix (key : VfsPath) : ResolveM σ PrefixVerdict :=
  classifyPrefixes oracle root (prefixes key)

/-- Resolve one workspace path to the entry whose blob must be read. -/
def resolveGraphPath (key : VfsPath) : ResolveM σ (Bytes × VirtualStat) :=
  if key.isRoot then ask (askRoot oracle root)
  else do
    match ← ask (askStat oracle (joinAtPath root key.bytes)) with
    | .present stat generation =>
      noteFact key generation (factOf stat)
      if stat.isSymlink then ask (followSymlinkedPath oracle roots root key)
      else return (joinAtPath root key.bytes, stat)
    | .absent generation =>
      noteFact key generation .absent
      match ← classifyPrefix oracle root key with
      | .directories => throw .missingFinal
      | .symlinked => ask (followSymlinkedPath oracle roots root key)
    | .unavailable => throw .authority

end Resolve
end KinVfs
