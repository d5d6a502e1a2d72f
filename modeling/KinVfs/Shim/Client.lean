import KinVfs.Shim.Follow

/-!
# Questions to the daemon (`crates/kin-vfs-shim/src/client.rs`, `crates/kin-vfs-daemon/src/server.rs`)

What a call gives while the daemon is reached and its provider answers `g`. How a call failed, and
the generation of its answer, are left in thread-local cells (`LastCall`); a path that has no graph
key is not asked about and leaves the cells as they were.
-/

namespace KinVfs

open Fallible

inductive ClientCallFailure where
  | none
  | notFound
  | permissionDenied
  | isDirectory
  | notDirectory
  | invalidInput
  | unsupportedBoundary
  | unreachable
  | authority
  deriving DecidableEq, Repr

/-- `vfs_error_at` and `response_failure`: the failure class of an error the daemon answers with. -/
def VfsError.failure : VfsError → ClientCallFailure
  | .notFound _ => .notFound
  | .isDirectory _ => .isDirectory
  | .notDirectory _ => .notDirectory
  | .permissionDenied _ | .escapesRoot _ => .permissionDenied
  | .invalidInput _ => .invalidInput
  | .unsupportedRepositoryBoundary _ => .unsupportedBoundary
  | .io _ | .provider _ => .authority

/-- `LAST_FAILURE` and `LAST_GENERATION` of a thread. -/
structure LastCall where
  failure : ClientCallFailure
  generation : Nat
  deriving DecidableEq, Repr

section Client

variable (g : ContentProvider) (roots : List Bytes)

/-- A stat answer carries the generation of its snapshot, a failed one too. -/
def clientStat (key : VfsPath) : Option VirtualStat × LastCall :=
  match g.stat key with
  | .ok stat => (some stat, ⟨.none, g.version⟩)
  | .error e => (none, ⟨e.failure, g.version⟩)

/-- The other answers name no snapshot. -/
def clientAnswer {α : Type} : VfsResult α → Option α × LastCall
  | .ok a => (some a, ⟨.none, 0⟩)
  | .error e => (none, ⟨e.failure, 0⟩)

def clientReadLink (key : VfsPath) : Option Bytes × LastCall := clientAnswer (g.readLink key)

def clientReadFile (key : VfsPath) : Option Bytes × LastCall := clientAnswer (g.readFile key)

def clientReadDir (key : VfsPath) : Option (List DirEntry) × LastCall := clientAnswer (g.readDir key)

/-- The server's answer to `Read`: `0, 0` asks for the whole file; otherwise the range is read, and
the length after it. A publication may come between the two, so the second provider may be another. -/
def answerRead (g' : ContentProvider) (key : VfsPath) (offset len : Nat) : VfsResult (Bytes × Nat) :=
  if offset = 0 ∧ len = 0 then do
    let data ← g.readFile key
    return (data, data.length)
  else do
    let data ← g.readRange key offset len
    let stat ← g'.stat key
    return (data, stat.size)

/-- A range is taken only with the length it must have in a file of the expected length. -/
def clientReadRange (g' : ContentProvider) (offset len expectedTotal : Nat) (key : VfsPath) :
    Option Bytes × LastCall :=
  match answerRead g g' key offset len with
  | .error e => (none, ⟨e.failure, 0⟩)
  | .ok (data, totalSize) =>
    if totalSize = expectedTotal ∧ data.length = min len (expectedTotal - offset) then
      (some data, ⟨.none, 0⟩)
    else (none, ⟨.authority, 0⟩)

def graphRequestKey (path : Bytes) : Option VfsPath :=
  (workspaceGraphKeyFromRoots path roots).toOption

/-- Ask about the key of `path`, if it has one. -/
def graphCall {α : Type} (call : VfsPath → Option α × LastCall) (path : Bytes) (last : LastCall) :
    Option α × LastCall :=
  match graphRequestKey roots path with
  | none => (none, last)
  | some key => call key

def graphStat : Bytes → LastCall → Option VirtualStat × LastCall := graphCall roots (clientStat g)

def graphReadLink : Bytes → LastCall → Option Bytes × LastCall :=
  graphCall roots (clientReadLink g)

def graphReadFile : Bytes → LastCall → Option Bytes × LastCall :=
  graphCall roots (clientReadFile g)

def graphReadDir : Bytes → LastCall → Option (List DirEntry) × LastCall :=
  graphCall roots (clientReadDir g)

def graphReadRange (g' : ContentProvider) (offset len expectedTotal : Nat) :
    Bytes → LastCall → Option Bytes × LastCall :=
  graphCall roots (clientReadRange g g' offset len expectedTotal)

/-- The oracle that asks the daemon. -/
def daemonOracle : GraphOracle LastCall where
  stat path last :=
    match graphStat g roots path last with
    | (some stat, last') => (.present stat last'.generation, last')
    | (none, last') =>
      if last'.failure = .notFound then (.absent last'.generation, last') else (.unavailable, last')
  readLink := graphReadLink g roots

end Client

/-- The workspace root maps its own paths back. -/
def MapsBack (roots : List Bytes) (root : Bytes) : Prop :=
  ∀ key, graphRequestKey roots (hostPath root key) = some key

/-- A root without aliases does. -/
theorem mapsBack_single {root : Bytes} {base : List Bytes}
    (h : hostComponents root = .ok (none, base)) : MapsBack [root] root := by
  intro key
  have hkey : workspaceGraphKey (hostPath root key) root = .ok key := by
    unfold hostPath
    split
    · rename_i hroot
      rw [VfsPath.isRoot_iff] at hroot
      subst hroot
      exact workspaceGraphKey_of_components h (by simpa using h)
    · exact workspaceGraphKey_joinAtPath h key
  simp [graphRequestKey, workspaceGraphKeyFromRoots, tryRoot, hkey, bind, Except.bind, pure,
    Except.pure, Except.toOption]

end KinVfs
