import KinVfs.Core.Provider

/-!
# Write admission for projection surfaces (`crates/kin-vfs-core/src/writer.rs`)

`WriteThroughProvider` serves graph truth overlaid with the writes a `ContentWriter` has staged.
Of the writer trait this file has the read side (`ContentWriter`), which is all the overlay asks;
the mutations and the admission are in `KinVfs/Daemon/KinWriter.lean`.
-/

namespace KinVfs

/-- One admission: every staged write folded into graph truth as one change. -/
structure Admission where
  changeId : String
  branch : String
  fileCount : Nat
  /-- The paths the surface had staged when the admission ran. -/
  paths : List VfsPath
  deriving DecidableEq

/-- What a projection surface reports about its own write path. -/
inductive WriteHealth where
  /-- Nothing is staged. Every accepted write reached the graph. -/
  | settled (last : Option Admission)
  /-- Writes are staged and an admission is still owed. -/
  | pending (paths : List VfsPath)
  /-- An admission was attempted and refused. The paths are still staged. -/
  | degraded (paths : List VfsPath) (reason : String)
  deriving DecidableEq

namespace WriteHealth

def label : WriteHealth → String
  | .settled _ => "settled"
  | .pending _ => "pending"
  | .degraded .. => "degraded"

/-- The paths the surface still owes the graph. -/
def unadmitted : WriteHealth → List VfsPath
  | .settled _ => []
  | .pending paths | .degraded paths _ => paths

end WriteHealth

/-- How a staged path differs from what the graph holds. -/
inductive Staged where
  | present (stat : VirtualStat)
  | removed
  deriving DecidableEq

/-- The questions the overlay asks a writer. -/
structure ContentWriter where
  staged : VfsPath → Option Staged
  stagedChildren : VfsPath → List DirEntry × List VfsName
  readStaged : VfsPath → Nat → Nat → VfsResult Bytes
  readStagedLink : VfsPath → VfsResult Bytes

namespace WriteThroughProvider

variable (graph : ContentProvider) (writer : ContentWriter)

def readFile (path : VfsPath) : VfsResult Bytes :=
  match writer.staged path with
  | some (.present stat) => writer.readStaged path 0 stat.size
  | some .removed => .error (.notFound path.display)
  | none => graph.readFile path

def readRange (path : VfsPath) (offset len : Nat) : VfsResult Bytes :=
  match writer.staged path with
  | some (.present _) => writer.readStaged path offset len
  | some .removed => .error (.notFound path.display)
  | none => graph.readRange path offset len

def stat (path : VfsPath) : VfsResult VirtualStat :=
  match writer.staged path with
  | some (.present stat) => .ok stat
  | some .removed => .error (.notFound path.display)
  | none => graph.stat path

/-- Push the staged children that the listing does not have yet. -/
def addChildren (entries added : List DirEntry) : List DirEntry :=
  added.foldl (fun entries entry =>
    if entries.any (·.name = entry.name) then entries else entries ++ [entry]) entries

def readDir (path : VfsPath) : VfsResult (List DirEntry) :=
  let (added, removed) := writer.stagedChildren path
  let listed : VfsResult (List DirEntry) := match graph.readDir path with
    | .ok entries => .ok entries
    | .error error =>
      -- A directory the graph has never seen exists only in the staging area.
      match writer.staged path, error with
      | some (.present _), .notFound _ => .ok []
      | _, _ => .error error
  match listed with
  | .ok entries => .ok (addChildren (entries.filter fun entry => !removed.contains entry.name) added)
  | .error error => .error error

def pathExists (path : VfsPath) : VfsResult Bool :=
  match writer.staged path with
  | some (.present _) => .ok true
  | some .removed => .ok false
  | none => graph.pathExists path

def readLink (path : VfsPath) : VfsResult Bytes :=
  match writer.staged path with
  | some (.present _) => writer.readStagedLink path
  | some .removed => .error (.notFound path.display)
  | none => graph.readLink path

end WriteThroughProvider

/-- The overlay of `writer`'s staged writes on `graph`. -/
def WriteThroughProvider (graph : ContentProvider) (writer : ContentWriter) : ContentProvider where
  readFile := WriteThroughProvider.readFile graph writer
  readRange := WriteThroughProvider.readRange graph writer
  stat := WriteThroughProvider.stat graph writer
  readDir := WriteThroughProvider.readDir graph writer
  pathExists := WriteThroughProvider.pathExists graph writer
  readLink := WriteThroughProvider.readLink graph writer
  version := graph.version

end KinVfs
