import KinVfs.Lib.Text
import KinVfs.Posix.Calls
import KinVfs.Core.Containment
import KinVfs.Core.Writer

/-!
# The staging writer (`crates/kin-vfs-daemon/src/kin_writer.rs`)

A mutation is a disk part on the working copy (`DiskM`, a change of the host tree) followed by one
or two staging marks. The staging map is guarded by one lock, so each critical section is a pure
function on `Staging`: `mark`, `snapshot`, `recordFailure`, `clear`.

* `Staging`: what the writer owes the graph. A revision is the address of an `Arc<()>`, compared as
  `Arc::ptr_eq` does; the address is an argument of `mark`.
* `writeAtDisk`, `createFileDisk`, ...: what each mutation does to the working copy.
* `KinDaemonWriter.writeAt`, ...: a whole call, run without interference.
* `KinDaemonWriter.view`: the questions the overlay asks, answered in one state.
-/

namespace KinVfs

open Posix (Fs HostM)
open Fallible

/-- The address of an `Arc<()>`. -/
abbrev Arc := Nat

/-- One staged mutation and its identity. -/
structure StagedEntry where
  staged : Staged
  revision : Arc
  deriving DecidableEq

/-- What the writer owes the graph, and how the last attempt went. -/
structure Staging where
  entries : Std.ExtTreeMap VfsPath StagedEntry
  lastTouch : Option Nat
  lastAdmission : Option Admission
  lastError : Option String

namespace Staging

/-- `Staging::default()`. -/
def init : Staging := ⟨∅, none, none, none⟩

/-- Record `path` as staged, under the new allocation `revision`. -/
def mark (st : Staging) (path : VfsPath) (staged : Staged) (revision : Arc) (now : Nat) : Staging :=
  { st with
    entries := st.entries.insert path ⟨staged, revision⟩
    lastTouch := some now
    lastError := none }

/-- The entries an admission carries, with the revision each had. -/
def snapshot (st : Staging) : List (VfsPath × Arc) :=
  st.entries.toList.map fun (path, entry) => (path, entry.revision)

/-- Record why an admission failed. The entries stay staged. -/
def recordFailure (st : Staging) (reason : String) : Staging := { st with lastError := some reason }

/-- Remove the entries of `pending` whose revision is the one snapped. -/
def clearPending (entries : Std.ExtTreeMap VfsPath StagedEntry) (pending : List (VfsPath × Arc)) :
    Std.ExtTreeMap VfsPath StagedEntry :=
  pending.foldl (fun entries (path, revision) =>
    if entries[path]?.any (·.revision == revision) then entries.erase path else entries) entries

/-- The critical section after a successful admission. -/
def clear (st : Staging) (pending : List (VfsPath × Arc)) (admission : Admission) : Staging :=
  let entries := clearPending st.entries pending
  { entries := entries
    lastTouch := if entries.isEmpty then none else st.lastTouch
    lastAdmission := some admission
    lastError := none }

def health (st : Staging) : WriteHealth :=
  let paths := st.entries.keys
  match st.lastError, paths.isEmpty with
  | some reason, _ => .degraded paths reason
  | none, true => .settled st.lastAdmission
  | none, false => .pending paths

def staged (st : Staging) (path : VfsPath) : Option Staged :=
  st.entries[path]?.map (·.staged)

/-- Sort one entry into the added or the removed children of `dir`. -/
def sortChild (dir : VfsPath) (acc : List DirEntry × List VfsName)
    (item : VfsPath × StagedEntry) : List DirEntry × List VfsName :=
  match dir.stripDirPrefix item.1 with
  | none => acc
  | some remainder =>
    -- A remainder with a separator is a deeper descendant: its own parent lists it.
    if remainder.contains slash then acc
    else
      match VfsName.fromBytes remainder with
      | .error _ => acc
      | .ok name =>
        match item.2.staged with
        | .present stat => (acc.1 ++ [⟨name, stat.fileType⟩], acc.2)
        | .removed => (acc.1, acc.2 ++ [name])

def stagedChildren (st : Staging) (dir : VfsPath) : List DirEntry × List VfsName :=
  st.entries.toList.foldl (sortChild dir) ([], [])

end Staging

/-- Why an author could not be resolved, phrased as the remedy. -/
def unresolvedAuthor : String :=
  "cannot attribute a mount write: set `user.name` and `user.email` in the served repository's " ++
    "git config, or set KIN_AUTHOR to \"Name <email>\""

/-- `KinDaemonWriter::new`: a writer that cannot attribute its changes is not built. The staging of
a new writer is empty. -/
def KinDaemonWriter.new (author : Option String) : VfsResult (String × Staging) :=
  match author with
  | some author => .ok (author, .init)
  | none => .error (.provider unresolvedAuthor)

/-! ## The disk part of each mutation -/

/-- A change of the host tree, with the writer's errors. -/
abbrev DiskM (α : Type) := Fallible VfsError Fs α

/-- A host call (`?` turns its error into `VfsError::Io`). -/
def io {α : Type} (x : HostM α) : DiskM α := zoom id (fun fs _ => fs) VfsError.io x

/-- `if let Some(parent) = host.parent() { create_dir_all(parent)? }`. -/
def createParent (host : Posix.Path) : DiskM Unit :=
  if host = [] then pure () else io (Posix.createDirAll host.dropLast)

/-- The Unix mode a staged host entry projects as. -/
def hostMode (nd : Posix.Node) : Nat := nd.info.mode &&& 0o7777

/-- The stat of a staged host entry: no content hash, the bytes are not graph truth yet. -/
def statOf (nd : Posix.Node) : VirtualStat where
  size := nd.len
  isFile := nd.isFile
  isDir := nd.isDir
  isSymlink := nd.isSymlink
  mode := hostMode nd
  mtime := nd.info.mtime
  ctime := nd.info.mtime
  nlink := 1
  contentHash := none

/-- `OpenOptions::new().create(true).truncate(false).write(true)`. -/
def writeOptions : Posix.OpenOptions := ⟨true, false, false⟩

/-- The options of `create_file`. -/
def createOptions (exclusive : Bool) : Posix.OpenOptions :=
  if exclusive then ⟨false, true, false⟩ else ⟨true, false, true⟩

namespace KinDaemonWriter

variable (repoRoot : Posix.Path)

def contentPath (fs : Fs) (path : VfsPath) : VfsResult Posix.Path := containedTarget fs repoRoot path

def entryPath (fs : Fs) (path : VfsPath) : VfsResult Posix.Path := containedEntry fs repoRoot path

def stageStat (fs : Fs) (host : Posix.Path) : VfsResult VirtualStat :=
  match fs.lstat host with
  | .ok nd => .ok (statOf nd)
  | .error e => .error (.io e)

/-- The stat `mark_present` records: the entry itself, restated on the host. -/
def restat (fs : Fs) (path : VfsPath) : VfsResult VirtualStat :=
  match entryPath repoRoot fs path with
  | .ok host => stageStat fs host
  | .error e => .error e

def writeAtDisk (path : VfsPath) (offset : Nat) (data : Bytes) : DiskM Unit := do
  let host ← ofExcept (contentPath repoRoot · path)
  createParent host
  let file ← io (Posix.openFile writeOptions host)
  io (Posix.writeFile file offset data)

def createFileDisk (path : VfsPath) (exclusive : Bool) : DiskM Unit := do
  let host ← ofExcept (contentPath repoRoot · path)
  createParent host
  let _ ← io (Posix.openFile (createOptions exclusive) host)

def setLenDisk (path : VfsPath) (size : Nat) : DiskM Unit := do
  let host ← ofExcept (contentPath repoRoot · path)
  let file ← io (Posix.openFile ⟨false, false, false⟩ host)
  io (Posix.setFileLen file size)

def createDirDisk (path : VfsPath) : DiskM Unit := do
  let host ← ofExcept (contentPath repoRoot · path)
  io (Posix.createDirAll host)

def removeDisk (path : VfsPath) : DiskM Unit := do
  let host ← ofExcept (entryPath repoRoot · path)
  let nd ← io (ofExcept (·.lstat host))
  if nd.isDir then io (Posix.removeDir host) else io (Posix.removeFile host)

/-- The source entry is resolved after the destination's parents were made. -/
def renameDisk (old new : VfsPath) : DiskM Unit := do
  let toHost ← ofExcept (entryPath repoRoot · new)
  createParent toHost
  let fromHost ← ofExcept (entryPath repoRoot · old)
  io (Posix.rename fromHost toHost)

end KinDaemonWriter

/-! ## The calls -/

/-- The mutations of the writer trait. -/
inductive Mutation where
  | writeAt (path : VfsPath) (offset : Nat) (data : Bytes)
  | createFile (path : VfsPath) (exclusive : Bool)
  | setLen (path : VfsPath) (size : Nat)
  | createDir (path : VfsPath)
  | remove (path : VfsPath)
  | rename (old new : VfsPath)
  deriving DecidableEq

/-- One staging mark: a removal, or a restat of the path followed by the mark. -/
inductive MarkStep where
  | removed (path : VfsPath)
  | present (path : VfsPath)
  deriving DecidableEq

namespace Mutation

/-- What the mutation does to the working copy. -/
def disk (repoRoot : Posix.Path) : Mutation → DiskM Unit
  | .writeAt path offset data => KinDaemonWriter.writeAtDisk repoRoot path offset data
  | .createFile path exclusive => KinDaemonWriter.createFileDisk repoRoot path exclusive
  | .setLen path size => KinDaemonWriter.setLenDisk repoRoot path size
  | .createDir path => KinDaemonWriter.createDirDisk repoRoot path
  | .remove path => KinDaemonWriter.removeDisk repoRoot path
  | .rename old new => KinDaemonWriter.renameDisk repoRoot old new

/-- The marks that follow, in order. -/
def marks : Mutation → List MarkStep
  | .writeAt path .. | .createFile path _ | .setLen path _ | .createDir path => [.present path]
  | .remove path => [.removed path]
  | .rename old new => [.removed old, .present new]

end Mutation

/-- The working copy and one writer's staging. `arcs` is the next address the allocator gives. -/
structure World where
  host : Fs
  staging : Staging
  arcs : Arc
  clock : Nat

abbrev WriterM (α : Type) := Fallible VfsError World α

namespace KinDaemonWriter

variable (repoRoot : Posix.Path)

/-- A disk part, run on the writer's host. -/
def onDisk {α : Type} (x : DiskM α) : WriterM α :=
  zoom World.host (fun fs w => { w with host := fs }) id x

def mark (path : VfsPath) (staged : Staged) : WriterM Unit :=
  modify fun w => { w with staging := w.staging.mark path staged w.arcs w.clock, arcs := w.arcs + 1 }

def markPresent (path : VfsPath) : WriterM VirtualStat := do
  let stat ← ofExcept (restat repoRoot ·.host path)
  mark path (.present stat)
  pure stat

def writeAt (path : VfsPath) (offset : Nat) (data : Bytes) : WriterM VirtualStat := do
  onDisk (writeAtDisk repoRoot path offset data)
  markPresent repoRoot path

def createFile (path : VfsPath) (exclusive : Bool) : WriterM VirtualStat := do
  onDisk (createFileDisk repoRoot path exclusive)
  markPresent repoRoot path

def setLen (path : VfsPath) (size : Nat) : WriterM VirtualStat := do
  onDisk (setLenDisk repoRoot path size)
  markPresent repoRoot path

def createDir (path : VfsPath) : WriterM VirtualStat := do
  onDisk (createDirDisk repoRoot path)
  markPresent repoRoot path

def remove (path : VfsPath) : WriterM Unit := do
  onDisk (removeDisk repoRoot path)
  mark path .removed

def rename (old new : VfsPath) : WriterM Unit := do
  onDisk (renameDisk repoRoot old new)
  mark old .removed
  let _ ← markPresent repoRoot new

def readStaged (w : World) (path : VfsPath) (offset len : Nat) : VfsResult Bytes :=
  match w.staging.staged path with
  | some (.present _) =>
    match contentPath repoRoot w.host path with
    | .error e => .error e
    | .ok host =>
      match w.host.readFile host with
      | .error e => .error (.io e)
      | .ok bytes =>
        .ok (Content.slice bytes (min offset bytes.length)
          (min (saturatingAdd offset len) bytes.length))
  | _ => .error (.notFound path.display)

def readStagedLink (w : World) (path : VfsPath) : VfsResult Bytes :=
  match w.staging.staged path with
  | some (.present _) =>
    match entryPath repoRoot w.host path with
    | .error e => .error e
    | .ok host =>
      match w.host.readLink host with
      | .error e => .error (.io e)
      | .ok target => .ok target
  | _ => .error (.notFound path.display)

/-- The writer as the overlay sees it in one state. -/
def view (w : World) : ContentWriter where
  staged := w.staging.staged
  stagedChildren := w.staging.stagedChildren
  readStaged := readStaged repoRoot w
  readStagedLink := readStagedLink repoRoot w

end KinDaemonWriter

/-- What the mount shows in one state. -/
def overlay (graph : ContentProvider) (repoRoot : Posix.Path) (w : World) : ContentProvider :=
  WriteThroughProvider graph (KinDaemonWriter.view repoRoot w)

end KinVfs
