import KinVfs.Core.Path
import KinVfs.Posix.Fs

/-!
# Metadata, errors and the provider interface
(`stat.rs`, `error.rs`, `provider.rs` of `crates/kin-vfs-core/src`)

A `ContentProvider` is a record of answers: what the provider says at one moment. `u64` sizes,
offsets and clocks are natural numbers; where a `u64` operation saturates, the definition says so.
-/

namespace KinVfs

/-- The kinds a directory listing reports. A gitlink is a nested-repository boundary. -/
inductive FileType where
  | file
  | directory
  | symlink
  | gitlink
  deriving DecidableEq, Repr

abbrev Hash256 := Vector UInt8 32

structure VirtualStat where
  size : Nat
  isFile : Bool
  isDir : Bool
  isSymlink : Bool
  mode : Nat
  mtime : Nat
  ctime : Nat
  nlink : Nat
  contentHash : Option Hash256
  deriving DecidableEq

namespace VirtualStat

def regularFile (size : Nat) (contentHash : Hash256) (executable : Bool) (mtime : Nat) :
    VirtualStat where
  size := size
  isFile := true
  isDir := false
  isSymlink := false
  mode := if executable then 0o755 else 0o644
  mtime := mtime
  ctime := mtime
  nlink := 1
  contentHash := some contentHash

def symlink (size : Nat) (contentHash : Hash256) (mtime : Nat) : VirtualStat where
  size := size
  isFile := false
  isDir := false
  isSymlink := true
  mode := 0o777
  mtime := mtime
  ctime := mtime
  nlink := 1
  contentHash := some contentHash

def directory (mtime : Nat) : VirtualStat where
  size := 0
  isFile := false
  isDir := true
  isSymlink := false
  mode := 0o755
  mtime := mtime
  ctime := mtime
  nlink := 2
  contentHash := none

/-- The listing type of a stat, as the staged listing computes it. -/
def fileType (st : VirtualStat) : FileType :=
  if st.isDir then .directory else if st.isSymlink then .symlink else .file

end VirtualStat

structure DirEntry where
  name : VfsName
  fileType : FileType
  deriving DecidableEq

/-- VFS operation errors. The `path` fields carry the displayed path. -/
inductive VfsError where
  | notFound (path : String)
  | isDirectory (path : String)
  | notDirectory (path : String)
  | permissionDenied (path : String)
  | invalidInput (path : String)
  /-- The path resolves outside the workspace root. -/
  | escapesRoot (path : String)
  /-- The path names a gitlink without a child projection. -/
  | unsupportedRepositoryBoundary (path : String)
  | io (kind : Posix.ErrorKind)
  | provider (reason : String)
  deriving DecidableEq, Repr

abbrev VfsResult (α : Type) := Except VfsError α

/-- What a provider answers. -/
structure ContentProvider where
  readFile : VfsPath → VfsResult Bytes
  readRange : VfsPath → Nat → Nat → VfsResult Bytes
  stat : VfsPath → VfsResult VirtualStat
  readDir : VfsPath → VfsResult (List DirEntry)
  pathExists : VfsPath → VfsResult Bool
  readLink : VfsPath → VfsResult Bytes
  version : Nat

/-- The largest `u64`. -/
def u64Max : Nat := 2 ^ 64 - 1

/-- `u64::saturating_add`. -/
def saturatingAdd (a b : Nat) : Nat := min (a + b) u64Max

end KinVfs
