import KinVfs.Shim.FdTable
import KinVfs.Shim.KeyWalk

/-!
# The reading hooks (`crates/kin-vfs-shim/src/intercept.rs`, `statfill.rs`, `platform/linux.rs`)

What the intercepted calls do with a workspace path, after the path argument became absolute bytes
and the workspace test said yes: they answer from the graph. `stat`, `access` and an open that follows
resolve the path (`graphStatFollow`); `lstat`, the no-follow variants and `readlink` ask about the path
as it is spelled.
-/

namespace KinVfs

open Fallible

inductive Errno where
  | enoent
  | eio
  | eacces
  | eisdir
  | enotdir
  | einval
  | enotsup
  | eloop
  | ebadf
  | eexist
  deriving DecidableEq, Repr

/-- What a `stat` buffer is filled with, except the caller's ids. -/
structure StatBuf where
  size : Nat
  nlink : Nat
  mode : Nat
  mtime : Nat
  ctime : Nat
  atime : Nat
  blksize : Nat
  blocks : Nat
  ino : UInt64
  dev : Nat
  deriving DecidableEq

/-- The type bits and the permission bits. -/
def vstatModeBits (vstat : VirtualStat) : Nat :=
  (if vstat.isFile then 0o100000 else if vstat.isDir then 0o040000
    else if vstat.isSymlink then 0o120000 else 0) ||| vstat.mode

/-- 512-byte blocks, rounded up. -/
def blocksFor (size : Nat) : Nat := (size + 511) / 512

/-- `fill_stat_buf`, and the inode number of `path`. -/
def fillStatBuf (vstat : VirtualStat) (path : Bytes) : StatBuf where
  size := vstat.size
  nlink := vstat.nlink
  mode := vstatModeBits vstat
  mtime := vstat.mtime
  ctime := vstat.ctime
  atime := vstat.mtime
  blksize := 4096
  blocks := blocksFor vstat.size
  ino := syntheticInode path
  dev := 0xFF

/-- The flag bits the hooks read. -/
structure OpenFlags where
  wronly : Bool
  rdwr : Bool
  creat : Bool
  excl : Bool
  trunc : Bool
  append : Bool
  nofollow : Bool
  directory : Bool
  deriving DecidableEq

def isWriteFlags (flags : OpenFlags) : Bool := flags.wronly || flags.rdwr || flags.creat || flags.trunc

/-! ## Error numbers -/

def graphMissErrno (strict : Bool) : Errno := if strict then .eio else .enoent

/-- `graph_failure_errno_in_mode`. -/
def graphFailureErrno (strict : Bool) : ClientCallFailure → Errno
  | .none | .notFound => graphMissErrno strict
  | .permissionDenied => .eacces
  | .isDirectory => .eisdir
  | .notDirectory => .enotdir
  | .invalidInput => .einval
  | .unsupportedBoundary => .enotsup
  | .unreachable | .authority => .eio

def graphPathErrno (strict : Bool) (failure : ClientCallFailure) : GraphPathError → Errno
  | .authority => graphFailureErrno strict failure
  | .missingFinal | .missingPrefix => graphMissErrno strict
  | .invalidSymlink => .einval
  | .symlinkLoop => .eloop
  | .outsideWorkspace => .eacces
  | .notDirectory => .enotdir

/-! ## The state of a thread -/

/-- What a thread has asked and been told, and the process's descriptors. -/
structure Shim where
  resolver : Resolver LastCall
  table : FdTable

def Shim.last (s : Shim) : LastCall := s.resolver.asked.oracle

def Shim.setLast (s : Shim) (last : LastCall) : Shim :=
  { s with resolver := { s.resolver with asked := { s.resolver.asked with oracle := last } } }

abbrev HookM := Fallible Errno Shim

section Hooks

variable (g : ContentProvider) (roots : List Bytes) (root : Bytes) (strict : Bool)

/-- One question to the daemon. -/
def callGraph {α : Type} (call : Bytes → LastCall → Option α × LastCall) (path : Bytes) :
    HookM (Option α) := do
  let s ← get
  set (s.setLast (call path s.last).2)
  return (call path s.last).1

theorem exec_callGraph {α : Type} (call : Bytes → LastCall → Option α × LastCall) (path : Bytes)
    (s : Shim) :
    exec (callGraph call path) s = (.ok (call path s.last).1, s.setLast (call path s.last).2) := rfl

def failGraphAuthority {α : Type} : HookM α := do
  throw (graphFailureErrno strict (← get).last.failure)

def failGraphPath {α : Type} (e : GraphPathError) : HookM α := do
  throw (graphPathErrno strict (← get).last.failure e)

/-- Follow graph-owned symlinks to the path whose blob must be read. -/
def graphStatFollow (path : Bytes) : HookM (Except GraphPathError (Bytes × VirtualStat)) := do
  match workspaceGraphKeyFromRoots path roots with
  | .error _ => return .error .outsideWorkspace
  | .ok key =>
    let s ← get
    let r := exec (resolveGraphPath (daemonOracle g roots) roots root key) s.resolver
    set { s with resolver := r.2 }
    return r.1

/-- The path as it is spelled. -/
def graphStatHere (path : Bytes) : HookM (Except GraphPathError (Bytes × VirtualStat)) := do
  match ← callGraph (graphStat g roots) path with
  | some vstat => return .ok (path, vstat)
  | none => return .error .authority

def stat (path : Bytes) : HookM StatBuf := do
  match ← graphStatFollow g roots root path with
  | .ok (resolved, vstat) => return fillStatBuf vstat resolved
  | .error e => failGraphPath strict e

def lstat (path : Bytes) : HookM StatBuf := do
  match ← callGraph (graphStat g roots) path with
  | some vstat => return fillStatBuf vstat path
  | none => failGraphAuthority strict

/-- `nofollow` is `AT_SYMLINK_NOFOLLOW`. -/
def fstatat (nofollow : Bool) (path : Bytes) : HookM StatBuf := do
  let result ← if nofollow then graphStatHere g roots path else graphStatFollow g roots root path
  match result with
  | .ok (resolved, vstat) => return fillStatBuf vstat resolved
  | .error e => failGraphPath strict e

/-- `bufsiz` bytes of the target at most. -/
def readlink (path : Bytes) (bufsiz : Nat) : HookM Bytes := do
  match ← callGraph (graphReadLink g roots) path with
  | some target => return target.take bufsiz
  | none => failGraphAuthority strict

/-- The requested permissions, by the three digits of the mode. -/
structure AccessMode where
  read : Bool
  write : Bool
  execute : Bool

def graphModeAllows (vstat : VirtualStat) (requested : AccessMode) : Bool :=
  (!requested.read || vstat.mode &&& 0o444 ≠ 0) && (!requested.write || vstat.mode &&& 0o222 ≠ 0) &&
    (!requested.execute || vstat.mode &&& 0o111 ≠ 0)

def access (path : Bytes) (requested : AccessMode) : HookM Unit := do
  match ← graphStatFollow g roots root path with
  | .ok (_, vstat) => if graphModeAllows vstat requested then return () else throw .eacces
  | .error e => failGraphPath strict e

/-! ## Opening for reading -/

def DirEntry.raw (entry : DirEntry) : DirEntryRaw where
  name := entry.name.bytes
  dIno := syntheticInode entry.name.bytes
  dType :=
    match entry.fileType with
    | .file => 8
    | .directory => 4
    | .symlink => 10
    | .gitlink => 4

/-- A descriptor, or `none` when the daemon refused the listing or no number is left. -/
def allocateDirVfd (path : Bytes) : HookM (Option Nat) := do
  match ← callGraph (graphReadDir g roots) path with
  | none => return none
  | some entries =>
    let s ← get
    let r := s.table.allocateDir path (entries.map DirEntry.raw)
    set { s with table := r.2 }
    return r.1

def allocateVfd (path : Bytes) (size : Nat) (content : Option Bytes) : HookM (Option Nat) := do
  let s ← get
  let r := s.table.allocate path size content
  set { s with table := r.2 }
  return r.1

/-- A small file is read whole, a larger one is served by ranged reads. -/
def openReadPayload (path : Bytes) (vstat : VirtualStat) :
    HookM (Except GraphPathError (Nat × Option Bytes)) := do
  if vstat.size ≤ smallFileThreshold then
    match ← callGraph (graphReadFile g roots) path with
    | some content => return .ok (vstat.size, some content)
    | none => return .error .authority
  else return .ok (vstat.size, none)

/-- What an open does with what its path resolved to. -/
def openResolved (flags : OpenFlags) : Except GraphPathError (Bytes × VirtualStat) → HookM Nat
  | .error e => failGraphPath strict e
  | .ok (resolved, vstat) => do
    if vstat.isDir then
      match ← allocateDirVfd g roots resolved with
      | some fd => return fd
      | none => failGraphAuthority strict
    else if flags.directory then throw .enotdir
    else if vstat.isFile then
      match ← openReadPayload g roots resolved vstat with
      | .error e => failGraphPath strict e
      | .ok (size, content) =>
        match ← allocateVfd resolved size content with
        | some fd => return fd
        | none => throw .eio
    else throw .einval

/-- `open` and `openat` of a workspace path without write flags. -/
def openRead (flags : OpenFlags) (path : Bytes) : HookM Nat := do
  if flags.nofollow then
    match ← callGraph (graphStat g roots) path with
    | some vstat =>
      if vstat.isSymlink then throw .eloop
      else openResolved g roots strict flags (.ok (path, vstat))
    | none => openResolved g roots strict flags (.error .authority)
  else openResolved g roots strict flags (← graphStatFollow g roots root path)

/-! ## Calls on a virtual descriptor -/

/-- The kernel has no descriptor of a number that the table lacks. -/
def requireHandle (fd : Nat) : HookM VirtualFileHandle := do
  match (← get).table.map[fd]? with
  | some handle => return handle
  | none => throw .ebadf

def advanceOffset (fd bytesRead : Nat) : HookM Unit :=
  modify fun s => { s with table := (s.table.advanceOffset fd bytesRead).2 }

/-- What the cached content has of the range. -/
def cachedSlice (handle : VirtualFileHandle) (offset bytesToRead : Nat) : Option Bytes :=
  match handle.cachedContent with
  | some content =>
    if offset < content.length then
      some ((content.drop offset).take (min (offset + bytesToRead) content.length - offset))
    else none
  | none => none

/-- The bytes at `offset`, from the cache or the daemon; `g'` is the provider when the daemon reads the
length. -/
def readAt (g' : ContentProvider) (handle : VirtualFileHandle) (offset count : Nat) : HookM Bytes := do
  if handle.size ≤ offset then return []
  else
    let bytesToRead := min count (handle.size - offset)
    if bytesToRead = 0 then return []
    else
      match cachedSlice handle offset bytesToRead with
      | some slice => return slice
      | none =>
        match ← callGraph (graphReadRange g roots g' offset bytesToRead handle.size) handle.path with
        | some data => return data.take bytesToRead
        | none => throw .eio

def read (g' : ContentProvider) (fd count : Nat) : HookM Bytes := do
  let handle ← requireHandle fd
  let data ← readAt g roots g' handle handle.offset count
  if data = [] then return []
  advanceOffset fd data.length
  return data

/-- An `off_t` as a `u64`. -/
def asU64 (offset : Int) : Nat := (offset % 2 ^ 64).toNat

def pread (g' : ContentProvider) (fd count : Nat) (offset : Int) : HookM Bytes := do
  let handle ← requireHandle fd
  readAt g roots g' handle (asU64 offset) count

def lseek (fd : Nat) (offset : Int) (whence : Posix.Whence) : HookM Nat := do
  let s ← get
  set { s with table := (s.table.seek fd offset whence).2 }
  match (s.table.seek fd offset whence).1 with
  | some new => return new
  | none => throw .einval

/-- The path of the descriptor is asked about again. -/
def fstat (fd : Nat) : HookM StatBuf := do
  let handle ← requireHandle fd
  match ← callGraph (graphStat g roots) handle.path with
  | some vstat => return fillStatBuf vstat handle.path
  | none => throw .ebadf

/-- The bytes that a private mapping shows; a shared one is refused. A directory is left to the kernel, which has
no descriptor of that number. -/
def mmap (fd len : Nat) (shared : Bool) : HookM Bytes := do
  if shared then throw .einval
  let handle ← requireHandle fd
  if handle.isDirectory then throw .ebadf
  let content ←
    match handle.cachedContent with
    | some content => pure content
    | none =>
      match ← callGraph (graphReadFile g roots) handle.path with
      | some content => pure content
      | none => throw .eio
  if (if len = 0 then content.length else len) = 0 then throw .einval
  return content

end Hooks
end KinVfs
