import KinVfs.Lib.MsgPack
import KinVfs.Posix.AnyDisk
import KinVfs.Shim.Hooks
import KinVfs.Shim.Traversal

/-!
# A process under the shim (`crates/kin-vfs-shim/src/intercept.rs`)

The hooks with everything they touch: the shim's own state, the host's disk and the descriptors of the
kernel. An open for writing seeds a temp file from the graph (`materializeFile`) and opens that one; the
close renames it to the path. A path that is not the workspace's goes to the kernel as it is, and so does
the creation of a file the graph does not hold.

A name of the disk leads to a file, and a descriptor keeps its file when the name is removed or replaced:
`Inode.orphan`. There are no hard links, and the kernel's own descriptors are of files: a directory that
it would open outside the workspace is not modelled.
-/

namespace KinVfs

open Fallible
open Posix (Fs ErrorKind HostM)

/-! ## Descriptors of the kernel -/

/-- The file behind a descriptor. -/
inductive Inode where
  | named (l : Posix.Path)
  /-- The name is gone; `l` was the last one. -/
  | orphan (l : Posix.Path) (info : Posix.Info) (content : Bytes)

structure OpenFile where
  inode : Inode
  offset : Nat
  readable : Bool
  writable : Bool

namespace Inode

/-- What the file holds. -/
def look (disk : Fs) : Inode → Option (Posix.Info × Bytes)
  | .named l =>
    match disk.node l with
    | some (.file i c) => some (i, c)
    | _ => none
  | .orphan _ i c => some (i, c)

/-- The file at `l` loses its name. -/
def detach (disk : Fs) (l : Posix.Path) : Inode → Inode
  | .named r =>
    match disk.node l with
    | some (.file i c) => if r = l then .orphan l i c else .named r
    | _ => .named r
  | inode => inode

/-- What is at `src` and below moves to `dst`. -/
def move (src dst : Posix.Path) : Inode → Inode
  | .named r => .named (if src.isPrefixOf r then dst ++ r.drop src.length else r)
  | inode => inode

/-- The bytes of the link in `/proc/self/fd`. -/
def procLink : Inode → Bytes
  | .named l => pathBytes l
  -- ` (deleted)`
  | .orphan l _ _ => pathBytes l ++ [32, 40, 100, 101, 108, 101, 116, 101, 100, 41]

end Inode

/-- What a descriptor shows of its file. -/
structure Seen where
  found : Option (Posix.Info × Bytes)
  offset : Nat
  canRead : Bool
  canWrite : Bool

def OpenFile.seen (disk : Fs) (file : OpenFile) : Seen :=
  ⟨file.inode.look disk, file.offset, file.readable, file.writable⟩

/-- What is kept by number. -/
abbrev Slots (α : Type) := List (Option α)

namespace Slots

variable {α β : Type}

def get? (slots : Slots α) (fd : Nat) : Option α := slots[fd]?.join

/-- The lowest free number. -/
def free (slots : Slots α) : Nat := slots.findIdx Option.isNone

def put (slots : Slots α) (fd : Nat) (x : Option α) : Slots α :=
  if fd < slots.length then slots.set fd x else slots ++ [x]

def mapSome (f : α → β) (slots : Slots α) : Slots β := slots.map (Option.map f)

theorem get?_mapSome (f : α → β) (slots : Slots α) (fd : Nat) :
    (slots.mapSome f).get? fd = (slots.get? fd).map f := by
  unfold get? mapSome
  rw [List.getElem?_map]
  rcases slots[fd]? with _ | _ | x <;> rfl

theorem free_mapSome (f : α → β) (slots : Slots α) : (slots.mapSome f).free = slots.free := by
  unfold free mapSome
  rw [List.findIdx_map]
  congr 1
  funext x
  cases x <;> rfl

theorem put_mapSome (f : α → β) (slots : Slots α) (fd : Nat) (x : Option α) :
    (slots.put fd x).mapSome f = (slots.mapSome f).put fd (x.map f) := by
  unfold put mapSome
  rw [List.length_map]
  split
  · rw [List.map_set]
  · rw [List.map_append]
    rfl

theorem mem_of_get? {slots : Slots α} {fd : Nat} {x : α} (h : slots.get? fd = some x) :
    some x ∈ slots := List.mem_of_getElem? (Option.join_eq_some_iff.mp h)

theorem mem_put {slots : Slots α} {fd : Nat} {x : Option α} {y : Option α}
    (h : y ∈ slots.put fd x) : y ∈ slots ∨ y = x := by
  unfold put at h
  split at h
  · exact List.mem_or_eq_of_mem_set h
  · rcases List.mem_append.mp h with h | h
    · exact .inl h
    · exact .inr (List.mem_singleton.mp h)

end Slots

/-- The open files by number. -/
abbrev OpenFiles := Slots OpenFile

def OpenFiles.mapInode (files : OpenFiles) (f : Inode → Inode) : OpenFiles :=
  files.mapSome fun file => { file with inode := f file.inode }

structure Process where
  shim : Shim
  disk : Fs
  files : OpenFiles

def Process.setFile (s : Process) (fd : Nat) (file : Option OpenFile) : Process :=
  { s with files := s.files.put fd file }

/-- Why a call of the process failed. -/
inductive Fault where
  /-- An error number of the shim. -/
  | errno (e : Errno)
  /-- The kernel's answer to the caller's own call. -/
  | real (kind : ErrorKind)
  /-- The kernel has no number left. -/
  | tooManyFiles
  /-- A host call of the shim failed; the caller sees its error number, `EIO` when it was the rename. -/
  | io (kind : ErrorKind)
  /-- The path leads out of every workspace: a call of libc. -/
  | outside
  deriving DecidableEq

abbrev ProcM := Fallible Fault Process

namespace Seen

/-- The file, which is no directory. -/
def content (v : Seen) : Except Fault (Posix.Info × Bytes) :=
  match v.found with
  | some found => .ok found
  | none => .error (.real .isADirectory)

/-- The file, if the descriptor may read. -/
def readable (v : Seen) : Except Fault (Posix.Info × Bytes) :=
  if v.canRead then v.content else .error (.errno .ebadf)

end Seen

section Calls

variable (g : ContentProvider) (roots : List Bytes) (root : Bytes) (strict : Bool) (cwd : Bytes)
  (pid : Int)

/-- A part that only the shim's own state matters to. -/
def hook {α : Type} (x : HookM α) : ProcM α :=
  zoom Process.shim (fun shim s => { s with shim := shim }) Fault.errno x

/-- A host call of the shim. -/
def host {α : Type} (x : HostM α) : ProcM α :=
  zoom Process.disk (fun disk s => { s with disk := disk }) Fault.io x

/-- The caller's own call, at the kernel. -/
def kernel {α : Type} (x : HostM α) : ProcM α :=
  zoom Process.disk (fun disk s => { s with disk := disk }) Fault.real x

/-! ## Paths of the host -/

/-- The components of a path without `..`. -/
def diskPath (path : Bytes) : Posix.Path :=
  (path.splitOn slash).filter fun c => c ≠ [] ∧ c ≠ [dot]

/-- The path does not end in `/` or `/.`, which ask for a directory. -/
def endsInName (path : Bytes) : Bool :=
  (path.splitOn slash).getLast?.any fun c => c ≠ [] ∧ c ≠ [dot]

/-- The names in a directory. -/
def childNames (disk : Fs) (d : Posix.Path) : List Bytes :=
  disk.support.filterMap fun q =>
    if q.dropLast = d ∧ q ≠ [] ∧ (disk.node q).isSome then q.getLast? else none

/-- `std::fs::read_dir`. -/
def readDirNames (disk : Fs) (p : Posix.Path) : Option (List Bytes) :=
  match disk.canonicalize p with
  | .ok d => if disk.isDir d then some (childNames disk d) else none
  | .error _ => none

/-! ## The kernel -/

/-- Open what stands at the real location `r`. -/
def openLocation (flags : OpenFlags) (r : Posix.Path) : HostM Posix.Path := do
  let disk ← get
  match disk.node r with
  | some (.dir ..) => throw .isADirectory
  | some _ =>
    if flags.creat && flags.excl then throw .alreadyExists
    else if flags.directory then throw .notADirectory
    else Posix.openReal ⟨false, false, flags.trunc⟩ r
  | none =>
    if disk.isDir r.dropLast then Posix.openReal ⟨flags.creat, false, flags.trunc⟩ r
    else throw .notFound

/-- `open(2)` with the caller's flags. A new file is created where a link leads. -/
def openNode (flags : OpenFlags) (p : Posix.Path) : HostM Posix.Path := do
  let l ← ofExcept (·.locate p)
  match (← get).node l with
  | some (.symlink ..) =>
    if flags.creat && flags.excl then throw .alreadyExists
    else if flags.nofollow then throw .filesystemLoop
    else do
      let r ← ofExcept fun disk => if flags.creat then disk.destination p else disk.canonicalize p
      openLocation flags r
  | _ => openLocation flags l

/-- The number is taken before the path is looked up. -/
def realOpen (flags : OpenFlags) (path : Bytes) : ProcM Nat := do
  let s ← get
  if s.shim.table.base ≤ s.files.free then throw .tooManyFiles
  else if !endsInName path && flags.creat then throw (.real .isADirectory)
  else do
    let l ← kernel (openNode { flags with directory := flags.directory || !endsInName path }
      (diskPath path))
    modify fun t => t.setFile s.files.free
      (some ⟨.named l, 0, !flags.wronly, flags.wronly || flags.rdwr⟩)
    return s.files.free

/-- The directory that a relative path starts in. -/
inductive At where
  | cwd
  | fd (n : Nat)
  deriving DecidableEq

/-- The caller's own call, whose path was resolved to `p`. The kernel has no directory of a virtual number. -/
def realOpenAt (at_ : At) (given : Bytes) (flags : OpenFlags) (p : Bytes) : ProcM Nat :=
  match at_ with
  | .cwd => realOpen flags p
  | .fd n => do
    if given.head? ≠ some slash ∧ (← get).shim.table.base ≤ n then throw (.errno .ebadf)
    else realOpen flags p

def requireFile (fd : Nat) : ProcM OpenFile := do
  match (← get).files.get? fd with
  | some file => return file
  | none => throw (.errno .ebadf)

/-- A call on a descriptor, from what it sees, and the offset after it. -/
def onFile {α : Type} (fd : Nat) (f : Seen → Except Fault (α × Nat)) : ProcM α := do
  let file ← requireFile fd
  match f (file.seen (← get).disk) with
  | .ok (a, offset) =>
    modify fun s => s.setFile fd (some { file with offset := offset })
    return a
  | .error e => throw e

def realRead (fd count : Nat) : ProcM Bytes :=
  onFile fd fun v => do
    let data := Posix.Stream.readAt (← v.readable).2 v.offset count
    return (data, v.offset + data.length)

def realPread (fd count : Nat) (offset : Int) : ProcM Bytes :=
  if offset < 0 then throw (.errno .einval)
  else onFile fd fun v => do
    return (Posix.Stream.readAt (← v.readable).2 offset.toNat count, v.offset)

def realLseek (fd : Nat) (offset : Int) (whence : Posix.Whence) : ProcM Nat :=
  onFile fd fun v => do
    let new := Posix.Stream.seekTo (← v.content).2 v.offset offset whence
    if 0 ≤ new ∧ new ≤ Posix.maxFileSize then return (new.toNat, new.toNat)
    else throw (.errno .einval)

/-- What `fstat` tells of a file of the disk. -/
structure RawStat where
  fileType : FileType
  mode : Nat
  mtime : Nat
  size : Nat
  deriving DecidableEq

def RawStat.ofNode (nd : Posix.Node) : RawStat where
  fileType := if nd.isDir then .directory else if nd.isSymlink then .symlink else .file
  mode := nd.info.mode
  mtime := nd.info.mtime
  size := nd.len

def realFstat (fd : Nat) : ProcM RawStat :=
  onFile fd fun v => do
    let found ← v.content
    return (⟨.file, found.1.mode, found.1.mtime, found.2.length⟩, v.offset)

/-- A descriptor of a file has no entries. -/
def realGetdents64 (fd : Nat) : ProcM Bytes := do
  let _ ← requireFile fd
  throw (.real .notADirectory)

def realClose (fd : Nat) : ProcM Unit := do
  let _ ← requireFile fd
  modify fun s => s.setFile fd none

/-- A name of the disk is removed; a failure is ignored. -/
def Process.unlink (s : Process) (p : Posix.Path) : Process :=
  match s.disk.locate p, exec (Posix.removeFile p) s.disk with
  | .ok l, (.ok (), disk) => { s with disk := disk, files := s.files.mapInode (.detach s.disk l) }
  | _, _ => s

/-- A rename that succeeded left `disk`: the file at the target loses its name, the source gets it. -/
def Process.renamed (s : Process) (disk : Fs) (source target : Posix.Path) : Process :=
  match s.disk.locate source, s.disk.locate target with
  | .ok src, .ok dst =>
    if src = dst then s
    else { s with
      disk := disk
      files := (s.files.mapInode (.detach s.disk dst)).mapInode (.move src dst) }
  | _, _ => s

/-- `std::fs::rename` of a file: the target must not ask for a directory. -/
def renameBytes (source target : Bytes) : ProcM Unit := do
  let s ← get
  if !endsInName target then throw (.io .notADirectory)
  else
    match exec (Posix.rename (diskPath source) (diskPath target)) s.disk with
    | (.ok (), disk) => set (s.renamed disk (diskPath source) (diskPath target))
    | (.error e, _) => throw (.io e)

/-! ## Writing -/

/-- Remove `<name>.kin_tmp_*` in the directory of the path. -/
def cleanupStaleTemps (path : Bytes) (s : Process) : Process :=
  match (diskPath path).getLast?, readDirNames s.disk (diskPath path).dropLast with
  | some name, some entries =>
    ((entries.filter (name ++ tempMarker).isPrefixOf).map ((diskPath path).dropLast ++ [·])).foldl
      Process.unlink s
  | _, _ => s

/-- `create_dir_all` of the parent, if there is one. -/
def makeParent (path : Bytes) : HostM Unit :=
  if diskPath path = [] then pure () else Posix.createDirAll (diskPath path).dropLast

/-- Seed a temp file from the graph; `none` when the graph has no entry. -/
def materializeFile (path : Bytes) : ProcM (Option Bytes) := do
  modify (cleanupStaleTemps path)
  match ← hook (callGraph (graphReadFile g roots) path) with
  | none =>
    let failure := (← get).shim.last.failure
    if failure = .notFound then return none
    else throw (.errno (graphFailureErrno strict failure))
  | some content =>
    host (makeParent path)
    host (Posix.writeWhole (diskPath (atomicTempPath path pid)) content)
    return some (atomicTempPath path pid)

def trackWrite (fd : Nat) (path : Bytes) : ProcM Unit :=
  modify fun s => { s with shim := { s.shim with table := s.shim.table.trackWrite fd path } }

def trackAtomicWrite (fd : Nat) (path temp : Bytes) : ProcM Unit :=
  modify fun s => { s with shim := { s.shim with
    table := (s.shim.table.trackWrite fd path).trackAtomicWrite fd path temp } }

/-- `open` and `openat` of a workspace path with write flags. -/
def openWrite (at_ : At) (given : Bytes) (flags : OpenFlags) (path : Bytes) : ProcM Nat := do
  match ← materializeFile g roots strict pid path with
  | some temp =>
    let fd ← realOpen flags temp
    trackAtomicWrite fd path temp
    return fd
  | none =>
    if !flags.creat then throw (.errno (graphMissErrno strict))
    else do
      -- A new file at the projection boundary.
      let fd ← realOpenAt at_ given flags path
      trackWrite fd path
      return fd

/-- The virtual descriptor is gone. -/
def Process.closeVirtual (s : Process) (fd : Nat) : Process :=
  { s with shim := { s.shim with table := (s.shim.table.close fd).2 } }

/-- The writes of the descriptor are no longer tracked. -/
def Process.untrack (s : Process) (fd : Nat) : Process :=
  { s with shim := { s.shim with table := (s.shim.table.closeAtomicWrite fd).2.closeWrite fd |>.2 } }

def close (fd : Nat) : ProcM Unit := do
  let s ← get
  if s.shim.table.base ≤ fd ∧ (s.shim.table.close fd).1 then set (s.closeVirtual fd)
  else do
    set (s.untrack fd)
    realClose fd
    match (s.shim.table.closeAtomicWrite fd).1 with
    | some entry => renameBytes entry.tempPath entry.targetPath
    | none => return ()

/-! ## The path argument -/

def resolveHostPathFrom (s : Process) (path : Bytes) (base : Option Bytes) : HostPathResolution :=
  resolveHostPathFromWith s.disk path base (isWorkspacePath roots)

/-- The directory that the path starts in, none for an absolute one; `none` for a bad descriptor. -/
def atBase (s : Process) (at_ : At) (path : Bytes) : Option (Option Bytes) :=
  if path.head? = some slash then some none
  else
    match at_ with
    | .cwd => some (some cwd)
    | .fd n =>
      if s.shim.table.base ≤ n then (s.shim.table.map[n]?).map fun handle => some handle.path
      else (s.files.get? n).map fun file => some file.inode.procLink

def resolveAtPath (s : Process) (at_ : At) (path : Bytes) : HostPathResolution :=
  match atBase cwd s at_ path with
  | some base => resolveHostPathFrom roots s path base
  | none => .invalidDescriptor

/-- `resolved_path_or_return!`, and the workspace test: the hook answers for a workspace path, the kernel
for another. -/
def withPath {α : Type} (at_ : At) (path : Bytes) (answer realCall : Bytes → ProcM α) : ProcM α := do
  match resolveAtPath roots cwd (← get) at_ path with
  | .resolved p => if isWorkspacePath roots p then answer p else realCall p
  | .passthrough => throw .outside
  | .refused => throw (.errno .eio)
  | .invalidDescriptor => throw (.errno .ebadf)

/-! ## The hooks -/

/-- `open` and `openat`. -/
def openAt (at_ : At) (path : Bytes) (flags : OpenFlags) : ProcM Nat :=
  withPath roots cwd at_ path
    (fun p =>
      if isWriteFlags flags then openWrite g roots strict pid at_ path flags p
      else hook (openRead g roots root strict flags p))
    (fun p => realOpenAt at_ path flags p)

/-- The bytes of a record, least significant first. -/
def littleEndian (width n : Nat) : Bytes := (MsgPack.bigEndian width n).reverse

/-- The length of a record: aligned to 8 bytes. -/
def direntLength (entry : DirEntryRaw) : Nat := (19 + (entry.name.length + 1) + 7) / 8 * 8

/-- A `linux_dirent64`; `next` is its `d_off`. -/
def dirent (entry : DirEntryRaw) (next : Nat) : Bytes :=
  littleEndian 8 entry.dIno.toNat ++ littleEndian 8 next ++ littleEndian 2 (direntLength entry) ++
    [UInt8.ofNat entry.dType] ++ entry.name ++
    List.replicate (direntLength entry - (19 + entry.name.length)) 0

/-- The loop of `pack_getdents64` over the entries that are left: the records that fit, and the offset
after them. -/
def packGetdents64 (bufSize : Nat) : Nat → Nat → List DirEntryRaw → Bytes × Nat
  | offset, _, [] => ([], offset)
  | offset, written, entry :: entries =>
    if bufSize < written + direntLength entry then ([], offset)
    else
      let rest := packGetdents64 bufSize (offset + 1) (written + direntLength entry) entries
      (dirent entry (offset + 1) ++ rest.1, rest.2)

/-- `getdents64` of a virtual descriptor; the kernel has none of that number. -/
def getdents64 (fd bufSize : Nat) : HookM Bytes := do
  let s ← get
  match s.table.map[fd]? with
  | some handle =>
    if handle.isDirectory then
      match handle.dirEntries with
      | some entries =>
        let packed := packGetdents64 bufSize handle.dirOffset 0 (entries.drop handle.dirOffset)
        set { s with table := s.table.setHandle fd { handle with dirOffset := packed.2 } }
        return packed.1
      | none => return []
    else throw .ebadf
  | none => throw .ebadf

inductive SysCall where
  | «open» (path : Bytes) (flags : OpenFlags)
  | openat (dir : At) (path : Bytes) (flags : OpenFlags)
  | read (fd count : Nat)
  | pread (fd count : Nat) (offset : Int)
  | lseek (fd : Nat) (offset : Int) (whence : Posix.Whence)
  | fstat (fd : Nat)
  | stat (path : Bytes)
  | lstat (path : Bytes)
  | access (path : Bytes) (mode : AccessMode)
  | readlink (path : Bytes) (bufsiz : Nat)
  | getdents64 (fd bufSize : Nat)
  | close (fd : Nat)

inductive Reply where
  | fd (n : Nat)
  | bytes (data : Bytes)
  | offset (n : Nat)
  | stat (buf : StatBuf)
  | rawStat (buf : RawStat)
  | done
  deriving DecidableEq

/-- A descriptor below the base is the kernel's. -/
def onFd {α : Type} (fd : Nat) (virtual : HookM α) (realCall : ProcM α) : ProcM α := do
  if fd < (← get).shim.table.base then realCall else hook virtual

/-- A question to the kernel about a path. -/
def askDisk {α : Type} (f : Fs → Except ErrorKind α) : ProcM α := kernel (ofExcept f)

/-- The node that a path leads to. -/
def diskNode (path : Bytes) (disk : Fs) : Except ErrorKind Posix.Node := do
  let l ← disk.canonicalize (diskPath path)
  match disk.node l with
  | some nd => .ok nd
  | none => .error .notFound

def syscall : SysCall → ProcM Reply
  | .open path flags => return .fd (← openAt g roots root strict cwd pid .cwd path flags)
  | .openat dir path flags => return .fd (← openAt g roots root strict cwd pid dir path flags)
  | .read fd count => return .bytes (← onFd fd (read g roots g fd count) (realRead fd count))
  | .pread fd count offset =>
    return .bytes (← onFd fd (pread g roots g fd count offset) (realPread fd count offset))
  | .lseek fd offset whence =>
    return .offset (← onFd fd (lseek fd offset whence) (realLseek fd offset whence))
  | .fstat fd =>
    onFd fd (do return .stat (← fstat g roots fd)) (do return .rawStat (← realFstat fd))
  | .stat path =>
    withPath roots cwd .cwd path
      (fun p => do return .stat (← hook (stat g roots root strict p)))
      (fun p => do return .rawStat (.ofNode (← askDisk (diskNode p))))
  | .lstat path =>
    withPath roots cwd .cwd path
      (fun p => do return .stat (← hook (lstat g roots strict p)))
      (fun p => do return .rawStat (.ofNode (← askDisk (·.lstat (diskPath p)))))
  | .access path mode =>
    withPath roots cwd .cwd path
      (fun p => do hook (access g roots root strict p mode); return .done)
      (fun p => do let _ ← askDisk (diskNode p); return .done)
  | .readlink path bufsiz =>
    withPath roots cwd .cwd path
      (fun p => do return .bytes (← hook (readlink g roots strict p bufsiz)))
      (fun p => do return .bytes ((← askDisk (·.readLink (diskPath p))).take bufsiz))
  | .getdents64 fd bufSize => return .bytes (← onFd fd (getdents64 fd bufSize) (realGetdents64 fd))
  | .close fd => do
    close fd
    return .done

/-- The replies to the calls, one after the other, and the process after them. -/
def runSysCalls : Process → List SysCall → List (Except Fault Reply) × Process
  | s, [] => ([], s)
  | s, call :: calls =>
    let r := exec (syscall g roots root strict cwd pid call) s
    let rest := runSysCalls r.2 calls
    (r.1 :: rest.1, rest.2)

end Calls
end KinVfs
