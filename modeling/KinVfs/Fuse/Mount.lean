import KinVfs.Daemon.Presence
import KinVfs.Fuse.Write

/-!
# The operations of the FUSE mount (`crates/kin-vfs-fuse/src/filesystem.rs`, `write.rs`)

`lookup`, `getattr` and `readdir` answer from the graph and from the directories this mount made; `unlink`,
`rename`, `create`, ... change the projection surface and then wait until the provider reports what is there.
A removal or a rename that the graph does not take is undone: the removed file is written again from the
graph's copy, and the moved entry is moved back.
-/

namespace KinVfs.Fuse

open Posix (Fs HostM)
open Fallible

namespace WorkspaceWriter

variable (root : Posix.Path)

/-- The directory entry `path` names, its parents resolved. -/
def entryPath (fs : Fs) (path : VfsPath) : VfsResult Posix.Path :=
  match checkLexical root path with
  | .error e => .error e
  | .ok () => containedEntry fs root path

def createFile (umask : Nat) (path : VfsPath) (mode : Nat) : DiskM Unit := do
  let real ← ofExcept (realPath root · path)
  createParent real
  let _ ← io (openWithMode umask ⟨false, true, false⟩ mode real)

/-- The file is opened for writing and flushed to the disk. -/
def sync (path : VfsPath) : DiskM Unit := do
  let real ← ofExcept (realPath root · path)
  let _ ← io (Posix.openFile ⟨false, false, false⟩ real)

def removeFile (path : VfsPath) : DiskM Unit := do
  let real ← ofExcept (entryPath root · path)
  io (Posix.removeFile real)

def createDir (path : VfsPath) : DiskM Unit := do
  let real ← ofExcept (realPath root · path)
  io (Posix.mkdir real)

def removeDir (path : VfsPath) : DiskM Unit := do
  let real ← ofExcept (entryPath root · path)
  io (Posix.removeDir real)

def rename (src dst : VfsPath) : DiskM Unit := do
  let source ← ofExcept (entryPath root · src)
  let destination ← ofExcept (entryPath root · dst)
  createParent destination
  io (Posix.rename source destination)

end WorkspaceWriter

/-! ## Questions -/

/-- The child of a parent inode that the kernel names by raw bytes. -/
def KinFuseFs.childOf (m : KinFuseFs) (parent : Nat) (name : Bytes) : Except Errno VfsPath :=
  match VfsName.fromBytes name with
  | .error _ => .error .inval
  | .ok component =>
    match m.inodes.childPath parent component with
    | some path => .ok path
    | none => .error .noent

def KinFuseFs.pathFor (m : KinFuseFs) (ino : Nat) : Except Errno VfsPath :=
  match m.inodes.getPath ino with
  | some path => .ok path
  | none => .error .noent

def lookup (answers : Answers) (parent : Nat) (name : Bytes) : MountM FileAttr := do
  let path ← ofExcept (·.childOf parent name)
  attrForPath answers path

def getattr (answers : Answers) (ino : Nat) : MountM FileAttr := do
  let path ← ofExcept (·.pathFor ino)
  attrForPath answers path

/-- The kinds a listing shows; a nested repository is shown as a directory. -/
def fuseFileType : FileType → FileType
  | .gitlink => .directory
  | t => t

/-- The directories this mount made right below `path`, without those the graph lists. -/
def freshDirs (made : List VfsPath) (path : VfsPath) (listed : List Bytes) : List VfsPath :=
  (made.filter fun candidate => candidate.parent = some path).filter fun candidate =>
    match candidate.fileName with
    | some name => !listed.contains name
    | none => false

/-- The graph's listing; a directory this mount made may not be in the graph. -/
def listingOf (listing : VfsResult (List DirEntry)) (path : VfsPath) : MountM (List DirEntry) := do
  match listing with
  | .ok entries => pure entries
  | .error e => if (← get).pendingDirs path then pure [] else throw (vfsErrorToErrno e)

/-- The entries of a directory after `.` and `..`: the graph's, then the directories this mount made that
the graph did not list. `made` is the pending set in the order of its iteration. -/
def readdir (listing : VfsResult (List DirEntry)) (made : List VfsPath) (ino : Nat) :
    MountM (List (Bytes × FileType)) := do
  let path ← ofExcept (·.pathFor ino)
  let entries ← listingOf listing path
  entries.forM fun entry => discard (inodeOf (path.join entry.name))
  let fresh := freshDirs made path (entries.map (·.name.bytes))
  fresh.forM fun candidate => discard (inodeOf candidate)
  pure ((entries.map fun entry => (entry.name.bytes, fuseFileType entry.fileType)) ++
    fresh.map fun candidate => (candidate.fileName.getD [], .directory))

/-! ## Handles -/

/-- `allocate_handle`. -/
def allocateHandle (path : VfsPath) (writable : Bool) : MountM Nat := do
  let m ← get
  set { m with
    handles := fun f => if f = m.nextFh then some ⟨path, writable, false⟩ else m.handles f
    nextFh := m.nextFh + 1 }
  pure m.nextFh

section Operations

variable (sha256 : Bytes → Hash256) (answers : Answers)

/-- The artifact can be opened: the graph has a file, or a writable open finds the projection file. -/
def checkOpen (path : VfsPath) (writer : Option Posix.Path) : MountM Unit := do
  let m ← get
  match answers.stat with
  | .ok stat =>
    if stat.isFile then pure ()
    else throw (if stat.isDir then .isdir else .noent)
  | .error e =>
    if writer.any (WorkspaceWriter.exists_ · m.host path) then pure () else throw (vfsErrorToErrno e)

def openFile (ino : Nat) (wantsWrite : Bool) : MountM Nat := do
  let writer ← (if wantsWrite then some <$> getWriter else pure none : MountM (Option Posix.Path))
  let path ← ofExcept (·.pathFor ino)
  checkOpen answers path writer
  (match writer with
    | some root => materializeForWrite answers root path
    | none => pure () : MountM Unit)
  allocateHandle path wantsWrite

/-- `handle.dirty = false`. -/
def KinFuseFs.clearDirty (fh : Nat) (m : KinFuseFs) : KinFuseFs :=
  { m with handles := fun f => if f = fh then (m.handles f).map ({ · with dirty := false }) else m.handles f }

/-- The bytes reach the disk, then the graph. -/
def settle (root : Posix.Path) (path : VfsPath) : MountM Unit := do
  disk (WorkspaceWriter.sync root path)
  converge sha256 answers root path

def flush (fh : Nat) : MountM Unit := do
  let m ← get
  match m.writer, m.handles fh with
  | some root, some handle =>
    if handle.dirty then do
      settle sha256 answers root handle.path
      modify (·.clearDirty fh)
    else pure ()
  | _, _ => pure ()

/-- The path an `fsync` is of. -/
def KinFuseFs.syncPath (m : KinFuseFs) (ino fh : Nat) : Except Errno VfsPath :=
  match m.handles fh with
  | some handle => .ok handle.path
  | none => m.pathFor ino

def fsync (ino fh : Nat) : MountM Unit := do
  let m ← get
  match m.writer with
  | none => pure ()
  | some root => do
    let path ← ofExcept (·.syncPath ino fh)
    settle sha256 answers root path
    modify (·.clearDirty fh)

/-- The reply of a release is discarded by the kernel. -/
def release (fh : Nat) : MountM Unit := do
  let m ← get
  set { m with handles := fun f => if f = fh then none else m.handles f }
  match m.writer, m.handles fh with
  | some root, some handle =>
    if handle.dirty then do
      orElse (disk (WorkspaceWriter.sync root handle.path)) fun _ => pure ()
      orElse (converge sha256 answers root handle.path) fun _ => pure ()
    else pure ()
  | _, _ => pure ()

/-! ## Changes of the namespace -/

/-- `create`: the file, its attributes and its handle. The graph may not have the empty file yet. -/
def create (parent : Nat) (name : Bytes) (mode : Nat) : MountM (FileAttr × Nat) := do
  let root ← getWriter
  let path ← ofExcept (·.childOf parent name)
  let m ← get
  disk (WorkspaceWriter.createFile root m.umask path (mode &&& 0o7777))
  converge sha256 answers root path
  let ino ← inodeOf path
  let fh ← allocateHandle path true
  pure (⟨ino, answers.attr.toOption⟩, fh)

def mkdir (parent : Nat) (name : Bytes) : MountM FileAttr := do
  let root ← getWriter
  let path ← ofExcept (·.childOf parent name)
  disk (WorkspaceWriter.createDir root path)
  let ino ← inodeOf path
  modify fun m => { m with pendingDirs := fun p => decide (p = path) || m.pendingDirs p }
  pure ⟨ino, none⟩

/-- The graph's copy of a file that is about to go: its body and its mode. -/
def Answers.restorable (answers : Answers) : Option (Bytes × Nat) :=
  match answers.stat with
  | .ok stat => if stat.isFile then answers.readFile.toOption.map (·, stat.mode) else none
  | .error _ => none

/-- The undoing of a removal. -/
def putBack (root : Posix.Path) (path : VfsPath) : Option (Bytes × Nat) → MountM Unit
  | some (body, mode) => do
    let m ← get
    disk (WorkspaceWriter.materialize root m.umask path body mode)
  | none => pure ()

def unlink (parent : Nat) (name : Bytes) : MountM Unit := do
  let root ← getWriter
  let path ← ofExcept (·.childOf parent name)
  disk (WorkspaceWriter.removeFile root path)
  orElse (converge sha256 answers root path) fun errno => do
    orElse (putBack root path answers.restorable) fun _ => pure ()
    throw errno

def rmdir (parent : Nat) (name : Bytes) : MountM Unit := do
  let root ← getWriter
  let path ← ofExcept (·.childOf parent name)
  disk (WorkspaceWriter.removeDir root path)
  modify fun m => { m with pendingDirs := fun p => decide (p ≠ path) && m.pendingDirs p }

/-- `if pending.remove(&src) { pending.insert(dst) }`. -/
def KinFuseFs.movePending (src dst : VfsPath) (m : KinFuseFs) : KinFuseFs :=
  if m.pendingDirs src then
    { m with pendingDirs := fun p => decide (p = dst) || (decide (p ≠ src) && m.pendingDirs p) }
  else m

/-- The entry moves on the projection surface, and so does its place in the pending set. -/
def moveEntry (root : Posix.Path) (src dst : VfsPath) : MountM Unit := do
  disk (WorkspaceWriter.rename root src dst)
  modify (·.movePending src dst)

/-- The graph has to take both halves of a rename. -/
def convergeBoth (root : Posix.Path) (src dst : VfsPath) : MountM Unit := do
  converge sha256 answers root src
  converge sha256 { answers with polls := answers.pollsTo } root dst

def rename (parent : Nat) (name : Bytes) (newparent : Nat) (newname : Bytes) : MountM Unit := do
  let root ← getWriter
  let src ← ofExcept (·.childOf parent name)
  let dst ← ofExcept (·.childOf newparent newname)
  moveEntry root src dst
  orElse (convergeBoth sha256 answers root src dst) fun errno => do
    orElse (moveEntry root dst src) fun _ => pure ()
    throw errno

end Operations

/-! ## What the operations do -/

variable {sha256 : Bytes → Hash256} {answers : Answers} {m m' : KinFuseFs} {fs fs' : Fs}
  {root e h : Posix.Path} {p q : VfsPath} {parent newparent : Nat} {name newname : Bytes}

/-- A writable mount over a canonical root. -/
structure Mounted (m : KinFuseFs) (root : Posix.Path) : Prop where
  writer : m.writer = some root
  plain : WorkspaceWriter.parentDir ∉ root

theorem childOf_ok (hp : m.childOf parent name = .ok p) :
    ∃ q n, m.inodes.getPath parent = some q ∧ n.bytes = name ∧ p = q.join n := by
  unfold KinFuseFs.childOf at hp
  cases hn : VfsName.fromBytes name with
  | error e =>
    rw [hn] at hp
    cases hp
  | ok n =>
    rw [hn] at hp
    cases hq : m.inodes.getPath parent with
    | none =>
      simp [InodeTable.childPath, hq] at hp
    | some q =>
      simp only [InodeTable.childPath, hq, Option.map_some, Except.ok.injEq] at hp
      exact ⟨q, n, rfl, VfsName.fromBytes_ok.mp hn, hp.symm⟩

namespace WorkspaceWriter

theorem checkLexical_join (hroot : parentDir ∉ root) (p : VfsPath) (n : VfsName) :
    checkLexical root (p.join n) = .ok () := by
  have hne : (p.join n).isRoot = false := by
    rw [Bool.eq_false_iff]
    intro h
    have hnil : (p.join n).components = [] := by
      rw [VfsPath.components_eq_nil]
      exact VfsPath.ext (List.isEmpty_iff.mp h)
    rw [VfsPath.components_join] at hnil
    simp at hnil
  have hclean : (root ++ (p.join n).components).contains parentDir = false := by
    rw [Bool.eq_false_iff]
    intro h
    rcases List.mem_append.mp (List.contains_iff_mem.mp h) with hin | hin
    · exact hroot hin
    · exact absurd (VfsPath.isComponent hin).1 (by decide)
  have hpre : root.isPrefixOf (root ++ (p.join n).components) = true :=
    List.isPrefixOf_iff_prefix.mpr (List.prefix_append _ _)
  unfold checkLexical
  rw [if_neg (by rw [hne]; simp)]
  dsimp only
  rw [if_neg (by rw [hclean]; simp), if_neg (by rw [hpre]; simp)]

theorem entryPath_of_lexical (hl : checkLexical root p = .ok ()) :
    entryPath root fs p = containedEntry fs root p := by
  unfold entryPath
  rw [hl]

theorem realPath_of_lexical (hl : checkLexical root p = .ok ()) :
    realPath root fs p = containedTarget fs root p := by
  unfold realPath
  rw [hl]

end WorkspaceWriter

theorem Mounted.lexical (hm : Mounted m root) (hp : m.childOf parent name = .ok p) :
    WorkspaceWriter.checkLexical root p = .ok () := by
  obtain ⟨q, n, -, -, rfl⟩ := childOf_ok hp
  exact WorkspaceWriter.checkLexical_join hm.plain q n

@[simp] theorem exec_disk {α : Type} (x : DiskM α) (m : KinFuseFs) :
    exec (disk x) m = (match (exec x m.host).1 with
      | .ok a => .ok a
      | .error e => .error (vfsErrorToErrno e), { m with host := (exec x m.host).2 }) := by
  unfold disk
  rw [exec_zoom]
  rcases exec x m.host with ⟨_ | _, _⟩ <;> rfl

theorem exec_getWriter (hw : m.writer = some root) : exec getWriter m = (.ok root, m) := by
  simp [getWriter, exec_bind, hw]

/-- The outcome of a wait: what it waits for is fixed by the surface. -/
def taken (sha256 : Bytes → Hash256) (answers : Answers) (root : Posix.Path) (path : VfsPath) (fs : Fs) :
    Except Errno Unit :=
  match expectation sha256 root path fs with
  | .error e => .error e
  | .ok expected => if answers.polls.any expected.met then .ok () else .error .io

/-- The outcome of the two waits of a rename. -/
def takenBoth (sha256 : Bytes → Hash256) (answers : Answers) (root : Posix.Path) (src dst : VfsPath)
    (fs : Fs) : Except Errno Unit :=
  match taken sha256 answers root src fs with
  | .error e => .error e
  | .ok () => taken sha256 { answers with polls := answers.pollsTo } root dst fs

/-- A path that is refused counts as absent. -/
theorem expectation_refused {err : VfsError} (hr : WorkspaceWriter.realPath root fs p = .error err) :
    expectation sha256 root p fs = .ok .absent := by
  simp [expectation, WorkspaceWriter.exists_, hr]

/-- What is waited for, by what the path leads to. -/
theorem expectation_landed (hr : WorkspaceWriter.realPath root fs p = .ok h) :
    expectation sha256 root p fs =
      match fs.shape h with
      | none => .ok .absent
      | some (.file c) => .ok (.holds (sha256 c))
      | some _ => .error .isdir := by
  obtain ⟨hc, hl⟩ := containedTarget_landed (WorkspaceWriter.realPath_ok.mp hr).2
  have hcan := Fs.canonicalize_clear hc hl
  cases hs : fs.shape h with
  | none =>
    rw [if_pos hs] at hcan
    simp [expectation, WorkspaceWriter.exists_, hr, WorkspaceWriter.pathExists, hcan, Except.toOption]
  | some sh =>
    rw [if_neg (by simp [hs])] at hcan
    have hex : WorkspaceWriter.exists_ root fs p = true := by
      simp [WorkspaceWriter.exists_, hr, WorkspaceWriter.pathExists, hcan, Except.toOption]
    unfold expectation
    rw [if_pos hex, hr]
    cases sh with
    | file c => simp [Posix.readFile_of_file hs]
    | dir =>
      obtain ⟨i, k, hn⟩ := Fs.isDir_iff.mp (Fs.shape_eq_dir.mp hs)
      simp [Fs.readFile, hcan, hn, vfsErrorToErrno, rawOsError]
    | symlink t => exact absurd hs (hl t)

theorem exec_converge :
    exec (converge sha256 answers root p) m = (taken sha256 answers root p m.host, m) := by
  unfold converge taken
  rw [exec_bind, exec_ofExcept]
  cases expectation sha256 root p m.host with
  | error e => rfl
  | ok expected =>
    dsimp only
    split <;> rfl

theorem exec_convergeBoth :
    exec (convergeBoth sha256 answers root p q) m = (takenBoth sha256 answers root p q m.host, m) := by
  unfold convergeBoth takenBoth
  rw [exec_bind, exec_converge]
  cases taken sha256 answers root p m.host with
  | error e => rfl
  | ok u =>
    dsimp only
    rw [exec_converge]

/-- An undoing whose own failure is only logged. -/
theorem exec_undo {x : MountM Unit} {errno : Errno} :
    exec (do orElse x (fun _ => pure ()); throw errno : MountM Unit) m = (.error errno, (exec x m).2) := by
  rw [exec_bind, exec_orElse]
  rcases exec x m with ⟨e | u, m'⟩ <;> rfl

/-- A file is removed, and put back when the graph does not take that. -/
theorem exec_unlink (hm : Mounted m root) (hp : m.childOf parent name = .ok p) :
    exec (unlink sha256 answers parent name) m =
      match exec (WorkspaceWriter.removeFile root p) m.host with
      | (.error e, fs) => (.error (vfsErrorToErrno e), { m with host := fs })
      | (.ok _, fs) =>
        match taken sha256 answers root p fs with
        | .ok _ => (.ok (), { m with host := fs })
        | .error errno =>
          (.error errno, (exec (putBack root p answers.restorable) { m with host := fs }).2) := by
  unfold unlink
  simp only [exec_bind, exec_getWriter hm.writer, exec_ofExcept, hp, exec_disk]
  rcases exec (WorkspaceWriter.removeFile root p) m.host with ⟨e | u, fs⟩
  · rfl
  · dsimp only
    rw [exec_orElse, exec_converge]
    dsimp only
    cases taken sha256 answers root p fs with
    | ok u => rfl
    | error errno =>
      dsimp only
      rw [exec_undo]

@[simp] theorem host_movePending : (m.movePending p q).host = m.host := by
  unfold KinFuseFs.movePending
  split <;> rfl

theorem exec_moveEntry :
    exec (moveEntry root p q) m =
      match exec (WorkspaceWriter.rename root p q) m.host with
      | (.error e, fs) => (.error (vfsErrorToErrno e), { m with host := fs })
      | (.ok _, fs) => (.ok (), { m with host := fs }.movePending p q) := by
  unfold moveEntry
  rw [exec_bind, exec_disk]
  rcases exec (WorkspaceWriter.rename root p q) m.host with ⟨e | u, fs⟩ <;> rfl

/-- An entry is moved, and moved back when the graph does not take that. -/
theorem exec_rename (hm : Mounted m root) (hp : m.childOf parent name = .ok p)
    (hq : m.childOf newparent newname = .ok q) :
    exec (rename sha256 answers parent name newparent newname) m =
      match exec (WorkspaceWriter.rename root p q) m.host with
      | (.error e, fs) => (.error (vfsErrorToErrno e), { m with host := fs })
      | (.ok _, fs) =>
        match takenBoth sha256 answers root p q fs with
        | .ok _ => (.ok (), { m with host := fs }.movePending p q)
        | .error errno =>
          (.error errno, (exec (moveEntry root q p) ({ m with host := fs }.movePending p q)).2) := by
  unfold rename
  simp only [exec_bind, exec_getWriter hm.writer, exec_ofExcept, hp, hq]
  rw [exec_moveEntry]
  rcases exec (WorkspaceWriter.rename root p q) m.host with ⟨e | u, fs⟩
  · rfl
  · dsimp only
    rw [exec_orElse, exec_convergeBoth, host_movePending]
    dsimp only
    cases takenBoth sha256 answers root p q fs with
    | ok u => rfl
    | error errno =>
      dsimp only
      rw [exec_undo]

namespace Sample

/-- The mount of `/w` with the one-byte file `a` checked out. -/
def checkedOut : KinFuseFs :=
  { mount with host := mount.host.addEntry [[119], [97]] (.file ⟨0o644, 0⟩ [1]) }

theorem checkedOut_mounted : Mounted checkedOut [[119]] := ⟨rfl, by decide⟩

end Sample

end KinVfs.Fuse
