import KinVfs.Daemon.DiskSpec

/-!
# Writing through the FUSE mount (`crates/kin-vfs-fuse/src/filesystem.rs`, `write.rs`)

A graph file may have no copy on the projection surface. Before a ranged write or a change of its size the
mount asks the provider for the file and writes its body there, so that the change is applied on top of it;
when the provider's `stat` fails the mount goes on as if the graph held no file, and the change lands in an
empty file (`change_lands_iff`).

What the provider answers is given call by call (`Answers`); a call that fails may succeed later.
-/

namespace KinVfs.Fuse

open Posix (Fs HostM)
open Fallible

/-- The error numbers of the replies. -/
inductive Errno where
  | rofs
  | inval
  | badf
  | noent
  | isdir
  | notdir
  | acces
  | notsup
  | io
  /-- Another number a host call failed with. -/
  | host (kind : Posix.ErrorKind)
  deriving DecidableEq

/-- `raw_os_error` of a failed host call. -/
def rawOsError : Posix.ErrorKind → Errno
  | .notFound => .noent
  | .isADirectory => .isdir
  | .notADirectory => .notdir
  | .invalidInput => .inval
  | kind => .host kind

/-- `vfs_error_to_errno`. -/
def vfsErrorToErrno : VfsError → Errno
  | .notFound _ => .noent
  | .isDirectory _ => .isdir
  | .notDirectory _ => .notdir
  | .permissionDenied _ => .acces
  | .invalidInput _ => .inval
  | .escapesRoot _ => .acces
  | .unsupportedRepositoryBoundary _ => .notsup
  | .io kind => rawOsError kind
  | .provider _ => .io

/-! ## The writer -/

namespace WorkspaceWriter

variable (root : Posix.Path)

def parentDir : Bytes := [46, 46]

/-- Every component of the joined path is a plain name, and the join stays under the root. -/
def checkLexical (path : VfsPath) : VfsResult Unit :=
  if path.isRoot then .error (.invalidInput path.display)
  else
    let joined := root ++ path.components
    if joined.contains parentDir then .error (.invalidInput path.display)
    else if !root.isPrefixOf joined then .error (.invalidInput path.display)
    else .ok ()

def realPath (fs : Fs) (path : VfsPath) : VfsResult Posix.Path :=
  match checkLexical root path with
  | .error e => .error e
  | .ok () => containedTarget fs root path

/-- `Path::exists`. -/
def pathExists (fs : Fs) (real : Posix.Path) : Bool := (fs.canonicalize real).toOption.isSome

def exists_ (fs : Fs) (path : VfsPath) : Bool :=
  match realPath root fs path with
  | .ok real => pathExists fs real
  | .error _ => false

/-- A node with other permission bits. -/
def withMode (mode : Nat) : Posix.Node → Posix.Node
  | .file i c => .file { i with mode := mode } c
  | .dir i k => .dir { i with mode := mode } k
  | .symlink i t => .symlink { i with mode := mode } t

/-- The permission bits of the entry at the real location `l` are set. -/
def setModeAt (l : Posix.Path) (mode : Nat) (fs : Fs) : Fs :=
  match fs.node l with
  | some nd => fs.setNode l (withMode mode nd)
  | none => fs

/-- The bits a new file gets when `mode` is asked for. -/
def creationMode (umask mode : Nat) : Nat := mode &&& 0o7777 &&& (0o7777 ^^^ (umask &&& 0o7777))

/-- `OpenOptions::mode(mode).open`: the mode is for a file that is made. -/
def openWithMode (umask : Nat) (o : Posix.OpenOptions) (mode : Nat) (real : Posix.Path) : HostM Posix.Path := do
  let before ← get
  let l ← Posix.openFile o real
  if (before.node l).isSome then pure l
  else do
    modify (setModeAt l (creationMode umask mode))
    pure l

/-- Ensure the projection file exists before a partial write touches it. -/
def materialize (umask : Nat) (path : VfsPath) (body : Bytes) (mode : Nat) : DiskM Unit := do
  let real ← ofExcept (realPath root · path)
  if pathExists (← get) real then pure ()
  else do
    createParent real
    let file ← io (openWithMode umask ⟨true, false, true⟩ mode real)
    io (Posix.writeFile file 0 body)

def writeAt (path : VfsPath) (offset : Nat) (data : Bytes) : DiskM Nat := do
  let real ← ofExcept (realPath root · path)
  let file ← io (Posix.openFile writeOptions real)
  io (Posix.writeFile file offset data)
  pure (data.length % 2 ^ 32)

def truncate (path : VfsPath) (size : Nat) : DiskM Unit := do
  let real ← ofExcept (realPath root · path)
  createParent real
  let file ← io (Posix.openFile writeOptions real)
  io (Posix.setFileLen file size)

/-- `set_permissions`. -/
def setPermissions (real : Posix.Path) (mode : Nat) : HostM Unit := do
  let l ← ofExcept (·.canonicalize real)
  modify (setModeAt l mode)

def chmod (path : VfsPath) (mode : Nat) : DiskM Unit := do
  let real ← ofExcept (realPath root · path)
  io (setPermissions real mode)

end WorkspaceWriter

/-! ## The mount -/

structure OpenHandle where
  path : VfsPath
  writable : Bool
  dirty : Bool

/-- `InodeTable` (`inode.rs`): a path gets its number when it is first asked for. -/
structure InodeTable where
  inoToPath : Nat → Option VfsPath
  pathToIno : VfsPath → Option Nat
  nextIno : Nat

def rootIno : Nat := 1

namespace InodeTable

def new : InodeTable where
  inoToPath i := if i = rootIno then some .root else none
  pathToIno p := if p = .root then some rootIno else none
  nextIno := 2

def getPath (t : InodeTable) (ino : Nat) : Option VfsPath := t.inoToPath ino

def getOrInsert (t : InodeTable) (path : VfsPath) : Nat × InodeTable :=
  match t.pathToIno path with
  | some ino => (ino, t)
  | none => (t.nextIno,
    { inoToPath := fun i => if i = t.nextIno then some path else t.inoToPath i
      pathToIno := fun p => if p = path then some t.nextIno else t.pathToIno p
      nextIno := t.nextIno + 1 })

/-- Both maps are emptied, the counter starts again, and the root is inserted. -/
def clear (_ : InodeTable) : InodeTable := new

def childPath (t : InodeTable) (parent : Nat) (name : VfsName) : Option VfsPath :=
  (t.getPath parent).map (·.join name)

end InodeTable

structure KinFuseFs where
  inodes : InodeTable
  /-- The root of the writer, absent on a read-only mount. -/
  writer : Option Posix.Path
  handles : Nat → Option OpenHandle
  /-- The next handle; zero is never issued. -/
  nextFh : Nat
  pendingDirs : VfsPath → Bool
  /-- The umask of the mount's process. -/
  umask : Nat
  /-- The projection surface. -/
  host : Fs

/-- What the provider answers in one operation. -/
structure Answers where
  stat : VfsResult VirtualStat
  readFile : VfsResult Bytes
  /-- The stats of `await_graph` up to its deadline. -/
  polls : List (VfsResult VirtualStat)
  /-- Those of the second wait, which a rename has. -/
  pollsTo : List (VfsResult VirtualStat) := []
  attr : VfsResult VirtualStat

abbrev MountM (α : Type) := Fallible Errno KinFuseFs α

/-- A call of the writer. -/
def disk {α : Type} (x : DiskM α) : MountM α :=
  zoom KinFuseFs.host (fun fs m => { m with host := fs }) vfsErrorToErrno x

/-- An answer of the provider. -/
def answer {α : Type} (a : VfsResult α) : MountM α :=
  match a with
  | .ok x => pure x
  | .error e => throw (vfsErrorToErrno e)

/-- What the graph must report for a path. -/
inductive Expectation where
  | holds (digest : Hash256)
  | absent

def Expectation.met : Expectation → VfsResult VirtualStat → Bool
  | .holds digest, .ok stat => stat.contentHash == some digest
  | .absent, .error (.notFound _) => true
  | _, _ => false

section Operations

variable (sha256 : Bytes → Hash256) (answers : Answers)

def getWriter : MountM Posix.Path := do
  match (← get).writer with
  | some root => pure root
  | none => throw .rofs

/-- Bring a graph artifact onto the projection surface. -/
def materializeForWrite (root : Posix.Path) (path : VfsPath) : MountM Unit := do
  if WorkspaceWriter.exists_ root (← get).host path then pure ()
  else
    match answers.stat with
    | .ok stat =>
      if stat.isFile then do
        let body ← answer answers.readFile
        disk (WorkspaceWriter.materialize root (← get).umask path body stat.mode)
      else pure ()
    | .error _ => pure ()

/-- What `converge` waits for: the digest of the projection file, or its absence. -/
def expectation (root : Posix.Path) (path : VfsPath) (fs : Fs) : Except Errno Expectation :=
  if WorkspaceWriter.exists_ root fs path then
    match WorkspaceWriter.realPath root fs path with
    | .error e => .error (vfsErrorToErrno e)
    | .ok real =>
      match fs.readFile real with
      | .error e => .error (vfsErrorToErrno (.io e))
      | .ok bytes => .ok (.holds (sha256 bytes))
  else .ok .absent

/-- `converge` and `await_graph`: some stat before the deadline is the expected one. -/
def converge (root : Posix.Path) (path : VfsPath) : MountM Unit := do
  let expected ← ofExcept fun m => expectation sha256 root path m.host
  if answers.polls.any expected.met then pure () else throw .io

/-- The path a write is of: the handle's, else the inode's. -/
def KinFuseFs.pathOf (m : KinFuseFs) (ino fh : Nat) : Except Errno VfsPath :=
  match m.handles fh with
  | some handle => if handle.writable then .ok handle.path else .error .badf
  | none =>
    match m.inodes.getPath ino with
    | some path => .ok path
    | none => .error .noent

/-- `handle.dirty = true`. -/
def KinFuseFs.markDirty (fh : Nat) (m : KinFuseFs) : KinFuseFs :=
  { m with handles := fun f => if f = fh then (m.handles f).map ({ · with dirty := true }) else m.handles f }

def write (ino fh : Nat) (offset : Int) (data : Bytes) : MountM Nat := do
  let root ← getWriter
  if offset < 0 then throw .inval
  else do
    let path ← ofExcept (·.pathOf ino fh)
    materializeForWrite answers root path
    let written ← disk (WorkspaceWriter.writeAt root path offset.toNat data)
    modify (·.markDirty fh)
    pure written

/-- What a reply says of an entry: its inode, and its stat unless it is a directory this mount made that
the graph does not hold. -/
structure FileAttr where
  ino : Nat
  stat : Option VirtualStat

/-- `self.inodes.lock().get_or_insert(path)`. -/
def inodeOf (path : VfsPath) : MountM Nat := do
  let m ← get
  set { m with inodes := (m.inodes.getOrInsert path).2 }
  pure (m.inodes.getOrInsert path).1

def attrForPath (path : VfsPath) : MountM FileAttr := do
  let m ← get
  match answers.attr with
  | .ok stat => do
    let ino ← inodeOf path
    pure ⟨ino, some stat⟩
  | .error e =>
    if vfsErrorToErrno e = .noent ∧ m.pendingDirs path = true then do
      let ino ← inodeOf path
      pure ⟨ino, none⟩
    else throw (vfsErrorToErrno e)

/-- The size, on top of the graph's body. -/
def setSize (root : Posix.Path) (path : VfsPath) : Option Nat → MountM Unit
  | some size => do
    materializeForWrite answers root path
    disk (WorkspaceWriter.truncate root path size)
  | none => pure ()

def setMode (root : Posix.Path) (path : VfsPath) : Option Nat → MountM Unit
  | some mode => disk (WorkspaceWriter.chmod root path (mode &&& 0o7777))
  | none => pure ()

def setattr (ino : Nat) (mode size : Option Nat) : MountM FileAttr := do
  let root ← getWriter
  let path ← ofExcept fun m => match m.inodes.getPath ino with
    | some path => .ok path
    | none => .error .noent
  setSize answers root path size
  setMode root path mode
  (if size.isSome || mode.isSome then converge sha256 answers root path else pure () : MountM Unit)
  attrForPath answers path

end Operations

/-! ## What the calls of the writer do -/

open Posix (openedContent OpenOptions)

variable {fs fs' : Fs} {root h : Posix.Path} {p : VfsPath} {c body data : Bytes} {offset size : Nat}

/-- The content of the projection file. -/
def projected (root : Posix.Path) (fs : Fs) (path : VfsPath) : Option Bytes :=
  match containedTarget fs root path with
  | .ok real => (fs.readFile real).toOption
  | .error _ => none

theorem projected_of_file (ht : containedTarget fs root p = .ok h) (hs : fs.shape h = some (.file c)) :
    projected root fs p = some c := by
  simp only [projected, ht, Posix.readFile_of_file hs]
  rfl

namespace WorkspaceWriter

theorem realPath_ok :
    realPath root fs p = .ok h ↔ checkLexical root p = .ok () ∧ containedTarget fs root p = .ok h := by
  unfold realPath
  cases checkLexical root p with
  | ok _ => simp
  | error e => simp

/-- A file without a copy: nothing is where the path leads. -/
theorem shape_of_absent (hx : exists_ root fs p = false) (hr : realPath root fs p = .ok h) :
    fs.shape h = none := by
  obtain ⟨hc, hl⟩ := containedTarget_landed (realPath_ok.mp hr).2
  by_contra hne
  simp only [exists_, hr, pathExists, Posix.Fs.canonicalize_clear hc hl, if_neg hne] at hx
  cases hx

/-- Opening a landed path whose directory is there. -/
theorem open_put {o : OpenOptions} {l : Posix.Path} (hl : Landed fs h)
    (hx : exec (Posix.openFile o h) fs = (.ok l, fs')) :
    l = h ∧ ∃ c, openedContent o (fs.shape h) = some c ∧ Put fs fs' h c := by
  rw [Posix.openFile_eq hl.1 hl.2] at hx
  split at hx
  · cases hx
  · rename_i hparent
    have hdir : fs.shape h.dropLast = some .dir := hl.1.parent.resolve_left hparent
    by_cases hh : h = []
    · subst hh
      obtain ⟨i, k, hn⟩ := Posix.Fs.isDir_iff.mp (Posix.Fs.shape_eq_dir.mp hdir)
      rw [List.dropLast_nil] at hn
      simp [Posix.openReal, exec_bind, hn] at hx
    · have hspec := Posix.openReal_spec (o := o) hh hdir
      cases hc : openedContent o (fs.shape h) with
      | some c =>
        rw [hc] at hspec
        obtain ⟨fs₁, hx₁, hw⟩ := hspec
        rw [hx] at hx₁
        cases hx₁
        exact ⟨rfl, c, rfl, put_of_wrote hh (Posix.Grown.refl_of_dir hdir) hw⟩
      | none =>
        rw [hc] at hspec
        obtain ⟨e, hx₁, -⟩ := hspec
        rw [hx] at hx₁
        cases hx₁

theorem writeFile_put {fs₁ : Fs} (hp : Put fs fs₁ h c)
    (hx : exec (Posix.writeFile h offset data) fs₁ = (.ok (), fs')) :
    Put fs fs' h (Content.overwrite c offset data) := by
  have hfile : fs₁.shape h = some (.file c) := by rw [hp, if_pos rfl]
  have hspec := Posix.writeFile_spec offset data hfile
  split at hspec
  · obtain ⟨fs₂, hx₂, hw⟩ := hspec
    rw [hx] at hx₂
    cases hx₂
    exact hp.wrote hw
  · obtain ⟨e, hx₂, -⟩ := hspec
    rw [hx] at hx₂
    cases hx₂

theorem setFileLen_put {fs₁ : Fs} (hp : Put fs fs₁ h c)
    (hx : exec (Posix.setFileLen h size) fs₁ = (.ok (), fs')) :
    Put fs fs' h (Content.resize c size) := by
  have hfile : fs₁.shape h = some (.file c) := by rw [hp, if_pos rfl]
  have hspec := Posix.setFileLen_spec (n := size) hfile
  split at hspec
  · obtain ⟨fs₂, hx₂, hw⟩ := hspec
    rw [hx] at hx₂
    cases hx₂
    exact hp.wrote hw
  · obtain ⟨e, hx₂, -⟩ := hspec
    rw [hx] at hx₂
    cases hx₂

/-- Creating the parents and opening a landed path, when both succeed. -/
theorem openUnder_put {o : OpenOptions} {l : Posix.Path} {fs₁ : Fs} (hl : Landed fs h)
    (hcr : (o.create || o.createNew) = true) (hx₁ : exec (createParent h) fs = (.ok (), fs₁))
    (hx₂ : exec (Posix.openFile o h) fs₁ = (.ok l, fs')) :
    l = h ∧ ∃ c, openedContent o (fs.shape h) = some c ∧ Put fs fs' h c := by
  have hspec := openUnder_spec hl hcr
  cases hc : openedContent o (fs.shape h) with
  | some c =>
    rw [hc] at hspec
    obtain ⟨-, fs₂, fs₃, hx₃, hx₄, hput⟩ := hspec
    rw [hx₁] at hx₃
    cases hx₃
    rw [hx₂] at hx₄
    cases hx₄
    exact ⟨rfl, c, rfl, hput⟩
  | none =>
    rw [hc] at hspec
    obtain ⟨-, e, fs₂, hx₃, hx₄, -⟩ := hspec
    rw [hx₁] at hx₃
    cases hx₃
    rw [hx₂] at hx₄
    cases hx₄

theorem overwrite_nil (body : Bytes) : Content.overwrite [] 0 body = body := by
  by_cases hb : body = []
  · simp [Content.overwrite, hb]
  · simp [Content.overwrite, hb]

/-- A call that works on the resolved path. -/
theorem real_of_ok {α : Type} {f : Posix.Path → DiskM α} {a : α}
    (hx : exec (ofExcept (realPath root · p) >>= f) fs = (.ok a, fs')) :
    ∃ h, realPath root fs p = .ok h ∧ Landed fs h ∧ exec (f h) fs = (.ok a, fs') := by
  obtain ⟨real, fs₁, hx₁, hx₂⟩ := exec_bind_ok.mp hx
  rw [exec_ofExcept] at hx₁
  obtain ⟨hr, rfl⟩ := Prod.mk.inj hx₁
  exact ⟨real, hr, containedTarget_landed (realPath_ok.mp hr).2, hx₂⟩

@[simp] theorem isDir_withMode (mode : Nat) (nd : Posix.Node) : (withMode mode nd).isDir = nd.isDir := by
  cases nd <;> rfl

@[simp] theorem shape_withMode (mode : Nat) (nd : Posix.Node) : (withMode mode nd).shape = nd.shape := by
  cases nd <;> rfl

theorem fits_withMode {mode : Nat} {nd : Posix.Node} {l : Posix.Path} (hn : fs.node l = some nd) :
    (withMode mode nd).fits = true := by
  cases nd with
  | file i c => exact fs.sized l (.file i c) hn
  | dir i k => rfl
  | symlink i t => rfl

theorem node_setModeAt (l : Posix.Path) (mode : Nat) (fs : Fs) (r : Posix.Path) :
    (setModeAt l mode fs).node r = if r = l then (fs.node l).map (withMode mode) else fs.node r := by
  unfold setModeAt
  cases hn : fs.node l with
  | none =>
    by_cases hr : r = l
    · simp [hr, hn]
    · simp [hr]
  | some nd =>
    dsimp only
    unfold Posix.Fs.setNode
    rw [dif_pos ⟨by simp [hn], fits_withMode hn⟩]
    rfl

/-- Permission bits are no content. -/
theorem setModeAt_same (l : Posix.Path) (mode : Nat) (fs : Fs) : Same fs (setModeAt l mode fs) := by
  intro r
  unfold Posix.Fs.shape
  rw [node_setModeAt]
  split
  · rename_i hr
    subst hr
    cases fs.node r <;> simp
  · rfl

theorem openWithMode_ok {umask mode : Nat} {o : OpenOptions} {l : Posix.Path}
    (hx : exec (openWithMode umask o mode h) fs = (.ok l, fs')) :
    ∃ fs₁, exec (Posix.openFile o h) fs = (.ok l, fs₁) ∧
      fs' = if (fs.node l).isSome then fs₁ else setModeAt l (creationMode umask mode) fs₁ := by
  unfold openWithMode at hx
  obtain ⟨_, fs₀, hx₀, hx⟩ := exec_bind_ok.mp hx
  cases hx₀
  obtain ⟨l', fs₁, hx₁, hx⟩ := exec_bind_ok.mp hx
  refine ⟨fs₁, ?_⟩
  split at hx
  · rename_i hsome
    cases hx
    exact ⟨hx₁, by rw [if_pos hsome]⟩
  · rename_i hnone
    obtain ⟨_, fs₂, hx₂, hx⟩ := exec_bind_ok.mp hx
    cases hx₂
    cases hx
    exact ⟨hx₁, by rw [if_neg hnone]⟩

/-- A file that is not there is given the body. -/
theorem materialize_put {umask mode : Nat} (hr : realPath root fs p = .ok h) (hs : fs.shape h = none)
    (hx : exec (materialize root umask p body mode) fs = (.ok (), fs')) : Put fs fs' h body := by
  obtain ⟨h', hr', hl, hx⟩ := real_of_ok hx
  rw [hr] at hr'
  cases hr'
  have hmiss : pathExists fs h = false := by
    simp only [pathExists, Posix.Fs.canonicalize_clear hl.1 hl.2, if_pos hs]
    rfl
  obtain ⟨_, fs₂, hx₂, hx⟩ := exec_bind_ok.mp hx
  cases hx₂
  rw [hmiss, if_neg (by simp)] at hx
  obtain ⟨_, fs₃, hx₃, hx⟩ := exec_bind_ok.mp hx
  obtain ⟨file, fs₄, hx₄, hwrite⟩ := exec_bind_ok.mp hx
  obtain ⟨fs₅, hopen, hmode⟩ := openWithMode_ok (exec_io_ok.mp hx₄)
  obtain ⟨rfl, c, hc, hput⟩ := openUnder_put hl rfl hx₃ hopen
  rw [hs] at hc
  cases hc
  have hput₄ : Put fs fs₄ file [] := by
    intro r
    rw [hmode]
    split
    · exact hput r
    · rw [setModeAt_same]
      exact hput r
  have hwritten := writeFile_put hput₄ (exec_io_ok.mp hwrite)
  rwa [overwrite_nil] at hwritten

/-- What a file opened for writing held. -/
def opened (fs : Fs) (h : Posix.Path) : Bytes := (openedContent writeOptions (fs.shape h)).getD []

/-- The call applies the edit to the projection file, whatever that held. -/
def Applies {α : Type} (root : Posix.Path) (p : VfsPath) (x : DiskM α) (e : Content.Edit) : Prop :=
  ∀ fs a fs', exec x fs = (.ok a, fs') →
    ∃ h, realPath root fs p = .ok h ∧ Put fs fs' h (e.apply (opened fs h))

theorem writeAt_applies (offset : Nat) (data : Bytes) :
    Applies root p (writeAt root p offset data) (.write offset data) := by
  intro fs n fs' hx
  obtain ⟨h, hr, hl, hx⟩ := real_of_ok hx
  obtain ⟨file, fs₂, hx₂, hx⟩ := exec_bind_ok.mp hx
  obtain ⟨_, fs₃, hx₃, hx⟩ := exec_bind_ok.mp hx
  cases hx
  obtain ⟨rfl, c, hc, hput⟩ := open_put hl (exec_io_ok.mp hx₂)
  refine ⟨file, hr, ?_⟩
  rw [opened, hc]
  exact writeFile_put hput (exec_io_ok.mp hx₃)

theorem truncate_applies (size : Nat) : Applies root p (truncate root p size) (.setLen size) := by
  intro fs n fs' hx
  obtain ⟨h, hr, hl, hx⟩ := real_of_ok hx
  obtain ⟨_, fs₂, hx₂, hx⟩ := exec_bind_ok.mp hx
  obtain ⟨file, fs₃, hx₃, hset⟩ := exec_bind_ok.mp hx
  obtain ⟨rfl, c, hc, hput⟩ := openUnder_put hl rfl hx₂ (exec_io_ok.mp hx₃)
  refine ⟨file, hr, ?_⟩
  rw [opened, hc]
  exact setFileLen_put hput (exec_io_ok.mp hset)

theorem chmod_same {mode : Nat} (hx : exec (chmod root p mode) fs = (.ok (), fs')) : Same fs fs' := by
  obtain ⟨h, -, -, hx⟩ := real_of_ok hx
  rw [exec_io_ok] at hx
  unfold setPermissions at hx
  obtain ⟨l, fs₂, hx₂, hx⟩ := exec_bind_ok.mp hx
  rw [exec_ofExcept] at hx₂
  obtain ⟨-, rfl⟩ := Prod.mk.inj hx₂
  cases hx
  exact setModeAt_same l mode fs

end WorkspaceWriter

/-! ## A change through the mount -/

variable {sha256 : Bytes → Hash256} {answers : Answers} {m m' : KinFuseFs} {B : Bytes}

theorem disk_ok {α : Type} {x : DiskM α} {a : α} :
    exec (disk x) m = (.ok a, m') ↔ ∃ fs, exec x m.host = (.ok a, fs) ∧ m' = { m with host := fs } :=
  exec_zoom_ok

theorem answer_ok {α : Type} {a : VfsResult α} {x : α} (h : exec (answer a) m = (.ok x, m')) :
    a = .ok x ∧ m' = m := by
  unfold answer at h
  split at h
  · cases h
    exact ⟨rfl, rfl⟩
  · cases h

/-- The answers about a graph file with body `B`: right, or an error. -/
structure Answers.Of (answers : Answers) (B : Bytes) : Prop where
  stat : ∀ st, answers.stat = .ok st → st.isFile = true
  body : ∀ b, answers.readFile = .ok b → b = B

/-- What the change is applied to. -/
def Answers.base (answers : Answers) (B : Bytes) : Bytes :=
  match answers.stat with
  | .ok _ => B
  | .error _ => []

/-- After `materialize_for_write` of a file without a copy, the path leads where it did, and what is there
has the body, if the provider's `stat` was answered. -/
theorem materializeForWrite_put (hof : answers.Of B) (hr : WorkspaceWriter.realPath root m.host p = .ok h)
    (habsent : WorkspaceWriter.exists_ root m.host p = false)
    (hx : exec (materializeForWrite answers root p) m = (.ok (), m')) :
    m' = { m with host := m'.host } ∧ WorkspaceWriter.realPath root m'.host p = .ok h ∧
      Writable m'.host h ∧ WorkspaceWriter.opened m'.host h = answers.base B := by
  have hs := WorkspaceWriter.shape_of_absent habsent hr
  have hstay : m' = m → answers.base B = [] → m' = { m with host := m'.host } ∧
      WorkspaceWriter.realPath root m'.host p = .ok h ∧ Writable m'.host h ∧
      WorkspaceWriter.opened m'.host h = answers.base B := by
    rintro rfl hbase
    refine ⟨rfl, hr, .inl hs, ?_⟩
    rw [hbase, WorkspaceWriter.opened, hs]
    rfl
  unfold materializeForWrite at hx
  obtain ⟨_, m₁, hx₁, hx⟩ := exec_bind_ok.mp hx
  cases hx₁
  rw [if_neg (by rw [habsent]; simp)] at hx
  cases hstat : answers.stat with
  | error e =>
    rw [hstat] at hx
    cases hx
    exact hstay rfl (by simp only [Answers.base, hstat])
  | ok st =>
    rw [hstat] at hx
    dsimp only at hx
    rw [if_pos (hof.stat st hstat)] at hx
    obtain ⟨body, m₂, hx₂, hdisk⟩ := exec_bind_ok.mp hx
    obtain ⟨hread, rfl⟩ := answer_ok hx₂
    obtain rfl := hof.body body hread
    obtain ⟨_, m₃, hx₃, hdisk⟩ := exec_bind_ok.mp hdisk
    cases hx₃
    obtain ⟨fs, hfs, rfl⟩ := disk_ok.mp hdisk
    have hput := WorkspaceWriter.materialize_put hr hs hfs
    obtain ⟨hlex, ht⟩ := WorkspaceWriter.realPath_ok.mp hr
    have ht' := hput.target (.inl hs) ht
    refine ⟨rfl, WorkspaceWriter.realPath_ok.mpr ⟨hlex, ht'⟩, hput.writable, ?_⟩
    have hfile : fs.shape h = some (.file body) := by rw [hput, if_pos rfl]
    simp only [WorkspaceWriter.opened, hfile, Answers.base, hstat]
    rfl

/-- A path that is refused is not materialized. -/
theorem materializeForWrite_refused {e : VfsError} (hof : answers.Of B)
    (hr : WorkspaceWriter.realPath root m.host p = .error e)
    (hx : exec (materializeForWrite answers root p) m = (.ok (), m')) : m' = m := by
  have habsent : WorkspaceWriter.exists_ root m.host p = false := by
    simp only [WorkspaceWriter.exists_, hr]
  unfold materializeForWrite at hx
  obtain ⟨_, m₁, hx₁, hx⟩ := exec_bind_ok.mp hx
  cases hx₁
  rw [if_neg (by rw [habsent]; simp)] at hx
  cases hstat : answers.stat with
  | error e =>
    rw [hstat] at hx
    cases hx
    rfl
  | ok st =>
    rw [hstat] at hx
    dsimp only at hx
    rw [if_pos (hof.stat st hstat)] at hx
    obtain ⟨body, m₂, hx₂, hdisk⟩ := exec_bind_ok.mp hx
    obtain ⟨-, rfl⟩ := answer_ok hx₂
    obtain ⟨_, m₃, hx₃, hdisk⟩ := exec_bind_ok.mp hdisk
    cases hx₃
    obtain ⟨fs, hfs, -⟩ := disk_ok.mp hdisk
    obtain ⟨h, hr', -, -⟩ := WorkspaceWriter.real_of_ok hfs
    rw [hr] at hr'
    cases hr'

/-- A change of a file's content through the mount. -/
inductive Change where
  | write (ino fh : Nat) (offset : Int) (data : Bytes)
  | setSize (ino : Nat) (mode : Option Nat) (size : Nat)

namespace Change

def pathOf (m : KinFuseFs) : Change → Except Errno VfsPath
  | .write ino fh _ _ => m.pathOf ino fh
  | .setSize ino _ _ =>
    match m.inodes.getPath ino with
    | some path => .ok path
    | none => .error .noent

/-- What the change means for the content. -/
def edit : Change → Content.Edit
  | .write _ _ offset data => .write offset.toNat data
  | .setSize _ _ size => .setLen size

def perform (sha256 : Bytes → Hash256) (answers : Answers) : Change → MountM Unit
  | .write ino fh offset data => do
    let _ ← Fuse.write answers ino fh offset data
  | .setSize ino mode size => do
    let _ ← setattr sha256 answers ino mode (some size)

end Change

theorem getWriter_ok {r : Posix.Path} (hroot : m.writer = some root)
    (hx : exec getWriter m = (.ok r, m')) : r = root ∧ m' = m := by
  unfold getWriter at hx
  obtain ⟨_, m₁, hx₁, hx⟩ := exec_bind_ok.mp hx
  cases hx₁
  rw [hroot] at hx
  cases hx
  exact ⟨rfl, rfl⟩

/-- The projection file after a put. -/
theorem projected_of_put (ht : containedTarget fs root p = .ok h) (hw : Writable fs h)
    (hput : Put fs fs' h c) : projected root fs' p = some c :=
  projected_of_file (hput.target hw ht) (by rw [hput, if_pos rfl])

/-- The call that follows is applied to the body, if the provider's `stat` was answered, and to an empty
file otherwise. -/
theorem change_projects {α : Type} {x : DiskM α} {a : α} {e : Content.Edit} {m₁ m₂ : KinFuseFs}
    (hof : answers.Of B) (habsent : WorkspaceWriter.exists_ root m.host p = false)
    (happ : WorkspaceWriter.Applies root p x e)
    (h₁ : exec (materializeForWrite answers root p) m = (.ok (), m₁))
    (h₂ : exec (disk x) m₁ = (.ok a, m₂)) :
    projected root m₂.host p = some (e.apply (answers.base B)) := by
  obtain ⟨fs, hfs, rfl⟩ := disk_ok.mp h₂
  obtain ⟨h, hr, hput⟩ := happ _ _ _ hfs
  cases hreal : WorkspaceWriter.realPath root m.host p with
  | ok h' =>
    obtain ⟨-, hr', hw, hbase⟩ := materializeForWrite_put hof hreal habsent h₁
    rw [hr] at hr'
    cases hr'
    rw [← hbase]
    exact projected_of_put (WorkspaceWriter.realPath_ok.mp hr).2 hw hput
  | error err =>
    have hsame := materializeForWrite_refused hof hreal h₁
    rw [hsame, hreal] at hr
    cases hr

/-- A host tree of the same shape has the same projection file. -/
theorem projected_same (hs : Same fs fs') (hp : projected root fs p = some c) :
    projected root fs' p = some c := by
  unfold projected at hp
  cases ht : containedTarget fs root p with
  | error e =>
    rw [ht] at hp
    cases hp
  | ok h =>
    rw [ht] at hp
    obtain ⟨hc, hl⟩ := containedTarget_landed ht
    have hfile : fs.shape h = some (.file c) :=
      (Posix.readFile_eq_ok hc hl).mp (Except.toOption_eq_some.mp hp)
    exact projected_of_file (hs.resolves ht) (by rw [hs, hfile])

theorem converge_keeps (hx : exec (converge sha256 answers root p) m = (.ok (), m')) : m' = m := by
  unfold converge at hx
  obtain ⟨expected, m₁, hx₁, hx⟩ := exec_bind_ok.mp hx
  rw [exec_ofExcept] at hx₁
  obtain ⟨-, rfl⟩ := Prod.mk.inj hx₁
  split at hx
  · cases hx
    rfl
  · cases hx

theorem write_projects {ino fh n : Nat} {offset : Int} (hof : answers.Of B) (hroot : m.writer = some root)
    (hp : m.pathOf ino fh = .ok p) (habsent : WorkspaceWriter.exists_ root m.host p = false)
    (hx : exec (write answers ino fh offset data) m = (.ok n, m')) :
    projected root m'.host p = some ((Content.Edit.write offset.toNat data).apply (answers.base B)) := by
  unfold write at hx
  obtain ⟨r, m₁, hx₁, hbody⟩ := exec_bind_ok.mp hx
  obtain ⟨rfl, rfl⟩ := getWriter_ok hroot hx₁
  split at hbody
  · cases hbody
  · obtain ⟨path, m₂, hx₂, hx⟩ := exec_bind_ok.mp hbody
    rw [exec_ofExcept, hp] at hx₂
    cases hx₂
    obtain ⟨_, m₃, hx₃, hx⟩ := exec_bind_ok.mp hx
    obtain ⟨written, m₄, hx₄, hx⟩ := exec_bind_ok.mp hx
    obtain ⟨_, m₅, hx₅, hx⟩ := exec_bind_ok.mp hx
    cases hx₅
    cases hx
    show projected r m₄.host p = _
    exact change_projects hof habsent (WorkspaceWriter.writeAt_applies _ _) hx₃ hx₄

/-- The attributes are read, and the path gets an inode. -/
theorem attrForPath_ok {a : FileAttr} (hx : exec (attrForPath answers p) m = (.ok a, m')) :
    m' = { m with inodes := (m.inodes.getOrInsert p).2 } := by
  unfold attrForPath at hx
  obtain ⟨_, m₁, hx₁, hx⟩ := exec_bind_ok.mp hx
  cases hx₁
  split at hx
  · cases hx
    rfl
  · split at hx
    · cases hx
      rfl
    · cases hx

theorem setattr_projects {ino : Nat} {mode : Option Nat} {a : FileAttr} (hof : answers.Of B)
    (hroot : m.writer = some root) (hp : m.inodes.getPath ino = some p)
    (habsent : WorkspaceWriter.exists_ root m.host p = false)
    (hx : exec (setattr sha256 answers ino mode (some size)) m = (.ok a, m')) :
    projected root m'.host p = some ((Content.Edit.setLen size).apply (answers.base B)) := by
  unfold setattr at hx
  obtain ⟨r, m₁, hx₁, hbody⟩ := exec_bind_ok.mp hx
  obtain ⟨rfl, rfl⟩ := getWriter_ok hroot hx₁
  obtain ⟨path, m₂, hx₂, hx⟩ := exec_bind_ok.mp hbody
  rw [exec_ofExcept, hp] at hx₂
  cases hx₂
  obtain ⟨_, m₃, hx₃, hx⟩ := exec_bind_ok.mp hx
  obtain ⟨_, m₄, hx₄, hx₅⟩ := exec_bind_ok.mp hx₃
  have hproj := change_projects hof habsent (WorkspaceWriter.truncate_applies size) hx₄ hx₅
  obtain ⟨_, m₆, hx₆, hx⟩ := exec_bind_ok.mp hx
  obtain ⟨_, m₇, hx₇, hattr⟩ := exec_bind_ok.mp hx
  have hmode : projected r m₆.host p = some ((Content.Edit.setLen size).apply (answers.base B)) := by
    cases mode with
    | none =>
      cases hx₆
      exact hproj
    | some mode =>
      obtain ⟨fs, hfs, rfl⟩ := disk_ok.mp hx₆
      exact projected_same (WorkspaceWriter.chmod_same hfs) hproj
  rw [if_pos (by simp)] at hx₇
  obtain rfl := converge_keeps hx₇
  obtain rfl := attrForPath_ok hattr
  exact hmode

/-- For a graph file without a copy, a change that reports success leaves the body with the change in it,
exactly when the provider's `stat` was answered or the change leaves nothing of the body: where it leaves
the file alone, the body is as an empty file is. -/
theorem change_lands_iff {change : Change} (hof : answers.Of B) (hroot : m.writer = some root)
    (hp : change.pathOf m = .ok p) (habsent : WorkspaceWriter.exists_ root m.host p = false)
    (hx : exec (change.perform sha256 answers) m = (.ok (), m')) :
    projected root m'.host p = some (change.edit.apply B) ↔
      (∃ st, answers.stat = .ok st) ∨ Content.SameUnder [change.edit] [] B := by
  have hproj : projected root m'.host p = some (change.edit.apply (answers.base B)) := by
    cases change with
    | write ino fh offset data =>
      obtain ⟨n, m₁, hx₁, hx₂⟩ := exec_bind_ok.mp hx
      cases hx₂
      exact write_projects hof hroot hp habsent hx₁
    | setSize ino mode size =>
      obtain ⟨n, m₁, hx₁, hx₂⟩ := exec_bind_ok.mp hx
      cases hx₂
      refine setattr_projects hof hroot ?_ habsent hx₁
      cases hino : m.inodes.getPath ino with
      | none =>
        simp only [Change.pathOf, hino] at hp
        cases hp
      | some path =>
        simp only [Change.pathOf, hino] at hp
        cases hp
        rfl
  rw [hproj, Option.some.injEq]
  cases hstat : answers.stat with
  | ok st => simp [Answers.base, hstat]
  | error e =>
    have hedits := Content.applyEdits_congr [change.edit] [] B
    simp only [Content.applyEdits_cons, Content.applyEdits_nil] at hedits
    simp only [Answers.base, hstat, hedits]
    constructor
    · exact .inr
    · rintro (⟨st, hst⟩ | hsame)
      · cases hst
      · exact hsame

namespace Sample

/-- The bytes of `0123456789`. -/
def digits : Bytes := [48, 49, 50, 51, 52, 53, 54, 55, 56, 57]

/-- The path `a`. -/
def file : VfsPath := KinVfs.Sample.a

/-- A mount over the empty directory `/w`; inode 2 is `a`, a file of the graph. -/
def mount : KinFuseFs where
  inodes := (InodeTable.new.getOrInsert file).2
  writer := some [[119]]
  handles _ := none
  nextFh := 1
  umask := 0o022
  pendingDirs _ := false
  host := (Fs.empty ⟨0, 0o644, 0o755, 0⟩).addEntry [[119]] (.dir ⟨0o755, 0⟩ 0)

/-- The provider answers every call. -/
def answered : Answers where
  stat := .ok (VirtualStat.regularFile 10 (Vector.replicate 32 0) false 0)
  readFile := .ok digits
  polls := []
  attr := .ok (VirtualStat.regularFile 10 (Vector.replicate 32 0) false 0)

/-- Its first call fails. -/
def failing : Answers := { answered with stat := .error (.provider "connection reset") }

theorem answered_of : answered.Of digits where
  stat st h := by
    cases h
    rfl
  body b h := by
    cases h
    rfl

theorem failing_of : failing.Of digits where
  stat _ h := nomatch h
  body := answered_of.body

/-- Two bytes in the middle of the file. -/
def ranged : Change := .write 2 0 4 [88, 89]

theorem performs (answers : Answers)
    (h : (exec (ranged.perform (fun _ => Vector.replicate 32 0) answers) mount).1.isOk = true) :
    ∃ m', exec (ranged.perform (fun _ => Vector.replicate 32 0) answers) mount = (.ok (), m') := by
  cases hx : exec (ranged.perform (fun _ => Vector.replicate 32 0) answers) mount with
  | mk r m' =>
    rw [hx] at h
    cases r with
    | ok u => exact ⟨m', rfl⟩
    | error e => cases h

end Sample

theorem change_lands_iff_ranged :
    ∃ m', exec (Sample.ranged.perform (fun _ => Vector.replicate 32 0) Sample.answered) Sample.mount =
        (.ok (), m') ∧
      projected [[119]] m'.host Sample.file = some [48, 49, 50, 51, 88, 89, 54, 55, 56, 57] := by
  obtain ⟨m', hx⟩ := Sample.performs Sample.answered (by decide +kernel)
  refine ⟨m', hx, ?_⟩
  exact (change_lands_iff Sample.answered_of rfl rfl (by decide +kernel) hx).mpr (.inl ⟨_, rfl⟩)

/-- The provider's `stat` fails once; the write reports success and the file is a hole with two bytes. -/
theorem ranged_lands_in_hole :
    ∃ m', exec (Sample.ranged.perform (fun _ => Vector.replicate 32 0) Sample.failing) Sample.mount =
        (.ok (), m') ∧
      Sample.failing.Of Sample.digits ∧ Sample.ranged.pathOf Sample.mount = .ok Sample.file ∧
      WorkspaceWriter.exists_ [[119]] Sample.mount.host Sample.file = false ∧
      projected [[119]] m'.host Sample.file = some [0, 0, 0, 0, 88, 89] ∧
      projected [[119]] m'.host Sample.file ≠ some (Sample.ranged.edit.apply Sample.digits) := by
  obtain ⟨m', hx⟩ := Sample.performs Sample.failing (by decide +kernel)
  have hproj : projected [[119]] m'.host Sample.file = some [0, 0, 0, 0, 88, 89] := by
    have hrun : projected [[119]] (exec (Sample.ranged.perform (fun _ => Vector.replicate 32 0)
        Sample.failing) Sample.mount).2.host Sample.file = some [0, 0, 0, 0, 88, 89] := by decide +kernel
    rwa [hx] at hrun
  refine ⟨m', hx, Sample.failing_of, rfl, by decide +kernel, hproj, ?_⟩
  rw [hproj]
  decide

end KinVfs.Fuse
