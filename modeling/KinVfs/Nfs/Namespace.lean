import KinVfs.Core.Provider
import KinVfs.Lib.Paging
import KinVfs.Nfs.Inodes
import KinVfs.Nfs.Router

/-!
# The exported namespace (`nfs_fs.rs` and `router.rs` of `crates/kin-vfs-nfs/src`)

The calls that name things: `lookup`, `getattr` and `readdir`, of the adapter of one workspace and of the
router over all of them. Each is a `Prog`: what is done under one lock, or is one answer of the provider, is
one step, and other calls come in between.

The router's numbers are 1 for the export root, `2..` for the workspaces as the export root lists them, and
`offset + local` for what the adapter of a slot numbers `local`. The user and group ids, the device numbers
and the file system id of the attributes are constants of the process and left out.
-/

namespace KinVfs.Nfs

open Interleave

/-- The statuses (`nfsstat3`) of the calls below. -/
inductive NfsStat where
  | noent
  | io
  | acces
  | notdir
  | isdir
  | inval
  | stale
  | notsupp
  deriving DecidableEq

/-- `KinNfsFs::map_err`. -/
def mapErr : VfsError → NfsStat
  | .notFound _ => .noent
  | .isDirectory _ => .isdir
  | .notDirectory _ => .notdir
  | .permissionDenied _ => .acces
  | .invalidInput _ => .inval
  | .escapesRoot _ => .acces
  | .unsupportedRepositoryBoundary _ => .notsupp
  | .io _ => .io
  | .provider _ => .io

inductive FType where
  | reg
  | dir
  | lnk
  deriving DecidableEq

structure Fattr where
  ftype : FType
  mode : Nat
  nlink : Nat
  size : Nat
  used : Nat
  fileid : Nat
  atime : Nat
  mtime : Nat
  ctime : Nat
  deriving DecidableEq

/-- `KinNfsFs::stat_to_fattr`. Link count and times are cut to 32 bits. -/
def statToFattr (st : VirtualStat) (id : Nat) : Fattr where
  ftype := if st.isSymlink then .lnk else if st.isDir then .dir else .reg
  mode := st.mode
  nlink := st.nlink % 2 ^ 32
  size := st.size
  used := st.size
  fileid := id
  atime := st.mtime % 2 ^ 32
  mtime := st.mtime % 2 ^ 32
  ctime := st.ctime % 2 ^ 32

/-- An entry of a directory page (`nfsserve`'s `DirEntry`). -/
structure NfsDirEntry where
  fileid : Nat
  name : Bytes
  attr : Fattr

structure ReadDirResult where
  entries : List NfsDirEntry
  last : Bool

/-- The adapter of one workspace. -/
structure KinNfsFs where
  provider : ContentProvider
  inodes : InodeTable

/-- A registered workspace: its display name, and what a provider built for its daemon answers. -/
structure WorkspaceEntry where
  name : Bytes
  graph : ContentProvider

/-- A workspace slot. Adapters are shared, so the slot holds which one. -/
structure Slot where
  adapter : Nat
  offset : Nat
  deriving DecidableEq

/-- The state of the router. -/
structure Router where
  /-- The adapters that were built, by the order in which they were. -/
  adapters : Nat → KinNfsFs
  built : Nat
  slots : List (Bytes × Slot)
  nextSlot : Nat
  /-- The clock, in seconds. -/
  now : Nat

abbrev NfsM := Prog Router NfsStat

namespace Router

/-- `InodeTable::get_or_assign` in the table of adapter `h`. -/
def assign (r : Router) (h : Nat) (path : VfsPath) : Nat × Router :=
  let a := r.adapters h
  ((a.inodes.getOrAssign path).1,
    { r with adapters := Function.update r.adapters h { a with inodes := (a.inodes.getOrAssign path).2 } })

end Router

/-! ## One workspace -/

namespace KinNfsFs

/-- `KinNfsFs::new`. -/
def new (provider : ContentProvider) : KinNfsFs := ⟨provider, .new⟩

def rootDir : Nat := 1

def idToPath (h id : Nat) : NfsM VfsPath := do
  Prog.orFail .stale (← Prog.look fun r => (r.adapters h).inodes.getPath id)

/-- One blocking call of the provider. -/
def ask {α : Type} (h : Nat) (f : ContentProvider → VfsResult α) : NfsM α := do
  match ← Prog.look fun r => f (r.adapters h).provider with
  | .ok a => pure a
  | .error e => Prog.fail (mapErr e)

/-- `InodeTable::get_or_assign`, under the write lock of the adapter's table. -/
def getOrAssign (h : Nat) (path : VfsPath) : NfsM Nat := Prog.act (·.assign h path)

def childPath (parent : VfsPath) (name : Bytes) : NfsM VfsPath :=
  match VfsName.fromBytes name with
  | .ok component => pure (parent.join component)
  | .error _ => Prog.fail .inval

def lookup (h dirid : Nat) (name : Bytes) : NfsM Nat := do
  let parentPath ← idToPath h dirid
  if name = [dot] then pure dirid
  else if name = [dot, dot] then
    -- Walk up, or stay at the root.
    match parentPath.parent with
    | none => pure 1
    | some parent => getOrAssign h parent
  else do
    let child ← childPath parentPath name
    let found ← ask h (·.pathExists child)
    if found then getOrAssign h child else Prog.fail .noent

def getattr (h id : Nat) : NfsM Fattr := do
  let path ← idToPath h id
  let st ← ask h (·.stat path)
  pure (statToFattr st id)

/-- An entry of the whole listing: its id, its name and what to stat. -/
structure Listed where
  id : Nat
  name : Bytes
  path : VfsPath

/-- The entries behind `.` and `..`. Each gets its id under its own lock. -/
def children (h : Nat) (dir : VfsPath) : List DirEntry → NfsM (List Listed)
  | [] => pure []
  | e :: es => do
    let id ← getOrAssign h (dir.join e.name)
    let rest ← children h dir es
    pure (⟨id, e.name.bytes, dir.join e.name⟩ :: rest)

/-- The attributes of an entry. One that cannot be read is left out. -/
def entryAttr (h : Nat) (x : Listed) : NfsM (Option NfsDirEntry) := do
  match ← Prog.look fun r => (r.adapters h).provider.stat x.path with
  | .ok st => pure (some ⟨x.id, x.name, statToFattr st x.id⟩)
  | .error _ => pure none

/-- The whole listing: `.`, `..`, then the contents. -/
def listing (h dirid : Nat) (dirPath : VfsPath) (entries : List DirEntry) : NfsM (List Listed) := do
  let parentPath := dirPath.parent.getD .root
  let dotdotId ← (if dirPath.isRoot then pure 1 else getOrAssign h parentPath)
  let rest ← children h dirPath entries
  pure (⟨dirid, [dot], dirPath⟩ :: ⟨dotdotId, [dot, dot], parentPath⟩ :: rest)

def readdir (h dirid startAfter maxEntries : Nat) : NfsM ReadDirResult := do
  let dirPath ← idToPath h dirid
  let entries ← ask h (·.readDir dirPath)
  let all ← listing h dirid dirPath entries
  let page ← Paging.readPage Listed.id (entryAttr h) startAfter maxEntries all
  pure ⟨page.1, page.2⟩

end KinNfsFs

/-! ## The router -/

namespace Router

def rootInode : Nat := 1

/-- A router that serves nothing yet. -/
def start (provider : ContentProvider) (now : Nat) : Router := ⟨fun _ => .new provider, 0, [], 0, now⟩

variable (entries : List WorkspaceEntry)

/-- The part of `get_or_create_slot` that creates: a new adapter, and the next slot number. The lock of
`next_slot` is held from there to the end, so threads that create come one after the other; the adapter is
nobody else's before it is in the map. -/
def create (r : Router) (name : Bytes) (graph : ContentProvider) : Slot × Router :=
  let slot : Slot := ⟨r.built, workspaceBase + r.nextSlot * inodesPerWorkspace⟩
  let r' := { r with
    adapters := Function.update r.adapters r.built (.new graph)
    built := r.built + 1
    nextSlot := r.nextSlot + 1 }
  match r.slots.lookup name with
  -- Another thread may have created it; this adapter and this number are then left unused.
  | some other => (other, r')
  | none => (slot, { r' with slots := r.slots ++ [(name, slot)] })

/-- Get or lazily create the adapter of a workspace by name. -/
def getOrCreateSlot (name : Bytes) : NfsM (Option Slot) := do
  match ← Prog.look fun r => r.slots.lookup name with
  | some slot => pure (some slot)
  | none =>
    match entries.find? (·.name == name) with
    | none => pure none
    | some entry => do
      let slot ← Prog.act (·.create name entry.graph)
      pure (some slot)

/-- The number is in the range of the slot. -/
def inRange (id : Nat) (slot : Slot) : Bool :=
  decide (slot.offset ≤ id) && decide (id < slot.offset + inodesPerWorkspace)

/-- The first slot the number is in the range of. The order of the slots does not matter, since their ranges
are disjoint. -/
def owner (r : Router) (id : Nat) : Option Slot := (r.slots.find? fun entry => inRange id entry.2).map Prod.snd

/-- The slot an inode belongs to, and the inode there. -/
def resolveInode (id : Nat) : NfsM (Slot × Nat) :=
  if id < workspaceBase then Prog.fail .stale
  else do
    let slot ← Prog.orFail .stale (← Prog.look (·.owner id))
    pure (slot, id - slot.offset)

def rootAttr : NfsM Fattr :=
  Prog.look fun r =>
    { ftype := .dir, mode := 0o755, nlink := 2 + entries.length % 2 ^ 32, size := 0, used := 0,
      fileid := rootInode, atime := r.now % 2 ^ 32, mtime := r.now % 2 ^ 32, ctime := r.now % 2 ^ 32 }

/-- The number of a workspace in the listing of the export root. -/
def workspaceRootInode (name : Bytes) : Nat :=
  match entries.findIdx? (·.name == name) with
  | some i => i + 2
  | none => 0

/-- A number of the listing of the export root. -/
def isSynthetic (id : Nat) : Bool := decide (2 ≤ id) && decide (id < workspaceBase)

/-- The slot behind such a number. -/
def syntheticSlot (id : Nat) : NfsM Slot := do
  let entry ← Prog.orFail .stale entries[id - 2]?
  Prog.orFail .stale (← getOrCreateSlot entries entry.name)

def lookup (dirid : Nat) (name : Bytes) : NfsM Nat :=
  if dirid = rootInode then
    if name = [dot] ∨ name = [dot, dot] then pure rootInode
    else do
      let entry ← Prog.orFail .noent (entries.find? (·.name == name))
      let slot ← Prog.orFail .noent (← getOrCreateSlot entries entry.name)
      pure (slot.offset + KinNfsFs.rootDir)
  else if isSynthetic dirid then do
    -- The workspace root as the export root lists it.
    let slot ← syntheticSlot entries dirid
    let id ← KinNfsFs.lookup slot.adapter KinNfsFs.rootDir name
    pure (id + slot.offset)
  else do
    let (slot, localId) ← resolveInode dirid
    let id ← KinNfsFs.lookup slot.adapter localId name
    pure (id + slot.offset)

def getattr (id : Nat) : NfsM Fattr :=
  if id = rootInode then rootAttr entries
  else if isSynthetic id then do
    let slot ← syntheticSlot entries id
    let attr ← KinNfsFs.getattr slot.adapter KinNfsFs.rootDir
    pure { attr with fileid := id }
  else do
    let (slot, localId) ← resolveInode id
    let attr ← KinNfsFs.getattr slot.adapter localId
    pure { attr with fileid := localId + slot.offset }

/-- The attributes of a workspace root in the listing of the export root; its own are the fallback. -/
def workspaceAttr (slot : Slot) (id : Nat) : NfsM Fattr := do
  match ← (KinNfsFs.getattr slot.adapter KinNfsFs.rootDir).attempt with
  | .ok attr => pure { attr with fileid := id }
  | .error _ => do
    let attr ← rootAttr entries
    pure { attr with fileid := id }

/-- The attributes that the export root lists for one of its entries. -/
def rootListedAttr (x : Nat × Bytes) : NfsM Fattr :=
  if x.1 = rootInode then rootAttr entries
  else
    match entries[x.1 - 2]? with
    | none => rootAttr entries
    | some entry => do
      match ← getOrCreateSlot entries entry.name with
      | none => rootAttr entries
      | some slot => workspaceAttr entries slot x.1

/-- An entry of the export root. -/
def rootEntryAttr (x : Nat × Bytes) : NfsM (Option NfsDirEntry) := do
  let attr ← rootListedAttr entries x
  pure (some ⟨x.1, x.2, attr⟩)

/-- The listing of the export root. -/
def rootListing : List (Nat × Bytes) :=
  (rootInode, [dot]) :: (rootInode, [dot, dot]) ::
    entries.map fun entry => (workspaceRootInode entries entry.name, entry.name)

/-- An entry of a page of a slot's adapter, under the router's numbers. -/
def translate (offset : Nat) (e : NfsDirEntry) : NfsDirEntry :=
  { e with fileid := e.fileid + offset, attr := { e.attr with fileid := e.attr.fileid + offset } }

/-- The same in a workspace root as the export root lists it: its `..` is the export root. -/
def translateRoot (offset : Nat) (e : NfsDirEntry) : NfsDirEntry :=
  if e.name = [dot, dot] then { e with fileid := rootInode, attr := { e.attr with fileid := rootInode } }
  else translate offset e

def readdir (dirid startAfter maxEntries : Nat) : NfsM ReadDirResult :=
  if dirid = rootInode then do
    let page ← Paging.readPage Prod.fst (rootEntryAttr entries) startAfter maxEntries (rootListing entries)
    pure ⟨page.1, page.2⟩
  else if isSynthetic dirid then do
    let slot ← syntheticSlot entries dirid
    let page ← KinNfsFs.readdir slot.adapter KinNfsFs.rootDir (startAfter - slot.offset) maxEntries
    pure { page with entries := page.entries.map (translateRoot slot.offset) }
  else do
    let (slot, localDirid) ← resolveInode dirid
    let page ← KinNfsFs.readdir slot.adapter localDirid (startAfter - slot.offset) maxEntries
    pure { page with entries := page.entries.map (translate slot.offset) }

end Router

end KinVfs.Nfs
