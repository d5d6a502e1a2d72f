import KinVfs.Lib.Text
import KinVfs.Core.Provider

/-!
# The repository-tree contract (`crates/kin-vfs-daemon/src/tree_contract.rs`)

`CachedTree.fromSnapshot` validates one wire document into an indexed snapshot: the artifacts by
path, and every ancestor directory of an artifact, plus the root, with its listing. The lookups
answer from that index, and `CachedTree.provider` is what a provider with that snapshot installed
answers.

The document's own types are in a crate outside the repository: a snapshot has here what this file
reads of it, and its canonical identity, SHA-256 and the text of a repository path are parameters
(`TreeCodec`).
-/

namespace KinVfs

/-- What a tracked leaf is. -/
inductive TreeEntry where
  | blob (hash : Hash256) (executable : Bool)
  | symlink (targetBlob : Hash256)
  | gitlink (target : Bytes)
  deriving DecidableEq

/-- A stable artifact id (the bytes of a UUID). -/
abbrev ArtifactId := Vector UInt8 16

structure TreeArtifact where
  artifactId : ArtifactId
  entry : TreeEntry
  size : Nat
  mtime : Nat
  deriving DecidableEq

structure WorkspaceTreeArtifact where
  path : Bytes
  artifactId : ArtifactId
  entry : TreeEntry
  size : Nat
  mtime : Nat
  deriving DecidableEq

/-- The authority a snapshot projects. -/
structure WorkspaceSnapshotBinding where
  repositoryId : String
  workspaceId : String
  /-- `roots.generation`. -/
  generation : Nat
  workspaceGeneration : Nat
  /-- The rest of the binding (head, base, hashes, roots, policy), which is only compared. -/
  authority : Bytes
  deriving DecidableEq

structure WorkspaceTreeSnapshot where
  binding : WorkspaceSnapshotBinding
  artifacts : List WorkspaceTreeArtifact

/-- The libraries the contract is read with. -/
structure TreeCodec where
  /-- `WorkspaceTreeSnapshot::identity`. -/
  identity : WorkspaceTreeSnapshot → Except String String
  /-- `Display` of a repository path. -/
  showRepoPath : Bytes → String
  /-- `Sha256::digest`. -/
  sha256 : Bytes → Hash256

/-- The mutation identity of one derived directory. -/
structure DirectoryMutationIdentity where
  authorityGeneration : Nat
  workspaceGeneration : Nat
  membership : Hash256
  deriving DecidableEq

structure CachedDirectory where
  mutation : DirectoryMutationIdentity
  entries : List DirEntry

/-- A validated snapshot, indexed for lookup. -/
structure CachedTree where
  binding : WorkspaceSnapshotBinding
  version : Nat
  etag : String
  byPath : Std.ExtTreeMap VfsPath TreeArtifact
  directories : Std.ExtTreeMap VfsPath CachedDirectory

def TreeEntry.fileType : TreeEntry → FileType
  | .blob .. => .file
  | .symlink _ => .symlink
  | .gitlink _ => .gitlink

/-- `{:?}` of a listing type. -/
def FileType.debug : FileType → String
  | .file => "File"
  | .directory => "Directory"
  | .symlink => "Symlink"
  | .gitlink => "Gitlink"

/-! ## The directory index -/

/-- `u64::to_be_bytes`. -/
def toBeBytes (n : Nat) : Bytes :=
  [56, 48, 40, 32, 24, 16, 8, 0].map fun shift => UInt8.ofNat (n >>> shift)

/-- What is fed to the hash for `bytes`: the length and the bytes. -/
def hashLenPrefixed (bytes : Bytes) : Except String Bytes :=
  if bytes.length ≤ u64Max then .ok (toBeBytes bytes.length ++ bytes)
  else .error "directory identity input exceeds u64"

/-- A directory under construction. `hasher` is what has been fed to the hash. -/
structure DirectoryBuilder where
  hasher : Bytes
  descendantCount : Nat
  entries : Std.ExtTreeMap Bytes FileType

namespace DirectoryBuilder

def new (path : VfsPath) : Except String DirectoryBuilder := do
  let fed ← hashLenPrefixed path.bytes
  return ⟨"kin-vfs-directory-membership-v1\x00".toUTF8.toList ++ fed, 0, ∅⟩

/-- What is fed to the hash for an entry. -/
def entryBytes : TreeEntry → Except String Bytes
  | .blob hash executable => .ok ([0] ++ hash.toList ++ [if executable then 1 else 0])
  | .symlink targetBlob => .ok ([1] ++ targetBlob.toList)
  | .gitlink target => do return [2] ++ (← hashLenPrefixed target)

/-- The child of a directory that the remainder `rest` of a descendant's path runs through. -/
def childOf (rest : Bytes) (entry : TreeEntry) : Bytes × FileType :=
  match rest.findIdx? (· == slash) with
  | some position => (rest.take position, .directory)
  | none => (rest, entry.fileType)

/-- Record a child; one name has one type. -/
def insertChild (entries : Std.ExtTreeMap Bytes FileType) (child : Bytes) (childType : FileType) :
    Except String (Std.ExtTreeMap Bytes FileType) :=
  match entries[child]? with
  | none => .ok (entries.insert child childType)
  | some found =>
    if found = childType then .ok entries
    else .error ("tree child " ++ Text.fromUtf8Lossy child ++ " appears as both " ++ found.debug ++
      " and " ++ childType.debug)

def addDescendant (b : DirectoryBuilder) (directory descendant : VfsPath) (artifact : TreeArtifact) :
    Except String DirectoryBuilder := do
  if u64Max ≤ b.descendantCount then throw "directory descendant count exceeds u64"
  let path ← hashLenPrefixed descendant.bytes
  let entry ← entryBytes artifact.entry
  let some rest := directory.stripDirPrefix descendant
    | throw "directory index received a non-descendant path"
  let (child, childType) := childOf rest artifact.entry
  let entries ← insertChild b.entries child childType
  return {
    hasher := b.hasher ++ path ++ artifact.artifactId.toList ++ entry ++
      toBeBytes artifact.size ++ toBeBytes artifact.mtime
    descendantCount := b.descendantCount + 1
    entries := entries }

/-- The names of a finished listing are valid. -/
def finishEntry (item : Bytes × FileType) : Except String DirEntry :=
  match VfsName.fromBytes item.1 with
  | .ok name => .ok ⟨name, item.2⟩
  | .error e => .error ("invalid tree entry name: " ++ e.message)

def finish (codec : TreeCodec) (authorityGeneration workspaceGeneration : Nat)
    (b : DirectoryBuilder) : Except String CachedDirectory := do
  let membership := codec.sha256 (b.hasher ++ toBeBytes b.descendantCount)
  let entries ← b.entries.toList.mapM finishEntry
  return ⟨⟨authorityGeneration, workspaceGeneration, membership⟩, entries⟩

end DirectoryBuilder

abbrev Builders := Std.ExtTreeMap VfsPath DirectoryBuilder

/-- The builder of `directory`, new when there is none yet. -/
def builderAt (builders : Builders) (directory : VfsPath) : Except String DirectoryBuilder :=
  match builders[directory]? with
  | some b => .ok b
  | none => DirectoryBuilder.new directory

/-- One turn of the loop over the ancestors: `directory` gains the descendant. -/
def feedDirectory (path : VfsPath) (artifact : TreeArtifact) (builders : Builders)
    (directory : VfsPath) : Except String Builders := do
  let b ← builderAt builders directory
  let b ← b.addDescendant directory path artifact
  return builders.insert directory b

/-- Every ancestor of the artifact gains it. -/
def feedArtifact (builders : Builders) (item : VfsPath × TreeArtifact) : Except String Builders :=
  item.1.ancestors.foldlM (feedDirectory item.1 item.2) builders

/-- The finished directory of one builder. -/
def finishDirectory (codec : TreeCodec) (authorityGeneration workspaceGeneration : Nat)
    (directories : Std.ExtTreeMap VfsPath CachedDirectory) (item : VfsPath × DirectoryBuilder) :
    Except String (Std.ExtTreeMap VfsPath CachedDirectory) := do
  let directory ← item.2.finish codec authorityGeneration workspaceGeneration
  return directories.insert item.1 directory

def buildDirectoryIndex (codec : TreeCodec) (byPath : Std.ExtTreeMap VfsPath TreeArtifact)
    (authorityGeneration workspaceGeneration : Nat) :
    Except String (Std.ExtTreeMap VfsPath CachedDirectory) := do
  let root ← DirectoryBuilder.new .root
  let builders ← byPath.toList.foldlM feedArtifact ((∅ : Builders).insert .root root)
  builders.toList.foldlM (finishDirectory codec authorityGeneration workspaceGeneration) ∅

namespace CachedTree

/-- Take one artifact of the document. -/
def insertArtifact (codec : TreeCodec) (byPath : Std.ExtTreeMap VfsPath TreeArtifact)
    (artifact : WorkspaceTreeArtifact) : Except String (Std.ExtTreeMap VfsPath TreeArtifact) :=
  match VfsPath.fromBytes artifact.path with
  | .error e =>
    .error ("invalid tree path " ++ codec.showRepoPath artifact.path ++ ": " ++ e.message)
  | .ok path =>
    if path ∈ byPath then .error "validated workspace tree repeated a repository path"
    else .ok (byPath.insert path ⟨artifact.artifactId, artifact.entry, artifact.size, artifact.mtime⟩)

def fromSnapshot (codec : TreeCodec) (snapshot : WorkspaceTreeSnapshot) :
    Except String CachedTree := do
  let etag ← (codec.identity snapshot).mapError ("invalid workspace tree snapshot: " ++ ·)
  let byPath ← snapshot.artifacts.foldlM (insertArtifact codec) ∅
  let directories ← buildDirectoryIndex codec byPath snapshot.binding.generation
    snapshot.binding.workspaceGeneration
  match directories.keys.find? (· ∈ byPath) with
  | some dir => throw ("file/directory prefix collision at " ++ dir.display ++ " in tree snapshot")
  | none => return ⟨snapshot.binding, snapshot.binding.generation, etag, byPath, directories⟩

/-! ## Lookups -/

variable (tree : CachedTree)

def isDir (path : VfsPath) : Bool := path ∈ tree.directories

def pathExists (path : VfsPath) : Bool := path ∈ tree.byPath || path ∈ tree.directories

/-- The mutation identity of one directory. -/
def directoryMutation (path : VfsPath) : Option DirectoryMutationIdentity :=
  tree.directories[path]?.map (·.mutation)

def requireArtifact (path : VfsPath) : VfsResult TreeArtifact :=
  match tree.byPath[path]? with
  | some artifact => .ok artifact
  | none =>
    if tree.isDir path then .error (.isDirectory path.display)
    else .error (.notFound path.display)

def statForEntry (artifact : TreeArtifact) (path : VfsPath) : VfsResult VirtualStat :=
  match artifact.entry with
  | .blob hash executable => .ok (.regularFile artifact.size hash executable artifact.mtime)
  | .symlink targetBlob => .ok (.symlink artifact.size targetBlob artifact.mtime)
  | .gitlink _ => .error (.unsupportedRepositoryBoundary path.display)

def statPath (path : VfsPath) : VfsResult VirtualStat :=
  match tree.byPath[path]? with
  | some artifact => statForEntry artifact path
  | none =>
    match tree.directories[path]? with
    | some directory => .ok (.directory directory.mutation.authorityGeneration)
    | none => .error (.notFound path.display)

def listDir (path : VfsPath) : VfsResult (List DirEntry) :=
  match tree.directories[path]? with
  | some directory => .ok directory.entries
  | none =>
    if path ∈ tree.byPath then .error (.notDirectory path.display)
    else .error (.notFound path.display)

/-- The content address a read of `entry` verifies against. -/
def blobIdentity (entry : TreeEntry) (path : VfsPath) : VfsResult Hash256 :=
  match entry with
  | .blob hash _ => .ok hash
  | .symlink targetBlob => .ok targetBlob
  | .gitlink _ => .error (.unsupportedRepositoryBoundary path.display)

/-- A range of a verified body. -/
def sliceVerifiedBlob (data : Bytes) (offset len : Nat) : Bytes :=
  if len = 0 ∨ data.length ≤ offset then []
  else (data.drop offset).take (min (saturatingAdd offset len) data.length - offset)

/-- It is the part of the body that there is. -/
theorem sliceVerifiedBlob_eq_take {data : Bytes} {offset len : Nat} (h : data.length ≤ u64Max) :
    sliceVerifiedBlob data offset len = (data.drop offset).take len := by
  unfold sliceVerifiedBlob
  by_cases hnot : len = 0 ∨ data.length ≤ offset
  · rw [if_pos hnot]
    rcases hnot with rfl | hend
    · rw [List.take_zero]
    · rw [List.drop_eq_nil_of_le hend, List.take_nil]
  · rw [if_neg hnot, List.take_eq_take_iff, List.length_drop]
    unfold saturatingAdd
    omega

variable (fetch : Hash256 → Nat → VfsPath → VfsResult Bytes)

def readFile (path : VfsPath) : VfsResult Bytes := do
  let artifact ← tree.requireArtifact path
  let hash ← blobIdentity artifact.entry path
  fetch hash artifact.size path

def readRange (path : VfsPath) (offset len : Nat) : VfsResult Bytes := do
  let artifact ← tree.requireArtifact path
  let hash ← blobIdentity artifact.entry path
  if len = 0 ∨ artifact.size ≤ offset then return []
  let data ← fetch hash artifact.size path
  return sliceVerifiedBlob data offset len

def readLink (path : VfsPath) : VfsResult Bytes := do
  let artifact ← (tree.requireArtifact path).mapError fun
    -- A directory has no link target: report the operation, not the kind.
    | .isDirectory _ => .invalidInput path.display
    | e => e
  match artifact.entry with
  | .symlink targetBlob => fetch targetBlob artifact.size path
  | .blob .. => throw (.invalidInput path.display)
  | .gitlink _ => throw (.unsupportedRepositoryBoundary path.display)

/-- What the provider answers while this snapshot is installed. `fetch` is the verified fetch of a
blob by content address and size. -/
def provider : ContentProvider where
  readFile := tree.readFile fetch
  readRange := tree.readRange fetch
  stat := tree.statPath
  readDir := tree.listDir
  pathExists path := .ok (tree.pathExists path)
  readLink := tree.readLink fetch
  version := tree.version

end CachedTree
end KinVfs
