import KinVfs.Core.Provider
import KinVfs.Lib.MsgPack

/-!
# The wire protocol (`crates/kin-vfs-core/src/protocol.rs`)

The requests a shim sends and the responses they get, with the MessagePack text of a response: a variant
is named, its fields are an array, a variant without fields is its name alone. The paths and names are
byte strings, a `Vec<u8>` is an array of integers.
-/

namespace KinVfs

open MsgPack

/-- `MAX_FRAME_BYTES`. -/
def maxFrameBytes : Nat := 16 * 1024 * 1024

/-- The requests of `client.rs`. The others are sent by a launcher or a projection surface. -/
inductive VfsRequest where
  | stat (path : VfsPath)
  | readDir (path : VfsPath)
  /-- `0, 0` asks for the whole file. -/
  | read (path : VfsPath) (offset len : Nat)
  | readLink (path : VfsPath)
  | access (path : VfsPath) (mode : Nat)
  | announce (pid : Nat) (token : String)
  | canaryBypass (token surface : String)
  deriving DecidableEq

inductive ErrorCode where
  | notFound
  | permissionDenied
  | isDirectory
  | notDirectory
  | invalidInput
  | unsupportedBoundary
  | ioError
  | internal
  deriving DecidableEq, Repr

/-- The responses to those requests. -/
inductive VfsResponse where
  | stat (stat : VirtualStat) (generation : Nat)
  | dirEntries (entries : List DirEntry)
  | content (data : Bytes) (totalSize : Nat)
  | linkTarget (target : Bytes)
  | accessible (accessible : Bool)
  | error (code : ErrorCode) (message : String) (generation : Nat)
  | announced
  deriving DecidableEq

/-! ## Encoding -/

def FileType.wireName : FileType → String
  | .file => "File"
  | .directory => "Directory"
  | .symlink => "Symlink"
  | .gitlink => "Gitlink"

def ErrorCode.wireName : ErrorCode → String
  | .notFound => "NotFound"
  | .permissionDenied => "PermissionDenied"
  | .isDirectory => "IsDirectory"
  | .notDirectory => "NotDirectory"
  | .invalidInput => "InvalidInput"
  | .unsupportedBoundary => "UnsupportedBoundary"
  | .ioError => "IoError"
  | .internal => "Internal"

def VirtualStat.pack (st : VirtualStat) : Bytes :=
  array [uint st.size, bool st.isFile, bool st.isDir, bool st.isSymlink, uint st.mode, uint st.mtime,
    uint st.ctime, uint st.nlink,
    match st.contentHash with
    | some hash => octets hash.toList
    | none => nil]

def DirEntry.pack (e : DirEntry) : Bytes := array [bin e.name.bytes, str e.fileType.wireName]

def VfsResponse.pack : VfsResponse → Bytes
  | .stat st generation => entry (str "Stat") (array [st.pack, uint generation])
  | .dirEntries entries => entry (str "DirEntries") (array (entries.map DirEntry.pack))
  | .content data totalSize => entry (str "Content") (array [octets data, uint totalSize])
  | .linkTarget target => entry (str "LinkTarget") (octets target)
  | .accessible b => entry (str "Accessible") (bool b)
  | .error code message generation =>
    entry (str "Error") (array [str code.wireName, str message, uint generation])
  | .announced => str "Announced"

end KinVfs
