import KinVfs.Lib.Fallible
import KinVfs.Lib.Content
import KinVfs.Posix.Fs

/-!
# System calls

The host calls a program makes on an `Fs`, each as one atomic computation in `HostM`, and
`createDirAll`, which is a loop of them. A call that follows links acts on the real location.
-/

namespace Posix

open Fallible

abbrev HostM (α : Type) := Fallible ErrorKind Fs α

def mkdir (p : Path) : HostM Unit := do
  let l ← ofExcept (·.locate p)
  let fs ← get
  if (fs.node l).isSome then throw .alreadyExists
  else set (fs.addEntry l (.dir ⟨fs.env.dirMode, fs.env.now⟩ fs.env.dirLen))

/-- `Err(_) if path.is_dir() => Ok(())`. -/
def unlessDir (p : Path) (e : ErrorKind) : HostM Unit := do
  let fs ← get
  if fs.isDirPath p then pure () else throw e

/-- `create_dir_all` of the reversed path: make the directory, and its parents first when they are
missing. The file system's own root is there. -/
def createDirAllRev : List Name → HostM Unit
  | [] => pure ()
  | n :: rev =>
    orElse (mkdir (n :: rev).reverse) fun e =>
      if e = .notFound then do
        createDirAllRev rev
        orElse (mkdir (n :: rev).reverse) (unlessDir (n :: rev).reverse)
      else unlessDir (n :: rev).reverse e

/-- `create_dir_all`. -/
def createDirAll (p : Path) : HostM Unit := createDirAllRev p.reverse

/-- `OpenOptions` for writing. -/
structure OpenOptions where
  create : Bool
  createNew : Bool
  truncate : Bool
  deriving DecidableEq, Repr

/-- Open the file at the real location `l` for writing; the location stands for the handle. -/
def openReal (o : OpenOptions) (l : Path) : HostM Path := do
  let fs ← get
  match fs.node l with
  | none =>
    if o.create || o.createNew then
      set (fs.addEntry l (.file ⟨fs.env.fileMode, fs.env.now⟩ []))
      pure l
    else throw .notFound
  | some (.file i _) =>
    if o.createNew then throw .alreadyExists
    else
      if o.truncate then set (fs.setNode l (.file { i with mtime := fs.env.now } []))
      pure l
  | some _ => throw (if o.createNew then .alreadyExists else .isADirectory)

/-- `open` for writing. An exclusive create does not follow a link; a dangling link is not created
through. -/
def openFile (o : OpenOptions) (p : Path) : HostM Path := do
  let l ← ofExcept (·.locate p)
  let fs ← get
  match fs.node l with
  | some (.symlink ..) =>
    if o.createNew then throw .alreadyExists
    else do
      let r ← ofExcept (·.canonicalize p)
      openReal o r
  | _ => openReal o l

/-- `seek` to `offset` and `write_all` on the handle `l`. -/
def writeFile (l : Path) (offset : Nat) (data : List UInt8) : HostM Unit := do
  let fs ← get
  match fs.node l with
  | some (.file i c) =>
    if maxFileSize < offset then throw .invalidInput
    else if data = [] then pure ()
    else if maxFileSize < offset + data.length then throw .fileTooLarge
    else set (fs.setNode l (.file { i with mtime := fs.env.now } (Content.overwrite c offset data)))
  | _ => throw .notFound

/-- `ftruncate` on the handle `l`. -/
def setFileLen (l : Path) (n : Nat) : HostM Unit := do
  let fs ← get
  match fs.node l with
  | some (.file i c) =>
    if maxFileSize < n then throw .invalidInput
    else set (fs.setNode l (.file { i with mtime := fs.env.now } (Content.resize c n)))
  | _ => throw .notFound

/-- `std::fs::write`. -/
def writeWhole (p : Path) (data : List UInt8) : HostM Unit := do
  let l ← openFile ⟨true, false, true⟩ p
  writeFile l 0 data

namespace Fs

/-- `std::fs::read`. -/
def readFile (fs : Fs) (p : Path) : Except ErrorKind (List UInt8) :=
  match fs.canonicalize p with
  | .error e => .error e
  | .ok l =>
    match fs.node l with
    | some (.file _ c) => .ok c
    | some (.dir ..) => .error .isADirectory
    | _ => .error .notFound

/-- `std::fs::read_link`. -/
def readLink (fs : Fs) (p : Path) : Except ErrorKind (List UInt8) :=
  match fs.lstat p with
  | .error e => .error e
  | .ok (.symlink _ t) => .ok t
  | .ok _ => .error .invalidInput

end Fs

/-- `std::fs::remove_dir`. -/
def removeDir (p : Path) : HostM Unit := do
  let l ← ofExcept (·.locate p)
  let fs ← get
  match fs.node l with
  | none => throw .notFound
  | some (.dir ..) =>
    if l = [] then throw .resourceBusy
    else if fs.isEmptyDir l then set (fs.removeEntry l)
    else throw .directoryNotEmpty
  | some _ => throw .notADirectory

/-- `std::fs::remove_file`: the entry itself, never a link's target. -/
def removeFile (p : Path) : HostM Unit := do
  let l ← ofExcept (·.locate p)
  let fs ← get
  match fs.node l with
  | none => throw .notFound
  | some (.dir ..) => throw .isADirectory
  | some _ => set (fs.removeEntry l)

/-- What `rename` may replace: nothing, a non-directory by a non-directory, an empty directory by
a directory. -/
def replaceable (fs : Fs) (src : Node) (dst : Path) : Except ErrorKind Unit :=
  match fs.node dst with
  | none => .ok ()
  | some (.dir ..) =>
    if !src.isDir then .error .isADirectory
    else if fs.isEmptyDir dst then .ok () else .error .directoryNotEmpty
  | some _ => if src.isDir then .error .notADirectory else .ok ()

/-- `std::fs::rename`. An entry is not moved into itself; a rename to the same entry changes
nothing. -/
def rename (p q : Path) : HostM Unit := do
  let src ← ofExcept (·.locate p)
  let dst ← ofExcept (·.locate q)
  let fs ← get
  match fs.node src with
  | none => throw .notFound
  | some nd =>
    if src = dst then pure ()
    else if src = [] ∨ dst = [] then throw .resourceBusy
    else if src.isPrefixOf dst then throw .invalidInput
    else do
      ofExcept fun fs => replaceable fs nd dst
      set (fs.moveEntry src dst)

end Posix
