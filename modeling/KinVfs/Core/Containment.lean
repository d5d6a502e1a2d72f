import KinVfs.Core.Provider

/-!
# Where a projected write may land (`crates/kin-vfs-core/src/containment.rs`)

Each component is walked from the canonical root. A link is followed only to a place under that
root, and the walk continues from the place it resolved to; a link that dangles or loops is
refused. The resolution and the call that uses it are two steps: nothing here closes that race.
-/

namespace KinVfs

open Posix (Fs)

/-- The loop of `resolve`: `current` is where the components so far led. -/
def resolveComponents (fs : Fs) (root : Posix.Path) (path : VfsPath) (followLeaf : Bool) :
    Posix.Path → List Bytes → VfsResult Posix.Path
  | current, [] => .ok current
  | current, name :: rest =>
    let candidate := current ++ [name]
    if rest.isEmpty && !followLeaf then .ok candidate
    else
      match fs.lstat candidate with
      -- Absent: nothing to follow, the writer creates it under a parent already walked.
      | .error .notFound => resolveComponents fs root path followLeaf candidate rest
      | .error e => .error (.io e)
      | .ok (.symlink ..) =>
        match fs.canonicalize candidate with
        | .error _ => .error (.escapesRoot path.display)
        | .ok resolved =>
          if root.isPrefixOf resolved then resolveComponents fs root path followLeaf resolved rest
          else .error (.escapesRoot path.display)
      | .ok _ => resolveComponents fs root path followLeaf candidate rest

def resolve (fs : Fs) (root : Posix.Path) (path : VfsPath) (followLeaf : Bool) :
    VfsResult Posix.Path :=
  match fs.canonicalize root with
  | .error e => .error (.io e)
  | .ok root => resolveComponents fs root path followLeaf root path.components

/-- The host path of the content `path` names: every component resolved, the final one followed. -/
def containedTarget (fs : Fs) (root : Posix.Path) (path : VfsPath) : VfsResult Posix.Path :=
  resolve fs root path true

/-- The host path of the directory entry `path` names: every component but the last resolved. -/
def containedEntry (fs : Fs) (root : Posix.Path) (path : VfsPath) : VfsResult Posix.Path :=
  resolve fs root path false

end KinVfs
