import KinVfs.Posix.Stream

/-!
# Virtual file descriptors (`crates/kin-vfs-shim/src/fd_table.rs`)

The table of one process. Numbers from `base` on are virtual; the source computes `base` once, above
the limit of the kernel's own descriptors, and `base + maxVfds` stays an `i32`. A number is given out
again only after it was closed.
-/

namespace KinVfs

open Posix (Whence)

/-- Simultaneous virtual descriptors (`MAX_VFDS`). -/
def maxVfds : Nat := 4096

/-- The largest content kept in a handle (`SMALL_FILE_THRESHOLD`). -/
def smallFileThreshold : Nat := 64 * 1024

/-- A directory entry as `getdents64` packs it. -/
structure DirEntryRaw where
  name : List UInt8
  dIno : UInt64
  dType : Nat
  deriving DecidableEq

/-- The state of an open virtual file. -/
structure VirtualFileHandle where
  path : List UInt8
  offset : Nat
  size : Nat
  cachedContent : Option (List UInt8)
  isDirectory : Bool
  dirEntries : Option (List DirEntryRaw)
  dirOffset : Nat
  deriving DecidableEq

/-- A file just opened. Content is kept only when it is small. -/
def VirtualFileHandle.file (path : List UInt8) (size : Nat) (content : Option (List UInt8)) : VirtualFileHandle where
  path := path
  offset := 0
  size := size
  cachedContent := content.filter fun c => c.length ≤ smallFileThreshold
  isDirectory := false
  dirEntries := none
  dirOffset := 0

/-- A directory just opened. -/
def VirtualFileHandle.directory (path : List UInt8) (entries : List DirEntryRaw) : VirtualFileHandle where
  path := path
  offset := 0
  size := 0
  cachedContent := none
  isDirectory := true
  dirEntries := some entries
  dirOffset := 0

/-- A write in flight: the temp file is renamed to the target on close. -/
structure AtomicWriteEntry where
  targetPath : List UInt8
  tempPath : List UInt8
  deriving DecidableEq

structure FdTable where
  base : Nat
  map : Std.ExtTreeMap Nat VirtualFileHandle
  nextFd : Nat
  writeFds : Std.ExtTreeMap Nat (List UInt8)
  atomicWrites : Std.ExtTreeMap Nat AtomicWriteEntry

namespace FdTable

def new (base : Nat) : FdTable := ⟨base, ∅, base, ∅, ∅⟩

/-- The number after `fd`, within the window. -/
def following (t : FdTable) (fd : Nat) : Nat :=
  if fd + 1 < t.base ∨ t.base + maxVfds ≤ fd + 1 then t.base else fd + 1

/-- The loop of `next_vfd`: at most so many slots are tried. -/
def scanVfd : Nat → FdTable → Option Nat × FdTable
  | 0, t => (none, t)
  | fuel + 1, t =>
    let fd := t.nextFd
    let t := { t with nextFd := t.following fd }
    if fd ∈ t.map then scanVfd fuel t else (some fd, t)

def nextVfd (t : FdTable) : Option Nat × FdTable :=
  if maxVfds ≤ t.map.size then (none, t) else scanVfd maxVfds t

/-- Insert a handle under a new number. -/
def insertNew (t : FdTable) (handle : VirtualFileHandle) : Option Nat × FdTable :=
  match t.nextVfd with
  | (none, t) => (none, t)
  | (some fd, t) => (some fd, { t with map := t.map.insert fd handle })

def allocate (t : FdTable) (path : List UInt8) (size : Nat) (content : Option (List UInt8)) :
    Option Nat × FdTable :=
  t.insertNew (.file path size content)

def allocateDir (t : FdTable) (path : List UInt8) (entries : List DirEntryRaw) :
    Option Nat × FdTable :=
  t.insertNew (.directory path entries)

def setHandle (t : FdTable) (fd : Nat) (handle : VirtualFileHandle) : FdTable :=
  { t with map := t.map.insert fd handle }

/-- `saturating_add` on `u64`. -/
def advanceOffset (t : FdTable) (fd bytesRead : Nat) : Option Nat × FdTable :=
  match t.map[fd]? with
  | none => (none, t)
  | some handle =>
    let offset := min (handle.offset + bytesRead) (2 ^ 64 - 1)
    (some offset, t.setHandle fd { handle with offset := offset })

/-- A `u64` as an `i64`. -/
def asI64 (n : Nat) : Int := if n ≤ Posix.maxFileSize then n else (n : Int) - 2 ^ 64

/-- `i64::saturating_add`. -/
def saturatingAddI64 (a b : Int) : Int := max (-(2 ^ 63)) (min (a + b) Posix.maxFileSize)

/-- Where a seek from a handle leads, or `none` when it is invalid. -/
def seekTarget (handle : VirtualFileHandle) (offset : Int) : Whence → Option Nat
  | .seekSet => if offset < 0 then none else some offset.toNat
  | .seekCur =>
    let new := saturatingAddI64 (asI64 handle.offset) offset
    if new < 0 then none else some new.toNat
  | .seekEnd =>
    let new := saturatingAddI64 (asI64 handle.size) offset
    if new < 0 then none else some new.toNat
  | .other => none

def seek (t : FdTable) (fd : Nat) (offset : Int) (whence : Whence) : Option Nat × FdTable :=
  match t.map[fd]? with
  | none => (none, t)
  | some handle =>
    match seekTarget handle offset whence with
    | none => (none, t)
    | some new => (some new, t.setHandle fd { handle with offset := new })

/-- Remove a descriptor; the flag says whether it was there. -/
def close (t : FdTable) (fd : Nat) : Bool × FdTable :=
  (decide (fd ∈ t.map), { t with map := t.map.erase fd })

def trackWrite (t : FdTable) (fd : Nat) (path : List UInt8) : FdTable :=
  { t with writeFds := t.writeFds.insert fd path }

def trackAtomicWrite (t : FdTable) (fd : Nat) (targetPath tempPath : List UInt8) : FdTable :=
  { t with atomicWrites := t.atomicWrites.insert fd ⟨targetPath, tempPath⟩ }

def closeAtomicWrite (t : FdTable) (fd : Nat) : Option AtomicWriteEntry × FdTable :=
  (t.atomicWrites[fd]?, { t with atomicWrites := t.atomicWrites.erase fd })

def closeWrite (t : FdTable) (fd : Nat) : Option (List UInt8) × FdTable :=
  (t.writeFds[fd]?, { t with writeFds := t.writeFds.erase fd })

/-! ## The descriptor that was given out -/

theorem scanVfd_spec {fuel : Nat} {t t' : FdTable} {fd : Nat}
    (h : scanVfd fuel t = (some fd, t')) : fd ∉ t.map ∧ t'.map = t.map := by
  induction fuel generalizing t with
  | zero => cases h
  | succ fuel ih =>
    rw [scanVfd] at h
    dsimp only at h
    split at h
    · have hrest := ih h
      exact hrest
    · rename_i hfree
      cases h
      exact ⟨hfree, rfl⟩

/-- A new number was free, and the others stay. -/
theorem insertNew_spec {t t' : FdTable} {handle : VirtualFileHandle} {fd : Nat}
    (h : t.insertNew handle = (some fd, t')) :
    fd ∉ t.map ∧ t'.map = t.map.insert fd handle := by
  unfold insertNew at h
  rcases hn : t.nextVfd with ⟨_ | n, t₁⟩
  · rw [hn] at h
    cases h
  · rw [hn] at h
    cases h
    unfold nextVfd at hn
    split at hn
    · cases hn
    · obtain ⟨hfree, hmap⟩ := scanVfd_spec hn
      exact ⟨hfree, by rw [← hmap]⟩

theorem scanVfd_map (fuel : Nat) (t : FdTable) : (scanVfd fuel t).2.map = t.map := by
  induction fuel generalizing t with
  | zero => rfl
  | succ fuel ih =>
    rw [scanVfd]
    dsimp only
    split
    · exact ih _
    · rfl

/-- When no number is left, the descriptors stay. -/
theorem insertNew_none {t t' : FdTable} {handle : VirtualFileHandle}
    (h : t.insertNew handle = (none, t')) : t'.map = t.map := by
  unfold insertNew at h
  rcases hn : t.nextVfd with ⟨_ | n, t₁⟩
  · rw [hn] at h
    cases h
    unfold nextVfd at hn
    split at hn
    · cases hn
      rfl
    · rw [← scanVfd_map maxVfds t, hn]
  · rw [hn] at h
    cases h

@[simp] theorem getElem?_setHandle_self (t : FdTable) (fd : Nat) (handle : VirtualFileHandle) :
    (t.setHandle fd handle).map[fd]? = some handle := by
  simp [setHandle]

/-- Whether a number is left does not depend on the handle. -/
theorem insertNew_isSome (t : FdTable) (handle : VirtualFileHandle) :
    (t.insertNew handle).1 = t.nextVfd.1 := by
  unfold insertNew
  rcases t.nextVfd with ⟨_ | fd, t⟩ <;> rfl

end FdTable
end KinVfs
