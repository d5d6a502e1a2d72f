import KinVfs.Lib.Inodes
import KinVfs.Lib.Runs
import KinVfs.Shim.Process

/-!
# Duplicates of a descriptor being written (`crates/kin-vfs-shim/src/intercept.rs`, `fd_table.rs`)

An open for writing tracks the number that the kernel gave out, and `close` of that number renames the
temp file to the path and queues a notification. `dup` and `dup2` of a kernel descriptor go to the kernel:
a duplicate shares the open file and is not tracked, and a number that `dup2` takes away keeps its entry.

So an open lands (`FinishedWrite.Landed`) as long as its tracked number is closed by `close`, nothing is
written through a duplicate afterwards, and no other open minds its names before its last descriptor is
gone (`all_landed`). Host calls succeed here; the kernel gives out any number that is free.
-/

namespace KinVfs

open Inodes

/-- The graph's answer to the read that seeds a temp file. -/
inductive SeedAnswer where
  | found (content : Bytes)
  | notFound
  /-- The open fails. -/
  | failed
  deriving DecidableEq

/-- An open for writing, and the open file that every duplicate of its descriptor shares. The last two
fields are history: the bytes it started from with what was written since, and whether a notification for
the path was queued since the last write. -/
structure WriteOpen where
  path : Bytes
  temp : Option Bytes
  fd : Nat
  inode : Nat
  offset : Nat
  writable : Bool
  append : Bool
  own : Bytes
  announced : Bool
  deriving DecidableEq

/-- An open whose last descriptor is gone, and what its path holds then. -/
structure FinishedWrite where
  own : Bytes
  target : Option Bytes
  announced : Bool
  deriving DecidableEq

/-- The path holds what was written, and a notification was queued after the last write. -/
def FinishedWrite.Landed (f : FinishedWrite) : Prop := f.target = some f.own ∧ f.announced = true

/-- One process: the host's files, the kernel's descriptors, the shim's table and the queue. -/
structure WriteTracking where
  files : Dir Posix.Path Bytes
  /-- The open that a number is of; `some none` is any other file. -/
  fds : Nat → Option (Option Nat)
  opens : List WriteOpen
  table : FdTable
  queue : List VfsPath
  finished : List FinishedWrite

inductive WriteCall where
  /-- An open of a workspace path with write flags; `fd` is the number that the kernel gives out. -/
  | openWrite (fd : Nat) (flags : OpenFlags) (path : Bytes) (answer : SeedAnswer)
  /-- An open of anything else. -/
  | openOther (fd : Nat)
  | dup (old new : Nat)
  | dup2 (old new : Nat)
  | write (fd : Nat) (data : Bytes)
  | close (fd : Nat)

/-- `<name>.kin_tmp_*` in the directory of the path. -/
def isStaleTemp (path : Bytes) (name : Posix.Path) : Bool :=
  match (diskPath path).getLast?, name.getLast? with
  | some file, some last =>
    name.dropLast = (diskPath path).dropLast && (file ++ tempMarker).isPrefixOf last
  | _, _ => false

namespace WriteTracking

section Step

variable (roots : List Bytes) (pid : Int)

def setFd (s : WriteTracking) (fd : Nat) (e : Option (Option Nat)) : WriteTracking :=
  { s with fds := Function.update s.fds fd e }

/-- Some descriptor is of the open. -/
def refers (s : WriteTracking) (i : Nat) : Bool :=
  (List.range s.table.base).any fun fd => s.fds fd = some (some i)

/-- A descriptor of an open is gone, perhaps the last one. -/
def settle (s : WriteTracking) (i : Nat) : WriteTracking :=
  match s.opens[i]? with
  | some w =>
    if s.refers i then s
    else { s with finished := s.finished ++
      [⟨w.own, (s.files.entries (diskPath w.path)).map s.files.data, w.announced⟩] }
  | none => s

/-- What was behind a number. -/
def release (s : WriteTracking) : Option (Option Nat) → WriteTracking
  | some (some i) => s.settle i
  | _ => s

/-- `notify_write_path`: a path that has no key is dropped. -/
def notifyWritePath (s : WriteTracking) (path : Option Bytes) : WriteTracking :=
  match path.bind (graphRequestKey roots) with
  | some key =>
    { s with
      queue := s.queue ++ [key]
      opens := s.opens.map fun w =>
        if graphRequestKey roots w.path = some key then { w with announced := true } else w }
  | none => s

/-- `track_write`, and `track_atomic_write` when there is a temp file. -/
def track (table : FdTable) (fd : Nat) (path : Bytes) : Option Bytes → FdTable
  | some temp => (table.trackWrite fd path).trackAtomicWrite fd path temp
  | none => table.trackWrite fd path

/-- A descriptor of `name`, for the path. -/
def opened (s : WriteTracking) (fd : Nat) (flags : OpenFlags) (path : Bytes) (temp : Option Bytes)
    (name : Posix.Path) : WriteTracking :=
  let r := s.files.creat name []
  let files := if flags.trunc then r.2.put r.1 [] else r.2
  { s with
    files := files
    fds := Function.update s.fds fd (some (some s.opens.length))
    opens := s.opens ++ [{
      path := path
      temp := temp
      fd := fd
      inode := r.1
      offset := 0
      writable := flags.wronly || flags.rdwr
      append := flags.append
      own := files.data r.1
      announced := false }]
    table := track s.table fd path temp }

/-- `open(2)` with the caller's flags. -/
def realOpen (s : WriteTracking) (fd : Nat) (flags : OpenFlags) (path : Bytes) (temp : Option Bytes)
    (name : Posix.Path) : WriteTracking :=
  match s.files.entries name with
  | some _ =>
    if flags.creat && flags.excl then s
    else if flags.directory then s
    else s.opened fd flags path temp name
  | none => if flags.creat then s.opened fd flags path temp name else s

/-- `materialize_file` and the open of what it leaves. -/
def openWrite (s : WriteTracking) (fd : Nat) (flags : OpenFlags) (path : Bytes) (answer : SeedAnswer) :
    WriteTracking :=
  let s := { s with files := s.files.sweep (isStaleTemp path) }
  match answer with
  | .failed => s
  | .found content =>
    let temp := atomicTempPath path pid
    let r := s.files.creat (diskPath temp) content
    WriteTracking.realOpen { s with files := r.2.put r.1 content } fd flags path (some temp)
      (diskPath temp)
  | .notFound => if flags.creat then s.realOpen fd flags path none (diskPath path) else s

/-- `write(2)` at the shared offset, or at the end. -/
def write (s : WriteTracking) (i : Nat) (data : Bytes) : WriteTracking :=
  match s.opens[i]? with
  | some w =>
    if w.writable = false ∨ data = [] then s
    else
      let offset := if w.append then (s.files.data w.inode).length else w.offset
      { s with
        files := s.files.put w.inode (Content.overwrite (s.files.data w.inode) offset data)
        opens := s.opens.set i { w with
          offset := offset + data.length
          own := Content.overwrite w.own (if w.append then w.own.length else w.offset) data
          announced := false } }
  | none => s

/-- The table without the writes of the number. -/
def untrack (table : FdTable) (fd : Nat) : FdTable := ((table.closeAtomicWrite fd).2.closeWrite fd).2

/-- What `close` does after the kernel closed the number. -/
def promote (s : WriteTracking) (atomic : Option AtomicWriteEntry) (path : Option Bytes) :
    WriteTracking :=
  match atomic with
  | some entry =>
    match s.files.rename (diskPath entry.tempPath) (diskPath entry.targetPath) with
    | some files => WriteTracking.notifyWritePath roots { s with files := files } path
    | none => s
  | none => s.notifyWritePath roots path

def step (s : WriteTracking) : WriteCall → Option WriteTracking
  | .openWrite fd flags path answer =>
    if s.fds fd = none ∧ fd < s.table.base ∧ isWriteFlags flags ∧ endsInName path ∧
        (graphRequestKey roots path).isSome then
      some (s.openWrite pid fd flags path answer)
    else none
  | .openOther fd =>
    if s.fds fd = none ∧ fd < s.table.base then some (s.setFd fd (some none)) else none
  | .dup old new =>
    match s.fds old with
    | some e => if s.fds new = none ∧ new < s.table.base then some (s.setFd new (some e)) else none
    | none => some s
  | .dup2 old new =>
    match s.fds old with
    | some e =>
      if old = new then some s
      else if new < s.table.base then some ((s.setFd new (some e)).release (s.fds new))
      else some s
    | none => some s
  | .write fd data =>
    match s.fds fd with
    | some (some i) => some (s.write i data)
    | _ => some s
  | .close fd =>
    let s' := { s with table := untrack s.table fd }
    match s.fds fd with
    | some e =>
      some (((s'.setFd fd none).promote roots s.table.atomicWrites[fd]? s.table.writeFds[fd]?).release
        (some e))
    | none => some s'

/-- A process with other descriptors, and files with a name each. -/
structure Start (s : WriteTracking) : Prop where
  files : s.files.Wf
  fds : ∀ fd e, s.fds fd = some e → e = none ∧ fd < s.table.base
  opens : s.opens = []
  table : ∀ fd : Nat, s.table.writeFds[fd]? = none ∧ s.table.atomicWrites[fd]? = none
  finished : s.finished = []

end Step

/-- The number that the open was given is still of it, and tracked. -/
def Tracks (s : WriteTracking) (i : Nat) (w : WriteOpen) : Prop :=
  s.fds w.fd = some (some i) ∧ s.table.writeFds[w.fd]? ≠ none

end WriteTracking

/-- Every open that ended did so with its bytes at the path and a notification. -/
def AllLanded (s : WriteTracking) : Prop := ∀ f ∈ s.finished, f.Landed

/-- The names that matter to an open. -/
def WriteOpen.names (w : WriteOpen) : List Posix.Path :=
  diskPath w.path :: (w.temp.map diskPath).toList

/-- An open of the path removes or writes the name. -/
def minds (pid : Int) (path : Bytes) (name : Posix.Path) : Bool :=
  isStaleTemp path name || name = diskPath path || name = diskPath (atomicTempPath path pid)

/-- An open minds no name of an open that still has a descriptor; `dup2` takes no tracked number; what is
written is written to an open whose number is tracked. -/
def KeepsTrack (pid : Int) (s : WriteTracking) : WriteCall → Prop
  | .openWrite _ _ path _ => ∀ i w, s.opens[i]? = some w → (∃ fd, s.fds fd = some (some i)) →
      ∀ name ∈ w.names, minds pid path name = false
  | .dup2 old new => s.fds old ≠ none → old ≠ new → s.table.writeFds[new]? = none
  | .write fd data => data ≠ [] → ∀ i w, s.fds fd = some (some i) → s.opens[i]? = some w →
      w.writable = true → s.Tracks i w
  | _ => True

/-! ## The invariant -/

namespace WriteTracking

/-- Where the open's file is while its number is tracked. -/
def live (w : WriteOpen) : Posix.Path := diskPath (w.temp.getD w.path)

variable {roots : List Bytes} {pid : Int} {s s' : WriteTracking} {fd i : Nat} {w : WriteOpen}

theorem live_mem (w : WriteOpen) : live w ∈ w.names := by
  unfold live WriteOpen.names
  cases w.temp with
  | none => exact List.mem_cons_self
  | some temp => exact List.mem_cons_of_mem _ List.mem_cons_self

theorem path_mem (w : WriteOpen) : diskPath w.path ∈ w.names := List.mem_cons_self

def Referenced (s : WriteTracking) (i : Nat) : Prop := ∃ fd, s.fds fd = some (some i)

/-- The open's file is where it belongs, with what was written. -/
structure Held (s : WriteTracking) (i : Nat) (w : WriteOpen) : Prop where
  data : s.files.data w.inode = w.own
  place : (s.Tracks i w ∧ s.files.entries (live w) = some w.inode) ∨
    (¬ s.Tracks i w ∧ s.files.entries (diskPath w.path) = some w.inode ∧ w.announced = true)

/-- A tracked number is of the open that it was given to, and the opens that have a descriptor hold their
own files. -/
structure Inv (roots : List Bytes) (s : WriteTracking) : Prop where
  wf : s.files.Wf
  below : ∀ fd e, s.fds fd = some e → fd < s.table.base
  known : ∀ fd i, s.fds fd = some (some i) → ∃ w, s.opens[i]? = some w
  tracked : ∀ (fd : Nat) path, s.table.writeFds[fd]? = some path → ∃ i w, s.fds fd = some (some i) ∧
    s.opens[i]? = some w ∧ w.fd = fd ∧ w.path = path ∧
    s.table.atomicWrites[fd]? = w.temp.map (AtomicWriteEntry.mk path)
  untracked : ∀ fd : Nat, s.table.writeFds[fd]? = none → s.table.atomicWrites[fd]? = none
  held : ∀ i w, s.opens[i]? = some w → s.Referenced i → s.Held i w
  apart : ∀ i j w w', s.opens[i]? = some w → s.opens[j]? = some w' → s.Referenced i → s.Referenced j →
    i ≠ j → ∀ n ∈ w.names, n ∉ w'.names
  keyed : ∀ (i : Nat) (w : WriteOpen), s.opens[i]? = some w → (graphRequestKey roots w.path).isSome
  landed : AllLanded s

theorem refers_iff (h : s.Inv roots) : s.refers i = true ↔ s.Referenced i := by
  unfold refers
  rw [List.any_eq_true]
  constructor
  · rintro ⟨fd, -, hfd⟩
    exact ⟨fd, of_decide_eq_true hfd⟩
  · rintro ⟨fd, hfd⟩
    exact ⟨fd, List.mem_range.mpr (h.below fd _ hfd), decide_eq_true hfd⟩

/-- The name of the open's file. -/
theorem Held.name (h : s.Held i w) : ∃ n ∈ w.names, s.files.entries n = some w.inode := by
  rcases h.place with ⟨-, hat⟩ | ⟨-, hat, -⟩
  · exact ⟨_, live_mem w, hat⟩
  · exact ⟨_, path_mem w, hat⟩

/-- Opens hold files of their own. -/
theorem Inv.inode_ne (h : s.Inv roots) {j : Nat} {w' : WriteOpen} (hi : s.opens[i]? = some w)
    (hj : s.opens[j]? = some w') (hri : s.Referenced i) (hrj : s.Referenced j) (hne : i ≠ j) :
    w.inode ≠ w'.inode := by
  intro heq
  obtain ⟨n, hn, hat⟩ := (h.held i w hi hri).name
  obtain ⟨n', hn', hat'⟩ := (h.held j w' hj hrj).name
  rw [heq] at hat
  exact h.apart i j w w' hi hj hri hrj hne n hn (h.wf.one n n' _ hat hat' ▸ hn')

theorem Start.inv (h : s.Start) : s.Inv roots where
  wf := h.files
  below fd e he := (h.fds fd e he).2
  known fd i he := nomatch (h.fds fd _ he).1
  tracked fd path hp := by
    rw [(h.table fd).1] at hp
    cases hp
  untracked fd _ := (h.table fd).2
  held i w hw := by simp [h.opens] at hw
  apart i j w w' hw := by simp [h.opens] at hw
  keyed i w hw := by simp [h.opens] at hw
  landed f hf := by simp [h.finished] at hf

/-- The opens that have a descriptor keep their files. -/
def Spares (s : WriteTracking) (files : Dir Posix.Path Bytes) : Prop :=
  ∀ i w, s.opens[i]? = some w → s.Referenced i → ∀ n ∈ w.names, s.files.entries n = some w.inode →
    Dir.Kept s.files files n w.inode

theorem Held.spared (h : s.Held i w) {files : Dir Posix.Path Bytes}
    (hkept : ∀ n ∈ w.names, s.files.entries n = some w.inode → Dir.Kept s.files files n w.inode) :
    Held { s with files := files } i w := by
  obtain ⟨n, hn, hat⟩ := h.name
  refine ⟨(hkept n hn hat).data.trans h.data, ?_⟩
  rcases h.place with ⟨ht, hat⟩ | ⟨ht, hat, ha⟩
  · exact .inl ⟨ht, (hkept _ (live_mem w) hat).entry⟩
  · exact .inr ⟨ht, (hkept _ (path_mem w) hat).entry, ha⟩

theorem Inv.setFiles (h : s.Inv roots) {files : Dir Posix.Path Bytes} (hwf : files.Wf)
    (hkept : s.Spares files) : Inv roots { s with files := files } :=
  { h with
    wf := hwf
    held := fun i w hw hr => (h.held i w hw hr).spared (hkept i w hw hr) }

/-- A free number is not tracked. -/
theorem Inv.untracked_of_free (h : s.Inv roots) (hfd : s.fds fd = none) :
    s.table.writeFds[fd]? = none := by
  cases hp : s.table.writeFds[fd]? with
  | none => rfl
  | some path =>
    obtain ⟨i, w, hi, -⟩ := h.tracked fd path hp
    rw [hfd] at hi
    cases hi

/-- A number that is not tracked is given something that has a descriptor already, or nothing. -/
theorem Inv.setFd (h : s.Inv roots) {e : Option (Option Nat)} (hfree : s.table.writeFds[fd]? = none)
    (hlt : fd < s.table.base) (he : ∀ i, e = some (some i) → s.Referenced i) :
    (s.setFd fd e).Inv roots := by
  have hback : ∀ i, (s.setFd fd e).Referenced i → s.Referenced i := by
    rintro i ⟨fd', hfd'⟩
    unfold WriteTracking.setFd at hfd'
    dsimp only at hfd'
    by_cases heq : fd' = fd
    · subst heq
      rw [Function.update_self] at hfd'
      exact he i hfd'
    · rw [Function.update_of_ne heq] at hfd'
      exact ⟨fd', hfd'⟩
  have htracks : ∀ i w, (s.setFd fd e).Tracks i w ↔ s.Tracks i w := by
    intro i w
    unfold Tracks WriteTracking.setFd
    dsimp only
    by_cases heq : w.fd = fd
    · rw [heq, hfree]
      simp
    · rw [Function.update_of_ne heq]
  refine { h with below := ?_, known := ?_, tracked := ?_, held := ?_, apart := ?_ }
  · intro fd' e' hfd'
    unfold WriteTracking.setFd at hfd'
    dsimp only at hfd'
    by_cases heq : fd' = fd
    · rw [heq]
      exact hlt
    · rw [Function.update_of_ne heq] at hfd'
      exact h.below fd' e' hfd'
  · intro fd' i hfd'
    obtain ⟨fd'', hfd''⟩ := hback i ⟨fd', hfd'⟩
    exact h.known fd'' i hfd''
  · intro fd' path hp
    have hp' : s.table.writeFds[fd']? = some path := hp
    obtain ⟨i, w, hfd', hw, hrest⟩ := h.tracked fd' path hp'
    have hne : fd' ≠ fd := by
      rintro rfl
      rw [hfree] at hp'
      cases hp'
    exact ⟨i, w, (Function.update_of_ne hne _ _).trans hfd', hw, hrest⟩
  · intro i w hw hr
    obtain ⟨hdata, hplace⟩ := h.held i w hw (hback i hr)
    refine ⟨hdata, ?_⟩
    rw [htracks i w]
    exact hplace
  · intro i j w w' hw hw' hr hr'
    exact h.apart i j w w' hw hw' (hback i hr) (hback j hr')

/-- An open that may be over, with its file at the path. -/
theorem Inv.settle (h : s.Inv roots)
    (hland : ∀ w, s.opens[i]? = some w → ¬ s.Referenced i →
      s.files.entries (diskPath w.path) = some w.inode ∧ s.files.data w.inode = w.own ∧
        w.announced = true) : (s.settle i).Inv roots := by
  unfold WriteTracking.settle
  cases hw : s.opens[i]? with
  | none => exact h
  | some w =>
    dsimp only
    split
    · exact h
    · rename_i hnot
      rw [refers_iff h] at hnot
      obtain ⟨hat, hdata, hann⟩ := hland w hw hnot
      refine { h with
        held := fun j w' hw' hr => ⟨(h.held j w' hw' hr).data, (h.held j w' hw' hr).place⟩
        landed := fun f hf => ?_ }
      rcases List.mem_append.mp hf with hf | hf
      · exact h.landed f hf
      · rw [List.mem_singleton.mp hf]
        refine ⟨?_, hann⟩
        dsimp only
        rw [hat, Option.map_some, hdata]

/-- The last descriptor of an open that is not tracked any more. -/
theorem Inv.release_setFd (h : s.Inv roots) {e : Option (Option Nat)}
    (hfree : s.table.writeFds[fd]? = none) (hlt : fd < s.table.base)
    (he : ∀ i, e = some (some i) → s.Referenced i) :
    ((s.setFd fd e).release (s.fds fd)).Inv roots := by
  have hset := h.setFd hfree hlt he
  rcases hold : s.fds fd with _ | _ | i
  · exact hset
  · exact hset
  · refine hset.settle fun w hw hnot => ?_
    obtain ⟨hdata, hplace⟩ := h.held i w hw ⟨fd, hold⟩
    rcases hplace with ⟨⟨hfd, htracked⟩, -⟩ | ⟨-, hat, hann⟩
    · -- A tracked number would still be of the open.
      have hne : w.fd ≠ fd := by
        intro heq
        rw [heq] at htracked
        exact htracked hfree
      exact absurd ⟨w.fd, (Function.update_of_ne hne _ _).trans hfd⟩ hnot
    · exact ⟨hat, hdata, hann⟩

/-! ## Opening -/

theorem spares_sweep {path : Bytes} (hfree : ∀ i w, s.opens[i]? = some w → s.Referenced i → ∀ n ∈ w.names,
    isStaleTemp path n = false) : s.Spares (s.files.sweep (isStaleTemp path)) :=
  fun i w hw hr n hn hat => Dir.kept_sweep hat (hfree i w hw hr n hn)

section Track

variable {table : FdTable} {path : Bytes} {temp : Option Bytes} {fd' : Nat}

theorem track_base : (track table fd path temp).base = table.base := by cases temp <;> rfl

theorem track_writeFds : (track table fd path temp).writeFds = table.writeFds.insert fd path := by
  cases temp <;> rfl

theorem track_writeFds_self : (track table fd path temp).writeFds[fd]? = some path := by
  rw [track_writeFds, Std.ExtTreeMap.getElem?_insert_self]

theorem track_writeFds_of_ne (h : fd' ≠ fd) :
    (track table fd path temp).writeFds[fd']? = table.writeFds[fd']? := by
  rw [track_writeFds, Std.ExtTreeMap.getElem?_insert, if_neg]
  exact fun heq => h (Nat.compare_eq_eq.mp heq).symm

theorem track_atomicWrites_self (h : table.atomicWrites[fd]? = none) :
    (track table fd path temp).atomicWrites[fd]? = temp.map (AtomicWriteEntry.mk path) := by
  cases temp with
  | none => exact h
  | some t => exact Std.ExtTreeMap.getElem?_insert_self

theorem track_atomicWrites_of_ne (h : fd' ≠ fd) :
    (track table fd path temp).atomicWrites[fd']? = table.atomicWrites[fd']? := by
  cases temp with
  | none => rfl
  | some t =>
    refine (Std.ExtTreeMap.getElem?_insert ..).trans (if_neg ?_)
    exact fun heq => h (Nat.compare_eq_eq.mp heq).symm

end Track

/-- The file that an open gets a descriptor of, among those of the others. -/
theorem spares_creat (h : s.Inv roots) {name : Posix.Path} {x y : Bytes}
    (hfree : ∀ i w, s.opens[i]? = some w → s.Referenced i → ∀ n ∈ w.names, n ≠ name) :
    s.Spares (s.files.creat name x).2 ∧
      s.Spares ((s.files.creat name x).2.put (s.files.creat name x).1 y) := by
  constructor
  · intro i w hw hr n hn hat
    exact Dir.kept_creat h.wf hat (hfree i w hw hr n hn)
  · intro i w hw hr n hn hat
    have hkept := Dir.kept_creat (x := x) h.wf hat (hfree i w hw hr n hn)
    exact hkept.trans (Dir.kept_put hkept.entry (Dir.creat_ne h.wf hat (hfree i w hw hr n hn)))

theorem getElem?_append_singleton {opens : List WriteOpen} {j : Nat} {w' : WriteOpen}
    (h : (opens ++ [w])[j]? = some w') :
    (j < opens.length ∧ opens[j]? = some w') ∨ (j = opens.length ∧ w' = w) := by
  rcases Nat.lt_trichotomy j opens.length with hlt | rfl | hgt
  · rw [List.getElem?_append_left hlt] at h
    exact .inl ⟨hlt, h⟩
  · rw [List.getElem?_concat_length] at h
    exact .inr ⟨rfl, (Option.some.inj h).symm⟩
  · rw [List.getElem?_append_right (Nat.le_of_lt hgt), List.getElem?_eq_none (by simp; omega)] at h
    cases h

/-- One more open, with a file of its own. -/
theorem Inv.adopt (h : s.Inv roots) {files : Dir Posix.Path Bytes} (hfd : s.fds w.fd = none)
    (hlt : w.fd < s.table.base) (hkey : (graphRequestKey roots w.path).isSome) (hwf : files.Wf)
    (hspares : s.Spares files) (hentry : files.entries (live w) = some w.inode)
    (hdata : files.data w.inode = w.own)
    (hfree : ∀ i w', s.opens[i]? = some w' → s.Referenced i → ∀ n ∈ w'.names, n ∉ w.names) :
    Inv roots { s with
      files := files
      fds := Function.update s.fds w.fd (some (some s.opens.length))
      opens := s.opens ++ [w]
      table := track s.table w.fd w.path w.temp } := by
  have hnone : s.table.writeFds[w.fd]? = none := h.untracked_of_free hfd
  -- The older opens have the descriptors they had.
  have hback : ∀ fd i, i < s.opens.length →
      Function.update s.fds w.fd (some (some s.opens.length)) fd = some (some i) →
      s.fds fd = some (some i) := by
    intro fd i hi hat
    by_cases heq : fd = w.fd
    · subst heq
      rw [Function.update_self] at hat
      cases hat
      exact absurd hi (Nat.lt_irrefl _)
    · rwa [Function.update_of_ne heq] at hat
  refine
    { wf := hwf, below := ?_, known := ?_, tracked := ?_, untracked := ?_, held := ?_, apart := ?_,
      keyed := ?_, landed := h.landed }
  · intro fd e hat
    dsimp only at hat ⊢
    rw [track_base]
    by_cases heq : fd = w.fd
    · rw [heq]
      exact hlt
    · rw [Function.update_of_ne heq] at hat
      exact h.below fd e hat
  · intro fd i hat
    dsimp only at hat ⊢
    by_cases heq : fd = w.fd
    · subst heq
      rw [Function.update_self] at hat
      cases hat
      exact ⟨w, List.getElem?_concat_length⟩
    · rw [Function.update_of_ne heq] at hat
      obtain ⟨w', hw'⟩ := h.known fd i hat
      exact ⟨w', by rw [List.getElem?_append_left (List.getElem?_eq_some_iff.mp hw').1, hw']⟩
  · intro fd p hp
    dsimp only at hp ⊢
    by_cases heq : fd = w.fd
    · subst heq
      rw [track_writeFds_self] at hp
      cases hp
      exact ⟨_, w, Function.update_self .., List.getElem?_concat_length, rfl, rfl,
        track_atomicWrites_self (h.untracked _ hnone)⟩
    · rw [track_writeFds_of_ne heq] at hp
      obtain ⟨i, w', hi, hw', hrest⟩ := h.tracked fd p hp
      refine ⟨i, w', (Function.update_of_ne heq _ _).trans hi, ?_, ?_⟩
      · rw [List.getElem?_append_left (List.getElem?_eq_some_iff.mp hw').1, hw']
      · rw [track_atomicWrites_of_ne heq]
        exact hrest
  · intro fd hp
    dsimp only at hp ⊢
    by_cases heq : fd = w.fd
    · subst heq
      rw [track_writeFds_self] at hp
      cases hp
    · rw [track_writeFds_of_ne heq] at hp
      rw [track_atomicWrites_of_ne heq]
      exact h.untracked fd hp
  · intro i w' hw' hr
    rcases getElem?_append_singleton hw' with ⟨hi, hw'⟩ | ⟨rfl, rfl⟩
    · obtain ⟨fd, hat⟩ := hr
      have hr : s.Referenced i := ⟨fd, hback fd i hi hat⟩
      obtain ⟨hd, hplace⟩ := (h.held i w' hw' hr).spared (hspares i w' hw' hr)
      refine ⟨hd, ?_⟩
      have htracks : Tracks { s with
          files := files
          fds := Function.update s.fds w.fd (some (some s.opens.length))
          opens := s.opens ++ [w]
          table := track s.table w.fd w.path w.temp } i w' ↔ s.Tracks i w' := by
        unfold Tracks
        dsimp only
        by_cases heq : w'.fd = w.fd
        · rw [heq, Function.update_self, hfd]
          simp [Nat.ne_of_gt hi]
        · rw [Function.update_of_ne heq, track_writeFds_of_ne heq]
      rw [htracks]
      exact hplace
    · refine ⟨hdata, .inl ⟨⟨Function.update_self .., ?_⟩, hentry⟩⟩
      dsimp only
      rw [track_writeFds_self]
      simp
  · intro i j w₁ w₂ hw₁ hw₂ ⟨fd₁, hr₁⟩ ⟨fd₂, hr₂⟩ hne n hn
    rcases getElem?_append_singleton hw₁ with ⟨hi, hold₁⟩ | ⟨hi, rfl⟩
    · rcases getElem?_append_singleton hw₂ with ⟨hj, hold₂⟩ | ⟨hj, rfl⟩
      · exact h.apart i j w₁ w₂ hold₁ hold₂ ⟨fd₁, hback _ _ hi hr₁⟩ ⟨fd₂, hback _ _ hj hr₂⟩ hne n hn
      · exact hfree i w₁ hold₁ ⟨fd₁, hback _ _ hi hr₁⟩ n hn
    · rcases getElem?_append_singleton hw₂ with ⟨hj, hold₂⟩ | ⟨hj, rfl⟩
      · exact fun hn' => hfree j w₂ hold₂ ⟨fd₂, hback _ _ hj hr₂⟩ n hn' hn
      · exact absurd (hi.trans hj.symm) hne
  · intro i w' hw'
    rcases getElem?_append_singleton hw' with ⟨-, hw'⟩ | ⟨-, rfl⟩
    · exact h.keyed i w' hw'
    · exact hkey

/-- A descriptor of a file that no other open minds. -/
theorem Inv.opened (h : s.Inv roots) (flags : OpenFlags) {path : Bytes} (temp : Option Bytes)
    (hfd : s.fds fd = none) (hlt : fd < s.table.base) (hkey : (graphRequestKey roots path).isSome)
    (hfree : ∀ i w, s.opens[i]? = some w → s.Referenced i → ∀ n ∈ w.names,
      n ∉ diskPath path :: (temp.map diskPath).toList) :
    (s.opened fd flags path temp (diskPath (temp.getD path))).Inv roots := by
  have hname : diskPath (temp.getD path) ∈ diskPath path :: (temp.map diskPath).toList := by
    cases temp <;> simp
  have hne : ∀ i w, s.opens[i]? = some w → s.Referenced i → ∀ n ∈ w.names,
      n ≠ diskPath (temp.getD path) :=
    fun i w hw hr n hn heq => hfree i w hw hr n hn (heq ▸ hname)
  unfold WriteTracking.opened
  dsimp only
  generalize hfiles : (if flags.trunc then
    (s.files.creat (diskPath (temp.getD path)) []).2.put (s.files.creat (diskPath (temp.getD path)) []).1 []
    else (s.files.creat (diskPath (temp.getD path)) []).2) = files
  have hwf : files.Wf := by
    rw [← hfiles]
    split
    · exact (h.wf.creat _ _).put
    · exact h.wf.creat _ _
  have hspares : s.Spares files := by
    rw [← hfiles]
    split
    · exact (spares_creat h hne).2
    · exact (spares_creat (y := []) h hne).1
  have hentry : files.entries (diskPath (temp.getD path)) =
      some (s.files.creat (diskPath (temp.getD path)) []).1 := by
    rw [← hfiles]
    split <;> exact Dir.creat_entry ..
  exact h.adopt (w := ⟨path, temp, fd, _, 0, _, _, _, false⟩) hfd hlt hkey hwf hspares hentry rfl hfree

theorem Inv.realOpen (h : s.Inv roots) (flags : OpenFlags) {path : Bytes} (temp : Option Bytes)
    (hfd : s.fds fd = none) (hlt : fd < s.table.base) (hkey : (graphRequestKey roots path).isSome)
    (hfree : ∀ i w, s.opens[i]? = some w → s.Referenced i → ∀ n ∈ w.names,
      n ∉ diskPath path :: (temp.map diskPath).toList) :
    (s.realOpen fd flags path temp (diskPath (temp.getD path))).Inv roots := by
  have hopened := h.opened flags temp hfd hlt hkey hfree
  unfold WriteTracking.realOpen
  split
  · split
    · exact h
    · split
      · exact h
      · exact hopened
  · split
    · exact hopened
    · exact h

theorem not_minded {path : Bytes} {n : Posix.Path} (h : minds pid path n = false) :
    isStaleTemp path n = false ∧ n ≠ diskPath path ∧ n ≠ diskPath (atomicTempPath path pid) := by
  unfold minds at h
  simpa [and_assoc] using h

theorem Inv.openWrite (h : s.Inv roots) {flags : OpenFlags} {path : Bytes} {answer : SeedAnswer}
    (hfd : s.fds fd = none) (hlt : fd < s.table.base) (hkey : (graphRequestKey roots path).isSome)
    (hfree : ∀ i w, s.opens[i]? = some w → s.Referenced i → ∀ n ∈ w.names, minds pid path n = false) :
    (s.openWrite pid fd flags path answer).Inv roots := by
  have hswept : Inv roots { s with files := s.files.sweep (isStaleTemp path) } :=
    h.setFiles (h.wf.sweep _) (spares_sweep fun i w hw hr n hn => (not_minded (hfree i w hw hr n hn)).1)
  unfold WriteTracking.openWrite
  cases answer with
  | failed => exact hswept
  | found content =>
    have htemp : ∀ i w, s.opens[i]? = some w → s.Referenced i → ∀ n ∈ w.names,
        n ≠ diskPath (atomicTempPath path pid) :=
      fun i w hw hr n hn => (not_minded (hfree i w hw hr n hn)).2.2
    have hseeded := hswept.setFiles (hswept.wf.creat _ _).put (spares_creat (x := content) (y := content)
      hswept htemp).2
    refine hseeded.realOpen flags (some (atomicTempPath path pid)) hfd hlt hkey ?_
    intro i w hw hr n hn
    have hn := not_minded (hfree i w hw hr n hn)
    simp [hn.2.1, hn.2.2]
  | notFound =>
    dsimp only
    split
    · refine hswept.realOpen flags none hfd hlt hkey ?_
      intro i w hw hr n hn
      simp [(not_minded (hfree i w hw hr n hn)).2.1]
    · exact hswept

/-! ## Writing and closing -/

/-- The open, at another offset or with other bytes written. -/
structure Same (w w' : WriteOpen) : Prop where
  path : w'.path = w.path
  temp : w'.temp = w.temp
  fd : w'.fd = w.fd
  inode : w'.inode = w.inode

theorem Same.names {w' : WriteOpen} (h : Same w w') : w'.names = w.names := by
  unfold WriteOpen.names
  rw [h.path, h.temp]

theorem Same.live {w' : WriteOpen} (h : Same w w') : live w' = live w := by
  unfold WriteTracking.live
  rw [h.path, h.temp]

/-- The opens go on, and those that have a descriptor hold their files. -/
theorem Inv.goOn (h : s.Inv roots) {files : Dir Posix.Path Bytes} {opens : List WriteOpen}
    {queue : List VfsPath} (hwf : files.Wf)
    (hsame : ∀ (j : Nat) w, s.opens[j]? = some w → ∃ w', opens[j]? = some w' ∧ Same w w')
    (hback : ∀ (j : Nat) w', opens[j]? = some w' → ∃ w, s.opens[j]? = some w ∧ Same w w')
    (hheld : ∀ (j : Nat) w', opens[j]? = some w' → s.Referenced j →
      Held { s with files := files, opens := opens, queue := queue } j w') :
    Inv roots { s with files := files, opens := opens, queue := queue } where
  wf := hwf
  below := h.below
  known fd j hj := by
    obtain ⟨w, hw⟩ := h.known fd j hj
    obtain ⟨w', hw', -⟩ := hsame j w hw
    exact ⟨w', hw'⟩
  tracked fd path hp := by
    obtain ⟨j, w, hj, hw, hfd, hpath, hatomic⟩ := h.tracked fd path hp
    obtain ⟨w', hw', hs⟩ := hsame j w hw
    exact ⟨j, w', hj, hw', hs.fd.trans hfd, hs.path.trans hpath, by rw [hs.temp]; exact hatomic⟩
  untracked := h.untracked
  held := hheld
  apart i j w₁ w₂ hw₁ hw₂ hr₁ hr₂ hne := by
    obtain ⟨w₁', hold₁, hs₁⟩ := hback i w₁ hw₁
    obtain ⟨w₂', hold₂, hs₂⟩ := hback j w₂ hw₂
    rw [hs₁.names, hs₂.names]
    exact h.apart i j w₁' w₂' hold₁ hold₂ hr₁ hr₂ hne
  keyed j w' hw' := by
    obtain ⟨w, hw, hs⟩ := hback j w' hw'
    rw [hs.path]
    exact h.keyed j w hw
  landed := h.landed

theorem Inv.write (h : s.Inv roots) {data : Bytes} (hr : s.Referenced i)
    (hfollow : data ≠ [] → ∀ w, s.opens[i]? = some w → w.writable = true → s.Tracks i w) :
    (s.write i data).Inv roots := by
  unfold WriteTracking.write
  cases hw : s.opens[i]? with
  | none => exact h
  | some w =>
    dsimp only
    split
    · exact h
    · rename_i hnot
      have htrack : s.Tracks i w := by
        refine hfollow (fun h0 => hnot (.inr h0)) w hw ?_
        cases hwr : w.writable with
        | false => exact absurd (.inl hwr) hnot
        | true => rfl
      have hheld := h.held i w hw hr
      obtain ⟨hi, -⟩ := List.getElem?_eq_some_iff.mp hw
      refine h.goOn h.wf.put ?_ ?_ ?_
      · intro j w₁ hw₁
        by_cases hj : i = j
        · subst hj
          rw [hw] at hw₁
          cases hw₁
          exact ⟨_, List.getElem?_set_self hi, rfl, rfl, rfl, rfl⟩
        · exact ⟨w₁, (List.getElem?_set_ne hj).trans hw₁, rfl, rfl, rfl, rfl⟩
      · intro j w₁ hw₁
        by_cases hj : i = j
        · subst hj
          rw [List.getElem?_set_self hi] at hw₁
          cases hw₁
          exact ⟨w, hw, rfl, rfl, rfl, rfl⟩
        · rw [List.getElem?_set_ne hj] at hw₁
          exact ⟨w₁, hw₁, rfl, rfl, rfl, rfl⟩
      · intro j w₁ hw₁ hrj
        by_cases hj : i = j
        · subst hj
          rw [List.getElem?_set_self hi] at hw₁
          cases hw₁
          refine ⟨?_, .inl ⟨htrack, ?_⟩⟩
          · refine (Function.update_self ..).trans ?_
            dsimp only
            rw [hheld.data]
          · rcases hheld.place with ⟨-, hat⟩ | ⟨hno, -⟩
            · exact hat
            · exact absurd htrack hno
        · rw [List.getElem?_set_ne hj] at hw₁
          have hne := h.inode_ne hw₁ hw hrj hr (Ne.symm hj)
          obtain ⟨hd, hplace⟩ := (h.held j w₁ hw₁ hrj).spared fun n _ hat => Dir.kept_put hat hne
          exact ⟨hd, hplace⟩

/-- A notification: the opens of the path are announced. -/
theorem Inv.notifyWritePath (h : s.Inv roots) (path : Option Bytes) :
    (s.notifyWritePath roots path).Inv roots := by
  unfold WriteTracking.notifyWritePath
  split
  · rename_i key _
    refine h.goOn h.wf ?_ ?_ ?_
    · intro j w hw
      refine ⟨_, by rw [List.getElem?_map, hw]; rfl, ?_⟩
      dsimp only
      split <;> exact ⟨rfl, rfl, rfl, rfl⟩
    · intro j w' hw'
      rw [List.getElem?_map] at hw'
      obtain ⟨w, hw, rfl⟩ := Option.map_eq_some_iff.mp hw'
      refine ⟨w, hw, ?_⟩
      split <;> exact ⟨rfl, rfl, rfl, rfl⟩
    · intro j w' hw' hr
      rw [List.getElem?_map] at hw'
      obtain ⟨w, hw, rfl⟩ := Option.map_eq_some_iff.mp hw'
      obtain ⟨hdata, hplace⟩ := h.held j w hw hr
      split
      · refine ⟨hdata, ?_⟩
        rcases hplace with hplace | ⟨hno, hat, -⟩
        · exact .inl hplace
        · exact .inr ⟨hno, hat, rfl⟩
      · exact ⟨hdata, hplace⟩
  · exact h

theorem untrack_self (table : FdTable) (fd : Nat) :
    (untrack table fd).writeFds[fd]? = none ∧ (untrack table fd).atomicWrites[fd]? = none :=
  ⟨Std.ExtTreeMap.getElem?_erase_self, Std.ExtTreeMap.getElem?_erase_self⟩

theorem untrack_of_ne {table : FdTable} {fd' : Nat} (h : fd' ≠ fd) :
    (untrack table fd).writeFds[fd']? = table.writeFds[fd']? ∧
      (untrack table fd).atomicWrites[fd']? = table.atomicWrites[fd']? := by
  have hne : ¬ compare fd fd' = .eq := fun heq => h (Nat.compare_eq_eq.mp heq).symm
  exact ⟨(Std.ExtTreeMap.getElem?_erase ..).trans (if_neg hne),
    (Std.ExtTreeMap.getElem?_erase ..).trans (if_neg hne)⟩

/-- The tracked number is closed, with the file at the path and a notification queued. -/
theorem Inv.closed (h : s.Inv roots) {files : Dir Posix.Path Bytes} (hi : s.fds w.fd = some (some i))
    (hw : s.opens[i]? = some w) (hann : w.announced = true) (hwf : files.Wf)
    (hat : files.entries (diskPath w.path) = some w.inode)
    (hdata : files.data w.inode = s.files.data w.inode)
    (hspare : ∀ j w', j ≠ i → s.opens[j]? = some w' → s.Referenced j → ∀ n ∈ w'.names,
      s.files.entries n = some w'.inode → Dir.Kept s.files files n w'.inode) :
    Inv roots { s with
      files := files
      table := untrack s.table w.fd
      fds := Function.update s.fds w.fd none } := by
  have hback : ∀ fd e, Function.update s.fds w.fd none fd = some e → fd ≠ w.fd ∧ s.fds fd = some e := by
    intro fd e hfd
    by_cases heq : fd = w.fd
    · subst heq
      rw [Function.update_self] at hfd
      cases hfd
    · rw [Function.update_of_ne heq] at hfd
      exact ⟨heq, hfd⟩
  refine
    { wf := hwf, below := ?_, known := ?_, tracked := ?_, untracked := ?_, held := ?_, apart := ?_,
      keyed := h.keyed, landed := h.landed }
  · intro fd e hfd
    exact h.below fd e (hback fd e hfd).2
  · intro fd j hfd
    exact h.known fd j (hback fd _ hfd).2
  · intro fd path hp
    dsimp only at hp ⊢
    have hne : fd ≠ w.fd := by
      rintro rfl
      rw [(untrack_self _ _).1] at hp
      cases hp
    rw [(untrack_of_ne hne).1] at hp
    rw [(untrack_of_ne hne).2, Function.update_of_ne hne]
    exact h.tracked fd path hp
  · intro fd hp
    dsimp only at hp ⊢
    by_cases hne : fd = w.fd
    · subst hne
      exact (untrack_self _ _).2
    · rw [(untrack_of_ne hne).1] at hp
      rw [(untrack_of_ne hne).2]
      exact h.untracked fd hp
  · intro j w' hw' ⟨fd, hfd⟩
    have hr : s.Referenced j := ⟨fd, (hback fd _ hfd).2⟩
    by_cases hj : j = i
    · subst hj
      rw [hw] at hw'
      cases hw'
      refine ⟨hdata.trans (h.held j w hw hr).data, .inr ⟨fun ht => ?_, hat, hann⟩⟩
      exact (hback _ _ ht.1).1 rfl
    · obtain ⟨hd, hplace⟩ := (h.held j w' hw' hr).spared (hspare j w' hj hw' hr)
      refine ⟨hd, ?_⟩
      have htracks : Tracks { s with
          files := files
          table := untrack s.table w.fd
          fds := Function.update s.fds w.fd none } j w' ↔ s.Tracks j w' := by
        unfold Tracks
        dsimp only
        by_cases heq : w'.fd = w.fd
        · rw [heq, Function.update_self, hi]
          simp [Ne.symm hj]
        · rw [Function.update_of_ne heq, (untrack_of_ne heq).1]
      rw [htracks]
      exact hplace
  · intro j k w₁ w₂ hw₁ hw₂ ⟨fd₁, hr₁⟩ ⟨fd₂, hr₂⟩
    exact h.apart j k w₁ w₂ hw₁ hw₂ ⟨fd₁, (hback _ _ hr₁).2⟩ ⟨fd₂, (hback _ _ hr₂).2⟩

/-- A number that is not tracked may lose the entries it does not have. -/
theorem Inv.untrack (h : s.Inv roots) (hfree : s.table.writeFds[fd]? = none) :
    Inv roots { s with table := WriteTracking.untrack s.table fd } := by
  have hlook : ∀ fd' : Nat, (WriteTracking.untrack s.table fd).writeFds[fd']? = s.table.writeFds[fd']? ∧
      (WriteTracking.untrack s.table fd).atomicWrites[fd']? = s.table.atomicWrites[fd']? := by
    intro fd'
    by_cases heq : fd' = fd
    · subst heq
      rw [(untrack_self _ _).1, (untrack_self _ _).2, hfree, h.untracked _ hfree]
      exact ⟨rfl, rfl⟩
    · exact untrack_of_ne heq
  refine { h with tracked := ?_, untracked := ?_, held := ?_ }
  · intro fd' path hp
    dsimp only at hp ⊢
    rw [(hlook fd').1] at hp
    rw [(hlook fd').2]
    exact h.tracked fd' path hp
  · intro fd' hp
    dsimp only at hp ⊢
    rw [(hlook fd').1] at hp
    rw [(hlook fd').2]
    exact h.untracked fd' hp
  · intro i w hw hr
    obtain ⟨hdata, hplace⟩ := h.held i w hw hr
    refine ⟨hdata, ?_⟩
    unfold Tracks
    dsimp only
    rw [(hlook w.fd).1]
    exact hplace

/-- The file of an open whose number is tracked, after what `close` does with it. -/
theorem promote_eq (h : s.Inv roots) {path : Bytes} (hp : s.table.writeFds[w.fd]? = some path)
    (hi : s.fds w.fd = some (some i)) (hw : s.opens[i]? = some w) (hpath : w.path = path)
    (hatomic : s.table.atomicWrites[w.fd]? = w.temp.map (AtomicWriteEntry.mk path)) :
    ∃ files, files.Wf ∧ files.entries (diskPath w.path) = some w.inode ∧
      files.data w.inode = s.files.data w.inode ∧
      (∀ j w', j ≠ i → s.opens[j]? = some w' → s.Referenced j → ∀ n ∈ w'.names,
        s.files.entries n = some w'.inode → Dir.Kept s.files files n w'.inode) ∧
      ∀ t : WriteTracking, t.files = s.files →
        t.promote roots s.table.atomicWrites[w.fd]? (some path) =
          WriteTracking.notifyWritePath roots { t with files := files } (some path) := by
  have hr : s.Referenced i := ⟨_, hi⟩
  have hheld := h.held i w hw hr
  have hat : s.files.entries (live w) = some w.inode := by
    rcases hheld.place with ⟨-, hat⟩ | ⟨hno, -⟩
    · exact hat
    · exact absurd ⟨hi, by rw [hp]; simp⟩ hno
  rw [hatomic]
  unfold live at hat
  cases htemp : w.temp with
  | none =>
    rw [htemp] at hat
    refine ⟨s.files, h.wf, hat, rfl, fun j w' _ _ _ n _ hn => ⟨hn, rfl⟩, fun t ht => ?_⟩
    unfold promote
    rw [← ht]
    rfl
  | some temp =>
    rw [htemp, Option.getD_some] at hat
    have hren : ∃ files, s.files.rename (diskPath temp) (diskPath path) = some files := by
      unfold Dir.rename
      rw [hat]
      exact ⟨_, rfl⟩
    obtain ⟨files, hren⟩ := hren
    obtain ⟨hentry, hdata⟩ := Dir.rename_entry hren hat
    refine ⟨files, h.wf.rename hren, hpath ▸ hentry, by rw [hdata], ?_, fun t ht => ?_⟩
    · intro j w' hj hw' hrj n hn hatn
      have hnot := h.apart j i w' w hw' hw hrj hr hj n hn
      unfold WriteOpen.names at hnot
      rw [htemp, hpath] at hnot
      refine Dir.kept_rename hren hatn ?_ ?_
      · rintro rfl
        exact hnot (by simp)
      · rintro rfl
        exact hnot (by simp)
    · unfold promote
      simp only [Option.map_some, ht, hren]

/-- The open of a notified path. -/
theorem notified (h : s.Inv roots) (hw : s.opens[i]? = some w) :
    ∃ w', (s.notifyWritePath roots (some w.path)).opens[i]? = some w' ∧ Same w w' ∧ w'.announced = true ∧
      w'.own = w.own := by
  obtain ⟨key, hkey⟩ := Option.isSome_iff_exists.mp (h.keyed i w hw)
  refine ⟨{ w with announced := true }, ?_, ⟨rfl, rfl, rfl, rfl⟩, rfl, rfl⟩
  unfold notifyWritePath
  simp [hkey, hw]

theorem notifyWritePath_rest (roots : List Bytes) (s : WriteTracking) (path : Option Bytes) :
    (s.notifyWritePath roots path).files = s.files ∧ (s.notifyWritePath roots path).fds = s.fds ∧
      (s.notifyWritePath roots path).table = s.table := by
  unfold notifyWritePath
  split <;> exact ⟨rfl, rfl, rfl⟩

/-- A notification does not mind the files, the table or the descriptors. -/
theorem notifyWritePath_with (s : WriteTracking) (path : Option Bytes) (files : Dir Posix.Path Bytes)
    (table : FdTable) (fds : Nat → Option (Option Nat)) :
    WriteTracking.notifyWritePath roots { s with files := files, table := table, fds := fds } path =
      { s.notifyWritePath roots path with files := files, table := table, fds := fds } := by
  unfold notifyWritePath
  dsimp only
  split <;> rfl

theorem notifyWritePath_back {path : Option Bytes} {j : Nat} {w' : WriteOpen}
    (h : (s.notifyWritePath roots path).opens[j]? = some w') :
    ∃ w, s.opens[j]? = some w ∧ Same w w' := by
  unfold notifyWritePath at h
  split at h
  · rw [List.getElem?_map] at h
    obtain ⟨w, hw, rfl⟩ := Option.map_eq_some_iff.mp h
    refine ⟨w, hw, ?_⟩
    split <;> exact ⟨rfl, rfl, rfl, rfl⟩
  · exact ⟨w', h, rfl, rfl, rfl, rfl⟩

/-- The number of an open is closed: its file is at the path, and it is announced. -/
theorem Inv.close_tracked (h : s.Inv roots) {path : Bytes} (hp : s.table.writeFds[fd]? = some path) :
    ∃ i, s.fds fd = some (some i) ∧
      ((WriteTracking.promote roots (WriteTracking.setFd { s with table := WriteTracking.untrack s.table fd }
        fd none) s.table.atomicWrites[fd]? (some path)).settle i).Inv roots := by
  obtain ⟨i, w, hi, hw, rfl, rfl, hatomic⟩ := h.tracked fd path hp
  obtain ⟨files, hwf, hat, hdata, hspare, hpromote⟩ := promote_eq h hp hi hw rfl hatomic
  obtain ⟨wA, hwA, hsame, hann, hown⟩ := notified h hw
  obtain ⟨hfilesA, hfdsA, htableA⟩ := notifyWritePath_rest roots s (some w.path)
  have hA := h.notifyWritePath (some w.path)
  refine ⟨i, hi, ?_⟩
  have hfinal := hpromote (WriteTracking.setFd { s with table := WriteTracking.untrack s.table w.fd } w.fd
    none) rfl
  unfold WriteTracking.setFd at hfinal ⊢
  dsimp only at hfinal ⊢
  rw [hfinal, notifyWritePath_with]
  have hclosed := hA.closed (w := wA) (by rw [hfdsA, hsame.fd, hi]) hwA hann hwf
    (by rw [hsame.path, hsame.inode, hat]) (by rw [hsame.inode, hfilesA, hdata]) (by
      intro j w' hj hw' hr n hn hatn
      obtain ⟨w₀, hw₀, hs⟩ := notifyWritePath_back hw'
      have hr₀ : s.Referenced j := by
        obtain ⟨fd', hfd'⟩ := hr
        exact ⟨fd', by rw [← hfdsA]; exact hfd'⟩
      rw [hs.names] at hn
      rw [hfilesA, hs.inode] at hatn
      rw [hfilesA, hs.inode]
      exact hspare j w₀ hj hw₀ hr₀ n hn hatn)
  rw [hfdsA, htableA, hsame.fd] at hclosed
  refine hclosed.settle fun w' hw' _ => ?_
  have hw'' : (s.notifyWritePath roots (some w.path)).opens[i]? = some w' := hw'
  rw [hwA] at hw''
  cases hw''
  dsimp only
  rw [hsame.path, hsame.inode, hown, hdata]
  exact ⟨hat, (h.held i w hw ⟨_, hi⟩).data, hann⟩

/-- One call that keeps track. -/
theorem step_inv {c : WriteCall} (h : s.Inv roots) (hc : KeepsTrack pid s c)
    (hstep : s.step roots pid c = some s') : s'.Inv roots := by
  cases c with
  | openWrite fd flags path answer =>
    simp only [step] at hstep
    split at hstep
    · rename_i hguard
      obtain ⟨hfd, hlt, -, -, hkey⟩ := hguard
      cases hstep
      exact h.openWrite hfd hlt hkey hc
    · cases hstep
  | openOther fd =>
    simp only [step] at hstep
    split at hstep
    · rename_i hguard
      cases hstep
      exact h.setFd (h.untracked_of_free hguard.1) hguard.2 fun i hi => by cases hi
    · cases hstep
  | dup old new =>
    simp only [step] at hstep
    split at hstep
    · rename_i e hold
      split at hstep
      · rename_i hguard
        cases hstep
        refine h.setFd (h.untracked_of_free hguard.1) hguard.2 fun i hi => ⟨old, ?_⟩
        rw [hold, hi]
      · cases hstep
    · cases hstep
      exact h
  | dup2 old new =>
    simp only [step] at hstep
    split at hstep
    · rename_i e hold
      split at hstep
      · cases hstep
        exact h
      · rename_i hne
        split at hstep
        · rename_i hlt
          cases hstep
          refine h.release_setFd (hc (by rw [hold]; simp) hne) hlt fun i hi => ⟨old, ?_⟩
          rw [hold, hi]
        · cases hstep
          exact h
    · cases hstep
      exact h
  | write fd data =>
    simp only [step] at hstep
    split at hstep
    · rename_i i hfd
      cases hstep
      exact h.write ⟨fd, hfd⟩ fun hne w hw hwr => hc hne i w hfd hw hwr
    · cases hstep
      exact h
  | close fd =>
    simp only [step] at hstep
    cases hp : s.table.writeFds[fd]? with
    | some path =>
      obtain ⟨i, hi, hinv⟩ := h.close_tracked hp
      rw [hi, hp] at hstep
      cases hstep
      exact hinv
    | none =>
      rw [hp, h.untracked fd hp] at hstep
      split at hstep
      · rename_i e hfd
        cases hstep
        have hrelease := (h.untrack hp).release_setFd (e := none) (untrack_self s.table fd).1
          (h.below fd e hfd) fun i hi => by cases hi
        rw [show (WriteTracking.fds { s with table := WriteTracking.untrack s.table fd }) fd = some e from hfd]
          at hrelease
        exact hrelease
      · cases hstep
        exact h.untrack hp

end WriteTracking

namespace Sample

end Sample

end KinVfs
