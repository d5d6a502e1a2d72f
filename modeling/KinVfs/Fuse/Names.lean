import KinVfs.Fuse.Mount
import KinVfs.Lib.Runs

/-!
# What the numbers of the mount stand for

The kernel is given inode numbers and handles, and names a file by them from then on. The inode table and the
handles keep the path that was asked for; a rename moves the entry on the surface and leaves both tables as
they are. So a number stands for its file exactly until a rename moves that file (`survives_iff`).

A `Session` is the mount with the name, at each time, of what each number was given for.
-/

namespace KinVfs.Fuse

open Posix (Fs)
open Fallible

/-- What the kernel is given. -/
inductive Ref where
  | inode (ino : Nat)
  | handle (fh : Nat)
  deriving DecidableEq

/-- The path an operation on the number is of. -/
def KinFuseFs.addressed (m : KinFuseFs) : Ref → Option VfsPath
  | .inode ino => m.inodes.getPath ino
  | .handle fh => (m.handles fh).map (·.path)

/-- The name `dst` with what `n` has after the name `src`. -/
def rebased (src dst n : VfsPath) : VfsPath :=
  .ofComponents (dst.components ++ n.components.drop src.components.length) fun c hc => by
    rcases List.mem_append.mp hc with h | h
    · exact dst.isComponent h
    · exact n.isComponent (List.mem_of_mem_drop h)

/-- The name of an entry after a rename: an entry at or below `src` is moved, one that was at or below `dst`
is replaced. -/
def follow (src dst n : VfsPath) : Option VfsPath :=
  if src.components <+: n.components then some (rebased src dst n)
  else if dst.components <+: n.components then none
  else some n

/-- What the provider answers, path by path, during one operation. -/
abbrev Graph := VfsPath → Answers

/-- The answers about the path an operation is of; an operation without one fails. -/
def Graph.about (graph : Graph) : Except Errno VfsPath → Answers
  | .ok p => graph p
  | .error _ => graph .root

inductive Request where
  | lookup (parent : Nat) (name : Bytes)
  | getattr (ino : Nat)
  | openFile (ino : Nat) (wantsWrite : Bool)
  | write (ino fh : Nat) (offset : Int) (data : Bytes)
  | flush (fh : Nat)
  | release (fh : Nat)
  | rename (parent : Nat) (name : Bytes) (newparent : Nat) (newname : Bytes)

/-- The path of an open handle. -/
def KinFuseFs.handlePath (m : KinFuseFs) (fh : Nat) : Except Errno VfsPath :=
  match m.handles fh with
  | some handle => .ok handle.path
  | none => .error .badf

/-- An operation, and the number its reply gives out. -/
def Request.perform (sha256 : Bytes → Hash256) (graph : Graph) (m : KinFuseFs) : Request → MountM (Option Ref)
  | .lookup parent name => do
    let attr ← Fuse.lookup (graph.about (m.childOf parent name)) parent name
    pure (some (.inode attr.ino))
  | .getattr ino => do
    let _ ← Fuse.getattr (graph.about (m.pathFor ino)) ino
    pure none
  | .openFile ino wantsWrite => do
    let fh ← Fuse.openFile (graph.about (m.pathFor ino)) ino wantsWrite
    pure (some (.handle fh))
  | .write ino fh offset data => do
    let _ ← Fuse.write (graph.about (m.pathOf ino fh)) ino fh offset data
    pure none
  | .flush fh => do
    Fuse.flush sha256 (graph.about (m.handlePath fh)) fh
    pure none
  | .release fh => do
    Fuse.release sha256 (graph.about (m.handlePath fh)) fh
    pure none
  | .rename parent name newparent newname => do
    Fuse.rename sha256
      { graph.about (m.childOf parent name) with
        pollsTo := (graph.about (m.childOf newparent newname)).polls } parent name newparent newname
    pure none

structure Session where
  mount : KinFuseFs
  /-- The name an entry has now, for the number that was given for it. -/
  names : Ref → Option VfsPath

namespace Session

/-- A mount right after its start; the kernel has the root. -/
def start (writer : Option Posix.Path) (umask : Nat) (host : Fs) : Session where
  mount := ⟨.new, writer, fun _ => none, 1, fun _ => false, umask, host⟩
  names r := if r = .inode rootIno then some .root else none

/-- The entry that is meant by a name in the directory of a number. -/
def child (s : Session) (parent : Nat) (name : Bytes) : Option VfsPath :=
  match VfsName.fromBytes name with
  | .ok n => (s.names (.inode parent)).map (·.join n)
  | .error _ => none

/-- The names after an operation. -/
def renamed (s : Session) (given : Option Ref) : Request → Ref → Option VfsPath
  | .lookup parent name, r => if given = some r then s.child parent name else s.names r
  | .openFile ino _, r => if given = some r then s.names (.inode ino) else s.names r
  | .release fh, r => if r = .handle fh then none else s.names r
  | .rename parent name newparent newname, r =>
    match s.child parent name, s.child newparent newname with
    | some src, some dst => (s.names r).bind (follow src dst)
    | _, _ => s.names r
  | _, r => s.names r

/-- One operation that succeeds. -/
def step (sha256 : Bytes → Hash256) (s : Session) : Request × Graph → Option Session
  | (request, graph) =>
    match exec (request.perform sha256 graph s.mount) s.mount with
    | (.ok given, m) => some ⟨m, s.renamed given request⟩
    | (.error _, _) => none

/-- The file a write is meant for: the handle's, or the inode's when there is no such handle. -/
def Means (s : Session) (ino fh : Nat) (n : VfsPath) : Prop :=
  s.names (.handle fh) = some n ∨ s.mount.handles fh = none ∧ s.names (.inode ino) = some n

end Session

/-- The write changed the file of that name and no other file. -/
def WrittenAt (root : Posix.Path) (n : VfsPath) (offset : Nat) (data : Bytes) (fs fs' : Fs) : Prop :=
  ∃ h c, WorkspaceWriter.realPath root fs n = .ok h ∧ (∀ d, fs.shape h = some (.file d) → c = d) ∧
    fs'.shape h = some (.file ((Content.Edit.write offset data).apply c)) ∧
    ∀ r d, r ≠ h → (fs'.shape r = some (.file d) ↔ fs.shape r = some (.file d))

/-- **The property.** Every number the kernel has stands for the file it was given for, under the name that
file has now: a write through it changes the file there and makes no other, a flush succeeds when the file can
be flushed and the graph has it, and its attributes are those the graph reports. -/
structure Survives (sha256 : Bytes → Hash256) (s : Session) : Prop where
  addresses : ∀ r n, s.names r = some n → s.mount.addressed r = some n
  write : ∀ root graph ino fh n offset data s', s.mount.writer = some root → s.Means ino fh n →
    s.step sha256 (.write ino fh offset data, graph) = some s' →
    WrittenAt root n offset.toNat data s.mount.host s'.mount.host
  flush : ∀ root graph fh n fs, s.mount.writer = some root → s.names (.handle fh) = some n →
    exec (WorkspaceWriter.sync root n) s.mount.host = (.ok (), fs) →
    taken sha256 (graph n) root n fs = .ok () → (s.step sha256 (.flush fh, graph)).isSome = true
  getattr : ∀ graph ino n st, s.names (.inode ino) = some n → (graph n).attr = .ok st →
    (s.step sha256 (.getattr ino, graph)).isSome = true

/-- No entry that the kernel has a number for is moved: the operation is no rename, or one onto itself, or no
number stands for the renamed entry or one below it. -/
def Unmoved (s : Session) : Request × Graph → Prop
  | (.rename parent name newparent newname, _) =>
    ∀ src dst, s.child parent name = some src → s.child newparent newname = some dst → src ≠ dst →
      ∀ r n, s.names r = some n → ¬ src.components <+: n.components
  | _ => True

/-! ## The inode table -/

namespace InodeTable

/-- Both directions agree, and the numbers are below the next one. -/
structure Coherent (t : InodeTable) : Prop where
  known : ∀ p i, t.pathToIno p = some i → t.inoToPath i = some p
  bound : ∀ i p, t.inoToPath i = some p → i < t.nextIno

variable {t : InodeTable} {p q : VfsPath} {i : Nat}

theorem new_coherent : Coherent new where
  known p i h := by
    unfold new at h ⊢
    grind
  bound i p h := by
    unfold new rootIno at *
    grind

theorem Coherent.getOrInsert (ht : t.Coherent) : (t.getOrInsert p).2.Coherent := by
  unfold InodeTable.getOrInsert
  cases hp : t.pathToIno p with
  | some i => exact ht
  | none =>
    refine ⟨fun q i h => ?_, fun i q h => ?_⟩
    · dsimp only at h ⊢
      split at h
      · rename_i hq
        cases h
        rw [if_pos rfl, hq]
      · have hi := ht.known q i h
        rw [if_neg (Nat.ne_of_lt (ht.bound i q hi)), hi]
    · dsimp only at h ⊢
      split at h
      · omega
      · exact Nat.lt_succ_of_lt (ht.bound i q h)

/-- The number given for a path leads to it. -/
theorem Coherent.getPath_given (ht : t.Coherent) :
    (t.getOrInsert p).2.getPath (t.getOrInsert p).1 = some p := by
  unfold InodeTable.getOrInsert getPath
  cases hp : t.pathToIno p with
  | some i => exact ht.known p i hp
  | none => simp

/-- The numbers that were given stay. -/
theorem Coherent.getPath_keeps (ht : t.Coherent) (hi : t.getPath i = some q) :
    (t.getOrInsert p).2.getPath i = some q := by
  unfold InodeTable.getOrInsert getPath at *
  cases hp : t.pathToIno p with
  | some j => exact hi
  | none =>
    dsimp only
    rw [if_neg (Nat.ne_of_lt (ht.bound i q hi)), hi]

end InodeTable

/-! ## What the operations do to the tables -/

variable {sha256 : Bytes → Hash256} {answers : Answers} {graph : Graph} {m m' : KinFuseFs} {fs fs' : Fs}
  {root h : Posix.Path} {p n src dst : VfsPath} {ino fh parent newparent : Nat} {name newname : Bytes}

/-- Only the surface and the marks of the handles may differ. -/
structure SameTables (m m' : KinFuseFs) : Prop where
  inodes : m'.inodes = m.inodes
  handles : ∀ fh, (m'.handles fh).map (·.path) = (m.handles fh).map (·.path)

namespace SameTables

theorem refl (m : KinFuseFs) : SameTables m m := ⟨rfl, fun _ => rfl⟩

theorem trans {m₁ m₂ m₃ : KinFuseFs} (h : SameTables m₁ m₂) (h' : SameTables m₂ m₃) : SameTables m₁ m₃ :=
  ⟨h'.inodes.trans h.inodes, fun fh => (h'.handles fh).trans (h.handles fh)⟩

theorem addressed (hs : SameTables m m') (r : Ref) : m'.addressed r = m.addressed r := by
  cases r with
  | inode ino => simp only [KinFuseFs.addressed, hs.inodes]
  | handle fh => exact hs.handles fh

theorem host (m : KinFuseFs) (fs : Fs) : SameTables m { m with host := fs } := ⟨rfl, fun _ => rfl⟩

theorem markDirty (m : KinFuseFs) (fh : Nat) : SameTables m (m.markDirty fh) := by
  refine ⟨rfl, fun f => ?_⟩
  unfold KinFuseFs.markDirty
  dsimp only
  split
  · rw [Option.map_map]
    rfl
  · rfl

theorem clearDirty (m : KinFuseFs) (fh : Nat) : SameTables m (m.clearDirty fh) := by
  refine ⟨rfl, fun f => ?_⟩
  unfold KinFuseFs.clearDirty
  dsimp only
  split
  · rw [Option.map_map]
    rfl
  · rfl

theorem movePending (m : KinFuseFs) (src dst : VfsPath) : SameTables m (m.movePending src dst) := by
  unfold KinFuseFs.movePending
  split
  · exact ⟨rfl, fun _ => rfl⟩
  · exact refl m

end SameTables

/-- A file without a copy is given one, or nothing happens. -/
theorem materializeForWrite_ok (hx : exec (materializeForWrite answers root p) m = (.ok (), m')) :
    m' = m ∨ ∃ h body fs, WorkspaceWriter.realPath root m.host p = .ok h ∧ m.host.shape h = none ∧
      Put m.host fs h body ∧ m' = { m with host := fs } := by
  unfold materializeForWrite at hx
  obtain ⟨_, m₁, hx₁, hx⟩ := exec_bind_ok.mp hx
  cases hx₁
  split at hx
  · cases hx
    exact .inl rfl
  · rename_i habsent
    cases hstat : answers.stat with
    | error e =>
      rw [hstat] at hx
      cases hx
      exact .inl rfl
    | ok st =>
      rw [hstat] at hx
      dsimp only at hx
      split at hx
      · obtain ⟨body, m₂, hx₂, hrest⟩ := exec_bind_ok.mp hx
        obtain ⟨-, rfl⟩ := answer_ok hx₂
        obtain ⟨_, m₃, hx₃, hdisk⟩ := exec_bind_ok.mp hrest
        cases hx₃
        obtain ⟨fs, hfs, rfl⟩ := disk_ok.mp hdisk
        obtain ⟨h, hr, -, -⟩ := WorkspaceWriter.real_of_ok hfs
        have hs := WorkspaceWriter.shape_of_absent (by simpa using habsent) hr
        exact .inr ⟨h, body, fs, hr, hs, WorkspaceWriter.materialize_put hr hs hfs, rfl⟩
      · cases hx
        exact .inl rfl

theorem materializeForWrite_tables (hx : exec (materializeForWrite answers root p) m = (.ok (), m')) :
    SameTables m m' := by
  rcases materializeForWrite_ok hx with rfl | ⟨-, -, fs, -, -, -, rfl⟩
  · exact .refl _
  · exact .host m fs

theorem attrForPath_given {a : FileAttr} (hx : exec (attrForPath answers p) m = (.ok a, m')) :
    a.ino = (m.inodes.getOrInsert p).1 ∧ m' = { m with inodes := (m.inodes.getOrInsert p).2 } := by
  refine ⟨?_, attrForPath_ok hx⟩
  unfold attrForPath at hx
  obtain ⟨_, m₁, hx₁, hx⟩ := exec_bind_ok.mp hx
  cases hx₁
  split at hx
  · cases hx
    rfl
  · split at hx
    · cases hx
      rfl
    · cases hx

theorem lookup_given {a : FileAttr} (hx : exec (lookup answers parent name) m = (.ok a, m')) :
    ∃ p, m.childOf parent name = .ok p ∧ a.ino = (m.inodes.getOrInsert p).1 ∧
      m' = { m with inodes := (m.inodes.getOrInsert p).2 } := by
  unfold lookup at hx
  obtain ⟨p, m₁, hx₁, hx⟩ := exec_bind_ok.mp hx
  rw [exec_ofExcept] at hx₁
  obtain ⟨hp, rfl⟩ := Prod.mk.inj hx₁
  exact ⟨p, hp, attrForPath_given hx⟩

theorem pathFor_ok : m.pathFor ino = .ok p ↔ m.inodes.getPath ino = some p := by
  unfold KinFuseFs.pathFor
  cases m.inodes.getPath ino <;> simp

theorem getattr_given {a : FileAttr} (hx : exec (getattr answers ino) m = (.ok a, m')) :
    ∃ p, m' = { m with inodes := (m.inodes.getOrInsert p).2 } := by
  unfold getattr at hx
  obtain ⟨p, m₁, hx₁, hx⟩ := exec_bind_ok.mp hx
  rw [exec_ofExcept] at hx₁
  obtain ⟨-, rfl⟩ := Prod.mk.inj hx₁
  exact ⟨p, attrForPath_ok hx⟩

theorem openWriter_ok {wantsWrite : Bool} {writer : Option Posix.Path}
    (hx : exec (if wantsWrite then some <$> getWriter else pure none : MountM (Option Posix.Path)) m =
      (.ok writer, m')) : m' = m := by
  split at hx
  · cases hw : m.writer with
    | some root =>
      rw [exec_map, exec_getWriter hw] at hx
      cases hx
      rfl
    | none =>
      simp [getWriter, exec_bind, hw] at hx
  · cases hx
    rfl

theorem checkOpen_ok {writer : Option Posix.Path} (hx : exec (checkOpen answers p writer) m = (.ok (), m')) :
    m' = m := by
  unfold checkOpen at hx
  obtain ⟨_, m₁, hx₁, hx⟩ := exec_bind_ok.mp hx
  cases hx₁
  split at hx
  · split at hx
    · cases hx
      rfl
    · cases hx
  · split at hx
    · cases hx
      rfl
    · cases hx

theorem allocateHandle_ok {wantsWrite : Bool} (hx : exec (allocateHandle p wantsWrite) m = (.ok fh, m')) :
    fh = m.nextFh ∧ m' = { m with
      handles := fun f => if f = m.nextFh then some ⟨p, wantsWrite, false⟩ else m.handles f
      nextFh := m.nextFh + 1 } := by
  cases hx
  exact ⟨rfl, rfl⟩

/-- A handle has the path of the inode it is opened on. -/
theorem openFile_given {wantsWrite : Bool} (hx : exec (openFile answers ino wantsWrite) m = (.ok fh, m')) :
    ∃ p, m.inodes.getPath ino = some p ∧ m'.inodes = m.inodes ∧ m'.addressed (.handle fh) = some p ∧
      ∀ f, f ≠ fh → m'.addressed (.handle f) = m.addressed (.handle f) := by
  unfold openFile at hx
  obtain ⟨writer, m₁, hx₁, hpath⟩ := exec_bind_ok.mp hx
  obtain rfl := openWriter_ok hx₁
  obtain ⟨p, m₂, hx₂, hcheck⟩ := exec_bind_ok.mp hpath
  rw [exec_ofExcept] at hx₂
  obtain ⟨hp, rfl⟩ := Prod.mk.inj hx₂
  obtain ⟨_, m₃, hx₃, hmat⟩ := exec_bind_ok.mp hcheck
  obtain rfl := checkOpen_ok hx₃
  obtain ⟨_, m₄, hx₄, halloc⟩ := exec_bind_ok.mp hmat
  have hs : SameTables m₃ m₄ := by
    cases writer with
    | none =>
      cases hx₄
      exact .refl _
    | some root => exact materializeForWrite_tables hx₄
  obtain ⟨rfl, rfl⟩ := allocateHandle_ok halloc
  refine ⟨p, pathFor_ok.mp hp, hs.inodes, ?_, fun f hf => ?_⟩
  · simp [KinFuseFs.addressed]
  · simp only [KinFuseFs.addressed, if_neg hf]
    exact hs.handles f

/-- One put after another at the same place changes one file. -/
theorem writtenAt_of_put {c : Bytes} {offset : Nat} {data : Bytes}
    (hr : WorkspaceWriter.realPath root fs n = .ok h) (hc : ∀ d, fs.shape h = some (.file d) → c = d)
    (hput : Put fs fs' h ((Content.Edit.write offset data).apply c)) : WrittenAt root n offset data fs fs' := by
  refine ⟨h, c, hr, hc, by rw [hput, if_pos rfl], fun r d hne => ?_⟩
  rw [hput, if_neg hne]
  split
  · rename_i habove
    rw [habove.2]
    simp
  · rfl

/-- A write changes the file its path names, and no other. -/
theorem write_ok {offset : Int} {data : Bytes} {k : Nat} (hw : m.writer = some root)
    (hx : exec (write answers ino fh offset data) m = (.ok k, m')) :
    ∃ p, m.pathOf ino fh = .ok p ∧ SameTables m m' ∧
      WrittenAt root p offset.toNat data m.host m'.host := by
  unfold write at hx
  obtain ⟨r, m₁, hx₁, hbody⟩ := exec_bind_ok.mp hx
  obtain ⟨rfl, rfl⟩ := getWriter_ok hw hx₁
  split at hbody
  · cases hbody
  · obtain ⟨p, m₂, hx₂, hrest⟩ := exec_bind_ok.mp hbody
    rw [exec_ofExcept] at hx₂
    obtain ⟨hp, rfl⟩ := Prod.mk.inj hx₂
    obtain ⟨_, m₃, hx₃, hdisk⟩ := exec_bind_ok.mp hrest
    obtain ⟨written, m₄, hx₄, hmark⟩ := exec_bind_ok.mp hdisk
    obtain ⟨_, m₅, hx₅, hpure⟩ := exec_bind_ok.mp hmark
    cases hx₅
    cases hpure
    obtain ⟨fs, hfs, rfl⟩ := disk_ok.mp hx₄
    refine ⟨p, hp, (materializeForWrite_tables hx₃).trans ((SameTables.host _ fs).trans (.markDirty _ fh)), ?_⟩
    obtain ⟨h, hr, hput⟩ := WorkspaceWriter.writeAt_applies _ _ _ _ _ hfs
    show WrittenAt r p offset.toNat data m₁.host fs
    rcases materializeForWrite_ok hx₃ with rfl | ⟨h', body, fs₁, hr', hs, hput', rfl⟩
    · refine writtenAt_of_put hr (fun d hd => ?_) hput
      rw [WorkspaceWriter.opened, hd]
      rfl
    · obtain ⟨hlex, ht⟩ := WorkspaceWriter.realPath_ok.mp hr'
      have hsame := WorkspaceWriter.realPath_ok.mpr ⟨hlex, hput'.target (.inl hs) ht⟩
      rw [hr] at hsame
      cases hsame
      refine writtenAt_of_put hr' (fun d hd => ?_) (Put.again hput' hput)
      rw [hs] at hd
      cases hd

theorem write_tables {offset : Int} {data : Bytes} {k : Nat}
    (hx : exec (write answers ino fh offset data) m = (.ok k, m')) : SameTables m m' := by
  cases hw : m.writer with
  | none => simp [write, getWriter, exec_bind, hw] at hx
  | some root =>
    obtain ⟨-, -, ht, -⟩ := write_ok hw hx
    exact ht

theorem settle_tables (hx : exec (settle sha256 answers root p) m = (.ok (), m')) : SameTables m m' := by
  unfold settle at hx
  obtain ⟨_, m₁, hx₁, hconv⟩ := exec_bind_ok.mp hx
  obtain ⟨fs, -, rfl⟩ := disk_ok.mp hx₁
  obtain rfl := converge_keeps hconv
  exact .host m fs

theorem flush_tables (hx : exec (flush sha256 answers fh) m = (.ok (), m')) : SameTables m m' := by
  unfold flush at hx
  obtain ⟨_, m₁, hx₁, hrest⟩ := exec_bind_ok.mp hx
  cases hx₁
  split at hrest
  · split at hrest
    · obtain ⟨_, m₂, hx₂, hmod⟩ := exec_bind_ok.mp hrest
      cases hmod
      exact (settle_tables hx₂).trans (.clearDirty _ fh)
    · cases hrest
      exact .refl _
  · cases hrest
    exact .refl _

/-- A step whose own failure is only logged. -/
theorem logged_tables {x : MountM Unit} {u : Unit} (hx : ∀ m, SameTables m (exec x m).2)
    (h : exec (orElse x fun _ => pure ()) m = (.ok u, m')) : SameTables m m' := by
  have hs := hx m
  rw [exec_orElse] at h
  rcases hr : exec x m with ⟨_ | _, m₁⟩
  all_goals
    rw [hr] at h hs
    cases h
    exact hs

/-- A released handle is gone; the others stay. -/
theorem release_given (hx : exec (release sha256 answers fh) m = (.ok (), m')) :
    m'.inodes = m.inodes ∧ m'.addressed (.handle fh) = none ∧
      ∀ f, f ≠ fh → m'.addressed (.handle f) = m.addressed (.handle f) := by
  unfold release at hx
  obtain ⟨_, m₁, hx₁, hrest⟩ := exec_bind_ok.mp hx
  cases hx₁
  obtain ⟨_, m₂, hx₂, htell⟩ := exec_bind_ok.mp hrest
  cases hx₂
  have hs : SameTables { m with handles := fun f => if f = fh then none else m.handles f } m' := by
    split at htell
    · split at htell
      · obtain ⟨_, m₃, hx₃, hconv⟩ := exec_bind_ok.mp htell
        refine (logged_tables (fun m => ?_) hx₃).trans (logged_tables (fun m => ?_) hconv)
        · rw [exec_disk]
          exact .host m _
        · rw [exec_converge]
          exact .refl m
      · cases htell
        exact .refl _
    · cases htell
      exact .refl _
  refine ⟨hs.inodes, ?_, fun f hf => ?_⟩
  · rw [hs.addressed]
    simp [KinFuseFs.addressed]
  · rw [hs.addressed]
    simp only [KinFuseFs.addressed, if_neg hf]

/-- A rename leaves the tables as they are. -/
theorem rename_given (hx : exec (rename sha256 answers parent name newparent newname) m = (.ok (), m')) :
    (∃ src, m.childOf parent name = .ok src) ∧ (∃ dst, m.childOf newparent newname = .ok dst) ∧
      SameTables m m' := by
  unfold rename at hx
  obtain ⟨root, m₁, hx₁, hrest⟩ := exec_bind_ok.mp hx
  have hm₁ : m₁ = m := by
    cases hw : m.writer with
    | none => simp [getWriter, exec_bind, hw] at hx₁
    | some r => exact (getWriter_ok hw hx₁).2
  subst hm₁
  obtain ⟨src, m₂, hx₂, hto⟩ := exec_bind_ok.mp hrest
  rw [exec_ofExcept] at hx₂
  obtain ⟨hsrc, rfl⟩ := Prod.mk.inj hx₂
  obtain ⟨dst, m₃, hx₃, hmove⟩ := exec_bind_ok.mp hto
  rw [exec_ofExcept] at hx₃
  obtain ⟨hdst, rfl⟩ := Prod.mk.inj hx₃
  refine ⟨⟨src, hsrc⟩, ⟨dst, hdst⟩, ?_⟩
  obtain ⟨_, m₄, hx₄, hconv⟩ := exec_bind_ok.mp hmove
  have hs : SameTables m₁ m₄ := by
    rw [exec_moveEntry] at hx₄
    split at hx₄
    · cases hx₄
    · cases hx₄
      exact (SameTables.host m₁ _).trans (.movePending _ src dst)
  rw [exec_orElse, exec_convergeBoth] at hconv
  cases ht : takenBoth sha256 answers root src dst m₄.host with
  | ok u =>
    rw [ht] at hconv
    cases hconv
    exact hs
  | error e =>
    rw [ht] at hconv
    dsimp only at hconv
    rw [exec_undo] at hconv
    cases hconv

/-! ## Runs -/

namespace Session

variable {s s' : Session} {request : Request} {l : Request × Graph} {ls : List (Request × Graph)}

theorem step_ok (hx : s.step sha256 (request, graph) = some s') :
    ∃ given, exec (request.perform sha256 graph s.mount) s.mount = (.ok given, s'.mount) ∧
      s'.names = s.renamed given request := by
  unfold step at hx
  dsimp only at hx
  split at hx
  · rename_i given m hr
    cases hx
    exact ⟨given, hr, rfl⟩
  · cases hx

/-- The numbers lead to the names, and the table is coherent. -/
structure Faithful (s : Session) : Prop where
  coherent : s.mount.inodes.Coherent
  addresses : ∀ r n, s.names r = some n → s.mount.addressed r = some n

theorem start_faithful (writer : Option Posix.Path) (umask : Nat) (host : Fs) :
    (start writer umask host).Faithful where
  coherent := InodeTable.new_coherent
  addresses r n h := by
    simp only [start] at h
    split at h
    · rename_i hr
      cases h
      rw [hr]
      rfl
    · cases h

/-- The entry that is meant is the one the mount takes. -/
theorem Faithful.childOf (hs : s.Faithful) (hp : s.mount.childOf parent name = .ok p)
    (hn : s.child parent name = some n) : n = p := by
  obtain ⟨q, component, hq, rfl, rfl⟩ := childOf_ok hp
  unfold child at hn
  rw [VfsName.fromBytes_ok.mpr rfl] at hn
  obtain ⟨d, hd, rfl⟩ := Option.map_eq_some_iff.mp hn
  have hdir := hs.addresses _ _ hd
  rw [KinFuseFs.addressed, hq] at hdir
  cases hdir
  rfl

/-- Names that are those of before, in tables that are. -/
theorem Faithful.same (hs : s.Faithful) (ht : SameTables s.mount s'.mount) (hn : s'.names = s.names) :
    s'.Faithful where
  coherent := by
    rw [ht.inodes]
    exact hs.coherent
  addresses r n h := by
    rw [ht.addressed]
    rw [hn] at h
    exact hs.addresses r n h

theorem addressed_inodes (hc : m.inodes.Coherent) {r : Ref}
    (hr : m.addressed r = some n) :
    ({ m with inodes := (m.inodes.getOrInsert p).2 } : KinFuseFs).addressed r = some n := by
  cases r with
  | inode ino => exact hc.getPath_keeps hr
  | handle fh => exact hr

/-- One handle comes or goes. -/
theorem addressed_other (hi : m'.inodes = m.inodes)
    (hold : ∀ f, f ≠ fh → m'.addressed (.handle f) = m.addressed (.handle f)) {r : Ref}
    (hr : r ≠ .handle fh) : m'.addressed r = m.addressed r := by
  cases r with
  | inode ino => simp only [KinFuseFs.addressed, hi]
  | handle f => exact hold f (by rintro rfl; exact hr rfl)

theorem follow_of_unmoved (hu : src ≠ dst → ¬ src.components <+: n.components) {n' : VfsPath}
    (hf : follow src dst n = some n') : n' = n := by
  unfold follow at hf
  split at hf
  · rename_i hpre
    obtain rfl : src = dst := by
      by_contra hne
      exact hu hne hpre
    cases hf
    apply VfsPath.ext_components
    obtain ⟨rest, hrest⟩ := hpre
    simp [rebased, ← hrest]
  · split at hf
    · cases hf
    · cases hf
      rfl

/-- **The step.** An operation that moves nothing the kernel has a number for keeps the numbers faithful. -/
theorem Faithful.step (hs : s.Faithful) (hu : Unmoved s l) (hx : s.step sha256 l = some s') : s'.Faithful := by
  obtain ⟨request, graph⟩ := l
  obtain ⟨given, hx, hnames⟩ := step_ok hx
  cases request with
  | lookup parent name =>
    obtain ⟨a, m₁, hl, hp⟩ := exec_bind_ok.mp hx
    obtain ⟨p, hp', hino, hm⟩ := lookup_given hl
    cases hp
    refine ⟨by rw [hm]; exact hs.coherent.getOrInsert, fun r n h => ?_⟩
    rw [hm]
    rw [hnames] at h
    simp only [renamed] at h
    split at h
    · rename_i hr
      cases hr
      rw [hs.childOf hp' h, KinFuseFs.addressed, hino]
      exact hs.coherent.getPath_given
    · exact addressed_inodes hs.coherent (hs.addresses r n h)
  | getattr ino =>
    obtain ⟨a, m₁, hl, hp⟩ := exec_bind_ok.mp hx
    obtain ⟨p, hm⟩ := getattr_given hl
    cases hp
    refine ⟨by rw [hm]; exact hs.coherent.getOrInsert, fun r n h => ?_⟩
    rw [hm]
    rw [hnames] at h
    exact addressed_inodes hs.coherent (hs.addresses r n h)
  | openFile ino wantsWrite =>
    obtain ⟨fh, m₁, hl, hp⟩ := exec_bind_ok.mp hx
    obtain ⟨p, hpath, hinodes, hnew, hold⟩ := openFile_given hl
    cases hp
    refine ⟨by rw [hinodes]; exact hs.coherent, fun r n h => ?_⟩
    rw [hnames] at h
    simp only [renamed] at h
    split at h
    · rename_i hr
      cases hr
      have haddr := hs.addresses _ _ h
      rw [KinFuseFs.addressed, hpath] at haddr
      rw [hnew, haddr]
    · rename_i hr
      rw [addressed_other hinodes hold (by rintro rfl; exact hr rfl)]
      exact hs.addresses r n h
  | write ino fh offset data =>
    obtain ⟨k, m₁, hl, hp⟩ := exec_bind_ok.mp hx
    cases hp
    exact hs.same (write_tables hl) hnames
  | flush fh =>
    obtain ⟨_, m₁, hl, hp⟩ := exec_bind_ok.mp hx
    cases hp
    exact hs.same (flush_tables hl) hnames
  | release fh =>
    obtain ⟨_, m₁, hl, hp⟩ := exec_bind_ok.mp hx
    cases hp
    obtain ⟨hinodes, -, hold⟩ := release_given hl
    refine ⟨by rw [hinodes]; exact hs.coherent, fun r n h => ?_⟩
    rw [hnames] at h
    simp only [renamed] at h
    split at h
    · cases h
    · rename_i hr
      rw [addressed_other hinodes hold hr]
      exact hs.addresses r n h
  | rename parent name newparent newname =>
    obtain ⟨_, m₁, hl, hp⟩ := exec_bind_ok.mp hx
    cases hp
    obtain ⟨-, -, ht⟩ := rename_given hl
    refine ⟨by rw [ht.inodes]; exact hs.coherent, fun r n h => ?_⟩
    rw [ht.addressed]
    rw [hnames] at h
    simp only [renamed] at h
    split at h
    · rename_i src dst hsrc hdst
      obtain ⟨n₀, hn₀, hf⟩ := Option.bind_eq_some_iff.mp h
      rw [follow_of_unmoved (fun hne => hu src dst hsrc hdst hne r n₀ hn₀) hf]
      exact hs.addresses r n₀ hn₀
    · exact hs.addresses r n h

/-- An operation that succeeds is a step. -/
theorem step_isSome
    (hx : ∃ given m', exec (request.perform sha256 graph s.mount) s.mount = (.ok given, m')) :
    (s.step sha256 (request, graph)).isSome = true := by
  obtain ⟨given, m', hx⟩ := hx
  unfold Session.step
  dsimp only
  rw [hx]
  rfl

theorem Faithful.pathOf (hs : s.Faithful) (hn : s.Means ino fh n)
    (hp : s.mount.pathOf ino fh = .ok p) : p = n := by
  unfold KinFuseFs.pathOf at hp
  rcases hn with hn | ⟨hnone, hn⟩
  · have haddr := hs.addresses _ _ hn
    obtain ⟨handle, hh, rfl⟩ := Option.map_eq_some_iff.mp haddr
    rw [hh] at hp
    dsimp only at hp
    split at hp
    · cases hp
      rfl
    · cases hp
  · have haddr := hs.addresses _ _ hn
    rw [hnone] at hp
    rw [KinFuseFs.addressed] at haddr
    rw [haddr] at hp
    cases hp
    rfl

/-- Numbers that lead to the names stand for the files. -/
theorem Faithful.survives (hs : s.Faithful) : Survives sha256 s where
  addresses := hs.addresses
  write root graph ino fh n offset data s' hw hn hx := by
    obtain ⟨given, hx, -⟩ := step_ok hx
    obtain ⟨k, m₁, hl, hp⟩ := exec_bind_ok.mp hx
    cases hp
    obtain ⟨p, hpath, -, hwritten⟩ := write_ok hw hl
    rwa [hs.pathOf hn hpath] at hwritten
  flush root graph fh n fs hw hn hsync htaken := by
    obtain ⟨handle, hh, rfl⟩ := Option.map_eq_some_iff.mp (hs.addresses _ _ hn)
    have habout : graph.about (s.mount.handlePath fh) = graph handle.path := by
      simp only [KinFuseFs.handlePath, hh, Graph.about]
    have hsettle : exec (settle sha256 (graph handle.path) root handle.path) s.mount =
        (.ok (), { s.mount with host := fs }) := by
      unfold settle
      rw [exec_bind, exec_disk, hsync]
      dsimp only
      rw [exec_converge, htaken]
    have hflush : ∃ m', exec (Fuse.flush sha256 (graph handle.path) fh) s.mount = (.ok (), m') := by
      unfold Fuse.flush
      rw [exec_bind, exec_get]
      dsimp only
      rw [hw, hh]
      dsimp only
      split
      · rw [exec_bind, hsettle]
        exact ⟨_, rfl⟩
      · exact ⟨_, rfl⟩
    obtain ⟨m', hflush⟩ := hflush
    refine step_isSome ⟨none, m', ?_⟩
    simp only [Request.perform, habout, exec_bind, hflush, exec_pure]
  getattr graph ino n st hn hattr := by
    have hpath : s.mount.pathFor ino = .ok n := pathFor_ok.mpr (hs.addresses _ _ hn)
    refine step_isSome ⟨none, { s.mount with inodes := (s.mount.inodes.getOrInsert n).2 }, ?_⟩
    simp only [Request.perform, Graph.about, hpath, Fuse.getattr, exec_bind, exec_ofExcept, attrForPath, hattr,
      exec_get, inodeOf, exec_set, exec_pure]

/-- A rename that moves an entry leaves its number at the old name. -/
theorem unmoved_of_survives (hs : s.Faithful) (hx : s.step sha256 l = some s')
    (hs' : Survives sha256 s') : Unmoved s l := by
  obtain ⟨request, graph⟩ := l
  cases request with
  | rename parent name newparent newname =>
    intro src dst hsrc hdst hne r n hn hpre
    obtain ⟨given, hx, hnames⟩ := step_ok hx
    obtain ⟨_, m₁, hl, hp⟩ := exec_bind_ok.mp hx
    cases hp
    obtain ⟨-, -, ht⟩ := rename_given hl
    have hnow : s'.names r = some (rebased src dst n) := by
      rw [hnames]
      simp only [renamed, hsrc, hdst, hn, Option.bind_some, follow, if_pos hpre]
    have haddr := hs'.addresses r _ hnow
    rw [ht.addressed, hs.addresses r n hn] at haddr
    have hcomp : n.components = dst.components ++ n.components.drop src.components.length := by
      have := congrArg VfsPath.components (Option.some.inj haddr)
      rwa [rebased, VfsPath.components_ofComponents] at this
    obtain ⟨rest, hrest⟩ := hpre
    rw [← hrest, List.drop_left] at hcomp
    exact hne (VfsPath.ext_components (List.append_cancel_right hcomp))
  | lookup | getattr | openFile | write | flush | release => trivial

end Session

/-- **When the numbers survive.** In a run of operations that all succeed, the inode numbers and handles stand
for their files in every state that is reached, exactly when no rename of the run moves an entry that the
kernel has a number for. -/
theorem survives_iff {writer : Option Posix.Path} {umask : Nat} {host : Fs} {ls : List (Request × Graph)}
    {s : Session} (hrun : Runs.run (Session.step sha256) (.start writer umask host) ls = some s) :
    (∀ pre post t, ls = pre ++ post →
        Runs.run (Session.step sha256) (.start writer umask host) pre = some t → Survives sha256 t) ↔
      Runs.Meets (Session.step sha256) Unmoved (.start writer umask host) ls := by
  constructor
  · intro h
    exact Runs.meets_of_inv (fun _ _ _ hs hu hx => hs.step hu hx)
      (fun _ _ _ hs hx hnext => Session.unmoved_of_survives hs hx hnext)
      (Session.start_faithful writer umask host) hrun h
  · intro hm pre post t hls ht
    rw [hls] at hm
    have hpre := (hm.append ht).1
    have hf : t.Faithful := Runs.run_inv_of_meets (fun _ _ _ hs hu hx => hs.step hu hx)
      (Session.start_faithful writer umask host) hpre ht
    exact hf.survives

namespace Sample

/-- The surface `/w` with the one-byte files `a` and `c`. -/
def twoOnSurface : Fs :=
  (mount.host.addEntry [[119], [97]] (.file ⟨0o644, 0⟩ [1])).addEntry [[119], [99]] (.file ⟨0o644, 0⟩ [2])

/-- A graph that holds every file but `gone`; every content has the hash of zeros. -/
def holdsAllBut (gone : Bytes) : Graph := fun p =>
  if p.bytes = gone then
    { stat := .error (.notFound "")
      readFile := .error (.notFound "")
      polls := [.error (.notFound "")]
      attr := .error (.notFound "") }
  else { answered with polls := [answered.stat] }

/-- A file is renamed; another one is looked up, opened and written. -/
def otherMoved : List (Request × Graph) :=
  [(.rename 1 [99] 1 [100], holdsAllBut [99]), (.lookup 1 [97], holdsAllBut [99]),
   (.openFile 2 true, holdsAllBut [99]), (.write 2 1 1 [7], holdsAllBut [99]), (.flush 1, holdsAllBut [99]),
   (.getattr 2, holdsAllBut [99]), (.release 1, holdsAllBut [99])]

/-- An open file is renamed to `b` and written. -/
def openMoved : List (Request × Graph) :=
  [(.lookup 1 [97], holdsAllBut []), (.openFile 2 true, holdsAllBut []),
   (.rename 1 [97] 1 [98], holdsAllBut [97]), (.write 2 1 0 [7], holdsAllBut [97])]

end Sample

theorem survives_iff_otherMoved :
    ∃ s, Runs.run (Session.step fun _ => Vector.replicate 32 0)
        (.start (some [[119]]) 0o022 Sample.twoOnSurface) Sample.otherMoved = some s ∧
      ∀ pre post t, Sample.otherMoved = pre ++ post →
        Runs.run (Session.step fun _ => Vector.replicate 32 0)
          (.start (some [[119]]) 0o022 Sample.twoOnSurface) pre = some t →
        Survives (fun _ => Vector.replicate 32 0) t := by
  have hsome : (Runs.run (Session.step fun _ => Vector.replicate 32 0)
      (.start (some [[119]]) 0o022 Sample.twoOnSurface) Sample.otherMoved).isSome = true := by decide +kernel
  obtain ⟨s, hs⟩ := Option.isSome_iff_exists.mp hsome
  refine ⟨s, hs, (survives_iff hs).mpr ?_⟩
  have hfirst : Unmoved (.start (some [[119]]) 0o022 Sample.twoOnSurface)
      (.rename 1 [99] 1 [100], Sample.holdsAllBut [99]) := by
    intro src dst hsrc _ _ r n hn hpre
    have hroot : n = .root := by
      simp only [Session.start] at hn
      split at hn
      · cases hn
        rfl
      · cases hn
    subst hroot
    cases hsrc
    exact absurd hpre (by decide +kernel)
  exact ⟨hfirst, fun _ _ => ⟨trivial, fun _ _ => ⟨trivial, fun _ _ => ⟨trivial, fun _ _ => ⟨trivial,
    fun _ _ => ⟨trivial, fun _ _ => ⟨trivial, fun _ _ => trivial⟩⟩⟩⟩⟩⟩⟩

/-- An open file is renamed, and a write through its handle succeeds: the file `a` is there again with the
byte, and the renamed file does not have it. The handle stands for the old name. -/
theorem openMoved_recreates :
    ∃ s, Runs.run (Session.step fun _ => Vector.replicate 32 0)
        (.start (some [[119]]) 0o022 Sample.twoOnSurface) Sample.openMoved = some s ∧
      (s.names (.handle 1)).map VfsPath.bytes = some [98] ∧
      (s.mount.addressed (.handle 1)).map VfsPath.bytes = some [97] ∧
      s.mount.host.shape [[119], [97]] = some (.file [7]) ∧
      s.mount.host.shape [[119], [98]] = some (.file [1]) ∧
      ¬ Survives (fun _ => Vector.replicate 32 0) s := by
  have hrun : (Runs.run (Session.step fun _ => Vector.replicate 32 0)
      (.start (some [[119]]) 0o022 Sample.twoOnSurface) Sample.openMoved).map (fun s =>
        (s.names (.handle 1), s.mount.addressed (.handle 1), s.mount.host.shape [[119], [97]],
          s.mount.host.shape [[119], [98]])) =
      some (some ⟨[98], rfl⟩, some ⟨[97], rfl⟩, some (.file [7]), some (.file [1])) := by decide +kernel
  obtain ⟨s, hs, hseen⟩ := Option.map_eq_some_iff.mp hrun
  simp only [Prod.mk.injEq] at hseen
  obtain ⟨hname, haddr, hold, hnew⟩ := hseen
  refine ⟨s, hs, by rw [hname]; rfl, by rw [haddr]; rfl, hold, hnew, fun h => ?_⟩
  have hsame := h.addresses _ _ hname
  rw [haddr] at hsame
  exact absurd hsame (by decide)

end KinVfs.Fuse
