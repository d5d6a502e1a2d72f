import KinVfs.Fuse.Mount

/-!
# What a successful reply says about the graph

A mutation waits until the provider's `stat` of the path carries the hash of the projection file, or is
not-found where nothing is projected. The wait looks at the hash alone: whenever a file is left, a provider
that reports the right bytes with the wrong executable bit or kind is believed (`reported_iff`).
-/

namespace KinVfs.Fuse

open Posix (Fs)
open Fallible

variable {sha256 : Bytes → Hash256} {answers : Answers} {m m' : KinFuseFs} {fs fs' : Fs}
  {root e h : Posix.Path} {p q : VfsPath} {nd : Posix.Node}

/-! ## The state of a path -/

/-- The projection's entry of a path. -/
def surface (fs : Fs) (root : Posix.Path) (p : VfsPath) : Option Posix.Node :=
  match containedEntry fs root p with
  | .ok e => fs.node e
  | .error _ => none

def executable (mode : Nat) : Bool := mode &&& 0o111 != 0

/-- The kind `make_attr` shows. -/
def kindOf (st : VirtualStat) : FileType :=
  if st.isDir then .directory else if st.isSymlink then .symlink else .file

/-- The provider's answer is exactly the projected state: its kind, its hash and its executable bit, or its
absence. The content of a link is its target. -/
def Describes (sha256 : Bytes → Hash256) (answer : VfsResult VirtualStat) : Option Posix.Node → Prop
  | none => ∃ text, answer = .error (.notFound text)
  | some (.file i c) => ∃ st, answer = .ok st ∧ kindOf st = .file ∧ st.contentHash = some (sha256 c) ∧
      executable st.mode = executable i.mode
  | some (.dir ..) => ∃ st, answer = .ok st ∧ kindOf st = .directory
  | some (.symlink _ t) => ∃ st, answer = .ok st ∧ kindOf st = .symlink ∧ st.contentHash = some (sha256 t)

theorem surface_eq_some : surface fs root p = some nd ↔
    ∃ e, containedEntry fs root p = .ok e ∧ fs.node e = some nd := by
  unfold surface
  cases containedEntry fs root p with
  | error err => simp
  | ok e => simp

/-- The entry that is no link is what the path leads to. -/
theorem target_of_surface (he : containedEntry fs root p = .ok e) (hn : fs.node e = some nd)
    (hl : nd.isSymlink = false) : containedTarget fs root p = .ok e := by
  have hs : fs.shape e = some nd.shape := by simp [Fs.shape, hn]
  refine containedTarget_of_entry he (Fs.clear_of_shape (by simp [hs])) fun t ht => ?_
  rw [hs] at ht
  cases nd <;> simp_all [Posix.Node.shape, Posix.Node.isSymlink]

/-- Nothing projected, nothing waited for but absence. -/
theorem expectation_none (hs : surface fs root p = none) :
    expectation sha256 root p fs = .ok .absent := by
  cases hr : WorkspaceWriter.realPath root fs p with
  | error err => exact expectation_refused hr
  | ok h =>
    have ht := (WorkspaceWriter.realPath_ok.mp hr).2
    obtain ⟨e, he, hc, hor⟩ := containedEntry_of_target ht
    have hnone : fs.shape e = none := by
      rw [Fs.shape_eq_none]
      simpa [surface, he] using hs
    rw [expectation_landed hr]
    rcases hor with rfl | ⟨t, hl⟩
    · rw [hnone]
    · rw [hnone] at hl
      cases hl

theorem expectation_file {i : Posix.Info} {c : Bytes} (hl : WorkspaceWriter.checkLexical root p = .ok ())
    (hs : surface fs root p = some (.file i c)) : expectation sha256 root p fs = .ok (.holds (sha256 c)) := by
  obtain ⟨e, he, hn⟩ := surface_eq_some.mp hs
  have ht := target_of_surface he hn rfl
  have hshape : fs.shape e = some (.file c) := Fs.shape_eq_file.mpr ⟨i, hn⟩
  rw [expectation_landed ((WorkspaceWriter.realPath_of_lexical hl).trans ht), hshape]

theorem expectation_dir {i : Posix.Info} {k : Nat} (hl : WorkspaceWriter.checkLexical root p = .ok ())
    (hs : surface fs root p = some (.dir i k)) : expectation sha256 root p fs = .error .isdir := by
  obtain ⟨e, he, hn⟩ := surface_eq_some.mp hs
  have ht := target_of_surface he hn rfl
  have hshape : fs.shape e = some .dir := Fs.shape_eq_dir.mpr (by simp [Fs.isDir, hn, Posix.Node.isDir])
  rw [expectation_landed ((WorkspaceWriter.realPath_of_lexical hl).trans ht), hshape]

/-- The right bytes with another executable bit, reported as a file. -/
def misreport (digest : Hash256) : Option Posix.Node → VirtualStat
  | some nd => .regularFile 0 digest (!executable nd.info.mode) 0
  | none => .regularFile 0 digest false 0

theorem executable_regularFile (size : Nat) (digest : Hash256) (x : Bool) (mtime : Nat) :
    executable (VirtualStat.regularFile size digest x mtime).mode = x := by
  cases x with
  | false => exact (by decide : executable 0o644 = false)
  | true => exact (by decide : executable 0o755 = true)

/-- A wait for a hash ends at a report that is not the projected state. -/
theorem misreport_met (digest : Hash256) (node : Option Posix.Node) :
    (Expectation.holds digest).met (.ok (misreport digest node)) = true := by
  cases node <;> simp [misreport, Expectation.met, VirtualStat.regularFile]

theorem not_describes_misreport (digest : Hash256) (node : Option Posix.Node) :
    ¬ Describes sha256 (.ok (misreport digest node)) node := by
  cases node with
  | none => simp [Describes]
  | some nd =>
    cases nd with
    | file i c =>
      rintro ⟨st, hst, -, -, hx⟩
      cases hst
      rw [misreport, executable_regularFile] at hx
      simp [Posix.Node.info] at hx
    | dir i k =>
      rintro ⟨st, hst, hk⟩
      cases hst
      cases hk
    | symlink i t =>
      rintro ⟨st, hst, hk, -⟩
      cases hst
      cases hk

theorem taken_of_poll {r : VfsResult VirtualStat} {expected : Expectation}
    (he : expectation sha256 root p fs = .ok expected) (hin : r ∈ answers.polls) (hmet : expected.met r = true) :
    taken sha256 answers root p fs = .ok () := by
  unfold taken
  rw [he]
  exact if_pos (List.any_eq_true.mpr ⟨r, hin, hmet⟩)

theorem taken_ok (ht : taken sha256 answers root p fs = .ok ()) :
    ∃ expected, expectation sha256 root p fs = .ok expected ∧ ∃ r ∈ answers.polls, expected.met r = true := by
  unfold taken at ht
  cases he : expectation sha256 root p fs with
  | error errno =>
    rw [he] at ht
    cases ht
  | ok expected =>
    rw [he] at ht
    dsimp only at ht
    split at ht
    · rename_i hany
      exact ⟨expected, rfl, List.any_eq_true.mp hany⟩
    · cases ht

/-- The provider reported the path exactly as it is projected, in the wait for it. -/
def Told (sha256 : Bytes → Hash256) (polls : List (VfsResult VirtualStat)) (fs : Fs) (root : Posix.Path)
    (p : VfsPath) : Prop :=
  ∃ r ∈ polls, Describes sha256 r (surface fs root p)

theorem absent_met {r : VfsResult VirtualStat} :
    Expectation.absent.met r = true ↔ ∃ text, r = .error (.notFound text) := by
  cases r with
  | ok st => simp [Expectation.met]
  | error err => cases err <;> simp [Expectation.met]

theorem told_of_none {polls : List (VfsResult VirtualStat)} (hs : surface fs root p = none)
    (ht : taken sha256 { answers with polls := polls } root p fs = .ok ()) : Told sha256 polls fs root p := by
  obtain ⟨expected, he, r, hin, hmet⟩ := taken_ok ht
  rw [expectation_none hs] at he
  cases he
  refine ⟨r, hin, ?_⟩
  rw [hs]
  exact absent_met.mp hmet

/-- Something is projected, or what is waited for is a hash: then the wait can end at another report. -/
theorem exists_untold {expected : Expectation} (he : expectation sha256 root p fs = .ok expected)
    (hs : surface fs root p ≠ none) :
    ∃ r, expected.met r = true ∧ ¬ Describes sha256 r (surface fs root p) := by
  cases expected with
  | holds digest => exact ⟨_, misreport_met digest _, not_describes_misreport digest _⟩
  | absent =>
    refine ⟨.error (.notFound ""), rfl, ?_⟩
    cases hn : surface fs root p with
    | none => exact absurd hn hs
    | some nd => cases nd <;> simp [Describes]

/-! ## Something is left -/

/-- The path leads to something. -/
def Leads (fs : Fs) (root : Posix.Path) (p : VfsPath) : Prop :=
  ∃ h, containedTarget fs root p = .ok h ∧ fs.shape h ≠ none

theorem Leads.surface (hl : Leads fs root p) : surface fs root p ≠ none := by
  obtain ⟨h, ht, hs⟩ := hl
  obtain ⟨e, he, -, hor⟩ := containedEntry_of_target ht
  simp only [Fuse.surface, he, ne_eq, ← Fs.shape_eq_none]
  rcases hor with rfl | ⟨t, hlink⟩
  · exact hs
  · simp [hlink]

theorem Leads.same (hl : Leads fs root p) (hsame : Same fs fs') : Leads fs' root p := by
  obtain ⟨h, ht, hs⟩ := hl
  exact ⟨h, hsame.resolves ht, by rwa [hsame]⟩

theorem writable_of_opened {o : Posix.OpenOptions} {c : Bytes}
    (hc : Posix.openedContent o (fs.shape h) = some c) : Writable fs h := by
  cases hs : fs.shape h with
  | none => exact .inl hs
  | some sh =>
    rw [hs] at hc
    cases sh with
    | file d => exact .inr ⟨d, hs⟩
    | dir => cases hc
    | symlink t => cases hc

theorem leads_of_put {c : Bytes} (hr : WorkspaceWriter.realPath root fs p = .ok h) (hw : Writable fs h)
    (hput : Put fs fs' h c) : Leads fs' root p :=
  ⟨h, hput.target hw (WorkspaceWriter.realPath_ok.mp hr).2, by rw [hput, if_pos rfl]; simp⟩

namespace WorkspaceWriter

/-- A removed entry: it was there, not a directory, and it is gone. -/
theorem removeFile_ok (hx : exec (removeFile root p) fs = (.ok (), fs')) :
    ∃ e nd, entryPath root fs p = .ok e ∧ fs.node e = some nd ∧ nd.isDir = false ∧ fs' = fs.removeEntry e := by
  obtain ⟨e, fs₁, hx₁, hx⟩ := exec_bind_ok.mp hx
  rw [exec_ofExcept] at hx₁
  obtain ⟨he, rfl⟩ := Prod.mk.inj hx₁
  have hce : containedEntry fs root p = .ok e := by
    unfold entryPath at he
    split at he
    · cases he
    · exact he
  rw [exec_io_ok, Posix.removeFile] at hx
  obtain ⟨l, fs₂, hx₂, hbody⟩ := exec_bind_ok.mp hx
  rw [exec_ofExcept] at hx₂
  obtain ⟨hloc, rfl⟩ := Prod.mk.inj hx₂
  have hle : l = e := by
    rcases entry_cases hce with hc | ⟨d, n, c, rfl, hf⟩
    · rw [Fs.locate_clear hc] at hloc
      split at hloc
      · cases hloc
      · cases hloc
        rfl
    · rw [Fs.locate_blocked hf] at hloc
      cases hloc
  subst hle
  obtain ⟨_, fs₃, hx₃, hend⟩ := exec_bind_ok.mp hbody
  cases hx₃
  split at hend
  · cases hend
  · cases hend
  · rename_i nd hne hn
    cases hend
    refine ⟨l, nd, he, hn, ?_, rfl⟩
    cases nd with
    | dir i k => exact absurd rfl (hne i k)
    | file i c => rfl
    | symlink i t => rfl

theorem createFile_leads {umask mode : Nat} (hx : exec (createFile root umask p mode) fs = (.ok (), fs')) :
    Leads fs' root p := by
  obtain ⟨h, hr, hl, hx⟩ := real_of_ok hx
  obtain ⟨_, fs₁, hx₁, hx⟩ := exec_bind_ok.mp hx
  obtain ⟨file, fs₂, hx₂, hx⟩ := exec_bind_ok.mp hx
  cases hx
  obtain ⟨fs₃, hopen, hmode⟩ := openWithMode_ok (exec_io_ok.mp hx₂)
  obtain ⟨rfl, c, hc, hput⟩ := openUnder_put hl rfl hx₁ hopen
  have hleads := leads_of_put hr (writable_of_opened hc) hput
  rw [hmode]
  split
  · exact hleads
  · exact hleads.same (setModeAt_same _ _ _)

theorem truncate_leads {size : Nat} (hx : exec (truncate root p size) fs = (.ok (), fs')) :
    Leads fs' root p := by
  obtain ⟨h, hr, hl, hx⟩ := real_of_ok hx
  obtain ⟨_, fs₁, hx₁, hx⟩ := exec_bind_ok.mp hx
  obtain ⟨file, fs₂, hx₂, hset⟩ := exec_bind_ok.mp hx
  obtain ⟨rfl, c, hc, hput⟩ := openUnder_put hl rfl hx₁ (exec_io_ok.mp hx₂)
  exact leads_of_put hr (writable_of_opened hc) (setFileLen_put hput (exec_io_ok.mp hset))

theorem sync_leads (hx : exec (sync root p) fs = (.ok (), fs')) : Leads fs' root p := by
  obtain ⟨h, hr, hl, hx⟩ := real_of_ok hx
  obtain ⟨file, fs₁, hx₁, hx⟩ := exec_bind_ok.mp hx
  cases hx
  obtain ⟨rfl, c, hc, hput⟩ := open_put hl (exec_io_ok.mp hx₁)
  exact leads_of_put hr (writable_of_opened hc) hput

theorem chmod_leads {mode : Nat} (hx : exec (chmod root p mode) fs = (.ok (), fs')) : Leads fs' root p := by
  have hsame := chmod_same hx
  obtain ⟨h, hr, hl, hx⟩ := real_of_ok hx
  rw [exec_io_ok] at hx
  obtain ⟨l, fs₁, hx₁, -⟩ := exec_bind_ok.mp hx
  rw [exec_ofExcept, Fs.canonicalize_clear hl.1 hl.2] at hx₁
  refine Leads.same ⟨h, (realPath_ok.mp hr).2, fun hnone => ?_⟩ hsame
  rw [if_pos hnone] at hx₁
  cases hx₁

end WorkspaceWriter

theorem shape_parent (hn : fs.node e = some nd) : fs.shape e.dropLast = some .dir :=
  Fs.shape_dropLast (by rw [ne_eq, Fs.shape_eq_none, hn]; simp)

/-- Nothing is left of a removed file. -/
theorem surface_removed (hj : p ≠ .root) (hx : exec (WorkspaceWriter.removeFile root p) fs = (.ok (), fs')) :
    surface fs' root p = none := by
  obtain ⟨e, nd, he, hn, hd, rfl⟩ := WorkspaceWriter.removeFile_ok hx
  have hce : containedEntry fs root p = .ok e := by
    unfold WorkspaceWriter.entryPath at he
    split at he
    · cases he
    · exact he
  have hne : e ≠ [] := by
    rintro rfl
    have hroot := fs.rootDir
    rw [hn] at hroot
    simp [hd] at hroot
  have hshape : ∀ r, (fs.removeEntry e).shape r = if r = e then none else fs.shape r :=
    fun r => Fs.shape_removeEntry hne (.inl (by simp [Fs.isDir, hn, hd]))
  have hk : Fs.Compat fs (fs.removeEntry e) := by
    intro r s s' hs hs'
    rw [hshape] at hs'
    split at hs'
    · cases hs'
    · rw [hs] at hs'
      cases hs'
      exact .inr (.inr rfl)
  cases hs : surface (fs.removeEntry e) root p with
  | none => rfl
  | some nd' =>
    obtain ⟨e', he', hn'⟩ := surface_eq_some.mp hs
    rcases VfsPath.root_or_join p with rfl | ⟨p', n, rfl⟩
    · exact absurd rfl hj
    · obtain rfl := containedEntry_compat hk hce he' (shape_parent hn) (shape_parent hn')
      have hgone := hshape e
      rw [if_pos rfl, Fs.shape_eq_none, hn'] at hgone
      cases hgone

/-! ## The mutations -/

/-- The operations that wait for the graph. -/
inductive Op where
  | create (parent : Nat) (name : Bytes) (mode : Nat)
  | unlink (parent : Nat) (name : Bytes)
  | rename (parent : Nat) (name : Bytes) (newparent : Nat) (newname : Bytes)
  | setattr (ino : Nat) (mode size : Option Nat) (mutating : (size.isSome || mode.isSome) = true)
  | fsync (ino fh : Nat)
  | flush (fh : Nat)

namespace Op

def perform (sha256 : Bytes → Hash256) (answers : Answers) : Op → MountM Unit
  | .create parent name mode => do
    let _ ← Fuse.create sha256 answers parent name mode
  | .unlink parent name => Fuse.unlink sha256 answers parent name
  | .rename parent name newparent newname => Fuse.rename sha256 answers parent name newparent newname
  | .setattr ino mode size _ => do
    let _ ← Fuse.setattr sha256 answers ino mode size
  | .fsync ino fh => Fuse.fsync sha256 answers ino fh
  | .flush fh => Fuse.flush sha256 answers fh

/-- The paths of the change, none for a handle that was not written. -/
def paths (m : KinFuseFs) : Op → Except Errno (List VfsPath)
  | .create parent name _ | .unlink parent name => (m.childOf parent name).map ([·])
  | .rename parent name newparent newname => do
    let src ← m.childOf parent name
    let dst ← m.childOf newparent newname
    pure [src, dst]
  | .setattr ino .. => (m.pathFor ino).map ([·])
  | .fsync ino fh => (m.syncPath ino fh).map ([·])
  | .flush fh =>
    match m.handles fh with
    | some handle => .ok (if handle.dirty then [handle.path] else [])
    | none => .ok []

/-- In the waits of the operation the provider reported each path exactly as it is projected. -/
def Reported (sha256 : Bytes → Hash256) (answers : Answers) (root : Posix.Path) (m : KinFuseFs) (fs : Fs)
    (op : Op) : Prop :=
  ∀ paths, op.paths m = .ok paths → ∀ x ∈ paths.zip [answers.polls, answers.pollsTo], Told sha256 x.2 fs root x.1

/-- What an operation with one wait does before it, and the path it waits for. -/
def beforeWait (answers : Answers) (root : Posix.Path) : Op → MountM VfsPath
  | .create parent name mode => do
    let path ← ofExcept (·.childOf parent name)
    let m ← get
    disk (WorkspaceWriter.createFile root m.umask path (mode &&& 0o7777))
    pure path
  | .setattr ino mode size _ => do
    let path ← ofExcept (·.pathFor ino)
    setSize answers root path size
    setMode root path mode
    pure path
  | .fsync ino fh => do
    let path ← ofExcept (·.syncPath ino fh)
    disk (WorkspaceWriter.sync root path)
    pure path
  | .flush fh => do
    let path ← ofExcept fun m => match m.handles fh with
      | some handle => .ok handle.path
      | none => .error .badf
    disk (WorkspaceWriter.sync root path)
    pure path
  | .unlink .. | .rename .. => throw .inval

/-- What it does after the wait. -/
def afterWait (answers : Answers) (path : VfsPath) : Op → MountM Unit
  | .create .. => do
    let _ ← inodeOf path
    let _ ← allocateHandle path true
  | .setattr .. => do
    let _ ← attrForPath answers path
  | .fsync _ fh | .flush fh => modify (·.clearDirty fh)
  | .unlink .. | .rename .. => pure ()

/-- The operation leaves something to hash, and waits once. -/
def Single (m : KinFuseFs) : Op → Prop
  | .unlink .. | .rename .. => False
  | .flush fh => ∃ handle, m.handles fh = some handle ∧ handle.dirty = true
  | _ => True

theorem perform_single {op : Op} (hm : Mounted m root) (hop : op.Single m) :
    exec (op.perform sha256 answers) m = exec (do
      let x ← op.beforeWait answers root
      converge sha256 answers root x
      op.afterWait answers x : MountM Unit) m := by
  cases op with
  | unlink parent name => exact hop.elim
  | rename parent name newparent newname => exact hop.elim
  | create parent name mode =>
    unfold perform Fuse.create
    simp only [beforeWait, afterWait, bind_assoc, pure_bind]
    rw [exec_bind, exec_getWriter hm.writer]
  | setattr ino mode size mutating =>
    unfold perform Fuse.setattr
    simp only [beforeWait, afterWait, bind_assoc, pure_bind, mutating, if_true]
    rw [exec_bind, exec_getWriter hm.writer]
    rfl
  | fsync ino fh =>
    unfold perform Fuse.fsync settle
    simp only [beforeWait, afterWait, bind_assoc, pure_bind]
    rw [exec_bind, exec_get]
    dsimp only
    rw [hm.writer]
  | flush fh =>
    obtain ⟨handle, hh, hd⟩ := hop
    unfold perform Fuse.flush settle
    simp only [beforeWait, afterWait, bind_assoc, pure_bind]
    rw [exec_bind, exec_get]
    dsimp only
    rw [hm.writer, hh]
    dsimp only
    rw [if_pos hd, exec_bind (ofExcept _), exec_ofExcept, hh]

/-- The change left something at the path it waits for. -/
theorem beforeWait_leads {op : Op} {x : VfsPath} (hop : op.Single m)
    (hx : exec (op.beforeWait answers root) m = (.ok x, m')) :
    op.paths m = .ok [x] ∧ Leads m'.host root x := by
  cases op with
  | unlink parent name => exact hop.elim
  | rename parent name newparent newname => exact hop.elim
  | create parent name mode =>
    obtain ⟨path, m₁, hx₁, hx⟩ := exec_bind_ok.mp hx
    rw [exec_ofExcept] at hx₁
    obtain ⟨hp, rfl⟩ := Prod.mk.inj hx₁
    obtain ⟨_, m₂, hx₂, hx⟩ := exec_bind_ok.mp hx
    cases hx₂
    obtain ⟨_, m₃, hx₃, hx⟩ := exec_bind_ok.mp hx
    cases hx
    obtain ⟨fs, hfs, rfl⟩ := disk_ok.mp hx₃
    exact ⟨by simp only [paths, hp]; rfl, WorkspaceWriter.createFile_leads hfs⟩
  | setattr ino mode size mutating =>
    obtain ⟨path, m₁, hx₁, hx⟩ := exec_bind_ok.mp hx
    rw [exec_ofExcept] at hx₁
    obtain ⟨hp, rfl⟩ := Prod.mk.inj hx₁
    obtain ⟨_, m₂, hx₂, hx⟩ := exec_bind_ok.mp hx
    obtain ⟨_, m₃, hx₃, hx⟩ := exec_bind_ok.mp hx
    cases hx
    refine ⟨by simp only [paths, hp]; rfl, ?_⟩
    cases mode with
    | some mode =>
      obtain ⟨fs, hfs, rfl⟩ := disk_ok.mp hx₃
      exact WorkspaceWriter.chmod_leads hfs
    | none =>
      cases hx₃
      cases size with
      | none => cases mutating
      | some size =>
        obtain ⟨_, m₄, -, hx₅⟩ := exec_bind_ok.mp hx₂
        obtain ⟨fs, hfs, rfl⟩ := disk_ok.mp hx₅
        exact WorkspaceWriter.truncate_leads hfs
  | fsync ino fh =>
    obtain ⟨path, m₁, hx₁, hx⟩ := exec_bind_ok.mp hx
    rw [exec_ofExcept] at hx₁
    obtain ⟨hp, rfl⟩ := Prod.mk.inj hx₁
    obtain ⟨_, m₂, hx₂, hx⟩ := exec_bind_ok.mp hx
    cases hx
    obtain ⟨fs, hfs, rfl⟩ := disk_ok.mp hx₂
    exact ⟨by simp only [paths, hp]; rfl, WorkspaceWriter.sync_leads hfs⟩
  | flush fh =>
    obtain ⟨handle, hh, hd⟩ := hop
    obtain ⟨path, m₁, hx₁, hx⟩ := exec_bind_ok.mp hx
    rw [exec_ofExcept] at hx₁
    obtain ⟨hp, rfl⟩ := Prod.mk.inj hx₁
    rw [hh] at hp
    cases hp
    obtain ⟨_, m₂, hx₂, hx⟩ := exec_bind_ok.mp hx
    cases hx
    obtain ⟨fs, hfs, rfl⟩ := disk_ok.mp hx₂
    exact ⟨by simp [paths, hh, hd], WorkspaceWriter.sync_leads hfs⟩

theorem afterWait_host {op : Op} {x : VfsPath} (hx : exec (op.afterWait answers x) m = (.ok (), m')) :
    m'.host = m.host := by
  cases op with
  | create parent name mode =>
    cases hx
    rfl
  | setattr ino mode size mutating =>
    obtain ⟨a, m₁, hx₁, hx⟩ := exec_bind_ok.mp hx
    cases hx
    obtain rfl := attrForPath_ok hx₁
    rfl
  | unlink parent name =>
    cases hx
    rfl
  | rename parent name newparent newname =>
    cases hx
    rfl
  | fsync ino fh =>
    cases hx
    rfl
  | flush fh =>
    cases hx
    rfl

/-- The change leaves nothing at its paths: it is a removal, or a rename whose paths lead through the
entry that it moved. -/
def LeavesNothing (root : Posix.Path) (m : KinFuseFs) : Op → Prop
  | .unlink .. => True
  | .rename parent name newparent newname => ∀ src dst fs', m.childOf parent name = .ok src →
      m.childOf newparent newname = .ok dst →
      exec (WorkspaceWriter.rename root src dst) m.host = (.ok (), fs') →
      surface fs' root src = none ∧ surface fs' root dst = none
  | .flush fh => ∀ handle, m.handles fh = some handle → handle.dirty = false
  | .create .. | .setattr .. | .fsync .. => False

/-- A change that leaves something can be acknowledged by a report of something else. -/
theorem single_unreported {op : Op} (hm : Mounted m root) (hop : op.Single m)
    (hx : exec (op.perform sha256 answers) m = (.ok (), m')) :
    ∃ answers' m'', exec (op.perform sha256 answers') m = (.ok (), m'') ∧
      ¬ op.Reported sha256 answers' root m m''.host := by
  rw [perform_single hm hop] at hx
  obtain ⟨x, m₁, hx₁, hx⟩ := exec_bind_ok.mp hx
  obtain ⟨_, m₂, hx₂, hx₃⟩ := exec_bind_ok.mp hx
  rw [exec_converge] at hx₂
  obtain ⟨htaken, rfl⟩ := Prod.mk.inj hx₂
  obtain ⟨hpaths, hleads⟩ := beforeWait_leads hop hx₁
  obtain ⟨expected, he, -⟩ := taken_ok htaken
  obtain ⟨r, hmet, hnot⟩ := exists_untold he hleads.surface
  refine ⟨{ answers with polls := [r] }, m', ?_, fun hrep => ?_⟩
  · rw [perform_single hm hop]
    refine exec_bind_ok.mpr ⟨x, m₁, ?_, exec_bind_ok.mpr ⟨(), m₁, ?_, ?_⟩⟩
    · -- What comes before the wait does not read the polls.
      cases op <;> exact hx₁
    · rw [exec_converge, taken_of_poll he (List.mem_singleton.mpr rfl) hmet]
    · cases op <;> exact hx₃
  · rw [afterWait_host hx₃] at hrep
    obtain ⟨r', hin, hdesc⟩ := hrep [x] hpaths (x, [r]) (by simp)
    obtain rfl := List.mem_singleton.mp hin
    exact hnot hdesc

theorem unlink_reported {parent : Nat} {name : Bytes} (hm : Mounted m root)
    (hx : exec (Fuse.unlink sha256 answers parent name) m = (.ok (), m')) :
    (Op.unlink parent name).Reported sha256 answers root m m'.host := by
  intro paths hpaths x hin
  cases hp : m.childOf parent name with
  | error errno =>
    simp only [Op.paths, hp] at hpaths
    cases hpaths
  | ok p =>
    simp only [Op.paths, hp] at hpaths
    cases hpaths
    simp only [List.zip_cons_cons, List.zip_nil_left, List.mem_singleton] at hin
    subst hin
    rw [exec_unlink hm hp] at hx
    rcases hrem : exec (WorkspaceWriter.removeFile root p) m.host with ⟨err | u, fs⟩
    · rw [hrem] at hx
      cases hx
    · rw [hrem] at hx
      dsimp only at hx
      have hj : p ≠ .root := by
        obtain ⟨q, n, -, -, rfl⟩ := childOf_ok hp
        exact VfsPath.join_ne_root q n
      cases ht : taken sha256 answers root p fs with
      | error errno =>
        rw [ht] at hx
        cases hx
      | ok u =>
        rw [ht] at hx
        cases hx
        exact told_of_none (surface_removed hj hrem) ht

theorem takenBoth_ok {src dst : VfsPath} : takenBoth sha256 answers root src dst fs = .ok () ↔
    taken sha256 answers root src fs = .ok () ∧
      taken sha256 { answers with polls := answers.pollsTo } root dst fs = .ok () := by
  unfold takenBoth
  cases taken sha256 answers root src fs with
  | error errno => simp
  | ok u => simp

/-- A rename succeeds when the host moves the entry and the graph takes both halves. -/
theorem rename_ok {parent newparent : Nat} {name newname : Bytes} {src dst : VfsPath} (hm : Mounted m root)
    (hp : m.childOf parent name = .ok src) (hq : m.childOf newparent newname = .ok dst) :
    exec (Fuse.rename sha256 answers parent name newparent newname) m = (.ok (), m') ↔
      ∃ fs, exec (WorkspaceWriter.rename root src dst) m.host = (.ok (), fs) ∧
        takenBoth sha256 answers root src dst fs = .ok () ∧ m' = { m with host := fs }.movePending src dst := by
  rw [exec_rename hm hp hq]
  rcases exec (WorkspaceWriter.rename root src dst) m.host with ⟨err | u, fs⟩
  · simp
  · dsimp only
    cases ht : takenBoth sha256 answers root src dst fs with
    | error errno => simp [ht]
    | ok u => simp [ht, eq_comm]

theorem rename_reported_iff {parent newparent : Nat} {name newname : Bytes} {src dst : VfsPath}
    (hm : Mounted m root) (hp : m.childOf parent name = .ok src) (hq : m.childOf newparent newname = .ok dst)
    (hcan : ∃ answers m', exec (Fuse.rename sha256 answers parent name newparent newname) m = (.ok (), m')) :
    (∀ answers m', exec (Fuse.rename sha256 answers parent name newparent newname) m = (.ok (), m') →
        (Op.rename parent name newparent newname).Reported sha256 answers root m m'.host) ↔
      (Op.rename parent name newparent newname).LeavesNothing root m := by
  obtain ⟨answers, m', hx⟩ := hcan
  obtain ⟨fs, hmove, htaken, -⟩ := (rename_ok hm hp hq).mp hx
  obtain ⟨hsrc, hdst⟩ := takenBoth_ok.mp htaken
  have hpaths : (Op.rename parent name newparent newname).paths m = .ok [src, dst] := by
    simp only [Op.paths, hp, hq]
    rfl
  have hleaves : (Op.rename parent name newparent newname).LeavesNothing root m ↔
      surface fs root src = none ∧ surface fs root dst = none := by
    constructor
    · intro h
      exact h src dst fs hp hq hmove
    · intro h src' dst' fs' hp' hq' hmove'
      rw [hp] at hp'
      rw [hq] at hq'
      cases hp'
      cases hq'
      rw [hmove] at hmove'
      cases hmove'
      exact h
  have hagain : ∀ polls pollsTo,
      taken sha256 { answers with polls := polls } root src fs = .ok () →
      taken sha256 { answers with polls := pollsTo } root dst fs = .ok () →
      exec (Fuse.rename sha256 { answers with polls := polls, pollsTo := pollsTo } parent name newparent newname)
        m = (.ok (), { m with host := fs }.movePending src dst) :=
    fun polls pollsTo h₁ h₂ => (rename_ok hm hp hq).mpr ⟨fs, hmove, takenBoth_ok.mpr ⟨h₁, h₂⟩, rfl⟩
  rw [hleaves]
  constructor
  · intro h
    constructor
    · by_contra hne
      obtain ⟨expected, he, -⟩ := taken_ok hsrc
      obtain ⟨r, hmet, hnot⟩ := exists_untold he hne
      have hrep := h _ _ (hagain [r] answers.pollsTo (taken_of_poll he (List.mem_singleton.mpr rfl) hmet) hdst)
        _ hpaths (src, [r]) (by simp)
      rw [host_movePending] at hrep
      obtain ⟨r', hin, hdesc⟩ := hrep
      obtain rfl := List.mem_singleton.mp hin
      exact hnot hdesc
    · by_contra hne
      obtain ⟨expected, he, -⟩ := taken_ok hdst
      obtain ⟨r, hmet, hnot⟩ := exists_untold he hne
      have hrep := h _ _ (hagain answers.polls [r] hsrc (taken_of_poll he (List.mem_singleton.mpr rfl) hmet))
        _ hpaths (dst, [r]) (by simp)
      rw [host_movePending] at hrep
      obtain ⟨r', hin, hdesc⟩ := hrep
      obtain rfl := List.mem_singleton.mp hin
      exact hnot hdesc
  · rintro ⟨hs, hd⟩ answers' m'' hx' paths hpaths' x hin
    rw [hpaths] at hpaths'
    cases hpaths'
    obtain ⟨fs', hmove', htaken', rfl⟩ := (rename_ok hm hp hq).mp hx'
    rw [hmove] at hmove'
    cases hmove'
    rw [host_movePending]
    obtain ⟨h₁, h₂⟩ := takenBoth_ok.mp htaken'
    simp only [List.zip_cons_cons, List.zip_nil_left, List.mem_cons, List.not_mem_nil, or_false] at hin
    rcases hin with rfl | rfl
    · exact told_of_none hs h₁
    · exact told_of_none hd h₂

/-- **What success says.** However the provider answers, a successful reply means that it reported the
projected state exactly for the operations that leave nothing at their paths. -/
theorem reported_iff {op : Op} (hm : Mounted m root)
    (hcan : ∃ answers m', exec (op.perform sha256 answers) m = (.ok (), m')) :
    (∀ answers m', exec (op.perform sha256 answers) m = (.ok (), m') →
        op.Reported sha256 answers root m m'.host) ↔ op.LeavesNothing root m := by
  have hsingle : op.Single m → ¬ ∀ answers m', exec (op.perform sha256 answers) m = (.ok (), m') →
      op.Reported sha256 answers root m m'.host := by
    intro hop h
    obtain ⟨answers, m', hx⟩ := hcan
    obtain ⟨answers', m'', hx', hnot⟩ := single_unreported hm hop hx
    exact hnot (h answers' m'' hx')
  cases op with
  | create parent name mode => exact iff_of_false (hsingle trivial) not_false
  | setattr ino mode size mutating => exact iff_of_false (hsingle trivial) not_false
  | fsync ino fh => exact iff_of_false (hsingle trivial) not_false
  | unlink parent name => exact iff_of_true (fun answers m' hx => unlink_reported hm hx) trivial
  | flush fh =>
    by_cases hd : ∃ handle, m.handles fh = some handle ∧ handle.dirty = true
    · refine iff_of_false (hsingle hd) fun h => ?_
      obtain ⟨handle, hh, hdirty⟩ := hd
      rw [h handle hh] at hdirty
      cases hdirty
    · refine iff_of_true (fun answers m' hx paths hpaths x hin => ?_) fun handle hh => ?_
      · have hnil : paths = [] := by
          simp only [Op.paths] at hpaths
          cases hh : m.handles fh with
          | none =>
            rw [hh] at hpaths
            cases hpaths
            rfl
          | some handle =>
            rw [hh] at hpaths
            cases hpaths
            exact if_neg fun hdirty => hd ⟨handle, hh, hdirty⟩
        rw [hnil] at hin
        cases hin
      · rw [Bool.eq_false_iff]
        exact fun hdirty => hd ⟨handle, hh, hdirty⟩
  | rename parent name newparent newname =>
    obtain ⟨answers, m', hx⟩ := hcan
    obtain ⟨root', m₁, hx₁, hx₂⟩ := exec_bind_ok.mp hx
    rw [exec_getWriter hm.writer] at hx₁
    cases hx₁
    obtain ⟨src, m₂, hx₃, hx₄⟩ := exec_bind_ok.mp hx₂
    rw [exec_ofExcept] at hx₃
    obtain ⟨hp, rfl⟩ := Prod.mk.inj hx₃
    obtain ⟨dst, m₃, hx₅, -⟩ := exec_bind_ok.mp hx₄
    rw [exec_ofExcept] at hx₅
    obtain ⟨hq, rfl⟩ := Prod.mk.inj hx₅
    exact rename_reported_iff hm hp hq ⟨answers, m', hx⟩

end Op

namespace Sample

/-- The graph has dropped the file. -/
def dropped : Answers := { answered with polls := [.error (.notFound "a")] }

/-- The graph reports the file as it was. -/
def unmoved : Answers := { answered with polls := [.ok (.regularFile 1 (.replicate 32 0) false 0)] }

theorem succeeds {x : MountM Unit} (h : (exec x checkedOut).1.isOk = true) :
    ∃ m', exec x checkedOut = (.ok (), m') := by
  rcases hx : exec x checkedOut with ⟨e | u, m'⟩
  · rw [hx] at h
    cases h
  · exact ⟨m', rfl⟩

end Sample

theorem reported_iff_unlink :
    ∃ m', exec ((Op.unlink 1 [97]).perform (fun _ => Vector.replicate 32 0) Sample.dropped) Sample.checkedOut =
        (.ok (), m') ∧
      (Op.unlink 1 [97]).Reported (fun _ => Vector.replicate 32 0) Sample.dropped [[119]] Sample.checkedOut
        m'.host := by
  obtain ⟨m', hx⟩ := Sample.succeeds (x := (Op.unlink 1 [97]).perform (fun _ => Vector.replicate 32 0)
    Sample.dropped) (by decide +kernel)
  exact ⟨m', hx, (Op.reported_iff Sample.checkedOut_mounted ⟨Sample.dropped, m', hx⟩).mpr trivial _ m' hx⟩

/-- `chmod +x` of `a`: the graph reports the file without the executable bit, as before, and the change
counts as taken. -/
theorem chmod_unreported :
    ∃ m', exec ((Op.setattr 2 (some 0o755) none rfl).perform (fun _ => Vector.replicate 32 0) Sample.unmoved)
        Sample.checkedOut = (.ok (), m') ∧
      surface m'.host [[119]] Sample.file = some (.file ⟨0o755, 0⟩ [1]) ∧
      ¬ (Op.setattr 2 (some 0o755) none rfl).Reported (fun _ => Vector.replicate 32 0) Sample.unmoved [[119]]
        Sample.checkedOut m'.host := by
  obtain ⟨m', hx⟩ := Sample.succeeds (x := (Op.setattr 2 (some 0o755) none rfl).perform
    (fun _ => Vector.replicate 32 0) Sample.unmoved) (by decide +kernel)
  have hs : surface m'.host [[119]] Sample.file = some (.file ⟨0o755, 0⟩ [1]) := by
    have hrun : surface (exec ((Op.setattr 2 (some 0o755) none rfl).perform (fun _ => Vector.replicate 32 0)
        Sample.unmoved) Sample.checkedOut).2.host [[119]] Sample.file = some (.file ⟨0o755, 0⟩ [1]) := by
      decide +kernel
    rwa [hx] at hrun
  refine ⟨m', hx, hs, fun hrep => ?_⟩
  obtain ⟨r, hin, hdesc⟩ := hrep [Sample.file] rfl (Sample.file, Sample.unmoved.polls) (by simp)
  rw [hs] at hdesc
  obtain rfl := List.mem_singleton.mp hin
  obtain ⟨st, hst, -, -, hexec⟩ := hdesc
  cases hst
  exact absurd hexec (by decide)

end KinVfs.Fuse
