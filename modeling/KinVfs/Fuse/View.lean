import KinVfs.Fuse.Mount

/-!
# What decides a mutation of the mount

`lookup` and `readdir` are answered by the graph, `unlink`, `rename` and `rmdir` by the projection surface.
A file the mount shows is found by its removal and its renames exactly when the surface has it too, and a
directory is removed when it is empty on the surface, whatever the mount lists for it
(`decided_by_view_iff`).
-/

namespace KinVfs.Fuse

open Posix (Fs)
open Fallible

variable {sha256 : Bytes → Hash256} {answers : Answers} {m : KinFuseFs} {fs : Fs}
  {root e h : Posix.Path} {p q : VfsPath} {parent newparent ino : Nat} {name newname : Bytes}
  {graph : ContentProvider} {made : List VfsPath}

/-! ## Not found -/

theorem vfsErrorToErrno_noent {err : VfsError} : vfsErrorToErrno err = .noent ↔ err.isNotFound = true := by
  cases err with
  | io kind => cases kind <;> simp [vfsErrorToErrno, rawOsError, VfsError.isNotFound]
  | _ => simp [vfsErrorToErrno, VfsError.isNotFound]

/-- A wait does not fail with not-found. -/
theorem taken_ne_noent : taken sha256 answers root p fs ≠ .error .noent := by
  have hany : ∀ expected : Expectation,
      (if answers.polls.any expected.met then .ok () else .error .io : Except Errno Unit) ≠ .error .noent := by
    intro expected
    split <;> simp
  unfold taken
  cases hr : WorkspaceWriter.realPath root fs p with
  | error err =>
    rw [expectation_refused hr]
    exact hany _
  | ok h =>
    rw [expectation_landed hr]
    cases fs.shape h with
    | none => exact hany _
    | some sh =>
      cases sh with
      | file c => exact hany _
      | dir => simp
      | symlink t => simp

theorem takenBoth_ne_noent : takenBoth sha256 answers root p q fs ≠ .error .noent := by
  unfold takenBoth
  split
  · rename_i errno htaken
    rw [ne_eq, Except.error.injEq]
    rintro rfl
    exact taken_ne_noent htaken
  · exact taken_ne_noent

/-- The host's `remove_file` of the entry of `p` does not find it exactly when `p` is free. -/
theorem removeFile_host_notFound (he : containedEntry fs root p = .ok e) :
    (exec (Posix.removeFile e) fs).1 = .error .notFound ↔ Free fs root p := by
  rw [free_iff_entry, he]
  simp only [Except.ok.injEq, exists_eq_left']
  rcases entry_cases he with hc | ⟨d, n, c, rfl, hf⟩
  · rw [Posix.removeFile, exec_bind, exec_ofExcept, Fs.locate_clear hc]
    by_cases hp : fs.shape e.dropLast = none
    · have hs : fs.shape e = none := by
        by_contra hne
        rw [Fs.shape_dropLast hne] at hp
        cases hp
      simp [hp, hc, hs]
    · rw [if_neg hp]
      simp only [exec_bind, exec_get]
      cases hn : fs.node e with
      | none => simp [hc, Fs.shape_eq_none.mpr hn]
      | some nd => cases nd <;> simp [Fs.shape_eq_none, hn]
  · have hblock : ¬ fs.Clear (d ++ [n]) := by
      rw [Fs.clear_append_singleton, hf]
      simp
    simp [Posix.removeFile, exec_bind, Fs.locate_blocked hf, hblock]

theorem missing_refused {err : VfsError} (he : containedEntry fs root p = .error err) :
    vfsErrorToErrno err = .noent ↔ Missing fs root p := by
  rw [vfsErrorToErrno_noent, resolve_error he, Missing, free_iff_entry, he]
  simp

theorem missing_entry (he : containedEntry fs root p = .ok e) : Missing fs root p ↔ Free fs root p := by
  obtain ⟨r, hr, -⟩ := resolve_ok.mp he
  simp [Missing, hr]

theorem vfsErrorToErrno_io_noent {k : Posix.ErrorKind} : vfsErrorToErrno (.io k) = .noent ↔ k = .notFound := by
  rw [vfsErrorToErrno_noent]
  cases k <;> simp [VfsError.isNotFound]

/-- A removal does not find the file exactly when the surface has none. -/
theorem unlink_noent (hm : Mounted m root) (hp : m.childOf parent name = .ok p) :
    (exec (unlink sha256 answers parent name) m).1 = .error .noent ↔ Missing m.host root p := by
  have hentry : WorkspaceWriter.entryPath root m.host p = containedEntry m.host root p :=
    WorkspaceWriter.entryPath_of_lexical (hm.lexical hp)
  rw [exec_unlink hm hp]
  cases he : containedEntry m.host root p with
  | error err =>
    have hdisk : exec (WorkspaceWriter.removeFile root p) m.host = (.error err, m.host) := by
      simp [WorkspaceWriter.removeFile, exec_bind, hentry, he]
    rw [hdisk, ← missing_refused he, Except.error.injEq]
  | ok e =>
    have hdisk : exec (WorkspaceWriter.removeFile root p) m.host = exec (io (Posix.removeFile e)) m.host := by
      simp [WorkspaceWriter.removeFile, exec_bind, hentry, he]
    rw [hdisk, missing_entry he, ← removeFile_host_notFound he, exec_io]
    rcases exec (Posix.removeFile e) m.host with ⟨k | u, fs⟩
    · simp [vfsErrorToErrno_io_noent]
    · dsimp only
      cases ht : taken sha256 answers root p fs with
      | ok u => simp
      | error errno =>
        have hne : taken sha256 answers root p fs ≠ .error .noent := taken_ne_noent
        rw [ht] at hne
        simpa using hne

/-- A rename finds what the surface has. -/
theorem rename_ne_noent (hm : Mounted m root) (hp : m.childOf parent name = .ok p)
    (hq : m.childOf newparent newname = .ok q) (hfound : ¬ Missing m.host root p) :
    (exec (rename sha256 answers parent name newparent newname) m).1 ≠ .error .noent := by
  have hsrc : WorkspaceWriter.entryPath root m.host p = containedEntry m.host root p :=
    WorkspaceWriter.entryPath_of_lexical (hm.lexical hp)
  have hdst : WorkspaceWriter.entryPath root m.host q = containedEntry m.host root q :=
    WorkspaceWriter.entryPath_of_lexical (hm.lexical hq)
  have hdisk : ∀ err fs, exec (WorkspaceWriter.rename root p q) m.host = (.error err, fs) →
      vfsErrorToErrno err ≠ .noent := by
    intro err fs hx
    cases he : containedEntry m.host root p with
    | error err' =>
      simp only [WorkspaceWriter.rename, exec_bind, exec_ofExcept, hsrc, he, Prod.mk.injEq,
        Except.error.injEq] at hx
      rw [← hx.1, ne_eq, missing_refused he]
      exact hfound
    | ok e =>
      obtain ⟨r, hr, -⟩ := resolve_ok.mp he
      cases ht : containedEntry m.host root q with
      | error err' =>
        simp only [WorkspaceWriter.rename, exec_bind, exec_ofExcept, hsrc, he, hdst, ht, Prod.mk.injEq,
          Except.error.injEq] at hx
        rw [← hx.1, ne_eq, vfsErrorToErrno_noent, resolve_error ht, hr]
        simp
      | ok t =>
        rcases createParent_entry ht with ⟨fs₁, hx₁, hg, hd, -⟩ | hx₁
        · simp only [WorkspaceWriter.rename, exec_bind, exec_ofExcept, hsrc, he, hdst, ht, hx₁,
            exec_io] at hx
          have hnf := rename_host_notFound (grown_entry hg he) hd
          have hfree := not_free_grown hg he (by rwa [← missing_entry he])
          rcases hmove : exec (Posix.rename e t) fs₁ with ⟨k | u, fs₂⟩
          · rw [hmove] at hx hnf
            simp only [Prod.mk.injEq, Except.error.injEq] at hx hnf
            rw [← hx.1, ne_eq, vfsErrorToErrno_io_noent, hnf]
            exact hfree
          · rw [hmove] at hx
            simp at hx
        · simp only [WorkspaceWriter.rename, exec_bind, exec_ofExcept, hsrc, he, hdst, ht, hx₁, Prod.mk.injEq,
            Except.error.injEq] at hx
          rw [← hx.1, ne_eq, vfsErrorToErrno_io_noent]
          simp
  rw [exec_rename hm hp hq]
  rcases hx : exec (WorkspaceWriter.rename root p q) m.host with ⟨err | u, fs⟩
  · simpa using hdisk err fs hx
  · dsimp only
    cases ht : takenBoth sha256 answers root p q fs with
    | ok u => simp
    | error errno =>
      have hne : takenBoth sha256 answers root p q fs ≠ .error .noent := takenBoth_ne_noent
      rw [ht] at hne
      simpa using hne

/-! ## Empty directories -/

/-- The surface has an empty directory at `p`. -/
def EmptyDirAt (fs : Fs) (root : Posix.Path) (p : VfsPath) : Prop :=
  ∃ e, containedEntry fs root p = .ok e ∧ e ≠ [] ∧ fs.isDir e = true ∧ fs.isEmptyDir e = true

/-- A directory is removed exactly when it is empty on the surface. -/
theorem rmdir_ok (hm : Mounted m root) (hp : m.childOf parent name = .ok p) :
    (exec (rmdir parent name) m).1 = .ok () ↔ EmptyDirAt m.host root p := by
  have hentry : WorkspaceWriter.entryPath root m.host p = containedEntry m.host root p :=
    WorkspaceWriter.entryPath_of_lexical (hm.lexical hp)
  have hcall : (exec (rmdir parent name) m).1 = .ok () ↔
      (exec (WorkspaceWriter.removeDir root p) m.host).1 = .ok () := by
    unfold rmdir
    simp only [exec_bind, exec_getWriter hm.writer, exec_ofExcept, hp, exec_disk]
    rcases exec (WorkspaceWriter.removeDir root p) m.host with ⟨err | u, fs⟩ <;> simp
  rw [hcall, WorkspaceWriter.removeDir, exec_bind, exec_ofExcept, hentry, EmptyDirAt]
  cases he : containedEntry m.host root p with
  | error err => simp
  | ok e =>
    simp only [Except.ok.injEq, exists_eq_left', exec_io]
    rcases entry_cases he with hc | ⟨d, n, c, rfl, hf⟩
    · rw [Posix.removeDir, exec_bind, exec_ofExcept, Fs.locate_clear hc]
      by_cases hpar : m.host.shape e.dropLast = none
      · have hnd : m.host.isDir e = false := by
          rw [Bool.eq_false_iff, ne_eq, ← Fs.shape_eq_dir]
          intro hs
          rw [Fs.shape_dropLast (by simp [hs])] at hpar
          cases hpar
        simp [hpar, hnd]
      · rw [if_neg hpar]
        simp only [exec_bind, exec_get]
        cases hn : m.host.node e with
        | none => simp [Fs.isDir, hn]
        | some nd =>
          cases nd with
          | file i c => simp [Fs.isDir, hn, Posix.Node.isDir]
          | symlink i t => simp [Fs.isDir, hn, Posix.Node.isDir]
          | dir i k =>
            have hd : m.host.isDir e = true := by simp [Fs.isDir, hn, Posix.Node.isDir]
            by_cases h0 : e = []
            · simp [h0]
            · cases hemp : m.host.isEmptyDir e <;> simp [h0, hd]
    · have hne : m.host.isDir (d ++ [n]) = false := by
        rw [Bool.eq_false_iff, ne_eq, ← Fs.shape_eq_dir]
        intro hs
        have hdir := Fs.shape_dir_of_append (p := d) (q := [n]) (by rw [hs]; simp) (by simp)
        rw [hf] at hdir
        cases hdir
      simp [Posix.removeDir, exec_bind, Fs.locate_blocked hf, hne]

/-- The mount lists the directory, and nothing in it. -/
structure ListsNothing (graph : ContentProvider) (m : KinFuseFs) (p : VfsPath) : Prop where
  graph : graph.readDir p = .ok [] ∨ (∃ err, graph.readDir p = .error err) ∧ m.pendingDirs p = true
  pending : ∀ n, m.pendingDirs (p.join n) = false

/-- Giving inodes to the listed entries does not fail. -/
theorem exec_forM_inodeOf {α : Type} (f : α → VfsPath) (l : List α) (m : KinFuseFs) :
    ∃ m', exec (l.forM fun x => discard (inodeOf (f x))) m = (.ok (), m') := by
  induction l generalizing m with
  | nil => exact ⟨m, rfl⟩
  | cons x l ih =>
    show ∃ m', exec (discard (inodeOf (f x)) >>= fun _ => l.forM fun x => discard (inodeOf (f x))) m = _
    rw [exec_bind]
    exact ih _

/-- The reply to a listing. -/
theorem readdir_reply (listing : VfsResult (List DirEntry)) (hino : m.inodes.getPath ino = some p) :
    (exec (readdir listing made ino) m).1 =
      match (exec (listingOf listing p) m).1 with
      | .error errno => .error errno
      | .ok entries =>
        .ok ((entries.map fun entry => (entry.name.bytes, fuseFileType entry.fileType)) ++
          (freshDirs made p (entries.map (·.name.bytes))).map fun candidate =>
            (candidate.fileName.getD [], .directory)) := by
  unfold readdir
  simp only [exec_bind, exec_ofExcept, KinFuseFs.pathFor, hino]
  rcases exec (listingOf listing p) m with ⟨errno | entries, m₁⟩
  · rfl
  · obtain ⟨m₂, hx₂⟩ := exec_forM_inodeOf (fun entry => p.join entry.name) entries m₁
    obtain ⟨m₃, hx₃⟩ := exec_forM_inodeOf id (freshDirs made p (entries.map (·.name.bytes))) m₂
    simp only [id] at hx₃
    simp only [hx₂, hx₃, exec_pure]

theorem freshDirs_nil (hmade : ∀ q, q ∈ made ↔ m.pendingDirs q = true) :
    freshDirs made p [] = [] ↔ ∀ n, m.pendingDirs (p.join n) = false := by
  unfold freshDirs
  simp only [List.filter_eq_nil_iff, List.mem_filter, decide_eq_true_eq]
  constructor
  · intro h n
    rw [Bool.eq_false_iff]
    intro hpend
    exact h (p.join n) ⟨(hmade _).mpr hpend, by simp⟩ (by simp)
  · rintro h candidate ⟨hin, hpar⟩
    obtain ⟨n, rfl⟩ := VfsPath.parent_eq_some.mp hpar
    rw [hmade, h n] at hin
    cases hin

theorem readdir_nil (hino : m.inodes.getPath ino = some p) (hmade : ∀ q, q ∈ made ↔ m.pendingDirs q = true) :
    (exec (readdir (graph.readDir p) made ino) m).1 = .ok [] ↔ ListsNothing graph m p := by
  have hlist : (∃ entries, (exec (listingOf (graph.readDir p) p) m).1 = .ok entries ∧ entries = []) ↔
      (graph.readDir p = .ok [] ∨ (∃ err, graph.readDir p = .error err) ∧ m.pendingDirs p = true) := by
    unfold listingOf
    cases graph.readDir p with
    | ok entries => simp
    | error err => cases hpend : m.pendingDirs p <;> simp [exec_bind, hpend]
  rw [readdir_reply _ hino]
  constructor
  · intro h
    cases hx : (exec (listingOf (graph.readDir p) p) m).1 with
    | error errno =>
      rw [hx] at h
      cases h
    | ok entries =>
      rw [hx] at h
      simp only [Except.ok.injEq, List.append_eq_nil_iff, List.map_eq_nil_iff] at h
      obtain ⟨rfl, hfresh⟩ := h
      exact ⟨hlist.mp ⟨[], hx, rfl⟩, (freshDirs_nil hmade).mp hfresh⟩
  · rintro ⟨hgraph, hpend⟩
    obtain ⟨entries, hx, rfl⟩ := hlist.mpr hgraph
    rw [hx]
    simp [(freshDirs_nil hmade).mpr hpend]

/-! ## The view decides -/

/-- The graph's answers about `p` while it is left alone. -/
def answersOf (graph : ContentProvider) (p : VfsPath) : Answers where
  stat := graph.stat p
  readFile := graph.readFile p
  polls := []
  attr := graph.stat p

/-- `lookup` reports a file. -/
def Reported (graph : ContentProvider) (m : KinFuseFs) (parent : Nat) (name : Bytes) (p : VfsPath) : Prop :=
  ∃ attr st, (exec (lookup (answersOf graph p) parent name) m).1 = .ok attr ∧ attr.stat = some st ∧
    st.isFile = true

/-- The mutations of one entry are decided by what the mount shows of it, whatever the graph makes of
them. -/
structure DecidedByView (sha256 : Bytes → Hash256) (graph : ContentProvider) (m : KinFuseFs)
    (made : List VfsPath) (parent : Nat) (name : Bytes) (p : VfsPath) (ino : Nat) : Prop where
  unlink : Reported graph m parent name p →
    ∀ answers, (exec (unlink sha256 answers parent name) m).1 ≠ .error .noent
  rename : Reported graph m parent name p →
    ∀ answers newparent newname q, m.childOf newparent newname = .ok q →
      (exec (rename sha256 answers parent name newparent newname) m).1 ≠ .error .noent
  rmdir : (exec (rmdir parent name) m).1 = .ok () →
    (exec (readdir (graph.readDir p) made ino) m).1 = .ok []

/-- **When the mount's view decides.** A file that `lookup` reports is on the surface too, and a directory
that is empty on the surface is listed as empty. -/
theorem decided_by_view_iff (hm : Mounted m root) (hp : m.childOf parent name = .ok p)
    (hino : m.inodes.getPath ino = some p) (hmade : ∀ q, q ∈ made ↔ m.pendingDirs q = true) :
    DecidedByView sha256 graph m made parent name p ino ↔
      (Reported graph m parent name p → ¬ Missing m.host root p) ∧
        (EmptyDirAt m.host root p → ListsNothing graph m p) := by
  constructor
  · intro h
    refine ⟨fun hrep hmiss => ?_, fun hemp => ?_⟩
    · exact h.unlink hrep (answersOf graph p) ((unlink_noent hm hp).mpr hmiss)
    · exact (readdir_nil hino hmade).mp (h.rmdir ((rmdir_ok hm hp).mpr hemp))
  · rintro ⟨hfile, hdir⟩
    refine ⟨fun hrep answers => ?_, fun hrep answers newparent newname q hq => ?_, fun hx => ?_⟩
    · rw [ne_eq, unlink_noent hm hp]
      exact hfile hrep
    · exact rename_ne_noent hm hp hq (hfile hrep)
    · exact (readdir_nil hino hmade).mpr (hdir ((rmdir_ok hm hp).mp hx))

theorem decided_by_view_iff_checkedOut :
    DecidedByView (fun _ => Vector.replicate 32 0) Sample.graph Sample.checkedOut [] 1 [97] Sample.file 2 := by
  have hentry : containedEntry Sample.checkedOut.host [[119]] Sample.file = .ok [[119], [97]] := by
    decide +kernel
  refine (decided_by_view_iff Sample.checkedOut_mounted (by rfl) (by rfl) (by simp [Sample.checkedOut, Sample.mount])).mpr
    ⟨fun _ hmiss => ?_, fun hemp => ?_⟩
  · rw [missing_entry hentry, free_iff_entry, hentry] at hmiss
    obtain ⟨e, he, -, hs⟩ := hmiss
    cases he
    exact absurd hs (by decide +kernel)
  · obtain ⟨e, he, -, hd, -⟩ := hemp
    rw [hentry] at he
    cases he
    exact absurd hd (by decide +kernel)

/-- The mount shows the file `a`, which the surface lacks: its removal does not find it. -/
theorem unmaterialized_not_found :
    Reported Sample.graph Sample.mount 1 [97] Sample.file ∧
      (exec (unlink (fun _ => Vector.replicate 32 0) Sample.answered 1 [97]) Sample.mount).1 = .error .noent ∧
      ¬ DecidedByView (fun _ => Vector.replicate 32 0) Sample.graph Sample.mount [] 1 [97] Sample.file 2 := by
  have hrep : Reported Sample.graph Sample.mount 1 [97] Sample.file := ⟨_, _, rfl, rfl, rfl⟩
  have hx : (exec (unlink (fun _ => Vector.replicate 32 0) Sample.answered 1 [97]) Sample.mount).1 =
      .error .noent := by decide +kernel
  exact ⟨hrep, hx, fun h => h.unlink hrep Sample.answered hx⟩

end KinVfs.Fuse
