import KinVfs.Daemon.Admission
import KinVfs.Daemon.DiskSpec

/-!
# What decides a mutation

The host decides whether a mutation finds its path; the overlay decides whether the mount shows it.
`Missing fs root p` is the host's answer: the working copy has nothing at `p`. Each call that needs
an existing path fails with not-found exactly when `p` is missing at the moment it looks.
-/

namespace KinVfs

open Posix (Fs Grown)
open Fallible

/-- A not-found, from the host or from the overlay. -/
def VfsError.isNotFound : VfsError → Bool
  | .notFound _ | .io .notFound => true
  | _ => false

/-- The call failed with a not-found. -/
def failsNotFound {α : Type} : VfsResult α → Bool
  | .ok _ => false
  | .error e => e.isNotFound

/-- The call failed. -/
def fails {α : Type} : VfsResult α → Bool
  | .ok _ => false
  | .error _ => true

/-- `p` resolves, to a place where there is nothing. -/
def Free (fs : Fs) (root : Posix.Path) (p : VfsPath) : Prop :=
  ∃ h, containedTarget fs root p = .ok h ∧ fs.shape h = none

/-- The working copy has nothing at `p`: it is free, or the root itself is gone. -/
def Missing (fs : Fs) (root : Posix.Path) (p : VfsPath) : Prop :=
  fs.canonicalize root = .error .notFound ∨ Free fs root p

section Resolution

variable {fs fs' : Fs} {root e h t : Posix.Path} {p : VfsPath}

/-- The walk itself reports no not-found: an absent component is passed over. -/
theorem resolveComponents_error {fl : Bool} {d : Posix.Path} {cs : List Bytes} {err : VfsError}
    (h : resolveComponents fs root p fl d cs = .error err) : err.isNotFound = false := by
  induction cs generalizing d with
  | nil => cases h
  | cons c cs ih =>
    rw [resolveComponents_step] at h
    split at h
    · cases h
    · split at h
      · exact ih h
      · rename_i k hne _
        cases h
        cases k <;> first | rfl | exact absurd rfl hne
      · split at h
        · cases h
          rfl
        · split at h
          · exact ih h
          · cases h
            rfl
      · exact ih h

theorem resolve_error {fl : Bool} {err : VfsError} (h : resolve fs root p fl = .error err) :
    err.isNotFound = true ↔ fs.canonicalize root = .error .notFound := by
  unfold resolve at h
  cases hr : fs.canonicalize root with
  | error k =>
    rw [hr] at h
    cases h
    cases k <;> simp [VfsError.isNotFound]
  | ok r =>
    rw [hr] at h
    simp [resolveComponents_error h]

/-- What an entry's directory is: the way to the entry is clear, or it runs into a file. -/
theorem entry_cases (he : containedEntry fs root p = .ok e) :
    fs.Clear e ∨ ∃ d m c, e = d ++ [m] ∧ fs.shape d = some (.file c) := by
  rcases VfsPath.root_or_join p with rfl | ⟨q, n, rfl⟩
  · exact .inl (Fs.clear_of_shape (Fs.canonicalize_real (containedEntry_root.mp he)).1)
  · obtain ⟨d, hd, rfl⟩ := containedEntry_join.mp he
    by_cases hc : fs.Clear (d ++ [n.bytes])
    · exact .inl hc
    · rw [clear_concat (containedTarget_landed hd)] at hc
      obtain ⟨c, hf⟩ : ∃ c, fs.shape d = some (.file c) := by
        by_contra hno
        exact hc fun c hf => hno ⟨c, hf⟩
      exact .inr ⟨d, n.bytes, c, rfl, hf⟩

/-- A free path's entry is the free place itself. -/
theorem free_iff_entry :
    Free fs root p ↔ ∃ e, containedEntry fs root p = .ok e ∧ fs.Clear e ∧ fs.shape e = none := by
  constructor
  · rintro ⟨h, ht, hs⟩
    obtain ⟨e, he, hc, rfl | ⟨t, hl⟩⟩ := containedEntry_of_target ht
    · exact ⟨e, he, hc, hs⟩
    · -- What a link leads to exists.
      rcases VfsPath.root_or_join p with rfl | ⟨q, n, rfl⟩
      · exact absurd hs (Fs.canonicalize_real (containedTarget_root.mp ht)).1
      · obtain ⟨d, hd, rfl⟩ := containedEntry_join.mp he
        obtain ⟨r, d', -, hd', -, hf⟩ := containedTarget_join.mp ht
        rw [hd] at hd'
        cases hd'
        rcases followEntry_eq_some.mp hf with ⟨-, hno⟩ | ⟨-, hx, -⟩
        · exact absurd hl (hno t)
        · exact absurd hs (Fs.canonicalize_real hx).1
  · rintro ⟨e, he, hc, hs⟩
    exact ⟨e, containedTarget_of_entry he hc (by simp [hs]), hs⟩

/-- A restat fails with not-found exactly when the path is missing. -/
theorem restat_notFound :
    failsNotFound (KinDaemonWriter.restat root fs p) = true ↔ Missing fs root p := by
  unfold KinDaemonWriter.restat KinDaemonWriter.entryPath Missing
  rw [free_iff_entry]
  cases he : containedEntry fs root p with
  | error err =>
    have := resolve_error he
    simpa [failsNotFound] using this
  | ok e =>
    obtain ⟨r, hr, -⟩ := resolve_ok.mp he
    simp only [KinDaemonWriter.stageStat, hr, reduceCtorEq, Except.ok.injEq, exists_eq_left',
      false_or]
    rcases entry_cases he with hc | ⟨d, m, c, rfl, hf⟩
    · rw [Fs.lstat_clear hc]
      cases hn : fs.node e with
      | none => simp [failsNotFound, VfsError.isNotFound, hc, Fs.shape_eq_none.mpr hn]
      | some nd => simp [failsNotFound, Fs.shape_eq_none, hn]
    · have hblock : ¬ fs.Clear (d ++ [m]) := by
        rw [Fs.clear_append_singleton, hf]
        simp
      rw [Fs.lstat_blocked hf]
      simp [failsNotFound, VfsError.isNotFound, hblock]

/-- A restat that succeeds found a node. -/
theorem restat_ok {st : VirtualStat} :
    KinDaemonWriter.restat root fs p = .ok st ↔
      ∃ e nd, containedEntry fs root p = .ok e ∧ fs.node e = some nd ∧ st = statOf nd := by
  unfold KinDaemonWriter.restat KinDaemonWriter.entryPath KinDaemonWriter.stageStat
  cases he : containedEntry fs root p with
  | error err => simp
  | ok e =>
    rcases entry_cases he with hc | ⟨d, m, c, rfl, hf⟩
    · dsimp only
      rw [Fs.lstat_clear hc]
      cases hn : fs.node e with
      | none => simp [hn]
      | some nd => simp [hn, eq_comm]
    · have hnone : fs.node (d ++ [m]) = none := by
        cases hn : fs.node (d ++ [m]) with
        | none => rfl
        | some nd =>
          have hs : fs.shape (d ++ [m]) ≠ none := by rw [ne_eq, Fs.shape_eq_none, hn]; simp
          rw [Fs.shape_dir_of_append hs (by simp)] at hf
          cases hf
      dsimp only
      rw [Fs.lstat_blocked hf]
      simp [hnone]

end Resolution

/-! ## The calls -/

section Calls

open KinDaemonWriter

variable {fs fs' : Fs} {root e h t : Posix.Path} {p : VfsPath} {w : World}

/-- A path whose entry exists is not missing. -/
theorem restat_of_put {c : Bytes} (hput : Put fs fs' h c) (hw : Writable fs h)
    (ht : containedTarget fs root p = .ok h) : ∃ st, restat root fs' p = .ok st := by
  obtain ⟨e, he, hc, hor⟩ := containedEntry_of_target ht
  have he' := hput.entry hw ht he
  have hsome : fs'.shape e ≠ none := by
    rcases hor with rfl | ⟨t, hl⟩
    · rw [hput, if_pos rfl]
      simp
    · rw [(hput.keeps hw).2 e t hl]
      simp
  rw [restat_eq he' (Fs.clear_of_shape hsome)]
  cases hn : fs'.node e with
  | none => exact absurd (Fs.shape_eq_none.mpr hn) hsome
  | some nd => exact ⟨_, rfl⟩

/-- An exclusive create succeeds exactly on a free path. -/
theorem createFile_fails :
    fails (exec (createFile root p true) w).1 = true ↔ ¬ Free w.host root p := by
  have hspec : ∀ h, containedTarget w.host root p = .ok h →
      (fails (exec (createFile root p true) w).1 = true ↔ w.host.shape h ≠ none) := by
    intro h ht
    have hdisk := createFileDisk_spec true ht
    rw [createFile, exec_diskThenMark]
    cases hs : w.host.shape h with
    | none =>
      rw [hs] at hdisk
      obtain ⟨fs', hx, hput⟩ := hdisk
      obtain ⟨st, hst⟩ := restat_of_put hput (.inl hs) ht
      simp [hx, hst, fails]
    | some sh =>
      have hno : Posix.openedContent (createOptions true) (some sh) = none := by
        cases sh <;> rfl
      rw [hs, hno] at hdisk
      obtain ⟨k, fs', hx, -⟩ := hdisk
      simp [hx, fails]
  cases ht : containedTarget w.host root p with
  | ok h =>
    rw [hspec h ht]
    simp [Free, ht]
  | error err =>
    have hx : exec (createFileDisk root p true) w.host = (.error err, w.host) := by
      simp [createFileDisk, exec_bind, contentPath, ht]
    rw [createFile, exec_diskThenMark, hx]
    simp [fails, Free, ht]

theorem setLen_notFound {n : Nat} :
    failsNotFound (exec (setLen root p n) w).1 = true ↔ Missing w.host root p := by
  rw [setLen, exec_diskThenMark]
  cases ht : containedTarget w.host root p with
  | error err =>
    have hx : exec (setLenDisk root p n) w.host = (.error err, w.host) := by
      simp [setLenDisk, exec_bind, contentPath, ht]
    rw [hx]
    simp only [failsNotFound, Missing, Free, ht, reduceCtorEq, false_and, exists_false, or_false]
    exact resolve_error ht
  | ok h =>
    obtain ⟨r, hr, -⟩ := resolve_ok.mp ht
    have hmiss : Missing w.host root p ↔ w.host.shape h = none := by
      simp [Missing, Free, ht, hr]
    have hdisk := setLenDisk_spec n ht
    rw [hmiss]
    cases hs : w.host.shape h with
    | none =>
      rw [hs] at hdisk
      rw [hdisk]
      simp [failsNotFound, VfsError.isNotFound]
    | some sh =>
      have hother : ∀ k fs', exec (setLenDisk root p n) w.host = (.error (.io k), fs') →
          k ≠ .notFound → failsNotFound (exec (setLen root p n) w).1 = false := by
        intro k fs' hx hk
        rw [setLen, exec_diskThenMark, hx]
        cases k <;> first | rfl | exact absurd rfl hk
      rw [← exec_diskThenMark, ← setLen]
      simp only [reduceCtorEq, iff_false, Bool.not_eq_true]
      cases sh with
      | file c =>
        rw [hs] at hdisk
        dsimp only at hdisk
        split at hdisk
        · obtain ⟨fs', hx, hput⟩ := hdisk
          obtain ⟨st, hst⟩ := restat_of_put hput (.inr ⟨c, hs⟩) ht
          rw [setLen, exec_diskThenMark, hx]
          simp [hst, failsNotFound]
        · obtain ⟨k, hx, hk⟩ := hdisk
          exact hother k _ hx hk
      | dir =>
        rw [hs] at hdisk
        obtain ⟨k, hx, hk⟩ := hdisk
        exact hother k _ hx hk
      | symlink t => exact absurd hs ((containedTarget_landed ht).2 t)

theorem remove_notFound :
    failsNotFound (exec (remove root p) w).1 = true ↔ Missing w.host root p := by
  have hcall : failsNotFound (exec (remove root p) w).1 =
      failsNotFound (exec (removeDisk root p) w.host).1 := by
    rw [remove, exec_bind, exec_onDisk]
    rcases exec (removeDisk root p) w.host with ⟨e | u, fs⟩ <;> rfl
  rw [hcall]
  unfold Missing
  rw [free_iff_entry]
  cases he : containedEntry w.host root p with
  | error err =>
    have hx : exec (removeDisk root p) w.host = (.error err, w.host) := by
      simp [removeDisk, exec_bind, entryPath, he]
    rw [hx]
    simp only [failsNotFound, reduceCtorEq, false_and, exists_false, or_false]
    exact resolve_error he
  | ok e =>
    obtain ⟨r, hr, -⟩ := resolve_ok.mp he
    simp only [hr, reduceCtorEq, Except.ok.injEq, exists_eq_left', false_or]
    rcases entry_cases he with hc | ⟨d, m, c, rfl, hf⟩
    · have hdisk := removeDisk_spec he hc
      cases hs : w.host.shape e with
      | none =>
        rw [hs] at hdisk
        rw [hdisk]
        simp [failsNotFound, VfsError.isNotFound, hc]
      | some sh =>
        rw [hs] at hdisk
        dsimp only at hdisk
        simp only [reduceCtorEq, and_false, iff_false, Bool.not_eq_true]
        split at hdisk
        · obtain ⟨fs', hx, -⟩ := hdisk
          rw [hx]
          rfl
        · obtain ⟨k, hx, hk⟩ := hdisk
          rw [hx]
          cases k <;> first | rfl | exact absurd rfl hk
    · have hblock : ¬ w.host.Clear (d ++ [m]) := by
        rw [Fs.clear_append_singleton, hf]
        simp
      have hx : exec (removeDisk root p) w.host = (.error (.io .notADirectory), w.host) := by
        simp [removeDisk, exec_bind, entryPath, he, Fs.lstat_blocked hf]
      rw [hx]
      simp [failsNotFound, VfsError.isNotFound, hblock]

/-- Making the parents of an entry: they are directories afterwards, or one of them is a file. -/
theorem createParent_entry (he : containedEntry fs root p = .ok t) :
    (∃ fs', exec (createParent t) fs = (.ok (), fs') ∧ Grown fs fs' t.dropLast ∧
        fs'.shape t.dropLast = some .dir ∧ ∀ r, ¬ (r <+: t ∧ r ≠ t) → fs'.node r = fs.node r) ∨
      exec (createParent t) fs = (.error (.io .alreadyExists), fs) := by
  by_cases h0 : t = []
  · subst h0
    exact .inl ⟨fs, by simp [createParent], Grown.refl_of_dir (Fs.shape_root fs), Fs.shape_root fs,
      fun _ _ => rfl⟩
  · rcases entry_cases he with hc | ⟨d, m, c, rfl, hf⟩
    · obtain ⟨fs', hx, hg, hf⟩ := Posix.createDirAll_clear hc.dropLast hc.parent
      refine .inl ⟨fs', by simp [createParent, h0, hx], hg, ?_, fun r hr => hf r ?_⟩
      swap
      · rwa [prefix_dropLast h0]
      rw [hg]
      rcases hc.parent with hp | hp
      · rw [if_pos ⟨List.prefix_rfl, hp⟩]
      · rw [if_neg (by simp [hp]), hp]
    · have hx := Posix.createDirAll_file hf
      exact .inr (by simp [createParent, hx])

/-- Nothing is moved from below a file. -/
theorem rename_blocked {d : Posix.Path} {m : Bytes} {c : Bytes} (hf : fs.shape d = some (.file c)) :
    exec (Posix.rename (d ++ [m]) t) fs = (.error .notADirectory, fs) := by
  simp [Posix.rename, exec_bind, Fs.locate_blocked hf]

/-- The host's `rename` of the entry of `p` does not find it exactly when `p` is free. -/
theorem rename_host_notFound (he : containedEntry fs root p = .ok e)
    (hd : fs.shape t.dropLast = some .dir) :
    (exec (Posix.rename e t) fs).1 = .error .notFound ↔ Free fs root p := by
  rw [free_iff_entry, he]
  simp only [Except.ok.injEq, exists_eq_left']
  rcases entry_cases he with hc | ⟨d, m, c, rfl, hf⟩
  · rw [Posix.rename_eq hc hd]
    cases hn : fs.node e with
    | none => simp [hc, Fs.shape_eq_none.mpr hn]
    | some nd =>
      have hs : fs.shape e ≠ none := by rw [ne_eq, Fs.shape_eq_none, hn]; simp
      simp only [hs, and_false, iff_false]
      split
      · simp
      · split
        · simp
        · split
          · simp
          · split
            · simp
            · rename_i k hk
              simpa using Posix.replaceable_error hk
  · have hblock : ¬ fs.Clear (d ++ [m]) := by
      rw [Fs.clear_append_singleton, hf]
      simp
    simp [rename_blocked hf, hblock]

/-- Directories that are made do not free an entry. -/
theorem not_free_grown (hg : Grown fs fs' t)
    (he : containedEntry fs root p = .ok e) (hfree : ¬ Free fs root p) : ¬ Free fs' root p := by
  rw [free_iff_entry] at hfree ⊢
  rintro ⟨e', he', hc', hs'⟩
  rw [grown_entry hg he] at he'
  cases he'
  have hs : fs.shape e = none := by
    rw [hg] at hs'
    split at hs'
    · cases hs'
    · exact hs'
  rcases entry_cases he with hc | ⟨d, n, c, rfl, hf⟩
  · exact hfree ⟨e, he, hc, hs⟩
  · have hf' : fs'.shape d = some (.file c) := by
      rw [hg, if_neg (by simp [hf]), hf]
    rw [Fs.clear_append_singleton, hf'] at hc'
    simp at hc'

/-- What the steps of a rename find: once the destination's parents are made `p` is still not free, and
once its entry was moved the destination is found. -/
def RenameFinds (fs : Fs) (root : Posix.Path) (p dst : VfsPath) : Prop :=
  ∀ t, containedEntry fs root dst = .ok t →
    ∀ fs₁, exec (createParent t) fs = (.ok (), fs₁) → ¬ Free fs₁ root p ∧
      ∀ e, containedEntry fs₁ root p = .ok e →
        ∀ fs₂, exec (Posix.rename e t) fs₁ = (.ok (), fs₂) → ¬ Missing fs₂ root dst

/-- A rename fails with not-found when the root is gone, when it does not find `p`, and when the
destination led through what it moved. -/
theorem rename_notFound {dst : VfsPath} :
    failsNotFound (exec (rename root p dst) w).1 = false ↔
      w.host.canonicalize root ≠ .error .notFound ∧ RenameFinds w.host root p dst := by
  rw [exec_rename]
  cases ht : containedEntry w.host root dst with
  | error err =>
    have herr := resolve_error ht
    have hdisk : exec (renameDisk root p dst) w.host = (.error err, w.host) := by
      simp [renameDisk, exec_bind, entryPath, ht]
    rw [hdisk]
    simp only [failsNotFound, RenameFinds, ht, reduceCtorEq, false_implies, implies_true, and_true,
      ne_eq, ← herr, Bool.not_eq_true]
  | ok t =>
    obtain ⟨r, hr, -⟩ := resolve_ok.mp ht
    simp only [hr, ne_eq, reduceCtorEq, not_false_eq_true, true_and]
    rcases createParent_entry ht with ⟨fs₁, hx, hg, hd, -⟩ | hx
    · have hr₁ := Fs.canonicalize_keeps hg.keeps hr (hg.real (Fs.canonicalize_real hr))
      cases he : containedEntry fs₁ root p with
      | error err =>
        have hnf : err.isNotFound = false := by
          have := resolve_error he
          rw [hr₁] at this
          simpa using this
        have hdisk : exec (renameDisk root p dst) w.host = (.error err, fs₁) := by
          simp [renameDisk, exec_bind, entryPath, ht, hx, he]
        rw [hdisk]
        simp [failsNotFound, hnf, RenameFinds, ht, hx, free_iff_entry, he]
      | ok e =>
        have hnf := rename_host_notFound he hd
        have hmov : RenameFinds w.host root p dst ↔ ¬ Free fs₁ root p ∧
            ∀ fs₂, exec (Posix.rename e t) fs₁ = (.ok (), fs₂) → ¬ Missing fs₂ root dst := by
          simp [RenameFinds, ht, hx, he]
        rw [hmov]
        rcases hmove : exec (Posix.rename e t) fs₁ with ⟨k | u, fs₂⟩
        · have hdisk : exec (renameDisk root p dst) w.host = (.error (.io k), fs₂) := by
            simp [renameDisk, exec_bind, entryPath, ht, hx, he, hmove]
          rw [hmove] at hnf
          simp only [Except.error.injEq] at hnf
          rw [hdisk, ← hnf]
          cases k <;> simp [failsNotFound, VfsError.isNotFound]
        · have hdisk : exec (renameDisk root p dst) w.host = (.ok (), fs₂) := by
            simp [renameDisk, exec_bind, entryPath, ht, hx, he, hmove]
          rw [hmove] at hnf
          have hfree : ¬ Free fs₁ root p := fun h0 => by cases hnf.mpr h0
          have hrestat : failsNotFound (restat root fs₂ dst) = true ↔ Missing fs₂ root dst :=
            restat_notFound
          rw [hdisk]
          simp only [hfree, not_false_eq_true, true_and, Prod.mk.injEq, forall_eq', ← hrestat]
          cases restat root fs₂ dst <;> simp [failsNotFound]
    · have hdisk : exec (renameDisk root p dst) w.host =
          (.error (.io .alreadyExists), w.host) := by
        simp [renameDisk, exec_bind, entryPath, ht, hx]
      rw [hdisk]
      simp [failsNotFound, VfsError.isNotFound, RenameFinds, ht, hx]

end Calls

/-- The empty working copy with nothing staged. -/
def Sample.world : World := ⟨host, .init, 0, 0⟩

/-- A graph with one file, `a`, of one byte. -/
def Sample.graph : ContentProvider where
  readFile p := if p = a then .ok [1] else .error (.notFound p.display)
  readRange p offset len :=
    if p = a then .ok (Content.slice [1] offset (offset + len)) else .error (.notFound p.display)
  stat p :=
    if p = .root then .ok (.directory 0)
    else if p = a then .ok (.regularFile 1 (.replicate 32 0) false 0)
    else .error (.notFound p.display)
  readDir p :=
    if p = .root then .ok [⟨nameA, .file⟩]
    else if p = a then .error (.notDirectory p.display)
    else .error (.notFound p.display)
  pathExists p := .ok (p = .root || p = a)
  readLink p := .error (.invalidInput p.display)
  version := 1

end KinVfs
