import KinVfs.Posix.Attrs
import KinVfs.Daemon.Decision
import KinVfs.Fuse.Acceptance

/-!
# What a refused removal or rename leaves

When the graph does not take a removal, the mount writes the file again from the graph's copy; when it does
not take a rename, the mount renames the entry back. Neither restores the projection surface as such: the
copy need not have the bytes or the mode that were projected, a link is not written again, and what the rename
replaced is gone (`refused_unchanged_iff`).

Whether a rename to a new name leaves anything at its paths is seen on the tree before it
(`Op.leavesNothing_rename_iff`).
-/

namespace KinVfs.Fuse

open Posix (Fs)
open Fallible

variable {sha256 : Bytes → Hash256} {answers : Answers} {m m' : KinFuseFs} {fs fs' : Fs}
  {root e h t : Posix.Path} {p q : VfsPath} {nd : Posix.Node} {umask mode : Nat} {body : Bytes}

/-- Every entry of the surface has its kind, content and mode, and the pending set is the same. -/
structure Unchanged (m m' : KinFuseFs) : Prop where
  surface : ∀ r, m'.host.attr r = m.host.attr r
  pending : m'.pendingDirs = m.pendingDirs

theorem createParent_there (hd : fs.shape h.dropLast = some .dir) : exec (createParent h) fs = (.ok (), fs) := by
  unfold createParent
  split
  · rfl
  · rw [exec_io, Posix.createDirAll_dir hd]

/-! ## A removal -/

namespace WorkspaceWriter

theorem attr_setModeAt (l : Posix.Path) (mode : Nat) (fs : Fs) (r : Posix.Path) :
    (setModeAt l mode fs).attr r = if r = l then (fs.attr l).map fun a => (a.1, mode) else fs.attr r := by
  unfold Fs.attr
  rw [node_setModeAt]
  split
  · cases fs.node l with
    | none => rfl
    | some nd => cases nd <;> rfl
  · rfl

/-- A file that is not there, in a directory that is, gets the body and the mode. -/
theorem materialize_attr (hr : realPath root fs p = .ok h) (hs : fs.shape h = none)
    (hd : fs.shape h.dropLast = some .dir) (hx : exec (materialize root umask p body mode) fs = (.ok (), fs'))
    (r : Posix.Path) :
    fs'.attr r = if r = h then some (.file body, creationMode umask mode) else fs.attr r := by
  have hh : h ≠ [] := by
    rintro rfl
    rw [Fs.shape_root] at hs
    cases hs
  obtain ⟨h', hr', hl, hx⟩ := real_of_ok hx
  rw [hr] at hr'
  cases hr'
  have hmiss : pathExists fs h = false := by
    simp only [pathExists, Posix.Fs.canonicalize_clear hl.1 hl.2, if_pos hs]
    rfl
  obtain ⟨_, fs₀, hx₀, hx⟩ := exec_bind_ok.mp hx
  cases hx₀
  rw [hmiss, if_neg (by simp)] at hx
  obtain ⟨_, fs₁, hx₁, hx⟩ := exec_bind_ok.mp hx
  -- The directory is there, so nothing is made.
  rw [createParent_there hd] at hx₁
  cases hx₁
  obtain ⟨file, fs₂, hx₂, hwrite⟩ := exec_bind_ok.mp hx
  obtain ⟨fs₃, hopen, hmode⟩ := openWithMode_ok (exec_io_ok.mp hx₂)
  have hn := Fs.shape_eq_none.mp hs
  rw [Posix.openFile_eq hl.1 hl.2, if_neg (by simp [hd])] at hopen
  simp only [Posix.openReal, exec_bind, exec_get, hn, Bool.true_or, if_true, exec_set, exec_pure,
    Prod.mk.injEq, Except.ok.injEq] at hopen
  obtain ⟨rfl, rfl⟩ := hopen
  rw [if_neg (by simp [hn])] at hmode
  have hmade : ∀ r, (fs.addEntry h (.file ⟨fs.env.fileMode, fs.env.now⟩ [])).attr r =
      if r = h then some (.file [], fs.env.fileMode) else fs.attr r :=
    fun r => Fs.attr_addEntry hh (Fs.shape_eq_dir.mp hd) hn rfl
  have hopened : ∀ r, fs₂.attr r = if r = h then some (.file [], creationMode umask mode) else fs.attr r := by
    intro r
    rw [hmode, attr_setModeAt, hmade, hmade, if_pos rfl]
    split
    · rfl
    · rfl
  obtain ⟨nd, hnode, hattr⟩ : ∃ nd, fs₂.node h = some nd ∧
      (nd.shape, nd.info.mode) = (.file [], creationMode umask mode) := by
    have hat := hopened h
    rw [if_pos rfl, Fs.attr, Option.map_eq_some_iff] at hat
    exact hat
  obtain ⟨i, rfl, hi⟩ : ∃ i, nd = .file i [] ∧ i.mode = creationMode umask mode := by
    cases nd with
    | file i c =>
      simp only [Posix.Node.shape, Posix.Node.info, Prod.mk.injEq, Posix.Shape.file.injEq] at hattr
      exact ⟨i, by rw [hattr.1], hattr.2⟩
    | dir i k => simp [Posix.Node.shape] at hattr
    | symlink i t => simp [Posix.Node.shape] at hattr
  have hwritten := exec_io_ok.mp hwrite
  simp only [Posix.writeFile, exec_bind, exec_get, hnode] at hwritten
  rw [if_neg (by simp)] at hwritten
  split at hwritten
  · rename_i hb
    cases hwritten
    rw [hopened, hb]
  · split at hwritten
    · cases hwritten
    · rename_i hsize
      cases hwritten
      rw [overwrite_nil, Fs.attr_setNode (by simp [hnode, Posix.Node.isDir]), hopened]
      · split
        · simp [Posix.Node.shape, Posix.Node.info, hi]
        · rfl
      · simp only [Posix.Node.fits, decide_eq_true_eq]
        omega

/-- A removal the host refuses changes nothing; there was nothing, or a directory. -/
theorem removeFile_error {err : VfsError} (hl : checkLexical root p = .ok ())
    (hx : exec (removeFile root p) fs = (.error err, fs')) :
    fs' = fs ∧ ∀ nd, surface fs root p = some nd → nd.isDir = true := by
  unfold removeFile at hx
  rw [exec_bind, exec_ofExcept, entryPath_of_lexical hl] at hx
  cases he : containedEntry fs root p with
  | error err' =>
    rw [he] at hx
    cases hx
    exact ⟨rfl, fun nd hs => by simp [surface, he] at hs⟩
  | ok e =>
    rw [he] at hx
    simp only [exec_io, Posix.removeFile, exec_bind, exec_ofExcept, exec_get] at hx
    have hnode : ∀ nd, fs.node e = some nd → fs.locate e = .ok e := by
      intro nd hn
      have hs : fs.shape e ≠ none := by rw [ne_eq, Fs.shape_eq_none, hn]; simp
      rw [Fs.locate_clear (Fs.clear_of_shape hs), if_neg (by simp [Fs.shape_dropLast hs])]
    refine ⟨?_, fun nd hs => ?_⟩
    · cases hloc : fs.locate e with
      | error k =>
        rw [hloc] at hx
        cases hx
        rfl
      | ok l =>
        rw [hloc] at hx
        dsimp only at hx
        cases hn : fs.node l with
        | none =>
          rw [hn] at hx
          cases hx
          rfl
        | some nd =>
          rw [hn] at hx
          cases nd <;> cases hx
          rfl
    · obtain ⟨e', he', hn⟩ := surface_eq_some.mp hs
      rw [he] at he'
      cases he'
      rw [hnode nd hn] at hx
      dsimp only at hx
      rw [hn] at hx
      cases nd with
      | dir i k => rfl
      | file i c => cases hx
      | symlink i t => cases hx

/-- What is written again is a file, in directories. -/
theorem materialize_not_link (hs : fs.shape e = none)
    (hx : exec (materialize root umask p body mode) fs = (.ok (), fs')) :
    ∀ t, fs'.shape e ≠ some (.symlink t) := by
  obtain ⟨h, hr, hl, hx'⟩ := real_of_ok hx
  obtain ⟨_, fs₀, hx₀, hx'⟩ := exec_bind_ok.mp hx'
  cases hx₀
  intro t ht
  by_cases hex : fs.shape h = none
  · have hput := materialize_put hr hex hx
    rw [hput] at ht
    split at ht
    · cases ht
    · split at ht
      · cases ht
      · rw [hs] at ht
        cases ht
  · have hpath : pathExists fs h = true := by
      simp [pathExists, Posix.Fs.canonicalize_clear hl.1 hl.2, if_neg hex, Except.toOption]
    rw [if_pos hpath] at hx'
    cases hx'
    rw [hs] at ht
    cases ht

end WorkspaceWriter

/-- The graph's copy is what was projected: a regular file with its bytes and its mode. Where nothing, or a
directory, is projected, nothing is removed. -/
def Restores (answers : Answers) (umask : Nat) : Option Posix.Node → Prop
  | none | some (.dir ..) => True
  | some (.file i c) => ∃ mode, answers.restorable = some (c, mode) ∧ WorkspaceWriter.creationMode umask mode = i.mode
  | some (.symlink ..) => False

theorem putBack_ok {copy : Bytes × Nat} (hx : (exec (putBack root p (some copy)) m).1 = .ok ()) :
    ∃ fs, exec (WorkspaceWriter.materialize root m.umask p copy.1 copy.2) m.host = (.ok (), fs) ∧
      (exec (putBack root p (some copy)) m).2 = { m with host := fs } := by
  have hrun : exec (putBack root p (some copy)) m =
      exec (disk (WorkspaceWriter.materialize root m.umask p copy.1 copy.2)) m := by
    obtain ⟨body, mode⟩ := copy
    rw [putBack, exec_bind, exec_get]
  rw [hrun, exec_disk] at hx ⊢
  rcases hmat : exec (WorkspaceWriter.materialize root m.umask p copy.1 copy.2) m.host with ⟨err | u, fs⟩
  · rw [hmat] at hx
    cases hx
  · exact ⟨fs, rfl, rfl⟩

/-- What is left when an entry that is no directory is removed. -/
theorem attr_removed (hn : fs.node e = some nd) (hd : nd.isDir = false) :
    e ≠ [] ∧ ∀ r, (fs.removeEntry e).attr r = if r = e then none else fs.attr r := by
  have hne : e ≠ [] := by
    rintro rfl
    have hroot := fs.rootDir
    rw [hn] at hroot
    simp [hd] at hroot
  have hnd : fs.isDir e = false := by simp [Fs.isDir, hn, hd]
  exact ⟨hne, fun r => Fs.attr_removeEntry hne (.inl hnd)⟩

/-- A file that was removed and is written again is as it was if the body and the mode are. -/
theorem materialize_restores_iff {i : Posix.Info} {c : Bytes} (hl : WorkspaceWriter.checkLexical root p = .ok ())
    (hj : p ≠ .root) (he : containedEntry fs root p = .ok e) (hn : fs.node e = some (.file i c))
    (hmat : exec (WorkspaceWriter.materialize root umask p body mode) (fs.removeEntry e) = (.ok (), fs')) :
    (∀ r, fs'.attr r = fs.attr r) ↔ body = c ∧ WorkspaceWriter.creationMode umask mode = i.mode := by
  obtain ⟨hne, hattr⟩ := attr_removed hn rfl
  have hgone : (fs.removeEntry e).shape e = none := by rw [← Fs.attr_eq_none, hattr, if_pos rfl]
  have hwas : fs.attr e = some (.file c, i.mode) := by simp [Fs.attr, hn, Posix.Node.shape, Posix.Node.info]
  have hf : fs.shape e = some (.file c) := Fs.shape_eq_file.mpr ⟨i, hn⟩
  have herased : Erased fs (fs.removeEntry e) e := by
    intro r
    have hat := hattr r
    rw [Fs.shape_eq_attr, hat, Fs.shape_eq_attr]
    split <;> rfl
  obtain ⟨ht, -⟩ := herased.resolves hj hf (target_of_surface he hn rfl) he
  have hdir : (fs.removeEntry e).shape e.dropLast = some .dir := by
    rw [herased, if_neg, shape_parent hn]
    intro h0
    have hlen := congrArg List.length h0
    rw [List.length_dropLast] at hlen
    have := List.length_pos_iff.mpr hne
    omega
  have hfinal := WorkspaceWriter.materialize_attr ((WorkspaceWriter.realPath_of_lexical hl).trans ht) hgone
    hdir hmat
  constructor
  · intro h
    have hat := h e
    rw [hfinal, if_pos rfl, hwas] at hat
    simpa using hat
  · rintro ⟨rfl, hmode⟩ r
    rw [hfinal, hattr]
    split
    · rename_i hr
      rw [hr, hwas, hmode]
    · rfl

/-- The removal was done, and is undone. -/
theorem putBack_unchanged_iff (hl : WorkspaceWriter.checkLexical root p = .ok ()) (hj : p ≠ .root)
    (he : containedEntry m.host root p = .ok e) (hn : m.host.node e = some nd) (hd : nd.isDir = false)
    (hback : (exec (putBack root p answers.restorable) { m with host := m.host.removeEntry e }).1 = .ok ()) :
    Unchanged m (exec (putBack root p answers.restorable) { m with host := m.host.removeEntry e }).2 ↔
      Restores answers m.umask (some nd) := by
  obtain ⟨-, hattr⟩ := attr_removed hn hd
  have hgone : (m.host.removeEntry e).attr e = none := by rw [hattr, if_pos rfl]
  have hwas : m.host.attr e = some (nd.shape, nd.info.mode) := by simp [Fs.attr, hn]
  cases hrest : answers.restorable with
  | none =>
    refine iff_of_false (fun h => ?_) ?_
    · have hat := h.surface e
      simp only [putBack, exec_pure] at hat
      rw [hgone, hwas] at hat
      cases hat
    · cases nd with
      | dir i k => cases hd
      | file i c => simp [Restores, hrest]
      | symlink i t => simp [Restores]
  | some copy =>
    obtain ⟨body, mode⟩ := copy
    rw [hrest] at hback
    obtain ⟨fs', hmat, hput⟩ := putBack_ok hback
    rw [hput]
    cases nd with
    | dir i k => cases hd
    | symlink i t =>
      refine iff_of_false (fun h => ?_) (by simp [Restores])
      have hlink : fs'.shape e = some (.symlink t) := by
        have hat := h.surface e
        rw [hwas] at hat
        rw [Fs.shape_eq_attr, hat]
        rfl
      exact WorkspaceWriter.materialize_not_link (Fs.attr_eq_none.mp hgone) hmat t hlink
    | file i c =>
      have hall : (∀ r, fs'.attr r = m.host.attr r) ↔
          body = c ∧ WorkspaceWriter.creationMode m.umask mode = i.mode :=
        materialize_restores_iff hl hj he hn hmat
      constructor
      · intro h
        obtain ⟨hbody, hmode⟩ := hall.mp h.surface
        exact ⟨mode, by rw [hrest, hbody], hmode⟩
      · rintro ⟨mode', hr, hmode⟩
        rw [hrest] at hr
        cases hr
        exact ⟨hall.mpr ⟨rfl, hmode⟩, rfl⟩

theorem unlink_unchanged_iff {parent : Nat} {name : Bytes} {errno : Errno} (hm : Mounted m root)
    (hp : m.childOf parent name = .ok p) (hx : exec (unlink sha256 answers parent name) m = (.error errno, m'))
    (hback : ∀ fs, exec (WorkspaceWriter.removeFile root p) m.host = (.ok (), fs) →
      (exec (putBack root p answers.restorable) { m with host := fs }).1 = .ok ()) :
    Unchanged m m' ↔ Restores answers m.umask (surface m.host root p) := by
  rw [exec_unlink hm hp] at hx
  rcases hrem : exec (WorkspaceWriter.removeFile root p) m.host with ⟨err | u, fs⟩
  · -- The host refuses.
    rw [hrem] at hx
    cases hx
    obtain ⟨rfl, hdir⟩ := WorkspaceWriter.removeFile_error (hm.lexical hp) hrem
    refine iff_of_true ⟨fun _ => rfl, rfl⟩ ?_
    cases hs : surface m.host root p with
    | none => trivial
    | some nd =>
      have hd := hdir nd hs
      cases nd with
      | dir i k => trivial
      | file i c => cases hd
      | symlink i t => cases hd
  · rw [hrem] at hx
    dsimp only at hx
    cases ht : taken sha256 answers root p fs with
    | ok u =>
      rw [ht] at hx
      cases hx
    | error errno' =>
      rw [ht] at hx
      cases hx
      have hback := hback fs hrem
      obtain ⟨e, nd, he, hn, hd, rfl⟩ := WorkspaceWriter.removeFile_ok hrem
      obtain ⟨-, hce⟩ := entryPath_ok.mp he
      have hj : p ≠ .root := by
        obtain ⟨q, n, -, -, rfl⟩ := childOf_ok hp
        exact VfsPath.join_ne_root q n
      rw [surface_eq_some.mpr ⟨e, hce, hn⟩]
      exact putBack_unchanged_iff (hm.lexical hp) hj hce hn hd hback

/-! ## A rename and its reverse -/

/-- A rename into a directory that is there. -/
theorem rename_there (hp : WorkspaceWriter.checkLexical root p = .ok ())
    (hq : WorkspaceWriter.checkLexical root q = .ok ()) (he : containedEntry fs root p = .ok e)
    (ht : containedEntry fs root q = .ok t) (hd : fs.shape t.dropLast = some .dir) :
    exec (WorkspaceWriter.rename root p q) fs = exec (io (Posix.rename e t)) fs := by
  simp only [WorkspaceWriter.rename, exec_bind, exec_ofExcept, WorkspaceWriter.entryPath_of_lexical hp,
    WorkspaceWriter.entryPath_of_lexical hq, he, ht, createParent_there hd]

theorem renamed_there (hp : WorkspaceWriter.checkLexical root p = .ok ())
    (hq : WorkspaceWriter.checkLexical root q = .ok ()) (he : containedEntry fs root p = .ok e)
    (ht : containedEntry fs root q = .ok t) (hd : fs.shape t.dropLast = some .dir)
    (hx : exec (WorkspaceWriter.rename root p q) fs = (.ok (), fs')) :
    ∃ nd, Renamed root p q fs fs fs' e t nd := by
  rw [rename_there hp hq he ht hd, exec_io_ok] at hx
  rcases entry_cases he with hc | ⟨d, n, c, rfl, hf⟩
  · rw [Posix.rename_eq hc hd] at hx
    cases hn : fs.node e with
    | none =>
      rw [hn] at hx
      cases hx
    | some nd =>
      rw [hn] at hx
      dsimp only at hx
      refine ⟨nd, ht, Posix.Grown.refl_of_dir hd, hd, fun _ _ => rfl, he, hn, ?_⟩
      split at hx
      · rename_i heq
        cases hx
        exact .inl ⟨heq, rfl⟩
      · split at hx
        · cases hx
        · rename_i hne
          rw [not_or] at hne
          split at hx
          · cases hx
          · rename_i hpre
            split at hx
            · rename_i hrep
              cases hx
              exact .inr ⟨hne.1, hne.2, Bool.eq_false_iff.mpr hpre, hrep, rfl⟩
            · cases hx
  · rw [rename_blocked hf] at hx
    cases hx

/-! ## What a rename leaves at its paths -/

section Fresh

variable {fs₂ a : Fs} {r x x' : Posix.Path} {d : VfsPath} {n : VfsName}

/-- A directory that is reached in two trees is reached by what they share. -/
theorem canonicalize_shared (hsub : ∀ q s, a.shape q = some s → fs.shape q = some s)
    (hsame : ∀ q s s', fs.shape q = some s → fs₂.shape q = some s' → s = s')
    (hstay : ∀ q s, fs.shape q = some s → fs₂.shape q = some s → a.shape q = some s)
    {l : Posix.Path} (hx : fs.canonicalize l = .ok x) (hx₂ : fs₂.canonicalize l = .ok x)
    (hdir : fs.shape x = some .dir) : a.canonicalize l = .ok x := by
  have hlost : ∀ q s, fs.shape q = some s → a.shape q = some s ∨ a.shape q = none := by
    intro q s hs
    cases ha : a.shape q with
    | none => exact .inr rfl
    | some s' => exact .inl ((hsub q s' ha).symm.trans hs)
  rcases Fs.canonicalize_lost hlost hx with hok | herr
  · exact hok
  · exact absurd herr (Fs.canonicalize_ne_notFound hsame (fun q s hs hs₂ _ => .inl (hstay q s hs hs₂)) hdir hx hx₂)

theorem target_shared (hsub : ∀ q s, a.shape q = some s → fs.shape q = some s)
    (hsame : ∀ q s s', fs.shape q = some s → fs₂.shape q = some s' → s = s')
    (hstay : ∀ q s, fs.shape q = some s → fs₂.shape q = some s → a.shape q = some s)
    (hx : containedTarget fs root d = .ok x) (hx₂ : containedTarget fs₂ root d = .ok x')
    (hdir : fs.shape x = some .dir) (hdir₂ : fs₂.shape x' = some .dir) : containedTarget a root d = .ok x := by
  have hcompat : Fs.Compat fs fs₂ := fun q s s' hs hs₂ => .inr (.inr (hsame q s s' hs hs₂))
  induction d using VfsPath.induct generalizing x x' with
  | hroot =>
    have heq := containedTarget_compat hcompat hx hx₂ hdir hdir₂
    subst heq
    rw [containedTarget_root] at hx hx₂ ⊢
    exact canonicalize_shared hsub hsame hstay hx hx₂ hdir
  | hjoin d n ih =>
    obtain ⟨r, y, hr, hy, -, hf⟩ := containedTarget_join.mp hx
    obtain ⟨_, y₂, -, hy₂, -, hf₂⟩ := containedTarget_join.mp hx₂
    have hcase := followEntry_dir hf hdir
    have hcase₂ := followEntry_dir hf₂ hdir₂
    have hsome : fs.shape (y ++ [n.bytes]) ≠ none := by
      rcases hcase with ⟨-, hs⟩ | ⟨z, hs, -⟩ <;> simp [hs]
    have hsome₂ : fs₂.shape (y₂ ++ [n.bytes]) ≠ none := by
      rcases hcase₂ with ⟨-, hs⟩ | ⟨z, hs, -⟩ <;> simp [hs]
    have hyd : fs.shape y = some .dir := Fs.shape_dir_of_append hsome (by simp)
    have hyd₂ : fs₂.shape y₂ = some .dir := Fs.shape_dir_of_append hsome₂ (by simp)
    have heq : y = y₂ := containedTarget_compat hcompat hy hy₂ hyd hyd₂
    subst heq
    have hya := ih hy hy₂ hyd hyd₂
    obtain ⟨r', hr', -⟩ := resolve_ok.mp hya
    have hroot : r' = r := Except.ok.inj ((Fs.canonicalize_of_sub hsub hr').symm.trans hr)
    subst hroot
    have hclear : a.Clear (y ++ [n.bytes]) := by
      rw [clear_concat (containedTarget_landed hya), hstay y .dir hyd hyd₂]
      simp
    refine containedTarget_join.mpr ⟨r', y, hr', hya, hclear, ?_⟩
    rw [followEntry_eq_some]
    rcases hcase with ⟨rfl, hs⟩ | ⟨z, hs, hcan⟩
    · have hs₂ : fs₂.shape (y ++ [n.bytes]) = some .dir := by
        obtain ⟨s, hs₂⟩ := Option.ne_none_iff_exists'.mp hsome₂
        rw [hs₂, ← hsame _ _ _ hs hs₂]
      exact .inl ⟨rfl, by simp [hstay _ _ hs hs₂]⟩
    · obtain ⟨s, hs₂⟩ := Option.ne_none_iff_exists'.mp hsome₂
      obtain rfl := hsame _ _ _ hs hs₂
      have hcan₂ : fs₂.canonicalize (y ++ [n.bytes]) = .ok x' := by
        rcases hcase₂ with ⟨-, hd⟩ | ⟨_, -, hcan₂⟩
        · rw [hs₂] at hd
          cases hd
        · exact hcan₂
      have hxx : x = x' := Fs.canonicalize_compat hcompat hcan hcan₂ hdir hdir₂
      subst hxx
      have hpre : r' <+: x := by
        rcases followEntry_eq_some.mp hf with ⟨-, hnot⟩ | ⟨-, -, hpre⟩
        · exact absurd hs (hnot z)
        · exact hpre
      exact .inr ⟨⟨z, hstay _ _ hs hs₂⟩, canonicalize_shared hsub hsame hstay hcan hcan₂ hdir, hpre⟩

/-- A rename to a name that is not there: what is left of the tree is what was not moved. -/
structure MovedAway (fs fs₂ : Fs) (e t : Posix.Path) (nd : Posix.Node) : Prop where
  source : e ≠ []
  outside : ¬ e <+: t
  stays : ∀ q s, fs.shape q = some s → fs₂.shape q = if e <+: q then none else some s
  arrives : fs₂.shape t = some nd.shape

namespace MovedAway

theorem of_renamed (h : Renamed root p q fs fs fs₂ e t nd) (hfresh : fs.shape t = none) :
    MovedAway fs fs₂ e t nd := by
  rcases h.moved with ⟨rfl, -⟩ | ⟨he, ht, hno, hrep, rfl⟩
  · have hnode := h.node
    rw [Fs.shape_eq_none.mp hfresh] at hnode
    cases hnode
  · refine ⟨he, ?_, fun r s hs => ?_, shape_moved_dst h he ht hno⟩
    · rw [← List.isPrefixOf_iff_prefix, hno]
      simp
    · have hne : r ≠ t := by
        rintro rfl
        rw [hfresh] at hs
        cases hs
      rw [shape_moved h he ht hno hrep r (by simp [hs]), if_neg hne, hs]

theorem same (h : MovedAway fs fs₂ e t nd) {q : Posix.Path} {s s' : Posix.Shape} (hs : fs.shape q = some s)
    (hs₂ : fs₂.shape q = some s') : s = s' := by
  rw [h.stays q s hs] at hs₂
  split at hs₂
  · cases hs₂
  · exact Option.some.inj hs₂

theorem shared (h : MovedAway fs fs₂ e t nd) {q : Posix.Path} {s : Posix.Shape} (hs : fs.shape q = some s)
    (hs₂ : fs₂.shape q = some s) : (fs.without e).shape q = some s := by
  rw [h.stays q s hs] at hs₂
  split at hs₂
  · cases hs₂
  · rename_i hpre
    rw [Fs.shape_without_of_not_prefix hpre, hs]

theorem kept (h : MovedAway fs fs₂ e t nd) {q : Posix.Path} {s : Posix.Shape}
    (hs : (fs.without e).shape q = some s) : fs₂.shape q = some s := by
  have hpre : ¬ e <+: q := by
    intro hpre
    rw [Fs.shape_without_of_prefix h.source hpre] at hs
    cases hs
  rw [h.stays q s (Fs.shape_of_without hs), if_neg hpre]

/-- The directory of an entry that both trees have is reached without what was moved. -/
theorem entry_shared (h : MovedAway fs fs₂ e t nd) (hl : containedEntry fs root (d.join n) = .ok x)
    (hd : fs.shape x.dropLast = some .dir) (hs : surface fs₂ root (d.join n) ≠ none) :
    containedEntry fs₂ root (d.join n) = .ok x ∧ containedTarget (fs.without e) root d = .ok x.dropLast := by
  obtain ⟨nd', hs⟩ := Option.ne_none_iff_exists'.mp hs
  obtain ⟨x₂, hx₂, hn₂⟩ := surface_eq_some.mp hs
  obtain ⟨y, hy, rfl⟩ := containedEntry_join.mp hl
  obtain ⟨y₂, hy₂, rfl⟩ := containedEntry_join.mp hx₂
  rw [List.dropLast_concat] at hd ⊢
  have hd₂ : fs₂.shape y₂ = some .dir := by
    have hdrop := shape_parent hn₂
    rwa [List.dropLast_concat] at hdrop
  have hcompat : Fs.Compat fs fs₂ := fun q s s' hs hs₂ => .inr (.inr (h.same hs hs₂))
  have heq : y = y₂ := containedTarget_compat hcompat hy hy₂ hd hd₂
  subst heq
  exact ⟨hx₂, target_shared (fun q s hs => Fs.shape_of_without hs) (fun q s s' => h.same) (fun q s => h.shared)
    hy hy₂ hd hd₂⟩

/-- Nothing is left at the old path. -/
theorem surface_src (h : MovedAway fs fs₂ e t nd) (hp : p ≠ .root) (he : containedEntry fs root p = .ok e)
    (hn : fs.node e = some nd) : surface fs₂ root p = none := by
  rcases VfsPath.root_or_join p with rfl | ⟨d, n, rfl⟩
  · exact absurd rfl hp
  · by_contra hs
    obtain ⟨he₂, -⟩ := h.entry_shared he (shape_parent hn) hs
    have hgone : fs₂.shape e = none := by
      rw [h.stays e nd.shape (by simp [Fs.shape, hn]), if_pos List.prefix_rfl]
    refine hs ?_
    unfold surface
    rw [he₂]
    exact Fs.shape_eq_none.mp hgone

/-- The new path leads to the entry unless its directory was reached through it. -/
theorem surface_dst (h : MovedAway fs fs₂ e t nd) (ht : containedEntry fs root (d.join n) = .ok t)
    (hd : fs.shape t.dropLast = some .dir) :
    surface fs₂ root (d.join n) = none ↔ containedTarget (fs.without e) root d ≠ .ok t.dropLast := by
  constructor
  · intro hs hdir
    obtain ⟨y, hy, rfl⟩ := containedEntry_join.mp ht
    rw [List.dropLast_concat] at hd hdir
    have hk : Fs.Keeps (fs.without e) fs₂ := Fs.keeps_of_sub fun q s => h.kept
    obtain ⟨r, hr, -⟩ := resolve_ok.mp hdir
    have hr₂ := Fs.canonicalize_of_sub (fun q s => h.kept) hr
    have hpre : ¬ e <+: y := fun hpre => h.outside (hpre.trans (List.prefix_append _ _))
    have hdir' : (fs.without e).shape y = some .dir := by rw [Fs.shape_without_of_not_prefix hpre, hd]
    have hy₂ := containedTarget_keeps hk hr hr₂ hdir (undisturbed_of_dir hk hdir')
    have hnode := h.arrives
    unfold surface at hs
    rw [containedEntry_join.mpr ⟨y, hy₂, rfl⟩] at hs
    rw [Fs.shape_eq_none.mpr hs] at hnode
    cases hnode
  · intro hne
    by_contra hs
    exact hne (h.entry_shared ht hd hs).2

end MovedAway

/-- **A rename to a new name**, on the tree before the move: it leaves nothing at its paths exactly when the
directory of the new name is reached only through the entry that moves. -/
theorem Op.leavesNothing_rename_iff {parent newparent : Nat} {name newname : Bytes} (hm : Mounted m root)
    (hp : m.childOf parent name = .ok p) (hq : m.childOf newparent newname = .ok (d.join n))
    (he : containedEntry m.host root p = .ok e) (ht : containedEntry m.host root (d.join n) = .ok t)
    (hdir : m.host.shape t.dropLast = some .dir) (hfresh : m.host.shape t = none)
    (hx : exec (WorkspaceWriter.rename root p (d.join n)) m.host = (.ok (), fs₂)) :
    (Op.rename parent name newparent newname).LeavesNothing root m ↔
      containedTarget (m.host.without e) root d ≠ .ok t.dropLast := by
  obtain ⟨nd, hren⟩ := renamed_there (hm.lexical hp) (hm.lexical hq) he ht hdir hx
  have hmoved := MovedAway.of_renamed hren hfresh
  have hroot : p ≠ .root := by
    obtain ⟨_, _, -, -, rfl⟩ := childOf_ok hp
    exact VfsPath.join_ne_root _ _
  rw [← hmoved.surface_dst ht hdir]
  constructor
  · intro h
    exact (h p (d.join n) fs₂ hp hq hx).2
  · intro hs p' q' fs' hp' hq' hx'
    rw [hp] at hp'
    rw [hq] at hq'
    cases hp'
    cases hq'
    rw [hx] at hx'
    cases hx'
    exact ⟨hmoved.surface_src hroot he hren.node, hs⟩

end Fresh

section Back

variable {fs₁ fs₂ fs₃ fs₄ : Fs} {s d : Posix.Path} {nd' : Posix.Node} {p' q' : VfsPath} {n n' : VfsName}

/-- A rename and the one that undoes it: `e` went to `t`, then `s` to `d`. -/
structure ThereAndBack (root : Posix.Path) (p q : VfsPath) (fs fs₁ fs₂ fs₃ fs₄ : Fs) (e t s d : Posix.Path)
    (nd nd' : Posix.Node) : Prop where
  there : Renamed root p q fs fs₁ fs₂ e t nd
  back : Renamed root q p fs₂ fs₃ fs₄ s d nd'
  source : containedEntry fs₂ root q = .ok s

namespace ThereAndBack

/-- What is moved back was there before the parents of its destination were made. -/
theorem node_source (h : ThereAndBack root p q fs fs₁ fs₂ fs₃ fs₄ e t s d nd nd') : fs₂.node s = some nd' := by
  rw [← h.back.frame s, h.back.node]
  rintro ⟨hpre, hne⟩
  rcases h.back.moved with ⟨heq, -⟩ | ⟨-, -, hno, -, -⟩
  · exact hne heq
  · rw [List.isPrefixOf_iff_prefix.mpr hpre] at hno
    cases hno

/-- Unless a link replaced a link, the destination's path still leads to the moved entry. -/
theorem source_eq (h : ThereAndBack root (p'.join n) (q'.join n') fs fs₁ fs₂ fs₃ fs₄ e t s d nd nd')
    (hl : nd.isSymlink = false ∨ ∀ x, fs₁.shape t ≠ some (.symlink x)) : s = t := by
  have hdst := grown_entry h.there.grown h.there.dst
  rcases h.there.moved with ⟨-, rfl⟩ | ⟨he, ht, hno, hrep, rfl⟩
  · have hs := h.source
    rw [hdst] at hs
    exact (Except.ok.inj hs).symm
  · have hk : Fs.Compat fs₁ (fs₁.moveEntry e t) := by
      refine h.there.compat he ht hno hrep (fun _ _ => rfl) fun x y hx hy => ?_
      rcases hl with hl | hl
      · cases nd <;> simp_all [Posix.Node.shape, Posix.Node.isSymlink]
      · exact absurd hx (hl x)
    exact (containedEntry_compat hk hdst h.source h.there.dir (shape_parent h.node_source)).symm

/-- Directories that were made for the destination stay. -/
theorem parent_stays (h : ThereAndBack root (p'.join n) (q'.join n') fs fs₁ fs₂ fs₃ fs₄ e t s d nd nd')
    (hmiss : fs.shape t.dropLast = none) : fs₄.shape t.dropLast ≠ none := by
  have hfs : fs.shape t = none := by
    by_contra hne
    rw [Fs.shape_dropLast hne] at hmiss
    cases hmiss
  have hvacant : fs₁.shape t = none := by
    rw [Fs.shape_eq_none, h.there.frame t (by simp), ← Fs.shape_eq_none]
    exact hfs
  have hs : s = t := h.source_eq (.inr (by simp [hvacant]))
  subst hs
  rcases h.there.moved with ⟨rfl, -⟩ | ⟨he, ht, hno, -, rfl⟩
  · have hnode := h.there.node
    rw [Fs.shape_eq_none.mp hvacant] at hnode
    cases hnode
  · have hshort : ¬ s <+: s.dropLast := fun hpre => ((prefix_dropLast ht).mp hpre).2 rfl
    have hmoved : (fs₁.moveEntry e s).shape s.dropLast = some .dir := by
      rw [Fs.shape_moveEntry he ht hno (Fs.shape_eq_dir.mp h.there.dir), if_neg, if_neg, h.there.dir]
      · intro hpre
        have hle := (List.isPrefixOf_iff_prefix.mp hpre).trans (List.dropLast_prefix s)
        rw [List.isPrefixOf_iff_prefix.mpr hle] at hno
        cases hno
      · exact fun hpre => hshort (List.isPrefixOf_iff_prefix.mp hpre)
    have hgrown : fs₃.shape s.dropLast = some .dir := by
      rw [h.back.grown, if_neg (by simp [hmoved]), hmoved]
    rcases h.back.moved with ⟨-, rfl⟩ | ⟨hs0, hd0, hno', hrep', rfl⟩
    · simp [hgrown]
    · rw [Fs.shape_moveEntry hs0 hd0 hno' (Fs.shape_eq_dir.mp h.back.dir), if_neg, if_neg, hgrown]
      · simp
      · exact fun hpre => hshort (List.isPrefixOf_iff_prefix.mp hpre)
      · intro hpre
        exact h.back.not_below hrep' hno'
          ((List.isPrefixOf_iff_prefix.mp hpre).trans (List.dropLast_prefix s))

/-- When the shapes are as before, the entry that was moved back is not the one it went to. -/
theorem moved_back (h : ThereAndBack root p q fs fs fs₂ fs₃ fs₄ e t s d nd nd')
    (hsame : ∀ r, fs₄.shape r = fs.shape r) (hne : e ≠ t) : s ≠ d := by
  rintro rfl
  rcases h.there.moved with ⟨heq, -⟩ | ⟨he, ht, hno, hrep, rfl⟩
  · exact hne heq
  · have hgone : (fs.moveEntry e t).shape e = none := by
      rw [Fs.shape_moveEntry he ht hno (Fs.shape_eq_dir.mp h.there.dir), if_neg, if_pos]
      · exact List.isPrefixOf_iff_prefix.mpr List.prefix_rfl
      · exact fun hpre => h.there.not_below hrep hno (List.isPrefixOf_iff_prefix.mp hpre)
    have hstill : fs₃.shape e ≠ none := by
      rcases h.back.moved with ⟨-, rfl⟩ | ⟨-, -, hno', -, -⟩
      · rw [hsame, ne_eq, Fs.shape_eq_none, h.there.node]
        simp
      · rw [List.isPrefixOf_iff_prefix.mpr List.prefix_rfl] at hno'
        cases hno'
    -- `e` would be a directory made above `s`, but what is above `s` was there.
    rw [h.back.grown] at hstill
    split at hstill
    · rename_i hpre
      obtain ⟨x, hx⟩ := hpre.1
      have hdir := shape_parent h.node_source
      rw [← hx] at hdir
      by_cases hx0 : x = []
      · rw [hx0, List.append_nil, hgone] at hdir
        cases hdir
      · rw [Fs.shape_dir_of_append (by rw [hdir]; simp) hx0] at hgone
        cases hgone
    · exact hstill hgone

/-- Then it is the entry that came, and its place was vacant. -/
theorem vacant (h : ThereAndBack root (p'.join n) (q'.join n') fs fs fs₂ fs₃ fs₄ e t s d nd nd')
    (hsame : ∀ r, fs₄.shape r = fs.shape r) (hne : e ≠ t) : s = t ∧ fs.shape t = none := by
  have hsd := h.moved_back hsame hne
  rcases h.there.moved with ⟨heq, -⟩ | ⟨he, ht, hno, hrep, rfl⟩
  · exact absurd heq hne
  rcases h.back.moved with ⟨heq, -⟩ | ⟨hs0, hd0, hno', hrep', rfl⟩
  · exact absurd heq hsd
  have hfs₂ : ∀ r, (fs.moveEntry e t).shape r = if t.isPrefixOf r then fs.shape (e ++ r.drop t.length)
      else if e.isPrefixOf r then none else fs.shape r :=
    fun r => Fs.shape_moveEntry he ht hno (Fs.shape_eq_dir.mp h.there.dir)
  -- What was moved back is gone from where it was, so nothing was there before either.
  have hbefore : fs.shape s = none := by
    rw [← hsame, Fs.shape_moveEntry hs0 hd0 hno' (Fs.shape_eq_dir.mp h.back.dir), if_neg, if_pos]
    · exact List.isPrefixOf_iff_prefix.mpr List.prefix_rfl
    · exact fun hpre => h.back.not_below hrep' hno' (List.isPrefixOf_iff_prefix.mp hpre)
  have hsome : (fs.moveEntry e t).shape s ≠ none := by
    rw [ne_eq, Fs.shape_eq_none, h.node_source]
    simp
  -- It came with the first move.
  obtain ⟨x, rfl⟩ : t <+: s := by
    rw [hfs₂] at hsome
    split at hsome
    · rename_i hpre
      exact List.isPrefixOf_iff_prefix.mp hpre
    · split at hsome
      · exact absurd rfl hsome
      · exact absurd hbefore hsome
  by_cases hx : x = []
  · subst hx
    rw [List.append_nil] at hbefore
    exact ⟨List.append_nil t, hbefore⟩
  · -- Below a link there is nothing, and otherwise the path leads to `t` itself.
    have hdir : (fs.moveEntry e t).shape t = some .dir := Fs.shape_dir_of_append hsome hx
    rw [hfs₂, if_pos (List.isPrefixOf_iff_prefix.mpr List.prefix_rfl), List.drop_length, List.append_nil,
      Fs.shape, h.there.node, Option.map_some, Option.some.injEq] at hdir
    have hl : nd.isSymlink = false := by
      cases nd <;> simp_all [Posix.Node.shape, Posix.Node.isSymlink]
    have hst := h.source_eq (.inl hl)
    exact absurd (List.append_right_eq_self.mp hst) hx

/-- And it is back where it came from. -/
theorem home (h : ThereAndBack root (p'.join n) (q'.join n') fs fs fs₂ fs₃ fs₄ e t s d nd nd')
    (hsame : ∀ r, fs₄.shape r = fs.shape r) (hne : e ≠ t) : d = e := by
  have hsd := h.moved_back hsame hne
  obtain ⟨rfl, hvacant⟩ := h.vacant hsame hne
  rcases h.there.moved with ⟨heq, -⟩ | ⟨he, ht, hno, hrep, rfl⟩
  · exact absurd heq hne
  rcases h.back.moved with ⟨heq, -⟩ | ⟨hs0, hd0, hno', hrep', rfl⟩
  · exact absurd heq hsd
  have hfs₂ : ∀ r, (fs.moveEntry e s).shape r = if s.isPrefixOf r then fs.shape (e ++ r.drop s.length)
      else if e.isPrefixOf r then none else fs.shape r :=
    fun r => Fs.shape_moveEntry he ht hno (Fs.shape_eq_dir.mp h.there.dir)
  have hfs₄ : ∀ r, (fs₃.moveEntry s d).shape r = if d.isPrefixOf r then fs₃.shape (s ++ r.drop d.length)
      else if s.isPrefixOf r then none else fs₃.shape r :=
    fun r => Fs.shape_moveEntry hs0 hd0 hno' (Fs.shape_eq_dir.mp h.back.dir)
  -- What is at `d` afterwards is what was at `e` before, level by level.
  have hcopy : ∀ x, fs.shape (d ++ x) = fs.shape (e ++ x) := by
    intro x
    have hgrown : fs₃.shape (s ++ x) = (fs.moveEntry e s).shape (s ++ x) := by
      rw [h.back.grown, if_neg]
      rintro ⟨hpre, -⟩
      have hle : s <+: d := ((List.prefix_append s x).trans hpre).trans (List.dropLast_prefix d)
      rw [List.isPrefixOf_iff_prefix.mpr hle] at hno'
      cases hno'
    rw [← hsame, hfs₄, if_pos (List.isPrefixOf_iff_prefix.mpr (List.prefix_append d x)), List.drop_left, hgrown,
      hfs₂, if_pos (List.isPrefixOf_iff_prefix.mpr (List.prefix_append s x)), List.drop_left]
  have hsome : fs.shape e ≠ none := by
    rw [ne_eq, Fs.shape_eq_none, h.there.node]
    simp
  have hbelow : ¬ s <+: e := h.there.not_below hrep hno
  by_cases hde : d <+: e
  · obtain ⟨x, rfl⟩ := hde
    by_contra hx
    have hx0 : x ≠ [] := by
      rintro rfl
      exact hx (List.append_nil d).symm
    have hnone := Fs.shape_none_of_copy hx0 fun y => (hcopy y).symm
    rw [Fs.shape_dir_of_append hsome hx0] at hnone
    cases hnone
  · -- `e` is one of the directories made above `d`.
    have hafter : fs₃.shape e ≠ none := by
      have hat := hsame e
      rw [hfs₄, if_neg fun hpre => hde (List.isPrefixOf_iff_prefix.mp hpre),
        if_neg fun hpre => hbelow (List.isPrefixOf_iff_prefix.mp hpre)] at hat
      rw [hat]
      exact hsome
    have hgone : (fs.moveEntry e s).shape e = none := by
      rw [hfs₂, if_neg fun hpre => hbelow (List.isPrefixOf_iff_prefix.mp hpre),
        if_pos (List.isPrefixOf_iff_prefix.mpr List.prefix_rfl)]
    rw [h.back.grown] at hafter
    split at hafter
    · rename_i hpre
      obtain ⟨x, rfl⟩ := hpre.1.trans (List.dropLast_prefix d)
      have hx0 : x ≠ [] := by
        rintro rfl
        exact hde (by rw [List.append_nil])
      exact absurd (Fs.shape_none_of_copy hx0 hcopy) hsome
    · exact absurd hgone hafter

end ThereAndBack

/-- An entry that is moved to a vacant place and back. -/
theorem attr_there_and_back (he : e ≠ []) (ht : t ≠ []) (hno : e.isPrefixOf t = false) (hno' : t.isPrefixOf e = false)
    (hd : fs.isDir t.dropLast = true) (hd' : (fs.moveEntry e t).isDir e.dropLast = true)
    (hvacant : fs.shape t = none) (r : Posix.Path) : ((fs.moveEntry e t).moveEntry t e).attr r = fs.attr r := by
  rw [Fs.attr_moveEntry ht he hno' hd']
  split
  · rename_i hpre
    obtain ⟨x, rfl⟩ := List.isPrefixOf_iff_prefix.mp hpre
    rw [List.drop_left, Fs.attr_moveEntry he ht hno hd,
      if_pos (List.isPrefixOf_iff_prefix.mpr (List.prefix_append t x)), List.drop_left]
  · rename_i hpre
    split
    · rename_i hpre'
      obtain ⟨x, rfl⟩ := List.isPrefixOf_iff_prefix.mp hpre'
      rw [eq_comm, Fs.attr_eq_none, Fs.shape_eq_none]
      exact Fs.node_none_append (Fs.shape_eq_none.mp hvacant)
    · rename_i hpre'
      rw [Fs.attr_moveEntry he ht hno hd, if_neg hpre', if_neg hpre]

/-- **A rename and its reverse** leave the surface as it was exactly when the two paths name one entry, or
the destination was vacant and the source's path does not lead through the moved entry. -/
theorem reverse_restores_iff (hp : WorkspaceWriter.checkLexical root (p'.join n) = .ok ())
    (hq : WorkspaceWriter.checkLexical root (q'.join n') = .ok ())
    (he : containedEntry fs root (p'.join n) = .ok e) (ht : containedEntry fs root (q'.join n') = .ok t)
    (hd : fs.shape t.dropLast = some .dir)
    (hx : exec (WorkspaceWriter.rename root (p'.join n) (q'.join n')) fs = (.ok (), fs₂))
    (hback : exec (WorkspaceWriter.rename root (q'.join n') (p'.join n)) fs₂ = (.ok (), fs₄)) :
    (∀ r, fs₄.attr r = fs.attr r) ↔
      e = t ∨ fs.shape t = none ∧ containedEntry (fs.moveEntry e t) root (p'.join n) = .ok e := by
  obtain ⟨nd, hren⟩ := renamed_there hp hq he ht hd hx
  obtain ⟨fs₃, s, d, nd', hren', hs⟩ := renamed_of_rename hback
  have h : ThereAndBack root (p'.join n) (q'.join n') fs fs fs₂ fs₃ fs₄ e t s d nd nd' := ⟨hren, hren', hs⟩
  by_cases hne : e = t
  · subst hne
    refine iff_of_true (fun r => ?_) (.inl rfl)
    rcases hren.moved with ⟨-, rfl⟩ | ⟨-, -, hno, -, -⟩
    · obtain ⟨nd'', hren''⟩ := renamed_there hq hp ht he hd hback
      rcases hren''.moved with ⟨-, rfl⟩ | ⟨-, -, hno, -, -⟩
      · rfl
      · rw [List.isPrefixOf_iff_prefix.mpr List.prefix_rfl] at hno
        cases hno
    · rw [List.isPrefixOf_iff_prefix.mpr List.prefix_rfl] at hno
      cases hno
  · rcases hren.moved with ⟨heq, -⟩ | ⟨he0, ht0, hno, hrep, rfl⟩
    · exact absurd heq hne
    constructor
    · intro hsame
      have hshape : ∀ r, fs₄.shape r = fs.shape r := by
        intro r
        rw [Fs.shape_eq_attr, Fs.shape_eq_attr, hsame]
      obtain ⟨-, hvacant⟩ := h.vacant hshape hne
      obtain rfl := h.home hshape hne
      exact .inr ⟨hvacant, hren'.dst⟩
    · rintro (heq | ⟨hvacant, hhome⟩)
      · exact absurd heq hne
      · obtain rfl := h.source_eq (.inr (by simp [hvacant]))
        have hbelow : ¬ s <+: e := hren.not_below hrep hno
        have hdir : (fs.moveEntry e s).shape e.dropLast = some .dir := by
          rw [Fs.shape_moveEntry he0 ht0 hno (Fs.shape_eq_dir.mp hd), if_neg, if_neg, shape_parent hren.node]
          · exact fun hpre => ((prefix_dropLast he0).mp (List.isPrefixOf_iff_prefix.mp hpre)).2 rfl
          · exact fun hpre => hbelow ((List.isPrefixOf_iff_prefix.mp hpre).trans (List.dropLast_prefix e))
        obtain ⟨nd'', hren''⟩ := renamed_there hq hp hs hhome hdir hback
        rcases hren''.moved with ⟨heq, -⟩ | ⟨-, -, hno', -, rfl⟩
        · exact absurd heq.symm hne
        · exact attr_there_and_back he0 ht0 hno hno' (Fs.shape_eq_dir.mp hd) (Fs.shape_eq_dir.mp hdir) hvacant

end Back

theorem pendingDirs_movePending (x : VfsPath) : (m.movePending p q).pendingDirs x =
    if m.pendingDirs p then decide (x = q) || (decide (x ≠ p) && m.pendingDirs x) else m.pendingDirs x := by
  unfold KinFuseFs.movePending
  split <;> rfl

/-- The pending set survives the two moves unless the destination was in it. -/
theorem movePending_back {m₁ m₂ : KinFuseFs} (h₁ : m₁.pendingDirs = m.pendingDirs)
    (h₂ : m₂.pendingDirs = (m₁.movePending p q).pendingDirs) :
    (m₂.movePending q p).pendingDirs = m.pendingDirs ↔ p = q ∨ m.pendingDirs q = false := by
  have hmid : ∀ x, m₂.pendingDirs x =
      if m.pendingDirs p then decide (x = q) || (decide (x ≠ p) && m.pendingDirs x) else m.pendingDirs x := by
    intro x
    rw [h₂, pendingDirs_movePending, h₁]
  have hend : ∀ x, (m₂.movePending q p).pendingDirs x =
      if m₂.pendingDirs q then decide (x = p) || (decide (x ≠ q) && m₂.pendingDirs x) else m₂.pendingDirs x :=
    fun x => pendingDirs_movePending x
  constructor
  · intro h
    by_contra hno
    rw [not_or] at hno
    obtain ⟨hne, hq⟩ := hno
    rw [Bool.not_eq_false] at hq
    have hmidq : m₂.pendingDirs q = true := by
      rw [hmid]
      split <;> simp [hq]
    cases hp : m.pendingDirs p with
    | true =>
      have hat := congrFun h q
      rw [hend, hmidq, hq] at hat
      simp [Ne.symm hne] at hat
    | false =>
      have hat := congrFun h p
      rw [hend, hmidq, hp] at hat
      simp at hat
  · intro h
    funext x
    rw [hend, hmid q, hmid x]
    rcases h with rfl | hq
    · cases hp : m.pendingDirs p with
      | true =>
        by_cases hx : x = p
        · simp [hx, hp]
        · simp [hx]
      | false => simp
    · cases hp : m.pendingDirs p with
      | true =>
        by_cases hx : x = p
        · simp [hx, hp]
        · by_cases hxq : x = q
          · have hqp : q ≠ p := fun h0 => hx (hxq.trans h0)
            simp [hxq, hq, hqp]
          · simp [hx, hxq]
      | false => simp [hq]

/-- The reverse of the rename is exact. Where both paths resolve, the destination's directory is on the
surface; and where the host moves the entry, the destination is not pending unless it is the source, it has
no entry unless that is the source's own, and the source's path does not lead through the moved entry. -/
def MovesBack (root : Posix.Path) (p q : VfsPath) (m : KinFuseFs) : Prop :=
  ∀ e t, containedEntry m.host root p = .ok e → containedEntry m.host root q = .ok t →
    m.host.shape t.dropLast ≠ none ∧
      ((exec (Posix.rename e t) m.host).1 = .ok () →
        (p = q ∨ m.pendingDirs q = false) ∧
        (e = t ∨ m.host.shape t = none ∧ containedEntry (m.host.moveEntry e t) root p = .ok e))

/-- A destination whose directory is a file. -/
theorem rename_to_blocked {d : Posix.Path} {n c : Bytes} (hf : fs.shape d = some (.file c)) :
    (exec (Posix.rename e (d ++ [n])) fs).1 ≠ .ok () := by
  simp only [Posix.rename, exec_bind, exec_ofExcept]
  cases fs.locate e <;> simp [Fs.locate_blocked hf]

/-- A refused rename of the host changes nothing. -/
theorem rename_host_error {k : Posix.ErrorKind} (hx : exec (Posix.rename e t) fs = (.error k, fs')) : fs' = fs := by
  simp only [Posix.rename, exec_bind, exec_ofExcept, exec_get] at hx
  cases hle : fs.locate e with
  | error k' =>
    rw [hle] at hx
    cases hx
    rfl
  | ok src =>
    rw [hle] at hx
    dsimp only at hx
    cases hlt : fs.locate t with
    | error k' =>
      rw [hlt] at hx
      cases hx
      rfl
    | ok dst =>
      rw [hlt] at hx
      dsimp only at hx
      cases hn : fs.node src with
      | none =>
        rw [hn] at hx
        cases hx
        rfl
      | some nd =>
        rw [hn] at hx
        dsimp only at hx
        split at hx
        · cases hx
        · split at hx
          · cases hx
            rfl
          · split at hx
            · cases hx
              rfl
            · rw [exec_bind, exec_ofExcept] at hx
              cases hrep : Posix.replaceable fs nd dst with
              | error k' =>
                rw [hrep] at hx
                cases hx
                rfl
              | ok u =>
                rw [hrep] at hx
                cases hx

/-- A rename the host refuses. -/
theorem rename_error_unchanged_iff {err : VfsError} (hp : WorkspaceWriter.checkLexical root p = .ok ())
    (hq : WorkspaceWriter.checkLexical root q = .ok ())
    (hx : exec (WorkspaceWriter.rename root p q) m.host = (.error err, fs)) :
    (∀ r, fs.attr r = m.host.attr r) ↔ MovesBack root p q m := by
  cases he : containedEntry m.host root p with
  | error err' =>
    simp only [WorkspaceWriter.rename, exec_bind, exec_ofExcept, WorkspaceWriter.entryPath_of_lexical hp, he] at hx
    cases hx
    refine iff_of_true (fun _ => rfl) fun e t he' => ?_
    rw [he] at he'
    cases he'
  | ok e =>
    cases ht : containedEntry m.host root q with
    | error err' =>
      simp only [WorkspaceWriter.rename, exec_bind, exec_ofExcept, WorkspaceWriter.entryPath_of_lexical hp,
        WorkspaceWriter.entryPath_of_lexical hq, he, ht] at hx
      cases hx
      refine iff_of_true (fun _ => rfl) fun e t _ ht' => ?_
      rw [ht] at ht'
      cases ht'
    | ok t =>
      have hback : MovesBack root p q m ↔ m.host.shape t.dropLast ≠ none ∧
          ((exec (Posix.rename e t) m.host).1 = .ok () → (p = q ∨ m.pendingDirs q = false) ∧
            (e = t ∨ m.host.shape t = none ∧ containedEntry (m.host.moveEntry e t) root p = .ok e)) := by
        simp [MovesBack, he, ht]
      rw [hback]
      have hrun : exec (WorkspaceWriter.rename root p q) m.host =
          exec (createParent t >>= fun _ => io (Posix.rename e t)) m.host := by
        simp only [WorkspaceWriter.rename, exec_bind, exec_ofExcept, WorkspaceWriter.entryPath_of_lexical hp,
          WorkspaceWriter.entryPath_of_lexical hq, he, ht]
      rcases createParent_entry ht with ⟨fs₁, hx₁, hg, hd, -⟩ | hx₁
      · rw [hrun, exec_bind, hx₁] at hx
        dsimp only at hx
        have hfs : fs = fs₁ := by
          rw [exec_io] at hx
          rcases hmove : exec (Posix.rename e t) fs₁ with ⟨k | u, fs₂⟩
          · rw [hmove] at hx
            cases hx
            exact rename_host_error hmove
          · rw [hmove] at hx
            cases hx
        subst hfs
        by_cases hnone : m.host.shape t.dropLast = none
        · refine iff_of_false (fun h => ?_) fun h => h.1 hnone
          rw [Fs.shape_eq_attr, h, ← Fs.shape_eq_attr, hnone] at hd
          cases hd
        · have hthere : m.host.shape t.dropLast = some .dir := by
            rw [hg, if_neg fun h => hnone h.2] at hd
            exact hd
          rw [createParent_there hthere] at hx₁
          cases hx₁
          refine iff_of_true (fun _ => rfl) ⟨hnone, fun hok => ?_⟩
          rw [exec_io] at hx
          rcases hmove : exec (Posix.rename e t) m.host with ⟨k | u, fs₂⟩
          · rw [hmove] at hok
            cases hok
          · rw [hmove] at hx
            cases hx
      · -- A file is in the place of the destination's directory.
        rw [hrun, exec_bind, hx₁] at hx
        cases hx
        rcases entry_cases ht with hc | ⟨d, n, c, rfl, hf⟩
        · exfalso
          by_cases ht0 : t = []
          · subst ht0
            simp [createParent] at hx₁
          · obtain ⟨fs₁, hx₂, -, -⟩ := Posix.createDirAll_clear hc.dropLast hc.parent
            simp [createParent, ht0, hx₂] at hx₁
        · refine iff_of_true (fun _ => rfl) ⟨?_, fun hok => absurd hok (rename_to_blocked hf)⟩
          rw [List.dropLast_concat, hf]
          simp

theorem rename_unchanged_iff {parent newparent : Nat} {name newname : Bytes} {errno : Errno} (hm : Mounted m root)
    (hp : m.childOf parent name = .ok p) (hq : m.childOf newparent newname = .ok q)
    (hx : exec (rename sha256 answers parent name newparent newname) m = (.error errno, m'))
    (hback : ∀ fs, exec (WorkspaceWriter.rename root p q) m.host = (.ok (), fs) →
      (exec (WorkspaceWriter.rename root q p) fs).1 = .ok ()) :
    Unchanged m m' ↔ MovesBack root p q m := by
  have hlp := hm.lexical hp
  have hlq := hm.lexical hq
  rw [exec_rename hm hp hq] at hx
  rcases hmove : exec (WorkspaceWriter.rename root p q) m.host with ⟨err | u, fs⟩
  · rw [hmove] at hx
    cases hx
    rw [← rename_error_unchanged_iff hlp hlq hmove]
    exact ⟨fun h => h.surface, fun h => ⟨h, rfl⟩⟩
  · rw [hmove] at hx
    dsimp only at hx
    cases htaken : takenBoth sha256 answers root p q fs with
    | ok u =>
      rw [htaken] at hx
      cases hx
    | error errno' =>
      rw [htaken] at hx
      cases hx
      have hback := hback fs hmove
      rcases hrev : exec (WorkspaceWriter.rename root q p) fs with ⟨err | u, fs'⟩
      · rw [hrev] at hback
        cases hback
      · have hfinal : (exec (moveEntry root q p) ({ m with host := fs }.movePending p q)).2 =
            ({ ({ m with host := fs } : KinFuseFs).movePending p q with host := fs' } : KinFuseFs).movePending
              q p := by
          rw [exec_moveEntry, host_movePending, hrev]
        rw [hfinal]
        obtain ⟨fs₁, e, t, nd, hren, he⟩ := renamed_of_rename hmove
        obtain ⟨p', n, -, -, rfl⟩ := childOf_ok hp
        obtain ⟨q', n', -, -, rfl⟩ := childOf_ok hq
        have hback : MovesBack root (p'.join n) (q'.join n') m ↔ m.host.shape t.dropLast ≠ none ∧
            ((exec (Posix.rename e t) m.host).1 = .ok () → (p'.join n = q'.join n' ∨
              m.pendingDirs (q'.join n') = false) ∧
              (e = t ∨ m.host.shape t = none ∧
                containedEntry (m.host.moveEntry e t) root (p'.join n) = .ok e)) := by
          simp [MovesBack, he, hren.dst]
        rw [hback]
        by_cases hnone : m.host.shape t.dropLast = none
        · refine iff_of_false (fun h => ?_) fun h => h.1 hnone
          obtain ⟨fs₃, s, d, nd', hren', hs⟩ := renamed_of_rename hrev
          have hstay := ThereAndBack.parent_stays ⟨hren, hren', hs⟩ hnone
          have hsame := h.surface t.dropLast
          rw [host_movePending] at hsame
          rw [Fs.shape_eq_attr, hsame, ← Fs.shape_eq_attr] at hstay
          exact hstay hnone
        · have hthere : m.host.shape t.dropLast = some .dir := by
            have hd := hren.dir
            rw [hren.grown, if_neg fun h => hnone h.2] at hd
            exact hd
          have hok : (exec (Posix.rename e t) m.host).1 = .ok () := by
            rw [rename_there hlp hlq he hren.dst hthere, exec_io_ok] at hmove
            rw [hmove]
          have hpend : (({ ({ m with host := fs } : KinFuseFs).movePending (p'.join n) (q'.join n') with
              host := fs' } : KinFuseFs).movePending (q'.join n') (p'.join n)).pendingDirs = m.pendingDirs ↔
              p'.join n = q'.join n' ∨ m.pendingDirs (q'.join n') = false :=
            movePending_back (show ({ m with host := fs } : KinFuseFs).pendingDirs = m.pendingDirs from rfl) rfl
          have hsurf := reverse_restores_iff hlp hlq he hren.dst hthere hmove hrev
          constructor
          · intro h
            refine ⟨hnone, fun _ => ⟨hpend.mp h.pending, hsurf.mp fun r => ?_⟩⟩
            have hr := h.surface r
            rwa [host_movePending] at hr
          · rintro ⟨-, h⟩
            obtain ⟨h₁, h₂⟩ := h hok
            refine ⟨fun r => ?_, hpend.mpr h₁⟩
            rw [host_movePending]
            exact hsurf.mpr h₂ r

/-! ## Refused changes -/

/-- The changes that are undone when the graph does not take them. -/
inductive Undoable where
  | unlink (parent : Nat) (name : Bytes)
  | rename (parent : Nat) (name : Bytes) (newparent : Nat) (newname : Bytes)

namespace Undoable

def perform (sha256 : Bytes → Hash256) (answers : Answers) : Undoable → MountM Unit
  | .unlink parent name => Fuse.unlink sha256 answers parent name
  | .rename parent name newparent newname => Fuse.rename sha256 answers parent name newparent newname

/-- The host calls of the undoing succeed. -/
def UndoSucceeds (answers : Answers) (root : Posix.Path) (m : KinFuseFs) : Undoable → Prop
  | .unlink parent name => ∀ p fs, m.childOf parent name = .ok p →
      exec (WorkspaceWriter.removeFile root p) m.host = (.ok (), fs) →
      (exec (putBack root p answers.restorable) { m with host := fs }).1 = .ok ()
  | .rename parent name newparent newname => ∀ p q fs, m.childOf parent name = .ok p →
      m.childOf newparent newname = .ok q → exec (WorkspaceWriter.rename root p q) m.host = (.ok (), fs) →
      (exec (WorkspaceWriter.rename root q p) fs).1 = .ok ()

/-- The undoing is exact. -/
def Exact (answers : Answers) (root : Posix.Path) (m : KinFuseFs) : Undoable → Prop
  | .unlink parent name => ∀ p, m.childOf parent name = .ok p →
      Restores answers m.umask (surface m.host root p)
  | .rename parent name newparent newname => ∀ p q, m.childOf parent name = .ok p →
      m.childOf newparent newname = .ok q → MovesBack root p q m

end Undoable

/-- **What a refused change leaves.** The surface and the pending set are as before exactly when the graph's
copy is what was projected, respectively the reverse rename is exact. -/
theorem refused_unchanged_iff {op : Undoable} {errno : Errno} (hm : Mounted m root)
    (hx : exec (op.perform sha256 answers) m = (.error errno, m')) (hback : op.UndoSucceeds answers root m) :
    Unchanged m m' ↔ op.Exact answers root m := by
  cases op with
  | unlink parent name =>
    cases hp : m.childOf parent name with
    | ok p =>
      rw [unlink_unchanged_iff hm hp hx fun fs h => hback p fs hp h]
      simp [Undoable.Exact, hp]
    | error errno' =>
      simp only [Undoable.perform, unlink, exec_bind, exec_getWriter hm.writer, exec_ofExcept, hp] at hx
      cases hx
      refine iff_of_true ⟨fun _ => rfl, rfl⟩ fun p hp' => ?_
      rw [hp] at hp'
      cases hp'
  | rename parent name newparent newname =>
    cases hp : m.childOf parent name with
    | ok p =>
      cases hq : m.childOf newparent newname with
      | ok q =>
        rw [rename_unchanged_iff hm hp hq hx fun fs h => hback p q fs hp hq h]
        simp [Undoable.Exact, hp, hq]
      | error errno' =>
        simp only [Undoable.perform, rename, exec_bind, exec_getWriter hm.writer, exec_ofExcept, hp, hq] at hx
        cases hx
        refine iff_of_true ⟨fun _ => rfl, rfl⟩ fun p q _ hq' => ?_
        rw [hq] at hq'
        cases hq'
    | error errno' =>
      simp only [Undoable.perform, rename, exec_bind, exec_getWriter hm.writer, exec_ofExcept, hp] at hx
      cases hx
      refine iff_of_true ⟨fun _ => rfl, rfl⟩ fun p q hp' => ?_
      rw [hp] at hp'
      cases hp'

namespace Sample

/-- `a` and `b` are checked out. -/
def twoFiles : KinFuseFs :=
  { checkedOut with host := checkedOut.host.addEntry [[119], [98]] (.file ⟨0o644, 0⟩ [2]) }

/-- The graph keeps answering as before, and has the bytes of the projection. -/
def unimpressed : Answers where
  stat := .ok (.regularFile 1 (.replicate 32 0) false 0)
  readFile := .ok [1]
  polls := []
  attr := .ok (.regularFile 1 (.replicate 32 0) false 0)

/-- Removal of `a`. -/
def removal : Undoable := .unlink 1 [97]

/-- Rename of `a` to `b`. -/
def replacement : Undoable := .rename 1 [97] 1 [98]

end Sample

theorem refused_unchanged_iff_removal :
    ∃ m', exec (Sample.removal.perform (fun _ => Vector.replicate 32 0) Sample.unimpressed) Sample.checkedOut =
        (.error .io, m') ∧ Unchanged Sample.checkedOut m' := by
  have hrun : (exec (Sample.removal.perform (fun _ => Vector.replicate 32 0) Sample.unimpressed)
      Sample.checkedOut).1 = .error .io := by decide +kernel
  have hpath : Sample.checkedOut.childOf 1 [97] = .ok Sample.file := rfl
  refine ⟨(exec (Sample.removal.perform (fun _ => Vector.replicate 32 0) Sample.unimpressed)
    Sample.checkedOut).2, Prod.ext hrun rfl, ?_⟩
  refine (refused_unchanged_iff Sample.checkedOut_mounted (Prod.ext hrun rfl) ?_).mpr ?_
  · intro p fs hp hx
    rw [hpath] at hp
    cases hp
    obtain rfl : (exec (WorkspaceWriter.removeFile [[119]] Sample.file) Sample.checkedOut.host).2 = fs := by
      rw [hx]
    decide +kernel
  · intro p hp
    rw [hpath] at hp
    cases hp
    have hs : surface Sample.checkedOut.host [[119]] Sample.file = some (.file ⟨0o644, 0⟩ [1]) := by
      decide +kernel
    rw [hs]
    exact ⟨0o644, rfl, by decide⟩

/-- The graph takes no part of `rename("a", "b")`: `a` is moved back, and the file `b` that it replaced is
gone. -/
theorem replaced_file_lost :
    ∃ m', exec (Sample.replacement.perform (fun _ => Vector.replicate 32 0) Sample.unimpressed) Sample.twoFiles =
        (.error .io, m') ∧
      Sample.replacement.UndoSucceeds Sample.unimpressed [[119]] Sample.twoFiles ∧
      Sample.twoFiles.host.attr [[119], [98]] = some (.file [2], 0o644) ∧
      m'.host.attr [[119], [98]] = none ∧ ¬ Unchanged Sample.twoFiles m' := by
  have hrun : (exec (Sample.replacement.perform (fun _ => Vector.replicate 32 0) Sample.unimpressed)
      Sample.twoFiles).1 = .error .io := by decide +kernel
  have hbefore : Sample.twoFiles.host.attr [[119], [98]] = some (.file [2], 0o644) := by decide +kernel
  have hafter : (exec (Sample.replacement.perform (fun _ => Vector.replicate 32 0) Sample.unimpressed)
      Sample.twoFiles).2.host.attr [[119], [98]] = none := by decide +kernel
  have hsrc : Sample.twoFiles.childOf 1 [97] = .ok Sample.file := rfl
  have hdst : Sample.twoFiles.childOf 1 [98] = .ok Sample.moved := rfl
  refine ⟨(exec (Sample.replacement.perform (fun _ => Vector.replicate 32 0) Sample.unimpressed)
    Sample.twoFiles).2, Prod.ext hrun rfl, ?_, hbefore, hafter, fun h => ?_⟩
  · intro p q fs hp hq hx
    rw [hsrc] at hp
    rw [hdst] at hq
    cases hp
    cases hq
    obtain rfl : (exec (WorkspaceWriter.rename [[119]] Sample.file Sample.moved) Sample.twoFiles.host).2 = fs := by
      rw [hx]
    decide +kernel
  · have hsame := h.surface [[119], [98]]
    rw [hbefore, hafter] at hsame
    cases hsame

end KinVfs.Fuse
