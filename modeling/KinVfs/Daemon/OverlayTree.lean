import KinVfs.Lib.Runs
import KinVfs.Daemon.OverlaySpec
import KinVfs.Daemon.TreeSpec
import KinVfs.Daemon.RenameSpec
import KinVfs.Daemon.ReadYourWrites

/-!
# When the mount shows a tree

Each successful call records the paths it names and nothing else. `Fits` is what the staging map
has to keep for the merged view to be a tree: a staged path has the graph's type where the graph
has one, no graph directory is staged as removed, and the parent of a staged path is shown as a
directory. `keepsTree` is the condition on one call under which it is kept; `write_at` below a
missing directory, which creates the parents without recording them, does not meet it.
-/

namespace KinVfs

open Posix (Fs)
open Fallible KinDaemonWriter

/-- What the mount shows at `p`, from the graph and the staging map. -/
def shownKind (graph : ContentProvider) (st : Staging) (p : VfsPath) : Option FileType :=
  match st.staged p with
  | some (.present stat) => some stat.fileType
  | some .removed => none
  | none => graph.kind p

/-- The staging map agrees with the graph and with itself. -/
structure Fits (graph : ContentProvider) (st : Staging) : Prop where
  agrees : ∀ p stat, st.staged p = some (.present stat) →
    graph.kind p = none ∨ graph.kind p = some stat.fileType
  gone : ∀ p, st.staged p = some .removed → graph.kind p ≠ some .directory
  parent : ∀ d n stat, st.staged (VfsPath.join d n) = some (.present stat) →
    shownKind graph st d = some .directory

theorem VfsPath.join_ne_self (p : VfsPath) (n : VfsName) : p.join n ≠ p := by
  intro h
  have hlen := congrArg (fun q : VfsPath => q.components.length) h
  simp at hlen

theorem VfsPath.isAncestorOf_join {d p : VfsPath} {n : VfsName} :
    d.isAncestorOf (p.join n) = true ↔ d = p ∨ d.isAncestorOf p = true := by
  rw [isAncestorOf_iff, isAncestorOf_iff]
  constructor
  · rintro ⟨cs, hne, hcs⟩
    rcases List.eq_nil_or_concat cs with rfl | ⟨cs', c, rfl⟩
    · exact absurd rfl hne
    · rw [components_join, List.concat_eq_append, ← List.append_assoc] at hcs
      have hp := (List.append_inj' hcs rfl).1
      by_cases h0 : cs' = []
      · subst h0
        exact .inl (ext_components (by simpa using hp.symm))
      · exact .inr ⟨cs', h0, hp⟩
  · rintro (rfl | ⟨cs, hne, hcs⟩)
    · exact ⟨[n.bytes], by simp, by simp⟩
    · exact ⟨cs ++ [n.bytes], by simp, by simp [hcs]⟩

section View

theorem overlay_kind_eq (graph : ContentProvider) (root : Posix.Path) (w : World) (p : VfsPath) :
    (overlay graph root w).kind p = shownKind graph w.staging p := overlay_kind

variable {graph : ContentProvider} {root : Posix.Path} {w : World} {p d q : VfsPath} {n : VfsName}

/-- The parent of what is shown is shown as a directory. -/
theorem Fits.shown_parent (hg : GraphTree graph) (hf : Fits graph w.staging)
    (h : shownKind graph w.staging (d.join n) ≠ none) :
    shownKind graph w.staging d = some .directory := by
  unfold shownKind at h
  cases hs : w.staging.staged (d.join n) with
  | some s =>
    cases s with
    | present stat => exact hf.parent d n stat hs
    | removed =>
      rw [hs] at h
      exact absurd rfl h
  | none =>
    rw [hs] at h
    have hd := hg.parent d n h
    unfold shownKind
    cases hsd : w.staging.staged d with
    | none => exact hd
    | some s =>
      cases s with
      | present stat =>
        rcases hf.agrees d stat hsd with h0 | h0
        · rw [hd] at h0
          cases h0
        · rw [hd] at h0
          exact h0.symm
      | removed => exact absurd hd (hf.gone d hsd)

theorem Fits.shown_ancestor (hg : GraphTree graph) (hf : Fits graph w.staging)
    (hq : shownKind graph w.staging q ≠ none) (hd : d.isAncestorOf q = true) :
    shownKind graph w.staging d = some .directory := by
  induction q using VfsPath.induct with
  | hroot =>
    rw [VfsPath.isAncestorOf_iff] at hd
    obtain ⟨cs, hne, hcs⟩ := hd
    rw [VfsPath.components_root] at hcs
    exact absurd (List.append_eq_nil_iff.mp hcs.symm).2 hne
  | hjoin p n ih =>
    have hp := hf.shown_parent hg hq
    rcases VfsPath.isAncestorOf_join.mp hd with rfl | hd
    · exact hp
    · exact ih (by simp [hp]) hd

/-- A path is present when it has a stat. -/
theorem present_iff_stat (hg : GraphTree graph) :
    Present (overlay graph root w) p ↔ ∃ st, (overlay graph root w).stat p = .ok st := by
  constructor
  · exact fun h => h.1
  · intro h
    refine ⟨h, ?_⟩
    obtain ⟨st, hst⟩ := h
    rw [overlay_stat] at hst
    rw [overlay_pathExists]
    cases hs : w.staging.staged p with
    | none =>
      rw [hs] at hst
      dsimp only at hst ⊢
      rw [hg.pathExists]
      simp [ContentProvider.kind, hst]
    | some s =>
      cases s with
      | present st => rfl
      | removed =>
        rw [hs] at hst
        cases hst

theorem stat_of_kind_directory {O : ContentProvider} (h : O.kind p = some .directory) :
    ∃ st, O.stat p = .ok st ∧ st.isDir = true := by
  unfold ContentProvider.kind at h
  split at h
  · rename_i st hst
    refine ⟨st, hst, ?_⟩
    simp only [Option.some.injEq] at h
    unfold VirtualStat.fileType at h
    split at h
    · assumption
    · split at h <;> cases h
  · cases h
  · cases h

theorem Fits.presentDir (hg : GraphTree graph) (h : shownKind graph w.staging d = some .directory) :
    PresentDir (overlay graph root w) d := by
  rw [← overlay_kind_eq graph root w d] at h
  obtain ⟨st, hst, hdir⟩ := stat_of_kind_directory h
  exact ⟨(present_iff_stat hg).mpr ⟨st, hst⟩, st, hst, hdir⟩

/-- **A map that fits shows a tree.** -/
theorem Fits.treeShaped (hg : GraphTree graph) (hf : Fits graph w.staging) :
    TreeShaped (overlay graph root w) := by
  intro d n
  constructor
  · intro hp
    obtain ⟨st, hst⟩ := hp.1
    have hk : shownKind graph w.staging (d.join n) = some st.fileType := by
      rw [← overlay_kind_eq graph root w, ContentProvider.kind, hst]
    have hne : shownKind graph w.staging (d.join n) ≠ none := by simp [hk]
    have hd := hf.shown_parent hg hne
    -- What is shown as a directory can be listed.
    have hlist : graph.kind d = some .directory ∨
        (graph.kind d = none ∧ ∃ st, w.staging.staged d = some (.present st)) := by
      unfold shownKind at hd
      cases hs : w.staging.staged d with
      | none =>
        rw [hs] at hd
        exact .inl hd
      | some s =>
        rw [hs] at hd
        cases s with
        | present stat =>
          rcases hf.agrees d stat hs with h0 | h0
          · exact .inr ⟨h0, stat, rfl⟩
          · exact .inl (h0.trans hd)
        | removed => cases hd
    obtain ⟨entries, hread, hnodup, hmem⟩ := overlay_listing hg hlist
    refine ⟨Fits.presentDir hg hd, entries, st, hread, hst, (listsOnce_of_nodup hnodup).mpr ?_⟩
    rw [hmem]
    unfold shownKind at hk
    cases hs : w.staging.staged (d.join n) with
    | none =>
      rw [hs] at hk
      exact .inl ⟨hk, by simp⟩
    | some s =>
      rw [hs] at hk
      cases s with
      | present stat =>
        have hty : stat.fileType = st.fileType := Option.some.inj hk
        rcases hf.agrees _ stat hs with h0 | h0
        · exact .inr ⟨h0, stat, rfl, hty⟩
        · exact .inl ⟨by rw [h0, hty], by simp⟩
      | removed => cases hk
  · rintro ⟨-, entries, st, -, hst, -⟩
    exact (present_iff_stat hg).mpr ⟨st, hst⟩

end View

/-! ## What a call may record -/

/-- `p` can be recorded as present with type `k`: the graph has nothing else there, the parent is
shown as a directory, and only a directory has staged children. -/
def placeable (graph : ContentProvider) (st : Staging) (p : VfsPath) (k : FileType) : Bool :=
  (graph.kind p = none || graph.kind p = some k) &&
    (p.parent.all fun d => shownKind graph st d = some .directory) &&
    (k = .directory || (st.stagedChildren p).1.isEmpty)

/-- `p` can be recorded as removed: it is no directory of the graph and nothing is staged in it. -/
def removable (graph : ContentProvider) (st : Staging) (p : VfsPath) : Bool :=
  graph.kind p ≠ some .directory && (st.stagedChildren p).1.isEmpty

section Marks

variable {graph : ContentProvider} {st : Staging} {p : VfsPath} {r now : Nat}

theorem shownKind_mark_ne {d : VfsPath} {s : Staged} (h : p ≠ d) :
    shownKind graph (st.mark p s r now) d = shownKind graph st d := by
  unfold shownKind
  rw [Staging.staged_mark, if_neg h]

/-- A map without entries fits. -/
theorem fits_init (h : st.entries = ∅) : Fits graph st := by
  have hnone : ∀ p, st.staged p = none := by
    intro p
    rw [Staging.staged, h]
    rfl
  constructor
  · intro p stat hs
    rw [hnone] at hs
    cases hs
  · intro p hs
    rw [hnone] at hs
    cases hs
  · intro d n stat hs
    rw [hnone] at hs
    cases hs

theorem Fits.place {stat : VirtualStat} (hf : Fits graph st)
    (h : placeable graph st p stat.fileType = true) :
    Fits graph (st.mark p (.present stat) r now) := by
  simp only [placeable, Bool.and_eq_true, Bool.or_eq_true, decide_eq_true_eq, Option.all_eq_true,
    List.isEmpty_iff, Staging.stagedChildren_eq_nil] at h
  obtain ⟨⟨hkind, hparent⟩, hchild⟩ := h
  constructor
  · intro q stat' hs
    rw [Staging.staged_mark] at hs
    split at hs
    · rename_i hq
      cases hs
      exact hq ▸ hkind
    · exact hf.agrees q stat' hs
  · intro q hs
    rw [Staging.staged_mark] at hs
    split at hs
    · cases hs
    · exact hf.gone q hs
  · intro d n stat' hs
    rw [Staging.staged_mark] at hs
    split at hs
    · -- `p` itself: its parent is shown, and is not `p`.
      rename_i hp
      have hne : p ≠ d := by
        rw [hp]
        exact VfsPath.join_ne_self d n
      rw [shownKind_mark_ne hne]
      exact hparent d (by rw [hp, VfsPath.parent_join])
    · have hd := hf.parent d n stat' hs
      by_cases hpd : p = d
      · -- A staged child of `p`: `p` is recorded as a directory.
        subst hpd
        rcases hchild with hk | hno
        · unfold shownKind
          rw [Staging.staged_mark, if_pos rfl]
          exact congrArg some hk
        · exact absurd hs (hno n stat')
      · rw [shownKind_mark_ne hpd]
        exact hd

theorem Fits.remove (hf : Fits graph st) (h : removable graph st p = true) :
    Fits graph (st.mark p .removed r now) := by
  simp only [removable, Bool.and_eq_true, decide_eq_true_eq, List.isEmpty_iff,
    Staging.stagedChildren_eq_nil] at h
  obtain ⟨hkind, hno⟩ := h
  constructor
  · intro q stat hs
    rw [Staging.staged_mark] at hs
    split at hs
    · cases hs
    · exact hf.agrees q stat hs
  · intro q hs
    rw [Staging.staged_mark] at hs
    split at hs
    · rename_i hq
      exact hq ▸ hkind
    · exact hf.gone q hs
  · intro d n stat hs
    rw [Staging.staged_mark] at hs
    split at hs
    · cases hs
    · by_cases hpd : p = d
      · subst hpd
        exact absurd hs (hno n stat)
      · rw [shownKind_mark_ne hpd]
        exact hf.parent d n stat hs

/-- Only the staged dispositions matter. -/
theorem Fits.congr {st' : Staging} (hf : Fits graph st) (h : ∀ p, st'.staged p = st.staged p) :
    Fits graph st' := by
  have hk : ∀ d, shownKind graph st' d = shownKind graph st d := by
    intro d
    unfold shownKind
    rw [h]
  constructor
  · intro p stat hs
    exact hf.agrees p stat (h p ▸ hs)
  · intro p hs
    exact hf.gone p (h p ▸ hs)
  · intro d n stat hs
    rw [hk]
    exact hf.parent d n stat (h _ ▸ hs)

end Marks

/-! ## The calls -/

/-- The type of the entry the working copy has at `p`. -/
def entryType (root : Posix.Path) (fs : Fs) (p : VfsPath) : Option FileType :=
  match restat root fs p with
  | .ok st => some st.fileType
  | .error _ => none

/-- A link stays a link: a content call follows it, and the entry is what is recorded. -/
def leaves (root : Posix.Path) (fs : Fs) (p : VfsPath) (k : FileType) : FileType :=
  if entryType root fs p = some .symlink then .symlink else k

/-- A link is not moved over a link that the destination's own path leads through. -/
def movesDirectly (root : Posix.Path) (fs : Fs) (old new : VfsPath) : Bool :=
  entryType root fs old ≠ some .symlink || entryType root fs new ≠ some .symlink ||
    match containedEntry fs root new with
    | .ok t => decide (containedEntry (fs.removeEntry t) root new = .ok t)
    | .error _ => false

/-- **The condition on one call**, in the state it is made in. -/
def keepsTree (graph : ContentProvider) (root : Posix.Path) (w : World) : Mutation → Bool
  | .writeAt p .. | .createFile p _ | .setLen p _ =>
    placeable graph w.staging p (leaves root w.host p .file)
  | .createDir p => placeable graph w.staging p (leaves root w.host p .directory)
  | .remove p => removable graph w.staging p
  | .rename old new =>
    movesDirectly root w.host old new &&
      match entryType root w.host old with
      | none => false
      | some k =>
        if old = new then placeable graph w.staging new k
        else removable graph w.staging old &&
          placeable graph (w.staging.mark old .removed w.arcs w.clock) new k

/-- A whole call. -/
def Mutation.call (root : Posix.Path) : Mutation → WriterM Unit
  | .writeAt p offset data => do let _ ← KinDaemonWriter.writeAt root p offset data
  | .createFile p exclusive => do let _ ← KinDaemonWriter.createFile root p exclusive
  | .setLen p size => do let _ ← KinDaemonWriter.setLen root p size
  | .createDir p => do let _ ← KinDaemonWriter.createDir root p
  | .remove p => KinDaemonWriter.remove root p
  | .rename old new => KinDaemonWriter.rename root old new

/-- One successful call. -/
def callStep (root : Posix.Path) (w : World) (m : Mutation) : Option World :=
  match exec (m.call root) w with
  | (.ok (), w') => some w'
  | (.error _, _) => none

section Steps

variable {graph : ContentProvider} {root : Posix.Path} {w w' : World} {p old new : VfsPath}
  {st : VirtualStat} {fs : Fs}

/-- The listing type of a node's stat. -/
theorem fileType_statOf (nd : Posix.Node) :
    (statOf nd).fileType = match nd with
      | .file .. => .file
      | .dir .. => .directory
      | .symlink .. => .symlink := by
  cases nd <;> rfl

theorem entryType_eq_some {k : FileType} :
    entryType root fs p = some k ↔
      ∃ e nd, containedEntry fs root p = .ok e ∧ fs.node e = some nd ∧ (statOf nd).fileType = k := by
  unfold entryType
  constructor
  · intro h
    split at h
    · rename_i st hst
      obtain ⟨e, nd, he, hn, rfl⟩ := restat_ok.mp hst
      exact ⟨e, nd, he, hn, Option.some.inj h⟩
    · cases h
  · rintro ⟨e, nd, he, hn, hk⟩
    rw [restat_ok.mpr ⟨e, nd, he, hn, rfl⟩]
    exact congrArg some hk

/-- The entry at `e` decides whether a link is left. -/
theorem leaves_eq {e : Posix.Path} {k : FileType} (he : containedEntry fs root p = .ok e) :
    leaves root fs p k = match fs.shape e with
      | some (.symlink _) => .symlink
      | _ => k := by
  unfold leaves
  split
  · rename_i hlink
    obtain ⟨e', nd, he', hn, hk⟩ := entryType_eq_some.mp hlink
    rw [he] at he'
    cases he'
    rw [fileType_statOf] at hk
    cases nd with
    | symlink i t => simp [Fs.shape, hn, Posix.Node.shape]
    | file i c => cases hk
    | dir i k => cases hk
  · rename_i hno
    split
    · rename_i t hs
      obtain ⟨i, hn⟩ := Fs.shape_eq_symlink.mp hs
      exact absurd (entryType_eq_some.mpr ⟨e, _, he, hn, rfl⟩) hno
    · rfl

/-- What a content call records. -/
theorem fileOp_leaves (op : FileOp) (hx : exec (op.call root p) w = (.ok st, w')) :
    ∃ fs, w' = marked { w with host := fs } p (.present st) ∧
      st.fileType = leaves root w.host p .file := by
  obtain ⟨h, ht⟩ := target_of_call hx
  obtain ⟨e, he, -, hleaf⟩ := containedEntry_of_target ht
  obtain ⟨hw, fs, hput, hst, rfl⟩ := put_of_call ht hx
  refine ⟨fs, rfl, ?_⟩
  obtain ⟨e', nd, he', hn, rfl⟩ := restat_ok.mp hst
  rw [hput.entry hw ht he] at he'
  cases he'
  rw [leaves_eq he, fileType_statOf]
  rcases hleaf with rfl | ⟨t, hl⟩
  · have hfile := hput e
    rw [if_pos rfl] at hfile
    obtain ⟨i, hi⟩ := Fs.shape_eq_file.mp hfile
    rw [hn] at hi
    cases hi
    rcases hw with h0 | ⟨c, h0⟩ <;> rw [h0]
  · obtain ⟨i, hi⟩ := Fs.shape_eq_symlink.mp ((hput.keeps hw).2 e t hl)
    rw [hn] at hi
    cases hi
    rw [hl]

/-- What `create_dir` records. -/
theorem createDir_leaves (hx : exec (KinDaemonWriter.createDir root p) w = (.ok st, w')) :
    ∃ fs, w' = marked { w with host := fs } p (.present st) ∧
      st.fileType = leaves root w.host p .directory := by
  obtain ⟨fs, hd, hst, rfl⟩ := disk_of_call hx
  refine ⟨fs, rfl, ?_⟩
  cases ht : containedTarget w.host root p with
  | error k => simp [createDirDisk, exec_bind, contentPath, ht] at hd
  | ok h =>
    obtain ⟨e, he, -, hleaf⟩ := containedEntry_of_target ht
    obtain ⟨hc, hnl⟩ := containedTarget_landed ht
    have hfree : w.host.shape h = none ∨ w.host.shape h = some .dir := by
      cases hs : w.host.shape h with
      | none => exact .inl rfl
      | some sh =>
        cases sh with
        | dir => exact .inr rfl
        | symlink t => exact absurd hs (hnl t)
        | file c => simp [createDirDisk, exec_bind, contentPath, ht, Posix.createDirAll_file hs] at hd
    obtain ⟨fs', hx', hg, -⟩ := Posix.createDirAll_clear hc hfree
    obtain rfl : fs' = fs := by
      simpa [createDirDisk, exec_bind, contentPath, ht, hx'] using hd
    obtain ⟨e', nd, he', hn, rfl⟩ := restat_ok.mp hst
    rw [grown_entry hg he] at he'
    cases he'
    rw [leaves_eq he, fileType_statOf]
    rcases hleaf with rfl | ⟨t, hl⟩
    · have hdir : fs'.shape e = some .dir := by
        rw [hg]
        rcases hfree with h0 | h0
        · rw [if_pos ⟨List.prefix_rfl, h0⟩]
        · rw [if_neg (by simp [h0]), h0]
      obtain ⟨i, k, hi⟩ := Fs.isDir_iff.mp (Fs.shape_eq_dir.mp hdir)
      rw [hn] at hi
      cases hi
      rcases hfree with h0 | h0 <;> rw [h0]
    · obtain ⟨i, hi⟩ := Fs.shape_eq_symlink.mp (hg.keeps.2 e t hl)
      rw [hn] at hi
      cases hi
      rw [hl]

/-- What a rename records: the type the source had. -/
theorem rename_leaves {k : FileType} (hx : exec (KinDaemonWriter.rename root old new) w = (.ok (), w'))
    (hk : entryType root w.host old = some k) (hdir : movesDirectly root w.host old new = true) :
    ∃ fs st, w' = marked (marked { w with host := fs } old .removed) new (.present st) ∧
      st.fileType = k := by
  rw [exec_rename] at hx
  rcases hd : exec (renameDisk root old new) w.host with ⟨err | u, fs⟩
  · rw [hd] at hx
    cases hx
  · rw [hd] at hx
    dsimp only at hx
    cases hst : restat root fs new with
    | error err =>
      rw [hst] at hx
      cases hx
    | ok st =>
      rw [hst] at hx
      cases hx
      refine ⟨fs, st, rfl, ?_⟩
      obtain ⟨fs₁, e, t, nd, hren⟩ := renamed_of_ok hd
      obtain ⟨e₀, nd₀, he, hn, hty⟩ := entryType_eq_some.mp hk
      obtain ⟨rfl, rfl⟩ := hren.source he hn
      have hlink : nd₀.isSymlink = false ∨ (∀ x, w.host.shape t ≠ some (.symlink x)) ∨
          Renamed.Direct w.host root new t := by
        simp only [movesDirectly, hren.dst, Bool.or_eq_true, decide_eq_true_eq] at hdir
        rcases hdir with (hdir | hdir) | hdir
        · left
          cases nd₀ with
          | symlink i x => exact absurd (entryType_eq_some.mpr ⟨e₀, _, he, hn, rfl⟩) hdir
          | file i c => rfl
          | dir i n => rfl
        · refine .inr (.inl fun x hx => ?_)
          obtain ⟨i, hi⟩ := Fs.shape_eq_symlink.mp hx
          exact hdir (entryType_eq_some.mpr ⟨t, _, hren.dst, hi, rfl⟩)
        · exact .inr (.inr hdir)
      obtain ⟨-, -, rfl⟩ := hren.lands hlink hst
      exact hty

/-- A successful call that meets its condition keeps the map fitting. -/
theorem fits_step {m : Mutation} (hf : Fits graph w.staging)
    (hm : keepsTree graph root w m = true) (h : callStep root w m = some w') :
    Fits graph w'.staging := by
  have hcall : exec (m.call root) w = (.ok (), w') := by
    unfold callStep at h
    split at h
    · rename_i u hu
      cases h
      exact hu
    · cases h
  cases m with
  | writeAt p offset data =>
    obtain ⟨st, w₁, hx, hret⟩ := exec_bind_ok.mp hcall
    cases hret
    obtain ⟨fs, rfl, hty⟩ := fileOp_leaves (.writeAt offset data) hx
    exact hf.place (by rw [hty]; exact hm)
  | createFile p exclusive =>
    obtain ⟨st, w₁, hx, hret⟩ := exec_bind_ok.mp hcall
    cases hret
    obtain ⟨fs, rfl, hty⟩ := fileOp_leaves (.createFile exclusive) hx
    exact hf.place (by rw [hty]; exact hm)
  | setLen p size =>
    obtain ⟨st, w₁, hx, hret⟩ := exec_bind_ok.mp hcall
    cases hret
    obtain ⟨fs, rfl, hty⟩ := fileOp_leaves (.setLen size) hx
    exact hf.place (by rw [hty]; exact hm)
  | createDir p =>
    obtain ⟨st, w₁, hx, hret⟩ := exec_bind_ok.mp hcall
    cases hret
    obtain ⟨fs, rfl, hty⟩ := createDir_leaves hx
    exact hf.place (by rw [hty]; exact hm)
  | remove p =>
    obtain ⟨u, w₁, hx, hret⟩ := exec_bind_ok.mp hcall
    rw [exec_onDisk] at hx
    obtain ⟨-, rfl⟩ := Prod.mk.inj hx
    cases hret
    exact hf.remove hm
  | rename old new =>
    simp only [keepsTree, Bool.and_eq_true] at hm
    obtain ⟨hdir, hm⟩ := hm
    split at hm
    · cases hm
    · rename_i k hk
      obtain ⟨fs, st, rfl, rfl⟩ := rename_leaves hcall hk hdir
      split at hm
      · -- The two marks are of one path: the second one stands.
        rename_i heq
        subst heq
        have hone : Fits graph (w.staging.mark old (.present st) w.arcs w.clock) := hf.place hm
        refine hone.congr fun p => ?_
        simp only [marked, Staging.staged_mark]
        split <;> rfl
      · rw [Bool.and_eq_true] at hm
        exact (hf.remove hm.1).place hm.2

end Steps

/-! ## Whole runs -/

/-- Nothing is there and nothing can be read. -/
structure Gone (O : ContentProvider) (p : VfsPath) : Prop where
  absent : ¬ Present O p
  readFile : ∃ e, O.readFile p = .error e
  readRange : ∀ offset len, ∃ e, O.readRange p offset len = .error e
  readLink : ∃ e, O.readLink p = .error e
  readDir : ∃ e, O.readDir p = .error e

/-- The view is a tree: below a removed directory nothing is left, and every ancestor of a staged
path is a listed directory. -/
structure ShowsTree (graph : ContentProvider) (root : Posix.Path) (w : World) : Prop where
  tree : TreeShaped (overlay graph root w)
  removed : ∀ d, w.staging.staged d = some .removed → Gone (overlay graph root w) d ∧
    ∀ q, d.isAncestorOf q = true → Gone (overlay graph root w) q
  ancestors : ∀ q st, w.staging.staged q = some (.present st) → ∀ d, d.isAncestorOf q = true →
    PresentDir (overlay graph root w) d ∧
      ∀ d' n, d = VfsPath.join d' n → Listed (overlay graph root w) d' n

section View

variable {graph : ContentProvider} {root : Posix.Path} {w w' : World} {p : VfsPath}

/-- What is not shown is gone. -/
theorem Fits.isGone (hg : GraphTree graph) (hf : Fits graph w.staging)
    (h : shownKind graph w.staging p = none) : Gone (overlay graph root w) p := by
  have hnot : ¬ Present (overlay graph root w) p := by
    rintro ⟨⟨st, hst⟩, -⟩
    have hk := overlay_kind_eq graph root w p
    rw [h, ContentProvider.kind, hst] at hk
    cases hk
  unfold shownKind at h
  cases hs : w.staging.staged p with
  | none =>
    rw [hs] at h
    obtain ⟨hfile, hrange, hlink⟩ := hg.unreadable p h
    have hno : ∀ st, w.staging.staged p ≠ some (.present st) := by simp [hs]
    refine ⟨hnot, ?_, fun offset len => ?_, ?_, overlay_readDir_error hg (by simp [h]) fun _ => hno⟩
    · simpa [overlay, WriteThroughProvider, WriteThroughProvider.readFile, view, hs] using hfile
    · simpa [overlay, WriteThroughProvider, WriteThroughProvider.readRange, view, hs]
        using hrange offset len
    · simpa [overlay, WriteThroughProvider, WriteThroughProvider.readLink, view, hs] using hlink
  | some s =>
    cases s with
    | present st =>
      rw [hs] at h
      cases h
    | removed =>
      have hno : ∀ st, w.staging.staged p ≠ some (.present st) := by simp [hs]
      refine ⟨hnot, ?_, fun offset len => ?_, ?_,
        overlay_readDir_error hg (hf.gone p hs) fun _ => hno⟩
      · simp [overlay, WriteThroughProvider, WriteThroughProvider.readFile, view, hs]
      · simp [overlay, WriteThroughProvider, WriteThroughProvider.readRange, view, hs]
      · simp [overlay, WriteThroughProvider, WriteThroughProvider.readLink, view, hs]

theorem Fits.showsTree (hg : GraphTree graph) (hf : Fits graph w.staging) :
    ShowsTree graph root w := by
  refine ⟨hf.treeShaped hg, fun d hd => ?_, fun q st hq d hd => ?_⟩
  · have hnone : shownKind graph w.staging d = none := by
      unfold shownKind
      rw [hd]
    refine ⟨hf.isGone hg hnone, fun q hq => hf.isGone hg ?_⟩
    by_contra hshown
    rw [hf.shown_ancestor hg hshown hq] at hnone
    cases hnone
  · have hshown : shownKind graph w.staging q ≠ none := by
      unfold shownKind
      rw [hq]
      simp
    have hpres : PresentDir (overlay graph root w) d :=
      Fits.presentDir hg (hf.shown_ancestor hg hshown hd)
    refine ⟨hpres, ?_⟩
    rintro d' n rfl
    exact (hf.treeShaped hg d' n).mp hpres.1

end View

/-- **Every run of calls that meet the condition shows a tree**, over every graph snapshot. -/
theorem shows_tree_of_kept {codec : TreeCodec} {snapshot : WorkspaceTreeSnapshot}
    {tree : CachedTree} (fetch : Hash256 → Nat → VfsPath → VfsResult Bytes) {root : Posix.Path}
    {w w' : World} {ms : List Mutation} (htree : CachedTree.fromSnapshot codec snapshot = .ok tree)
    (hw : w.staging.entries = ∅)
    (hm : Runs.Meets (callStep root) (fun w m => keepsTree (tree.provider fetch) root w m = true)
      w ms)
    (hrun : Runs.run (callStep root) w ms = some w') :
    ShowsTree (tree.provider fetch) root w' := by
  have hg : GraphTree (tree.provider fetch) := graphTree_of_accepted (accepted_of_fromSnapshot htree)
  have hf : Fits (tree.provider fetch) w'.staging :=
    Runs.run_inv_of_meets (P := fun w => Fits (tree.provider fetch) w.staging)
      (fun _ _ _ hf hm h => fits_step hf hm h) (fits_init hw) hm hrun
  exact hf.showsTree hg

namespace Sample

/-- A daemon without blobs. -/
def noBlobs (_ : Hash256) (_ : Nat) (p : VfsPath) : VfsResult Bytes := .error (.notFound p.display)

/-- The path `a/b`. -/
def ab : VfsPath := ⟨[97, 47, 98], rfl⟩

end Sample

/-- `create_dir` of `a` and then `create_file` of `a/b`. -/
theorem shows_tree_of_kept_nested :
    ∃ w, Runs.run (callStep []) Sample.world [.createDir Sample.a, .createFile Sample.ab true] =
        some w ∧
      ShowsTree (Sample.emptyTree.provider Sample.noBlobs) [] w := by
  have hrun : (Runs.run (callStep []) Sample.world
      [.createDir Sample.a, .createFile Sample.ab true]).isSome = true := by decide
  obtain ⟨w, hw⟩ := Option.isSome_iff_exists.mp hrun
  have hm : Runs.Meets (callStep [])
      (fun w m => keepsTree (Sample.emptyTree.provider Sample.noBlobs) [] w m = true)
      Sample.world [.createDir Sample.a, .createFile Sample.ab true] := by decide
  exact ⟨w, hw, shows_tree_of_kept Sample.noBlobs Sample.emptyTree_ok rfl hm hw⟩

/-- `write_at` of `a/b` in an empty workspace: `a` is made and not recorded, so `a/b` is shown and
`a` is not. -/
theorem unrecordedParent_not_tree :
    ∃ w, Runs.run (callStep []) Sample.world [.writeAt Sample.ab 0 [1]] = some w ∧
      (overlay (Sample.emptyTree.provider Sample.noBlobs) [] w).pathExists Sample.ab = .ok true ∧
      (overlay (Sample.emptyTree.provider Sample.noBlobs) [] w).pathExists Sample.a = .ok false ∧
      ¬ TreeShaped (overlay (Sample.emptyTree.provider Sample.noBlobs) [] w) := by
  have hrun : ((Runs.run (callStep []) Sample.world [.writeAt Sample.ab 0 [1]]).map fun w =>
      ((overlay (Sample.emptyTree.provider Sample.noBlobs) [] w).pathExists Sample.ab,
        (overlay (Sample.emptyTree.provider Sample.noBlobs) [] w).pathExists Sample.a,
        ((overlay (Sample.emptyTree.provider Sample.noBlobs) [] w).stat Sample.ab).isOk)) =
      some (.ok true, .ok false, true) := by decide
  obtain ⟨w, hw, hp⟩ := Option.map_eq_some_iff.mp hrun
  obtain ⟨hab, ha, hst⟩ : _ ∧ _ ∧ _ := ⟨congrArg Prod.fst hp, congrArg (·.2.1) hp,
    congrArg (·.2.2) hp⟩
  refine ⟨w, hw, hab, ha, fun htree => ?_⟩
  have hjoin : Sample.ab = Sample.a.join ⟨[98], rfl⟩ := rfl
  have hpres : Present (overlay (Sample.emptyTree.provider Sample.noBlobs) [] w) Sample.ab := by
    refine ⟨?_, hab⟩
    cases hs : (overlay (Sample.emptyTree.provider Sample.noBlobs) [] w).stat Sample.ab with
    | ok st => exact ⟨st, rfl⟩
    | error e =>
      rw [hs] at hst
      cases hst
  rw [hjoin] at hpres
  have hlisted := (htree _ _).mp hpres
  rw [hlisted.1.1.2] at ha
  cases ha

end KinVfs
