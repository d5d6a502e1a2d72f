import KinVfs.Daemon.TreeSpec

/-!
# The directory index is the tree of the artifact paths

An accepted snapshot's index is read off the document alone (`ExactIndex`): its artifacts are the
document's, its directories are the root and the strict ancestors of artifact paths, each listing
has the immediate children in strict byte order, and the five lookups tell one story of every path
(`Agree`). A document with an artifact at the root, or with one below another (`PrefixCollision`), is
rejected.
-/

namespace KinVfs

open Fold

/-! ## Byte order -/

/-- The order of the index is the lexicographic order of bytes. -/
theorem compare_bytes_lt {a b : Bytes} : compare a b = .lt ↔ a < b := by
  induction a generalizing b with
  | nil => cases b <;> simp [compare, List.compareLex]
  | cons x xs ih =>
    cases b with
    | nil => simp [compare, List.compareLex]
    | cons y ys =>
      rw [List.cons_lt_cons_iff]
      show List.compareLex compare (x :: xs) (y :: ys) = .lt ↔ _
      simp only [List.compareLex]
      cases hxy : compare x y with
      | lt => simp [Std.compare_eq_lt.mp hxy]
      | gt =>
        have hlt : y < x := Std.compare_eq_gt.mp hxy
        have h1 : ¬ x < y := fun h => absurd (Nat.lt_trans h hlt) (Nat.lt_irrefl _)
        have h2 : x ≠ y := by
          rintro rfl
          exact absurd hlt (Nat.lt_irrefl _)
        simp [h1, h2]
      | eq =>
        obtain rfl : x = y := Std.compare_eq_iff_eq.mp hxy
        have h1 : ¬ x < x := Nat.lt_irrefl _
        simp only [h1, true_and, false_or]
        exact ih

/-! ## The artifacts -/

/-- What the index keeps of an artifact. -/
def WorkspaceTreeArtifact.cached (w : WorkspaceTreeArtifact) : TreeArtifact :=
  ⟨w.artifactId, w.entry, w.size, w.mtime⟩

variable {codec : TreeCodec} {snapshot : WorkspaceTreeSnapshot} {tree : CachedTree} {p d : VfsPath}

theorem insertArtifact_ok {byPath byPath' : Std.ExtTreeMap VfsPath TreeArtifact}
    {w : WorkspaceTreeArtifact} (h : CachedTree.insertArtifact codec byPath w = .ok byPath') :
    ∃ p : VfsPath, p.bytes = w.path ∧ byPath[p]? = none ∧ byPath' = byPath.insert p w.cached := by
  unfold CachedTree.insertArtifact at h
  split at h
  · cases h
  · rename_i p hp
    split at h
    · cases h
    · rename_i hno
      cases h
      exact ⟨p, VfsPath.fromBytes_ok.mp hp, Std.ExtTreeMap.getElem?_eq_none hno, rfl⟩

/-- The artifacts taken are those of the document, each at its path, and every path is valid. -/
theorem artifacts_all {artifacts : List WorkspaceTreeArtifact}
    {byPath : Std.ExtTreeMap VfsPath TreeArtifact}
    (h : artifacts.foldlM (CachedTree.insertArtifact codec) ∅ = .ok byPath) :
    (∀ (p : VfsPath) (a : TreeArtifact), byPath[p]? = some a ↔
      ∃ w ∈ artifacts, w.path = p.bytes ∧ a = w.cached) ∧
    ∀ w ∈ artifacts, ∃ p : VfsPath, p.bytes = w.path := by
  refine foldlM_inv (fun (m : Std.ExtTreeMap VfsPath TreeArtifact)
      (done : List WorkspaceTreeArtifact) =>
    (∀ (p : VfsPath) (a : TreeArtifact), m[p]? = some a ↔
      ∃ w ∈ done, w.path = p.bytes ∧ a = w.cached) ∧
    ∀ w ∈ done, ∃ p : VfsPath, p.bytes = w.path) ?_ ?_ h
  · rintro m done w m' ⟨hm, hdone⟩ hstep
    obtain ⟨q, hq, hnone, rfl⟩ := insertArtifact_ok hstep
    constructor
    · intro p a
      rw [Std.ExtTreeMap.getElem?_insert]
      simp only [Std.compare_eq_iff_eq, List.mem_append, List.mem_singleton]
      by_cases hqp : q = p
      · subst hqp
        rw [if_pos rfl]
        constructor
        · intro h0
          exact ⟨w, .inr rfl, hq.symm, (Option.some.inj h0).symm⟩
        · rintro ⟨x, hx | rfl, hxq, rfl⟩
          · -- The path is new.
            have hold := (hm q x.cached).mpr ⟨x, hx, hxq, rfl⟩
            rw [hnone] at hold
            cases hold
          · rfl
      · rw [if_neg hqp, hm]
        constructor
        · rintro ⟨x, hx, hxp, rfl⟩
          exact ⟨x, .inl hx, hxp, rfl⟩
        · rintro ⟨x, hx | rfl, hxp, rfl⟩
          · exact ⟨x, hx, hxp, rfl⟩
          · exact absurd (VfsPath.ext (hq.trans hxp)) hqp
    · intro x hx
      rcases List.mem_append.mp hx with hx | hx
      · exact hdone x hx
      · rw [List.mem_singleton] at hx
        exact ⟨q, hx ▸ hq⟩
  · constructor
    · intro p a
      simp
    · intro w hw
      cases hw

/-! ## The lookups -/

/-- What stands at `p`. -/
def CachedTree.kindAt (tree : CachedTree) (p : VfsPath) : Option FileType :=
  match tree.byPath[p]? with
  | some a => some a.entry.fileType
  | none => if tree.isDir p then some .directory else none

theorem kind_eq_kindAt {fetch : Hash256 → Nat → VfsPath → VfsResult Bytes} :
    (tree.provider fetch).kind p = tree.kindAt p := by
  rw [kind_provider, CachedTree.kindAt]
  cases tree.byPath[p]? with
  | some a => rfl
  | none => simp [CachedTree.isDir]

/-- The five lookups of `p` tell what stands there. -/
def Agree (tree : CachedTree) (p : VfsPath) : Prop :=
  match tree.kindAt p with
  | none => tree.pathExists p = false ∧ tree.isDir p = false ∧
      tree.statPath p = .error (.notFound p.display) ∧
      tree.requireArtifact p = .error (.notFound p.display) ∧
      tree.listDir p = .error (.notFound p.display)
  | some .directory => tree.pathExists p = true ∧ tree.isDir p = true ∧
      (∃ st, tree.statPath p = .ok st ∧ st.fileType = .directory) ∧
      tree.requireArtifact p = .error (.isDirectory p.display) ∧
      ∃ entries, tree.listDir p = .ok entries
  | some .gitlink => tree.pathExists p = true ∧ tree.isDir p = false ∧
      tree.statPath p = .error (.unsupportedRepositoryBoundary p.display) ∧
      (∃ a, tree.requireArtifact p = .ok a ∧ a.entry.fileType = .gitlink) ∧
      tree.listDir p = .error (.notDirectory p.display)
  | some ty => tree.pathExists p = true ∧ tree.isDir p = false ∧
      (∃ st, tree.statPath p = .ok st ∧ st.fileType = ty) ∧
      (∃ a, tree.requireArtifact p = .ok a ∧ a.entry.fileType = ty) ∧
      tree.listDir p = .error (.notDirectory p.display)

theorem agree_of_accepted (ha : Accepted tree) (p : VfsPath) : Agree tree p := by
  unfold Agree
  cases hp : tree.byPath[p]? with
  | some a =>
    have hmem : p ∈ tree.byPath := by
      rw [Std.ExtTreeMap.mem_iff_isSome_getElem?, hp]
      rfl
    have hnd : p ∉ tree.directories := fun hd => ha.apart p hd hmem
    have hnone := Std.ExtTreeMap.getElem?_eq_none hnd
    have hex : tree.pathExists p = true := by simp [CachedTree.pathExists, hmem]
    have hdir : tree.isDir p = false := by simp [CachedTree.isDir, hnd]
    have hreq : tree.requireArtifact p = .ok a := by rw [CachedTree.requireArtifact, hp]
    have hlist : tree.listDir p = .error (.notDirectory p.display) := by
      simp [CachedTree.listDir, hnone, hmem]
    have hk : tree.kindAt p = some a.entry.fileType := by rw [CachedTree.kindAt, hp]
    rw [hk]
    cases he : a.entry with
    | blob h x =>
      refine ⟨hex, hdir, ⟨.regularFile a.size h x a.mtime, ?_, rfl⟩, ⟨a, hreq, by rw [he]⟩, hlist⟩
      simp [CachedTree.statPath, hp, CachedTree.statForEntry, he]
    | symlink h =>
      refine ⟨hex, hdir, ⟨.symlink a.size h a.mtime, ?_, rfl⟩, ⟨a, hreq, by rw [he]⟩, hlist⟩
      simp [CachedTree.statPath, hp, CachedTree.statForEntry, he]
    | gitlink t =>
      refine ⟨hex, hdir, ?_, ⟨a, hreq, by rw [he]; rfl⟩, hlist⟩
      simp [CachedTree.statPath, hp, CachedTree.statForEntry, he]
  | none =>
    have hno : p ∉ tree.byPath := by
      rw [Std.ExtTreeMap.mem_iff_isSome_getElem?, hp]
      simp
    cases hd : tree.directories[p]? with
    | some dir =>
      have hmem : p ∈ tree.directories := by
        rw [Std.ExtTreeMap.mem_iff_isSome_getElem?, hd]
        rfl
      have hdir : tree.isDir p = true := by simp [CachedTree.isDir, hmem]
      have hk : tree.kindAt p = some .directory := by simp [CachedTree.kindAt, hp, hdir]
      rw [hk]
      refine ⟨by simp [CachedTree.pathExists, hmem], hdir,
        ⟨.directory dir.mutation.authorityGeneration, ?_, rfl⟩, ?_, ⟨dir.entries, ?_⟩⟩
      · simp [CachedTree.statPath, hp, hd]
      · simp [CachedTree.requireArtifact, hp, hdir]
      · simp [CachedTree.listDir, hd]
    | none =>
      have hnd : p ∉ tree.directories := by
        rw [Std.ExtTreeMap.mem_iff_isSome_getElem?, hd]
        simp
      have hdir : tree.isDir p = false := by simp [CachedTree.isDir, hnd]
      have hk : tree.kindAt p = none := by simp [CachedTree.kindAt, hp, hdir]
      rw [hk]
      refine ⟨by simp [CachedTree.pathExists, hno, hnd], hdir, ?_, ?_, ?_⟩
      · simp [CachedTree.statPath, hp, hd]
      · simp [CachedTree.requireArtifact, hp, hdir]
      · simp [CachedTree.listDir, hd, hno]

/-! ## The index -/

/-- The index is the tree of the document's artifact paths. -/
structure ExactIndex (snapshot : WorkspaceTreeSnapshot) (tree : CachedTree) : Prop where
  artifacts : ∀ (p : VfsPath) (a : TreeArtifact), tree.byPath[p]? = some a ↔
    ∃ w ∈ snapshot.artifacts, w.path = p.bytes ∧ a = w.cached
  directories : ∀ d, tree.isDir d = true ↔
    d = .root ∨ ∃ w ∈ snapshot.artifacts, ∃ p : VfsPath, p.bytes = w.path ∧ d.isAncestorOf p = true
  apart : ∀ d, tree.isDir d = true → tree.byPath[d]? = none
  /-- Each immediate child once, in strict order of the name's bytes. -/
  sorted : ∀ d entries, tree.listDir d = .ok entries →
    entries.Pairwise fun x y => x.name.bytes < y.name.bytes
  listed : ∀ d entries, tree.listDir d = .ok entries → ∀ n ty,
    ⟨n, ty⟩ ∈ entries ↔ tree.kindAt (d.join n) = some ty
  lookups : ∀ p, Agree tree p

/-- Some artifact is at the root, or above another artifact. -/
def PrefixCollision (snapshot : WorkspaceTreeSnapshot) : Prop :=
  ∃ w ∈ snapshot.artifacts, w.path = [] ∨
    ∃ w' ∈ snapshot.artifacts, ∃ rest, w'.path = w.path ++ slash :: rest

theorem mem_byPath (h : CachedTree.fromSnapshot codec snapshot = .ok tree) :
    p ∈ tree.byPath ↔ ∃ w ∈ snapshot.artifacts, p.bytes = w.path := by
  obtain ⟨-, -, -, hby, -⟩ := fromSnapshot_ok h
  rw [Std.ExtTreeMap.mem_iff_isSome_getElem?, Option.isSome_iff_exists]
  constructor
  · rintro ⟨a, ha⟩
    obtain ⟨w, hw, hp, -⟩ := ((artifacts_all hby).1 p a).mp ha
    exact ⟨w, hw, hp.symm⟩
  · rintro ⟨w, hw, hp⟩
    exact ⟨w.cached, ((artifacts_all hby).1 p w.cached).mpr ⟨w, hw, hp.symm, rfl⟩⟩

/-- The listing of a directory, as the builder finished it. -/
theorem listDir_ok {entries : List DirEntry} (h : tree.listDir d = .ok entries) :
    ∃ dir, tree.directories[d]? = some dir ∧ entries = dir.entries := by
  unfold CachedTree.listDir at h
  cases hd : tree.directories[d]? with
  | some dir =>
    rw [hd] at h
    cases h
    exact ⟨dir, rfl, rfl⟩
  | none =>
    rw [hd] at h
    dsimp only at h
    split at h <;> cases h

theorem sorted_of_fromSnapshot (h : CachedTree.fromSnapshot codec snapshot = .ok tree)
    {dir : CachedDirectory} (hd : tree.directories[d]? = some dir) :
    dir.entries.Pairwise fun x y => x.name.bytes < y.name.bytes := by
  obtain ⟨-, -, -, -, hdirs, -⟩ := fromSnapshot_ok h
  unfold buildDirectoryIndex at hdirs
  obtain ⟨b, -, hdirs⟩ := bind_eq_ok.mp hdirs
  obtain ⟨bs, -, hdirs⟩ := bind_eq_ok.mp hdirs
  obtain ⟨b, -, hfin⟩ := (finished_all hdirs).2 d dir hd
  have hkeys : (dir.entries.map (·.name.bytes)).Pairwise fun x y => compare x y = .lt := by
    rw [finish_names hfin]
    exact Std.ExtTreeMap.ordered_keys
  exact (List.pairwise_map.mp hkeys).imp compare_bytes_lt.mp

theorem exactIndex_of_fromSnapshot (h : CachedTree.fromSnapshot codec snapshot = .ok tree) :
    ExactIndex snapshot tree where
  artifacts := (artifacts_all (fromSnapshot_ok h).2.2.2.1).1
  directories d := by
    rw [CachedTree.isDir, decide_eq_true_eq, (accepted_of_fromSnapshot h).isDir]
    constructor
    · rintro (rfl | ⟨p, hp, hanc⟩)
      · exact .inl rfl
      · obtain ⟨w, hw, hwp⟩ := (mem_byPath h).mp hp
        exact .inr ⟨w, hw, p, hwp, hanc⟩
    · rintro (rfl | ⟨w, hw, p, hwp, hanc⟩)
      · exact .inl rfl
      · exact .inr ⟨p, (mem_byPath h).mpr ⟨w, hw, hwp⟩, hanc⟩
  apart d hd := by
    rw [CachedTree.isDir, decide_eq_true_eq] at hd
    exact Std.ExtTreeMap.getElem?_eq_none ((accepted_of_fromSnapshot h).apart d hd)
  sorted d entries hl := by
    obtain ⟨dir, hd, rfl⟩ := listDir_ok hl
    exact sorted_of_fromSnapshot h hd
  listed d entries hl n ty := by
    have ha := accepted_of_fromSnapshot h
    obtain ⟨dir, hd, rfl⟩ := listDir_ok hl
    have hkind : (∃ (p : VfsPath) (a : TreeArtifact), tree.byPath[p]? = some a ∧
        Feeds d (p, a) n.bytes ty) ↔
          (tree.provider fun _ _ _ => .ok []).kind (d.join n) = some ty := feeds_iff_kind ha
    rw [ha.listed d dir hd, hkind, kind_eq_kindAt]
  lookups := agree_of_accepted (accepted_of_fromSnapshot h)

/-- A prefix collision is caught. -/
theorem not_accepted_of_collision (hc : PrefixCollision snapshot) :
    CachedTree.fromSnapshot codec snapshot ≠ .ok tree := by
  intro h
  have ha := accepted_of_fromSnapshot h
  obtain ⟨-, -, -, hby, -⟩ := fromSnapshot_ok h
  obtain ⟨w, hw, hcase⟩ := hc
  obtain ⟨p, hp⟩ := (artifacts_all hby).2 w hw
  refine ha.apart p ((ha.isDir p).mpr ?_) ((mem_byPath h).mpr ⟨w, hw, hp⟩)
  rcases hcase with hroot | ⟨w', hw', rest, hrest⟩
  · exact .inl (VfsPath.ext (hp.trans hroot))
  · obtain ⟨q, hq⟩ := (artifacts_all hby).2 w' hw'
    refine .inr ⟨q, (mem_byPath h).mpr ⟨w', hw', hq⟩, ?_⟩
    by_cases hroot : p = .root
    · -- Everything but the root is below the root.
      subst hroot
      refine VfsPath.isAncestorOf_iff.mpr ⟨q.components, fun h0 => ?_, by simp⟩
      rw [VfsPath.components_eq_nil.mp h0] at hq
      rw [← hq] at hrest
      simp [VfsPath.root] at hrest
    · rw [← hq, ← hp] at hrest
      obtain ⟨hcs, hne⟩ := VfsPath.components_of_bytes_append hroot hrest
      exact VfsPath.isAncestorOf_iff.mpr ⟨_, hne, hcs⟩

/-- **The directory index is exact**: what is accepted has the index its artifact paths imply, and
a document with a prefix collision is rejected. -/
theorem directory_index_exact (codec : TreeCodec) (snapshot : WorkspaceTreeSnapshot) :
    (∀ tree, CachedTree.fromSnapshot codec snapshot = .ok tree → ExactIndex snapshot tree) ∧
      (PrefixCollision snapshot → ∃ e, CachedTree.fromSnapshot codec snapshot = .error e) := by
  refine ⟨fun tree h => exactIndex_of_fromSnapshot h, fun hc => ?_⟩
  cases h : CachedTree.fromSnapshot codec snapshot with
  | error e => exact ⟨e, rfl⟩
  | ok tree => exact absurd h (not_accepted_of_collision hc)

namespace Sample

/-- A document with the one file `path`, and one with `a` as well. -/
def oneFile (path : Bytes) : WorkspaceTreeSnapshot :=
  ⟨⟨"r1", "w1", 1, 1, []⟩, [⟨path, Vector.replicate 16 0, .blob emptyRoot false, 0, 0⟩]⟩

def colliding (path : Bytes) : WorkspaceTreeSnapshot :=
  { oneFile path with
    artifacts := ⟨[97], Vector.replicate 16 1, .blob emptyRoot false, 0, 0⟩ ::
      (oneFile path).artifacts }

end Sample

/-- The document with `a/b` is accepted, and the one with `a` and `a/b` is not. -/
theorem directory_index_exact_nested :
    (∃ tree, CachedTree.fromSnapshot Sample.codec (Sample.oneFile [97, 47, 98]) = .ok tree ∧
      ExactIndex (Sample.oneFile [97, 47, 98]) tree) ∧
    ∃ e, CachedTree.fromSnapshot Sample.codec (Sample.colliding [97, 47, 98]) = .error e := by
  constructor
  · have hok : (CachedTree.fromSnapshot Sample.codec (Sample.oneFile [97, 47, 98])).isOk = true := by
      decide +kernel
    cases h : CachedTree.fromSnapshot Sample.codec (Sample.oneFile [97, 47, 98]) with
    | error e => rw [h] at hok; cases hok
    | ok tree => exact ⟨tree, rfl, (directory_index_exact _ _).1 tree h⟩
  · refine (directory_index_exact Sample.codec (Sample.colliding [97, 47, 98])).2 ?_
    exact ⟨_, List.mem_cons_self, .inr ⟨_, List.mem_cons_of_mem _ List.mem_cons_self, [98], rfl⟩⟩

end KinVfs
