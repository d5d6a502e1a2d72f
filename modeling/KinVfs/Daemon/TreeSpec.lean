import Mathlib.Data.List.Forall2
import Mathlib.Data.List.Nodup
import KinVfs.Lib.Fold
import KinVfs.Core.TreeLaw
import KinVfs.Daemon.TreeContract

/-!
# What an accepted snapshot is

The directories of an accepted snapshot are the root and the proper ancestors of its artifacts, no
artifact is one of them, and a directory lists, once each, the names the paths below it run through
(`Accepted`). The index is built by two nested loops; `Fed` is their invariant.
-/

namespace KinVfs

open DirectoryBuilder Fold

/-- `rest` has no separator: the descendant is a child. Otherwise its first component is. -/
theorem childOf_joinComponents {c : Bytes} {cs : List Bytes} {entry : TreeEntry}
    (hc : IsComponent c) :
    childOf (joinComponents (c :: cs)) entry =
      (c, if cs = [] then entry.fileType else .directory) := by
  have hnone : c.findIdx? (· == slash) = none := by
    rw [List.findIdx?_eq_none_iff]
    intro b hb
    have hne : b ≠ slash := fun h => hc.2 (h ▸ hb)
    simpa using hne
  unfold childOf
  cases cs with
  | nil => simp [hnone]
  | cons d cs =>
    have hj : joinComponents (c :: d :: cs) = c ++ slash :: joinComponents (d :: cs) := by
      simp [joinComponents, List.intercalate_cons_cons]
    rw [hj, List.findIdx?_append, hnone]
    simp [List.findIdx?_cons]

/-- The path of `item` runs from `d` through the child `c`, of type `ty`. -/
def Feeds (d : VfsPath) (item : VfsPath × TreeArtifact) (c : Bytes) (ty : FileType) : Prop :=
  ∃ cs, item.1.components = d.components ++ c :: cs ∧
    ty = if cs = [] then item.2.entry.fileType else .directory

theorem feeds_of_strip {d : VfsPath} {item : VfsPath × TreeArtifact} {rest c : Bytes}
    {ty : FileType} (h : d.stripDirPrefix item.1 = some rest) :
    childOf rest item.2.entry = (c, ty) ↔ Feeds d item c ty := by
  obtain ⟨cs, hne, hcs, rfl⟩ := VfsPath.stripDirPrefix_eq_some.mp h
  cases cs with
  | nil => exact absurd rfl hne
  | cons c' cs =>
    have hc' : IsComponent c' := VfsPath.isComponent (p := item.1) (by simp [hcs])
    rw [childOf_joinComponents hc', Prod.mk.injEq]
    constructor
    · rintro ⟨rfl, rfl⟩
      exact ⟨cs, hcs, rfl⟩
    · rintro ⟨cs', hcs', rfl⟩
      rw [hcs] at hcs'
      have heq := List.append_cancel_left hcs'
      cases heq
      exact ⟨rfl, rfl⟩

theorem insertChild_ok {es es' : Std.ExtTreeMap Bytes FileType} {c : Bytes} {ty : FileType}
    (h : insertChild es c ty = .ok es') {x : Bytes} {t : FileType} :
    es'[x]? = some t ↔ es[x]? = some t ∨ (c, ty) = (x, t) := by
  unfold insertChild at h
  split at h
  · rename_i hnone
    cases h
    simp only [Std.ExtTreeMap.getElem?_insert, Std.compare_eq_iff_eq]
    by_cases hx : c = x
    · subst hx
      simp [hnone]
    · simp [hx]
  · rename_i found hfound
    split at h
    · rename_i heq
      cases h
      constructor
      · exact .inl
      · rintro (h0 | h0)
        · exact h0
        · cases h0
          rw [hfound, heq]
    · cases h

theorem addDescendant_ok {b b' : DirectoryBuilder} {d : VfsPath} {item : VfsPath × TreeArtifact}
    (h : b.addDescendant d item.1 item.2 = .ok b') {c : Bytes} {ty : FileType} :
    b'.entries[c]? = some ty ↔ b.entries[c]? = some ty ∨ Feeds d item c ty := by
  unfold addDescendant at h
  dsimp only at h
  split at h
  · cases h
  · obtain ⟨path, -, h⟩ := bind_eq_ok.mp h
    obtain ⟨entry, -, h⟩ := bind_eq_ok.mp h
    split at h
    · rename_i rest hrest
      obtain ⟨es, hes, h⟩ := bind_eq_ok.mp h
      cases h
      rw [insertChild_ok hes, ← feeds_of_strip hrest]
    · cases h

/-! ## The index -/

/-- What the loops have built after the turns `done`, each a directory and the artifact it gained. -/
structure Fed (builders : Builders) (done : List (VfsPath × (VfsPath × TreeArtifact))) : Prop where
  mem : ∀ d, d ∈ builders ↔ d = .root ∨ ∃ item, (d, item) ∈ done
  entries : ∀ (d : VfsPath) (b : DirectoryBuilder), builders[d]? = some b → ∀ c ty,
    b.entries[c]? = some ty ↔ ∃ item, (d, item) ∈ done ∧ Feeds d item c ty

theorem new_entries {d : VfsPath} {b : DirectoryBuilder} (h : DirectoryBuilder.new d = .ok b) :
    b.entries = ∅ := by
  unfold DirectoryBuilder.new at h
  obtain ⟨fed, -, h⟩ := bind_eq_ok.mp h
  cases h
  rfl

/-- One turn. -/
theorem Fed.directory {bs bs' : Builders} {done : List (VfsPath × (VfsPath × TreeArtifact))}
    {d : VfsPath} {item : VfsPath × TreeArtifact} (hf : Fed bs done)
    (h : feedDirectory item.1 item.2 bs d = .ok bs') : Fed bs' (done ++ [(d, item)]) := by
  unfold feedDirectory at h
  obtain ⟨b, hb, h⟩ := bind_eq_ok.mp h
  obtain ⟨b', hb', h⟩ := bind_eq_ok.mp h
  cases h
  -- The builder starts with what the directory has so far: nothing if it is new.
  have hold : ∀ c ty, b.entries[c]? = some ty ↔ ∃ it, (d, it) ∈ done ∧ Feeds d it c ty := by
    intro c ty
    unfold builderAt at hb
    cases hd : bs[d]? with
    | some b₀ =>
      rw [hd] at hb
      cases hb
      exact hf.entries d b hd c ty
    | none =>
      rw [hd] at hb
      rw [new_entries hb]
      simp only [Std.ExtTreeMap.getElem?_empty, reduceCtorEq, false_iff, not_exists, not_and]
      intro it hit
      have hmem : d ∈ bs := (hf.mem d).mpr (.inr ⟨it, hit⟩)
      rw [Std.ExtTreeMap.mem_iff_isSome_getElem?, hd] at hmem
      cases hmem
  constructor
  · intro x
    rw [Std.ExtTreeMap.mem_insert, Std.compare_eq_iff_eq, hf.mem]
    simp only [List.mem_append, List.mem_singleton, Prod.mk.injEq]
    constructor
    · rintro (rfl | rfl | ⟨it, hit⟩)
      · exact .inr ⟨item, .inr ⟨rfl, rfl⟩⟩
      · exact .inl rfl
      · exact .inr ⟨it, .inl hit⟩
    · rintro (rfl | ⟨it, hit | ⟨rfl, -⟩⟩)
      · exact .inr (.inl rfl)
      · exact .inr (.inr ⟨it, hit⟩)
      · exact .inl rfl
  · intro x bx hx c ty
    simp only [Std.ExtTreeMap.getElem?_insert, Std.compare_eq_iff_eq] at hx
    by_cases hdx : d = x
    · subst hdx
      rw [if_pos rfl] at hx
      cases hx
      rw [addDescendant_ok hb', hold]
      simp only [List.mem_append, List.mem_singleton, Prod.mk.injEq, true_and]
      constructor
      · rintro (⟨it, hit, hfe⟩ | hfe)
        · exact ⟨it, .inl hit, hfe⟩
        · exact ⟨item, .inr rfl, hfe⟩
      · rintro ⟨it, hit | rfl, hfe⟩
        · exact .inl ⟨it, hit, hfe⟩
        · exact .inr hfe
    · rw [if_neg hdx] at hx
      rw [hf.entries x bx hx]
      simp only [List.mem_append, List.mem_singleton, Prod.mk.injEq]
      constructor
      · rintro ⟨it, hit, hfe⟩
        exact ⟨it, .inl hit, hfe⟩
      · rintro ⟨it, hit | ⟨rfl, -⟩, hfe⟩
        · exact ⟨it, hit, hfe⟩
        · exact absurd rfl hdx

/-- The inner loop. -/
theorem Fed.artifact {bs bs' : Builders} {done : List (VfsPath × (VfsPath × TreeArtifact))}
    {item : VfsPath × TreeArtifact} (hf : Fed bs done) (h : feedArtifact bs item = .ok bs') :
    Fed bs' (done ++ item.1.ancestors.map (·, item)) := by
  refine foldlM_inv (fun bs ds => Fed bs (done ++ ds.map (·, item))) ?_ ?_ h
  · intro b ds d b' hb hd
    have hnext := hb.directory hd
    simpa using hnext
  · simpa using hf

/-- Both loops: every artifact, every ancestor. -/
theorem fed_all {items : List (VfsPath × TreeArtifact)} {b : DirectoryBuilder} {bs : Builders}
    (hroot : DirectoryBuilder.new .root = .ok b)
    (h : items.foldlM feedArtifact ((∅ : Builders).insert .root b) = .ok bs) :
    Fed bs (items.flatMap fun item => item.1.ancestors.map (·, item)) := by
  refine foldlM_inv (fun bs its => Fed bs (its.flatMap fun item =>
    item.1.ancestors.map (·, item))) ?_ ?_ h
  · intro bs its item bs' hb hi
    have hnext := hb.artifact hi
    simpa using hnext
  · constructor
    · intro d
      rw [Std.ExtTreeMap.mem_insert, Std.compare_eq_iff_eq]
      simp [eq_comm]
    · intro d bd hd c ty
      simp only [Std.ExtTreeMap.getElem?_insert, Std.compare_eq_iff_eq,
        Std.ExtTreeMap.getElem?_empty] at hd
      split at hd
      · cases hd
        simp [new_entries hroot]
      · cases hd

/-- An entry of a finished listing is the name and type of one child. -/
theorem finishEntry_ok {x : Bytes × FileType} {y : DirEntry} (h : finishEntry x = .ok y) :
    y.name.bytes = x.1 ∧ y.fileType = x.2 := by
  unfold finishEntry at h
  split at h
  · rename_i n hn
    cases h
    exact ⟨VfsName.fromBytes_ok.mp hn, rfl⟩
  · cases h

/-- A finished directory is made of its children's entries. -/
theorem finish_entries {codec : TreeCodec} {ag wg : Nat} {b : DirectoryBuilder}
    {dir : CachedDirectory} (h : b.finish codec ag wg = .ok dir) :
    List.Forall₂ (fun x y => finishEntry x = .ok y) b.entries.toList dir.entries := by
  unfold DirectoryBuilder.finish at h
  obtain ⟨es, hes, h⟩ := bind_eq_ok.mp h
  cases h
  exact mapM_forall₂ hes

/-- The names of a finished directory, in the order of the index. -/
theorem finish_names {codec : TreeCodec} {ag wg : Nat} {b : DirectoryBuilder}
    {dir : CachedDirectory} (h : b.finish codec ag wg = .ok dir) :
    dir.entries.map (·.name.bytes) = b.entries.keys := by
  have h2 : List.Forall₂ (fun x y => x = y) (b.entries.toList.map (·.1))
      (dir.entries.map (·.name.bytes)) := by
    rw [List.forall₂_map_left_iff, List.forall₂_map_right_iff]
    exact (finish_entries h).imp fun x y hxy => (finishEntry_ok hxy).1.symm
  rw [← Std.ExtTreeMap.map_fst_toList_eq_keys]
  exact (List.forall₂_eq_eq_eq ▸ h2 : _ = _).symm

/-- A finished directory lists its children, one entry for each name. -/
theorem finish_ok {codec : TreeCodec} {ag wg : Nat} {b : DirectoryBuilder} {dir : CachedDirectory}
    (h : b.finish codec ag wg = .ok dir) :
    (dir.entries.map (·.name)).Nodup ∧
      ∀ n ty, ⟨n, ty⟩ ∈ dir.entries ↔ b.entries[n.bytes]? = some ty := by
  have hall := finish_entries h
  constructor
  · have hnd : (dir.entries.map (·.name.bytes)).Nodup := by
      rw [finish_names h]
      exact Std.ExtTreeMap.nodup_keys
    refine List.Nodup.of_map VfsName.bytes ?_
    rw [List.map_map]
    exact hnd
  · intro n ty
    rw [← Std.ExtTreeMap.mem_toList_iff_getElem?_eq_some]
    constructor
    · intro hmem
      obtain ⟨x, hx, hxy⟩ := mem_of_forall₂ hall hmem
      obtain ⟨h1, h2⟩ := finishEntry_ok hxy
      have hxe : x = (n.bytes, ty) := by
        rw [Prod.ext_iff]
        exact ⟨h1.symm, h2.symm⟩
      exact hxe ▸ hx
    · intro hmem
      obtain ⟨y, hy, hxy⟩ := mem_of_forall₂ hall.flip hmem
      obtain ⟨h1, h2⟩ := finishEntry_ok hxy
      have hye : y = ⟨n, ty⟩ := by
        cases y
        simp only at h1 h2
        rw [VfsName.ext h1, h2]
      exact hye ▸ hy

/-- Every builder is finished, and nothing else is in the index. -/
theorem finished_all {codec : TreeCodec} {ag wg : Nat} {bs : Builders}
    {dirs : Std.ExtTreeMap VfsPath CachedDirectory}
    (h : bs.toList.foldlM (finishDirectory codec ag wg) ∅ = .ok dirs) :
    (∀ d, d ∈ dirs ↔ d ∈ bs) ∧
      ∀ (d : VfsPath) (dir : CachedDirectory), dirs[d]? = some dir →
        ∃ b, bs[d]? = some b ∧ b.finish codec ag wg = .ok dir := by
  have hinv := foldlM_inv (fun (ds : Std.ExtTreeMap VfsPath CachedDirectory)
      (done : List (VfsPath × DirectoryBuilder)) =>
    (∀ d, d ∈ ds ↔ ∃ b, (d, b) ∈ done) ∧
      ∀ (d : VfsPath) (dir : CachedDirectory), ds[d]? = some dir →
        ∃ b, (d, b) ∈ done ∧ b.finish codec ag wg = .ok dir) ?_ ?_ h
  · obtain ⟨hmem, hdir⟩ := hinv
    constructor
    · intro d
      rw [hmem, Std.ExtTreeMap.mem_iff_isSome_getElem?, Option.isSome_iff_exists]
      simp only [Std.ExtTreeMap.mem_toList_iff_getElem?_eq_some]
    · intro d dir hd
      obtain ⟨b, hb, hfin⟩ := hdir d dir hd
      exact ⟨b, Std.ExtTreeMap.mem_toList_iff_getElem?_eq_some.mp hb, hfin⟩
  · rintro ds done ⟨p, b⟩ ds' ⟨hmem, hdir⟩ hstep
    obtain ⟨dir, hfin, h0⟩ := bind_eq_ok.mp hstep
    cases h0
    constructor
    · intro d
      rw [Std.ExtTreeMap.mem_insert, Std.compare_eq_iff_eq, hmem]
      simp only [List.mem_append, List.mem_singleton, Prod.mk.injEq]
      constructor
      · rintro (rfl | ⟨b', hb'⟩)
        · exact ⟨b, .inr ⟨rfl, rfl⟩⟩
        · exact ⟨b', .inl hb'⟩
      · rintro ⟨b', hb' | ⟨rfl, -⟩⟩
        · exact .inr ⟨b', hb'⟩
        · exact .inl rfl
    · intro d dir' hd
      simp only [Std.ExtTreeMap.getElem?_insert, Std.compare_eq_iff_eq] at hd
      split at hd
      · rename_i hpd
        subst hpd
        cases hd
        exact ⟨b, by simp, hfin⟩
      · obtain ⟨b', hb', hfin'⟩ := hdir d dir' hd
        exact ⟨b', by simp [hb'], hfin'⟩
  · constructor
    · intro d
      simp
    · intro d dir hd
      simp at hd

/-! ## Accepted snapshots -/

/-- The directory index is the one the artifact paths imply. -/
structure Accepted (tree : CachedTree) : Prop where
  isDir : ∀ d, d ∈ tree.directories ↔ d = .root ∨ ∃ p ∈ tree.byPath, d.isAncestorOf p = true
  /-- One entry for each name. -/
  nodup : ∀ (d : VfsPath) (dir : CachedDirectory), tree.directories[d]? = some dir →
    (dir.entries.map (·.name)).Nodup
  listed : ∀ (d : VfsPath) (dir : CachedDirectory), tree.directories[d]? = some dir → ∀ n ty,
    ⟨n, ty⟩ ∈ dir.entries ↔
      ∃ (p : VfsPath) (a : TreeArtifact), tree.byPath[p]? = some a ∧ Feeds d (p, a) n.bytes ty
  /-- No artifact is a directory. -/
  apart : ∀ d ∈ tree.directories, d ∉ tree.byPath

/-- What `from_snapshot` has checked and built. -/
theorem fromSnapshot_ok {codec : TreeCodec} {snapshot : WorkspaceTreeSnapshot} {tree : CachedTree}
    (h : CachedTree.fromSnapshot codec snapshot = .ok tree) :
    codec.identity snapshot = .ok tree.etag ∧ tree.binding = snapshot.binding ∧
      tree.version = snapshot.binding.generation ∧
      snapshot.artifacts.foldlM (CachedTree.insertArtifact codec) ∅ = .ok tree.byPath ∧
      buildDirectoryIndex codec tree.byPath snapshot.binding.generation
        snapshot.binding.workspaceGeneration = .ok tree.directories ∧
      ∀ d ∈ tree.directories, d ∉ tree.byPath := by
  unfold CachedTree.fromSnapshot at h
  obtain ⟨etag, hetag, h⟩ := bind_eq_ok.mp h
  obtain ⟨byPath, hby, h⟩ := bind_eq_ok.mp h
  obtain ⟨dirs, hdirs, h⟩ := bind_eq_ok.mp h
  split at h
  · cases h
  rename_i hnone
  cases h
  refine ⟨?_, rfl, rfl, hby, hdirs, fun d hd hbad => ?_⟩
  · cases hid : codec.identity snapshot with
    | error e => rw [hid] at hetag; cases hetag
    | ok e => rw [hid] at hetag; cases hetag; rfl
  · rw [List.find?_eq_none] at hnone
    exact hnone d (Std.ExtTreeMap.mem_keys.mpr hd) (by simpa using hbad)

/-- The clocks of a snapshot: the version and every directory carry the binding's generations. -/
structure Stamped (tree : CachedTree) : Prop where
  version : tree.version = tree.binding.generation
  mutation : ∀ (d : VfsPath) (dir : CachedDirectory), tree.directories[d]? = some dir →
    dir.mutation.authorityGeneration = tree.binding.generation ∧
      dir.mutation.workspaceGeneration = tree.binding.workspaceGeneration

theorem stamped_of_fromSnapshot {codec : TreeCodec} {snapshot : WorkspaceTreeSnapshot}
    {tree : CachedTree} (h : CachedTree.fromSnapshot codec snapshot = .ok tree) :
    Stamped tree := by
  obtain ⟨-, hb, hv, -, hdirs, -⟩ := fromSnapshot_ok h
  unfold buildDirectoryIndex at hdirs
  obtain ⟨b, -, hdirs⟩ := bind_eq_ok.mp hdirs
  obtain ⟨bs, -, hdirs⟩ := bind_eq_ok.mp hdirs
  refine ⟨by rw [hv, hb], fun d dir hd => ?_⟩
  obtain ⟨b, -, hfin⟩ := (finished_all hdirs).2 d dir hd
  unfold DirectoryBuilder.finish at hfin
  obtain ⟨es, -, hfin⟩ := bind_eq_ok.mp hfin
  cases hfin
  rw [hb]
  exact ⟨rfl, rfl⟩

theorem accepted_of_fromSnapshot {codec : TreeCodec} {snapshot : WorkspaceTreeSnapshot}
    {tree : CachedTree} (h : CachedTree.fromSnapshot codec snapshot = .ok tree) :
    Accepted tree := by
  obtain ⟨-, -, -, -, hdirs, hapart⟩ := fromSnapshot_ok h
  unfold buildDirectoryIndex at hdirs
  obtain ⟨b, hroot, hdirs⟩ := bind_eq_ok.mp hdirs
  obtain ⟨bs, hbs, hdirs⟩ := bind_eq_ok.mp hdirs
  have hfed := fed_all hroot hbs
  obtain ⟨hmem, hfin⟩ := finished_all hdirs
  -- A turn is an artifact and one of its ancestors.
  have hturn : ∀ (d : VfsPath) (item : VfsPath × TreeArtifact),
      (d, item) ∈ (tree.byPath.toList.flatMap fun item => item.1.ancestors.map (·, item)) ↔
        tree.byPath[item.1]? = some item.2 ∧ d.isAncestorOf item.1 = true := by
    intro d item
    simp only [List.mem_flatMap, List.mem_map, Prod.mk.injEq]
    constructor
    · rintro ⟨it, hit, x, hx, rfl, rfl⟩
      exact ⟨Std.ExtTreeMap.mem_toList_iff_getElem?_eq_some.mp hit, VfsPath.mem_ancestors.mp hx⟩
    · rintro ⟨hit, hd⟩
      exact ⟨item, Std.ExtTreeMap.mem_toList_iff_getElem?_eq_some.mpr hit, d,
        VfsPath.mem_ancestors.mpr hd, rfl, rfl⟩
  constructor
  · intro d
    rw [hmem, hfed.mem]
    simp only [hturn]
    constructor
    · rintro (rfl | ⟨⟨p, a⟩, hp, hd⟩)
      · exact .inl rfl
      · refine .inr ⟨p, ?_, hd⟩
        rw [Std.ExtTreeMap.mem_iff_isSome_getElem?, hp]
        rfl
    · rintro (rfl | ⟨p, hp, hd⟩)
      · exact .inl rfl
      · rw [Std.ExtTreeMap.mem_iff_isSome_getElem?, Option.isSome_iff_exists] at hp
        obtain ⟨a, ha⟩ := hp
        exact .inr ⟨(p, a), ha, hd⟩
  · intro d dir hd
    obtain ⟨b, -, hb⟩ := hfin d dir hd
    exact (finish_ok hb).1
  · intro d dir hd n ty
    obtain ⟨b, hb, hfinish⟩ := hfin d dir hd
    rw [(finish_ok hfinish).2, hfed.entries d b hb]
    simp only [hturn]
    constructor
    · rintro ⟨⟨p, a⟩, ⟨hp, -⟩, hfe⟩
      exact ⟨p, a, hp, hfe⟩
    · rintro ⟨p, a, hp, cs, hcs, hty⟩
      refine ⟨(p, a), ⟨hp, ?_⟩, cs, hcs, hty⟩
      exact VfsPath.isAncestorOf_iff.mpr ⟨_, by simp, hcs⟩
  · exact hapart

section Provider

variable {tree : CachedTree} {fetch : Hash256 → Nat → VfsPath → VfsResult Bytes}

theorem kind_provider (p : VfsPath) :
    (tree.provider fetch).kind p =
      match tree.byPath[p]? with
      | some a => some a.entry.fileType
      | none => if p ∈ tree.directories then some .directory else none := by
  unfold ContentProvider.kind
  simp only [CachedTree.provider, CachedTree.statPath]
  cases hp : tree.byPath[p]? with
  | some a =>
    simp only [CachedTree.statForEntry]
    cases a.entry <;> rfl
  | none =>
    cases hd : tree.directories[p]? with
    | some dir =>
      rw [if_pos (by rw [Std.ExtTreeMap.mem_iff_isSome_getElem?, hd]; rfl)]
      rfl
    | none =>
      rw [if_neg (by rw [Std.ExtTreeMap.mem_iff_isSome_getElem?, hd]; simp)]

theorem kind_of_mem_directories (ha : Accepted tree) {d : VfsPath} (hd : d ∈ tree.directories) :
    (tree.provider fetch).kind d = some .directory := by
  have hno := Std.ExtTreeMap.getElem?_eq_none (ha.apart d hd)
  rw [kind_provider, hno]
  simp only [if_pos hd]

theorem kind_eq_none {p : VfsPath} (h : (tree.provider fetch).kind p = none) :
    tree.byPath[p]? = none ∧ p ∉ tree.directories := by
  rw [kind_provider] at h
  split at h
  · cases h
  · rename_i hp
    split at h
    · cases h
    · rename_i hd
      exact ⟨hp, hd⟩

/-- What `d` lists is what stands below it. -/
theorem feeds_iff_kind (ha : Accepted tree) {d : VfsPath} {n : VfsName} {ty : FileType} :
    (∃ (p : VfsPath) (a : TreeArtifact), tree.byPath[p]? = some a ∧ Feeds d (p, a) n.bytes ty) ↔
      (tree.provider fetch).kind (d.join n) = some ty := by
  constructor
  · rintro ⟨p, a, hp, cs, hcs, rfl⟩
    cases cs with
    | nil =>
      have hpn : p = d.join n := VfsPath.ext_components (by rw [hcs, VfsPath.components_join])
      rw [← hpn, kind_provider, hp]
      rfl
    | cons c cs =>
      have hanc : (d.join n).isAncestorOf p = true := by
        refine VfsPath.isAncestorOf_iff.mpr ⟨c :: cs, by simp, ?_⟩
        rw [hcs, VfsPath.components_join]
        simp
      have hmem : p ∈ tree.byPath := by
        rw [Std.ExtTreeMap.mem_iff_isSome_getElem?, hp]
        rfl
      rw [kind_of_mem_directories ha ((ha.isDir _).mpr (.inr ⟨p, hmem, hanc⟩))]
      simp
  · intro h
    rw [kind_provider] at h
    split at h
    · rename_i a hp
      refine ⟨d.join n, a, hp, [], by simp, ?_⟩
      simpa [eq_comm] using h
    · split at h
      · rename_i hd
        cases h
        rcases (ha.isDir _).mp hd with h0 | ⟨p, hmem, hanc⟩
        · exact absurd h0 (VfsPath.join_ne_root d n)
        · rw [Std.ExtTreeMap.mem_iff_isSome_getElem?, Option.isSome_iff_exists] at hmem
          obtain ⟨a, hp⟩ := hmem
          obtain ⟨cs, hne, hcs⟩ := VfsPath.isAncestorOf_iff.mp hanc
          refine ⟨p, a, hp, cs, ?_, by simp [hne]⟩
          rw [hcs, VfsPath.components_join]
          simp
      · cases h

/-- **A provider with an accepted snapshot shows its tree.** -/
theorem graphTree_of_accepted (ha : Accepted tree) : GraphTree (tree.provider fetch) where
  root := kind_of_mem_directories ha ((ha.isDir _).mpr (.inl rfl))
  parent d n h := by
    refine kind_of_mem_directories ha ((ha.isDir d).mpr ?_)
    obtain ⟨ty, hty⟩ := Option.ne_none_iff_exists'.mp h
    obtain ⟨p, a, hp, cs, hcs, -⟩ := (feeds_iff_kind ha).mpr hty
    refine .inr ⟨p, ?_, VfsPath.isAncestorOf_iff.mpr ⟨_, by simp, hcs⟩⟩
    rw [Std.ExtTreeMap.mem_iff_isSome_getElem?, hp]
    rfl
  pathExists p := by
    rw [kind_provider]
    simp only [CachedTree.provider, CachedTree.pathExists, Std.ExtTreeMap.mem_iff_isSome_getElem?]
    cases tree.byPath[p]? with
    | some a => simp
    | none => cases tree.directories[p]? <;> simp
  listing d h := by
    have hd : d ∈ tree.directories := by
      rw [kind_provider] at h
      split at h
      · rename_i a hp
        cases hk : a.entry <;> rw [hk] at h <;> cases h
      · split at h
        · assumption
        · cases h
    rw [Std.ExtTreeMap.mem_iff_isSome_getElem?, Option.isSome_iff_exists] at hd
    obtain ⟨dir, hdir⟩ := hd
    refine ⟨dir.entries, ?_, ha.nodup d dir hdir, fun n ty => ?_⟩
    · simp only [CachedTree.provider, CachedTree.listDir, hdir]
    · rw [ha.listed d dir hdir, feeds_iff_kind ha]
  notDirectory d k h hk := by
    have hno : d ∉ tree.directories := by
      intro hd
      rw [kind_of_mem_directories ha hd] at h
      cases h
      exact hk rfl
    have hp : d ∈ tree.byPath := by
      rw [kind_provider] at h
      rw [Std.ExtTreeMap.mem_iff_isSome_getElem?]
      split at h
      · rename_i a hp
        rw [hp]
        rfl
      · rw [if_neg hno] at h
        cases h
    have hnone := Std.ExtTreeMap.getElem?_eq_none hno
    exact ⟨d.display, by simp only [CachedTree.provider, CachedTree.listDir, hnone, if_pos hp]⟩
  notFound d h := by
    obtain ⟨hp, hd⟩ := kind_eq_none h
    have hp' : d ∉ tree.byPath := by
      rw [Std.ExtTreeMap.mem_iff_isSome_getElem?, hp]
      simp
    have hnone := Std.ExtTreeMap.getElem?_eq_none hd
    exact ⟨d.display, by simp only [CachedTree.provider, CachedTree.listDir, hnone, if_neg hp']⟩
  unreadable p h := by
    obtain ⟨hp, hd⟩ := kind_eq_none h
    have hreq : tree.requireArtifact p = .error (.notFound p.display) := by
      simp [CachedTree.requireArtifact, hp, CachedTree.isDir, hd]
    refine ⟨⟨.notFound p.display, ?_⟩, fun offset len => ⟨.notFound p.display, ?_⟩,
      ⟨.notFound p.display, ?_⟩⟩
    · simp only [CachedTree.provider, CachedTree.readFile, hreq]
      rfl
    · simp only [CachedTree.provider, CachedTree.readRange, hreq]
      rfl
    · simp only [CachedTree.provider, CachedTree.readLink, hreq]
      rfl

end Provider
namespace Sample

/-- A workspace with no files. -/
def emptySnapshot : WorkspaceTreeSnapshot := ⟨⟨"r1", "w1", 1, 1, []⟩, []⟩

/-- SHA-256 of what an empty root directory feeds to the hash. -/
def emptyRoot : Hash256 :=
  #v[240, 156, 64, 106, 87, 230, 80, 10, 31, 231, 29, 148, 110, 151, 247, 51,
    18, 154, 30, 114, 170, 237, 93, 230, 56, 16, 247, 165, 12, 16, 84, 169]

/-- The libraries on that snapshot. -/
def codec : TreeCodec where
  identity _ := .ok "sha256:0"
  showRepoPath := Text.fromUtf8Lossy
  sha256 _ := emptyRoot

def emptyTree : CachedTree where
  binding := emptySnapshot.binding
  version := 1
  etag := "sha256:0"
  byPath := ∅
  directories := (∅ : Std.ExtTreeMap VfsPath CachedDirectory).insert .root ⟨⟨1, 1, emptyRoot⟩, []⟩

theorem emptyTree_ok : CachedTree.fromSnapshot codec emptySnapshot = .ok emptyTree := rfl

end Sample

end KinVfs
