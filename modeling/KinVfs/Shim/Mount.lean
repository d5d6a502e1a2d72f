import KinVfs.Shim.PosixAgreement

/-!
# A snapshot as a file tree

`mount` is the file tree that has the tree of a provider at `base` and nothing else; file contents play
no part in resolution and are left empty. So every snapshot with readable links can be mounted
(`mounted_mount`), and statements about mounted snapshots are about all of them.
-/

namespace KinVfs

open Fallible
open Posix (Fs Node names)
open Posix.Fs (tour crossings folds Stays)

/-- The key with these components. -/
def keyOf (cs : List Bytes) : Option VfsPath :=
  match VfsPath.fromBytes (joinComponents cs) with
  | .ok key => if key.components = cs then some key else none
  | .error _ => none

theorem keyOf_eq_some {cs : List Bytes} {key : VfsPath} :
    keyOf cs = some key ↔ key.components = cs := by
  unfold keyOf
  constructor
  · intro h
    split at h
    · split at h
      · cases h
        assumption
      · cases h
    · cases h
  · rintro rfl
    have hok : VfsPath.fromBytes (joinComponents key.components) = .ok key :=
      VfsPath.fromBytes_ok.mpr key.components_spec.2
    rw [hok]
    simp

/-- What stands at `key`. -/
def nodeAt (g : ContentProvider) (key : VfsPath) : Option Node :=
  match g.stat key with
  | .error _ => none
  | .ok stat =>
    if stat.isSymlink then (g.readLink key).toOption.map (.symlink ⟨stat.mode, stat.mtime⟩)
    else if stat.isDir then some (.dir ⟨stat.mode, stat.mtime⟩ 0)
    else some (.file ⟨stat.mode, stat.mtime⟩ [])

def mountNode (g : ContentProvider) (base : Posix.Path) (p : Posix.Path) : Option Node :=
  if base.isPrefixOf p then (keyOf (p.drop base.length)).bind (nodeAt g)
  else if p.isPrefixOf base then some (.dir ⟨0o755, 0⟩ 0)
  else none

section

variable {g : ContentProvider} {base : Posix.Path}

@[simp] theorem mountNode_key (key : VfsPath) :
    mountNode g base (base ++ key.components) = nodeAt g key := by
  have hkey : keyOf key.components = some key := keyOf_eq_some.mpr rfl
  unfold mountNode
  rw [if_pos (List.isPrefixOf_iff_prefix.mpr (List.prefix_append _ _)), List.drop_left, hkey]
  rfl

/-- An entry is one of a key, or a directory above the mount. -/
theorem mountNode_isSome {p : Posix.Path} (h : (mountNode g base p).isSome = true) :
    (∃ key, p = base ++ VfsPath.components key ∧ (nodeAt g key).isSome = true) ∨
      p <+: base ∧ ¬ base <+: p := by
  unfold mountNode at h
  split at h
  · rename_i hp
    obtain ⟨cs, rfl⟩ := List.isPrefixOf_iff_prefix.mp hp
    rw [List.drop_left] at h
    cases hk : keyOf cs with
    | none =>
      rw [hk] at h
      cases h
    | some key =>
      rw [hk] at h
      exact .inl ⟨key, by rw [keyOf_eq_some.mp hk], h⟩
  · rename_i hp
    split at h
    · rename_i hbase
      exact .inr ⟨List.isPrefixOf_iff_prefix.mp hbase, fun h => hp (List.isPrefixOf_iff_prefix.mpr h)⟩
    · cases h

theorem mountNode_above {p : Posix.Path} (hp : p <+: base) (hne : p ≠ base) :
    (mountNode g base p).any Node.isDir = true := by
  have hnot : ¬ base.isPrefixOf p = true := by
    intro h
    exact hne (hp.eq_of_length (Nat.le_antisymm hp.length_le (List.isPrefixOf_iff_prefix.mp h).length_le))
  unfold mountNode
  rw [if_neg hnot, if_pos (List.isPrefixOf_iff_prefix.mpr hp)]
  rfl

theorem nodeAt_isSome {key : VfsPath} (h : (nodeAt g key).isSome = true) :
    ∃ stat, g.stat key = .ok stat := by
  unfold nodeAt at h
  split at h
  · cases h
  · rename_i stat hs
    exact ⟨stat, hs⟩

theorem nodeAt_directory {key : VfsPath} (h : IsDirectory g key) :
    (nodeAt g key).any Node.isDir = true := by
  obtain ⟨stat, hs, hdir, hlink⟩ := h
  simp [nodeAt, hs, hdir, hlink, Node.isDir]

end

/-- The file tree with the tree of `g` at `base`. -/
def mount (g : ContentProvider) (keys : List VfsPath)
    (hkeys : ∀ key stat, g.stat key = .ok stat → key ∈ keys) (hf : Founded g)
    (hroot : IsDirectory g .root) (base : Posix.Path) : Fs where
  node := mountNode g base
  support := base.inits ++ keys.map fun key => base ++ key.components
  env := ⟨0, 0o644, 0o755, 0⟩
  supported p hp := by
    rcases mountNode_isSome hp with ⟨key, rfl, hnode⟩ | ⟨hp, -⟩
    · obtain ⟨stat, hs⟩ := nodeAt_isSome hnode
      exact List.mem_append_right _ (List.mem_map.mpr ⟨key, hkeys key stat hs, rfl⟩)
    · exact List.mem_append_left _ ((List.mem_inits _ _).mpr hp)
  rootDir := by
    by_cases h : ([] : Posix.Path) = base
    · subst h
      have hnode : mountNode g [] [] = nodeAt g .root := mountNode_key .root
      rw [hnode]
      exact nodeAt_directory hroot
    · exact mountNode_above List.nil_prefix h
  closed p n hp := by
    rcases mountNode_isSome hp with ⟨key, hkey, hnode⟩ | ⟨hp, hnot⟩
    · rcases VfsPath.root_or_join key with rfl | ⟨d, m, rfl⟩
      · rw [VfsPath.components_root, List.append_nil] at hkey
        exact mountNode_above ⟨[n], hkey⟩ (by rintro rfl; simp at hkey)
      · rw [VfsPath.components_join, ← List.append_assoc] at hkey
        obtain ⟨rfl, -⟩ := List.append_inj' hkey rfl
        obtain ⟨stat, hs⟩ := nodeAt_isSome hnode
        rw [mountNode_key]
        refine nodeAt_directory (hf d m ?_)
        intro s hnone
        rw [hs] at hnone
        cases hnone
    · refine mountNode_above ((List.prefix_append p [n]).trans hp) ?_
      rintro rfl
      exact hnot (List.prefix_append _ _)
  sized p nd hp := by
    rcases mountNode_isSome (by rw [hp]; rfl) with ⟨key, rfl, -⟩ | ⟨hbase, hnot⟩
    · rw [mountNode_key] at hp
      unfold nodeAt at hp
      split at hp
      · cases hp
      · split at hp
        · obtain ⟨t, -, rfl⟩ := Option.map_eq_some_iff.mp hp
          rfl
        · split at hp <;> (cases hp; rfl)
    · unfold mountNode at hp
      rw [if_neg fun h => hnot (List.isPrefixOf_iff_prefix.mp h),
        if_pos (List.isPrefixOf_iff_prefix.mpr hbase)] at hp
      cases hp
      rfl

section

variable {g : ContentProvider} {keys : List VfsPath}
  {hkeys : ∀ key stat, g.stat key = .ok stat → key ∈ keys} {hf : Founded g}
  {hroot : IsDirectory g .root} {base : Posix.Path}

@[simp] theorem mount_node (key : VfsPath) :
    (mount g keys hkeys hf hroot base).node (base ++ key.components) = nodeAt g key :=
  mountNode_key key

theorem mount_isDir {key : VfsPath} (h : IsDirectory g key) :
    (mount g keys hkeys hf hroot base).isDir (base ++ key.components) = true := by
  unfold Fs.isDir
  rw [mount_node]
  exact nodeAt_directory h

/-- The tree of `mount` is the one of `g`. -/
theorem mounted_mount (hbase : ∀ c ∈ base, IsComponent c)
    (hlinks : ∀ key stat, g.stat key = .ok stat → stat.isSymlink = true →
      ∃ t, g.readLink key = .ok t) :
    Mounted (mount g keys hkeys hf hroot base) base g where
  dir := by simpa using mount_isDir hroot
  link key stat hs hlink := by
    obtain ⟨t, ht⟩ := hlinks key stat hs hlink
    refine ⟨⟨stat.mode, stat.mtime⟩, t, ht, ?_⟩
    simp [nodeAt, hs, hlink, ht, Except.toOption]
  directory key stat hs hlink hdir := mount_isDir ⟨stat, hs, hdir, hlink⟩
  file key stat hs hlink hdir :=
    ⟨⟨stat.mode, stat.mtime⟩, [], by simp [nodeAt, hs, hlink, hdir]⟩
  absent key e he := by simp [nodeAt, he]
  named n := by
    rintro ⟨p, hp⟩
    rcases mountNode_isSome hp with ⟨key, hkey, -⟩ | ⟨hpre, -⟩
    · rcases VfsPath.root_or_join key with rfl | ⟨d, m, rfl⟩
      · rw [VfsPath.components_root, List.append_nil] at hkey
        exact hbase n (by rw [← hkey]; simp)
      · have hmem : n ∈ base ++ (d.join m).components := by rw [← hkey]; simp
        rcases List.mem_append.mp hmem with hmem | hmem
        · exact hbase n hmem
        · exact (d.join m).isComponent hmem
    · exact hbase n (hpre.subset (by simp))

end

/-- The file tree of an accepted snapshot whose link targets can be read. -/
theorem exists_mounted {tree : CachedTree} {fetch : Hash256 → Nat → VfsPath → VfsResult Bytes}
    {base : Posix.Path} (ha : Accepted tree) (hbase : ∀ c ∈ base, IsComponent c)
    (hlinks : ∀ key stat, tree.statPath key = .ok stat → stat.isSymlink = true →
      ∃ t, tree.readLink fetch key = .ok t) :
    ∃ fs, Mounted fs base (tree.provider fetch) := by
  have hkeys : ∀ key stat, (tree.provider fetch).stat key = .ok stat →
      key ∈ tree.byPath.keys ++ tree.directories.keys := by
    intro key stat hs
    rw [List.mem_append, Std.ExtTreeMap.mem_keys, Std.ExtTreeMap.mem_keys]
    have hs' : tree.statPath key = .ok stat := hs
    unfold CachedTree.statPath at hs'
    rw [Std.ExtTreeMap.mem_iff_isSome_getElem?, Std.ExtTreeMap.mem_iff_isSome_getElem?]
    cases hp : tree.byPath[key]? with
    | some a => exact .inl rfl
    | none =>
      rw [hp] at hs'
      cases hd : tree.directories[key]? with
      | some d => exact .inr rfl
      | none =>
        rw [hd] at hs'
        cases hs'
  exact ⟨mount _ _ hkeys (founded_of_accepted ha)
    (isDirectory_of_kind (graphTree_of_accepted ha).root) base, mounted_mount hbase hlinks⟩

/-- Following symbolic links from `key` agrees with the resolution of its path on `fs`. -/
structure FollowsPosix (fs : Fs) (base : Posix.Path) (g : ContentProvider) (root : Bytes)
    (key : VfsPath) (r : Except GraphPathError (Bytes × VirtualStat)) : Prop where
  /-- A resolution that stays in the workspace has the same outcome. -/
  same : ∀ l, fs.canonicalize (base ++ key.components) = .ok l →
    Stays base (crossings fs Fs.maxLinks [] ((base ++ key.components).map .name)) →
    ∃ key' stat, l = base ++ VfsPath.components key' ∧ g.stat key' = .ok stat ∧
      r = .ok (hostPath root key', stat)
  /-- A missing component, or one that is not a directory, is an error. -/
  fails : fs.canonicalize (base ++ key.components) = .error .notFound ∨
    fs.canonicalize (base ++ key.components) = .error .notADirectory → ∃ e, r = .error e

/-- Where every target on the way folds soundly, the walk is the resolution of the mounted tree. -/
theorem follow_posix {σ : Type} {fs : Fs} {base : Posix.Path} {g : ContentProvider}
    (hm : Mounted fs base g) {root : Bytes} (hroot : hostComponents root = .ok (none, base))
    {oracle : GraphOracle σ} (hs : Serves oracle root g) {key : VfsPath} (hkey : key ≠ .root)
    (hfold : ∀ v ∈ (tour fs base Fs.maxLinks [] ((base ++ key.components).map .name)).1, folds fs v)
    (s : Asked σ) :
    FollowsPosix fs base g root key (exec (followSymlinkedPath oracle [root] root key) s).1 := by
  obtain ⟨onTour, htour⟩ := Fs.tour_eq_with fs base Fs.maxLinks
  have hbase : tour fs base Fs.maxLinks [] ((base ++ key.components).map .name) =
      tour fs base Fs.maxLinks (base ++ VfsPath.root.components) (key.components.map .name) := by
    rw [htour, List.map_append, Fs.tourWith_dirs (Posix.level_map base) (by simpa using hm.dir)]
    simp
  have hne : key.names ≠ [] := fun h => hkey (VfsPath.names_eq_nil.mp h)
  have hd : fs.isDir (base ++ VfsPath.root.components) = true := by simpa using hm.dir
  have hnames : names (key.components.map .name) = key.names.map (·.bytes) := by
    rw [Posix.names_map, key.map_names]
  have hmatch := matches_tour hm hroot 40 _ .root key.names (Posix.level_map _) hnames hne hd
    (by rw [hbase] at hfold; exact hfold)
  have hcanon : fs.canonicalize (base ++ key.components) =
      (tour fs base 40 (base ++ VfsPath.root.components) (key.components.map .name)).2 := by
    unfold Fs.canonicalize
    rw [← Fs.tour_snd base, hbase]
    rfl
  rw [follow_serves hs]
  constructor
  · intro l hl hstays
    have hleave := Fs.tour_stays hfold hstays hl
    rw [hbase] at hleave
    rw [hcanon] at hl
    obtain ⟨key', stat, hl', hstat, hr⟩ := hmatch.same l hl hleave
    exact ⟨key', stat, hl', hstat, by rw [hr]; rfl⟩
  · intro h
    rw [hcanon] at h
    obtain ⟨e, he⟩ := hmatch.fails h
    exact ⟨e, by rw [he]; rfl⟩

/-- Every link target can be read. -/
def CachedTree.linksRead (tree : CachedTree) (fetch : Hash256 → Nat → VfsPath → VfsResult Bytes) :
    Bool :=
  tree.byPath.toList.all fun item =>
    item.2.entry.fileType ≠ .symlink || (tree.readLink fetch item.1).toOption.isSome

theorem CachedTree.linksRead_spec {tree : CachedTree}
    {fetch : Hash256 → Nat → VfsPath → VfsResult Bytes} (h : tree.linksRead fetch = true)
    (key : VfsPath) (stat : VirtualStat) (hs : tree.statPath key = .ok stat)
    (hlink : stat.isSymlink = true) : ∃ t, tree.readLink fetch key = .ok t := by
  unfold statPath at hs
  cases hp : tree.byPath[key]? with
  | none =>
    rw [hp] at hs
    cases hd : tree.directories[key]? with
    | none =>
      rw [hd] at hs
      cases hs
    | some d =>
      rw [hd] at hs
      cases hs
      cases hlink
  | some a =>
    rw [hp] at hs
    have hmem := List.all_eq_true.mp h _ (Std.ExtTreeMap.mem_toList_iff_getElem?_eq_some.mpr hp)
    have hentry : a.entry.fileType = .symlink := by
      unfold statForEntry at hs
      cases he : a.entry with
      | blob hash executable =>
        simp only [he] at hs
        cases hs
        cases hlink
      | symlink target => rfl
      | gitlink target =>
        simp only [he] at hs
        cases hs
    simp only [hentry, ne_eq, not_true_eq_false, decide_false, Bool.false_or] at hmem
    obtain ⟨t, ht⟩ := Option.isSome_iff_exists.mp hmem
    exact ⟨t, Except.toOption_eq_some.mp ht⟩

namespace Sample

/-- The target of `l` in `linkedSnapshot`, and what is at `d` and `d/f`. -/
def linkedNodes (tree : CachedTree) : Bool × Option Bytes × Option VirtualStat × Option VirtualStat :=
  (tree.linksRead twoBlobs, (tree.readLink twoBlobs link).toOption,
    (tree.statPath d).toOption, (tree.statPath df).toOption)

theorem linkedTree_nodes :
    (CachedTree.fromSnapshot linkedCodec linkedSnapshot).toOption.map linkedNodes =
      some (true, some [100], some (.directory 1), some (.regularFile 1 hashA false 0)) := by
  decide +kernel

end Sample

/-- `/w/l/f`, through the link `l` to `d`: the kernel and the walk both end at `d/f`. -/
theorem follow_posix_linked :
    ∃ tree fs, CachedTree.fromSnapshot Sample.linkedCodec Sample.linkedSnapshot = .ok tree ∧
      Mounted fs [[119]] (tree.provider Sample.twoBlobs) ∧
      fs.canonicalize [[119], [108], [102]] = .ok [[119], [100], [102]] ∧
      ∀ s : Asked LastCall,
        FollowsPosix fs [[119]] (tree.provider Sample.twoBlobs) Sample.workspace Sample.throughLink
          (exec (followSymlinkedPath (daemonOracle (tree.provider Sample.twoBlobs)
            [Sample.workspace]) [Sample.workspace] Sample.workspace Sample.throughLink) s).1 := by
  obtain ⟨tree, hf, hl, -⟩ := Sample.linkedTree_ok
  have hnodes := Sample.linkedTree_nodes
  rw [hf] at hnodes
  obtain ⟨hlinks, hnodes⟩ := Prod.mk.inj (Option.some.inj hnodes)
  obtain ⟨hread, hnodes⟩ := Prod.mk.inj hnodes
  obtain ⟨hd, hdf⟩ := Prod.mk.inj hnodes
  have hroot : hostComponents Sample.workspace = .ok (none, [[119]]) := by decide
  have hmaps : MapsBack [Sample.workspace] Sample.workspace := mapsBack_single hroot
  obtain ⟨fs, hm⟩ := exists_mounted (accepted_of_fromSnapshot hf) (isComponent_base hroot)
    (CachedTree.linksRead_spec hlinks)
  obtain ⟨i, t, ht, hnl⟩ := hm.link Sample.link _ hl rfl
  obtain rfl : [100] = t := Except.ok.inj ((Except.toOption_eq_some.mp hread).symm.trans ht)
  have hnl' : fs.node [[119], [108]] = some (.symlink i [100]) := hnl
  have hisd : fs.isDir [[119], [100]] = true :=
    hm.directory ⟨[100], rfl⟩ _ (Except.toOption_eq_some.mp hd) rfl rfl
  obtain ⟨i', c, hndf⟩ := hm.file ⟨[100, 47, 102], rfl⟩ _ (Except.toOption_eq_some.mp hdf) rfl rfl
  have hndf' : fs.node [[119], [100], [102]] = some (.file i' c) := hndf
  obtain ⟨j, k, hnw⟩ := Fs.isDir_iff.mp hm.dir
  obtain ⟨j', k', hnd⟩ := Fs.isDir_iff.mp hisd
  have hisr : fs.isDir [] = true := fs.rootDir
  have hisw : fs.isDir [[119]] = true := hm.dir
  have htarget : Fs.targetComps [100] = [.name [100]] := by decide
  have htour : tour fs [[119]] Fs.maxLinks [] [.name [119], .name [108], .name [102]] =
      ([.link [[119]] [100]], .ok [[119], [100], [102]]) := by
    obtain ⟨onTour, hrest⟩ := Fs.tour_eq_with fs [[119]] 39
    rw [Fs.maxLinks, tour]
    simp [Fs.tourWith, Fs.climb, Fs.linkStart, hisr, hisw, hisd, hnw, hnl', hnd, hndf', htarget, hrest]
  have hfold : ∀ v ∈ (tour fs [[119]] Fs.maxLinks []
      (([[119]] ++ Sample.throughLink.components).map .name)).1, folds fs v := by
    have hcomps : Sample.throughLink.components = [[108], [102]] := by decide
    rw [hcomps]
    show ∀ v ∈ (tour fs [[119]] Fs.maxLinks [] [.name [119], .name [108], .name [102]]).1, folds fs v
    rw [htour]
    simp [folds, Fs.straight, htarget]
  have hcanon : fs.canonicalize [[119], [108], [102]] = .ok [[119], [100], [102]] := by
    unfold Fs.canonicalize
    rw [← Fs.tour_snd [[119]]]
    exact congrArg Prod.snd htour
  exact ⟨tree, fs, hf, hm, hcanon, fun s =>
    follow_posix hm hroot (serves_daemonOracle hmaps) (by decide) hfold s⟩

namespace Sample

/-- The target `x/../f`, its SHA-256, and that of what the root of `foldedSnapshot` feeds. -/
def foldedTarget : Bytes := [120, 47, 46, 46, 47, 102]

def hashFolded : Hash256 :=
  #v[193, 133, 74, 17, 156, 191, 52, 252, 65, 211, 11, 61, 56, 69, 133, 177,
    71, 75, 206, 175, 186, 34, 193, 213, 84, 212, 8, 28, 25, 195, 182, 176]

def foldedRoot : Hash256 :=
  #v[97, 17, 33, 244, 51, 92, 56, 158, 143, 50, 167, 135, 135, 151, 122, 83,
    124, 10, 68, 86, 250, 31, 72, 212, 186, 43, 210, 112, 186, 111, 118, 200]

/-- The file `f`, and the link `l` to `x/../f`; there is no `x`. -/
def foldedSnapshot : WorkspaceTreeSnapshot :=
  ⟨⟨"r1", "w1", 1, 1, []⟩,
    [⟨[102], Vector.replicate 16 0, .blob hashA false, 1, 0⟩,
      ⟨[108], Vector.replicate 16 1, .symlink hashFolded, 6, 0⟩]⟩

def foldedCodec : TreeCodec where
  identity _ := .ok "sha256:3"
  showRepoPath := Text.fromUtf8Lossy
  sha256 bytes :=
    if bytes = [97] then hashA else if bytes = foldedTarget then hashFolded else foldedRoot

/-- A daemon with the file and the target. -/
def foldedBlobs (hash : Hash256) (_ : Nat) (p : VfsPath) : VfsResult Bytes :=
  if hash = hashA then .ok [97] else if hash = hashFolded then .ok foldedTarget
  else .error (.notFound p.display)

/-- What is at `x` and `l`. -/
def foldedReads (tree : CachedTree) : Bool × Option VirtualStat × Option VirtualStat :=
  (tree.linksRead foldedBlobs, (tree.statPath ⟨[120], rfl⟩).toOption, (tree.statPath link).toOption)

/-- The target of `l`, and where its walk ends. -/
def foldedWalk (tree : CachedTree) : Option Bytes × Option (VfsPath × VirtualStat) :=
  ((tree.readLink foldedBlobs link).toOption,
    (keyWalk (tree.provider foldedBlobs) [workspace] workspace 40 .root link.names).toOption)

theorem foldedTree_reads :
    (CachedTree.fromSnapshot foldedCodec foldedSnapshot).toOption.map foldedReads =
      some (true, none, some (.symlink 6 hashFolded 0)) := by decide +kernel

theorem foldedTree_walk :
    (CachedTree.fromSnapshot foldedCodec foldedSnapshot).toOption.map foldedWalk =
      some (some foldedTarget, some (⟨[102], rfl⟩, .regularFile 1 hashA false 0)) := by
  decide +kernel

theorem foldedTree_ok : ∃ tree, CachedTree.fromSnapshot foldedCodec foldedSnapshot = .ok tree ∧
    tree.linksRead foldedBlobs = true ∧ (∃ e, tree.statPath ⟨[120], rfl⟩ = .error e) ∧
    tree.statPath link = .ok (.symlink 6 hashFolded 0) ∧
    tree.readLink foldedBlobs link = .ok foldedTarget ∧
    keyWalk (tree.provider foldedBlobs) [workspace] workspace 40 .root link.names =
      .ok (⟨[102], rfl⟩, .regularFile 1 hashA false 0) := by
  have hreads := foldedTree_reads
  have hwalk := foldedTree_walk
  cases hf : CachedTree.fromSnapshot foldedCodec foldedSnapshot with
  | error e =>
    rw [hf] at hreads
    cases hreads
  | ok tree =>
    rw [hf] at hreads hwalk
    obtain ⟨hlinks, hrest⟩ := Prod.mk.inj (Option.some.inj hreads)
    obtain ⟨hx, hlink⟩ := Prod.mk.inj hrest
    obtain ⟨hread, hwalk⟩ := Prod.mk.inj (Option.some.inj hwalk)
    exact ⟨tree, rfl, hlinks, Except.toOption_eq_none.mp hx, Except.toOption_eq_some.mp hlink,
      Except.toOption_eq_some.mp hread, Except.toOption_eq_some.mp hwalk⟩

end Sample

/-- The link `l` to `x/../f` in `/w`, where there is no `x`: the kernel does not find it, and the walk
ends at `f`. -/
theorem follow_posix_folded :
    ∃ tree fs, CachedTree.fromSnapshot Sample.foldedCodec Sample.foldedSnapshot = .ok tree ∧
      Mounted fs [[119]] (tree.provider Sample.foldedBlobs) ∧
      fs.canonicalize [[119], [108]] = .error .notFound ∧
      ∀ s : Asked LastCall,
        (exec (followSymlinkedPath (daemonOracle (tree.provider Sample.foldedBlobs)
          [Sample.workspace]) [Sample.workspace] Sample.workspace Sample.link) s).1 =
            .ok ([47, 119, 47, 102], .regularFile 1 Sample.hashA false 0) ∧
        ¬ FollowsPosix fs [[119]] (tree.provider Sample.foldedBlobs) Sample.workspace Sample.link
          (exec (followSymlinkedPath (daemonOracle (tree.provider Sample.foldedBlobs)
            [Sample.workspace]) [Sample.workspace] Sample.workspace Sample.link) s).1 := by
  obtain ⟨tree, hf, hlinks, ⟨e, hx⟩, hl, hread, hwalk⟩ := Sample.foldedTree_ok
  have hroot : hostComponents Sample.workspace = .ok (none, [[119]]) := by decide
  have hmaps : MapsBack [Sample.workspace] Sample.workspace := mapsBack_single hroot
  obtain ⟨fs, hm⟩ := exists_mounted (accepted_of_fromSnapshot hf) (isComponent_base hroot)
    (CachedTree.linksRead_spec hlinks)
  have hnx : fs.node [[119], [120]] = none := hm.absent ⟨[120], rfl⟩ e hx
  obtain ⟨i, t, ht, hnl⟩ := hm.link Sample.link _ hl rfl
  obtain rfl : Sample.foldedTarget = t := Except.ok.inj (hread.symm.trans ht)
  have hnl' : fs.node [[119], [108]] = some (.symlink i Sample.foldedTarget) := hnl
  obtain ⟨j, k, hnw⟩ := Fs.isDir_iff.mp hm.dir
  have hcanon : fs.canonicalize [[119], [108]] = .error .notFound := by
    have hd : fs.isDir [] = true := fs.rootDir
    have hw : fs.isDir [[119]] = true := hm.dir
    have htarget : Fs.targetComps Sample.foldedTarget = [.name [120], .up, .name [102]] := by decide
    have hhead : Sample.foldedTarget ≠ [] ∧ Sample.foldedTarget.head? ≠ some 47 := by decide
    simp [Fs.canonicalize, Fs.maxLinks, Fs.walk, Fs.walkWith, hd, hw, hnw, hnl', hnx, htarget, hhead]
  refine ⟨tree, fs, hf, hm, hcanon, fun s => ?_⟩
  have hr : (exec (followSymlinkedPath (daemonOracle (tree.provider Sample.foldedBlobs)
      [Sample.workspace]) [Sample.workspace] Sample.workspace Sample.link) s).1 =
        .ok ([47, 119, 47, 102], .regularFile 1 Sample.hashA false 0) := by
    rw [follow_serves (serves_daemonOracle hmaps), hwalk]
    rfl
  refine ⟨hr, fun hposix => ?_⟩
  obtain ⟨e, he⟩ := hposix.fails (.inl hcanon)
  rw [hr] at he
  cases he

end KinVfs
