import KinVfs.Daemon.BlobReads
import KinVfs.Daemon.TreeSpec
import KinVfs.Shim.KeyWalk

/-!
# One round trip resolves what the walk resolves

In a snapshot where no artifact has descendants, an answer about a path settles its prefixes: they
are directories (`Founded`). So a path the graph holds needs no walk, and a path it does not hold
fails where its first prefix that is not a directory says, whether that is asked or remembered.
-/

namespace KinVfs

open Fallible

/-- `g` shows a directory at `d`. -/
def IsDirectory (g : ContentProvider) (d : VfsPath) : Prop :=
  ∃ stat, g.stat d = .ok stat ∧ stat.isDir = true ∧ stat.isSymlink = false

/-- `g` does not answer "not found" at `p`. -/
def Held (g : ContentProvider) (p : VfsPath) : Prop := ∀ s, g.stat p ≠ .error (.notFound s)

/-- What is held stands in a directory. -/
def Founded (g : ContentProvider) : Prop := ∀ d n, Held g (VfsPath.join d n) → IsDirectory g d

theorem IsDirectory.held {g : ContentProvider} {d : VfsPath} (h : IsDirectory g d) : Held g d := by
  obtain ⟨stat, hstat, -⟩ := h
  intro s hs
  rw [hstat] at hs
  cases hs

/-- A directory of the tree is shown as one. -/
theorem isDirectory_of_kind {tree : CachedTree} {fetch : Hash256 → Nat → VfsPath → VfsResult Bytes}
    {d : VfsPath} (hdir : (tree.provider fetch).kind d = some .directory) :
    IsDirectory (tree.provider fetch) d := by
  rw [kind_provider] at hdir
  split at hdir
  · rename_i a hp
    cases hk : a.entry <;> rw [hk] at hdir <;> cases hdir
  · rename_i hp
    split at hdir
    · rename_i hmem
      rw [Std.ExtTreeMap.mem_iff_isSome_getElem?, Option.isSome_iff_exists] at hmem
      obtain ⟨dir, hdir⟩ := hmem
      exact ⟨.directory dir.mutation.authorityGeneration, by
        simp [CachedTree.provider, CachedTree.statPath, hp, hdir], rfl, rfl⟩
    · cases hdir

/-- No artifact of an accepted snapshot has descendants. -/
theorem founded_of_accepted {tree : CachedTree} {fetch : Hash256 → Nat → VfsPath → VfsResult Bytes}
    (ha : Accepted tree) : Founded (tree.provider fetch) := by
  intro d n hheld
  have hkind : (tree.provider fetch).kind (d.join n) ≠ none := by
    intro hnone
    obtain ⟨hp, hd⟩ := kind_eq_none hnone
    apply hheld (d.join n).display
    simp [CachedTree.provider, CachedTree.statPath, hp, Std.ExtTreeMap.getElem?_eq_none hd]
  exact isDirectory_of_kind ((graphTree_of_accepted ha).parent d n hkind)

section Held

variable {g : ContentProvider} {here : VfsPath}
  {onLink : VfsPath → VfsName → List VfsName → Except GraphPathError (VfsPath × VirtualStat)}

/-- Everything above what is held is a directory. -/
theorem Founded.above (hf : Founded g) {names : List VfsName} (hne : names ≠ [])
    (h : Held g (names.foldl VfsPath.join here)) : IsDirectory g here := by
  induction names generalizing here with
  | nil => exact absurd rfl hne
  | cons n rest ih =>
    by_cases h0 : rest = []
    · subst h0
      exact hf here n h
    · exact hf here n (ih h0 h).held

/-- A directory is walked through. -/
theorem keyWalkWith_dir {n : VfsName} {rest : List VfsName} (hd : IsDirectory g (here.join n))
    (hne : rest ≠ []) :
    keyWalkWith g onLink here (n :: rest) = keyWalkWith g onLink (here.join n) rest := by
  obtain ⟨stat, hstat, hdir, hlink⟩ := hd
  rw [keyWalkWith, hstat]
  simp [hdir, hlink, hne]

/-- What is held is reached without a link. -/
theorem Founded.keyWalkWith_held (hf : Founded g) (names : List VfsName) (n : VfsName)
    (h : Held g ((names.foldl VfsPath.join here).join n)) :
    keyWalkWith g onLink here (names ++ [n]) =
      keyWalkWith g onLink (names.foldl VfsPath.join here) [n] := by
  induction names generalizing here with
  | nil => rfl
  | cons m rest ih =>
    have hbelow : Held g ((rest ++ [n]).foldl VfsPath.join (here.join m)) := by
      rw [List.foldl_append]
      exact h
    have hd : IsDirectory g (here.join m) := hf.above (by simp) hbelow
    rw [List.cons_append, keyWalkWith_dir hd (by simp)]
    exact ih h

end Held

/-- The prefixes of `here` and `names` below `here`, without the last. -/
def prefixesFrom (here : VfsPath) : List VfsName → List VfsPath
  | [] | [_] => []
  | n :: m :: rest => here.join n :: prefixesFrom (here.join n) (m :: rest)

theorem prefixesFrom_concat (names : List VfsName) (here : VfsPath) (n m : VfsName) :
    prefixesFrom here (names ++ [n, m]) =
      prefixesFrom here (names ++ [n]) ++ [(names.foldl VfsPath.join here).join n] := by
  induction names generalizing here with
  | nil => rfl
  | cons x rest ih =>
    have hcons : ∀ tail : List VfsName, tail ≠ [] →
        prefixesFrom here (x :: tail) = here.join x :: prefixesFrom (here.join x) tail := by
      intro tail hne
      cases tail with
      | nil => exact absurd rfl hne
      | cons y ys => rfl
    rw [List.cons_append, List.cons_append, hcons _ (by simp), hcons _ (by simp), ih]
    rfl

/-- The loop that collects the prefixes. -/
theorem prefixes_eq (key : VfsPath) : prefixes key = prefixesFrom .root key.names := by
  induction key using VfsPath.induct with
  | hroot => rfl
  | hjoin p n ih =>
    unfold prefixes at ih ⊢
    rw [VfsPath.ancestors_join, VfsPath.names_join]
    rcases VfsPath.root_or_join p with rfl | ⟨q, m, rfl⟩
    · rfl
    · rw [List.takeWhile_cons]
      simp only [VfsPath.isRoot_join, Bool.not_false, ↓reduceIte, List.reverse_cons, ih, VfsPath.names_join,
        List.append_assoc, List.cons_append, List.nil_append]
      rw [prefixesFrom_concat, VfsPath.foldl_names]

/-! ## Remembered facts -/

/-- The fact is true of `g`. -/
def FactTrue (g : ContentProvider) (p : VfsPath) : PathFact → Prop
  | .present isDir isSymlink =>
    ∃ stat, g.stat p = .ok stat ∧ stat.isDir = isDir ∧ stat.isSymlink = isSymlink
  | .absent => ∃ s, g.stat p = .error (.notFound s)

/-- What a prefix was found to be, by a recall or by a question. -/
inductive Found (g : ContentProvider) (p : VfsPath) : Except GraphPathError PathFact → Prop where
  | fact (fact : PathFact) (h : FactTrue g p fact) : Found g p (.ok fact)
  | refused (e : VfsError) (h : g.stat p = .error e) (hne : Held g p) : Found g p (.error .authority)

section Resolve

variable {σ : Type} {oracle : GraphOracle σ} {roots : List Bytes} {root : Bytes}
  {g : ContentProvider} {r : Resolver σ}

theorem exec_ask {α : Type} (x : AskM σ α) (r : Resolver σ) :
    exec (ask x) r = ((exec x r.asked).1, { r with asked := (exec x r.asked).2 }) := by
  unfold ask
  rw [exec_zoom]
  cases (exec x r.asked).1 <;> rfl

theorem exec_noteFact (key : VfsPath) (generation : Nat) (fact : PathFact) (r : Resolver σ) :
    exec (noteFact key generation fact) r = (.ok (),
      { r with cache := (r.cache.observe generation).remember key generation fact }) := rfl

/-- A prefix is what it was found to be, and the cache stays true. -/
theorem prefixFact_found (hs : Serves oracle root g) (hc : r.cache.Holds (FactTrue g))
    (here : VfsPath) (n : VfsName) :
    Found g (here.join n) (exec (prefixFact oracle root (here.join n)) r).1 ∧
      (exec (prefixFact oracle root (here.join n)) r).2.cache.Holds (FactTrue g) := by
  unfold prefixFact
  rw [exec_bind, exec_get]
  dsimp only
  rw [exec_bind, exec_set]
  dsimp only
  cases hrecall : (r.cache.recallPath (here.join n)).1 with
  | some fact => exact ⟨.fact fact (hc _ _ hrecall), hc.recallPath⟩
  | none =>
    dsimp only
    rw [exec_bind, exec_ask, exec_askStat, ← hostPath_join]
    dsimp only
    obtain ⟨generation, hstat⟩ := hs.stat (here.join n) r.asked.oracle
    rw [hstat]
    unfold ContentProvider.probe
    cases hg : g.stat (here.join n) with
    | ok stat =>
      have htrue : FactTrue g (here.join n) (factOf stat) := ⟨stat, hg, rfl, rfl⟩
      exact ⟨.fact _ htrue, hc.recallPath.observe.remember htrue⟩
    | error e =>
      cases e
      case notFound s =>
        have htrue : FactTrue g (here.join n) .absent := ⟨s, hg⟩
        exact ⟨.fact _ htrue, hc.recallPath.observe.remember htrue⟩
      all_goals exact ⟨.refused _ hg (by intro s h; rw [hg] at h; cases h), hc.recallPath⟩

/-- What the prefixes turned out to be agrees with the walk of a path that is not there. -/
def Agrees (onLink : VfsPath → VfsName → List VfsName → Except GraphPathError (VfsPath × VirtualStat))
    (g : ContentProvider) (here : VfsPath) (names : List VfsName) :
    Except GraphPathError PrefixVerdict → Prop
  | .ok .directories => keyWalkWith g onLink here names = .error .missingFinal
  | .ok .symlinked => True
  | .error e => keyWalkWith g onLink here names = .error e

theorem classifyPrefixes_agrees (hs : Serves oracle root g)
    (onLink : VfsPath → VfsName → List VfsName → Except GraphPathError (VfsPath × VirtualStat))
    (names : List VfsName) (hne : names ≠ []) (here : VfsPath) (r : Resolver σ)
    (hc : r.cache.Holds (FactTrue g))
    (habsent : ∃ s, g.stat (names.foldl VfsPath.join here) = .error (.notFound s)) :
    Agrees onLink g here names
      (exec (classifyPrefixes oracle root (prefixesFrom here names)) r).1 := by
  induction names generalizing here r with
  | nil => exact absurd rfl hne
  | cons n rest ih =>
    cases rest with
    | nil =>
      obtain ⟨s, hs⟩ := habsent
      show keyWalkWith g onLink here [n] = _
      rw [List.foldl_cons, List.foldl_nil] at hs
      rw [keyWalkWith, hs]
      rfl
    | cons m rest =>
      rw [prefixesFrom, classifyPrefixes, exec_bind]
      obtain ⟨hfound, hcache⟩ := prefixFact_found hs hc here n
      rcases hx : exec (prefixFact oracle root (here.join n)) r with ⟨out, r'⟩
      rw [hx] at hfound hcache
      cases hfound with
      | refused e hstat hheld =>
        show keyWalkWith g onLink here (n :: m :: rest) = _
        rw [keyWalkWith, hstat]
        cases e
        case notFound s => exact absurd hstat (hheld s)
        all_goals rfl
      | fact fact htrue =>
        cases fact with
        | absent =>
          obtain ⟨s, hstat⟩ := htrue
          show keyWalkWith g onLink here (n :: m :: rest) = _
          rw [keyWalkWith, hstat]
          rfl
        | present isDir isSymlink =>
          obtain ⟨stat, hstat, hdir, hlink⟩ := htrue
          cases isSymlink with
          | true => exact trivial
          | false =>
            cases isDir with
            | false =>
              show keyWalkWith g onLink here (n :: m :: rest) = _
              rw [keyWalkWith, hstat]
              simp [hdir, hlink]
            | true =>
              have hnext := ih (by simp) (here.join n) r' hcache habsent
              unfold Agrees at hnext ⊢
              rw [keyWalkWith_dir ⟨stat, hstat, hdir, hlink⟩ (by simp)]
              exact hnext

/-- One round trip gives the outcome of the walk. -/
theorem resolve_serves (hf : Founded g) (hs : Serves oracle root g) {key : VfsPath}
    (hkey : key ≠ .root) (r : Resolver σ) (hc : r.cache.Holds (FactTrue g)) :
    (exec (resolveGraphPath oracle roots root key) r).1 =
      (keyWalk g roots root 40 .root key.names).map (hostResult root) := by
  obtain ⟨d, n, rfl⟩ : ∃ d n, key = VfsPath.join d n :=
    (VfsPath.root_or_join key).resolve_left hkey
  obtain ⟨onLink, hwalk⟩ := keyWalk_eq_with g roots root 40
  have hlast : Held g (d.join n) → keyWalk g roots root 40 .root (d.join n).names =
      keyWalkWith g onLink d [n] := by
    intro hheld
    rw [hwalk, VfsPath.names_join, hf.keyWalkWith_held, VfsPath.foldl_names]
    rwa [VfsPath.foldl_names]
  unfold resolveGraphPath
  obtain ⟨generation, hstat⟩ := hs.stat (d.join n) r.asked.oracle
  rw [VfsPath.isRoot_join, if_neg Bool.false_ne_true, exec_bind, exec_ask, exec_askStat,
    ← hostPath_join]
  dsimp only
  rw [hstat]
  unfold ContentProvider.probe
  cases hg : g.stat (d.join n) with
  | ok stat =>
    dsimp only
    rw [exec_bind, exec_noteFact]
    dsimp only
    cases hlink : stat.isSymlink with
    | true =>
      rw [if_pos rfl, exec_ask]
      exact follow_serves hs _ _
    | false =>
      rw [if_neg Bool.false_ne_true, hlast (by intro s h; rw [hg] at h; cases h), keyWalkWith, hg]
      simp [hlink, hostResult, Except.map]
  | error e =>
    cases e
    case notFound s =>
      dsimp only
      have habsent : FactTrue g (d.join n) .absent := ⟨s, hg⟩
      rw [exec_bind, exec_noteFact]
      dsimp only
      rw [exec_bind, classifyPrefix, prefixes_eq]
      have hagrees := classifyPrefixes_agrees hs onLink (d.join n).names
        (by simp) .root
        { r with
          asked := r.asked.stat oracle (hostPath root (d.join n))
          cache := (r.cache.observe generation).remember (d.join n) generation .absent }
        (hc.observe.remember habsent) ⟨s, by rw [VfsPath.foldl_names, hg]⟩
      rcases hx : exec (classifyPrefixes oracle root (prefixesFrom .root (d.join n).names)) _
        with ⟨out, r'⟩
      rw [hx] at hagrees
      cases out with
      | error e =>
        rw [hwalk, show keyWalkWith g onLink .root (d.join n).names = _ from hagrees]
        rfl
      | ok verdict =>
        cases verdict with
        | directories =>
          rw [hwalk, show keyWalkWith g onLink .root (d.join n).names = _ from hagrees]
          rfl
        | symlinked =>
          dsimp only
          rw [exec_ask]
          exact follow_serves hs _ _
    all_goals
      rw [hlast (by intro s h; rw [hg] at h; cases h), keyWalkWith, hg]
      rfl

end Resolve

/-- One round trip and the walk have the same outcome: the same path and attributes, or the same
error. -/
theorem resolve_eq_follow {σ : Type} {tree : CachedTree} (ha : Accepted tree)
    (fetch : Hash256 → Nat → VfsPath → VfsResult Bytes) {oracle : GraphOracle σ} {root : Bytes}
    (hs : Serves oracle root (tree.provider fetch)) (roots : List Bytes) {key : VfsPath}
    (hkey : key ≠ .root) {cache : StatCache}
    (hc : ∀ path fact, cache.Recalls path fact → FactTrue (tree.provider fetch) path fact)
    (s s' : Asked σ) :
    (exec (resolveGraphPath oracle roots root key) ⟨s, cache⟩).1 =
      (exec (followSymlinkedPath oracle roots root key) s').1 := by
  rw [resolve_serves (founded_of_accepted ha) hs hkey ⟨s, cache⟩ hc, follow_serves hs]

namespace Sample

/-- SHA-256 of the one byte `d`. -/
def hashD : Hash256 :=
  #v[24, 172, 62, 115, 67, 240, 22, 137, 12, 81, 14, 147, 249, 53, 38, 17,
    105, 217, 227, 245, 101, 67, 100, 41, 131, 15, 175, 9, 52, 244, 248, 228]

/-- SHA-256 of what the root and the directory `d` of `linkedSnapshot` feed to the hash. -/
def linkedRoot : Hash256 :=
  #v[16, 33, 152, 192, 129, 56, 145, 193, 218, 62, 241, 180, 139, 238, 219, 36,
    224, 113, 27, 116, 35, 105, 100, 21, 199, 236, 80, 148, 197, 50, 67, 90]

def linkedDir : Hash256 :=
  #v[26, 135, 27, 130, 75, 33, 134, 209, 71, 130, 221, 169, 47, 119, 37, 189,
    201, 30, 131, 39, 120, 192, 201, 91, 152, 202, 21, 100, 169, 249, 207, 150]

/-- The file `d/f` and the link `l` to `d`. -/
def linkedSnapshot : WorkspaceTreeSnapshot :=
  ⟨⟨"r1", "w1", 1, 1, []⟩,
    [⟨[100, 47, 102], Vector.replicate 16 0, .blob hashA false, 1, 0⟩,
      ⟨[108], Vector.replicate 16 1, .symlink hashD, 1, 0⟩]⟩

/-- The libraries on that snapshot. -/
def linkedCodec : TreeCodec where
  identity _ := .ok "sha256:2"
  showRepoPath := Text.fromUtf8Lossy
  sha256 bytes :=
    if bytes = [97] then hashA else if bytes = [100] then hashD
    else if bytes.length = 199 then linkedRoot else linkedDir

/-- A daemon with the blobs `a` and `d`. -/
def twoBlobs (hash : Hash256) (_ : Nat) (p : VfsPath) : VfsResult Bytes :=
  if hash = hashA then .ok [97] else if hash = hashD then .ok [100]
  else .error (.notFound p.display)

/-- The workspace root `/w`. -/
def workspace : Bytes := [47, 119]

/-- The paths `l` and `l/f`. -/
def link : VfsPath := ⟨[108], rfl⟩
def throughLink : VfsPath := ⟨[108, 47, 102], rfl⟩

/-- A process that has been told that `l` is a link. -/
def toldLink : StatCache :=
  ((StatCache.new StatCache.defaultCapacity).observe 1).remember link 1 (.present false true)

/-- What `l` is, and where the walk of `l/f` ends. -/
def linkedReads (tree : CachedTree) : Option VirtualStat × Option (VfsPath × VirtualStat) :=
  ((tree.statPath link).toOption,
    (keyWalk (tree.provider twoBlobs) [workspace] workspace 40 .root throughLink.names).toOption)

theorem linkedTree_reads :
    ((CachedTree.fromSnapshot linkedCodec linkedSnapshot).toOption.map linkedReads) =
      some (some (.symlink 1 hashD 0),
        some (⟨[100, 47, 102], rfl⟩, .regularFile 1 hashA false 0)) := by decide +kernel

theorem linkedTree_ok : ∃ tree, CachedTree.fromSnapshot linkedCodec linkedSnapshot = .ok tree ∧
    tree.statPath link = .ok (.symlink 1 hashD 0) ∧
    keyWalk (tree.provider twoBlobs) [workspace] workspace 40 .root throughLink.names =
      .ok (⟨[100, 47, 102], rfl⟩, .regularFile 1 hashA false 0) := by
  have h := linkedTree_reads
  cases hf : CachedTree.fromSnapshot linkedCodec linkedSnapshot with
  | error e => rw [hf] at h; cases h
  | ok tree =>
    rw [hf] at h
    obtain ⟨hlink, hwalk⟩ := Prod.mk.inj (Option.some.inj h)
    exact ⟨tree, rfl, Except.toOption_eq_some.mp hlink, Except.toOption_eq_some.mp hwalk⟩

end Sample

/-- `l/f` is not held, its prefix is remembered as a link, and both ways lead to `/w/d/f`. -/
theorem resolve_eq_follow_linked :
    ∃ tree, CachedTree.fromSnapshot Sample.linkedCodec Sample.linkedSnapshot = .ok tree ∧
      ∀ s s' : Asked LastCall,
        (exec (resolveGraphPath (daemonOracle (tree.provider Sample.twoBlobs) [Sample.workspace])
          [Sample.workspace] Sample.workspace Sample.throughLink) ⟨s, Sample.toldLink⟩).1 =
        (exec (followSymlinkedPath (daemonOracle (tree.provider Sample.twoBlobs) [Sample.workspace])
          [Sample.workspace] Sample.workspace Sample.throughLink) s').1 ∧
        (exec (followSymlinkedPath (daemonOracle (tree.provider Sample.twoBlobs) [Sample.workspace])
          [Sample.workspace] Sample.workspace Sample.throughLink) s').1 =
        .ok ([47, 119, 47, 100, 47, 102], .regularFile 1 Sample.hashA false 0) := by
  obtain ⟨tree, hf, hlink, hwalk⟩ := Sample.linkedTree_ok
  have hmaps : MapsBack [Sample.workspace] Sample.workspace := by
    have hroot : hostComponents Sample.workspace = .ok (none, [[119]]) := by decide
    exact mapsBack_single hroot
  have hserves := serves_daemonOracle (g := tree.provider Sample.twoBlobs) hmaps
  have hcache : Sample.toldLink.Holds (FactTrue (tree.provider Sample.twoBlobs)) :=
    (StatCache.holds_new _).observe.remember ⟨_, hlink, rfl, rfl⟩
  refine ⟨tree, hf, fun s s' => ⟨?_, ?_⟩⟩
  · exact resolve_eq_follow (accepted_of_fromSnapshot hf) Sample.twoBlobs hserves _
      (by decide) hcache s s'
  · rw [follow_serves hserves, hwalk]
    rfl

end KinVfs
