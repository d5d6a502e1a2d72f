import KinVfs.Shim.Hooks
import KinVfs.Shim.RoundTrip

/-!
# Intermediate symlinks and the no-follow hooks

`EndsAt d d'`: following the links of `d` ends at the directory `d'`, so a path whose key is `d/n` names
the entry `d'/n`. The hooks that do not follow the last component ask about `d/n` itself. Nothing stands
below a link, so they act on the entry `d'/n` exactly when there is none, or no link is passed and the
inode number they compute from the spelling of the path is that of the entry (`nofollow_agrees_iff`).
-/

namespace KinVfs

open Fallible

section Outcomes

variable {g : ContentProvider} {roots : List Bytes} {root : Bytes} {strict : Bool} {p : Bytes}
  {key : VfsPath}

@[simp] theorem Shim.last_setLast (s : Shim) (last : LastCall) : (s.setLast last).last = last := rfl

@[simp] theorem Shim.table_setLast (s : Shim) (last : LastCall) : (s.setLast last).table = s.table :=
  rfl

theorem graphCall_of_key {α : Type} {call : VfsPath → Option α × LastCall}
    (hp : graphRequestKey roots p = some key) (last : LastCall) :
    graphCall roots call p last = call key := by
  unfold graphCall
  rw [hp]

/-- The attributes of the entry at `key`, under the inode number of `path`. -/
def entryStat (g : ContentProvider) (strict : Bool) (key : VfsPath) (path : Bytes) :
    Except Errno StatBuf :=
  match g.stat key with
  | .ok vstat => .ok (fillStatBuf vstat path)
  | .error e => .error (graphFailureErrno strict e.failure)

theorem exec_lstat (hp : graphRequestKey roots p = some key) (s : Shim) :
    (exec (lstat g roots strict p) s).1 = entryStat g strict key p := by
  unfold lstat entryStat
  rw [exec_bind, exec_callGraph, graphStat, graphCall_of_key hp]
  unfold clientStat
  cases g.stat key <;> rfl

theorem exec_fstatat_nofollow (hp : graphRequestKey roots p = some key) (s : Shim) :
    (exec (fstatat g roots root strict true p) s).1 = entryStat g strict key p := by
  unfold fstatat graphStatHere entryStat
  rw [if_pos rfl, exec_bind, exec_bind, exec_callGraph, graphStat, graphCall_of_key hp]
  unfold clientStat
  cases g.stat key <;> rfl

/-- The target of the entry at `key`. -/
def entryLink (g : ContentProvider) (strict : Bool) (key : VfsPath) (bufsiz : Nat) :
    Except Errno Bytes :=
  match g.readLink key with
  | .ok target => .ok (target.take bufsiz)
  | .error e => .error (graphFailureErrno strict e.failure)

theorem exec_readlink (hp : graphRequestKey roots p = some key) (bufsiz : Nat) (s : Shim) :
    (exec (readlink g roots strict p bufsiz) s).1 = entryLink g strict key bufsiz := by
  unfold readlink entryLink
  rw [exec_bind, exec_callGraph, graphReadLink, graphCall_of_key hp]
  unfold clientReadLink clientAnswer
  cases g.readLink key <;> rfl

/-- The descriptor of the entry at `key`, which has the attributes `vstat`. -/
def entryOpen (g : ContentProvider) (strict : Bool) (flags : OpenFlags) (key : VfsPath)
    (vstat : VirtualStat) (table : FdTable) : Except Errno Nat :=
  if vstat.isDir then
    match g.readDir key with
    | .error e => .error (graphFailureErrno strict e.failure)
    | .ok _ => (table.nextVfd.1.map .ok).getD (.error (graphMissErrno strict))
  else if flags.directory then .error .enotdir
  else if vstat.isFile then
    if vstat.size ≤ smallFileThreshold then
      match g.readFile key with
      | .error e => .error (graphFailureErrno strict e.failure)
      | .ok _ => (table.nextVfd.1.map .ok).getD (.error .eio)
    else (table.nextVfd.1.map .ok).getD (.error .eio)
  else .error .einval

theorem exec_allocateVfd (size : Nat) (content : Option Bytes) (s : Shim) :
    exec (allocateVfd p size content) s =
      (.ok s.table.nextVfd.1, { s with table := (s.table.allocate p size content).2 }) := by
  have hn : (s.table.allocate p size content).1 = s.table.nextVfd.1 := FdTable.insertNew_isSome _ _
  rw [← hn]
  rfl

/-- What was opened was allocated: `next` gives the descriptor, and fails if there is none. -/
theorem allocateVfd_opened {size fd : Nat} {content : Option Bytes} {next : Option Nat → HookM Nat} {s s' : Shim}
    (hsome : ∀ n, next (some n) = pure n) (hnone : ∀ s, exec (next none) s = (.error .eio, s))
    (h : exec (allocateVfd p size content >>= next) s = (.ok fd, s')) :
    exec (allocateVfd p size content) s = (.ok (some fd), s') := by
  obtain ⟨out, t, halloc, hnext⟩ := exec_bind_ok.mp h
  cases out with
  | none =>
    rw [hnone] at hnext
    cases hnext
  | some n =>
    rw [hsome] at hnext
    cases hnext
    exact halloc

/-- Only the key of the path decides what an open of it gives. -/
theorem exec_openResolved (hp : graphRequestKey roots p = some key) (flags : OpenFlags)
    (vstat : VirtualStat) (s : Shim) :
    (exec (openResolved g roots strict flags (.ok (p, vstat))) s).1 =
      entryOpen g strict flags key vstat s.table := by
  unfold openResolved entryOpen
  dsimp only
  split
  · unfold allocateDirVfd
    rw [exec_bind, exec_bind, exec_callGraph, graphReadDir, graphCall_of_key hp]
    unfold clientReadDir
    cases g.readDir key with
    | error e => rfl
    | ok entries =>
      have hn := FdTable.insertNew_isSome s.table
      dsimp only [clientAnswer]
      rw [exec_bind, exec_get]
      dsimp only
      rw [exec_bind, exec_set]
      dsimp only [exec_pure]
      rw [Shim.table_setLast, FdTable.allocateDir, hn]
      cases s.table.nextVfd.1 <;> rfl
  · split
    · rfl
    · split
      · unfold openReadPayload
        split
        · rw [exec_bind, exec_bind, exec_callGraph, graphReadFile, graphCall_of_key hp]
          unfold clientReadFile
          cases g.readFile key with
          | error e => rfl
          | ok content =>
            dsimp only [clientAnswer, exec_pure]
            rw [exec_bind, exec_allocateVfd, Shim.table_setLast]
            cases s.table.nextVfd.1 <;> rfl
        · rw [exec_bind, exec_pure]
          dsimp only
          rw [exec_bind, exec_allocateVfd]
          cases s.table.nextVfd.1 <;> rfl
      · rfl

/-- An open that does not follow acts on the entry at the key. -/
theorem exec_openRead_nofollow (hp : graphRequestKey roots p = some key) {flags : OpenFlags}
    (hflags : flags.nofollow = true) (s : Shim) :
    (exec (openRead g roots root strict flags p) s).1 =
      match g.stat key with
      | .ok vstat =>
        if vstat.isSymlink then .error .eloop else entryOpen g strict flags key vstat s.table
      | .error e => .error (graphFailureErrno strict e.failure) := by
  unfold openRead
  rw [if_pos hflags, exec_bind, exec_callGraph, graphStat, graphCall_of_key hp]
  unfold clientStat
  cases g.stat key with
  | error e => rfl
  | ok vstat =>
    dsimp only
    split
    · rfl
    · rw [exec_openResolved hp, Shim.table_setLast]

end Outcomes

/-! ## Following all components but the last -/

section Walk

variable {g : ContentProvider} {roots : List Bytes} {root : Bytes}

/-- What is pending goes on at the directory where a walk ends. -/
theorem keyWalkWith_append {rest : List VfsName} (hne : rest ≠ [])
    {onLink : VfsPath → VfsName → List VfsName → Except GraphPathError (VfsPath × VirtualStat)}
    {r : VfsPath × VirtualStat} (hdir : r.2.isDir = true)
    (hon : ∀ here n ms, onLink here n ms = .ok r →
      ∃ onLink', onLink here n (ms ++ rest) = keyWalkWith g onLink' r.1 rest)
    {ms : List VfsName} {here : VfsPath} (h : keyWalkWith g onLink here ms = .ok r) :
    ∃ onLink', keyWalkWith g onLink here (ms ++ rest) = keyWalkWith g onLink' r.1 rest := by
  induction ms generalizing here with
  | nil => cases h
  | cons n ms ih =>
    rw [keyWalkWith] at h
    cases hs : g.stat (here.join n) with
    | error e =>
      rw [hs] at h
      cases e <;> cases h
    | ok stat =>
      rw [hs] at h
      dsimp only at h
      cases hlink : stat.isSymlink with
      | true =>
        rw [hlink, if_pos rfl] at h
        obtain ⟨onLink', hrest⟩ := hon _ _ _ h
        refine ⟨onLink', ?_⟩
        rw [List.cons_append, keyWalkWith, hs]
        simp only [hlink, ↓reduceIte]
        exact hrest
      | false =>
        rw [hlink, if_neg Bool.false_ne_true] at h
        split at h
        · cases h
        · rename_i hnot
          split at h
          · rename_i h0
            cases h
            refine ⟨onLink, ?_⟩
            rw [h0]
            exact keyWalkWith_dir ⟨stat, hs, hdir, hlink⟩ hne
          · rename_i h0
            have hd : stat.isDir = true := by
              cases hd : stat.isDir with
              | true => rfl
              | false => exact absurd ⟨h0, hd⟩ hnot
            obtain ⟨onLink', hrest⟩ := ih h
            refine ⟨onLink', ?_⟩
            rw [List.cons_append, keyWalkWith_dir ⟨stat, hs, hd, hlink⟩ (by simp [h0])]
            exact hrest

theorem keyWalk_append {rest : List VfsName} (hne : rest ≠ []) {r : VfsPath × VirtualStat}
    (hdir : r.2.isDir = true) {k : Nat} {ms : List VfsName} {here : VfsPath}
    (h : keyWalk g roots root k here ms = .ok r) :
    ∃ onLink, keyWalk g roots root k here (ms ++ rest) = keyWalkWith g onLink r.1 rest := by
  induction k generalizing ms here with
  | zero =>
    refine keyWalkWith_append hne hdir ?_ h
    intro here n ms hok
    cases hok
  | succ k ih =>
    refine keyWalkWith_append hne hdir ?_ h
    intro here n ms hok
    cases hkey : linkKey g roots root here n with
    | error e =>
      rw [hkey] at hok
      cases hok
    | ok target =>
      rw [hkey] at hok
      dsimp only at hok ⊢
      rw [← List.append_assoc]
      split at hok
      · -- The target is the root and nothing was pending.
        rename_i h0
        unfold rootAnswer at hok
        split at hok
        · cases hok
          obtain ⟨onLink, hwalk⟩ := keyWalk_eq_with g roots root k
          refine ⟨onLink, ?_⟩
          rw [h0, List.nil_append, if_neg hne, hwalk]
        · cases hok
      · rename_i h0
        rw [if_neg fun h => h0 (List.append_eq_nil_iff.mp h).1]
        exact ih hok

/-- Following the links of `d` ends at the directory `d'`. -/
def EndsAt (g : ContentProvider) (roots : List Bytes) (root : Bytes) (d d' : VfsPath) : Prop :=
  d = .root ∧ d' = .root ∨
    ∃ stat, keyWalk g roots root 40 .root d.names = .ok (d', stat) ∧ stat.isDir = true

/-- A path names the entry that all components but the last lead to. -/
theorem EndsAt.keyWalk {d d' : VfsPath} (h : EndsAt g roots root d d') (n : VfsName) :
    ∃ onLink, keyWalk g roots root 40 .root (d.join n).names = keyWalkWith g onLink d' [n] := by
  rw [VfsPath.names_join]
  rcases h with ⟨rfl, rfl⟩ | ⟨stat, hwalk, hdir⟩
  · obtain ⟨onLink, hwith⟩ := keyWalk_eq_with g roots root 40
    exact ⟨onLink, by rw [hwith]; rfl⟩
  · exact keyWalk_append (by simp) hdir hwalk

/-- Nothing is held below a link. -/
theorem EndsAt.eq_of_held {d d' : VfsPath} (hf : Founded g) (h : EndsAt g roots root d d')
    {n : VfsName} (hheld : Held g (d.join n)) : d' = d := by
  rcases h with ⟨rfl, rfl⟩ | ⟨stat, hwalk, -⟩
  · rfl
  · rcases VfsPath.root_or_join d with rfl | ⟨q, m, rfl⟩
    · obtain ⟨onLink, hwith⟩ := keyWalk_eq_with g roots root 40
      rw [hwith] at hwalk
      cases hwalk
    · obtain ⟨dstat, hs, -, hlink⟩ := hf (q.join m) n hheld
      obtain ⟨onLink, hwith⟩ := keyWalk_eq_with g roots root 40
      have hm : Held g ((q.names.foldl VfsPath.join .root).join m) := by
        rw [VfsPath.foldl_names]
        intro s hnone
        rw [hs] at hnone
        cases hnone
      rw [hwith, VfsPath.names_join, hf.keyWalkWith_held _ _ hm, VfsPath.foldl_names, keyWalkWith,
        hs] at hwalk
      simp only [hlink, Bool.false_eq_true, ↓reduceIte, ne_eq, not_true_eq_false, false_and] at hwalk
      cases hwalk
      rfl

end Walk

section Follow

variable {g : ContentProvider} {roots : List Bytes} {root : Bytes} {strict : Bool} {p : Bytes}
  {d d' : VfsPath} {n : VfsName} {s : Shim} {vstat : VirtualStat}

theorem exec_graphStatFollow {key : VfsPath} (hp : graphRequestKey roots p = some key) (s : Shim) :
    exec (graphStatFollow g roots root p) s =
      (.ok (exec (resolveGraphPath (daemonOracle g roots) roots root key) s.resolver).1,
        { s with resolver :=
          (exec (resolveGraphPath (daemonOracle g roots) roots root key) s.resolver).2 }) := by
  have hkey : workspaceGraphKeyFromRoots p roots = .ok key := Except.toOption_eq_some.mp hp
  unfold graphStatFollow
  rw [hkey]
  rfl

theorem exec_stat {key : VfsPath} (hp : graphRequestKey roots p = some key) (s : Shim) :
    (exec (stat g roots root strict p) s).1 =
      match exec (resolveGraphPath (daemonOracle g roots) roots root key) s.resolver with
      | (.ok (resolved, vstat), _) => .ok (fillStatBuf vstat resolved)
      | (.error e, r) => .error (graphPathErrno strict r.asked.oracle.failure e) := by
  unfold stat
  rw [exec_bind, exec_graphStatFollow hp]
  rcases exec (resolveGraphPath (daemonOracle g roots) roots root key) s.resolver with ⟨_ | _, _⟩ <;>
    rfl

theorem exec_openRead_follow {key : VfsPath} (hp : graphRequestKey roots p = some key)
    {flags : OpenFlags} (hflags : flags.nofollow = false) (s : Shim) :
    (exec (openRead g roots root strict flags p) s).1 =
      match exec (resolveGraphPath (daemonOracle g roots) roots root key) s.resolver with
      | (.ok found, r) =>
        (exec (openResolved g roots strict flags (.ok found)) { s with resolver := r }).1
      | (.error e, r) => .error (graphPathErrno strict r.asked.oracle.failure e) := by
  unfold openRead
  rw [if_neg (by simp [hflags]), exec_bind, exec_graphStatFollow hp]
  rcases exec (resolveGraphPath (daemonOracle g roots) roots root key) s.resolver with ⟨_ | _, _⟩ <;>
    rfl

section Ends

variable (hf : Founded g) (hm : MapsBack roots root) (hends : EndsAt g roots root d d')
  (hc : s.resolver.cache.Holds (FactTrue g))

include hf hm hends hc

theorem resolve_present (hs : g.stat (d'.join n) = .ok vstat) (hlink : vstat.isSymlink = false) :
    (exec (resolveGraphPath (daemonOracle g roots) roots root (d.join n)) s.resolver).1 =
      .ok (hostPath root (d'.join n), vstat) := by
  obtain ⟨onLink, hwalk⟩ := hends.keyWalk n
  rw [resolve_serves hf (serves_daemonOracle hm) (VfsPath.join_ne_root _ _) _ hc, hwalk, keyWalkWith,
    hs]
  simp [hlink, hostResult, Except.map]

theorem resolve_absent {text : String} (hs : g.stat (d'.join n) = .error (.notFound text)) :
    (exec (resolveGraphPath (daemonOracle g roots) roots root (d.join n)) s.resolver).1 =
      .error .missingFinal := by
  obtain ⟨onLink, hwalk⟩ := hends.keyWalk n
  rw [resolve_serves hf (serves_daemonOracle hm) (VfsPath.join_ne_root _ _) _ hc, hwalk, keyWalkWith,
    hs]
  rfl

end Ends

/-- A refused question ends the resolution, and leaves its class behind. -/
theorem resolve_refused (hm : MapsBack roots root) {e : VfsError}
    (hs : g.stat (d.join n) = .error e) (hne : ∀ text, e ≠ .notFound text) (r : Resolver LastCall) :
    ∃ r', exec (resolveGraphPath (daemonOracle g roots) roots root (d.join n)) r =
      (.error .authority, r') ∧ r'.asked.oracle.failure = e.failure := by
  have hstat : (daemonOracle g roots).stat (hostPath root (d.join n)) r.asked.oracle =
      (.unavailable, ⟨e.failure, g.version⟩) := by
    simp only [daemonOracle, graphStat, graphCall_of_key (hm _), clientStat, hs]
    cases e
    case notFound text => exact absurd rfl (hne text)
    all_goals rfl
  unfold resolveGraphPath
  rw [VfsPath.isRoot_join, if_neg Bool.false_ne_true, exec_bind, exec_ask, exec_askStat,
    ← hostPath_join, hstat]
  refine ⟨_, rfl, ?_⟩
  show ((daemonOracle g roots).stat (hostPath root (d.join n)) r.asked.oracle).2.failure = _
  rw [hstat]

end Follow

/-! ## The two kinds of hooks -/

/-- The no-follow hooks on `p` act on the entry `e`, and where that is no symlink they agree with the
hooks that follow. -/
structure NoFollowAgrees (g : ContentProvider) (roots : List Bytes) (root : Bytes) (strict : Bool)
    (p : Bytes) (e : VfsPath) (s : Shim) : Prop where
  lstat : (exec (lstat g roots strict p) s).1 = (exec (lstat g roots strict (hostPath root e)) s).1
  fstatat : (exec (fstatat g roots root strict true p) s).1 =
    (exec (fstatat g roots root strict true (hostPath root e)) s).1
  openRead : ∀ flags : OpenFlags, flags.nofollow = true →
    (exec (openRead g roots root strict flags p) s).1 =
      (exec (openRead g roots root strict flags (hostPath root e)) s).1
  readlink : ∀ bufsiz, (exec (readlink g roots strict p bufsiz) s).1 =
    (exec (readlink g roots strict (hostPath root e) bufsiz) s).1
  attributes : (∀ vstat, g.stat e = .ok vstat → vstat.isSymlink = false) →
    (exec (KinVfs.lstat g roots strict p) s).1 = (exec (stat g roots root strict p) s).1
  opens : (∀ vstat, g.stat e = .ok vstat → vstat.isSymlink = false) →
    ∀ flags : OpenFlags, flags.nofollow = false →
      ((∃ fd, (exec (KinVfs.openRead g roots root strict { flags with nofollow := true } p) s).1 =
        .ok fd) ↔ ∃ fd, (exec (KinVfs.openRead g roots root strict flags p) s).1 = .ok fd)

section Tree

variable {tree : CachedTree} {fetch : Hash256 → Nat → VfsPath → VfsResult Bytes}

/-- A snapshot does not hold a path, or refuses a repository boundary. -/
theorem stat_error_cases {key : VfsPath} {e : VfsError} (h : (tree.provider fetch).stat key = .error e) :
    (∃ text, e = .notFound text) ∨ ∃ text, e = .unsupportedRepositoryBoundary text := by
  have hs : tree.statPath key = .error e := h
  unfold CachedTree.statPath at hs
  split at hs
  · unfold CachedTree.statForEntry at hs
    split at hs
    · cases hs
    · cases hs
    · cases hs
      exact .inr ⟨_, rfl⟩
  · split at hs
    · cases hs
    · cases hs
      exact .inl ⟨_, rfl⟩

/-- What is not there has no target. -/
theorem readLink_absent {key : VfsPath} {text : String}
    (h : (tree.provider fetch).stat key = .error (.notFound text)) :
    ∃ text, (tree.provider fetch).readLink key = .error (.notFound text) := by
  have hs : tree.statPath key = .error (.notFound text) := h
  have hnone : tree.byPath[key]? = none ∧ tree.directories[key]? = none := by
    unfold CachedTree.statPath at hs
    split at hs
    · unfold CachedTree.statForEntry at hs
      split at hs <;> cases hs
    · rename_i hp
      split at hs
      · cases hs
      · rename_i hd
        exact ⟨hp, hd⟩
  have hdir : tree.isDir key = false := by
    simp [CachedTree.isDir, Std.ExtTreeMap.mem_iff_isSome_getElem?, hnone.2]
  refine ⟨key.display, ?_⟩
  show tree.readLink fetch key = _
  unfold CachedTree.readLink CachedTree.requireArtifact
  rw [hnone.1, hdir]
  rfl

end Tree

section Agree

variable {g : ContentProvider} {roots : List Bytes} {root : Bytes} {strict : Bool} {p : Bytes}
  {d d' : VfsPath} {n : VfsName} {s : Shim}

/-- Where there is no entry, all hooks report a miss. -/
theorem nofollow_agrees_absent (hf : Founded g) (hm : MapsBack roots root)
    (hp : graphRequestKey roots p = some (d.join n)) (hends : EndsAt g roots root d d')
    (hc : s.resolver.cache.Holds (FactTrue g))
    (hlinks : ∀ key text, g.stat key = .error (.notFound text) →
      ∃ text, g.readLink key = .error (.notFound text))
    {text : String} (he : g.stat (d'.join n) = .error (.notFound text)) :
    NoFollowAgrees g roots root strict p (d'.join n) s := by
  obtain ⟨text', hhere⟩ : ∃ text', g.stat (d.join n) = .error (.notFound text') := by
    by_contra hheld
    have hsame : d' = d := hends.eq_of_held hf fun text h => hheld ⟨text, h⟩
    rw [hsame] at he
    exact hheld ⟨text, he⟩
  obtain ⟨t₁, hlink⟩ := hlinks _ _ he
  obtain ⟨t₂, hlink'⟩ := hlinks _ _ hhere
  have hmiss := resolve_absent hf hm hends hc he
  rcases hr : exec (resolveGraphPath (daemonOracle g roots) roots root (d.join n)) s.resolver
    with ⟨out, r⟩
  rw [hr] at hmiss
  dsimp only at hmiss
  subst hmiss
  constructor
  · rw [exec_lstat hp, exec_lstat (hm _), entryStat, entryStat, he, hhere]
    rfl
  · rw [exec_fstatat_nofollow hp, exec_fstatat_nofollow (hm _), entryStat, entryStat, he, hhere]
    rfl
  · intro flags hflags
    rw [exec_openRead_nofollow hp hflags, exec_openRead_nofollow (hm _) hflags, he, hhere]
    rfl
  · intro bufsiz
    rw [exec_readlink hp, exec_readlink (hm _), entryLink, entryLink, hlink, hlink']
    rfl
  · intro _
    rw [exec_lstat hp, exec_stat hp, entryStat, hhere, hr]
    rfl
  · intro _ flags hflags
    rw [exec_openRead_nofollow hp rfl, exec_openRead_follow hp hflags, hhere, hr]
    constructor <;> (rintro ⟨fd, hfd⟩; cases hfd)

/-- Where no link is passed, all hooks ask about the same key. -/
theorem nofollow_agrees_here (hf : Founded g) (hm : MapsBack roots root)
    (hp : graphRequestKey roots p = some (d.join n)) (hends : EndsAt g roots root d d)
    (hc : s.resolver.cache.Holds (FactTrue g)) (hheld : Held g (d.join n))
    (hino : ∀ vstat, g.stat (d.join n) = .ok vstat →
      syntheticInode p = syntheticInode (hostPath root (d.join n))) :
    NoFollowAgrees g roots root strict p (d.join n) s := by
  have hstat : entryStat g strict (d.join n) p =
      entryStat g strict (d.join n) (hostPath root (d.join n)) := by
    unfold entryStat
    cases hs : g.stat (d.join n) with
    | error e => rfl
    | ok vstat => simp only [fillStatBuf, hino vstat hs]
  constructor
  · rw [exec_lstat hp, exec_lstat (hm _), hstat]
  · rw [exec_fstatat_nofollow hp, exec_fstatat_nofollow (hm _), hstat]
  · intro flags hflags
    rw [exec_openRead_nofollow hp hflags, exec_openRead_nofollow (hm _) hflags]
  · intro bufsiz
    rw [exec_readlink hp, exec_readlink (hm _)]
  · intro hnolink
    rw [exec_lstat hp, exec_stat hp, hstat, entryStat]
    cases hs : g.stat (d.join n) with
    | ok vstat =>
      have hr := resolve_present hf hm hends hc hs (hnolink vstat hs)
      rcases hx : exec (resolveGraphPath (daemonOracle g roots) roots root (d.join n)) s.resolver
        with ⟨out, r⟩
      rw [hx] at hr
      cases hr
      rfl
    | error e =>
      obtain ⟨r, hr, hfail⟩ := resolve_refused hm hs (fun text h => hheld text (h ▸ hs)) s.resolver
      rw [hr]
      show Except.error _ = Except.error (graphFailureErrno strict _)
      rw [hfail]
  · intro hnolink flags hflags
    rw [exec_openRead_nofollow hp rfl, exec_openRead_follow hp hflags]
    cases hs : g.stat (d.join n) with
    | ok vstat =>
      have hr := resolve_present hf hm hends hc hs (hnolink vstat hs)
      rcases hx : exec (resolveGraphPath (daemonOracle g roots) roots root (d.join n)) s.resolver
        with ⟨out, r⟩
      rw [hx] at hr
      cases hr
      dsimp only
      rw [hnolink vstat hs, if_neg Bool.false_ne_true, exec_openResolved (hm _)]
      exact Iff.rfl
    | error e =>
      obtain ⟨r, hr, -⟩ := resolve_refused hm hs (fun text h => hheld text (h ▸ hs)) s.resolver
      rw [hr]
      constructor <;> (rintro ⟨fd, hfd⟩; cases hfd)

end Agree

/-- The no-follow hooks act on the entry that all components but the last lead to exactly when there is
none, or no link was passed and the spelling gives the inode number of the entry. -/
theorem nofollow_agrees_iff {tree : CachedTree} (ha : Accepted tree)
    (fetch : Hash256 → Nat → VfsPath → VfsResult Bytes) {roots : List Bytes} {root : Bytes}
    (hm : MapsBack roots root) (strict : Bool) {p : Bytes} {d d' : VfsPath} {n : VfsName}
    (hp : graphRequestKey roots p = some (d.join n))
    (hends : EndsAt (tree.provider fetch) roots root d d') {s : Shim}
    (hc : s.resolver.cache.Holds (FactTrue (tree.provider fetch))) :
    NoFollowAgrees (tree.provider fetch) roots root strict p (d'.join n) s ↔
      (∃ text, tree.statPath (d'.join n) = .error (.notFound text)) ∨
        d' = d ∧ ∀ vstat, tree.statPath (d'.join n) = .ok vstat →
          syntheticInode p = syntheticInode (hostPath root (d'.join n)) := by
  have hf : Founded (tree.provider fetch) := founded_of_accepted ha
  constructor
  · intro h
    by_cases hheld : ∃ text, (tree.provider fetch).stat (d'.join n) = .error (.notFound text)
    · exact .inl hheld
    · right
      have hlstat := h.lstat
      rw [exec_lstat hp, exec_lstat (hm _), entryStat, entryStat] at hlstat
      have hsame : d' = d := by
        by_contra hne
        obtain ⟨text, hhere⟩ : ∃ text, (tree.provider fetch).stat (d.join n) = .error (.notFound text) := by
          by_contra hnone
          exact hne (hends.eq_of_held hf fun text ht => hnone ⟨text, ht⟩)
        rw [hhere] at hlstat
        cases hs : (tree.provider fetch).stat (d'.join n) with
        | ok vstat =>
          rw [hs] at hlstat
          cases hlstat
        | error e =>
          rw [hs] at hlstat
          rcases stat_error_cases hs with ⟨text, rfl⟩ | ⟨text, rfl⟩
          · exact hheld ⟨text, hs⟩
          · cases strict <;> cases hlstat
      subst hsame
      refine ⟨rfl, fun vstat hs => ?_⟩
      have hs' : (tree.provider fetch).stat (d'.join n) = .ok vstat := hs
      rw [hs'] at hlstat
      exact congrArg StatBuf.ino (Except.ok.inj hlstat)
  · rintro (⟨text, he⟩ | ⟨rfl, hino⟩)
    · exact nofollow_agrees_absent hf hm hp hends hc (fun _ _ => readLink_absent) he
    · by_cases hheld : ∃ text, (tree.provider fetch).stat (d'.join n) = .error (.notFound text)
      · obtain ⟨text, he⟩ := hheld
        exact nofollow_agrees_absent hf hm hp hends hc (fun _ _ => readLink_absent) he
      · exact nofollow_agrees_here hf hm hp hends hc (fun text h => hheld ⟨text, h⟩) hino

namespace Sample

/-- A process that has not asked anything. -/
def freshShim : Shim :=
  ⟨⟨Asked.init ⟨.none, 0⟩, StatCache.new StatCache.defaultCapacity⟩, FdTable.new 10000⟩

/-- The directory `d`, and the name `f`. -/
def directory : VfsPath := d

def fileName : VfsName := ⟨[102], rfl⟩

/-- Where the walks of `l` and `d` end, and what is at `d/f`. -/
def linkedEnds (tree : CachedTree) :
    Option (VfsPath × VirtualStat) × Option (VfsPath × VirtualStat) × Option VirtualStat :=
  ((keyWalk (tree.provider twoBlobs) [workspace] workspace 40 .root link.names).toOption,
    (keyWalk (tree.provider twoBlobs) [workspace] workspace 40 .root directory.names).toOption,
    (tree.statPath (directory.join fileName)).toOption)

theorem linkedTree_ends :
    (CachedTree.fromSnapshot linkedCodec linkedSnapshot).toOption.map linkedEnds =
      some (some (directory, .directory 1), some (directory, .directory 1),
        some (.regularFile 1 hashA false 0)) := by
  decide +kernel

end Sample

/-- `/w/d/f`, where no link is passed. -/
theorem nofollow_agrees_iff_direct :
    ∃ tree, CachedTree.fromSnapshot Sample.linkedCodec Sample.linkedSnapshot = .ok tree ∧
      NoFollowAgrees (tree.provider Sample.twoBlobs) [Sample.workspace] Sample.workspace false
        (hostPath Sample.workspace (Sample.directory.join Sample.fileName))
        (Sample.directory.join Sample.fileName) Sample.freshShim := by
  obtain ⟨tree, hf, -, -⟩ := Sample.linkedTree_ok
  have hends := Sample.linkedTree_ends
  rw [hf] at hends
  obtain ⟨-, hends⟩ := Prod.mk.inj (Option.some.inj hends)
  obtain ⟨hd, -⟩ := Prod.mk.inj hends
  have hroot : hostComponents Sample.workspace = .ok (none, [[119]]) := by decide
  have hm : MapsBack [Sample.workspace] Sample.workspace := mapsBack_single hroot
  refine ⟨tree, hf, ?_⟩
  refine (nofollow_agrees_iff (accepted_of_fromSnapshot hf) Sample.twoBlobs hm false (hm _)
    (.inr ⟨_, Except.toOption_eq_some.mp hd, rfl⟩) (StatCache.holds_new _)).mpr ?_
  exact .inr ⟨rfl, fun _ _ => rfl⟩

/-- `/w/l/f`, through the link `l` to `d`: `stat` gives the file `d/f`, and `lstat` finds nothing. -/
theorem nofollow_disagrees_linked :
    ∃ tree, CachedTree.fromSnapshot Sample.linkedCodec Sample.linkedSnapshot = .ok tree ∧
      EndsAt (tree.provider Sample.twoBlobs) [Sample.workspace] Sample.workspace Sample.link
        Sample.directory ∧
      (exec (stat (tree.provider Sample.twoBlobs) [Sample.workspace] Sample.workspace false
        (hostPath Sample.workspace (Sample.link.join Sample.fileName))) Sample.freshShim).1 =
          .ok (fillStatBuf (.regularFile 1 Sample.hashA false 0)
            (hostPath Sample.workspace (Sample.directory.join Sample.fileName))) ∧
      (exec (lstat (tree.provider Sample.twoBlobs) [Sample.workspace] false
        (hostPath Sample.workspace (Sample.link.join Sample.fileName))) Sample.freshShim).1 =
          .error .enoent ∧
      ¬ NoFollowAgrees (tree.provider Sample.twoBlobs) [Sample.workspace] Sample.workspace false
        (hostPath Sample.workspace (Sample.link.join Sample.fileName))
        (Sample.directory.join Sample.fileName) Sample.freshShim := by
  obtain ⟨tree, hf, -, -⟩ := Sample.linkedTree_ok
  have hends := Sample.linkedTree_ends
  rw [hf] at hends
  obtain ⟨hl, hends⟩ := Prod.mk.inj (Option.some.inj hends)
  obtain ⟨-, hfile⟩ := Prod.mk.inj hends
  have hroot : hostComponents Sample.workspace = .ok (none, [[119]]) := by decide
  have hm : MapsBack [Sample.workspace] Sample.workspace := mapsBack_single hroot
  have hfound : Founded (tree.provider Sample.twoBlobs) :=
    founded_of_accepted (accepted_of_fromSnapshot hf)
  have hends : EndsAt (tree.provider Sample.twoBlobs) [Sample.workspace] Sample.workspace Sample.link
      Sample.directory := .inr ⟨_, Except.toOption_eq_some.mp hl, rfl⟩
  have hstat : (tree.provider Sample.twoBlobs).stat (Sample.directory.join Sample.fileName) =
      .ok (.regularFile 1 Sample.hashA false 0) := Except.toOption_eq_some.mp hfile
  have hcache : Sample.freshShim.resolver.cache.Holds (FactTrue (tree.provider Sample.twoBlobs)) :=
    StatCache.holds_new _
  have hfollow := resolve_present hfound hm hends hcache hstat rfl
  have hok : (exec (stat (tree.provider Sample.twoBlobs) [Sample.workspace] Sample.workspace false
      (hostPath Sample.workspace (Sample.link.join Sample.fileName))) Sample.freshShim).1 =
        .ok (fillStatBuf (.regularFile 1 Sample.hashA false 0)
          (hostPath Sample.workspace (Sample.directory.join Sample.fileName))) := by
    rw [exec_stat (hm _)]
    rcases hx : exec (resolveGraphPath (daemonOracle (tree.provider Sample.twoBlobs)
      [Sample.workspace]) [Sample.workspace] Sample.workspace (Sample.link.join Sample.fileName))
      Sample.freshShim.resolver with ⟨out, r⟩
    rw [hx] at hfollow
    cases hfollow
    rfl
  obtain ⟨text, hnone⟩ : ∃ text, (tree.provider Sample.twoBlobs).stat
      (Sample.link.join Sample.fileName) = .error (.notFound text) := by
    by_contra hheld
    have hsame : Sample.directory = Sample.link :=
      hends.eq_of_held hfound fun text h => hheld ⟨text, h⟩
    exact absurd hsame (by decide)
  have hmiss : (exec (lstat (tree.provider Sample.twoBlobs) [Sample.workspace] false
      (hostPath Sample.workspace (Sample.link.join Sample.fileName))) Sample.freshShim).1 =
        .error .enoent := by
    rw [exec_lstat (hm _), entryStat, hnone]
    rfl
  refine ⟨tree, hf, hends, hok, hmiss, fun h => ?_⟩
  have hsame := h.attributes fun vstat hs => by
    rw [hstat] at hs
    cases hs
    rfl
  rw [hok, hmiss] at hsame
  cases hsame

end KinVfs
