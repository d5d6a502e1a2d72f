import KinVfs.Shim.Client

/-!
# The walk on one snapshot

`keyWalk` is the walk as a function of what a provider answers: it stands at a key, has names
pending, and may follow so many more links. When the oracle answers for that provider (`Serves`),
`followSymlinkedPath` is `keyWalk`, whatever the oracle does besides (`follow_serves`).
-/

namespace KinVfs

open Fallible

/-- The components, as names. -/
def VfsPath.names (key : VfsPath) : List VfsName :=
  key.components.attach.map fun c => ⟨c.1, checkName_ok.mpr (key.isComponent c.2)⟩

theorem VfsPath.map_names (key : VfsPath) : key.names.map (·.bytes) = key.components := by
  unfold names
  rw [List.map_map]
  exact List.attach_map_subtype_val _

@[simp] theorem VfsPath.names_root : VfsPath.root.names = [] := rfl

theorem VfsName.map_bytes_inj {xs ys : List VfsName} (h : xs.map (·.bytes) = ys.map (·.bytes)) :
    xs = ys :=
  List.map_injective_iff.mpr (fun _ _ => VfsName.ext) h

@[simp] theorem VfsPath.names_join (key : VfsPath) (n : VfsName) :
    (key.join n).names = key.names ++ [n] := by
  apply VfsName.map_bytes_inj
  simp [map_names]

theorem VfsPath.names_eq_nil {key : VfsPath} : key.names = [] ↔ key = .root := by
  rw [← components_eq_nil, ← map_names, List.map_eq_nil_iff]

theorem VfsPath.foldl_names (key : VfsPath) : key.names.foldl VfsPath.join .root = key := by
  induction key using VfsPath.induct with
  | hroot => rfl
  | hjoin p n ih => rw [names_join, List.foldl_append, ih]; rfl

/-- What the daemon answers about `key`. -/
def ContentProvider.probe (g : ContentProvider) (generation : Nat) (key : VfsPath) : StatProbe :=
  match g.stat key with
  | .ok stat => .present stat generation
  | .error (.notFound _) => .absent generation
  | .error _ => .unavailable

section Walk

variable (g : ContentProvider) (roots : List Bytes) (root : Bytes)

/-- The answer about the workspace root. -/
def rootAnswer : Except GraphPathError (VfsPath × VirtualStat) :=
  match g.stat .root with
  | .ok stat => .ok (.root, stat)
  | .error _ => .error .authority

/-- Walk `names` from `here`; `onLink` continues at a link in `here`. -/
def keyWalkWith
    (onLink : VfsPath → VfsName → List VfsName → Except GraphPathError (VfsPath × VirtualStat)) :
    VfsPath → List VfsName → Except GraphPathError (VfsPath × VirtualStat)
  | _, [] => .error .authority
  | here, n :: rest =>
    match g.stat (here.join n) with
    | .error (.notFound _) => .error (if rest = [] then .missingFinal else .missingPrefix)
    | .error _ => .error .authority
    | .ok stat =>
      if stat.isSymlink then onLink here n rest
      else if rest ≠ [] ∧ stat.isDir = false then .error .notDirectory
      else if rest = [] then .ok (here.join n, stat)
      else keyWalkWith onLink (here.join n) rest

/-- The key that the link `n` in `here` maps to. -/
def linkKey (here : VfsPath) (n : VfsName) : Except GraphPathError VfsPath :=
  match g.readLink (here.join n) with
  | .error _ => .error .authority
  | .ok target => targetKey roots (hostPath root here) target

/-- The walk that may follow `k` more links. -/
def keyWalk : Nat → VfsPath → List VfsName → Except GraphPathError (VfsPath × VirtualStat)
  | 0 => keyWalkWith g fun _ _ _ => .error .symlinkLoop
  | k + 1 => keyWalkWith g fun here n rest =>
    match linkKey g roots root here n with
    | .error e => .error e
    | .ok target =>
      if target.names ++ rest = [] then rootAnswer g
      else keyWalk k .root (target.names ++ rest)

/-- Up to the first link, the number of links left does not matter. -/
theorem keyWalk_eq_with (k : Nat) :
    ∃ onLink, keyWalk g roots root k = keyWalkWith g onLink := by
  cases k with
  | zero => exact ⟨_, rfl⟩
  | succ k => exact ⟨_, rfl⟩

/-- The source's result: the host path of the key, and its attributes. -/
def hostResult (r : VfsPath × VirtualStat) : Bytes × VirtualStat := (hostPath root r.1, r.2)

end Walk

/-- The oracle answers what `g` does, at every time. -/
structure Serves {σ : Type} (oracle : GraphOracle σ) (root : Bytes) (g : ContentProvider) : Prop where
  stat : ∀ key s, ∃ generation, (oracle.stat (hostPath root key) s).1 = g.probe generation key
  readLink : ∀ key s, (oracle.readLink (hostPath root key) s).1 = (g.readLink key).toOption

/-- The daemon's answers are those of its provider. -/
theorem serves_daemonOracle {g : ContentProvider} {roots : List Bytes} {root : Bytes}
    (hm : MapsBack roots root) : Serves (daemonOracle g roots) root g where
  stat key last := by
    refine ⟨g.version, ?_⟩
    simp only [daemonOracle, graphStat, graphCall, hm key, clientStat, ContentProvider.probe]
    cases g.stat key with
    | ok stat => rfl
    | error e => cases e <;> rfl
  readLink key last := by
    simp only [daemonOracle, graphReadLink, graphCall, hm key, clientReadLink]
    cases g.readLink key <;> rfl

section Serves

variable {σ : Type} {oracle : GraphOracle σ} {roots : List Bytes} {root : Bytes}
  {g : ContentProvider}

/-- The loop from `here` with the names of `rest` pending. -/
theorem exec_followTurn_serves (hs : Serves oracle root g) (here : VfsPath) (n : VfsName)
    (rest : List VfsName) (followed : Nat) (s : Asked σ) :
    exec (followTurn oracle roots root
        ⟨n.bytes :: rest.map (·.bytes), hostPath root here, followed⟩) s =
      match g.stat (here.join n) with
      | .error (.notFound _) => (.error (if rest = [] then .missingFinal else .missingPrefix),
          s.stat oracle (hostPath root (here.join n)))
      | .error _ => (.error .authority, s.stat oracle (hostPath root (here.join n)))
      | .ok stat =>
        if stat.isSymlink then
          exec (followLink oracle roots root (hostPath root here) (hostPath root (here.join n))
            (rest.map (·.bytes)) followed) (s.stat oracle (hostPath root (here.join n)))
        else if rest ≠ [] ∧ stat.isDir = false then
          (.error .notDirectory, s.stat oracle (hostPath root (here.join n)))
        else if rest = [] then (.ok (.stop (hostPath root (here.join n), stat)),
          s.stat oracle (hostPath root (here.join n)))
        else (.ok (.again ⟨rest.map (·.bytes), hostPath root (here.join n), followed⟩),
          s.stat oracle (hostPath root (here.join n))) := by
  obtain ⟨generation, hstat⟩ := hs.stat (here.join n) s.oracle
  rw [exec_followTurn_cons, joinAtPath_hostPath, hstat]
  simp only [List.map_eq_nil_iff, ne_eq]
  unfold ContentProvider.probe
  cases g.stat (here.join n) with
  | ok stat => rfl
  | error e => cases e <;> rfl

/-- What the loop does after the outcome of a turn. -/
def followOn (oracle : GraphOracle σ) (roots : List Bytes) (root : Bytes) (w : Walk) (s : Asked σ) :
    Except GraphPathError (Bytes × VirtualStat) × Asked σ :=
  exec (loop (followTurn oracle roots root) Walk.measure followTurn_decreases w) s

theorem followOn_eq (w : Walk) (s : Asked σ) :
    followOn oracle roots root w s =
      Turn.finish (followOn oracle roots root) (exec (followTurn oracle roots root w) s) :=
  exec_loop w s

/-- Between two links, the loop is the walk. -/
theorem followOn_with (hs : Serves oracle root g) {followed : Nat}
    {onLink : VfsPath → VfsName → List VfsName → Except GraphPathError (VfsPath × VirtualStat)}
    (hon : ∀ here n rest s, (Turn.finish (followOn oracle roots root)
      (exec (followLink oracle roots root (hostPath root here) (hostPath root (here.join n))
        (rest.map (·.bytes)) followed) s)).1 = (onLink here n rest).map (hostResult root))
    (names : List VfsName) (here : VfsPath) (s : Asked σ) :
    (followOn oracle roots root ⟨names.map (·.bytes), hostPath root here, followed⟩ s).1 =
      (keyWalkWith g onLink here names).map (hostResult root) := by
  induction names generalizing here s with
  | nil =>
    rw [followOn_eq]
    rfl
  | cons n rest ih =>
    rw [followOn_eq, List.map_cons, exec_followTurn_serves hs, keyWalkWith]
    cases g.stat (here.join n) with
    | error e => cases e <;> rfl
    | ok stat =>
      dsimp only
      split
      · exact hon here n rest _
      · split
        · rfl
        · split
          · rfl
          · exact ih _ _

theorem followOn_serves (hs : Serves oracle root g) {k followed : Nat} (hk : followed + k = 40)
    (names : List VfsName) (here : VfsPath) (s : Asked σ) :
    (followOn oracle roots root ⟨names.map (·.bytes), hostPath root here, followed⟩ s).1 =
      (keyWalk g roots root k here names).map (hostResult root) := by
  induction k generalizing followed names here s with
  | zero =>
    refine followOn_with hs ?_ names here s
    intro here n rest s
    rw [exec_followLink, if_pos (by omega)]
    rfl
  | succ k ih =>
    refine followOn_with hs ?_ names here s
    intro here n rest s
    rw [exec_followLink, if_neg (by omega), hs.readLink]
    unfold linkKey
    cases g.readLink (here.join n) with
    | error e => rfl
    | ok target =>
      dsimp only [Except.toOption]
      cases targetKey roots (hostPath root here) target with
      | error e => rfl
      | ok key =>
        dsimp only
        have hnil : key.components ++ rest.map (·.bytes) = [] ↔ key.names ++ rest = [] := by
          rw [← key.map_names, ← List.map_append, List.map_eq_nil_iff]
        by_cases h0 : key.names ++ rest = []
        · rw [if_pos (hnil.mpr h0), if_pos h0]
          obtain ⟨generation, hroot⟩ := hs.stat .root
            ((s.readLink oracle (hostPath root (here.join n))).redirect key).oracle
          rw [hostPath_root] at hroot
          rw [hroot]
          unfold ContentProvider.probe rootAnswer
          cases g.stat .root with
          | ok stat => rfl
          | error e => cases e <;> rfl
        · rw [if_neg fun h => h0 (hnil.mp h), if_neg h0]
          have hk' : followed + 1 + k = 40 := by omega
          have hnext := ih hk' (key.names ++ rest) .root
            ((s.readLink oracle (hostPath root (here.join n))).redirect key)
          rw [List.map_append, key.map_names, hostPath_root] at hnext
          exact hnext

/-- The walk of the source is the walk on what the oracle serves. -/
theorem follow_serves (hs : Serves oracle root g) (key : VfsPath) (s : Asked σ) :
    (exec (followSymlinkedPath oracle roots root key) s).1 =
      (keyWalk g roots root 40 .root key.names).map (hostResult root) := by
  rw [← followOn_serves hs rfl key.names .root s, key.map_names]
  rfl

end Serves
end KinVfs
