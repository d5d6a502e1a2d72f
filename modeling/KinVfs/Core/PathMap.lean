import KinVfs.Core.Path

/-!
# Host paths and graph keys (`crates/kin-vfs-core/src/pathmap.rs`)

`workspaceGraphKey` maps an absolute host path to the repo-relative key the graph stores, or says
why it has none. A root that is given by its components maps its own paths back:
`workspaceGraphKey_joinAtPath`.
-/

namespace KinVfs

/-- Why a host path has no graph key. -/
inductive WorkspacePathError where
  | notAbsolute
  | outsideRoot
  | parentTraversal
  | aliasAmbiguity
  | invalidPath
  deriving DecidableEq, Repr

/-- `u8::to_ascii_lowercase`. -/
def asciiLowercase (b : UInt8) : UInt8 := if 65 ≤ b ∧ b ≤ 90 then b + 32 else b

/-- `eq_ignore_ascii_case`. -/
def eqIgnoreAsciiCase (xs ys : Bytes) : Bool := xs.map asciiLowercase == ys.map asciiLowercase

/-- One turn of the loop in `components`. -/
def pushComponent (result : List Bytes) (component : Bytes) :
    Except WorkspacePathError (List Bytes) :=
  if component = [] ∨ component = [dot] then .ok result
  else if component = [dot, dot] then .error .parentTraversal
  else if component.contains 0 then .error .invalidPath
  else .ok (result ++ [component])

/-- The drive (`X:`) and the components of an absolute path. -/
def hostComponents (input : Bytes) : Except WorkspacePathError (Option Bytes × List Bytes) :=
  if input.head? = some slash then do
    return (none, ← (input.splitOn slash).foldlM pushComponent [])
  else if input[1]? = some 58 ∧ input[2]? = some slash then do
    return (some (input.take 2), ← ((input.drop 2).splitOn slash).foldlM pushComponent [])
  else .error .notAbsolute

def samePrefix : Option Bytes → Option Bytes → Bool
  | some path, some root => eqIgnoreAsciiCase path root
  | none, none => true
  | _, _ => false

/-- Drive paths compare without case. -/
def rootMatches (drive : Option Bytes) (path root : List Bytes) : Bool :=
  if drive.isSome then (path.zip root).all fun c => eqIgnoreAsciiCase c.1 c.2
  else root.isPrefixOf path

def workspaceGraphKey (path root : Bytes) : Except WorkspacePathError VfsPath := do
  let (pathPrefix, pathComponents) ← hostComponents path
  let (rootPrefix, rootComponents) ← hostComponents root
  if !samePrefix pathPrefix rootPrefix then throw .outsideRoot
  if pathComponents.length < rootComponents.length ∨
      !rootMatches pathPrefix pathComponents rootComponents then throw .outsideRoot
  (VfsPath.fromBytes (joinComponents (pathComponents.drop rootComponents.length))).mapError
    fun _ => .invalidPath

/-- One turn of the loop over the roots: the key so far, and whether a root or the path was not
absolute. -/
def tryRoot (path : Bytes) (found : Option VfsPath × Bool) (root : Bytes) :
    Except WorkspacePathError (Option VfsPath × Bool) :=
  match workspaceGraphKey path root with
  | .ok candidate =>
    if found.1.any (· ≠ candidate) then .error .aliasAmbiguity else .ok (some candidate, found.2)
  | .error .outsideRoot => .ok found
  | .error .notAbsolute => .ok (found.1, true)
  | .error e => .error e

def workspaceGraphKeyFromRoots (path : Bytes) (roots : List Bytes) :
    Except WorkspacePathError VfsPath := do
  match ← roots.foldlM (tryRoot path) (none, false) with
  | (some key, _) => return key
  | (none, sawNotAbsolute) => throw (if sawNotAbsolute then .notAbsolute else .outsideRoot)

/-- An absolute `rel` stands for itself. -/
def joinAtPath (base rel : Bytes) : Bytes :=
  if rel.head? = some slash then rel else base ++ slash :: rel

/-- `{target}.kin_tmp_{pid}`. -/
def atomicTempPath (target : Bytes) (pid : Int) : Bytes :=
  target ++ (".kin_tmp_" ++ toString pid).toUTF8.toList

/-- FNV-1a over the bytes. -/
def syntheticInode (bytes : Bytes) : UInt64 :=
  bytes.foldl (fun hash byte => (hash ^^^ byte.toUInt64) * 0x100000001b3) 0xcbf29ce484222325

/-- The bytes of `.kin_tmp_`. -/
def tempMarker : Bytes := [46, 107, 105, 110, 95, 116, 109, 112, 95]

/-- Some window of the path is the marker. -/
def isInterposeTempArtifact (path : Bytes) : Bool := path.tails.any tempMarker.isPrefixOf

/-! ## The components of a joined path -/

/-- Names that are neither dropped nor refused. -/
def PlainNames (cs : List Bytes) : Prop := ∀ c ∈ cs, validateComponent c = .ok ()

theorem pushComponent_plain {acc : List Bytes} {c : Bytes} (h : validateComponent c = .ok ()) :
    pushComponent acc c = .ok (acc ++ [c]) := by
  obtain ⟨h1, h2, h3, h4⟩ := validateComponent_ok.mp h
  unfold pushComponent
  rw [if_neg (by simp [h1, h2]), if_neg h3, if_neg (by simpa using h4)]

theorem foldlM_pushComponent {cs acc : List Bytes} (h : PlainNames cs) :
    cs.foldlM pushComponent acc = .ok (acc ++ cs) := by
  induction cs generalizing acc with
  | nil => simp [pure, Except.pure]
  | cons c cs ih =>
    rw [List.foldlM_cons, pushComponent_plain (h c (by simp))]
    show cs.foldlM pushComponent (acc ++ [c]) = _
    rw [ih fun d hd => h d (by simp [hd])]
    simp

theorem VfsPath.plainNames (key : VfsPath) : PlainNames key.components :=
  fun _ hc => (key.isComponent hc).1

/-- The components a key adds. -/
theorem foldlM_key (key : VfsPath) (acc : List Bytes) :
    (key.bytes.splitOn slash).foldlM pushComponent acc = .ok (acc ++ key.components) := by
  by_cases h : key = .root
  · subst h
    show ([[]] : List Bytes).foldlM pushComponent acc = _
    simp [pushComponent, pure, Except.pure, bind, Except.bind]
  · rw [← VfsPath.components_eq_splitOn h]
    exact foldlM_pushComponent key.plainNames

theorem VfsPath.head?_ne_slash (key : VfsPath) : key.bytes.head? ≠ some slash := by
  intro h
  have hv := key.valid
  unfold checkPath at hv
  rw [if_neg (by rintro h0; simp [List.isEmpty_iff.mp h0] at h), if_pos (by simp [h])] at hv
  cases hv

theorem joinAtPath_key (base : Bytes) (key : VfsPath) :
    joinAtPath base key.bytes = base ++ slash :: key.bytes := if_neg key.head?_ne_slash

variable {root : Bytes} {base : List Bytes}

/-- The components of an absolute path of this system. -/
theorem hostComponents_unix :
    hostComponents root = .ok (none, base) ↔
      root.head? = some slash ∧ (root.splitOn slash).foldlM pushComponent [] = .ok base := by
  unfold hostComponents
  by_cases h : root.head? = some slash
  · rw [if_pos h]
    cases hf : (root.splitOn slash).foldlM pushComponent [] with
    | error e => simp [bind, Except.bind]
    | ok cs => simp [bind, Except.bind, pure, Except.pure, h]
  · rw [if_neg h]
    split
    · cases hf : ((root.drop 2).splitOn slash).foldlM pushComponent [] with
      | error e => simp [bind, Except.bind, h]
      | ok cs => simp [bind, Except.bind, pure, Except.pure, h]
    · simp [h]

theorem hostComponents_joinAtPath (h : hostComponents root = .ok (none, base)) (key : VfsPath) :
    hostComponents (joinAtPath root key.bytes) = .ok (none, base ++ key.components) := by
  obtain ⟨hs, hf⟩ := hostComponents_unix.mp h
  rw [joinAtPath_key, hostComponents_unix, List.splitOn_append_cons_self, List.foldlM_append, hf]
  refine ⟨?_, foldlM_key key base⟩
  cases root with
  | nil => cases hs
  | cons b bs => exact hs

theorem workspaceGraphKey_of_components {path : Bytes} {key : VfsPath}
    (hr : hostComponents root = .ok (none, base))
    (hp : hostComponents path = .ok (none, base ++ key.components)) :
    workspaceGraphKey path root = .ok key := by
  have hm : rootMatches none (base ++ key.components) base = true :=
    List.isPrefixOf_iff_prefix.mpr (List.prefix_append base key.components)
  have hk : VfsPath.fromBytes (joinComponents key.components) = .ok key :=
    VfsPath.fromBytes_ok.mpr key.components_spec.2
  unfold workspaceGraphKey
  simp [hp, hr, bind, Except.bind, samePrefix, hm, hk, Except.mapError]

/-- A root maps its own paths back. -/
theorem workspaceGraphKey_joinAtPath (h : hostComponents root = .ok (none, base)) (key : VfsPath) :
    workspaceGraphKey (joinAtPath root key.bytes) root = .ok key :=
  workspaceGraphKey_of_components h (hostComponents_joinAtPath h key)

end KinVfs
