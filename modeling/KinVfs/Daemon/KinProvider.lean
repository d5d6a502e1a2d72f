import KinVfs.Lib.Runs
import KinVfs.Daemon.Admission
import KinVfs.Daemon.Endpoint
import KinVfs.Daemon.TreeContract

/-!
# The provider's tree (`crates/kin-vfs-daemon/src/kin_provider.rs`)

`ensure_tree` refreshes the installed snapshot with one conditional request. Its accesses to the
shared tree are separate lock scopes, so a call is a state machine (`ReadPc`) whose steps other
calls run between: the tag is captured, the answer arrives, and then either a `304` is checked
against the tree of that moment or a validated document is installed under `plan_succession`.

`ProviderSys` is one provider with all the calls on it. A call is entered with
`ProviderLabel.call` and gets the next index as its id. The answers are in the labels, whatever they
say. The endpoint's manifest is the same throughout, and nothing invalidates the tree.
-/

namespace KinVfs

/-! ## The tag -/

/-- `is_visible_ascii` of a header value's bytes. -/
def isVisibleAscii (b : UInt8) : Bool := (32 ≤ b && b < 127) || b == 9

/-- The text between the quotes. -/
def unquote : List Char → Option (List Char)
  | '\x22' :: rest => if rest.getLast? = some '\x22' then some rest.dropLast else none
  | _ => none

/-- The strong validator of the `ETag` header. -/
def parseEtagHeader (header : Option Bytes) : Except String String :=
  match header with
  | none => .error "tree response missing ETag header"
  | some bytes =>
    if bytes.all isVisibleAscii then
      let raw := bytes.map fun b => Char.ofNat b.toNat
      match unquote raw with
      | none =>
        .error ("tree ETag header " ++ Text.debug (String.ofList raw) ++
          " is not a quoted strong validator")
      | some inner =>
        if inner = [] then .error "tree ETag header is empty" else .ok (String.ofList inner)
    else .error "tree ETag header is not visible ASCII"

/-! ## Succession -/

/-- How a validated snapshot relates to the installed one. -/
inductive Succession where
  | install
  | retainCurrent
  deriving DecidableEq, Repr

/-- The workspace clock and the membership of the root may not part. -/
def planRoots (current next : DirectoryMutationIdentity) : Except String Succession :=
  if next.workspaceGeneration < current.workspaceGeneration then
    .error ("tree snapshot workspace generation regressed from " ++
      toString current.workspaceGeneration ++ " to " ++ toString next.workspaceGeneration ++
      " while repository authority advanced")
  else if next.membership ≠ current.membership ∧
      next.workspaceGeneration = current.workspaceGeneration then
    .error ("tree snapshot descendant membership changed at workspace generation " ++
      toString next.workspaceGeneration)
  else .ok .install

/-- Whether `next` may replace `current`. -/
def planSuccession (current : Option CachedTree) (next : CachedTree) : Except String Succession :=
  match current with
  | none => .ok .install
  | some current =>
    if next.binding.repositoryId ≠ current.binding.repositoryId ∨
        next.binding.workspaceId ≠ current.binding.workspaceId then
      .error ("tree snapshot authority identity changed from repository " ++
        current.binding.repositoryId ++ "/workspace " ++ current.binding.workspaceId ++
        " to repository " ++ next.binding.repositoryId ++ "/workspace " ++
        next.binding.workspaceId ++ "; reset the cache or remount explicitly")
    else if current.version < next.version then
      match current.directoryMutation .root, next.directoryMutation .root with
      | some currentRoot, some nextRoot => planRoots currentRoot nextRoot
      -- A panic in the source: no validated snapshot gets here.
      | _, _ => .error "every validated snapshot indexes the root"
    else if next.version = current.version then
      if next.etag = current.etag ∧ next.binding = current.binding then .ok .retainCurrent
      else .error ("conflicting tree snapshots for version " ++ toString next.version ++
        ": etag/authority binding diverged")
    else .ok .retainCurrent

/-! ## One refresh -/

/-- What a provider is set up with. `files` is the local root as it is throughout. -/
structure ProviderScope where
  codec : TreeCodec
  /-- `Display` of a status code. -/
  showStatus : Nat → String
  parseManifest : Bytes → Except String ManifestIdentity
  endpoint : DaemonEndpoint
  files : Local

/-- An answer to `GET /vfs/tree`. The body is what the JSON library makes of it. -/
structure TreeResponse where
  status : Nat
  etag : Option Bytes
  body : Except String WorkspaceTreeSnapshot

namespace ProviderScope

variable (scope : ProviderScope)

def validateTreeIdentity (binding : WorkspaceSnapshotBinding) : Except String Unit :=
  scope.endpoint.validateTreeIdentity scope.parseManifest scope.files binding.repositoryId
    binding.workspaceId

/-- A `200`: the header and the document agree, and the document is valid. -/
def acceptDocument (response : TreeResponse) : Except String CachedTree := do
  let headerEtag ← parseEtagHeader response.etag
  let snapshot ← response.body.mapError ("tree document parse failed: " ++ ·)
  let documentEtag ←
    (scope.codec.identity snapshot).mapError ("tree document validation failed: " ++ ·)
  if documentEtag ≠ headerEtag then
    throw ("tree ETag header " ++ Text.debug headerEtag ++ " does not match document identity " ++
      Text.debug documentEtag)
  scope.validateTreeIdentity snapshot.binding
  CachedTree.fromSnapshot scope.codec snapshot

/-- A `304` for the tag `expectedEtag`, against the tree that is installed now. -/
def confirm (tree : Option CachedTree) (expectedEtag : String) : Except String Unit :=
  match tree with
  | none => .error "tree returned 304 after cache invalidation"
  | some cached =>
    if cached.etag ≠ expectedEtag then .error "tree returned 304 for a superseded cached snapshot"
    else scope.validateTreeIdentity cached.binding

end ProviderScope

/-- Where a call is. After `ensured` it reads the tree once more: a lookup is answered from it,
`version` tells its version. -/
inductive ReadPc where
  | start
  | requested (cachedEtag : Option String)
  | confirming (expectedEtag : String)
  | validated (next : CachedTree)
  | ensured (result : Except String Unit)
  | answered (source : VfsResult CachedTree)
  | told (ignored : Except String Unit) (version : Nat)

/-- `with_tree`, and `version`, which ignores a failed refresh. -/
inductive ReadOp where
  | lookup
  | version
  deriving DecidableEq, Repr

/-- What an answer leads to. -/
def ProviderScope.onAnswer (scope : ProviderScope) (cachedEtag : Option String)
    (answer : Except String TreeResponse) : ReadPc :=
  match answer with
  | .error e => .ensured (.error ("tree request failed: " ++ e))
  | .ok response =>
    if response.status = 304 then
      match cachedEtag with
      | none => .ensured (.error "tree returned 304 without a cached snapshot")
      | some etag => .confirming etag
    else if !isSuccess response.status then
      .ensured (.error ("tree returned status " ++ scope.showStatus response.status))
    else
      match scope.acceptDocument response with
      | .error e => .ensured (.error e)
      | .ok next => .validated next

/-! ## A provider and its calls -/

/-- A call. The last three are history: the versions of the documents it validated, and how many
trees had been installed when it captured its tag and when it checked a `304`. -/
structure ReadCall where
  op : ReadOp
  pc : ReadPc
  documents : List Nat
  captured : Nat
  checked : Nat

/-- A provider. `installed` (with the installing call) and `clock` (what `version` told, in order)
are history. -/
structure ProviderSys where
  tree : Option CachedTree
  calls : List ReadCall
  installed : List (Nat × CachedTree)
  clock : List Nat

inductive ProviderLabel where
  | call (op : ReadOp)
  | capture (i : Nat)
  | receive (i : Nat) (answer : Except String TreeResponse)
  | confirm (i : Nat)
  | install (i : Nat)
  | finish (i : Nat)

namespace ProviderSys

/-- `with_auth`: no tree, no call. -/
def init : ProviderSys := ⟨none, [], [], []⟩

/-- Call `i` is now `c`. -/
def goto (s : ProviderSys) (i : Nat) (c : ReadCall) : ProviderSys :=
  { s with calls := s.calls.set i c }

/-- The tag of the installed tree goes into the request. -/
def stepCapture (s : ProviderSys) (i : Nat) : Option ProviderSys :=
  match s.calls[i]? with
  | some ⟨op, .start, documents, _, checked⟩ =>
    some (s.goto i
      ⟨op, .requested (s.tree.map (·.etag)), documents, s.installed.length, checked⟩)
  | _ => none

/-- The document a call has validated when it gets to `pc`. -/
def documentAt : ReadPc → List Nat
  | .validated next => [next.version]
  | _ => []

def stepReceive (scope : ProviderScope) (s : ProviderSys) (i : Nat)
    (answer : Except String TreeResponse) : Option ProviderSys :=
  match s.calls[i]? with
  | some ⟨op, .requested cachedEtag, documents, captured, checked⟩ =>
    let pc := scope.onAnswer cachedEtag answer
    some (s.goto i ⟨op, pc, documents ++ documentAt pc, captured, checked⟩)
  | _ => none

/-- The version of the document a `304` confirmed. -/
def confirmedVersion (tree : Option CachedTree) : Except String Unit → List Nat
  | .ok () => (tree.map (·.version)).toList
  | .error _ => []

def stepConfirm (scope : ProviderScope) (s : ProviderSys) (i : Nat) : Option ProviderSys :=
  match s.calls[i]? with
  | some ⟨op, .confirming expectedEtag, documents, captured, _⟩ =>
    let result := scope.confirm s.tree expectedEtag
    some (s.goto i ⟨op, .ensured result, documents ++ confirmedVersion s.tree result, captured,
      s.installed.length⟩)
  | _ => none

/-- The comparison and the installation are under one write guard. -/
def stepInstall (s : ProviderSys) (i : Nat) : Option ProviderSys :=
  match s.calls[i]? with
  | some ⟨op, .validated next, documents, captured, checked⟩ =>
    match planSuccession s.tree next with
    | .error e => some (s.goto i ⟨op, .ensured (.error e), documents, captured, checked⟩)
    | .ok .install =>
      some ({ s with tree := some next, installed := s.installed ++ [(i, next)] }.goto i
        ⟨op, .ensured (.ok ()), documents, captured, checked⟩)
    | .ok .retainCurrent => some (s.goto i ⟨op, .ensured (.ok ()), documents, captured, checked⟩)
  | _ => none

/-- `with_tree` reads the tree the lookup is answered from. -/
def lookupSource (tree : Option CachedTree) : Except String Unit → VfsResult CachedTree
  | .error e => .error (.provider e)
  | .ok () =>
    match tree with
    | none => .error (.provider "no cached tree snapshot available")
    | some cached => .ok cached

/-- `version`: zero is the sentinel for no tree. -/
def currentVersion (s : ProviderSys) : Nat := (s.tree.map (·.version)).getD 0

def stepFinish (s : ProviderSys) (i : Nat) : Option ProviderSys :=
  match s.calls[i]? with
  | some ⟨.lookup, .ensured result, documents, captured, checked⟩ =>
    some (s.goto i ⟨.lookup, .answered (lookupSource s.tree result), documents, captured, checked⟩)
  | some ⟨.version, .ensured result, documents, captured, checked⟩ =>
    some ({ s with clock := s.clock ++ [s.currentVersion] }.goto i
      ⟨.version, .told result s.currentVersion, documents, captured, checked⟩)
  | _ => none

def step (scope : ProviderScope) (s : ProviderSys) : ProviderLabel → Option ProviderSys
  | .call op => some { s with calls := s.calls ++ [⟨op, .start, [], 0, 0⟩] }
  | .capture i => s.stepCapture i
  | .receive i answer => s.stepReceive scope i answer
  | .confirm i => s.stepConfirm scope i
  | .install i => s.stepInstall i
  | .finish i => s.stepFinish i

/-- What a step does to the call it is a step of, while the tree stays: from `c` to `c'`, with
`told` added to the clock. -/
inductive Turn (scope : ProviderScope) (s : ProviderSys) : ReadCall → ReadCall → List Nat → Prop
  | capture {op documents captured checked} :
    Turn scope s ⟨op, .start, documents, captured, checked⟩
      ⟨op, .requested (s.tree.map (·.etag)), documents, s.installed.length, checked⟩ []
  | receive {op cachedEtag documents captured checked} (answer : Except String TreeResponse) :
    Turn scope s ⟨op, .requested cachedEtag, documents, captured, checked⟩
      ⟨op, scope.onAnswer cachedEtag answer,
        documents ++ documentAt (scope.onAnswer cachedEtag answer), captured, checked⟩ []
  | confirm {op expectedEtag documents captured checked} :
    Turn scope s ⟨op, .confirming expectedEtag, documents, captured, checked⟩
      ⟨op, .ensured (scope.confirm s.tree expectedEtag),
        documents ++ confirmedVersion s.tree (scope.confirm s.tree expectedEtag), captured,
        s.installed.length⟩ []
  | refuse {op next e documents captured checked} (h : planSuccession s.tree next = .error e) :
    Turn scope s ⟨op, .validated next, documents, captured, checked⟩
      ⟨op, .ensured (.error e), documents, captured, checked⟩ []
  | retain {op next documents captured checked}
      (h : planSuccession s.tree next = .ok .retainCurrent) :
    Turn scope s ⟨op, .validated next, documents, captured, checked⟩
      ⟨op, .ensured (.ok ()), documents, captured, checked⟩ []
  | answer {result documents captured checked} :
    Turn scope s ⟨.lookup, .ensured result, documents, captured, checked⟩
      ⟨.lookup, .answered (lookupSource s.tree result), documents, captured, checked⟩ []
  | tell {result documents captured checked} :
    Turn scope s ⟨.version, .ensured result, documents, captured, checked⟩
      ⟨.version, .told result s.currentVersion, documents, captured, checked⟩ [s.currentVersion]

/-- **What a step does**: it enters a call, turns one, or installs a tree. -/
theorem step_cases {scope : ProviderScope} {s s' : ProviderSys} {l : ProviderLabel}
    (h : s.step scope l = some s') :
    (∃ op, s' = { s with calls := s.calls ++ [⟨op, .start, [], 0, 0⟩] }) ∨
      (∃ i c c' told, s.calls[i]? = some c ∧ Turn scope s c c' told ∧
        (∀ etag, c.pc = .requested etag → ∃ answer, l = .receive i answer) ∧
        s' = { s with calls := s.calls.set i c', clock := s.clock ++ told }) ∨
      (∃ i op next documents captured checked,
        s.calls[i]? = some ⟨op, .validated next, documents, captured, checked⟩ ∧
        planSuccession s.tree next = .ok .install ∧
        s' = ⟨some next, s.calls.set i ⟨op, .ensured (.ok ()), documents, captured, checked⟩,
          s.installed ++ [(i, next)], s.clock⟩) := by
  cases l with
  | call op =>
    cases h
    exact .inl ⟨op, rfl⟩
  | capture i =>
    simp only [step, stepCapture] at h
    split at h
    · rename_i hc
      cases h
      exact .inr (.inl ⟨i, _, _, [], hc, .capture, by simp, by simp [goto]⟩)
    · cases h
  | receive i answer =>
    simp only [step, stepReceive] at h
    split at h
    · rename_i hc
      cases h
      exact .inr (.inl ⟨i, _, _, [], hc, .receive answer, fun _ _ => ⟨answer, rfl⟩, by simp [goto]⟩)
    · cases h
  | confirm i =>
    simp only [step, stepConfirm] at h
    split at h
    · rename_i hc
      cases h
      exact .inr (.inl ⟨i, _, _, [], hc, .confirm, by simp, by simp [goto]⟩)
    · cases h
  | install i =>
    simp only [step, stepInstall] at h
    split at h
    · rename_i hc
      split at h
      · rename_i hp
        cases h
        exact .inr (.inl ⟨i, _, _, [], hc, .refuse hp, by simp, by simp [goto]⟩)
      · rename_i hp
        cases h
        exact .inr (.inr ⟨i, _, _, _, _, _, hc, hp, rfl⟩)
      · rename_i hp
        cases h
        exact .inr (.inl ⟨i, _, _, [], hc, .retain hp, by simp, by simp [goto]⟩)
    · cases h
  | finish i =>
    simp only [step, stepFinish] at h
    split at h
    · rename_i hc
      cases h
      exact .inr (.inl ⟨i, _, _, [], hc, .answer, by simp, by simp [goto]⟩)
    · rename_i hc
      cases h
      exact .inr (.inl ⟨i, _, _, _, hc, .tell, by simp, rfl⟩)
    · cases h

end ProviderSys
end KinVfs
