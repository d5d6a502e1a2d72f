import KinVfs.Lib.Mirror
import KinVfs.Daemon.BlobReads
import KinVfs.Daemon.KinProvider
import KinVfs.Daemon.Ranges
import KinVfs.Daemon.SendRetry

/-!
# The two providers (`kin_provider.rs` and `async_kin_provider.rs` of `crates/kin-vfs-daemon/src`)

`KinDaemonProvider` and `AsyncKinDaemonProvider` are two copies of one protocol: the first runs through on a worker
thread, the second suspends at every lock and every request. Each is written out here from its own file, over what
both take from elsewhere (`endpoint.rs`, `auth.rs`, `tree_contract.rs`): the first as a direct program, the second as
one of steps (`Interleave.Prog`). They mirror each other call by call, so that over every sequence of calls, each
made after the other, they issue the same requests, give the same results and end with the same tree and cache
(`providers_interchangeable`). Only the first notes which endpoint answered a lookup.

What the transport makes of a request, a timeout included, is an answer of the script.
-/

namespace KinVfs.Providers

open Fallible Interleave

/-! ## What both use -/

/-- A `GET`. -/
structure HttpRequest where
  url : String
  bearer : Option String
  ifNoneMatch : Option String
  deriving DecidableEq

/-- A response. The body is read after the head, and that can fail. -/
structure HttpResponse where
  status : Nat
  etag : Option Bytes
  body : Except String Bytes

/-- What a provider was set up with and what is outside of it: the libraries, the script of the daemon, and the files
and the environment. -/
structure Surroundings where
  sessionId : Option String
  codec : TreeCodec
  wire : BlobWire
  /-- `serde_json`, of a tree document. -/
  decode : Bytes → Except String WorkspaceTreeSnapshot
  parseManifest : Bytes → Except String ManifestIdentity
  /-- The answer to the last of the requests issued so far. -/
  answer : List HttpRequest → Except String HttpResponse
  /-- What each reading of the files and the environment finds. -/
  files : Nat → Local
  tokens : Nat → TokenSources

/-- The fields of a provider, with the requests it has issued and how often it has read the files. -/
structure Cells where
  endpoint : DaemonEndpoint
  auth : DaemonAuth
  tree : Option CachedTree
  contentCache : ContentCache
  issued : List HttpRequest
  readings : Nat

/-- `routes::TREE`. -/
def treeRoute : String := "/vfs/tree"

/-- `routes::BLOB_PREFIX`. -/
def blobPrefix : String := "/vfs/blob/"

def ifNoneMatchValue (etag : String) : String := "\x22" ++ etag ++ "\x22"

namespace Cells

variable (env : Surroundings) (c : Cells)

/-- The endpoint's functions, each with a reading of its own. -/
def preflightScopedRequest : Except String Unit × Cells :=
  (c.endpoint.preflightScopedRequest env.parseManifest (env.files c.readings), { c with readings := c.readings + 1 })

def preparedBaseUrl : Except String String × Cells :=
  let (url, endpoint) := c.endpoint.preparedBaseUrl (env.files c.readings)
  (url, { c with endpoint := endpoint, readings := c.readings + 1 })

def refreshAfterFailure (failedBase : String) : Option String × Cells :=
  let resolved := resolveAt c.endpoint.repoRoot (env.files c.readings)
  let endpoint := (c.endpoint.classifyResolution resolved).2
  match resolved with
  | none => (none, { c with endpoint := endpoint, readings := c.readings + 1 })
  | some url =>
    (if url ≠ failedBase then some url else none,
      { c with endpoint := { endpoint with baseUrl := url }, readings := c.readings + 1 })

def validateTreeIdentity (repositoryId workspaceId : String) : Except String Unit × Cells :=
  (c.endpoint.validateTreeIdentity env.parseManifest (env.files c.readings) repositoryId workspaceId,
    { c with readings := c.readings + 1 })

/-- `DaemonAuth::refresh`. -/
def refreshToken : Option String × Cells :=
  let resolved := DaemonAuth.resolveToken c.auth.explicit c.auth.repoRoot (env.tokens c.readings)
  let (fresh, auth) := c.auth.replace resolved
  (fresh, { c with auth := auth, readings := c.readings + 1 })

def token : Option String × Cells := (c.auth.token, c)

/-- The request goes out. -/
def send (request : HttpRequest) : Except String HttpResponse × Cells :=
  (env.answer (c.issued ++ [request]), { c with issued := c.issued ++ [request] })

def readTree : Option CachedTree × Cells := (c.tree, c)

/-- `content_cache.write().get(&hash)`. -/
def cacheGet (hash : Hash256) : Option Bytes × Cells :=
  ((Lru.get hash c.contentCache).1, { c with contentCache := (Lru.get hash c.contentCache).2 })

/-- `content_cache.write().put(hash, data)`. -/
def cachePut (hash : Hash256) (data : Bytes) : Unit × Cells :=
  ((), { c with contentCache := Lru.put contentCacheCap hash data c.contentCache })

end Cells

/-! ## The direct one -/

/-- Which endpoint answered a lookup. -/
structure LookupEndpointCapture where
  active : Bool
  answeredBy : Option String

structure KinDaemonProvider where
  cells : Cells
  capture : LookupEndpointCapture

/-- The attempts that are left: a flag that is not set yet allows another one. -/
def retriesLeft (endpointRetryUsed authRetryUsed : Bool) : Nat := (!endpointRetryUsed).toNat + (!authRetryUsed).toNat

namespace KinDaemonProvider

abbrev SyncM (ε : Type) := Fallible ε KinDaemonProvider

/-- One access of the provider's fields. -/
def access {ε α : Type} (f : Cells → α × Cells) : SyncM ε α := do
  let p ← get
  set { p with cells := (f p.cells).2 }
  pure (f p.cells).1

def recordLookupEndpoint {ε : Type} (endpoint : String) : SyncM ε Unit := do
  let p ← get
  if p.capture.active then set { p with capture := { p.capture with answeredBy := some endpoint } }
  else pure ()

variable (env : Surroundings)

def urlAt (endpoint path : String) : String :=
  match env.sessionId with
  | some sid => endpoint ++ path ++ "?session_id=" ++ sid
  | none => endpoint ++ path

def blobUrlAt (endpoint : String) (hash : Hash256) : String :=
  urlAt env endpoint (blobPrefix ++ env.wire.showHash hash)

/-- `authorized`. -/
def authorized {ε : Type} (request : HttpRequest) : SyncM ε HttpRequest := do
  match ← access Cells.token with
  | some token => pure { request with bearer := some token }
  | none => pure request

/-- The loop, with the two flags as they are at its head. -/
def sendWithAuthRetryFrom (build : String → HttpRequest) (endpointRetryUsed authRetryUsed : Bool) :
    SyncM String HttpResponse := do
  lift (← access (·.preflightScopedRequest env))
  let requestEndpoint ← lift (← access (·.preparedBaseUrl env))
  let request ← authorized (build requestEndpoint)
  match ← access (·.send env request) with
  | .ok response =>
    if _h : response.status = 401 ∧ authRetryUsed = false then do
      if (← access (·.refreshToken env)).isSome then sendWithAuthRetryFrom build endpointRetryUsed true
      else do
        recordLookupEndpoint requestEndpoint
        pure response
    else do
      recordLookupEndpoint requestEndpoint
      pure response
  | .error e =>
    if _h : endpointRetryUsed = false then do
      if (← access (·.refreshAfterFailure env requestEndpoint)).isSome then
        sendWithAuthRetryFrom build true authRetryUsed
      else do
        recordLookupEndpoint requestEndpoint
        throw e
    else do
      recordLookupEndpoint requestEndpoint
      throw e
  termination_by retriesLeft endpointRetryUsed authRetryUsed
  decreasing_by
  · simp_all [retriesLeft]
  · simp_all [retriesLeft]

def sendWithAuthRetry (build : String → HttpRequest) : SyncM String HttpResponse :=
  sendWithAuthRetryFrom env build false false

/-- A `304` for the tag that was sent. -/
def confirmTree (cachedEtag : Option String) : SyncM String Unit := do
  match cachedEtag with
  | none => throw "tree returned 304 without a cached snapshot"
  | some expectedEtag =>
    match ← access Cells.readTree with
    | none => throw "tree returned 304 after cache invalidation"
    | some cached =>
      if cached.etag ≠ expectedEtag then throw "tree returned 304 for a superseded cached snapshot"
      else do
        lift (← access (·.validateTreeIdentity env cached.binding.repositoryId cached.binding.workspaceId))

/-- The comparison and the installation are under one write guard. -/
def installTree (next : CachedTree) : SyncM String Unit := do
  lift (← access fun c =>
    match planSuccession c.tree next with
    | .error e => (.error e, c)
    | .ok .install => (.ok (), { c with tree := some next })
    | .ok .retainCurrent => (.ok (), c))

/-- A document. -/
def acceptTree (response : HttpResponse) : SyncM String Unit := do
  let headerEtag ← lift (parseEtagHeader response.etag)
  let snapshot ← lift ((response.body.bind env.decode).mapError ("tree document parse failed: " ++ ·))
  let documentEtag ← lift ((env.codec.identity snapshot).mapError ("tree document validation failed: " ++ ·))
  if documentEtag ≠ headerEtag then
    throw ("tree ETag header " ++ Text.debug headerEtag ++ " does not match document identity " ++
      Text.debug documentEtag)
  else do
    lift (← access (·.validateTreeIdentity env snapshot.binding.repositoryId snapshot.binding.workspaceId))
    let next ← lift (CachedTree.fromSnapshot env.codec snapshot)
    installTree next

def ensureTree : SyncM String Unit := do
  let cachedEtag ← access fun c => (c.tree.map (·.etag), c)
  let response ← mapErr ("tree request failed: " ++ ·) (sendWithAuthRetry env fun endpoint =>
    ⟨urlAt env endpoint treeRoute, none, cachedEtag.map ifNoneMatchValue⟩)
  if response.status = 304 then confirmTree env cachedEtag
  else if !isSuccess response.status then throw ("tree returned status " ++ env.wire.showStatus response.status)
  else acceptTree env response

def withTree {α : Type} (lookup : CachedTree → VfsResult α) : SyncM VfsError α := do
  mapErr .provider (ensureTree env)
  match ← access Cells.readTree with
  | none => throw (.provider "no cached tree snapshot available")
  | some cached => lift (lookup cached)

def fetchVerifiedBlob (hash : Hash256) (expectedSize : Nat) (path : VfsPath) : SyncM VfsError Bytes := do
  match ← access (·.cacheGet hash) with
  | some data => pure data
  | none => do
    let response ← mapErr (fun e => .provider ("blob request failed: " ++ e))
      (sendWithAuthRetry env fun endpoint => ⟨blobUrlAt env endpoint hash, none, none⟩)
    if response.status = 404 then
      throw (.provider ("graph blob " ++ env.wire.showHash hash ++ " missing for " ++ path.display))
    else if !isSuccess response.status then
      throw (.provider ("blob returned status " ++ env.wire.showStatus response.status))
    else do
      let data ← lift (response.body.mapError fun e => .provider ("blob body error: " ++ e))
      lift (verifySize expectedSize data.length path)
      lift (verifyBlob env.wire hash data path)
      access (·.cachePut hash data)
      pure data

def readFile (path : VfsPath) : SyncM VfsError Bytes := do
  let artifact ← withTree env (·.requireArtifact path)
  let hash ← lift (CachedTree.blobIdentity artifact.entry path)
  fetchVerifiedBlob env hash artifact.size path

def readRange (path : VfsPath) (offset len : Nat) : SyncM VfsError Bytes := do
  let artifact ← withTree env (·.requireArtifact path)
  let hash ← lift (CachedTree.blobIdentity artifact.entry path)
  if len = 0 ∨ artifact.size ≤ offset then pure []
  else do
    let data ← fetchVerifiedBlob env hash artifact.size path
    lift (sliceVerifiedBlobResult data offset len path)

def stat (path : VfsPath) : SyncM VfsError VirtualStat := withTree env (·.statPath path)

def readDir (path : VfsPath) : SyncM VfsError (List DirEntry) := withTree env (·.listDir path)

def pathExists (path : VfsPath) : SyncM VfsError Bool := withTree env fun tree => .ok (tree.pathExists path)

def readLink (path : VfsPath) : SyncM VfsError Bytes := do
  let artifact ← withTree env fun tree =>
    match tree.requireArtifact path with
    | .ok artifact => .ok artifact
    -- A directory has no link target: report the operation, not the kind.
    | .error (.isDirectory _) => .error (.invalidInput path.display)
    | .error e => .error e
  match artifact.entry with
  | .symlink targetBlob => fetchVerifiedBlob env targetBlob artifact.size path
  | .blob .. => throw (.invalidInput path.display)
  | .gitlink _ => throw (.unsupportedRepositoryBoundary path.display)

/-- A failed refresh is ignored: the last validated version stands, and zero if there is none. -/
def version : SyncM String Nat := do
  let _ ← attempt (ensureTree env)
  access fun c => ((c.tree.map (·.version)).getD 0, c)

end KinDaemonProvider

/-! ## The one that suspends -/

namespace AsyncKinDaemonProvider

/-- A step is an access of the provider's fields or a request. -/
abbrev AsyncM (ε : Type) := Prog Cells ε

variable (env : Surroundings)

def urlAt (endpoint path : String) : String :=
  match env.sessionId with
  | some sid => endpoint ++ path ++ "?session_id=" ++ sid
  | none => endpoint ++ path

def blobUrlAt (endpoint : String) (hash : Hash256) : String :=
  urlAt env endpoint (blobPrefix ++ env.wire.showHash hash)

def authorized {ε : Type} (request : HttpRequest) : AsyncM ε HttpRequest := do
  match ← Prog.act Cells.token with
  | some token => pure { request with bearer := some token }
  | none => pure request

/-- The loop, with the two flags as they are at its head. -/
def sendWithAuthRetryFrom (build : String → HttpRequest) (endpointRetryUsed authRetryUsed : Bool) :
    AsyncM String HttpResponse := do
  Prog.lift (← Prog.act (·.preflightScopedRequest env))
  let requestEndpoint ← Prog.lift (← Prog.act (·.preparedBaseUrl env))
  let request ← authorized (build requestEndpoint)
  match ← Prog.act (·.send env request) with
  | .ok response =>
    if _h : response.status = 401 ∧ authRetryUsed = false then do
      if (← Prog.act (·.refreshToken env)).isSome then sendWithAuthRetryFrom build endpointRetryUsed true
      else pure response
    else pure response
  | .error e =>
    if _h : endpointRetryUsed = false then do
      if (← Prog.act (·.refreshAfterFailure env requestEndpoint)).isSome then
        sendWithAuthRetryFrom build true authRetryUsed
      else Prog.fail e
    else Prog.fail e
  termination_by retriesLeft endpointRetryUsed authRetryUsed
  decreasing_by
  · simp_all [retriesLeft]
  · simp_all [retriesLeft]

def sendWithAuthRetry (build : String → HttpRequest) : AsyncM String HttpResponse :=
  sendWithAuthRetryFrom env build false false

/-- A `304` for the tag that was sent. -/
def confirmTree (cachedEtag : Option String) : AsyncM String Unit := do
  match cachedEtag with
  | none => Prog.fail "tree returned 304 without a cached snapshot"
  | some expectedEtag =>
    match ← Prog.act Cells.readTree with
    | none => Prog.fail "tree returned 304 after cache invalidation"
    | some cached =>
      if cached.etag ≠ expectedEtag then Prog.fail "tree returned 304 for a superseded cached snapshot"
      else do
        Prog.lift (← Prog.act (·.validateTreeIdentity env cached.binding.repositoryId cached.binding.workspaceId))

/-- The comparison and the installation are under one write guard. -/
def installTree (next : CachedTree) : AsyncM String Unit := do
  Prog.lift (← Prog.act fun c =>
    match planSuccession c.tree next with
    | .error e => (.error e, c)
    | .ok .install => (.ok (), { c with tree := some next })
    | .ok .retainCurrent => (.ok (), c))

/-- A document. -/
def acceptTree (response : HttpResponse) : AsyncM String Unit := do
  let headerEtag ← Prog.lift (parseEtagHeader response.etag)
  let snapshot ← Prog.lift ((response.body.bind env.decode).mapError ("tree document parse failed: " ++ ·))
  let documentEtag ← Prog.lift ((env.codec.identity snapshot).mapError ("tree document validation failed: " ++ ·))
  if documentEtag ≠ headerEtag then
    Prog.fail ("tree ETag header " ++ Text.debug headerEtag ++ " does not match document identity " ++
      Text.debug documentEtag)
  else do
    Prog.lift (← Prog.act (·.validateTreeIdentity env snapshot.binding.repositoryId snapshot.binding.workspaceId))
    let next ← Prog.lift (CachedTree.fromSnapshot env.codec snapshot)
    installTree next

def ensureTree : AsyncM String Unit := do
  let cachedEtag ← Prog.act fun c => (c.tree.map (·.etag), c)
  let response ← Prog.mapErr ("tree request failed: " ++ ·) (sendWithAuthRetry env fun endpoint =>
    ⟨urlAt env endpoint treeRoute, none, cachedEtag.map ifNoneMatchValue⟩)
  if response.status = 304 then confirmTree env cachedEtag
  else if !isSuccess response.status then Prog.fail ("tree returned status " ++ env.wire.showStatus response.status)
  else acceptTree env response

def withTree {α : Type} (lookup : CachedTree → VfsResult α) : AsyncM VfsError α := do
  Prog.mapErr .provider (ensureTree env)
  match ← Prog.act Cells.readTree with
  | none => Prog.fail (.provider "no cached tree snapshot available")
  | some cached => Prog.lift (lookup cached)

def fetchVerifiedBlob (hash : Hash256) (expectedSize : Nat) (path : VfsPath) : AsyncM VfsError Bytes := do
  match ← Prog.act (·.cacheGet hash) with
  | some data => pure data
  | none => do
    let response ← Prog.mapErr (fun e => .provider ("blob request failed: " ++ e))
      (sendWithAuthRetry env fun endpoint => ⟨blobUrlAt env endpoint hash, none, none⟩)
    if response.status = 404 then
      Prog.fail (.provider ("graph blob " ++ env.wire.showHash hash ++ " missing for " ++ path.display))
    else if !isSuccess response.status then
      Prog.fail (.provider ("blob returned status " ++ env.wire.showStatus response.status))
    else do
      let data ← Prog.lift (response.body.mapError fun e => .provider ("blob body error: " ++ e))
      Prog.lift (verifySize expectedSize data.length path)
      Prog.lift (verifyBlob env.wire hash data path)
      Prog.act (·.cachePut hash data)
      pure data

def readFile (path : VfsPath) : AsyncM VfsError Bytes := do
  let artifact ← withTree env (·.requireArtifact path)
  let hash ← Prog.lift (CachedTree.blobIdentity artifact.entry path)
  fetchVerifiedBlob env hash artifact.size path

def readRange (path : VfsPath) (offset len : Nat) : AsyncM VfsError Bytes := do
  let artifact ← withTree env (·.requireArtifact path)
  let hash ← Prog.lift (CachedTree.blobIdentity artifact.entry path)
  if len = 0 ∨ artifact.size ≤ offset then pure []
  else do
    let data ← fetchVerifiedBlob env hash artifact.size path
    Prog.lift (sliceVerifiedBlobResult data offset len path)

def stat (path : VfsPath) : AsyncM VfsError VirtualStat := withTree env (·.statPath path)

def readDir (path : VfsPath) : AsyncM VfsError (List DirEntry) := withTree env (·.listDir path)

def pathExists (path : VfsPath) : AsyncM VfsError Bool := withTree env fun tree => .ok (tree.pathExists path)

def readLink (path : VfsPath) : AsyncM VfsError Bytes := do
  let artifact ← withTree env fun tree =>
    match tree.requireArtifact path with
    | .ok artifact => .ok artifact
    -- A directory has no link target: report the operation, not the kind.
    | .error (.isDirectory _) => .error (.invalidInput path.display)
    | .error e => .error e
  match artifact.entry with
  | .symlink targetBlob => fetchVerifiedBlob env targetBlob artifact.size path
  | .blob .. => Prog.fail (.invalidInput path.display)
  | .gitlink _ => Prog.fail (.unsupportedRepositoryBoundary path.display)

/-- A failed refresh is ignored: the last validated version stands, and zero if there is none. -/
def version : AsyncM String Nat := do
  let _ ← (ensureTree env).attempt
  Prog.act fun c => ((c.tree.map (·.version)).getD 0, c)

end AsyncKinDaemonProvider

/-! ## Calls -/

inductive ProviderCall where
  | readFile (path : VfsPath)
  | readRange (path : VfsPath) (offset len : Nat)
  | stat (path : VfsPath)
  | readDir (path : VfsPath)
  | pathExists (path : VfsPath)
  | readLink (path : VfsPath)
  | version

inductive ProviderAnswer where
  | bytes (data : Bytes)
  | stat (st : VirtualStat)
  | entries (entries : List DirEntry)
  | pathExists (found : Bool)
  | version (n : Nat)

namespace KinDaemonProvider

def serve (env : Surroundings) : ProviderCall → SyncM VfsError ProviderAnswer
  | .readFile path => do pure (.bytes (← readFile env path))
  | .readRange path offset len => do pure (.bytes (← readRange env path offset len))
  | .stat path => do pure (.stat (← stat env path))
  | .readDir path => do pure (.entries (← readDir env path))
  | .pathExists path => do pure (.pathExists (← pathExists env path))
  | .readLink path => do pure (.bytes (← readLink env path))
  | .version => do pure (.version (← mapErr .provider (version env)))

/-- The answers to calls made one after the other, and the provider then. -/
def serveAll (env : Surroundings) : KinDaemonProvider → List ProviderCall →
    List (VfsResult ProviderAnswer) × KinDaemonProvider
  | p, [] => ([], p)
  | p, call :: calls =>
    let (answer, p) := exec (serve env call) p
    let (answers, p) := serveAll env p calls
    (answer :: answers, p)

end KinDaemonProvider

namespace AsyncKinDaemonProvider

def serve (env : Surroundings) : ProviderCall → AsyncM VfsError ProviderAnswer
  | .readFile path => do pure (.bytes (← readFile env path))
  | .readRange path offset len => do pure (.bytes (← readRange env path offset len))
  | .stat path => do pure (.stat (← stat env path))
  | .readDir path => do pure (.entries (← readDir env path))
  | .pathExists path => do pure (.pathExists (← pathExists env path))
  | .readLink path => do pure (.bytes (← readLink env path))
  | .version => do pure (.version (← Prog.mapErr .provider (version env)))

/-- The answers to calls made one after the other, and the fields then. -/
def serveAll (env : Surroundings) : Cells → List ProviderCall → List (VfsResult ProviderAnswer) × Cells
  | c, [] => ([], c)
  | c, call :: calls =>
    let (answer, c) := (serve env call).run c
    let (answers, c) := serveAll env c calls
    (answer :: answers, c)

end AsyncKinDaemonProvider

/-! ## The copies, function by function -/

section Copies

variable {env : Surroundings} {ε : Type}

/-- The asynchronous copy sees the fields. -/
theorem access_mirrors {α : Type} (f : Cells → α × Cells) :
    Mirrors KinDaemonProvider.cells (KinDaemonProvider.access f : KinDaemonProvider.SyncM ε α) (Prog.act f) :=
  fun _ => rfl

/-- To note the endpoint changes none of them. -/
theorem recordLookupEndpoint_unseen {α : Type} (endpoint : String) {x : KinDaemonProvider.SyncM ε α}
    {y : Prog Cells ε α} (h : Mirrors KinDaemonProvider.cells x y) :
    Mirrors KinDaemonProvider.cells (do KinDaemonProvider.recordLookupEndpoint endpoint; x) y := by
  refine Mirrors.unseen (fun p => ?_) h
  unfold KinDaemonProvider.recordLookupEndpoint
  rw [exec_bind, exec_get]
  dsimp only
  split
  · exact ⟨_, _, rfl, rfl⟩
  · exact ⟨_, _, rfl, rfl⟩

theorem authorized_mirrors (request : HttpRequest) :
    Mirrors KinDaemonProvider.cells (KinDaemonProvider.authorized request : KinDaemonProvider.SyncM ε HttpRequest)
      (AsyncKinDaemonProvider.authorized request) := by
  refine .bind (access_mirrors _) fun token => ?_
  cases token with
  | some token => exact .pure _
  | none => exact .pure _

/-- The loop, by the attempts that are left. -/
theorem sendFrom_mirrors (build : String → HttpRequest) (endpointRetryUsed authRetryUsed : Bool) :
    Mirrors KinDaemonProvider.cells
      (KinDaemonProvider.sendWithAuthRetryFrom env build endpointRetryUsed authRetryUsed)
      (AsyncKinDaemonProvider.sendWithAuthRetryFrom env build endpointRetryUsed authRetryUsed) := by
  induction hleft : retriesLeft endpointRetryUsed authRetryUsed using Nat.strongRecOn
    generalizing endpointRetryUsed authRetryUsed with
  | _ left ih =>
    rw [KinDaemonProvider.sendWithAuthRetryFrom, AsyncKinDaemonProvider.sendWithAuthRetryFrom]
    refine .bind (access_mirrors _) fun preflight => .bind (.lift preflight) fun _ => ?_
    refine .bind (access_mirrors _) fun prepared => .bind (.lift prepared) fun requestEndpoint => ?_
    refine .bind (authorized_mirrors _) fun request => .bind (access_mirrors _) fun answer => ?_
    cases answer with
    | ok response =>
      dsimp only
      by_cases hauth : response.status = 401 ∧ authRetryUsed = false
      · rw [dif_pos hauth, dif_pos hauth]
        refine .bind (access_mirrors _) fun fresh => ?_
        cases fresh.isSome with
        | true => exact ih _ (by simp [← hleft, retriesLeft, hauth.2]) endpointRetryUsed true rfl
        | false => exact recordLookupEndpoint_unseen requestEndpoint (.pure response)
      · rw [dif_neg hauth, dif_neg hauth]
        exact recordLookupEndpoint_unseen requestEndpoint (.pure response)
    | error e =>
      dsimp only
      by_cases hendpoint : endpointRetryUsed = false
      · rw [dif_pos hendpoint, dif_pos hendpoint]
        refine .bind (access_mirrors _) fun fresh => ?_
        cases fresh.isSome with
        | true => exact ih _ (by simp [← hleft, retriesLeft, hendpoint]) true authRetryUsed rfl
        | false => exact recordLookupEndpoint_unseen requestEndpoint (.throw e)
      · rw [dif_neg hendpoint, dif_neg hendpoint]
        exact recordLookupEndpoint_unseen requestEndpoint (.throw e)

theorem confirmTree_mirrors (cachedEtag : Option String) :
    Mirrors KinDaemonProvider.cells (KinDaemonProvider.confirmTree env cachedEtag)
      (AsyncKinDaemonProvider.confirmTree env cachedEtag) := by
  cases cachedEtag with
  | none => exact .throw _
  | some expectedEtag =>
    refine .bind (access_mirrors _) fun tree => ?_
    cases tree with
    | none => exact .throw _
    | some cached =>
      dsimp only
      by_cases hetag : cached.etag ≠ expectedEtag
      · rw [if_pos hetag, if_pos hetag]
        exact .throw _
      · rw [if_neg hetag, if_neg hetag]
        exact .bind (access_mirrors _) fun result => .lift result

theorem acceptTree_mirrors (response : HttpResponse) :
    Mirrors KinDaemonProvider.cells (KinDaemonProvider.acceptTree env response)
      (AsyncKinDaemonProvider.acceptTree env response) := by
  refine .bind (.lift _) fun headerEtag => .bind (.lift _) fun snapshot => .bind (.lift _) fun documentEtag => ?_
  by_cases hetag : documentEtag ≠ headerEtag
  · rw [if_pos hetag, if_pos hetag]
    exact .throw _
  · rw [if_neg hetag, if_neg hetag]
    refine .bind (access_mirrors _) fun result => .bind (.lift result) fun _ => .bind (.lift _) fun next => ?_
    exact .bind (access_mirrors _) fun planned => .lift planned

theorem ensureTree_mirrors :
    Mirrors KinDaemonProvider.cells (KinDaemonProvider.ensureTree env) (AsyncKinDaemonProvider.ensureTree env) := by
  refine .bind (access_mirrors _) fun cachedEtag => ?_
  refine .bind (.mapErr _ (sendFrom_mirrors _ false false)) fun response => ?_
  by_cases hconfirmed : response.status = 304
  · rw [if_pos hconfirmed, if_pos hconfirmed]
    exact confirmTree_mirrors cachedEtag
  · rw [if_neg hconfirmed, if_neg hconfirmed]
    by_cases hfailed : (!isSuccess response.status) = true
    · rw [if_pos hfailed, if_pos hfailed]
      exact .throw _
    · rw [if_neg hfailed, if_neg hfailed]
      exact acceptTree_mirrors response

theorem withTree_mirrors {α : Type} (lookup : CachedTree → VfsResult α) :
    Mirrors KinDaemonProvider.cells (KinDaemonProvider.withTree env lookup)
      (AsyncKinDaemonProvider.withTree env lookup) := by
  refine .bind (.mapErr _ ensureTree_mirrors) fun _ => .bind (access_mirrors _) fun tree => ?_
  cases tree with
  | none => exact .throw _
  | some cached => exact .lift _

theorem fetchVerifiedBlob_mirrors (hash : Hash256) (expectedSize : Nat) (path : VfsPath) :
    Mirrors KinDaemonProvider.cells (KinDaemonProvider.fetchVerifiedBlob env hash expectedSize path)
      (AsyncKinDaemonProvider.fetchVerifiedBlob env hash expectedSize path) := by
  refine .bind (access_mirrors _) fun cached => ?_
  cases cached with
  | some data => exact .pure data
  | none =>
    refine .bind (.mapErr _ (sendFrom_mirrors _ false false)) fun response => ?_
    by_cases hmissing : response.status = 404
    · rw [if_pos hmissing, if_pos hmissing]
      exact .throw _
    · rw [if_neg hmissing, if_neg hmissing]
      by_cases hfailed : (!isSuccess response.status) = true
      · rw [if_pos hfailed, if_pos hfailed]
        exact .throw _
      · rw [if_neg hfailed, if_neg hfailed]
        refine .bind (.lift _) fun data => .bind (.lift _) fun _ => .bind (.lift _) fun _ => ?_
        exact .bind (access_mirrors _) fun _ => .pure data

theorem readRange_mirrors (path : VfsPath) (offset len : Nat) :
    Mirrors KinDaemonProvider.cells (KinDaemonProvider.readRange env path offset len)
      (AsyncKinDaemonProvider.readRange env path offset len) := by
  refine .bind (withTree_mirrors _) fun artifact => .bind (.lift _) fun hash => ?_
  by_cases hempty : len = 0 ∨ artifact.size ≤ offset
  · rw [if_pos hempty, if_pos hempty]
    exact .pure _
  · rw [if_neg hempty, if_neg hempty]
    exact .bind (fetchVerifiedBlob_mirrors hash artifact.size path) fun data => .lift _

theorem readLink_mirrors (path : VfsPath) :
    Mirrors KinDaemonProvider.cells (KinDaemonProvider.readLink env path)
      (AsyncKinDaemonProvider.readLink env path) := by
  refine .bind (withTree_mirrors _) fun artifact => ?_
  cases artifact.entry with
  | symlink targetBlob => exact fetchVerifiedBlob_mirrors targetBlob artifact.size path
  | blob => exact .throw _
  | gitlink => exact .throw _

/-- One call. -/
theorem serve_mirrors (call : ProviderCall) :
    Mirrors KinDaemonProvider.cells (KinDaemonProvider.serve env call) (AsyncKinDaemonProvider.serve env call) := by
  cases call with
  | readFile path =>
    refine .bind (.bind (withTree_mirrors _) fun artifact => .bind (.lift _) fun hash => ?_) fun data => .pure _
    exact fetchVerifiedBlob_mirrors hash artifact.size path
  | readRange path offset len => exact .bind (readRange_mirrors path offset len) fun data => .pure _
  | stat path => exact .bind (withTree_mirrors _) fun st => .pure _
  | readDir path => exact .bind (withTree_mirrors _) fun entries => .pure _
  | pathExists path => exact .bind (withTree_mirrors _) fun found => .pure _
  | readLink path => exact .bind (readLink_mirrors path) fun data => .pure _
  | version =>
    refine .bind (.mapErr _ (.bind (.attempt ensureTree_mirrors) fun _ => access_mirrors _)) fun n => .pure _

end Copies

/-- **The two providers are interchangeable**: for every script of the daemon and every sequence of calls, each made
after the other, from the same fields they give the same answers and end with the same fields, the tree, the cached
blobs and the requests issued among them. -/
theorem providers_interchangeable (env : Surroundings) (p : KinDaemonProvider) (calls : List ProviderCall) :
    AsyncKinDaemonProvider.serveAll env p.cells calls =
      ((KinDaemonProvider.serveAll env p calls).1, (KinDaemonProvider.serveAll env p calls).2.cells) := by
  induction calls generalizing p with
  | nil => rfl
  | cons call calls ih =>
    have hcall := @serve_mirrors env call p
    unfold KinDaemonProvider.serveAll AsyncKinDaemonProvider.serveAll
    rw [hcall]
    dsimp only
    rw [ih]

end KinVfs.Providers
