import Mathlib.Algebra.Group.Int.Defs
import Mathlib.Algebra.Group.Nat.Defs
import KinVfs.Lib.Text
import Mathlib.Tactic.Common

/-!
# Endpoint resolution (`crates/kin-vfs-daemon/src/endpoint.rs`)

The base URL of the kin daemon is resolved from the environment override or the port file before
every scoped request, after the local root and manifest have been checked. What the process reads
at one moment is a `Local`; the JSON parser of the manifest is a parameter.
-/

namespace KinVfs

/-- What the environment and the files under one repository root say at one moment. -/
structure Local where
  /-- `KIN_DAEMON_URL`. -/
  env : Option String
  /-- `.kin/daemon.port`, when it can be read. -/
  portFile : Option String
  /-- `.kin/manifest.json`, or why it cannot be read. -/
  manifest : Except String (List UInt8)
  /-- The canonical root as text, when it is UTF-8. -/
  canonicalRoot : Option String

structure ManifestIdentity where
  repoId : String
  workspaceId : Option String
  deriving DecidableEq

/-- Trim surrounding whitespace and discard an empty result. -/
def trimNonEmpty (value : String) : Option String :=
  let trimmed := Text.trim value
  if trimmed = "" then none else some trimmed

/-- `str::parse::<u16>`: an optional `+`, then decimal digits. -/
def parseU16 (text : String) : Option Nat :=
  let digits := match text.toList with
    | '+' :: rest => rest
    | rest => rest
  if digits ≠ [] ∧ digits.all Char.isDigit then
    let n := digits.foldl (fun n c => 10 * n + (c.toNat - '0'.toNat)) 0
    if n < 2 ^ 16 then some n else none
  else none

/-- The port the kin daemon advertises. -/
def readPortFile (l : Local) : Option Nat := l.portFile.bind (parseU16 ∘ Text.trim)

/-- The precedence: the override, then the port file, no default. -/
def resolveFrom (env : Option String) (portFile : Option Nat) : Option String :=
  (env.bind trimNonEmpty).or (portFile.map fun port => "http://127.0.0.1:" ++ toString port)

def resolveUrl (l : Local) : Option String :=
  resolveFrom (l.env.bind trimNonEmpty) (readPortFile l)

/-- The local repository identity. `root` is the displayed root. -/
def readManifestIdentity (parse : List UInt8 → Except String ManifestIdentity) (root : String)
    (l : Local) : Except String ManifestIdentity :=
  let path := root ++ "/.kin/manifest.json"
  match l.manifest with
  | .error e => .error ("cannot read repository identity " ++ path ++ ": " ++ e)
  | .ok bytes =>
    match parse bytes with
    | .error e => .error ("cannot parse repository identity " ++ path ++ ": " ++ e)
    | .ok identity =>
      if Text.trim identity.repoId = "" then
        .error ("repository identity " ++ path ++ " has an empty repo_id")
      else if identity.workspaceId.any (Text.trim · = "") then
        .error ("repository identity " ++ path ++ " has an empty workspace_id")
      else .ok identity

def canonicalRootText (l : Local) : Except String String :=
  match l.canonicalRoot with
  | some text => .ok text
  | none => .error ("local repository root is not valid UTF-8; daemon requests require a " ++
      "repository-v6 workspace identity")

def requiredWorkspaceId (root : String) (identity : ManifestIdentity) : Except String String :=
  match identity.workspaceId with
  | some workspaceId => .ok workspaceId
  | none => .error ("repository identity " ++ root ++ "/.kin/manifest.json omits workspace_id; " ++
      "migrate this repository to repository-v6 before using Kin VFS")

/-- What a re-resolution changed relative to the endpoint already announced. -/
inductive EndpointTransition where
  | quiet
  | moved
  | lost
  | restored
  deriving DecidableEq, Repr

/-- A provider's endpoint. `repoRoot` is the displayed root of a scoped one. -/
structure DaemonEndpoint where
  repoRoot : Option String
  baseUrl : String
  announcedEndpoint : Option String
  deriving DecidableEq

namespace DaemonEndpoint

/-- `DaemonEndpoint::new`. -/
def new (baseUrl : String) (repoRoot : Option String) : DaemonEndpoint :=
  ⟨repoRoot, baseUrl, some baseUrl⟩

/-- What one re-resolution changed, with the announced state updated. -/
def classifyResolution (ep : DaemonEndpoint) (resolved : Option String) :
    EndpointTransition × DaemonEndpoint :=
  if ep.repoRoot.isNone then (.quiet, ep)
  else
    match resolved, ep.announcedEndpoint with
    | some url, some current =>
      if url = current then (.quiet, ep) else (.moved, { ep with announcedEndpoint := some url })
    | some url, none => (.restored, { ep with announcedEndpoint := some url })
    | none, some _ => (.lost, { ep with announcedEndpoint := none })
    | none, none => (.quiet, ep)

/-- The base URL one request must use. A scoped endpoint that nothing advertises fails. -/
def preparedBaseUrl (ep : DaemonEndpoint) (l : Local) : Except String String × DaemonEndpoint :=
  match ep.repoRoot with
  | none => (.ok ep.baseUrl, ep)
  | some root =>
    let resolved := resolveUrl l
    let ep := (ep.classifyResolution resolved).2
    match resolved with
    | none => (.error ("kin-daemon endpoint is not currently advertised for " ++ root), ep)
    | some url => (.ok url, { ep with baseUrl := url })

/-- All local authority a scoped request requires. -/
def preflightScopedRequest (parse : List UInt8 → Except String ManifestIdentity)
    (ep : DaemonEndpoint) (l : Local) : Except String Unit :=
  match ep.repoRoot with
  | none => .ok ()
  | some root =>
    match canonicalRootText l with
    | .error e => .error e
    | .ok _ =>
      match readManifestIdentity parse root l with
      | .error e => .error e
      | .ok identity =>
        match requiredWorkspaceId root identity with
        | .error e => .error e
        | .ok _ => .ok ()

/-- The repository and workspace binding of a tree response. -/
def validateTreeIdentity (parse : List UInt8 → Except String ManifestIdentity)
    (ep : DaemonEndpoint) (l : Local) (observedRepoId observedWorkspaceId : String) :
    Except String Unit :=
  match ep.repoRoot with
  | none => .ok ()
  | some root =>
    match readManifestIdentity parse root l with
    | .error e => .error e
    | .ok expected =>
      match requiredWorkspaceId root expected with
      | .error e => .error e
      | .ok workspaceId =>
        if observedRepoId ≠ expected.repoId then
          .error ("tree repository mismatch: endpoint serves " ++ observedRepoId ++ ", expected " ++
            expected.repoId)
        else if observedWorkspaceId ≠ workspaceId then
          .error ("tree workspace mismatch: endpoint serves " ++ observedWorkspaceId ++
            ", expected " ++ workspaceId)
        else .ok ()

end DaemonEndpoint

/-- The daemon route that admits a working copy into graph truth. -/
def commitRoute : String := "/commands/commit"

/-- `KinDaemonWriter::commit_url`: re-resolved from the live advertisement. -/
def commitUrl (parse : List UInt8 → Except String ManifestIdentity) (ep : DaemonEndpoint)
    (l : Local) : Except String String × DaemonEndpoint :=
  match ep.preflightScopedRequest parse l with
  | .error e => (.error e, ep)
  | .ok _ =>
    match ep.preparedBaseUrl l with
    | (.error e, ep) => (.error e, ep)
    | (.ok base, ep) => (.ok (Text.trimEndMatches base '/' ++ commitRoute), ep)

end KinVfs
