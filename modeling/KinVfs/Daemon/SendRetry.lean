import KinVfs.Lib.Runs
import KinVfs.Daemon.Admission
import KinVfs.Daemon.Endpoint

/-!
# Requests and their retries (`KinDaemonProvider::send_with_auth_retry`, `auth.rs`)

A request checks the local authority, resolves the endpoint and reads the token again for every attempt;
it is sent again once after a `401` that a new token may cure and once after a transport failure that a new
endpoint may cure. The endpoint, the token and the announced state are cells that all requests of a
provider share, each behind a lock of its own, so a request is a state machine (`SendPc`) with one step for
each access. What it reads of the files and the environment, and what the daemon answers, is in the labels.

There are three attempts at most, each after a check and a resolution of its own (`freshly_authorized`).
-/

namespace KinVfs

/-! ## The token -/

/-- What the environment and the token file say at one moment. -/
structure TokenSources where
  /-- `KIN_DAEMON_AUTH_TOKEN`. -/
  env : Option String
  /-- `.kin/daemon.token`, when it can be read. -/
  file : Option String
  deriving DecidableEq

/-- A provider's token. `repoRoot` is the displayed root of a scoped one. -/
structure DaemonAuth where
  explicit : Option String
  repoRoot : Option String
  token : Option String
  deriving DecidableEq

namespace DaemonAuth

/-- The precedence: explicit, then the environment, then the file. -/
def resolveFrom (explicit env file : Option String) : Option String :=
  ((explicit.bind trimNonEmpty).or (env.bind trimNonEmpty)).or (file.bind trimNonEmpty)

def resolveToken (explicit repoRoot : Option String) (src : TokenSources) : Option String :=
  resolveFrom explicit (src.env.bind trimNonEmpty) (repoRoot.bind fun _ => src.file.bind trimNonEmpty)

/-- `DaemonAuth::new`. -/
def new (explicit repoRoot : Option String) (src : TokenSources) : DaemonAuth :=
  ⟨explicit, repoRoot, resolveToken explicit repoRoot src⟩

/-- `refresh` under its lock: the fresh token, if it is another one. -/
def replace (auth : DaemonAuth) (resolved : Option String) : Option String × DaemonAuth :=
  if auth.token = resolved then (none, auth) else (resolved, { auth with token := resolved })

end DaemonAuth

/-! ## A request -/

/-- Why an endpoint is resolved: for an attempt, or after one that failed. -/
inductive Purpose where
  | request
  | retry (failedBase error : String)
  deriving DecidableEq

/-- Where a request is. -/
inductive SendPc where
  /-- At the head of the loop. -/
  | preflight
  | resolve (purpose : Purpose)
  /-- Before the announcement lock. -/
  | note (purpose : Purpose) (resolved : Option String)
  /-- Before the lock of `base_url`. -/
  | store (purpose : Purpose) (url : String)
  | authorize (url : String)
  | send (url : String) (bearer : Option String)
  | receive (url : String) (bearer : Option String)
  /-- After a `401`, before the token is resolved. -/
  | refresh (response : Response)
  /-- Before the lock of the token. -/
  | compare (response : Response) (resolved : Option String)
  | done (result : Except String Response)

/-- What a request did, for its history. -/
inductive SendEvent where
  | preflight (l : Local)
  | resolve (l : Local)
  | send (url : String) (bearer : Option String)
  | answer (a : Except String Response)

structure SendCall where
  endpointRetryUsed : Bool
  authRetryUsed : Bool
  pc : SendPc
  trace : List SendEvent

/-- The cells of a provider. `announced` is history: what was resolved and what that changed, in the order
of the announcement lock. -/
structure SendCells where
  endpoint : DaemonEndpoint
  auth : DaemonAuth
  announced : List (Option String × EndpointTransition)

inductive SendInput where
  | preflight (l : Local)
  | resolve (l : Local)
  | note
  | store
  | authorize
  | send
  | receive (a : Except String Response)
  | refresh (src : TokenSources)
  | compare

/-- `resolve_url`: without a root there is no port file. -/
def resolveAt (repoRoot : Option String) (l : Local) : Option String :=
  resolveFrom (l.env.bind trimNonEmpty) (repoRoot.bind fun _ => readPortFile l)

namespace SendCells

/-- `note_resolution`: a provider without a root takes no lock. -/
def noteResolution (cells : SendCells) (resolved : Option String) : SendCells :=
  match cells.endpoint.repoRoot with
  | none => cells
  | some _ =>
    let (transition, endpoint) := cells.endpoint.classifyResolution resolved
    { cells with endpoint := endpoint, announced := cells.announced ++ [(resolved, transition)] }

def storeBase (cells : SendCells) (url : String) : SendCells :=
  { cells with endpoint := { cells.endpoint with baseUrl := url } }

end SendCells

namespace SendCall

/-- A request that starts. -/
def start : SendCall := ⟨false, false, .preflight, []⟩

def goto (c : SendCall) (pc : SendPc) : SendCall := { c with pc := pc }

def log (c : SendCall) (e : SendEvent) : SendCall := { c with trace := c.trace ++ [e] }

/-- What an answer leads to. -/
def onAnswer (c : SendCall) (url : String) : Except String Response → SendCall
  | .ok response =>
    if response.status = 401 ∧ c.authRetryUsed = false then
      { c with authRetryUsed := true, pc := .refresh response }
    else c.goto (.done (.ok response))
  | .error e =>
    if c.endpointRetryUsed = false then
      { c with endpointRetryUsed := true, pc := .resolve (.retry url e) }
    else c.goto (.done (.error e))

/-- What the resolution leads to after the announcement. -/
def onNoted (c : SendCall) (root : Option String) : Purpose → Option String → SendCall
  | .request, none =>
    c.goto (.done (.error ("kin-daemon endpoint is not currently advertised for " ++ root.getD "")))
  | .retry _ e, none => c.goto (.done (.error e))
  | purpose, some url => c.goto (.store purpose url)

/-- What the stored endpoint leads to: after a failure, another attempt if it is another one. -/
def onStored (c : SendCall) (url : String) : Purpose → SendCall
  | .request => c.goto (.authorize url)
  | .retry failedBase e => if url ≠ failedBase then c.goto .preflight else c.goto (.done (.error e))

/-- One access of a request. -/
def advance (parse : Bytes → Except String ManifestIdentity) (cells : SendCells) (c : SendCall) :
    SendInput → Option (SendCells × SendCall)
  | .preflight l =>
    match c.pc with
    | .preflight =>
      let c := c.log (.preflight l)
      match cells.endpoint.preflightScopedRequest parse l with
      | .error e => some (cells, c.goto (.done (.error e)))
      | .ok () => some (cells, c.goto (.resolve .request))
    | _ => none
  | .resolve l =>
    match c.pc with
    | .resolve purpose =>
      let c := c.log (.resolve l)
      match cells.endpoint.repoRoot, purpose with
      | none, .request => some (cells, c.goto (.authorize cells.endpoint.baseUrl))
      | root, purpose => some (cells, c.goto (.note purpose (resolveAt root l)))
    | _ => none
  | .note =>
    match c.pc with
    | .note purpose resolved =>
      some (cells.noteResolution resolved, c.onNoted cells.endpoint.repoRoot purpose resolved)
    | _ => none
  | .store =>
    match c.pc with
    | .store purpose url => some (cells.storeBase url, c.onStored url purpose)
    | _ => none
  | .authorize =>
    match c.pc with
    | .authorize url => some (cells, c.goto (.send url cells.auth.token))
    | _ => none
  | .send =>
    match c.pc with
    | .send url bearer =>
      some (cells, (c.log (.send url bearer)).goto (.receive url bearer))
    | _ => none
  | .receive a =>
    match c.pc with
    | .receive url _ => some (cells, (c.log (.answer a)).onAnswer url a)
    | _ => none
  | .refresh src =>
    match c.pc with
    | .refresh response =>
      some (cells, c.goto (.compare response
        (DaemonAuth.resolveToken cells.auth.explicit cells.auth.repoRoot src)))
    | _ => none
  | .compare =>
    match c.pc with
    | .compare response resolved =>
      let (fresh, auth) := cells.auth.replace resolved
      some ({ cells with auth := auth },
        if fresh.isSome then c.goto .preflight else c.goto (.done (.ok response)))
    | _ => none

end SendCall

/-! ## A provider and its requests -/

structure SendSys where
  cells : SendCells
  calls : List SendCall

inductive SendLabel where
  | call
  | turn (i : Nat) (input : SendInput)

namespace SendSys

/-- A provider with no request. -/
def start (endpoint : DaemonEndpoint) (auth : DaemonAuth) : SendSys := ⟨⟨endpoint, auth, []⟩, []⟩

def step (parse : Bytes → Except String ManifestIdentity) (s : SendSys) : SendLabel → Option SendSys
  | .call => some { s with calls := s.calls ++ [.start] }
  | .turn i input => do
    let c ← s.calls[i]?
    let (cells, c) ← c.advance parse s.cells input
    return ⟨cells, s.calls.set i c⟩

end SendSys

/-- What one access does. -/
inductive SendTurn (parse : Bytes → Except String ManifestIdentity) (cells : SendCells) (c : SendCall) :
    SendInput → SendCells → SendCall → Prop
  | refused (l : Local) (e : String) (hpc : c.pc = .preflight)
      (h : cells.endpoint.preflightScopedRequest parse l = .error e) :
    SendTurn parse cells c (.preflight l) cells ((c.log (.preflight l)).goto (.done (.error e)))
  | passed (l : Local) (hpc : c.pc = .preflight)
      (h : cells.endpoint.preflightScopedRequest parse l = .ok ()) :
    SendTurn parse cells c (.preflight l) cells ((c.log (.preflight l)).goto (.resolve .request))
  | pinned (l : Local) (hpc : c.pc = .resolve .request) (hroot : cells.endpoint.repoRoot = none) :
    SendTurn parse cells c (.resolve l) cells ((c.log (.resolve l)).goto (.authorize cells.endpoint.baseUrl))
  | resolved (l : Local) (purpose : Purpose) (hpc : c.pc = .resolve purpose)
      (hroot : cells.endpoint.repoRoot ≠ none ∨ purpose ≠ .request) :
    SendTurn parse cells c (.resolve l) cells
      ((c.log (.resolve l)).goto (.note purpose (resolveAt cells.endpoint.repoRoot l)))
  | noted (purpose : Purpose) (resolved : Option String) (hpc : c.pc = .note purpose resolved) :
    SendTurn parse cells c .note (cells.noteResolution resolved)
      (c.onNoted cells.endpoint.repoRoot purpose resolved)
  | stored (purpose : Purpose) (url : String) (hpc : c.pc = .store purpose url) :
    SendTurn parse cells c .store (cells.storeBase url) (c.onStored url purpose)
  | authorized (url : String) (hpc : c.pc = .authorize url) :
    SendTurn parse cells c .authorize cells (c.goto (.send url cells.auth.token))
  | sent (url : String) (bearer : Option String) (hpc : c.pc = .send url bearer) :
    SendTurn parse cells c .send cells ((c.log (.send url bearer)).goto (.receive url bearer))
  | answered (url : String) (bearer : Option String) (a : Except String Response)
      (hpc : c.pc = .receive url bearer) :
    SendTurn parse cells c (.receive a) cells ((c.log (.answer a)).onAnswer url a)
  | refreshed (response : Response) (src : TokenSources) (hpc : c.pc = .refresh response) :
    SendTurn parse cells c (.refresh src) cells (c.goto (.compare response
      (DaemonAuth.resolveToken cells.auth.explicit cells.auth.repoRoot src)))
  | kept (response : Response) (resolved : Option String) (hpc : c.pc = .compare response resolved)
      (h : cells.auth.token = resolved) :
    SendTurn parse cells c .compare cells (c.goto (.done (.ok response)))
  | gone (response : Response) (hpc : c.pc = .compare response none) (h : cells.auth.token ≠ none) :
    SendTurn parse cells c .compare { cells with auth := { cells.auth with token := none } }
      (c.goto (.done (.ok response)))
  | renewed (response : Response) (token : String) (hpc : c.pc = .compare response (some token))
      (h : cells.auth.token ≠ some token) :
    SendTurn parse cells c .compare { cells with auth := { cells.auth with token := some token } }
      (c.goto .preflight)

variable {parse : Bytes → Except String ManifestIdentity} {cells cells' : SendCells} {c c' : SendCall}
  {input : SendInput}

theorem advance_cases (h : c.advance parse cells input = some (cells', c')) :
    SendTurn parse cells c input cells' c' := by
  cases input with
  | preflight l =>
    simp only [SendCall.advance] at h
    split at h
    · rename_i hpc
      split at h
      · rename_i e he
        cases h
        exact .refused l e hpc he
      · rename_i hok
        cases h
        exact .passed l hpc hok
    · cases h
  | resolve l =>
    simp only [SendCall.advance] at h
    split at h
    · rename_i purpose hpc
      cases hroot : cells.endpoint.repoRoot with
      | none =>
        rw [hroot] at h
        cases purpose with
        | request =>
          cases h
          exact .pinned l hpc hroot
        | retry failedBase e =>
          cases h
          rw [← hroot]
          exact .resolved l _ hpc (.inr nofun)
      | some root =>
        rw [hroot] at h
        cases h
        rw [← hroot]
        exact .resolved l purpose hpc (.inl (by rw [hroot]; nofun))
    · cases h
  | note =>
    simp only [SendCall.advance] at h
    split at h
    · rename_i purpose resolved hpc
      cases h
      exact .noted purpose resolved hpc
    · cases h
  | store =>
    simp only [SendCall.advance] at h
    split at h
    · rename_i purpose url hpc
      cases h
      exact .stored purpose url hpc
    · cases h
  | authorize =>
    simp only [SendCall.advance] at h
    split at h
    · rename_i url hpc
      cases h
      exact .authorized url hpc
    · cases h
  | send =>
    simp only [SendCall.advance] at h
    split at h
    · rename_i url bearer hpc
      cases h
      exact .sent url bearer hpc
    · cases h
  | receive a =>
    simp only [SendCall.advance] at h
    split at h
    · rename_i url bearer hpc
      cases h
      exact .answered url bearer a hpc
    · cases h
  | refresh src =>
    simp only [SendCall.advance] at h
    split at h
    · rename_i response hpc
      cases h
      exact .refreshed response src hpc
    · cases h
  | compare =>
    simp only [SendCall.advance, DaemonAuth.replace] at h
    split at h
    · rename_i response resolved hpc
      by_cases htoken : cells.auth.token = resolved
      · simp only [htoken, if_true, Option.isSome_none, Bool.false_eq_true, if_false] at h
        cases h
        exact .kept response resolved hpc htoken
      · simp only [htoken, if_false] at h
        cases resolved with
        | none =>
          cases h
          exact .gone response hpc htoken
        | some token =>
          cases h
          exact .renewed response token hpc htoken
    · cases h

namespace SendSys

/-- The condition `D` of a request's step, as one of the label. -/
def Turns (D : SendCells → SendCall → SendInput → Prop) (s : SendSys) (l : SendLabel) : Prop :=
  ∀ i input c, l = .turn i input → s.calls[i]? = some c → D s.cells c input

variable {s s' : SendSys} {l : SendLabel}

theorem step_cases (h : s.step parse l = some s') :
    (l = .call ∧ s' = { s with calls := s.calls ++ [.start] }) ∨
      ∃ i input c cells c', l = .turn i input ∧ s.calls[i]? = some c ∧
        SendTurn parse s.cells c input cells c' ∧ s' = ⟨cells, s.calls.set i c'⟩ := by
  cases l with
  | call =>
    cases h
    exact .inl ⟨rfl, rfl⟩
  | turn i input =>
    simp only [step, Option.bind_eq_bind, Option.bind_eq_some_iff] at h
    obtain ⟨c, hc, ⟨cells, c'⟩, hadv, h⟩ := h
    cases h
    exact .inr ⟨i, input, c, cells, c', rfl, hc, advance_cases hadv, rfl⟩

/-- What the steps of a request keep of the cells and of itself, the system keeps. -/
theorem step_keeps {D : SendCells → SendCall → SendInput → Prop} {I : SendCells → Prop}
    {Q : SendCall → Prop} (hstart : Q .start)
    (hturn : ∀ cells c input cells' c', I cells → Q c → D cells c input →
      SendTurn parse cells c input cells' c' → I cells' ∧ Q c')
    (hs : I s.cells ∧ ∀ c ∈ s.calls, Q c) (hD : Turns D s l) (h : s.step parse l = some s') :
    I s'.cells ∧ ∀ c ∈ s'.calls, Q c := by
  obtain ⟨hI, hQ⟩ := hs
  rcases step_cases h with ⟨-, rfl⟩ | ⟨i, input, c, cells, c', rfl, hc, hstep, rfl⟩
  · refine ⟨hI, fun c hc => ?_⟩
    rcases List.mem_append.mp hc with hc | hc
    · exact hQ c hc
    · rw [List.mem_singleton.mp hc]
      exact hstart
  · obtain ⟨hI', hc'⟩ :=
      hturn s.cells c input cells c' hI (hQ c (List.mem_of_getElem? hc)) (hD i input c rfl hc) hstep
    refine ⟨hI', fun x hx => ?_⟩
    rcases List.mem_or_eq_of_mem_set hx with hx | rfl
    · exact hQ x hx
    · exact hc'

end SendSys

/-! ## Attempts -/

section Attempts

variable {root : String} {url : String} {t t' : List SendEvent} {e : SendEvent}

def SendEvent.isSend : SendEvent → Bool
  | .send .. => true
  | _ => false

def SendEvent.isAnswer : SendEvent → Bool
  | .answer _ => true
  | _ => false

/-- The manifest names a workspace. -/
def HasWorkspace (parse : Bytes → Except String ManifestIdentity) (root : String) (l : Local) : Prop :=
  ∃ identity id, readManifestIdentity parse root l = .ok identity ∧ identity.workspaceId = some id

/-- The whole check of a provider with this root passes: the root can be written as text and the manifest names
a workspace. -/
def PassesPreflight (parse : Bytes → Except String ManifestIdentity) (root : String) (l : Local) : Prop :=
  ∀ endpoint : DaemonEndpoint, endpoint.repoRoot = some root → endpoint.preflightScopedRequest parse l = .ok ()

/-- After `t`, in which every request is answered, the local authority was checked, with success, and the
advertisement resolved to `url`. -/
def Fresh (parse : Bytes → Except String ManifestIdentity) (root url : String) (t : List SendEvent) :
    Prop :=
  ∃ before l l', t = before ++ [.preflight l, .resolve l'] ∧
    before.countP SendEvent.isSend = before.countP SendEvent.isAnswer ∧
    PassesPreflight parse root l ∧ resolveAt (some root) l' = some url

/-- Every request in the history is freshly authorized, and no check has failed. -/
structure TraceOk (parse : Bytes → Except String ManifestIdentity) (root : String) (t : List SendEvent) :
    Prop where
  fresh : ∀ pre url bearer post, t = pre ++ .send url bearer :: post → Fresh parse root url pre
  passes : ∀ l, .preflight l ∈ t → PassesPreflight parse root l
  advertised : ∀ l, .resolve l ∈ t → resolveAt (some root) l ≠ none

/-- How many retries a request has used. -/
def SendCall.used (c : SendCall) : Nat := c.endpointRetryUsed.toNat + c.authRetryUsed.toNat

/-- No request is out. -/
structure SendCall.Idle (parse : Bytes → Except String ManifestIdentity) (root : String) (c : SendCall) :
    Prop where
  trace : TraceOk parse root c.trace
  sends : c.trace.countP SendEvent.isSend = c.used
  answers : c.trace.countP SendEvent.isAnswer = c.used

/-- The history ended with a check that failed. -/
def Stopped (parse : Bytes → Except String ManifestIdentity) (root : String) (t : List SendEvent) : Prop :=
  ∃ before e, t = before ++ [e] ∧ TraceOk parse root before ∧
    ((∃ l, e = .preflight l) ∨ ∃ l, e = .resolve l ∧ resolveAt (some root) l = none)

/-- What a request has done when it gets to its step. -/
def SendCall.Ok (parse : Bytes → Except String ManifestIdentity) (root : String) (c : SendCall) : Prop :=
  match c.pc with
  | .preflight | .resolve (.retry _ _) | .note (.retry _ _) (some _) | .store (.retry _ _) _ | .refresh _
  | .compare _ _ => c.Idle parse root
  | .resolve .request => c.Idle parse root ∧ ∃ before l, c.trace = before ++ [.preflight l] ∧
      PassesPreflight parse root l
  | .note .request (some url) | .store .request url | .authorize url | .send url _ =>
    c.Idle parse root ∧ Fresh parse root url c.trace
  | .note _ none => c.trace.countP SendEvent.isSend = c.used ∧ ∃ before l, c.trace = before ++ [.resolve l] ∧
      TraceOk parse root before ∧ resolveAt (some root) l = none
  | .receive _ _ => TraceOk parse root c.trace ∧ c.trace.countP SendEvent.isSend = c.used + 1 ∧
      c.trace.countP SendEvent.isAnswer = c.used
  | .done (.ok _) => TraceOk parse root c.trace ∧ c.trace.countP SendEvent.isSend ≤ c.used + 1
  | .done (.error _) => c.trace.countP SendEvent.isSend ≤ c.used + 1 ∧
      (TraceOk parse root c.trace ∨ Stopped parse root c.trace)

/-- What may come next. -/
def EventOk (parse : Bytes → Except String ManifestIdentity) (root : String) (t : List SendEvent) :
    SendEvent → Prop
  | .send url _ => Fresh parse root url t
  | .preflight l => PassesPreflight parse root l
  | .resolve l => resolveAt (some root) l ≠ none
  | .answer _ => True

/-- Where an event of a history with one more event is. -/
theorem split_concat {x : SendEvent} {pre post : List SendEvent} (h : t ++ [e] = pre ++ x :: post) :
    post = [] ∧ pre = t ∧ x = e ∨ ∃ post', post = post' ++ [e] ∧ t = pre ++ x :: post' := by
  rcases List.eq_nil_or_concat post with rfl | ⟨post', y, rfl⟩
  · obtain ⟨hpre, hx⟩ := List.append_inj' h rfl
    exact .inl ⟨rfl, hpre.symm, (List.cons.inj hx).1.symm⟩
  · rw [List.concat_eq_append, ← List.cons_append, ← List.append_assoc] at h
    obtain ⟨ht, hy⟩ := List.append_inj' h rfl
    exact .inr ⟨post', by rw [List.concat_eq_append, (List.cons.inj hy).1], ht⟩

theorem TraceOk.concat (ht : TraceOk parse root t) (he : EventOk parse root t e) :
    TraceOk parse root (t ++ [e]) where
  fresh pre url bearer post h := by
    rcases split_concat h with ⟨-, rfl, rfl⟩ | ⟨post', -, h⟩
    · exact he
    · exact ht.fresh pre url bearer post' h
  passes l hl := by
    rcases List.mem_append.mp hl with hl | hl
    · exact ht.passes l hl
    · rw [← List.mem_singleton.mp hl] at he
      exact he
  advertised l hl := by
    rcases List.mem_append.mp hl with hl | hl
    · exact ht.advertised l hl
    · rw [← List.mem_singleton.mp hl] at he
      exact he

theorem traceOk_nil : TraceOk parse root [] :=
  ⟨fun pre _ _ _ h => absurd h (by cases pre <;> nofun), fun _ h => (nomatch h), fun _ h => (nomatch h)⟩

/-- The check asks nothing of an endpoint but its root. -/
theorem passesPreflight_of_ok {l : Local} (hroot : cells.endpoint.repoRoot = some root)
    (h : cells.endpoint.preflightScopedRequest parse l = .ok ()) : PassesPreflight parse root l := by
  intro endpoint hendpoint
  rw [← h]
  simp only [DaemonEndpoint.preflightScopedRequest, hroot, hendpoint]

/-- A check that passes finds the workspace. -/
theorem PassesPreflight.hasWorkspace {l : Local} (h : PassesPreflight parse root l) : HasWorkspace parse root l := by
  have h : (DaemonEndpoint.new "" (some root)).preflightScopedRequest parse l = .ok () := h _ rfl
  simp only [DaemonEndpoint.preflightScopedRequest, DaemonEndpoint.new] at h
  split at h
  · cases h
  · split at h
    · cases h
    · rename_i identity hid
      split at h
      · cases h
      · rename_i id hws
        unfold requiredWorkspaceId at hws
        split at hws
        · rename_i id' hsome
          exact ⟨identity, id', hid, hsome⟩
        · cases hws

/-- A check or a resolution leaves the counts as they are. -/
theorem SendCall.Idle.log (hc : c.Idle parse root) (he : EventOk parse root c.trace e)
    (hsend : e.isSend = false) (hanswer : e.isAnswer = false) : (c.log e).Idle parse root where
  trace := hc.trace.concat he
  sends := by simp [SendCall.log, hsend, hc.sends, SendCall.used]
  answers := by simp [SendCall.log, hanswer, hc.answers, SendCall.used]

theorem SendCall.Idle.goto {pc : SendPc} (hc : c.Idle parse root) : (c.goto pc).Idle parse root :=
  ⟨hc.trace, hc.sends, hc.answers⟩

theorem SendTurn.ok (hroot : cells.endpoint.repoRoot = some root) (hc : c.Ok parse root)
    (h : SendTurn parse cells c input cells' c') : c'.Ok parse root := by
  cases h with
  | refused l e hpc he =>
    simp only [SendCall.Ok, hpc] at hc
    refine ⟨?_, .inr ⟨c.trace, _, rfl, hc.trace, .inl ⟨l, rfl⟩⟩⟩
    simp [SendCall.log, SendCall.goto, SendEvent.isSend, hc.sends, SendCall.used]
  | passed l hpc hok =>
    simp only [SendCall.Ok, hpc] at hc
    have hpass := passesPreflight_of_ok hroot hok
    exact ⟨(hc.log (e := .preflight l) hpass rfl rfl).goto, c.trace, l, rfl, hpass⟩
  | pinned l hpc hnone =>
    rw [hroot] at hnone
    cases hnone
  | resolved l purpose hpc hor =>
    rw [hroot]
    cases hres : resolveAt (some root) l with
    | none =>
      cases purpose with
      | request =>
        simp only [SendCall.Ok, hpc] at hc
        refine ⟨?_, c.trace, l, rfl, hc.1.trace, hres⟩
        simp [SendCall.log, SendCall.goto, SendEvent.isSend, hc.1.sends, SendCall.used]
      | retry failedBase e =>
        simp only [SendCall.Ok, hpc] at hc
        refine ⟨?_, c.trace, l, rfl, hc.trace, hres⟩
        simp [SendCall.log, SendCall.goto, SendEvent.isSend, hc.sends, SendCall.used]
    | some url =>
      have hadv : resolveAt (some root) l ≠ none := by rw [hres]; nofun
      cases purpose with
      | request =>
        simp only [SendCall.Ok, hpc] at hc
        obtain ⟨hidle, before, l₀, htrace, hws⟩ := hc
        refine ⟨(hidle.log (e := .resolve l) hadv rfl rfl).goto, before, l₀, l, ?_, ?_, hws, hres⟩
        · simp [SendCall.log, SendCall.goto, htrace]
        · have hsends := hidle.sends
          have hanswers := hidle.answers
          rw [htrace] at hsends hanswers
          simp only [List.countP_append, List.countP_singleton, SendEvent.isSend, SendEvent.isAnswer,
            Bool.false_eq_true, if_false, Nat.add_zero] at hsends hanswers
          rw [hsends, hanswers]
      | retry failedBase e =>
        simp only [SendCall.Ok, hpc] at hc
        exact (hc.log (e := .resolve l) hadv rfl rfl).goto
  | noted purpose resolved hpc =>
    cases resolved with
    | none =>
      have hstop : c.trace.countP SendEvent.isSend ≤ c.used + 1 ∧ Stopped parse root c.trace := by
        cases purpose <;> simp only [SendCall.Ok, hpc] at hc <;>
          obtain ⟨hsends, before, l, htrace, hok, hres⟩ := hc <;>
          exact ⟨Nat.le_succ_of_le (Nat.le_of_eq hsends),
            before, _, htrace, hok, .inr ⟨l, rfl, hres⟩⟩
      cases purpose <;> exact ⟨hstop.1, .inr hstop.2⟩
    | some url =>
      cases purpose with
      | request =>
        simp only [SendCall.Ok, hpc] at hc
        exact ⟨hc.1.goto, hc.2⟩
      | retry failedBase e =>
        simp only [SendCall.Ok, hpc] at hc
        exact hc.goto
  | stored purpose url hpc =>
    cases purpose with
    | request =>
      simp only [SendCall.Ok, hpc] at hc
      exact ⟨hc.1.goto, hc.2⟩
    | retry failedBase e =>
      simp only [SendCall.Ok, hpc] at hc
      unfold SendCall.onStored
      by_cases hurl : url ≠ failedBase
      · simp only [if_pos hurl]
        exact hc.goto
      · simp only [if_neg hurl]
        exact ⟨Nat.le_succ_of_le (Nat.le_of_eq hc.sends), .inl hc.trace⟩
  | authorized url hpc =>
    simp only [SendCall.Ok, hpc] at hc
    exact ⟨hc.1.goto, hc.2⟩
  | sent url bearer hpc =>
    simp only [SendCall.Ok, hpc] at hc
    refine ⟨hc.1.trace.concat hc.2, ?_, ?_⟩
    · simp [SendCall.log, SendCall.goto, SendEvent.isSend, hc.1.sends, SendCall.used]
    · simp [SendCall.log, SendCall.goto, SendEvent.isAnswer, hc.1.answers, SendCall.used]
  | answered url bearer a hpc =>
    simp only [SendCall.Ok, hpc] at hc
    obtain ⟨htrace, hsends, hanswers⟩ := hc
    have htrace' : TraceOk parse root (c.trace ++ [.answer a]) := htrace.concat trivial
    have hsends' : (c.trace ++ [SendEvent.answer a]).countP SendEvent.isSend = c.used + 1 := by
      simp [SendEvent.isSend, hsends]
    have hanswers' : (c.trace ++ [SendEvent.answer a]).countP SendEvent.isAnswer = c.used + 1 := by
      simp [SendEvent.isAnswer, hanswers]
    cases a with
    | ok response =>
      simp only [SendCall.onAnswer]
      split
      · rename_i h401
        have hused : c.used + 1 = c.endpointRetryUsed.toNat + 1 := by
          rw [SendCall.used, show c.authRetryUsed = false from h401.2]
          rfl
        exact ⟨htrace', hsends'.trans hused, hanswers'.trans hused⟩
      · exact ⟨htrace', Nat.le_of_eq hsends'⟩
    | error e =>
      simp only [SendCall.onAnswer]
      split
      · rename_i hfirst
        have hused : c.used + 1 = 1 + c.authRetryUsed.toNat := by
          rw [SendCall.used, show c.endpointRetryUsed = false from hfirst]
          simp only [Bool.toNat_false]
          omega
        exact ⟨htrace', hsends'.trans hused, hanswers'.trans hused⟩
      · exact ⟨Nat.le_of_eq hsends', .inl htrace'⟩
  | refreshed response src hpc =>
    simp only [SendCall.Ok, hpc] at hc
    exact hc.goto
  | kept response resolved hpc htoken =>
    simp only [SendCall.Ok, hpc] at hc
    exact ⟨hc.trace, Nat.le_succ_of_le (Nat.le_of_eq hc.sends)⟩
  | gone response hpc htoken =>
    simp only [SendCall.Ok, hpc] at hc
    exact ⟨hc.trace, Nat.le_succ_of_le (Nat.le_of_eq hc.sends)⟩
  | renewed response token hpc htoken =>
    simp only [SendCall.Ok, hpc] at hc
    exact hc.goto

/-- The next access ends the request with `e`, if it has not ended with it. -/
def EndsWith (parse : Bytes → Except String ManifestIdentity) (root : String) (c : SendCall) (e : String) :
    Prop :=
  c.pc = .done (.error e) ∨ ∀ cells : SendCells, cells.endpoint.repoRoot = some root →
    ∃ cells', c.advance parse cells .note = some (cells', c.goto (.done (.error e)))

/-- What is promised of a request's attempts. -/
structure FreshlyAuthorized (parse : Bytes → Except String ManifestIdentity) (root : String)
    (c : SendCall) : Prop where
  bounded : c.trace.countP SendEvent.isSend ≤ 3
  /-- The check and the resolution come after the answers to all requests before, and the request goes
  to the resolved endpoint. -/
  fresh : ∀ pre url bearer post, c.trace = pre ++ .send url bearer :: post → Fresh parse root url pre
  /-- An iteration whose check fails, on the root or on the manifest, sends nothing and ends the request. -/
  refused : ∀ pre l post, c.trace = pre ++ .preflight l :: post → ¬ PassesPreflight parse root l →
    post = [] ∧ ∃ e, c.pc = .done (.error e)
  noWorkspace : ∀ pre l post, c.trace = pre ++ .preflight l :: post → ¬ HasWorkspace parse root l →
    post = [] ∧ ∃ e, c.pc = .done (.error e)
  noAdvertisement : ∀ pre l post, c.trace = pre ++ .resolve l :: post → resolveAt (some root) l = none →
    post = [] ∧ ∃ e, EndsWith parse root c e

/-- A history without a failed check says nothing of one. -/
theorem TraceOk.freshlyAuthorized (h : TraceOk parse root c.trace)
    (hsends : c.trace.countP SendEvent.isSend ≤ 3) : FreshlyAuthorized parse root c where
  bounded := hsends
  fresh := h.fresh
  refused pre l post heq hno := absurd (h.passes l (by rw [heq]; simp)) hno
  noWorkspace pre l post heq hno := absurd (h.passes l (by rw [heq]; simp)).hasWorkspace hno
  noAdvertisement pre l post heq hno := absurd hno (h.advertised l (by rw [heq]; simp))

theorem Stopped.freshlyAuthorized (h : Stopped parse root c.trace)
    (hsends : c.trace.countP SendEvent.isSend ≤ 3) (hend : ∃ e, EndsWith parse root c e)
    (hdone : ∀ before l, c.trace = before ++ [.preflight l] → ∃ e, c.pc = .done (.error e)) :
    FreshlyAuthorized parse root c := by
  obtain ⟨before, e, htrace, hok, hlast⟩ := h
  have hrefused : ∀ pre l post, c.trace = pre ++ .preflight l :: post → ¬ PassesPreflight parse root l →
      post = [] ∧ ∃ e, c.pc = .done (.error e) := by
    intro pre l post heq hno
    rw [htrace] at heq
    rcases split_concat heq with ⟨rfl, -, rfl⟩ | ⟨post', -, heq⟩
    · exact ⟨rfl, hdone before l htrace⟩
    · exact absurd (hok.passes l (by rw [heq]; simp)) hno
  refine ⟨hsends, ?_, hrefused, ?_, ?_⟩
  · intro pre url bearer post heq
    rw [htrace] at heq
    rcases split_concat heq with ⟨-, -, rfl⟩ | ⟨post', -, heq⟩
    · rcases hlast with ⟨l, hl⟩ | ⟨l, hl, -⟩ <;> cases hl
    · exact hok.fresh pre url bearer post' heq
  · exact fun pre l post heq hno => hrefused pre l post heq fun hpass => hno hpass.hasWorkspace
  · intro pre l post heq hno
    rw [htrace] at heq
    rcases split_concat heq with ⟨rfl, -, -⟩ | ⟨post', -, heq⟩
    · exact ⟨rfl, hend⟩
    · exact absurd hno (hok.advertised l (by rw [heq]; simp))

theorem SendCall.used_le (c : SendCall) : c.used ≤ 2 := by
  have h₁ := Bool.toNat_le c.endpointRetryUsed
  have h₂ := Bool.toNat_le c.authRetryUsed
  unfold SendCall.used
  omega

theorem SendCall.Ok.freshlyAuthorized (h : c.Ok parse root) : FreshlyAuthorized parse root c := by
  have hused := c.used_le
  have hidle : c.Idle parse root → FreshlyAuthorized parse root c := by
    intro hc
    exact hc.trace.freshlyAuthorized (by rw [hc.sends]; omega)
  have hnoted : ∀ purpose, c.pc = .note purpose none → FreshlyAuthorized parse root c := by
    intro purpose hpc
    have hc : c.trace.countP SendEvent.isSend = c.used ∧ ∃ before l, c.trace = before ++ [.resolve l] ∧
        TraceOk parse root before ∧ resolveAt (some root) l = none := by
      cases purpose <;> simpa only [SendCall.Ok, hpc] using h
    obtain ⟨hsends, before, l, htrace, hok, hres⟩ := hc
    refine Stopped.freshlyAuthorized ⟨before, _, htrace, hok, .inr ⟨l, rfl, hres⟩⟩
      (by rw [hsends]; omega) ?_ ?_
    · cases purpose with
      | request =>
        refine ⟨"kin-daemon endpoint is not currently advertised for " ++ root, .inr fun cells hroot => ?_⟩
        refine ⟨cells.noteResolution none, ?_⟩
        simp only [SendCall.advance, hpc, SendCall.onNoted, hroot, Option.getD_some]
      | retry failedBase e =>
        refine ⟨e, .inr fun cells hroot => ⟨cells.noteResolution none, ?_⟩⟩
        simp only [SendCall.advance, hpc, SendCall.onNoted]
    · intro before' l' htrace'
      rw [htrace] at htrace'
      cases (List.append_inj' htrace' rfl).2
  cases hpc : c.pc with
  | preflight =>
    simp only [SendCall.Ok, hpc] at h
    exact hidle h
  | resolve purpose =>
    cases purpose <;> simp only [SendCall.Ok, hpc] at h
    · exact hidle h.1
    · exact hidle h
  | note purpose resolved =>
    cases resolved with
    | none => exact hnoted purpose hpc
    | some url =>
      cases purpose <;> simp only [SendCall.Ok, hpc] at h
      · exact hidle h.1
      · exact hidle h
  | store purpose url =>
    cases purpose <;> simp only [SendCall.Ok, hpc] at h
    · exact hidle h.1
    · exact hidle h
  | authorize url =>
    simp only [SendCall.Ok, hpc] at h
    exact hidle h.1
  | send url bearer =>
    simp only [SendCall.Ok, hpc] at h
    exact hidle h.1
  | receive url bearer =>
    simp only [SendCall.Ok, hpc] at h
    exact h.1.freshlyAuthorized (by omega)
  | refresh response =>
    simp only [SendCall.Ok, hpc] at h
    exact hidle h
  | compare response resolved =>
    simp only [SendCall.Ok, hpc] at h
    exact hidle h
  | done result =>
    cases result with
    | ok response =>
      simp only [SendCall.Ok, hpc] at h
      exact h.1.freshlyAuthorized (by omega)
    | error e =>
      simp only [SendCall.Ok, hpc] at h
      rcases h.2 with hok | hstop
      · exact hok.freshlyAuthorized (by omega)
      · exact hstop.freshlyAuthorized (by omega) ⟨e, .inl hpc⟩ fun _ _ _ => ⟨e, hpc⟩

/-- What a resolution to `resolved` is after one to `previous`. -/
def transitionOf (previous resolved : Option String) : EndpointTransition :=
  if resolved = previous then .quiet
  else
    match previous, resolved with
    | some _, some _ => .moved
    | some _, none => .lost
    | none, _ => .restored

/-- The announced state is what was resolved last. -/
theorem noteResolution_scoped (hroot : cells.endpoint.repoRoot = some root) (resolved : Option String) :
    cells.noteResolution resolved =
      { cells with
        endpoint := { cells.endpoint with announcedEndpoint := resolved }
        announced := cells.announced ++
          [(resolved, transitionOf cells.endpoint.announcedEndpoint resolved)] } := by
  obtain ⟨⟨repoRoot, baseUrl, announcedEndpoint⟩, auth, announced⟩ := cells
  cases hroot
  simp only [SendCells.noteResolution, DaemonEndpoint.classifyResolution, Option.isNone_some,
    Bool.false_eq_true, if_false]
  cases resolved with
  | none => cases announcedEndpoint <;> rfl
  | some url =>
    cases announcedEndpoint with
    | none => rfl
    | some current =>
      by_cases hurl : url = current
      · subst hurl
        simp [transitionOf]
      · simp [transitionOf, hurl]

/-- Nothing is noted without a root. -/
theorem noteResolution_pinned (hroot : cells.endpoint.repoRoot = none) (resolved : Option String) :
    cells.noteResolution resolved = cells := by
  rw [SendCells.noteResolution, hroot]

/-- No access gives a provider another root. -/
theorem SendTurn.repoRoot (h : SendTurn parse cells c input cells' c') :
    cells'.endpoint.repoRoot = cells.endpoint.repoRoot := by
  cases h with
  | noted purpose resolved hpc =>
    cases hroot : cells.endpoint.repoRoot with
    | none => rw [noteResolution_pinned hroot, hroot]
    | some root => rw [noteResolution_scoped hroot, hroot]
  | _ => rfl

/-- **Every attempt of a scoped request is freshly authorized**, whatever other requests do, the files
say and the daemon answers, and there are three at most. -/
theorem freshly_authorized {base : String} {auth : DaemonAuth} {labels : List SendLabel} {s : SendSys}
    (h : Runs.run (SendSys.step parse) (.start (.new base (some root)) auth) labels = some s) :
    ∀ c ∈ s.calls, FreshlyAuthorized parse root c := by
  have hinv : s.cells.endpoint.repoRoot = some root ∧ ∀ c ∈ s.calls, c.Ok parse root := by
    refine Runs.run_inv (P := fun s : SendSys => s.cells.endpoint.repoRoot = some root ∧
      ∀ c ∈ s.calls, c.Ok parse root) ?_ ?_ h
    · intro s l s' hs hstep
      refine SendSys.step_keeps (D := fun _ _ _ => True) (I := fun cells => cells.endpoint.repoRoot = some root)
        (Q := fun c => c.Ok parse root) ⟨traceOk_nil, rfl, rfl⟩ ?_ hs (fun _ _ _ _ _ => trivial) hstep
      intro cells c input cells' c' hroot hc _ hturn
      exact ⟨hturn.repoRoot.trans hroot, hturn.ok hroot hc⟩
    · exact ⟨rfl, fun c hc => nomatch hc⟩
  exact fun c hc => (hinv.2 c hc).freshlyAuthorized

namespace Sample

def manifest : Bytes := "\x7b\"repo_id\":\"r1\",\"workspace_id\":\"w1\"\x7d".toUTF8.toList

/-- The JSON parser on that manifest. -/
def readManifest (bytes : Bytes) : Except String ManifestIdentity :=
  if bytes = manifest then .ok ⟨"r1", some "w1"⟩ else .error "expected value"

/-- A repository with a workspace, advertised at `port`. -/
def advertised (port : String) : Local := ⟨none, some port, .ok manifest, some "/r"⟩

/-- One attempt that resolves to `port` and is answered by `a`. -/
def attempt (i : Nat) (port : String) (a : Except String Response) : List SendLabel :=
  [.preflight (advertised port), .resolve (advertised port), .note, .store, .authorize, .send,
    .receive a].map (.turn i)

/-- The daemon restarts between the attempts, and its token changes. -/
def threeAttempts : List SendLabel :=
  .call :: attempt 0 "4219" (.error "connection refused") ++
    [.resolve (advertised "4220"), .note, .store].map (.turn 0) ++
    attempt 0 "4220" (.ok ⟨401, ""⟩) ++ [.refresh ⟨none, some "new"⟩, .compare].map (.turn 0) ++
    attempt 0 "4220" (.ok ⟨200, "tree"⟩)

end Sample

theorem freshly_authorized_three :
    ∃ s : SendSys, Runs.run (SendSys.step Sample.readManifest)
        (.start (.new "http://127.0.0.1:4219" (some "/r")) ⟨none, some "/r", some "old"⟩)
        Sample.threeAttempts = some s ∧
      s.calls.map (·.trace.countP SendEvent.isSend) = [3] ∧
      ∀ c ∈ s.calls, FreshlyAuthorized Sample.readManifest "/r" c := by
  have hrun : (Runs.run (SendSys.step Sample.readManifest)
      (.start (.new "http://127.0.0.1:4219" (some "/r")) ⟨none, some "/r", some "old"⟩)
      Sample.threeAttempts).map (fun s => s.calls.map (·.trace.countP SendEvent.isSend)) = some [3] := by
    decide +kernel
  obtain ⟨s, hs, hsends⟩ := Option.map_eq_some_iff.mp hrun
  exact ⟨s, hs, hsends, freshly_authorized hs⟩

end Attempts

end KinVfs
