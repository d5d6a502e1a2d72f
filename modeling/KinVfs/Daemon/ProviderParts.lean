import KinVfs.Daemon.Providers

/-!
# The parts of a provider (`crates/kin-vfs-daemon/src/kin_provider.rs`)

Three modules have a function of the provider each, with the steps that other threads come between: `SendRetry` has
`send_with_auth_retry`, `KinProvider` has `ensure_tree`, `BlobReads` has `fetch_verified_blob` with its cache. In
`Providers` they are whole, one call after the other. Here is that they are the same functions: a call of
`Providers` is what the steps come to when no other thread is about.
-/

namespace KinVfs.Providers

open Fallible KinVfs.Providers.KinDaemonProvider

variable {env : Surroundings}

theorem exec_access {ε α : Type} (f : Cells → α × Cells) (p : KinDaemonProvider) :
    exec (access f : SyncM ε α) p = (.ok (f p.cells).1, { p with cells := (f p.cells).2 }) := rfl

theorem exec_recordLookupEndpoint (endpoint : String) (p : KinDaemonProvider) :
    ∃ capture, exec (recordLookupEndpoint endpoint : SyncM String Unit) p = (.ok (), ⟨p.cells, capture⟩) := by
  unfold recordLookupEndpoint
  rw [exec_bind, exec_get]
  dsimp only
  split
  · exact ⟨_, rfl⟩
  · exact ⟨_, rfl⟩

theorem exec_authorized (request : HttpRequest) (p : KinDaemonProvider) :
    ∃ request', exec (authorized request : SyncM String HttpRequest) p = (.ok request', p) := by
  unfold authorized
  rw [exec_bind, exec_access]
  dsimp only
  split
  · exact ⟨_, rfl⟩
  · exact ⟨_, rfl⟩

/-! ## `send_with_auth_retry` -/

/-- What a request looks at of a response. -/
def HttpResponse.head (response : HttpResponse) : Response :=
  ⟨response.status, (response.body.toOption.map Text.fromUtf8Lossy).getD ""⟩

/-- Where a request is, with its flags. -/
structure SendPlace where
  endpointRetryUsed : Bool
  authRetryUsed : Bool
  pc : SendPc

def SendPlace.call (x : SendPlace) (trace : List SendEvent) : SendCall :=
  ⟨x.endpointRetryUsed, x.authRetryUsed, x.pc, trace⟩

/-- Steps of a request, with no other one between them, take it from `x` to `x'` and the cells along. -/
def Gets (env : Surroundings) (q : Cells) (x : SendPlace) (q' : Cells) (x' : SendPlace) : Prop :=
  ∀ announced trace, ∃ announced' trace' labels,
    Runs.run (SendSys.step env.parseManifest) ⟨⟨q.endpoint, q.auth, announced⟩, [x.call trace]⟩ labels =
      some ⟨⟨q'.endpoint, q'.auth, announced'⟩, [x'.call trace']⟩

variable {q q' q'' : Cells} {x x' x'' : SendPlace} {a b : Bool} {url e : String}

theorem Gets.trans (h : Gets env q x q' x') (h' : Gets env q' x' q'' x'') : Gets env q x q'' x'' := by
  intro announced trace
  obtain ⟨announced', trace', labels, hrun⟩ := h announced trace
  obtain ⟨announced'', trace'', labels', hrun'⟩ := h' announced' trace'
  refine ⟨announced'', trace'', labels ++ labels', ?_⟩
  rw [Runs.run_append, hrun]
  exact hrun'

theorem Gets.one (input : SendInput)
    (h : ∀ announced trace, ∃ announced' trace',
      (x.call trace).advance env.parseManifest ⟨q.endpoint, q.auth, announced⟩ input =
        some (⟨q'.endpoint, q'.auth, announced'⟩, x'.call trace')) : Gets env q x q' x' := by
  intro announced trace
  obtain ⟨announced', trace', hadvance⟩ := h announced trace
  refine ⟨announced', trace', [.turn 0 input], Runs.run_cons_eq_some.mpr ⟨_, ?_, rfl⟩⟩
  simp only [SendSys.step, List.getElem?_cons_zero, Option.bind_eq_bind, Option.bind_some, hadvance]
  rfl

theorem gets_preflight_ok (h : (q.preflightScopedRequest env).1 = .ok ()) :
    Gets env q ⟨a, b, .preflight⟩ (q.preflightScopedRequest env).2 ⟨a, b, .resolve .request⟩ := by
  refine .one (.preflight (env.files q.readings)) fun announced trace =>
    ⟨announced, trace ++ [.preflight (env.files q.readings)], ?_⟩
  have hpass : q.endpoint.preflightScopedRequest env.parseManifest (env.files q.readings) = .ok () := h
  simp only [SendCall.advance, SendPlace.call, hpass]
  rfl

theorem gets_preflight_error (h : (q.preflightScopedRequest env).1 = .error e) :
    Gets env q ⟨a, b, .preflight⟩ (q.preflightScopedRequest env).2 ⟨a, b, .done (.error e)⟩ := by
  refine .one (.preflight (env.files q.readings)) fun announced trace =>
    ⟨announced, trace ++ [.preflight (env.files q.readings)], ?_⟩
  have hfail : q.endpoint.preflightScopedRequest env.parseManifest (env.files q.readings) = .error e := h
  simp only [SendCall.advance, SendPlace.call, hfail]
  rfl

/-- The announcement lock: what was resolved, and where that leads. -/
theorem gets_note {purpose : Purpose} {resolved : Option String}
    (hendpoint : q'.endpoint = (q.endpoint.classifyResolution resolved).2) (hauth : q'.auth = q.auth) :
    Gets env q ⟨a, b, .note purpose resolved⟩ q'
      ⟨a, b, (SendCall.start.onNoted q.endpoint.repoRoot purpose resolved).pc⟩ := by
  refine .one .note fun announced trace => ?_
  rw [hendpoint, hauth]
  have hcall : SendCall.onNoted ⟨a, b, .note purpose resolved, trace⟩ q.endpoint.repoRoot purpose resolved =
      ⟨a, b, (SendCall.start.onNoted q.endpoint.repoRoot purpose resolved).pc, trace⟩ := by
    cases purpose <;> cases resolved <;> rfl
  cases hroot : q.endpoint.repoRoot with
  | none =>
    have hquiet : q.endpoint.classifyResolution resolved = (.quiet, q.endpoint) := by
      simp [DaemonEndpoint.classifyResolution, hroot]
    refine ⟨announced, trace, ?_⟩
    rw [hroot] at hcall
    simp only [SendCall.advance, SendPlace.call, SendCells.noteResolution, hroot, hquiet, hcall]
  | some root =>
    refine ⟨announced ++ [(resolved, (q.endpoint.classifyResolution resolved).1)], trace, ?_⟩
    rw [hroot] at hcall
    simp only [SendCall.advance, SendPlace.call, SendCells.noteResolution, hroot, hcall]

theorem gets_store {purpose : Purpose} (hendpoint : q'.endpoint = { q.endpoint with baseUrl := url })
    (hauth : q'.auth = q.auth) :
    Gets env q ⟨a, b, .store purpose url⟩ q' ⟨a, b, (SendCall.start.onStored url purpose).pc⟩ := by
  refine .one .store fun announced trace => ⟨announced, trace, ?_⟩
  have hcall : SendCall.onStored ⟨a, b, .store purpose url, trace⟩ url purpose =
      ⟨a, b, (SendCall.start.onStored url purpose).pc, trace⟩ := by
    cases purpose with
    | request => rfl
    | retry failedBase e =>
      simp only [SendCall.onStored]
      split <;> rfl
  rw [hendpoint, hauth]
  simp only [SendCall.advance, SendPlace.call, SendCells.storeBase, hcall]

/-- The reading of the port file, where there is one to be made. -/
theorem gets_resolve {purpose : Purpose} (h : q.endpoint.repoRoot ≠ none ∨ purpose ≠ .request) (l : Local) :
    Gets env q ⟨a, b, .resolve purpose⟩ q ⟨a, b, .note purpose (resolveAt q.endpoint.repoRoot l)⟩ := by
  refine .one (.resolve l) fun announced trace => ⟨announced, trace ++ [.resolve l], ?_⟩
  cases hroot : q.endpoint.repoRoot with
  | none =>
    cases purpose with
    | request => exact absurd rfl (h.resolve_left (fun hne => hne hroot))
    | retry failedBase e =>
      simp only [SendCall.advance, SendPlace.call, hroot]
      rfl
  | some root =>
    simp only [SendCall.advance, SendPlace.call, hroot]
    rfl

/-- An endpoint that is found is announced and stored. -/
theorem gets_resolution {purpose : Purpose} {l : Local} (h : q.endpoint.repoRoot ≠ none ∨ purpose ≠ .request)
    (hfound : resolveAt q.endpoint.repoRoot l = some url)
    (hendpoint : q'.endpoint = { (q.endpoint.classifyResolution (some url)).2 with baseUrl := url })
    (hauth : q'.auth = q.auth) :
    Gets env q ⟨a, b, .resolve purpose⟩ q' ⟨a, b, (SendCall.start.onStored url purpose).pc⟩ := by
  have hnoted : Gets env q ⟨a, b, .note purpose (some url)⟩
      { q with endpoint := (q.endpoint.classifyResolution (some url)).2 } ⟨a, b, .store purpose url⟩ := by
    have hpc : (SendCall.start.onNoted q.endpoint.repoRoot purpose (some url)).pc = .store purpose url := by
      cases purpose <;> rfl
    rw [← hpc]
    exact gets_note rfl rfl
  have hresolved : Gets env q ⟨a, b, .resolve purpose⟩ q ⟨a, b, .note purpose (resolveAt q.endpoint.repoRoot l)⟩ :=
    gets_resolve h l
  rw [hfound] at hresolved
  exact (hresolved.trans hnoted).trans (gets_store hendpoint hauth)

theorem gets_unresolved {purpose : Purpose} {l : Local} (h : q.endpoint.repoRoot ≠ none ∨ purpose ≠ .request)
    (hfound : resolveAt q.endpoint.repoRoot l = none)
    (hendpoint : q'.endpoint = (q.endpoint.classifyResolution none).2) (hauth : q'.auth = q.auth) :
    Gets env q ⟨a, b, .resolve purpose⟩ q'
      ⟨a, b, (SendCall.start.onNoted q.endpoint.repoRoot purpose none).pc⟩ := by
  have hresolved : Gets env q ⟨a, b, .resolve purpose⟩ q ⟨a, b, .note purpose (resolveAt q.endpoint.repoRoot l)⟩ :=
    gets_resolve h l
  rw [hfound] at hresolved
  exact hresolved.trans (gets_note hendpoint hauth)

/-- The endpoint of an attempt. -/
theorem gets_prepared_ok (h : (q.preparedBaseUrl env).1 = .ok url) :
    Gets env q ⟨a, b, .resolve .request⟩ (q.preparedBaseUrl env).2 ⟨a, b, .authorize url⟩ := by
  cases hroot : q.endpoint.repoRoot with
  | none =>
    have hurl : q.preparedBaseUrl env = (.ok q.endpoint.baseUrl, { q with readings := q.readings + 1 }) := by
      simp only [Cells.preparedBaseUrl, DaemonEndpoint.preparedBaseUrl, hroot]
    rw [hurl] at h ⊢
    cases h
    refine .one (.resolve (env.files q.readings)) fun announced trace =>
      ⟨announced, trace ++ [.resolve (env.files q.readings)], ?_⟩
    simp only [SendCall.advance, SendPlace.call, hroot]
    rfl
  | some root =>
    have hscoped : q.endpoint.repoRoot ≠ none ∨ Purpose.request ≠ .request := .inl (by simp [hroot])
    cases hfound : resolveUrl (env.files q.readings) with
    | none => simp [Cells.preparedBaseUrl, DaemonEndpoint.preparedBaseUrl, hroot, hfound] at h
    | some found =>
      have hurl : (q.preparedBaseUrl env).2.endpoint =
          { (q.endpoint.classifyResolution (some found)).2 with baseUrl := found } := by
        simp only [Cells.preparedBaseUrl, DaemonEndpoint.preparedBaseUrl, hroot, hfound]
      obtain rfl : found = url := by
        simpa [Cells.preparedBaseUrl, DaemonEndpoint.preparedBaseUrl, hroot, hfound] using h
      exact gets_resolution hscoped (by rw [hroot]; exact hfound) hurl rfl

theorem gets_prepared_error (h : (q.preparedBaseUrl env).1 = .error e) :
    Gets env q ⟨a, b, .resolve .request⟩ (q.preparedBaseUrl env).2 ⟨a, b, .done (.error e)⟩ := by
  cases hroot : q.endpoint.repoRoot with
  | none => simp [Cells.preparedBaseUrl, DaemonEndpoint.preparedBaseUrl, hroot] at h
  | some root =>
    have hscoped : q.endpoint.repoRoot ≠ none ∨ Purpose.request ≠ .request := .inl (by simp [hroot])
    cases hfound : resolveUrl (env.files q.readings) with
    | some found => simp [Cells.preparedBaseUrl, DaemonEndpoint.preparedBaseUrl, hroot, hfound] at h
    | none =>
      have hlost : (q.preparedBaseUrl env).2.endpoint = (q.endpoint.classifyResolution none).2 := by
        simp only [Cells.preparedBaseUrl, DaemonEndpoint.preparedBaseUrl, hroot, hfound]
      have herror : "kin-daemon endpoint is not currently advertised for " ++ root = e := by
        simpa [Cells.preparedBaseUrl, DaemonEndpoint.preparedBaseUrl, hroot, hfound] using h
      have hdone : Gets env q ⟨a, b, .resolve .request⟩ (q.preparedBaseUrl env).2
          ⟨a, b, (SendCall.start.onNoted q.endpoint.repoRoot .request none).pc⟩ :=
        gets_unresolved hscoped (by rw [hroot]; exact hfound) hlost rfl
      rw [hroot] at hdone
      rw [← herror]
      exact hdone

/-- After a failure the endpoint is resolved again. -/
theorem gets_refreshed (env : Surroundings) (q : Cells) (a b : Bool) (e failedBase : String) :
    ∃ pc, Gets env q ⟨a, b, .resolve (.retry failedBase e)⟩ (q.refreshAfterFailure env failedBase).2 ⟨a, b, pc⟩ ∧
      ((q.refreshAfterFailure env failedBase).1.isSome = true → pc = .preflight) ∧
      ((q.refreshAfterFailure env failedBase).1.isSome = false → pc = .done (.error e)) := by
  have hretry : q.endpoint.repoRoot ≠ none ∨ Purpose.retry failedBase e ≠ .request := .inr (by simp)
  cases hfound : resolveAt q.endpoint.repoRoot (env.files q.readings) with
  | none =>
    have hx : q.refreshAfterFailure env failedBase = (none,
        { q with endpoint := (q.endpoint.classifyResolution none).2, readings := q.readings + 1 }) := by
      simp only [Cells.refreshAfterFailure, hfound]
    rw [hx]
    exact ⟨_, gets_unresolved hretry hfound rfl rfl, by simp, fun _ => rfl⟩
  | some found =>
    have hx : q.refreshAfterFailure env failedBase = (if found ≠ failedBase then some found else none,
        { q with
          endpoint := { (q.endpoint.classifyResolution (some found)).2 with baseUrl := found }
          readings := q.readings + 1 }) := by
      simp only [Cells.refreshAfterFailure, hfound]
    rw [hx]
    refine ⟨_, gets_resolution hretry hfound rfl rfl, ?_⟩
    simp only [SendCall.onStored]
    by_cases hne : found ≠ failedBase
    · rw [if_pos hne, if_pos hne]
      exact ⟨fun _ => rfl, by simp⟩
    · rw [if_neg hne, if_neg hne]
      exact ⟨by simp, fun _ => rfl⟩

/-- The request goes out with the token that is held. -/
theorem gets_sent (request : HttpRequest) :
    Gets env q ⟨a, b, .authorize url⟩ (q.send env request).2 ⟨a, b, .receive url q.auth.token⟩ := by
  have hauthorized : Gets env q ⟨a, b, .authorize url⟩ q ⟨a, b, .send url q.auth.token⟩ :=
    .one .authorize fun announced trace => ⟨announced, trace, rfl⟩
  have hsent : Gets env q ⟨a, b, .send url q.auth.token⟩ (q.send env request).2 ⟨a, b, .receive url q.auth.token⟩ :=
    .one .send fun announced trace => ⟨announced, trace ++ [.send url q.auth.token], rfl⟩
  exact hauthorized.trans hsent

/-- After a `401` the token is read again, and compared under its lock. -/
theorem gets_compare (response : Response) :
    Gets env q ⟨a, b, .refresh response⟩ q ⟨a, b, .compare response
      (DaemonAuth.resolveToken q.auth.explicit q.auth.repoRoot (env.tokens q.readings))⟩ :=
  .one (.refresh (env.tokens q.readings)) fun announced trace => ⟨announced, trace, rfl⟩

/-- Another token is another attempt. -/
theorem gets_otherToken {response : Response} (h : (q.refreshToken env).1.isSome = true) :
    Gets env q ⟨a, b, .refresh response⟩ (q.refreshToken env).2 ⟨a, b, .preflight⟩ := by
  refine (gets_compare response).trans (.one .compare fun announced trace => ⟨announced, trace, ?_⟩)
  simp only [Cells.refreshToken] at h
  simp only [SendCall.advance, SendPlace.call, Cells.refreshToken, h, if_true]
  rfl

theorem gets_sameToken {response : Response} (h : (q.refreshToken env).1.isSome = false) :
    Gets env q ⟨a, b, .refresh response⟩ (q.refreshToken env).2 ⟨a, b, .done (.ok response)⟩ := by
  refine (gets_compare response).trans (.one .compare fun announced trace => ⟨announced, trace, ?_⟩)
  simp only [Cells.refreshToken] at h
  simp only [SendCall.advance, SendPlace.call, Cells.refreshToken, h, Bool.false_eq_true, if_false]
  rfl

theorem gets_answer {bearer : Option String} (answer : Except String Response)
    (h : ∀ trace, SendCall.onAnswer ⟨a, b, .receive url bearer, trace⟩ url answer = x'.call trace) :
    Gets env q ⟨a, b, .receive url bearer⟩ q x' := by
  refine .one (.receive answer) fun announced trace => ⟨announced, trace ++ [.answer answer], ?_⟩
  rw [← h]
  rfl

section Answers

variable {bearer : Option String} {response : Response}

theorem gets_unauthorized (h : response.status = 401 ∧ b = false) :
    Gets env q ⟨a, b, .receive url bearer⟩ q ⟨a, true, .refresh response⟩ :=
  gets_answer (.ok response) fun trace => by rw [SendCall.onAnswer, if_pos h]; rfl

theorem gets_answered (h : ¬ (response.status = 401 ∧ b = false)) :
    Gets env q ⟨a, b, .receive url bearer⟩ q ⟨a, b, .done (.ok response)⟩ :=
  gets_answer (.ok response) fun trace => by rw [SendCall.onAnswer, if_neg h]; rfl

theorem gets_unreached (h : a = false) :
    Gets env q ⟨a, b, .receive url bearer⟩ q ⟨true, b, .resolve (.retry url e)⟩ :=
  gets_answer (.error e) fun trace => by rw [SendCall.onAnswer, if_pos h]; rfl

theorem gets_failed (h : a ≠ false) : Gets env q ⟨a, b, .receive url bearer⟩ q ⟨a, b, .done (.error e)⟩ :=
  gets_answer (.error e) fun trace => by rw [SendCall.onAnswer, if_neg h]; rfl

end Answers

/-- **A request** of `Providers` is one of `SendRetry` that no other comes between: the same attempts lead to the
same result, and to the same endpoint and token. -/
theorem sendFrom_gets (build : String → HttpRequest) (a b : Bool) (p : KinDaemonProvider) :
    ∃ a' b', Gets env p.cells ⟨a, b, .preflight⟩ (exec (sendWithAuthRetryFrom env build a b) p).2.cells
      ⟨a', b', .done ((exec (sendWithAuthRetryFrom env build a b) p).1.map HttpResponse.head)⟩ := by
  induction hleft : retriesLeft a b using Nat.strongRecOn generalizing a b p with
  | _ left ih =>
    rw [sendWithAuthRetryFrom, exec_bind, exec_access]
    dsimp only
    rw [exec_bind, exec_lift]
    cases hpreflight : (p.cells.preflightScopedRequest env).1 with
    | error e => exact ⟨a, b, gets_preflight_error hpreflight⟩
    | ok _ =>
      have hfirst := gets_preflight_ok (a := a) (b := b) hpreflight
      dsimp only
      generalize (p.cells.preflightScopedRequest env).2 = q at hfirst
      rw [exec_bind, exec_access]
      dsimp only
      rw [exec_bind, exec_lift]
      cases hprepared : (q.preparedBaseUrl env).1 with
      | error e => exact ⟨a, b, hfirst.trans (gets_prepared_error hprepared)⟩
      | ok url =>
        have hsecond := hfirst.trans (gets_prepared_ok hprepared)
        dsimp only
        generalize (q.preparedBaseUrl env).2 = q' at hsecond
        obtain ⟨request, hrequest⟩ := exec_authorized (build url) { p with cells := q' }
        rw [exec_bind, hrequest]
        dsimp only
        have hsent := hsecond.trans (gets_sent request)
        rw [exec_bind, exec_access]
        dsimp only
        cases hanswer : (q'.send env request).1 with
        | ok response =>
          dsimp only
          by_cases hauth : response.status = 401 ∧ b = false
          · -- The token was refused, and may have been replaced.
            have hrefused : Gets env p.cells ⟨a, b, .preflight⟩ (q'.send env request).2
                ⟨a, true, .refresh response.head⟩ :=
              hsent.trans (gets_unauthorized hauth)
            rw [dif_pos hauth, exec_bind, exec_access]
            dsimp only
            generalize (q'.send env request).2 = r at hrefused ⊢
            cases hfresh : (r.refreshToken env).1.isSome with
            | true =>
              rw [if_pos rfl]
              obtain ⟨a', b', hrest⟩ := ih _ (by simp [← hleft, retriesLeft, hauth.2]) a true
                { p with cells := (r.refreshToken env).2 } rfl
              exact ⟨a', b', (hrefused.trans (gets_otherToken hfresh)).trans hrest⟩
            | false =>
              rw [if_neg (by simp), exec_bind]
              obtain ⟨capture, hrecord⟩ := exec_recordLookupEndpoint url { p with cells := (r.refreshToken env).2 }
              rw [hrecord]
              exact ⟨a, true, hrefused.trans (gets_sameToken hfresh)⟩
          · rw [dif_neg hauth, exec_bind]
            obtain ⟨capture, hrecord⟩ := exec_recordLookupEndpoint url { p with cells := (q'.send env request).2 }
            rw [hrecord]
            exact ⟨a, b, hsent.trans (gets_answered hauth)⟩
        | error e =>
          dsimp only
          by_cases hunused : a = false
          · rw [dif_pos hunused, exec_bind, exec_access]
            dsimp only
            have hagain := hsent.trans (gets_unreached (e := e) hunused)
            generalize (q'.send env request).2 = r at hagain ⊢
            obtain ⟨pc, hrefreshed, hother, hsame⟩ := gets_refreshed env r true b e url
            cases hfresh : (r.refreshAfterFailure env url).1.isSome with
            | true =>
              rw [if_pos rfl]
              obtain ⟨a', b', hrest⟩ := ih _ (by simp [← hleft, retriesLeft, hunused]) true b
                { p with cells := (r.refreshAfterFailure env url).2 } rfl
              rw [hother hfresh] at hrefreshed
              exact ⟨a', b', (hagain.trans hrefreshed).trans hrest⟩
            | false =>
              rw [if_neg (by simp), exec_bind]
              obtain ⟨capture, hrecord⟩ := exec_recordLookupEndpoint url
                { p with cells := (r.refreshAfterFailure env url).2 }
              rw [hrecord]
              rw [hsame hfresh] at hrefreshed
              exact ⟨true, b, hagain.trans hrefreshed⟩
          · rw [dif_neg hunused, exec_bind]
            obtain ⟨capture, hrecord⟩ := exec_recordLookupEndpoint url { p with cells := (q'.send env request).2 }
            rw [hrecord]
            exact ⟨a, b, hsent.trans (gets_failed hunused)⟩

/-- What a request has no business with. -/
def KinDaemonProvider.held (p : KinDaemonProvider) : Option CachedTree × ContentCache :=
  (p.cells.tree, p.cells.contentCache)

def Keeps {ε α : Type} (x : SyncM ε α) : Prop := ∀ p, (exec x p).2.held = p.held

theorem Keeps.bind {ε α β : Type} {x : SyncM ε α} {f : α → SyncM ε β} (hx : Keeps x) (hf : ∀ a, Keeps (f a)) :
    Keeps (x >>= f) := by
  intro p
  have hfirst := hx p
  rw [exec_bind]
  rcases hexec : exec x p with ⟨_ | a, p₁⟩
  · rw [hexec] at hfirst
    exact hfirst
  · rw [hexec] at hfirst
    exact (hf a p₁).trans hfirst

theorem keeps_pure {ε α : Type} (a : α) : Keeps (pure a : SyncM ε α) := fun _ => rfl

theorem keeps_throw {ε α : Type} (e : ε) : Keeps (throw e : SyncM ε α) := fun _ => rfl

theorem keeps_lift {ε α : Type} (r : Except ε α) : Keeps (lift r : SyncM ε α) := by
  intro p
  rw [exec_lift]

theorem keeps_access {ε α : Type} {f : Cells → α × Cells}
    (h : ∀ c, (f c).2.tree = c.tree ∧ (f c).2.contentCache = c.contentCache) : Keeps (access f : SyncM ε α) :=
  fun p => Prod.ext (h p.cells).1 (h p.cells).2

theorem keeps_recordLookupEndpoint (endpoint : String) :
    Keeps (recordLookupEndpoint endpoint : SyncM String Unit) := by
  intro p
  obtain ⟨capture, hrecord⟩ := exec_recordLookupEndpoint endpoint p
  rw [hrecord]
  rfl

theorem keeps_authorized (request : HttpRequest) : Keeps (authorized request : SyncM String HttpRequest) := by
  intro p
  obtain ⟨request', hrequest⟩ := exec_authorized request p
  rw [hrequest]

theorem keeps_sendFrom (build : String → HttpRequest) (a b : Bool) : Keeps (sendWithAuthRetryFrom env build a b) := by
  induction hleft : retriesLeft a b using Nat.strongRecOn generalizing a b with
  | _ left ih =>
    rw [sendWithAuthRetryFrom]
    refine .bind (keeps_access fun c => ⟨rfl, rfl⟩) fun preflight => .bind (keeps_lift preflight) fun _ => ?_
    refine .bind (keeps_access fun c => ⟨rfl, rfl⟩) fun prepared => .bind (keeps_lift prepared) fun url => ?_
    refine .bind (keeps_authorized _) fun request => .bind (keeps_access fun c => ⟨rfl, rfl⟩) fun answer => ?_
    cases answer with
    | ok response =>
      dsimp only
      by_cases hauth : response.status = 401 ∧ b = false
      · rw [dif_pos hauth]
        refine .bind (keeps_access fun c => ⟨rfl, rfl⟩) fun fresh => ?_
        cases fresh.isSome with
        | true => exact ih _ (by simp [← hleft, retriesLeft, hauth.2]) a true rfl
        | false => exact .bind (keeps_recordLookupEndpoint url) fun _ => keeps_pure response
      · rw [dif_neg hauth]
        exact .bind (keeps_recordLookupEndpoint url) fun _ => keeps_pure response
    | error e =>
      dsimp only
      by_cases hunused : a = false
      · rw [dif_pos hunused]
        refine .bind (keeps_access fun c => ?_) fun fresh => ?_
        · simp only [Cells.refreshAfterFailure]
          split <;> exact ⟨rfl, rfl⟩
        · cases fresh.isSome with
          | true => exact ih _ (by simp [← hleft, retriesLeft, hunused]) true b rfl
          | false => exact .bind (keeps_recordLookupEndpoint url) fun _ => keeps_throw e
      · rw [dif_neg hunused]
        exact .bind (keeps_recordLookupEndpoint url) fun _ => keeps_throw e

/-! ## `fetch_verified_blob` -/

/-- What the fetch of a blob looks at of a response. -/
def HttpResponse.blob (response : HttpResponse) : BlobResponse := ⟨response.status, response.body⟩

theorem get_eq_none {hash : Hash256} {cache cache' : ContentCache} (h : Lru.get hash cache = (none, cache')) :
    cache' = cache := by
  unfold Lru.get at h
  split at h
  · cases h
    rfl
  · cases h

/-- What the request for a blob brings. -/
def blobAnswer (env : Surroundings) (hash : Hash256) (p : KinDaemonProvider) : Except String BlobResponse :=
  (exec (sendWithAuthRetry env fun endpoint => ⟨blobUrlAt env endpoint hash, none, none⟩) p).1.map HttpResponse.blob

/-- **A blob** of `Providers` is one of `BlobReads`, from what the request for it brought: the same result, and the
same cache. -/
theorem fetchVerifiedBlob_eq (hash : Hash256) (expectedSize : Nat) (path : VfsPath) (p : KinDaemonProvider) :
    exec (KinVfs.KinDaemonProvider.fetchVerifiedBlob env.wire (fun hash => blobAnswer env hash p) hash expectedSize
        path) p.cells.contentCache =
      ((exec (fetchVerifiedBlob env hash expectedSize path) p).1,
        (exec (fetchVerifiedBlob env hash expectedSize path) p).2.cells.contentCache) := by
  have hget : p.cells.cacheGet hash = ((Lru.get hash p.cells.contentCache).1,
      { p.cells with contentCache := (Lru.get hash p.cells.contentCache).2 }) := rfl
  unfold KinVfs.KinDaemonProvider.fetchVerifiedBlob fetchVerifiedBlob
  rw [exec_bind, exec_get, exec_bind, exec_access, hget]
  dsimp only
  rcases hcached : Lru.get hash p.cells.contentCache with ⟨_ | data, cache⟩
  · obtain rfl := get_eq_none hcached
    dsimp only
    have hkept : (exec (sendWithAuthRetry env fun endpoint => ⟨blobUrlAt env endpoint hash, none, none⟩) p).2.held =
        p.held := keeps_sendFrom _ false false p
    rw [exec_bind, exec_ofExcept, KinVfs.KinDaemonProvider.downloadVerified, blobAnswer, exec_bind, exec_mapErr]
    generalize exec (sendWithAuthRetry env fun endpoint => ⟨blobUrlAt env endpoint hash, none, none⟩) p = sent
      at hkept ⊢
    obtain ⟨result, p₁⟩ := sent
    have hcache : p₁.cells.contentCache = p.cells.contentCache := congrArg Prod.snd hkept
    cases result with
    | error e => exact Prod.ext rfl hcache.symm
    | ok response =>
      dsimp only [Except.map, Except.mapError, responseBody, HttpResponse.blob]
      by_cases hmissing : response.status = 404
      · rw [if_pos hmissing, if_pos hmissing]
        exact Prod.ext rfl hcache.symm
      rw [if_neg hmissing, if_neg hmissing]
      by_cases hfailed : (!isSuccess response.status) = true
      · rw [if_pos hfailed, if_pos hfailed]
        exact Prod.ext rfl hcache.symm
      rw [if_neg hfailed, if_neg hfailed]
      cases response.body with
      | error e => exact Prod.ext rfl hcache.symm
      | ok data =>
        dsimp only [Except.mapError]
        rw [exec_bind, exec_lift]
        dsimp only
        rw [exec_bind, exec_lift]
        cases hsize : verifySize expectedSize data.length path with
        | error e =>
          simp only [bind, Except.bind, hsize]
          exact Prod.ext rfl hcache.symm
        | ok _ =>
          dsimp only
          rw [exec_bind, exec_lift]
          cases hhash : verifyBlob env.wire hash data path with
          | error e =>
            simp only [bind, Except.bind, hsize, hhash]
            exact Prod.ext rfl hcache.symm
          | ok _ =>
            simp only [bind, Except.bind, hsize, hhash]
            refine Prod.ext rfl ?_
            show Lru.put contentCacheCap hash data p.cells.contentCache =
              Lru.put contentCacheCap hash data p₁.cells.contentCache
            rw [hcache]
  · rfl

/-! ## `ensure_tree` -/

/-- What the refresh looks at of a response. -/
def HttpResponse.document (env : Surroundings) (response : HttpResponse) : TreeResponse :=
  ⟨response.status, response.etag, response.body.bind env.decode⟩

/-- The provider of `KinProvider`, with the endpoint and the files as they are at one moment. -/
def scopeAt (env : Surroundings) (c : Cells) : ProviderScope :=
  ⟨env.codec, env.wire.showStatus, env.parseManifest, c.endpoint, env.files c.readings⟩

/-- A document is accepted as there, and then installed. -/
theorem exec_acceptTree (env : Surroundings) (response : HttpResponse) (p : KinDaemonProvider) :
    ∃ p' : KinDaemonProvider, p'.cells.tree = p.cells.tree ∧ exec (acceptTree env response) p =
      exec (do installTree (← lift ((scopeAt env p.cells).acceptDocument (response.document env)))) p' := by
  unfold acceptTree ProviderScope.acceptDocument HttpResponse.document
  rw [exec_bind, exec_lift]
  cases parseEtagHeader response.etag with
  | error e => exact ⟨p, rfl, rfl⟩
  | ok headerEtag =>
    dsimp only
    rw [exec_bind, exec_lift]
    cases (response.body.bind env.decode).mapError ("tree document parse failed: " ++ ·) with
    | error e => exact ⟨p, rfl, rfl⟩
    | ok snapshot =>
      dsimp only
      rw [exec_bind, exec_lift]
      cases hidentity : (env.codec.identity snapshot).mapError ("tree document validation failed: " ++ ·) with
      | error e =>
        refine ⟨p, rfl, ?_⟩
        simp only [scopeAt, bind, Except.bind, hidentity]
        rfl
      | ok documentEtag =>
        dsimp only
        by_cases hetag : documentEtag ≠ headerEtag
        · rw [if_pos hetag]
          refine ⟨p, rfl, ?_⟩
          simp only [scopeAt, bind, Except.bind, hidentity, if_pos hetag]
          rfl
        · rw [if_neg hetag, exec_bind, exec_access]
          dsimp only
          rw [exec_bind, exec_lift]
          refine ⟨{ p with cells := { p.cells with readings := p.cells.readings + 1 } }, rfl, ?_⟩
          simp only [scopeAt, bind, Except.bind, hidentity, if_neg hetag, ProviderScope.validateTreeIdentity,
            Cells.validateTreeIdentity]
          cases p.cells.endpoint.validateTreeIdentity env.parseManifest (env.files p.cells.readings)
              snapshot.binding.repositoryId snapshot.binding.workspaceId with
          | error e => rfl
          | ok _ => rfl

/-- What the request for the tree brings, and the provider after it. -/
def treeAnswer (env : Surroundings) (p : KinDaemonProvider) : Except String HttpResponse × KinDaemonProvider :=
  exec (sendWithAuthRetry env fun endpoint =>
    ⟨urlAt env endpoint treeRoute, none, (p.cells.tree.map (·.etag)).map ifNoneMatchValue⟩) p

theorem treeAnswer_tree (p : KinDaemonProvider) : (treeAnswer env p).2.cells.tree = p.cells.tree :=
  congrArg Prod.fst (keeps_sendFrom _ false false p)

/-- Steps of a call of `KinProvider`, with no other one between them, take it from `pc` to the end of its refresh,
with the result and the tree of `x`. -/
def Ensured (scope : ProviderScope) (tree : Option CachedTree) (pc : ReadPc)
    (x : Except String Unit × KinDaemonProvider) : Prop :=
  ∀ op documents captured checked installed clock, ∃ labels call installed',
    Runs.run (ProviderSys.step scope) ⟨tree, [⟨op, pc, documents, captured, checked⟩], installed, clock⟩ labels =
      some ⟨x.2.cells.tree, [call], installed', clock⟩ ∧ call.op = op ∧ call.pc = .ensured x.1

variable {scope : ProviderScope} {tree : Option CachedTree} {x : Except String Unit × KinDaemonProvider}

theorem Ensured.done {result : Except String Unit} {p : KinDaemonProvider} (h : p.cells.tree = tree) :
    Ensured scope tree (.ensured result) (result, p) :=
  fun op documents captured checked installed clock => ⟨[], _, installed, by rw [h]; rfl, rfl, rfl⟩

theorem Ensured.start (answer : Except String TreeResponse)
    (h : Ensured scope tree (scope.onAnswer (tree.map (·.etag)) answer) x) : Ensured scope tree .start x := by
  intro op documents captured checked installed clock
  obtain ⟨labels, call, installed', hrun, hcall⟩ := h op
    (documents ++ ProviderSys.documentAt (scope.onAnswer (tree.map (·.etag)) answer)) installed.length checked installed
    clock
  exact ⟨.capture 0 :: .receive 0 answer :: labels, call, installed', hrun, hcall⟩

theorem Ensured.confirm {etag : String} (hresult : x.1 = scope.confirm tree etag) (htree : x.2.cells.tree = tree) :
    Ensured scope tree (.confirming etag) x := by
  intro op documents captured checked installed clock
  refine ⟨[.confirm 0], ⟨op, .ensured x.1, documents ++ ProviderSys.confirmedVersion tree x.1, captured,
    installed.length⟩, installed, ?_, rfl, rfl⟩
  rw [htree, hresult]
  rfl

/-- The comparison and the installation. -/
theorem Ensured.install {next : CachedTree} (p : KinDaemonProvider) (htree : p.cells.tree = tree) :
    Ensured scope tree (.validated next) (exec (installTree next) p) := by
  intro op documents captured checked installed clock
  unfold installTree
  rw [exec_bind, exec_access, htree]
  dsimp only
  rw [exec_lift]
  cases hplan : planSuccession tree next with
  | error e =>
    refine ⟨[.install 0], ⟨op, .ensured (.error e), documents, captured, checked⟩, installed,
      Runs.run_cons_eq_some.mpr ⟨_, ?_, rfl⟩, rfl, rfl⟩
    simp only [ProviderSys.step, ProviderSys.stepInstall, List.getElem?_cons_zero, hplan, htree]
    rfl
  | ok succession =>
    cases succession with
    | install =>
      refine ⟨[.install 0], ⟨op, .ensured (.ok ()), documents, captured, checked⟩, installed ++ [(0, next)],
        Runs.run_cons_eq_some.mpr ⟨_, ?_, rfl⟩, rfl, rfl⟩
      simp only [ProviderSys.step, ProviderSys.stepInstall, List.getElem?_cons_zero, hplan]
      rfl
    | retainCurrent =>
      refine ⟨[.install 0], ⟨op, .ensured (.ok ()), documents, captured, checked⟩, installed,
        Runs.run_cons_eq_some.mpr ⟨_, ?_, rfl⟩, rfl, rfl⟩
      simp only [ProviderSys.step, ProviderSys.stepInstall, List.getElem?_cons_zero, hplan, htree]
      rfl

/-- What the refresh makes of an answer. -/
theorem exec_ensureTree (p : KinDaemonProvider) :
    exec (ensureTree env) p =
      exec (do
        let response ← lift ((treeAnswer env p).1.mapError ("tree request failed: " ++ ·))
        if response.status = 304 then confirmTree env (p.cells.tree.map (·.etag))
        else if !isSuccess response.status then throw ("tree returned status " ++ env.wire.showStatus response.status)
        else acceptTree env response) (treeAnswer env p).2 := by
  unfold ensureTree
  rw [exec_bind, exec_access]
  dsimp only
  rw [exec_bind, exec_mapErr, exec_bind, exec_lift]
  rfl

/-- A `304` is checked as there. -/
theorem exec_confirmTree (env : Surroundings) (etag : String) (p : KinDaemonProvider) :
    (exec (confirmTree env (some etag)) p).1 = (scopeAt env p.cells).confirm p.cells.tree etag ∧
      (exec (confirmTree env (some etag)) p).2.cells.tree = p.cells.tree := by
  unfold confirmTree
  dsimp only
  rw [exec_bind, exec_access]
  dsimp only [Cells.readTree]
  cases htree : p.cells.tree with
  | none => exact ⟨rfl, htree⟩
  | some cached =>
    dsimp only [ProviderScope.confirm]
    by_cases hetag : cached.etag ≠ etag
    · rw [if_pos hetag, if_pos hetag]
      exact ⟨rfl, htree⟩
    · rw [if_neg hetag, if_neg hetag, exec_bind, exec_access]
      dsimp only
      rw [exec_lift]
      exact ⟨rfl, htree⟩

/-- **A refresh** of `Providers` is one of `KinProvider` that no other comes between: it ends with the same result
and the same tree. -/
theorem ensureTree_ensured (p : KinDaemonProvider) :
    Ensured (scopeAt env (treeAnswer env p).2.cells) p.cells.tree .start (exec (ensureTree env) p) := by
  have htree : (treeAnswer env p).2.cells.tree = p.cells.tree := treeAnswer_tree p
  rw [exec_ensureTree, exec_bind, exec_lift]
  generalize treeAnswer env p = sent at htree ⊢
  obtain ⟨result, p₁⟩ := sent
  refine .start (result.map (HttpResponse.document env)) ?_
  dsimp only at htree ⊢
  cases result with
  | error e => exact .done htree
  | ok response =>
    dsimp only [Except.mapError, Except.map, ProviderScope.onAnswer, HttpResponse.document]
    by_cases hconfirmed : response.status = 304
    · rw [if_pos hconfirmed, if_pos hconfirmed]
      cases hetag : p.cells.tree.map (·.etag) with
      | none => exact .done htree
      | some etag =>
        obtain ⟨hresult, hsame⟩ := exec_confirmTree env etag p₁
        rw [htree] at hresult hsame
        exact .confirm hresult hsame
    · rw [if_neg hconfirmed, if_neg hconfirmed]
      by_cases hfailed : (!isSuccess response.status) = true
      · rw [if_pos hfailed, if_pos hfailed]
        exact .done htree
      · rw [if_neg hfailed, if_neg hfailed]
        obtain ⟨p₂, hsame, haccept⟩ := exec_acceptTree env response p₁
        rw [haccept, exec_bind, exec_lift]
        dsimp only [HttpResponse.document]
        cases (scopeAt env p₁.cells).acceptDocument ⟨response.status, response.etag, response.body.bind env.decode⟩ with
        | error e => exact .done (hsame.trans htree)
        | ok next => exact .install p₂ (hsame.trans htree)

end KinVfs.Providers
