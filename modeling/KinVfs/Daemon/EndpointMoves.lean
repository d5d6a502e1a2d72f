import KinVfs.Daemon.SendRetry

/-!
# Where the requests of a provider go

* `announced_exactly`: the transitions that a scoped provider announces are the changes of what was
  resolved, in the order of the announcement lock.
* `dials_only_pin`: a provider without a root dials the URL it was built with, as long as no failure
  finds another one in `KIN_DAEMON_URL`: `refresh_after_failure` follows the override for it too.
-/

namespace KinVfs

variable {parse : Bytes → Except String ManifestIdentity}

/-! ## Announcements -/

section Announcements

variable {root base : String} {previous : Option String}
  {history : List (Option String × EndpointTransition)}

/-- Each transition is the change from what was resolved before it, at first from `previous`. -/
def Announces : Option String → List (Option String × EndpointTransition) → Prop
  | _, [] => True
  | previous, (resolved, transition) :: rest =>
    transition = transitionOf previous resolved ∧ Announces resolved rest

/-- What was resolved last. -/
def lastResolved (previous : Option String) (history : List (Option String × EndpointTransition)) :
    Option String :=
  (history.getLast?.map (·.1)).getD previous

/-- The state that an operator makes of the transitions announced. -/
def replayAnnounced (previous : Option String) (history : List (Option String × EndpointTransition)) :
    Option String :=
  history.foldl (fun state item =>
    match item.2 with
    | .quiet => state
    | .lost => none
    | .moved | .restored => item.1) previous

theorem lastResolved_cons (item : Option String × EndpointTransition) :
    lastResolved previous (item :: history) = lastResolved item.1 history := by
  cases history with
  | nil => rfl
  | cons next rest => simp [lastResolved, List.getLast?_cons]

theorem Announces.concat (h : Announces previous history) (resolved : Option String) :
    Announces previous
      (history ++ [(resolved, transitionOf (lastResolved previous history) resolved)]) := by
  induction history generalizing previous with
  | nil => exact ⟨rfl, trivial⟩
  | cons item rest ih =>
    obtain ⟨r, transition⟩ := item
    rw [lastResolved_cons]
    exact ⟨h.1, ih h.2⟩

theorem Announces.get (h : Announces previous history) {k : Nat} {before resolved : Option String}
    {transition : EndpointTransition} (hbefore : (previous :: history.map (·.1))[k]? = some before)
    (hk : history[k]? = some (resolved, transition)) : transition = transitionOf before resolved := by
  induction history generalizing previous k with
  | nil => cases hk
  | cons item rest ih =>
    cases k with
    | zero =>
      cases hbefore
      cases hk
      exact h.1
    | succ k => exact ih h.2 hbefore hk

theorem Announces.drop (h : Announces previous history) {i : Nat} {resolved : Option String}
    {transition : EndpointTransition} (hi : history[i]? = some (resolved, transition)) :
    Announces resolved (history.drop (i + 1)) := by
  induction history generalizing previous i with
  | nil => cases hi
  | cons item rest ih =>
    cases i with
    | zero =>
      cases hi
      exact h.2
    | succ i => exact ih h.2 hi

theorem transitionOf_eq_quiet {resolved : Option String} :
    transitionOf previous resolved = .quiet ↔ resolved = previous := by
  unfold transitionOf
  split
  · rename_i h
    exact iff_of_true rfl h
  · rename_i h
    refine iff_of_false ?_ h
    split <;> nofun

theorem transitionOf_eq_lost {resolved : Option String} :
    transitionOf previous resolved = .lost ↔ previous ≠ none ∧ resolved = none := by
  cases previous with
  | none => cases resolved <;> simp [transitionOf]
  | some url =>
    cases resolved with
    | none => simp [transitionOf]
    | some url' => by_cases h : url' = url <;> simp [transitionOf, h]

/-- After nothing was resolved, an advertisement comes back before it is lost. -/
theorem Announces.restored (h : Announces none history) {j : Nat} {resolved : Option String}
    (hj : history[j]? = some (resolved, .lost)) :
    ∃ k < j, ∃ url, history[k]? = some (some url, .restored) := by
  induction history generalizing j with
  | nil => cases hj
  | cons item rest ih =>
    obtain ⟨r, transition⟩ := item
    cases j with
    | zero =>
      cases hj
      have hnone := (transitionOf_eq_lost.mp h.1.symm).1
      exact absurd rfl hnone
    | succ j =>
      cases r with
      | none =>
        obtain ⟨k, hk, url, hurl⟩ := ih h.2 hj
        exact ⟨k + 1, Nat.succ_lt_succ hk, url, hurl⟩
      | some url =>
        refine ⟨0, Nat.zero_lt_succ j, url, ?_⟩
        rw [h.1]
        rfl

theorem Announces.replay (h : Announces previous history) :
    replayAnnounced previous (history.filter (·.2 ≠ .quiet)) = lastResolved previous history := by
  induction history generalizing previous with
  | nil => rfl
  | cons item rest ih =>
    obtain ⟨r, transition⟩ := item
    rw [lastResolved_cons, ← ih h.2, List.filter_cons]
    cases htr : transition with
    | quiet =>
      rw [transitionOf_eq_quiet.mp (h.1.symm.trans htr)]
      rfl
    | lost =>
      rw [(transitionOf_eq_lost.mp (h.1.symm.trans htr)).2]
      rfl
    | moved => rfl
    | restored => rfl

/-- What is promised of the announcements. -/
structure AnnouncedExactly (base : String) (history : List (Option String × EndpointTransition)) : Prop where
  /-- A transition is announced when the resolved value is another one than before it. -/
  change : ∀ (k : Nat) (before resolved : Option String) (transition : EndpointTransition),
    (some base :: history.map (·.1))[k]? = some before →
    history[k]? = some (resolved, transition) → (transition ≠ .quiet ↔ resolved ≠ before)
  kind : ∀ (k : Nat) (before resolved : Option String) (transition : EndpointTransition),
    (some base :: history.map (·.1))[k]? = some before →
    history[k]? = some (resolved, transition) → transition = transitionOf before resolved
  lost : ∀ (i j : Nat) (r r' : Option String), i < j → history[i]? = some (r, .lost) →
    history[j]? = some (r', .lost) → ∃ k, i < k ∧ k < j ∧ ∃ url, history[k]? = some (some url, .restored)
  replayed : replayAnnounced (some base) (history.filter (·.2 ≠ .quiet)) = lastResolved (some base) history

theorem Announces.exactly (h : Announces (some base) history) : AnnouncedExactly base history where
  change k before resolved transition hbefore hk := by
    rw [h.get hbefore hk, ne_eq, transitionOf_eq_quiet]
  kind k before resolved transition hbefore hk := h.get hbefore hk
  lost i j r r' hij hi hj := by
    have hnone : r = none := by
      have hlen : i < (some base :: history.map (·.1)).length := by
        have := (List.getElem?_eq_some_iff.mp hi).1
        simp only [List.length_cons, List.length_map]
        omega
      exact (transitionOf_eq_lost.mp (h.get (List.getElem?_eq_getElem hlen) hi).symm).2
    have hrest := h.drop hi
    rw [hnone] at hrest
    have hj' : (history.drop (i + 1))[j - (i + 1)]? = some (r', .lost) := by
      rw [List.getElem?_drop, Nat.add_sub_cancel' hij]
      exact hj
    obtain ⟨k, hk, url, hurl⟩ := hrest.restored hj'
    rw [List.getElem?_drop] at hurl
    exact ⟨i + 1 + k, by omega, by omega, url, hurl⟩
  replayed := h.replay

/-- **Endpoint changes are announced exactly once**, in the order of the announcement lock, whatever each
request captured before. -/
theorem announced_exactly {auth : DaemonAuth} {labels : List SendLabel} {s : SendSys}
    (h : Runs.run (SendSys.step parse) (.start (.new base (some root)) auth) labels = some s) :
    AnnouncedExactly base s.cells.announced ∧
      s.cells.endpoint.announcedEndpoint = lastResolved (some base) s.cells.announced := by
  let I : SendCells → Prop := fun cells => cells.endpoint.repoRoot = some root ∧
    Announces (some base) cells.announced ∧
    cells.endpoint.announcedEndpoint = lastResolved (some base) cells.announced
  have hinv : I s.cells ∧ ∀ c ∈ s.calls, True := by
    refine Runs.run_inv (P := fun s : SendSys => I s.cells ∧ ∀ c ∈ s.calls, True) ?_ ?_ h
    · intro s l s' hs hstep
      refine SendSys.step_keeps (D := fun _ _ _ => True) (Q := fun _ => True) trivial ?_ hs
        (fun _ _ _ _ _ => trivial) hstep
      rintro cells c input cells' c' ⟨hroot, hhist, hlast⟩ - - hturn
      refine ⟨⟨hturn.repoRoot.trans hroot, ?_⟩, trivial⟩
      cases hturn with
      | noted purpose resolved hpc =>
        rw [noteResolution_scoped hroot, hlast]
        refine ⟨hhist.concat resolved, ?_⟩
        simp [lastResolved]
      | _ => exact ⟨hhist, hlast⟩
    · exact ⟨⟨rfl, trivial, rfl⟩, fun _ _ => trivial⟩
  exact ⟨hinv.1.2.1.exactly, hinv.1.2.2⟩

namespace Sample

/-- A repository with a workspace and no port. -/
def unadvertised : Local := ⟨none, none, .ok manifest, some "/r"⟩

/-- The daemon moves, is lost to two requests and comes back. -/
def lostAndRestored : List SendLabel :=
  [.call, .call, .call] ++ attempt 0 "4220" (.ok ⟨200, "tree"⟩) ++
    [.preflight unadvertised, .resolve unadvertised].map (.turn 1) ++
    [.preflight unadvertised, .resolve unadvertised].map (.turn 2) ++
    [.turn 1 .note, .turn 2 .note, .call] ++ attempt 3 "4219" (.ok ⟨200, "tree"⟩)

end Sample

theorem announced_exactly_restored :
    ∃ s : SendSys, Runs.run (SendSys.step Sample.readManifest)
        (.start (.new "http://127.0.0.1:4219" (some "/r")) ⟨none, some "/r", none⟩)
        Sample.lostAndRestored = some s ∧
      s.cells.announced.map (·.2) = [.moved, .lost, .quiet, .restored] ∧
      AnnouncedExactly "http://127.0.0.1:4219" s.cells.announced := by
  have hrun : (Runs.run (SendSys.step Sample.readManifest)
      (.start (.new "http://127.0.0.1:4219" (some "/r")) ⟨none, some "/r", none⟩)
      Sample.lostAndRestored).map (fun s => s.cells.announced.map (·.2)) =
        some [.moved, .lost, .quiet, .restored] := by
    decide +kernel
  obtain ⟨s, hs, hkinds⟩ := Option.map_eq_some_iff.mp hrun
  exact ⟨s, hs, hkinds, (announced_exactly hs).1⟩

end Announcements

/-! ## The pin -/

section Pin

variable {pin : String} {cells cells' : SendCells} {c c' : SendCall} {input : SendInput}

/-- Where a request went, with the token it carried. -/
def SendEvent.dialed? : SendEvent → Option (String × Option String)
  | .send url bearer => some (url, bearer)
  | _ => none

def SendCall.dialed (c : SendCall) : List (String × Option String) := c.trace.filterMap SendEvent.dialed?

/-- What a failure finds in the environment is the pin, or nothing. -/
def FindsPin (pin : String) (_ : SendCells) (c : SendCall) (input : SendInput) : Prop :=
  ∀ failedBase e l url, c.pc = .resolve (.retry failedBase e) → input = .resolve l →
    resolveAt none l = some url → url = pin

/-- The URL that a place in the code holds for the next request. -/
def SendPc.target? : SendPc → Option String
  | .note _ resolved => resolved
  | .store _ url | .authorize url | .send url _ => some url
  | _ => none

/-- A request that knows the pin only. -/
structure SendCall.Pinned (pin : String) (c : SendCall) : Prop where
  target : ∀ url, c.pc.target? = some url → url = pin
  dialed : ∀ d ∈ c.dialed, d.1 = pin

/-- A cell that holds the pin, and no root. -/
def SendCells.Pinned (pin : String) (cells : SendCells) : Prop :=
  cells.endpoint.repoRoot = none ∧ cells.endpoint.baseUrl = pin

@[simp] theorem SendCall.dialed_goto (c : SendCall) (pc : SendPc) : (c.goto pc).dialed = c.dialed := rfl

theorem SendCall.dialed_log (c : SendCall) (e : SendEvent) :
    (c.log e).dialed = c.dialed ++ e.dialed?.toList := by
  cases e <;> simp [SendCall.dialed, SendCall.log, SendEvent.dialed?]

theorem SendCall.Pinned.goto (h : c.Pinned pin) {pc : SendPc}
    (hpc : ∀ url, pc.target? = some url → url = pin) : (c.goto pc).Pinned pin :=
  ⟨hpc, h.dialed⟩

/-- A place that holds no URL. -/
theorem SendCall.Pinned.goto_none (h : c.Pinned pin) {pc : SendPc} (hpc : pc.target? = none) :
    (c.goto pc).Pinned pin := by
  refine h.goto fun url hurl => ?_
  rw [hpc] at hurl
  cases hurl

theorem SendCall.Pinned.log (h : c.Pinned pin) {e : SendEvent} (he : e.dialed? = none) :
    (c.log e).Pinned pin := by
  refine ⟨h.target, ?_⟩
  rw [SendCall.dialed_log, he, Option.toList_none, List.append_nil]
  exact h.dialed

/-- An answer leaves no endpoint to go to. -/
theorem SendCall.Pinned.onAnswer (h : c.Pinned pin) (url : String) (a : Except String Response) :
    (c.onAnswer url a).Pinned pin := by
  cases a with
  | ok response =>
    simp only [SendCall.onAnswer]
    split
    · exact ⟨fun url hurl => (by cases hurl), h.dialed⟩
    · exact h.goto_none rfl
  | error e =>
    simp only [SendCall.onAnswer]
    split
    · exact ⟨fun url hurl => (by cases hurl), h.dialed⟩
    · exact h.goto_none rfl

theorem SendTurn.pinned_keeps (hturn : SendTurn parse cells c input cells' c') (hcells : cells.Pinned pin)
    (hc : c.Pinned pin) (hfinds : FindsPin pin cells c input) : cells'.Pinned pin ∧ c'.Pinned pin := by
  obtain ⟨hroot, hbase⟩ := hcells
  have hroot' := hturn.repoRoot.trans hroot
  cases hturn with
  | refused l e hpc h => exact ⟨⟨hroot', hbase⟩, (hc.log rfl).goto_none rfl⟩
  | passed l hpc h => exact ⟨⟨hroot', hbase⟩, (hc.log rfl).goto_none rfl⟩
  | pinned l hpc hnone =>
    refine ⟨⟨hroot', hbase⟩, (hc.log rfl).goto fun url hurl => ?_⟩
    cases hurl
    exact hbase
  | resolved l purpose hpc hor =>
    refine ⟨⟨hroot', hbase⟩, (hc.log rfl).goto fun url hurl => ?_⟩
    rw [hroot] at hurl
    -- Without a root only a failure resolves, and it does so by the environment.
    cases purpose with
    | request => exact (hor.elim (absurd hroot) (absurd rfl))
    | retry failedBase e => exact hfinds failedBase e l url hpc rfl hurl
  | noted purpose resolved hpc =>
    have htarget := hc.target
    rw [hpc] at htarget
    rw [noteResolution_pinned hroot]
    refine ⟨⟨hroot, hbase⟩, ?_⟩
    cases resolved with
    | none => cases purpose <;> exact hc.goto_none rfl
    | some url => cases purpose <;> exact hc.goto htarget
  | stored purpose url hpc =>
    have hurl : url = pin := hc.target url (by rw [hpc]; rfl)
    refine ⟨⟨hroot', hurl⟩, ?_⟩
    cases purpose with
    | request => exact hc.goto fun u hu => (Option.some.inj hu).symm.trans hurl
    | retry failedBase e =>
      simp only [SendCall.onStored]
      split
      · exact hc.goto_none rfl
      · exact hc.goto_none rfl
  | authorized url hpc =>
    refine ⟨⟨hroot', hbase⟩, hc.goto fun u hu => hc.target u ?_⟩
    rw [hpc]
    exact hu
  | sent url bearer hpc =>
    have hurl : url = pin := hc.target url (by rw [hpc]; rfl)
    refine ⟨⟨hroot', hbase⟩, fun u hu => (by cases hu), fun d hd => ?_⟩
    rw [SendCall.dialed_goto, SendCall.dialed_log] at hd
    rcases List.mem_append.mp hd with hd | hd
    · exact hc.dialed d hd
    · rw [List.mem_singleton.mp hd]
      exact hurl
  | answered url bearer a hpc => exact ⟨⟨hroot', hbase⟩, (hc.log rfl).onAnswer url a⟩
  | refreshed response src hpc => exact ⟨⟨hroot', hbase⟩, hc.goto_none rfl⟩
  | kept response resolved hpc h => exact ⟨⟨hroot', hbase⟩, hc.goto_none rfl⟩
  | gone response hpc h => exact ⟨⟨hroot', hbase⟩, hc.goto_none rfl⟩
  | renewed response token hpc h => exact ⟨⟨hroot', hbase⟩, hc.goto_none rfl⟩

/-- **A client without a root dials the URL it was built with**, and its token goes nowhere else, in every
run in which no failure finds another URL in the environment. -/
theorem dials_only_pin {auth : DaemonAuth} {labels : List SendLabel} {s : SendSys}
    (hfinds : Runs.Meets (SendSys.step parse) (SendSys.Turns (FindsPin pin))
      (.start (.new pin none) auth) labels)
    (h : Runs.run (SendSys.step parse) (.start (.new pin none) auth) labels = some s) :
    ∀ c ∈ s.calls, ∀ d ∈ c.dialed, d.1 = pin := by
  have hinv : s.cells.Pinned pin ∧ ∀ c ∈ s.calls, c.Pinned pin := by
    refine Runs.run_inv_of_meets
      (P := fun s : SendSys => s.cells.Pinned pin ∧ ∀ c ∈ s.calls, c.Pinned pin) ?_ ?_ hfinds h
    · intro s l s' hs hD hstep
      refine SendSys.step_keeps (I := SendCells.Pinned pin) (Q := SendCall.Pinned pin)
        ⟨nofun, nofun⟩ ?_ hs hD hstep
      intro cells c input cells' c' hcells hc hinput hturn
      exact hturn.pinned_keeps hcells hc hinput
    · exact ⟨⟨rfl, rfl⟩, nofun⟩
  exact fun c hc => (hinv.2 c hc).dialed

namespace Sample

/-- An attempt of a client without a root. -/
def pinnedAttempt (l : Local) (a : Except String Response) : List SendLabel :=
  [.preflight l, .resolve l, .authorize, .send, .receive a].map (.turn 0)

/-- The first attempt fails; then the environment is read. -/
def failedAttempt (l : Local) : List SendLabel :=
  .call :: pinnedAttempt l (.error "connection refused") ++ [.resolve l, .note, .store].map (.turn 0)

/-- An environment that has `KIN_DAEMON_URL`. -/
def override (url : String) : Local := ⟨some url, none, .error "", none⟩

end Sample

theorem dials_only_pin_override :
    ∃ s : SendSys, Runs.run (SendSys.step Sample.readManifest)
        (.start (.new "http://127.0.0.1:4219" none) ⟨some "secret", none, some "secret"⟩)
        (Sample.failedAttempt (Sample.override "http://127.0.0.1:4219")) = some s ∧
      s.calls.map (·.dialed) = [[("http://127.0.0.1:4219", some "secret")]] ∧
      ∀ c ∈ s.calls, ∀ d ∈ c.dialed, d.1 = "http://127.0.0.1:4219" := by
  have hrun : (Runs.run (SendSys.step Sample.readManifest)
      (.start (.new "http://127.0.0.1:4219" none) ⟨some "secret", none, some "secret"⟩)
      (Sample.failedAttempt (Sample.override "http://127.0.0.1:4219"))).map (fun s => s.calls.map (·.dialed)) =
        some [[("http://127.0.0.1:4219", some "secret")]] := by
    decide +kernel
  obtain ⟨s, hs, hdialed⟩ := Option.map_eq_some_iff.mp hrun
  refine ⟨s, hs, hdialed, dials_only_pin (Runs.Meets.mono (Runs.meets_of_forall (C := fun l => ∀ i x,
    l = .turn i (.resolve x) → x = Sample.override "http://127.0.0.1:4219") ?_) ?_) hs⟩
  · simp [Sample.failedAttempt, Sample.pinnedAttempt]
  · intro s l hl i input c hturn hc failedBase e x url hpc hinput hurl
    have hx := hl i x (hturn.trans (by rw [hinput]))
    rw [hx, show resolveAt none (Sample.override "http://127.0.0.1:4219") = some "http://127.0.0.1:4219" by
      decide +kernel] at hurl
    exact (Option.some.inj hurl).symm

/-- The token follows `KIN_DAEMON_URL` to another host. -/
theorem not_dials_only_pin :
    ∃ s : SendSys, Runs.run (SendSys.step Sample.readManifest)
        (.start (.new "http://127.0.0.1:4219" none) ⟨some "secret", none, some "secret"⟩)
        (Sample.failedAttempt (Sample.override "http://10.0.0.1:9") ++
          Sample.pinnedAttempt (Sample.override "http://10.0.0.1:9") (.ok ⟨200, "tree"⟩)) = some s ∧
      s.calls.map (·.dialed) =
        [[("http://127.0.0.1:4219", some "secret"), ("http://10.0.0.1:9", some "secret")]] ∧
      ¬ ∀ c ∈ s.calls, ∀ d ∈ c.dialed, d.1 = "http://127.0.0.1:4219" := by
  have hrun : (Runs.run (SendSys.step Sample.readManifest)
      (.start (.new "http://127.0.0.1:4219" none) ⟨some "secret", none, some "secret"⟩)
      (Sample.failedAttempt (Sample.override "http://10.0.0.1:9") ++
        Sample.pinnedAttempt (Sample.override "http://10.0.0.1:9") (.ok ⟨200, "tree"⟩))).map
      (fun s => s.calls.map (·.dialed)) =
        some [[("http://127.0.0.1:4219", some "secret"), ("http://10.0.0.1:9", some "secret")]] := by
    decide +kernel
  obtain ⟨s, hs, hdialed⟩ := Option.map_eq_some_iff.mp hrun
  refine ⟨s, hs, hdialed, fun hall => ?_⟩
  obtain ⟨c, hc, hcd⟩ := List.exists_of_mem_map (l := s.calls) (f := (·.dialed))
    (by rw [hdialed]; exact List.mem_singleton_self _)
  exact absurd (hall c hc ("http://10.0.0.1:9", some "secret") (by rw [hcd]; decide)) (by decide)

end Pin

end KinVfs
