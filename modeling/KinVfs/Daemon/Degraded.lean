import KinVfs.Daemon.NoLostWrite

/-!
# When `Degraded` is honest

`record_failure` writes the reason without asking whether anything the failed attempt carried is
still staged. `timely` is the condition that it is; under it a degraded report always names a
staged path that the failed attempt carried. Two overlapping admissions break it: the first clears
the map, the second fails, and the early return of every later admission leaves the reason.
-/

namespace KinVfs

/-- Some entry still carries the revision `pending` has for it. -/
def Staging.carries (st : Staging) (pending : List (VfsPath × Arc)) : Bool :=
  pending.any fun (path, revision) => st.entries[path]?.any (·.revision == revision)

theorem Staging.carries_iff {st : Staging} {pending : List (VfsPath × Arc)} :
    st.carries pending = true ↔
      ∃ (p : VfsPath) (e : StagedEntry), st.entries[p]? = some e ∧ (p, e.revision) ∈ pending := by
  unfold carries
  rw [List.any_eq_true]
  constructor
  · rintro ⟨⟨p, r⟩, hmem, h⟩
    rw [Option.any_eq_true] at h
    obtain ⟨e, he, hr⟩ := h
    rw [beq_iff_eq] at hr
    exact ⟨p, e, he, hr ▸ hmem⟩
  · rintro ⟨p, e, he, hmem⟩
    exact ⟨_, hmem, by simp [he]⟩

/-- A failure is recorded only while something the attempt snapped is still staged. -/
def timely (wire : Wire) (s : Sys) : Label → Bool
  | .reply i =>
    match s.calls[i]? with
    | some (.admission (.refused pending _)) => s.staging.carries pending
    | some (.admission (.answered pending attributed _ answer)) =>
      match judge wire (pending.map (·.1)) attributed answer with
      | .failed _ => s.staging.carries pending
      | _ => true
    | _ => true
  | _ => true

/-- Call `i` is an admission that failed with `reason`, after it snapped `pending`. -/
def FailedWith (s : Sys) (i : Nat) (pending : List (VfsPath × Arc)) (reason : String) : Prop :=
  s.calls[i]? = some (.admission (.done pending (.error (.provider reason))))

/-- A degraded report names staged paths, and its reason is the failure of an attempt that carried
one of them. -/
def Honest (s : Sys) : Prop :=
  ∀ paths reason, s.staging.health = .degraded paths reason →
    paths ≠ [] ∧ ∃ i pending, FailedWith s i pending reason ∧
      ∃ p ∈ paths, ∃ e, s.staging.entries[p]? = some e ∧ (p, e.revision) ∈ pending

/-- The recorded reason is an attempt's whose snapshot still matches an entry. -/
def Blamed (s : Sys) : Prop :=
  ∀ reason, s.staging.lastError = some reason →
    ∃ i pending, FailedWith s i pending reason ∧ s.staging.carries pending = true

theorem Blamed.honest {s : Sys} (h : Blamed s) : Honest s := by
  intro paths reason hd
  obtain ⟨he, hp⟩ := Staging.health_eq_degraded.mp hd
  obtain ⟨i, pending, hi, hc⟩ := h reason he
  obtain ⟨p, e, hpe, hmem⟩ := Staging.carries_iff.mp hc
  have hkey : p ∈ paths := by
    rw [← hp, Std.ExtTreeMap.mem_keys, Std.ExtTreeMap.mem_iff_isSome_getElem?, hpe]
    rfl
  exact ⟨List.ne_nil_of_mem hkey, i, pending, hi, p, hkey, e, hpe, hmem⟩

section

variable {repoRoot : Posix.Path} {wire : Wire} {s s' : Sys} {l : Label}

/-- A failed admission stays where it is when another call moves. -/
theorem FailedWith.goto {i j : Nat} {pending : List (VfsPath × Arc)} {reason : String} {b c : Call}
    (h : FailedWith s i pending reason) (hj : s.calls[j]? = some b)
    (hb : b ≠ .admission (.done pending (.error (.provider reason)))) :
    (s.goto j c).calls[i]? = some (.admission (.done pending (.error (.provider reason)))) := by
  have hne : j ≠ i := by
    rintro rfl
    rw [FailedWith, hj] at h
    exact hb (Option.some.inj h)
  rw [Sys.goto, List.getElem?_set_ne hne]
  exact h

/-- A step that moves one unfinished call and leaves the staging alone. -/
theorem Blamed.goto {j : Nat} {b c : Call} (h : Blamed s) (hj : s.calls[j]? = some b)
    (hb : ∀ pending reason, b ≠ .admission (.done pending (.error (.provider reason))))
    (hc : s'.calls = (s.goto j c).calls) (hs : s'.staging = s.staging) : Blamed s' := by
  intro reason he
  rw [hs] at he
  obtain ⟨i, pending, hi, hcar⟩ := h reason he
  refine ⟨i, pending, ?_, hs ▸ hcar⟩
  rw [FailedWith, hc]
  exact hi.goto hj (hb pending reason)

theorem Blamed.fail {i : Nat} {pending : List (VfsPath × Arc)} {reason : String} {b : Call}
    (hi : s.calls[i]? = some b) (hc : s.staging.carries pending = true) :
    Blamed (s.fail i pending reason) := by
  intro reason' he
  cases he
  refine ⟨i, pending, ?_, hc⟩
  have hlt : i < s.calls.length := (List.getElem?_eq_some_iff.mp hi).1
  simp [FailedWith, Sys.fail, Sys.goto, hlt]

/-- **One step** that meets the condition. -/
theorem Blamed.step (h : Blamed s) (ht : timely wire s l = true)
    (hs : s.step repoRoot wire l = some s') : Blamed s' := by
  cases Sys.step_cases hs with
  | call op =>
    intro reason he
    obtain ⟨i, pending, hi, hcar⟩ := h reason he
    refine ⟨i, pending, ?_, hcar⟩
    have hlt : i < s.calls.length := (List.getElem?_eq_some_iff.mp hi).1
    rw [FailedWith, List.getElem?_append_left hlt]
    exact hi
  | diskOk hc hd => exact h.goto hc (by simp) rfl rfl
  | diskError hc hd => exact h.goto hc (by simp) rfl rfl
  | statOk hc hr => exact h.goto hc (by simp) rfl rfl
  | statError hc hr => exact h.goto hc (by simp) rfl rfl
  | markPresent hfresh hc =>
    intro reason he
    cases he
  | markRemoved hfresh hc =>
    intro reason he
    cases he
  | snapshotNone hc hp => exact h.goto hc (by simp) rfl rfl
  | snapshotSome hc hp => exact h.goto hc (by simp) rfl rfl
  | urlOk hc => exact h.goto hc (by simp) rfl rfl
  | urlError hc => exact h.goto hc (by simp) rfl rfl
  | daemon hc => exact h.goto hc (by simp) rfl rfl
  | replyRefused hc =>
    simp only [timely, hc] at ht
    exact Blamed.fail hc ht
  | replyResend hc hj => exact h.goto hc (by simp) rfl rfl
  | @replyFailed i _ _ _ _ _ hc hj =>
    simp only [timely, hc, hj] at ht
    exact Blamed.fail (s := { s with reported := _ }) hc ht
  | replyAdmitted hc hj =>
    intro reason he
    cases he

theorem Blamed.init (host : Posix.Fs) : Blamed (.init host) := by
  intro reason he
  cases he

/-- Not a mark: the step records no new write. -/
def Label.unmarking : Label → Bool
  | .mark .. => false
  | _ => true

/-- Without marks an empty staging map stays empty. -/
theorem keys_nil_step (h : s.staging.entries.keys = []) (hl : l.unmarking = true)
    (hs : s.step repoRoot wire l = some s') : s'.staging.entries.keys = [] := by
  cases Sys.step_cases hs with
  | markPresent hfresh hc => cases hl
  | markRemoved hfresh hc => cases hl
  | replyAdmitted hc hj =>
    rw [Staging.keys_eq_nil] at h ⊢
    intro p
    show (Staging.clearPending s.staging.entries _)[p]? = none
    rw [Staging.getElem?_clearPending, h p]
    rfl
  | _ => exact h

end

/-- **Degraded is honest under `timely`.** In every state of a run whose failures are all recorded
while something the attempt carried is still staged, a degraded report is honest; and once nothing
is staged, no later run without new marks reports it. -/
theorem degraded_honest_of_timely {repoRoot : Posix.Path} {wire : Wire} {host : Posix.Fs}
    {ls : List Label} {s : Sys}
    (ht : Runs.Meets (Sys.step repoRoot wire) (timely wire · ·) (.init host) ls)
    (h : Runs.run (Sys.step repoRoot wire) (.init host) ls = some s) :
    Honest s ∧
      (s.staging.entries.keys = [] → ∀ ls' s', (∀ l ∈ ls', l.unmarking = true) →
        Runs.Meets (Sys.step repoRoot wire) (timely wire · ·) s ls' →
        Runs.run (Sys.step repoRoot wire) s ls' = some s' →
        ∀ paths reason, s'.staging.health ≠ .degraded paths reason) := by
  have hb : Blamed s :=
    Runs.run_inv_of_meets (fun _ _ _ h ht hs => h.step ht hs) (Blamed.init host) ht h
  refine ⟨hb.honest, ?_⟩
  intro hempty ls' s' hun hm hrun paths reason hd
  have hb' : Blamed s' :=
    Runs.run_inv_of_meets (fun _ _ _ h ht hs => h.step ht hs) hb hm hrun
  -- The map stays empty along the second run, so an honest report has no path to name.
  have hempty' : s'.staging.entries.keys = [] := by
    refine Runs.run_inv_of_meets (P := fun s => s.staging.entries.keys = [])
      (C := fun _ l => l.unmarking = true) ?_ hempty (Runs.meets_of_forall hun) hrun
    intro t l t' ht hl hs
    exact keys_nil_step ht hl hs
  have hpaths := (Staging.health_eq_degraded.mp hd).2
  exact (hb'.honest paths reason hd).1 (hpaths ▸ hempty')

/-- One write, and an admission that finds no endpoint. -/
def unadvertised : List Label :=
  [.call (.mutation (.writeAt Sample.a 0 [1])), .disk 0, .stat 0, .mark 0 1 0,
    .call .admission, .snapshot 1, .url 1 (.error "kin-daemon endpoint is not currently advertised"),
    .reply 1]

theorem degraded_honest_of_timely_unadvertised :
    ∃ s, Runs.run (Sys.step [] Sample.wire) (.init Sample.host) unadvertised = some s ∧
      s.staging.health.label = "degraded" ∧ Honest s := by
  have hrun : ((Runs.run (Sys.step [] Sample.wire) (.init Sample.host) unadvertised).map
      (·.staging.health.label)) = some "degraded" := by decide
  obtain ⟨s, hs, hp⟩ := Option.map_eq_some_iff.mp hrun
  have hm : Runs.Meets (Sys.step [] Sample.wire) (timely Sample.wire · ·) (.init Sample.host)
      unadvertised := by decide
  exact ⟨s, hs, hp, (degraded_honest_of_timely hm hs).1⟩

/-- Two admissions of one write: the first clears it, the second fails late, and a third finds
nothing to carry. -/
def lateFailure : List Label :=
  [.call (.mutation (.writeAt Sample.a 0 [1])), .disk 0, .stat 0, .mark 0 1 0,
    .call .admission, .snapshot 1, .url 1 (.ok "http://127.0.0.1:4219/commands/commit"),
    .call .admission, .snapshot 2, .url 2 (.ok "http://127.0.0.1:4219/commands/commit"),
    .daemon 1 (.ok ⟨200, Sample.body⟩), .reply 1,
    .daemon 2 (.ok ⟨409, "nothing to record"⟩), .reply 2,
    .call .admission, .snapshot 3]

/-- The report is degraded with no path, and stays so after an admission with nothing staged. -/
theorem lateFailure_not_honest :
    ∃ s, Runs.run (Sys.step [] Sample.wire) (.init Sample.host) lateFailure = some s ∧
      (∃ reason, s.staging.health = .degraded [] reason) ∧ ¬ Honest s := by
  have hrun : ((Runs.run (Sys.step [] Sample.wire) (.init Sample.host) lateFailure).map
      fun s => (s.staging.health.label, s.staging.health.unadmitted)) =
        some ("degraded", []) := by decide
  obtain ⟨s, hs, hp⟩ := Option.map_eq_some_iff.mp hrun
  simp only [Prod.mk.injEq] at hp
  have hd : ∃ reason, s.staging.health = .degraded [] reason := by
    cases hh : s.staging.health with
    | settled last => simp [hh, WriteHealth.label] at hp
    | pending paths => simp [hh, WriteHealth.label] at hp
    | degraded paths reason =>
      simp only [hh, WriteHealth.unadmitted] at hp
      exact ⟨reason, by rw [hp.2]⟩
  obtain ⟨reason, hd⟩ := hd
  exact ⟨s, hs, ⟨reason, hd⟩, fun hon => (hon [] reason hd).1 rfl⟩

end KinVfs
