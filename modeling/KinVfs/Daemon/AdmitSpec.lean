import KinVfs.Daemon.Endpoint
import KinVfs.Daemon.Sys

/-!
# What one admission guarantees

* `admitScoped` is an admission with its endpoint: `commit_url` from the local files, and the
  daemon that answers at that URL. `admission_bound_iff` says exactly when what it clears is bound
  to the local manifest: the reply carries no identity, so any answer that decodes is taken.
* `admitAgainst` is an admission against a daemon that refuses a change which records nothing.
  `settles_iff` says exactly when repeating it settles a writer whose working copy the graph
  already holds.
-/

namespace KinVfs
namespace KinDaemonWriter

/-- The answer an admission ends with: the second one when the daemon rejects the author field. -/
def finalAnswer (paths : List VfsPath) (author : String)
    (send : CommitRequest → Except String Response) : Except String Response :=
  match send ⟨admissionMessage paths, some author⟩ with
  | .error e => .error e
  | .ok r =>
    if refusesTheAuthorField r then send ⟨admissionMessage paths, none⟩ else .ok r

/-- An HTTP success whose body is a commit reply. -/
def acceptedAnswer (wire : Wire) : Except String Response → Bool
  | .error _ => false
  | .ok r => isSuccess r.status && (wire.decodeReply r.body).isOk

theorem acceptedAnswer_iff {wire : Wire} {paths : List VfsPath} {a : Except String Response}
    {attributed : Bool} (hr : ∀ r, a = .ok r → (attributed && refusesTheAuthorField r) = false) :
    acceptedAnswer wire a = true ↔ ∃ adm, judge wire paths attributed a = .admitted adm := by
  simp only [judge_eq_admitted]
  cases a with
  | error e => simp [acceptedAnswer]
  | ok r =>
    simp only [acceptedAnswer, Bool.and_eq_true, Except.ok.injEq]
    constructor
    · rintro ⟨hs, hd⟩
      cases hrep : wire.decodeReply r.body with
      | error e =>
        rw [hrep] at hd
        cases hd
      | ok reply => exact ⟨_, r, reply, rfl, hr r rfl, hs, hrep, rfl⟩
    · rintro ⟨adm, r', reply, rfl, -, hs, hd, -⟩
      exact ⟨hs, by rw [hd]; rfl⟩

/-- An exchange ends in an admission iff its final answer is accepted. -/
theorem exchange_eq_admitted {wire : Wire} {paths : List VfsPath} {author : String}
    {send : CommitRequest → Except String Response} :
    (∃ adm, exchange wire paths author send = .admitted adm) ↔
      acceptedAnswer wire (finalAnswer paths author send) = true := by
  unfold exchange finalAnswer
  cases ha : send ⟨admissionMessage paths, some author⟩ with
  | error e => simp [judge, acceptedAnswer]
  | ok r =>
    by_cases href : refusesTheAuthorField r = true
    · have hj : judge wire paths true (.ok r) = .resend := by simp [judge, href]
      simp only [hj, href, ↓reduceIte]
      exact (acceptedAnswer_iff fun _ _ => rfl).symm
    · dsimp only
      have hr : ∀ r', (.ok r : Except String Response) = .ok r' →
          (true && refusesTheAuthorField r') = false := by
        intro r' hr'
        cases hr'
        simpa using href
      have hiff : acceptedAnswer wire (.ok r) = true ↔
          ∃ adm, judge wire paths true (.ok r) = .admitted adm := acceptedAnswer_iff hr
      rw [if_neg href, hiff]
      have hj : judge wire paths true (.ok r) ≠ .resend := by
        simp only [judge, Bool.true_and, href, Bool.false_eq_true, ↓reduceIte]
        split
        · simp
        · split <;> simp
      split
      · rename_i h
        exact absurd h hj
      · rfl

end KinDaemonWriter

/-! ## Bound to the repository -/

/-- A daemon: the repository and workspace it serves, and its answers. -/
structure CommitDaemon where
  repoId : String
  workspaceId : String
  answer : CommitRequest → Except String Response

/-- The URL a writer for `root` posts to: its endpoint is scoped to that root. -/
def writerUrl (parse : List UInt8 → Except String ManifestIdentity) (root : String)
    (ep : DaemonEndpoint) (l : Local) : Except String String :=
  (commitUrl parse { ep with repoRoot := some root } l).1

/-- An admission with its endpoint. `network url` is the daemon that answers at `url`. -/
def admitScoped (wire : Wire) (parse : List UInt8 → Except String ManifestIdentity)
    (author : String) (network : String → CommitDaemon) (root : String) (ep : DaemonEndpoint)
    (l : Local) (st : Staging) : VfsResult (Option Admission) × Staging :=
  KinDaemonWriter.runAdmit wire author (writerUrl parse root ep l) (fun url => (network url).answer) st

/-- The daemon serves the repository and workspace the local manifest names. -/
def servesManifest (parse : List UInt8 → Except String ManifestIdentity) (root : String)
    (l : Local) (d : CommitDaemon) : Bool :=
  match readManifestIdentity parse root l with
  | .error _ => false
  | .ok identity => d.repoId = identity.repoId && identity.workspaceId = some d.workspaceId

/-- The admission removed an entry or recorded itself. -/
def Took (st : Staging) (r : VfsResult (Option Admission) × Staging) : Prop :=
  (∃ p : VfsPath, st.entries[p]?.isSome ∧ r.2.entries[p]? = none) ∨
    (∃ adm, r.1 = .ok (some adm) ∧ r.2.lastAdmission = some adm)

section

variable {wire : Wire} {parse : List UInt8 → Except String ManifestIdentity} {author : String}
  {network : String → CommitDaemon} {root : String} {ep : DaemonEndpoint} {l : Local} {st : Staging}

theorem snapshot_eq_nil : st.snapshot = [] ↔ st.entries.keys = [] := by
  rw [Staging.keys_eq_nil, List.eq_nil_iff_forall_not_mem]
  constructor
  · intro h p
    cases hp : st.entries[p]? with
    | none => rfl
    | some e => exact absurd (Staging.mem_snapshot.mpr ⟨e, hp, rfl⟩) (h _)
  · rintro h ⟨p, r⟩ hmem
    obtain ⟨e, he, -⟩ := Staging.mem_snapshot.mp hmem
    rw [h p] at he
    cases he

/-- An admission takes the staged entries iff something is staged, the endpoint resolves, and the
final answer of the daemon there is accepted. -/
theorem took_admit_iff :
    Took st (admitScoped wire parse author network root ep l st) ↔
      st.entries.keys ≠ [] ∧ ∃ url, writerUrl parse root ep l = .ok url ∧
        KinDaemonWriter.acceptedAnswer wire (KinDaemonWriter.finalAnswer
          (st.snapshot.map (·.1)) author (network url).answer) = true := by
  -- A failure leaves the entries, and so does an admission with nothing to carry.
  have hfail : ∀ reason, ¬ Took st (KinDaemonWriter.settle st st.snapshot (.failed reason)) := by
    rintro reason (⟨p, hp, hp'⟩ | ⟨adm, h, -⟩)
    · change st.entries[p]? = none at hp'
      rw [hp'] at hp
      cases hp
    · cases h
  unfold admitScoped KinDaemonWriter.runAdmit
  by_cases hempty : st.entries.keys = []
  · have hs : st.snapshot = [] := snapshot_eq_nil.mpr hempty
    simp only [hs, List.map_nil, List.isEmpty_nil, ↓reduceIte, hempty, ne_eq, not_true_eq_false,
      false_and, iff_false]
    rintro (⟨p, hp, hp'⟩ | ⟨adm, h, -⟩)
    · rw [hp'] at hp
      cases hp
    · cases h
  · have hs : (st.snapshot.map (·.1)).isEmpty = false := by
      simpa [snapshot_eq_nil] using hempty
    simp only [hs, Bool.false_eq_true, ↓reduceIte, ne_eq, hempty, not_false_eq_true, true_and]
    cases hurl : writerUrl parse root ep l with
    | error reason => simp [hfail]
    | ok url =>
      simp only [Except.ok.injEq, exists_eq_left']
      rw [← KinDaemonWriter.exchange_eq_admitted]
      cases hex : KinDaemonWriter.exchange wire (st.snapshot.map (·.1)) author
          (network url).answer with
      | resend => exact absurd hex KinDaemonWriter.exchange_ne_resend
      | failed reason => simp [hfail]
      | admitted adm =>
        exact iff_of_true (.inr ⟨adm, rfl, rfl⟩) ⟨adm, rfl⟩

/-- **Exactly when an admission is bound to the repository.** What it takes was committed by a
daemon of the manifest's repository and workspace, iff nothing is staged, or the endpoint does not
resolve, or the daemon there serves them, or its final answer is not an accepted one. -/
theorem admission_bound_iff :
    (Took st (admitScoped wire parse author network root ep l st) →
        ∃ url, writerUrl parse root ep l = .ok url ∧ servesManifest parse root l (network url)) ↔
      (st.entries.keys = [] ∨ ∀ url, writerUrl parse root ep l = .ok url →
        servesManifest parse root l (network url) = true ∨
          KinDaemonWriter.acceptedAnswer wire (KinDaemonWriter.finalAnswer
            (st.snapshot.map (·.1)) author (network url).answer) = false) := by
  rw [took_admit_iff]
  constructor
  · intro h
    by_cases hk : st.entries.keys = []
    · exact .inl hk
    · right
      intro url hurl
      cases ha : KinDaemonWriter.acceptedAnswer wire (KinDaemonWriter.finalAnswer
          (st.snapshot.map (·.1)) author (network url).answer) with
      | false => exact .inr rfl
      | true =>
        obtain ⟨url', hurl', hs⟩ := h ⟨hk, url, hurl, ha⟩
        rw [hurl] at hurl'
        cases hurl'
        exact .inl hs
  · rintro (hk | h) ⟨hne, url, hurl, ha⟩
    · exact absurd hk hne
    · rcases h url hurl with hs | hf
      · exact ⟨url, hurl, hs⟩
      · rw [ha] at hf
        cases hf

end

namespace Sample

/-- The manifest of repository `r1`, workspace `w1`, advertised on a port. -/
def files : Local := ⟨none, some "4219\n", .ok [49], some "/w"⟩

/-- The JSON parser on that manifest. -/
def parse (bytes : List UInt8) : Except String ManifestIdentity :=
  if bytes = [49] then .ok ⟨"r1", some "w1"⟩ else .error "expected value"

/-- A daemon of repository `r2` on the reused port: it commits its own working copy. -/
def foreign : CommitDaemon := ⟨"r2", "w2", fun _ => .ok ⟨200, body⟩⟩

/-- One staged write. -/
def staged : Staging := Staging.init.mark a (.present (statOf (.file ⟨0o644, 0⟩ [1]))) 1 0

end Sample

/-- The foreign daemon's answer clears the staged write. -/
theorem foreign_daemon_admits :
    Took Sample.staged (admitScoped Sample.wire Sample.parse "A <a@example.com>"
        (fun _ => Sample.foreign) "/w" (.new "" none) Sample.files Sample.staged) ∧
      servesManifest Sample.parse "/w" Sample.files Sample.foreign = false := by
  constructor
  · rw [took_admit_iff]
    refine ⟨by decide, ?_⟩
    have hurl : (writerUrl Sample.parse "/w" (.new "" none) Sample.files).isOk = true := by decide
    cases h : writerUrl Sample.parse "/w" (.new "" none) Sample.files with
    | error e =>
      rw [h] at hurl
      cases hurl
    | ok url => exact ⟨url, rfl, by decide⟩
  · decide

/-! ## Settling -/

/-- A daemon over trees: what it reads off a working copy, and its answer to a request, given
whether the change records anything. A change that records nothing is refused. -/
structure TreeDaemon (Tree : Type) where
  read : Posix.Fs → Tree
  answer : Bool → CommitRequest → Response
  refuses : ∀ req, isSuccess (answer false req).status = false

section

variable {Tree : Type} {wire : Wire} {author url : String} {d : TreeDaemon Tree}
  {host : Posix.Fs} {st : Staging}

/-- An admission against a reachable daemon: the graph it leaves and the staging. -/
def admitAgainst [DecidableEq Tree] (wire : Wire) (author url : String) (d : TreeDaemon Tree)
    (host : Posix.Fs) (s : Tree × Staging) : Tree × Staging :=
  let send := fun _ req => .ok (d.answer (decide (d.read host ≠ s.1)) req)
  match KinDaemonWriter.runAdmit wire author (.ok url) send s.2 with
  | (.ok (some _), st) => (d.read host, st)
  | (_, st) => (s.1, st)

/-- With nothing to record, every request is refused. -/
theorem exchange_refused {paths : List VfsPath} :
    ∃ reason, KinDaemonWriter.exchange wire paths author
      (fun req => .ok (d.answer false req)) = .failed reason := by
  cases h : KinDaemonWriter.exchange wire paths author fun req => .ok (d.answer false req) with
  | resend => exact absurd h KinDaemonWriter.exchange_ne_resend
  | failed reason => exact ⟨reason, rfl⟩
  | admitted adm =>
    have ha := KinDaemonWriter.exchange_eq_admitted.mp ⟨adm, h⟩
    unfold KinDaemonWriter.finalAnswer at ha
    dsimp only at ha
    split at ha <;> simp [KinDaemonWriter.acceptedAnswer, d.refuses] at ha

variable [DecidableEq Tree]

/-- An admission with nothing staged changes nothing. -/
theorem admitAgainst_empty {graph : Tree} (h : st.entries.keys = []) :
    admitAgainst wire author url d host (graph, st) = (graph, st) := by
  simp [admitAgainst, KinDaemonWriter.runAdmit, snapshot_eq_nil.mpr h]

/-- An admission of what the graph already holds is refused, and everything stays staged. -/
theorem admitAgainst_held (h : st.entries.keys ≠ []) :
    ∃ reason, admitAgainst wire author url d host (d.read host, st) =
      (d.read host, st.recordFailure reason) := by
  obtain ⟨reason, hex⟩ : ∃ reason, KinDaemonWriter.exchange wire (st.snapshot.map (·.1)) author
      (fun req => .ok (d.answer false req)) = .failed reason := exchange_refused
  refine ⟨reason, ?_⟩
  have hs : (st.snapshot.map (·.1)).isEmpty = false := by
    simpa [snapshot_eq_nil] using h
  simp only [admitAgainst, KinDaemonWriter.runAdmit, hs, ne_eq, not_true_eq_false, decide_false, hex,
    Bool.false_eq_true, ↓reduceIte, KinDaemonWriter.settle]

/-- However often it is repeated. -/
theorem iterate_held (h : st.entries.keys ≠ []) (n : Nat) :
    ∃ st', (admitAgainst wire author url d host)^[n] (d.read host, st) = (d.read host, st') ∧
      st'.entries = st.entries := by
  induction n generalizing st with
  | zero => exact ⟨st, rfl, rfl⟩
  | succ n ih =>
    obtain ⟨reason, hr⟩ : ∃ reason, admitAgainst wire author url d host (d.read host, st) =
        (d.read host, st.recordFailure reason) := admitAgainst_held h
    rw [Function.iterate_succ_apply, hr]
    have hk : (st.recordFailure reason).entries.keys ≠ [] := h
    exact ih hk

/-- Staged entries that the graph already holds are never settled. -/
theorem never_settled (h : st.entries.keys ≠ []) (n : Nat) (last : Option Admission) :
    ((admitAgainst wire author url d host)^[n] (d.read host, st)).2.health ≠ .settled last := by
  obtain ⟨st', hst, he⟩ : ∃ st', (admitAgainst wire author url d host)^[n] (d.read host, st) =
      (d.read host, st') ∧ st'.entries = st.entries := iterate_held h n
  rw [hst]
  intro hset
  exact h (he ▸ (Staging.health_eq_settled.mp hset).2.1)

/-- **Exactly when admissions settle what the graph already holds.** With the graph equal to the
working copy, some number of admissions leads to a settled writer with nothing staged iff it was
settled to begin with. -/
theorem settles_iff :
    (∃ n last, ((admitAgainst wire author url d host)^[n] (d.read host, st)).2.health =
        .settled last ∧
      ((admitAgainst wire author url d host)^[n] (d.read host, st)).2.entries.keys = []) ↔
      st.entries.keys = [] ∧ st.lastError = none := by
  constructor
  · rintro ⟨n, last, hset, -⟩
    by_cases hk : st.entries.keys = []
    · have hfix : (admitAgainst wire author url d host)^[n] (d.read host, st) =
          (d.read host, st) := Function.iterate_fixed (admitAgainst_empty hk) n
      rw [hfix] at hset
      exact ⟨hk, (Staging.health_eq_settled.mp hset).1⟩
    · exact absurd hset (never_settled hk n last)
  · rintro ⟨hk, he⟩
    exact ⟨0, st.lastAdmission, Staging.health_eq_settled.mpr ⟨he, hk, rfl⟩, hk⟩

end

namespace Sample

/-- A working copy, and a graph, with the one byte `1` at `a`. -/
def hostA : Posix.Fs := host.addEntry [[97]] (.file ⟨0o644, 0⟩ [1])

/-- A daemon whose tree is the files of the working copy. -/
def treeDaemon : TreeDaemon (List (Posix.Path × Bytes)) where
  read fs := fs.support.filterMap fun p =>
    match fs.node p with
    | some (.file _ c) => some (p, c)
    | _ => none
  answer changed _ := if changed then ⟨200, body⟩ else ⟨409, "nothing to record"⟩
  refuses _ := rfl

end Sample

/-- A write of the bytes that are there already. -/
def identicalWrite : List Label :=
  [.call (.mutation (.writeAt Sample.a 0 [1])), .disk 0, .stat 0, .mark 0 1 0]

/-- It leaves the working copy equal to the graph and is owed for ever. -/
theorem identicalWrite_never_settles :
    ∃ s, Runs.run (Sys.step [] Sample.wire) (.init Sample.hostA) identicalWrite = some s ∧
      Sample.treeDaemon.read s.host = Sample.treeDaemon.read Sample.hostA ∧
      ∀ n last, ((admitAgainst Sample.wire "A <a@example.com>" "http://127.0.0.1:4219"
        Sample.treeDaemon s.host)^[n]
          (Sample.treeDaemon.read Sample.hostA, s.staging)).2.health ≠ .settled last := by
  have hrun : ((Runs.run (Sys.step [] Sample.wire) (.init Sample.hostA) identicalWrite).map fun s =>
      (s.staging.entries.keys, Sample.treeDaemon.read s.host)) =
        some ([Sample.a], Sample.treeDaemon.read Sample.hostA) := by decide
  obtain ⟨s, hs, hp⟩ := Option.map_eq_some_iff.mp hrun
  simp only [Prod.mk.injEq] at hp
  obtain ⟨hk, hread⟩ := hp
  refine ⟨s, hs, hread, fun n last => ?_⟩
  rw [← hread]
  exact never_settled (by simp [hk]) n last

end KinVfs
