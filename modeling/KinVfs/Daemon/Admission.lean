import KinVfs.Daemon.KinWriter

/-!
# One admission (`KinDaemonWriter::admit`)

`Outcome` is what the writer makes of one answer of the daemon: resend the request without the
author, a failure to record, or the admission. `runAdmit` is the whole call, run without
interference: snapshot, endpoint, request (with at most one resend), and the critical section at
its end. The HTTP and JSON libraries are the parameters in `Wire`.
-/

namespace KinVfs

/-- What the daemon answers a successful admission with. -/
structure CommitReply where
  changeId : String
  branch : String
  fileCount : Nat
  deriving DecidableEq

structure Response where
  status : Nat
  body : String
  deriving DecidableEq

/-- The request body. The operation id and the timestamp are left out: nothing reads them back. -/
structure CommitRequest where
  message : String
  author : Option String
  deriving DecidableEq

/-- What the HTTP and JSON libraries do: `Display` of a status code, and `serde_json::from_str` at
`CommitReply`. -/
structure Wire where
  showStatus : Nat → String
  decodeReply : String → Except String CommitReply

/-- `StatusCode::is_success`. -/
def isSuccess (status : Nat) : Bool := 200 ≤ status && status < 300

/-- The daemon rejects the `author` field itself. -/
def refusesTheAuthorField (r : Response) : Bool :=
  r.status == 422 && Text.contains r.body "unknown field `author`"

/-- The message a mount's admission carries. -/
def admissionMessage : List VfsPath → String
  | [] => "Admit a mount write"
  | [one] => "Admit " ++ one.display ++ " from the Kin mount"
  | many => "Admit " ++ toString many.length ++ " paths from the Kin mount"

/-- What the writer makes of an answer. -/
inductive Outcome where
  | resend
  | failed (reason : String)
  | admitted (admission : Admission)
  deriving DecidableEq

/-- Judge one answer to a request that carried the author iff `attributed`. -/
def judge (wire : Wire) (paths : List VfsPath) (attributed : Bool) :
    Except String Response → Outcome
  | .error e => .failed ("admission transport: " ++ e)
  | .ok r =>
    if attributed && refusesTheAuthorField r then .resend
    else if !isSuccess r.status then
      .failed ("the graph refused the admission (HTTP " ++ wire.showStatus r.status ++ "): " ++
        Text.trim r.body)
    else
      match wire.decodeReply r.body with
      | .error e => .failed ("decoding the admission reply: " ++ e)
      | .ok reply => .admitted ⟨reply.changeId, reply.branch, reply.fileCount, paths⟩

/-- Only an answer to an attributed request is resent. -/
theorem judge_false_ne_resend {wire : Wire} {paths : List VfsPath} {a : Except String Response} :
    judge wire paths false a ≠ .resend := by
  unfold judge
  split
  · simp
  · simp only [Bool.false_and, Bool.false_eq_true, ↓reduceIte]
    split
    · simp
    · split <;> simp

/-- An admission comes from a success status and a body that decodes. -/
theorem judge_eq_admitted {wire : Wire} {paths : List VfsPath} {attributed : Bool}
    {a : Except String Response} {adm : Admission} :
    judge wire paths attributed a = .admitted adm ↔
      ∃ r reply, a = .ok r ∧ (attributed && refusesTheAuthorField r) = false ∧
        isSuccess r.status = true ∧ wire.decodeReply r.body = .ok reply ∧
        adm = ⟨reply.changeId, reply.branch, reply.fileCount, paths⟩ := by
  unfold judge
  split
  · simp
  · rename_i r
    split
    · rename_i h
      simp only [reduceCtorEq, false_iff]
      rintro ⟨r', reply, hr, h', -⟩
      cases hr
      rw [h] at h'
      cases h'
    · rename_i h
      split
      · rename_i hs
        simp only [reduceCtorEq, false_iff]
        rintro ⟨r', reply, hr, -, hs', -⟩
        cases hr
        simp [hs'] at hs
      · rename_i hs
        split
        · rename_i e he
          simp [he]
        · rename_i reply hd
          simp only [Bool.not_eq_true, Bool.not_eq_eq_eq_not] at h hs
          simp only [Outcome.admitted.injEq]
          constructor
          · rintro rfl
            exact ⟨r, reply, rfl, by simpa using h, by simpa using hs, hd, rfl⟩
          · rintro ⟨r', reply', hr, -, -, hd', rfl⟩
            cases hr
            rw [hd] at hd'
            cases hd'
            rfl

namespace KinDaemonWriter

/-- The requests of one admission: the second drops the author and is sent at most once. -/
def exchange (wire : Wire) (paths : List VfsPath) (author : String)
    (send : CommitRequest → Except String Response) : Outcome :=
  match judge wire paths true (send ⟨admissionMessage paths, some author⟩) with
  | .resend => judge wire paths false (send ⟨admissionMessage paths, none⟩)
  | o => o

/-- The critical section at the end of an admission. -/
def settle (st : Staging) (pending : List (VfsPath × Arc)) :
    Outcome → VfsResult (Option Admission) × Staging
  | .admitted adm => (.ok (some adm), st.clear pending adm)
  | .failed reason => (.error (.provider reason), st.recordFailure reason)
  -- Not an end: `exchange` never gives it.
  | .resend => (.ok none, st)

/-- A whole admission. `commitUrl` is what the endpoint resolves to, `send` posts to it. -/
def runAdmit (wire : Wire) (author : String) (commitUrl : Except String String)
    (send : String → CommitRequest → Except String Response) (st : Staging) :
    VfsResult (Option Admission) × Staging :=
  let pending := st.snapshot
  let paths := pending.map (·.1)
  if paths.isEmpty then (.ok none, st)
  else
    match commitUrl with
    | .error reason => settle st pending (.failed reason)
    | .ok url => settle st pending (exchange wire paths author (send url))

theorem exchange_ne_resend {wire : Wire} {paths : List VfsPath} {author : String}
    {send : CommitRequest → Except String Response} :
    exchange wire paths author send ≠ .resend := by
  unfold exchange
  split
  · exact judge_false_ne_resend
  · assumption

end KinDaemonWriter

/-! ## A small instance -/

namespace Sample

/-- The reply of a daemon that committed. -/
def body : String := "\x7b\"change_id\":\"c1\",\"branch\":\"main\"\x7d"

/-- The libraries on that reply. -/
def wire : Wire where
  showStatus := toString
  decodeReply text := if text = body then .ok ⟨"c1", "main", 0⟩ else .error "expected value"

/-- An empty working copy at `/`. -/
def host : Posix.Fs := .empty ⟨0, 0o644, 0o755, 4096⟩

end Sample
end KinVfs
