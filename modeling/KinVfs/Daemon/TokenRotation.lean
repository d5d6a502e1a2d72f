import Mathlib.Data.Option.Basic
import KinVfs.Daemon.SendRetry

/-!
# A rotation of the token file

The reads of one provider (`SendRetry`) and the admissions of one writer, with a rotation of
`.kin/daemon.token` at some moment: from then on the daemon answers `401` to every token but the new one.
No token is explicit or in the environment, so both sides have what they last read of the file.

* A read reads the file again after a `401`, but sends again only if the file has another token than the
  cell, which all reads share: the second of two reads that find the old token ends with the `401`.
* An admission (`admit`, the request loop) has no such retry.

`rotation_followed` is what is left: where neither happens, no request that starts after the rotation ends
with a `401`.
-/

namespace KinVfs

/-! ## Admissions -/

/-- Where an admission is. -/
inductive CommitPc where
  /-- Before `commit_url`. -/
  | locate
  | authorize (url : String) (attributed : Bool)
  | send (url : String) (attributed : Bool) (bearer : Option String)
  | receive (url : String) (attributed : Bool) (bearer : Option String)
  /-- With the last answer, if a request was sent. -/
  | done (answer : Option (Except String Response)) (outcome : Outcome)

structure CommitCall where
  /-- What was staged when it started. -/
  paths : List VfsPath
  pc : CommitPc

inductive CommitInput where
  | locate (l : Local)
  | authorize
  | send
  | receive (a : Except String Response)

/-- The cells of a writer that its requests use. -/
structure WriterCells where
  endpoint : DaemonEndpoint
  auth : DaemonAuth

namespace CommitCall

variable (parse : Bytes → Except String ManifestIdentity) (wire : Wire)

/-- What an answer leads to: the request again without the author, or the end. -/
def onAnswer (c : CommitCall) (url : String) (attributed : Bool) (a : Except String Response) : CommitCall :=
  match judge wire c.paths attributed a with
  | .resend => { c with pc := .authorize url false }
  | outcome => { c with pc := .done (some a) outcome }

def advance (cells : WriterCells) (c : CommitCall) : CommitInput → Option (WriterCells × CommitCall)
  | .locate l =>
    match c.pc with
    | .locate =>
      let (url, endpoint) := commitUrl parse cells.endpoint l
      let pc := match url with
        | .error reason => CommitPc.done none (.failed reason)
        | .ok url => .authorize url true
      some ({ cells with endpoint := endpoint }, { c with pc := pc })
    | _ => none
  | .authorize =>
    match c.pc with
    | .authorize url attributed => some (cells, { c with pc := .send url attributed cells.auth.token })
    | _ => none
  | .send =>
    match c.pc with
    | .send url attributed bearer => some (cells, { c with pc := .receive url attributed bearer })
    | _ => none
  | .receive a =>
    match c.pc with
    | .receive url attributed _ => some (cells, c.onAnswer wire url attributed a)
    | _ => none

end CommitCall

/-! ## The system -/

/-- The new token, and how many requests had started. -/
structure Rotation where
  token : String
  reads : Nat
  admissions : Nat

structure RotationSys where
  reads : SendSys
  writer : WriterCells
  admissions : List CommitCall
  /-- `.kin/daemon.token`. -/
  file : Option String
  rotated : Option Rotation

inductive RotationLabel where
  | read
  | readTurn (i : Nat) (input : SendInput)
  | admission (paths : List VfsPath)
  | admitTurn (i : Nat) (input : CommitInput)
  | rotate (content : String)

/-- The daemon accepts the token and no other. -/
def acceptsExactly (token : String) (bearer : Option String) : Except String Response → Bool
  | .ok response => (response.status == 401) == (bearer != some token)
  | .error _ => true

def SendPc.awaiting? : SendPc → Option (Option String)
  | .receive _ bearer => some bearer
  | _ => none

def CommitPc.awaiting? : CommitPc → Option (Option String)
  | .receive _ _ bearer => some bearer
  | _ => none

/-- The status of the answer that a request ended with. -/
def SendPc.status? : SendPc → Option Nat
  | .done (.ok response) => some response.status
  | _ => none

def CommitPc.status? : CommitPc → Option Nat
  | .done (some (.ok response)) _ => some response.status
  | _ => none

theorem SendPc.status?_eq_some {pc : SendPc} {status : Nat} :
    pc.status? = some status ↔ ∃ response, pc = .done (.ok response) ∧ response.status = status := by
  unfold SendPc.status?
  split
  · simp
  · rename_i hno
    refine iff_of_false nofun ?_
    rintro ⟨response, hpc, -⟩
    exact hno response hpc

theorem CommitPc.status?_eq_some {pc : CommitPc} {status : Nat} :
    pc.status? = some status ↔
      ∃ response outcome, pc = .done (some (.ok response)) outcome ∧ response.status = status := by
  unfold CommitPc.status?
  split
  · simp
  · rename_i hno
    refine iff_of_false nofun ?_
    rintro ⟨response, outcome, hpc, -⟩
    exact hno response outcome hpc

namespace RotationSys

variable (parse : Bytes → Except String ManifestIdentity) (wire : Wire) (root : String)

/-- What the daemon can answer request `i`, which waits with `awaiting`; `started` had started when the
token was rotated. They may have any answer. -/
def answers (token : String) (started i : Nat) (awaiting : Option (Option String))
    (a : Except String Response) : Bool :=
  decide (i < started) || awaiting.all (acceptsExactly token · a)

/-- What a read can find: the file as it is, no token in the environment, and the answers above. -/
def allowsRead (s : RotationSys) (i : Nat) : SendInput → Bool
  | .refresh src => src == ⟨none, s.file⟩
  | .receive a => s.rotated.all fun rot =>
      answers rot.token rot.reads i (s.reads.calls[i]?.bind (·.pc.awaiting?)) a
  | _ => true

def allowsAdmission (s : RotationSys) (i : Nat) : CommitInput → Bool
  | .receive a => s.rotated.all fun rot =>
      answers rot.token rot.admissions i (s.admissions[i]?.bind (·.pc.awaiting?)) a
  | _ => true

def step (s : RotationSys) : RotationLabel → Option RotationSys
  | .read => do
    let reads ← s.reads.step parse .call
    return { s with reads := reads }
  | .readTurn i input => do
    guard (s.allowsRead i input)
    let reads ← s.reads.step parse (.turn i input)
    return { s with reads := reads }
  | .admission paths =>
    -- With nothing staged no request is made.
    if paths = [] then none else some { s with admissions := s.admissions ++ [⟨paths, .locate⟩] }
  | .admitTurn i input => do
    guard (s.allowsAdmission i input)
    let c ← s.admissions[i]?
    let (writer, c) ← c.advance parse wire s.writer input
    return { s with writer := writer, admissions := s.admissions.set i c }
  | .rotate content => do
    guard s.rotated.isNone
    let token ← DaemonAuth.resolveToken none (some root) ⟨none, some content⟩
    return { s with
      file := some content
      rotated := some ⟨token, s.reads.calls.length, s.admissions.length⟩ }

/-- A provider and a writer of the root, with the tokens they have read before. -/
def start (base : String) (readToken writeToken file : Option String) : RotationSys where
  reads := .start (.new base (some root)) ⟨none, some root, readToken⟩
  writer := ⟨.new base (some root), ⟨none, some root, writeToken⟩⟩
  admissions := []
  file := file
  rotated := none

end RotationSys

/-! ## What a request that starts after the rotation knows -/

section Follows

variable {parse : Bytes → Except String ManifestIdentity} {wire : Wire} {root token : String}
  {cells cells' : SendCells} {c c' : SendCall} {input : SendInput} {cell cell' : Option String}

/-- It has read the file again and is sent, or will be sent, once more. -/
def SendCall.resends (c : SendCall) : Bool :=
  c.authRetryUsed && match c.pc with
    | .refresh _ | .compare .. | .done _ => false
    | _ => true

def SendPc.bearer? : SendPc → Option (Option String)
  | .send _ bearer | .receive _ bearer => some bearer
  | _ => none

def SendPc.compared? : SendPc → Option (Option String)
  | .compare _ resolved => some resolved
  | _ => none

/-- A read that starts after the rotation to `token`; `cell` is the shared token. -/
structure SendCall.Follows (token : String) (cell : Option String) (c : SendCall) : Prop where
  cell : c.resends = true → cell = some token
  bearer : c.resends = true → ∀ bearer, c.pc.bearer? = some bearer → bearer = some token
  compare : ∀ response resolved, c.pc = .compare response resolved → resolved = some token
  done : ∀ response, c.pc = .done (.ok response) → response.status ≠ 401

/-- Another read stores the new token, or this one does not depend on the cell. -/
theorem SendCall.Follows.other (h : c.Follows token cell)
    (hcell : cell' = cell ∨ cell' = some token ∨ c.resends = false) : c.Follows token cell' := by
  refine ⟨fun hres => ?_, h.bearer, h.compare, h.done⟩
  rcases hcell with rfl | rfl | hno
  · exact h.cell hres
  · rfl
  · rw [hno] at hres
    cases hres

theorem SendCall.Follows.log (h : c.Follows token cell) (e : SendEvent) : (c.log e).Follows token cell :=
  ⟨h.cell, h.bearer, h.compare, h.done⟩

/-- A place that has no token and no answer. -/
def SendPc.Plain (pc : SendPc) : Prop :=
  pc.bearer? = none ∧ (∀ response resolved, pc ≠ .compare response resolved) ∧
    ∀ response, pc ≠ .done (.ok response)

theorem SendCall.Follows.goto (h : c.Follows token cell) (hres : c.resends = c.authRetryUsed) {pc : SendPc}
    (hpc : pc.Plain) : (c.goto pc).Follows token cell where
  cell hres' := by
    rw [SendCall.resends, Bool.and_eq_true] at hres'
    exact h.cell (hres.trans hres'.1)
  bearer _ b hb := by
    rw [SendCall.goto, hpc.1] at hb
    cases hb
  compare response resolved heq := absurd heq (hpc.2.1 response resolved)
  done response heq := absurd heq (hpc.2.2 response)

theorem SendCall.Follows.onNoted (h : c.Follows token cell) (hres : c.resends = c.authRetryUsed)
    (root : Option String) (purpose : Purpose) (resolved : Option String) :
    (c.onNoted root purpose resolved).Follows token cell := by
  cases resolved with
  | none => cases purpose <;> exact h.goto hres ⟨rfl, by simp, by simp⟩
  | some url => cases purpose <;> exact h.goto hres ⟨rfl, by simp, by simp⟩

theorem SendCall.Follows.onStored (h : c.Follows token cell) (hres : c.resends = c.authRetryUsed)
    (url : String) (purpose : Purpose) : (c.onStored url purpose).Follows token cell := by
  cases purpose with
  | request => exact h.goto hres ⟨rfl, by simp, by simp⟩
  | retry failedBase e =>
    simp only [SendCall.onStored]
    split
    · exact h.goto hres ⟨rfl, by simp, by simp⟩
    · exact h.goto hres ⟨rfl, by simp, by simp⟩

/-- A read that has read the file again carries the new token, which is not answered by a `401`. -/
theorem SendCall.Follows.onAnswer (h : c.Follows token cell) {url : String} {bearer : Option String}
    (hpc : c.pc = .receive url bearer) {a : Except String Response}
    (ha : acceptsExactly token bearer a = true) : (c.onAnswer url a).Follows token cell := by
  have hres : c.resends = c.authRetryUsed := by simp [SendCall.resends, hpc]
  cases a with
  | ok response =>
    simp only [SendCall.onAnswer]
    split
    · exact ⟨by simp [SendCall.resends], by simp [SendCall.resends], by simp, by simp⟩
    · rename_i hlast
      refine ⟨fun hdone => ?_, by simp [SendCall.goto, SendPc.bearer?], by simp [SendCall.goto], fun r hr => ?_⟩
      · simp [SendCall.resends, SendCall.goto] at hdone
      · cases hr
        intro h401
        have hused : c.authRetryUsed = true := by
          cases hused : c.authRetryUsed with
          | false => exact absurd ⟨h401, hused⟩ hlast
          | true => rfl
        have hbearer := h.bearer (hres.trans hused) bearer (by rw [hpc]; rfl)
        simp [acceptsExactly, h401, hbearer] at ha
  | error e =>
    simp only [SendCall.onAnswer]
    split
    · refine ⟨fun hres' => h.cell ?_, by simp [SendPc.bearer?], by simp, by simp⟩
      rw [hres]
      simpa [SendCall.resends] using hres'
    · exact h.goto hres ⟨rfl, by simp, by simp⟩

theorem noteResolution_auth (cells : SendCells) (resolved : Option String) :
    (cells.noteResolution resolved).auth = cells.auth := by
  unfold SendCells.noteResolution
  split <;> rfl

/-- One access of a read that started after the rotation. -/
theorem SendTurn.follows (hturn : SendTurn parse cells c input cells' c')
    (hc : c.Follows token cells.auth.token)
    (hfile : ∀ src, input = .refresh src →
      DaemonAuth.resolveToken cells.auth.explicit cells.auth.repoRoot src = some token)
    (hanswer : ∀ a bearer, input = .receive a → c.pc.awaiting? = some bearer →
      acceptsExactly token bearer a = true)
    (hcompare : ∀ response resolved, input = .compare → c.pc = .compare response resolved →
      cells.auth.token ≠ resolved) :
    c'.Follows token cells'.auth.token := by
  cases hturn with
  | refused l e hpc h => exact (hc.log _).goto (by simp [SendCall.resends, SendCall.log, hpc]) ⟨rfl, by simp, by simp⟩
  | passed l hpc h => exact (hc.log _).goto (by simp [SendCall.resends, SendCall.log, hpc]) ⟨rfl, by simp, by simp⟩
  | pinned l hpc h => exact (hc.log _).goto (by simp [SendCall.resends, SendCall.log, hpc]) ⟨rfl, by simp, by simp⟩
  | resolved l purpose hpc h =>
    exact (hc.log _).goto (by simp [SendCall.resends, SendCall.log, hpc]) ⟨rfl, by simp, by simp⟩
  | noted purpose resolved hpc =>
    rw [noteResolution_auth]
    exact hc.onNoted (by simp [SendCall.resends, hpc]) _ purpose resolved
  | stored purpose url hpc => exact hc.onStored (by simp [SendCall.resends, hpc]) url purpose
  | authorized url hpc =>
    have hres : (c.goto (.send url cells.auth.token)).resends = true → cells.auth.token = some token := by
      intro hres
      refine hc.cell ?_
      simpa [SendCall.resends, SendCall.goto, hpc] using hres
    refine ⟨hres, fun h bearer hb => ?_, by simp [SendCall.goto], by simp [SendCall.goto]⟩
    cases hb
    exact hres h
  | sent url bearer hpc =>
    have hres : ((c.log (.send url bearer)).goto (.receive url bearer)).resends = c.resends := by
      simp [SendCall.resends, SendCall.goto, SendCall.log, hpc]
    refine ⟨fun h => hc.cell (hres.symm.trans h), fun h b hb => ?_, by simp [SendCall.goto],
      by simp [SendCall.goto]⟩
    exact hc.bearer (hres.symm.trans h) b (by rw [hpc]; exact hb)
  | answered url bearer a hpc =>
    exact (hc.log _).onAnswer hpc (hanswer a bearer rfl (by rw [hpc]; rfl))
  | refreshed response src hpc =>
    refine ⟨fun h => ?_, by simp [SendCall.goto, SendPc.bearer?], fun r resolved heq => ?_, by simp [SendCall.goto]⟩
    · simp [SendCall.resends, SendCall.goto] at h
    · cases heq
      exact hfile src rfl
  | kept response resolved hpc h => exact absurd h (hcompare response resolved rfl hpc)
  | gone response hpc h => cases hc.compare response none hpc
  | renewed response token' hpc h =>
    cases hc.compare response (some token') hpc
    exact ⟨fun _ => rfl, by simp [SendCall.goto, SendPc.bearer?], by simp [SendCall.goto], by simp [SendCall.goto]⟩

/-- The cell changes in `compare` only. -/
theorem SendTurn.auth_cases (hturn : SendTurn parse cells c input cells' c') :
    cells'.auth = cells.auth ∨ ∃ response resolved, input = .compare ∧ c.pc = .compare response resolved ∧
      cells.auth.token ≠ resolved ∧ cells'.auth = { cells.auth with token := resolved } := by
  cases hturn with
  | noted purpose resolved hpc => exact .inl (noteResolution_auth cells resolved)
  | gone response hpc h => exact .inr ⟨response, none, rfl, hpc, h, rfl⟩
  | renewed response token hpc h => exact .inr ⟨response, some token, rfl, hpc, h, rfl⟩
  | _ => exact .inl rfl

/-- An admission that starts after the rotation, of a writer that has the new token. -/
structure CommitCall.Follows (token : String) (c : CommitCall) : Prop where
  bearer : ∀ url attributed bearer, c.pc = .send url attributed bearer ∨ c.pc = .receive url attributed bearer →
    bearer = some token
  done : ∀ response outcome, c.pc = .done (some (.ok response)) outcome → response.status ≠ 401

variable {writer writer' : WriterCells} {a a' : CommitCall}

theorem CommitCall.Follows.onAnswer {url : String} {attributed : Bool} {answer : Except String Response}
    (hanswer : acceptsExactly token (some token) answer = true) :
    (a.onAnswer wire url attributed answer).Follows token := by
  unfold CommitCall.onAnswer
  split
  · exact ⟨nofun, nofun⟩
  · refine ⟨nofun, fun response outcome heq => ?_⟩
    cases heq
    simpa [acceptsExactly] using hanswer

theorem CommitCall.advance_auth {x : CommitInput} (h : a.advance parse wire writer x = some (writer', a')) :
    writer'.auth = writer.auth := by
  cases x <;> simp only [CommitCall.advance] at h <;> split at h <;> cases h <;> rfl

theorem CommitCall.Follows.advance (h : a.Follows token) (hwriter : writer.auth.token = some token)
    {x : CommitInput} (hanswer : ∀ answer bearer, x = .receive answer → a.pc.awaiting? = some bearer →
      acceptsExactly token bearer answer = true)
    (hadv : a.advance parse wire writer x = some (writer', a')) : a'.Follows token := by
  cases x with
  | locate l =>
    simp only [CommitCall.advance] at hadv
    split at hadv
    · cases hadv
      split
      · exact ⟨nofun, nofun⟩
      · exact ⟨nofun, nofun⟩
    · cases hadv
  | authorize =>
    simp only [CommitCall.advance] at hadv
    split at hadv
    · cases hadv
      refine ⟨fun url attributed bearer heq => ?_, nofun⟩
      rcases heq with heq | heq
      · cases heq
        exact hwriter
      · cases heq
    · cases hadv
  | send =>
    simp only [CommitCall.advance] at hadv
    split at hadv
    · rename_i url attributed bearer hpc
      cases hadv
      refine ⟨fun url attributed bearer heq => ?_, nofun⟩
      rcases heq with heq | heq
      · cases heq
      · cases heq
        exact h.bearer url attributed bearer (.inl hpc)
    · cases hadv
  | receive answer =>
    simp only [CommitCall.advance] at hadv
    split at hadv
    · rename_i url attributed bearer hpc
      cases hadv
      have hbearer := h.bearer url attributed bearer (.inr hpc)
      refine CommitCall.Follows.onAnswer ?_
      rw [← hbearer]
      exact hanswer answer bearer rfl (by rw [hpc]; rfl)
    · cases hadv

end Follows

/-! ## Runs -/

namespace RotationSys

variable {parse : Bytes → Except String ManifestIdentity} {wire : Wire} {root : String}
  {s s' : RotationSys} {l : RotationLabel}

/-- What keeps a step from losing the rotation.

* A read that started after it and compares what it has read of the file with the cell finds another token
  there: no other read has stored it meanwhile.
* An older token, which a read has read of the file before the rotation, is not stored while a read that
  started after it is sent once more.
* A writer that starts an admission after it has the new token. -/
def Undisturbed (s : RotationSys) : RotationLabel → Prop
  | .readTurn i .compare => ∀ rot ∈ s.rotated, ∀ resolved ∈ s.reads.calls[i]?.bind (·.pc.compared?),
      (rot.reads ≤ i → s.reads.cells.auth.token ≠ resolved) ∧
        (s.reads.cells.auth.token ≠ resolved → resolved ≠ some rot.token →
          ∀ c ∈ s.reads.calls.drop rot.reads, c.resends = false)
  | .admission _ => ∀ rot ∈ s.rotated, s.writer.auth.token = some rot.token
  | _ => True

instance (s : RotationSys) : ∀ l, Decidable (s.Undisturbed l)
  | .readTurn _ .compare | .admission _ => by unfold Undisturbed; infer_instance
  | .readTurn _ (.preflight _) | .readTurn _ (.resolve _) | .readTurn _ .note | .readTurn _ .store
  | .readTurn _ .authorize | .readTurn _ .send | .readTurn _ (.receive _) | .readTurn _ (.refresh _)
  | .read | .admitTurn .. | .rotate _ => isTrue trivial

/-- The requests that started after the rotation. -/
structure Followed (root : String) (s : RotationSys) (rot : Rotation) : Prop where
  file : DaemonAuth.resolveToken none (some root) ⟨none, s.file⟩ = some rot.token
  reads : ∀ i c, rot.reads ≤ i → s.reads.calls[i]? = some c → c.Follows rot.token s.reads.cells.auth.token
  admissions : ∀ i c, rot.admissions ≤ i → s.admissions[i]? = some c →
    s.writer.auth.token = some rot.token ∧ c.Follows rot.token

structure Ok (root : String) (s : RotationSys) : Prop where
  explicit : s.reads.cells.auth.explicit = none
  repoRoot : s.reads.cells.auth.repoRoot = some root
  followed : ∀ rot, s.rotated = some rot → s.Followed root rot

/-- One more request, or one request further. -/
theorem forall_append {α : Type} {P : α → Prop} {xs : List α} {x : α} {from_ : Nat}
    (h : ∀ i y, from_ ≤ i → xs[i]? = some y → P y) (hx : P x) :
    ∀ i y, from_ ≤ i → (xs ++ [x])[i]? = some y → P y := by
  intro i y hi hy
  rw [List.getElem?_append] at hy
  split at hy
  · exact h i y hi hy
  · cases List.mem_singleton.mp (List.mem_of_getElem? hy)
    exact hx

theorem Ok.read (h : s.Ok root) :
    ({ s with reads := { s.reads with calls := s.reads.calls ++ [.start] } } : RotationSys).Ok root where
  explicit := h.explicit
  repoRoot := h.repoRoot
  followed rot hrot :=
    have hf := h.followed rot hrot
    { file := hf.file
      reads := forall_append hf.reads ⟨nofun, nofun, nofun, nofun⟩
      admissions := hf.admissions }

theorem Ok.readTurn (h : s.Ok root) {i : Nat} {input : SendInput} (hC : s.Undisturbed (.readTurn i input))
    (hallows : s.allowsRead i input = true) {c c' : SendCall} {cells : SendCells}
    (hc : s.reads.calls[i]? = some c) (hturn : SendTurn parse s.reads.cells c input cells c') :
    ({ s with reads := ⟨cells, s.reads.calls.set i c'⟩ } : RotationSys).Ok root := by
  have hauth := hturn.auth_cases
  refine ⟨?_, ?_, fun rot (hrot : s.rotated = some rot) => ?_⟩
  · rcases hauth with hauth | ⟨_, _, -, -, -, hauth⟩ <;> rw [hauth] <;> exact h.explicit
  · rcases hauth with hauth | ⟨_, _, -, -, -, hauth⟩ <;> rw [hauth] <;> exact h.repoRoot
  obtain ⟨hfile, hreads, hadmissions⟩ := h.followed rot hrot
  refine ⟨hfile, fun j d hj hd => ?_, hadmissions⟩
  simp only [List.getElem?_set] at hd
  split at hd
  · rename_i hij
    subst hij
    -- The read itself.
    split at hd
    · cases hd
      refine hturn.follows (hreads i c hj hc) (fun src hsrc => ?_) (fun a bearer ha hawait => ?_)
        fun response resolved hinput hpc => ?_
      · rw [hsrc] at hallows
        rw [h.explicit, h.repoRoot, eq_of_beq hallows]
        exact hfile
      · rw [ha] at hallows
        simpa [allowsRead, hrot, answers, hc, hawait, Nat.not_lt.mpr hj] using hallows
      · rw [hinput] at hC
        exact (hC rot hrot resolved (by rw [hc, Option.bind_some, hpc]; rfl)).1 hj
    · cases hd
  · -- Another read, which shares the cell.
    refine (hreads j d hj hd).other ?_
    rcases hauth with hauth | ⟨response, resolved, hinput, hpc, hne, hauth⟩
    · exact .inl (congrArg DaemonAuth.token hauth)
    · rw [hinput] at hC
      by_cases hnew : resolved = some rot.token
      · exact .inr (.inl (by rw [hauth]; exact hnew))
      · have hafter : d ∈ s.reads.calls.drop rot.reads := by
          refine List.mem_of_getElem? (i := j - rot.reads) ?_
          rw [List.getElem?_drop, Nat.add_sub_cancel' hj]
          exact hd
        have hstored := hC rot hrot resolved (by rw [hc, Option.bind_some, hpc]; rfl)
        exact .inr (.inr (hstored.2 hne hnew d hafter))

theorem Ok.admission (h : s.Ok root) {paths : List VfsPath} (hC : s.Undisturbed (.admission paths)) :
    ({ s with admissions := s.admissions ++ [⟨paths, .locate⟩] } : RotationSys).Ok root where
  explicit := h.explicit
  repoRoot := h.repoRoot
  followed rot hrot :=
    have hf := h.followed rot hrot
    { file := hf.file
      reads := hf.reads
      admissions := forall_append hf.admissions ⟨hC rot hrot, nofun, nofun⟩ }

theorem Ok.admitTurn (h : s.Ok root) {i : Nat} {input : CommitInput} (hallows : s.allowsAdmission i input = true)
    {c c' : CommitCall} {writer : WriterCells} (hc : s.admissions[i]? = some c)
    (hadv : c.advance parse wire s.writer input = some (writer, c')) :
    ({ s with writer := writer, admissions := s.admissions.set i c' } : RotationSys).Ok root := by
  have hauth := CommitCall.advance_auth hadv
  refine ⟨h.explicit, h.repoRoot, fun rot (hrot : s.rotated = some rot) => ?_⟩
  obtain ⟨hfile, hreads, hadmissions⟩ := h.followed rot hrot
  refine ⟨hfile, hreads, fun j d hj hd => ?_⟩
  simp only [List.getElem?_set] at hd
  rw [hauth]
  split at hd
  · rename_i hij
    subst hij
    split at hd
    · cases hd
      obtain ⟨hwriter, hfollows⟩ := hadmissions i c hj hc
      refine ⟨hwriter, hfollows.advance hwriter (fun answer bearer ha hawait => ?_) hadv⟩
      rw [ha] at hallows
      simpa [allowsAdmission, hrot, answers, hc, hawait, Nat.not_lt.mpr hj] using hallows
    · cases hd
  · exact hadmissions j d hj hd

/-- No request has started after the rotation when it happens. -/
theorem Ok.rotate (h : s.Ok root) {content token : String}
    (htoken : DaemonAuth.resolveToken none (some root) ⟨none, some content⟩ = some token) :
    ({ s with
        file := some content
        rotated := some ⟨token, s.reads.calls.length, s.admissions.length⟩ } : RotationSys).Ok root where
  explicit := h.explicit
  repoRoot := h.repoRoot
  followed rot hrot := by
    cases hrot
    refine ⟨htoken, fun i c hi hc => ?_, fun i c hi hc => ?_⟩
    · rw [List.getElem?_eq_none hi] at hc
      cases hc
    · rw [List.getElem?_eq_none hi] at hc
      cases hc

theorem Ok.step (h : s.Ok root) (hC : s.Undisturbed l) (hstep : s.step parse wire root l = some s') :
    s'.Ok root := by
  cases l with
  | read =>
    cases hstep
    exact h.read
  | readTurn i input =>
    simp only [RotationSys.step, Option.bind_eq_bind, Option.bind_eq_some_iff, Option.guard_eq_some'] at hstep
    obtain ⟨-, hallows, reads, hreads, hs'⟩ := hstep
    cases hs'
    rcases SendSys.step_cases hreads with ⟨hl, -⟩ | ⟨_, _, c, cells, c', hl, hc, hturn, rfl⟩
    · cases hl
    · cases hl
      exact h.readTurn hC hallows hc hturn
  | admission paths =>
    simp only [RotationSys.step] at hstep
    split at hstep
    · cases hstep
    · cases hstep
      exact h.admission hC
  | admitTurn i input =>
    simp only [RotationSys.step, Option.bind_eq_bind, Option.bind_eq_some_iff, Option.guard_eq_some'] at hstep
    obtain ⟨-, hallows, c, hc, ⟨writer, c'⟩, hadv, hs'⟩ := hstep
    cases hs'
    exact h.admitTurn hallows hc hadv
  | rotate content =>
    simp only [RotationSys.step, Option.bind_eq_bind, Option.bind_eq_some_iff, Option.guard_eq_some'] at hstep
    obtain ⟨-, -, token, htoken, hs'⟩ := hstep
    cases hs'
    exact h.rotate htoken

/-- No request that started after the rotation has ended with a `401`. -/
def RotationFollowed (s : RotationSys) : Prop :=
  ∀ rot ∈ s.rotated, (∀ c ∈ s.reads.calls.drop rot.reads, c.pc.status? ≠ some 401) ∧
    ∀ c ∈ s.admissions.drop rot.admissions, c.pc.status? ≠ some 401

instance (s : RotationSys) : Decidable s.RotationFollowed := by
  unfold RotationFollowed
  infer_instance

end RotationSys

/-- **A rotation is followed** in every run of reads and admissions in which no step is disturbed. -/
theorem rotation_followed {parse : Bytes → Except String ManifestIdentity} {wire : Wire} {root base : String}
    {readToken writeToken file : Option String} {labels : List RotationLabel} {s : RotationSys}
    (hC : Runs.Meets (RotationSys.step parse wire root) RotationSys.Undisturbed
      (.start root base readToken writeToken file) labels)
    (h : Runs.run (RotationSys.step parse wire root) (.start root base readToken writeToken file) labels =
      some s) : s.RotationFollowed := by
  have hstart : (RotationSys.start root base readToken writeToken file).Ok root := by
    refine ⟨rfl, rfl, fun rot hrot => ?_⟩
    cases hrot
  have hok : s.Ok root :=
    Runs.run_inv_of_meets (fun _ _ _ hok hC hstep => hok.step hC hstep) hstart hC h
  intro rot hrot
  obtain ⟨-, hreads, hadmissions⟩ := hok.followed rot hrot
  refine ⟨fun c hc h401 => ?_, fun c hc h401 => ?_⟩
  · obtain ⟨i, hi⟩ := List.mem_iff_getElem?.mp hc
    rw [List.getElem?_drop] at hi
    obtain ⟨response, hpc, hstatus⟩ := SendPc.status?_eq_some.mp h401
    exact (hreads _ c (Nat.le_add_right _ i) hi).done response hpc hstatus
  · obtain ⟨i, hi⟩ := List.mem_iff_getElem?.mp hc
    rw [List.getElem?_drop] at hi
    obtain ⟨response, outcome, hpc, hstatus⟩ := CommitPc.status?_eq_some.mp h401
    exact (hadmissions _ c (Nat.le_add_right _ i) hi).2.done response outcome hpc hstatus

namespace Sample

def answeredRead (i status : Nat) : List RotationLabel :=
  [.preflight (advertised "4219"), .resolve (advertised "4219"), .note, .store, .authorize, .send,
    .receive (.ok ⟨status, ""⟩)].map (.readTurn i)

def renewedRead (i : Nat) : List RotationLabel :=
  [.refresh ⟨none, some "new\n"⟩, .compare].map (.readTurn i)

def answeredAdmission (i : Nat) (response : Response) : List RotationLabel :=
  [.locate (advertised "4219"), .authorize, .send, .receive (.ok response)].map (.admitTurn i)

/-- One read finds the old token and is sent again; the writer was built after the rotation. -/
def oneRenewal : List RotationLabel :=
  [.rotate "new\n", .read] ++ answeredRead 0 401 ++ renewedRead 0 ++ answeredRead 0 200 ++
    [.admission [a]] ++ answeredAdmission 0 ⟨200, body⟩

/-- Two reads find the old token, and an admission does. -/
def racedRenewals : List RotationLabel :=
  [.rotate "new\n", .read, .read] ++ answeredRead 0 401 ++ answeredRead 1 401 ++ renewedRead 0 ++
    renewedRead 1 ++ [.admission [a]] ++ answeredAdmission 0 ⟨401, "unauthorized"⟩

/-- The status that each request ended with. -/
def statuses (s : RotationSys) : List (Option Nat) × List (Option Nat) :=
  (s.reads.calls.map (·.pc.status?), s.admissions.map (·.pc.status?))

end Sample

theorem rotation_followed_renewal :
    ∃ s : RotationSys, Runs.run (RotationSys.step Sample.readManifest Sample.wire "/r")
        (.start "/r" "http://127.0.0.1:4219" (some "old") (some "new") (some "old")) Sample.oneRenewal = some s ∧
      Sample.statuses s = ([some 200], [some 200]) ∧ s.RotationFollowed := by
  have hrun : (Runs.run (RotationSys.step Sample.readManifest Sample.wire "/r")
      (.start "/r" "http://127.0.0.1:4219" (some "old") (some "new") (some "old")) Sample.oneRenewal).map
        Sample.statuses = some ([some 200], [some 200]) := by
    decide +kernel
  obtain ⟨s, hs, hstatuses⟩ := Option.map_eq_some_iff.mp hrun
  exact ⟨s, hs, hstatuses, rotation_followed (by decide +kernel) hs⟩

/-- The second read and the admission end with a `401`, though both start after the rotation. -/
theorem not_rotation_followed :
    ∃ s : RotationSys, Runs.run (RotationSys.step Sample.readManifest Sample.wire "/r")
        (.start "/r" "http://127.0.0.1:4219" (some "old") (some "old") (some "old")) Sample.racedRenewals = some s ∧
      Sample.statuses s = ([none, some 401], [some 401]) ∧ ¬ s.RotationFollowed := by
  have hrun : (Runs.run (RotationSys.step Sample.readManifest Sample.wire "/r")
      (.start "/r" "http://127.0.0.1:4219" (some "old") (some "old") (some "old")) Sample.racedRenewals).map
        (fun s => (Sample.statuses s, decide s.RotationFollowed)) =
      some (([none, some 401], [some 401]), false) := by
    decide +kernel
  obtain ⟨s, hs, hend⟩ := Option.map_eq_some_iff.mp hrun
  obtain ⟨hstatuses, hnot⟩ := Prod.mk.inj hend
  exact ⟨s, hs, hstatuses, of_decide_eq_false hnot⟩

end KinVfs
