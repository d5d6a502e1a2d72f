import KinVfs.Lib.Runs
import KinVfs.Daemon.Admission
import KinVfs.Daemon.StagingLemmas

/-!
# One writer under any number of threads

`Sys` is one `KinDaemonWriter` with the calls that run on it. A call is entered with `Label.call`
and gets the next index as its id; from then on its steps are scheduled one at a time, in any order
with those of the other calls. A mutation has a disk step and, for each of its marks, a restat and a
mark step. An admission has a snapshot step, an endpoint step, a daemon step for each request and a
reply step. What the environment decides (allocated addresses, endpoint, answers) is in the label.

`Sys.log`, `Sys.marks` and `Sys.reported` are history, read by no step: the calls whose disk step
succeeded, the marks made, and for each commit the daemon reported as successful the calls whose
disk effect it had read.
-/

namespace KinVfs

open Posix (Fs)
open Fallible

/-- Where a mutation is. -/
inductive MutPc where
  | start
  | marking (todo : List MarkStep)
  | statted (path : VfsPath) (stat : VirtualStat) (todo : List MarkStep)
  | done (result : VfsResult Unit)

/-- Where an admission is. `read` is history: the disk effects the daemon's commit read. -/
inductive AdmitPc where
  | start
  | snapped (pending : List (VfsPath × Arc))
  | sent (pending : List (VfsPath × Arc)) (attributed : Bool)
  | answered (pending : List (VfsPath × Arc)) (attributed : Bool) (read : List Nat)
      (answer : Except String Response)
  | refused (pending : List (VfsPath × Arc)) (reason : String)
  | done (pending : List (VfsPath × Arc)) (result : VfsResult (Option Admission))

/-- `aborted` is a call that its process took with it when it exited. -/
inductive Call where
  | mutation (m : Mutation) (pc : MutPc)
  | admission (pc : AdmitPc)
  | aborted

/-- The mutation was accepted. -/
def Call.accepted : Call → Bool
  | .mutation _ (.done (.ok ())) => true
  | _ => false

theorem Call.of_accepted {c : Call} (h : c.accepted = true) : ∃ m, c = .mutation m (.done (.ok ())) := by
  unfold Call.accepted at h
  split at h
  · exact ⟨_, rfl⟩
  · cases h

structure Sys where
  host : Fs
  staging : Staging
  calls : List Call
  log : List Nat
  marks : List (Nat × VfsPath)
  reported : List (List Nat)

/-- A call to enter. -/
inductive Op where
  | mutation (m : Mutation)
  | admission
  deriving DecidableEq

inductive Label where
  | call (op : Op)
  | disk (i : Nat)
  | stat (i : Nat)
  | mark (i : Nat) (revision : Arc) (now : Nat)
  | snapshot (i : Nat)
  | url (i : Nat) (url : Except String String)
  | daemon (i : Nat) (answer : Except String Response)
  | reply (i : Nat)

def Op.enter : Op → Call
  | .mutation m => .mutation m .start
  | .admission => .admission .start

/-- What is left to do after a mark. -/
def MutPc.next : List MarkStep → MutPc
  | [] => .done (.ok ())
  | todo => .marking todo

/-- The `Arc`s an admission still holds. -/
def AdmitPc.held : AdmitPc → List Arc
  | .snapped pending | .sent pending _ | .answered pending .. | .refused pending _ =>
    pending.map (·.2)
  | .start | .done .. => []

def Call.held : Call → List Arc
  | .mutation .. | .aborted => []
  | .admission pc => pc.held

/-- What is left of a call when the process exits. -/
def Call.abort : Call → Call
  | .mutation m (.done r) => .mutation m (.done r)
  | .admission (.done pending r) => .admission (.done pending r)
  | _ => .aborted

namespace Sys

/-- No call has been made. -/
def init (host : Fs) : Sys := ⟨host, .init, [], [], [], []⟩

/-- The addresses in use. -/
def live (s : Sys) : List Arc :=
  s.staging.snapshot.map (·.2) ++ s.calls.flatMap Call.held

/-- Call `i` is now at `c`. -/
def goto (s : Sys) (i : Nat) (c : Call) : Sys := { s with calls := s.calls.set i c }

/-- The commit an answer reports as successful. -/
def report (read : List Nat) : Except String Response → List (List Nat)
  | .ok r => if isSuccess r.status then [read] else []
  | .error _ => []

def stepDisk (repoRoot : Posix.Path) (s : Sys) (i : Nat) : Option Sys :=
  match s.calls[i]? with
  | some (.mutation m .start) =>
    match exec (m.disk repoRoot) s.host with
    | (.ok (), host) =>
      some ({ s with host := host, log := s.log ++ [i] }.goto i (.mutation m (.marking m.marks)))
    | (.error e, host) => some ({ s with host := host }.goto i (.mutation m (.done (.error e))))
  | _ => none

def stepStat (repoRoot : Posix.Path) (s : Sys) (i : Nat) : Option Sys :=
  match s.calls[i]? with
  | some (.mutation m (.marking (.present path :: todo))) =>
    match KinDaemonWriter.restat repoRoot s.host path with
    | .ok stat => some (s.goto i (.mutation m (.statted path stat todo)))
    | .error e => some (s.goto i (.mutation m (.done (.error e))))
  | _ => none

/-- Record `path` for call `i`, which then has `todo` left. -/
def record (s : Sys) (i : Nat) (m : Mutation) (todo : List MarkStep) (path : VfsPath)
    (staged : Staged) (revision : Arc) (now : Nat) : Sys :=
  { s with
    staging := s.staging.mark path staged revision now
    marks := s.marks ++ [(i, path)] }.goto i (.mutation m (.next todo))

/-- The allocator gives an address that is not in use. -/
def stepMark (s : Sys) (i : Nat) (revision : Arc) (now : Nat) : Option Sys :=
  if revision ∈ s.live then none
  else
    match s.calls[i]? with
    | some (.mutation m (.statted path stat todo)) =>
      some (s.record i m todo path (.present stat) revision now)
    | some (.mutation m (.marking (.removed path :: todo))) =>
      some (s.record i m todo path .removed revision now)
    | _ => none

def stepSnapshot (s : Sys) (i : Nat) : Option Sys :=
  match s.calls[i]? with
  | some (.admission .start) =>
    let pending := s.staging.snapshot
    if pending.isEmpty then some (s.goto i (.admission (.done [] (.ok none))))
    else some (s.goto i (.admission (.snapped pending)))
  | _ => none

def stepUrl (s : Sys) (i : Nat) (url : Except String String) : Option Sys :=
  match s.calls[i]? with
  | some (.admission (.snapped pending)) =>
    match url with
    | .ok _ => some (s.goto i (.admission (.sent pending true)))
    | .error reason => some (s.goto i (.admission (.refused pending reason)))
  | _ => none

/-- The daemon handles the request: a commit reads the working copy as it is now. -/
def stepDaemon (s : Sys) (i : Nat) (answer : Except String Response) : Option Sys :=
  match s.calls[i]? with
  | some (.admission (.sent pending attributed)) =>
    some (s.goto i (.admission (.answered pending attributed s.log answer)))
  | _ => none

/-- `record_failure`, and the admission returns. -/
def fail (s : Sys) (i : Nat) (pending : List (VfsPath × Arc)) (reason : String) : Sys :=
  { s with staging := s.staging.recordFailure reason }.goto i
    (.admission (.done pending (.error (.provider reason))))

def stepReply (wire : Wire) (s : Sys) (i : Nat) : Option Sys :=
  match s.calls[i]? with
  | some (.admission (.refused pending reason)) => some (s.fail i pending reason)
  | some (.admission (.answered pending attributed read answer)) =>
    match judge wire (pending.map (·.1)) attributed answer with
    | .resend => some (s.goto i (.admission (.sent pending false)))
    | .failed reason =>
      some ({ s with reported := s.reported ++ report read answer }.fail i pending reason)
    | .admitted adm =>
      some ({ s with
          reported := s.reported ++ report read answer
          staging := s.staging.clear pending adm }.goto i
        (.admission (.done pending (.ok (some adm)))))
  | _ => none

/-- One step of one call, or a new call. -/
def step (repoRoot : Posix.Path) (wire : Wire) (s : Sys) : Label → Option Sys
  | .call op => some { s with calls := s.calls ++ [op.enter] }
  | .disk i => s.stepDisk repoRoot i
  | .stat i => s.stepStat repoRoot i
  | .mark i revision now => s.stepMark i revision now
  | .snapshot i => s.stepSnapshot i
  | .url i url => s.stepUrl i url
  | .daemon i answer => s.stepDaemon i answer
  | .reply i => s.stepReply wire i

end Sys

/-! ## What a step can be -/

/-- The steps, one constructor for each way a step function ends. -/
inductive Step (repoRoot : Posix.Path) (wire : Wire) (s : Sys) : Label → Sys → Prop where
  | call (op : Op) : Step repoRoot wire s (.call op) { s with calls := s.calls ++ [op.enter] }
  | diskOk {i : Nat} {m : Mutation} {host : Fs} (hc : s.calls[i]? = some (.mutation m .start))
      (hd : exec (m.disk repoRoot) s.host = (.ok (), host)) :
      Step repoRoot wire s (.disk i)
        ({ s with host := host, log := s.log ++ [i] }.goto i (.mutation m (.marking m.marks)))
  | diskError {i : Nat} {m : Mutation} {host : Fs} {e : VfsError}
      (hc : s.calls[i]? = some (.mutation m .start))
      (hd : exec (m.disk repoRoot) s.host = (.error e, host)) :
      Step repoRoot wire s (.disk i)
        ({ s with host := host }.goto i (.mutation m (.done (.error e))))
  | statOk {i : Nat} {m : Mutation} {path : VfsPath} {todo : List MarkStep} {stat : VirtualStat}
      (hc : s.calls[i]? = some (.mutation m (.marking (.present path :: todo))))
      (hr : KinDaemonWriter.restat repoRoot s.host path = .ok stat) :
      Step repoRoot wire s (.stat i) (s.goto i (.mutation m (.statted path stat todo)))
  | statError {i : Nat} {m : Mutation} {path : VfsPath} {todo : List MarkStep} {e : VfsError}
      (hc : s.calls[i]? = some (.mutation m (.marking (.present path :: todo))))
      (hr : KinDaemonWriter.restat repoRoot s.host path = .error e) :
      Step repoRoot wire s (.stat i) (s.goto i (.mutation m (.done (.error e))))
  | markPresent {i : Nat} {m : Mutation} {path : VfsPath} {todo : List MarkStep}
      {stat : VirtualStat} {revision : Arc} {now : Nat} (hfresh : revision ∉ s.live)
      (hc : s.calls[i]? = some (.mutation m (.statted path stat todo))) :
      Step repoRoot wire s (.mark i revision now)
        (s.record i m todo path (.present stat) revision now)
  | markRemoved {i : Nat} {m : Mutation} {path : VfsPath} {todo : List MarkStep}
      {revision : Arc} {now : Nat} (hfresh : revision ∉ s.live)
      (hc : s.calls[i]? = some (.mutation m (.marking (.removed path :: todo)))) :
      Step repoRoot wire s (.mark i revision now)
        (s.record i m todo path .removed revision now)
  | snapshotNone {i : Nat} (hc : s.calls[i]? = some (.admission .start))
      (hp : s.staging.snapshot = []) :
      Step repoRoot wire s (.snapshot i) (s.goto i (.admission (.done [] (.ok none))))
  | snapshotSome {i : Nat} (hc : s.calls[i]? = some (.admission .start))
      (hp : s.staging.snapshot ≠ []) :
      Step repoRoot wire s (.snapshot i) (s.goto i (.admission (.snapped s.staging.snapshot)))
  | urlOk {i : Nat} {pending : List (VfsPath × Arc)} {url : String}
      (hc : s.calls[i]? = some (.admission (.snapped pending))) :
      Step repoRoot wire s (.url i (.ok url)) (s.goto i (.admission (.sent pending true)))
  | urlError {i : Nat} {pending : List (VfsPath × Arc)} {reason : String}
      (hc : s.calls[i]? = some (.admission (.snapped pending))) :
      Step repoRoot wire s (.url i (.error reason)) (s.goto i (.admission (.refused pending reason)))
  | daemon {i : Nat} {pending : List (VfsPath × Arc)} {attributed : Bool}
      {answer : Except String Response} (hc : s.calls[i]? = some (.admission (.sent pending attributed))) :
      Step repoRoot wire s (.daemon i answer)
        (s.goto i (.admission (.answered pending attributed s.log answer)))
  | replyRefused {i : Nat} {pending : List (VfsPath × Arc)} {reason : String}
      (hc : s.calls[i]? = some (.admission (.refused pending reason))) :
      Step repoRoot wire s (.reply i) (s.fail i pending reason)
  | replyResend {i : Nat} {pending : List (VfsPath × Arc)} {attributed : Bool} {read : List Nat}
      {answer : Except String Response}
      (hc : s.calls[i]? = some (.admission (.answered pending attributed read answer)))
      (hj : judge wire (pending.map (·.1)) attributed answer = .resend) :
      Step repoRoot wire s (.reply i) (s.goto i (.admission (.sent pending false)))
  | replyFailed {i : Nat} {pending : List (VfsPath × Arc)} {attributed : Bool} {read : List Nat}
      {answer : Except String Response} {reason : String}
      (hc : s.calls[i]? = some (.admission (.answered pending attributed read answer)))
      (hj : judge wire (pending.map (·.1)) attributed answer = .failed reason) :
      Step repoRoot wire s (.reply i)
        ({ s with reported := s.reported ++ Sys.report read answer }.fail i pending reason)
  | replyAdmitted {i : Nat} {pending : List (VfsPath × Arc)} {attributed : Bool} {read : List Nat}
      {answer : Except String Response} {adm : Admission}
      (hc : s.calls[i]? = some (.admission (.answered pending attributed read answer)))
      (hj : judge wire (pending.map (·.1)) attributed answer = .admitted adm) :
      Step repoRoot wire s (.reply i)
        ({ s with
            reported := s.reported ++ [read]
            staging := s.staging.clear pending adm }.goto i
          (.admission (.done pending (.ok (some adm)))))

namespace Sys

variable {repoRoot : Posix.Path} {wire : Wire} {s s' : Sys} {l : Label}

/-- An answer that is judged an admission is a reported commit. -/
theorem report_of_admitted {paths : List VfsPath} {attributed : Bool} {read : List Nat}
    {answer : Except String Response} {adm : Admission}
    (h : judge wire paths attributed answer = .admitted adm) :
    report read answer = [read] := by
  obtain ⟨r, -, rfl, -, hs, -⟩ := judge_eq_admitted.mp h
  simp [report, hs]

/-- Inversion of the step function. -/
theorem step_cases (h : s.step repoRoot wire l = some s') : Step repoRoot wire s l s' := by
  cases l with
  | call op => cases h; exact .call op
  | disk i =>
    simp only [step, stepDisk] at h
    split at h
    · rename_i m hc
      split at h
      · rename_i host hd; cases h; exact .diskOk hc hd
      · rename_i e host hd; cases h; exact .diskError hc hd
    · cases h
  | stat i =>
    simp only [step, stepStat] at h
    split at h
    · rename_i m path todo hc
      split at h
      · rename_i stat hr; cases h; exact .statOk hc hr
      · rename_i e hr; cases h; exact .statError hc hr
    · cases h
  | mark i revision now =>
    simp only [step, stepMark] at h
    split at h
    · cases h
    · rename_i hfresh
      split at h
      · rename_i m path stat todo hc; cases h; exact .markPresent hfresh hc
      · rename_i m path todo hc; cases h; exact .markRemoved hfresh hc
      · cases h
  | snapshot i =>
    simp only [step, stepSnapshot] at h
    split at h
    · rename_i hc
      split at h
      · rename_i hp; cases h; exact .snapshotNone hc (List.isEmpty_iff.mp hp)
      · rename_i hp; cases h; exact .snapshotSome hc (fun h0 => hp (List.isEmpty_iff.mpr h0))
    · cases h
  | url i url =>
    simp only [step, stepUrl] at h
    split at h
    · rename_i pending hc
      split at h
      · cases h; exact .urlOk hc
      · cases h; exact .urlError hc
    · cases h
  | daemon i answer =>
    simp only [step, stepDaemon] at h
    split at h
    · rename_i pending attributed hc; cases h; exact .daemon hc
    · cases h
  | reply i =>
    simp only [step, stepReply] at h
    split at h
    · rename_i pending reason hc; cases h; exact .replyRefused hc
    · rename_i pending attributed read answer hc
      split at h
      · rename_i hj; cases h; exact .replyResend hc hj
      · rename_i reason hj; cases h; exact .replyFailed hc hj
      · rename_i adm hj
        cases h
        rw [report_of_admitted hj]
        exact .replyAdmitted hc hj
    · cases h

/-- The call that took a step is at `c`, every other call is where it was. -/
theorem of_goto {i j : Nat} {c d : Call} (h : (s.goto i c).calls[j]? = some d) :
    (i = j ∧ c = d) ∨ (i ≠ j ∧ s.calls[j]? = some d) := by
  rw [goto, List.getElem?_set] at h
  split at h
  · rename_i hij
    split at h
    · exact .inl ⟨hij, Option.some.inj h⟩
    · cases h
  · rename_i hij
    exact .inr ⟨hij, h⟩

end Sys
end KinVfs
