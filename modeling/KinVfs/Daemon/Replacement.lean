import KinVfs.Daemon.Presence
import KinVfs.Daemon.ReadYourWrites
import KinVfs.Daemon.Sys
import KinVfs.Core.Protocol

/-!
# Replacing a file's content (`admit_projection_write`, `crates/kin-vfs-daemon/src/server.rs`)

A projection `Write` is a `write_at` of the whole content at offset zero and then a `set_len`. Both stage the
path; the admission loop commits the working copy whenever it gets to it. Between the open and the `set_len`
the file is the new content up to some position and the old content from there on, and a commit publishes it
as it is; a failure after the open leaves it there (`all_or_nothing_iff`).

`Replacing` is one request next to any number of admissions. `write_all` writes in pieces of any size.
-/

namespace KinVfs

open Posix (Fs)
open Fallible

/-- `WRITE_FRAME_OVERHEAD`. -/
def writeFrameOverhead : Nat := 64 * 1024

/-- `MAX_PROJECTION_WRITE`. -/
def maxProjectionWrite : Nat := (maxFrameBytes - writeFrameOverhead) / 2

/-- A body over the limit. -/
def overLimit (path : VfsPath) (data : Bytes) : VfsError :=
  .invalidInput (path.display ++ ": a projection write of " ++ toString data.length ++ " bytes is over the " ++
    toString maxProjectionWrite ++ "-byte limit")

namespace KinDaemonWriter

variable (repoRoot : Posix.Path)

/-- The part of `write_at` up to the open file. -/
def openForWrite (path : VfsPath) : DiskM Posix.Path := do
  let host ← ofExcept (contentPath repoRoot · path)
  createParent host
  io (Posix.openFile writeOptions host)

/-- The `Write` arm of `admit_projection_write`, run without interference. -/
def admitWrite (path : VfsPath) (data : Bytes) : WriterM VirtualStat :=
  if maxProjectionWrite < data.length then throw (overLimit path data)
  else do
    let _ ← writeAt repoRoot path 0 data
    setLen repoRoot path data.length

end KinDaemonWriter

/-- The bytes of the file the path leads to: what a commit reads. -/
def versionAt (repoRoot : Posix.Path) (fs : Fs) (path : VfsPath) : Option Bytes :=
  match KinDaemonWriter.contentPath repoRoot fs path with
  | .ok host => (fs.readFile host).toOption
  | .error _ => none

/-- Where a request is. -/
inductive WritePc where
  | start
  /-- The file is open and `n` bytes are written. -/
  | writing (file : Posix.Path) (n : Nat)
  | statted (stat : VirtualStat)
  /-- `write_at` has returned. -/
  | staged
  /-- The length is set. -/
  | cut
  | restatted (stat : VirtualStat)
  | answered (result : VfsResult VirtualStat)

/-- The error a request is answered with. -/
def WritePc.error : WritePc → Option VfsError
  | .answered (.error e) => some e
  | _ => none

theorem WritePc.error_eq {pc : WritePc} {e : VfsError} : pc.error = some e ↔ pc = .answered (.error e) := by
  unfold WritePc.error
  split
  · simp
  · rename_i hne
    constructor
    · intro h
      cases h
    · rintro rfl
      exact absurd rfl (hne e)

/-- One request and the admissions. `published` and `untouched` are history: the versions of the path that
commits read, and the staging as it would be without the request. -/
structure Replacing where
  sys : Sys
  pc : WritePc
  published : List (Option Bytes)
  untouched : Staging

namespace Replacing

inductive Action where
  | opening
  /-- `write(2)` takes this many bytes. -/
  | chunk (k : Nat)
  | stat
  | mark (revision : Arc) (now : Nat)
  | setLen
  /-- A host call of the request fails. -/
  | fault (e : VfsError)
  | admission (l : Label)

/-- The steps of admissions. -/
def isAdmission : Label → Bool
  | .call .admission | .snapshot _ | .url .. | .daemon .. | .reply _ => true
  | _ => false

/-- A request the daemon handled may have made a commit, unless the answer is a refusal. -/
def commits : Label → Bool
  | .daemon _ (.ok r) => isSuccess r.status
  | .daemon _ (.error _) => true
  | _ => false

def start (sys : Sys) : Replacing := ⟨sys, .start, [], sys.staging⟩

/-- The request is now at `pc`. -/
def goto (s : Replacing) (pc : WritePc) : Replacing := { s with pc := pc }

def fail (s : Replacing) (e : VfsError) : Replacing := s.goto (.answered (.error e))

/-- The working copy after a host call. -/
def onHost (s : Replacing) (host : Fs) : Replacing := { s with sys := { s.sys with host := host } }

section Steps

variable (repoRoot : Posix.Path) (wire : Wire) (path : VfsPath) (data : Bytes)

def stepOpening (s : Replacing) : Option Replacing :=
  match s.pc with
  | .start =>
    if maxProjectionWrite < data.length then some (s.fail (overLimit path data))
    else
      match exec (KinDaemonWriter.openForWrite repoRoot path) s.sys.host with
      | (.ok file, host) => some ((s.onHost host).goto (.writing file 0))
      | (.error e, host) => some ((s.onHost host).fail e)
  | _ => none

def stepChunk (s : Replacing) (k : Nat) : Option Replacing :=
  match s.pc with
  | .writing file n =>
    if 0 < k ∧ n + k ≤ data.length then
      match exec (Posix.writeFile file n (Content.slice data n (n + k))) s.sys.host with
      | (.ok (), host) => some ((s.onHost host).goto (.writing file (n + k)))
      | (.error e, host) => some ((s.onHost host).fail (.io e))
    else none
  | _ => none

/-- A restat, and where it leads. -/
def restatTo (s : Replacing) (next : VirtualStat → WritePc) : Replacing :=
  match KinDaemonWriter.restat repoRoot s.sys.host path with
  | .ok stat => s.goto (next stat)
  | .error e => s.fail e

def stepStat (s : Replacing) : Option Replacing :=
  match s.pc with
  | .writing _ n => if n = data.length then some (s.restatTo repoRoot path .statted) else none
  | .cut => some (s.restatTo repoRoot path .restatted)
  | _ => none

/-- The path is staged as present. -/
def markPresent (s : Replacing) (stat : VirtualStat) (revision : Arc) (now : Nat) : Replacing :=
  { s with sys := { s.sys with staging := s.sys.staging.mark path (.present stat) revision now } }

def stepMark (s : Replacing) (revision : Arc) (now : Nat) : Option Replacing :=
  if revision ∈ s.sys.live then none
  else
    match s.pc with
    | .statted stat => some ((s.markPresent path stat revision now).goto .staged)
    | .restatted stat => some ((s.markPresent path stat revision now).goto (.answered (.ok stat)))
    | _ => none

def stepSetLen (s : Replacing) : Option Replacing :=
  match s.pc with
  | .staged =>
    match exec (KinDaemonWriter.setLenDisk repoRoot path data.length) s.sys.host with
    | (.ok (), host) => some ((s.onHost host).goto .cut)
    | (.error e, host) => some ((s.onHost host).fail e)
  | _ => none

/-- The calls of the request that may fail on the host: those before the answer, a mark apart. -/
def stepFault (s : Replacing) (e : VfsError) : Option Replacing :=
  match s.pc with
  | .start | .writing .. | .staged | .cut => some (s.fail e)
  | _ => none

/-- The staging after an admission's step, when it was `st` before. -/
def stagingAfter (s : Replacing) (st : Staging) (l : Label) : Staging :=
  match Sys.step repoRoot wire { s.sys with staging := st } l with
  | some t => t.staging
  | none => st

def stepAdmission (s : Replacing) (l : Label) : Option Replacing :=
  if isAdmission l then
    match Sys.step repoRoot wire s.sys l with
    | some sys => some { s with
        sys := sys
        published := if commits l then s.published ++ [versionAt repoRoot s.sys.host path] else s.published
        untouched := s.stagingAfter repoRoot wire s.untouched l }
    | none => none
  else none

def step (s : Replacing) : Action → Option Replacing
  | .opening => s.stepOpening repoRoot path data
  | .chunk k => s.stepChunk data k
  | .stat => s.stepStat repoRoot path data
  | .mark revision now => s.stepMark path revision now
  | .setLen => s.stepSetLen repoRoot path data
  | .fault e => s.stepFault e
  | .admission l => s.stepAdmission repoRoot wire path l

end Steps

end Replacing

/-! ## The property and its condition -/

/-- **The property.** Every commit published the content before the request or the new content, and an error
answer leaves the bytes and the path's staging entry as they would be without the request. -/
structure AllOrNothing (repoRoot : Posix.Path) (path : VfsPath) (data : Bytes) (old : Option Bytes)
    (s : Replacing) : Prop where
  published : ∀ v ∈ s.published, v = old ∨ v = some data
  error : ∀ e, s.pc = .answered (.error e) → versionAt repoRoot s.sys.host path = old ∧
    s.sys.staging.entries[path]? = s.untouched.entries[path]?

/-- The first `n` bytes of the new content are those of the old file. -/
def KeepsPrefix (old : Option Bytes) (data : Bytes) (n : Nat) : Prop :=
  ∃ c, old = some c ∧ data.take n <+: c

/-- No byte of the old content is left after the first `n` bytes of the new one, but those the new one has
there too. -/
def ReplacesRest (old : Option Bytes) (data : Bytes) (n : Nat) : Prop :=
  (old.getD []).drop n = data.drop n

namespace Replacing

/-- How many bytes of the new content the file has, while the old length stands. -/
def written (data : Bytes) : WritePc → Option Nat
  | .writing _ n => some n
  | .statted _ | .staged => some data.length
  | _ => none

/-- **The condition on a step.** A commit that reads the file between the open and the `set_len` finds the old
or the new content whole; and a host call fails only where the bytes are the old ones and the staging entry is
as without the request. -/
def Whole (path : VfsPath) (data : Bytes) (old : Option Bytes) (s : Replacing) : Action → Prop
  | .admission l => commits l = true → ∀ n, written data s.pc = some n → KeepsPrefix old data n ∨ ReplacesRest old data n
  | .fault _ => s.pc = .start ∨
      ((∀ n, written data s.pc = some n → KeepsPrefix old data n) ∧ (s.pc = .cut → old = some data) ∧
        s.sys.staging.entries[path]? = s.untouched.entries[path]?)
  | _ => True

end Replacing

/-! ## Contents in between -/

/-- The new content up to `n`, the old one from there on. -/
def mixed (c data : Bytes) (n : Nat) : Bytes := data.take n ++ c.drop n

section Mixed

variable {c data : Bytes} {n k : Nat}

@[simp] theorem mixed_zero : mixed c data 0 = c := by simp [mixed]

theorem overwrite_mixed (hk : 0 < k) (hn : n + k ≤ data.length) :
    Content.overwrite (mixed c data n) n (Content.slice data n (n + k)) = mixed c data (n + k) := by
  have hlen : (data.take n).length = n := by
    rw [List.length_take]
    omega
  have hslice : (Content.slice data n (n + k)).length = k := by
    simp only [Content.slice, List.length_take, List.length_drop]
    omega
  have hne : Content.slice data n (n + k) ≠ [] := by
    intro h
    rw [h] at hslice
    simp at hslice
    omega
  have hshort : n - (mixed c data n).length = 0 := by
    simp only [mixed, List.length_append, hlen]
    omega
  have htake : (mixed c data n).take n = data.take n := by
    rw [mixed, List.take_left' hlen]
  have hdrop : (mixed c data n).drop (n + k) = c.drop (n + k) := by
    rw [mixed, ← List.drop_drop, List.drop_left' hlen, List.drop_drop]
  have hjoin : data.take n ++ Content.slice data n (n + k) = data.take (n + k) := by
    rw [Content.slice, Nat.add_sub_cancel_left, List.take_add]
  rw [Content.overwrite, if_neg hne, hshort, htake, hslice, hdrop]
  simp only [List.replicate_zero, List.append_nil]
  rw [hjoin, mixed]

theorem resize_mixed : Content.resize (mixed c data data.length) data.length = data := by
  have hlong : data.length - (mixed c data data.length).length = 0 := by
    simp only [mixed, List.take_length, List.length_append]
    omega
  rw [Content.resize, hlong, mixed, List.take_length, List.take_left, List.replicate_zero, List.append_nil]

theorem mixed_eq_old (hn : n ≤ data.length) : mixed c data n = c ↔ data.take n <+: c := by
  constructor
  · intro h
    exact ⟨c.drop n, h⟩
  · rintro ⟨rest, rfl⟩
    have hlen : (data.take n).length = n := by
      rw [List.length_take]
      omega
    rw [mixed, List.drop_left' hlen]

theorem mixed_eq_new : mixed c data n = data ↔ c.drop n = data.drop n := by
  rw [mixed]
  constructor
  · intro h
    have happ : data.take n ++ c.drop n = data.take n ++ data.drop n := by rw [h, List.take_append_drop]
    exact List.append_cancel_left happ
  · intro h
    rw [h, List.take_append_drop]

end Mixed

/-! ## The working copy -/

section Host

variable {fs fs₀ fs' : Fs} {root h : Posix.Path} {p : VfsPath} {c d : Bytes}

theorem versionAt_eq_some :
    versionAt root fs p = some c ↔ ∃ h, containedTarget fs root p = .ok h ∧ fs.shape h = some (.file c) := by
  unfold versionAt KinDaemonWriter.contentPath
  cases ht : containedTarget fs root p with
  | error e => simp
  | ok h =>
    obtain ⟨hc, hl⟩ := containedTarget_landed ht
    simp only [Except.toOption_eq_some, Except.ok.injEq, exists_eq_left']
    exact Posix.readFile_eq_ok hc hl

theorem versionAt_same (hs : Same fs fs') : versionAt root fs' p = versionAt root fs p := by
  have hback : Same fs' fs := fun r => (hs r).symm
  apply Option.ext
  intro c
  rw [versionAt_eq_some, versionAt_eq_some]
  constructor
  · rintro ⟨h, ht, hf⟩
    exact ⟨h, hback.resolves ht, by rw [← hs, hf]⟩
  · rintro ⟨h, ht, hf⟩
    exact ⟨h, hs.resolves ht, by rw [hs, hf]⟩

/-- The file that the path leads to has content `c` now, and nothing else has changed but the directories
above it. -/
structure Lands (root : Posix.Path) (p : VfsPath) (fs₀ fs : Fs) (h : Posix.Path) (c : Bytes) : Prop where
  target : containedTarget fs₀ root p = .ok h
  writable : Writable fs₀ h
  put : Put fs₀ fs h c

namespace Lands

theorem here (hl : Lands root p fs₀ fs h c) : containedTarget fs root p = .ok h :=
  hl.put.target hl.writable hl.target

theorem file (hl : Lands root p fs₀ fs h c) : fs.shape h = some (.file c) := by rw [hl.put, if_pos rfl]

theorem version (hl : Lands root p fs₀ fs h c) : versionAt root fs p = some c :=
  versionAt_eq_some.mpr ⟨h, hl.here, hl.file⟩

theorem wrote (hl : Lands root p fs₀ fs h c) (hw : Posix.Wrote fs fs' h d) : Lands root p fs₀ fs' h d :=
  ⟨hl.target, hl.writable, hl.put.wrote hw⟩

theorem restat (hl : Lands root p fs₀ fs h c) : ∃ st, KinDaemonWriter.restat root fs p = .ok st :=
  restat_of_put hl.put hl.writable hl.target

/-- What the path had before. -/
theorem before (hl : Lands root p fs₀ fs h c) : (versionAt root fs₀ p).getD [] = fileBytes fs₀ h := by
  unfold fileBytes
  rcases hl.writable with hs | ⟨c', hs⟩
  · have hnone : versionAt root fs₀ p = none := by
      apply Option.eq_none_iff_forall_ne_some.mpr
      intro c' hv
      obtain ⟨h', ht, hf⟩ := versionAt_eq_some.mp hv
      rw [hl.target] at ht
      cases ht
      rw [hs] at hf
      cases hf
    rw [hnone, hs]
    rfl
  · rw [versionAt_eq_some.mpr ⟨h, hl.target, hs⟩, hs]
    rfl

end Lands

theorem openForWrite_ok (hx : exec (KinDaemonWriter.openForWrite root p) fs = (.ok h, fs')) :
    Lands root p fs fs' h (fileBytes fs h) := by
  unfold KinDaemonWriter.openForWrite at hx
  obtain ⟨h', fs₁, hx₁, hx₂⟩ := exec_bind_ok.mp hx
  rw [exec_ofExcept] at hx₁
  obtain ⟨ht, rfl⟩ := Prod.mk.inj hx₁
  obtain ⟨_, fs₂, hx₃, hx₄⟩ := exec_bind_ok.mp hx₂
  have hspec := openUnder_spec (o := writeOptions) (containedTarget_landed ht) rfl
  cases hc : Posix.openedContent writeOptions (fs.shape h') with
  | some c =>
    rw [hc] at hspec
    obtain ⟨-, fs₃, fs₄, hx₅, hx₆, hput⟩ := hspec
    rw [hx₃] at hx₅
    cases hx₅
    rw [exec_io_ok, hx₆] at hx₄
    cases hx₄
    obtain ⟨hw, hb⟩ := opened_write hc
    exact ⟨ht, hw, by rwa [hb]⟩
  | none =>
    rw [hc] at hspec
    obtain ⟨-, e, fs₃, hx₅, hx₆, -⟩ := hspec
    rw [hx₃] at hx₅
    cases hx₅
    rw [exec_io_ok, hx₆] at hx₄
    cases hx₄

/-- An open that fails leaves every file as it was. -/
theorem openForWrite_error {e : VfsError} (hx : exec (KinDaemonWriter.openForWrite root p) fs = (.error e, fs')) :
    Same fs fs' := by
  unfold KinDaemonWriter.openForWrite at hx
  rw [exec_bind, exec_ofExcept] at hx
  cases ht : KinDaemonWriter.contentPath root fs p with
  | error e' =>
    rw [ht] at hx
    cases hx
    exact fun _ => rfl
  | ok h =>
    rw [ht] at hx
    dsimp only at hx
    have hspec := openUnder_spec (o := writeOptions) (containedTarget_landed ht) rfl
    cases hc : Posix.openedContent writeOptions (fs.shape h) with
    | some c =>
      rw [hc] at hspec
      obtain ⟨-, fs₁, fs₂, hx₁, hx₂, -⟩ := hspec
      simp [exec_bind, hx₁, hx₂] at hx
    | none =>
      rw [hc] at hspec
      obtain ⟨-, e', fs₁, hx₁, hx₂, -, hsame⟩ := hspec
      simp only [exec_bind, hx₁, exec_io, hx₂, Prod.mk.injEq] at hx
      rw [← hx.2]
      exact hsame

end Host

/-! ## The admissions -/

/-- What a step of an admission makes of a staging entry depends on that entry alone; the working copy stays. -/
theorem admission_entries {repoRoot : Posix.Path} {wire : Wire} {sys sys' : Sys} {l : Label} (p : VfsPath)
    (hl : Replacing.isAdmission l = true) (hx : sys.step repoRoot wire l = some sys') :
    ∃ f : Option StagedEntry → Option StagedEntry, ∀ st, ∃ t,
      Sys.step repoRoot wire { sys with staging := st } l = some t ∧ t.host = sys.host ∧
        t.staging.entries[p]? = f st.entries[p]? := by
  cases Sys.step_cases hx with
  | call op => exact ⟨id, fun st => ⟨_, rfl, rfl, rfl⟩⟩
  | diskOk | diskError | statOk | statError | markPresent | markRemoved => cases hl
  | snapshotNone hc | snapshotSome hc =>
    refine ⟨id, fun st => ?_⟩
    simp only [Sys.step, Sys.stepSnapshot, hc]
    split
    · exact ⟨_, rfl, rfl, rfl⟩
    · exact ⟨_, rfl, rfl, rfl⟩
  | urlOk hc | urlError hc =>
    refine ⟨id, fun st => ?_⟩
    simp only [Sys.step, Sys.stepUrl, hc]
    exact ⟨_, rfl, rfl, rfl⟩
  | daemon hc =>
    refine ⟨id, fun st => ?_⟩
    simp only [Sys.step, Sys.stepDaemon, hc]
    exact ⟨_, rfl, rfl, rfl⟩
  | replyRefused hc =>
    refine ⟨id, fun st => ?_⟩
    simp only [Sys.step, Sys.stepReply, hc]
    exact ⟨_, rfl, rfl, rfl⟩
  | replyResend hc hj | replyFailed hc hj =>
    refine ⟨id, fun st => ?_⟩
    simp only [Sys.step, Sys.stepReply, hc, hj]
    exact ⟨_, rfl, rfl, rfl⟩
  | @replyAdmitted i pending attributed read answer adm hc hj =>
    refine ⟨fun e => e.filter fun e => !pending.contains (p, e.revision), fun st => ?_⟩
    simp only [Sys.step, Sys.stepReply, hc, hj]
    refine ⟨_, rfl, rfl, ?_⟩
    exact Staging.getElem?_clearPending

/-! ## The invariant -/

namespace Replacing

variable {root : Posix.Path} {wire : Wire} {p : VfsPath} {data : Bytes} {fs₀ : Fs} {s s' : Replacing}
  {a : Action} {pc : WritePc}

/-- The staging entry is as without the request. -/
def EntrySame (p : VfsPath) (s : Replacing) : Prop :=
  s.sys.staging.entries[p]? = s.untouched.entries[p]?

/-- What the working copy and the staging are, by where the request is. -/
def At (root : Posix.Path) (p : VfsPath) (data : Bytes) (fs₀ : Fs) (s : Replacing) : WritePc → Prop
  | .start => s.sys.host = fs₀ ∧ EntrySame p s
  | .writing file n => n ≤ data.length ∧ data.length ≤ maxProjectionWrite ∧
      Lands root p fs₀ s.sys.host file (mixed ((versionAt root fs₀ p).getD []) data n) ∧ EntrySame p s
  | .statted _ => data.length ≤ maxProjectionWrite ∧
      (∃ h, Lands root p fs₀ s.sys.host h (mixed ((versionAt root fs₀ p).getD []) data data.length)) ∧
        EntrySame p s
  | .staged => data.length ≤ maxProjectionWrite ∧
      ∃ h, Lands root p fs₀ s.sys.host h (mixed ((versionAt root fs₀ p).getD []) data data.length)
  | .cut | .restatted _ | .answered (.ok _) => ∃ h, Lands root p fs₀ s.sys.host h data
  | .answered (.error _) => versionAt root s.sys.host p = versionAt root fs₀ p ∧ EntrySame p s

structure Inv (root : Posix.Path) (p : VfsPath) (data : Bytes) (fs₀ : Fs) (s : Replacing) : Prop where
  here : At root p data fs₀ s s.pc
  published : ∀ v ∈ s.published, v = versionAt root fs₀ p ∨ v = some data

theorem start_inv (sys : Sys) : Inv root p data sys.host (start sys) where
  here := ⟨rfl, rfl⟩
  published v hv := by cases hv

/-- `At` only looks at the working copy and the two staging entries. -/
theorem At.congr (h : At root p data fs₀ s pc) (hh : s'.sys.host = s.sys.host)
    (he : EntrySame p s → EntrySame p s') : At root p data fs₀ s' pc := by
  unfold At at *
  rw [hh]
  split at h
  · exact ⟨h.1, he h.2⟩
  · exact ⟨h.1, h.2.1, h.2.2.1, he h.2.2.2⟩
  · exact ⟨h.1, h.2.1, he h.2.2⟩
  · exact h
  · exact h
  · exact h
  · exact h
  · exact ⟨h.1, he h.2⟩

/-- The version while the old length stands. -/
theorem version_written {n : Nat} (h : At root p data fs₀ s pc) (hn : written data pc = some n) :
    n ≤ data.length ∧
      versionAt root s.sys.host p = some (mixed ((versionAt root fs₀ p).getD []) data n) := by
  cases pc with
  | writing file n' =>
    cases hn
    exact ⟨h.1, h.2.2.1.version⟩
  | statted st =>
    cases hn
    obtain ⟨-, ⟨h', hl⟩, -⟩ := h
    exact ⟨Nat.le_refl _, hl.version⟩
  | staged =>
    cases hn
    obtain ⟨-, h', hl⟩ := h
    exact ⟨Nat.le_refl _, hl.version⟩
  | start | cut | restatted st | answered r => cases hn

theorem keepsPrefix_iff {old : Option Bytes} {n : Nat} (hn : n ≤ data.length) :
    some (mixed (old.getD []) data n) = old ↔ KeepsPrefix old data n := by
  cases old with
  | none => simp [KeepsPrefix]
  | some c => simp [KeepsPrefix, mixed_eq_old hn]

theorem replacesRest_iff {old : Option Bytes} {n : Nat} :
    some (mixed (old.getD []) data n) = some data ↔ ReplacesRest old data n := by
  rw [Option.some.injEq, mixed_eq_new, ReplacesRest]

/-- Outside that, a version is the old or the new content. -/
theorem version_whole (h : At root p data fs₀ s pc) (hn : written data pc = none) :
    versionAt root s.sys.host p = versionAt root fs₀ p ∨ versionAt root s.sys.host p = some data := by
  cases pc with
  | start =>
    rw [h.1]
    exact .inl rfl
  | writing | statted | staged => cases hn
  | cut | restatted =>
    obtain ⟨h', hl⟩ := h
    exact .inr hl.version
  | answered r =>
    cases r with
    | ok st =>
      obtain ⟨h', hl⟩ := h
      exact .inr hl.version
    | error e => exact .inl h.1

/-! ## One step -/

theorem admission_ok {l : Label} (hx : s.stepAdmission root wire p l = some s') :
    s'.sys.host = s.sys.host ∧ s'.pc = s.pc ∧ (EntrySame p s → EntrySame p s') ∧
      s'.published = if commits l then s.published ++ [versionAt root s.sys.host p] else s.published := by
  unfold stepAdmission at hx
  split at hx
  · rename_i hl
    split at hx
    · rename_i sys hs
      obtain ⟨f, hf⟩ := admission_entries p hl hs
      obtain ⟨t, ht, hhost, hentry⟩ := hf s.sys.staging
      have htsys : t = sys := Option.some.inj (ht.symm.trans hs)
      subst htsys
      obtain ⟨u, hu, -, huntouched⟩ := hf s.untouched
      cases hx
      refine ⟨hhost, rfl, fun he => ?_, rfl⟩
      unfold EntrySame at he ⊢
      simp only [stagingAfter, hu]
      rw [hentry, huntouched, he]
    · cases hx
  · cases hx

theorem step_opening (h : Inv root p data fs₀ s) (hx : s.stepOpening root p data = some s') :
    Inv root p data fs₀ s' := by
  unfold stepOpening at hx
  split at hx
  · rename_i hpc
    have hat := h.here
    rw [hpc] at hat
    obtain ⟨hhost, he⟩ := hat
    split at hx
    · cases hx
      exact ⟨⟨by rw [← hhost]; rfl, he⟩, h.published⟩
    · rename_i hlen
      split at hx
      · rename_i file host hopen
        cases hx
        refine ⟨?_, h.published⟩
        rw [hhost] at hopen
        have hl := openForWrite_ok hopen
        refine ⟨Nat.zero_le _, Nat.le_of_not_lt hlen, ?_, he⟩
        rw [mixed_zero, hl.before]
        exact hl
      · rename_i e host hopen
        cases hx
        refine ⟨⟨?_, he⟩, h.published⟩
        rw [hhost] at hopen
        exact versionAt_same (openForWrite_error hopen)
  · cases hx

theorem step_chunk {k : Nat} (h : Inv root p data fs₀ s) (hx : s.stepChunk data k = some s') :
    Inv root p data fs₀ s' := by
  unfold stepChunk at hx
  split at hx
  · rename_i file n hpc
    have hat := h.here
    rw [hpc] at hat
    obtain ⟨hn, hmax, hl, he⟩ := hat
    split at hx
    · rename_i hk
      have hwritable : Posix.writable n (Content.slice data n (n + k)) = true := by
        have hlen : (Content.slice data n (n + k)).length ≤ k := by
          simp only [Content.slice, List.length_take]
          omega
        have hcap : maxProjectionWrite ≤ Posix.maxFileSize := by decide
        simp only [Posix.writable, Bool.and_eq_true, decide_eq_true_eq, Bool.or_eq_true]
        omega
      have hspec := Posix.writeFile_spec n (Content.slice data n (n + k)) hl.file
      rw [if_pos hwritable] at hspec
      obtain ⟨fs', hw, hwrote⟩ := hspec
      rw [hw] at hx
      cases hx
      refine ⟨⟨hk.2, hmax, ?_, he⟩, h.published⟩
      rw [overwrite_mixed hk.1 hk.2] at hwrote
      exact hl.wrote hwrote
    · cases hx
  · cases hx

theorem step_stat (h : Inv root p data fs₀ s) (hx : s.stepStat root p data = some s') :
    Inv root p data fs₀ s' := by
  unfold stepStat at hx
  split at hx
  · rename_i file n hpc
    have hat := h.here
    rw [hpc] at hat
    obtain ⟨-, hmax, hl, he⟩ := hat
    split at hx
    · rename_i hn
      subst hn
      obtain ⟨st, hst⟩ := hl.restat
      simp only [restatTo, hst, Option.some.injEq] at hx
      subst hx
      exact ⟨⟨hmax, ⟨file, hl⟩, he⟩, h.published⟩
    · cases hx
  · rename_i hpc
    have hat := h.here
    rw [hpc] at hat
    obtain ⟨h', hl⟩ := hat
    obtain ⟨st, hst⟩ := hl.restat
    simp only [restatTo, hst, Option.some.injEq] at hx
    subst hx
    exact ⟨⟨h', hl⟩, h.published⟩
  · cases hx

theorem step_mark {revision : Arc} {now : Nat} (h : Inv root p data fs₀ s)
    (hx : s.stepMark p revision now = some s') : Inv root p data fs₀ s' := by
  unfold stepMark at hx
  split at hx
  · cases hx
  · have hat := h.here
    split at hx
    · rename_i stat hpc
      rw [hpc] at hat
      cases hx
      exact ⟨⟨hat.1, hat.2.1⟩, h.published⟩
    · rename_i stat hpc
      rw [hpc] at hat
      cases hx
      exact ⟨hat, h.published⟩
    · cases hx

theorem step_setLen (h : Inv root p data fs₀ s) (hx : s.stepSetLen root p data = some s') :
    Inv root p data fs₀ s' := by
  unfold stepSetLen at hx
  split at hx
  · rename_i hpc
    have hat := h.here
    rw [hpc] at hat
    obtain ⟨hmax, h', hl⟩ := hat
    have hcap : data.length ≤ Posix.maxFileSize := Nat.le_trans hmax (by decide)
    have hspec := KinDaemonWriter.setLenDisk_spec data.length hl.here
    rw [hl.file] at hspec
    dsimp only at hspec
    rw [if_pos hcap, resize_mixed] at hspec
    obtain ⟨fs', hset, hput⟩ := hspec
    rw [hset] at hx
    cases hx
    exact ⟨⟨h', hl.target, hl.writable, hl.put.again hput⟩, h.published⟩
  · cases hx

theorem fault_ok {e : VfsError} (data : Bytes) (hx : s.stepFault e = some s') :
    s' = s.fail e ∧ (s.pc = .start ∨ (∃ n, written data s.pc = some n) ∨ s.pc = .cut) := by
  unfold stepFault at hx
  split at hx
  · rename_i hpc
    cases hx
    exact ⟨rfl, .inl hpc⟩
  · rename_i file n hpc
    cases hx
    exact ⟨rfl, .inr (.inl ⟨n, by rw [hpc]; rfl⟩)⟩
  · rename_i hpc
    cases hx
    exact ⟨rfl, .inr (.inl ⟨data.length, by rw [hpc]; rfl⟩)⟩
  · rename_i hpc
    cases hx
    exact ⟨rfl, .inr (.inr hpc)⟩
  · cases hx

/-- A failure where the bytes are the old ones and the entry is as without the request. -/
theorem step_fault {e : VfsError} (h : Inv root p data fs₀ s)
    (hw : Whole p data (versionAt root fs₀ p) s (.fault e)) (hx : s.stepFault e = some s') :
    Inv root p data fs₀ s' := by
  have hat := h.here
  obtain ⟨rfl, hor⟩ := fault_ok data hx
  refine ⟨?_, h.published⟩
  rcases hw with hpc | ⟨hkeeps, hcut, he⟩
  · rw [hpc] at hat
    exact ⟨by rw [← hat.1]; rfl, hat.2⟩
  · refine ⟨?_, he⟩
    show versionAt root s.sys.host p = versionAt root fs₀ p
    rcases hor with hpc | ⟨n, hn⟩ | hpc
    · rw [hpc] at hat
      rw [hat.1]
    · obtain ⟨hle, hv⟩ := version_written hat hn
      rw [hv]
      exact (keepsPrefix_iff hle).mpr (hkeeps n hn)
    · rw [hpc] at hat
      obtain ⟨h', hl⟩ := hat
      rw [hl.version, hcut hpc]

theorem step_admission {l : Label} (h : Inv root p data fs₀ s)
    (hw : Whole p data (versionAt root fs₀ p) s (.admission l))
    (hx : s.stepAdmission root wire p l = some s') : Inv root p data fs₀ s' := by
  obtain ⟨hhost, hpc, he, hpub⟩ := admission_ok hx
  refine ⟨by rw [hpc]; exact h.here.congr hhost he, fun v hv => ?_⟩
  rw [hpub] at hv
  split at hv
  · rename_i hcommit
    rcases List.mem_append.mp hv with hin | hin
    · exact h.published v hin
    · rw [List.mem_singleton.mp hin]
      cases hn : written data s.pc with
      | none => exact version_whole h.here hn
      | some n =>
        obtain ⟨hle, hver⟩ := version_written h.here hn
        rw [hver]
        rcases hw hcommit n hn with hk | hr
        · exact .inl ((keepsPrefix_iff hle).mpr hk)
        · exact .inr (replacesRest_iff.mpr hr)
  · exact h.published v hv

/-- **The step.** -/
theorem Inv.step (h : Inv root p data fs₀ s) (hw : Whole p data (versionAt root fs₀ p) s a)
    (hx : s.step root wire p data a = some s') : Inv root p data fs₀ s' := by
  cases a with
  | opening => exact step_opening h hx
  | chunk k => exact step_chunk h hx
  | stat => exact step_stat h hx
  | mark revision now => exact step_mark h hx
  | setLen => exact step_setLen h hx
  | fault e => exact step_fault h hw hx
  | admission l => exact step_admission h hw hx

/-- A step after which the property holds met the condition. -/
theorem Inv.whole (h : Inv root p data fs₀ s) (hx : s.step root wire p data a = some s')
    (hall : AllOrNothing root p data (versionAt root fs₀ p) s') :
    Whole p data (versionAt root fs₀ p) s a := by
  have hat := h.here
  cases a with
  | opening | chunk | stat | mark | setLen => trivial
  | fault e =>
    obtain ⟨rfl, hor⟩ := fault_ok data hx
    obtain ⟨hv, he⟩ := hall.error _ rfl
    rcases hor with hpc | ⟨n, hn⟩ | hpc
    · exact .inl hpc
    · refine .inr ⟨fun n' hn' => ?_, fun hpc => ?_, he⟩
      · obtain ⟨hle, hver⟩ := version_written hat hn'
        exact (keepsPrefix_iff hle).mp (hver.symm.trans hv)
      · rw [hpc] at hn
        cases hn
    · refine .inr ⟨fun n hn => ?_, fun _ => ?_, he⟩
      · rw [hpc] at hn
        cases hn
      · rw [hpc] at hat
        obtain ⟨h', hl⟩ := hat
        exact hv.symm.trans hl.version
  | admission l =>
    intro hcommit n hn
    obtain ⟨-, -, -, hpub⟩ := admission_ok hx
    rw [if_pos hcommit] at hpub
    obtain ⟨hle, hver⟩ := version_written hat hn
    have hin : versionAt root s.sys.host p ∈ s'.published := by
      rw [hpub]
      exact List.mem_append_right _ (List.mem_singleton_self _)
    have hor := hall.published _ hin
    rw [hver] at hor
    rcases hor with hold | hnew
    · exact .inl ((keepsPrefix_iff hle).mp hold)
    · exact .inr (replacesRest_iff.mp hnew)

theorem Inv.allOrNothing (h : Inv root p data fs₀ s) :
    AllOrNothing root p data (versionAt root fs₀ p) s where
  published := h.published
  error e hpc := by
    have hat := h.here
    rw [hpc] at hat
    exact hat

end Replacing

/-! ## The request alone -/

section Alone

open KinDaemonWriter

variable {root : Posix.Path} {wire : Wire} {p : VfsPath} {data : Bytes} {w w' : World} {st : VirtualStat}

/-- `write_at` is the open and the `write_all`. -/
theorem writeAtDisk_eq (offset : Nat) :
    writeAtDisk root p offset data =
      openForWrite root p >>= fun file => io (Posix.writeFile file offset data) := by
  unfold writeAtDisk openForWrite
  simp only [bind_assoc]

/-- The pieces of a `write_all` that takes everything at once. -/
def oneChunk (data : Bytes) : List Replacing.Action := if data = [] then [] else [.chunk data.length]

theorem run_oneChunk {s : Replacing} {file : Posix.Path} {host : Fs} (hpc : s.pc = .writing file 0)
    (hx : exec (Posix.writeFile file 0 data) s.sys.host = (.ok (), host)) :
    Runs.run (Replacing.step root wire p data) s (oneChunk data) =
      some ((s.onHost host).goto (.writing file data.length)) := by
  unfold oneChunk
  split
  · rename_i hd
    subst hd
    have hsame : host = s.sys.host := by
      simp only [Posix.writeFile, exec_bind, exec_get] at hx
      split at hx
      · split at hx
        · cases hx
        · cases hx
          rfl
      · cases hx
    subst hsame
    rw [Runs.run_nil]
    obtain ⟨sys, pc, published, untouched⟩ := s
    cases hpc
    rfl
  · rename_i hd
    have hpos : 0 < data.length := List.length_pos_of_ne_nil hd
    have hslice : Content.slice data 0 (0 + data.length) = data := Content.slice_all data (by omega)
    apply Runs.run_cons_eq_some.mpr
    refine ⟨_, ?_, rfl⟩
    simp only [Replacing.step, Replacing.stepChunk, hpc]
    rw [if_pos ⟨hpos, by omega⟩, hslice, hx, Nat.zero_add]

/-- The end of `write_at`. -/
theorem run_staged {s : Replacing} {file : Posix.Path} {revision : Arc} {now : Nat}
    (hpc : s.pc = .writing file data.length) (hr : restat root s.sys.host p = .ok st)
    (hfresh : revision ∉ s.sys.live) :
    Runs.run (Replacing.step root wire p data) s [.stat, .mark revision now] =
      some ((s.markPresent p st revision now).goto .staged) := by
  have hstat : s.step root wire p data .stat = some (s.goto (.statted st)) := by
    simp only [Replacing.step, Replacing.stepStat, hpc, if_true, Replacing.restatTo, hr]
  have hmark : (s.goto (.statted st)).step root wire p data (.mark revision now) =
      some ((s.markPresent p st revision now).goto .staged) := by
    show (if revision ∈ s.sys.live then none else _) = _
    rw [if_neg hfresh]
    rfl
  exact Runs.run_cons_eq_some.mpr ⟨_, hstat, Runs.run_cons_eq_some.mpr ⟨_, hmark, rfl⟩⟩

/-- `set_len`. -/
theorem run_cut {s : Replacing} {host : Fs} {revision : Arc} {now : Nat} (hpc : s.pc = .staged)
    (hx : exec (setLenDisk root p data.length) s.sys.host = (.ok (), host))
    (hr : restat root host p = .ok st) (hfresh : revision ∉ s.sys.live) :
    Runs.run (Replacing.step root wire p data) s [.setLen, .stat, .mark revision now] =
      some (((s.onHost host).markPresent p st revision now).goto (.answered (.ok st))) := by
  have hset : s.step root wire p data .setLen = some ((s.onHost host).goto .cut) := by
    simp only [Replacing.step, Replacing.stepSetLen, hpc, hx]
  have hstat : ((s.onHost host).goto .cut).step root wire p data .stat =
      some ((s.onHost host).goto (.restatted st)) := by
    simp only [Replacing.step, Replacing.stepStat, Replacing.goto, Replacing.restatTo, Replacing.onHost, hr]
  have hmark : ((s.onHost host).goto (.restatted st)).step root wire p data (.mark revision now) =
      some (((s.onHost host).markPresent p st revision now).goto (.answered (.ok st))) := by
    show (if revision ∈ s.sys.live then none else _) = _
    rw [if_neg hfresh]
    rfl
  exact Runs.run_cons_eq_some.mpr ⟨_, hset, Runs.run_cons_eq_some.mpr ⟨_, hstat,
    Runs.run_cons_eq_some.mpr ⟨_, hmark, rfl⟩⟩⟩

theorem mem_live_mark {sys : Sys} {staged : Staged} {revision r : Arc} {now : Nat}
    (hr : r ∈ ({ sys with staging := sys.staging.mark p staged revision now } : Sys).live) :
    r = revision ∨ r ∈ sys.live := by
  unfold Sys.live at hr ⊢
  rcases List.mem_append.mp hr with hin | hin
  · obtain ⟨⟨q, r'⟩, hq, rfl⟩ := List.mem_map.mp hin
    obtain ⟨e, he, hrev⟩ := Staging.mem_snapshot.mp hq
    rw [Staging.getElem?_mark] at he
    split at he
    · cases he
      exact .inl hrev.symm
    · refine .inr (List.mem_append_left _ (List.mem_map.mpr ⟨(q, r'), ?_, rfl⟩))
      exact Staging.mem_snapshot.mpr ⟨e, he, hrev⟩
  · exact .inr (List.mem_append_right _ hin)

/-- Without admissions the steps make the call: a request that succeeds ends with the answer, the working copy
and the staging of `admitWrite`. -/
theorem admitWrite_run {sys : Sys} (hx : exec (admitWrite root p data) w = (.ok st, w'))
    (hhost : sys.host = w.host) (hstaging : sys.staging = w.staging) (hfresh : ∀ r, w.arcs ≤ r → r ∉ sys.live) :
    ∃ s, Runs.run (Replacing.step root wire p data) (.start sys) (.opening :: (oneChunk data ++
        [.stat, .mark w.arcs w.clock, .setLen, .stat, .mark (w.arcs + 1) w.clock])) = some s ∧
      s.pc = .answered (.ok st) ∧ s.sys.host = w'.host ∧ s.sys.staging = w'.staging := by
  unfold admitWrite at hx
  split at hx
  · cases hx
  · rename_i hlen
    obtain ⟨st₁, w₁, hwrite, hset⟩ := exec_bind_ok.mp hx
    obtain ⟨host₁, hdisk, hstat, rfl⟩ := disk_of_call hwrite
    obtain ⟨host₂, hcut, hrestat, rfl⟩ := disk_of_call hset
    rw [writeAtDisk_eq] at hdisk
    obtain ⟨file, host₀, hopen, hall⟩ := exec_bind_ok.mp hdisk
    rw [exec_io_ok] at hall
    have h₁ : (Replacing.start sys).step root wire p data .opening =
        some (((Replacing.start sys).onHost host₀).goto (.writing file 0)) := by
      simp only [Replacing.step, Replacing.stepOpening, Replacing.start, if_neg hlen, hhost, hopen]
    have h₂ : Runs.run (Replacing.step root wire p data)
        (((Replacing.start sys).onHost host₀).goto (.writing file 0)) (oneChunk data) =
          some (((Replacing.start sys).onHost host₁).goto (.writing file data.length)) :=
      run_oneChunk rfl hall
    have h₃ : Runs.run (Replacing.step root wire p data)
        (((Replacing.start sys).onHost host₁).goto (.writing file data.length)) [.stat, .mark w.arcs w.clock] =
          some ((((Replacing.start sys).onHost host₁).markPresent p st₁ w.arcs w.clock).goto .staged) :=
      run_staged rfl hstat (hfresh w.arcs (Nat.le_refl _))
    have hnext : w.arcs + 1 ∉
        ((((Replacing.start sys).onHost host₁).markPresent p st₁ w.arcs w.clock).goto .staged).sys.live := by
      intro hin
      rcases mem_live_mark hin with h | h
      · exact absurd h (Nat.succ_ne_self w.arcs)
      · exact hfresh _ (Nat.le_succ _) h
    have h₄ : Runs.run (Replacing.step root wire p data)
        ((((Replacing.start sys).onHost host₁).markPresent p st₁ w.arcs w.clock).goto .staged)
        [.setLen, .stat, .mark (w.arcs + 1) w.clock] =
          some ((((((Replacing.start sys).onHost host₁).markPresent p st₁ w.arcs w.clock).goto .staged).onHost
            host₂).markPresent p st (w.arcs + 1) w.clock |>.goto (.answered (.ok st))) :=
      run_cut rfl hcut hrestat hnext
    refine ⟨_, Runs.run_cons_eq_some.mpr ⟨_, h₁, (?_ : _ = some ((((((Replacing.start sys).onHost
      host₁).markPresent p st₁ w.arcs w.clock).goto .staged).onHost host₂).markPresent p st (w.arcs + 1)
      w.clock |>.goto (.answered (.ok st))))⟩, rfl, rfl, ?_⟩
    · rw [Runs.run_append, h₂, Option.bind_some]
      show Runs.run (Replacing.step root wire p data) _
        ([.stat, .mark w.arcs w.clock] ++ [.setLen, .stat, .mark (w.arcs + 1) w.clock]) = _
      rw [Runs.run_append, h₃, Option.bind_some]
      exact h₄
    · show (sys.staging.mark p (.present st₁) w.arcs w.clock).mark p (.present st) (w.arcs + 1) w.clock = _
      rw [hstaging]
      rfl

end Alone

/-- **When a projection write is all or nothing.** In a run of a request next to any admissions, every state
that is reached has the property exactly when every step of the run meets the condition. -/
theorem all_or_nothing_iff {root : Posix.Path} {wire : Wire} {p : VfsPath} {data : Bytes} {sys : Sys}
    {ls : List Replacing.Action} {s : Replacing}
    (hrun : Runs.run (Replacing.step root wire p data) (.start sys) ls = some s) :
    (∀ pre post t, ls = pre ++ post → Runs.run (Replacing.step root wire p data) (.start sys) pre = some t →
        AllOrNothing root p data (versionAt root sys.host p) t) ↔
      Runs.Meets (Replacing.step root wire p data) (Replacing.Whole p data (versionAt root sys.host p))
        (.start sys) ls := by
  constructor
  · intro h
    exact Runs.meets_of_inv (fun _ _ _ hs hc hx => hs.step hc hx) (fun _ _ _ hs hx hq => hs.whole hx hq)
      (Replacing.start_inv sys) hrun h
  · intro hm pre post t hls ht
    rw [hls] at hm
    have hinv : Replacing.Inv root p data sys.host t :=
      Runs.run_inv_of_meets (fun _ _ _ hs hc hx => hs.step hc hx) (Replacing.start_inv sys) (hm.append ht).1 ht
    exact hinv.allOrNothing

namespace Sample

/-- A working copy with the file `a`. -/
def withFile (content : Bytes) : Sys := .init (host.addEntry [[97]] (.file ⟨0o644, 0⟩ content))

/-- One admission whose request reaches the daemon. -/
def committing : List Replacing.Action :=
  [.admission (.call .admission), .admission (.snapshot 0), .admission (.url 0 (.ok "")),
    .admission (.daemon 0 (.ok ⟨200, body⟩))]

/-- `write_at` of one byte, a commit, then `set_len`. -/
def commitBetween : List Replacing.Action :=
  [.opening, .chunk 1, .stat, .mark 0 0] ++ committing ++ [.setLen, .stat, .mark 1 0]

/-- `write_at` of one byte, then `set_len` fails. -/
def failsBetween : List Replacing.Action :=
  [.opening, .chunk 1, .stat, .mark 0 0, .fault (.io .resourceBusy)]

end Sample

theorem all_or_nothing_iff_sameLength :
    ∃ s, Runs.run (Replacing.step [] Sample.wire Sample.a [2]) (.start (Sample.withFile [1]))
        Sample.commitBetween = some s ∧
      ∀ pre post t, Sample.commitBetween = pre ++ post →
        Runs.run (Replacing.step [] Sample.wire Sample.a [2]) (.start (Sample.withFile [1])) pre = some t →
        AllOrNothing [] Sample.a [2] (versionAt [] (Sample.withFile [1]).host Sample.a) t := by
  have hsome : (Runs.run (Replacing.step [] Sample.wire Sample.a [2]) (.start (Sample.withFile [1]))
      Sample.commitBetween).isSome = true := by decide +kernel
  have hold : versionAt [] (Sample.withFile [1]).host Sample.a = some [1] := by decide +kernel
  obtain ⟨s, hs⟩ := Option.isSome_iff_exists.mp hsome
  refine ⟨s, hs, (all_or_nothing_iff hs).mpr ?_⟩
  have hwhole : ∀ n, KeepsPrefix (some [1]) [2] n ∨ ReplacesRest (some [1]) [2] n := by
    intro n
    cases n with
    | zero => exact .inl ⟨[1], rfl, List.nil_prefix⟩
    | succ n => exact .inr (by simp [ReplacesRest])
  have hlabels : ∀ a ∈ Sample.commitBetween, ∀ e, a ≠ .fault e := by
    simp [Sample.commitBetween, Sample.committing]
  refine Runs.Meets.mono (Runs.meets_of_forall hlabels) fun t a ha => ?_
  rw [hold]
  cases a with
  | fault e => exact absurd rfl (ha e)
  | admission l => exact fun _ n _ => hwhole n
  | opening | chunk | stat | mark | setLen => trivial

/-- A three-byte file is replaced by one byte: a commit between `write_at` and `set_len` publishes the new
byte with the old tail, and when `set_len` fails the request is answered with an error and both the bytes and
the staging entry stay changed. -/
theorem tail_published :
    (∃ s, Runs.run (Replacing.step [] Sample.wire Sample.a [9]) (.start (Sample.withFile [1, 2, 3]))
          Sample.commitBetween = some s ∧
        s.published = [some [9, 2, 3]] ∧
        ¬ AllOrNothing [] Sample.a [9] (versionAt [] (Sample.withFile [1, 2, 3]).host Sample.a) s) ∧
      ∃ s, Runs.run (Replacing.step [] Sample.wire Sample.a [9]) (.start (Sample.withFile [1, 2, 3]))
          Sample.failsBetween = some s ∧
        s.pc.error = some (.io .resourceBusy) ∧ versionAt [] s.sys.host Sample.a = some [9, 2, 3] ∧
        s.sys.staging.entries[Sample.a]?.isSome = true ∧ s.untouched.entries[Sample.a]?.isSome = false ∧
        ¬ AllOrNothing [] Sample.a [9] (versionAt [] (Sample.withFile [1, 2, 3]).host Sample.a) s := by
  have hold : versionAt [] (Sample.withFile [1, 2, 3]).host Sample.a = some [1, 2, 3] := by decide +kernel
  rw [hold]
  constructor
  · have hrun : (Runs.run (Replacing.step [] Sample.wire Sample.a [9]) (.start (Sample.withFile [1, 2, 3]))
        Sample.commitBetween).map (·.published) = some [some [9, 2, 3]] := by decide +kernel
    obtain ⟨s, hs, hpub⟩ := Option.map_eq_some_iff.mp hrun
    refine ⟨s, hs, hpub, fun h => ?_⟩
    have hor := h.published (some [9, 2, 3]) (by rw [hpub]; simp)
    exact absurd hor (by decide)
  · have hrun : (Runs.run (Replacing.step [] Sample.wire Sample.a [9]) (.start (Sample.withFile [1, 2, 3]))
        Sample.failsBetween).map (fun s => (s.pc.error, versionAt [] s.sys.host Sample.a,
          s.sys.staging.entries[Sample.a]?.isSome, s.untouched.entries[Sample.a]?.isSome)) =
        some (some (.io .resourceBusy), some [9, 2, 3], true, false) := by decide +kernel
    obtain ⟨s, hs, hseen⟩ := Option.map_eq_some_iff.mp hrun
    simp only [Prod.mk.injEq] at hseen
    obtain ⟨hpc, hver, hstaged, huntouched⟩ := hseen
    refine ⟨s, hs, hpc, hver, hstaged, huntouched, fun h => ?_⟩
    have hbytes := (h.error _ (WritePc.error_eq.mp hpc)).1
    rw [hver] at hbytes
    exact absurd hbytes (by decide)

end KinVfs
