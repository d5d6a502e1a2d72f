import KinVfs.Daemon.DiskSpec
import KinVfs.Daemon.Sys

/-!
# Staging and the working copy at rest

Calls on one regular-file path `p`, which lives at the host path `h`. A call observes the file (its
restat, or the removal itself) and records the observation in a later step; the last record wins.
A run is `undelayed` when no disk step falls between another call's observation and its record; it
ends with the staging entry describing the file. A run with a stale record need not.
-/

namespace KinVfs

open Posix (Fs)
open Fallible

/-- A mutation of the content or existence of `p` alone. -/
def Mutation.onPath (p : VfsPath) : Mutation → Bool
  | .writeAt q .. | .createFile q _ | .setLen q _ | .remove q => q = p
  | .createDir _ | .rename .. => false

/-- `p` is the path of a regular file, or of none, at `h`. -/
structure RegularAt (root : Posix.Path) (p : VfsPath) (h : Posix.Path) (fs : Fs) : Prop where
  notRoot : p ≠ .root
  target : containedTarget fs root p = .ok h
  entry : containedEntry fs root p = .ok h
  writable : Writable fs h

/-- The disposition describes the file at `h`. -/
def Describes (fs : Fs) (h : Posix.Path) : Staged → Prop
  | .present st => ∃ c, fs.shape h = some (.file c) ∧ st.size = c.length
  | .removed => fs.shape h = none

section Disk

variable {root h : Posix.Path} {p : VfsPath} {fs fs' : Fs} {m : Mutation}

theorem RegularAt.put {c : Bytes} (hr : RegularAt root p h fs) (hp : Put fs fs' h c) :
    RegularAt root p h fs' where
  notRoot := hr.notRoot
  target := hp.target hr.writable hr.target
  entry := hp.entry hr.writable hr.target hr.entry
  writable := hp.writable

theorem RegularAt.same (hr : RegularAt root p h fs) (hs : Same fs fs') :
    RegularAt root p h fs' where
  notRoot := hr.notRoot
  target := hs.resolves hr.target
  entry := hs.entry hr.entry
  writable := by
    unfold Writable
    rw [hs]
    exact hr.writable

theorem RegularAt.erased {c : Bytes} (hr : RegularAt root p h fs)
    (hf : fs.shape h = some (.file c)) (hx : Erased fs fs' h) : RegularAt root p h fs' where
  notRoot := hr.notRoot
  target := (hx.resolves hr.notRoot hf hr.target hr.entry).1
  entry := (hx.resolves hr.notRoot hf hr.target hr.entry).2
  writable := .inl (by rw [hx, if_pos rfl])

theorem RegularAt.clear (hr : RegularAt root p h fs) : fs.Clear h :=
  (containedTarget_landed hr.target).1

/-- The call does not create a file that it then fails to write. -/
def Mutation.spares (fs : Fs) (h : Posix.Path) : Mutation → Bool
  | .writeAt _ offset data => Posix.writable offset data || (fs.shape h).isSome
  | _ => true

/-- **The disk step of a call on `p`.** It leaves a file and a restat to come, or no file and a
removal to record, or it fails and the file is what it was. -/
theorem disk_onPath (hr : RegularAt root p h fs) (hm : m.onPath p = true)
    (hsp : m.spares fs h = true) :
    ∃ r fs', exec (m.disk root) fs = (r, fs') ∧ RegularAt root p h fs' ∧
      ((r = .ok () ∧ m.marks = [.present p] ∧ ∃ c, fs'.shape h = some (.file c)) ∨
        (r = .ok () ∧ m.marks = [.removed p] ∧ fs'.shape h = none) ∨
        ∃ e, r = .error e ∧ fs'.shape h = fs.shape h) := by
  cases m with
  | writeAt q offset data =>
    obtain rfl : q = p := by simpa [Mutation.onPath] using hm
    have hspec := KinDaemonWriter.writeAtDisk_spec offset data hr.target
    cases hc : Posix.openedContent writeOptions (fs.shape h) with
    | none =>
      rw [hc] at hspec
      obtain ⟨e, fs', hx, -, hs⟩ := hspec
      exact ⟨_, fs', hx, hr.same hs, .inr (.inr ⟨_, rfl, hs h⟩)⟩
    | some c =>
      rw [hc] at hspec
      dsimp only at hspec
      split at hspec
      · obtain ⟨fs', hx, hput⟩ := hspec
        exact ⟨_, fs', hx, hr.put hput, .inl ⟨rfl, rfl, _, by rw [hput, if_pos rfl]⟩⟩
      · -- The file was opened and not written: it was there, so nothing was created.
        rename_i hw
        obtain ⟨e, fs', hx, -, hput⟩ := hspec
        have hfile : fs.shape h = some (.file c) := by
          rcases hr.writable with h0 | ⟨c', h0⟩
          · simp [Mutation.spares, hw, h0] at hsp
          · rw [h0] at hc ⊢
            cases hc
            rfl
        exact ⟨_, fs', hx, hr.put hput, .inr (.inr ⟨_, rfl, hput.same hfile h⟩)⟩
  | createFile q exclusive =>
    obtain rfl : q = p := by simpa [Mutation.onPath] using hm
    have hspec := KinDaemonWriter.createFileDisk_spec exclusive hr.target
    split at hspec
    · obtain ⟨fs', hx, hput⟩ := hspec
      exact ⟨_, fs', hx, hr.put hput, .inl ⟨rfl, rfl, _, by rw [hput, if_pos rfl]⟩⟩
    · obtain ⟨e, fs', hx, -, hs⟩ := hspec
      exact ⟨_, fs', hx, hr.same hs, .inr (.inr ⟨_, rfl, hs h⟩)⟩
  | setLen q size =>
    obtain rfl : q = p := by simpa [Mutation.onPath] using hm
    have hspec := KinDaemonWriter.setLenDisk_spec size hr.target
    split at hspec
    · split at hspec
      · obtain ⟨fs', hx, hput⟩ := hspec
        exact ⟨_, fs', hx, hr.put hput, .inl ⟨rfl, rfl, _, by rw [hput, if_pos rfl]⟩⟩
      · obtain ⟨e, hx, -⟩ := hspec
        exact ⟨_, fs, hx, hr, .inr (.inr ⟨_, rfl, rfl⟩)⟩
    · exact ⟨_, fs, hspec, hr, .inr (.inr ⟨_, rfl, rfl⟩)⟩
    · obtain ⟨e, hx, -⟩ := hspec
      exact ⟨_, fs, hx, hr, .inr (.inr ⟨_, rfl, rfl⟩)⟩
  | remove q =>
    obtain rfl : q = p := by simpa [Mutation.onPath] using hm
    have hspec := KinDaemonWriter.removeDisk_spec hr.entry hr.clear
    rcases hr.writable with hs | ⟨c, hs⟩
    · rw [hs] at hspec
      exact ⟨_, fs, hspec, hr, .inr (.inr ⟨_, rfl, rfl⟩)⟩
    · have hne : h ≠ [] := by
        rintro rfl
        rw [Fs.shape_root] at hs
        cases hs
      rw [hs] at hspec
      dsimp only at hspec
      rw [if_pos ⟨hne, by simp⟩] at hspec
      obtain ⟨fs', hx, her⟩ := hspec
      exact ⟨_, fs', hx, hr.erased hs her, .inr (.inl ⟨rfl, rfl, by rw [her, if_pos rfl]⟩)⟩
  | createDir q => cases hm
  | rename old new => cases hm

/-- A restat of `p` describes the file, and fails only when there is none. -/
theorem restat_onPath (hr : RegularAt root p h fs) :
    match KinDaemonWriter.restat root fs p with
    | .ok st => Describes fs h (.present st)
    | .error _ => fs.shape h = none := by
  rw [KinDaemonWriter.restat_eq hr.entry hr.clear]
  rcases hr.writable with hs | ⟨c, hs⟩
  · rw [Fs.shape_eq_none.mp hs]
    exact hs
  · obtain ⟨i, hn⟩ := Fs.shape_eq_file.mp hs
    rw [hn]
    exact ⟨c, hs, rfl⟩

end Disk

/-! ## The invariant -/

section Invariant

variable (root : Posix.Path) (wire : Wire) (p : VfsPath) (h : Posix.Path)

/-- A call is where a call on `p` can be, and what it has observed still holds. -/
def Consistent (fs : Fs) (recorded : Option Staged) : Call → Prop
  | .mutation m .start => m.onPath p = true
  | .mutation m (.marking todo) =>
    m.onPath p = true ∧ (todo = [.present p] ∨ (todo = [.removed p] ∧ fs.shape h = none))
  | .mutation m (.statted q st todo) =>
    m.onPath p = true ∧ q = p ∧ todo = [] ∧ Describes fs h (.present st)
  | .mutation _ (.done (.ok ())) => recorded ≠ none
  | .mutation _ (.done (.error _)) | .admission _ | .aborted => True

/-- The call has still to record what the working copy is. -/
def Owing (fs : Fs) : Call → Prop
  | .mutation _ (.marking (.present _ :: _)) => fs.shape h ≠ none
  | .mutation _ (.marking (.removed _ :: _)) | .mutation _ (.statted ..) => True
  | _ => False

/-- The state of the calls on `p`: once a call was accepted, what is staged describes the file or
some call has still to record it. -/
structure Tracked (s : Sys) : Prop where
  regular : RegularAt root p h s.host
  calls : ∀ c ∈ s.calls, Consistent p h s.host (s.staging.staged p) c
  recorded : (∃ c ∈ s.calls, c.accepted = true) →
    (∃ c ∈ s.calls, Owing h s.host c) ∨
      ∀ d, s.staging.staged p = some d → Describes s.host h d

/-- The calls are mutations of `p` and admissions that do not clear `p`. -/
def inScope (s : Sys) : Label → Bool
  | .call (.mutation m) => m.onPath p
  | .reply i =>
    match s.stepReply wire i with
    | some s' => (s.staging.staged p).isNone || (s'.staging.staged p).isSome
    | none => true
  | _ => true

/-- The call has observed the working copy and not recorded it yet. -/
def Call.observed : Call → Bool
  | .mutation _ (.statted ..) | .mutation _ (.marking (.removed _ :: _)) => true
  | _ => false

/-- No disk step between an observation and its record, or for a write too large for the file it
creates. -/
def undelayed (s : Sys) : Label → Bool
  | .disk i =>
    s.calls.all (!·.observed) &&
      match s.calls[i]? with
      | some (.mutation m _) => m.spares s.host h
      | _ => true
  | _ => true

end Invariant

section Step

variable {root h : Posix.Path} {wire : Wire} {p : VfsPath} {s s' : Sys} {l : Label} {i : Nat}
  {b c : Call}

theorem Tracked.init (hr : RegularAt root p h s.host) (hc : s.calls = []) : Tracked root p h s where
  regular := hr
  calls c hm := by rw [hc] at hm; cases hm
  recorded ha := by
    obtain ⟨x, hx, -⟩ := ha
    rw [hc] at hx
    cases hx

/-- A call after one call moved: the moved one, or one that was there. -/
theorem mem_set_cases {x : Call} (hx : x ∈ s.calls.set i c) : x = c ∨ x ∈ s.calls := by
  rcases List.mem_or_eq_of_mem_set hx with h | h
  · exact .inr h
  · exact .inl h

theorem mem_set_self (hb : s.calls[i]? = some b) : c ∈ s.calls.set i c :=
  List.mem_set (List.getElem?_eq_some_iff.mp hb).1 c

/-- Every call but the moved one is still there. -/
theorem mem_set_of_ne {x : Call} (hb : s.calls[i]? = some b) (hx : x ∈ s.calls) (hne : x ≠ b) :
    x ∈ s.calls.set i c := by
  obtain ⟨j, hj⟩ := List.mem_iff_getElem?.mp hx
  have hij : i ≠ j := by
    rintro rfl
    rw [hb] at hj
    exact hne (Option.some.inj hj).symm
  exact List.mem_iff_getElem?.mpr ⟨j, by rw [List.getElem?_set_ne hij, hj]⟩

/-- One call moves; the file and the record of `p` are left alone. -/
theorem Tracked.move (ht : Tracked root p h s) (hb : s.calls[i]? = some b)
    (hcalls : s'.calls = s.calls.set i c) (hhost : s'.host = s.host)
    (hstaged : s'.staging.staged p = s.staging.staged p)
    (hok : Consistent p h s.host (s.staging.staged p) c)
    (hnew : c.accepted = false) (howe : Owing h s.host b → Owing h s.host c) :
    Tracked root p h s' where
  regular := hhost ▸ ht.regular
  calls x hx := by
    rw [hhost, hstaged]
    rw [hcalls] at hx
    rcases mem_set_cases hx with rfl | hx
    · exact hok
    · exact ht.calls x hx
  recorded ha := by
    obtain ⟨y, hy, hacc⟩ := ha
    rw [hcalls] at hy ⊢
    rw [hhost, hstaged]
    have hold : y ∈ s.calls := by
      rcases mem_set_cases hy with rfl | h0
      · rw [hnew] at hacc
        cases hacc
      · exact h0
    rcases ht.recorded ⟨y, hold, hacc⟩ with ⟨x, hx, hox⟩ | hd
    · by_cases hxb : x = b
      · exact .inl ⟨c, mem_set_self hb, howe (hxb ▸ hox)⟩
      · exact .inl ⟨x, mem_set_of_ne hb hx hxb, hox⟩
    · exact .inr hd

/-- A call records what it observed. -/
theorem Tracked.record {m : Mutation} {d : Staged} {r : Arc} {now : Nat}
    (ht : Tracked root p h s) (hd : Describes s.host h d) :
    Tracked root p h (s.record i m [] p d r now) where
  regular := ht.regular
  calls x hx := by
    show Consistent p h s.host ((s.staging.mark p d r now).staged p) x
    rw [Staging.staged_mark, if_pos rfl]
    rcases mem_set_cases hx with rfl | hx
    · exact Option.some_ne_none d
    · have hx := ht.calls x hx
      cases x with
      | mutation m' pc =>
        cases pc with
        | done res =>
          cases res with
          | ok u => exact Option.some_ne_none d
          | error e => trivial
        | _ => exact hx
      | _ => trivial
  recorded _ := by
    refine .inr fun d' hd' => ?_
    replace hd' : (s.staging.mark p d r now).staged p = some d' := hd'
    rw [Staging.staged_mark, if_pos rfl] at hd'
    cases hd'
    exact hd

/-- The disk step of a call on `p`, while no call has an observation to record. -/
theorem Tracked.disk {m : Mutation} {r : VfsResult Unit} {fs : Fs} (ht : Tracked root p h s)
    (hb : s.calls[i]? = some (.mutation m .start)) (hq : s.calls.all (!·.observed) = true)
    (hsp : m.spares s.host h = true) (hx : exec (m.disk root) s.host = (r, fs))
    (hcalls : s'.calls = s.calls.set i
      (.mutation m (match r with | .ok () => .marking m.marks | .error e => .done (.error e))))
    (hhost : s'.host = fs) (hstaging : s'.staging = s.staging) : Tracked root p h s' := by
  have hm : m.onPath p = true := ht.calls _ (List.mem_of_getElem? hb)
  obtain ⟨r', fs', hx', hr', heff⟩ := disk_onPath ht.regular hm hsp
  rw [hx] at hx'
  cases hx'
  -- No other call holds an observation, so none is invalidated.
  have hothers : ∀ x ∈ s.calls, Consistent p h fs (s.staging.staged p) x := by
    intro x hxm
    have hc := ht.calls x hxm
    have hno : x.observed = false := by
      have := List.all_eq_true.mp hq x hxm
      simpa using this
    cases x with
    | mutation m' pc =>
      cases pc with
      | start => exact hc
      | marking todo =>
        obtain ⟨hm', rfl | ⟨rfl, -⟩⟩ := hc
        · exact ⟨hm', .inl rfl⟩
        · cases hno
      | statted q st todo => cases hno
      | done res =>
        cases res with
        | ok u => exact hc
        | error e => trivial
    | _ => trivial
  refine ⟨hhost ▸ hr', ?_, ?_⟩
  · intro x hxm
    rw [hcalls] at hxm
    rw [hhost, hstaging]
    rcases mem_set_cases hxm with rfl | hxm
    · rcases heff with ⟨rfl, hmk, -⟩ | ⟨rfl, hmk, hnone⟩ | ⟨e, rfl, -⟩
      · exact ⟨hm, .inl hmk⟩
      · exact ⟨hm, .inr ⟨hmk, hnone⟩⟩
      · trivial
    · exact hothers x hxm
  · rintro ⟨y, hy, hacc⟩
    rw [hcalls] at hy ⊢
    rw [hhost, hstaging]
    rcases heff with ⟨rfl, hmk, c, hf⟩ | ⟨rfl, hmk, -⟩ | ⟨e, rfl, hsame⟩
    · refine .inl ⟨_, mem_set_self hb, ?_⟩
      simp [hmk, Owing, hf]
    · refine .inl ⟨_, mem_set_self hb, ?_⟩
      simp [hmk, Owing]
    · have hold : y ∈ s.calls := by
        rcases mem_set_cases hy with rfl | h0
        · cases hacc
        · exact h0
      rcases ht.recorded ⟨y, hold, hacc⟩ with ⟨x, hxm, hox⟩ | hd
      · have hne : x ≠ .mutation m .start := by
          rintro rfl
          exact hox
        refine .inl ⟨x, mem_set_of_ne hb hxm hne, ?_⟩
        unfold Owing at hox ⊢
        rw [hsame]
        exact hox
      · refine .inr fun d hd' => ?_
        have hdesc := hd d hd'
        unfold Describes at hdesc ⊢
        rw [hsame]
        exact hdesc

/-- **One step** that meets the conditions. -/
theorem Tracked.step (ht : Tracked root p h s) (hsc : inScope wire p s l = true)
    (hun : undelayed h s l = true) (hs : s.step root wire l = some s') : Tracked root p h s' := by
  have hcase := Sys.step_cases hs
  cases hcase with
  | call op =>
    have hok : Consistent p h s.host (s.staging.staged p) op.enter := by
      cases op with
      | mutation m => exact hsc
      | admission => trivial
    refine ⟨ht.regular, ?_, ?_⟩
    · intro x hx
      rcases List.mem_append.mp hx with hx | hx
      · exact ht.calls x hx
      · rw [List.mem_singleton.mp hx]
        exact hok
    · rintro ⟨y, hy, hacc⟩
      have hold : y ∈ s.calls := by
        rcases List.mem_append.mp hy with h0 | h0
        · exact h0
        · rw [List.mem_singleton.mp h0] at hacc
          cases op <;> cases hacc
      rcases ht.recorded ⟨y, hold, hacc⟩ with ⟨x, hx, hox⟩ | hd
      · exact .inl ⟨x, List.mem_append_left _ hx, hox⟩
      · exact .inr hd
  | diskOk hc hd =>
    simp only [undelayed, hc, Bool.and_eq_true] at hun
    exact ht.disk hc hun.1 hun.2 hd rfl rfl rfl
  | diskError hc hd =>
    simp only [undelayed, hc, Bool.and_eq_true] at hun
    exact ht.disk hc hun.1 hun.2 hd rfl rfl rfl
  | @statOk i m q todo st hc hr =>
    obtain ⟨hm, htodo⟩ := ht.calls _ (List.mem_of_getElem? hc)
    obtain ⟨rfl, rfl⟩ : q = p ∧ todo = [] := by
      rcases htodo with h0 | ⟨h0, -⟩ <;> cases h0
      exact ⟨rfl, rfl⟩
    have hspec := restat_onPath ht.regular
    rw [hr] at hspec
    exact ht.move hc rfl rfl rfl ⟨hm, rfl, rfl, hspec⟩ rfl fun _ => trivial
  | @statError i m q todo e hc hr =>
    obtain ⟨hm, htodo⟩ := ht.calls _ (List.mem_of_getElem? hc)
    obtain ⟨rfl, rfl⟩ : q = p ∧ todo = [] := by
      rcases htodo with h0 | ⟨h0, -⟩ <;> cases h0
      exact ⟨rfl, rfl⟩
    have hspec := restat_onPath ht.regular
    rw [hr] at hspec
    exact ht.move hc rfl rfl rfl trivial rfl fun hox => hox hspec
  | markPresent hfresh hc =>
    obtain ⟨hm, rfl, rfl, hd⟩ := ht.calls _ (List.mem_of_getElem? hc)
    exact ht.record hd
  | @markRemoved i m q todo r now hfresh hc =>
    obtain ⟨hm, htodo⟩ := ht.calls _ (List.mem_of_getElem? hc)
    rcases htodo with h0 | ⟨h0, hnone⟩ <;> cases h0
    exact ht.record hnone
  | snapshotNone hc hp => exact ht.move hc rfl rfl rfl trivial rfl id
  | snapshotSome hc hp => exact ht.move hc rfl rfl rfl trivial rfl id
  | urlOk hc => exact ht.move hc rfl rfl rfl trivial rfl id
  | urlError hc => exact ht.move hc rfl rfl rfl trivial rfl id
  | daemon hc => exact ht.move hc rfl rfl rfl trivial rfl id
  | replyRefused hc => exact ht.move hc rfl rfl rfl trivial rfl id
  | replyResend hc hj => exact ht.move hc rfl rfl rfl trivial rfl id
  | replyFailed hc hj => exact ht.move hc rfl rfl rfl trivial rfl id
  | @replyAdmitted i pending attributed read answer adm hc hj =>
    refine ht.move hc rfl rfl ?_ trivial rfl id
    -- The admission kept `p`, and what it keeps it leaves as it was.
    have hkeep : (s.staging.staged p).isNone ∨
        ((s.staging.clear pending adm).staged p).isSome := by
      have hrep : s.stepReply wire i = _ := hs
      simp only [inScope, hrep, Bool.or_eq_true] at hsc
      exact hsc
    show (s.staging.clear pending adm).staged p = s.staging.staged p
    simp only [Staging.staged, Staging.entries_clear, Staging.getElem?_clearPending] at hkeep ⊢
    cases he : s.staging.entries[p]? with
    | none => rfl
    | some e =>
      rw [he] at hkeep
      rw [Option.filter_some] at hkeep ⊢
      split at hkeep
      · rename_i hf
        rw [if_pos hf]
      · rcases hkeep with h0 | h0 <;> cases h0

end Step

/-! ## At rest -/

/-- The mutation has returned. -/
def Call.returned : Call → Bool
  | .mutation _ (.done _) | .admission _ | .aborted => true
  | .mutation _ _ => false

/-- `p` is staged as the file at `h` is, and the overlay reads the whole file. -/
def StagingAgrees (root : Posix.Path) (p : VfsPath) (h : Posix.Path) (graph : ContentProvider)
    (s : Sys) : Prop :=
  match s.host.shape h with
  | some (.file c) =>
    (∃ st, s.staging.staged p = some (.present st) ∧ st.size = c.length) ∧
      (overlay graph root ⟨s.host, s.staging, 0, 0⟩).readFile p = .ok c
  | _ => s.staging.staged p = some .removed

/-- A staged file whose recorded size is its length is read whole. -/
theorem readFile_staged {root h : Posix.Path} {p : VfsPath} {graph : ContentProvider} {w : World}
    {st : VirtualStat} {c : Bytes} (ht : containedTarget w.host root p = .ok h)
    (hf : w.host.shape h = some (.file c)) (hst : w.staging.staged p = some (.present st))
    (hsz : st.size = c.length) :
    (overlay graph root w).readFile p = .ok c := by
  have hlen := Fs.length_le_of_shape_file hf
  have hread : w.host.readFile h = .ok c := Posix.readFile_of_file hf
  have hmin : min (saturatingAdd 0 c.length) c.length = c.length := by
    simp only [saturatingAdd, u64Max, Posix.maxFileSize] at hlen ⊢
    omega
  simp only [overlay, WriteThroughProvider, WriteThroughProvider.readFile, KinDaemonWriter.view, hst,
    KinDaemonWriter.readStaged, KinDaemonWriter.contentPath, ht, hread, hsz, hmin, Nat.zero_min,
    Content.slice_all c (Nat.le_refl _)]

/-- **Staging agrees with the working copy at rest**, for runs of calls on one regular-file path
without a disk step between an observation and its record. -/
theorem staging_agrees_of_undelayed {root h : Posix.Path} {wire : Wire} {p : VfsPath}
    {graph : ContentProvider} {s₀ s : Sys} {ls : List Label} (hr : RegularAt root p h s₀.host)
    (h0 : s₀.calls = [])
    (hm : Runs.Meets (Sys.step root wire)
      (fun s l => inScope wire p s l = true ∧ undelayed h s l = true) s₀ ls)
    (hrun : Runs.run (Sys.step root wire) s₀ ls = some s)
    (hrest : ∀ c ∈ s.calls, c.returned = true)
    (hacc : ∃ c ∈ s.calls, c.accepted = true) : StagingAgrees root p h graph s := by
  have ht : Tracked root p h s :=
    Runs.run_inv_of_meets (fun _ _ _ ht hc hs => ht.step hc.1 hc.2 hs) (.init hr h0) hm hrun
  have hdesc : ∀ d, s.staging.staged p = some d → Describes s.host h d := by
    rcases ht.recorded hacc with ⟨c, hc, ho⟩ | hd
    · have hret := hrest c hc
      cases c with
      | mutation m pc =>
        cases pc with
        | done res => exact ho.elim
        | _ => cases hret
      | _ => exact ho.elim
    · exact hd
  have hsome : s.staging.staged p ≠ none := by
    obtain ⟨c, hc, ha⟩ := hacc
    have hok := ht.calls c hc
    unfold Call.accepted at ha
    split at ha
    · exact hok
    · cases ha
  unfold StagingAgrees
  cases hst : s.staging.staged p with
  | none => exact absurd hst hsome
  | some d =>
    have hd := hdesc d hst
    cases d with
    | present st =>
      obtain ⟨c, hf, hsz⟩ := hd
      rw [hf]
      exact ⟨⟨st, rfl, hsz⟩, readFile_staged ht.regular.target hf hst hsz⟩
    | removed =>
      have hnone : s.host.shape h = none := hd
      rw [hnone]

/-- A graph that holds nothing. -/
def Sample.noGraph : ContentProvider where
  readFile p := .error (.notFound p.display)
  readRange p _ _ := .error (.notFound p.display)
  stat p := .error (.notFound p.display)
  readDir p := .error (.notFound p.display)
  pathExists _ := .ok false
  readLink p := .error (.notFound p.display)
  version := 0

theorem Sample.regular : RegularAt [] Sample.a [[97]] (Sys.init Sample.host).host :=
  ⟨by decide, by decide, by decide, .inl (by decide)⟩

/-- A write and a removal that overlap: the write's restat finds no file. -/
def overlappingRemove : List Label :=
  [.call (.mutation (.writeAt Sample.a 0 [1])), .call (.mutation (.remove Sample.a)),
    .disk 0, .disk 1, .stat 0, .mark 1 1 0]

theorem staging_agrees_of_undelayed_overlappingRemove :
    ∃ s, Runs.run (Sys.step [] Sample.wire) (.init Sample.host) overlappingRemove = some s ∧
      StagingAgrees [] Sample.a [[97]] Sample.noGraph s := by
  have hrun : ((Runs.run (Sys.step [] Sample.wire) (.init Sample.host) overlappingRemove).map
      fun s => (s.calls.all Call.returned, s.calls.any Call.accepted)) = some (true, true) := by
    decide
  obtain ⟨s, hs, hp⟩ := Option.map_eq_some_iff.mp hrun
  simp only [Prod.mk.injEq, List.all_eq_true, List.any_eq_true] at hp
  have hm : Runs.Meets (Sys.step [] Sample.wire)
      (fun s l => inScope Sample.wire Sample.a s l = true ∧ undelayed [[97]] s l = true)
      (.init Sample.host) overlappingRemove := by decide
  exact ⟨s, hs, staging_agrees_of_undelayed Sample.regular rfl hm hs hp.1 hp.2⟩

/-- Two writes: the first restats one byte, the second writes three and is recorded, and then the
first is. -/
def staleRecord : List Label :=
  [.call (.mutation (.writeAt Sample.a 0 [1])), .call (.mutation (.writeAt Sample.a 0 [1, 2, 3])),
    .disk 0, .stat 0, .disk 1, .stat 1, .mark 1 1 0, .mark 0 2 0]

/-- Both calls have returned, and the recorded size is one where the file has three bytes. -/
theorem staleRecord_disagrees :
    ∃ s, Runs.run (Sys.step [] Sample.wire) (.init Sample.host) staleRecord = some s ∧
      (∀ c ∈ s.calls, c.returned = true ∧ c.accepted = true) ∧
      s.host.shape [[97]] = some (.file [1, 2, 3]) ∧
      (∃ st, s.staging.staged Sample.a = some (.present st) ∧ st.size = 1) ∧
      ¬ StagingAgrees [] Sample.a [[97]] Sample.noGraph s := by
  have hrun : ((Runs.run (Sys.step [] Sample.wire) (.init Sample.host) staleRecord).map
      fun s => (s.calls.all fun c => c.returned && c.accepted, s.host.shape [[97]],
        (s.staging.staged Sample.a).map fun
          | .present st => st.size
          | .removed => 0)) = some (true, some (.file [1, 2, 3]), some 1) := by
    decide
  obtain ⟨s, hs, hp⟩ := Option.map_eq_some_iff.mp hrun
  simp only [Prod.mk.injEq, List.all_eq_true, Bool.and_eq_true, Option.map_eq_some_iff] at hp
  obtain ⟨hrest, hfile, d, hd, hsz⟩ := hp
  obtain ⟨st, rfl, hone⟩ : ∃ st, d = .present st ∧ st.size = 1 := by
    cases d with
    | present st => exact ⟨st, rfl, hsz⟩
    | removed => cases hsz
  refine ⟨s, hs, hrest, hfile, ⟨st, hd, hone⟩, ?_⟩
  unfold StagingAgrees
  rw [hfile]
  rintro ⟨⟨st', hst', hsz'⟩, -⟩
  rw [hd] at hst'
  cases hst'
  rw [hone] at hsz'
  cases hsz'

end KinVfs
