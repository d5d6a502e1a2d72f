import KinVfs.Daemon.Sys

/-!
# No accepted write is lost

The invariant ties each staged entry to the commits that may have read it. A call has an entry, or
a reported commit read its disk effect; and an answered admission whose pending set still matches
an entry has read every call that marked that path. A new mark gets an address that no pending set
holds, which is why comparing addresses is enough.
-/

namespace KinVfs

/-- What holds of call `i`. -/
def CallOk (log : List Nat) (marks : List (Nat × VfsPath))
    (entries : Std.ExtTreeMap VfsPath StagedEntry) (i : Nat) : Call → Prop
  | .mutation _ (.marking todo) => i ∈ log ∧ todo ≠ []
  | .mutation _ (.statted ..) => i ∈ log
  | .mutation _ (.done (.ok ())) => ∃ p, (i, p) ∈ marks
  | .admission (.answered pending _ read _) => ∀ (p : VfsPath) e j, entries[p]? = some e →
      (p, e.revision) ∈ pending → (j, p) ∈ marks → j ∈ read
  | _ => True

/-- The invariant of a run. -/
structure Accounted (s : Sys) : Prop where
  calls : ∀ i c, s.calls[i]? = some c → CallOk s.log s.marks s.staging.entries i c
  logged : ∀ i p, (i, p) ∈ s.marks → i ∈ s.log
  owed : ∀ i p, (i, p) ∈ s.marks →
    (∃ c ∈ s.reported, i ∈ c) ∨ (s.staging.entries[p]?).isSome

section CallOk

variable {log log' : List Nat} {marks : List (Nat × VfsPath)}
  {entries entries' : Std.ExtTreeMap VfsPath StagedEntry} {i : Nat} {c : Call}

/-- A longer log and fewer entries keep it. -/
theorem CallOk.mono (h : CallOk log marks entries i c) (hl : ∀ j ∈ log, j ∈ log')
    (he : ∀ (p : VfsPath) e, entries'[p]? = some e → entries[p]? = some e) :
    CallOk log' marks entries' i c := by
  cases c with
  | mutation m pc =>
    cases pc with
    | start => trivial
    | marking todo => exact ⟨hl _ h.1, h.2⟩
    | statted path stat todo => exact hl _ h
    | done r =>
      cases r with
      | error e => trivial
      | ok u => exact h
  | admission pc =>
    cases pc with
    | answered pending attributed read answer => exact fun p e j hp => h p e j (he p e hp)
    | _ => trivial
  | aborted => trivial

/-- A mark under an address the call does not hold keeps it. -/
theorem CallOk.mark {j : Nat} {p : VfsPath} {staged : Staged} {revision : Arc}
    (h : CallOk log marks entries i c) (hfresh : revision ∉ c.held) :
    CallOk log (marks ++ [(j, p)]) (entries.insert p ⟨staged, revision⟩) i c := by
  cases c with
  | mutation m pc =>
    cases pc with
    | start => trivial
    | marking todo => exact h
    | statted path stat todo => exact h
    | done r =>
      cases r with
      | error e => trivial
      | ok u =>
        obtain ⟨q, hq⟩ := h
        exact ⟨q, List.mem_append_left _ hq⟩
  | admission pc =>
    cases pc with
    | answered pending attributed read answer =>
      intro q e k hq hmem hk
      rw [Std.ExtTreeMap.getElem?_insert] at hq
      split at hq
      · cases hq
        exact absurd (List.mem_map.mpr ⟨_, hmem, rfl⟩) hfresh
      · rename_i hne
        rcases List.mem_append.mp hk with hk | hk
        · exact h q e k hq hmem hk
        · cases List.mem_singleton.mp hk
          simp at hne
    | _ => trivial
  | aborted => trivial

end CallOk

namespace Accounted

variable {repoRoot : Posix.Path} {wire : Wire} {s s' : Sys} {l : Label}

theorem init (host : Posix.Fs) : Accounted (.init host) where
  calls i c h := by simp [Sys.init] at h
  logged i p h := by simp [Sys.init] at h
  owed i p h := by simp [Sys.init] at h

theorem held_sub_live {i : Nat} {c : Call} (h : s.calls[i]? = some c) {r : Arc} (hr : r ∈ c.held) :
    r ∈ s.live :=
  List.mem_append_right _ (List.mem_flatMap.mpr ⟨c, List.mem_of_getElem? h, hr⟩)

/-- A step that moves one call, may log more, and neither marks nor clears. -/
theorem goto {i : Nat} {c : Call} (h : Accounted s) (hc : s'.calls = (s.goto i c).calls)
    (hl : ∀ j ∈ s.log, j ∈ s'.log) (hm : s'.marks = s.marks)
    (hr : ∀ d ∈ s.reported, d ∈ s'.reported) (he : s'.staging.entries = s.staging.entries)
    (hok : CallOk s'.log s.marks s.staging.entries i c) : Accounted s' where
  calls j d hj := by
    rw [hc] at hj
    rw [hm, he]
    obtain ⟨rfl, rfl⟩ | ⟨-, hj⟩ := Sys.of_goto hj
    · exact hok
    · exact (h.calls j d hj).mono hl fun _ _ hp => hp
  logged j p hj := hl _ (h.logged j p (hm ▸ hj))
  owed j p hj := by
    rw [he]
    rcases h.owed j p (hm ▸ hj) with ⟨d, hd, hjd⟩ | hp
    · exact .inl ⟨d, hr d hd, hjd⟩
    · exact .inr hp

theorem call (h : Accounted s) (op : Op) :
    Accounted { s with calls := s.calls ++ [op.enter] } where
  calls i c hi := by
    rw [List.getElem?_append] at hi
    split at hi
    · exact h.calls i c hi
    · rw [List.getElem?_singleton] at hi
      split at hi
      · cases hi
        cases op <;> trivial
      · cases hi
  logged := h.logged
  owed := h.owed

theorem record {i : Nat} {m : Mutation} {todo : List MarkStep} {path : VfsPath}
    {staged : Staged} {revision : Arc} {now : Nat} (h : Accounted s) (hl : i ∈ s.log) (hfresh : revision ∉ s.live) :
    Accounted (s.record i m todo path staged revision now) where
  calls j d hj := by
    obtain ⟨rfl, rfl⟩ | ⟨-, hj⟩ := Sys.of_goto hj
    · cases todo with
      | nil => exact ⟨path, List.mem_append_right _ (List.mem_singleton.mpr rfl)⟩
      | cons t todo => exact ⟨hl, by simp⟩
    · have hd : revision ∉ d.held := fun hr => hfresh (held_sub_live (s := s) hj hr)
      exact (h.calls j d hj).mark hd
  logged j p hj := by
    rcases List.mem_append.mp hj with hj | hj
    · exact h.logged j p hj
    · cases List.mem_singleton.mp hj
      exact hl
  owed j p hj := by
    show _ ∨ ((s.staging.mark path staged revision now).entries[p]?).isSome
    rw [Staging.getElem?_mark]
    rcases List.mem_append.mp hj with hj | hj
    · rcases h.owed j p hj with hread | hp
      · exact .inl hread
      · right
        split
        · rfl
        · exact hp
    · cases List.mem_singleton.mp hj
      simp

/-- A cleared entry was read: the admission that clears it had answered with everything that
marked the path. -/
theorem admitted {i : Nat} {pending : List (VfsPath × Arc)} {attributed : Bool} {read : List Nat}
    {answer : Except String Response} {adm : Admission} (h : Accounted s)
    (hc : s.calls[i]? = some (.admission (.answered pending attributed read answer))) :
    Accounted ({ s with
        reported := s.reported ++ [read]
        staging := s.staging.clear pending adm }.goto i
      (.admission (.done pending (.ok (some adm))))) where
  calls j d hj := by
    obtain ⟨rfl, rfl⟩ | ⟨-, hj⟩ := Sys.of_goto hj
    · trivial
    · refine (h.calls j d hj).mono (fun _ hk => hk) fun p e hp => ?_
      change (Staging.clearPending s.staging.entries pending)[p]? = some e at hp
      rw [Staging.getElem?_clearPending, Option.filter_eq_some_iff] at hp
      exact hp.1
  logged := h.logged
  owed j p hj := by
    show _ ∨ ((Staging.clearPending s.staging.entries pending)[p]?).isSome
    rw [Staging.getElem?_clearPending]
    rcases h.owed j p hj with ⟨d, hd, hjd⟩ | hp
    · exact .inl ⟨d, List.mem_append_left _ hd, hjd⟩
    · obtain ⟨e, he⟩ := Option.isSome_iff_exists.mp hp
      by_cases hmem : (p, e.revision) ∈ pending
      · have hread : j ∈ read := h.calls i _ hc p e j he hmem hj
        exact .inl ⟨read, List.mem_append_right _ (List.mem_singleton.mpr rfl), hread⟩
      · right
        rw [he]
        simp [Option.filter, hmem]

/-- **One step.** Every step of every call keeps the accounts. -/
theorem step (h : Accounted s) (hs : s.step repoRoot wire l = some s') : Accounted s' := by
  cases Sys.step_cases hs with
  | call op => exact h.call op
  | @diskOk i m _ hc hd =>
    refine h.goto rfl (fun j hj => List.mem_append_left _ hj) rfl
      (fun _ hd => hd) rfl ?_
    refine ⟨List.mem_append_right _ (List.mem_singleton.mpr rfl), ?_⟩
    cases m <;> simp [Mutation.marks]
  | diskError hc hd =>
    exact h.goto rfl (fun _ hj => hj) rfl (fun _ hd => hd) rfl trivial
  | statOk hc hr =>
    have hl := (h.calls _ _ hc).1
    exact h.goto rfl (fun _ hj => hj) rfl (fun _ hd => hd) rfl hl
  | statError hc hr =>
    exact h.goto rfl (fun _ hj => hj) rfl (fun _ hd => hd) rfl trivial
  | markPresent hfresh hc => exact h.record (h.calls _ _ hc) hfresh
  | markRemoved hfresh hc => exact h.record (h.calls _ _ hc).1 hfresh
  | snapshotNone hc hp =>
    exact h.goto rfl (fun _ hj => hj) rfl (fun _ hd => hd) rfl trivial
  | snapshotSome hc hp =>
    exact h.goto rfl (fun _ hj => hj) rfl (fun _ hd => hd) rfl trivial
  | urlOk hc =>
    exact h.goto rfl (fun _ hj => hj) rfl (fun _ hd => hd) rfl trivial
  | urlError hc =>
    exact h.goto rfl (fun _ hj => hj) rfl (fun _ hd => hd) rfl trivial
  | daemon hc =>
    -- The commit reads every disk effect so far, and every mark follows its disk step.
    exact h.goto rfl (fun _ hj => hj) rfl (fun _ hd => hd) rfl
      fun p e j _ _ hj => h.logged j p hj
  | replyRefused hc =>
    exact h.goto rfl (fun _ hj => hj) rfl (fun _ hd => hd) rfl trivial
  | replyResend hc hj =>
    exact h.goto rfl (fun _ hj => hj) rfl (fun _ hd => hd) rfl trivial
  | replyFailed hc hj =>
    exact h.goto rfl (fun _ hj => hj) rfl (fun _ hd => List.mem_append_left _ hd) rfl trivial
  | replyAdmitted hc hj => exact h.admitted hc

/-- **Every run.** -/
theorem run {host : Posix.Fs} {ls : List Label}
    (h : Runs.run (Sys.step repoRoot wire) (.init host) ls = some s) : Accounted s :=
  Runs.run_inv (fun _ _ _ h hs => h.step hs) (init host) h

/-- Nothing staged: every call that returned `Ok` was read by a reported commit. -/
theorem read_of_settled (h : Accounted s) {last : Option Admission}
    (hh : s.staging.health = .settled last) {i : Nat} {m : Mutation}
    (hi : s.calls[i]? = some (.mutation m (.done (.ok ())))) : ∃ c ∈ s.reported, i ∈ c := by
  obtain ⟨p, hp⟩ := h.calls i _ hi
  rcases h.owed i p hp with hread | hs
  · exact hread
  · have := Staging.keys_eq_nil.mp (Staging.health_eq_settled.mp hh).2.1 p
    rw [this] at hs
    cases hs

end Accounted

/-- A reply that returns an admission clears exactly what its snapshot still matches. -/
theorem Sys.reply_clears {repoRoot : Posix.Path} {wire : Wire} {s s' : Sys} {i : Nat}
    {pending : List (VfsPath × Arc)} {adm : Admission}
    (hs : s.step repoRoot wire (.reply i) = some s')
    (hd : s'.calls[i]? = some (.admission (.done pending (.ok (some adm))))) (p : VfsPath) :
    s'.staging.entries[p]? =
      s.staging.entries[p]?.filter fun e => !pending.contains (p, e.revision) := by
  cases Sys.step_cases hs with
  | replyRefused hc =>
    obtain ⟨-, h⟩ | ⟨hne, -⟩ := Sys.of_goto hd
    · cases h
    · exact absurd rfl hne
  | replyResend hc hj =>
    obtain ⟨-, h⟩ | ⟨hne, -⟩ := Sys.of_goto hd
    · cases h
    · exact absurd rfl hne
  | replyFailed hc hj =>
    obtain ⟨-, h⟩ | ⟨hne, -⟩ := Sys.of_goto hd
    · cases h
    · exact absurd rfl hne
  | replyAdmitted hc hj =>
    obtain ⟨-, h⟩ | ⟨hne, -⟩ := Sys.of_goto hd
    · cases h
      exact Staging.getElem?_clearPending
    · exact absurd rfl hne

/-- **No accepted write is lost.** In every state any interleaving reaches: when health is settled,
every mutation that returned `Ok` was read by a commit the daemon reported as successful, and an
admission that succeeds next removes exactly the entries that still carry the revision it
snapped. -/
theorem no_accepted_write_is_lost {repoRoot : Posix.Path} {wire : Wire} {host : Posix.Fs}
    {ls : List Label} {s : Sys}
    (h : Runs.run (Sys.step repoRoot wire) (.init host) ls = some s) :
    (∀ last, s.staging.health = .settled last →
      ∀ i m, s.calls[i]? = some (.mutation m (.done (.ok ()))) → ∃ c ∈ s.reported, i ∈ c) ∧
    (∀ i s' pending adm, s.step repoRoot wire (.reply i) = some s' →
      s'.calls[i]? = some (.admission (.done pending (.ok (some adm)))) →
      ∀ p : VfsPath, s'.staging.entries[p]? =
        s.staging.entries[p]?.filter fun e => !pending.contains (p, e.revision)) := by
  have hacc : Accounted s := Accounted.run h
  constructor
  · intro last hh i m hi
    exact hacc.read_of_settled hh hi
  · intro i s' pending adm hs hd p
    exact Sys.reply_clears hs hd p

/-- One write and one admission. -/
def oneWrite : List Label :=
  [.call (.mutation (.writeAt Sample.a 0 [1])), .disk 0, .stat 0, .mark 0 1 0,
    .call .admission, .snapshot 1, .url 1 (.ok "http://127.0.0.1:4219/commands/commit"),
    .daemon 1 (.ok ⟨200, Sample.body⟩), .reply 1]

theorem no_accepted_write_is_lost_oneWrite :
    ∃ s, Runs.run (Sys.step [] Sample.wire) (.init Sample.host) oneWrite = some s ∧
      (∃ c ∈ s.reported, 0 ∈ c) := by
  have hrun : ((Runs.run (Sys.step [] Sample.wire) (.init Sample.host) oneWrite).map fun s =>
      (s.staging.health.label, s.calls[0]?.map Call.accepted)) = some ("settled", some true) := by decide
  obtain ⟨s, hs, hp⟩ := Option.map_eq_some_iff.mp hrun
  simp only [Prod.mk.injEq, Option.map_eq_some_iff] at hp
  obtain ⟨hlabel, c, hc, hdone⟩ := hp
  refine ⟨s, hs, ?_⟩
  have hset : ∃ last, s.staging.health = .settled last := by
    cases hh : s.staging.health with
    | settled last => exact ⟨last, rfl⟩
    | pending paths => simp [hh, WriteHealth.label] at hlabel
    | degraded paths reason => simp [hh, WriteHealth.label] at hlabel
  obtain ⟨last, hlast⟩ := hset
  obtain ⟨m, rfl⟩ := Call.of_accepted hdone
  exact (no_accepted_write_is_lost hs).1 last hlast 0 m hc

end KinVfs
