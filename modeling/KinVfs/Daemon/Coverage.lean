import KinVfs.Daemon.AdmitSpec
import KinVfs.Daemon.NoLostWrite

/-!
# What an admission covers

A commit reads the whole working copy, so an admission that sends its request after some calls were
accepted has read them, whatever its own snapshot holds; and a snapshot that is empty says that a reported
commit has read every call accepted so far. So an admission that is entered after a set of calls was
accepted, and that returns `Ok`, covers them (`Covers.step`).
-/

namespace KinVfs

namespace Sys

/-- Call `i` was answered with success. -/
def Accepted (s : Sys) (i : Nat) : Prop :=
  ∃ m, s.calls[i]? = some (.mutation m (.done (.ok ())))

/-- A commit that the daemon reported as successful has read call `i`. -/
def InGraph (s : Sys) (i : Nat) : Prop := ∃ c ∈ s.reported, i ∈ c

/-- What an admission has done for the calls `A`, by where it is. -/
def CoversAt (A : Nat → Prop) (s : Sys) : Call → Prop
  | .admission (.answered _ _ read _) => ∀ i, A i → i ∈ read
  | .admission (.done _ (.ok _)) => ∀ i, A i → s.InGraph i
  | _ => True

def Covers (A : Nat → Prop) (s : Sys) (j : Nat) : Prop :=
  ∀ c, s.calls[j]? = some c → s.CoversAt A c

variable {repoRoot : Posix.Path} {wire : Wire} {s s' : Sys} {l : Label} {i j : Nat} {A B : Nat → Prop}

theorem InGraph.step (h : s.InGraph i) (hs : s.step repoRoot wire l = some s') : s'.InGraph i := by
  obtain ⟨c, hc, hi⟩ := h
  refine ⟨c, ?_, hi⟩
  cases Sys.step_cases hs with
  | replyFailed _ _ => exact List.mem_append_left _ hc
  | replyAdmitted _ _ => exact List.mem_append_left _ hc
  | _ => exact hc

/-- Only the call that a step is of moves. -/
theorem calls_of_goto_ne {c d : Call} (h : s.calls[i]? = some c) (hj : s.calls[j]? = some d) (hne : c ≠ d)
    (e : Call) : (s.goto j e).calls[i]? = some c := by
  have hij : j ≠ i := by
    rintro rfl
    rw [h] at hj
    exact hne (Option.some.inj hj)
  rw [goto, List.getElem?_set_ne hij, h]

/-- A call that has returned stays as it is. -/
theorem calls_done {c : Call} (h : s.calls[i]? = some c)
    (hdone : (∃ m r, c = .mutation m (.done r)) ∨ ∃ p r, c = .admission (.done p r))
    (hs : s.step repoRoot wire l = some s') : s'.calls[i]? = some c := by
  have hstay : ∀ {j : Nat} {d : Call}, s.calls[j]? = some d →
      (∀ m r, d ≠ .mutation m (.done r)) → (∀ p r, d ≠ .admission (.done p r)) →
      ∀ e, (s.goto j e).calls[i]? = some c := by
    intro j d hj hm ha e
    refine calls_of_goto_ne h hj ?_ e
    rintro rfl
    rcases hdone with ⟨m, r, rfl⟩ | ⟨p, r, rfl⟩
    · exact hm m r rfl
    · exact ha p r rfl
  cases Sys.step_cases hs with
  | call op =>
    show (s.calls ++ [op.enter])[i]? = some c
    rw [List.getElem?_append_left (List.getElem?_eq_some_iff.mp h).1, h]
  | diskOk hc _ => exact hstay hc (by simp) (by simp) _
  | diskError hc _ => exact hstay hc (by simp) (by simp) _
  | statOk hc _ => exact hstay hc (by simp) (by simp) _
  | statError hc _ => exact hstay hc (by simp) (by simp) _
  | markPresent _ hc => exact hstay hc (by simp) (by simp) _
  | markRemoved _ hc => exact hstay hc (by simp) (by simp) _
  | snapshotNone hc _ => exact hstay hc (by simp) (by simp) _
  | snapshotSome hc _ => exact hstay hc (by simp) (by simp) _
  | urlOk hc => exact hstay hc (by simp) (by simp) _
  | urlError hc => exact hstay hc (by simp) (by simp) _
  | daemon hc => exact hstay hc (by simp) (by simp) _
  | replyRefused hc => exact hstay hc (by simp) (by simp) _
  | replyResend hc _ => exact hstay hc (by simp) (by simp) _
  | replyFailed hc _ => exact hstay hc (by simp) (by simp) _
  | replyAdmitted hc _ => exact hstay hc (by simp) (by simp) _

theorem Accepted.step (h : s.Accepted i) (hs : s.step repoRoot wire l = some s') : s'.Accepted i := by
  obtain ⟨m, hm⟩ := h
  exact ⟨m, calls_done hm (.inl ⟨m, _, rfl⟩) hs⟩

/-- A call is accepted by its last mark. -/
theorem accepted_of_step (h : s'.Accepted i) (hs : s.step repoRoot wire l = some s') :
    s.Accepted i ∨ ∃ revision now, l = .mark i revision now := by
  obtain ⟨m, hm⟩ := h
  have hback : ∀ {j : Nat} {c : Call}, (∀ m, c ≠ .mutation m (.done (.ok ()))) →
      (s.goto j c).calls[i]? = some (.mutation m (.done (.ok ()))) → s.Accepted i := by
    intro j c hne hj
    obtain ⟨-, hc⟩ | ⟨-, hold⟩ := of_goto hj
    · exact absurd hc (hne m)
    · exact ⟨m, hold⟩
  have hmark : ∀ {j : Nat} {c : Call} {revision : Arc} {now : Nat},
      (s.goto j c).calls[i]? = some (.mutation m (.done (.ok ()))) →
      s.Accepted i ∨ ∃ r n, Label.mark j revision now = .mark i r n := by
    intro j c revision now hj
    obtain ⟨rfl, -⟩ | ⟨-, hold⟩ := of_goto hj
    · exact .inr ⟨_, _, rfl⟩
    · exact .inl ⟨m, hold⟩
  cases Sys.step_cases hs with
  | call op =>
    change (s.calls ++ [op.enter])[i]? = _ at hm
    rw [List.getElem?_append] at hm
    split at hm
    · exact .inl ⟨m, hm⟩
    · rw [List.getElem?_singleton] at hm
      split at hm
      · cases op <;> cases hm
      · cases hm
  | markPresent _ _ => exact hmark hm
  | markRemoved _ _ => exact hmark hm
  | diskOk _ _ => exact .inl (hback (by simp) hm)
  | diskError _ _ => exact .inl (hback (by simp) hm)
  | statOk _ _ => exact .inl (hback (by simp) hm)
  | statError _ _ => exact .inl (hback (by simp) hm)
  | snapshotNone _ _ => exact .inl (hback (by simp) hm)
  | snapshotSome _ _ => exact .inl (hback (by simp) hm)
  | urlOk _ => exact .inl (hback (by simp) hm)
  | urlError _ => exact .inl (hback (by simp) hm)
  | daemon _ => exact .inl (hback (by simp) hm)
  | replyRefused _ => exact .inl (hback (by simp) hm)
  | replyResend _ _ => exact .inl (hback (by simp) hm)
  | replyFailed _ _ => exact .inl (hback (by simp) hm)
  | replyAdmitted _ _ => exact .inl (hback (by simp) hm)

/-! ## An admission and the calls before it -/

theorem Covers.mono (h : Covers A s j) (hAB : ∀ i, B i → A i) : Covers B s j := by
  intro c hc
  have hat := h c hc
  unfold CoversAt at hat ⊢
  split at hat
  · exact fun i hi => hat i (hAB i hi)
  · exact fun i hi => hat i (hAB i hi)
  · trivial

/-- A step that moves call `k` to `e`. -/
theorem Covers.goto {k : Nat} {e : Call} (h : Covers A s j) (hc : s'.calls = (s.goto k e).calls)
    (hr : ∀ d ∈ s.reported, d ∈ s'.reported) (he : k = j → s'.CoversAt A e) : Covers A s' j := by
  intro c hj
  rw [hc] at hj
  obtain ⟨hk, rfl⟩ | ⟨-, hold⟩ := of_goto hj
  · exact he hk
  · have hat := h c hold
    unfold CoversAt at hat ⊢
    split at hat
    · exact hat
    · intro i hi
      obtain ⟨d, hd, hid⟩ := hat i hi
      exact ⟨d, hr d hd, hid⟩
    · trivial

/-- An accepted call is in the log, and it is staged or in the graph. -/
theorem logged_of_accepted (hacc : KinVfs.Accounted s) (h : s.Accepted i) :
    i ∈ s.log ∧ (s.InGraph i ∨ s.staging.snapshot ≠ []) := by
  obtain ⟨m, hm⟩ := h
  obtain ⟨p, hp⟩ := hacc.calls i _ hm
  refine ⟨hacc.logged i p hp, ?_⟩
  rcases hacc.owed i p hp with hread | hsome
  · exact .inl hread
  · right
    intro hnil
    have hkeys := Staging.keys_eq_nil.mp (snapshot_eq_nil.mp hnil) p
    rw [hkeys] at hsome
    cases hsome

theorem Covers.step (hacc : KinVfs.Accounted s) (hA : ∀ i, A i → s.Accepted i) (h : Covers A s j)
    (hs : s.step repoRoot wire l = some s') : Covers A s' j := by
  cases Sys.step_cases hs with
  | call op =>
    intro c hc
    change (s.calls ++ [op.enter])[j]? = some c at hc
    rw [List.getElem?_append] at hc
    split at hc
    · exact h c hc
    · rw [List.getElem?_singleton] at hc
      split at hc
      · cases hc
        cases op <;> trivial
      · cases hc
  | snapshotNone hc hp =>
    refine h.goto rfl (fun _ hd => hd) fun _ i hi => ?_
    exact (logged_of_accepted hacc (hA i hi)).2.resolve_right fun hne => hne hp
  | daemon hc =>
    exact h.goto rfl (fun _ hd => hd) fun _ i hi => (logged_of_accepted hacc (hA i hi)).1
  | replyAdmitted hc hj =>
    refine h.goto rfl (fun _ hd => List.mem_append_left _ hd) ?_
    rintro rfl i hi
    exact ⟨_, List.mem_append_right _ (List.mem_singleton.mpr rfl), h _ hc i hi⟩
  | replyFailed hc hj => exact h.goto rfl (fun _ hd => List.mem_append_left _ hd) fun _ => trivial
  | diskOk _ _ => exact h.goto rfl (fun _ hd => hd) fun _ => trivial
  | diskError _ _ => exact h.goto rfl (fun _ hd => hd) fun _ => trivial
  | statOk _ _ => exact h.goto rfl (fun _ hd => hd) fun _ => trivial
  | statError _ _ => exact h.goto rfl (fun _ hd => hd) fun _ => trivial
  | markPresent _ _ => exact h.goto rfl (fun _ hd => hd) fun _ => trivial
  | markRemoved _ _ => exact h.goto rfl (fun _ hd => hd) fun _ => trivial
  | snapshotSome _ _ => exact h.goto rfl (fun _ hd => hd) fun _ => trivial
  | urlOk _ => exact h.goto rfl (fun _ hd => hd) fun _ => trivial
  | urlError _ => exact h.goto rfl (fun _ hd => hd) fun _ => trivial
  | replyRefused _ => exact h.goto rfl (fun _ hd => hd) fun _ => trivial
  | replyResend _ _ => exact h.goto rfl (fun _ hd => hd) fun _ => trivial

end Sys

end KinVfs
