import KinVfs.Lib.Runs

/-!
# Push invalidation (`crates/kin-vfs-daemon/src/server.rs`)

One connection that subscribes, the version poller and the provider, as a transition system. The poller
reads the version and compares it with the one of its last turn; on a change it broadcasts, and the
broadcast reaches the receivers that exist. The connection writes `Pong` and makes its receiver
afterwards.

A change after the `Pong` is told to the subscriber by the next poll when every poll that finds a new
version finds the receiver made and its last version not 0 (`told_of_change`).
-/

namespace KinVfs.Subscription

/-- Where the connection is: before the `Pong`, between `Pong` and `subscribe`, in the push loop, gone. -/
inductive Conn where
  | waiting
  | acked
  | subscribed
  | closed
  deriving DecidableEq, Repr

/-- The capacity of the broadcast channel. -/
def capacity : Nat := 64

structure State where
  /-- What `provider.version()` answers. -/
  version : Nat
  /-- `last_version` of the poller. -/
  last : Nat
  /-- What a poll has read and not yet compared. -/
  polled : Option Nat
  conn : Conn
  /-- Messages of the receiver that it has not taken. Every message is the empty list of paths. -/
  queued : Nat
  /-- `Invalidate` frames written to the client. -/
  written : Nat
  /-- History: the messages that were sent to the receiver. -/
  sent : Nat
  deriving DecidableEq, Repr

/-- A daemon that starts: the poller knows no version. -/
def State.init (version : Nat) : State := ⟨version, 0, none, .waiting, 0, 0, 0⟩

inductive Label where
  /-- The provider's version grows, as its contract says. -/
  | change (version : Nat)
  /-- `spawn_blocking(provider.version())`. -/
  | pollRead
  /-- The blocking task panics: the poll goes on with its last version. -/
  | pollPanics
  /-- The comparison, and the broadcast. -/
  | pollSend
  | pong
  | subscribe
  | recv
  /-- The client goes, a write fails, or the daemon shuts down. -/
  | close
  deriving DecidableEq, Repr

/-- A broadcast reaches the connection when it has a receiver. -/
def State.broadcast (s : State) : State :=
  if s.conn = .subscribed then { s with queued := s.queued + 1, sent := s.sent + 1 } else s

/-- A receiver that lags loses its oldest messages and goes on with those that are kept. -/
def State.take (s : State) : Option State :=
  if capacity < s.queued then some { s with queued := capacity }
  else if 0 < s.queued then some { s with queued := s.queued - 1, written := s.written + 1 }
  else none

def step (s : State) : Label → Option State
  | .change v => if s.version < v then some { s with version := v } else none
  | .pollRead => if s.polled = none then some { s with polled := some s.version } else none
  | .pollPanics => if s.polled = none then some { s with polled := some s.last } else none
  | .pollSend =>
    match s.polled with
    | none => none
    | some current =>
      let t := if current ≠ s.last ∧ s.last ≠ 0 then s.broadcast else s
      some { t with last := current, polled := none }
  | .pong => if s.conn = .waiting then some { s with conn := .acked } else none
  | .subscribe => if s.conn = .acked then some { s with conn := .subscribed } else none
  | .recv => if s.conn = .subscribed then s.take else none
  | .close => some { s with conn := .closed }

/-! ## What a subscriber is told, and the polls that tell it -/

/-- The client has its `Pong`, and the connection is open. -/
def State.Acked (s : State) : Prop := s.conn = .acked ∨ s.conn = .subscribed

/-- Since `s` a message was sent to the receiver; an `Invalidate` has been written or is to be. -/
def Told (s t : State) : Prop := s.sent < t.sent ∧ (s.written < t.written ∨ 0 < t.queued)

/-- The run goes through a change after the `Pong`, and ends with the end of a poll that began after
that. -/
structure PolledAfter (s : State) (ls : List Label) (t u : State) : Prop where
  path : ∃ before v mid during t₀ w w',
    ls = before ++ .change v :: (mid ++ .pollRead :: (during ++ [.pollSend])) ∧
    Runs.run step s before = some t₀ ∧ t₀.Acked ∧ step t₀ (.change v) = some t ∧
    Runs.run step t mid = some w ∧ step w .pollRead = some w' ∧ .pollSend ∉ during ∧
    Runs.run step w' (during ++ [.pollSend]) = some u
  opened : u.conn ≠ .closed

/-- A poll that finds a new version after the `Pong` finds the receiver made, and a last version that is
not 0. -/
def Ready (s : State) : Label → Prop
  | .pollSend => s.Acked → s.polled ≠ some s.last → s.conn = .subscribed ∧ s.last ≠ 0
  | _ => True

instance (s : State) : Decidable s.Acked := inferInstanceAs (Decidable (_ ∨ _))

instance (s : State) : ∀ l, Decidable (Ready s l)
  | .pollSend => inferInstanceAs (Decidable (s.Acked → s.polled ≠ some s.last → _))
  | .change _ | .pollRead | .pollPanics | .pong | .subscribe | .recv | .close =>
    inferInstanceAs (Decidable True)

variable {s t u : State} {l : Label} {ls : List Label}

/-! ## One step -/

/-- The poller is never ahead of the provider. -/
structure Ordered (s : State) : Prop where
  last : s.last ≤ s.version
  polled : ∀ c, s.polled = some c → c ≤ s.version

theorem broadcast_fields (s : State) :
    s.broadcast.version = s.version ∧ s.broadcast.last = s.last ∧ s.broadcast.polled = s.polled ∧
      s.broadcast.conn = s.conn ∧ s.broadcast.written = s.written := by
  unfold State.broadcast
  split <;> exact ⟨rfl, rfl, rfl, rfl, rfl⟩

/-- The end of a poll. -/
theorem step_pollSend (h : step s .pollSend = some t) :
    ∃ current, s.polled = some current ∧ t.version = s.version ∧ t.last = current ∧ t.polled = none ∧
      t.conn = s.conn ∧ t.written = s.written ∧
      (t.sent = s.sent ∧ t.queued = s.queued ∨ t.sent = s.sent + 1 ∧ t.queued = s.queued + 1) ∧
      (current ≠ s.last → s.last ≠ 0 → s.conn = .subscribed → t.sent = s.sent + 1) := by
  unfold step at h
  cases hp : s.polled with
  | none =>
    rw [hp] at h
    cases h
  | some current =>
    rw [hp] at h
    cases h
    refine ⟨current, rfl, ?_⟩
    by_cases hsend : current ≠ s.last ∧ s.last ≠ 0
    · rw [if_pos hsend]
      obtain ⟨hv, -, -, hc, hw⟩ := broadcast_fields s
      refine ⟨hv, rfl, rfl, hc, hw, ?_, ?_⟩
      · unfold State.broadcast
        split
        · exact .inr ⟨rfl, rfl⟩
        · exact .inl ⟨rfl, rfl⟩
      · intro _ _ hsub
        simp [State.broadcast, hsub]
    · rw [if_neg hsend]
      exact ⟨rfl, rfl, rfl, rfl, rfl, .inl ⟨rfl, rfl⟩, fun h₁ h₂ => absurd ⟨h₁, h₂⟩ hsend⟩

theorem Ordered.init (version : Nat) : Ordered (.init version) :=
  ⟨Nat.zero_le _, fun _ h => nomatch h⟩

/-- What a step does that does not end a poll. -/
structure Quiet (s t : State) : Prop where
  last : t.last = s.last
  version : s.version ≤ t.version
  sent : t.sent = s.sent
  written : s.written ≤ t.written
  /-- Messages go only to the client. -/
  queued : t.queued = s.queued ∨ 0 < t.queued ∨ s.written < t.written
  polled : ∀ c, t.polled = some c → s.polled = some c ∨ c = s.version ∨ c = s.last
  kept : ∀ c, s.polled = some c → t.polled = some c
  acked : s.Acked → t.Acked ∨ t.conn = .closed
  closed : s.conn = .closed → t.conn = .closed

theorem step_quiet (h : step s l = some t) (hl : l ≠ .pollSend) : Quiet s t := by
  cases l with
  | change v =>
    simp only [step] at h
    split at h
    · rename_i hv
      cases h
      exact ⟨rfl, Nat.le_of_lt hv, rfl, Nat.le_refl _, .inl rfl, fun _ hc => .inl hc, fun _ hc => hc, .inl, id⟩
    · cases h
  | pollRead =>
    simp only [step] at h
    split at h
    · rename_i hnone
      cases h
      refine ⟨rfl, Nat.le_refl _, rfl, Nat.le_refl _, .inl rfl, ?_, ?_, .inl, id⟩
      · intro c hc
        cases hc
        exact .inr (.inl rfl)
      · intro c hc
        rw [hnone] at hc
        cases hc
    · cases h
  | pollPanics =>
    simp only [step] at h
    split at h
    · rename_i hnone
      cases h
      refine ⟨rfl, Nat.le_refl _, rfl, Nat.le_refl _, .inl rfl, ?_, ?_, .inl, id⟩
      · intro c hc
        cases hc
        exact .inr (.inr rfl)
      · intro c hc
        rw [hnone] at hc
        cases hc
    · cases h
  | pollSend => exact absurd rfl hl
  | pong =>
    simp only [step] at h
    split at h
    · rename_i hconn
      cases h
      refine ⟨rfl, Nat.le_refl _, rfl, Nat.le_refl _, .inl rfl, fun _ hc => .inl hc, fun _ hc => hc, ?_, ?_⟩
      · exact fun _ => .inl (.inl rfl)
      · intro hclosed
        rw [hconn] at hclosed
        cases hclosed
    · cases h
  | subscribe =>
    simp only [step] at h
    split at h
    · rename_i hconn
      cases h
      refine ⟨rfl, Nat.le_refl _, rfl, Nat.le_refl _, .inl rfl, fun _ hc => .inl hc, fun _ hc => hc, ?_, ?_⟩
      · exact fun _ => .inl (.inr rfl)
      · intro hclosed
        rw [hconn] at hclosed
        cases hclosed
    · cases h
  | recv =>
    simp only [step] at h
    split at h
    · unfold State.take at h
      split at h
      · cases h
        exact ⟨rfl, Nat.le_refl _, rfl, Nat.le_refl _, .inr (.inl (show 0 < capacity by decide)), fun _ hc => .inl hc,
          fun _ hc => hc, .inl, id⟩
      · split at h
        · cases h
          exact ⟨rfl, Nat.le_refl _, rfl, Nat.le_succ _, .inr (.inr (Nat.lt_succ_self _)),
            fun _ hc => .inl hc, fun _ hc => hc, .inl, id⟩
        · cases h
    · cases h
  | close =>
    cases h
    exact ⟨rfl, Nat.le_refl _, rfl, Nat.le_refl _, .inl rfl, fun _ hc => .inl hc, fun _ hc => hc,
      fun _ => .inr rfl, fun _ => rfl⟩

theorem Ordered.step (ho : Ordered s) (h : step s l = some t) : Ordered t := by
  by_cases hl : l = .pollSend
  · subst hl
    obtain ⟨current, hp, hv, hlast, hnone, -⟩ := step_pollSend h
    refine ⟨?_, fun c hc => ?_⟩
    · rw [hlast, hv]
      exact ho.polled current hp
    · rw [hnone] at hc
      cases hc
  · have hq := step_quiet h hl
    have hlast := ho.last
    have hversion := hq.version
    refine ⟨by rw [hq.last]; omega, fun c hc => ?_⟩
    rcases hq.polled c hc with hp | rfl | rfl
    · have hle := ho.polled c hp
      omega
    · exact hversion
    · omega

/-! ## After a change -/

/-- `s₀` is the state right after a change to `v`: the subscriber has been told, or no poll has seen the
change. -/
structure Since (v : Nat) (s₀ s : State) : Prop where
  version : v ≤ s.version
  sent : s₀.sent ≤ s.sent
  written : s₀.written ≤ s.written
  acked : s.Acked ∨ s.conn = .closed
  told : s.conn ≠ .closed → Told s₀ s ∨ s.last < v

variable {s₀ : State} {v : Nat}

theorem Told.quiet (h : Told s₀ s) (hw : s₀.written ≤ s.written) (hq : Quiet s t) : Told s₀ t := by
  obtain ⟨hsent, hout⟩ := h
  have hwritten := hq.written
  refine ⟨by rw [hq.sent]; exact hsent, ?_⟩
  rcases hq.queued with heq | hpos | hmore
  · rw [heq]
    exact hout.imp (fun h => by omega) id
  · exact .inr hpos
  · exact .inl (by omega)

theorem Since.step_pollSend (h : Since v s₀ s) (hready : Ready s .pollSend)
    (hstep : step s .pollSend = some t) : Since v s₀ t := by
  obtain ⟨current, hp, hv, hlast, -, hconn, hwritten, hcount, hsends⟩ :=
    Subscription.step_pollSend hstep
  have hold := h.sent
  refine ⟨by rw [hv]; exact h.version, by omega, by rw [hwritten]; exact h.written, ?_, ?_⟩
  · rcases h.acked with hack | hclosed
    · exact .inl (hack.imp (hconn.trans ·) (hconn.trans ·))
    · exact .inr (hconn.trans hclosed)
  · intro hopen
    rw [hconn] at hopen
    rcases h.told hopen with ⟨hsent, hout⟩ | hlt
    · exact .inl ⟨by omega, hout.imp (fun h => by omega) (fun h => by omega)⟩
    · by_cases hsame : current = s.last
      · right
        omega
      · -- The poll finds a new version: it broadcasts, and the receiver is there.
        left
        obtain ⟨hsub, hzero⟩ := hready (h.acked.resolve_right hopen) (by rw [hp]; simpa using hsame)
        have hmore := hsends hsame hzero hsub
        exact ⟨by omega, .inr (by omega)⟩

theorem Since.step (h : Since v s₀ s) (hready : Ready s l) (hstep : step s l = some t) :
    Since v s₀ t := by
  by_cases hl : l = .pollSend
  · subst hl
    exact h.step_pollSend hready hstep
  · have hq := step_quiet hstep hl
    have hwritten := hq.written
    have hversion := hq.version
    have hv := h.version
    have hw := h.written
    refine ⟨by omega, by rw [hq.sent]; exact h.sent, by omega, ?_, fun hopen => ?_⟩
    · rcases h.acked with hack | hclosed
      · exact hq.acked hack
      · exact .inr (hq.closed hclosed)
    · rw [hq.last]
      exact (h.told fun hclosed => hopen (hq.closed hclosed)).imp (·.quiet hw hq) id

theorem Since.run (h : Since v s₀ s) (hm : Runs.Meets Subscription.step Ready s ls)
    (hr : Runs.run Subscription.step s ls = some t) : Since v s₀ t :=
  Runs.run_inv_of_meets (fun _ _ _ hs hl hstep => hs.step hl hstep) h hm hr

/-- What a poll has read stays until the poll ends. -/
theorem polled_kept {c : Nat} (h : Runs.run step s ls = some t) (hls : .pollSend ∉ ls)
    (hp : s.polled = some c) : t.polled = some c := by
  induction ls generalizing s with
  | nil =>
    cases h
    exact hp
  | cons l ls ih =>
    obtain ⟨u, hu, h⟩ := Runs.run_cons_eq_some.mp h
    rw [List.mem_cons, not_or] at hls
    exact ih h hls.2 ((step_quiet hu fun hl => hls.1 hl.symm).kept c hp)

/-- Every change after the `Pong` is told by the next poll. -/
theorem told_of_change {version : Nat} (hm : Runs.Meets step Ready (.init version) ls)
    (hp : PolledAfter (.init version) ls t u) : Told t u := by
  obtain ⟨before, v, mid, during, t₀, w, w', rfl, hbefore, hacked, hchange, hmid, hread, hduring, hend⟩ :=
    hp.path
  have ho : Ordered t₀ := Runs.run_inv (fun _ _ _ ho h => ho.step h) (Ordered.init version) hbefore
  obtain ⟨-, hm⟩ := hm.append hbefore
  obtain ⟨hmid', hm⟩ := (hm.2 t hchange).append hmid
  have hm := hm.2 w' hread
  have hstart : Since v t t := by
    have hq := step_quiet hchange (by simp)
    have hlast := ho.last
    simp only [Subscription.step] at hchange
    split at hchange
    · rename_i hv
      cases hchange
      exact ⟨Nat.le_refl _, Nat.le_refl _, Nat.le_refl _, .inl hacked, fun _ => .inr (by
        show t₀.last < v
        omega)⟩
    · cases hchange
  have hw : Since v t w := hstart.run hmid' hmid
  have hu : Since v t u := (hw.step (show Ready w .pollRead from trivial) hread).run hm hend
  -- The poll that ends here has read `v` or a later version.
  have hpolled : w'.polled = some w.version := by
    simp only [Subscription.step] at hread
    split at hread
    · cases hread
      rfl
    · cases hread
  rw [Runs.run_append, Option.bind_eq_some_iff] at hend
  obtain ⟨x, hx, hlast⟩ := hend
  obtain ⟨y, hy, hnil⟩ := Runs.run_cons_eq_some.mp hlast
  cases hnil
  obtain ⟨current, hcurrent, -, hfinal, -⟩ := Subscription.step_pollSend hy
  rw [polled_kept hx hduring hpolled] at hcurrent
  cases hcurrent
  have hv := hw.version
  refine (hu.told hp.opened).resolve_right ?_
  omega

/-- The client subscribes, and the version grows from 5 to 6. -/
theorem told_of_change_subscribed : ∃ t u,
    PolledAfter (.init 5) [.pollRead, .pollSend, .pong, .subscribe, .change 6, .pollRead, .pollSend] t u ∧
      Told t u := by
  have hp : PolledAfter (.init 5)
      [.pollRead, .pollSend, .pong, .subscribe, .change 6, .pollRead, .pollSend]
      ⟨6, 5, none, .subscribed, 0, 0, 0⟩ ⟨6, 6, none, .subscribed, 1, 0, 1⟩ :=
    ⟨⟨[.pollRead, .pollSend, .pong, .subscribe], 6, [], [], _, _, _, rfl, rfl, .inr rfl, rfl, rfl, rfl,
      List.not_mem_nil, rfl⟩, by decide⟩
  exact ⟨_, _, hp, told_of_change (by decide) hp⟩

/-- The version grows between the `Pong` and the `subscribe`, and the poll that sees it comes before the
`subscribe` too. -/
theorem change_missed : ∃ t u,
    PolledAfter (.init 5) [.pollRead, .pollSend, .pong, .change 6, .pollRead, .pollSend] t u ∧
      ¬ Told t u ∧ Runs.run step u [.subscribe, .pollRead, .pollSend, .recv] = none := by
  refine ⟨⟨6, 5, none, .acked, 0, 0, 0⟩, ⟨6, 6, none, .acked, 0, 0, 0⟩, ⟨⟨[.pollRead, .pollSend, .pong], 6,
    [], [], _, _, _, rfl, rfl, .inl rfl, rfl, rfl, rfl, List.not_mem_nil, rfl⟩, by decide⟩, ?_, by decide⟩
  rintro ⟨hsent, -⟩
  exact absurd hsent (by decide)

end KinVfs.Subscription
