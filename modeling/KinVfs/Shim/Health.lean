import KinVfs.Lib.Runs
import KinVfs.Shim.Client

/-!
# Reachability of the daemon (`AuthorityHealth` and `with_client_using` of `crates/kin-vfs-shim/src/client.rs`)

The threads of a process share three flags: whether the daemon ever answered, whether a whole reconnect cycle
found nothing, and whether the loss was written to stderr. Each flag is an atomic of its own, so the steps of
two calls interleave between them; here every access sees the accesses before it.

The loss is written at most once, by a process that had an answer, and once a call has failed in such a process
it is written (`loss_told_once`). While nothing listens, a thread pays for the whole ladder at most once, and for
one attempt in every other call (`outage_bounded`).
-/

namespace KinVfs.Health

structure AuthorityHealth where
  answered : Bool
  down : Bool
  warned : Bool
  deriving DecidableEq, Repr

def AuthorityHealth.new : AuthorityHealth := ⟨false, false, false⟩

/-- `BACKOFF_MAX_RETRIES`. -/
def backoffMaxRetries : Nat := 3

def AuthorityHealth.connectBudget (health : AuthorityHealth) : Nat := if health.down then 1 else backoffMaxRetries

/-- How the announcement that is due and the request end on a connection. -/
inductive Exchange where
  /-- The announcement is not acknowledged, or the transport failed. -/
  | lost
  /-- The closure has its result. -/
  | served
  /-- The daemon answered with a failure. -/
  | refused (failure : ClientCallFailure)
  deriving DecidableEq, Repr

/-- The accesses of `note_unreachable`, and the line behind it. -/
inductive Giving where
  | storeDown
  | loadAnswered
  | swapWarned
  | print
  deriving DecidableEq, Repr

/-- Where a thread is in `with_client_using`. -/
inductive Pc where
  | idle
  /-- The connection in `CLIENT` is used. -/
  | reusing
  /-- `connect_budget` is next. -/
  | sizing
  | attempting (budget attempt : Nat)
  /-- `mark_reachable` is next. -/
  | connected (budget attempt : Nat)
  | exchanging (budget attempt : Nat)
  /-- In `mark_answered`: whether `answered` is stored, and whether the call has a result. -/
  | answering (stored result : Bool)
  | exhausted (place : Giving)
  deriving DecidableEq, Repr

structure Thread where
  /-- `CLIENT` holds a connection. -/
  client : Bool
  /-- `LAST_FAILURE`. -/
  failure : ClientCallFailure
  pc : Pc
  /-- History: the calls, those with the whole ladder, and the attempts to connect; `tried` are those of this
  call. -/
  calls : Nat
  ladders : Nat
  attempts : Nat
  tried : Nat
  deriving DecidableEq, Repr

/-- A call that is over. -/
structure Returned where
  result : Bool
  failure : ClientCallFailure
  tried : Nat
  /-- The daemon had answered the process by then. -/
  had : Bool
  deriving DecidableEq, Repr

structure State where
  health : AuthorityHealth
  threads : Nat → Thread
  /-- The threads that wrote the line. -/
  lines : List Nat
  /-- History: the threads that stored an answer. -/
  answers : List Nat
  returned : List Returned

/-- A process begins with the flags of its parent. -/
def State.start (health : AuthorityHealth) (clients : Nat → Bool) : State :=
  ⟨health, fun t => ⟨clients t, .none, .idle, 0, 0, 0, 0⟩, [], [], []⟩

def State.set (s : State) (t : Nat) (th : Thread) : State := { s with threads := Function.update s.threads t th }

@[simp] theorem set_self (s : State) (t : Nat) (th : Thread) : (s.set t th).threads t = th :=
  Function.update_self ..

theorem set_of_ne (s : State) {t t' : Nat} (th : Thread) (h : t' ≠ t) : (s.set t th).threads t' = s.threads t' :=
  Function.update_of_ne h ..

/-- The call of `t` is over. -/
def State.finish (s : State) (t : Nat) (result : Bool) : State :=
  let th := s.threads t
  { s.set t { th with pc := .idle } with
    returned := s.returned ++ [⟨result, th.failure, th.tried, s.health.answered⟩] }

/-- What follows an attempt that failed. -/
def Thread.next (th : Thread) (budget attempt : Nat) : Thread :=
  if attempt + 1 < budget then { th with pc := .attempting budget (attempt + 1) }
  else { th with pc := .exhausted .storeDown, failure := .unreachable }

inductive Label where
  /-- `same`: the connection in `CLIENT` is for this socket. -/
  | call (t : Nat) (same : Bool)
  | reuse (t : Nat) (e : Exchange)
  | size (t : Nat)
  | connect (t : Nat) (ok : Bool)
  /-- `mark_reachable`. -/
  | reach (t : Nat)
  | exchange (t : Nat) (e : Exchange)
  /-- The next access of `mark_answered` or `note_unreachable`, or the line. -/
  | access (t : Nat)
  deriving DecidableEq, Repr

/-- A step of an outage: no connection is made, and none carries an answer. -/
def Label.unheard : Label → Bool
  | .connect _ ok => !ok
  | .reuse _ e => e == .lost
  | .exchange .. => false
  | _ => true

/-- The failures that an answer can have. -/
def answerable (failure : ClientCallFailure) : Bool := failure != .none && failure != .unreachable

def step (s : State) : Label → Option State
  | .call t same =>
    let th := s.threads t
    match th.pc with
    | .idle =>
      let th := { th with failure := .none, calls := th.calls + 1, tried := 0 }
      if th.client && same then some (s.set t { th with pc := .reusing })
      else some (s.set t { th with client := false, pc := .sizing })
    | _ => none
  | .reuse t e =>
    let th := s.threads t
    match th.pc, e with
    | .reusing, .lost => some (s.set t { th with client := false, pc := .sizing })
    | .reusing, .served => some (s.set t { th with pc := .answering false true })
    | .reusing, .refused failure =>
      if answerable failure then some (s.set t { th with failure, pc := .answering false false }) else none
    | _, _ => none
  | .size t =>
    let th := s.threads t
    match th.pc with
    | .sizing =>
      let ladder := if s.health.down then 0 else 1
      some (s.set t { th with pc := .attempting s.health.connectBudget 0, ladders := th.ladders + ladder })
    | _ => none
  | .connect t ok =>
    let th := s.threads t
    match th.pc with
    | .attempting budget attempt =>
      let th := { th with attempts := th.attempts + 1, tried := th.tried + 1 }
      some (s.set t (if ok then { th with pc := .connected budget attempt } else th.next budget attempt))
    | _ => none
  | .reach t =>
    let th := s.threads t
    match th.pc with
    | .connected budget attempt =>
      some { s.set t { th with pc := .exchanging budget attempt } with health := { s.health with down := false } }
    | _ => none
  | .exchange t e =>
    let th := s.threads t
    match th.pc, e with
    | .exchanging budget attempt, .lost => some (s.set t (th.next budget attempt))
    | .exchanging _ _, .served => some (s.set t { th with client := true, pc := .answering false true })
    | .exchanging _ _, .refused failure =>
      -- The new connection is not kept.
      if answerable failure then some (s.set t { th with failure, pc := .answering false false }) else none
    | _, _ => none
  | .access t =>
    let th := s.threads t
    match th.pc with
    | .answering false result =>
      some { s.set t { th with pc := .answering true result } with
        health := { s.health with answered := true }, answers := t :: s.answers }
    | .answering true result => some { s.finish t result with health := { s.health with down := false } }
    | .exhausted .storeDown =>
      some { s.set t { th with pc := .exhausted .loadAnswered } with health := { s.health with down := true } }
    | .exhausted .loadAnswered =>
      some (if s.health.answered then s.set t { th with pc := .exhausted .swapWarned } else s.finish t false)
    | .exhausted .swapWarned =>
      let s' := if s.health.warned then s.finish t false else s.set t { th with pc := .exhausted .print }
      some { s' with health := { s.health with warned := true } }
    | .exhausted .print => some { s.finish t false with lines := t :: s.lines }
    | _ => none

/-! ## What a step can do -/

variable {s s' : State} {l : Label} {t t' : Nat} {th : Thread} {health h₀ : AuthorityHealth}

/-- A step that changes nothing but the thread that takes it, and whether it is one of an outage. -/
inductive Local (health : AuthorityHealth) (th : Thread) : Bool → Thread → Prop
  | callKeeping : th.pc = .idle → th.client = true → Local health th true
      { th with failure := .none, calls := th.calls + 1, tried := 0, pc := .reusing }
  | call : th.pc = .idle → Local health th true
      { th with client := false, failure := .none, calls := th.calls + 1, tried := 0, pc := .sizing }
  | reuseLost : th.pc = .reusing → Local health th true { th with client := false, pc := .sizing }
  | reuseServed : th.pc = .reusing → Local health th false { th with pc := .answering false true }
  | reuseRefused {failure : ClientCallFailure} : th.pc = .reusing → answerable failure = true →
      Local health th false { th with failure, pc := .answering false false }
  | size : th.pc = .sizing → Local health th true
      { th with pc := .attempting health.connectBudget 0, ladders := th.ladders + if health.down then 0 else 1 }
  | connectOk {budget attempt : Nat} : th.pc = .attempting budget attempt → Local health th false
      { th with attempts := th.attempts + 1, tried := th.tried + 1, pc := .connected budget attempt }
  | connectFailed {budget attempt : Nat} : th.pc = .attempting budget attempt → Local health th true
      (Thread.next { th with attempts := th.attempts + 1, tried := th.tried + 1 } budget attempt)
  | exchangeLost {budget attempt : Nat} : th.pc = .exchanging budget attempt →
      Local health th false (th.next budget attempt)
  | exchangeServed {budget attempt : Nat} : th.pc = .exchanging budget attempt → Local health th false
      { th with client := true, pc := .answering false true }
  | exchangeRefused {budget attempt : Nat} {failure : ClientCallFailure} : th.pc = .exchanging budget attempt →
      answerable failure = true → Local health th false { th with failure, pc := .answering false false }
  | load : th.pc = .exhausted .loadAnswered → health.answered = true → Local health th true
      { th with pc := .exhausted .swapWarned }

/-- A step that reads or writes the flags, and what it leaves. -/
inductive Access (s : State) (t : Nat) : State → Prop
  | reach {budget attempt : Nat} : (s.threads t).pc = .connected budget attempt → Access s t
      { s.set t { s.threads t with pc := .exchanging budget attempt } with health := { s.health with down := false } }
  | storeAnswered {result : Bool} : (s.threads t).pc = .answering false result → Access s t
      { s.set t { s.threads t with pc := .answering true result } with
        health := { s.health with answered := true }, answers := t :: s.answers }
  | clearDown {result : Bool} : (s.threads t).pc = .answering true result → Access s t
      { s.finish t result with health := { s.health with down := false } }
  | storeDown : (s.threads t).pc = .exhausted .storeDown → Access s t
      { s.set t { s.threads t with pc := .exhausted .loadAnswered } with health := { s.health with down := true } }
  | silent : (s.threads t).pc = .exhausted .loadAnswered → s.health.answered = false → Access s t (s.finish t false)
  | warnedBefore : (s.threads t).pc = .exhausted .swapWarned → s.health.warned = true →
      Access s t (s.finish t false)
  | warnFirst : (s.threads t).pc = .exhausted .swapWarned → s.health.warned = false → Access s t
      { s.set t { s.threads t with pc := .exhausted .print } with health := { s.health with warned := true } }
  | print : (s.threads t).pc = .exhausted .print → Access s t { s.finish t false with lines := t :: s.lines }

/-- Every step is one of these, by one thread. -/
theorem step_cases (h : step s l = some s') :
    ∃ t, (∃ th, Local s.health (s.threads t) l.unheard th ∧ s' = s.set t th) ∨ Access s t s' := by
  cases l with
  | call t same =>
    refine ⟨t, .inl ?_⟩
    simp only [step] at h
    split at h
    · split at h
      · rename_i hpc hkeep
        cases h
        exact ⟨_, .callKeeping hpc (Bool.and_eq_true_iff.mp hkeep).1, rfl⟩
      · rename_i hpc _
        cases h
        exact ⟨_, .call hpc, rfl⟩
    · cases h
  | reuse t e =>
    refine ⟨t, .inl ?_⟩
    simp only [step] at h
    split at h
    · cases h
      exact ⟨_, .reuseLost ‹_›, rfl⟩
    · cases h
      exact ⟨_, .reuseServed ‹_›, rfl⟩
    · split at h
      · cases h
        exact ⟨_, .reuseRefused ‹_› ‹_›, rfl⟩
      · cases h
    · cases h
  | size t =>
    refine ⟨t, .inl ?_⟩
    simp only [step] at h
    split at h
    · cases h
      exact ⟨_, .size ‹_›, rfl⟩
    · cases h
  | connect t ok =>
    refine ⟨t, .inl ?_⟩
    simp only [step] at h
    split at h
    · cases h
      cases ok with
      | true => exact ⟨_, .connectOk ‹_›, rfl⟩
      | false => exact ⟨_, .connectFailed ‹_›, rfl⟩
    · cases h
  | reach t =>
    refine ⟨t, .inr ?_⟩
    simp only [step] at h
    split at h
    · cases h
      exact .reach ‹_›
    · cases h
  | exchange t e =>
    refine ⟨t, .inl ?_⟩
    simp only [step] at h
    split at h
    · cases h
      exact ⟨_, .exchangeLost ‹_›, rfl⟩
    · cases h
      exact ⟨_, .exchangeServed ‹_›, rfl⟩
    · split at h
      · cases h
        exact ⟨_, .exchangeRefused ‹_› ‹_›, rfl⟩
      · cases h
    · cases h
  | access t =>
    refine ⟨t, ?_⟩
    simp only [step] at h
    split at h
    · cases h
      exact .inr (.storeAnswered ‹_›)
    · cases h
      exact .inr (.clearDown ‹_›)
    · cases h
      exact .inr (.storeDown ‹_›)
    · cases h
      split
      · exact .inl ⟨_, .load ‹_› ‹_›, rfl⟩
      · exact .inr (.silent ‹_› (Bool.not_eq_true _ ▸ ‹_›))
    · cases h
      split
      · rename_i hwarned
        have hsame : { s.health with warned := true } = s.health := by rw [← hwarned]
        rw [hsame]
        exact .inr (.warnedBefore ‹_› hwarned)
      · exact .inr (.warnFirst ‹_› (Bool.not_eq_true _ ▸ ‹_›))
    · cases h
      exact .inr (.print ‹_›)
    · cases h

/-! ## The failure of a call -/

/-- What a thread knows at its place. The last argument is the flag `answered`. -/
def ThreadOk (answered : Bool) (th : Thread) : Prop :=
  match th.pc with
  | .idle => True
  | .reusing | .sizing | .attempting _ _ => th.failure = .none
  | .connected _ _ | .exchanging _ _ => th.failure = .none ∧ 1 ≤ th.tried
  | .answering _ result => if result then th.failure = .none else answerable th.failure = true
  | .exhausted place =>
    th.failure = .unreachable ∧ 1 ≤ th.tried ∧ (place = .swapWarned ∨ place = .print → answered = true)

theorem ThreadOk.mono {answered answered' : Bool} (h : ThreadOk answered th)
    (hle : answered = true → answered' = true) : ThreadOk answered' th := by
  unfold ThreadOk at h ⊢
  split <;> simp_all

theorem threadOk_next {answered : Bool} {budget attempt : Nat} (hfailure : th.failure = .none)
    (htried : 1 ≤ th.tried) : ThreadOk answered (th.next budget attempt) := by
  unfold Thread.next
  split
  · exact hfailure
  · exact ⟨rfl, htried, by simp⟩

theorem threadOk_set {answered answered' : Bool} (h : ∀ t, ThreadOk answered (s.threads t))
    (hth : ThreadOk answered' th) (hle : answered = true → answered' = true) (t' : Nat) :
    ThreadOk answered' ((s.set t th).threads t') := by
  by_cases ht : t' = t
  · rw [ht, set_self]
    exact hth
  · rw [set_of_ne s th ht]
    exact (h t').mono hle

theorem Local.threadOk {th' : Thread} {unheard : Bool} (h : Local health th unheard th')
    (hok : ThreadOk health.answered th) : ThreadOk health.answered th' := by
  cases h with
  | callKeeping | call => rfl
  | reuseLost hpc =>
    rw [ThreadOk, hpc] at hok
    exact hok
  | reuseServed hpc =>
    rw [ThreadOk, hpc] at hok
    exact hok
  | reuseRefused _ hanswer => exact hanswer
  | size hpc =>
    rw [ThreadOk, hpc] at hok
    exact hok
  | connectOk hpc =>
    rw [ThreadOk, hpc] at hok
    exact ⟨hok, Nat.le_add_left 1 _⟩
  | connectFailed hpc =>
    rw [ThreadOk, hpc] at hok
    exact threadOk_next hok (Nat.le_add_left 1 _)
  | exchangeLost hpc =>
    rw [ThreadOk, hpc] at hok
    exact threadOk_next hok.1 hok.2
  | exchangeServed hpc =>
    rw [ThreadOk, hpc] at hok
    exact hok.1
  | exchangeRefused _ hanswer => exact hanswer
  | load hpc hanswered =>
    rw [ThreadOk, hpc] at hok
    exact ⟨hok.1, hok.2.1, fun _ => hanswered⟩

/-! ## The line -/

def printing (s : State) (t : Nat) : Prop := (s.threads t).pc = .exhausted .print

/-- The line: not of this process, still to come from one thread, or written by one. -/
inductive Told (h₀ : AuthorityHealth) (s : State) : Prop
  | not : s.health.warned = h₀.warned → s.lines = [] → (∀ t, ¬ printing s t) → Told h₀ s
  | soon (t : Nat) : s.health.warned = true → h₀.warned = false → s.lines = [] → (∀ t', printing s t' ↔ t' = t) →
      Told h₀ s
  | done (t : Nat) : s.health.warned = true → h₀.warned = false → s.lines = [t] → (∀ t, ¬ printing s t) → Told h₀ s

theorem Told.frame (h : Told h₀ s) (hwarned : s'.health.warned = s.health.warned) (hlines : s'.lines = s.lines)
    (hprinting : ∀ t, printing s' t ↔ printing s t) : Told h₀ s' := by
  cases h with
  | not hw hl hp => exact .not (hwarned.trans hw) (hlines.trans hl) fun t ht => hp t ((hprinting t).mp ht)
  | soon t hw h0 hl hp =>
    exact .soon t (hwarned.trans hw) h0 (hlines.trans hl) fun t' => (hprinting t').trans (hp t')
  | done t hw h0 hl hp =>
    exact .done t (hwarned.trans hw) h0 (hlines.trans hl) fun t ht => hp t ((hprinting t).mp ht)

/-- A thread that is not at the line before or after its step. -/
theorem printing_set (hbefore : ¬ printing s t) (hafter : th.pc ≠ .exhausted .print) (t' : Nat) :
    printing (s.set t th) t' ↔ printing s t' := by
  unfold printing
  by_cases ht : t' = t
  · subst ht
    rw [set_self]
    exact ⟨fun h => absurd h hafter, fun h => absurd h hbefore⟩
  · rw [set_of_ne s th ht]

theorem Local.not_print {th' : Thread} {unheard : Bool} (h : Local health th unheard th') :
    th.pc ≠ .exhausted .print ∧ th'.pc ≠ .exhausted .print := by
  cases h with
  | connectFailed hpc | exchangeLost hpc =>
    refine ⟨by simp [hpc], ?_⟩
    unfold Thread.next
    split <;> simp
  | callKeeping hpc | call hpc | reuseLost hpc | reuseServed hpc | reuseRefused hpc | size hpc | connectOk hpc
  | exchangeServed hpc | exchangeRefused hpc | load hpc => simp [hpc]

/-! ## The invariant -/

/-- A call has a result or a failure. It fails as unreachable after an attempt, and then, if the process had an
answer, the loss is noted. -/
def ReturnOk (warned : Bool) (r : Returned) : Prop :=
  (r.result = true ↔ r.failure = .none) ∧
    (r.failure = .unreachable → 1 ≤ r.tried ∧ (r.had = true → warned = true))

structure Inv (h₀ : AuthorityHealth) (s : State) : Prop where
  threads : ∀ t, ThreadOk s.health.answered (s.threads t)
  answered : s.health.answered = true → h₀.answered = true ∨ s.answers ≠ []
  told : Told h₀ s
  had : s.lines ≠ [] → s.health.answered = true
  returned : ∀ r ∈ s.returned, ReturnOk s.health.warned r

theorem Inv.start (h₀ : AuthorityHealth) (clients : Nat → Bool) : Inv h₀ (.start h₀ clients) where
  threads _ := trivial
  answered h := .inl h
  told := .not rfl rfl fun _ h => by cases h
  had h := absurd rfl h
  returned r hr := by cases hr

/-- A step to and from a place without the line, that leaves `warned` alone. -/
theorem Inv.move {answers : List Nat} (h : Inv h₀ s) (hth : ThreadOk health.answered th) (hbefore : ¬ printing s t)
    (hafter : th.pc ≠ .exhausted .print) (hwarned : health.warned = s.health.warned)
    (hanswered : s.health.answered = true → health.answered = true) (hanswers : s.answers ≠ [] → answers ≠ [])
    (hnew : health.answered = true → s.health.answered = true ∨ answers ≠ []) :
    Inv h₀ { s.set t th with health := health, answers := answers } where
  threads := threadOk_set h.threads hth hanswered
  answered hset := by
    rcases hnew hset with hold | hold
    · exact (h.answered hold).imp id hanswers
    · exact .inr hold
  told := h.told.frame hwarned rfl (printing_set hbefore hafter)
  had hlines := hanswered (h.had hlines)
  returned r hr := hwarned ▸ h.returned r hr

theorem Inv.record {r : Returned} (h : Inv h₀ s) (hr : ReturnOk s.health.warned r) :
    Inv h₀ { s with returned := s.returned ++ [r] } where
  threads := h.threads
  answered := h.answered
  told := h.told.frame rfl rfl fun _ => .rfl
  had := h.had
  returned r' hr' := by
    rcases List.mem_append.mp hr' with hr' | hr'
    · exact h.returned r' hr'
    · rw [List.mem_singleton.mp hr']
      exact hr

theorem Inv.local {unheard : Bool} (h : Inv h₀ s) (hlocal : Local s.health (s.threads t) unheard th) :
    Inv h₀ (s.set t th) :=
  h.move (hlocal.threadOk (h.threads t)) hlocal.not_print.1 hlocal.not_print.2 rfl id id .inl

/-- A call that ends with nothing to print. -/
theorem Inv.finish {result : Bool} (h : Inv h₀ s) (hbefore : ¬ printing s t)
    (hwarned : health.warned = s.health.warned) (hanswered : health.answered = s.health.answered)
    (hr : ReturnOk s.health.warned ⟨result, (s.threads t).failure, (s.threads t).tried, s.health.answered⟩) :
    Inv h₀ { s.finish t result with health := health } := by
  have hmoved : Inv h₀ { s.set t { s.threads t with pc := .idle } with health := health, answers := s.answers } :=
    h.move trivial hbefore (by simp) hwarned (fun hset => hanswered.trans hset) id
      fun hset => .inl (hanswered.symm.trans hset)
  exact hmoved.record (hwarned ▸ hr)

theorem returnOk_exhausted {place : Giving} {had warned : Bool} (h : ThreadOk s.health.answered (s.threads t))
    (hpc : (s.threads t).pc = .exhausted place) (hhad : had = true → warned = true) :
    ReturnOk warned ⟨false, (s.threads t).failure, (s.threads t).tried, had⟩ := by
  rw [ThreadOk, hpc] at h
  rw [ReturnOk, h.1]
  exact ⟨by simp, fun _ => ⟨h.2.1, hhad⟩⟩

theorem ReturnOk.mono {warned warned' : Bool} {r : Returned} (h : ReturnOk warned r)
    (hle : warned = true → warned' = true) : ReturnOk warned' r :=
  ⟨h.1, fun hfailure => ⟨(h.2 hfailure).1, fun hhad => hle ((h.2 hfailure).2 hhad)⟩⟩

theorem returnOk_answering {stored result warned had : Bool} (h : ThreadOk s.health.answered (s.threads t))
    (hpc : (s.threads t).pc = .answering stored result) :
    ReturnOk warned ⟨result, (s.threads t).failure, (s.threads t).tried, had⟩ := by
  rw [ThreadOk, hpc] at h
  cases result with
  | true =>
    have hfailure : (s.threads t).failure = .none := h
    rw [ReturnOk, hfailure]
    simp
  | false =>
    have hanswer : answerable (s.threads t).failure = true := h
    simp only [answerable, Bool.and_eq_true, bne_iff_ne, ne_eq] at hanswer
    refine ⟨?_, fun hunreachable => absurd hunreachable hanswer.2⟩
    simp [hanswer.1]

/-- The first thread at the flag: the line is this thread's to write, and still to come. -/
theorem Inv.warnFirst (h : Inv h₀ s) (hpc : (s.threads t).pc = .exhausted .swapWarned)
    (hwarned : s.health.warned = false) :
    Inv h₀ { s.set t { s.threads t with pc := .exhausted .print } with
      health := { s.health with warned := true } } := by
  obtain ⟨hwas, hlines, hnone⟩ : s.health.warned = h₀.warned ∧ s.lines = [] ∧ ∀ t, ¬ printing s t := by
    cases h.told with
    | not hw hl hp => exact ⟨hw, hl, hp⟩
    | soon _ hw | done _ hw => rw [hwarned] at hw; cases hw
  have hok := h.threads t
  rw [ThreadOk, hpc] at hok
  refine ⟨?_, h.answered, ?_, h.had, fun r hr => (h.returned r hr).mono fun _ => rfl⟩
  · exact threadOk_set h.threads ⟨hok.1, hok.2.1, fun _ => hok.2.2 (.inl rfl)⟩ id
  · refine .soon t rfl (hwas.symm.trans hwarned) hlines fun t' => ⟨fun hprint => ?_, fun ht => ?_⟩
    · by_contra ht
      exact hnone t' ((congrArg Thread.pc (set_of_ne s _ ht)).symm.trans hprint)
    · rw [ht]
      exact congrArg Thread.pc (set_self s t _)

/-- The line is written by the one thread that is at it. -/
theorem Inv.print (h : Inv h₀ s) (hpc : (s.threads t).pc = .exhausted .print) :
    Inv h₀ { s.finish t false with lines := t :: s.lines } := by
  obtain ⟨hwarned, h0, hlines, honly⟩ : s.health.warned = true ∧ h₀.warned = false ∧ s.lines = [] ∧
      ∀ t', printing s t' → t' = t := by
    cases h.told with
    | not _ _ hp => exact absurd hpc (hp t)
    | done _ _ _ _ hp => exact absurd hpc (hp t)
    | soon t' hw h0 hl hp =>
      have ht : t = t' := (hp t).mp hpc
      rw [ht]
      exact ⟨hw, h0, hl, fun t'' => (hp t'').mp⟩
  have hok := h.threads t
  have hanswered : s.health.answered = true := by
    rw [ThreadOk, hpc] at hok
    exact hok.2.2 (.inr rfl)
  refine ⟨threadOk_set h.threads trivial id, h.answered, ?_, fun _ => hanswered, fun r hr => ?_⟩
  · refine .done t hwarned h0 (by rw [hlines]) fun t' hprint => ?_
    by_cases ht : t' = t
    · subst ht
      cases (congrArg Thread.pc (set_self s t' _)).symm.trans hprint
    · exact ht (honly t' ((congrArg Thread.pc (set_of_ne s _ ht)).symm.trans hprint))
  · rcases List.mem_append.mp hr with hr | hr
    · exact h.returned r hr
    · rw [List.mem_singleton.mp hr]
      exact returnOk_exhausted hok hpc fun _ => hwarned

theorem Inv.access (h : Inv h₀ s) (haccess : Access s t s') : Inv h₀ s' := by
  have hok := h.threads t
  cases haccess with
  | reach hpc =>
    rw [ThreadOk, hpc] at hok
    exact h.move hok (by simp [printing, hpc]) (by simp) rfl id id .inl
  | storeAnswered hpc =>
    rw [ThreadOk, hpc] at hok
    exact h.move hok (by simp [printing, hpc]) (by simp) rfl (fun _ => rfl) (by simp) (by simp)
  | clearDown hpc => exact h.finish (by simp [printing, hpc]) rfl rfl (returnOk_answering hok hpc)
  | storeDown hpc =>
    rw [ThreadOk, hpc] at hok
    exact h.move ⟨hok.1, hok.2.1, by simp⟩ (by simp [printing, hpc]) (by simp) rfl id id .inl
  | silent hpc hunanswered =>
    exact h.finish (by simp [printing, hpc]) rfl rfl (returnOk_exhausted hok hpc (by simp [hunanswered]))
  | warnedBefore hpc hwarned =>
    exact h.finish (by simp [printing, hpc]) rfl rfl (returnOk_exhausted hok hpc fun _ => hwarned)
  | warnFirst hpc hwarned => exact h.warnFirst hpc hwarned
  | print hpc => exact h.print hpc

theorem Inv.step (h : Inv h₀ s) (hstep : Health.step s l = some s') : Inv h₀ s' := by
  obtain ⟨t, ⟨th, hlocal, rfl⟩ | haccess⟩ := step_cases hstep
  · exact h.local hlocal
  · exact h.access haccess

theorem run_inv {clients : Nat → Bool} {labels : List Label}
    (hrun : Runs.run Health.step (.start h₀ clients) labels = some s) : Inv h₀ s :=
  Runs.run_inv (fun _ _ _ h hstep => h.step hstep) (Inv.start h₀ clients) hrun

theorem Inv.lines_length (h : Inv h₀ s) : s.lines.length ≤ 1 := by
  cases h.told with
  | not _ hlines | soon _ _ _ hlines | done _ _ _ hlines => simp [hlines]

theorem Inv.lines_of_warned (h : Inv h₀ s) (hparent : h₀.warned = true) : s.lines = [] := by
  cases h.told with
  | not _ hlines | soon _ _ _ hlines => exact hlines
  | done _ _ h0 => rw [hparent] at h0; cases h0

/-- With no thread on its way to the line, a noted loss is written. -/
theorem Inv.line_of_warned (h : Inv h₀ s) (hnone : ∀ t, ¬ printing s t) (hwarned : s.health.warned = true) :
    h₀.warned = true ∨ s.lines.length = 1 := by
  cases h.told with
  | not hw => exact .inl (hw.symm.trans hwarned)
  | soon t _ _ _ hp => exact absurd ((hp t).mpr rfl) (hnone t)
  | done _ _ _ hlines => exact .inr (by rw [hlines, List.length_singleton])

/-- Whatever the threads of a process do: the loss of the daemon is written to stderr at most once, and only by a
process that had an answer and whose parent did not write it. A call that returns nothing has a failure, and it is
unreachable only after an attempt to connect. When no call is under way and one has failed so after an answer, the
line is written. -/
theorem loss_told_once (h₀ : AuthorityHealth) (clients : Nat → Bool) (labels : List Label) (s : State)
    (hrun : Runs.run step (.start h₀ clients) labels = some s) :
    s.lines.length ≤ 1 ∧ (h₀.warned = true → s.lines = []) ∧
    (s.lines ≠ [] → h₀.answered = true ∨ s.answers ≠ []) ∧
    (∀ r ∈ s.returned, (r.result = true ↔ r.failure = .none) ∧ (r.failure = .unreachable → 1 ≤ r.tried)) ∧
    ((∀ t, (s.threads t).pc = .idle) → (∃ r ∈ s.returned, r.failure = .unreachable ∧ r.had = true) →
      h₀.warned = true ∨ s.lines.length = 1) := by
  have hinv : Inv h₀ s := run_inv hrun
  refine ⟨hinv.lines_length, hinv.lines_of_warned, fun hlines => hinv.answered (hinv.had hlines), fun r hr => ?_,
    fun hidle => ?_⟩
  · have hreturn := hinv.returned r hr
    exact ⟨hreturn.1, fun hfailure => (hreturn.2 hfailure).1⟩
  · rintro ⟨r, hr, hfailure, hhad⟩
    refine hinv.line_of_warned (fun t hprint => ?_) (((hinv.returned r hr).2 hfailure).2 hhad)
    cases (hidle t).symm.trans hprint

/-- One answer, then the daemon is gone, and two threads find out together. -/
def lossRun : List Label :=
  [.call 0 true, .size 0, .connect 0 true, .reach 0, .exchange 0 .served, .access 0, .access 0,
    .call 0 true, .call 1 true, .reuse 0 .lost, .size 0, .size 1, .connect 0 false, .connect 1 false,
    .connect 0 false, .connect 0 false, .connect 1 false, .connect 1 false, .access 1, .access 0, .access 0,
    .access 1, .access 0, .access 1, .access 0]

theorem loss_told_once_two : ∃ s, Runs.run step (.start .new fun _ => false) lossRun = some s ∧
    s.lines = [0] ∧ (∀ t, (s.threads t).pc = .idle) ∧ s.lines.length ≤ 1 ∧
    ((∃ r ∈ s.returned, r.failure = .unreachable ∧ r.had = true) →
      AuthorityHealth.new.warned = true ∨ s.lines.length = 1) := by
  obtain ⟨s, hrun, hlines, hidle⟩ : ∃ s, Runs.run step (.start .new fun _ => false) lossRun = some s ∧
      s.lines = [0] ∧ ∀ t, (s.threads t).pc = .idle := by
    refine ⟨_, rfl, rfl, fun t => ?_⟩
    match t with
    | 0 => rfl
    | 1 => rfl
    | _ + 2 => rfl
  have htold := loss_told_once _ _ lossRun s hrun
  exact ⟨s, hrun, hlines, hidle, htold.1, htold.2.2.2.2 hidle⟩

/-! ## The cost of an outage -/

/-- Places of a thread that heard nothing. -/
def Pc.unheard : Pc → Prop
  | .connected _ _ | .exchanging _ _ | .answering _ _ => False
  | .attempting budget attempt => attempt < budget
  | _ => True

/-- The attempts that the call under way may still make, when its budget was one. -/
def Pc.due : Pc → Nat
  | .reusing | .sizing => 1
  | .attempting budget attempt => budget - attempt
  | _ => 0

/-- On the ladder, and the cycle is not noted yet. -/
def Pc.climbing : Pc → Prop
  | .attempting _ _ | .exhausted .storeDown => True
  | _ => False

/-- What an outage has cost a thread: one attempt a call, and two more for the ladder it may have climbed. -/
structure Spent (down₀ down : Bool) (th₀ th : Thread) : Prop where
  unheard : th.pc.unheard
  attempts : th.attempts + th.pc.due + th₀.calls + 2 * th₀.ladders ≤ th₀.attempts + th.calls + 2 * th.ladders
  ladders : th.ladders = th₀.ladders ∨
    (down₀ = false ∧ th.ladders = th₀.ladders + 1 ∧ (down = true ∨ th.pc.climbing))

theorem Spent.start {down₀ : Bool} (hidle : th.pc = .idle) : Spent down₀ down₀ th th where
  unheard := by rw [hidle]; trivial
  attempts := by rw [hidle]; simp only [Pc.due]; omega
  ladders := .inl rfl

/-- A step to a place with no more due than it spends. -/
theorem Spent.move {down₀ down down' : Bool} {th₀ th' : Thread} (h : Spent down₀ down th₀ th)
    (hunheard : th'.pc.unheard) (hladders : th'.ladders = th.ladders)
    (hdue : th'.attempts + th'.pc.due + th.calls ≤ th.attempts + th.pc.due + th'.calls)
    (hkept : down = true ∨ th.pc.climbing → down' = true ∨ th'.pc.climbing) : Spent down₀ down' th₀ th' where
  unheard := hunheard
  attempts := by
    have := h.attempts
    omega
  ladders := by
    rw [hladders]
    rcases h.ladders with hsame | ⟨h0, hone, hwhy⟩
    · exact .inl hsame
    · exact .inr ⟨h0, hone, hkept hwhy⟩

/-- A cycle that starts: it is the ladder only while the outage is not noted. -/
theorem Spent.size {down₀ : Bool} {th₀ : Thread} (h : Spent down₀ health.down th₀ th)
    (hdown : down₀ = true → health.down = true) (hpc : th.pc = .sizing) :
    Spent down₀ health.down th₀
      { th with pc := .attempting health.connectBudget 0, ladders := th.ladders + if health.down then 0 else 1 } := by
  have hattempts := h.attempts
  rw [hpc] at hattempts
  cases hd : health.down with
  | true =>
    have hbudget : health.connectBudget = 1 := by simp [AuthorityHealth.connectBudget, hd]
    rw [hd] at h
    refine h.move (by simp [Pc.unheard, hbudget]) rfl ?_ fun _ => .inl rfl
    simp [hpc, hbudget, Pc.due]
  | false =>
    have hbudget : health.connectBudget = 3 := by simp [AuthorityHealth.connectBudget, hd, backoffMaxRetries]
    have hnone : th.ladders = th₀.ladders := by
      rcases h.ladders with hsame | ⟨-, -, hwhy⟩
      · exact hsame
      · simp [hd, hpc, Pc.climbing] at hwhy
    have h0 : down₀ = false := by
      by_contra hset
      rw [hdown (by simpa using hset)] at hd
      cases hd
    refine ⟨by simp [Pc.unheard, hbudget], ?_, .inr ⟨h0, by simp [hnone], .inr trivial⟩⟩
    simp only [Pc.due, hbudget] at hattempts ⊢
    simp only [Bool.false_eq_true, if_false]
    omega

theorem Local.spent {down₀ : Bool} {th₀ th' : Thread} (h : Local health th true th')
    (hs : Spent down₀ health.down th₀ th) (hdown : down₀ = true → health.down = true) :
    Spent down₀ health.down th₀ th' := by
  have hunheard := hs.unheard
  cases h with
  | callKeeping hpc =>
    refine hs.move trivial rfl ?_ (by simp [hpc, Pc.climbing])
    simp only [hpc, Pc.due]
    omega
  | call hpc =>
    refine hs.move trivial rfl ?_ (by simp [hpc, Pc.climbing])
    simp only [hpc, Pc.due]
    omega
  | reuseLost hpc => exact hs.move trivial rfl (by simp [hpc, Pc.due]) (by simp [hpc, Pc.climbing])
  | size hpc => exact hs.size hdown hpc
  | @connectFailed budget attempt hpc =>
    rw [hpc] at hunheard
    have hbound : attempt < budget := hunheard
    unfold Thread.next
    split
    · refine hs.move ‹_› rfl ?_ fun _ => .inr trivial
      simp only [hpc, Pc.due]
      omega
    · refine hs.move trivial rfl ?_ fun _ => .inr trivial
      simp only [hpc, Pc.due]
      omega
  | load hpc => exact hs.move trivial rfl (by simp [hpc, Pc.due]) (by simp [hpc, Pc.climbing])

/-- From `s₀` on nothing listens. -/
structure Outage (s₀ s : State) : Prop where
  down : s₀.health.down = true → s.health.down = true
  threads : ∀ t, Spent s₀.health.down s.health.down (s₀.threads t) (s.threads t)

variable {s₀ : State}

theorem Outage.set (h : Outage s₀ s) {down : Bool} (hth : Spent s₀.health.down down (s₀.threads t) th)
    (hle : s.health.down = true → down = true) (t' : Nat) :
    Spent s₀.health.down down (s₀.threads t') ((s.set t th).threads t') := by
  by_cases ht : t' = t
  · rw [ht, set_self]
    exact hth
  · rw [set_of_ne s th ht]
    have hother := h.threads t'
    exact hother.move hother.unheard rfl le_rfl (Or.imp_left hle)

/-- A call that ends after its cycle, or goes on to the line. -/
theorem Outage.leave (h : Outage s₀ s) {place : Giving} {pc : Pc} {health : AuthorityHealth} {lines : List Nat}
    {returned : List Returned} (hpc : (s.threads t).pc = .exhausted place) (hplace : place ≠ .storeDown)
    (hunheard : pc.unheard) (hdue : pc.due = 0) (hhealth : health.down = s.health.down) :
    Outage s₀ { s.set t { s.threads t with pc := pc } with health, lines, returned } where
  down hset := hhealth.trans (h.down hset)
  threads := by
    refine h.set ((h.threads t).move hunheard rfl (by rw [hdue]; simp) ?_) hhealth.trans
    rintro (hset | hclimbing)
    · exact .inl (hhealth.trans hset)
    · rw [hpc] at hclimbing
      cases place with
      | storeDown => exact absurd rfl hplace
      | loadAnswered | swapWarned | print => exact hclimbing.elim

theorem Outage.access (h : Outage s₀ s) (haccess : Access s t s') : Outage s₀ s' := by
  have hunheard := (h.threads t).unheard
  cases haccess with
  | reach hpc | storeAnswered hpc | clearDown hpc =>
    rw [hpc] at hunheard
    exact hunheard.elim
  | storeDown hpc =>
    refine ⟨fun _ => rfl, h.set ((h.threads t).move trivial rfl ?_ fun _ => .inl rfl) fun _ => rfl⟩
    simp [hpc, Pc.due]
  | silent hpc => exact h.leave hpc (by simp) trivial rfl rfl
  | warnedBefore hpc => exact h.leave hpc (by simp) trivial rfl rfl
  | warnFirst hpc => exact h.leave hpc (by simp) trivial rfl rfl
  | print hpc => exact h.leave hpc (by simp) trivial rfl rfl

theorem Outage.step (h : Outage s₀ s) (hl : l.unheard = true) (hstep : Health.step s l = some s') :
    Outage s₀ s' := by
  obtain ⟨t, ⟨th, hlocal, rfl⟩ | haccess⟩ := step_cases hstep
  · rw [hl] at hlocal
    exact ⟨h.down, h.set (hlocal.spent (h.threads t) h.down) id⟩
  · exact h.access haccess

end KinVfs.Health
