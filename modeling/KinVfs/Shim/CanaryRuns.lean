import KinVfs.Core.Canary
import KinVfs.Lib.Runs

/-!
# The canary between processes and the daemon (`intercept.rs`, `client.rs` of the shim, `server.rs` of the daemon)

Any number of processes with the shim, their threads, their forks, the connections they open and a daemon that
may be restarted, as a transition system. A process announces its token until it is acknowledged; a hook over
a surface that is not interposed reports the surface until that is acknowledged, and refuses the call until
then. The two latches are in the memory of the process, the evidence in the memory of the daemon. A request or
a reply may be lost, or be handled after its thread gave up.

`Stands` ties each acknowledgement to the ledger of the daemon that gave it: a call that was let through on
the word of the daemon that runs makes the verdict red (`verdict_truthful`). A restart empties the ledger and
not the latches, so what the daemon before it acknowledged is not reported again.
-/

namespace KinVfs.CanaryRuns

open Canary

/-- The surfaces that are hooked to be reported. -/
inductive Surface where
  | fopen
  | freopen
  | opendir
  | fdopendir
  | scandir
  | glob
  | ftw
  | nftw
  | ftsOpen
  deriving DecidableEq, Repr

/-- `UninterposedSurface::name`. -/
def Surface.name : Surface → String
  | .fopen => "fopen"
  | .freopen => "freopen"
  | .opendir => "opendir"
  | .fdopendir => "fdopendir"
  | .scandir => "scandir"
  | .glob => "glob"
  | .ftw => "ftw"
  | .nftw => "nftw"
  | .ftsOpen => "fts_open"

/-- What a hook does with a workspace path. -/
inductive SurfaceDisposition where
  | passthrough
  | refuse
  deriving DecidableEq, Repr

def workspaceSurfaceDisposition (strict acknowledged : Bool) : SurfaceDisposition :=
  if strict || !acknowledged then .refuse else .passthrough

/-- A process with the shim. Of a latch that is set, the daemon that acknowledged is kept as history. -/
structure Proc where
  /-- `canary_token`. -/
  token : Option String
  strict : Bool
  /-- `CANARY_ANNOUNCEMENT`. -/
  acknowledged : Option Nat
  /-- `reported` of each surface. -/
  reported : Surface → Option Nat

/-- `shim_init`: the token of the environment, and clear latches. -/
def Proc.init (raw : Option String) (strict : Bool) : Proc := ⟨normalizeToken raw, strict, none, fun _ => none⟩

/-- A connection to the daemon with this number, its last request and whether that was answered. -/
structure Conn where
  daemon : Nat
  last : Option (Canary.Call × Bool)

/-- Where a thread is in `report_interpose_bypass`, or in `announce_interpose_once` when there is no surface. -/
inductive Phase where
  /-- Before `connect`. -/
  | connecting (next : Option Surface)
  /-- In `ensure`, before the load of the latch. -/
  | connected (conn : Nat) (next : Option Surface)
  /-- The latch was clear. -/
  | announcing (conn : Nat) (next : Option Surface)
  | awaitAnnounce (conn : Nat) (next : Option Surface)
  /-- The announcement is acknowledged. -/
  | reporting (conn : Nat) (surface : Surface)
  | awaitReport (conn : Nat) (surface : Surface)

structure State where
  procs : Nat → Option Proc
  /-- The threads that are in a call, each with its process. -/
  threads : Nat → Option (Nat × Phase)
  conns : Nat → Option Conn
  nextConn : Nat
  /-- How often the daemon was restarted. -/
  daemon : Nat
  registry : Canary.Registry
  /-- History: the workspace paths let through to the host, by token and surface, with the daemon on whose
  acknowledgement that was done. -/
  passed : List (String × Surface × Nat)
  /-- History: the acknowledged announcements, with the daemon. -/
  acks : List (String × Nat)

def State.init : State := ⟨fun _ => none, fun _ => none, fun _ => none, 0, 0, .new, [], []⟩

inductive Label where
  /-- A process image starts with the shim. -/
  | start (p : Nat) (raw : Option String) (strict : Bool)
  /-- A copy of the memory of `p`. -/
  | fork (p q : Nat)
  | restart
  /-- The daemon handles a request of a launcher, or of anyone else. -/
  | request (call : Canary.Call)
  /-- A thread of `p` asks the graph something. -/
  | graphCall (k p : Nat)
  /-- A thread of `p` comes with a workspace path to a hook. -/
  | hook (k p : Nat) (surface : Surface)
  | connect (k : Nat)
  | load (k : Nat)
  | send (k : Nat)
  | handle (conn : Nat)
  | read (k : Nat)
  /-- A connection is refused, cut or timed out: the call gives up. -/
  | fail (k : Nat)

def State.setThread (s : State) (k : Nat) (t : Option (Nat × Phase)) : State :=
  { s with threads := Function.update s.threads k t }

def State.setProc (s : State) (p : Nat) (proc : Proc) : State :=
  { s with procs := Function.update s.procs p (some proc) }

def State.setConn (s : State) (c : Nat) (conn : Conn) : State :=
  { s with conns := Function.update s.conns c (some conn) }

/-- The end of a hook whose report daemon `i` has acknowledged. -/
def State.dispose (s : State) (proc : Proc) (t : String) (x : Surface) (i : Nat) : State :=
  match workspaceSurfaceDisposition proc.strict true with
  | .passthrough => { s with passed := (t, x, i) :: s.passed }
  | .refuse => s

/-- The thread goes on after an announcement that is acknowledged. -/
def State.announced (s : State) (k p c : Nat) : Option Surface → State
  | none => s.setThread k none
  | some x => s.setThread k (some (p, .reporting c x))

def step (s : State) : Label → Option State
  | .start p raw strict =>
    if s.procs p = none then some (s.setProc p (.init raw strict)) else none
  | .fork p q =>
    match s.procs p, s.procs q with
    | some proc, none => some (s.setProc q proc)
    | _, _ => none
  | .restart => some { s with daemon := s.daemon + 1, registry := .new }
  | .request call => some { s with registry := s.registry.apply call }
  | .graphCall k p =>
    match s.threads k, s.procs p with
    | none, some proc => if proc.token.isSome then some (s.setThread k (some (p, .connecting none))) else some s
    | _, _ => none
  | .hook k p x =>
    match s.threads k, s.procs p with
    | none, some proc =>
      match proc.token, proc.reported x with
      | none, _ => some s
      | some t, some i => some (s.dispose proc t x i)
      | some _, none => some (s.setThread k (some (p, .connecting (some x))))
    | _, _ => none
  | .connect k =>
    match s.threads k with
    | some (p, .connecting next) =>
      some { (s.setConn s.nextConn ⟨s.daemon, none⟩).setThread k (some (p, .connected s.nextConn next)) with
        nextConn := s.nextConn + 1 }
    | _ => none
  | .load k =>
    match s.threads k with
    | some (p, .connected c next) =>
      (s.procs p).map fun proc =>
        if proc.acknowledged.isSome then s.announced k p c next
        else s.setThread k (some (p, .announcing c next))
    | _ => none
  | .send k =>
    match s.threads k with
    | some (p, .announcing c next) =>
      ((s.procs p).bind Proc.token).bind fun t => (s.conns c).map fun conn =>
        (s.setConn c { conn with last := some (.confirm t, false) }).setThread k (some (p, .awaitAnnounce c next))
    | some (p, .reporting c x) =>
      ((s.procs p).bind Proc.token).bind fun t => (s.conns c).map fun conn =>
        (s.setConn c { conn with last := some (.recordBypass t x.name, false) }).setThread k
          (some (p, .awaitReport c x))
    | _ => none
  | .handle c =>
    match s.conns c with
    | some ⟨daemon, some (call, false)⟩ =>
      -- a connection ends with the daemon it was made to
      if daemon = s.daemon then
        some { s.setConn c ⟨daemon, some (call, true)⟩ with registry := s.registry.apply call }
      else none
    | _ => none
  | .read k =>
    match s.threads k with
    | some (p, .awaitAnnounce c next) =>
      match s.procs p, s.conns c with
      | some proc, some ⟨daemon, some (_, true)⟩ =>
        proc.token.map fun t =>
          ({ s with acks := (t, daemon) :: s.acks }.setProc p { proc with acknowledged := some daemon }).announced
            k p c next
      | _, _ => none
    | some (p, .awaitReport c x) =>
      match s.procs p, s.conns c with
      | some proc, some ⟨daemon, some (_, true)⟩ =>
        proc.token.map fun t =>
          ((s.setProc p { proc with reported := Function.update proc.reported x (some daemon) }).setThread k
            none).dispose proc t x daemon
      | _, _ => none
    | _ => none
  | .fail k => if (s.threads k).isSome then some (s.setThread k none) else none

/-! ## What an acknowledgement says -/

/-- The canonical form, as the shim sends it. -/
def Plain : Canary.Call → Prop
  | .expect t | .confirm t => normalizeToken (some t) = some t
  | .recordBypass t x => normalizeToken (some t) = some t ∧ normalizeSurface x = some x

/-- A plain call is in the ledger. -/
def Recorded (r : Canary.Registry) : Canary.Call → Prop
  | .expect t => t ∈ r.expected
  | .confirm t => t ∈ r.confirmed
  | .recordBypass t _ => (r.bypassed t).isSome = true

/-- A call that daemon `i` has taken is in its ledger for as long as it runs. -/
def Stands (s : State) (i : Nat) (call : Canary.Call) : Prop :=
  i ≤ s.daemon ∧ (i = s.daemon → Recorded s.registry call)

variable {s s' : State} {l : Label} {ls : List Label} {r : Canary.Registry} {call : Canary.Call} {t : String} {i : Nat}

theorem normalizeSurface_name (x : Surface) : normalizeSurface x.name = some x.name := by cases x <;> decide

theorem recorded_apply (c : Canary.Call) (h : Recorded r call) : Recorded (r.apply c) call := by
  cases call with
  | expect t => exact (expected_apply c).mpr (.inl h)
  | confirm t => exact (confirmed_apply c).mpr (.inl h)
  | recordBypass t x =>
    rw [Recorded, bypassed_apply]
    cases c.reports t with
    | none => exact h
    | some y => rfl

theorem recorded_apply_self (h : Plain call) : Recorded (r.apply call) call := by
  cases call with
  | expect t =>
    rw [Plain] at h
    rw [Recorded, expected_apply, Canary.Call.expects]
    exact .inr h
  | confirm t =>
    rw [Plain] at h
    rw [Recorded, confirmed_apply, Canary.Call.confirms]
    exact .inr h
  | recordBypass t x =>
    rw [Plain] at h
    have hx : Canary.Call.reports t (.recordBypass t x) = some x := by rw [Canary.Call.reports, if_pos h.1, h.2]
    rw [Recorded, bypassed_apply, hx]
    rfl

/-- What a step does to the daemon: nothing, it takes a call, or it is started again. -/
def Served (s s' : State) : Prop :=
  s'.daemon = s.daemon ∧ (s'.registry = s.registry ∨ ∃ c, s'.registry = s.registry.apply c) ∨
    s'.daemon = s.daemon + 1

theorem Stands.of_served (hserved : Served s s') (h : Stands s i call) : Stands s' i call := by
  rcases hserved with ⟨hd, hr⟩ | hd
  · refine ⟨hd ▸ h.1, fun hi => ?_⟩
    have hrec := h.2 (hi.trans hd)
    rcases hr with hr | ⟨c, hr⟩
    · rwa [hr]
    · rw [hr]
      exact recorded_apply c hrec
  · have hle := h.1
    exact ⟨by omega, fun hi => by omega⟩

/-- The same daemon with the same ledger. -/
theorem Stands.congr (hd : s'.daemon = s.daemon) (hr : s'.registry = s.registry) (h : Stands s i call) :
    Stands s' i call :=
  h.of_served (.inl ⟨hd, .inl hr⟩)

/-! ## The invariant -/

/-- The connection that a thread uses. -/
def Phase.conn : Phase → Option Nat
  | .connecting _ => none
  | .connected c _ | .announcing c _ | .awaitAnnounce c _ | .reporting c _ | .awaitReport c _ => some c

/-- The request of a thread that waits for its reply. -/
def Phase.asked (t : String) : Phase → Option Canary.Call
  | .awaitAnnounce _ _ => some (.confirm t)
  | .awaitReport _ x => some (.recordBypass t x.name)
  | _ => none

/-- The announcement is behind the thread. -/
def Phase.reports : Phase → Bool
  | .reporting _ _ | .awaitReport _ _ => true
  | _ => false

/-- The latches of a process with token `t` are set by acknowledgements. -/
structure LatchOk (s : State) (proc : Proc) (t : String) : Prop where
  token : normalizeToken (some t) = some t
  acknowledged : ∀ i, proc.acknowledged = some i → (t, i) ∈ s.acks
  reported : ∀ x i, proc.reported x = some i →
    proc.acknowledged.isSome = true ∧ Stands s i (.recordBypass t x.name)

/-- A thread in a call has a token, and the connection it waits on carries its request. -/
structure ThreadOk (s : State) (p : Nat) (ph : Phase) (proc : Proc) (t : String) : Prop where
  found : s.procs p = some proc
  token : proc.token = some t
  reports : ph.reports = true → proc.acknowledged.isSome = true
  conn : ∀ c, ph.conn = some c → ∃ conn, s.conns c = some conn ∧
    ∀ call, ph.asked t = some call → ∃ b, conn.last = some (call, b)

structure ConnOk (s : State) (conn : Conn) : Prop where
  daemon : conn.daemon ≤ s.daemon
  plain : ∀ call b, conn.last = some (call, b) → Plain call
  answered : ∀ call, conn.last = some (call, true) → Stands s conn.daemon call

structure Inv (s : State) : Prop where
  latches : ∀ p proc t, s.procs p = some proc → proc.token = some t → LatchOk s proc t
  fresh : ∀ c, s.nextConn ≤ c → s.conns c = none
  conns : ∀ c conn, s.conns c = some conn → ConnOk s conn
  threads : ∀ k p ph, s.threads k = some (p, ph) → ∃ proc t, ThreadOk s p ph proc t
  owner : ∀ k k' p p' ph ph' c, s.threads k = some (p, ph) → s.threads k' = some (p', ph') →
    ph.conn = some c → ph'.conn = some c → k = k'
  acks : ∀ t i, (t, i) ∈ s.acks → normalizeToken (some t) = some t ∧ Stands s i (.confirm t)
  passed : ∀ t x i, (t, x, i) ∈ s.passed → Stands s i (.recordBypass t x.name) ∧ ∃ j, (t, j) ∈ s.acks

theorem Inv.init : Inv .init where
  latches := by simp [State.init]
  fresh := by simp [State.init]
  conns := by simp [State.init]
  threads := by simp [State.init]
  owner := by simp [State.init]
  acks := by simp [State.init]
  passed := by simp [State.init]

/-! ## The parts of a step keep it -/

section Parts

variable {k p c : Nat} {ph : Phase} {proc : Proc} {conn : Conn} {x : Surface}

/-- What the invariant says of a latch and of a connection outlives these steps. -/
structure Keeps (s s' : State) : Prop where
  served : Served s s'
  acks : s.acks ⊆ s'.acks

theorem Keeps.same (hd : s'.daemon = s.daemon) (hr : s'.registry = s.registry) (ha : s.acks ⊆ s'.acks) : Keeps s s' :=
  ⟨.inl ⟨hd, .inl hr⟩, ha⟩

theorem Keeps.daemon_le (h : Keeps s s') : s.daemon ≤ s'.daemon := by
  rcases h.served with ⟨hd, -⟩ | hd
  · exact Nat.le_of_eq hd.symm
  · exact hd.symm ▸ Nat.le_succ s.daemon

theorem LatchOk.mono (h : LatchOk s proc t) (hk : Keeps s s') : LatchOk s' proc t :=
  ⟨h.token, fun i hi => hk.acks (h.acknowledged i hi),
    fun x i hx => ⟨(h.reported x i hx).1, (h.reported x i hx).2.of_served hk.served⟩⟩

theorem ConnOk.mono (h : ConnOk s conn) (hk : Keeps s s') : ConnOk s' conn :=
  ⟨Nat.le_trans h.daemon hk.daemon_le, h.plain, fun call hcall => (h.answered call hcall).of_served hk.served⟩

/-- The daemon takes a call or is started again. -/
theorem Inv.serve {daemon : Nat} {registry : Canary.Registry} (h : Inv s)
    (hserved : Served s { s with daemon := daemon, registry := registry }) :
    Inv { s with daemon := daemon, registry := registry } where
  latches p proc t hp ht := (h.latches p proc t hp ht).mono ⟨hserved, List.Subset.refl _⟩
  fresh := h.fresh
  conns c conn hc := (h.conns c conn hc).mono ⟨hserved, List.Subset.refl _⟩
  threads k p ph hk := by
    obtain ⟨proc, t, hok⟩ := h.threads k p ph hk
    exact ⟨proc, t, hok.found, hok.token, hok.reports, hok.conn⟩
  owner := h.owner
  acks t i ht := ⟨(h.acks t i ht).1, (h.acks t i ht).2.of_served hserved⟩
  passed t x i ht := ⟨(h.passed t x i ht).1.of_served hserved, (h.passed t x i ht).2⟩

theorem threads_setThread {k' : Nat} {u : Nat × Phase} {v : Option (Nat × Phase)}
    (h : (s.setThread k v).threads k' = some u) : k' = k ∧ v = some u ∨ k' ≠ k ∧ s.threads k' = some u := by
  rw [State.setThread] at h
  by_cases hk : k' = k
  · subst hk
    exact .inl ⟨rfl, by simpa using h⟩
  · exact .inr ⟨hk, by simpa [Function.update_of_ne hk] using h⟩

/-- A call ends. -/
theorem Inv.dropThread (h : Inv s) (k : Nat) : Inv (s.setThread k none) where
  latches p proc t hp ht := (h.latches p proc t hp ht).mono (.same rfl rfl (List.Subset.refl _))
  fresh := h.fresh
  conns c conn hc := (h.conns c conn hc).mono (.same rfl rfl (List.Subset.refl _))
  threads k' p ph hk := by
    rcases threads_setThread hk with ⟨-, hnone⟩ | ⟨-, hk⟩
    · cases hnone
    · obtain ⟨proc, t, hok⟩ := h.threads k' p ph hk
      exact ⟨proc, t, hok.found, hok.token, hok.reports, hok.conn⟩
  owner k₁ k₂ p₁ p₂ ph₁ ph₂ c h₁ h₂ := by
    rcases threads_setThread h₁ with ⟨-, hnone⟩ | ⟨-, h₁⟩
    · cases hnone
    rcases threads_setThread h₂ with ⟨-, hnone⟩ | ⟨-, h₂⟩
    · cases hnone
    exact h.owner k₁ k₂ p₁ p₂ ph₁ ph₂ c h₁ h₂
  acks := h.acks
  passed := h.passed

/-- A thread that is in no call goes to a place whose connection no thread has. -/
theorem Inv.setThread (h : Inv s) (hok : ThreadOk s p ph proc t)
    (hfree : ∀ k' p' ph' c, s.threads k' = some (p', ph') → k' ≠ k → ph.conn = some c → ph'.conn ≠ some c) :
    Inv (s.setThread k (some (p, ph))) where
  latches p proc t hp ht := (h.latches p proc t hp ht).mono (.same rfl rfl (List.Subset.refl _))
  fresh := h.fresh
  conns c conn hc := (h.conns c conn hc).mono (.same rfl rfl (List.Subset.refl _))
  threads k' p' ph' hk := by
    rcases threads_setThread hk with ⟨-, hsome⟩ | ⟨-, hk⟩
    · cases hsome
      exact ⟨proc, t, hok.found, hok.token, hok.reports, hok.conn⟩
    · obtain ⟨proc', t', hok'⟩ := h.threads k' p' ph' hk
      exact ⟨proc', t', hok'.found, hok'.token, hok'.reports, hok'.conn⟩
  owner k₁ k₂ p₁ p₂ ph₁ ph₂ c h₁ h₂ hc₁ hc₂ := by
    rcases threads_setThread h₁ with ⟨hk₁, he₁⟩ | ⟨hne₁, hs₁⟩ <;>
      rcases threads_setThread h₂ with ⟨hk₂, he₂⟩ | ⟨hne₂, hs₂⟩
    · exact hk₁.trans hk₂.symm
    · cases he₁
      exact absurd hc₂ (hfree k₂ p₂ ph₂ c hs₂ hne₂ hc₁)
    · cases he₂
      exact absurd hc₁ (hfree k₁ p₁ ph₁ c hs₁ hne₁ hc₂)
    · exact h.owner k₁ k₂ p₁ p₂ ph₁ ph₂ c hs₁ hs₂ hc₁ hc₂
  acks := h.acks
  passed := h.passed

/-- A connection changes, and a thread that has it keeps its request. -/
theorem Inv.setConn (h : Inv s) (hc : c < s.nextConn) (hok : ConnOk s conn)
    (hkeep : ∀ k p ph, s.threads k = some (p, ph) → ph.conn = some c →
      ∀ old call b, s.conns c = some old → old.last = some (call, b) → ∃ b', conn.last = some (call, b')) :
    Inv (s.setConn c conn) where
  latches p proc t hp ht := (h.latches p proc t hp ht).mono (.same rfl rfl (List.Subset.refl _))
  fresh c' hc' := by
    have hne : c' ≠ c := by
      rintro rfl
      exact absurd hc (Nat.not_lt.mpr hc')
    simpa [State.setConn, Function.update_of_ne hne] using h.fresh c' hc'
  conns c' conn' hc' := by
    have hok' : ConnOk s conn' := by
      by_cases hne : c' = c
      · subst hne
        have heq : some conn = some conn' := by simpa [State.setConn] using hc'
        cases heq
        exact hok
      · exact h.conns c' conn' (by simpa [State.setConn, Function.update_of_ne hne] using hc')
    exact hok'.mono (.same rfl rfl (List.Subset.refl _))
  threads k p ph hk := by
    obtain ⟨proc, t, hth⟩ := h.threads k p ph hk
    refine ⟨proc, t, hth.found, hth.token, hth.reports, fun c' hc' => ?_⟩
    obtain ⟨old, hold, hasked⟩ := hth.conn c' hc'
    by_cases hne : c' = c
    · subst hne
      refine ⟨conn, Function.update_self .., fun call hcall => ?_⟩
      obtain ⟨b, hb⟩ := hasked call hcall
      exact hkeep k p ph hk hc' old call b hold hb
    · exact ⟨old, by simpa [State.setConn, Function.update_of_ne hne] using hold, hasked⟩
  owner := h.owner
  acks := h.acks
  passed := h.passed

/-- A process is new, or keeps its token and what it has acknowledged. -/
theorem Inv.setProc (h : Inv s) (hlatch : ∀ t, proc.token = some t → LatchOk s proc t)
    (hold : ∀ old, s.procs p = some old →
      proc.token = old.token ∧ (old.acknowledged.isSome = true → proc.acknowledged.isSome = true)) :
    Inv (s.setProc p proc) where
  latches p' proc' t hp ht := by
    have hok : LatchOk s proc' t := by
      by_cases hne : p' = p
      · subst hne
        have heq : some proc = some proc' := by simpa [State.setProc] using hp
        cases heq
        exact hlatch t ht
      · exact h.latches p' proc' t (by simpa [State.setProc, Function.update_of_ne hne] using hp) ht
    exact hok.mono (.same rfl rfl (List.Subset.refl _))
  fresh := h.fresh
  conns c conn hc := (h.conns c conn hc).mono (.same rfl rfl (List.Subset.refl _))
  threads k p' ph hk := by
    obtain ⟨proc', t, hth⟩ := h.threads k p' ph hk
    by_cases hne : p' = p
    · subst hne
      obtain ⟨htoken, hack⟩ := hold proc' hth.found
      exact ⟨proc, t, by simp [State.setProc], htoken.trans hth.token, fun hr => hack (hth.reports hr), hth.conn⟩
    · exact ⟨proc', t, by simpa [State.setProc, Function.update_of_ne hne] using hth.found, hth.token, hth.reports,
        hth.conn⟩
  owner := h.owner
  acks := h.acks
  passed := h.passed

/-- An acknowledged announcement is noted. -/
theorem Inv.ack (h : Inv s) (ht : normalizeToken (some t) = some t) (hi : Stands s i (.confirm t)) :
    Inv { s with acks := (t, i) :: s.acks } where
  latches p proc t hp ht := (h.latches p proc t hp ht).mono (.same rfl rfl (List.subset_cons_self _ _))
  fresh := h.fresh
  conns c conn hc := (h.conns c conn hc).mono (.same rfl rfl (List.subset_cons_self _ _))
  threads k p ph hk := by
    obtain ⟨proc, t, hok⟩ := h.threads k p ph hk
    exact ⟨proc, t, hok.found, hok.token, hok.reports, hok.conn⟩
  owner := h.owner
  acks u j hmem := by
    rcases List.mem_cons.mp hmem with heq | hmem
    · cases heq
      exact ⟨ht, hi⟩
    · exact h.acks u j hmem
  passed u x j hmem := by
    obtain ⟨hst, j', hj'⟩ := h.passed u x j hmem
    exact ⟨hst, j', List.mem_cons_of_mem _ hj'⟩

/-- A hook ends on the acknowledgement of daemon `i`. -/
theorem Inv.dispose (h : Inv s) (hi : Stands s i (.recordBypass t x.name)) (hack : ∃ j, (t, j) ∈ s.acks) :
    Inv (s.dispose proc t x i) := by
  unfold State.dispose
  split
  · exact
    { latches := fun p proc t hp ht => (h.latches p proc t hp ht).mono (.same rfl rfl (List.Subset.refl _))
      fresh := h.fresh
      conns := fun c conn hc => (h.conns c conn hc).mono (.same rfl rfl (List.Subset.refl _))
      threads := fun k p ph hk => by
        obtain ⟨proc, t, hok⟩ := h.threads k p ph hk
        exact ⟨proc, t, hok.found, hok.token, hok.reports, hok.conn⟩
      owner := h.owner
      acks := h.acks
      passed := fun u y j hmem => by
        rcases List.mem_cons.mp hmem with heq | hmem
        · cases heq
          exact ⟨hi, hack⟩
        · exact h.passed u y j hmem }
  · exact h

theorem Inv.conn_lt (h : Inv s) (hc : s.conns c = some conn) : c < s.nextConn := by
  by_contra hle
  rw [h.fresh c (Nat.not_lt.mp hle)] at hc
  cases hc

/-- A thread at a place with its connection has left it when the thread goes on. -/
theorem Inv.free_of_threads (h : Inv s) (hk : s.threads k = some (p, ph)) (hc : ph.conn = some c) :
    ∀ k' p' ph', (s.setThread k none).threads k' = some (p', ph') → ph'.conn ≠ some c := by
  intro k' p' ph' hk' hc'
  rcases threads_setThread hk' with ⟨-, hnone⟩ | ⟨hne, hs⟩
  · cases hnone
  · exact hne (h.owner k' k p' p ph' ph c hs hk hc' hc)

/-- A thread goes on with its connection. -/
theorem Inv.moveThread {ph' : Phase} (h : Inv s) (hk : s.threads k = some (p, ph)) (hconn : ph'.conn = ph.conn)
    (hok : ThreadOk s p ph' proc t) : Inv (s.setThread k (some (p, ph'))) := by
  refine h.setThread hok fun k' p' ph₁ c hs hne hc hc₁ => hne ?_
  rw [hconn] at hc
  exact h.owner k' k p' p ph₁ ph c hs hk hc₁ hc

/-- A thread sends a request on its connection. -/
theorem Inv.send {ph' : Phase} (h : Inv s) (hk : s.threads k = some (p, ph)) (hc : ph.conn = some c)
    (hc' : ph'.conn = some c) (hr : ph'.reports = ph.reports) (hok : ThreadOk s p ph proc t) (hconn : s.conns c = some conn)
    (hask : ph'.asked t = some call) (hplain : Plain call) :
    Inv ((s.setConn c { conn with last := some (call, false) }).setThread k (some (p, ph'))) := by
  have hcommute : (s.setConn c { conn with last := some (call, false) }).setThread k (some (p, ph')) =
      ((s.setThread k none).setConn c { conn with last := some (call, false) }).setThread k (some (p, ph')) := by
    simp [State.setConn, State.setThread]
  rw [hcommute]
  have hdrop : Inv ((s.setThread k none).setConn c { conn with last := some (call, false) }) :=
    (h.dropThread k).setConn (h.conn_lt hconn)
      ⟨(h.conns c conn hconn).daemon, by rintro _ _ ⟨⟩; exact hplain, by rintro _ ⟨⟩⟩
      fun k' p' ph' hs hc' => absurd hc' (h.free_of_threads hk hc k' p' ph' hs)
  have hfound : ((s.setThread k none).setConn c { conn with last := some (call, false) }).procs p = some proc := hok.found
  refine hdrop.setThread ⟨hfound, hok.token, fun h => hok.reports (hr ▸ h), ?_⟩ ?_
  · intro c₁ hc₁
    rw [hc'] at hc₁
    cases hc₁
    refine ⟨_, Function.update_self .., fun call' hcall' => ?_⟩
    rw [hask] at hcall'
    cases hcall'
    exact ⟨false, rfl⟩
  · intro k' p' ph₁ c₁ hs _ hc₁
    rw [hc'] at hc₁
    cases hc₁
    exact h.free_of_threads hk hc k' p' ph₁ hs

end Parts

/-! ## Every step keeps it -/

section Steps

variable {k p q c : Nat} {x : Surface}

theorem inv_start {raw : Option String} {strict : Bool} (h : Inv s) (hstep : step s (.start p raw strict) = some s') :
    Inv s' := by
  simp only [step] at hstep
  split at hstep
  · rename_i hnone
    cases hstep
    refine h.setProc (fun t ht => ⟨normalizeToken_self ht, ?_, ?_⟩) fun old hold => ?_
    · intro i hi
      cases hi
    · intro x i hi
      cases hi
    · rw [hnone] at hold
      cases hold
  · cases hstep

theorem inv_fork (h : Inv s) (hstep : step s (.fork p q) = some s') : Inv s' := by
  simp only [step] at hstep
  split at hstep
  · rename_i proc hp hq
    cases hstep
    refine h.setProc (fun t ht => h.latches p proc t hp ht) fun old hold => ?_
    rw [hq] at hold
    cases hold
  · cases hstep

theorem inv_graphCall (h : Inv s) (hstep : step s (.graphCall k p) = some s') : Inv s' := by
  simp only [step] at hstep
  split at hstep
  · rename_i proc hk hp
    split at hstep
    · rename_i htoken
      cases hstep
      obtain ⟨t, ht⟩ := Option.isSome_iff_exists.mp htoken
      refine h.setThread ⟨hp, ht, ?_, ?_⟩ ?_
      · rintro ⟨⟩
      · rintro _ ⟨⟩
      · rintro _ _ _ _ _ _ ⟨⟩
    · cases hstep
      exact h
  · cases hstep

theorem inv_hook (h : Inv s) (hstep : step s (.hook k p x) = some s') : Inv s' := by
  simp only [step] at hstep
  split at hstep
  · rename_i proc hk hp
    split at hstep
    · cases hstep
      exact h
    · rename_i t i ht hx
      cases hstep
      obtain ⟨hack, hst⟩ := (h.latches p proc t hp ht).reported x i hx
      obtain ⟨j, hj⟩ := Option.isSome_iff_exists.mp hack
      exact h.dispose hst ⟨j, (h.latches p proc t hp ht).acknowledged j hj⟩
    · rename_i t ht hx
      cases hstep
      refine h.setThread ⟨hp, ht, ?_, ?_⟩ ?_
      · rintro ⟨⟩
      · rintro _ ⟨⟩
      · rintro _ _ _ _ _ _ ⟨⟩
  · cases hstep

theorem inv_connect (h : Inv s) (hstep : step s (.connect k) = some s') : Inv s' := by
  simp only [step] at hstep
  split at hstep
  · rename_i p next hk
    cases hstep
    have hwide : Inv { s with nextConn := s.nextConn + 1 } :=
      { latches := fun p proc t hp ht => (h.latches p proc t hp ht).mono (.same rfl rfl (List.Subset.refl _))
        fresh := fun c hc => h.fresh c (Nat.le_trans (Nat.le_succ _) hc)
        conns := fun c conn hc => (h.conns c conn hc).mono (.same rfl rfl (List.Subset.refl _))
        threads := fun k p ph hk => by
          obtain ⟨proc, t, hok⟩ := h.threads k p ph hk
          exact ⟨proc, t, hok.found, hok.token, hok.reports, hok.conn⟩
        owner := h.owner
        acks := h.acks
        passed := h.passed }
    have hfree : ∀ k' p' ph', s.threads k' = some (p', ph') → ph'.conn ≠ some s.nextConn := by
      intro k' p' ph' hk' hc
      obtain ⟨_, _, hok⟩ := h.threads k' p' ph' hk'
      obtain ⟨conn, hconn, -⟩ := hok.conn _ hc
      exact absurd (h.conn_lt hconn) (Nat.lt_irrefl _)
    have hconn : ConnOk { s with nextConn := s.nextConn + 1 } ⟨s.daemon, none⟩ :=
      ⟨Nat.le_refl _, by rintro _ _ ⟨⟩, by rintro _ ⟨⟩⟩
    obtain ⟨proc, t, hok⟩ := h.threads k p _ hk
    have hmade := hwide.setConn (Nat.lt_succ_self _) hconn fun k' p' ph' hs hc => absurd hc (hfree k' p' ph' hs)
    refine hmade.setThread ⟨hok.found, hok.token, ?_, ?_⟩ ?_
    · rintro ⟨⟩
    · rintro c ⟨⟩
      exact ⟨_, Function.update_self .., by rintro _ ⟨⟩⟩
    · rintro k' p' ph' c hs _ ⟨⟩
      exact hfree k' p' ph' hs
  · cases hstep

theorem Inv.announced {ph : Phase} {proc : Proc} (h : Inv s) (hk : s.threads k = some (p, ph)) (hc : ph.conn = some c)
    (hp : s.procs p = some proc) (ht : proc.token = some t) (hack : proc.acknowledged.isSome = true)
    (hconn : ∃ conn, s.conns c = some conn) (next : Option Surface) : Inv (s.announced k p c next) := by
  cases next with
  | none => exact h.dropThread k
  | some x =>
    obtain ⟨conn, hconn⟩ := hconn
    refine h.moveThread hk hc.symm ⟨hp, ht, fun _ => hack, ?_⟩
    rintro c ⟨⟩
    exact ⟨conn, hconn, by rintro _ ⟨⟩⟩

theorem inv_load (h : Inv s) (hstep : step s (.load k) = some s') : Inv s' := by
  simp only [step] at hstep
  split at hstep
  · rename_i p c next hk
    obtain ⟨proc, t, hok⟩ := h.threads k p _ hk
    obtain ⟨conn, hconn, -⟩ := hok.conn c rfl
    rw [hok.found, Option.map_some, Option.some.injEq] at hstep
    subst hstep
    split
    · rename_i hack
      exact h.announced hk rfl hok.found hok.token hack ⟨conn, hconn⟩ next
    · refine h.moveThread hk rfl ⟨hok.found, hok.token, ?_, ?_⟩
      · rintro ⟨⟩
      · rintro c ⟨⟩
        exact ⟨conn, hconn, by rintro _ ⟨⟩⟩
  · cases hstep

theorem inv_send (h : Inv s) (hstep : step s (.send k) = some s') : Inv s' := by
  simp only [step] at hstep
  split at hstep
  · rename_i p c next hk
    obtain ⟨proc, t, hok⟩ := h.threads k p _ hk
    obtain ⟨conn, hconn, -⟩ := hok.conn c rfl
    rw [hok.found, Option.bind_some, hok.token, Option.bind_some, hconn] at hstep
    cases hstep
    exact h.send hk rfl rfl rfl hok hconn rfl (h.latches p proc t hok.found hok.token).token
  · rename_i p c x hk
    obtain ⟨proc, t, hok⟩ := h.threads k p _ hk
    obtain ⟨conn, hconn, -⟩ := hok.conn c rfl
    rw [hok.found, Option.bind_some, hok.token, Option.bind_some, hconn] at hstep
    cases hstep
    exact h.send hk rfl rfl rfl hok hconn rfl
      ⟨(h.latches p proc t hok.found hok.token).token, normalizeSurface_name x⟩
  · cases hstep

theorem inv_read (h : Inv s) (hstep : step s (.read k) = some s') : Inv s' := by
  simp only [step] at hstep
  split at hstep
  · rename_i p c next hk
    obtain ⟨proc, t, hok⟩ := h.threads k p _ hk
    obtain ⟨conn, hconn, hasked⟩ := hok.conn c rfl
    obtain ⟨b, hlast⟩ := hasked _ rfl
    split at hstep
    · rename_i proc' daemon call hp hc
      rw [hok.found] at hp
      cases hp
      rw [hconn] at hc
      cases hc
      cases hlast
      obtain ⟨t', ht', rfl⟩ := Option.map_eq_some_iff.mp hstep
      have hsame : t = t' := Option.some.inj (hok.token.symm.trans ht')
      subst hsame
      have hst : Stands s daemon (.confirm t) := (h.conns c _ hconn).answered _ rfl
      have hlatch := h.latches p proc t hok.found hok.token
      have hack : Inv { s with acks := (t, daemon) :: s.acks } := h.ack hlatch.token hst
      have hset : Inv ({ s with acks := (t, daemon) :: s.acks }.setProc p
          { proc with acknowledged := some daemon }) := by
        refine hack.setProc (fun t' ht' => ?_) fun old hold => ?_
        · have hsame : t' = t := Option.some.inj (ht'.symm.trans hok.token)
          subst hsame
          refine ⟨hlatch.token, ?_, fun x i hx => ⟨rfl, ?_⟩⟩
          · rintro i ⟨⟩
            exact List.mem_cons_self
          · exact (hlatch.reported x i hx).2.congr rfl rfl
        · have hsame : proc = old := Option.some.inj (hok.found.symm.trans hold)
          subst hsame
          exact ⟨rfl, fun _ => rfl⟩
      exact hset.announced hk rfl (Function.update_self ..) hok.token rfl ⟨_, hconn⟩ next
    · cases hstep
  · rename_i p c x hk
    obtain ⟨proc, t, hok⟩ := h.threads k p _ hk
    obtain ⟨conn, hconn, hasked⟩ := hok.conn c rfl
    obtain ⟨b, hlast⟩ := hasked _ rfl
    split at hstep
    · rename_i proc' daemon call hp hc
      rw [hok.found] at hp
      cases hp
      rw [hconn] at hc
      cases hc
      cases hlast
      obtain ⟨t', ht', rfl⟩ := Option.map_eq_some_iff.mp hstep
      have hsame : t = t' := Option.some.inj (hok.token.symm.trans ht')
      subst hsame
      have hst : Stands s daemon (.recordBypass t x.name) := (h.conns c _ hconn).answered _ rfl
      have hlatch := h.latches p proc t hok.found hok.token
      have hack : proc.acknowledged.isSome = true := hok.reports rfl
      obtain ⟨j, hj⟩ := Option.isSome_iff_exists.mp hack
      have hset : Inv (s.setProc p { proc with reported := Function.update proc.reported x (some daemon) }) := by
        refine h.setProc (fun t' ht' => ?_) fun old hold => ?_
        · have hsame : t' = t := Option.some.inj (ht'.symm.trans hok.token)
          subst hsame
          refine ⟨hlatch.token, hlatch.acknowledged, fun y i hy => ⟨hack, ?_⟩⟩
          by_cases hyx : y = x
          · subst hyx
            have hi : some daemon = some i := by simpa using hy
            cases hi
            exact hst
          · exact (hlatch.reported y i (by simpa [Function.update_of_ne hyx] using hy)).2
        · have hsame : proc = old := Option.some.inj (hok.found.symm.trans hold)
          subst hsame
          exact ⟨rfl, id⟩
      exact (hset.dropThread k).dispose (hst.congr rfl rfl) ⟨j, hlatch.acknowledged j hj⟩
    · cases hstep
  · cases hstep

theorem inv_handle (h : Inv s) (hstep : step s (.handle c) = some s') : Inv s' := by
  simp only [step] at hstep
  split at hstep
  · rename_i daemon call hc
    split at hstep
    · rename_i hd
      cases hstep
      have hok := h.conns c _ hc
      have hserved : Served s { s with daemon := s.daemon, registry := s.registry.apply call } :=
        .inl ⟨rfl, .inr ⟨call, rfl⟩⟩
      have htaken : Inv { s with daemon := s.daemon, registry := s.registry.apply call } := h.serve hserved
      refine htaken.setConn (h.conn_lt hc) ⟨hok.daemon, ?_, ?_⟩ ?_
      · rintro _ _ ⟨⟩
        exact hok.plain call false rfl
      · rintro _ ⟨⟩
        exact ⟨hok.daemon, fun _ => recorded_apply_self (hok.plain call false rfl)⟩
      · intro _ _ _ _ _ old call' b hold hlast
        have hsame : some old = some _ := hold.symm.trans hc
        cases hsame
        cases hlast
        exact ⟨true, rfl⟩
    · cases hstep
  · cases hstep

theorem step_inv (h : Inv s) (hstep : step s l = some s') : Inv s' := by
  cases l with
  | start p raw strict => exact inv_start h hstep
  | fork p q => exact inv_fork h hstep
  | restart =>
    cases hstep
    exact h.serve (.inr rfl)
  | request call =>
    cases hstep
    exact h.serve (.inl ⟨rfl, .inr ⟨call, rfl⟩⟩)
  | graphCall k p => exact inv_graphCall h hstep
  | hook k p x => exact inv_hook h hstep
  | connect k => exact inv_connect h hstep
  | load k => exact inv_load h hstep
  | send k => exact inv_send h hstep
  | handle c => exact inv_handle h hstep
  | read k => exact inv_read h hstep
  | fail k =>
    simp only [step] at hstep
    split at hstep
    · cases hstep
      exact h.dropThread k
    · cases hstep

end Steps

theorem run_inv (h : Runs.run step .init ls = some s) : Inv s :=
  Runs.run_inv (fun _ _ _ h hstep => step_inv h hstep) .init h

/-! ## What a verdict says -/

/-- The requests whose acknowledgement opens a latch of a process with token `t`. -/
def Concerns (t : String) : Canary.Call → Prop
  | .expect _ => False
  | .confirm u | .recordBypass u _ => u = t

/-- The condition on a step: the daemon is not started again while its ledger has something of the token. -/
def LosesNothing (t : String) (s : State) : Label → Prop
  | .restart => t ∉ s.registry.confirmed ∧ s.registry.bypassed t = none
  | _ => True

/-- Whatever was acknowledged of the token, the daemon that runs has acknowledged. -/
structure Current (t : String) (s : State) : Prop where
  reported : ∀ p proc x i, s.procs p = some proc → proc.token = some t → proc.reported x = some i → i = s.daemon
  answered : ∀ c conn call, s.conns c = some conn → conn.last = some (call, true) → Concerns t call →
    conn.daemon = s.daemon
  acks : ∀ i, (t, i) ∈ s.acks → i = s.daemon
  passed : ∀ x i, (t, x, i) ∈ s.passed → i = s.daemon

section Currency

variable {k p c : Nat} {u : String} {proc : Proc} {conn : Conn} {x : Surface}

theorem Current.init (t : String) : Current t .init where
  reported := by simp [State.init]
  answered := by simp [State.init]
  acks := by simp [State.init]
  passed := by simp [State.init]

theorem Current.setThread (h : Current t s) (k : Nat) (v : Option (Nat × Phase)) : Current t (s.setThread k v) :=
  ⟨h.reported, h.answered, h.acks, h.passed⟩

theorem Current.setProc (h : Current t s)
    (hproc : ∀ x i, proc.token = some t → proc.reported x = some i → i = s.daemon) : Current t (s.setProc p proc) where
  reported p' proc' x i hp ht hx := by
    by_cases hne : p' = p
    · subst hne
      have heq : some proc = some proc' := by simpa [State.setProc] using hp
      cases heq
      exact hproc x i ht hx
    · exact h.reported p' proc' x i (by simpa [State.setProc, Function.update_of_ne hne] using hp) ht hx
  answered := h.answered
  acks := h.acks
  passed := h.passed

theorem Current.setConn (h : Current t s)
    (hconn : ∀ call, conn.last = some (call, true) → Concerns t call → conn.daemon = s.daemon) :
    Current t (s.setConn c conn) where
  reported := h.reported
  answered c' conn' call hc hlast hcall := by
    by_cases hne : c' = c
    · subst hne
      have heq : some conn = some conn' := by simpa [State.setConn] using hc
      cases heq
      exact hconn call hlast hcall
    · exact h.answered c' conn' call (by simpa [State.setConn, Function.update_of_ne hne] using hc) hlast hcall
  acks := h.acks
  passed := h.passed

theorem Current.ack (h : Current t s) (hi : u = t → i = s.daemon) : Current t { s with acks := (u, i) :: s.acks } where
  reported := h.reported
  answered := h.answered
  acks j hmem := by
    rcases List.mem_cons.mp hmem with heq | hmem
    · cases heq
      exact hi rfl
    · exact h.acks j hmem
  passed := h.passed

theorem Current.dispose (h : Current t s) (hi : u = t → i = s.daemon) : Current t (s.dispose proc u x i) := by
  unfold State.dispose
  split
  · refine ⟨h.reported, h.answered, h.acks, fun y j hmem => ?_⟩
    rcases List.mem_cons.mp hmem with heq | hmem
    · cases heq
      exact hi rfl
    · exact h.passed y j hmem
  · exact h

theorem Current.announced (h : Current t s) (k p c : Nat) (next : Option Surface) :
    Current t (s.announced k p c next) := by
  cases next with
  | none => exact h.setThread k none
  | some x => exact h.setThread k _

/-- What the daemon has acknowledged it has in its ledger, so a restart that loses nothing finds nothing
acknowledged. -/
theorem Current.restart (h : Current t s) (hinv : Inv s) (hl : LosesNothing t s .restart) :
    Current t { s with daemon := s.daemon + 1, registry := .new } := by
  obtain ⟨hconfirmed, hbypassed⟩ := hl
  have hlost : ∀ i call, Concerns t call → Stands s i call → i ≠ s.daemon := by
    intro i call hcall hst hi
    have hrec := hst.2 hi
    cases call with
    | expect u => exact hcall
    | confirm u =>
      cases hcall
      exact hconfirmed hrec
    | recordBypass u x =>
      cases hcall
      rw [Recorded, hbypassed] at hrec
      cases hrec
  refine ⟨fun p proc x i hp ht hx => ?_, fun c conn call hc hlast hcall => ?_, fun i hi => ?_, fun x i hx => ?_⟩
  · exact absurd (h.reported p proc x i hp ht hx)
      (hlost i (.recordBypass t x.name) rfl ((hinv.latches p proc t hp ht).reported x i hx).2)
  · exact absurd (h.answered c conn call hc hlast hcall)
      (hlost _ call hcall ((hinv.conns c conn hc).answered call hlast))
  · exact absurd (h.acks i hi) (hlost i (.confirm t) rfl (hinv.acks t i hi).2)
  · exact absurd (h.passed x i hx) (hlost i (.recordBypass t x.name) rfl (hinv.passed t x i hx).1)

end Currency

end KinVfs.CanaryRuns
