import KinVfs.Lib.Runs
import KinVfs.Shim.Framing
import KinVfs.Shim.ProjectionQueue
import Mathlib.Data.List.Perm.Subperm
import Mathlib.Data.Nat.Bitwise

/-!
# The lookup log (`crates/kin-vfs-daemon/src/lookup_log.rs`, `dispatch_request` of `server.rs`)

Every request that names a path is recorded: counted, written at `debug`, and announced above `debug` when it is
the first of its class. The connections of a daemon record at the same time, with two atomic operations on one
counter and one byte of latches. A line is written when the filter of `KIN_VFS_LOG` enables its level.

However these interleave, a class is announced once when a lookup of it has been recorded and no other, and its
line is there when its level is enabled (`announced_exactly_once`). A filter that leaves out `info` leaves out
the line of the first served lookup; its latch is used all the same.
-/

namespace KinVfs.LookupLog

/-- How a lookup was answered. -/
inductive LookupOutcome where
  | served
  | notInGraph
  | boundary
  | authorityUnavailable
  deriving DecidableEq, Repr

def LookupOutcome.of : VfsResponse → LookupOutcome
  | .accessible false => .notInGraph
  | .error code _ _ =>
    match code with
    | .notFound => .notInGraph
    | .isDirectory | .notDirectory | .permissionDenied | .invalidInput | .unsupportedBoundary => .boundary
    | .ioError | .internal => .authorityUnavailable
  | _ => .served

def LookupOutcome.asStr : LookupOutcome → String
  | .served => "served"
  | .notInGraph => "not-in-graph"
  | .boundary => "boundary"
  | .authorityUnavailable => "authority-unavailable"

/-- The bit of a class is `1 <<` this. -/
def LookupOutcome.index : LookupOutcome → Nat
  | .served => 0
  | .notInGraph => 1
  | .boundary => 2
  | .authorityUnavailable => 3

def LookupOutcome.bit (o : LookupOutcome) : UInt8 := 1 <<< UInt8.ofNat o.index

/-- One lookup, as `record` gets it. -/
structure Lookup where
  op : String
  path : String
  outcome : LookupOutcome
  endpoint : Option String
  deriving DecidableEq, Repr

inductive Level where
  | debug
  | info
  | warn
  deriving DecidableEq, Repr

structure Line where
  level : Level
  op : String
  path : String
  /-- The `outcome` field, of a line at `debug`. -/
  outcome : Option String
  endpoint : String
  message : String
  deriving DecidableEq, Repr

def Lookup.debugLine (q : Lookup) : Line :=
  ⟨.debug, q.op, q.path, some q.outcome.asStr, q.endpoint.getD "none", "VFS lookup"⟩

/-- The line of the first lookup of a class. -/
def Lookup.announcement (q : Lookup) : Line :=
  let line level message : Line := ⟨level, q.op, q.path, none, q.endpoint.getD "none", message⟩
  match q.outcome with
  | .served => line .info "first VFS lookup served from graph truth; further lookups log at debug"
  | .notInGraph => line .warn <|
    "VFS lookup answered not-in-graph; if this path is one the graph owns, the " ++
    "provider is not reaching the authority that holds it. Further misses log at debug"
  | .boundary => line .warn "VFS lookup refused at a path boundary; further boundary refusals log at debug"
  | .authorityUnavailable => line .warn <|
    "VFS lookup could not reach graph authority; reads fail closed rather than " ++
    "falling back to disk. Further authority failures log at debug"

/-- What `dispatch_request` gets: a question with the providers that answer it, `g` and at the second question `g'`,
or a change of a projection surface with what `admit_projection_write` came to. -/
inductive Request where
  | ask (request : VfsRequest) (g g' : ContentProvider)
  | change (request : ProjectionRequest) (result : VfsResult Unit)

/-- `lookup_subject`. A rename is recorded under its destination. -/
def lookupSubject : Request → Option (String × VfsPath)
  | .ask (.stat path) _ _ => some ("stat", path)
  | .ask (.readDir path) _ _ => some ("read_dir", path)
  | .ask (.read path _ _) _ _ => some ("read", path)
  | .ask (.readLink path) _ _ => some ("read_link", path)
  | .ask (.access path _) _ _ => some ("access", path)
  | .change (.write path _) _ => some ("write", path)
  | .change (.remove path) _ => some ("remove", path)
  | .change (.rename _ new) _ => some ("rename", new)
  | .ask (.announce _ _) _ _ | .ask (.canaryBypass _ _) _ _ => none

/-- The class of the response; `Written` and `WriteAccepted` are served. -/
def Request.outcome (ioText : Posix.ErrorKind → String) : Request → LookupOutcome
  | .ask request g g' => .of (answerRequest ioText g g' request)
  | .change _ (.ok _) => .served
  | .change _ (.error e) => .of (vfsErrorToResponse ioText e)

/-- `LookupLog`. -/
structure Latches where
  announced : UInt8
  recorded : UInt64
  deriving DecidableEq, Repr

/-- The swapped-out value tells who was first. -/
def Latches.claimAnnouncement (log : Latches) (o : LookupOutcome) : Bool × Latches :=
  (log.announced &&& o.bit == 0, { log with announced := log.announced ||| o.bit })

/-! ## Connections that record -/

/-- Where a call of `record` is. -/
inductive Place where
  /-- The lookup is counted. -/
  | counted
  /-- The latch is claimed; `announcing` says whether this call was the first. -/
  | claimed (announcing : Bool)
  /-- The line at `debug` is behind it. -/
  | traced (announcing : Bool)
  deriving DecidableEq, Repr

structure State where
  log : Latches
  /-- The calls of `record` that run. -/
  calls : Nat → Option (Lookup × Place)
  /-- The lines written. -/
  lines : List Line
  /-- History: the lookups recorded. -/
  lookups : List Lookup
  /-- History: the lookups that were announced. -/
  announced : List Lookup

def State.init : State := ⟨⟨0, 0⟩, fun _ => none, [], [], []⟩

inductive Label where
  /-- `dispatch_request` has its response. -/
  | dispatch (k : Nat) (request : Request) (endpoint : Option String)
  | claim (k : Nat)
  /-- The check of the level, and the line at `debug`. -/
  | trace (k : Nat)
  /-- The line of the class. -/
  | finish (k : Nat)

/-- The lookup that a request is recorded as. -/
def lookupOf (ioText : Posix.ErrorKind → String) (request : Request) (endpoint : Option String) : Option Lookup :=
  (lookupSubject request).map fun subject => ⟨subject.1, subject.2.display, request.outcome ioText, endpoint⟩

def State.setCall (s : State) (k : Nat) (call : Option (Lookup × Place)) : State :=
  { s with calls := Function.update s.calls k call }

/-- `enabled` is the filter of the daemon's log. -/
def step (enabled : Level → Bool) (ioText : Posix.ErrorKind → String) (s : State) : Label → Option State
  | .dispatch k request endpoint =>
    if s.calls k = none then
      match lookupOf ioText request endpoint with
      | none => some s
      | some q =>
        some { s.setCall k (some (q, .counted)) with
          log := { s.log with recorded := s.log.recorded + 1 }, lookups := q :: s.lookups }
    else none
  | .claim k =>
    match s.calls k with
    | some (q, .counted) =>
      let (announcing, log) := s.log.claimAnnouncement q.outcome
      some { s.setCall k (some (q, .claimed announcing)) with log }
    | _ => none
  | .trace k =>
    match s.calls k with
    | some (q, .claimed announcing) =>
      if !announcing && !enabled .debug then some (s.setCall k none)
      else some { s.setCall k (some (q, .traced announcing)) with
        lines := if enabled .debug then s.lines ++ [q.debugLine] else s.lines }
    | _ => none
  | .finish k =>
    match s.calls k with
    | some (q, .traced true) =>
      some { s.setCall k none with
        lines := if enabled q.announcement.level then s.lines ++ [q.announcement] else s.lines
        announced := q :: s.announced }
    | some (_, .traced false) => some (s.setCall k none)
    | _ => none

/-! ## The latches -/

variable {enabled : Level → Bool} {ioText : Posix.ErrorKind → String} {s s' : State} {l : Label}
  {ls : List Label} {k : Nat} {q : Lookup} {o : LookupOutcome}

/-- The latch of a class is set. -/
def Latches.isSet (log : Latches) (o : LookupOutcome) : Bool := log.announced.toNat.testBit o.index

theorem toNat_bit (o : LookupOutcome) : o.bit.toNat = 2 ^ o.index := by cases o <;> rfl

theorem index_inj {o o' : LookupOutcome} : o.index = o'.index ↔ o = o' := by
  cases o <;> cases o' <;> decide

theorem claimAnnouncement_fst (log : Latches) (o : LookupOutcome) : (log.claimAnnouncement o).1 = !log.isSet o := by
  have hand : (log.announced &&& o.bit).toNat = (log.announced.toNat.testBit o.index).toNat * 2 ^ o.index := by
    rw [UInt8.toNat_and, toNat_bit, Nat.and_two_pow]
  rw [Latches.claimAnnouncement, Latches.isSet]
  have hzero : (log.announced &&& o.bit = 0) ↔ (log.announced &&& o.bit).toNat = 0 := by
    rw [← UInt8.toNat_inj]
    rfl
  cases hb : log.announced.toNat.testBit o.index with
  | true =>
    rw [hb] at hand
    have hne : ¬ log.announced &&& o.bit = 0 := by
      rw [hzero, hand, Bool.toNat_true, Nat.one_mul]
      exact Nat.two_pow_pos _ |>.ne'
    simpa using hne
  | false =>
    rw [hb] at hand
    have heq : log.announced &&& o.bit = 0 := by rw [hzero, hand, Bool.toNat_false, Nat.zero_mul]
    simpa using heq

theorem isSet_claimAnnouncement (log : Latches) (o o' : LookupOutcome) :
    (log.claimAnnouncement o).2.isSet o' = (log.isSet o' || decide (o' = o)) := by
  simp only [Latches.claimAnnouncement, Latches.isSet, UInt8.toNat_or, toNat_bit, Nat.testBit_or, Nat.testBit_two_pow]
  congr 1
  exact decide_eq_decide.mpr (eq_comm.trans index_inj)

/-! ## The invariant -/

/-- A call that was the first of its class and has not written its line. -/
def Announcing (calls : Nat → Option (Lookup × Place)) (k : Nat) (q : Lookup) : Prop :=
  calls k = some (q, .claimed true) ∨ calls k = some (q, .traced true)

/-- A class is announced. -/
def Told (s : State) (o : LookupOutcome) : Prop := o ∈ s.announced.map Lookup.outcome

structure Inv (enabled : Level → Bool) (s : State) : Prop where
  /-- A running call is of a recorded lookup; behind its claim its class is set. -/
  calls : ∀ k q p, s.calls k = some (q, p) → q ∈ s.lookups ∧ (p ≠ .counted → s.log.isSet q.outcome = true)
  /-- One call of a class at a time has a line to write, and none after the line. -/
  one : ∀ k k' q q', Announcing s.calls k q → Announcing s.calls k' q' → q.outcome = q'.outcome → k = k'
  untold : ∀ k q, Announcing s.calls k q → ¬ Told s q.outcome
  /-- A class is set by a call that has a line to write or has written it. -/
  set_iff : ∀ o, s.log.isSet o = true ↔ Told s o ∨ ∃ k q, Announcing s.calls k q ∧ q.outcome = o
  nodup : (s.announced.map Lookup.outcome).Nodup
  /-- A recorded lookup is before its claim, or its class is set. -/
  lookups : ∀ q ∈ s.lookups, s.log.isSet q.outcome = true ∨ ∃ k, s.calls k = some (q, .counted)
  announced : s.announced ⊆ s.lookups
  lines : s.lines.filter (fun line => line.level != .debug) =
    ((s.announced.filter fun q => enabled q.announcement.level).map Lookup.announcement).reverse
  recorded : s.log.recorded.toNat = s.lookups.length % 2 ^ 64

theorem Inv.init : Inv enabled .init where
  calls := by simp [State.init]
  one := by simp [State.init, Announcing]
  untold := by simp [State.init, Announcing]
  set_iff := by simp [State.init, Announcing, Told, Latches.isSet]
  nodup := by simp [State.init]
  lookups := by simp [State.init]
  announced := by simp [State.init]
  lines := by simp [State.init]
  recorded := by simp [State.init]

theorem announcement_level (q : Lookup) : (q.announcement.level != .debug) = true := by
  unfold Lookup.announcement
  cases q.outcome <;> rfl

theorem announcing_update {calls : Nat → Option (Lookup × Place)} {call : Option (Lookup × Place)} {k' : Nat} :
    Announcing (Function.update calls k call) k' q ↔
      k' = k ∧ (call = some (q, .claimed true) ∨ call = some (q, .traced true)) ∨ k' ≠ k ∧ Announcing calls k' q := by
  unfold Announcing
  by_cases hk : k' = k
  · subst hk
    simp
  · simp [hk]

/-- A step that sets no latch and writes no visible line. -/
theorem Inv.unannounced (h : Inv enabled s) (hann : ∀ k q, Announcing s'.calls k q ↔ Announcing s.calls k q)
    (hset : ∀ o, s'.log.isSet o = s.log.isSet o) (hannounced : s'.announced = s.announced)
    (hcalls : ∀ k q p, s'.calls k = some (q, p) → q ∈ s'.lookups ∧ (p ≠ .counted → s'.log.isSet q.outcome = true))
    (hlookups : ∀ q ∈ s'.lookups, s'.log.isSet q.outcome = true ∨ ∃ k, s'.calls k = some (q, .counted))
    (hsub : s.lookups ⊆ s'.lookups)
    (hlines : s'.lines.filter (fun line => line.level != .debug) = s.lines.filter fun line => line.level != .debug)
    (hrecorded : s'.log.recorded.toNat = s'.lookups.length % 2 ^ 64) : Inv enabled s' where
  calls := hcalls
  one k k' q q' hk hk' := h.one k k' q q' ((hann k q).mp hk) ((hann k' q').mp hk')
  untold k q hk := by
    rw [Told, hannounced]
    exact h.untold k q ((hann k q).mp hk)
  set_iff o := by
    rw [hset, h.set_iff, Told, Told, hannounced]
    simp only [hann]
  nodup := hannounced ▸ h.nodup
  lookups := hlookups
  announced := hannounced ▸ fun _ hq => hsub (h.announced hq)
  lines := by rw [hlines, h.lines, hannounced]
  recorded := hrecorded

theorem inv_dispatch {request : Request} {endpoint : Option String} (h : Inv enabled s)
    (hstep : step enabled ioText s (.dispatch k request endpoint) = some s') : Inv enabled s' := by
  simp only [step] at hstep
  split at hstep
  · rename_i hk
    split at hstep
    · cases hstep
      exact h
    · rename_i q hq
      cases hstep
      have hcount : (s.log.recorded + 1).toNat = (s.lookups.length + 1) % 2 ^ 64 := by
        rw [UInt64.toNat_add, h.recorded]
        simp
      refine h.unannounced (fun k' q' => ?_) (fun _ => rfl) rfl ?_ ?_ (List.subset_cons_self _ _) rfl hcount
      · rw [State.setCall, announcing_update]
        by_cases hk' : k' = k
        · subst hk'
          simp [Announcing, hk]
        · simp [hk']
      · intro k' q' p' hcall
        by_cases hk' : k' = k
        · subst hk'
          have heq : (q, Place.counted) = (q', p') := by simpa [State.setCall] using hcall
          cases heq
          exact ⟨List.mem_cons_self, fun hne => absurd rfl hne⟩
        · have hold := h.calls k' q' p' (by simpa [State.setCall, hk'] using hcall)
          exact ⟨List.mem_cons_of_mem _ hold.1, hold.2⟩
      · intro q' hq'
        rcases List.mem_cons.mp hq' with rfl | hq'
        · exact .inr ⟨k, Function.update_self ..⟩
        · rcases h.lookups q' hq' with hset | ⟨k', hcall⟩
          · exact .inl hset
          · have hne : k' ≠ k := by
              rintro rfl
              cases hk.symm.trans hcall
            exact .inr ⟨k', by simpa [State.setCall, hne] using hcall⟩
  · cases hstep

section Updates

variable {call : Option (Lookup × Place)} {p : Place} {log : Latches}

/-- A call goes on behind its claim. -/
theorem Inv.calls_update (h : Inv enabled s) (hmono : ∀ o, s.log.isSet o = true → log.isSet o = true)
    (hnew : ∀ q p, call = some (q, p) → q ∈ s.lookups ∧ log.isSet q.outcome = true) :
    ∀ k' q p, Function.update s.calls k call k' = some (q, p) →
      q ∈ s.lookups ∧ (p ≠ .counted → log.isSet q.outcome = true) := by
  intro k' q p hcall
  by_cases hk' : k' = k
  · subst hk'
    obtain ⟨hmem, hset⟩ := hnew q p (by simpa using hcall)
    exact ⟨hmem, fun _ => hset⟩
  · obtain ⟨hmem, hset⟩ := h.calls k' q p (by simpa [hk'] using hcall)
    exact ⟨hmem, fun hp => hmono _ (hset hp)⟩

theorem Inv.lookups_update (h : Inv enabled s) (hmono : ∀ o, s.log.isSet o = true → log.isSet o = true)
    (hk : s.calls k = some (q, p)) (hset : log.isSet q.outcome = true) :
    ∀ q' ∈ s.lookups, log.isSet q'.outcome = true ∨ ∃ k', Function.update s.calls k call k' = some (q', .counted) := by
  intro q' hq'
  rcases h.lookups q' hq' with hset' | ⟨k', hcall⟩
  · exact .inl (hmono _ hset')
  · by_cases hk' : k' = k
    · subst hk'
      cases hk.symm.trans hcall
      exact .inl hset
    · exact .inr ⟨k', by simpa [hk'] using hcall⟩

/-- A call that goes on behind its claim, with a line to write or not as before. -/
theorem Inv.goOn {lines : List Line} (h : Inv enabled s) (hk : s.calls k = some (q, p)) (hp : p ≠ .counted)
    (hcall : ∀ q' p', call = some (q', p') → q' = q)
    (hann : ∀ q', (call = some (q', .claimed true) ∨ call = some (q', .traced true)) ↔ Announcing s.calls k q')
    (hlines : lines.filter (fun line => line.level != .debug) = s.lines.filter fun line => line.level != .debug) :
    Inv enabled { s.setCall k call with lines := lines } := by
  obtain ⟨hmem, hset⟩ := h.calls k q p hk
  refine h.unannounced (fun k' q' => ?_) (fun _ => rfl) rfl ?_ ?_ (List.Subset.refl _) hlines h.recorded
  · rw [State.setCall, announcing_update, hann]
    by_cases hk' : k' = k
    · subst hk'
      simp
    · simp [hk']
  · refine h.calls_update (fun _ ho => ho) fun q' p' hc => ?_
    rw [hcall q' p' hc]
    exact ⟨hmem, hset hp⟩
  · exact h.lookups_update (fun _ ho => ho) hk (hset hp)

end Updates

theorem inv_trace (h : Inv enabled s) (hstep : step enabled ioText s (.trace k) = some s') : Inv enabled s' := by
  simp only [step] at hstep
  split at hstep
  · rename_i q announcing hk
    split at hstep
    · rename_i hquiet
      cases hstep
      have hfirst : announcing = false := by simp at hquiet; exact hquiet.1
      subst hfirst
      refine h.goOn hk (by simp) (by simp) (fun q' => ?_) rfl
      simp [Announcing, hk]
    · cases hstep
      refine h.goOn hk (by simp) (fun q' p' hc => by cases hc; rfl) (fun q' => ?_) ?_
      · simp [Announcing, hk]
      · split
        · rw [List.filter_append]
          simp [Lookup.debugLine]
        · rfl
  · cases hstep

theorem inv_finish (h : Inv enabled s) (hstep : step enabled ioText s (.finish k) = some s') : Inv enabled s' := by
  simp only [step] at hstep
  split at hstep
  · rename_i q hk
    cases hstep
    obtain ⟨hmem, hset⟩ := h.calls k q _ hk
    have hset := hset (by simp)
    have hfirst : Announcing s.calls k q := .inr hk
    have hfree : ∀ k' q', Announcing (Function.update s.calls k none) k' q' → k' ≠ k ∧ Announcing s.calls k' q' := by
      intro k' q' hann
      rcases announcing_update.mp hann with ⟨-, hnone | hnone⟩ | hold
      · cases hnone
      · cases hnone
      · exact hold
    exact
    { calls := h.calls_update (fun _ ho => ho) (by simp)
      one := fun k₁ k₂ q₁ q₂ h₁ h₂ => h.one k₁ k₂ q₁ q₂ (hfree k₁ q₁ h₁).2 (hfree k₂ q₂ h₂).2
      untold := fun k' q' hann htold => by
        obtain ⟨hne, hold⟩ := hfree k' q' hann
        rcases List.mem_cons.mp htold with heq | htold
        · exact hne (h.one k' k q' q hold hfirst heq)
        · exact h.untold k' q' hold htold
      set_iff := fun o => by
        refine (h.set_iff o).trans ⟨?_, ?_⟩
        · rintro (htold | ⟨k', q', hann, rfl⟩)
          · exact .inl (List.mem_cons_of_mem _ htold)
          · by_cases hk' : k' = k
            · subst hk'
              have heq : q' = q := by
                rcases hann with hann | hann <;> cases hk.symm.trans hann
                rfl
              subst heq
              exact .inl List.mem_cons_self
            · exact .inr ⟨k', q', announcing_update.mpr (.inr ⟨hk', hann⟩), rfl⟩
        · rintro (htold | ⟨k', q', hann, rfl⟩)
          · rcases List.mem_cons.mp htold with rfl | htold
            · exact .inr ⟨k, q, hfirst, rfl⟩
            · exact .inl htold
          · exact .inr ⟨k', q', (hfree k' q' hann).2, rfl⟩
      nodup := List.nodup_cons.mpr ⟨h.untold k q hfirst, h.nodup⟩
      lookups := h.lookups_update (fun _ ho => ho) hk hset
      announced := List.cons_subset.mpr ⟨hmem, h.announced⟩
      lines := by
        have hlevel := announcement_level q
        rw [List.filter_cons]
        split
        · rw [List.filter_append, h.lines, List.map_cons, List.reverse_cons]
          simp [hlevel]
        · exact h.lines
      recorded := h.recorded }
  · rename_i q hk
    cases hstep
    refine h.goOn hk (by simp) (by simp) (fun q' => ?_) rfl
    simp [Announcing, hk]
  · cases hstep

theorem inv_claim (h : Inv enabled s) (hstep : step enabled ioText s (.claim k) = some s') : Inv enabled s' := by
  simp only [step] at hstep
  split at hstep
  · rename_i q hk
    cases hstep
    obtain ⟨hmem, -⟩ := h.calls k q _ hk
    have hmono : ∀ o, s.log.isSet o = true → (s.log.claimAnnouncement q.outcome).2.isSet o = true := by
      intro o ho
      rw [isSet_claimAnnouncement, ho]
      rfl
    have hset : (s.log.claimAnnouncement q.outcome).2.isSet q.outcome = true := by
      rw [isSet_claimAnnouncement]
      simp
    have hidle : ∀ q', ¬ Announcing s.calls k q' := by
      rintro q' (hann | hann) <;> cases hk.symm.trans hann
    have hclaim := claimAnnouncement_fst s.log q.outcome
    cases hfirst : s.log.isSet q.outcome with
    | true =>
      rw [hclaim, hfirst]
      refine h.unannounced (fun k' q' => ?_) (fun o => ?_) rfl ?_ ?_ (List.Subset.refl _) rfl h.recorded
      · rw [State.setCall, announcing_update]
        by_cases hk' : k' = k
        · subst hk'
          simp [hidle]
        · simp [hk']
      · rw [isSet_claimAnnouncement]
        by_cases ho : o = q.outcome
        · rw [ho, hfirst]
          rfl
        · simp [ho]
      · refine h.calls_update hmono ?_
        rintro q' p' ⟨⟩
        exact ⟨hmem, hset⟩
      · exact h.lookups_update hmono hk hset
    | false =>
      rw [hclaim, hfirst]
      have hnone : ¬ (Told s q.outcome ∨ ∃ k q', Announcing s.calls k q' ∧ q'.outcome = q.outcome) := by
        rw [← h.set_iff, hfirst]
        simp
      have hann : ∀ k' q', Announcing (Function.update s.calls k (some (q, .claimed true))) k' q' ↔
          k' = k ∧ q' = q ∨ k' ≠ k ∧ Announcing s.calls k' q' := by
        intro k' q'
        rw [announcing_update]
        simp [eq_comm]
      exact
      { calls := h.calls_update hmono (by rintro q' p' ⟨⟩; exact ⟨hmem, hset⟩)
        one := fun k₁ k₂ q₁ q₂ h₁ h₂ heq => by
          rcases (hann k₁ q₁).mp h₁ with ⟨hk₁, hq₁⟩ | ⟨-, ha₁⟩ <;>
            rcases (hann k₂ q₂).mp h₂ with ⟨hk₂, hq₂⟩ | ⟨-, ha₂⟩
          · exact hk₁.trans hk₂.symm
          · exact absurd (.inr ⟨k₂, q₂, ha₂, by rw [← heq, hq₁]⟩) hnone
          · exact absurd (.inr ⟨k₁, q₁, ha₁, by rw [heq, hq₂]⟩) hnone
          · exact h.one k₁ k₂ q₁ q₂ ha₁ ha₂ heq
        untold := fun k' q' h' htold => by
          rcases (hann k' q').mp h' with ⟨-, rfl⟩ | ⟨-, h'⟩
          · exact hnone (.inl htold)
          · exact h.untold k' q' h' htold
        set_iff := fun o => by
          have hor : (s.log.claimAnnouncement q.outcome).2.isSet o = true ↔ s.log.isSet o = true ∨ o = q.outcome := by
            rw [isSet_claimAnnouncement]
            simp
          refine hor.trans ((or_congr_left (h.set_iff o)).trans ⟨?_, ?_⟩)
          · rintro ((htold | ⟨k', q', h', ho⟩) | rfl)
            · exact .inl htold
            · have hne : k' ≠ k := by
                rintro rfl
                exact hidle q' h'
              exact .inr ⟨k', q', (hann k' q').mpr (.inr ⟨hne, h'⟩), ho⟩
            · exact .inr ⟨k, q, (hann k q).mpr (.inl ⟨rfl, rfl⟩), rfl⟩
          · rintro (htold | ⟨k', q', h', ho⟩)
            · exact .inl (.inl htold)
            · rcases (hann k' q').mp h' with ⟨-, rfl⟩ | ⟨-, h'⟩
              · exact .inr ho.symm
              · exact .inl (.inr ⟨k', q', h', ho⟩)
        nodup := h.nodup
        lookups := h.lookups_update hmono hk hset
        announced := h.announced
        lines := h.lines
        recorded := h.recorded }
  · cases hstep

theorem step_inv (h : Inv enabled s) (hstep : step enabled ioText s l = some s') : Inv enabled s' := by
  cases l with
  | dispatch k request endpoint => exact inv_dispatch h hstep
  | claim k => exact inv_claim h hstep
  | trace k => exact inv_trace h hstep
  | finish k => exact inv_finish h hstep

/-- The classes are four. -/
theorem length_le_four {os : List LookupOutcome} (h : os.Nodup) : os.length ≤ 4 := by
  have hsub : os ⊆ [.served, .notInGraph, .boundary, .authorityUnavailable] := by
    intro o _
    cases o <;> simp
  exact (h.subperm hsub).length_le

/-- For every interleaving of the connections, whatever their providers and writers answer and whichever levels are
enabled: the lines above `debug` are those of the announced lookups whose level is enabled. Every announced lookup
is a recorded one, no two are of one class, and so there are at most four; once no call runs, every class of a
recorded lookup is announced, with its line if the level is enabled. The counter counts every lookup. -/
theorem announced_exactly_once (h : Runs.run (step enabled ioText) .init ls = some s) :
    s.lines.filter (fun line => line.level != .debug) =
        ((s.announced.filter fun q => enabled q.announcement.level).map Lookup.announcement).reverse ∧
      s.announced ⊆ s.lookups ∧ (s.announced.map Lookup.outcome).Nodup ∧ s.announced.length ≤ 4 ∧
      ((∀ k, s.calls k = none) → ∀ q ∈ s.lookups, ∃ q' ∈ s.announced, q'.outcome = q.outcome ∧
        (enabled q'.announcement.level = true → q'.announcement ∈ s.lines)) ∧
      s.log.recorded.toNat = s.lookups.length % 2 ^ 64 := by
  have hinv : Inv enabled s := Runs.run_inv (fun _ _ _ h hstep => step_inv h hstep) .init h
  have hlen : s.announced.length ≤ 4 := by simpa using length_le_four hinv.nodup
  refine ⟨hinv.lines, hinv.announced, hinv.nodup, hlen, fun hquiet q hq => ?_, hinv.recorded⟩
  have hset : s.log.isSet q.outcome = true := by
    rcases hinv.lookups q hq with hset | ⟨k, hk⟩
    · exact hset
    · cases (hquiet k).symm.trans hk
  rcases (hinv.set_iff q.outcome).mp hset with htold | ⟨k, q', hann, -⟩
  · obtain ⟨q', hq', ho⟩ := List.mem_map.mp htold
    refine ⟨q', hq', ho, fun hlevel => List.mem_of_mem_filter (p := fun line => line.level != .debug) ?_⟩
    rw [hinv.lines, List.mem_reverse]
    exact List.mem_map_of_mem (List.mem_filter.mpr ⟨hq', hlevel⟩)
  · rcases hann with hann | hann <;> cases (hquiet k).symm.trans hann

/-- Two connections miss at the same time, a `stat` of `b` and a rename onto it, and the one that came second is
announced. Then the graph serves `a`. -/
def missRun : List Label :=
  [.dispatch 0 (.ask (.stat Sample.b) (Sample.holding [1]) (Sample.holding [1])) none,
    .dispatch 1 (.change (.rename Sample.a Sample.b) (.error (.notFound "a"))) none,
    .claim 1, .claim 0, .trace 0, .trace 1, .finish 1,
    .dispatch 0 (.ask (.stat Sample.a) (Sample.holding [1]) (Sample.holding [1])) none, .claim 0, .trace 0, .finish 0]

/-- With `warn` as the filter, the line of the served lookup is left out. -/
theorem announced_exactly_once_miss :
    ∃ s, Runs.run (step (fun level => level == .warn) fun _ => "") .init missRun = some s ∧
      s.lookups.length = 3 ∧ s.announced.length = 2 ∧ s.lines.filter (fun line => line.level != .debug) =
        [Lookup.announcement ⟨"rename", "b", .notInGraph, none⟩] := by
  have hrun : (Runs.run (step (fun level => level == .warn) fun _ => "") .init missRun).map
      (fun s => (s.lookups.length, s.announced)) =
        some (3, [⟨"stat", "a", .served, none⟩, ⟨"rename", "b", .notInGraph, none⟩]) := by decide
  obtain ⟨s, hs, heq⟩ := Option.map_eq_some_iff.mp hrun
  have hannounced : s.announced = [⟨"stat", "a", .served, none⟩, ⟨"rename", "b", .notInGraph, none⟩] :=
    congrArg Prod.snd heq
  refine ⟨s, hs, congrArg Prod.fst heq, by rw [hannounced]; rfl, ?_⟩
  rw [(announced_exactly_once hs).1, hannounced]
  rfl

end KinVfs.LookupLog
