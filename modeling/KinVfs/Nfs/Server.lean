import KinVfs.Daemon.Coverage

/-!
# A writable export (`crates/kin-vfs-nfs/src/server.rs`, `router.rs`)

The export as a transition system: a writer (`Sys`) for each workspace that has a write side, the
admission loop, the callers of `request_sync` with their two files, and `shutdown`. `admit_now` and
`admit_due` are an `AdmitRun`: the workspaces are admitted one after the other, each by a call of its
writer, which goes on with the other calls in between.

A caller is a call of `request_sync`. `taken` counts the sync requests the loop has taken; a result carries
the number of the request it answers (history: the file has no such number).
-/

namespace KinVfs.NfsServer

/-- What `admit` returned for each workspace. -/
abbrev Rows := List (String × VfsResult (Option Admission))

structure AdmitRun where
  todo : List String
  /-- The call of the writer that is running. -/
  current : Option (String × Nat)
  rows : Rows

/-- The admission loop. -/
inductive LoopPc where
  | idle
  | taken (id : Nat)
  | syncing (id : Nat) (run : AdmitRun)
  | publishing (id : Nat) (rows : Rows)
  | due (run : AdmitRun)
  | stopped

/-- A call of `request_sync`. -/
inductive CallerPc where
  | start
  | removed
  | waiting
  | found (id : Nat) (rows : Rows)
  | answered (id : Nat) (rows : Rows)
  | timedOut

inductive ShutdownPc where
  | notCalled
  | admitting (run : AdmitRun)
  | admitted (rows : Rows)
  | returned (rows : Rows)

structure State where
  /-- The workspaces with a write side. -/
  slots : List String
  writer : String → Sys
  loop : LoopPc
  /-- `nfs.sync` is there. -/
  request : Bool
  /-- `nfs.sync.result`. -/
  result : Option (Nat × Rows)
  taken : Nat
  callers : List CallerPc
  shutdown : ShutdownPc
  stop : Bool
  listening : Bool

/-- No workspace has been looked up. -/
def State.init (hosts : String → Posix.Fs) : State :=
  ⟨[], fun name => .init (hosts name), .idle, false, none, 0, [], .notCalled, false, true⟩

/-- Who runs admissions. -/
inductive Who where
  | loop
  | shutdown
  deriving DecidableEq

/-- The steps of `request_sync`. -/
inductive CallerOp where
  | remove
  | request
  | read
  | discard
  | timeout
  deriving DecidableEq

inductive Label where
  /-- The first lookup of a workspace makes its slot. -/
  | newSlot (name : String)
  /-- A step of a call on a writer, or a new mutation. -/
  | writer (name : String) (l : KinVfs.Label)
  | take
  | list (order : List String)
  | due (names : List String)
  | enter (who : Who)
  | leave (who : Who)
  | finish (who : Who)
  | panics
  | publish
  | publishFails
  | stopLoop
  | newCaller
  | caller (k : Nat) (op : CallerOp)
  | shutdown (order : List String)
  | signal
  | stopListener

namespace State

def setWriter (s : State) (name : String) (sys : Sys) : State :=
  { s with writer := fun v => if v = name then sys else s.writer v }

def runOf (s : State) : Who → Option AdmitRun
  | .loop =>
    match s.loop with
    | .syncing _ run | .due run => some run
    | _ => none
  | .shutdown =>
    match s.shutdown with
    | .admitting run => some run
    | _ => none

def setRun (s : State) (run : AdmitRun) : Who → State
  | .loop =>
    match s.loop with
    | .syncing id _ => { s with loop := .syncing id run }
    | .due _ => { s with loop := .due run }
    | _ => s
  | .shutdown =>
    match s.shutdown with
    | .admitting _ => { s with shutdown := .admitting run }
    | _ => s

def setCaller (s : State) (k : Nat) (pc : CallerPc) : State := { s with callers := s.callers.set k pc }

/-- Enter `admit` of the next workspace. -/
def stepEnter (s : State) (who : Who) : Option State :=
  match s.runOf who with
  | some ⟨name :: todo, none, rows⟩ =>
    some ((s.setWriter name
        { s.writer name with calls := (s.writer name).calls ++ [.admission .start] }).setRun
      ⟨todo, some (name, (s.writer name).calls.length), rows⟩ who)
  | _ => none

/-- `admit` returns. -/
def stepLeave (s : State) (who : Who) : Option State :=
  match s.runOf who with
  | some ⟨todo, some (name, j), rows⟩ =>
    match (s.writer name).calls[j]? with
    | some (.admission (.done _ r)) => some (s.setRun ⟨todo, none, rows ++ [(name, r)]⟩ who)
    | _ => none
  | _ => none

/-- Every workspace has been admitted. -/
def stepFinish (s : State) : Who → Option State
  | .loop =>
    match s.loop with
    | .syncing id ⟨[], none, rows⟩ => some { s with loop := .publishing id rows }
    | .due ⟨[], none, _⟩ => some { s with loop := .idle }
    | _ => none
  | .shutdown =>
    match s.shutdown with
    | .admitting ⟨[], none, rows⟩ => some { s with shutdown := .admitted rows }
    | _ => none

/-- The blocking task panics: `unwrap_or_default` makes the results empty. -/
def stepPanics (s : State) : Option State :=
  match s.loop with
  | .taken id | .syncing id _ => some { s with loop := .publishing id [] }
  | .due _ => some { s with loop := .idle }
  | _ => none

def stepPublish (s : State) (written : Bool) : Option State :=
  match s.loop with
  | .publishing id rows =>
    some { s with loop := .idle, result := if written then some (id, rows) else s.result }
  | _ => none

def stepCaller (s : State) (k : Nat) (op : CallerOp) : Option State :=
  match op, s.callers[k]?, s.result with
  | .remove, some .start, _ => some ({ s with result := none }.setCaller k .removed)
  | .request, some .removed, _ => some ({ s with request := true }.setCaller k .waiting)
  | .read, some .waiting, some (id, rows) => some (s.setCaller k (.found id rows))
  | .discard, some (.found id rows), _ =>
    some ({ s with result := none }.setCaller k (.answered id rows))
  | .timeout, some .waiting, _ => some (s.setCaller k .timedOut)
  | _, _, _ => none

end State

/-- The order of the slots is the map's own. -/
def stepShutdown (s : State) (order : List String) : Option State :=
  match s.shutdown with
  | .notCalled | .returned _ =>
    if order.Perm s.slots then some { s with shutdown := .admitting ⟨order, none, []⟩ } else none
  | _ => none

def stepList (s : State) (order : List String) : Option State :=
  match s.loop with
  | .taken id => if order.Perm s.slots then some { s with loop := .syncing id ⟨order, none, []⟩ } else none
  | _ => none

variable (roots : String → Posix.Path) (wire : Wire)

def entersAdmission : KinVfs.Label → Bool
  | .call .admission => true
  | _ => false

/-- The connections may make a mutation at any time. -/
def stepWriter (s : State) (name : String) (l : KinVfs.Label) : Option State :=
  if name ∈ s.slots ∧ entersAdmission l = false then
    ((s.writer name).step (roots name) wire l).map (s.setWriter name)
  else none

def step (s : State) : Label → Option State
  | .newSlot name => if name ∈ s.slots then none else some { s with slots := s.slots ++ [name] }
  | .writer name l => stepWriter roots wire s name l
  | .take =>
    match s.loop with
    | .idle =>
      if s.request then
        some { s with request := false, taken := s.taken + 1, loop := .taken (s.taken + 1) }
      else none
    | _ => none
  | .list order => stepList s order
  | .due names =>
    match s.loop with
    | .idle =>
      if s.request = false ∧ ∀ name ∈ names, name ∈ s.slots then
        some { s with loop := .due ⟨names, none, []⟩ }
      else none
    | _ => none
  | .enter who => s.stepEnter who
  | .leave who => s.stepLeave who
  | .finish who => s.stepFinish who
  | .panics => s.stepPanics
  | .publish => s.stepPublish true
  | .publishFails => s.stepPublish false
  | .stopLoop =>
    match s.loop with
    | .idle => if s.stop then some { s with loop := .stopped } else none
    | _ => none
  | .newCaller => some { s with callers := s.callers ++ [.start] }
  | .caller k op => s.stepCaller k op
  | .shutdown order => stepShutdown s order
  | .signal =>
    match s.shutdown with
    | .admitted rows => some { s with shutdown := .returned rows, stop := true }
    | _ => none
  | .stopListener => if s.stop then some { s with listening := false } else none

variable {roots wire} {s t : State} {l : Label} {name : String}

/-! ## What a step does to the writers -/

@[simp] theorem writer_setRun (run : AdmitRun) (who : Who) : (s.setRun run who).writer = s.writer := by
  unfold State.setRun
  cases who
  · cases s.loop <;> rfl
  · cases s.shutdown <;> rfl

@[simp] theorem slots_setRun (run : AdmitRun) (who : Who) : (s.setRun run who).slots = s.slots := by
  unfold State.setRun
  cases who
  · cases s.loop <;> rfl
  · cases s.shutdown <;> rfl

theorem writer_setWriter (sys : Sys) (v : String) :
    (s.setWriter name sys).writer v = if v = name then sys else s.writer v := rfl

/-- A writer stays as it is or takes a step of its own. -/
inductive WriterStep (roots : String → Posix.Path) (wire : Wire) (s t : State) (l : Label)
    (v : String) : Prop where
  | same (h : t.writer v = s.writer v)
  | call (l' : KinVfs.Label) (hl : l = .writer v l')
      (h : (s.writer v).step (roots v) wire l' = some (t.writer v))
  | admission (h : (s.writer v).step (roots v) wire (.call .admission) = some (t.writer v))
      (hl : ∀ w l', l ≠ .writer w l')

theorem stepCaller_keeps {k : Nat} {op : CallerOp} (h : s.stepCaller k op = some t) :
    t.writer = s.writer ∧ t.slots = s.slots ∧ t.loop = s.loop ∧ t.shutdown = s.shutdown := by
  unfold State.stepCaller at h
  split at h
  · cases h
    exact ⟨rfl, rfl, rfl, rfl⟩
  · cases h
    exact ⟨rfl, rfl, rfl, rfl⟩
  · cases h
    exact ⟨rfl, rfl, rfl, rfl⟩
  · cases h
    exact ⟨rfl, rfl, rfl, rfl⟩
  · cases h
    exact ⟨rfl, rfl, rfl, rfl⟩
  · cases h

theorem stepFinish_keeps {who : Who} (h : s.stepFinish who = some t) :
    t.writer = s.writer ∧ t.slots = s.slots := by
  unfold State.stepFinish at h
  cases who
  · dsimp only at h
    split at h
    · cases h
      exact ⟨rfl, rfl⟩
    · cases h
      exact ⟨rfl, rfl⟩
    · cases h
  · dsimp only at h
    split at h
    · cases h
      exact ⟨rfl, rfl⟩
    · cases h

theorem stepLeave_keeps {who : Who} (h : s.stepLeave who = some t) :
    t.writer = s.writer ∧ t.slots = s.slots := by
  unfold State.stepLeave at h
  split at h
  · split at h
    · cases h
      exact ⟨writer_setRun _ _, slots_setRun _ _⟩
    · cases h
  · cases h

theorem stepEnter_writer {who : Who} (h : s.stepEnter who = some t) (r : Posix.Path) (w : Wire)
    (v : String) :
    t.writer v = s.writer v ∨ (s.writer v).step r w (.call .admission) = some (t.writer v) := by
  unfold State.stepEnter at h
  split at h
  · rename_i name todo rows hrun
    cases h
    rw [writer_setRun, writer_setWriter]
    split
    · rename_i hv
      subst hv
      exact .inr rfl
    · exact .inl rfl
  · cases h

/-- The steps that touch a writer. -/
def Label.onWriter : Label → Bool
  | .newSlot _ | .writer .. | .enter _ => true
  | _ => false

theorem control_keeps (h : step roots wire s l = some t) (hl : l.onWriter = false) :
    t.writer = s.writer ∧ t.slots = s.slots := by
  cases l with
  | newSlot name => cases hl
  | writer name l' => cases hl
  | enter who => cases hl
  | leave who => exact stepLeave_keeps h
  | finish who => exact stepFinish_keeps h
  | caller k op =>
    obtain ⟨hw, hs, -⟩ := stepCaller_keeps h
    exact ⟨hw, hs⟩
  | newCaller =>
    cases h
    exact ⟨rfl, rfl⟩
  | take =>
    simp only [step] at h
    split at h
    · split at h <;> cases h
      exact ⟨rfl, rfl⟩
    · cases h
  | list order =>
    simp only [step, stepList] at h
    split at h
    · split at h <;> cases h
      exact ⟨rfl, rfl⟩
    · cases h
  | due names =>
    simp only [step] at h
    split at h
    · split at h <;> cases h
      exact ⟨rfl, rfl⟩
    · cases h
  | panics =>
    simp only [step, State.stepPanics] at h
    split at h <;> cases h <;> exact ⟨rfl, rfl⟩
  | publish =>
    simp only [step, State.stepPublish] at h
    split at h <;> cases h
    exact ⟨rfl, rfl⟩
  | publishFails =>
    simp only [step, State.stepPublish] at h
    split at h <;> cases h
    exact ⟨rfl, rfl⟩
  | stopLoop =>
    simp only [step] at h
    split at h
    · split at h <;> cases h
      exact ⟨rfl, rfl⟩
    · cases h
  | shutdown order =>
    simp only [step, stepShutdown] at h
    split at h
    · split at h <;> cases h
      exact ⟨rfl, rfl⟩
    · split at h <;> cases h
      exact ⟨rfl, rfl⟩
    · cases h
  | signal =>
    simp only [step] at h
    split at h <;> cases h
    exact ⟨rfl, rfl⟩
  | stopListener =>
    simp only [step] at h
    split at h <;> cases h
    exact ⟨rfl, rfl⟩

theorem writer_step (h : step roots wire s l = some t) (v : String) : WriterStep roots wire s t l v := by
  cases hl : l.onWriter with
  | false => exact .same (congrFun (control_keeps h hl).1 v)
  | true =>
    cases l with
    | newSlot name =>
      simp only [step] at h
      split at h
      · cases h
      · cases h
        exact .same rfl
    | writer name l' =>
      simp only [step, stepWriter] at h
      split at h
      · obtain ⟨sys, hsys, rfl⟩ := Option.map_eq_some_iff.mp h
        by_cases hv : v = name
        · subst hv
          exact .call l' rfl (by rw [hsys, writer_setWriter, if_pos rfl])
        · exact .same (if_neg hv)
      · cases h
    | enter who =>
      rcases stepEnter_writer h (roots v) wire v with hv | hv
      · exact .same hv
      · exact .admission hv (by simp)
    | _ => cases hl

theorem slots_step (h : step roots wire s l = some t) (hv : name ∈ s.slots) : name ∈ t.slots := by
  cases hl : l.onWriter with
  | false => rwa [(control_keeps h hl).2]
  | true =>
    cases l with
    | newSlot n =>
      simp only [step] at h
      split at h
      · cases h
      · cases h
        exact List.mem_append_left _ hv
    | writer n l' =>
      simp only [step, stepWriter] at h
      split at h
      · obtain ⟨sys, -, rfl⟩ := Option.map_eq_some_iff.mp h
        exact hv
      · cases h
    | enter who =>
      simp only [step, State.stepEnter] at h
      split at h
      · cases h
        rw [slots_setRun]
        exact hv
      · cases h
    | _ => cases hl

/-! ## Every run -/

variable {hosts : String → Posix.Fs} {ls : List Label} {i : Nat}

theorem accounted_step (ha : ∀ w, Accounted (s.writer w)) (h : step roots wire s l = some t)
    (w : String) : Accounted (t.writer w) := by
  cases writer_step h w with
  | same hsame =>
    rw [hsame]
    exact ha w
  | call l' _ hstep => exact (ha w).step hstep
  | admission hstep _ => exact (ha w).step hstep

theorem accounted_run (h : Runs.run (step roots wire) (.init hosts) ls = some s) (w : String) :
    Accounted (s.writer w) :=
  Runs.run_inv (fun _ _ _ ha hs => accounted_step ha hs) (fun w => Accounted.init (hosts w)) h w

theorem accepted_step (h : step roots wire s l = some t) (hi : (s.writer name).Accepted i) :
    (t.writer name).Accepted i := by
  cases writer_step h name with
  | same hsame => rwa [hsame]
  | call l' _ hstep => exact hi.step hstep
  | admission hstep _ => exact hi.step hstep

/-- A mutation is accepted by a mark. -/
theorem accepted_back {w : String} (h : step roots wire s l = some t) (hi : (t.writer w).Accepted i) :
    (s.writer w).Accepted i ∨ ∃ revision now, l = .writer w (.mark i revision now) := by
  cases writer_step h w with
  | same hsame =>
    rw [hsame] at hi
    exact .inl hi
  | call l' hl hstep =>
    rcases Sys.accepted_of_step hi hstep with hold | ⟨revision, now, rfl⟩
    · exact .inl hold
    · exact .inr ⟨revision, now, hl⟩
  | admission hstep _ =>
    rcases Sys.accepted_of_step hi hstep with hold | ⟨_, _, hl⟩
    · exact .inl hold
    · cases hl

/-- A mutation is of a workspace that has a slot. -/
theorem slot_of_accepted {w : String} (hslots : ∀ w i, (s.writer w).Accepted i → w ∈ s.slots)
    (h : step roots wire s l = some t) (hi : (t.writer w).Accepted i) : w ∈ t.slots := by
  refine slots_step h ?_
  rcases accepted_back h hi with hold | ⟨revision, now, rfl⟩
  · exact hslots w i hold
  · simp only [step, stepWriter] at h
    split at h
    · rename_i hmem
      exact hmem.1
    · cases h

theorem not_accepted_init (hosts : String → Posix.Fs) (w : String) (i : Nat) :
    ¬ ((State.init hosts).writer w).Accepted i := by
  rintro ⟨m, hm⟩
  cases hm

theorem slot_of_accepted_run {w : String} (h : Runs.run (step roots wire) (.init hosts) ls = some s)
    (hi : (s.writer w).Accepted i) : w ∈ s.slots := by
  have hinv : ∀ w i, (s.writer w).Accepted i → w ∈ s.slots :=
    Runs.run_inv (P := fun s => ∀ w i, (s.writer w).Accepted i → w ∈ s.slots)
      (fun _ _ _ hs hstep _ _ => slot_of_accepted hs hstep)
      (fun w i hi => absurd hi (not_accepted_init hosts w i)) h
  exact hinv w i hi

theorem inGraph_step (h : step roots wire s l = some t) (hi : (s.writer name).InGraph i) :
    (t.writer name).InGraph i := by
  cases writer_step h name with
  | same hsame => rwa [hsame]
  | call l' _ hstep => exact hi.step hstep
  | admission hstep _ => exact hi.step hstep

theorem covers_step {A : Nat → Prop} {j : Nat} (ha : ∀ w, Accounted (s.writer w))
    (h : step roots wire s l = some t) (hA : ∀ i, A i → (s.writer name).Accepted i)
    (hc : (s.writer name).Covers A j) : (t.writer name).Covers A j := by
  cases writer_step h name with
  | same hsame => rwa [hsame]
  | call l' _ hstep => exact hc.step (ha name) hA hstep
  | admission hstep _ => exact hc.step (ha name) hA hstep

/-! ## A run of admissions -/

/-- The run has admitted the calls `A` of the workspaces it has done, and will get to the others. -/
structure AdmitRun.Covers (A : String → Nat → Prop) (s : State) (run : AdmitRun) : Prop where
  reaches : ∀ w i, A w i → w ∈ run.todo ∨ (∃ j, run.current = some (w, j)) ∨ ∃ r, (w, r) ∈ run.rows
  current : ∀ w j, run.current = some (w, j) → (s.writer w).Covers (A w) j
  rows : ∀ w r, (w, .ok r) ∈ run.rows → ∀ i, A w i → (s.writer w).InGraph i

/-- When no row is an error, the calls `A` are in the graph. -/
def RowsCover (A : String → Nat → Prop) (s : State) (rows : Rows) : Prop :=
  (∀ row ∈ rows, ∃ r, row.2 = .ok r) → ∀ w i, A w i → (s.writer w).InGraph i

variable {A : String → Nat → Prop} {run : AdmitRun} {rows : Rows}

theorem AdmitRun.Covers.start {order : List String} (h : ∀ w i, A w i → w ∈ order) :
    AdmitRun.Covers A s ⟨order, none, []⟩ where
  reaches w i hi := .inl (h w i hi)
  current _ _ hc := nomatch hc
  rows _ _ hr := nomatch hr

theorem AdmitRun.Covers.finish (h : AdmitRun.Covers A s ⟨[], none, rows⟩) : RowsCover A s rows := by
  intro hrows w i hi
  rcases h.reaches w i hi with htodo | ⟨j, hj⟩ | ⟨r, hr⟩
  · cases htodo
  · cases hj
  · obtain ⟨a, ha⟩ := hrows _ hr
    have hrow : (w, .ok a) ∈ rows := by
      rw [← show r = .ok a from ha]
      exact hr
    exact h.rows w a hrow i hi

/-- A step elsewhere. -/
theorem AdmitRun.Covers.step (hcover : run.Covers A s) (ha : ∀ w, Accounted (s.writer w))
    (hA : ∀ w i, A w i → (s.writer w).Accepted i) (h : step roots wire s l = some t) :
    run.Covers A t where
  reaches := hcover.reaches
  current w j hj := covers_step ha h (hA w) (hcover.current w j hj)
  rows w r hr i hi := inGraph_step h (hcover.rows w r hr i hi)

theorem RowsCover.step (hcover : RowsCover A s rows) (h : NfsServer.step roots wire s l = some t) :
    RowsCover A t rows := fun hrows w i hi => inGraph_step h (hcover hrows w i hi)

/-- The next workspace is entered. -/
theorem AdmitRun.Covers.enter {todo : List String} (h : AdmitRun.Covers A t ⟨name :: todo, none, rows⟩)
    {j : Nat} (hj : (t.writer name).calls[j]? = some (.admission .start)) :
    AdmitRun.Covers A t ⟨todo, some (name, j), rows⟩ where
  reaches w i hi := by
    rcases h.reaches w i hi with htodo | ⟨j, hcur⟩ | hrow
    · rcases List.mem_cons.mp htodo with rfl | htodo
      · exact .inr (.inl ⟨j, rfl⟩)
      · exact .inl htodo
    · cases hcur
    · exact .inr (.inr hrow)
  current w k hk := by
    cases hk
    intro c hc
    rw [hj] at hc
    cases hc
    trivial
  rows := h.rows

/-- An admission returns. -/
theorem AdmitRun.Covers.leave {todo : List String} {j : Nat} {pending : List (VfsPath × Arc)}
    {r : VfsResult (Option Admission)} (h : AdmitRun.Covers A s ⟨todo, some (name, j), rows⟩)
    (hj : (s.writer name).calls[j]? = some (.admission (.done pending r))) :
    AdmitRun.Covers A s ⟨todo, none, rows ++ [(name, r)]⟩ where
  reaches w i hi := by
    rcases h.reaches w i hi with htodo | ⟨k, hcur⟩ | ⟨r', hrow⟩
    · exact .inl htodo
    · cases hcur
      exact .inr (.inr ⟨r, List.mem_append_right _ List.mem_cons_self⟩)
    · exact .inr (.inr ⟨r', List.mem_append_left _ hrow⟩)
  current _ _ hk := nomatch hk
  rows w r' hr i hi := by
    rcases List.mem_append.mp hr with hrow | hnew
    · exact h.rows w r' hrow i hi
    · cases List.mem_singleton.mp hnew
      exact h.current name j rfl _ hj i hi

end KinVfs.NfsServer
