import KinVfs.Nfs.Server

/-!
# Stopping a writable export

`shutdown` admits every workspace and then sends the stop signal; until the listener sees the signal its
connections go on. When it has returned without an error, every mutation that was answered with success is
in the graph, if each was accepted before the shutdown's admission of its workspace had read the working
copy or found nothing staged (`shutdown_admits`).
-/

namespace KinVfs.NfsServer

variable {roots : String → Posix.Path} {wire : Wire} {s t : State} {l : Label} {name : String}
  {hosts : String → Posix.Fs} {ls : List Label} {run : AdmitRun} {rows : Rows}

/-- An admission that has not found the staging empty, and whose commit has not read the working copy. -/
def unread : Call → Bool
  | .admission .start | .admission (.snapped _) | .admission (.sent ..) | .admission (.refused ..) => true
  | _ => false

/-- The run is still going to admit what is staged in the workspace. -/
structure AdmitRun.Ahead (run : AdmitRun) (s : State) (w : String) : Prop where
  coming : w ∈ run.todo ∨ ∃ j, run.current = some (w, j)
  entered : ∀ j, run.current = some (w, j) → ∃ c, (s.writer w).calls[j]? = some c ∧ unread c = true
  rows : ∀ r, (w, r) ∉ run.rows

def State.Unread (s : State) (w : String) : Prop :=
  match s.shutdown with
  | .notCalled => True
  | .admitting run => run.Ahead s w
  | .admitted _ | .returned _ => False

/-- The next mark of call `i` is its last: it answers the call. -/
def answers (sys : Sys) (i : Nat) : Bool :=
  match sys.calls[i]? with
  | some (.mutation _ (.statted _ _ [])) | some (.mutation _ (.marking [.removed _])) => true
  | _ => false

/-- Mutations are answered while `shutdown` is still going to admit them. -/
def AnsweredBefore (s : State) : Label → Prop
  | .writer w (.mark i ..) => answers (s.writer w) i = true → s.Unread w
  | _ => True

/-! ## The steps of `shutdown` -/

inductive ShutdownStep (s t : State) (l : Label) : Prop where
  | same (h : t.shutdown = s.shutdown)
  | called (order : List String) (hperm : order.Perm s.slots) (hw : t.writer = s.writer)
      (ht : t.shutdown = .admitting ⟨order, none, []⟩)
  | enter (name : String) (todo : List String) (rows : Rows)
      (hs : s.shutdown = .admitting ⟨name :: todo, none, rows⟩)
      (ht : t.shutdown = .admitting ⟨todo, some (name, (s.writer name).calls.length), rows⟩)
      (hj : (t.writer name).calls[(s.writer name).calls.length]? = some (.admission .start))
  | leave (name : String) (todo : List String) (j : Nat) (rows : Rows) (pending : List (VfsPath × Arc))
      (r : VfsResult (Option Admission))
      (hs : s.shutdown = .admitting ⟨todo, some (name, j), rows⟩)
      (hj : (s.writer name).calls[j]? = some (.admission (.done pending r)))
      (hw : t.writer = s.writer) (ht : t.shutdown = .admitting ⟨todo, none, rows ++ [(name, r)]⟩)
  | finish (rows : Rows) (hs : s.shutdown = .admitting ⟨[], none, rows⟩) (hw : t.writer = s.writer)
      (ht : t.shutdown = .admitted rows)
  | signal (rows : Rows) (hs : s.shutdown = .admitted rows) (hw : t.writer = s.writer)
      (ht : t.shutdown = .returned rows)

theorem runOf_shutdown (h : s.runOf .shutdown = some run) : s.shutdown = .admitting run := by
  simp only [State.runOf] at h
  split at h
  · rename_i hs
    cases h
    exact hs
  · cases h

theorem shutdown_setRun_loop (run : AdmitRun) : (s.setRun run .loop).shutdown = s.shutdown := by
  simp only [State.setRun]
  cases s.loop <;> rfl

theorem stepEnter_shutdown {who : Who} (h : s.stepEnter who = some t) : ShutdownStep s t l := by
  unfold State.stepEnter at h
  split at h
  · rename_i name todo rows hrun
    cases h
    cases who with
    | loop => exact .same (shutdown_setRun_loop _)
    | shutdown =>
      have hs := runOf_shutdown hrun
      refine .enter name todo rows hs ?_ ?_
      · simp only [State.setRun, State.setWriter, hs]
      · rw [writer_setRun, writer_setWriter, if_pos rfl]
        simp
  · cases h

theorem stepLeave_shutdown {who : Who} (h : s.stepLeave who = some t) : ShutdownStep s t l := by
  unfold State.stepLeave at h
  split at h
  · rename_i todo name j rows hrun
    split at h
    · rename_i pending r hj
      cases h
      cases who with
      | loop => exact .same (shutdown_setRun_loop _)
      | shutdown =>
        have hs := runOf_shutdown hrun
        refine .leave name todo j rows pending r hs hj (writer_setRun _ _) ?_
        simp only [State.setRun, hs]
    · cases h
  · cases h

theorem stepFinish_shutdown {who : Who} (h : s.stepFinish who = some t) : ShutdownStep s t l := by
  unfold State.stepFinish at h
  cases who with
  | loop =>
    dsimp only at h
    split at h
    · cases h
      exact .same rfl
    · cases h
      exact .same rfl
    · cases h
  | shutdown =>
    dsimp only at h
    split at h
    · rename_i rows hs
      cases h
      exact .finish rows hs rfl rfl
    · cases h

theorem shutdown_step (h : step roots wire s l = some t) : ShutdownStep s t l := by
  cases l with
  | enter who => exact stepEnter_shutdown h
  | leave who => exact stepLeave_shutdown h
  | finish who => exact stepFinish_shutdown h
  | caller k op => exact .same (stepCaller_keeps h).2.2.2
  | shutdown order =>
    simp only [step, stepShutdown] at h
    split at h
    · split at h
      · rename_i hperm
        cases h
        exact .called order hperm rfl rfl
      · cases h
    · split at h
      · rename_i hperm
        cases h
        exact .called order hperm rfl rfl
      · cases h
    · cases h
  | signal =>
    simp only [step] at h
    split at h
    · rename_i rows hs
      cases h
      exact .signal rows hs rfl rfl
    · cases h
  | writer name l' =>
    simp only [step, stepWriter] at h
    split at h
    · obtain ⟨sys, -, rfl⟩ := Option.map_eq_some_iff.mp h
      exact .same rfl
    · cases h
  | panics =>
    simp only [step, State.stepPanics] at h
    split at h <;> cases h <;> exact .same rfl
  | publish =>
    simp only [step, State.stepPublish] at h
    split at h <;> cases h
    exact .same rfl
  | publishFails =>
    simp only [step, State.stepPublish] at h
    split at h <;> cases h
    exact .same rfl
  | newCaller =>
    cases h
    exact .same rfl
  | newSlot name =>
    simp only [step] at h
    split at h <;> cases h
    exact .same rfl
  | stopListener =>
    simp only [step] at h
    split at h <;> cases h
    exact .same rfl
  | take =>
    simp only [step] at h
    split at h
    · split at h <;> cases h
      exact .same rfl
    · cases h
  | list order =>
    simp only [step, stepList] at h
    split at h
    · split at h <;> cases h
      exact .same rfl
    · cases h
  | due names =>
    simp only [step] at h
    split at h
    · split at h <;> cases h
      exact .same rfl
    · cases h
  | stopLoop =>
    simp only [step] at h
    split at h
    · split at h <;> cases h
      exact .same rfl
    · cases h

/-! ## The mark that answers a mutation -/

variable {i : Nat} {w : String}

theorem answers_of_accepted {sys sys' : Sys} {root : Posix.Path} {revision : Arc} {now : Nat}
    (h : sys.step root wire (.mark i revision now) = some sys') (hnew : sys'.Accepted i) :
    answers sys i = true := by
  have hlast : ∀ {todo : List MarkStep} {m : Mutation} {path : VfsPath} {staged : Staged},
      sys' = sys.record i m todo path staged revision now → todo = [] := by
    rintro todo m path staged rfl
    obtain ⟨m', hm'⟩ := hnew
    obtain ⟨-, hc⟩ | ⟨hne, -⟩ := Sys.of_goto hm'
    · cases todo with
      | nil => rfl
      | cons step todo => cases hc
    · exact absurd rfl hne
  cases Sys.step_cases h with
  | markPresent _ hc =>
    rw [hlast rfl] at hc
    simp only [answers, hc]
  | markRemoved _ hc =>
    rw [hlast rfl] at hc
    simp only [answers, hc]

/-! ## What the admissions of `shutdown` cover -/

/-- The calls that have been accepted. -/
def accepted (s : State) (w : String) (i : Nat) : Prop := (s.writer w).Accepted i

/-- A mark leaves the admissions where they are. -/
theorem unread_of_mark {sys sys' : Sys} {root : Posix.Path} {revision : Arc} {now j : Nat} {c : Call}
    (h : sys.step root wire (.mark i revision now) = some sys') (hj : sys.calls[j]? = some c)
    (hc : unread c = true) : sys'.calls[j]? = some c := by
  have hstay : ∀ {d : Call}, sys.calls[i]? = some d → (∃ m pc, d = .mutation m pc) →
      ∀ e, (sys.goto i e).calls[j]? = some c := by
    rintro d hd ⟨m, pc, rfl⟩ e
    refine Sys.calls_of_goto_ne hj hd ?_ e
    rintro rfl
    cases hc
  cases Sys.step_cases h with
  | markPresent _ hd => exact hstay hd ⟨_, _, rfl⟩ _
  | markRemoved _ hd => exact hstay hd ⟨_, _, rfl⟩ _

theorem AdmitRun.Ahead.mark {revision : Arc} {now : Nat} (hahead : run.Ahead s w)
    (h : step roots wire s (.writer w (.mark i revision now)) = some t) : run.Ahead t w where
  coming := hahead.coming
  entered j hj := by
    obtain ⟨c, hc, hun⟩ := hahead.entered j hj
    refine ⟨c, ?_, hun⟩
    cases writer_step h w with
    | same hsame => rwa [hsame]
    | call l' hl hstep =>
      cases hl
      exact unread_of_mark hstep hc hun
    | admission _ hl => exact absurd rfl (hl _ _)
  rows := hahead.rows

/-- A run also covers the calls of a workspace it is still going to admit. -/
theorem AdmitRun.Covers.grow {A B : String → Nat → Prop} (h : run.Covers A t)
    (hB : ∀ w i, B w i → A w i ∨ run.Ahead t w) : run.Covers B t where
  reaches w i hi := by
    rcases hB w i hi with hA | hahead
    · exact h.reaches w i hA
    · rcases hahead.coming with htodo | hcur
      · exact .inl htodo
      · exact .inr (.inl hcur)
  current w j hj c hc := by
    by_cases hahead : run.Ahead t w
    · obtain ⟨d, hd, hun⟩ := hahead.entered j hj
      rw [hc] at hd
      cases hd
      unfold unread at hun
      split at hun
      · trivial
      · trivial
      · trivial
      · trivial
      · cases hun
    · refine Sys.Covers.mono (h.current w j hj) ?_ c hc
      intro i hi
      exact (hB w i hi).resolve_right hahead
  rows w r hr i hi := by
    rcases hB w i hi with hA | hahead
    · exact h.rows w r hr i hA
    · exact absurd hr (hahead.rows _)

theorem RowsCover.mono {A B : String → Nat → Prop} (h : RowsCover A s rows)
    (hB : ∀ w i, B w i → A w i) : RowsCover B s rows := fun hrows w i hi => h hrows w i (hB w i hi)

/-- Where `shutdown` is, and what it has covered of the calls `A`. -/
def ShutdownPc.Covers (A : String → Nat → Prop) (s : State) : ShutdownPc → Prop
  | .notCalled => True
  | .admitting run => run.Covers A s
  | .admitted rows | .returned rows => RowsCover A s rows

structure Settled (s : State) : Prop where
  accounted : ∀ w, Accounted (s.writer w)
  slots : ∀ w i, (s.writer w).Accepted i → w ∈ s.slots
  covers : s.shutdown.Covers (accepted s) s

/-- A step that answers no mutation. -/
theorem covers_of_quiet (hs : Settled s) (h : step roots wire s l = some t)
    (hquiet : ∀ w i, accepted t w i → accepted s w i) : t.shutdown.Covers (accepted t) t := by
  have hrun : ∀ {run : AdmitRun}, s.shutdown = .admitting run → run.Covers (accepted t) t := by
    intro run hrun
    have hcov := hs.covers
    rw [hrun] at hcov
    exact (hcov.step hs.accounted (fun _ _ hi => hi) h).grow fun w i hi => .inl (hquiet w i hi)
  have hrows : ∀ {rows : Rows}, RowsCover (accepted s) s rows → RowsCover (accepted t) t rows :=
    fun hcov => (hcov.step h).mono hquiet
  have hcov := hs.covers
  cases shutdown_step h with
  | same hsame =>
    rw [hsame]
    cases hpc : s.shutdown with
    | notCalled => trivial
    | admitting run => exact hrun hpc
    | admitted rows =>
      rw [hpc] at hcov
      exact hrows hcov
    | returned rows =>
      rw [hpc] at hcov
      exact hrows hcov
  | called order hperm hw ht =>
    rw [ht]
    exact .start fun w i hi => hperm.mem_iff.mpr (hs.slots w i (hquiet w i hi))
  | enter name todo rows hpc ht hj =>
    rw [ht]
    exact (hrun hpc).enter hj
  | leave name todo j rows pending r hpc hj hw ht =>
    rw [ht]
    exact (hrun hpc).leave (by rw [hw]; exact hj)
  | finish rows hpc hw ht =>
    rw [ht]
    exact (hrun hpc).finish
  | signal rows hpc hw ht =>
    rw [ht]
    rw [hpc] at hcov
    exact hrows hcov

/-- A mark that answers a mutation. -/
theorem covers_of_answer {revision : Arc} {now : Nat} (hs : Settled s)
    (h : step roots wire s (.writer w (.mark i revision now)) = some t) (hun : s.Unread w) :
    t.shutdown.Covers (accepted t) t := by
  have hpc : t.shutdown = s.shutdown := by
    simp only [step, stepWriter] at h
    split at h
    · obtain ⟨sys, -, rfl⟩ := Option.map_eq_some_iff.mp h
      rfl
    · cases h
  rw [hpc]
  unfold State.Unread at hun
  split at hun
  · rename_i hnot
    rw [hnot]
    trivial
  · rename_i run hrun
    have hcov := hs.covers
    rw [hrun] at hcov ⊢
    refine (hcov.step hs.accounted (fun _ _ hi => hi) h).grow fun v k hk => ?_
    rcases accepted_back h hk with hold | ⟨_, _, hl⟩
    · exact .inl hold
    · cases hl
      exact .inr (hun.mark h)
  · cases hun
  · cases hun

theorem Settled.step (hs : Settled s) (hb : AnsweredBefore s l)
    (h : NfsServer.step roots wire s l = some t) : Settled t where
  accounted := accounted_step hs.accounted h
  slots _ _ hi := slot_of_accepted hs.slots h hi
  covers := by
    by_cases hquiet : ∀ w i, accepted t w i → accepted s w i
    · exact covers_of_quiet hs h hquiet
    · push Not at hquiet
      obtain ⟨w, i, hi, hnot⟩ := hquiet
      rcases accepted_back h hi with hold | ⟨revision, now, rfl⟩
      · exact absurd hold hnot
      · refine covers_of_answer hs h (hb ?_)
        cases writer_step h w with
        | same hsame =>
          rw [accepted, hsame] at hi
          exact absurd hi hnot
        | call l' hl hstep =>
          cases hl
          exact answers_of_accepted hstep hi
        | admission _ hl => exact absurd rfl (hl _ _)

theorem Settled.init (hosts : String → Posix.Fs) : Settled (.init hosts) where
  accounted w := Accounted.init (hosts w)
  slots w i hi := absurd hi (not_accepted_init hosts w i)
  covers := trivial

/-- When `shutdown` has returned without an error, every mutation the export has answered with success is in
the graph. -/
theorem shutdown_admits (hm : Runs.Meets (step roots wire) AnsweredBefore (.init hosts) ls)
    (h : Runs.run (step roots wire) (.init hosts) ls = some s) (hret : s.shutdown = .returned rows)
    (hok : ∀ row ∈ rows, ∃ r, row.2 = .ok r) : ∀ w i, (s.writer w).Accepted i → (s.writer w).InGraph i := by
  have hs : Settled s :=
    Runs.run_inv_of_meets (fun _ _ _ hs hb hstep => hs.step hb hstep) (Settled.init hosts) hm h
  have hcov := hs.covers
  rw [hret] at hcov
  exact hcov hok

/-- The marks come before `shutdown` is called. -/
def marksFirst (s : State) : Label → Bool
  | .writer _ (.mark ..) =>
    match s.shutdown with
    | .notCalled => true
    | _ => false
  | _ => true

theorem answeredBefore_of_marksFirst (h : marksFirst s l = true) : AnsweredBefore s l := by
  cases l with
  | writer w l' =>
    cases l' with
    | mark i revision now =>
      simp only [marksFirst] at h
      split at h
      · rename_i hnot
        intro _
        simp only [State.Unread, hnot]
      · cases h
    | _ => trivial
  | _ => trivial

/-- A write is accepted, then the export is stopped. -/
def writeThenStop : List Label :=
  .newSlot "w" :: (oneWrite.take 4).map (.writer "w") ++ [.shutdown ["w"], .enter .shutdown] ++
    (oneWrite.drop 5).map (.writer "w") ++ [.leave .shutdown, .finish .shutdown, .signal, .stopListener]

/-- What `shutdown` returned. -/
def returnedOk (s : State) : Option (List Bool) :=
  match s.shutdown with
  | .returned rows => some (rows.map (·.2.isOk))
  | _ => none

/-- What `shutdown` returned, and whether call `i` of the workspace has been accepted. -/
def outcome (s : State) (i : Nat) : Option (List Bool) × Option Bool :=
  (returnedOk s, (s.writer "w").calls[i]?.map Call.accepted)

theorem returned_of_outcome {i : Nat} (h : outcome s i = (some [true], some true)) :
    ∃ rows, s.shutdown = .returned rows ∧ (∀ row ∈ rows, ∃ r, row.2 = .ok r) ∧
      (s.writer "w").Accepted i := by
  obtain ⟨hret, hacc⟩ := Prod.mk.inj h
  unfold returnedOk at hret
  split at hret
  · rename_i rows hrows
    refine ⟨rows, hrows, ?_, ?_⟩
    · intro row hrow
      have hmem : row.2.isOk ∈ rows.map (·.2.isOk) := List.mem_map.mpr ⟨row, hrow, rfl⟩
      rw [Option.some.inj hret, List.mem_singleton] at hmem
      cases hr : row.2 with
      | ok r => exact ⟨r, rfl⟩
      | error e =>
        rw [hr] at hmem
        cases hmem
    · obtain ⟨c, hc, hdone⟩ := Option.map_eq_some_iff.mp hacc
      obtain ⟨m, rfl⟩ := Call.of_accepted hdone
      exact ⟨m, hc⟩
  · cases hret

theorem shutdown_admits_writeThenStop :
    ∃ s, Runs.run (step (fun _ => []) Sample.wire) (.init fun _ => Sample.host) writeThenStop = some s ∧
      s.listening = false ∧ (s.writer "w").Accepted 0 ∧ (s.writer "w").InGraph 0 := by
  have hrun : ((Runs.run (step (fun _ => []) Sample.wire) (.init fun _ => Sample.host)
      writeThenStop).map fun s => (outcome s 0, s.listening)) = some ((some [true], some true), false) := by
    decide
  have hm : Runs.Meets (step (fun _ => []) Sample.wire) (fun s l => marksFirst s l = true)
      (.init fun _ => Sample.host) writeThenStop := by decide
  obtain ⟨s, hs, hp⟩ := Option.map_eq_some_iff.mp hrun
  obtain ⟨hout, hstopped⟩ := Prod.mk.inj hp
  obtain ⟨rows, hret, hok, hacc⟩ := returned_of_outcome hout
  exact ⟨s, hs, hstopped, hacc, shutdown_admits (hm.mono fun _ _ => answeredBefore_of_marksFirst) hs hret hok
    "w" 0 hacc⟩

/-- `shutdown` finds nothing staged; a write is accepted before the listener sees the signal. -/
def writeDuringStop : List Label :=
  [.newSlot "w", .shutdown ["w"], .enter .shutdown, .writer "w" (.snapshot 0), .leave .shutdown,
    .finish .shutdown] ++
  ([.call (.mutation (.writeAt Sample.a 0 [1])), .disk 1, .stat 1, .mark 1 1 0] : List KinVfs.Label).map
    (.writer "w") ++
  [.signal, .stopListener]

/-- `shutdown` has returned without an error and the listener has stopped, and the write is in no commit. -/
theorem writeDuringStop_not_admitted :
    ∃ s rows, Runs.run (step (fun _ => []) Sample.wire) (.init fun _ => Sample.host) writeDuringStop = some s ∧
      s.shutdown = .returned rows ∧ (∀ row ∈ rows, ∃ r, row.2 = .ok r) ∧ s.listening = false ∧
      (s.writer "w").Accepted 1 ∧ ¬ (s.writer "w").InGraph 1 := by
  have hrun : ((Runs.run (step (fun _ => []) Sample.wire) (.init fun _ => Sample.host)
      writeDuringStop).map fun s => (outcome s 1, s.listening, (s.writer "w").reported)) =
      some ((some [true], some true), false, []) := by decide
  obtain ⟨s, hs, hp⟩ := Option.map_eq_some_iff.mp hrun
  simp only [Prod.mk.injEq] at hp
  obtain ⟨hout, hstopped, hrep⟩ := hp
  obtain ⟨rows, hrows, hok, hacc⟩ := returned_of_outcome hout
  refine ⟨s, rows, hs, hrows, hok, hstopped, hacc, ?_⟩
  rintro ⟨d, hd, -⟩
  rw [hrep] at hd
  cases hd

end KinVfs.NfsServer
