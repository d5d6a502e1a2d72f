import KinVfs.Nfs.Server
import KinVfs.Shim.Framing
import KinVfs.Lib.Text

/-!
# An explicit sync (`request_sync`, `write_sync_result`)

A caller removes an old result, asks with one file and polls for the other. Neither file says which
request it is of, so the answer a caller reads can be of an admission that began before it asked. When no
such admission is under way and no result of one is there, an answer without an error covers every write
that was accepted before the request (`sync_covers`).
-/

namespace KinVfs.NfsServer

/-! ## The result file -/

section Text

variable (ioText : Posix.ErrorKind → String)

/-- A line of `write_sync_result`. -/
def renderRow : String × VfsResult (Option Admission) → List Char
  | (workspace, .ok (some admission)) =>
    "ok".toList ++ '\t' :: workspace.toList ++ '\t' :: admission.changeId.toList
  | (workspace, .ok none) => "empty".toList ++ '\t' :: workspace.toList ++ ['\t', '-']
  | (workspace, .error e) =>
    "error".toList ++ '\t' :: workspace.toList ++ '\t' :: (e.message ioText).toList

/-- `write_sync_result`. -/
def renderRows (rows : Rows) : List Char :=
  List.intercalate ['\n'] (rows.map (renderRow ioText)) ++ ['\n']

/-- A row of `request_sync`: the state, the workspace and the detail. -/
def parseRow (line : List Char) : List Char × List Char × List Char :=
  match Text.cut '\t' line with
  | (state, none) => (state, ['?'], [])
  | (state, some rest) =>
    match Text.cut '\t' rest with
    | (workspace, none) => (state, workspace, [])
    | (workspace, some detail) => (state, workspace, detail)

/-- The lines that are not blank. -/
def parseRows (raw : List Char) : List (List Char × List Char × List Char) :=
  ((Text.lines raw).filter fun line => !line.all Text.isWhitespace).map parseRow

/-- What `request_sync` returns for a result. -/
def syncRows (rows : Rows) : List (List Char × List Char × List Char) := parseRows (renderRows ioText rows)

/-- No row is an error. -/
def NoError (rows : Rows) : Prop := ∀ row ∈ syncRows ioText rows, row.1 ≠ "error".toList

variable {ioText} {rows : Rows}

theorem renderRows_cons (row : String × VfsResult (Option Admission)) (rows : Rows) :
    renderRows ioText (row :: rows) =
      renderRow ioText row ++ '\n' :: if rows = [] then [] else renderRows ioText rows := by
  cases rows with
  | nil => simp [renderRows, List.intercalate]
  | cons next rows => simp [renderRows, List.intercalate]

/-- A text that begins with `error` and a tab has a row with that state, wherever its lines end. -/
theorem error_row (text : List Char) :
    ∃ row ∈ parseRows ("error".toList ++ '\t' :: text ++ ['\n']), row.1 = "error".toList := by
  have hstart : Text.lines ("error".toList ++ '\t' :: text ++ ['\n']) =
      Text.linesFrom ("error".toList ++ ['\t']).reverse (text ++ ['\n']) := rfl
  have hcr : ("error".toList ++ ['\t']).reverse.reverse.getLast? ≠ some '\r' := by decide
  obtain ⟨rest, hrest⟩ := Text.mem_linesFrom hcr text
  rw [List.reverse_reverse] at hrest
  refine ⟨parseRow (("error".toList ++ ['\t']) ++ rest), ?_, ?_⟩
  · refine List.mem_map.mpr ⟨_, List.mem_filter.mpr ⟨?_, ?_⟩, rfl⟩
    · rw [hstart]
      exact hrest
    · have hletter : Text.isWhitespace 'e' = false := by decide
      show (!('e' :: _ : List Char).all Text.isWhitespace) = true
      rw [List.all_cons, hletter]
      rfl
  · have hcut : Text.cut '\t' (("error".toList ++ ['\t']) ++ rest) = ("error".toList, some rest) := by
      rw [List.append_assoc]
      exact Text.cut_append (by decide)
    unfold parseRow
    rw [hcut]
    dsimp only
    split <;> rfl

theorem parseRows_append (a text : List Char) :
    parseRows (a ++ '\n' :: text) = parseRows (a ++ ['\n']) ++ parseRows text := by
  unfold parseRows
  rw [Text.lines, Text.linesFrom_append, List.filter_append, List.map_append]
  rfl

/-- A failed admission is a row with the state `error`, whatever its texts hold. -/
theorem error_of_error {workspace : String} {e : VfsError} (h : (workspace, .error e) ∈ rows) :
    ¬ NoError ioText rows := by
  intro hno
  suffices ∃ row ∈ syncRows ioText rows, row.1 = "error".toList by
    obtain ⟨row, hrow, hstate⟩ := this
    exact hno row hrow hstate
  clear hno
  induction rows with
  | nil => cases h
  | cons row rows ih =>
    rw [syncRows, renderRows_cons, parseRows_append]
    rcases List.mem_cons.mp h with rfl | h
    · obtain ⟨row, hrow, hstate⟩ :=
        error_row (workspace.toList ++ '\t' :: (e.message ioText).toList)
      refine ⟨row, List.mem_append_left _ ?_, hstate⟩
      show row ∈ parseRows ("error".toList ++ '\t' :: workspace.toList ++ '\t' ::
        (e.message ioText).toList ++ ['\n'])
      simp only [List.append_assoc, List.cons_append] at hrow ⊢
      exact hrow
    · obtain ⟨row', hrow, hstate⟩ := ih h
      refine ⟨row', List.mem_append_right _ ?_, hstate⟩
      rw [if_neg (List.ne_nil_of_mem h)]
      exact hrow

theorem NoError.ok (h : NoError ioText rows) : ∀ row ∈ rows, ∃ r, row.2 = .ok r := by
  rintro ⟨workspace, outcome⟩ hrow
  cases outcome with
  | ok r => exact ⟨r, rfl⟩
  | error e => exact absurd h (error_of_error hrow)

end Text

/-! ## The steps of the admission loop -/

variable {roots : String → Posix.Path} {wire : Wire} {s t : State} {l : Label} {run : AdmitRun} {rows : Rows}
  {id : Nat}

/-- The loop is not at work for a sync. -/
def LoopPc.quiet : LoopPc → Bool
  | .idle | .due _ | .stopped => true
  | _ => false

/-- What a step does to the loop and to the result. -/
inductive LoopStep (s t : State) (l : Label) : Prop where
  | same (hl : t.loop = s.loop) (ht : t.taken = s.taken) (hr : t.result = s.result ∨ t.result = none)
  | quiet (hl : t.loop.quiet = true) (ht : t.taken = s.taken) (hr : t.result = s.result)
  | take (hl : t.loop = .taken (s.taken + 1)) (ht : t.taken = s.taken + 1) (hr : t.result = s.result)
  | list (id : Nat) (order : List String) (hs : s.loop = .taken id) (hperm : order.Perm s.slots)
      (hl : t.loop = .syncing id ⟨order, none, []⟩) (ht : t.taken = s.taken) (hr : t.result = s.result)
  | enter (id : Nat) (name : String) (todo : List String) (rows : Rows)
      (hs : s.loop = .syncing id ⟨name :: todo, none, rows⟩)
      (hl : t.loop = .syncing id ⟨todo, some (name, (s.writer name).calls.length), rows⟩)
      (hj : (t.writer name).calls[(s.writer name).calls.length]? = some (.admission .start))
      (ht : t.taken = s.taken) (hr : t.result = s.result)
  | leave (id : Nat) (name : String) (todo : List String) (j : Nat) (rows : Rows)
      (pending : List (VfsPath × Arc)) (r : VfsResult (Option Admission))
      (hs : s.loop = .syncing id ⟨todo, some (name, j), rows⟩)
      (hj : (s.writer name).calls[j]? = some (.admission (.done pending r))) (hw : t.writer = s.writer)
      (hl : t.loop = .syncing id ⟨todo, none, rows ++ [(name, r)]⟩)
      (ht : t.taken = s.taken) (hr : t.result = s.result)
  | finish (id : Nat) (rows : Rows) (hs : s.loop = .syncing id ⟨[], none, rows⟩)
      (hl : t.loop = .publishing id rows) (ht : t.taken = s.taken) (hr : t.result = s.result)
  | panics (hl : l = .panics) (hs : s.loop.quiet = false)
  | publish (id : Nat) (rows : Rows) (hs : s.loop = .publishing id rows) (hl : t.loop = .idle)
      (ht : t.taken = s.taken) (hr : t.result = some (id, rows) ∨ t.result = s.result)

theorem setRun_shutdown_keeps (run : AdmitRun) :
    (s.setRun run .shutdown).loop = s.loop ∧ (s.setRun run .shutdown).taken = s.taken ∧
      (s.setRun run .shutdown).result = s.result := by
  simp only [State.setRun]
  cases s.shutdown <;> exact ⟨rfl, rfl, rfl⟩

/-- The loop's admissions are of a sync or of the debounce. -/
theorem runOf_loop (h : s.runOf .loop = some run) : (∃ id, s.loop = .syncing id run) ∨ s.loop = .due run := by
  simp only [State.runOf] at h
  split at h
  · rename_i id run' hs
    cases h
    exact .inl ⟨id, hs⟩
  · rename_i run' hs
    cases h
    exact .inr hs
  · cases h

theorem stepEnter_loop {who : Who} (h : s.stepEnter who = some t) : LoopStep s t l := by
  unfold State.stepEnter at h
  split at h
  · rename_i name todo rows hrun
    cases h
    cases who with
    | shutdown =>
      obtain ⟨hl, ht, hr⟩ := setRun_shutdown_keeps (s := s.setWriter name
        { s.writer name with calls := (s.writer name).calls ++ [.admission .start] })
        ⟨todo, some (name, (s.writer name).calls.length), rows⟩
      exact .same hl ht (.inl hr)
    | loop =>
      rcases runOf_loop hrun with ⟨id, hs⟩ | hs
      · refine .enter id name todo rows hs ?_ ?_ ?_ ?_
        · simp only [State.setRun, State.setWriter, hs]
        · rw [writer_setRun, writer_setWriter, if_pos rfl]
          simp
        · simp only [State.setRun, State.setWriter, hs]
        · simp only [State.setRun, State.setWriter, hs]
      · refine .quiet ?_ ?_ ?_
        · simp only [State.setRun, State.setWriter, hs, LoopPc.quiet]
        · simp only [State.setRun, State.setWriter, hs]
        · simp only [State.setRun, State.setWriter, hs]
  · cases h

theorem stepLeave_loop {who : Who} (h : s.stepLeave who = some t) : LoopStep s t l := by
  unfold State.stepLeave at h
  split at h
  · rename_i todo name j rows hrun
    split at h
    · rename_i pending r hj
      cases h
      cases who with
      | shutdown =>
        obtain ⟨hl, ht, hr⟩ := setRun_shutdown_keeps (s := s) ⟨todo, none, rows ++ [(name, r)]⟩
        exact .same hl ht (.inl hr)
      | loop =>
        rcases runOf_loop hrun with ⟨id, hs⟩ | hs
        · refine .leave id name todo j rows pending r hs hj (writer_setRun _ _) ?_ ?_ ?_
          · simp only [State.setRun, hs]
          · simp only [State.setRun, hs]
          · simp only [State.setRun, hs]
        · refine .quiet ?_ ?_ ?_
          · simp only [State.setRun, hs, LoopPc.quiet]
          · simp only [State.setRun, hs]
          · simp only [State.setRun, hs]
    · cases h
  · cases h

theorem stepFinish_loop {who : Who} (h : s.stepFinish who = some t) : LoopStep s t l := by
  unfold State.stepFinish at h
  cases who with
  | loop =>
    dsimp only at h
    split at h
    · rename_i id rows hs
      cases h
      exact .finish id rows hs rfl rfl rfl
    · cases h
      exact .quiet rfl rfl rfl
    · cases h
  | shutdown =>
    dsimp only at h
    split at h
    · cases h
      exact .same rfl rfl (.inl rfl)
    · cases h

theorem stepCaller_loop {k : Nat} {op : CallerOp} (h : s.stepCaller k op = some t) : LoopStep s t l := by
  unfold State.stepCaller at h
  split at h
  · cases h
    exact .same rfl rfl (.inr rfl)
  · cases h
    exact .same rfl rfl (.inl rfl)
  · cases h
    exact .same rfl rfl (.inl rfl)
  · cases h
    exact .same rfl rfl (.inr rfl)
  · cases h
    exact .same rfl rfl (.inl rfl)
  · cases h

theorem stepPublish_loop {written : Bool} (h : s.stepPublish written = some t) : LoopStep s t l := by
  unfold State.stepPublish at h
  split at h
  · rename_i id rows hs
    cases h
    refine .publish id rows hs rfl rfl ?_
    cases written
    · exact .inr rfl
    · exact .inl rfl
  · cases h

theorem loop_step (h : step roots wire s l = some t) : LoopStep s t l := by
  cases l with
  | enter who => exact stepEnter_loop h
  | leave who => exact stepLeave_loop h
  | finish who => exact stepFinish_loop h
  | caller k op => exact stepCaller_loop h
  | panics =>
    cases hq : s.loop.quiet with
    | false => exact .panics rfl hq
    | true =>
      simp only [step, State.stepPanics] at h
      split at h <;> cases h
      · rename_i hs
        rw [hs] at hq
        cases hq
      · rename_i hs
        rw [hs] at hq
        cases hq
      · exact .quiet rfl rfl rfl
  | publish => exact stepPublish_loop h
  | publishFails => exact stepPublish_loop h
  | take =>
    simp only [step] at h
    split at h
    · split at h <;> cases h
      exact .take rfl rfl rfl
    · cases h
  | list order =>
    simp only [step, stepList] at h
    split at h
    · rename_i id hs
      split at h
      · rename_i hperm
        cases h
        exact .list id order hs hperm rfl rfl rfl
      · cases h
    · cases h
  | due names =>
    simp only [step] at h
    split at h
    · split at h <;> cases h
      exact .quiet rfl rfl rfl
    · cases h
  | stopLoop =>
    simp only [step] at h
    split at h
    · split at h <;> cases h
      exact .quiet rfl rfl rfl
    · cases h
  | newSlot name =>
    simp only [step] at h
    split at h <;> cases h
    exact .same rfl rfl (.inl rfl)
  | writer name l' =>
    simp only [step, stepWriter] at h
    split at h
    · obtain ⟨sys, -, rfl⟩ := Option.map_eq_some_iff.mp h
      exact .same rfl rfl (.inl rfl)
    · cases h
  | newCaller =>
    cases h
    exact .same rfl rfl (.inl rfl)
  | shutdown order =>
    simp only [step, stepShutdown] at h
    split at h
    · split at h <;> cases h
      exact .same rfl rfl (.inl rfl)
    · split at h <;> cases h
      exact .same rfl rfl (.inl rfl)
    · cases h
  | signal =>
    simp only [step] at h
    split at h <;> cases h
    exact .same rfl rfl (.inl rfl)
  | stopListener =>
    simp only [step] at h
    split at h <;> cases h
    exact .same rfl rfl (.inl rfl)

/-! ## The answers of the callers -/

/-- The result a caller has read. -/
def CallerPc.answer : CallerPc → Option (Nat × Rows)
  | .found id rows | .answered id rows => some (id, rows)
  | _ => none

def State.answerOf (s : State) (k : Nat) : Option (Nat × Rows) := s.callers[k]?.bind CallerPc.answer

theorem callers_setRun (run : AdmitRun) (who : Who) : (s.setRun run who).callers = s.callers := by
  unfold State.setRun
  cases who
  · cases s.loop <;> rfl
  · cases s.shutdown <;> rfl

def Label.ofCaller : Label → Bool
  | .newCaller | .caller .. => true
  | _ => false

theorem callers_keeps (h : step roots wire s l = some t) (hl : l.ofCaller = false) :
    t.callers = s.callers := by
  cases l with
  | newCaller => cases hl
  | caller k op => cases hl
  | writer name l' =>
    simp only [step, stepWriter] at h
    split at h
    · obtain ⟨sys, -, rfl⟩ := Option.map_eq_some_iff.mp h
      rfl
    · cases h
  | enter who =>
    simp only [step, State.stepEnter] at h
    split at h <;> cases h
    rw [callers_setRun]
    rfl
  | leave who =>
    simp only [step, State.stepLeave] at h
    split at h
    · split at h <;> cases h
      rw [callers_setRun]
    · cases h
  | finish who =>
    simp only [step, State.stepFinish] at h
    cases who
    · dsimp only at h
      split at h <;> cases h <;> rfl
    · dsimp only at h
      split at h <;> cases h
      rfl
  | _ =>
    simp only [step, stepList, stepShutdown, State.stepPanics, State.stepPublish] at h
    (repeat' split at h) <;> cases h <;> rfl

theorem answerOf_setCaller {k j : Nat} {pc : CallerPc} {a : Nat × Rows}
    (h : (s.setCaller j pc).answerOf k = some a) : s.answerOf k = some a ∨ k = j ∧ pc.answer = some a := by
  obtain ⟨pc', hpc', ha⟩ := Option.bind_eq_some_iff.mp h
  rw [State.setCaller, List.getElem?_set] at hpc'
  split at hpc'
  · rename_i hjk
    split at hpc'
    · cases hpc'
      exact .inr ⟨hjk.symm, ha⟩
    · cases hpc'
  · exact .inl (Option.bind_eq_some_iff.mpr ⟨pc', hpc', ha⟩)

/-- A caller reads the result that is there. -/
theorem answer_step {k : Nat} {a : Nat × Rows} (h : step roots wire s l = some t)
    (ha : t.answerOf k = some a) : s.answerOf k = some a ∨ s.result = some a := by
  cases hl : l.ofCaller with
  | false =>
    rw [State.answerOf, callers_keeps h hl] at ha
    exact .inl ha
  | true =>
    cases l with
    | newCaller =>
      cases h
      obtain ⟨pc, hpc, hans⟩ := Option.bind_eq_some_iff.mp ha
      change (s.callers ++ [.start])[k]? = some pc at hpc
      rw [List.getElem?_append] at hpc
      split at hpc
      · exact .inl (Option.bind_eq_some_iff.mpr ⟨pc, hpc, hans⟩)
      · rw [List.getElem?_singleton] at hpc
        split at hpc <;> cases hpc
        cases hans
    | caller j op =>
      simp only [step, State.stepCaller] at h
      split at h
      · cases h
        refine .inl ((answerOf_setCaller ha).resolve_right ?_)
        rintro ⟨-, hn⟩
        cases hn
      · cases h
        refine .inl ((answerOf_setCaller ha).resolve_right ?_)
        rintro ⟨-, hn⟩
        cases hn
      · rename_i id rows _ hres
        cases h
        rcases answerOf_setCaller ha with hold | ⟨-, hnew⟩
        · exact .inl hold
        · cases hnew
          exact .inr hres
      · rename_i id rows hfound
        cases h
        rcases answerOf_setCaller ha with hold | ⟨rfl, hnew⟩
        · exact .inl hold
        · cases hnew
          exact .inl (Option.bind_eq_some_iff.mpr ⟨_, hfound, rfl⟩)
      · cases h
        refine .inl ((answerOf_setCaller ha).resolve_right ?_)
        rintro ⟨-, hn⟩
        cases hn
      · cases h
    | _ => cases hl

/-! ## Since a request -/

/-- The number of the last sync whose admissions have begun. -/
def State.begun (s : State) : Nat :=
  match s.loop with
  | .taken _ => s.taken - 1
  | _ => s.taken

/-- No sync is under way: none has begun that is not answered, and no answer is there. -/
def State.Clear (s : State) : Prop :=
  s.result = none ∧
    match s.loop with
    | .syncing .. | .publishing .. => False
    | _ => True

/-- The task of a sync does not panic: it would publish no rows. -/
def NoPanic (s : State) (l : Label) : Prop := l = .panics → s.loop.quiet = true

/-- What the loop has done for the calls `A` in a sync that began after the `n`th. -/
def LoopPc.Covers (A : String → Nat → Prop) (n : Nat) (s : State) : LoopPc → Prop
  | .taken id => n < id
  | .syncing id run => n < id ∧ run.Covers A s
  | .publishing id rows => n < id ∧ RowsCover A s rows
  | _ => True

/-- What holds once caller `k` has asked: every result, and what it reads of them, is of a sync that began
after the `n`th and covers the calls `A`. -/
structure Since (A : String → Nat → Prop) (n k : Nat) (s : State) : Prop where
  accounted : ∀ w, Accounted (s.writer w)
  accepted : ∀ w i, A w i → (s.writer w).Accepted i
  slots : ∀ w i, A w i → w ∈ s.slots
  taken : n ≤ s.taken
  loop : s.loop.Covers A n s
  result : ∀ id rows, s.result = some (id, rows) → n < id ∧ RowsCover A s rows
  answer : ∀ id rows, s.answerOf k = some (id, rows) → n < id ∧ RowsCover A s rows

variable {A : String → Nat → Prop} {n k : Nat}

theorem Since.loop_step (hs : Since A n k s) (hl : NoPanic s l) (h : step roots wire s l = some t) :
    n ≤ t.taken ∧ t.loop.Covers A n t := by
  have hrun : ∀ {id : Nat} {run : AdmitRun}, s.loop = .syncing id run → n < id ∧ run.Covers A t := by
    intro id run hpc
    have hcov := hs.loop
    rw [hpc] at hcov
    exact ⟨hcov.1, hcov.2.step hs.accounted hs.accepted h⟩
  have hcov := hs.loop
  cases NfsServer.loop_step h with
  | same hpc ht _ =>
    refine ⟨ht ▸ hs.taken, ?_⟩
    rw [hpc]
    cases hs' : s.loop with
    | taken id =>
      rw [hs'] at hcov
      exact hcov
    | syncing id run => exact hrun hs'
    | publishing id rows =>
      rw [hs'] at hcov
      exact ⟨hcov.1, hcov.2.step h⟩
    | idle => trivial
    | due run => trivial
    | stopped => trivial
  | quiet hq ht _ =>
    refine ⟨ht ▸ hs.taken, ?_⟩
    cases hpc : t.loop with
    | idle => trivial
    | due run => trivial
    | stopped => trivial
    | _ =>
      rw [hpc] at hq
      cases hq
  | take hpc ht _ =>
    rw [hpc, ht]
    have htaken := hs.taken
    exact ⟨by omega, by simp only [LoopPc.Covers]; omega⟩
  | list id order hpc hperm hnew ht _ =>
    rw [hpc] at hcov
    rw [hnew]
    exact ⟨ht ▸ hs.taken, hcov, .start fun w i hi => hperm.mem_iff.mpr (hs.slots w i hi)⟩
  | enter id name todo rows hpc hnew hj ht _ =>
    rw [hnew]
    exact ⟨ht ▸ hs.taken, (hrun hpc).1, (hrun hpc).2.enter hj⟩
  | leave id name todo j rows pending r hpc hj hw hnew ht _ =>
    rw [hnew]
    exact ⟨ht ▸ hs.taken, (hrun hpc).1, (hrun hpc).2.leave (by rw [hw]; exact hj)⟩
  | finish id rows hpc hnew ht _ =>
    rw [hnew]
    exact ⟨ht ▸ hs.taken, (hrun hpc).1, (hrun hpc).2.finish⟩
  | panics hp hq =>
    rw [hl hp] at hq
    cases hq
  | publish id rows hpc hnew ht _ =>
    rw [hnew]
    exact ⟨ht ▸ hs.taken, trivial⟩

theorem Since.result_step (hs : Since A n k s) (hl : NoPanic s l) (h : step roots wire s l = some t)
    (hres : t.result = some (id, rows)) : n < id ∧ RowsCover A t rows := by
  have hold : s.result = some (id, rows) → n < id ∧ RowsCover A t rows := by
    intro hr
    obtain ⟨hn, hcov⟩ := hs.result id rows hr
    exact ⟨hn, hcov.step h⟩
  cases NfsServer.loop_step h with
  | same _ _ hr =>
    rcases hr with hr | hr
    · exact hold (hr ▸ hres)
    · rw [hr] at hres
      cases hres
  | quiet _ _ hr => exact hold (hr ▸ hres)
  | take _ _ hr => exact hold (hr ▸ hres)
  | list _ _ _ _ _ _ hr => exact hold (hr ▸ hres)
  | enter _ _ _ _ _ _ _ _ hr => exact hold (hr ▸ hres)
  | leave _ _ _ _ _ _ _ _ _ _ _ _ hr => exact hold (hr ▸ hres)
  | finish _ _ _ _ _ hr => exact hold (hr ▸ hres)
  | panics hp hq =>
    rw [hl hp] at hq
    cases hq
  | publish id' rows' hpc _ _ hr =>
    rcases hr with hr | hr
    · rw [hr] at hres
      cases hres
      have hcov := hs.loop
      rw [hpc] at hcov
      exact ⟨hcov.1, hcov.2.step h⟩
    · exact hold (hr ▸ hres)

theorem Since.step (hs : Since A n k s) (hl : NoPanic s l) (h : NfsServer.step roots wire s l = some t) :
    Since A n k t where
  accounted := accounted_step hs.accounted h
  accepted w i hi := accepted_step h (hs.accepted w i hi)
  slots w i hi := slots_step h (hs.slots w i hi)
  taken := (hs.loop_step hl h).1
  loop := (hs.loop_step hl h).2
  result _ _ hres := hs.result_step hl h hres
  answer id rows ha := by
    have hback : n < id ∧ RowsCover A s rows := by
      rcases answer_step h ha with hold | hres
      · exact hs.answer id rows hold
      · exact hs.result id rows hres
    exact ⟨hback.1, hback.2.step h⟩

/-- The syncs are numbered in the order they are taken. -/
theorem taken_numbered {hosts : String → Posix.Fs} {ls : List Label}
    (h : Runs.run (step roots wire) (.init hosts) ls = some s) (hpc : s.loop = .taken id) :
    id = s.taken ∧ 0 < id := by
  have hinv : ∀ id, s.loop = .taken id → id = s.taken ∧ 0 < id := by
    refine Runs.run_inv (P := fun s => ∀ id, s.loop = .taken id → id = s.taken ∧ 0 < id) ?_ ?_ h
    · intro s l t hs hstep id hid
      cases loop_step hstep with
      | same hl ht _ =>
        rw [ht]
        exact hs id (hl ▸ hid)
      | quiet hq _ _ =>
        rw [hid] at hq
        cases hq
      | take hl ht _ =>
        rw [hid] at hl
        cases hl
        exact ⟨ht.symm, Nat.succ_pos _⟩
      | list _ _ _ _ hl _ _ =>
        rw [hid] at hl
        cases hl
      | enter _ _ _ _ _ hl _ _ _ =>
        rw [hid] at hl
        cases hl
      | leave _ _ _ _ _ _ _ _ _ _ hl _ _ =>
        rw [hid] at hl
        cases hl
      | finish _ _ _ hl _ _ =>
        rw [hid] at hl
        cases hl
      | panics hl _ =>
        subst hl
        simp only [step, State.stepPanics] at hstep
        split at hstep <;> cases hstep <;> cases hid
      | publish _ _ _ hl _ _ =>
        rw [hid] at hl
        cases hl
    · intro id hid
      cases hid
  exact hinv id hpc

/-- The state in which the request is made. -/
theorem Since.start {hosts : String → Posix.Fs} {ls : List Label}
    (h : Runs.run (NfsServer.step roots wire) (.init hosts) ls = some s) (hclear : s.Clear)
    (hreq : NfsServer.step roots wire s (.caller k .request) = some t) :
    Since (fun w i => (s.writer w).Accepted i) s.begun k t := by
  have hwait : t = { s with request := true }.setCaller k .waiting ∧ k < s.callers.length := by
    simp only [NfsServer.step, State.stepCaller] at hreq
    split at hreq
    · rename_i hop _
      cases hop
    · rename_i hk
      cases hreq
      exact ⟨rfl, (List.getElem?_eq_some_iff.mp hk).1⟩
    · rename_i hop _ _
      cases hop
    · rename_i hop _
      cases hop
    · rename_i hop _
      cases hop
    · cases hreq
  obtain ⟨rfl, hlen⟩ := hwait
  obtain ⟨hres, hpc⟩ := hclear
  have hslots : ∀ w i, (s.writer w).Accepted i → w ∈ s.slots := fun _ _ hi => slot_of_accepted_run h hi
  have haccounted : ∀ w, Accounted (s.writer w) := accounted_run h
  refine ⟨haccounted, fun _ _ hi => hi, hslots, ?_, ?_, ?_, ?_⟩
  · show s.begun ≤ s.taken
    unfold State.begun
    split <;> omega
  · show s.loop.Covers _ _ _
    unfold State.begun
    cases hloop : s.loop with
    | taken id =>
      obtain ⟨hid, hpos⟩ := taken_numbered h hloop
      show s.taken - 1 < id
      omega
    | syncing id run => rw [hloop] at hpc; cases hpc
    | publishing id rows => rw [hloop] at hpc; cases hpc
    | idle => trivial
    | due run => trivial
    | stopped => trivial
  · intro id rows hr
    change s.result = _ at hr
    rw [hres] at hr
    cases hr
  · intro id rows ha
    obtain ⟨pc, hpc', hans⟩ := Option.bind_eq_some_iff.mp ha
    change (s.callers.set k .waiting)[k]? = some pc at hpc'
    rw [List.getElem?_set_self hlen] at hpc'
    cases hpc'
    cases hans

/-- The rows a sync returns, when none is an error, are of admissions that began after the request, and
every write accepted before it is in the graph. -/
theorem sync_covers {hosts : String → Posix.Fs} {ioText : Posix.ErrorKind → String} {before after : List Label}
    {s₁ : State} (hb : Runs.run (step roots wire) (.init hosts) before = some s₁) (hclear : s₁.Clear)
    (hm : Runs.Meets (step roots wire) NoPanic s₁ (.caller k .request :: after))
    (ha : Runs.run (step roots wire) s₁ (.caller k .request :: after) = some s)
    (hans : s.callers[k]? = some (.answered id rows)) (hno : NoError ioText rows) :
    s₁.begun < id ∧ ∀ w i, (s₁.writer w).Accepted i → (s.writer w).InGraph i := by
  obtain ⟨t, hreq, hrun⟩ := Runs.run_cons_eq_some.mp ha
  have hsince : Since (fun w i => (s₁.writer w).Accepted i) s₁.begun k s :=
    Runs.run_inv_of_meets (fun _ _ _ hs hl hstep => hs.step hl hstep) (Since.start hb hclear hreq)
      (hm.2 t hreq) hrun
  have hread : s.answerOf k = some (id, rows) := Option.bind_eq_some_iff.mpr ⟨_, hans, rfl⟩
  obtain ⟨hn, hcov⟩ := hsince.answer id rows hread
  exact ⟨hn, hcov hno.ok⟩

/-- A write is accepted, and a caller is about to ask. -/
def beforeSync : List Label :=
  .newSlot "w" :: (oneWrite.take 4).map (.writer "w") ++ [.newCaller, .caller 0 .remove]

/-- The loop takes the request and admits the write; the caller reads the answer. -/
def thenAnswered : List Label :=
  [.take, .list ["w"], .enter .loop] ++ (oneWrite.drop 5).map (.writer "w") ++
    [.leave .loop, .finish .loop, .publish, .caller 0 .read, .caller 0 .discard]

def noPanic (l : Label) : Bool :=
  match l with
  | .panics => false
  | _ => true

theorem noPanic_of_forall {ls : List Label} (h : ∀ l ∈ ls, noPanic l = true) :
    Runs.Meets (step roots wire) NoPanic s ls := by
  refine Runs.Meets.mono (Runs.meets_of_forall (C := fun l => noPanic l = true) h) ?_
  rintro _ l hl rfl
  cases hl

/-- The states of the rows caller `k` has returned. -/
def answered (s : State) (k : Nat) : Option (Nat × List (List Char)) :=
  match s.callers[k]? with
  | some (.answered id rows) => some (id, (syncRows (fun _ => "") rows).map (·.1))
  | _ => none

theorem of_answered {states : List (List Char)} (h : answered s k = some (id, states))
    (hne : "error".toList ∉ states) :
    ∃ rows, s.callers[k]? = some (.answered id rows) ∧ NoError (fun _ => "") rows := by
  unfold answered at h
  split at h
  · rename_i id' rows hc
    cases h
    refine ⟨rows, hc, fun row hrow hstate => hne ?_⟩
    exact List.mem_map.mpr ⟨row, hrow, hstate⟩
  · cases h

/-- The loop waits. -/
def LoopPc.isIdle : LoopPc → Bool
  | .idle => true
  | _ => false

theorem LoopPc.of_isIdle {pc : LoopPc} (h : pc.isIdle = true) : pc = .idle := by
  cases pc <;> first | rfl | cases h

theorem sync_covers_answered :
    ∃ s₁ s, Runs.run (step (fun _ => []) Sample.wire) (.init fun _ => Sample.host) beforeSync = some s₁ ∧
      Runs.run (step (fun _ => []) Sample.wire) s₁ (.caller 0 .request :: thenAnswered) = some s ∧
      (s₁.writer "w").Accepted 0 ∧ (s.writer "w").InGraph 0 := by
  have hbefore : ((Runs.run (step (fun _ => []) Sample.wire) (.init fun _ => Sample.host) beforeSync).map
      fun s => (s.loop.isIdle, s.result.isNone, (s.writer "w").calls[0]?.map Call.accepted)) = some (true, true, some true) := by decide
  have hafter : (((Runs.run (step (fun _ => []) Sample.wire) (.init fun _ => Sample.host) beforeSync).bind
      fun s => Runs.run (step (fun _ => []) Sample.wire) s (.caller 0 .request :: thenAnswered)).map
      fun s => answered s 0) = some (some (1, ["ok".toList])) := by decide +kernel
  obtain ⟨s₁, hs₁, hp⟩ := Option.map_eq_some_iff.mp hbefore
  simp only [Prod.mk.injEq, Option.map_eq_some_iff] at hp
  obtain ⟨hidle, hres, c, hc, hdone⟩ := hp
  rw [hs₁, Option.bind_some] at hafter
  obtain ⟨s, hs, hans⟩ := Option.map_eq_some_iff.mp hafter
  obtain ⟨rows, hrows, hno⟩ := of_answered hans (by simp)
  have hclear : s₁.Clear := by
    refine ⟨Option.isNone_iff_eq_none.mp hres, ?_⟩
    rw [LoopPc.of_isIdle hidle]
    trivial
  obtain ⟨m, rfl⟩ := Call.of_accepted hdone
  refine ⟨s₁, s, hs₁, hs, ⟨m, hc⟩, ?_⟩
  exact (sync_covers hs₁ hclear (noPanic_of_forall (by decide)) hs hrows hno).2 "w" 0 ⟨m, hc⟩

/-- The loop serves the request of caller 0 and has found nothing staged when a write is accepted; caller 1
is about to ask. -/
def beforeStale : List Label :=
  [.newSlot "w", .newCaller, .newCaller, .caller 0 .remove, .caller 0 .request, .take, .list ["w"],
    .enter .loop, .writer "w" (.snapshot 0)] ++
  ([.call (.mutation (.writeAt Sample.a 0 [1])), .disk 1, .stat 1, .mark 1 1 0] : List KinVfs.Label).map
    (.writer "w") ++
  [.caller 1 .remove]

/-- The result of caller 0's request is published, and caller 1 reads it. -/
def thenStale : List Label :=
  [.leave .loop, .finish .loop, .publish, .caller 1 .read, .caller 1 .discard]

/-- Caller 1 is answered without an error, by an admission that began before it asked; its write is in no
commit. -/
theorem stale_not_covered :
    ∃ s₁ s id rows,
      Runs.run (step (fun _ => []) Sample.wire) (.init fun _ => Sample.host) beforeStale = some s₁ ∧
      Runs.run (step (fun _ => []) Sample.wire) s₁ (.caller 1 .request :: thenStale) = some s ∧
      s.callers[1]? = some (.answered id rows) ∧ NoError (fun _ => "") rows ∧ ¬ s₁.begun < id ∧
      (s₁.writer "w").Accepted 1 ∧ ¬ (s.writer "w").InGraph 1 := by
  have hbefore : ((Runs.run (step (fun _ => []) Sample.wire) (.init fun _ => Sample.host) beforeStale).map
      fun s => (s.begun, (s.writer "w").calls[1]?.map Call.accepted)) = some (1, some true) := by decide +kernel
  have hafter : (((Runs.run (step (fun _ => []) Sample.wire) (.init fun _ => Sample.host) beforeStale).bind
      fun s => Runs.run (step (fun _ => []) Sample.wire) s (.caller 1 .request :: thenStale)).map
      fun s => (answered s 1, (s.writer "w").reported)) = some (some (1, ["empty".toList]), []) := by decide +kernel
  obtain ⟨s₁, hs₁, hp⟩ := Option.map_eq_some_iff.mp hbefore
  simp only [Prod.mk.injEq, Option.map_eq_some_iff] at hp
  obtain ⟨hbegun, c, hc, hdone⟩ := hp
  rw [hs₁, Option.bind_some] at hafter
  obtain ⟨s, hs, hp⟩ := Option.map_eq_some_iff.mp hafter
  obtain ⟨hans, hrep⟩ := Prod.mk.inj hp
  obtain ⟨rows, hrows, hno⟩ := of_answered hans (by simp)
  obtain ⟨m, rfl⟩ := Call.of_accepted hdone
  refine ⟨s₁, s, 1, rows, hs₁, hs, hrows, hno, ?_, ⟨m, hc⟩, ?_⟩
  · rw [hbegun]
    decide
  · rintro ⟨d, hd, -⟩
    rw [hrep] at hd
    cases hd

end KinVfs.NfsServer
