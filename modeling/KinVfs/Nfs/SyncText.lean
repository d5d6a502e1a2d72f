import KinVfs.Nfs.Sync

/-!
# The text of a sync result

`write_sync_result` writes a line for each workspace, with tabs between the state, the name and the detail;
`request_sync` reads the lines back. Nothing is escaped, so a result is read back as it was written exactly
when no text breaks its line or its column (`sync_text_round_trip`).
-/

namespace KinVfs.NfsServer

/-- A workspace and the change, if there was one, or the reason of the failure. -/
abbrev SyncOutcome := String × Except String (Option String)

/-- The first column. -/
def SyncOutcome.state : SyncOutcome → List Char
  | (_, .ok (some _)) => "ok".toList
  | (_, .ok none) => "empty".toList
  | (_, .error _) => "error".toList

/-- The last column. -/
def SyncOutcome.detail : SyncOutcome → List Char
  | (_, .ok (some changeId)) => changeId.toList
  | (_, .ok none) => ['-']
  | (_, .error reason) => reason.toList

/-- A line of `write_sync_result`. -/
def SyncOutcome.line (r : SyncOutcome) : List Char :=
  r.state ++ '\t' :: (r.1.toList ++ '\t' :: r.detail)

/-- `write_sync_result`. -/
def writeSyncResult (results : List SyncOutcome) : List Char :=
  List.intercalate ['\n'] (results.map SyncOutcome.line) ++ ['\n']

/-- What `admit_now` reports of an admission. -/
def reported (ioText : Posix.ErrorKind → String) : String × VfsResult (Option Admission) → SyncOutcome
  | (workspace, .ok admission) => (workspace, .ok (admission.map (·.changeId)))
  | (workspace, .error e) => (workspace, .error (e.message ioText))

/-- The file of a sync is the text of what `admit_now` reports. -/
theorem renderRows_eq_writeSyncResult (ioText : Posix.ErrorKind → String) (rows : Rows) :
    renderRows ioText rows = writeSyncResult (rows.map (reported ioText)) := by
  have hrow : ∀ row, renderRow ioText row = (reported ioText row).line := by
    rintro ⟨workspace, outcome⟩
    cases outcome with
    | error e => rfl
    | ok admission => cases admission <;> rfl
  rw [renderRows, writeSyncResult, List.map_map]
  congr 3
  funext row
  exact hrow row

/-- The row that a caller should read. -/
def SyncOutcome.row (r : SyncOutcome) : List Char × List Char × List Char := (r.state, r.1.toList, r.detail)

/-- No text of the outcome ends its column or its line. -/
structure SyncOutcome.Plain (r : SyncOutcome) : Prop where
  nameTab : '\t' ∉ r.1.toList
  nameLine : '\n' ∉ r.1.toList
  detailLine : '\n' ∉ r.detail
  /-- `lines` takes a carriage return for a part of the line's end. -/
  detailEnd : r.detail.getLast? ≠ some '\r'

variable {line name detail : List Char} {state : List Char}

/-- A row has no tab in its name, and only letters of its line, or a question mark. -/
theorem parseRow_mem (h : parseRow line = (state, name, detail)) :
    '\t' ∉ name ∧ (∀ c ∈ name, c ∈ line ∨ c = '?') ∧ ∀ c ∈ detail, c ∈ line := by
  unfold parseRow at h
  split at h
  · cases h
    refine ⟨by decide, fun c hc => .inr (List.mem_singleton.mp hc), nofun⟩
  · rename_i first rest hcut
    have hline := (Text.cut_eq_some hcut).1
    split at h
    · rename_i workspace hcut'
      obtain ⟨hrest, hname⟩ := Text.cut_eq_none hcut'
      cases h
      refine ⟨hname, fun c hc => .inl ?_, nofun⟩
      rw [hline, hrest]
      simp [hc]
    · rename_i workspace last hcut'
      obtain ⟨hrest, hname⟩ := Text.cut_eq_some hcut'
      cases h
      refine ⟨hname, fun c hc => .inl ?_, fun c hc => ?_⟩
      · rw [hline, hrest]
        simp [hc]
      · rw [hline, hrest]
        simp [hc]

theorem parseRow_line (hstate : '\t' ∉ state) (hname : '\t' ∉ name) :
    parseRow (state ++ '\t' :: (name ++ '\t' :: detail)) = (state, name, detail) := by
  rw [parseRow, Text.cut_append hstate]
  dsimp only
  rw [Text.cut_append hname]

/-- The state is a word, so its line is not blank. -/
theorem SyncOutcome.state_eq (r : SyncOutcome) :
    ∃ c rest, r.state = c :: rest ∧ Text.isWhitespace c = false ∧ '\t' ∉ c :: rest ∧ '\n' ∉ c :: rest := by
  obtain ⟨workspace, outcome⟩ := r
  cases outcome with
  | error reason => exact ⟨'e', "rror".toList, rfl, by decide, by decide, by decide⟩
  | ok change =>
    cases change with
    | none => exact ⟨'e', "mpty".toList, rfl, by decide, by decide, by decide⟩
    | some id => exact ⟨'o', "k".toList, rfl, by decide, by decide, by decide⟩

variable {r : SyncOutcome} {results : List SyncOutcome}

/-- The letters of the first line of an outcome. -/
def SyncOutcome.firstLine (r : SyncOutcome) : List Char :=
  Text.stripCr (r.line.takeWhile (· != '\n'))

/-- What is read of an outcome begins with the row of its first line, and is only that if it has no other. -/
theorem parseRows_line (r : SyncOutcome) :
    ∃ rest, parseRows (r.line ++ ['\n']) = parseRow r.firstLine :: rest ∧ ('\n' ∉ r.line → rest = []) := by
  obtain ⟨lines, hlines, hnil⟩ := Text.linesFrom_eq_cons [] r.line
  obtain ⟨c, word, hstate, hletter, -, hnew⟩ := r.state_eq
  have hblank : r.firstLine.all Text.isWhitespace = false := by
    have hc : (c != '\n') = true := by
      rw [bne_iff_ne]
      rintro rfl
      exact hnew List.mem_cons_self
    have hcr : [c].getLast? ≠ some '\r' := by
      intro heq
      cases heq
      exact absurd hletter (by decide)
    obtain ⟨rest, hrest⟩ := Text.stripCr_append (a := (word ++ '\t' :: (r.1.toList ++ '\t' ::
      r.detail)).takeWhile (· != '\n')) hcr
    have hline : r.firstLine = c :: rest := by
      rw [SyncOutcome.firstLine, SyncOutcome.line, hstate, List.cons_append,
        List.takeWhile_cons_of_pos (p := (· != '\n')) hc]
      exact hrest
    rw [hline, List.all_cons, hletter, Bool.false_and]
  refine ⟨(lines.filter fun line => !line.all Text.isWhitespace).map parseRow, ?_, fun hno => ?_⟩
  · rw [parseRows, Text.lines, hlines, List.reverse_nil, List.nil_append, ← SyncOutcome.firstLine,
      List.filter_cons_of_pos (by rw [hblank]; rfl), List.map_cons]
  · rw [hnil hno]
    rfl

theorem takeWhile_line (h : '\n' ∉ line) : line.takeWhile (· != '\n') = line := by
  rw [List.takeWhile_eq_self_iff]
  intro x hx
  rw [bne_iff_ne]
  rintro rfl
  exact h hx

/-- The last letter of a line is one of the detail, or the tab before it. -/
theorem SyncOutcome.getLast?_line (r : SyncOutcome) :
    r.line.getLast? = r.detail.getLast?.or (some '\t') := by
  have hline : r.line = (r.state ++ '\t' :: r.1.toList ++ ['\t']) ++ r.detail := by
    simp [SyncOutcome.line]
  rw [hline, List.getLast?_append, List.getLast?_concat]

/-- An outcome without line breaks is one line. -/
theorem SyncOutcome.not_mem_line (hname : '\n' ∉ r.1.toList) (hdetail : '\n' ∉ r.detail) : '\n' ∉ r.line := by
  obtain ⟨c, word, hstate, -, -, hnew⟩ := r.state_eq
  rw [← hstate] at hnew
  simp [SyncOutcome.line, hnew, hname, hdetail]

/-- Of a plain outcome no letter is lost. -/
theorem SyncOutcome.Plain.firstLine (h : r.Plain) : r.firstLine = r.line := by
  have hend : r.line.getLast? ≠ some '\r' := by
    rw [r.getLast?_line]
    cases hdetail : r.detail.getLast? with
    | none => decide
    | some c =>
      rw [← hdetail]
      simpa [hdetail] using h.detailEnd
  rw [SyncOutcome.firstLine, takeWhile_line (SyncOutcome.not_mem_line h.nameLine h.detailLine), Text.stripCr,
    if_neg hend]

theorem SyncOutcome.not_mem_firstLine (r : SyncOutcome) : '\n' ∉ r.firstLine := by
  have hwhile : '\n' ∉ r.line.takeWhile (· != '\n') := by
    intro hmem
    have := List.mem_takeWhile_imp hmem
    simp at this
  unfold SyncOutcome.firstLine Text.stripCr
  split
  · exact fun hmem => hwhile (List.mem_of_mem_dropLast hmem)
  · exact hwhile

/-- The row of the first line is the row of the outcome exactly when this is plain. -/
theorem parseRow_firstLine : parseRow r.firstLine = r.row ↔ r.Plain := by
  obtain ⟨c, word, hstate, -, htab, -⟩ := r.state_eq
  rw [← hstate] at htab
  constructor
  · intro h
    obtain ⟨hnameTab, hname, hdetail⟩ := parseRow_mem h
    have hnameLine : '\n' ∉ r.1.toList := fun hmem =>
      (hname '\n' hmem).elim r.not_mem_firstLine (by decide)
    have hdetailLine : '\n' ∉ r.detail := fun hmem => r.not_mem_firstLine (hdetail '\n' hmem)
    refine ⟨hnameTab, hnameLine, hdetailLine, fun hend => ?_⟩
    -- The carriage return at the end is taken off, and the detail is one letter short.
    obtain ⟨short, hshort⟩ := List.getLast?_eq_some_iff.mp hend
    have hline : r.line = (r.state ++ '\t' :: (r.1.toList ++ '\t' :: short)) ++ ['\r'] := by
      simp [SyncOutcome.line, hshort]
    have hfirst : r.firstLine = r.state ++ '\t' :: (r.1.toList ++ '\t' :: short) := by
      rw [SyncOutcome.firstLine, takeWhile_line (SyncOutcome.not_mem_line hnameLine hdetailLine), Text.stripCr,
        r.getLast?_line, hend, Option.some_or, if_pos rfl, hline, List.dropLast_concat]
    rw [hfirst, parseRow_line htab hnameTab] at h
    have hsame : short = r.detail := congrArg (·.2.2) h
    have := congrArg List.length (hsame.trans hshort)
    simp at this
  · intro h
    rw [h.firstLine]
    exact parseRow_line htab h.nameTab

theorem writeSyncResult_cons (r : SyncOutcome) (results : List SyncOutcome) :
    parseRows (writeSyncResult (r :: results)) =
      parseRows (r.line ++ ['\n']) ++ parseRows (writeSyncResult results) := by
  cases results with
  | nil =>
    have hnil : parseRows (writeSyncResult []) = [] := rfl
    rw [hnil]
    simp [writeSyncResult, List.intercalate]
  | cons next results =>
    rw [← parseRows_append]
    simp [writeSyncResult, List.intercalate]

/-- **A sync result is read back as it was written**, a row for each workspace, exactly when every outcome
is plain. -/
theorem sync_text_round_trip (results : List SyncOutcome) :
    parseRows (writeSyncResult results) = results.map SyncOutcome.row ↔ ∀ r ∈ results, r.Plain := by
  induction results with
  | nil => exact iff_of_true rfl nofun
  | cons r results ih =>
    obtain ⟨rest, hrest, hnil⟩ := parseRows_line r
    rw [writeSyncResult_cons, hrest, List.map_cons, List.cons_append, List.cons.injEq, parseRow_firstLine,
      List.forall_mem_cons]
    refine and_congr_right fun hplain => ?_
    rw [hnil (SyncOutcome.not_mem_line hplain.nameLine hplain.detailLine), List.nil_append]
    exact ih

/-- The second line of a reason is a row of its own. -/
theorem not_sync_text_round_trip :
    parseRows (writeSyncResult [("w", .error "HTTP 500: no\nok\tw2\tc9")]) =
        [("error".toList, "w".toList, "HTTP 500: no".toList), ("ok".toList, "w2".toList, "c9".toList)] ∧
      parseRows (writeSyncResult [("w", .error "HTTP 500: no\nok\tw2\tc9")]) ≠
        [SyncOutcome.row ("w", .error "HTTP 500: no\nok\tw2\tc9")] := by
  decide +kernel

end KinVfs.NfsServer
