import KinVfs.Core.PathMap
import Mathlib.Data.List.Forall2

/-!
# What the key mapping accepts

`workspaceGraphKey` in closed form (`Maps`): both paths absolute and clean, the root's names a prefix of the
path's, and the key what is left. Its last check never fails. Over a list of roots the mapping succeeds
exactly when every root that contains the path gives the same key and none is refused; the order of the roots
does not matter.
-/

namespace KinVfs

/-! ## The names of an absolute path -/

/-- A name that is kept: not empty, not `.`. -/
def isNamed (c : Bytes) : Bool := !(c.isEmpty || c == [dot])

/-- The names of a path, without empty ones and `.`. -/
def namesOf (rest : Bytes) : List Bytes := (rest.splitOn slash).filter isNamed

/-- No component is `..`, none has a NUL. -/
def Clean (rest : Bytes) : Prop := ∀ c ∈ rest.splitOn slash, c ≠ [dot, dot] ∧ (0 : UInt8) ∉ c

/-- An absolute path: a leading slash, or a drive (`X:`) before one. -/
def Absolute (path : Bytes) (drive : Option Bytes) (rest : Bytes) : Prop :=
  match drive with
  | none => path.head? = some slash ∧ rest = path
  | some d => path.head? ≠ some slash ∧ path = d ++ rest ∧ d.length = 2 ∧ d[1]? = some 58 ∧
      rest.head? = some slash

theorem pushComponent_iff {acc res : List Bytes} {c : Bytes} :
    pushComponent acc c = .ok res ↔
      (c ≠ [dot, dot] ∧ (0 : UInt8) ∉ c) ∧ res = acc ++ [c].filter isNamed := by
  unfold pushComponent
  by_cases h1 : c = [] ∨ c = [dot]
  · rw [if_pos h1]
    have hdrop : isNamed c = false := by
      rcases h1 with rfl | rfl <;> rfl
    have hclean : c ≠ [dot, dot] ∧ (0 : UInt8) ∉ c := by
      rcases h1 with rfl | rfl <;> decide
    rw [List.filter_singleton, hdrop]
    simp [hclean, eq_comm]
  · rw [if_neg h1]
    have hkeep : isNamed c = true := by
      rw [not_or] at h1
      simp [isNamed, h1]
    by_cases h2 : c = [dot, dot]
    · simp [h2]
    · rw [if_neg h2]
      by_cases h3 : (0 : UInt8) ∈ c
      · simp [h3]
      · rw [if_neg (by simpa using h3), List.filter_singleton, hkeep]
        simp [h2, h3, eq_comm]

theorem foldlM_pushComponent_iff {cs acc res : List Bytes} :
    cs.foldlM pushComponent acc = .ok res ↔
      (∀ c ∈ cs, c ≠ [dot, dot] ∧ (0 : UInt8) ∉ c) ∧ res = acc ++ cs.filter isNamed := by
  induction cs generalizing acc with
  | nil => simp [pure, Except.pure, eq_comm]
  | cons c cs ih =>
    have hsplit : (c :: cs).filter isNamed = [c].filter isNamed ++ cs.filter isNamed := by
      rw [← List.filter_append]
      rfl
    rw [List.foldlM_cons]
    cases hc : pushComponent acc c with
    | error e =>
      have hnot : ¬ (c ≠ [dot, dot] ∧ (0 : UInt8) ∉ c) := by
        intro hcon
        have := pushComponent_iff.mpr ⟨hcon, (rfl : acc ++ [c].filter isNamed = _)⟩
        rw [hc] at this
        cases this
      constructor
      · intro h
        cases h
      · intro h
        exact absurd (h.1 c List.mem_cons_self) hnot
    | ok next =>
      obtain ⟨hclean, rfl⟩ := pushComponent_iff.mp hc
      show cs.foldlM pushComponent (acc ++ [c].filter isNamed) = .ok res ↔ _
      rw [ih, hsplit, List.append_assoc]
      simp only [List.mem_cons, forall_eq_or_imp, hclean, true_and, ne_eq, not_false_eq_true, and_self]

theorem foldlM_names_iff {rest : Bytes} {res : List Bytes} :
    (rest.splitOn slash).foldlM pushComponent [] = .ok res ↔ Clean rest ∧ res = namesOf rest :=
  foldlM_pushComponent_iff

theorem pair_ok_iff {d drive : Option Bytes} {x : Except WorkspacePathError (List Bytes)} {cs : List Bytes} :
    (do return (d, ← x) : Except WorkspacePathError (Option Bytes × List Bytes)) = .ok (drive, cs) ↔
      drive = d ∧ x = .ok cs := by
  cases x with
  | error e => simp [bind, Except.bind]
  | ok r => simp [bind, Except.bind, pure, Except.pure, eq_comm]

/-- `components` accepts the clean absolute paths. -/
theorem hostComponents_iff {input : Bytes} {drive : Option Bytes} {cs : List Bytes} :
    hostComponents input = .ok (drive, cs) ↔ ∃ rest, Absolute input drive rest ∧ Clean rest ∧ cs = namesOf rest := by
  unfold hostComponents
  by_cases h : input.head? = some slash
  · rw [if_pos h, pair_ok_iff, foldlM_names_iff]
    constructor
    · rintro ⟨rfl, hclean, hcs⟩
      exact ⟨input, ⟨h, rfl⟩, hclean, hcs⟩
    · rintro ⟨rest, habs, hclean, hcs⟩
      cases drive with
      | none =>
        obtain ⟨-, rfl⟩ := habs
        exact ⟨rfl, hclean, hcs⟩
      | some d => exact absurd h habs.1
  · rw [if_neg h]
    split
    · rename_i hdrive
      rw [pair_ok_iff, foldlM_names_iff]
      constructor
      · rintro ⟨rfl, hclean, hcs⟩
        refine ⟨input.drop 2, ⟨h, (List.take_append_drop 2 input).symm, ?_, ?_, ?_⟩, hclean, hcs⟩
        · have := (List.getElem?_eq_some_iff.mp hdrive.2).1
          rw [List.length_take]
          omega
        · rw [List.getElem?_take_of_lt (by omega)]
          exact hdrive.1
        · rw [List.head?_drop]
          exact hdrive.2
      · rintro ⟨rest, habs, hclean, hcs⟩
        cases drive with
        | none => exact absurd habs.1 h
        | some d =>
          obtain ⟨-, rfl, hlen, -, -⟩ := habs
          rw [List.take_append_of_le_length (by omega), List.take_of_length_le (by omega),
            List.drop_append_of_le_length (by omega), List.drop_of_length_le (by omega)]
          exact ⟨rfl, hclean, hcs⟩
    · rename_i hdrive
      constructor
      · intro hcon
        cases hcon
      · rintro ⟨rest, habs, -, -⟩
        cases drive with
        | none => exact absurd habs.1 h
        | some d =>
          obtain ⟨-, rfl, hlen, hcolon, hslash⟩ := habs
          refine absurd ⟨?_, ?_⟩ hdrive
          · rw [List.getElem?_append_left (by omega)]
            exact hcolon
          · rw [List.getElem?_append_right (by omega), hlen, Nat.sub_self, ← List.head?_eq_getElem?]
            exact hslash

/-! ## The mapping in closed form -/

/-- Two names are the same: without case on a drive. -/
def SameName (drive : Option Bytes) (a b : Bytes) : Prop :=
  if drive.isSome then eqIgnoreAsciiCase a b = true else a = b

/-- The names of `root`, and behind them those of the key, make up `path`. -/
def Maps (path root key : Bytes) : Prop :=
  ∃ drive drive' p r front rest, Absolute path drive p ∧ Absolute root drive' r ∧
    samePrefix drive drive' = true ∧ Clean p ∧ Clean r ∧ namesOf p = front ++ rest ∧
    List.Forall₂ (SameName drive) front (namesOf r) ∧ key = joinComponents rest

theorem zip_all_iff {path root : List Bytes} :
    ¬ path.length < root.length ∧ ((path.zip root).all fun c => eqIgnoreAsciiCase c.1 c.2) = true ↔
      ∃ front rest, path = front ++ rest ∧ List.Forall₂ (fun a b => eqIgnoreAsciiCase a b = true) front root := by
  induction root generalizing path with
  | nil => simp
  | cons b root ih =>
    cases path with
    | nil => simp
    | cons a path =>
      have hlen : ¬ (a :: path).length < (b :: root).length ↔ ¬ path.length < root.length := by simp
      rw [hlen, List.zip_cons_cons, List.all_cons, Bool.and_eq_true, and_left_comm, ih]
      constructor
      · rintro ⟨hab, front, rest, rfl, hfront⟩
        exact ⟨a :: front, rest, rfl, .cons hab hfront⟩
      · rintro ⟨front, rest, hpath, hfront⟩
        cases hfront with
        | cons hab hfront =>
          obtain ⟨rfl, rfl⟩ := List.cons.inj hpath
          exact ⟨hab, _, rest, rfl, hfront⟩

/-- The test of the root, as the names it leaves. -/
theorem rootMatches_iff {drive : Option Bytes} {path root : List Bytes} :
    ¬ path.length < root.length ∧ rootMatches drive path root = true ↔
      ∃ front rest, path = front ++ rest ∧ List.Forall₂ (SameName drive) front root := by
  cases drive with
  | some d => exact zip_all_iff
  | none =>
    have hsame : SameName none = Eq := by
      funext a b
      simp [SameName]
    show _ ∧ root.isPrefixOf path = true ↔ _
    rw [hsame, List.isPrefixOf_iff_prefix]
    constructor
    · rintro ⟨-, rest, rfl⟩
      exact ⟨root, rest, rfl, by rw [List.forall₂_eq_eq_eq]⟩
    · rintro ⟨front, rest, rfl, hfront⟩
      rw [List.forall₂_eq_eq_eq] at hfront
      subst hfront
      exact ⟨by simp, List.prefix_append _ _⟩

theorem isComponent_of_mem_namesOf {rest c : Bytes} (hclean : Clean rest) (hc : c ∈ namesOf rest) :
    IsComponent c := by
  obtain ⟨hmem, hnamed⟩ := List.mem_filter.mp hc
  obtain ⟨hdots, hnul⟩ := hclean c hmem
  have hplain : c ≠ [] ∧ c ≠ [dot] := by
    simpa [isNamed] using hnamed
  exact ⟨validateComponent_ok.mpr ⟨hplain.1, hplain.2, hdots, hnul⟩, slash_not_mem_splitOn hmem⟩

/-- The mapping of a path and a root that are both accepted. -/
theorem workspaceGraphKey_of_ok {path root : Bytes} {drive drive' : Option Bytes} {pc rc : List Bytes}
    (hp : hostComponents path = .ok (drive, pc)) (hr : hostComponents root = .ok (drive', rc)) :
    workspaceGraphKey path root =
      if samePrefix drive drive' = true ∧ ¬ pc.length < rc.length ∧ rootMatches drive pc rc = true then
        (VfsPath.fromBytes (joinComponents (pc.drop rc.length))).mapError fun _ => .invalidPath
      else .error .outsideRoot := by
  unfold workspaceGraphKey
  rw [hp, hr]
  by_cases hsame : samePrefix drive drive' = true
  · by_cases hfit : ¬ pc.length < rc.length ∧ rootMatches drive pc rc = true
    · rw [if_pos ⟨hsame, hfit⟩]
      simp [bind, Except.bind, hsame, hfit]
    · rw [if_neg fun hcon => hfit hcon.2]
      have hout : pc.length < rc.length ∨ rootMatches drive pc rc = false := by
        rw [not_and_or, not_not, Bool.not_eq_true] at hfit
        exact hfit
      simp [bind, Except.bind, throw, throwThe, MonadExceptOf.throw, hsame, hout]
  · rw [if_neg fun hcon => hsame hcon.1]
    simp [bind, Except.bind, throw, throwThe, MonadExceptOf.throw, hsame]

/-- Both inputs were accepted. -/
theorem components_of_workspaceGraphKey {path root : Bytes} {key : VfsPath}
    (h : workspaceGraphKey path root = .ok key) :
    ∃ drive drive' pc rc, hostComponents path = .ok (drive, pc) ∧ hostComponents root = .ok (drive', rc) := by
  unfold workspaceGraphKey at h
  cases hp : hostComponents path with
  | error e =>
    rw [hp] at h
    cases h
  | ok p =>
    cases hr : hostComponents root with
    | error e =>
      rw [hp, hr] at h
      cases h
    | ok r => exact ⟨p.1, r.1, p.2, r.2, rfl, rfl⟩

theorem workspaceGraphKey_ok_iff {path root : Bytes} {key : VfsPath} :
    workspaceGraphKey path root = .ok key ↔ Maps path root key.bytes := by
  constructor
  · intro h
    obtain ⟨drive, drive', pc, rc, hp, hr⟩ := components_of_workspaceGraphKey h
    rw [workspaceGraphKey_of_ok hp hr] at h
    split at h
    · rename_i hcond
      obtain ⟨p, hpabs, hpclean, rfl⟩ := hostComponents_iff.mp hp
      obtain ⟨r, hrabs, hrclean, rfl⟩ := hostComponents_iff.mp hr
      obtain ⟨front, rest, hsplit, hfront⟩ := rootMatches_iff.mp hcond.2
      have hkey : key.bytes = joinComponents rest := by
        rw [hsplit, ← hfront.length_eq, List.drop_left] at h
        cases hv : VfsPath.fromBytes (joinComponents rest) with
        | error e =>
          rw [hv] at h
          cases h
        | ok k =>
          rw [hv] at h
          cases h
          exact VfsPath.fromBytes_ok.mp hv
      exact ⟨drive, drive', p, r, front, rest, hpabs, hrabs, hcond.1, hpclean, hrclean, hsplit, hfront, hkey⟩
    · cases h
  · rintro ⟨drive, drive', p, r, front, rest, hpabs, hrabs, hsame, hpclean, hrclean, hsplit, hfront, hkey⟩
    rw [workspaceGraphKey_of_ok (hostComponents_iff.mpr ⟨p, hpabs, hpclean, rfl⟩)
      (hostComponents_iff.mpr ⟨r, hrabs, hrclean, rfl⟩),
      if_pos ⟨hsame, rootMatches_iff.mpr ⟨front, rest, hsplit, hfront⟩⟩, hsplit, ← hfront.length_eq, List.drop_left,
      VfsPath.fromBytes_ok.mpr hkey]
    rfl

/-- What is left of the path is a key: the last check never fails. -/
theorem Maps.valid {path root key : Bytes} (h : Maps path root key) : ∃ k : VfsPath, k.bytes = key := by
  obtain ⟨-, -, p, -, front, rest, -, -, -, hclean, -, hsplit, -, rfl⟩ := h
  have hrest : ∀ c ∈ rest, IsComponent c := by
    intro c hc
    refine isComponent_of_mem_namesOf hclean ?_
    rw [hsplit]
    exact List.mem_append_right _ hc
  exact ⟨⟨joinComponents rest, checkPath_ok.mpr ⟨rest, hrest, rfl⟩⟩, rfl⟩

/-- The mapping is `Maps`, every key it leaves is one, and it undoes a join with a root. -/
theorem workspaceGraphKey_characterized (path root : Bytes) :
    (∀ key : VfsPath, workspaceGraphKey path root = .ok key ↔ Maps path root key.bytes) ∧
      (∀ key : Bytes, Maps path root key → ∃ k : VfsPath, k.bytes = key ∧ workspaceGraphKey path root = .ok k) ∧
      (root.head? = some slash → Clean root →
        ∀ key : VfsPath, workspaceGraphKey (joinAtPath root key.bytes) root = .ok key) := by
  refine ⟨fun key => workspaceGraphKey_ok_iff, fun key hmaps => ?_, fun hslash hclean key => ?_⟩
  · obtain ⟨k, rfl⟩ := hmaps.valid
    exact ⟨k, rfl, workspaceGraphKey_ok_iff.mpr hmaps⟩
  · exact KinVfs.workspaceGraphKey_joinAtPath (hostComponents_iff.mpr ⟨root, ⟨hslash, rfl⟩, hclean, rfl⟩) key

theorem workspaceGraphKey_characterized_unix :
    workspaceGraphKey (joinAtPath [47, 119] [97]) [47, 119] = .ok ⟨[97], by decide⟩ :=
  (workspaceGraphKey_characterized [] [47, 119]).2.2 (by decide) (by unfold Clean; decide) ⟨[97], by decide⟩

example : workspaceGraphKey [67, 58, 47, 87, 47, 97] [99, 58, 47, 119] = .ok ⟨[97], by decide⟩ := by decide +kernel

/-! ## Several roots -/

/-- The input is refused for a `..` or for its bytes. -/
def Refused (input : Bytes) : Prop :=
  hostComponents input = .error .parentTraversal ∨ hostComponents input = .error .invalidPath

/-- The loop goes on after this root. -/
def Passes (path root : Bytes) : Prop :=
  ∀ e, workspaceGraphKey path root = .error e → e = .outsideRoot ∨ e = .notAbsolute

/-- The loop over the roots, from a key that was found or not. -/
theorem foldlM_tryRoot_iff {path : Bytes} {roots : List Bytes} {found : Option VfsPath} {b : Bool} {key : VfsPath} :
    (∃ b', roots.foldlM (tryRoot path) (found, b) = .ok (some key, b')) ↔
      (∀ root ∈ roots, Passes path root) ∧
        (∀ k, (found = some k ∨ ∃ root ∈ roots, workspaceGraphKey path root = .ok k) → k = key) ∧
        (found = some key ∨ ∃ root ∈ roots, workspaceGraphKey path root = .ok key) := by
  induction roots generalizing found b with
  | nil =>
    constructor
    · rintro ⟨b', h⟩
      obtain ⟨rfl, -⟩ := Prod.mk.inj (Except.ok.inj h)
      simp
    · rintro ⟨-, -, h⟩
      rcases h with rfl | ⟨_, hmem, _⟩
      · exact ⟨b, rfl⟩
      · cases hmem
  | cons root roots ih =>
    rw [List.foldlM_cons]
    cases hroot : workspaceGraphKey path root with
    | ok k =>
      have hpass : Passes path root := by
        intro e he
        rw [hroot] at he
        cases he
      by_cases hsame : found.any (· ≠ k) = true
      · -- Another key was found before.
        have hstep : tryRoot path (found, b) root = .error .aliasAmbiguity := by
          unfold tryRoot
          rw [hroot]
          exact if_pos hsame
        rw [hstep]
        constructor
        · rintro ⟨b', h⟩
          cases h
        · rintro ⟨-, huniq, -⟩
          rw [Option.any_eq_true] at hsame
          obtain ⟨k', hk', hne⟩ := hsame
          have h1 := huniq k' (.inl hk')
          have h2 := huniq k (.inr ⟨root, List.mem_cons_self, hroot⟩)
          subst h1
          subst h2
          simp at hne
      · have hstep : tryRoot path (found, b) root = .ok (some k, b) := by
          unfold tryRoot
          rw [hroot]
          exact if_neg hsame
        rw [hstep]
        show (∃ b', roots.foldlM (tryRoot path) (some k, b) = .ok (some key, b')) ↔ _
        have hfound : ∀ k', found = some k' → k' = k := by
          intro k' hk'
          subst hk'
          simpa using hsame
        rw [ih]
        simp only [List.mem_cons, forall_eq_or_imp, exists_eq_or_imp, hroot]
        grind
    | error e =>
      by_cases hpass : e = .outsideRoot ∨ e = .notAbsolute
      · have hstep : ∃ b₁, tryRoot path (found, b) root = .ok (found, b₁) := by
          unfold tryRoot
          rw [hroot]
          rcases hpass with rfl | rfl
          · exact ⟨b, rfl⟩
          · exact ⟨true, rfl⟩
        obtain ⟨b₁, hstep⟩ := hstep
        have hroot' : Passes path root := by
          intro e' he'
          rw [hroot] at he'
          cases he'
          exact hpass
        rw [hstep]
        show (∃ b', roots.foldlM (tryRoot path) (found, b₁) = .ok (some key, b')) ↔ _
        rw [ih]
        simp only [List.mem_cons, forall_eq_or_imp, exists_eq_or_imp, hroot]
        grind
      · have hstep : tryRoot path (found, b) root = .error e := by
          unfold tryRoot
          rw [hroot]
          cases e with
          | outsideRoot => simp at hpass
          | notAbsolute => simp at hpass
          | parentTraversal => rfl
          | aliasAmbiguity => rfl
          | invalidPath => rfl
        rw [hstep]
        constructor
        · rintro ⟨b', h⟩
          cases h
        · rintro ⟨hall, -, -⟩
          exact absurd (hall root List.mem_cons_self e hroot) hpass

theorem pushComponent_error {acc : List Bytes} {c : Bytes} {e : WorkspacePathError}
    (h : pushComponent acc c = .error e) : e = .parentTraversal ∨ e = .invalidPath := by
  unfold pushComponent at h
  split at h
  · cases h
  · split at h
    · cases h
      exact .inl rfl
    · split at h
      · cases h
        exact .inr rfl
      · cases h

theorem foldlM_pushComponent_error {cs acc : List Bytes} {e : WorkspacePathError}
    (h : cs.foldlM pushComponent acc = .error e) : e = .parentTraversal ∨ e = .invalidPath := by
  induction cs generalizing acc with
  | nil => cases h
  | cons c cs ih =>
    rw [List.foldlM_cons] at h
    cases hc : pushComponent acc c with
    | error e' =>
      rw [hc] at h
      cases h
      exact pushComponent_error hc
    | ok next =>
      rw [hc] at h
      exact ih h

/-- An input that is not accepted is not absolute, or refused. -/
theorem hostComponents_error {input : Bytes} {e : WorkspacePathError} (h : hostComponents input = .error e) :
    e = .notAbsolute ∨ e = .parentTraversal ∨ e = .invalidPath := by
  have hpair : ∀ {d : Option Bytes} {x : Except WorkspacePathError (List Bytes)},
      (do return (d, ← x) : Except WorkspacePathError (Option Bytes × List Bytes)) = .error e → x = .error e := by
    intro d x hx
    cases x with
    | error e' =>
      cases hx
      rfl
    | ok r => cases hx
  unfold hostComponents at h
  split at h
  · exact .inr (foldlM_pushComponent_error (hpair h))
  · split at h
    · exact .inr (foldlM_pushComponent_error (hpair h))
    · cases h
      exact .inl rfl

/-- Where the path is accepted, the loop goes on after every root that is not refused. -/
theorem passes_iff {path root : Bytes} {drive : Option Bytes} {pc : List Bytes}
    (hp : hostComponents path = .ok (drive, pc)) : Passes path root ↔ ¬ Refused root := by
  cases hr : hostComponents root with
  | error e =>
    have hkey : workspaceGraphKey path root = .error e := by
      unfold workspaceGraphKey
      rw [hp, hr]
      rfl
    have hcases := hostComponents_error hr
    unfold Passes Refused
    rw [hkey, hr]
    grind
  | ok r =>
    have hno : ¬ Refused root := by
      unfold Refused
      rw [hr]
      simp
    refine iff_of_true (fun e he => ?_) hno
    rw [workspaceGraphKey_of_ok hp hr] at he
    split at he
    · rename_i hcond
      -- The last check does not fail.
      obtain ⟨p, hpabs, hpclean, rfl⟩ := hostComponents_iff.mp hp
      obtain ⟨rest', hrabs, hrclean, hrc⟩ := hostComponents_iff.mp hr
      obtain ⟨front, rest, hsplit, hfront⟩ := rootMatches_iff.mp hcond.2
      rw [hrc] at hfront
      obtain ⟨k, hk⟩ := Maps.valid ⟨drive, r.1, p, rest', front, rest, hpabs, hrabs, hcond.1, hpclean, hrclean,
        hsplit, hfront, rfl⟩
      rw [hrc, hsplit, ← hfront.length_eq, List.drop_left, VfsPath.fromBytes_ok.mpr hk] at he
      cases he
    · cases he
      exact .inl rfl

theorem workspaceGraphKeyFromRoots_eq_ok {path : Bytes} {roots : List Bytes} {key : VfsPath} :
    workspaceGraphKeyFromRoots path roots = .ok key ↔
      ∃ b, roots.foldlM (tryRoot path) (none, false) = .ok (some key, b) := by
  unfold workspaceGraphKeyFromRoots
  cases roots.foldlM (tryRoot path) (none, false) with
  | error e => simp [bind, Except.bind]
  | ok found =>
    obtain ⟨k, b⟩ := found
    cases k with
    | none => simp [bind, Except.bind, throw, throwThe, MonadExceptOf.throw]
    | some k => simp [bind, Except.bind, pure, Except.pure]

/-- Success over several roots, without their order. -/
theorem workspaceGraphKeyFromRoots_iff {path : Bytes} {roots : List Bytes} {key : VfsPath} :
    workspaceGraphKeyFromRoots path roots = .ok key ↔
      (∃ root ∈ roots, workspaceGraphKey path root = .ok key) ∧
        (∀ root ∈ roots, ∀ k, workspaceGraphKey path root = .ok k → k = key) ∧
        ¬ Refused path ∧ ∀ root ∈ roots, ¬ Refused root := by
  have haccepted : ∀ {root}, workspaceGraphKey path root = .ok key →
      ¬ Refused path ∧ ∀ root, Passes path root ↔ ¬ Refused root := by
    intro root hroot
    obtain ⟨drive, -, pc, -, hp, -⟩ := components_of_workspaceGraphKey hroot
    refine ⟨?_, fun root => passes_iff hp⟩
    unfold Refused
    rw [hp]
    simp
  rw [workspaceGraphKeyFromRoots_eq_ok, foldlM_tryRoot_iff]
  constructor
  · rintro ⟨hpass, huniq, hfound⟩
    rcases hfound with hfound | ⟨root, hmem, hroot⟩
    · cases hfound
    · obtain ⟨hpath, hiff⟩ := haccepted hroot
      exact ⟨⟨root, hmem, hroot⟩, fun r hr k hk => huniq k (.inr ⟨r, hr, hk⟩), hpath,
        fun r hr => (hiff r).mp (hpass r hr)⟩
  · rintro ⟨⟨root, hmem, hroot⟩, huniq, -, hrefused⟩
    obtain ⟨-, hiff⟩ := haccepted hroot
    refine ⟨fun r hr => (hiff r).mpr (hrefused r hr), fun k hk => ?_, .inr ⟨root, hmem, hroot⟩⟩
    rcases hk with hk | ⟨r, hr, hk⟩
    · cases hk
    · exact huniq r hr k hk

/-- Aliases do not depend on their order: success is a property of the set of roots, and a root that gives
another key turns it into an error wherever it is added. -/
theorem roots_order_free (path : Bytes) (roots : List Bytes) :
    (∀ key, workspaceGraphKeyFromRoots path roots = .ok key ↔
      (∃ root ∈ roots, workspaceGraphKey path root = .ok key) ∧
        (∀ root ∈ roots, ∀ k, workspaceGraphKey path root = .ok k → k = key) ∧
        ¬ Refused path ∧ ∀ root ∈ roots, ¬ Refused root) ∧
      (∀ roots', (∀ root, root ∈ roots ↔ root ∈ roots') → ∀ key,
        (workspaceGraphKeyFromRoots path roots = .ok key ↔ workspaceGraphKeyFromRoots path roots' = .ok key)) ∧
      ∀ key root k pre post, workspaceGraphKeyFromRoots path roots = .ok key → roots = pre ++ post →
        workspaceGraphKey path root = .ok k → k ≠ key →
        ∃ e, workspaceGraphKeyFromRoots path (pre ++ root :: post) = .error e := by
  refine ⟨fun key => workspaceGraphKeyFromRoots_iff, fun roots' hmem key => ?_, ?_⟩
  · rw [workspaceGraphKeyFromRoots_iff, workspaceGraphKeyFromRoots_iff]
    simp only [hmem]
  · rintro key root k pre post hok rfl hroot hne
    cases hres : workspaceGraphKeyFromRoots path (pre ++ root :: post) with
    | error e => exact ⟨e, rfl⟩
    | ok key' =>
      -- Both keys would have to be the one of the list.
      obtain ⟨⟨r, hr, hkey⟩, -, -, -⟩ := workspaceGraphKeyFromRoots_iff.mp hok
      obtain ⟨-, huniq, -, -⟩ := workspaceGraphKeyFromRoots_iff.mp hres
      have hk := huniq root (by simp) k hroot
      have hkey' := huniq r (by
        rcases List.mem_append.mp hr with h | h
        · exact List.mem_append_left _ h
        · exact List.mem_append_right _ (List.mem_cons_of_mem _ h)) key hkey
      exact absurd (hk.trans hkey'.symm) hne

end KinVfs
