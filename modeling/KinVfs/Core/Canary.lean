import KinVfs.Lib.Capped
import KinVfs.Lib.Text
import Mathlib.Data.Finset.Sort
import Mathlib.Data.List.DropRight
import Mathlib.Data.String.Basic

/-!
# The interposition canary (`crates/kin-vfs-core/src/canary.rs`)

A launcher gives a child a token, a shim that loads confirms it to the daemon, and a hook that lets the host
answer for a workspace path reports its surface. `Registry` is the daemon's ledger. All of its operations are
one critical section each, so a run of it is a list of calls.

What the ledger answers after any calls is read off the calls (`registry_eq_history`): the bound on the names
of a token loses names and never the verdict.
-/

namespace KinVfs.Canary

def maxTokenLen : Nat := 128

def maxSurfaceLen : Nat := 64

def maxSurfacesPerToken : Nat := 16

inductive InterposeStatus where
  | active
  | stripped
  | notRequired
  | bypassed
  deriving DecidableEq, Repr

/-- A letter of a nonce. The source asks it of the bytes; no byte of a character above ASCII is one. -/
def nonceChar (c : Char) : Bool := c.isAlphanum || c == '-' || c == '_'

def isValidToken (token : String) : Bool :=
  let t := Text.trim token
  !t.isEmpty && decide (t.utf8ByteSize ≤ maxTokenLen) && t.toList.all nonceChar

/-- The canonical token of what the environment or a request holds. -/
def normalizeToken (raw : Option String) : Option String :=
  raw.bind fun raw =>
    let t := Text.trim raw
    if isValidToken t then some t else none

def normalizeSurface (raw : String) : Option String :=
  let surface := Text.trim raw
  let wellFormed :=
    !surface.isEmpty && decide (surface.utf8ByteSize ≤ maxSurfaceLen) && surface.toList.all nonceChar
  if wellFormed then some surface else none

/-- A shim that did not load outranks one that was gone around. -/
def interposeVerdictWithBypass (expectedToken : Option String) (confirmed bypassed : Bool) : InterposeStatus :=
  match normalizeToken expectedToken with
  | some _ => if !confirmed then .stripped else if bypassed then .bypassed else .active
  | none => .notRequired

/-! ## The ledger -/

/-- `RegistryInner`. -/
structure Registry where
  expected : Finset String
  confirmed : Finset String
  /-- The surfaces of each token that has some. -/
  bypassed : String → Option (Finset String)

namespace Registry

def new : Registry := ⟨∅, ∅, fun _ => none⟩

def expect (r : Registry) (token : String) : Bool × Registry :=
  match normalizeToken (some token) with
  | some t => (true, { r with expected := insert t r.expected })
  | none => (false, r)

def confirm (r : Registry) (token : String) : Bool × Registry :=
  match normalizeToken (some token) with
  | some t => (true, { r with confirmed := insert t r.confirmed })
  | none => (false, r)

/-- A token that has its share of names keeps them. -/
def recordBypass (r : Registry) (token surface : String) : Bool × Registry :=
  match normalizeToken (some token), normalizeSurface surface with
  | some t, some s =>
    let surfaces := (r.bypassed t).getD ∅
    (true, { r with bypassed := Function.update r.bypassed t (some (Capped.insert maxSurfacesPerToken surfaces s)) })
  | _, _ => (false, r)

/-- In the order of the set. -/
def bypassedSurfaces (r : Registry) (token : String) : List String :=
  match normalizeToken (some token) with
  | some t => ((r.bypassed t).map fun surfaces => surfaces.sort).getD []
  | none => []

def verdict (r : Registry) (expectedToken : Option String) : InterposeStatus :=
  match normalizeToken expectedToken with
  | some t => interposeVerdictWithBypass expectedToken (decide (t ∈ r.confirmed)) (r.bypassed t).isSome
  | none => interposeVerdictWithBypass expectedToken false false

def strippedTokens (r : Registry) : Finset String := r.expected \ r.confirmed

end Registry

/-- Trimmed text has nothing to trim. -/
theorem trim_trim (s : String) : Text.trim (Text.trim s) = Text.trim s := by
  let ws := Text.isWhitespace
  have hstart : ∀ cs : List Char, (Text.trimEnd ws (cs.dropWhile ws)).dropWhile ws = Text.trimEnd ws (cs.dropWhile ws) := by
    intro cs
    have hpre : Text.trimEnd ws (cs.dropWhile ws) <+: cs.dropWhile ws := by
      have h := List.dropWhile_suffix ws (l := (cs.dropWhile ws).reverse)
      rwa [← List.reverse_prefix, List.reverse_reverse] at h
    cases h : Text.trimEnd ws (cs.dropWhile ws) with
    | nil => rfl
    | cons c t =>
      rw [h] at hpre
      have hhead : (cs.dropWhile ws).head? = some c := by
        obtain ⟨rest, hrest⟩ := hpre
        rw [← hrest]
        rfl
      have hc := List.head?_dropWhile_not ws cs
      rw [hhead] at hc
      exact List.dropWhile_cons_of_neg (by simpa using hc)
  have hend : ∀ cs : List Char, Text.trimEnd ws (Text.trimEnd ws cs) = Text.trimEnd ws cs := by
    intro cs
    rw [Text.trimEnd, Text.trimEnd, List.reverse_reverse, List.dropWhile_idempotent]
  rw [Text.trim, Text.trim, String.toList_ofList, hstart, hend]

/-- A canonical token is its own canonical token. -/
theorem normalizeToken_self {raw : Option String} {t : String} (h : normalizeToken raw = some t) :
    normalizeToken (some t) = some t := by
  obtain ⟨raw, rfl, hraw⟩ := Option.bind_eq_some_iff.mp h
  dsimp only at hraw
  split at hraw
  · rename_i hvalid
    cases hraw
    simp only [normalizeToken, Option.bind_some, trim_trim, hvalid, if_true]
  · cases hraw

/-- A call that changes the ledger. -/
inductive Call where
  | expect (token : String)
  | confirm (token : String)
  | recordBypass (token surface : String)
  deriving DecidableEq, Repr

def Registry.apply (r : Registry) : Call → Registry
  | .expect token => (r.expect token).2
  | .confirm token => (r.confirm token).2
  | .recordBypass token surface => (r.recordBypass token surface).2

/-- The ledger of a daemon after the calls. -/
def Registry.after (calls : List Call) : Registry := calls.foldl Registry.apply .new

/-! What the calls say, without a ledger. -/

/-- The token that a call expects. -/
def Call.expects : Call → Option String
  | .expect token => normalizeToken (some token)
  | _ => none

/-- The token that a call confirms. -/
def Call.confirms : Call → Option String
  | .confirm token => normalizeToken (some token)
  | _ => none

/-- The surface that a call reports for `t`. -/
def Call.reports (t : String) : Call → Option String
  | .recordBypass token surface => if normalizeToken (some token) = some t then normalizeSurface surface else none
  | _ => none

/-- The surfaces reported for `t`, in the order of the reports. -/
def reported (t : String) (calls : List Call) : List String := calls.filterMap (Call.reports t)

variable {r : Registry} {calls : List Call} {t : String}

/-! One equation for each call, with the names still unread: nothing below evaluates text. -/

theorem apply_expect (token : String) : r.apply (.expect token) =
    (normalizeToken (some token)).elim r fun t => { r with expected := insert t r.expected } := by
  rw [Registry.apply]
  unfold Registry.expect
  generalize normalizeToken (some token) = tok
  cases tok <;> rfl

theorem apply_confirm (token : String) : r.apply (.confirm token) =
    (normalizeToken (some token)).elim r fun t => { r with confirmed := insert t r.confirmed } := by
  rw [Registry.apply]
  unfold Registry.confirm
  generalize normalizeToken (some token) = tok
  cases tok <;> rfl

theorem apply_recordBypass (token surface : String) : r.apply (.recordBypass token surface) =
    (normalizeToken (some token)).elim r fun t => (normalizeSurface surface).elim r fun s =>
      let surfaces := Capped.insert maxSurfacesPerToken ((r.bypassed t).getD ∅) s
      { r with bypassed := Function.update r.bypassed t (some surfaces) } := by
  rw [Registry.apply]
  unfold Registry.recordBypass
  generalize normalizeToken (some token) = tok, normalizeSurface surface = sur
  cases tok <;> cases sur <;> rfl

theorem expected_apply (c : Call) : t ∈ (r.apply c).expected ↔ t ∈ r.expected ∨ c.expects = some t := by
  cases c with
  | expect token =>
    rw [apply_expect, Call.expects]
    cases normalizeToken (some token) with
    | none => simp
    | some u => simp [or_comm, eq_comm]
  | confirm token =>
    rw [apply_confirm]
    cases normalizeToken (some token) <;> simp [Call.expects]
  | recordBypass token surface =>
    rw [apply_recordBypass]
    cases normalizeToken (some token) <;> cases normalizeSurface surface <;> simp [Call.expects]

theorem confirmed_apply (c : Call) : t ∈ (r.apply c).confirmed ↔ t ∈ r.confirmed ∨ c.confirms = some t := by
  cases c with
  | expect token =>
    rw [apply_expect]
    cases normalizeToken (some token) <;> simp [Call.confirms]
  | confirm token =>
    rw [apply_confirm, Call.confirms]
    cases normalizeToken (some token) with
    | none => simp
    | some u => simp [or_comm, eq_comm]
  | recordBypass token surface =>
    rw [apply_recordBypass]
    cases normalizeToken (some token) <;> cases normalizeSurface surface <;> simp [Call.confirms]

/-- A report for `t` goes to the names of `t`; no other call changes them. -/
theorem bypassed_apply (c : Call) : (r.apply c).bypassed t =
    (c.reports t).elim (r.bypassed t) fun s => some (Capped.insert maxSurfacesPerToken ((r.bypassed t).getD ∅) s) := by
  cases c with
  | expect token =>
    rw [apply_expect]
    cases normalizeToken (some token) <;> rfl
  | confirm token =>
    rw [apply_confirm]
    cases normalizeToken (some token) <;> rfl
  | recordBypass token surface =>
    rw [apply_recordBypass, Call.reports]
    cases normalizeToken (some token) with
    | none => simp
    | some u =>
      cases normalizeSurface surface with
      | none => simp
      | some s =>
        by_cases hu : t = u
        · subst hu
          simp
        · simp [hu, Ne.symm hu]

theorem after_concat (c : Call) : Registry.after (calls ++ [c]) = (Registry.after calls).apply c :=
  List.foldl_concat ..

theorem mem_expected_after : t ∈ (Registry.after calls).expected ↔ ∃ c ∈ calls, c.expects = some t := by
  induction calls using List.reverseRecOn with
  | nil => simp [Registry.after, Registry.new]
  | append_singleton calls c ih => simp [after_concat, expected_apply, ih, or_and_right, exists_or]

theorem mem_confirmed_after : t ∈ (Registry.after calls).confirmed ↔ ∃ c ∈ calls, c.confirms = some t := by
  induction calls using List.reverseRecOn with
  | nil => simp [Registry.after, Registry.new]
  | append_singleton calls c ih => simp [after_concat, confirmed_apply, ih, or_and_right, exists_or]

theorem reported_concat (c : Call) : reported t (calls ++ [c]) = reported t calls ++ (c.reports t).toList := by
  rw [reported, List.filterMap_append, reported]
  cases h : c.reports t <;> simp [h]

/-- The names of a token are the first ones reported for it. -/
theorem bypassed_after : (Registry.after calls).bypassed t =
    if reported t calls = [] then none
    else some (Capped.firstDistinct maxSurfacesPerToken (reported t calls)).toFinset := by
  rw [← Capped.foldl_insert]
  induction calls using List.reverseRecOn with
  | nil => rfl
  | append_singleton calls c ih =>
    rw [after_concat, bypassed_apply, ih, reported_concat]
    cases c.reports t with
    | none => simp
    | some s =>
      have hne : reported t calls ++ (some s).toList ≠ [] := List.append_ne_nil_of_right_ne_nil _ (by simp)
      rw [if_neg hne, Option.toList_some, List.foldl_concat, Option.elim]
      by_cases hnil : reported t calls = []
      · rw [if_pos hnil, hnil]
        rfl
      · rw [if_neg hnil]
        rfl

/-- What the calls say about a token. -/
def historyVerdict (calls : List Call) (raw : String) : InterposeStatus :=
  match normalizeToken (some raw) with
  | none => .notRequired
  | some t =>
    if ∃ c ∈ calls, c.confirms = some t then if reported t calls = [] then .active else .bypassed else .stripped

theorem verdict_eq_historyVerdict (calls : List Call) (raw : String) :
    (Registry.after calls).verdict (some raw) = historyVerdict calls raw := by
  unfold Registry.verdict historyVerdict interposeVerdictWithBypass
  cases h : normalizeToken (some raw) with
  | none => rfl
  | some t =>
    have hsome : ((Registry.after calls).bypassed t).isSome = !decide (reported t calls = []) := by
      rw [bypassed_after]
      split <;> simp [*]
    simp only [mem_confirmed_after, hsome]
    by_cases hc : ∃ c ∈ calls, c.confirms = some t
    · by_cases hr : reported t calls = [] <;> simp [hc, hr]
    · simp [hc]

/-- More calls do not take back a confirmation or a report. -/
theorem historyVerdict_append {raw : String} (more : List Call) (h : historyVerdict calls raw = .bypassed) :
    historyVerdict (calls ++ more) raw = .bypassed := by
  unfold historyVerdict at h ⊢
  cases hraw : normalizeToken (some raw) with
  | none => simp [hraw] at h
  | some t =>
    simp only [hraw] at h ⊢
    split at h
    · rename_i hc
      split at h
      · cases h
      · rename_i hr
        obtain ⟨c, hmem, hconf⟩ := hc
        rw [if_pos ⟨c, List.mem_append_left _ hmem, hconf⟩, if_neg]
        rw [reported, List.filterMap_append, List.append_eq_nil_iff]
        exact fun hnil => hr hnil.1
    · cases h

/-- The ledger after any calls, read off the calls: the verdict, the names it tells and the tokens that are
expected in vain. A verdict `bypassed` stands whatever comes after. -/
theorem registry_eq_history (calls : List Call) (raw : String) :
    (Registry.after calls).verdict (some raw) = historyVerdict calls raw ∧
      (Registry.after calls).bypassedSurfaces raw =
        ((normalizeToken (some raw)).elim [] fun t =>
          (Capped.firstDistinct maxSurfacesPerToken (reported t calls)).toFinset.sort) ∧
      (∀ t, t ∈ (Registry.after calls).strippedTokens ↔
        (∃ c ∈ calls, c.expects = some t) ∧ ¬ ∃ c ∈ calls, c.confirms = some t) ∧
      ((Registry.after calls).verdict (some raw) = .bypassed →
        ∀ more, (Registry.after (calls ++ more)).verdict (some raw) = .bypassed) := by
  refine ⟨verdict_eq_historyVerdict calls raw, ?_, fun t => ?_, fun h more => ?_⟩
  · unfold Registry.bypassedSurfaces
    cases normalizeToken (some raw) with
    | none => rfl
    | some t =>
      simp only [Option.elim, bypassed_after]
      split
      · rename_i hnil
        rw [hnil]
        simp [Capped.firstDistinct]
      · rfl
  · rw [Registry.strippedTokens, Finset.mem_sdiff, mem_expected_after, mem_confirmed_after]
  · rw [verdict_eq_historyVerdict] at h ⊢
    exact historyVerdict_append more h

end KinVfs.Canary
