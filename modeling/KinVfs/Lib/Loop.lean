import KinVfs.Lib.Fallible

/-!
# Loops with early exits

A loop is given by one turn of its body, which goes on with new loop variables, breaks with a value,
or fails. `Runs` is a finite run with its number of turns; `loop` is the loop of a body whose turns
make a measure smaller, and `loop_runs` says that it ends. `Runs.rule` is the invariant rule.
-/

namespace Fallible

variable {ε σ ω α β : Type}

/-- How one turn of a loop ends when it does not fail. -/
inductive Turn (ω α : Type) where
  | again (vars : ω)
  | stop (value : α)

/-- The outcome of a loop after the outcome of its first turn. -/
def Turn.finish (next : ω → σ → Except ε α × σ) : Except ε (Turn ω α) × σ → Except ε α × σ
  | (.ok (.again vars), s) => next vars s
  | (.ok (.stop a), s) => (.ok a, s)
  | (.error e, s) => (.error e, s)

/-- The loop leaves `vars` and the state `s` with the outcome `r`, after `turns` turns. -/
inductive Runs (body : ω → Fallible ε σ (Turn ω α)) : Nat → ω → σ → Except ε α × σ → Prop where
  | stop {vars : ω} {s s' : σ} {a : α} (h : exec (body vars) s = (.ok (.stop a), s')) :
    Runs body 1 vars s (.ok a, s')
  | fail {vars : ω} {s s' : σ} {e : ε} (h : exec (body vars) s = (.error e, s')) :
    Runs body 1 vars s (.error e, s')
  | again {turns : Nat} {vars vars' : ω} {s s' : σ} {r : Except ε α × σ}
    (h : exec (body vars) s = (.ok (.again vars'), s')) (rest : Runs body turns vars' s' r) :
    Runs body (turns + 1) vars s r

/-- Each turn that goes on makes `measure` smaller. -/
def Decreases [WellFoundedRelation β] (body : ω → Fallible ε σ (Turn ω α)) (measure : ω → β) :
    Prop :=
  ∀ vars s vars' s', exec (body vars) s = (.ok (.again vars'), s') →
    WellFoundedRelation.rel (measure vars') (measure vars)

/-- The loop of a body that decreases. -/
def loop [WellFoundedRelation β] (body : ω → Fallible ε σ (Turn ω α)) (measure : ω → β)
    (hd : Decreases body measure) (vars : ω) : Fallible ε σ α := fun s =>
  match _h : exec (body vars) s with
  | (.ok (.again vars'), s') => loop body measure hd vars' s'
  | (.ok (.stop a), s') => (.ok a, s')
  | (.error e, s') => (.error e, s')
termination_by measure vars
decreasing_by exact hd _ _ _ _ _h

section Rules

variable [WellFoundedRelation β] {body : ω → Fallible ε σ (Turn ω α)} {measure : ω → β}
  {hd : Decreases body measure}

theorem exec_loop (vars : ω) (s : σ) :
    exec (loop body measure hd vars) s =
      Turn.finish (fun vars' s' => exec (loop body measure hd vars') s') (exec (body vars) s) := by
  show loop body measure hd vars s = _
  rw [loop]
  split <;> (rename_i h; rw [h]; rfl)

/-- The loop ends, and its outcome is that of the run. -/
theorem loop_runs (vars : ω) (s : σ) :
    ∃ turns, Runs body turns vars s (exec (loop body measure hd vars) s) := by
  rw [exec_loop]
  cases hx : exec (body vars) s with
  | mk r s' =>
    cases r with
    | error e => exact ⟨1, .fail hx⟩
    | ok t =>
      cases t with
      | stop a => exact ⟨1, .stop hx⟩
      | again vars' =>
        obtain ⟨turns, hr⟩ := loop_runs vars' s'
        exact ⟨turns + 1, .again hx hr⟩
termination_by measure vars
decreasing_by exact hd _ _ _ _ hx

end Rules

/-- A turn goes on with `inv`, or it leaves the loop with `post`. -/
def Turn.Meets (inv : ω → σ → Prop) (post : Except ε α × σ → Prop) :
    Except ε (Turn ω α) × σ → Prop
  | (.ok (.again vars), s) => inv vars s
  | (.ok (.stop a), s) => post (.ok a, s)
  | (.error e, s) => post (.error e, s)

/-- What each turn keeps, and each exit establishes, holds of the outcome of a run. -/
theorem Runs.rule {body : ω → Fallible ε σ (Turn ω α)} {inv : Nat → ω → σ → Prop}
    {post : Nat → Except ε α × σ → Prop}
    (step : ∀ n vars s, inv n vars s → Turn.Meets (inv (n + 1)) (post (n + 1)) (exec (body vars) s))
    {turns n : Nat} {vars : ω} {s : σ} {r : Except ε α × σ} (hr : Runs body turns vars s r)
    (hinv : inv n vars s) : post (n + turns) r := by
  induction hr generalizing n with
  | stop h =>
    have := step _ _ _ hinv
    rwa [h] at this
  | fail h =>
    have := step _ _ _ hinv
    rwa [h] at this
  | again h _ ih =>
    have hnext := step _ _ _ hinv
    rw [h] at hnext
    have := ih hnext
    rwa [Nat.add_assoc, Nat.add_comm 1] at this

end Fallible
