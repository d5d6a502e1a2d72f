import Mathlib.Algebra.Group.Int.Defs
import Mathlib.Algebra.Group.Nat.Defs
import Mathlib.Tactic.Common

/-!
# Fallible computations over a state

`Fallible ε σ α` is `ExceptT ε (StateM σ) α`: an error keeps the state changes made before it, as
in a program that returns early. `exec` runs one; the `exec_*` lemmas are the simp set, and
`exec_bind_ok` peels a successful sequence apart without unfolding the monad.
-/

theorem Except.toOption_eq_some {ε α : Type} {x : Except ε α} {a : α} :
    x.toOption = some a ↔ x = .ok a := by
  cases x <;> simp [Except.toOption]

theorem Except.toOption_eq_none {ε α : Type} {x : Except ε α} :
    x.toOption = none ↔ ∃ e, x = .error e := by
  cases x <;> simp [Except.toOption]

/-- A computation that may fail and keeps its state changes when it does. -/
abbrev Fallible (ε σ α : Type) := ExceptT ε (StateM σ) α

namespace Fallible

variable {ε ε' σ τ α β : Type}

/-- The outcome from state `s` and the state it leaves. -/
def exec (x : Fallible ε σ α) (s : σ) : Except ε α × σ := (ExceptT.run x).run s

@[simp] theorem exec_pure (a : α) (s : σ) : exec (pure a : Fallible ε σ α) s = (.ok a, s) := rfl

@[simp] theorem exec_throw (e : ε) (s : σ) : exec (throw e : Fallible ε σ α) s = (.error e, s) := rfl

@[simp] theorem exec_get (s : σ) : exec (get : Fallible ε σ σ) s = (.ok s, s) := rfl

@[simp] theorem exec_set (t s : σ) : exec (set t : Fallible ε σ PUnit) s = (.ok (), t) := rfl

@[simp] theorem exec_modify (f : σ → σ) (s : σ) :
    exec (modify f : Fallible ε σ PUnit) s = (.ok (), f s) := rfl

theorem exec_bind (x : Fallible ε σ α) (f : α → Fallible ε σ β) (s : σ) :
    exec (x >>= f) s =
      match exec x s with
      | (.ok a, s₁) => exec (f a) s₁
      | (.error e, s₁) => (.error e, s₁) := by
  show (ExceptT.run (x >>= f)).run s = match (ExceptT.run x).run s with
    | (.ok a, s₁) => exec (f a) s₁
    | (.error e, s₁) => (.error e, s₁)
  rw [ExceptT.run_bind, StateT.run_bind]
  show (match (ExceptT.run x).run s with
    | (r, s₁) => (match r with
      | .ok a => ExceptT.run (f a)
      | .error e => pure (.error e) : StateM σ (Except ε β)).run s₁) = _
  rcases (ExceptT.run x).run s with ⟨_ | _, _⟩ <;> rfl

theorem exec_map (f : α → β) (x : Fallible ε σ α) (s : σ) :
    exec (f <$> x) s =
      match exec x s with
      | (.ok a, s₁) => (.ok (f a), s₁)
      | (.error e, s₁) => (.error e, s₁) := by
  rw [map_eq_pure_bind, exec_bind]
  rcases exec x s with ⟨_ | _, _⟩ <;> rfl

/-- A sequence succeeds iff its parts do. -/
theorem exec_bind_ok {x : Fallible ε σ α} {f : α → Fallible ε σ β} {s s' : σ} {b : β} :
    exec (x >>= f) s = (.ok b, s') ↔
      ∃ a s₁, exec x s = (.ok a, s₁) ∧ exec (f a) s₁ = (.ok b, s') := by
  rw [exec_bind]
  rcases h : exec x s with ⟨_ | a, s₁⟩ <;> simp

/-- A pure outcome: the state is only read. -/
def ofExcept (f : σ → Except ε α) : Fallible ε σ α := do
  match f (← get) with
  | .ok a => pure a
  | .error e => throw e

@[simp] theorem exec_ofExcept (f : σ → Except ε α) (s : σ) : exec (ofExcept f) s = (f s, s) := by
  unfold ofExcept
  rw [exec_bind, exec_get]
  dsimp only
  rcases f s with _ | _ <;> rfl

/-- `x`, or `h e` from the state that the error `e` of `x` left. -/
def orElse (x : Fallible ε σ α) (h : ε → Fallible ε σ α) : Fallible ε σ α := tryCatch x h

theorem exec_orElse (x : Fallible ε σ α) (h : ε → Fallible ε σ α) (s : σ) :
    exec (orElse x h) s =
      match exec x s with
      | (.ok a, s₁) => (.ok a, s₁)
      | (.error e, s₁) => exec (h e) s₁ := by
  show (ExceptT.run (tryCatch x h)).run s = match (ExceptT.run x).run s with
    | (.ok a, s₁) => (.ok a, s₁)
    | (.error e, s₁) => exec (h e) s₁
  rw [ExceptT.run_tryCatch, StateT.run_bind]
  show (match (ExceptT.run x).run s with
    | (r, s₁) => (match r with
      | .ok a => pure (.ok a)
      | .error e => ExceptT.run (h e) : StateM σ (Except ε α)).run s₁) = _
  rcases (ExceptT.run x).run s with ⟨_ | _, _⟩ <;> rfl

/-- Run `x` on a part of the state, with its errors renamed. -/
def zoom (getPart : τ → σ) (setPart : σ → τ → τ) (err : ε → ε') (x : Fallible ε σ α) :
    Fallible ε' τ α := do
  let t ← get
  let r := exec x (getPart t)
  set (setPart r.2 t)
  match r.1 with
  | .ok a => pure a
  | .error e => throw (err e)

theorem exec_zoom (getPart : τ → σ) (setPart : σ → τ → τ) (err : ε → ε') (x : Fallible ε σ α)
    (t : τ) :
    exec (zoom getPart setPart err x) t =
      (match (exec x (getPart t)).1 with
        | .ok a => .ok a
        | .error e => .error (err e), setPart (exec x (getPart t)).2 t) := by
  unfold zoom
  simp only [exec_bind, exec_get, exec_set]
  rcases exec x (getPart t) with ⟨_ | _, _⟩ <;> rfl

/-- Success on a part. -/
theorem exec_zoom_ok {getPart : τ → σ} {setPart : σ → τ → τ} {err : ε → ε'} {x : Fallible ε σ α}
    {t t' : τ} {a : α} :
    exec (zoom getPart setPart err x) t = (.ok a, t') ↔
      ∃ s, exec x (getPart t) = (.ok a, s) ∧ t' = setPart s t := by
  rw [exec_zoom]
  rcases hx : exec x (getPart t) with ⟨_ | b, s⟩
  · simp
  · simp only [Prod.mk.injEq, Except.ok.injEq]
    constructor
    · rintro ⟨rfl, rfl⟩
      exact ⟨s, ⟨rfl, rfl⟩, rfl⟩
    · rintro ⟨s', ⟨rfl, rfl⟩, rfl⟩
      exact ⟨rfl, rfl⟩

/-- Failure on a part. -/
theorem exec_zoom_error {getPart : τ → σ} {setPart : σ → τ → τ} {err : ε → ε'} {x : Fallible ε σ α}
    {t : τ} {e : ε} {s : σ} (h : exec x (getPart t) = (.error e, s)) :
    exec (zoom getPart setPart err x) t = (.error (err e), setPart s t) := by
  rw [exec_zoom, h]

end Fallible
