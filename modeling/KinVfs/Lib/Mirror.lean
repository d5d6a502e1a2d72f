import KinVfs.Lib.Fallible
import KinVfs.Lib.Interleave

/-!
# A direct program and its asynchronous copy

The same protocol is often written twice: as a program that runs through (`Fallible`), and as one that suspends at
each access of what it shares (`Interleave.Prog`). `Mirrors view x y` says that with nobody else about the copy `y`
answers as `x` does, and leaves what `view` shows of the state that `x` leaves. The direct program may keep more
than the copy can see (`Mirrors.unseen`).

It composes along both (`Mirrors.bind`), so that two programs of one shape mirror each other access by access.
-/

namespace Fallible

variable {ε ε' σ α : Type}

/-- `x` with its errors renamed. -/
def mapErr (g : ε → ε') (x : Fallible ε σ α) : Fallible ε' σ α := zoom id (fun s _ => s) g x

theorem exec_mapErr (g : ε → ε') (x : Fallible ε σ α) (s : σ) :
    exec (mapErr g x) s = ((exec x s).1.mapError g, (exec x s).2) := by
  unfold mapErr
  rw [exec_zoom]
  dsimp only [id]
  rcases exec x s with ⟨_ | _, _⟩ <;> rfl

/-- `x`, whose error is not passed on. -/
def attempt (x : Fallible ε σ α) : Fallible ε σ (Except ε α) := do
  let s ← get
  set (exec x s).2
  pure (exec x s).1

theorem exec_attempt (x : Fallible ε σ α) (s : σ) : exec (attempt x) s = (.ok (exec x s).1, (exec x s).2) := rfl

/-- What was found, or its error. -/
def lift (r : Except ε α) : Fallible ε σ α := ofExcept fun _ => r

theorem exec_lift (r : Except ε α) (s : σ) : exec (lift r : Fallible ε σ α) s = (r, s) := by
  unfold lift
  rw [exec_ofExcept]

end Fallible

namespace Interleave

open Fallible

variable {σ τ ε ε' α β : Type}

namespace Prog

/-- `x` with its errors renamed. -/
def mapErr (g : ε → ε') : Prog σ ε α → Prog σ ε' α
  | done r => done (r.mapError g)
  | step upd next => step upd fun s => (next s).mapErr g

/-- What was found, or its error. -/
def lift (r : Except ε α) : Prog σ ε α := done r

@[simp] theorem run_pure (a : α) (s : σ) : (pure a : Prog σ ε α).run s = (.ok a, s) := rfl

@[simp] theorem run_fail (e : ε) (s : σ) : (fail e : Prog σ ε α).run s = (.error e, s) := rfl

@[simp] theorem run_act (f : σ → α × σ) (s : σ) : (act f : Prog σ ε α).run s = (.ok (f s).1, (f s).2) := rfl

theorem run_bind (x : Prog σ ε α) (f : α → Prog σ ε β) (s : σ) :
    (x >>= f).run s =
      match x.run s with
      | (.ok a, s₁) => (f a).run s₁
      | (.error e, s₁) => (.error e, s₁) := by
  induction x generalizing s with
  | done r =>
    cases r with
    | ok a => rfl
    | error e => rfl
  | step upd next ih => exact ih s (upd s)

theorem run_mapErr (g : ε → ε') (x : Prog σ ε α) (s : σ) :
    (x.mapErr g).run s = ((x.run s).1.mapError g, (x.run s).2) := by
  induction x generalizing s with
  | done r => rfl
  | step upd next ih => exact ih s (upd s)

theorem run_attempt (x : Prog σ ε α) (s : σ) : x.attempt.run s = (.ok (x.run s).1, (x.run s).2) := by
  induction x generalizing s with
  | done r => rfl
  | step upd next ih => exact ih s (upd s)

end Prog

/-- The copy `y` answers as `x` does, and leaves what is seen of what `x` leaves. -/
def Mirrors (view : σ → τ) (x : Fallible ε σ α) (y : Prog τ ε α) : Prop :=
  ∀ s, y.run (view s) = ((exec x s).1, view (exec x s).2)

namespace Mirrors

variable {view : σ → τ} {x : Fallible ε σ α} {y : Prog τ ε α}

theorem pure (a : α) : Mirrors view (Pure.pure a : Fallible ε σ α) (Pure.pure a) := fun _ => rfl

theorem throw (e : ε) : Mirrors view (MonadExcept.throw e : Fallible ε σ α) (Prog.fail e) := fun _ => rfl

theorem lift (r : Except ε α) : Mirrors view (Fallible.lift r : Fallible ε σ α) (Prog.lift r) := by
  intro s
  rw [exec_lift]
  rfl

theorem bind {f : α → Fallible ε σ β} {g : α → Prog τ ε β} (hx : Mirrors view x y)
    (hf : ∀ a, Mirrors view (f a) (g a)) : Mirrors view (x >>= f) (y >>= g) := by
  intro s
  rw [Prog.run_bind, exec_bind, hx s]
  rcases exec x s with ⟨e | a, s₁⟩
  · rfl
  · exact hf a s₁

theorem mapErr (g : ε → ε') (hx : Mirrors view x y) : Mirrors view (Fallible.mapErr g x) (y.mapErr g) := by
  intro s
  rw [Prog.run_mapErr, exec_mapErr, hx s]

theorem attempt (hx : Mirrors view x y) : Mirrors view (Fallible.attempt x) y.attempt := by
  intro s
  rw [Prog.run_attempt, exec_attempt, hx s]

/-- What the direct program does where the copy cannot see it. -/
theorem unseen {z : Fallible ε σ β} (hz : ∀ s, ∃ b s', exec z s = (.ok b, s') ∧ view s' = view s)
    (hx : Mirrors view x y) : Mirrors view (z >>= fun _ => x) y := by
  intro s
  obtain ⟨b, s', hexec, hview⟩ := hz s
  rw [exec_bind, hexec, ← hview]
  exact hx s'

end Mirrors

end Interleave
