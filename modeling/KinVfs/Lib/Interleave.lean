import Mathlib.Algebra.Group.Int.Defs
import Mathlib.Algebra.Group.Nat.Defs
import Mathlib.Tactic.Common
import Mathlib.Logic.Function.Basic

/-!
# Calls whose steps interleave

A call is a tree of atomic steps over a shared state (`Prog`). Between two of its steps the state changes
under it, as far as a relation `R` allows: `Exec` is one such execution, and `Pool` runs any number of calls
against each other.

`Yields I R Q` is what a call is worth then: whatever the others do within `R` and the invariant `I`, each
step keeps `I` and stays within `R`, and the result satisfies `Q`. It composes (`Yields.bind`), an execution
ends as it says (`Yields.exec`), and so does every call of a pool (`Reach.answered`).
-/

namespace Interleave

/-- A call that is over, or whose next step changes the state and goes on from what it saw. -/
inductive Prog (σ ε α : Type) where
  | done (r : Except ε α)
  | step (upd : σ → σ) (next : σ → Prog σ ε α)

variable {σ ε α β κ : Type}

namespace Prog

def bind : Prog σ ε α → (α → Prog σ ε β) → Prog σ ε β
  | done (.ok a), f => f a
  | done (.error e), _ => done (.error e)
  | step upd next, f => step upd fun s => (next s).bind f

instance : Monad (Prog σ ε) where
  pure a := done (.ok a)
  bind := Prog.bind

/-- One atomic step. -/
def act (f : σ → α × σ) : Prog σ ε α := step (fun s => (f s).2) fun s => done (.ok (f s).1)

/-- A step that only looks. -/
def look (f : σ → α) : Prog σ ε α := act fun s => (f s, s)

def fail (e : ε) : Prog σ ε α := done (.error e)

/-- Go on with what was found. -/
def orFail (e : ε) : Option α → Prog σ ε α
  | some a => pure a
  | none => fail e

/-- `x`, whose error is not passed on. -/
def attempt : Prog σ ε α → Prog σ ε (Except ε α)
  | done r => done (.ok r)
  | step upd next => step upd fun s => (next s).attempt

/-- The call with nobody else about. -/
def run : Prog σ ε α → σ → Except ε α × σ
  | done r, s => (r, s)
  | step upd next, s => (next s).run (upd s)

end Prog

/-! ## One call among others -/

/-- The call is executed from `s`; before each of its steps the others may have acted. -/
inductive Exec (R : σ → σ → Prop) : Prog σ ε α → σ → Except ε α → σ → Prop
  | done {r s} : Exec R (.done r) s r s
  | step {upd next s s' r t} : R s s' → Exec R (next s') (upd s') r t → Exec R (.step upd next) s r t

/-- What others may do: nothing, and one thing after another. -/
structure Rely (R : σ → σ → Prop) : Prop where
  refl : ∀ s, R s s
  trans : ∀ {a b c}, R a b → R b c → R a c

/-- What a call that last acted in the given state is worth. -/
def Yields (I : σ → Prop) (R : σ → σ → Prop) (Q : Except ε α → σ → Prop) : Prog σ ε α → σ → Prop
  | .done r, s => Q r s
  | .step upd next, s =>
    ∀ s', R s s' → I s' → I (upd s') ∧ R s' (upd s') ∧ Yields I R Q (next s') (upd s')

variable {I : σ → Prop} {R : σ → σ → Prop} {Q Q' : Except ε α → σ → Prop} {x : Prog σ ε α} {s t : σ}

theorem Yields.mono (h : Yields I R Q x s) (hQ : ∀ r s, Q r s → Q' r s) : Yields I R Q' x s := by
  induction x generalizing s with
  | done r => exact hQ r s h
  | step upd next ih =>
    intro s' hR hI
    obtain ⟨hI', hR', hnext⟩ := h s' hR hI
    exact ⟨hI', hR', ih s' hnext⟩

theorem Yields.pure {a : α} (h : Q (.ok a) s) : Yields I R Q (Pure.pure a : Prog σ ε α) s := h

theorem Yields.fail {e : ε} (h : Q (.error e) s) : Yields I R Q (Prog.fail e : Prog σ ε α) s := h

theorem Yields.act {f : σ → α × σ}
    (h : ∀ s', R s s' → I s' → I (f s').2 ∧ R s' (f s').2 ∧ Q (.ok (f s').1) (f s').2) :
    Yields I R Q (Prog.act f : Prog σ ε α) s := h

/-- A step that only looks is within any reflexive relation. -/
theorem Yields.look {f : σ → α} (hrely : Rely R) (h : ∀ s', R s s' → I s' → Q (.ok (f s')) s') :
    Yields I R Q (Prog.look f : Prog σ ε α) s := by
  apply Yields.act
  intro s' hR hI
  exact ⟨hI, hrely.refl s', h s' hR hI⟩

/-- The second call starts where the first one ended. -/
theorem Yields.bind {f : α → Prog σ ε β} {Q : Except ε β → σ → Prop}
    (h : Yields I R (fun r t => match r with
      | .ok a => Yields I R Q (f a) t
      | .error e => Q (.error e) t) x s) :
    Yields I R Q (x >>= f) s := by
  induction x generalizing s with
  | done r =>
    cases r with
    | ok a => exact h
    | error e => exact h
  | step upd next ih =>
    intro s' hR hI
    obtain ⟨hI', hR', hnext⟩ := h s' hR hI
    exact ⟨hI', hR', ih s' hnext⟩

theorem Yields.attempt {Q : Except ε (Except ε α) → σ → Prop} (h : Yields I R (fun r t => Q (.ok r) t) x s) :
    Yields I R Q x.attempt s := by
  induction x generalizing s with
  | done r => exact h
  | step upd next ih =>
    intro s' hR hI
    obtain ⟨hI', hR', hnext⟩ := h s' hR hI
    exact ⟨hI', hR', ih s' hnext⟩

/-- A call that starts within `I` ends within it. -/
theorem Yields.inv (h : Yields I R Q x s) (hs : I s) : Yields I R (fun r t => Q r t ∧ I t) x s := by
  induction x generalizing s with
  | done r => exact ⟨h, hs⟩
  | step upd next ih =>
    intro s' hR hI
    obtain ⟨hI', hR', hnext⟩ := h s' hR hI
    exact ⟨hI', hR', ih s' hnext hI'⟩

/-- A call ends within `R` of where it starts. -/
theorem Yields.rel (h : Yields I R Q x s) (hrely : Rely R) : Yields I R (fun r t => Q r t ∧ R s t) x s := by
  have hfrom : ∀ (x : Prog σ ε α) (t : σ), R s t → Yields I R Q x t →
      Yields I R (fun r t => Q r t ∧ R s t) x t := by
    intro x
    induction x with
    | done r => exact fun t ht hx => ⟨hx, ht⟩
    | step upd next ih =>
      intro t ht hx s' hR hI
      obtain ⟨hI', hR', hnext⟩ := hx s' hR hI
      exact ⟨hI', hR', ih s' _ (hrely.trans (hrely.trans ht hR) hR') hnext⟩
  exact hfrom x s (hrely.refl s) h

/-- One call after another, each among others. -/
theorem Yields.andThen {f : α → Prog σ ε β} {Q' : Except ε β → σ → Prop} (h : Yields I R Q x s)
    (hrely : Rely R) (hs : I s) (hok : ∀ a t, Q (.ok a) t → I t → R s t → Yields I R Q' (f a) t)
    (herr : ∀ e t, Q (.error e) t → I t → R s t → Q' (.error e) t) : Yields I R Q' (x >>= f) s := by
  apply Yields.bind
  refine ((h.rel hrely).inv hs).mono ?_
  rintro r t ⟨⟨hq, hst⟩, ht⟩
  cases r with
  | ok a => exact hok a t hq ht hst
  | error e => exact herr e t hq ht hst

/-- What the others do meanwhile changes nothing. -/
theorem Yields.stable (h : Yields I R Q x s) (hrely : Rely R)
    (hQ : ∀ r {a b}, Q r a → I a → R a b → I b → Q r b) (hs : I s) (hR : R s t) (hI : I t) :
    Yields I R Q x t := by
  cases x with
  | done r => exact hQ r h hs hR hI
  | step upd next =>
    intro s' hR' hI'
    exact h s' (hrely.trans hR hR') hI'

theorem Exec.mono {R' : σ → σ → Prop} {r : Except ε α} (h : ∀ a b, R a b → R' a b) (he : Exec R x s r t) :
    Exec R' x s r t := by
  induction he with
  | done => exact .done
  | step hR _ ih => exact .step (h _ _ hR) ih

/-- An execution among others that stay within `R` and `I`. -/
theorem Yields.exec {r : Except ε α} (h : Yields I R Q x s) (hs : I s)
    (he : Exec (fun a b => R a b ∧ I b) x s r t) : Q r t ∧ I t := by
  induction he with
  | done => exact ⟨h, hs⟩
  | step hR _ ih =>
    obtain ⟨hI', _, hnext⟩ := h _ hR.1 hR.2
    exact ih hnext hI'

/-- A call that nobody else interrupts. -/
theorem Yields.exec_run (h : Yields I R Q x s) (hrely : Rely R) (hs : I s) :
    Exec (fun a b => R a b ∧ I b) x s (x.run s).1 (x.run s).2 := by
  induction x generalizing s with
  | done r => exact .done
  | step upd next ih =>
    obtain ⟨hI', -, hnext⟩ := h s (hrely.refl s) hs
    exact .step ⟨hrely.refl s, hs⟩ (ih s hnext hI')

/-! ## Any number of calls -/

/-- The calls under way, one a thread, and the answers given so far. -/
structure Pool (σ ε κ α : Type) where
  shared : σ
  running : Nat → Option (κ × Prog σ ε α)
  answers : List (κ × Except ε α)

/-- What calls against each other reach. `env` is what else changes the shared state. -/
inductive Reach (code : κ → Prog σ ε α) (env : σ → σ → Prop) (s₀ : σ) : Pool σ ε κ α → Prop
  | init : Reach code env s₀ ⟨s₀, fun _ => none, []⟩
  | call {p} (t : Nat) (c : κ) : Reach code env s₀ p → p.running t = none →
      Reach code env s₀ { p with running := Function.update p.running t (some (c, code c)) }
  | turn {p} (t : Nat) (c : κ) (upd : σ → σ) (next : σ → Prog σ ε α) : Reach code env s₀ p →
      p.running t = some (c, .step upd next) →
      Reach code env s₀ { p with
        shared := upd p.shared
        running := Function.update p.running t (some (c, next p.shared)) }
  | answer {p} (t : Nat) (c : κ) (r : Except ε α) : Reach code env s₀ p →
      p.running t = some (c, .done r) →
      Reach code env s₀ { p with
        running := Function.update p.running t none
        answers := p.answers ++ [(c, r)] }
  | other {p} (s : σ) : Reach code env s₀ p → env p.shared s → Reach code env s₀ { p with shared := s }

/-- A pool in which an idle thread makes a call and nobody else acts until it is answered. -/
theorem Reach.alone {code : κ → Prog σ ε α} {env : σ → σ → Prop} {s₀ : σ} {p : Pool σ ε κ α}
    (h : Reach code env s₀ p) (t : Nat) (c : κ) (ht : p.running t = none) :
    Reach code env s₀ { p with
      shared := ((code c).run p.shared).2
      answers := p.answers ++ [(c, ((code c).run p.shared).1)] } := by
  have hgo : ∀ (x : Prog σ ε α) (s : σ), Reach code env s₀
      { p with shared := s, running := Function.update p.running t (some (c, x)) } →
      Reach code env s₀ { p with shared := (x.run s).2, answers := p.answers ++ [(c, (x.run s).1)] } := by
    intro x
    induction x with
    | done r =>
      intro s hr
      have hdone := hr.answer t c r (Function.update_self ..)
      simp only [Function.update_idem] at hdone
      rwa [← ht, Function.update_eq_self] at hdone
    | step upd next ih =>
      intro s hr
      have hturn := hr.turn t c upd next (Function.update_self ..)
      simp only [Function.update_idem] at hturn
      exact ih s (upd s) hturn
  exact hgo (code c) p.shared (h.call t c ht)

/-- Every answer of a pool is what its call yields, also in what the state has become. -/
theorem Reach.answered {code : κ → Prog σ ε α} {env : σ → σ → Prop} {s₀ : σ} {p : Pool σ ε κ α}
    {Q : κ → Except ε α → σ → Prop} (h : Reach code env s₀ p) (hs : I s₀) (hrely : Rely R)
    (hQ : ∀ c r {a b}, Q c r a → I a → R a b → I b → Q c r b)
    (henv : ∀ {a b}, I a → env a b → I b ∧ R a b)
    (hcode : ∀ c {s}, I s → Yields I R (Q c) (code c) s) :
    I p.shared ∧ (∀ t c x, p.running t = some (c, x) → Yields I R (Q c) x p.shared) ∧
      ∀ a ∈ p.answers, Q a.1 a.2 p.shared := by
  induction h with
  | init => exact ⟨hs, fun _ _ _ h => (by cases h), fun a ha => (by cases ha)⟩
  | call t c _ _ ih =>
    obtain ⟨hI, hrun, hans⟩ := ih
    refine ⟨hI, fun u c' x hx => ?_, hans⟩
    by_cases hu : u = t
    · subst hu
      simp only [Function.update_self, Option.some.injEq, Prod.mk.injEq] at hx
      obtain ⟨rfl, rfl⟩ := hx
      exact hcode c hI
    · simp only [Function.update_of_ne hu] at hx
      exact hrun u c' x hx
  | turn t c upd next _ ht ih =>
    obtain ⟨hI, hrun, hans⟩ := ih
    obtain ⟨hI', hR', hnext⟩ := hrun t c _ ht _ (hrely.refl _) hI
    refine ⟨hI', fun u c' x hx => ?_, fun a ha => hQ _ _ (hans a ha) hI hR' hI'⟩
    by_cases hu : u = t
    · subst hu
      simp only [Function.update_self, Option.some.injEq, Prod.mk.injEq] at hx
      obtain ⟨rfl, rfl⟩ := hx
      exact hnext
    · simp only [Function.update_of_ne hu] at hx
      exact (hrun u c' x hx).stable hrely (hQ c') hI hR' hI'
  | answer t c r _ ht ih =>
    obtain ⟨hI, hrun, hans⟩ := ih
    refine ⟨hI, fun u c' x hx => ?_, fun a ha => ?_⟩
    · by_cases hu : u = t
      · subst hu
        simp at hx
      · simp only [Function.update_of_ne hu] at hx
        exact hrun u c' x hx
    · rcases List.mem_append.mp ha with hold | hnew
      · exact hans a hold
      · rw [List.mem_singleton] at hnew
        subst hnew
        exact hrun t c _ ht
  | other s _ he ih =>
    obtain ⟨hI, hrun, hans⟩ := ih
    obtain ⟨hI', hR'⟩ := henv hI he
    exact ⟨hI', fun u c x hx => (hrun u c x hx).stable hrely (hQ c) hI hR' hI',
      fun a ha => hQ _ _ (hans a ha) hI hR' hI'⟩

end Interleave
