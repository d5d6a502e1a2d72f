import Mathlib.Algebra.Group.Int.Defs
import Mathlib.Algebra.Group.Nat.Defs
import Mathlib.Tactic.Common

/-!
# Loops that may fail

`List.foldlM` and `List.mapM` in `Except`: an invariant over the items done so far (`foldlM_inv`),
and what a successful map is made of (`mapM_forall₂`); and in `Option`, where every turn goes on
(`foldlM_total`).
-/

namespace Fold

variable {ε α β γ : Type}

theorem bind_eq_ok {x : Except ε α} {f : α → Except ε β} {b : β} :
    (x >>= f) = .ok b ↔ ∃ a, x = .ok a ∧ f a = .ok b := by
  cases x with
  | error e =>
    constructor
    · intro h
      cases h
    · rintro ⟨a, h, -⟩
      cases h
  | ok a =>
    constructor
    · intro h
      exact ⟨a, rfl, h⟩
    · rintro ⟨a', h, h'⟩
      cases h
      exact h'

theorem foldlM_inv_append {f : β → α → Except ε β} {P : β → List α → Prop}
    (hstep : ∀ b done x b', P b done → f b x = .ok b' → P b' (done ++ [x]))
    {xs done : List α} {b b' : β} (hb : P b done) (h : xs.foldlM f b = .ok b') :
    P b' (done ++ xs) := by
  induction xs generalizing b done with
  | nil =>
    cases h
    rw [List.append_nil]
    exact hb
  | cons x xs ih =>
    rw [List.foldlM_cons] at h
    obtain ⟨b₁, h₁, h₂⟩ := bind_eq_ok.mp h
    have hnext := ih (hstep b done x b₁ hb h₁) h₂
    rw [List.append_assoc] at hnext
    exact hnext

/-- What one turn of a loop keeps, of the state and the items done, holds when the loop is done. -/
theorem foldlM_inv {f : β → α → Except ε β} (P : β → List α → Prop)
    (hstep : ∀ b done x b', P b done → f b x = .ok b' → P b' (done ++ [x]))
    {xs : List α} {b b' : β} (hb : P b []) (h : xs.foldlM f b = .ok b') : P b' xs :=
  foldlM_inv_append (P := P) hstep hb h

/-- A successful map is a map item by item. -/
theorem mapM_forall₂ {f : α → Except ε β} {xs : List α} {ys : List β} (h : xs.mapM f = .ok ys) :
    List.Forall₂ (fun x y => f x = .ok y) xs ys := by
  induction xs generalizing ys with
  | nil =>
    rw [List.mapM_nil] at h
    cases h
    exact .nil
  | cons x xs ih =>
    rw [List.mapM_cons] at h
    obtain ⟨y, hy, h⟩ := bind_eq_ok.mp h
    obtain ⟨ys', hys, h⟩ := bind_eq_ok.mp h
    cases h
    exact .cons hy (ih hys)

theorem mem_of_forall₂ {R : α → β → Prop} {xs : List α} {ys : List β} (h : List.Forall₂ R xs ys)
    {y : β} (hy : y ∈ ys) : ∃ x ∈ xs, R x y := by
  induction h with
  | nil => cases hy
  | cons hxy _ ih =>
    rcases List.mem_cons.mp hy with rfl | hy
    · exact ⟨_, List.mem_cons_self, hxy⟩
    · obtain ⟨x, hx, hr⟩ := ih hy
      exact ⟨x, List.mem_cons_of_mem _ hx, hr⟩

/-- A loop whose turns all go on keeps what they keep. -/
theorem foldlM_total {f : β → α → Option β} {P : β → Prop}
    (hstep : ∀ b x, P b → ∃ b', f b x = some b' ∧ P b') {b : β} (hb : P b) (xs : List α) :
    ∃ b', xs.foldlM f b = some b' ∧ P b' := by
  induction xs generalizing b with
  | nil => exact ⟨b, rfl, hb⟩
  | cons x xs ih =>
    obtain ⟨b₁, h₁, hb₁⟩ := hstep b x hb
    obtain ⟨b', h', hb'⟩ := ih hb₁
    refine ⟨b', ?_, hb'⟩
    rw [List.foldlM_cons, h₁]
    exact h'

end Fold
