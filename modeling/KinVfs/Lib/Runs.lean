import Mathlib.Algebra.Group.Int.Defs
import Mathlib.Algebra.Group.Nat.Defs
import Mathlib.Tactic.Common

/-!
# Runs of a labelled transition function

`step s l` is the state after the labelled step `l`, or `none` when that step cannot be taken in
`s`. A run is a list of labels; `run` executes it. What one step preserves, a run preserves
(`run_inv`), and when only the steps that meet a condition preserve it, so does every run whose
steps all meet that condition (`run_inv_of_meets`).
-/

namespace Runs

universe u v

variable {σ : Type u} {κ : Type v} {step : σ → κ → Option σ} {s s' : σ} {l : κ} {ls ls' : List κ}

/-- Execute a list of steps. -/
def run (step : σ → κ → Option σ) : σ → List κ → Option σ
  | s, [] => some s
  | s, l :: ls => (step s l).bind (run step · ls)

@[simp] theorem run_nil : run step s [] = some s := rfl

theorem run_cons_eq_some :
    run step s (l :: ls) = some s' ↔ ∃ t, step s l = some t ∧ run step t ls = some s' := by
  rw [run, Option.bind_eq_some_iff]

theorem run_append : run step s (ls ++ ls') = (run step s ls).bind (run step · ls') := by
  induction ls generalizing s with
  | nil => rfl
  | cons l ls ih =>
    rw [List.cons_append, run, run]
    cases step s l with
    | none => rfl
    | some t => exact ih

/-- Every step of the run from `s` meets the condition `C` in the state it is taken in. -/
def Meets (step : σ → κ → Option σ) (C : σ → κ → Prop) : σ → List κ → Prop
  | _, [] => True
  | s, l :: ls => C s l ∧ ∀ t, step s l = some t → Meets step C t ls

theorem Meets.cons {C : σ → κ → Prop} {t : σ} (hc : C s l) (hstep : step s l = some t)
    (hm : Meets step C t ls) : Meets step C s (l :: ls) := by
  refine ⟨hc, fun u hu => ?_⟩
  rw [hstep] at hu
  cases hu
  exact hm

/-- A step invariant, under a condition on the steps, holds at the end of a run. -/
theorem run_inv_of_meets {C : σ → κ → Prop} {P : σ → Prop}
    (hstep : ∀ s l s', P s → C s l → step s l = some s' → P s')
    (hs : P s) (hm : Meets step C s ls) (h : run step s ls = some s') : P s' := by
  induction ls generalizing s with
  | nil => cases h; exact hs
  | cons l ls ih =>
    obtain ⟨t, ht, h⟩ := run_cons_eq_some.mp h
    exact ih (hstep s l t hs hm.1 ht) (hm.2 t ht) h

/-- A run whose states all have `Q`, and whose steps meet `A`, meets a condition that is what `Q` needs
of a step next to a step invariant. -/
theorem meets_of_inv_of_meets {A C : σ → κ → Prop} {P Q : σ → Prop}
    (hstep : ∀ s l s', P s → A s l → C s l → step s l = some s' → P s')
    (hback : ∀ s l s', P s → A s l → step s l = some s' → Q s' → C s l)
    (hs : P s) (ha : Meets step A s ls) (h : run step s ls = some s')
    (hq : ∀ pre post t, ls = pre ++ post → run step s pre = some t → Q t) : Meets step C s ls := by
  induction ls generalizing s with
  | nil => trivial
  | cons l ls ih =>
    obtain ⟨t, ht, hrest⟩ := run_cons_eq_some.mp h
    have hc : C s l :=
      hback s l t hs ha.1 ht (hq [l] ls t rfl (run_cons_eq_some.mpr ⟨t, ht, rfl⟩))
    refine ⟨hc, fun u hu => ?_⟩
    rw [ht] at hu
    cases hu
    refine ih (hstep s l t hs ha.1 hc ht) (ha.2 t ht) hrest fun pre post v hls hv => ?_
    exact hq (l :: pre) post v (by rw [hls, List.cons_append]) (run_cons_eq_some.mpr ⟨t, ht, hv⟩)

/-- A condition on the labels alone. -/
theorem meets_of_forall {C : κ → Prop} (h : ∀ l ∈ ls, C l) : Meets step (fun _ l => C l) s ls := by
  induction ls generalizing s with
  | nil => trivial
  | cons l ls ih =>
    exact ⟨h l List.mem_cons_self, fun _ _ => ih fun l' hl' => h l' (List.mem_cons_of_mem _ hl')⟩

/-- With no condition on the steps beforehand. -/
theorem meets_of_inv {C : σ → κ → Prop} {P Q : σ → Prop}
    (hstep : ∀ s l s', P s → C s l → step s l = some s' → P s')
    (hback : ∀ s l s', P s → step s l = some s' → Q s' → C s l)
    (hs : P s) (h : run step s ls = some s')
    (hq : ∀ pre post t, ls = pre ++ post → run step s pre = some t → Q t) : Meets step C s ls :=
  meets_of_inv_of_meets (fun s l s' hp _ => hstep s l s' hp) (fun s l s' hp _ => hback s l s' hp) hs
    (meets_of_forall (C := fun _ => True) fun _ _ => trivial) h hq

/-- A condition that a step invariant gives, under one on the labels. -/
theorem meets_of_forall_inv {C : σ → κ → Prop} {D : κ → Prop} {P : σ → Prop}
    (hstep : ∀ s l s', P s → D l → step s l = some s' → P s') (hC : ∀ s l, P s → D l → C s l)
    (hs : P s) (hD : ∀ l ∈ ls, D l) : Meets step C s ls := by
  induction ls generalizing s with
  | nil => trivial
  | cons l ls ih =>
    have hl : D l := hD l List.mem_cons_self
    exact ⟨hC s l hs hl, fun t ht =>
      ih (hstep s l t hs hl ht) fun l' hl' => hD l' (List.mem_cons_of_mem _ hl')⟩

/-- Two conditions on the steps. -/
theorem Meets.and {C D : σ → κ → Prop} (hC : Meets step C s ls) (hD : Meets step D s ls) :
    Meets step (fun s l => C s l ∧ D s l) s ls := by
  induction ls generalizing s with
  | nil => trivial
  | cons l ls ih => exact ⟨⟨hC.1, hD.1⟩, fun t ht => ih (hC.2 t ht) (hD.2 t ht)⟩

/-- A condition on the labels next to one on the steps. -/
theorem Meets.and_forall {C : σ → κ → Prop} {D : κ → Prop} (h : Meets step C s ls) (hD : ∀ l ∈ ls, D l) :
    Meets step (fun s l => C s l ∧ D l) s ls :=
  h.and (meets_of_forall hD)

/-- Steps that meet a condition meet a weaker one. -/
theorem Meets.mono {C D : σ → κ → Prop} (h : Meets step C s ls) (hCD : ∀ s l, C s l → D s l) :
    Meets step D s ls := by
  induction ls generalizing s with
  | nil => trivial
  | cons l ls ih => exact ⟨hCD s l h.1, fun t ht => ih (h.2 t ht)⟩

/-- A step invariant holds at the end of every run. -/
theorem run_inv {P : σ → Prop} (hstep : ∀ s l s', P s → step s l = some s' → P s')
    (hs : P s) (h : run step s ls = some s') : P s' :=
  run_inv_of_meets (fun s l s' hs _ => hstep s l s' hs) hs
    (meets_of_forall (C := fun _ => True) fun _ _ => trivial) h

/-- Where every step with a good label can be taken and keeps an invariant, every run of such labels goes
through. -/
theorem run_total {C : κ → Prop} {P : σ → Prop} (hstep : ∀ s l, P s → C l → ∃ s', step s l = some s' ∧ P s')
    (hs : P s) (hC : ∀ l ∈ ls, C l) : ∃ s', run step s ls = some s' ∧ P s' := by
  induction ls generalizing s with
  | nil => exact ⟨s, rfl, hs⟩
  | cons l ls ih =>
    obtain ⟨t, ht, hPt⟩ := hstep s l hs (hC l List.mem_cons_self)
    obtain ⟨s', hs', hP'⟩ := ih hPt fun l' hl' => hC l' (List.mem_cons_of_mem l hl')
    exact ⟨s', run_cons_eq_some.mpr ⟨t, ht, hs'⟩, hP'⟩

theorem Meets.append {C : σ → κ → Prop} {t : σ} (hm : Meets step C s (ls ++ ls'))
    (h : run step s ls = some t) : Meets step C s ls ∧ Meets step C t ls' := by
  induction ls generalizing s with
  | nil => cases h; exact ⟨trivial, hm⟩
  | cons l ls ih =>
    obtain ⟨u, hu, h⟩ := run_cons_eq_some.mp h
    refine ⟨⟨hm.1, fun v hv => ?_⟩, (ih (hm.2 u hu) h).2⟩
    rw [hu] at hv
    cases hv
    exact (ih (hm.2 u hu) h).1

instance {C : σ → κ → Prop} [∀ s l, Decidable (C s l)] : ∀ s ls, Decidable (Meets step C s ls)
  | _, [] => inferInstanceAs (Decidable True)
  | s, l :: ls =>
    have : Decidable (∀ t, step s l = some t → Meets step C t ls) :=
      match step s l with
      | none => isTrue (by intro t ht; cases ht)
      | some t =>
        match instDecidableMeets t ls with
        | isTrue h => isTrue (by intro t' ht; cases ht; exact h)
        | isFalse h => isFalse fun h' => h (h' t rfl)
    inferInstanceAs (Decidable (_ ∧ _))

end Runs
