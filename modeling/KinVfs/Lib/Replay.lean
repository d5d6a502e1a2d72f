import Mathlib.Algebra.Group.Int.Defs
import Mathlib.Algebra.Group.Nat.Defs
import Mathlib.Logic.Function.Basic
import Mathlib.Tactic.Common

/-!
# Replaying a log of changes late

A store is changed by puts, deletions and moves, and a log of the changes is replayed on a copy. A replayer
that reads the value of a put from the store itself, at the time it gets to it, may find a later value, or
none. That does not matter when the log changes the key again before a move takes it (`replay_late`,
`replay_gone`): until then nothing reads the key, and in the end the last change of a key decides.
-/

namespace Replay

universe u v

variable {κ : Type u} {ν : Type v}

inductive Change (κ : Type u) (ν : Type v) where
  | put (k : κ) (v : ν)
  | delete (k : κ)
  | move (a b : κ)

namespace Change

variable [DecidableEq κ]

def apply (t : κ → Option ν) : Change κ ν → κ → Option ν
  | put k v => Function.update t k (some v)
  | delete k => Function.update t k none
  | move a b => Function.update (Function.update t b (t a)) a none

/-- A move is from a key that is there to another one. -/
def Finds (t : κ → Option ν) : Change κ ν → Prop
  | move a b => t a ≠ none ∧ a ≠ b
  | _ => True

def Touches (k : κ) : Change κ ν → Prop
  | put j _ | delete j => j = k
  | move a b => a = k ∨ b = k

end Change

open Change

/-- No move takes `k` before a change overwrites it. -/
def Untaken (k : κ) : List (Change κ ν) → Prop
  | [] => True
  | put j _ :: cs => j = k ∨ Untaken k cs
  | delete j :: cs => j = k ∨ Untaken k cs
  | move a b :: cs => a ≠ k ∧ (b = k ∨ Untaken k cs)

/-- No move takes what a put of the log left. -/
def Settled : List (Change κ ν) → Prop
  | [] => True
  | put k _ :: cs => Untaken k cs ∧ Settled cs
  | delete _ :: cs => Settled cs
  | move _ _ :: cs => Settled cs

/-- The last change of `k` in the log is a put. -/
def Unread (k : κ) (cs : List (Change κ ν)) : Prop :=
  ∃ pre v post, cs = pre ++ put k v :: post ∧ ∀ c ∈ post, ¬ c.Touches k

section Log

variable {cs : List (Change κ ν)} {c : Change κ ν} {k : κ}

/-- The head of a log that does not take `k`. -/
theorem untaken_cons (h : Untaken k (c :: cs)) : (∀ j, c ≠ move k j) ∧ (c.Touches k ∨ Untaken k cs) := by
  cases c with
  | put j v => exact ⟨by simp, h⟩
  | delete j => exact ⟨by simp, h⟩
  | move a b =>
    refine ⟨fun j hj => ?_, h.2.imp_left .inr⟩
    cases hj
    exact h.1 rfl

/-! ## A log that grows -/

theorem untaken_concat (hc : ∀ j, c ≠ move k j) (h : Untaken k cs) : Untaken k (cs ++ [c]) := by
  induction cs with
  | nil =>
    cases c with
    | put j v => exact .inr trivial
    | delete j => exact .inr trivial
    | move a b => exact ⟨fun ha => hc b (by rw [ha]), .inr trivial⟩
  | cons d cs ih =>
    cases d with
    | put | delete => exact h.imp_right ih
    | move => exact ⟨h.1, h.2.imp_right ih⟩

/-- A key that the log overwrites may be taken by a later move. -/
theorem untaken_concat_of_touched (h : Untaken k cs) (ht : ∃ d ∈ cs, d.Touches k) : Untaken k (cs ++ [c]) := by
  induction cs with
  | nil =>
    obtain ⟨d, hd, -⟩ := ht
    cases hd
  | cons d cs ih =>
    have hrest : ¬ d.Touches k → ∃ d ∈ cs, d.Touches k := by
      intro hno
      obtain ⟨e, he, hek⟩ := ht
      rcases List.mem_cons.mp he with rfl | he
      · exact absurd hek hno
      · exact ⟨e, he, hek⟩
    cases d with
    | put j v | delete j =>
      by_cases hj : j = k
      · exact .inl hj
      · exact .inr (ih (h.resolve_left hj) (hrest hj))
    | move a b =>
      refine ⟨h.1, ?_⟩
      by_cases hb : b = k
      · exact .inl hb
      · refine .inr (ih (h.2.resolve_left hb) (hrest ?_))
        rintro (ha | hb')
        · exact h.1 ha
        · exact hb hb'

/-- The log stays settled under a change that takes no put. -/
theorem settled_concat (h : Settled cs) (hc : ∀ a b, c = move a b → ¬ Unread a cs) : Settled (cs ++ [c]) := by
  induction cs with
  | nil => cases c <;> simp [Settled, Untaken]
  | cons d cs ih =>
    have hrest : ∀ a b, c = move a b → ¬ Unread a cs := by
      rintro a b rfl ⟨pre, v, post, rfl, hpost⟩
      exact hc a b rfl ⟨d :: pre, v, post, rfl, hpost⟩
    cases d with
    | put k v =>
      refine ⟨?_, ih h.2 hrest⟩
      by_cases hm : ∃ j, c = move k j
      · obtain ⟨j, rfl⟩ := hm
        refine untaken_concat_of_touched h.1 ?_
        by_contra hno
        refine hc k j rfl ⟨[], v, cs, rfl, fun d hd hk => hno ⟨d, hd, hk⟩⟩
      · exact untaken_concat (fun j hj => hm ⟨j, hj⟩) h.1
    | delete => exact ih h hrest
    | move => exact ih h hrest

end Log

/-! ## Replaying -/

variable [DecidableEq κ] {t : κ → Option ν} {cs : List (Change κ ν)} {c : Change κ ν} {k : κ} {v : ν}
  {x : Option ν}

def replay (t : κ → Option ν) (cs : List (Change κ ν)) : κ → Option ν := cs.foldl apply t

/-- Every move finds its source. -/
def Ready (t : κ → Option ν) : List (Change κ ν) → Prop
  | [] => True
  | c :: cs => c.Finds t ∧ Ready (c.apply t) cs

@[simp] theorem replay_nil : replay t [] = t := rfl

@[simp] theorem replay_cons : replay t (c :: cs) = replay (c.apply t) cs := rfl

theorem replay_concat : replay t (cs ++ [c]) = c.apply (replay t cs) := by
  rw [replay, List.foldl_append]
  rfl

theorem ready_concat : Ready t (cs ++ [c]) ↔ Ready t cs ∧ c.Finds (replay t cs) := by
  induction cs generalizing t with
  | nil => simp [Ready]
  | cons d cs ih => simp only [List.cons_append, Ready, ih, replay_cons, and_assoc]

/-! ## A value that nothing takes -/

/-- What a change that does not touch `k` makes of a store is independent of the value at `k`. -/
theorem apply_update (h : ¬ c.Touches k) : c.apply (Function.update t k x) = Function.update (c.apply t) k x := by
  cases c with
  | put j v => exact Function.update_comm (fun h' => h h'.symm) _ _ _
  | delete j => exact Function.update_comm (fun h' => h h'.symm) _ _ _
  | move a b =>
    have ha : a ≠ k := fun h' => h (.inl h')
    have hb : b ≠ k := fun h' => h (.inr h')
    simp only [apply, Function.update_of_ne ha]
    rw [Function.update_comm hb.symm, Function.update_comm ha.symm]

theorem finds_update (h : ∀ j, c ≠ move k j) : c.Finds (Function.update t k x) ↔ c.Finds t := by
  cases c with
  | put | delete => exact Iff.rfl
  | move a b =>
    have ha : a ≠ k := by
      rintro rfl
      exact h b rfl
    simp only [Finds, Function.update_of_ne ha]

/-- A change that overwrites `k` without taking it forgets the value there. -/
theorem apply_overwrites (h : c.Touches k) (hm : ∀ j, c ≠ move k j) :
    c.apply (Function.update t k x) = c.apply t := by
  cases c with
  | put j v =>
    cases h
    exact Function.update_idem _ _ _
  | delete j =>
    cases h
    exact Function.update_idem _ _ _
  | move a b =>
    have ha : a ≠ k := by
      rintro rfl
      exact hm b rfl
    rcases h with h | rfl
    · exact absurd h ha
    · simp only [apply, Function.update_of_ne ha, Function.update_idem]

/-- **The value of a key that is not taken** is forgotten, or stays where it is. -/
theorem replay_update (h : Untaken k cs) :
    (∀ x, replay (Function.update t k x) cs = replay t cs) ∨
      ∀ x, replay (Function.update t k x) cs = Function.update (replay t cs) k x := by
  induction cs generalizing t with
  | nil => exact .inr fun _ => rfl
  | cons c cs ih =>
    obtain ⟨hm, hor⟩ := untaken_cons h
    by_cases ht : c.Touches k
    · refine .inl fun x => ?_
      rw [replay_cons, apply_overwrites ht hm, replay_cons]
    · simp only [replay_cons, apply_update ht]
      exact ih (hor.resolve_left ht)

theorem ready_update (h : Untaken k cs) : Ready (Function.update t k x) cs ↔ Ready t cs := by
  induction cs generalizing t with
  | nil => exact Iff.rfl
  | cons c cs ih =>
    obtain ⟨hm, hor⟩ := untaken_cons h
    simp only [Ready, finds_update hm]
    by_cases ht : c.Touches k
    · rw [apply_overwrites ht hm]
    · rw [apply_update ht, ih (hor.resolve_left ht)]

/-- **A put that is replayed late** with the value that the key ends up with. -/
theorem replay_late (h : Settled (put k v :: cs)) (hv : replay t (put k v :: cs) k = x) :
    replay (Function.update t k x) cs = replay t (put k v :: cs) := by
  rw [replay_cons, apply] at hv ⊢
  rcases replay_update (t := t) h.1 with hall | hall
  · rw [hall, hall]
  · rw [hall, hall]
    rw [hall, Function.update_self] at hv
    rw [hv]

/-- **A put that is left out** because the key ends up without a value. -/
theorem replay_gone (h : Settled (put k v :: cs)) (hv : replay t (put k v :: cs) k = none) :
    replay t cs = replay t (put k v :: cs) := by
  rw [replay_cons, apply] at hv ⊢
  rcases replay_update (t := t) h.1 with hall | hall
  · rw [hall]
  · rw [hall, Function.update_self] at hv
    cases hv

end Replay
