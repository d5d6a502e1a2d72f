import Mathlib.Algebra.Group.Int.Defs
import Mathlib.Algebra.Group.Nat.Defs
import Mathlib.Tactic.Common

/-!
# A tree of objects

Which object is at which path, for objects with an identity of their own. Making entries gives them new
objects, a move takes the objects along, and no object is ever at two paths or comes back after it is gone:
objects are numbered in the order they appear.
-/

structure ObjectTree (κ : Type) where
  object : List κ → Option Nat
  /-- The number of the next object. -/
  next : Nat
  bound : ∀ p o, object p = some o → o < next
  inj : ∀ p q o, object p = some o → object q = some o → p = q

namespace ObjectTree

variable {κ : Type} [DecidableEq κ] {t : ObjectTree κ} {p q src dst : List κ} {o : Nat}

/-- Only the root. -/
def root : ObjectTree κ where
  object p := if p = [] then some 0 else none
  next := 1
  bound p o h := by
    split at h
    · cases h
      exact Nat.one_pos
    · cases h
  inj p q o hp hq := by
    split at hp
    · split at hq
      · rename_i h₁ h₂
        rw [h₁, h₂]
      · cases hq
    · cases hp

/-- What `make` puts at a path. -/
def made (t : ObjectTree κ) (p q : List κ) : Option Nat :=
  if q <+: p ∧ t.object q = none then some (t.next + q.length) else t.object q

theorem made_cases (h : t.made p q = some o) :
    (q <+: p ∧ t.object q = none ∧ o = t.next + q.length) ∨ t.object q = some o := by
  unfold made at h
  split at h
  · rename_i hq
    cases h
    exact .inl ⟨hq.1, hq.2, rfl⟩
  · exact .inr h

/-- New objects at `p` and on the way to it, where there is none. -/
def make (t : ObjectTree κ) (p : List κ) : ObjectTree κ where
  object := t.made p
  next := t.next + p.length + 1
  bound q o h := by
    rcases made_cases h with ⟨hpre, -, rfl⟩ | hold
    · have := hpre.length_le
      omega
    · have := t.bound q o hold
      omega
  inj q r o hq hr := by
    rcases made_cases hq with ⟨hpq, -, rfl⟩ | hq
    · rcases made_cases hr with ⟨hpr, -, hlen⟩ | hr
      · exact (List.prefix_of_prefix_length_le hpq hpr (by omega)).eq_of_length (by omega)
      · have := t.bound r _ hr
        omega
    · rcases made_cases hr with ⟨-, -, rfl⟩ | hr
      · have := t.bound q _ hq
        omega
      · exact t.inj q r o hq hr

/-- The entry `p` goes, with everything below it. -/
def remove (t : ObjectTree κ) (p : List κ) : ObjectTree κ where
  object q := if p <+: q then none else t.object q
  next := t.next
  bound q o h := by
    split at h
    · cases h
    · exact t.bound q o h
  inj q r o hq hr := by
    split at hq
    · cases hq
    · split at hr
      · cases hr
      · exact t.inj q r o hq hr

/-- What `move` puts at a path. -/
def moved (t : ObjectTree κ) (src dst q : List κ) : Option Nat :=
  if dst <+: q then t.object (src ++ q.drop dst.length)
  else if src <+: q then none
  else t.object q

theorem moved_cases (h : t.moved src dst q = some o) :
    (∃ rest, q = dst ++ rest ∧ t.object (src ++ rest) = some o) ∨
      (¬ dst <+: q ∧ ¬ src <+: q ∧ t.object q = some o) := by
  unfold moved at h
  split at h
  · rename_i hd
    obtain ⟨rest, rfl⟩ := hd
    rw [List.drop_left] at h
    exact .inl ⟨rest, rfl, h⟩
  · rename_i hd
    split at h
    · cases h
    · rename_i hs
      exact .inr ⟨hd, hs, h⟩

/-- Everything at and below `src` goes to `dst`, in place of what was there. -/
def move (t : ObjectTree κ) (src dst : List κ) : ObjectTree κ where
  object := t.moved src dst
  next := t.next
  bound q o h := by
    rcases moved_cases h with ⟨rest, -, h⟩ | ⟨-, -, h⟩
    · exact t.bound _ o h
    · exact t.bound q o h
  inj q r o hq hr := by
    rcases moved_cases hq with ⟨rest, rfl, hq'⟩ | ⟨-, hnq, hq'⟩
    · rcases moved_cases hr with ⟨rest', rfl, hr'⟩ | ⟨-, hnr, hr'⟩
      · rw [List.append_cancel_left (t.inj _ _ o hq' hr')]
      · exact absurd (t.inj _ _ o hq' hr' ▸ List.prefix_append src rest) hnr
    · rcases moved_cases hr with ⟨rest', rfl, hr'⟩ | ⟨-, -, hr'⟩
      · exact absurd ((t.inj _ _ o hq' hr').symm ▸ List.prefix_append src rest') hnq
      · exact t.inj q r o hq' hr'

end ObjectTree
