import Mathlib.Algebra.Group.Int.Defs
import Mathlib.Algebra.GroupWithZero.Nat
import Mathlib.Data.List.Basic

/-!
# Pieces of a list

A piece is a part of a list and the position it starts at. `Consecutive` pieces follow one another, and
so hold every position of a prefix once (`Consecutive.countP`, `Consecutive.prefix_flatMap`). `InPieces` is
the same for pieces in any order.
-/

namespace Pieces

universe u

structure Piece (α : Type u) where
  offset : Nat
  data : List α
  deriving DecidableEq

variable {α : Type u} {content : List α} {pos : Nat} {p : Piece α} {ps : List (Piece α)}

/-- How much the pieces hold. -/
def size (ps : List (Piece α)) : Nat := (ps.map fun p => p.data.length).sum

@[simp] theorem size_nil : size ([] : List (Piece α)) = 0 := rfl

@[simp] theorem size_cons : size (p :: ps) = p.data.length + size ps := by simp [size]

@[simp] theorem size_append {qs : List (Piece α)} : size (ps ++ qs) = size ps + size qs := by
  simp [size]

/-- Each piece is of `content`, and starts where the one before it ends; the first one at the given
position. -/
def Consecutive (content : List α) : Nat → List (Piece α) → Prop
  | _, [] => True
  | pos, p :: ps =>
    p.offset = pos ∧ p.data <+: content.drop pos ∧ Consecutive content (pos + p.data.length) ps

/-- In some order the pieces are consecutive from the start. -/
def InPieces (content : List α) (ps : List (Piece α)) : Prop :=
  ∃ order, order.Perm ps ∧ Consecutive content 0 order

namespace Consecutive

theorem append (h : Consecutive content pos ps) (hoff : p.offset = pos + size ps)
    (hdata : p.data <+: content.drop p.offset) : Consecutive content pos (ps ++ [p]) := by
  induction ps generalizing pos with
  | nil =>
    have hpos : p.offset = pos := by simpa using hoff
    exact ⟨hpos, hpos ▸ hdata, trivial⟩
  | cons q qs ih =>
    obtain ⟨hq, hqd, hrest⟩ := h
    refine ⟨hq, hqd, ih hrest ?_⟩
    rw [size_cons] at hoff
    omega

theorem prefix_of_mem (h : Consecutive content pos ps) (hp : p ∈ ps) :
    p.data <+: content.drop p.offset := by
  induction ps generalizing pos with
  | nil => cases hp
  | cons q qs ih =>
    obtain ⟨hq, hqd, hrest⟩ := h
    rcases List.mem_cons.mp hp with rfl | hp
    · rw [hq]
      exact hqd
    · exact ih hrest hp

/-- Together they are what stands from `pos` on. -/
theorem prefix_flatMap (h : Consecutive content pos ps) :
    ps.flatMap (·.data) <+: content.drop pos := by
  induction ps generalizing pos with
  | nil => exact List.nil_prefix
  | cons q qs ih =>
    obtain ⟨-, ⟨rest, hrest⟩, htail⟩ := h
    have hnext := ih htail
    rw [← List.drop_drop, ← hrest, List.drop_left] at hnext
    rw [List.flatMap_cons, ← hrest]
    exact (List.prefix_append_right_inj _).mpr hnext

/-- Every position that they reach is in one piece. -/
theorem countP (h : Consecutive content pos ps) (q : Nat) :
    ps.countP (fun p => p.offset ≤ q ∧ q < p.offset + p.data.length) =
      if pos ≤ q ∧ q < pos + size ps then 1 else 0 := by
  induction ps generalizing pos with
  | nil =>
    rw [List.countP_nil, if_neg]
    rw [size_nil]
    omega
  | cons r rs ih =>
    obtain ⟨rfl, -, hrest⟩ := h
    rw [List.countP_cons, ih hrest, size_cons]
    simp only [decide_eq_true_eq]
    split_ifs <;> omega

end Consecutive

/-- A piece that starts before the end of the others holds a position twice. -/
theorem InPieces.le_offset (h : Consecutive content 0 ps) (hall : InPieces content (ps ++ [p]))
    (hp : p.data ≠ []) : size ps ≤ p.offset := by
  obtain ⟨order, hperm, horder⟩ := hall
  have hcount := hperm.countP_eq fun r => r.offset ≤ p.offset ∧ p.offset < r.offset + r.data.length
  have hlen : 0 < p.data.length := List.length_pos_of_ne_nil hp
  rw [horder.countP, List.countP_append, h.countP, List.countP_singleton] at hcount
  have hself : p.offset ≤ p.offset ∧ p.offset < p.offset + p.data.length := by omega
  rw [if_pos (decide_eq_true hself)] at hcount
  by_contra hlt
  rw [if_pos (by omega : 0 ≤ p.offset ∧ p.offset < 0 + size ps)] at hcount
  split at hcount <;> omega

theorem InPieces.prefix_of_mem (h : InPieces content ps) (hp : p ∈ ps) :
    p.data <+: content.drop p.offset := by
  obtain ⟨order, hperm, horder⟩ := h
  exact horder.prefix_of_mem (hperm.mem_iff.mpr hp)

end Pieces
