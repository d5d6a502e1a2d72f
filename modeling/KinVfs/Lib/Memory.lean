import Mathlib.Algebra.Group.Int.Defs
import Mathlib.Algebra.Group.Nat.Defs
import Mathlib.Tactic.Common

/-!
# Bytes at addresses

A memory is a function from addresses to bytes. `store` writes a run of bytes, `load` reads one back.
Stores that follow each other are one store (`store_append`), a store is read back (`load_store`) and
leaves the rest alone (`store_other`).
-/

namespace Memory

/-- The byte at every address. -/
abbrev Mem := Nat → UInt8

/-- Write the bytes from `a` on. -/
def store (m : Mem) (a : Nat) (bs : List UInt8) : Mem := fun x =>
  if a ≤ x then (bs[x - a]?).getD (m x) else m x

/-- The `n` bytes from `a` on. -/
def load (m : Mem) (a n : Nat) : List UInt8 := (List.range n).map fun i => m (a + i)

variable {m : Mem} {a x n : Nat} {bs cs : List UInt8}

theorem store_other (h : x < a ∨ a + bs.length ≤ x) : store m a bs x = m x := by
  unfold store
  split
  · have hout : bs.length ≤ x - a := by omega
    rw [List.getElem?_eq_none hout, Option.getD_none]
  · rfl

theorem store_at {i : Nat} (h : i < bs.length) : store m a bs (a + i) = bs[i] := by
  unfold store
  rw [if_pos (by omega), show a + i - a = i by omega, List.getElem?_eq_getElem h, Option.getD_some]

@[simp] theorem store_nil : store m a [] = m := by
  funext x
  exact store_other (by simp only [List.length_nil]; omega)

theorem store_append : store (store m a bs) (a + bs.length) cs = store m a (bs ++ cs) := by
  funext x
  by_cases hlow : x < a + bs.length
  · rw [store_other (.inl hlow)]
    unfold store
    split
    · rw [List.getElem?_append_left (by omega)]
    · rfl
  · have hin : a ≤ x := by omega
    have hnone : bs[x - a]? = none := List.getElem?_eq_none (by omega)
    have hsub : x - (a + bs.length) = x - a - bs.length := by omega
    unfold store
    rw [if_pos (by omega), if_pos hin, if_pos hin, hnone, List.getElem?_append_right (by omega), hsub,
      Option.getD_none]

@[simp] theorem length_load : (load m a n).length = n := by
  simp [load]

theorem load_store : load (store m a bs) a bs.length = bs := by
  apply List.ext_getElem
  · simp
  · intro i hi hi'
    simp only [load, List.getElem_map, List.getElem_range]
    exact store_at hi'

end Memory
