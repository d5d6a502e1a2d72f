import Mathlib.Algebra.Group.Int.Defs
import Mathlib.Algebra.Group.Nat.Defs
import Mathlib.Data.Finset.Card
import Mathlib.Data.List.Dedup

/-!
# A set of bounded size

A set that takes new elements until it has `n` of them. After any sequence of insertions it holds the first
`n` distinct elements (`foldl_insert`), so it is empty only when nothing was inserted or `n` is 0.
-/

namespace Capped

variable {α : Type} [DecidableEq α] {n : Nat} {x : α} {xs : List α}

/-- A full set takes no new element. -/
def insert (n : Nat) (s : Finset α) (x : α) : Finset α := if n ≤ s.card ∧ x ∉ s then s else Insert.insert x s

/-- The first `n` distinct elements of a list. -/
def firstDistinct (n : Nat) (xs : List α) : List α := xs.eraseDups.take n

theorem eraseDups_concat : (xs ++ [x]).eraseDups = if x ∈ xs then xs.eraseDups else xs.eraseDups ++ [x] := by
  have hone : [x].eraseDups = [x] := by rw [List.eraseDups_cons]; rfl
  rw [List.eraseDups_append]
  split
  · rename_i hx
    simp [List.removeAll, hx]
  · rename_i hx
    have hkeep : [x].removeAll xs = [x] := by simp [List.removeAll, hx]
    rw [hkeep, hone]

theorem nodup_eraseDups : xs.eraseDups.Nodup := by
  induction xs using List.reverseRecOn with
  | nil => simp
  | append_singleton xs x ih =>
    rw [eraseDups_concat]
    split
    · exact ih
    · rename_i hx
      refine ih.append (List.nodup_singleton x) ?_
      simpa [List.disjoint_singleton] using hx

theorem firstDistinct_concat (n : Nat) (xs : List α) (x : α) :
    (firstDistinct n (xs ++ [x])).toFinset = insert n (firstDistinct n xs).toFinset x := by
  have hnodup : (firstDistinct n xs).Nodup := nodup_eraseDups.sublist (List.take_sublist _ _)
  unfold insert
  rw [List.toFinset_card_of_nodup hnodup]
  unfold firstDistinct
  simp only [eraseDups_concat, List.length_take, List.mem_toFinset]
  by_cases hx : x ∈ xs
  · rw [if_pos hx]
    by_cases hin : x ∈ xs.eraseDups.take n
    · rw [if_neg fun h => h.2 hin, Finset.insert_eq_of_mem (List.mem_toFinset.mpr hin)]
    · -- an element of the list that is not among the first `n` shows that there are `n`
      have hfull : n ≤ xs.eraseDups.length := by
        by_contra hlt
        rw [List.take_of_length_le (by omega), List.mem_eraseDups] at hin
        exact hin hx
      rw [if_pos ⟨by omega, hin⟩]
  · rw [if_neg hx]
    have hnot : x ∉ xs.eraseDups.take n := fun h => hx (List.mem_eraseDups.mp (List.mem_of_mem_take h))
    by_cases hfull : n ≤ xs.eraseDups.length
    · rw [if_pos ⟨by omega, hnot⟩, List.take_append_of_le_length hfull]
    · have hlen : (xs.eraseDups ++ [x]).length ≤ n := by
        rw [List.length_append, List.length_singleton]
        omega
      rw [if_neg fun h => hfull (by omega), List.take_of_length_le hlen, List.take_of_length_le (by omega),
        List.toFinset_append, Finset.union_comm]
      rfl

/-- What a run of insertions leaves. -/
theorem foldl_insert (n : Nat) (xs : List α) : xs.foldl (insert n) ∅ = (firstDistinct n xs).toFinset := by
  induction xs using List.reverseRecOn with
  | nil => simp [firstDistinct]
  | append_singleton xs x ih => rw [List.foldl_concat, ih, firstDistinct_concat]

end Capped
