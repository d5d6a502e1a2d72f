import Mathlib.Algebra.Group.Int.Defs
import Mathlib.Algebra.Group.Nat.Defs
import Mathlib.Data.List.Nodup
import Mathlib.Data.List.Perm.Subperm

/-!
# The first free number

A search that counts up from a start until it finds a number that is free. When the numbers name distinct
things and fewer things are taken than numbers are tried, it finds one (`find_of_length_lt`).
-/

namespace FirstFree

variable {α : Type} [DecidableEq α] {p : Nat → Bool} {fuel start i : Nat} {f : Nat → α} {taken : List α}

/-- The first free number from `start` on, among `fuel` of them. -/
def find (p : Nat → Bool) : Nat → Nat → Option Nat
  | 0, _ => none
  | fuel + 1, i => if p i then some i else find p fuel (i + 1)

theorem find_spec (h : find p fuel start = some i) : start ≤ i ∧ i < start + fuel ∧ p i = true := by
  induction fuel generalizing start with
  | zero => cases h
  | succ fuel ih =>
    rw [find] at h
    split at h
    · rename_i hfree
      cases h
      exact ⟨Nat.le_refl i, by omega, hfree⟩
    · obtain ⟨hle, hlt, hfree⟩ := ih h
      exact ⟨by omega, by omega, hfree⟩

theorem find_isSome (hle : start ≤ i) (hlt : i < start + fuel) (hfree : p i = true) :
    ∃ j, find p fuel start = some j := by
  induction fuel generalizing start with
  | zero => omega
  | succ fuel ih =>
    rw [find]
    split
    · exact ⟨start, rfl⟩
    · rename_i hno
      have hne : start ≠ i := by
        rintro rfl
        exact hno hfree
      exact ih (by omega) (by omega)

omit [DecidableEq α] in
/-- Of more names than are taken one is not. -/
theorem exists_not_mem (hf : Function.Injective f) (h : taken.length < fuel) (start : Nat) :
    ∃ i, start ≤ i ∧ i < start + fuel ∧ f i ∉ taken := by
  by_contra hall
  push Not at hall
  have hnodup : ((List.range' start fuel).map f).Nodup := List.Nodup.map hf List.nodup_range'
  have hsub : (List.range' start fuel).map f ⊆ taken := by
    intro x hx
    obtain ⟨i, hi, rfl⟩ := List.mem_map.mp hx
    obtain ⟨hle, hlt⟩ := List.mem_range'_1.mp hi
    exact hall i hle hlt
  have := (hnodup.subperm hsub).length_le
  rw [List.length_map, List.length_range'] at this
  omega

theorem find_of_length_lt (hf : Function.Injective f) (h : taken.length < fuel) (start : Nat) :
    ∃ i, find (fun i => !taken.contains (f i)) fuel start = some i ∧ start ≤ i ∧ i < start + fuel ∧
      f i ∉ taken := by
  obtain ⟨j, hle, hlt, hfree⟩ := exists_not_mem hf h start
  obtain ⟨i, hi⟩ := find_isSome (p := fun i => !taken.contains (f i)) hle hlt (by simpa using hfree)
  obtain ⟨hle', hlt', hfree'⟩ := find_spec hi
  exact ⟨i, hi, hle', hlt', by simpa using hfree'⟩

end FirstFree
