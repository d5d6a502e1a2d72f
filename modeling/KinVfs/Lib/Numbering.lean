import Mathlib.Algebra.Group.Int.Defs
import Mathlib.Algebra.Group.Nat.Defs
import Mathlib.Tactic.Common

/-!
# Two maps that are inverse

A table that numbers keys has a map for each direction. `Inverse` says that they are the graph of one partial
bijection; a new pair keeps it (`Inverse.insert`), and so does a key that gives its number to another one,
which loses what it had (`Inverse.move`).
-/

namespace Numbering

variable {κ ι : Type} [DecidableEq κ] [DecidableEq ι] {f : κ → Option ι} {g : ι → Option κ} {k src dst : κ}
  {i j : ι}

def Inverse (f : κ → Option ι) (g : ι → Option κ) : Prop := ∀ k i, f k = some i ↔ g i = some k

omit [DecidableEq κ] [DecidableEq ι] in
theorem Inverse.key_inj {k' : κ} (h : Inverse f g) (hk : f k = some i) (hk' : f k' = some i) : k = k' := by
  rw [h] at hk hk'
  exact Option.some.inj (hk.symm.trans hk')

theorem Inverse.insert (h : Inverse f g) (hk : f k = none) (hi : g i = none) :
    Inverse (fun x => if x = k then some i else f x) (fun j => if j = i then some k else g j) := by
  intro x j
  by_cases hx : x = k
  · by_cases hj : j = i
    · simp [hx, hj]
    · have hno : g j ≠ some k := by
        rw [ne_eq, ← h, hk]
        nofun
      simp [hx, hj, hno, Ne.symm hj]
  · by_cases hj : j = i
    · have hno : f x ≠ some i := by
        rw [ne_eq, h, hi]
        nofun
      simp [hx, hj, hno, Ne.symm hx]
    · simp only [if_neg hx, if_neg hj]
      exact h x j

theorem Inverse.move (h : Inverse f g) (hsrc : f src = some i) :
    Inverse (fun x => if x = dst then some i else if x = src then none else f x)
      (fun j => if j = i then some dst else if f dst = some j then none else g j) := by
  intro x j
  by_cases hj : j = i
  · -- The number that moves: only `dst` has it.
    subst hj
    by_cases hx : x = dst
    · simp [hx]
    · have hno : (if x = src then none else f x) ≠ some j := by
        split
        · nofun
        · rename_i hxs
          exact fun hxj => hxs (h.key_inj hxj hsrc)
      simp [hx, hno, Ne.symm hx]
  · simp only [if_neg hj]
    by_cases hx : x = dst
    · -- What `dst` had is dropped.
      subst hx
      refine iff_of_false ?_ ?_
      · simp [Ne.symm hj]
      · split
        · nofun
        · rename_i hno
          exact fun hgj => hno ((h x j).mpr hgj)
    · simp only [if_neg hx]
      by_cases hxs : x = src
      · refine iff_of_false (by simp [hxs]) ?_
        split
        · nofun
        · rw [← h, hxs, hsrc]
          simp [Ne.symm hj]
      · rw [if_neg hxs]
        split
        · rename_i hdst
          exact iff_of_false (fun hxj => hx (h.key_inj hxj hdst)) nofun
        · exact h x j

end Numbering
