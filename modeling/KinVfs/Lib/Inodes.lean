import Mathlib.Algebra.Group.Int.Defs
import Mathlib.Algebra.Group.Nat.Defs
import Mathlib.Logic.Function.Basic
import Mathlib.Tactic.Common

/-!
# Names of files

A name leads to an inode, which holds the content: a file that is open keeps its inode when the name
goes. Every inode has one name at most (`Wf`), so what is done under other names leaves a file alone
(`Kept`). Seen by name, a directory is what its files hold (`content`).
-/

namespace Inodes

universe u v

/-- The names, what the inodes hold, and the first inode that was not used. -/
structure Dir (ν : Type u) (α : Type v) where
  entries : ν → Option Nat
  data : Nat → α
  next : Nat

namespace Dir

variable {ν : Type u} {α : Type v} {d d' : Dir ν α} {n m : ν} {i j : Nat} {x : α}

/-- Change what an inode holds. -/
def put (d : Dir ν α) (i : Nat) (x : α) : Dir ν α := { d with data := Function.update d.data i x }

/-- Remove the names of a kind. -/
def sweep (d : Dir ν α) (gone : ν → Bool) : Dir ν α :=
  { d with entries := fun n => if gone n then none else d.entries n }

/-- What the file at a name holds. -/
def content (d : Dir ν α) (n : ν) : Option α := (d.entries n).map d.data

/-- No inode has two names, and those that have one were used. -/
structure Wf (d : Dir ν α) : Prop where
  one : ∀ n m i, d.entries n = some i → d.entries m = some i → n = m
  used : ∀ n i, d.entries n = some i → i < d.next

/-- The file `i` is still at `n`, and holds the same. -/
structure Kept (d d' : Dir ν α) (n : ν) (i : Nat) : Prop where
  entry : d'.entries n = some i
  data : d'.data i = d.data i

theorem Kept.trans {d'' : Dir ν α} (h : Kept d d' n i) (h' : Kept d' d'' n i) : Kept d d'' n i :=
  ⟨h'.entry, h'.data.trans h.data⟩

theorem Wf.put (h : d.Wf) : (d.put i x).Wf := ⟨h.one, h.used⟩

theorem kept_put (h : d.entries n = some i) (hne : i ≠ j) : Kept d (d.put j x) n i :=
  ⟨h, Function.update_of_ne hne _ _⟩

theorem Wf.sweep (h : d.Wf) (gone : ν → Bool) : (d.sweep gone).Wf where
  one n m i hn hm := by
    unfold Dir.sweep at hn hm
    dsimp only at hn hm
    split at hn
    · cases hn
    · split at hm
      · cases hm
      · exact h.one n m i hn hm
  used n i hn := by
    unfold Dir.sweep at hn
    dsimp only at hn
    split at hn
    · cases hn
    · exact h.used n i hn

theorem kept_sweep {gone : ν → Bool} (h : d.entries n = some i) (hn : gone n = false) :
    Kept d (d.sweep gone) n i := by
  refine ⟨?_, rfl⟩
  unfold sweep
  dsimp only
  rw [hn, h]
  rfl

theorem content_sweep (d : Dir ν α) (gone : ν → Bool) (n : ν) :
    (d.sweep gone).content n = if gone n then none else d.content n := by
  unfold content sweep
  dsimp only
  split <;> rfl

/-- A file that has no name is not seen. -/
theorem content_put_of_unnamed (h : ∀ n, d.entries n ≠ some i) : (d.put i x).content = d.content := by
  funext n
  unfold content put
  dsimp only
  cases hn : d.entries n with
  | none => rfl
  | some j =>
    have hne : j ≠ i := by
      rintro rfl
      exact h n hn
    exact congrArg some (Function.update_of_ne hne _ _)

variable [DecidableEq ν]

/-- The file at a name, a new one that holds `x` if there is none. -/
def creat (d : Dir ν α) (n : ν) (x : α) : Nat × Dir ν α :=
  match d.entries n with
  | some i => (i, d)
  | none => (d.next, ⟨Function.update d.entries n (some d.next), Function.update d.data d.next x, d.next + 1⟩)

/-- Give the file at `n` the name `m`; `none` if there is none. -/
def rename (d : Dir ν α) (n m : ν) : Option (Dir ν α) :=
  match d.entries n with
  | some i => some { d with entries := Function.update (Function.update d.entries n none) m (some i) }
  | none => none

theorem creat_entry (d : Dir ν α) (n : ν) (x : α) : (d.creat n x).2.entries n = some (d.creat n x).1 := by
  unfold creat
  cases h : d.entries n with
  | none => exact Function.update_self ..
  | some i => exact h

theorem Wf.creat (h : d.Wf) (n : ν) (x : α) : (d.creat n x).2.Wf := by
  unfold Dir.creat
  cases hn : d.entries n with
  | some i => exact h
  | none =>
    constructor
    · intro a b i ha hb
      dsimp only at ha hb
      rw [Function.update_apply] at ha hb
      split at ha <;> split at hb
      · subst a b
        rfl
      · cases ha
        exact absurd (h.used b _ hb) (Nat.lt_irrefl _)
      · cases hb
        exact absurd (h.used a _ ha) (Nat.lt_irrefl _)
      · exact h.one a b i ha hb
    · intro a i ha
      dsimp only at ha ⊢
      rw [Function.update_apply] at ha
      split at ha
      · cases ha
        exact Nat.lt_succ_self _
      · exact Nat.lt_succ_of_lt (h.used a i ha)

theorem kept_creat (hd : d.Wf) (h : d.entries n = some i) (hne : n ≠ m) : Kept d (d.creat m x).2 n i := by
  have hi := hd.used n i h
  unfold creat
  cases d.entries m with
  | some j => exact ⟨h, rfl⟩
  | none => exact ⟨(Function.update_of_ne hne _ _).trans h, Function.update_of_ne (Nat.ne_of_lt hi) _ _⟩

/-- The file is not the one at another name. -/
theorem creat_ne (hd : d.Wf) (h : d.entries n = some i) (hne : n ≠ m) : i ≠ (d.creat m x).1 := by
  rintro rfl
  exact hne ((hd.creat m x).one n m _ (kept_creat hd h hne).entry (creat_entry d m x))

theorem rename_entry (h : d.rename n m = some d') (hn : d.entries n = some i) :
    d'.entries m = some i ∧ d'.data = d.data := by
  unfold rename at h
  rw [hn] at h
  cases h
  exact ⟨Function.update_self .., rfl⟩

theorem Wf.rename (hd : d.Wf) (h : d.rename n m = some d') : d'.Wf := by
  unfold Dir.rename at h
  split at h
  · rename_i i hn
    cases h
    -- Only `m` leads to the file now.
    have hold : ∀ a j, a ≠ m → Function.update d.entries n none a = some j → d.entries a = some j ∧ j ≠ i := by
      intro a j ha hj
      rw [Function.update_apply] at hj
      split at hj
      · cases hj
      · rename_i hne
        refine ⟨hj, ?_⟩
        rintro rfl
        exact hne (hd.one a n j hj hn)
    constructor
    · intro a b j ha hb
      dsimp only at ha hb
      rw [Function.update_apply] at ha hb
      split at ha <;> split at hb
      · subst a b
        rfl
      · cases ha
        exact absurd rfl (hold b i ‹_› hb).2
      · cases hb
        exact absurd rfl (hold a i ‹_› ha).2
      · exact hd.one a b j (hold a j ‹_› ha).1 (hold b j ‹_› hb).1
    · intro a j ha
      dsimp only at ha
      rw [Function.update_apply] at ha
      split at ha
      · cases ha
        exact hd.used n i hn
      · exact hd.used a j (hold a j ‹_› ha).1
  · cases h

theorem kept_rename {a : ν} (h : d.rename n m = some d') (ha : d.entries a = some i) (hn : a ≠ n)
    (hm : a ≠ m) : Kept d d' a i := by
  unfold rename at h
  split at h
  · cases h
    refine ⟨?_, rfl⟩
    dsimp only
    rw [Function.update_of_ne hm, Function.update_of_ne hn, ha]
  · cases h

/-! ## What the names show -/

theorem content_put (hd : d.Wf) (h : d.entries n = some i) (m : ν) :
    (d.put i x).content m = if m = n then some x else d.content m := by
  unfold content put
  dsimp only
  split
  · rename_i hm
    rw [hm, h]
    exact congrArg some (Function.update_self ..)
  · rename_i hm
    cases hj : d.entries m with
    | none => rfl
    | some j =>
      have hne : j ≠ i := by
        rintro rfl
        exact hm (hd.one m n j hj h)
      exact congrArg some (Function.update_of_ne hne _ _)

theorem content_creat (hd : d.Wf) (n m : ν) (x : α) :
    (d.creat n x).2.content m = if m = n then some ((d.content n).getD x) else d.content m := by
  unfold content creat
  cases hn : d.entries n with
  | some i =>
    dsimp only
    split
    · rename_i hm
      rw [hm, hn]
      rfl
    · rfl
  | none =>
    dsimp only
    split
    · rename_i hm
      rw [hm, Function.update_self]
      exact congrArg some (Function.update_self ..)
    · rename_i hm
      rw [Function.update_of_ne hm]
      cases hj : d.entries m with
      | none => rfl
      | some j => exact congrArg some (Function.update_of_ne (Nat.ne_of_lt (hd.used m j hj)) _ _)

/-- The file at `n` holds `x`, whether it was there or not. -/
theorem content_creat_put (hd : d.Wf) (n m : ν) (x y : α) :
    ((d.creat n y).2.put (d.creat n y).1 x).content m = if m = n then some x else d.content m := by
  rw [content_put (hd.creat n y) (creat_entry d n y), content_creat hd]
  split <;> rfl

theorem rename_eq_none : d.rename n m = none ↔ d.content n = none := by
  unfold rename content
  cases d.entries n <;> simp

theorem content_rename (h : d.rename n m = some d') (k : ν) :
    d'.content k = if k = m then d.content n else if k = n then none else d.content k := by
  unfold rename at h
  split at h
  · rename_i i hn
    cases h
    unfold content
    dsimp only
    rw [Function.update_apply, Function.update_apply, hn]
    split
    · rfl
    · split <;> rfl
  · cases h

end Dir
end Inodes
