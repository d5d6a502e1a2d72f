import KinVfs.Posix.Lexical

/-!
# Spellings of a path

What leads to an object leads there without its `.`, and with more links to spare. Only one direction holds:
a `.` at the end asks for a directory, and the links of one resolution are counted over the whole path.
-/

namespace Posix
namespace Fs

variable {fs : Fs} {cur l : Path} {xs ys : List Comp}

/-- The second list is the first without some `.`. -/
inductive Thins : List Comp → List Comp → Prop
  | nil : Thins [] []
  | cons {xs ys : List Comp} (c : Comp) : Thins xs ys → Thins (c :: xs) (c :: ys)
  | drop {xs ys : List Comp} : Thins xs ys → Thins (.cur :: xs) ys

theorem Thins.append_left (zs : List Comp) (h : Thins xs ys) : Thins (zs ++ xs) (zs ++ ys) := by
  induction zs with
  | nil => exact h
  | cons c zs ih => exact .cons c ih

theorem Thins.refl (xs : List Comp) : Thins xs xs := by
  induction xs with
  | nil => exact .nil
  | cons c xs ih => exact .cons c ih

/-- Without `..` the names are what is left. -/
theorem thins_names (hl : Level xs) : Thins xs ((names xs).map .name) := by
  induction xs with
  | nil => exact .nil
  | cons c xs ih =>
    have htail := ih hl.tail
    cases c with
    | cur => exact .drop htail
    | up => exact absurd List.mem_cons_self hl
    | name n => exact .cons _ htail

theorem walkWith_thins {onLink onLink' : Path → List UInt8 → List Comp → Except ErrorKind Path}
    (hon : ∀ cur t xs ys, Thins xs ys → onLink cur t xs = .ok l → onLink' cur t ys = .ok l) (hxy : Thins xs ys)
    (h : walkWith fs onLink cur xs = .ok l) : walkWith fs onLink' cur ys = .ok l := by
  induction hxy generalizing cur with
  | nil => exact h
  | @cons xs ys c hxy ih =>
    obtain ⟨hd, hrest⟩ := walkWith_cons_ok h
    cases c with
    | cur => rw [walkWith, if_pos hd, ih hrest]
    | up => rw [walkWith, if_pos hd, ih hrest]
    | name n =>
      rw [walkWith, if_pos hd] at h ⊢
      cases hn : fs.node (cur ++ [n]) with
      | none =>
        rw [hn] at h
        cases h
      | some nd =>
        rw [hn] at h
        cases nd with
        | file i c => exact ih h
        | dir i m => exact ih h
        | symlink i t => exact hon cur t xs ys hxy h
  | drop hxy ih => exact ih (walkWith_cons_ok h).2

/-- An object that is reached is reached without the `.`, with as many links or more. -/
theorem walk_thins {k k' : Nat} (hk : k ≤ k') (hxy : Thins xs ys) (h : walk fs k cur xs = .ok l) :
    walk fs k' cur ys = .ok l := by
  induction k generalizing k' cur xs ys with
  | zero =>
    have hon : ∀ onLink' : Path → List UInt8 → List Comp → Except ErrorKind Path,
        walkWith fs onLink' cur ys = .ok l :=
      fun onLink' => walkWith_thins (fun _ _ _ _ _ hl => by cases hl) hxy h
    cases k' with
    | zero => exact hon _
    | succ k' => exact hon _
  | succ k ih =>
    obtain ⟨k', rfl⟩ : ∃ j, k' = j + 1 := ⟨k' - 1, by omega⟩
    refine walkWith_thins (fun cur t xs ys hxy hl => ?_) hxy h
    by_cases ht : t = []
    · rw [if_pos ht] at hl
      cases hl
    · rw [if_neg ht] at hl ⊢
      exact ih (Nat.le_of_succ_le_succ hk) (hxy.append_left _) hl

/-- More links do no harm. -/
theorem walk_mono {k k' : Nat} (hk : k ≤ k') (h : walk fs k cur xs = .ok l) : walk fs k' cur xs = .ok l :=
  walk_thins hk (.refl xs) h

/-- A path that is reached is reached by its names. -/
theorem walk_names {k : Nat} (hl : Level xs) (h : walk fs k cur xs = .ok l) :
    walk fs k cur ((names xs).map .name) = .ok l :=
  walk_thins (Nat.le_refl k) (thins_names hl) h

end Fs
end Posix
