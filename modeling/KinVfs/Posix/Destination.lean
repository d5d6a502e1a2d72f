import KinVfs.Posix.Shape

/-!
# Where a path leads

`destination` is pathname resolution that does not stop at a missing name: links are followed to
the end, dangling ones too, and the names that are left after the first missing one say where the
object would be created. On an existing object it is `canonicalize`
(`destination_of_canonicalize`); on a clear path that is not a link it is the path itself
(`destination_clear`).
-/

namespace Posix.Fs

variable {fs : Fs} {p q l : Path}

/-- The place of a missing object: below `cur` by names only. -/
def place : Path → List Comp → Except ErrorKind Path
  | cur, [] => .ok cur
  | cur, .name n :: rest => place (cur ++ [n]) rest
  | _, _ => .error .notFound

/-- `walkWith`, where a missing name is a place to create. -/
def reachWith (fs : Fs) (onLink : Path → List UInt8 → List Comp → Except ErrorKind Path) :
    Path → List Comp → Except ErrorKind Path
  | cur, [] => .ok cur
  | cur, .cur :: rest =>
    if fs.isDir cur then reachWith fs onLink cur rest else .error .notADirectory
  | cur, .up :: rest =>
    if fs.isDir cur then reachWith fs onLink cur.dropLast rest else .error .notADirectory
  | cur, .name n :: rest =>
    if fs.isDir cur then
      match fs.node (cur ++ [n]) with
      | none => place (cur ++ [n]) rest
      | some (.symlink _ t) => onLink cur t rest
      | some _ => reachWith fs onLink (cur ++ [n]) rest
    else .error .notADirectory

/-- `walk`, where a missing name is a place to create. -/
def reach (fs : Fs) : Nat → Path → List Comp → Except ErrorKind Path
  | 0 => reachWith fs fun _ _ _ => .error .filesystemLoop
  | k + 1 => reachWith fs fun cur t rest =>
    if t = [] then .error .notFound
    else reach fs k (if t.head? = some 47 then [] else cur) (targetComps t ++ rest)

/-- The object `p` leads to, or the place where it would be created. -/
def destination (fs : Fs) (p : Path) : Except ErrorKind Path :=
  reach fs maxLinks [] (p.map .name)

/-! ## An existing object -/

theorem reachWith_of_walkWith {onLink onLink' : Path → List UInt8 → List Comp → Except ErrorKind Path}
    (hon : ∀ cur t rest l, onLink cur t rest = .ok l → onLink' cur t rest = .ok l)
    {comps : List Comp} {cur : Path} (h : walkWith fs onLink cur comps = .ok l) :
    reachWith fs onLink' cur comps = .ok l := by
  induction comps generalizing cur with
  | nil => exact h
  | cons c rest ih =>
    cases c with
    | cur =>
      simp only [walkWith, reachWith] at h ⊢
      split at h
      · rename_i hd
        rw [if_pos hd]
        exact ih h
      · cases h
    | up =>
      simp only [walkWith, reachWith] at h ⊢
      split at h
      · rename_i hd
        rw [if_pos hd]
        exact ih h
      · cases h
    | name n =>
      simp only [walkWith, reachWith] at h ⊢
      split at h
      · rename_i hd
        rw [if_pos hd]
        cases hn : fs.node (cur ++ [n]) with
        | none => rw [hn] at h; cases h
        | some nd =>
          rw [hn] at h
          cases nd with
          | file i c => exact ih h
          | dir i k => exact ih h
          | symlink i t => exact hon _ _ _ _ h
      · cases h

theorem reach_of_walk {k : Nat} {comps : List Comp} {cur : Path}
    (h : walk fs k cur comps = .ok l) : reach fs k cur comps = .ok l := by
  induction k generalizing cur comps l with
  | zero =>
    refine reachWith_of_walkWith ?_ h
    intro _ _ _ _ hl
    exact hl
  | succ k ih =>
    refine reachWith_of_walkWith ?_ h
    intro cur t rest l hl
    by_cases ht : t = []
    · rw [if_pos ht] at hl
      cases hl
    · rw [if_neg ht] at hl ⊢
      exact ih hl

theorem destination_of_canonicalize (h : fs.canonicalize p = .ok l) : fs.destination p = .ok l :=
  reach_of_walk h

/-! ## A clear path -/

theorem place_names (names : List Name) (cur : Path) :
    place cur (names.map .name) = .ok (cur ++ names) := by
  induction names generalizing cur with
  | nil => simp [place]
  | cons n names ih => rw [List.map_cons, place, ih, ← List.append_cons]

theorem reachWith_names {onLink : Path → List UInt8 → List Comp → Except ErrorKind Path}
    (names : List Name) (cur : Path) (hcur : fs.shape cur ≠ none)
    (hc : fs.Clear (cur ++ names)) (hl : ∀ t, fs.shape (cur ++ names) ≠ some (.symlink t)) :
    reachWith fs onLink cur (names.map .name) = .ok (cur ++ names) := by
  induction names generalizing cur with
  | nil => simp [reachWith]
  | cons n names ih =>
    have hdir : fs.shape cur = some .dir := by
      rcases hc cur (n :: names) rfl (by simp) with h | h
      · exact absurd h hcur
      · exact h
    rw [List.append_cons] at hc hl ⊢
    rw [List.map_cons, reachWith, if_pos (shape_eq_dir.mp hdir)]
    cases hn : fs.node (cur ++ [n]) with
    | none => exact place_names names _
    | some nd =>
      have hnext : fs.shape (cur ++ [n]) ≠ none := by rw [ne_eq, shape_eq_none, hn]; simp
      cases nd with
      | symlink i t =>
        -- A link is not above a clear path, nor its end.
        exfalso
        by_cases h0 : names = []
        · subst h0
          exact hl t (by simp [shape, hn, Node.shape])
        · rcases hc (cur ++ [n]) names rfl h0 with h | h <;> simp [shape, hn, Node.shape] at h
      | file i c => exact ih _ hnext hc hl
      | dir i k => exact ih _ hnext hc hl

/-- A clear path that is not a link leads to itself. -/
theorem destination_clear (hc : fs.Clear q) (hl : ∀ t, fs.shape q ≠ some (.symlink t)) :
    fs.destination q = .ok q := by
  unfold destination
  rw [maxLinks, reach]
  exact reachWith_names q [] (by simp [shape_root fs]) hc hl

end Posix.Fs
