import KinVfs.Posix.Lexical

/-!
# Where a resolution ends

`walk` says why a path does not resolve, but not where. `search` does the same steps and says it: the place that was
reached, and the components that were not followed any more. Without `follow` it stops at the entry that the last
component names.

A `.` that is not the last component asks nothing that the next component does not ask as well, so a path may be
spelled without it (`search_drops`).
-/

namespace Posix

namespace Fs

/-- The components that change the place. -/
def solid (comps : List Comp) : List Comp := comps.filter (· ≠ .cur)

/-- Where and why a resolution ends without an object. -/
structure Stuck where
  kind : ErrorKind
  place : Path
  left : List Comp
  deriving DecidableEq

/-- `walkWith` with the place where it ends. -/
def searchWith (fs : Fs) (follow : Bool) (onLink : Path → Name → List UInt8 → List Comp → Except Stuck Path) :
    Path → List Comp → Except Stuck Path
  | cur, [] => .ok cur
  | cur, .cur :: rest =>
    if fs.isDir cur then searchWith fs follow onLink cur rest else .error ⟨.notADirectory, cur, solid rest⟩
  | cur, .up :: rest =>
    if fs.isDir cur then searchWith fs follow onLink cur.dropLast rest
    else .error ⟨.notADirectory, cur, .up :: solid rest⟩
  | cur, .name n :: rest =>
    if fs.isDir cur then
      if follow = false ∧ rest = [] then .ok (cur ++ [n])
      else
        match fs.node (cur ++ [n]) with
        | none => .error ⟨.notFound, cur, .name n :: solid rest⟩
        | some (.symlink _ t) => onLink cur n t rest
        | some _ => searchWith fs follow onLink (cur ++ [n]) rest
    else .error ⟨.notADirectory, cur, .name n :: solid rest⟩

/-- `walk` with the place where it ends. -/
def search (fs : Fs) (follow : Bool) : Nat → Path → List Comp → Except Stuck Path
  | 0 => searchWith fs follow fun cur n _ rest => .error ⟨.filesystemLoop, cur, .name n :: solid rest⟩
  | k + 1 => searchWith fs follow fun cur n t rest =>
    if t = [] then .error ⟨.notFound, cur, .name n :: solid rest⟩
    else search fs follow k (linkStart cur t) (targetComps t ++ rest)

variable {fs : Fs} {follow : Bool} {cur : Path} {xs ys zs comps : List Comp} {k : Nat}

/-- What cannot go on ends in the place where it is. -/
theorem searchWith_cons_stuck {onLink : Path → Name → List UInt8 → List Comp → Except Stuck Path} {c : Comp}
    (h : fs.isDir cur = false) :
    searchWith fs follow onLink cur (c :: xs) = .error ⟨.notADirectory, cur, solid (c :: xs)⟩ := by
  cases c <;> simp [searchWith, h, solid]

/-! ## It is the resolution -/

theorem searchWith_walkWith {onLink : Path → Name → List UInt8 → List Comp → Except Stuck Path}
    {onWalk : Path → List UInt8 → List Comp → Except ErrorKind Path}
    (hon : ∀ cur n t rest, (onLink cur n t rest).mapError (·.kind) = onWalk cur t rest) :
    (searchWith fs true onLink cur comps).mapError (·.kind) = walkWith fs onWalk cur comps := by
  induction comps generalizing cur with
  | nil => rfl
  | cons c rest ih =>
    by_cases hdir : fs.isDir cur = true
    · cases c with
      | cur => rw [searchWith, walkWith, if_pos hdir, if_pos hdir, ih]
      | up => rw [searchWith, walkWith, if_pos hdir, if_pos hdir, ih]
      | name n =>
        rw [searchWith, walkWith, if_pos hdir, if_pos hdir, if_neg (by simp)]
        rcases fs.node (cur ++ [n]) with _ | nd
        · rfl
        · cases nd with
          | symlink i t => exact hon ..
          | file i c => exact ih
          | dir i m => exact ih
    · rw [Bool.not_eq_true] at hdir
      rw [searchWith_cons_stuck hdir]
      cases c <;> simp [walkWith, hdir, Except.mapError]

/-- The object that is reached, or why there is none, is that of `walk`. -/
theorem search_walk : (search fs true k cur comps).mapError (·.kind) = walk fs k cur comps := by
  induction k generalizing cur comps with
  | zero => exact searchWith_walkWith fun _ _ _ _ => rfl
  | succ k ih =>
    refine searchWith_walkWith fun cur n t rest => ?_
    by_cases ht : t = []
    · rw [if_pos ht, if_pos ht]
      rfl
    · rw [if_neg ht, if_neg ht]
      exact ih

theorem searchWith_last {onLink : Path → Name → List UInt8 → List Comp → Except Stuck Path}
    {onWalk : Path → List UInt8 → List Comp → Except ErrorKind Path} {n : Name}
    (hon : ∀ cur m t rest, (onLink cur m t (rest ++ [.name n])).mapError (·.kind) =
      (onWalk cur t rest).bind fun d => if fs.isDir d then .ok (d ++ [n]) else .error .notADirectory) :
    (searchWith fs false onLink cur (comps ++ [.name n])).mapError (·.kind) =
      (walkWith fs onWalk cur comps).bind fun d => if fs.isDir d then .ok (d ++ [n]) else .error .notADirectory := by
  induction comps generalizing cur with
  | nil =>
    rw [List.nil_append]
    by_cases hdir : fs.isDir cur = true
    · simp [searchWith, walkWith, Except.bind, Except.mapError, hdir]
    · simp [searchWith, walkWith, Except.bind, Except.mapError, hdir]
  | cons c rest ih =>
    rw [List.cons_append]
    by_cases hdir : fs.isDir cur = true
    · cases c with
      | cur => rw [searchWith, walkWith, if_pos hdir, if_pos hdir, ih]
      | up => rw [searchWith, walkWith, if_pos hdir, if_pos hdir, ih]
      | name m =>
        rw [searchWith, walkWith, if_pos hdir, if_pos hdir, if_neg (by simp)]
        rcases fs.node (cur ++ [m]) with _ | nd
        · rfl
        · cases nd with
          | symlink i t => exact hon ..
          | file i c => exact ih
          | dir i m => exact ih
    · rw [Bool.not_eq_true] at hdir
      rw [searchWith_cons_stuck hdir]
      cases c <;> simp [walkWith, hdir, Except.mapError, Except.bind]

/-- Without `follow`, a name at the end is looked up in the directory that the rest leads to. -/
theorem search_last {n : Name} :
    (search fs false k cur (comps ++ [.name n])).mapError (·.kind) =
      (walk fs k cur comps).bind fun d => if fs.isDir d then .ok (d ++ [n]) else .error .notADirectory := by
  induction k generalizing cur comps with
  | zero => exact searchWith_last fun _ _ _ _ => rfl
  | succ k ih =>
    refine searchWith_last fun cur m t rest => ?_
    by_cases ht : t = []
    · rw [if_pos ht, if_pos ht]
      rfl
    · rw [if_neg ht, if_neg ht, ← List.append_assoc]
      exact ih

/-! ## Spelling without `.` -/

/-- The second list is the first without some `.` that are not at its end. -/
inductive Drops : List Comp → List Comp → Prop
  | nil : Drops [] []
  | cons {xs ys : List Comp} (c : Comp) : Drops xs ys → Drops (c :: xs) (c :: ys)
  | drop {xs ys : List Comp} : ys ≠ [] → Drops xs ys → Drops (.cur :: xs) ys

theorem Drops.solid_eq (h : Drops xs ys) : solid xs = solid ys := by
  induction h with
  | nil => rfl
  | cons c _ ih =>
    unfold solid at ih ⊢
    rw [List.filter_cons, List.filter_cons, ih]
  | drop _ _ ih =>
    unfold solid at ih ⊢
    rw [List.filter_cons, if_neg (by simp), ih]

theorem Drops.nil_iff (h : Drops xs ys) : xs = [] ↔ ys = [] := by
  cases h with
  | nil => simp
  | cons c _ => simp
  | drop hne _ => simp [hne]

theorem Drops.append_left (zs : List Comp) (h : Drops xs ys) : Drops (zs ++ xs) (zs ++ ys) := by
  induction zs with
  | nil => exact h
  | cons c zs ih => exact .cons c ih

theorem searchWith_drops {onLink : Path → Name → List UInt8 → List Comp → Except Stuck Path}
    (hon : ∀ cur n t xs ys, Drops xs ys → onLink cur n t xs = onLink cur n t ys) (h : Drops xs ys) :
    searchWith fs follow onLink cur xs = searchWith fs follow onLink cur ys := by
  induction h generalizing cur with
  | nil => rfl
  | @cons xs ys c hd ih =>
    by_cases hdir : fs.isDir cur = true
    · cases c with
      | cur => rw [searchWith, searchWith, if_pos hdir, if_pos hdir, ih]
      | up => rw [searchWith, searchWith, if_pos hdir, if_pos hdir, ih]
      | name n =>
        rw [searchWith, searchWith, if_pos hdir, if_pos hdir]
        by_cases hstop : follow = false ∧ ys = []
        · rw [if_pos hstop, if_pos ⟨hstop.1, hd.nil_iff.mpr hstop.2⟩]
        · rw [if_neg hstop, if_neg fun hcon => hstop ⟨hcon.1, hd.nil_iff.mp hcon.2⟩]
          simp only [hd.solid_eq, ih, hon cur n _ xs ys hd]
    · rw [Bool.not_eq_true] at hdir
      rw [searchWith_cons_stuck hdir, searchWith_cons_stuck hdir, (Drops.cons c hd).solid_eq]
  | @drop xs ys hne hd ih =>
    by_cases hdir : fs.isDir cur = true
    · rw [searchWith, if_pos hdir, ih]
    · -- The next component asks for a directory as well.
      rw [Bool.not_eq_true] at hdir
      obtain ⟨c, rest, rfl⟩ := List.exists_cons_of_ne_nil hne
      rw [searchWith_cons_stuck hdir, searchWith_cons_stuck hdir, (Drops.drop hne hd).solid_eq]

/-- A path leads to the same place without its `.`. -/
theorem search_drops (h : Drops xs ys) : search fs follow k cur xs = search fs follow k cur ys := by
  induction k generalizing cur xs ys with
  | zero =>
    refine searchWith_drops (fun cur n t xs ys hd => ?_) h
    rw [hd.solid_eq]
  | succ k ih =>
    refine searchWith_drops (fun cur n t xs ys hd => ?_) h
    rw [hd.solid_eq, ih (hd.append_left _)]

/-! ## Down and up among directories -/

theorem isDir_left {p q : Path} (h : fs.isDir (p ++ q) = true) : fs.isDir p = true := by
  by_cases hq : q = []
  · rwa [hq, List.append_nil] at h
  · obtain ⟨i, m, hm⟩ := isDir_iff.mp h
    exact isDir_of_append (by rw [hm]; rfl) hq

theorem searchWith_down {onLink : Path → Name → List UInt8 → List Comp → Except Stuck Path} {base : Path}
    (hne : comps ≠ []) (hdir : fs.isDir (cur ++ base) = true) :
    searchWith fs follow onLink cur (base.map .name ++ comps) = searchWith fs follow onLink (cur ++ base) comps := by
  induction base generalizing cur with
  | nil => rw [List.append_nil, List.map_nil, List.nil_append]
  | cons n base ih =>
    have hcur : fs.isDir cur = true := isDir_left hdir
    rw [List.append_cons] at hdir ⊢
    obtain ⟨i, m, hm⟩ := isDir_iff.mp (isDir_left hdir)
    rw [List.map_cons, List.cons_append, searchWith, if_pos hcur, hm, if_neg (by simp [hne])]
    exact ih hdir

/-- Down to an existing directory no link is followed. -/
theorem search_down {base : Path} (hne : comps ≠ []) (hdir : fs.isDir (cur ++ base) = true) :
    search fs follow k cur (base.map .name ++ comps) = search fs follow k (cur ++ base) comps := by
  cases k with
  | zero => exact searchWith_down hne hdir
  | succ k => exact searchWith_down hne hdir

theorem search_nil : search fs follow k cur [] = .ok cur := by
  cases k <;> rfl

/-- An existing directory is found under its names. -/
theorem search_dir {base : Path} (hdir : fs.isDir (cur ++ base) = true) :
    search fs follow k cur (base.map .name) = .ok (cur ++ base) := by
  rcases List.eq_nil_or_concat base with rfl | ⟨front, n, rfl⟩
  · rw [List.map_nil, search_nil, List.append_nil]
  · rw [List.concat_eq_append, ← List.append_assoc] at hdir ⊢
    have hfront : fs.isDir (cur ++ front) = true := by
      have h := isDir_dropLast hdir
      rwa [List.dropLast_concat] at h
    obtain ⟨i, m, hm⟩ := isDir_iff.mp hdir
    rw [List.map_append, search_down (by simp) hfront]
    cases k <;> simp [search, searchWith, hfront, hm, -List.append_assoc]

theorem search_cur (hdir : fs.isDir cur = true) :
    search fs follow k cur (.cur :: comps) = search fs follow k cur comps := by
  cases k <;> simp [search, searchWith, hdir]

theorem search_up (hdir : fs.isDir cur = true) :
    search fs follow k cur (.up :: comps) = search fs follow k cur.dropLast comps := by
  cases k <;> simp [search, searchWith, hdir]

/-- A path without `..` and links leads down to its directory. -/
theorem search_level (hl : Level comps) (hdir : fs.isDir (cur ++ names comps) = true) :
    search fs true k cur comps = .ok (cur ++ names comps) := by
  induction comps generalizing cur with
  | nil => rw [search_nil, names_nil, List.append_nil]
  | cons c rest ih =>
    cases c with
    | cur =>
      rw [search_cur (isDir_left hdir), names_cur]
      exact ih hl.tail hdir
    | up => exact absurd List.mem_cons_self hl
    | name n =>
      rw [names_name, List.append_cons] at hdir ⊢
      by_cases h0 : rest = []
      · subst h0
        rw [names_nil, List.append_nil] at hdir ⊢
        exact search_dir hdir
      · rw [← ih hl.tail hdir]
        exact search_down h0 (isDir_left hdir)

/-- `.` and `..` that are taken in an existing directory fold lexically. -/
theorem search_climb (follow : Bool) (k : Nat) (ys : List Comp) (hpre : ∀ n, .name n ∉ xs) (hdir : fs.isDir cur = true) :
    search fs follow k cur (xs ++ ys) = search fs follow k (climb cur xs) ys ∧ fs.isDir (climb cur xs) = true := by
  induction xs generalizing cur with
  | nil => exact ⟨rfl, hdir⟩
  | cons c xs ih =>
    have hpre' : ∀ n, .name n ∉ xs := fun n hn => hpre n (List.mem_cons_of_mem _ hn)
    cases c with
    | cur =>
      rw [List.cons_append, search_cur hdir]
      exact ih hpre' hdir
    | up =>
      rw [List.cons_append, search_up hdir]
      exact ih hpre' (isDir_dropLast hdir)
    | name n => exact absurd List.mem_cons_self (hpre n)

end Fs

end Posix
