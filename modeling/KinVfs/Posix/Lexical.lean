import KinVfs.Posix.Shape

/-!
# Lexical folding and resolution

`climb` folds `.` and `..` of a link target without looking at the tree. `straight` says when that is
sound: each `..` stands after a path that is a real directory. Then resolution over the target goes on
at a real directory with no `..` left before it (`tourWith_straight`).

`tour` is `walk` with what it passes: the links it follows while their targets, folded, lie below
`base`, the one by which it leaves `base`, and a trailing `.` or `/` at something that is not a
directory. `crossings` is `walk` with every link it follows and no folding: a resolution whose links all
stand below `base` and lead there stays below `base` (`Stays`), and such a tour does not leave either
(`tour_stays`).
-/

namespace Posix

/-- The names among the components. -/
def names (comps : List Fs.Comp) : List Name :=
  comps.filterMap fun
    | .name n => some n
    | _ => none

@[simp] theorem names_nil : names [] = [] := rfl

@[simp] theorem names_cur (rest : List Fs.Comp) : names (.cur :: rest) = names rest := rfl

@[simp] theorem names_name (n : Name) (rest : List Fs.Comp) :
    names (.name n :: rest) = n :: names rest := rfl

@[simp] theorem names_append (xs ys : List Fs.Comp) : names (xs ++ ys) = names xs ++ names ys :=
  List.filterMap_append

@[simp] theorem names_up (rest : List Fs.Comp) : names (.up :: rest) = names rest := rfl

@[simp] theorem names_map (ns : List Name) : names (ns.map .name) = ns := by
  induction ns with
  | nil => rfl
  | cons n ns ih => rw [List.map_cons, names_name, ih]

theorem mem_names {n : Name} {comps : List Fs.Comp} : n ∈ names comps ↔ Fs.Comp.name n ∈ comps := by
  induction comps with
  | nil => simp
  | cons c comps ih => cases c <;> simp [ih]

/-- No `..` among the components. -/
def Level (comps : List Fs.Comp) : Prop := Fs.Comp.up ∉ comps

theorem Level.tail {c : Fs.Comp} {rest : List Fs.Comp} (h : Level (c :: rest)) : Level rest :=
  fun hmem => h (List.mem_cons_of_mem _ hmem)

theorem level_map (ns : List Name) : Level (ns.map .name) := by
  intro hmem
  obtain ⟨n, -, hn⟩ := List.mem_map.mp hmem
  cases hn

theorem level_append {xs ys : List Fs.Comp} : Level (xs ++ ys) ↔ Level xs ∧ Level ys := by
  simp [Level]

namespace Fs

/-- The path after `comps`, folded lexically. -/
def climb : Path → List Comp → Path
  | cur, [] => cur
  | cur, .cur :: rest => climb cur rest
  | cur, .up :: rest => climb cur.dropLast rest
  | cur, .name n :: rest => climb (cur ++ [n]) rest

/-- `climb`, or `none` when a `..` stands at the root. -/
def climb? : Path → List Comp → Option Path
  | cur, [] => some cur
  | cur, .cur :: rest => climb? cur rest
  | cur, .up :: rest => if cur = [] then none else climb? cur.dropLast rest
  | cur, .name n :: rest => climb? (cur ++ [n]) rest

/-- Each `..` of `comps` follows a path that is a real directory, below the root. -/
def straight (fs : Fs) : Path → List Comp → Bool
  | _, [] => true
  | cur, .cur :: rest => straight fs cur rest
  | cur, .up :: rest => cur ≠ [] && fs.isDir cur && straight fs cur.dropLast rest
  | cur, .name n :: rest => straight fs (cur ++ [n]) rest

/-- Where the target of a link in `dir` starts. -/
def linkStart (dir : Path) (target : List UInt8) : Path :=
  if target.head? = some 47 then [] else dir

/-- What a resolution passes. -/
inductive Visit where
  /-- A followed link whose folded target lies below the base. -/
  | link (dir : Path) (target : List UInt8)
  /-- The followed link by which the resolution leaves the base. -/
  | leaves (dir : Path) (target : List UInt8)
  /-- A `.` or a `/` with no name after it, where there is no directory. -/
  | trailing (here : Path)
  /-- A followed link, and where its target leads on its own. -/
  | crosses (dir : Path) (outcome : Except ErrorKind Path)

abbrev Tour := List Visit × Except ErrorKind Path

/-- `walkWith`, with what it passes. -/
def tourWith (fs : Fs) (onLink : Path → List UInt8 → List Comp → Tour) :
    Path → List Comp → Tour
  | cur, [] => ([], .ok cur)
  | cur, .cur :: rest =>
    if fs.isDir cur then tourWith fs onLink cur rest
    else (if names rest = [] then [.trailing cur] else [], .error .notADirectory)
  | cur, .up :: rest =>
    if fs.isDir cur then tourWith fs onLink cur.dropLast rest else ([], .error .notADirectory)
  | cur, .name n :: rest =>
    if fs.isDir cur then
      match fs.node (cur ++ [n]) with
      | none => ([], .error .notFound)
      | some (.symlink _ t) => onLink cur t rest
      | some _ => tourWith fs onLink (cur ++ [n]) rest
    else ([], .error .notADirectory)

/-- `walk`, with what it passes while it stays below `base`. -/
def tour (fs : Fs) (base : Path) : Nat → Path → List Comp → Tour
  | 0 => tourWith fs fun _ _ _ => ([], .error .filesystemLoop)
  | k + 1 => tourWith fs fun cur t rest =>
    if t = [] then ([], .error .notFound)
    else if base.isPrefixOf (climb (linkStart cur t) (targetComps t)) then
      let r := tour fs base k (linkStart cur t) (targetComps t ++ rest)
      (.link cur t :: r.1, r.2)
    else ([.leaves cur t], walk fs k (linkStart cur t) (targetComps t ++ rest))

/-- `walk`, with every link it follows. -/
def crossings (fs : Fs) : Nat → Path → List Comp → Tour
  | 0 => tourWith fs fun _ _ _ => ([], .error .filesystemLoop)
  | k + 1 => tourWith fs fun cur t rest =>
    if t = [] then ([], .error .notFound)
    else
      let r := crossings fs k (linkStart cur t) (targetComps t ++ rest)
      (.crosses cur (walk fs k (linkStart cur t) (targetComps t)) :: r.1, r.2)

/-- Every link on the way stands below `base` and leads there. -/
def Stays (base : Path) (t : Tour) : Prop :=
  ∀ dir outcome, .crosses dir outcome ∈ t.1 → base <+: dir ∧ ∀ l, outcome = .ok l → base <+: l

/-- The target folds soundly, and a trailing `.` or `/` stands at a directory. -/
def folds (fs : Fs) : Visit → Prop
  | .link dir target | .leaves dir target =>
    straight fs (linkStart dir target) (targetComps target) = true
  | .trailing _ => False
  | .crosses .. => True

/-- The resolution leaves the base. -/
def isLeave : Visit → Bool
  | .leaves .. => true
  | _ => false

variable {fs : Fs} {base cur q : Path} {comps mid rest : List Comp}

theorem tourWith_snd {onLink : Path → List UInt8 → List Comp → Tour}
    {onLink' : Path → List UInt8 → List Comp → Except ErrorKind Path}
    (hon : ∀ cur t rest, (onLink cur t rest).2 = onLink' cur t rest) (comps : List Comp) (cur : Path) :
    (tourWith fs onLink cur comps).2 = walkWith fs onLink' cur comps := by
  induction comps generalizing cur with
  | nil => rfl
  | cons c rest ih =>
    cases c with
    | cur =>
      rw [tourWith, walkWith]
      split
      · exact ih cur
      · rfl
    | up =>
      rw [tourWith, walkWith]
      split
      · exact ih _
      · rfl
    | name n =>
      rw [tourWith, walkWith]
      split
      · cases fs.node (cur ++ [n]) with
        | none => rfl
        | some nd =>
          cases nd with
          | symlink i t => exact hon cur t rest
          | file i c => exact ih _
          | dir i m => exact ih _
      · rfl

/-- The outcome of the tour is that of the walk. -/
theorem tour_snd (base : Path) (k : Nat) (cur : Path) (comps : List Comp) :
    (tour fs base k cur comps).2 = walk fs k cur comps := by
  induction k generalizing cur comps with
  | zero => exact tourWith_snd (fun _ _ _ => rfl) comps cur
  | succ k ih =>
    refine tourWith_snd ?_ comps cur
    intro cur t rest
    by_cases ht : t = []
    · rw [if_pos ht, if_pos ht]
    · rw [if_neg ht, if_neg ht]
      split
      · exact ih _ _
      · rfl

/-- The outcome with its links is that of the walk. -/
theorem crossings_snd (k : Nat) (cur : Path) (comps : List Comp) :
    (crossings fs k cur comps).2 = walk fs k cur comps := by
  induction k generalizing cur comps with
  | zero => exact tourWith_snd (fun _ _ _ => rfl) comps cur
  | succ k ih =>
    refine tourWith_snd ?_ comps cur
    intro cur t rest
    by_cases ht : t = []
    · rw [if_pos ht, if_pos ht]
    · rw [if_neg ht, if_neg ht]
      exact ih _ _

/-- Up to the first link, the number of links left does not matter. -/
theorem tour_eq_with (fs : Fs) (base : Path) (k : Nat) :
    ∃ onLink, tour fs base k = tourWith fs onLink := by
  cases k with
  | zero => exact ⟨_, rfl⟩
  | succ k => exact ⟨_, rfl⟩

theorem crossings_eq_with (fs : Fs) (k : Nat) :
    ∃ onLink, crossings fs k = tourWith fs onLink := by
  cases k with
  | zero => exact ⟨_, rfl⟩
  | succ k => exact ⟨_, rfl⟩

theorem isDir_linkStart {t : List UInt8} (h : fs.isDir cur = true) :
    fs.isDir (linkStart cur t) = true := by
  unfold linkStart
  split
  · exact fs.rootDir
  · exact h

/-- Folding makes no names. -/
theorem mem_climb? {p : Path} {n : Name} (h : climb? cur comps = some p) (hn : n ∈ p) :
    n ∈ cur ∨ n ∈ names comps := by
  induction comps generalizing cur with
  | nil =>
    cases h
    exact .inl hn
  | cons c comps ih =>
    cases c with
    | cur => exact ih h
    | name m =>
      rcases ih h with hm | hm
      · rw [List.mem_append, List.mem_singleton] at hm
        rcases hm with hm | rfl
        · exact .inl hm
        · exact .inr (by simp)
      · exact .inr (by simp [hm])
    | up =>
      rw [climb?] at h
      split at h
      · cases h
      · rcases ih h with hm | hm
        · exact .inl (List.mem_of_mem_dropLast hm)
        · exact .inr hm

theorem climb_of_climb? {p : Path} (h : climb? cur comps = some p) : climb cur comps = p := by
  induction comps generalizing cur with
  | nil => exact Option.some.inj h
  | cons c comps ih =>
    cases c with
    | cur => exact ih h
    | name n => exact ih h
    | up =>
      rw [climb?] at h
      split at h
      · cases h
      · exact ih h

theorem climb?_of_straight (h : straight fs cur comps = true) :
    climb? cur comps = some (climb cur comps) := by
  induction comps generalizing cur with
  | nil => rfl
  | cons c comps ih =>
    cases c with
    | cur =>
      rw [straight] at h
      exact ih h
    | name n =>
      rw [straight] at h
      exact ih h
    | up =>
      rw [straight, Bool.and_eq_true, Bool.and_eq_true, decide_eq_true_eq] at h
      rw [climb?, if_neg h.1.1]
      exact ih h.2

/-! ## Over real directories -/

/-- Names that lead to a real directory are passed. -/
theorem tourWith_dirs {onLink : Path → List UInt8 → List Comp → Tour} (hl : Level mid)
    (hd : fs.isDir (q ++ names mid) = true) :
    tourWith fs onLink q (mid ++ rest) = tourWith fs onLink (q ++ names mid) rest := by
  induction mid generalizing q with
  | nil => simp
  | cons c mid ih =>
    have hprefix : ∀ ns ms : Path, q ++ names (c :: mid) = ns ++ ms → fs.isDir ns = true := by
      intro ns ms h
      rw [h] at hd
      by_cases hm : ms = []
      · simpa [hm] using hd
      · refine isDir_of_append ?_ hm
        obtain ⟨i, m, hn⟩ := isDir_iff.mp hd
        rw [hn]
        rfl
    have hq : fs.isDir q = true := hprefix q _ rfl
    cases c with
    | up => exact absurd List.mem_cons_self hl
    | cur =>
      rw [List.cons_append, tourWith, if_pos hq, names_cur]
      exact ih hl.tail hd
    | name n =>
      have hn : fs.isDir (q ++ [n]) = true := hprefix (q ++ [n]) (names mid) (by simp)
      obtain ⟨i, m, hnode⟩ := isDir_iff.mp hn
      rw [names_name, List.append_cons] at hd
      rw [List.cons_append, tourWith, if_pos hq, hnode, names_name, List.append_cons q n (names mid)]
      exact ih hl.tail hd

/-- After a straight target, resolution goes on at a real directory with no `..` left. -/
theorem tourWith_straight (hq : fs.isDir q = true) (hl : Level mid)
    (hs : straight fs (q ++ names mid) comps = true) :
    ∃ q' tail, fs.isDir q' = true ∧ Level tail ∧ q' ++ names tail = climb (q ++ names mid) comps ∧
      ∀ onLink rest, tourWith fs onLink q (mid ++ comps ++ rest) =
        tourWith fs onLink q' (tail ++ rest) := by
  induction comps generalizing q mid with
  | nil => exact ⟨q, mid, hq, hl, rfl, fun _ _ => by simp⟩
  | cons c comps ih =>
    cases c with
    | cur =>
      have hs' : straight fs (q ++ names (mid ++ [.cur])) comps = true := by
        rw [straight] at hs
        simpa using hs
      obtain ⟨q', tail, h1, h2, h3, h4⟩ := ih hq (level_append.mpr ⟨hl, by simp [Level]⟩) hs'
      exact ⟨q', tail, h1, h2, by simpa [climb] using h3, fun onLink rest => by
        simpa using h4 onLink rest⟩
    | name n =>
      have hs' : straight fs (q ++ names (mid ++ [.name n])) comps = true := by
        rw [straight] at hs
        simpa using hs
      obtain ⟨q', tail, h1, h2, h3, h4⟩ := ih hq (level_append.mpr ⟨hl, by simp [Level]⟩) hs'
      exact ⟨q', tail, h1, h2, by simpa [climb] using h3, fun onLink rest => by
        simpa using h4 onLink rest⟩
    | up =>
      rw [straight, Bool.and_eq_true, Bool.and_eq_true] at hs
      obtain ⟨⟨-, hd⟩, hs⟩ := hs
      have hs' : straight fs ((q ++ names mid).dropLast ++ names []) comps = true := by
        simpa using hs
      obtain ⟨q', tail, h1, h2, h3, h4⟩ := ih (isDir_dropLast hd) (by simp [Level]) hs'
      refine ⟨q', tail, h1, h2, by simpa [climb] using h3, fun onLink rest => ?_⟩
      rw [List.append_assoc, tourWith_dirs hl hd, List.cons_append, tourWith, if_pos hd]
      simpa using h4 onLink rest

theorem tourWith_target (hq : fs.isDir q = true) (hs : straight fs q comps = true) :
    ∃ q' tail, fs.isDir q' = true ∧ Level tail ∧ q' ++ names tail = climb q comps ∧
      ∀ onLink rest, tourWith fs onLink q (comps ++ rest) = tourWith fs onLink q' (tail ++ rest) := by
  have hs' : straight fs (q ++ names []) comps = true := by simpa using hs
  simpa using tourWith_straight hq (by simp [Level]) hs'

/-- On the way to a real directory below which names are left. -/
theorem tourWith_reach {tail : List Comp} {d ns : Path} (hl : Level tail)
    (he : q ++ names tail = d ++ ns) (hd : fs.isDir d = true) (hq : q <+: d) :
    ∃ tail', Level tail' ∧ names tail' = ns ∧
      ∀ onLink rest, tourWith fs onLink q (tail ++ rest) = tourWith fs onLink d (tail' ++ rest) := by
  obtain ⟨ms, rfl⟩ := hq
  rw [List.append_assoc] at he
  have hnames : names tail = ms ++ ns := List.append_cancel_left he
  obtain ⟨mid, tail', rfl, hmid, htail⟩ := List.filterMap_eq_append_iff.mp hnames
  obtain ⟨hlm, hlt⟩ := level_append.mp hl
  refine ⟨tail', hlt, htail, fun onLink rest => ?_⟩
  have hmid' : names mid = ms := hmid
  rw [List.append_assoc, ← hmid']
  exact tourWith_dirs hlm (by rwa [hmid'])

/-! ## Staying below the base -/

/-- Where no link stands below `base`, names that lead elsewhere lead past no link. -/
theorem walkWith_outside {onCross : Path → List UInt8 → List Comp → Tour}
    {onWalk : Path → List UInt8 → List Comp → Except ErrorKind Path} {tail : List Comp} {l : Path}
    (hon : ∀ cur t rest l, onWalk cur t rest = .ok l → ∃ o, .crosses cur o ∈ (onCross cur t rest).1)
    (hl : Level tail) (hout : ¬ base <+: q ++ names tail)
    (hs : Stays base (tourWith fs onCross q (tail ++ rest)))
    (h : walkWith fs onWalk q (tail ++ rest) = .ok l) :
    walkWith fs onWalk q tail = .ok (q ++ names tail) := by
  induction tail generalizing q with
  | nil => simp [walkWith]
  | cons c tail ih =>
    rw [List.cons_append] at h hs
    cases c with
    | up => exact absurd List.mem_cons_self hl
    | cur =>
      rw [walkWith] at h ⊢
      split at h
      · rename_i hd
        rw [tourWith, if_pos hd] at hs
        rw [if_pos hd]
        exact ih hl.tail hout hs h
      · cases h
    | name n =>
      rw [walkWith] at h ⊢
      split at h
      · rename_i hd
        rw [tourWith, if_pos hd] at hs
        rw [names_name, List.append_cons q n (names tail)] at hout ⊢
        rw [if_pos hd]
        cases hn : fs.node (q ++ [n]) with
        | none =>
          rw [hn] at h
          cases h
        | some nd =>
          rw [hn] at h hs
          cases nd with
          | symlink i t =>
            obtain ⟨o, ho⟩ := hon _ _ _ _ h
            have hq : base <+: q := (hs q o ho).1
            exact absurd (hq.trans ((List.prefix_append q [n]).trans (List.prefix_append _ _))) hout
          | file i c => exact ih hl.tail hout hs h
          | dir i m => exact ih hl.tail hout hs h
      · cases h

theorem walk_outside {k : Nat} {tail : List Comp} {l : Path} (hl : Level tail)
    (hout : ¬ base <+: q ++ names tail) (hs : Stays base (crossings fs k q (tail ++ rest)))
    (h : walk fs k q (tail ++ rest) = .ok l) : walk fs k q tail = .ok (q ++ names tail) := by
  cases k with
  | zero =>
    refine walkWith_outside ?_ hl hout hs h
    intro _ _ _ _ he
    cases he
  | succ k =>
    refine walkWith_outside ?_ hl hout hs h
    intro cur t rest l hok
    by_cases ht : t = []
    · rw [if_pos ht] at hok
      cases hok
    · rw [if_neg ht]
      exact ⟨_, List.mem_cons_self⟩

theorem tourWith_stays {onTour onCross : Path → List UInt8 → List Comp → Tour}
    {onWalk : Path → List UInt8 → List Comp → Except ErrorKind Path} {l : Path}
    (hon : ∀ cur t rest l, fs.isDir cur = true → (∀ v ∈ (onTour cur t rest).1, folds fs v) →
      Stays base (onCross cur t rest) → onWalk cur t rest = .ok l →
      ∀ v ∈ (onTour cur t rest).1, isLeave v = false)
    (hv : ∀ v ∈ (tourWith fs onTour cur comps).1, folds fs v)
    (hs : Stays base (tourWith fs onCross cur comps))
    (h : walkWith fs onWalk cur comps = .ok l) :
    ∀ v ∈ (tourWith fs onTour cur comps).1, isLeave v = false := by
  induction comps generalizing cur with
  | nil => simp [tourWith]
  | cons c rest ih =>
    rw [tourWith.eq_def] at hv hs ⊢
    rw [walkWith.eq_def] at h
    by_cases hd : fs.isDir cur = true
    · cases c with
      | cur =>
        simp only [hd, ↓reduceIte] at hv hs h ⊢
        exact ih hv hs h
      | up =>
        simp only [hd, ↓reduceIte] at hv hs h ⊢
        exact ih hv hs h
      | name n =>
        simp only [hd, ↓reduceIte] at hv hs h ⊢
        cases hn : fs.node (cur ++ [n]) with
        | none =>
          rw [hn] at h
          cases h
        | some nd =>
          rw [hn] at hv hs h
          cases nd with
          | symlink i t => exact hon cur t rest l hd hv hs h
          | file i c => exact ih hv hs h
          | dir i m => exact ih hv hs h
    · cases c <;> simp [hd] at h

/-- A resolution that stays below the base does not leave it by a target that folds soundly. -/
theorem tour_stays {k : Nat} {l : Path} (hv : ∀ v ∈ (tour fs base k cur comps).1, folds fs v)
    (hs : Stays base (crossings fs k cur comps)) (h : walk fs k cur comps = .ok l) :
    ∀ v ∈ (tour fs base k cur comps).1, isLeave v = false := by
  induction k generalizing cur comps l with
  | zero =>
    refine tourWith_stays ?_ hv hs h
    intro _ _ _ _ _ _ _ he
    cases he
  | succ k ih =>
    refine tourWith_stays ?_ hv hs h
    intro cur t rest l hd hv hs h
    by_cases ht : t = []
    · rw [if_pos ht] at h
      cases h
    · rw [if_neg ht] at hv hs h ⊢
      have hs' : Stays base (crossings fs k (linkStart cur t) (targetComps t ++ rest)) :=
        fun dir o hmem => hs dir o (List.mem_cons_of_mem _ hmem)
      by_cases hin : base.isPrefixOf (climb (linkStart cur t) (targetComps t)) = true
      · rw [if_pos hin] at hv ⊢
        rw [List.forall_mem_cons] at hv ⊢
        exact ⟨rfl, ih hv.2 hs' h⟩
      · -- A sound target outside the base is reached, or a link is passed outside it.
        rw [if_neg hin] at hv
        have hstraight : straight fs (linkStart cur t) (targetComps t) = true :=
          hv _ List.mem_cons_self
        obtain ⟨q, tail, -, hlevel, heq, hall⟩ := tourWith_target (isDir_linkStart hd) hstraight
        obtain ⟨onCross, hcross⟩ := crossings_eq_with fs k
        have hmoved : ∀ rest, crossings fs k (linkStart cur t) (targetComps t ++ rest) =
            crossings fs k q (tail ++ rest) := by
          intro rest
          rw [hcross, hall]
        have hwalk : ∀ rest, walk fs k (linkStart cur t) (targetComps t ++ rest) =
            walk fs k q (tail ++ rest) := by
          intro rest
          rw [← crossings_snd, hmoved, crossings_snd]
        rw [hmoved] at hs'
        have h' : walk fs k (linkStart cur t) (targetComps t ++ rest) = .ok l := h
        rw [hwalk] at h'
        have hout : ¬ base <+: q ++ names tail := by
          rw [heq]
          exact fun hp => hin (List.isPrefixOf_iff_prefix.mpr hp)
        have hlands : walk fs k (linkStart cur t) (targetComps t) = .ok (q ++ names tail) := by
          have h0 := hwalk []
          rw [List.append_nil, List.append_nil] at h0
          rw [h0]
          exact walk_outside hlevel hout hs' h'
        exact absurd ((hs cur _ List.mem_cons_self).2 _ hlands) hout

/-! ## Names of existing entries -/

/-- `n` is the name of an entry. -/
def Occurs (fs : Fs) (n : Name) : Prop := ∃ p, (fs.node (p ++ [n])).isSome = true

theorem walkWith_occurs {onLink : Path → List UInt8 → List Comp → Except ErrorKind Path} {l : Path}
    (hon : ∀ cur t rest l, onLink cur t rest = .ok l → ∀ n ∈ names rest, fs.Occurs n)
    (h : walkWith fs onLink cur comps = .ok l) : ∀ n ∈ names comps, fs.Occurs n := by
  induction comps generalizing cur with
  | nil => simp
  | cons c rest ih =>
    obtain ⟨-, h⟩ := walkWith_cons_ok h
    cases c with
    | cur => exact ih h
    | up => exact ih h
    | name m =>
      rw [names_name, List.forall_mem_cons]
      rcases h with ⟨i, t, hn, h⟩ | ⟨hreal, h⟩
      · exact ⟨⟨cur, by rw [hn]; rfl⟩, hon _ _ _ _ h⟩
      · refine ⟨⟨cur, ?_⟩, ih h⟩
        rw [Option.isSome_iff_ne_none, ne_eq, ← shape_eq_none]
        exact hreal.1

/-- A resolution that succeeds has met each name. -/
theorem walk_occurs {k : Nat} {l : Path} (h : walk fs k cur comps = .ok l) :
    ∀ n ∈ names comps, fs.Occurs n := by
  induction k generalizing cur comps l with
  | zero =>
    refine walkWith_occurs ?_ h
    intro _ _ _ _ hl
    cases hl
  | succ k ih =>
    refine walkWith_occurs ?_ h
    intro cur t rest l hl n hn
    by_cases ht : t = []
    · rw [if_pos ht] at hl
      cases hl
    · rw [if_neg ht] at hl
      exact ih hl n (by simp [hn])

/-! ## Names of a location -/

theorem walkWith_names_all {P : Name → Prop}
    {onLink : Path → List UInt8 → List Comp → Except ErrorKind Path} {l : Path}
    (hon : ∀ cur n i t rest l, fs.node (cur ++ [n]) = some (.symlink i t) → (∀ m ∈ cur, P m) →
      (∀ m ∈ names rest, P m) → onLink cur t rest = .ok l → ∀ m ∈ l, P m)
    (hcur : ∀ n ∈ cur, P n) (hcomps : ∀ n ∈ names comps, P n)
    (h : walkWith fs onLink cur comps = .ok l) : ∀ n ∈ l, P n := by
  induction comps generalizing cur with
  | nil => cases h; exact hcur
  | cons c rest ih =>
    obtain ⟨-, h⟩ := walkWith_cons_ok h
    cases c with
    | cur => exact ih hcur hcomps h
    | up => exact ih (fun n hn => hcur n (List.mem_of_mem_dropLast hn)) hcomps h
    | name m =>
      rw [names_name, List.forall_mem_cons] at hcomps
      rcases h with ⟨i, t, hn, h⟩ | ⟨-, h⟩
      · exact hon _ _ _ _ _ _ hn hcur hcomps.2 h
      · refine ih ?_ hcomps.2 h
        intro n hn
        rcases List.mem_append.mp hn with hn | hn
        · exact hcur n hn
        · rw [List.mem_singleton.mp hn]
          exact hcomps.1

/-- A location has only names of the path and of the targets of links. -/
theorem walk_names_all {P : Name → Prop} {k : Nat} {l : Path}
    (hlinks : ∀ p i t, fs.node p = some (.symlink i t) → ∀ n ∈ names (targetComps t), P n)
    (hcur : ∀ n ∈ cur, P n) (hcomps : ∀ n ∈ names comps, P n)
    (h : walk fs k cur comps = .ok l) : ∀ n ∈ l, P n := by
  induction k generalizing cur comps l with
  | zero =>
    refine walkWith_names_all ?_ hcur hcomps h
    intro _ _ _ _ _ _ _ _ _ hl
    cases hl
  | succ k ih =>
    refine walkWith_names_all ?_ hcur hcomps h
    intro cur n i t rest l hn hcur hrest hl
    have htarget : ∀ m ∈ names (targetComps t ++ rest), P m := by
      intro m hm
      rw [names_append] at hm
      rcases List.mem_append.mp hm with hm | hm
      · exact hlinks _ i t hn m hm
      · exact hrest m hm
    by_cases ht : t = []
    · rw [if_pos ht] at hl
      cases hl
    · rw [if_neg ht] at hl
      refine ih ?_ htarget hl
      split
      · exact fun m hm => nomatch hm
      · exact hcur

/-! ## A path in two parts -/

theorem walkWith_append_ok {onLink : Path → List UInt8 → List Comp → Except ErrorKind Path}
    {k : Nat} {l : Path} {xs ys : List Comp} (hk : ∀ cur, walkWith fs onLink cur ys = walk fs k cur ys)
    (hon : ∀ cur t rest, onLink cur t (rest ++ ys) = .ok l →
      ∃ mid j, j ≤ k ∧ onLink cur t rest = .ok mid ∧ walk fs j mid ys = .ok l)
    (h : walkWith fs onLink cur (xs ++ ys) = .ok l) :
    ∃ mid j, j ≤ k ∧ walkWith fs onLink cur xs = .ok mid ∧ walk fs j mid ys = .ok l := by
  induction xs generalizing cur with
  | nil =>
    rw [List.nil_append, hk] at h
    exact ⟨cur, k, Nat.le_refl k, rfl, h⟩
  | cons c rest ih =>
    rw [List.cons_append] at h
    obtain ⟨hd, h⟩ := walkWith_cons_ok h
    cases c with
    | cur =>
      obtain ⟨mid, j, hj, hxs, hys⟩ := ih h
      exact ⟨mid, j, hj, by rw [walkWith, if_pos hd, hxs], hys⟩
    | up =>
      obtain ⟨mid, j, hj, hxs, hys⟩ := ih h
      exact ⟨mid, j, hj, by rw [walkWith, if_pos hd, hxs], hys⟩
    | name n =>
      rw [walkWith, if_pos hd]
      rcases h with ⟨i, t, hn, h⟩ | ⟨hreal, h⟩
      · rw [hn]
        exact hon cur t rest h
      · obtain ⟨mid, j, hj, hxs, hys⟩ := ih h
        refine ⟨mid, j, hj, ?_, hys⟩
        rw [← hxs]
        cases hn : fs.node (cur ++ [n]) with
        | none => exact absurd (shape_eq_none.mpr hn) hreal.1
        | some nd =>
          cases nd with
          | symlink i t => exact absurd (shape_eq_symlink.mpr ⟨i, hn⟩) (hreal.2 t)
          | file i c => rfl
          | dir i m => rfl

/-- A resolution that succeeds resolves the first part of the path, and the rest from there with the
links that are left. -/
theorem walk_append_ok {k : Nat} {l : Path} {xs ys : List Comp}
    (h : walk fs k cur (xs ++ ys) = .ok l) :
    ∃ mid j, j ≤ k ∧ walk fs k cur xs = .ok mid ∧ walk fs j mid ys = .ok l := by
  induction k generalizing cur xs with
  | zero => exact walkWith_append_ok (fun _ => rfl) (fun _ _ _ hl => nomatch hl) h
  | succ k ih =>
    refine walkWith_append_ok (fun _ => rfl) ?_ h
    intro cur t rest hl
    by_cases ht : t = []
    · rw [if_pos ht] at hl
      cases hl
    · rw [if_neg ht, ← List.append_assoc] at hl
      obtain ⟨mid, j, hj, hxs, hys⟩ := ih hl
      exact ⟨mid, j, by omega, by rw [if_neg ht, hxs], hys⟩

theorem walkWith_down {onLink : Path → List UInt8 → List Comp → Except ErrorKind Path} {base : Path}
    (hdir : fs.isDir (cur ++ base) = true) :
    walkWith fs onLink cur (base.map .name ++ comps) = walkWith fs onLink (cur ++ base) comps := by
  induction base generalizing cur with
  | nil => rw [List.append_nil, List.map_nil, List.nil_append]
  | cons n base ih =>
    have hsome : (fs.node (cur ++ (n :: base))).isSome := by
      obtain ⟨i, m, hm⟩ := isDir_iff.mp hdir
      rw [hm]
      rfl
    have hcur : fs.isDir cur = true := isDir_of_append hsome (by simp)
    rw [List.append_cons] at hdir hsome ⊢
    have hnext : fs.isDir (cur ++ [n]) = true := by
      by_cases h0 : base = []
      · subst h0
        rwa [List.append_nil] at hdir
      · exact isDir_of_append hsome h0
    obtain ⟨i, m, hm⟩ := isDir_iff.mp hnext
    rw [List.map_cons, List.cons_append, walkWith, if_pos hcur, hm]
    exact ih hdir

/-- Down to an existing directory no link is followed. -/
theorem walk_down {k : Nat} {base : Path} (hdir : fs.isDir (cur ++ base) = true) :
    walk fs k cur (base.map .name ++ comps) = walk fs k (cur ++ base) comps := by
  cases k with
  | zero => exact walkWith_down hdir
  | succ k => exact walkWith_down hdir

end Fs
end Posix
