import KinVfs.Posix.Calls

/-!
# The shape of a file tree

`shape` forgets permission bits, times and directory lengths: what is left is a map from paths to
files, directories and links, and every change of a tree is an equation on it. Resolution is
described on shapes too:

* `Clear fs q`: above `q` there are only directories, or nothing.
* On a clear path the calls do not follow anything: `canonicalize_clear`, `locate_clear`,
  `lstat_clear`.
* What `canonicalize` returns is real (`canonicalize_real`), and it stays the answer while
  directories stay directories and links stay links (`canonicalize_keeps`).
-/

namespace Posix

open Fallible

/-- A node without its metadata. -/
inductive Shape where
  | file (content : List UInt8)
  | dir
  | symlink (target : List UInt8)
  deriving DecidableEq, Repr

def Node.shape : Node → Shape
  | .file _ c => .file c
  | .dir .. => .dir
  | .symlink _ t => .symlink t

namespace Fs

variable {fs fs' : Fs} {p q r l : Path} {n : Name} {nd : Node}

def shape (fs : Fs) (p : Path) : Option Shape := (fs.node p).map Node.shape

theorem shape_eq_none : fs.shape p = none ↔ fs.node p = none := by
  simp [shape]

theorem shape_eq_dir : fs.shape p = some .dir ↔ fs.isDir p = true := by
  rw [isDir_iff]
  unfold shape
  cases fs.node p with
  | none => simp
  | some nd => cases nd <;> simp [Node.shape]

theorem shape_eq_file {c : List UInt8} :
    fs.shape p = some (.file c) ↔ ∃ i, fs.node p = some (.file i c) := by
  unfold shape
  cases fs.node p with
  | none => simp
  | some nd => cases nd <;> simp [Node.shape]

theorem shape_eq_symlink {t : List UInt8} :
    fs.shape p = some (.symlink t) ↔ ∃ i, fs.node p = some (.symlink i t) := by
  unfold shape
  cases fs.node p with
  | none => simp
  | some nd => cases nd <;> simp [Node.shape]

theorem shape_root (fs : Fs) : fs.shape [] = some .dir := shape_eq_dir.mpr fs.rootDir

/-- Every proper prefix of an entry is a directory. -/
theorem shape_dir_of_append (h : fs.shape (p ++ q) ≠ none) (hq : q ≠ []) :
    fs.shape p = some .dir := by
  rw [shape_eq_dir]
  refine isDir_of_append ?_ hq
  rw [ne_eq, shape_eq_none] at h
  exact Option.isSome_iff_ne_none.mpr h

/-- Nothing is missing above an entry. -/
theorem shape_of_prefix {r : Path} (h : fs.shape p ≠ none) (hr : r <+: p) : fs.shape r ≠ none := by
  obtain ⟨s, rfl⟩ := hr
  by_cases hs : s = []
  · rw [hs, List.append_nil] at h
    exact h
  · rw [shape_dir_of_append h hs]
    simp

/-- What an entry is in is a directory. -/
theorem shape_dropLast (h : fs.shape p ≠ none) : fs.shape p.dropLast = some .dir := by
  rcases List.eq_nil_or_concat p with rfl | ⟨d, m, rfl⟩
  · exact shape_root fs
  · rw [List.concat_eq_append] at h ⊢
    rw [List.dropLast_concat]
    exact shape_dir_of_append h (by simp)

theorem length_le_of_shape_file {c : List UInt8} (h : fs.shape p = some (.file c)) :
    c.length ≤ maxFileSize := by
  obtain ⟨i, hi⟩ := shape_eq_file.mp h
  simpa [Node.fits] using fs.sized p _ hi

/-! ## Changes as equations -/

theorem shape_setNode (hk : (fs.node p).map Node.isDir = some nd.isDir) (hf : nd.fits = true) :
    (fs.setNode p nd).shape q = if q = p then some nd.shape else fs.shape q := by
  unfold setNode shape
  rw [dif_pos ⟨hk, hf⟩]
  dsimp only
  split <;> rfl

theorem shape_touch : (fs.touch p).shape q = fs.shape q := by
  unfold touch
  cases hn : fs.node p with
  | none => rfl
  | some nd =>
    have hk : (fs.node p).map Node.isDir = some (nd.touch fs.env.now).isDir := by simp [hn]
    have hf : (nd.touch fs.env.now).fits = true := by
      cases nd with
      | file i c => exact fs.sized p _ hn
      | _ => rfl
    rw [shape_setNode hk hf]
    split
    · rename_i hq
      subst hq
      rw [shape, hn]
      cases nd <;> rfl
    · rfl

/-- Touching a directory leaves the other nodes. -/
theorem node_touch (h : q ≠ p) : (fs.touch p).node q = fs.node q := by
  unfold touch
  split
  · unfold setNode
    split
    · dsimp only
      rw [if_neg h]
    · rfl
  · rfl

/-- A new entry changes its own node and the one of its directory. -/
theorem node_addEntry (hl : q ≠ l) (hd : q ≠ l.dropLast) : (fs.addEntry l nd).node q = fs.node q := by
  unfold addEntry
  split
  · rw [node_touch hd]
    dsimp only
    rw [if_neg hl]
  · rfl

theorem shape_addEntry (hl : l ≠ []) (hd : fs.isDir l.dropLast = true) (hn : fs.node l = none)
    (hf : nd.fits = true) :
    (fs.addEntry l nd).shape q = if q = l then some nd.shape else fs.shape q := by
  unfold addEntry
  rw [dif_pos ⟨hl, hd, hn, hf⟩, shape_touch]
  unfold shape
  dsimp only
  split <;> rfl

theorem shape_removeEntry (hl : l ≠ []) (hd : fs.isDir l = false ∨ fs.isEmptyDir l = true) :
    (fs.removeEntry l).shape q = if q = l then none else fs.shape q := by
  unfold removeEntry
  rw [dif_pos ⟨hl, hd⟩, shape_touch]
  unfold shape
  dsimp only
  split <;> rfl

theorem shape_moveEntry {src dst : Path} (hs : src ≠ []) (hd : dst ≠ [])
    (hsd : src.isPrefixOf dst = false) (hdir : fs.isDir dst.dropLast = true) :
    (fs.moveEntry src dst).shape q =
      if dst.isPrefixOf q then fs.shape (src ++ q.drop dst.length)
      else if src.isPrefixOf q then none
      else fs.shape q := by
  unfold moveEntry
  rw [dif_pos ⟨hs, hd, hsd, hdir⟩, shape_touch, shape_touch]
  unfold shape moved
  dsimp only
  split
  · rfl
  · split <;> rfl

/-- The moved entry arrives as it was, unless it came from below its destination. -/
theorem node_moveEntry {src dst : Path} (hs : src ≠ []) (hd : dst ≠ [])
    (hsd : src.isPrefixOf dst = false) (hdir : fs.isDir dst.dropLast = true)
    (hne : src.dropLast ≠ dst) : (fs.moveEntry src dst).node dst = fs.node src := by
  have hne' : dst ≠ dst.dropLast := by
    intro h
    have hlen := congrArg List.length h
    rw [List.length_dropLast] at hlen
    have := List.length_pos_iff.mpr hd
    omega
  unfold moveEntry
  rw [dif_pos ⟨hs, hd, hsd, hdir⟩, node_touch hne', node_touch hne.symm]
  simp [moved, List.isPrefixOf_iff_prefix]

/-! ## Clear paths -/

/-- Above `q` there are only directories, or nothing. -/
def Clear (fs : Fs) (q : Path) : Prop :=
  ∀ r s, q = r ++ s → s ≠ [] → fs.shape r = none ∨ fs.shape r = some .dir

theorem clear_nil (fs : Fs) : fs.Clear [] := by
  intro r s h hs
  simp only [List.nil_eq, List.append_eq_nil_iff] at h
  exact absurd h.2 hs

theorem clear_of_shape (h : fs.shape q ≠ none) : fs.Clear q := by
  rintro r s rfl hs
  exact .inr (shape_dir_of_append h hs)

theorem clear_append_singleton :
    fs.Clear (q ++ [n]) ↔ fs.Clear q ∧ (fs.shape q = none ∨ fs.shape q = some .dir) := by
  constructor
  · intro h
    refine ⟨fun r s hrs hs => ?_, h q [n] rfl (by simp)⟩
    exact h r (s ++ [n]) (by simp [hrs]) (by simp)
  · rintro ⟨h, hq⟩ r s hrs hs
    rcases List.eq_nil_or_concat s with rfl | ⟨s', m, rfl⟩
    · exact absurd rfl hs
    · rw [List.concat_eq_append, ← List.append_assoc] at hrs
      obtain ⟨rfl, -⟩ := List.append_inj' hrs rfl
      by_cases h0 : s' = []
      · subst h0
        simpa using hq
      · exact h r s' rfl h0

/-- An entry of a directory. -/
theorem clear_of_parent (h : fs.shape q.dropLast = some .dir) : fs.Clear q := by
  rcases List.eq_nil_or_concat q with rfl | ⟨d, m, rfl⟩
  · exact clear_nil fs
  · rw [List.concat_eq_append] at h ⊢
    rw [List.dropLast_concat] at h
    exact clear_append_singleton.mpr ⟨clear_of_shape (by simp [h]), .inr h⟩

theorem Clear.dropLast (h : fs.Clear q) : fs.Clear q.dropLast := by
  rcases List.eq_nil_or_concat q with rfl | ⟨q', m, rfl⟩
  · exact h
  · rw [List.concat_eq_append] at h ⊢
    rw [List.dropLast_concat]
    exact (clear_append_singleton.mp h).1

/-- The parent of a clear path is a directory, or missing. -/
theorem Clear.parent (h : fs.Clear q) :
    fs.shape q.dropLast = none ∨ fs.shape q.dropLast = some .dir := by
  rcases List.eq_nil_or_concat q with rfl | ⟨q', m, rfl⟩
  · exact .inr (shape_root fs)
  · rw [List.concat_eq_append] at h ⊢
    rw [List.dropLast_concat]
    exact (clear_append_singleton.mp h).2

/-! ## Resolution on a clear path -/

/-- Walking names below an existing location, where no link stands in the way. -/
theorem walkWith_names {onLink : Path → List UInt8 → List Comp → Except ErrorKind Path}
    (names : List Name) (cur : Path) (hcur : fs.shape cur ≠ none)
    (hc : fs.Clear (cur ++ names)) (hl : ∀ t, fs.shape (cur ++ names) ≠ some (.symlink t)) :
    walkWith fs onLink cur (names.map .name) =
      if fs.shape (cur ++ names) = none then .error .notFound else .ok (cur ++ names) := by
  induction names generalizing cur with
  | nil => simp [walkWith, hcur]
  | cons n names ih =>
    have hdir : fs.shape cur = some .dir := by
      rcases hc cur (n :: names) rfl (by simp) with h | h
      · exact absurd h hcur
      · exact h
    rw [List.append_cons] at hc hl ⊢
    rw [List.map_cons, walkWith, if_pos (shape_eq_dir.mp hdir)]
    -- The next entry is missing, or a step down.
    cases hn : fs.node (cur ++ [n]) with
    | none =>
      have hnone : fs.shape (cur ++ [n] ++ names) = none :=
        shape_eq_none.mpr (node_none_append hn)
      rw [if_pos hnone]
    | some nd =>
      have hnext : fs.shape (cur ++ [n]) ≠ none := by rw [ne_eq, shape_eq_none, hn]; simp
      cases nd with
      | symlink i t =>
        exfalso
        by_cases h0 : names = []
        · subst h0
          exact hl t (by simp [shape, hn, Node.shape])
        · rcases hc (cur ++ [n]) names rfl h0 with h | h <;> simp [shape, hn, Node.shape] at h
      | file i c => exact ih _ hnext hc hl
      | dir i k => exact ih _ hnext hc hl

theorem canonicalize_clear (hc : fs.Clear q) (hl : ∀ t, fs.shape q ≠ some (.symlink t)) :
    fs.canonicalize q = if fs.shape q = none then .error .notFound else .ok q := by
  unfold canonicalize
  rw [maxLinks, walk]
  exact walkWith_names q [] (by simp [shape_root fs]) hc hl

theorem canonicalize_of_shape (h : fs.shape q ≠ none) (hl : ∀ t, fs.shape q ≠ some (.symlink t)) :
    fs.canonicalize q = .ok q := by
  rw [canonicalize_clear (clear_of_shape h) hl, if_neg h]

/-- The entry a clear path names is the path itself, once its directory exists. -/
theorem locate_clear (hc : fs.Clear q) :
    fs.locate q = if fs.shape q.dropLast = none then .error .notFound else .ok q := by
  unfold locate
  rcases List.eq_nil_or_concat q with rfl | ⟨q', m, rfl⟩
  · simp [shape_root fs]
  · rw [List.concat_eq_append] at hc ⊢
    obtain ⟨hc', hd⟩ := clear_append_singleton.mp hc
    rw [List.getLast?_concat, List.dropLast_concat]
    dsimp only
    have hl : ∀ t, fs.shape q' ≠ some (.symlink t) := by
      intro t ht
      rcases hd with h | h <;> rw [ht] at h <;> cases h
    rw [canonicalize_clear hc' hl]
    rcases hd with h | h
    · simp [h]
    · simp [h, shape_eq_dir.mp h]

theorem lstat_clear (hc : fs.Clear q) :
    fs.lstat q = match fs.node q with
      | none => .error .notFound
      | some nd => .ok nd := by
  unfold lstat
  rw [locate_clear hc]
  by_cases h : fs.shape q.dropLast = none
  · have hq : fs.node q = none := by
      rcases List.eq_nil_or_concat q with rfl | ⟨q', m, rfl⟩
      · rw [List.dropLast_nil, shape_root] at h
        cases h
      · rw [List.concat_eq_append] at h ⊢
        rw [List.dropLast_concat] at h
        exact node_none_append (shape_eq_none.mp h)
    simp [h, hq]
  · cases hn : fs.node q <;> simp [h, hn]

/-- A path that runs through a file. -/
theorem locate_blocked {c : List UInt8} (h : fs.shape q = some (.file c)) :
    fs.locate (q ++ [n]) = .error .notADirectory := by
  unfold locate
  rw [List.getLast?_concat, List.dropLast_concat]
  dsimp only
  rw [canonicalize_of_shape (by simp [h]) (by simp [h])]
  have hnd : fs.isDir q = false := by
    rw [Bool.eq_false_iff, ne_eq, ← shape_eq_dir, h]
    simp
  simp [hnd]

theorem lstat_blocked {c : List UInt8} (h : fs.shape q = some (.file c)) :
    fs.lstat (q ++ [n]) = .error .notADirectory := by
  unfold lstat
  rw [locate_blocked h]

/-! ## What resolution returns -/

/-- An existing location that is not a link. -/
def Real (fs : Fs) (q : Path) : Prop := fs.shape q ≠ none ∧ ∀ t, fs.shape q ≠ some (.symlink t)

theorem real_of_dir (h : fs.isDir q = true) : fs.Real q := by
  rw [← shape_eq_dir] at h
  exact ⟨by simp [h], by simp [h]⟩

theorem real_root (fs : Fs) : fs.Real [] := real_of_dir (shape_eq_dir.mp (shape_root fs))

theorem isDir_dropLast (h : fs.isDir q = true) : fs.isDir q.dropLast = true := by
  rcases List.eq_nil_or_concat q with rfl | ⟨q', m, rfl⟩
  · exact h
  · rw [List.concat_eq_append] at h ⊢
    rw [List.dropLast_concat, ← shape_eq_dir]
    exact shape_dir_of_append (by rw [shape_eq_dir.mpr h]; simp) (by simp)

/-- A resolution that succeeds takes a step in a directory: it stays, goes up, follows a link, or goes
down to an entry. -/
theorem walkWith_cons_ok {onLink : Path → List UInt8 → List Comp → Except ErrorKind Path}
    {cur l : Path} {c : Comp} {rest : List Comp} (h : walkWith fs onLink cur (c :: rest) = .ok l) :
    fs.isDir cur = true ∧ match c with
      | .cur => walkWith fs onLink cur rest = .ok l
      | .up => walkWith fs onLink cur.dropLast rest = .ok l
      | .name n => (∃ i t, fs.node (cur ++ [n]) = some (.symlink i t) ∧ onLink cur t rest = .ok l) ∨
          fs.Real (cur ++ [n]) ∧ walkWith fs onLink (cur ++ [n]) rest = .ok l := by
  cases c with
  | cur =>
    rw [walkWith] at h
    split at h
    · rename_i hd
      exact ⟨hd, h⟩
    · cases h
  | up =>
    rw [walkWith] at h
    split at h
    · rename_i hd
      exact ⟨hd, h⟩
    · cases h
  | name n =>
    rw [walkWith] at h
    split at h
    · rename_i hd
      refine ⟨hd, ?_⟩
      cases hn : fs.node (cur ++ [n]) with
      | none =>
        rw [hn] at h
        cases h
      | some nd =>
        rw [hn] at h
        cases nd with
        | symlink i t => exact .inl ⟨i, t, hn, h⟩
        | file i c => exact .inr ⟨⟨by simp [shape, hn], by simp [shape, hn, Node.shape]⟩, h⟩
        | dir i k => exact .inr ⟨⟨by simp [shape, hn], by simp [shape, hn, Node.shape]⟩, h⟩
    · cases h

theorem walkWith_real {onLink : Path → List UInt8 → List Comp → Except ErrorKind Path}
    (hon : ∀ cur t rest r, fs.isDir cur = true → onLink cur t rest = .ok r → fs.Real r)
    {comps : List Comp} {cur : Path} (hcur : fs.Real cur)
    (h : walkWith fs onLink cur comps = .ok r) : fs.Real r := by
  induction comps generalizing cur with
  | nil => cases h; exact hcur
  | cons c comps ih =>
    obtain ⟨hd, h⟩ := walkWith_cons_ok h
    cases c with
    | cur => exact ih hcur h
    | up => exact ih (real_of_dir (isDir_dropLast hd)) h
    | name n =>
      rcases h with ⟨i, t, -, h⟩ | ⟨hreal, h⟩
      · exact hon _ _ _ _ hd h
      · exact ih hreal h

theorem walk_real {k : Nat} {comps : List Comp} {cur : Path} (hcur : fs.Real cur)
    (h : walk fs k cur comps = .ok r) : fs.Real r := by
  induction k generalizing cur comps r with
  | zero => exact walkWith_real (by intro _ _ _ _ _ h; cases h) hcur h
  | succ k ih =>
    refine walkWith_real ?_ hcur h
    intro cur' t rest r' hd hr
    split at hr
    · cases hr
    · split at hr
      · exact ih (real_root fs) hr
      · exact ih (real_of_dir hd) hr

/-- What `canonicalize` returns exists and is not a link. -/
theorem canonicalize_real (h : fs.canonicalize p = .ok r) : fs.Real r := walk_real (real_root fs) h

/-- Directories stay directories and links stay links. -/
def Keeps (fs fs' : Fs) : Prop :=
  (∀ q, fs.shape q = some .dir → fs'.shape q = some .dir) ∧
    ∀ q t, fs.shape q = some (.symlink t) → fs'.shape q = some (.symlink t)

theorem walkWith_keeps {onLink onLink' : Path → List UInt8 → List Comp → Except ErrorKind Path}
    (hk : Keeps fs fs')
    (hon : ∀ cur t rest, onLink cur t rest = .ok r → onLink' cur t rest = .ok r)
    (hr : fs'.Real r) {comps : List Comp} {cur : Path}
    (h : walkWith fs onLink cur comps = .ok r) : walkWith fs' onLink' cur comps = .ok r := by
  induction comps generalizing cur with
  | nil => cases h; rfl
  | cons c comps ih =>
    have hdir : ∀ q, fs.isDir q = true → fs'.isDir q = true := fun q hq =>
      shape_eq_dir.mp (hk.1 q (shape_eq_dir.mpr hq))
    cases c with
    | cur =>
      rw [walkWith] at h ⊢
      split at h
      · rename_i hd
        rw [if_pos (hdir _ hd)]
        exact ih h
      · cases h
    | up =>
      rw [walkWith] at h ⊢
      split at h
      · rename_i hd
        rw [if_pos (hdir _ hd)]
        exact ih h
      · cases h
    | name n =>
      rw [walkWith] at h ⊢
      split at h
      · rename_i hd
        rw [if_pos (hdir _ hd)]
        split at h
        · cases h
        · rename_i i t hn
          obtain ⟨i', hi'⟩ := shape_eq_symlink.mp (hk.2 _ t (shape_eq_symlink.mpr ⟨i, hn⟩))
          rw [hi']
          exact hon _ _ _ h
        · rename_i nd hnl hn
          -- The walk goes on from here: a directory, or the file it ends at.
          have hreal : fs'.Real (cur ++ [n]) := by
            cases nd with
            | dir i k =>
              have hd' : fs.shape (cur ++ [n]) = some .dir := by simp [shape, hn, Node.shape]
              exact real_of_dir (shape_eq_dir.mp (hk.1 _ hd'))
            | symlink i t => exact absurd rfl (hnl i t)
            | file i c =>
              cases comps with
              | nil => cases h; exact hr
              | cons c comps =>
                have hnd : fs.isDir (cur ++ [n]) = false := by simp [isDir, hn, Node.isDir]
                cases c <;> simp [walkWith, hnd] at h
          have hn' := hreal.1
          rw [ne_eq, shape_eq_none] at hn'
          cases hm : fs'.node (cur ++ [n]) with
          | none => exact absurd hm hn'
          | some m =>
            cases m with
            | symlink i t => exact absurd (shape_eq_symlink.mpr ⟨i, hm⟩) (hreal.2 t)
            | file i c => exact ih h
            | dir i k => exact ih h
      · cases h

theorem walk_keeps (hk : Keeps fs fs') {k : Nat} {comps : List Comp} {cur : Path}
    (h : walk fs k cur comps = .ok r) (hr : fs'.Real r) : walk fs' k cur comps = .ok r := by
  induction k generalizing cur comps with
  | zero => exact walkWith_keeps hk (by intro _ _ _ h; cases h) hr h
  | succ k ih =>
    refine walkWith_keeps hk ?_ hr h
    intro cur' t rest hr'
    split at hr'
    · cases hr'
    · rename_i ht
      rw [if_neg ht]
      exact ih hr'

/-- A resolution stays what it was while what it passes through stays. -/
theorem canonicalize_keeps (hk : Keeps fs fs') (h : fs.canonicalize p = .ok r) (hr : fs'.Real r) :
    fs'.canonicalize p = .ok r := walk_keeps hk h hr

/-! ## Two trees -/

/-- Where both trees have something other than a file, they have the same. -/
def Compat (fs fs' : Fs) : Prop :=
  ∀ q s s', fs.shape q = some s → fs'.shape q = some s' →
    (∃ c, s = .file c) ∨ (∃ c, s' = .file c) ∨ s = s'

/-- A walk that reaches a file ends there. -/
theorem walkWith_file {onLink : Path → List UInt8 → List Comp → Except ErrorKind Path}
    {comps : List Comp} {i : Info} {c : List UInt8} (hn : fs.node p = some (.file i c))
    (h : walkWith fs onLink p comps = .ok r) : r = p := by
  have hnd : fs.isDir p = false := by simp [isDir, hn, Node.isDir]
  cases comps with
  | nil =>
    cases h
    rfl
  | cons x comps => cases x <;> simp [walkWith, hnd] at h

theorem walkWith_compat {onLink onLink' : Path → List UInt8 → List Comp → Except ErrorKind Path}
    {r' : Path} (hk : Compat fs fs')
    (hon : ∀ cur t rest, onLink cur t rest = .ok r → onLink' cur t rest = .ok r' → r = r')
    (hr : fs.shape r = some .dir) (hr' : fs'.shape r' = some .dir) {comps : List Comp} {cur : Path}
    (h : walkWith fs onLink cur comps = .ok r) (h' : walkWith fs' onLink' cur comps = .ok r') :
    r = r' := by
  induction comps generalizing cur with
  | nil =>
    cases h
    cases h'
    rfl
  | cons c comps ih =>
    cases c with
    | cur =>
      rw [walkWith] at h h'
      split at h
      · split at h'
        · exact ih h h'
        · cases h'
      · cases h
    | up =>
      rw [walkWith] at h h'
      split at h
      · split at h'
        · exact ih h h'
        · cases h'
      · cases h
    | name n =>
      rw [walkWith] at h h'
      split at h
      · split at h'
        · -- Neither walk ends in a file, so both trees have the same directory or link here.
          cases hn : fs.node (cur ++ [n]) with
          | none =>
            rw [hn] at h
            cases h
          | some nd =>
            cases hn' : fs'.node (cur ++ [n]) with
            | none =>
              rw [hn'] at h'
              cases h'
            | some nd' =>
              rw [hn] at h
              rw [hn'] at h'
              have hs : fs.shape (cur ++ [n]) = some nd.shape := by simp [shape, hn]
              have hs' : fs'.shape (cur ++ [n]) = some nd'.shape := by simp [shape, hn']
              have hsame := hk _ _ _ hs hs'
              cases nd with
              | file i c =>
                rw [walkWith_file hn h, shape_eq_file.mpr ⟨i, hn⟩] at hr
                cases hr
              | dir i k =>
                cases nd' with
                | file i c =>
                  rw [walkWith_file hn' h', shape_eq_file.mpr ⟨i, hn'⟩] at hr'
                  cases hr'
                | dir i k => exact ih h h'
                | symlink i t => simp [Node.shape] at hsame
              | symlink i t =>
                cases nd' with
                | file i c =>
                  rw [walkWith_file hn' h', shape_eq_file.mpr ⟨i, hn'⟩] at hr'
                  cases hr'
                | dir i k => simp [Node.shape] at hsame
                | symlink i' t' =>
                  obtain rfl : t = t' := by simpa [Node.shape] using hsame
                  exact hon _ _ _ h h'
        · cases h'
      · cases h

/-- Two resolutions of one path that end in directories end in the same one. -/
theorem canonicalize_compat {r' : Path} (hk : Compat fs fs') (h : fs.canonicalize p = .ok r)
    (h' : fs'.canonicalize p = .ok r') (hr : fs.shape r = some .dir)
    (hr' : fs'.shape r' = some .dir) : r = r' := by
  have hwalk : ∀ k cur comps, walk fs k cur comps = .ok r → walk fs' k cur comps = .ok r' →
      r = r' := by
    intro k
    induction k with
    | zero =>
      intro cur comps
      exact walkWith_compat hk (by intro _ _ _ h; cases h) hr hr'
    | succ k ih =>
      intro cur comps
      refine walkWith_compat hk ?_ hr hr'
      intro cur' t rest ht ht'
      split at ht
      · cases ht
      · rename_i hne
        rw [if_neg hne] at ht'
        exact ih _ _ ht ht'
  exact hwalk _ _ _ h h'

end Fs
end Posix
