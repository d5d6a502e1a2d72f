import Mathlib.Algebra.Group.Int.Defs
import Mathlib.Algebra.Group.Nat.Defs
import Mathlib.Data.List.Infix
import Mathlib.Tactic.Common

/-!
# Byte-exact paths (`crates/kin-vfs-core/src/path.rs`)

A `VfsPath` is a byte string that `checkPath` accepts, a `VfsName` one that `checkName` accepts:
the check is a field, so a path with an absolute, empty, `.`, `..` or NUL-bearing component cannot
be built.

Everything the overlay proofs need about paths is stated on the component list: `ext_components`
(a path is its components), `components_join`, `components_parent`, and
`stripDirPrefix_eq_some` with `slash_mem_remainder` (the remainder below a directory carries a
separator iff it has more than one component).
-/

namespace KinVfs

abbrev Bytes := List UInt8

/-- `b'/'`. -/
def slash : UInt8 := 47

/-- `b'.'`. -/
def dot : UInt8 := 46

/-- Why a byte sequence is not a valid `VfsPath` or `VfsName`. -/
inductive VfsPathError where
  | absolute
  | nul
  | emptyComponent
  | dotComponent
  | emptyName
  | nameSeparator
  deriving DecidableEq, Repr

def VfsPathError.message : VfsPathError → String
  | .absolute => "path must be workspace-relative, not absolute"
  | .nul => "path must not contain NUL"
  | .emptyComponent => "path must not contain empty components"
  | .dotComponent => "path must not contain '.' or '..' components"
  | .emptyName => "name must not be empty"
  | .nameSeparator => "name must not contain '/'"

/-- One path component: not empty, no NUL, not `.` or `..`. -/
def validateComponent (component : Bytes) : Except VfsPathError Unit :=
  if component.isEmpty then .error .emptyComponent
  else if component == [dot] || component == [dot, dot] then .error .dotComponent
  else if component.contains 0 then .error .nul
  else .ok ()

/-- The checks of `VfsPath::from_bytes`. Empty bytes are the root. -/
def checkPath (bytes : Bytes) : Except VfsPathError Unit :=
  if bytes.isEmpty then .ok ()
  else if bytes.head? == some slash then .error .absolute
  else (bytes.splitOn slash).forM validateComponent

/-- The checks of `VfsName::from_bytes`. -/
def checkName (bytes : Bytes) : Except VfsPathError Unit :=
  if bytes.isEmpty then .error .emptyName
  else if bytes.contains slash then .error .nameSeparator
  else validateComponent bytes

/-- A validated, byte-exact, workspace-relative path. -/
structure VfsPath where
  bytes : Bytes
  valid : checkPath bytes = .ok ()

/-- One validated directory-entry name. -/
structure VfsName where
  bytes : Bytes
  valid : checkName bytes = .ok ()

theorem VfsPath.ext {p q : VfsPath} (h : p.bytes = q.bytes) : p = q := by
  cases p; cases q; cases h; rfl

theorem VfsName.ext {m n : VfsName} (h : m.bytes = n.bytes) : m = n := by
  cases m; cases n; cases h; rfl

instance : DecidableEq VfsPath := fun p q =>
  decidable_of_iff (p.bytes = q.bytes) ⟨VfsPath.ext, fun h => h ▸ rfl⟩

instance : DecidableEq VfsName := fun m n =>
  decidable_of_iff (m.bytes = n.bytes) ⟨VfsName.ext, fun h => h ▸ rfl⟩

/-- The derived order of the byte vectors: the key order of the maps. -/
instance : Ord VfsPath := ⟨fun p q => compare p.bytes q.bytes⟩

instance : Std.TransOrd VfsPath where
  eq_swap {a b} := Std.OrientedOrd.eq_swap (a := a.bytes) (b := b.bytes)
  isLE_trans {a b c} h₁ h₂ :=
    Std.TransOrd.isLE_trans (a := a.bytes) (b := b.bytes) (c := c.bytes) h₁ h₂

instance : Std.LawfulEqOrd VfsPath where
  eq_of_compare {a b} h := VfsPath.ext (Std.LawfulEqOrd.eq_of_compare (a := a.bytes) (b := b.bytes) h)
  compare_self {a} := Std.ReflOrd.compare_self (a := a.bytes)

/-! ## Components -/

/-- A byte string that can stand between separators. -/
def IsComponent (c : Bytes) : Prop := validateComponent c = .ok () ∧ slash ∉ c

theorem validateComponent_ok {c : Bytes} :
    validateComponent c = .ok () ↔ c ≠ [] ∧ c ≠ [dot] ∧ c ≠ [dot, dot] ∧ 0 ∉ c := by
  unfold validateComponent
  split
  · simp_all
  · split
    · rename_i h
      simp only [Bool.or_eq_true, beq_iff_eq] at h
      rcases h with rfl | rfl <;> simp
    · split <;> simp_all

theorem forM_ok {cs : List Bytes} :
    cs.forM validateComponent = .ok () ↔ ∀ c ∈ cs, validateComponent c = .ok () := by
  induction cs with
  | nil => simp [List.forM, pure, Except.pure]
  | cons c cs ih =>
    simp only [List.forM_eq_forM] at ih
    simp only [List.forM_eq_forM, List.forM_cons, List.mem_cons, forall_eq_or_imp]
    cases h : validateComponent c with
    | error e => simp [bind, Except.bind]
    | ok u => simpa [bind, Except.bind] using ih

theorem slash_not_mem_splitOn {bytes c : Bytes} (h : c ∈ bytes.splitOn slash) : slash ∉ c := by
  induction bytes generalizing c with
  | nil => simp at h; simp [h]
  | cons b bytes ih =>
    rw [List.splitOn_cons_eq_if_modifyHead] at h
    split at h
    · rcases List.mem_cons.mp h with rfl | h
      · simp
      · exact ih h
    · rename_i hb
      cases hs : bytes.splitOn slash with
      | nil => simp [hs] at h
      | cons d ds =>
        rw [hs, List.modifyHead_cons] at h
        rcases List.mem_cons.mp h with rfl | h
        · have := ih (c := d) (by simp [hs])
          simp only [beq_iff_eq] at hb
          simp [this, Ne.symm hb]
        · exact ih (by simp [hs, h])

/-- The `/`-joined bytes of a component list. -/
def joinComponents (cs : List Bytes) : Bytes := [slash].intercalate cs

@[simp] theorem joinComponents_nil : joinComponents [] = [] := rfl

@[simp] theorem joinComponents_singleton (c : Bytes) : joinComponents [c] = c := by
  simp [joinComponents]

theorem joinComponents_append {cs ds : List Bytes} (hc : cs ≠ []) (hd : ds ≠ []) :
    joinComponents (cs ++ ds) = joinComponents cs ++ slash :: joinComponents ds := by
  induction cs with
  | nil => exact absurd rfl hc
  | cons c cs ih =>
    cases cs with
    | nil =>
      obtain ⟨d, ds, rfl⟩ := List.exists_cons_of_ne_nil hd
      simp [joinComponents, List.intercalate_cons_cons]
    | cons c' cs =>
      have := ih (by simp)
      simp only [joinComponents, List.cons_append, List.intercalate_cons_cons] at this ⊢
      rw [this]; simp

theorem splitOn_joinComponents {cs : List Bytes} (h : ∀ c ∈ cs, IsComponent c) (hne : cs ≠ []) :
    (joinComponents cs).splitOn slash = cs :=
  List.splitOn_intercalate slash (fun c hc => (h c hc).2) hne

theorem joinComponents_ne_nil {cs : List Bytes} (h : ∀ c ∈ cs, IsComponent c) (hne : cs ≠ []) :
    joinComponents cs ≠ [] := by
  intro h0
  have := splitOn_joinComponents h hne
  rw [h0] at this
  simp only [List.splitOn_nil] at this
  exact (validateComponent_ok.mp (h [] (by simp [← this])).1).1 rfl

/-- The grammar: a byte string is a path iff it is a `/`-joined list of components (the empty
list is the root). -/
theorem checkPath_ok {bytes : Bytes} :
    checkPath bytes = .ok () ↔ ∃ cs, (∀ c ∈ cs, IsComponent c) ∧ bytes = joinComponents cs := by
  unfold checkPath
  constructor
  · intro h
    split at h
    · rename_i h0
      exact ⟨[], by simp, by simpa using h0⟩
    · split at h
      · cases h
      · exact ⟨bytes.splitOn slash,
          fun c hc => ⟨forM_ok.mp h c hc, slash_not_mem_splitOn hc⟩, by simp [joinComponents]⟩
  · rintro ⟨cs, hcs, rfl⟩
    by_cases hne : cs = []
    · simp [hne]
    rw [if_neg (by simpa using joinComponents_ne_nil hcs hne), if_neg]
    · rw [splitOn_joinComponents hcs hne]
      exact forM_ok.mpr fun c hc => (hcs c hc).1
    · -- The first byte is one of the first component.
      obtain ⟨c, cs, rfl⟩ := List.exists_cons_of_ne_nil hne
      obtain ⟨hc, hs⟩ := hcs c (by simp)
      obtain ⟨b, bs, rfl⟩ := List.exists_cons_of_ne_nil (validateComponent_ok.mp hc).1
      cases cs with
      | nil => simpa using fun h : b = slash => hs (by simp [h])
      | cons d ds =>
        simpa [joinComponents, List.intercalate_cons_cons] using
          fun h : b = slash => hs (by simp [h])

theorem checkName_ok {bytes : Bytes} : checkName bytes = .ok () ↔ IsComponent bytes := by
  unfold checkName IsComponent
  split
  · rename_i h; simp [validateComponent, h]
  · split
    · rename_i h; simp at h; simp [h]
    · rename_i h; simp at h; simp [h]

namespace VfsName

theorem isComponent (n : VfsName) : IsComponent n.bytes := checkName_ok.mp n.valid

/-- `VfsName::from_bytes`. -/
def fromBytes (bytes : Bytes) : Except VfsPathError VfsName :=
  match h : checkName bytes with
  | .ok () => .ok ⟨bytes, h⟩
  | .error e => .error e

theorem fromBytes_ok {bytes : Bytes} {n : VfsName} : fromBytes bytes = .ok n ↔ n.bytes = bytes := by
  unfold fromBytes
  split
  · rename_i h
    constructor
    · intro e; cases e; rfl
    · intro e; exact congrArg Except.ok (VfsName.ext e.symm)
  · rename_i e h
    constructor
    · intro h'; cases h'
    · rintro rfl; rw [n.valid] at h; cases h

end VfsName

namespace VfsPath

/-- `VfsPath::from_bytes`. -/
def fromBytes (bytes : Bytes) : Except VfsPathError VfsPath :=
  match h : checkPath bytes with
  | .ok () => .ok ⟨bytes, h⟩
  | .error e => .error e

theorem fromBytes_ok {bytes : Bytes} {p : VfsPath} : fromBytes bytes = .ok p ↔ p.bytes = bytes := by
  unfold fromBytes
  split
  · rename_i h
    constructor
    · intro e; cases e; rfl
    · intro e; exact congrArg Except.ok (VfsPath.ext e.symm)
  · rename_i e h
    constructor
    · intro h'; cases h'
    · rintro rfl; rw [p.valid] at h; cases h

/-- The workspace root (the empty path). -/
def root : VfsPath := ⟨[], rfl⟩

def isRoot (p : VfsPath) : Bool := p.bytes.isEmpty

/-- The components in order, empty for the root. -/
def components (p : VfsPath) : List Bytes := (p.bytes.splitOn slash).filter (!·.isEmpty)

theorem components_of_bytes {p : VfsPath} {cs : List Bytes} (h : ∀ c ∈ cs, IsComponent c)
    (hb : p.bytes = joinComponents cs) : p.components = cs := by
  unfold components
  by_cases hne : cs = []
  · subst hne; simp [hb]
  · rw [hb, splitOn_joinComponents h hne]
    exact List.filter_eq_self.mpr fun c hc => by
      simpa using (validateComponent_ok.mp (h c hc).1).1

theorem components_spec (p : VfsPath) :
    (∀ c ∈ p.components, IsComponent c) ∧ p.bytes = joinComponents p.components := by
  obtain ⟨cs, hcs, hb⟩ := checkPath_ok.mp p.valid
  rw [components_of_bytes hcs hb]
  exact ⟨hcs, hb⟩

theorem isComponent {p : VfsPath} {c : Bytes} (h : c ∈ p.components) : IsComponent c :=
  p.components_spec.1 c h

/-- A path is its components. -/
theorem ext_components {p q : VfsPath} (h : p.components = q.components) : p = q :=
  VfsPath.ext (by rw [p.components_spec.2, q.components_spec.2, h])

/-- The path of a component list. -/
def ofComponents (cs : List Bytes) (h : ∀ c ∈ cs, IsComponent c) : VfsPath :=
  ⟨joinComponents cs, checkPath_ok.mpr ⟨cs, h, rfl⟩⟩

@[simp] theorem components_ofComponents {cs : List Bytes} (h : ∀ c ∈ cs, IsComponent c) :
    (ofComponents cs h).components = cs :=
  components_of_bytes h rfl

@[simp] theorem components_root : root.components = [] := rfl

theorem components_eq_nil {p : VfsPath} : p.components = [] ↔ p = root :=
  ⟨fun h => ext_components (by simpa using h), fun h => by simp [h]⟩

theorem isRoot_iff {p : VfsPath} : p.isRoot = true ↔ p = root := by
  unfold isRoot
  rw [List.isEmpty_iff]
  exact ⟨fun h => VfsPath.ext h, fun h => by rw [h]; rfl⟩

/-! ## Parent, name and join -/

/-- Position of the last byte satisfying `f` (`Iterator::rposition`). -/
def rposition (f : UInt8 → Bool) (bytes : Bytes) : Option Nat :=
  (bytes.reverse.findIdx? f).map (bytes.length - 1 - ·)

theorem rposition_append {f : UInt8 → Bool} {xs ys : Bytes} {b : UInt8} (hb : f b = true)
    (hy : ∀ y ∈ ys, f y = false) : rposition f (xs ++ b :: ys) = some xs.length := by
  have h : (xs ++ b :: ys).reverse.findIdx? f = some ys.length := by
    rw [List.reverse_append, List.reverse_cons, List.append_assoc, List.findIdx?_append]
    have : ys.reverse.findIdx? f = none := by
      rw [List.findIdx?_eq_none_iff]; intro y hy'; simpa using hy y (by simpa using hy')
    simp [this, hb, List.findIdx?_cons]
  simp only [rposition, h, Option.map_some, List.length_append, List.length_cons,
    Option.some.injEq]
  omega

theorem rposition_none {f : UInt8 → Bool} {xs : Bytes} (h : ∀ x ∈ xs, f x = false) :
    rposition f xs = none := by
  have : xs.reverse.findIdx? f = none := by
    rw [List.findIdx?_eq_none_iff]; intro y hy; simpa using h y (by simpa using hy)
  simp [rposition, this]

/-- Where the last separator of a nonempty component list is. -/
theorem rposition_join {cs : List Bytes} {c : Bytes} (hc : slash ∉ c) :
    rposition (· == slash) (joinComponents (cs ++ [c])) =
      if cs = [] then none else some (joinComponents cs).length := by
  have hf : ∀ x ∈ c, (x == slash) = false := fun x hx => by
    simp only [beq_eq_false_iff_ne]; exact fun e => hc (e ▸ hx)
  split
  · rename_i h; subst h; simpa using rposition_none hf
  · rename_i h
    rw [joinComponents_append h (by simp), joinComponents_singleton]
    exact rposition_append (by simp) hf

/-- `Self(self.0[..position].to_vec())`, or the root without a separator. -/
def parentBytes (p : VfsPath) : Bytes :=
  match rposition (· == slash) p.bytes with
  | some position => p.bytes.take position
  | none => []

theorem parentBytes_eq (p : VfsPath) : p.parentBytes = joinComponents p.components.dropLast := by
  obtain ⟨hcs, hb⟩ := p.components_spec
  unfold parentBytes
  rcases List.eq_nil_or_concat p.components with h | ⟨cs, c, h⟩
  · rw [hb, h]; simp [rposition]
  · rw [List.concat_eq_append] at h
    rw [hb, h, rposition_join (hcs c (by simp [h])).2, List.dropLast_concat]
    by_cases h0 : cs = []
    · simp [h0]
    · simp only [h0, ↓reduceIte]
      rw [joinComponents_append h0 (by simp), List.take_left]

/-- The containing directory, or `none` for the root. -/
def parent (p : VfsPath) : Option VfsPath :=
  if p.isRoot then none
  else some ⟨p.parentBytes, checkPath_ok.mpr ⟨p.components.dropLast,
    fun _ hc => p.isComponent (List.mem_of_mem_dropLast hc), p.parentBytes_eq⟩⟩

/-- The final component, or `none` for the root. -/
def fileName (p : VfsPath) : Option Bytes :=
  if p.isRoot then none
  else some (match rposition (· == slash) p.bytes with
    | some position => p.bytes.drop (position + 1)
    | none => p.bytes)

def joinBytes (p : VfsPath) (name : VfsName) : Bytes :=
  if p.isRoot then name.bytes else p.bytes ++ slash :: name.bytes

theorem joinBytes_eq (p : VfsPath) (n : VfsName) :
    p.joinBytes n = joinComponents (p.components ++ [n.bytes]) := by
  unfold joinBytes
  by_cases h : p = root
  · subst h; rw [if_pos (isRoot_iff.mpr rfl)]; simp
  · rw [if_neg (by simpa [isRoot_iff] using h), joinComponents_append
      (fun h0 => h (components_eq_nil.mp h0)) (by simp), ← p.components_spec.2,
      joinComponents_singleton]

theorem isComponent_concat {p : VfsPath} {n : VfsName} :
    ∀ c ∈ p.components ++ [n.bytes], IsComponent c := by
  intro c hc
  rcases List.mem_append.mp hc with h | h
  · exact p.isComponent h
  · rw [List.mem_singleton.mp h]; exact n.isComponent

/-- Append one name. -/
def join (p : VfsPath) (name : VfsName) : VfsPath :=
  ⟨p.joinBytes name, checkPath_ok.mpr ⟨_, isComponent_concat, p.joinBytes_eq name⟩⟩

@[simp] theorem components_join (p : VfsPath) (n : VfsName) :
    (p.join n).components = p.components ++ [n.bytes] :=
  components_of_bytes isComponent_concat (p.joinBytes_eq n)

theorem join_ne_root (p : VfsPath) (n : VfsName) : p.join n ≠ root := by
  intro h
  have := congrArg components h
  simp at this

@[simp] theorem isRoot_join (p : VfsPath) (n : VfsName) : (p.join n).isRoot = false := by
  rw [Bool.eq_false_iff, ne_eq, isRoot_iff]
  exact join_ne_root p n

theorem join_inj {p q : VfsPath} {m n : VfsName} (h : p.join m = q.join n) : p = q ∧ m = n := by
  have := congrArg components h
  simp only [components_join] at this
  obtain ⟨h₁, h₂⟩ := List.append_inj' this rfl
  exact ⟨ext_components h₁, VfsName.ext (by simpa using h₂)⟩

/-- Every path is the root or a name in a directory. -/
theorem root_or_join (p : VfsPath) : p = root ∨ ∃ q n, p = join q n := by
  rcases List.eq_nil_or_concat p.components with h | ⟨cs, c, h⟩
  · exact .inl (components_eq_nil.mp h)
  · rw [List.concat_eq_append] at h
    have hcs : ∀ d ∈ cs, IsComponent d := fun d hd => p.isComponent (by simp [h, hd])
    have hc : IsComponent c := p.isComponent (by simp [h])
    exact .inr ⟨ofComponents cs hcs, ⟨c, checkName_ok.mpr hc⟩, ext_components (by simp [h])⟩

@[simp] theorem parent_root : root.parent = none := rfl

@[simp] theorem parent_join (p : VfsPath) (n : VfsName) : (p.join n).parent = some p := by
  unfold parent
  rw [if_neg (by simp), Option.some.injEq]
  apply VfsPath.ext
  simp only [parentBytes_eq, components_join, List.dropLast_concat, ← p.components_spec.2]

theorem parent_eq_some {p q : VfsPath} : p.parent = some q ↔ ∃ n, p = q.join n := by
  constructor
  · intro h
    rcases root_or_join p with rfl | ⟨q', n, rfl⟩
    · cases h
    · rw [parent_join, Option.some.injEq] at h; exact ⟨n, by rw [h]⟩
  · rintro ⟨n, rfl⟩; exact parent_join q n

@[simp] theorem fileName_join (p : VfsPath) (n : VfsName) : (p.join n).fileName = some n.bytes := by
  have hb := (p.join n).components_spec.2
  rw [components_join] at hb
  unfold fileName
  rw [if_neg (by simp), Option.some.injEq, hb,
    rposition_join n.isComponent.2]
  by_cases h : p.components = []
  · simp [h]
  · simp only [h, ↓reduceIte]
    rw [joinComponents_append h (by simp), joinComponents_singleton]
    simp

/-- Induction over a path, name by name. -/
theorem induct {motive : VfsPath → Prop} (hroot : motive root)
    (hjoin : ∀ p n, motive p → motive (p.join n)) (p : VfsPath) : motive p := by
  suffices ∀ k (q : VfsPath), q.components.length = k → motive q from this _ p rfl
  intro k
  induction k with
  | zero => intro q hq; rw [components_eq_nil.mp (List.length_eq_zero_iff.mp hq)]; exact hroot
  | succ k ih =>
    intro q hq
    rcases root_or_join q with rfl | ⟨q', n, rfl⟩
    · exact hroot
    · exact hjoin _ _ (ih q' (by simpa using hq))

/-! ## Ancestors -/

/-- `self` is a strict directory prefix of `descendant`, on component boundaries. -/
def isAncestorOf (p descendant : VfsPath) : Bool :=
  if descendant.isRoot then false
  else if p.isRoot then true
  else decide (p.bytes.length < descendant.bytes.length) &&
    p.bytes.isPrefixOf descendant.bytes &&
    descendant.bytes[p.bytes.length]? == some slash

/-- The remaining path after directory `self`, or `none` when `self` is not an ancestor. -/
def stripDirPrefix (p descendant : VfsPath) : Option Bytes :=
  if !p.isAncestorOf descendant then none
  else if p.isRoot then some descendant.bytes
  else some (descendant.bytes.drop (p.bytes.length + 1))

theorem components_eq_splitOn {p : VfsPath} (h : p ≠ root) :
    p.components = p.bytes.splitOn slash := by
  obtain ⟨hcs, hb⟩ := p.components_spec
  conv => rhs; rw [hb]
  exact (splitOn_joinComponents hcs fun h0 => h (components_eq_nil.mp h0)).symm

/-- A separator after the bytes of `p` cuts the components of `q` there. -/
theorem components_of_bytes_append {p q : VfsPath} {r : Bytes} (hp : p ≠ root)
    (h : q.bytes = p.bytes ++ slash :: r) :
    q.components = p.components ++ r.splitOn slash ∧ r.splitOn slash ≠ [] := by
  have hq : q ≠ root := by rintro rfl; simp [root] at h
  rw [components_eq_splitOn hq, components_eq_splitOn hp, h, List.splitOn_append_cons_self]
  exact ⟨rfl, List.splitOn_ne_nil _ _⟩

theorem bytes_append {p q : VfsPath} {cs : List Bytes} (hp : p ≠ root) (hc : cs ≠ [])
    (h : q.components = p.components ++ cs) : q.bytes = p.bytes ++ slash :: joinComponents cs := by
  rw [q.components_spec.2, h, joinComponents_append
    (fun h0 => hp (components_eq_nil.mp h0)) hc, ← p.components_spec.2]

/-- Ancestors are the strict prefixes of the component list. -/
theorem isAncestorOf_iff {p q : VfsPath} :
    p.isAncestorOf q = true ↔ ∃ cs, cs ≠ [] ∧ q.components = p.components ++ cs := by
  unfold isAncestorOf
  by_cases hq : q = root
  · subst hq
    rw [if_pos (isRoot_iff.mpr rfl)]
    simp
  rw [if_neg (by simpa [isRoot_iff] using hq)]
  by_cases hp : p = root
  · subst hp
    rw [if_pos (isRoot_iff.mpr rfl)]
    simpa using fun h => hq (components_eq_nil.mp h)
  rw [if_neg (by simpa [isRoot_iff] using hp)]
  simp only [Bool.and_eq_true, decide_eq_true_eq, List.isPrefixOf_iff_prefix, beq_iff_eq]
  constructor
  · rintro ⟨⟨-, ⟨t, ht⟩⟩, hs⟩
    rw [← ht, List.getElem?_append_right (Nat.le_refl _), Nat.sub_self] at hs
    cases t with
    | nil => simp at hs
    | cons b t =>
      simp only [List.getElem?_cons_zero, Option.some.injEq] at hs
      subst hs
      obtain ⟨h, hne⟩ := components_of_bytes_append hp ht.symm
      exact ⟨_, hne, h⟩
  · rintro ⟨cs, hne, h⟩
    rw [bytes_append hp hne h]
    exact ⟨⟨by simp, List.prefix_append _ _⟩, by simp⟩

/-- The remainder below an ancestor is the joined rest of the components. -/
theorem stripDirPrefix_eq_some {p q : VfsPath} {r : Bytes} :
    p.stripDirPrefix q = some r ↔
      ∃ cs, cs ≠ [] ∧ q.components = p.components ++ cs ∧ r = joinComponents cs := by
  unfold stripDirPrefix
  by_cases ha : p.isAncestorOf q = true
  · obtain ⟨cs, hne, h⟩ := isAncestorOf_iff.mp ha
    have huniq : ∀ ds, q.components = p.components ++ ds → ds = cs := fun ds hd =>
      List.append_cancel_left (hd.symm.trans h)
    simp only [ha, Bool.not_true, Bool.false_eq_true, ↓reduceIte]
    by_cases hp : p = root
    · subst hp
      simp only [isRoot_iff, ↓reduceIte, Option.some.injEq]
      constructor
      · rintro rfl; exact ⟨cs, hne, h, by rw [q.components_spec.2, h]; simp⟩
      · rintro ⟨ds, -, hd, rfl⟩; rw [q.components_spec.2, hd]; simp
    · rw [if_neg (by simpa [isRoot_iff] using hp), bytes_append hp hne h]
      simp only [Option.some.injEq]
      rw [show List.drop (p.bytes.length + 1) (p.bytes ++ slash :: joinComponents cs) =
        joinComponents cs by simp]
      constructor
      · rintro rfl; exact ⟨cs, hne, h, rfl⟩
      · rintro ⟨ds, -, hd, rfl⟩; rw [huniq ds hd]
  · simp only [ha, Bool.not_false, ↓reduceIte, reduceCtorEq, false_iff]
    rintro ⟨cs, hne, h, -⟩
    exact ha (isAncestorOf_iff.mpr ⟨cs, hne, h⟩)

/-- Joined components carry a separator iff there are at least two of them. -/
theorem slash_mem_joinComponents {cs : List Bytes} (h : ∀ c ∈ cs, IsComponent c) (hne : cs ≠ []) :
    slash ∈ joinComponents cs ↔ 2 ≤ cs.length := by
  match cs, hne with
  | [c], _ => simpa using (h c (by simp)).2
  | c :: d :: cs, _ => simp [joinComponents, List.intercalate_cons_cons]

/-- The loop `while let Some(directory) = current`: every ancestor, the nearest first. -/
def ancestorsFrom : Nat → Option VfsPath → List VfsPath
  | 0, _ => []
  | _, none => []
  | fuel + 1, some directory => directory :: ancestorsFrom fuel directory.parent

def ancestors (p : VfsPath) : List VfsPath := ancestorsFrom (p.bytes.length + 1) p.parent

theorem length_components_le (p : VfsPath) : p.components.length ≤ p.bytes.length := by
  induction p using induct with
  | hroot => simp
  | hjoin p n ih =>
    have hn : 0 < n.bytes.length :=
      List.length_pos_iff.mpr (validateComponent_ok.mp n.isComponent.1).1
    simp only [components_join, List.length_append, List.length_singleton]
    show _ ≤ (p.joinBytes n).length
    unfold joinBytes
    split
    · rename_i h
      rw [isRoot_iff.mp h]; simp only [components_root, List.length_nil]; omega
    · simp only [List.length_append, List.length_cons]; omega

theorem mem_ancestorsFrom {fuel : Nat} {p d : VfsPath} (h : p.components.length < fuel) :
    d ∈ ancestorsFrom fuel (some p) ↔ ∃ cs, p.components = d.components ++ cs := by
  induction fuel generalizing p with
  | zero => omega
  | succ fuel ih =>
    rw [ancestorsFrom, List.mem_cons]
    rcases root_or_join p with rfl | ⟨q, n, rfl⟩
    · have : ancestorsFrom fuel (parent root) = [] := by cases fuel <;> rfl
      simp only [this, List.not_mem_nil, or_false, components_root]
      constructor
      · rintro rfl; exact ⟨[], rfl⟩
      · rintro ⟨cs, hcs⟩
        exact components_eq_nil.mp (List.append_eq_nil_iff.mp hcs.symm).1
    · rw [parent_join, ih (by simp at h; omega)]
      constructor
      · rintro (rfl | ⟨cs, hcs⟩)
        · exact ⟨[], by simp⟩
        · exact ⟨cs ++ [n.bytes], by simp [hcs]⟩
      · rintro ⟨cs, hcs⟩
        rcases List.eq_nil_or_concat cs with rfl | ⟨cs', c, rfl⟩
        · exact .inl (ext_components (by simpa using hcs.symm))
        · right
          rw [components_join, List.concat_eq_append, ← List.append_assoc] at hcs
          exact ⟨cs', (List.append_inj' hcs rfl).1⟩

theorem mem_ancestors {p d : VfsPath} : d ∈ p.ancestors ↔ d.isAncestorOf p = true := by
  rw [isAncestorOf_iff]
  unfold ancestors
  rcases root_or_join p with rfl | ⟨q, n, rfl⟩
  · simp [ancestorsFrom]
  · have hl := length_components_le (q.join n)
    simp only [components_join, List.length_append, List.length_singleton] at hl
    rw [parent_join, mem_ancestorsFrom (by omega)]
    constructor
    · rintro ⟨cs, hcs⟩; exact ⟨cs ++ [n.bytes], by simp, by simp [hcs]⟩
    · rintro ⟨cs, hne, hcs⟩
      rcases List.eq_nil_or_concat cs with rfl | ⟨cs', c, rfl⟩
      · exact absurd rfl hne
      · rw [components_join, List.concat_eq_append, ← List.append_assoc] at hcs
        exact ⟨cs', (List.append_inj' hcs rfl).1⟩

/-- More fuel than components changes nothing. -/
theorem ancestorsFrom_eq {fuel fuel' : Nat} {p : VfsPath} (h : p.components.length < fuel)
    (h' : p.components.length < fuel') :
    ancestorsFrom fuel (some p) = ancestorsFrom fuel' (some p) := by
  induction p using induct generalizing fuel fuel' with
  | hroot =>
    obtain ⟨m, rfl⟩ := Nat.exists_eq_succ_of_ne_zero (Nat.ne_of_gt (Nat.zero_lt_of_lt h))
    obtain ⟨m', rfl⟩ := Nat.exists_eq_succ_of_ne_zero (Nat.ne_of_gt (Nat.zero_lt_of_lt h'))
    cases m <;> cases m' <;> rfl
  | hjoin q n ih =>
    simp only [components_join, List.length_append, List.length_singleton] at h h'
    obtain ⟨m, rfl⟩ := Nat.exists_eq_succ_of_ne_zero (Nat.ne_of_gt (Nat.zero_lt_of_lt h))
    obtain ⟨m', rfl⟩ := Nat.exists_eq_succ_of_ne_zero (Nat.ne_of_gt (Nat.zero_lt_of_lt h'))
    rw [ancestorsFrom, ancestorsFrom, parent_join]
    exact congrArg _ (ih (by omega) (by omega))

theorem ancestors_join (p : VfsPath) (n : VfsName) : (p.join n).ancestors = p :: p.ancestors := by
  have hle := length_components_le (p.join n)
  have hle' := length_components_le p
  simp only [components_join, List.length_append, List.length_singleton] at hle
  unfold ancestors
  rw [parent_join, ancestorsFrom]
  rcases root_or_join p with rfl | ⟨q, m, rfl⟩
  · cases (root.join n).bytes.length <;> rfl
  · simp only [components_join, List.length_append, List.length_singleton] at hle hle'
    rw [parent_join]
    exact congrArg _ (ancestorsFrom_eq (by omega) (by omega))

/-! ## Display -/

/-- One lowercase hexadecimal digit. -/
def hexDigit (n : Nat) : Char := Nat.digitChar n

/-- `display_bytes`: UTF-8 passes through, anything else is byte-escaped. -/
def displayBytes (bytes : Bytes) : String :=
  match String.fromUTF8? ⟨bytes.toArray⟩ with
  | some text => text
  | none => String.join (bytes.map fun byte =>
      if byte = 92 then "\\\\"
      else if 0x20 ≤ byte ∧ byte ≤ 0x7e then (Char.ofNat byte.toNat).toString
      else "\\x" ++ String.ofList [hexDigit (byte.toNat / 16), hexDigit (byte.toNat % 16)])

/-- `Display` of a path. -/
def display (p : VfsPath) : String := displayBytes p.bytes

end VfsPath

namespace Sample

/-- The paths `a`, `b`, `d` and `d/f`. -/
def a : VfsPath := ⟨[97], rfl⟩

def b : VfsPath := ⟨[98], rfl⟩

def d : VfsPath := ⟨[100], rfl⟩

def df : VfsPath := ⟨[100, 47, 102], rfl⟩

/-- The name `a`. -/
def nameA : VfsName := ⟨[97], by decide⟩

end Sample
end KinVfs
