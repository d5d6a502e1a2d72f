import KinVfs.Core.Path

/-!
# The laws of `VfsPath` (`crates/kin-vfs-core/src/path.rs`)

The bytes of a path and the list of its components are two forms of one value: `grammar_iff` is the grammar that
`VfsPath.fromBytes` accepts, and each operation on the bytes is an operation on the list (`path_laws`): `join` adds
a component, `parent` and `fileName` take the last one off, an ancestor is a strict prefix, and what
`stripDirPrefix` leaves is the rest of the list.
-/

namespace KinVfs

/-- Nothing, or components with a separator between them: they are not empty, have no separator and no NUL, and are
not `.` or `..`. -/
def PathGrammar (bytes : Bytes) : Prop :=
  bytes = [] ∨ ∃ cs : List Bytes, cs ≠ [] ∧
    (∀ c ∈ cs, c ≠ [] ∧ slash ∉ c ∧ 0 ∉ c ∧ c ≠ [dot] ∧ c ≠ [dot, dot]) ∧ bytes = joinComponents cs

namespace VfsPath

variable {p q r : VfsPath}

theorem isComponent_iff {c : Bytes} :
    IsComponent c ↔ c ≠ [] ∧ slash ∉ c ∧ 0 ∉ c ∧ c ≠ [dot] ∧ c ≠ [dot, dot] := by
  unfold IsComponent
  rw [validateComponent_ok]
  grind

theorem grammar_iff {bytes : Bytes} : PathGrammar bytes ↔ checkPath bytes = .ok () := by
  rw [checkPath_ok]
  constructor
  · rintro (rfl | ⟨cs, -, hcs, rfl⟩)
    · exact ⟨[], by simp, rfl⟩
    · exact ⟨cs, fun c hc => isComponent_iff.mpr (hcs c hc), rfl⟩
  · rintro ⟨cs, hcs, rfl⟩
    by_cases hne : cs = []
    · subst hne
      exact .inl rfl
    · exact .inr ⟨cs, hne, fun c hc => isComponent_iff.mp (hcs c hc), rfl⟩

theorem fromBytes_isOk {bytes : Bytes} : (∃ p, fromBytes bytes = .ok p) ↔ PathGrammar bytes := by
  rw [grammar_iff]
  constructor
  · rintro ⟨p, hp⟩
    rw [← fromBytes_ok.mp hp]
    exact p.valid
  · intro hvalid
    exact ⟨⟨bytes, hvalid⟩, fromBytes_ok.mpr rfl⟩

theorem grammar_bytes (p : VfsPath) : PathGrammar p.bytes := grammar_iff.mpr p.valid

/-- A path other than the root is its parent joined with its name. -/
theorem join_parent_fileName (h : p ≠ root) :
    ∃ q b n, p.parent = some q ∧ p.fileName = some b ∧ VfsName.fromBytes b = .ok n ∧ q.join n = p := by
  rcases root_or_join p with hroot | ⟨q, n, rfl⟩
  · exact absurd hroot h
  · exact ⟨q, n.bytes, n, parent_join q n, fileName_join q n, VfsName.fromBytes_ok.mpr rfl, rfl⟩

/-- An ancestor is a strict prefix. -/
theorem isAncestorOf_iff_prefix :
    p.isAncestorOf q = true ↔ p.components <+: q.components ∧ p.components ≠ q.components := by
  rw [isAncestorOf_iff]
  constructor
  · rintro ⟨cs, hne, hq⟩
    refine ⟨⟨cs, hq.symm⟩, fun heq => hne ?_⟩
    rw [← heq] at hq
    exact List.self_eq_append_right.mp hq
  · rintro ⟨⟨cs, hq⟩, hne⟩
    refine ⟨cs, ?_, hq.symm⟩
    rintro rfl
    rw [List.append_nil] at hq
    exact hne hq

theorem isAncestorOf_irrefl (p : VfsPath) : p.isAncestorOf p = false := by
  rw [Bool.eq_false_iff]
  intro h
  rw [ isAncestorOf_iff_prefix] at h
  exact h.2 rfl

theorem isAncestorOf_trans (hpq : p.isAncestorOf q = true) (hqr : q.isAncestorOf r = true) :
    p.isAncestorOf r = true := by
  obtain ⟨cs, hcs, hq⟩ := isAncestorOf_iff.mp hpq
  obtain ⟨ds, -, hr⟩ := isAncestorOf_iff.mp hqr
  refine isAncestorOf_iff.mpr ⟨cs ++ ds, ?_, ?_⟩
  · exact fun h => hcs (List.append_eq_nil_iff.mp h).1
  · rw [hr, hq, List.append_assoc]

theorem root_isAncestorOf (h : p ≠ root) : root.isAncestorOf p = true := by
  refine isAncestorOf_iff.mpr ⟨p.components, fun hnil => h (components_eq_nil.mp hnil), ?_⟩
  rw [components_root, List.nil_append]

/-- What is left below an ancestor is the path of the remaining components. -/
theorem stripDirPrefix_ofAncestor (h : p.isAncestorOf q = true) :
    ∃ rest : VfsPath, p.stripDirPrefix q = some rest.bytes ∧
      q.components = p.components ++ rest.components := by
  obtain ⟨cs, hne, hq⟩ := isAncestorOf_iff.mp h
  have hcs : ∀ c ∈ cs, IsComponent c := fun c hc => q.isComponent (by rw [hq]; exact List.mem_append_right _ hc)
  refine ⟨ofComponents cs hcs, stripDirPrefix_eq_some.mpr ⟨cs, hne, hq, rfl⟩, ?_⟩
  rw [components_ofComponents, hq]

theorem stripDirPrefix_eq_none (h : p.isAncestorOf q = false) : p.stripDirPrefix q = none := by
  unfold stripDirPrefix
  rw [h]
  rfl

end VfsPath

/-- The laws of paths. -/
structure PathLaws : Prop where
  /-- The grammar is what `from_bytes` accepts, and the path has those bytes. -/
  accepts : ∀ bytes, (∃ p, VfsPath.fromBytes bytes = .ok p) ↔ PathGrammar bytes
  exact : ∀ bytes p, VfsPath.fromBytes bytes = .ok p → p.bytes = bytes
  /-- The components are those of the grammar, and a path is determined by them. -/
  components : ∀ p : VfsPath, p.bytes = joinComponents p.components
  faithful : ∀ p q : VfsPath, p.components = q.components → p = q
  /-- The operations give paths of the grammar. -/
  root_grammar : PathGrammar VfsPath.root.bytes
  join_grammar : ∀ (p : VfsPath) n, PathGrammar (p.join n).bytes
  parent_grammar : ∀ p q : VfsPath, p.parent = some q → PathGrammar q.bytes
  join_components : ∀ (p : VfsPath) n, (p.join n).components = p.components ++ [n.bytes]
  parent_join : ∀ (p : VfsPath) n, (p.join n).parent = some p
  fileName_join : ∀ (p : VfsPath) n, (p.join n).fileName = some n.bytes
  join_parent : ∀ p : VfsPath, p ≠ VfsPath.root →
    ∃ q b n, p.parent = some q ∧ p.fileName = some b ∧ VfsName.fromBytes b = .ok n ∧ q.join n = p
  ancestor : ∀ p q : VfsPath,
    p.isAncestorOf q = true ↔ p.components <+: q.components ∧ p.components ≠ q.components
  /-- A strict partial order, with the root below every other path. -/
  irrefl : ∀ p : VfsPath, p.isAncestorOf p = false
  trans : ∀ p q r : VfsPath, p.isAncestorOf q = true → q.isAncestorOf r = true → p.isAncestorOf r = true
  root_least : ∀ p : VfsPath, p ≠ VfsPath.root → VfsPath.root.isAncestorOf p = true
  /-- The remainder has the remaining components. -/
  strip : ∀ p q : VfsPath, p.isAncestorOf q = true → ∃ rest : VfsPath,
    p.stripDirPrefix q = some rest.bytes ∧ q.components = p.components ++ rest.components
  strip_none : ∀ p q : VfsPath, p.isAncestorOf q = false → p.stripDirPrefix q = none

/-- **A `VfsPath` is a list of components.** -/
theorem path_laws : PathLaws where
  accepts _ := VfsPath.fromBytes_isOk
  exact _ _ := VfsPath.fromBytes_ok.mp
  components p := p.components_spec.2
  faithful _ _ := VfsPath.ext_components
  root_grammar := VfsPath.root.grammar_bytes
  join_grammar p n := (p.join n).grammar_bytes
  parent_grammar _ q _ := q.grammar_bytes
  join_components := VfsPath.components_join
  parent_join := VfsPath.parent_join
  fileName_join := VfsPath.fileName_join
  join_parent _ := VfsPath.join_parent_fileName
  ancestor _ _ := VfsPath.isAncestorOf_iff_prefix
  irrefl := VfsPath.isAncestorOf_irrefl
  trans _ _ _ := VfsPath.isAncestorOf_trans
  root_least _ := VfsPath.root_isAncestorOf
  strip _ _ := VfsPath.stripDirPrefix_ofAncestor
  strip_none _ _ := VfsPath.stripDirPrefix_eq_none

end KinVfs
