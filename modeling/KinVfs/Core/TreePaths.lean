import KinVfs.Core.FileTree
import KinVfs.Core.KeyMap

/-!
# The two mappings of host paths (`tree.rs` and `pathmap.rs` of `crates/kin-vfs-core/src`)

`FileTree.relativePath` cuts the bytes of the root off the path, `workspaceGraphKey` compares the names of both. The
first takes a path for what is spelled, so an empty component or a `.` is no component of a key; the second passes
over them. Where the path is spelled as the root and plain names behind it, they agree (`relativePath_iff_key`).
-/

namespace KinVfs

open FileTree

/-! ## Trailing slashes -/

/-- The bytes without the slashes at their end. -/
def trimSlashes (bytes : Bytes) : Bytes := (bytes.reverse.dropWhile (· = slash)).reverse

/-- A root: an absolute path in normal form, with any number of slashes at its end. -/
def NormalRoot (root : Bytes) : Prop :=
  ∃ (cs : List Bytes) (n : Nat), (∀ c ∈ cs, IsComponent c) ∧
    root = slash :: joinComponents cs ++ List.replicate n slash

/-- The path is the bytes of the root, with nothing behind them, or a slash and components that are not empty and
not `.`, apart from slashes at the end. -/
def SpelledBelow (root path : Bytes) : Prop :=
  path = root ∨ ∃ rest, path = root ++ slash :: rest ∧
    (trimSlashes rest = [] ∨ ∀ c ∈ (trimSlashes rest).splitOn slash, c ≠ [] ∧ c ≠ [dot])

section Trim

variable {bytes x : Bytes} {n : Nat}

theorem trimSlashes_append_replicate (h : x.getLast? ≠ some slash) :
    trimSlashes (x ++ List.replicate n slash) = x := by
  unfold trimSlashes
  rw [List.reverse_append, List.reverse_replicate, List.dropWhile_append_of_pos (by simp +contextual)]
  rw [← List.head?_reverse] at h
  cases hrev : x.reverse with
  | nil => simpa using hrev
  | cons b rev =>
    rw [hrev, List.head?_cons] at h
    rw [List.dropWhile_cons_of_neg (by simpa using h), ← hrev, List.reverse_reverse]

/-- What was cut off are slashes. -/
theorem exists_trimSlashes (bytes : Bytes) : ∃ n, bytes = trimSlashes bytes ++ List.replicate n slash := by
  have hsplit := List.takeWhile_append_dropWhile (p := fun b : UInt8 => decide (b = slash)) (l := bytes.reverse)
  have hslashes : bytes.reverse.takeWhile (· = slash) =
      List.replicate (bytes.reverse.takeWhile (· = slash)).length slash := by
    rw [List.eq_replicate_iff]
    refine ⟨rfl, fun b hb => ?_⟩
    have hall := List.all_takeWhile (p := fun b : UInt8 => decide (b = slash)) (l := bytes.reverse)
    simpa using List.all_eq_true.mp hall b hb
  refine ⟨(bytes.reverse.takeWhile (· = slash)).length, ?_⟩
  rw [← List.reverse_inj, List.reverse_append, List.reverse_replicate, ← hslashes]
  unfold trimSlashes
  rw [List.reverse_reverse, hsplit]

theorem namesOf_append_slash (x y : Bytes) : namesOf (x ++ slash :: y) = namesOf x ++ namesOf y := by
  unfold namesOf
  rw [List.splitOn_append_cons_self, List.filter_append]

theorem clean_append_slash {x y : Bytes} : Clean (x ++ slash :: y) ↔ Clean x ∧ Clean y := by
  unfold Clean
  rw [List.splitOn_append_cons_self, List.forall_mem_append]

@[simp] theorem namesOf_nil : namesOf [] = [] := rfl

theorem clean_nil : Clean [] := by
  unfold Clean
  simp

theorem names_append_replicate (x : Bytes) (n : Nat) :
    namesOf (x ++ List.replicate n slash) = namesOf x ∧ (Clean (x ++ List.replicate n slash) ↔ Clean x) := by
  induction n with
  | zero => simp
  | succ n ih =>
    have hone : x ++ List.replicate (n + 1) slash = (x ++ List.replicate n slash) ++ slash :: [] := by
      rw [List.replicate_succ', List.append_assoc]
    rw [hone, namesOf_append_slash, clean_append_slash, ih.1, ih.2]
    simp [clean_nil]

theorem namesOf_trimSlashes (bytes : Bytes) :
    namesOf bytes = namesOf (trimSlashes bytes) ∧ (Clean bytes ↔ Clean (trimSlashes bytes)) := by
  obtain ⟨n, hn⟩ := exists_trimSlashes bytes
  have h := names_append_replicate (trimSlashes bytes) n
  rw [← hn] at h
  exact h

end Trim

/-! ## The names of a root -/

section Root

variable {cs : List Bytes} {root path : Bytes} {n : Nat}

/-- A path in normal form ends with a byte of a name. -/
theorem getLast?_slash_join (h : ∀ c ∈ cs, IsComponent c) (hne : cs ≠ []) :
    (slash :: joinComponents cs).getLast? ≠ some slash := by
  obtain ⟨front, c, rfl⟩ : ∃ front c, cs = front ++ [c] := by
    rcases List.eq_nil_or_concat cs with rfl | ⟨front, c, hcs⟩
    · exact absurd rfl hne
    · exact ⟨front, c, by rw [hcs, List.concat_eq_append]⟩
  obtain ⟨hvalid, hslash⟩ := h c (by simp)
  have hc : c ≠ [] := (validateComponent_ok.mp hvalid).1
  have hlast : ∀ x : Bytes, (x ++ c).getLast? ≠ some slash := by
    intro x hx
    rw [List.getLast?_append_of_ne_nil _ hc] at hx
    exact hslash (List.mem_of_getLast? hx)
  by_cases hfront : front = []
  · subst hfront
    simpa using hlast [slash]
  · rw [joinComponents_append hfront (by simp), joinComponents_singleton]
    simpa using hlast (slash :: joinComponents front ++ [slash])

theorem trimRoot_slashes (n : Nat) : trimRoot (List.replicate (n + 1) slash) = [slash] := by
  have hall : (List.replicate (n + 1) slash).reverse.dropWhile (· = slash) = [] := by
    rw [List.reverse_replicate, List.dropWhile_replicate]
    simp
  unfold trimRoot
  rw [hall]
  rfl

theorem trimRoot_eq (h : ∀ c ∈ cs, IsComponent c) (hne : cs ≠ []) :
    trimRoot (slash :: joinComponents cs ++ List.replicate n slash) = slash :: joinComponents cs := by
  have htrim := trimSlashes_append_replicate (n := n) (getLast?_slash_join h hne)
  unfold trimSlashes at htrim
  unfold trimRoot
  split
  · rename_i hnil
    rw [hnil] at htrim
    cases htrim
  · exact htrim

/-- The names of a path in normal form. -/
theorem names_slash_join (h : ∀ c ∈ cs, IsComponent c) :
    namesOf (slash :: joinComponents cs) = cs ∧ Clean (slash :: joinComponents cs) := by
  have hcut : slash :: joinComponents cs = [] ++ slash :: joinComponents cs := rfl
  rw [hcut, namesOf_append_slash, clean_append_slash, namesOf_nil, List.nil_append]
  by_cases hne : cs = []
  · subst hne
    exact ⟨rfl, clean_nil, clean_nil⟩
  · unfold namesOf Clean
    rw [splitOn_joinComponents h hne]
    refine ⟨?_, clean_nil, fun c hc => ?_⟩
    · refine List.filter_eq_self.mpr fun c hc => ?_
      obtain ⟨h1, h2, -, -⟩ := validateComponent_ok.mp (h c hc).1
      simp [isNamed, h1, h2]
    · obtain ⟨-, -, h3, h4⟩ := validateComponent_ok.mp (h c hc).1
      exact ⟨h3, h4⟩

/-- The key of a path by its names. -/
theorem key_iff_names (h : ∀ c ∈ cs, IsComponent c) (hpath : path.head? = some slash) {key : VfsPath} :
    workspaceGraphKey path (slash :: joinComponents cs ++ List.replicate n slash) = .ok key ↔
      Clean path ∧ ∃ rest, namesOf path = cs ++ rest ∧ key.bytes = joinComponents rest := by
  have hroot := names_append_replicate (slash :: joinComponents cs) n
  rw [(names_slash_join h).1] at hroot
  rw [workspaceGraphKey_ok_iff]
  constructor
  · rintro ⟨drive, drive', p, r, front, rest, hp, hr, hsame, hclean, -, hsplit, hfront, hkey⟩
    cases drive with
    | some d => exact absurd hpath hp.1
    | none =>
      cases drive' with
      | some d => exact absurd rfl hr.1
      | none =>
        obtain ⟨-, rfl⟩ := hp
        obtain ⟨-, rfl⟩ := hr
        have heq : SameName none = Eq := by
          funext a b
          simp [SameName]
        rw [heq, List.forall₂_eq_eq_eq, hroot.1] at hfront
        subst hfront
        exact ⟨hclean, rest, hsplit, hkey⟩
  · rintro ⟨hclean, rest, hsplit, hkey⟩
    refine ⟨none, none, path, _, cs, rest, ⟨hpath, rfl⟩, ⟨rfl, rfl⟩, rfl, hclean,
      hroot.2.mpr (names_slash_join h).2, hsplit, ?_, hkey⟩
    rw [hroot.1]
    exact List.forall₂_same.mpr fun c _ => by simp [SameName]

end Root

/-! ## The mappings agree -/

section Agree

variable {bytes rest : Bytes} {key : VfsPath}

/-- A key is the trimmed bytes exactly when its names are theirs and they are spelled plainly. -/
theorem key_bytes_iff :
    key.bytes = trimSlashes rest ↔ (Clean rest ∧ key.bytes = joinComponents (namesOf rest)) ∧
      (trimSlashes rest = [] ∨ ∀ c ∈ (trimSlashes rest).splitOn slash, c ≠ [] ∧ c ≠ [dot]) := by
  obtain ⟨hnames, hclean⟩ := namesOf_trimSlashes rest
  rw [hnames, hclean]
  generalize trimSlashes rest = r
  constructor
  · rintro rfl
    obtain ⟨hcs, hb⟩ := key.components_spec
    by_cases hroot : key = .root
    · subst hroot
      exact ⟨⟨clean_nil, rfl⟩, .inl rfl⟩
    · have hsplit := VfsPath.components_eq_splitOn hroot
      have hplain : ∀ c ∈ key.bytes.splitOn slash, validateComponent c = .ok () := by
        intro c hc
        rw [← hsplit] at hc
        exact (hcs c hc).1
      refine ⟨⟨fun c hc => ?_, ?_⟩, .inr fun c hc => ?_⟩
      · obtain ⟨-, -, h3, h4⟩ := validateComponent_ok.mp (hplain c hc)
        exact ⟨h3, h4⟩
      · unfold namesOf
        rw [List.filter_eq_self.mpr fun c hc => ?_, ← hsplit]
        · exact hb
        · obtain ⟨h1, h2, -, -⟩ := validateComponent_ok.mp (hplain c hc)
          simp [isNamed, h1, h2]
      · obtain ⟨h1, h2, -, -⟩ := validateComponent_ok.mp (hplain c hc)
        exact ⟨h1, h2⟩
  · rintro ⟨⟨-, hkey⟩, hplain⟩
    rw [hkey]
    rcases hplain with rfl | hplain
    · rfl
    · unfold namesOf
      rw [List.filter_eq_self.mpr fun c hc => ?_]
      · simp [joinComponents]
      · obtain ⟨h1, h2⟩ := hplain c hc
        simp [isNamed, h1, h2]

theorem toOption_fromBytes : (VfsPath.fromBytes bytes).toOption = some key ↔ key.bytes = bytes := by
  rw [← VfsPath.fromBytes_ok]
  cases VfsPath.fromBytes bytes with
  | error e => simp [Except.toOption]
  | ok k => simp [Except.toOption]

variable {root path : Bytes}

theorem relativePath_self (root : Bytes) : relativePath root root = some .root := by
  unfold relativePath
  simp

theorem relativePath_below :
    relativePath root (root ++ slash :: rest) = some key ↔ key.bytes = trimSlashes rest := by
  rw [← toOption_fromBytes]
  unfold relativePath trimSlashes
  simp

theorem relativePath_cases (h : relativePath root path = some key) :
    path = root ∨ ∃ rest, path = root ++ slash :: rest := by
  unfold relativePath at h
  by_cases hroot : root.isPrefixOf path = true
  · obtain ⟨tail, rfl⟩ := List.isPrefixOf_iff_prefix.mp hroot
    cases tail with
    | nil => exact .inl (List.append_nil root)
    | cons b rest =>
      by_cases hb : b = slash
      · subst hb
        exact .inr ⟨rest, rfl⟩
      · simp [hb] at h
  · simp [hroot] at h

end Agree

/-- **The mappings agree on plain spellings**: below a root other than `/`, the tree has a path of the workspace
exactly where the key mapping gives one and the path is spelled as the root with plain names behind it. -/
theorem relativePath_iff_key (root path : Bytes) (key : VfsPath) (hroot : NormalRoot root)
    (hne : trimRoot root ≠ [slash]) (hpath : path.head? = some slash) :
    relativePath (trimRoot root) path = some key ↔
      workspaceGraphKey path root = .ok key ∧ SpelledBelow (trimRoot root) path := by
  obtain ⟨cs, n, hcs, rfl⟩ := hroot
  have hcs0 : cs ≠ [] := by
    rintro rfl
    exact hne (trimRoot_slashes n)
  rw [trimRoot_eq hcs hcs0, key_iff_names hcs hpath]
  obtain ⟨hnames, hclean⟩ := names_slash_join hcs
  constructor
  · intro h
    rcases relativePath_cases h with rfl | ⟨rest, rfl⟩
    · rw [relativePath_self] at h
      obtain rfl := Option.some.inj h
      exact ⟨⟨hclean, [], by rw [hnames, List.append_nil], rfl⟩, .inl rfl⟩
    · obtain ⟨⟨hrest, hkey⟩, hplain⟩ := key_bytes_iff.mp (relativePath_below.mp h)
      refine ⟨⟨clean_append_slash.mpr ⟨hclean, hrest⟩, namesOf rest, ?_, hkey⟩, .inr ⟨rest, rfl, hplain⟩⟩
      rw [namesOf_append_slash, hnames]
  · rintro ⟨⟨hall, names, hsplit, hkey⟩, rfl | ⟨rest, rfl, hplain⟩⟩
    · rw [hnames, List.self_eq_append_right] at hsplit
      subst hsplit
      rw [relativePath_self]
      exact congrArg some (VfsPath.ext hkey.symm)
    · rw [namesOf_append_slash, hnames, List.append_cancel_left_eq] at hsplit
      subst hsplit
      exact relativePath_below.mpr (key_bytes_iff.mpr ⟨⟨(clean_append_slash.mp hall).2, hkey⟩, hplain⟩)

theorem normalRoot_w : NormalRoot [47, 119] := by
  refine ⟨[[119]], 0, fun c hc => ?_, by decide⟩
  rw [List.mem_singleton.mp hc]
  exact ⟨by decide, by decide⟩

theorem relativePath_iff_key_plain :
    workspaceGraphKey [47, 119, 47, 97, 47] [47, 119] = .ok ⟨[97], by decide⟩ :=
  ((relativePath_iff_key [47, 119] [47, 119, 47, 97, 47] ⟨[97], by decide⟩ normalRoot_w (by decide) (by decide)).mp
    (by decide)).1

/-- The key mapping passes over the empty component of `/w//a`, the tree does not. -/
theorem relativePath_doubled :
    ¬ ∀ (root path : Bytes) (key : VfsPath), NormalRoot root → path.head? = some slash →
      (relativePath (trimRoot root) path = some key ↔ workspaceGraphKey path root = .ok key) := by
  intro h
  have hkey : workspaceGraphKey [47, 119, 47, 47, 97] [47, 119] = .ok ⟨[97], by decide⟩ := by decide +kernel
  have hrel := (h [47, 119] [47, 119, 47, 47, 97] ⟨[97], by decide⟩ normalRoot_w (by decide)).mpr hkey
  exact absurd hrel (by decide)

end KinVfs
