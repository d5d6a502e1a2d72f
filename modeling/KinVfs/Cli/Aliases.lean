import KinVfs.Core.KeyMap
import KinVfs.Posix.Spelling
import KinVfs.Shim.Traversal
import Mathlib.Data.List.DropRight

/-!
# Workspace aliases (`crates/kin-vfs-cli/src/main.rs`, `shim_init` of `crates/kin-vfs-shim/src/lib.rs`)

`kin-vfs exec` resolves the repository once and hands the child its real root, and beside it the spelling that
the user gave. The shim matches paths against both without asking the host again. So the launcher has to be
right about the spelling for every path below it: what the shim maps to a key through an alias is the object
of that key under the real root (`aliases_name_workspace`).
-/

namespace KinVfs

open Posix (Fs names)
open Posix.Fs (Comp targetComps walk maxLinks)

namespace Aliases

/-- `REPOSITORY_IDENTITY_MARKER`: `.kin/manifest.json`. -/
def repositoryIdentityMarker : Bytes :=
  [46, 107, 105, 110, 47, 109, 97, 110, 105, 102, 101, 115, 116, 46, 106, 115, 111, 110]

/-- `std::fs::canonicalize` in the working directory `cwd`. -/
def canonicalize (fs : Fs) (cwd : Posix.Path) (path : Bytes) : Except Posix.ErrorKind Posix.Path :=
  if 0 ∈ path then .error .invalidInput
  else if path = [] then .error .notFound
  else walk fs maxLinks (if path.head? = some slash then [] else cwd) (targetComps path)

/-- `Path::is_file`. -/
def isFile (fs : Fs) (cwd : Posix.Path) (path : Bytes) : Bool :=
  match canonicalize fs cwd path with
  | .ok l => (fs.node l).any Posix.Node.isFile
  | .error _ => false

/-- `Path::join` with a relative path. -/
def join (base rel : Bytes) : Bytes :=
  if base.getLast? = some slash then base ++ rel else base ++ slash :: rel

/-- `PathBuf::pop` on an absolute path: the last name goes, with what the path does not count around it. -/
def pop (path : Bytes) : Option Bytes :=
  let components := ((path.drop 1).splitOn slash).rdropWhile fun c => !isNamed c
  if components = [] then none
  else some (slash :: joinComponents (components.dropLast.rdropWhile fun c => !isNamed c))

/-- Why no repository was found. -/
inductive FindError where
  | cannotResolve (e : Posix.ErrorKind)
  | noRepository
  deriving DecidableEq, Repr

/-- The loop of `find_workspace`, on the names of a directory from its last. -/
def findAbove (fs : Fs) (cwd : Posix.Path) : List Posix.Name → Except FindError Posix.Path
  | [] => if isFile fs cwd (join (pathBytes []) repositoryIdentityMarker) then .ok [] else .error .noRepository
  | n :: above =>
    if isFile fs cwd (join (pathBytes (n :: above).reverse) repositoryIdentityMarker) then .ok (n :: above).reverse
    else findAbove fs cwd above

def findWorkspace (fs : Fs) (cwd : Posix.Path) (start : Bytes) : Except FindError Posix.Path := do
  let dir ← (canonicalize fs cwd start).mapError .cannotResolve
  findAbove fs cwd dir.reverse

/-- `Path::strip_prefix` on real paths. -/
def stripPrefix (path base : Posix.Path) : Option Posix.Path :=
  if base.isPrefixOf path then some (path.drop base.length) else none

/-- `lexical_workspace_alias`. -/
def lexicalWorkspaceAlias (fs : Fs) (cwd : Posix.Path) (start : Bytes) (canonicalRoot : Posix.Path) :
    Option Bytes := do
  if Comp.up ∈ targetComps start then none
  let canonicalStart ← (canonicalize fs cwd start).toOption
  let suffix ← stripPrefix canonicalStart canonicalRoot
  let absolute := if start.head? = some slash then start else join (pathBytes cwd) start
  let lexical ← suffix.foldlM (fun path _ => pop path) absolute
  -- Only a spelling that resolves to the root counts.
  if (canonicalize fs cwd lexical).toOption = some canonicalRoot then some lexical else none

/-- The directories that macOS reaches by a link of the system. -/
def macosPrefixes : List (Posix.Path × Posix.Path) :=
  let priv : Posix.Name := [112, 114, 105, 118, 97, 116, 101]
  let linked (n : Posix.Name) : Posix.Path × Posix.Path := ([priv, n], [n])
  [linked [118, 97, 114], linked [116, 109, 112], linked [101, 116, 99]]

def macosSystemWorkspaceAlias (canonicalRoot : Posix.Path) : Option Bytes :=
  macosPrefixes.findSome? fun entry =>
    (stripPrefix canonicalRoot entry.1).map fun suffix => join (pathBytes entry.2) (joinComponents suffix)

/-- Paths are equal when their components are. -/
def samePath (a b : Bytes) : Bool := namesOf a == namesOf b

/-- The check of both branches of `trusted_workspace_aliases`. -/
def pushAlias (fs : Fs) (cwd canonicalRoot : Posix.Path) (aliases : List Bytes) (spelling : Option Bytes) :
    List Bytes :=
  match spelling with
  | some spelling =>
    if !samePath spelling (pathBytes canonicalRoot) && !aliases.any (samePath spelling) &&
        decide ((canonicalize fs cwd spelling).toOption = some canonicalRoot) then aliases ++ [spelling]
    else aliases
  | none => aliases

/-- `trusted_workspace_aliases`; `macos` is the target the launcher is built for. -/
def trustedWorkspaceAliases (macos : Bool) (fs : Fs) (cwd : Posix.Path) (start : Bytes) (canonicalRoot : Posix.Path) :
    List Bytes :=
  let aliases := pushAlias fs cwd canonicalRoot [] (lexicalWorkspaceAlias fs cwd start canonicalRoot)
  if macos then pushAlias fs cwd canonicalRoot aliases (macosSystemWorkspaceAlias canonicalRoot) else aliases

/-- The separator of a path list. -/
def colon : UInt8 := 58

/-- `set_verified_workspace_alias_env`: the variable of the child, which is removed before it is set. A path with
the separator in it cannot be written down. -/
def setVerifiedWorkspaceAliasEnv (_inherited : Option Bytes) (aliases : List Bytes) : Except String (Option Bytes) :=
  if aliases = [] then .ok none
  else if aliases.any (·.contains colon) then
    .error "workspace alias contains the platform path-list separator"
  else .ok (some ([colon].intercalate aliases))

/-- What `shim_init` makes of the variable. -/
def readAliases (value : Option Bytes) : List Bytes :=
  (value.map fun value => (value.splitOn colon).filter (· ≠ [])).getD []

/-- `root_is_kin_repository`. -/
def rootIsKinRepository (fs : Fs) (cwd : Posix.Path) (root : Bytes) : Bool :=
  isFile fs cwd (joinAtPath root repositoryIdentityMarker)

/-! ## Resolving a path by its names -/

variable {fs : Fs} {cwd ws l : Posix.Path} {path root start : Bytes} {key : VfsPath}

theorem canonicalize_ok : canonicalize fs cwd path = .ok l ↔ 0 ∉ path ∧ path ≠ [] ∧
    walk fs maxLinks (if path.head? = some slash then [] else cwd) (targetComps path) = .ok l := by
  unfold canonicalize
  by_cases h0 : (0 : UInt8) ∈ path
  · simp [h0]
  · by_cases hne : path = [] <;> simp [h0, hne]

/-- An absolute path does not depend on the working directory. -/
theorem canonicalize_absolute (habs : path.head? = some slash) :
    canonicalize fs cwd path = .ok l ↔ 0 ∉ path ∧ walk fs maxLinks [] (targetComps path) = .ok l := by
  rw [canonicalize_ok, if_pos habs]
  have hne : path ≠ [] := by
    rintro rfl
    cases habs
  simp [hne]

theorem level_targetComps (h : ∀ c ∈ path.splitOn slash, c ≠ [dot, dot]) : Posix.Level (targetComps path) := by
  intro hup
  obtain ⟨c, hc, heq⟩ := List.mem_map.mp hup
  split at heq
  · cases heq
  · split at heq
    · rename_i hdots
      exact h c hc hdots
    · cases heq

theorem names_targetComps (h : ∀ c ∈ path.splitOn slash, c ≠ [dot, dot]) :
    names (targetComps path) = namesOf path := by
  unfold targetComps namesOf
  change names ((path.splitOn slash).map _) = _
  generalize path.splitOn slash = cs at h
  induction cs with
  | nil => rfl
  | cons c cs ih =>
    have htail := ih fun d hd => h d (List.mem_cons_of_mem _ hd)
    have hc := h c List.mem_cons_self
    rw [List.map_cons]
    by_cases hskip : c = [] ∨ c = [46]
    · have hnot : isNamed c = false := by
        rcases hskip with rfl | rfl <;> rfl
      rw [if_pos hskip, Posix.names_cur, List.filter_cons_of_neg (by simp [hnot]), htail]
    · have hnamed : isNamed c = true := by
        rw [not_or] at hskip
        simp [isNamed, hskip, dot]
      have hname : ¬ c = [46, 46] := hc
      rw [if_neg hskip, if_neg hname, Posix.names_name, List.filter_cons_of_pos hnamed, htail]

/-- The components of a path on this host. -/
theorem hostComponents_absolute (habs : path.head? = some slash) {drive : Option Bytes} {cs : List Bytes}
    (h : hostComponents path = .ok (drive, cs)) : drive = none ∧ Clean path ∧ cs = namesOf path := by
  obtain ⟨rest, hrest, hclean, rfl⟩ := hostComponents_iff.mp h
  cases drive with
  | none =>
    obtain ⟨-, rfl⟩ := hrest
    exact ⟨rfl, hclean, rfl⟩
  | some d => exact absurd habs hrest.1

theorem hostComponents_clean (habs : path.head? = some slash) (h : Clean path) :
    hostComponents path = .ok (none, namesOf path) :=
  hostComponents_iff.mpr ⟨path, ⟨habs, rfl⟩, h, rfl⟩

/-- What a path reaches, its names reach. -/
theorem walk_namesOf {k : Nat} {cur : Posix.Path} (hclean : Clean path) (h : walk fs k cur (targetComps path) = .ok l) :
    walk fs k cur ((namesOf path).map .name) = .ok l := by
  have hdots : ∀ c ∈ path.splitOn slash, c ≠ [dot, dot] := fun c hc => (hclean c hc).1
  rw [← names_targetComps hdots]
  exact Posix.Fs.walk_names (level_targetComps hdots) h

/-- A root on this host maps a path to a key when the names of the path are its own and behind them the key's. -/
theorem names_of_workspaceGraphKey (hroot : root.head? = some slash) (h : workspaceGraphKey path root = .ok key) :
    path.head? = some slash ∧ Clean path ∧ Clean root ∧ namesOf path = namesOf root ++ key.components := by
  obtain ⟨drive, drive', p, r, front, rest, hp, hr, hsame, hpclean, hrclean, hsplit, hfront, hkey⟩ :=
    workspaceGraphKey_ok_iff.mp h
  cases drive' with
  | some d => exact absurd hroot hr.1
  | none =>
    cases drive with
    | some d => cases hsame
    | none =>
      obtain ⟨hpath, rfl⟩ := hp
      obtain ⟨-, rfl⟩ := hr
      have hfront : front = namesOf r := List.forall₂_eq_eq_eq ▸ hfront
      have hrest : ∀ c ∈ rest, IsComponent c := fun c hc =>
        isComponent_of_mem_namesOf hpclean (by rw [hsplit]; exact List.mem_append_right _ hc)
      refine ⟨hpath, hpclean, hrclean, ?_⟩
      rw [hsplit, hfront, VfsPath.components_of_bytes hrest hkey]

/-! ## The repository -/

/-- The loop stops at a directory above where it starts, and that directory holds the marker. -/
theorem findAbove_ok {rev : List Posix.Name} (h : findAbove fs cwd rev = .ok ws) :
    ws <+: rev.reverse ∧ isFile fs cwd (join (pathBytes ws) repositoryIdentityMarker) = true := by
  induction rev with
  | nil =>
    rw [findAbove] at h
    split at h
    · cases h
      exact ⟨List.prefix_rfl, ‹_›⟩
    · cases h
  | cons n above ih =>
    rw [findAbove] at h
    split at h
    · cases h
      exact ⟨List.prefix_rfl, ‹_›⟩
    · obtain ⟨hpre, hfile⟩ := ih h
      refine ⟨hpre.trans ?_, hfile⟩
      rw [List.reverse_cons]
      exact List.prefix_append _ _

/-- What is known of the root that `find_workspace` gives. -/
structure Repository (fs : Fs) (ws : Posix.Path) : Prop where
  isDir : fs.isDir ws = true
  names : ∀ c ∈ ws, IsComponent c
  marker : ∀ cwd, rootIsKinRepository fs cwd (pathBytes ws) = true

/-- A path below a real directory, from that directory. -/
theorem canonicalize_below (hdir : fs.isDir ws = true) (hws : ∀ c ∈ ws, IsComponent c) {rel : Bytes} (h0 : 0 ∉ rel) :
    canonicalize fs cwd (pathBytes ws ++ slash :: rel) = .ok l ↔ walk fs maxLinks ws (targetComps rel) = .ok l := by
  have hnul : (0 : UInt8) ∉ pathBytes ws ++ slash :: rel := by
    simp only [List.mem_append, List.mem_cons, not_or]
    exact ⟨nul_pathBytes hws, by decide, h0⟩
  rw [canonicalize_absolute (head?_append_pathBytes ws _), targetComps_append, walk_pathBytes hws hdir]
  simp [hnul]

theorem join_pathBytes {rel : Bytes} (hne : ws ≠ []) (hws : ∀ c ∈ ws, IsComponent c) :
    join (pathBytes ws) rel = pathBytes ws ++ slash :: rel := by
  obtain ⟨above, n, rfl⟩ : ∃ above n, ws = above ++ [n] := ⟨_, _, (List.dropLast_append_getLast hne).symm⟩
  have hn := hws n (by simp)
  have hlast : (pathBytes (above ++ [n])).getLast? ≠ some slash := by
    have hn0 : n ≠ [] := (validateComponent_ok.mp hn.1).1
    unfold pathBytes
    rw [if_neg hne, List.flatMap_append, List.getLast?_append, List.flatMap_singleton, List.getLast?_cons]
    intro hcon
    have hmem : slash ∈ n := by
      rw [List.getLast?_eq_some_getLast hn0] at hcon
      simp only [Option.getD_some, Option.some_or, Option.some.injEq] at hcon
      rw [← hcon]
      exact List.getLast_mem hn0
    exact hn.2 hmem
  rw [join, if_neg hlast]

/-- A prefix of a real path is real. -/
theorem real_of_prefix {d : Posix.Path} (hd : fs.Real d) (h : ws <+: d) : fs.Real ws := by
  obtain ⟨rest, rfl⟩ := h
  by_cases hrest : rest = []
  · subst hrest
    rwa [List.append_nil] at hd
  · refine Posix.Fs.real_of_dir (Posix.Fs.isDir_of_append ?_ hrest)
    rw [Option.isSome_iff_ne_none]
    exact fun hnone => hd.1 (Posix.Fs.shape_eq_none.mpr hnone)

/-- A directory is found by its bytes. -/
theorem isDir_of_walk_pathBytes {comps : List Comp} {n : Posix.Name} (hreal : fs.Real ws)
    (hws : ∀ c ∈ ws, IsComponent c) (h : walk fs maxLinks [] (targetComps (pathBytes ws) ++ .name n :: comps) = .ok l) :
    fs.isDir ws = true := by
  obtain ⟨mid, j, -, hmid, hrest⟩ := Posix.Fs.walk_append_ok h
  have hclean := (hostComponents_absolute (head?_pathBytes ws) (hostComponents_pathBytes hws)).2
  have hnames := walk_namesOf hclean.1 hmid
  rw [← hclean.2] at hnames
  have hself : fs.canonicalize ws = .ok ws := Posix.Fs.canonicalize_of_shape hreal.1 hreal.2
  cases hself.symm.trans hnames
  cases j with
  | zero => exact (Posix.Fs.walkWith_cons_ok hrest).1
  | succ j => exact (Posix.Fs.walkWith_cons_ok hrest).1

theorem findWorkspace_repository (hcwd : fs.isDir cwd = true) (hcwdNames : ∀ c ∈ cwd, IsComponent c) (hfs : NulFree fs)
    (h : findWorkspace fs cwd start = .ok ws) : Repository fs ws := by
  unfold findWorkspace at h
  cases hstart : canonicalize fs cwd start with
  | error e =>
    rw [hstart] at h
    cases h
  | ok dir =>
    rw [hstart] at h
    obtain ⟨hpre, hfile⟩ := findAbove_ok h
    rw [List.reverse_reverse] at hpre
    obtain ⟨h0, -, hwalk⟩ := canonicalize_ok.mp hstart
    have hfromReal : fs.Real (if start.head? = some slash then [] else cwd) := by
      split
      · exact Posix.Fs.real_root fs
      · exact Posix.Fs.real_of_dir hcwd
    have hfromNames : ∀ c ∈ (if start.head? = some slash then [] else cwd), IsComponent c := by
      split
      · simp
      · exact hcwdNames
    have hdirNames := isComponent_walk hfs hfromNames (fun n hn => isComponent_of_target h0 hn) hwalk
    have hreal : fs.Real ws := real_of_prefix (Posix.Fs.walk_real hfromReal hwalk) hpre
    have hnames : ∀ c ∈ ws, IsComponent c := fun c hc => hdirNames c (hpre.subset hc)
    have hmarker : (0 : UInt8) ∉ repositoryIdentityMarker := by decide
    unfold isFile at hfile
    cases hl : canonicalize fs cwd (join (pathBytes ws) repositoryIdentityMarker) with
    | error e =>
      rw [hl] at hfile
      cases hfile
    | ok l =>
      rw [hl] at hfile
      -- Both spellings of the marker lead from the root to the same file.
      have hbelow : fs.isDir ws = true ∧ walk fs maxLinks ws (targetComps repositoryIdentityMarker) = .ok l := by
        by_cases hne : ws = []
        · subst hne
          have hpath : join (pathBytes []) repositoryIdentityMarker = [] ++ slash :: repositoryIdentityMarker := rfl
          rw [hpath, canonicalize_absolute rfl, targetComps_append] at hl
          exact ⟨fs.rootDir, Posix.Fs.walk_thins (Nat.le_refl _) (.drop (.refl _)) hl.2⟩
        · rw [join_pathBytes hne hnames] at hl
          have hdir : fs.isDir ws = true := by
            rw [canonicalize_absolute (head?_append_pathBytes ws _), targetComps_append] at hl
            exact isDir_of_walk_pathBytes hreal hnames hl.2
          exact ⟨hdir, (canonicalize_below hdir hnames hmarker).mp hl⟩
      refine ⟨hbelow.1, hnames, fun cwd => ?_⟩
      have hjoin : joinAtPath (pathBytes ws) repositoryIdentityMarker =
          pathBytes ws ++ slash :: repositoryIdentityMarker := rfl
      rw [rootIsKinRepository, isFile, hjoin, (canonicalize_below hbelow.1 hnames hmarker).mpr hbelow.2]
      exact hfile

/-! ## The aliases -/

/-- An absolute path without `..`. -/
def Lexical (path : Bytes) : Prop := path.head? = some slash ∧ ∀ c ∈ path.splitOn slash, c ≠ [dot, dot]

/-- Another spelling of the root: the names differ, the object is the same. -/
structure Spells (fs : Fs) (ws : Posix.Path) (spelling : Bytes) : Prop where
  lexical : Lexical spelling
  other : namesOf spelling ≠ ws
  same : ∀ cwd, canonicalize fs cwd spelling = .ok ws

theorem up_not_mem_targetComps (h : Comp.up ∉ targetComps path) : ∀ c ∈ path.splitOn slash, c ≠ [dot, dot] := by
  rintro c hc rfl
  exact h (List.mem_map.mpr ⟨[dot, dot], hc, rfl⟩)

/-- What `join` gives has the components of its parts, and no other but empty ones. -/
theorem mem_splitOn_join {base rel c : Bytes} (h : c ∈ (join base rel).splitOn slash) :
    c ∈ base.splitOn slash ∨ c ∈ rel.splitOn slash := by
  unfold join at h
  split at h
  · rename_i hlast
    obtain ⟨front, hfront⟩ : ∃ front, base = front ++ [slash] := by
      have hne : base ≠ [] := by
        rintro rfl
        cases hlast
      rw [List.getLast?_eq_some_getLast hne, Option.some.injEq] at hlast
      exact ⟨base.dropLast, by rw [← hlast, List.dropLast_append_getLast hne]⟩
    subst hfront
    rw [List.append_assoc, List.singleton_append, List.splitOn_append_cons_self, List.mem_append] at h
    rw [List.splitOn_append_cons_self, List.mem_append]
    tauto
  · rw [List.splitOn_append_cons_self, List.mem_append] at h
    exact h

theorem Lexical.join {base rel : Bytes} (hbase : Lexical base) (hrel : ∀ c ∈ rel.splitOn slash, c ≠ [dot, dot]) :
    Lexical (join base rel) := by
  refine ⟨?_, fun c hc => ?_⟩
  · cases base with
    | nil => cases hbase.1
    | cons b base =>
      unfold Aliases.join
      split <;> exact hbase.1
  · rcases mem_splitOn_join hc with hc | hc
    · exact hbase.2 c hc
    · exact hrel c hc

theorem lexical_pathBytes (h : ∀ c ∈ ws, IsComponent c) : Lexical (pathBytes ws) := by
  have hhost := (hostComponents_absolute (head?_pathBytes ws) (hostComponents_pathBytes h)).2.1
  exact ⟨head?_pathBytes ws, fun c hc => (hhost c hc).1⟩

theorem splitOn_slash_cons (rest : Bytes) : (slash :: rest).splitOn slash = [] :: rest.splitOn slash :=
  List.splitOn_append_cons_self [] rest

theorem Lexical.pop {shorter : Bytes} (h : Lexical path) (hpop : pop path = some shorter) : Lexical shorter := by
  obtain ⟨rest, rfl⟩ : ∃ rest, path = slash :: rest := List.head?_eq_some_iff.mp h.1
  unfold Aliases.pop at hpop
  rw [List.drop_succ_cons, List.drop_zero] at hpop
  dsimp only at hpop
  split at hpop
  · cases hpop
  · cases hpop
    refine ⟨rfl, fun c hc => ?_⟩
    rw [splitOn_slash_cons, List.mem_cons] at hc
    set kept := ((rest.splitOn slash).rdropWhile fun c => !isNamed c).dropLast.rdropWhile fun c => !isNamed c
    have hsub : kept ⊆ rest.splitOn slash := fun d hd =>
      (List.rdropWhile_prefix _ _).subset ((List.dropLast_subset _) ((List.rdropWhile_prefix _ _).subset hd))
    have hin : c ∈ kept ∨ c = [] := by
      rcases hc with hc | hc
      · exact .inr hc
      · by_cases hne : kept = []
        · rw [hne, joinComponents_nil, List.splitOn_nil, List.mem_singleton] at hc
          exact .inr hc
        · rw [joinComponents, List.splitOn_intercalate slash (fun d hd => slash_not_mem_splitOn (hsub hd)) hne] at hc
          exact .inl hc
    rcases hin with hin | rfl
    · exact h.2 c (by rw [splitOn_slash_cons]; exact List.mem_cons_of_mem _ (hsub hin))
    · simp

theorem lexical_foldlM {depth : List Posix.Name} {lexical : Bytes} (h : Lexical path)
    (hpop : depth.foldlM (fun path _ => pop path) path = some lexical) : Lexical lexical := by
  induction depth generalizing path with
  | nil =>
    cases hpop
    exact h
  | cons n depth ih =>
    rw [List.foldlM_cons] at hpop
    obtain ⟨shorter, hone, hrest⟩ := Option.bind_eq_some_iff.mp hpop
    exact ih (h.pop hone) hrest

theorem lexical_of_alias (hcwdNames : ∀ c ∈ cwd, IsComponent c) {lexical : Bytes}
    (h : lexicalWorkspaceAlias fs cwd start ws = some lexical) : Lexical lexical := by
  unfold lexicalWorkspaceAlias at h
  by_cases hup : Comp.up ∈ targetComps start
  · rw [if_pos hup] at h
    cases h
  · rw [if_neg hup] at h
    obtain ⟨-, -, h⟩ := Option.bind_eq_some_iff.mp h
    obtain ⟨canonicalStart, -, h⟩ := Option.bind_eq_some_iff.mp h
    obtain ⟨suffix, -, h⟩ := Option.bind_eq_some_iff.mp h
    obtain ⟨popped, hpop, h⟩ := Option.bind_eq_some_iff.mp h
    split at h
    · cases h
      refine lexical_foldlM ?_ hpop
      have hstart := up_not_mem_targetComps hup
      split
      · exact ⟨‹_›, hstart⟩
      · exact (lexical_pathBytes hcwdNames).join hstart
    · cases h

theorem lexical_of_macos (hws : ∀ c ∈ ws, IsComponent c) {lexical : Bytes}
    (h : macosSystemWorkspaceAlias ws = some lexical) : Lexical lexical := by
  obtain ⟨entry, hentry, h⟩ := List.exists_of_findSome?_eq_some h
  obtain ⟨suffix, hsuffix, rfl⟩ := Option.map_eq_some_iff.mp h
  have hbase : ∀ entry ∈ macosPrefixes, (pathBytes entry.2).head? = some slash ∧
      ∀ c ∈ (pathBytes entry.2).splitOn slash, c ≠ [dot, dot] := by decide
  refine Lexical.join (hbase entry hentry) fun c hc => ?_
  unfold stripPrefix at hsuffix
  split at hsuffix
  · cases hsuffix
    have hrest : ∀ c ∈ ws.drop entry.1.length, IsComponent c := fun c hc => hws c (List.mem_of_mem_drop hc)
    by_cases hne : ws.drop entry.1.length = []
    · rw [hne, joinComponents_nil, List.splitOn_nil, List.mem_singleton] at hc
      subst hc
      decide
    · rw [splitOn_joinComponents hrest hne] at hc
      exact (validateComponent_ok.mp (hrest c hc).1).2.2.1
  · cases hsuffix

theorem namesOf_pathBytes (hws : ∀ c ∈ ws, IsComponent c) : namesOf (pathBytes ws) = ws :=
  (hostComponents_absolute (head?_pathBytes ws) (hostComponents_pathBytes hws)).2.2.symm

/-- The check that both branches make is enough. -/
theorem spells_pushAlias (hws : ∀ c ∈ ws, IsComponent c) {aliases : List Bytes} {spelling : Option Bytes}
    (haliases : ∀ a ∈ aliases, Spells fs ws a) (hlexical : ∀ a ∈ spelling, Lexical a) :
    ∀ a ∈ pushAlias fs cwd ws aliases spelling, Spells fs ws a := by
  intro a ha
  unfold pushAlias at ha
  split at ha
  · rename_i b
    split at ha
    · rename_i hchecks
      rcases List.mem_append.mp ha with ha | ha
      · exact haliases a ha
      · rw [List.mem_singleton] at ha
        subst ha
        rw [Bool.and_eq_true, Bool.and_eq_true, decide_eq_true_eq] at hchecks
        obtain ⟨⟨hother, -⟩, hsame⟩ := hchecks
        have hlex : Lexical a := hlexical a rfl
        refine ⟨hlex, ?_, fun cwd' => ?_⟩
        · rw [samePath, namesOf_pathBytes hws] at hother
          simpa using hother
        · have hok : canonicalize fs cwd a = .ok ws := by
            cases hc : canonicalize fs cwd a with
            | error e =>
              rw [hc] at hsame
              cases hsame
            | ok l =>
              rw [hc] at hsame
              exact congrArg _ (Option.some.inj hsame)
          rw [canonicalize_absolute hlex.1] at hok ⊢
          exact hok
    · exact haliases a ha
  · exact haliases a ha

theorem spells_trusted {macos : Bool} (hcwdNames : ∀ c ∈ cwd, IsComponent c) (hws : ∀ c ∈ ws, IsComponent c) :
    ∀ a ∈ trustedWorkspaceAliases macos fs cwd start ws, Spells fs ws a := by
  have hfirst : ∀ a ∈ pushAlias fs cwd ws [] (lexicalWorkspaceAlias fs cwd start ws), Spells fs ws a :=
    spells_pushAlias hws (by simp) fun a ha => lexical_of_alias hcwdNames ha
  unfold trustedWorkspaceAliases
  dsimp only
  split
  · exact spells_pushAlias hws hfirst fun a ha => lexical_of_macos hws ha
  · exact hfirst

/-- The shim reads the list that the launcher wrote. -/
theorem readAliases_set {inherited value : Option Bytes} {aliases : List Bytes} (hne : ∀ a ∈ aliases, a ≠ [])
    (h : setVerifiedWorkspaceAliasEnv inherited aliases = .ok value) : readAliases value = aliases := by
  unfold setVerifiedWorkspaceAliasEnv at h
  split at h
  · cases h
    symm
    assumption
  · rename_i hsome
    split at h
    · cases h
    · rename_i hcolon
      cases h
      have hfree : ∀ a ∈ aliases, colon ∉ a := by
        intro a ha hin
        refine hcolon (List.any_eq_true.mpr ⟨a, ha, ?_⟩)
        simpa using hin
      rw [readAliases, Option.map_some, Option.getD_some, List.splitOn_intercalate colon hfree hsome,
        List.filter_eq_self]
      intro a ha
      simpa using hne a ha

/-! ## What the shim makes of them -/

theorem canonicalize_root (h : Repository fs ws) : canonicalize fs cwd (pathBytes ws) = .ok ws := by
  refine (canonicalize_absolute (head?_pathBytes ws)).mpr ⟨nul_pathBytes h.names, ?_⟩
  have hwalk := walk_pathBytes h.names h.isDir maxLinks []
  rw [List.append_nil] at hwalk
  rw [hwalk]
  rfl

/-- A root of the shim is the repository, or another spelling of it. -/
theorem canonicalize_of_root (h : Repository fs ws) (hroot : root = pathBytes ws ∨ Spells fs ws root) :
    root.head? = some slash ∧ canonicalize fs cwd root = .ok ws := by
  rcases hroot with rfl | hspells
  · exact ⟨head?_pathBytes ws, canonicalize_root h⟩
  · exact ⟨hspells.lexical.1, hspells.same cwd⟩

theorem mem_of_mem_joinComponents {cs : List Bytes} {b : UInt8} (h : b ∈ joinComponents cs) :
    b = slash ∨ ∃ c ∈ cs, b ∈ c := by
  induction cs with
  | nil => cases h
  | cons c cs ih =>
    cases cs with
    | nil =>
      rw [joinComponents_singleton] at h
      exact .inr ⟨c, List.mem_cons_self, h⟩
    | cons d cs =>
      have hsplit : joinComponents (c :: d :: cs) = c ++ slash :: joinComponents (d :: cs) := by
        simp [joinComponents, List.intercalate_cons_cons]
      rw [hsplit, List.mem_append, List.mem_cons] at h
      rcases h with h | h | h
      · exact .inr ⟨c, List.mem_cons_self, h⟩
      · exact .inl h
      · rcases ih h with h | ⟨e, he, hmem⟩
        · exact .inl h
        · exact .inr ⟨e, List.mem_cons_of_mem _ he, hmem⟩

theorem nul_not_mem_key (key : VfsPath) : (0 : UInt8) ∉ key.bytes := by
  rw [key.components_spec.2]
  intro h0
  rcases mem_of_mem_joinComponents h0 with hcon | ⟨c, hc, hmem⟩
  · cases hcon
  · exact (validateComponent_ok.mp (key.isComponent hc).1).2.2.2 hmem

theorem targetComps_key (hne : key ≠ .root) : targetComps key.bytes = key.components.map .name := by
  unfold targetComps
  change (key.bytes.splitOn slash).map _ = _
  rw [← VfsPath.components_eq_splitOn hne]
  refine List.map_congr_left fun c hc => ?_
  obtain ⟨hnil, hdot, hdots, -⟩ := validateComponent_ok.mp (key.isComponent hc).1
  have hskip : ¬ (c = [] ∨ c = [46]) := not_or.mpr ⟨hnil, hdot⟩
  have hup : ¬ c = [46, 46] := hdots
  rw [if_neg hskip, if_neg hup]

/-- What a path below any root reaches, its key reaches below the real one. -/
theorem same_object (h : Repository fs ws) (hroot : root = pathBytes ws ∨ Spells fs ws root)
    (hkey : workspaceGraphKey path root = .ok key) (hl : canonicalize fs cwd path = .ok l) :
    canonicalize fs cwd (hostPath (pathBytes ws) key) = .ok l := by
  obtain ⟨hrootAbs, hrootWs⟩ : root.head? = some slash ∧ canonicalize fs cwd root = .ok ws :=
    canonicalize_of_root h hroot
  obtain ⟨hpathAbs, hpathClean, hrootClean, hnames⟩ := names_of_workspaceGraphKey hrootAbs hkey
  -- The names of the path lead through the root, and that is the repository.
  have hwalk := walk_namesOf hpathClean ((canonicalize_absolute hpathAbs).mp hl).2
  rw [hnames, List.map_append] at hwalk
  obtain ⟨mid, j, hj, hmid, hrest⟩ := Posix.Fs.walk_append_ok hwalk
  have hsame := walk_namesOf hrootClean ((canonicalize_absolute hrootAbs).mp hrootWs).2
  cases hmid.symm.trans hsame
  have hbelow := Posix.Fs.walk_mono hj hrest
  unfold hostPath
  split
  · rename_i hisRoot
    rw [VfsPath.isRoot_iff] at hisRoot
    rw [hisRoot, VfsPath.components_root] at hbelow
    cases hbelow
    exact canonicalize_root h
  · rename_i hisRoot
    have hne : key ≠ .root := fun hcon => hisRoot (VfsPath.isRoot_iff.mpr hcon)
    rw [joinAtPath_key]
    refine (canonicalize_below h.isDir h.names (nul_not_mem_key key)).mpr ?_
    rw [targetComps_key hne]
    exact hbelow

theorem Spells.clean (h : Spells fs ws root) : Clean root := by
  intro c hc
  refine ⟨h.lexical.2 c hc, fun h0 => ?_⟩
  exact ((canonicalize_absolute h.lexical.1).mp (h.same [])).1 (mem_of_mem_splitOn hc h0)

/-- No alias lies above the repository: down to a real directory there are no links. -/
theorem not_above (h : Repository fs ws) (hspells : Spells fs ws root) : ¬ namesOf root <+: ws := by
  intro hpre
  have hwalk := walk_namesOf hspells.clean ((canonicalize_absolute hspells.lexical.1).mp (hspells.same [])).2
  have hreal := real_of_prefix (Posix.Fs.real_of_dir h.isDir) hpre
  have hself : fs.canonicalize (namesOf root) = .ok (namesOf root) :=
    Posix.Fs.canonicalize_of_shape hreal.1 hreal.2
  have heq : ws = namesOf root := Except.ok.inj (hwalk.symm.trans hself)
  exact hspells.other heq.symm

/-- An alias that is itself a path of the workspace gives every path below it a second key. -/
theorem key_inside (h : Repository fs ws) (hspells : Spells fs ws root) (hin : ws <+: namesOf root) :
    ∃ other, other ≠ key ∧ workspaceGraphKey (hostPath root key) (pathBytes ws) = .ok other := by
  obtain ⟨rest, hrest⟩ := hin
  have hcomps : ∀ c ∈ rest ++ key.components, IsComponent c := by
    intro c hc
    rcases List.mem_append.mp hc with hc | hc
    · exact isComponent_of_mem_namesOf hspells.clean (by rw [← hrest]; exact List.mem_append_right _ hc)
    · exact key.isComponent hc
  refine ⟨.ofComponents (rest ++ key.components) hcomps, fun heq => ?_, ?_⟩
  · have hcs := congrArg VfsPath.components heq
    rw [VfsPath.components_ofComponents] at hcs
    have hnil : rest = [] := List.append_left_eq_self.mp hcs
    rw [hnil, List.append_nil] at hrest
    exact hspells.other hrest.symm
  · refine workspaceGraphKey_of_components (hostComponents_pathBytes h.names) ?_
    rw [hostComponents_hostPath (hostComponents_clean hspells.lexical.1 hspells.clean) key,
      VfsPath.components_ofComponents, ← hrest, List.append_assoc]

/-- A path below the alias has its key, unless the alias is itself a path of the workspace: then it is refused. -/
theorem key_below_alias (h : Repository fs ws) (hspells : Spells fs ws root) :
    workspaceGraphKeyFromRoots (hostPath root key) [pathBytes ws, root] =
      if ws <+: namesOf root then .error .aliasAmbiguity else .ok key := by
  have hrootHost := hostComponents_clean hspells.lexical.1 hspells.clean
  have hwsHost : hostComponents (pathBytes ws) = .ok (none, ws) := hostComponents_pathBytes h.names
  have hpathHost := hostComponents_hostPath hrootHost key
  have hown : workspaceGraphKey (hostPath root key) root = .ok key :=
    workspaceGraphKey_of_components hrootHost hpathHost
  split
  · rename_i hin
    obtain ⟨other, hne, hother⟩ := key_inside h hspells hin
    have hfirst : tryRoot (hostPath root key) (none, false) (pathBytes ws) = .ok (some other, false) := by
      rw [tryRoot, hother]
      rfl
    have hsecond : tryRoot (hostPath root key) (some other, false) root = .error .aliasAmbiguity := by
      rw [tryRoot, hown]
      exact if_pos (by simpa using hne)
    have hfold : [pathBytes ws, root].foldlM (tryRoot (hostPath root key)) (none, false) =
        .error .aliasAmbiguity := by
      rw [List.foldlM_cons, hfirst]
      change [root].foldlM (tryRoot (hostPath root key)) (some other, false) = _
      rw [List.foldlM_cons, hsecond]
      rfl
    rw [workspaceGraphKeyFromRoots, hfold]
    rfl
  · rename_i hout
    rw [workspaceGraphKeyFromRoots_iff]
    have hrefused : ∀ p cs, hostComponents p = .ok (none, cs) → ¬ Refused p := by
      rintro p cs hp (hcon | hcon) <;> cases hp.symm.trans hcon
    refine ⟨⟨root, by simp, hown⟩, ?_, hrefused _ _ hpathHost, ?_⟩
    · intro r hr k hk
      rcases List.mem_pair.mp hr with rfl | rfl
      · obtain ⟨-, -, -, hnames⟩ := names_of_workspaceGraphKey (head?_pathBytes ws) hk
        have hpath : namesOf root ++ key.components = ws ++ k.components := by
          rw [namesOf_pathBytes h.names] at hnames
          rw [← hnames]
          exact (hostComponents_absolute (hostComponents_unix.mp hpathHost).1 hpathHost).2.2
        rcases List.append_eq_append_iff.mp hpath with ⟨rest, hws, -⟩ | ⟨rest, hroot, -⟩
        · exact absurd ⟨rest, hws.symm⟩ (not_above h hspells)
        · exact absurd ⟨rest, hroot.symm⟩ hout
      · exact Except.ok.inj (hk.symm.trans hown)
    · intro r hr
      rcases List.mem_pair.mp hr with rfl | rfl
      · exact hrefused _ _ hwsHost
      · exact hrefused _ _ hrootHost

theorem trusted_linux (fs : Fs) (cwd : Posix.Path) (start : Bytes) (ws : Posix.Path) :
    trustedWorkspaceAliases false fs cwd start ws = [] ∨
      ∃ a, trustedWorkspaceAliases false fs cwd start ws = [a] := by
  unfold trustedWorkspaceAliases pushAlias
  dsimp only
  rw [if_neg (by simp)]
  cases lexicalWorkspaceAlias fs cwd start ws with
  | none => exact .inl rfl
  | some a =>
    dsimp only
    split
    · exact .inr ⟨a, rfl⟩
    · exact .inl rfl

/-- From the launcher to the mapping in the child, for every tree of the host, every way to name the workspace and
whatever the launcher inherited. The shim reads the aliases that were written, and takes the root for a repository.
A path that it maps to a key, through whichever root, is the object of that key under the real root. On Linux a
path below the alias has its key exactly when the alias does not lie in the workspace; else it is ambiguous. -/
theorem aliases_name_workspace {macos : Bool} {inherited value : Option Bytes} (hcwd : fs.isDir cwd = true)
    (hcwdNames : ∀ c ∈ cwd, IsComponent c) (hfs : NulFree fs) (hws : findWorkspace fs cwd start = .ok ws)
    (hset : setVerifiedWorkspaceAliasEnv inherited (trustedWorkspaceAliases macos fs cwd start ws) = .ok value) :
    readAliases value = trustedWorkspaceAliases macos fs cwd start ws ∧
      (∀ cwd', rootIsKinRepository fs cwd' (pathBytes ws) = true) ∧
      (∀ cwd' path key l, workspaceGraphKeyFromRoots path (pathBytes ws :: readAliases value) = .ok key →
        canonicalize fs cwd' path = .ok l → canonicalize fs cwd' (hostPath (pathBytes ws) key) = .ok l) ∧
      (macos = false → ∀ a ∈ readAliases value, ∀ key,
        (workspaceGraphKeyFromRoots (hostPath a key) (pathBytes ws :: readAliases value) = .ok key ↔
          ¬ ws <+: namesOf a) ∧
        (ws <+: namesOf a →
          workspaceGraphKeyFromRoots (hostPath a key) (pathBytes ws :: readAliases value) =
            .error .aliasAmbiguity)) := by
  have hrepo := findWorkspace_repository hcwd hcwdNames hfs hws
  have hspells : ∀ a ∈ trustedWorkspaceAliases macos fs cwd start ws, Spells fs ws a :=
    spells_trusted hcwdNames hrepo.names
  have hread : readAliases value = trustedWorkspaceAliases macos fs cwd start ws := by
    refine readAliases_set (fun a ha hnil => ?_) hset
    have habs := (hspells a ha).lexical.1
    rw [hnil] at habs
    cases habs
  refine ⟨hread, hrepo.marker, fun cwd' path key l hkey hl => ?_, ?_⟩
  · obtain ⟨⟨root, hroot, hone⟩, -⟩ := workspaceGraphKeyFromRoots_iff.mp hkey
    refine same_object hrepo ?_ hone hl
    rcases List.mem_cons.mp hroot with hroot | hroot
    · exact .inl hroot
    · rw [hread] at hroot
      exact .inr (hspells root hroot)
  · rintro rfl a ha key
    rw [hread] at ha ⊢
    rcases trusted_linux fs cwd start ws with hnone | ⟨b, hb⟩
    · rw [hnone] at ha
      cases ha
    · rw [hb, List.mem_singleton] at ha
      subst ha
      rw [hb, key_below_alias hrepo (hspells a (by rw [hb]; exact List.mem_singleton_self a))]
      refine ⟨?_, fun hin => if_pos hin⟩
      split <;> simp [*]

/-- The repository `/w` with the file `/w/f`, and the link `/l` to it. -/
def linkedHost : Fs :=
  (((((Fs.empty ⟨0, 0o644, 0o755, 4096⟩).addEntry [[119]] (.dir ⟨0o755, 0⟩ 4096)).addEntry
    [[119], [46, 107, 105, 110]] (.dir ⟨0o755, 0⟩ 4096)).addEntry
    [[119], [46, 107, 105, 110], [109, 97, 110, 105, 102, 101, 115, 116, 46, 106, 115, 111, 110]]
      (.file ⟨0o644, 0⟩ [])).addEntry [[119], [102]] (.file ⟨0o644, 0⟩ [1])).addEntry
    [[108]] (.symlink ⟨0o777, 0⟩ [47, 119])

/-- From `l/.kin` in `/` the launcher finds `/w` and exports `/l`, and the shim's `/l/f` is `/w/f`. -/
theorem aliases_name_workspace_linked : ∃ value key,
    setVerifiedWorkspaceAliasEnv (some [slash])
        (trustedWorkspaceAliases false linkedHost [] [108, 47, 46, 107, 105, 110] [[119]]) = .ok value ∧
      workspaceGraphKeyFromRoots [47, 108, 47, 102] ([47, 119] :: readAliases value) = .ok key ∧
      canonicalize linkedHost [] (hostPath [47, 119] key) = .ok [[119], [102]] := by
  have hws : findWorkspace linkedHost [] [108, 47, 46, 107, 105, 110] = .ok [[119]] := by decide
  have hset : setVerifiedWorkspaceAliasEnv (some [slash])
      (trustedWorkspaceAliases false linkedHost [] [108, 47, 46, 107, 105, 110] [[119]]) = .ok (some [47, 108]) := by
    decide
  have hl : canonicalize linkedHost [] [47, 108, 47, 102] = .ok [[119], [102]] := by decide
  have hkey : workspaceGraphKeyFromRoots [47, 108, 47, 102] ([47, 119] :: readAliases (some [47, 108])) =
      .ok ⟨[102], rfl⟩ := by decide
  have hsound := (aliases_name_workspace (by decide) (by simp) (nulFree_of_support (by decide)) hws hset).2.2.1
  exact ⟨some [47, 108], ⟨[102], rfl⟩, hset, hkey, hsound [] _ _ _ hkey hl⟩

end Aliases
end KinVfs
