import KinVfs.Shim.Targets
import KinVfs.Shim.TempNames

/-!
# Parent traversal (`resolve_host_path_from_with` of `crates/kin-vfs-shim/src/intercept.rs`)

A path with `..` after a name is handed to libc when the place it leads to is outside the workspace. The
place is found by the kernel up to the last component, and the last component is appended as it is: when
that is a link, the kernel goes on to its target. So the answer `passthrough` leaves the workspace alone
exactly when each object in the workspace that such a path reaches is recognised by the directory the
path starts in, by its lexical reading, or by the entry it names (`passthrough_leaves_iff`).
-/

namespace KinVfs

open VfsPath (rposition rposition_append)
open Posix (Fs names)
open Posix.Fs (Comp climb targetComps walk walk_append_ok walk_names_all walk_down maxLinks)

inductive HostPathResolution where
  | resolved (path : Bytes)
  | passthrough
  | refused
  | invalidDescriptor
  deriving DecidableEq

/-- One turn of the loop in `normalize_kernel_path`. -/
def foldKernelComponent (components : List Bytes) (component : Bytes) : List Bytes :=
  if component = [] ∨ component = [dot] then components
  else if component = [dot, dot] then components.dropLast
  else components ++ [component]

/-- `.` and `..` folded lexically, as the kernel treats them at the root. -/
def normalizeKernelPath (path : Bytes) : Option Bytes :=
  if path.head? ≠ some slash then none
  else some (pathBytes ((path.splitOn slash).foldl foldKernelComponent []))

/-- `realpath`. -/
def realCanonicalPath (fs : Fs) (path : Bytes) : Except Posix.ErrorKind Bytes :=
  (walk fs maxLinks [] (targetComps path)).map pathBytes

/-- The entry that a path names from `cur`: a name at its end is not followed. -/
def entryAt (fs : Fs) (cur : Posix.Path) (comps : List Comp) : Except Posix.ErrorKind Posix.Path :=
  match comps.getLast? with
  | some (.name n) => do
    let d ← walk fs maxLinks cur comps.dropLast
    if fs.isDir d then .ok (d ++ [n]) else .error .notADirectory
  | _ => walk fs maxLinks cur comps

/-- `lstat` finds something. -/
def realSymlinkOrEntryExists (fs : Fs) (path : Bytes) : Bool :=
  match entryAt fs [] (targetComps path) with
  | .ok e => (fs.node e).isSome
  | .error _ => false

theorem rposition_lt {f : UInt8 → Bool} {xs : Bytes} {i : Nat} (h : rposition f xs = some i) :
    i < xs.length := by
  obtain ⟨j, hj, rfl⟩ := Option.map_eq_some_iff.mp h
  have hlt : j < xs.reverse.length := by
    rw [List.findIdx?_eq_some_iff_findIdx_eq] at hj
    exact hj.1
  rw [List.length_reverse] at hlt
  omega

/-- The loop of `kernel_resolved_destination`: the deepest ancestor that resolves, and what stands below
it. -/
def kernelResolvedFrom (fs : Fs) (joined : Bytes) (cut : Nat) : Option Bytes :=
  match _h : rposition (· == slash) (joined.take cut) with
  | none => none
  | some next =>
    let candidate := if next = 0 then [slash] else joined.take next
    match realCanonicalPath fs candidate with
    | .ok anchor => normalizeKernelPath (joinAtPath anchor (joined.drop (next + 1)))
    | .error e =>
      if e = .notFound ∨ e = .notADirectory then
        -- A dangling link fails like an absent name and still redirects.
        if realSymlinkOrEntryExists fs candidate then none else kernelResolvedFrom fs joined next
      else none
termination_by cut
decreasing_by
  have hlt := rposition_lt _h
  rw [List.length_take] at hlt
  omega

def kernelResolvedDestination (fs : Fs) (joined : Bytes) : Option Bytes :=
  kernelResolvedFrom fs joined joined.length

def ambiguousTraversalResolution (fs : Fs) (joined : Bytes) (normalized base : Option Bytes)
    (inWorkspace : Bytes → Bool) : HostPathResolution :=
  if normalized.any inWorkspace || base.any inWorkspace then .refused
  else
    match kernelResolvedDestination fs joined with
    | some destination => if inWorkspace destination then .refused else .passthrough
    | none => .refused

/-- Every `..` stands before every name. -/
def parentsAreLeading : Bool → List Bytes → Bool
  | _, [] => true
  | sawNormal, component :: components =>
    if component = [] ∨ component = [dot] then parentsAreLeading sawNormal components
    else if component = [dot, dot] then
      if sawNormal then false else parentsAreLeading sawNormal components
    else parentsAreLeading true components

/-- The absolute spelling of a path, or none when it is relative and there is no base. -/
def joinedPath (path : Bytes) (base : Option Bytes) : Option Bytes :=
  if path.head? = some slash then some path else base.map (joinAtPath · path)

/-- A path with `..` is ambiguous when a `..` follows a name that the caller gave. -/
def leadingOnly (path : Bytes) : Bool :=
  path.head? ≠ some slash && parentsAreLeading false (path.splitOn slash)

def resolveHostPathFromWith (fs : Fs) (path : Bytes) (base : Option Bytes)
    (inWorkspace : Bytes → Bool) : HostPathResolution :=
  match joinedPath path base with
  | none => .refused
  | some joined =>
    if !(joined.splitOn slash).contains [dot, dot] then .resolved joined
    else if leadingOnly path then
      match normalizeKernelPath joined with
      | some normalized => .resolved normalized
      | none => .refused
    else ambiguousTraversalResolution fs joined (normalizeKernelPath joined) base inWorkspace

/-! ## Components of spelled paths -/

theorem targetComps_append (xs ys : Bytes) :
    targetComps (xs ++ slash :: ys) = targetComps xs ++ targetComps ys := by
  unfold targetComps
  have hsplit : (xs ++ slash :: ys).splitOn 47 = xs.splitOn 47 ++ ys.splitOn 47 :=
    List.splitOn_append_cons_self xs ys
  rw [hsplit, List.map_append]

theorem targetComps_last {last : Bytes} (h : slash ∉ last) : ∃ c, targetComps last = [c] := by
  have hsplit : last.splitOn 47 = [last] := List.splitOn_eq_singleton h
  unfold targetComps
  rw [hsplit]
  exact ⟨_, rfl⟩

theorem targetComps_ne_nil (path : Bytes) : targetComps path ≠ [] := by
  unfold targetComps
  rw [ne_eq, List.map_eq_nil_iff]
  exact List.splitOn_ne_nil 47 path

theorem foldl_kernel (components : List Bytes) (acc : List Bytes) :
    components.foldl foldKernelComponent acc = climb acc (components.map fun c =>
      if c = [] ∨ c = [46] then .cur else if c = [46, 46] then .up else .name c) := by
  induction components generalizing acc with
  | nil => rfl
  | cons c cs ih =>
    rw [List.foldl_cons, List.map_cons, ih]
    by_cases hcur : c = [] ∨ c = [dot]
    · have hfold : foldKernelComponent acc c = acc := if_pos hcur
      have hcomp : (if c = [] ∨ c = [46] then Comp.cur else if c = [46, 46] then .up else .name c) =
          .cur := if_pos hcur
      rw [hfold, hcomp]
      rfl
    · have hrest : (if c = [] ∨ c = [46] then Comp.cur else if c = [46, 46] then .up else .name c) =
          if c = [46, 46] then .up else .name c := if_neg hcur
      rw [foldKernelComponent, if_neg hcur, hrest]
      by_cases hup : c = [dot, dot]
      · have hcomp : (if c = [46, 46] then Comp.up else .name c) = .up := if_pos hup
        rw [if_pos hup, hcomp]
        rfl
      · have hcomp : (if c = [46, 46] then Comp.up else .name c) = .name c := if_neg hup
        rw [if_neg hup, hcomp]
        rfl

theorem normalizeKernelPath_eq {path : Bytes} (h : path.head? = some slash) :
    normalizeKernelPath path = some (pathBytes (climb [] (targetComps path))) := by
  unfold normalizeKernelPath
  rw [if_neg (by simp [h]), foldl_kernel]
  rfl

theorem climb_append (cur : Posix.Path) (xs ys : List Comp) :
    climb cur (xs ++ ys) = climb (climb cur xs) ys := by
  induction xs generalizing cur with
  | nil => rfl
  | cons c xs ih => cases c <;> exact ih _

theorem climb_names (cur : Posix.Path) (ns : List Bytes) : climb cur (ns.map .name) = cur ++ ns := by
  induction ns generalizing cur with
  | nil => exact (List.append_nil cur).symm
  | cons n ns ih =>
    rw [List.map_cons, climb, ih, List.append_assoc]
    rfl

theorem mem_climb {cur : Posix.Path} {comps : List Comp} {n : Bytes} (h : n ∈ climb cur comps) :
    n ∈ cur ∨ n ∈ names comps := by
  induction comps generalizing cur with
  | nil => exact .inl h
  | cons c comps ih =>
    cases c with
    | cur => exact ih h
    | up => exact (ih h).imp_left List.mem_of_mem_dropLast
    | name m =>
      rcases ih h with h | h
      · rcases List.mem_append.mp h with h | h
        · exact .inl h
        · rw [Posix.names_name]
          exact .inr (List.mem_cons.mpr (.inl (List.mem_singleton.mp h)))
      · rw [Posix.names_name]
        exact .inr (List.mem_cons_of_mem _ h)

/-- The components of a spelled location: `.`s and its names. -/
theorem targetComps_pathBytes_plain {p : Posix.Path} (h : ∀ c ∈ p, c ≠ [] ∧ c ≠ [dot] ∧ c ≠ [dot, dot])
    (hslash : ∀ c ∈ p, slash ∉ c) :
    targetComps (pathBytes p) = if p = [] then [.cur, .cur] else .cur :: p.map .name := by
  unfold pathBytes
  by_cases hp : p = []
  · subst hp
    rfl
  · rw [if_neg hp, if_neg hp]
    have hsplit : (p.flatMap (slash :: ·)).splitOn 47 = [] :: p := splitOn_flatMap hp hslash
    unfold targetComps
    rw [hsplit, List.map_cons]
    refine congrArg₂ _ rfl (List.map_congr_left fun c hc => ?_)
    obtain ⟨hne, hdot, hdots⟩ := h c hc
    have hcur : ¬ (c = [] ∨ c = [46]) := not_or.mpr ⟨hne, hdot⟩
    have hup : ¬ c = [46, 46] := hdots
    rw [if_neg hcur, if_neg hup]

theorem targetComps_pathBytes {p : Posix.Path} (h : ∀ c ∈ p, IsComponent c) :
    targetComps (pathBytes p) = if p = [] then [.cur, .cur] else .cur :: p.map .name := by
  refine targetComps_pathBytes_plain (fun c hc => ?_) fun c hc => (h c hc).2
  obtain ⟨hne, hdot, hdots, -⟩ := validateComponent_ok.mp (h c hc).1
  exact ⟨hne, hdot, hdots⟩

theorem climb_pathBytes {p : Posix.Path} (h : ∀ c ∈ p, IsComponent c) :
    climb [] (targetComps (pathBytes p)) = p := by
  rw [targetComps_pathBytes h]
  by_cases hp : p = []
  · rw [if_pos hp, hp]
    rfl
  · rw [if_neg hp, climb, climb_names, List.nil_append]

/-- A spelled directory leads to itself. -/
theorem walk_pathBytes {fs : Fs} {d : Posix.Path} (h : ∀ c ∈ d, IsComponent c)
    (hd : fs.isDir d = true) (k : Nat) (comps : List Comp) :
    walk fs k [] (targetComps (pathBytes d) ++ comps) = walk fs k d comps := by
  have hroot : fs.isDir [] = true := fs.rootDir
  have hcur : ∀ rest, walk fs k [] (.cur :: rest) = walk fs k [] rest := by
    intro rest
    cases k <;> simp [walk, Fs.walkWith, hroot]
  rw [targetComps_pathBytes h]
  by_cases hp : d = []
  · rw [if_pos hp, hp]
    simp only [List.cons_append, List.nil_append, hcur]
  · have hdir : fs.isDir ([] ++ d) = true := hd
    rw [if_neg hp, List.cons_append, hcur, walk_down hdir, List.nil_append]

theorem head?_pathBytes (p : Posix.Path) : (pathBytes p).head? = some slash := by
  unfold pathBytes
  cases p with
  | nil => rfl
  | cons c p => rfl

theorem head?_append_pathBytes (p : Posix.Path) (ys : Bytes) :
    (pathBytes p ++ ys).head? = some slash := by
  have h := head?_pathBytes p
  cases hb : pathBytes p with
  | nil => rw [hb] at h; cases h
  | cons b bs => rw [hb] at h; exact h

/-- What stands before and after the last separator. -/
theorem last_slash {joined : Bytes} (h : slash ∈ joined) :
    ∃ xs last, joined = xs ++ slash :: last ∧ slash ∉ last := by
  obtain ⟨as, bs, heq, hnot⟩ := List.eq_append_cons_of_mem (List.mem_reverse.mpr h)
  refine ⟨bs.reverse, as.reverse, ?_, by simpa using hnot⟩
  have hrev := congrArg List.reverse heq
  rw [List.reverse_reverse, List.reverse_append, List.reverse_cons, List.append_assoc] at hrev
  exact hrev

/-! ## Where the kernel leads -/

section Kernel

variable {fs : Fs} {joined : Bytes} {loc : Posix.Path}

/-- Targets of links are C strings. -/
def NulFree (fs : Fs) : Prop := ∀ p i t, fs.node p = some (.symlink i t) → 0 ∉ t

theorem isComponent_walk (hfs : NulFree fs) {k : Nat} {cur : Posix.Path} {comps : List Comp}
    (hcur : ∀ c ∈ cur, IsComponent c) (hcomps : ∀ c ∈ names comps, IsComponent c)
    (h : walk fs k cur comps = .ok loc) : ∀ c ∈ loc, IsComponent c :=
  walk_names_all (fun p i t hn _ hm => isComponent_of_target (hfs p i t hn) hm) hcur hcomps h

/-- When the kernel reaches an object, the destination is the entry that the path names. -/
theorem kernelResolvedDestination_reached (hfs : NulFree fs) (habs : joined.head? = some slash)
    (h0 : 0 ∉ joined) (h : walk fs maxLinks [] (targetComps joined) = .ok loc) :
    ∃ e, entryAt fs [] (targetComps joined) = .ok e ∧ (∀ c ∈ e, IsComponent c) ∧
      kernelResolvedDestination fs joined = some (pathBytes e) := by
  have hmem : slash ∈ joined := List.mem_of_mem_head? habs
  obtain ⟨xs, last, rfl, hlast⟩ := last_slash hmem
  obtain ⟨c, hc⟩ := targetComps_last hlast
  have hcomps : targetComps (xs ++ slash :: last) = targetComps xs ++ [c] := by
    rw [targetComps_append, hc]
  have hnames : ∀ n ∈ names (targetComps (xs ++ slash :: last)), IsComponent n :=
    fun n hn => isComponent_of_target h0 hn
  rw [hcomps] at h hnames
  obtain ⟨mid, j, -, hmid, hend⟩ := walk_append_ok h
  have hnil : ∀ n ∈ ([] : Posix.Path), IsComponent n := fun _ hn => nomatch hn
  have hmidc : ∀ n ∈ mid, IsComponent n :=
    isComponent_walk hfs hnil
      (fun n hn => hnames n (by rw [Posix.names_append]; exact List.mem_append_left _ hn)) hmid
  -- The first turn of the loop resolves all but the last component.
  have hdest : kernelResolvedDestination fs (xs ++ slash :: last) = some (pathBytes (climb mid [c])) := by
    have hpos : rposition (· == slash) ((xs ++ slash :: last).take (xs ++ slash :: last).length) =
        some xs.length := by
      rw [List.take_length]
      refine rposition_append (by simp) fun y hy => ?_
      simp only [beq_eq_false_iff_ne, ne_eq]
      rintro rfl
      exact hlast hy
    have hcand : realCanonicalPath fs
        (if xs.length = 0 then [slash] else (xs ++ slash :: last).take xs.length) =
          .ok (pathBytes mid) := by
      unfold realCanonicalPath
      by_cases hxs : xs.length = 0
      · have hnil : xs = [] := List.eq_nil_of_length_eq_zero hxs
        subst hnil
        have hroot : fs.isDir [] = true := fs.rootDir
        have hself : walk fs maxLinks [] (targetComps []) = .ok [] := by
          simp [targetComps, maxLinks, walk, Fs.walkWith, hroot]
        have hslash : walk fs maxLinks [] (targetComps [slash]) = .ok [] := by
          have hcs : targetComps [slash] = [.cur, .cur] := rfl
          simp [hcs, maxLinks, walk, Fs.walkWith, hroot]
        rw [hself] at hmid
        cases hmid
        rw [if_pos hxs, hslash]
        rfl
      · rw [if_neg hxs, List.take_left, hmid]
        rfl
    have hdrop : (xs ++ slash :: last).drop (xs.length + 1) = last := by
      rw [← List.drop_drop, List.drop_left]
      rfl
    have hrel : joinAtPath (pathBytes mid) last = pathBytes mid ++ slash :: last :=
      if_neg fun hhead => hlast (List.mem_of_mem_head? hhead)
    rw [kernelResolvedDestination, kernelResolvedFrom]
    split
    · rename_i hnone
      rw [hpos] at hnone
      cases hnone
    · rename_i next hnext
      rw [hpos] at hnext
      cases hnext
      dsimp only
      rw [hcand]
      dsimp only
      rw [hdrop, hrel, normalizeKernelPath_eq (head?_append_pathBytes mid _), targetComps_append,
        climb_append, climb_pathBytes hmidc, hc]
  refine ⟨climb mid [c], ?_, ?_, hdest⟩
  · have hstep : ∃ onLink, Fs.walkWith fs onLink mid [c] = .ok loc := by
      cases j with
      | zero => exact ⟨_, hend⟩
      | succ j => exact ⟨_, hend⟩
    obtain ⟨onLink, hstep⟩ := hstep
    obtain ⟨hdir, hstep⟩ := Fs.walkWith_cons_ok hstep
    unfold entryAt
    rw [hcomps, List.getLast?_concat]
    cases c with
    | name n =>
      rw [List.dropLast_concat, hmid]
      simp only [bind, Except.bind, hdir, ↓reduceIte]
      rfl
    | cur =>
      cases hstep
      rw [h]
      rfl
    | up =>
      cases hstep
      rw [h]
      rfl
  · intro n hn
    rcases mem_climb hn with hn | hn
    · exact hmidc n hn
    · exact hnames n (by rw [Posix.names_append]; exact List.mem_append_right _ hn)

end Kernel

/-! ## Workspace paths among locations -/

section Roots

variable {roots : List Posix.Path} {e r : Posix.Path}

theorem tryRoot_pathBytes (hr : ∀ c ∈ r, IsComponent c) (he : ∀ c ∈ e, IsComponent c)
    (found : Option VfsPath) :
    (¬ r <+: e ∧ tryRoot (pathBytes e) (found, false) (pathBytes r) = .ok (found, false)) ∨
      ∃ key : VfsPath, e = r ++ key.components ∧ tryRoot (pathBytes e) (found, false) (pathBytes r) =
        if found.any (· ≠ key) then .error .aliasAmbiguity else .ok (some key, false) := by
  by_cases hpre : r <+: e
  · right
    obtain ⟨tail, rfl⟩ := hpre
    have htail : ∀ c ∈ tail, IsComponent c := fun c hc => he c (List.mem_append_right _ hc)
    refine ⟨VfsPath.ofComponents tail htail, by rw [VfsPath.components_ofComponents], ?_⟩
    have hkey : workspaceGraphKey (pathBytes (r ++ tail)) (pathBytes r) =
        .ok (VfsPath.ofComponents tail htail) :=
      workspaceGraphKey_of_components (hostComponents_pathBytes hr)
        (by rw [VfsPath.components_ofComponents]; exact hostComponents_pathBytes he)
    unfold tryRoot
    rw [hkey]
  · left
    refine ⟨hpre, ?_⟩
    unfold tryRoot
    rw [workspaceGraphKey_outside (hostComponents_pathBytes hr) he hpre]

/-- The roots that contain a location give one key. -/
theorem foldlM_tryRoot (hroots : ∀ r ∈ roots, ∀ c ∈ r, IsComponent c)
    (he : ∀ c ∈ e, IsComponent c) (found : Option VfsPath) (key : VfsPath) (b : Bool) :
    (roots.map pathBytes).foldlM (tryRoot (pathBytes e)) (found, false) = .ok (some key, b) ↔
      b = false ∧ (∀ k ∈ found, k = key) ∧ (∀ r ∈ roots, r <+: e → e = r ++ key.components) ∧
        (found ≠ none ∨ ∃ r ∈ roots, r <+: e) := by
  induction roots generalizing found with
  | nil =>
    cases found with
    | none => simp [pure, Except.pure]
    | some k => simp [pure, Except.pure, eq_comm, and_comm]
  | cons r roots ih =>
    have hr := hroots r List.mem_cons_self
    have hrest : ∀ r ∈ roots, ∀ c ∈ r, IsComponent c :=
      fun r' hr' => hroots r' (List.mem_cons_of_mem _ hr')
    rw [List.map_cons, List.foldlM_cons]
    rcases tryRoot_pathBytes hr he found with ⟨hout, htry⟩ | ⟨k, hk, htry⟩
    · rw [htry]
      simp only [bind, Except.bind]
      rw [ih hrest]
      simp [hout]
    · have hpre : r <+: e := ⟨_, hk.symm⟩
      have hsame : e = r ++ key.components ↔ k = key := by
        constructor
        · intro heq
          rw [hk] at heq
          exact VfsPath.ext_components (List.append_cancel_left heq)
        · rintro rfl
          exact hk
      rw [htry]
      cases found with
      | none =>
        simp only [Option.any_none, Bool.false_eq_true, ↓reduceIte, bind, Except.bind]
        rw [ih hrest]
        simp [hpre, hsame]
      | some k' =>
        by_cases hkk : k' = k
        · subst hkk
          simp only [Option.any_some, ne_eq, not_true_eq_false, decide_false, Bool.false_eq_true,
            ↓reduceIte, bind, Except.bind]
          rw [ih hrest]
          simp [hpre, hsame]
        · have hany : (some k').any (· ≠ k) = true := by simpa using hkk
          simp only [hany, ↓reduceIte, bind, Except.bind, reduceCtorEq, false_iff]
          rintro ⟨-, hk', hall, -⟩
          exact hkk ((hk' k' rfl).trans (hsame.mp (hall r List.mem_cons_self hpre)).symm)

theorem isOk_fromRoots {p : Bytes} {bytes : List Bytes} :
    (workspaceGraphKeyFromRoots p bytes).isOk = true ↔
      ∃ key b, bytes.foldlM (tryRoot p) (none, false) = .ok (some key, b) := by
  unfold workspaceGraphKeyFromRoots
  cases bytes.foldlM (tryRoot p) (none, false) with
  | error err => simp [bind, Except.bind, Except.isOk, Except.toBool]
  | ok found =>
    obtain ⟨_ | key, b⟩ := found
    · simp [bind, Except.bind, Except.isOk, Except.toBool, throw, throwThe, MonadExceptOf.throw]
    · simp [bind, Except.bind, Except.isOk, Except.toBool, pure, Except.pure]

/-- The location is below a root, below no other, and is not taken for a temp file. -/
structure Recognised (roots : List Posix.Path) (e : Posix.Path) : Prop where
  under : ∃ r ∈ roots, r <+: e
  one : ∀ r ∈ roots, ∀ r' ∈ roots, r <+: e → r' <+: e → r = r'
  unmarked : isInterposeTempArtifact (pathBytes e) = false

theorem isWorkspacePath_iff (hroots : ∀ r ∈ roots, ∀ c ∈ r, IsComponent c)
    (he : ∀ c ∈ e, IsComponent c) :
    isWorkspacePath (roots.map pathBytes) (pathBytes e) = true ↔ Recognised roots e := by
  have hkey : (workspaceGraphKeyFromRoots (pathBytes e) (roots.map pathBytes)).isOk = true ↔
      (∃ r ∈ roots, r <+: e) ∧ ∀ r ∈ roots, ∀ r' ∈ roots, r <+: e → r' <+: e → r = r' := by
    rw [isOk_fromRoots]
    constructor
    · rintro ⟨key, b, h⟩
      obtain ⟨-, -, hall, hsome⟩ := (foldlM_tryRoot hroots he none key b).mp h
      refine ⟨hsome.resolve_left (fun h0 => h0 rfl), fun r hr r' hr' hpre hpre' => ?_⟩
      exact List.append_cancel_right ((hall r hr hpre).symm.trans (hall r' hr' hpre'))
    · rintro ⟨⟨r, hr, tail, htail⟩, hone⟩
      have hcomp : ∀ c ∈ tail, IsComponent c :=
        fun c hc => he c (htail ▸ List.mem_append_right _ hc)
      refine ⟨VfsPath.ofComponents tail hcomp, false, ?_⟩
      rw [foldlM_tryRoot hroots he]
      refine ⟨rfl, by simp, fun r' hr' hpre => ?_, .inr ⟨r, hr, tail, htail⟩⟩
      rw [VfsPath.components_ofComponents, ← hone r hr r' hr' ⟨tail, htail⟩ hpre, htail]
  unfold isWorkspacePath
  cases hm : isInterposeTempArtifact (pathBytes e) with
  | true =>
    simp only [↓reduceIte, Bool.false_eq_true, false_iff]
    intro hrec
    rw [hrec.unmarked] at hm
    cases hm
  | false =>
    rw [if_neg (by decide), hkey]
    exact ⟨fun h => ⟨h.1, h.2, hm⟩, fun h => ⟨h.under, h.one⟩⟩

end Roots

/-! ## The traversals that leave -/

section Leave

variable {fs : Fs} {roots : List Posix.Path} {base : Option Posix.Path} {path : Bytes}

/-- What the kernel does with a path: an absolute one starts at the root, another in the base. -/
def fromBase {α : Type} (base : Option Posix.Path) (path : Bytes)
    (lookup : Posix.Path → List Comp → Except Posix.ErrorKind α) : Except Posix.ErrorKind α :=
  if path.head? = some slash then lookup [] (targetComps path)
  else
    match base with
    | some d => lookup d (targetComps path)
    | none => .error .notFound

/-- The object the kernel reaches, links followed. -/
def reached (fs : Fs) (base : Option Posix.Path) (path : Bytes) : Except Posix.ErrorKind Posix.Path :=
  fromBase base path (walk fs maxLinks)

/-- The entry the path names, which is not followed. -/
def namedEntry (fs : Fs) (base : Option Posix.Path) (path : Bytes) :
    Except Posix.ErrorKind Posix.Path :=
  fromBase base path (entryAt fs)

/-- The path read lexically. -/
def lexical (base : Option Posix.Path) (path : Bytes) : Posix.Path :=
  climb (if path.head? = some slash then [] else base.getD []) (targetComps path)

/-- A traversal that is handed to libc reaches nothing in the workspace. -/
def PassthroughLeaves (fs : Fs) (roots : List Posix.Path) (base : Option Posix.Path) (path : Bytes) :
    Prop :=
  resolveHostPathFromWith fs path (base.map pathBytes) (isWorkspacePath (roots.map pathBytes)) =
      .passthrough →
    ∀ loc, reached fs base path = .ok loc → ¬ ∃ r ∈ roots, r <+: loc

/-- An object in the workspace is recognised by the base, the lexical reading or the entry named. -/
def Guarded (fs : Fs) (roots : List Posix.Path) (base : Option Posix.Path) (path : Bytes) : Prop :=
  ∀ loc, reached fs base path = .ok loc → (∃ r ∈ roots, r <+: loc) →
    (∃ d ∈ base, Recognised roots d) ∨ Recognised roots (lexical base path) ∨
      ∃ e, namedEntry fs base path = .ok e ∧ Recognised roots e

theorem up_mem_targetComps {t : Bytes} : .up ∈ targetComps t ↔ [dot, dot] ∈ t.splitOn slash := by
  unfold targetComps
  rw [List.mem_map]
  constructor
  · rintro ⟨c, hc, heq⟩
    split at heq
    · cases heq
    · split at heq
      · rename_i hup
        exact hup ▸ hc
      · cases heq
  · intro h
    exact ⟨[46, 46], h, by decide⟩

theorem nul_pathBytes {d : Posix.Path} (h : ∀ c ∈ d, IsComponent c) : 0 ∉ pathBytes d := by
  unfold pathBytes
  split
  · decide
  · intro h0
    obtain ⟨c, hc, hz⟩ := List.mem_flatMap.mp h0
    rcases List.mem_cons.mp hz with hz | hz
    · exact absurd hz (by decide)
    · exact (validateComponent_ok.mp (h c hc).1).2.2.2 hz

/-- The entry of a path that starts in a spelled directory. -/
theorem entryAt_pathBytes {d : Posix.Path} (h : ∀ c ∈ d, IsComponent c) (hd : fs.isDir d = true)
    (path : Bytes) :
    entryAt fs [] (targetComps (pathBytes d) ++ targetComps path) = entryAt fs d (targetComps path) := by
  have hne := targetComps_ne_nil path
  unfold entryAt
  rw [List.getLast?_append_of_ne_nil _ hne, List.dropLast_append_of_ne_nil hne,
    walk_pathBytes h hd, walk_pathBytes h hd]

/-- The absolute spelling of a path stands for the path in its base. -/
theorem joinedPath_spec (hbase : ∀ d ∈ base, fs.isDir d = true ∧ ∀ c ∈ d, IsComponent c)
    (h0 : 0 ∉ path) (hfrom : path.head? = some slash ∨ base ≠ none) :
    ∃ joined, joinedPath path (base.map pathBytes) = some joined ∧ joined.head? = some slash ∧
      0 ∉ joined ∧ walk fs maxLinks [] (targetComps joined) = reached fs base path ∧
      entryAt fs [] (targetComps joined) = namedEntry fs base path ∧
      climb [] (targetComps joined) = lexical base path ∧
      (.up ∈ targetComps path → .up ∈ targetComps joined) := by
  unfold joinedPath reached namedEntry lexical fromBase
  by_cases habs : path.head? = some slash
  · simp only [if_pos habs]
    exact ⟨path, rfl, habs, h0, rfl, rfl, rfl, id⟩
  · simp only [if_neg habs]
    cases base with
    | none => exact absurd rfl (hfrom.resolve_left habs)
    | some d =>
      obtain ⟨hd, hcomp⟩ := hbase d rfl
      have hjoin : joinAtPath (pathBytes d) path = pathBytes d ++ slash :: path := if_neg habs
      refine ⟨pathBytes d ++ slash :: path, congrArg some hjoin, head?_append_pathBytes d _, ?_, ?_⟩
      · intro hz
        rcases List.mem_append.mp hz with hz | hz
        · exact nul_pathBytes hcomp hz
        · rcases List.mem_cons.mp hz with hz | hz
          · exact absurd hz (by decide)
          · exact h0 hz
      · rw [targetComps_append]
        refine ⟨walk_pathBytes hcomp hd _ _, entryAt_pathBytes hcomp hd path, ?_, ?_⟩
        · rw [climb_append, climb_pathBytes hcomp]
          rfl
        · exact fun hup => List.mem_append_right _ hup

/-- What a traversal that reaches something is answered with. -/
theorem resolve_reached (hroots : ∀ r ∈ roots, ∀ c ∈ r, IsComponent c)
    (hbase : ∀ d ∈ base, fs.isDir d = true ∧ ∀ c ∈ d, IsComponent c) (hfs : NulFree fs)
    (h0 : 0 ∉ path) (hup : .up ∈ targetComps path) (hlead : leadingOnly path = false)
    {loc : Posix.Path} (hreach : reached fs base path = .ok loc) :
    ∃ e, namedEntry fs base path = .ok e ∧
      (resolveHostPathFromWith fs path (base.map pathBytes) (isWorkspacePath (roots.map pathBytes)) =
          .passthrough ↔
        ¬ ((∃ d ∈ base, Recognised roots d) ∨ Recognised roots (lexical base path) ∨
          Recognised roots e)) := by
  have hfrom : path.head? = some slash ∨ base ≠ none := by
    by_cases habs : path.head? = some slash
    · exact .inl habs
    · right
      rintro rfl
      unfold reached fromBase at hreach
      rw [if_neg habs] at hreach
      cases hreach
  obtain ⟨joined, hjoined, habs, hnul, hwalk, hentry, hlex, hups⟩ := joinedPath_spec hbase h0 hfrom
  rw [← hwalk] at hreach
  obtain ⟨e, he, hcomp, hdest⟩ := kernelResolvedDestination_reached hfs habs hnul hreach
  refine ⟨e, hentry ▸ he, ?_⟩
  have hlexc : ∀ c ∈ lexical base path, IsComponent c := by
    intro c hc
    rw [← hlex] at hc
    exact (mem_climb hc).elim (fun h => nomatch h) fun h => isComponent_of_target hnul h
  have hcontains : (joined.splitOn slash).contains [dot, dot] = true := by
    rw [List.contains_iff_mem]
    exact up_mem_targetComps.mp (hups hup)
  have hbaseIn : (base.map pathBytes).any (isWorkspacePath (roots.map pathBytes)) = true ↔
      ∃ d ∈ base, Recognised roots d := by
    cases base with
    | none => simp
    | some d =>
      have hd := (hbase d rfl).2
      simp [isWorkspacePath_iff hroots hd]
  unfold resolveHostPathFromWith
  rw [hjoined]
  dsimp only
  rw [hcontains, hlead, normalizeKernelPath_eq habs, hlex]
  simp only [Bool.not_true, Bool.false_eq_true, ↓reduceIte]
  unfold ambiguousTraversalResolution
  rw [hdest, Option.any_some, ← hbaseIn, ← isWorkspacePath_iff hroots hlexc,
    ← isWorkspacePath_iff hroots hcomp]
  dsimp only
  cases isWorkspacePath (roots.map pathBytes) (pathBytes (lexical base path)) <;>
    cases (base.map pathBytes).any (isWorkspacePath (roots.map pathBytes)) <;>
    cases isWorkspacePath (roots.map pathBytes) (pathBytes e) <;> simp

/-- When a traversal that is handed to libc leaves the workspace alone. -/
theorem passthrough_leaves_iff (hroots : ∀ r ∈ roots, ∀ c ∈ r, IsComponent c)
    (hbase : ∀ d ∈ base, fs.isDir d = true ∧ ∀ c ∈ d, IsComponent c) (hfs : NulFree fs)
    (h0 : 0 ∉ path) (hup : .up ∈ targetComps path) (hlead : leadingOnly path = false) :
    PassthroughLeaves fs roots base path ↔ Guarded fs roots base path := by
  constructor
  · intro h loc hreach hunder
    obtain ⟨e, he, hres⟩ := resolve_reached hroots hbase hfs h0 hup hlead hreach
    by_contra hnot
    refine h (hres.mpr ?_) loc hreach hunder
    rintro (hd | hlex | hrec)
    · exact hnot (.inl hd)
    · exact hnot (.inr (.inl hlex))
    · exact hnot (.inr (.inr ⟨e, he, hrec⟩))
  · intro h hpass loc hreach hunder
    obtain ⟨e, he, hres⟩ := resolve_reached hroots hbase hfs h0 hup hlead hreach
    refine hres.mp hpass ?_
    rcases h loc hreach hunder with hd | hlex | ⟨e', he', hrec⟩
    · exact .inl hd
    · exact .inr (.inl hlex)
    · rw [he] at he'
      cases he'
      exact .inr (.inr hrec)

end Leave

/-- A tree is finite, so its links can be looked at. -/
theorem nulFree_of_support {fs : Fs} (h : (fs.support.all fun p => match fs.node p with
    | some (.symlink _ t) => !t.contains 0
    | _ => true) = true) : NulFree fs := by
  intro p i t hn hz
  have hp := List.all_eq_true.mp h p (fs.supported p (by rw [hn]; rfl))
  rw [hn] at hp
  simp [hz] at hp

namespace Sample

/-- The directories `/o`, `/o/a` and `/w`, the file `/w/f` and the link `/o/l` to it. -/
def outside : Fs :=
  ((((Fs.empty ⟨0, 0o644, 0o755, 4096⟩).addEntry [[111]] (.dir ⟨0o755, 0⟩ 4096)).addEntry
    [[111], [97]] (.dir ⟨0o755, 0⟩ 4096)).addEntry [[119]] (.dir ⟨0o755, 0⟩ 4096)).addEntry
    [[119], [102]] (.file ⟨0o644, 0⟩ [1]) |>.addEntry [[111], [108]]
      (.symlink ⟨0o777, 0⟩ [47, 119, 47, 102])

/-- `/o/a/../a`. -/
def throughSelf : Bytes := [47, 111, 47, 97, 47, 46, 46, 47, 97]

/-- `/o/a/../l`. -/
def throughOut : Bytes := [47, 111, 47, 97, 47, 46, 46, 47, 108]

theorem nulFree_outside : NulFree outside := nulFree_of_support (by decide)

theorem isComponent_w : ∀ r ∈ ([[[119]]] : List Posix.Path), ∀ c ∈ r, IsComponent c := by
  intro r hr c hc
  rw [List.mem_singleton.mp hr] at hc
  rw [List.mem_singleton.mp hc]
  exact ⟨rfl, by decide⟩

theorem no_base : ∀ d ∈ (none : Option Posix.Path),
    outside.isDir d = true ∧ ∀ c ∈ d, IsComponent c := fun _ hd => nomatch hd

end Sample

/-- `/o/a/../a` outside the workspace `/w`. -/
theorem passthrough_leaves_iff_self :
    reached Sample.outside none Sample.throughSelf = .ok [[111], [97]] ∧
      PassthroughLeaves Sample.outside [[[119]]] none Sample.throughSelf := by
  have hreach : reached Sample.outside none Sample.throughSelf = .ok [[111], [97]] := by decide
  refine ⟨hreach, (passthrough_leaves_iff Sample.isComponent_w Sample.no_base
    Sample.nulFree_outside (by decide) (by decide) (by decide)).mpr ?_⟩
  intro loc hloc hunder
  rw [hreach] at hloc
  cases hloc
  exact absurd hunder (by decide)

/-- `/o/a/../l` is handed to libc, and reaches `/w/f` in the workspace `/w`. -/
theorem passthrough_enters_link :
    resolveHostPathFromWith Sample.outside Sample.throughOut none (isWorkspacePath [[47, 119]]) =
        .passthrough ∧
      reached Sample.outside none Sample.throughOut = .ok [[119], [102]] ∧
      ¬ PassthroughLeaves Sample.outside [[[119]]] none Sample.throughOut := by
  have hreach : reached Sample.outside none Sample.throughOut = .ok [[119], [102]] := by decide
  obtain ⟨e, he, hres⟩ := resolve_reached Sample.isComponent_w Sample.no_base
    Sample.nulFree_outside (by decide) (by decide) (by decide) hreach
  have hentry : namedEntry Sample.outside none Sample.throughOut = .ok [[111], [108]] := by decide
  rw [hentry] at he
  cases he
  have hpass := hres.mpr (by
    rintro (⟨d, hd, -⟩ | hlex | hrec)
    · cases hd
    · exact absurd hlex.under (by decide)
    · exact absurd hrec.under (by decide))
  exact ⟨hpass, hreach, fun h => h hpass _ hreach ⟨[[119]], List.mem_singleton_self _, by decide⟩⟩

end KinVfs
