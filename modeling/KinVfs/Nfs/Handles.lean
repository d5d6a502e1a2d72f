import KinVfs.Lib.ObjectTree
import KinVfs.Lib.Runs
import KinVfs.Nfs.Inodes

/-!
# File ids and the objects they were given for

The calls of one workspace's adapter (`KinNfsFs`) that give out file ids or change the tree, all of them
successful, beside the tree of objects they act on. The workspace may hold anything when the adapter starts.
The adapter knows paths only: what it drops from its table is the entry a renamed object displaces.

An id goes on resolving to its object, and never to another, as long as no object is put on a path that
still has an id and no object with an id moves but by its own rename (`handles_follow`).
-/

namespace KinVfs.Nfs

abbrev Tree := ObjectTree Bytes

structure Handles where
  table : InodeTable
  tree : Tree
  /-- The ids that were returned, each for the object it was returned for. -/
  issued : List (Nat × Nat)

/-- A call with its arguments; `names` are the entries the provider lists. -/
inductive HandleOp where
  | lookup (dir : Nat) (name : Bytes)
  | create (dir : Nat) (name : Bytes) (exclusive : Bool)
  | mkdir (dir : Nat) (name : Bytes)
  | remove (dir : Nat) (name : Bytes)
  | rename (srcDir : Nat) (srcName : Bytes) (dstDir : Nat) (dstName : Bytes)
  | readdir (dir : Nat) (names : List VfsName)

namespace Handles

/-- The adapter starts on a workspace with any content; no id has been returned. -/
def start (tree : Tree) : Handles := ⟨.new, tree, []⟩

/-- The object at a path. -/
def object (s : Handles) (p : VfsPath) : Option Nat := s.tree.object p.components

/-- The id `id` is returned for the path `p`. -/
def record (s : Handles) (p : VfsPath) (id : Nat) : Handles :=
  match s.object p with
  | some o => { s with issued := s.issued ++ [(o, id)] }
  | none => s

/-- `get_or_assign`, and the id is returned. -/
def issue (s : Handles) (p : VfsPath) : Handles :=
  { s with table := (s.table.getOrAssign p).2 }.record p (s.table.getOrAssign p).1

/-- `child_path` of the directory an id resolves to. -/
def child (s : Handles) (dir : Nat) (name : Bytes) : Option VfsPath :=
  match s.table.getPath dir, VfsName.fromBytes name with
  | some parent, .ok component => some (parent.join component)
  | _, _ => none

/-- Make the object at `p`, and the directories that are missing above it, unless it is there. -/
def make (s : Handles) (p : VfsPath) : Handles := { s with tree := s.tree.make p.components }

def lookup (s : Handles) (dir : Nat) (name : Bytes) : Option Handles :=
  match s.table.getPath dir with
  | none => none
  | some path =>
    if name = [46] then some (s.record path dir)
    else if name = [46, 46] then
      match path.parent with
      | none => some (s.record .root 1)
      | some parent => some (s.issue parent)
    else
      match VfsName.fromBytes name with
      | .error _ => none
      | .ok component =>
        if (s.object (path.join component)).isSome then some (s.issue (path.join component)) else none

/-- The entries `.` and `..`, then the names. -/
def readdir (s : Handles) (dir : Nat) (names : List VfsName) : Option Handles :=
  match s.table.getPath dir with
  | none => none
  | some path =>
    let dotted := s.record path dir
    let above := match path.parent with
      | none => dotted.record .root 1
      | some parent => dotted.issue parent
    if ∀ n ∈ names, (s.object (path.join n)).isSome then
      some (names.foldl (fun s n => s.issue (path.join n)) above)
    else none

/-- Make the directories that are missing above `p`. -/
def makeParents (s : Handles) (p : VfsPath) : Handles :=
  { s with tree := s.tree.make p.components.dropLast }

/-- `writer.rename`; a rename onto itself changes nothing. -/
def move (s : Handles) (src dst : VfsPath) : Option Handles :=
  if (s.object src).isNone then none
  else if src = dst then some s
  else if src.components <+: dst.components then none
  else some { s with tree := s.tree.move src.components dst.components }

def step (s : Handles) : HandleOp → Option Handles
  | .lookup dir name => s.lookup dir name
  | .create dir name exclusive =>
    match s.child dir name with
    | none => none
    | some p => if exclusive && (s.object p).isSome then none else some ((s.make p).issue p)
  | .mkdir dir name =>
    match s.child dir name with
    | none => none
    | some p => some ((s.make p).issue p)
  | .remove dir name =>
    match s.child dir name with
    | none => none
    | some p =>
      if (s.object p).isSome then some { s with tree := s.tree.remove p.components } else none
  | .rename srcDir srcName dstDir dstName =>
    match s.child srcDir srcName, s.child dstDir dstName with
    | some src, some dst =>
      ((s.makeParents dst).move src dst).map fun s' => { s' with table := s'.table.rename src dst }
    | _, _ => none
  | .readdir dir names => s.readdir dir names

/-! ## When an id follows its object -/

/-- Every id that was returned resolves to the path its object is at, and to no other object. -/
def Follow (s : Handles) : Prop :=
  ∀ o i, (o, i) ∈ s.issued →
    (∀ p, s.object p = some o → s.table.getPath i = some p) ∧
    ∀ p o', s.table.getPath i = some p → s.object p = some o' → o' = o

/-- No path at or above `cs` at which an object is missing has an id. -/
def Vacant (s : Handles) (cs : List Bytes) : Prop :=
  ∀ q : VfsPath, q.components <+: cs → s.object q = none → s.table.pathToId q = none

/-- Of what a move puts under `dst`, only the object at `src` may have an id, and then no path that gets an
object may have one. -/
structure MovesAlone (s : Handles) (src dst : VfsPath) : Prop where
  below : ∀ q : VfsPath, ∀ rest, q.components = src.components ++ rest → rest ≠ [] →
    s.object q ≠ none → s.table.pathToId q = none
  onto : ∀ q : VfsPath, ∀ rest, q.components = dst.components ++ rest → rest ≠ [] →
    s.tree.object (src.components ++ rest) ≠ none → s.table.pathToId q = none
  target : s.table.pathToId src = none → s.table.pathToId dst = none

/-- New objects get paths without an id, and a rename moves at most one object that has an id. -/
def Tidy (s : Handles) : HandleOp → Prop
  | .create dir name _ | .mkdir dir name => ∀ p, s.child dir name = some p → s.Vacant p.components
  | .rename srcDir srcName dstDir dstName =>
    ∀ src dst, s.child srcDir srcName = some src → s.child dstDir dstName = some dst →
      s.Vacant dst.components.dropLast ∧ (src ≠ dst → (s.makeParents dst).MovesAlone src dst)
  | _ => True

structure Inv (s : Handles) : Prop where
  wf : s.table.Wf
  bound : ∀ o i, (o, i) ∈ s.issued → o < s.tree.next ∧ i < s.table.nextId
  follow : s.Follow

variable {s t : Handles} {p q src dst : VfsPath} {o i : Nat}

theorem object_inj (hp : s.object p = some o) (hq : s.object q = some o) : p = q :=
  VfsPath.ext_components (s.tree.inj _ _ o hp hq)

/-- An id is returned for the path it belongs to. -/
theorem Inv.record (h : Inv s) (hi : s.table.getPath i = some p) : Inv (s.record p i) := by
  unfold Handles.record
  split
  · rename_i o ho
    refine ⟨h.wf, fun o' j hj => ?_, fun o' j hj => ?_⟩
    · rcases List.mem_append.mp hj with hj | hj
      · exact h.bound o' j hj
      · cases List.mem_singleton.mp hj
        exact ⟨s.tree.bound _ _ ho, (h.wf.fresh i p hi).2⟩
    · rcases List.mem_append.mp hj with hj | hj
      · exact h.follow o' j hj
      · cases List.mem_singleton.mp hj
        refine ⟨fun q hq => ?_, fun q o' hq ho' => ?_⟩
        · rw [object_inj hq ho]
          exact hi
        · rw [show s.table.getPath i = some q from hq, Option.some.injEq] at hi
          subst hi
          change s.object q = some o' at ho'
          rw [ho] at ho'
          exact (Option.some.inj ho').symm
  · exact h

/-- A path gets an id. -/
theorem Inv.assign (h : Inv s) (p : VfsPath) : Inv { s with table := (s.table.getOrAssign p).2 } where
  wf := h.wf.getOrAssign p
  bound o i hi := by
    have hold := h.bound o i hi
    exact ⟨hold.1, Nat.lt_of_lt_of_le hold.2 (InodeTable.nextId_getOrAssign s.table p)⟩
  follow o i hi := by
    have hsame := InodeTable.idToPath_getOrAssign_lt (h.bound o i hi).2 p
    refine ⟨fun q hq => ?_, fun q o' hq ho' => ?_⟩
    · exact hsame.trans ((h.follow o i hi).1 q hq)
    · exact (h.follow o i hi).2 q o' (hsame.symm.trans hq) ho'

theorem Inv.issue (h : Inv s) (p : VfsPath) : Inv (s.issue p) := by
  refine (h.assign p).record ?_
  have hid := InodeTable.pathToId_getOrAssign s.table p
  exact ((h.wf.getOrAssign p).inverse p _).mp hid

theorem Inv.issue_all (h : Inv s) (path : VfsPath) (names : List VfsName) :
    Inv (names.foldl (fun s n => s.issue (path.join n)) s) := by
  induction names generalizing s with
  | nil => exact h
  | cons n names ih => exact ih (h.issue _)

/-- Fewer objects. -/
theorem Inv.shrink {tree : Tree} (h : Inv s) (hnext : tree.next = s.tree.next)
    (hsub : ∀ q : VfsPath, ∀ o, tree.object q.components = some o → s.object q = some o) :
    Inv { s with tree := tree } where
  wf := h.wf
  bound o i hi := by
    have hold := h.bound o i hi
    exact ⟨hnext ▸ hold.1, hold.2⟩
  follow o i hi := by
    refine ⟨fun q hq => (h.follow o i hi).1 q (hsub q o hq), fun q o' hq ho' => ?_⟩
    exact (h.follow o i hi).2 q o' hq (hsub q o' ho')

/-- New objects, on paths without an id. -/
theorem Inv.make {cs : List Bytes} (h : Inv s) (hv : s.Vacant cs) :
    Inv { s with tree := s.tree.make cs } where
  wf := h.wf
  bound o i hi := by
    have hold := h.bound o i hi
    refine ⟨?_, hold.2⟩
    show o < s.tree.next + cs.length + 1
    omega
  follow o i hi := by
    refine ⟨fun q hq => ?_, fun q o' hq ho' => ?_⟩
    · rcases ObjectTree.made_cases hq with ⟨-, -, hnew⟩ | hold
      · have := (h.bound o i hi).1
        omega
      · exact (h.follow o i hi).1 q hold
    · rcases ObjectTree.made_cases ho' with ⟨hpre, hnone, -⟩ | hold
      · have hid := hv q hpre hnone
        rw [(h.wf.inverse q i).mpr hq] at hid
        cases hid
      · exact (h.follow o i hi).2 q o' hq hold

/-- The path with the components of `src` and then `rest`. -/
theorem exists_path {rest : List Bytes} (src : VfsPath) (h : q.components = dst.components ++ rest) :
    ∃ q' : VfsPath, q'.components = src.components ++ rest := by
  have hvalid : ∀ c ∈ src.components ++ rest, IsComponent c := by
    intro c hc
    rcases List.mem_append.mp hc with hc | hc
    · exact src.isComponent hc
    · exact q.isComponent (h ▸ List.mem_append_right _ hc)
  exact ⟨.ofComponents _ hvalid, VfsPath.components_ofComponents hvalid⟩

/-- An object with an id that is moved is the one at `src`. -/
theorem MovesAlone.of_id {rest : List Bytes} (h : Inv s) (hm : s.MovesAlone src dst)
    (hi : (o, i) ∈ s.issued) (hq : q.components = dst.components ++ rest)
    (ho : s.tree.object (src.components ++ rest) = some o) : rest = [] ∧ s.table.getPath i = some src := by
  obtain ⟨q', hq'⟩ := exists_path src hq
  have ho' : s.object q' = some o := by
    rw [object, hq']
    exact ho
  have hpath := (h.follow o i hi).1 q' ho'
  by_cases hrest : rest = []
  · subst hrest
    rw [List.append_nil] at hq'
    rw [VfsPath.ext_components hq'] at hpath
    exact ⟨rfl, hpath⟩
  · have hid := hm.below q' rest hq' hrest (by rw [ho']; simp)
    rw [(h.wf.inverse q' i).mpr hpath] at hid
    cases hid

theorem Inv.move (h : Inv s) (hsrc : src ≠ .root) (hdst : dst ≠ .root) (hm : s.MovesAlone src dst) :
    Inv { s with
      tree := s.tree.move src.components dst.components
      table := s.table.rename src dst } where
  wf := h.wf.rename hsrc hdst
  bound o i hi := by
    have hold := h.bound o i hi
    exact ⟨hold.1, (InodeTable.nextId_rename s.table src dst).symm ▸ hold.2⟩
  follow o i hi := by
    -- What an id resolves to after the rename, unless that is the entry that moved.
    have hother : ∀ q, q ≠ src → q ≠ dst → s.table.getPath i = some q →
        (s.table.rename src dst).getPath i = some q := by
      intro q hqs hqd hq
      cases hid : s.table.pathToId src with
      | none =>
        rw [InodeTable.rename_none hid]
        exact hq
      | some j =>
        have hij : i ≠ j := by
          rintro rfl
          rw [h.wf.inverse] at hid
          exact hqs (Option.some.inj (hq.symm.trans hid))
        have hd : s.table.pathToId dst ≠ some i := by
          rw [ne_eq, h.wf.inverse]
          intro hd
          exact hqd (Option.some.inj (hq.symm.trans hd))
        rw [InodeTable.getPath, InodeTable.idToPath_rename hid, if_neg hij, if_neg hd]
        exact hq
    refine ⟨fun q hq => ?_, fun q o' hq ho' => ?_⟩
    · rcases ObjectTree.moved_cases hq with ⟨rest, hqc, ho⟩ | ⟨hnd, hns, ho⟩
      · obtain ⟨rfl, hpath⟩ := MovesAlone.of_id h hm hi hqc ho
        rw [List.append_nil] at hqc
        rw [VfsPath.ext_components hqc, InodeTable.getPath,
          InodeTable.idToPath_rename ((h.wf.inverse src i).mpr hpath), if_pos rfl]
      · refine hother q ?_ ?_ ((h.follow o i hi).1 q ho)
        · rintro rfl
          exact hns List.prefix_rfl
        · rintro rfl
          exact hnd List.prefix_rfl
    · -- A path that gets an object had no id, unless it is `dst` with the id of `src`.
      have hback : ∀ q, s.table.getPath i = some q → s.table.pathToId dst ≠ some i →
          (s.tree.move src.components dst.components).object q.components = some o' → o' = o := by
        intro q hq hd hmoved
        have hid := (h.wf.inverse q i).mpr hq
        rcases ObjectTree.moved_cases hmoved with ⟨rest, hqc, ho⟩ | ⟨-, -, ho⟩
        · by_cases hrest : rest = []
          · subst hrest
            rw [List.append_nil] at hqc
            rw [VfsPath.ext_components hqc] at hid
            exact absurd hid hd
          · rw [hm.onto q rest hqc hrest (by rw [ho]; simp)] at hid
            cases hid
        · exact (h.follow o i hi).2 q o' hq ho
      cases hid : s.table.pathToId src with
      | none =>
        rw [show (s.table.rename src dst) = s.table from InodeTable.rename_none hid dst] at hq
        exact hback q hq (by rw [hm.target hid]; simp) ho'
      | some j =>
        change (s.table.rename src dst).idToPath i = some q at hq
        rw [InodeTable.idToPath_rename hid] at hq
        split at hq
        · rename_i hij
          subst hij
          cases hq
          rcases ObjectTree.moved_cases ho' with ⟨rest, hqc, ho⟩ | ⟨hnd, -, -⟩
          · obtain rfl : rest = [] := List.append_cancel_left (hqc.symm.trans (List.append_nil _).symm)
            rw [List.append_nil] at ho
            exact (h.follow o i hi).2 src o' ((h.wf.inverse src i).mp hid) ho
          · exact absurd List.prefix_rfl hnd
        · split at hq
          · cases hq
          · rename_i hd
            exact hback q hq hd ho'

theorem Inv.start (tree : Tree) : Inv (start tree) where
  wf := .new
  bound _ _ hi := nomatch hi
  follow _ _ hi := nomatch hi

/-! ## Every call -/

theorem child_ne_root {dir : Nat} {name : Bytes} (h : s.child dir name = some p) : p ≠ .root := by
  unfold child at h
  split at h
  · cases h
    exact VfsPath.join_ne_root _ _
  · cases h

theorem Inv.lookup {dir : Nat} {name : Bytes} (h : Inv s) (hs : s.lookup dir name = some t) : Inv t := by
  unfold Handles.lookup at hs
  split at hs
  · cases hs
  · rename_i path hpath
    split at hs
    · cases hs
      exact h.record hpath
    · split at hs
      · split at hs
        · cases hs
          exact h.record h.wf.root
        · cases hs
          exact h.issue _
      · split at hs
        · cases hs
        · split at hs
          · cases hs
            exact h.issue _
          · cases hs

theorem Inv.readdir {dir : Nat} {names : List VfsName} (h : Inv s)
    (hs : s.readdir dir names = some t) : Inv t := by
  unfold Handles.readdir at hs
  split at hs
  · cases hs
  · rename_i path hpath
    dsimp only at hs
    split at hs
    · cases hs
      refine Inv.issue_all ?_ path names
      have hdot := h.record hpath
      split
      · exact hdot.record hdot.wf.root
      · exact hdot.issue _
    · cases hs

theorem Inv.rename (h : Inv s) (hsrc : src ≠ .root) (hdst : dst ≠ .root)
    (hv : s.Vacant dst.components.dropLast) (hm : src ≠ dst → (s.makeParents dst).MovesAlone src dst)
    (hs : ((s.makeParents dst).move src dst).map (fun s' => { s' with table := s'.table.rename src dst }) =
      some t) : Inv t := by
  obtain ⟨s', hs', rfl⟩ := Option.map_eq_some_iff.mp hs
  have hmade : Inv (s.makeParents dst) := h.make hv
  unfold Handles.move at hs'
  split at hs'
  · cases hs'
  · split at hs'
    · rename_i hsd
      subst hsd
      cases hs'
      rw [InodeTable.rename_self hmade.wf]
      exact hmade
    · rename_i hsd
      split at hs'
      · cases hs'
      · cases hs'
        exact hmade.move hsrc hdst (hm hsd)

theorem Inv.step {op : HandleOp} (h : Inv s) (ht : s.Tidy op) (hs : s.step op = some t) : Inv t := by
  cases op with
  | lookup dir name => exact h.lookup hs
  | readdir dir names => exact h.readdir hs
  | create dir name exclusive =>
    simp only [Handles.step] at hs
    split at hs
    · cases hs
    · rename_i p hp
      split at hs
      · cases hs
      · cases hs
        exact (h.make (ht p hp)).issue p
  | mkdir dir name =>
    simp only [Handles.step] at hs
    split at hs
    · cases hs
    · rename_i p hp
      cases hs
      exact (h.make (ht p hp)).issue p
  | remove dir name =>
    simp only [Handles.step] at hs
    split at hs
    · cases hs
    · rename_i p hp
      split at hs
      · cases hs
        refine h.shrink rfl fun q o hq => ?_
        change (if p.components <+: q.components then none else s.object q) = some o at hq
        split at hq
        · cases hq
        · exact hq
      · cases hs
  | rename srcDir srcName dstDir dstName =>
    simp only [Handles.step] at hs
    split at hs
    · rename_i src dst hsrc hdst
      obtain ⟨hv, hm⟩ := ht src dst hsrc hdst
      exact h.rename (child_ne_root hsrc) (child_ne_root hdst) hv hm hs
    · cases hs

end Handles

/-- On every workspace, in every run whose calls are tidy, an id resolves to the path of the object it was
returned for, as long as that exists, and never to another object. -/
theorem handles_follow {tree : Tree} {ops : List HandleOp} {s : Handles}
    (hm : Runs.Meets Handles.step Handles.Tidy (.start tree) ops)
    (h : Runs.run Handles.step (.start tree) ops = some s) : s.Follow := by
  have hinv : s.Inv :=
    Runs.run_inv_of_meets (fun _ _ _ hs ht hstep => hs.step ht hstep) (Handles.Inv.start tree) hm h
  exact hinv.follow

namespace Sample

/-- The paths `a` and `b`. -/
def a : VfsPath := KinVfs.Sample.a

def b : VfsPath := KinVfs.Sample.b

/-- A workspace that holds the file `a`. -/
def oneFile : Tree := ObjectTree.root.make a.components

/-- The file `a` is looked up, and then renamed to `b`. -/
def lookupAndRename : List HandleOp := [.lookup 1 [97], .rename 1 [97] 1 [98]]

/-- The state after the first call. -/
def looked : Handles := (Handles.start oneFile).issue a

/-- Nothing is below `a`. -/
theorem below_a {rest : List Bytes} (hrest : rest ≠ []) :
    (looked.makeParents b).tree.object (a.components ++ rest) = none := by
  cases ho : (looked.makeParents b).tree.object (a.components ++ rest) with
  | none => rfl
  | some o =>
    have hparents : oneFile.made [] (a.components ++ rest) = some o := ho
    rcases ObjectTree.made_cases hparents with ⟨hpre, -, -⟩ | hold
    · cases List.prefix_nil.mp hpre
    · have hmade : (ObjectTree.root : Tree).made a.components (a.components ++ rest) = some o := hold
      rcases ObjectTree.made_cases hmade with ⟨hpre, -, -⟩ | hroot
      · have hlen := hpre.length_le
        have hpos := List.length_pos_iff.mpr hrest
        simp only [List.length_append] at hlen
        omega
      · cases hroot

theorem lookupAndRename_tidy : Runs.Meets Handles.step Handles.Tidy (.start oneFile) lookupAndRename := by
  refine ⟨trivial, fun t ht => ⟨fun src dst hsrc hdst => ?_, fun _ _ => trivial⟩⟩
  obtain rfl : looked = t := Option.some.inj ht
  obtain rfl : a = src := Option.some.inj hsrc
  obtain rfl : b = dst := Option.some.inj hdst
  refine ⟨fun q hpre hnone => ?_, fun _ => ⟨fun q rest hq hrest hne => ?_, fun q rest _ hrest hne => ?_, ?_⟩⟩
  · obtain rfl := VfsPath.components_eq_nil.mp (List.prefix_nil.mp hpre)
    cases hnone
  · rw [Handles.object, hq] at hne
    exact absurd (below_a hrest) hne
  · exact absurd (below_a hrest) hne
  · intro hnone
    cases hnone

end Sample

theorem handles_follow_renamed :
    ∃ s o, Runs.run Handles.step (.start Sample.oneFile) Sample.lookupAndRename = some s ∧ (o, 2) ∈ s.issued ∧
      s.object Sample.b = some o ∧ s.table.getPath 2 = some Sample.b := by
  refine ⟨_, 2, rfl, by decide, rfl, ?_⟩
  have hfollow := handles_follow Sample.lookupAndRename_tidy rfl
  exact (hfollow 2 2 (by decide)).1 Sample.b rfl

namespace Sample

/-- The directory `d` with the file `d/f` in it, renamed to `e`. -/
def renameAbove : List HandleOp := [.mkdir 1 [100], .create 2 [102] false, .rename 1 [100] 1 [101]]

def df : VfsPath := KinVfs.Sample.df

def ef : VfsPath := ⟨[101, 47, 102], rfl⟩

end Sample

/-- Id 3 was returned for the file, which is now at `e/f`; the id resolves to `d/f`. -/
theorem renameAbove_not_followed :
    ∃ s o, Runs.run Handles.step (.start .root) Sample.renameAbove = some s ∧ (o, 3) ∈ s.issued ∧
      s.object Sample.ef = some o ∧ s.table.getPath 3 = some Sample.df ∧ ¬ s.Follow := by
  refine ⟨_, 5, rfl, by decide, rfl, rfl, fun hfollow => ?_⟩
  have hpath := (hfollow 5 3 (by decide)).1 Sample.ef rfl
  cases hpath

end KinVfs.Nfs
