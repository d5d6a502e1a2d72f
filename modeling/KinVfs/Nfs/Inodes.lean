import KinVfs.Core.Path
import KinVfs.Lib.Numbering

/-!
# The file ids of one workspace (`InodeTable` of `crates/kin-vfs-nfs/src/nfs_fs.rs`)

A path gets its id when it is first asked for, and a rename moves the id of the path itself. The two maps
stay inverse to each other (`InodeTable.Wf`), whatever the calls.
-/

namespace KinVfs.Nfs

@[ext] structure InodeTable where
  pathToId : VfsPath → Option Nat
  idToPath : Nat → Option VfsPath
  nextId : Nat

namespace InodeTable

/-- Ids 0 and 1 are taken: 0 is reserved, 1 is the root. -/
def new : InodeTable where
  pathToId p := if p = .root then some 1 else none
  idToPath i := if i = 1 then some .root else none
  nextId := 2

def assign (t : InodeTable) (path : VfsPath) : InodeTable where
  pathToId p := if p = path then some t.nextId else t.pathToId p
  idToPath i := if i = t.nextId then some path else t.idToPath i
  nextId := t.nextId + 1

def getOrAssign (t : InodeTable) (path : VfsPath) : Nat × InodeTable :=
  match t.pathToId path with
  | some id => (id, t)
  | none => (t.nextId, t.assign path)

def getPath (t : InodeTable) (id : Nat) : Option VfsPath := t.idToPath id

/-- The id of `src` goes on to `dst`; the entry `dst` had is dropped. -/
def rename (t : InodeTable) (src dst : VfsPath) : InodeTable :=
  match t.pathToId src with
  | none => t
  | some id =>
    -- `src` is removed before `dst` is inserted, so a rename onto itself displaces nothing.
    let displaced := if dst = src then none else t.pathToId dst
    { t with
      pathToId := fun p => if p = dst then some id else if p = src then none else t.pathToId p
      idToPath := fun i => if i = id then some dst else if some i = displaced then none else t.idToPath i }

/-- The maps are inverse, ids come below `nextId`, and the root keeps its own. -/
structure Wf (t : InodeTable) : Prop where
  inverse : ∀ p i, t.pathToId p = some i ↔ t.idToPath i = some p
  fresh : ∀ i p, t.idToPath i = some p → 0 < i ∧ i < t.nextId
  root : t.idToPath 1 = some .root

/-- The part that holds whatever is renamed. -/
structure Numbered (t : InodeTable) : Prop where
  inverse : Numbering.Inverse t.pathToId t.idToPath
  fresh : ∀ i p, t.idToPath i = some p → 0 < i ∧ i < t.nextId

variable {t : InodeTable} {p q : VfsPath} {i j : Nat}

theorem Wf.numbered (h : Wf t) : t.Numbered := ⟨h.inverse, h.fresh⟩

theorem Wf.new : Wf new where
  inverse p i := by
    show (if p = .root then some 1 else none) = some i ↔ (if i = 1 then some .root else none) = some p
    by_cases hp : p = .root
    · simp [hp, eq_comm]
    · simp [hp, Ne.symm hp]
  fresh i p h := by
    change (if i = 1 then some VfsPath.root else none) = some p at h
    split at h
    · subst i
      exact ⟨by decide, by decide⟩
    · cases h
  root := rfl

/-- A path has one id. -/
theorem Wf.path_inj (h : Wf t) (hp : t.pathToId p = some i) (hq : t.pathToId q = some i) : p = q := by
  rw [h.inverse] at hp hq
  rw [hp] at hq
  exact Option.some.inj hq

theorem Wf.one_lt (h : Wf t) : 1 < t.nextId := (h.fresh 1 .root h.root).2

theorem Numbered.idToPath_nextId (h : t.Numbered) : t.idToPath t.nextId = none := by
  cases hn : t.idToPath t.nextId with
  | none => rfl
  | some r => exact absurd (h.fresh _ r hn).2 (Nat.lt_irrefl _)

theorem Numbered.assign (h : t.Numbered) (hp : t.pathToId p = none) (hpos : 0 < t.nextId) :
    (t.assign p).Numbered where
  inverse := h.inverse.insert hp h.idToPath_nextId
  fresh i q hq := by
    change (if i = t.nextId then some p else t.idToPath i) = some q at hq
    show 0 < i ∧ i < t.nextId + 1
    split at hq
    · omega
    · have := h.fresh i q hq
      omega

theorem Wf.assign (h : Wf t) (hp : t.pathToId p = none) : Wf (t.assign p) := by
  have hone := h.one_lt
  obtain ⟨hinverse, hfresh⟩ := h.numbered.assign hp (by omega)
  refine ⟨hinverse, hfresh, ?_⟩
  show (if 1 = t.nextId then some p else t.idToPath 1) = some .root
  rw [if_neg (Nat.ne_of_lt hone), h.root]

theorem Wf.getOrAssign (h : Wf t) (p : VfsPath) : Wf (t.getOrAssign p).2 := by
  unfold InodeTable.getOrAssign
  split
  · exact h
  · rename_i hp
    exact h.assign hp

/-- The id that is returned is the path's. -/
theorem pathToId_getOrAssign (t : InodeTable) (p : VfsPath) :
    (t.getOrAssign p).2.pathToId p = some (t.getOrAssign p).1 := by
  unfold InodeTable.getOrAssign
  split
  · rename_i hp
    exact hp
  · exact if_pos rfl

/-- An id stays the path's own. -/
theorem pathToId_getOrAssign_of (h : t.pathToId q = some i) (p : VfsPath) :
    (t.getOrAssign p).2.pathToId q = some i := by
  unfold InodeTable.getOrAssign
  split
  · exact h
  · rename_i hp
    refine (if_neg ?_).trans h
    rintro rfl
    rw [hp] at h
    cases h

theorem nextId_getOrAssign (t : InodeTable) (p : VfsPath) : t.nextId ≤ (t.getOrAssign p).2.nextId := by
  unfold InodeTable.getOrAssign
  split
  · exact Nat.le_refl _
  · exact Nat.le_succ _

/-- An id that was given resolves as it did, also when that is nowhere. -/
theorem idToPath_getOrAssign_lt (hi : i < t.nextId) (p : VfsPath) :
    (t.getOrAssign p).2.idToPath i = t.idToPath i := by
  unfold InodeTable.getOrAssign
  split
  · rfl
  · exact if_neg (Nat.ne_of_lt hi)

/-! ## A rename -/

theorem rename_none (h : t.pathToId p = none) (q : VfsPath) : t.rename p q = t := by
  unfold InodeTable.rename
  rw [h]

theorem pathToId_rename (h : t.pathToId p = some i) (q r : VfsPath) :
    (t.rename p q).pathToId r = if r = q then some i else if r = p then none else t.pathToId r := by
  unfold InodeTable.rename
  rw [h]

theorem idToPath_rename (h : t.pathToId p = some i) (q : VfsPath) (j : Nat) :
    (t.rename p q).idToPath j =
      if j = i then some q else if t.pathToId q = some j then none else t.idToPath j := by
  unfold InodeTable.rename
  rw [h]
  dsimp only
  split
  · rfl
  · rename_i hj
    by_cases hqp : q = p
    · subst hqp
      have hne : t.pathToId q ≠ some j := by
        rw [h]
        simpa using Ne.symm hj
      rw [if_pos rfl, if_neg (by simp), if_neg hne]
    · rw [if_neg hqp]
      by_cases hd : t.pathToId q = some j
      · rw [if_pos hd.symm, if_pos hd]
      · rw [if_neg (Ne.symm hd), if_neg hd]

theorem rename_self (hw : Wf t) (p : VfsPath) : t.rename p p = t := by
  cases h : t.pathToId p with
  | none => exact rename_none h p
  | some i =>
    ext1
    · funext r
      rw [pathToId_rename h]
      split
      · rename_i hr
        rw [hr, h]
      · rfl
    · funext j
      rw [idToPath_rename h, h]
      split
      · rename_i hj
        rw [hj, (hw.inverse p i).mp h]
      · rename_i hj
        rw [if_neg (by simpa using Ne.symm hj)]
    · unfold InodeTable.rename
      rw [h]

theorem nextId_rename (t : InodeTable) (p q : VfsPath) : (t.rename p q).nextId = t.nextId := by
  unfold InodeTable.rename
  split <;> rfl

theorem Numbered.rename (h : t.Numbered) (p q : VfsPath) : (t.rename p q).Numbered := by
  cases hid : t.pathToId p with
  | none =>
    rw [rename_none hid]
    exact h
  | some i =>
    refine ⟨fun r j => ?_, fun j r hj => ?_⟩
    · rw [pathToId_rename hid, idToPath_rename hid]
      exact h.inverse.move hid r j
    · rw [idToPath_rename hid] at hj
      rw [nextId_rename]
      split at hj
      · rename_i heq
        subst heq
        exact h.fresh _ _ ((h.inverse p j).mp hid)
      · split at hj
        · cases hj
        · exact h.fresh _ _ hj

/-- The root keeps its number when it is neither renamed nor renamed onto. -/
theorem Wf.rename (h : Wf t) (hp : p ≠ .root) (hq : q ≠ .root) : Wf (t.rename p q) := by
  obtain ⟨hinverse, hfresh⟩ := h.numbered.rename p q
  refine ⟨hinverse, hfresh, ?_⟩
  cases hid : t.pathToId p with
  | none =>
    rw [rename_none hid]
    exact h.root
  | some i =>
    rw [idToPath_rename hid]
    have hne1 : 1 ≠ i := by
      rintro rfl
      rw [h.inverse, h.root] at hid
      exact hp (Option.some.inj hid).symm
    have hne2 : t.pathToId q ≠ some 1 := by
      rw [ne_eq, h.inverse, h.root, Option.some.injEq]
      exact Ne.symm hq
    rw [if_neg hne1, if_neg hne2, h.root]

end InodeTable

end KinVfs.Nfs
