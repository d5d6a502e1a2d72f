import Mathlib.Data.List.Nodup
import KinVfs.Fuse.Write
import KinVfs.Lib.Runs
import KinVfs.Nfs.Inodes

/-!
# The numbers of the two mounts

The NFS export and the FUSE mount each number paths with a table of two maps and a counter (`nfs_fs.rs`,
`inode.rs`). Whatever the calls, the maps are inverse and the counter is above every number
(`inode_tables_bijective`). An NFS rename gives the number of one path to another, which loses its own: that can be
the root's. The counters are 64 bits wide in the code, so they stand for their values as long as fewer than
`2 ^ 64 - 2` numbers are assigned.
-/

namespace KinVfs

/-- What a table promises. `assigned` is history: the numbers it assigned, each with its path, since it held the
root only. -/
structure Bijective (pathTo : VfsPath → Option Nat) (toPath : Nat → Option VfsPath) (next : Nat)
    (assigned : List (Nat × VfsPath)) : Prop where
  inverse : Numbering.Inverse pathTo toPath
  /-- No number is assigned again. -/
  distinct : (assigned.map (·.1)).Nodup
  below : ∀ i p, toPath i = some p → i < next
  assignedBelow : ∀ e ∈ assigned, e.1 < next
  noWrap : assigned.length < 2 ^ 64 - 2 → next < 2 ^ 64

/-- The counter is a number that was not assigned. -/
theorem distinct_concat {assigned : List (Nat × VfsPath)} {next : Nat} (h : (assigned.map (·.1)).Nodup)
    (hbelow : ∀ e ∈ assigned, e.1 < next) (path : VfsPath) :
    ((assigned ++ [(next, path)]).map (·.1)).Nodup := by
  rw [List.map_append, List.map_singleton, List.nodup_append_comm]
  refine List.nodup_cons.mpr ⟨fun hmem => ?_, h⟩
  obtain ⟨e, he, hid⟩ := List.mem_map.mp hmem
  exact absurd hid (Nat.ne_of_lt (hbelow e he))

/-! ## The NFS table -/

inductive NfsTableCall where
  | getOrAssign (path : VfsPath)
  | rename (src dst : VfsPath)

structure NfsNumbers where
  table : Nfs.InodeTable
  assigned : List (Nat × VfsPath)

namespace NfsNumbers

def new : NfsNumbers := ⟨.new, []⟩

def step (s : NfsNumbers) : NfsTableCall → Option NfsNumbers
  | .getOrAssign path =>
    let (id, table) := s.table.getOrAssign path
    some ⟨table, if (s.table.pathToId path).isNone then s.assigned ++ [(id, path)] else s.assigned⟩
  | .rename src dst => some { s with table := s.table.rename src dst }

/-- No other path is renamed onto `path`. -/
def Avoids (path : VfsPath) : NfsTableCall → Prop
  | .rename src dst => dst = path → src = path
  | .getOrAssign _ => True

/-- The root is not renamed to another path, and no known path is renamed onto it. -/
def KeepsRoot (s : NfsNumbers) : NfsTableCall → Prop
  | .rename src dst => src = dst ∨ s.table.pathToId src = none ∨ src ≠ .root ∧ dst ≠ .root
  | .getOrAssign _ => True

structure Ok (s : NfsNumbers) : Prop where
  numbered : s.table.Numbered
  next : s.table.nextId = s.assigned.length + 2
  distinct : (s.assigned.map (·.1)).Nodup
  below : ∀ e ∈ s.assigned, e.1 < s.table.nextId
  /-- The root's number is not assigned. -/
  above : ∀ e ∈ s.assigned, 1 < e.1

variable {s s' : NfsNumbers} {l : NfsTableCall}

theorem Ok.step (h : s.Ok) (hstep : s.step l = some s') : s'.Ok := by
  cases l with
  | rename src dst =>
    cases hstep
    have hnext : (s.table.rename src dst).nextId = s.table.nextId := Nfs.InodeTable.nextId_rename s.table src dst
    refine ⟨h.numbered.rename src dst, hnext.trans h.next, h.distinct, fun e he => ?_, h.above⟩
    rw [hnext]
    exact h.below e he
  | getOrAssign path =>
    cases hstep
    cases hpath : s.table.pathToId path with
    | some id => exact h
    | none =>
      have hpos : 0 < s.table.nextId := by
        rw [h.next]
        omega
      refine ⟨h.numbered.assign hpath hpos, ?_, ?_, fun e he => ?_, fun e he => ?_⟩
      · show s.table.nextId + 1 = (s.assigned ++ [_]).length + 2
        rw [h.next, List.length_append, List.length_singleton]
      · exact distinct_concat h.distinct h.below path
      · show e.1 < s.table.nextId + 1
        rcases List.mem_append.mp he with he | he
        · exact Nat.lt_succ_of_lt (h.below e he)
        · rw [List.mem_singleton.mp he]
          exact Nat.lt_succ_self _
      · rcases List.mem_append.mp he with he | he
        · exact h.above e he
        · rw [List.mem_singleton.mp he]
          show 1 < s.table.nextId
          rw [h.next]
          omega

theorem Ok.step_total (h : s.Ok) (l : NfsTableCall) : ∃ s', s.step l = some s' ∧ s'.Ok := by
  obtain ⟨s', hstep⟩ : ∃ s', s.step l = some s' := by
    cases l <;> exact ⟨_, rfl⟩
  exact ⟨s', hstep, h.step hstep⟩

theorem Ok.bijective (h : s.Ok) : Bijective s.table.pathToId s.table.idToPath s.table.nextId s.assigned where
  inverse := h.numbered.inverse
  distinct := h.distinct
  below i p hp := (h.numbered.fresh i p hp).2
  assignedBelow := h.below
  noWrap hlength := by
    rw [h.next]
    omega

/-- The number of `path` is the one assigned for it, or the root's. -/
def Own (path : VfsPath) (s : NfsNumbers) : Prop :=
  ∀ i, s.table.pathToId path = some i → (i, path) ∈ s.assigned ∨ i = 1

theorem Own.step {path : VfsPath} (h : s.Own path) (hl : Avoids path l) (hstep : s.step l = some s') :
    s'.Own path := by
  cases l with
  | getOrAssign p =>
    cases hstep
    cases hp : s.table.pathToId p with
    | some id => exact h
    | none =>
      intro i hi
      change (if path = p then some s.table.nextId else s.table.pathToId path) = some i at hi
      split at hi
      · rename_i hpath
        rw [← hpath, ← Option.some.inj hi]
        exact .inl (List.mem_append_right _ (List.mem_singleton_self _))
      · exact (h i hi).imp_left (List.mem_append_left _)
  | rename src dst =>
    cases hstep
    intro i hi
    change (s.table.rename src dst).pathToId path = some i at hi
    cases hsrc : s.table.pathToId src with
    | none =>
      rw [Nfs.InodeTable.rename_none hsrc] at hi
      exact h i hi
    | some id =>
      rw [Nfs.InodeTable.pathToId_rename hsrc] at hi
      split at hi
      · rename_i hdst
        rw [← Option.some.inj hi]
        exact h id (hl hdst.symm ▸ hsrc)
      · split at hi
        · cases hi
        · exact h i hi

/-- The number that is given for a path was assigned for no other, if no other was renamed onto it. -/
theorem Ok.handed_of_own (h : s.Ok) {path : VfsPath} (hown : s.Own path) :
    ∀ e ∈ s.assigned, e.1 = (s.table.getOrAssign path).1 → e.2 = path := by
  intro e he hid
  unfold Nfs.InodeTable.getOrAssign at hid
  cases hpath : s.table.pathToId path with
  | some id =>
    rw [hpath] at hid
    rcases hown id hpath with hmem | hroot
    · exact congrArg Prod.snd (List.inj_on_of_nodup_map h.distinct he hmem hid)
    · exact absurd (hid.trans hroot) (Nat.ne_of_gt (h.above e he))
  | none =>
    rw [hpath] at hid
    exact absurd hid (Nat.ne_of_lt (h.below e he))

/-- The root keeps its number. -/
theorem root_step (h : s.table.Wf) (hl : s.KeepsRoot l) (hstep : s.step l = some s') : s'.table.Wf := by
  cases l with
  | getOrAssign path =>
    cases hstep
    exact h.getOrAssign path
  | rename src dst =>
    cases hstep
    rcases hl with rfl | hsrc | ⟨hsrc, hdst⟩
    · show (s.table.rename src src).Wf
      rw [Nfs.InodeTable.rename_self h]
      exact h
    · show (s.table.rename src dst).Wf
      rw [Nfs.InodeTable.rename_none hsrc]
      exact h
    · exact h.rename hsrc hdst

end NfsNumbers

/-! ## The FUSE table -/

inductive FuseTableCall where
  | getOrInsert (path : VfsPath)
  | clear

/-- `assigned` starts again when the table is cleared. -/
structure FuseNumbers where
  table : Fuse.InodeTable
  assigned : List (Nat × VfsPath)

namespace FuseNumbers

def new : FuseNumbers := ⟨.new, []⟩

def step (s : FuseNumbers) : FuseTableCall → Option FuseNumbers
  | .getOrInsert path =>
    let (ino, table) := s.table.getOrInsert path
    some ⟨table, if (s.table.pathToIno path).isNone then s.assigned ++ [(ino, path)] else s.assigned⟩
  | .clear => some ⟨s.table.clear, []⟩

structure Ok (s : FuseNumbers) : Prop where
  inverse : Numbering.Inverse s.table.pathToIno s.table.inoToPath
  next : s.table.nextIno = s.assigned.length + 2
  below : ∀ i p, s.table.inoToPath i = some p → i < s.table.nextIno
  root : s.table.inoToPath Fuse.rootIno = some .root
  distinct : (s.assigned.map (·.1)).Nodup
  /-- An assigned number stays the path's own. -/
  kept : ∀ e ∈ s.assigned, s.table.inoToPath e.1 = some e.2

variable {s s' : FuseNumbers} {l : FuseTableCall}

theorem new_ok : new.Ok := by
  refine ⟨fun p i => ?_, rfl, fun i p hp => ?_, rfl, List.nodup_nil, nofun⟩
  · show (if p = .root then some Fuse.rootIno else none) = some i ↔
      (if i = Fuse.rootIno then some .root else none) = some p
    by_cases hp : p = .root
    · simp [hp, eq_comm]
    · simp [hp, Ne.symm hp]
  · change (if i = Fuse.rootIno then some VfsPath.root else none) = some p at hp
    show i < 2
    split at hp
    · rename_i hi
      rw [hi]
      decide
    · cases hp

theorem Ok.step (h : s.Ok) (hstep : s.step l = some s') : s'.Ok := by
  cases l with
  | clear =>
    cases hstep
    exact new_ok
  | getOrInsert path =>
    cases hstep
    cases hpath : s.table.pathToIno path with
    | some ino => exact h
    | none =>
      have hnew : s.table.inoToPath s.table.nextIno = none := by
        cases hn : s.table.inoToPath s.table.nextIno with
        | none => rfl
        | some p => exact absurd (h.below _ p hn) (Nat.lt_irrefl _)
      -- The numbers of the table are not the new one.
      have hold : ∀ i p, s.table.inoToPath i = some p →
          (if i = s.table.nextIno then some path else s.table.inoToPath i) = some p := by
        intro i p hp
        rw [if_neg (Nat.ne_of_lt (h.below i p hp)), hp]
      refine ⟨h.inverse.insert hpath hnew, ?_, fun i p hp => ?_, hold _ _ h.root, ?_, fun e he => ?_⟩
      · show s.table.nextIno + 1 = (s.assigned ++ [_]).length + 2
        rw [h.next, List.length_append, List.length_singleton]
      · change (if i = s.table.nextIno then some path else s.table.inoToPath i) = some p at hp
        show i < s.table.nextIno + 1
        split at hp
        · omega
        · exact Nat.lt_succ_of_lt (h.below i p hp)
      · exact distinct_concat h.distinct (fun e he => h.below e.1 e.2 (h.kept e he)) path
      · rcases List.mem_append.mp he with he | he
        · exact hold e.1 e.2 (h.kept e he)
        · rw [List.mem_singleton.mp he]
          exact if_pos rfl

theorem Ok.step_total (h : s.Ok) (l : FuseTableCall) : ∃ s', s.step l = some s' ∧ s'.Ok := by
  obtain ⟨s', hstep⟩ : ∃ s', s.step l = some s' := by
    cases l <;> exact ⟨_, rfl⟩
  exact ⟨s', hstep, h.step hstep⟩

theorem Ok.bijective (h : s.Ok) : Bijective s.table.pathToIno s.table.inoToPath s.table.nextIno s.assigned where
  inverse := h.inverse
  distinct := h.distinct
  below := h.below
  assignedBelow e he := h.below e.1 e.2 (h.kept e he)
  noWrap hlength := by
    rw [h.next]
    omega

/-- The number that is given for a path was assigned for no other. -/
theorem Ok.handed (h : s.Ok) (path : VfsPath) :
    ∀ e ∈ s.assigned, e.1 = (s.table.getOrInsert path).1 → e.2 = path := by
  intro e he hid
  have hkept := h.kept e he
  rw [hid] at hkept
  unfold Fuse.InodeTable.getOrInsert at hkept
  cases hpath : s.table.pathToIno path with
  | some ino =>
    rw [hpath] at hkept
    exact Option.some.inj (hkept.symm.trans ((h.inverse path ino).mp hpath))
  | none =>
    rw [hpath] at hkept
    exact absurd (h.below _ e.2 hkept) (Nat.lt_irrefl _)

end FuseNumbers

/-! ## Every sequence of calls -/

/-- **Both tables are bijections** after every sequence of calls. A path is given a number that was assigned for
another only on the export, if another was renamed onto it. The number 1 is the root's: on the FUSE mount always, on
the export while no rename takes the root away or puts another path in its place. -/
theorem inode_tables_bijective :
    (∀ calls, ∃ s, Runs.run NfsNumbers.step .new calls = some s ∧
      Bijective s.table.pathToId s.table.idToPath s.table.nextId s.assigned ∧
      (∀ path, (∀ l ∈ calls, NfsNumbers.Avoids path l) →
        ∀ e ∈ s.assigned, e.1 = (s.table.getOrAssign path).1 → e.2 = path) ∧
      (Runs.Meets NfsNumbers.step NfsNumbers.KeepsRoot .new calls → s.table.idToPath 1 = some .root)) ∧
    ∀ calls, ∃ s, Runs.run FuseNumbers.step .new calls = some s ∧
      Bijective s.table.pathToIno s.table.inoToPath s.table.nextIno s.assigned ∧
      (∀ path, ∀ e ∈ s.assigned, e.1 = (s.table.getOrInsert path).1 → e.2 = path) ∧
      s.table.inoToPath 1 = some .root := by
  constructor
  · intro calls
    have hnew : NfsNumbers.new.Ok := ⟨Nfs.InodeTable.Wf.new.numbered, rfl, List.nodup_nil, nofun, nofun⟩
    obtain ⟨s, hrun, hok⟩ : ∃ s, Runs.run NfsNumbers.step .new calls = some s ∧ s.Ok :=
      Runs.run_total (C := fun _ => True) (fun s l hs _ => hs.step_total l) hnew fun _ _ => trivial
    refine ⟨s, hrun, hok.bijective, fun path havoids => hok.handed_of_own ?_, fun hroot => ?_⟩
    · refine Runs.run_inv_of_meets (P := NfsNumbers.Own path)
        (fun s l s' hs hl hstep => NfsNumbers.Own.step (s := s) (l := l) hs hl hstep) ?_
        (Runs.meets_of_forall havoids) hrun
      intro i hi
      change (if path = .root then some 1 else none) = some i at hi
      split at hi
      · exact .inr (Option.some.inj hi).symm
      · cases hi
    have hwf : s.table.Wf := Runs.run_inv_of_meets (P := fun s : NfsNumbers => s.table.Wf)
      (fun s l s' hs hl hstep => NfsNumbers.root_step hs hl hstep) Nfs.InodeTable.Wf.new hroot hrun
    exact hwf.root
  · intro calls
    obtain ⟨s, hrun, hok⟩ : ∃ s, Runs.run FuseNumbers.step .new calls = some s ∧ s.Ok :=
      Runs.run_total (C := fun _ => True) (fun s l hs _ => hs.step_total l) FuseNumbers.new_ok fun _ _ => trivial
    exact ⟨s, hrun, hok.bijective, hok.handed, hok.root⟩

namespace Sample

def renamedFrom : VfsPath := a

def renamedTo : VfsPath := b

end Sample

/-- A path renamed onto the root takes its entry, though the root itself is not renamed; and a renamed path is
given the number that was assigned for the path it had. -/
theorem not_inode_tables_bijective :
    (∃ s, Runs.run NfsNumbers.step .new
        [.getOrAssign Sample.renamedFrom, .rename Sample.renamedFrom .root] = some s ∧
      s.table.idToPath 1 = none) ∧
    ∃ s, Runs.run NfsNumbers.step .new
        [.getOrAssign Sample.renamedFrom, .rename Sample.renamedFrom Sample.renamedTo] = some s ∧
      (2, Sample.renamedFrom) ∈ s.assigned ∧ (s.table.getOrAssign Sample.renamedTo).1 = 2 := by
  refine ⟨⟨_, rfl, by decide⟩, _, rfl, by decide, by decide⟩

end KinVfs
