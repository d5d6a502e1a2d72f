import KinVfs.Daemon.Sys

/-!
# The workspace router (`crates/kin-vfs-nfs/src/router.rs`)

One export process serves the registered workspaces, each through a slot that the first lookup
creates. Here: the write side of a slot, and what a status probe is told. The registry maps are
association lists.
-/

namespace KinVfs

/-- A workspace slot. `writer` says whether it has a write side; the staging of that writer is kept
beside the working copy it stages into. -/
structure WorkspaceSlot where
  offset : Nat
  writer : Bool
  deriving DecidableEq

def inodesPerWorkspace : Nat := 2 ^ 40

/-- Slot `n` starts at `workspaceBase + n * inodesPerWorkspace`. -/
def workspaceBase : Nat := 2 ^ 20

structure KinNfsRouter where
  slots : List (String × WorkspaceSlot)
  /-- The names of the registry entries loaded at construction. -/
  entries : List String
  nextSlot : Nat
  writable : Bool
  /-- Why a workspace could not be opened writable. -/
  refusals : List (String × VfsError)

namespace KinNfsRouter

/-- `KinNfsRouter::with_writes`. -/
def withWrites (entries : List String) (writable : Bool) : KinNfsRouter := ⟨[], entries, 0, writable, []⟩

def insertSlot (r : KinNfsRouter) (name : String) (writer : Bool) : KinNfsRouter :=
  { r with
    slots := r.slots ++ [(name, ⟨workspaceBase + r.nextSlot * inodesPerWorkspace, writer⟩)]
    nextSlot := r.nextSlot + 1 }

/-- Create the slot of `name` on first use. The second component is the staging of the writer that
was built, when one was. `author` is what `resolve_author` finds for the workspace. -/
def getOrCreateSlot (r : KinNfsRouter) (name : String) (author : Option String) :
    KinNfsRouter × Option Staging :=
  if (r.slots.lookup name).isSome then (r, none)
  else if !r.entries.contains name then (r, none)
  else if r.writable then
    match KinDaemonWriter.new author with
    | .ok (_, staging) => (r.insertSlot name true, some staging)
    | .error e =>
      -- A writer that cannot be built is recorded and the workspace is served read-only.
      ({ r with refusals := r.refusals ++ [(name, e)] }.insertSlot name false, none)
  else (r.insertSlot name false, none)

/-- The slot of `name` has a write side. -/
def hasWriter (r : KinNfsRouter) (name : String) : Bool :=
  (r.slots.lookup name).any (·.writer)

variable {r r' : KinNfsRouter} {name n : String} {author : Option String}

theorem hasWriter_insertSlot {w : Bool} (h : r.slots.lookup name = none) :
    (r.insertSlot name w).hasWriter n = if n = name then w else r.hasWriter n := by
  unfold hasWriter insertSlot
  rw [List.lookup_append]
  by_cases hn : n = name
  · subst hn
    simp [h]
  · have hne : (n == name) = false := by simpa using hn
    simp [hn, List.lookup_cons, hne]

/-- A lookup that builds no writer changes no write side. -/
theorem getOrCreateSlot_none (h : r.getOrCreateSlot name author = (r', none)) :
    r'.hasWriter n = r.hasWriter n := by
  unfold getOrCreateSlot at h
  split at h
  · cases h; rfl
  · rename_i hslot
    have hnone : r.slots.lookup name = none := Option.not_isSome_iff_eq_none.mp hslot
    have hkeep : ∀ s : KinNfsRouter, s.slots = r.slots →
        (s.insertSlot name false).hasWriter n = r.hasWriter n := by
      intro s hs
      rw [hasWriter_insertSlot (by rw [hs]; exact hnone)]
      split
      · rename_i hn
        simp [hasWriter, hn, hnone]
      · simp [hasWriter, hs]
    split at h
    · cases h; rfl
    · split at h
      · split at h
        · cases h
        · cases h
          exact hkeep _ rfl
      · cases h
        exact hkeep _ rfl

/-- A lookup that builds a writer: it is the workspace's first, and its staging is empty. -/
theorem getOrCreateSlot_some {staging : Staging}
    (h : r.getOrCreateSlot name author = (r', some staging)) :
    staging = .init ∧ r.hasWriter name = false ∧
      ∀ n, n ≠ name → r'.hasWriter n = r.hasWriter n := by
  unfold getOrCreateSlot at h
  split at h
  · cases h
  · rename_i hslot
    have hnone : r.slots.lookup name = none := Option.not_isSome_iff_eq_none.mp hslot
    split at h
    · cases h
    · split at h
      · split at h
        · rename_i a st hnew
          cases h
          refine ⟨?_, by simp [hasWriter, hnone], fun n hn => ?_⟩
          · unfold KinDaemonWriter.new at hnew
            split at hnew <;> cases hnew
            rfl
          · rw [hasWriter_insertSlot hnone, if_neg hn]
        · cases h
      · cases h

theorem mem_slots_of_hasWriter (h : r.hasWriter n = true) : ∃ slot, (n, slot) ∈ r.slots := by
  unfold hasWriter at h
  rw [Option.any_eq_true] at h
  obtain ⟨slot, hs, -⟩ := h
  exact ⟨slot, List.lookup_eq_some_iff.mp hs |>.elim fun l₁ ⟨l₂, hl, _⟩ => by simp [hl]⟩

end KinNfsRouter
end KinVfs
