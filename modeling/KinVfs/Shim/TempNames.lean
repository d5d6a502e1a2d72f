import KinVfs.Lib.Text
import KinVfs.Core.PathMap

/-!
# Temp files and the workspace (`crates/kin-vfs-shim/src/lib.rs`, `pathmap.rs`)

`isWorkspacePath` leaves the temp files of atomic writes to the host. It knows them by a search for
`.kin_tmp_` in the whole path, so a path of the workspace escapes too when the marker stands elsewhere
in it: the exemption is exact for the paths without the marker and for those that end in it and the
decimal number of a process, after the path of a target (`exemption_exact_iff`).
-/

namespace KinVfs

variable {roots : List Bytes} {p t : Bytes}

def isWorkspacePath (roots : List Bytes) (path : Bytes) : Bool :=
  if isInterposeTempArtifact path then false else (workspaceGraphKeyFromRoots path roots).isOk

/-- The path has a graph key. -/
def InWorkspace (roots : List Bytes) (path : Bytes) : Prop :=
  (workspaceGraphKeyFromRoots path roots).isOk = true

instance (roots : List Bytes) (path : Bytes) : Decidable (InWorkspace roots path) :=
  inferInstanceAs (Decidable (_ = true))

/-- A process id. -/
def IsPid (pid : Int) : Prop := -(2 ^ 31) ≤ pid ∧ pid < 2 ^ 31

/-- A temp file of a target in the workspace. -/
def IsTempFile (roots : List Bytes) (path : Bytes) : Prop :=
  ∃ target pid, IsPid pid ∧ path = atomicTempPath target pid ∧ InWorkspace roots target

/-- Nothing but a temp file is left to the host. -/
def ExemptionExact (roots : List Bytes) (path : Bytes) : Prop :=
  isWorkspacePath roots path = false → IsTempFile roots path

/-- After the last `.kin_tmp_`, if there is one, stands a process id, and before it the path of a
target. -/
def MarkerAtEnd (roots : List Bytes) (path : Bytes) : Prop :=
  ∀ split ∈ Text.splitLast tempMarker path,
    (∃ pid, IsPid pid ∧ split.2 = Text.decimal pid) ∧ InWorkspace roots split.1

theorem atomicTempPath_eq (target : Bytes) (pid : Int) :
    atomicTempPath target pid = target ++ tempMarker ++ Text.decimal pid := by
  have hmarker : ".kin_tmp_".toList.flatMap String.utf8EncodeChar = tempMarker := by decide
  rw [atomicTempPath, Text.toUTF8_toList, String.toList_append, List.flatMap_append, hmarker,
    Text.decimal, Text.toUTF8_toList, List.append_assoc]

/-- The marker of a temp path is its last. -/
theorem splitLast_atomicTempPath (target : Bytes) (pid : Int) :
    Text.splitLast tempMarker (atomicTempPath target pid) = some (target, Text.decimal pid) := by
  rw [atomicTempPath_eq]
  refine Text.splitLast_append fun hdot => ?_
  rcases List.mem_append.mp hdot with hdot | hdot
  · exact absurd hdot (by decide)
  · rcases Text.decimal_bytes hdot with h | ⟨h, -⟩
    · exact absurd h (by decide)
    · exact absurd h (by decide)

theorem isInterposeTempArtifact_eq_false :
    isInterposeTempArtifact p = false ↔ Text.splitLast tempMarker p = none :=
  (Text.splitLast_eq_none (by decide)).symm

/-- Every temp path is exempt. -/
theorem isInterposeTempArtifact_atomicTempPath (target : Bytes) (pid : Int) :
    isInterposeTempArtifact (atomicTempPath target pid) = true := by
  cases h : isInterposeTempArtifact (atomicTempPath target pid) with
  | true => rfl
  | false =>
    rw [isInterposeTempArtifact_eq_false, splitLast_atomicTempPath] at h
    cases h

theorem isTempFile_iff :
    IsTempFile roots p ↔ ∃ split ∈ Text.splitLast tempMarker p,
      (∃ pid, IsPid pid ∧ split.2 = Text.decimal pid) ∧ InWorkspace roots split.1 := by
  constructor
  · rintro ⟨target, pid, hpid, rfl, hin⟩
    exact ⟨_, splitLast_atomicTempPath target pid, ⟨pid, hpid, rfl⟩, hin⟩
  · rintro ⟨⟨target, digits⟩, hsplit, ⟨pid, hpid, hdigits⟩, hin⟩
    refine ⟨target, pid, hpid, ?_, hin⟩
    rw [atomicTempPath_eq, ← hdigits]
    exact Text.eq_append_of_splitLast hsplit

/-- When the exemption of a path of the workspace is exact. -/
theorem exemption_exact_iff (h : InWorkspace roots p) :
    ExemptionExact roots p ↔ MarkerAtEnd roots p := by
  unfold ExemptionExact MarkerAtEnd isWorkspacePath
  rw [isTempFile_iff]
  cases hsplit : Text.splitLast tempMarker p with
  | none =>
    have hkey : (workspaceGraphKeyFromRoots p roots).isOk = true := h
    rw [if_neg (by rw [isInterposeTempArtifact_eq_false.mpr hsplit]; decide), hkey]
    simp
  | some split =>
    have hmarked : isInterposeTempArtifact p = true := by
      cases hm : isInterposeTempArtifact p with
      | true => rfl
      | false =>
        rw [isInterposeTempArtifact_eq_false, hsplit] at hm
        cases hm
    rw [if_pos hmarked]
    simp

namespace Sample

/-- The host path `/w/f.kin_tmp_7`. -/
def tempPath : Bytes := atomicTempPath [47, 119, 47, 102] 7

/-- The host path `/w/f.kin_tmp_old`. -/
def oldPath : Bytes := [47, 119, 47, 102] ++ tempMarker ++ [111, 108, 100]

end Sample

theorem exemption_exact_iff_temp :
    InWorkspace [[47, 119]] Sample.tempPath ∧ ExemptionExact [[47, 119]] Sample.tempPath := by
  have hin : InWorkspace [[47, 119]] Sample.tempPath := by decide +kernel
  refine ⟨hin, (exemption_exact_iff hin).mpr ?_⟩
  rintro split hsplit
  rw [Sample.tempPath, splitLast_atomicTempPath] at hsplit
  cases hsplit
  exact ⟨⟨7, ⟨by decide, by decide⟩, rfl⟩, by decide⟩

/-- `/w/f.kin_tmp_old` in the workspace `/w` is left to the host and is no temp file. -/
theorem exemption_inexact_old :
    InWorkspace [[47, 119]] Sample.oldPath ∧ isWorkspacePath [[47, 119]] Sample.oldPath = false ∧
      ¬ ExemptionExact [[47, 119]] Sample.oldPath := by
  have hin : InWorkspace [[47, 119]] Sample.oldPath := by decide
  have hout : isWorkspacePath [[47, 119]] Sample.oldPath = false := by decide
  refine ⟨hin, hout, fun hexact => ?_⟩
  obtain ⟨split, hsplit, ⟨pid, -, hdigits⟩, -⟩ := isTempFile_iff.mp (hexact hout)
  have hlast : Text.splitLast tempMarker Sample.oldPath =
      some ([47, 119, 47, 102], [111, 108, 100]) := by decide
  rw [hlast] at hsplit
  cases hsplit
  have hbyte : (111 : UInt8) ∈ Text.decimal pid := by
    rw [← hdigits]
    exact List.mem_cons_self
  rcases Text.decimal_bytes hbyte with h | ⟨-, h⟩
  · exact absurd h (by decide)
  · exact absurd h (by decide)

end KinVfs
