import KinVfs.Core.Provider

/-!
# Providers that show a tree

`stat`, `exists` and `read_dir` are three questions; a provider shows a tree when their answers
agree (`TreeShaped`). `GraphTree` is what one graph snapshot keeps: it also says which error each
question ends in, and it has repository boundaries, which are listed and not statted.
-/

namespace KinVfs

/-- What a provider shows at a path. -/
def ContentProvider.kind (O : ContentProvider) (p : VfsPath) : Option FileType :=
  match O.stat p with
  | .ok st => some st.fileType
  | .error (.unsupportedRepositoryBoundary _) => some .gitlink
  | .error _ => none

/-- `stat` succeeds and `exists` is true. -/
def Present (O : ContentProvider) (p : VfsPath) : Prop :=
  (∃ st, O.stat p = .ok st) ∧ O.pathExists p = .ok true

def PresentDir (O : ContentProvider) (p : VfsPath) : Prop :=
  Present O p ∧ ∃ st, O.stat p = .ok st ∧ st.isDir = true

/-- The listing has the name once, with this type. -/
def ListsOnce (entries : List DirEntry) (n : VfsName) (ty : FileType) : Prop :=
  entries.filter (·.name = n) = [⟨n, ty⟩]

/-- `d` is a directory whose listing has `n`, once, with the type `stat` reports. -/
def Listed (O : ContentProvider) (d : VfsPath) (n : VfsName) : Prop :=
  PresentDir O d ∧ ∃ entries st, O.readDir d = .ok entries ∧ O.stat (d.join n) = .ok st ∧
    ListsOnce entries n st.fileType

/-- A path is present exactly when its parent is a directory that lists it. -/
def TreeShaped (O : ContentProvider) : Prop :=
  ∀ d n, Present O (d.join n) ↔ Listed O d n

theorem listsOnce_of_nodup {entries : List DirEntry} {n : VfsName} {ty : FileType}
    (hn : (entries.map (·.name)).Nodup) : ListsOnce entries n ty ↔ ⟨n, ty⟩ ∈ entries := by
  unfold ListsOnce
  induction entries with
  | nil => simp
  | cons e es ih =>
    rw [List.map_cons, List.nodup_cons] at hn
    have ih := ih hn.2
    rw [List.filter_cons, List.mem_cons]
    by_cases he : e.name = n
    · have hno : es.filter (·.name = n) = [] := by
        rw [List.filter_eq_nil_iff]
        intro x hx hxn
        refine hn.1 (List.mem_map.mpr ⟨x, hx, ?_⟩)
        rw [he]
        simpa using hxn
      have hnot : ⟨n, ty⟩ ∉ es := fun hmem =>
        hn.1 (List.mem_map.mpr ⟨_, hmem, he.symm⟩)
      rw [if_pos (by simpa using he), hno]
      simp [hnot, eq_comm]
    · rw [if_neg (by simpa using he), ih]
      constructor
      · exact .inr
      · rintro (h | h)
        · rw [← h] at he
          exact absurd rfl he
        · exact h

/-- The laws of one graph snapshot. -/
structure GraphTree (g : ContentProvider) : Prop where
  root : g.kind .root = some .directory
  parent : ∀ d n, g.kind (VfsPath.join d n) ≠ none → g.kind d = some .directory
  pathExists : ∀ p, g.pathExists p = .ok (g.kind p).isSome
  listing : ∀ d, g.kind d = some .directory → ∃ entries, g.readDir d = .ok entries ∧
    (entries.map (·.name)).Nodup ∧ ∀ n ty, ⟨n, ty⟩ ∈ entries ↔ g.kind (d.join n) = some ty
  notDirectory : ∀ d k, g.kind d = some k → k ≠ .directory →
    ∃ s, g.readDir d = .error (.notDirectory s)
  notFound : ∀ d, g.kind d = none → ∃ s, g.readDir d = .error (.notFound s)
  /-- An absent path is not readable. -/
  unreadable : ∀ p, g.kind p = none → (∃ e, g.readFile p = .error e) ∧
    (∀ offset len, ∃ e, g.readRange p offset len = .error e) ∧ ∃ e, g.readLink p = .error e

end KinVfs
