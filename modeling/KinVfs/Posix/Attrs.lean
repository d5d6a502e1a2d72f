import KinVfs.Posix.CallSpec

/-!
# Entries with their permission bits

`Fs.attr` is what an observer sees of an entry: its kind and content (`Fs.shape`) and its permission bits. The
changes of one entry as equations over it, as `Posix.Shape` has them over the shapes alone; modification
times are in neither.
-/

namespace Posix
namespace Fs

variable {fs : Fs} {p q l : Path} {nd : Node}

/-- Kind, content and permission bits. -/
def attr (fs : Fs) (p : Path) : Option (Shape × Nat) := (fs.node p).map fun nd => (nd.shape, nd.info.mode)

theorem shape_eq_attr (fs : Fs) (p : Path) : fs.shape p = (fs.attr p).map Prod.fst := by
  unfold shape attr
  cases fs.node p <;> rfl

theorem attr_eq_none : fs.attr p = none ↔ fs.shape p = none := by
  rw [shape_eq_attr]
  cases fs.attr p <;> simp

theorem attr_setNode (hk : (fs.node p).map Node.isDir = some nd.isDir) (hf : nd.fits = true) :
    (fs.setNode p nd).attr q = if q = p then some (nd.shape, nd.info.mode) else fs.attr q := by
  unfold setNode attr
  rw [dif_pos ⟨hk, hf⟩]
  dsimp only
  split <;> rfl

theorem attr_touch : (fs.touch p).attr q = fs.attr q := by
  unfold touch
  cases hn : fs.node p with
  | none => rfl
  | some nd =>
    have hk : (fs.node p).map Node.isDir = some (nd.touch fs.env.now).isDir := by simp [hn]
    have hf : (nd.touch fs.env.now).fits = true := by
      cases nd with
      | file i c => exact fs.sized p _ hn
      | _ => rfl
    rw [attr_setNode hk hf]
    split
    · rename_i hq
      subst hq
      rw [attr, hn]
      cases nd <;> rfl
    · rfl

theorem attr_addEntry (hl : l ≠ []) (hd : fs.isDir l.dropLast = true) (hn : fs.node l = none)
    (hf : nd.fits = true) :
    (fs.addEntry l nd).attr q = if q = l then some (nd.shape, nd.info.mode) else fs.attr q := by
  unfold addEntry
  rw [dif_pos ⟨hl, hd, hn, hf⟩, attr_touch]
  unfold attr
  dsimp only
  split <;> rfl

theorem attr_removeEntry (hl : l ≠ []) (hd : fs.isDir l = false ∨ fs.isEmptyDir l = true) :
    (fs.removeEntry l).attr q = if q = l then none else fs.attr q := by
  unfold removeEntry
  rw [dif_pos ⟨hl, hd⟩, attr_touch]
  unfold attr
  dsimp only
  split <;> rfl

theorem attr_moveEntry {src dst : Path} (hs : src ≠ []) (hd : dst ≠ [])
    (hsd : src.isPrefixOf dst = false) (hdir : fs.isDir dst.dropLast = true) :
    (fs.moveEntry src dst).attr q =
      if dst.isPrefixOf q then fs.attr (src ++ q.drop dst.length)
      else if src.isPrefixOf q then none
      else fs.attr q := by
  unfold moveEntry
  rw [dif_pos ⟨hs, hd, hsd, hdir⟩, attr_touch, attr_touch]
  unfold attr moved
  dsimp only
  split
  · rfl
  · split <;> rfl

/-- The entries of a tree are finitely many. -/
theorem bounded (fs : Fs) (f : Path → Nat) : ∃ N, ∀ p, fs.shape p ≠ none → f p ≤ N := by
  have hlist : ∀ l : List Path, ∃ N, ∀ p ∈ l, f p ≤ N := by
    intro l
    induction l with
    | nil => exact ⟨0, by simp⟩
    | cons q l ih =>
      obtain ⟨N, hN⟩ := ih
      refine ⟨f q + N, fun p hp => ?_⟩
      rcases List.mem_cons.mp hp with rfl | hp
      · omega
      · have := hN p hp
        omega
  obtain ⟨N, hN⟩ := hlist fs.support
  refine ⟨N, fun p hp => hN p (fs.supported p ?_)⟩
  rw [Option.isSome_iff_ne_none, ne_eq, ← shape_eq_none]
  exact hp

/-- The tree is finite: nothing has a copy of itself below it, which would have one below it in turn. -/
theorem shape_none_of_copy {r : Path} (hr : r ≠ []) (h : ∀ s, fs.shape (p ++ r ++ s) = fs.shape (p ++ s)) :
    fs.shape p = none := by
  by_contra hne
  have hcopies : ∀ n, ∃ q, fs.shape (p ++ q) ≠ none ∧ n ≤ q.length := by
    intro n
    induction n with
    | zero => exact ⟨[], by simpa using hne, Nat.zero_le _⟩
    | succ n ih =>
      obtain ⟨q, hq, hlen⟩ := ih
      refine ⟨r ++ q, ?_, ?_⟩
      · rw [← List.append_assoc, h]
        exact hq
      · have := List.length_pos_iff.mpr hr
        rw [List.length_append]
        omega
  obtain ⟨N, hN⟩ := fs.bounded List.length
  obtain ⟨q, hq, hlen⟩ := hcopies (N + 1)
  have := hN _ hq
  rw [List.length_append] at this
  omega

end Fs

open Fallible

/-- `create_dir_all` of a directory that is there. -/
theorem createDirAll_dir {fs : Fs} {q : Path} (hq : fs.shape q = some .dir) :
    exec (createDirAll q) fs = (.ok (), fs) := by
  unfold createDirAll
  cases hrev : q.reverse with
  | nil => rfl
  | cons n rev =>
    have hqr : (n :: rev).reverse = q := by rw [← hrev, List.reverse_reverse]
    have hd : fs.isDir q = true := Fs.shape_eq_dir.mp hq
    rw [createDirAllRev_exists (by rw [hqr]; exact Fs.real_of_dir hd), hqr, if_pos hd]

end Posix
