import KinVfs.Core.ContainmentSpec
import KinVfs.Posix.Destination

/-!
# Writes stay inside the repository

What a caller of `contained_target` and `contained_entry` relies on (`Confined`): a target leads,
by the kernel's own resolution, to an object or a place under the canonical root; an entry lies in
a directory that does; and a path that meets no link and no file in the way is never refused.

The one path that breaks it is the workspace root: it has no last component, so `contained_entry`
returns the canonical root itself, an entry of the directory that holds the repository
(`confined_iff`).
-/

namespace KinVfs

open Posix (Fs Shape)

variable {fs : Fs} {root r h d : Posix.Path} {p : VfsPath}

/-- Below `r`, no existing component of `cs` is a link and every existing proper prefix of it is a
directory. -/
def Plain (fs : Fs) (r : Posix.Path) (cs : List Bytes) : Prop :=
  ∀ pre rest, cs = pre ++ rest →
    (pre ≠ [] → ∀ t, fs.shape (r ++ pre) ≠ some (.symlink t)) ∧
    (rest ≠ [] → fs.shape (r ++ pre) = none ∨ fs.shape (r ++ pre) = some .dir)

/-- What containment promises for `p` below `root`. -/
structure Confined (fs : Fs) (root : Posix.Path) (p : VfsPath) : Prop where
  target : ∀ r h, fs.canonicalize root = .ok r → containedTarget fs root p = .ok h →
    ∃ l, fs.destination h = .ok l ∧ r <+: l
  entry : ∀ r d n, fs.canonicalize root = .ok r → containedEntry fs root p = .ok (d ++ [n]) →
    ∃ l, fs.destination d = .ok l ∧ r <+: l
  plain : ∀ r, fs.canonicalize root = .ok r → Plain fs r p.components →
    containedTarget fs root p = .ok (r ++ p.components) ∧
      containedEntry fs root p = .ok (r ++ p.components)

/-! ## Targets and entries -/

theorem destination_of_landed (hl : Landed fs h) : fs.destination h = .ok h :=
  Fs.destination_clear hl.1 hl.2

/-- A target leads to itself, under the canonical root. -/
theorem containedTarget_confined (hr : fs.canonicalize root = .ok r)
    (ht : containedTarget fs root p = .ok h) : ∃ l, fs.destination h = .ok l ∧ r <+: l :=
  ⟨h, destination_of_landed (containedTarget_landed ht), containedTarget_under hr ht⟩

/-- The directory of an entry other than the root leads to itself, under the canonical root. -/
theorem containedEntry_confined {n : Bytes} (hp : p ≠ .root) (hr : fs.canonicalize root = .ok r)
    (he : containedEntry fs root p = .ok (d ++ [n])) :
    ∃ l, fs.destination d = .ok l ∧ r <+: l := by
  rcases VfsPath.root_or_join p with rfl | ⟨q, m, rfl⟩
  · exact absurd rfl hp
  · obtain ⟨d', ht, heq⟩ := containedEntry_join.mp he
    obtain ⟨rfl, -⟩ := List.append_inj' heq rfl
    exact containedTarget_confined hr ht

/-! ## Plain paths -/

/-- The walk over plain components appends them, the last one followed or not. -/
theorem resolveComponents_plain {fl : Bool} (cs : List Bytes) (hd : Landed fs d)
    (hp : Plain fs d cs) : resolveComponents fs root p fl d cs = .ok (d ++ cs) := by
  induction cs generalizing d with
  | nil => simp
  | cons c cs ih =>
    have hdir := (hp [] (c :: cs) rfl).2 (by simp)
    rw [List.append_nil] at hdir
    have hclear : fs.Clear (d ++ [c]) := Fs.clear_append_singleton.mpr ⟨hd.1, hdir⟩
    have hlink : ∀ t, fs.shape (d ++ [c]) ≠ some (.symlink t) := (hp [c] cs rfl).1 (by simp)
    by_cases hleaf : cs ≠ [] ∨ fl = true
    · have hnext : Plain fs (d ++ [c]) cs := by
        rintro pre rest rfl
        have hpre := hp (c :: pre) rest rfl
        rw [List.append_assoc]
        exact ⟨fun _ => hpre.1 (by simp), hpre.2⟩
      rw [List.append_cons d c cs, resolveComponents_cons hd hleaf]
      exact ⟨d ++ [c], hclear, followEntry_of_not_link hlink, ih ⟨hclear, hlink⟩ hnext⟩
    · -- The last component of an entry is appended unseen.
      obtain ⟨rfl, rfl⟩ : cs = [] ∧ fl = false := by
        constructor
        · by_contra h0
          exact hleaf (.inl h0)
        · cases fl with
          | false => rfl
          | true => exact absurd (.inr rfl) hleaf
      rfl

theorem resolve_plain {fl : Bool} (hr : fs.canonicalize root = .ok r)
    (hp : Plain fs r p.components) : resolve fs root p fl = .ok (r ++ p.components) :=
  resolve_ok.mpr
    ⟨r, hr, resolveComponents_plain p.components (landed_of_real (Fs.canonicalize_real hr)) hp⟩

/-! ## The exact condition -/

/-- The directory above the canonical root is outside it. -/
theorem root_entry_outside {n : Bytes} (hr : fs.canonicalize root = .ok (d ++ [n])) :
    ¬ ∃ l, fs.destination d = .ok l ∧ d ++ [n] <+: l := by
  have hreal := Fs.canonicalize_real hr
  have hd : fs.shape d = some .dir := Fs.shape_dir_of_append hreal.1 (by simp)
  have hdest : fs.destination d = .ok d :=
    Fs.destination_clear (Fs.clear_of_shape (by simp [hd])) (by simp [hd])
  rintro ⟨l, hl, hpre⟩
  rw [hdest] at hl
  cases hl
  have hlen := hpre.length_le
  rw [List.length_append, List.length_singleton] at hlen
  omega

/-- **Containment holds exactly off the workspace root**: for every tree, root and path, unless the
path is the workspace root and that root is not the host's own `/`. -/
theorem confined_iff (fs : Fs) (root : Posix.Path) (p : VfsPath) :
    Confined fs root p ↔ p ≠ .root ∨ ∀ r, fs.canonicalize root = .ok r → r = [] := by
  constructor
  · intro hc
    by_cases hp : p = .root
    · refine .inr fun r hr => ?_
      rcases List.eq_nil_or_concat r with rfl | ⟨d, n, rfl⟩
      · rfl
      · rw [List.concat_eq_append] at hr
        have he : containedEntry fs root p = .ok (d ++ [n]) := by
          rw [hp]
          exact containedEntry_root.mpr hr
        exact absurd (hc.entry _ d n hr he) (root_entry_outside hr)
    · exact .inl hp
  · intro hcond
    refine ⟨fun r h hr ht => containedTarget_confined hr ht, fun r d n hr he => ?_,
      fun r hr hp => ⟨resolve_plain hr hp, resolve_plain hr hp⟩⟩
    by_cases hp : p = .root
    · rcases hcond with hne | hnil
      · exact absurd hp hne
      · -- The canonical root is `/`, which is no entry.
        subst hp
        have h0 := hnil _ (containedEntry_root.mp he)
        simp at h0
    · exact containedEntry_confined hp hr he

namespace Sample

/-- A host with one directory, `/w`. -/
def oneDirectory : Fs :=
  (Fs.empty ⟨0, 0o644, 0o755, 0⟩).addEntry [[119]] (.dir ⟨0o755, 0⟩ 0)

end Sample

/-- The entry of the workspace root `/w` lies in `/`. -/
theorem rootEntry_not_confined : ¬ Confined Sample.oneDirectory [[119]] .root := by
  intro hc
  have hr : Sample.oneDirectory.canonicalize [[119]] = .ok [[119]] := rfl
  obtain ⟨l, hl, hpre⟩ := hc.entry [[119]] [] [119] hr rfl
  have hd : Sample.oneDirectory.destination [] = .ok [] := rfl
  rw [hd] at hl
  cases hl
  simp at hpre

end KinVfs
