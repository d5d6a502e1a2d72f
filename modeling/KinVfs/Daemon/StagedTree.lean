import KinVfs.Daemon.AtRest
import KinVfs.Daemon.OverlayTree
import KinVfs.Daemon.Replacement

/-!
# Projection writes on a set of files

`T` is a set of file paths, none of them above another. While the working copy has a file or nothing at each of
them and no file above them (`Laid`), the three requests of a projection surface do to the staged tree what
they say: a `Write` replaces the content, a `Remove` and a `Rename` take the file, when the working copy has it.
-/

namespace KinVfs

open Posix (Fs)
open Fallible KinDaemonWriter

/-- Where a path is in a working copy with the root `r`. -/
def place (r : Posix.Path) (p : VfsPath) : Posix.Path := r ++ p.components

/-- File paths of one tree: none is above another. -/
structure Separate (T : VfsPath → Prop) : Prop where
  root : ¬ T .root
  apart : ∀ p q, T p → T q → p.isAncestorOf q = false

/-- The working copy has a file or nothing at each path, and directories or nothing above. -/
structure Laid (T : VfsPath → Prop) (root r : Posix.Path) (fs : Fs) : Prop where
  canonical : fs.canonicalize root = .ok r
  above : ∀ p d, T p → d.isAncestorOf p = true → fs.shape (place r d) = none ∨ fs.shape (place r d) = some .dir
  file : ∀ p, T p → Writable fs (place r p)

section Places

variable {T : VfsPath → Prop} {root r : Posix.Path} {fs fs' : Fs} {p q d : VfsPath} {c : Bytes}

theorem place_inj (h : place r p = place r q) : p = q :=
  VfsPath.ext_components (List.append_cancel_left h)

theorem place_prefix (h : place r p <+: place r q) : p = q ∨ p.isAncestorOf q = true := by
  unfold place at h
  rw [List.prefix_append_right_inj] at h
  obtain ⟨cs, hcs⟩ := h
  by_cases h0 : cs = []
  · subst h0
    exact .inl (VfsPath.ext_components (by simpa using hcs))
  · exact .inr (VfsPath.isAncestorOf_iff.mpr ⟨cs, h0, hcs.symm⟩)

theorem place_ne_nil (hT : Separate T) (hp : T p) : place r p ≠ [] := by
  intro h0
  have hnil := (List.append_eq_nil_iff.mp h0).2
  rw [VfsPath.components_eq_nil] at hnil
  exact hT.root (hnil ▸ hp)

/-- A file path is not above another. -/
theorem Separate.not_prefix (hT : Separate T) (hp : T p) (hq : T q) (hne : p ≠ q) : ¬ place r p <+: place r q := by
  intro h
  rcases place_prefix h with heq | hanc
  · exact hne heq
  · rw [hT.apart p q hp hq] at hanc
    cases hanc

namespace Laid

theorem ancestor (hL : Laid T root r fs) (hp : T p) (hd : d.isAncestorOf p = true) :
    containedTarget fs root d = .ok (place r d) := by
  induction d using VfsPath.induct with
  | hroot =>
    rw [containedTarget_root, hL.canonical, place, VfsPath.components_root, List.append_nil]
  | hjoin d n ih =>
    have habove : d.isAncestorOf p = true := by
      rw [VfsPath.isAncestorOf_iff] at hd ⊢
      obtain ⟨cs, -, hcs⟩ := hd
      exact ⟨n.bytes :: cs, by simp, by rw [hcs, VfsPath.components_join]; simp⟩
    have ht := ih habove
    have hentry : containedEntry fs root (d.join n) = .ok (place r (d.join n)) := by
      refine containedEntry_join.mpr ⟨_, ht, ?_⟩
      simp only [place, VfsPath.components_join, List.append_assoc]
    have hclear : fs.Clear (place r (d.join n)) := by
      have hplace : place r (d.join n) = place r d ++ [n.bytes] := by
        simp only [place, VfsPath.components_join, List.append_assoc]
      rw [hplace]
      exact Fs.clear_append_singleton.mpr ⟨(containedTarget_landed ht).1, hL.above p d hp habove⟩
    refine containedTarget_of_entry hentry hclear fun t ht' => ?_
    rcases hL.above p _ hp hd with h0 | h0
    · rw [h0] at ht'
      cases ht'
    · rw [h0] at ht'
      cases ht'

/-- A file path is its own entry. -/
theorem entry (hL : Laid T root r fs) (hT : Separate T) (hp : T p) :
    containedEntry fs root p = .ok (place r p) ∧ fs.Clear (place r p) := by
  rcases VfsPath.root_or_join p with rfl | ⟨d, n, rfl⟩
  · exact absurd hp hT.root
  · have hd : d.isAncestorOf (d.join n) = true := VfsPath.isAncestorOf_join.mpr (.inl rfl)
    have ht := hL.ancestor hp hd
    have hplace : place r (d.join n) = place r d ++ [n.bytes] := by
      simp only [place, VfsPath.components_join, List.append_assoc]
    refine ⟨containedEntry_join.mpr ⟨_, ht, hplace⟩, ?_⟩
    rw [hplace]
    exact Fs.clear_append_singleton.mpr ⟨(containedTarget_landed ht).1, hL.above _ d hp hd⟩

theorem target (hL : Laid T root r fs) (hT : Separate T) (hp : T p) :
    containedTarget fs root p = .ok (place r p) := by
  obtain ⟨he, hc⟩ := hL.entry hT hp
  refine containedTarget_of_entry he hc fun t ht => ?_
  rcases hL.file p hp with h0 | ⟨c, h0⟩
  · rw [h0] at ht
    cases ht
  · rw [h0] at ht
    cases ht

/-- A change at file paths that makes directories elsewhere, and nothing else. -/
theorem of_change (hL : Laid T root r fs) (hT : Separate T) (hp : T p)
    (hc : ∀ x, (∃ q, T q ∧ x = place r q) ∨ fs'.shape x = fs.shape x ∨
      fs.shape x = none ∧ fs'.shape x = some .dir)
    (hw : ∀ q, T q → Writable fs' (place r q)) : Laid T root r fs' := by
  have hplain : ∀ x sh, fs.shape x = some sh → (∀ c, sh ≠ .file c) → fs'.shape x = some sh := by
    intro x sh hs hsh
    rcases hc x with ⟨q, hq, rfl⟩ | h0 | ⟨h0, -⟩
    · rcases hL.file q hq with h1 | ⟨c, h1⟩
      · rw [hs] at h1
        cases h1
      · rw [hs] at h1
        cases h1
        exact absurd rfl (hsh c)
    · rw [h0, hs]
    · rw [hs] at h0
      cases h0
  have hk : Fs.Keeps fs fs' :=
    ⟨fun x hx => hplain x _ hx (by simp), fun x t hx => hplain x _ hx (by simp)⟩
  have hroot : VfsPath.root.isAncestorOf p = true := by
    rw [VfsPath.isAncestorOf_iff]
    refine ⟨p.components, fun h0 => ?_, by simp⟩
    rw [VfsPath.components_eq_nil] at h0
    exact hT.root (h0 ▸ hp)
  have hr : fs.shape r = some .dir := by
    have hor := hL.above p .root hp hroot
    rw [place, VfsPath.components_root, List.append_nil] at hor
    exact hor.resolve_left (Fs.canonicalize_real hL.canonical).1
  refine ⟨?_, fun q d hq hd => ?_, hw⟩
  · exact Fs.canonicalize_keeps hk hL.canonical (Fs.real_of_dir (Fs.shape_eq_dir.mp (hk.1 r hr)))
  · rcases hc (place r d) with ⟨q', hq', heq⟩ | h0 | ⟨-, h0⟩
    · rw [place_inj heq, hT.apart q' q hq' hq] at hd
      cases hd
    · rw [h0]
      exact hL.above q d hq hd
    · exact .inr h0

end Laid

/-- The file the working copy has at a path. -/
def fileAt (r : Posix.Path) (fs : Fs) (p : VfsPath) : Option Bytes :=
  match fs.shape (place r p) with
  | some (.file c) => some c
  | _ => none

theorem fileAt_eq_some : fileAt r fs p = some c ↔ fs.shape (place r p) = some (.file c) := by
  unfold fileAt
  split
  · rename_i c' h
    rw [h]
    simp
  · rename_i hne
    simp only [reduceCtorEq, false_iff]
    exact hne c

theorem Laid.fileAt_eq_none (hL : Laid T root r fs) (hp : T p) :
    fileAt r fs p = none ↔ fs.shape (place r p) = none := by
  unfold fileAt
  rcases hL.file p hp with h | ⟨c, h⟩
  · simp [h]
  · simp [h]

/-- It is the one the path leads to. -/
theorem Laid.versionAt_eq (hL : Laid T root r fs) (hT : Separate T) (hp : T p) :
    versionAt root fs p = fileAt r fs p := by
  apply Option.ext
  intro c
  rw [versionAt_eq_some, fileAt_eq_some, hL.target hT hp]
  simp

theorem fileAt_congr (h : fs'.shape (place r p) = fs.shape (place r p)) : fileAt r fs' p = fileAt r fs p := by
  unfold fileAt
  rw [h]

/-! ## What the calls do to the working copy -/

/-- A write. -/
theorem Laid.put (hL : Laid T root r fs) (hT : Separate T) (hp : T p) (hput : Put fs fs' (place r p) c) :
    Laid T root r fs' ∧ ∀ q, T q → fileAt r fs' q = if q = p then some c else fileAt r fs q := by
  have hother : ∀ q, T q → q ≠ p → fs'.shape (place r q) = fs.shape (place r q) := by
    intro q hq hne
    rw [hput, if_neg (fun h => hne (place_inj h)), if_neg (fun h => hT.not_prefix hq hp hne h.1)]
  refine ⟨hL.of_change hT hp (fun x => ?_) fun q hq => ?_, fun q hq => ?_⟩
  · by_cases hx : x = place r p
    · exact .inl ⟨p, hp, hx⟩
    · rw [hput, if_neg hx]
      split
      · rename_i h0
        exact .inr (.inr ⟨h0.2, rfl⟩)
      · exact .inr (.inl rfl)
  · by_cases hq' : q = p
    · subst hq'
      exact .inr ⟨c, by rw [hput, if_pos rfl]⟩
    · unfold Writable
      rw [hother q hq hq']
      exact hL.file q hq
  · split
    · rename_i hq'
      subst hq'
      exact fileAt_eq_some.mpr (by rw [hput, if_pos rfl])
    · rename_i hq'
      exact fileAt_congr (hother q hq hq')

/-- A removal. -/
theorem Laid.erased (hL : Laid T root r fs) (hT : Separate T) (hp : T p) (hx : Erased fs fs' (place r p)) :
    Laid T root r fs' ∧ ∀ q, T q → fileAt r fs' q = if q = p then none else fileAt r fs q := by
  have hother : ∀ q, q ≠ p → fs'.shape (place r q) = fs.shape (place r q) := by
    intro q hne
    rw [hx, if_neg (fun h => hne (place_inj h))]
  refine ⟨hL.of_change hT hp (fun x => ?_) fun q hq => ?_, fun q hq => ?_⟩
  · by_cases hx' : x = place r p
    · exact .inl ⟨p, hp, hx'⟩
    · exact .inr (.inl (by rw [hx, if_neg hx']))
  · by_cases hq' : q = p
    · subst hq'
      exact .inl (by rw [hx, if_pos rfl])
    · unfold Writable
      rw [hother q hq']
      exact hL.file q hq
  · split
    · rename_i hq'
      subst hq'
      unfold fileAt
      rw [hx, if_pos rfl]
    · rename_i hq'
      exact fileAt_congr (hother q hq')

/-- The directories above a file path. -/
theorem Laid.grown (hL : Laid T root r fs) (hT : Separate T) (hp : T p)
    (hg : Posix.Grown fs fs' (place r p).dropLast) :
    Laid T root r fs' ∧ ∀ q, T q → fs'.shape (place r q) = fs.shape (place r q) := by
  have hsame : ∀ q, T q → fs'.shape (place r q) = fs.shape (place r q) := by
    intro q hq
    rw [hg, if_neg]
    rintro ⟨hpre, -⟩
    have hle : place r q <+: place r p := hpre.trans (List.dropLast_prefix _)
    by_cases hq' : q = p
    · subst hq'
      have hlen := hpre.length_le
      rw [List.length_dropLast] at hlen
      have hpos := List.length_pos_of_ne_nil (place_ne_nil (r := r) hT hq)
      omega
    · exact hT.not_prefix hq hp hq' hle
  refine ⟨hL.of_change hT hp (fun x => ?_) fun q hq => ?_, hsame⟩
  · rw [hg]
    split
    · rename_i h0
      exact .inr (.inr ⟨h0.2, rfl⟩)
    · exact .inr (.inl rfl)
  · unfold Writable
    rw [hsame q hq]
    exact hL.file q hq

/-- Nothing is below a file path. -/
theorem Laid.below (hL : Laid T root r fs) (hp : T p) {s : Posix.Path} (hs : s ≠ []) :
    fs.shape (place r p ++ s) = none := by
  by_contra hne
  have hdir := Fs.shape_dir_of_append hne hs
  rcases hL.file p hp with h0 | ⟨c, h0⟩
  · rw [h0] at hdir
    cases hdir
  · rw [h0] at hdir
    cases hdir

/-- A move. -/
theorem Laid.moved (hL : Laid T root r fs) (hT : Separate T) (hp : T p) (hq : T q) (hne : p ≠ q)
    (hdir : fs.isDir (place r q).dropLast = true) :
    Laid T root r (fs.moveEntry (place r p) (place r q)) ∧
      ∀ q', T q' → fileAt r (fs.moveEntry (place r p) (place r q)) q' =
        if q' = p then none else if q' = q then fileAt r fs p else fileAt r fs q' := by
  have hno : (place r p).isPrefixOf (place r q) = false := by
    rw [Bool.eq_false_iff, ne_eq, List.isPrefixOf_iff_prefix]
    exact hT.not_prefix hp hq hne
  have hshape : ∀ x, (fs.moveEntry (place r p) (place r q)).shape x =
      if (place r q).isPrefixOf x then fs.shape (place r p ++ x.drop (place r q).length)
      else if (place r p).isPrefixOf x then none else fs.shape x :=
    fun x => Fs.shape_moveEntry (place_ne_nil hT hp) (place_ne_nil hT hq) hno hdir
  -- At the file paths.
  have hsrc : (fs.moveEntry (place r p) (place r q)).shape (place r p) = none := by
    rw [hshape, if_neg, if_pos (List.isPrefixOf_iff_prefix.mpr List.prefix_rfl)]
    rw [List.isPrefixOf_iff_prefix]
    exact hT.not_prefix hq hp hne.symm
  have hdst : (fs.moveEntry (place r p) (place r q)).shape (place r q) = fs.shape (place r p) := by
    rw [hshape, if_pos (List.isPrefixOf_iff_prefix.mpr List.prefix_rfl), List.drop_length, List.append_nil]
  have hother : ∀ q', T q' → q' ≠ p → q' ≠ q →
      (fs.moveEntry (place r p) (place r q)).shape (place r q') = fs.shape (place r q') := by
    intro q' hq' hne₁ hne₂
    rw [hshape, if_neg, if_neg]
    · rw [List.isPrefixOf_iff_prefix]
      exact hT.not_prefix hp hq' hne₁.symm
    · rw [List.isPrefixOf_iff_prefix]
      exact hT.not_prefix hq hq' hne₂.symm
  refine ⟨hL.of_change hT hp (fun x => ?_) fun q' hq' => ?_, fun q' hq' => ?_⟩
  · -- Elsewhere nothing was below the two files, and nothing is.
    rw [hshape]
    split
    · rename_i hpre
      obtain ⟨s, rfl⟩ := List.isPrefixOf_iff_prefix.mp hpre
      by_cases hs : s = []
      · subst hs
        exact .inl ⟨q, hq, List.append_nil _⟩
      · rw [List.drop_left, hL.below hp hs, hL.below hq hs]
        exact .inr (.inl rfl)
    · split
      · rename_i hpre
        obtain ⟨s, rfl⟩ := List.isPrefixOf_iff_prefix.mp hpre
        by_cases hs : s = []
        · subst hs
          exact .inl ⟨p, hp, List.append_nil _⟩
        · rw [hL.below hp hs]
          exact .inr (.inl rfl)
      · exact .inr (.inl rfl)
  · unfold Writable
    by_cases h₁ : q' = p
    · rw [h₁, hsrc]
      exact .inl rfl
    · by_cases h₂ : q' = q
      · rw [h₂, hdst]
        exact hL.file p hp
      · rw [hother q' hq' h₁ h₂]
        exact hL.file q' hq'
  · by_cases h₁ : q' = p
    · rw [if_pos h₁, h₁]
      unfold fileAt
      rw [hsrc]
    · rw [if_neg h₁]
      by_cases h₂ : q' = q
      · rw [if_pos h₂, h₂]
        unfold fileAt
        rw [hdst]
      · rw [if_neg h₂]
        exact fileAt_congr (hother q' hq' h₁ h₂)

end Places

/-! ## The staged tree -/

/-- The file the daemon serves at a path: the staged writes over the graph. -/
def stagedTree (graph : ContentProvider) (root : Posix.Path) (w : World) (p : VfsPath) : Option Bytes :=
  ((overlay graph root w).readFile p).toOption

/-- The working copy is laid out, and a file that is staged is there with the size recorded. -/
structure Fine (T : VfsPath → Prop) (root r : Posix.Path) (w : World) : Prop where
  laid : Laid T root r w.host
  sized : ∀ p st, T p → w.staging.staged p = some (.present st) →
    ∃ c, fileAt r w.host p = some c ∧ st.size = c.length

section Tree

variable {T : VfsPath → Prop} {root r : Posix.Path} {graph : ContentProvider} {w w' : World} {fs : Fs}
  {p q : VfsPath} {c data : Bytes} {st : VirtualStat}

theorem Fine.stagedTree_eq (hF : Fine T root r w) (hT : Separate T) (hp : T p) :
    stagedTree graph root w p =
      match w.staging.staged p with
      | some (.present _) => fileAt r w.host p
      | some .removed => none
      | none => (graph.readFile p).toOption := by
  unfold stagedTree
  cases hs : w.staging.staged p with
  | none => simp only [overlay, WriteThroughProvider, WriteThroughProvider.readFile, view, hs]
  | some d =>
    cases d with
    | removed =>
      simp only [overlay, WriteThroughProvider, WriteThroughProvider.readFile, view, hs]
      rfl
    | present st =>
      obtain ⟨c, hc, hsz⟩ := hF.sized p st hp hs
      rw [readFile_staged (hF.laid.target hT hp) (fileAt_eq_some.mp hc) hs hsz]
      exact hc.symm

theorem Fine.congr (hF : Fine T root r w) (hF' : Fine T root r w') (hT : Separate T) (hp : T p)
    (hs : w'.staging.staged p = w.staging.staged p) (hf : fileAt r w'.host p = fileAt r w.host p) :
    stagedTree graph root w' p = stagedTree graph root w p := by
  rw [hF.stagedTree_eq hT hp, hF'.stagedTree_eq hT hp, hs, hf]

theorem staged_marked_ne {d : Staged} (h : p ≠ q) : (marked w p d).staging.staged q = w.staging.staged q := by
  rw [marked, Staging.staged_mark, if_neg h]

/-- The stat of a file path is that of its file. -/
theorem Laid.restat_size (hL : Laid T root r fs) (hT : Separate T) (hp : T p)
    (hf : fs.shape (place r p) = some (.file c)) (hst : restat root fs p = .ok st) : st.size = c.length := by
  obtain ⟨e, nd, he, hn, rfl⟩ := restat_ok.mp hst
  rw [(hL.entry hT hp).1] at he
  cases he
  obtain ⟨i, hi⟩ := Fs.shape_eq_file.mp hf
  rw [hi] at hn
  cases hn
  rfl

/-- A write of the file and its mark. -/
theorem Fine.put (graph : ContentProvider) (hF : Fine T root r w) (hT : Separate T) (hp : T p)
    (hput : Put w.host fs (place r p) c) (hst : restat root fs p = .ok st) :
    Fine T root r (marked { w with host := fs } p (.present st)) ∧
      ∀ q, T q → stagedTree graph root (marked { w with host := fs } p (.present st)) q =
        if q = p then some c else stagedTree graph root w q := by
  obtain ⟨hL, hfile⟩ := hF.laid.put hT hp hput
  have hfine : Fine T root r (marked { w with host := fs } p (.present st)) := by
    refine ⟨hL, fun q st' hq hs => ?_⟩
    by_cases hpq : p = q
    · subst hpq
      rw [staged_marked] at hs
      cases hs
      refine ⟨c, (hfile p hq).trans (if_pos rfl), ?_⟩
      exact hL.restat_size hT hq (by rw [hput, if_pos rfl]) hst
    · rw [staged_marked_ne hpq] at hs
      obtain ⟨c', hc', hsz⟩ := hF.sized q st' hq hs
      exact ⟨c', ((hfile q hq).trans (if_neg (Ne.symm hpq))).trans hc', hsz⟩
  refine ⟨hfine, fun q hq => ?_⟩
  by_cases hpq : q = p
  · subst hpq
    rw [if_pos rfl, hfine.stagedTree_eq hT hq, staged_marked]
    exact (hfile q hq).trans (if_pos rfl)
  · rw [if_neg hpq]
    exact hF.congr hfine hT hq (staged_marked_ne (Ne.symm hpq)) ((hfile q hq).trans (if_neg hpq))

/-- The whole content over an old one. -/
theorem resize_overwrite : Content.resize (Content.overwrite c 0 data) data.length = data := by
  unfold Content.overwrite
  split
  · rename_i hd
    subst hd
    simp [Content.resize]
  · simp [Content.resize]

theorem opened_of_writable {h : Posix.Path} (hw : Writable fs h) :
    ∃ c, Posix.openedContent writeOptions (fs.shape h) = some c := by
  rcases hw with hs | ⟨c, hs⟩
  · rw [hs]
    exact ⟨[], rfl⟩
  · rw [hs]
    exact ⟨c, rfl⟩

/-- **A `Write`** replaces the content. -/
theorem Fine.write (graph : ContentProvider) (hF : Fine T root r w) (hT : Separate T) (hp : T p)
    (hlen : data.length ≤ maxProjectionWrite) :
    ∃ st w', exec (admitWrite root p data) w = (.ok st, w') ∧ Fine T root r w' ∧
      ∀ q, T q → stagedTree graph root w' q = if q = p then some data else stagedTree graph root w q := by
  have hmax : data.length ≤ Posix.maxFileSize := by
    simp only [maxProjectionWrite, maxFrameBytes, writeFrameOverhead, Posix.maxFileSize] at hlen ⊢
    omega
  have hwr : Posix.writable 0 data = true := by
    simp [Posix.writable, hmax]
  -- `write_at`
  have ht := hF.laid.target hT hp
  obtain ⟨c, hc⟩ := opened_of_writable (hF.laid.file p hp)
  have hspec := writeAtDisk_spec 0 data ht
  rw [hc] at hspec
  dsimp only at hspec
  rw [if_pos hwr] at hspec
  obtain ⟨fs₁, hx₁, hput₁⟩ := hspec
  obtain ⟨st₁, hst₁⟩ := restat_of_put hput₁ (hF.laid.file p hp) ht
  obtain ⟨hF₁, htree₁⟩ := hF.put graph hT hp hput₁ hst₁
  -- `set_len`
  have ht₁ := hF₁.laid.target hT hp
  have hspec := setLenDisk_spec data.length ht₁
  have hfile₁ : fs₁.shape (place r p) = some (.file (Content.overwrite c 0 data)) := by rw [hput₁, if_pos rfl]
  have hhost : (marked { w with host := fs₁ } p (.present st₁)).host = fs₁ := rfl
  rw [hhost, hfile₁] at hspec
  dsimp only at hspec
  rw [if_pos hmax, resize_overwrite] at hspec
  obtain ⟨fs₂, hx₂, hput₂⟩ := hspec
  obtain ⟨st₂, hst₂⟩ := restat_of_put hput₂ (hF₁.laid.file p hp) ht₁
  obtain ⟨hF₂, htree₂⟩ := hF₁.put graph hT hp hput₂ hst₂
  refine ⟨st₂, _, ?_, hF₂, fun q hq => ?_⟩
  · unfold admitWrite
    rw [if_neg (by omega), exec_bind_ok]
    refine ⟨st₁, marked { w with host := fs₁ } p (.present st₁), ?_, ?_⟩
    · unfold writeAt
      rw [exec_diskThenMark, hx₁]
      dsimp only
      rw [hst₁]
    · unfold setLen
      rw [exec_diskThenMark, hhost, hx₂]
      dsimp only
      rw [hst₂]
  · rw [htree₂ q hq, htree₁ q hq]
    split <;> rfl

/-- **A `Remove`** of a file that the working copy has. -/
theorem Fine.remove (graph : ContentProvider) (hF : Fine T root r w) (hT : Separate T) (hp : T p)
    (hf : fileAt r w.host p = some c) :
    ∃ w', exec (KinDaemonWriter.remove root p) w = (.ok (), w') ∧ Fine T root r w' ∧
      fileAt r w'.host p = none ∧
      ∀ q, T q → stagedTree graph root w' q = if q = p then none else stagedTree graph root w q := by
  obtain ⟨he, hc⟩ := hF.laid.entry hT hp
  have hspec := removeDisk_spec he hc
  rw [fileAt_eq_some.mp hf] at hspec
  dsimp only at hspec
  rw [if_pos ⟨place_ne_nil hT hp, by simp⟩] at hspec
  obtain ⟨fs, hx, herased⟩ := hspec
  obtain ⟨hL, hfile⟩ := hF.laid.erased hT hp herased
  have hfine : Fine T root r (marked { w with host := fs } p .removed) := by
    refine ⟨hL, fun q st hq hs => ?_⟩
    by_cases hpq : p = q
    · subst hpq
      rw [staged_marked] at hs
      cases hs
    · rw [staged_marked_ne hpq] at hs
      obtain ⟨c', hc', hsz⟩ := hF.sized q st hq hs
      exact ⟨c', ((hfile q hq).trans (if_neg (Ne.symm hpq))).trans hc', hsz⟩
  refine ⟨_, ?_, hfine, (hfile p hp).trans (if_pos rfl), fun q hq => ?_⟩
  · rw [KinDaemonWriter.remove, exec_bind, exec_onDisk, hx]
    rfl
  · by_cases hpq : q = p
    · subst hpq
      rw [if_pos rfl, hfine.stagedTree_eq hT hq, staged_marked]
    · rw [if_neg hpq]
      exact hF.congr hfine hT hq (staged_marked_ne (Ne.symm hpq)) ((hfile q hq).trans (if_neg hpq))

/-- A `Remove` of a file that the working copy does not have is refused. -/
theorem Fine.remove_absent (hF : Fine T root r w) (hT : Separate T) (hp : T p)
    (hf : fileAt r w.host p = none) : exec (KinDaemonWriter.remove root p) w = (.error (.io .notFound), w) := by
  obtain ⟨he, hc⟩ := hF.laid.entry hT hp
  have hspec := removeDisk_spec he hc
  rw [(hF.laid.fileAt_eq_none hp).mp hf] at hspec
  dsimp only at hspec
  rw [KinDaemonWriter.remove, exec_bind, exec_onDisk, hspec]

/-- Up to the host's `rename`, a `Rename` makes the directories above the destination. -/
theorem Fine.rename_parents (hF : Fine T root r w) (hT : Separate T) (hp : T p) (hq : T q) :
    ∃ fs, Laid T root r fs ∧ (∀ q', T q' → fs.shape (place r q') = w.host.shape (place r q')) ∧
      fs.shape (place r q).dropLast = some .dir ∧
      exec (renameDisk root p q) w.host = exec (io (Posix.rename (place r p) (place r q))) fs := by
  obtain ⟨he, -⟩ := hF.laid.entry hT hq
  obtain ⟨fs, hx, hg, hdir, -⟩ := createParent_spec (containedTarget_landed (hF.laid.target hT hq))
    (place_ne_nil (r := r) hT hq)
  obtain ⟨hL, hsame⟩ := hF.laid.grown hT hq hg
  refine ⟨fs, hL, hsame, hdir, ?_⟩
  simp only [renameDisk, exec_bind, exec_ofExcept, entryPath, he, hx, (hL.entry hT hp).1]

/-- **A `Rename`** of a file that the working copy has. -/
theorem Fine.rename (graph : ContentProvider) (hF : Fine T root r w) (hT : Separate T) (hp : T p)
    (hq : T q) (hne : p ≠ q) (hf : fileAt r w.host p = some c) :
    ∃ w', exec (KinDaemonWriter.rename root p q) w = (.ok (), w') ∧ Fine T root r w' ∧
      fileAt r w'.host p = none ∧
      ∀ q', T q' → stagedTree graph root w' q' =
        if q' = p then none else if q' = q then some c else stagedTree graph root w q' := by
  obtain ⟨fs, hL, hsame, hdir, hx⟩ := hF.rename_parents hT hp hq
  have hsrc : fs.shape (place r p) = some (.file c) := by rw [hsame p hp, fileAt_eq_some.mp hf]
  obtain ⟨i, hn⟩ := Fs.shape_eq_file.mp hsrc
  have hrep : Posix.replaceable fs (.file i c) (place r q) = .ok () := by
    unfold Posix.replaceable
    rcases hL.file q hq with h0 | ⟨c', h0⟩
    · rw [Fs.shape_eq_none.mp h0]
    · obtain ⟨j, hj⟩ := Fs.shape_eq_file.mp h0
      rw [hj]
      rfl
  have hmove : exec (Posix.rename (place r p) (place r q)) fs =
      (.ok (), fs.moveEntry (place r p) (place r q)) := by
    rw [Posix.rename_eq (hL.entry hT hp).2 hdir, hn]
    dsimp only
    rw [if_neg (fun h => hne (place_inj h)), if_neg, if_neg, hrep]
    · rw [List.isPrefixOf_iff_prefix]
      exact hT.not_prefix hp hq hne
    · rintro (h0 | h0)
      · exact place_ne_nil hT hp h0
      · exact place_ne_nil hT hq h0
  obtain ⟨hL', hfile⟩ := hL.moved hT hp hq hne (Fs.shape_eq_dir.mp hdir)
  generalize fs.moveEntry (place r p) (place r q) = fs' at hmove hL' hfile
  have hfile' : ∀ q', T q' → fileAt r fs' q' =
      if q' = p then none else if q' = q then some c else fileAt r w.host q' := by
    intro q' hq'
    rw [hfile q' hq', fileAt_congr (hsame p hp), fileAt_congr (hsame q' hq'), hf]
  have hdst : fs'.shape (place r q) = some (.file c) := by
    rw [← fileAt_eq_some, hfile' q hq, if_neg hne.symm, if_pos rfl]
  obtain ⟨st, hst⟩ : ∃ st, restat root fs' q = .ok st := by
    obtain ⟨j, hj⟩ := Fs.shape_eq_file.mp hdst
    exact ⟨_, restat_ok.mpr ⟨_, _, (hL'.entry hT hq).1, hj, rfl⟩⟩
  have hfine : Fine T root r (marked (marked { w with host := fs' } p .removed) q (.present st)) := by
    refine ⟨hL', fun q' st' hq' hs => ?_⟩
    by_cases h₂ : q = q'
    · subst h₂
      rw [staged_marked] at hs
      cases hs
      exact ⟨c, fileAt_eq_some.mpr hdst, hL'.restat_size hT hq' hdst hst⟩
    · rw [staged_marked_ne h₂] at hs
      by_cases h₁ : p = q'
      · subst h₁
        rw [staged_marked] at hs
        cases hs
      · rw [staged_marked_ne h₁] at hs
        obtain ⟨c', hc', hsz⟩ := hF.sized q' st' hq' hs
        refine ⟨c', ?_, hsz⟩
        show fileAt r fs' q' = some c'
        rw [hfile' q' hq', if_neg (Ne.symm h₁), if_neg (Ne.symm h₂), hc']
  refine ⟨_, ?_, hfine, (hfile' p hp).trans (if_pos rfl), fun q' hq' => ?_⟩
  · rw [exec_rename, hx, exec_io, hmove]
    dsimp only
    rw [hst]
  · by_cases h₁ : q' = p
    · subst h₁
      rw [if_pos rfl, hfine.stagedTree_eq hT hq', staged_marked_ne hne.symm, staged_marked]
    · rw [if_neg h₁]
      by_cases h₂ : q' = q
      · subst h₂
        rw [if_pos rfl, hfine.stagedTree_eq hT hq', staged_marked]
        exact fileAt_eq_some.mpr hdst
      · rw [if_neg h₂]
        refine hF.congr hfine hT hq' ?_ ?_
        · rw [staged_marked_ne (Ne.symm h₂), staged_marked_ne (Ne.symm h₁)]
        · show fileAt r fs' q' = _
          rw [hfile' q' hq', if_neg h₁, if_neg h₂]

/-- A `Rename` of a file that the working copy does not have is refused. -/
theorem Fine.rename_absent (graph : ContentProvider) (hF : Fine T root r w) (hT : Separate T) (hp : T p) (hq : T q)
    (hf : fileAt r w.host p = none) :
    ∃ w', exec (KinDaemonWriter.rename root p q) w = (.error (.io .notFound), w') ∧ Fine T root r w' ∧
      fileAt r w'.host p = none ∧
      ∀ q', T q' → stagedTree graph root w' q' = stagedTree graph root w q' := by
  obtain ⟨fs, hL, hsame, hdir, hx⟩ := hF.rename_parents hT hp hq
  have hn : fs.node (place r p) = none := by
    rw [← Fs.shape_eq_none, hsame p hp]
    exact (hF.laid.fileAt_eq_none hp).mp hf
  have hmove : exec (Posix.rename (place r p) (place r q)) fs = (.error .notFound, fs) := by
    rw [Posix.rename_eq (hL.entry hT hp).2 hdir, hn]
  have hfile : ∀ q', T q' → fileAt r fs q' = fileAt r w.host q' := fun q' hq' => fileAt_congr (hsame q' hq')
  have hfine : Fine T root r { w with host := fs } := by
    refine ⟨hL, fun q' st hq' hs => ?_⟩
    obtain ⟨c', hc', hsz⟩ := hF.sized q' st hq' hs
    exact ⟨c', (hfile q' hq').trans hc', hsz⟩
  refine ⟨_, ?_, hfine, (hfile p hp).trans hf, fun q' hq' => hF.congr hfine hT hq' rfl (hfile q' hq')⟩
  rw [exec_rename, hx, exec_io, hmove]

end Tree

end KinVfs
