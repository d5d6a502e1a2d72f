import KinVfs.Lib.Inodes
import KinVfs.Posix.AnyDisk
import KinVfs.Posix.CallSpec

/-!
# A directory of inodes in a file tree

`Inodes.Dir` keeps a file apart from its name, so that a descriptor can outlive the name; a tree (`Fs`)
has files at paths. `Shows` connects the two: at the place of every name stands the file that the name
leads to. A change of the directory is then a system call on the tree, and the tree that the call leaves
shows the directory after it.
-/

namespace Posix

open Fallible
open Inodes (Dir)
open Fs

universe u

variable {ν : Type u} {place : ν → Path} {here : ν → Prop} {d d' : Dir ν (List UInt8)} {fs fs' : Fs}
  {n m : ν} {c : List UInt8}

/-- The tree at the places of the names that are `here`: directories, and in them the files that the names
lead to and nothing else. -/
structure Shows (place : ν → Path) (here : ν → Prop) (d : Dir ν (List UInt8)) (fs : Fs) : Prop where
  apart : ∀ n m, here n → here m → place n = place m → n = m
  parent : ∀ n, here n → fs.shape (place n).dropLast = some .dir
  file : ∀ n, here n → fs.shape (place n) = (d.content n).map Shape.file

namespace Shows

theorem of_content (h : Shows place here d fs) (hd : ∀ m, here m → d'.content m = d.content m) :
    Shows place here d' fs where
  apart := h.apart
  parent := h.parent
  file m hm := by rw [hd m hm, h.file m hm]

theorem ne_dir (h : Shows place here d fs) (hn : here n) : fs.shape (place n) ≠ some .dir := by
  rw [h.file n hn]
  cases d.content n <;> simp

theorem ne_symlink (h : Shows place here d fs) (hn : here n) (t : List UInt8) :
    fs.shape (place n) ≠ some (.symlink t) := by
  rw [h.file n hn]
  cases d.content n <;> simp

theorem ne_nil (h : Shows place here d fs) (hn : here n) : place n ≠ [] := by
  intro hnil
  have hdir := h.ne_dir hn
  rw [hnil] at hdir
  exact hdir (shape_root fs)

theorem clear (h : Shows place here d fs) (hn : here n) : fs.Clear (place n) :=
  clear_of_parent (h.parent n hn)

theorem locate (h : Shows place here d fs) (hn : here n) : fs.locate (place n) = .ok (place n) := by
  rw [locate_clear (h.clear hn), if_neg (by rw [h.parent n hn]; simp)]

/-- What is read at a name. -/
theorem readFile_iff (h : Shows place here d fs) (hn : here n) :
    fs.readFile (place n) = .ok c ↔ d.content n = some c := by
  rw [readFile_eq_ok (h.clear hn) (h.ne_symlink hn), h.file n hn]
  cases d.content n <;> simp

/-- The place of a name is no directory, so a change there leaves the directories of the others. -/
theorem parent_ne (h : Shows place here d fs) (hn : here n) (hm : here m) : (place m).dropLast ≠ place n := by
  intro heq
  exact h.ne_dir hn (heq ▸ h.parent m hm)

/-- Nothing is below the place of a name. -/
theorem not_above_parent (h : Shows place here d fs) (hn : here n) (hm : here m) :
    ¬ place n <+: (place m).dropLast := by
  rintro ⟨s, hs⟩
  by_cases hnil : s = []
  · rw [hnil, List.append_nil] at hs
    exact h.parent_ne hn hm hs.symm
  · refine h.ne_dir hn (shape_dir_of_append (q := s) ?_ hnil)
    rw [hs, h.parent m hm]
    simp

theorem eq_of_above (h : Shows place here d fs) (hn : here n) (hm : here m) (hp : place n <+: place m) :
    n = m := by
  obtain ⟨s, hs⟩ := hp
  by_cases hnil : s = []
  · rw [hnil, List.append_nil] at hs
    exact h.apart n m hn hm hs
  · refine absurd ⟨s.dropLast, ?_⟩ (h.not_above_parent hn hm)
    rw [← hs, List.dropLast_append_of_ne_nil hnil]

/-! ## Calls -/

variable [DecidableEq ν]

/-- The file at a name now holds `c`. -/
theorem wrote (h : Shows place here d fs) (hn : here n) (hw : Wrote fs fs' (place n) c)
    (hd : ∀ m, d'.content m = if m = n then some c else d.content m) : Shows place here d' fs' where
  apart := h.apart
  parent m hm := by rw [hw, if_neg (h.parent_ne hn hm), h.parent m hm]
  file m hm := by
    rw [hw, hd]
    by_cases heq : m = n
    · rw [if_pos (by rw [heq]), if_pos heq]
      rfl
    · rw [if_neg fun hp => heq (h.apart m n hm hn hp), if_neg heq, h.file m hm]

/-- `std::fs::write`. -/
theorem writeWhole (h : Shows place here d fs) (hd : d.Wf) (hn : here n) (hc : c.length ≤ maxFileSize)
    (y : List UInt8) :
    ∃ fs', exec (writeWhole (place n) c) fs = (.ok (), fs') ∧
      Shows place here ((d.creat n y).2.put (d.creat n y).1 c) fs' := by
  obtain ⟨fs₁, hopen, hw₁⟩ : ∃ fs₁, exec (openReal ⟨true, false, true⟩ (place n)) fs = (.ok (place n), fs₁) ∧
      Wrote fs fs₁ (place n) [] := by
    have hspec := openReal_spec (o := ⟨true, false, true⟩) (h.ne_nil hn) (h.parent n hn)
    rw [h.file n hn] at hspec
    cases hcont : d.content n with
    | none =>
      rw [hcont] at hspec
      exact hspec
    | some b =>
      rw [hcont] at hspec
      exact hspec
  have hfile : fs₁.shape (place n) = some (.file []) := by rw [hw₁, if_pos rfl]
  have hspec := writeFile_spec 0 c hfile
  rw [if_pos (by simp [writable, hc])] at hspec
  obtain ⟨fs₂, hwrite, hw₂⟩ := hspec
  rw [overwrite_empty] at hw₂
  refine ⟨fs₂, ?_, h.wrote hn (hw₁.trans hw₂) (fun m => Dir.content_creat_put hd n m c y)⟩
  rw [Posix.writeWhole, exec_bind, openFile_eq (h.clear hn) (h.ne_symlink hn),
    if_neg (by rw [h.parent n hn]; simp), hopen]
  exact hwrite

/-- `pwrite` on a file that has a name; a write that is too large is refused. -/
theorem writeFile (h : Shows place here d fs) (hd : d.Wf) (hn : here n) {i offset : Nat}
    {data : List UInt8} (hi : d.entries n = some i)
    (hfit : (Content.overwrite (d.data i) offset data).length ≤ maxFileSize) :
    Shows place here (d.put i (Content.overwrite (d.data i) offset data))
      (exec (writeFile (place n) offset data) fs).2 := by
  have hcont : d.content n = some (d.data i) := by rw [Dir.content, hi]; rfl
  have hfile : fs.shape (place n) = some (.file (d.data i)) := by rw [h.file n hn, hcont]; rfl
  have hput := fun m => Dir.content_put (x := Content.overwrite (d.data i) offset data) hd hi m
  have hspec := writeFile_spec offset data hfile
  split at hspec
  · obtain ⟨fs', hexec, hw⟩ := hspec
    rw [hexec]
    exact h.wrote hn hw hput
  · rename_i hw
    obtain ⟨e, hexec, -⟩ := hspec
    rw [hexec]
    -- Only a write of nothing, beyond the largest offset, is left.
    have hdata : data = [] := by
      by_contra hne
      rw [Content.length_overwrite hne] at hfit
      apply hw
      simp only [writable, Bool.and_eq_true, decide_eq_true_eq, Bool.or_eq_true]
      omega
    refine h.of_content fun m _ => ?_
    rw [hput, hdata]
    split
    · rename_i hm
      rw [hm, hcont]
      simp [Content.overwrite]
    · rfl

/-- `ftruncate` on a file that has a name. -/
theorem setFileLen (h : Shows place here d fs) (hd : d.Wf) (hn : here n) {i len : Nat}
    (hi : d.entries n = some i) (hfit : len ≤ maxFileSize) :
    Shows place here (d.put i (Content.resize (d.data i) len)) (exec (setFileLen (place n) len) fs).2 := by
  have hfile : fs.shape (place n) = some (.file (d.data i)) := by
    rw [h.file n hn, Dir.content, hi]
    rfl
  have hspec := setFileLen_spec (n := len) hfile
  rw [if_pos hfit] at hspec
  obtain ⟨fs', hexec, hw⟩ := hspec
  rw [hexec]
  exact h.wrote hn hw fun m => Dir.content_put hd hi m

/-- Removing a name; there may be nothing there. -/
theorem removeFile (h : Shows place here d fs) (hn : here n)
    (hd : ∀ m, d'.content m = if m = n then none else d.content m) :
    Shows place here d' (exec (removeFile (place n)) fs).2 := by
  rw [removeFile_exec, h.locate hn]
  dsimp only
  have hfile := h.file n hn
  cases hcont : d.content n with
  | none =>
    rw [hcont] at hfile
    rw [shape_eq_none.mp hfile]
    refine h.of_content fun m _ => ?_
    rw [hd]
    split
    · rename_i hm
      rw [hm, hcont]
    · rfl
  | some b =>
    rw [hcont] at hfile
    obtain ⟨info, hnode⟩ := shape_eq_file.mp hfile
    rw [hnode]
    dsimp only
    have hndir : fs.isDir (place n) = false := by simp [Fs.isDir, hnode, Node.isDir]
    have hrem := fun q => shape_removeEntry (q := q) (h.ne_nil hn) (.inl hndir)
    refine ⟨h.apart, fun m hm => ?_, fun m hm => ?_⟩
    · rw [hrem, if_neg (h.parent_ne hn hm), h.parent m hm]
    · rw [hrem, hd]
      by_cases heq : m = n
      · rw [if_pos (by rw [heq]), if_pos heq]
        rfl
      · rw [if_neg fun hp => heq (h.apart m n hm hn hp), if_neg heq, h.file m hm]

/-- A file replaces what is at the other name. -/
theorem rename (h : Shows place here d fs) (hn : here n) (hm : here m) (hr : d.rename n m = some d') :
    ∃ fs', exec (rename (place n) (place m)) fs = (.ok (), fs') ∧ Shows place here d' fs' := by
  have hcont := Dir.content_rename hr
  have hfile := h.file n hn
  rw [rename_eq (h.clear hn) (h.parent m hm)]
  cases hc : d.content n with
  | none =>
    rw [Dir.rename_eq_none.mpr hc] at hr
    cases hr
  | some b =>
    rw [hc] at hfile
    obtain ⟨info, hnode⟩ := shape_eq_file.mp hfile
    rw [hnode]
    dsimp only
    by_cases heq : n = m
    · subst heq
      rw [if_pos rfl]
      refine ⟨fs, rfl, h.of_content fun k _ => ?_⟩
      rw [hcont]
      split
      · rename_i hk
        rw [hk]
      · rfl
    · have hsrc : ¬ place n <+: place m := fun hp => heq (h.eq_of_above hn hm hp)
      have hrepl : replaceable fs (.file info b) (place m) = .ok () := by
        have hdst := h.file m hm
        unfold replaceable
        cases hcm : d.content m with
        | none =>
          rw [hcm] at hdst
          rw [shape_eq_none.mp hdst]
        | some b' =>
          rw [hcm] at hdst
          obtain ⟨info', hnode'⟩ := shape_eq_file.mp hdst
          rw [hnode']
          rfl
      have hnp : (place n).isPrefixOf (place m) = false := by
        rw [Bool.eq_false_iff, ne_eq, List.isPrefixOf_iff_prefix]
        exact hsrc
      rw [if_neg fun hp => heq (h.apart n m hn hm hp), if_neg (by simp [h.ne_nil hn, h.ne_nil hm]), hnp,
        if_neg (by simp), hrepl]
      dsimp only
      have hmove := fun q => shape_moveEntry (q := q) (h.ne_nil hn) (h.ne_nil hm) hnp
        (shape_eq_dir.mp (h.parent m hm))
      simp only [List.isPrefixOf_iff_prefix] at hmove
      refine ⟨_, rfl, h.apart, fun k hk => ?_, fun k hk => ?_⟩
      · rw [hmove, if_neg (h.not_above_parent hm hk), if_neg (h.not_above_parent hn hk), h.parent k hk]
      · rw [hmove, hcont]
        by_cases hkm : k = m
        · rw [if_pos (by rw [hkm]), if_pos hkm, hkm, List.drop_length, List.append_nil, hfile, hc]
        · rw [if_neg fun hp => hkm (h.eq_of_above hm hk hp).symm, if_neg hkm]
          by_cases hkn : k = n
          · rw [if_pos (by rw [hkn]), if_pos hkn, Option.map_none]
          · rw [if_neg fun hp => hkn (h.eq_of_above hn hk hp).symm, if_neg hkn, h.file k hk]

/-- There is nothing to move. -/
theorem rename_none (h : Shows place here d fs) (hn : here n) (hm : here m) (hr : d.rename n m = none) :
    exec (Posix.rename (place n) (place m)) fs = (.error .notFound, fs) := by
  have hfile := h.file n hn
  rw [Dir.rename_eq_none.mp hr] at hfile
  rw [rename_eq (h.clear hn) (h.parent m hm), shape_eq_none.mp hfile]

end Shows
end Posix
