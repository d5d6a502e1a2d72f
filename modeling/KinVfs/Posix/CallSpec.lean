import KinVfs.Posix.Shape

/-!
# What the calls do on a clear path

One lemma for each call, as an equation on shapes. `Grown fs fs' q` is the effect of
`create_dir_all`: the missing directories down to `q` were made and nothing else changed.
-/

namespace Posix

open Fallible Fs

variable {fs fs' : Fs} {q h : Path} {o : OpenOptions}

/-- The missing directories from the root down to `q` were made. -/
def Grown (fs fs' : Fs) (q : Path) : Prop :=
  ∀ r, fs'.shape r = if r <+: q ∧ fs.shape r = none then some .dir else fs.shape r

theorem Grown.refl_of_dir (hq : fs.shape q = some .dir) : Grown fs fs q := by
  intro r
  split
  · rename_i hr
    have hsome : fs.shape r ≠ none := shape_of_prefix (by simp [hq]) hr.1
    exact absurd hr.2 hsome
  · rfl

/-- The node of a new directory. -/
def newDir (env : Env) : Node := .dir ⟨env.dirMode, env.now⟩ env.dirLen

theorem mkdir_eq (hc : fs.Clear q) :
    exec (mkdir q) fs =
      if fs.shape q.dropLast = none then (.error .notFound, fs)
      else if fs.shape q = none then (.ok (), fs.addEntry q (newDir fs.env))
      else (.error .alreadyExists, fs) := by
  simp only [mkdir, exec_bind, exec_ofExcept, locate_clear hc, exec_get]
  by_cases hp : fs.shape q.dropLast = none
  · simp [hp]
  · rw [if_neg hp, if_neg hp]
    dsimp only
    by_cases hq : fs.shape q = none
    · rw [if_pos hq, if_neg (by simp [shape_eq_none.mp hq])]
      rfl
    · rw [if_neg hq, if_pos (by
        rw [shape_eq_none] at hq
        exact Option.isSome_iff_ne_none.mpr hq)]
      rfl

theorem unlessDir_eq {e : ErrorKind} (hq : fs.Real q) :
    exec (unlessDir q e) fs = (if fs.isDir q then .ok () else .error e, fs) := by
  simp only [unlessDir, exec_bind, exec_get, isDirPath, canonicalize_of_shape hq.1 hq.2]
  split <;> rfl

/-- A directory, or a file, that is there already. -/
theorem createDirAllRev_exists {n : Name} {rev : List Name} (hq : fs.Real (n :: rev).reverse) :
    exec (createDirAllRev (n :: rev)) fs =
      (if fs.isDir (n :: rev).reverse then .ok () else .error .alreadyExists, fs) := by
  have hc := clear_of_shape hq.1
  have hp : fs.shape (n :: rev).reverse.dropLast ≠ none := by
    rw [List.reverse_cons, List.dropLast_concat]
    rw [List.reverse_cons] at hq
    rw [shape_dir_of_append hq.1 (by simp)]
    simp
  rw [createDirAllRev, exec_orElse, mkdir_eq hc, if_neg hp, if_neg hq.1]
  dsimp only
  rw [if_neg (by simp), unlessDir_eq hq]

theorem shape_newDir {r : Path} (hl : q ≠ []) (hp : fs.shape q.dropLast = some .dir)
    (hq : fs.shape q = none) :
    (fs.addEntry q (newDir fs.env)).shape r = if r = q then some .dir else fs.shape r :=
  shape_addEntry hl (shape_eq_dir.mp hp) (shape_eq_none.mp hq) rfl

/-- `create_dir_all` of a clear path that is missing makes every directory on it, and touches no
node off the path. -/
theorem createDirAllRev_missing {rev : List Name} (hc : fs.Clear rev.reverse)
    (hq : fs.shape rev.reverse = none) :
    ∃ fs', exec (createDirAllRev rev) fs = (.ok (), fs') ∧ Grown fs fs' rev.reverse ∧
      ∀ r, ¬ r <+: rev.reverse → fs'.node r = fs.node r := by
  induction rev generalizing fs with
  | nil =>
    rw [List.reverse_nil, shape_root] at hq
    cases hq
  | cons n rev ih =>
    have hdrop : (n :: rev).reverse.dropLast = rev.reverse := by simp
    have hne : (n :: rev).reverse ≠ [] := by simp
    have hframe : ∀ (fs : Fs) r, ¬ r <+: (n :: rev).reverse →
        (fs.addEntry (n :: rev).reverse (newDir fs.env)).node r = fs.node r := by
      intro fs r hr
      refine node_addEntry ?_ ?_
      · rintro rfl
        exact hr List.prefix_rfl
      · rintro rfl
        exact hr (List.dropLast_prefix _)
    rw [createDirAllRev, exec_orElse, mkdir_eq hc, hdrop]
    rcases hc.parent with hp | hp <;> rw [hdrop] at hp
    · -- The parent is missing too: it is made first, and then this directory.
      obtain ⟨fs₁, h₁, hg, hf⟩ := ih (hdrop ▸ hc.dropLast) hp
      have hp₁ : fs₁.shape rev.reverse = some .dir := by
        rw [hg, if_pos ⟨List.prefix_rfl, hp⟩]
      have hq₁ : fs₁.shape (n :: rev).reverse = none := by
        rw [hg, if_neg, hq]
        rintro ⟨hpre, -⟩
        have hlen := hpre.length_le
        simp only [List.length_reverse, List.length_cons] at hlen
        omega
      have hc₁ : fs₁.Clear (n :: rev).reverse := by
        rw [List.reverse_cons]
        exact clear_append_singleton.mpr ⟨clear_of_shape (by simp [hp₁]), .inr hp₁⟩
      refine ⟨fs₁.addEntry (n :: rev).reverse (newDir fs₁.env), ?_, ?_, fun r hr => ?_⟩
      · rw [if_pos hp]
        dsimp only
        rw [if_pos rfl, exec_bind, h₁]
        dsimp only
        rw [exec_orElse, mkdir_eq hc₁, hdrop, if_neg (by simp [hp₁]), if_pos hq₁]
      · intro r
        rw [shape_newDir hne (by rw [hdrop]; exact hp₁) hq₁, hg]
        by_cases hr : r = (n :: rev).reverse
        · rw [if_pos hr, if_pos ⟨hr ▸ List.prefix_rfl, hr ▸ hq⟩]
        · rw [if_neg hr]
          have hiff : r <+: (n :: rev).reverse ↔ r <+: rev.reverse := by
            rw [List.reverse_cons] at hr ⊢
            rw [List.prefix_concat_iff]
            simp [hr]
          simp only [hiff]
      · rw [hframe fs₁ r hr]
        refine hf r fun hpre => hr ?_
        rw [List.reverse_cons]
        exact hpre.trans (List.prefix_append _ _)
    · refine ⟨fs.addEntry (n :: rev).reverse (newDir fs.env), ?_, ?_, hframe fs⟩
      · rw [if_neg (by simp [hp]), if_pos hq]
      · intro r
        rw [shape_newDir hne (by rw [hdrop]; exact hp) hq]
        by_cases hr : r = (n :: rev).reverse
        · rw [if_pos hr, if_pos ⟨hr ▸ List.prefix_rfl, hr ▸ hq⟩]
        · rw [if_neg hr, if_neg]
          rintro ⟨hpre, hnone⟩
          rw [List.reverse_cons] at hr hpre
          rcases List.prefix_concat_iff.mp hpre with h | ⟨s, hs⟩
          · exact hr h
          · exact shape_of_prefix (by simp [hp]) ⟨s, hs⟩ hnone

/-- `create_dir_all` of a clear path with no file at its end. -/
theorem createDirAll_clear (hc : fs.Clear q) (hq : fs.shape q = none ∨ fs.shape q = some .dir) :
    ∃ fs', exec (createDirAll q) fs = (.ok (), fs') ∧ Grown fs fs' q ∧
      ∀ r, ¬ r <+: q → fs'.node r = fs.node r := by
  unfold createDirAll
  rcases hq with hq | hq
  · have hc' : fs.Clear q.reverse.reverse := by simpa using hc
    obtain ⟨fs', hx, hg, hf⟩ := createDirAllRev_missing hc' (by simpa using hq)
    rw [List.reverse_reverse] at hg hf
    exact ⟨fs', hx, hg, hf⟩
  · refine ⟨fs, ?_, Grown.refl_of_dir hq, fun _ _ => rfl⟩
    cases hrev : q.reverse with
    | nil => rfl
    | cons n rev =>
      have hqr : (n :: rev).reverse = q := by rw [← hrev, List.reverse_reverse]
      have hd : fs.isDir q = true := shape_eq_dir.mp hq
      rw [createDirAllRev_exists (by rw [hqr]; exact real_of_dir hd), hqr, if_pos hd]

theorem createDirAll_file {c : List UInt8} (hq : fs.shape q = some (.file c)) :
    exec (createDirAll q) fs = (.error .alreadyExists, fs) := by
  unfold createDirAll
  cases hrev : q.reverse with
  | nil =>
    rw [List.reverse_eq_nil_iff] at hrev
    rw [hrev, shape_root] at hq
    cases hq
  | cons n rev =>
    have hqr : (n :: rev).reverse = q := by rw [← hrev, List.reverse_reverse]
    have hnd : ¬ fs.isDir q = true := by
      rw [← shape_eq_dir, hq]
      simp
    rw [createDirAllRev_exists (by rw [hqr]; exact ⟨by simp [hq], by simp [hq]⟩), hqr, if_neg hnd]

/-! ## Files -/

/-- The file `h` now has content `c`; nothing else changed. -/
def Wrote (fs fs' : Fs) (h : Path) (c : List UInt8) : Prop :=
  ∀ r, fs'.shape r = if r = h then some (.file c) else fs.shape r

theorem Wrote.refl {c : List UInt8} (hh : fs.shape h = some (.file c)) : Wrote fs fs h c := by
  intro r
  split
  · rename_i hr
    rw [hr, hh]
  · rfl

theorem Wrote.trans {fs'' : Fs} {c d : List UInt8} (h₁ : Wrote fs fs' h c)
    (h₂ : Wrote fs' fs'' h d) : Wrote fs fs'' h d := by
  intro r
  rw [h₂, h₁]
  split <;> rfl

theorem wrote_setNode {i j : Info} {c d : List UInt8} (hn : fs.node h = some (.file i c))
    (hd : d.length ≤ maxFileSize) : Wrote fs (fs.setNode h (.file j d)) h d := by
  intro r
  rw [shape_setNode (by simp [hn, Node.isDir]) (by simpa [Node.fits] using hd)]
  rfl

/-- Opening a clear path that is not a link acts on the path itself. -/
theorem openFile_eq (hc : fs.Clear h) (hl : ∀ t, fs.shape h ≠ some (.symlink t)) :
    exec (openFile o h) fs =
      if fs.shape h.dropLast = none then (.error .notFound, fs) else exec (openReal o h) fs := by
  simp only [openFile, exec_bind, exec_ofExcept, locate_clear hc]
  by_cases hp : fs.shape h.dropLast = none
  · simp [hp]
  · rw [if_neg hp, if_neg hp]
    dsimp only [exec_get]
    cases hn : fs.node h with
    | none => rfl
    | some nd =>
      cases nd with
      | symlink i t => exact absurd (shape_eq_symlink.mpr ⟨i, hn⟩) (hl t)
      | file i c => rfl
      | dir i k => rfl

/-- What `open` for writing leaves in the file, when it succeeds: nothing in a new or truncated
file, what was there otherwise. -/
def openedContent (o : OpenOptions) : Option Shape → Option (List UInt8)
  | none => if o.create || o.createNew then some [] else none
  | some (.file c) => if o.createNew then none else some (if o.truncate then [] else c)
  | _ => none

theorem openReal_spec (hh : h ≠ []) (hp : fs.shape h.dropLast = some .dir) :
    match openedContent o (fs.shape h) with
    | some c => ∃ fs', exec (openReal o h) fs = (.ok h, fs') ∧ Wrote fs fs' h c
    | none => ∃ e, exec (openReal o h) fs = (.error e, fs) ∧
        (e = .notFound ↔ fs.shape h = none) := by
  unfold openedContent
  simp only [openReal, exec_bind, exec_get]
  cases hn : fs.node h with
  | none =>
    have hs : fs.shape h = none := shape_eq_none.mpr hn
    rw [hs]
    dsimp only
    split
    · rename_i hsome
      split at hsome
      · rename_i hcr
        cases hsome
        rw [if_pos hcr]
        refine ⟨_, rfl, ?_⟩
        intro r
        exact shape_addEntry hh (shape_eq_dir.mp hp) hn rfl
      · cases hsome
    · rename_i hnone
      split at hnone
      · cases hnone
      · rename_i hcr
        rw [if_neg hcr]
        exact ⟨.notFound, rfl, by simp⟩
  | some nd =>
    cases nd with
    | file i c =>
      have hs : fs.shape h = some (.file c) := shape_eq_file.mpr ⟨i, hn⟩
      rw [hs]
      dsimp only
      by_cases hnew : o.createNew = true
      · simp only [hnew, ↓reduceIte]
        exact ⟨.alreadyExists, rfl, by simp⟩
      · simp only [hnew, Bool.false_eq_true, ↓reduceIte]
        by_cases ht : o.truncate = true
        · simp only [ht, ↓reduceIte]
          exact ⟨_, rfl, wrote_setNode hn (Nat.zero_le _)⟩
        · simp only [ht, Bool.false_eq_true, ↓reduceIte]
          exact ⟨fs, rfl, Wrote.refl hs⟩
    | dir i k =>
      have hs : fs.shape h = some .dir := by simp [shape, hn, Node.shape]
      rw [hs]
      refine ⟨if o.createNew then .alreadyExists else .isADirectory, rfl, ?_⟩
      split <;> simp
    | symlink i t =>
      have hs : fs.shape h = some (.symlink t) := shape_eq_symlink.mpr ⟨i, hn⟩
      rw [hs]
      refine ⟨if o.createNew then .alreadyExists else .isADirectory, rfl, ?_⟩
      split <;> simp

/-- The offsets and lengths `write` accepts. -/
def writable (offset : Nat) (data : List UInt8) : Bool :=
  offset ≤ maxFileSize && (data.isEmpty || offset + data.length ≤ maxFileSize)

theorem length_overwrite_le {c data : List UInt8} {offset : Nat} (hc : c.length ≤ maxFileSize)
    (hw : writable offset data = true) : (Content.overwrite c offset data).length ≤ maxFileSize := by
  by_cases h : data = []
  · simpa [Content.overwrite, h] using hc
  · rw [Content.length_overwrite h]
    simp only [writable, Bool.and_eq_true, decide_eq_true_eq, Bool.or_eq_true, List.isEmpty_iff,
      h, false_or] at hw
    omega

theorem writeFile_spec {c : List UInt8} (offset : Nat) (data : List UInt8)
    (hh : fs.shape h = some (.file c)) :
    if writable offset data then
      ∃ fs', exec (writeFile h offset data) fs = (.ok (), fs') ∧
        Wrote fs fs' h (Content.overwrite c offset data)
    else ∃ e, exec (writeFile h offset data) fs = (.error e, fs) ∧ e ≠ .notFound := by
  obtain ⟨i, hn⟩ := shape_eq_file.mp hh
  simp only [writeFile, exec_bind, exec_get, hn]
  by_cases ho : maxFileSize < offset
  · have hw : writable offset data = false := by
      simp only [writable, Bool.and_eq_false_iff, decide_eq_false_iff_not]
      omega
    simp only [hw, Bool.false_eq_true, ↓reduceIte, ho]
    exact ⟨.invalidInput, rfl, by simp⟩
  · by_cases hd : data = []
    · have hw : writable offset data = true := by simp [writable, hd]; omega
      subst hd
      simp only [hw, ↓reduceIte, ho]
      exact ⟨fs, rfl, by simpa [Content.overwrite] using Wrote.refl hh⟩
    · by_cases hl : maxFileSize < offset + data.length
      · have hw : writable offset data = false := by simp [writable, hd]; omega
        simp only [hw, Bool.false_eq_true, ↓reduceIte, ho, hd, hl]
        exact ⟨.fileTooLarge, rfl, by simp⟩
      · have hw : writable offset data = true := by
          simp only [writable, Bool.and_eq_true, Bool.or_eq_true, decide_eq_true_eq]
          omega
        simp only [hw, ↓reduceIte, ho, hd, hl]
        exact ⟨_, rfl, wrote_setNode hn (length_overwrite_le (length_le_of_shape_file hh) hw)⟩

theorem setFileLen_spec {c : List UInt8} {n : Nat} (hh : fs.shape h = some (.file c)) :
    if n ≤ maxFileSize then
      ∃ fs', exec (setFileLen h n) fs = (.ok (), fs') ∧ Wrote fs fs' h (Content.resize c n)
    else ∃ e, exec (setFileLen h n) fs = (.error e, fs) ∧ e ≠ .notFound := by
  obtain ⟨i, hn⟩ := shape_eq_file.mp hh
  simp only [setFileLen, exec_bind, exec_get, hn]
  by_cases hl : n ≤ maxFileSize
  · rw [if_pos hl, if_neg (by omega)]
    exact ⟨_, rfl, wrote_setNode hn (by simpa using hl)⟩
  · rw [if_neg hl, if_pos (by omega)]
    exact ⟨.invalidInput, rfl, by simp⟩

theorem readFile_of_file {c : List UInt8} (hh : fs.shape h = some (.file c)) :
    fs.readFile h = .ok c := by
  obtain ⟨i, hn⟩ := shape_eq_file.mp hh
  have hcan : fs.canonicalize h = .ok h := canonicalize_of_shape (by simp [hh]) (by simp [hh])
  simp [readFile, hcan, hn]

/-- Only a file is read. -/
theorem readFile_eq_ok {c : List UInt8} (hc : fs.Clear h) (hl : ∀ t, fs.shape h ≠ some (.symlink t)) :
    fs.readFile h = .ok c ↔ fs.shape h = some (.file c) := by
  refine ⟨fun hread => ?_, readFile_of_file⟩
  unfold Fs.readFile at hread
  rw [canonicalize_clear hc hl] at hread
  by_cases hnone : fs.shape h = none
  · rw [if_pos hnone] at hread
    cases hread
  · rw [if_neg hnone] at hread
    dsimp only at hread
    split at hread
    · rename_i i c' hn
      cases hread
      exact shape_eq_file.mpr ⟨i, hn⟩
    · cases hread
    · cases hread

/-! ## Moving an entry -/

/-- `rename` between clear paths, once the destination's directory exists. -/
theorem rename_eq {src dst : Path} (hs : fs.Clear src) (hd : fs.shape dst.dropLast = some .dir) :
    exec (rename src dst) fs =
      match fs.node src with
      | none => (.error .notFound, fs)
      | some nd =>
        if src = dst then (.ok (), fs)
        else if src = [] ∨ dst = [] then (.error .resourceBusy, fs)
        else if src.isPrefixOf dst then (.error .invalidInput, fs)
        else
          match replaceable fs nd dst with
          | .ok () => (.ok (), fs.moveEntry src dst)
          | .error e => (.error e, fs) := by
  have hdst : fs.locate dst = .ok dst := by
    rw [locate_clear (clear_of_parent hd), if_neg (by simp [hd])]
  by_cases hp : fs.shape src.dropLast = none
  · -- Nothing is below a missing directory.
    have hn : fs.node src = none := by
      by_contra hne
      rw [shape_dropLast (by rwa [ne_eq, shape_eq_none])] at hp
      cases hp
    simp [rename, exec_bind, locate_clear hs, hp, hn]
  · simp only [rename, exec_bind, exec_ofExcept, locate_clear hs, if_neg hp, hdst, exec_get]
    cases fs.node src with
    | none => rfl
    | some nd =>
      dsimp only
      split
      · rfl
      · split
        · rfl
        · split
          · rfl
          · rw [exec_bind, exec_ofExcept]
            cases replaceable fs nd dst <;> rfl

/-- A refusal to replace the destination is not a not-found. -/
theorem replaceable_error {nd : Node} {dst : Path} {e : ErrorKind}
    (he : replaceable fs nd dst = .error e) : e ≠ .notFound := by
  unfold replaceable at he
  split at he
  · cases he
  · split at he
    · cases he
      simp
    · split at he
      · cases he
      · cases he
        simp
  · split at he
    · cases he
      simp
    · cases he

/-- What can be replaced has nothing below it. -/
theorem node_below_replaceable {nd : Node} {dst s : Path} (h : replaceable fs nd dst = .ok ())
    (hs : s ≠ []) : fs.node (dst ++ s) = none := by
  cases hn : fs.node (dst ++ s) with
  | none => rfl
  | some m =>
    obtain ⟨x, s', rfl⟩ := List.exists_cons_of_ne_nil hs
    obtain ⟨i, k, hd⟩ := isDir_iff.mp (isDir_of_append (by rw [hn]; rfl) hs)
    unfold replaceable at h
    rw [hd] at h
    dsimp only at h
    split at h
    · cases h
    · split at h
      · rename_i hemp
        rw [List.append_cons, node_none_append (isEmptyDir_iff.mp hemp x)] at hn
        cases hn
      · cases h

/-- What is there before `create_dir_all` is there afterwards. -/
theorem Grown.compat (hg : Grown fs fs' q) : Compat fs fs' := by
  intro r s s' hs hs'
  rw [hg, if_neg (by simp [hs]), hs] at hs'
  cases hs'
  exact .inr (.inr rfl)

/-- `create_dir_all` keeps every directory and every link. -/
theorem Grown.keeps (hg : Grown fs fs' q) : Keeps fs fs' := by
  constructor
  · intro r hr
    rw [hg, if_neg (by simp [hr]), hr]
  · intro r t hr
    rw [hg, if_neg (by simp [hr]), hr]

theorem Grown.real (hg : Grown fs fs' q) (hr : fs.Real h) : fs'.Real h := by
  have hs : fs'.shape h = fs.shape h := by
    rw [hg, if_neg]
    exact fun h0 => hr.1 h0.2
  exact ⟨by rw [hs]; exact hr.1, by rw [hs]; exact hr.2⟩

end Posix
