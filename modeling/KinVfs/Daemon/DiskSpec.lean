import KinVfs.Core.ContainmentSpec
import KinVfs.Daemon.KinWriter

/-!
# What each mutation does to the working copy

`Put fs fs' h c` is the effect of a successful write: the file `h` has content `c`, the missing
directories above it were made, and nothing else changed. Every disk part is described once, for
success and for failure; a path then still resolves to where it did (`Put.target`, `Put.entry`).
-/

namespace KinVfs

open Posix (Fs Shape OpenOptions Grown Wrote openedContent)
open Fallible

variable {fs fs' : Fs} {root h : Posix.Path} {p : VfsPath} {c : Bytes} {o : OpenOptions}

@[simp] theorem exec_io {α : Type} (x : Posix.HostM α) (fs : Fs) :
    exec (io x) fs =
      (match (exec x fs).1 with
        | .ok a => .ok a
        | .error e => .error (.io e), (exec x fs).2) := by
  rw [io, exec_zoom, id_eq]
  rcases exec x fs with ⟨_ | _, _⟩ <;> rfl

theorem exec_io_ok {α : Type} {x : Posix.HostM α} {a : α} :
    exec (io x) fs = (.ok a, fs') ↔ exec x fs = (.ok a, fs') := by
  rw [io, exec_zoom_ok]
  constructor
  · rintro ⟨s, hs, rfl⟩
    exact hs
  · intro hx
    exact ⟨fs', hx, rfl⟩

/-- The file `h` has content `c`, and the directories above it were made. -/
def Put (fs fs' : Fs) (h : Posix.Path) (c : Bytes) : Prop :=
  ∀ r, fs'.shape r = if r = h then some (.file c)
    else if r <+: h ∧ fs.shape r = none then some .dir else fs.shape r

/-- The same shape everywhere. -/
def Same (fs fs' : Fs) : Prop := ∀ r, fs'.shape r = fs.shape r

theorem prefix_dropLast {r : Posix.Path} (hh : h ≠ []) :
    r <+: h.dropLast ↔ r <+: h ∧ r ≠ h := by
  rcases List.eq_nil_or_concat h with rfl | ⟨h', m, rfl⟩
  · exact absurd rfl hh
  · rw [List.concat_eq_append, List.dropLast_concat, List.prefix_concat_iff]
    constructor
    · intro hr
      refine ⟨.inr hr, ?_⟩
      rintro rfl
      have hlen := hr.length_le
      simp only [List.length_append, List.length_singleton] at hlen
      omega
    · rintro ⟨h1 | h1, hne⟩
      · exact absurd h1 hne
      · exact h1

theorem put_of_wrote {fs₁ : Fs} (hh : h ≠ []) (hg : Grown fs fs₁ h.dropLast)
    (hw : Wrote fs₁ fs' h c) : Put fs fs' h c := by
  intro r
  rw [hw, hg]
  by_cases hr : r = h
  · simp [hr]
  · simp only [hr, ↓reduceIte, prefix_dropLast hh, ne_eq, not_false_eq_true, and_true]

/-- An edit of the file that was put. -/
theorem Put.wrote {fs₁ : Fs} {d : Bytes} (hp : Put fs fs₁ h c) (hw : Wrote fs₁ fs' h d) :
    Put fs fs' h d := by
  intro r
  rw [hw, hp]
  split <;> rfl

/-- A put after a put at the same place. -/
theorem Put.again {fs₁ : Fs} {d : Bytes} (hp : Put fs fs₁ h c) (hp' : Put fs₁ fs' h d) :
    Put fs fs' h d := by
  intro r
  rw [hp']
  split
  · rfl
  · rename_i hne
    rw [hp, if_neg hne]
    grind

/-- Nothing is made above an entry that exists. -/
theorem same_of_grown (hg : Grown fs fs' h.dropLast) (hs : fs.shape h ≠ none) : Same fs fs' := by
  intro r
  rw [hg, if_neg]
  rintro ⟨hpre, hnone⟩
  exact Fs.shape_of_prefix hs (hpre.trans (List.dropLast_prefix h)) hnone

theorem createParent_spec (hl : Landed fs h) (hh : h ≠ []) :
    ∃ fs', exec (createParent h) fs = (.ok (), fs') ∧ Grown fs fs' h.dropLast ∧
      fs'.shape h.dropLast = some .dir ∧ fs'.shape h = fs.shape h := by
  obtain ⟨fs', hx, hg, -⟩ := Posix.createDirAll_clear hl.1.dropLast hl.1.parent
  refine ⟨fs', ?_, hg, ?_, ?_⟩
  · simp [createParent, hh, hx]
  · rw [hg]
    rcases hl.1.parent with hp | hp
    · rw [if_pos ⟨List.prefix_rfl, hp⟩]
    · rw [if_neg (by simp [hp]), hp]
  · rw [hg, if_neg]
    rintro ⟨hpre, -⟩
    exact ((prefix_dropLast hh).mp hpre).2 rfl

/-- Creating the parents and opening a landed path. -/
theorem openUnder_spec (hl : Landed fs h) (hcr : (o.create || o.createNew) = true) :
    match openedContent o (fs.shape h) with
    | some c => h ≠ [] ∧ ∃ fs₁ fs', exec (createParent h) fs = (.ok (), fs₁) ∧
        exec (Posix.openFile o h) fs₁ = (.ok h, fs') ∧ Put fs fs' h c
    | none => fs.shape h ≠ none ∧ ∃ e fs₁, exec (createParent h) fs = (.ok (), fs₁) ∧
        exec (Posix.openFile o h) fs₁ = (.error e, fs₁) ∧ e ≠ .notFound ∧ Same fs fs₁ := by
  by_cases hh : h = []
  · subst hh
    have hs : fs.shape [] = some .dir := Fs.shape_root fs
    have hopen : exec (Posix.openFile o []) fs =
        (.error (if o.createNew then .alreadyExists else .isADirectory), fs) := by
      obtain ⟨i, k, hn⟩ := Fs.isDir_iff.mp (Fs.shape_eq_dir.mp hs)
      rw [Posix.openFile_eq hl.1 hl.2, if_neg (by simp [hs])]
      simp [Posix.openReal, exec_bind, hn]
    simp only [hs, openedContent]
    refine ⟨by simp, _, fs, by simp [createParent], hopen, ?_, fun _ => rfl⟩
    split <;> simp
  · obtain ⟨fs₁, hx, hg, hp, hsh⟩ := createParent_spec hl hh
    have hc₁ : fs₁.Clear h := Fs.clear_of_parent hp
    have hl₁ : ∀ t, fs₁.shape h ≠ some (.symlink t) := by
      rw [hsh]
      exact hl.2
    have hopen := Posix.openFile_eq (o := o) hc₁ hl₁
    rw [if_neg (by simp [hp])] at hopen
    have hspec := Posix.openReal_spec (o := o) hh hp
    rw [hsh] at hspec
    cases hcont : openedContent o (fs.shape h) with
    | some c =>
      rw [hcont] at hspec
      obtain ⟨fs', hx', hw⟩ := hspec
      exact ⟨hh, fs₁, fs', hx, by rw [hopen, hx'], put_of_wrote hh hg hw⟩
    | none =>
      rw [hcont] at hspec
      obtain ⟨e, hx', he⟩ := hspec
      have hne : fs.shape h ≠ none := by
        intro h0
        simp [h0, openedContent, hcr] at hcont
      exact ⟨hne, e, fs₁, hx, by rw [hopen, hx'], fun h0 => hne (he.mp h0), same_of_grown hg hne⟩

/-! ## A written path resolves to where it did -/

/-- Writing over nothing or over a file. -/
def Writable (fs : Fs) (h : Posix.Path) : Prop :=
  fs.shape h = none ∨ ∃ c, fs.shape h = some (.file c)

theorem Put.writable (hp : Put fs fs' h c) : Writable fs' h := .inr ⟨c, by rw [hp, if_pos rfl]⟩

theorem Put.keeps (hp : Put fs fs' h c) (hw : Writable fs h) : Fs.Keeps fs fs' := by
  have hne : ∀ r sh, fs.shape r = some sh → (∀ c, sh ≠ .file c) → r ≠ h := by
    rintro r sh hr hsh rfl
    rcases hw with h0 | ⟨c', h0⟩
    · rw [hr] at h0
      cases h0
    · rw [hr] at h0
      cases h0
      exact hsh _ rfl
  constructor
  · intro q hq
    rw [hp, if_neg (hne q _ hq (by simp)), if_neg (by simp [hq]), hq]
  · intro q t hq
    rw [hp, if_neg (hne q _ hq (by simp)), if_neg (by simp [hq]), hq]

/-- What existed and was not a link still is. -/
theorem Put.real {q : Posix.Path} (hp : Put fs fs' h c) (hq : fs.Real q) : fs'.Real q := by
  have hs := hp q
  by_cases he : q = h
  · rw [if_pos he] at hs
    exact ⟨by simp [hs], by simp [hs]⟩
  · rw [if_neg he, if_neg (fun h0 => hq.1 h0.2)] at hs
    exact ⟨by rw [hs]; exact hq.1, by rw [hs]; exact hq.2⟩

theorem Put.undisturbed (hp : Put fs fs' h c) : Undisturbed fs fs' h where
  real _ := ⟨by rw [hp, if_pos rfl]; simp, by rw [hp, if_pos rfl]; simp⟩
  above r s hrs hs hnone := by
    have hne : r ≠ h := by
      rintro rfl
      exact hs (List.append_cancel_left (hrs.symm.trans (List.append_nil r).symm))
    rw [hp, if_neg hne, if_pos ⟨⟨s, hrs.symm⟩, hnone⟩]
    exact .inr rfl
  noLink t := by rw [hp, if_pos rfl]; simp

theorem Put.canonicalize {r : Posix.Path} (hp : Put fs fs' h c) (hw : Writable fs h)
    (hr : fs.canonicalize root = .ok r) : fs'.canonicalize root = .ok r :=
  Fs.canonicalize_keeps (hp.keeps hw) hr (hp.real (Fs.canonicalize_real hr))

theorem Put.target (hp : Put fs fs' h c) (hw : Writable fs h)
    (ht : containedTarget fs root p = .ok h) : containedTarget fs' root p = .ok h := by
  obtain ⟨r, hr, -⟩ := resolve_ok.mp ht
  exact containedTarget_keeps (hp.keeps hw) hr (hp.canonicalize hw hr) ht hp.undisturbed

/-- The entry of the written path stays where it was. -/
theorem Put.entry {e : Posix.Path} (hp : Put fs fs' h c) (hw : Writable fs h)
    (ht : containedTarget fs root p = .ok h) (he : containedEntry fs root p = .ok e) :
    containedEntry fs' root p = .ok e := by
  have hk := hp.keeps hw
  rcases VfsPath.root_or_join p with rfl | ⟨q, n, rfl⟩
  · exact containedEntry_root.mpr (hp.canonicalize hw (containedEntry_root.mp he))
  · obtain ⟨d, hd, rfl⟩ := containedEntry_join.mp he
    obtain ⟨r, d', hr, hd', hc, hf⟩ := containedTarget_join.mp ht
    rw [hd] at hd'
    cases hd'
    have hu : Undisturbed fs fs' d := by
      by_cases hl : ∃ t, fs.shape (d ++ [n.bytes]) = some (.symlink t)
      · obtain ⟨t, hs⟩ := hl
        exact undisturbed_of_dir hk (Fs.shape_dir_of_append (by rw [hs]; simp) (by simp))
      · rw [followEntry_of_not_link fun t ht => hl ⟨t, ht⟩] at hf
        cases hf
        exact hp.undisturbed.parent hk (Fs.clear_append_singleton.mp hc).2
    exact containedEntry_join.mpr ⟨d, containedTarget_keeps hk hr (hp.canonicalize hw hr) hd hu, rfl⟩

/-- Writing a file's own content changes nothing. -/
theorem Put.same (hp : Put fs fs' h c) (hs : fs.shape h = some (.file c)) : Same fs fs' := by
  intro r
  rw [hp]
  split
  · rename_i hr
    rw [hr, hs]
  · rw [if_neg]
    rintro ⟨hr, hnone⟩
    exact Fs.shape_of_prefix (by simp [hs]) hr hnone

/-- A tree of the same shape resolves the same. -/
theorem Same.resolves (hs : Same fs fs') (ht : containedTarget fs root p = .ok h) :
    containedTarget fs' root p = .ok h := by
  obtain ⟨r, hr, -⟩ := resolve_ok.mp ht
  have hk : Fs.Keeps fs fs' := ⟨fun q hq => by rw [hs, hq], fun q t hq => by rw [hs, hq]⟩
  have hreal : ∀ q, fs.Real q → fs'.Real q := fun q hq => by
    rw [Fs.Real, hs]
    exact hq
  refine containedTarget_keeps hk hr (Fs.canonicalize_keeps hk hr (hreal r (Fs.canonicalize_real hr)))
    ht ⟨fun hne => ?_, fun r s hrs hs' hnone => .inl (by rw [hs, hnone]), fun t => ?_⟩
  · exact hreal h ⟨hne, (containedTarget_landed ht).2⟩
  · rw [hs]
    exact (containedTarget_landed ht).2 t

theorem Same.entry (hs : Same fs fs') (he : containedEntry fs root p = .ok h) :
    containedEntry fs' root p = .ok h := by
  rcases VfsPath.root_or_join p with rfl | ⟨q, n, rfl⟩
  · exact containedEntry_root.mpr
      (containedTarget_root.mp (hs.resolves (containedTarget_root.mpr (containedEntry_root.mp he))))
  · obtain ⟨d, hd, rfl⟩ := containedEntry_join.mp he
    exact containedEntry_join.mpr ⟨d, hs.resolves hd, rfl⟩

/-- Making directories leaves a target where it was. -/
theorem grown_target {q : Posix.Path} (hg : Grown fs fs' q)
    (ht : containedTarget fs root p = .ok h) : containedTarget fs' root p = .ok h := by
  obtain ⟨r, hr, -⟩ := resolve_ok.mp ht
  have hr' := Fs.canonicalize_keeps hg.keeps hr (hg.real (Fs.canonicalize_real hr))
  have hl := (containedTarget_landed ht).2
  refine containedTarget_keeps hg.keeps hr hr' ht ⟨fun h0 => hg.real ⟨h0, hl⟩, ?_, ?_⟩
  · intro r s _ _ hnone
    rw [hg]
    split
    · exact .inr rfl
    · exact .inl hnone
  · intro t
    rw [hg]
    split
    · simp
    · exact hl t

theorem grown_entry {q : Posix.Path} (hg : Grown fs fs' q)
    (he : containedEntry fs root p = .ok h) : containedEntry fs' root p = .ok h := by
  rcases VfsPath.root_or_join p with rfl | ⟨p', n, rfl⟩
  · exact containedEntry_root.mpr
      (containedTarget_root.mp (grown_target hg (containedTarget_root.mpr (containedEntry_root.mp he))))
  · obtain ⟨d, hd, rfl⟩ := containedEntry_join.mp he
    exact containedEntry_join.mpr ⟨d, grown_target hg hd, rfl⟩

/-- The entry `h` is gone; nothing else changed. -/
def Erased (fs fs' : Fs) (h : Posix.Path) : Prop :=
  ∀ r, fs'.shape r = if r = h then none else fs.shape r

/-- A removed file's path still resolves to where the file was. -/
theorem Erased.resolves (hx : Erased fs fs' h) (hp : p ≠ .root)
    (hf : fs.shape h = some (.file c)) (ht : containedTarget fs root p = .ok h)
    (he : containedEntry fs root p = .ok h) :
    containedTarget fs' root p = .ok h ∧ containedEntry fs' root p = .ok h := by
  have hk : Fs.Keeps fs fs' := by
    constructor
    · intro q hq
      rw [hx, if_neg, hq]
      rintro rfl
      rw [hq] at hf
      cases hf
    · intro q t hq
      rw [hx, if_neg, hq]
      rintro rfl
      rw [hq] at hf
      cases hf
  rcases VfsPath.root_or_join p with rfl | ⟨q, n, rfl⟩
  · exact absurd rfl hp
  · obtain ⟨r, hr, -⟩ := resolve_ok.mp ht
    have hrd := root_dir_of_join hr ht
    have hr' : fs'.canonicalize root = .ok r :=
      Fs.canonicalize_keeps hk hr (Fs.real_of_dir (Fs.shape_eq_dir.mp (hk.1 r hrd)))
    obtain ⟨d, hd, rfl⟩ := containedEntry_join.mp he
    have hdir : fs.shape d = some .dir := Fs.shape_dir_of_append (by rw [hf]; simp) (by simp)
    have hd' := containedTarget_keeps hk hr hr' hd (undisturbed_of_dir hk hdir)
    have he' : containedEntry fs' root (q.join n) = .ok (d ++ [n.bytes]) :=
      containedEntry_join.mpr ⟨d, hd', rfl⟩
    have hnone : fs'.shape (d ++ [n.bytes]) = none := by rw [hx, if_pos rfl]
    have hc' : fs'.Clear (d ++ [n.bytes]) := by
      have hdir' := hk.1 d hdir
      exact Fs.clear_append_singleton.mpr ⟨Fs.clear_of_shape (by simp [hdir']), .inr hdir'⟩
    exact ⟨containedTarget_of_entry he' hc' (by simp [hnone]), he'⟩

/-! ## The disk parts -/

namespace KinDaemonWriter

/-- A restat is the stat of the entry. -/
theorem restat_eq {e : Posix.Path} (he : entryPath root fs p = .ok e) (hc : fs.Clear e) :
    restat root fs p = match fs.node e with
      | none => .error (.io .notFound)
      | some nd => .ok (statOf nd) := by
  unfold restat stageStat
  rw [he]
  dsimp only
  rw [Fs.lstat_clear hc]
  cases fs.node e <;> rfl

theorem writeAtDisk_spec (offset : Nat) (data : Bytes) (ht : contentPath root fs p = .ok h) :
    match openedContent writeOptions (fs.shape h) with
    | some c =>
      if Posix.writable offset data then
        ∃ fs', exec (writeAtDisk root p offset data) fs = (.ok (), fs') ∧
          Put fs fs' h (Content.overwrite c offset data)
      else ∃ e fs', exec (writeAtDisk root p offset data) fs = (.error (.io e), fs') ∧
          e ≠ .notFound ∧ Put fs fs' h c
    | none => ∃ e fs', exec (writeAtDisk root p offset data) fs = (.error (.io e), fs') ∧
        e ≠ .notFound ∧ Same fs fs' := by
  have hspec := openUnder_spec (o := writeOptions) (containedTarget_landed ht) rfl
  cases hcont : openedContent writeOptions (fs.shape h) with
  | some c =>
    rw [hcont] at hspec
    obtain ⟨hh, fs₁, fs₂, hx₁, hx₂, hput⟩ := hspec
    have hfile : fs₂.shape h = some (.file c) := by rw [hput, if_pos rfl]
    have hw := Posix.writeFile_spec offset data hfile
    dsimp only
    split
    · rename_i hwr
      rw [if_pos hwr] at hw
      obtain ⟨fs', hx₃, hwrote⟩ := hw
      exact ⟨fs', by simp [writeAtDisk, exec_bind, ht, hx₁, hx₂, hx₃], hput.wrote hwrote⟩
    · rename_i hwr
      rw [if_neg hwr] at hw
      obtain ⟨e, hx₃, he⟩ := hw
      exact ⟨e, fs₂, by simp [writeAtDisk, exec_bind, ht, hx₁, hx₂, hx₃], he, hput⟩
  | none =>
    rw [hcont] at hspec
    obtain ⟨-, e, fs₁, hx₁, hx₂, he, hsame⟩ := hspec
    exact ⟨e, fs₁, by simp [writeAtDisk, exec_bind, ht, hx₁, hx₂], he, hsame⟩

theorem createFileDisk_spec (exclusive : Bool) (ht : contentPath root fs p = .ok h) :
    match openedContent (createOptions exclusive) (fs.shape h) with
    | some c => ∃ fs', exec (createFileDisk root p exclusive) fs = (.ok (), fs') ∧ Put fs fs' h c
    | none => ∃ e fs', exec (createFileDisk root p exclusive) fs = (.error (.io e), fs') ∧
        e ≠ .notFound ∧ Same fs fs' := by
  have hcr : ((createOptions exclusive).create || (createOptions exclusive).createNew) = true := by
    cases exclusive <;> rfl
  have hspec := openUnder_spec (o := createOptions exclusive) (containedTarget_landed ht) hcr
  cases hcont : openedContent (createOptions exclusive) (fs.shape h) with
  | some c =>
    rw [hcont] at hspec
    obtain ⟨hh, fs₁, fs₂, hx₁, hx₂, hput⟩ := hspec
    exact ⟨fs₂, by simp [createFileDisk, exec_bind, exec_map, ht, hx₁, hx₂], hput⟩
  | none =>
    rw [hcont] at hspec
    obtain ⟨-, e, fs₁, hx₁, hx₂, he, hsame⟩ := hspec
    exact ⟨e, fs₁, by simp [createFileDisk, exec_bind, exec_map, ht, hx₁, hx₂], he, hsame⟩

/-- A write to an existing file makes nothing above it. -/
theorem put_of_wrote_file {d : Bytes} (hs : fs.shape h = some (.file c)) (hw : Wrote fs fs' h d) :
    Put fs fs' h d := by
  intro r
  rw [hw]
  split
  · rfl
  · rw [if_neg]
    rintro ⟨hr, hnone⟩
    exact Fs.shape_of_prefix (by simp [hs]) hr hnone

theorem setLenDisk_spec (size : Nat) (ht : contentPath root fs p = .ok h) :
    match fs.shape h with
    | some (.file c) =>
      if size ≤ Posix.maxFileSize then
        ∃ fs', exec (setLenDisk root p size) fs = (.ok (), fs') ∧
          Put fs fs' h (Content.resize c size)
      else ∃ e, exec (setLenDisk root p size) fs = (.error (.io e), fs) ∧ e ≠ .notFound
    | none => exec (setLenDisk root p size) fs = (.error (.io .notFound), fs)
    | _ => ∃ e, exec (setLenDisk root p size) fs = (.error (.io e), fs) ∧ e ≠ .notFound := by
  obtain ⟨hc, hl⟩ := containedTarget_landed ht
  have hopen := Posix.openFile_eq (o := ⟨false, false, false⟩) hc hl
  cases hs : fs.shape h with
  | none =>
    have hn : fs.node h = none := Fs.shape_eq_none.mp hs
    by_cases hp : fs.shape h.dropLast = none
    · rw [if_pos hp] at hopen
      simp [setLenDisk, exec_bind, ht, hopen]
    · rw [if_neg hp] at hopen
      have hreal : exec (Posix.openReal ⟨false, false, false⟩ h) fs = (.error .notFound, fs) := by
        simp [Posix.openReal, exec_bind, hn]
      rw [hreal] at hopen
      simp [setLenDisk, exec_bind, ht, hopen]
  | some sh =>
    have hp : fs.shape h.dropLast ≠ none := Fs.shape_of_prefix (by simp [hs]) (List.dropLast_prefix h)
    rw [if_neg hp] at hopen
    cases sh with
    | file c =>
      obtain ⟨i, hn⟩ := Fs.shape_eq_file.mp hs
      have hreal : exec (Posix.openReal ⟨false, false, false⟩ h) fs = (.ok h, fs) := by
        simp [Posix.openReal, exec_bind, hn]
      rw [hreal] at hopen
      have hw := Posix.setFileLen_spec (n := size) hs
      dsimp only
      split
      · rename_i hle
        rw [if_pos hle] at hw
        obtain ⟨fs', hx, hwrote⟩ := hw
        exact ⟨fs', by simp [setLenDisk, exec_bind, ht, hopen, hx], put_of_wrote_file hs hwrote⟩
      · rename_i hle
        rw [if_neg hle] at hw
        obtain ⟨e, hx, he⟩ := hw
        exact ⟨e, by simp [setLenDisk, exec_bind, ht, hopen, hx], he⟩
    | dir =>
      obtain ⟨i, k, hn⟩ := Fs.isDir_iff.mp (Fs.shape_eq_dir.mp hs)
      have hreal : exec (Posix.openReal ⟨false, false, false⟩ h) fs =
          (.error .isADirectory, fs) := by
        simp [Posix.openReal, exec_bind, hn]
      rw [hreal] at hopen
      exact ⟨.isADirectory, by simp [setLenDisk, exec_bind, ht, hopen], by simp⟩
    | symlink t => exact absurd hs (hl t)

/-- A removal takes the entry itself: a link, a file, or an empty directory. -/
theorem removeDisk_spec {e : Posix.Path} (he : entryPath root fs p = .ok e) (hc : fs.Clear e) :
    match fs.shape e with
    | none => exec (removeDisk root p) fs = (.error (.io .notFound), fs)
    | some sh =>
      if e ≠ [] ∧ (sh = .dir → fs.isEmptyDir e = true) then
        ∃ fs', exec (removeDisk root p) fs = (.ok (), fs') ∧
          Erased fs fs' e
      else ∃ k, exec (removeDisk root p) fs = (.error (.io k), fs) ∧ k ≠ .notFound := by
  have hlstat := Fs.lstat_clear hc
  have hlocate : fs.shape e ≠ none → fs.locate e = .ok e := by
    intro hs
    rw [Fs.locate_clear hc, if_neg (Fs.shape_of_prefix hs (List.dropLast_prefix e))]
  cases hn : fs.node e with
  | none =>
    rw [hn] at hlstat
    rw [Fs.shape_eq_none.mpr hn]
    simp [removeDisk, exec_bind, he, hlstat]
  | some nd =>
    rw [hn] at hlstat
    have hsh : fs.shape e = some nd.shape := by simp [Fs.shape, hn]
    rw [hsh]
    rw [hsh] at hlocate
    replace hlocate := hlocate (by simp)
    dsimp only
    cases hd : nd.isDir with
    | true =>
      obtain ⟨i, k, rfl⟩ : ∃ i k, nd = .dir i k := by
        cases nd <;> simp_all [Posix.Node.isDir]
      by_cases h0 : e = []
      · subst h0
        rw [if_neg (by simp)]
        refine ⟨.resourceBusy, ?_, by simp⟩
        simp [removeDisk, exec_bind, he, hlstat, Posix.Node.isDir, Posix.removeDir, hlocate, hn]
      · by_cases hemp : fs.isEmptyDir e = true
        · rw [if_pos ⟨h0, fun _ => hemp⟩]
          refine ⟨fs.removeEntry e, ?_, fun r => Fs.shape_removeEntry h0 (.inr hemp)⟩
          simp [removeDisk, exec_bind, he, hlstat, Posix.Node.isDir, Posix.removeDir, hlocate, hn,
            h0, hemp]
        · rw [if_neg (by simp [h0, hemp, Posix.Node.shape])]
          refine ⟨.directoryNotEmpty, ?_, by simp⟩
          simp [removeDisk, exec_bind, he, hlstat, Posix.Node.isDir, Posix.removeDir, hlocate, hn,
            h0, hemp]
    | false =>
      have h0 : e ≠ [] := by
        rintro rfl
        have := fs.rootDir
        rw [hn] at this
        simp [hd] at this
      have hnd : fs.isDir e = false := by simp [Fs.isDir, hn, hd]
      have hk : nd.shape ≠ .dir := by cases nd <;> simp_all [Posix.Node.shape, Posix.Node.isDir]
      rw [if_pos ⟨h0, fun h => absurd h hk⟩]
      refine ⟨fs.removeEntry e, ?_, fun r => Fs.shape_removeEntry h0 (.inl hnd)⟩
      cases nd with
      | dir i k => cases hd
      | file i c =>
        simp [removeDisk, exec_bind, he, hlstat, Posix.Node.isDir, Posix.removeFile, hlocate, hn]
      | symlink i t =>
        simp [removeDisk, exec_bind, he, hlstat, Posix.Node.isDir, Posix.removeFile, hlocate, hn]

/-! ## The calls -/

variable {w : World}

@[simp] theorem exec_onDisk {α : Type} (x : DiskM α) (w : World) :
    exec (onDisk x) w = ((exec x w.host).1, { w with host := (exec x w.host).2 }) := by
  rw [onDisk, exec_zoom]
  rcases exec x w.host with ⟨_ | _, _⟩ <;> rfl

/-- The world after a mark. -/
def marked (w : World) (path : VfsPath) (staged : Staged) : World :=
  { w with staging := w.staging.mark path staged w.arcs w.clock, arcs := w.arcs + 1 }

@[simp] theorem exec_mark (path : VfsPath) (staged : Staged) (w : World) :
    exec (mark path staged) w = (.ok (), marked w path staged) := rfl

theorem exec_markPresent :
    exec (markPresent root p) w =
      match restat root w.host p with
      | .ok st => (.ok st, marked w p (.present st))
      | .error e => (.error e, w) := by
  simp only [markPresent, exec_bind, exec_ofExcept]
  cases restat root w.host p <;> rfl

/-- A disk part and a mark of `p` as present: `write_at`, `create_file`, `set_len`, `create_dir`. -/
theorem exec_diskThenMark (x : DiskM Unit) :
    exec (onDisk x >>= fun _ => markPresent root p) w =
      match exec x w.host with
      | (.error e, fs) => (.error e, { w with host := fs })
      | (.ok (), fs) =>
        match restat root fs p with
        | .ok st => (.ok st, marked { w with host := fs } p (.present st))
        | .error e => (.error e, { w with host := fs }) := by
  rw [exec_bind, exec_onDisk]
  rcases exec x w.host with ⟨e | u, fs⟩
  · rfl
  · dsimp only
    rw [exec_markPresent]

theorem exec_rename {old new : VfsPath} :
    exec (rename root old new) w =
      match exec (renameDisk root old new) w.host with
      | (.error e, fs) => (.error e, { w with host := fs })
      | (.ok (), fs) =>
        match restat root fs new with
        | .ok st => (.ok (), marked (marked { w with host := fs } old .removed) new (.present st))
        | .error e => (.error e, marked { w with host := fs } old .removed) := by
  rw [rename, exec_bind, exec_onDisk]
  rcases exec (renameDisk root old new) w.host with ⟨e | u, fs⟩
  · rfl
  · dsimp only
    rw [exec_bind, exec_mark]
    dsimp only
    rw [exec_bind, exec_markPresent]
    dsimp only [marked]
    cases restat root fs new <;> rfl

end KinDaemonWriter
end KinVfs
