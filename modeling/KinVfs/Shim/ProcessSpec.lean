import KinVfs.Shim.Process

/-!
# What the writing hooks do to the disk and to the descriptors

One lemma for each step of an open for writing and of its close, on any disk.

* `views` is what the descriptors show. A step that only removes names, adds entries or moves them
  leaves it as it is (`views_unlink`, `views_renamed`).
* `cleanup_spec`: the clean-up removes temp files of the path, all of them while the directory can
  still be reached.
-/

namespace KinVfs

open Fallible
open Posix (Fs Node)

variable {s s' : Process} {fs fs' : Fs} {l d p : Posix.Path} {n : Bytes}

namespace Process

/-- What the descriptors show. -/
def views (s : Process) : Slots Seen := s.files.mapSome (OpenFile.seen s.disk)

/-- Every descriptor has a file. -/
def Backed (s : Process) : Prop :=
  ∀ file, some file ∈ s.files → (file.inode.look s.disk).isSome = true

end Process

/-- Files stay as they are. -/
def FilesStay (fs fs' : Fs) : Prop :=
  ∀ l i c, fs.node l = some (.file i c) → fs'.node l = some (.file i c)

theorem Inode.look_named {found : Posix.Info × Bytes} :
    (Inode.named l).look fs = some found ↔ fs.node l = some (.file found.1 found.2) := by
  cases hn : fs.node l with
  | none => simp [look, hn]
  | some nd =>
    cases nd with
    | file i c => simp [look, hn, Prod.ext_iff]
    | dir i k => simp [look, hn]
    | symlink i t => simp [look, hn]

theorem Inode.look_stays (h : FilesStay fs fs') {inode : Inode} {found : Posix.Info × Bytes}
    (hl : inode.look fs = some found) : inode.look fs' = some found := by
  cases inode with
  | orphan l i c => exact hl
  | named l => exact look_named.mpr (h _ _ _ (look_named.mp hl))

/-- The descriptors show the same when every file is found as before. -/
theorem views_mapInode (fs : Fs) (f : Inode → Inode) (hb : s.Backed)
    (h : ∀ inode found, inode.look s.disk = some found → (f inode).look fs = some found) :
    ({ s with disk := fs, files := s.files.mapInode f } : Process).views = s.views := by
  unfold Process.views OpenFiles.mapInode Slots.mapSome
  rw [List.map_map]
  refine List.map_congr_left fun file hfile => ?_
  cases file with
  | none => rfl
  | some file =>
    obtain ⟨found, hfound⟩ := Option.isSome_iff_exists.mp (hb file hfile)
    simp [OpenFile.seen, hfound, h _ _ hfound]

theorem mapInode_id (files : OpenFiles) : files.mapInode id = files := by
  unfold OpenFiles.mapInode Slots.mapSome
  rw [show (Option.map fun file : OpenFile => { file with inode := id file.inode }) = id by
    funext file
    cases file <;> rfl]
  exact List.map_id files

theorem views_stays (hb : s.Backed) (h : FilesStay s.disk fs) :
    ({ s with disk := fs } : Process).views = s.views := by
  have hv := views_mapInode fs id hb fun inode found hl => Inode.look_stays h hl
  rwa [mapInode_id] at hv

theorem backed_iff : s.Backed ↔ ∀ v, some v ∈ s.views → v.found.isSome = true := by
  constructor
  · intro hb v hv
    obtain ⟨file, hfile, he⟩ := List.mem_map.mp hv
    cases file with
    | none => cases he
    | some file =>
      cases he
      exact hb file hfile
  · intro h file hfile
    exact h (file.seen s.disk) (List.mem_map.mpr ⟨some file, hfile, rfl⟩)

/-- Descriptors that show the same have their files. -/
theorem Process.Backed.of_views (hb : s.Backed) (h : s'.views = s.views) : s'.Backed := by
  rw [backed_iff] at hb ⊢
  rwa [h]

/-! ## Removing names -/

/-- Some names that satisfy `P`, none of a directory, are gone. -/
def Pruned (P : Posix.Path → Prop) (fs fs' : Fs) : Prop :=
  ∀ q, fs'.entry q = fs.entry q ∨ P q ∧ fs.isDir q = false ∧ fs'.node q = none

theorem Pruned.refl {P : Posix.Path → Prop} : Pruned P fs fs := fun _ => .inl rfl

theorem Pruned.trans {P : Posix.Path → Prop} {fs'' : Fs} (h₁ : Pruned P fs fs')
    (h₂ : Pruned P fs' fs'') : Pruned P fs fs'' := by
  intro q
  rcases h₂ q with he | ⟨hp, hd, hn⟩
  · rw [he]
    rcases h₁ q with he' | ⟨hp, hd, hn⟩
    · exact .inl he'
    · refine .inr ⟨hp, hd, ?_⟩
      rw [← Posix.Fs.entry_eq_none, he, Posix.Fs.entry_eq_none, hn]
  · rcases h₁ q with he' | ⟨-, hd', -⟩
    · exact .inr ⟨hp, by rw [← Posix.Fs.isDir_congr he', hd], hn⟩
    · exact .inr ⟨hp, hd', hn⟩

/-- What is left was there before. -/
theorem Pruned.keeps {P : Posix.Path → Prop} (h : Pruned P fs fs') : Fs.Keeps fs' fs := by
  constructor
  · intro q hq
    rcases h q with he | ⟨-, -, hn⟩
    · rw [← Fs.shape_congr he, hq]
    · rw [Fs.shape_eq_none.mpr hn] at hq
      cases hq
  · intro q t hq
    rcases h q with he | ⟨-, -, hn⟩
    · rw [← Fs.shape_congr he, hq]
    · rw [Fs.shape_eq_none.mpr hn] at hq
      cases hq

theorem Pruned.canonicalize {P : Posix.Path → Prop} (h : Pruned P fs fs')
    (hp : fs'.canonicalize p = .ok d) : fs.canonicalize p = .ok d := by
  have hreal : fs'.Real d := Fs.canonicalize_real hp
  refine Fs.canonicalize_keeps h.keeps hp ?_
  rcases h d with he | ⟨-, -, hn⟩
  · exact ⟨by rw [← Fs.shape_congr he]; exact hreal.1, by rw [← Fs.shape_congr he]; exact hreal.2⟩
  · exact absurd (Fs.shape_eq_none.mpr hn) hreal.1

theorem Pruned.isDir {P : Posix.Path → Prop} (h : Pruned P fs fs') (hd : fs.isDir d = true) :
    fs'.isDir d = true := by
  rcases h d with he | ⟨-, hnd, -⟩
  · rw [Fs.isDir_congr he, hd]
  · rw [hnd] at hd
    cases hd

theorem entry_unlinked {nd : Node} (hn : fs.node l = some nd) (hd : nd.isDir = false) (q : Posix.Path) :
    (fs.removeEntry l).entry q = if q = l then none else fs.entry q := by
  refine Fs.entry_removeEntry ?_ (.inl ?_)
  · rintro rfl
    have hroot := fs.rootDir
    rw [hn] at hroot
    simp [hd] at hroot
  · simp [Fs.isDir, hn, hd]

/-- What a removal of a name in the directory `d` does. -/
theorem unlink_eq (hp : s.disk.canonicalize p = .ok d) (hd : s.disk.isDir d = true) :
    s.unlink (p ++ [n]) =
      match s.disk.node (d ++ [n]) with
      | none => s
      | some (.dir ..) => s
      | some _ => { s with
          disk := s.disk.removeEntry (d ++ [n])
          files := s.files.mapInode (.detach s.disk (d ++ [n])) } := by
  unfold Process.unlink
  rw [Posix.removeFile_exec, Fs.locate_concat hp hd]
  dsimp only
  cases s.disk.node (d ++ [n]) with
  | none => rfl
  | some nd => cases nd <;> rfl

/-- What is known of a process after names were removed. -/
structure Swept (P : Posix.Path → Prop) (s s' : Process) : Prop where
  pruned : Pruned P s.disk s'.disk
  shim : s'.shim = s.shim
  env : s'.disk.env = s.disk.env
  views : s'.views = s.views

theorem Swept.refl {P : Posix.Path → Prop} : Swept P s s := ⟨Pruned.refl, rfl, rfl, rfl⟩

theorem Swept.trans {P : Posix.Path → Prop} {s'' : Process} (h₁ : Swept P s s') (h₂ : Swept P s' s'') :
    Swept P s s'' :=
  ⟨h₁.pruned.trans h₂.pruned, h₂.shim.trans h₁.shim, h₂.env.trans h₁.env, h₂.views.trans h₁.views⟩

theorem Swept.backed {P : Posix.Path → Prop} (h : Swept P s s') (hb : s.Backed) : s'.Backed :=
  hb.of_views h.views

/-- A file whose name goes is still found by its descriptors. -/
theorem look_detach {nd : Node} (hn : fs.node l = some nd) (hd : nd.isDir = false) {inode : Inode}
    {found : Posix.Info × Bytes} (h : inode.look fs = some found) :
    (inode.detach fs l).look (fs.removeEntry l) = some found := by
  cases inode with
  | orphan r i c => exact h
  | named r =>
    have hr := Inode.look_named.mp h
    by_cases hrl : r = l
    · subst hrl
      rw [Inode.detach, hr]
      dsimp only
      rw [if_pos rfl]
      rfl
    · have hdetach : (Inode.named r).detach fs l = .named r := by
        rw [Inode.detach, hn]
        cases nd with
        | file i c => exact if_neg hrl
        | dir i k => rfl
        | symlink i t => rfl
      rw [hdetach, Inode.look_named, ← Fs.entry_eq_file, entry_unlinked hn hd, if_neg hrl,
        Fs.entry_eq_file, hr]

/-- A removal of a name in `d`, which is gone then unless it is a directory. -/
theorem swept_unlink {P : Posix.Path → Prop} (hb : s.Backed) (hp : s.disk.canonicalize p = .ok d)
    (hd : s.disk.isDir d = true) (hP : P (d ++ [n])) :
    Swept P s (s.unlink (p ++ [n])) ∧
      ((s.unlink (p ++ [n])).disk.node (d ++ [n]) = none ∨
        (s.unlink (p ++ [n])).disk.isDir (d ++ [n]) = true) := by
  have hremove : ∀ nd, s.disk.node (d ++ [n]) = some nd → nd.isDir = false →
      Swept P s { s with
          disk := s.disk.removeEntry (d ++ [n])
          files := s.files.mapInode (.detach s.disk (d ++ [n])) } ∧
        (s.disk.removeEntry (d ++ [n])).node (d ++ [n]) = none := by
    intro nd hn hnd
    have hgone : (s.disk.removeEntry (d ++ [n])).node (d ++ [n]) = none := by
      rw [← Fs.entry_eq_none, entry_unlinked hn hnd, if_pos rfl]
    refine ⟨⟨fun q => ?_, rfl, Fs.env_removeEntry, ?_⟩, hgone⟩
    · by_cases hq : q = d ++ [n]
      · subst hq
        exact .inr ⟨hP, by simp [Fs.isDir, hn, hnd], hgone⟩
      · refine .inl ?_
        show (s.disk.removeEntry (d ++ [n])).entry q = _
        rw [entry_unlinked hn hnd, if_neg hq]
    · exact views_mapInode _ _ hb fun _ _ hl => look_detach hn hnd hl
  rw [unlink_eq hp hd]
  cases hn : s.disk.node (d ++ [n]) with
  | none => exact ⟨Swept.refl, .inl hn⟩
  | some nd =>
    cases nd with
    | dir i k => exact ⟨Swept.refl, .inr (by simp [Fs.isDir, hn, Node.isDir])⟩
    | file i c =>
      obtain ⟨hs, hgone⟩ := hremove _ hn rfl
      exact ⟨hs, .inl hgone⟩
    | symlink i t =>
      obtain ⟨hs, hgone⟩ := hremove _ hn rfl
      exact ⟨hs, .inl hgone⟩

/-- Nothing is removed once the directory cannot be reached. -/
theorem sweep_lost {e : Posix.ErrorKind} (hp : s.disk.canonicalize p = .error e) (names : List Bytes) :
    (names.map (p ++ [·])).foldl Process.unlink s = s := by
  induction names with
  | nil => rfl
  | cons n names ih =>
    have hloc : s.disk.locate (p ++ [n]) = .error e := by
      unfold Fs.locate
      rw [List.getLast?_concat, List.dropLast_concat, hp]
    have hunlink : s.unlink (p ++ [n]) = s := by
      unfold Process.unlink
      rw [hloc]
    rw [List.map_cons, List.foldl_cons, hunlink, ih]

/-- The names of a list are removed one after the other. While the directory is reached all of them go,
and a directory that is reached at the end was reached all the time. -/
theorem swept_sweep {P : Posix.Path → Prop} (hb : s.Backed) (hp : s.disk.canonicalize p = .ok d)
    (hd : s.disk.isDir d = true) {names : List Bytes} (hP : ∀ n ∈ names, P (d ++ [n])) :
    Swept P s ((names.map (p ++ [·])).foldl Process.unlink s) ∧
      (((names.map (p ++ [·])).foldl Process.unlink s).disk.canonicalize p = .ok d →
        ∀ n ∈ names, ((names.map (p ++ [·])).foldl Process.unlink s).disk.node (d ++ [n]) = none ∨
          ((names.map (p ++ [·])).foldl Process.unlink s).disk.isDir (d ++ [n]) = true) := by
  induction names generalizing s with
  | nil => exact ⟨Swept.refl, fun _ n hn => nomatch hn⟩
  | cons n names ih =>
    rw [List.map_cons, List.foldl_cons]
    obtain ⟨hone, hgone⟩ := swept_unlink hb hp hd (hP n (by simp))
    have hd₁ : (s.unlink (p ++ [n])).disk.isDir d = true := hone.pruned.isDir hd
    cases hp₁ : (s.unlink (p ++ [n])).disk.canonicalize p with
    | error e =>
      rw [sweep_lost hp₁]
      refine ⟨hone, fun h => ?_⟩
      rw [hp₁] at h
      cases h
    | ok d₁ =>
      have hsame : d₁ = d := by
        have hbefore := hone.pruned.canonicalize hp₁
        rw [hp] at hbefore
        exact (Except.ok.inj hbefore).symm
      subst hsame
      obtain ⟨hrest, hall⟩ := ih (hone.backed hb) hp₁ hd₁ fun m hm => hP m (by simp [hm])
      refine ⟨hone.trans hrest, fun h m hm => ?_⟩
      rcases List.mem_cons.mp hm with rfl | hm
      · -- What is gone stays gone, and a directory stays.
        rcases hgone with hgone | hgone
        · rcases hrest.pruned (d₁ ++ [m]) with he | ⟨-, -, hn⟩
          · exact .inl (by rw [← Fs.entry_eq_none, he, Fs.entry_eq_none, hgone])
          · exact .inl hn
        · exact .inr (hrest.pruned.isDir hgone)
      · exact hall h m hm

theorem mem_childNames : n ∈ childNames fs d ↔ fs.node (d ++ [n]) ≠ none := by
  unfold childNames
  rw [List.mem_filterMap]
  constructor
  · rintro ⟨q, -, hq⟩
    split at hq
    · rename_i hchild
      obtain ⟨r, rfl⟩ := List.getLast?_eq_some_iff.mp hq
      rw [List.dropLast_concat] at hchild
      rw [← hchild.1]
      exact Option.isSome_iff_ne_none.mp hchild.2.2
    · cases hq
  · intro hn
    have hsome : (fs.node (d ++ [n])).isSome = true := Option.isSome_iff_ne_none.mpr hn
    refine ⟨d ++ [n], fs.supported _ hsome, ?_⟩
    rw [if_pos ⟨List.dropLast_concat, by simp, hsome⟩, List.getLast?_concat]

/-- A temp file of `name` in the directory that `parent` leads to. -/
def IsTempOf (fs : Fs) (parent : Posix.Path) (name : Bytes) (q : Posix.Path) : Prop :=
  ∃ d n, fs.canonicalize parent = .ok d ∧ q = d ++ [n] ∧ name ++ tempMarker <+: n

/-- The clean-up removes nothing but temp files of the path, and when the directory is reached afterwards
none is left. -/
theorem cleanup_spec {path : Bytes} {parent : Posix.Path} {name : Bytes} (hb : s.Backed)
    (hpath : diskPath path = parent ++ [name]) :
    Swept (IsTempOf s.disk parent name) s (cleanupStaleTemps path s) ∧
      ∀ d n, (cleanupStaleTemps path s).disk.canonicalize parent = .ok d →
        name ++ tempMarker <+: n →
        (cleanupStaleTemps path s).disk.node (d ++ [n]) = none ∨
          (cleanupStaleTemps path s).disk.isDir (d ++ [n]) = true := by
  have hname : (diskPath path).getLast? = some name := by rw [hpath, List.getLast?_concat]
  have hparent : (diskPath path).dropLast = parent := by rw [hpath, List.dropLast_concat]
  unfold cleanupStaleTemps
  rw [hname, hparent]
  unfold readDirNames
  cases hp : s.disk.canonicalize parent with
  | error e =>
    refine ⟨Swept.refl, fun d n h => ?_⟩
    rw [hp] at h
    cases h
  | ok d =>
    dsimp only
    by_cases hd : s.disk.isDir d = true
    · rw [if_pos hd]
      dsimp only
      have hP : ∀ n ∈ (childNames s.disk d).filter (name ++ tempMarker).isPrefixOf,
          IsTempOf s.disk parent name (d ++ [n]) := by
        intro n hn
        exact ⟨d, n, hp, rfl, List.isPrefixOf_iff_prefix.mp (List.mem_filter.mp hn).2⟩
      obtain ⟨hswept, hgone⟩ := swept_sweep hb hp hd hP
      refine ⟨hswept, fun d' n h hn => ?_⟩
      have hsame : d' = d := by
        have hbefore := hswept.pruned.canonicalize h
        rw [hp] at hbefore
        exact (Except.ok.inj hbefore).symm
      subst hsame
      by_cases hchild : s.disk.node (d' ++ [n]) = none
      · rcases hswept.pruned (d' ++ [n]) with he | ⟨-, -, hnone⟩
        · exact .inl (by rw [← Fs.entry_eq_none, he, Fs.entry_eq_none, hchild])
        · exact .inl hnone
      · exact hgone h n (List.mem_filter.mpr
          ⟨mem_childNames.mpr hchild, List.isPrefixOf_iff_prefix.mpr hn⟩)
    · rw [if_neg hd]
      refine ⟨Swept.refl, fun d' n h _ => .inl ?_⟩
      rw [hp] at h
      cases h
      -- What is not a directory has no entries.
      cases hn : s.disk.node (d ++ [n]) with
      | none => rfl
      | some nd => exact absurd (Fs.isDir_of_append (by rw [hn]; rfl) (by simp)) hd

/-! ## The temp path -/

/-- The last part of a path, and what a suffix without separator does to it. -/
theorem splitOn_last (path : Bytes) :
    ∃ init last, path.splitOn slash = init ++ [last] ∧
      ∀ ys, slash ∉ ys → (path ++ ys).splitOn slash = init ++ [last ++ ys] := by
  by_cases h : slash ∈ path
  · obtain ⟨xs, last, rfl, hlast⟩ := last_slash h
    have hone : last.splitOn slash = [last] := List.splitOn_eq_singleton hlast
    refine ⟨xs.splitOn slash, last, ?_, fun ys hys => ?_⟩
    · rw [List.splitOn_append_cons_self, hone]
    · have hlong : (last ++ ys).splitOn slash = [last ++ ys] :=
        List.splitOn_eq_singleton (by simp [hlast, hys])
      rw [List.append_assoc, List.cons_append, List.splitOn_append_cons_self, hlong]
  · refine ⟨[], path, List.splitOn_eq_singleton h, fun ys hys => ?_⟩
    rw [List.splitOn_eq_singleton (by simp [h, hys])]
    rfl

/-- The name of the temp file of `name`. -/
def tempName (name : Bytes) (pid : Int) : Bytes := name ++ tempMarker ++ Text.decimal pid

theorem slash_not_mem_suffix (pid : Int) : slash ∉ tempMarker ++ Text.decimal pid := by
  intro h
  rcases List.mem_append.mp h with h | h
  · exact absurd h (by decide)
  · rcases Text.decimal_bytes h with h | ⟨h, -⟩
    · exact absurd h (by decide)
    · exact absurd h (by decide)

/-- The temp file of a path is in the directory of the path. -/
theorem diskPath_temp {path : Bytes} (pid : Int) (h : endsInName path = true) :
    ∃ parent name, diskPath path = parent ++ [name] ∧
      diskPath (atomicTempPath path pid) = parent ++ [tempName name pid] ∧
      endsInName (atomicTempPath path pid) = true := by
  obtain ⟨init, last, hsplit, hsuffix⟩ := splitOn_last path
  have hlast : last ≠ [] ∧ last ≠ [dot] := by
    simpa [endsInName, hsplit] using h
  have htemp : (atomicTempPath path pid).splitOn slash = init ++ [tempName last pid] := by
    rw [atomicTempPath_eq, List.append_assoc, hsuffix _ (slash_not_mem_suffix pid)]
    simp [tempName]
  have hlong : tempName last pid ≠ [] ∧ tempName last pid ≠ [dot] := by
    constructor
    · simp [tempName, tempMarker]
    · intro he
      have hlen := congrArg List.length he
      simp only [tempName, tempMarker, List.length_append, List.length_cons, List.length_nil] at hlen
      omega
  refine ⟨init.filter fun c => c ≠ [] ∧ c ≠ [dot], last, ?_, ?_, ?_⟩
  · simp [diskPath, hsplit, hlast]
  · simp [diskPath, htemp, hlong]
  · simp [endsInName, htemp, hlong]

/-! ## Staging -/

section Staging

variable {g : ContentProvider} {roots : List Bytes} {strict : Bool} {pid : Int} {path : Bytes}
  {parent : Posix.Path} {name content : Bytes}

/-- The temp file of `path` holds `content`, in the directory `d` that `parent` leads to. -/
structure Materialized (g : ContentProvider) (roots : List Bytes) (pid : Int) (path : Bytes)
    (parent : Posix.Path) (name content : Bytes) (d : Posix.Path) (s s' : Process) : Prop where
  asked : exec (callGraph (graphReadFile g roots) path) s.shim = (.ok (some content), s'.shim)
  views : s'.views = s.views
  made : ∃ fs, Fs.Made (cleanupStaleTemps path s).disk fs parent d ∧
    fs.node (d ++ [tempName name pid]) = none ∧
    Posix.Became fs s'.disk (d ++ [tempName name pid]) (.file ⟨fs.env.fileMode, fs.env.now⟩ content)
  /-- No descriptor is of the temp file. -/
  unopened : ∀ file, some file ∈ s'.files → file.inode ≠ .named (d ++ [tempName name pid])
  env : s'.disk.env = s.disk.env

theorem Materialized.resolves (h : Materialized g roots pid path parent name content d s s') :
    s'.disk.canonicalize parent = .ok d ∧ s'.disk.isDir d = true := by
  obtain ⟨fs, hmade, hnone, hput⟩ := h.made
  exact hput.canonicalize (.inl hnone) hmade.resolves hmade.isDir

theorem Materialized.temp (h : Materialized g roots pid path parent name content d s s') :
    s'.disk.node (d ++ [tempName name pid]) =
      some (.file ⟨s.disk.env.fileMode, s.disk.env.now⟩ content) := by
  obtain ⟨fs, hmade, hnone, hput⟩ := h.made
  have henv : fs.env = s.disk.env := by rw [← hput.2, h.env]
  rw [hput.node, henv]

theorem Materialized.backed (h : Materialized g roots pid path parent name content d s s') (hb : s.Backed) :
    s'.Backed := hb.of_views h.views

theorem host_ok {α : Type} {x : Posix.HostM α} {a : α} (h : exec x s.disk = (.ok a, fs)) :
    exec (host x) s = (.ok a, { s with disk := fs }) := exec_zoom_ok.mpr ⟨fs, h, rfl⟩

theorem host_error {α : Type} {x : Posix.HostM α} {e : Posix.ErrorKind}
    (h : exec x s.disk = (.error e, fs)) :
    exec (host x) s = (.error (.io e), { s with disk := fs }) := exec_zoom_error h

/-- Directories that are made and a file that is new leave the files. -/
theorem filesStay_made {fs₁ fs₂ : Fs} {nd : Node} (hmade : Fs.Made fs fs₁ p d)
    (hnone : fs₁.node l = none) (hput : Posix.Became fs₁ fs₂ l nd) : FilesStay fs fs₂ := by
  intro q i c hq
  have hmid : fs₁.node q = some (.file i c) := by
    rcases hmade.rises q with he | ⟨hn, -⟩
    · rwa [← Fs.entry_eq_file, he, Fs.entry_eq_file]
    · rw [hq] at hn
      cases hn
  have hne : q ≠ l := by
    rintro rfl
    rw [hmid] at hnone
    cases hnone
  rwa [← Fs.entry_eq_file, hput.1, if_neg hne, Fs.entry_eq_file]

/-- A temp file that was staged is the only file of its name: the clean-up took the others away, or the
directory is new. -/
theorem materialized_of_written {s₁ : Process} {shim : Shim} (hb : s.Backed)
    (hpath : diskPath path = parent ++ [name])
    (htemp : diskPath (atomicTempPath path pid) = parent ++ [tempName name pid])
    (hclean : cleanupStaleTemps path s = s₁)
    (hask : exec (callGraph (graphReadFile g roots) path) s₁.shim = (.ok (some content), shim))
    (hmake : exec (makeParent path) s₁.disk = (.ok (), fs))
    (hwrite : exec (Posix.writeWhole (diskPath (atomicTempPath path pid)) content) fs =
      (.ok (), fs')) :
    ∃ d, Materialized g roots pid path parent name content d s
      { s₁ with shim := shim, disk := fs' } := by
  obtain ⟨hswept, hgone⟩ := cleanup_spec hb hpath
  rw [hclean] at hswept hgone
  have hparent : exec (Posix.createDirAll parent) s₁.disk = (.ok (), fs) := by
    have hne : diskPath path ≠ [] := by simp [hpath]
    rw [makeParent, if_neg hne, hpath, List.dropLast_concat] at hmake
    exact hmake
  obtain ⟨d, hmade⟩ := Posix.createDirAll_ok hparent
  have hplace : fs.node (d ++ [tempName name pid]) = none ∨
      fs.isDir (d ++ [tempName name pid]) = true := by
    rcases hmade.fresh with rfl | hfresh
    · refine hgone d _ hmade.resolves ?_
      rw [tempName]
      exact List.prefix_append _ _
    · exact .inl (hmade.rises.below hfresh)
  rw [htemp] at hwrite
  obtain ⟨hnone, hput⟩ := Posix.writeWhole_ok hmade.resolves hmade.isDir hplace hwrite
  refine ⟨d, ?_, ?_, ⟨fs, by rw [hclean]; exact hmade, hnone, hput⟩, ?_, ?_⟩
  · rw [← hswept.shim]
    exact hask
  · rw [← hswept.views]
    exact views_stays (hswept.backed hb) (filesStay_made hmade hnone hput)
  · -- An open file of that name would still be there.
    intro file hfile hinode
    have hfound := hswept.backed hb file hfile
    rw [hinode] at hfound
    obtain ⟨found, hfound⟩ := Option.isSome_iff_exists.mp hfound
    have hlook := Inode.look_named.mp hfound
    rcases hmade.rises (d ++ [tempName name pid]) with he | ⟨hgone, -⟩
    · rw [← Fs.entry_eq_none, he, Fs.entry_eq_none, hlook] at hnone
      cases hnone
    · rw [hlook] at hgone
      cases hgone
  · show fs'.env = s.disk.env
    rw [hput.2, hmade.env, hswept.env]

/-- The graph's answer to the seeding read. -/
def seedAnswer (g : ContentProvider) (roots : List Bytes) (path : Bytes) (shim : Shim) :
    Option Bytes × LastCall := graphReadFile g roots path shim.last

/-- The state of the shim after it. -/
def seedAsked (g : ContentProvider) (roots : List Bytes) (path : Bytes) (shim : Shim) : Shim :=
  shim.setLast (seedAnswer g roots path shim).2

theorem Materialized.seed (h : Materialized g roots pid path parent name content d s s') :
    (seedAnswer g roots path s.shim).1 = some content ∧ s'.shim = seedAsked g roots path s.shim := by
  have hasked := h.asked
  rw [exec_callGraph] at hasked
  exact ⟨Except.ok.inj (congrArg Prod.fst hasked), (congrArg Prod.snd hasked).symm⟩

/-- The clean-up and the question come first. -/
theorem exec_materializeFile (s : Process) :
    exec (materializeFile g roots strict pid path) s =
      match (seedAnswer g roots path (cleanupStaleTemps path s).shim).1 with
      | none =>
        if (seedAnswer g roots path (cleanupStaleTemps path s).shim).2.failure = .notFound then
          (.ok none, { cleanupStaleTemps path s with
            shim := seedAsked g roots path (cleanupStaleTemps path s).shim })
        else (.error (.errno (graphFailureErrno strict
            (seedAnswer g roots path (cleanupStaleTemps path s).shim).2.failure)),
          { cleanupStaleTemps path s with
            shim := seedAsked g roots path (cleanupStaleTemps path s).shim })
      | some content =>
        exec (do
          host (makeParent path)
          host (Posix.writeWhole (diskPath (atomicTempPath path pid)) content)
          return some (atomicTempPath path pid))
          { cleanupStaleTemps path s with
            shim := seedAsked g roots path (cleanupStaleTemps path s).shim } := by
  have hask : exec (hook (callGraph (graphReadFile g roots) path)) (cleanupStaleTemps path s) =
      (.ok (seedAnswer g roots path (cleanupStaleTemps path s).shim).1,
        { cleanupStaleTemps path s with
          shim := seedAsked g roots path (cleanupStaleTemps path s).shim }) :=
    exec_zoom_ok.mpr ⟨_, rfl, rfl⟩
  rw [materializeFile, exec_bind, exec_modify]
  dsimp only
  rw [exec_bind, hask]
  dsimp only
  cases (seedAnswer g roots path (cleanupStaleTemps path s).shim).1 with
  | some content => rfl
  | none =>
    dsimp only
    rw [exec_bind, exec_get]
    show exec (if (seedAnswer g roots path (cleanupStaleTemps path s).shim).2.failure = .notFound then
      _ else _) _ = _
    split <;> rfl

/-- The outcomes of `materialize_file`: a host call fails, the graph has nothing to seed from, or the temp
file is staged. -/
theorem materializeFile_cases {r : Except Fault (Option Bytes)} (hb : s.Backed)
    (hpath : diskPath path = parent ++ [name])
    (htemp : diskPath (atomicTempPath path pid) = parent ++ [tempName name pid])
    (h : exec (materializeFile g roots strict pid path) s = (r, s')) :
    (∃ e, r = .error (.io e)) ∨
      ((seedAnswer g roots path s.shim).1 = none ∧ s'.shim = seedAsked g roots path s.shim ∧
        s'.views = s.views ∧ s'.disk.env = s.disk.env ∧
        r = if (seedAnswer g roots path s.shim).2.failure = .notFound then .ok none
          else .error (.errno (graphFailureErrno strict (seedAnswer g roots path s.shim).2.failure))) ∨
      r = .ok (some (atomicTempPath path pid)) ∧
        ∃ content d, Materialized g roots pid path parent name content d s s' := by
  have hswept := (cleanup_spec hb hpath).1
  rw [exec_materializeFile] at h
  cases hseed : (seedAnswer g roots path (cleanupStaleTemps path s).shim).1 with
  | none =>
    rw [hseed] at h
    dsimp only at h
    rw [hswept.shim] at h hseed
    refine .inr (.inl ?_)
    split at h
    · rename_i hfail
      cases h
      exact ⟨hseed, rfl, hswept.views, hswept.env, by rw [if_pos hfail]⟩
    · rename_i hfail
      cases h
      exact ⟨hseed, rfl, hswept.views, hswept.env, by rw [if_neg hfail]⟩
  | some content =>
    rw [hseed] at h
    dsimp only at h
    generalize hc : ({ cleanupStaleTemps path s with
      shim := seedAsked g roots path (cleanupStaleTemps path s).shim } : Process) = c at h
    rw [exec_bind] at h
    rcases hmake : exec (makeParent path) c.disk with ⟨_ | _, fs⟩
    · rw [host_error hmake] at h
      cases h
      exact .inl ⟨_, rfl⟩
    · rw [host_ok hmake] at h
      dsimp only at h
      generalize hm : ({ c with disk := fs } : Process) = m at h
      rw [exec_bind] at h
      rcases hwrite : exec (Posix.writeWhole (diskPath (atomicTempPath path pid)) content) m.disk
        with ⟨_ | _, fs'⟩
      · rw [host_error hwrite] at h
        cases h
        exact .inl ⟨_, rfl⟩
      · rw [host_ok hwrite] at h
        cases h
        subst hc hm
        have hask : exec (callGraph (graphReadFile g roots) path) (cleanupStaleTemps path s).shim =
            (.ok (some content), seedAsked g roots path (cleanupStaleTemps path s).shim) := by
          rw [exec_callGraph, ← hseed]
          rfl
        obtain ⟨d, hmat⟩ := materialized_of_written hb hpath htemp rfl hask hmake hwrite
        exact .inr (.inr ⟨rfl, content, d, hmat⟩)

end Staging

/-! ## Opening the temp file -/

/-- What the flags of an open say about a file that is there. -/
def openRefusal (flags : OpenFlags) : Option Posix.ErrorKind :=
  if flags.creat && flags.excl then some .alreadyExists
  else if flags.directory then some .notADirectory
  else none

/-- An open of an existing file leaves it as it is, or empty. -/
def openedBytes (flags : OpenFlags) (content : Bytes) : Bytes := if flags.trunc then [] else content

theorem openNode_file (flags : OpenFlags) {i : Posix.Info} {c : Bytes}
    (hp : fs.canonicalize p = .ok d) (hd : fs.isDir d = true)
    (hn : fs.node (d ++ [n]) = some (.file i c)) (hi : i.mtime = fs.env.now) :
    match openRefusal flags with
    | some e => exec (openNode flags (p ++ [n])) fs = (.error e, fs)
    | none => ∃ fs', exec (openNode flags (p ++ [n])) fs = (.ok (d ++ [n]), fs') ∧
        Posix.Became fs fs' (d ++ [n]) (.file i (openedBytes flags c)) := by
  have hopen : exec (openNode flags (p ++ [n])) fs = exec (openLocation flags (d ++ [n])) fs := by
    simp only [openNode, exec_bind, exec_ofExcept, Fs.locate_concat hp hd, exec_get, hn]
  rw [hopen]
  unfold openRefusal
  simp only [openLocation, exec_bind, exec_get, hn]
  by_cases hexcl : (flags.creat && flags.excl) = true
  · simp [hexcl]
  · simp only [hexcl, Bool.false_eq_true, ↓reduceIte]
    by_cases hdir : flags.directory = true
    · simp [hdir]
    · simp only [hdir, Bool.false_eq_true, ↓reduceIte, Posix.openReal, exec_bind, exec_get, hn]
      by_cases ht : flags.trunc = true
      · simp only [ht, ↓reduceIte, openedBytes]
        have hinfo : ({ i with mtime := fs.env.now } : Posix.Info) = i := by rw [← hi]
        rw [hinfo]
        refine ⟨_, rfl, fun q => ?_, Fs.env_setNode⟩
        exact Fs.entry_setNode (by simp [hn, Node.isDir]) rfl
      · simp only [ht, Bool.false_eq_true, ↓reduceIte, exec_pure, openedBytes]
        exact ⟨fs, rfl, Posix.Became.refl hn⟩

/-- A new descriptor. -/
def newFile (flags : OpenFlags) (l : Posix.Path) : OpenFile :=
  ⟨.named l, 0, !flags.wronly, flags.wronly || flags.rdwr⟩

/-- What a new descriptor shows. -/
def newSeen (flags : OpenFlags) (info : Posix.Info) (content : Bytes) : Seen :=
  ⟨some (info, openedBytes flags content), 0, !flags.wronly, flags.wronly || flags.rdwr⟩

/-- The kernel opens a file that is there. -/
theorem realOpen_file (flags : OpenFlags) {temp : Bytes} {i : Posix.Info} {c : Bytes}
    (hpath : diskPath temp = p ++ [n]) (hends : endsInName temp = true)
    (hp : s.disk.canonicalize p = .ok d) (hd : s.disk.isDir d = true)
    (hn : s.disk.node (d ++ [n]) = some (.file i c)) (hi : i.mtime = s.disk.env.now) :
    if s.shim.table.base ≤ s.files.free then exec (realOpen flags temp) s = (.error .tooManyFiles, s)
    else
      match openRefusal flags with
      | some e => exec (realOpen flags temp) s = (.error (.real e), s)
      | none => ∃ fs', Posix.Became s.disk fs' (d ++ [n]) (.file i (openedBytes flags c)) ∧
          exec (realOpen flags temp) s = (.ok s.files.free,
            { s with disk := fs', files := s.files.put s.files.free (some (newFile flags (d ++ [n]))) }) := by
  have hopen := openNode_file flags hp hd hn hi
  have hflags : ({ flags with directory := flags.directory || !endsInName temp } : OpenFlags) = flags := by
    simp [hends]
  have hexec : exec (realOpen flags temp) s =
      if s.shim.table.base ≤ s.files.free then (.error .tooManyFiles, s)
      else exec (do
        let l ← kernel (openNode flags (p ++ [n]))
        modify fun t => t.setFile s.files.free (some (newFile flags l))
        return s.files.free) s := by
    rw [realOpen, exec_bind, exec_get]
    dsimp only
    rw [hflags, hends, hpath]
    split
    · rfl
    · rfl
  rw [hexec]
  by_cases hfull : s.shim.table.base ≤ s.files.free
  · rw [if_pos hfull, if_pos hfull]
  · rw [if_neg hfull, if_neg hfull, exec_bind]
    cases hrefusal : openRefusal flags with
    | some e =>
      rw [hrefusal] at hopen
      rw [kernel, exec_zoom_error hopen]
    | none =>
      rw [hrefusal] at hopen
      obtain ⟨fs', hrun, hput⟩ := hopen
      refine ⟨fs', hput, ?_⟩
      have hkernel : exec (kernel (openNode flags (p ++ [n]))) s =
          (.ok (d ++ [n]), { s with disk := fs' }) := exec_zoom_ok.mpr ⟨fs', hrun, rfl⟩
      rw [hkernel]
      rfl

/-- The other descriptors show what they did, and the new one its file. -/
theorem views_put (flags : OpenFlags) {i : Posix.Info} {c : Bytes} (hb : s.Backed)
    (hstay : ∀ q, q ≠ l → fs.entry q = s.disk.entry q) (hl : fs.node l = some (.file i (openedBytes flags c)))
    (hold : ∀ file, some file ∈ s.files → file.inode ≠ .named l) (fd : Nat) :
    ({ s with disk := fs, files := s.files.put fd (some (newFile flags l)) } : Process).views =
      s.views.put fd (some (newSeen flags i c)) := by
  have hseen : ∀ file, some file ∈ s.files → file.seen fs = file.seen s.disk := by
    intro file hfile
    have hlook : file.inode.look fs = file.inode.look s.disk := by
      cases hinode : file.inode with
      | orphan r i c => rfl
      | named r =>
        have hr : r ≠ l := fun he => hold file hfile (he ▸ hinode)
        obtain ⟨found, hfound⟩ := Option.isSome_iff_exists.mp (hb file hfile)
        rw [hinode] at hfound
        rw [hfound, Inode.look_named, ← Fs.entry_eq_file, hstay r hr, Fs.entry_eq_file]
        exact Inode.look_named.mp hfound
    unfold OpenFile.seen
    rw [hlook]
  have hviews : s.files.mapSome (OpenFile.seen fs) = s.views := by
    refine List.map_congr_left fun file hfile => ?_
    cases file with
    | none => rfl
    | some file => exact congrArg some (hseen file hfile)
  have hnew : (newFile flags l).seen fs = newSeen flags i c := by
    have hfound : (Inode.named l).look fs = some (i, openedBytes flags c) := Inode.look_named.mpr hl
    unfold newFile newSeen OpenFile.seen
    rw [hfound]
  show (s.files.put fd (some (newFile flags l))).mapSome (OpenFile.seen fs) = _
  rw [Slots.put_mapSome, hviews, Option.map_some, hnew]

/-! ## The open -/

section Open

variable {g : ContentProvider} {roots : List Bytes} {strict : Bool} {pid : Int} {path : Bytes}
  {flags : OpenFlags}

/-- The write of `fd` is tracked. -/
def tracked (shim : Shim) (fd : Nat) (path temp : Bytes) : Shim :=
  { shim with table := (shim.table.trackWrite fd path).trackAtomicWrite fd path temp }

/-- What an open for writing gives when the graph decides it: the result, the shim's state and what the
descriptors show. The disk has no part in it but for the mode and the time of new files. -/
def shownOpenWrite (g : ContentProvider) (roots : List Bytes) (strict : Bool) (pid : Int)
    (env : Posix.Env) (flags : OpenFlags) (path : Bytes) (shim : Shim) (views : Slots Seen) :
    Except Fault Nat × Shim × Slots Seen :=
  let asked := seedAsked g roots path shim
  match (seedAnswer g roots path shim).1 with
  | none =>
    if (seedAnswer g roots path shim).2.failure = .notFound then
      (.error (.errno (graphMissErrno strict)), asked, views)
    else
      (.error (.errno (graphFailureErrno strict (seedAnswer g roots path shim).2.failure)), asked, views)
  | some content =>
    if asked.table.base ≤ views.free then (.error .tooManyFiles, asked, views)
    else
      match openRefusal flags with
      | some e => (.error (.real e), asked, views)
      | none => (.ok views.free, tracked asked views.free path (atomicTempPath path pid),
          views.put views.free (some (newSeen flags ⟨env.fileMode, env.now⟩ content)))

/-- The staged temp file is opened: a refusal leaves the process as it is. -/
theorem openMaterialized (flags : OpenFlags) {s₁ : Process} {parent : Posix.Path} {name content : Bytes} {d : Posix.Path}
    (htemp : diskPath (atomicTempPath path pid) = parent ++ [tempName name pid])
    (hends : endsInName (atomicTempPath path pid) = true)
    (hmat : Materialized g roots pid path parent name content d s s₁) :
    if s₁.shim.table.base ≤ s₁.files.free then
      exec (realOpen flags (atomicTempPath path pid)) s₁ = (.error .tooManyFiles, s₁)
    else
      match openRefusal flags with
      | some e => exec (realOpen flags (atomicTempPath path pid)) s₁ = (.error (.real e), s₁)
      | none => ∃ fs', Posix.Became s₁.disk fs' (d ++ [tempName name pid])
            (.file ⟨s.disk.env.fileMode, s.disk.env.now⟩ (openedBytes flags content)) ∧
          exec (realOpen flags (atomicTempPath path pid)) s₁ = (.ok s₁.files.free,
            { s₁ with
              disk := fs'
              files := s₁.files.put s₁.files.free
                (some (newFile flags (d ++ [tempName name pid]))) }) := by
  obtain ⟨hp, hd⟩ := hmat.resolves
  exact realOpen_file flags htemp hends hp hd hmat.temp (by rw [hmat.env])

/-- An open for writing of a path that the graph holds, or that is not to be created, on any disk. -/
theorem openWrite_shown {r : Except Fault Nat} {at_ : At} {given : Bytes} (hb : s.Backed) (hends : endsInName path = true)
    (hcreat : flags.creat = true → (seedAnswer g roots path s.shim).1 = none →
      (seedAnswer g roots path s.shim).2.failure ≠ .notFound)
    (h : exec (openWrite g roots strict pid at_ given flags path) s = (r, s'))
    (hfair : ∀ e, r ≠ .error (.io e)) :
    (r, s'.shim, s'.views) = shownOpenWrite g roots strict pid s.disk.env flags path s.shim s.views ∧
      s'.disk.env = s.disk.env ∧ s'.Backed := by
  obtain ⟨parent, name, hpath, htemp, htempEnds⟩ := diskPath_temp pid hends
  rw [openWrite, exec_bind] at h
  rcases hm : exec (materializeFile g roots strict pid path) s with ⟨r₁, s₁⟩
  rw [hm] at h
  unfold shownOpenWrite
  rcases materializeFile_cases hb hpath htemp hm with
    ⟨e, rfl⟩ | ⟨hnone, hshim, hviews, henv, hr⟩ | ⟨rfl, content, d, hmat⟩
  · cases h
    exact absurd rfl (hfair e)
  · -- The graph has nothing to seed from.
    rw [hnone]
    dsimp only
    by_cases hfail : (seedAnswer g roots path s.shim).2.failure = .notFound
    · rw [if_pos hfail] at hr ⊢
      subst hr
      have hno : flags.creat = false := by
        cases hc : flags.creat with
        | false => rfl
        | true => exact absurd hfail (hcreat hc hnone)
      dsimp only at h
      rw [hno] at h
      cases h
      exact ⟨by rw [hshim, hviews], henv, hb.of_views hviews⟩
    · rw [if_neg hfail] at hr ⊢
      subst hr
      cases h
      exact ⟨by rw [hshim, hviews], henv, hb.of_views hviews⟩
  · obtain ⟨hseed, hshim⟩ := hmat.seed
    have hfree : s₁.files.free = s.views.free := by
      rw [← hmat.views]
      exact (Slots.free_mapSome _ _).symm
    have hopen := openMaterialized flags htemp htempEnds hmat
    rw [hseed, ← hshim]
    dsimp only at h ⊢
    rw [exec_bind] at h
    rw [hfree] at hopen
    by_cases hfull : s₁.shim.table.base ≤ s.views.free
    · rw [if_pos hfull] at hopen ⊢
      rw [hopen] at h
      cases h
      exact ⟨by rw [hmat.views], hmat.env, hmat.backed hb⟩
    · rw [if_neg hfull] at hopen ⊢
      cases hrefusal : openRefusal flags with
      | some e =>
        rw [hrefusal] at hopen
        dsimp only at hopen
        rw [hopen] at h
        cases h
        exact ⟨by rw [hmat.views], hmat.env, hmat.backed hb⟩
      | none =>
        rw [hrefusal] at hopen
        obtain ⟨fs', hput, hopen⟩ := hopen
        rw [hopen] at h
        cases h
        have hviews := views_put flags (hmat.backed hb) (fun q hq => hput.other hq)
          hput.node hmat.unopened s.views.free
        rw [hmat.views] at hviews
        refine ⟨Prod.ext rfl (Prod.ext rfl hviews), hput.2.trans hmat.env, ?_⟩
        rw [backed_iff]
        intro v hv
        have hv : some v ∈ s.views.put s.views.free
            (some (newSeen flags ⟨s.disk.env.fileMode, s.disk.env.now⟩ content)) := hviews ▸ hv
        rcases Slots.mem_put hv with hv | hv
        · exact backed_iff.mp hb v hv
        · cases hv
          rfl

end Open

/-! ## The close -/

theorem mapInode_mapInode (files : OpenFiles) (f f' : Inode → Inode) :
    (files.mapInode f).mapInode f' = files.mapInode (f' ∘ f) := by
  unfold OpenFiles.mapInode Slots.mapSome
  rw [List.map_map]
  refine List.map_congr_left fun file _ => ?_
  cases file <;> rfl

/-- A file that is moved, or replaced, is still found by its descriptors. -/
theorem look_move {src dst : Posix.Path} {nd : Node} (hs : src ≠ []) (hd : dst ≠ [])
    (hpre : src.isPrefixOf dst = false) (hrep : Posix.replaceable fs nd dst = .ok ())
    (hdir : fs.isDir dst.dropLast = true) {inode : Inode} {found : Posix.Info × Bytes}
    (h : inode.look fs = some found) :
    ((inode.detach fs dst).move src dst).look (fs.moveEntry src dst) = some found := by
  cases inode with
  | orphan r i c => exact h
  | named r =>
    have hr := Inode.look_named.mp h
    have hentry := fun q => Fs.entry_moveEntry (q := q) hs hd hpre hdir
    by_cases hrd : r = dst
    · subst hrd
      rw [Inode.detach, hr]
      dsimp only
      rw [if_pos rfl]
      rfl
    · have hdetach : (Inode.named r).detach fs dst = .named r := by
        rw [Inode.detach]
        split
        · exact if_neg hrd
        · rfl
      rw [hdetach, Inode.move, Inode.look_named, ← Fs.entry_eq_file, hentry]
      by_cases hsr : src.isPrefixOf r = true
      · obtain ⟨rest, rfl⟩ := List.isPrefixOf_iff_prefix.mp hsr
        rw [if_pos hsr, if_pos (List.isPrefixOf_iff_prefix.mpr (List.prefix_append _ _)),
          List.drop_left, List.drop_left, Fs.entry_eq_file, hr]
      · rw [if_neg hsr]
        have hdr : ¬ dst.isPrefixOf r = true := by
          intro hdr
          obtain ⟨rest, rfl⟩ := List.isPrefixOf_iff_prefix.mp hdr
          rw [Posix.node_below_replaceable hrep (by rintro rfl; exact hrd (List.append_nil _))] at hr
          cases hr
        rw [if_neg hdr, if_neg hsr, Fs.entry_eq_file, hr]

/-- A rename that succeeds changes nothing that the descriptors show. -/
theorem views_renamed {source target : Posix.Path} (hb : s.Backed)
    (h : exec (Posix.rename source target) s.disk = (.ok (), fs)) :
    (s.renamed fs source target).views = s.views ∧ (s.renamed fs source target).shim = s.shim ∧
      (s.renamed fs source target).disk.env = s.disk.env := by
  obtain ⟨src, dst, nd, hsrc, hdst, -, hcases⟩ := Posix.rename_ok h
  unfold Process.renamed
  rw [hsrc, hdst]
  dsimp only
  rcases hcases with ⟨he, -⟩ | ⟨hne, hs, hd, hpre, hrep, hdir, rfl⟩
  · rw [if_pos he]
    exact ⟨rfl, rfl, rfl⟩
  · rw [if_neg hne]
    refine ⟨?_, rfl, Fs.env_moveEntry⟩
    rw [mapInode_mapInode]
    exact views_mapInode _ _ hb fun _ _ hl => look_move hs hd hpre hrep hdir hl

/-- The shim's state after a close of a descriptor of the kernel. -/
def untracked (shim : Shim) (fd : Nat) : Shim :=
  { shim with table := (shim.table.closeAtomicWrite fd).2.closeWrite fd |>.2 }

/-- What a close gives: the disk has no part in it. -/
def shownClose (fd : Nat) (shim : Shim) (views : Slots Seen) : Except Fault Unit × Shim × Slots Seen :=
  if shim.table.base ≤ fd ∧ (shim.table.close fd).1 then
    (.ok (), { shim with table := (shim.table.close fd).2 }, views)
  else
    match views.get? fd with
    | none => (.error (.errno .ebadf), untracked shim fd, views)
    | some _ => (.ok (), untracked shim fd, views.put fd none)

theorem exec_requireFile (fd : Nat) (s : Process) :
    exec (requireFile fd) s = (match s.files.get? fd with
      | some file => .ok file
      | none => .error (.errno .ebadf), s) := by
  rw [requireFile, exec_bind, exec_get]
  dsimp only
  cases s.files.get? fd <;> rfl

theorem renameBytes_shown {source target : Bytes} {r : Except Fault Unit} (hb : s.Backed)
    (h : exec (renameBytes source target) s = (r, s')) (hfair : ∀ e, r ≠ .error (.io e)) :
    r = .ok () ∧ s'.shim = s.shim ∧ s'.views = s.views ∧ s'.disk.env = s.disk.env := by
  rw [renameBytes, exec_bind, exec_get] at h
  dsimp only at h
  split at h
  · cases h
    exact absurd rfl (hfair _)
  · rcases hren : exec (Posix.rename (diskPath source) (diskPath target)) s.disk with ⟨_ | _, fs⟩
    · rw [hren] at h
      cases h
      exact absurd rfl (hfair _)
    · rw [hren] at h
      cases h
      obtain ⟨hviews, hshim, henv⟩ := views_renamed hb hren
      exact ⟨rfl, hshim, hviews, henv⟩

theorem close_shown {fd : Nat} {r : Except Fault Unit} (hb : s.Backed)
    (h : exec (close fd) s = (r, s')) (hfair : ∀ e, r ≠ .error (.io e)) :
    (r, s'.shim, s'.views) = shownClose fd s.shim s.views ∧ s'.disk.env = s.disk.env ∧ s'.Backed := by
  have hget : s.views.get? fd = (s.files.get? fd).map (OpenFile.seen s.disk) := Slots.get?_mapSome _ _ _
  rw [close, exec_bind, exec_get] at h
  dsimp only at h
  unfold shownClose
  split at h
  · rename_i hvirtual
    rw [if_pos hvirtual]
    cases h
    exact ⟨rfl, rfl, hb⟩
  · rename_i hreal
    rw [if_neg hreal, hget]
    rw [exec_bind, exec_set] at h
    dsimp only at h
    rw [exec_bind, realClose, exec_bind, exec_requireFile] at h
    cases hfile : s.files.get? fd with
    | none =>
      have hfile' : (s.untrack fd).files.get? fd = none := hfile
      rw [hfile'] at h
      cases h
      exact ⟨rfl, rfl, hb⟩
    | some file =>
      have hfile' : (s.untrack fd).files.get? fd = some file := hfile
      rw [hfile'] at h
      dsimp only at h
      rw [exec_modify] at h
      dsimp only at h
      -- The descriptor is free, the others are as they were.
      have hviews : ((s.untrack fd).setFile fd none).views = s.views.put fd none := by
        show (s.files.put fd none).mapSome (OpenFile.seen s.disk) = _
        rw [Slots.put_mapSome]
        rfl
      have hb' : ((s.untrack fd).setFile fd none).Backed := by
        rw [backed_iff, hviews]
        intro v hv
        rcases Slots.mem_put hv with hv | hv
        · exact backed_iff.mp hb v hv
        · cases hv
      cases hentry : (s.shim.table.closeAtomicWrite fd).1 with
      | none =>
        rw [hentry] at h
        cases h
        exact ⟨Prod.ext rfl (Prod.ext rfl hviews), rfl, hb'⟩
      | some entry =>
        rw [hentry] at h
        obtain ⟨rfl, hshim, hviews', henv⟩ := renameBytes_shown hb' h hfair
        exact ⟨Prod.ext rfl (Prod.ext hshim (hviews'.trans hviews)), henv, hb'.of_views hviews'⟩

end KinVfs
