import KinVfs.Posix.Attrs
import KinVfs.Posix.Shows
import KinVfs.Shim.AtomicWrites
import KinVfs.Shim.WriteThrough
import KinVfs.Shim.WriteTracking

/-!
# Writers and the host's tree (`crates/kin-vfs-shim/src/intercept.rs`)

The writers of one path and the duplicates of a descriptor keep the host's files by inode, a process under
the shim keeps them in a tree. Here these are one host (`Posix.Shows`).

* A step of a writer is one host call in the directory of the target (`AtomicWrites.hostCall`). The tree
  shows what the writers have in every run in which they stay apart (`run_shown`), so what is read at the
  target after a close is what was written (`rename_read`).
* An open for writing, a write and a close of a process leave on its disk what they leave in the files of
  `WriteTracking` (`openWrite_onDisk`, `write_onDisk`, `close_onDisk`).
-/

namespace KinVfs

open Fallible
open Content (Edit)
open Inodes (Dir)
open Posix (Fs HostM Shows)

/-! ## Calls on a name -/

section Names

universe u

variable {ν : Type u} {place : ν → Posix.Path} {here : ν → Prop} {d d' : Dir ν Bytes} {fs : Fs} {n : ν}
  [DecidableEq ν]

/-- What `open(2)` leaves at a name. -/
def openLeaves (flags : OpenFlags) : Option Bytes → Option Bytes
  | some c => some (if openRefusal flags = none then openedBytes flags c else c)
  | none => if flags.creat then some [] else none

theorem shows_openNode (h : Shows place here d fs) (hn : here n) (flags : OpenFlags)
    (hd : ∀ m, d'.content m = if m = n then openLeaves flags (d.content n) else d.content m) :
    Shows place here d' (exec (openNode flags (place n)) fs).2 := by
  have hsame : openLeaves flags (d.content n) = d.content n → ∀ m, here m → d'.content m = d.content m := by
    intro heq m _
    rw [hd]
    split
    · rename_i hm
      rw [hm, heq]
    · rfl
  have hfile := h.file n hn
  have hopen : exec (openNode flags (place n)) fs = exec (openLocation flags (place n)) fs := by
    simp only [openNode, exec_bind, exec_ofExcept, h.locate hn, exec_get]
    cases hnode : fs.node (place n) with
    | none => rfl
    | some nd =>
      cases nd with
      | symlink i t => exact absurd (Fs.shape_eq_symlink.mpr ⟨i, hnode⟩) (h.ne_symlink hn t)
      | file i c => rfl
      | dir i k => rfl
  rw [hopen]
  simp only [openLocation, exec_bind, exec_get]
  cases hc : d.content n with
  | none =>
    rw [hc] at hfile hsame hd
    rw [Fs.shape_eq_none.mp hfile]
    dsimp only
    rw [if_pos (Fs.shape_eq_dir.mp (h.parent n hn))]
    have hspec := Posix.openReal_spec (o := ⟨flags.creat, false, flags.trunc⟩) (h.ne_nil hn) (h.parent n hn)
    rw [show fs.shape (place n) = none from hfile] at hspec
    cases hcreat : flags.creat with
    | false =>
      rw [hcreat] at hspec
      obtain ⟨e, hexec, -⟩ := hspec
      rw [hexec]
      exact h.of_content (hsame (by simp [openLeaves, hcreat]))
    | true =>
      rw [hcreat] at hspec
      obtain ⟨fs', hexec, hw⟩ := hspec
      rw [hexec]
      refine h.wrote hn hw fun m => ?_
      rw [hd]
      simp [openLeaves, hcreat]
  | some c =>
    rw [hc] at hfile hsame hd
    obtain ⟨i, hnode⟩ := Fs.shape_eq_file.mp hfile
    rw [hnode]
    dsimp only
    by_cases hexcl : (flags.creat && flags.excl) = true
    · rw [if_pos hexcl]
      exact h.of_content (hsame (by simp [openLeaves, openRefusal, hexcl]))
    · rw [if_neg hexcl]
      by_cases hdir : flags.directory = true
      · rw [if_pos hdir]
        exact h.of_content (hsame (by simp [openLeaves, openRefusal, hexcl, hdir]))
      · rw [if_neg hdir]
        have hspec := Posix.openReal_spec (o := ⟨false, false, flags.trunc⟩) (h.ne_nil hn) (h.parent n hn)
        rw [show fs.shape (place n) = some (.file c) from hfile] at hspec
        obtain ⟨fs', hexec, hw⟩ := hspec
        rw [hexec]
        refine h.wrote hn hw fun m => ?_
        rw [hd]
        simp [openLeaves, openRefusal, openedBytes, hexcl, hdir]

/-- A write or a truncation of a file that has a name. -/
theorem shows_editFile (h : Shows place here d fs) (hwf : d.Wf) (hn : here n) {i : Nat} {e : Edit}
    (hi : d.entries n = some i) (hfit : (e.apply (d.data i)).length ≤ Posix.maxFileSize) :
    Shows place here (d.put i (e.apply (d.data i))) (exec (editFile (place n) e) fs).2 := by
  cases e with
  | write offset data => exact h.writeFile hwf hn hi hfit
  | setLen len =>
    refine h.setFileLen hwf hn hi ?_
    rwa [Edit.apply, Content.length_resize] at hfit
  | create =>
    have hzero : (Edit.create).apply (d.data i) = Content.resize (d.data i) 0 := by
      simp [Edit.apply, Content.resize]
    rw [hzero]
    exact h.setFileLen hwf hn hi (Nat.zero_le _)

end Names

/-! ## The writers of one path -/

namespace AtomicWrites

section Host

variable (dir : Posix.Path) (name : Bytes) (pid : Nat → Int)

/-- The files of the directory. -/
def files (s : AtomicWrites) : Dir Bytes Bytes := ⟨s.entries, s.data, s.inodes⟩

/-- The tree has these files in `dir`. -/
def Shown (s : AtomicWrites) (fs : Fs) : Prop := Shows (dir ++ [·]) (fun _ => True) s.files fs

/-- The host call of a step, when the writer's temp file has its name. A file refuses `O_DIRECTORY`: that
open is the step `fail`. -/
def hostCall (s : AtomicWrites) : WriterLabel → HostM Unit
  | .begin _ _ | .seed _ _ | .realClose _ | .fail _ => pure ()
  | .sweep _ file => Posix.removeFile (dir ++ [file])
  -- created or truncated; the bytes follow
  | .create w => Posix.writeWhole (dir ++ [temp name pid w]) []
  | .fill w n =>
    match s.writers w with
    | .filling _ _ written unwritten =>
      Posix.writeFile (dir ++ [temp name pid w]) written.length (unwritten.take n)
    | _ => pure ()
  | .realOpen w =>
    match s.writers w with
    | .staged flags _ _ =>
      (fun _ => ()) <$> openNode { flags with directory := false } (dir ++ [temp name pid w])
    | _ => pure ()
  | .edit w e => editFile (dir ++ [temp name pid w]) e
  | .rename w => Posix.rename (dir ++ [temp name pid w]) (dir ++ [name])

/-- The writers beside the tree; a call that fails leaves it as it is. -/
def hostStep (x : AtomicWrites × Fs) (l : WriterLabel) : Option (AtomicWrites × Fs) :=
  (x.1.step name pid l).map fun s => (s, (exec (x.1.hostCall dir name pid l) x.2).2)

/-- No file gets too large. -/
def Fits (x : AtomicWrites × Fs) (l : WriterLabel) : Prop :=
  ∀ s, x.1.step name pid l = some s → ∀ inode, (s.data inode).length ≤ Posix.maxFileSize

end Host

variable {dir : Posix.Path} {name : Bytes} {pid : Nat → Int} {s s' : AtomicWrites} {fs : Fs} {w : Nat}

theorem Inv.files_wf (h : s.Inv name pid) : s.files.Wf := ⟨h.one, h.used⟩

theorem files_creat (s : AtomicWrites) (file : Bytes) :
    s.files.creat file [] = ((s.creat file).1, (s.creat file).2.files) := by
  have hentry : s.files.entries file = s.entries file := rfl
  unfold Dir.creat creat
  rw [hentry]
  cases s.entries file <;> rfl

theorem content_bind_none (s : AtomicWrites) (file m : Bytes) :
    (s.bind file none).files.content m = if m = file then none else s.files.content m := by
  show (Function.update s.entries file none m).map s.data = _
  rw [Function.update_apply]
  split <;> rfl

theorem sweep_shown {file : Bytes} (h : s.Shown dir fs)
    (hstep : s.step name pid (.sweep w file) = some s') :
    s'.Shown dir (exec (s.hostCall dir name pid (.sweep w file)) fs).2 := by
  simp only [step] at hstep
  split at hstep
  · split at hstep
    · cases hstep
      exact h.removeFile (n := file) trivial (content_bind_none s file)
    · cases hstep
  · cases hstep

theorem create_shown (hinv : s.Inv name pid) (h : s.Shown dir fs)
    (hstep : s.step name pid (.create w) = some s') :
    s'.Shown dir (exec (s.hostCall dir name pid (.create w)) fs).2 := by
  simp only [step] at hstep
  split at hstep
  · obtain ⟨fs', hexec, hshow⟩ := h.writeWhole hinv.files_wf (n := temp name pid w) (c := []) trivial
      (Nat.zero_le _) []
    rw [files_creat] at hshow
    cases hstep
    show Shows _ _ _ (exec (Posix.writeWhole _ []) fs).2
    rw [hexec]
    exact hshow
  · cases hstep

/-- A change of a writer's temp file, which has its name. -/
theorem Inv.edit_shown (hinv : s.Inv name pid) (h : s.Shown dir fs) {inode : Nat} {bytes : Bytes} {e : Edit}
    (hold : (s.writers w).holding = some (inode, bytes))
    (hfit : (e.apply (s.data inode)).length ≤ Posix.maxFileSize) :
    (s.put inode (e.apply (s.data inode))).Shown dir (exec (editFile (dir ++ [temp name pid w]) e) fs).2 :=
  shows_editFile h hinv.files_wf (n := temp name pid w) trivial (hinv.holds w inode bytes hold).1 hfit

theorem fill_shown {n : Nat} (hinv : s.Inv name pid) (h : s.Shown dir fs)
    (hstep : s.step name pid (.fill w n) = some s')
    (hfit : ∀ inode, (s'.data inode).length ≤ Posix.maxFileSize) :
    s'.Shown dir (exec (s.hostCall dir name pid (.fill w n)) fs).2 := by
  simp only [step] at hstep
  split at hstep
  · rename_i flags inode written unwritten hpc
    split at hstep
    · cases hstep
    · cases hstep
      have hdata := hfit inode
      rw [show ((s.put inode _).goto w _).data inode = _ from Function.update_self ..] at hdata
      have hcall : s.hostCall dir name pid (.fill w n) =
          editFile (dir ++ [temp name pid w]) (.write written.length (unwritten.take n)) := by
        simp only [hostCall, hpc, editFile]
      rw [hcall]
      exact hinv.edit_shown (e := .write written.length (unwritten.take n)) h (by rw [hpc]; rfl) hdata
  · cases hstep

theorem edit_shown {e : Edit} (hinv : s.Inv name pid) (h : s.Shown dir fs)
    (hstep : s.step name pid (.edit w e) = some s')
    (hfit : ∀ inode, (s'.data inode).length ≤ Posix.maxFileSize) :
    s'.Shown dir (exec (s.hostCall dir name pid (.edit w e)) fs).2 := by
  simp only [step] at hstep
  split at hstep
  · rename_i inode own hpc
    cases hstep
    have hdata := hfit inode
    rw [show ((s.put inode _).goto w _).data inode = _ from Function.update_self ..] at hdata
    exact hinv.edit_shown h (by rw [hpc]; rfl) hdata
  · cases hstep

theorem realOpen_shown (hinv : s.Inv name pid) (h : s.Shown dir fs)
    (hstep : s.step name pid (.realOpen w) = some s') :
    s'.Shown dir (exec (s.hostCall dir name pid (.realOpen w)) fs).2 := by
  simp only [step] at hstep
  split at hstep
  · rename_i flags inode seed hpc
    have hentry := (hinv.holds w inode seed (by rw [hpc]; rfl)).1
    have hcont : s.files.content (temp name pid w) = some (s.data inode) := by
      show (s.entries _).map s.data = _
      rw [hentry]
      rfl
    have hcall : (exec (s.hostCall dir name pid (.realOpen w)) fs).2 =
        (exec (openNode { flags with directory := false } (dir ++ [temp name pid w])) fs).2 := by
      simp only [hostCall, hpc]
      rw [exec_map]
      rcases exec (openNode { flags with directory := false } (dir ++ [temp name pid w])) fs with
        ⟨_ | _, _⟩ <;> rfl
    rw [hcall]
    refine shows_openNode h (n := temp name pid w) trivial _ fun m => ?_
    have hsame : ∀ pc, (s.goto w pc).files.content m =
        if m = temp name pid w then some (s.data inode) else s.files.content m := by
      intro pc
      show s.files.content m = _
      split
      · rename_i hm
        rw [hm, hcont]
      · rfl
    rw [hcont]
    rw [hentry] at hstep
    dsimp only at hstep
    split at hstep
    · rename_i hexcl
      cases hstep
      rw [hsame]
      simp [openLeaves, openRefusal, hexcl]
    · rename_i hexcl
      split at hstep
      · rename_i htrunc
        cases hstep
        show (s.files.put inode []).content m = _
        rw [Dir.content_put hinv.files_wf hentry]
        simp [openLeaves, openRefusal, openedBytes, hexcl, htrunc]
      · rename_i htrunc
        cases hstep
        rw [hsame]
        simp [openLeaves, openRefusal, openedBytes, hexcl, htrunc]
  · cases hstep

theorem files_rename {inode : Nat} (h : s.entries (temp name pid w) = some inode) :
    s.files.rename (temp name pid w) name =
      some ((s.bind (temp name pid w) none).bind name (some inode)).files := by
  have hentry : s.files.entries (temp name pid w) = some inode := h
  unfold Dir.rename
  rw [hentry]
  rfl

theorem rename_shown (h : s.Shown dir fs) (hstep : s.step name pid (.rename w) = some s') :
    s'.Shown dir (exec (s.hostCall dir name pid (.rename w)) fs).2 := by
  simp only [step] at hstep
  split at hstep
  · split at hstep
    · rename_i inode hentry
      cases hstep
      obtain ⟨fs', hexec, hshow⟩ := h.rename (n := temp name pid w) (m := name) trivial trivial
        (files_rename hentry)
      show Shows _ _ _ (exec (Posix.rename _ _) fs).2
      rw [hexec]
      exact hshow
    · rename_i hentry
      cases hstep
      have hnone : s.files.rename (temp name pid w) name = none := by
        rw [Dir.rename_eq_none]
        show (s.entries _).map s.data = none
        rw [hentry]
        rfl
      have hexec := h.rename_none (n := temp name pid w) (m := name) trivial trivial hnone
      show Shows _ _ _ (exec (Posix.rename _ _) fs).2
      rw [hexec]
      exact h
  · cases hstep

/-- The host call of a step leaves what the step does. -/
theorem step_shown {l : WriterLabel} (hinv : s.Inv name pid) (h : s.Shown dir fs)
    (hstep : s.step name pid l = some s') (hfit : ∀ inode, (s'.data inode).length ≤ Posix.maxFileSize) :
    s'.Shown dir (exec (s.hostCall dir name pid l) fs).2 := by
  cases l with
  | begin w flags =>
    simp only [step] at hstep
    split at hstep
    · split at hstep
      · cases hstep
        exact h
      · cases hstep
    · cases hstep
  | sweep w file => exact sweep_shown h hstep
  | seed w bytes =>
    simp only [step] at hstep
    split at hstep
    · cases hstep
      exact h
    · cases hstep
  | create w => exact create_shown hinv h hstep
  | fill w n => exact fill_shown hinv h hstep hfit
  | realOpen w => exact realOpen_shown hinv h hstep
  | edit w e => exact edit_shown hinv h hstep hfit
  | realClose w =>
    simp only [step] at hstep
    split at hstep
    · cases hstep
      exact h
    · cases hstep
  | rename w => exact rename_shown h hstep
  | fail w =>
    cases hstep
    exact h

theorem hostStep_eq_some {x x' : AtomicWrites × Fs} {l : WriterLabel} :
    hostStep dir name pid x l = some x' ↔
      x.1.step name pid l = some x'.1 ∧ x'.2 = (exec (x.1.hostCall dir name pid l) x.2).2 := by
  unfold hostStep
  cases x.1.step name pid l with
  | none => simp
  | some s =>
    obtain ⟨s', fs'⟩ := x'
    simp [eq_comm]

/-- In a run in which the writers stay apart, the tree that their host calls leave shows their files. -/
theorem run_shown {x x' : AtomicWrites × Fs} {labels : List WriterLabel} (hstart : x.1.Start)
    (h : x.1.Shown dir x.2) (hrun : Runs.run (hostStep dir name pid) x labels = some x')
    (hmeets : Runs.Meets (hostStep dir name pid)
      (fun x l => Apart name pid x.1 l ∧ Fits name pid x l) x labels) :
    x'.1.Inv name pid ∧ x'.1.Shown dir x'.2 := by
  refine Runs.run_inv_of_meets (P := fun x => x.1.Inv name pid ∧ x.1.Shown dir x.2) ?_
    ⟨hstart.inv, h⟩ hmeets hrun
  rintro x l x' ⟨hinv, hshow⟩ ⟨hapart, hfits⟩ hstep
  obtain ⟨hstep, htree⟩ := hostStep_eq_some.mp hstep
  refine ⟨step_keeps hinv hapart hstep, ?_⟩
  rw [htree]
  exact step_shown hinv hshow hstep (hfits _ hstep)

/-- What is read at the target after a writer's close is what that writer wrote. -/
theorem rename_read {inode : Nat} {own : Bytes} (hinv : s.Inv name pid) (h : s.Shown dir fs)
    (hw : s.writers w = .closing inode own) (hstep : s.step name pid (.rename w) = some s') :
    Fs.readFile (exec (s.hostCall dir name pid (.rename w)) fs).2 (dir ++ [name]) = .ok own := by
  have hshow := rename_shown h hstep
  obtain ⟨hentry, hdata⟩ := hinv.holds w inode own (by rw [hw]; rfl)
  rw [hshow.readFile_iff (n := name) trivial]
  simp only [step, hw, hentry, Option.some.injEq] at hstep
  subst hstep
  have hcont := Dir.content_rename (files_rename hentry) name
  rw [if_pos rfl] at hcont
  refine hcont.trans ?_
  show (s.entries _).map s.data = some own
  rw [hentry, Option.map_some, hdata]

end AtomicWrites

/-! ## The files of a process -/

section Process

variable {dirs : Posix.Path → Prop} {d : Dir Posix.Path Bytes} {p : Process} {path : Bytes}

/-- A name in one of the directories. -/
def InDirs (dirs : Posix.Path → Prop) (name : Posix.Path) : Prop := name ≠ [] ∧ dirs name.dropLast

theorem inDirs_concat {dir : Posix.Path} {name : Bytes} : InDirs dirs (dir ++ [name]) ↔ dirs dir := by
  unfold InDirs
  rw [List.dropLast_concat]
  simp

/-- The disk of a process shows the files by their paths. -/
def OnDisk (dirs : Posix.Path → Prop) (d : Dir Posix.Path Bytes) (fs : Fs) : Prop :=
  Shows id (InDirs dirs) d fs

theorem unlink_disk (p : Process) (name : Posix.Path) :
    (p.unlink name).disk = (exec (Posix.removeFile name) p.disk).2 := by
  unfold Process.unlink
  rw [Posix.removeFile_exec]
  cases p.disk.locate name with
  | error e => rfl
  | ok l =>
    dsimp only
    cases p.disk.node l with
    | none => rfl
    | some nd => cases nd <;> rfl

theorem sweep_onDisk (names : List Posix.Path) (h : OnDisk dirs d p.disk)
    (hnames : ∀ name ∈ names, InDirs dirs name) :
    OnDisk dirs (d.sweep (· ∈ names)) (names.foldl Process.unlink p).disk := by
  induction names generalizing d p with
  | nil => exact h.of_content fun m _ => by simp [Dir.content_sweep]
  | cons name names ih =>
    have hone : OnDisk dirs (d.sweep (· = name)) (p.unlink name).disk := by
      rw [unlink_disk]
      exact h.removeFile (n := name) (hnames name (by simp)) fun m => by simp [Dir.content_sweep]
    have hrest := ih hone fun m hm => hnames m (by simp [hm])
    rw [List.foldl_cons]
    refine hrest.of_content fun m _ => ?_
    simp only [Dir.content_sweep, decide_eq_true_eq, List.mem_cons]
    by_cases hm : m ∈ names <;> by_cases heq : m = name <;> simp [hm, heq]

theorem isStaleTemp_iff {dir q : Posix.Path} {name : Bytes} (hpath : diskPath path = dir ++ [name]) :
    isStaleTemp path q = true ↔ ∃ n, q = dir ++ [n] ∧ (name ++ tempMarker).isPrefixOf n = true := by
  unfold isStaleTemp
  rw [hpath, List.getLast?_concat, List.dropLast_concat]
  rcases List.eq_nil_or_concat q with rfl | ⟨r, n, rfl⟩
  · simp
  · rw [List.concat_eq_append, List.getLast?_concat, List.dropLast_concat]
    dsimp only
    rw [Bool.and_eq_true, decide_eq_true_eq]
    constructor
    · rintro ⟨rfl, hn⟩
      exact ⟨n, rfl, hn⟩
    · rintro ⟨m, heq, hm⟩
      obtain ⟨rfl, hlast⟩ := List.append_inj' heq rfl
      cases hlast
      exact ⟨rfl, hm⟩

/-- The clean-up removes the temp files of the path and nothing else. -/
theorem cleanup_onDisk (h : OnDisk dirs d p.disk) {dir : Posix.Path} {name : Bytes}
    (hpath : diskPath path = dir ++ [name]) (hdir : dirs dir) :
    OnDisk dirs (d.sweep (isStaleTemp path)) (cleanupStaleTemps path p).disk := by
  have hshape : p.disk.shape dir = some .dir := by
    have hparent := h.parent (dir ++ [name]) (inDirs_concat.mpr hdir)
    rwa [id, List.dropLast_concat] at hparent
  have hread : readDirNames p.disk dir = some (childNames p.disk dir) := by
    unfold readDirNames
    rw [Fs.canonicalize_of_shape (by simp [hshape]) (by simp [hshape])]
    dsimp only
    rw [if_pos (Fs.shape_eq_dir.mp hshape)]
  unfold cleanupStaleTemps
  rw [hpath, List.getLast?_concat, List.dropLast_concat, hread]
  dsimp only
  have hsweep := sweep_onDisk (p := p)
    (((childNames p.disk dir).filter (name ++ tempMarker).isPrefixOf).map (dir ++ [·])) h (by
      intro q hq
      obtain ⟨n, -, rfl⟩ := List.mem_map.mp hq
      exact inDirs_concat.mpr hdir)
  refine hsweep.of_content fun q hq => ?_
  simp only [Dir.content_sweep, decide_eq_true_eq]
  by_cases hstale : isStaleTemp path q = true
  · rw [if_pos hstale]
    obtain ⟨n, rfl, hn⟩ := (isStaleTemp_iff hpath).mp hstale
    split
    · rfl
    · rename_i hmem
      -- It is not listed, so it is not there.
      have hnone : p.disk.node (dir ++ [n]) = none := by
        by_contra hnode
        exact hmem (List.mem_map.mpr ⟨n, List.mem_filter.mpr ⟨mem_childNames.mpr hnode, hn⟩, rfl⟩)
      have hfile := h.file (dir ++ [n]) hq
      rw [id, Fs.shape_eq_none.mpr hnone] at hfile
      exact (Option.map_eq_none_iff.mp hfile.symm).symm
  · rw [if_neg hstale, if_neg]
    rintro hmem
    obtain ⟨n, hn, rfl⟩ := List.mem_map.mp hmem
    exact hstale ((isStaleTemp_iff hpath).mpr ⟨n, rfl, (List.mem_filter.mp hn).2⟩)

theorem sweep_process (names : List Posix.Path) (p : Process) :
    (names.foldl Process.unlink p).shim = p.shim ∧ (names.foldl Process.unlink p).files.free = p.files.free := by
  induction names generalizing p with
  | nil => exact ⟨rfl, rfl⟩
  | cons name names ih =>
    have hone : (p.unlink name).shim = p.shim ∧ (p.unlink name).files.free = p.files.free := by
      unfold Process.unlink
      split
      · exact ⟨rfl, Slots.free_mapSome ..⟩
      · exact ⟨rfl, rfl⟩
    rw [List.foldl_cons, (ih _).1, (ih _).2]
    exact hone

theorem cleanup_process (path : Bytes) (p : Process) :
    (cleanupStaleTemps path p).shim = p.shim ∧ (cleanupStaleTemps path p).files.free = p.files.free := by
  unfold cleanupStaleTemps
  split
  · exact sweep_process _ p
  · exact ⟨rfl, rfl⟩

/-- An open of the kernel is a call on its disk. -/
theorem realOpen_disk {flags : OpenFlags} (hfree : p.files.free < p.shim.table.base)
    (hends : endsInName path = true) :
    (exec (realOpen flags path) p).2.disk = (exec (openNode flags (diskPath path)) p.disk).2 := by
  have hflags : ({ flags with directory := flags.directory || !endsInName path } : OpenFlags) = flags := by
    simp [hends]
  rw [realOpen, exec_bind, exec_get]
  dsimp only
  rw [if_neg (Nat.not_le.mpr hfree), hflags, hends, if_neg (by simp), exec_bind, kernel]
  rcases hopen : exec (openNode flags (diskPath path)) p.disk with ⟨e | l, fs⟩
  · rw [exec_zoom_error hopen]
  · rw [exec_zoom_ok.mpr ⟨fs, hopen, rfl⟩]
    rfl

/-- What follows an open of the kernel does not touch the disk. -/
theorem track_disk {flags : OpenFlags} (track : Nat → ProcM Unit)
    (htrack : ∀ fd p, ∃ p', exec (track fd) p = (.ok (), p') ∧ p'.disk = p.disk) :
    (exec (do
      let fd ← realOpen flags path
      track fd
      return fd) p).2.disk = (exec (realOpen flags path) p).2.disk := by
  rw [exec_bind]
  rcases exec (realOpen flags path) p with ⟨e | fd, p₁⟩
  · rfl
  · dsimp only
    obtain ⟨p₂, hexec, hdisk⟩ := htrack fd p₁
    rw [exec_bind, hexec]
    exact hdisk

end Process

namespace WriteTracking

variable {dirs : Posix.Path → Prop} {s : WriteTracking} {p : Process} {path : Bytes} {flags : OpenFlags} {fd : Nat}

theorem content_opened (hwf : s.files.Wf) (fd : Nat) (flags : OpenFlags) (path : Bytes) (temp : Option Bytes)
    (name m : Posix.Path) :
    (s.opened fd flags path temp name).files.content m =
      if m = name then some (openedBytes flags ((s.files.content name).getD [])) else s.files.content m := by
  show (if flags.trunc then (s.files.creat name []).2.put (s.files.creat name []).1 []
    else (s.files.creat name []).2).content m = _
  unfold openedBytes
  cases flags.trunc with
  | true =>
    rw [if_pos rfl, if_pos rfl]
    exact Dir.content_creat_put hwf name m [] []
  | false =>
    simp only [Bool.false_eq_true, ↓reduceIte]
    exact Dir.content_creat hwf name m []

theorem content_realOpen (hwf : s.files.Wf) (fd : Nat) (flags : OpenFlags) (path : Bytes)
    (temp : Option Bytes) (name m : Posix.Path) :
    (s.realOpen fd flags path temp name).files.content m =
      if m = name then openLeaves flags (s.files.content name) else s.files.content m := by
  have hsame : openLeaves flags (s.files.content name) = s.files.content name →
      s.files.content m = if m = name then openLeaves flags (s.files.content name) else s.files.content m := by
    intro heq
    split
    · rename_i hm
      rw [heq, hm]
    · rfl
  unfold realOpen
  cases he : s.files.entries name with
  | some i =>
    have hc : s.files.content name = some (s.files.data i) := by rw [Dir.content, he]; rfl
    dsimp only
    by_cases hexcl : (flags.creat && flags.excl) = true
    · rw [if_pos hexcl]
      exact hsame (by rw [hc]; simp [openLeaves, openRefusal, hexcl])
    · rw [if_neg hexcl]
      by_cases hdir : flags.directory = true
      · rw [if_pos hdir]
        exact hsame (by rw [hc]; simp [openLeaves, openRefusal, hexcl, hdir])
      · rw [if_neg hdir, content_opened hwf, hc]
        simp [openLeaves, openRefusal, hexcl, hdir]
  | none =>
    have hc : s.files.content name = none := by rw [Dir.content, he]; rfl
    dsimp only
    cases hcreat : flags.creat with
    | true =>
      rw [if_pos rfl, content_opened hwf, hc]
      simp [openLeaves, openedBytes, hcreat]
    | false =>
      rw [if_neg (by simp)]
      exact hsame (by rw [hc]; simp [openLeaves, hcreat])

/-- A kernel open on the disk. -/
theorem realOpen_onDisk {q : Bytes} (hwf : s.files.Wf) (h : OnDisk dirs s.files p.disk)
    (hname : InDirs dirs (diskPath q)) (hfree : p.files.free < p.shim.table.base) (hends : endsInName q = true)
    (fd : Nat) (path : Bytes) (temp : Option Bytes) :
    OnDisk dirs (s.realOpen fd flags path temp (diskPath q)).files (exec (KinVfs.realOpen flags q) p).2.disk := by
  rw [realOpen_disk hfree hends]
  exact shows_openNode h (n := diskPath q) hname flags (content_realOpen hwf fd flags path temp (diskPath q))

/-- The graph's answer to the read that seeds the temp file. -/
def seedOf (g : ContentProvider) (roots : List Bytes) (path : Bytes) (shim : Shim) : SeedAnswer :=
  match (seedAnswer g roots path shim).1 with
  | some content => .found content
  | none => if (seedAnswer g roots path shim).2.failure = .notFound then .notFound else .failed

/-- An open for writing leaves on the disk of a process what it leaves in the files here. -/
theorem openWrite_onDisk {g : ContentProvider} {roots : List Bytes} {strict : Bool} {pid : Int} {given : Bytes}
    (hwf : s.files.Wf) (h : OnDisk dirs s.files p.disk) (hends : endsInName path = true)
    (hdir : dirs (diskPath path).dropLast) (hfree : p.files.free < p.shim.table.base)
    (hfit : ∀ content, seedOf g roots path p.shim = .found content → content.length ≤ Posix.maxFileSize) :
    OnDisk dirs (s.openWrite pid fd flags path (seedOf g roots path p.shim)).files
      (exec (KinVfs.openWrite g roots strict pid .cwd given flags path) p).2.disk := by
  obtain ⟨dir, name, hpath, htemp, hends'⟩ := diskPath_temp pid hends
  rw [hpath, List.dropLast_concat] at hdir
  have hswept := cleanup_onDisk h hpath hdir
  obtain ⟨hshim, hfree'⟩ := cleanup_process path p
  rw [KinVfs.openWrite, exec_bind, exec_materializeFile, hshim]
  unfold seedOf at hfit ⊢
  generalize hp₁ : ({ cleanupStaleTemps path p with shim := seedAsked g roots path p.shim } : Process) = p₁
  have hdisk₁ : p₁.disk = (cleanupStaleTemps path p).disk := by rw [← hp₁]
  have hfree₁ : p₁.files.free < p₁.shim.table.base := by
    rw [← hp₁]
    show (cleanupStaleTemps path p).files.free < p.shim.table.base
    rwa [hfree']
  rw [← hdisk₁] at hswept
  cases hseed : (seedAnswer g roots path p.shim).1 with
  | none =>
    dsimp only
    split
    · -- The graph has no such file.
      unfold openWrite
      dsimp only
      cases hcreat : flags.creat with
      | false => exact hswept
      | true =>
        show OnDisk dirs _ (exec (do
          let fd ← KinVfs.realOpen flags path
          trackWrite fd path
          return fd) p₁).2.disk
        rw [track_disk (fun fd => trackWrite fd path) fun fd p => ⟨_, rfl, rfl⟩]
        exact realOpen_onDisk (s := { s with files := s.files.sweep (isStaleTemp path) })
          (hwf.sweep _) hswept (by rw [hpath]; exact inDirs_concat.mpr hdir) hfree₁ hends fd path none
    · exact hswept
  | some content =>
    dsimp only
    have hshape : p₁.disk.shape dir = some .dir := by
      have hparent := hswept.parent (dir ++ [name]) (inDirs_concat.mpr hdir)
      rwa [id, List.dropLast_concat] at hparent
    have hmake : exec (makeParent path) p₁.disk = (.ok (), p₁.disk) := by
      unfold makeParent
      rw [hpath, if_neg (by simp), List.dropLast_concat]
      exact Posix.createDirAll_dir hshape
    obtain ⟨fs, hwrite, hseeded⟩ := hswept.writeWhole (n := dir ++ [tempName name pid]) (hwf.sweep _)
      (inDirs_concat.mpr hdir) (hfit content (by rw [hseed])) content
    rw [id, ← htemp] at hwrite
    have hstaged : exec (do
        host (makeParent path)
        host (Posix.writeWhole (diskPath (atomicTempPath path pid)) content)
        return some (atomicTempPath path pid)) p₁ =
          (.ok (some (atomicTempPath path pid)), { p₁ with disk := fs }) := by
      rw [exec_bind, host_ok hmake]
      dsimp only
      rw [exec_bind, host_ok hwrite]
      rfl
    rw [hstaged]
    show OnDisk dirs _ (exec (do
      let fd ← KinVfs.realOpen flags (atomicTempPath path pid)
      trackAtomicWrite fd path (atomicTempPath path pid)
      return fd) { p₁ with disk := fs }).2.disk
    rw [track_disk (fun fd => trackAtomicWrite fd path (atomicTempPath path pid)) fun fd p => ⟨_, rfl, rfl⟩]
    rw [← htemp] at hseeded
    exact realOpen_onDisk (p := { p₁ with disk := fs }) (s := { s with files := _ })
      ((hwf.sweep _).creat _ _).put hseeded (by rw [htemp]; exact inDirs_concat.mpr hdir) hfree₁ hends' fd path
      (some (atomicTempPath path pid))

/-- The kernel's file behind a descriptor is the one with this inode, under its name or without one. -/
def Behind (dirs : Posix.Path → Prop) (d : Dir Posix.Path Bytes) (inode : Nat) : Inode → Prop
  | .named name => InDirs dirs name ∧ d.entries name = some inode
  | .orphan _ _ _ => ∀ name, d.entries name ≠ some inode

/-- A write of nothing leaves the file as it is. -/
theorem content_write {i : Nat} {w : WriteOpen} (hw : s.opens[i]? = some w) (hcan : w.writable = true)
    (data : Bytes) :
    (s.write i data).files.content = (s.files.put w.inode (Content.overwrite (s.files.data w.inode)
      (if w.append then (s.files.data w.inode).length else w.offset) data)).content := by
  unfold write
  rw [hw]
  dsimp only
  split
  · rename_i hnothing
    have hnil : data = [] := by simpa [hcan] using hnothing
    have hkeep : ∀ offset, Content.overwrite (s.files.data w.inode) offset data = s.files.data w.inode := by
      intro offset
      simp [Content.overwrite, hnil]
    rw [hkeep, Dir.put, Function.update_eq_self]
  · rfl

/-- A write of the kernel changes the disk if the file has a name. -/
theorem writeFd_disk {file : OpenFile} {e : Edit} (hfile : p.files.get? fd = some file) :
    (exec (writeFd fd e) p).2.disk =
      match file.writable, file.inode with
      | true, .named name => (exec (editFile name e) p.disk).2
      | _, _ => p.disk := by
  rw [writeFd, exec_bind, exec_requireFile, hfile]
  dsimp only
  cases file.writable with
  | false => rfl
  | true =>
    cases file.inode with
    | named name =>
      show (exec (kernel (editFile name e)) p).2.disk = _
      rw [kernel, exec_zoom]
    | orphan l info content =>
      dsimp only [Bool.not_true]
      rw [if_neg (by simp)]
      split <;> rfl

/-- A write through a descriptor, at the offset that the open file has. -/
theorem write_onDisk {i : Nat} {w : WriteOpen} {file : OpenFile} {data : Bytes} {offset : Nat}
    (hwf : s.files.Wf) (h : OnDisk dirs s.files p.disk) (hw : s.opens[i]? = some w)
    (hoffset : offset = if w.append then (s.files.data w.inode).length else w.offset)
    (hfile : p.files.get? fd = some file) (hwritable : file.writable = w.writable)
    (hbehind : Behind dirs s.files w.inode file.inode)
    (hfit : (Content.overwrite (s.files.data w.inode) offset data).length ≤ Posix.maxFileSize) :
    OnDisk dirs (s.write i data).files (exec (writeFd fd (.write offset data)) p).2.disk := by
  rw [writeFd_disk hfile, hwritable]
  cases hcan : w.writable with
  | false =>
    unfold write
    rw [hw]
    dsimp only
    rw [if_pos (.inl hcan)]
    exact h
  | true =>
    have hcont := content_write hw hcan data
    rw [← hoffset] at hcont
    cases hinode : file.inode with
    | named name =>
      rw [hinode] at hbehind
      have hedit := shows_editFile (e := .write offset data) h hwf hbehind.1 hbehind.2 hfit
      exact hedit.of_content fun m _ => congrFun hcont m
    | orphan l info content =>
      rw [hinode] at hbehind
      rw [Dir.content_put_of_unnamed hbehind] at hcont
      exact h.of_content fun m _ => congrFun hcont m

theorem release_files (s : WriteTracking) (e : Option (Option Nat)) : (s.release e).files = s.files := by
  unfold release
  split
  · unfold settle
    split
    · split <;> rfl
    · rfl
  · rfl

/-- A rename on the disk of a process. -/
theorem renameBytes_onDisk {d : Dir Posix.Path Bytes} {source target : Bytes} (h : OnDisk dirs d p.disk)
    (hsource : InDirs dirs (diskPath source)) (htarget : InDirs dirs (diskPath target))
    (hends : endsInName target = true) :
    OnDisk dirs ((d.rename (diskPath source) (diskPath target)).getD d)
      (exec (renameBytes source target) p).2.disk := by
  rw [renameBytes, exec_bind, exec_get]
  dsimp only
  rw [hends, if_neg (by simp)]
  cases hr : d.rename (diskPath source) (diskPath target) with
  | none =>
    have hexec := h.rename_none hsource htarget hr
    rw [id, id] at hexec
    rw [hexec]
    exact h
  | some d' =>
    obtain ⟨fs, hexec, hshow⟩ := h.rename hsource htarget hr
    rw [id, id] at hexec
    rw [hexec]
    show OnDisk dirs d' (p.renamed fs (diskPath source) (diskPath target)).disk
    have hlocate : ∀ {q}, InDirs dirs q → p.disk.locate q = .ok q := fun hq => h.locate hq
    unfold Process.renamed
    rw [hlocate hsource, hlocate htarget]
    dsimp only
    split
    · -- A file that is renamed to itself stays.
      rename_i heq
      have hclear : p.disk.Clear (diskPath target) := h.clear htarget
      have hparent : p.disk.shape (diskPath target).dropLast = some .dir := h.parent _ htarget
      rw [heq, Posix.rename_eq hclear hparent] at hexec
      split at hexec
      · cases hexec
      · rw [if_pos rfl] at hexec
        cases hexec
        exact hshow
    · exact hshow

theorem promote_files (roots : List Bytes) (s : WriteTracking) (atomic : Option AtomicWriteEntry)
    (path : Option Bytes) :
    (s.promote roots atomic path).files =
      match atomic with
      | some entry =>
        (s.files.rename (diskPath entry.tempPath) (diskPath entry.targetPath)).getD s.files
      | none => s.files := by
  unfold promote
  cases atomic with
  | none => exact (notifyWritePath_rest roots s path).1
  | some entry =>
    dsimp only
    cases s.files.rename (diskPath entry.tempPath) (diskPath entry.targetPath) with
    | none => rfl
    | some files => exact (notifyWritePath_rest roots _ path).1

/-- A close of a descriptor that is not tracked leaves the disk alone. -/
theorem close_untracked (hfd : fd < p.shim.table.base) (hnone : p.shim.table.atomicWrites[fd]? = none) :
    (exec (close fd) p).2.disk = p.disk := by
  have hentry : (p.shim.table.closeAtomicWrite fd).1 = none := hnone
  rw [close, exec_bind, exec_get]
  dsimp only
  rw [if_neg (by omega), exec_bind, exec_set]
  dsimp only
  rw [exec_bind, realClose, exec_bind, exec_requireFile]
  cases (p.untrack fd).files.get? fd with
  | none => rfl
  | some file =>
    dsimp only
    rw [exec_modify]
    dsimp only
    rw [hentry]
    rfl

/-- A close of a kernel descriptor leaves on the disk of a process what it leaves in the files here. -/
theorem close_onDisk {roots : List Bytes} {pid : Int} {s' : WriteTracking} {file : OpenFile}
    (h : OnDisk dirs s.files p.disk) (htable : p.shim.table = s.table) (hfd : fd < s.table.base)
    (hfile : p.files.get? fd = some file) (hopen : s.fds fd ≠ none)
    (hnames : ∀ entry, s.table.atomicWrites[fd]? = some entry → InDirs dirs (diskPath entry.tempPath) ∧
      InDirs dirs (diskPath entry.targetPath) ∧ endsInName entry.targetPath = true)
    (hstep : s.step roots pid (.close fd) = some s') :
    OnDisk dirs s'.files (exec (close fd) p).2.disk := by
  obtain ⟨e, he⟩ := Option.ne_none_iff_exists'.mp hopen
  simp only [step, he, Option.some.injEq] at hstep
  subst hstep
  rw [release_files, promote_files]
  rw [← htable] at hfd
  cases hatomic : s.table.atomicWrites[fd]? with
  | none =>
    rw [close_untracked hfd (by rw [htable, hatomic])]
    exact h
  | some entry =>
    obtain ⟨htemp, htarget, hends⟩ := hnames entry hatomic
    have htrack : p.shim.table.atomicWrites[fd]? = some ⟨entry.targetPath, entry.tempPath⟩ := by
      rw [htable, hatomic]
    rw [close_tracked hfd htrack hfile]
    exact renameBytes_onDisk (p := (p.untrack fd).setFile fd none) h htemp htarget hends

end WriteTracking
end KinVfs
