import KinVfs.Shim.Noninterference

/-!
# Writing through a path (`crates/kin-vfs-shim/src/intercept.rs`)

A read of a path follows the links of the graph; a write seeds from the key of the path as it is spelled,
puts the temp file where the host leads, gives it the mode of a new file, and renames it over the entry
there. So the write reaches the file that the read shows, and that file only, exactly when these four
are the same for both and no temp file was left behind (`write_through_iff`).
-/

namespace KinVfs

open Fallible Content
open Posix (Fs Node HostM)

/-! ## The caller's own writes -/

/-- A write or a truncation of the file at `l`. -/
def editFile (l : Posix.Path) : Edit → HostM Unit
  | .write offset data => Posix.writeFile l offset data
  | .setLen n => Posix.setFileLen l n
  | .create => Posix.setFileLen l 0

/-- A write or a truncation through a descriptor of the kernel. -/
def writeFd (fd : Nat) (e : Edit) : ProcM Unit := do
  let file ← requireFile fd
  if !file.writable then throw (.errno .ebadf)
  else
    match file.inode with
    | .named l => kernel (editFile l e)
    | .orphan l info content =>
      if (e.apply content).length ≤ Posix.maxFileSize then
        modify fun s => s.setFile fd (some { file with
          inode := .orphan l { info with mtime := s.disk.env.now } (e.apply content) })
      else throw (.real .fileTooLarge)

def writeAll (fd : Nat) : List Edit → ProcM Unit
  | [] => pure ()
  | e :: es => do
    writeFd fd e
    writeAll fd es

/-! ## Opening a served file for writing -/

section Statement

variable (g : ContentProvider) (roots : List Bytes) (root : Bytes) (strict : Bool) (cwd : Bytes) (pid : Int)
  (flags : OpenFlags) (given : Bytes)

def readOnlyFlags : OpenFlags := ⟨false, false, false, false, false, false, false, false⟩

/-- A read-only open of `given`, which is the workspace path `path`, serves the file `key`: `own` is its
place on the disk. -/
structure ServesFile (s : Process) (path : Bytes) (key : VfsPath) (own : Posix.Path) (bytes : Bytes)
    (mode : Nat) : Prop where
  resolved : resolveAtPath roots cwd s .cwd given = .resolved path
  inside : isWorkspacePath roots path = true
  opens : ∃ fd s' handle,
    exec (openAt g roots root strict cwd pid .cwd given readOnlyFlags) s = (.ok fd, s') ∧
      s'.shim.table.map[fd]? = some handle ∧ handle.path = hostPath root key ∧
      handle.isDirectory = false
  own : ∃ base, s.disk.destination (diskPath root) = .ok base ∧ own = base ++ key.components
  bytes : g.readFile key = .ok bytes
  mode : ∃ vstat, g.stat key = .ok vstat ∧ vstat.mode = mode

/-- The bytes of a descriptor. -/
def Process.bytesOf (s : Process) (fd : Nat) : Option Bytes :=
  (s.views.get? fd).bind fun v => v.found.map Prod.snd

/-- Nothing but directories above `own` is new, and only `own` changed. -/
def OthersAsBefore (fs fs' : Fs) (own : Posix.Path) : Prop :=
  ∀ q, q ≠ own → fs'.entry q = fs.entry q ∨ fs.node q = none ∧ fs'.isDir q = true ∧ q <+: own

/-- An open for writing, any writes and a close that returns 0: they start from the file's bytes, leave
the result at the file's own place with the file's mode, and change nothing else. -/
def WritesThrough (s : Process) (own : Posix.Path) (bytes : Bytes) (mode : Nat) : Prop :=
  ∀ fd s₁ es s₂ s₃, exec (openAt g roots root strict cwd pid .cwd given flags) s = (.ok fd, s₁) →
    exec (writeAll fd es) s₁ = (.ok (), s₂) → exec (close fd) s₂ = (.ok (), s₃) →
    s₁.bytesOf fd = some (openedBytes flags bytes) ∧
      (∃ info, s₃.disk.node own = some (.file info (applyEdits es (openedBytes flags bytes))) ∧
        info.mode = mode) ∧
      OthersAsBefore s.disk s₃.disk own

/-- The open gives a descriptor, and the close of it succeeds. -/
def OpensAndCloses (s : Process) : Prop :=
  ∃ fd s₁ s₂, exec (openAt g roots root strict cwd pid .cwd given flags) s = (.ok fd, s₁) ∧
    exec (close fd) s₁ = (.ok (), s₂)

/-- Where the path leads on the disk. -/
def LeadsOnDisk (fs : Fs) (path : Bytes) (own : Posix.Path) : Prop :=
  ∃ parent name d, diskPath path = parent ++ [name] ∧ fs.destination parent = .ok d ∧ own = d ++ [name]

/-- No temp file of the path is on the disk. -/
def NoStaleTemps (fs : Fs) (path : Bytes) : Prop :=
  ∀ parent name q, diskPath path = parent ++ [name] → IsTempOf fs parent name q →
    fs.node q = none ∨ fs.isDir q = true

structure SameFile (s : Process) (path : Bytes) (own : Posix.Path) (bytes : Bytes) (mode : Nat) :
    Prop where
  /-- The key that the path spells holds the file's bytes, or they are not kept. -/
  seed : flags.trunc = false → ∀ key, graphRequestKey roots path = some key → g.readFile key = .ok bytes
  /-- The disk leads to the file's own place. -/
  leads : LeadsOnDisk s.disk path own
  /-- New files have the file's mode. -/
  mode : s.disk.env.fileMode = mode
  clean : NoStaleTemps s.disk path

end Statement

variable {g : ContentProvider} {roots : List Bytes} {root : Bytes} {strict : Bool} {cwd : Bytes}
  {pid : Int} {flags : OpenFlags} {given path : Bytes} {key : VfsPath} {own : Posix.Path} {bytes : Bytes} {mode : Nat}
  {s s' s₁ s₂ s₃ : Process} {fs fs' : Fs} {l d parent : Posix.Path} {name content : Bytes} {fd : Nat}

/-! ## Edits -/

theorem editFile_ok {e : Edit} {i : Posix.Info} {c : Bytes} (hn : fs.node l = some (.file i c))
    (hi : i.mtime = fs.env.now) (h : exec (editFile l e) fs = (.ok (), fs')) :
    Posix.Became fs fs' l (.file i (e.apply c)) := by
  have hinfo : ({ i with mtime := fs.env.now } : Posix.Info) = i := by rw [← hi]
  have hset : ∀ c' : Bytes, c'.length ≤ Posix.maxFileSize →
      Posix.Became fs (fs.setNode l (.file i c')) l (.file i c') := by
    intro c' hc'
    refine ⟨fun q => ?_, Fs.env_setNode⟩
    exact Fs.entry_setNode (by simp [hn, Node.isDir]) (by simpa [Node.fits] using hc')
  have hlen : c.length ≤ Posix.maxFileSize := by simpa [Node.fits] using fs.sized l _ hn
  have hresize : ∀ n, exec (Posix.setFileLen l n) fs = (.ok (), fs') →
      Posix.Became fs fs' l (.file i (resize c n)) := by
    intro n h
    simp only [Posix.setFileLen, exec_bind, exec_get, hn, hinfo] at h
    split at h
    · cases h
    · rename_i hfit
      cases h
      exact hset _ (by simp only [length_resize]; omega)
  cases e with
  | write offset data =>
    simp only [editFile, Posix.writeFile, exec_bind, exec_get, hn, hinfo] at h
    split at h
    · cases h
    · split at h
      · rename_i hdata
        cases h
        subst hdata
        have happly : (Edit.write offset []).apply c = c := by simp [Edit.apply, overwrite]
        rw [happly]
        exact Posix.Became.refl hn
      · rename_i hdata
        split at h
        · cases h
        · rename_i hfit
          cases h
          refine hset _ ?_
          rw [length_overwrite hdata]
          omega
  | setLen n => exact hresize n h
  | create =>
    have hempty : (Edit.create).apply c = resize c 0 := by simp [Edit.apply, resize]
    rw [hempty]
    exact hresize 0 h

theorem writeAll_ok {es : List Edit} {file : OpenFile} {i : Posix.Info} {c : Bytes}
    (hfile : s.files.get? fd = some file) (hinode : file.inode = .named l)
    (hn : s.disk.node l = some (.file i c)) (hi : i.mtime = s.disk.env.now)
    (h : exec (writeAll fd es) s = (.ok (), s')) :
    s'.files = s.files ∧ s'.shim = s.shim ∧
      Posix.Became s.disk s'.disk l (.file i (applyEdits es c)) := by
  induction es generalizing s c with
  | nil =>
    cases h
    exact ⟨rfl, rfl, Posix.Became.refl hn⟩
  | cons e es ih =>
    rw [writeAll, exec_bind_ok] at h
    obtain ⟨_, s₁, hone, hrest⟩ := h
    rw [writeFd, exec_bind, exec_requireFile, hfile] at hone
    dsimp only at hone
    rw [hinode] at hone
    dsimp only at hone
    split at hone
    · cases hone
    · unfold kernel at hone
      rw [exec_zoom_ok] at hone
      obtain ⟨fs, hedit, rfl⟩ := hone
      have hput := editFile_ok hn hi hedit
      have hfile₁ : ({ s with disk := fs } : Process).files.get? fd = some file := hfile
      have hi₁ : i.mtime = fs.env.now := by rw [hput.2, hi]
      obtain ⟨hfiles, hshim, hall⟩ := ih hfile₁ hput.node hi₁ hrest
      exact ⟨hfiles, hshim, hput.trans hall⟩

/-- A truncation through a descriptor that may write. -/
theorem writeAll_setLen {file : OpenFile} {i : Posix.Info} {c : Bytes} {k : Nat}
    (hfile : s.files.get? fd = some file) (hinode : file.inode = .named l)
    (hwritable : file.writable = true) (hn : s.disk.node l = some (.file i c))
    (hk : k ≤ Posix.maxFileSize) : ∃ s', exec (writeAll fd [.setLen k]) s = (.ok (), s') := by
  have hedit : ∃ fs, exec (editFile l (.setLen k)) s.disk = (.ok (), fs) := by
    simp only [editFile, Posix.setFileLen, exec_bind, exec_get, hn]
    rw [if_neg (by omega)]
    exact ⟨_, rfl⟩
  obtain ⟨fs, hedit⟩ := hedit
  refine ⟨{ s with disk := fs }, ?_⟩
  rw [writeAll, exec_bind, writeFd, exec_bind, exec_requireFile, hfile]
  dsimp only
  rw [hinode, hwritable]
  dsimp only [Bool.not_true]
  rw [if_neg (by decide), kernel, exec_zoom_ok.mpr ⟨fs, hedit, rfl⟩]
  rfl

/-! ## The open -/

theorem materializeFile_temp {temp : Bytes}
    (h : exec (materializeFile g roots strict pid path) s = (.ok (some temp), s')) :
    temp = atomicTempPath path pid := by
  rw [exec_materializeFile] at h
  split at h
  · split at h <;> cases h
  · rw [exec_bind_ok] at h
    obtain ⟨_, _, -, h⟩ := h
    rw [exec_bind_ok] at h
    obtain ⟨_, _, -, h⟩ := h
    cases h
    rfl

theorem realOpen_ok {p : Bytes} (h : exec (realOpen flags p) s = (.ok fd, s')) :
    fd < s.shim.table.base ∧ s'.shim = s.shim := by
  rw [realOpen, exec_bind, exec_get] at h
  dsimp only at h
  split at h
  · cases h
  · rename_i hfree
    split at h
    · cases h
    · rw [exec_bind_ok] at h
      obtain ⟨l, t, hkernel, h⟩ := h
      rw [kernel, exec_zoom_ok] at hkernel
      obtain ⟨disk, -, rfl⟩ := hkernel
      cases h
      exact ⟨by omega, rfl⟩

/-- An open that may not create seeds a temp file, opens it and tracks it. -/
theorem openWrite_ok (hcreat : flags.creat = false)
    (h : exec (openWrite g roots strict pid .cwd given flags path) s = (.ok fd, s₁)) :
    ∃ s₀ t, exec (materializeFile g roots strict pid path) s =
        (.ok (some (atomicTempPath path pid)), s₀) ∧
      exec (realOpen flags (atomicTempPath path pid)) s₀ = (.ok fd, t) ∧
      s₁ = { t with shim := tracked t.shim fd path (atomicTempPath path pid) } := by
  rw [openWrite, exec_bind_ok] at h
  obtain ⟨answer, s₀, hmat, h⟩ := h
  cases answer with
  | none =>
    dsimp only at h
    rw [hcreat] at h
    cases h
  | some temp =>
    obtain rfl := materializeFile_temp hmat
    dsimp only at h
    rw [exec_bind_ok] at h
    obtain ⟨fd', t, hopen, h⟩ := h
    cases h
    exact ⟨s₀, t, hmat, hopen, rfl⟩

theorem openWrite_tracks (hcreat : flags.creat = false)
    (h : exec (openWrite g roots strict pid .cwd given flags path) s = (.ok fd, s₁)) :
    fd < s₁.shim.table.base ∧
      s₁.shim.table.atomicWrites[fd]? = some ⟨path, atomicTempPath path pid⟩ := by
  obtain ⟨s₀, t, -, hopen, rfl⟩ := openWrite_ok hcreat h
  obtain ⟨hfd, hshim⟩ := realOpen_ok hopen
  refine ⟨?_, ?_⟩
  · show fd < t.shim.table.base
    rwa [hshim]
  · show (t.shim.table.atomicWrites.insert fd _)[fd]? = _
    simp

/-- After an open that was seeded with `content`: `fs` is the disk before the temp file, `d` the directory
that `parent` leads to. -/
structure Opened (g : ContentProvider) (roots : List Bytes) (pid : Int) (flags : OpenFlags) (path : Bytes)
    (parent : Posix.Path) (name content : Bytes) (d : Posix.Path) (fs : Fs) (fd : Nat)
    (s s₁ : Process) : Prop where
  spelled : diskPath path = parent ++ [name]
  spelledTemp : diskPath (atomicTempPath path pid) = parent ++ [tempName name pid]
  seed : (seedAnswer g roots path s.shim).1 = some content
  made : Fs.Made (cleanupStaleTemps path s).disk fs parent d
  fresh : fs.node (d ++ [tempName name pid]) = none
  became : Posix.Became fs s₁.disk (d ++ [tempName name pid])
    (.file ⟨s.disk.env.fileMode, s.disk.env.now⟩ (openedBytes flags content))
  env : s₁.disk.env = s.disk.env
  file : s₁.files.get? fd = some (newFile flags (d ++ [tempName name pid]))

theorem Slots.get?_put_free {α : Type} (slots : Slots α) (x : α) :
    (slots.put slots.free (some x)).get? slots.free = some x := by
  have hle : slots.free ≤ slots.length := List.findIdx_le_length
  unfold Slots.get? Slots.put
  by_cases hlt : slots.free < slots.length
  · rw [if_pos hlt, List.getElem?_set_self hlt]
    rfl
  · have heq : slots.free = slots.length := by omega
    rw [if_neg hlt, heq, List.getElem?_append_right (Nat.le_refl _), Nat.sub_self]
    rfl

theorem openWrite_opened (hb : s.Backed) (hcreat : flags.creat = false) (hends : endsInName path = true)
    (h : exec (openWrite g roots strict pid .cwd given flags path) s = (.ok fd, s₁)) :
    ∃ parent name content d fs, Opened g roots pid flags path parent name content d fs fd s s₁ := by
  obtain ⟨parent, name, hpath, htemp, htempEnds⟩ := diskPath_temp pid hends
  obtain ⟨s₀, t, hmat, hopen, rfl⟩ := openWrite_ok hcreat h
  rcases materializeFile_cases hb hpath htemp hmat with ⟨e, he⟩ | ⟨-, -, -, -, hr⟩ | ⟨-, content, d, hm⟩
  · cases he
  · split at hr <;> cases hr
  · obtain ⟨fs, hmade, hnone, hput⟩ := hm.made
    have hres := openMaterialized flags htemp htempEnds hm
    rw [hopen] at hres
    split at hres
    · cases hres
    · split at hres
      · cases hres
      · obtain ⟨fs', hopened, hres⟩ := hres
        cases hres
        refine ⟨parent, name, content, d, fs, hpath, htemp, hm.seed.1, hmade, hnone,
          hput.trans hopened, hopened.2.trans hm.env, ?_⟩
        exact Slots.get?_put_free _ _

theorem Opened.resolves (h : Opened g roots pid flags path parent name content d fs fd s s₁) :
    s₁.disk.canonicalize parent = .ok d ∧ s₁.disk.isDir d = true :=
  h.became.canonicalize (.inl h.fresh) h.made.resolves h.made.isDir

theorem Opened.bytesOf (h : Opened g roots pid flags path parent name content d fs fd s s₁) :
    s₁.bytesOf fd = some (openedBytes flags content) := by
  have hview : s₁.views.get? fd = (s₁.files.get? fd).map (OpenFile.seen s₁.disk) :=
    Slots.get?_mapSome _ _ _
  have hlook : (Inode.named (d ++ [tempName name pid])).look s₁.disk =
      some (⟨s.disk.env.fileMode, s.disk.env.now⟩, openedBytes flags content) :=
    Inode.look_named.mpr h.became.node
  rw [Process.bytesOf, hview, h.file, Option.map_some, Option.bind_some, OpenFile.seen, newFile]
  dsimp only
  rw [hlook]
  rfl

/-! ## The close -/

theorem tempName_ne (name : Bytes) (pid : Int) : tempName name pid ≠ name := by
  intro h
  have hlen := congrArg List.length h
  simp only [tempName, tempMarker, List.length_append, List.length_cons, List.length_nil] at hlen
  omega

/-- A close of a tracked descriptor is a rename. -/
theorem close_tracked {file : OpenFile} {target temp : Bytes} (hfd : fd < s.shim.table.base)
    (htrack : s.shim.table.atomicWrites[fd]? = some ⟨target, temp⟩)
    (hfile : s.files.get? fd = some file) :
    exec (close fd) s = exec (renameBytes temp target) ((s.untrack fd).setFile fd none) := by
  have hfile' : (s.untrack fd).files.get? fd = some file := hfile
  have hentry : (s.shim.table.closeAtomicWrite fd).1 = some ⟨target, temp⟩ := htrack
  rw [close, exec_bind, exec_get]
  dsimp only
  rw [if_neg (by omega), exec_bind, exec_set]
  dsimp only
  rw [exec_bind, realClose, exec_bind, exec_requireFile, hfile']
  dsimp only
  rw [exec_modify]
  dsimp only
  rw [hentry]

/-- A close that succeeds had a file to close. -/
theorem file_of_close (hfd : fd < s.shim.table.base) (h : exec (close fd) s = (.ok (), s')) :
    ∃ file, s.files.get? fd = some file := by
  rw [close, exec_bind, exec_get] at h
  dsimp only at h
  rw [if_neg (by omega), exec_bind, exec_set] at h
  dsimp only at h
  rw [exec_bind, realClose, exec_bind, exec_requireFile] at h
  have hfiles : (s.untrack fd).files.get? fd = s.files.get? fd := rfl
  rw [hfiles] at h
  cases hfile : s.files.get? fd with
  | none =>
    rw [hfile] at h
    cases h
  | some file => exact ⟨file, rfl⟩

/-- The target of a rename that succeeds ends in a name. -/
theorem endsInName_of_renameBytes {source target : Bytes}
    (h : exec (renameBytes source target) s = (.ok (), s')) : endsInName target = true := by
  rw [renameBytes, exec_bind, exec_get] at h
  dsimp only at h
  split at h
  · cases h
  · rename_i hends
    simpa using hends

/-- What a rename within a directory does. -/
theorem renameBytes_exec {source target : Bytes} {m n : Bytes} {i : Posix.Info} {c : Bytes}
    (hsource : diskPath source = parent ++ [m]) (htarget : diskPath target = parent ++ [n])
    (hends : endsInName target = true) (hp : s.disk.canonicalize parent = .ok d)
    (hd : s.disk.isDir d = true) (hm : s.disk.node (d ++ [m]) = some (.file i c)) (hne : m ≠ n) :
    if s.disk.isDir (d ++ [n]) then ∃ e, exec (renameBytes source target) s = (.error e, s)
    else ∃ s', exec (renameBytes source target) s = (.ok (), s') ∧
      s'.disk = s.disk.moveEntry (d ++ [m]) (d ++ [n]) := by
  have hrename := Posix.rename_concat (n := n) hp hd hm hne
  have hloc : ¬ d ++ [m] = d ++ [n] := by simpa using hne
  have hrenamed : (s.renamed (s.disk.moveEntry (d ++ [m]) (d ++ [n])) (parent ++ [m])
      (parent ++ [n])).disk = s.disk.moveEntry (d ++ [m]) (d ++ [n]) := by
    unfold Process.renamed
    rw [Fs.locate_concat hp hd, Fs.locate_concat hp hd]
    dsimp only
    rw [if_neg hloc]
  have hexec : exec (renameBytes source target) s =
      if s.disk.isDir (d ++ [n]) then (.error (.io .isADirectory), s)
      else (.ok (), s.renamed (s.disk.moveEntry (d ++ [m]) (d ++ [n])) (parent ++ [m])
        (parent ++ [n])) := by
    rw [renameBytes, exec_bind, exec_get]
    simp only [hends, hsource, htarget, hrename, Bool.not_true, Bool.false_eq_true, ↓reduceIte]
    by_cases hdir : s.disk.isDir (d ++ [n]) = true
    · rw [if_pos hdir, if_pos hdir]
      rfl
    · rw [if_neg hdir, if_neg hdir]
      rfl
  rw [hexec]
  by_cases hdir : s.disk.isDir (d ++ [n]) = true
  · rw [if_pos hdir, if_pos hdir]
    exact ⟨_, rfl⟩
  · rw [if_neg hdir, if_neg hdir]
    exact ⟨_, rfl, hrenamed⟩

/-! ## The run -/

/-- The temp file after the writes, which the close renames. -/
theorem close_written {es : List Edit}
    (h : Opened g roots pid flags path parent name content d fs fd s s₁)
    (hfd : fd < s₁.shim.table.base)
    (htrack : s₁.shim.table.atomicWrites[fd]? = some ⟨path, atomicTempPath path pid⟩)
    (hends : endsInName path = true) (hwrite : exec (writeAll fd es) s₁ = (.ok (), s₂)) :
    if fs.isDir (d ++ [name]) then ∃ e t, exec (close fd) s₂ = (.error e, t)
    else ∃ t, exec (close fd) s₂ = (.ok (), t) ∧
      ∀ q, t.disk.entry q =
        if q = d ++ [name] then
          some (.file ⟨s.disk.env.fileMode, s.disk.env.now⟩ (applyEdits es (openedBytes flags content)))
        else fs.entry q := by
  obtain ⟨hfiles, hshim, hwritten⟩ :=
    writeAll_ok h.file rfl h.became.node (by rw [h.env]) hwrite
  have hbecame := h.became.trans hwritten
  obtain ⟨hp, hd⟩ := h.became.canonicalize (.inl h.fresh) h.made.resolves h.made.isDir
  obtain ⟨hp, hd⟩ := hwritten.canonicalize (.inr ⟨_, _, h.became.node⟩) hp hd
  have hne : d ++ [name] ≠ d ++ [tempName name pid] := by
    simpa using (tempName_ne name pid).symm
  have htarget : s₂.disk.isDir (d ++ [name]) = fs.isDir (d ++ [name]) :=
    Fs.isDir_congr (hbecame.other hne)
  have hclose := close_tracked (s := s₂) (by rw [hshim]; exact hfd) (by rw [hshim]; exact htrack)
    (by rw [hfiles]; exact h.file)
  have hrename := renameBytes_exec (s := (s₂.untrack fd).setFile fd none) h.spelledTemp h.spelled hends
    hp hd hbecame.node (tempName_ne name pid)
  have hdisk : ((s₂.untrack fd).setFile fd none).disk = s₂.disk := rfl
  rw [hdisk, htarget] at hrename
  rw [hclose]
  by_cases hdir : fs.isDir (d ++ [name]) = true
  · rw [if_pos hdir] at hrename ⊢
    obtain ⟨e, he⟩ := hrename
    exact ⟨e, _, he⟩
  · rw [if_neg hdir] at hrename ⊢
    obtain ⟨t, ht, hmoved⟩ := hrename
    refine ⟨t, ht, fun q => ?_⟩
    rw [hmoved, Posix.entry_renamed hd hbecame.node (tempName_ne name pid)
      (by rw [htarget]; simpa using hdir)]
    split
    · rfl
    · split
      · rename_i hq
        -- The temp file had not been there.
        rw [hq, Fs.entry_eq_none.mpr h.fresh]
      · rename_i hq
        exact hbecame.other hq

/-- Where no temp file is, none is removed. -/
theorem cleanup_clean (hpath : diskPath path = parent ++ [name]) (h : NoStaleTemps s.disk path) :
    cleanupStaleTemps path s = s := by
  have hname : (diskPath path).getLast? = some name := by rw [hpath, List.getLast?_concat]
  have hparent : (diskPath path).dropLast = parent := by rw [hpath, List.dropLast_concat]
  unfold cleanupStaleTemps readDirNames
  rw [hname, hparent]
  cases hp : s.disk.canonicalize parent with
  | error e => rfl
  | ok d =>
    dsimp only
    by_cases hd : s.disk.isDir d = true
    · rw [if_pos hd]
      dsimp only
      have hstay : ∀ q ∈ ((childNames s.disk d).filter (name ++ tempMarker).isPrefixOf).map
          (parent ++ [·]), s.unlink q = s := by
        intro q hq
        obtain ⟨n, hn, rfl⟩ := List.mem_map.mp hq
        obtain ⟨hchild, htemp⟩ := List.mem_filter.mp hn
        have hsome := mem_childNames.mp hchild
        have hdir : s.disk.isDir (d ++ [n]) = true :=
          (h parent name _ hpath ⟨d, n, hp, rfl, List.isPrefixOf_iff_prefix.mp htemp⟩).resolve_left hsome
        obtain ⟨i, k, hnode⟩ := Fs.isDir_iff.mp hdir
        rw [unlink_eq hp hd, hnode]
      generalize ((childNames s.disk d).filter (name ++ tempMarker).isPrefixOf).map
        (parent ++ [·]) = names at hstay
      induction names with
      | nil => rfl
      | cons q names ih =>
        rw [List.foldl_cons, hstay q List.mem_cons_self]
        exact ih fun r hr => hstay r (List.mem_cons_of_mem _ hr)
    · rw [if_neg hd]

/-- The hook of a workspace path with write flags. -/
theorem openAt_write (hres : resolveAtPath roots cwd s .cwd given = .resolved path)
    (hin : isWorkspacePath roots path = true) (hw : flags.wronly = true ∨ flags.rdwr = true) :
    exec (openAt g roots root strict cwd pid .cwd given flags) s =
      exec (openWrite g roots strict pid .cwd given flags path) s := by
  have hwrite : isWriteFlags flags = true := by
    rcases hw with h | h <;> simp [isWriteFlags, h]
  rw [openAt, withPath, exec_bind, exec_get]
  dsimp only
  rw [hres]
  dsimp only
  rw [if_pos hin, if_pos hwrite]

/-- Writes are no business of the shim. -/
theorem writeAll_shim {es : List Edit} (h : exec (writeAll fd es) s = (.ok (), s')) :
    s'.shim = s.shim := by
  induction es generalizing s with
  | nil =>
    cases h
    rfl
  | cons e es ih =>
    rw [writeAll, exec_bind_ok] at h
    obtain ⟨_, t, hone, hrest⟩ := h
    rw [ih hrest]
    rw [writeFd, exec_bind, exec_requireFile] at hone
    cases hfile : s.files.get? fd with
    | none =>
      rw [hfile] at hone
      cases hone
    | some file =>
      rw [hfile] at hone
      dsimp only at hone
      split at hone
      · cases hone
      · split at hone
        · unfold kernel at hone
          rw [exec_zoom_ok] at hone
          obtain ⟨fs, -, rfl⟩ := hone
          rfl
        · split at hone
          · cases hone
            rfl
          · cases hone

/-- A path whose close succeeds ends in a name. -/
theorem endsInName_of_close {es : List Edit} (hcreat : flags.creat = false)
    (hopen : exec (openWrite g roots strict pid .cwd given flags path) s = (.ok fd, s₁))
    (hwrite : exec (writeAll fd es) s₁ = (.ok (), s₂)) (hclose : exec (close fd) s₂ = (.ok (), s₃)) :
    endsInName path = true := by
  obtain ⟨hfd, htrack⟩ := openWrite_tracks hcreat hopen
  have hshim := writeAll_shim hwrite
  rw [← hshim] at hfd htrack
  obtain ⟨file, hfile⟩ := file_of_close hfd hclose
  rw [close_tracked hfd htrack hfile] at hclose
  exact endsInName_of_renameBytes hclose

/-- What an open, the writes and a close that succeeds leave on the disk. -/
theorem Opened.entries {es : List Edit}
    (h : Opened g roots pid flags path parent name content d fs fd s s₁) (hcreat : flags.creat = false)
    (hopen : exec (openWrite g roots strict pid .cwd given flags path) s = (.ok fd, s₁))
    (hwrite : exec (writeAll fd es) s₁ = (.ok (), s₂)) (hclose : exec (close fd) s₂ = (.ok (), s₃))
    (q : Posix.Path) :
    s₃.disk.entry q =
      if q = d ++ [name] then
        some (.file ⟨s.disk.env.fileMode, s.disk.env.now⟩ (applyEdits es (openedBytes flags content)))
      else fs.entry q := by
  have hends := endsInName_of_close hcreat hopen hwrite hclose
  obtain ⟨hfd, htrack⟩ := openWrite_tracks hcreat hopen
  have hrun := close_written h hfd htrack hends hwrite
  split at hrun
  · obtain ⟨e, t, he⟩ := hrun
    rw [hclose] at he
    cases he
  · obtain ⟨t, ht, hentries⟩ := hrun
    rw [hclose] at ht
    cases ht
    exact hentries q

/-- A descriptor that can be closed can be truncated and closed. -/
theorem truncated_run (hb : s.Backed) (hcreat : flags.creat = false)
    (hw : flags.wronly = true ∨ flags.rdwr = true)
    (hopen : exec (openWrite g roots strict pid .cwd given flags path) s = (.ok fd, s₁))
    (hclose : exec (close fd) s₁ = (.ok (), s₂)) {k : Nat} (hk : k ≤ Posix.maxFileSize) :
    ∃ t u, exec (writeAll fd [.setLen k]) s₁ = (.ok (), t) ∧ exec (close fd) t = (.ok (), u) := by
  have hnone : exec (writeAll fd []) s₁ = (.ok (), s₁) := rfl
  have hends := endsInName_of_close hcreat hopen hnone hclose
  obtain ⟨hfd, htrack⟩ := openWrite_tracks hcreat hopen
  obtain ⟨parent, name, content, d, fs, ho⟩ := openWrite_opened hb hcreat hends hopen
  have hwritable : (newFile flags (d ++ [tempName name pid])).writable = true := by
    rcases hw with h | h <;> simp [newFile, h]
  obtain ⟨t, ht⟩ := writeAll_setLen ho.file rfl hwritable ho.became.node hk
  have hnow := close_written ho hfd htrack hends hnone
  have hthen := close_written ho hfd htrack hends ht
  split at hnow
  · obtain ⟨e, _, he⟩ := hnow
    rw [hclose] at he
    cases he
  · rename_i hdir
    rw [if_neg hdir] at hthen
    obtain ⟨u, hu, -⟩ := hthen
    exact ⟨t, u, ht, hu⟩

theorem seedAnswer_some {shim : Shim} (h : (seedAnswer g roots path shim).1 = some content) :
    ∃ key, graphRequestKey roots path = some key ∧ g.readFile key = .ok content := by
  unfold seedAnswer graphReadFile graphCall at h
  cases hkey : graphRequestKey roots path with
  | none =>
    rw [hkey] at h
    cases h
  | some key =>
    rw [hkey] at h
    refine ⟨key, rfl, ?_⟩
    dsimp only [clientReadFile] at h
    cases hread : g.readFile key with
    | error e =>
      rw [hread] at h
      cases h
    | ok data =>
      rw [hread] at h
      cases h
      rfl

/-- A run that changes nothing but `own` found no temp file to remove. -/
theorem noStaleTemps_of_frame (hb : s.Backed)
    (ho : Opened g roots pid flags path parent name content d fs fd s s₁)
    (hentries : ∀ q, q ≠ d ++ [name] → s₃.disk.entry q = fs.entry q)
    (hfile : ∃ i c, s₃.disk.node own = some (.file i c)) (hothers : OthersAsBefore s.disk s₃.disk own) :
    NoStaleTemps s.disk path := by
  obtain ⟨hswept, hgone⟩ := cleanup_spec hb ho.spelled
  have hkept : ∀ q, (cleanupStaleTemps path s).disk.entry q = s.disk.entry q := by
    intro q
    rcases hswept.pruned q with he | ⟨⟨d', n, -, hq, hn⟩, hdir, hnone⟩
    · exact he
    · by_cases hsome : s.disk.node q = none
      · rw [Fs.entry_eq_none.mpr hnone, Fs.entry_eq_none.mpr hsome]
      · -- A file that was removed is not there at the end; at most a directory is in its place.
        exfalso
        have hlast : q ≠ d ++ [name] := by
          rintro rfl
          obtain rfl : name = n := by simpa using (List.append_inj_right' hq rfl)
          have hlen := hn.length_le
          simp only [tempMarker, List.length_append, List.length_cons, List.length_nil] at hlen
          omega
        have hend : s₃.disk.node q = none ∨ s₃.disk.isDir q = true := by
          rcases ho.made.rises q with he | ⟨-, hshape, -⟩
          · left
            rw [← Fs.entry_eq_none, hentries q hlast, he, Fs.entry_eq_none, hnone]
          · right
            rw [Fs.isDir_congr (hentries q hlast), Fs.shape_eq_dir.mp hshape]
        by_cases hown : q = own
        · obtain ⟨i, c, hfile⟩ := hfile
          rw [hown] at hend
          simp [hfile, Fs.isDir, Node.isDir] at hend
        · rcases hothers q hown with he | ⟨hn', -, -⟩
          · rcases hend with hend | hend
            · rw [← Fs.entry_eq_none, he, Fs.entry_eq_none] at hend
              exact hsome hend
            · rw [Fs.isDir_congr he, hdir] at hend
              cases hend
          · exact hsome hn'
  have hkeeps : Fs.Keeps s.disk (cleanupStaleTemps path s).disk :=
    ⟨fun q hq => by rw [Fs.shape_congr (hkept q), hq], fun q t hq => by rw [Fs.shape_congr (hkept q), hq]⟩
  rintro parent' name' q hspelled ⟨d', n, hp, rfl, hn⟩
  obtain ⟨rfl, hname⟩ := List.append_inj' (ho.spelled.symm.trans hspelled) rfl
  obtain rfl : name = name' := by simpa using hname
  have hreal : (cleanupStaleTemps path s).disk.Real d' := by
    have hr := Fs.canonicalize_real hp
    unfold Fs.Real at hr ⊢
    rwa [Fs.shape_congr (hkept d')]
  rcases hgone d' n (Fs.canonicalize_keeps hkeeps hp hreal) hn with hnone | hdir
  · left
    rw [← Fs.entry_eq_none, ← hkept, Fs.entry_eq_none, hnone]
  · right
    rw [← Fs.isDir_congr (hkept _), hdir]

/-! ## When a write reaches the file that a read shows -/

section Exact

variable (hb : s.Backed) (hcreat : flags.creat = false)
  (hopenAt : exec (openAt g roots root strict cwd pid .cwd given flags) s =
    exec (openWrite g roots strict pid .cwd given flags path) s)

include hb hcreat hopenAt

theorem SameFile.writesThrough (h : SameFile g roots flags s path own bytes mode) :
    WritesThrough g roots root strict cwd pid flags given s own bytes mode := by
  intro fd s₁ es s₂ s₃ hopen hwrite hclose
  rw [hopenAt] at hopen
  have hends := endsInName_of_close hcreat hopen hwrite hclose
  obtain ⟨parent, name, content, d, fs, ho⟩ := openWrite_opened hb hcreat hends hopen
  have hentries := ho.entries hcreat hopen hwrite hclose
  have hmade := ho.made
  rw [cleanup_clean ho.spelled h.clean] at hmade
  have hown : own = d ++ [name] := by
    obtain ⟨parent', name', d', hspelled, hleads, rfl⟩ := h.leads
    obtain ⟨rfl, hname⟩ := List.append_inj' (ho.spelled.symm.trans hspelled) rfl
    rw [hmade.leads] at hleads
    rw [Except.ok.inj hleads, hname]
  have hseed : openedBytes flags content = openedBytes flags bytes := by
    obtain ⟨key', hkey', hread⟩ := seedAnswer_some ho.seed
    unfold openedBytes
    cases htrunc : flags.trunc with
    | true => rfl
    | false =>
      rw [h.seed htrunc key' hkey'] at hread
      rw [Except.ok.inj hread]
  refine ⟨by rw [ho.bytesOf, hseed], ⟨⟨s.disk.env.fileMode, s.disk.env.now⟩, ?_, h.mode⟩, ?_⟩
  · rw [← Fs.entry_eq_file, hentries, if_pos hown, hseed]
  · intro q hq
    have hend : s₃.disk.entry q = fs.entry q := by rw [hentries, if_neg (by rwa [← hown])]
    rcases hmade.rises q with he | ⟨hnew, hshape, hpre⟩
    · exact .inl (hend.trans he)
    · refine .inr ⟨hnew, ?_, ?_⟩
      · rw [Fs.isDir_congr hend, Fs.shape_eq_dir.mp hshape]
      · rw [hown]
        exact hpre.trans (List.prefix_append _ _)

theorem WritesThrough.sameFile
    (h : WritesThrough g roots root strict cwd pid flags given s own bytes mode)
    (hw : flags.wronly = true ∨ flags.rdwr = true)
    (hruns : OpensAndCloses g roots root strict cwd pid flags given s) :
    SameFile g roots flags s path own bytes mode := by
  obtain ⟨fd, s₁, s₂, hopen, hclose⟩ := hruns
  have hopenW := hopen
  rw [hopenAt] at hopenW
  have hnone : exec (writeAll fd []) s₁ = (.ok (), s₁) := rfl
  have hends := endsInName_of_close hcreat hopenW hnone hclose
  obtain ⟨parent, name, content, d, fs, ho⟩ := openWrite_opened hb hcreat hends hopenW
  -- Two runs that leave different bytes.
  obtain ⟨t₀, u₀, hwrite₀, hclose₀⟩ := truncated_run hb hcreat hw hopenW hclose (Nat.zero_le _)
  obtain ⟨t₁, u₁, hwrite₁, hclose₁⟩ := truncated_run hb hcreat hw hopenW hclose
    (show 1 ≤ Posix.maxFileSize by decide)
  have hentries₀ := ho.entries hcreat hopenW hwrite₀ hclose₀
  have hentries₁ := ho.entries hcreat hopenW hwrite₁ hclose₁
  obtain ⟨hbytes, ⟨i₀, hnode₀, hmode⟩, hothers⟩ := h _ _ _ _ _ hopen hwrite₀ hclose₀
  obtain ⟨-, ⟨i₁, hnode₁, -⟩, -⟩ := h _ _ _ _ _ hopen hwrite₁ hclose₁
  have hclean : NoStaleTemps s.disk path :=
    noStaleTemps_of_frame hb ho (fun q hq => by rw [hentries₀, if_neg hq]) ⟨_, _, hnode₀⟩ hothers
  have hmade := ho.made
  rw [cleanup_clean ho.spelled hclean] at hmade
  rw [← Fs.entry_eq_file] at hnode₀ hnode₁
  have hown : own = d ++ [name] := by
    by_contra hne
    rw [hentries₀, if_neg hne] at hnode₀
    rw [hentries₁, if_neg hne, hnode₀] at hnode₁
    have hlen := congrArg List.length (Node.file.inj (Option.some.inj hnode₁)).2
    simp [applyEdits, Edit.apply, length_resize] at hlen
  refine ⟨fun htrunc key hkey => ?_, ⟨parent, name, d, ho.spelled, hmade.leads, hown⟩, ?_, hclean⟩
  · obtain ⟨key', hkey', hread⟩ := seedAnswer_some ho.seed
    rw [hkey] at hkey'
    cases hkey'
    rw [ho.bytesOf] at hbytes
    have heq : openedBytes flags content = openedBytes flags bytes := Option.some.inj hbytes
    rw [openedBytes, openedBytes, htrunc] at heq
    rw [hread, show content = bytes from heq]
  · rw [hentries₀, if_pos hown] at hnode₀
    rw [← hmode, ← (Node.file.inj (Option.some.inj hnode₀)).1]

end Exact

/-- Exactly when the path spells the file, leads to it, new files have its mode and no temp file is left
behind. -/
theorem write_through_iff (hb : s.Backed)
    (hserves : ServesFile g roots root strict cwd pid given s path key own bytes mode)
    (hw : flags.wronly = true ∨ flags.rdwr = true) (hcreat : flags.creat = false)
    (hruns : OpensAndCloses g roots root strict cwd pid flags given s) :
    WritesThrough g roots root strict cwd pid flags given s own bytes mode ↔
      SameFile g roots flags s path own bytes mode := by
  have hopenAt : exec (openAt g roots root strict cwd pid .cwd given flags) s =
      exec (openWrite g roots strict pid .cwd given flags path) s :=
    openAt_write hserves.resolved hserves.inside hw
  exact ⟨fun h => h.sameFile hb hcreat hopenAt hw hruns, fun h => h.writesThrough hb hcreat hopenAt⟩

/-! ## A file and a link to it -/

namespace Sample

/-- SHA-256 of what the root of `aliasSnapshot` feeds to the hash. -/
def aliasRoot : Hash256 :=
  #v[15, 10, 153, 171, 208, 164, 243, 3, 7, 6, 70, 37, 121, 83, 165, 222,
    26, 13, 19, 14, 124, 207, 106, 208, 217, 101, 179, 52, 173, 187, 173, 8]

/-- The file `d`, which holds `a`, and the link `l` to it. -/
def aliasSnapshot : WorkspaceTreeSnapshot :=
  ⟨⟨"r1", "w1", 1, 1, []⟩,
    [⟨[100], Vector.replicate 16 0, .blob hashA false, 1, 0⟩,
      ⟨[108], Vector.replicate 16 1, .symlink hashD, 1, 0⟩]⟩

def aliasCodec : TreeCodec where
  identity _ := .ok "sha256:3"
  showRepoPath := Text.fromUtf8Lossy
  sha256 bytes := if bytes = [97] then hashA else if bytes = [100] then hashD else aliasRoot

/-- The host paths `/w/d` and `/w/l`. -/
def namedPath : Bytes := [47, 119, 47, 100]
def aliasPath : Bytes := [47, 119, 47, 108]

def atStart : Process := .start freshShim bareDisk

/-- What an open for reading and writing gives, the bytes of the descriptor, and whether it closes. -/
def writeOpen (path : Bytes) (tree : CachedTree) : Option Nat × Option Bytes × Option Unit :=
  let r := exec (openAt (tree.provider twoBlobs) [workspace] workspace false [47] 7 .cwd path rdwr)
    atStart
  (r.1.toOption, r.2.bytesOf 0, (exec (close 0) r.2).1.toOption)

/-- Where the walks of `d` and `l` end. -/
def aliasWalks (tree : CachedTree) : List (Option (VfsPath × VirtualStat)) :=
  [directory, link].map fun key =>
    (keyWalk (tree.provider twoBlobs) [workspace] workspace 40 .root key.names).toOption

theorem aliasTree_walks :
    (CachedTree.fromSnapshot aliasCodec aliasSnapshot).toOption.map aliasWalks =
      some [some (directory, .regularFile 1 hashA false 0),
        some (directory, .regularFile 1 hashA false 0)] := by
  decide +kernel

/-- The bytes of `d`, and what it is. -/
def aliasReads (tree : CachedTree) : Option Bytes × Option VirtualStat :=
  (((tree.provider twoBlobs).readFile directory).toOption, (tree.statPath directory).toOption)

theorem aliasTree_reads :
    (CachedTree.fromSnapshot aliasCodec aliasSnapshot).toOption.map aliasReads =
      some (some [97], some (.regularFile 1 hashA false 0)) := by
  decide +kernel

theorem aliasTree_writeOpens :
    (CachedTree.fromSnapshot aliasCodec aliasSnapshot).toOption.map (fun tree =>
      [writeOpen namedPath tree, writeOpen aliasPath tree]) =
      some [(some 0, some [97], some ()), (some 0, some [100], some ())] := by
  decide +kernel

/-- Either path leads to `d`; a write starts from the bytes that the path spells. -/
theorem aliasTree_ok : ∃ tree, CachedTree.fromSnapshot aliasCodec aliasSnapshot = .ok tree ∧
    (∀ key, key = directory ∨ key = link →
      keyWalk (tree.provider twoBlobs) [workspace] workspace 40 .root key.names =
        .ok (directory, .regularFile 1 hashA false 0)) ∧
    (writeOpen namedPath tree = (some 0, some [97], some ()) ∧
      writeOpen aliasPath tree = (some 0, some [100], some ())) ∧
    (tree.provider twoBlobs).readFile directory = .ok [97] ∧
    (tree.provider twoBlobs).stat directory = .ok (.regularFile 1 hashA false 0) := by
  have hwalks := aliasTree_walks
  have hreads := aliasTree_reads
  have hwrites := aliasTree_writeOpens
  cases hf : CachedTree.fromSnapshot aliasCodec aliasSnapshot with
  | error e => rw [hf] at hreads; cases hreads
  | ok tree =>
    rw [hf] at hwalks hreads hwrites
    obtain ⟨hbytes, hstat⟩ := Prod.mk.inj (Option.some.inj hreads)
    have hk := Option.some.inj hwalks
    have hw := Option.some.inj hwrites
    simp only [aliasWalks, List.map_cons, List.map_nil, List.cons.injEq, and_true] at hk hw
    refine ⟨tree, rfl, ?_, hw, Except.toOption_eq_some.mp hbytes, Except.toOption_eq_some.mp hstat⟩
    rintro key (rfl | rfl)
    · exact Except.toOption_eq_some.mp hk.1
    · exact Except.toOption_eq_some.mp hk.2

theorem atStart_backed : atStart.Backed := fun _ hfile => nomatch hfile

/-- What a read-only open of one of the paths serves. -/
theorem aliasTree_serves {tree : CachedTree} {path : Bytes} {key : VfsPath}
    (hf : CachedTree.fromSnapshot aliasCodec aliasSnapshot = .ok tree)
    (hres : resolveAtPath [workspace] [47] atStart .cwd path = .resolved path)
    (hin : isWorkspacePath [workspace] path = true)
    (hkey : graphRequestKey [workspace] path = some key) (hne : key ≠ .root)
    (hwalk : keyWalk (tree.provider twoBlobs) [workspace] workspace 40 .root key.names =
      .ok (directory, .regularFile 1 hashA false 0))
    (hbytes : (tree.provider twoBlobs).readFile directory = .ok [97])
    (hstat : (tree.provider twoBlobs).stat directory = .ok (.regularFile 1 hashA false 0)) :
    ServesFile (tree.provider twoBlobs) [workspace] workspace false [47] 7 path atStart path directory
      [[119], [100]] [97] 0o644 where
  resolved := hres
  inside := hin
  opens := by
    have hroot : hostComponents workspace = .ok (none, [[119]]) := by decide
    have hm : MapsBack [workspace] workspace := mapsBack_single hroot
    have hspelled : graphRequestKey [workspace] namedPath = some directory := by decide
    have hr : (exec (resolveGraphPath (daemonOracle (tree.provider twoBlobs) [workspace]) [workspace]
        workspace key) freshShim.resolver).1 = .ok (namedPath, .regularFile 1 hashA false 0) := by
      rw [resolve_serves (founded_of_accepted (accepted_of_fromSnapshot hf)) (serves_daemonOracle hm) hne
        _ (StatCache.holds_new _), hwalk]
      decide
    have hopened : ∃ shim handle, exec (openRead (tree.provider twoBlobs) [workspace] workspace false
        readOnlyFlags path) freshShim = (.ok 10000, shim) ∧ shim.table.map[10000]? = some handle ∧
          handle.path = namedPath ∧ handle.isDirectory = false := by
      unfold openRead
      rw [if_neg (by decide), exec_bind, exec_graphStatFollow hkey, hr]
      dsimp only [openResolved]
      rw [if_neg (by decide), if_neg (by decide), if_pos (by decide), openReadPayload, if_pos (by decide),
        exec_bind, exec_bind, exec_callGraph, graphReadFile, graphCall_of_key hspelled, clientReadFile,
        hbytes]
      exact ⟨_, _, rfl, rfl, rfl, rfl⟩
    obtain ⟨shim, handle, hexec, hmap, hpath, hdir⟩ := hopened
    refine ⟨10000, { atStart with shim := shim }, handle, ?_, hmap, hpath.trans (by decide), hdir⟩
    rw [openAt, withPath, exec_bind, exec_get]
    dsimp only
    rw [hres]
    dsimp only
    rw [if_pos hin, if_neg (by decide), hook, exec_zoom_ok]
    exact ⟨shim, hexec, rfl⟩
  own := ⟨[[119]], by decide +kernel, by decide⟩
  bytes := hbytes
  mode := ⟨_, hstat, rfl⟩

/-- Both paths can be opened for reading and writing, and closed. -/
theorem aliasTree_opensAndCloses {tree : CachedTree} {path bytes : Bytes}
    (h : writeOpen path tree = (some 0, some bytes, some ())) :
    OpensAndCloses (tree.provider twoBlobs) [workspace] workspace false [47] 7 rdwr path atStart := by
  obtain ⟨hfd, hrest⟩ := Prod.mk.inj h
  obtain ⟨-, hclose⟩ := Prod.mk.inj hrest
  exact ⟨0, _, _, Prod.ext (Except.toOption_eq_some.mp hfd) rfl,
    Prod.ext (Except.toOption_eq_some.mp hclose) rfl⟩

end Sample

/-- `/w/d`, which spells the file. -/
theorem write_through_iff_named :
    ∃ tree, CachedTree.fromSnapshot Sample.aliasCodec Sample.aliasSnapshot = .ok tree ∧
      WritesThrough (tree.provider Sample.twoBlobs) [Sample.workspace] Sample.workspace false [47] 7
        Sample.rdwr Sample.namedPath Sample.atStart [[119], [100]] [97] 0o644 := by
  obtain ⟨tree, hf, hwalk, ⟨hwrite, -⟩, hbytes, hstat⟩ := Sample.aliasTree_ok
  have hres : resolveAtPath [Sample.workspace] [47] Sample.atStart .cwd Sample.namedPath =
      .resolved Sample.namedPath := by decide +kernel
  have hserves := Sample.aliasTree_serves hf hres (by decide) (by decide) (by decide)
    (hwalk _ (.inl rfl)) hbytes hstat
  refine ⟨tree, hf, (write_through_iff Sample.atStart_backed hserves (.inr rfl) rfl
    (Sample.aliasTree_opensAndCloses hwrite)).mpr ⟨?_, ?_, rfl, ?_⟩⟩
  · intro _ key hkey
    have hspelled : graphRequestKey [Sample.workspace] Sample.namedPath = some Sample.directory := by
      decide
    rw [hspelled] at hkey
    cases hkey
    exact hbytes
  · exact ⟨[[119]], [100], [[119]], by decide, by decide +kernel, rfl⟩
  · rintro parent name q hspelled ⟨d, n, hp, rfl, -⟩
    obtain ⟨rfl, -⟩ : parent = [[119]] ∧ name = [100] := by
      have h : parent ++ [name] = [[119]] ++ [[100]] := hspelled.symm.trans (by decide)
      obtain ⟨hp, hn⟩ := List.append_inj' h rfl
      exact ⟨hp, by simpa using hn⟩
    have hd : Sample.bareDisk.canonicalize [[119]] = .ok [[119]] := by decide +kernel
    obtain rfl : [[119]] = d := Except.ok.inj (hd.symm.trans hp)
    left
    show Sample.bareDisk.node [[119], n] = none
    exact Fs.node_addEntry (by simp) (by simp)

/-- A write to `/w/l` starts from the text of the link. -/
theorem write_through_alias :
    ∃ tree, CachedTree.fromSnapshot Sample.aliasCodec Sample.aliasSnapshot = .ok tree ∧
      Sample.atStart.Backed ∧
      ServesFile (tree.provider Sample.twoBlobs) [Sample.workspace] Sample.workspace false [47] 7
        Sample.aliasPath Sample.atStart Sample.aliasPath Sample.directory [[119], [100]] [97] 0o644 ∧
      OpensAndCloses (tree.provider Sample.twoBlobs) [Sample.workspace] Sample.workspace false [47] 7
        Sample.rdwr Sample.aliasPath Sample.atStart ∧
      ¬ WritesThrough (tree.provider Sample.twoBlobs) [Sample.workspace] Sample.workspace false [47] 7
        Sample.rdwr Sample.aliasPath Sample.atStart [[119], [100]] [97] 0o644 := by
  obtain ⟨tree, hf, hwalk, ⟨-, hwrite⟩, hbytes, hstat⟩ := Sample.aliasTree_ok
  refine ⟨tree, hf, Sample.atStart_backed,
    Sample.aliasTree_serves hf (by decide +kernel) (by decide) (by decide) (by decide)
      (hwalk _ (.inr rfl)) hbytes hstat,
    Sample.aliasTree_opensAndCloses hwrite, fun h => ?_⟩
  obtain ⟨hfd, hrest⟩ := Prod.mk.inj hwrite
  obtain ⟨hseed, hclose⟩ := Prod.mk.inj hrest
  obtain ⟨hsame, -⟩ := h 0 _ [] _ _ (Prod.ext (Except.toOption_eq_some.mp hfd) rfl) rfl
    (Prod.ext (Except.toOption_eq_some.mp hclose) rfl)
  exact absurd (hseed.symm.trans hsame) (by decide)

end KinVfs
