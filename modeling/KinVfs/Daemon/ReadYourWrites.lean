import KinVfs.Daemon.Presence
import KinVfs.Daemon.StagingLemmas

/-!
# Read your writes

A sequence of successful content calls on `p` edits the working copy's file; the mount then serves
that file. The byte array the mount served before (`Served`) is another content in general, so the
two agree exactly when the edits make the same bytes of both, and the entry of `p` is not a link
(a staged link is statted as the link, not as the file it leads to).
-/

namespace KinVfs

open Posix (Fs)
open Fallible KinDaemonWriter

/-- A content call on a path. -/
inductive FileOp where
  | writeAt (offset : Nat) (data : Bytes)
  | setLen (size : Nat)
  | createFile (exclusive : Bool)
  deriving DecidableEq

namespace FileOp

def call (root : Posix.Path) (p : VfsPath) : FileOp → WriterM VirtualStat
  | .writeAt offset data => KinDaemonWriter.writeAt root p offset data
  | .setLen size => KinDaemonWriter.setLen root p size
  | .createFile exclusive => KinDaemonWriter.createFile root p exclusive

/-- What the call does to a byte array. -/
def edit : FileOp → Content.Edit
  | .writeAt offset data => .write offset data
  | .setLen size => .setLen size
  | .createFile _ => .create

end FileOp

/-- The calls one after the other, stopped by the first that fails. -/
def runOps (root : Posix.Path) (p : VfsPath) : List FileOp → WriterM Unit
  | [] => pure ()
  | op :: ops => do
    let _ ← op.call root p
    runOps root p ops

/-! ## What the mount served -/

/-- Following `comps` from the directory `cur` through what a provider shows, links included. A
link to an absolute path is followed when it leads below the repository root. -/
inductive Leads (O : ContentProvider) (root : Posix.Path) :
    VfsPath → List Fs.Comp → VfsPath → Prop where
  | done (cur : VfsPath) : Leads O root cur [] cur
  | cur {cur q : VfsPath} {rest : List Fs.Comp} (h : Leads O root cur rest q) :
      Leads O root cur (.cur :: rest) q
  | up {cur d q : VfsPath} {rest : List Fs.Comp} (hd : cur.parent = some d)
      (h : Leads O root d rest q) : Leads O root cur (.up :: rest) q
  | entry {cur q : VfsPath} {n : VfsName} {rest : List Fs.Comp} {st : VirtualStat}
      (hs : O.stat (cur.join n) = .ok st) (hl : st.isSymlink = false)
      (h : Leads O root (cur.join n) rest q) : Leads O root cur (.name n.bytes :: rest) q
  | link {cur q : VfsPath} {n : VfsName} {rest : List Fs.Comp} {st : VirtualStat} {t : Bytes}
      (hs : O.stat (cur.join n) = .ok st) (hl : st.isSymlink = true)
      (ht : O.readLink (cur.join n) = .ok t) (hrel : t.head? ≠ some slash)
      (h : Leads O root cur (Fs.targetComps t ++ rest) q) :
      Leads O root cur (.name n.bytes :: rest) q
  | absolute {cur q : VfsPath} {n : VfsName} {rest inner : List Fs.Comp} {st : VirtualStat}
      {t : Bytes} (hs : O.stat (cur.join n) = .ok st) (hl : st.isSymlink = true)
      (ht : O.readLink (cur.join n) = .ok t) (habs : t.head? = some slash)
      (hin : Fs.targetComps t = .cur :: (root.map .name ++ inner))
      (h : Leads O root .root (inner ++ rest) q) : Leads O root cur (.name n.bytes :: rest) q

/-- The content the provider serves for `p`: of the file at `p` or of the file the link at `p` leads
to, and no bytes when `p` is absent. -/
def Served (O : ContentProvider) (root : Posix.Path) (p : VfsPath) (base : Bytes) : Prop :=
  (∃ d n q st, p = VfsPath.join d n ∧ Leads O root d [.name n.bytes] q ∧ O.stat q = .ok st ∧
      st.isFile = true ∧ O.readFile q = .ok base) ∨
    (O.pathExists p = .ok false ∧ base = [])

/-- A file is served as itself. -/
theorem served_file {O : ContentProvider} {root : Posix.Path} {p : VfsPath} {st : VirtualStat}
    {base : Bytes} (hp : p ≠ .root) (hs : O.stat p = .ok st) (hl : st.isSymlink = false)
    (hf : st.isFile = true) (hr : O.readFile p = .ok base) : Served O root p base := by
  rcases VfsPath.root_or_join p with rfl | ⟨d, n, rfl⟩
  · exact absurd rfl hp
  · exact .inl ⟨d, n, d.join n, st, rfl, .entry hs hl (.done _), hs, hf, hr⟩

/-! ## One call -/

/-- The bytes of the file at `h`, none when there is no file. -/
def fileBytes (fs : Fs) (h : Posix.Path) : Bytes :=
  match fs.shape h with
  | some (.file c) => c
  | _ => []

/-- `p` has the file `h` with content `c`, its entry is `e`, and the last mark recorded that entry. -/
structure Holds (root : Posix.Path) (p : VfsPath) (h e : Posix.Path) (c : Bytes) (w : World) :
    Prop where
  target : containedTarget w.host root p = .ok h
  entry : containedEntry w.host root p = .ok e
  file : w.host.shape h = some (.file c)
  leaf : e = h ∨ ∃ t, w.host.shape e = some (.symlink t)
  staged : ∃ nd, w.host.node e = some nd ∧ w.staging.staged p = some (.present (statOf nd))

section Calls

variable {root h e : Posix.Path} {p : VfsPath} {w w' : World} {c : Bytes} {op : FileOp}

theorem staged_marked {d : Staged} : (marked w p d).staging.staged p = some d := by
  rw [marked, Staging.staged_mark, if_pos rfl]

/-- A write of the file at `h` followed by its mark. -/
theorem holds_of_put {fs : Fs} {st : VirtualStat} (ht : containedTarget w.host root p = .ok h)
    (he : containedEntry w.host root p = .ok e)
    (hleaf : e = h ∨ ∃ t, w.host.shape e = some (.symlink t)) (hw : Writable w.host h)
    (hput : Put w.host fs h c) (hst : restat root fs p = .ok st) :
    Holds root p h e c (marked { w with host := fs } p (.present st)) := by
  have he' := hput.entry hw ht he
  have hfile : fs.shape h = some (.file c) := by rw [hput, if_pos rfl]
  have hleaf' : e = h ∨ ∃ t, fs.shape e = some (.symlink t) := by
    rcases hleaf with h0 | ⟨t, hl⟩
    · exact .inl h0
    · exact .inr ⟨t, (hput.keeps hw).2 e t hl⟩
  have hsome : fs.shape e ≠ none := by
    rcases hleaf' with rfl | ⟨t, hl⟩
    · simp [hfile]
    · simp [hl]
  refine ⟨hput.target hw ht, he', hfile, hleaf', ?_⟩
  rw [staged_marked]
  rw [restat_eq he' (Fs.clear_of_shape hsome)] at hst
  cases hn : fs.node e with
  | none => exact absurd (Fs.shape_eq_none.mpr hn) hsome
  | some nd =>
    rw [hn] at hst
    cases hst
    exact ⟨nd, hn, rfl⟩

/-- The disk part of a content call that succeeds. -/
theorem disk_of_call {x : DiskM Unit} {st : VirtualStat}
    (hx : exec (onDisk x >>= fun _ => markPresent root p) w = (.ok st, w')) :
    ∃ fs, exec x w.host = (.ok (), fs) ∧ restat root fs p = .ok st ∧
      w' = marked { w with host := fs } p (.present st) := by
  rw [exec_diskThenMark] at hx
  rcases hd : exec x w.host with ⟨k | u, fs⟩
  · rw [hd] at hx
    cases hx
  · rw [hd] at hx
    dsimp only at hx
    cases hr : restat root fs p with
    | error k =>
      rw [hr] at hx
      cases hx
    | ok st' =>
      rw [hr] at hx
      cases hx
      exact ⟨fs, rfl, hr, rfl⟩

/-- What an open for `write_at` found. -/
theorem opened_write {fs : Fs} (hc : Posix.openedContent writeOptions (fs.shape h) = some c) :
    Writable fs h ∧ fileBytes fs h = c := by
  unfold Writable fileBytes
  cases hs : fs.shape h with
  | none =>
    rw [hs] at hc
    cases hc
    exact ⟨.inl rfl, rfl⟩
  | some sh =>
    rw [hs] at hc
    cases sh with
    | file c' =>
      cases hc
      exact ⟨.inr ⟨c', rfl⟩, rfl⟩
    | dir => cases hc
    | symlink t => cases hc

/-- What an open for `create_file` leaves. -/
theorem opened_create {fs : Fs} {exclusive : Bool}
    (hc : Posix.openedContent (createOptions exclusive) (fs.shape h) = some c) :
    Writable fs h ∧ c = [] := by
  unfold Writable
  cases hs : fs.shape h with
  | none =>
    rw [hs] at hc
    cases exclusive <;> cases hc <;> exact ⟨.inl rfl, rfl⟩
  | some sh =>
    rw [hs] at hc
    cases sh with
    | file c' =>
      cases exclusive
      · cases hc
        exact ⟨.inr ⟨c', rfl⟩, rfl⟩
      · cases hc
    | dir => cases exclusive <;> cases hc
    | symlink t => cases exclusive <;> cases hc

/-- **One call** writes its edit of what the working copy had. -/
theorem put_of_call {st : VirtualStat} (ht : containedTarget w.host root p = .ok h)
    (hx : exec (op.call root p) w = (.ok st, w')) :
    Writable w.host h ∧ ∃ fs, Put w.host fs h (op.edit.apply (fileBytes w.host h)) ∧
      restat root fs p = .ok st ∧ w' = marked { w with host := fs } p (.present st) := by
  cases op with
  | writeAt offset data =>
    obtain ⟨fs, hd, hst, rfl⟩ := disk_of_call hx
    have hspec := writeAtDisk_spec offset data ht
    cases hc : Posix.openedContent writeOptions (w.host.shape h) with
    | none =>
      rw [hc, hd] at hspec
      obtain ⟨k, fs', h0, -⟩ := hspec
      cases h0
    | some c =>
      rw [hc, hd] at hspec
      dsimp only at hspec
      split at hspec
      · obtain ⟨fs', h0, hput⟩ := hspec
        cases h0
        obtain ⟨hw, hbytes⟩ := opened_write hc
        exact ⟨hw, fs, by rw [hbytes]; exact hput, hst, rfl⟩
      · obtain ⟨k, fs', h0, -⟩ := hspec
        cases h0
  | createFile exclusive =>
    obtain ⟨fs, hd, hst, rfl⟩ := disk_of_call hx
    have hspec := createFileDisk_spec exclusive ht
    cases hc : Posix.openedContent (createOptions exclusive) (w.host.shape h) with
    | none =>
      rw [hc, hd] at hspec
      obtain ⟨k, fs', h0, -⟩ := hspec
      cases h0
    | some c =>
      rw [hc, hd] at hspec
      obtain ⟨fs', h0, hput⟩ := hspec
      cases h0
      obtain ⟨hw, rfl⟩ := opened_create hc
      exact ⟨hw, fs, hput, hst, rfl⟩
  | setLen size =>
    obtain ⟨fs, hd, hst, rfl⟩ := disk_of_call hx
    have hspec := setLenDisk_spec size ht
    rw [hd] at hspec
    split at hspec
    · rename_i c hs
      split at hspec
      · obtain ⟨fs', h0, hput⟩ := hspec
        cases h0
        have hbytes : fileBytes w.host h = c := by simp [fileBytes, hs]
        exact ⟨.inr ⟨c, hs⟩, fs, by rw [hbytes]; exact hput, hst, rfl⟩
      · obtain ⟨k, h0, -⟩ := hspec
        cases h0
    · cases hspec
    · obtain ⟨k, h0, -⟩ := hspec
      cases h0

/-- A content call fails when its path does not resolve. -/
theorem target_of_call {st : VirtualStat} (hx : exec (op.call root p) w = (.ok st, w')) :
    ∃ h, containedTarget w.host root p = .ok h := by
  cases ht : containedTarget w.host root p with
  | ok h => exact ⟨h, rfl⟩
  | error k =>
    have hfail : ∀ f : Posix.Path → DiskM Unit,
        exec (ofExcept (contentPath root · p) >>= f) w.host = (.error k, w.host) := by
      intro f
      rw [exec_bind, exec_ofExcept, contentPath, ht]
    cases op with
    | writeAt offset data =>
      obtain ⟨fs, hd, -⟩ := disk_of_call hx
      rw [writeAtDisk, hfail] at hd
      cases hd
    | createFile exclusive =>
      obtain ⟨fs, hd, -⟩ := disk_of_call hx
      rw [createFileDisk, hfail] at hd
      cases hd
    | setLen size =>
      obtain ⟨fs, hd, -⟩ := disk_of_call hx
      rw [setLenDisk, hfail] at hd
      cases hd

/-- The later calls of a sequence: each edits what the one before left. -/
theorem Holds.runOps {ops : List FileOp} (hh : Holds root p h e c w)
    (hx : exec (runOps root p ops) w = (.ok (), w')) :
    Holds root p h e (Content.applyEdits (ops.map FileOp.edit) c) w' := by
  induction ops generalizing w c with
  | nil =>
    cases hx
    exact hh
  | cons op ops ih =>
    obtain ⟨st, w₁, h1, h2⟩ := exec_bind_ok.mp hx
    obtain ⟨hw, fs, hput, hst, rfl⟩ := put_of_call hh.target h1
    have hbytes : fileBytes w.host h = c := by simp [fileBytes, hh.file]
    rw [hbytes] at hput
    exact ih (holds_of_put hh.target hh.entry hh.leaf hw hput hst) h2

/-- **A sequence of calls** leaves the working copy's file with all the edits. -/
theorem holds_of_runOps {ops : List FileOp}
    (hx : exec (KinVfs.runOps root p (op :: ops)) w = (.ok (), w')) :
    ∃ h e, containedTarget w.host root p = .ok h ∧ containedEntry w.host root p = .ok e ∧
      (e = h ∨ ∃ t, w.host.shape e = some (.symlink t)) ∧
      Holds root p h e (Content.applyEdits ((op :: ops).map FileOp.edit) (fileBytes w.host h))
        w' := by
  obtain ⟨st, w₁, h1, h2⟩ := exec_bind_ok.mp hx
  obtain ⟨h, ht⟩ := target_of_call h1
  obtain ⟨e, he, -, hleaf⟩ := containedEntry_of_target ht
  obtain ⟨hw, fs, hput, hst, rfl⟩ := put_of_call ht h1
  exact ⟨h, e, ht, he, hleaf, (holds_of_put ht he hleaf hw hput hst).runOps h2⟩

end Calls

/-! ## What the mount serves afterwards -/

section Serve

variable {root h e : Posix.Path} {p : VfsPath} {w : World} {c : Bytes} {graph : ContentProvider}

/-- The range the writer clamps to the file is the range of the byte array. -/
theorem slice_clamped {offset len : Nat} (hc : c.length ≤ u64Max) :
    Content.slice c (min offset c.length) (min (saturatingAdd offset len) c.length) =
      Content.slice c offset (offset + len) := by
  unfold Content.slice saturatingAdd
  by_cases ho : offset ≤ c.length
  · rw [Nat.min_eq_left ho]
    rw [List.take_eq_take_iff, List.length_drop]
    omega
  · rw [List.drop_eq_nil_of_le (by omega), List.drop_eq_nil_of_le (by omega), List.take_nil,
      List.take_nil]

theorem Holds.readStaged (hh : Holds root p h e c w) (offset len : Nat) :
    KinDaemonWriter.readStaged root w p offset len =
      .ok (Content.slice c offset (offset + len)) := by
  obtain ⟨nd, -, hst⟩ := hh.staged
  have hlen : c.length ≤ u64Max := by
    have := Fs.length_le_of_shape_file hh.file
    simp only [Posix.maxFileSize, u64Max] at this ⊢
    omega
  simp only [KinDaemonWriter.readStaged, hst, contentPath, hh.target,
    Posix.readFile_of_file hh.file, slice_clamped hlen]

/-- What the mount shows of `p` is the byte array `c`. -/
structure ShowsContent (graph : ContentProvider) (root : Posix.Path) (w : World) (p : VfsPath)
    (c : Bytes) : Prop where
  readFile : (overlay graph root w).readFile p = .ok c
  readRange : ∀ offset len,
    (overlay graph root w).readRange p offset len = .ok (Content.slice c offset (offset + len))
  stat : ∃ st, (overlay graph root w).stat p = .ok st ∧ st.size = c.length ∧
    st.isFile = true ∧ st.isDir = false ∧ st.isSymlink = false

/-- A path that is its own entry is shown with the bytes of its file. -/
theorem Holds.shows (hh : Holds root p h h c w) : ShowsContent graph root w p c := by
  obtain ⟨i, hn⟩ := Fs.shape_eq_file.mp hh.file
  obtain ⟨nd, hnd, hst⟩ := hh.staged
  rw [hn] at hnd
  cases hnd
  have hread := hh.readStaged
  refine ⟨?_, ?_, ?_⟩
  · simp only [overlay, WriteThroughProvider, WriteThroughProvider.readFile, view, hst, hread]
    have hsz : (statOf (.file i c)).size = c.length := rfl
    rw [hsz, Nat.zero_add, Content.slice_all c (Nat.le_refl _)]
  · intro offset len
    simp only [overlay, WriteThroughProvider, WriteThroughProvider.readRange, view, hst, hread]
  · exact ⟨statOf (.file i c), by simp only [overlay, WriteThroughProvider,
      WriteThroughProvider.stat, view, hst], rfl, rfl, rfl, rfl⟩

/-- A link stays shown as a link. -/
theorem Holds.shows_link {t d : Bytes} (hh : Holds root p h e c w)
    (hl : w.host.shape e = some (.symlink t)) : ¬ ShowsContent graph root w p d := by
  intro hs
  obtain ⟨i, hn⟩ := Fs.shape_eq_symlink.mp hl
  obtain ⟨nd, hnd, hst⟩ := hh.staged
  rw [hn] at hnd
  cases hnd
  obtain ⟨st, hstat, -, hfile, -⟩ := hs.stat
  simp only [overlay, WriteThroughProvider, WriteThroughProvider.stat, view, hst] at hstat
  cases hstat
  cases hfile

end Serve

/-- The entry of `p` in the working copy is a link. -/
def EntryIsLink (fs : Fs) (root : Posix.Path) (p : VfsPath) : Prop :=
  ∃ e t, containedEntry fs root p = .ok e ∧ fs.shape e = some (.symlink t)

/-- **When the mount reads its writes.** After calls on `p` that all succeeded, the mount shows the
byte array it served before with the same edits exactly when the entry of `p` in the working copy
is not a link, and what the working copy has there agrees with what was served as far as the edits
leave it. -/
theorem read_your_writes_iff (graph : ContentProvider) {root : Posix.Path} {p : VfsPath}
    {w w' : World} {op : FileOp} {ops : List FileOp}
    (hx : exec (runOps root p (op :: ops)) w = (.ok (), w')) :
    (∀ base, Served (overlay graph root w) root p base →
        ShowsContent graph root w' p (Content.applyEdits ((op :: ops).map FileOp.edit) base)) ↔
      ∀ base, Served (overlay graph root w) root p base →
        ¬ EntryIsLink w.host root p ∧
          ∀ h, containedTarget w.host root p = .ok h →
            Content.SameUnder ((op :: ops).map FileOp.edit) (fileBytes w.host h) base := by
  obtain ⟨h, e, ht, he, hleaf, hh⟩ := holds_of_runOps hx
  have hlink : EntryIsLink w.host root p ↔ ∃ t, w.host.shape e = some (.symlink t) := by
    constructor
    · rintro ⟨e', t, he', hl⟩
      rw [he] at he'
      cases he'
      exact ⟨t, hl⟩
    · rintro ⟨t, hl⟩
      exact ⟨e, t, he, hl⟩
  have hnot : ¬ EntryIsLink w.host root p ↔ e = h := by
    rw [hlink]
    constructor
    · intro hno
      exact hleaf.resolve_right hno
    · rintro rfl ⟨t, hl⟩
      exact (containedTarget_landed ht).2 t hl
  refine forall_congr' fun base => imp_congr_right fun _ => ?_
  rw [hnot]
  constructor
  · intro hs
    have heh : e = h := by
      rcases hh.leaf with h0 | ⟨t, hl⟩
      · exact h0
      · exact absurd hs (hh.shows_link hl)
    subst heh
    refine ⟨rfl, fun h' ht' => ?_⟩
    rw [ht] at ht'
    cases ht'
    have hread : (overlay graph root w').readFile p = _ := hh.shows.readFile
    rw [hs.readFile] at hread
    exact (Content.applyEdits_congr _ _ _).mp (Except.ok.inj hread).symm
  · rintro ⟨rfl, hsame⟩
    rw [← (Content.applyEdits_congr _ _ _).mpr (hsame e ht)]
    exact hh.shows

/-- A create and a write over a file the working copy lacks. -/
theorem read_your_writes_iff_recreate :
    ∃ w', exec (runOps [] Sample.a [.createFile false, .writeAt 0 [2]]) Sample.world =
        (.ok (), w') ∧
      ShowsContent Sample.graph [] w' Sample.a [2] := by
  have hok : fails (exec (runOps [] Sample.a [.createFile false, .writeAt 0 [2]])
      Sample.world).1 = false := by decide
  rcases hx : exec (runOps [] Sample.a [.createFile false, .writeAt 0 [2]]) Sample.world
    with ⟨k | u, w'⟩
  · rw [hx] at hok
    cases hok
  · have hserved : Served (overlay Sample.graph [] Sample.world) [] Sample.a [1] :=
      served_file (by decide) rfl rfl rfl rfl
    refine ⟨w', rfl, (read_your_writes_iff Sample.graph hx).mpr ?_ [1] hserved⟩
    intro base _
    refine ⟨?_, fun h _ => ⟨.inl rfl, fun i hi => by cases hi⟩⟩
    rintro ⟨e, t, he, hl⟩
    have he' : e = [[97]] := (Except.ok.inj he).symm
    rw [he'] at hl
    cases hl

/-- The mount serves the byte 1, the working copy lacks the file: a write behind that byte loses
it. -/
theorem lostPrefix_not_read :
    Served (overlay Sample.graph [] Sample.world) [] Sample.a [1] ∧
      ∃ w', exec (runOps [] Sample.a [.writeAt 1 [2]]) Sample.world = (.ok (), w') ∧
        (overlay Sample.graph [] w').readFile Sample.a = .ok [0, 2] ∧
        ¬ ShowsContent Sample.graph [] w' Sample.a (Content.applyEdits [.write 1 [2]] [1]) := by
  have hserved : Served (overlay Sample.graph [] Sample.world) [] Sample.a [1] :=
    served_file (by decide) rfl rfl rfl rfl
  have hread : (overlay Sample.graph []
      (exec (runOps [] Sample.a [.writeAt 1 [2]]) Sample.world).2).readFile Sample.a =
        .ok [0, 2] := by decide
  refine ⟨hserved, (exec (runOps [] Sample.a [.writeAt 1 [2]]) Sample.world).2, rfl, hread,
    fun h => ?_⟩
  have hexp := h.readFile
  rw [hread] at hexp
  cases hexp

end KinVfs
