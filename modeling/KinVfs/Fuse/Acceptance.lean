import KinVfs.Daemon.RenameSpec
import KinVfs.Fuse.Convergence

/-!
# When a change that the graph takes succeeds

The wait after a rename or a change of the mode hashes what the path leads to. A regular file has that hash
in the graph too; a directory has nothing to hash, so its rename fails and is undone although the graph took
it; and for a link the content of its target is hashed, not the target's name (`accepted_succeeds_iff`).
-/

namespace KinVfs.Fuse

open Posix (Fs)
open Fallible

variable {sha256 : Bytes → Hash256} {answers : Answers} {m m' : KinFuseFs} {fs fs' : Fs}
  {root e h : Posix.Path} {p q : VfsPath} {nd : Posix.Node}

/-- The wait for the path ends at every exact report of it: nothing or a file is projected there, or a link
that leads to a file whose content has the hash of the link's own target. -/
def Settled (sha256 : Bytes → Hash256) (fs : Fs) (root : Posix.Path) (p : VfsPath) : Prop :=
  match surface fs root p with
  | none | some (.file ..) => True
  | some (.dir ..) => False
  | some (.symlink _ t) => ∃ h c, containedTarget fs root p = .ok h ∧ fs.shape h = some (.file c) ∧
      sha256 c = sha256 t

theorem exists_described (sha256 : Bytes → Hash256) (node : Option Posix.Node) :
    ∃ r, Describes sha256 r node := by
  cases node with
  | none => exact ⟨.error (.notFound ""), _, rfl⟩
  | some nd =>
    cases nd with
    | file i c =>
      exact ⟨.ok (.regularFile 0 (sha256 c) (executable i.mode) 0), _, rfl, rfl, rfl,
        executable_regularFile _ _ _ _⟩
    | dir i k => exact ⟨.ok (.directory 0), _, rfl, rfl⟩
    | symlink i t => exact ⟨.ok (.symlink 0 (sha256 t) 0), _, rfl, rfl, rfl⟩

theorem holds_met {digest : Hash256} {st : VirtualStat} :
    (Expectation.holds digest).met (.ok st) = true ↔ st.contentHash = some digest := by
  simp [Expectation.met]

/-- An exact report ends the wait. -/
theorem taken_of_told (hl : WorkspaceWriter.checkLexical root p = .ok ()) (hset : Settled sha256 fs root p)
    (htold : Told sha256 answers.polls fs root p) : taken sha256 answers root p fs = .ok () := by
  obtain ⟨r, hin, hdesc⟩ := htold
  unfold Settled at hset
  cases hs : surface fs root p with
  | none =>
    rw [hs] at hdesc
    exact taken_of_poll (expectation_none hs) hin (absent_met.mpr hdesc)
  | some nd =>
    rw [hs] at hset hdesc
    cases nd with
    | file i c =>
      obtain ⟨st, rfl, -, hhash, -⟩ := hdesc
      exact taken_of_poll (expectation_file hl hs) hin (holds_met.mpr hhash)
    | dir i k => exact hset.elim
    | symlink i t =>
      obtain ⟨h, c, ht, hc, hsha⟩ := hset
      obtain ⟨st, rfl, -, hhash⟩ := hdesc
      have he : expectation sha256 root p fs = .ok (.holds (sha256 c)) := by
        rw [expectation_landed ((WorkspaceWriter.realPath_of_lexical hl).trans ht), hc]
      rw [← hsha] at hhash
      exact taken_of_poll he hin (holds_met.mpr hhash)

/-- And only then does every exact report end it. -/
theorem settled_of_taken (answers : Answers) (hl : WorkspaceWriter.checkLexical root p = .ok ())
    (h : ∀ r, Describes sha256 r (surface fs root p) →
      taken sha256 { answers with polls := [r] } root p fs = .ok ()) : Settled sha256 fs root p := by
  unfold Settled
  cases hs : surface fs root p with
  | none => trivial
  | some nd =>
    cases nd with
    | file i c => trivial
    | dir i k =>
      obtain ⟨r, hdesc⟩ := exists_described sha256 (surface fs root p)
      obtain ⟨expected, he, -⟩ := taken_ok (h r hdesc)
      rw [expectation_dir hl hs] at he
      cases he
    | symlink i t =>
      have hdesc : Describes sha256 (.ok (.symlink 0 (sha256 t) 0)) (surface fs root p) := by
        rw [hs]
        exact ⟨_, rfl, rfl, rfl⟩
      obtain ⟨expected, he, r, hin, hmet⟩ := taken_ok (h _ hdesc)
      obtain rfl := List.mem_singleton.mp hin
      cases hr : WorkspaceWriter.realPath root fs p with
      | error err =>
        rw [expectation_refused hr] at he
        cases he
        cases hmet
      | ok h =>
        rw [expectation_landed hr] at he
        cases hc : fs.shape h with
        | none =>
          rw [hc] at he
          cases he
          cases hmet
        | some sh =>
          rw [hc] at he
          cases sh with
          | file c =>
            cases he
            have hsha := holds_met.mp hmet
            rw [VirtualStat.symlink, Option.some.injEq] at hsha
            exact ⟨h, c, (WorkspaceWriter.realPath_ok.mp hr).2, hc, hsha.symm⟩
          | dir => cases he
          | symlink x => cases he

/-- A change of an entry's name or mode. -/
inductive NodeChange where
  | rename (parent : Nat) (name : Bytes) (newparent : Nat) (newname : Bytes)
  | setMode (ino mode : Nat)

namespace NodeChange

def op : NodeChange → Op
  | .rename parent name newparent newname => .rename parent name newparent newname
  | .setMode ino mode => .setattr ino (some mode) none rfl

/-- The host calls of the change succeed and leave `fs`. -/
def Applied (root : Posix.Path) (m : KinFuseFs) (fs : Fs) : NodeChange → List VfsPath → Prop
  | .rename .., [src, dst] => exec (WorkspaceWriter.rename root src dst) m.host = (.ok (), fs)
  | .setMode _ mode, [path] => exec (WorkspaceWriter.chmod root path (mode &&& 0o7777)) m.host = (.ok (), fs)
  | _, _ => False

/-- The graph comes to report the resulting tree before the deadline, and a mode change reads it once more. -/
def Accepted (sha256 : Bytes → Hash256) (answers : Answers) (root : Posix.Path) (m : KinFuseFs) (fs : Fs)
    (change : NodeChange) : Prop :=
  change.op.Reported sha256 answers root m fs ∧
    match change with
    | .rename .. => True
    | .setMode ino _ => ∀ path, m.pathFor ino = .ok path → Describes sha256 answers.attr (surface fs root path)

end NodeChange

/-- The entry a writer call resolves. -/
theorem entryPath_ok : WorkspaceWriter.entryPath root fs p = .ok e ↔
    WorkspaceWriter.checkLexical root p = .ok () ∧ containedEntry fs root p = .ok e := by
  unfold WorkspaceWriter.entryPath
  cases WorkspaceWriter.checkLexical root p <;> simp

/-- The mount's rename moves what the daemon's would: making the parents does not change the source. -/
theorem renamed_of_rename (hx : exec (WorkspaceWriter.rename root p q) fs = (.ok (), fs')) :
    ∃ fs₁ e t nd, Renamed root p q fs fs₁ fs' e t nd ∧ containedEntry fs root p = .ok e := by
  obtain ⟨e, fs₀, hx₀, hx⟩ := exec_bind_ok.mp hx
  rw [exec_ofExcept] at hx₀
  obtain ⟨he, rfl⟩ := Prod.mk.inj hx₀
  obtain ⟨t, fs₁, hx₁, hx⟩ := exec_bind_ok.mp hx
  rw [exec_ofExcept] at hx₁
  obtain ⟨ht, rfl⟩ := Prod.mk.inj hx₁
  obtain ⟨_, fs₂, hx₂, hmove⟩ := exec_bind_ok.mp hx
  have hsrc := (entryPath_ok.mp he).2
  have hdst := (entryPath_ok.mp ht).2
  have hgrown : Posix.Grown fs fs₂ t.dropLast := by
    rcases createParent_entry hdst with ⟨fs₃, hx₃, hg, -, -⟩ | hx₃
    · rw [hx₂] at hx₃
      cases hx₃
      exact hg
    · rw [hx₂] at hx₃
      cases hx₃
  have hdisk : exec (KinDaemonWriter.renameDisk root p q) fs = (.ok (), fs') := by
    refine exec_bind_ok.mpr ⟨t, fs, ?_, exec_bind_ok.mpr ⟨(), fs₂, hx₂, exec_bind_ok.mpr ⟨e, fs₂, ?_, hmove⟩⟩⟩
    · rw [exec_ofExcept]
      exact congrArg (·, fs) hdst
    · rw [exec_ofExcept]
      exact congrArg (·, fs₂) (grown_entry hgrown hsrc)
  obtain ⟨fs₃, e', t', nd, hren⟩ := renamed_of_ok hdisk
  have hgrown₃ := grown_entry hren.grown hsrc
  rw [hren.src] at hgrown₃
  cases hgrown₃
  exact ⟨fs₃, e, t', nd, hren, hsrc⟩

/-- A file is settled, and so is nothing. -/
theorem settled_of_file (h : ∀ nd, surface fs root p = some nd → nd.isFile = true) : Settled sha256 fs root p := by
  unfold Settled
  cases hs : surface fs root p with
  | none => trivial
  | some nd =>
    have hf := h nd hs
    cases nd with
    | file i c => trivial
    | dir i k => cases hf
    | symlink i t => cases hf

/-- Once it is moved, an entry that is no link is at the destination if anything is, and nothing is at the
source. -/
theorem surface_renamed {fs₁ : Fs} {t : Posix.Path} {p' q' : VfsPath} {n n' : VfsName}
    (hren : Renamed root (p'.join n) (q'.join n') fs fs₁ fs' e t nd) (hl : nd.isSymlink = false)
    (hne : e ≠ t) :
    surface fs' root (p'.join n) = none ∧ ∀ nd', surface fs' root (q'.join n') = some nd' → nd' = nd := by
  rcases hren.moved with ⟨heq, -⟩ | ⟨he, ht, hno, hrep, rfl⟩
  · exact absurd heq hne
  · have hk : Fs.Compat fs₁ (fs₁.moveEntry e t) := by
      refine hren.compat he ht hno hrep (fun _ _ => rfl) fun x y _ hy => ?_
      cases nd <;> simp_all [Posix.Node.shape, Posix.Node.isSymlink]
    have hbelow := hren.not_below hrep hno
    have hdir := Fs.shape_eq_dir.mp hren.dir
    constructor
    · cases hs : surface (fs₁.moveEntry e t) root (p'.join n) with
      | none => rfl
      | some nd' =>
        obtain ⟨e', he', hn'⟩ := surface_eq_some.mp hs
        obtain rfl := containedEntry_compat hk hren.src he' (shape_parent hren.node) (shape_parent hn')
        have hgone : (fs₁.moveEntry e t).shape e = none := by
          rw [Fs.shape_moveEntry he ht hno hdir, if_neg, if_pos]
          · exact List.isPrefixOf_iff_prefix.mpr List.prefix_rfl
          · exact fun hpre => hbelow (List.isPrefixOf_iff_prefix.mp hpre)
        rw [Fs.shape_eq_none, hn'] at hgone
        cases hgone
    · intro nd' hs
      obtain ⟨t', ht', hn'⟩ := surface_eq_some.mp hs
      have hdst := grown_entry hren.grown hren.dst
      obtain rfl := containedEntry_compat hk hdst ht' hren.dir (shape_parent hn')
      have hdrop : e.dropLast ≠ t := by
        rintro rfl
        exact hbelow (List.dropLast_prefix e)
      rw [Fs.node_moveEntry he ht hno hdir hdrop, hren.node] at hn'
      exact (Option.some.inj hn').symm

/-- A moved file is settled at both ends. -/
theorem settled_of_renamed {fs₁ : Fs} {t : Posix.Path} {p' q' : VfsPath} {n n' : VfsName}
    (hren : Renamed root (p'.join n) (q'.join n') fs fs₁ fs' e t nd) (hf : nd.isFile = true) :
    Settled sha256 fs' root (p'.join n) ∧ Settled sha256 fs' root (q'.join n') := by
  have hl : nd.isSymlink = false := by
    cases nd <;> simp_all [Posix.Node.isFile, Posix.Node.isSymlink]
  by_cases hne : e = t
  · subst hne
    rcases hren.moved with ⟨-, rfl⟩ | ⟨-, -, hno, -, -⟩
    · have hdst := grown_entry hren.grown hren.dst
      have hfile : ∀ x, containedEntry fs' root x = .ok e → Settled sha256 fs' root x := by
        intro x hx
        refine settled_of_file fun nd' hs => ?_
        simp only [surface, hx, hren.node, Option.some.injEq] at hs
        rwa [← hs]
      exact ⟨hfile _ hren.src, hfile _ hdst⟩
    · rw [List.isPrefixOf_iff_prefix.mpr List.prefix_rfl] at hno
      cases hno
  · obtain ⟨hsrc, hdst⟩ := surface_renamed hren hl hne
    refine ⟨settled_of_file fun nd' hs => ?_, settled_of_file fun nd' hs => ?_⟩
    · rw [hsrc] at hs
      cases hs
    · rwa [hdst nd' hs]

/-- The mode of a file does not make it anything else. -/
theorem settled_of_chmod {mode : Nat} (hn : surface fs root p = some nd) (hf : nd.isFile = true)
    (hx : exec (WorkspaceWriter.chmod root p mode) fs = (.ok (), fs')) : Settled sha256 fs' root p := by
  have hsame := WorkspaceWriter.chmod_same hx
  obtain ⟨e, he, hnode⟩ := surface_eq_some.mp hn
  refine settled_of_file fun nd' hs => ?_
  obtain ⟨e', he', hn'⟩ := surface_eq_some.mp hs
  rw [hsame.entry he] at he'
  cases he'
  have hshape := hsame e
  rw [Fs.shape, Fs.shape, hn', hnode] at hshape
  cases nd <;> cases nd' <;> simp_all [Posix.Node.isFile, Posix.Node.shape]

/-- Answers that say nothing but what the waits and the last stat get. -/
def Answers.only (polls pollsTo : List (VfsResult VirtualStat)) (attr : VfsResult VirtualStat) : Answers where
  stat := .error (.provider "")
  readFile := .error (.provider "")
  polls := polls
  pollsTo := pollsTo
  attr := attr

/-- An accepted rename succeeds exactly when both ends are settled. -/
theorem rename_succeeds_iff {parent newparent : Nat} {name newname : Bytes} (hm : Mounted m root)
    (hp : m.childOf parent name = .ok p) (hq : m.childOf newparent newname = .ok q)
    (hx : exec (WorkspaceWriter.rename root p q) m.host = (.ok (), fs)) :
    (∀ answers, Told sha256 answers.polls fs root p → Told sha256 answers.pollsTo fs root q →
        ∃ m', exec (rename sha256 answers parent name newparent newname) m = (.ok (), m') ∧ m'.host = fs) ↔
      Settled sha256 fs root p ∧ Settled sha256 fs root q := by
  have hrun : ∀ answers, (∃ m', exec (rename sha256 answers parent name newparent newname) m = (.ok (), m') ∧
      m'.host = fs) ↔ takenBoth sha256 answers root p q fs = .ok () := by
    intro answers
    constructor
    · rintro ⟨m', hren, -⟩
      obtain ⟨fs₁, hx₁, htaken, -⟩ := (Op.rename_ok hm hp hq).mp hren
      rw [hx] at hx₁
      cases hx₁
      exact htaken
    · intro htaken
      exact ⟨_, (Op.rename_ok hm hp hq).mpr ⟨fs, hx, htaken, rfl⟩, host_movePending⟩
  simp only [hrun, Op.takenBoth_ok]
  constructor
  · intro h
    obtain ⟨r₁, hr₁⟩ := exists_described sha256 (surface fs root p)
    obtain ⟨r₂, hr₂⟩ := exists_described sha256 (surface fs root q)
    have htold : ∀ r r', Describes sha256 r (surface fs root p) → Describes sha256 r' (surface fs root q) →
        taken sha256 (.only [r] [r'] (.error (.provider ""))) root p fs = .ok () ∧
          taken sha256 (.only [r'] [r'] (.error (.provider ""))) root q fs = .ok () :=
      fun r r' hr hr' => h (.only [r] [r'] (.error (.provider ""))) ⟨r, by simp [Answers.only], hr⟩
        ⟨r', by simp [Answers.only], hr'⟩
    constructor
    · exact settled_of_taken (.only [] [r₂] (.error (.provider ""))) (hm.lexical hp)
        fun r hr => (htold r r₂ hr hr₂).1
    · exact settled_of_taken (.only [] [] (.error (.provider ""))) (hm.lexical hq)
        fun r hr => (htold r₁ r hr₁ hr).2
  · rintro ⟨hp', hq'⟩ answers h₁ h₂
    exact ⟨taken_of_told (hm.lexical hp) hp' h₁, taken_of_told (hm.lexical hq) hq' h₂⟩

/-- An accepted change of the mode succeeds exactly when the path is settled. -/
theorem setMode_succeeds_iff {ino mode : Nat} (hm : Mounted m root) (hp : m.pathFor ino = .ok p)
    (hx : exec (WorkspaceWriter.chmod root p (mode &&& 0o7777)) m.host = (.ok (), fs)) :
    (∀ answers, Told sha256 answers.polls fs root p → Describes sha256 answers.attr (surface fs root p) →
        ∃ m', exec ((Op.setattr ino (some mode) none rfl).perform sha256 answers) m = (.ok (), m') ∧
          m'.host = fs) ↔
      Settled sha256 fs root p := by
  have hlex : WorkspaceWriter.checkLexical root p = .ok () := by
    obtain ⟨h, hr, -, -⟩ := WorkspaceWriter.real_of_ok hx
    exact (WorkspaceWriter.realPath_ok.mp hr).1
  have hbefore : ∀ answers, exec ((Op.setattr ino (some mode) none rfl).beforeWait answers root) m =
      (.ok p, { m with host := fs }) := by
    intro answers
    simp only [Op.beforeWait, setSize, setMode, exec_bind, exec_ofExcept, hp, exec_pure, exec_disk, hx]
  have hfails : ∀ answers errno, taken sha256 answers root p fs = .error errno →
      exec ((Op.setattr ino (some mode) none rfl).perform sha256 answers) m = (.error errno, { m with host := fs }) := by
    intro answers errno ht
    rw [Op.perform_single hm (show (Op.setattr ino (some mode) none rfl).Single m from trivial), exec_bind, hbefore]
    dsimp only
    rw [exec_bind, exec_converge, ht]
  have hgoes : ∀ answers, taken sha256 answers root p fs = .ok () →
      exec ((Op.setattr ino (some mode) none rfl).perform sha256 answers) m =
        exec ((Op.setattr ino (some mode) none rfl).afterWait answers p) { m with host := fs } := by
    intro answers ht
    rw [Op.perform_single hm (show (Op.setattr ino (some mode) none rfl).Single m from trivial), exec_bind, hbefore]
    dsimp only
    rw [exec_bind, exec_converge, ht]
  constructor
  · intro h
    obtain ⟨r₀, hr₀⟩ := exists_described sha256 (surface fs root p)
    refine settled_of_taken (.only [] [] r₀) hlex fun r hr => ?_
    obtain ⟨m', hm', -⟩ := h (.only [r] [] r₀) ⟨r, by simp [Answers.only], hr⟩ hr₀
    cases ht : taken sha256 (.only [r] [] r₀) root p fs with
    | error errno =>
      rw [hfails _ errno ht] at hm'
      cases hm'
    | ok u => exact ht
  · intro hset answers htold hattr
    have hsome := (WorkspaceWriter.chmod_leads hx).surface
    obtain ⟨st, hst⟩ : ∃ st, answers.attr = .ok st := by
      cases hs : surface fs root p with
      | none => exact absurd hs hsome
      | some nd =>
        rw [hs] at hattr
        cases nd with
        | file i c => exact ⟨hattr.choose, hattr.choose_spec.1⟩
        | dir i k => exact ⟨hattr.choose, hattr.choose_spec.1⟩
        | symlink i t => exact ⟨hattr.choose, hattr.choose_spec.1⟩
    refine ⟨{ m with host := fs, inodes := (m.inodes.getOrInsert p).2 }, ?_, rfl⟩
    rw [hgoes answers (taken_of_told hlex hset htold)]
    simp only [Op.afterWait, attrForPath, exec_bind, exec_get, hst, inodeOf, exec_set, exec_pure]

/-- **When an accepted change succeeds.** The graph comes to report the resulting tree and the host calls
succeed; then the reply is a success and the change stays exactly when the entry is a regular file, or in the
resulting tree no path of the change is a directory and a link there leads to a file that has its hash. -/
theorem accepted_succeeds_iff {change : NodeChange} {x : VfsPath} {xs : List VfsPath} (hm : Mounted m root)
    (hpaths : change.op.paths m = .ok (x :: xs)) (hn : surface m.host root x = some nd)
    (happ : change.Applied root m fs (x :: xs)) :
    (∀ answers, change.Accepted sha256 answers root m fs →
        ∃ m', exec (change.op.perform sha256 answers) m = (.ok (), m') ∧ m'.host = fs) ↔
      nd.isFile = true ∨ ∀ y ∈ x :: xs, Settled sha256 fs root y := by
  cases change with
  | rename parent name newparent newname =>
    obtain ⟨y, rfl⟩ : ∃ y, xs = [y] := by
      cases xs with
      | nil => cases happ
      | cons y ys =>
        cases ys with
        | nil => exact ⟨y, rfl⟩
        | cons => cases happ
    have hpath : m.childOf parent name = .ok x ∧ m.childOf newparent newname = .ok y := by
      simp only [NodeChange.op, Op.paths] at hpaths
      cases hp : m.childOf parent name with
      | error errno =>
        rw [hp] at hpaths
        cases hpaths
      | ok src =>
        cases hq : m.childOf newparent newname with
        | error errno =>
          rw [hp, hq] at hpaths
          cases hpaths
        | ok dst =>
          rw [hp, hq] at hpaths
          cases hpaths
          exact ⟨rfl, rfl⟩
    obtain ⟨hp, hq⟩ := hpath
    have hacc : ∀ answers, (NodeChange.rename parent name newparent newname).Accepted sha256 answers root m fs ↔
        Told sha256 answers.polls fs root x ∧ Told sha256 answers.pollsTo fs root y := by
      intro answers
      simp only [NodeChange.Accepted, Op.Reported, hpaths, Except.ok.injEq, forall_eq', and_true]
      simp
    simp only [hacc, and_imp]
    have hfile : nd.isFile = true → Settled sha256 fs root x ∧ Settled sha256 fs root y := by
      intro hf
      obtain ⟨fs₁, e, t, nd', hren, he⟩ := renamed_of_rename happ
      obtain ⟨e', he', hn'⟩ := surface_eq_some.mp hn
      obtain ⟨rfl, rfl⟩ := hren.source he' hn'
      obtain ⟨p', n, -, -, rfl⟩ := childOf_ok hp
      obtain ⟨q', n', -, -, rfl⟩ := childOf_ok hq
      exact settled_of_renamed hren hf
    refine (rename_succeeds_iff hm hp hq happ).trans ?_
    simp only [List.mem_cons, List.not_mem_nil, or_false, forall_eq_or_imp, forall_eq]
    exact ⟨.inr, fun h => h.elim hfile id⟩
  | setMode ino mode =>
    obtain rfl : xs = [] := by
      cases xs with
      | nil => rfl
      | cons => cases happ
    have hp : m.pathFor ino = .ok x := by
      simp only [NodeChange.op, Op.paths] at hpaths
      cases hp : m.pathFor ino with
      | error errno =>
        rw [hp] at hpaths
        cases hpaths
      | ok path =>
        rw [hp] at hpaths
        cases hpaths
        rfl
    have hacc : ∀ answers, (NodeChange.setMode ino mode).Accepted sha256 answers root m fs ↔
        Told sha256 answers.polls fs root x ∧ Describes sha256 answers.attr (surface fs root x) := by
      intro answers
      simp only [NodeChange.Accepted, Op.Reported, hpaths, hp, Except.ok.injEq, forall_eq']
      simp
    simp only [hacc, and_imp]
    refine (setMode_succeeds_iff hm hp happ).trans ?_
    simp only [List.mem_singleton, forall_eq]
    exact ⟨.inr, fun h => h.elim (fun hf => settled_of_chmod hn hf happ) id⟩

namespace Sample

/-- The path `b`. -/
def moved : VfsPath := KinVfs.Sample.b

/-- `rename("a", "b")` in the root of the mount. -/
def rename : NodeChange := .rename 1 [97] 1 [98]

/-- A mount over `/w` with the directory `a`, made by the mount or checked out. -/
def surfaceDir : KinFuseFs :=
  { mount with host := mount.host.addEntry [[119], [97]] (.dir ⟨0o755, 0⟩ 0) }

/-- The surface after the host calls of the rename. -/
def afterRename (m : KinFuseFs) : Fs := (exec (WorkspaceWriter.rename [[119]] file moved) m.host).2

theorem rename_applied {m : KinFuseFs}
    (h : (exec (WorkspaceWriter.rename [[119]] file moved) m.host).1.isOk = true) :
    rename.Applied [[119]] m (afterRename m) [file, moved] := by
  show exec (WorkspaceWriter.rename [[119]] file moved) m.host = (.ok (), afterRename m)
  refine Prod.ext ?_ rfl
  cases hx : (exec (WorkspaceWriter.rename [[119]] file moved) m.host).1 with
  | error e =>
    rw [hx] at h
    cases h
  | ok u => rfl

/-- The graph has taken the rename of the file. -/
def movedFile : Answers :=
  .only [.error (.notFound "a")] [.ok (.regularFile 1 (.replicate 32 0) false 0)] (.error (.provider ""))

/-- The graph has taken the rename of the directory. -/
def movedDir : Answers := .only [.error (.notFound "a")] [.ok (.directory 0)] (.error (.provider ""))

theorem rename_accepted {m : KinFuseFs} {answers : Answers} {fs : Fs}
    (hpaths : rename.op.paths m = .ok [file, moved])
    (hsrc : ∃ r ∈ answers.polls, Describes (fun _ => Vector.replicate 32 0) r (surface fs [[119]] file))
    (hdst : ∃ r ∈ answers.pollsTo, Describes (fun _ => Vector.replicate 32 0) r (surface fs [[119]] moved)) :
    rename.Accepted (fun _ => Vector.replicate 32 0) answers [[119]] m fs := by
  refine ⟨fun paths hp x hin => ?_, trivial⟩
  rw [hpaths] at hp
  cases hp
  simp only [List.zip_cons_cons, List.zip_nil_left, List.mem_cons, List.not_mem_nil, or_false] at hin
  rcases hin with rfl | rfl
  · exact hsrc
  · exact hdst

end Sample

theorem accepted_succeeds_iff_file :
    ∃ m', exec (Sample.rename.op.perform (fun _ => Vector.replicate 32 0) Sample.movedFile) Sample.checkedOut =
        (.ok (), m') ∧ m'.host = Sample.afterRename Sample.checkedOut := by
  have hn : surface Sample.checkedOut.host [[119]] Sample.file = some (.file ⟨0o644, 0⟩ [1]) := by decide +kernel
  have hsrc : surface (Sample.afterRename Sample.checkedOut) [[119]] Sample.file = none := by decide +kernel
  have hdst : surface (Sample.afterRename Sample.checkedOut) [[119]] Sample.moved =
      some (.file ⟨0o644, 0⟩ [1]) := by decide +kernel
  refine (accepted_succeeds_iff Sample.checkedOut_mounted (by rfl) hn
    (Sample.rename_applied (by decide +kernel))).mpr (.inl rfl) Sample.movedFile
    (Sample.rename_accepted (by rfl) ?_ ?_)
  · rw [hsrc]
    exact ⟨_, List.mem_singleton.mpr rfl, _, rfl⟩
  · rw [hdst]
    exact ⟨_, List.mem_singleton.mpr rfl, _, rfl, rfl, rfl, by decide⟩

/-- The graph takes the rename of a directory, and the mount undoes it. -/
theorem renamed_directory_refused :
    Sample.rename.Applied [[119]] Sample.surfaceDir (Sample.afterRename Sample.surfaceDir)
        [Sample.file, Sample.moved] ∧
      Sample.rename.Accepted (fun _ => Vector.replicate 32 0) Sample.movedDir [[119]] Sample.surfaceDir
        (Sample.afterRename Sample.surfaceDir) ∧
      (exec (Sample.rename.op.perform (fun _ => Vector.replicate 32 0) Sample.movedDir) Sample.surfaceDir).1 =
        .error .isdir ∧
      surface (exec (Sample.rename.op.perform (fun _ => Vector.replicate 32 0) Sample.movedDir)
        Sample.surfaceDir).2.host [[119]] Sample.file = some (.dir ⟨0o755, 0⟩ 0) := by
  have hsrc : surface (Sample.afterRename Sample.surfaceDir) [[119]] Sample.file = none := by decide +kernel
  have hdst : surface (Sample.afterRename Sample.surfaceDir) [[119]] Sample.moved =
      some (.dir ⟨0o755, 0⟩ 0) := by decide +kernel
  refine ⟨Sample.rename_applied (by decide +kernel), Sample.rename_accepted (by rfl) ?_ ?_,
    by decide +kernel, by decide +kernel⟩
  · rw [hsrc]
    exact ⟨_, List.mem_singleton.mpr rfl, _, rfl⟩
  · rw [hdst]
    exact ⟨_, List.mem_singleton.mpr rfl, _, rfl, rfl⟩

end KinVfs.Fuse
