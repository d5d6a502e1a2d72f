import KinVfs.Lib.Runs
import KinVfs.Lib.TwoRuns
import KinVfs.Shim.Descriptor
import KinVfs.Shim.ProcessSpec

/-!
# What the disk held before is not seen

Two processes that differ in their disks run the same calls. As long as no host call of the shim fails,
they get the same replies, whatever the disks hold (`replies_agree`), provided no call leaves the graph:

* no path has `.kin_tmp_` in it (it goes to the kernel);
* a path that is opened with `O_CREAT` is one the graph holds (else the kernel creates it, or finds what
  is there);
* a path that is opened for writing ends in a name (the temp file of `f/` is not cleaned up);
* no relative path starts at a descriptor of the kernel (the host says where that is).

The relation `Alike` of the two runs is that the shim's state and what the descriptors show are the same.
-/

namespace KinVfs

open Fallible
open Posix (Fs)

/-- The two processes show the same. -/
structure Alike (s t : Process) : Prop where
  shim : s.shim = t.shim
  views : s.views = t.views
  env : s.disk.env = t.disk.env
  backed : s.Backed

theorem Alike.backed' {s t : Process} (h : Alike s t) : t.Backed := h.backed.of_views h.views.symm

/-- A host call of the shim failed. -/
def IsIo (e : Fault) : Prop := ∃ kind, e = .io kind

/-- The absolute path that an argument is read as: `..` is folded lexically. -/
def readingOf (path : Bytes) (base : Option Bytes) : Option Bytes :=
  (joinedPath path base).bind fun joined =>
    if (joined.splitOn slash).contains [dot, dot] then normalizeKernelPath joined else some joined

section Condition

variable (g : ContentProvider) (roots : List Bytes) (root : Bytes) (strict : Bool) (cwd : Bytes)
  (pid : Int)

/-- The path argument is one of the workspace. -/
def OnWorkspace (s : Process) (at_ : At) (path : Bytes) : Prop :=
  ∀ base, atBase cwd s at_ path = some base → ∃ p, readingOf path base = some p ∧ InWorkspace roots p

/-- The path argument of the call, if it has one, is of the workspace. -/
def SysCall.OnWorkspace (s : Process) : SysCall → Prop
  | .open path _ | .stat path | .lstat path | .access path _ | .readlink path _ =>
    KinVfs.OnWorkspace roots cwd s .cwd path
  | .openat dir path _ => KinVfs.OnWorkspace roots cwd s dir path
  | .read .. | .pread .. | .lseek .. | .fstat _ | .getdents64 .. | .close _ => True

/-- The path has no temp name in it and does not start at a descriptor of the kernel. -/
structure Kept (s : Process) (at_ : At) (path : Bytes) : Prop where
  unmarked : ∀ base p, atBase cwd s at_ path = some base → readingOf path base = some p →
    isInterposeTempArtifact p = false
  virtual : ∀ n, at_ = .fd n → path.head? ≠ some slash → n < s.shim.table.base → s.files.get? n = none

/-- The graph does not say that it has no file there. -/
def GraphHolds (p : Bytes) : Prop :=
  ∀ key e, graphRequestKey roots p = some key → g.readFile key = .error e → e.failure ≠ .notFound

/-- What is opened for writing ends in a name, and what is to be created is there already. -/
def OpenKept (s : Process) (at_ : At) (path : Bytes) (flags : OpenFlags) : Prop :=
  ∀ base p, atBase cwd s at_ path = some base → readingOf path base = some p →
    isWriteFlags flags = true → endsInName p = true ∧ (flags.creat = true → GraphHolds g roots p)

/-- The call does not leave the graph. -/
def SysCall.Contained (s : Process) : SysCall → Prop
  | .open path flags => Kept cwd s .cwd path ∧ OpenKept g roots cwd s .cwd path flags
  | .openat dir path flags => Kept cwd s dir path ∧ OpenKept g roots cwd s dir path flags
  | .stat path | .lstat path | .access path _ | .readlink path _ => Kept cwd s .cwd path
  | .read .. | .pread .. | .lseek .. | .fstat _ | .getdents64 .. | .close _ => True

/-- The process after a call. -/
def Process.after (s : Process) (call : SysCall) : Option Process :=
  some (exec (syscall g roots root strict cwd pid call) s).2

end Condition

variable {g : ContentProvider} {roots : List Bytes} {root : Bytes} {strict : Bool} {cwd : Bytes}
  {pid : Int} {s t : Process} {α : Type}

/-! ## The path argument -/

/-- A path of the workspace is taken as it reads or refused, on every disk. -/
theorem resolve_settled {path p : Bytes} {base : Option Bytes} (h : readingOf path base = some p)
    (hp : isWorkspacePath roots p = true) :
    (∀ fs, resolveHostPathFromWith fs path base (isWorkspacePath roots) = .resolved p) ∨
      ∀ fs, resolveHostPathFromWith fs path base (isWorkspacePath roots) = .refused := by
  unfold readingOf at h
  unfold resolveHostPathFromWith
  cases hj : joinedPath path base with
  | none =>
    rw [hj] at h
    cases h
  | some joined =>
    rw [hj] at h
    simp only [Option.bind_some] at h
    dsimp only
    by_cases hup : (joined.splitOn slash).contains [dot, dot] = true
    · have hdots : ¬ (!(joined.splitOn slash).contains [dot, dot]) = true := by
        rw [hup]
        decide
      rw [if_pos hup] at h
      by_cases hlead : leadingOnly path = true
      · refine .inl fun fs => ?_
        rw [if_neg hdots, if_pos hlead, h]
      · refine .inr fun fs => ?_
        rw [if_neg hdots, if_neg hlead, h, ambiguousTraversalResolution]
        simp [hp]
    · have hdots : (!(joined.splitOn slash).contains [dot, dot]) = true := by
        rw [Bool.eq_false_iff.mpr hup]
        decide
      rw [if_neg hup] at h
      cases h
      refine .inl fun fs => ?_
      rw [if_pos hdots]

theorem views_get? (s : Process) (fd : Nat) :
    s.views.get? fd = (s.files.get? fd).map (OpenFile.seen s.disk) := Slots.get?_mapSome _ _ _

/-- Both runs start a relative path in the same directory. -/
theorem atBase_alike {at_ : At} {path : Bytes} (h : Alike s t) (hk : Kept cwd s at_ path) :
    atBase cwd t at_ path = atBase cwd s at_ path := by
  unfold atBase
  by_cases habs : path.head? = some slash
  · rw [if_pos habs, if_pos habs]
  · rw [if_neg habs, if_neg habs]
    cases at_ with
    | cwd => rfl
    | fd n =>
      dsimp only
      rw [← h.shim]
      by_cases hbase : s.shim.table.base ≤ n
      · rw [if_pos hbase, if_pos hbase]
      · rw [if_neg hbase, if_neg hbase]
        have hs := hk.virtual n rfl habs (by omega)
        have ht : t.files.get? n = none := by
          have hview := views_get? t n
          rw [← h.views, views_get?, hs] at hview
          exact Option.map_eq_none_iff.mp hview.symm
        rw [hs, ht]

/-- Both runs resolve the path alike, to one the hook answers. -/
theorem resolveAtPath_alike {at_ : At} {path : Bytes} (h : Alike s t)
    (hon : OnWorkspace roots cwd s at_ path) (hk : Kept cwd s at_ path) :
    resolveAtPath roots cwd t at_ path = resolveAtPath roots cwd s at_ path ∧
      ((∃ base p, atBase cwd s at_ path = some base ∧ readingOf path base = some p ∧
          isWorkspacePath roots p = true ∧ resolveAtPath roots cwd s at_ path = .resolved p) ∨
        resolveAtPath roots cwd s at_ path = .refused ∨
        resolveAtPath roots cwd s at_ path = .invalidDescriptor) := by
  unfold resolveAtPath
  rw [atBase_alike h hk]
  cases hbase : atBase cwd s at_ path with
  | none => exact ⟨rfl, .inr (.inr rfl)⟩
  | some base =>
    obtain ⟨p, hread, hin⟩ := hon base hbase
    have hp : isWorkspacePath roots p = true := by
      unfold isWorkspacePath
      rw [if_neg (by simp [hk.unmarked base p hbase hread])]
      exact hin
    dsimp only [resolveHostPathFrom]
    rcases resolve_settled hread hp with hres | hres
    · rw [hres, hres]
      exact ⟨rfl, .inl ⟨base, p, rfl, hread, hp, rfl⟩⟩
    · rw [hres, hres]
      exact ⟨rfl, .inr (.inl rfl)⟩

/-! ## What each hook needs -/

theorem Alike.setShim (h : Alike s t) (shim : Shim) : Alike { s with shim := shim } { t with shim := shim } :=
  ⟨rfl, h.views, h.env, h.backed⟩

/-- A hook that needs the shim's own state only. -/
theorem couples_hook (x : HookM α) : Couples IsIo Alike (hook x) (hook x) Alike :=
  couples_zoom x fun _ _ h => ⟨h.shim, h.setShim⟩

/-- A hook with a path argument, when its answer for the path that is read agrees. -/
theorem couples_withPath {at_ : At} {path : Bytes} {answer realCall : Bytes → ProcM α}
    {C : Process → Prop}
    (h : ∀ s base p, C s → atBase cwd s at_ path = some base → readingOf path base = some p →
      isWorkspacePath roots p = true → Couples IsIo Alike (answer p) (answer p) Alike) :
    Couples IsIo (fun s t => Alike s t ∧ OnWorkspace roots cwd s at_ path ∧ Kept cwd s at_ path ∧ C s)
      (withPath roots cwd at_ path answer realCall) (withPath roots cwd at_ path answer realCall)
      Alike := by
  refine Couples.read fun s t ⟨hst, hon, hk, hC⟩ => ?_
  obtain ⟨hsame, hres⟩ := resolveAtPath_alike hst hon hk
  rw [hsame]
  have hstart : ∀ s' t', s' = s ∧ t' = t → Alike s' t' := by
    rintro _ _ ⟨rfl, rfl⟩
    exact hst
  rcases hres with ⟨base, p, hbase, hread, hp, hres⟩ | hres | hres
  · rw [hres]
    dsimp only
    rw [if_pos hp]
    exact (h s base p hC hbase hread hp).weaken hstart fun _ _ h => h
  · rw [hres]
    exact couples_throw _ hstart
  · rw [hres]
    exact couples_throw _ hstart

/-- A call on a descriptor of the kernel, from what the descriptor shows. -/
theorem onFile_shown (fd : Nat) (f : Seen → Except Fault (α × Nat)) (s : Process) :
    ((exec (onFile fd f) s).1, (exec (onFile fd f) s).2.views) =
      (match s.views.get? fd with
      | none => (.error (.errno .ebadf), s.views)
      | some v =>
        match f v with
        | .ok (a, offset) => (.ok a, s.views.put fd (some { v with offset := offset }))
        | .error e => (.error e, s.views)) ∧
      (exec (onFile fd f) s).2.shim = s.shim ∧ (exec (onFile fd f) s).2.disk = s.disk := by
  rw [onFile, exec_bind, exec_requireFile, views_get?]
  cases hfile : s.files.get? fd with
  | none => exact ⟨rfl, rfl, rfl⟩
  | some file =>
    dsimp only [Option.map_some]
    rw [exec_bind, exec_get]
    dsimp only
    cases hf : f (file.seen s.disk) with
    | error e => exact ⟨rfl, rfl, rfl⟩
    | ok found =>
      refine ⟨Prod.ext rfl ?_, rfl, rfl⟩
      show (s.files.put fd (some { file with offset := found.2 })).mapSome (OpenFile.seen s.disk) = _
      rw [Slots.put_mapSome]
      rfl

theorem couples_onFile (fd : Nat) (f : Seen → Except Fault (α × Nat)) :
    Couples IsIo Alike (onFile fd f) (onFile fd f) Alike := by
  intro s t hst _ _
  obtain ⟨hs, hshim, hdisk⟩ := onFile_shown fd f s
  obtain ⟨ht, hshim', hdisk'⟩ := onFile_shown fd f t
  rw [← hst.views, ← hs] at ht
  obtain ⟨hr, hviews⟩ := Prod.mk.inj ht
  refine ⟨hr.symm, by rw [hshim, hshim', hst.shim], hviews.symm, by rw [hdisk, hdisk', hst.env], ?_⟩
  have hseen := backed_iff.mp hst.backed
  have hs₂ := congrArg Prod.snd hs
  rw [backed_iff]
  dsimp only at hs₂ ⊢
  rw [hs₂]
  cases hget : s.views.get? fd with
  | none => exact hseen
  | some v =>
    dsimp only
    cases f v with
    | error e => exact hseen
    | ok found =>
      intro w hw
      rcases Slots.mem_put hw with hw | hw
      · exact hseen w hw
      · cases hw
        exact hseen v (Slots.mem_of_get? hget)

theorem couples_realPread (fd count : Nat) (offset : Int) :
    Couples IsIo Alike (realPread fd count offset) (realPread fd count offset) Alike := by
  unfold realPread
  split
  · exact couples_throw _ fun _ _ h => h
  · exact couples_onFile _ _

/-- The outcome is the same when it is a function of the shim's state, of the views and of what the host
gives new files. -/
theorem couples_of_shown {x : ProcM α}
    (shown : Posix.Env → Shim → Slots Seen → Except Fault α × Shim × Slots Seen)
    (h : ∀ s, s.Backed → Fair IsIo (exec x s).1 →
      ((exec x s).1, (exec x s).2.shim, (exec x s).2.views) = shown s.disk.env s.shim s.views ∧
        (exec x s).2.disk.env = s.disk.env ∧ (exec x s).2.Backed) :
    Couples IsIo Alike x x Alike := by
  intro s t hst hs ht
  obtain ⟨hshown, henv, hb⟩ := h s hst.backed hs
  obtain ⟨hshown', henv', -⟩ := h t hst.backed' ht
  rw [← hst.shim, ← hst.views, ← hst.env, ← hshown] at hshown'
  obtain ⟨hr, hrest⟩ := Prod.mk.inj hshown'
  obtain ⟨hshim, hviews⟩ := Prod.mk.inj hrest
  exact ⟨hr.symm, hshim.symm, hviews.symm, by rw [henv, henv', hst.env], hb⟩

theorem couples_close (fd : Nat) : Couples IsIo Alike (close fd) (close fd) Alike := by
  refine couples_of_shown (fun _ => shownClose fd) fun s hb hfair => ?_
  exact close_shown hb rfl fun e he => hfair _ he ⟨e, rfl⟩

/-- The answer to the seeding read says why there is no file only when the graph said so. -/
theorem seedAnswer_holds {p : Bytes} (hp : isWorkspacePath roots p = true) (h : GraphHolds g roots p)
    (shim : Shim) (hnone : (seedAnswer g roots p shim).1 = none) :
    (seedAnswer g roots p shim).2.failure ≠ .notFound := by
  have hin : (workspaceGraphKeyFromRoots p roots).isOk = true := by
    unfold isWorkspacePath at hp
    split at hp
    · cases hp
    · exact hp
  cases hkey : workspaceGraphKeyFromRoots p roots with
  | error e =>
    rw [hkey] at hin
    cases hin
  | ok key =>
    have hreq : graphRequestKey roots p = some key := by
      rw [graphRequestKey, hkey]
      rfl
    have hanswer : seedAnswer g roots p shim = clientAnswer (g.readFile key) := by
      unfold seedAnswer graphReadFile graphCall
      rw [hreq]
      rfl
    rw [hanswer] at hnone ⊢
    cases hread : g.readFile key with
    | ok bytes =>
      rw [hread] at hnone
      cases hnone
    | error e => exact h key e hreq hread

theorem couples_openWrite {at_ : At} {given : Bytes} {flags : OpenFlags} {p : Bytes}
    (hp : isWorkspacePath roots p = true) (hends : endsInName p = true)
    (hholds : flags.creat = true → GraphHolds g roots p) :
    Couples IsIo Alike (openWrite g roots strict pid at_ given flags p)
      (openWrite g roots strict pid at_ given flags p) Alike := by
  refine couples_of_shown (fun env => shownOpenWrite g roots strict pid env flags p) fun s hb hfair => ?_
  refine openWrite_shown hb hends (fun hcreat hnone => ?_) rfl fun e he => hfair _ he ⟨e, rfl⟩
  exact seedAnswer_holds hp (hholds hcreat) s.shim hnone

theorem couples_openAt {at_ : At} {path : Bytes} {flags : OpenFlags} :
    Couples IsIo
      (fun s t => Alike s t ∧ OnWorkspace roots cwd s at_ path ∧ Kept cwd s at_ path ∧
        OpenKept g roots cwd s at_ path flags)
      (openAt g roots root strict cwd pid at_ path flags)
      (openAt g roots root strict cwd pid at_ path flags) Alike := by
  refine couples_withPath fun s base p hkept hbase hread hp => ?_
  by_cases hw : isWriteFlags flags = true
  · rw [if_pos hw]
    obtain ⟨hends, hholds⟩ := hkept base p hbase hread hw
    exact couples_openWrite hp hends hholds
  · rw [if_neg hw]
    exact couples_hook _

/-- A call on a descriptor, virtual or the kernel's. -/
theorem couples_onFd {fd : Nat} {virtual : HookM α} {realCall : ProcM α}
    (h : Couples IsIo Alike realCall realCall Alike) :
    Couples IsIo Alike (onFd fd virtual realCall) (onFd fd virtual realCall) Alike := by
  refine Couples.read fun s t hst => ?_
  have hstart : ∀ s' t', s' = s ∧ t' = t → Alike s' t' := by
    rintro _ _ ⟨rfl, rfl⟩
    exact hst
  rw [← hst.shim]
  by_cases hfd : fd < s.shim.table.base
  · rw [if_pos hfd]
    exact h.weaken hstart fun _ _ h => h
  · rw [if_neg hfd]
    exact (couples_hook virtual).weaken hstart fun _ _ h => h

theorem couples_realGetdents64 (fd : Nat) :
    Couples IsIo Alike (realGetdents64 fd) (realGetdents64 fd) Alike := by
  refine couples_of_shown (fun _ shim views => (match views.get? fd with
    | some _ => .error (.real .notADirectory)
    | none => .error (.errno .ebadf), shim, views)) fun s hb _ => ?_
  rw [realGetdents64, exec_bind, exec_requireFile, views_get?]
  cases s.files.get? fd <;> exact ⟨rfl, rfl, hb⟩

theorem couples_reply {β : Type} {P : Process → Process → Prop} {x : ProcM α} (f : α → β)
    (h : Couples IsIo P x x Alike) :
    Couples IsIo P (do return f (← x)) (do return f (← x)) Alike :=
  h.bind (fun a => couples_pure (f a) fun _ _ h => h) fun _ _ h => h

theorem couples_askPath {path : Bytes} {answer realCall : Bytes → ProcM α}
    (h : ∀ p, Couples IsIo Alike (answer p) (answer p) Alike) :
    Couples IsIo (fun s t => Alike s t ∧ OnWorkspace roots cwd s .cwd path ∧ Kept cwd s .cwd path)
      (withPath roots cwd .cwd path answer realCall) (withPath roots cwd .cwd path answer realCall)
      Alike :=
  (couples_withPath (C := fun _ => True) fun _ _ p _ _ _ _ => h p).weaken
    (fun _ _ ⟨hst, hon, hk⟩ => ⟨hst, hon, hk, trivial⟩) fun _ _ h => h

/-! ## One call -/

/-- One call of the workspace that does not leave the graph. -/
theorem couples_syscall (call : SysCall) :
    Couples IsIo
      (fun s t => Alike s t ∧ call.OnWorkspace roots cwd s ∧ call.Contained g roots cwd s)
      (syscall g roots root strict cwd pid call) (syscall g roots root strict cwd pid call) Alike := by
  have hplain : ∀ {x : ProcM Reply} {P : Process → Prop}, Couples IsIo Alike x x Alike →
      Couples IsIo (fun s t => Alike s t ∧ P s) x x Alike := fun h =>
    h.weaken (fun _ _ hst => hst.1) fun _ _ h => h
  cases call with
  | «open» path flags => exact couples_reply _ couples_openAt
  | openat dir path flags => exact couples_reply _ couples_openAt
  | read fd count => exact hplain (couples_reply _ (couples_onFd (couples_onFile _ _)))
  | pread fd count offset => exact hplain (couples_reply _ (couples_onFd (couples_realPread _ _ _)))
  | lseek fd offset whence => exact hplain (couples_reply _ (couples_onFd (couples_onFile _ _)))
  | fstat fd => exact hplain (couples_onFd (couples_reply _ (couples_onFile _ _)))
  | stat path => exact couples_askPath fun p => couples_reply _ (couples_hook _)
  | lstat path => exact couples_askPath fun p => couples_reply _ (couples_hook _)
  | access path mode => exact couples_askPath fun p => couples_reply _ (couples_hook _)
  | readlink path bufsiz => exact couples_askPath fun p => couples_reply _ (couples_hook _)
  | getdents64 fd bufSize => exact hplain (couples_reply _ (couples_onFd (couples_realGetdents64 fd)))
  | close fd => exact hplain (couples_reply _ (couples_close fd))

/-! ## Every run -/

/-- No host call of the shim fails in the run. -/
def NoHostError (replies : List (Except Fault Reply)) : Prop :=
  ∀ reply ∈ replies, ∀ kind, reply ≠ .error (.io kind)

/-- Runs from processes that show the same give the same replies. The induction is over the calls; `Alike`
is what one call keeps. -/
theorem runs_agree {calls : List SysCall} (hst : Alike s t)
    (hon : Runs.Meets (Process.after g roots root strict cwd pid)
      (fun s call => call.OnWorkspace roots cwd s) s calls)
    (hcontained : Runs.Meets (Process.after g roots root strict cwd pid)
      (fun s call => call.Contained g roots cwd s) s calls)
    (hs : NoHostError (runSysCalls g roots root strict cwd pid s calls).1)
    (ht : NoHostError (runSysCalls g roots root strict cwd pid t calls).1) :
    (runSysCalls g roots root strict cwd pid s calls).1 =
      (runSysCalls g roots root strict cwd pid t calls).1 := by
  induction calls generalizing s t with
  | nil => rfl
  | cons call calls ih =>
    rw [runSysCalls] at hs
    rw [runSysCalls] at ht
    rw [runSysCalls, runSysCalls]
    dsimp only at hs ht ⊢
    have hfair : ∀ {u : Process} {rest : List (Except Fault Reply)},
        NoHostError ((exec (syscall g roots root strict cwd pid call) u).1 :: rest) →
        Fair IsIo (exec (syscall g roots root strict cwd pid call) u).1 := by
      rintro u rest hu e he ⟨kind, rfl⟩
      exact hu _ List.mem_cons_self kind he
    obtain ⟨hreply, hnext⟩ := couples_syscall call s t ⟨hst, hon.1, hcontained.1⟩ (hfair hs)
      (hfair ht)
    rw [hreply, ih hnext (hon.2 _ rfl) (hcontained.2 _ rfl)
      (fun r hr => hs r (List.mem_cons_of_mem _ hr)) (fun r hr => ht r (List.mem_cons_of_mem _ hr))]

/-- A process that starts. -/
def Process.start (shim : Shim) (disk : Fs) : Process := ⟨shim, disk, []⟩

theorem alike_start (shim : Shim) {disk disk' : Fs} (h : disk.env = disk'.env) :
    Alike (.start shim disk) (.start shim disk') :=
  ⟨rfl, rfl, h, fun _ hfile => nomatch hfile⟩

/-- What the disks hold makes no difference to the replies. -/
theorem replies_agree {shim : Shim} {disk disk' : Fs} {calls : List SysCall}
    (henv : disk.env = disk'.env)
    (hon : Runs.Meets (Process.after g roots root strict cwd pid)
      (fun s call => call.OnWorkspace roots cwd s) (.start shim disk) calls)
    (hcontained : Runs.Meets (Process.after g roots root strict cwd pid)
      (fun s call => call.Contained g roots cwd s) (.start shim disk) calls)
    (hs : NoHostError (runSysCalls g roots root strict cwd pid (.start shim disk) calls).1)
    (ht : NoHostError (runSysCalls g roots root strict cwd pid (.start shim disk') calls).1) :
    (runSysCalls g roots root strict cwd pid (.start shim disk) calls).1 =
      (runSysCalls g roots root strict cwd pid (.start shim disk') calls).1 :=
  runs_agree (alike_start shim henv) hon hcontained hs ht

/-! ## Two disks -/

theorem atBase_absolute {path : Bytes} (h : path.head? = some slash) (s : Process) (at_ : At) :
    atBase cwd s at_ path = some none := if_pos h

/-- An absolute path of the workspace. -/
theorem onWorkspace_absolute {path p : Bytes} (h : path.head? = some slash)
    (hread : readingOf path none = some p) (hin : InWorkspace roots p) (s : Process) (at_ : At) :
    OnWorkspace roots cwd s at_ path := by
  intro base hbase
  rw [atBase_absolute h] at hbase
  cases hbase
  exact ⟨p, hread, hin⟩

theorem kept_absolute {path p : Bytes} (h : path.head? = some slash)
    (hread : readingOf path none = some p) (hp : isInterposeTempArtifact p = false) (s : Process)
    (at_ : At) : Kept cwd s at_ path := by
  refine ⟨fun base q hbase hq => ?_, fun n _ hrel => absurd h hrel⟩
  rw [atBase_absolute h] at hbase
  cases hbase
  rw [hread] at hq
  cases hq
  exact hp

namespace Sample

/-- A host with the usual mask. -/
def hostEnv : Posix.Env := ⟨0, 0o644, 0o755, 4096⟩

/-- The directory `/w`, empty. -/
def bareDisk : Fs := (Fs.empty hostEnv).addEntry [[119]] (Posix.newDir hostEnv)

/-- The same with a file `/w/n` that holds `x`. -/
def staleDisk : Fs := bareDisk.addEntry [[119], [110]] (.file ⟨0o644, 0⟩ [120])

/-- The same with a directory `/w/d` and a file `/w/d/f` that holds `x`. -/
def driftedDisk : Fs :=
  (bareDisk.addEntry [[119], [100]] (Posix.newDir hostEnv)).addEntry [[119], [100], [102]]
    (.file ⟨0o600, 0⟩ [120])

def rdwr : OpenFlags := ⟨false, true, false, false, false, false, false, false⟩

/-- The host paths `/w/n` and `/w/d/f`. -/
def newPath : Bytes := [47, 119, 47, 110]
def filePath : Bytes := [47, 119, 47, 100, 47, 102]

/-- `/w/n` is created or opened, and read. -/
def createCalls : List SysCall := [.open newPath { rdwr with creat := true }, .read 0 8]

/-- `/w/d/f` is opened for writing, read and asked about; then it is closed. -/
def editCalls : List SysCall := [.open filePath rdwr, .read 0 8, .fstat 0, .close 0]

def repliesOn (calls : List SysCall) (disk : Fs) (tree : CachedTree) : List (Except Fault Reply) :=
  (runSysCalls (tree.provider twoBlobs) [workspace] workspace false [47] 7 (.start freshShim disk)
    calls).1

theorem createReplies :
    (CachedTree.fromSnapshot linkedCodec linkedSnapshot).toOption.map (fun tree =>
      (repliesOn createCalls bareDisk tree, repliesOn createCalls staleDisk tree)) =
      some ([.ok (.fd 0), .ok (.bytes [])], [.ok (.fd 0), .ok (.bytes [120])]) := by
  decide +kernel

theorem editReplies :
    (CachedTree.fromSnapshot linkedCodec linkedSnapshot).toOption.map (fun tree =>
      (repliesOn editCalls bareDisk tree, repliesOn editCalls driftedDisk tree)) =
      some ([.ok (.fd 0), .ok (.bytes [97]), .ok (.rawStat ⟨.file, 0o644, 0, 1⟩), .ok .done],
        [.ok (.fd 0), .ok (.bytes [97]), .ok (.rawStat ⟨.file, 0o644, 0, 1⟩), .ok .done]) := by
  decide +kernel

end Sample

theorem noHostError_ok (replies : List Reply) : NoHostError (replies.map .ok) := by
  intro reply hr kind he
  obtain ⟨r, -, rfl⟩ := List.mem_map.mp hr
  cases he

/-- A file of the graph is edited where the disk holds other bytes. -/
theorem replies_agree_drifted :
    ∃ tree, CachedTree.fromSnapshot Sample.linkedCodec Sample.linkedSnapshot = .ok tree ∧
      Sample.repliesOn Sample.editCalls Sample.bareDisk tree =
        Sample.repliesOn Sample.editCalls Sample.driftedDisk tree := by
  obtain ⟨tree, hf, -, -⟩ := Sample.linkedTree_ok
  have hreplies := Sample.editReplies
  rw [hf] at hreplies
  obtain ⟨hbare, hdrifted⟩ := Prod.mk.inj (Option.some.inj hreplies)
  have hread : readingOf Sample.filePath none = some Sample.filePath := by decide
  refine ⟨tree, hf, replies_agree rfl ?_ ?_ ?_ ?_⟩
  · exact ⟨onWorkspace_absolute rfl hread (by decide) _ _,
      fun _ _ => ⟨trivial, fun _ _ => ⟨trivial, fun _ _ => ⟨trivial, fun _ _ => trivial⟩⟩⟩⟩
  · refine ⟨⟨kept_absolute rfl hread (by decide) _ _, fun base p hbase hp _ => ?_⟩,
      fun _ _ => ⟨trivial, fun _ _ => ⟨trivial, fun _ _ => ⟨trivial, fun _ _ => trivial⟩⟩⟩⟩
    rw [atBase_absolute rfl] at hbase
    cases hbase
    rw [hread] at hp
    cases hp
    exact ⟨by decide, fun hcreat => nomatch hcreat⟩
  · show NoHostError (Sample.repliesOn Sample.editCalls Sample.bareDisk tree)
    rw [hbare]
    exact noHostError_ok [.fd 0, .bytes [97], .rawStat ⟨.file, 0o644, 0, 1⟩, .done]
  · show NoHostError (Sample.repliesOn Sample.editCalls Sample.driftedDisk tree)
    rw [hdrifted]
    exact noHostError_ok [.fd 0, .bytes [97], .rawStat ⟨.file, 0o644, 0, 1⟩, .done]

/-- `/w/n`, which the graph does not hold, is opened with `O_CREAT`: the bytes that are read are the ones
the disk held. -/
theorem replies_differ_created :
    ∃ tree, CachedTree.fromSnapshot Sample.linkedCodec Sample.linkedSnapshot = .ok tree ∧
      (∀ q, ¬ [[119]] <+: q → Sample.staleDisk.node q = Sample.bareDisk.node q) ∧
      Sample.staleDisk.env = Sample.bareDisk.env ∧
      Runs.Meets (Process.after (tree.provider Sample.twoBlobs) [Sample.workspace] Sample.workspace false
          [47] 7) (fun s call => call.OnWorkspace [Sample.workspace] [47] s)
        (.start Sample.freshShim Sample.bareDisk) Sample.createCalls ∧
      NoHostError (Sample.repliesOn Sample.createCalls Sample.bareDisk tree) ∧
      NoHostError (Sample.repliesOn Sample.createCalls Sample.staleDisk tree) ∧
      Sample.repliesOn Sample.createCalls Sample.bareDisk tree ≠
        Sample.repliesOn Sample.createCalls Sample.staleDisk tree := by
  obtain ⟨tree, hf, -, -⟩ := Sample.linkedTree_ok
  have hreplies := Sample.createReplies
  rw [hf] at hreplies
  obtain ⟨hbare, hstale⟩ := Prod.mk.inj (Option.some.inj hreplies)
  have hread : readingOf Sample.newPath none = some Sample.newPath := by decide
  refine ⟨tree, hf, fun q hq => ?_, Fs.env_addEntry, ?_, ?_, ?_, ?_⟩
  · refine Fs.node_addEntry ?_ ?_
    · rintro rfl
      exact hq ⟨[[110]], rfl⟩
    · rintro rfl
      exact hq List.prefix_rfl
  · exact ⟨onWorkspace_absolute rfl hread (by decide) _ _, fun _ _ => ⟨trivial, fun _ _ => trivial⟩⟩
  · exact hbare ▸ noHostError_ok [.fd 0, .bytes []]
  · exact hstale ▸ noHostError_ok [.fd 0, .bytes [120]]
  · rw [hbare, hstale]
    decide

end KinVfs
