import KinVfs.Daemon.Sys
import KinVfs.Daemon.OverlayTree

/-!
# The generation of a stat answer (`provider.rs`, `writer.rs` of `crates/kin-vfs-core/src`, `server.rs`)

The overlay has the default `stat_at`: it reads the version of the graph, then asks the writer about the
path, then the graph. `StatServer` runs any number of such requests against one writer (`Sys`) and a
graph that publishes versions. A staged path is answered under a generation that the staging does not
move, and a publication between the reads is answered under the older one; without both, a nonzero
generation determines the answer (`stamps_determine`).
-/

namespace KinVfs

/-- `stat_at`: the version first. -/
def ContentProvider.statAt (provider : ContentProvider) (path : VfsPath) :
    Nat × VfsResult VirtualStat :=
  (provider.version, provider.stat path)

/-- A graph whose content at a version is fixed. -/
structure VersionedGraph where
  provider : Nat → ContentProvider
  version_eq : ∀ version, (provider version).version = version

/-- What an answer says of a path. -/
inductive Told where
  | present (isFile isDir isSymlink : Bool) (size : Nat)
  | absent
  | refused
  deriving DecidableEq

def told : VfsResult VirtualStat → Told
  | .ok st => .present st.isFile st.isDir st.isSymlink st.size
  | .error (.notFound _) => .absent
  | .error _ => .refused

/-- What the overlay answers for a staged path. -/
def Staged.answer (path : VfsPath) : Staged → VfsResult VirtualStat
  | .present stat => .ok stat
  | .removed => .error (.notFound path.display)

/-- Where a request is. -/
inductive StatPc where
  /-- The version is read. -/
  | versioned (path : VfsPath) (generation : Nat)
  /-- And the path was not staged. -/
  | unstaged (path : VfsPath) (generation : Nat)
  | answered (path : VfsPath) (generation : Nat) (result : VfsResult VirtualStat)
  deriving DecidableEq

/-- A writer, the version that is published, and the stat requests. -/
structure StatServer where
  sys : Sys
  version : Nat
  requests : List StatPc

inductive ServerLabel where
  /-- A step of a mutation or an admission. -/
  | writer (l : Label)
  | publish (version : Nat)
  | stat (path : VfsPath)
  | staged (i : Nat)
  | graph (i : Nat)

namespace StatServer

def init (host : Posix.Fs) (version : Nat) : StatServer := ⟨.init host, version, []⟩

def goto (s : StatServer) (i : Nat) (pc : StatPc) : StatServer :=
  { s with requests := s.requests.set i pc }

def step (repoRoot : Posix.Path) (wire : Wire) (graph : VersionedGraph) (s : StatServer) :
    ServerLabel → Option StatServer
  | .writer l => (s.sys.step repoRoot wire l).map fun sys => { s with sys := sys }
  | .publish version => some { s with version := version }
  | .stat path =>
    some { s with requests := s.requests ++ [.versioned path (graph.provider s.version).version] }
  | .staged i =>
    match s.requests[i]? with
    | some (.versioned path generation) =>
      match s.sys.staging.staged path with
      | some staged => some (s.goto i (.answered path generation (staged.answer path)))
      | none => some (s.goto i (.unstaged path generation))
    | _ => none
  | .graph i =>
    match s.requests[i]? with
    | some (.unstaged path generation) =>
      some (s.goto i (.answered path generation ((graph.provider s.version).stat path)))
    | _ => none

end StatServer

/-- Two answers for a path under a nonzero generation say the same. -/
def StampsAgree (s : StatServer) : Prop :=
  ∀ path generation r r', generation ≠ 0 → .answered path generation r ∈ s.requests →
    .answered path generation r' ∈ s.requests → told r = told r'

/-- The path and the generation of a request that has no answer yet. -/
def StatPc.pending : StatPc → Option (VfsPath × Nat)
  | .versioned path generation | .unstaged path generation => some (path, generation)
  | .answered .. => none

/-- A request does not find its path staged as something else than the graph has under the generation it
read, and the graph does not change there while it is under way. -/
def Undivided (graph : VersionedGraph) (s : StatServer) : ServerLabel → Prop
  | .staged i => ∀ pc ∈ s.requests[i]?, ∀ r ∈ pc.pending, ∀ staged ∈ s.sys.staging.staged r.1,
      r.2 ≠ 0 → told (staged.answer r.1) = told ((graph.provider r.2).stat r.1)
  | .publish version => ∀ pc ∈ s.requests, ∀ r ∈ pc.pending,
      r.2 ≠ 0 → told ((graph.provider version).stat r.1) = told ((graph.provider r.2).stat r.1)
  | .writer _ | .stat _ | .graph _ => True

instance (graph : VersionedGraph) (s : StatServer) : ∀ l, Decidable (Undivided graph s l)
  | .staged i => inferInstanceAs (Decidable (∀ pc ∈ s.requests[i]?, ∀ r ∈ pc.pending,
      ∀ staged ∈ s.sys.staging.staged r.1, r.2 ≠ 0 → _ = _))
  | .publish _ => inferInstanceAs (Decidable (∀ pc ∈ s.requests, ∀ r ∈ pc.pending, r.2 ≠ 0 → _ = _))
  | .writer _ | .stat _ | .graph _ => inferInstanceAs (Decidable True)

/-- A request that nothing comes between answers as the overlay's `stat_at` does. -/
theorem stat_alone {repoRoot : Posix.Path} {wire : Wire} {graph : VersionedGraph} {s : StatServer}
    {writer : ContentWriter} (hw : writer.staged = s.sys.staging.staged) (path : VfsPath) :
    ∃ labels s', Runs.run (StatServer.step repoRoot wire graph) s labels = some s' ∧
      s'.requests = s.requests ++
        [.answered path ((WriteThroughProvider (graph.provider s.version) writer).statAt path).1
          ((WriteThroughProvider (graph.provider s.version) writer).statAt path).2] := by
  cases hstaged : s.sys.staging.staged path with
  | some staged =>
    refine ⟨[.stat path, .staged s.requests.length], { s with requests := s.requests ++
      [.answered path (graph.provider s.version).version (staged.answer path)] }, ?_, ?_⟩
    · simp [Runs.run, StatServer.step, hstaged, StatServer.goto]
    · have hanswer : WriteThroughProvider.stat (graph.provider s.version) writer path =
          staged.answer path := by
        unfold WriteThroughProvider.stat
        rw [hw, hstaged]
        cases staged <;> rfl
      simp only [ContentProvider.statAt, WriteThroughProvider, hanswer]
  | none =>
    refine ⟨[.stat path, .staged s.requests.length, .graph s.requests.length],
      { s with requests := s.requests ++ [.answered path (graph.provider s.version).version
        ((graph.provider s.version).stat path)] }, ?_, ?_⟩
    · simp [Runs.run, StatServer.step, hstaged, StatServer.goto]
    · have hanswer : WriteThroughProvider.stat (graph.provider s.version) writer path =
          (graph.provider s.version).stat path := by
        unfold WriteThroughProvider.stat
        rw [hw, hstaged]
      simp only [ContentProvider.statAt, WriteThroughProvider, hanswer]

/-! ## The invariant -/

section Invariant

variable {repoRoot : Posix.Path} {wire : Wire} {graph : VersionedGraph} {s s' : StatServer}

/-- A request says, or would say now, what the graph says under its generation. -/
def StatPc.Holds (graph : VersionedGraph) (version : Nat) : StatPc → Prop
  | .versioned path generation | .unstaged path generation =>
    generation ≠ 0 → told ((graph.provider version).stat path) = told ((graph.provider generation).stat path)
  | .answered path generation r =>
    generation ≠ 0 → told r = told ((graph.provider generation).stat path)

def StatServer.Inv (graph : VersionedGraph) (s : StatServer) : Prop :=
  ∀ pc ∈ s.requests, pc.Holds graph s.version

theorem inv_goto {i : Nat} {pc : StatPc} (h : s.Inv graph) (hpc : pc.Holds graph s.version) :
    (s.goto i pc).Inv graph := by
  intro pc' hmem
  rcases List.mem_or_eq_of_mem_set hmem with hmem | rfl
  · exact h pc' hmem
  · exact hpc

theorem statStep_inv {l : ServerLabel} (h : s.Inv graph) (hund : Undivided graph s l)
    (hstep : s.step repoRoot wire graph l = some s') : s'.Inv graph := by
  cases l with
  | writer l =>
    obtain ⟨sys, -, rfl⟩ := Option.map_eq_some_iff.mp hstep
    exact h
  | publish version =>
    cases hstep
    intro pc hmem
    cases pc with
    | versioned path generation => exact hund _ hmem (path, generation) rfl
    | unstaged path generation => exact hund _ hmem (path, generation) rfl
    | answered path generation r => exact h _ hmem
  | stat path =>
    cases hstep
    intro pc hmem
    rcases List.mem_append.mp hmem with hmem | hmem
    · exact h pc hmem
    · obtain rfl := List.mem_singleton.mp hmem
      intro _
      rw [graph.version_eq]
  | staged i =>
    simp only [StatServer.step] at hstep
    split at hstep
    · rename_i path generation hi
      have hpc := h _ (List.mem_of_getElem? hi)
      split at hstep
      · rename_i staged hstaged
        cases hstep
        exact inv_goto h (hund _ hi (path, generation) rfl staged hstaged)
      · cases hstep
        exact inv_goto h hpc
    · cases hstep
  | graph i =>
    simp only [StatServer.step] at hstep
    split at hstep
    · rename_i path generation hi
      have hpc := h _ (List.mem_of_getElem? hi)
      cases hstep
      exact inv_goto h hpc
    · cases hstep

end Invariant

/-- Through every run of such requests, writes, removals, admissions and publications. -/
theorem stamps_determine (repoRoot : Posix.Path) (wire : Wire) (graph : VersionedGraph)
    (host : Posix.Fs) (version : Nat) {labels : List ServerLabel} {s : StatServer}
    (hund : Runs.Meets (StatServer.step repoRoot wire graph) (Undivided graph)
      (.init host version) labels)
    (hrun : Runs.run (StatServer.step repoRoot wire graph) (.init host version) labels = some s) :
    StampsAgree s := by
  have hinit : (StatServer.init host version).Inv graph := fun pc hmem => nomatch hmem
  have hinv : s.Inv graph :=
    Runs.run_inv_of_meets (fun _ _ _ h hC hstep => statStep_inv h hC hstep) hinit hund hrun
  intro path generation r r' hne hr hr'
  exact (hinv _ hr hne).trans (hinv _ hr' hne).symm

namespace Sample

/-- An empty workspace at each version. -/
def emptyGraph : VersionedGraph where
  provider version := CachedTree.provider { emptyTree with version := version } noBlobs
  version_eq _ := rfl

/-- `a` is asked about before and after `path` is written. -/
def statAround (path : VfsPath) : List ServerLabel :=
  [.stat a, .staged 0, .graph 0, .writer (.call (.mutation (.writeAt path 0 [1]))),
    .writer (.disk 0), .writer (.stat 0), .writer (.mark 0 1 0), .stat a, .staged 1]

/-- What the answers say. -/
def answers (s : StatServer) : List (Option (VfsPath × Nat × Told)) :=
  s.requests.map fun
    | .answered path generation r => some (path, generation, told r)
    | _ => none

theorem mem_answers {s : StatServer} {path : VfsPath} {generation : Nat} {t : Told}
    (h : some (path, generation, t) ∈ answers s) :
    ∃ r, .answered path generation r ∈ s.requests ∧ told r = t := by
  obtain ⟨pc, hmem, hpc⟩ := List.mem_map.mp h
  cases pc with
  | versioned path generation => cases hpc
  | unstaged path generation => cases hpc
  | answered path' generation' r =>
    cases hpc
    exact ⟨r, hmem, rfl⟩

end Sample

/-- `a` is asked about twice, and `b` is written in between. -/
theorem stamps_determine_other :
    ∃ s, Runs.run (StatServer.step [] Sample.wire Sample.emptyGraph) (.init Sample.host 1)
        (Sample.statAround Sample.b ++ [.graph 1]) = some s ∧
      Sample.answers s = [some (Sample.a, 1, .absent), some (Sample.a, 1, .absent)] ∧
      StampsAgree s := by
  have hrun : (Runs.run (StatServer.step [] Sample.wire Sample.emptyGraph) (.init Sample.host 1)
      (Sample.statAround Sample.b ++ [.graph 1])).map Sample.answers =
        some [some (Sample.a, 1, .absent), some (Sample.a, 1, .absent)] := by decide
  obtain ⟨s, hs, hanswers⟩ := Option.map_eq_some_iff.mp hrun
  have hund : Runs.Meets (StatServer.step [] Sample.wire Sample.emptyGraph)
      (Undivided Sample.emptyGraph) (.init Sample.host 1)
      (Sample.statAround Sample.b ++ [.graph 1]) := by decide
  exact ⟨s, hs, hanswers, stamps_determine [] Sample.wire Sample.emptyGraph Sample.host 1 hund hs⟩

/-- `a` is asked about, written, and asked about. -/
theorem stamps_disagree_staged :
    ∃ s, Runs.run (StatServer.step [] Sample.wire Sample.emptyGraph) (.init Sample.host 1)
        (Sample.statAround Sample.a) = some s ∧
      Sample.answers s = [some (Sample.a, 1, .absent),
        some (Sample.a, 1, .present true false false 1)] ∧ ¬ StampsAgree s := by
  have hrun : (Runs.run (StatServer.step [] Sample.wire Sample.emptyGraph) (.init Sample.host 1)
      (Sample.statAround Sample.a)).map Sample.answers = some [some (Sample.a, 1, .absent),
        some (Sample.a, 1, .present true false false 1)] := by decide
  obtain ⟨s, hs, hanswers⟩ := Option.map_eq_some_iff.mp hrun
  refine ⟨s, hs, hanswers, fun hagree => ?_⟩
  obtain ⟨r, hr, htold⟩ := Sample.mem_answers (s := s) (hanswers ▸ List.mem_cons_self)
  obtain ⟨r', hr', htold'⟩ := Sample.mem_answers (s := s)
    (hanswers ▸ List.mem_cons_of_mem _ List.mem_cons_self)
  have hsame := hagree _ _ _ _ (by decide) hr hr'
  rw [htold, htold'] at hsame
  cases hsame

end KinVfs
