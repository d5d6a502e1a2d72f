import Mathlib.Algebra.GroupWithZero.Nat
import KinVfs.Daemon.BlobReads
import KinVfs.Daemon.Ranges
import KinVfs.Nfs.Namespace

/-!
# Reading to the end of a file (`nfs_fs.rs` of `crates/kin-vfs-nfs/src`)

`KinNfsFs::read` does not know the size of the file. It asks the provider for a range and takes a range shorter
than asked for as the end. So what it returns is right for every file, wherever its bytes come from
(`MountView.readRange_eq`), and a client that reads on until the end gets the whole of it (`readToEof_exec`), but
the flag is late by one read where a read ends with the last byte (`read_exact_iff`).
-/

namespace KinVfs.Nfs

open Interleave Fallible

/-- What the provider of a mount answers from: the installed tree, the daemon's blobs and those that are cached,
and, unless the mount is read-only, the workspace with what is staged in it. -/
structure MountView where
  wire : BlobWire
  blobs : Hash256 → Except String BlobResponse
  tree : CachedTree
  cache : ContentCache
  staging : Option (Posix.Path × World)

namespace MountView

variable (v : MountView)

/-- The `KinDaemonProvider`. -/
def graph : ContentProvider where
  readFile path := (readOutcome v.wire v.blobs v.tree path .file v.cache).1
  readRange path offset len := (readOutcome v.wire v.blobs v.tree path (.range offset len) v.cache).1
  stat := v.tree.statPath
  readDir := v.tree.listDir
  pathExists path := .ok (v.tree.pathExists path)
  readLink path := (readOutcome v.wire v.blobs v.tree path .link v.cache).1
  version := v.tree.version

def provider : ContentProvider :=
  match v.staging with
  | none => v.graph
  | some (repoRoot, w) => overlay v.graph repoRoot w

/-- Nothing is staged at the path. -/
def Unstaged (path : VfsPath) : Prop :=
  ∀ repoRoot w, v.staging = some (repoRoot, w) → w.staging.staged path = none

/-- The file at `path` has the bytes `content`: as a staged file of the workspace, or as the blob that the daemon
has for it. A cache is sound after every history of reads (`cacheSound_after`). -/
inductive Holds (path : VfsPath) (content : Bytes) : Prop
  | staged {repoRoot host : Posix.Path} {w : World} {st : VirtualStat} :
      v.staging = some (repoRoot, w) → w.staging.staged path = some (.present st) →
      KinDaemonWriter.contentPath repoRoot w.host path = .ok host → w.host.readFile host = .ok content →
      Holds path content
  | graph {artifact : TreeArtifact} {hash : Hash256} :
      v.Unstaged path → v.tree.byPath[path]? = some artifact →
      CachedTree.blobIdentity artifact.entry path = .ok hash → content.length = artifact.size →
      responseBody v.wire (v.blobs hash) hash path = .ok content → v.wire.sha256 content = hash →
      CacheSound v.wire v.blobs v.cache → Holds path content

end MountView

namespace KinNfsFs

def read (h id offset count : Nat) : NfsM (Bytes × Bool) := do
  let path ← idToPath h id
  let data ← ask h (·.readRange path offset count)
  let eof := decide (data.length < count)
  pure (data, eof)

/-- A client that reads on from `offset`, with one count after another, until it is told that this is the end;
`none` if the counts run out before. -/
def readToEof (h id : Nat) : List Nat → Nat → NfsM (Option Bytes)
  | [], _ => pure none
  | count :: counts, offset => do
    let (data, eof) ← read h id offset count
    if eof then pure (some data)
    else do
      let rest ← readToEof h id counts (offset + data.length)
      pure (rest.map (data ++ ·))

end KinNfsFs

/-- The adapter `h` has the number `id` for `path`, where the file has the bytes `content`. -/
structure Serves (r : Router) (h id : Nat) (path : VfsPath) (content : Bytes) : Prop where
  named : (r.adapters h).inodes.getPath id = some path
  held : ∃ v : MountView, (r.adapters h).provider = v.provider ∧ v.Holds path content

/-- The answer has the bytes from `offset` on, up to `count`, and says whether they reach the end of the file. -/
def ReadExact (content : Bytes) (offset count : Nat) (answer : Except NfsStat (Bytes × Bool)) : Prop :=
  ∃ data eof, answer = .ok (data, eof) ∧ data = rangeOf content offset count ∧
    (eof = true ↔ content.length ≤ offset + data.length)

/-! ## The provider's range -/

section Range

variable {v : MountView} {path : VfsPath} {content : Bytes}

theorem MountView.graph_fetches {artifact : TreeArtifact} {hash : Hash256}
    (hsize : content.length = artifact.size) (hbody : responseBody v.wire (v.blobs hash) hash path = .ok content)
    (hsha : v.wire.sha256 content = hash) (hcache : CacheSound v.wire v.blobs v.cache) :
    (exec (KinDaemonProvider.fetchVerifiedBlob v.wire v.blobs hash artifact.size path) v.cache).1 = .ok content := by
  rw [exec_fetchVerifiedBlob]
  cases hp : Lru.peek hash v.cache with
  | some data =>
    -- A cached body is the one the daemon has.
    obtain ⟨-, hcached⟩ := hcache _ (Lru.mem_of_peek hp)
    exact (hcached path).symm.trans hbody
  | none =>
    have hdown : KinDaemonProvider.downloadVerified v.wire v.blobs hash artifact.size path = .ok content :=
      downloadVerified_ok.mpr ⟨hbody, hsize, hsha⟩
    dsimp only
    rw [hdown]

theorem MountView.graph_readRange (hlen : content.length ≤ u64Max) {artifact : TreeArtifact} {hash : Hash256}
    (hpath : v.tree.byPath[path]? = some artifact)
    (hhash : CachedTree.blobIdentity artifact.entry path = .ok hash) (hsize : content.length = artifact.size)
    (hbody : responseBody v.wire (v.blobs hash) hash path = .ok content) (hsha : v.wire.sha256 content = hash)
    (hcache : CacheSound v.wire v.blobs v.cache) (offset count : Nat) :
    v.graph.readRange path offset count = .ok (rangeOf content offset count) := by
  change (readOutcome v.wire v.blobs v.tree path (.range offset count) v.cache).1 = _
  cases hf : (BlobRead.range offset count).fetches artifact with
  | true =>
    rw [readOutcome_fetches hpath hhash hf, MountView.graph_fetches hsize hbody hsha hcache]
    change Except.ok (CachedTree.sliceVerifiedBlob content offset count) = _
    rw [CachedTree.sliceVerifiedBlob_eq_take hlen, rangeOf_eq_take]
  | false =>
    have hout : count = 0 ∨ artifact.size ≤ offset := by
      simpa [BlobRead.fetches, or_iff_not_imp_left] using hf
    have hempty : rangeOf content offset count = [] := by
      rw [rangeOf_eq_take]
      rcases hout with hzero | hend
      · rw [hzero, List.take_zero]
      · rw [List.drop_eq_nil_of_le (by omega), List.take_nil]
    simp only [readOutcome, BlobRead.run, KinDaemonProvider.readRange, exec_bind, exec_ofExcept,
      requireArtifact_some hpath, hhash, if_pos hout, exec_pure, hempty]

/-- Wherever the bytes come from, the provider's range is theirs. -/
theorem MountView.readRange_eq (hlen : content.length ≤ u64Max) (hv : v.Holds path content) (offset count : Nat) :
    v.provider.readRange path offset count = .ok (rangeOf content offset count) := by
  cases hv with
  | @staged repoRoot host w st hstaging hst hpath hread =>
    have hprovider : v.provider = overlay v.graph repoRoot w := by
      unfold MountView.provider
      rw [hstaging]
    rw [hprovider]
    change WriteThroughProvider.readRange v.graph (KinDaemonWriter.view repoRoot w) path offset count = _
    simp only [WriteThroughProvider.readRange, KinDaemonWriter.view, hst]
    exact readStaged_eq hlen hst hpath hread
  | graph hunstaged hpath hhash hsize hbody hsha hcache =>
    have hgraph := MountView.graph_readRange hlen hpath hhash hsize hbody hsha hcache offset count
    unfold MountView.provider
    cases hstaging : v.staging with
    | none => exact hgraph
    | some staging =>
      obtain ⟨repoRoot, w⟩ := staging
      change WriteThroughProvider.readRange v.graph (KinDaemonWriter.view repoRoot w) path offset count = _
      simp only [WriteThroughProvider.readRange, KinDaemonWriter.view, hunstaged repoRoot w hstaging]
      exact hgraph

end Range

/-! ## One read, among other calls -/

section Read

variable {r r' : Router} {h id offset : Nat} {path : VfsPath} {content : Bytes}

theorem rangeOf_length (content : Bytes) (offset count : Nat) :
    (rangeOf content offset count).length = min count (content.length - offset) := by
  rw [rangeOf_eq_take, List.length_take, List.length_drop]

/-- What a read answers while the file keeps its bytes. -/
theorem read_yields (hlen : content.length ≤ u64Max) (hr : Serves r h id path content) (offset count : Nat) :
    Yields (Serves · h id path content) (fun _ _ => True)
      (fun answer _ => answer = .ok (rangeOf content offset count,
        decide ((rangeOf content offset count).length < count))) (KinNfsFs.read h id offset count) r := by
  have hrely : Rely fun _ _ : Router => True := ⟨fun _ => trivial, fun _ _ => trivial⟩
  have hname : Yields (Serves · h id path content) (fun _ _ => True) (fun answer _ => answer = .ok path)
      (KinNfsFs.idToPath h id) r := by
    apply Yields.bind
    apply Yields.look hrely
    intro s _ hs
    dsimp only
    rw [hs.named]
    rfl
  have hask : ∀ s, Yields (Serves · h id path content) (fun _ _ => True)
      (fun answer _ => answer = .ok (rangeOf content offset count))
      (KinNfsFs.ask h (·.readRange path offset count)) s := by
    intro s
    apply Yields.bind
    apply Yields.look hrely
    intro s' _ hs'
    obtain ⟨v, hprovider, hv⟩ := hs'.held
    dsimp only
    rw [hprovider, v.readRange_eq hlen hv]
    rfl
  refine hname.andThen hrely hr ?_ nofun
  intro _ s hpath hs _
  cases hpath
  refine (hask s).andThen hrely hs ?_ nofun
  intro _ t hdata _ _
  cases hdata
  exact rfl

/-- What a client has that reads on from `offset` while the file keeps its bytes. -/
theorem readToEof_yields (hlen : content.length ≤ u64Max) (counts : List Nat) (hr : Serves r h id path content)
    (hoffset : offset ≤ content.length) :
    Yields (Serves · h id path content) (fun _ _ => True)
      (fun answer _ => answer = .ok (if content.length < offset + counts.sum then some (content.drop offset) else none))
      (KinNfsFs.readToEof h id counts offset) r := by
  have hrely : Rely fun _ _ : Router => True := ⟨fun _ => trivial, fun _ _ => trivial⟩
  induction counts generalizing offset r with
  | nil =>
    apply Yields.pure
    rw [if_neg (by simpa using hoffset)]
  | cons count counts ih =>
    refine (read_yields hlen hr offset count).andThen hrely hr ?_ nofun
    intro _ s hread hs _
    cases hread
    have hdata := rangeOf_length content offset count
    rw [List.sum_cons]
    by_cases heof : (rangeOf content offset count).length < count
    · -- Nothing is behind a range that is shorter than asked for.
      simp only [heof, decide_true, if_true]
      apply Yields.pure
      rw [if_pos (by omega), rangeOf_eq_take, List.take_of_length_le (by rw [List.length_drop]; omega)]
    · simp only [heof, decide_false, Bool.false_eq_true, if_false]
      have hcount : (rangeOf content offset count).length = count := by omega
      refine (ih hs (by omega)).andThen hrely hs ?_ nofun
      intro _ t hrest _ _
      cases hrest
      apply Yields.pure
      rw [hcount, Nat.add_assoc]
      by_cases hend : content.length < offset + (count + counts.sum)
      · rw [if_pos hend, if_pos hend, Option.map_some, rangeOf_eq_take, ← List.drop_drop, List.take_append_drop]
      · rw [if_neg hend, if_neg hend, Option.map_none]

/-- Reads of at least a byte each, more of them than there are bytes. -/
theorem length_lt_sum {counts : List Nat} {size : Nat} (hpos : ∀ count ∈ counts, 0 < count)
    (hmany : size < counts.length) : size < counts.sum :=
  hmany.trans_le (List.length_le_sum_of_one_le counts hpos)

/-- The flag is exact, unless the read ends with the last byte of the file, or asks for none behind it. -/
theorem readExact_iff (content : Bytes) (offset count : Nat) :
    ReadExact content offset count
        (.ok (rangeOf content offset count, decide ((rangeOf content offset count).length < count))) ↔
      (count = 0 → offset < content.length) ∧ (0 < count → offset + count ≠ content.length) := by
  have hdata := rangeOf_length content offset count
  constructor
  · rintro ⟨data, eof, hanswer, -, heof⟩
    cases hanswer
    rw [decide_eq_true_iff] at heof
    omega
  · intro hcond
    refine ⟨_, _, rfl, rfl, ?_⟩
    rw [decide_eq_true_iff]
    omega

end Read

/-- **The end of a file** (`KinNfsFs::read`): while a file keeps its bytes, a read gives those asked for, and its flag
is exact unless it ends with the last byte or asks for nothing at the end or behind it. Reads of one positive count
after another until the flag is set give the whole file. -/
theorem read_exact_iff (h id : Nat) (path : VfsPath) (content : Bytes) (hlen : content.length ≤ u64Max)
    (r r' : Router) (hr : Serves r h id path content) :
    (∀ offset count answer,
      Exec (fun _ s => Serves s h id path content) (KinNfsFs.read h id offset count) r answer r' →
      (∃ eof, answer = .ok (rangeOf content offset count, eof)) ∧
      (ReadExact content offset count answer ↔
        (count = 0 → offset < content.length) ∧ (0 < count → offset + count ≠ content.length))) ∧
    ∀ counts answer,
      Exec (fun _ s => Serves s h id path content) (KinNfsFs.readToEof h id counts 0) r answer r' →
      (∀ count ∈ counts, 0 < count) →
      (∀ bytes, answer = .ok (some bytes) → bytes = content) ∧
      (content.length < counts.length → answer = .ok (some content)) := by
  constructor
  · intro offset count answer he
    obtain ⟨hanswer, -⟩ := (read_yields hlen hr offset count).exec hr (he.mono fun _ _ hs => ⟨trivial, hs⟩)
    rw [hanswer]
    exact ⟨⟨_, rfl⟩, readExact_iff content offset count⟩
  · intro counts answer he hpos
    obtain ⟨hanswer, -⟩ := (readToEof_yields hlen counts hr (Nat.zero_le _)).exec hr
      (he.mono fun _ _ hs => ⟨trivial, hs⟩)
    rw [hanswer, Nat.zero_add, List.drop_zero]
    constructor
    · intro bytes hbytes
      split at hbytes
      · cases hbytes
        rfl
      · cases hbytes
    · intro hmany
      rw [if_pos (length_lt_sum hpos hmany)]

namespace Demo

open KinVfs.Sample

/-- A read-only mount with the one byte of `a`, numbered 2. -/
def served (tree : CachedTree) : Router :=
  ((Router.start (MountView.provider ⟨blobWire, oneBlob, tree, [], none⟩) 0).assign 0 first).2

theorem served_artifact :
    ((CachedTree.fromSnapshot sharedCodec sharedSnapshot).toOption.map (·.byPath[first]?)) =
      some (some ⟨Vector.replicate 16 0, .blob hashA false, 1, 0⟩) := by decide +kernel

theorem served_serves : ∃ tree, CachedTree.fromSnapshot sharedCodec sharedSnapshot = .ok tree ∧
    Serves (served tree) 0 2 first [97] := by
  have hartifact := served_artifact
  cases hf : CachedTree.fromSnapshot sharedCodec sharedSnapshot with
  | error e => rw [hf] at hartifact; cases hartifact
  | ok tree =>
    rw [hf] at hartifact
    refine ⟨tree, rfl, rfl, ⟨blobWire, oneBlob, tree, [], none⟩, rfl, ?_⟩
    exact .graph nofun (Option.some.inj hartifact) rfl rfl rfl rfl nofun

end Demo

/-- A read of two bytes is told that there is one. -/
theorem read_exact_iff_short : ∃ tree,
    CachedTree.fromSnapshot KinVfs.Sample.sharedCodec KinVfs.Sample.sharedSnapshot = .ok tree ∧
    ∃ answer r', Exec (fun _ s => Serves s 0 2 KinVfs.Sample.first [97]) (KinNfsFs.read 0 2 0 2) (Demo.served tree)
      answer r' ∧ ReadExact [97] 0 2 answer := by
  obtain ⟨tree, htree, hserves⟩ := Demo.served_serves
  have he := ((read_yields (by decide) hserves 0 2).exec_run
    ⟨fun _ => trivial, fun _ _ => trivial⟩ hserves).mono fun _ _ hs => hs.2
  refine ⟨tree, htree, _, _, he, ?_⟩
  exact ((read_exact_iff 0 2 KinVfs.Sample.first [97] (by decide) _ _ hserves).1 0 2 _ he).2.mpr (by decide)

/-- A read of one byte is not told that there is no more. -/
theorem read_not_exact : ∃ tree,
    CachedTree.fromSnapshot KinVfs.Sample.sharedCodec KinVfs.Sample.sharedSnapshot = .ok tree ∧
    Serves (Demo.served tree) 0 2 KinVfs.Sample.first [97] ∧
    ∃ answer r', Exec (fun _ s => Serves s 0 2 KinVfs.Sample.first [97]) (KinNfsFs.read 0 2 0 1) (Demo.served tree)
      answer r' ∧ answer = .ok ([97], false) ∧ ¬ ReadExact [97] 0 1 answer := by
  obtain ⟨tree, htree, hserves⟩ := Demo.served_serves
  have hyields := read_yields (by decide) hserves 0 1
  have hrun := hyields.exec_run ⟨fun _ => trivial, fun _ _ => trivial⟩ hserves
  have he := hrun.mono fun _ _ hs => hs.2
  obtain ⟨hanswer, -⟩ := hyields.exec hserves hrun
  refine ⟨tree, htree, hserves, _, _, he, hanswer.trans rfl, ?_⟩
  rw [hanswer]
  exact fun hexact => absurd ((readExact_iff [97] 0 1).mp hexact) (by decide)

end KinVfs.Nfs
