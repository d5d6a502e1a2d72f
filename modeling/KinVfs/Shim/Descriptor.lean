import KinVfs.Posix.Stream
import KinVfs.Shim.NoFollow

/-!
# A virtual descriptor is a byte array

A descriptor that an open gave out for a file is a `Posix.Stream` of that file, whatever mix of `read`,
`pread` and `lseek` comes (`descriptor_is_stream`): it serves from the content in the handle when the
file is small, and by ranged reads that the daemon answers otherwise.
-/

namespace KinVfs

open Fallible

/-- `g` serves the file `content` at `key`. -/
structure ShowsFile (g : ContentProvider) (key : VfsPath) (content : Bytes) : Prop where
  stat : ∃ vstat, g.stat key = .ok vstat ∧ vstat.isFile = true ∧ vstat.isDir = false ∧
    vstat.isSymlink = false ∧ vstat.size = content.length
  readFile : g.readFile key = .ok content
  readRange : ∀ offset len, 0 < len → offset < content.length →
    g.readRange key offset len = .ok ((content.drop offset).take len)

/-- A file of a snapshot whose blob can be fetched. -/
theorem showsFile_of_blob {tree : CachedTree} {fetch : Hash256 → Nat → VfsPath → VfsResult Bytes}
    {key : VfsPath} {artifact : TreeArtifact} {hash : Hash256} {executable : Bool} {content : Bytes}
    (hp : tree.byPath[key]? = some artifact) (he : artifact.entry = .blob hash executable)
    (hfetch : fetch hash artifact.size key = .ok content) (hsize : artifact.size = content.length)
    (hfit : content.length ≤ u64Max) : ShowsFile (tree.provider fetch) key content where
  stat := by
    refine ⟨.regularFile artifact.size hash executable artifact.mtime, ?_, rfl, rfl, rfl, hsize⟩
    simp [CachedTree.provider, CachedTree.statPath, CachedTree.statForEntry, hp, he]
  readFile := by
    simp [CachedTree.provider, CachedTree.readFile, CachedTree.requireArtifact, hp,
      CachedTree.blobIdentity, he, bind, Except.bind, hfetch]
  readRange offset len hlen hoffset := by
    have hnot : ¬ (len = 0 ∨ artifact.size ≤ offset) := by omega
    simp [CachedTree.provider, CachedTree.readRange, CachedTree.requireArtifact, hp,
      CachedTree.blobIdentity, he, bind, Except.bind, hnot, hfetch, pure, Except.pure,
      CachedTree.sliceVerifiedBlob_eq_take hfit]

/-- The descriptor stands at `pos` of the file at `key`. -/
structure Stands (roots : List Bytes) (content : Bytes) (key : VfsPath) (fd pos : Nat) (s : Shim) :
    Prop where
  handle : ∃ handle, s.table.map[fd]? = some handle ∧ graphRequestKey roots handle.path = some key ∧
    handle.offset = pos ∧ handle.size = content.length ∧
    (handle.cachedContent = none ∨ handle.cachedContent = some content)
  small : pos ≤ Posix.maxFileSize

section Calls

variable {roots : List Bytes} {g g' : ContentProvider} {content : Bytes} {key : VfsPath}
  {fd pos : Nat} {s : Shim}

theorem exec_requireHandle {handle : VirtualFileHandle} (h : s.table.map[fd]? = some handle) :
    exec (requireHandle fd) s = (.ok handle, s) := by
  unfold requireHandle
  rw [exec_bind, exec_get]
  dsimp only
  rw [h]
  rfl

/-- The daemon reads a range and the length of the same bytes. -/
theorem clientReadRange_serves {offset len : Nat} (hg : ShowsFile g key content)
    (hg' : ShowsFile g' key content) (hlen : 0 < len) (hend : offset + len ≤ content.length) :
    clientReadRange g g' offset len content.length key =
      (some ((content.drop offset).take len), ⟨.none, 0⟩) := by
  obtain ⟨vstat, hstat, -, -, -, hsize⟩ := hg'.stat
  have hdata : g.readRange key offset len = .ok ((content.drop offset).take len) :=
    hg.readRange _ _ hlen (by omega)
  have hne : ¬ (offset = 0 ∧ len = 0) := by omega
  have hfits : vstat.size = content.length ∧
      ((content.drop offset).take len).length = min len (content.length - offset) := by
    refine ⟨hsize, ?_⟩
    rw [List.length_take, List.length_drop]
  unfold clientReadRange answerRead
  rw [if_neg hne, hdata]
  simp only [bind, Except.bind, hstat, pure, Except.pure]
  rw [if_pos hfits]

/-- What the client takes is the range it asked for, of a file of the length it expects. -/
theorem clientReadRange_eq_some {offset len total : Nat} {data : Bytes} (hlen : 0 < len)
    (h : (clientReadRange g g' offset len total key).1 = some data) :
    g.readRange key offset len = .ok data ∧ data.length = min len (total - offset) ∧
      ∃ vstat, g'.stat key = .ok vstat ∧ vstat.size = total := by
  have hne : ¬ (offset = 0 ∧ len = 0) := by omega
  unfold clientReadRange answerRead at h
  rw [if_neg hne] at h
  cases hread : g.readRange key offset len with
  | error e =>
    rw [hread] at h
    cases h
  | ok range =>
    rw [hread] at h
    cases hstat : g'.stat key with
    | error e =>
      rw [hstat] at h
      cases h
    | ok vstat =>
      rw [hstat] at h
      simp only [bind, Except.bind, pure, Except.pure] at h
      split at h
      · rename_i hfits
        cases h
        exact ⟨rfl, hfits.2, vstat, rfl, hfits.1⟩
      · cases h

/-- Both ways of serving a range give the range. -/
theorem readAt_serves {handle : VirtualFileHandle} (hg : ShowsFile g key content)
    (hg' : ShowsFile g' key content) (hkey : graphRequestKey roots handle.path = some key)
    (hsize : handle.size = content.length)
    (hcache : handle.cachedContent = none ∨ handle.cachedContent = some content)
    (offset count : Nat) :
    ∃ last, exec (readAt g roots g' handle offset count) s =
      (.ok (Posix.Stream.readAt content offset count), s.setLast last) := by
  unfold readAt Posix.Stream.readAt
  by_cases hend : handle.size ≤ offset
  · refine ⟨s.last, ?_⟩
    rw [if_pos hend, List.drop_eq_nil_of_le (by omega)]
    simp only [List.take_nil]
    rfl
  · rw [if_neg hend]
    by_cases h0 : min count (handle.size - offset) = 0
    · have hcount : count = 0 := by omega
      refine ⟨s.last, ?_⟩
      rw [if_pos h0, hcount, List.take_zero]
      rfl
    · rw [if_neg h0]
      have hrange : (content.drop offset).take (min count (handle.size - offset)) =
          (content.drop offset).take count := by
        rw [List.take_eq_take_iff, List.length_drop]
        omega
      rcases hcache with hcache | hcache
      · have hask := clientReadRange_serves hg hg' (by omega : 0 < min count (handle.size - offset))
          (by omega : offset + min count (handle.size - offset) ≤ content.length)
        rw [← hsize] at hask
        refine ⟨⟨.none, 0⟩, ?_⟩
        simp only [cachedSlice, hcache]
        rw [exec_bind, exec_callGraph, graphReadRange, graphCall_of_key hkey, hask]
        dsimp only [exec_pure]
        rw [List.take_take, Nat.min_self, hrange]
      · have hlt : offset < content.length := by omega
        refine ⟨s.last, ?_⟩
        simp only [cachedSlice, hcache, if_pos hlt]
        have hslice : (content.drop offset).take
            (min (offset + min count (handle.size - offset)) content.length - offset) =
              (content.drop offset).take count := by
          rw [List.take_eq_take_iff, List.length_drop]
          omega
        rw [hslice]
        rfl

theorem Stands.setLast (h : Stands roots content key fd pos s) (last : LastCall) :
    Stands roots content key fd pos (s.setLast last) :=
  ⟨h.handle, h.small⟩

/-- A seek whose exact result is an offset of a file has that result. -/
theorem seekTarget_exact {handle : VirtualFileHandle} {offset : Int} {whence : Posix.Whence}
    (hfit : content.length ≤ Posix.maxFileSize) (hpos : handle.offset ≤ Posix.maxFileSize)
    (hsize : handle.size = content.length)
    (h : Posix.Stream.InRange content handle.offset (.lseek offset whence)) :
    FdTable.seekTarget handle offset whence =
      some (Posix.Stream.seekTo content handle.offset offset whence).toNat := by
  obtain ⟨hlo, hhi⟩ := h
  cases whence with
  | seekSet =>
    simp only [Posix.Stream.seekTo] at hlo hhi ⊢
    simp only [FdTable.seekTarget]
    rw [if_neg (by omega)]
  | seekCur =>
    simp only [Posix.Stream.seekTo] at hlo hhi ⊢
    simp only [FdTable.seekTarget, FdTable.asI64, if_pos hpos]
    have hsat : FdTable.saturatingAddI64 handle.offset offset = handle.offset + offset := by
      unfold FdTable.saturatingAddI64
      omega
    rw [hsat, if_neg (by omega)]
  | seekEnd =>
    simp only [Posix.Stream.seekTo] at hlo hhi ⊢
    simp only [FdTable.seekTarget, FdTable.asI64, hsize, if_pos hfit]
    have hsat : FdTable.saturatingAddI64 content.length offset = content.length + offset := by
      unfold FdTable.saturatingAddI64
      omega
    rw [hsat, if_neg (by omega)]
  | other =>
    simp only [Posix.Stream.seekTo] at hlo
    omega

/-- A call of the shim on the descriptor. -/
def callOn (roots : List Bytes) (fd : Nat) (g g' : ContentProvider) :
    Posix.Stream.Call → HookM Posix.Stream.Answer
  | .read count => .bytes <$> read g roots g' fd count
  | .pread count offset => .bytes <$> pread g roots g' fd count offset
  | .lseek offset whence => .offset <$> lseek fd offset whence

/-- One call: the answer of the stream, and the descriptor stands where the stream does. -/
theorem call_serves (hg : ShowsFile g key content) (hg' : ShowsFile g' key content)
    (hfit : content.length ≤ Posix.maxFileSize) (h : Stands roots content key fd pos s)
    (call : Posix.Stream.Call) (hin : Posix.Stream.InRange content pos call) :
    ∃ s', exec (callOn roots fd g g' call) s = (.ok (Posix.Stream.step content pos call).1, s') ∧
      Stands roots content key fd (Posix.Stream.step content pos call).2 s' := by
  obtain ⟨handle, hmap, hkey, hoff, hsize, hcache⟩ := h.handle
  have hsmall := h.small
  cases call with
  | read count =>
    obtain ⟨last, hread⟩ := readAt_serves hg hg' hkey hsize hcache pos count
    simp only [callOn, read, Posix.Stream.step]
    rw [exec_map, exec_bind, exec_requireHandle hmap]
    dsimp only
    rw [hoff, exec_bind, hread]
    dsimp only
    by_cases h0 : Posix.Stream.readAt content pos count = []
    · rw [if_pos h0, h0]
      exact ⟨_, rfl, h.setLast last⟩
    · rw [if_neg h0]
      have hlen : pos + (Posix.Stream.readAt content pos count).length ≤ content.length := by
        have hpos : pos < content.length := by
          by_contra hle
          exact h0 (by simp [Posix.Stream.readAt, List.drop_eq_nil_of_le (Nat.le_of_not_lt hle)])
        simp only [Posix.Stream.readAt, List.length_take, List.length_drop]
        omega
      have hmoved : ((s.setLast last).table.advanceOffset fd
          (Posix.Stream.readAt content pos count).length).2.map[fd]? = some { handle with
            offset := min (handle.offset + (Posix.Stream.readAt content pos count).length)
              (2 ^ 64 - 1) } := by
        simp only [FdTable.advanceOffset, Shim.table_setLast, hmap, FdTable.getElem?_setHandle_self]
      refine ⟨_, rfl, ⟨⟨_, hmoved, hkey, ?_, hsize, hcache⟩, by omega⟩⟩
      simp only [Posix.maxFileSize] at hfit
      dsimp only
      omega
  | pread count offset =>
    obtain ⟨last, hread⟩ := readAt_serves hg hg' hkey hsize hcache offset count
    have hoffset : asU64 (offset : Int) = offset := by
      have hmax : offset ≤ Posix.maxFileSize := hin
      simp only [Posix.maxFileSize] at hmax
      unfold asU64
      omega
    simp only [callOn, pread, Posix.Stream.step]
    rw [exec_map, exec_bind, exec_requireHandle hmap]
    dsimp only
    rw [hoffset, hread]
    exact ⟨_, rfl, h.setLast last⟩
  | lseek offset whence =>
    rw [← hoff] at hin
    have hseek := seekTarget_exact hfit (by omega) hsize hin
    obtain ⟨-, hhi⟩ := hin
    simp only [callOn, lseek, Posix.Stream.step]
    rw [exec_map, exec_bind, exec_get]
    dsimp only
    rw [exec_bind, exec_set]
    simp only [FdTable.seek, hmap, hseek]
    rw [hoff] at hhi ⊢
    refine ⟨_, rfl, ⟨⟨_, FdTable.getElem?_setHandle_self _ _ _, hkey, rfl, hsize, hcache⟩, ?_⟩⟩
    omega

/-- The calls one after the other, each with the providers that the daemon answers from. -/
def runCalls (roots : List Bytes) (fd : Nat) :
    List (Posix.Stream.Call × ContentProvider × ContentProvider) → HookM (List Posix.Stream.Answer)
  | [] => return []
  | (call, g, g') :: calls => do
    let answer ← callOn roots fd g g' call
    return answer :: (← runCalls roots fd calls)

theorem run_serves (hfit : content.length ≤ Posix.maxFileSize)
    (calls : List (Posix.Stream.Call × ContentProvider × ContentProvider))
    (hg : ∀ c ∈ calls, ShowsFile c.2.1 key content ∧ ShowsFile c.2.2 key content)
    (h : Stands roots content key fd pos s)
    (hin : Posix.Stream.Within content pos (calls.map (·.1))) :
    ∃ s', exec (runCalls roots fd calls) s =
        (.ok (Posix.Stream.run content pos (calls.map (·.1))).1, s') ∧
      Stands roots content key fd (Posix.Stream.run content pos (calls.map (·.1))).2 s' := by
  induction calls generalizing s pos with
  | nil => exact ⟨s, rfl, h⟩
  | cons c calls ih =>
    obtain ⟨call, g, g'⟩ := c
    obtain ⟨⟨hg₁, hg₂⟩, hrest⟩ := List.forall_mem_cons.mp hg
    obtain ⟨hcall, hwithin⟩ := hin
    obtain ⟨s₁, hexec, hstands⟩ := call_serves hg₁ hg₂ hfit h call hcall
    obtain ⟨s₂, hexec', hstands'⟩ := ih hrest hstands hwithin
    refine ⟨s₂, ?_, hstands'⟩
    rw [runCalls, exec_bind, hexec]
    dsimp only
    rw [exec_bind, hexec']
    rfl

end Calls

/-! ## From the open on -/

section Open

variable {g : ContentProvider} {roots : List Bytes} {root : Bytes} {strict : Bool} {flags : OpenFlags}
  {p : Bytes} {key : VfsPath} {content : Bytes} {s s' : Shim} {fd : Nat}

theorem allocateVfd_stands {size : Nat} {c : Option Bytes} (hp : graphRequestKey roots p = some key)
    (hsize : size = content.length) (hc : c = none ∨ c = some content)
    (h : exec (allocateVfd p size c) s = (.ok (some fd), s')) :
    Stands roots content key fd 0 s' := by
  have hx : exec (allocateVfd p size c) s = (.ok (s.table.allocate p size c).1,
      { s with table := (s.table.allocate p size c).2 }) := rfl
  rcases ha : s.table.allocate p size c with ⟨fd', table⟩
  rw [hx, ha] at h
  cases h
  obtain ⟨-, hmap⟩ := FdTable.insertNew_spec ha
  have hself : table.map[fd]? = some {
      path := p
      offset := 0
      size := size
      cachedContent := c.filter fun c => c.length ≤ smallFileThreshold
      isDirectory := false
      dirEntries := none
      dirOffset := 0 } := by
    rw [hmap]
    exact Std.ExtTreeMap.getElem?_insert_self
  refine ⟨⟨_, hself, hp, rfl, hsize, ?_⟩, Nat.zero_le _⟩
  rcases hc with rfl | rfl
  · exact .inl rfl
  · by_cases hsmall : content.length ≤ smallFileThreshold
    · exact .inr (by simp [hsmall])
    · exact .inl (by simpa using hsmall)

/-- An open that gives a descriptor for a file stands at its start; the attributes are of the length
that the file has. -/
theorem openResolved_stands {vstat : VirtualStat} (hread : g.readFile key = .ok content)
    (hp : graphRequestKey roots p = some key) (hfile : vstat.isFile = true)
    (hdir : vstat.isDir = false) (hsize : vstat.size = content.length)
    (h : exec (openResolved g roots strict flags (.ok (p, vstat))) s = (.ok fd, s')) :
    Stands roots content key fd 0 s' := by
  unfold openResolved at h
  simp only [hdir, Bool.false_eq_true, ↓reduceIte, hfile] at h
  split at h
  · cases h
  · unfold openReadPayload at h
    split at h
    · rw [exec_bind, exec_bind, exec_callGraph, graphReadFile, graphCall_of_key hp] at h
      simp only [clientReadFile, clientAnswer, hread, exec_pure] at h
      exact allocateVfd_stands hp hsize (.inr rfl) (allocateVfd_opened (fun _ => rfl) (fun _ => rfl) h)
    · rw [exec_bind, exec_pure] at h
      exact allocateVfd_stands hp hsize (.inl rfl) (allocateVfd_opened (fun _ => rfl) (fun _ => rfl) h)

/-- An open that follows gives a descriptor of the file that the path resolves to. -/
theorem openRead_stands (hm : MapsBack roots root) (hg : ShowsFile g key content) {k : VfsPath}
    (hp : graphRequestKey roots p = some k) (hflags : flags.nofollow = false) {vstat : VirtualStat}
    (hr : (exec (resolveGraphPath (daemonOracle g roots) roots root k) s.resolver).1 =
      .ok (hostPath root key, vstat)) (hstat : g.stat key = .ok vstat)
    (h : exec (openRead g roots root strict flags p) s = (.ok fd, s')) :
    Stands roots content key fd 0 s' := by
  obtain ⟨vstat', hstat', hfile, hdir, -, hsize⟩ := hg.stat
  obtain rfl : vstat' = vstat := Except.ok.inj (hstat'.symm.trans hstat)
  unfold openRead at h
  rw [if_neg (by simp [hflags]), exec_bind, exec_graphStatFollow hp, hr] at h
  exact openResolved_stands hg.readFile (hm key) hfile hdir hsize h

/-- An open that does not follow gives one of the file at the path's own key. -/
theorem openRead_stands_nofollow (hg : ShowsFile g key content)
    (hp : graphRequestKey roots p = some key) (hflags : flags.nofollow = true)
    (h : exec (openRead g roots root strict flags p) s = (.ok fd, s')) :
    Stands roots content key fd 0 s' := by
  obtain ⟨vstat, hstat, hfile, hdir, hlink, hsize⟩ := hg.stat
  unfold openRead at h
  rw [if_pos hflags, exec_bind, exec_callGraph, graphStat, graphCall_of_key hp] at h
  simp only [clientStat, hstat, hlink, Bool.false_eq_true, ↓reduceIte] at h
  exact openResolved_stands hg.readFile hp hfile hdir hsize h

end Open

/-- The path leads to the file at `key`: it resolves there, or names it without following. -/
def LeadsTo (g : ContentProvider) (roots : List Bytes) (root : Bytes) (flags : OpenFlags) (p : Bytes)
    (key : VfsPath) (s : Shim) : Prop :=
  if flags.nofollow then graphRequestKey roots p = some key
  else ∃ k vstat, graphRequestKey roots p = some k ∧ g.stat key = .ok vstat ∧
    (exec (resolveGraphPath (daemonOracle g roots) roots root k) s.resolver).1 =
      .ok (hostPath root key, vstat)

/-- A descriptor of a file that stays as it is answers every call as the byte array does, and reads
from the start until one of something gives nothing are the file. -/
theorem descriptor_is_stream {g : ContentProvider} {roots : List Bytes} {root : Bytes}
    (hm : MapsBack roots root) (strict : Bool) {flags : OpenFlags} {p : Bytes} {key : VfsPath}
    {content : Bytes} (hg : ShowsFile g key content) (hfit : content.length ≤ Posix.maxFileSize)
    {s s' : Shim} (hp : LeadsTo g roots root flags p key s) {fd : Nat}
    (hopen : exec (openRead g roots root strict flags p) s = (.ok fd, s'))
    (calls : List (Posix.Stream.Call × ContentProvider × ContentProvider))
    (hcalls : ∀ c ∈ calls, ShowsFile c.2.1 key content ∧ ShowsFile c.2.2 key content) :
    (Posix.Stream.Within content 0 (calls.map (·.1)) →
      (exec (runCalls roots fd calls) s').1 =
        .ok (Posix.Stream.run content 0 (calls.map (·.1))).1) ∧
    ∀ counts last, calls.map (·.1) = (counts ++ [last]).map .read → 0 < last →
      ∀ answers, (exec (runCalls roots fd calls) s').1 = .ok (answers ++ [.bytes []]) →
        answers.flatMap Posix.Stream.Answer.data = content := by
  have hstands : Stands roots content key fd 0 s' := by
    unfold LeadsTo at hp
    split at hp
    · rename_i hflags
      exact openRead_stands_nofollow hg hp hflags hopen
    · rename_i hflags
      obtain ⟨k, vstat, hk, hstat, hr⟩ := hp
      exact openRead_stands hm hg hk (by simpa using hflags) hr hstat hopen
  have hrun : Posix.Stream.Within content 0 (calls.map (·.1)) →
      (exec (runCalls roots fd calls) s').1 =
        .ok (Posix.Stream.run content 0 (calls.map (·.1))).1 := by
    intro hwithin
    obtain ⟨s₁, hexec, -⟩ := run_serves hfit calls hcalls hstands hwithin
    rw [hexec]
  refine ⟨hrun, fun counts last hreads hlast answers hanswers => ?_⟩
  have hwithin : Posix.Stream.Within content 0 (calls.map (·.1)) := by
    rw [hreads]
    exact Posix.Stream.within_reads _ 0
  rw [hrun hwithin, hreads] at hanswers
  exact Posix.Stream.run_reads_to_end hlast (Except.ok.inj hanswers)

namespace Sample

/-- A read-only open that follows. -/
def readOnly : OpenFlags := ⟨false, false, false, false, false, false, false, false⟩

/-- The host path `/w/l/f`. -/
def linkedPath : Bytes := hostPath workspace (link.join fileName)

/-- The blob at `d/f`. -/
def linkedBlob (tree : CachedTree) : Option (TreeEntry × Nat) :=
  tree.byPath[directory.join fileName]?.map fun a => (a.entry, a.size)

theorem linkedTree_blob :
    (CachedTree.fromSnapshot linkedCodec linkedSnapshot).toOption.map linkedBlob =
      some (some (.blob hashA false, 1)) := by decide +kernel

end Sample

/-- `/w/l/f`, through the link `l`: seeks to the end, back, reads twice. -/
theorem descriptor_is_stream_linked :
    ∃ tree s', CachedTree.fromSnapshot Sample.linkedCodec Sample.linkedSnapshot = .ok tree ∧
      exec (openRead (tree.provider Sample.twoBlobs) [Sample.workspace] Sample.workspace false
        Sample.readOnly Sample.linkedPath) Sample.freshShim = (.ok 10000, s') ∧
      (exec (runCalls [Sample.workspace] 10000 ([.lseek 1 .seekEnd, .lseek 0 .seekSet, .read 8,
        .read 8].map fun c => (c, tree.provider Sample.twoBlobs, tree.provider Sample.twoBlobs))) s').1 =
          .ok [.offset 2, .offset 0, .bytes [97], .bytes []] := by
  obtain ⟨tree, hf, -, -⟩ := Sample.linkedTree_ok
  have hblob := Sample.linkedTree_blob
  have hends := Sample.linkedTree_ends
  rw [hf] at hblob hends
  obtain ⟨hl, hends⟩ := Prod.mk.inj (Option.some.inj hends)
  obtain ⟨-, hstat⟩ := Prod.mk.inj hends
  have hstat : (tree.provider Sample.twoBlobs).stat (Sample.directory.join Sample.fileName) =
      .ok (.regularFile 1 Sample.hashA false 0) := Except.toOption_eq_some.mp hstat
  obtain ⟨artifact, hp, he⟩ := Option.map_eq_some_iff.mp (Option.some.inj hblob)
  obtain ⟨hentry, hsize⟩ := Prod.mk.inj he
  have hroot : hostComponents Sample.workspace = .ok (none, [[119]]) := by decide
  have hm : MapsBack [Sample.workspace] Sample.workspace := mapsBack_single hroot
  have hshows : ShowsFile (tree.provider Sample.twoBlobs) (Sample.directory.join Sample.fileName) [97] :=
    showsFile_of_blob hp hentry rfl hsize (by decide)
  have hcache : Sample.freshShim.resolver.cache.Holds (FactTrue (tree.provider Sample.twoBlobs)) :=
    StatCache.holds_new _
  have hr := resolve_present (founded_of_accepted (accepted_of_fromSnapshot hf)) hm
    (.inr ⟨_, Except.toOption_eq_some.mp hl, rfl⟩) hcache hstat rfl
  have hok : (exec (openRead (tree.provider Sample.twoBlobs) [Sample.workspace] Sample.workspace false
      Sample.readOnly Sample.linkedPath) Sample.freshShim).1 = .ok 10000 := by
    rw [Sample.linkedPath, exec_openRead_follow (hm _) rfl]
    rcases hx : exec (resolveGraphPath (daemonOracle (tree.provider Sample.twoBlobs)
      [Sample.workspace]) [Sample.workspace] Sample.workspace (Sample.link.join Sample.fileName))
      Sample.freshShim.resolver with ⟨out, r⟩
    rw [hx] at hr
    cases hr
    dsimp only
    have hfree : Sample.freshShim.table.nextVfd.1 = some 10000 := by decide
    rw [exec_openResolved (hm _), entryOpen, hshows.readFile, hfree]
    rfl
  rcases hx : exec (openRead (tree.provider Sample.twoBlobs) [Sample.workspace] Sample.workspace false
    Sample.readOnly Sample.linkedPath) Sample.freshShim with ⟨out, s'⟩
  rw [hx] at hok
  dsimp only at hok
  subst hok
  refine ⟨tree, s', hf, hx, ?_⟩
  have hleads : LeadsTo (tree.provider Sample.twoBlobs) [Sample.workspace] Sample.workspace
      Sample.readOnly Sample.linkedPath (Sample.directory.join Sample.fileName) Sample.freshShim :=
    ⟨_, _, hm _, hstat, hr⟩
  have hcalls : ∀ c ∈ [.lseek 1 .seekEnd, .lseek 0 .seekSet, .read 8, .read 8].map fun c =>
      ((c : Posix.Stream.Call), tree.provider Sample.twoBlobs, tree.provider Sample.twoBlobs),
      ShowsFile c.2.1 (Sample.directory.join Sample.fileName) [97] ∧
        ShowsFile c.2.2 (Sample.directory.join Sample.fileName) [97] := by
    intro c hc
    obtain ⟨call, -, rfl⟩ := List.mem_map.mp hc
    exact ⟨hshows, hshows⟩
  refine ((descriptor_is_stream hm false hshows (by decide) hleads hx _ hcalls).1 ?_).trans rfl
  have hend : Posix.Stream.InRange [97] 0 (.lseek 1 .seekEnd) := by
    simp [Posix.Stream.InRange, Posix.Stream.seekTo, Posix.maxFileSize]
  have hstart : Posix.Stream.InRange [97] 2 (.lseek 0 .seekSet) := by
    simp [Posix.Stream.InRange, Posix.Stream.seekTo]
  exact ⟨hend, hstart, trivial, trivial, trivial⟩

end KinVfs
