import KinVfs.Lib.Runs
import KinVfs.Shim.Descriptor

/-!
# One descriptor and the versions of its file

`Live` is a process with an open descriptor while the graph is published again and again. A small file
is read once, at the open; of a large one each call asks the daemon about the path again, and only the
length of the answer is compared. So what a descriptor has shown is of one version (`SingleVersion`) as
long as each call that asks finds the bytes of the open, or an answer that it refuses
(`single_version_of_steady`).
-/

namespace KinVfs

open Fallible Fold

/-- What a descriptor has shown. -/
inductive Observed where
  | bytes (offset : Nat) (data : Bytes)
  | mapping (data : Bytes)
  | size (n : Nat)
  deriving DecidableEq

/-- It is of this content. -/
def Observed.From (content : Bytes) : Observed → Prop
  | .bytes offset data => data <+: content.drop offset
  | .mapping data => data = content
  | .size n => n = content.length

/-- A version answers range reads and lengths from the bytes it serves. -/
structure Coherent (g : ContentProvider) (key : VfsPath) : Prop where
  range : ∀ offset len data, data ≠ [] → g.readRange key offset len = .ok data →
    ∃ content, g.readFile key = .ok content ∧ data = (content.drop offset).take len
  size : ∀ content vstat, g.readFile key = .ok content → g.stat key = .ok vstat →
    vstat.size = content.length

/-- The snapshots do, when a fetched blob has the length it was asked for. -/
theorem coherent_tree {tree : CachedTree} {fetch : Hash256 → Nat → VfsPath → VfsResult Bytes}
    (hfetch : ∀ hash size p data, fetch hash size p = .ok data → data.length = size)
    {key : VfsPath} (hfit : ∀ a, tree.byPath[key]? = some a → a.size ≤ u64Max) :
    Coherent (tree.provider fetch) key where
  range offset len data hne h := by
    have hread : tree.readRange fetch key offset len = .ok data := h
    unfold CachedTree.readRange at hread
    obtain ⟨artifact, hp, hread⟩ := bind_eq_ok.mp hread
    obtain ⟨hash, hid, hread⟩ := bind_eq_ok.mp hread
    split at hread
    · cases hread
      exact absurd rfl hne
    · obtain ⟨content, hf, hread⟩ := bind_eq_ok.mp hread
      refine ⟨content, ?_, ?_⟩
      · show tree.readFile fetch key = _
        simp [CachedTree.readFile, hp, hid, hf, bind, Except.bind]
      · have hdata : CachedTree.sliceVerifiedBlob content offset len = data := Except.ok.inj hread
        have hlen := hfetch _ _ _ _ hf
        have hsome : tree.byPath[key]? = some artifact := by
          unfold CachedTree.requireArtifact at hp
          split at hp
          · cases hp
            assumption
          · split at hp <;> cases hp
        have hmax := hfit artifact hsome
        rw [← hdata]
        exact CachedTree.sliceVerifiedBlob_eq_take (by omega)
  size content vstat h hs := by
    have hread : tree.readFile fetch key = .ok content := h
    have hstat : tree.statPath key = .ok vstat := hs
    unfold CachedTree.readFile at hread
    obtain ⟨artifact, hp, hread⟩ := bind_eq_ok.mp hread
    obtain ⟨hash, hid, hread⟩ := bind_eq_ok.mp hread
    have hlen := hfetch _ _ _ _ hread
    unfold CachedTree.requireArtifact at hp
    unfold CachedTree.statPath at hstat
    split at hp
    · rename_i a ha
      cases hp
      rw [ha] at hstat
      unfold CachedTree.statForEntry at hstat
      unfold CachedTree.blobIdentity at hid
      cases he : artifact.entry <;> simp only [he] at hstat hid <;> cases hstat
      · exact hlen.symm
      · exact hlen.symm
    · split at hp <;> cases hp

/-- A published version of the file at `key`. -/
structure Version (key : VfsPath) where
  provider : ContentProvider
  coherent : Coherent provider key

/-- A process with an open descriptor, and what has been published. -/
structure Live (key : VfsPath) where
  history : List (Version key)
  current : Version key
  shim : Shim
  observed : List Observed

/-- What happens to the descriptor. `between` is what is published while the daemon answers a read,
after it read the range and before it reads the length. -/
inductive Event (key : VfsPath) where
  | publish (v : Version key)
  | read (count : Nat) (between : List (Version key))
  | pread (count : Nat) (offset : Int) (between : List (Version key))
  | lseek (offset : Int) (whence : Posix.Whence)
  | mmap (len : Nat) (shared : Bool)
  | fstat

section Live

variable {key : VfsPath}

def Live.publish (l : Live key) (vs : List (Version key)) : Live key :=
  { l with history := l.history ++ vs, current := vs.getLast?.getD l.current }

/-- The process goes on after the call, and has been shown `o` when it succeeded. -/
def Live.after {α : Type} (l : Live key) (r : Except Errno α × Shim) (o : α → Observed) : Live key :=
  { l with
    shim := r.2
    observed := match r.1 with
      | .ok a => l.observed ++ [o a]
      | .error _ => l.observed }

def Live.offset (l : Live key) (fd : Nat) : Nat := (l.shim.table.map[fd]?.map (·.offset)).getD 0

def liveStep (roots : List Bytes) (fd : Nat) (l : Live key) : Event key → Option (Live key)
  | .publish v => some (l.publish [v])
  | .read count between =>
    let l' := l.publish between
    some (l'.after (exec (read l.current.provider roots l'.current.provider fd count) l.shim)
      (.bytes (l.offset fd)))
  | .pread count offset between =>
    let l' := l.publish between
    some (l'.after (exec (pread l.current.provider roots l'.current.provider fd count offset) l.shim)
      (.bytes (asU64 offset)))
  | .lseek offset whence => some { l with shim := (exec (lseek fd offset whence) l.shim).2 }
  | .mmap len shared =>
    some (l.after (exec (mmap l.current.provider roots fd len shared) l.shim) .mapping)
  | .fstat =>
    some (l.after (exec (fstat l.current.provider roots fd) l.shim) fun buf => .size buf.size)

/-- What the descriptor has shown is of one published version. -/
def SingleVersion (l : Live key) : Prop :=
  ∃ v ∈ l.history, ∃ content, v.provider.readFile key = .ok content ∧
    ∀ o ∈ l.observed, o.From content

/-- The version serves `content`, or nothing that is read whole. -/
def Version.Keeps (v : Version key) (content : Bytes) : Prop :=
  ∀ c, v.provider.readFile key = .ok c → c = content

/-- The handle has the content. -/
def Live.Cached (l : Live key) (fd : Nat) : Prop :=
  ∀ handle, l.shim.table.map[fd]? = some handle → handle.cachedContent ≠ none

/-- A call that asks the daemon finds the bytes of the open, or an answer it refuses. -/
def Steady (fd : Nat) (content : Bytes) (l : Live key) : Event key → Prop
  | .publish _ | .lseek .. => True
  | .read _ between | .pread _ _ between =>
    l.Cached fd ∨ l.current.Keeps content ∨
      ∀ vstat, (l.publish between).current.provider.stat key = .ok vstat →
        vstat.size ≠ content.length
  | .mmap .. => l.Cached fd ∨ l.current.Keeps content
  | .fstat => ∀ vstat, l.current.provider.stat key = .ok vstat → vstat.size = content.length

end Live

section Invariant

variable {roots : List Bytes} {key : VfsPath} {content : Bytes} {fd : Nat} {l l' : Live key}

/-- The handle is of the file with these bytes. -/
def Holding (roots : List Bytes) (key : VfsPath) (content : Bytes) (fd : Nat) (s : Shim) : Prop :=
  ∃ handle, s.table.map[fd]? = some handle ∧ graphRequestKey roots handle.path = some key ∧
    handle.size = content.length ∧
    (handle.cachedContent = none ∨ handle.cachedContent = some content)

/-- And what was shown is of these bytes, which were published. -/
structure Viewed (roots : List Bytes) (content : Bytes) (fd : Nat) (l : Live key) : Prop where
  holding : Holding roots key content fd l.shim
  version : ∃ v ∈ l.history, v.provider.readFile key = .ok content
  observed : ∀ o ∈ l.observed, o.From content

theorem Viewed.publish (h : Viewed roots content fd l) (vs : List (Version key)) :
    Viewed roots content fd (l.publish vs) where
  holding := h.holding
  version := by
    obtain ⟨v, hv, hread⟩ := h.version
    exact ⟨v, List.mem_append_left _ hv, hread⟩
  observed := h.observed

/-- The state after a call that kept the handle and showed, if anything, something of `content`. -/
theorem Viewed.after {α : Type} (h : Viewed roots content fd l) {r : Except Errno α × Shim}
    {o : α → Observed} (hhold : Holding roots key content fd r.2)
    (ho : ∀ a, r.1 = .ok a → (o a).From content) : Viewed roots content fd (l.after r o) where
  holding := hhold
  version := h.version
  observed o' ho' := by
    unfold Live.after at ho'
    cases hr : r.1 with
    | error e =>
      rw [hr] at ho'
      exact h.observed o' ho'
    | ok a =>
      rw [hr] at ho'
      rcases List.mem_append.mp ho' with ho' | ho'
      · exact h.observed o' ho'
      · rw [List.mem_singleton.mp ho']
        exact ho a hr

/-- A range that was given out is of the bytes of the open. -/
theorem readAt_of_steady {g g' : ContentProvider} {handle : VirtualFileHandle} {s s' : Shim}
    {offset count : Nat} {out : Except Errno Bytes} (hg : Coherent g key)
    (hkey : graphRequestKey roots handle.path = some key) (hsize : handle.size = content.length)
    (hcache : handle.cachedContent = none ∨ handle.cachedContent = some content)
    (hsteady : handle.cachedContent ≠ none ∨ (∀ c, g.readFile key = .ok c → c = content) ∨
      ∀ vstat, g'.stat key = .ok vstat → vstat.size ≠ content.length)
    (h : exec (readAt g roots g' handle offset count) s = (out, s')) :
    s'.table = s.table ∧ ∀ data, out = .ok data → data <+: content.drop offset := by
  unfold readAt at h
  split at h
  · cases h
    exact ⟨rfl, fun data hd => by cases hd; exact List.nil_prefix⟩
  · rename_i hend
    dsimp only at h
    split at h
    · cases h
      exact ⟨rfl, fun data hd => by cases hd; exact List.nil_prefix⟩
    · rename_i h0
      rcases hcache with hcache | hcache
      · simp only [cachedSlice, hcache] at h
        rw [exec_bind, exec_callGraph, graphReadRange, graphCall_of_key hkey] at h
        cases hask : (clientReadRange g g' offset (min count (handle.size - offset)) handle.size key).1 with
        | none =>
          rw [hask] at h
          cases h
          exact ⟨rfl, fun data hd => by cases hd⟩
        | some data =>
          rw [hask] at h
          cases h
          refine ⟨rfl, fun d hd => ?_⟩
          cases hd
          -- The range was read from `g`, and the length from `g'`.
          obtain ⟨hread, hlen, vstat, hstat, htotal⟩ := clientReadRange_eq_some (by omega) hask
          have hdata : data ≠ [] := by
            rintro rfl
            rw [List.length_nil] at hlen
            omega
          obtain ⟨c, hc, hslice⟩ := hg.range _ _ _ hdata hread
          rcases hsteady with hsteady | hsteady | hsteady
          · exact absurd hcache hsteady
          · rw [hsteady c hc] at hslice
            rw [hslice]
            exact (List.take_prefix _ _).trans (List.take_prefix _ _)
          · exact absurd (htotal.trans hsize) (hsteady vstat hstat)
      · have hlt : offset < content.length := by omega
        simp only [cachedSlice, hcache, if_pos hlt] at h
        cases h
        exact ⟨rfl, fun data hd => by cases hd; exact List.take_prefix _ _⟩

section Calls

variable {g g' : ContentProvider} {handle : VirtualFileHandle} {s : Shim}
  (hmap : s.table.map[fd]? = some handle) (hkey : graphRequestKey roots handle.path = some key)
  (hsize : handle.size = content.length)
  (hcache : handle.cachedContent = none ∨ handle.cachedContent = some content)

include hmap hkey hsize hcache

theorem read_of_steady (count : Nat) (hg : Coherent g key)
    (hsteady : handle.cachedContent ≠ none ∨ (∀ c, g.readFile key = .ok c → c = content) ∨
      ∀ vstat, g'.stat key = .ok vstat → vstat.size ≠ content.length) :
    Holding roots key content fd (exec (read g roots g' fd count) s).2 ∧
      ∀ data, (exec (read g roots g' fd count) s).1 = .ok data → data <+: content.drop handle.offset := by
  unfold read
  rw [exec_bind, exec_requireHandle hmap]
  dsimp only
  rw [exec_bind]
  rcases hr : exec (readAt g roots g' handle handle.offset count) s with ⟨out, s'⟩
  obtain ⟨htable, hdata⟩ := readAt_of_steady hg hkey hsize hcache hsteady hr
  have hmap' : s'.table.map[fd]? = some handle := by rw [htable, hmap]
  have hhold : Holding roots key content fd s' := ⟨handle, hmap', hkey, hsize, hcache⟩
  cases out with
  | error e => exact ⟨hhold, fun data hd => by cases hd⟩
  | ok data =>
    dsimp only
    split
    · exact ⟨hhold, fun d hd => by cases hd; exact List.nil_prefix⟩
    · refine ⟨⟨{ handle with offset := min (handle.offset + data.length) (2 ^ 64 - 1) }, ?_, hkey,
        hsize, hcache⟩, fun d hd => by cases hd; exact hdata data rfl⟩
      show (s'.table.advanceOffset fd data.length).2.map[fd]? = _
      simp only [FdTable.advanceOffset, hmap', FdTable.getElem?_setHandle_self]

theorem pread_of_steady (count : Nat) (offset : Int) (hg : Coherent g key)
    (hsteady : handle.cachedContent ≠ none ∨ (∀ c, g.readFile key = .ok c → c = content) ∨
      ∀ vstat, g'.stat key = .ok vstat → vstat.size ≠ content.length) :
    Holding roots key content fd (exec (pread g roots g' fd count offset) s).2 ∧
      ∀ data, (exec (pread g roots g' fd count offset) s).1 = .ok data →
        data <+: content.drop (asU64 offset) := by
  unfold pread
  rw [exec_bind, exec_requireHandle hmap]
  dsimp only
  rcases hr : exec (readAt g roots g' handle (asU64 offset) count) s with ⟨out, s'⟩
  obtain ⟨htable, hdata⟩ := readAt_of_steady hg hkey hsize hcache hsteady hr
  exact ⟨⟨handle, by rw [htable, hmap], hkey, hsize, hcache⟩, hdata⟩

theorem lseek_holding (offset : Int) (whence : Posix.Whence) :
    Holding roots key content fd (exec (lseek fd offset whence) s).2 := by
  have hx : (exec (lseek fd offset whence) s).2 =
      { s with table := (s.table.seek fd offset whence).2 } := by
    unfold lseek
    rw [exec_bind, exec_get]
    dsimp only
    rw [exec_bind, exec_set]
    dsimp only
    split <;> rfl
  rw [hx]
  simp only [FdTable.seek, hmap]
  cases FdTable.seekTarget handle offset whence with
  | none => exact ⟨handle, hmap, hkey, hsize, hcache⟩
  | some new => exact ⟨_, FdTable.getElem?_setHandle_self _ _ _, hkey, hsize, hcache⟩

theorem mmap_of_steady (len : Nat) (shared : Bool)
    (hsteady : handle.cachedContent ≠ none ∨ ∀ c, g.readFile key = .ok c → c = content) :
    Holding roots key content fd (exec (mmap g roots fd len shared) s).2 ∧
      ∀ data, (exec (mmap g roots fd len shared) s).1 = .ok data → data = content := by
  have hhold : ∀ last, Holding roots key content fd (s.setLast last) :=
    fun _ => ⟨handle, hmap, hkey, hsize, hcache⟩
  unfold mmap
  cases shared with
  | true => exact ⟨hhold s.last, fun data hd => by cases hd⟩
  | false =>
    simp only [Bool.false_eq_true, ↓reduceIte]
    rw [exec_bind, exec_requireHandle hmap]
    dsimp only
    by_cases hdir : handle.isDirectory = true
    · rw [if_pos hdir]
      exact ⟨hhold s.last, fun data hd => by cases hd⟩
    rw [if_neg hdir]
    rcases hcache with hcache | hcache
    · simp only [hcache]
      rw [exec_bind, exec_callGraph, graphReadFile, graphCall_of_key hkey, clientReadFile]
      cases hread : g.readFile key with
      | error e => exact ⟨hhold _, fun data hd => by cases hd⟩
      | ok c =>
        have hc : c = content := by
          rcases hsteady with hsteady | hsteady
          · exact absurd hcache hsteady
          · exact hsteady c hread
        subst hc
        simp only [clientAnswer, exec_bind, exec_pure]
        by_cases hlen : (if len = 0 then c.length else len) = 0 <;> simp only [hlen, ↓reduceIte]
        · exact ⟨hhold _, fun data hd => by cases hd⟩
        · exact ⟨hhold _, fun data hd => by cases hd; rfl⟩
    · simp only [hcache, exec_bind, exec_pure]
      by_cases hlen : (if len = 0 then content.length else len) = 0 <;> simp only [hlen, ↓reduceIte]
      · exact ⟨hhold s.last, fun data hd => by cases hd⟩
      · exact ⟨hhold s.last, fun data hd => by cases hd; rfl⟩

theorem fstat_of_steady (hsteady : ∀ vstat, g.stat key = .ok vstat → vstat.size = content.length) :
    Holding roots key content fd (exec (fstat g roots fd) s).2 ∧
      ∀ buf, (exec (fstat g roots fd) s).1 = .ok buf → buf.size = content.length := by
  unfold fstat
  rw [exec_bind, exec_requireHandle hmap]
  dsimp only
  rw [exec_bind, exec_callGraph, graphStat, graphCall_of_key hkey, clientStat]
  cases hstat : g.stat key with
  | error e => exact ⟨⟨handle, hmap, hkey, hsize, hcache⟩, fun buf hb => by cases hb⟩
  | ok vstat =>
    exact ⟨⟨handle, hmap, hkey, hsize, hcache⟩, fun buf hb => by cases hb; exact hsteady vstat hstat⟩

end Calls

/-- One event, as long as it is steady. -/
theorem liveStep_viewed {e : Event key} (h : Viewed roots content fd l)
    (hsteady : Steady fd content l e) (hstep : liveStep roots fd l e = some l') :
    Viewed roots content fd l' := by
  obtain ⟨handle, hmap, hkey, hsize, hcache⟩ := h.holding
  cases e with
  | publish v =>
    cases hstep
    exact h.publish [v]
  | read count between =>
    cases hstep
    obtain ⟨hhold, hdata⟩ := read_of_steady hmap hkey hsize hcache count l.current.coherent
      (hsteady.imp_left fun hc => hc handle hmap)
    have hoff : l.offset fd = handle.offset := by simp [Live.offset, hmap]
    refine (h.publish between).after hhold fun data hd => ?_
    show data <+: content.drop (l.offset fd)
    rw [hoff]
    exact hdata data hd
  | pread count offset between =>
    cases hstep
    obtain ⟨hhold, hdata⟩ := pread_of_steady hmap hkey hsize hcache count offset
      l.current.coherent (hsteady.imp_left fun hc => hc handle hmap)
    exact (h.publish between).after hhold hdata
  | lseek offset whence =>
    cases hstep
    exact ⟨lseek_holding hmap hkey hsize hcache offset whence, h.version, h.observed⟩
  | mmap len shared =>
    cases hstep
    obtain ⟨hhold, hdata⟩ := mmap_of_steady hmap hkey hsize hcache len shared
      (hsteady.imp_left fun hc => hc handle hmap)
    exact h.after hhold hdata
  | fstat =>
    cases hstep
    obtain ⟨hhold, hbuf⟩ := fstat_of_steady hmap hkey hsize hcache hsteady
    exact h.after hhold hbuf

end Invariant

/-- From an open on that found the length of the file it read, through every run of steady events. The
attributes `vstat` may be of an older version than `v`. -/
theorem single_version_of_steady {roots : List Bytes} {strict : Bool} {flags : OpenFlags} {p : Bytes}
    {key : VfsPath} {content : Bytes} {vstat : VirtualStat} {v : Version key} {s s' : Shim} {fd : Nat}
    (hkey : graphRequestKey roots p = some key) (hfile : vstat.isFile = true)
    (hdir : vstat.isDir = false) (hread : v.provider.readFile key = .ok content)
    (hsize : vstat.size = content.length)
    (hopen : exec (openResolved v.provider roots strict flags (.ok (p, vstat))) s = (.ok fd, s'))
    {history : List (Version key)} (hv : v ∈ history) {events : List (Event key)} {l : Live key}
    (hsteady : Runs.Meets (liveStep roots fd) (Steady fd content) ⟨history, v, s', []⟩ events)
    (hrun : Runs.run (liveStep roots fd) ⟨history, v, s', []⟩ events = some l) : SingleVersion l := by
  have hstands := openResolved_stands hread hkey hfile hdir hsize hopen
  have hstart : Viewed roots content fd ⟨history, v, s', []⟩ := by
    obtain ⟨handle, hmap, hpath, -, hlen, hcache⟩ := hstands.handle
    exact ⟨⟨handle, hmap, hpath, hlen, hcache⟩, ⟨v, hv, hread⟩, fun o ho => nomatch ho⟩
  have hend : Viewed roots content fd l :=
    Runs.run_inv_of_meets (fun _ _ _ h hC hstep => liveStep_viewed h hC hstep) hstart hsteady hrun
  obtain ⟨w, hw, hwread⟩ := hend.version
  exact ⟨w, hw, content, hwread, hend.observed⟩

/-- An open of a large file reads nothing of it. -/
theorem exec_openResolved_large {g : ContentProvider} {roots : List Bytes} {strict : Bool}
    {flags : OpenFlags} {p : Bytes} {vstat : VirtualStat} (hfile : vstat.isFile = true)
    (hdir : vstat.isDir = false) (hflags : flags.directory = false)
    (hlarge : smallFileThreshold < vstat.size) (s : Shim) :
    exec (openResolved g roots strict flags (.ok (p, vstat))) s = exec (do
      match ← allocateVfd p vstat.size none with
      | some fd => return fd
      | none => throw .eio) s := by
  unfold openResolved openReadPayload
  simp only [hdir, hflags, Bool.false_eq_true, ↓reduceIte, hfile, if_neg (Nat.not_le.mpr hlarge)]
  rfl

namespace Sample

def zeros : Bytes := List.replicate 65537 0

def ones : Bytes := List.replicate 65537 1

/-- Their SHA-256, and those of what the root directory feeds. -/
def hashZeros : Hash256 :=
  #v[50, 102, 48, 79, 49, 190, 39, 141, 6, 195, 189, 62, 185, 170, 62, 0,
    197, 155, 237, 236, 10, 137, 13, 228, 102, 86, 139, 11, 144, 176, 224, 31]

def hashOnes : Hash256 :=
  #v[138, 106, 228, 6, 90, 200, 0, 74, 121, 195, 46, 252, 166, 43, 177, 65,
    149, 39, 220, 243, 149, 91, 209, 178, 86, 210, 103, 122, 125, 71, 2, 93]

def rootZeros : Hash256 :=
  #v[163, 207, 41, 39, 237, 182, 147, 246, 81, 201, 6, 129, 83, 248, 13, 229,
    152, 65, 240, 102, 229, 113, 149, 57, 238, 70, 22, 23, 47, 130, 89, 49]

def rootOnes : Hash256 :=
  #v[247, 68, 204, 18, 110, 61, 187, 174, 89, 47, 170, 41, 204, 76, 246, 41,
    173, 175, 74, 235, 218, 23, 119, 44, 123, 210, 123, 236, 35, 143, 78, 114]

/-- The file `f` of 65537 bytes. -/
def largeSnapshot (hash : Hash256) (generation : Nat) : WorkspaceTreeSnapshot :=
  ⟨⟨"r1", "w1", generation, generation, []⟩,
    [⟨[102], Vector.replicate 16 0, .blob hash false, 65537, 0⟩]⟩

def largeCodec : TreeCodec where
  identity _ := .ok "sha256:4"
  showRepoPath := Text.fromUtf8Lossy
  sha256 bytes := if hashZeros.toList <:+: bytes then rootZeros else rootOnes

/-- A daemon with both blobs. -/
def largeBlobs (hash : Hash256) (size : Nat) (p : VfsPath) : VfsResult Bytes :=
  if hash = hashZeros ∧ size = 65537 then .ok zeros
  else if hash = hashOnes ∧ size = 65537 then .ok ones
  else .error (.notFound p.display)

def largeFile : VfsPath := ⟨[102], rfl⟩

/-- The blob at `f`. -/
def largeBlob (tree : CachedTree) : Option (TreeEntry × Nat) :=
  tree.byPath[largeFile]?.map fun a => (a.entry, a.size)

theorem zerosTree_blob :
    (CachedTree.fromSnapshot largeCodec (largeSnapshot hashZeros 1)).toOption.map largeBlob =
      some (some (.blob hashZeros false, 65537)) := by decide +kernel

theorem onesTree_blob :
    (CachedTree.fromSnapshot largeCodec (largeSnapshot hashOnes 2)).toOption.map largeBlob =
      some (some (.blob hashOnes false, 65537)) := by decide +kernel

/-- What is published as a version. -/
theorem version_of_large {snapshot : WorkspaceTreeSnapshot} {hash : Hash256} {content : Bytes}
    (h : (CachedTree.fromSnapshot largeCodec snapshot).toOption.map largeBlob =
      some (some (.blob hash false, 65537)))
    (hfetch : largeBlobs hash 65537 largeFile = .ok content) (hlen : content.length = 65537) :
    ∃ tree, ∃ v : Version largeFile, CachedTree.fromSnapshot largeCodec snapshot = .ok tree ∧
      v.provider = tree.provider largeBlobs ∧ ShowsFile v.provider largeFile content := by
  obtain ⟨tree, hf, hblob⟩ := Option.map_eq_some_iff.mp h
  obtain ⟨artifact, hp, he⟩ := Option.map_eq_some_iff.mp hblob
  obtain ⟨hentry, hsize⟩ := Prod.mk.inj he
  have hsized : ∀ hash size p data, largeBlobs hash size p = .ok data → data.length = size := by
    intro hash size p data hd
    unfold largeBlobs at hd
    split at hd
    · rename_i hz
      cases hd
      rw [hz.2, zeros, List.length_replicate]
    · split at hd
      · rename_i ho
        cases hd
        rw [ho.2, ones, List.length_replicate]
      · cases hd
  have hfit : ∀ a, tree.byPath[largeFile]? = some a → a.size ≤ u64Max := by
    intro a ha
    rw [hp] at ha
    cases ha
    rw [hsize]
    decide
  refine ⟨tree, ⟨tree.provider largeBlobs, coherent_tree hsized hfit⟩,
    Except.toOption_eq_some.mp hf, rfl, ?_⟩
  rw [← hsize] at hfetch
  exact showsFile_of_blob hp hentry hfetch (hsize.trans hlen.symm) (by rw [hlen]; decide)

/-- An open of `/w/f` without following. -/
def direct : OpenFlags := { readOnly with nofollow := true }

def largePath : Bytes := hostPath workspace largeFile

/-- It gives a descriptor that has no content. -/
theorem open_large {g : ContentProvider} (hg : ShowsFile g largeFile zeros) :
    ∃ vstat s', g.stat largeFile = .ok vstat ∧ vstat.isFile = true ∧ vstat.isDir = false ∧
      vstat.size = 65537 ∧
      exec (openRead g [workspace] workspace false direct largePath) freshShim = (.ok 10000, s') ∧
      exec (openResolved g [workspace] false direct (.ok (largePath, vstat)))
        (freshShim.setLast ⟨.none, g.version⟩) = (.ok 10000, s') ∧
      ∀ content : Bytes, content.length = 65537 → Stands [workspace] content largeFile 10000 0 s' := by
  obtain ⟨vstat, hstat, hfile, hdir, hlink, hsize⟩ := hg.stat
  have hroot : hostComponents workspace = .ok (none, [[119]]) := by decide
  have hp : graphRequestKey [workspace] largePath = some largeFile := mapsBack_single hroot _
  have hlen : vstat.size = 65537 := by rw [hsize, zeros, List.length_replicate]
  have hlarge : smallFileThreshold < vstat.size := by
    rw [hlen]
    decide
  rcases ha : exec (allocateVfd largePath vstat.size none) (freshShim.setLast ⟨.none, g.version⟩)
    with ⟨out, s'⟩
  have hout : out = .ok (some 10000) := by
    have h := congrArg Prod.fst ha
    rw [hlen] at h
    have hfirst : ((FdTable.new 10000).allocate largePath 65537 none).1 = some 10000 := by decide
    rw [← hfirst]
    exact h.symm
  subst hout
  have hopen : exec (openResolved g [workspace] false direct (.ok (largePath, vstat)))
      (freshShim.setLast ⟨.none, g.version⟩) = (.ok 10000, s') := by
    rw [exec_openResolved_large hfile hdir rfl hlarge, exec_bind, ha]
    rfl
  refine ⟨vstat, s', hstat, hfile, hdir, hlen, ?_, hopen, fun content hc => ?_⟩
  · unfold openRead
    have hflags : direct.nofollow = true := rfl
    rw [if_pos hflags, exec_bind, exec_callGraph, graphStat, graphCall_of_key hp]
    simp only [clientStat, hstat, hlink, Bool.false_eq_true, ↓reduceIte]
    exact hopen
  · exact allocateVfd_stands hp (hlen.trans hc.symm) (.inl rfl) ha

/-- `n` bytes `b` at `offset`. -/
theorem readAt_replicate (b : UInt8) {size offset count : Nat} (h : offset + count ≤ size) :
    Posix.Stream.readAt (List.replicate size b) offset count = List.replicate count b := by
  rw [Posix.Stream.readAt, List.drop_replicate, List.take_replicate, Nat.min_eq_left (by omega)]

/-- A `pread` of a large file, by the daemon's version. -/
theorem liveStep_pread {roots : List Bytes} {fd : Nat} {key : VfsPath} {l : Live key} {content : Bytes}
    (hg : ShowsFile l.current.provider key content) (h : Stands roots content key fd 0 l.shim)
    (count offset : Nat) (hoffset : offset < 2 ^ 64) :
    ∃ last, liveStep roots fd l (.pread count offset []) = some { l with
      shim := l.shim.setLast last
      observed := l.observed ++ [.bytes offset (Posix.Stream.readAt content offset count)] } := by
  obtain ⟨handle, hmap, hkey, -, hsize, hcache⟩ := h.handle
  obtain ⟨last, hread⟩ := readAt_serves hg hg hkey hsize hcache offset count
  have hu : asU64 (offset : Int) = offset := by
    unfold asU64
    omega
  refine ⟨last, ?_⟩
  have hx : exec (pread l.current.provider roots l.current.provider fd count offset) l.shim =
      (.ok (Posix.Stream.readAt content offset count), l.shim.setLast last) := by
    unfold pread
    rw [exec_bind, exec_requireHandle hmap]
    dsimp only
    rw [hu, hread]
  simp only [liveStep, Live.publish, List.append_nil, List.getLast?_nil, Option.getD_none, hx, hu,
    Live.after]

/-- A byte is read, a version is published, the next byte is read. -/
theorem run_across {roots : List Bytes} {fd : Nat} {key : VfsPath} {v v' : Version key} {s : Shim}
    {content content' : Bytes} (hg : ShowsFile v.provider key content)
    (hg' : ShowsFile v'.provider key content') (h : Stands roots content key fd 0 s)
    (h' : Stands roots content' key fd 0 s) :
    ∃ l, Runs.run (liveStep roots fd) ⟨[v], v, s, []⟩ [.pread 1 0 [], .publish v', .pread 1 1 []] =
        some l ∧ l.history = [v, v'] ∧
      l.observed = [.bytes 0 (Posix.Stream.readAt content 0 1),
        .bytes 1 (Posix.Stream.readAt content' 1 1)] := by
  obtain ⟨last, h₁⟩ := liveStep_pread (l := ⟨[v], v, s, []⟩) hg h 1 0 (by decide)
  obtain ⟨last', h₂⟩ := liveStep_pread (l := ⟨[v, v'], v', s.setLast last,
    [.bytes 0 (Posix.Stream.readAt content 0 1)]⟩) hg' (h'.setLast last) 1 1 (by decide)
  rw [Int.natCast_zero] at h₁
  rw [Int.natCast_one] at h₂
  have hrun : ∃ l, Runs.run (liveStep roots fd) ⟨[v, v'], v', s.setLast last,
      [.bytes 0 (Posix.Stream.readAt content 0 1)]⟩ [.pread 1 1 []] = some l ∧ l.history = [v, v'] ∧
      l.observed = [.bytes 0 (Posix.Stream.readAt content 0 1),
        .bytes 1 (Posix.Stream.readAt content' 1 1)] := by
    rw [Runs.run, h₂]
    exact ⟨_, rfl, rfl, rfl⟩
  rw [Runs.run, h₁]
  exact hrun

end Sample

/-- `/w/f` is read while it is published again with the same bytes. -/
theorem single_version_of_steady_large :
    ∃ tree, ∃ v : Version Sample.largeFile, ∃ s' l,
      CachedTree.fromSnapshot Sample.largeCodec (Sample.largeSnapshot Sample.hashZeros 1) = .ok tree ∧
      v.provider = tree.provider Sample.largeBlobs ∧
      exec (openRead v.provider [Sample.workspace] Sample.workspace false Sample.direct
        Sample.largePath) Sample.freshShim = (.ok 10000, s') ∧
      Runs.run (liveStep [Sample.workspace] 10000) ⟨[v], v, s', []⟩
        [.pread 1 0 [], .publish v, .pread 1 1 []] = some l ∧
      l.observed = [.bytes 0 [0], .bytes 1 [0]] ∧ SingleVersion l := by
  obtain ⟨tree, v, hf, hv, hg⟩ := Sample.version_of_large Sample.zerosTree_blob rfl
    List.length_replicate
  obtain ⟨vstat, s', -, hfile, hdir, hlen, hopen, hopen', hstands⟩ := Sample.open_large hg
  have hat : Stands [Sample.workspace] Sample.zeros Sample.largeFile 10000 0 s' :=
    hstands _ List.length_replicate
  obtain ⟨l, hrun, -, hobs⟩ := Sample.run_across hg hg hat hat
  have hroot : hostComponents Sample.workspace = .ok (none, [[119]]) := by decide
  have hp : graphRequestKey [Sample.workspace] Sample.largePath = some Sample.largeFile :=
    mapsBack_single hroot _
  have hkeeps : v.Keeps Sample.zeros := by
    intro c hc
    exact Except.ok.inj (hc.symm.trans hg.readFile)
  have hsteady : Runs.Meets (liveStep [Sample.workspace] 10000) (Steady 10000 Sample.zeros)
      ⟨[v], v, s', []⟩ [.pread 1 0 [], .publish v, .pread 1 1 []] := by
    refine ⟨.inr (.inl hkeeps), fun t ht => ⟨trivial, fun t' ht' => ⟨.inr (.inl ?_), fun _ _ => trivial⟩⟩⟩
    cases ht
    cases ht'
    exact hkeeps
  have hone := single_version_of_steady hp hfile hdir hg.readFile
    (hlen.trans List.length_replicate.symm) hopen' List.mem_cons_self hsteady hrun
  rw [Sample.zeros, Sample.readAt_replicate 0 (by decide), Sample.readAt_replicate 0 (by decide)]
    at hobs
  exact ⟨tree, v, s', l, hf, hv, hopen, hrun, hobs, hone⟩

/-- `/w/f` is read while it is published again with other bytes and the same length. -/
theorem single_version_broken :
    ∃ before after, ∃ v v' : Version Sample.largeFile, ∃ s' l,
      CachedTree.fromSnapshot Sample.largeCodec (Sample.largeSnapshot Sample.hashZeros 1) =
        .ok before ∧
      CachedTree.fromSnapshot Sample.largeCodec (Sample.largeSnapshot Sample.hashOnes 2) = .ok after ∧
      v.provider = before.provider Sample.largeBlobs ∧
      v'.provider = after.provider Sample.largeBlobs ∧
      exec (openRead v.provider [Sample.workspace] Sample.workspace false Sample.direct
        Sample.largePath) Sample.freshShim = (.ok 10000, s') ∧
      Runs.run (liveStep [Sample.workspace] 10000) ⟨[v], v, s', []⟩
        [.pread 1 0 [], .publish v', .pread 1 1 []] = some l ∧
      l.observed = [.bytes 0 [0], .bytes 1 [1]] ∧ ¬ SingleVersion l := by
  obtain ⟨before, v, hf, hv, hg⟩ := Sample.version_of_large Sample.zerosTree_blob rfl
    List.length_replicate
  obtain ⟨after, v', hf', hv', hg'⟩ := Sample.version_of_large Sample.onesTree_blob rfl
    List.length_replicate
  obtain ⟨vstat, s', -, hfile, hdir, hlen, hopen, -, hstands⟩ := Sample.open_large hg
  obtain ⟨l, hrun, hhist, hobs⟩ := Sample.run_across hg hg' (hstands _ List.length_replicate)
    (hstands _ List.length_replicate)
  rw [Sample.zeros, Sample.ones, Sample.readAt_replicate 0 (by decide),
    Sample.readAt_replicate 1 (by decide)] at hobs
  refine ⟨before, after, v, v', s', l, hf, hf', hv, hv', hopen, hrun, hobs, ?_⟩
  rintro ⟨w, hw, content, hread, hfrom⟩
  rw [hhist] at hw
  rw [hobs] at hfrom
  have hfirst : [0] <+: content.drop 0 := hfrom (.bytes 0 [0]) List.mem_cons_self
  have hsecond : [1] <+: content.drop 1 := hfrom (.bytes 1 [1]) (by simp)
  rcases List.mem_cons.mp hw with rfl | hw
  · -- The second byte is not of the first version.
    obtain rfl := Except.ok.inj (hread.symm.trans hg.readFile)
    rw [Sample.zeros, List.drop_replicate, List.prefix_replicate_iff] at hsecond
    exact absurd hsecond.2 (by decide)
  · obtain rfl := List.mem_singleton.mp hw
    obtain rfl := Except.ok.inj (hread.symm.trans hg'.readFile)
    rw [Sample.ones, List.drop_replicate, List.prefix_replicate_iff] at hfirst
    exact absurd hfirst.2 (by decide)

end KinVfs
