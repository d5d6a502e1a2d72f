import KinVfs.Lib.Fallible
import KinVfs.Lib.Lru
import KinVfs.Daemon.Admission
import KinVfs.Daemon.TreeSpec

/-!
# Verified content and its cache (`crates/kin-vfs-daemon/src/kin_provider.rs`)

`fetch_verified_blob` gets one blob by content address and verifies it against the hash and the size
the tree records for the path before it is exposed and cached. The cache is keyed by the hash alone.

A read answers as with an empty cache exactly when the body that is cached for its hash, if any, has
the size recorded for its path (`cache_independent_iff`): a cached body is returned without the size
check, so two paths that share a hash and record different sizes are told apart only by the first
read.
-/

namespace KinVfs

open Fallible

/-- An answer to `GET /vfs/blob/<hash>`, or the transport's error in `Except`. -/
structure BlobResponse where
  status : Nat
  body : Except String Bytes

/-- What the reads of blobs use of the libraries. -/
structure BlobWire where
  /-- `Sha256::digest`. -/
  sha256 : Bytes → Hash256
  /-- `Display` of a hash. -/
  showHash : Hash256 → String
  /-- `Display` of a status code. -/
  showStatus : Nat → String

/-- `hex::encode`. -/
def hexEncode (bytes : Bytes) : String :=
  String.ofList (bytes.flatMap fun b => [VfsPath.hexDigit (b.toNat / 16),
    VfsPath.hexDigit (b.toNat % 16)])

def verifySize (expected actual : Nat) (path : VfsPath) : VfsResult Unit :=
  if expected = actual then .ok ()
  else .error (.provider ("graph blob size mismatch for " ++ path.display ++ ": expected " ++
    toString expected ++ ", got " ++ toString actual))

def verifyBlob (wire : BlobWire) (expected : Hash256) (data : Bytes) (path : VfsPath) :
    VfsResult Unit :=
  if wire.sha256 data = expected then .ok ()
  else .error (.provider ("graph blob hash mismatch for " ++ path.display ++ ": expected " ++
    wire.showHash expected ++ ", got " ++ hexEncode (wire.sha256 data).toList))

/-- The body of an answer. A missing blob is a gap of the graph, never a missing path. -/
def responseBody (wire : BlobWire) (answer : Except String BlobResponse) (hash : Hash256)
    (path : VfsPath) : VfsResult Bytes :=
  match answer with
  | .error e => .error (.provider ("blob request failed: " ++ e))
  | .ok response =>
    if response.status = 404 then
      .error (.provider ("graph blob " ++ wire.showHash hash ++ " missing for " ++ path.display))
    else if !isSuccess response.status then
      .error (.provider ("blob returned status " ++ wire.showStatus response.status))
    else
      match response.body with
      | .error e => .error (.provider ("blob body error: " ++ e))
      | .ok data => .ok data

/-- `CONTENT_CACHE_CAP`. -/
def contentCacheCap : Nat := 64

abbrev ContentCache := List (Hash256 × Bytes)

/-- A computation over the content cache. -/
abbrev ReadM := Fallible VfsError ContentCache

namespace KinDaemonProvider

variable (wire : BlobWire) (blobs : Hash256 → Except String BlobResponse)

/-- The body of `hash`, from the daemon, verified. -/
def downloadVerified (hash : Hash256) (expectedSize : Nat) (path : VfsPath) : VfsResult Bytes := do
  let data ← responseBody wire (blobs hash) hash path
  verifySize expectedSize data.length path
  verifyBlob wire hash data path
  return data

def fetchVerifiedBlob (hash : Hash256) (expectedSize : Nat) (path : VfsPath) : ReadM Bytes := do
  let cache ← get
  match Lru.get hash cache with
  | (some data, cache) =>
    set cache
    pure data
  | (none, _) => do
    let data ← ofExcept fun _ => downloadVerified wire blobs hash expectedSize path
    modify (Lru.put contentCacheCap hash data)
    pure data

variable (tree : CachedTree)

def readFile (path : VfsPath) : ReadM Bytes := do
  let artifact ← ofExcept fun _ => tree.requireArtifact path
  let hash ← ofExcept fun _ => CachedTree.blobIdentity artifact.entry path
  fetchVerifiedBlob wire blobs hash artifact.size path

def readRange (path : VfsPath) (offset len : Nat) : ReadM Bytes := do
  let artifact ← ofExcept fun _ => tree.requireArtifact path
  let hash ← ofExcept fun _ => CachedTree.blobIdentity artifact.entry path
  if len = 0 ∨ artifact.size ≤ offset then pure []
  else do
    let data ← fetchVerifiedBlob wire blobs hash artifact.size path
    pure (CachedTree.sliceVerifiedBlob data offset len)

/-- A directory has no link target: report the operation, not the kind. -/
def requireLink (path : VfsPath) : VfsResult TreeArtifact :=
  match tree.requireArtifact path with
  | .error (.isDirectory _) => .error (.invalidInput path.display)
  | r => r

def readLink (path : VfsPath) : ReadM Bytes := do
  let artifact ← ofExcept fun _ => requireLink tree path
  match artifact.entry with
  | .symlink targetBlob => fetchVerifiedBlob wire blobs targetBlob artifact.size path
  | .blob .. => throw (.invalidInput path.display)
  | .gitlink _ => throw (.unsupportedRepositoryBoundary path.display)

end KinDaemonProvider

/-- A read of content. -/
inductive BlobRead where
  | file
  | range (offset len : Nat)
  | link
  deriving DecidableEq, Repr

namespace BlobRead

/-- The read `r` of `path` while `tree` is installed. -/
def run (wire : BlobWire) (blobs : Hash256 → Except String BlobResponse) (tree : CachedTree)
    (path : VfsPath) : BlobRead → ReadM Bytes
  | file => KinDaemonProvider.readFile wire blobs tree path
  | range offset len => KinDaemonProvider.readRange wire blobs tree path offset len
  | link => KinDaemonProvider.readLink wire blobs tree path

/-- The read needs the body of the artifact. -/
def fetches (artifact : TreeArtifact) : BlobRead → Bool
  | file => true
  | range offset len => !(len = 0 || artifact.size ≤ offset)
  | link => artifact.entry.fileType = .symlink

/-- What a read makes of the body. -/
def shape : BlobRead → Bytes → Bytes
  | range offset len, data => CachedTree.sliceVerifiedBlob data offset len
  | _, data => data

end BlobRead

/-- The outcome of a read and the cache it leaves. -/
def readOutcome (wire : BlobWire) (blobs : Hash256 → Except String BlobResponse) (tree : CachedTree)
    (path : VfsPath) (r : BlobRead) (cache : ContentCache) : VfsResult Bytes × ContentCache :=
  exec (r.run wire blobs tree path) cache

/-- The cache that a history of reads leaves, each with the tree that was installed then. -/
def cacheAfter (wire : BlobWire) (blobs : Hash256 → Except String BlobResponse)
    (history : List (CachedTree × VfsPath × BlobRead)) : ContentCache :=
  history.foldl (fun cache h => (readOutcome wire blobs h.1 h.2.1 h.2.2 cache).2) []

/-! ## One fetch -/

section

open Fold

variable {wire : BlobWire} {blobs : Hash256 → Except String BlobResponse} {hash : Hash256}
  {size : Nat} {path path' : VfsPath} {cache : ContentCache} {data : Bytes} {tree : CachedTree}
  {artifact : TreeArtifact} {r : BlobRead}

/-- The body of an answer does not depend on the path it is for. -/
theorem responseBody_path (h : responseBody wire (blobs hash) hash path = .ok data) :
    responseBody wire (blobs hash) hash path' = .ok data := by
  unfold responseBody at h ⊢
  cases hb : blobs hash with
  | error e => rw [hb] at h; cases h
  | ok response =>
    simp only [hb] at h ⊢
    split at h
    · cases h
    · rename_i h404
      rw [if_neg h404]
      split at h
      · cases h
      · rename_i hok
        rw [if_neg hok]
        cases hd : response.body with
        | error e => rw [hd] at h; cases h
        | ok d => rw [hd] at h; exact h

theorem downloadVerified_ok :
    KinDaemonProvider.downloadVerified wire blobs hash size path = .ok data ↔
      responseBody wire (blobs hash) hash path = .ok data ∧ data.length = size ∧
        wire.sha256 data = hash := by
  unfold KinDaemonProvider.downloadVerified
  constructor
  · intro h
    obtain ⟨d, hd, h⟩ := bind_eq_ok.mp h
    obtain ⟨⟨⟩, hsize, h⟩ := bind_eq_ok.mp h
    obtain ⟨⟨⟩, hhash, h⟩ := bind_eq_ok.mp h
    cases h
    unfold verifySize at hsize
    unfold verifyBlob at hhash
    split at hsize
    · rename_i hs
      split at hhash
      · rename_i hh
        exact ⟨hd, hs.symm, hh⟩
      · cases hhash
    · cases hsize
  · rintro ⟨hd, hs, hh⟩
    refine bind_eq_ok.mpr ⟨data, hd, bind_eq_ok.mpr ⟨(), ?_, bind_eq_ok.mpr ⟨(), ?_, rfl⟩⟩⟩
    · rw [verifySize, if_pos hs.symm]
    · rw [verifyBlob, if_pos hh]

theorem exec_fetchVerifiedBlob :
    exec (KinDaemonProvider.fetchVerifiedBlob wire blobs hash size path) cache =
      match Lru.peek hash cache with
      | some data => (.ok data, (Lru.get hash cache).2)
      | none =>
        match KinDaemonProvider.downloadVerified wire blobs hash size path with
        | .ok data => (.ok data, Lru.put contentCacheCap hash data cache)
        | .error e => (.error e, cache) := by
  unfold KinDaemonProvider.fetchVerifiedBlob
  rw [exec_bind, exec_get, ← Lru.get_fst]
  dsimp only
  rcases Lru.get hash cache with ⟨_ | d, cache'⟩
  · dsimp only
    rw [exec_bind, exec_ofExcept]
    cases KinDaemonProvider.downloadVerified wire blobs hash size path with
    | error e => rfl
    | ok d => rfl
  · rfl

/-! ## One read -/

theorem requireArtifact_some (ha : tree.byPath[path]? = some artifact) :
    tree.requireArtifact path = .ok artifact := by
  rw [CachedTree.requireArtifact, ha]

/-- A read that needs the body fetches it by the hash and size of its path. -/
theorem readOutcome_fetches (ha : tree.byPath[path]? = some artifact)
    (hh : CachedTree.blobIdentity artifact.entry path = .ok hash)
    (hf : r.fetches artifact = true) :
    readOutcome wire blobs tree path r cache =
      ((exec (KinDaemonProvider.fetchVerifiedBlob wire blobs hash artifact.size path) cache).1.map
          r.shape,
        (exec (KinDaemonProvider.fetchVerifiedBlob wire blobs hash artifact.size path) cache).2) := by
  cases r with
  | file =>
    simp only [readOutcome, BlobRead.run, KinDaemonProvider.readFile, exec_bind, exec_ofExcept,
      requireArtifact_some ha, hh]
    rcases exec (KinDaemonProvider.fetchVerifiedBlob wire blobs hash artifact.size path) cache with
      ⟨_ | d, c⟩ <;> rfl
  | range offset len =>
    have hin : ¬ (len = 0 ∨ artifact.size ≤ offset) := by
      simpa [BlobRead.fetches, not_or] using hf
    simp only [readOutcome, BlobRead.run, KinDaemonProvider.readRange, exec_bind, exec_ofExcept,
      requireArtifact_some ha, hh, if_neg hin]
    rcases exec (KinDaemonProvider.fetchVerifiedBlob wire blobs hash artifact.size path) cache with
      ⟨_ | d, c⟩ <;> rfl
  | link =>
    have hl : KinDaemonProvider.requireLink tree path = .ok artifact := by
      rw [KinDaemonProvider.requireLink, requireArtifact_some ha]
    obtain ⟨t, he⟩ : ∃ t, artifact.entry = .symlink t := by
      cases he : artifact.entry with
      | symlink t => exact ⟨t, rfl⟩
      | _ => simp [BlobRead.fetches, he, TreeEntry.fileType] at hf
    have ht : t = hash := by
      rw [he] at hh
      exact Except.ok.inj hh
    simp only [readOutcome, BlobRead.run, KinDaemonProvider.readLink, exec_bind, exec_ofExcept, hl,
      he, ht]
    rcases exec (KinDaemonProvider.fetchVerifiedBlob wire blobs hash artifact.size path) cache with
      ⟨_ | d, c⟩ <;> rfl

/-- Any other read leaves the cache alone and does not depend on it; it has no bytes. -/
theorem readOutcome_idle (wire : BlobWire) (blobs : Hash256 → Except String BlobResponse)
    (ha : tree.byPath[path]? = some artifact)
    (hh : CachedTree.blobIdentity artifact.entry path = .ok hash)
    (hf : r.fetches artifact = false) :
    ∃ outcome : VfsResult Bytes, (∀ bytes, outcome = .ok bytes → bytes = []) ∧
      ∀ cache, readOutcome wire blobs tree path r cache = (outcome, cache) := by
  cases r with
  | file => cases hf
  | range offset len =>
    have hout : len = 0 ∨ artifact.size ≤ offset := by
      simpa [BlobRead.fetches, or_iff_not_imp_left] using hf
    refine ⟨.ok [], fun bytes h => (Except.ok.inj h).symm, fun cache => ?_⟩
    simp only [readOutcome, BlobRead.run, KinDaemonProvider.readRange, exec_bind, exec_ofExcept,
      requireArtifact_some ha, hh, if_pos hout, exec_pure]
  | link =>
    have hl : KinDaemonProvider.requireLink tree path = .ok artifact := by
      rw [KinDaemonProvider.requireLink, requireArtifact_some ha]
    cases he : artifact.entry with
    | blob b x =>
      refine ⟨.error (.invalidInput path.display), fun bytes h => (by cases h), fun cache => ?_⟩
      simp only [readOutcome, BlobRead.run, KinDaemonProvider.readLink, exec_bind, exec_ofExcept,
        hl, he, exec_throw]
    | symlink t => simp [BlobRead.fetches, he, TreeEntry.fileType] at hf
    | gitlink t =>
      rw [he] at hh
      cases hh

/-- A read of what is no artifact, or is a gitlink, fails and leaves the cache alone. -/
theorem readOutcome_refused
    (h : ∀ artifact hash, tree.byPath[path]? = some artifact →
      CachedTree.blobIdentity artifact.entry path ≠ .ok hash) :
    (readOutcome wire blobs tree path r cache).2 = cache := by
  cases ha : tree.byPath[path]? with
  | none =>
    obtain ⟨e, he⟩ : ∃ e, tree.requireArtifact path = .error e := by
      unfold CachedTree.requireArtifact
      rw [ha]
      dsimp only
      split
      · exact ⟨_, rfl⟩
      · exact ⟨_, rfl⟩
    cases r with
    | link =>
      obtain ⟨e', he'⟩ : ∃ e', KinDaemonProvider.requireLink tree path = .error e' := by
        unfold KinDaemonProvider.requireLink
        rw [he]
        cases e <;> exact ⟨_, rfl⟩
      simp only [readOutcome, BlobRead.run, KinDaemonProvider.readLink, exec_bind, exec_ofExcept,
        he']
    | _ =>
      simp only [readOutcome, BlobRead.run, KinDaemonProvider.readFile, KinDaemonProvider.readRange,
        exec_bind, exec_ofExcept, he]
  | some artifact =>
    have hreq := requireArtifact_some ha
    obtain ⟨t, ht⟩ : ∃ t, artifact.entry = .gitlink t := by
      cases he : artifact.entry with
      | blob b x => exact absurd (by rw [he]; rfl) (h artifact b ha)
      | symlink b => exact absurd (by rw [he]; rfl) (h artifact b ha)
      | gitlink t => exact ⟨t, rfl⟩
    cases r with
    | link =>
      simp only [readOutcome, BlobRead.run, KinDaemonProvider.readLink,
        KinDaemonProvider.requireLink, hreq, exec_bind, exec_ofExcept, ht, exec_throw]
    | _ =>
      simp only [readOutcome, BlobRead.run, KinDaemonProvider.readFile, KinDaemonProvider.readRange,
        exec_bind, exec_ofExcept, hreq, CachedTree.blobIdentity, ht]

/-! ## The cache over a history -/

/-- Every cached body is what the daemon serves for its hash, and has that hash. -/
def CacheSound (wire : BlobWire) (blobs : Hash256 → Except String BlobResponse)
    (cache : ContentCache) : Prop :=
  ∀ x ∈ cache, wire.sha256 x.2 = x.1 ∧ ∀ path, responseBody wire (blobs x.1) x.1 path = .ok x.2

theorem CacheSound.fetch (hc : CacheSound wire blobs cache) :
    CacheSound wire blobs
      (exec (KinDaemonProvider.fetchVerifiedBlob wire blobs hash size path) cache).2 := by
  intro x hx
  rw [exec_fetchVerifiedBlob] at hx
  cases hp : Lru.peek hash cache with
  | some d =>
    rw [hp] at hx
    exact hc x (Lru.mem_get hx)
  | none =>
    rw [hp] at hx
    dsimp only at hx
    cases hd : KinDaemonProvider.downloadVerified wire blobs hash size path with
    | error e =>
      rw [hd] at hx
      exact hc x hx
    | ok d =>
      rw [hd] at hx
      obtain ⟨hbody, -, hhash⟩ := downloadVerified_ok.mp hd
      rcases Lru.mem_put hx with rfl | hx
      · exact ⟨hhash, fun path' => responseBody_path hbody⟩
      · exact hc x hx

theorem CacheSound.read (hc : CacheSound wire blobs cache) :
    CacheSound wire blobs (readOutcome wire blobs tree path r cache).2 := by
  by_cases h : ∃ artifact hash, tree.byPath[path]? = some artifact ∧
      CachedTree.blobIdentity artifact.entry path = .ok hash
  · obtain ⟨artifact, hash, ha, hh⟩ := h
    cases hf : r.fetches artifact with
    | true =>
      rw [readOutcome_fetches ha hh hf]
      exact hc.fetch
    | false =>
      obtain ⟨outcome, -, hidle⟩ := readOutcome_idle wire blobs ha hh hf
      rw [hidle]
      exact hc
  · rw [readOutcome_refused fun artifact hash ha hh => h ⟨artifact, hash, ha, hh⟩]
    exact hc

theorem cacheSound_after (wire : BlobWire) (blobs : Hash256 → Except String BlobResponse)
    (history : List (CachedTree × VfsPath × BlobRead)) :
    CacheSound wire blobs (cacheAfter wire blobs history) := by
  have hstep : ∀ (history : List (CachedTree × VfsPath × BlobRead)) (cache : ContentCache),
      CacheSound wire blobs cache → CacheSound wire blobs
        (history.foldl (fun cache h => (readOutcome wire blobs h.1 h.2.1 h.2.2 cache).2) cache) := by
    intro history
    induction history with
    | nil => exact fun cache hc => hc
    | cons h history ih => exact fun cache hc => ih _ hc.read
  exact hstep history [] fun x hx => absurd hx List.not_mem_nil

/-! ## Independence of the cache -/

/-- The bytes are the read's part of a body with the hash and size the tree records. A range that
needs no body has no bytes. -/
def Genuine (wire : BlobWire) (hash : Hash256) (artifact : TreeArtifact) (r : BlobRead)
    (bytes : Bytes) : Prop :=
  if r.fetches artifact then
    ∃ body, wire.sha256 body = hash ∧ body.length = artifact.size ∧ bytes = r.shape body
  else bytes = []

/-- A read of `path` exposes only verified bytes and answers as with an empty cache. -/
structure CacheIndependent (wire : BlobWire) (blobs : Hash256 → Except String BlobResponse)
    (tree : CachedTree) (path : VfsPath) (hash : Hash256) (artifact : TreeArtifact) (r : BlobRead)
    (cache : ContentCache) : Prop where
  genuine : ∀ bytes, (readOutcome wire blobs tree path r cache).1 = .ok bytes →
    Genuine wire hash artifact r bytes
  same : (readOutcome wire blobs tree path r cache).1 = (readOutcome wire blobs tree path r []).1

/-- A read that needs the body, from a cache that is right about its size. -/
theorem cacheIndependent_of_size (hc : CacheSound wire blobs cache)
    (ha : tree.byPath[path]? = some artifact)
    (hh : CachedTree.blobIdentity artifact.entry path = .ok hash) (hf : r.fetches artifact = true)
    (hsize : ∀ data, Lru.peek hash cache = some data → data.length = artifact.size) :
    CacheIndependent wire blobs tree path hash artifact r cache := by
  -- With a body cached or not, the outcome is that of the download.
  have hout : (exec (KinDaemonProvider.fetchVerifiedBlob wire blobs hash artifact.size path)
      cache).1 = KinDaemonProvider.downloadVerified wire blobs hash artifact.size path := by
    rw [exec_fetchVerifiedBlob]
    cases hp : Lru.peek hash cache with
    | some d =>
      obtain ⟨hsha, hbody⟩ := hc _ (Lru.mem_of_peek hp)
      exact (downloadVerified_ok.mpr ⟨hbody path, hsize d hp, hsha⟩).symm
    | none =>
      dsimp only
      cases KinDaemonProvider.downloadVerified wire blobs hash artifact.size path <;> rfl
  have hempty : (exec (KinDaemonProvider.fetchVerifiedBlob wire blobs hash artifact.size path)
      []).1 = KinDaemonProvider.downloadVerified wire blobs hash artifact.size path := by
    rw [exec_fetchVerifiedBlob, Lru.peek_nil]
    dsimp only
    cases KinDaemonProvider.downloadVerified wire blobs hash artifact.size path <;> rfl
  constructor
  · intro bytes hok
    rw [readOutcome_fetches ha hh hf, hout] at hok
    cases hd : KinDaemonProvider.downloadVerified wire blobs hash artifact.size path with
    | error e => rw [hd] at hok; cases hok
    | ok d =>
      rw [hd] at hok
      cases hok
      obtain ⟨-, hlen, hsha⟩ := downloadVerified_ok.mp hd
      rw [Genuine, if_pos hf]
      exact ⟨d, hsha, hlen, rfl⟩
  · rw [readOutcome_fetches ha hh hf, readOutcome_fetches ha hh hf, hout, hempty]

/-- **A read does not depend on the cache** exactly when the body cached for its hash, if it needs
one and one is cached, has the size the tree records for its path: after every history of reads, of
every tree, with a fixed blob store. -/
theorem cache_independent_iff (wire : BlobWire) (blobs : Hash256 → Except String BlobResponse)
    (history : List (CachedTree × VfsPath × BlobRead)) (tree : CachedTree) (path : VfsPath)
    (hash : Hash256) (artifact : TreeArtifact) (r : BlobRead)
    (ha : tree.byPath[path]? = some artifact)
    (hh : CachedTree.blobIdentity artifact.entry path = .ok hash) :
    CacheIndependent wire blobs tree path hash artifact r (cacheAfter wire blobs history) ↔
      (r.fetches artifact = true →
        ∀ data, Lru.peek hash (cacheAfter wire blobs history) = some data →
          data.length = artifact.size) := by
  have hc := cacheSound_after wire blobs history
  constructor
  · intro hind hf data hp
    have hsame := hind.same
    rw [readOutcome_fetches ha hh hf, readOutcome_fetches ha hh hf, exec_fetchVerifiedBlob, hp,
      exec_fetchVerifiedBlob, Lru.peek_nil] at hsame
    dsimp only at hsame
    -- The empty cache downloads the same body, and checks its size.
    cases hd : KinDaemonProvider.downloadVerified wire blobs hash artifact.size path with
    | error e => rw [hd] at hsame; cases hsame
    | ok d =>
      obtain ⟨hbody, hlen, -⟩ := downloadVerified_ok.mp hd
      obtain ⟨-, hcached⟩ := hc _ (Lru.mem_of_peek hp)
      have heq := hcached path
      rw [hbody] at heq
      have hdata : d = data := Except.ok.inj heq
      rw [← hdata]
      exact hlen
  · intro hcond
    cases hf : r.fetches artifact with
    | true => exact cacheIndependent_of_size hc ha hh hf (hcond hf)
    | false =>
      obtain ⟨outcome, hnil, hidle⟩ := readOutcome_idle wire blobs ha hh hf
      constructor
      · intro bytes hok
        rw [hidle] at hok
        rw [Genuine, if_neg (by simp [hf])]
        exact hnil bytes hok
      · rw [hidle, hidle]

end

namespace Sample

/-- SHA-256 of the one byte `a`. -/
def hashA : Hash256 :=
  #v[202, 151, 129, 18, 202, 27, 189, 202, 250, 194, 49, 179, 154, 35, 220, 77,
    167, 134, 239, 248, 20, 124, 78, 114, 185, 128, 119, 133, 175, 238, 72, 187]

/-- SHA-256 of what the root of `sharedSnapshot` feeds to the hash. -/
def sharedRoot : Hash256 :=
  #v[243, 62, 223, 132, 141, 56, 23, 20, 246, 14, 163, 195, 100, 36, 193, 140,
    19, 157, 104, 248, 55, 225, 40, 207, 139, 215, 53, 164, 239, 176, 112, 17]

/-- The paths `a` and `b`. -/
def first : VfsPath := a
def second : VfsPath := b

/-- The artifact at `b`. -/
def secondArtifact : TreeArtifact := ⟨Vector.replicate 16 0, .blob hashA false, 2, 0⟩

/-- Two files of one hash, with the sizes 1 and 2. -/
def sharedSnapshot : WorkspaceTreeSnapshot :=
  ⟨⟨"r1", "w1", 1, 1, []⟩,
    [⟨[97], Vector.replicate 16 0, .blob hashA false, 1, 0⟩,
      ⟨[98], Vector.replicate 16 0, .blob hashA false, 2, 0⟩]⟩

/-- The libraries on that snapshot. -/
def sharedCodec : TreeCodec where
  identity _ := .ok "sha256:1"
  showRepoPath := Text.fromUtf8Lossy
  sha256 bytes := if bytes = [97] then hashA else sharedRoot

def blobWire : BlobWire := ⟨sharedCodec.sha256, fun h => hexEncode h.toList, toString⟩

/-- A daemon with the one blob `a`. -/
def oneBlob (hash : Hash256) : Except String BlobResponse :=
  if hash = hashA then .ok ⟨200, .ok [97]⟩ else .ok ⟨404, .ok []⟩

/-- The read of `b` after one of `a`, the same read with an empty cache, and the artifact at `b`. -/
def secondReads (tree : CachedTree) : Option Bytes × Option Bytes × Option TreeArtifact :=
  ((readOutcome blobWire oneBlob tree second .file
      (cacheAfter blobWire oneBlob [(tree, first, .file)])).1.toOption,
    (readOutcome blobWire oneBlob tree second .file []).1.toOption, tree.byPath[second]?)

theorem sharedTree_reads :
    ((CachedTree.fromSnapshot sharedCodec sharedSnapshot).toOption.map secondReads) =
      some (some [97], none, some secondArtifact) := by decide +kernel

/-- The accepted tree and what the reads of it give. -/
theorem sharedTree_ok : ∃ tree, CachedTree.fromSnapshot sharedCodec sharedSnapshot = .ok tree ∧
    secondReads tree = (some [97], none, some secondArtifact) := by
  have h := sharedTree_reads
  cases hf : CachedTree.fromSnapshot sharedCodec sharedSnapshot with
  | error e => rw [hf] at h; cases h
  | ok tree =>
    rw [hf] at h
    exact ⟨tree, rfl, Option.some.inj h⟩

end Sample

/-- A read of `b` before any other is independent of the cache. -/
theorem cache_independent_iff_second :
    ∃ tree, CachedTree.fromSnapshot Sample.sharedCodec Sample.sharedSnapshot = .ok tree ∧
      CacheIndependent Sample.blobWire Sample.oneBlob tree Sample.second Sample.hashA
        Sample.secondArtifact .file (cacheAfter Sample.blobWire Sample.oneBlob []) := by
  obtain ⟨tree, hf, h⟩ := Sample.sharedTree_ok
  refine ⟨tree, hf, (cache_independent_iff Sample.blobWire Sample.oneBlob [] tree Sample.second
    Sample.hashA Sample.secondArtifact .file (congrArg (·.2.2) h) rfl).mpr fun _ data hp => ?_⟩
  cases hp

/-- After a read of `a`, the read of `b` gives one byte where the tree records two; with an empty
cache it fails. -/
theorem sharedHash_not_independent :
    ∃ tree, CachedTree.fromSnapshot Sample.sharedCodec Sample.sharedSnapshot = .ok tree ∧
      tree.byPath[Sample.second]? = some Sample.secondArtifact ∧
      CachedTree.blobIdentity Sample.secondArtifact.entry Sample.second = .ok Sample.hashA ∧
      ¬ CacheIndependent Sample.blobWire Sample.oneBlob tree Sample.second Sample.hashA
        Sample.secondArtifact .file
        (cacheAfter Sample.blobWire Sample.oneBlob [(tree, Sample.first, .file)]) := by
  obtain ⟨tree, hf, h⟩ := Sample.sharedTree_ok
  refine ⟨tree, hf, congrArg (·.2.2) h, rfl, fun hind => ?_⟩
  have hsame := congrArg Except.toOption hind.same
  have hcached := congrArg (·.1) h
  have hempty := congrArg (·.2.1) h
  simp only [Sample.secondReads] at hcached hempty
  rw [hcached, hempty] at hsame
  cases hsame

end KinVfs
