import KinVfs.Core.FileTree
import KinVfs.Daemon.ReadYourWrites
import KinVfs.Daemon.TreeContract

/-!
# Ranges of bytes (`tree.rs` of `crates/kin-vfs-core/src`, `tree_contract.rs` and `kin_writer.rs` of
`crates/kin-vfs-daemon/src`)

A range is cut out of bytes that are there as a whole at three places: from the content that the tree has cached,
from a verified blob, and from a staged file. Offsets and lengths are `u64`s, and `usize` has 64 bits as well.

The last two add with `saturating_add`. The first adds without, so what it does on an overflow depends on how it
was built, and is in no case the range (`ranges_agree_iff`).
-/

namespace KinVfs

/-- `data[start..stop]`, which panics if there are no such bytes. -/
def indexRange (data : Bytes) (start stop : Nat) : Option Bytes :=
  if start ≤ stop ∧ stop ≤ data.length then some (Content.slice data start stop) else none

/-- `a + b` of two `u64`s, which panics on overflow if the build checks for it, and wraps around if not. -/
def addU64 (checks : Bool) (a b : Nat) : Option Nat :=
  if a + b ≤ u64Max then some (a + b) else if checks then none else some ((a + b) % 2 ^ 64)

/-- The bytes from `offset` to `offset + len`, as far as there are any. -/
def rangeOf (data : Bytes) (offset len : Nat) : Bytes :=
  Content.slice data (min offset data.length) (min (offset + len) data.length)

namespace FileTree

/-- The range of a cached content, `none` for a panic. -/
def cachedRange (checks : Bool) (data : Bytes) (offset len : Nat) : Option Bytes := do
  let stop ← addU64 checks offset len
  if data.length ≤ offset then return []
  indexRange data offset (min stop data.length)

def readRange (checks : Bool) (root path : Bytes) (offset len : Nat) : TreeM (Option Bytes) := do
  let rel ← requireRelative root path
  let providerVersion ← version
  match ← cacheGet rel providerVersion with
  | some (.content _ data) => pure (cachedRange checks data offset len)
  | _ => do
    let data ← ask (·.readRange rel offset len)
    pure (some data)

end FileTree

/-- `slice_verified_blob` with its errors; `CachedTree.sliceVerifiedBlob` is what it returns. -/
def sliceVerifiedBlobResult (data : Bytes) (offset len : Nat) (path : VfsPath) : VfsResult Bytes :=
  if u64Max < data.length then .error (.provider ("graph blob for " ++ path.display ++ " exceeds u64"))
  else if len = 0 ∨ data.length ≤ offset then .ok []
  else
    match indexRange data offset (min (saturatingAdd offset len) data.length) with
    | some bytes => .ok bytes
    | none =>
      .error (.provider ("verified graph blob range " ++ toString offset ++ ".." ++
        toString (min (saturatingAdd offset len) data.length) ++ " is invalid for " ++ path.display))

/-- The three readers give the range of the content `data`, and none of them panics. -/
structure RangesAgree (checks : Bool) (data : Bytes) (offset len : Nat) : Prop where
  /-- A tree that has the content in its cache. -/
  cached : ∀ (root path : Bytes) (rel : VfsPath) (s : FileTree.Shared) (st : VirtualStat),
    FileTree.relativePath root path = some rel →
    (FileTree.VfsCache.get rel (s.history s.now).version s.cache).1 = some (.content st data) →
    ((FileTree.readRange checks root path offset len).run s).1 = .ok (some (rangeOf data offset len))
  verified : ∀ path, sliceVerifiedBlobResult data offset len path = .ok (rangeOf data offset len)
  /-- A staged file with the content. -/
  staged : ∀ (repoRoot host : Posix.Path) (w : World) (path : VfsPath) (st : VirtualStat),
    w.staging.staged path = some (.present st) → KinDaemonWriter.contentPath repoRoot w.host path = .ok host →
    w.host.readFile host = .ok data →
    KinDaemonWriter.readStaged repoRoot w path offset len = .ok (rangeOf data offset len)
  staged_index : indexRange data (min offset data.length) (min (saturatingAdd offset len) data.length) =
    some (rangeOf data offset len)

section Ranges

variable {checks : Bool} {data : Bytes} {offset len : Nat}

theorem rangeOf_of_le (h : data.length ≤ offset) : rangeOf data offset len = [] := by
  unfold rangeOf Content.slice
  rw [Nat.min_eq_right h, List.drop_length, List.take_nil]

theorem rangeOf_eq (h : offset ≤ data.length) :
    rangeOf data offset len = Content.slice data offset (min (offset + len) data.length) := by
  unfold rangeOf
  rw [Nat.min_eq_left h]

/-- The end that `saturating_add` gives is the end, for bytes that are there. -/
theorem min_saturatingAdd (h : data.length ≤ u64Max) :
    min (saturatingAdd offset len) data.length = min (offset + len) data.length := by
  unfold saturatingAdd
  omega

theorem indexRange_staged (h : data.length ≤ u64Max) :
    indexRange data (min offset data.length) (min (saturatingAdd offset len) data.length) =
      some (rangeOf data offset len) := by
  rw [min_saturatingAdd h]
  unfold indexRange
  rw [if_pos (by omega)]
  rfl

/-- What the tree computes is what `slice_verified_blob` returns. -/
theorem sliceVerifiedBlobResult_ok (h : data.length ≤ u64Max) (path : VfsPath) :
    sliceVerifiedBlobResult data offset len path = .ok (CachedTree.sliceVerifiedBlob data offset len) := by
  unfold sliceVerifiedBlobResult CachedTree.sliceVerifiedBlob
  rw [if_neg (by omega)]
  by_cases hempty : len = 0 ∨ data.length ≤ offset
  · rw [if_pos hempty, if_pos hempty]
  · rw [if_neg hempty, if_neg hempty, min_saturatingAdd h]
    unfold indexRange
    rw [if_pos (by omega)]
    rfl

theorem rangeOf_eq_take : rangeOf data offset len = (data.drop offset).take len := by
  by_cases hend : data.length ≤ offset
  · rw [rangeOf_of_le hend, List.drop_eq_nil_of_le hend, List.take_nil]
  · rw [rangeOf_eq (by omega)]
    unfold Content.slice
    rw [List.take_eq_take_iff, List.length_drop]
    omega

theorem sliceVerifiedBlobResult_eq (h : data.length ≤ u64Max) (path : VfsPath) :
    sliceVerifiedBlobResult data offset len path = .ok (rangeOf data offset len) := by
  rw [sliceVerifiedBlobResult_ok h, CachedTree.sliceVerifiedBlob_eq_take h, rangeOf_eq_take]

theorem readStaged_eq (h : data.length ≤ u64Max) {repoRoot host : Posix.Path} {w : World} {path : VfsPath}
    {st : VirtualStat} (hst : w.staging.staged path = some (.present st))
    (hpath : KinDaemonWriter.contentPath repoRoot w.host path = .ok host)
    (hread : w.host.readFile host = .ok data) :
    KinDaemonWriter.readStaged repoRoot w path offset len = .ok (rangeOf data offset len) := by
  unfold KinDaemonWriter.readStaged
  rw [hst]
  dsimp only
  rw [hpath]
  dsimp only
  rw [hread]
  dsimp only
  rw [min_saturatingAdd h]
  rfl

/-- **The cached range**: right if the sum is one of a `u64`, or wraps around where there is nothing to read. -/
theorem cachedRange_iff (ho : offset ≤ u64Max) (hl : len ≤ u64Max) :
    FileTree.cachedRange checks data offset len = some (rangeOf data offset len) ↔
      offset + len < 2 ^ 64 ∨ (checks = false ∧ data.length ≤ offset) := by
  unfold FileTree.cachedRange addU64
  by_cases hfit : offset + len ≤ u64Max
  · have hlt : offset + len < 2 ^ 64 := by
      unfold u64Max at hfit
      omega
    refine iff_of_true ?_ (.inl hlt)
    rw [if_pos hfit]
    by_cases hend : data.length ≤ offset
    · simp [hend, rangeOf_of_le]
    · simp only [Option.bind_eq_bind, Option.bind_some, if_neg hend]
      unfold indexRange
      rw [if_pos (by omega), rangeOf_eq (by omega)]
  · rw [if_neg hfit]
    unfold u64Max at ho hl hfit
    cases checks with
    | true => simpa using (by omega : ¬ offset + len < 2 ^ 64)
    | false =>
      by_cases hend : data.length ≤ offset
      · refine iff_of_true ?_ (.inr ⟨rfl, hend⟩)
        simp [hend, rangeOf_of_le]
      · -- The end that is left is before the start, and so the slice panics.
        refine iff_of_false ?_ (by simpa [hend] using (by omega : 2 ^ 64 ≤ offset + len))
        simp only [Bool.false_eq_true, if_false, Option.bind_eq_bind, Option.bind_some, if_neg hend]
        unfold indexRange
        rw [if_neg (by omega)]
        simp

theorem readRange_cached {root path : Bytes} {rel : VfsPath} {s : FileTree.Shared} {st : VirtualStat}
    (hrel : FileTree.relativePath root path = some rel)
    (hget : (FileTree.VfsCache.get rel (s.history s.now).version s.cache).1 = some (.content st data)) :
    ((FileTree.readRange checks root path offset len).run s).1 =
      .ok (FileTree.cachedRange checks data offset len) := by
  have hrun : (FileTree.readRange checks root path offset len).run s =
      ((match (FileTree.VfsCache.get rel (s.history s.now).version s.cache).1 with
        | some (.content _ data) => pure (FileTree.cachedRange checks data offset len)
        | _ => do
          let data ← FileTree.ask (·.readRange rel offset len)
          pure (some data) : FileTree.TreeM (Option Bytes)).run
        { s with cache := (FileTree.VfsCache.get rel (s.history s.now).version s.cache).2 }) := by
    unfold FileTree.readRange FileTree.requireRelative
    rw [hrel]
    rfl
  rw [hrun, hget]
  rfl

end Ranges

/-- A tree with the content of its root in the cache. -/
def FileTree.Demo.holding (data : Bytes) : FileTree.Shared :=
  { FileTree.start FileTree.Demo.empty with cache := [(.root, ⟨1, .content (.directory 0) data⟩)] }

theorem FileTree.Demo.get_holding (data : Bytes) :
    (FileTree.VfsCache.get .root ((holding data).history (holding data).now).version (holding data).cache).1 =
      some (.content (.directory 0) data) := by
  simp [FileTree.VfsCache.get, Lru.get, holding, FileTree.start, empty]

theorem RangesAgree.cachedRange {checks : Bool} {data : Bytes} {offset len : Nat}
    (h : RangesAgree checks data offset len) :
    FileTree.cachedRange checks data offset len = some (rangeOf data offset len) := by
  have hget := FileTree.Demo.get_holding data
  have hrange := h.cached [] [] .root (FileTree.Demo.holding data) (.directory 0) rfl hget
  rw [readRange_cached rfl hget] at hrange
  exact Except.ok.inj hrange

/-- **When range readers agree**: always, except that the tree's cached content is cut right only where the sum of
offset and length is a `u64`, or where a build without overflow checks has nothing to read. -/
theorem ranges_agree_iff (checks : Bool) (data : Bytes) (offset len : Nat) (hdata : data.length ≤ u64Max)
    (ho : offset ≤ u64Max) (hl : len ≤ u64Max) :
    RangesAgree checks data offset len ↔ offset + len < 2 ^ 64 ∨ (checks = false ∧ data.length ≤ offset) := by
  rw [← cachedRange_iff ho hl]
  constructor
  · exact RangesAgree.cachedRange
  · intro h
    refine ⟨?_, sliceVerifiedBlobResult_eq hdata, ?_, indexRange_staged hdata⟩
    · intro root path rel s st hrel hget
      rw [readRange_cached hrel hget, h]
    · intro repoRoot host w path st hst hpath hread
      exact readStaged_eq hdata hst hpath hread

/-- The last byte of three. -/
theorem ranges_agree_iff_last : RangesAgree true [1, 2, 3] 2 5 :=
  (ranges_agree_iff true [1, 2, 3] 2 5 (by decide) (by decide) (by decide)).mpr (.inl (by decide))

/-- To read on from the second byte with the largest length is a panic, with overflow checks and without. -/
theorem cachedRange_overflows :
    ¬ RangesAgree true [1, 2, 3] 1 (2 ^ 64 - 1) ∧ ¬ RangesAgree false [1, 2, 3] 1 (2 ^ 64 - 1) := by
  constructor
  · intro h
    exact absurd h.cachedRange (by decide)
  · intro h
    exact absurd h.cachedRange (by decide)

end KinVfs
