import KinVfs.Lib.Lru
import KinVfs.Core.Path

/-!
# Remembered path facts (`crates/kin-vfs-shim/src/statcache.rs`)

A fact is stored under the generation of the answer it comes from and recalled only while that is
the newest generation an answer has reported. `Recalls` is what a recall can give; `Holds P` says
that every recall gives a fact that `P` allows, and `observe`, `remember` and `recallPath` keep it.
-/

namespace KinVfs

/-- What path resolution reads of an answer. -/
inductive PathFact where
  | present (isDir isSymlink : Bool)
  | absent
  deriving DecidableEq, Repr

/-- A fact with the generation that produced it. -/
structure StampedFact where
  generation : Nat
  fact : PathFact
  deriving DecidableEq, Repr

/-- `capacity = 0` disables the cache. -/
structure StatCache where
  observed : Nat
  capacity : Nat
  entries : List (VfsPath × StampedFact)

namespace StatCache

/-- Entries retained per process (`DEFAULT_CAPACITY`). -/
def defaultCapacity : Nat := 8192

def new (capacity : Nat) : StatCache := ⟨0, capacity, []⟩

/-- A higher generation drops what was remembered; `0` is "no snapshot answered". -/
def observe (cache : StatCache) (generation : Nat) : StatCache :=
  if generation = 0 then cache
  else if cache.observed < generation then { cache with observed := generation, entries := [] }
  else cache

def remember (cache : StatCache) (path : VfsPath) (generation : Nat) (fact : PathFact) : StatCache :=
  if generation = 0 ∨ generation ≠ cache.observed then cache
  else if cache.capacity = 0 then cache
  else { cache with entries := Lru.put cache.capacity path ⟨generation, fact⟩ cache.entries }

/-- `recall`: the fact of `path`, and the cache after the lookup. An entry of another generation is dropped. -/
def recallPath (cache : StatCache) (path : VfsPath) : Option PathFact × StatCache :=
  if cache.capacity = 0 then (none, cache)
  else
    match Lru.get path cache.entries with
    | (some entry, entries) =>
      if entry.generation = cache.observed then (some entry.fact, { cache with entries := entries })
      else (none, { cache with entries := entries.filter (·.1 ≠ path) })
    | (none, entries) => (none, { cache with entries := entries })

/-- A recall of `path` gives `fact`. -/
def Recalls (cache : StatCache) (path : VfsPath) (fact : PathFact) : Prop :=
  (cache.recallPath path).1 = some fact

/-- Each fact that can be recalled is allowed by `P`. -/
def Holds (P : VfsPath → PathFact → Prop) (cache : StatCache) : Prop :=
  ∀ path fact, cache.Recalls path fact → P path fact

variable {cache : StatCache} {P : VfsPath → PathFact → Prop} {path q : VfsPath}
  {fact f : PathFact} {generation : Nat}

theorem recalls_iff :
    cache.Recalls path fact ↔
      cache.capacity ≠ 0 ∧ Lru.peek path cache.entries = some ⟨cache.observed, fact⟩ := by
  unfold Recalls recallPath
  by_cases hcap : cache.capacity = 0
  · simp [hcap]
  · rw [if_neg hcap, ← Lru.get_fst]
    rcases Lru.get path cache.entries with ⟨_ | entry, entries⟩
    · simp
    · obtain ⟨g, x⟩ := entry
      by_cases hgen : g = cache.observed
      · simp [hcap, hgen]
      · simp [hgen]

theorem recalls_observe (h : (cache.observe generation).Recalls q f) : cache.Recalls q f := by
  unfold StatCache.observe at h
  split at h
  · exact h
  · split at h
    · simp [recalls_iff] at h
    · exact h

theorem recalls_remember (h : (cache.remember path generation fact).Recalls q f) :
    q = path ∧ f = fact ∨ cache.Recalls q f := by
  unfold StatCache.remember at h
  split at h
  · exact .inr h
  · split at h
    · exact .inr h
    · obtain ⟨hcap, hpeek⟩ := recalls_iff.mp h
      rcases Lru.peek_put hpeek with ⟨hq, hf⟩ | ⟨-, hpeek⟩
      · exact .inl ⟨hq, congrArg StampedFact.fact hf⟩
      · exact .inr (recalls_iff.mpr ⟨hcap, hpeek⟩)

theorem recalls_recall (h : (cache.recallPath path).2.Recalls q f) : cache.Recalls q f := by
  unfold StatCache.recallPath at h
  split at h
  · exact h
  · have hget : Lru.peek q (Lru.get path cache.entries).2 = Lru.peek q cache.entries := Lru.peek_get
    rcases hg : Lru.get path cache.entries with ⟨_ | entry, entries⟩
    all_goals
      rw [hg] at h hget
      dsimp only at h hget
    · rw [recalls_iff] at h ⊢
      exact hget ▸ h
    · split at h
      · rw [recalls_iff] at h ⊢
        exact hget ▸ h
      · rw [recalls_iff] at h ⊢
        by_cases hq : q = path
        · subst hq
          simp only [Lru.peek_filter_self, reduceCtorEq, and_false] at h
        · rwa [Lru.peek_filter hq, hget] at h

theorem holds_new (capacity : Nat) : (new capacity).Holds P := by
  intro path fact hr
  simp [recalls_iff, new] at hr

theorem Holds.observe (h : cache.Holds P) : (cache.observe generation).Holds P :=
  fun _ _ hr => h _ _ (recalls_observe hr)

theorem Holds.remember (h : cache.Holds P) (hP : P path fact) :
    (cache.remember path generation fact).Holds P := by
  intro q f hr
  rcases recalls_remember hr with ⟨rfl, rfl⟩ | hr
  · exact hP
  · exact h q f hr

theorem Holds.recallPath (h : cache.Holds P) : (cache.recallPath path).2.Holds P :=
  fun _ _ hr => h _ _ (recalls_recall hr)

end StatCache
end KinVfs
