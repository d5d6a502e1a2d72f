import KinVfs.Lib.Runs
import KinVfs.Shim.StatCache

/-!
# The stat cache between threads (`crates/kin-vfs-shim/src/statcache.rs`)

The threads of a process share one cache. `observe` loads the counter, swaps it and clears the entries,
`remember` and `recall` load the counter and take the lock afterwards: each of these is a step of its
own here, and the threads take turns in any order. Alone, a thread does what `StatCache.observe`,
`remember` and `recallPath` say (`observe_alone`, `remember_alone`, `recall_alone`).

The counter holds the highest generation, so a lower one that is noted later does not stop the hits. A
hit is of the last fact and of the latest generation as long as no recall starts after such a regress
(`hits_fresh`).
-/

namespace KinVfs

/-- The nonzero generations that were noted: the latest, the highest, and whether a lower one was noted
after the highest. -/
structure Noted where
  latest : Nat
  highest : Nat
  regressed : Bool
  deriving DecidableEq

def Noted.note (n : Noted) (generation : Nat) : Noted :=
  if n.highest < generation then ⟨generation, generation, false⟩
  else ⟨generation, n.highest, n.regressed || generation < n.highest⟩

/-- Where a thread is in the code of the cache. -/
inductive CachePc where
  | idle
  /-- In the loop of `observe`, with the counter as it was loaded. -/
  | observing (generation current : Nat)
  /-- The counter is swapped. -/
  | clearing
  /-- The generation was the counter's. -/
  | remembering (path : VfsPath) (generation : Nat) (fact : PathFact)
  /-- The counter is loaded, and what had been noted then. -/
  | recalling (path : VfsPath) (observed : Nat) (noted : Noted)
  deriving DecidableEq

/-- A recall that gave a fact: what had been noted when it loaded the counter, and the fact that was
remembered last for the path. -/
structure Hit where
  path : VfsPath
  fact : PathFact
  noted : Noted
  last : Option StampedFact
  deriving DecidableEq

/-- The shared cache and the threads. The other fields are history, read by no step. -/
structure CacheThreads where
  cache : StatCache
  pc : Nat → CachePc
  noted : Noted
  last : VfsPath → Option StampedFact
  hits : List Hit

inductive CacheAct where
  | observe (generation : Nat)
  /-- A weak compare-and-swap may fail for no reason. -/
  | swap (spurious : Bool)
  | clear
  | remember (path : VfsPath) (generation : Nat) (fact : PathFact)
  | put
  | recall (path : VfsPath)
  | lookup

/-- The part of `recall` under the lock. -/
def StatCache.lookup (cache : StatCache) (path : VfsPath) (observed : Nat) :
    Option PathFact × StatCache :=
  match Lru.get path cache.entries with
  | (some entry, entries) =>
    if entry.generation = observed then (some entry.fact, { cache with entries := entries })
    else (none, { cache with entries := entries.filter (·.1 ≠ path) })
  | (none, entries) => (none, { cache with entries := entries })

namespace CacheThreads

def init (capacity : Nat) : CacheThreads :=
  ⟨.new capacity, fun _ => .idle, ⟨0, 0, false⟩, fun _ => none, []⟩

def goto (s : CacheThreads) (t : Nat) (pc : CachePc) : CacheThreads :=
  { s with pc := Function.update s.pc t pc }

/-- The loop condition of `observe`: a generation that is not above the counter is noted and no more. -/
def spin (s : CacheThreads) (t generation : Nat) : CacheThreads :=
  if s.cache.observed < generation then s.goto t (.observing generation s.cache.observed)
  else { s.goto t .idle with noted := s.noted.note generation }

def step (s : CacheThreads) : Nat × CacheAct → Option CacheThreads
  | (t, act) =>
    match s.pc t, act with
    | .idle, .observe generation =>
      if generation = 0 then some s else some (s.spin t generation)
    | .observing generation current, .swap spurious =>
      if s.cache.observed = current ∧ spurious = false then
        some { s.goto t .clearing with
          cache := { s.cache with observed := generation }
          noted := s.noted.note generation }
      else some (s.spin t generation)
    | .clearing, .clear => some { s.goto t .idle with cache := { s.cache with entries := [] } }
    | .idle, .remember path generation fact =>
      if generation = 0 ∨ generation ≠ s.cache.observed then some s
      else if s.cache.capacity = 0 then some s
      else some (s.goto t (.remembering path generation fact))
    | .remembering path generation fact, .put =>
      some { s.goto t .idle with
        cache := { s.cache with
          entries := Lru.put s.cache.capacity path ⟨generation, fact⟩ s.cache.entries }
        last := Function.update s.last path (some ⟨generation, fact⟩) }
    | .idle, .recall path =>
      if s.cache.capacity = 0 then some s
      else some (s.goto t (.recalling path s.cache.observed s.noted))
    | .recalling path observed noted, .lookup =>
      let r := s.cache.lookup path observed
      some { s.goto t .idle with
        cache := r.2
        hits := match r.1 with
          | some fact => s.hits ++ [⟨path, fact, noted, s.last path⟩]
          | none => s.hits }
    | _, _ => none

end CacheThreads

/-- The hit is of the fact remembered last, under the latest generation, and no lower one than the
highest had been noted since. -/
def Hit.Fresh (h : Hit) : Prop :=
  ∃ generation, generation ≠ 0 ∧ h.last = some ⟨generation, h.fact⟩ ∧ generation = h.noted.latest ∧
    h.noted.regressed = false

def HitsFresh (s : CacheThreads) : Prop := ∀ h ∈ s.hits, h.Fresh

/-- No recall starts while a lower generation than the highest has been noted since the highest was. -/
def CalmRecall (s : CacheThreads) : Nat × CacheAct → Prop
  | (_, .recall _) => s.noted.regressed = false
  | _ => True

instance (s : CacheThreads) : ∀ l, Decidable (CalmRecall s l)
  | (_, .recall _) => inferInstanceAs (Decidable (s.noted.regressed = false))
  | (_, .observe _) | (_, .swap _) | (_, .clear) | (_, .remember ..) | (_, .put) | (_, .lookup) =>
    inferInstanceAs (Decidable True)

/-! ## The invariant -/

/-- The latest is the highest unless there was a regress. -/
def Noted.Sound (n : Noted) : Prop := n.regressed = false → n.latest = n.highest

theorem Noted.sound_note (n : Noted) (generation : Nat) : (n.note generation).Sound := by
  unfold Noted.note
  split
  · intro _
    rfl
  · rename_i hle
    intro hr
    simp only [Bool.or_eq_false_iff, decide_eq_false_iff_not] at hr
    show generation = n.highest
    omega

theorem Noted.note_highest (n : Noted) (generation : Nat) :
    (n.note generation).highest = max n.highest generation := by
  unfold Noted.note
  split
  · rename_i hlt
    exact (Nat.max_eq_right (Nat.le_of_lt hlt)).symm
  · rename_i hle
    exact (Nat.max_eq_left (Nat.le_of_not_lt hle)).symm

/-- What a thread relies on: a recall that is under way started calmly, with the highest generation. -/
def CachePc.Relies : CachePc → Prop
  | .recalling _ observed noted => observed = noted.highest ∧ noted.Sound ∧ noted.regressed = false
  | .remembering _ generation _ => generation ≠ 0
  | .observing generation current => current < generation
  | .idle | .clearing => True

/-- The entries are the facts remembered last, or were evicted. -/
structure CacheThreads.Inv (s : CacheThreads) : Prop where
  counter : s.cache.observed = s.noted.highest
  noted : s.noted.Sound
  entry : ∀ path stamped, Lru.peek path s.cache.entries = some stamped →
    s.last path = some stamped ∧ stamped.generation ≠ 0
  relies : ∀ t, (s.pc t).Relies
  fresh : HitsFresh s

namespace CacheThreads

variable {s s' : CacheThreads} {t : Nat}

theorem relies_update {pc : CachePc} (h : ∀ t, (s.pc t).Relies) (hpc : pc.Relies) (u : Nat) :
    (Function.update s.pc t pc u).Relies := by
  by_cases hu : u = t
  · subst hu
    rwa [Function.update_self]
  · rw [Function.update_of_ne hu]
    exact h u

theorem Inv.goto (h : s.Inv) (t : Nat) (pc : CachePc) (hpc : pc.Relies) : (s.goto t pc).Inv :=
  { h with relies := relies_update h.relies hpc }

/-- A generation that the counter is not below. -/
theorem Inv.spin (h : s.Inv) (generation : Nat) : (s.spin t generation).Inv := by
  unfold CacheThreads.spin
  split
  · rename_i hlt
    exact h.goto t _ hlt
  · rename_i hle
    have hc := h.counter
    refine { h.goto t .idle trivial with counter := ?_, noted := s.noted.sound_note generation }
    show s.cache.observed = (s.noted.note generation).highest
    rw [Noted.note_highest]
    omega

theorem Inv.swap (h : s.Inv) {generation : Nat} (hlt : s.cache.observed < generation) :
    Inv { s.goto t .clearing with
      cache := { s.cache with observed := generation }
      noted := s.noted.note generation } := by
  have hc := h.counter
  refine { h.goto t .clearing trivial with
    counter := ?_
    noted := s.noted.sound_note generation }
  show generation = (s.noted.note generation).highest
  rw [Noted.note_highest]
  omega

theorem Inv.put (h : s.Inv) {path : VfsPath} {generation : Nat} (hg : generation ≠ 0)
    (fact : PathFact) :
    Inv { s.goto t .idle with
      cache := { s.cache with
        entries := Lru.put s.cache.capacity path ⟨generation, fact⟩ s.cache.entries }
      last := Function.update s.last path (some ⟨generation, fact⟩) } := by
  refine { h.goto t .idle trivial with entry := ?_ }
  intro q stamped hpeek
  show Function.update s.last path _ q = _ ∧ _
  rcases Lru.peek_put hpeek with ⟨rfl, rfl⟩ | ⟨hq, hpeek⟩
  · exact ⟨Function.update_self .., hg⟩
  · rw [Function.update_of_ne hq]
    exact h.entry q stamped hpeek

/-- What a lookup leaves was there. -/
theorem peek_lookup {cache : StatCache} {path q : VfsPath} {observed : Nat} {stamped : StampedFact}
    (h : Lru.peek q (cache.lookup path observed).2.entries = some stamped) :
    Lru.peek q cache.entries = some stamped := by
  have hget : Lru.peek q (Lru.get path cache.entries).2 = Lru.peek q cache.entries := Lru.peek_get
  unfold StatCache.lookup at h
  rcases hg : Lru.get path cache.entries with ⟨_ | entry, entries⟩
  all_goals
    rw [hg] at h hget
    dsimp only at h hget
  · exact hget ▸ h
  · split at h
    · exact hget ▸ h
    · by_cases hq : q = path
      · subst hq
        rw [Lru.peek_filter_self] at h
        cases h
      · rwa [Lru.peek_filter hq, hget] at h

theorem lookup_hit {cache : StatCache} {path : VfsPath} {observed : Nat} {fact : PathFact}
    (h : (cache.lookup path observed).1 = some fact) :
    Lru.peek path cache.entries = some ⟨observed, fact⟩ := by
  rw [← Lru.get_fst]
  unfold StatCache.lookup at h
  rcases hg : Lru.get path cache.entries with ⟨_ | entry, entries⟩
  · rw [hg] at h
    cases h
  · rw [hg] at h
    dsimp only at h
    split at h
    · rename_i hgen
      cases h
      rw [← hgen]
    · cases h

theorem Inv.lookup (h : s.Inv) {path : VfsPath} {observed : Nat} {noted : Noted}
    (hpc : (CachePc.recalling path observed noted).Relies) :
    Inv { s.goto t .idle with
      cache := (s.cache.lookup path observed).2
      hits := match (s.cache.lookup path observed).1 with
        | some fact => s.hits ++ [⟨path, fact, noted, s.last path⟩]
        | none => s.hits } := by
  obtain ⟨hobs, hsound, hcalm⟩ := hpc
  have hcounter : (s.cache.lookup path observed).2.observed = s.cache.observed := by
    unfold StatCache.lookup
    rcases Lru.get path s.cache.entries with ⟨_ | entry, entries⟩
    · rfl
    · dsimp only
      split <;> rfl
  refine { h.goto t .idle trivial with
    counter := hcounter.trans h.counter
    entry := fun q stamped hpeek => h.entry q stamped (peek_lookup hpeek)
    fresh := ?_ }
  intro hit hmem
  cases hout : (s.cache.lookup path observed).1 with
  | none =>
    simp only [hout] at hmem
    exact h.fresh hit hmem
  | some fact =>
    simp only [hout] at hmem
    rcases List.mem_append.mp hmem with hmem | hmem
    · exact h.fresh hit hmem
    · obtain rfl := List.mem_singleton.mp hmem
      obtain ⟨hlast, hne⟩ := h.entry path _ (lookup_hit hout)
      exact ⟨observed, hne, hlast, hobs.trans (hsound hcalm).symm, hcalm⟩

/-- One step of a thread, as long as it is calm. -/
theorem step_inv {act : CacheAct} (h : s.Inv) (hcalm : CalmRecall s (t, act))
    (hstep : s.step (t, act) = some s') : s'.Inv := by
  have hpc := h.relies t
  unfold CacheThreads.step at hstep
  dsimp only at hstep
  split at hstep
  · split at hstep
    · cases hstep
      exact h
    · cases hstep
      exact h.spin _
  · -- The swap: the counter is as it was loaded, below the generation.
    rename_i hat
    rw [hat] at hpc
    split at hstep
    · rename_i hsame
      cases hstep
      have hlt : s.cache.observed < _ := hsame.1 ▸ hpc
      exact h.swap hlt
    · cases hstep
      exact h.spin _
  · cases hstep
    exact { h.goto t .idle trivial with entry := fun q stamped hpeek => nomatch hpeek }
  · split at hstep
    · cases hstep
      exact h
    · rename_i hgen
      split at hstep
      · cases hstep
        exact h
      · cases hstep
        exact h.goto t _ fun h0 => hgen (.inl h0)
  · rename_i hat
    rw [hat] at hpc
    cases hstep
    exact h.put hpc _
  · split at hstep
    · cases hstep
      exact h
    · cases hstep
      exact h.goto t _ ⟨h.counter, h.noted, hcalm⟩
  · rename_i hat
    rw [hat] at hpc
    cases hstep
    exact h.lookup hpc
  · cases hstep

theorem inv_init (capacity : Nat) : (init capacity).Inv where
  counter := rfl
  noted _ := rfl
  entry _ _ h := nomatch h
  relies _ := trivial
  fresh _ h := nomatch h

/-! ## A thread alone -/

theorem goto_self {pc : CachePc} (h : s.pc t = pc) : s.goto t pc = s := by
  subst h
  simp [goto]

theorem observe_alone (hpc : s.pc t = .idle) (generation : Nat) :
    ∃ acts : List CacheAct, ∃ s', Runs.run step s (acts.map (t, ·)) = some s' ∧
      s'.cache = s.cache.observe generation ∧ s'.pc = s.pc := by
  unfold StatCache.observe
  by_cases h0 : generation = 0
  · rw [if_pos h0]
    refine ⟨[.observe generation], s, ?_, rfl, rfl⟩
    simp [Runs.run, step, hpc, h0]
  · rw [if_neg h0]
    by_cases hlt : s.cache.observed < generation
    · rw [if_pos hlt]
      have hload : s.step (t, .observe generation) =
          some (s.goto t (.observing generation s.cache.observed)) := by
        simp [step, hpc, h0, spin, hlt]
      refine ⟨[.observe generation, .swap false, .clear], { s with
        cache := { s.cache with observed := generation, entries := [] }
        noted := s.noted.note generation }, ?_, rfl, rfl⟩
      rw [List.map_cons, Runs.run, hload]
      simp [Runs.run, step, goto, ← hpc]
    · rw [if_neg hlt]
      refine ⟨[.observe generation], { s with noted := s.noted.note generation }, ?_, rfl, rfl⟩
      simp [Runs.run, step, hpc, h0, spin, hlt, goto_self hpc]

theorem remember_alone (hpc : s.pc t = .idle) (path : VfsPath) (generation : Nat) (fact : PathFact) :
    ∃ acts : List CacheAct, ∃ s', Runs.run step s (acts.map (t, ·)) = some s' ∧
      s'.cache = s.cache.remember path generation fact ∧ s'.pc = s.pc := by
  unfold StatCache.remember
  by_cases hgen : generation = 0 ∨ generation ≠ s.cache.observed
  · rw [if_pos hgen]
    refine ⟨[.remember path generation fact], s, ?_, rfl, rfl⟩
    simp [Runs.run, step, hpc, if_pos hgen]
  · rw [if_neg hgen]
    by_cases hcap : s.cache.capacity = 0
    · rw [if_pos hcap]
      refine ⟨[.remember path generation fact], s, ?_, rfl, rfl⟩
      simp [Runs.run, step, hpc, hcap]
    · rw [if_neg hcap]
      have hload : s.step (t, .remember path generation fact) =
          some (s.goto t (.remembering path generation fact)) := by
        simp [step, hpc, if_neg hgen, hcap]
      refine ⟨[.remember path generation fact, .put], { s with
        cache := { s.cache with
          entries := Lru.put s.cache.capacity path ⟨generation, fact⟩ s.cache.entries }
        last := Function.update s.last path (some ⟨generation, fact⟩) }, ?_, rfl, rfl⟩
      rw [List.map_cons, Runs.run, hload]
      simp [Runs.run, step, goto, ← hpc]

/-- And a hit is what `recallPath` gives. -/
theorem recall_alone (hpc : s.pc t = .idle) (path : VfsPath) :
    ∃ acts : List CacheAct, ∃ s', Runs.run step s (acts.map (t, ·)) = some s' ∧
      s'.cache = (s.cache.recallPath path).2 ∧ s'.pc = s.pc ∧
      s'.hits = s.hits ++ ((s.cache.recallPath path).1.map fun fact =>
        ⟨path, fact, s.noted, s.last path⟩).toList := by
  have hrecall : s.cache.recallPath path =
      if s.cache.capacity = 0 then (none, s.cache) else s.cache.lookup path s.cache.observed := rfl
  rw [hrecall]
  by_cases hcap : s.cache.capacity = 0
  · rw [if_pos hcap]
    refine ⟨[.recall path], s, ?_, rfl, rfl, by simp⟩
    simp [Runs.run, step, hpc, hcap]
  · rw [if_neg hcap]
    have hload : s.step (t, .recall path) =
        some (s.goto t (.recalling path s.cache.observed s.noted)) := by
      simp [step, hpc, hcap]
    refine ⟨[.recall path, .lookup], { s with
      cache := (s.cache.lookup path s.cache.observed).2
      hits := match (s.cache.lookup path s.cache.observed).1 with
        | some fact => s.hits ++ [⟨path, fact, s.noted, s.last path⟩]
        | none => s.hits }, ?_, rfl, rfl, ?_⟩
    · rw [List.map_cons, Runs.run, hload]
      simp [Runs.run, step, goto, ← hpc]
    · cases (s.cache.lookup path s.cache.observed).1 with
      | none => simp
      | some fact => rfl

end CacheThreads

/-- In every run whose recalls start calmly, each hit is of the latest generation and of the fact
remembered last. -/
theorem hits_fresh (capacity : Nat) {acts : List (Nat × CacheAct)} {s : CacheThreads}
    (hcalm : Runs.Meets CacheThreads.step CalmRecall (.init capacity) acts)
    (hrun : Runs.run CacheThreads.step (.init capacity) acts = some s) : HitsFresh s := by
  have hinv : s.Inv :=
    Runs.run_inv_of_meets (fun _ _ _ h hC hstep => CacheThreads.step_inv h hC hstep)
      (CacheThreads.inv_init capacity) hcalm hrun
  exact hinv.fresh

namespace Sample

def srcPath : VfsPath := ⟨[115, 114, 99], rfl⟩

/-- Thread 1 remembers under generation 7, and under 8 after thread 0 noted it. -/
def racing : List (Nat × CacheAct) :=
  [(0, .observe 7), (0, .swap false), (0, .clear), (1, .remember srcPath 7 (.present true false)),
    (0, .observe 8), (0, .swap false), (1, .put), (2, .recall srcPath), (0, .clear), (2, .lookup),
    (1, .remember srcPath 8 .absent), (1, .put), (2, .recall srcPath), (2, .lookup)]

/-- A fact is remembered under generation 7, and generation 5 is noted. -/
def regressing : List (Nat × CacheAct) :=
  [(0, .observe 7), (0, .swap false), (0, .clear), (0, .remember srcPath 7 (.present true false)),
    (0, .put), (0, .observe 5), (0, .recall srcPath), (0, .lookup)]

end Sample

/-- The first recall of `racing` finds nothing, the second the fact of generation 8. -/
theorem hits_fresh_racing :
    ∃ s, Runs.run CacheThreads.step (.init 16) Sample.racing = some s ∧
      s.hits = [⟨Sample.srcPath, .absent, ⟨8, 8, false⟩, some ⟨8, .absent⟩⟩] ∧ HitsFresh s := by
  have hhits : (Runs.run CacheThreads.step (.init 16) Sample.racing).map (·.hits) =
      some [⟨Sample.srcPath, .absent, ⟨8, 8, false⟩, some ⟨8, .absent⟩⟩] := by decide
  obtain ⟨s, hrun, hs⟩ := Option.map_eq_some_iff.mp hhits
  have hcalm : Runs.Meets CacheThreads.step CalmRecall (.init 16) Sample.racing := by decide
  exact ⟨s, hrun, hs, hits_fresh 16 hcalm hrun⟩

/-- The recall of `regressing` gives the fact of generation 7. -/
theorem hits_fresh_regressing :
    ∃ s, Runs.run CacheThreads.step (.init 16) Sample.regressing = some s ∧
      s.hits = [⟨Sample.srcPath, .present true false, ⟨5, 7, true⟩, some ⟨7, .present true false⟩⟩] ∧
      ¬ HitsFresh s := by
  have hhits : (Runs.run CacheThreads.step (.init 16) Sample.regressing).map (·.hits) =
      some [⟨Sample.srcPath, .present true false, ⟨5, 7, true⟩, some ⟨7, .present true false⟩⟩] := by
    decide
  obtain ⟨s, hrun, hs⟩ := Option.map_eq_some_iff.mp hhits
  refine ⟨s, hrun, hs, fun hfresh => ?_⟩
  obtain ⟨-, -, -, -, hregressed⟩ := hfresh _ (by rw [hs]; exact List.mem_singleton_self _)
  cases hregressed

end KinVfs
