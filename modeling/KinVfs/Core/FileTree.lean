import KinVfs.Core.Provider
import KinVfs.Lib.Interleave
import KinVfs.Lib.Lru
import KinVfs.Lib.Text

/-!
# The virtual file tree and its cache (`tree.rs` and `cache.rs` of `crates/kin-vfs-core/src`)

`stat` and `read` ask the provider for its version, look in the cache, and on a miss ask for the data and put
it there under the version they read first. Each of these is one step, and other calls, invalidations and
publications of the provider come in between.

A publication replaces the whole content together with the version. All that was ever published is kept, with
the place of the current one (`Shared.now`), so that an instant is such a place.

An entry stamped with a version holds data that was current when that version was, or later
(`Shared.Inv`). A reader that finds it has read the same version during its own call, so the data was current
during that call as well: `calls_see_provider`.
-/

namespace KinVfs.FileTree

open Interleave

inductive CachedEntry where
  | stat (stat : VirtualStat)
  | content (stat : VirtualStat) (data : Bytes)

structure VersionedEntry where
  providerVersion : Nat
  value : CachedEntry

/-- What threads share: the provider and the cache. -/
structure Shared where
  /-- What the provider published, in order. -/
  history : Nat → ContentProvider
  /-- The place of what it holds. -/
  now : Nat
  /-- Why the provider cannot be asked, when it cannot. -/
  offline : Option VfsError
  cache : List (VfsPath × VersionedEntry)

abbrev TreeM := Prog Shared VfsError

/-! ## The cache -/

namespace VfsCache

/-- The capacity a cache is built with. -/
def capacity (cap : Nat) : Nat := max cap 1

/-- An entry of another version is dropped. -/
def get (path : VfsPath) (providerVersion : Nat) (entries : List (VfsPath × VersionedEntry)) :
    Option CachedEntry × List (VfsPath × VersionedEntry) :=
  match Lru.get path entries with
  | (some entry, rest) =>
    if entry.providerVersion = providerVersion then (some entry.value, rest)
    else (none, rest.filter (·.1 ≠ path))
  | (none, rest) => (none, rest)

def put (cap : Nat) (path : VfsPath) (providerVersion : Nat) (value : CachedEntry)
    (entries : List (VfsPath × VersionedEntry)) : List (VfsPath × VersionedEntry) :=
  Lru.put (capacity cap) path ⟨providerVersion, value⟩ entries

def invalidate (paths : List VfsPath) (entries : List (VfsPath × VersionedEntry)) :
    List (VfsPath × VersionedEntry) :=
  paths.foldl (fun entries path => entries.filter (·.1 ≠ path)) entries

end VfsCache

/-! ## The tree -/

/-- `VirtualFileTree::new` drops trailing slashes of the root. -/
def trimRoot (root : Bytes) : Bytes :=
  match root.reverse.dropWhile (· = slash) with
  | [] => root.take 1
  | rest => rest.reverse

/-- The workspace-relative path of a host path. -/
def relativePath (root path : Bytes) : Option VfsPath :=
  if !root.isPrefixOf path then none
  else
    match path.drop root.length with
    | [] => some .root
    | b :: rest =>
      if b = slash then (VfsPath.fromBytes (rest.reverse.dropWhile (· = slash)).reverse).toOption else none

variable (cap : Nat) (root : Bytes)

def requireRelative (path : Bytes) : TreeM VfsPath :=
  Prog.orFail (.notFound (Text.fromUtf8Lossy path)) (relativePath root path)

/-- `ContentProvider::version`. -/
def version : TreeM Nat := Prog.look fun s => (s.history s.now).version

/-- What the provider answers, if it can be asked. -/
def answer {α : Type} (f : ContentProvider → VfsResult α) (s : Shared) : VfsResult α :=
  match s.offline with
  | some e => .error e
  | none => f (s.history s.now)

/-- One answer of the provider. -/
def ask {α : Type} (f : ContentProvider → VfsResult α) : TreeM α := do
  match ← Prog.look fun s => answer f s with
  | .ok a => pure a
  | .error e => Prog.fail e

def cacheGet (rel : VfsPath) (providerVersion : Nat) : TreeM (Option CachedEntry) :=
  Prog.act fun s =>
    ((VfsCache.get rel providerVersion s.cache).1, { s with cache := (VfsCache.get rel providerVersion s.cache).2 })

def cachePut (rel : VfsPath) (providerVersion : Nat) (value : CachedEntry) : TreeM Unit :=
  Prog.act fun s => ((), { s with cache := VfsCache.put cap rel providerVersion value s.cache })

def stat (path : Bytes) : TreeM VirtualStat := do
  let rel ← requireRelative root path
  let providerVersion ← version
  match ← cacheGet rel providerVersion with
  | some (.stat st) => pure st
  | some (.content st _) => pure st
  | none => do
    let st ← ask (·.stat rel)
    cachePut cap rel providerVersion (.stat st)
    pure st

def read (path : Bytes) : TreeM Bytes := do
  let rel ← requireRelative root path
  let providerVersion ← version
  match ← cacheGet rel providerVersion with
  | some (.content _ data) => pure data
  -- An entry that holds only a stat is no help here.
  | _ => do
    let data ← ask (·.readFile rel)
    let st ← ask (·.stat rel)
    cachePut cap rel providerVersion (.content st data)
    pure data

def invalidate (paths : List VfsPath) : TreeM Unit :=
  Prog.act fun s => ((), { s with cache := VfsCache.invalidate paths s.cache })

def invalidateAll : TreeM Unit := Prog.act fun s => ((), { s with cache := [] })

/-! ## Calls of any number of threads -/

inductive Op where
  | stat (path : Bytes)
  | read (path : Bytes)
  | invalidate (paths : List VfsPath)
  | invalidateAll

inductive Result where
  | stat (stat : VirtualStat)
  | data (data : Bytes)
  | done

def perform : Op → TreeM Result
  | .stat path => do
    let st ← stat cap root path
    pure (.stat st)
  | .read path => do
    let data ← read cap root path
    pure (.data data)
  | .invalidate paths => do
    invalidate paths
    pure .done
  | .invalidateAll => do
    invalidateAll
    pure .done

/-- A call of a tree that was built over the workspace root `root`. -/
def call (op : Op) : TreeM Result := perform cap (trimRoot root) op

/-- A call with what the provider held when it started and when it ended. The two looks are within the call,
and change nothing. -/
def timed (op : Op) : TreeM (Nat × Except VfsError Result × Nat) := do
  let first ← Prog.look (·.now)
  let result ← (call cap root op).attempt
  let last ← Prog.look (·.now)
  pure (first, result, last)

/-- What else happens: the provider publishes a new content, with a larger version, or cannot be asked for a
while. -/
inductive Elsewhere (s : Shared) : Shared → Prop
  | publish (next : ContentProvider) : (s.history s.now).version < next.version →
      Elsewhere s { s with history := Function.update s.history (s.now + 1) next, now := s.now + 1 }
  | connection (offline : Option VfsError) : Elsewhere s { s with offline := offline }

def start (first : ContentProvider) : Shared := ⟨fun _ => first, 0, none, []⟩

/-! ## What an entry is worth -/

/-- The provider held what satisfies `P` at some instant from `first` to `last`. -/
def Shared.HeldIn (s : Shared) (first last : Nat) (P : ContentProvider → Prop) : Prop :=
  ∃ i, first ≤ i ∧ i ≤ last ∧ P (s.history i)

/-- The data of an entry was current since the place `j`. -/
def Shared.HeldSince (s : Shared) (rel : VfsPath) (j : Nat) : CachedEntry → Prop
  | .stat st => s.HeldIn j s.now fun p => p.stat rel = .ok st
  | .content st data => (s.HeldIn j s.now fun p => p.stat rel = .ok st) ∧
      s.HeldIn j s.now fun p => p.readFile rel = .ok data

/-- Versions grow, and a stamp is the version of a place since which the data was current. -/
structure Shared.Inv (s : Shared) : Prop where
  increasing : ∀ i j, i < j → j ≤ s.now → (s.history i).version < (s.history j).version
  cached : ∀ x ∈ s.cache, ∃ j ≤ s.now, (s.history j).version = x.2.providerVersion ∧ s.HeldSince x.1 j x.2.value

/-- What was published stays so. -/
structure Shared.Later (s t : Shared) : Prop where
  now : s.now ≤ t.now
  past : ∀ i ≤ s.now, t.history i = s.history i

variable {cap root} {s t : Shared} {rel : VfsPath} {v i j first last : Nat} {entry : CachedEntry}

theorem later_rely : Rely Shared.Later where
  refl _ := ⟨Nat.le_refl _, fun _ _ => rfl⟩
  trans h₁ h₂ := ⟨Nat.le_trans h₁.now h₂.now, fun i hi =>
    (h₂.past i (Nat.le_trans hi h₁.now)).trans (h₁.past i hi)⟩

theorem Shared.HeldIn.later {P : ContentProvider → Prop} (h : s.HeldIn first last P) (hlast : last ≤ s.now)
    (hst : s.Later t) {last' : Nat} (hle : last ≤ last') : t.HeldIn first last' P := by
  obtain ⟨i, hfirst, hi, hP⟩ := h
  refine ⟨i, hfirst, Nat.le_trans hi hle, ?_⟩
  rw [hst.past i (Nat.le_trans hi hlast)]
  exact hP

theorem Shared.HeldSince.later (h : s.HeldSince rel j entry) (hst : s.Later t) : t.HeldSince rel j entry := by
  cases entry with
  | stat st =>
    have hheld : s.HeldIn j s.now fun p => p.stat rel = .ok st := h
    exact hheld.later (Nat.le_refl _) hst hst.now
  | content st data => exact ⟨h.1.later (Nat.le_refl _) hst hst.now, h.2.later (Nat.le_refl _) hst hst.now⟩

/-- A state with the same publications and entries that were there, or that were current since their stamp. -/
theorem Shared.Inv.recache (hs : s.Inv) {cache : List (VfsPath × VersionedEntry)}
    (hcache : ∀ x ∈ cache, x ∈ s.cache ∨
      ∃ j ≤ s.now, (s.history j).version = x.2.providerVersion ∧ s.HeldSince x.1 j x.2.value) :
    Shared.Inv { s with cache := cache } ∧ s.Later { s with cache := cache } := by
  refine ⟨⟨hs.increasing, fun x hx => ?_⟩, ⟨Nat.le_refl _, fun _ _ => rfl⟩⟩
  rcases hcache x hx with hold | hnew
  · exact hs.cached x hold
  · exact hnew

/-- A version stands for one place. -/
theorem Shared.Inv.version_inj (hs : s.Inv) (hi : i ≤ s.now) (hj : j ≤ s.now)
    (hv : (s.history i).version = (s.history j).version) : i = j := by
  rcases Nat.lt_trichotomy i j with hlt | rfl | hgt
  · have := hs.increasing i j hlt hj
    omega
  · rfl
  · have := hs.increasing j i hgt hi
    omega

theorem Elsewhere.later (h : Elsewhere s t) (hs : s.Inv) : t.Inv ∧ s.Later t := by
  cases h with
  | connection offline => exact ⟨⟨hs.increasing, hs.cached⟩, ⟨Nat.le_refl _, fun _ _ => rfl⟩⟩
  | publish next hnext =>
    have hst : s.Later { s with history := Function.update s.history (s.now + 1) next, now := s.now + 1 } := by
      refine ⟨Nat.le_succ _, fun i hi => ?_⟩
      exact Function.update_of_ne (by omega) _ _
    refine ⟨⟨fun i j hij hj => ?_, fun x hx => ?_⟩, hst⟩
    · by_cases hlast : j = s.now + 1
      · subst hlast
        rw [hst.past i (by omega)]
        show _ < (Function.update s.history (s.now + 1) next (s.now + 1)).version
        rw [Function.update_self]
        by_cases hi : i = s.now
        · rw [hi]
          exact hnext
        · exact Nat.lt_trans (hs.increasing i s.now (by omega) (Nat.le_refl _)) hnext
      · have hj' : j ≤ s.now + 1 := hj
        rw [hst.past i (by omega), hst.past j (by omega)]
        exact hs.increasing i j hij (by omega)
    · obtain ⟨j, hj, hstamp, hheld⟩ := hs.cached x hx
      refine ⟨j, Nat.le_trans hj hst.now, ?_, hheld.later hst⟩
      rw [hst.past j hj]
      exact hstamp

/-! ## The steps of a call -/

theorem mem_cache_get {entries : List (VfsPath × VersionedEntry)} {x : VfsPath × VersionedEntry}
    (hx : x ∈ (VfsCache.get rel v entries).2) : x ∈ entries := by
  unfold VfsCache.get at hx
  cases hget : Lru.get rel entries with
  | mk found rest =>
    have hrest : ∀ y ∈ rest, y ∈ entries := by
      intro y hy
      apply Lru.mem_get
      rw [hget]
      exact hy
    rw [hget] at hx
    cases found with
    | none => exact hrest x hx
    | some e =>
      dsimp only at hx
      split at hx
      · exact hrest x hx
      · exact hrest x (List.mem_filter.mp hx).1

/-- An entry that is found is in the cache, under the version that was asked for. -/
theorem cache_get_some {entries : List (VfsPath × VersionedEntry)} (h : (VfsCache.get rel v entries).1 = some entry) :
    (rel, ⟨v, entry⟩) ∈ entries := by
  unfold VfsCache.get at h
  cases hget : Lru.get rel entries with
  | mk found rest =>
    rw [hget] at h
    cases found with
    | none => cases h
    | some e =>
      dsimp only at h
      split at h
      · rename_i hv
        have hmem : (rel, e) ∈ entries := by
          apply Lru.mem_of_peek
          rw [← Lru.get_fst, hget]
        cases h
        subst hv
        exact hmem
      · cases h

theorem cacheGet_yields (rel : VfsPath) (v : Nat) :
    Yields Shared.Inv Shared.Later (fun res t => ∃ found, res = .ok found ∧ ∀ entry, found = some entry →
        ∃ j ≤ t.now, (t.history j).version = v ∧ t.HeldSince rel j entry) (cacheGet rel v) s := by
  apply Yields.act
  intro t _ ht
  obtain ⟨hI, hR⟩ := ht.recache fun x hx => .inl (mem_cache_get hx)
  refine ⟨hI, hR, _, rfl, fun entry hentry => ?_⟩
  obtain ⟨j, hj, hstamp, hheld⟩ := ht.cached _ (cache_get_some hentry)
  exact ⟨j, hj, hstamp, hheld.later hR⟩

theorem version_yields :
    Yields Shared.Inv Shared.Later (fun res t => ∃ v, res = .ok v ∧ (t.history t.now).version = v) version s :=
  Yields.look later_rely fun _ _ _ => ⟨_, rfl, rfl⟩

/-- A successful answer is what the provider holds then. -/
theorem ask_yields {α : Type} (f : ContentProvider → VfsResult α) :
    Yields Shared.Inv Shared.Later (fun res t => ∀ a, res = .ok a → f (t.history t.now) = .ok a) (ask f) s := by
  apply Yields.bind
  apply Yields.look later_rely
  intro t _ _
  dsimp only
  cases hans : answer f t with
  | error e =>
    intro a ha
    cases ha
  | ok b =>
    intro a ha
    cases ha
    unfold answer at hans
    split at hans
    · cases hans
    · exact hans

theorem cachePut_yields (hj : ∀ t, s.Later t → ∃ j ≤ t.now, (t.history j).version = v ∧ t.HeldSince rel j entry) :
    Yields Shared.Inv Shared.Later (fun res _ => res = .ok ()) (cachePut cap rel v entry) s := by
  apply Yields.act
  intro t hst ht
  have hput : ∀ x ∈ VfsCache.put cap rel v entry t.cache, x ∈ t.cache ∨
      ∃ j ≤ t.now, (t.history j).version = x.2.providerVersion ∧ t.HeldSince x.1 j x.2.value := by
    intro x hx
    rcases Lru.mem_put hx with rfl | hold
    · exact .inr (hj t hst)
    · exact .inl hold
  obtain ⟨hI, hR⟩ := ht.recache hput
  exact ⟨hI, hR, rfl⟩

/-! ## The calls -/

/-- What was current from a place on that has the version `v`, under the version a call has read. -/
theorem held_of_version (ht : t.Inv) (hst : s.Later t) (hv : (s.history s.now).version = v)
    (hfound : ∃ j ≤ t.now, (t.history j).version = v ∧ t.HeldSince rel j entry) :
    t.HeldSince rel s.now entry := by
  obtain ⟨j, hj, hstamp, hheld⟩ := hfound
  have hplace : j = s.now := by
    refine ht.version_inj hj hst.now ?_
    rw [hstamp, hst.past s.now (Nat.le_refl _), hv]
  rw [← hplace]
  exact hheld

theorem Shared.HeldIn.wider {P : ContentProvider → Prop} (h : s.HeldIn j last P) (hj : first ≤ j) :
    s.HeldIn first last P := by
  obtain ⟨i, hi, hrest⟩ := h
  exact ⟨i, Nat.le_trans hj hi, hrest⟩

theorem stat_yields (path : Bytes) (hs : s.Inv) :
    Yields Shared.Inv Shared.Later (fun res t => ∀ st, res = .ok st →
        ∃ rel, relativePath root path = some rel ∧ t.HeldIn s.now t.now fun p => p.stat rel = .ok st)
      (stat cap root path) s := by
  unfold stat requireRelative
  cases hrel : relativePath root path with
  | none =>
    intro st he
    cases he
  | some rel =>
    refine version_yields.andThen later_rely hs ?_ (fun e t ⟨_, he, _⟩ => by cases he)
    rintro v t ⟨v', hv', hv⟩ ht hst
    cases hv'
    refine (cacheGet_yields rel v).andThen later_rely ht ?_ (fun e u ⟨_, he, _⟩ => by cases he)
    rintro found u ⟨found', hfound', hstamp⟩ hu htu
    cases hfound'
    cases found with
    | some entry =>
      have hheld := held_of_version hu htu hv (hstamp entry rfl)
      cases entry with
      | stat st =>
        intro st' he
        cases he
        have hin : u.HeldIn t.now u.now fun p => p.stat rel = .ok st := hheld
        exact ⟨rel, rfl, hin.wider hst.now⟩
      | content st data =>
        intro st' he
        cases he
        exact ⟨rel, rfl, hheld.1.wider hst.now⟩
    | none =>
      refine (ask_yields _).andThen later_rely hu ?_ (fun e w _ _ _ st he => by cases he)
      intro st w hst' hw huw
      have hin : w.HeldIn t.now w.now fun p => p.stat rel = .ok st :=
        ⟨w.now, Nat.le_trans htu.now huw.now, Nat.le_refl _, hst' st rfl⟩
      have hput : ∀ x, w.Later x → ∃ j ≤ x.now, (x.history j).version = v ∧ x.HeldSince rel j (.stat st) := by
        intro x hwx
        have htx := later_rely.trans htu (later_rely.trans huw hwx)
        refine ⟨t.now, htx.now, ?_, hin.later (Nat.le_refl _) hwx hwx.now⟩
        rw [htx.past t.now (Nat.le_refl _), hv]
      refine (cachePut_yields hput).andThen later_rely hw ?_ (fun e x he => by cases he)
      rintro _ x - - hwx st' he
      cases he
      exact ⟨rel, rfl, (hin.wider hst.now).later (Nat.le_refl _) hwx hwx.now⟩

theorem read_yields (path : Bytes) (hs : s.Inv) :
    Yields Shared.Inv Shared.Later (fun res t => ∀ data, res = .ok data →
        ∃ rel, relativePath root path = some rel ∧ t.HeldIn s.now t.now fun p => p.readFile rel = .ok data)
      (read cap root path) s := by
  unfold read requireRelative
  cases hrel : relativePath root path with
  | none =>
    intro data he
    cases he
  | some rel =>
    refine version_yields.andThen later_rely hs ?_ (fun e t ⟨_, he, _⟩ => by cases he)
    rintro v t ⟨v', hv', hv⟩ ht hst
    cases hv'
    -- On a miss, and when the entry has no data.
    have hmiss : ∀ {u : Shared}, u.Inv → t.Later u →
        Yields Shared.Inv Shared.Later (fun res x => ∀ data, res = .ok data →
            ∃ rel', some rel = some rel' ∧ x.HeldIn s.now x.now fun p => p.readFile rel' = .ok data)
          (do
            let data ← ask (·.readFile rel)
            let st ← ask (·.stat rel)
            cachePut cap rel v (.content st data)
            pure data : TreeM Bytes) u := by
      intro u hu htu
      refine (ask_yields _).andThen later_rely hu ?_ (fun e w _ _ _ data he => by cases he)
      intro data w hdata hw huw
      have hin : w.HeldIn t.now w.now fun p => p.readFile rel = .ok data :=
        ⟨w.now, Nat.le_trans htu.now huw.now, Nat.le_refl _, hdata data rfl⟩
      refine (ask_yields _).andThen later_rely hw ?_ (fun e x _ _ _ data he => by cases he)
      intro st x hst' hx hwx
      have hin' : x.HeldIn t.now x.now fun p => p.stat rel = .ok st :=
        ⟨x.now, Nat.le_trans htu.now (Nat.le_trans huw.now hwx.now), Nat.le_refl _, hst' st rfl⟩
      have hput : ∀ y, x.Later y →
          ∃ j ≤ y.now, (y.history j).version = v ∧ y.HeldSince rel j (.content st data) := by
        intro y hxy
        have hty := later_rely.trans htu (later_rely.trans huw (later_rely.trans hwx hxy))
        have hwy := later_rely.trans hwx hxy
        refine ⟨t.now, hty.now, ?_, hin'.later (Nat.le_refl _) hxy hxy.now, hin.later (Nat.le_refl _) hwy hwy.now⟩
        rw [hty.past t.now (Nat.le_refl _), hv]
      refine (cachePut_yields hput).andThen later_rely hx ?_ (fun e y he => by cases he)
      rintro _ y - - hxy data' he
      cases he
      have hwy := later_rely.trans hwx hxy
      exact ⟨rel, rfl, (hin.wider hst.now).later (Nat.le_refl _) hwy hwy.now⟩
    refine (cacheGet_yields rel v).andThen later_rely ht ?_ (fun e u ⟨_, he, _⟩ => by cases he)
    rintro found u ⟨found', hfound', hstamp⟩ hu htu
    cases hfound'
    match found with
    | some (.content st data) =>
      intro data' he
      cases he
      exact ⟨rel, rfl, (held_of_version hu htu hv (hstamp _ rfl)).2.wider hst.now⟩
    | some (.stat st) => exact hmiss hu htu
    | none => exact hmiss hu htu

/-- An invalidation only drops entries. -/
theorem drop_yields {f : List (VfsPath × VersionedEntry) → List (VfsPath × VersionedEntry)}
    (hf : ∀ entries, ∀ x ∈ f entries, x ∈ entries) :
    Yields Shared.Inv Shared.Later (fun _ _ => True)
      (Prog.act fun s => ((), { s with cache := f s.cache }) : TreeM Unit) s := by
  apply Yields.act
  intro t _ ht
  obtain ⟨hI, hR⟩ := ht.recache fun x hx => .inl (hf t.cache x hx)
  exact ⟨hI, hR, trivial⟩

theorem mem_invalidate {paths : List VfsPath} {entries : List (VfsPath × VersionedEntry)}
    {x : VfsPath × VersionedEntry} (hx : x ∈ VfsCache.invalidate paths entries) : x ∈ entries := by
  induction paths generalizing entries with
  | nil => exact hx
  | cons path paths ih => exact (List.mem_filter.mp (ih hx)).1

/-! ## The cache is invisible -/

/-- A successful answer, against what was published from `first` to `last`. -/
def Seen (root : Bytes) (s : Shared) (first last : Nat) : Op → Except VfsError Result → Prop
  | .stat path, .ok (.stat st) =>
    ∃ rel, relativePath (trimRoot root) path = some rel ∧ s.HeldIn first last fun p => p.stat rel = .ok st
  | .read path, .ok (.data data) =>
    ∃ rel, relativePath (trimRoot root) path = some rel ∧ s.HeldIn first last fun p => p.readFile rel = .ok data
  | _, _ => True

theorem Seen.later {op : Op} {r : Except VfsError Result} (h : Seen root s first last op r) (hlast : last ≤ s.now)
    (hst : s.Later t) {last' : Nat} (hle : last ≤ last') : Seen root t first last' op r := by
  match op, r, h with
  | .stat _, .ok (.stat _), ⟨rel, hrel, hheld⟩ => exact ⟨rel, hrel, hheld.later hlast hst hle⟩
  | .read _, .ok (.data _), ⟨rel, hrel, hheld⟩ => exact ⟨rel, hrel, hheld.later hlast hst hle⟩
  | .stat _, .error _, _ => exact trivial
  | .stat _, .ok (.data _), _ => exact trivial
  | .stat _, .ok .done, _ => exact trivial
  | .read _, .error _, _ => exact trivial
  | .read _, .ok (.stat _), _ => exact trivial
  | .read _, .ok .done, _ => exact trivial
  | .invalidate _, _, _ => exact trivial
  | .invalidateAll, _, _ => exact trivial

theorem call_yields (op : Op) (hs : s.Inv) :
    Yields Shared.Inv Shared.Later (fun res t => Seen root t s.now t.now op res) (call cap root op) s := by
  cases op with
  | stat path =>
    refine (stat_yields path hs).andThen later_rely hs ?_ (fun _ _ _ _ _ => trivial)
    exact fun st t hst _ _ => hst st rfl
  | read path =>
    refine (read_yields path hs).andThen later_rely hs ?_ (fun _ _ _ _ _ => trivial)
    exact fun data t hdata _ _ => hdata data rfl
  | invalidate paths =>
    refine (drop_yields fun entries x hx => mem_invalidate hx).andThen later_rely hs ?_ (fun _ _ _ _ _ => trivial)
    exact fun _ _ _ _ _ => trivial
  | invalidateAll =>
    refine (drop_yields (f := fun _ => []) fun entries x hx => by cases hx).andThen later_rely hs ?_
      (fun _ _ _ _ _ => trivial)
    exact fun _ _ _ _ _ => trivial

theorem timed_yields (op : Op) (hs : s.Inv) :
    Yields Shared.Inv Shared.Later
      (fun res t => ∀ v, res = .ok v → v.2.2 ≤ t.now ∧ Seen root t v.1 v.2.2 op v.2.1) (timed cap root op) s := by
  have hfirst : Yields Shared.Inv Shared.Later (fun res t => res = .ok t.now)
      (Prog.look (·.now) : TreeM Nat) s := Yields.look later_rely fun _ _ _ => rfl
  refine hfirst.andThen later_rely hs ?_ (fun e t he => by cases he)
  intro first t hfirst ht _
  cases hfirst
  refine (Yields.attempt (Q := fun res u => ∃ r, res = .ok r ∧ Seen root u t.now u.now op r)
    ((call_yields op ht).mono fun r u hr => ⟨r, rfl, hr⟩)).andThen later_rely ht ?_ (fun e u ⟨_, he, _⟩ => by cases he)
  rintro r u ⟨r', hr', hseen⟩ hu htu
  cases hr'
  have hlast : Yields Shared.Inv Shared.Later (fun res w => res = .ok w.now)
      (Prog.look (·.now) : TreeM Nat) u := Yields.look later_rely fun _ _ _ => rfl
  refine hlast.andThen later_rely hu ?_ (fun e w he => by cases he)
  intro last w hlast _ huw v hv
  cases hlast
  cases hv
  exact ⟨Nat.le_refl _, hseen.later (Nat.le_refl _) huw huw.now⟩

/-- Whatever the interleaving, a successful `stat` or `read` returns what the provider held at an instant of
the call. -/
theorem calls_see_provider {first : ContentProvider} {p : Pool Shared VfsError Op (Nat × Except VfsError Result × Nat)}
    (hreach : Reach (timed cap root) Elsewhere (start first) p) :
    (∀ path a st b, (Op.stat path, .ok (a, .ok (.stat st), b)) ∈ p.answers →
      ∃ rel i, relativePath (trimRoot root) path = some rel ∧ a ≤ i ∧ i ≤ b ∧
        (p.shared.history i).stat rel = .ok st) ∧
    ∀ path a data b, (Op.read path, .ok (a, .ok (.data data), b)) ∈ p.answers →
      ∃ rel i, relativePath (trimRoot root) path = some rel ∧ a ≤ i ∧ i ≤ b ∧
        (p.shared.history i).readFile rel = .ok data := by
  have hstart : (start first).Inv := by
    refine ⟨fun i j hij hj => ?_, fun x hx => by cases hx⟩
    have hzero : j ≤ 0 := hj
    omega
  obtain ⟨-, -, hans⟩ := hreach.answered
    (Q := fun op res t => ∀ v, res = .ok v → v.2.2 ≤ t.now ∧ Seen root t v.1 v.2.2 op v.2.1) hstart later_rely
    (fun op res _ _ hQ _ hst _ v hv => by
      obtain ⟨hle, hseen⟩ := hQ v hv
      exact ⟨Nat.le_trans hle hst.now, hseen.later hle hst (Nat.le_refl _)⟩)
    (fun hs he => he.later hs) (fun op _ hs => timed_yields op hs)
  constructor
  · intro path a st b hmem
    obtain ⟨-, rel, hrel, i, hai, hib, hi⟩ := hans _ hmem _ rfl
    exact ⟨rel, i, hrel, hai, hib, hi⟩
  · intro path a data b hmem
    obtain ⟨-, rel, hrel, i, hai, hib, hi⟩ := hans _ hmem _ rfl
    exact ⟨rel, i, hrel, hai, hib, hi⟩

namespace Demo

/-- A workspace that is one empty directory. -/
def empty : ContentProvider where
  readFile p := .error (.isDirectory p.display)
  readRange p _ _ := .error (.isDirectory p.display)
  stat p := if p = .root then .ok (.directory 0) else .error (.notFound p.display)
  readDir _ := .ok []
  pathExists p := .ok (p = .root)
  readLink p := .error (.invalidInput p.display)
  version := 1

/-- The root is looked at twice: the second time it is in the cache. -/
def twice : Pool Shared VfsError Op (Nat × Except VfsError Result × Nat) :=
  let once := (timed 8 [47, 119, 47] (.stat [47, 119])).run (start empty)
  let again := (timed 8 [47, 119, 47] (.stat [47, 119])).run once.2
  ⟨again.2, fun _ => none, [(.stat [47, 119], once.1), (.stat [47, 119], again.1)]⟩

theorem twice_reach : Reach (timed 8 [47, 119, 47]) Elsewhere (start empty) twice :=
  (Reach.init.alone 0 (Op.stat [47, 119]) rfl).alone 0 (Op.stat [47, 119]) rfl

end Demo

theorem calls_see_provider_twice :
    ∃ rel i, relativePath (trimRoot [47, 119, 47]) [47, 119] = some rel ∧ 0 ≤ i ∧ i ≤ 0 ∧
      (Demo.twice.shared.history i).stat rel = .ok (.directory 0) :=
  (calls_see_provider Demo.twice_reach).1 [47, 119] 0 (.directory 0) 0 (List.mem_cons_of_mem _ List.mem_cons_self)

end KinVfs.FileTree
