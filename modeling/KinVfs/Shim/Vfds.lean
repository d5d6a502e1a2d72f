import Mathlib.Data.List.Nodup
import Mathlib.Data.List.Perm.Subperm
import KinVfs.Shim.FdTable

/-!
# Virtual descriptor numbers (`crates/kin-vfs-shim/src/fd_table.rs`)

`FdTable` with its numbers as `i32`s, so that a duplicate may go to any of them, and with the lock marks. The
handles and their use are in `FdTable`, which counts with natural numbers; here is which number is given out.

* `computeVfdBase`: where the numbers start, from the limit of the kernel's own ones. The cast to `i32` and the
  room for the numbers themselves decide for which limits it is above all of those (`aboveKernel_iff`).
* `Vfds.nextVfd`: the scan for a free number. It tries every number of the window once, so it finds one when
  fewer are open than the window has (`vfds_sound`).
* `Renders`: the numbers of an `FdTable` are these (`Reached.insertNew_cases`).
-/

namespace KinVfs

/-! ## `i32` -/

def maxI32 : Int := 2 ^ 31 - 1

/-- The `i32` with the low 32 bits of a number. -/
def wrapI32 (n : Int) : Int := (n + 2 ^ 31) % 2 ^ 32 - 2 ^ 31

/-- `i32::saturating_add`. -/
def saturatingAddI32 (a b : Int) : Int := max (-(2 ^ 31)) (min (a + b) maxI32)

theorem wrapI32_eq {n : Int} (hlo : -(2 ^ 31) ≤ n) (hhi : n ≤ maxI32) : wrapI32 n = n := by
  unfold wrapI32
  unfold maxI32 at hhi
  omega

/-! ## The base -/

/-- `RLIM_INFINITY`. -/
def rlimInfinity : Nat := 2 ^ 64 - 1

/-- The base for the soft limit that `getrlimit` gave, `none` when it failed. -/
def computeVfdBase : Option Nat → Int
  | some rlimCur =>
    if rlimCur ≠ rlimInfinity then max (saturatingAddI32 (wrapI32 rlimCur) 1000) 10000 else 100000
  | none => 100000

/-- The base is above every number that the kernel gives out under the limit, and the window above it has
`i32`s only. -/
structure AboveKernel (limit : Nat) (base : Int) : Prop where
  above : ∀ fd : Nat, fd < limit → fd < 2 ^ 31 → (fd : Int) < base
  room : base + maxVfds ≤ maxI32

/-- **When the base is above the kernel's descriptors**: the limit, the 1000 above it and the window fit in an `i32`. -/
theorem aboveKernel_iff (limit : Nat) (h : limit < 2 ^ 64) :
    AboveKernel limit (computeVfdBase (some limit)) ↔ limit + 1000 + 4096 ≤ 2 ^ 31 - 1 := by
  unfold computeVfdBase
  dsimp only
  by_cases hsmall : limit < 2 ^ 31
  · have hne : limit ≠ rlimInfinity := by
      unfold rlimInfinity
      omega
    have hwrap : wrapI32 limit = limit := wrapI32_eq (by omega) (by unfold maxI32; omega)
    rw [if_pos hne, hwrap]
    constructor
    · intro ha
      have hroom := ha.room
      simp only [saturatingAddI32, maxI32, maxVfds] at hroom
      omega
    · intro hle
      refine ⟨fun fd hfd _ => ?_, ?_⟩
      · simp only [saturatingAddI32, maxI32]
        omega
      · simp only [saturatingAddI32, maxI32, maxVfds]
        omega
  · -- The kernel gives out numbers up to the largest `i32`, and the base is one too.
    constructor
    · intro ha
      have htop := ha.above (2 ^ 31 - 1) (by omega) (by omega)
      split at htop
      · simp only [saturatingAddI32, maxI32] at htop
        omega
      · omega
    · intro hle
      omega

theorem aboveKernel_iff_default : AboveKernel 1024 (computeVfdBase (some 1024)) :=
  (aboveKernel_iff 1024 (by omega)).mpr (by omega)

/-- The largest limit that Linux lets a process have leaves no room above it, and without a limit the numbers
start at 100000. -/
theorem largestLimit_not_above :
    ¬ AboveKernel 2147483584 (computeVfdBase (some 2147483584)) ∧
      ¬ AboveKernel (2 ^ 64 - 1) (computeVfdBase (some (2 ^ 64 - 1))) := by
  constructor
  · intro ha
    exact absurd ha.room (by decide)
  · intro ha
    exact absurd (ha.above 100000 (by omega) (by omega)) (by decide)

/-! ## The table -/

/-- The open virtual descriptors, the number to try next, and the descriptors with a lock mark. -/
structure Vfds where
  base : Int
  map : Std.ExtTreeMap Int VirtualFileHandle
  nextFd : Int
  flocked : Std.ExtTreeSet Int

namespace Vfds

def new (base : Int) : Vfds := ⟨base, ∅, base, ∅⟩

/-- The number to try after `fd`. -/
def following (t : Vfds) (fd : Int) : Int :=
  let next := wrapI32 (fd + 1)
  if next < t.base ∨ wrapI32 (t.base + maxVfds) ≤ next then t.base else next

/-- The loop of `next_vfd`. -/
def scanVfd : Nat → Vfds → Option Int × Vfds
  | 0, t => (none, t)
  | fuel + 1, t =>
    let fd := t.nextFd
    let t := { t with nextFd := t.following fd }
    if fd ∈ t.map then scanVfd fuel t else (some fd, t)

def nextVfd (t : Vfds) : Option Int × Vfds :=
  if maxVfds ≤ t.map.size then (none, t) else scanVfd maxVfds t

def insertNew (t : Vfds) (handle : VirtualFileHandle) : Option Int × Vfds :=
  match t.nextVfd with
  | (none, t) => (none, t)
  | (some fd, t) => (some fd, { t with map := t.map.insert fd handle })

def allocate (t : Vfds) (path : List UInt8) (size : Nat) (content : Option (List UInt8)) : Option Int × Vfds :=
  t.insertNew (.file path size content)

def allocateDir (t : Vfds) (path : List UInt8) (entries : List DirEntryRaw) : Option Int × Vfds :=
  t.insertNew (.directory path entries)

def close (t : Vfds) (fd : Int) : Option VirtualFileHandle × Vfds :=
  (t.map[fd]?, { t with flocked := t.flocked.erase fd, map := t.map.erase fd })

/-- The duplicate has the mark of its source. -/
def duplicate (t : Vfds) (fd : Int) : Option Int × Vfds :=
  match t.map[fd]? with
  | none => (none, t)
  | some handle =>
    match t.insertNew handle with
    | (none, t) => (none, t)
    | (some newFd, t) =>
      (some newFd, if fd ∈ t.flocked then { t with flocked := t.flocked.insert newFd } else t)

def duplicateInto (t : Vfds) (srcFd dstFd : Int) : Option Int × Vfds :=
  match t.map[srcFd]? with
  | none => (none, t)
  | some handle =>
    let t := if dstFd ∈ t.map then (t.close dstFd).2 else t
    let t := { t with map := t.map.insert dstFd handle }
    (some dstFd,
      if srcFd ∈ t.flocked then { t with flocked := t.flocked.insert dstFd }
      else { t with flocked := t.flocked.erase dstFd })

def setFlock (t : Vfds) (fd : Int) (locked : Bool) : Vfds :=
  { t with flocked := if locked then t.flocked.insert fd else t.flocked.erase fd }

/-- The `flock` hook marks open virtual descriptors only; every operation but `LOCK_UN` is a lock. -/
def flock (t : Vfds) (fd : Int) (unlock : Bool) : Vfds :=
  if fd < t.base ∨ fd ∉ t.map then t else t.setFlock fd (!unlock)

/-- The calls that change the table. -/
inductive Call where
  | allocate (path : List UInt8) (size : Nat) (content : Option (List UInt8))
  | allocateDir (path : List UInt8) (entries : List DirEntryRaw)
  | duplicate (fd : Int)
  | duplicateInto (srcFd dstFd : Int)
  | close (fd : Int)
  | flock (fd : Int) (unlock : Bool)

/-- The number that is returned, and the table after the call. -/
def apply (t : Vfds) : Call → Option Int × Vfds
  | .allocate path size content => t.allocate path size content
  | .allocateDir path entries => t.allocateDir path entries
  | .duplicate fd => t.duplicate fd
  | .duplicateInto srcFd dstFd => t.duplicateInto srcFd dstFd
  | .close fd => (none, (t.close fd).2)
  | .flock fd unlock => (none, t.flock fd unlock)

/-- The table after a sequence of calls. -/
def after (t : Vfds) (calls : List Call) : Vfds := calls.foldl (fun t call => (t.apply call).2) t

/-- The descriptors that the call names. -/
def Call.names : Call → List Int
  | allocate .. | allocateDir .. => []
  | duplicate fd | close fd | flock fd _ => [fd]
  | duplicateInto srcFd dstFd => [srcFd, dstFd]

/-- A call that needs a number: an allocation, or a duplicate of an open descriptor. -/
def Call.needsNumber (t : Vfds) : Call → Prop
  | allocate .. | allocateDir .. => True
  | duplicate fd => fd ∈ t.map
  | duplicateInto .. | close _ | flock .. => False

/-- The handle that a call leaves at the number it returns. -/
def Call.stores (t : Vfds) : Call → Option VirtualFileHandle
  | allocate path size content => some (.file path size content)
  | allocateDir path entries => some (.directory path entries)
  | duplicate fd | duplicateInto fd _ => t.map[fd]?
  | close _ | flock .. => none

/-- The counter is in the window, and only open descriptors have a mark. -/
structure Sound (base : Int) (t : Vfds) : Prop where
  based : t.base = base
  counter : base ≤ t.nextFd ∧ t.nextFd < base + maxVfds
  marks : ∀ fd ∈ t.flocked, fd ∈ t.map

/-- What a call does to a table. -/
structure Fresh (base : Int) (t : Vfds) (call : Call) : Prop where
  /-- It succeeds exactly when a number is left. -/
  complete : call.needsNumber t → ((t.apply call).1 ≠ none ↔ t.map.size < maxVfds)
  /-- The number is one of the window that was not open. -/
  fresh : call.needsNumber t → ∀ fd ∈ (t.apply call).1, base ≤ fd ∧ fd < base + maxVfds ∧ fd ∉ t.map
  /-- The other descriptors stay. -/
  others : ∀ fd, fd ∉ call.names → (t.apply call).1 ≠ some fd → (t.apply call).2.map[fd]? = t.map[fd]?
  /-- The number that is returned is open with its handle. -/
  opened : ∀ fd ∈ (t.apply call).1, (t.apply call).2.map[fd]? = call.stores t
  /-- A number that is closed is free. -/
  closed : ∀ fd, call = .close fd → fd ∉ (t.apply call).2.map

/-! ## The scan -/

section Scan

variable {base : Int} {t t' : Vfds} {fd : Int} {handle : VirtualFileHandle}

/-- The counter stands in the window. -/
def Stands (base : Int) (t : Vfds) : Prop :=
  t.base = base ∧ base ≤ t.nextFd ∧ t.nextFd < base + maxVfds

/-- The number that is tried after `i` others. -/
def slot (t : Vfds) (i : Nat) : Int := t.base + (t.nextFd - t.base + i) % maxVfds

theorem following_eq (hlo : -(2 ^ 31) ≤ base) (hhi : base + maxVfds ≤ maxI32) (ht : t.Stands base) :
    t.following t.nextFd = t.slot 1 := by
  obtain ⟨rfl, hge, hlt⟩ := ht
  have hend : wrapI32 (t.base + maxVfds) = t.base + maxVfds := by
    apply wrapI32_eq _ hhi
    simp only [maxVfds]
    omega
  have hnext : wrapI32 (t.nextFd + 1) = t.nextFd + 1 := by
    apply wrapI32_eq
    · omega
    · simp only [maxVfds, maxI32] at hlt hhi ⊢
      omega
  have hlast : (maxVfds : Int) = 4096 := rfl
  unfold following slot
  dsimp only
  rw [hend, hnext, hlast]
  rw [hlast] at hlt
  by_cases hwrap : t.nextFd + 1 < t.base ∨ t.base + 4096 ≤ t.nextFd + 1
  · rw [if_pos hwrap]
    omega
  · rw [if_neg hwrap]
    omega

/-- One turn of the scan moves on in the window. -/
theorem stands_following (hlo : -(2 ^ 31) ≤ base) (hhi : base + maxVfds ≤ maxI32) (ht : t.Stands base) :
    Stands base { t with nextFd := t.following t.nextFd } ∧
      ∀ i, slot { t with nextFd := t.following t.nextFd } i = t.slot (i + 1) := by
  have hnext := following_eq hlo hhi ht
  obtain ⟨rfl, hge, hlt⟩ := ht
  rw [hnext]
  refine ⟨⟨rfl, ?_, ?_⟩, fun i => ?_⟩
  · simp only [slot, maxVfds]
    omega
  · simp only [slot, maxVfds]
    omega
  · simp only [slot, maxVfds]
    omega

/-- What the scan finds: the first number that is not open. -/
theorem scanVfd_cases (hlo : -(2 ^ 31) ≤ base) (hhi : base + maxVfds ≤ maxI32) (fuel : Nat)
    (ht : t.Stands base) :
    (scanVfd fuel t).2.Stands base ∧ (scanVfd fuel t).2.map = t.map ∧
      (scanVfd fuel t).2.flocked = t.flocked ∧
      ((scanVfd fuel t).1 = none ∧ (∀ i < fuel, t.slot i ∈ t.map) ∨
        ∃ fd, (scanVfd fuel t).1 = some fd ∧ base ≤ fd ∧ fd < base + maxVfds ∧ fd ∉ t.map) := by
  induction fuel generalizing t with
  | zero => exact ⟨ht, rfl, rfl, .inl ⟨rfl, fun i hi => absurd hi (by omega)⟩⟩
  | succ fuel ih =>
    have hfirst : t.slot 0 = t.nextFd := by
      obtain ⟨rfl, hge, hlt⟩ := ht
      simp only [slot, maxVfds] at hlt ⊢
      omega
    obtain ⟨ht', hslot⟩ := stands_following hlo hhi ht
    rw [scanVfd]
    dsimp only
    split
    · rename_i hopen
      obtain ⟨hstands, hmap, hmarks, hor⟩ := ih ht'
      refine ⟨hstands, hmap, hmarks, hor.imp (fun ⟨hnone, hall⟩ => ⟨hnone, fun i hi => ?_⟩) id⟩
      cases i with
      | zero =>
        rw [hfirst]
        exact hopen
      | succ i =>
        rw [← hslot i]
        exact hall i (by omega)
    · rename_i hfree
      exact ⟨ht', rfl, rfl, .inr ⟨t.nextFd, rfl, ht.2.1, ht.2.2, hfree⟩⟩

/-- The window has as many numbers as may be open. -/
theorem maxVfds_le_size (ht : t.Stands base) (h : ∀ i < maxVfds, t.slot i ∈ t.map) :
    maxVfds ≤ t.map.size := by
  have hwindow : ∀ fd, base ≤ fd → fd < base + maxVfds → fd ∈ t.map := by
    intro fd hge hlt
    obtain ⟨rfl, hn, hn'⟩ := ht
    have hfd : t.slot ((fd - t.nextFd) % maxVfds).toNat = fd := by
      simp only [slot, maxVfds] at hlt hn' ⊢
      omega
    rw [← hfd]
    apply h
    simp only [maxVfds]
    omega
  have hnodup : ((List.range maxVfds).map fun i : Nat => base + i).Nodup := by
    refine List.Nodup.map ?_ List.nodup_range
    intro i j hij
    dsimp only at hij
    omega
  have hsub : ((List.range maxVfds).map fun i : Nat => base + i) ⊆ t.map.keys := by
    intro fd hfd
    obtain ⟨i, hi, rfl⟩ := List.mem_map.mp hfd
    have hi' := List.mem_range.mp hi
    rw [Std.ExtTreeMap.mem_keys]
    exact hwindow _ (by omega) (by omega)
  have hle := (List.subperm_of_subset hnodup hsub).length_le
  rw [List.length_map, List.length_range, Std.ExtTreeMap.length_keys] at hle
  exact hle

/-- **A new number**: there is one exactly when fewer are open than the window has. -/
theorem nextVfd_cases (hlo : -(2 ^ 31) ≤ base) (hhi : base + maxVfds ≤ maxI32) (ht : t.Stands base) :
    t.nextVfd.2.Stands base ∧ t.nextVfd.2.map = t.map ∧ t.nextVfd.2.flocked = t.flocked ∧
      (t.nextVfd.1 = none ∧ maxVfds ≤ t.map.size ∨
        ∃ fd, t.nextVfd.1 = some fd ∧ base ≤ fd ∧ fd < base + maxVfds ∧ fd ∉ t.map ∧
          t.map.size < maxVfds) := by
  unfold nextVfd
  split
  · rename_i hfull
    exact ⟨ht, rfl, rfl, .inl ⟨rfl, hfull⟩⟩
  · rename_i hroom
    obtain ⟨hstands, hmap, hmarks, hor⟩ := scanVfd_cases hlo hhi maxVfds ht
    refine ⟨hstands, hmap, hmarks, ?_⟩
    rcases hor with ⟨-, hall⟩ | ⟨fd, hfd, hge, hlt, hfree⟩
    · exact absurd (maxVfds_le_size ht hall) hroom
    · exact .inr ⟨fd, hfd, hge, hlt, hfree, by omega⟩

/-- **A new descriptor**: the handle is at a number that was free, and the others keep theirs. -/
theorem insertNew_cases (hlo : -(2 ^ 31) ≤ base) (hhi : base + maxVfds ≤ maxI32) (ht : t.Stands base)
    (handle : VirtualFileHandle) :
    (t.insertNew handle).2.Stands base ∧ (t.insertNew handle).2.flocked = t.flocked ∧
      ((t.insertNew handle).1 = none ∧ maxVfds ≤ t.map.size ∧ (t.insertNew handle).2.map = t.map ∨
        ∃ fd, (t.insertNew handle).1 = some fd ∧ base ≤ fd ∧ fd < base + maxVfds ∧ fd ∉ t.map ∧
          t.map.size < maxVfds ∧ (t.insertNew handle).2.map = t.map.insert fd handle) := by
  obtain ⟨hstands, hmap, hmarks, hor⟩ := nextVfd_cases hlo hhi ht
  rcases hnext : t.nextVfd with ⟨got, t'⟩
  rw [hnext] at hstands hmap hmarks hor
  dsimp only at hstands hmap hmarks hor
  unfold insertNew
  rw [hnext]
  rcases hor with ⟨rfl, hfull⟩ | ⟨fd, rfl, hge, hlt, hfree, hroom⟩
  · exact ⟨hstands, hmarks, .inl ⟨rfl, hfull, hmap⟩⟩
  · refine ⟨hstands, hmarks, .inr ⟨fd, rfl, hge, hlt, hfree, hroom, ?_⟩⟩
    rw [← hmap]

end Scan

/-! ## What a call does -/

section Calls

variable {base : Int} {t : Vfds}

theorem Sound.stands (hs : t.Sound base) : t.Stands base := ⟨hs.based, hs.counter⟩

theorem sound_of_stands (ht : t.Stands base) (hmarks : ∀ fd ∈ t.flocked, fd ∈ t.map) : t.Sound base :=
  ⟨ht.1, ht.2, hmarks⟩

/-- A call that does not take a number is `Fresh` if the other descriptors stay. -/
theorem fresh_of_others {call : Call} (hneeds : ¬ call.needsNumber t)
    (h : ∀ fd, fd ∉ call.names → (t.apply call).1 ≠ some fd → (t.apply call).2.map[fd]? = t.map[fd]?)
    (hopened : ∀ fd ∈ (t.apply call).1, (t.apply call).2.map[fd]? = call.stores t)
    (hclosed : ∀ fd, call = .close fd → fd ∉ (t.apply call).2.map) : t.Fresh base call :=
  ⟨fun hn => absurd hn hneeds, fun hn => absurd hn hneeds, h, hopened, hclosed⟩

/-- A call that inserts a handle: `apply` is `insertNew` up to the marks, and these are on open descriptors. -/
theorem sound_fresh_of_insertNew (hlo : -(2 ^ 31) ≤ base) (hhi : base + maxVfds ≤ maxI32) (hs : t.Sound base)
    (call : Call) (handle : VirtualFileHandle) (hstores : call.stores t = some handle)
    (hgot : (t.apply call).1 = (t.insertNew handle).1)
    (hmap : (t.apply call).2.map = (t.insertNew handle).2.map)
    (hstands : (t.insertNew handle).2.Stands base → (t.apply call).2.Stands base)
    (hmarks : (t.insertNew handle).2.flocked = t.flocked → ∀ fd ∈ (t.apply call).2.flocked,
      fd ∈ t.flocked ∨ (t.apply call).1 = some fd) :
    (t.apply call).2.Sound base ∧ t.Fresh base call := by
  obtain ⟨hst, hfl, hor⟩ := insertNew_cases hlo hhi hs.stands handle
  rw [← hgot, ← hmap] at hor
  have hmarks := hmarks hfl
  have hclosed : ∀ fd, call = .close fd → fd ∉ (t.apply call).2.map := by
    rintro fd rfl
    cases hstores
  rcases hor with ⟨hnone, hfull, hsame⟩ | ⟨fd, hfd, hge, hlt, hfree, hroom, hinsert⟩
  · refine ⟨sound_of_stands (hstands hst) fun m hm => ?_, fun _ => ?_, fun _ m hm => ?_, fun m _ _ => ?_,
      fun m hm => ?_, hclosed⟩
    · rcases hmarks m hm with hold | hnew
      · rw [hsame]
        exact hs.marks m hold
      · rw [hnone] at hnew
        cases hnew
    · rw [hnone]
      exact ⟨fun hne => absurd rfl hne, fun hlt => absurd hlt (by omega)⟩
    · rw [hnone] at hm
      cases hm
    · rw [hsame]
    · rw [hnone] at hm
      cases hm
  · refine ⟨sound_of_stands (hstands hst) fun m hm => ?_, fun _ => ?_, fun _ m hm => ?_, fun m _ hm => ?_,
      fun m hm => ?_, hclosed⟩
    · rw [hinsert, Std.ExtTreeMap.mem_insert]
      rcases hmarks m hm with hold | hnew
      · exact .inr (hs.marks m hold)
      · rw [hfd] at hnew
        obtain rfl := Option.some.inj hnew
        exact .inl Std.ReflCmp.compare_self
    · rw [hfd]
      exact ⟨fun _ => hroom, fun _ hne => by cases hne⟩
    · rw [hfd] at hm
      obtain rfl := Option.some.inj hm
      exact ⟨hge, hlt, hfree⟩
    · rw [hinsert, Std.ExtTreeMap.getElem?_insert, if_neg]
      intro heq
      rw [hfd, Std.LawfulEqCmp.eq_of_compare heq] at hm
      exact hm rfl
    · rw [hfd] at hm
      obtain rfl := Option.some.inj hm
      rw [hinsert, Std.ExtTreeMap.getElem?_insert_self, hstores]

theorem duplicate_sound (hlo : -(2 ^ 31) ≤ base) (hhi : base + maxVfds ≤ maxI32) (hs : t.Sound base) (fd : Int) :
    (t.duplicate fd).2.Sound base ∧ t.Fresh base (.duplicate fd) := by
  rcases hget : t.map[fd]? with _ | handle
  · have hdup : t.duplicate fd = (none, t) := by
      unfold duplicate
      rw [hget]
    have hclosed : fd ∉ t.map := by rw [Std.ExtTreeMap.mem_iff_isSome_getElem?, hget]; simp
    refine ⟨by rw [hdup]; exact hs,
      fresh_of_others hclosed (fun m _ _ => ?_) (fun m hm => ?_) fun m hm => by cases hm⟩
    · rw [apply, hdup]
    · rw [apply, hdup] at hm
      cases hm
  · rcases hins : t.insertNew handle with ⟨_ | newFd, t'⟩
    · have hdup : t.duplicate fd = (none, t') := by
        unfold duplicate
        rw [hget]
        dsimp only
        rw [hins]
      refine sound_fresh_of_insertNew hlo hhi hs (.duplicate fd) handle hget ?_ ?_ ?_ ?_
      all_goals rw [apply, hdup, hins]
      · exact id
      · intro hfl m hm
        exact .inl (hfl ▸ hm)
    · -- The mark of the source is the one mark that is added, and it goes to the new descriptor.
      have hdup : t.duplicate fd = (some newFd,
          if fd ∈ t'.flocked then { t' with flocked := t'.flocked.insert newFd } else t') := by
        unfold duplicate
        rw [hget]
        dsimp only
        rw [hins]
      refine sound_fresh_of_insertNew hlo hhi hs (.duplicate fd) handle hget ?_ ?_ ?_ ?_
      all_goals rw [apply, hdup, hins]
      · split <;> rfl
      · intro hst
        split <;> exact hst
      · intro hfl m hm
        dsimp only at hfl hm
        split at hm
        · rw [Std.ExtTreeSet.mem_insert] at hm
          rcases hm with heq | hold
          · exact .inr (congrArg some (Std.LawfulEqCmp.eq_of_compare heq))
          · exact .inl (hfl ▸ hold)
        · exact .inl (hfl ▸ hm)

/-- Closing a descriptor takes its mark with it. -/
theorem close_sound (hs : t.Sound base) (fd : Int) :
    (t.close fd).2.Sound base ∧ t.Fresh base (.close fd) := by
  constructor
  · refine sound_of_stands ⟨hs.based, hs.counter⟩ fun m hm => ?_
    obtain ⟨hne, hold⟩ := Std.ExtTreeSet.mem_erase.mp hm
    exact Std.ExtTreeMap.mem_erase.mpr ⟨hne, hs.marks m hold⟩
  · refine fresh_of_others id (fun m hm _ => ?_) (fun m hm => by cases hm) fun m hm => ?_
    · show (t.map.erase fd)[m]? = t.map[m]?
      rw [Std.ExtTreeMap.getElem?_erase, if_neg]
      intro heq
      rw [Std.LawfulEqCmp.eq_of_compare heq] at hm
      exact hm (by simp [Call.names])
    · cases hm
      show fd ∉ t.map.erase fd
      simp

/-- The table at which `duplicateInto` puts the handle: the target is closed first. -/
theorem duplicateInto_sound (hs : t.Sound base) (srcFd dstFd : Int) :
    (t.duplicateInto srcFd dstFd).2.Sound base ∧ t.Fresh base (.duplicateInto srcFd dstFd) := by
  rcases hget : t.map[srcFd]? with _ | handle
  · have hdup : t.duplicateInto srcFd dstFd = (none, t) := by
      unfold duplicateInto
      rw [hget]
    refine ⟨by rw [hdup]; exact hs, fresh_of_others id (fun m _ _ => ?_) (fun m hm => ?_) fun m hm => by cases hm⟩
    · rw [apply, hdup]
    · rw [apply, hdup] at hm
      cases hm
  · -- Whether the target was open or not, what is left is sound and has the other descriptors.
    have hcleared : ∃ c : Vfds, (if dstFd ∈ t.map then (t.close dstFd).2 else t) = c ∧ c.Sound base ∧
        ∀ m, m ≠ dstFd → c.map[m]? = t.map[m]? := by
      by_cases hopen : dstFd ∈ t.map
      · rw [if_pos hopen]
        obtain ⟨hsound, hfresh⟩ := close_sound hs dstFd
        refine ⟨_, rfl, hsound, fun m hm => hfresh.others m ?_ (by simp [apply])⟩
        simpa [Call.names] using hm
      · rw [if_neg hopen]
        exact ⟨t, rfl, hs, fun _ _ => rfl⟩
    obtain ⟨c, hc, hcs, hcm⟩ := hcleared
    have hdup : t.duplicateInto srcFd dstFd = (some dstFd,
        if srcFd ∈ c.flocked then
          { c with map := c.map.insert dstFd handle, flocked := c.flocked.insert dstFd }
        else { c with map := c.map.insert dstFd handle, flocked := c.flocked.erase dstFd }) := by
      unfold duplicateInto
      rw [hget]
      dsimp only
      rw [hc]
    have hmem : ∀ m, m = dstFd ∨ m ∈ c.map → m ∈ c.map.insert dstFd handle := by
      rintro m (rfl | hm)
      · exact Std.ExtTreeMap.mem_insert_self
      · exact Std.ExtTreeMap.mem_insert.mpr (.inr hm)
    constructor
    · rw [hdup]
      split
      · refine sound_of_stands ⟨hcs.based, hcs.counter⟩ fun m hm => hmem m ?_
        rcases Std.ExtTreeSet.mem_insert.mp hm with heq | hold
        · exact .inl (Std.LawfulEqCmp.eq_of_compare heq).symm
        · exact .inr (hcs.marks m hold)
      · refine sound_of_stands ⟨hcs.based, hcs.counter⟩ fun m hm => hmem m (.inr ?_)
        exact hcs.marks m (Std.ExtTreeSet.mem_erase.mp hm).2
    · have hmap : (t.apply (.duplicateInto srcFd dstFd)).2.map = c.map.insert dstFd handle := by
        rw [apply, hdup]
        dsimp only
        split <;> rfl
      refine fresh_of_others id (fun m hm hne => ?_) (fun m hm => ?_) fun m hm => by cases hm
      · have hm' : m ≠ dstFd := by
          rintro rfl
          exact hm (by simp [Call.names])
        rw [hmap, ← hcm m hm', Std.ExtTreeMap.getElem?_insert, if_neg]
        intro heq
        exact hm' (Std.LawfulEqCmp.eq_of_compare heq).symm
      · rw [apply, hdup] at hm
        obtain rfl : dstFd = m := Option.some.inj hm
        rw [hmap, Std.ExtTreeMap.getElem?_insert_self]
        exact hget.symm

/-- The hook marks open descriptors only. -/
theorem flock_sound (hs : t.Sound base) (fd : Int) (unlock : Bool) :
    (t.flock fd unlock).Sound base ∧ t.Fresh base (.flock fd unlock) := by
  constructor
  · unfold flock
    split
    · exact hs
    · rename_i hopen
      refine sound_of_stands ⟨hs.based, hs.counter⟩ fun m hm => ?_
      cases unlock with
      | true => exact hs.marks m (Std.ExtTreeSet.mem_erase.mp hm).2
      | false =>
        rcases Std.ExtTreeSet.mem_insert.mp hm with heq | hold
        · rw [← Std.LawfulEqCmp.eq_of_compare heq]
          exact Decidable.not_not.mp (not_or.mp hopen).2
        · exact hs.marks m hold
  · refine fresh_of_others id (fun m _ _ => ?_) (fun m hm => by cases hm) fun m hm => by cases hm
    show (t.flock fd unlock).map[m]? = t.map[m]?
    unfold flock
    split <;> rfl

/-- **One call** keeps the table sound, and takes a free number if it takes one. -/
theorem apply_sound (hlo : -(2 ^ 31) ≤ base) (hhi : base + maxVfds ≤ maxI32) (hs : t.Sound base) (call : Call) :
    (t.apply call).2.Sound base ∧ t.Fresh base call := by
  cases call with
  | allocate path size content =>
    exact sound_fresh_of_insertNew hlo hhi hs _ _ rfl rfl rfl id fun hfl fd hfd => .inl (hfl ▸ hfd)
  | allocateDir path entries =>
    exact sound_fresh_of_insertNew hlo hhi hs _ _ rfl rfl rfl id fun hfl fd hfd => .inl (hfl ▸ hfd)
  | duplicate fd => exact duplicate_sound hlo hhi hs fd
  | duplicateInto srcFd dstFd => exact duplicateInto_sound hs srcFd dstFd
  | close fd => exact close_sound hs fd
  | flock fd unlock => exact flock_sound hs fd unlock

theorem after_sound (hlo : -(2 ^ 31) ≤ base) (hhi : base + maxVfds ≤ maxI32) (calls : List Call)
    (hs : t.Sound base) : (t.after calls).Sound base := by
  induction calls generalizing t with
  | nil => exact hs
  | cons call calls ih => exact ih (apply_sound hlo hhi hs call).1

end Calls

/-! ## The numbers of an `FdTable` -/

/-- An `FdTable`, which counts with natural numbers, and the table with the `i32`s for them. -/
structure Renders (t : FdTable) (v : Vfds) : Prop where
  based : v.base = t.base
  nextFd : v.nextFd = t.nextFd
  size : v.map.size = t.map.size
  handles : ∀ fd : Nat, v.map[(fd : Int)]? = t.map[fd]?

section Renders

variable {t : FdTable} {v : Vfds}

theorem renders_new (base : Nat) : Renders (.new base) (.new base) :=
  ⟨rfl, rfl, by simp [FdTable.new, Vfds.new], fun fd => by simp [FdTable.new, Vfds.new]⟩

theorem Renders.mem_iff (h : Renders t v) (fd : Nat) : (fd : Int) ∈ v.map ↔ fd ∈ t.map := by
  rw [Std.ExtTreeMap.mem_iff_isSome_getElem?, Std.ExtTreeMap.mem_iff_isSome_getElem?, h.handles]

theorem Renders.following (h : Renders t v) (hhi : (t.base : Int) + maxVfds ≤ maxI32)
    (hst : v.Stands t.base) : v.following v.nextFd = (t.following t.nextFd : Nat) := by
  rw [following_eq (by omega) hhi hst]
  obtain ⟨-, hge, hlt⟩ := hst
  have hlast : maxVfds = 4096 := rfl
  unfold slot FdTable.following
  rw [h.based, h.nextFd, hlast]
  rw [h.nextFd] at hge hlt
  rw [hlast] at hlt
  split <;> omega

/-- Both tables try the same numbers. -/
theorem Renders.scanVfd (hhi : (t.base : Int) + maxVfds ≤ maxI32) (fuel : Nat) (h : Renders t v)
    (hst : v.Stands t.base) :
    (scanVfd fuel v).1 = (FdTable.scanVfd fuel t).1.map (↑) ∧
      Renders (FdTable.scanVfd fuel t).2 (Vfds.scanVfd fuel v).2 := by
  induction fuel generalizing t v with
  | zero => exact ⟨rfl, h⟩
  | succ fuel ih =>
    have hnext := h.following hhi hst
    have hmoved : Renders { t with nextFd := t.following t.nextFd } { v with nextFd := v.following v.nextFd } :=
      ⟨h.based, hnext, h.size, h.handles⟩
    rw [Vfds.scanVfd, FdTable.scanVfd]
    dsimp only
    by_cases hopen : t.nextFd ∈ t.map
    · rw [if_pos hopen, if_pos (by rw [h.nextFd]; exact (h.mem_iff _).mpr hopen)]
      exact ih hhi hmoved (stands_following (by omega) hhi hst).1
    · rw [if_neg hopen, if_neg (by rw [h.nextFd]; exact mt (h.mem_iff _).mp hopen)]
      exact ⟨congrArg some h.nextFd, hmoved⟩

theorem Renders.contains_eq (h : Renders t v) (fd : Nat) : v.map.contains (fd : Int) = t.map.contains fd := by
  rw [Bool.eq_iff_iff, Std.ExtTreeMap.contains_iff_mem, Std.ExtTreeMap.contains_iff_mem, h.mem_iff]

theorem compare_cast_eq_iff {fd n : Nat} : compare (fd : Int) (n : Int) = .eq ↔ compare fd n = .eq := by
  rw [Std.LawfulEqCmp.compare_eq_iff_eq, Std.LawfulEqCmp.compare_eq_iff_eq, Int.natCast_inj]

theorem Renders.insert (h : Renders t v) (fd : Nat) (handle : VirtualFileHandle) :
    Renders (t.setHandle fd handle) { v with map := v.map.insert fd handle } where
  based := h.based
  nextFd := h.nextFd
  size := by
    rw [FdTable.setHandle, Std.ExtTreeMap.size_insert, Std.ExtTreeMap.size_insert, h.contains_eq, h.size]
  handles n := by
    rw [FdTable.setHandle, Std.ExtTreeMap.getElem?_insert, Std.ExtTreeMap.getElem?_insert, h.handles]
    simp only [compare_cast_eq_iff]

/-- **A new descriptor** has the same number in both. -/
theorem Renders.insertNew (h : Renders t v) (hhi : (t.base : Int) + maxVfds ≤ maxI32)
    (hst : v.Stands t.base) (handle : VirtualFileHandle) :
    (v.insertNew handle).1 = (t.insertNew handle).1.map (↑) ∧
      Renders (t.insertNew handle).2 (v.insertNew handle).2 := by
  have hnext : v.nextVfd.1 = t.nextVfd.1.map (↑) ∧ Renders t.nextVfd.2 v.nextVfd.2 := by
    unfold Vfds.nextVfd FdTable.nextVfd
    rw [h.size]
    split
    · exact ⟨rfl, h⟩
    · exact h.scanVfd hhi maxVfds hst
  unfold Vfds.insertNew FdTable.insertNew
  rcases hv : v.nextVfd with ⟨vfd, v'⟩
  rcases ht : t.nextVfd with ⟨tfd, t'⟩
  rw [hv, ht] at hnext
  obtain ⟨rfl, hr⟩ := hnext
  cases tfd with
  | none => exact ⟨rfl, hr⟩
  | some fd => exact ⟨rfl, hr.insert fd handle⟩

/-- **A closed descriptor** is closed in both. -/
theorem Renders.close (h : Renders t v) (fd : Nat) :
    ((v.close fd).1.isSome = (t.close fd).1) ∧ Renders (t.close fd).2 (v.close fd).2 := by
  refine ⟨?_, h.based, h.nextFd, ?_, fun n => ?_⟩
  · rw [Vfds.close, FdTable.close, Bool.eq_iff_iff, decide_eq_true_iff, ← h.mem_iff,
      Std.ExtTreeMap.mem_iff_isSome_getElem?]
  · rw [Vfds.close, FdTable.close]
    dsimp only
    rw [Std.ExtTreeMap.size_erase, Std.ExtTreeMap.size_erase, h.contains_eq, h.size]
  · rw [Vfds.close, FdTable.close]
    dsimp only
    rw [Std.ExtTreeMap.getElem?_erase, Std.ExtTreeMap.getElem?_erase, h.handles]
    simp only [compare_cast_eq_iff]

/-- The tables that a process gets to. The writes that are tracked take no number. -/
inductive Reached (base : Nat) : FdTable → Prop
  | new : Reached base (.new base)
  | insertNew {t : FdTable} (handle : VirtualFileHandle) : Reached base t → Reached base (t.insertNew handle).2
  | setHandle {t : FdTable} (fd : Nat) (handle : VirtualFileHandle) :
      Reached base t → Reached base (t.setHandle fd handle)
  | close {t : FdTable} (fd : Nat) : Reached base t → Reached base (t.close fd).2

theorem Reached.renders {base : Nat} (hhi : (base : Int) + maxVfds ≤ maxI32) (h : Reached base t) :
    t.base = base ∧ ∃ v : Vfds, Renders t v ∧ v.Stands base := by
  induction h with
  | new =>
    refine ⟨rfl, _, renders_new base, rfl, Int.le_refl _, ?_⟩
    simp only [Vfds.new, maxVfds]
    omega
  | insertNew handle _ ih =>
    obtain ⟨rfl, v, hr, hst⟩ := ih
    obtain ⟨hst', -, -⟩ := insertNew_cases (by omega) hhi hst handle
    have hnew := (hr.insertNew hhi hst handle).2
    have hbase : ((FdTable.insertNew _ handle).2.base : Int) = _ := hnew.based.symm.trans hst'.1
    exact ⟨by exact_mod_cast hbase, _, hnew, hst'⟩
  | setHandle fd handle _ ih =>
    obtain ⟨rfl, v, hr, hst⟩ := ih
    exact ⟨rfl, _, hr.insert fd handle, hst⟩
  | close fd _ ih =>
    obtain ⟨rfl, v, hr, hst⟩ := ih
    exact ⟨rfl, _, (hr.close fd).2, hst⟩

/-- **The table of a process** gives out the numbers that the `i32` table does: one of the window that is free, and
one as long as fewer are open than the window has. -/
theorem Reached.insertNew_cases {base : Nat} (hhi : (base : Int) + maxVfds ≤ maxI32) (h : Reached base t)
    (handle : VirtualFileHandle) :
    ((t.insertNew handle).1 ≠ none ↔ t.map.size < maxVfds) ∧
      ∀ fd ∈ (t.insertNew handle).1, base ≤ fd ∧ fd < base + maxVfds ∧ fd ∉ t.map := by
  obtain ⟨rfl, v, hr, hst⟩ := h.renders hhi
  obtain ⟨hsame, -⟩ := hr.insertNew hhi hst handle
  obtain ⟨-, -, hor⟩ := Vfds.insertNew_cases (by omega) hhi hst handle
  rw [hsame, hr.size] at hor
  cases hgot : (t.insertNew handle).1 with
  | none =>
    rw [hgot] at hor
    rcases hor with ⟨-, hfull, -⟩ | ⟨fd, hfd, -⟩
    · exact ⟨by simpa using hfull, fun fd hfd => by cases hfd⟩
    · cases hfd
  | some fd =>
    rw [hgot] at hor
    rcases hor with ⟨hnone, -⟩ | ⟨_, hfd, hge, hlt, hfree, hroom, -⟩
    · cases hnone
    · obtain rfl := Option.some.inj hfd
      refine ⟨by simpa using hroom, fun n hn => ?_⟩
      obtain rfl := Option.some.inj hn
      exact ⟨by omega, by omega, mt (hr.mem_iff fd).mpr hfree⟩

end Renders

end Vfds

/-- **Virtual descriptors are sound**: after every sequence of calls the counter is in the window and only open
descriptors have a mark, and the next call takes a free number of the window, if one is left, where its handle then
is, and disturbs no other descriptor. -/
theorem vfds_sound (base : Int) (hlo : -(2 ^ 31) ≤ base) (hhi : base + maxVfds ≤ maxI32)
    (calls : List Vfds.Call) :
    ((Vfds.new base).after calls).Sound base ∧ ∀ call, ((Vfds.new base).after calls).Fresh base call := by
  have hnew : (Vfds.new base).Sound base := by
    refine ⟨rfl, ⟨Int.le_refl base, ?_⟩, fun fd hfd => ?_⟩
    · simp only [Vfds.new, maxVfds]
      omega
    · exact absurd hfd (by simp [Vfds.new])
  have hafter := Vfds.after_sound hlo hhi calls hnew
  exact ⟨hafter, fun call => (Vfds.apply_sound hlo hhi hafter call).2⟩

/-- A descriptor with a mark, and a duplicate below the window. -/
theorem vfds_sound_duplicates :
    ((Vfds.new 10000).after [.allocate [47] 3 none, .flock 10000 false, .duplicateInto 10000 5]).Sound 10000 :=
  (vfds_sound 10000 (by decide) (by decide) _).1

end KinVfs
