import KinVfs.Lib.Runs
import KinVfs.Shim.Dirents

/-!
# Seeking (`FdTable::seek` of `fd_table.rs` and `lseek` of `intercept.rs`, `crates/kin-vfs-shim/src`)

`seek` adds the offset to a position with `saturating_add`, after a cast of the position to `i64`. It is exact where
neither changes anything that matters (`lseek_exact_iff`).

A directory has a second position, the index of the next entry for `getdents64`, and `seek` does not change that one.
So a directory is read again from a position only if it would have been read from there without the seek
(`revisits_iff`).
-/

namespace KinVfs

open Fallible

/-! ## The sum -/

/-- What the offset is added to. -/
def seekBase (handle : VirtualFileHandle) : Posix.Whence → Nat
  | .seekCur => handle.offset
  | .seekEnd => handle.size
  | .seekSet | .other => 0

/-- The seek goes to the sum if that is an offset of a file, and fails without a change if not. -/
def SeekExact (s : Shim) (fd : Nat) (handle : VirtualFileHandle) (offset : Int) (whence : Posix.Whence) : Prop :=
  if 0 ≤ seekBase handle whence + offset ∧ seekBase handle whence + offset ≤ 2 ^ 63 - 1 then
    exec (lseek fd offset whence) s = (.ok (seekBase handle whence + offset).toNat,
      { s with table :=
        s.table.setHandle fd { handle with offset := (seekBase handle whence + offset).toNat } })
  else exec (lseek fd offset whence) s = (.error .einval, s)

section Seek

variable {s : Shim} {fd : Nat} {handle : VirtualFileHandle} {offset : Int} {whence : Posix.Whence}

theorem exec_lseek (h : s.table.map[fd]? = some handle) :
    exec (lseek fd offset whence) s =
      match FdTable.seekTarget handle offset whence with
      | none => (.error .einval, s)
      | some new => (.ok new, { s with table := s.table.setHandle fd { handle with offset := new } }) := by
  unfold lseek
  rw [exec_bind, exec_get]
  dsimp only
  rw [exec_bind, exec_set]
  simp only [FdTable.seek, h]
  cases FdTable.seekTarget handle offset whence with
  | none => rfl
  | some new => rfl

/-- Where the seek goes, for each of the three ways to say it. -/
theorem seekTarget_eq (ho : offset ≤ 2 ^ 63 - 1) (hw : whence ≠ .other) :
    FdTable.seekTarget handle offset whence =
      if FdTable.saturatingAddI64 (FdTable.asI64 (seekBase handle whence)) offset < 0 then none
      else some (FdTable.saturatingAddI64 (FdTable.asI64 (seekBase handle whence)) offset).toNat := by
  cases whence with
  | seekCur => rfl
  | seekEnd => rfl
  | other => exact absurd rfl hw
  | seekSet =>
    have hsum : FdTable.saturatingAddI64 (FdTable.asI64 0) offset < 0 ↔ offset < 0 := by
      simp only [FdTable.saturatingAddI64, FdTable.asI64, Posix.maxFileSize]
      omega
    have hval : ¬ offset < 0 → (FdTable.saturatingAddI64 (FdTable.asI64 0) offset).toNat = offset.toNat := by
      simp only [FdTable.saturatingAddI64, FdTable.asI64, Posix.maxFileSize]
      omega
    show (if offset < 0 then none else some offset.toNat) =
      if FdTable.saturatingAddI64 (FdTable.asI64 0) offset < 0 then none
      else some (FdTable.saturatingAddI64 (FdTable.asI64 0) offset).toNat
    by_cases hneg : offset < 0
    · rw [if_pos hneg, if_pos (hsum.mpr hneg)]
    · rw [if_neg hneg, if_neg (fun hcon => hneg (hsum.mp hcon)), hval hneg]

/-- A seek is exact when its target is. -/
theorem seekExact_iff (h : s.table.map[fd]? = some handle) :
    SeekExact s fd handle offset whence ↔ FdTable.seekTarget handle offset whence =
      if 0 ≤ seekBase handle whence + offset ∧ seekBase handle whence + offset ≤ 2 ^ 63 - 1 then
        some (seekBase handle whence + offset).toNat
      else none := by
  unfold SeekExact
  rw [exec_lseek h]
  by_cases hin : 0 ≤ seekBase handle whence + offset ∧ seekBase handle whence + offset ≤ 2 ^ 63 - 1
  · rw [if_pos hin, if_pos hin]
    cases FdTable.seekTarget handle offset whence with
    | none => simp
    | some new =>
      constructor
      · intro heq
        obtain ⟨hok, -⟩ := Prod.mk.inj heq
        exact congrArg some (Except.ok.inj hok)
      · intro heq
        rw [Option.some.inj heq]
  · rw [if_neg hin, if_neg hin]
    cases FdTable.seekTarget handle offset whence with
    | none => simp
    | some new => simp

end Seek

/-- **When seeking is exact**: the position is one of a file and so is the sum unless it is negative, or the position
is none and the sum is none either, and less than `2 ^ 64`. -/
theorem lseek_exact_iff (s : Shim) (fd : Nat) (handle : VirtualFileHandle) (offset : Int) (whence : Posix.Whence)
    (h : s.table.map[fd]? = some handle) (hoff : handle.offset < 2 ^ 64) (hsize : handle.size < 2 ^ 64)
    (hlo : -(2 ^ 63) ≤ offset) (hhi : offset ≤ 2 ^ 63 - 1) (hw : whence ≠ .other) :
    SeekExact s fd handle offset whence ↔
      (seekBase handle whence < 2 ^ 63 ∧ seekBase handle whence + offset < 2 ^ 63) ∨
        (2 ^ 63 ≤ seekBase handle whence ∧ 2 ^ 63 ≤ seekBase handle whence + offset ∧
          seekBase handle whence + offset < 2 ^ 64) := by
  have hbase : seekBase handle whence < 2 ^ 64 := by
    cases whence with
    | seekCur => exact hoff
    | seekEnd => exact hsize
    | seekSet => exact Nat.two_pow_pos 64
    | other => exact Nat.two_pow_pos 64
  rw [seekExact_iff h, seekTarget_eq hhi hw]
  generalize seekBase handle whence = base at hbase ⊢
  by_cases hsmall : base < 2 ^ 63
  · have hcast : FdTable.asI64 base = base := if_pos (by unfold Posix.maxFileSize; omega)
    by_cases hsum : base + offset < 2 ^ 63
    · refine iff_of_true ?_ (.inl ⟨hsmall, hsum⟩)
      have hadd : FdTable.saturatingAddI64 base offset = base + offset := by
        unfold FdTable.saturatingAddI64 Posix.maxFileSize
        omega
      rw [hcast, hadd]
      by_cases hneg : base + offset < 0
      · rw [if_pos hneg, if_neg (by omega)]
      · rw [if_neg hneg, if_pos (by omega)]
    · -- The sum is too large, and the seek goes to the largest offset.
      refine iff_of_false ?_ (by omega)
      have hadd : FdTable.saturatingAddI64 base offset = 2 ^ 63 - 1 := by
        unfold FdTable.saturatingAddI64 Posix.maxFileSize
        omega
      rw [hcast, hadd, if_neg (by omega), if_neg (by omega)]
      simp
  · have hcast : FdTable.asI64 base = base - 2 ^ 64 := if_neg (by unfold Posix.maxFileSize; omega)
    have hadd : FdTable.saturatingAddI64 (base - 2 ^ 64) offset < 0 ↔ base + offset < 2 ^ 64 := by
      unfold FdTable.saturatingAddI64 Posix.maxFileSize
      omega
    rw [hcast]
    by_cases hsum : base + offset < 2 ^ 64
    · rw [if_pos (hadd.mpr hsum)]
      by_cases hlarge : 2 ^ 63 ≤ base + offset
      · exact iff_of_true (by rw [if_neg (by omega)]) (.inr ⟨by omega, hlarge, hsum⟩)
      · exact iff_of_false (by rw [if_pos (by omega)]; simp) (by omega)
    · refine iff_of_false ?_ (by omega)
      rw [if_neg fun hcon => hsum (hadd.mp hcon), if_neg (by omega)]
      simp

namespace Sample

/-- A file of ten bytes that was read up to the fifth. -/
def halfRead : VirtualFileHandle := ⟨[47], 5, 10, none, false, none, 0⟩

def halfReadShim : Shim :=
  ⟨⟨Asked.init ⟨.none, 0⟩, StatCache.new StatCache.defaultCapacity⟩, (FdTable.new 10000).setHandle 10000 halfRead⟩

theorem halfReadShim_handle : halfReadShim.table.map[10000]? = some halfRead := Std.ExtTreeMap.getElem?_insert_self

end Sample

theorem lseek_exact_iff_back : SeekExact Sample.halfReadShim 10000 Sample.halfRead (-10) .seekEnd :=
  (lseek_exact_iff Sample.halfReadShim 10000 Sample.halfRead (-10) .seekEnd Sample.halfReadShim_handle (by decide)
    (by decide) (by decide) (by decide) (by decide)).mpr (.inl (by decide))

/-- From the fifth byte on by the largest offset there is: the seek succeeds, and goes to that offset. -/
theorem lseek_saturates : ¬ SeekExact Sample.halfReadShim 10000 Sample.halfRead (2 ^ 63 - 1) .seekCur := by
  rw [seekExact_iff Sample.halfReadShim_handle]
  decide

/-! ## Positions in a directory -/

/-- The records of entries, the first of which is at index `pos`. Each has the index of the next as its `d_off`. -/
def direntRecords : Nat → List DirEntryRaw → Bytes
  | _, [] => []
  | pos, entry :: entries => dirent entry (pos + 1) ++ direntRecords (pos + 1) entries

/-- The calls on a directory. -/
inductive DirCall where
  | getdents64 (size : Nat)
  | lseek (offset : Int) (whence : Posix.Whence)

def dirStep (fd : Nat) (s : Shim) : DirCall → Option Shim
  | .getdents64 size => some (exec (getdents64 fd size) s).2
  | .lseek offset whence => some (exec (lseek fd offset whence) s).2

/-- A record that was returned by one of the calls: its `d_off`, and the entries of the directory that follow it. -/
inductive Returned (fd : Nat) : Shim → List DirCall → Nat → List DirEntryRaw → Prop
  | here {s : Shim} {size : Nat} {calls : List DirCall} {handle : VirtualFileHandle}
      {front back after : List DirEntryRaw} {entry : DirEntryRaw} : s.table.map[fd]? = some handle →
      Lists fd s (front ++ entry :: after) →
      (exec (getdents64 fd size) s).1 = .ok (direntRecords handle.dirOffset (front ++ entry :: back)) →
      Returned fd s (.getdents64 size :: calls) (handle.dirOffset + front.length + 1) after
  | later {s s' : Shim} {call : DirCall} {calls : List DirCall} {pos : Nat} {after : List DirEntryRaw} :
      dirStep fd s call = some s' → Returned fd s' calls pos after → Returned fd s (call :: calls) pos after

/-- The calls return the entries `left`, which start at index `pos`, as long as each has room for the next. -/
def Returns (fd : Nat) : Shim → List Nat → Nat → List DirEntryRaw → Prop
  | _, [], _, _ => True
  | s, size :: sizes, pos, left =>
    (∀ e ∈ left.head?, direntLength e ≤ size) → ∃ part rest, left = part ++ rest ∧ (left ≠ [] → part ≠ []) ∧
      (exec (getdents64 fd size) s).1 = .ok (direntRecords pos part) ∧
      Returns fd (exec (getdents64 fd size) s).2 sizes (pos + part.length) rest

/-- After a seek to `pos` the calls return `left`. -/
def Revisits (fd : Nat) (s : Shim) (pos : Nat) (left : List DirEntryRaw) : Prop :=
  ∃ s', exec (lseek fd pos .seekSet) s = (.ok pos, s') ∧ ∀ sizes, Returns fd s' sizes pos left

/-- The descriptor has the entries, and the next call goes on at `pos`. -/
def AtEntry (fd : Nat) (entries : List DirEntryRaw) (pos : Nat) (s : Shim) : Prop :=
  ∃ handle, s.table.map[fd]? = some handle ∧ handle.isDirectory = true ∧ handle.dirEntries = some entries ∧
    handle.dirOffset = pos

section Dir

variable {s s' : Shim} {fd pos size written : Nat} {entries left : List DirEntryRaw} {handle : VirtualFileHandle}

/-- The entries that fit, and the index after them. -/
theorem packGetdents64_eq (size pos written : Nat) (left : List DirEntryRaw) :
    ∃ part rest, left = part ++ rest ∧ packGetdents64 size pos written left =
        (direntRecords pos part, pos + part.length) ∧
      (rest ≠ [] → ∃ e ∈ rest.head?, size < written + (direntRecords pos part).length + direntLength e) := by
  induction left generalizing pos written with
  | nil => exact ⟨[], [], rfl, rfl, fun h => absurd rfl h⟩
  | cons entry left ih =>
    by_cases hfull : size < written + direntLength entry
    · refine ⟨[], entry :: left, rfl, ?_, fun _ => ⟨entry, rfl, ?_⟩⟩
      · rw [packGetdents64, if_pos hfull]
        rfl
      · simpa [direntRecords] using hfull
    · obtain ⟨part, rest, hsplit, hpack, hrest⟩ := ih (pos + 1) (written + direntLength entry)
      refine ⟨entry :: part, rest, by rw [hsplit]; rfl, ?_, fun hne => ?_⟩
      · rw [packGetdents64, if_neg hfull, hpack, List.length_cons]
        simp only [direntRecords, Prod.mk.injEq, true_and]
        omega
      · obtain ⟨e, he, hlt⟩ := hrest hne
        refine ⟨e, he, ?_⟩
        rw [direntRecords, List.length_append, length_dirent]
        omega

theorem exec_getdents64 (size : Nat) (h : AtEntry fd entries pos s) :
    ∃ part rest, entries.drop pos = part ++ rest ∧
      (exec (getdents64 fd size) s).1 = .ok (direntRecords pos part) ∧
      AtEntry fd entries (pos + part.length) (exec (getdents64 fd size) s).2 ∧
      (rest ≠ [] → ∃ e ∈ rest.head?, size < (direntRecords pos part).length + direntLength e) := by
  obtain ⟨handle, hmap, hdir, hentries, rfl⟩ := h
  obtain ⟨part, rest, hsplit, hpack, hrest⟩ :=
    packGetdents64_eq size handle.dirOffset 0 (entries.drop handle.dirOffset)
  have hexec : exec (getdents64 fd size) s = (.ok (direntRecords handle.dirOffset part),
      { s with table := s.table.setHandle fd { handle with dirOffset := handle.dirOffset + part.length } }) := by
    rw [getdents64, exec_bind, exec_get]
    dsimp only
    rw [hmap]
    dsimp only
    rw [if_pos hdir, hentries]
    dsimp only
    rw [hpack, exec_bind, exec_set]
    rfl
  rw [hexec]
  refine ⟨part, rest, hsplit, rfl, ?_, fun hne => ?_⟩
  · exact ⟨_, FdTable.getElem?_setHandle_self .., hdir, hentries, rfl⟩
  · obtain ⟨e, he, hlt⟩ := hrest hne
    exact ⟨e, he, by omega⟩

/-- A seek leaves the index of the next entry alone. -/
theorem lseek_atEntry (h : AtEntry fd entries pos s) (offset : Int) (whence : Posix.Whence) :
    AtEntry fd entries pos (exec (lseek fd offset whence) s).2 := by
  obtain ⟨handle, hmap, hdir, hentries, hpos⟩ := h
  rw [exec_lseek hmap]
  cases FdTable.seekTarget handle offset whence with
  | none => exact ⟨handle, hmap, hdir, hentries, hpos⟩
  | some new => exact ⟨_, FdTable.getElem?_setHandle_self .., hdir, hentries, hpos⟩

theorem lseek_set (h : AtEntry fd entries pos s) (p : Nat) :
    exec (lseek fd p .seekSet) s = (.ok p, (exec (lseek fd p .seekSet) s).2) := by
  obtain ⟨handle, hmap, -⟩ := h
  rw [exec_lseek hmap]
  have htarget : FdTable.seekTarget handle p .seekSet = some p := by
    show (if (p : Int) < 0 then none else some (p : Int).toNat) = some p
    rw [if_neg (by omega), Int.toNat_natCast]
  rw [htarget]

/-- One call leaves the entries, and the index moves within them. -/
theorem dirStep_atEntry {call : DirCall} (h : AtEntry fd entries pos s) (hpos : pos ≤ entries.length)
    (hstep : dirStep fd s call = some s') : ∃ pos', pos' ≤ entries.length ∧ AtEntry fd entries pos' s' := by
  cases call with
  | getdents64 size =>
    obtain rfl := Option.some.inj hstep
    obtain ⟨part, rest, hsplit, -, hnext, -⟩ := exec_getdents64 size h
    refine ⟨_, ?_, hnext⟩
    have hlen := congrArg List.length hsplit
    rw [List.length_drop, List.length_append] at hlen
    omega
  | lseek offset whence =>
    obtain rfl := Option.some.inj hstep
    exact ⟨pos, hpos, lseek_atEntry h offset whence⟩

/-- The calls return what is left. -/
theorem returns_of_atEntry {sizes : List Nat} (h : AtEntry fd entries pos s) :
    Returns fd s sizes pos (entries.drop pos) := by
  induction sizes generalizing s pos with
  | nil => trivial
  | cons size sizes ih =>
    intro hroom
    obtain ⟨part, rest, hsplit, hbytes, hnext, hfull⟩ := exec_getdents64 size h
    refine ⟨part, rest, hsplit, fun hne hpart => ?_, hbytes, ?_⟩
    · -- With room for the next entry, it is among those returned.
      subst hpart
      rw [List.nil_append] at hsplit
      rw [hsplit] at hne hroom
      obtain ⟨e, he, hlt⟩ := hfull hne
      have hle := hroom e he
      rw [direntRecords, List.length_nil] at hlt
      omega
    · have hrest : entries.drop (pos + part.length) = rest := by
        rw [← List.drop_drop, hsplit, List.drop_left]
      rw [← hrest]
      exact ih hnext

/-! ## The position is the only one -/

theorem length_direntRecords (pos : Nat) (entries : List DirEntryRaw) :
    (direntRecords pos entries).length = (entries.map direntLength).sum := by
  induction entries generalizing pos with
  | nil => rfl
  | cons entry entries ih =>
    rw [direntRecords, List.length_append, length_dirent, ih, List.map_cons, List.sum_cons]

theorem direntRecords_eq_nil : direntRecords pos entries = [] ↔ entries = [] := by
  cases entries with
  | nil => simp [direntRecords]
  | cons entry entries =>
    have hlen := length_dirent entry (pos + 1)
    have hpos := (direntLength_bounds entry).1
    constructor
    · intro h
      rw [direntRecords, List.append_eq_nil_iff] at h
      rw [h.1, List.length_nil] at hlen
      omega
    · intro h
      cases h

theorem sum_drop_le (entries : List DirEntryRaw) (pos : Nat) :
    ((entries.drop pos).map direntLength).sum ≤ (entries.map direntLength).sum := by
  conv => rhs; rw [← List.take_append_drop pos entries, List.map_append, List.sum_append]
  omega

/-- Fewer entries have shorter records. -/
theorem sum_drop_lt {p q : Nat} (hpq : p < q) (hq : q ≤ entries.length) :
    ((entries.drop q).map direntLength).sum < ((entries.drop p).map direntLength).sum := by
  obtain ⟨entry, rest, hcons⟩ : ∃ entry rest, entries.drop p = entry :: rest := by
    refine List.exists_cons_of_ne_nil fun hnil => ?_
    rw [List.drop_eq_nil_iff] at hnil
    omega
  have hq' : entries.drop q = rest.drop (q - p - 1) := by
    have hsum : q = p + (q - p) := by omega
    have hone : q - p = (q - p - 1) + 1 := by omega
    rw [hsum, ← List.drop_drop, hcons, hone, List.drop_succ_cons]
    simp
  have hpos := (direntLength_bounds entry).1
  have hle := sum_drop_le rest (q - p - 1)
  rw [hq', hcons, List.map_cons, List.sum_cons]
  omega

/-- The calls return what is left from one position only. -/
theorem eq_of_returns {p : Nat} (h : AtEntry fd entries pos s) (hpos : pos ≤ entries.length) (hp : p ≤ entries.length)
    (hret : ∀ sizes, Returns fd s sizes p (entries.drop p)) : pos = p := by
  -- Two calls with room for everything: the first returns all that is left, the second nothing.
  generalize hsize : (entries.map direntLength).sum = size
  have hroom : ∀ q, ∀ e ∈ (entries.drop q).head?, direntLength e ≤ size := by
    intro q e he
    obtain ⟨rest, hcons⟩ := List.head?_eq_some_iff.mp he
    have hle := sum_drop_le entries q
    rw [hcons, List.map_cons, List.sum_cons] at hle
    omega
  obtain ⟨part, rest, hsplit, -, hbytes, hsecond⟩ := hret [size, size] (hroom p)
  obtain ⟨part', rest', hsplit', hbytes', hnext, hfull⟩ := exec_getdents64 size h
  have hrest' : rest' = [] := by
    by_contra hne
    obtain ⟨e, he, hlt⟩ := hfull hne
    obtain ⟨tail, hcons⟩ := List.head?_eq_some_iff.mp he
    have hle := sum_drop_le entries pos
    rw [hsplit', List.map_append, List.sum_append, hcons, List.map_cons, List.sum_cons] at hle
    rw [length_direntRecords] at hlt
    omega
  rw [hrest', List.append_nil] at hsplit'
  have hrest : rest = [] := by
    have hdrop : entries.drop (p + part.length) = rest := by
      rw [← List.drop_drop, hsplit, List.drop_left]
    obtain ⟨part₂, rest₂, -, htakes, hbytes₂, -⟩ := hsecond (hdrop ▸ hroom _)
    obtain ⟨part₂', rest₂', hsplit₂, hbytes₂', -, -⟩ := exec_getdents64 size hnext
    have hend : entries.drop (pos + part'.length) = [] := by
      rw [← List.drop_drop, hsplit', List.drop_length]
    rw [hend] at hsplit₂
    rw [(List.append_eq_nil_iff.mp hsplit₂.symm).1] at hbytes₂'
    rw [hbytes₂'] at hbytes₂
    by_contra hne
    exact htakes hne (direntRecords_eq_nil.mp (Except.ok.inj hbytes₂).symm)
  rw [hrest, List.append_nil] at hsplit
  rw [hbytes', hsplit.symm, hsplit'.symm] at hbytes
  have hlen := congrArg List.length (Except.ok.inj hbytes)
  rw [length_direntRecords, length_direntRecords] at hlen
  rcases Nat.lt_trichotomy pos p with hlt | heq | hgt
  · exact absurd hlen (Nat.ne_of_gt (sum_drop_lt hlt hp))
  · exact heq
  · exact absurd hlen (Nat.ne_of_lt (sum_drop_lt hgt hpos))

/-- A record that was returned is that of the entry before its `d_off`. -/
theorem Returned.eq_drop {calls : List DirCall} {p : Nat} {after : List DirEntryRaw} (h : Returned fd s calls p after)
    (hat : AtEntry fd entries pos s) (hpos : pos ≤ entries.length) :
    after = entries.drop p ∧ p ≤ entries.length := by
  induction h generalizing pos with
  | @here s size calls handle front back after entry hmap hlists hbytes =>
    obtain ⟨handle', hmap', -, hentries, rfl⟩ := hat
    rw [hmap] at hmap'
    cases hmap'
    obtain ⟨handle', entries', hmap', -, hentries', hdrop⟩ := hlists
    rw [hmap] at hmap'
    cases hmap'
    rw [hentries] at hentries'
    cases hentries'
    have hlen := congrArg List.length hdrop
    rw [List.length_drop, List.length_append, List.length_cons] at hlen
    refine ⟨?_, by omega⟩
    rw [Nat.add_assoc, ← List.drop_drop, hdrop, ← List.drop_drop, List.drop_left]
    rfl
  | later hstep _ ih =>
    obtain ⟨pos', hpos', hat'⟩ := dirStep_atEntry hat hpos hstep
    exact ih hat' hpos'

end Dir

/-- **When a position is revisited**: after any calls on an opened directory, a seek to its start or to the `d_off` of
a record that was returned leads the following calls there exactly if the directory stands there already. -/
theorem revisits_iff (fd : Nat) (s₀ s : Shim) (entries : List DirEntryRaw) (hopen : AtEntry fd entries 0 s₀)
    (calls : List DirCall) (hrun : Runs.run (dirStep fd) s₀ calls = some s) (p : Nat) (after : List DirEntryRaw)
    (hp : (p = 0 ∧ after = entries) ∨ Returned fd s₀ calls p after) :
    Revisits fd s p after ↔ AtEntry fd entries p s := by
  have hdrop : after = entries.drop p ∧ p ≤ entries.length := by
    rcases hp with ⟨rfl, rfl⟩ | hret
    · exact ⟨List.drop_zero.symm, Nat.zero_le _⟩
    · exact hret.eq_drop hopen (Nat.zero_le _)
  obtain ⟨rfl, hle⟩ := hdrop
  obtain ⟨pos, hpos, hat⟩ : ∃ pos ≤ entries.length, AtEntry fd entries pos s :=
    Runs.run_inv (P := fun s => ∃ pos ≤ entries.length, AtEntry fd entries pos s)
      (fun s call s' ⟨pos, hpos, hat⟩ hstep => dirStep_atEntry hat hpos hstep) ⟨0, Nat.zero_le _, hopen⟩ hrun
  constructor
  · rintro ⟨s', hseek, hret⟩
    have hat' := lseek_atEntry hat p .seekSet
    rw [hseek] at hat'
    rw [← eq_of_returns hat' hpos hle hret]
    exact hat
  · intro hat
    exact ⟨_, lseek_set hat p, fun sizes => returns_of_atEntry (lseek_atEntry hat p .seekSet)⟩

namespace Sample

theorem listingShim_at : AtEntry 10000 listing 0 listingShim :=
  ⟨_, Std.ExtTreeMap.getElem?_insert_self, rfl, rfl, rfl⟩

/-- The listing after a call with room for one record. -/
def listedOne : Shim := (exec (getdents64 10000 24) listingShim).2

theorem listedOne_bytes :
    (exec (getdents64 10000 24) listingShim).1 = .ok (direntRecords 0 ([] ++ ⟨[97], 1, 8⟩ :: [])) := by
  decide +kernel

theorem listedOne_at : AtEntry 10000 listing 1 listedOne :=
  ⟨⟨[47, 119], 0, 0, none, true, some listing, 1⟩, by decide +kernel, rfl, rfl, rfl⟩

end Sample

/-- After the first of two records, a seek to its `d_off` leads to the second. -/
theorem revisits_iff_next : Revisits 10000 Sample.listedOne 1 [⟨[98, 98], 2, 4⟩] := by
  refine (revisits_iff 10000 Sample.listingShim Sample.listedOne Sample.listing Sample.listingShim_at [.getdents64 24]
    rfl 1 [⟨[98, 98], 2, 4⟩] (.inr ?_)).mpr Sample.listedOne_at
  have hmap : Sample.listingShim.table.map[10000]? = some ⟨[47, 119], 0, 0, none, true, some Sample.listing, 0⟩ :=
    Std.ExtTreeMap.getElem?_insert_self
  exact .here hmap ⟨_, _, hmap, rfl, rfl, rfl⟩ Sample.listedOne_bytes

/-- After the first of two records, a seek to the start does not lead there. -/
theorem rewind_not_revisits :
    Runs.run (dirStep 10000) Sample.listingShim [.getdents64 24] = some Sample.listedOne ∧
      ¬ Revisits 10000 Sample.listedOne 0 Sample.listing := by
  refine ⟨rfl, ?_⟩
  rintro ⟨s', hseek, hret⟩
  have hat := lseek_atEntry Sample.listedOne_at (0 : Nat) .seekSet
  rw [hseek] at hat
  exact absurd (eq_of_returns hat (by decide) (by decide) hret) (by decide)

end KinVfs
