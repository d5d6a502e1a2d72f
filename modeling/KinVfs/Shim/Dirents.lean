import KinVfs.Lib.Memory
import KinVfs.Lib.Runs
import KinVfs.Shim.Process

/-!
# Directory records (`crates/kin-vfs-shim/src/intercept.rs`)

`getdents64` writes records into the caller's buffer, one field after the other, and keeps the index of the
next entry in the handle. What it writes is what `packGetdents64` lists (`packBuffer_eq`). A reader that
steps from record to record by `d_reclen` finds the entries again (`parseDirents_packed`), and over calls
with buffers of any size that has room for the next record it finds every entry once, in order
(`getdents64_lists`).
-/

namespace KinVfs

open Fallible Memory

/-! ## The writes -/

/-- The fields of a record, in the order of the source. -/
def writeDirent (mem : Mem) (base : Nat) (entry : DirEntryRaw) (next : Nat) : Mem :=
  let mem := store mem base (littleEndian 8 entry.dIno.toNat)
  let mem := store mem (base + 8) (littleEndian 8 next)
  let mem := store mem (base + 16) (littleEndian 2 (direntLength entry))
  let mem := store mem (base + 18) [UInt8.ofNat entry.dType]
  let mem := store mem (base + 19) entry.name
  store mem (base + (19 + entry.name.length))
    (List.replicate (direntLength entry - (19 + entry.name.length)) 0)

/-- The loop of `pack_getdents64` on the buffer at `buf`: the memory, the bytes written and the offset
after it. -/
def packBuffer (buf bufSize : Nat) : Mem → Nat → Nat → List DirEntryRaw → Mem × Nat × Nat
  | mem, offset, written, [] => (mem, written, offset)
  | mem, offset, written, entry :: entries =>
    if bufSize < written + direntLength entry then (mem, written, offset)
    else
      packBuffer buf bufSize (writeDirent mem (buf + written) entry (offset + 1)) (offset + 1)
        (written + direntLength entry) entries

/-- `getdents64` with the buffer of the caller: the number of bytes, and the memory. -/
def getdents64Into (fd buf bufSize : Nat) (s : Shim) (mem : Mem) : Except Errno Nat × Shim × Mem :=
  match s.table.map[fd]? with
  | some handle =>
    if handle.isDirectory then
      match handle.dirEntries with
      | some entries =>
        let packed := packBuffer buf bufSize mem handle.dirOffset 0 (entries.drop handle.dirOffset)
        (.ok packed.2.1,
          { s with table := s.table.setHandle fd { handle with dirOffset := packed.2.2 } }, packed.1)
      | none => (.ok 0, s, mem)
    else (.error .ebadf, s, mem)
  | none => (.error .ebadf, s, mem)

/-! ## The reader -/

def ofLittleEndian (bytes : Bytes) : Nat := MsgPack.ofBigEndian bytes.reverse

/-- A record as it is read: where it starts, and its fields. -/
structure Dirent where
  start : Nat
  dIno : Nat
  dOff : Nat
  dReclen : Nat
  dType : Nat
  name : Bytes
  deriving DecidableEq

/-- The record that the bytes start with. -/
def readDirent (start : Nat) (bytes : Bytes) : Dirent where
  start := start
  dIno := ofLittleEndian (bytes.take 8)
  dOff := ofLittleEndian ((bytes.drop 8).take 8)
  dReclen := ofLittleEndian ((bytes.drop 16).take 2)
  dType := ofLittleEndian ((bytes.drop 18).take 1)
  name := (bytes.drop 19).takeWhile (· ≠ 0)

/-- Step from record to record by `d_reclen`. -/
def parseDirents (start : Nat) (bytes : Bytes) : Option (List Dirent) :=
  if bytes = [] then some []
  else if _h : 19 < (readDirent start bytes).dReclen ∧ (readDirent start bytes).dReclen ≤ bytes.length then
    (parseDirents (start + (readDirent start bytes).dReclen)
      (bytes.drop (readDirent start bytes).dReclen)).map (readDirent start bytes :: ·)
  else none
termination_by bytes.length
decreasing_by
  simp only [List.length_drop]
  omega

/-- An entry of a directory: the name has 1 to 255 bytes and no NUL, the type is a byte. -/
structure DirEntryRaw.Valid (entry : DirEntryRaw) : Prop where
  nonempty : 1 ≤ entry.name.length
  short : entry.name.length ≤ 255
  noNul : 0 ∉ entry.name
  type : entry.dType < 256

variable {entry : DirEntryRaw} {entries : List DirEntryRaw} {mem : Mem}
  {buf bufSize offset written start next : Nat}

/-! ## Lengths -/

@[simp] theorem length_littleEndian (width n : Nat) : (littleEndian width n).length = width := by
  simp [littleEndian]

theorem ofLittleEndian_littleEndian {width n : Nat} (h : n < 256 ^ width) :
    ofLittleEndian (littleEndian width n) = n := by
  rw [ofLittleEndian, littleEndian, List.reverse_reverse, MsgPack.ofBigEndian_bigEndian h]

theorem direntLength_dvd (entry : DirEntryRaw) : 8 ∣ direntLength entry :=
  Nat.dvd_mul_left _ _

/-- A record has room for its fields and the NUL after the name. -/
theorem direntLength_bounds (entry : DirEntryRaw) :
    19 + entry.name.length < direntLength entry ∧ direntLength entry ≤ 27 + entry.name.length := by
  unfold direntLength
  omega

@[simp] theorem length_dirent (entry : DirEntryRaw) (next : Nat) :
    (dirent entry next).length = direntLength entry := by
  have h := direntLength_bounds entry
  simp only [dirent, List.length_append, length_littleEndian, List.length_cons, List.length_nil,
    List.length_replicate]
  omega

/-! ## The buffer -/

theorem writeDirent_eq : writeDirent mem buf entry next = store mem buf (dirent entry next) := by
  simp only [writeDirent, dirent, ← store_append, List.length_append, length_littleEndian,
    List.length_singleton, ← Nat.add_assoc]

theorem packBuffer_eq :
    packBuffer buf bufSize mem offset written entries =
      (store mem (buf + written) (packGetdents64 bufSize offset written entries).1,
        written + (packGetdents64 bufSize offset written entries).1.length,
        (packGetdents64 bufSize offset written entries).2) := by
  induction entries generalizing mem offset written with
  | nil => simp [packBuffer, packGetdents64]
  | cons entry entries ih =>
    rw [packBuffer, packGetdents64]
    split
    · simp
    · have hnext : buf + (written + direntLength entry) =
          buf + written + (dirent entry (offset + 1)).length := by
        rw [length_dirent, Nat.add_assoc]
      rw [ih, writeDirent_eq, hnext, store_append, List.length_append, length_dirent, Nat.add_assoc]

/-- The hook with a buffer does what the hook that lists the bytes does. -/
theorem getdents64Into_eq (fd : Nat) (s : Shim) :
    getdents64Into fd buf bufSize s mem =
      match exec (getdents64 fd bufSize) s with
      | (.ok bytes, s') => (.ok bytes.length, s', store mem buf bytes)
      | (.error e, s') => (.error e, s', mem) := by
  rw [getdents64Into, getdents64, exec_bind, exec_get]
  dsimp only
  cases s.table.map[fd]? with
  | none => rfl
  | some handle =>
    dsimp only
    split
    · cases handle.dirEntries with
      | none => simp [exec_pure]
      | some entries =>
        dsimp only
        rw [packBuffer_eq, exec_bind, exec_set]
        simp
    · rfl

/-! ## Reading a record back -/

/-- The record shows the entry, and starts at a multiple of 8. -/
structure Dirent.Shows (r : Dirent) (entry : DirEntryRaw) : Prop where
  name : r.name = entry.name
  type : r.dType = entry.dType
  ino : r.dIno = entry.dIno.toNat
  aligned : 8 ∣ r.start

/-- The name of a record ends at the first NUL. -/
theorem takeWhile_name {name rest : Bytes} {k : Nat} (hname : 0 ∉ name) (hk : 0 < k) :
    (name ++ (List.replicate k 0 ++ rest)).takeWhile (fun b => decide (b ≠ 0)) = name := by
  have hkeep : ∀ b ∈ name, decide (b ≠ 0) = true := by
    intro b hb
    have hne : b ≠ 0 := fun h => hname (h ▸ hb)
    simpa using hne
  obtain ⟨j, rfl⟩ : ∃ j, k = j + 1 := ⟨k - 1, by omega⟩
  rw [List.takeWhile_append_of_pos hkeep, List.replicate_succ, List.cons_append,
    List.takeWhile_cons_of_neg (by decide), List.append_nil]

theorem readDirent_dirent (hv : entry.Valid) (start next : Nat) (rest : Bytes) :
    (readDirent start (dirent entry next ++ rest)).dReclen = direntLength entry ∧
      (readDirent start (dirent entry next ++ rest)).name = entry.name ∧
      (readDirent start (dirent entry next ++ rest)).dType = entry.dType ∧
      (readDirent start (dirent entry next ++ rest)).dIno = entry.dIno.toNat := by
  have hbounds := direntLength_bounds entry
  have hshort := hv.short
  have hform : dirent entry next ++ rest =
      littleEndian 8 entry.dIno.toNat ++ (littleEndian 8 next ++ (littleEndian 2 (direntLength entry) ++
        ([UInt8.ofNat entry.dType] ++ (entry.name ++
          (List.replicate (direntLength entry - (19 + entry.name.length)) 0 ++ rest))))) := by
    simp only [dirent, List.append_assoc]
  have hdrop8 : (dirent entry next ++ rest).drop 8 = littleEndian 8 next ++
      (littleEndian 2 (direntLength entry) ++ ([UInt8.ofNat entry.dType] ++ (entry.name ++
        (List.replicate (direntLength entry - (19 + entry.name.length)) 0 ++ rest)))) := by
    rw [hform, List.drop_left' (length_littleEndian 8 _)]
  have hdrop16 : (dirent entry next ++ rest).drop 16 =
      littleEndian 2 (direntLength entry) ++ ([UInt8.ofNat entry.dType] ++ (entry.name ++
        (List.replicate (direntLength entry - (19 + entry.name.length)) 0 ++ rest))) := by
    rw [show (16 : Nat) = 8 + 8 from rfl, ← List.drop_drop, hdrop8,
      List.drop_left' (length_littleEndian 8 _)]
  have hdrop18 : (dirent entry next ++ rest).drop 18 =
      [UInt8.ofNat entry.dType] ++ (entry.name ++
        (List.replicate (direntLength entry - (19 + entry.name.length)) 0 ++ rest)) := by
    rw [show (18 : Nat) = 16 + 2 from rfl, ← List.drop_drop, hdrop16,
      List.drop_left' (length_littleEndian 2 _)]
  have hdrop19 : (dirent entry next ++ rest).drop 19 = entry.name ++
      (List.replicate (direntLength entry - (19 + entry.name.length)) 0 ++ rest) := by
    rw [show (19 : Nat) = 18 + 1 from rfl, ← List.drop_drop, hdrop18,
      List.drop_left' List.length_singleton]
  unfold readDirent
  dsimp only
  refine ⟨?_, ?_, ?_, ?_⟩
  · rw [hdrop16, List.take_left' (length_littleEndian 2 _)]
    exact ofLittleEndian_littleEndian (by omega)
  · rw [hdrop19]
    exact takeWhile_name hv.noNul (by omega)
  · rw [hdrop18, List.take_left' List.length_singleton]
    have htype := hv.type
    have hone : (UInt8.ofNat entry.dType).toNat = entry.dType := by
      simp only [UInt8.toNat_ofNat']
      omega
    simpa [ofLittleEndian, MsgPack.ofBigEndian] using hone
  · rw [hform, List.take_left' (length_littleEndian 8 _)]
    exact ofLittleEndian_littleEndian (by have := entry.dIno.toNat_lt; omega)

/-- The reader takes the record off and goes on behind it. -/
theorem parseDirents_dirent (hv : entry.Valid) (rest : Bytes) :
    parseDirents start (dirent entry next ++ rest) =
      (parseDirents (start + direntLength entry) rest).map
        (readDirent start (dirent entry next ++ rest) :: ·) := by
  have hbounds := direntLength_bounds entry
  have hnonempty := hv.nonempty
  obtain ⟨hlen, -, -, -⟩ := readDirent_dirent hv start next rest
  have hne : dirent entry next ++ rest ≠ [] := by
    intro h
    have hzero := congrArg List.length h
    simp only [List.length_append, length_dirent, List.length_nil] at hzero
    omega
  rw [parseDirents, if_neg hne, hlen, dif_pos]
  · rw [List.drop_left' (length_dirent entry next)]
  · simp only [List.length_append, length_dirent]
    omega

/-! ## One call -/

/-- The loop takes the entries that fit, and stops at the first that does not. -/
structure Packs (bufSize offset written : Nat) (entries part rest : List DirEntryRaw) : Prop where
  split : entries = part ++ rest
  index : (packGetdents64 bufSize offset written entries).2 = offset + part.length
  fits : written + (packGetdents64 bufSize offset written entries).1.length ≤ bufSize
  full : rest = [] ∨ ∃ e ∈ rest.head?,
    bufSize < written + (packGetdents64 bufSize offset written entries).1.length + direntLength e
  shows : ∀ start, 8 ∣ start → ∃ records,
    parseDirents start (packGetdents64 bufSize offset written entries).1 = some records ∧
      List.Forall₂ Dirent.Shows records part

theorem parseDirents_packed (hvalid : ∀ e ∈ entries, e.Valid) (hw : written ≤ bufSize) :
    ∃ part rest, Packs bufSize offset written entries part rest := by
  induction entries generalizing offset written with
  | nil =>
    refine ⟨[], [], rfl, rfl, by simpa [packGetdents64] using hw, .inl rfl, fun start _ => ⟨[], ?_, .nil⟩⟩
    rw [packGetdents64, parseDirents, if_pos rfl]
  | cons entry entries ih =>
    rw [List.forall_mem_cons] at hvalid
    by_cases hfull : bufSize < written + direntLength entry
    · refine ⟨[], entry :: entries, rfl, ?_, ?_, .inr ⟨entry, rfl, ?_⟩, fun start _ => ⟨[], ?_, .nil⟩⟩
      all_goals rw [packGetdents64, if_pos hfull]
      · rfl
      · simpa using hw
      · simpa using hfull
      · rw [parseDirents, if_pos rfl]
    · obtain ⟨part, rest, ih⟩ : ∃ part rest,
          Packs bufSize (offset + 1) (written + direntLength entry) entries part rest :=
        ih hvalid.2 (by omega)
      have hpack : packGetdents64 bufSize offset written (entry :: entries) =
          (dirent entry (offset + 1) ++
              (packGetdents64 bufSize (offset + 1) (written + direntLength entry) entries).1,
            (packGetdents64 bufSize (offset + 1) (written + direntLength entry) entries).2) := by
        rw [packGetdents64, if_neg hfull]
      have hsum : ∀ n, written + (direntLength entry + n) = written + direntLength entry + n := by
        intro n
        omega
      refine ⟨entry :: part, rest, by rw [ih.split]; rfl, ?_, ?_, ?_, fun start hstart => ?_⟩
      all_goals rw [hpack]
      · rw [ih.index, List.length_cons]
        omega
      · rw [List.length_append, length_dirent, hsum]
        exact ih.fits
      · rw [List.length_append, length_dirent, hsum]
        exact ih.full
      · obtain ⟨records, hrecords, hall⟩ := ih.shows (start + direntLength entry)
          (Nat.dvd_add hstart (direntLength_dvd entry))
        dsimp only
        rw [parseDirents_dirent hvalid.1, hrecords]
        obtain ⟨-, hname, htype, hino⟩ := readDirent_dirent hvalid.1 start (offset + 1)
          (packGetdents64 bufSize (offset + 1) (written + direntLength entry) entries).1
        exact ⟨_, rfl, .cons ⟨hname, htype, hino, hstart⟩ hall⟩

theorem parseDirents_eq_nil {bytes : Bytes} : parseDirents start bytes = some [] ↔ bytes = [] := by
  rw [parseDirents]
  split
  · rename_i hnil
    simp [hnil]
  · rename_i hne
    split <;> simp [hne]

/-- Bytes are written exactly when an entry is taken. -/
theorem Packs.eq_nil_iff {part rest : List DirEntryRaw} (h : Packs bufSize offset written entries part rest) :
    (packGetdents64 bufSize offset written entries).1 = [] ↔ part = [] := by
  obtain ⟨records, hrecords, hall⟩ := h.shows 0 (Nat.dvd_zero _)
  constructor
  · intro hnil
    rw [hnil, parseDirents_eq_nil.mpr rfl] at hrecords
    cases hrecords
    cases hall
    rfl
  · rintro rfl
    cases hall
    exact parseDirents_eq_nil.mp hrecords

/-- With room for the first entry, it is taken. -/
theorem Packs.takes {part rest : List DirEntryRaw} (h : Packs bufSize offset 0 entries part rest)
    (hroom : ∀ e ∈ entries.head?, direntLength e ≤ bufSize) (hne : entries ≠ []) : part ≠ [] := by
  intro hpart
  have hbytes := h.eq_nil_iff.mpr hpart
  have hsplit := h.split
  rw [hpart, List.nil_append] at hsplit
  rcases h.full with hrest | ⟨e, he, hfull⟩
  · exact hne (hsplit.trans hrest)
  · rw [← hsplit] at he
    have hfit := hroom e he
    rw [hbytes, List.length_nil] at hfull
    omega

/-- A call: the buffer, its size, and the memory that it finds. -/
structure GetdentsCall where
  buf : Nat
  size : Nat
  mem : Mem

/-- The call wrote records that show `part`, and nothing outside its buffer. -/
def Delivers (call : GetdentsCall) (out : Except Errno Nat × Mem) (part : List DirEntryRaw) : Prop :=
  ∃ n records, out.1 = .ok n ∧ n ≤ call.size ∧
    (∀ a, a < call.buf ∨ call.buf + n ≤ a → out.2 a = call.mem a) ∧
    parseDirents 0 (load out.2 call.buf n) = some records ∧ List.Forall₂ Dirent.Shows records part

section Calls

variable {s : Shim} {fd : Nat} {call : GetdentsCall} {handle : VirtualFileHandle}

/-- The descriptor is of a directory, and the entries `left` have not been returned. -/
def Lists (fd : Nat) (s : Shim) (left : List DirEntryRaw) : Prop :=
  ∃ handle entries, s.table.map[fd]? = some handle ∧ handle.isDirectory = true ∧
    handle.dirEntries = some entries ∧ entries.drop handle.dirOffset = left

/-- The buffer has room for the next entry, if there is one. -/
def RoomForNext (fd : Nat) (s : Shim) (call : GetdentsCall) : Prop :=
  ∀ handle entries e, s.table.map[fd]? = some handle → handle.dirEntries = some entries →
    entries[handle.dirOffset]? = some e → direntLength e ≤ call.size

/-- What a call does with the entries that are left. -/
theorem getdents64Into_delivers {left : List DirEntryRaw} (hvalid : ∀ e ∈ left, e.Valid)
    (hlists : Lists fd s left) (hroom : RoomForNext fd s call) :
    ∃ part rest, left = part ++ rest ∧
      Delivers call ((getdents64Into fd call.buf call.size s call.mem).1,
        (getdents64Into fd call.buf call.size s call.mem).2.2) part ∧
      ((getdents64Into fd call.buf call.size s call.mem).1 = .ok 0 ↔ left = []) ∧
      (left ≠ [] → part ≠ []) ∧
      Lists fd (getdents64Into fd call.buf call.size s call.mem).2.1 rest := by
  obtain ⟨handle, entries, hmap, hdir, hentries, rfl⟩ := hlists
  obtain ⟨part, rest, hp⟩ : ∃ part rest, Packs call.size handle.dirOffset 0
      (entries.drop handle.dirOffset) part rest := parseDirents_packed hvalid (Nat.zero_le _)
  have hinto : getdents64Into fd call.buf call.size s call.mem =
      (.ok (packGetdents64 call.size handle.dirOffset 0 (entries.drop handle.dirOffset)).1.length,
        { s with table := s.table.setHandle fd { handle with
          dirOffset := (packGetdents64 call.size handle.dirOffset 0 (entries.drop handle.dirOffset)).2 } },
        store call.mem call.buf
          (packGetdents64 call.size handle.dirOffset 0 (entries.drop handle.dirOffset)).1) := by
    rw [getdents64Into, hmap]
    dsimp only
    rw [if_pos hdir, hentries]
    dsimp only
    rw [packBuffer_eq, Nat.zero_add, Nat.add_zero]
  have hhead : ∀ e ∈ (entries.drop handle.dirOffset).head?, direntLength e ≤ call.size := by
    intro e he
    rw [List.head?_drop] at he
    exact hroom handle entries e hmap hentries he
  have hfits := hp.fits
  rw [Nat.zero_add] at hfits
  rw [hinto]
  refine ⟨part, rest, hp.split, ?_, ?_, hp.takes hhead, ?_⟩
  · obtain ⟨records, hrecords, hall⟩ := hp.shows 0 (Nat.dvd_zero _)
    refine ⟨_, records, rfl, hfits, fun a ha => store_other ha, ?_, hall⟩
    dsimp only
    rw [load_store]
    exact hrecords
  · rw [Except.ok.injEq, List.length_eq_zero_iff, hp.eq_nil_iff]
    constructor
    · intro hpart
      by_contra hne
      exact hp.takes hhead hne hpart
    · intro hnil
      have hsplit := hp.split
      rw [hnil] at hsplit
      exact (List.append_eq_nil_iff.mp hsplit.symm).1
  · refine ⟨_, entries, Std.ExtTreeMap.getElem?_insert_self, hdir, hentries, ?_⟩
    dsimp only
    rw [hp.index, ← List.drop_drop, hp.split, List.drop_left]

/-! ## A sequence of calls -/

/-- The state of the shim after a call. -/
def afterGetdents (fd : Nat) (s : Shim) (call : GetdentsCall) : Option Shim :=
  some (getdents64Into fd call.buf call.size s call.mem).2.1

/-- What each call returns, and the memory after it. -/
def runGetdents64 (fd : Nat) : Shim → List GetdentsCall → List (Except Errno Nat × Mem)
  | _, [] => []
  | s, call :: calls =>
    let r := getdents64Into fd call.buf call.size s call.mem
    (r.1, r.2.2) :: runGetdents64 fd r.2.1 calls

/-- The calls deliver `parts`, one each, of the entries that are left: what they deliver is an initial
part of them, and all once there were enough calls; a call returns 0 exactly when none is left. -/
structure DeliversAll (fd : Nat) (s : Shim) (calls : List GetdentsCall) (left : List DirEntryRaw)
    (parts : List (List DirEntryRaw)) : Prop where
  length : parts.length = calls.length
  each : ∀ i call out part, calls[i]? = some call → (runGetdents64 fd s calls)[i]? = some out →
    parts[i]? = some part → Delivers call out part ∧ (out.1 = .ok 0 ↔ (parts.take i).flatten = left)
  order : parts.flatten <+: left
  whole : left.length ≤ calls.length → parts.flatten = left

theorem deliversAll {calls : List GetdentsCall} {left : List DirEntryRaw} (hvalid : ∀ e ∈ left, e.Valid)
    (hlists : Lists fd s left) (hroom : Runs.Meets (afterGetdents fd) (RoomForNext fd) s calls) :
    ∃ parts, DeliversAll fd s calls left parts := by
  induction calls generalizing s left with
  | nil =>
    refine ⟨[], rfl, ?_, List.nil_prefix, ?_⟩
    · intro i call out part hcall
      cases hcall
    · intro hlen
      exact (List.length_eq_zero_iff.mp (Nat.le_zero.mp hlen)).symm
  | cons call calls ih =>
    obtain ⟨part, rest, rfl, hdelivers, hzero, htakes, hnext⟩ :=
      getdents64Into_delivers hvalid hlists hroom.1
    obtain ⟨parts, hall⟩ := ih (fun e he => hvalid e (List.mem_append_right _ he)) hnext
      (hroom.2 _ rfl)
    refine ⟨part :: parts, by simp [hall.length], ?_, ?_, ?_⟩
    · intro i call' out part' hcall hout hpart
      cases i with
      | zero =>
        cases hcall
        cases hout
        cases hpart
        exact ⟨hdelivers, by rw [hzero, List.take_zero, List.flatten_nil, eq_comm]⟩
      | succ i =>
        obtain ⟨hd, hz⟩ := hall.each i call' out part' hcall hout hpart
        exact ⟨hd, by rw [hz, List.take_succ_cons, List.flatten_cons, List.append_cancel_left_eq]⟩
    · rw [List.flatten_cons]
      exact (List.prefix_append_right_inj _).mpr hall.order
    · intro hlen
      rw [List.flatten_cons, hall.whole]
      by_cases hne : part ++ rest = []
      · simp [(List.append_eq_nil_iff.mp hne).2]
      · have hpart : 0 < part.length := List.length_pos_iff.mpr (htakes hne)
        simp only [List.length_append, List.length_cons] at hlen
        omega

/-- Every entry is delivered once, in order, whatever the sizes of the buffers. -/
theorem getdents64_lists {entries : List DirEntryRaw} (hvalid : ∀ e ∈ entries, e.Valid)
    (hmap : s.table.map[fd]? = some handle) (hdir : handle.isDirectory = true)
    (hentries : handle.dirEntries = some entries) (hstart : handle.dirOffset = 0)
    {calls : List GetdentsCall} (hroom : Runs.Meets (afterGetdents fd) (RoomForNext fd) s calls) :
    ∃ parts, DeliversAll fd s calls entries parts :=
  deliversAll hvalid ⟨handle, entries, hmap, hdir, hentries, by rw [hstart, List.drop_zero]⟩ hroom

/-- Buffers with room for any entry have room for the next. -/
theorem room_of_forall {entries : List DirEntryRaw} {calls : List GetdentsCall}
    (hlong : ∀ call ∈ calls, ∀ e ∈ entries, direntLength e ≤ call.size)
    (h : ∀ handle, s.table.map[fd]? = some handle → handle.dirEntries = some entries) :
    Runs.Meets (afterGetdents fd) (RoomForNext fd) s calls := by
  induction calls generalizing s with
  | nil => trivial
  | cons call calls ih =>
    refine ⟨fun handle es e hmap hes he => ?_, fun t ht => ih ?_ ?_⟩
    · rw [h handle hmap] at hes
      cases hes
      exact hlong call List.mem_cons_self e (List.mem_of_getElem? he)
    · exact fun c hc => hlong c (List.mem_cons_of_mem _ hc)
    · cases ht
      intro handle hmap
      unfold getdents64Into at hmap
      cases hold : s.table.map[fd]? with
      | none =>
        rw [hold] at hmap
        exact absurd (hold.symm.trans hmap) (by simp)
      | some old =>
        rw [hold] at hmap
        dsimp only at hmap
        split at hmap
        · rw [h old hold] at hmap
          dsimp only [FdTable.setHandle] at hmap
          rw [Std.ExtTreeMap.getElem?_insert_self] at hmap
          cases hmap
          rfl
        · exact h handle hmap

end Calls

namespace Sample

/-- A file `a` and a directory `bb`. -/
def listing : List DirEntryRaw := [⟨[97], 1, 8⟩, ⟨[98, 98], 2, 4⟩]

def listingShim : Shim :=
  ⟨⟨Asked.init ⟨.none, 0⟩, StatCache.new StatCache.defaultCapacity⟩,
    (FdTable.new 10000).setHandle 10000 ⟨[47, 119], 0, 0, none, true, some listing, 0⟩⟩

/-- Three calls with room for one record. -/
def listingCalls : List GetdentsCall := List.replicate 3 ⟨4096, 24, fun _ => 255⟩

end Sample

theorem getdents64_lists_two :
    ∃ parts, DeliversAll 10000 Sample.listingShim Sample.listingCalls Sample.listing parts := by
  have hvalid : ∀ e ∈ Sample.listing, e.Valid := by
    intro e he
    simp only [Sample.listing, List.mem_cons, List.not_mem_nil, or_false] at he
    rcases he with rfl | rfl
    · exact ⟨by decide, by decide, by decide, by decide⟩
    · exact ⟨by decide, by decide, by decide, by decide⟩
  have hlong : ∀ call ∈ Sample.listingCalls, ∀ e ∈ Sample.listing, direntLength e ≤ call.size := by
    intro call hcall
    obtain rfl := List.eq_of_mem_replicate hcall
    decide
  refine getdents64_lists hvalid Std.ExtTreeMap.getElem?_insert_self rfl rfl rfl (room_of_forall hlong ?_)
  · intro handle hmap
    rw [Sample.listingShim, FdTable.setHandle, Std.ExtTreeMap.getElem?_insert_self] at hmap
    cases hmap
    rfl

end KinVfs
