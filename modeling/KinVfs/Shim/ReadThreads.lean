import KinVfs.Lib.Pieces
import KinVfs.Shim.Versions

/-!
# Reads between threads (`crates/kin-vfs-shim/src/intercept.rs`, `read`)

The threads of a process share one descriptor table, behind a lock. A read that finds its bytes in the
handle serves them and advances the offset under the lock. Otherwise it takes the offset, lets the lock
go while the daemon answers, and takes it again to advance whatever then stands under the number. The two
halves are steps of their own here, and the threads take turns in any order. Alone, a thread does what
the hook `read` says (`read_alone`).

The reads of one open return consecutive pieces of the file, and none moves a later open, exactly when
nothing is returned or opened in the way between the two halves (`delivers_once_iff`).
-/

namespace KinVfs

open Fallible Pieces

/-- A file that is opened; its length is a `u64`. -/
structure OpenedFile where
  path : Bytes
  content : Bytes
  fits : content.length ≤ u64Max

/-- An open that gave out a descriptor. -/
structure Opening extends OpenedFile where
  fd : Nat

/-- A read that waits for the daemon, with what it took from the handle. The last three fields are
history: the open it reads from, how many opens there had been, and how many bytes that open had
returned. -/
structure Asking where
  fd : Nat
  path : Bytes
  offset : Nat
  bytesToRead : Nat
  size : Nat
  opening : Nat
  started : Nat
  returned : Nat

/-- An offset that a read advanced: of which open, and how many there had been when the read started. -/
structure Advance where
  opening : Nat
  started : Nat
  deriving DecidableEq

/-- The shared table and the threads. The other fields are history, read by no step: the opens in their
order, the open that a number was given out for last, what each open has returned, and the offsets that
were advanced. -/
structure ReadThreads where
  table : FdTable
  pc : Nat → Option Asking
  openings : List Opening
  holder : Nat → Nat
  served : Nat → List (Piece UInt8)
  advanced : List Advance

inductive ReadAct where
  | openFile (file : OpenedFile)
  | close (fd : Nat)
  | read (fd count : Nat)
  /-- The daemon's answer; `g'` is the provider when it reads the length. -/
  | answer (g g' : ContentProvider)

/-- What the daemon answers, if the client takes it. -/
def Asking.ask (a : Asking) (roots : List Bytes) (g g' : ContentProvider) : Option Bytes :=
  (graphReadRange g roots g' a.offset a.bytesToRead a.size a.path ⟨.none, 0⟩).1

namespace ReadThreads

def init (base : Nat) : ReadThreads := ⟨.new base, fun _ => none, [], fun _ => 0, fun _ => [], []⟩

/-- A small file is kept in the handle (`open_read_payload`). -/
def openFile (s : ReadThreads) (file : OpenedFile) : ReadThreads :=
  let content := if file.content.length ≤ smallFileThreshold then some file.content else none
  match s.table.allocate file.path file.content.length content with
  | (none, table) => { s with table := table }
  | (some fd, table) =>
    { s with
      table := table
      openings := s.openings ++ [{ file with fd := fd }]
      holder := Function.update s.holder fd s.openings.length }

def close (s : ReadThreads) (fd : Nat) : ReadThreads := { s with table := (s.table.close fd).2 }

/-- A read of the open `i` returns. -/
def deliver (s : ReadThreads) (i : Nat) (piece : Piece UInt8) : ReadThreads :=
  { s with served := Function.update s.served i (s.served i ++ [piece]) }

def advance (s : ReadThreads) (fd started n : Nat) : ReadThreads :=
  { s with
    table := (s.table.advanceOffset fd n).2
    advanced := if fd ∈ s.table.map then s.advanced ++ [⟨s.holder fd, started⟩] else s.advanced }

/-- The first half of `read`, under the lock. A number that the table lacks is the kernel's. -/
def startRead (s : ReadThreads) (t fd count : Nat) : ReadThreads :=
  match s.table.map[fd]? with
  | none => s
  | some handle =>
    if handle.size ≤ handle.offset then s.deliver (s.holder fd) ⟨handle.offset, []⟩
    else
      let bytesToRead := min count (handle.size - handle.offset)
      if bytesToRead = 0 then s.deliver (s.holder fd) ⟨handle.offset, []⟩
      else
        match cachedSlice handle handle.offset bytesToRead with
        | some slice =>
          (s.deliver (s.holder fd) ⟨handle.offset, slice⟩).advance fd s.openings.length slice.length
        | none =>
          { s with pc := Function.update s.pc t (some {
              fd := fd
              path := handle.path
              offset := handle.offset
              bytesToRead := bytesToRead
              size := handle.size
              opening := s.holder fd
              started := s.openings.length
              returned := size (s.served (s.holder fd)) }) }

/-- The second half: an answer that the client refuses is `EIO`. -/
def finishRead (s : ReadThreads) (roots : List Bytes) (t : Nat) (a : Asking) (g g' : ContentProvider) :
    ReadThreads :=
  let s := { s with pc := Function.update s.pc t none }
  match a.ask roots g g' with
  | none => s
  | some data =>
    let n := min data.length a.bytesToRead
    (s.deliver a.opening ⟨a.offset, data.take n⟩).advance a.fd a.started n

def step (roots : List Bytes) (s : ReadThreads) : Nat × ReadAct → Option ReadThreads
  | (t, act) =>
    match s.pc t, act with
    | none, .openFile file => some (s.openFile file)
    | none, .close fd => some (s.close fd)
    | none, .read fd count => some (s.startRead t fd count)
    | some a, .answer g g' => some (s.finishRead roots t a g g')
    | _, _ => none

end ReadThreads

/-- What the reads of each open have returned are disjoint consecutive pieces of its file from the start,
and each offset that was advanced is of an open from before the read. -/
structure DeliversOnce (s : ReadThreads) : Prop where
  served : ∀ i o, s.openings[i]? = some o → InPieces o.content (s.served i)
  advanced : ∀ a ∈ s.advanced, a.opening < a.started

/-- Together they are a prefix of the file. -/
theorem DeliversOnce.prefix_flatMap {s : ReadThreads} {i : Nat} {o : Opening} (h : DeliversOnce s)
    (ho : s.openings[i]? = some o) :
    ∃ order : List (Piece UInt8), order.Perm (s.served i) ∧ order.flatMap (·.data) <+: o.content := by
  obtain ⟨order, hperm, hc⟩ := h.served i o ho
  exact ⟨order, hperm, hc.prefix_flatMap⟩

/-- Ranges at `key` are answered from `content`, or refused. -/
def AnswersFrom (g : ContentProvider) (key : VfsPath) (content : Bytes) : Prop :=
  ∀ offset len data, 0 < len → offset < content.length → g.readRange key offset len = .ok data →
    data <+: content.drop offset

/-- A file does not change as long as a descriptor of it is open. -/
def FixedWhileOpen (roots : List Bytes) (s : ReadThreads) : Nat × ReadAct → Prop
  | (_, .answer g _) => ∀ fd handle o key, s.table.map[fd]? = some handle →
      s.openings[s.holder fd]? = some o → graphRequestKey roots handle.path = some key →
      AnswersFrom g key o.content
  | _ => True

/-- When a read is about to return what the daemon answered, its open has returned nothing since the read
took the offset, and the number is still of that open; if it is closed, the answer is still of the file as
it was open. -/
def Uninterrupted (roots : List Bytes) (s : ReadThreads) : Nat × ReadAct → Prop
  | (t, .answer g g') => ∀ a data, s.pc t = some a → a.ask roots g g' = some data →
      size (s.served a.opening) = a.returned ∧ (a.fd ∈ s.table.map → s.holder a.fd = a.opening) ∧
      (a.fd ∉ s.table.map → ∀ o, s.openings[a.opening]? = some o → data <+: o.content.drop a.offset)
  | _ => True

/-! ## The invariant -/

/-- The handle of an open that has returned so many bytes. -/
structure VirtualFileHandle.Of (handle : VirtualFileHandle) (o : Opening) (returned : Nat) : Prop where
  path : handle.path = o.path
  size : handle.size = o.content.length
  cached : handle.cachedContent = none ∨ handle.cachedContent = some o.content
  offset : handle.offset = returned

/-- The read started on this open, and has bytes to read. -/
structure Asking.Of (a : Asking) (o : Opening) : Prop where
  fd : a.fd = o.fd
  path : a.path = o.path
  size : a.size = o.content.length
  offset : a.offset = a.returned
  some : 0 < a.bytesToRead
  within : a.offset + a.bytesToRead ≤ a.size
  started : a.opening < a.started

namespace ReadThreads

/-- The number of the read is of its open, or of a later one. -/
structure Reading (s : ReadThreads) (a : Asking) : Prop where
  of : ∃ o, s.openings[a.opening]? = some o ∧ a.Of o
  returned : a.returned ≤ size (s.served a.opening)
  started : a.started ≤ s.openings.length
  holder : s.holder a.fd = a.opening ∨ a.started ≤ s.holder a.fd

/-- Each handle is of the last open of its number, and stands where that open's reads ended. -/
structure Inv (s : ReadThreads) : Prop where
  opened : ∀ fd handle, s.table.map[fd]? = some handle → ∃ o, s.openings[s.holder fd]? = some o ∧
    o.fd = fd ∧ handle.Of o (size (s.served (s.holder fd)))
  reading : ∀ t a, s.pc t = some a → s.Reading a
  served : ∀ i o, s.openings[i]? = some o → Consecutive o.content 0 (s.served i)
  fresh : ∀ i, s.openings.length ≤ i → s.served i = []
  advanced : ∀ a ∈ s.advanced, a.opening < a.started

variable {s s' : ReadThreads} {roots : List Bytes} {t : Nat}

theorem step_openFile (hpc : s.pc t = none) (file : OpenedFile) :
    s.step roots (t, .openFile file) = some (s.openFile file) := by simp only [step, hpc]

theorem step_read (hpc : s.pc t = none) (fd count : Nat) :
    s.step roots (t, .read fd count) = some (s.startRead t fd count) := by simp only [step, hpc]

theorem step_answer {a : Asking} (hpc : s.pc t = some a) (g g' : ContentProvider) :
    s.step roots (t, .answer g g') = some (s.finishRead roots t a g g') := by simp only [step, hpc]

theorem Inv.deliversOnce (h : s.Inv) : DeliversOnce s where
  served i o ho := ⟨s.served i, .refl _, h.served i o ho⟩
  advanced := h.advanced

theorem inv_init (base : Nat) : (init base).Inv where
  opened fd handle h := by simp [init, FdTable.new] at h
  reading t a h := nomatch h
  served i o h := by simp [init] at h
  fresh _ _ := rfl
  advanced _ h := nomatch h

/-- A read goes on while others come and go. -/
theorem Reading.mono {a : Asking} (h : s.Reading a) (hopen : s.openings <+: s'.openings)
    (hserved : size (s.served a.opening) ≤ size (s'.served a.opening))
    (hholder : s'.holder a.fd = s.holder a.fd ∨ s.openings.length ≤ s'.holder a.fd) : s'.Reading a where
  of := by
    obtain ⟨o, ho, hof⟩ := h.of
    obtain ⟨more, hmore⟩ := hopen
    obtain ⟨hi, -⟩ := List.getElem?_eq_some_iff.mp ho
    exact ⟨o, by rw [← hmore, List.getElem?_append_left hi, ho], hof⟩
  returned := h.returned.trans hserved
  started := h.started.trans hopen.length_le
  holder := by
    have hold := h.holder
    have hstarted := h.started
    omega

theorem reading_update {pc : Option Asking} (h : ∀ t a, s.pc t = some a → s.Reading a)
    (hpc : ∀ a, pc = some a → s.Reading a) (u : Nat) (a : Asking)
    (ha : Function.update s.pc t pc u = some a) : s.Reading a := by
  by_cases hu : u = t
  · subst hu
    rw [Function.update_self] at ha
    exact hpc a ha
  · rw [Function.update_of_ne hu] at ha
    exact h u a ha

/-- A thread goes on. -/
theorem Inv.goto (h : s.Inv) (t : Nat) {pc : Option Asking} (hpc : ∀ a, pc = some a → s.Reading a) :
    Inv { s with pc := Function.update s.pc t pc } :=
  { h with
    reading := fun u a ha =>
      (reading_update h.reading hpc u a ha).mono List.prefix_rfl (Nat.le_refl _) (.inl rfl) }

theorem getElem?_close {fd fd' : Nat} {handle : VirtualFileHandle}
    (h : (s.close fd).table.map[fd']? = some handle) : s.table.map[fd']? = some handle := by
  have h' : (s.table.map.erase fd)[fd']? = some handle := h
  rw [Std.ExtTreeMap.getElem?_erase] at h'
  split at h'
  · cases h'
  · exact h'

theorem Inv.close (h : s.Inv) (fd : Nat) : (s.close fd).Inv :=
  { h with
    opened := fun fd' handle hmap => h.opened fd' handle (getElem?_close hmap)
    reading := fun t a ha => (h.reading t a ha).mono List.prefix_rfl (Nat.le_refl _) (.inl rfl) }

/-- A new open has returned nothing, and its number was free. -/
theorem Inv.openFile (h : s.Inv) (file : OpenedFile) : (s.openFile file).Inv := by
  unfold ReadThreads.openFile
  dsimp only
  split
  · rename_i table ha
    have hmap : table.map = s.table.map := FdTable.insertNew_none ha
    exact { h with
      opened := fun fd handle hfd => h.opened fd handle (hmap ▸ hfd)
      reading := fun t a ha => (h.reading t a ha).mono List.prefix_rfl (Nat.le_refl _) (.inl rfl) }
  · rename_i fd table ha
    obtain ⟨hfree, hmap⟩ := FdTable.insertNew_spec ha
    refine { h with opened := ?_, reading := ?_, served := ?_, fresh := ?_ }
    · intro fd' handle hfd
      dsimp only at hfd ⊢
      rw [hmap, Std.ExtTreeMap.getElem?_insert] at hfd
      split at hfd
      · rename_i heq
        obtain rfl := Nat.compare_eq_eq.mp heq
        cases hfd
        rw [Function.update_self]
        refine ⟨{ file with fd := fd }, List.getElem?_concat_length, rfl, rfl, rfl, ?_, ?_⟩
        · dsimp only
          split
          · rename_i hsmall
            exact .inr (by simp [VirtualFileHandle.file, hsmall])
          · exact .inl rfl
        · rw [h.fresh _ (Nat.le_refl _)]
          rfl
      · rename_i hne
        have hne' : fd' ≠ fd := fun heq => hne (Nat.compare_eq_eq.mpr heq.symm)
        obtain ⟨o, ho, hof⟩ := h.opened fd' handle hfd
        obtain ⟨hi, -⟩ := List.getElem?_eq_some_iff.mp ho
        rw [Function.update_of_ne hne']
        exact ⟨o, by rw [List.getElem?_append_left hi, ho], hof⟩
    · intro t a ha
      refine (h.reading t a ha).mono (List.prefix_append _ _) (Nat.le_refl _) ?_
      dsimp only
      by_cases hfd : a.fd = fd
      · rw [hfd, Function.update_self]
        exact .inr (Nat.le_refl _)
      · exact .inl (Function.update_of_ne hfd _ _)
    · intro i o ho
      by_cases hi : i < s.openings.length
      · rw [List.getElem?_append_left hi] at ho
        exact h.served i o ho
      · rw [h.fresh i (Nat.le_of_not_lt hi)]
        trivial
    · intro i hi
      rw [List.length_append] at hi
      exact h.fresh i (by omega)

/-- Where an open is recorded, its number is. -/
theorem Inv.holder_ne (h : s.Inv) {i fd : Nat} {o : Opening} {handle : VirtualFileHandle}
    (ho : s.openings[i]? = some o) (hmap : s.table.map[fd]? = some handle) (hne : fd ≠ o.fd) :
    s.holder fd ≠ i := by
  rintro rfl
  obtain ⟨o', ho', hfd, -⟩ := h.opened fd handle hmap
  rw [ho] at ho'
  cases ho'
  exact hne hfd.symm

theorem reading_deliver {i : Nat} {piece : Piece UInt8} {a : Asking} (h : s.Reading a) :
    (s.deliver i piece).Reading a := by
  refine h.mono List.prefix_rfl ?_ (.inl rfl)
  unfold deliver
  dsimp only
  by_cases hi : a.opening = i
  · subst hi
    rw [Function.update_self, size_append]
    exact Nat.le_add_right _ _
  · rw [Function.update_of_ne hi]

/-- The next piece of an open. -/
theorem served_deliver (h : s.Inv) {i : Nat} {piece : Piece UInt8} {o : Opening}
    (ho : s.openings[i]? = some o) (hoff : piece.offset = size (s.served i))
    (hdata : piece.data <+: o.content.drop piece.offset) (j : Nat) (o' : Opening)
    (ho' : s.openings[j]? = some o') : Consecutive o'.content 0 ((s.deliver i piece).served j) := by
  unfold deliver
  dsimp only
  by_cases hj : j = i
  · subst hj
    rw [ho] at ho'
    cases ho'
    rw [Function.update_self]
    exact (h.served j o ho).append (by omega) hdata
  · rw [Function.update_of_ne hj]
    exact h.served j o' ho'

theorem fresh_deliver (h : s.Inv) {i : Nat} {piece : Piece UInt8} {o : Opening}
    (ho : s.openings[i]? = some o) (j : Nat) (hj : s.openings.length ≤ j) :
    (s.deliver i piece).served j = [] := by
  obtain ⟨hi, -⟩ := List.getElem?_eq_some_iff.mp ho
  exact (Function.update_of_ne (by omega) _ _).trans (h.fresh j hj)

/-- A read that returns nothing leaves the offset. -/
theorem Inv.deliver_nil (h : s.Inv) {fd : Nat} {handle : VirtualFileHandle}
    (hmap : s.table.map[fd]? = some handle) :
    (s.deliver (s.holder fd) ⟨handle.offset, []⟩).Inv := by
  obtain ⟨o, ho, -, hof⟩ := h.opened fd handle hmap
  refine { h with
    opened := ?_
    reading := fun t a ha => reading_deliver (h.reading t a ha)
    served := served_deliver h ho hof.offset List.nil_prefix
    fresh := fresh_deliver h ho }
  intro fd' handle' hmap'
  obtain ⟨o', ho', hfd', hof'⟩ := h.opened fd' handle' hmap'
  refine ⟨o', ho', hfd', hof'.path, hof'.size, hof'.cached, ?_⟩
  unfold ReadThreads.deliver
  dsimp only
  rw [hof'.offset]
  by_cases heq : s.holder fd' = s.holder fd
  · rw [heq, Function.update_self]
    simp
  · rw [Function.update_of_ne heq]

/-- A read that returns the next piece moves the descriptor of its open behind that piece. -/
theorem Inv.deliver_advance (h : s.Inv) {i started : Nat} {piece : Piece UInt8} {o : Opening}
    (ho : s.openings[i]? = some o) (hoff : piece.offset = size (s.served i))
    (hdata : piece.data <+: o.content.drop piece.offset)
    (hlen : piece.offset + piece.data.length ≤ o.content.length)
    (hheld : o.fd ∈ s.table.map → s.holder o.fd = i) (hstarted : i < started) :
    ((s.deliver i piece).advance o.fd started piece.data.length).Inv := by
  refine { h with
    opened := ?_
    reading := fun t a ha =>
      (reading_deliver (h.reading t a ha)).mono List.prefix_rfl (Nat.le_refl _) (.inl rfl)
    served := served_deliver h ho hoff hdata
    fresh := fresh_deliver h ho
    advanced := ?_ }
  · intro fd handle hmap
    unfold ReadThreads.advance ReadThreads.deliver FdTable.advanceOffset at hmap
    unfold ReadThreads.advance ReadThreads.deliver
    dsimp only at hmap ⊢
    cases hat : s.table.map[o.fd]? with
    | none =>
      rw [hat] at hmap
      have hne : fd ≠ o.fd := by
        rintro rfl
        rw [hat] at hmap
        cases hmap
      rw [Function.update_of_ne (h.holder_ne ho hmap hne)]
      exact h.opened fd handle hmap
    | some old =>
      rw [hat] at hmap
      simp only [FdTable.setHandle, Std.ExtTreeMap.getElem?_insert] at hmap
      split at hmap
      · rename_i heq
        obtain rfl := Nat.compare_eq_eq.mp heq
        cases hmap
        have hi : s.holder o.fd = i := hheld (Std.ExtTreeMap.mem_iff_isSome_getElem?.mpr (by rw [hat]; rfl))
        obtain ⟨o', ho', hfd, hof⟩ := h.opened o.fd old hat
        rw [hi, ho] at ho'
        cases ho'
        rw [hi, Function.update_self]
        refine ⟨o, ho, rfl, hof.path, hof.size, hof.cached, ?_⟩
        have hold := hof.offset
        have hfits := o.fits
        rw [hi] at hold
        simp only [size_append, size_cons, size_nil]
        unfold u64Max at hfits
        omega
      · rename_i hne
        have hne' : fd ≠ o.fd := fun heq => hne (Nat.compare_eq_eq.mpr heq.symm)
        rw [Function.update_of_ne (h.holder_ne ho hmap hne')]
        exact h.opened fd handle hmap
  · intro a ha
    unfold ReadThreads.advance ReadThreads.deliver at ha
    dsimp only at ha
    split at ha
    · rename_i hmem
      rcases List.mem_append.mp ha with ha | ha
      · exact h.advanced a ha
      · rw [List.mem_singleton.mp ha]
        exact (hheld hmem).trans_lt hstarted
    · exact h.advanced a ha

/-- What the handle has of a range is of the file. -/
theorem cachedSlice_of {handle : VirtualFileHandle} {o : Opening} {returned offset n : Nat} {slice : Bytes}
    (h : handle.Of o returned) (hs : cachedSlice handle offset n = some slice) :
    slice <+: o.content.drop offset ∧ offset + slice.length ≤ o.content.length := by
  unfold cachedSlice at hs
  rcases h.cached with hc | hc
  · rw [hc] at hs
    cases hs
  · rw [hc] at hs
    dsimp only at hs
    split at hs
    · rename_i hlt
      cases hs
      refine ⟨List.take_prefix _ _, ?_⟩
      rw [List.length_take, List.length_drop]
      omega
    · cases hs

/-- The first half of a read. -/
theorem Inv.startRead (h : s.Inv) (t fd count : Nat) : (s.startRead t fd count).Inv := by
  unfold ReadThreads.startRead
  cases hmap : s.table.map[fd]? with
  | none => exact h
  | some handle =>
    obtain ⟨o, ho, hfd, hof⟩ := h.opened fd handle hmap
    have hlt : s.holder fd < s.openings.length := (List.getElem?_eq_some_iff.mp ho).1
    dsimp only
    split
    · exact h.deliver_nil hmap
    · rename_i hend
      split
      · exact h.deliver_nil hmap
      · rename_i hsome
        cases hslice : cachedSlice handle handle.offset (min count (handle.size - handle.offset)) with
        | some slice =>
          obtain ⟨hpre, hlen⟩ := cachedSlice_of hof hslice
          rw [← hfd]
          rw [← hfd] at ho hof hlt
          exact h.deliver_advance ho hof.offset hpre hlen (fun _ => rfl) hlt
        | none =>
          refine h.goto t fun a ha => ?_
          cases ha
          refine ⟨⟨o, ho, hfd.symm, hof.path, hof.size, hof.offset, ?_, ?_, hlt⟩, Nat.le_refl _,
            Nat.le_refl _, .inl rfl⟩
          · dsimp only
            omega
          · dsimp only
            omega

/-- The client takes what has the length it asked for. -/
theorem ask_eq_some {a : Asking} {g g' : ContentProvider} {data : Bytes} (hpos : 0 < a.bytesToRead)
    (h : a.ask roots g g' = some data) :
    ∃ key, graphRequestKey roots a.path = some key ∧
      g.readRange key a.offset a.bytesToRead = .ok data ∧
      data.length = min a.bytesToRead (a.size - a.offset) := by
  unfold Asking.ask graphReadRange graphCall at h
  split at h
  · cases h
  · rename_i key hkey
    obtain ⟨hread, hlen, -⟩ := clientReadRange_eq_some hpos h
    exact ⟨key, hkey, hread, hlen⟩

/-- The answer that a read returns has the length it asked for. -/
theorem ask_length {a : Asking} {o : Opening} {g g' : ContentProvider} {data : Bytes} (hof : a.Of o)
    (h : a.ask roots g g' = some data) : data.length = a.bytesToRead := by
  obtain ⟨-, -, -, hlen⟩ := ask_eq_some hof.some h
  have hwithin := hof.within
  omega

/-- The second half, when it returns what was answered. -/
theorem finishRead_of_ask {a : Asking} {o : Opening} {g g' : ContentProvider} {data : Bytes}
    (hof : a.Of o) (h : a.ask roots g g' = some data) :
    s.finishRead roots t a g g' =
      (ReadThreads.deliver { s with pc := Function.update s.pc t none } a.opening
        ⟨a.offset, data⟩).advance o.fd a.started data.length := by
  have hlen := ask_length hof h
  unfold finishRead
  dsimp only
  rw [h, ← hof.fd]
  dsimp only
  rw [Nat.min_eq_left (Nat.le_of_eq hlen), List.take_length]

/-- An answer to a read of an open descriptor is of its file. -/
theorem ask_of_fixed {a : Asking} {o : Opening} {g g' : ContentProvider} {data : Bytes} (h : s.Inv)
    (hfixed : FixedWhileOpen roots s (t, .answer g g')) (ho : s.openings[a.opening]? = some o)
    (hof : a.Of o) (hmem : a.fd ∈ s.table.map) (hheld : s.holder a.fd = a.opening)
    (hask : a.ask roots g g' = some data) : data <+: o.content.drop a.offset := by
  obtain ⟨key, hkey, hread, -⟩ := ask_eq_some hof.some hask
  obtain ⟨handle, hmap⟩ := Option.isSome_iff_exists.mp (Std.ExtTreeMap.mem_iff_isSome_getElem?.mp hmem)
  obtain ⟨o', ho', -, hof'⟩ := h.opened a.fd handle hmap
  rw [hheld, ho] at ho'
  cases ho'
  have hpath : graphRequestKey roots handle.path = some key := by rw [hof'.path, ← hof.path, hkey]
  have hpos := hof.some
  have hwithin := hof.within
  have hsize := hof.size
  exact hfixed a.fd handle o key hmap (hheld ▸ ho) hpath _ _ _ hpos (by omega) hread

theorem Inv.finishRead (h : s.Inv) {a : Asking} {g g' : ContentProvider} (hpc : s.pc t = some a)
    (hfixed : FixedWhileOpen roots s (t, .answer g g'))
    (hun : Uninterrupted roots s (t, .answer g g')) : (s.finishRead roots t a g g').Inv := by
  have hidle : Inv { s with pc := Function.update s.pc t none } := h.goto t fun a ha => nomatch ha
  obtain ⟨⟨o, ho, hof⟩, -, -, -⟩ := h.reading t a hpc
  cases hask : a.ask roots g g' with
  | none =>
    unfold ReadThreads.finishRead
    rw [hask]
    exact hidle
  | some data =>
    obtain ⟨hreturned, hheld, hclosed⟩ := hun a data hpc hask
    have hdata : data <+: o.content.drop a.offset := by
      by_cases hmem : a.fd ∈ s.table.map
      · exact ask_of_fixed h hfixed ho hof hmem (hheld hmem) hask
      · exact hclosed hmem o ho
    have hlen := ask_length hof hask
    have hwithin := hof.within
    have hsize := hof.size
    rw [finishRead_of_ask hof hask]
    refine hidle.deliver_advance ho (hof.offset.trans hreturned.symm) hdata ?_ ?_ hof.started
    · dsimp only
      omega
    · rw [← hof.fd]
      exact hheld

/-- One step of a thread. -/
theorem step_inv {l : Nat × ReadAct} (h : s.Inv) (hfixed : FixedWhileOpen roots s l)
    (hun : Uninterrupted roots s l) (hstep : s.step roots l = some s') : s'.Inv := by
  obtain ⟨t, act⟩ := l
  unfold step at hstep
  dsimp only at hstep
  split at hstep
  · cases hstep
    exact h.openFile _
  · cases hstep
    exact h.close _
  · cases hstep
    exact h.startRead _ _ _
  · rename_i hpc
    cases hstep
    exact h.finishRead hpc hfixed hun
  · cases hstep

/-! ## What the property asks of a step -/

theorem uninterrupted_of_deliversOnce {l : Nat × ReadAct} (h : s.Inv) (hstep : s.step roots l = some s')
    (hq : DeliversOnce s') : Uninterrupted roots s l := by
  obtain ⟨t, act⟩ := l
  cases act with
  | answer g g' =>
    intro a data hpc hask
    obtain ⟨⟨o, ho, hof⟩, hreturned, -, hholder⟩ := h.reading t a hpc
    have hs' : s.finishRead roots t a g g' = s' := by
      rw [step_answer hpc] at hstep
      exact Option.some.inj hstep
    rw [finishRead_of_ask hof hask] at hs'
    subst hs'
    have hall : InPieces o.content (s.served a.opening ++ [⟨a.offset, data⟩]) := by
      have hserved := hq.served a.opening o ho
      unfold advance deliver at hserved
      dsimp only at hserved
      rwa [Function.update_self] at hserved
    have hlen := ask_length hof hask
    have hpos := hof.some
    refine ⟨?_, fun hmem => ?_, fun _ o' ho' => ?_⟩
    · -- The piece starts where the others of its open end.
      have hdata : data ≠ [] := by
        rintro rfl
        rw [List.length_nil] at hlen
        omega
      have hle : size (s.served a.opening) ≤ a.offset := InPieces.le_offset (h.served _ o ho) hall hdata
      have hoff := hof.offset
      omega
    · -- A later open of the number would have been moved.
      rcases hholder with hholder | hholder
      · exact hholder
      · have hadv := hq.advanced ⟨s.holder a.fd, a.started⟩ (by
          unfold advance deliver
          dsimp only
          rw [← hof.fd, if_pos hmem]
          exact List.mem_append_right _ (List.mem_singleton_self _))
        exact absurd hadv (Nat.not_lt.mpr hholder)
    · rw [ho] at ho'
      cases ho'
      exact hall.prefix_of_mem (List.mem_append_right _ (List.mem_singleton_self _))
  | openFile | close | read => trivial

/-! ## A thread alone -/

/-- What was told before does not matter to the answer. -/
theorem ask_eq (a : Asking) (g g' : ContentProvider) (last : LastCall) :
    a.ask roots g g' = (graphReadRange g roots g' a.offset a.bytesToRead a.size a.path last).1 := by
  unfold Asking.ask graphReadRange graphCall
  split <;> rfl

/-- A read that finds nothing in the handle asks. -/
theorem startRead_asks {fd count : Nat} {handle : VirtualFileHandle}
    (hmap : s.table.map[fd]? = some handle) (hlt : ¬ handle.size ≤ handle.offset)
    (hsome : ¬ min count (handle.size - handle.offset) = 0)
    (hslice : cachedSlice handle handle.offset (min count (handle.size - handle.offset)) = none) :
    s.startRead t fd count = { s with pc := Function.update s.pc t (some {
      fd := fd
      path := handle.path
      offset := handle.offset
      bytesToRead := min count (handle.size - handle.offset)
      size := handle.size
      opening := s.holder fd
      started := s.openings.length
      returned := size (s.served (s.holder fd)) }) } := by
  unfold startRead
  rw [hmap]
  dsimp only
  rw [if_neg hlt, if_neg hsome, hslice]

theorem cachedSlice_ne_nil {handle : VirtualFileHandle} {offset n : Nat} {slice : Bytes} (hn : ¬ n = 0)
    (h : cachedSlice handle offset n = some slice) : slice ≠ [] := by
  unfold cachedSlice at h
  split at h
  · split at h
    · cases h
      rw [← List.length_pos_iff, List.length_take, List.length_drop]
      omega
    · cases h
  · cases h

/-- The state after a read of the open of `fd`, alone, that gave `r`. -/
structure After (s : ReadThreads) (fd : Nat) (handle : VirtualFileHandle) (r : Except Errno Bytes × Shim)
    (s' : ReadThreads) : Prop where
  table : s'.table = r.2.table
  pc : s'.pc = s.pc
  served : s'.served = match r.1 with
    | .ok data => (s.deliver (s.holder fd) ⟨handle.offset, data⟩).served
    | .error _ => s.served

section Alone

variable {shim : Shim} {fd : Nat} {handle : VirtualFileHandle} (htable : s.table = shim.table)
  (hpc : s.pc t = none) (hmap : s.table.map[fd]? = some handle)

include htable hpc hmap

/-- A read that asks, and then is answered. -/
theorem read_alone_asks {count : Nat} (hlt : ¬ handle.size ≤ handle.offset)
    (hsome : ¬ min count (handle.size - handle.offset) = 0)
    (hslice : cachedSlice handle handle.offset (min count (handle.size - handle.offset)) = none)
    (g g' : ContentProvider) :
    ∃ s', Runs.run (step roots) s [(t, .read fd count), (t, .answer g g')] = some s' ∧
      s.After fd handle (exec (read g roots g' fd count) shim) s' := by
  have hstart : s.step roots (t, .read fd count) = some (s.startRead t fd count) :=
    step_read hpc fd count
  rw [startRead_asks hmap hlt hsome hslice] at hstart
  generalize ha : Asking.mk fd handle.path handle.offset (min count (handle.size - handle.offset))
    handle.size (s.holder fd) s.openings.length (size (s.served (s.holder fd))) = a at hstart
  have hpc₁ : Function.update s.pc t (some a) t = some a := Function.update_self ..
  have hask : (graphReadRange g roots g' handle.offset (min count (handle.size - handle.offset))
      handle.size handle.path shim.last).1 = a.ask roots g g' := by
    rw [ask_eq a g g' shim.last, ← ha]
  have hback : Function.update (Function.update s.pc t (some a)) t none = s.pc := by
    rw [Function.update_idem, ← hpc, Function.update_eq_self]
  refine ⟨ReadThreads.finishRead { s with pc := Function.update s.pc t (some a) } roots t a g g', ?_, ?_⟩
  · rw [Runs.run, hstart, Option.bind_some, Runs.run, step_answer hpc₁]
    rfl
  · unfold read readAt finishRead
    rw [exec_bind, exec_requireHandle (htable ▸ hmap)]
    dsimp only
    rw [if_neg hlt, if_neg hsome, hslice]
    dsimp only
    rw [exec_bind, exec_bind, exec_callGraph, hask]
    cases hdata : a.ask roots g g' with
    | none => exact ⟨htable, hback, rfl⟩
    | some data =>
      have hlen : data.length = min count (handle.size - handle.offset) := by
        subst ha
        obtain ⟨-, -, -, hlen⟩ := ask_eq_some (by dsimp only; omega) hdata
        dsimp only at hlen
        omega
      have hne : data ≠ [] := by
        rintro rfl
        exact hsome hlen.symm
      have hfields : a.fd = fd ∧ a.offset = handle.offset ∧ a.opening = s.holder fd ∧
          min data.length a.bytesToRead = data.length := by
        subst ha
        exact ⟨rfl, rfl, rfl, Nat.min_eq_left (Nat.le_of_eq hlen)⟩
      obtain ⟨hfd, hoff, hopening, hmin⟩ := hfields
      dsimp only [exec_pure]
      rw [hmin, List.take_length, List.take_of_length_le (Nat.le_of_eq hlen), if_neg hne, hfd, hoff,
        hopening]
      exact ⟨congrArg (fun table => (FdTable.advanceOffset table fd data.length).2) htable, hback, rfl⟩

/-- The halves of a read together are the hook: the same table, and its open returned what the hook
returns. -/
theorem read_alone (count : Nat) (g g' : ContentProvider) :
    ∃ acts : List ReadAct, ∃ s', Runs.run (step roots) s (acts.map (t, ·)) = some s' ∧
      s.After fd handle (exec (read g roots g' fd count) shim) s' := by
  by_cases hlt : handle.size ≤ handle.offset
  · refine ⟨[.read fd count], s.deliver (s.holder fd) ⟨handle.offset, []⟩, ?_, ?_⟩
    · simp only [List.map_cons, List.map_nil, Runs.run, step_read hpc, startRead, hmap, if_pos hlt,
        Option.bind_some]
    · unfold read readAt
      rw [exec_bind, exec_requireHandle (htable ▸ hmap)]
      dsimp only
      rw [if_pos hlt]
      exact ⟨htable, rfl, rfl⟩
  · by_cases hsome : min count (handle.size - handle.offset) = 0
    · refine ⟨[.read fd count], s.deliver (s.holder fd) ⟨handle.offset, []⟩, ?_, ?_⟩
      · simp only [List.map_cons, List.map_nil, Runs.run, step_read hpc, startRead, hmap, if_neg hlt,
          if_pos hsome, Option.bind_some]
      · unfold read readAt
        rw [exec_bind, exec_requireHandle (htable ▸ hmap)]
        dsimp only
        rw [if_neg hlt, if_pos hsome]
        exact ⟨htable, rfl, rfl⟩
    · cases hslice : cachedSlice handle handle.offset (min count (handle.size - handle.offset)) with
      | some slice =>
        refine ⟨[.read fd count], (s.deliver (s.holder fd) ⟨handle.offset, slice⟩).advance fd
          s.openings.length slice.length, ?_, ?_⟩
        · simp only [List.map_cons, List.map_nil, Runs.run, step_read hpc, startRead, hmap, if_neg hlt,
            if_neg hsome, hslice, Option.bind_some]
        · unfold read readAt
          rw [exec_bind, exec_requireHandle (htable ▸ hmap)]
          dsimp only
          rw [if_neg hlt, if_neg hsome, hslice]
          dsimp only
          rw [exec_bind]
          dsimp only [exec_pure]
          rw [if_neg (cachedSlice_ne_nil hsome hslice)]
          exact ⟨congrArg (fun table => (FdTable.advanceOffset table fd slice.length).2) htable, rfl, rfl⟩
      | none =>
        obtain ⟨s', hrun, hafter⟩ := read_alone_asks htable hpc hmap hlt hsome hslice g g'
        exact ⟨[.read fd count, .answer g g'], s', hrun, hafter⟩

end Alone

/-- The content that an open hands to the table. -/
theorem exec_openResolved_file {path content : Bytes} {g : ContentProvider} {key : VfsPath}
    {vstat : VirtualStat} {flags : OpenFlags} (strict : Bool) (shim : Shim) (hg : ShowsFile g key content)
    (hp : graphRequestKey roots path = some key) (hstat : g.stat key = .ok vstat)
    (hflags : flags.directory = false) :
    ∃ last, exec (openResolved g roots strict flags (.ok (path, vstat))) shim = exec (do
      match ← allocateVfd path content.length
        (if content.length ≤ smallFileThreshold then some content else none) with
      | some fd => return fd
      | none => throw .eio) (shim.setLast last) := by
  obtain ⟨vstat', hstat', hfile, hdir, -, hsize⟩ := hg.stat
  obtain rfl := Except.ok.inj (hstat'.symm.trans hstat)
  unfold openResolved openReadPayload
  simp only [hdir, hflags, Bool.false_eq_true, ↓reduceIte, hfile, hsize]
  split
  · rw [exec_bind, exec_bind, exec_callGraph, graphReadFile, graphCall_of_key hp]
    simp only [clientReadFile, clientAnswer, hg.readFile, exec_pure]
    exact ⟨_, rfl⟩
  · rw [exec_bind, exec_pure]
    exact ⟨shim.last, rfl⟩

/-- An open is the hook, of a file that the daemon shows. -/
theorem openFile_alone {shim : Shim} {file : OpenedFile} {g : ContentProvider} {key : VfsPath}
    {vstat : VirtualStat} {flags : OpenFlags} {strict : Bool} (htable : s.table = shim.table)
    (hg : ShowsFile g key file.content) (hp : graphRequestKey roots file.path = some key)
    (hstat : g.stat key = .ok vstat) (hflags : flags.directory = false) :
    (s.openFile file).table =
        (exec (openResolved g roots strict flags (.ok (file.path, vstat))) shim).2.table ∧
      (s.openFile file).openings = s.openings ++
        ((exec (openResolved g roots strict flags (.ok (file.path, vstat))) shim).1.toOption.map
          fun fd => { file with fd := fd }).toList := by
  obtain ⟨last, hexec⟩ := exec_openResolved_file strict shim hg hp hstat hflags
  have halloc (size : Nat) (c : Option Bytes) : exec (allocateVfd file.path size c) (shim.setLast last) =
      (.ok (shim.table.allocate file.path size c).1,
        { shim.setLast last with table := (shim.table.allocate file.path size c).2 }) := rfl
  rw [hexec, exec_bind, halloc]
  unfold openFile
  dsimp only
  rw [htable]
  rcases shim.table.allocate file.path file.content.length _ with ⟨_ | fd, table⟩
  · exact ⟨rfl, (List.append_nil _).symm⟩
  · exact ⟨rfl, rfl⟩

/-! ## One file -/

/-- Every descriptor is of the file. -/
structure AllOf (file : OpenedFile) (s : ReadThreads) : Prop where
  path : ∀ (fd : Nat) (handle : VirtualFileHandle), s.table.map[fd]? = some handle →
    handle.path = file.path
  content : ∀ o ∈ s.openings, o.content = file.content

/-- Only the file is opened, and every answer is of it. -/
def OnlyOf (file : OpenedFile) (key : VfsPath) : Nat × ReadAct → Prop
  | (_, .openFile f) => f = file
  | (_, .answer g _) => AnswersFrom g key file.content
  | _ => True

theorem AllOf.of_table {file : OpenedFile} (h : AllOf file s) (hopen : s'.openings = s.openings)
    (hpath : ∀ (fd : Nat) (handle : VirtualFileHandle), s'.table.map[fd]? = some handle →
      ∃ handle', s.table.map[fd]? = some handle' ∧ handle.path = handle'.path) : AllOf file s' where
  path fd handle hmap := by
    obtain ⟨handle', hmap', hp⟩ := hpath fd handle hmap
    rw [hp]
    exact h.path fd handle' hmap'
  content := by
    rw [hopen]
    exact h.content

theorem getElem?_advanceOffset {table : FdTable} {fd n fd' : Nat} {handle : VirtualFileHandle}
    (h : (table.advanceOffset fd n).2.map[fd']? = some handle) :
    ∃ handle', table.map[fd']? = some handle' ∧ handle.path = handle'.path := by
  unfold FdTable.advanceOffset at h
  split at h
  · exact ⟨handle, h, rfl⟩
  · rename_i old hat
    simp only [FdTable.setHandle, Std.ExtTreeMap.getElem?_insert] at h
    split at h
    · rename_i heq
      obtain rfl := Nat.compare_eq_eq.mp heq
      cases h
      exact ⟨old, hat, rfl⟩
    · exact ⟨handle, h, rfl⟩

theorem AllOf.openFile {file : OpenedFile} (h : AllOf file s) : AllOf file (s.openFile file) := by
  unfold ReadThreads.openFile
  dsimp only
  split
  · rename_i ha
    exact ⟨fun fd handle hmap => h.path fd handle (FdTable.insertNew_none ha ▸ hmap), h.content⟩
  · rename_i fd table ha
    obtain ⟨-, hmap⟩ := FdTable.insertNew_spec ha
    refine ⟨fun fd' handle hfd => ?_, fun o ho => ?_⟩
    · dsimp only at hfd
      rw [hmap, Std.ExtTreeMap.getElem?_insert] at hfd
      split at hfd
      · cases hfd
        rfl
      · exact h.path fd' handle hfd
    · rcases List.mem_append.mp ho with ho | ho
      · exact h.content o ho
      · rw [List.mem_singleton.mp ho]

theorem AllOf.startRead {file : OpenedFile} (h : AllOf file s) (t fd count : Nat) :
    AllOf file (s.startRead t fd count) := by
  unfold ReadThreads.startRead
  split
  · exact h
  · dsimp only
    split
    · exact ⟨h.path, h.content⟩
    · split
      · exact ⟨h.path, h.content⟩
      · split
        · exact h.of_table rfl fun _ _ hmap => getElem?_advanceOffset hmap
        · exact ⟨h.path, h.content⟩

theorem AllOf.step {file : OpenedFile} {key : VfsPath} {l : Nat × ReadAct} (h : AllOf file s)
    (hl : OnlyOf file key l) (hstep : s.step roots l = some s') : AllOf file s' := by
  obtain ⟨t, act⟩ := l
  unfold ReadThreads.step at hstep
  dsimp only at hstep
  split at hstep
  · obtain rfl := hl
    cases hstep
    exact h.openFile
  · cases hstep
    exact ⟨fun fd handle hmap => h.path fd handle (getElem?_close hmap), h.content⟩
  · cases hstep
    exact h.startRead _ _ _
  · cases hstep
    unfold finishRead
    dsimp only
    split
    · exact ⟨h.path, h.content⟩
    · exact h.of_table rfl fun _ _ hmap => getElem?_advanceOffset hmap
  · cases hstep

/-- A run on one file that the daemon has all along is one in which no file changes while it is open. -/
theorem meets_fixedWhileOpen (file : OpenedFile) {key : VfsPath} {acts : List (Nat × ReadAct)}
    (hkey : graphRequestKey roots file.path = some key) (base : Nat) (h : ∀ l ∈ acts, OnlyOf file key l) :
    Runs.Meets (step roots) (FixedWhileOpen roots) (init base) acts := by
  refine Runs.meets_of_forall_inv (P := AllOf file) (fun _ _ _ hs hl hx => hs.step hl hx) ?_ ?_ h
  · rintro s ⟨t, act⟩ hs hl
    cases act with
    | answer g g' =>
      intro fd handle o key' hmap ho hkey'
      rw [hs.path fd handle hmap, hkey] at hkey'
      cases hkey'
      rw [hs.content o (List.mem_of_getElem? ho)]
      exact hl
    | openFile | close | read => trivial
  · exact ⟨fun fd handle hmap => by simp [init, FdTable.new] at hmap, fun _ ho => nomatch ho⟩

end ReadThreads

/-- **Concurrent reads.** In a run in which no file changes while it is open, the reads of each open return
disjoint consecutive pieces of the file and none moves a later open, in every state that is reached,
exactly when no answered read was interrupted. -/
theorem delivers_once_iff (roots : List Bytes) (base : Nat) {acts : List (Nat × ReadAct)} {s : ReadThreads}
    (hfixed : Runs.Meets (ReadThreads.step roots) (FixedWhileOpen roots) (.init base) acts)
    (hrun : Runs.run (ReadThreads.step roots) (.init base) acts = some s) :
    (∀ pre post t, acts = pre ++ post →
        Runs.run (ReadThreads.step roots) (.init base) pre = some t → DeliversOnce t) ↔
      Runs.Meets (ReadThreads.step roots) (Uninterrupted roots) (.init base) acts := by
  constructor
  · intro h
    exact Runs.meets_of_inv_of_meets (fun _ _ _ hs hf hu hx => ReadThreads.step_inv hs hf hu hx)
      (fun _ _ _ hs _ hx hq => ReadThreads.uninterrupted_of_deliversOnce hs hx hq)
      (ReadThreads.inv_init base) hfixed hrun h
  · intro hm pre post t hacts ht
    rw [hacts] at hm hfixed
    have hinv : t.Inv := Runs.run_inv_of_meets (fun _ _ _ hs hc hx => ReadThreads.step_inv hs hc.1 hc.2 hx)
      (ReadThreads.inv_init base) ((hfixed.append ht).1.and (hm.append ht).1) ht
    exact hinv.deliversOnce

namespace Sample

/-- `/w/f`, of 65537 zeros. -/
def largeOpened : OpenedFile where
  path := largePath
  content := zeros
  fits := by
    rw [zeros, List.length_replicate]
    decide

/-- It at `pos`. -/
def largeHandle (pos : Nat) : VirtualFileHandle where
  path := largePath
  offset := pos
  size := 65537
  cachedContent := none
  isDirectory := false
  dirEntries := none
  dirOffset := 0

/-- Two threads read a byte, the second one before the first is answered. -/
def overlapping (g : ContentProvider) : List (Nat × ReadAct) :=
  [(0, .openFile largeOpened), (0, .read 10000 1), (1, .read 10000 1), (0, .answer g g), (1, .answer g g)]

/-- Two threads read a byte, the second one after the first is answered. -/
def inTurn (g : ContentProvider) : List (Nat × ReadAct) :=
  [(0, .openFile largeOpened), (0, .read 10000 1), (0, .answer g g), (1, .read 10000 1), (1, .answer g g)]

theorem graphRequestKey_large : graphRequestKey [workspace] largePath = some largeFile := by
  have hroot : hostComponents workspace = .ok (none, [[119]]) := by decide
  exact mapsBack_single hroot _

/-- The file is open as 10000, at `pos`. -/
structure LargeAt (pos : Nat) (s : ReadThreads) : Prop where
  handle : s.table.map[10000]? = some (largeHandle pos)
  openings : s.openings = [{ largeOpened with fd := 10000 }]
  holder : s.holder 10000 = 0

/-- A read of a byte at `pos`, of an open that has returned `n`. -/
def largeAsking (pos n : Nat) : Asking := ⟨10000, largePath, pos, 1, 65537, 0, 1, n⟩

theorem step_open_large : ∃ s, (ReadThreads.init 10000).step [workspace] (0, .openFile largeOpened) = some s ∧
    LargeAt 0 s ∧ s.pc = (fun _ => none) ∧ s.served = fun _ => [] := by
  have hlen : largeOpened.content.length = 65537 := List.length_replicate
  have hlarge : ¬ 65537 ≤ smallFileThreshold := by decide
  have hfirst : ((FdTable.new 10000).allocate largePath 65537 none).1 = some 10000 := by decide
  rcases ha : (FdTable.new 10000).allocate largePath 65537 none with ⟨fd, table⟩
  rw [ha] at hfirst
  obtain rfl : fd = some 10000 := hfirst
  obtain ⟨-, hmap⟩ := FdTable.insertNew_spec ha
  have halloc : (ReadThreads.init 10000).table.allocate largeOpened.path 65537 none = (some 10000, table) :=
    ha
  refine ⟨_, ReadThreads.step_openFile rfl largeOpened, ?_⟩
  unfold ReadThreads.openFile
  dsimp only
  rw [hlen, if_neg hlarge, halloc]
  dsimp only
  refine ⟨⟨?_, rfl, ?_⟩, rfl, rfl⟩
  · dsimp only
    rw [hmap]
    simp [largeHandle, VirtualFileHandle.file]
  · exact Function.update_self 10000 0 fun _ => 0

/-- A read of a byte asks. -/
theorem step_read_large {s : ReadThreads} {pos t : Nat} (h : LargeAt pos s) (hpos : pos < 65537)
    (hpc : s.pc t = none) :
    ∃ s', s.step [workspace] (t, .read 10000 1) = some s' ∧ LargeAt pos s' ∧ s'.served = s.served ∧
      s'.pc = Function.update s.pc t (some (largeAsking pos (size (s.served 0)))) := by
  have hone : min 1 ((largeHandle pos).size - (largeHandle pos).offset) = 1 := by
    dsimp only [largeHandle]
    omega
  refine ⟨_, ReadThreads.step_read hpc 10000 1, ?_⟩
  rw [ReadThreads.startRead_asks h.handle (by dsimp only [largeHandle]; omega) (by rw [hone]; decide) rfl,
    hone, h.holder, h.openings]
  exact ⟨⟨h.handle, rfl, h.holder⟩, rfl, rfl⟩

/-- The byte that is answered. -/
theorem ask_large {g : ContentProvider} (hg : ShowsFile g largeFile zeros) {pos : Nat} (hpos : pos < 65537)
    (n : Nat) : (largeAsking pos n).ask [workspace] g g = some [0] := by
  have hlen : zeros.length = 65537 := List.length_replicate
  have hserve : clientReadRange g g pos 1 65537 largeFile =
      (some ((zeros.drop pos).take 1), ⟨.none, 0⟩) :=
    hlen ▸ clientReadRange_serves hg hg Nat.one_pos (by omega)
  have hbyte : (zeros.drop pos).take 1 = [0] := readAt_replicate 0 hpos
  unfold Asking.ask graphReadRange
  dsimp only [largeAsking]
  rw [graphCall_of_key graphRequestKey_large, hserve, hbyte]

/-- The answered byte is returned, wherever the descriptor stands. -/
theorem step_answer_large {g : ContentProvider} (hg : ShowsFile g largeFile zeros) {s : ReadThreads}
    {pos pos' n t : Nat} (h : LargeAt pos' s) (hpos : pos < 65537) (hpos' : pos' < 65537)
    (hpc : s.pc t = some (largeAsking pos n)) :
    ∃ s', s.step [workspace] (t, .answer g g) = some s' ∧ LargeAt (pos' + 1) s' ∧
      s'.served 0 = s.served 0 ++ [⟨pos, [0]⟩] ∧ s'.pc = Function.update s.pc t none := by
  have hoff : min (pos' + 1) (2 ^ 64 - 1) = pos' + 1 := by omega
  refine ⟨_, ReadThreads.step_answer hpc g g, ?_⟩
  unfold ReadThreads.finishRead
  dsimp only
  rw [ask_large hg hpos]
  dsimp only
  refine ⟨⟨?_, h.openings, h.holder⟩, ?_, rfl⟩
  · simp only [ReadThreads.advance, ReadThreads.deliver, FdTable.advanceOffset, largeAsking, h.handle,
      FdTable.getElem?_setHandle_self]
    simp only [largeHandle, List.length_cons, List.length_nil, Nat.zero_add, Nat.min_self, hoff]
  · exact Function.update_self 0 (s.served 0 ++ [⟨pos, [0]⟩]) s.served

/-- Nothing was returned since it asked. -/
theorem uninterrupted_large {g : ContentProvider} {s : ReadThreads} {pos pos' n t : Nat} (h : LargeAt pos' s)
    (hpc : s.pc t = some (largeAsking pos n)) (hn : size (s.served 0) = n) :
    Uninterrupted [workspace] s (t, .answer g g) := by
  intro a data ha _
  rw [hpc] at ha
  cases ha
  refine ⟨hn, fun _ => h.holder, fun hclosed => ?_⟩
  have hmem : 10000 ∈ s.table.map := Std.ExtTreeMap.mem_iff_isSome_getElem?.mpr (by rw [h.handle]; rfl)
  exact absurd hmem hclosed

theorem answersFrom_large {g : ContentProvider} (hg : ShowsFile g largeFile zeros) :
    AnswersFrom g largeFile largeOpened.content := by
  intro offset len data hlen hoff hread
  rw [hg.readRange offset len hlen hoff] at hread
  cases hread
  exact List.take_prefix _ _

end Sample

/-- Two threads that read in turn are given the first two bytes. -/
theorem delivers_once_in_turn :
    ∃ tree s, CachedTree.fromSnapshot Sample.largeCodec (Sample.largeSnapshot Sample.hashZeros 1) =
        .ok tree ∧
      Runs.run (ReadThreads.step [Sample.workspace]) (.init 10000)
        (Sample.inTurn (tree.provider Sample.largeBlobs)) = some s ∧
      s.served 0 = [⟨0, [0]⟩, ⟨1, [0]⟩] ∧ DeliversOnce s := by
  obtain ⟨tree, v, hf, hv, hg⟩ := Sample.version_of_large Sample.zerosTree_blob rfl
    List.length_replicate
  rw [hv] at hg
  obtain ⟨s₁, h₁, hat₁, hpc₁, hserved₁⟩ := Sample.step_open_large
  obtain ⟨s₂, h₂, hat₂, hserved₂, hpc₂⟩ := Sample.step_read_large (t := 0) hat₁ (by decide) (by rw [hpc₁])
  have hpc₂' : s₂.pc 0 = some (Sample.largeAsking 0 0) := by rw [hpc₂, hserved₁]; rfl
  obtain ⟨s₃, h₃, hat₃, hserved₃, hpc₃⟩ := Sample.step_answer_large hg hat₂ (by decide) (by decide) hpc₂'
  have hserved₃' : s₃.served 0 = [⟨0, [0]⟩] := by rw [hserved₃, hserved₂, hserved₁]; rfl
  obtain ⟨s₄, h₄, hat₄, hserved₄, hpc₄⟩ := Sample.step_read_large (t := 1) hat₃ (by decide)
    (by rw [hpc₃, hpc₂, hpc₁]; rfl)
  have hpc₄' : s₄.pc 1 = some (Sample.largeAsking 1 1) := by rw [hpc₄, hserved₃']; rfl
  obtain ⟨s₅, h₅, -, hserved₅, -⟩ := Sample.step_answer_large hg hat₄ (by decide) (by decide) hpc₄'
  have hserved₅' : s₅.served 0 = [⟨0, [0]⟩, ⟨1, [0]⟩] := by rw [hserved₅, hserved₄, hserved₃']; rfl
  have hrun : Runs.run (ReadThreads.step [Sample.workspace]) (.init 10000)
      (Sample.inTurn (tree.provider Sample.largeBlobs)) = some s₅ := by
    simp only [Sample.inTurn, Runs.run, h₁, h₂, h₃, h₄, h₅, Option.bind_some]
  have hfixed : Runs.Meets (ReadThreads.step [Sample.workspace]) (FixedWhileOpen [Sample.workspace])
      (.init 10000) (Sample.inTurn (tree.provider Sample.largeBlobs)) := by
    refine ReadThreads.meets_fixedWhileOpen Sample.largeOpened Sample.graphRequestKey_large 10000 ?_
    intro l hl
    simp only [Sample.inTurn, List.mem_cons, List.not_mem_nil, or_false] at hl
    rcases hl with rfl | rfl | rfl | rfl | rfl
    exacts [rfl, trivial, Sample.answersFrom_large hg, trivial, Sample.answersFrom_large hg]
  have hun : Runs.Meets (ReadThreads.step [Sample.workspace]) (Uninterrupted [Sample.workspace])
      (.init 10000) (Sample.inTurn (tree.provider Sample.largeBlobs)) := by
    refine .cons trivial h₁ (.cons trivial h₂ (.cons ?_ h₃ (.cons trivial h₄ (.cons ?_ h₅ trivial))))
    · exact Sample.uninterrupted_large hat₂ hpc₂' (by rw [hserved₂, hserved₁]; rfl)
    · exact Sample.uninterrupted_large hat₄ hpc₄' (by rw [hserved₄, hserved₃']; rfl)
  have honce := (delivers_once_iff [Sample.workspace] 10000 hfixed hrun).mpr hun _ [] s₅
    (List.append_nil _).symm hrun
  exact ⟨tree, s₅, hf, hrun, hserved₅', honce⟩

/-- Two threads that read at once are both given the first byte, and the descriptor stands behind the
second. -/
theorem delivers_once_overlapping :
    ∃ tree s, CachedTree.fromSnapshot Sample.largeCodec (Sample.largeSnapshot Sample.hashZeros 1) =
        .ok tree ∧
      Runs.Meets (ReadThreads.step [Sample.workspace]) (FixedWhileOpen [Sample.workspace]) (.init 10000)
        (Sample.overlapping (tree.provider Sample.largeBlobs)) ∧
      Runs.run (ReadThreads.step [Sample.workspace]) (.init 10000)
        (Sample.overlapping (tree.provider Sample.largeBlobs)) = some s ∧
      s.served 0 = [⟨0, [0]⟩, ⟨0, [0]⟩] ∧ s.table.map[10000]? = some (Sample.largeHandle 2) ∧
      ¬ DeliversOnce s := by
  obtain ⟨tree, v, hf, hv, hg⟩ := Sample.version_of_large Sample.zerosTree_blob rfl
    List.length_replicate
  rw [hv] at hg
  obtain ⟨s₁, h₁, hat₁, hpc₁, hserved₁⟩ := Sample.step_open_large
  obtain ⟨s₂, h₂, hat₂, hserved₂, hpc₂⟩ := Sample.step_read_large (t := 0) hat₁ (by decide) (by rw [hpc₁])
  obtain ⟨s₃, h₃, hat₃, hserved₃, hpc₃⟩ := Sample.step_read_large (t := 1) hat₂ (by decide)
    (by rw [hpc₂, hpc₁]; rfl)
  have hpc₃' : s₃.pc 0 = some (Sample.largeAsking 0 0) := by rw [hpc₃, hpc₂, hserved₁]; rfl
  obtain ⟨s₄, h₄, hat₄, hserved₄, hpc₄⟩ := Sample.step_answer_large hg hat₃ (by decide) (by decide) hpc₃'
  have hpc₄' : s₄.pc 1 = some (Sample.largeAsking 0 0) := by
    rw [hpc₄, hpc₃, hserved₂, hserved₁]
    rfl
  obtain ⟨s₅, h₅, hat₅, hserved₅, -⟩ := Sample.step_answer_large hg hat₄ (by decide) (by decide) hpc₄'
  have hserved₅' : s₅.served 0 = [⟨0, [0]⟩, ⟨0, [0]⟩] := by
    rw [hserved₅, hserved₄, hserved₃, hserved₂, hserved₁]
    rfl
  refine ⟨tree, s₅, hf, ?_, ?_, hserved₅', hat₅.handle, fun honce => ?_⟩
  · refine ReadThreads.meets_fixedWhileOpen Sample.largeOpened Sample.graphRequestKey_large 10000 ?_
    intro l hl
    simp only [Sample.overlapping, List.mem_cons, List.not_mem_nil, or_false] at hl
    rcases hl with rfl | rfl | rfl | rfl | rfl
    exacts [rfl, trivial, trivial, Sample.answersFrom_large hg, Sample.answersFrom_large hg]
  · simp only [Sample.overlapping, Runs.run, h₁, h₂, h₃, h₄, h₅, Option.bind_some]
  · have hall : InPieces Sample.zeros ([⟨0, [0]⟩] ++ [⟨0, [0]⟩]) := by
      have hserved := honce.served 0 { Sample.largeOpened with fd := 10000 } (by rw [hat₅.openings]; rfl)
      rwa [hserved₅'] at hserved
    have hfirst : [0] <+: Sample.zeros.drop 0 := hall.prefix_of_mem (p := ⟨0, [0]⟩) List.mem_cons_self
    have hle : size [(⟨0, [0]⟩ : Piece UInt8)] ≤ 0 :=
      InPieces.le_offset (p := ⟨0, [0]⟩) ⟨rfl, hfirst, trivial⟩ hall (by decide)
    exact absurd hle (by decide)

end KinVfs
