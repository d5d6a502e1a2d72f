import Mathlib.Logic.Function.Basic
import KinVfs.Lib.Content
import KinVfs.Lib.Runs
import KinVfs.Shim.Hooks
import KinVfs.Shim.TempNames

/-!
# Writers of one path (`crates/kin-vfs-shim/src/intercept.rs`)

An open for writing removes the temp files of the target (`cleanup_stale_temps`), writes the graph's
bytes to `<target>.kin_tmp_<pid>` and opens that; a close renames it to the target. Every system call of
it is a step here, and the writers, threads of any processes, take turns in any order. Names lead to
inodes, as on the host: a descriptor keeps its inode when the name goes.

The clean-up takes the temp file of every writer, and writers of one process have one name. What was
written lands as long as no writer begins to clean up while another has its temp file, and none creates
its own while another still cleans up or has the same name (`writes_kept`).
-/

namespace KinVfs

open Content (Edit)

/-- Where a writer is. The inode is the temp file's; `own` is the seed and the writer's own writes. -/
inductive WriterPc where
  | idle
  /-- In `cleanup_stale_temps`. -/
  | cleaning (flags : OpenFlags)
  /-- The graph has answered, the parent directories are there. -/
  | seeding (flags : OpenFlags) (seed : Bytes)
  /-- In `std::fs::write`. -/
  | filling (flags : OpenFlags) (inode : Nat) (written unwritten : Bytes)
  /-- The temp file is to be opened with the caller's flags. -/
  | staged (flags : OpenFlags) (inode : Nat) (seed : Bytes)
  | opened (inode : Nat) (own : Bytes)
  /-- The descriptor is closed; the temp file is to be renamed. -/
  | closing (inode : Nat) (own : Bytes)
  deriving DecidableEq

/-- A close that returned 0: the writer's bytes, and what the target holds then. -/
structure ClosedWrite where
  own : Bytes
  target : Bytes
  deriving DecidableEq

/-- The parent directory of the target and its writers. -/
structure AtomicWrites where
  /-- The inode of a file name. -/
  entries : Bytes → Option Nat
  data : Nat → Bytes
  inodes : Nat
  writers : Nat → WriterPc
  landed : List ClosedWrite

inductive WriterLabel where
  /-- An open for writing. -/
  | begin (w : Nat) (flags : OpenFlags)
  /-- The clean-up removes a name of the listing. -/
  | sweep (w : Nat) (name : Bytes)
  /-- The graph's bytes. -/
  | seed (w : Nat) (bytes : Bytes)
  | create (w : Nat)
  /-- A write of `std::fs::write`. -/
  | fill (w n : Nat)
  | realOpen (w : Nat)
  /-- A write or a truncation through the descriptor. -/
  | edit (w : Nat) (e : Edit)
  | realClose (w : Nat)
  | rename (w : Nat)
  /-- A call fails, or the process ends. -/
  | fail (w : Nat)
  deriving DecidableEq

namespace AtomicWrites

section Step

variable (name : Bytes) (pid : Nat → Int)

/-- The temp file of a writer. -/
def temp (w : Nat) : Bytes := atomicTempPath name (pid w)

def goto (s : AtomicWrites) (w : Nat) (pc : WriterPc) : AtomicWrites :=
  { s with writers := Function.update s.writers w pc }

def bind (s : AtomicWrites) (file : Bytes) (inode : Option Nat) : AtomicWrites :=
  { s with entries := Function.update s.entries file inode }

def put (s : AtomicWrites) (inode : Nat) (bytes : Bytes) : AtomicWrites :=
  { s with data := Function.update s.data inode bytes }

/-- The inode of `file`, a new empty one if there is none. -/
def creat (s : AtomicWrites) (file : Bytes) : Nat × AtomicWrites :=
  match s.entries file with
  | some inode => (inode, s)
  | none => (s.inodes, { (s.bind file (some s.inodes)).put s.inodes [] with inodes := s.inodes + 1 })

/-- `std::fs::write` goes on, or is done. -/
def filled (flags : OpenFlags) (inode : Nat) (written unwritten : Bytes) : WriterPc :=
  if unwritten = [] then .staged flags inode written else .filling flags inode written unwritten

def step (s : AtomicWrites) : WriterLabel → Option AtomicWrites
  | .begin w flags =>
    match s.writers w with
    | .idle => if isWriteFlags flags then some (s.goto w (.cleaning flags)) else none
    | _ => none
  | .sweep w file =>
    match s.writers w with
    | .cleaning _ => if (name ++ tempMarker).isPrefixOf file then some (s.bind file none) else none
    | _ => none
  | .seed w bytes =>
    match s.writers w with
    | .cleaning flags => some (s.goto w (.seeding flags bytes))
    | _ => none
  | .create w =>
    match s.writers w with
    | .seeding flags seed =>
      -- the file is created or truncated
      let (inode, s') := s.creat (temp name pid w)
      some ((s'.put inode []).goto w (filled flags inode [] seed))
    | _ => none
  | .fill w n =>
    match s.writers w with
    | .filling flags inode written unwritten =>
      if n = 0 ∨ unwritten.length < n then none
      else
        let bytes := Content.overwrite (s.data inode) written.length (unwritten.take n)
        some ((s.put inode bytes).goto w
          (filled flags inode (written ++ unwritten.take n) (unwritten.drop n)))
    | _ => none
  | .realOpen w =>
    match s.writers w with
    | .staged flags _ seed =>
      let own := if flags.trunc then [] else seed
      match s.entries (temp name pid w), flags.creat with
      | some inode, creat =>
        if creat ∧ flags.excl then some (s.goto w .idle)
        else if flags.trunc then some ((s.put inode []).goto w (.opened inode own))
        else some (s.goto w (.opened inode own))
      | none, true =>
        let (inode, s') := s.creat (temp name pid w)
        some (s'.goto w (.opened inode own))
      | none, false => some (s.goto w .idle)
    | _ => none
  | .edit w e =>
    match s.writers w with
    | .opened inode own =>
      some ((s.put inode (e.apply (s.data inode))).goto w (.opened inode (e.apply own)))
    | _ => none
  | .realClose w =>
    match s.writers w with
    | .opened inode own => some (s.goto w (.closing inode own))
    | _ => none
  | .rename w =>
    match s.writers w with
    | .closing _ own =>
      match s.entries (temp name pid w) with
      | some inode =>
        some { ((s.bind (temp name pid w) none).bind name (some inode)).goto w .idle with
          landed := s.landed ++ [⟨own, s.data inode⟩] }
      | none => some (s.goto w .idle)
    | _ => none
  | .fail w => some (s.goto w .idle)

end Step

/-- A directory with other names' files, and no writer. -/
def Start (s : AtomicWrites) : Prop :=
  (∀ w, s.writers w = .idle) ∧ s.landed = [] ∧ (∀ file inode, s.entries file = some inode → inode < s.inodes) ∧
    ∀ file file' inode, s.entries file = some inode → s.entries file' = some inode → file = file'

end AtomicWrites

/-- The temp file of a writer that has one, and the bytes that are to be in it. -/
def WriterPc.holding : WriterPc → Option (Nat × Bytes)
  | .filling _ inode written _ => some (inode, written)
  | .staged _ inode seed => some (inode, seed)
  | .opened inode own | .closing inode own => some (inode, own)
  | .idle | .cleaning _ | .seeding _ _ => none

def WriterPc.isCleaning : WriterPc → Bool
  | .cleaning _ => true
  | _ => false

section Property

variable (name : Bytes) (pid : Nat → Int)

/-- Open descriptors have temp files of their own, with the bytes written through them, and every
close that returned 0 left these at the target. -/
structure WritesKept (s : AtomicWrites) : Prop where
  distinct : ∀ w w' inode inode' own own', s.writers w = .opened inode own →
    s.writers w' = .opened inode' own' → w ≠ w' →
    AtomicWrites.temp name pid w ≠ AtomicWrites.temp name pid w' ∧ inode ≠ inode'
  kept : ∀ w inode own, s.writers w = .opened inode own →
    s.entries (AtomicWrites.temp name pid w) = some inode ∧ s.data inode = own
  landed : ∀ l ∈ s.landed, l.target = l.own

/-- Writer `w` is the only one that minds its temp file. -/
def AloneAt (s : AtomicWrites) (w : Nat) : Prop :=
  ∀ w', w' ≠ w → (s.writers w').isCleaning = false ∧
    ((s.writers w').holding ≠ none → AtomicWrites.temp name pid w' ≠ AtomicWrites.temp name pid w)

/-- A writer begins to clean up when no other has a temp file, and creates its own when no other cleans
up or has it. -/
def Apart (s : AtomicWrites) : WriterLabel → Prop
  | .begin w _ => ∀ w', w' ≠ w → (s.writers w').holding = none
  | .create w => AloneAt name pid s w
  | _ => True

end Property

/-! ## The invariant -/

section Invariant

variable {name : Bytes} {pid : Nat → Int} {s s' : AtomicWrites} {w : Nat}

open AtomicWrites

structure AtomicWrites.Inv (name : Bytes) (pid : Nat → Int) (s : AtomicWrites) : Prop where
  clean : ∀ w w', (s.writers w).isCleaning = true → w' ≠ w → (s.writers w').holding = none
  alone : ∀ w, (s.writers w).holding ≠ none → AloneAt name pid s w
  holds : ∀ w inode bytes, (s.writers w).holding = some (inode, bytes) →
    s.entries (temp name pid w) = some inode ∧ s.data inode = bytes
  one : ∀ file file' inode, s.entries file = some inode → s.entries file' = some inode → file = file'
  used : ∀ file inode, s.entries file = some inode → inode < s.inodes
  landed : ∀ l ∈ s.landed, l.target = l.own

/-- A writer's step. -/
theorem AtomicWrites.Inv.move (h : s.Inv name pid) {pc : WriterPc} {entries : Bytes → Option Nat}
    {data : Nat → Bytes} {inodes : Nat} {landed : List ClosedWrite}
    (hclean : pc.isCleaning = true → ∀ w', w' ≠ w → (s.writers w').holding = none)
    (halone : pc.holding ≠ none → AloneAt name pid s w)
    (hholds : ∀ inode bytes, pc.holding = some (inode, bytes) →
      entries (temp name pid w) = some inode ∧ data inode = bytes)
    (hothers : ∀ w' inode bytes, w' ≠ w → (s.writers w').holding = some (inode, bytes) →
      entries (temp name pid w') = some inode ∧ data inode = bytes)
    (hone : ∀ file file' inode, entries file = some inode → entries file' = some inode → file = file')
    (hused : ∀ file inode, entries file = some inode → inode < inodes)
    (hlanded : ∀ l ∈ landed, l.target = l.own) :
    Inv name pid ⟨entries, data, inodes, Function.update s.writers w pc, landed⟩ where
  clean := by
    intro w₁ w₂ hc hne
    by_cases h₁ : w₁ = w <;> by_cases h₂ : w₂ = w <;>
      simp only [Function.update_apply, h₁, h₂, if_true, if_false] at hc ⊢
    · exact absurd (h₂.trans h₁.symm) hne
    · exact hclean hc w₂ h₂
    · by_contra hold
      have := (halone hold w₁ h₁).1
      rw [hc] at this
      cases this
    · exact h.clean w₁ w₂ hc hne
  alone := by
    intro w₁ hold w₂ hne
    by_cases h₁ : w₁ = w <;> by_cases h₂ : w₂ = w <;>
      simp only [Function.update_apply, h₁, h₂, if_true, if_false] at hold ⊢
    · exact absurd (h₂.trans h₁.symm) hne
    · exact halone hold w₂ h₂
    · refine ⟨?_, fun hold₂ => ((halone hold₂ w₁ h₁).2 hold).symm⟩
      cases hc : pc.isCleaning with
      | false => rfl
      | true => exact absurd (hclean hc w₁ h₁) hold
    · exact h.alone w₁ hold w₂ hne
  holds := by
    intro w' inode bytes hold
    by_cases h' : w' = w <;> simp only [Function.update_apply, h', if_true, if_false] at hold ⊢
    · exact hholds inode bytes hold
    · exact hothers w' inode bytes h' hold
  one := hone
  used := hused
  landed := hlanded

/-- A writer's step that leaves the directory alone. -/
theorem AtomicWrites.Inv.goto (h : s.Inv name pid) {pc : WriterPc}
    (hclean : pc.isCleaning = true → ∀ w', w' ≠ w → (s.writers w').holding = none)
    (hhold : pc.holding = none ∨ pc.holding = (s.writers w).holding) :
    (s.goto w pc).Inv name pid := by
  refine h.move hclean ?_ ?_ (fun w' inode bytes _ hold => h.holds w' inode bytes hold) h.one h.used
    h.landed
  · intro hold
    rcases hhold with hnone | hsame
    · exact absurd hnone hold
    · exact h.alone w (hsame ▸ hold)
  · intro inode bytes hold
    rcases hhold with hnone | hsame
    · rw [hnone] at hold
      cases hold
    · exact h.holds w inode bytes (hsame ▸ hold)

/-- Writers have inodes of their own. -/
theorem AtomicWrites.Inv.inode_ne (h : s.Inv name pid) {w' inode inode' : Nat} {bytes bytes' : Bytes}
    (hne : w' ≠ w) (hw : (s.writers w).holding = some (inode, bytes))
    (hw' : (s.writers w').holding = some (inode', bytes')) : inode' ≠ inode := by
  intro heq
  have hnone : ∀ {o : Option (Nat × Bytes)} {x}, o = some x → o ≠ none := fun ho => ho ▸ nofun
  have hfile := h.one _ _ inode (heq ▸ (h.holds w' _ _ hw').1) (h.holds w _ _ hw).1
  exact (h.alone w (hnone hw) w' hne).2 (hnone hw') hfile

/-- A writer changes its own temp file. -/
theorem AtomicWrites.Inv.put (h : s.Inv name pid) {inode : Nat} {bytes bytes' : Bytes} {pc : WriterPc}
    (hw : (s.writers w).holding = some (inode, bytes)) (hclean : pc.isCleaning = false)
    (hpc : pc.holding = some (inode, bytes')) : ((s.put inode bytes').goto w pc).Inv name pid := by
  refine h.move (fun hc => by rw [hclean] at hc; cases hc) ?_ ?_ ?_ h.one h.used h.landed
  · intro _
    exact h.alone w (hw ▸ nofun)
  · intro inode' bytes'' hold
    rw [hpc] at hold
    cases hold
    exact ⟨(h.holds w _ _ hw).1, Function.update_self ..⟩
  · intro w' inode' bytes'' hne hold
    have hother := h.holds w' _ _ hold
    refine ⟨hother.1, ?_⟩
    show Function.update s.data inode bytes' inode' = bytes''
    rw [Function.update_of_ne (h.inode_ne hne hw hold)]
    exact hother.2

end Invariant

/-! ## Steps -/

namespace AtomicWrites

variable {name : Bytes} {pid : Nat → Int} {s s' : AtomicWrites} {w : Nat}

theorem begin_inv {flags : OpenFlags} (h : s.Inv name pid)
    (hnone : ∀ w', w' ≠ w → (s.writers w').holding = none)
    (hstep : s.step name pid (.begin w flags) = some s') : s'.Inv name pid := by
  simp only [step] at hstep
  split at hstep
  · split at hstep
    · cases hstep
      exact h.goto (fun _ => hnone) (.inl rfl)
    · cases hstep
  · cases hstep

/-- While a writer cleans up, no other has a temp file. -/
theorem sweep_inv {file : Bytes} (h : s.Inv name pid)
    (hstep : s.step name pid (.sweep w file) = some s') : s'.Inv name pid := by
  simp only [step] at hstep
  split at hstep
  · rename_i flags hpc
    split at hstep
    · cases hstep
      have hnone : ∀ w', (s.writers w').holding = none := by
        intro w'
        by_cases heq : w' = w
        · rw [heq, hpc]
          rfl
        · exact h.clean w w' (by rw [hpc]; rfl) heq
      have hsub : ∀ file' inode, (s.bind file none).entries file' = some inode →
          s.entries file' = some inode := by
        intro file' inode hentry
        by_cases heq : file' = file
        · rw [heq] at hentry
          rw [show (s.bind file none).entries file = none from Function.update_self ..] at hentry
          cases hentry
        · rwa [show (s.bind file none).entries file' = s.entries file' from
            Function.update_of_ne heq ..] at hentry
      refine ⟨h.clean, h.alone, ?_, ?_, ?_, h.landed⟩
      · intro w' inode bytes hold
        rw [show ((s.bind file none).writers w').holding = none from hnone w'] at hold
        cases hold
      · intro file₁ file₂ inode h₁ h₂
        exact h.one file₁ file₂ inode (hsub _ _ h₁) (hsub _ _ h₂)
      · intro file' inode hentry
        exact h.used file' inode (hsub _ _ hentry)
    · cases hstep
  · cases hstep

theorem seed_inv {bytes : Bytes} (h : s.Inv name pid)
    (hstep : s.step name pid (.seed w bytes) = some s') : s'.Inv name pid := by
  simp only [step] at hstep
  split at hstep
  · cases hstep
    exact h.goto nofun (.inl rfl)
  · cases hstep

theorem realClose_inv (h : s.Inv name pid) (hstep : s.step name pid (.realClose w) = some s') :
    s'.Inv name pid := by
  simp only [step] at hstep
  split at hstep
  · rename_i inode own hpc
    cases hstep
    exact h.goto nofun (.inr (by rw [hpc]; rfl))
  · cases hstep

theorem fail_inv (h : s.Inv name pid) (hstep : s.step name pid (.fail w) = some s') :
    s'.Inv name pid := by
  cases hstep
  exact h.goto nofun (.inl rfl)

theorem edit_inv {e : Edit} (h : s.Inv name pid) (hstep : s.step name pid (.edit w e) = some s') :
    s'.Inv name pid := by
  simp only [step] at hstep
  split at hstep
  · rename_i inode own hpc
    cases hstep
    have hold : (s.writers w).holding = some (inode, own) := by rw [hpc]; rfl
    rw [(h.holds w _ _ hold).2]
    exact h.put hold rfl rfl
  · cases hstep

theorem filled_holding (flags : OpenFlags) (inode : Nat) (written unwritten : Bytes) :
    (filled flags inode written unwritten).holding = some (inode, written) := by
  unfold filled
  split <;> rfl

theorem filled_isCleaning (flags : OpenFlags) (inode : Nat) (written unwritten : Bytes) :
    (filled flags inode written unwritten).isCleaning = false := by
  unfold filled
  split <;> rfl

/-- A write at the end. -/
theorem overwrite_end (c d : Bytes) (hd : d ≠ []) : Content.overwrite c c.length d = c ++ d := by
  simp [Content.overwrite, hd]

theorem fill_inv {n : Nat} (h : s.Inv name pid) (hstep : s.step name pid (.fill w n) = some s') :
    s'.Inv name pid := by
  simp only [step] at hstep
  split at hstep
  · rename_i flags inode written unwritten hpc
    split at hstep
    · cases hstep
    · rename_i hn
      cases hstep
      have hold : (s.writers w).holding = some (inode, written) := by rw [hpc]; rfl
      have hne : unwritten.take n ≠ [] := by
        intro hnil
        have hlen := congrArg List.length hnil
        rw [List.length_take, List.length_nil] at hlen
        omega
      rw [(h.holds w _ _ hold).2, overwrite_end _ _ hne]
      exact h.put hold (filled_isCleaning ..) (filled_holding ..)
  · cases hstep

theorem realOpen_inv (h : s.Inv name pid) (hstep : s.step name pid (.realOpen w) = some s') :
    s'.Inv name pid := by
  simp only [step] at hstep
  split at hstep
  · rename_i flags inode seed hpc
    have hold : (s.writers w).holding = some (inode, seed) := by rw [hpc]; rfl
    rw [(h.holds w _ _ hold).1] at hstep
    dsimp only at hstep
    split at hstep
    · cases hstep
      exact h.goto nofun (.inl rfl)
    · split at hstep
      · cases hstep
        exact h.put hold rfl rfl
      · cases hstep
        exact h.goto nofun (.inr (by rw [hold]; rfl))
  · cases hstep

/-- What `O_CREAT` does to the directory. -/
theorem creat_spec (h : s.Inv name pid) {file : Bytes} {inode : Nat} (hs : s.creat file = (inode, s')) :
    s'.entries = Function.update s.entries file (some inode) ∧ s'.writers = s.writers ∧
      s'.landed = s.landed ∧ s.inodes ≤ s'.inodes ∧ inode < s'.inodes ∧
      (∀ file', file' ≠ file → s.entries file' ≠ some inode) ∧
      ∀ inode', inode' ≠ inode → s'.data inode' = s.data inode' := by
  unfold creat at hs
  split at hs
  · rename_i old hold
    cases hs
    refine ⟨?_, rfl, rfl, Nat.le_refl _, h.used file _ hold, ?_, fun _ _ => rfl⟩
    · rw [← hold, Function.update_eq_self]
    · intro file' hne hentry
      exact hne (h.one file' file _ hentry hold)
  · cases hs
    refine ⟨rfl, rfl, rfl, Nat.le_succ _, Nat.lt_succ_self _, ?_, ?_⟩
    · intro file' _ hentry
      exact absurd (h.used file' _ hentry) (Nat.lt_irrefl _)
    · intro inode' hne
      exact Function.update_of_ne hne ..

theorem create_inv (h : s.Inv name pid) (halone : AloneAt name pid s w)
    (hstep : s.step name pid (.create w) = some s') : s'.Inv name pid := by
  simp only [step] at hstep
  split at hstep
  · rename_i flags seed hpc
    cases hs : s.creat (temp name pid w) with
    | mk inode t =>
      rw [hs] at hstep
      cases hstep
      obtain ⟨hentries, hwriters, hlanded, hle, hlt, hfree, hdata⟩ := creat_spec h hs
      unfold goto
      rw [show (t.put inode []).writers = s.writers from hwriters]
      refine h.move (fun hc => ?_) (fun _ => halone) ?_ ?_ ?_ ?_ ?_
      · rw [filled_isCleaning] at hc
        cases hc
      · intro inode' bytes hold
        rw [filled_holding] at hold
        cases hold
        refine ⟨?_, Function.update_self ..⟩
        show t.entries _ = _
        rw [hentries, Function.update_self]
      · intro w' inode' bytes hne hold
        have hother := h.holds w' _ _ hold
        have hfile : temp name pid w' ≠ temp name pid w := (halone w' hne).2 (hold ▸ nofun)
        have hinode : inode' ≠ inode := by
          intro heq
          exact hfree _ hfile (heq ▸ hother.1)
        refine ⟨?_, ?_⟩
        · show t.entries _ = _
          rw [hentries, Function.update_of_ne hfile]
          exact hother.1
        · show Function.update t.data inode [] inode' = bytes
          rw [Function.update_of_ne hinode, hdata inode' hinode]
          exact hother.2
      · intro file₁ file₂ inode' h₁ h₂
        rw [show (t.put inode []).entries = _ from hentries, Function.update_apply] at h₁ h₂
        split at h₁ <;> split at h₂
        · rename_i e₁ e₂
          rw [e₁, e₂]
        · rename_i e₁ e₂
          cases h₁
          exact absurd h₂ (hfree file₂ e₂)
        · rename_i e₁ e₂
          cases h₂
          exact absurd h₁ (hfree file₁ e₁)
        · exact h.one file₁ file₂ inode' h₁ h₂
      · intro file inode' hentry
        rw [show (t.put inode []).entries = _ from hentries, Function.update_apply] at hentry
        split at hentry
        · cases hentry
          exact hlt
        · exact Nat.lt_of_lt_of_le (h.used file inode' hentry) hle
      · rw [show (t.put inode []).landed = s.landed from hlanded]
        exact h.landed
  · cases hstep

theorem name_ne_temp : name ≠ temp name pid w := by
  intro heq
  have hlen := congrArg List.length heq
  rw [temp, atomicTempPath_eq] at hlen
  simp [tempMarker] at hlen

theorem rename_inv (h : s.Inv name pid) (hstep : s.step name pid (.rename w) = some s') :
    s'.Inv name pid := by
  simp only [step] at hstep
  split at hstep
  · rename_i inode own hpc
    have hold : (s.writers w).holding = some (inode, own) := by rw [hpc]; rfl
    obtain ⟨hentry, hdata⟩ := h.holds w _ _ hold
    rw [hentry] at hstep
    cases hstep
    -- the name of the temp file goes, the target has its inode
    have hentries : ∀ file inode', ((s.bind (temp name pid w) none).bind name (some inode)).entries file =
        some inode' → file = name ∧ inode' = inode ∨
          file ≠ temp name pid w ∧ s.entries file = some inode' := by
      intro file inode' hfile
      by_cases hn : file = name
      · rw [hn, show ((s.bind _ none).bind name (some inode)).entries name = some inode from
          Function.update_self ..] at hfile
        cases hfile
        exact .inl ⟨hn, rfl⟩
      · rw [show ((s.bind (temp name pid w) none).bind name (some inode)).entries file =
          (s.bind (temp name pid w) none).entries file from Function.update_of_ne hn ..] at hfile
        by_cases ht : file = temp name pid w
        · rw [ht, show (s.bind (temp name pid w) none).entries (temp name pid w) = none from
            Function.update_self ..] at hfile
          cases hfile
        · rw [show (s.bind (temp name pid w) none).entries file = s.entries file from
            Function.update_of_ne ht ..] at hfile
          exact .inr ⟨ht, hfile⟩
    refine h.move nofun (fun hne => absurd rfl hne) nofun ?_ ?_ ?_ ?_
    · intro w' inode' bytes hne hold'
      have hother := h.holds w' _ _ hold'
      have hfile : temp name pid w' ≠ temp name pid w :=
        (h.alone w (hold ▸ nofun) w' hne).2 (hold' ▸ nofun)
      refine ⟨?_, hother.2⟩
      show Function.update (Function.update s.entries _ none) name (some inode) _ = _
      rw [Function.update_of_ne (Ne.symm name_ne_temp), Function.update_of_ne hfile]
      exact hother.1
    · intro file₁ file₂ inode' h₁ h₂
      rcases hentries _ _ h₁ with ⟨e₁, i₁⟩ | ⟨n₁, o₁⟩ <;>
        rcases hentries _ _ h₂ with ⟨e₂, i₂⟩ | ⟨n₂, o₂⟩
      · rw [e₁, e₂]
      · exact absurd (h.one _ _ inode (i₁ ▸ o₂) hentry) n₂
      · exact absurd (h.one _ _ inode (i₂ ▸ o₁) hentry) n₁
      · exact h.one file₁ file₂ inode' o₁ o₂
    · intro file inode' hfile
      rcases hentries _ _ hfile with ⟨-, hi⟩ | ⟨-, ho⟩
      · rw [hi]
        exact h.used _ _ hentry
      · exact h.used file inode' ho
    · intro l hl
      rcases List.mem_append.mp hl with hl | hl
      · exact h.landed l hl
      · rw [List.mem_singleton.mp hl]
        exact hdata
  · cases hstep

theorem step_keeps {l : WriterLabel} (h : s.Inv name pid) (hl : Apart name pid s l)
    (hstep : s.step name pid l = some s') : s'.Inv name pid := by
  cases l with
  | begin w flags => exact begin_inv h hl hstep
  | sweep w file => exact sweep_inv h hstep
  | seed w bytes => exact seed_inv h hstep
  | create w => exact create_inv h hl hstep
  | fill w n => exact fill_inv h hstep
  | realOpen w => exact realOpen_inv h hstep
  | edit w e => exact edit_inv h hstep
  | realClose w => exact realClose_inv h hstep
  | rename w => exact rename_inv h hstep
  | fail w => exact fail_inv h hstep

theorem Start.inv (h : s.Start) : s.Inv name pid := by
  obtain ⟨hidle, hlanded, hused, hone⟩ := h
  have hnone : ∀ w, (s.writers w).holding = none := by
    intro w
    rw [hidle w]
    rfl
  refine ⟨?_, ?_, ?_, hone, hused, ?_⟩
  · intro w w' _ _
    exact hnone w'
  · intro w hold
    exact absurd (hnone w) hold
  · intro w inode bytes hold
    rw [hnone w] at hold
    cases hold
  · rw [hlanded]
    nofun

theorem Inv.writesKept (h : s.Inv name pid) : WritesKept name pid s where
  distinct := by
    intro w w' inode inode' own own' hw hw' hne
    have hold : (s.writers w).holding = some (inode, own) := by rw [hw]; rfl
    have hold' : (s.writers w').holding = some (inode', own') := by rw [hw']; rfl
    refine ⟨?_, h.inode_ne hne hold' hold⟩
    exact (h.alone w' (hold' ▸ nofun) w hne).2 (hold ▸ nofun)
  kept := by
    intro w inode own hw
    exact h.holds w inode own (by rw [hw]; rfl)
  landed := h.landed

end AtomicWrites

/-- In every run of the writers of a path that stay apart, open descriptors have temp files of their
own with what was written through them, and a close that returns 0 leaves exactly that at the target. -/
theorem writes_kept {name : Bytes} {pid : Nat → Int} {s s' : AtomicWrites} {labels : List WriterLabel}
    (hstart : s.Start) (hrun : Runs.run (AtomicWrites.step name pid) s labels = some s')
    (hmeets : Runs.Meets (AtomicWrites.step name pid) (Apart name pid) s labels) :
    WritesKept name pid s' :=
  (Runs.run_inv_of_meets (fun _ _ _ h hl hstep => AtomicWrites.step_keeps h hl hstep) hstart.inv hmeets
    hrun).writesKept

/-! ## Runs of few writers -/

def WriterLabel.writer : WriterLabel → Nat
  | .begin w _ | .sweep w _ | .seed w _ | .create w | .fill w _ | .realOpen w | .edit w _
  | .realClose w | .rename w | .fail w => w

/-- `Apart` of the first `n` writers. -/
def ApartBelow (n : Nat) (name : Bytes) (pid : Nat → Int) (s : AtomicWrites) (l : WriterLabel) : Prop :=
  l.writer < n ∧
    match l with
    | .begin w _ => ∀ w' < n, w' ≠ w → (s.writers w').holding = none
    | .create w => ∀ w' < n, w' ≠ w → (s.writers w').isCleaning = false ∧
        ((s.writers w').holding ≠ none →
          AtomicWrites.temp name pid w' ≠ AtomicWrites.temp name pid w)
    | _ => True

instance (n : Nat) (name : Bytes) (pid : Nat → Int) (s : AtomicWrites) (l : WriterLabel) :
    Decidable (ApartBelow n name pid s l) :=
  match l with
  | .begin _ _ | .create _ => inferInstanceAs (Decidable (_ ∧ _))
  | .sweep _ _ | .seed _ _ | .fill _ _ | .realOpen _ | .edit _ _ | .realClose _ | .rename _ | .fail _ =>
    inferInstanceAs (Decidable (_ ∧ True))

namespace AtomicWrites

variable {name : Bytes} {pid : Nat → Int} {s s' : AtomicWrites}

theorem creat_writers (file : Bytes) : (s.creat file).2.writers = s.writers := by
  unfold creat
  split <;> rfl

/-- A step is one writer's. -/
theorem step_other {l : WriterLabel} {w : Nat} (hw : w ≠ l.writer)
    (hstep : s.step name pid l = some s') : s'.writers w = s.writers w := by
  have hgoto : ∀ (t : AtomicWrites) (pc : WriterPc), t.writers = s.writers →
      (t.goto l.writer pc).writers w = s.writers w := by
    intro t pc ht
    rw [← ht]
    exact Function.update_of_ne hw ..
  cases l with
  | begin w' flags =>
    simp only [step] at hstep
    repeat' split at hstep
    all_goals cases hstep
    all_goals exact hgoto _ _ rfl
  | sweep w' file =>
    simp only [step] at hstep
    repeat' split at hstep
    all_goals cases hstep
    all_goals rfl
  | create w' =>
    simp only [step] at hstep
    split at hstep
    · cases hstep
      exact hgoto _ _ (creat_writers ..)
    · cases hstep
  | realOpen w' =>
    simp only [step] at hstep
    repeat' split at hstep
    all_goals cases hstep
    all_goals first | exact hgoto _ _ rfl | exact hgoto _ _ (creat_writers ..)
  | seed w' _ | fill w' _ | edit w' _ | realClose w' | rename w' | fail w' =>
    simp only [step] at hstep
    repeat' split at hstep
    all_goals cases hstep
    all_goals exact hgoto _ _ rfl

theorem meets_of_below {n : Nat} {labels : List WriterLabel} (hidle : ∀ w, n ≤ w → s.writers w = .idle)
    (h : Runs.Meets (step name pid) (ApartBelow n name pid) s labels) :
    Runs.Meets (step name pid) (Apart name pid) s labels := by
  induction labels generalizing s with
  | nil => trivial
  | cons l labels ih =>
    obtain ⟨⟨hlt, hl⟩, hrest⟩ := h
    refine ⟨?_, fun t ht => ih (fun w hw => ?_) (hrest t ht)⟩
    · cases l with
      | begin w flags =>
        intro w' hne
        by_cases hw' : w' < n
        · exact hl w' hw' hne
        · rw [hidle w' (Nat.le_of_not_lt hw')]
          rfl
      | create w =>
        intro w' hne
        by_cases hw' : w' < n
        · exact hl w' hw' hne
        · rw [hidle w' (Nat.le_of_not_lt hw')]
          exact ⟨rfl, fun hnone => absurd rfl hnone⟩
      | sweep w _ | seed w _ | fill w _ | realOpen w | edit w _ | realClose w | rename w | fail w =>
        trivial
    · rw [step_other (by omega) ht]
      exact hidle w hw

end AtomicWrites

namespace Sample

/-- The directory of the file `f`, of one byte. -/
def folder : AtomicWrites where
  entries file := if file = [102] then some 0 else none
  data _ := [1]
  inodes := 1
  writers _ := .idle
  landed := []

theorem folder_start : folder.Start := by
  have hentry : ∀ file inode, folder.entries file = some inode → file = [102] ∧ inode = 0 := by
    intro file inode h
    by_cases hfile : file = [102]
    · rw [show folder.entries file = some 0 from if_pos hfile] at h
      cases h
      exact ⟨hfile, rfl⟩
    · rw [show folder.entries file = none from if_neg hfile] at h
      cases h
  refine ⟨fun _ => rfl, rfl, ?_, ?_⟩
  · intro file inode h
    rw [(hentry file inode h).2]
    decide
  · intro file file' inode h h'
    rw [(hentry file inode h).1, (hentry file' inode h').1]

/-- `O_WRONLY`. -/
def wronly : OpenFlags := ⟨true, false, false, false, false, false, false, false⟩

/-- Two processes. -/
def pids (w : Nat) : Int := w + 7

/-- Both writers have cleaned up before the first temp file is created. -/
def together : List WriterLabel :=
  [.begin 0 wronly, .begin 1 wronly, .seed 0 [1], .seed 1 [1], .create 0, .create 1, .fill 0 1,
    .fill 1 1, .realOpen 0, .realOpen 1, .edit 0 (.write 0 [2]), .edit 1 (.write 1 [3]), .realClose 0,
    .rename 0, .realClose 1, .rename 1]

/-- The second writer cleans up after the first has opened. -/
def late : List WriterLabel :=
  [.begin 0 wronly, .seed 0 [1], .create 0, .fill 0 1, .realOpen 0, .edit 0 (.write 0 [2]),
    .begin 1 wronly, .sweep 1 (AtomicWrites.temp [102] pids 0)]

end Sample

/-- Two closes land, each with the bytes of its own descriptor. -/
theorem writes_kept_together :
    ∃ s, Runs.run (AtomicWrites.step [102] Sample.pids) Sample.folder Sample.together = some s ∧
      s.landed = [⟨[2], [2]⟩, ⟨[1, 3], [1, 3]⟩] ∧ WritesKept [102] Sample.pids s := by
  have hlanded : (Runs.run (AtomicWrites.step [102] Sample.pids) Sample.folder Sample.together).map
      (·.landed) = some [⟨[2], [2]⟩, ⟨[1, 3], [1, 3]⟩] := by
    decide +kernel
  obtain ⟨s, hrun, hs⟩ := Option.map_eq_some_iff.mp hlanded
  have hbelow : Runs.Meets (AtomicWrites.step [102] Sample.pids) (ApartBelow 2 [102] Sample.pids)
      Sample.folder Sample.together := by
    decide +kernel
  exact ⟨s, hrun, hs, writes_kept Sample.folder_start hrun
    (AtomicWrites.meets_of_below (fun _ _ => rfl) hbelow)⟩

/-- The second open removes the temp file of the first descriptor, and the first close fails. -/
theorem late_open_loses :
    ∃ s s', Runs.run (AtomicWrites.step [102] Sample.pids) Sample.folder Sample.late = some s ∧
      ¬ WritesKept [102] Sample.pids s ∧
      Runs.run (AtomicWrites.step [102] Sample.pids) s [.realClose 0, .rename 0] = some s' ∧
      s'.landed = [] := by
  have hlate : (Runs.run (AtomicWrites.step [102] Sample.pids) Sample.folder Sample.late).map
      (fun s => (s.writers 0, s.entries (AtomicWrites.temp [102] Sample.pids 0))) =
      some (.opened 1 [2], none) := by
    decide +kernel
  have hclose : (Runs.run (AtomicWrites.step [102] Sample.pids) Sample.folder
      (Sample.late ++ [.realClose 0, .rename 0])).map (·.landed) = some [] := by
    decide +kernel
  obtain ⟨s, hrun, hs⟩ := Option.map_eq_some_iff.mp hlate
  obtain ⟨s', hrun', hs'⟩ := Option.map_eq_some_iff.mp hclose
  rw [Runs.run_append, hrun] at hrun'
  refine ⟨s, s', hrun, fun h => ?_, hrun', hs'⟩
  have hkept := (h.kept 0 1 [2] (congrArg Prod.fst hs)).1
  rw [show s.entries _ = none from congrArg Prod.snd hs] at hkept
  cases hkept

end KinVfs
