import KinVfs.Nfs.Router
import KinVfs.Daemon.NoLostWrite

/-!
# Write health across process restarts

`Export` is a sequence of export processes over the same working copies. A process is started, its
lookups build writers, its calls run, and it exits at any point: unfinished calls and the staging
maps go with it, the working copies and the history stay. The staging map is the only record of
what is owed, so a restart forgets it; `Drained` (nothing is staged when a process exits) is what
keeps a later `Settled` truthful.
-/

namespace KinVfs

/-- The running process, if any, and each workspace's working copy with its history. -/
structure Export where
  router : Option KinNfsRouter
  copies : String → Sys

inductive ExportLabel where
  | start (entries : List String) (writable : Bool)
  | lookup (name : String) (author : Option String)
  | work (name : String) (l : Label)
  | exit

/-- The process is gone: its unfinished calls and its staging map with it. -/
def Sys.exit (s : Sys) : Sys := { s with staging := .init, calls := s.calls.map Call.abort }

namespace Export

/-- No process has run yet. -/
def init (hosts : String → Posix.Fs) : Export := ⟨none, fun name => .init (hosts name)⟩

def setCopy (copies : String → Sys) (name : String) (s : Sys) : String → Sys :=
  fun n => if n = name then s else copies n

def step (roots : String → Posix.Path) (wire : Wire) (e : Export) : ExportLabel → Option Export
  | .start entries writable =>
    match e.router with
    | none => some { e with router := some (.withWrites entries writable) }
    | some _ => none
  | .lookup name author =>
    match e.router with
    | none => none
    | some r =>
      match r.getOrCreateSlot name author with
      | (r', none) => some { e with router := some r' }
      | (r', some staging) =>
        some { router := some r'
               copies := setCopy e.copies name { e.copies name with staging := staging } }
  | .work name l =>
    match e.router with
    | none => none
    | some r =>
      if r.hasWriter name then
        ((e.copies name).step (roots name) wire l).map fun s =>
          { e with copies := setCopy e.copies name s }
      else none
  | .exit =>
    match e.router with
    | none => none
    | some _ => some ⟨none, fun name => (e.copies name).exit⟩

/-- The workspace `name` has a write side in the running process. -/
def writing (e : Export) (name : String) : Bool := e.router.any (·.hasWriter name)

/-- Nothing is staged when a process exits. -/
def drained (e : Export) : ExportLabel → Bool
  | .exit => e.router.all fun r => r.slots.all fun (name, _) =>
      (e.copies name).staging.entries.keys.isEmpty
  | _ => true

end Export

/-- With nothing staged, a new writer keeps the accounts. -/
theorem Accounted.fresh {s : Sys} (h : Accounted s) (hk : s.staging.entries.keys = []) :
    Accounted { s with staging := .init } where
  calls i c hi := (h.calls i c hi).mono (fun _ hj => hj) fun p e hp => by cases hp
  logged := h.logged
  owed i p hi := by
    rcases h.owed i p hi with hread | hs
    · exact .inl hread
    · rw [Staging.keys_eq_nil.mp hk p] at hs
      cases hs

/-- With nothing staged, the exit of the process keeps the accounts. -/
theorem Accounted.exit {s : Sys} (h : Accounted s) (hk : s.staging.entries.keys = []) :
    Accounted s.exit where
  calls i c hi := by
    have hfresh := h.fresh hk
    simp only [Sys.exit, List.getElem?_map, Option.map_eq_some_iff] at hi
    obtain ⟨b, hb, rfl⟩ := hi
    have hok := hfresh.calls i b hb
    unfold Call.abort
    split
    · exact hok
    · trivial
    · trivial
  logged := h.logged
  owed := (h.fresh hk).owed

namespace Export

variable {roots : String → Posix.Path} {wire : Wire} {e e' : Export} {l : ExportLabel}

/-- The accounts of every working copy, and staging only where the process has a writer. -/
structure Ledger (e : Export) : Prop where
  accounted : ∀ name, Accounted (e.copies name)
  idle : ∀ name, e.writing name = false → (e.copies name).staging.entries.keys = []

theorem Ledger.init (hosts : String → Posix.Fs) : Ledger (.init hosts) where
  accounted name := Accounted.init (hosts name)
  idle _ _ := Staging.keys_eq_nil.mpr fun _ => rfl

/-- One working copy takes a step that keeps its accounts. -/
theorem Ledger.setCopy {name : String} {s : Sys} {router : Option KinNfsRouter} (h : Ledger e)
    (hs : Accounted s)
    (hidle : ∀ n, router.any (·.hasWriter n) = false →
      (if n = name then s else e.copies n).staging.entries.keys = []) :
    Ledger ⟨router, Export.setCopy e.copies name s⟩ where
  accounted n := by
    show Accounted (if n = name then s else e.copies n)
    split
    · exact hs
    · exact h.accounted n
  idle n hn := hidle n hn

theorem Ledger.start {entries : List String} {writable : Bool} (h : Ledger e)
    (hr : e.router = none) :
    Ledger { e with router := some (.withWrites entries writable) } where
  accounted := h.accounted
  idle n _ := h.idle n (by simp [writing, hr])

theorem Ledger.lookup {name : String} {author : Option String} {r r' : KinNfsRouter}
    {staging : Staging} (h : Ledger e) (hr : e.router = some r)
    (hg : r.getOrCreateSlot name author = (r', some staging)) :
    Ledger ⟨some r', Export.setCopy e.copies name { e.copies name with staging := staging }⟩ := by
  obtain ⟨rfl, hw, hkeep⟩ := KinNfsRouter.getOrCreateSlot_some hg
  have hk := h.idle name (by simp [writing, hr, hw])
  refine h.setCopy ((h.accounted name).fresh hk) fun n hn => ?_
  split
  · exact Staging.keys_eq_nil.mpr fun _ => rfl
  · rename_i hne
    apply h.idle n
    simpa [writing, hr, hkeep n hne] using hn

theorem Ledger.work {name : String} {l : Label} {r : KinNfsRouter} {s : Sys} (h : Ledger e)
    (hr : e.router = some r) (hw : r.hasWriter name = true)
    (hs : (e.copies name).step (roots name) wire l = some s) :
    Ledger { e with copies := Export.setCopy e.copies name s } := by
  refine h.setCopy ((h.accounted name).step hs) fun n hn => ?_
  split
  · rename_i hname
    subst hname
    simp [hr, hw] at hn
  · exact h.idle n hn

/-- Nothing is staged anywhere when the exit meets its condition. -/
theorem Ledger.keys_of_drained (h : Ledger e) (hd : e.drained .exit = true) (n : String) :
    (e.copies n).staging.entries.keys = [] := by
  cases hw : e.writing n with
  | false => exact h.idle n hw
  | true =>
    unfold writing at hw
    rw [Option.any_eq_true] at hw
    obtain ⟨r, hr, hwr⟩ := hw
    obtain ⟨slot, hslot⟩ := KinNfsRouter.mem_slots_of_hasWriter hwr
    simp only [drained, hr, Option.all_some, List.all_eq_true, List.isEmpty_iff] at hd
    exact hd (n, slot) hslot

/-- **One step** of the export that meets the condition. -/
theorem Ledger.step (h : Ledger e) (hd : e.drained l = true)
    (hs : e.step roots wire l = some e') : Ledger e' := by
  cases l with
  | start entries writable =>
    simp only [Export.step] at hs
    split at hs
    · rename_i hr
      cases hs
      exact h.start hr
    · cases hs
  | lookup name author =>
    simp only [Export.step] at hs
    split at hs
    · cases hs
    · rename_i r hr
      split at hs
      · rename_i r' hg
        cases hs
        refine ⟨h.accounted, fun n hn => h.idle n ?_⟩
        simpa [writing, hr, KinNfsRouter.getOrCreateSlot_none hg] using hn
      · rename_i r' staging hg
        cases hs
        exact h.lookup hr hg
  | work name l =>
    simp only [Export.step] at hs
    split at hs
    · cases hs
    · rename_i r hr
      split at hs
      · rename_i hw
        obtain ⟨s, hstep, rfl⟩ := Option.map_eq_some_iff.mp hs
        exact h.work hr hw hstep
      · cases hs
  | exit =>
    simp only [Export.step] at hs
    split at hs
    · cases hs
    · cases hs
      exact ⟨fun n => (h.accounted n).exit (h.keys_of_drained hd n),
        fun n _ => Staging.keys_eq_nil.mpr fun _ => rfl⟩

end Export

end KinVfs
