import KinVfs.Nfs.Namespace
import KinVfs.Nfs.Registry
import KinVfs.Nfs.Router
import KinVfs.Nfs.Server

/-!
# The slots of an export (`crates/kin-vfs-nfs/src/router.rs`)

The registry (`Registry`), the namespace (`Nfs.Router`), its write side (`KinNfsRouter`) and the server
(`NfsServer`) are modelled each with what its results need of a workspace. They are of one export: after any
lookups, one after the other, the namespace and the write side have the same slots at the same offsets, and
the server has the workspaces with a writer (`lookups_agree`).
-/

namespace KinVfs.Nfs

open Interleave

/-- A workspace's name as a client spells it. -/
def nameBytes (name : String) : Bytes := name.toUTF8.toList

theorem nameBytes_inj {a b : String} : nameBytes a = nameBytes b ↔ a = b := by
  refine ⟨fun h => ?_, fun h => by rw [h]⟩
  rw [nameBytes, nameBytes, Text.toList_byteArray, Text.toList_byteArray] at h
  have hbytes : a.toByteArray = b.toByteArray := ByteArray.ext (Array.toList_inj.mp h)
  exact String.toByteArray_inj.mp hbytes

/-! ## The registered workspaces -/

/-- What the namespace is given of the registry; `provider` is the provider built for an entry's URL and path. -/
def entriesOf (provider : KinVfs.WorkspaceEntry → ContentProvider) (reg : Registry) : List WorkspaceEntry :=
  reg.entries.map fun e => ⟨nameBytes e.name, provider e⟩

variable {provider : KinVfs.WorkspaceEntry → ContentProvider} {reg : Registry}

theorem find_entriesOf (name : String) :
    (entriesOf provider reg).find? (·.name == nameBytes name) =
      (reg.entries.find? (·.name == name)).map fun e => ⟨nameBytes e.name, provider e⟩ := by
  have hsame : ((fun x : WorkspaceEntry => x.name == nameBytes name) ∘
      fun e : KinVfs.WorkspaceEntry => ⟨nameBytes e.name, provider e⟩) = fun e => e.name == name := by
    funext e
    simp [nameBytes_inj]
  rw [entriesOf, List.find?_map, hsame]

theorem isSome_find_entriesOf (name : String) :
    ((entriesOf provider reg).find? (·.name == nameBytes name)).isSome = reg.names.contains name := by
  rw [find_entriesOf, Option.isSome_map, Bool.eq_iff_iff, List.find?_isSome, List.contains_iff_mem, Registry.names,
    List.mem_map]
  simp only [beq_iff_eq]

/-- A registered workspace is found under its name, and no other is. -/
theorem find_entriesOf_of_mem (h : reg.Named) {e : KinVfs.WorkspaceEntry} (he : e ∈ reg.entries) :
    (entriesOf provider reg).find? (·.name == nameBytes e.name) = some ⟨nameBytes e.name, provider e⟩ := by
  have hfound : (reg.entries.find? (·.name == e.name)) = some e := by
    cases hfind : reg.entries.find? (·.name == e.name) with
    | none => simpa using List.find?_eq_none.mp hfind e he
    | some other =>
      have hname : other.name = e.name := by simpa using List.find?_some hfind
      have hother := List.mem_of_find?_eq_some hfind
      rw [List.inj_on_of_nodup_map h.nodup hother he hname]
  rw [find_entriesOf, hfound, Option.map_some]

/-! ## One lookup -/

/-- The namespace, the write side and the server agree on the slots. -/
structure Agree (r : Router) (w : KinNfsRouter) (s : NfsServer.State) : Prop where
  slots : r.slots.map (fun x => (x.1, x.2.offset)) = w.slots.map fun x => (nameBytes x.1, x.2.offset)
  nextSlot : r.nextSlot = w.nextSlot
  writers : ∀ name, name ∈ s.slots ↔ w.hasWriter name = true

variable {r : Router} {w : KinNfsRouter} {s : NfsServer.State}

/-- Renaming the keys of a map, one to one. -/
theorem lookup_map {κ κ' α β : Type} [BEq κ] [LawfulBEq κ] [BEq κ'] [LawfulBEq κ'] {f : κ → κ'} {g : α → β}
    (hf : ∀ a b, f a = f b ↔ a = b) (xs : List (κ × α)) (k : κ) :
    (xs.map fun x => (f x.1, g x.2)).lookup (f k) = (xs.lookup k).map g := by
  induction xs with
  | nil => rfl
  | cons x xs ih =>
    rw [List.map_cons, List.lookup_cons, List.lookup_cons, ih]
    have hkey : (f k == f x.1) = (k == x.1) := by
      rw [Bool.eq_iff_iff, beq_iff_eq, beq_iff_eq, hf]
    rw [hkey]
    cases k == x.1 <;> rfl

theorem Agree.lookup (h : Agree r w s) (name : String) :
    (r.slots.lookup (nameBytes name)).map Slot.offset = (w.slots.lookup name).map WorkspaceSlot.offset := by
  rw [← lookup_map (f := nameBytes) (fun _ _ => nameBytes_inj), ← h.slots]
  exact (lookup_map (f := id) (fun _ _ => Iff.rfl) _ _).symm

theorem agree_start (graph : ContentProvider) (now : Nat) (entries : List String) (writable : Bool)
    (hosts : String → Posix.Fs) :
    Agree (.start graph now) (.withWrites entries writable) (.init hosts) :=
  ⟨rfl, rfl, fun name => by simp [NfsServer.State.init, KinNfsRouter.withWrites, KinNfsRouter.hasWriter]⟩

/-- A slot that both get: the server's workspaces are then those with a writer. -/
theorem Agree.insert (h : Agree r w s) {name : String} {writer : Bool} (graph : ContentProvider)
    (hnone : w.slots.lookup name = none) {w' : KinNfsRouter} (hslots : w'.slots = w.slots)
    (hnext : w'.nextSlot = w.nextSlot) :
    Agree (r.create (nameBytes name) graph).2 (w'.insertSlot name writer)
      (if writer then { s with slots := s.slots ++ [name] } else s) := by
  have hfree : r.slots.lookup (nameBytes name) = none := by
    have hsame := h.lookup name
    rw [hnone] at hsame
    exact Option.map_eq_none_iff.mp hsame
  have hcreate : (r.create (nameBytes name) graph).2.slots =
      r.slots ++ [(nameBytes name, ⟨r.built, workspaceBase + r.nextSlot * inodesPerWorkspace⟩)] := by
    simp only [Router.create, hfree]
  have hhas : ∀ n, w'.hasWriter n = w.hasWriter n := fun n => by
    simp only [KinNfsRouter.hasWriter, hslots]
  refine ⟨?_, ?_, fun n => ?_⟩
  · rw [hcreate, KinNfsRouter.insertSlot]
    simp only [List.map_append, h.slots, hslots, hnext, h.nextSlot, List.map_cons, List.map_nil]
  · simp only [Router.create, hfree, KinNfsRouter.insertSlot, hnext, h.nextSlot]
  · rw [KinNfsRouter.hasWriter_insertSlot (by rw [hslots]; exact hnone), hhas]
    have hold : name ∉ s.slots := by
      rw [h.writers, KinNfsRouter.hasWriter, hnone]
      simp
    cases writer with
    | true =>
      by_cases hn : n = name
      · simp [hn]
      · simp [hn, h.writers]
    | false =>
      by_cases hn : n = name
      · simp [hn, hold]
      · simp [hn, h.writers]

variable {entries : List WorkspaceEntry} {name : String} {author : Option String}

/-- What a lookup does to the router when no other is under way. -/
theorem run_getOrCreateSlot_some {name : Bytes} {slot : Slot} (h : r.slots.lookup name = some slot) :
    ((Router.getOrCreateSlot entries name).run r).2 = r := by
  simp only [Router.getOrCreateSlot, Prog.look, Prog.act, Bind.bind, Prog.bind, Prog.run, h, Pure.pure]

theorem run_getOrCreateSlot_none {name : Bytes} (h : r.slots.lookup name = none) :
    ((Router.getOrCreateSlot entries name).run r).2 =
      ((entries.find? (·.name == name)).map fun entry => (r.create name entry.graph).2).getD r := by
  cases hfind : entries.find? (·.name == name) with
  | none =>
    simp only [Router.getOrCreateSlot, Prog.look, Prog.act, Bind.bind, Prog.bind, Prog.run, h, hfind, Pure.pure]
    rfl
  | some entry =>
    simp only [Router.getOrCreateSlot, Prog.look, Prog.act, Bind.bind, Prog.bind, Prog.run, h, hfind, Pure.pure]
    rfl

theorem entries_getOrCreateSlot : (w.getOrCreateSlot name author).1.entries = w.entries := by
  unfold KinNfsRouter.getOrCreateSlot
  split
  · rfl
  · split
    · rfl
    · split
      · split <;> rfl
      · rfl

/-- **One lookup**: a slot that it makes is one for all, and it is the server's when the writer could be built. -/
theorem Agree.getOrCreateSlot (h : Agree r w s)
    (hentries : (entries.find? (·.name == nameBytes name)).isSome = w.entries.contains name)
    (author : Option String) (roots : String → Posix.Path) (wire : Wire) :
    ∃ s', (s' = s ∨ NfsServer.step roots wire s (.newSlot name) = some s') ∧
      Agree ((Router.getOrCreateSlot entries (nameBytes name)).run r).2 (w.getOrCreateSlot name author).1 s' := by
  have hsame := h.lookup name
  cases hw : w.slots.lookup name with
  | some slot =>
    rw [hw] at hsame
    obtain ⟨slot', hr, -⟩ := Option.map_eq_some_iff.mp hsame
    refine ⟨s, .inl rfl, ?_⟩
    rw [run_getOrCreateSlot_some hr, KinNfsRouter.getOrCreateSlot, if_pos (by rw [hw]; rfl)]
    exact h
  | none =>
    rw [hw] at hsame
    have hr : r.slots.lookup (nameBytes name) = none := Option.map_eq_none_iff.mp hsame
    rw [run_getOrCreateSlot_none hr, KinNfsRouter.getOrCreateSlot, if_neg (by rw [hw]; simp)]
    cases hfind : entries.find? (·.name == nameBytes name) with
    | none =>
      rw [hfind] at hentries
      rw [if_pos (by rw [← hentries]; rfl)]
      exact ⟨s, .inl rfl, h⟩
    | some entry =>
      rw [hfind] at hentries
      rw [if_neg (by rw [← hentries]; simp)]
      have hnew : name ∉ s.slots := by
        rw [h.writers, KinNfsRouter.hasWriter, hw]
        simp
      split
      · split
        · refine ⟨{ s with slots := s.slots ++ [name] }, .inr (if_neg hnew), ?_⟩
          exact h.insert entry.graph hw rfl rfl
        · exact ⟨s, .inl rfl, h.insert entry.graph hw rfl rfl⟩
      · exact ⟨s, .inl rfl, h.insert entry.graph hw rfl rfl⟩

/-! ## Any lookups -/

/-- The export after lookups of workspaces, each with the author that is found for it. -/
def afterLookups (entries : List WorkspaceEntry) (r : Router) (w : KinNfsRouter)
    (lookups : List (String × Option String)) : Router × KinNfsRouter :=
  lookups.foldl (fun x l =>
    (((Router.getOrCreateSlot entries (nameBytes l.1)).run x.1).2, (x.2.getOrCreateSlot l.1 l.2).1)) (r, w)

theorem Agree.lookups {roots : String → Posix.Path} {wire : Wire} (lookups : List (String × Option String))
    (h : Agree r w s) (hentries : w.entries = reg.names) :
    ∃ labels s', Runs.run (NfsServer.step roots wire) s labels = some s' ∧
      Agree (afterLookups (entriesOf provider reg) r w lookups).1
        (afterLookups (entriesOf provider reg) r w lookups).2 s' := by
  induction lookups generalizing r w s with
  | nil => exact ⟨[], s, rfl, h⟩
  | cons l lookups ih =>
    have hfound : ((entriesOf provider reg).find? (·.name == nameBytes l.1)).isSome = w.entries.contains l.1 := by
      rw [hentries]
      exact isSome_find_entriesOf l.1
    obtain ⟨s₁, hstep, h₁⟩ := h.getOrCreateSlot hfound l.2 roots wire
    obtain ⟨labels, s', hrun, h'⟩ := ih h₁ (entries_getOrCreateSlot.trans hentries)
    rcases hstep with rfl | hstep
    · exact ⟨labels, s', hrun, h'⟩
    · exact ⟨.newSlot l.1 :: labels, s', Runs.run_cons_eq_some.mpr ⟨s₁, hstep, hrun⟩, h'⟩

/-- **The models of an export agree** after any lookups: the namespace and the write side have the same slots at
the same offsets, and the server's workspaces, which its own steps made, are those with a writer. -/
theorem lookups_agree (reg : Registry) (writable : Bool) (graph : ContentProvider) (now : Nat)
    (hosts : String → Posix.Fs) (roots : String → Posix.Path) (wire : Wire)
    (lookups : List (String × Option String)) :
    ∃ labels s, Runs.run (NfsServer.step roots wire) (.init hosts) labels = some s ∧
      Agree (afterLookups (entriesOf provider reg) (.start graph now) (.withWrites reg.names writable) lookups).1
        (afterLookups (entriesOf provider reg) (.start graph now) (.withWrites reg.names writable) lookups).2 s :=
  (agree_start graph now reg.names writable hosts).lookups lookups rfl

end KinVfs.Nfs
