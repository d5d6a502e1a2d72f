import KinVfs.Nfs.Namespace

/-!
# What the calls of the namespace rely on

`Router.Wf` holds in every state: tables are inverse maps, slots have ranges and adapters of their own. The
calls of other threads keep the slots and the ids of the paths that matter (`Keeps`). A call that runs among
such others, within an invariant of its own (`Compat`), keeps both, and its answer speaks of the state it
leaves: one lemma for each function.
-/

namespace KinVfs.Nfs

open Interleave

namespace Router

/-- Each slot has an adapter and a range of its own. -/
structure Wf (r : Router) : Prop where
  tables : ∀ h, (r.adapters h).inodes.Wf
  keys : (r.slots.map Prod.fst).Nodup
  built : ∀ e ∈ r.slots, e.2.adapter < r.built
  numbered : ∀ e ∈ r.slots, ∃ i < r.nextSlot, e.2.offset = workspaceBase + i * inodesPerWorkspace
  apart : ∀ e ∈ r.slots, ∀ f ∈ r.slots, e.2.adapter = f.2.adapter ∨ e.2.offset = f.2.offset → e = f

/-- The id of a path in the table of an adapter. -/
def idOf (r : Router) (h : Nat) (p : VfsPath) : Option Nat := (r.adapters h).inodes.pathToId p

/-- The slots stay, and so do the ids of the paths in `K`. -/
structure Keeps (K : VfsPath → Prop) (r r' : Router) : Prop where
  slots : ∀ name slot, r.slots.lookup name = some slot → r'.slots.lookup name = some slot
  built : r.built ≤ r'.built
  ids : ∀ h p i, h < r.built → K p → r.idOf h p = some i → r'.idOf h p = some i

variable {K : VfsPath → Prop} {r r' s t : Router} {name : Bytes} {slot slot' : Slot} {h i id : Nat} {p q : VfsPath}

theorem Keeps.refl (r : Router) : Keeps K r r := ⟨fun _ _ h => h, Nat.le_refl _, fun _ _ _ _ _ h => h⟩

theorem Keeps.trans (h₁ : Keeps K r s) (h₂ : Keeps K s t) : Keeps K r t where
  slots n sl h := h₂.slots n sl (h₁.slots n sl h)
  built := Nat.le_trans h₁.built h₂.built
  ids h p i hh hK hi := h₂.ids h p i (Nat.lt_of_lt_of_le hh h₁.built) hK (h₁.ids h p i hh hK hi)

/-! ## Slots -/

theorem mem_of_lookup (h : r.slots.lookup name = some slot) : (name, slot) ∈ r.slots := by
  obtain ⟨l₁, l₂, hl, _⟩ := List.lookup_eq_some_iff.mp h
  simp [hl]

theorem Wf.lookup_iff (hw : Wf r) : r.slots.lookup name = some slot ↔ (name, slot) ∈ r.slots := by
  refine ⟨mem_of_lookup, fun hm => ?_⟩
  cases hl : r.slots.lookup name with
  | none =>
    rw [List.lookup_eq_none_iff] at hl
    simpa using hl _ hm
  | some other =>
    have hother := mem_of_lookup hl
    have heq := List.inj_on_of_nodup_map hw.keys hother hm rfl
    simp only [Prod.mk.injEq, true_and] at heq
    rw [heq]

/-- A number is in the range of one slot at most. -/
theorem Wf.range_unique (hw : Wf r) {e f : Bytes × Slot} (he : e ∈ r.slots) (hf : f ∈ r.slots)
    (hie : inRange id e.2 = true) (hif : inRange id f.2 = true) : e = f := by
  obtain ⟨i, -, hi⟩ := hw.numbered e he
  obtain ⟨j, -, hj⟩ := hw.numbered f hf
  simp only [inRange, Bool.and_eq_true, decide_eq_true_iff, hi, hj, inodesPerWorkspace] at hie hif
  have hij : i = j := by omega
  exact hw.apart e he f hf (.inr (by rw [hi, hj, hij]))

theorem Wf.owner_iff (hw : Wf r) :
    r.owner id = some slot ↔ ∃ name, r.slots.lookup name = some slot ∧ inRange id slot = true := by
  unfold owner
  constructor
  · intro ho
    obtain ⟨e, he, rfl⟩ := Option.map_eq_some_iff.mp ho
    have hp := List.find?_some he
    exact ⟨e.1, hw.lookup_iff.mpr (List.mem_of_find?_eq_some he), hp⟩
  · rintro ⟨n, hl, hin⟩
    have hm := mem_of_lookup hl
    cases hf : r.slots.find? fun entry => inRange id entry.2 with
    | none =>
      rw [List.find?_eq_none] at hf
      exact absurd hin (hf _ hm)
    | some e =>
      have hp := List.find?_some hf
      rw [hw.range_unique (List.mem_of_find?_eq_some hf) hm hp hin]
      rfl

theorem Wf.base_le (hw : Wf r) (hl : r.slots.lookup name = some slot) : workspaceBase ≤ slot.offset := by
  obtain ⟨i, -, hi⟩ := hw.numbered _ (mem_of_lookup hl)
  rw [hi]
  exact Nat.le_add_right _ _

/-! ## The steps -/

theorem start_wf (provider : ContentProvider) (now : Nat) : Wf (start provider now) where
  tables _ := InodeTable.Wf.new
  keys := List.nodup_nil
  built _ h := by cases h
  numbered _ h := by cases h
  apart _ h := by cases h

@[simp] theorem assign_slots : (r.assign h p).2.slots = r.slots := rfl

@[simp] theorem assign_built : (r.assign h p).2.built = r.built := rfl

theorem assign_adapters (h' : Nat) : (r.assign h p).2.adapters h' =
    if h' = h then { r.adapters h with inodes := ((r.adapters h).inodes.getOrAssign p).2 } else r.adapters h' := by
  show Function.update _ _ _ _ = _
  rw [Function.update_apply]

theorem assign_provider (h' : Nat) : ((r.assign h p).2.adapters h').provider = (r.adapters h').provider := by
  rw [assign_adapters]
  split
  · rename_i hh
    rw [hh]
  · rfl

theorem assign_wf (hw : Wf r) : Wf (r.assign h p).2 where
  tables h' := by
    rw [assign_adapters]
    split
    · exact (hw.tables h).getOrAssign p
    · exact hw.tables h'
  keys := hw.keys
  built := hw.built
  numbered := hw.numbered
  apart := hw.apart

theorem assign_idOf : (r.assign h p).2.idOf h p = some (r.assign h p).1 := by
  unfold idOf
  rw [assign_adapters, if_pos rfl]
  exact InodeTable.pathToId_getOrAssign _ p

theorem assign_keeps : Keeps K r (r.assign h p).2 where
  slots _ _ hl := hl
  built := Nat.le_refl _
  ids h' q i _ _ hi := by
    unfold idOf at hi ⊢
    rw [assign_adapters]
    split
    · rename_i hh
      subst hh
      exact InodeTable.pathToId_getOrAssign_of hi p
    · exact hi

/-- A new slot, or one that another thread was quicker to create. -/
theorem create_cases (r : Router) (name : Bytes) (graph : ContentProvider) :
    (∃ other, r.slots.lookup name = some other ∧ (r.create name graph).1 = other ∧
        (r.create name graph).2.slots = r.slots) ∨
      (r.slots.lookup name = none ∧
        (r.create name graph).1 = ⟨r.built, workspaceBase + r.nextSlot * inodesPerWorkspace⟩ ∧
        (r.create name graph).2.slots = r.slots ++ [(name, (r.create name graph).1)]) := by
  unfold create
  cases hl : r.slots.lookup name with
  | some other => exact .inl ⟨other, rfl, rfl, rfl⟩
  | none => exact .inr ⟨rfl, rfl, rfl⟩

theorem create_rest (r : Router) (name : Bytes) (graph : ContentProvider) :
    (r.create name graph).2.adapters = Function.update r.adapters r.built (.new graph) ∧
      (r.create name graph).2.built = r.built + 1 ∧ (r.create name graph).2.nextSlot = r.nextSlot + 1 := by
  unfold create
  split <;> exact ⟨rfl, rfl, rfl⟩

theorem create_adapters_lt {graph : ContentProvider} (hh : h < r.built) :
    (r.create name graph).2.adapters h = r.adapters h := by
  rw [(create_rest r name graph).1, Function.update_of_ne (Nat.ne_of_lt hh)]

theorem create_wf {graph : ContentProvider} (hw : Wf r) : Wf (r.create name graph).2 := by
  obtain ⟨hadapters, hbuilt, hnext⟩ := create_rest r name graph
  have htables : ∀ h, ((r.create name graph).2.adapters h).inodes.Wf := by
    intro h
    rw [hadapters, Function.update_apply]
    split
    · exact InodeTable.Wf.new
    · exact hw.tables h
  rcases create_cases r name graph with ⟨other, -, -, hslots⟩ | ⟨hnone, hslot, hslots⟩
  · refine ⟨htables, ?_, ?_, ?_, ?_⟩ <;> rw [hslots]
    · exact hw.keys
    · intro e he
      rw [hbuilt]
      exact Nat.lt_succ_of_lt (hw.built e he)
    · intro e he
      obtain ⟨i, hi, ho⟩ := hw.numbered e he
      exact ⟨i, by omega, ho⟩
    · exact hw.apart
  · -- No slot in the map has the new adapter or the new number.
    have hfresh : ∀ e ∈ r.slots, e.2.adapter ≠ (r.create name graph).1.adapter ∧
        e.2.offset ≠ (r.create name graph).1.offset := by
      intro e he
      obtain ⟨i, hi, ho⟩ := hw.numbered e he
      have hb := hw.built e he
      rw [hslot, ho]
      simp only [inodesPerWorkspace, ne_eq]
      omega
    refine ⟨htables, ?_, ?_, ?_, ?_⟩ <;> rw [hslots]
    · rw [List.map_append, List.nodup_append]
      refine ⟨hw.keys, List.nodup_singleton _, ?_⟩
      intro a ha b hb
      obtain ⟨e, he, rfl⟩ := List.mem_map.mp ha
      rw [List.lookup_eq_none_iff] at hnone
      have := hnone e he
      simp only [List.map_cons, List.map_nil, List.mem_singleton] at hb
      subst hb
      rintro rfl
      simp at this
    · intro e he
      rw [hbuilt]
      rcases List.mem_append.mp he with hold | hnew
      · exact Nat.lt_succ_of_lt (hw.built e hold)
      · rw [List.mem_singleton.mp hnew, hslot]
        exact Nat.lt_succ_self _
    · intro e he
      rw [hnext]
      rcases List.mem_append.mp he with hold | hnew
      · obtain ⟨i, hi, ho⟩ := hw.numbered e hold
        exact ⟨i, by omega, ho⟩
      · exact ⟨r.nextSlot, Nat.lt_succ_self _, by rw [List.mem_singleton.mp hnew, hslot]⟩
    · intro e he f hf hef
      rcases List.mem_append.mp he with he | he <;> rcases List.mem_append.mp hf with hf | hf
      · exact hw.apart e he f hf hef
      · rw [List.mem_singleton.mp hf] at hef
        exact absurd hef (not_or.mpr (hfresh e he))
      · rw [List.mem_singleton.mp he] at hef
        exact absurd (hef.imp Eq.symm Eq.symm) (not_or.mpr (hfresh f hf))
      · rw [List.mem_singleton.mp he, List.mem_singleton.mp hf]

theorem create_lookup {graph : ContentProvider} :
    (r.create name graph).2.slots.lookup name = some (r.create name graph).1 := by
  rcases create_cases r name graph with ⟨other, hl, hother, hslots⟩ | ⟨hnone, -, hslots⟩
  · rw [hslots, hl, hother]
  · rw [hslots, List.lookup_append, hnone]
    simp

theorem create_keeps {graph : ContentProvider} : Keeps K r (r.create name graph).2 where
  slots n sl hl := by
    rcases create_cases r name graph with ⟨other, -, -, hslots⟩ | ⟨-, -, hslots⟩
    · rw [hslots, hl]
    · rw [hslots, List.lookup_append, hl]
      rfl
  built := by
    rw [(create_rest r name graph).2.1]
    exact Nat.le_succ _
  ids h q i hh _ hi := by
    unfold idOf at hi ⊢
    rw [create_adapters_lt hh, hi]

end Router

/-! ## The calls among others -/

/-- The others keep the slots and the ids in `K`, and the router's own steps are among what they may do. -/
structure Compat (entries : List WorkspaceEntry) (K : VfsPath → Prop) (I : Router → Prop)
    (R : Router → Router → Prop) : Prop where
  rely : Rely R
  wf : ∀ {r}, I r → r.Wf
  keeps : ∀ {r r'}, R r r' → Router.Keeps K r r'
  assign : ∀ {r} h p, I r → I (r.assign h p).2 ∧ R r (r.assign h p).2
  create : ∀ {r} name entry, entries.find? (·.name == name) = some entry → I r →
    I (r.create name entry.graph).2 ∧ R r (r.create name entry.graph).2

section Calls

variable {entries : List WorkspaceEntry} {K : VfsPath → Prop} {I : Router → Prop} {R : Router → Router → Prop}
variable {s t : Router} {name : Bytes} {h id : Nat} {dir p : VfsPath}

/-- The slot that is answered is the one in the map, and a registered workspace gets one. -/
theorem getOrCreateSlot_yields (hc : Compat entries K I R) (hs : I s) :
    Yields I R (fun res t => ∃ o, res = .ok o ∧ (∀ slot, o = some slot → t.slots.lookup name = some slot) ∧
        ((entries.find? (·.name == name)).isSome → o.isSome))
      (Router.getOrCreateSlot entries name) s := by
  have hprobe : Yields I R (fun res t => res = .ok (t.slots.lookup name))
      (Prog.look fun r => r.slots.lookup name : NfsM _) s :=
    Yields.look hc.rely fun _ _ _ => rfl
  refine hprobe.andThen hc.rely hs ?_ (fun e t he => by cases he)
  rintro o t ho ht -
  cases o with
  | some slot =>
    refine ⟨some slot, rfl, fun slot' hslot' => ?_, fun _ => rfl⟩
    rw [← hslot']
    exact (Except.ok.inj ho).symm
  | none =>
    cases hf : entries.find? (·.name == name) with
    | none => exact ⟨none, rfl, (fun slot hn => by cases hn), (fun hn => by cases hn)⟩
    | some entry =>
      have hcreate : Yields I R (fun res u => ∃ slot, res = .ok slot ∧ u.slots.lookup name = some slot)
          (Prog.act (·.create name entry.graph) : NfsM Slot) t := by
        apply Yields.act
        intro u _ hu
        obtain ⟨hI, hR⟩ := hc.create name entry hf hu
        exact ⟨hI, hR, _, rfl, Router.create_lookup⟩
      refine hcreate.andThen hc.rely ht ?_ (fun e u ⟨_, he, _⟩ => by cases he)
      rintro slot u ⟨slot', hslot, hl⟩ - -
      cases hslot
      refine ⟨some slot, rfl, fun slot' hslot' => ?_, fun _ => rfl⟩
      rw [← hslot']
      exact hl

/-- The slot behind a number of the export root's listing. -/
theorem syntheticSlot_yields {i : Nat} {entry : WorkspaceEntry} (hc : Compat entries K I R) (hs : I s)
    (hentry : entries[i]? = some entry) :
    Yields I R (fun res t => ∃ slot, res = .ok slot ∧ t.slots.lookup entry.name = some slot)
      (Router.syntheticSlot entries (i + 2)) s := by
  have hfound : (entries.find? (·.name == entry.name)).isSome := by
    rw [List.find?_isSome]
    exact ⟨entry, List.mem_of_getElem? hentry, beq_self_eq_true _⟩
  unfold Router.syntheticSlot
  rw [Nat.add_sub_cancel, hentry]
  refine (getOrCreateSlot_yields hc hs).andThen hc.rely hs ?_ (fun e t ⟨_, he, _⟩ => by cases he)
  rintro o t ⟨o', ho', hslot, hsome⟩ - -
  cases ho'
  obtain ⟨slot, rfl⟩ := Option.isSome_iff_exists.mp (hsome hfound)
  exact ⟨slot, rfl, hslot slot rfl⟩

theorem resolveInode_yields (hc : Compat entries K I R) :
    Yields I R (fun res t => res = if id < workspaceBase then .error .stale
        else (t.owner id).elim (.error .stale) fun slot => .ok (slot, id - slot.offset))
      (Router.resolveInode id) s := by
  unfold Router.resolveInode
  split
  · exact rfl
  · apply Yields.bind
    apply Yields.look hc.rely
    intro t _ _
    dsimp only
    cases ho : t.owner id with
    | none =>
      show Except.error NfsStat.stale = (t.owner id).elim _ _
      rw [ho]
      rfl
    | some slot =>
      show Except.ok (slot, id - slot.offset) = (t.owner id).elim _ _
      rw [ho]
      rfl

theorem idToPath_yields (hc : Compat entries K I R) :
    Yields I R (fun res t => res = ((t.adapters h).inodes.idToPath id).elim (.error .stale) .ok)
      (KinNfsFs.idToPath h id) s := by
  apply Yields.bind
  apply Yields.look hc.rely
  intro t _ _
  dsimp only
  cases hp : (t.adapters h).inodes.getPath id with
  | none =>
    show Except.error NfsStat.stale = ((t.adapters h).inodes.getPath id).elim _ _
    rw [hp]
    rfl
  | some p =>
    show Except.ok p = ((t.adapters h).inodes.getPath id).elim _ _
    rw [hp]
    rfl

theorem ask_yields {α : Type} (hc : Compat entries K I R) (f : ContentProvider → VfsResult α) :
    Yields I R (fun res t => res = (f (t.adapters h).provider).mapError mapErr) (KinNfsFs.ask h f) s := by
  apply Yields.bind
  apply Yields.look hc.rely
  intro t _ _
  dsimp only
  cases ha : f (t.adapters h).provider with
  | ok a =>
    show Except.ok a = (f (t.adapters h).provider).mapError mapErr
    rw [ha]
    rfl
  | error e =>
    show Except.error (mapErr e) = (f (t.adapters h).provider).mapError mapErr
    rw [ha]
    rfl

/-- The attributes carry the number that was asked for. -/
theorem getattr_yields (hc : Compat entries K I R) (hs : I s) :
    Yields I R (fun res _ => ∀ attr, res = .ok attr → attr.fileid = id) (KinNfsFs.getattr h id) s := by
  refine (idToPath_yields hc).andThen hc.rely hs ?_ (fun e t _ _ _ attr he => by cases he)
  intro path t _ ht _
  refine (ask_yields hc _).andThen hc.rely ht ?_ (fun e u _ _ _ attr he => by cases he)
  intro st u _ _ _ attr hattr
  cases hattr
  rfl

theorem getOrAssign_yields (hc : Compat entries K I R) :
    Yields I R (fun res t => ∃ i, res = .ok i ∧ t.idOf h p = some i) (KinNfsFs.getOrAssign h p) s := by
  apply Yields.act
  intro t _ ht
  obtain ⟨hI, hR⟩ := hc.assign h p ht
  exact ⟨hI, hR, _, rfl, Router.assign_idOf⟩

/-- The entries behind `.` and `..`, with the ids of their paths. -/
theorem children_yields {es : List DirEntry} (hc : Compat entries K I R) (hs : I s) (hh : h < s.built)
    (hK : ∀ e ∈ es, K (dir.join e.name)) :
    Yields I R (fun res t => ∃ ls, res = .ok ls ∧
        (ls.map fun x => (x.name, x.path)) = es.map (fun e => (e.name.bytes, dir.join e.name)) ∧
        ∀ x ∈ ls, t.idOf h x.path = some x.id)
      (KinNfsFs.children h dir es) s := by
  induction es generalizing s with
  | nil => exact ⟨[], rfl, rfl, fun x hx => (by cases hx)⟩
  | cons e es ih =>
    refine (getOrAssign_yields hc).andThen hc.rely hs ?_ (fun e t ⟨_, he, _⟩ => by cases he)
    rintro i t ⟨i', hi', hid⟩ ht hst
    cases hi'
    have hbuilt := Nat.lt_of_lt_of_le hh (hc.keeps hst).built
    refine (ih ht hbuilt fun e' he' => hK e' (List.mem_cons_of_mem _ he')).andThen hc.rely ht ?_
      (fun e t ⟨_, he, _⟩ => by cases he)
    rintro ls u ⟨ls', hls', hpaths, hids⟩ hu htu
    cases hls'
    refine ⟨_, rfl, by rw [List.map_cons, List.map_cons, hpaths], fun x hx => ?_⟩
    rcases List.mem_cons.mp hx with rfl | hx
    · exact (hc.keeps htu).ids h _ i hbuilt (hK e List.mem_cons_self) hid
    · exact hids x hx

/-- The names of a listing and what they stand for. -/
def listed (dir : VfsPath) (es : List DirEntry) : List (Bytes × VfsPath) :=
  ([dot], dir) :: ([dot, dot], dir.parent.getD .root) :: es.map fun e => (e.name.bytes, dir.join e.name)

/-- `all` is the listing, with the ids that the table of adapter `h` has for its paths. -/
structure Listing (t : Router) (h : Nat) (dir : VfsPath) (es : List DirEntry) (all : List KinNfsFs.Listed) :
    Prop where
  paths : (all.map fun x => (x.name, x.path)) = listed dir es
  ids : ∀ x ∈ all, t.idOf h x.path = some x.id

theorem listing_yields {es : List DirEntry} (hc : Compat entries K I R) (hs : I s) (hh : h < s.built)
    (hdir : s.idOf h dir = some id) (hK : ∀ x ∈ listed dir es, K x.2) :
    Yields I R (fun res t => ∃ all, res = .ok all ∧ Listing t h dir es all)
      (KinNfsFs.listing h id dir es) s := by
  have hup : Yields I R (fun res t => ∃ i, res = .ok i ∧ t.idOf h (dir.parent.getD .root) = some i)
      (if dir.isRoot then pure 1 else KinNfsFs.getOrAssign h (dir.parent.getD .root) : NfsM Nat) s := by
    split
    · rename_i hroot
      refine ⟨1, rfl, ?_⟩
      rw [VfsPath.isRoot_iff.mp hroot]
      exact (((hc.wf hs).tables h).inverse _ _).mpr ((hc.wf hs).tables h).root
    · exact getOrAssign_yields hc
  refine hup.andThen hc.rely hs ?_ (fun e t ⟨_, he, _⟩ => by cases he)
  rintro i t ⟨i', hi', hid⟩ ht hst
  cases hi'
  have hht := Nat.lt_of_lt_of_le hh (hc.keeps hst).built
  have hchild : ∀ e ∈ es, K (dir.join e.name) := fun e he =>
    hK (e.name.bytes, dir.join e.name)
      (List.mem_cons_of_mem _ (List.mem_cons_of_mem _ (List.mem_map.mpr ⟨e, he, rfl⟩)))
  refine (children_yields hc ht hht hchild).andThen hc.rely ht ?_ (fun e t ⟨_, he, _⟩ => by cases he)
  rintro ls u ⟨ls', hls', hpaths, hids⟩ hu htu
  cases hls'
  refine ⟨_, rfl, ⟨by rw [List.map_cons, List.map_cons, hpaths]; rfl, fun x hx => ?_⟩⟩
  rcases List.mem_cons.mp hx with rfl | hx
  · exact (hc.keeps (hc.rely.trans hst htu)).ids h dir id hh (hK _ List.mem_cons_self) hdir
  · rcases List.mem_cons.mp hx with rfl | hx
    · exact (hc.keeps htu).ids h _ i hht (hK _ (List.mem_cons_of_mem _ List.mem_cons_self)) hid
    · exact hids x hx

end Calls

end KinVfs.Nfs
