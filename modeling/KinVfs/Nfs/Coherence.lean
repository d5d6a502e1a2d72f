import KinVfs.Nfs.Listing

/-!
# The numbers of the namespace agree

Any number of lookups, attribute calls and listings run against each other from the start of the router, and
first accesses create slots and assign ids as they come. Meanwhile contents change, and other calls assign ids
of their own; a rename, which moves an id, is not among them.

Slots and ids only ever get added, so each answer says something of the state that stays true (`Told`), and two
answers about one name agree. A workspace root has two numbers: the one the export root lists, and the one a
lookup there answers.
-/

namespace KinVfs.Nfs

open Interleave

/-! ## Calls and what else happens -/

inductive Ask where
  | lookup (dirid : Nat) (name : Bytes)
  | getattr (id : Nat)
  | readdir (dirid startAfter maxEntries : Nat)

inductive Reply where
  | id (id : Nat)
  | attr (attr : Fattr)
  | page (page : ReadDirResult)

def serve (entries : List WorkspaceEntry) : Ask → NfsM Reply
  | .lookup dirid name => do
    let id ← Router.lookup entries dirid name
    pure (.id id)
  | .getattr id => do
    let attr ← Router.getattr entries id
    pure (.attr attr)
  | .readdir dirid startAfter maxEntries => do
    let page ← Router.readdir entries dirid startAfter maxEntries
    pure (.page page)

/-- What else changes the router: what workspaces hold and the time, and an id that some other call assigns. -/
inductive Elsewhere (r : Router) : Router → Prop
  | content (adapters : Nat → KinNfsFs) (now : Nat) : (∀ h, (adapters h).inodes = (r.adapters h).inodes) →
      Elsewhere r { r with adapters := adapters, now := now }
  | assigned (h : Nat) (path : VfsPath) : Elsewhere r (r.assign h path).2

/-- Slots and ids stay. -/
abbrev Grows : Router → Router → Prop := Router.Keeps fun _ => True

theorem grows_compat (entries : List WorkspaceEntry) :
    Compat entries (fun _ => True) Router.Wf Grows where
  rely := ⟨Router.Keeps.refl, Router.Keeps.trans⟩
  wf h := h
  keeps h := h
  assign _ _ hr := ⟨Router.assign_wf hr, Router.assign_keeps⟩
  create _ _ _ hr := ⟨Router.create_wf hr, Router.create_keeps⟩

theorem Elsewhere.grows {r r' : Router} (h : Elsewhere r r') (hr : r.Wf) : r'.Wf ∧ Grows r r' := by
  cases h with
  | assigned h path => exact ⟨Router.assign_wf hr, Router.assign_keeps⟩
  | content adapters now hsame =>
    constructor
    · refine ⟨fun h => ?_, hr.keys, hr.built, hr.numbered, hr.apart⟩
      show (adapters h).inodes.Wf
      rw [hsame]
      exact hr.tables h
    · refine ⟨fun _ _ hl => hl, Nat.le_refl _, fun h p i _ _ hi => ?_⟩
      show (adapters h).inodes.pathToId p = some i
      rw [hsame]
      exact hi

/-! ## What an answer says of the state -/

variable {entries : List WorkspaceEntry} {s t : Router} {h l i j id dirid : Nat} {name : Bytes} {slot slot' : Slot}

/-- The number stands for the local number `l` of the slot's adapter. -/
inductive Stands (entries : List WorkspaceEntry) (t : Router) (id : Nat) (slot : Slot) (l : Nat) : Prop
  | synthetic (entry : WorkspaceEntry) : Router.isSynthetic id = true → entries[id - 2]? = some entry →
      t.slots.lookup entry.name = some slot → l = KinNfsFs.rootDir → Stands entries t id slot l
  | own (name : Bytes) : t.slots.lookup name = some slot → id = slot.offset + l → l < inodesPerWorkspace →
      Stands entries t id slot l

/-- In the directory `l` of adapter `h`, the name has number `i`. -/
inductive Names (t : Router) (h l : Nat) (name : Bytes) (i : Nat) : Prop
  | self (p : VfsPath) : t.idOf h p = some l → name = [dot] → i = l → Names t h l name i
  | up (p : VfsPath) : t.idOf h p = some l → name = [dot, dot] → t.idOf h (p.parent.getD .root) = some i →
      Names t h l name i
  | child (p : VfsPath) (n : VfsName) : t.idOf h p = some l → name = n.bytes → t.idOf h (p.join n) = some i →
      Names t h l name i

/-- What a lookup that answers `id` says. -/
inductive LookedUp (entries : List WorkspaceEntry) (t : Router) (dirid : Nat) (name : Bytes) (id : Nat) : Prop
  | exportDots : dirid = Router.rootInode → (name = [dot] ∨ name = [dot, dot]) → id = Router.rootInode →
      LookedUp entries t dirid name id
  | workspace (slot : Slot) : dirid = Router.rootInode → ¬ (name = [dot] ∨ name = [dot, dot]) →
      t.slots.lookup name = some slot → id = slot.offset + KinNfsFs.rootDir → LookedUp entries t dirid name id
  | inside (slot : Slot) (l i : Nat) : dirid ≠ Router.rootInode → Stands entries t dirid slot l →
      Names t slot.adapter l name i → id = i + slot.offset → LookedUp entries t dirid name id

/-- What a listing that shows `id` for a name says. -/
inductive Shown (entries : List WorkspaceEntry) (t : Router) (dirid : Nat) (name : Bytes) (id : Nat) : Prop
  | exportRoot : dirid = Router.rootInode → (id, name) ∈ Router.rootListing entries →
      Shown entries t dirid name id
  | inside (slot : Slot) (l i : Nat) : dirid ≠ Router.rootInode → Stands entries t dirid slot l →
      Names t slot.adapter l name i →
      id = (if Router.isSynthetic dirid = true ∧ name = [dot, dot] then Router.rootInode else i + slot.offset) →
      Shown entries t dirid name id

/-- What an answer says. -/
def Told (entries : List WorkspaceEntry) : Ask → Except NfsStat Reply → Router → Prop
  | _, .error _, _ => True
  | .lookup dirid name, .ok (.id id), t => LookedUp entries t dirid name id
  | .getattr id, .ok (.attr attr), _ => attr.fileid = id
  | .readdir dirid _ _, .ok (.page page), t =>
    ∀ e ∈ page.entries, e.attr.fileid = e.fileid ∧ Shown entries t dirid e.name e.fileid
  | _, .ok _, _ => False

/-! ### It stays true -/

theorem Stands.grows (hd : Stands entries s id slot l) (hst : Grows s t) : Stands entries t id slot l := by
  cases hd with
  | synthetic entry hsyn hentry hslot hl => exact .synthetic entry hsyn hentry (hst.slots _ _ hslot) hl
  | own name hslot hid hl => exact .own name (hst.slots _ _ hslot) hid hl

theorem Stands.lookup (hd : Stands entries t id slot l) : ∃ ws, t.slots.lookup ws = some slot := by
  cases hd with
  | synthetic entry _ _ hslot _ => exact ⟨_, hslot⟩
  | own name hslot _ _ => exact ⟨_, hslot⟩

theorem Stands.built (hd : Stands entries t id slot l) (hw : t.Wf) : slot.adapter < t.built := by
  obtain ⟨ws, hslot⟩ := hd.lookup
  exact hw.built _ (Router.mem_of_lookup hslot)

theorem Names.grows (hn : Names s h l name i) (hh : h < s.built) (hst : Grows s t) : Names t h l name i := by
  have hid : ∀ p i, s.idOf h p = some i → t.idOf h p = some i := fun p i hi => hst.ids h p i hh trivial hi
  cases hn with
  | self p hp hname hi => exact .self p (hid _ _ hp) hname hi
  | up p hp hname hi => exact .up p (hid _ _ hp) hname (hid _ _ hi)
  | child p n hp hname hi => exact .child p n (hid _ _ hp) hname (hid _ _ hi)

theorem LookedUp.grows (hg : LookedUp entries s dirid name id) (hw : s.Wf) (hst : Grows s t) :
    LookedUp entries t dirid name id := by
  cases hg with
  | exportDots hd hname hid => exact .exportDots hd hname hid
  | workspace slot hd hname hslot hid => exact .workspace slot hd hname (hst.slots _ _ hslot) hid
  | inside slot l i hd hs hn hid => exact .inside slot l i hd (hs.grows hst) (hn.grows (hs.built hw) hst) hid

theorem Shown.grows (hg : Shown entries s dirid name id) (hw : s.Wf) (hst : Grows s t) :
    Shown entries t dirid name id := by
  cases hg with
  | exportRoot hd hmem => exact .exportRoot hd hmem
  | inside slot l i hd hs hn hid => exact .inside slot l i hd (hs.grows hst) (hn.grows (hs.built hw) hst) hid

theorem told_grows {a : Ask} {r : Except NfsStat Reply} (ht : Told entries a r s) (hw : s.Wf) (hst : Grows s t) :
    Told entries a r t := by
  match a, r, ht with
  | .lookup _ _, .error _, _ => exact trivial
  | .getattr _, .error _, _ => exact trivial
  | .readdir _ _ _, .error _, _ => exact trivial
  | .lookup _ _, .ok (.id _), ht => exact LookedUp.grows ht hw hst
  | .getattr _, .ok (.attr _), ht => exact ht
  | .readdir _ _ _, .ok (.page _), ht => exact fun e he => ⟨(ht e he).1, (ht e he).2.grows hw hst⟩

/-! ### It is what is answered -/

/-- The number was found in the table. -/
theorem idOf_of_elim {p : VfsPath} (ht : t.Wf)
    (hp : Except.ok p = ((t.adapters h).inodes.idToPath l).elim (Except.error NfsStat.stale) Except.ok) : t.idOf h p = some l := by
  cases hq : (t.adapters h).inodes.idToPath l with
  | none =>
    rw [hq] at hp
    cases hp
  | some q =>
    rw [hq] at hp
    cases hp
    exact ((ht.tables h).inverse p l).mpr hq

theorem adapter_lookup_yields (hs : s.Wf) (hh : h < s.built) :
    Yields Router.Wf Grows (fun res t => ∀ i, res = .ok i → Names t h l name i) (KinNfsFs.lookup h l name) s := by
  have hc := grows_compat []
  refine (idToPath_yields hc).andThen hc.rely hs ?_ (fun e t _ _ _ i he => by cases he)
  intro p t hp ht hst
  have hpath : t.idOf h p = some l := idOf_of_elim ht hp
  have hht := Nat.lt_of_lt_of_le hh hst.built
  split
  · rename_i hname
    intro i hi
    cases hi
    exact .self p hpath hname rfl
  · split
    · rename_i hname
      cases hup : p.parent with
      | none =>
        intro i hi
        cases hi
        refine .up p hpath hname ?_
        rw [hup]
        exact ((ht.tables h).inverse _ _).mpr (ht.tables h).root
      | some parent =>
        refine ((getOrAssign_yields hc).rel hc.rely).mono ?_
        rintro res u ⟨⟨i, rfl, hi⟩, htu⟩ i' hi'
        cases hi'
        refine .up p (htu.ids h p l hht trivial hpath) hname ?_
        rw [hup]
        exact hi
    · unfold KinNfsFs.childPath
      cases hn : VfsName.fromBytes name with
      | error e =>
        intro i he
        cases he
      | ok n =>
        show Yields _ _ _ (do
          let found ← KinNfsFs.ask h (·.pathExists (p.join n))
          if found then KinNfsFs.getOrAssign h (p.join n) else Prog.fail .noent : NfsM Nat) t
        refine (ask_yields hc _).andThen hc.rely ht ?_ (fun e u _ _ _ i he => by cases he)
        intro found u _ hu htu
        cases found with
        | false =>
          intro i he
          cases he
        | true =>
          refine ((getOrAssign_yields hc).rel hc.rely).mono ?_
          rintro res v ⟨⟨i, rfl, hi⟩, huv⟩ i' hi'
          cases hi'
          exact .child p n ((htu.trans huv).ids h p l hht trivial hpath) (VfsName.fromBytes_ok.mp hn).symm hi

/-- The slot behind a number of the export root's listing. -/
theorem stands_synthetic (entries : List WorkspaceEntry) (hs : s.Wf) (hsyn : Router.isSynthetic id = true) :
    Yields Router.Wf Grows (fun res t => ∀ slot, res = .ok slot → Stands entries t id slot KinNfsFs.rootDir)
      (Router.syntheticSlot entries id) s := by
  have hc := grows_compat entries
  have hid : id = id - 2 + 2 := by
    simp only [Router.isSynthetic, Bool.and_eq_true, decide_eq_true_iff] at hsyn
    omega
  cases hentry : entries[id - 2]? with
  | none =>
    unfold Router.syntheticSlot
    rw [hentry]
    intro slot he
    cases he
  | some entry =>
    rw [hid]
    refine (syntheticSlot_yields hc hs hentry).mono ?_
    rintro res t ⟨slot, rfl, hslot⟩ slot' hslot'
    cases hslot'
    rw [← hid]
    exact .synthetic entry hsyn hentry hslot rfl

/-- The slot in whose range a number is. -/
theorem stands_own (entries : List WorkspaceEntry) (hs : s.Wf) :
    Yields Router.Wf Grows (fun res t => ∀ v, res = .ok v → Stands entries t id v.1 v.2 ∧ id = v.1.offset + v.2)
      (Router.resolveInode id) s := by
  refine ((resolveInode_yields (grows_compat entries)).inv hs).mono ?_
  rintro res t ⟨hres, ht⟩ v rfl
  split at hres
  · cases hres
  · cases ho : t.owner id with
    | none =>
      rw [ho] at hres
      cases hres
    | some slot =>
      rw [ho] at hres
      cases hres
      obtain ⟨name, hslot, hin⟩ := ht.owner_iff.mp ho
      simp only [Router.inRange, Bool.and_eq_true, decide_eq_true_iff] at hin
      have hid : id = slot.offset + (id - slot.offset) := by omega
      exact ⟨.own name hslot hid (by omega), hid⟩

theorem lookup_yields (hs : s.Wf) :
    Yields Router.Wf Grows (fun res t => ∀ id, res = .ok id → LookedUp entries t dirid name id)
      (Router.lookup entries dirid name) s := by
  have hc := grows_compat entries
  -- Both numbers of a directory come down to a call of the slot's adapter.
  have hinside : ∀ {t : Router} {slot : Slot} {l : Nat}, t.Wf → dirid ≠ Router.rootInode →
      Stands entries t dirid slot l →
      Yields Router.Wf Grows (fun res t => ∀ id, res = .ok id → LookedUp entries t dirid name id)
        (do let id ← KinNfsFs.lookup slot.adapter l name; pure (id + slot.offset) : NfsM Nat) t := by
    intro t slot l ht hd hstands
    refine (adapter_lookup_yields ht (hstands.built ht)).andThen hc.rely ht ?_
      (fun e u _ _ _ id he => by cases he)
    rintro i u hi - htu id hid
    cases hid
    exact .inside slot l i hd (hstands.grows htu) (hi i rfl) rfl
  unfold Router.lookup
  split
  · rename_i hd
    split
    · rename_i hname
      intro id hid
      cases hid
      exact .exportDots hd hname rfl
    · rename_i hdots
      cases hf : entries.find? (·.name == name) with
      | none =>
        intro id he
        cases he
      | some entry =>
        have hname : entry.name = name := by simpa using List.find?_some hf
        refine (getOrCreateSlot_yields hc hs).andThen hc.rely hs ?_ (fun e t _ _ _ id he => by cases he)
        rintro o t ⟨o', ho', hslot, -⟩ - -
        cases ho'
        cases o with
        | none =>
          intro id he
          cases he
        | some slot =>
          intro id hid
          cases hid
          rw [hname] at hslot
          exact .workspace slot hd hdots (hslot slot rfl) rfl
  · rename_i hd
    split
    · rename_i hsyn
      refine (stands_synthetic entries hs hsyn).andThen hc.rely hs ?_ (fun e t _ _ _ id he => by cases he)
      intro slot t hslot ht _
      exact hinside ht hd (hslot slot rfl)
    · refine (stands_own entries hs).andThen hc.rely hs ?_ (fun e t _ _ _ id he => by cases he)
      intro v t hv ht _
      exact hinside ht hd (hv v rfl).1

theorem router_getattr_yields (hs : s.Wf) :
    Yields Router.Wf Grows (fun res _ => ∀ attr, res = .ok attr → attr.fileid = id)
      (Router.getattr entries id) s := by
  have hc := grows_compat entries
  unfold Router.getattr
  split
  · rename_i hid
    refine (Yields.look hc.rely fun t _ _ attr hattr => ?_)
    cases hattr
    exact hid.symm
  · split
    · rename_i hsyn
      refine (stands_synthetic entries hs hsyn).andThen hc.rely hs ?_ (fun e t _ _ _ attr he => by cases he)
      intro slot t _ ht _
      refine (getattr_yields hc ht).andThen hc.rely ht ?_ (fun e u _ _ _ attr he => by cases he)
      rintro a u - - - attr hattr
      cases hattr
      rfl
    · refine (stands_own entries hs).andThen hc.rely hs ?_ (fun e t _ _ _ attr he => by cases he)
      intro v t hv ht _
      refine (getattr_yields hc ht).andThen hc.rely ht ?_ (fun e u _ _ _ attr he => by cases he)
      rintro a u - - - attr hattr
      cases hattr
      show v.2 + v.1.offset = id
      rw [(hv v rfl).2, Nat.add_comm]

theorem names_of_listing {dir : VfsPath} {es : List DirEntry} {all : List KinNfsFs.Listed} {x : KinNfsFs.Listed}
    (hl : Listing t h dir es all) (hdir : t.idOf h dir = some l) (hx : x ∈ all) : Names t h l x.name x.id := by
  have hid := hl.ids x hx
  have hmem : (x.name, x.path) ∈ listed dir es := by
    rw [← hl.paths]
    exact List.mem_map_of_mem hx
  rcases List.mem_cons.mp hmem with heq | hmem
  · obtain ⟨hname, hpath⟩ := Prod.mk.inj heq
    rw [hpath] at hid
    exact .self dir hdir hname (Option.some.inj (hid.symm.trans hdir))
  · rcases List.mem_cons.mp hmem with heq | hmem
    · obtain ⟨hname, hpath⟩ := Prod.mk.inj heq
      rw [hpath] at hid
      exact .up dir hdir hname hid
    · obtain ⟨e, -, heq⟩ := List.mem_map.mp hmem
      obtain ⟨hname, hpath⟩ := Prod.mk.inj heq
      rw [← hpath] at hid
      exact .child dir e.name hdir hname.symm hid

theorem adapter_readdir_yields {startAfter maxEntries : Nat} (hs : s.Wf) (hh : h < s.built) :
    Yields Router.Wf Grows (fun res t => ∀ page, res = .ok page →
        ∀ e ∈ page.entries, e.attr.fileid = e.fileid ∧ Names t h l e.name e.fileid)
      (KinNfsFs.readdir h l startAfter maxEntries) s := by
  have hc := grows_compat []
  refine (idToPath_yields hc).andThen hc.rely hs ?_ (fun e t _ _ _ page he => by cases he)
  intro dir t hp ht hst
  have hdir : t.idOf h dir = some l := idOf_of_elim ht hp
  have hht := Nat.lt_of_lt_of_le hh hst.built
  refine (ask_yields hc _).andThen hc.rely ht ?_ (fun e u _ _ _ page he => by cases he)
  intro es u _ hu htu
  have hhu := Nat.lt_of_lt_of_le hht htu.built
  refine (listing_yields hc hu hhu (htu.ids h dir l hht trivial hdir) fun _ _ => trivial).andThen hc.rely hu ?_
    (fun e v _ _ _ page he => by cases he)
  rintro all v ⟨all', hall', hl⟩ hv huv
  cases hall'
  have hhv := Nat.lt_of_lt_of_le hhu huv.built
  have hattr : ∀ x ∈ all, ∀ w, w.Wf → Grows v w →
      Yields Router.Wf Grows (fun r _ => ∀ y, r = .ok (some y) →
        tag y = (x.id, x.name) ∧ y.attr.fileid = x.id) (KinNfsFs.entryAttr h x) w := by
    intro x _ w _ _
    apply Yields.bind
    apply Yields.look hc.rely
    intro z _ _
    dsimp only
    cases (z.adapters h).provider.stat x.path with
    | ok st =>
      intro y hy
      cases hy
      exact ⟨rfl, rfl⟩
    | error e =>
      intro y hy
      cases hy
  refine (Paging.readPage_mem hc.rely hattr hv).andThen hc.rely hv ?_ (fun e w _ _ _ page he => by cases he)
  intro page w hpage hw hvw page' hpage' e he
  cases hpage'
  obtain ⟨x, hx, htag, hid⟩ := hpage page rfl e he
  obtain ⟨hfile, hname⟩ := Prod.mk.inj htag
  have hdirw := (htu.trans (huv.trans hvw)).ids h dir l hht trivial hdir
  have hnames := names_of_listing (hl.keeps hvw hhv fun _ _ => trivial) hdirw hx
  rw [hid, hfile, hname]
  exact ⟨rfl, hnames⟩

theorem workspaceAttr_fileid (hs : s.Wf) :
    Yields Router.Wf Grows (fun res _ => ∀ attr, res = .ok attr → attr.fileid = id)
      (Router.workspaceAttr entries slot id) s := by
  have hc := grows_compat entries
  have hown : Yields Router.Wf Grows (fun _ _ => True)
      (KinNfsFs.getattr slot.adapter KinNfsFs.rootDir).attempt s :=
    Yields.attempt ((getattr_yields hc hs).mono fun _ _ _ => trivial)
  refine hown.andThen hc.rely hs ?_ (fun e t _ _ _ attr he => by cases he)
  rintro r t - ht -
  cases r with
  | ok attr =>
    intro attr hattr
    cases hattr
    rfl
  | error e =>
    refine (rootAttr_yields hc).andThen hc.rely ht ?_ (fun e u _ _ _ attr he => by cases he)
    rintro a u - - - attr hattr
    cases hattr
    rfl

/-- A number of the export root's listing, other than its own, is that of an entry. -/
theorem entry_of_listed {x : Nat × Bytes} (hx : x ∈ Router.rootListing entries) (hne : x.1 ≠ Router.rootInode) :
    ∃ entry, entries[x.1 - 2]? = some entry := by
  rcases List.mem_cons.mp hx with rfl | hx
  · exact absurd rfl hne
  · rcases List.mem_cons.mp hx with rfl | hx
    · exact absurd rfl hne
    · obtain ⟨e, he, rfl⟩ := List.mem_map.mp hx
      have hfound : (entries.findIdx? (·.name == e.name)).isSome := by
        rw [List.findIdx?_isSome, List.any_eq_true]
        exact ⟨e, he, beq_self_eq_true _⟩
      obtain ⟨i, hi⟩ := Option.isSome_iff_exists.mp hfound
      have hlt := (List.findIdx?_eq_some_iff_getElem.mp hi).1
      refine ⟨entries[i], ?_⟩
      show entries[Router.workspaceRootInode entries e.name - 2]? = _
      unfold Router.workspaceRootInode
      rw [hi]
      exact List.getElem?_eq_getElem hlt

/-- An entry of the export root carries its number. -/
theorem rootEntryAttr_fileid {x : Nat × Bytes} (hs : s.Wf) (hx : x ∈ Router.rootListing entries) :
    Yields Router.Wf Grows (fun res _ => ∀ y, res = .ok (some y) → tag y = x ∧ y.attr.fileid = x.1)
      (Router.rootEntryAttr entries x) s := by
  have hc := grows_compat entries
  have hattr : Yields Router.Wf Grows (fun res _ => ∀ attr, res = .ok attr → attr.fileid = x.1)
      (Router.rootListedAttr entries x) s := by
    unfold Router.rootListedAttr
    split
    · rename_i hroot
      refine Yields.look hc.rely fun t _ _ attr hattr => ?_
      cases hattr
      exact hroot.symm
    · rename_i hroot
      obtain ⟨entry, hentry⟩ := entry_of_listed hx hroot
      rw [hentry]
      refine (getOrCreateSlot_yields hc hs).andThen hc.rely hs ?_ (fun e t _ _ _ attr he => by cases he)
      rintro o t ⟨o', ho', -, hsome⟩ ht -
      cases ho'
      have hfound : (entries.find? (·.name == entry.name)).isSome := by
        rw [List.find?_isSome]
        exact ⟨entry, List.mem_of_getElem? hentry, beq_self_eq_true _⟩
      obtain ⟨slot, rfl⟩ := Option.isSome_iff_exists.mp (hsome hfound)
      exact workspaceAttr_fileid ht
  rw [Router.rootEntryAttr]
  refine hattr.andThen hc.rely hs ?_ (fun e t _ _ _ y he => by cases he)
  rintro attr t hid - - y hy
  cases hy
  exact ⟨rfl, hid attr rfl⟩

theorem readdir_yields {startAfter maxEntries : Nat} (hs : s.Wf) :
    Yields Router.Wf Grows (fun res t => ∀ page, res = .ok page →
        ∀ e ∈ page.entries, e.attr.fileid = e.fileid ∧ Shown entries t dirid e.name e.fileid)
      (Router.readdir entries dirid startAfter maxEntries) s := by
  have hc := grows_compat entries
  unfold Router.readdir
  split
  · rename_i hd
    have hattr : ∀ x ∈ Router.rootListing entries, ∀ t, t.Wf → Grows s t →
        Yields Router.Wf Grows (fun res _ => ∀ y, res = .ok (some y) →
          tag y = x ∧ y.attr.fileid = x.1) (Router.rootEntryAttr entries x) t :=
      fun x hx t ht _ => rootEntryAttr_fileid ht hx
    refine (Paging.readPage_mem hc.rely hattr hs).andThen hc.rely hs ?_ (fun e t _ _ _ page he => by cases he)
    rintro page t hpage - - page' hpage' e he
    cases hpage'
    obtain ⟨x, hx, rfl, hid⟩ := hpage page rfl e he
    exact ⟨hid, .exportRoot hd hx⟩
  · rename_i hd
    split
    · rename_i hsyn
      refine (stands_synthetic entries hs hsyn).andThen hc.rely hs ?_ (fun e t _ _ _ page he => by cases he)
      intro slot t hslot ht _
      have hstands := hslot slot rfl
      refine (adapter_readdir_yields ht (hstands.built ht)).andThen hc.rely ht ?_
        (fun e u _ _ _ page he => by cases he)
      rintro page u hpage - htu page' hpage' e he
      cases hpage'
      obtain ⟨e', he', rfl⟩ := List.mem_map.mp he
      obtain ⟨hid, hnames⟩ := hpage page rfl e' he'
      unfold Router.translateRoot
      split
      · rename_i hname
        exact ⟨rfl, .inside slot _ _ hd (hstands.grows htu) hnames (by rw [if_pos ⟨hsyn, hname⟩])⟩
      · rename_i hname
        refine ⟨by rw [Router.translate, hid], .inside slot _ _ hd (hstands.grows htu) hnames ?_⟩
        rw [if_neg fun hcon => hname hcon.2]
        rfl
    · rename_i hsyn
      refine (stands_own entries hs).andThen hc.rely hs ?_ (fun e t _ _ _ page he => by cases he)
      intro v t hv ht _
      have hstands := (hv v rfl).1
      refine (adapter_readdir_yields ht (hstands.built ht)).andThen hc.rely ht ?_
        (fun e u _ _ _ page he => by cases he)
      rintro page u hpage - htu page' hpage' e he
      cases hpage'
      obtain ⟨e', he', rfl⟩ := List.mem_map.mp he
      obtain ⟨hid, hnames⟩ := hpage page rfl e' he'
      refine ⟨by rw [Router.translate, hid], .inside v.1 _ _ hd (hstands.grows htu) hnames ?_⟩
      rw [if_neg fun hcon => hsyn hcon.1]
      rfl

theorem serve_told (a : Ask) (hs : s.Wf) : Yields Router.Wf Grows (Told entries a) (serve entries a) s := by
  have hc := grows_compat entries
  cases a with
  | lookup dirid name =>
    refine (lookup_yields hs).andThen hc.rely hs ?_ (fun _ _ _ _ _ => trivial)
    exact fun id t hid _ _ => hid id rfl
  | getattr id =>
    refine (router_getattr_yields hs).andThen hc.rely hs ?_ (fun _ _ _ _ _ => trivial)
    exact fun attr t hattr _ _ => hattr attr rfl
  | readdir dirid startAfter maxEntries =>
    refine (readdir_yields hs).andThen hc.rely hs ?_ (fun _ _ _ _ _ => trivial)
    exact fun page t hpage _ _ => hpage page rfl

/-! ## Answers agree -/

theorem bytes_ne_dot (n : VfsName) : n.bytes ≠ [dot] := by
  intro hn
  have := n.isComponent.1
  rw [hn] at this
  cases this

theorem bytes_ne_dotdot (n : VfsName) : n.bytes ≠ [dot, dot] := by
  intro hn
  have := n.isComponent.1
  rw [hn] at this
  cases this

theorem Stands.ne_root (hd : Stands entries t id slot l) (hw : t.Wf) : id ≠ Router.rootInode := by
  have hroot := rootInode_lt
  cases hd with
  | synthetic entry hsyn _ _ _ =>
    simp only [Router.isSynthetic, Bool.and_eq_true, decide_eq_true_iff] at hsyn
    simp only [Router.rootInode]
    omega
  | own name hslot hid _ =>
    have := hw.base_le hslot
    omega

/-- A number stands for one thing. -/
theorem Stands.unique (hw : t.Wf) (hd : Stands entries t id slot l) (hd' : Stands entries t id slot' i) :
    slot = slot' ∧ l = i := by
  have happart : ∀ {name slot l}, t.slots.lookup name = some slot → id = slot.offset + l →
      ¬ Router.isSynthetic id = true := by
    intro name slot l hslot hid hsyn
    have := hw.base_le hslot
    simp only [Router.isSynthetic, Bool.and_eq_true, decide_eq_true_iff] at hsyn
    omega
  cases hd with
  | synthetic entry hsyn hentry hslot hl =>
    cases hd' with
    | synthetic entry' _ hentry' hslot' hi =>
      rw [hentry] at hentry'
      cases hentry'
      rw [hslot] at hslot'
      exact ⟨Option.some.inj hslot', hl.trans hi.symm⟩
    | own name hslot' hid _ => exact absurd hsyn (happart hslot' hid)
  | own name hslot hid hl =>
    cases hd' with
    | synthetic entry hsyn _ _ _ => exact absurd hsyn (happart hslot hid)
    | own name' hslot' hid' hi =>
      have hin : Router.inRange id slot = true := by
        simp [Router.inRange]
        omega
      have hin' : Router.inRange id slot' = true := by
        simp [Router.inRange]
        omega
      have heq := hw.range_unique (Router.mem_of_lookup hslot) (Router.mem_of_lookup hslot') hin hin'
      obtain ⟨-, rfl⟩ := Prod.mk.inj heq
      exact ⟨rfl, by omega⟩

/-- A name has one number. -/
theorem Names.unique (hw : t.Wf) (hn : Names t h l name i) (hn' : Names t h l name j) : i = j := by
  have hpath : ∀ {p q}, t.idOf h p = some l → t.idOf h q = some l → p = q := fun hp hq => (hw.tables h).path_inj hp hq
  cases hn with
  | self p hp hname hi =>
    cases hn' with
    | self q _ _ hj => exact hi.trans hj.symm
    | up q _ hname' _ => exact absurd (hname.symm.trans hname') (by decide)
    | child q n _ hname' _ => exact absurd (hname'.symm.trans hname) (bytes_ne_dot n)
  | up p hp hname hi =>
    cases hn' with
    | self q _ hname' _ => exact absurd (hname'.symm.trans hname) (by decide)
    | up q hq _ hj =>
      rw [hpath hp hq] at hi
      exact Option.some.inj (hi.symm.trans hj)
    | child q n _ hname' _ => exact absurd (hname'.symm.trans hname) (bytes_ne_dotdot n)
  | child p n hp hname hi =>
    cases hn' with
    | self q _ hname' _ => exact absurd (hname.symm.trans hname') (bytes_ne_dot n)
    | up q _ hname' _ => exact absurd (hname.symm.trans hname') (bytes_ne_dotdot n)
    | child q m hq hname' hj =>
      rw [hpath hp hq, VfsName.ext (hname.symm.trans hname')] at hi
      exact Option.some.inj (hi.symm.trans hj)

/-- An id that the adapter of the slot has given out, under the router's numbers. -/
def Issued (t : Router) (slot : Slot) (id : Nat) : Prop :=
  ∃ p i, t.idOf slot.adapter p = some i ∧ id = i + slot.offset

/-- Fewer than `2 ^ 40` paths have an id in each workspace. -/
def Roomy (t : Router) : Prop :=
  ∀ name slot, t.slots.lookup name = some slot → (t.adapters slot.adapter).inodes.nextId ≤ inodesPerWorkspace

/-- An id stands for what the adapter gave it to. -/
theorem stands_of_idOf {p : VfsPath} (hw : t.Wf) (hroom : Roomy t) (hslot : t.slots.lookup name = some slot)
    (hid : t.idOf slot.adapter p = some i) : Stands entries t (i + slot.offset) slot i := by
  have hlt := ((hw.tables _).fresh _ _ (((hw.tables _).inverse _ _).mp hid)).2
  exact .own name hslot (Nat.add_comm _ _) (Nat.lt_of_lt_of_le hlt (hroom name slot hslot))

theorem owner_of_issued (hw : t.Wf) (hroom : Roomy t) (hslot : t.slots.lookup name = some slot)
    (hid : Issued t slot id) : t.owner id = some slot := by
  obtain ⟨p, i, hi, rfl⟩ := hid
  have hlt := ((hw.tables _).fresh _ _ (((hw.tables _).inverse _ _).mp hi)).2
  have := hroom name slot hslot
  refine hw.owner_iff.mpr ⟨name, hslot, ?_⟩
  simp [Router.inRange]
  omega

/-- The number `c` was answered for the name `n` in a directory of a workspace, by a lookup or in a listing. -/
inductive Child (answers : List (Ask × Except NfsStat Reply)) (dirid : Nat) (n : VfsName) (c : Nat) : Prop
  | found : dirid ≠ Router.rootInode → (.lookup dirid n.bytes, .ok (.id c)) ∈ answers → Child answers dirid n c
  | listed (startAfter maxEntries : Nat) (page : ReadDirResult) (e : NfsDirEntry) : dirid ≠ Router.rootInode →
      (.readdir dirid startAfter maxEntries, .ok (.page page)) ∈ answers → e ∈ page.entries →
      e.name = n.bytes → e.fileid = c → Child answers dirid n c

/-- The answers so far agree with each other. -/
structure Coherent (entries : List WorkspaceEntry) (answers : List (Ask × Except NfsStat Reply)) (t : Router) :
    Prop where
  /-- A listing shows the number that a lookup answers. This leaves out the names of workspaces in the export
  root, and `..` of a workspace root as the export root lists it. -/
  listed_found : ∀ dirid name id startAfter maxEntries page, (.lookup dirid name, .ok (.id id)) ∈ answers →
    (.readdir dirid startAfter maxEntries, .ok (.page page)) ∈ answers →
    (dirid = Router.rootInode → name = [dot] ∨ name = [dot, dot]) →
    ¬ (Router.isSynthetic dirid = true ∧ name = [dot, dot]) →
    ∀ e ∈ page.entries, e.name = name → e.fileid = id
  /-- The attributes of a number carry it, in a listing as well. -/
  reported : ∀ id attr, (.getattr id, .ok (.attr attr)) ∈ answers → attr.fileid = id
  listed_attr : ∀ dirid startAfter maxEntries page, (.readdir dirid startAfter maxEntries, .ok (.page page)) ∈ answers →
    ∀ e ∈ page.entries, e.attr.fileid = e.fileid
  /-- The export root lists the `i`-th workspace under `i + 2`, -/
  workspace_listed : ∀ (i : Nat) ws startAfter maxEntries page, entries[i]? = some ws →
    (.readdir Router.rootInode startAfter maxEntries, .ok (.page page)) ∈ answers →
    ∀ e ∈ page.entries, e.name = ws.name → e.fileid = i + 2
  /-- which stands for what the number of a lookup there stands for. -/
  workspace_found : ∀ (i : Nat) ws g n c c', entries[i]? = some ws →
    (.lookup Router.rootInode ws.name, .ok (.id g)) ∈ answers →
    Child answers g n c → Child answers (i + 2) n c' → c = c'
  /-- Up from a child is the directory, under its own number. -/
  up : ∀ dirid n c u, Child answers dirid n c → (.lookup c [dot, dot], .ok (.id u)) ∈ answers →
    workspaceBase ≤ dirid → u = dirid
  up_workspace : ∀ (i : Nat) ws g n c u, entries[i]? = some ws →
    (.lookup Router.rootInode ws.name, .ok (.id g)) ∈ answers →
    Child answers (i + 2) n c → (.lookup c [dot, dot], .ok (.id u)) ∈ answers → u = g
  /-- A number comes from one workspace, and leads back to the adapter that gave it. -/
  apart : ∀ ws ws' slot slot' id, t.slots.lookup ws = some slot → t.slots.lookup ws' = some slot' →
    Issued t slot id → Issued t slot' id → ws = ws'
  issued : ∀ dirid n c, Child answers dirid n c →
    ∃ ws slot, t.slots.lookup ws = some slot ∧ Issued t slot c ∧ t.owner c = some slot
  issued_root : ∀ ws g, (.lookup Router.rootInode ws, .ok (.id g)) ∈ answers → ws ≠ [dot] → ws ≠ [dot, dot] →
    ∃ slot, t.slots.lookup ws = some slot ∧ Issued t slot g ∧ t.owner g = some slot

section Agree

variable {answers : List (Ask × Except NfsStat Reply)} {n : VfsName} {c : Nat}

/-- What a child says of the state. -/
theorem Child.told (hc : Child answers dirid n c) (htold : ∀ a ∈ answers, Told entries a.1 a.2 t) :
    ∃ slot l p i, Stands entries t dirid slot l ∧ t.idOf slot.adapter p = some l ∧
      t.idOf slot.adapter (p.join n) = some i ∧ c = i + slot.offset := by
  have hnames : ∀ {slot : Slot} {l i : Nat}, Names t slot.adapter l n.bytes i →
      ∃ p, t.idOf slot.adapter p = some l ∧ t.idOf slot.adapter (p.join n) = some i := by
    intro slot l i hn
    cases hn with
    | self p _ hname _ => exact absurd hname (bytes_ne_dot n)
    | up p _ hname _ => exact absurd hname (bytes_ne_dotdot n)
    | child p m hp hname hi =>
      rw [← VfsName.ext hname] at hi
      exact ⟨p, hp, hi⟩
  cases hc with
  | found hd hmem =>
    cases htold _ hmem with
    | exportDots hd' _ _ => exact absurd hd' hd
    | workspace _ hd' _ _ _ => exact absurd hd' hd
    | inside slot l i _ hs hn hid =>
      obtain ⟨p, hp, hi⟩ := hnames hn
      exact ⟨slot, l, p, i, hs, hp, hi, hid⟩
  | listed startAfter maxEntries page e hd hmem he hname hid =>
    cases (htold _ hmem e he).2 with
    | exportRoot hd' _ => exact absurd hd' hd
    | inside slot l i _ hs hn hid' =>
      rw [hname] at hn hid'
      rw [if_neg fun hcon => bytes_ne_dotdot n hcon.2] at hid'
      obtain ⟨p, hp, hi⟩ := hnames hn
      exact ⟨slot, l, p, i, hs, hp, hi, hid.symm.trans hid'⟩

/-- Up from a child is the directory it was found in. -/
theorem Child.up (hchild : Child answers dirid n c) (htold : ∀ a ∈ answers, Told entries a.1 a.2 t) (hw : t.Wf)
    (hroom : Roomy t) {u : Nat} (hu : (.lookup c [dot, dot], .ok (.id u)) ∈ answers) :
    ∃ slot l, Stands entries t dirid slot l ∧ u = l + slot.offset := by
  obtain ⟨slot, l, p, i, hs, hp, hi, rfl⟩ := hchild.told htold
  obtain ⟨ws, hslot⟩ := hs.lookup
  have hown : Stands entries t (i + slot.offset) slot i := stands_of_idOf hw hroom hslot hi
  cases htold _ hu with
  | exportDots hd _ _ => exact absurd hd (hown.ne_root hw)
  | workspace _ hd _ _ _ => exact absurd hd (hown.ne_root hw)
  | inside slot' l' i' _ hs' hn hid =>
    obtain ⟨rfl, rfl⟩ := hown.unique hw hs'
    have hup : Names t slot.adapter i [dot, dot] l := by
      refine .up (p.join n) hi rfl ?_
      rw [VfsPath.parent_join]
      exact hp
    exact ⟨slot, l, hs, by rw [hid, hn.unique hw hup]⟩

/-- The slot of a workspace that the number of the export root's listing stands for. -/
theorem Stands.of_synthetic {ws : WorkspaceEntry} (hs : Stands entries t (i + 2) slot l) (hw : t.Wf)
    (hi : entries[i]? = some ws) (hlen : i + 2 < workspaceBase) :
    t.slots.lookup ws.name = some slot ∧ l = KinNfsFs.rootDir := by
  cases hs with
  | synthetic entry _ hentry hslot hl =>
    rw [Nat.add_sub_cancel, hi] at hentry
    cases hentry
    exact ⟨hslot, hl⟩
  | own name hslot hid _ =>
    have := hw.base_le hslot
    omega

end Agree

/-- A listing and a lookup of one directory. -/
theorem Shown.eq_lookedUp (hw : t.Wf) (hnodup : (Directory.names entries [] .exportRoot).Nodup)
    (hs : Shown entries t dirid name i) (hl : LookedUp entries t dirid name j)
    (hroot : dirid = Router.rootInode → name = [dot] ∨ name = [dot, dot])
    (hup : ¬ (Router.isSynthetic dirid = true ∧ name = [dot, dot])) : i = j := by
  cases hs with
  | exportRoot hd hmem =>
    have hone : i = Router.rootInode := by
      rcases List.mem_cons.mp hmem with heq | hmem
      · exact (Prod.mk.inj heq).1
      · rcases List.mem_cons.mp hmem with heq | hmem
        · exact (Prod.mk.inj heq).1
        · -- No workspace is called `.` or `..`.
          obtain ⟨e, he, heq⟩ := List.mem_map.mp hmem
          have hname : name ∈ entries.map (·.name) := by
            rw [← (Prod.mk.inj heq).2]
            exact List.mem_map_of_mem he
          obtain ⟨hdot, hrest⟩ := List.nodup_cons.mp hnodup
          rcases hroot hd with rfl | rfl
          · exact absurd (List.mem_cons_of_mem _ hname) hdot
          · exact absurd hname (List.nodup_cons.mp hrest).1
    cases hl with
    | exportDots _ _ hj => exact hone.trans hj.symm
    | workspace _ _ hname _ _ => exact absurd (hroot hd) hname
    | inside _ _ _ hd' _ _ _ => exact absurd hd hd'
  | inside slot l i' hd hstands hn hi =>
    rw [if_neg hup] at hi
    cases hl with
    | exportDots hd' _ _ => exact absurd hd' hd
    | workspace _ hd' _ _ _ => exact absurd hd' hd
    | inside slot' l' j' _ hstands' hn' hj =>
      obtain ⟨rfl, rfl⟩ := hstands.unique hw hstands'
      rw [hi, hj, hn.unique hw hn']

/-- The number of a workspace in the export root's listing. -/
theorem mem_rootListing {ws : WorkspaceEntry} (hnodup : (Directory.names entries [] .exportRoot).Nodup)
    (hi : entries[i]? = some ws) (hmem : (id, ws.name) ∈ Router.rootListing entries) : id = i + 2 := by
  have hws : (entries.map (·.name)).Nodup := (List.nodup_cons.mp (List.nodup_cons.mp hnodup).2).2
  have hnames : (Router.rootListing entries).map Prod.snd = Directory.names entries [] .exportRoot := by
    simp [Router.rootListing, Directory.names, Function.comp_def]
  obtain ⟨j, hj⟩ := List.mem_iff_getElem?.mp hmem
  have hplace : (Directory.names entries [] .exportRoot)[j]? = (Directory.names entries [] .exportRoot)[i + 2]? := by
    have hat : (Directory.names entries [] .exportRoot)[i + 2]? = some ws.name := by
      show (entries.map (·.name))[i]? = some ws.name
      rw [List.getElem?_map, hi]
      rfl
    rw [hat, ← hnames, List.getElem?_map, hj]
    rfl
  have hlt : j < (Directory.names entries [] .exportRoot).length := by
    rw [← hnames, List.length_map]
    exact (List.getElem?_eq_some_iff.mp hj).1
  have hji : j = i + 2 := (List.getElem?_inj hlt hnodup).mp hplace
  have := rootListing_getElem hws hj
  omega

/-- Whatever order the first accesses and all later calls came in, their answers agree. -/
theorem namespace_coherent {provider : ContentProvider} {now : Nat} {p : Pool Router NfsStat Ask Reply}
    (hreach : Reach (serve entries) Elsewhere (Router.start provider now) p)
    (hnodup : (Directory.names entries [] .exportRoot).Nodup) (hlen : entries.length < 2 ^ 20 - 2)
    (hroom : Roomy p.shared) : Coherent entries p.answers p.shared := by
  have hc := grows_compat entries
  obtain ⟨hw, -, htold⟩ := hreach.answered (Q := Told entries) (Router.start_wf provider now) hc.rely
    (fun a r _ _ ht ha hst _ => told_grows ht ha hst) (fun ha he => he.grows ha) (fun a _ ha => serve_told a ha)
  have hsmall : ∀ {i : Nat} {ws : WorkspaceEntry}, entries[i]? = some ws → i + 2 < workspaceBase := by
    intro i ws hi
    have := (List.getElem?_eq_some_iff.mp hi).1
    unfold workspaceBase
    omega
  have hplain : ∀ {i : Nat} {ws : WorkspaceEntry}, entries[i]? = some ws →
      ws.name ≠ [dot] ∧ ws.name ≠ [dot, dot] := by
    intro i ws hi
    have hmem : ws.name ∈ entries.map (·.name) := List.mem_map_of_mem (List.mem_of_getElem? hi)
    obtain ⟨hdot, hrest⟩ := List.nodup_cons.mp hnodup
    constructor
    · intro heq
      rw [heq] at hmem
      exact hdot (List.mem_cons_of_mem _ hmem)
    · intro heq
      rw [heq] at hmem
      exact (List.nodup_cons.mp hrest).1 hmem
  -- A workspace that was looked up in the export root.
  have hfound : ∀ {ws g}, (.lookup Router.rootInode ws, .ok (.id g)) ∈ p.answers → ws ≠ [dot] → ws ≠ [dot, dot] →
      ∃ slot, p.shared.slots.lookup ws = some slot ∧ g = slot.offset + KinNfsFs.rootDir := by
    intro ws g hg hdot hdotdot
    cases htold _ hg with
    | exportDots _ hname _ => exact absurd hname (not_or.mpr ⟨hdot, hdotdot⟩)
    | workspace slot _ _ hslot hid => exact ⟨slot, hslot, hid⟩
    | inside _ _ _ hd _ _ _ => exact absurd rfl hd
  refine ⟨?_, ?_, ?_, ?_, ?_, ?_, ?_, ?_, ?_, ?_⟩
  · intro dirid name id startAfter maxEntries page hl hr hroot hup e he hname
    have hs := (htold _ hr e he).2
    rw [hname] at hs
    exact hs.eq_lookedUp hw hnodup (htold _ hl) hroot hup
  · exact fun id attr hmem => htold _ hmem
  · exact fun dirid startAfter maxEntries page hmem e he => (htold _ hmem e he).1
  · intro i ws startAfter maxEntries page hi hmem e he hname
    cases (htold _ hmem e he).2 with
    | exportRoot _ hlisted =>
      rw [hname] at hlisted
      exact mem_rootListing hnodup hi hlisted
    | inside _ _ _ hd _ _ _ => exact absurd rfl hd
  · intro i ws g n c c' hi hg hchild hchild'
    obtain ⟨hdot, hdotdot⟩ := hplain hi
    obtain ⟨slot, hslot, rfl⟩ := hfound hg hdot hdotdot
    obtain ⟨slot₁, l₁, p₁, i₁, hs₁, hp₁, hi₁, rfl⟩ := hchild.told htold
    obtain ⟨slot₂, l₂, p₂, i₂, hs₂, hp₂, hi₂, rfl⟩ := hchild'.told htold
    have hown : Stands entries p.shared (slot.offset + KinNfsFs.rootDir) slot KinNfsFs.rootDir :=
      .own ws.name hslot rfl (by decide)
    obtain ⟨rfl, rfl⟩ := hown.unique hw hs₁
    obtain ⟨hslot₂, rfl⟩ := hs₂.of_synthetic hw hi (hsmall hi)
    obtain rfl : slot = slot₂ := Option.some.inj (hslot.symm.trans hslot₂)
    obtain rfl : p₁ = p₂ := (hw.tables _).path_inj hp₁ hp₂
    rw [Option.some.inj (hi₁.symm.trans hi₂)]
  · intro dirid n c u hchild hu hbase
    obtain ⟨slot, l, hs, rfl⟩ := hchild.up htold hw hroom hu
    cases hs with
    | synthetic entry hsyn _ _ _ =>
      simp only [Router.isSynthetic, Bool.and_eq_true, decide_eq_true_iff] at hsyn
      omega
    | own name _ hid _ =>
      rw [hid, Nat.add_comm]
  · intro i ws g n c u hi hg hchild hu
    obtain ⟨hdot, hdotdot⟩ := hplain hi
    obtain ⟨slot, hslot, rfl⟩ := hfound hg hdot hdotdot
    obtain ⟨slot', l, hs, rfl⟩ := hchild.up htold hw hroom hu
    obtain ⟨hslot', rfl⟩ := hs.of_synthetic hw hi (hsmall hi)
    rw [Option.some.inj (hslot.symm.trans hslot'), Nat.add_comm]
  · intro ws ws' slot slot' id hslot hslot' hid hid'
    have howner := owner_of_issued hw hroom hslot hid
    rw [owner_of_issued hw hroom hslot' hid'] at howner
    obtain rfl := Option.some.inj howner
    exact (Prod.mk.inj (hw.apart _ (Router.mem_of_lookup hslot) _ (Router.mem_of_lookup hslot') (.inl rfl))).1
  · intro dirid n c hchild
    obtain ⟨slot, l, q, i, hs, -, hi, hc'⟩ := hchild.told htold
    obtain ⟨ws, hslot⟩ := hs.lookup
    exact ⟨ws, slot, hslot, ⟨_, i, hi, hc'⟩, owner_of_issued hw hroom hslot ⟨_, i, hi, hc'⟩⟩
  · intro ws g hg hdot hdotdot
    obtain ⟨slot, hslot, rfl⟩ := hfound hg hdot hdotdot
    have hissued : Issued p.shared slot (slot.offset + KinNfsFs.rootDir) :=
      ⟨.root, 1, ((hw.tables _).inverse _ _).mpr (hw.tables _).root, Nat.add_comm _ _⟩
    exact ⟨slot, hslot, hissued, owner_of_issued hw hroom hslot hissued⟩

namespace Demo

/-- The export root is listed, and then its workspace is looked up. -/
def listThenLookup : Pool Router NfsStat Ask Reply :=
  let s := Router.start graph 0
  let listed := (serve Demo.entries (.readdir Router.rootInode 0 3)).run s
  let found := (serve Demo.entries (.lookup Router.rootInode [119])).run listed.2
  ⟨found.2, fun _ => none,
    [(.readdir Router.rootInode 0 3, listed.1), (.lookup Router.rootInode [119], found.1)]⟩

theorem listThenLookup_reach : Reach (serve Demo.entries) Elsewhere (Router.start graph 0) listThenLookup :=
  (Reach.init.alone 0 (Ask.readdir Router.rootInode 0 3) rfl).alone 0 (Ask.lookup Router.rootInode [119]) rfl

theorem listThenLookup_roomy : Roomy listThenLookup.shared := by
  intro name slot hslot
  have hmem := Router.mem_of_lookup hslot
  have hslots : listThenLookup.shared.slots = [([119], ⟨0, workspaceBase⟩)] := by rfl
  rw [hslots, List.mem_singleton] at hmem
  obtain ⟨-, rfl⟩ := Prod.mk.inj hmem
  show (listThenLookup.shared.adapters 0).inodes.nextId ≤ inodesPerWorkspace
  have hnext : (listThenLookup.shared.adapters 0).inodes.nextId = 2 := by rfl
  rw [hnext]
  decide

end Demo

/-- The export root lists its workspace under 2, and a lookup there answers another number. -/
theorem listThenLookup_two_numbers :
    Reach (serve Demo.entries) Elsewhere (Router.start Demo.graph 0) Demo.listThenLookup ∧
      (Directory.names Demo.entries [] .exportRoot).Nodup ∧ Demo.entries.length < 2 ^ 20 - 2 ∧
      Roomy Demo.listThenLookup.shared ∧
      ∃ page e id, (.readdir Router.rootInode 0 3, .ok (.page page)) ∈ Demo.listThenLookup.answers ∧
        (.lookup Router.rootInode [119], .ok (.id id)) ∈ Demo.listThenLookup.answers ∧
        e ∈ page.entries ∧ e.name = [119] ∧ e.fileid = 2 ∧ id = 2 ^ 20 + 1 :=
  ⟨Demo.listThenLookup_reach, by decide, by decide, Demo.listThenLookup_roomy, _, _, _, List.mem_cons_self,
    List.mem_cons_of_mem _ List.mem_cons_self, List.mem_cons_of_mem _ (List.mem_cons_of_mem _ List.mem_cons_self),
    rfl, rfl, rfl⟩

theorem namespace_coherent_listThenLookup :
    Coherent Demo.entries Demo.listThenLookup.answers Demo.listThenLookup.shared :=
  namespace_coherent Demo.listThenLookup_reach (by decide) (by decide) Demo.listThenLookup_roomy

end KinVfs.Nfs
