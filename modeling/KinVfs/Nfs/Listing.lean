import KinVfs.Nfs.NamespaceSpec

/-!
# Paging through a directory of the export

A client lists a directory page by page, whatever other calls do in between, as long as what the directory
holds stays the same and all of it can be read (`Fixed`). A page is asked for after the number that was shown
for the last entry of the page before.

In the export root, and in a workspace root under either of its numbers, `.` and `..` are shown with one
number, or `..` with one that is not resumed after. A page that ends at `..` is then followed by one that
shows something again.
-/

namespace KinVfs.Nfs

open Interleave Paging

/-- What the provider answers of a directory: its entries, and attributes for all that is listed. -/
structure Reads (provider : ContentProvider) (dir : VfsPath) (es : List DirEntry) : Prop where
  entries : provider.readDir dir = .ok es
  stats : ∀ x ∈ listed dir es, ∃ st, provider.stat x.2 = .ok st

/-- A directory of the export, under the number a client may hold for it. -/
inductive Directory where
  | exportRoot
  /-- A workspace root, as the export root lists it. -/
  | entry (name : Bytes)
  /-- A directory of a workspace, under the number of its slot. -/
  | inside (name : Bytes) (path : VfsPath)

namespace Directory

/-- Where it is: a workspace, and a path there. -/
def place : Directory → Option (Bytes × VfsPath)
  | .exportRoot => none
  | .entry name => some (name, .root)
  | .inside name path => some (name, path)

/-- The directory has this number. -/
def Numbered (entries : List WorkspaceEntry) (r : Router) (dirid : Nat) : Directory → Prop
  | .exportRoot => dirid = Router.rootInode
  | .entry name => dirid < workspaceBase ∧ ∃ i e, entries[i]? = some e ∧ e.name = name ∧ dirid = i + 2
  | .inside name path => ∃ slot l, r.slots.lookup name = some slot ∧ r.idOf slot.adapter path = some l ∧
      l < inodesPerWorkspace ∧ dirid = slot.offset + l

/-- The names a complete listing shows, in its order. -/
def names (entries : List WorkspaceEntry) (es : List DirEntry) (d : Directory) : List Bytes :=
  [dot] :: [dot, dot] ::
    match d with
    | .exportRoot => entries.map (·.name)
    | _ => es.map (·.name.bytes)

/-- The paths whose ids a listing shows. -/
def Shows (es : List DirEntry) (d : Directory) (p : VfsPath) : Prop :=
  ∃ name dir, d.place = some (name, dir) ∧ ∃ x ∈ listed dir es, p = x.2

end Directory

namespace Router

/-- Who answers for a workspace: its adapter's provider, or the one that its first access builds. -/
def answers (entries : List WorkspaceEntry) (r : Router) (name : Bytes) : Option ContentProvider :=
  match r.slots.lookup name with
  | some slot => some (r.adapters slot.adapter).provider
  | none => (entries.find? (·.name == name)).map (·.graph)

/-- The directory holds `es`, all of which can be read. -/
structure Fixed (entries : List WorkspaceEntry) (d : Directory) (es : List DirEntry) (r : Router) : Prop where
  wf : r.Wf
  reads : ∀ name dir provider, d.place = some (name, dir) → r.answers entries name = some provider →
    Reads provider dir es

variable {entries : List WorkspaceEntry} {d : Directory} {es : List DirEntry} {r : Router} {name : Bytes} {h : Nat}
  {p : VfsPath}

theorem answers_assign : (r.assign h p).2.answers entries name = r.answers entries name := by
  unfold answers
  rw [assign_slots]
  split
  · rw [assign_provider]
  · rfl

/-- The provider of the first access is the one the slot then has. -/
theorem answers_create {made : Bytes} {entry : WorkspaceEntry} (hw : r.Wf)
    (hentry : entries.find? (·.name == made) = some entry) :
    (r.create made entry.graph).2.answers entries name = r.answers entries name := by
  cases hl : r.slots.lookup name with
  | some slot =>
    have hkeep : Keeps (fun _ => True) r (r.create made entry.graph).2 := create_keeps
    unfold answers
    rw [hkeep.slots name slot hl, hl]
    dsimp only
    rw [create_adapters_lt (hw.built _ (mem_of_lookup hl))]
  | none =>
    rcases create_cases r made entry.graph with ⟨other, -, -, hslots⟩ | ⟨-, hslot, hslots⟩
    · unfold answers
      rw [hslots, hl]
    · unfold answers
      rw [hslots, List.lookup_append, hl, hslot]
      by_cases hn : name = made
      · subst hn
        simp [(create_rest r name entry.graph).1, hentry, KinNfsFs.new]
      · have hne : (name == made) = false := by simpa using hn
        simp [List.lookup_cons, hne]

/-- A client's calls and what others do meanwhile. -/
theorem fixed_compat (entries : List WorkspaceEntry) (d : Directory) (es : List DirEntry) :
    Compat entries (d.Shows es) (Fixed entries d es) (Keeps (d.Shows es)) where
  rely := ⟨Keeps.refl, Keeps.trans⟩
  wf h := h.wf
  keeps h := h
  assign h p hr := by
    refine ⟨⟨assign_wf hr.wf, fun name dir provider hp ha => ?_⟩, assign_keeps⟩
    rw [answers_assign] at ha
    exact hr.reads name dir provider hp ha
  create name entry hentry hr := by
    refine ⟨⟨create_wf hr.wf, fun name dir provider hp ha => ?_⟩, create_keeps⟩
    rw [answers_create hr.wf hentry] at ha
    exact hr.reads name dir provider hp ha

end Router

/-! ## A page of one workspace -/

section Pages

variable {entries : List WorkspaceEntry} {K : VfsPath → Prop} {I : Router → Prop} {R : Router → Router → Prop}
variable {s t : Router} {h id startAfter maxEntries : Nat} {dir : VfsPath} {es : List DirEntry}
  {all all' : List KinNfsFs.Listed}

/-- What a page shows of an entry. -/
def tag (e : NfsDirEntry) : Nat × Bytes := (e.fileid, e.name)

/-- The page of the listing `all`. -/
structure PageOf (all : List KinNfsFs.Listed) (startAfter maxEntries : Nat) (page : ReadDirResult) : Prop where
  entries : page.entries.map tag =
    ((resume KinNfsFs.Listed.id startAfter all).take maxEntries).map fun x => (x.id, x.name)
  last : page.last = (decide (page.entries.length < maxEntries) ||
    decide (all.length ≤ skipCount KinNfsFs.Listed.id startAfter all + page.entries.length))

theorem Listing.keeps (hl : Listing s h dir es all) (hkeep : Router.Keeps K s t) (hh : h < s.built)
    (hK : ∀ x ∈ listed dir es, K x.2) : Listing t h dir es all where
  paths := hl.paths
  ids x hx := by
    have hmem : (x.name, x.path) ∈ listed dir es := by
      rw [← hl.paths]
      exact List.mem_map_of_mem hx
    exact hkeep.ids h x.path x.id hh (hK _ hmem) (hl.ids x hx)

/-- A listing is determined by the table. -/
theorem Listing.unique (hl : Listing t h dir es all) (hl' : Listing t h dir es all') : all = all' := by
  have hmap : ∀ {a}, Listing t h dir es a →
      a = (listed dir es).map fun x => ⟨(t.idOf h x.2).getD 0, x.1, x.2⟩ := by
    intro a ha
    rw [← ha.paths, List.map_map]
    conv_lhs => rw [← List.map_id a]
    refine List.map_congr_left fun x hx => ?_
    show x = ⟨(t.idOf h x.path).getD 0, x.name, x.path⟩
    rw [ha.ids x hx]
    rfl
  rw [hmap hl, hmap hl']

theorem readdir_reads (hc : Compat entries K I R) (hs : I s) (hh : h < s.built) (hdir : s.idOf h dir = some id)
    (hK : ∀ x ∈ listed dir es, K x.2) (hread : ∀ t, I t → R s t → Reads (t.adapters h).provider dir es) :
    Yields I R (fun res t => ∃ all page, Listing t h dir es all ∧ res = .ok page ∧
        PageOf all startAfter maxEntries page)
      (KinNfsFs.readdir h id startAfter maxEntries) s := by
  have hKdir : K dir := hK _ List.mem_cons_self
  refine (idToPath_yields hc).andThen hc.rely hs ?_ ?_
  · intro path t hpath ht hst
    -- The number still stands for the directory.
    have hid := (hc.keeps hst).ids h dir id hh hKdir hdir
    rw [((hc.wf ht).tables h).inverse dir id |>.mp hid] at hpath
    cases hpath
    refine (ask_yields hc _).andThen hc.rely ht ?_ ?_
    · intro es' u hes hu htu
      have hsu := hc.rely.trans hst htu
      rw [(hread u hu hsu).entries] at hes
      cases hes
      have hhu := Nat.lt_of_lt_of_le hh (hc.keeps hsu).built
      refine (listing_yields hc hu hhu ((hc.keeps hsu).ids h dir id hh hKdir hdir) hK).andThen hc.rely hu ?_
        (fun e v ⟨_, he, _⟩ => by cases he)
      rintro all v ⟨all', hall', hlist⟩ hv huv
      cases hall'
      have hsv := hc.rely.trans hsu huv
      have hhv := Nat.lt_of_lt_of_le hh (hc.keeps hsv).built
      have hreadable : Readable I R v tag (fun x : KinNfsFs.Listed => (x.id, x.name)) (KinNfsFs.entryAttr h) all := by
        intro x hx w hw hvw
        apply Yields.bind
        apply Yields.look hc.rely
        intro z hwz hz
        have hmem : (x.name, x.path) ∈ listed dir es := by
          rw [← hlist.paths]
          exact List.mem_map_of_mem hx
        obtain ⟨st, hst'⟩ := (hread z hz (hc.rely.trans hsv (hc.rely.trans hvw hwz))).stats _ hmem
        dsimp only
        rw [hst']
        exact ⟨_, rfl, rfl⟩
      refine (readPage_yields hc.rely hreadable hv).andThen hc.rely hv ?_ (fun e w ⟨_, he, _⟩ => by cases he)
      rintro page w ⟨ys, hpage, hys⟩ hw hvw
      cases hpage
      exact ⟨all, _, hlist.keeps (hc.keeps hvw) hhv hK, rfl, ⟨hys, rfl⟩⟩
    · intro e u he hu htu
      rw [(hread u hu (hc.rely.trans hst htu)).entries] at he
      cases he
  · intro e t he ht hst
    rw [((hc.wf ht).tables h).inverse dir id |>.mp ((hc.keeps hst).ids h dir id hh hKdir hdir)] at he
    cases he

end Pages

/-! ## A page of the export -/

/-- What the router makes of an entry of a workspace's page. -/
def Directory.translate : Directory → Nat → NfsDirEntry → NfsDirEntry
  | .entry _ => Router.translateRoot
  | _ => Router.translate

/-- The same of what a page shows. -/
def Directory.shownAs (d : Directory) (offset : Nat) (x : Nat × Bytes) : Nat × Bytes :=
  match d with
  | .entry _ => if x.2 = [dot, dot] then (Router.rootInode, x.2) else (x.1 + offset, x.2)
  | _ => (x.1 + offset, x.2)

theorem tag_translate (d : Directory) (offset : Nat) (e : NfsDirEntry) :
    tag (d.translate offset e) = d.shownAs offset (tag e) := by
  cases d with
  | exportRoot => rfl
  | inside name path => rfl
  | entry name =>
    show tag (if e.name = [dot, dot] then _ else _) = if e.name = [dot, dot] then _ else _
    split <;> rfl

@[simp] theorem shownAs_snd (d : Directory) (offset : Nat) (x : Nat × Bytes) : (d.shownAs offset x).2 = x.2 := by
  cases d with
  | exportRoot => rfl
  | inside name path => rfl
  | entry name =>
    show (if x.2 = [dot, dot] then _ else _ : Nat × Bytes).2 = x.2
    split <;> rfl

section Routed

variable {entries : List WorkspaceEntry} {d : Directory} {es : List DirEntry} {s t : Router} {name : Bytes}
  {dir : VfsPath} {slot : Slot} {id startAfter maxEntries : Nat}

/-- A page of a workspace: of the listing of its adapter, after the key that is left of `startAfter`. -/
def Routed (d : Directory) (name : Bytes) (dir : VfsPath) (es : List DirEntry) (startAfter maxEntries : Nat)
    (res : Except NfsStat ReadDirResult) (t : Router) : Prop :=
  ∃ slot all page, t.slots.lookup name = some slot ∧ Listing t slot.adapter dir es all ∧
    PageOf all (startAfter - slot.offset) maxEntries page ∧
    res = .ok { page with entries := page.entries.map (d.translate slot.offset) }

theorem Router.Fixed.reads_slot (hs : Router.Fixed entries d es s) (hplace : d.place = some (name, dir))
    (hslot : s.slots.lookup name = some slot) : Reads (s.adapters slot.adapter).provider dir es := by
  refine hs.reads name dir _ hplace ?_
  unfold Router.answers
  rw [hslot]

theorem Directory.shows_of_mem (hplace : d.place = some (name, dir)) :
    ∀ x ∈ listed dir es, d.Shows es x.2 :=
  fun x hx => ⟨name, dir, hplace, x, hx, rfl⟩

/-- The page of a slot's adapter, among others that leave the directory as it is. -/
theorem adapter_page (hs : Router.Fixed entries d es s) (hplace : d.place = some (name, dir))
    (hslot : s.slots.lookup name = some slot) (hid : s.idOf slot.adapter dir = some id) :
    Yields (Router.Fixed entries d es) (Router.Keeps (d.Shows es)) (Routed d name dir es startAfter maxEntries)
      (do
        let page ← KinNfsFs.readdir slot.adapter id (startAfter - slot.offset) maxEntries
        pure { page with entries := page.entries.map (d.translate slot.offset) } : NfsM ReadDirResult) s := by
  have hc := Router.fixed_compat entries d es
  have hread : ∀ t, Router.Fixed entries d es t → Router.Keeps (d.Shows es) s t →
      Reads (t.adapters slot.adapter).provider dir es :=
    fun t ht hst => ht.reads_slot hplace (hst.slots _ _ hslot)
  have hbuilt := hs.wf.built _ (Router.mem_of_lookup hslot)
  refine (readdir_reads hc hs hbuilt hid (Directory.shows_of_mem hplace) hread).andThen hc.rely hs ?_
    (fun e t ⟨_, _, _, he, _⟩ => by cases he)
  rintro page t ⟨all, page', hlist, hpage, hof⟩ - hst
  cases hpage
  exact ⟨slot, all, page, hst.slots _ _ hslot, hlist, hof, rfl⟩

theorem rootInode_lt : Router.rootInode < workspaceBase := by decide

/-- A page of a workspace root, as the export root lists it. -/
theorem readdir_entry (hs : Router.Fixed entries (.entry name) es s)
    (hn : Directory.Numbered entries s id (.entry name)) :
    Yields (Router.Fixed entries (.entry name) es) (Router.Keeps (Directory.Shows es (.entry name)))
      (Routed (.entry name) name .root es startAfter maxEntries)
      (Router.readdir entries id startAfter maxEntries) s := by
  have hc := Router.fixed_compat entries (.entry name) es
  obtain ⟨hlt, i, e, hi, rfl, rfl⟩ := hn
  have hne : i + 2 ≠ Router.rootInode := by simp [Router.rootInode]
  have hsyn : Router.isSynthetic (i + 2) = true := by simp [Router.isSynthetic, hlt]
  unfold Router.readdir
  rw [if_neg hne, if_pos hsyn]
  refine (syntheticSlot_yields hc hs hi).andThen hc.rely hs ?_ (fun e t ⟨_, he, _⟩ => by cases he)
  rintro slot t ⟨slot', hslot', hl⟩ ht -
  cases hslot'
  have hroot : t.idOf slot.adapter .root = some 1 :=
    ((ht.wf.tables _).inverse _ _).mpr (ht.wf.tables _).root
  exact adapter_page ht rfl hl hroot

/-- A page of a directory of a workspace, under the number of its slot. -/
theorem readdir_inside (hs : Router.Fixed entries (.inside name dir) es s)
    (hn : Directory.Numbered entries s id (.inside name dir)) :
    Yields (Router.Fixed entries (.inside name dir) es) (Router.Keeps (Directory.Shows es (.inside name dir)))
      (Routed (.inside name dir) name dir es startAfter maxEntries)
      (Router.readdir entries id startAfter maxEntries) s := by
  have hc := Router.fixed_compat entries (.inside name dir) es
  obtain ⟨slot, l, hslot, hl, hlt, rfl⟩ := hn
  have hbase := hs.wf.base_le hslot
  have hroot := rootInode_lt
  have hne : slot.offset + l ≠ Router.rootInode := by omega
  have hsyn : ¬ Router.isSynthetic (slot.offset + l) = true := by
    simp [Router.isSynthetic]
    omega
  have hin : Router.inRange (slot.offset + l) slot = true := by simp [Router.inRange, hlt]
  have howner : ∀ t, Router.Fixed entries (.inside name dir) es t →
      Router.Keeps (Directory.Shows es (.inside name dir)) s t → t.owner (slot.offset + l) = some slot :=
    fun t ht hst => ht.wf.owner_iff.mpr ⟨name, hst.slots _ _ hslot, hin⟩
  unfold Router.readdir
  rw [if_neg hne, if_neg hsyn]
  refine (resolveInode_yields hc).andThen hc.rely hs ?_ ?_
  · intro v t hv ht hst
    rw [if_neg (by omega), howner t ht hst, Option.elim_some, Nat.add_sub_cancel_left] at hv
    cases hv
    have hbuilt := hs.wf.built _ (Router.mem_of_lookup hslot)
    have hshows : Directory.Shows es (.inside name dir) dir := ⟨name, dir, rfl, _, List.mem_cons_self, rfl⟩
    exact adapter_page ht rfl (hst.slots _ _ hslot) (hst.ids _ _ _ hbuilt hshows hl)
  · intro e t he ht hst
    rw [if_neg (by omega), howner t ht hst] at he
    cases he

end Routed

/-! ## The export root -/

section ExportRoot

variable {entries : List WorkspaceEntry} {K : VfsPath → Prop} {I : Router → Prop} {R : Router → Router → Prop}
variable {s : Router} {startAfter maxEntries : Nat}

theorem rootAttr_yields (hc : Compat entries K I R) :
    Yields I R (fun res _ => ∃ attr, res = .ok attr) (Router.rootAttr entries) s :=
  Yields.look hc.rely fun _ _ _ => ⟨_, rfl⟩

theorem workspaceAttr_yields {slot : Slot} {id : Nat} (hc : Compat entries K I R) (hs : I s) :
    Yields I R (fun res _ => ∃ attr, res = .ok attr) (Router.workspaceAttr entries slot id) s := by
  have hown : Yields I R (fun res _ => ∃ r, res = .ok r)
      (KinNfsFs.getattr slot.adapter KinNfsFs.rootDir).attempt s :=
    Yields.attempt ((getattr_yields hc hs).mono fun r _ _ => ⟨r, rfl⟩)
  refine hown.andThen hc.rely hs ?_ (fun e t ⟨_, he⟩ => by cases he)
  rintro r t - ht -
  cases r with
  | ok attr => exact ⟨_, rfl⟩
  | error e =>
    refine (rootAttr_yields hc).andThen hc.rely ht ?_ (fun e u ⟨_, he⟩ => by cases he)
    rintro attr u - - -
    exact ⟨_, rfl⟩

/-- An entry of the export root is always shown. -/
theorem rootEntryAttr_yields (hc : Compat entries K I R) (hs : I s) (x : Nat × Bytes) :
    Yields I R (fun res _ => ∃ y, res = .ok (some y) ∧ tag y = x) (Router.rootEntryAttr entries x) s := by
  have hattr : Yields I R (fun res _ => ∃ attr, res = .ok attr) (Router.rootListedAttr entries x) s := by
    unfold Router.rootListedAttr
    split
    · exact rootAttr_yields hc
    · split
      · exact rootAttr_yields hc
      · refine (getOrCreateSlot_yields hc hs).andThen hc.rely hs ?_ ?_
        case refine_2 =>
          rintro e t ⟨_, he, -⟩
          cases he
        rintro o t - ht -
        cases o with
        | none => exact rootAttr_yields hc
        | some slot => exact workspaceAttr_yields hc ht
  rw [Router.rootEntryAttr]
  refine hattr.andThen hc.rely hs ?_ ?_
  · rintro attr t - - -
    exact ⟨_, rfl, rfl⟩
  · rintro e t ⟨_, he⟩
    cases he

/-- A page of the export root. -/
def RootPage (entries : List WorkspaceEntry) (startAfter maxEntries : Nat)
    (res : Except NfsStat ReadDirResult) : Prop :=
  ∃ page, res = .ok page ∧
    page.entries.map tag = (resume Prod.fst startAfter (Router.rootListing entries)).take maxEntries ∧
    page.last = (decide (page.entries.length < maxEntries) || decide ((Router.rootListing entries).length ≤
      skipCount Prod.fst startAfter (Router.rootListing entries) + page.entries.length))

theorem readdir_exportRoot (hc : Compat entries K I R) (hs : I s) :
    Yields I R (fun res _ => RootPage entries startAfter maxEntries res)
      (Router.readdir entries Router.rootInode startAfter maxEntries) s := by
  have hreadable : Readable I R s tag id (Router.rootEntryAttr entries) (Router.rootListing entries) :=
    fun x _ t ht _ => rootEntryAttr_yields hc ht x
  unfold Router.readdir
  rw [if_pos rfl]
  refine (readPage_yields hc.rely hreadable hs).andThen hc.rely hs ?_ (fun e t ⟨_, he, _⟩ => by cases he)
  rintro page t ⟨ys, hpage, hys⟩ - -
  cases hpage
  rw [List.map_id] at hys
  exact ⟨_, rfl, hys, rfl⟩

end ExportRoot

/-! ## A client -/

namespace Directory

variable {entries : List WorkspaceEntry} {d : Directory} {es : List DirEntry} {s t : Router}
  {id : Nat}

/-- What a page call of the directory answers. -/
def Answered (entries : List WorkspaceEntry) (es : List DirEntry) (startAfter maxEntries : Nat) (d : Directory)
    (res : Except NfsStat ReadDirResult) (t : Router) : Prop :=
  match d with
  | .exportRoot => RootPage entries startAfter maxEntries res
  | .entry name => Routed (.entry name) name .root es startAfter maxEntries res t
  | .inside name dir => Routed (.inside name dir) name dir es startAfter maxEntries res t

theorem readdir_answered (startAfter maxEntries : Nat) (hs : Router.Fixed entries d es s) (hn : d.Numbered entries s id) :
    Yields (Router.Fixed entries d es) (Router.Keeps (d.Shows es)) (d.Answered entries es startAfter maxEntries)
      (Router.readdir entries id startAfter maxEntries) s := by
  cases d with
  | exportRoot =>
    obtain rfl : id = Router.rootInode := hn
    exact readdir_exportRoot (Router.fixed_compat entries .exportRoot es) hs
  | entry name => exact readdir_entry hs hn
  | inside name dir => exact readdir_inside hs hn

/-- The directory keeps its number. -/
theorem Numbered.keeps (hn : d.Numbered entries s id) (hw : s.Wf) (hst : Router.Keeps (d.Shows es) s t) :
    d.Numbered entries t id := by
  cases d with
  | exportRoot => exact hn
  | entry name => exact hn
  | inside name dir =>
    obtain ⟨slot, l, hslot, hl, hlt, hid⟩ := hn
    have hbuilt := hw.built _ (Router.mem_of_lookup hslot)
    have hshows : Directory.Shows es (.inside name dir) dir := ⟨name, dir, rfl, _, List.mem_cons_self, rfl⟩
    exact ⟨slot, l, hst.slots _ _ hslot, hst.ids _ _ _ hbuilt hshows hl, hlt, hid⟩

end Directory

/-- A client that asks for page after page of a directory, with the given sizes. Others act before each step
of a call, within `Keeps` of what the listing shows and `Fixed`. -/
structure Session (entries : List WorkspaceEntry) (d : Directory) (es : List DirEntry) (sizes : Nat → Nat) where
  dirid : Nat
  state : Nat → Router
  start : Nat → Nat
  page : Nat → Except NfsStat ReadDirResult
  fixed : Router.Fixed entries d es (state 0)
  numbered : d.Numbered entries (state 0) dirid
  first : start 0 = 0
  next : ∀ n r e, page n = .ok r → r.entries.getLast? = some e → start (n + 1) = e.fileid
  called : ∀ n, Exec (fun a b => Router.Keeps (d.Shows es) a b ∧ Router.Fixed entries d es b)
    (Router.readdir entries dirid (start n) (sizes n)) (state n) (page n) (state (n + 1))

namespace Session

variable {entries : List WorkspaceEntry} {d : Directory} {es : List DirEntry} {sizes : Nat → Nat}

/-- What the client is shown of a page. -/
def shown (c : Session entries d es sizes) (n : Nat) : List (Nat × Bytes) × Bool :=
  match c.page n with
  | .ok r => (r.entries.map tag, r.last)
  | .error _ => ([], false)

/-- Every page is answered; the first that is said to be the last comes, and ends the listing. -/
def Complete (c : Session entries d es sizes) : Prop :=
  (∀ n, ∃ r, c.page n = .ok r) ∧ Paging.Complete c.shown (d.names entries es)

variable (c : Session entries d es sizes)

/-- Each call is answered, and leaves what the next one relies on. -/
theorem call_answered (n : Nat) (hs : Router.Fixed entries d es (c.state n))
    (hn : d.Numbered entries (c.state n) c.dirid) :
    d.Answered entries es (c.start n) (sizes n) (c.page n) (c.state (n + 1)) ∧
      Router.Fixed entries d es (c.state (n + 1)) ∧ Router.Keeps (d.Shows es) (c.state n) (c.state (n + 1)) := by
  have hc := Router.fixed_compat entries d es
  obtain ⟨⟨hans, hkeep⟩, hfix⟩ := ((Directory.readdir_answered (c.start n) (sizes n) hs hn).rel hc.rely).exec hs (c.called n)
  exact ⟨hans, hfix, hkeep⟩

theorem state_fixed (n : Nat) :
    Router.Fixed entries d es (c.state n) ∧ d.Numbered entries (c.state n) c.dirid := by
  induction n with
  | zero => exact ⟨c.fixed, c.numbered⟩
  | succ n ih =>
    obtain ⟨-, hfix, hkeep⟩ := c.call_answered n ih.1 ih.2
    exact ⟨hfix, ih.2.keeps ih.1.wf hkeep⟩

theorem answered (n : Nat) : d.Answered entries es (c.start n) (sizes n) (c.page n) (c.state (n + 1)) :=
  (c.call_answered n (c.state_fixed n).1 (c.state_fixed n).2).1

theorem keeps {m n : Nat} (h : m ≤ n) : Router.Keeps (d.Shows es) (c.state m) (c.state n) := by
  induction n, h using Nat.le_induction with
  | base => exact Router.Keeps.refl _
  | succ n _ ih => exact ih.trans (c.call_answered n (c.state_fixed n).1 (c.state_fixed n).2).2.2

/-- The client is shown the pages of the listing of the export root. -/
theorem served_exportRoot (c : Session entries .exportRoot es sizes) :
    Served Prod.fst (fun k => k) (fun x => x) (Router.rootListing entries) sizes c.start c.shown := by
  have hpage : ∀ n, ∃ page, c.page n = .ok page ∧ c.shown n = (page.entries.map tag, page.last) ∧
      RootPage entries (c.start n) (sizes n) (.ok page) := by
    intro n
    obtain ⟨page, hok, hrest⟩ := c.answered n
    refine ⟨page, hok, ?_, page, rfl, hrest⟩
    unfold shown
    rw [hok]
  refine ⟨c.first, fun n e he => ?_, fun n => ?_, fun n => ?_⟩
  · obtain ⟨page, hok, hshown, -⟩ := hpage n
    rw [hshown, List.getLast?_map, Option.map_eq_some_iff] at he
    obtain ⟨e', he', rfl⟩ := he
    exact c.next n page e' hok he'
  · obtain ⟨page, -, hshown, _, hpage', hents, -⟩ := hpage n
    cases hpage'
    rw [hshown, List.map_id']
    exact hents
  · obtain ⟨page, -, hshown, _, hpage', -, hlast⟩ := hpage n
    cases hpage'
    rw [hshown, List.length_map]
    exact hlast

theorem routed {name : Bytes} {dir : VfsPath} (hplace : d.place = some (name, dir)) (n : Nat) :
    Routed d name dir es (c.start n) (sizes n) (c.page n) (c.state (n + 1)) := by
  have hans := c.answered n
  cases d with
  | exportRoot => cases hplace
  | entry name' =>
    cases hplace
    exact hans
  | inside name' dir' =>
    cases hplace
    exact hans

theorem page_ok (n : Nat) : ∃ r, c.page n = .ok r := by
  have hans := c.answered n
  cases d with
  | exportRoot =>
    obtain ⟨page, hok, -⟩ := hans
    exact ⟨page, hok⟩
  | entry name =>
    obtain ⟨_, _, _, _, _, _, hok⟩ := hans
    exact ⟨_, hok⟩
  | inside name dir =>
    obtain ⟨_, _, _, _, _, _, hok⟩ := hans
    exact ⟨_, hok⟩

/-- The client is shown the pages of one listing: the ids are given with the first page, and stay. -/
theorem served_routed {name : Bytes} {dir : VfsPath} (hplace : d.place = some (name, dir)) :
    ∃ slot all, (c.state 1).slots.lookup name = some slot ∧ Listing (c.state 1) slot.adapter dir es all ∧
      Served KinNfsFs.Listed.id (· - slot.offset) (fun x => d.shownAs slot.offset (x.id, x.name)) all sizes
        c.start c.shown := by
  obtain ⟨slot, all, -, hslot, hlist, -, -⟩ := c.routed hplace 0
  have hbuilt := (c.state_fixed 1).1.wf.built _ (Router.mem_of_lookup hslot)
  have hpage : ∀ n, ∃ page, PageOf all (c.start n - slot.offset) (sizes n) page ∧
      c.page n = .ok { page with entries := page.entries.map (d.translate slot.offset) } := by
    intro n
    obtain ⟨slot', all', page, hslot', hlist', hof, hok⟩ := c.routed hplace n
    have hkeep := c.keeps (Nat.le_add_left 1 n)
    have hs : slot = slot' := by
      rw [hkeep.slots _ _ hslot] at hslot'
      exact Option.some.inj hslot'
    subst hs
    have ha : all = all' := (hlist.keeps hkeep hbuilt (Directory.shows_of_mem hplace)).unique hlist'
    subst ha
    exact ⟨page, hof, hok⟩
  have hshown : ∀ n (page : ReadDirResult), c.page n = .ok { page with entries := page.entries.map (d.translate slot.offset) } →
      c.shown n = ((page.entries.map tag).map (d.shownAs slot.offset), page.last) := by
    intro n page hok
    unfold shown
    rw [hok, List.map_map]
    dsimp only
    rw [List.map_map]
    exact congrArg (·, page.last) (List.map_congr_left fun e _ => tag_translate d slot.offset e)
  refine ⟨slot, all, hslot, hlist, ?_, fun n e he => ?_, fun n => ?_, fun n => ?_⟩
  · show c.start 0 - slot.offset = 0
    rw [c.first, Nat.zero_sub]
  · obtain ⟨page, -, hok⟩ := hpage n
    unfold shown at he
    rw [hok] at he
    dsimp only at he
    rw [List.getLast?_map, Option.map_eq_some_iff] at he
    obtain ⟨e', he', rfl⟩ := he
    exact c.next n _ e' hok he'
  · obtain ⟨page, hof, hok⟩ := hpage n
    rw [hshown n page hok, hof.entries, List.map_map]
    rfl
  · obtain ⟨page, hof, hok⟩ := hpage n
    rw [hshown n page hok, hof.last]
    simp only [List.length_map]

end Session

/-! ## Which entries share a number -/

section Numbers

variable {entries : List WorkspaceEntry} {es : List DirEntry} {dir : VfsPath} {t : Router} {h i j : Nat}
  {all : List KinNfsFs.Listed} {x y : KinNfsFs.Listed}

theorem ne_join (p : VfsPath) (n : VfsName) : p ≠ p.join n := by
  intro heq
  have := congrArg (·.components.length) heq
  simp [VfsPath.components_join] at this

theorem ne_join_join (p : VfsPath) (m n : VfsName) : p ≠ (p.join m).join n := by
  intro heq
  have := congrArg (·.components.length) heq
  simp [VfsPath.components_join] at this

/-- What stands above a directory is not one of its entries. -/
theorem parent_ne_join (dir : VfsPath) (n : VfsName) : dir.parent.getD .root ≠ dir.join n := by
  rcases VfsPath.root_or_join dir with rfl | ⟨q, m, rfl⟩
  · exact (VfsPath.join_ne_root .root n).symm
  · rw [(VfsPath.parent_eq_some).mpr ⟨m, rfl⟩]
    exact ne_join_join q m n

theorem eq_root_of_parent (hdir : dir.parent.getD .root = dir) : dir = .root := by
  rcases VfsPath.root_or_join dir with rfl | ⟨q, m, rfl⟩
  · rfl
  · rw [(VfsPath.parent_eq_some).mpr ⟨m, rfl⟩] at hdir
    exact absurd hdir (ne_join q m)

/-- Two names of a listing stand for one path only if they are `.` and `..` of a root. -/
theorem listed_path (hnodup : (es.map (·.name.bytes)).Nodup) {a b : Bytes × VfsPath}
    (ha : (listed dir es)[i]? = some a) (hb : (listed dir es)[j]? = some b) (hij : i < j) (hab : a.2 = b.2) :
    j = 1 ∧ dir = .root := by
  have hentry : ∀ {k : Nat} {b : Bytes × VfsPath}, (listed dir es)[k + 2]? = some b →
      ∃ e, es[k]? = some e ∧ b.2 = dir.join e.name := by
    intro k b hb
    obtain ⟨e, he, rfl⟩ := Option.map_eq_some_iff.mp ((List.getElem?_map ..).symm.trans hb)
    exact ⟨e, he, rfl⟩
  match i, j with
  | 0, 1 =>
    cases ha
    cases hb
    exact ⟨rfl, eq_root_of_parent hab.symm⟩
  | 0, j + 2 =>
    cases ha
    obtain ⟨e, -, he⟩ := hentry hb
    rw [he] at hab
    exact absurd hab (ne_join dir e.name)
  | 1, j + 2 =>
    cases ha
    obtain ⟨e, -, he⟩ := hentry hb
    rw [he] at hab
    exact absurd hab (parent_ne_join dir e.name)
  | i + 2, j + 2 =>
    obtain ⟨e, hi, he⟩ := hentry ha
    obtain ⟨f, hj, hf⟩ := hentry hb
    rw [he, hf] at hab
    have hname : (es.map (·.name.bytes))[i]? = (es.map (·.name.bytes))[j]? := by
      rw [List.getElem?_map, List.getElem?_map, hi, hj, Option.map_some, Option.map_some,
        (VfsPath.join_inj hab).2]
    have hlen : i < (es.map (·.name.bytes)).length := by
      rw [List.length_map]
      exact (List.getElem?_eq_some_iff.mp hi).1
    have := (List.getElem?_inj hlen hnodup).mp hname
    omega

theorem Listing.getElem_listed (hl : Listing t h dir es all) (hx : all[i]? = some x) :
    (listed dir es)[i]? = some (x.name, x.path) := by
  rw [← hl.paths, List.getElem?_map, hx]
  rfl

/-- The number of an entry resumes behind it, if it is not that of an entry before. -/
theorem Listing.at_entry (hl : Listing t h dir es all) (hw : t.Wf) (hnodup : (es.map (·.name.bytes)).Nodup)
    (hx : all[i]? = some x) (hi : i = 1 → dir ≠ .root) : At KinNfsFs.Listed.id x.id all (i + 1) := by
  have hid := hl.ids x (List.mem_of_getElem? hx)
  have hpos := ((hw.tables h).fresh _ _ (((hw.tables h).inverse _ _).mp hid)).1
  refine at_of_first (Nat.ne_of_gt hpos) hx fun j y hj hy heq => ?_
  have hyid := hl.ids y (List.mem_of_getElem? hy)
  rw [heq] at hyid
  have hpath := (hw.tables h).path_inj hyid hid
  obtain ⟨h1, hroot⟩ := listed_path hnodup (hl.getElem_listed hy) (hl.getElem_listed hx) hj hpath
  exact hi h1 hroot

/-- `.` and `..` of a workspace root have one number. -/
theorem Listing.dots_id (hl : Listing t h .root es all) (hx : all[1]? = some x) (hy : all[0]? = some y) :
    x.id = y.id := by
  have hxp : VfsPath.root = x.path := congrArg Prod.snd (Option.some.inj (hl.getElem_listed hx))
  have hyp : VfsPath.root = y.path := congrArg Prod.snd (Option.some.inj (hl.getElem_listed hy))
  have hxid := hl.ids x (List.mem_of_getElem? hx)
  have hyid := hl.ids y (List.mem_of_getElem? hy)
  rw [← hxp] at hxid
  rw [← hyp] at hyid
  exact Option.some.inj (hxid.symm.trans hyid)

/-- The number of the `i`-th entry of the export root. -/
theorem rootListing_getElem (hnodup : (entries.map (·.name)).Nodup) {a : Nat × Bytes}
    (ha : (Router.rootListing entries)[i]? = some a) : a.1 = max 1 i := by
  match i with
  | 0 =>
    cases ha
    rfl
  | 1 =>
    cases ha
    rfl
  | i + 2 =>
    obtain ⟨e, he, rfl⟩ := Option.map_eq_some_iff.mp ((List.getElem?_map ..).symm.trans ha)
    have hfind : entries.findIdx? (·.name == e.name) = some i := by
      rw [List.findIdx?_eq_some_iff_getElem]
      obtain ⟨hlt, hei⟩ := List.getElem?_eq_some_iff.mp he
      refine ⟨hlt, by simp [hei], fun k hk hke => ?_⟩
      have hname : (entries.map (·.name))[k]? = (entries.map (·.name))[i]? := by
        rw [List.getElem?_map, List.getElem?_map, he, List.getElem?_eq_getElem (Nat.lt_trans hk hlt),
          Option.map_some, Option.map_some, eq_of_beq hke]
      have := (List.getElem?_inj (by rw [List.length_map]; omega) hnodup).mp hname
      omega
    show Router.workspaceRootInode entries e.name = _
    unfold Router.workspaceRootInode
    rw [hfind]
    show i + 2 = max 1 (i + 2)
    omega

end Numbers

/-! ## The pages are the directory -/

section Complete

variable {entries : List WorkspaceEntry} {d : Directory} {es : List DirEntry} {sizes : Nat → Nat}

/-- A directory below a workspace root. -/
def Directory.Below (d : Directory) : Prop := ∃ name path, d = .inside name path ∧ path ≠ .root

theorem Session.complete_exportRoot (c : Session entries .exportRoot es sizes) (hsizes : ∀ n, 0 < sizes n)
    (hnodup : (Directory.names entries es .exportRoot).Nodup) :
    Paging.Complete c.shown (Directory.names entries es .exportRoot) ↔
      (Directory.names entries es .exportRoot).length ≤ 2 ∨ ∀ n, pos sizes n ≠ 2 := by
  have hnames : (Router.rootListing entries).map Prod.snd = Directory.names entries es .exportRoot := by
    simp [Router.rootListing, Directory.names, Function.comp_def]
  have hws : (entries.map (·.name)).Nodup := (List.nodup_cons.mp (List.nodup_cons.mp hnodup).2).2
  have hlen : (Directory.names entries es .exportRoot).length = (Router.rootListing entries).length := by
    rw [← hnames, List.length_map]
  rw [hlen, ← hnames]
  refine complete_iff c.served_exportRoot hsizes (by simp [Router.rootListing]) (by decide) ?_ ?_
  · intro m hm hlt hne x hx
    have hkey := rootListing_getElem hws hx
    have hm1 := le_pos hsizes m
    obtain ⟨k, hk⟩ : ∃ k, pos sizes m = k + 1 := ⟨pos sizes m - 1, by omega⟩
    rw [hk, Nat.add_sub_cancel] at hx hkey
    rw [hk] at hne ⊢
    show At Prod.fst x.1 _ _
    refine at_of_first (by omega) hx fun j y hj hy => ?_
    rw [rootListing_getElem hws hy]
    omega
  · intro x z hx hz
    cases hx
    obtain ⟨e, he, rfl⟩ := Option.map_eq_some_iff.mp ((List.getElem?_map ..).symm.trans hz)
    -- The number of `..` is found at `.`, and `..` comes again.
    refine ⟨(Router.rootInode, [dot, dot]), _, rfl, ?_⟩
    intro heq
    have hmem : [dot, dot] ∈ entries.map (·.name) := by
      rw [show [dot, dot] = e.name from heq]
      exact List.mem_map_of_mem (List.mem_of_getElem? he)
    exact (List.nodup_cons.mp (List.nodup_cons.mp hnodup).2).1 hmem

theorem Listing.names {t : Router} {h offset : Nat} {name : Bytes} {dir : VfsPath} {all : List KinNfsFs.Listed}
    (hl : Listing t h dir es all) (hplace : d.place = some (name, dir)) :
    (all.map fun x => (d.shownAs offset (x.id, x.name)).2) = d.names entries es := by
  have hmap : (all.map fun x => (d.shownAs offset (x.id, x.name)).2) =
      (all.map fun x => (x.name, x.path)).map Prod.fst := by
    rw [List.map_map]
    exact List.map_congr_left fun x _ => shownAs_snd d offset _
  have hrest : (listed dir es).map Prod.fst = [dot] :: [dot, dot] :: es.map (·.name.bytes) := by
    simp [listed, Function.comp_def]
  rw [hmap, hl.paths, hrest]
  cases d with
  | exportRoot => cases hplace
  | entry _ => rfl
  | inside _ _ => rfl

theorem Listing.ne_nil {t : Router} {h : Nat} {dir : VfsPath} {all : List KinNfsFs.Listed}
    (hl : Listing t h dir es all) : all ≠ [] := by
  rintro rfl
  cases hl.paths

/-- The number a client was shown comes back as it was. -/
theorem shownAs_sub {offset : Nat} {x : Nat × Bytes} (hx : x.2 ≠ [dot, dot] ∨ ∃ name path, d = .inside name path) :
    (d.shownAs offset x).1 - offset = x.1 := by
  cases d with
  | exportRoot => exact Nat.add_sub_cancel _ _
  | inside name path => exact Nat.add_sub_cancel _ _
  | entry name =>
    have hne : x.2 ≠ [dot, dot] := by
      rcases hx with hne | ⟨_, _, he⟩
      · exact hne
      · cases he
    show (if x.2 = [dot, dot] then _ else _ : Nat × Bytes).1 - offset = x.1
    rw [if_neg hne]
    exact Nat.add_sub_cancel _ _

/-- What is left of the number shown for `..` of a workspace root. -/
theorem Directory.dotdot_back (d : Directory) (offset id : Nat) {name : Bytes} (hbase : workspaceBase ≤ offset)
    (hplace : d.place = some (name, .root)) :
    (d.shownAs offset (id, [dot, dot])).1 - offset = 0 ∨ (d.shownAs offset (id, [dot, dot])).1 - offset = id := by
  cases d with
  | exportRoot => cases hplace
  | inside _ _ => exact .inr (Nat.add_sub_cancel _ _)
  | entry _ =>
    left
    have := rootInode_lt
    show Router.rootInode - offset = 0
    omega

theorem Session.complete_below {name : Bytes} {dir : VfsPath} (c : Session entries (.inside name dir) es sizes)
    (hsizes : ∀ n, 0 < sizes n) (hnodup : (es.map (·.name.bytes)).Nodup) (hdir : dir ≠ .root) :
    Paging.Complete c.shown (Directory.names entries es (.inside name dir)) := by
  obtain ⟨slot, all, -, hl, hserved⟩ := c.served_routed rfl
  rw [← hl.names rfl]
  refine complete_of_resumes hserved hsizes hl.ne_nil fun m hm _ x hx => ?_
  have hpos := le_pos hsizes m
  have hat := hl.at_entry (c.state_fixed 1).1.wf hnodup hx fun _ => hdir
  rw [shownAs_sub (.inr ⟨name, dir, rfl⟩)]
  rwa [Nat.sub_add_cancel (by omega)] at hat

/-- In a workspace root one entry is not resumed after. -/
theorem Session.complete_root {name : Bytes} (c : Session entries d es sizes) (hsizes : ∀ n, 0 < sizes n)
    (hplace : d.place = some (name, .root)) (hnodup : (d.names entries es).Nodup) :
    Paging.Complete c.shown (d.names entries es) ↔
      (d.names entries es).length ≤ 2 ∨ ∀ n, pos sizes n ≠ 2 := by
  obtain ⟨slot, all, hslot, hl, hserved⟩ := c.served_routed hplace
  have hw := (c.state_fixed 1).1.wf
  have hnames : (all.map fun x => (d.shownAs slot.offset (x.id, x.name)).2) = d.names entries es := hl.names hplace
  have hname : ∀ {i : Nat} {x : KinNfsFs.Listed}, all[i]? = some x → (d.names entries es)[i]? = some x.name := by
    intro i x hx
    rw [← hnames, List.getElem?_map, hx, Option.map_some, shownAs_snd]
  have hes : (es.map (·.name.bytes)).Nodup := by
    cases d with
    | exportRoot => cases hplace
    | entry _ => exact (List.nodup_cons.mp (List.nodup_cons.mp hnodup).2).2
    | inside _ _ => exact (List.nodup_cons.mp (List.nodup_cons.mp hnodup).2).2
  have hlen : (d.names entries es).length = all.length := by rw [← hnames, List.length_map]
  have hdots : (d.names entries es)[1]? = some [dot, dot] := rfl
  -- `..` is the only entry of its name.
  have hdotdot : ∀ {i : Nat} {x : KinNfsFs.Listed}, all[i]? = some x → i ≠ 1 → x.name ≠ [dot, dot] := by
    intro i x hx hi heq
    have hxi := hname hx
    rw [heq, ← hdots] at hxi
    exact hi ((List.getElem?_inj (by rw [hlen]; exact (List.getElem?_eq_some_iff.mp hx).1) hnodup).mp hxi)
  rw [hlen, ← hnames]
  refine complete_iff hserved hsizes hl.ne_nil (by decide) ?_ ?_
  · intro m hm _ hne x hx
    have hpos := le_pos hsizes m
    have hi : pos sizes m - 1 ≠ 1 := by omega
    have hat := hl.at_entry hw hes hx fun h1 => absurd h1 hi
    have hback : (d.shownAs slot.offset (x.id, x.name)).1 - slot.offset = x.id :=
      shownAs_sub (.inl (hdotdot hx hi))
    show At _ ((d.shownAs slot.offset (x.id, x.name)).1 - slot.offset) _ _
    rw [hback]
    rwa [Nat.sub_add_cancel (by omega)] at hat
  · intro x z hx hz
    obtain ⟨y, hy⟩ : ∃ y, all[0]? = some y := ⟨_, List.getElem?_eq_getElem (List.length_pos_iff.mpr hl.ne_nil)⟩
    have hxname : x.name = [dot, dot] := (Option.some.inj (hdots.symm.trans (hname hx))).symm
    have hdistinct : ∀ {i : Nat} {y : KinNfsFs.Listed}, all[i]? = some y → i ≠ 2 → y.name ≠ z.name := by
      intro i y hy hi heq
      have hyi := hname hy
      rw [heq, ← hname hz] at hyi
      exact hi ((List.getElem?_inj (by rw [hlen]; exact (List.getElem?_eq_some_iff.mp hy).1) hnodup).mp hyi)
    simp only [shownAs_snd]
    rcases d.dotdot_back slot.offset x.id (hw.base_le hslot) hplace with hzero | hown
    · -- `..` comes back as 0, and the listing starts again.
      refine ⟨y, all.tail, ?_, hdistinct hy (by decide)⟩
      rw [hxname, hzero]
      show all = y :: all.tail
      cases all with
      | nil => cases hy
      | cons a as =>
        cases hy
        rfl
    · -- `..` comes back as the number of `.`, and is shown again.
      have hat := hl.at_entry hw hes hy fun h0 => absurd h0 (by decide)
      refine ⟨x, all.drop 2, ?_, hdistinct hx (by decide)⟩
      rw [hxname, hown, hl.dots_id hx hy, hat.1]
      obtain ⟨hlt, hget⟩ := List.getElem?_eq_some_iff.mp hx
      rw [List.drop_eq_getElem_cons hlt, hget]

/-- The pages of a directory are complete unless it is the export root or a workspace root, has entries, and
a page ends at `..`. -/
theorem pages_complete_iff (c : Session entries d es sizes) (hsizes : ∀ n, 0 < sizes n)
    (hnodup : (d.names entries es).Nodup) :
    c.Complete ↔ d.Below ∨ (d.names entries es).length = 2 ∨ ∀ n, pos sizes n ≠ 2 := by
  have htwo : (d.names entries es).length ≤ 2 ↔ (d.names entries es).length = 2 := by
    unfold Directory.names
    simp only [List.length_cons]
    omega
  have hroot : ∀ (hiff : Paging.Complete c.shown (d.names entries es) ↔
      (d.names entries es).length ≤ 2 ∨ ∀ n, pos sizes n ≠ 2) (hbelow : ¬ d.Below),
      c.Complete ↔ d.Below ∨ (d.names entries es).length = 2 ∨ ∀ n, pos sizes n ≠ 2 := by
    intro hiff hbelow
    rw [htwo] at hiff
    unfold Session.Complete
    rw [hiff, or_iff_right hbelow]
    exact and_iff_right c.page_ok
  cases d with
  | exportRoot => exact hroot (c.complete_exportRoot hsizes hnodup) (by rintro ⟨_, _, h, _⟩; cases h)
  | entry name => exact hroot (c.complete_root hsizes rfl hnodup) (by rintro ⟨_, _, h, _⟩; cases h)
  | inside name dir =>
    by_cases hdir : dir = .root
    · subst hdir
      exact hroot (c.complete_root hsizes rfl hnodup) (by rintro ⟨_, _, h, hne⟩; cases h; exact hne rfl)
    · have hes : (es.map (·.name.bytes)).Nodup := (List.nodup_cons.mp (List.nodup_cons.mp hnodup).2).2
      exact iff_of_true ⟨c.page_ok, c.complete_below hsizes hes hdir⟩ (.inl ⟨name, dir, rfl, hdir⟩)

/-! ### A client that is alone -/

/-- The state before the `n`-th page, and what the client asks after. -/
def alone (entries : List WorkspaceEntry) (dirid : Nat) (sizes : Nat → Nat) (r : Router) : Nat → Router × Nat
  | 0 => (r, 0)
  | n + 1 =>
    let (s, startAfter) := alone entries dirid sizes r n
    match (Router.readdir entries dirid startAfter (sizes n)).run s with
    | (.ok page, s') => (s', (page.entries.getLast?.map (·.fileid)).getD startAfter)
    | (.error _, s') => (s', startAfter)

theorem alone_succ (dirid : Nat) (r : Router) (n : Nat) :
    (alone entries dirid sizes r (n + 1)).1 =
      ((Router.readdir entries dirid (alone entries dirid sizes r n).2 (sizes n)).run
        (alone entries dirid sizes r n).1).2 := by
  rw [alone]
  dsimp only
  split
  · rename_i hrun
    rw [hrun]
  · rename_i hrun
    rw [hrun]

theorem alone_asks {dirid : Nat} {r : Router} {n : Nat} {page : ReadDirResult} {e : NfsDirEntry}
    (hpage : ((Router.readdir entries dirid (alone entries dirid sizes r n).2 (sizes n)).run
      (alone entries dirid sizes r n).1).1 = .ok page) (he : page.entries.getLast? = some e) :
    (alone entries dirid sizes r (n + 1)).2 = e.fileid := by
  rw [alone]
  dsimp only
  split
  · rename_i page' s' hrun
    rw [hrun] at hpage
    cases hpage
    rw [he]
    rfl
  · rename_i hrun
    rw [hrun] at hpage
    cases hpage

theorem alone_fixed (sizes : Nat → Nat) {dirid : Nat} {r : Router} (hr : Router.Fixed entries d es r)
    (hn : d.Numbered entries r dirid) (n : Nat) :
    Router.Fixed entries d es (alone entries dirid sizes r n).1 ∧
      d.Numbered entries (alone entries dirid sizes r n).1 dirid := by
  have hc := Router.fixed_compat entries d es
  induction n with
  | zero => exact ⟨hr, hn⟩
  | succ n ih =>
    obtain ⟨hfix, hnum⟩ := ih
    have hcall := (Directory.readdir_answered (alone entries dirid sizes r n).2 (sizes n) hfix hnum).rel hc.rely
    obtain ⟨⟨-, hkeep⟩, hfix'⟩ := hcall.exec hfix (hcall.exec_run hc.rely hfix)
    rw [alone_succ]
    exact ⟨hfix', hnum.keeps hfix.wf hkeep⟩

/-- Every directory has such a client. -/
def Session.alone (sizes : Nat → Nat) (dirid : Nat) (r : Router) (fixed : Router.Fixed entries d es r)
    (numbered : d.Numbered entries r dirid) : Session entries d es sizes where
  dirid := dirid
  state n := (Nfs.alone entries dirid sizes r n).1
  start n := (Nfs.alone entries dirid sizes r n).2
  page n := ((Router.readdir entries dirid (Nfs.alone entries dirid sizes r n).2 (sizes n)).run
    (Nfs.alone entries dirid sizes r n).1).1
  fixed := fixed
  numbered := numbered
  first := rfl
  next n page e hpage he := alone_asks hpage he
  called n := by
    obtain ⟨hfix, hnum⟩ := alone_fixed sizes fixed numbered n
    have hcall := Directory.readdir_answered (Nfs.alone entries dirid sizes r n).2 (sizes n) hfix hnum
    rw [alone_succ]
    exact hcall.exec_run (Router.fixed_compat entries d es).rely hfix

end Complete

/-! ### One workspace with one file -/

namespace Demo

def readme : DirEntry := ⟨⟨[114], by decide⟩, .file⟩

/-- A workspace that holds one empty file. -/
def graph : ContentProvider where
  readFile _ := .ok []
  readRange _ _ _ := .ok []
  stat p := .ok (if p.isRoot then .directory 0 else .regularFile 0 (Vector.replicate 32 0) false 0)
  readDir _ := .ok [readme]
  pathExists _ := .ok true
  readLink p := .error (.invalidInput p.display)
  version := 0

def entries : List WorkspaceEntry := [⟨[119], graph⟩]

theorem fixed (d : Directory) : Router.Fixed entries d [readme] (.start graph 0) where
  wf := Router.start_wf graph 0
  reads name dir provider _ hans := by
    have hgraph : provider = graph := by
      obtain ⟨e, he, rfl⟩ := Option.map_eq_some_iff.mp hans
      rw [List.mem_singleton.mp (List.mem_of_find?_eq_some he)]
    subst hgraph
    exact ⟨rfl, fun x _ => ⟨_, rfl⟩⟩

/-- Page after page of one entry each of the export root. -/
def singles : Session entries .exportRoot [readme] fun _ => 1 :=
  .alone _ Router.rootInode (.start graph 0) (fixed _) rfl

/-- The whole workspace root on one page. -/
def whole : Session entries (.entry [119]) [readme] fun _ => 3 :=
  .alone _ 2 (.start graph 0) (fixed _) ⟨by decide, 0, _, rfl, rfl, rfl⟩

end Demo

/-- The pages of the export root show `..` again and again. -/
theorem singles_not_complete :
    Demo.singles.shown 1 = ([(1, [dot, dot])], false) ∧ Demo.singles.shown 2 = ([(1, [dot, dot])], false) ∧
      ¬ Demo.singles.Complete := by
  refine ⟨by rfl, by rfl, fun h => ?_⟩
  rcases (Demo.singles.complete_exportRoot (fun _ => Nat.one_pos) (by decide)).mp h.2 with hlen | hnever
  · exact absurd hlen (by decide)
  · exact hnever 2 (by decide)

theorem pages_complete_iff_whole : Demo.whole.Complete :=
  (pages_complete_iff Demo.whole (fun _ => by decide) (by decide)).mpr (.inr (.inr fun n => by simp [pos]; omega))

end KinVfs.Nfs
