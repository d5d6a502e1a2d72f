import KinVfs.Daemon.KinProvider
import KinVfs.Daemon.TreeSpec

/-!
# Snapshot succession is monotone

For a scoped provider, every interleaving of its calls and whatever the daemon answers
(`succession_monotone`): each installed tree is bound to the local manifest and succeeds the ones
before it (`Succeeds`), a refresh that failed has installed nothing, `version` never tells less
than before, and a lookup is answered from a tree at least as new as what the call validated.

* `Vetted`: what `acceptDocument` gives, and all that `plan_succession` needs of its arguments.
* `ReadOk`: what a call knows, at each point, of the tree that is installed. It stays true while
  the version grows (`ReadOk.advance`).
* `Tracked`: the invariant of the run.
-/

namespace KinVfs

open Fold

variable {scope : ProviderScope} {root : String} {tree : Option CachedTree} {a b c next : CachedTree}

/-- The tree is bound to the repository and workspace the local manifest names. -/
def Bound (scope : ProviderScope) (root : String) (tree : CachedTree) : Prop :=
  ∃ identity, readManifestIdentity scope.parseManifest root scope.files = .ok identity ∧
    tree.binding.repositoryId = identity.repoId ∧
    identity.workspaceId = some tree.binding.workspaceId

/-- The membership digest of the root directory. -/
def CachedTree.rootMembership (tree : CachedTree) : Option Hash256 :=
  (tree.directoryMutation .root).map (·.membership)

/-- `b` was installed after `a`. -/
structure Succeeds (a b : CachedTree) : Prop where
  version : a.version < b.version
  generation : a.binding.workspaceGeneration ≤ b.binding.workspaceGeneration
  membership : a.rootMembership ≠ b.rootMembership →
    a.binding.workspaceGeneration < b.binding.workspaceGeneration

theorem Succeeds.trans (hab : Succeeds a b) (hbc : Succeeds b c) : Succeeds a c where
  version := Nat.lt_trans hab.version hbc.version
  generation := Nat.le_trans hab.generation hbc.generation
  membership hne := by
    by_cases h : a.rootMembership = b.rootMembership
    · exact Nat.lt_of_le_of_lt hab.generation (hbc.membership (h ▸ hne))
    · exact Nat.lt_of_lt_of_le (hab.membership h) hbc.generation

/-- A validated document. -/
structure Vetted (scope : ProviderScope) (root : String) (tree : CachedTree) : Prop where
  bound : Bound scope root tree
  stamped : Stamped tree
  hasRoot : VfsPath.root ∈ tree.directories

/-! ## One refresh -/

theorem bound_of_validateTreeIdentity {binding : WorkspaceSnapshotBinding}
    (hs : scope.endpoint.repoRoot = some root) (h : scope.validateTreeIdentity binding = .ok ())
    (hb : a.binding = binding) : Bound scope root a := by
  subst hb
  unfold ProviderScope.validateTreeIdentity DaemonEndpoint.validateTreeIdentity at h
  simp only [hs] at h
  cases hm : readManifestIdentity scope.parseManifest root scope.files with
  | error e => rw [hm] at h; cases h
  | ok identity =>
    simp only [hm, requiredWorkspaceId] at h
    cases hw : identity.workspaceId with
    | none => rw [hw] at h; cases h
    | some w =>
      simp only [hw] at h
      split at h
      · cases h
      · rename_i hrepo
        split at h
        · cases h
        · rename_i hws
          exact ⟨identity, hm, not_not.mp hrepo, by rw [hw, not_not.mp hws]⟩

/-- What an accepted `200` was made of. -/
theorem acceptDocument_ok {response : TreeResponse} (h : scope.acceptDocument response = .ok next) :
    ∃ snapshot, response.body = .ok snapshot ∧
      scope.validateTreeIdentity snapshot.binding = .ok () ∧
      CachedTree.fromSnapshot scope.codec snapshot = .ok next := by
  unfold ProviderScope.acceptDocument at h
  obtain ⟨tag, -, h⟩ := bind_eq_ok.mp h
  obtain ⟨snapshot, hbody, h⟩ := bind_eq_ok.mp h
  obtain ⟨etag, -, h⟩ := bind_eq_ok.mp h
  split at h
  · cases h
  · obtain ⟨⟨⟩, hid, h⟩ := bind_eq_ok.mp h
    refine ⟨snapshot, ?_, hid, h⟩
    cases hb : response.body with
    | error e => rw [hb] at hbody; cases hbody
    | ok snap => rw [hb] at hbody; cases hbody; rfl

theorem vetted_of_acceptDocument {response : TreeResponse}
    (hs : scope.endpoint.repoRoot = some root) (h : scope.acceptDocument response = .ok next) :
    Vetted scope root next := by
  obtain ⟨snapshot, -, hid, hsnap⟩ := acceptDocument_ok h
  refine ⟨bound_of_validateTreeIdentity hs hid (fromSnapshot_ok hsnap).2.1,
    stamped_of_fromSnapshot hsnap, ?_⟩
  exact ((accepted_of_fromSnapshot hsnap).isDir .root).mpr (.inl rfl)

/-- An answer ends the refresh with an error, is a `304`, or is a valid document. -/
theorem onAnswer_cases (scope : ProviderScope) (cachedEtag : Option String) (answer : Except String TreeResponse) :
    (∃ e, scope.onAnswer cachedEtag answer = .ensured (.error e)) ∨
      (∃ etag, cachedEtag = some etag ∧ scope.onAnswer cachedEtag answer = .confirming etag) ∨
      ∃ response next, scope.acceptDocument response = .ok next ∧
        scope.onAnswer cachedEtag answer = .validated next := by
  unfold ProviderScope.onAnswer
  cases answer with
  | error e => exact .inl ⟨_, rfl⟩
  | ok response =>
    dsimp only
    split
    · cases cachedEtag with
      | none => exact .inl ⟨_, rfl⟩
      | some etag => exact .inr (.inl ⟨etag, rfl, rfl⟩)
    · split
      · exact .inl ⟨_, rfl⟩
      · cases hacc : scope.acceptDocument response with
        | error e => exact .inl ⟨_, rfl⟩
        | ok next => exact .inr (.inr ⟨response, next, hacc, rfl⟩)

/-- The root's mutation identity carries the binding's workspace generation. -/
theorem Vetted.rootMutation (h : Vetted scope root a) :
    ∃ m, a.directoryMutation .root = some m ∧
      m.workspaceGeneration = a.binding.workspaceGeneration := by
  obtain ⟨dir, hdir⟩ := Option.isSome_iff_exists.mp
    (Std.ExtTreeMap.mem_iff_isSome_getElem?.mp h.hasRoot)
  refine ⟨dir.mutation, ?_, (h.stamped.mutation _ _ hdir).2⟩
  rw [CachedTree.directoryMutation, hdir]
  rfl

/-- What replaces a tree succeeds it. -/
theorem succeeds_of_install (ha : Vetted scope root a) (hn : Vetted scope root next)
    (h : planSuccession (some a) next = .ok .install) : Succeeds a next := by
  obtain ⟨ma, hma, hga⟩ := ha.rootMutation
  obtain ⟨mn, hmn, hgn⟩ := hn.rootMutation
  simp only [planSuccession, hma, hmn] at h
  split at h
  · cases h
  split at h
  · rename_i hv
    unfold planRoots at h
    split at h
    · cases h
    · rename_i hlt
      split at h
      · cases h
      · rename_i hmem
        refine ⟨hv, by omega, fun hne => ?_⟩
        have hm : mn.membership ≠ ma.membership := by
          rintro heq
          exact hne (by simp [CachedTree.rootMembership, hma, hmn, heq])
        have hg : mn.workspaceGeneration ≠ ma.workspaceGeneration := fun hg => hmem ⟨hm, hg⟩
        omega
  · split at h
    · split at h <;> cases h
    · cases h

/-- What is not installed is no newer than the tree that stays. -/
theorem le_of_retain (h : planSuccession tree next = .ok .retainCurrent) :
    ∃ t, tree = some t ∧ next.version ≤ t.version := by
  cases tree with
  | none => cases h
  | some t =>
    refine ⟨t, rfl, ?_⟩
    simp only [planSuccession] at h
    split at h
    · cases h
    · split at h
      · unfold planRoots at h
        split at h
        · split at h
          · cases h
          · split at h <;> cases h
        · cases h
      · rename_i hv
        omega

/-! ## What a call knows -/

/-- The installed tree was replaced, if at all, by one that is no older. -/
def Advances (tree tree' : Option CachedTree) : Prop :=
  ∀ t, tree = some t → ∃ t', tree' = some t' ∧ t.version ≤ t'.version

theorem Advances.refl (tree : Option CachedTree) : Advances tree tree :=
  fun t h => ⟨t, h, Nat.le_refl _⟩

def ReadOk (scope : ProviderScope) (root : String) (tree : Option CachedTree) (c : ReadCall) : Prop :=
  match c.pc with
  | .start | .requested _ | .confirming _ => c.documents = []
  | .validated next => Vetted scope root next ∧ ∀ v ∈ c.documents, v ≤ next.version
  | .ensured (.ok ()) => ∃ t, tree = some t ∧ ∀ v ∈ c.documents, v ≤ t.version
  | .answered (.ok t) => ∀ v ∈ c.documents, v ≤ t.version
  | .ensured (.error _) | .answered (.error _) | .told .. => True

theorem ReadOk.advance {tree' : Option CachedTree} {c : ReadCall} (ht : Advances tree tree')
    (h : ReadOk scope root tree c) : ReadOk scope root tree' c := by
  obtain ⟨op, pc, documents, captured, checked⟩ := c
  cases pc with
  | ensured result =>
    cases result with
    | error e => trivial
    | ok u =>
      obtain ⟨t, hsome, hle⟩ := h
      obtain ⟨t', hsome', hv⟩ := ht t hsome
      exact ⟨t', hsome', fun v hv' => Nat.le_trans (hle v hv') hv⟩
  | answered source =>
    cases source with
    | error e => trivial
    | ok t => exact h
  | _ => exact h

/-- The refresh of a call failed. -/
def ReadPc.failed : ReadPc → Bool
  | .ensured (.error _) | .answered (.error _) | .told (.error _) _ => true
  | _ => false

/-- The refresh of a call is over, and did not fail. -/
def ReadPc.refreshed : ReadPc → Bool
  | .ensured (.ok ()) | .answered (.ok _) | .told (.ok ()) _ => true
  | _ => false

namespace ProviderSys

variable {s s' : ProviderSys} {i j : Nat} {c c' : ReadCall} {told : List Nat}

/-- One turn keeps what the call knows. -/
theorem Turn.readOk (hs : scope.endpoint.repoRoot = some root) (ht : Turn scope s c c' told)
    (h : ReadOk scope root s.tree c) : ReadOk scope root s.tree c' := by
  cases ht with
  | capture => exact h
  | receive answer =>
    rename_i op cachedEtag documents captured checked
    obtain rfl : documents = [] := h
    rcases onAnswer_cases scope cachedEtag answer with
      ⟨e, he⟩ | ⟨etag, -, he⟩ | ⟨response, next, hacc, he⟩
    · rw [he]
      trivial
    · rw [he]
      rfl
    · rw [he]
      refine ⟨vetted_of_acceptDocument hs hacc, fun v hv => ?_⟩
      obtain rfl : v = next.version := by simpa [documentAt] using hv
      exact Nat.le_refl _
  | confirm =>
    rename_i op expectedEtag documents captured checked
    obtain rfl : documents = [] := h
    cases hc : scope.confirm s.tree expectedEtag with
    | error e => trivial
    | ok u =>
      cases htree : s.tree with
      | none => rw [htree] at hc; cases hc
      | some t => exact ⟨t, rfl, by simp [confirmedVersion]⟩
  | refuse hp => trivial
  | retain hp =>
    obtain ⟨t, hsome, hle⟩ := le_of_retain hp
    exact ⟨t, hsome, fun v hv => Nat.le_trans (h.2 v hv) hle⟩
  | answer =>
    rename_i result documents captured checked
    cases result with
    | error e => trivial
    | ok u =>
      obtain ⟨t, hsome, hle⟩ := h
      rw [hsome]
      exact hle
  | tell => trivial

/-- A call that is refreshed stays refreshed. -/
theorem Turn.refreshed (ht : Turn scope s c c' told) (h : ReadOk scope root s.tree c)
    (hr : c.pc.refreshed = true) : c'.pc.refreshed = true := by
  cases ht with
  | answer =>
    rename_i result documents captured checked
    cases result with
    | error e => cases hr
    | ok u =>
      obtain ⟨t, hsome, -⟩ := h
      rw [hsome]
      rfl
  | tell =>
    rename_i result documents captured checked
    cases result with
    | error e => cases hr
    | ok u => rfl
  | _ => cases hr

/-- What a turn answers is the installed tree. -/
theorem Turn.answered {t : CachedTree} (ht : Turn scope s c c' told)
    (hc : c'.pc = .answered (.ok t)) : s.tree = some t := by
  cases ht with
  | receive answer =>
    exfalso
    rename_i op cachedEtag documents captured checked
    rcases onAnswer_cases scope cachedEtag answer with
      ⟨e, he⟩ | ⟨etag, -, he⟩ | ⟨response, next, -, he⟩ <;> simp [he] at hc
  | answer =>
    rename_i result documents captured checked
    simp only [ReadPc.answered.injEq] at hc
    unfold lookupSource at hc
    split at hc
    · cases hc
    · split at hc
      · cases hc
      · rename_i hsome
        cases hc
        exact hsome
  | _ => cases hc

/-- What a turn adds to the clock is the version of the installed tree. -/
theorem Turn.told_eq (ht : Turn scope s c c' told) : told = [] ∨ told = [s.currentVersion] := by
  cases ht with
  | tell => exact .inr rfl
  | _ => exact .inl rfl

/-! ## Runs -/

/-- What holds of a provider in every state. -/
structure Tracked (scope : ProviderScope) (root : String) (s : ProviderSys) : Prop where
  calls : ∀ c ∈ s.calls, ReadOk scope root s.tree c
  vetted : ∀ x ∈ s.installed, Vetted scope root x.2
  current : s.tree = s.installed.getLast?.map (·.2)
  succession : s.installed.Pairwise fun x y => Succeeds x.2 y.2
  installers : ∀ x ∈ s.installed, ∃ c, s.calls[x.1]? = some c ∧ c.pc.refreshed = true
  sources : ∀ c ∈ s.calls, ∀ t, c.pc = .answered (.ok t) → ∃ i, (i, t) ∈ s.installed
  clock : s.clock.Pairwise (· ≤ ·)
  told : ∀ v ∈ s.clock, v ≤ s.currentVersion

theorem tracked_init : Tracked scope root init where
  calls := by simp [init]
  vetted := by simp [init]
  current := rfl
  succession := by simp [init]
  installers := by simp [init]
  sources := by simp [init]
  clock := by simp [init]
  told := by simp [init]

/-- The installed tree is the last one of the history. -/
theorem Tracked.mem_installed {t : CachedTree} (h : Tracked scope root s) (ht : s.tree = some t) :
    ∃ i, (i, t) ∈ s.installed := by
  have hcur := h.current
  rw [ht] at hcur
  obtain ⟨⟨i, t'⟩, hlast, rfl⟩ := Option.map_eq_some_iff.mp hcur.symm
  exact ⟨i, List.mem_of_getLast? hlast⟩

theorem Tracked.enter (h : Tracked scope root s) (op : ReadOp) :
    Tracked scope root { s with calls := s.calls ++ [⟨op, .start, [], 0, 0⟩] } where
  calls c hc := by
    rcases List.mem_append.mp hc with hc | hc
    · exact h.calls c hc
    · rw [List.mem_singleton] at hc
      subst hc
      rfl
  vetted := h.vetted
  current := h.current
  succession := h.succession
  installers x hx := by
    obtain ⟨c, hc, hr⟩ := h.installers x hx
    exact ⟨c, (List.getElem?_append_left (List.getElem?_eq_some_iff.mp hc).1).trans hc, hr⟩
  sources c hc t ht := by
    rcases List.mem_append.mp hc with hc | hc
    · exact h.sources c hc t ht
    · rw [List.mem_singleton] at hc
      subst hc
      cases ht
  clock := h.clock
  told := h.told

theorem Tracked.turn (hs : scope.endpoint.repoRoot = some root) (h : Tracked scope root s)
    (hc : s.calls[i]? = some c) (ht : Turn scope s c c' told) :
    Tracked scope root { s with calls := s.calls.set i c', clock := s.clock ++ told } where
  calls d hd := by
    rcases List.mem_or_eq_of_mem_set hd with hd | rfl
    · exact h.calls d hd
    · have hok : ReadOk scope root s.tree d := ht.readOk hs (h.calls c (List.mem_of_getElem? hc))
      exact hok
  vetted := h.vetted
  current := h.current
  succession := h.succession
  installers x hx := by
    obtain ⟨d, hd, hr⟩ := h.installers x hx
    by_cases hix : i = x.1
    · subst hix
      obtain rfl : c = d := by simpa [hc] using hd
      refine ⟨c', ?_, ht.refreshed (h.calls c (List.mem_of_getElem? hd)) hr⟩
      exact List.getElem?_set_self (List.getElem?_eq_some_iff.mp hd).1
    · exact ⟨d, (List.getElem?_set_ne hix).trans hd, hr⟩
  sources d hd t hdt := by
    rcases List.mem_or_eq_of_mem_set hd with hd | rfl
    · exact h.sources d hd t hdt
    · exact h.mem_installed (ht.answered hdt)
  clock := by
    rcases ht.told_eq with rfl | rfl
    · rw [List.append_nil]
      exact h.clock
    · rw [List.pairwise_append]
      exact ⟨h.clock, List.pairwise_singleton _ _, by simpa using h.told⟩
  told v hv := by
    rcases ht.told_eq with rfl | rfl
    · rw [List.append_nil] at hv
      exact h.told v hv
    · rcases List.mem_append.mp hv with hv | hv
      · exact h.told v hv
      · rw [List.mem_singleton] at hv
        exact hv.le

/-- An installation succeeds every one before it. -/
theorem Tracked.succeeds {next : CachedTree} (h : Tracked scope root s)
    (hn : Vetted scope root next) (hp : planSuccession s.tree next = .ok .install) :
    ∀ x ∈ s.installed, Succeeds x.2 next := by
  intro x hx
  obtain ⟨pre, y, hy⟩ : ∃ pre y, s.installed = pre ++ [y] :=
    ⟨_, _, (List.dropLast_append_getLast (List.ne_nil_of_mem hx)).symm⟩
  have htree : s.tree = some y.2 := by rw [h.current, hy]; simp
  have hlast : Succeeds y.2 next := by
    rw [htree] at hp
    exact succeeds_of_install (h.vetted y (by simp [hy])) hn hp
  rw [hy] at hx
  rcases List.mem_append.mp hx with hx | hx
  · have hpair := h.succession
    rw [hy, List.pairwise_append] at hpair
    exact (hpair.2.2 x hx y (by simp)).trans hlast
  · rw [List.mem_singleton] at hx
    exact hx ▸ hlast

theorem Tracked.install {op : ReadOp} {next : CachedTree} {documents : List Nat}
    {captured checked : Nat} (h : Tracked scope root s)
    (hc : s.calls[i]? = some ⟨op, .validated next, documents, captured, checked⟩)
    (hp : planSuccession s.tree next = .ok .install) :
    Tracked scope root ⟨some next,
      s.calls.set i ⟨op, .ensured (.ok ()), documents, captured, checked⟩,
      s.installed ++ [(i, next)], s.clock⟩ := by
  obtain ⟨hn, hdoc⟩ := h.calls _ (List.mem_of_getElem? hc)
  have hsucc := h.succeeds hn hp
  have hadv : Advances s.tree (some next) := by
    intro t ht
    obtain ⟨j, hj⟩ := h.mem_installed ht
    exact ⟨next, rfl, (hsucc _ hj).version.le⟩
  constructor
  · intro d hd
    rcases List.mem_or_eq_of_mem_set hd with hd | rfl
    · exact (h.calls d hd).advance hadv
    · exact ⟨next, rfl, hdoc⟩
  · intro x hx
    rcases List.mem_append.mp hx with hx | hx
    · exact h.vetted x hx
    · rw [List.mem_singleton] at hx
      subst hx
      exact hn
  · simp
  · rw [List.pairwise_append]
    exact ⟨h.succession, List.pairwise_singleton _ _, by simpa using fun j t => hsucc (j, t)⟩
  · intro x hx
    have hlen : i < s.calls.length := (List.getElem?_eq_some_iff.mp hc).1
    by_cases hix : i = x.1
    · rw [← hix]
      exact ⟨_, List.getElem?_set_self hlen, rfl⟩
    · rcases List.mem_append.mp hx with hx | hx
      · obtain ⟨d, hd, hr⟩ := h.installers x hx
        exact ⟨d, (List.getElem?_set_ne hix).trans hd, hr⟩
      · rw [List.mem_singleton] at hx
        subst hx
        exact absurd rfl hix
  · intro d hd t hdt
    rcases List.mem_or_eq_of_mem_set hd with hd | rfl
    · obtain ⟨j, hj⟩ := h.sources d hd t hdt
      exact ⟨j, List.mem_append_left _ hj⟩
    · cases hdt
  · exact h.clock
  · intro v hv
    refine Nat.le_trans (h.told v hv) ?_
    unfold currentVersion
    cases ht : s.tree with
    | none => simp
    | some t =>
      obtain ⟨t', ht', hle⟩ := hadv t ht
      cases ht'
      simpa using hle

theorem Tracked.step {l : ProviderLabel} (hs : scope.endpoint.repoRoot = some root)
    (h : Tracked scope root s) (hstep : s.step scope l = some s') : Tracked scope root s' := by
  rcases step_cases hstep with ⟨op, rfl⟩ | ⟨i, c, c', told, hc, ht, -, rfl⟩ |
    ⟨i, op, next, documents, captured, checked, hc, hp, rfl⟩
  · exact h.enter op
  · exact h.turn hs hc ht
  · exact h.install hc hp

end ProviderSys

/-- Succession as a client of the provider sees it. -/
structure MonotoneSuccession (scope : ProviderScope) (root : String) (s : ProviderSys) : Prop where
  /-- Every installed tree carries the manifest's ids. -/
  bound : ∀ x ∈ s.installed, Bound scope root x.2
  /-- The tree is the one installed last, and each succeeds the ones before it. -/
  current : s.tree = s.installed.getLast?.map (·.2)
  succession : s.installed.Pairwise fun x y => Succeeds x.2 y.2
  /-- No call whose refresh failed has installed a tree. -/
  failed : ∀ x ∈ s.installed, ∃ c, s.calls[x.1]? = some c ∧ c.pc.failed = false
  /-- What `version` told, in order of time. -/
  clock : s.clock.Pairwise (· ≤ ·)
  /-- A lookup is answered from an installed tree that is no older than what its call validated. -/
  lookups : ∀ c ∈ s.calls, ∀ t, c.pc = .answered (.ok t) →
    (∃ i, (i, t) ∈ s.installed) ∧ ∀ v ∈ c.documents, v ≤ t.version

/-- **Succession is monotone** in every run of a scoped provider: any calls, in any interleaving,
with any answers. -/
theorem succession_monotone (scope : ProviderScope) (root : String)
    (hs : scope.endpoint.repoRoot = some root) {ls : List ProviderLabel} {s : ProviderSys}
    (hrun : Runs.run (ProviderSys.step scope) .init ls = some s) :
    MonotoneSuccession scope root s := by
  have h : ProviderSys.Tracked scope root s :=
    Runs.run_inv (fun _ _ _ h hstep => h.step hs hstep) ProviderSys.tracked_init hrun
  refine ⟨fun x hx => (h.vetted x hx).bound, h.current, h.succession, fun x hx => ?_, h.clock,
    fun c hc t ht => ⟨h.sources c hc t ht, ?_⟩⟩
  · obtain ⟨c, hc, hr⟩ := h.installers x hx
    refine ⟨c, hc, ?_⟩
    unfold ReadPc.refreshed at hr
    split at hr <;> simp_all [ReadPc.failed]
  · have hok := h.calls c hc
    unfold ReadOk at hok
    rw [ht] at hok
    exact hok

namespace Sample

/-- The workspace with no files, at a later generation. -/
def laterSnapshot : WorkspaceTreeSnapshot := ⟨⟨"r1", "w1", 2, 1, []⟩, []⟩

/-- The workspace with the empty file `a`, at the same workspace generation. -/
def filledSnapshot : WorkspaceTreeSnapshot :=
  ⟨⟨"r1", "w1", 2, 1, []⟩, [⟨[97], Vector.replicate 16 0,
    .blob #v[227, 176, 196, 66, 152, 252, 28, 20, 154, 251, 244, 200, 153, 111, 185, 36,
      39, 174, 65, 228, 100, 155, 147, 76, 164, 149, 153, 27, 120, 82, 184, 85] false, 0, 0⟩]⟩

/-- SHA-256 of what its root directory feeds to the hash. -/
def filledRoot : Hash256 :=
  #v[194, 164, 138, 129, 117, 43, 163, 193, 217, 104, 74, 185, 135, 86, 207, 110,
    225, 39, 198, 124, 104, 28, 18, 41, 98, 97, 117, 59, 221, 191, 36, 143]

/-- A provider for the workspace `w1` of `r1`, with the libraries on these snapshots. -/
def daemonScope : ProviderScope where
  codec := { codec with
    identity := fun s => .ok (if s.binding.generation = 1 then "g1" else "g2")
    sha256 := fun bytes => if bytes.length = 48 then emptyRoot else filledRoot }
  showStatus n := toString n
  parseManifest _ := .ok ⟨"r1", some "w1"⟩
  endpoint := .new "http://127.0.0.1:4219" (some "/w")
  files := ⟨none, some "4219", .ok [], some "/w"⟩

/-- `200` with the tag `tag` and the document `snapshot`. -/
def document (tag : UInt8) (snapshot : WorkspaceTreeSnapshot) : Except String TreeResponse :=
  .ok ⟨200, some [34, 103, tag, 34], .ok snapshot⟩

/-- Two refreshes that overlap: the later generation is installed, the earlier one is not. -/
def overtaken : List ProviderLabel :=
  [.call .lookup, .call .version, .capture 0, .capture 1, .receive 0 (document 49 emptySnapshot),
    .receive 1 (document 50 laterSnapshot), .install 1, .install 0, .finish 0, .finish 1]

end Sample

/-- The lookup that fetched generation 1 is answered from generation 2. -/
theorem succession_monotone_overtaken :
    ∃ s, Runs.run (ProviderSys.step Sample.daemonScope) .init Sample.overtaken = some s ∧
      s.tree.map (·.version) = some 2 ∧ s.clock = [2] ∧
      MonotoneSuccession Sample.daemonScope "/w" s := by
  have hrun : ((Runs.run (ProviderSys.step Sample.daemonScope) .init Sample.overtaken).map fun s =>
      (s.tree.map (·.version), s.clock)) = some (some 2, [2]) := by decide
  obtain ⟨s, hs, hp⟩ := Option.map_eq_some_iff.mp hrun
  exact ⟨s, hs, congrArg Prod.fst hp, congrArg Prod.snd hp,
    succession_monotone Sample.daemonScope "/w" rfl hs⟩

end KinVfs
