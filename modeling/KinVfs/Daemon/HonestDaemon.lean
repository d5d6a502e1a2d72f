import KinVfs.Daemon.Succession
import Mathlib.Data.List.Pairwise

/-!
# A provider and an honest daemon

The daemon publishes valid snapshots of the served workspace, with growing versions and workspace
generations that do not fall, and answers each conditional request from the snapshot that is current
then (`HonestSys`). Publications, and the steps of any number of calls, interleave.

When the root's membership changes only with the workspace generation, the one error a refresh can
return is the refusal of a `304` for a tag that another call's installation has replaced since it
was captured (`honest_refresh`). Both provisos are needed (`honest_daemon_refused`).
-/

namespace KinVfs

variable {scope : ProviderScope} {root : String}

/-! ## The daemon -/

/-- A strong validator as a header value. -/
def quoteTag (tag : String) : Bytes :=
  34 :: (tag.toList.map fun c => UInt8.ofNat c.toNat) ++ [34]

/-- The answer of a daemon whose current snapshot is `current`, with the tag `tag`. -/
def treeAnswer (current : WorkspaceTreeSnapshot) (tag : String) (presented : Option String) :
    TreeResponse :=
  if presented = some tag then ⟨304, some (quoteTag tag), .error "EOF while parsing a value"⟩
  else ⟨200, some (quoteTag tag), .ok current⟩

/-- The next snapshot is later than the current one. -/
def laterThan (current : Option WorkspaceTreeSnapshot) (next : WorkspaceTreeSnapshot) : Bool :=
  match current with
  | none => true
  | some current =>
    current.binding.generation < next.binding.generation &&
      current.binding.workspaceGeneration ≤ next.binding.workspaceGeneration

/-- The snapshot is valid and of the served workspace. -/
def ProviderScope.serves (scope : ProviderScope) (snapshot : WorkspaceTreeSnapshot) : Bool :=
  (CachedTree.fromSnapshot scope.codec snapshot).isOk &&
    (scope.validateTreeIdentity snapshot.binding).isOk

/-- The root membership of a valid snapshot. -/
def ProviderScope.membershipOf (scope : ProviderScope) (snapshot : WorkspaceTreeSnapshot) :
    Option Hash256 :=
  match CachedTree.fromSnapshot scope.codec snapshot with
  | .ok tree => tree.rootMembership
  | .error _ => none

/-- A provider and the snapshots its daemon has published, the current one last. -/
structure HonestSys where
  provider : ProviderSys
  published : List WorkspaceTreeSnapshot

/-- `turn` is a step of the provider other than the arrival of an answer. -/
inductive HonestLabel where
  | publish (snapshot : WorkspaceTreeSnapshot)
  | answer (i : Nat)
  | turn (l : ProviderLabel)

namespace HonestSys

def init : HonestSys := ⟨.init, []⟩

/-- The daemon answers call `i`. -/
def stepAnswer (scope : ProviderScope) (s : HonestSys) (i : Nat) : Option HonestSys :=
  match s.provider.calls[i]?, s.published.getLast? with
  | some ⟨_, .requested cachedEtag, _, _, _⟩, some current =>
    match scope.codec.identity current with
    | .ok tag =>
      (s.provider.stepReceive scope i (.ok (treeAnswer current tag cachedEtag))).map
        ({ s with provider := · })
    | .error _ => none
  | _, _ => none

def step (scope : ProviderScope) (s : HonestSys) : HonestLabel → Option HonestSys
  | .publish snapshot =>
    if scope.serves snapshot && laterThan s.published.getLast? snapshot then
      some { s with published := s.published ++ [snapshot] }
    else none
  | .answer i => s.stepAnswer scope i
  | .turn (.receive ..) => none
  | .turn l => (s.provider.step scope l).map ({ s with provider := · })

end HonestSys

/-- A publication that changes the root's membership advances the workspace generation. -/
def membershipClocked (scope : ProviderScope) (s : HonestSys) : HonestLabel → Prop
  | .publish snapshot => ∀ current ∈ s.published.getLast?,
    scope.membershipOf current ≠ scope.membershipOf snapshot →
      current.binding.workspaceGeneration < snapshot.binding.workspaceGeneration
  | _ => True

instance : ∀ s l, Decidable (membershipClocked scope s l)
  | s, .publish snapshot =>
    inferInstanceAs (Decidable (∀ current ∈ s.published.getLast?,
      scope.membershipOf current ≠ scope.membershipOf snapshot →
        current.binding.workspaceGeneration < snapshot.binding.workspaceGeneration))
  | _, .answer _ | _, .turn _ => isTrue trivial

/-- The error a call's refresh returned. -/
def ReadPc.failure : ReadPc → Option String
  | .ensured (.error e) | .answered (.error (.provider e)) | .told (.error e) _ => some e
  | _ => none

/-- The canonical identities are visible text: a digest in hexadecimal. -/
def VisibleTags (codec : TreeCodec) : Prop :=
  ∀ snapshot tag, codec.identity snapshot = .ok tag →
    tag ≠ "" ∧ ∀ c ∈ tag.toList, 32 ≤ c.toNat ∧ c.toNat < 127

/-! ## One answer -/

theorem visible_byte {c : Char} (hlo : 32 ≤ c.toNat) (hhi : c.toNat < 127) :
    isVisibleAscii (UInt8.ofNat c.toNat) = true ∧ Char.ofNat (UInt8.ofNat c.toNat).toNat = c := by
  have hmod : (UInt8.ofNat c.toNat).toNat = c.toNat := by
    rw [UInt8.toNat_ofNat']
    omega
  constructor
  · simp only [isVisibleAscii, Bool.or_eq_true, Bool.and_eq_true, decide_eq_true_eq,
      UInt8.le_iff_toNat_le, UInt8.lt_iff_toNat_lt, hmod]
    exact .inl ⟨hlo, hhi⟩
  · rw [hmod, Char.ofNat_toNat]

theorem parseEtagHeader_quoteTag {tag : String} (hne : tag ≠ "")
    (hv : ∀ c ∈ tag.toList, 32 ≤ c.toNat ∧ c.toNat < 127) :
    parseEtagHeader (some (quoteTag tag)) = .ok tag := by
  have hall : (quoteTag tag).all isVisibleAscii = true := by
    rw [List.all_eq_true]
    intro b hb
    simp only [quoteTag, List.cons_append, List.mem_cons, List.mem_append, List.mem_map,
      List.not_mem_nil, or_false] at hb
    rcases hb with rfl | ⟨c, hc, rfl⟩ | rfl
    · decide
    · exact (visible_byte (hv c hc).1 (hv c hc).2).1
    · decide
  have hraw : (quoteTag tag).map (fun b => Char.ofNat b.toNat) =
      '\x22' :: (tag.toList ++ ['\x22']) := by
    have hmap : (tag.toList.map fun c => UInt8.ofNat c.toNat).map (fun b => Char.ofNat b.toNat) =
        tag.toList := by
      rw [List.map_map]
      refine (List.map_congr_left fun c hc => ?_).trans (List.map_id _)
      exact (visible_byte (hv c hc).1 (hv c hc).2).2
    rw [quoteTag, List.cons_append, List.map_cons, List.map_append, hmap]
    rfl
  have hinner : tag.toList ≠ [] := by
    intro h
    exact hne (String.toList_eq_nil_iff.mp h)
  simp only [parseEtagHeader, hall, ↓reduceIte, hraw, unquote, List.getLast?_append,
    List.getLast?_singleton, Option.some_or, List.dropLast_concat, hinner, String.ofList_toList]

theorem serves_ok {snapshot : WorkspaceTreeSnapshot} (h : scope.serves snapshot = true) :
    ∃ tree, CachedTree.fromSnapshot scope.codec snapshot = .ok tree ∧
      scope.validateTreeIdentity snapshot.binding = .ok () := by
  rw [ProviderScope.serves, Bool.and_eq_true] at h
  obtain ⟨ht, hb⟩ := h
  cases hf : CachedTree.fromSnapshot scope.codec snapshot with
  | error e => rw [hf] at ht; cases ht
  | ok tree =>
    cases hv : scope.validateTreeIdentity snapshot.binding with
    | error e => rw [hv] at hb; cases hb
    | ok u => exact ⟨tree, rfl, rfl⟩

/-- What an honest answer leads to: a `304` to the check of the tag, the snapshot to its
installation. -/
theorem onAnswer_honest (hvis : VisibleTags scope.codec) {current : WorkspaceTreeSnapshot}
    {tag : String} (presented : Option String) (hserves : scope.serves current = true)
    (htag : scope.codec.identity current = .ok tag) :
    (presented = some tag ∧
        scope.onAnswer presented (.ok (treeAnswer current tag presented)) = .confirming tag) ∨
      ∃ tree, CachedTree.fromSnapshot scope.codec current = .ok tree ∧
        scope.onAnswer presented (.ok (treeAnswer current tag presented)) = .validated tree := by
  by_cases hp : presented = some tag
  · subst hp
    exact .inl ⟨rfl, by simp [ProviderScope.onAnswer, treeAnswer]⟩
  · obtain ⟨tree, hf, hv⟩ := serves_ok hserves
    obtain ⟨hne, hchars⟩ := hvis current tag htag
    have hacc : scope.acceptDocument ⟨200, some (quoteTag tag), .ok current⟩ = .ok tree := by
      simp [ProviderScope.acceptDocument, parseEtagHeader_quoteTag hne hchars, htag, hv, hf,
        Except.mapError, bind, Except.bind]
    refine .inr ⟨tree, hf, ?_⟩
    simp [ProviderScope.onAnswer, treeAnswer, hp, isSuccess, hacc]

/-! ## Published trees -/

/-- The snapshot `b` was published after `a`. -/
structure PublishedLater (scope : ProviderScope) (a b : WorkspaceTreeSnapshot) : Prop where
  version : a.binding.generation < b.binding.generation
  generation : a.binding.workspaceGeneration ≤ b.binding.workspaceGeneration
  membership : scope.membershipOf a ≠ scope.membershipOf b →
    a.binding.workspaceGeneration < b.binding.workspaceGeneration

theorem PublishedLater.trans {a b c : WorkspaceTreeSnapshot} (hab : PublishedLater scope a b)
    (hbc : PublishedLater scope b c) : PublishedLater scope a c where
  version := Nat.lt_trans hab.version hbc.version
  generation := Nat.le_trans hab.generation hbc.generation
  membership hne := by
    by_cases h : scope.membershipOf a = scope.membershipOf b
    · exact Nat.lt_of_le_of_lt hab.generation (hbc.membership (h ▸ hne))
    · exact Nat.lt_of_lt_of_le (hab.membership h) hbc.generation

/-- What the daemon has published. -/
structure Publications (scope : ProviderScope) (published : List WorkspaceTreeSnapshot) : Prop where
  serves : ∀ snapshot ∈ published, scope.serves snapshot = true
  later : published.Pairwise (PublishedLater scope)

/-- The tree of a published snapshot. -/
def FromPublished (scope : ProviderScope) (published : List WorkspaceTreeSnapshot)
    (tree : CachedTree) : Prop :=
  ∃ snapshot ∈ published, CachedTree.fromSnapshot scope.codec snapshot = .ok tree

variable {published : List WorkspaceTreeSnapshot} {a b tree : CachedTree}

theorem Publications.publish {snapshot : WorkspaceTreeSnapshot} (h : Publications scope published)
    (hs : scope.serves snapshot = true)
    (hl : ∀ current, published.getLast? = some current → PublishedLater scope current snapshot) :
    Publications scope (published ++ [snapshot]) := by
  constructor
  · intro x hx
    rcases List.mem_append.mp hx with hx | hx
    · exact h.serves x hx
    · rw [List.mem_singleton] at hx
      exact hx ▸ hs
  · rw [List.pairwise_append]
    refine ⟨h.later, List.pairwise_singleton _ _, fun x hx y hy => ?_⟩
    rw [List.mem_singleton] at hy
    rw [hy]
    -- The last one published, or one before it.
    obtain ⟨pre, z, hz⟩ : ∃ pre z, published = pre ++ [z] :=
      ⟨_, _, (List.dropLast_append_getLast (List.ne_nil_of_mem hx)).symm⟩
    have hlast : PublishedLater scope z snapshot := hl z (by simp [hz])
    rw [hz] at hx
    rcases List.mem_append.mp hx with hx | hx
    · have hpair := h.later
      rw [hz, List.pairwise_append] at hpair
      exact (hpair.2.2 x hx z (by simp)).trans hlast
    · rw [List.mem_singleton] at hx
      exact hx ▸ hlast

theorem vetted_of_published (hs : scope.endpoint.repoRoot = some root)
    (hp : Publications scope published) (ht : FromPublished scope published tree) :
    Vetted scope root tree ∧ scope.validateTreeIdentity tree.binding = .ok () := by
  obtain ⟨snapshot, hmem, hf⟩ := ht
  obtain ⟨-, -, hv⟩ := serves_ok (hp.serves snapshot hmem)
  have hb := (fromSnapshot_ok hf).2.1
  refine ⟨⟨bound_of_validateTreeIdentity hs hv hb, stamped_of_fromSnapshot hf, ?_⟩, by rw [hb, hv]⟩
  exact ((accepted_of_fromSnapshot hf).isDir .root).mpr (.inl rfl)

/-- Two trees bound to one manifest have the same ids. -/
theorem Bound.eq (ha : Bound scope root a) (hb : Bound scope root b) :
    b.binding.repositoryId = a.binding.repositoryId ∧
      b.binding.workspaceId = a.binding.workspaceId := by
  obtain ⟨ia, hia, hra, hwa⟩ := ha
  obtain ⟨ib, hib, hrb, hwb⟩ := hb
  rw [hia] at hib
  cases hib
  rw [hwa] at hwb
  exact ⟨hrb.trans hra.symm, (Option.some.inj hwb).symm⟩

/-- Of two published trees, one is the other or succeeds it. -/
theorem published_order (hp : Publications scope published) (ha : FromPublished scope published a)
    (hb : FromPublished scope published b) : a = b ∨ Succeeds a b ∨ Succeeds b a := by
  obtain ⟨x, hx, hfx⟩ := ha
  obtain ⟨y, hy, hfy⟩ := hb
  have hsucc : ∀ {x y : WorkspaceTreeSnapshot} {a b : CachedTree},
      CachedTree.fromSnapshot scope.codec x = .ok a →
      CachedTree.fromSnapshot scope.codec y = .ok b → PublishedLater scope x y → Succeeds a b := by
    intro x y a b hfx hfy hl
    obtain ⟨-, hbx, hvx, -⟩ := fromSnapshot_ok hfx
    obtain ⟨-, hby, hvy, -⟩ := fromSnapshot_ok hfy
    have hm := hl.membership
    simp only [ProviderScope.membershipOf, hfx, hfy] at hm
    refine ⟨?_, ?_, ?_⟩
    · rw [hvx, hvy]
      exact hl.version
    · rw [hbx, hby]
      exact hl.generation
    · rw [hbx, hby]
      exact hm
  by_cases hxy : x = y
  · subst hxy
    rw [hfx] at hfy
    exact .inl (Except.ok.inj hfy)
  · have hsymm : Std.Symm fun x y => PublishedLater scope x y ∨ PublishedLater scope y x :=
      ⟨fun _ _ h => h.symm⟩
    have hor : published.Pairwise fun x y => PublishedLater scope x y ∨ PublishedLater scope y x :=
      hp.later.imp .inl
    rcases hor.forall hx hy hxy with hl | hl
    · exact .inr (.inl (hsucc hfx hfy hl))
    · exact .inr (.inr (hsucc hfy hfx hl))

/-- Succession between published trees is never refused. -/
theorem planSuccession_published (hs : scope.endpoint.repoRoot = some root)
    (hp : Publications scope published) (ha : FromPublished scope published a)
    (hb : FromPublished scope published b) : ∃ plan, planSuccession (some a) b = .ok plan := by
  obtain ⟨hva, -⟩ := vetted_of_published hs hp ha
  obtain ⟨hvb, -⟩ := vetted_of_published hs hp hb
  obtain ⟨hrepo, hws⟩ := hva.bound.eq hvb.bound
  simp only [planSuccession, hrepo, hws, ne_eq, not_true_eq_false, or_self, ↓reduceIte]
  rcases published_order hp ha hb with rfl | hl | hl
  · exact ⟨.retainCurrent, by simp⟩
  · obtain ⟨ma, hma, hga⟩ := hva.rootMutation
    obtain ⟨mb, hmb, hgb⟩ := hvb.rootMutation
    have hgen : ¬ mb.workspaceGeneration < ma.workspaceGeneration := by
      have := hl.generation
      omega
    have hmem : ¬ (mb.membership ≠ ma.membership ∧
        mb.workspaceGeneration = ma.workspaceGeneration) := by
      rintro ⟨hne, heq⟩
      have hlt := hl.membership (by
        simp only [CachedTree.rootMembership, hma, hmb, Option.map_some, ne_eq, Option.some.injEq]
        exact fun h => hne h.symm)
      omega
    exact ⟨.install, by rw [if_pos hl.version, hma, hmb]; simp only [planRoots, if_neg hgen, if_neg hmem]⟩
  · have hnlt : ¬ a.version < b.version := Nat.not_lt.mpr hl.version.le
    have hne : b.version ≠ a.version := hl.version.ne
    exact ⟨.retainCurrent, by rw [if_neg hnlt, if_neg hne]⟩

/-! ## Runs -/

/-- The refusal of a `304` for a tag that is no longer installed. -/
def supersededError : String := "tree returned 304 for a superseded cached snapshot"

/-- A failed refresh was refused as superseded, after an installation since its tag was captured. -/
def Excused (c : ReadCall) : Prop :=
  ∀ e, c.pc.failure = some e → e = supersededError ∧ c.captured < c.checked

/-- The tag `etag` was captured when `n` trees had been installed. -/
structure Captured (s : ProviderSys) (n : Nat) (etag : String) : Prop where
  some : s.tree.isSome = true
  le : n ≤ s.installed.length
  same : s.installed.length = n → s.tree.map (·.etag) = .some etag

/-- What a call of an honest run has to show at each point. -/
def HonestOk (scope : ProviderScope) (s : HonestSys) (c : ReadCall) : Prop :=
  match c.pc with
  | .start => True
  | .requested cachedEtag => ∀ etag, cachedEtag = some etag → Captured s.provider c.captured etag
  | .confirming etag => Captured s.provider c.captured etag
  | .validated next => FromPublished scope s.published next
  | .ensured (.ok ()) => s.provider.tree.isSome = true
  | _ => Excused c

/-- The invariant of an honest run. -/
structure HonestRun (scope : ProviderScope) (s : HonestSys) : Prop where
  publications : Publications scope s.published
  tree : ∀ t, s.provider.tree = some t → FromPublished scope s.published t
  calls : ∀ c ∈ s.provider.calls, HonestOk scope s c

variable {s s' : HonestSys} {c c' : ReadCall} {told : List Nat} {i : Nat}

theorem excused_of_honestOk (h : HonestOk scope s c) : Excused c := by
  obtain ⟨op, pc, documents, captured, checked⟩ := c
  intro e he
  cases pc with
  | ensured result =>
    cases result with
    | error e' => exact h e he
    | ok u => cases he
  | answered source =>
    cases source with
    | error e' => exact h e he
    | ok t => cases he
  | told result version => exact h e he
  | _ => cases he

theorem FromPublished.mono {published' : List WorkspaceTreeSnapshot}
    (h : FromPublished scope published tree) (hsub : published ⊆ published') :
    FromPublished scope published' tree := by
  obtain ⟨snapshot, hmem, hf⟩ := h
  exact ⟨snapshot, hsub hmem, hf⟩

/-- A call keeps its promise when another call's step installs a tree, or none, and when the daemon
publishes. -/
theorem HonestOk.advance (h : HonestOk scope s c) (hsub : s.published ⊆ s'.published)
    (hsome : s.provider.tree.isSome = true → s'.provider.tree.isSome = true)
    (hinst : s'.provider.tree = s.provider.tree ∧ s'.provider.installed = s.provider.installed ∨
      s.provider.installed.length < s'.provider.installed.length) : HonestOk scope s' c := by
  have hcap : ∀ {n etag}, Captured s.provider n etag → Captured s'.provider n etag := by
    intro n etag hc
    rcases hinst with ⟨ht, hi⟩ | hlt
    · exact ⟨hsome hc.some, by rw [hi]; exact hc.le, by rw [hi, ht]; exact hc.same⟩
    · refine ⟨hsome hc.some, Nat.le_trans hc.le hlt.le, fun heq => ?_⟩
      have := hc.le
      omega
  obtain ⟨op, pc, documents, captured, checked⟩ := c
  cases pc with
  | requested cachedEtag => exact fun etag he => hcap (h etag he)
  | confirming etag => exact hcap h
  | validated next => exact FromPublished.mono h hsub
  | ensured result =>
    cases result with
    | error e => exact h
    | ok u => exact hsome h
  | _ => exact h

/-- A `304` is confirmed, unless its tag has been replaced. -/
theorem confirm_honest (hs : scope.endpoint.repoRoot = some root) (h : HonestRun scope s)
    {n : Nat} {etag : String} (hc : Captured s.provider n etag) :
    scope.confirm s.provider.tree etag = .ok () ∨
      scope.confirm s.provider.tree etag = .error supersededError ∧
        n < s.provider.installed.length := by
  obtain ⟨t, ht⟩ := Option.isSome_iff_exists.mp hc.some
  have hv := (vetted_of_published hs h.publications (h.tree t ht)).2
  rw [ht]
  by_cases he : t.etag = etag
  · refine .inl ?_
    simp [ProviderScope.confirm, he, hv]
  · refine .inr ⟨by simp [ProviderScope.confirm, he, supersededError], ?_⟩
    have hne : s.provider.installed.length ≠ n := by
      intro heq
      have hsame := hc.same heq
      rw [ht] at hsame
      exact he (Option.some.inj hsame)
    have := hc.le
    omega

/-- A turn that is not the arrival of an answer. -/
theorem honestOk_turn (hs : scope.endpoint.repoRoot = some root) (h : HonestRun scope s)
    (hc : HonestOk scope s c) (ht : ProviderSys.Turn scope s.provider c c' told)
    (hreq : ∀ cachedEtag, c.pc ≠ .requested cachedEtag) : HonestOk scope s c' := by
  cases ht with
  | capture =>
    intro etag he
    refine ⟨?_, Nat.le_refl _, fun _ => he⟩
    obtain ⟨t, ht, -⟩ := Option.map_eq_some_iff.mp he
    rw [ht]
    rfl
  | receive answer => exact absurd rfl (hreq _)
  | confirm =>
    rename_i op expectedEtag documents captured checked
    have hcap : Captured s.provider captured expectedEtag := hc
    rcases confirm_honest hs h hcap with hok | ⟨herr, hlt⟩
    · rw [hok]
      exact hcap.some
    · rw [herr]
      intro e he
      cases he
      exact ⟨rfl, hlt⟩
  | refuse hp =>
    rename_i op next e documents captured checked
    exfalso
    cases htree : s.provider.tree with
    | none => rw [htree] at hp; cases hp
    | some t =>
      obtain ⟨plan, hplan⟩ := planSuccession_published hs h.publications (h.tree t htree) hc
      rw [htree, hplan] at hp
      cases hp
  | retain hp =>
    obtain ⟨t, ht, -⟩ := le_of_retain hp
    show s.provider.tree.isSome = true
    rw [ht]
    rfl
  | answer =>
    rename_i result documents captured checked
    cases result with
    | error e =>
      have hx : Excused ⟨.lookup, .ensured (.error e), documents, captured, checked⟩ := hc
      intro e' he'
      cases he'
      exact hx e rfl
    | ok u =>
      obtain ⟨t, ht⟩ := Option.isSome_iff_exists.mp (show s.provider.tree.isSome = true from hc)
      rw [ht]
      intro e' he'
      cases he'
  | tell =>
    rename_i result documents captured checked
    cases result with
    | error e =>
      have hx : Excused ⟨.version, .ensured (.error e), documents, captured, checked⟩ := hc
      intro e' he'
      cases he'
      exact hx e rfl
    | ok u =>
      intro e' he'
      cases he'

/-- The arrival of the daemon's answer. -/
theorem honestOk_answer (hvis : VisibleTags scope.codec) (h : HonestRun scope s) {op : ReadOp}
    {presented : Option String} {documents : List Nat} {captured checked : Nat}
    {current : WorkspaceTreeSnapshot} {tag : String}
    (hcur : s.published.getLast? = some current) (htag : scope.codec.identity current = .ok tag)
    (hc : HonestOk scope s ⟨op, .requested presented, documents, captured, checked⟩)
    {documents' : List Nat} :
    HonestOk scope s ⟨op, scope.onAnswer presented (.ok (treeAnswer current tag presented)),
      documents', captured, checked⟩ := by
  have hmem : current ∈ s.published := List.mem_of_getLast? hcur
  rcases onAnswer_honest hvis presented (h.publications.serves current hmem) htag with
    ⟨hp, hon⟩ | ⟨tree, hf, hon⟩
  · rw [hon]
    exact hc tag hp
  · rw [hon]
    exact ⟨current, hmem, hf⟩

/-- The calls after one of them moved and nothing was installed. -/
theorem HonestRun.set (h : HonestRun scope s) {clock : List Nat} (hc' : HonestOk scope s c') :
    HonestRun scope { s with provider :=
      { s.provider with calls := s.provider.calls.set i c', clock := clock } } := by
  refine ⟨h.publications, h.tree, fun d hd => ?_⟩
  rcases List.mem_or_eq_of_mem_set hd with hd | rfl
  · exact (h.calls d hd).advance (List.Subset.refl _) id (.inl ⟨rfl, rfl⟩)
  · exact hc'.advance (List.Subset.refl _) id (.inl ⟨rfl, rfl⟩)

theorem HonestRun.turn {l : ProviderLabel} {p : ProviderSys}
    (hs : scope.endpoint.repoRoot = some root) (h : HonestRun scope s)
    (hl : ∀ i answer, l ≠ .receive i answer) (hstep : s.provider.step scope l = some p) :
    HonestRun scope { s with provider := p } := by
  rcases ProviderSys.step_cases hstep with ⟨op, rfl⟩ | ⟨i, c, c', told, hc, ht, hreq, rfl⟩ |
    ⟨i, op, next, documents, captured, checked, hc, hp, rfl⟩
  · refine ⟨h.publications, h.tree, fun d hd => ?_⟩
    rcases List.mem_append.mp hd with hd | hd
    · exact (h.calls d hd).advance (List.Subset.refl _) id (.inl ⟨rfl, rfl⟩)
    · rw [List.mem_singleton] at hd
      subst hd
      trivial
  · refine h.set (honestOk_turn hs h (h.calls c (List.mem_of_getElem? hc)) ht fun etag he => ?_)
    obtain ⟨answer, hl'⟩ := hreq etag he
    exact hl i answer hl'
  · have hn : FromPublished scope s.published next := h.calls _ (List.mem_of_getElem? hc)
    refine ⟨h.publications, fun t ht => ?_, fun d hd => ?_⟩
    · cases ht
      exact hn
    · rcases List.mem_or_eq_of_mem_set hd with hd | rfl
      · exact (h.calls d hd).advance (List.Subset.refl _) (fun _ => rfl) (.inr (by simp))
      · exact (rfl : (some next).isSome = true)

theorem HonestRun.step {l : HonestLabel} (hs : scope.endpoint.repoRoot = some root)
    (hvis : VisibleTags scope.codec) (h : HonestRun scope s) (hm : membershipClocked scope s l)
    (hstep : s.step scope l = some s') : HonestRun scope s' := by
  cases l with
  | publish snapshot =>
    simp only [HonestSys.step] at hstep
    split at hstep
    · rename_i hguard
      rw [Bool.and_eq_true] at hguard
      cases hstep
      refine ⟨h.publications.publish hguard.1 fun current hcur => ?_, fun t ht => ?_, fun d hd => ?_⟩
      · have hlater := hguard.2
        simp only [laterThan, hcur, Bool.and_eq_true, decide_eq_true_eq] at hlater
        exact ⟨hlater.1, hlater.2, hm current hcur⟩
      · exact (h.tree t ht).mono (List.subset_append_left _ _)
      · exact (h.calls d hd).advance (List.subset_append_left _ _) id (.inl ⟨rfl, rfl⟩)
    · cases hstep
  | answer i =>
    simp only [HonestSys.step, HonestSys.stepAnswer] at hstep
    split at hstep
    · rename_i op presented documents captured checked current hc hcur
      split at hstep
      · rename_i tag htag
        simp only [ProviderSys.stepReceive, hc, Option.map_some, Option.some.injEq] at hstep
        subst hstep
        have hok := h.calls _ (List.mem_of_getElem? hc)
        exact h.set (honestOk_answer hvis h hcur htag hok)
      · cases hstep
    · cases hstep
  | turn l =>
    have hl : ∀ i answer, l ≠ .receive i answer := by
      rintro i answer rfl
      cases hstep
    have hstep' : (s.provider.step scope l).map ({ s with provider := · }) = some s' := by
      cases l with
      | receive i answer => exact absurd rfl (hl i answer)
      | _ => exact hstep
    obtain ⟨p, hp, rfl⟩ := Option.map_eq_some_iff.mp hstep'
    exact h.turn hs hl hp

theorem honestRun_init : HonestRun scope .init where
  publications := ⟨by simp [HonestSys.init], by simp [HonestSys.init]⟩
  tree := by simp [HonestSys.init, ProviderSys.init]
  calls := by simp [HonestSys.init, ProviderSys.init]

/-- **An honest daemon causes no other error**: in every interleaving of calls and publications, when
the root's membership changes only with the workspace generation, a refresh fails only as
superseded, and only after another tree was installed between its capture and its check. -/
theorem honest_refresh (scope : ProviderScope) (root : String)
    (hs : scope.endpoint.repoRoot = some root) (hvis : VisibleTags scope.codec)
    {ls : List HonestLabel} {s : HonestSys}
    (hrun : Runs.run (HonestSys.step scope) .init ls = some s)
    (hm : Runs.Meets (HonestSys.step scope) (membershipClocked scope) .init ls) :
    ∀ c ∈ s.provider.calls, ∀ e, c.pc.failure = some e →
      e = "tree returned 304 for a superseded cached snapshot" ∧ c.captured < c.checked := by
  have h : HonestRun scope s :=
    Runs.run_inv_of_meets (fun _ _ _ h hm hstep => h.step hs hvis hm hstep) honestRun_init hm hrun
  exact fun c hc => excused_of_honestOk (h.calls c hc)

namespace Sample

/-- A refresh from the entry of the call to the answer. -/
def refresh (i : Nat) : List HonestLabel := [.turn (.call .lookup), .turn (.capture i), .answer i]

/-- Call 1 is told `304`, and call 2 installs the next snapshot before call 1 checks it. -/
def raced : List HonestLabel :=
  .publish emptySnapshot :: refresh 0 ++ [.turn (.install 0)] ++ refresh 1 ++
    .publish laterSnapshot :: refresh 2 ++ [.turn (.install 2), .turn (.confirm 1)]

/-- A file appears while the workspace generation stays. -/
def unclocked : List HonestLabel :=
  .publish emptySnapshot :: refresh 0 ++ [.turn (.install 0), .publish filledSnapshot] ++
    refresh 1 ++ [.turn (.install 1)]

theorem daemonScope_tags : VisibleTags daemonScope.codec := by
  intro snapshot tag h
  have htag : tag = if snapshot.binding.generation = 1 then "g1" else "g2" :=
    (Except.ok.inj h).symm
  have hvis : (tag != "" && tag.toList.all fun c => 32 ≤ c.toNat && c.toNat < 127) = true := by
    rw [htag]
    split <;> decide
  simpa using hvis

/-- The errors of the calls so far. -/
def failures (s : HonestSys) : List (Option String) := s.provider.calls.map (·.pc.failure)

end Sample

/-- In the race, the one error is the refusal of the superseded tag. -/
theorem honest_refresh_raced :
    ∃ s, Runs.run (HonestSys.step Sample.daemonScope) .init Sample.raced = some s ∧
      s.provider.calls.length = 3 ∧
      ∀ c ∈ s.provider.calls, ∀ e, c.pc.failure = some e →
        e = "tree returned 304 for a superseded cached snapshot" ∧ c.captured < c.checked := by
  have hrun : ((Runs.run (HonestSys.step Sample.daemonScope) .init Sample.raced).map
      (·.provider.calls.length)) = some 3 := by decide +kernel
  obtain ⟨s, hs, hlen⟩ := Option.map_eq_some_iff.mp hrun
  exact ⟨s, hs, hlen, honest_refresh Sample.daemonScope "/w" rfl Sample.daemonScope_tags hs
    (by decide +kernel)⟩

/-- Both an installation between a `304` and its check and a change of membership at one workspace
generation make a refresh fail. -/
theorem honest_daemon_refused :
    (∃ s, Runs.run (HonestSys.step Sample.daemonScope) .init Sample.raced = some s ∧
      Sample.failures s =
        [none, some "tree returned 304 for a superseded cached snapshot", none]) ∧
    (∃ s, Runs.run (HonestSys.step Sample.daemonScope) .init Sample.unclocked = some s ∧
      Sample.failures s =
        [none, some "tree snapshot descendant membership changed at workspace generation 1"]) := by
  have hraced : (Runs.run (HonestSys.step Sample.daemonScope) .init Sample.raced).map
      Sample.failures =
        some [none, some "tree returned 304 for a superseded cached snapshot", none] := by
    decide +kernel
  have hunclocked : (Runs.run (HonestSys.step Sample.daemonScope) .init Sample.unclocked).map
      Sample.failures =
        some [none, some "tree snapshot descendant membership changed at workspace generation 1"] := by
    decide +kernel
  exact ⟨Option.map_eq_some_iff.mp hraced, Option.map_eq_some_iff.mp hunclocked⟩

end KinVfs
