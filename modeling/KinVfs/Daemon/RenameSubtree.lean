import KinVfs.Daemon.OverlayTree

/-!
# When a rename moves the subtree

The host moves a directory with everything below it, and the staging map records its two names. What
the mount shows below either name is decided as before the call, so the subtree is moved exactly
when nothing was shown below either of them (`moves_subtree_iff`). How much of a stat is compared is
a parameter: `id` is the whole record, a staged stat has no content hash.
-/

namespace KinVfs

open Fallible KinDaemonWriter

/-- The path reached from `p` by the names `q`. -/
def VfsPath.descend (p : VfsPath) (q : List VfsName) : VfsPath := q.foldl VfsPath.join p

/-- What a provider answers for a present path: its stat as `look` sees it, and what belongs to its
type. -/
structure Answer (α : Type) where
  type : FileType
  stat : α
  content : Option Bytes
  target : Option Bytes
  listing : Option (List DirEntry)

def answer {α : Type} (look : VirtualStat → α) (O : ContentProvider) (p : VfsPath) :
    Option (Answer α) :=
  match O.stat p with
  | .error _ => none
  | .ok st => some {
      type := st.fileType
      stat := look st
      content := if st.fileType = .file then (O.readFile p).toOption else none
      target := if st.fileType = .symlink then (O.readLink p).toOption else none
      listing := if st.fileType = .directory then (O.readDir p).toOption else none }

/-- Below `new` everything is as it was below `old`, and at and below `old` there is nothing. -/
structure MovesSubtree {α : Type} (look : VirtualStat → α) (O O' : ContentProvider)
    (old new : VfsPath) : Prop where
  arrived : ∀ q, answer look O' (new.descend q) = answer look O (old.descend q)
  gone : ∀ q, (∃ e, O'.stat (old.descend q) = .error e) ∧ O'.pathExists (old.descend q) = .ok false

/-- The node of the entry the working copy has at `p`. -/
def entryNode (root : Posix.Path) (fs : Posix.Fs) (p : VfsPath) : Option Posix.Node :=
  match containedEntry fs root p with
  | .ok e => fs.node e
  | .error _ => none

/-- **The condition**, before the call: nothing is shown below either name, and `old` is shown as
the working copy has it. -/
structure Unshadowed {α : Type} (look : VirtualStat → α) (graph : ContentProvider)
    (root : Posix.Path) (w : World) (old new : VfsPath) (nd : Posix.Node) : Prop where
  apart : old ≠ new ∧ old.isAncestorOf new = false
  belowOld : ∀ q, q ≠ [] → (overlay graph root w).pathExists (old.descend q) = .ok false
  belowNew : ∀ q, q ≠ [] → new.descend q ≠ old →
    ∃ e, (overlay graph root w).stat (new.descend q) = .error e
  stat : ∃ st, (overlay graph root w).stat old = .ok st ∧ st.fileType = (statOf nd).fileType ∧
    look st = look (statOf nd)
  content : ∀ i c, nd = .file i c → (overlay graph root w).readFile old = .ok c
  /-- The graph lets `new` be listed when `old` is, and lists no repository boundary in it. -/
  listing : nd.isDir = true →
    ((∃ es, (overlay graph root w).readDir old = .ok es) ↔
      graph.kind new = none ∨ graph.kind new = some .directory) ∧
    (graph.kind new = some .directory → ∀ n, graph.kind (new.join n) = some .gitlink →
      w.staging.staged (new.join n) = some .removed ∨ new.join n = old)

namespace VfsPath

variable {p : VfsPath} {n : VfsName} {q : List VfsName}

@[simp] theorem descend_nil : p.descend [] = p := rfl

theorem descend_concat : p.descend (q ++ [n]) = (p.descend q).join n := by
  rw [descend, List.foldl_append]
  rfl

theorem isAncestorOf_descend (hq : q ≠ []) : p.isAncestorOf (p.descend q) = true := by
  induction q using List.reverseRecOn with
  | nil => exact absurd rfl hq
  | append_singleton q n ih =>
    rw [descend_concat, isAncestorOf_join]
    by_cases h0 : q = []
    · subst h0
      exact .inl rfl
    · exact .inr (ih h0)

theorem exists_descend {d : VfsPath} (h : d.isAncestorOf p = true) : ∃ q, q ≠ [] ∧ p = d.descend q := by
  induction p using VfsPath.induct with
  | hroot =>
    rw [isAncestorOf_iff] at h
    obtain ⟨cs, hne, hcs⟩ := h
    rw [components_root] at hcs
    exact absurd (List.append_eq_nil_iff.mp hcs.symm).2 hne
  | hjoin p n ih =>
    rcases isAncestorOf_join.mp h with rfl | h
    · exact ⟨[n], by simp, rfl⟩
    · obtain ⟨q, -, rfl⟩ := ih h
      exact ⟨q ++ [n], by simp, descend_concat.symm⟩

theorem not_isAncestorOf_self : p.isAncestorOf p = false := by
  rw [Bool.eq_false_iff, ne_eq, isAncestorOf_iff]
  rintro ⟨cs, hne, hcs⟩
  exact hne (List.append_cancel_left (hcs.symm.trans (List.append_nil _).symm))

theorem descend_ne_self (hq : q ≠ []) : p.descend q ≠ p := by
  intro h
  have ha : p.isAncestorOf (p.descend q) = true := isAncestorOf_descend hq
  rw [h, not_isAncestorOf_self] at ha
  cases ha

end VfsPath

section View

variable {graph : ContentProvider} {root : Posix.Path} {w : World} {p : VfsPath}

/-- What is absent has no stat. -/
theorem stat_error_of_absent (hg : GraphTree graph)
    (h : (overlay graph root w).pathExists p = .ok false) :
    ∃ e, (overlay graph root w).stat p = .error e := by
  cases hst : (overlay graph root w).stat p with
  | error e => exact ⟨e, rfl⟩
  | ok st =>
    have hp : Present (overlay graph root w) p := (present_iff_stat hg).mpr ⟨st, hst⟩
    rw [hp.2] at h
    cases h

theorem answer_eq_none {α : Type} {look : VirtualStat → α} {O : ContentProvider} :
    answer look O p = none ↔ ∃ e, O.stat p = .error e := by
  unfold answer
  split
  · rename_i e he
    simp [he]
  · rename_i st hst
    simp [hst]

/-- What can be listed is a graph directory, or staged where the graph has nothing. -/
theorem listed_of_readDir (hg : GraphTree graph) {es : List DirEntry}
    (h : (overlay graph root w).readDir p = .ok es) :
    graph.kind p = some .directory ∨
      (graph.kind p = none ∧ ∃ st, w.staging.staged p = some (.present st)) := by
  by_contra hno
  rw [not_or, not_and] at hno
  have herr : ∃ e, (overlay graph root w).readDir p = .error e :=
    overlay_readDir_error hg hno.1 fun hk st hs => hno.2 hk ⟨st, hs⟩
  obtain ⟨e, he⟩ := herr
  rw [h] at he
  cases he

/-- What a listing has. -/
theorem overlay_entries (hg : GraphTree graph) {es : List DirEntry}
    (h : (overlay graph root w).readDir p = .ok es) (n : VfsName) (ty : FileType) :
    ⟨n, ty⟩ ∈ es ↔
      (graph.kind (p.join n) = some ty ∧ w.staging.staged (p.join n) ≠ some .removed) ∨
        (graph.kind (p.join n) = none ∧
          ∃ st, w.staging.staged (p.join n) = some (.present st) ∧ st.fileType = ty) := by
  have hlist : ∃ es, (overlay graph root w).readDir p = .ok es ∧ _ :=
    overlay_listing hg (listed_of_readDir hg h)
  obtain ⟨es', hes, -, hmem⟩ := hlist
  rw [h] at hes
  cases hes
  exact hmem n ty

/-- With nothing below it, a directory lists nothing. -/
theorem readDir_eq_nil (hg : GraphTree graph) {es : List DirEntry}
    (hno : ∀ n, (overlay graph root w).pathExists (p.join n) = .ok false)
    (h : (overlay graph root w).readDir p = .ok es) : es = [] := by
  have hmem := overlay_entries hg h
  rw [List.eq_nil_iff_forall_not_mem]
  rintro ⟨n, ty⟩ hin
  have hex := hno n
  rw [overlay_pathExists] at hex
  rcases (hmem n ty).mp hin with ⟨hk, hrem⟩ | ⟨-, st, hst, -⟩
  · cases hs : w.staging.staged (p.join n) with
    | none =>
      rw [hs] at hex
      dsimp only at hex
      rw [hg.pathExists, hk] at hex
      cases hex
    | some s =>
      cases s with
      | present st =>
        rw [hs] at hex
        cases hex
      | removed => exact hrem hs
  · rw [hst] at hex
    cases hex

end View

section Rename

variable {graph : ContentProvider} {root : Posix.Path} {w w' : World} {old new : VfsPath}
  {nd : Posix.Node}

/-- The state after a rename of a file or a directory. -/
structure AfterRename (root : Posix.Path) (w w' : World) (old new : VfsPath) (nd : Posix.Node) :
    Prop where
  staged : ∀ p, w'.staging.staged p = if new = p then some (.present (statOf nd))
    else if old = p then some .removed else w.staging.staged p
  content : ∀ i c, nd = .file i c →
    ∀ graph : ContentProvider, (overlay graph root w').readFile new = .ok c

theorem afterRename (hnode : entryNode root w.host old = some nd) (hkind : nd.isSymlink = false)
    (hx : exec (KinDaemonWriter.rename root old new) w = (.ok (), w')) :
    AfterRename root w w' old new nd := by
  obtain ⟨e, he, hn⟩ : ∃ e, containedEntry w.host root old = .ok e ∧ w.host.node e = some nd := by
    unfold entryNode at hnode
    split at hnode
    · rename_i e he
      exact ⟨e, he, hnode⟩
    · cases hnode
  rw [exec_rename] at hx
  rcases hd : exec (renameDisk root old new) w.host with ⟨err | u, fs⟩
  · rw [hd] at hx
    cases hx
  · rw [hd] at hx
    dsimp only at hx
    cases hst : restat root fs new with
    | error err =>
      rw [hst] at hx
      cases hx
    | ok st =>
      rw [hst] at hx
      cases hx
      obtain ⟨fs₁, e', t, nd', hren⟩ := renamed_of_ok hd
      obtain ⟨rfl, rfl⟩ := hren.source he hn
      obtain ⟨ht, hnt, rfl⟩ := hren.lands (.inl hkind) hst
      have hstaged : ∀ p, (marked (marked { w with host := fs } old .removed) new
          (.present (statOf nd))).staging.staged p =
          if new = p then some (.present (statOf nd))
          else if old = p then some .removed else w.staging.staged p := by
        intro p
        simp only [marked, Staging.staged_mark]
      refine ⟨hstaged, ?_⟩
      rintro i c rfl graph
      -- The file is where the path leads.
      have hfile : fs.shape t = some (.file c) := Posix.Fs.shape_eq_file.mpr ⟨i, hnt⟩
      have htarget : containedTarget fs root new = .ok t :=
        containedTarget_of_entry ht (Posix.Fs.clear_of_shape (by simp [hfile])) (by simp [hfile])
      have hholds : Holds root new t t c (marked (marked { w with host := fs } old .removed) new
          (.present (statOf (.file i c)))) :=
        ⟨htarget, ht, hfile, .inl rfl, _, hnt, by rw [hstaged, if_pos rfl]⟩
      exact hholds.shows.readFile

namespace AfterRename

variable (h : AfterRename root w w' old new nd)

include h

theorem stat_new : (overlay graph root w').stat new = .ok (statOf nd) := by
  rw [overlay_stat, h.staged, if_pos rfl]

theorem exists_new : (overlay graph root w').pathExists new = .ok true := by
  rw [overlay_pathExists, h.staged, if_pos rfl]

/-- The mount answers for every other path as before. -/
theorem stat_other {p : VfsPath} (hn : new ≠ p) (ho : old ≠ p) :
    (overlay graph root w').stat p = (overlay graph root w).stat p := by
  rw [overlay_stat, overlay_stat, h.staged, if_neg hn, if_neg ho]

theorem exists_other {p : VfsPath} (hn : new ≠ p) (ho : old ≠ p) :
    (overlay graph root w').pathExists p = (overlay graph root w).pathExists p := by
  rw [overlay_pathExists, overlay_pathExists, h.staged, if_neg hn, if_neg ho]

/-- The old name is absent, unless it is the new one. -/
theorem gone_old (hne : old ≠ new) :
    (∃ e, (overlay graph root w').stat old = .error e) ∧
      (overlay graph root w').pathExists old = .ok false := by
  rw [overlay_stat, overlay_pathExists, h.staged, if_neg (Ne.symm hne), if_pos rfl]
  exact ⟨⟨_, rfl⟩, rfl⟩

/-- What the new name answers. -/
theorem answer_new {α : Type} (look : VirtualStat → α) (hkind : nd.isSymlink = false) :
    answer look (overlay graph root w') new = some {
      type := (statOf nd).fileType
      stat := look (statOf nd)
      content := match nd with
        | .file _ c => some c
        | _ => none
      target := none
      listing := if nd.isDir then ((overlay graph root w').readDir new).toOption else none } := by
  unfold answer
  rw [h.stat_new]
  cases nd with
  | file i c =>
    simp [fileType_statOf, h.content i c rfl graph, Posix.Node.isDir, Except.toOption]
  | dir i k => simp [fileType_statOf, Posix.Node.isDir]
  | symlink i t => cases hkind

/-- The new name can be listed when the graph lets it. -/
theorem readDir_new (hg : GraphTree graph) :
    (∃ es, (overlay graph root w').readDir new = .ok es) ↔
      graph.kind new = none ∨ graph.kind new = some .directory := by
  constructor
  · rintro ⟨es, hes⟩
    rcases listed_of_readDir hg hes with h0 | ⟨h0, -⟩
    · exact .inr h0
    · exact .inl h0
  · intro hk
    have hd : graph.kind new = some .directory ∨
        (graph.kind new = none ∧ ∃ st, w'.staging.staged new = some (.present st)) := by
      rcases hk with h0 | h0
      · exact .inr ⟨h0, statOf nd, by rw [h.staged, if_pos rfl]⟩
      · exact .inl h0
    have hlist : ∃ es, (overlay graph root w').readDir new = .ok es ∧ _ := overlay_listing hg hd
    obtain ⟨es, hes, -⟩ := hlist
    exact ⟨es, hes⟩

/-- With nothing shown below it, the new name lists the boundaries the graph has there. -/
theorem listing_new (hg : GraphTree graph)
    (hno : ∀ n, new.join n ≠ old → ∃ e, (overlay graph root w).stat (new.join n) = .error e)
    {es : List DirEntry} (hes : (overlay graph root w').readDir new = .ok es) :
    es = [] ↔ ∀ n, graph.kind (new.join n) = some .gitlink →
      w.staging.staged (new.join n) = some .removed ∨ new.join n = old := by
  have hmem := overlay_entries hg hes
  have hself : ∀ n, new ≠ new.join n := fun n => (VfsPath.join_ne_self new n).symm
  rw [List.eq_nil_iff_forall_not_mem]
  constructor
  · intro hnil n hk
    by_contra hcon
    rw [not_or] at hcon
    refine hnil ⟨n, .gitlink⟩ ((hmem n .gitlink).mpr (.inl ⟨hk, ?_⟩))
    rw [h.staged, if_neg (hself n), if_neg (Ne.symm hcon.2)]
    exact hcon.1
  · rintro hlink ⟨n, ty⟩ hin
    rcases (hmem n ty).mp hin with ⟨hk, hrem⟩ | ⟨-, st, hst, -⟩
    · rw [h.staged, if_neg (hself n)] at hrem
      by_cases hold : old = new.join n
      · rw [if_pos hold] at hrem
        exact hrem rfl
      · rw [if_neg hold] at hrem
        obtain ⟨e, he⟩ := hno n (Ne.symm hold)
        rw [overlay_stat] at he
        cases hs : w.staging.staged (new.join n) with
        | some s =>
          rw [hs] at he hrem
          cases s with
          | present st => cases he
          | removed => exact hrem rfl
        | none =>
          -- Without a stat, the graph has a boundary here.
          rw [hs] at he
          dsimp only at he
          have hgit : graph.kind (new.join n) = some .gitlink := by
            unfold ContentProvider.kind at hk ⊢
            rw [he] at hk ⊢
            cases e <;> first | rfl | cases hk
          rcases hlink n hgit with h0 | h0
          · rw [hs] at h0
            cases h0
          · exact hold h0.symm
    · rw [h.staged, if_neg (hself n)] at hst
      by_cases hold : old = new.join n
      · rw [if_pos hold] at hst
        cases hst
      · rw [if_neg hold] at hst
        obtain ⟨e, he⟩ := hno n (Ne.symm hold)
        rw [overlay_stat, hst] at he
        cases he

end AfterRename
end Rename

section Main

variable {α : Type} {look : VirtualStat → α} {graph : ContentProvider} {root : Posix.Path}
  {w w' : World} {old new : VfsPath} {nd : Posix.Node}

theorem Unshadowed.moves (hg : GraphTree graph) (hkind : nd.isSymlink = false)
    (h : AfterRename root w w' old new nd) (hu : Unshadowed look graph root w old new nd) :
    MovesSubtree look (overlay graph root w) (overlay graph root w') old new := by
  obtain ⟨hne, hanc⟩ := hu.apart
  have habsent : ∀ q, q ≠ [] → answer look (overlay graph root w) (old.descend q) = none :=
    fun q hq => answer_eq_none.mpr (stat_error_of_absent hg (hu.belowOld q hq))
  -- Paths strictly below `old` are neither of the two names.
  have hother : ∀ q, q ≠ [] → new ≠ old.descend q ∧ old ≠ old.descend q := by
    intro q hq
    refine ⟨?_, (VfsPath.descend_ne_self hq).symm⟩
    rintro rfl
    rw [VfsPath.isAncestorOf_descend hq] at hanc
    cases hanc
  constructor
  · intro q
    by_cases hq : q = []
    · subst hq
      rw [VfsPath.descend_nil, VfsPath.descend_nil, h.answer_new look hkind]
      obtain ⟨st, hst, hty, hlook⟩ := hu.stat
      unfold answer
      rw [hst]
      simp only [hty, hlook]
      cases nd with
      | symlink i t => cases hkind
      | file i c =>
        simp [fileType_statOf, hu.content i c rfl, Posix.Node.isDir, Except.toOption]
      | dir i k =>
        obtain ⟨hiff, hgit⟩ := hu.listing rfl
        have hlist : ((overlay graph root w').readDir new).toOption =
            ((overlay graph root w).readDir old).toOption := by
          cases hold : (overlay graph root w).readDir old with
          | ok es =>
            have hk := hiff.mp ⟨es, hold⟩
            obtain ⟨es', hes'⟩ := (h.readDir_new hg).mpr hk
            have hnil : es = [] := readDir_eq_nil hg (fun n => hu.belowOld [n] (by simp)) hold
            have hnil' : es' = [] := by
              refine (h.listing_new hg (fun n hn => hu.belowNew [n] (by simp) hn) hes').mpr ?_
              intro n hn
              refine hgit ?_ n hn
              exact hg.parent new n (by simp [hn])
            rw [hes', hnil, hnil']
          | error e =>
            cases hnew : (overlay graph root w').readDir new with
            | error e' => rfl
            | ok es' =>
              obtain ⟨es, hes⟩ := hiff.mpr ((h.readDir_new hg).mp ⟨es', hnew⟩)
              rw [hold] at hes
              cases hes
        simp [fileType_statOf, Posix.Node.isDir, hlist]
    · rw [habsent q hq, answer_eq_none]
      by_cases hold : new.descend q = old
      · rw [hold]
        exact (h.gone_old hne).1
      · rw [h.stat_other (VfsPath.descend_ne_self hq).symm (Ne.symm hold)]
        exact hu.belowNew q hq hold
  · intro q
    by_cases hq : q = []
    · subst hq
      exact h.gone_old hne
    · obtain ⟨hn, ho⟩ := hother q hq
      rw [h.stat_other hn ho, h.exists_other hn ho]
      exact ⟨stat_error_of_absent hg (hu.belowOld q hq), hu.belowOld q hq⟩

theorem MovesSubtree.unshadowed (hg : GraphTree graph) (hkind : nd.isSymlink = false)
    (h : AfterRename root w w' old new nd)
    (hm : MovesSubtree look (overlay graph root w) (overlay graph root w') old new) :
    Unshadowed look graph root w old new nd := by
  -- The new name exists afterwards, so it is not one of the old ones.
  have hnot : ∀ q, old.descend q ≠ new := by
    intro q hq
    have hgone := (hm.gone q).2
    rw [hq, h.exists_new] at hgone
    cases hgone
  have hne : old ≠ new := hnot []
  have hbelow : ∀ q, q ≠ [] → (overlay graph root w).pathExists (old.descend q) = .ok false := by
    intro q hq
    rw [← h.exists_other (Ne.symm (hnot q)) (VfsPath.descend_ne_self hq).symm]
    exact (hm.gone q).2
  have hbelowNew : ∀ q, q ≠ [] → new.descend q ≠ old →
      ∃ e, (overlay graph root w).stat (new.descend q) = .error e := by
    intro q hq hold
    have hnone : answer look (overlay graph root w) (old.descend q) = none :=
      answer_eq_none.mpr (stat_error_of_absent hg (hbelow q hq))
    rw [← hm.arrived q, answer_eq_none] at hnone
    rw [← h.stat_other (VfsPath.descend_ne_self hq).symm (Ne.symm hold)]
    exact hnone
  have harr := hm.arrived []
  rw [VfsPath.descend_nil, VfsPath.descend_nil, h.answer_new look hkind] at harr
  obtain ⟨st, hst, hty, hlook, hcontent, hlisting⟩ : ∃ st,
      (overlay graph root w).stat old = .ok st ∧ st.fileType = (statOf nd).fileType ∧
      look st = look (statOf nd) ∧
      (∀ i c, nd = .file i c → ((overlay graph root w).readFile old).toOption = some c) ∧
      (nd.isDir = true → ((overlay graph root w).readDir old).toOption =
        ((overlay graph root w').readDir new).toOption) := by
    unfold answer at harr
    cases hst : (overlay graph root w).stat old with
    | error e =>
      rw [hst] at harr
      cases harr
    | ok st =>
      rw [hst, Option.some.injEq, Answer.mk.injEq] at harr
      obtain ⟨hty, hlook, hcont, -, hlist⟩ := harr
      refine ⟨st, rfl, hty.symm, hlook.symm, ?_, ?_⟩
      · rintro i c rfl
        rw [← hty, fileType_statOf, if_pos rfl] at hcont
        exact hcont.symm
      · intro hdir
        have htype : (statOf nd).fileType = .directory := by
          cases nd <;> simp_all [fileType_statOf, Posix.Node.isDir]
        rw [if_pos hdir, ← hty, if_pos htype] at hlist
        exact hlist.symm
  refine ⟨⟨hne, ?_⟩, hbelow, hbelowNew, ⟨st, hst, hty, hlook⟩, ?_, ?_⟩
  · rw [Bool.eq_false_iff]
    intro hanc
    obtain ⟨q, -, hq⟩ := VfsPath.exists_descend hanc
    exact hnot q hq.symm
  · intro i c hnd
    have hc := hcontent i c hnd
    cases hr : (overlay graph root w).readFile old with
    | ok c' =>
      rw [hr] at hc
      cases hc
      rfl
    | error e =>
      rw [hr] at hc
      cases hc
  · intro hdir
    have hlist := hlisting hdir
    have hiff : (∃ es, (overlay graph root w).readDir old = .ok es) ↔
        ∃ es, (overlay graph root w').readDir new = .ok es := by
      cases hold : (overlay graph root w).readDir old with
      | ok es =>
        rw [hold] at hlist
        cases hnew : (overlay graph root w').readDir new with
        | ok es' => simp
        | error e =>
          rw [hnew] at hlist
          cases hlist
      | error e =>
        rw [hold] at hlist
        cases hnew : (overlay graph root w').readDir new with
        | ok es' =>
          rw [hnew] at hlist
          cases hlist
        | error e => simp
    refine ⟨hiff.trans (h.readDir_new hg), fun hk => ?_⟩
    obtain ⟨es', hes'⟩ := (h.readDir_new hg).mpr (.inr hk)
    obtain ⟨es, hes⟩ := hiff.mpr ⟨es', hes'⟩
    have hnil : es = [] := readDir_eq_nil hg (fun n => hbelow [n] (by simp)) hes
    rw [hes, hes', hnil] at hlist
    have hnil' : es' = [] := (Option.some.inj hlist).symm
    exact (h.listing_new hg (fun n hn => hbelowNew [n] (by simp) hn) hes').mp hnil'

end Main

/-- **A successful rename of a file or a directory moves the subtree** exactly when nothing was
shown below either name and the source was shown as the working copy has it. -/
theorem moves_subtree_iff {α : Type} (look : VirtualStat → α) {codec : TreeCodec}
    {snapshot : WorkspaceTreeSnapshot} {tree : CachedTree}
    (fetch : Hash256 → Nat → VfsPath → VfsResult Bytes) {root : Posix.Path} {w w' : World}
    {old new : VfsPath} {nd : Posix.Node}
    (htree : CachedTree.fromSnapshot codec snapshot = .ok tree)
    (hnode : entryNode root w.host old = some nd) (hkind : nd.isSymlink = false)
    (hx : exec (KinDaemonWriter.rename root old new) w = (.ok (), w')) :
    MovesSubtree look (overlay (tree.provider fetch) root w) (overlay (tree.provider fetch) root w')
        old new ↔
      Unshadowed look (tree.provider fetch) root w old new nd := by
  have hg : GraphTree (tree.provider fetch) := graphTree_of_accepted (accepted_of_fromSnapshot htree)
  have h := afterRename hnode hkind hx
  exact ⟨fun hm => hm.unshadowed hg hkind h, fun hu => hu.moves hg hkind h⟩

namespace Sample

/-- The path `c`. -/
def c : VfsPath := ⟨[99], rfl⟩

/-- A workspace with the staged directory `a` and, when `deep`, the staged file `a/b`. -/
def stagedIn (deep : Bool) : Option World :=
  Runs.run (callStep []) world
    (if deep then [.createDir a, .createFile ab true] else [.createFile a true])

end Sample

/-- A staged file renamed to a fresh name. -/
theorem moves_subtree_iff_file :
    ∃ w w', Sample.stagedIn false = some w ∧
      exec (KinDaemonWriter.rename [] Sample.a Sample.c) w = (.ok (), w') ∧
      (MovesSubtree id (overlay (Sample.emptyTree.provider Sample.noBlobs) [] w)
          (overlay (Sample.emptyTree.provider Sample.noBlobs) [] w') Sample.a Sample.c ↔
        Unshadowed id (Sample.emptyTree.provider Sample.noBlobs) [] w Sample.a Sample.c
          (.file ⟨0o644, 0⟩ [])) := by
  have hrun : ((Sample.stagedIn false).map fun w => (entryNode [] w.host Sample.a,
      fails (exec (KinDaemonWriter.rename [] Sample.a Sample.c) w).1)) =
        some (some (.file ⟨0o644, 0⟩ []), false) := by decide
  obtain ⟨w, hw, hp⟩ := Option.map_eq_some_iff.mp hrun
  obtain ⟨hnode, hok⟩ := Prod.mk.inj hp
  rcases hx : exec (KinDaemonWriter.rename [] Sample.a Sample.c) w with ⟨e | u, w'⟩
  · rw [hx] at hok
    cases hok
  · exact ⟨w, w', hw, hx, moves_subtree_iff id Sample.noBlobs Sample.emptyTree_ok hnode rfl hx⟩

/-- A staged directory with a staged file is renamed: the file is still shown below the old name,
and not below the new one. -/
theorem renamedDirectory_not_moved :
    ∃ w w', Sample.stagedIn true = some w ∧
      exec (KinDaemonWriter.rename [] Sample.a Sample.c) w = (.ok (), w') ∧
      (overlay (Sample.emptyTree.provider Sample.noBlobs) [] w).pathExists Sample.ab = .ok true ∧
      (overlay (Sample.emptyTree.provider Sample.noBlobs) [] w').pathExists Sample.ab = .ok true ∧
      (overlay (Sample.emptyTree.provider Sample.noBlobs) [] w').pathExists
        (Sample.c.join ⟨[98], rfl⟩) = .ok false ∧
      ¬ MovesSubtree id (overlay (Sample.emptyTree.provider Sample.noBlobs) [] w)
          (overlay (Sample.emptyTree.provider Sample.noBlobs) [] w') Sample.a Sample.c := by
  have hrun : ((Sample.stagedIn true).map fun w =>
      (fails (exec (KinDaemonWriter.rename [] Sample.a Sample.c) w).1,
        (overlay (Sample.emptyTree.provider Sample.noBlobs) [] w).pathExists Sample.ab,
        (overlay (Sample.emptyTree.provider Sample.noBlobs) []
          (exec (KinDaemonWriter.rename [] Sample.a Sample.c) w).2).pathExists Sample.ab,
        (overlay (Sample.emptyTree.provider Sample.noBlobs) []
          (exec (KinDaemonWriter.rename [] Sample.a Sample.c) w).2).pathExists
            (Sample.c.join ⟨[98], rfl⟩))) =
        some (false, .ok true, .ok true, .ok false) := by decide
  obtain ⟨w, hw, hp⟩ := Option.map_eq_some_iff.mp hrun
  obtain ⟨hok, hp⟩ := Prod.mk.inj hp
  obtain ⟨hbefore, hp⟩ := Prod.mk.inj hp
  obtain ⟨hafter, hnew⟩ := Prod.mk.inj hp
  rcases hx : exec (KinDaemonWriter.rename [] Sample.a Sample.c) w with ⟨e | u, w'⟩
  · rw [hx] at hok
    cases hok
  · rw [hx] at hafter hnew
    refine ⟨w, w', hw, hx, hbefore, hafter, hnew, fun hm => ?_⟩
    have hgone := (hm.gone [⟨[98], rfl⟩]).2
    have hpath : Sample.a.descend [⟨[98], rfl⟩] = Sample.ab := rfl
    rw [hpath, hafter] at hgone
    cases hgone

end KinVfs
