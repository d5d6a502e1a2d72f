import KinVfs.Core.TreeLaw
import KinVfs.Daemon.StagingLemmas

/-!
# What the overlay shows

The staged disposition of a path and the graph's answer decide what `stat`, `exists` and `read_dir`
of the mount say. A listing has the graph's children that are not staged as removed, with the
graph's type, and the staged children the graph does not list (`overlay_listing`).
-/

namespace KinVfs
namespace Staging

variable {st : Staging} {d q : VfsPath} {n : VfsName} {e : StagedEntry}
  {acc : List DirEntry × List VfsName}

/-! ## The staged children of a directory -/

/-- The name of `q` in the directory `d`. -/
def childName (d q : VfsPath) : Option VfsName :=
  match d.stripDirPrefix q with
  | none => none
  | some remainder =>
    if remainder.contains slash then none
    else
      match VfsName.fromBytes remainder with
      | .error _ => none
      | .ok name => some name

/-- Only the children of `d` have a name in it. -/
theorem childName_eq_some : childName d q = some n ↔ q = d.join n := by
  unfold childName
  constructor
  · intro h
    split at h
    · cases h
    rename_i r hr
    obtain ⟨cs, hne, hcs, rfl⟩ := VfsPath.stripDirPrefix_eq_some.mp hr
    have hall : ∀ c ∈ cs, IsComponent c := fun c hc =>
      VfsPath.isComponent (p := q) (by rw [hcs]; exact List.mem_append_right _ hc)
    split at h
    · cases h
    rename_i hslash
    split at h
    · cases h
    rename_i m hm
    cases h
    have hlen : ¬ 2 ≤ cs.length := by
      rw [← VfsPath.slash_mem_joinComponents hall hne]
      simpa using hslash
    obtain ⟨c, rfl⟩ : ∃ c, cs = [c] := by
      match cs, hne with
      | [c], _ => exact ⟨c, rfl⟩
      | _ :: _ :: _, _ => simp at hlen
    rw [joinComponents_singleton] at hm
    apply VfsPath.ext_components
    rw [hcs, VfsPath.components_join, VfsName.fromBytes_ok.mp hm]
  · rintro rfl
    have hstrip : d.stripDirPrefix (d.join n) = some n.bytes :=
      VfsPath.stripDirPrefix_eq_some.mpr ⟨[n.bytes], by simp, by simp, by simp⟩
    have hname : VfsName.fromBytes n.bytes = .ok n := VfsName.fromBytes_ok.mpr rfl
    simp only [hstrip, List.contains_iff_mem, n.isComponent.2, ↓reduceIte, hname]

/-- What one entry adds to the listing of `d`. -/
def addedBy (d : VfsPath) (item : VfsPath × StagedEntry) : List DirEntry :=
  match childName d item.1, item.2.staged with
  | some n, .present stat => [⟨n, stat.fileType⟩]
  | _, _ => []

/-- What one entry removes from the listing of `d`. -/
def removedBy (d : VfsPath) (item : VfsPath × StagedEntry) : List VfsName :=
  match childName d item.1, item.2.staged with
  | some n, .removed => [n]
  | _, _ => []

theorem sortChild_eq (acc : List DirEntry × List VfsName) (item : VfsPath × StagedEntry) :
    sortChild d acc item = (acc.1 ++ addedBy d item, acc.2 ++ removedBy d item) := by
  unfold sortChild addedBy removedBy childName
  cases d.stripDirPrefix item.1 with
  | none => simp
  | some remainder =>
    dsimp only
    split
    · simp
    · cases VfsName.fromBytes remainder with
      | error e => simp
      | ok name => cases item.2.staged <;> simp

theorem foldl_sortChild (items : List (VfsPath × StagedEntry))
    (acc : List DirEntry × List VfsName) :
    items.foldl (sortChild d) acc =
      (acc.1 ++ items.flatMap (addedBy d), acc.2 ++ items.flatMap (removedBy d)) := by
  induction items generalizing acc with
  | nil => simp
  | cons item items ih =>
    rw [List.foldl_cons, ih, sortChild_eq]
    simp

theorem mem_addedBy {item : VfsPath × StagedEntry} {ty : FileType} :
    ⟨n, ty⟩ ∈ addedBy d item ↔
      item.1 = d.join n ∧ ∃ stat, item.2.staged = .present stat ∧ stat.fileType = ty := by
  rw [← childName_eq_some]
  unfold addedBy
  cases childName d item.1 with
  | none => simp
  | some m =>
    cases item.2.staged with
    | present stat => simp [eq_comm]
    | removed => simp

theorem mem_removedBy {item : VfsPath × StagedEntry} :
    n ∈ removedBy d item ↔ item.1 = d.join n ∧ item.2.staged = .removed := by
  rw [← childName_eq_some]
  unfold removedBy
  cases childName d item.1 with
  | none => simp
  | some m =>
    cases item.2.staged with
    | present stat => simp
    | removed => simp [eq_comm]

theorem mem_stagedChildren {ty : FileType} :
    ⟨n, ty⟩ ∈ (st.stagedChildren d).1 ↔
      ∃ stat, st.staged (d.join n) = some (.present stat) ∧ stat.fileType = ty := by
  rw [stagedChildren, foldl_sortChild]
  simp only [List.nil_append, List.mem_flatMap, mem_addedBy, staged, Option.map_eq_some_iff]
  constructor
  · rintro ⟨⟨q, e⟩, hmem, rfl, stat, hs, hty⟩
    exact ⟨stat, ⟨e, Std.ExtTreeMap.mem_toList_iff_getElem?_eq_some.mp hmem, hs⟩, hty⟩
  · rintro ⟨stat, ⟨e, he, hs⟩, hty⟩
    exact ⟨(d.join n, e), Std.ExtTreeMap.mem_toList_iff_getElem?_eq_some.mpr he, rfl, stat, hs, hty⟩

theorem mem_removedChildren :
    n ∈ (st.stagedChildren d).2 ↔ st.staged (d.join n) = some .removed := by
  rw [stagedChildren, foldl_sortChild]
  simp only [List.nil_append, List.mem_flatMap, mem_removedBy, staged, Option.map_eq_some_iff]
  constructor
  · rintro ⟨⟨q, e⟩, hmem, rfl, hs⟩
    exact ⟨e, Std.ExtTreeMap.mem_toList_iff_getElem?_eq_some.mp hmem, hs⟩
  · rintro ⟨e, he, hs⟩
    exact ⟨(d.join n, e), Std.ExtTreeMap.mem_toList_iff_getElem?_eq_some.mpr he, rfl, hs⟩

/-- No staged-present child: nothing is added to the listing. -/
theorem stagedChildren_eq_nil :
    (st.stagedChildren d).1 = [] ↔
      ∀ n stat, st.staged (VfsPath.join d n) ≠ some (.present stat) := by
  rw [List.eq_nil_iff_forall_not_mem]
  constructor
  · intro h n stat hs
    exact h ⟨n, stat.fileType⟩ (mem_stagedChildren.mpr ⟨stat, hs, rfl⟩)
  · rintro h ⟨n, ty⟩ hmem
    obtain ⟨stat, hs, -⟩ := mem_stagedChildren.mp hmem
    exact h n stat hs

end Staging

/-! ## The merged listing -/

section Listing

variable {n : VfsName} {ty : FileType}

/-- Pushing the staged children keeps the names apart. -/
theorem nodup_addChildren {entries added : List DirEntry} (h : (entries.map (·.name)).Nodup) :
    ((WriteThroughProvider.addChildren entries added).map (·.name)).Nodup := by
  unfold WriteThroughProvider.addChildren
  induction added generalizing entries with
  | nil => exact h
  | cons a added ih =>
    rw [List.foldl_cons]
    apply ih
    split
    · exact h
    · rename_i hno
      rw [List.map_append, List.nodup_append]
      refine ⟨h, by simp, ?_⟩
      rintro x hx y hy rfl
      rw [List.map_singleton, List.mem_singleton] at hy
      obtain ⟨e, he, hname⟩ := List.mem_map.mp hx
      refine hno (List.any_eq_true.mpr ⟨e, he, ?_⟩)
      simp [hname, hy]

/-- A pushed child is one the listing did not have; `added` has one type for each name. -/
theorem mem_addChildren {entries added : List DirEntry}
    (hfun : ∀ t₁ t₂, ⟨n, t₁⟩ ∈ added → ⟨n, t₂⟩ ∈ added → t₁ = t₂) :
    ⟨n, ty⟩ ∈ WriteThroughProvider.addChildren entries added ↔
      ⟨n, ty⟩ ∈ entries ∨ ((∀ t, ⟨n, t⟩ ∉ entries) ∧ ⟨n, ty⟩ ∈ added) := by
  unfold WriteThroughProvider.addChildren
  induction added generalizing entries with
  | nil => simp
  | cons a added ih =>
    have hfun' : ∀ t₁ t₂, ⟨n, t₁⟩ ∈ added → ⟨n, t₂⟩ ∈ added → t₁ = t₂ := fun t₁ t₂ h₁ h₂ =>
      hfun t₁ t₂ (List.mem_cons_of_mem _ h₁) (List.mem_cons_of_mem _ h₂)
    rw [List.foldl_cons, ih hfun']
    by_cases hany : entries.any (·.name = a.name) = true
    · -- The name is listed already: `a` is dropped.
      rw [if_pos hany, List.mem_cons]
      obtain ⟨x, hx, hname⟩ := List.any_eq_true.mp hany
      constructor
      · rintro (h | ⟨hno, h⟩)
        · exact .inl h
        · exact .inr ⟨hno, .inr h⟩
      · rintro (h | ⟨hno, rfl | h⟩)
        · exact .inl h
        · obtain ⟨m, t⟩ := x
          obtain rfl : m = n := of_decide_eq_true hname
          exact absurd hx (hno t)
        · exact .inr ⟨hno, h⟩
    · rw [if_neg hany, List.mem_cons]
      have hfresh : ∀ t, a = ⟨n, t⟩ → ∀ t', ⟨n, t'⟩ ∉ entries := by
        rintro t rfl t' hmem
        exact hany (List.any_eq_true.mpr ⟨_, hmem, by simp⟩)
      simp only [List.mem_append, List.mem_singleton, not_or]
      constructor
      · rintro ((h | h) | ⟨hno, h⟩)
        · exact .inl h
        · exact .inr ⟨hfresh ty h.symm, .inl h⟩
        · exact .inr ⟨fun t => (hno t).1, .inr h⟩
      · rintro (h | ⟨hno, h | h⟩)
        · exact .inl (.inl h)
        · exact .inl (.inr h)
        · by_cases ha : ∃ t, ⟨n, t⟩ = a
          · obtain ⟨t, rfl⟩ := ha
            have hty := hfun t ty List.mem_cons_self (List.mem_cons_of_mem _ h)
            exact .inl (.inr (by rw [hty]))
          · exact .inr ⟨fun t => ⟨hno t, fun h0 => ha ⟨t, h0⟩⟩, h⟩

variable {graph : ContentProvider} {root : Posix.Path} {w : World} {p d : VfsPath}

theorem overlay_stat :
    (overlay graph root w).stat p =
      match w.staging.staged p with
      | some (.present st) => .ok st
      | some .removed => .error (.notFound p.display)
      | none => graph.stat p := rfl

theorem overlay_pathExists :
    (overlay graph root w).pathExists p =
      match w.staging.staged p with
      | some (.present _) => .ok true
      | some .removed => .ok false
      | none => graph.pathExists p := rfl

theorem overlay_kind :
    (overlay graph root w).kind p =
      match w.staging.staged p with
      | some (.present st) => some st.fileType
      | some .removed => none
      | none => graph.kind p := by
  unfold ContentProvider.kind
  rw [overlay_stat]
  cases w.staging.staged p with
  | none => rfl
  | some s => cases s <;> rfl

/-- **What a directory of the mount lists.** -/
theorem overlay_listing (hg : GraphTree graph)
    (hd : graph.kind d = some .directory ∨
      (graph.kind d = none ∧ ∃ st, w.staging.staged d = some (.present st))) :
    ∃ entries, (overlay graph root w).readDir d = .ok entries ∧
      (entries.map (·.name)).Nodup ∧
      ∀ n ty, ⟨n, ty⟩ ∈ entries ↔
        (graph.kind (d.join n) = some ty ∧ w.staging.staged (d.join n) ≠ some .removed) ∨
          (graph.kind (d.join n) = none ∧
            ∃ st, w.staging.staged (d.join n) = some (.present st) ∧ st.fileType = ty) := by
  -- What is listed before the staged children are merged in.
  obtain ⟨base, hread, hnodup, hbase⟩ : ∃ base : List DirEntry,
      (overlay graph root w).readDir d =
        .ok (WriteThroughProvider.addChildren
          (base.filter fun e => !(w.staging.stagedChildren d).2.contains e.name)
          (w.staging.stagedChildren d).1) ∧
      (base.map (·.name)).Nodup ∧ ∀ n ty, ⟨n, ty⟩ ∈ base ↔ graph.kind (d.join n) = some ty := by
    rcases hd with hd | ⟨hd, st, hst⟩
    · obtain ⟨base, hr, hnd, hmem⟩ := hg.listing d hd
      refine ⟨base, ?_, hnd, hmem⟩
      simp only [overlay, WriteThroughProvider, WriteThroughProvider.readDir,
        KinDaemonWriter.view, hr]
    · obtain ⟨s, hr⟩ := hg.notFound d hd
      refine ⟨[], ?_, by simp, fun n ty => ?_⟩
      · simp only [overlay, WriteThroughProvider, WriteThroughProvider.readDir,
          KinDaemonWriter.view, hr, hst]
      · simp only [List.not_mem_nil, false_iff]
        intro hk
        have := hg.parent d n (by simp [hk])
        rw [hd] at this
        cases this
  refine ⟨_, hread, nodup_addChildren ?_, fun n ty => ?_⟩
  · exact hnodup.sublist (List.filter_sublist.map _)
  · have hfun : ∀ t₁ t₂, ⟨n, t₁⟩ ∈ (w.staging.stagedChildren d).1 →
        ⟨n, t₂⟩ ∈ (w.staging.stagedChildren d).1 → t₁ = t₂ := by
      intro t₁ t₂ h₁ h₂
      obtain ⟨s₁, hs₁, rfl⟩ := Staging.mem_stagedChildren.mp h₁
      obtain ⟨s₂, hs₂, rfl⟩ := Staging.mem_stagedChildren.mp h₂
      rw [hs₁] at hs₂
      cases hs₂
      rfl
    have hkept : ∀ t, ⟨n, t⟩ ∈ base.filter (fun e =>
        !(w.staging.stagedChildren d).2.contains e.name) ↔
          graph.kind (d.join n) = some t ∧ w.staging.staged (d.join n) ≠ some .removed := by
      intro t
      rw [List.mem_filter, hbase]
      simp [Staging.mem_removedChildren]
    rw [mem_addChildren hfun]
    simp only [hkept, Staging.mem_stagedChildren]
    constructor
    · rintro (h | ⟨hno, st, hst, hty⟩)
      · exact .inl h
      · refine .inr ⟨?_, st, hst, hty⟩
        by_contra hk
        obtain ⟨t, ht⟩ := Option.ne_none_iff_exists'.mp hk
        exact hno t ⟨ht, by simp [hst]⟩
    · rintro (h | ⟨hk, st, hst, hty⟩)
      · exact .inl h
      · refine .inr ⟨fun t ht => ?_, st, hst, hty⟩
        rw [hk] at ht
        cases ht.1

/-- Nothing else can be listed. -/
theorem overlay_readDir_error (hg : GraphTree graph)
    (hd : graph.kind d ≠ some .directory)
    (hno : graph.kind d = none → ∀ st, w.staging.staged d ≠ some (.present st)) :
    ∃ e, (overlay graph root w).readDir d = .error e := by
  cases hk : graph.kind d with
  | none =>
    obtain ⟨s, hr⟩ := hg.notFound d hk
    refine ⟨.notFound s, ?_⟩
    have hst := hno hk
    simp only [overlay, WriteThroughProvider, WriteThroughProvider.readDir, KinDaemonWriter.view,
      hr]
    cases hs : w.staging.staged d with
    | none => rfl
    | some x =>
      cases x with
      | present st => exact absurd hs (hst st)
      | removed => rfl
  | some k =>
    obtain ⟨s, hr⟩ := hg.notDirectory d k hk (fun h0 => hd (by rw [hk, h0]))
    refine ⟨.notDirectory s, ?_⟩
    simp only [overlay, WriteThroughProvider, WriteThroughProvider.readDir, KinDaemonWriter.view,
      hr]
    cases hs : w.staging.staged d with
    | none => rfl
    | some x => cases x <;> rfl

end Listing
end KinVfs
