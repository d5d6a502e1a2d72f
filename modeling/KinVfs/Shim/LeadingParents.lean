import KinVfs.Posix.Search
import KinVfs.Shim.Traversal

/-!
# Leading parents (`resolve_host_path_from_with` of `crates/kin-vfs-shim/src/intercept.rs`)

A relative path may begin with `..`s, which are taken in the base directory and above it. These are directories, not
links, so the path is the same without its `..`s and `.`s: the kernel reaches the same object, or ends at the same
component (`leading_parents_exact`). Nothing is asked about the workspace.
-/

namespace KinVfs

open Posix (Fs names)
open Posix.Fs (Comp climb targetComps search Drops maxLinks)

/-- An absolute path of an existing directory, without `.`, `..` and links. -/
structure BaseDir (fs : Fs) (base : Bytes) : Prop where
  absolute : base.head? = some slash
  plain : [dot] ∉ base.splitOn slash ∧ [dot, dot] ∉ base.splitOn slash
  dir : fs.isDir (names (targetComps base)) = true

/-- A relative path with `..`s, all of them before its first name. It does not end with a `/` or a `.`. -/
structure HasLeadingParents (path : Bytes) : Prop where
  relative : path.head? ≠ some slash
  parent : [dot, dot] ∈ path.splitOn slash
  leading : ∀ xs ys, path.splitOn slash = xs ++ [dot, dot] :: ys → ∀ c ∈ xs, c = [] ∨ c = [dot] ∨ c = [dot, dot]
  last : ∀ c, (path.splitOn slash).getLast? = some c → c ≠ [] ∧ c ≠ [dot]

/-! ## Components -/

section Comps

variable {cur : Posix.Path} {comps : List Comp} {t : Bytes}

theorem climb_level (h : Posix.Level comps) : climb cur comps = cur ++ names comps := by
  induction comps generalizing cur with
  | nil => exact (List.append_nil cur).symm
  | cons c comps ih =>
    cases c with
    | cur => exact ih h.tail
    | up => exact absurd List.mem_cons_self h
    | name n =>
      rw [climb, ih h.tail, Posix.names_name, List.append_assoc]
      rfl

/-- The names of a spelled path. -/
theorem plain_of_mem_names {c : Bytes} (h : c ∈ names (targetComps t)) :
    (c ≠ [] ∧ c ≠ [dot] ∧ c ≠ [dot, dot]) ∧ slash ∉ c := by
  obtain ⟨b, hb, heq⟩ := List.mem_map.mp (Posix.mem_names.mp h)
  split at heq
  · cases heq
  · rename_i hcur
    split at heq
    · cases heq
    · rename_i hup
      cases heq
      exact ⟨⟨fun h0 => hcur (.inl h0), fun h1 => hcur (.inr h1), hup⟩, slash_not_mem_splitOn hb⟩

/-- The names that are left when the `.`s are dropped. -/
theorem drops_names (h : Posix.Level comps) (hlast : comps = [] ∨ ∃ n, comps.getLast? = some (.name n)) :
    Drops comps ((names comps).map .name) := by
  induction comps with
  | nil => exact .nil
  | cons c rest ih =>
    have hrest : rest = [] ∨ ∃ n, rest.getLast? = some (.name n) := by
      rcases hlast with hnil | ⟨n, hn⟩
      · cases hnil
      · cases rest with
        | nil => exact .inl rfl
        | cons d ds =>
          rw [List.getLast?_cons_cons] at hn
          exact .inr ⟨n, hn⟩
    have hdrops := ih h.tail hrest
    cases c with
    | up => exact absurd List.mem_cons_self h
    | name n => exact .cons _ hdrops
    | cur =>
      refine .drop ?_ hdrops
      rintro hnil
      have hempty := hdrops.nil_iff.mpr hnil
      subst hempty
      rcases hlast with hnil | ⟨n, hn⟩
      · cases hnil
      · cases hn

/-- Where the first name stands. -/
theorem split_leading (hlead : ∀ xs ys, comps = xs ++ .up :: ys → ∀ n, .name n ∉ xs)
    (hlast : comps.getLast? ≠ some .cur) :
    ∃ pre post, comps = pre ++ post ∧ (∀ n, .name n ∉ pre) ∧ Posix.Level post ∧
      (post = [] ∨ ∃ n, post.getLast? = some (.name n)) := by
  induction comps with
  | nil => exact ⟨[], [], rfl, by simp, by simp [Posix.Level], .inl rfl⟩
  | cons c rest ih =>
    by_cases hname : ∃ n, c = .name n
    · obtain ⟨n, rfl⟩ := hname
      have hlevel : Posix.Level (.name n :: rest) := by
        intro hup
        obtain ⟨xs, ys, hsplit⟩ := List.append_of_mem hup
        cases xs with
        | nil => cases hsplit
        | cons x xs =>
          obtain ⟨rfl, -⟩ := List.cons.inj hsplit
          exact hlead _ _ hsplit n List.mem_cons_self
      refine ⟨[], _, rfl, by simp, hlevel, .inr ?_⟩
      rcases hl : (Comp.name n :: rest).getLast? with _ | d
      · cases List.getLast?_eq_none_iff.mp hl
      · cases d with
        | cur => exact absurd hl hlast
        | up => exact absurd (List.mem_of_getLast? hl) hlevel
        | name m => exact ⟨m, rfl⟩
    · obtain ⟨pre, post, rfl, hpre, hpost⟩ := ih
        (fun xs ys hsplit n hn => hlead (c :: xs) ys (congrArg (c :: ·) hsplit) n (List.mem_cons_of_mem _ hn))
        (fun hl => hlast (by
          cases rest with
          | nil => cases hl
          | cons d ds => rw [List.getLast?_cons_cons, hl]))
      refine ⟨c :: pre, post, rfl, fun n hn => ?_, hpost⟩
      rcases List.mem_cons.mp hn with heq | hn
      · exact hname ⟨n, heq.symm⟩
      · exact hpre n hn

end Comps

/-! ## The path -/

section Path

variable {path : Bytes}

/-- The loop over the components passes. -/
theorem parentsAreLeading_true {cs : List Bytes}
    (h : ∀ xs ys, cs = xs ++ [dot, dot] :: ys → ∀ c ∈ xs, c = [] ∨ c = [dot] ∨ c = [dot, dot]) {saw : Bool}
    (hsaw : saw = true → [dot, dot] ∉ cs) : parentsAreLeading saw cs = true := by
  induction cs generalizing saw with
  | nil => rfl
  | cons c cs ih =>
    have hrest : ∀ xs ys, cs = xs ++ [dot, dot] :: ys → ∀ c ∈ xs, c = [] ∨ c = [dot] ∨ c = [dot, dot] :=
      fun xs ys hsplit d hd => h (c :: xs) ys (congrArg (c :: ·) hsplit) d (List.mem_cons_of_mem _ hd)
    have hsaw' : saw = true → [dot, dot] ∉ cs := fun hs hm => hsaw hs (List.mem_cons_of_mem _ hm)
    rw [parentsAreLeading]
    by_cases hcur : c = [] ∨ c = [dot]
    · rw [if_pos hcur]
      exact ih hrest hsaw'
    · rw [if_neg hcur]
      by_cases hup : c = [dot, dot]
      · subst hup
        rw [if_pos rfl]
        have hfalse : saw = false := by
          cases saw with
          | false => rfl
          | true => exact absurd List.mem_cons_self (hsaw rfl)
        rw [hfalse]
        exact ih hrest (fun hs => nomatch hs)
      · rw [if_neg hup]
        refine ih hrest fun _ hm => ?_
        obtain ⟨xs, ys, hsplit⟩ := List.append_of_mem hm
        rcases h (c :: xs) ys (congrArg (c :: ·) hsplit) c List.mem_cons_self with h0 | h1 | h2
        · exact hcur (.inl h0)
        · exact hcur (.inr h1)
        · exact hup h2

theorem HasLeadingParents.leadingOnly (h : HasLeadingParents path) : leadingOnly path = true := by
  unfold KinVfs.leadingOnly
  have hlead : parentsAreLeading false (path.splitOn slash) = true :=
    parentsAreLeading_true h.leading (fun hs => nomatch hs)
  simp [h.relative, hlead]

/-- The components of the path: `.`s and `..`s, then names with `.`s between them. -/
theorem HasLeadingParents.split (h : HasLeadingParents path) :
    ∃ pre post, targetComps path = pre ++ post ∧ (∀ n, .name n ∉ pre) ∧ Posix.Level post ∧
      (post = [] ∨ ∃ n, post.getLast? = some (.name n)) := by
  refine split_leading (fun xs ys hsplit n hn => ?_) (fun hl => ?_)
  · obtain ⟨bs, cs, hbs, hxs, hys⟩ := List.map_eq_append_iff.mp hsplit
    obtain ⟨c, cs, rfl, hup, -⟩ := List.map_eq_cons_iff.mp hys
    have hc : c = [dot, dot] := by
      split at hup
      · cases hup
      · split at hup
        · assumption
        · cases hup
    subst hc
    rw [← hxs] at hn
    obtain ⟨b, hb, hname⟩ := List.mem_map.mp hn
    rcases h.leading bs cs hbs b hb with rfl | rfl | rfl <;> cases hname
  · rw [targetComps, List.getLast?_map] at hl
    obtain ⟨c, hc, hcur⟩ := Option.map_eq_some_iff.mp hl
    obtain ⟨h0, h1⟩ := h.last c hc
    have hnot : ¬ (c = [] ∨ c = [46]) := not_or.mpr ⟨h0, h1⟩
    rw [if_neg hnot] at hcur
    split at hcur <;> cases hcur

end Path

/-! ## The answer -/

section Exact

variable {fs : Fs} {base path : Bytes}

theorem BaseDir.level (h : BaseDir fs base) : Posix.Level (targetComps base) := by
  intro hup
  exact h.plain.2 (up_mem_targetComps.mp hup)

/-- The kernel finds the base at its names. -/
theorem BaseDir.walk (h : BaseDir fs base) :
    Fs.walk fs maxLinks [] (targetComps base) = .ok (names (targetComps base)) := by
  rw [← Fs.search_walk, Fs.search_level h.level h.dir]
  rfl

theorem splitOn_pathBytes {p : Posix.Path} (hslash : ∀ c ∈ p, slash ∉ c) {c : Bytes}
    (hc : c ∈ (pathBytes p).splitOn slash) : c = [] ∨ c ∈ p := by
  unfold pathBytes at hc
  by_cases hp : p = []
  · rw [if_pos hp] at hc
    have hroot : [slash].splitOn slash = [[], []] := by decide
    rw [hroot] at hc
    simp at hc
    exact .inl hc
  · rw [if_neg hp, splitOn_flatMap hp hslash] at hc
    exact List.mem_cons.mp hc

/-- What is resolved: the base and the path, folded. -/
theorem resolve_leading (hb : BaseDir fs base) (hp : HasLeadingParents path) (inWorkspace : Bytes → Bool) :
    resolveHostPathFromWith fs path (some base) inWorkspace =
      .resolved (pathBytes (climb (names (targetComps base)) (targetComps path))) := by
  have hjoin : joinAtPath base path = base ++ slash :: path := if_neg hp.relative
  have hjoined : joinedPath path (some base) = some (base ++ slash :: path) := by
    unfold joinedPath
    rw [if_neg hp.relative, Option.map_some, hjoin]
  have habs : (base ++ slash :: path).head? = some slash := by
    cases base with
    | nil => cases hb.absolute
    | cons b bs => exact hb.absolute
  have hup : ((base ++ slash :: path).splitOn slash).contains [dot, dot] = true := by
    rw [List.splitOn_append_cons_self]
    simp [hp.parent]
  unfold resolveHostPathFromWith
  rw [hjoined]
  dsimp only
  rw [hup, hp.leadingOnly, normalizeKernelPath_eq habs, targetComps_append, climb_append, climb_level hb.level,
    List.nil_append]
  rfl

end Exact

/-- **Leading parents are folded exactly**: whatever the workspace is, the answer is one path without `.` and `..`
for which the kernel finds what it finds for the original path in the base directory: the same object, or the same
component at which it ends. It does so whether a link at the end is followed or not. -/
theorem leading_parents_exact (fs : Fs) (base path : Bytes) (hb : BaseDir fs base) (hp : HasLeadingParents path) :
    ∃ dir resolved, Fs.walk fs maxLinks [] (targetComps base) = .ok dir ∧
      (∀ inWorkspace, resolveHostPathFromWith fs path (some base) inWorkspace = .resolved resolved) ∧
      (∀ c ∈ resolved.splitOn slash, c ≠ [dot] ∧ c ≠ [dot, dot]) ∧
      ∀ follow, search fs follow maxLinks [] (targetComps resolved) =
        search fs follow maxLinks dir (targetComps path) := by
  have hplain : ∀ c ∈ climb (names (targetComps base)) (targetComps path),
      (c ≠ [] ∧ c ≠ [dot] ∧ c ≠ [dot, dot]) ∧ slash ∉ c := by
    intro c hc
    rcases mem_climb hc with hc | hc
    · exact plain_of_mem_names hc
    · exact plain_of_mem_names hc
  refine ⟨_, _, hb.walk, resolve_leading hb hp, fun c hc => ?_, fun follow => ?_⟩
  · rcases splitOn_pathBytes (fun c hc => (hplain c hc).2) hc with rfl | hmem
    · decide
    · exact (hplain c hmem).1.2
  · rw [targetComps_pathBytes_plain (fun c hc => (hplain c hc).1) fun c hc => (hplain c hc).2]
    obtain ⟨pre, post, hsplit, hpre, hlevel, hlast⟩ := hp.split
    rw [hsplit]
    obtain ⟨hclimb, hdir⟩ := Fs.search_climb follow maxLinks post hpre hb.dir
    rw [hclimb, climb_append, climb_level hlevel]
    -- The place where the first name is looked up.
    generalize climb (names (targetComps base)) pre = e at hdir ⊢
    rw [Fs.search_drops (drops_names hlevel hlast)]
    by_cases hpost : names post = []
    · rw [hpost, List.append_nil, List.map_nil, Fs.search_nil]
      by_cases he : e = []
      · subst he
        rw [if_pos rfl, Fs.search_cur hdir, Fs.search_cur hdir, Fs.search_nil]
      · rw [if_neg he, Fs.search_cur fs.rootDir, Fs.search_dir hdir]
        rfl
    · rw [if_neg fun hnil => hpost (List.append_eq_nil_iff.mp hnil).2, Fs.search_cur fs.rootDir, List.map_append,
        Fs.search_down (fun hnil => hpost (List.map_eq_nil_iff.mp hnil)) hdir]
      rfl

namespace Sample

/-- `../l`. -/
def upToLink : Bytes := [46, 46, 47, 108]

theorem baseDir_oa : BaseDir outside [47, 111, 47, 97] := ⟨rfl, by decide, by decide⟩

theorem hasLeadingParents_upToLink : HasLeadingParents upToLink := by
  have hsplit : upToLink.splitOn slash = [[dot, dot], [108]] := by decide
  refine ⟨by decide, by decide, fun xs ys h => ?_, fun c hc => ?_⟩
  · rw [hsplit] at h
    rcases xs with _ | ⟨x, _ | ⟨x', xs⟩⟩
    · simp
    · simp [dot] at h
    · simp at h
  · rw [hsplit] at hc
    obtain rfl := Option.some.inj hc
    decide

end Sample

/-- From `/o/a` the path `../l` is `/o/l`, and leads through that link. -/
theorem leading_parents_exact_link :
    resolveHostPathFromWith Sample.outside Sample.upToLink (some [47, 111, 47, 97]) (fun _ => true) =
        .resolved [47, 111, 47, 108] ∧
      search Sample.outside true maxLinks [] (targetComps [47, 111, 47, 108]) = .ok [[119], [102]] := by
  obtain ⟨dir, resolved, hdir, hres, -, hsame⟩ := leading_parents_exact Sample.outside [47, 111, 47, 97]
    Sample.upToLink Sample.baseDir_oa Sample.hasLeadingParents_upToLink
  have hanswer : resolveHostPathFromWith Sample.outside Sample.upToLink (some [47, 111, 47, 97]) (fun _ => true) =
      .resolved [47, 111, 47, 108] := by decide +kernel
  have hq := hres fun _ => true
  rw [hanswer] at hq
  cases hq
  have hd : Fs.walk Sample.outside maxLinks [] (targetComps [47, 111, 47, 97]) = .ok [[111], [97]] := by decide
  rw [hd] at hdir
  cases hdir
  refine ⟨hanswer, ?_⟩
  rw [hsame]
  decide

end KinVfs
