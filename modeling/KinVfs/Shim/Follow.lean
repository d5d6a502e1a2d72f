import Mathlib.Algebra.GroupWithZero.Nat
import KinVfs.Shim.Resolve

/-!
# Following links ends inside the workspace

Whatever the oracle answers, the walk ends after as many turns as the key and the targets have
components, follows at most 40 links, and asks only about the root and paths of valid keys below it.
`Progress` is the invariant of one turn: where the walk stands is the path of a key, what is pending
is a list of components, and each turn has taken one component off what the key and the targets
put there.
-/

namespace KinVfs

open Fallible

variable {σ : Type} {oracle : GraphOracle σ} {roots : List Bytes} {root : Bytes} {key : VfsPath}

/-- The host path of a key below `root`. -/
def hostPath (root : Bytes) (key : VfsPath) : Bytes :=
  if key.isRoot then root else joinAtPath root key.bytes

/-- The root, or the root joined with the bytes of a valid key. -/
def Within (root path : Bytes) : Prop :=
  path = root ∨ ∃ key : VfsPath, path = joinAtPath root key.bytes

/-- How many links were read. -/
def Asked.linkReads (s : Asked σ) : Nat := s.queries.countP Query.isReadLink

/-- The components of the keys that the followed links map to. -/
def Asked.redirected (s : Asked σ) : Nat := (s.redirects.map (·.components.length)).sum

@[simp] theorem Asked.queries_stat (p : Bytes) (s : Asked σ) :
    (s.stat oracle p).queries = s.queries ++ [.stat p] := rfl

@[simp] theorem Asked.queries_readLink (p : Bytes) (s : Asked σ) :
    (s.readLink oracle p).queries = s.queries ++ [.readLink p] := rfl

@[simp] theorem Asked.queries_redirect (k : VfsPath) (s : Asked σ) :
    (s.redirect k).queries = s.queries := rfl

@[simp] theorem Asked.redirects_stat (p : Bytes) (s : Asked σ) :
    (s.stat oracle p).redirects = s.redirects := rfl

@[simp] theorem Asked.redirects_readLink (p : Bytes) (s : Asked σ) :
    (s.readLink oracle p).redirects = s.redirects := rfl

@[simp] theorem Asked.redirects_redirect (k : VfsPath) (s : Asked σ) :
    (s.redirect k).redirects = s.redirects ++ [k] := rfl

@[simp] theorem Asked.linkReads_stat (p : Bytes) (s : Asked σ) :
    (s.stat oracle p).linkReads = s.linkReads := by
  simp [linkReads, Query.isReadLink]

@[simp] theorem Asked.linkReads_readLink (p : Bytes) (s : Asked σ) :
    (s.readLink oracle p).linkReads = s.linkReads + 1 := by
  simp [linkReads, Query.isReadLink]

@[simp] theorem Asked.linkReads_redirect (k : VfsPath) (s : Asked σ) :
    (s.redirect k).linkReads = s.linkReads := rfl

@[simp] theorem Asked.redirected_stat (p : Bytes) (s : Asked σ) :
    (s.stat oracle p).redirected = s.redirected := rfl

@[simp] theorem Asked.redirected_readLink (p : Bytes) (s : Asked σ) :
    (s.readLink oracle p).redirected = s.redirected := rfl

@[simp] theorem Asked.redirected_redirect (k : VfsPath) (s : Asked σ) :
    (s.redirect k).redirected = s.redirected + k.components.length := by
  simp [redirected]

theorem hostPath_within (root : Bytes) (key : VfsPath) : Within root (hostPath root key) := by
  unfold hostPath
  split
  · exact .inl rfl
  · exact .inr ⟨key, rfl⟩

@[simp] theorem hostPath_root (root : Bytes) : hostPath root .root = root := rfl

theorem hostPath_join (root : Bytes) (key : VfsPath) (n : VfsName) :
    hostPath root (key.join n) = joinAtPath root (key.join n).bytes := by
  unfold hostPath
  rw [if_neg (by simp)]

theorem VfsName.head?_ne_slash (n : VfsName) : n.bytes.head? ≠ some slash := by
  intro h
  obtain ⟨b, bs, hb⟩ := List.exists_cons_of_ne_nil (validateComponent_ok.mp n.isComponent.1).1
  rw [hb, List.head?_cons, Option.some.injEq] at h
  exact n.isComponent.2 (by simp [hb, h])

/-- One component further. -/
theorem joinAtPath_hostPath (root : Bytes) (key : VfsPath) (n : VfsName) :
    joinAtPath (hostPath root key) n.bytes = hostPath root (key.join n) := by
  rw [hostPath_join, joinAtPath_key, joinAtPath, if_neg n.head?_ne_slash]
  show _ = root ++ slash :: key.joinBytes n
  unfold hostPath VfsPath.joinBytes
  split
  · rfl
  · rw [joinAtPath_key]
    simp

/-- What holds before each turn, after `n` turns. -/
structure Progress (root : Bytes) (key : VfsPath) (n : Nat) (w : Walk) (s : Asked σ) : Prop where
  place : ∃ here : VfsPath, w.current = hostPath root here
  names : ∀ c ∈ w.pending, IsComponent c
  followed : w.followed ≤ 40
  linkReads : s.linkReads = w.followed
  redirects : s.redirects.length = w.followed
  turns : n + w.pending.length = key.components.length + s.redirected
  queries : s.queries.length = n + w.followed
  within : ∀ q ∈ s.queries, Within root q.path

/-- What holds of the outcome, after `n` turns. -/
structure Bounded (root : Bytes) (key : VfsPath) (n : Nat)
    (r : Except GraphPathError (Bytes × VirtualStat) × Asked σ) : Prop where
  turns : n ≤ key.components.length + r.2.redirected + 1
  links : r.2.linkReads ≤ 40
  redirects : r.2.redirects.length ≤ r.2.linkReads
  queries : r.2.queries.length ≤ key.components.length + (r.2.linkReads + r.2.redirected) + 1
  within : ∀ q ∈ r.2.queries, Within root q.path
  returned : ∀ path stat, r.1 = .ok (path, stat) → Within root path

theorem progress_init (s : σ) : Progress root key 0 ⟨key.components, root, 0⟩ (Asked.init s) where
  place := ⟨.root, rfl⟩
  names := fun _ hc => key.isComponent hc
  followed := Nat.zero_le _
  linkReads := rfl
  redirects := rfl
  turns := by simp [Asked.redirected, Asked.init]
  queries := rfl
  within := by simp [Asked.init]

section Turn

variable {n followed : Nat} {component current : Bytes} {pending : List Bytes} {s : Asked σ}

/-- The candidate of a turn is the path of a key. -/
theorem Progress.candidate (h : Progress root key n ⟨component :: pending, current, followed⟩ s) :
    ∃ here : VfsPath, joinAtPath current component = hostPath root here := by
  obtain ⟨here, hhere⟩ := h.place
  have hc : IsComponent component := h.names component (by simp)
  refine ⟨here.join ⟨component, checkName_ok.mpr hc⟩, ?_⟩
  rw [← joinAtPath_hostPath, ← hhere]

theorem Progress.stat_within (h : Progress root key n ⟨component :: pending, current, followed⟩ s) :
    Within root (joinAtPath current component) := by
  obtain ⟨here, hhere⟩ := h.candidate
  rw [hhere]
  exact hostPath_within root here

/-- The walk ends in a turn that asks `extra`. -/
theorem Progress.bounded (h : Progress root key n ⟨component :: pending, current, followed⟩ s)
    {s' : Asked σ} {r : Except GraphPathError (Bytes × VirtualStat)} {extra : List Query}
    (hq : s'.queries = s.queries ++ extra)
    (hlen : extra.length ≤ extra.countP Query.isReadLink + 2)
    (hlinks : followed + extra.countP Query.isReadLink ≤ 40)
    (hredirects : s'.redirects.length ≤ s.redirects.length + extra.countP Query.isReadLink)
    (hredirected : s.redirected ≤ s'.redirected) (hw : ∀ q ∈ extra, Within root q.path)
    (hr : ∀ path stat, r = .ok (path, stat) → Within root path) :
    Bounded root key (n + 1) (r, s') := by
  have hturns : n + (pending.length + 1) = key.components.length + s.redirected := h.turns
  have hqueries : s.queries.length = n + followed := h.queries
  have hreads : s.linkReads = followed := h.linkReads
  have hreads' : s'.linkReads = followed + extra.countP Query.isReadLink := by
    rw [← hreads, Asked.linkReads, hq, List.countP_append]
    rfl
  have hred : s.redirects.length = followed := h.redirects
  constructor
  · show n + 1 ≤ key.components.length + s'.redirected + 1
    omega
  · show s'.linkReads ≤ 40
    omega
  · show s'.redirects.length ≤ s'.linkReads
    omega
  · show s'.queries.length ≤ key.components.length + (s'.linkReads + s'.redirected) + 1
    rw [hq, List.length_append]
    omega
  · show ∀ q ∈ s'.queries, Within root q.path
    rw [hq]
    intro q hmem
    rcases List.mem_append.mp hmem with hmem | hmem
    · exact h.within q hmem
    · exact hw q hmem
  · exact hr

/-- The walk ends after the stat of a turn. -/
theorem Progress.bounded_stat (h : Progress root key n ⟨component :: pending, current, followed⟩ s)
    {r : Except GraphPathError (Bytes × VirtualStat)}
    (hr : ∀ path stat, r = .ok (path, stat) → Within root path) :
    Bounded root key (n + 1) (r, s.stat oracle (joinAtPath current component)) := by
  have hq : (s.stat oracle (joinAtPath current component)).queries =
      s.queries ++ [.stat (joinAtPath current component)] := rfl
  refine h.bounded hq ?_ ?_ ?_ ?_ ?_ hr
  · simp [Query.isReadLink]
  · simpa [Query.isReadLink] using h.followed
  · simp
  · simp
  · simpa [Query.path] using h.stat_within

/-- The walk ends after the read of a link. -/
theorem Progress.bounded_readLink
    (h : Progress root key n ⟨component :: pending, current, followed⟩ s) (hf : followed + 1 ≤ 40)
    (e : GraphPathError) :
    Bounded root key (n + 1) (.error e, (s.stat oracle (joinAtPath current component)).readLink oracle
      (joinAtPath current component)) := by
  have hq : ((s.stat oracle (joinAtPath current component)).readLink oracle
      (joinAtPath current component)).queries = s.queries ++
        [.stat (joinAtPath current component), .readLink (joinAtPath current component)] := by
    simp
  refine h.bounded hq ?_ ?_ ?_ ?_ ?_ ?_
  · simp [Query.isReadLink]
  · simpa [Query.isReadLink] using hf
  · simp
  · simp
  · simpa [Query.path] using h.stat_within
  · intro path stat hok
    cases hok

/-- The walk ends at a link to the root. -/
theorem Progress.bounded_root
    (h : Progress root key n ⟨component :: pending, current, followed⟩ s) (hf : followed + 1 ≤ 40)
    {target : VfsPath} {r : Except GraphPathError (Bytes × VirtualStat)}
    (hr : ∀ path stat, r = .ok (path, stat) → Within root path) :
    Bounded root key (n + 1) (r, (((s.stat oracle (joinAtPath current component)).readLink oracle
      (joinAtPath current component)).redirect target).stat oracle root) := by
  have hq : ((((s.stat oracle (joinAtPath current component)).readLink oracle
      (joinAtPath current component)).redirect target).stat oracle root).queries = s.queries ++
        [.stat (joinAtPath current component), .readLink (joinAtPath current component),
          .stat root] := by
    simp
  refine h.bounded hq ?_ ?_ ?_ ?_ ?_ hr
  · simp [Query.isReadLink]
  · simpa [Query.isReadLink, List.countP_cons] using hf
  · simp [Query.isReadLink]
  · simp
  · simpa [Query.path] using ⟨h.stat_within, .inl rfl⟩

/-- A component is behind. -/
theorem Progress.step (h : Progress root key n ⟨component :: pending, current, followed⟩ s) :
    Progress root key (n + 1) ⟨pending, joinAtPath current component, followed⟩
      (s.stat oracle (joinAtPath current component)) where
  place := h.candidate
  names := fun c hc => h.names c (List.mem_cons_of_mem _ hc)
  followed := h.followed
  linkReads := by simpa using h.linkReads
  redirects := h.redirects
  turns := by
    have := h.turns
    simp only [List.length_cons, Asked.redirected_stat] at this ⊢
    omega
  queries := by
    have := h.queries
    simp only [Asked.queries_stat, List.length_append, List.length_singleton] at this ⊢
    omega
  within := by
    simpa [Query.path, or_imp, forall_and] using ⟨h.within, h.stat_within⟩

/-- A link is behind: the components of its target stand in its place. -/
theorem Progress.redirect (h : Progress root key n ⟨component :: pending, current, followed⟩ s)
    (hf : followed + 1 ≤ 40) (target : VfsPath) :
    Progress root key (n + 1) ⟨target.components ++ pending, root, followed + 1⟩
      (((s.stat oracle (joinAtPath current component)).readLink oracle
        (joinAtPath current component)).redirect target) where
  place := ⟨.root, rfl⟩
  names := by
    intro c hc
    rcases List.mem_append.mp hc with hc | hc
    · exact target.isComponent hc
    · exact h.names c (List.mem_cons_of_mem _ hc)
  followed := hf
  linkReads := by simpa using h.linkReads
  redirects := by simpa using h.redirects
  turns := by
    have := h.turns
    simp only [List.length_cons, List.length_append, Asked.redirected_redirect,
      Asked.redirected_readLink, Asked.redirected_stat] at this ⊢
    omega
  queries := by
    have := h.queries
    simp only [Asked.queries_redirect, Asked.queries_readLink, Asked.queries_stat,
      List.length_append, List.length_singleton] at this ⊢
    omega
  within := by
    have := h.stat_within
    simpa [Query.path, or_imp, forall_and, this] using h.within

/-- One turn goes on with the invariant, or it ends the walk within its bounds. -/
theorem Progress.turn {w : Walk} (h : Progress root key n w s) :
    Turn.Meets (Progress root key (n + 1)) (Bounded root key (n + 1))
      (exec (followTurn oracle roots root w) s) := by
  obtain ⟨pending, current, followed⟩ := w
  cases pending with
  | nil =>
    have hturns : n + 0 = key.components.length + s.redirected := h.turns
    have hqueries : s.queries.length = n + followed := h.queries
    have hreads : s.linkReads = followed := h.linkReads
    have hfollowed : followed ≤ 40 := h.followed
    rw [exec_followTurn_nil]
    refine ⟨by dsimp only; omega, by dsimp only; omega, ?_, by dsimp only; omega, h.within, ?_⟩
    · exact (h.redirects.trans h.linkReads.symm).le
    · intro path stat hok
      cases hok
  | cons component pending =>
    rw [exec_followTurn_cons]
    split
    · exact h.bounded_stat nofun
    · exact h.bounded_stat nofun
    · rename_i stat _ _
      split
      · rw [exec_followLink]
        split
        · exact h.bounded_stat nofun
        · rename_i hf
          rw [Nat.not_lt] at hf
          split
          · exact h.bounded_readLink hf _
          · split
            · exact h.bounded_readLink hf _
            · rename_i target _
              split
              · split
                · refine h.bounded_root hf ?_
                  rintro path st hok
                  cases hok
                  exact .inl rfl
                · exact h.bounded_root hf nofun
              · exact h.redirect hf target
      · split
        · exact h.bounded_stat nofun
        · split
          · refine h.bounded_stat ?_
            rintro path st hok
            cases hok
            exact h.stat_within
          · exact h.step

end Turn

/-- Whatever the oracle answers, the walk ends: it follows at most 40 links, asks one question for
each component of the key, for each followed link and each component of the key its target maps to,
and one more about the root, and it asks about and returns only paths of the workspace. -/
theorem follow_ends_within (oracle : GraphOracle σ) (roots : List Bytes) (root : Bytes)
    (key : VfsPath) (s : σ) :
    ∃ turns, Runs (followTurn oracle roots root) turns ⟨key.components, root, 0⟩ (Asked.init s)
        (exec (followSymlinkedPath oracle roots root key) (Asked.init s)) ∧
      Bounded root key turns (exec (followSymlinkedPath oracle roots root key) (Asked.init s)) := by
  obtain ⟨turns, hruns⟩ : ∃ turns, Runs (followTurn oracle roots root) turns
      ⟨key.components, root, 0⟩ (Asked.init s)
      (exec (followSymlinkedPath oracle roots root key) (Asked.init s)) := loop_runs _ _
  have hbound := hruns.rule (fun n w s h => Progress.turn h) (progress_init s)
  rw [Nat.zero_add] at hbound
  exact ⟨turns, hruns, hbound⟩

end KinVfs
