import KinVfs.Daemon.Presence

/-!
# What a rename leaves

The destination's parents are made, the source entry is resolved in the tree that has them, and the
host moves it (`Renamed`). After a successful call the destination's path leads to the moved entry
(`Renamed.lands`), with one exception: a link moved over a link that the destination's own path
leads through.
-/

namespace KinVfs

open Posix (Fs Grown)
open Fallible KinDaemonWriter

/-- A successful disk part: `fs₁` has the parents of the destination `t`, and the node `nd` of the
source entry `e` is moved in it. -/
structure Renamed (root : Posix.Path) (old new : VfsPath) (fs fs₁ fs₂ : Fs) (e t : Posix.Path)
    (nd : Posix.Node) : Prop where
  dst : containedEntry fs root new = .ok t
  grown : Grown fs fs₁ t.dropLast
  dir : fs₁.shape t.dropLast = some .dir
  frame : ∀ r, ¬ (r <+: t ∧ r ≠ t) → fs₁.node r = fs.node r
  src : containedEntry fs₁ root old = .ok e
  node : fs₁.node e = some nd
  moved : (e = t ∧ fs₂ = fs₁) ∨ (e ≠ [] ∧ t ≠ [] ∧ e.isPrefixOf t = false ∧
    Posix.replaceable fs₁ nd t = .ok () ∧ fs₂ = fs₁.moveEntry e t)

variable {fs fs₁ fs₂ : Fs} {root e t : Posix.Path} {old new : VfsPath} {nd : Posix.Node}

theorem renamed_of_ok (h : exec (renameDisk root old new) fs = (.ok (), fs₂)) :
    ∃ fs₁ e t nd, Renamed root old new fs fs₁ fs₂ e t nd := by
  cases ht : containedEntry fs root new with
  | error err =>
    simp [renameDisk, exec_bind, entryPath, ht] at h
  | ok t =>
    rcases createParent_entry ht with ⟨fs₁, hx, hg, hd, hf⟩ | hx
    · cases he : containedEntry fs₁ root old with
      | error err => simp [renameDisk, exec_bind, entryPath, ht, hx, he] at h
      | ok e =>
        have hmove : exec (Posix.rename e t) fs₁ = (.ok (), fs₂) := by
          rcases hm : exec (Posix.rename e t) fs₁ with ⟨k | u, fs'⟩
          · simp [renameDisk, exec_bind, entryPath, ht, hx, he, hm] at h
          · simp only [renameDisk, exec_bind, entryPath, ht, hx, he, hm, exec_ofExcept,
              exec_io, Prod.mk.injEq, true_and] at h
            rw [h]
        rcases entry_cases he with hc | ⟨d, m, c, rfl, hblock⟩
        · rw [Posix.rename_eq hc hd] at hmove
          cases hn : fs₁.node e with
          | none =>
            rw [hn] at hmove
            cases hmove
          | some nd =>
            rw [hn] at hmove
            dsimp only at hmove
            refine ⟨fs₁, e, t, nd, ht, hg, hd, hf, he, hn, ?_⟩
            split at hmove
            · rename_i heq
              cases hmove
              exact .inl ⟨heq, rfl⟩
            · split at hmove
              · cases hmove
              · rename_i hne
                rw [not_or] at hne
                split at hmove
                · cases hmove
                · rename_i hpre
                  split at hmove
                  · rename_i hrep
                    cases hmove
                    exact .inr ⟨hne.1, hne.2, Bool.eq_false_iff.mpr hpre, hrep, rfl⟩
                  · cases hmove
        · rw [rename_blocked hblock] at hmove
          cases hmove
    · simp [renameDisk, exec_bind, entryPath, ht, hx] at h

namespace Renamed

/-- Making the parents did not touch the source. -/
theorem source (h : Renamed root old new fs fs₁ fs₂ e t nd) {e₀ : Posix.Path} {nd₀ : Posix.Node}
    (he : containedEntry fs root old = .ok e₀) (hn : fs.node e₀ = some nd₀) : e₀ = e ∧ nd₀ = nd := by
  have he₁ := grown_entry h.grown he
  rw [h.src] at he₁
  cases he₁
  refine ⟨rfl, ?_⟩
  have hframe : fs₁.node e = fs.node e := by
    apply h.frame
    rintro ⟨hpre, hne⟩
    rcases h.moved with ⟨heq, -⟩ | ⟨-, -, hno, -⟩
    · exact hne heq
    · rw [List.isPrefixOf_iff_prefix.mpr hpre] at hno
      cases hno
  have hnode := h.node
  rw [hframe, hn] at hnode
  exact Option.some.inj hnode

/-- Nothing is moved onto a directory it is in. -/
theorem not_below (h : Renamed root old new fs fs₁ fs₂ e t nd)
    (hrep : Posix.replaceable fs₁ nd t = .ok ()) (hne : e.isPrefixOf t = false) : ¬ t <+: e := by
  rintro ⟨s, rfl⟩
  by_cases hs : s = []
  · subst hs
    rw [List.append_nil, List.isPrefixOf_iff_prefix.mpr List.prefix_rfl] at hne
    cases hne
  · have hn := h.node
    rw [Posix.node_below_replaceable hrep hs] at hn
    cases hn

/-- The root is not replaced. -/
theorem not_root (h : Renamed root old .root fs fs₁ fs₂ e t nd) : e = t ∧ fs₂ = fs₁ := by
  rcases h.moved with heq | ⟨-, -, hno, hrep, -⟩
  · exact heq
  · have hr := containedEntry_root.mp (grown_entry h.grown h.dst)
    have hunder : t <+: e := by
      rcases VfsPath.root_or_join old with rfl | ⟨p, n, rfl⟩
      · have he := containedEntry_root.mp h.src
        rw [hr] at he
        cases he
        exact List.prefix_rfl
      · obtain ⟨d, hd, rfl⟩ := containedEntry_join.mp h.src
        exact (containedTarget_under hr hd).trans (List.prefix_append _ _)
    exact absurd hunder (h.not_below hrep hno)

/-- A tree that agrees with the one before the move, except perhaps at the destination. -/
theorem compat (h : Renamed root old new fs fs₁ (fs₁.moveEntry e t) e t nd) {a : Fs}
    (he : e ≠ []) (ht : t ≠ []) (hno : e.isPrefixOf t = false)
    (hrep : Posix.replaceable fs₁ nd t = .ok ())
    (ha : ∀ q, a.shape q ≠ none → a.shape q = fs₁.shape q)
    (hat : ∀ x y, a.shape t = some (.symlink x) → nd.shape = .symlink y → x = y) :
    Fs.Compat a (fs₁.moveEntry e t) := by
  intro q s s' hs hs'
  have hs₁ : fs₁.shape q = some s := by
    rw [← ha q (by simp [hs])]
    exact hs
  rw [Fs.shape_moveEntry he ht hno (Fs.shape_eq_dir.mp h.dir)] at hs'
  split at hs'
  · rename_i hpre
    obtain ⟨r, rfl⟩ := List.isPrefixOf_iff_prefix.mp hpre
    by_cases hr : r = []
    · -- The destination itself: a directory replaces a directory, and nothing else does.
      subst hr
      rw [List.append_nil] at hs hs₁
      rw [List.append_nil, List.drop_length, List.append_nil, Fs.shape, h.node] at hs'
      obtain rfl := Option.some.inj hs'
      unfold Posix.replaceable at hrep
      unfold Fs.shape at hs₁
      cases hn : fs₁.node t with
      | none =>
        rw [hn] at hs₁
        cases hs₁
      | some m =>
        rw [hn] at hs₁ hrep
        obtain rfl := Option.some.inj hs₁
        cases m with
        | file i c => exact .inl ⟨c, rfl⟩
        | dir i k =>
          cases nd with
          | dir i k => exact .inr (.inr rfl)
          | file i c => cases hrep
          | symlink i x => cases hrep
        | symlink i x =>
          cases nd with
          | dir i k => cases hrep
          | file i c => exact .inr (.inl ⟨c, rfl⟩)
          | symlink j y =>
            obtain rfl := hat x y hs rfl
            exact .inr (.inr rfl)
    · rw [Fs.shape, Posix.node_below_replaceable hrep hr] at hs₁
      cases hs₁
  · split at hs'
    · cases hs'
    · rw [hs₁] at hs'
      cases hs'
      exact .inr (.inr rfl)

/-- The destination's directory is not reached through the link that is replaced. -/
def Direct (fs : Fs) (root : Posix.Path) (new : VfsPath) (t : Posix.Path) : Prop :=
  containedEntry (fs.removeEntry t) root new = .ok t

/-- **A rename lands** where the destination's path leads: unless a link replaces a link, or then
when the path does not lead through the replaced one. -/
theorem lands (h : Renamed root old new fs fs₁ fs₂ e t nd) {st : VirtualStat}
    (hlink : nd.isSymlink = false ∨ (∀ x, fs.shape t ≠ some (.symlink x)) ∨ Direct fs root new t)
    (hst : restat root fs₂ new = .ok st) :
    containedEntry fs₂ root new = .ok t ∧ fs₂.node t = some nd ∧ st = statOf nd := by
  obtain ⟨t', nd', ht', hn', rfl⟩ := restat_ok.mp hst
  -- It is enough that the path leads to `t`, and that the node is there.
  suffices hgoal : t' = t ∧ fs₂.node t = some nd by
    obtain ⟨rfl, hn⟩ := hgoal
    rw [hn] at hn'
    cases hn'
    exact ⟨ht', hn, rfl⟩
  have hdst := grown_entry h.grown h.dst
  rcases h.moved with ⟨rfl, rfl⟩ | ⟨he, ht, hno, hrep, rfl⟩
  · rw [hdst] at ht'
    cases ht'
    exact ⟨rfl, h.node⟩
  · have hbelow := h.not_below hrep hno
    have hdrop : e.dropLast ≠ t := by
      rintro rfl
      exact hbelow (List.dropLast_prefix e)
    refine ⟨?_, ?_⟩
    · rcases VfsPath.root_or_join new with rfl | ⟨p, n, rfl⟩
      · rw [(h.not_root).1, List.isPrefixOf_iff_prefix.mpr List.prefix_rfl] at hno
        cases hno
      · have hd' : (fs₁.moveEntry e t).shape t'.dropLast = some .dir :=
          Fs.shape_dropLast (by rw [ne_eq, Fs.shape_eq_none, hn']; simp)
        by_cases hl : nd.isSymlink = false ∨ ∀ x, fs.shape t ≠ some (.symlink x)
        · have hk := h.compat he ht hno hrep (fun _ _ => rfl) (a := fs₁) ?_
          · exact (containedEntry_compat hk hdst ht' h.dir hd').symm
          · intro x y hx hy
            rcases hl with hl | hl
            · cases nd <;> simp_all [Posix.Node.isSymlink, Posix.Node.shape]
            · refine absurd ?_ (hl x)
              rw [h.grown, if_neg] at hx
              · exact hx
              · rintro ⟨hpre, -⟩
                exact ((prefix_dropLast ht).mp hpre).2 rfl
        · rw [not_or, not_forall] at hl
          obtain ⟨hnd, x, hx⟩ := hl
          rw [not_not] at hx
          have hdirect : Direct fs root (p.join n) t := by
            rcases hlink with h0 | h0 | h0
            · exact absurd h0 hnd
            · exact absurd hx (h0 x)
            · exact h0
          have hnotdir : fs.isDir t = false := by
            rw [Bool.eq_false_iff, ne_eq, ← Fs.shape_eq_dir, hx]
            simp
          have hshape : ∀ q, (fs.removeEntry t).shape q = if q = t then none else fs.shape q :=
            fun q => Fs.shape_removeEntry ht (.inl hnotdir)
          have hsame := same_of_grown h.grown (by simp [hx])
          have hk := h.compat he ht hno hrep (a := fs.removeEntry t) ?_ ?_
          · have hdt : t.dropLast ≠ t := by
              intro h0
              have hpre : t <+: t.dropLast := by rw [h0]
              exact ((prefix_dropLast ht).mp hpre).2 rfl
            refine (containedEntry_compat hk hdirect ht' ?_ hd').symm
            rw [hshape, if_neg hdt]
            exact Fs.shape_dropLast (by simp [hx])
          · intro q hq
            rw [hshape] at hq ⊢
            split at hq
            · exact absurd rfl hq
            · rename_i hqt
              rw [if_neg hqt, hsame]
          · intro y z hy
            rw [hshape, if_pos rfl] at hy
            cases hy
    · rw [Fs.node_moveEntry he ht hno (Fs.shape_eq_dir.mp h.dir) hdrop]
      exact h.node

end Renamed
end KinVfs
