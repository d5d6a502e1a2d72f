import KinVfs.Daemon.RenameSpec
import KinVfs.Posix.Attrs
import KinVfs.Posix.Without

/-!
# When the mount decides a mutation

`create_file`, `set_len` and `remove` ask the working copy whether it has the path. `rename` makes the parents of
the destination, moves the entry and looks at the destination again, so it also depends on what the two paths lead
through. `Movable` says, of the tree before the call, that neither step loses a path: making directories does not
mend the way to `p`, the root does not lead through the entry of `p`, and no link in it leads out of it.
-/

namespace KinVfs

open Posix (Fs Grown)
open Fallible

/-- A link on the way to the directory `d` dangles, and the name that it misses is missing below the root `r`. -/
def Adrift (fs : Fs) (root r : Posix.Path) (d : VfsPath) : Prop :=
  ∃ a l x s, a.components <+: d.components ∧ containedEntry fs root a = .ok l ∧
    fs.shape l = some (.symlink x) ∧ fs.search true Fs.maxLinks [] (l.map .name) = .error s ∧
    s.kind = .notFound ∧ r <+: s.place

/-- Every link at or below `e` that leads to a directory below `r` leads to one at or below `e`. -/
def Inward (fs : Fs) (r e : Posix.Path) : Prop :=
  ∀ l x d, e <+: l → fs.shape l = some (.symlink x) → fs.canonicalize l = .ok d → r <+: d →
    fs.shape d = some .dir → e <+: d

/-- What is at `e` can be moved away, in the tree that has it. -/
structure Loose (fs : Fs) (root r e : Posix.Path) : Prop where
  /-- The root does not lead through it. -/
  rootApart : e ≠ r → (fs.without e).canonicalize root = .ok r
  inward : Inward fs r e
  /-- When it is a link, no path leads to another link through that link itself. -/
  direct : (∃ x, fs.shape e = some (.symlink x)) → ∀ dst t y, containedEntry fs root dst = .ok t →
    fs.shape t = some (.symlink y) → t ≠ e → Renamed.Direct fs root dst t

/-- The tree before a rename of `p`, whose root is at `r`. -/
structure Movable (fs : Fs) (root r : Posix.Path) (p : VfsPath) : Prop where
  notAdrift : ∀ d n, p = d.join n → ¬ Adrift fs root r d
  loose : ∀ e, containedEntry fs root p = .ok e → Loose fs root r e

/-! ## Making directories -/

section Growth

variable {fs fs' : Fs} {root r q h e : Posix.Path} {p : VfsPath} {n : VfsName}

/-- A directory that does not resolve does not resolve after directories were made. -/
theorem target_error_grown {err : VfsError} (hg : Grown fs fs' q) (hr : fs.canonicalize root = .ok r) (hq : r <+: q)
    (hno : ¬ Adrift fs root r p) (h : containedTarget fs root p = .error err)
    (h' : containedTarget fs' root p = .ok e) : False := by
  have hreal := Fs.canonicalize_real hr
  have hr' := Fs.canonicalize_keeps hg.keeps hr (hg.real hreal)
  induction p using VfsPath.induct generalizing e err with
  | hroot =>
    rw [containedTarget_root.mpr hr] at h
    cases h
  | hjoin p n ih =>
    obtain ⟨r', d', hr'', hd', hc', hf'⟩ := containedTarget_join.mp h'
    cases hr'.symm.trans hr''
    cases hd : containedTarget fs root p with
    | error err' =>
      refine ih (fun hadrift => hno ?_) hd hd'
      obtain ⟨a, l, x, s, hpre, hrest⟩ := hadrift
      exact ⟨a, l, x, s, hpre.trans (by rw [VfsPath.components_join]; exact List.prefix_append _ _), hrest⟩
    | ok d =>
      have hsame : d' = d := Except.ok.inj (hd'.symm.trans (grown_target hg hd))
      subst hsame
      have hentry : containedEntry fs root (p.join n) = .ok (d' ++ [n.bytes]) := containedEntry_join.mpr ⟨d', hd, rfl⟩
      -- The way to the entry is as clear as it was, so it is a link that does not resolve.
      have hc : fs.Clear (d' ++ [n.bytes]) := by
        rw [clear_concat (containedTarget_landed hd)]
        intro c hfile
        rw [clear_concat (containedTarget_landed hd')] at hc'
        exact hc' c (by rw [hg, if_neg (by simp [hfile]), hfile])
      cases hf : followEntry fs r (d' ++ [n.bytes]) with
      | some x =>
        rw [containedTarget_join.mpr ⟨r, d', hr, hd, hc, hf⟩] at h
        cases h
      | none =>
        unfold followEntry at hf
        split at hf
        · rename_i x hx
          have hx' : fs'.shape (d' ++ [n.bytes]) = some (.symlink x) := hg.keeps.2 _ x hx
          rcases followEntry_eq_some.mp hf' with ⟨-, hnot⟩ | ⟨-, hcan', hpre⟩
          · exact hnot x hx'
          · split at hf
            · rename_i y hcan
              rw [Fs.canonicalize_keeps hg.keeps hcan (hg.real (Fs.canonicalize_real hcan))] at hcan'
              cases hcan'
              rw [if_pos (List.isPrefixOf_iff_prefix.mpr hpre)] at hf
              cases hf
            · rename_i k hcan
              have hwalk : (fs.search true Fs.maxLinks [] ((d' ++ [n.bytes]).map .name)).mapError (·.kind) = .error k :=
                Fs.search_walk.trans hcan
              cases hs : fs.search true Fs.maxLinks [] ((d' ++ [n.bytes]).map .name) with
              | ok y =>
                rw [hs] at hwalk
                cases hwalk
              | error s =>
                have hstuck : s.kind = .notFound → ¬ r <+: s.place := fun hkind hplace =>
                  hno ⟨p.join n, _, x, s, List.prefix_rfl, hentry, hx, hs, hkind, hplace⟩
                have herr := Fs.walk_grown_error (hg.below hreal.1 hq) hstuck hs
                rw [herr] at hcan'
                cases hcan'
        · cases hf

/-- An entry that does not resolve and is not adrift does not resolve after directories were made. -/
theorem entry_error_grown {err : VfsError} (hg : Grown fs fs' q) (hr : fs.canonicalize root = .ok r) (hq : r <+: q)
    (hno : ∀ d n, p = d.join n → ¬ Adrift fs root r d) (h : containedEntry fs root p = .error err) :
    ∃ err', containedEntry fs' root p = .error err' := by
  cases h' : containedEntry fs' root p with
  | error err' => exact ⟨err', rfl⟩
  | ok e =>
    rcases VfsPath.root_or_join p with rfl | ⟨p, n, rfl⟩
    · rw [containedEntry_root.mpr hr] at h
      cases h
    · obtain ⟨d', hd', -⟩ := containedEntry_join.mp h'
      cases hd : containedTarget fs root p with
      | ok d =>
        rw [containedEntry_join.mpr ⟨d, hd, rfl⟩] at h
        cases h
      | error err' => exact absurd (target_error_grown hg hr hq (hno p n rfl) hd hd') id

end Growth

/-! ## Moving the entry -/

section Move

variable {fs fs₁ fs₂ a : Fs} {root r e t x x' : Posix.Path} {p d dst : VfsPath} {n : VfsName} {nd : Posix.Node}

/-- A tree whose directories and links are those before the move, as far as they are not at or below `e` they are
also there after it. -/
structure Between (fs a fs₂ : Fs) (root e : Posix.Path) : Prop where
  compat : Fs.Compat a fs₂
  gone : ∀ q, a.shape q ≠ none → fs₂.shape q = none → e <+: q
  links : ∀ q x, a.shape q = some (.symlink x) → fs.shape q = some (.symlink x)
  dirs : ∀ q, a.shape q = some .dir → fs.shape q ≠ none → fs.shape q = some .dir
  same : ∀ d y y', containedTarget fs root d = .ok y → containedTarget a root d = .ok y' → a.shape y' = some .dir →
    y = y'

/-- A path that led to a directory and now leads to nothing led through `e`, and it stayed in there. -/
theorem entered (h : Between fs a fs₂ root e) (hr : fs.canonicalize root = .ok r) (hin : Inward fs r e)
    (hx : containedTarget fs root d = .ok x) (hxa : containedTarget a root d = .ok x) (hdir : a.shape x = some .dir)
    (hx' : containedTarget fs₂ root d = .ok x') (hnone : fs₂.shape x' = none) : e <+: x := by
  induction d using VfsPath.induct generalizing x x' with
  | hroot => exact absurd hnone (Fs.canonicalize_real (containedTarget_root.mp hx')).1
  | hjoin d n ih =>
    obtain ⟨r₀, y, hr₀, hy, -, hf⟩ := containedTarget_join.mp hx
    cases hr.symm.trans hr₀
    obtain ⟨_, ya, -, hya, -, hfa⟩ := containedTarget_join.mp hxa
    obtain ⟨_, y', -, hy', hc', hf'⟩ := containedTarget_join.mp hx'
    have hcase := followEntry_dir hfa hdir
    have hsome : a.shape (ya ++ [n.bytes]) ≠ none := by
      rcases hcase with ⟨-, hs⟩ | ⟨z, hs, -⟩ <;> simp [hs]
    have hyd : a.shape ya = some .dir := Fs.shape_dir_of_append hsome (by simp)
    have hsame : ya = y := (h.same d y ya hy hya hyd).symm
    subst hsame
    have habsent : x' = y' ++ [n.bytes] := by
      rcases followEntry_eq_some.mp hf' with ⟨heq, -⟩ | ⟨-, hcan, -⟩
      · exact heq
      · exact absurd hnone (Fs.canonicalize_real hcan).1
    subst habsent
    -- The entry is gone with what is above it, or it is the first one that is gone.
    have henter : e <+: ya ++ [n.bytes] := by
      rcases (Fs.clear_append_singleton.mp hc').2 with hnone' | hdir'
      · exact (ih hy hya hyd hy' hnone').trans (List.prefix_append _ _)
      · have heq : ya = y' := containedTarget_compat h.compat hya hy' hyd hdir'
        subst heq
        exact h.gone _ hsome hnone
    rcases hcase with ⟨rfl, -⟩ | ⟨z, hl, -⟩
    · exact henter
    · have hl' := h.links _ z hl
      rcases followEntry_eq_some.mp hf with ⟨-, hnot⟩ | ⟨-, hcan, hpre⟩
      · exact absurd hl' (hnot z)
      · exact hin _ z x henter hl' hcan hpre (h.dirs x hdir (Fs.canonicalize_real hcan).1)

/-- A destination outside what is moved is found after the move. -/
theorem not_free_of_between (h : Between fs a fs₂ root e) (hr : fs.canonicalize root = .ok r) (hin : Inward fs r e)
    (hdst : containedEntry fs root (d.join n) = .ok t) (hdst' : containedEntry a root (d.join n) = .ok t)
    (hdir : a.shape t.dropLast = some .dir) (hout : ¬ e <+: t) (ht : fs₂.shape t ≠ none) :
    ¬ Free fs₂ root (d.join n) := by
  intro hfree
  obtain ⟨t', ht', hc', hs'⟩ := free_iff_entry.mp hfree
  obtain ⟨x, hx, rfl⟩ := containedEntry_join.mp hdst
  obtain ⟨xa, hxa, heq⟩ := containedEntry_join.mp hdst'
  obtain ⟨x', hx', rfl⟩ := containedEntry_join.mp ht'
  have hsame : x = xa := List.append_cancel_right heq
  subst hsame
  rw [List.dropLast_concat] at hdir
  rcases (Fs.clear_append_singleton.mp hc').2 with hnone | hdir'
  · exact hout ((entered h hr hin hx hxa hdir hx' hnone).trans (List.prefix_append _ _))
  · have heq : x = x' := containedTarget_compat h.compat hxa hx' hdir hdir'
    subst heq
    exact ht hs'

theorem containedEntry_under (hr : fs.canonicalize root = .ok r) (he : containedEntry fs root p = .ok e) : r <+: e := by
  rcases VfsPath.root_or_join p with rfl | ⟨p, n, rfl⟩
  · rw [containedEntry_root, hr] at he
    cases he
    exact List.prefix_rfl
  · obtain ⟨d, hd, rfl⟩ := containedEntry_join.mp he
    exact (containedTarget_under hr hd).trans (List.prefix_append _ _)

theorem removed_sub {q : Posix.Path} {z : Bytes} {s : Posix.Shape} (ht : t ≠ []) (hz : fs.shape t = some (.symlink z))
    (hs : (fs.removeEntry t).shape q = some s) : q ≠ t ∧ fs.shape q = some s := by
  have hnotdir : fs.isDir t = false := by
    rw [Bool.eq_false_iff, ne_eq, ← Fs.shape_eq_dir, hz]
    simp
  rw [Fs.shape_removeEntry ht (.inl hnotdir)] at hs
  split at hs
  · cases hs
  · exact ⟨‹_›, hs⟩

section Moved

variable (h : Renamed root p dst fs fs₁ (fs₁.moveEntry e t) e t nd) (he : e ≠ []) (ht : t ≠ [])
  (hno : e.isPrefixOf t = false) (hrep : Posix.replaceable fs₁ nd t = .ok ())

include h he ht hno hrep

/-- The tree after the move. -/
theorem shape_moved (q : Posix.Path) (hq : fs₁.shape q ≠ none) :
    (fs₁.moveEntry e t).shape q = if q = t then some nd.shape else if e <+: q then none else fs₁.shape q := by
  rw [Fs.shape_moveEntry he ht hno (Fs.shape_eq_dir.mp h.dir)]
  by_cases hpre : t <+: q
  · obtain ⟨s, rfl⟩ := hpre
    have hs : s = [] := by
      by_contra hs
      exact hq (Fs.shape_eq_none.mpr (Posix.node_below_replaceable hrep hs))
    subst hs
    simp [Fs.shape, h.node]
  · have hne : q ≠ t := by
      rintro rfl
      exact hpre List.prefix_rfl
    simp [List.isPrefixOf_iff_prefix, hpre, hne]

omit hrep in
theorem shape_moved_dst : (fs₁.moveEntry e t).shape t = some nd.shape := by
  rw [Fs.shape_moveEntry he ht hno (Fs.shape_eq_dir.mp h.dir)]
  simp [Fs.shape, h.node]

omit he ht hrep in
/-- What is moved was there before the parents were made. -/
theorem shape_source : fs.shape e ≠ none := by
  intro hnone
  have hs : fs₁.shape e ≠ none := by simp [Fs.shape, h.node]
  rw [h.grown] at hs
  split at hs
  · rename_i hnew
    have hpre : e <+: t := hnew.1.trans (List.dropLast_prefix t)
    rw [List.isPrefixOf_iff_prefix.mpr hpre] at hno
    cases hno
  · exact hs hnone

/-- Unless a link replaces a link, the tree with the parents. -/
theorem between_grown (hlink : ∀ x y, fs.shape t = some (.symlink x) → nd.shape ≠ .symlink y) :
    Between fs fs₁ (fs₁.moveEntry e t) root e where
  compat := by
    refine h.compat he ht hno hrep (fun _ _ => rfl) fun x y hx hy => ?_
    refine absurd hy (hlink x y ?_)
    rw [h.grown] at hx
    split at hx
    · cases hx
    · exact hx
  gone q hq hnone := by
    rw [shape_moved h he ht hno hrep q hq] at hnone
    split at hnone
    · cases hnone
    · split at hnone
      · assumption
      · exact absurd hnone hq
  links q x hx := by
    rw [h.grown] at hx
    split at hx
    · cases hx
    · exact hx
  dirs q hd hsome := by
    rw [h.grown, if_neg fun hnew => hsome hnew.2] at hd
    exact hd
  same d y y' hy hy' _ := Except.ok.inj ((grown_target h.grown hy).symm.trans hy')

/-- When a link is replaced, the tree without it. -/
theorem between_removed {z : Bytes} (hz : fs.shape t = some (.symlink z)) (hr : fs.canonicalize root = .ok r) :
    Between fs (fs.removeEntry t) (fs₁.moveEntry e t) root e := by
  have hsub : ∀ q s, (fs.removeEntry t).shape q = some s → q ≠ t ∧ fs.shape q = some s := fun q s => removed_sub ht hz
  have hsame := same_of_grown h.grown (by simp [hz])
  have hkeeps : Fs.Keeps (fs.removeEntry t) fs := Fs.keeps_of_sub fun q s hs => (hsub q s hs).2
  refine ⟨?_, fun q hq hnone => ?_, fun q x hx => (hsub q _ hx).2, fun q hd _ => (hsub q _ hd).2, ?_⟩
  · refine h.compat he ht hno hrep (fun q hq => ?_) fun x y hx => ?_
    · obtain ⟨s, hs⟩ := Option.ne_none_iff_exists'.mp hq
      rw [hs, hsame, (hsub q s hs).2]
    · exact absurd rfl (hsub t _ hx).1
  · obtain ⟨s, hs⟩ := Option.ne_none_iff_exists'.mp hq
    obtain ⟨hne, hs⟩ := hsub q s hs
    have hq₁ : fs₁.shape q ≠ none := by simp [hsame q, hs]
    rw [shape_moved h he ht hno hrep q hq₁, if_neg hne] at hnone
    split at hnone
    · assumption
    · exact absurd hnone hq₁
  · intro d y y' hy hy' hd
    obtain ⟨r', hr', -⟩ := resolve_ok.mp hy'
    have hroot : r' = r :=
      Except.ok.inj ((Fs.canonicalize_of_sub (fun q s hs => (hsub q s hs).2) hr').symm.trans hr)
    subst hroot
    have hfs := containedTarget_keeps hkeeps hr' hr hy' (undisturbed_of_dir hkeeps hd)
    exact Except.ok.inj (hy.symm.trans hfs)

/-- The root is found after the move: `b` is a tree in which it does not lead through a replaced link. -/
theorem root_found {b : Fs} (hr : fs.canonicalize root = .ok r) (hsrc : containedEntry fs root p = .ok e)
    (hapart : e ≠ r → (fs.without e).canonicalize root = .ok r) (hb : b.canonicalize root = .ok r)
    (hsub : ∀ q s, b.shape q = some s → fs.shape q = some s)
    (hlink : ∀ x y, b.shape t = some (.symlink x) → nd.shape ≠ .symlink y) :
    (fs₁.moveEntry e t).canonicalize root ≠ .error .notFound := by
  have hout : ¬ e <+: t := by
    rw [← List.isPrefixOf_iff_prefix, hno]
    simp
  have hunder := containedEntry_under hr hsrc
  have her : ¬ e <+: r := fun hpre => hout (hpre.trans (containedEntry_under hr h.dst))
  have hne : e ≠ r := by
    rintro rfl
    exact her List.prefix_rfl
  have hdir : fs.shape r = some .dir := by
    obtain ⟨u, rfl⟩ := hunder
    refine Fs.shape_dir_of_append (shape_source h hno) ?_
    rintro rfl
    exact hne (List.append_nil r)
  refine Fs.canonicalize_ne_notFound (fun q s s' hs hs' => ?_) (fun q s hs hs' hfile => ?_)
    ((Fs.shape_without_of_not_prefix her).trans hdir) (hapart hne) hb
  · exact Option.some.inj ((Fs.shape_of_without hs).symm.trans (hsub q s' hs'))
  · have hin : fs.shape q = some s := hsub q s hs'
    have hq₁ : fs₁.shape q = some s := by rw [h.grown, if_neg (by simp [hin]), hin]
    have hnot : ¬ e <+: q := by
      intro hpre
      rw [Fs.shape_without_of_prefix he hpre] at hs
      cases hs
    rw [shape_moved h he ht hno hrep q (by simp [hq₁]), if_neg hnot]
    split
    · -- A directory is replaced by a directory only, and a link here by a file.
      rename_i heq
      subst heq
      unfold Posix.replaceable at hrep
      cases hn : fs₁.node q with
      | none =>
        rw [Fs.shape_eq_none.mpr hn] at hq₁
        cases hq₁
      | some m =>
        have hm : m.shape = s := by simpa [Fs.shape, hn] using hq₁
        rw [hn] at hrep
        subst hm
        cases m with
        | file i c => exact absurd rfl (hfile c)
        | dir i k =>
          cases nd with
          | dir i k => exact .inl rfl
          | file i c => cases hrep
          | symlink i x => cases hrep
        | symlink i x =>
          cases nd with
          | dir i k => cases hrep
          | file i c => exact .inr ⟨c, rfl⟩
          | symlink j y => exact absurd rfl (hlink x y hs')
    · exact .inl hq₁

end Moved

/-- **After a rename** of what is movable the destination is not missing. -/
theorem not_missing_of_renamed (h : Renamed root p dst fs fs₁ fs₂ e t nd) (hr : fs.canonicalize root = .ok r)
    (hsrc : containedEntry fs root p = .ok e) (hloose : Loose fs root r e) : ¬ Missing fs₂ root dst := by
  have hdst := grown_entry h.grown h.dst
  rcases h.moved with ⟨rfl, rfl⟩ | ⟨he, ht, hno, hrep, rfl⟩
  · rintro (hroot | hfree)
    · rw [Fs.canonicalize_keeps h.grown.keeps hr (h.grown.real (Fs.canonicalize_real hr))] at hroot
      cases hroot
    · obtain ⟨t', ht', -, hs'⟩ := free_iff_entry.mp hfree
      cases hdst.symm.trans ht'
      simp [Fs.shape, h.node] at hs'
  · have hout : ¬ e <+: t := by
      rw [← List.isPrefixOf_iff_prefix, hno]
      simp
    rcases VfsPath.root_or_join dst with rfl | ⟨d, n, rfl⟩
    · rw [(h.not_root).1] at hout
      exact absurd List.prefix_rfl hout
    have hfound : (fs₁.moveEntry e t).shape t ≠ none := by simp [shape_moved_dst h he ht hno]
    by_cases hlink : ∃ x y, fs.shape t = some (.symlink x) ∧ nd.shape = .symlink y
    · -- A link replaces a link, which is not on the way to itself.
      obtain ⟨z, y, hz, hy⟩ := hlink
      have hsame := same_of_grown h.grown (by simp [hz])
      have hsrcLink : fs.shape e = some (.symlink y) := by
        rw [← hsame, Fs.shape, h.node, Option.map_some, hy]
      have hne : t ≠ e := by
        rintro rfl
        exact hout List.prefix_rfl
      have hdirect := hloose.direct ⟨y, hsrcLink⟩ _ t z h.dst hz hne
      have hsub : ∀ q s, (fs.removeEntry t).shape q = some s → fs.shape q = some s := fun q s hs =>
        (removed_sub ht hz hs).2
      obtain ⟨r', hr', -⟩ := resolve_ok.mp hdirect
      have hroot : r' = r := Except.ok.inj ((Fs.canonicalize_of_sub hsub hr').symm.trans hr)
      subst hroot
      have hdir : (fs.removeEntry t).shape t.dropLast = some .dir := by
        have hnotdir : fs.isDir t = false := by
          rw [Bool.eq_false_iff, ne_eq, ← Fs.shape_eq_dir, hz]
          simp
        have hdrop : t.dropLast ≠ t := by
          intro heq
          have hpre : t <+: t.dropLast := by rw [heq]
          exact ((prefix_dropLast ht).mp hpre).2 rfl
        rw [Fs.shape_removeEntry ht (.inl hnotdir), if_neg hdrop]
        exact Fs.shape_dropLast (by simp [hz])
      rintro (hroot | hfree)
      · refine root_found h he ht hno hrep hr hsrc hloose.rootApart hr' hsub (fun x y' hx => ?_) hroot
        exact absurd rfl (removed_sub ht hz hx).1
      · exact not_free_of_between (between_removed h he ht hno hrep hz hr) hr hloose.inward h.dst hdirect hdir hout
          hfound hfree
    · have hlink' : ∀ x y, fs.shape t = some (.symlink x) → nd.shape ≠ .symlink y := fun x y hx hy =>
        hlink ⟨x, y, hx, hy⟩
      rintro (hroot | hfree)
      · have hapart := hloose.rootApart
        have hsub : ∀ q s, (fs.without e).shape q = some s → fs.shape q = some s := fun _ _ => Fs.shape_of_without
        have hne : e ≠ r := by
          rintro rfl
          exact hout (containedEntry_under hr h.dst)
        exact root_found h he ht hno hrep hr hsrc hapart (hapart hne) hsub
          (fun x y hx => hlink' x y (hsub t _ hx)) hroot
      · exact not_free_of_between (between_grown h he ht hno hrep hlink') hr hloose.inward h.dst hdst h.dir hout
          hfound hfree

/-- Whatever is made for a destination is below the root. -/
theorem grown_below (hr : fs.canonicalize root = .ok r) (ht : containedEntry fs root dst = .ok t)
    (hg : Grown fs fs₁ t.dropLast) : ∃ q, Grown fs fs₁ q ∧ r <+: q := by
  rcases VfsPath.root_or_join dst with rfl | ⟨d, n, rfl⟩
  · rw [containedEntry_root, hr] at ht
    cases ht
    have hreal := Fs.canonicalize_real hr
    refine ⟨r, fun s => ?_, List.prefix_rfl⟩
    rw [same_of_grown hg hreal.1, if_neg]
    exact fun hnew => Fs.shape_of_prefix hreal.1 hnew.1 hnew.2
  · obtain ⟨x, hx, rfl⟩ := containedEntry_join.mp ht
    rw [List.dropLast_concat] at hg
    exact ⟨x, hg, containedTarget_under hr hx⟩

/-- **A movable path** is found by every rename of it. -/
theorem renameFinds_of_movable (hr : fs.canonicalize root = .ok r) (hfree : ¬ Free fs root p)
    (hmov : Movable fs root r p) (dst : VfsPath) : RenameFinds fs root p dst := by
  intro t ht fs₁ hx
  have hgrown : Grown fs fs₁ t.dropLast := by
    rcases createParent_entry ht with ⟨fs', hx', hg, -⟩ | hx'
    · cases hx.symm.trans hx'
      exact hg
    · cases hx.symm.trans hx'
  cases hsrc : containedEntry fs root p with
  | error err =>
    obtain ⟨q, hg, hq⟩ := grown_below hr ht hgrown
    obtain ⟨err', herr'⟩ := entry_error_grown hg hr hq hmov.notAdrift hsrc
    refine ⟨fun hfree' => ?_, fun e he => ?_⟩
    · obtain ⟨e, he, -⟩ := free_iff_entry.mp hfree'
      cases herr'.symm.trans he
    · cases herr'.symm.trans he
  | ok e =>
    have hsrc₁ := grown_entry hgrown hsrc
    refine ⟨not_free_grown hgrown hsrc hfree, fun e' he' fs₂ hmove => ?_⟩
    cases hsrc₁.symm.trans he'
    have hdisk : exec (KinDaemonWriter.renameDisk root p dst) fs = (.ok (), fs₂) := by
      simp [KinDaemonWriter.renameDisk, exec_bind, KinDaemonWriter.entryPath, ht, hx, he', hmove]
    obtain ⟨fs₁', e', t', nd, hren⟩ := renamed_of_ok hdisk
    have hsame : e' = e := Except.ok.inj (hren.src.symm.trans (grown_entry hren.grown hsrc))
    subst hsame
    exact not_missing_of_renamed hren hr hsrc (hmov.loose _ hsrc)

end Move

/-! ## What a rename cannot do without -/

section Converse

variable {fs : Fs} {root r e x : Posix.Path} {p d : VfsPath} {n : VfsName}

/-- A name that is not taken. -/
theorem exists_fresh (fs : Fs) (x : Posix.Path) : ∃ n : VfsName, fs.shape (x ++ [n.bytes]) = none := by
  have hvalid : ∀ k, checkName (List.replicate (k + 1) 97) = .ok () := by
    intro k
    rw [checkName_ok]
    refine ⟨validateComponent_ok.mpr ⟨by simp, ?_, ?_, ?_⟩, ?_⟩
    · simp [List.replicate_succ, dot]
    · simp [List.replicate_succ, dot]
    · simp [List.mem_replicate]
    · simp [List.mem_replicate, slash]
  obtain ⟨N, hN⟩ := fs.bounded fun q => (q.getLastD []).length
  refine ⟨⟨List.replicate (N + 1) 97, hvalid N⟩, ?_⟩
  by_contra hsome
  have hle := hN _ hsome
  simp only [List.getLastD_concat, List.length_replicate] at hle
  omega

/-- A rename to a name that is not taken, in a directory that is not below the source. -/
theorem not_missing_fresh (hsrc : containedEntry fs root p = .ok e) (hsome : fs.shape e ≠ none)
    (hx : containedTarget fs root d = .ok x) (hdir : fs.shape x = some .dir) (hn : fs.shape (x ++ [n.bytes]) = none)
    (hout : ¬ e <+: x) (hfinds : RenameFinds fs root p (d.join n)) :
    ¬ Missing (fs.moveEntry e (x ++ [n.bytes])) root (d.join n) := by
  have ht : x ++ [n.bytes] ≠ [] := by simp
  have hmade : exec (createParent (x ++ [n.bytes])) fs = (.ok (), fs) := by
    simp [createParent, Posix.createDirAll_dir hdir]
  refine (hfinds _ (containedEntry_join.mpr ⟨x, hx, rfl⟩) fs hmade).2 e hsrc _ ?_
  have hne : e ≠ x ++ [n.bytes] := by
    rintro rfl
    exact hsome hn
  have hnil : e ≠ [] := by
    rintro rfl
    exact hout List.nil_prefix
  have hno : ¬ e.isPrefixOf (x ++ [n.bytes]) = true := by
    rw [List.isPrefixOf_iff_prefix, List.prefix_concat_iff]
    exact not_or.mpr ⟨hne, hout⟩
  obtain ⟨nd, hnd⟩ := Option.ne_none_iff_exists'.mp (fun h => hsome (Fs.shape_eq_none.mpr h))
  have hrep : Posix.replaceable fs nd (x ++ [n.bytes]) = .ok () := by
    simp [Posix.replaceable, Fs.shape_eq_none.mp hn]
  rw [Posix.rename_eq (Fs.clear_of_shape hsome) (by rwa [List.dropLast_concat]), hnd]
  simp only [hrep]
  rw [if_neg hne, if_neg (not_or.mpr ⟨hnil, ht⟩), if_neg hno]

/-- The tree after such a rename, where the tree before it has something. -/
theorem shape_fresh {q : Posix.Path} (hdir : fs.shape x = some .dir) (hn : fs.shape (x ++ [n.bytes]) = none)
    (hsome : fs.shape e ≠ none) (hout : ¬ e <+: x) (hq : fs.shape q ≠ none) :
    (fs.moveEntry e (x ++ [n.bytes])).shape q = (fs.without e).shape q := by
  have hnil : e ≠ [] := by
    rintro rfl
    exact hout List.nil_prefix
  have hno : e.isPrefixOf (x ++ [n.bytes]) = false := by
    rw [Bool.eq_false_iff, ne_eq, List.isPrefixOf_iff_prefix, List.prefix_concat_iff]
    refine not_or.mpr ⟨?_, hout⟩
    rintro rfl
    exact hsome hn
  rw [Fs.shape_moveEntry hnil (by simp) hno (by rw [List.dropLast_concat]; exact Fs.shape_eq_dir.mp hdir), if_neg]
  · split
    · rename_i hpre
      exact (Fs.shape_without_of_prefix hnil (List.isPrefixOf_iff_prefix.mp hpre)).symm
    · rename_i hpre
      exact (Fs.shape_without_of_not_prefix fun h => hpre (List.isPrefixOf_iff_prefix.mpr h)).symm
  · rw [List.isPrefixOf_iff_prefix]
    exact fun hpre => Fs.shape_of_prefix hq hpre hn

theorem without_lost (fs : Fs) (e : Posix.Path) (q : Posix.Path) (s : Posix.Shape) (hs : fs.shape q = some s) :
    (fs.without e).shape q = some s ∨ (fs.without e).shape q = none := by
  cases h : (fs.without e).shape q with
  | none => exact .inr rfl
  | some s' => exact .inl ((Fs.shape_of_without h).symm.trans hs)

theorem root_fresh (hr : fs.canonicalize root = .ok r) (hdir : fs.shape x = some .dir)
    (hn : fs.shape (x ++ [n.bytes]) = none) (hsome : fs.shape e ≠ none) (hout : ¬ e <+: x)
    (hfound : (fs.moveEntry e (x ++ [n.bytes])).canonicalize root ≠ .error .notFound) :
    (fs.moveEntry e (x ++ [n.bytes])).canonicalize root = .ok r := by
  refine (Fs.canonicalize_lost (fun q s hs => ?_) hr).resolve_right hfound
  rw [shape_fresh hdir hn hsome hout (by simp [hs])]
  exact without_lost fs e q s hs

/-- The root of a path that every rename finds does not lead through its entry. -/
theorem rootApart_of_finds (hr : fs.canonicalize root = .ok r) (hsrc : containedEntry fs root p = .ok e)
    (hfinds : ∀ dst, RenameFinds fs root p dst) (hne : e ≠ r) : (fs.without e).canonicalize root = .ok r := by
  by_cases hsome : fs.shape e = none
  · refine Fs.canonicalize_of_sub (fun q s hs => ?_) hr
    rw [Fs.shape_without_of_not_prefix, hs]
    exact fun hpre => Fs.shape_of_prefix (by simp [hs]) hpre hsome
  · have hunder := containedEntry_under hr hsrc
    have hout : ¬ e <+: r := fun hpre => hne (hpre.eq_of_length (Nat.le_antisymm hpre.length_le hunder.length_le))
    have hdir : fs.shape r = some .dir := by
      obtain ⟨u, rfl⟩ := hunder
      refine Fs.shape_dir_of_append hsome ?_
      rintro rfl
      exact hne (List.append_nil r)
    obtain ⟨n, hn⟩ := exists_fresh fs r
    have hshape := fun q hq => shape_fresh (q := q) hdir hn hsome hout hq
    have hfound := not_missing_fresh (n := n) hsrc hsome (containedTarget_root.mpr hr) hdir hn hout (hfinds _)
    have hafter := root_fresh hr hdir hn hsome hout fun hlost => hfound (.inl hlost)
    -- The way is in the tree before and in the tree after, so it is in what they share.
    refine (Fs.canonicalize_lost (without_lost fs e) hr).resolve_right ?_
    refine Fs.canonicalize_ne_notFound (fun q s s' hs hs' => ?_) (fun q s hs hs' _ => .inl ?_) hdir hr hafter
    · rw [hshape q (by simp [hs])] at hs'
      exact Option.some.inj (hs.symm.trans (Fs.shape_of_without hs'))
    · rwa [hshape q (by simp [hs])] at hs'

/-- A path along real directories. -/
theorem containedTarget_along (hr : fs.canonicalize root = .ok r)
    (h : ∀ ns, ns <+: d.components → fs.shape (r ++ ns) = none ∨ fs.shape (r ++ ns) = some .dir) :
    containedTarget fs root d = .ok (r ++ d.components) := by
  induction d using VfsPath.induct with
  | hroot => rw [containedTarget_root, VfsPath.components_root, List.append_nil, hr]
  | hjoin d n ih =>
    have hd := ih fun ns hns => h ns (hns.trans (by rw [VfsPath.components_join]; exact List.prefix_append _ _))
    have hhere := h d.components (by rw [VfsPath.components_join]; exact List.prefix_append _ _)
    have hnext := h _ List.prefix_rfl
    rw [VfsPath.components_join, ← List.append_assoc] at hnext ⊢
    refine containedTarget_join.mpr ⟨r, _, hr, hd, ?_, followEntry_of_not_link fun t hl => ?_⟩
    · rw [clear_concat (containedTarget_landed hd)]
      intro c hc
      rcases hhere with hs | hs <;> rw [hc] at hs <;> cases hs
    · rcases hnext with hs | hs <;> rw [hl] at hs <;> cases hs

/-- A link below what every rename finds leads to no directory outside it, in a tree whose names are names of paths. -/
theorem inward_of_finds (hnames : ∀ q m, fs.shape (q ++ [m]) ≠ none → IsComponent m)
    (hr : fs.canonicalize root = .ok r) (hsrc : containedEntry fs root p = .ok e)
    (hfinds : ∀ dst, RenameFinds fs root p dst) : Inward fs r e := by
  intro l y D hpre hl hcan hD hdir
  by_contra hout
  have hsome : fs.shape e ≠ none := Fs.shape_of_prefix (by simp [hl]) hpre
  obtain ⟨ns, rfl⟩ := (containedEntry_under hr hsrc).trans hpre
  have habove : ∀ ns', ns' <+: ns → ns' ≠ ns → fs.shape (r ++ ns') = some .dir := by
    rintro ns' ⟨u, rfl⟩ hne
    refine Fs.shape_dir_of_append (q := u) (by rw [List.append_assoc, hl]; simp) ?_
    rintro rfl
    exact hne (List.append_nil ns').symm
  -- The link is spelled by the names that lead down to it from the root.
  obtain ⟨q, rfl⟩ : ∃ q : VfsPath, q.components = ns := by
    refine ⟨.ofComponents ns fun c hc => ?_, VfsPath.components_ofComponents _⟩
    obtain ⟨u, v, rfl⟩ := List.append_of_mem hc
    refine hnames (r ++ u) c (Fs.shape_of_prefix (p := r ++ (u ++ c :: v)) (by simp [hl]) ⟨v, ?_⟩)
    simp
  have hlink : containedTarget fs root q = .ok D := by
    rcases VfsPath.root_or_join q with rfl | ⟨d, m, rfl⟩
    · rw [VfsPath.components_root, List.append_nil] at hl
      exact absurd hl ((Fs.canonicalize_real hr).2 y)
    · rw [VfsPath.components_join] at habove
      rw [VfsPath.components_join, ← List.append_assoc] at hl hcan
      have hd : containedTarget fs root d = .ok (r ++ d.components) := by
        refine containedTarget_along hr fun ns' hns' => .inr (habove ns' (hns'.trans (List.prefix_append _ _)) ?_)
        rintro rfl
        have hlen := hns'.length_le
        rw [List.length_append, List.length_singleton] at hlen
        omega
      exact containedTarget_join.mpr ⟨r, _, hr, hd, Fs.clear_of_shape (by rw [hl]; simp),
        followEntry_eq_some.mpr (.inr ⟨⟨y, hl⟩, hcan, hD⟩)⟩
  obtain ⟨n, hn⟩ := exists_fresh fs D
  have hfound := not_missing_fresh (n := n) hsrc hsome hlink hdir hn hout (hfinds _)
  have hroot := root_fresh hr hdir hn hsome hout fun hlost => hfound (.inl hlost)
  have hafter : ∀ ns', ns' <+: q.components →
      e <+: r ++ ns' ∧ (fs.moveEntry e (D ++ [n.bytes])).shape (r ++ ns') = none ∨
      ns' ≠ q.components ∧ (fs.moveEntry e (D ++ [n.bytes])).shape (r ++ ns') = some .dir := by
    intro ns' hns'
    have hthere : fs.shape (r ++ ns') ≠ none :=
      Fs.shape_of_prefix (p := r ++ q.components) (by simp [hl]) ((List.prefix_append_right_inj r).mpr hns')
    rw [shape_fresh hdir hn hsome hout hthere]
    by_cases hin : e <+: r ++ ns'
    · have hnil : e ≠ [] := by
        rintro rfl
        exact hout List.nil_prefix
      exact .inl ⟨hin, Fs.shape_without_of_prefix hnil hin⟩
    · have hne : ns' ≠ q.components := by
        rintro rfl
        exact hin hpre
      exact .inr ⟨hne, (Fs.shape_without_of_not_prefix hin).trans (habove ns' hns' hne)⟩
  have hgone : (fs.moveEntry e (D ++ [n.bytes])).shape (r ++ q.components) = none := by
    rcases hafter _ List.prefix_rfl with h | h
    · exact h.2
    · exact absurd rfl h.1
  have hway : containedTarget (fs.moveEntry e (D ++ [n.bytes])) root q = .ok (r ++ q.components) :=
    containedTarget_along hroot fun ns' hns' => (hafter ns' hns').imp And.right And.right
  refine hfound (.inr (free_iff_entry.mpr ⟨_, containedEntry_join.mpr ⟨_, hway, rfl⟩, ?_, ?_⟩))
  · exact Fs.clear_append_singleton.mpr ⟨(containedTarget_landed hway).1, .inl hgone⟩
  · exact Fs.shape_eq_none.mpr (Fs.node_none_append (Fs.shape_eq_none.mp hgone))

end Converse

/-! ## What the mount shows -/

/-- The overlay reports that `p` exists. -/
def Shown (graph : ContentProvider) (root : Posix.Path) (w : World) (p : VfsPath) : Prop :=
  (overlay graph root w).pathExists p = .ok true

/-- The overlay shows a non-directory, or a directory it lists as empty. -/
def ShownRemovable (graph : ContentProvider) (root : Posix.Path) (w : World) (p : VfsPath) : Prop :=
  (∃ st, (overlay graph root w).stat p = .ok st ∧ st.isDir = false) ∨
    (overlay graph root w).readDir p = .ok []

/-- The mutations of `p` are decided by what the mount shows. -/
structure DecidedByMount (graph : ContentProvider) (root : Posix.Path) (w : World) (p : VfsPath) :
    Prop where
  create : fails (exec (KinDaemonWriter.createFile root p true) w).1 = true ↔ Shown graph root w p
  setLen : Shown graph root w p →
    ∀ n, failsNotFound (exec (KinDaemonWriter.setLen root p n) w).1 = false
  remove : Shown graph root w p → ShownRemovable graph root w p →
    failsNotFound (exec (KinDaemonWriter.remove root p) w).1 = false
  rename : Shown graph root w p →
    ∀ dst, failsNotFound (exec (KinDaemonWriter.rename root p dst) w).1 = false

/-- **When the mount's view decides.** It is enough that the overlay shows `p` exactly when the working copy does not
have it free and that, when it is shown, the root resolves and `p` is movable. Of this the first part is necessary, and
so is that the root resolves without the entry of `p` and, on a host whose names are names of paths, that the links in
it lead inward. -/
theorem decided_by_mount (graph : ContentProvider) (root : Posix.Path) (w : World) (p : VfsPath) :
    (((Shown graph root w p ↔ ¬ Free w.host root p) ∧
        (Shown graph root w p → w.host.canonicalize root ≠ .error .notFound ∧
          ∀ r, w.host.canonicalize root = .ok r → Movable w.host root r p)) →
      DecidedByMount graph root w p) ∧
    (DecidedByMount graph root w p →
      (Shown graph root w p ↔ ¬ Free w.host root p) ∧
        (Shown graph root w p → w.host.canonicalize root ≠ .error .notFound ∧
          ∀ r e, w.host.canonicalize root = .ok r → containedEntry w.host root p = .ok e →
            (e ≠ r → (w.host.without e).canonicalize root = .ok r) ∧
              ((∀ q m, w.host.shape (q ++ [m]) ≠ none → IsComponent m) → Inward w.host r e))) := by
  constructor
  · rintro ⟨hfree, hmove⟩
    have hfound : Shown graph root w p → ¬ Missing w.host root p := by
      intro hs hm
      rcases hm with hroot | hf
      · exact (hmove hs).1 hroot
      · exact hfree.mp hs hf
    refine ⟨createFile_fails.trans hfree.symm, ?_, ?_, ?_⟩
    · intro hs n
      rw [Bool.eq_false_iff, ne_eq, setLen_notFound]
      exact hfound hs
    · intro hs _
      rw [Bool.eq_false_iff, ne_eq, remove_notFound]
      exact hfound hs
    · intro hs dst
      refine rename_notFound.mpr ⟨(hmove hs).1, ?_⟩
      cases hr : w.host.canonicalize root with
      | ok r => exact renameFinds_of_movable hr (hfree.mp hs) ((hmove hs).2 r hr) dst
      | error k =>
        intro t ht
        obtain ⟨r, hr', -⟩ := resolve_ok.mp ht
        cases hr.symm.trans hr'
  · intro h
    have hfree := h.create.symm.trans createFile_fails
    refine ⟨hfree, fun hs => ?_⟩
    have hrename := fun dst => rename_notFound.mp (h.rename hs dst)
    have hfinds : ∀ dst, RenameFinds w.host root p dst := fun dst => (hrename dst).2
    refine ⟨(hrename p).1, fun r e hr hsrc => ⟨rootApart_of_finds hr hsrc hfinds, fun hnames => ?_⟩⟩
    exact inward_of_finds hnames hr hsrc hfinds

/-- The file `a` of the graph is checked out. -/
def Sample.checkedOutWorld : World := ⟨host.addEntry [[97]] (.file ⟨0o644, 0⟩ [1]), .init, 0, 0⟩

theorem decided_by_mount_checkedOut : DecidedByMount Sample.graph [] Sample.checkedOutWorld Sample.a := by
  have hshown : Shown Sample.graph [] Sample.checkedOutWorld Sample.a := rfl
  have htarget : containedTarget Sample.checkedOutWorld.host [] Sample.a = .ok [[97]] := by decide
  have hlinks : ∀ q x, Sample.checkedOutWorld.host.shape q ≠ some (.symlink x) := by
    intro q x hx
    rw [Sample.checkedOutWorld, Fs.shape_addEntry (by simp) (by decide) (by decide) (by decide)] at hx
    split at hx
    · cases hx
    · simp only [Sample.host, Fs.shape, Fs.empty] at hx
      split at hx <;> cases hx
  have hfree : ¬ Free Sample.checkedOutWorld.host [] Sample.a := by
    rintro ⟨h, ht, hs⟩
    cases htarget.symm.trans ht
    exact absurd hs (by decide)
  refine (decided_by_mount _ _ _ _).1 ⟨iff_of_true hshown hfree, fun _ => ⟨by decide, fun r hr => ?_⟩⟩
  refine ⟨fun d n _ => ?_, fun e he => ⟨fun _ => ?_, fun l x D _ hl => absurd hl (hlinks l x), ?_⟩⟩
  · rintro ⟨a, l, x, s, -, -, hl, -⟩
    exact hlinks l x hl
  · cases hr
    rfl
  · rintro ⟨x, hx⟩
    exact absurd hx (hlinks e x)

/-- The mount shows `a`, which the working copy lacks: an exclusive create of it succeeds and a
truncation does not find it. -/
theorem unmaterialized_not_decided :
    Shown Sample.graph [] Sample.world Sample.a ∧
      fails (exec (KinDaemonWriter.createFile [] Sample.a true) Sample.world).1 = false ∧
      failsNotFound (exec (KinDaemonWriter.setLen [] Sample.a 0) Sample.world).1 = true ∧
      ¬ DecidedByMount Sample.graph [] Sample.world Sample.a := by
  have hshown : Shown Sample.graph [] Sample.world Sample.a := rfl
  have hset : failsNotFound (exec (KinDaemonWriter.setLen [] Sample.a 0) Sample.world).1 = true :=
    by decide
  refine ⟨hshown, by decide, hset, fun h => ?_⟩
  have hno := h.setLen hshown 0
  rw [hset] at hno
  cases hno

end KinVfs
