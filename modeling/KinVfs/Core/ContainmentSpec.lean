import KinVfs.Core.Containment
import KinVfs.Posix.CallSpec

/-!
# Where a path resolves to

`contained_target` and `contained_entry` by the last component: the directory part is resolved as a
target, and the entry is appended (`containedEntry_join`) or followed (`containedTarget_join`). A
target is clear and not a link (`Landed`), and it stays the target while directories stay
directories, links stay links, and nothing but directories appears above it
(`containedTarget_keeps`).
-/

namespace KinVfs

open Posix (Fs Shape)

variable {fs fs' : Fs} {root h d : Posix.Path} {p : VfsPath} {n : VfsName}

/-- The way to `h` is clear and `h` is not a link. -/
def Landed (fs : Fs) (h : Posix.Path) : Prop :=
  fs.Clear h ∧ ∀ t, fs.shape h ≠ some (.symlink t)

theorem landed_of_real (hr : fs.Real h) : Landed fs h := ⟨Fs.clear_of_shape hr.1, hr.2⟩

/-- One component of a target: the entry itself, or what the link there resolves to. -/
def followEntry (fs : Fs) (root : Posix.Path) (e : Posix.Path) : Option Posix.Path :=
  match fs.shape e with
  | some (.symlink _) =>
    match fs.canonicalize e with
    | .ok r => if root.isPrefixOf r then some r else none
    | .error _ => none
  | _ => some e

/-- A component followed: the entry when it is not a link, what a link resolves to otherwise. -/
theorem followEntry_eq_some {e : Posix.Path} :
    followEntry fs root e = some h ↔
      (h = e ∧ ∀ t, fs.shape e ≠ some (.symlink t)) ∨
        ((∃ t, fs.shape e = some (.symlink t)) ∧ fs.canonicalize e = .ok h ∧ root <+: h) := by
  unfold followEntry
  cases hs : fs.shape e with
  | none => simp [eq_comm]
  | some sh =>
    cases sh with
    | file c => simp [eq_comm]
    | dir => simp [eq_comm]
    | symlink t =>
      cases hc : fs.canonicalize e with
      | error k => simp
      | ok r =>
        by_cases hr : root <+: r
        · have hpre : root.isPrefixOf r = true := List.isPrefixOf_iff_prefix.mpr hr
          simp only [hpre, ↓reduceIte, Option.some.injEq, Shape.symlink.injEq, Except.ok.injEq,
            ne_eq, exists_eq', true_and]
          constructor
          · rintro rfl
            exact .inr ⟨rfl, hr⟩
          · rintro (⟨-, h0⟩ | ⟨h0, -⟩)
            · exact absurd rfl (h0 t)
            · exact h0
        · have hpre : root.isPrefixOf r = false := by
            rw [Bool.eq_false_iff, ne_eq, List.isPrefixOf_iff_prefix]
            exact hr
          simp only [hpre, Bool.false_eq_true, ↓reduceIte, reduceCtorEq, Option.some.injEq,
            Shape.symlink.injEq, Except.ok.injEq, ne_eq, exists_eq', true_and, false_iff]
          rintro (⟨-, h0⟩ | ⟨rfl, h0⟩)
          · exact h0 t rfl
          · exact hr h0

theorem followEntry_of_not_link {e : Posix.Path} (hl : ∀ t, fs.shape e ≠ some (.symlink t)) :
    followEntry fs root e = some e := followEntry_eq_some.mpr (.inl ⟨rfl, hl⟩)

theorem landed_followEntry {e : Posix.Path} (hc : fs.Clear e) (h' : followEntry fs root e = some h) :
    Landed fs h := by
  rcases followEntry_eq_some.mp h' with ⟨rfl, hl⟩ | ⟨-, hr, -⟩
  · exact ⟨hc, hl⟩
  · exact landed_of_real (Fs.canonicalize_real hr)

/-- A directory that a component can be looked up in: not a file. -/
theorem clear_concat {m : Bytes} (hd : Landed fs d) :
    fs.Clear (d ++ [m]) ↔ ∀ c, fs.shape d ≠ some (.file c) := by
  rw [Fs.clear_append_singleton]
  constructor
  · rintro ⟨-, h | h⟩ c hc <;> rw [hc] at h <;> cases h
  · intro hf
    refine ⟨hd.1, ?_⟩
    cases hs : fs.shape d with
    | none => exact .inl rfl
    | some s =>
      cases s with
      | file c => exact absurd hs (hf c)
      | dir => exact .inr rfl
      | symlink t => exact absurd hs (hd.2 t)

@[simp] theorem resolveComponents_nil {fl : Bool} : resolveComponents fs root p fl d [] = .ok d := rfl

theorem resolveComponents_step {m : Bytes} {rest : List Bytes} {fl : Bool} :
    resolveComponents fs root p fl d (m :: rest) =
      if rest.isEmpty && !fl then .ok (d ++ [m])
      else
        match fs.lstat (d ++ [m]) with
        | .error .notFound => resolveComponents fs root p fl (d ++ [m]) rest
        | .error e => .error (.io e)
        | .ok (.symlink ..) =>
          match fs.canonicalize (d ++ [m]) with
          | .error _ => .error (.escapesRoot p.display)
          | .ok resolved =>
            if root.isPrefixOf resolved then resolveComponents fs root p fl resolved rest
            else .error (.escapesRoot p.display)
        | .ok _ => resolveComponents fs root p fl (d ++ [m]) rest := rfl

/-- One step of the walk that follows what it meets. -/
theorem resolveComponents_cons {m : Bytes} {rest : List Bytes} {fl : Bool} (hd : Landed fs d)
    (hfl : rest ≠ [] ∨ fl = true) :
    resolveComponents fs root p fl d (m :: rest) = .ok h ↔
      ∃ e, fs.Clear (d ++ [m]) ∧ followEntry fs root (d ++ [m]) = some e ∧
        resolveComponents fs root p fl e rest = .ok h := by
  have hleaf : (rest.isEmpty && !fl) = false := by
    rcases hfl with h0 | h0
    · simp [h0]
    · simp [h0]
  rw [resolveComponents_step]
  simp only [hleaf, Bool.false_eq_true, ↓reduceIte]
  by_cases hc : fs.Clear (d ++ [m])
  · rw [Fs.lstat_clear hc]
    cases hn : fs.node (d ++ [m]) with
    | none =>
      have hs : fs.shape (d ++ [m]) = none := Fs.shape_eq_none.mpr hn
      simp [followEntry, hs, hc]
    | some nd =>
      cases nd with
      | file i c =>
        have hs : fs.shape (d ++ [m]) = some (.file c) := Fs.shape_eq_file.mpr ⟨i, hn⟩
        simp [followEntry, hs, hc]
      | dir i k =>
        have hs : fs.shape (d ++ [m]) = some .dir := by simp [Fs.shape, hn, Posix.Node.shape]
        simp [followEntry, hs, hc]
      | symlink i t =>
        have hs : fs.shape (d ++ [m]) = some (.symlink t) := Fs.shape_eq_symlink.mpr ⟨i, hn⟩
        simp only [followEntry, hs, hc, true_and]
        cases fs.canonicalize (d ++ [m]) with
        | error e => simp
        | ok r => by_cases hr : root.isPrefixOf r = true <;> simp [hr]
  · -- The walk runs into a file.
    obtain ⟨c, hf⟩ : ∃ c, fs.shape d = some (.file c) := by
      rw [clear_concat hd] at hc
      by_contra hno
      exact hc fun c hf => hno ⟨c, hf⟩
    rw [Fs.lstat_blocked hf]
    simp [hc]

/-- The walk over several components that are all followed. -/
theorem resolveComponents_append {cs : List Bytes} {m : Bytes} {fl : Bool} (hd : Landed fs d) :
    resolveComponents fs root p fl d (cs ++ [m]) = .ok h ↔
      ∃ e, resolveComponents fs root p true d cs = .ok e ∧
        resolveComponents fs root p fl e [m] = .ok h := by
  induction cs generalizing d with
  | nil => simp
  | cons c cs ih =>
    rw [List.cons_append, resolveComponents_cons hd (.inl (by simp))]
    constructor
    · rintro ⟨e, hc, hf, hr⟩
      obtain ⟨e', he', hr'⟩ := (ih (landed_followEntry hc hf)).mp hr
      exact ⟨e', (resolveComponents_cons hd (.inr rfl)).mpr ⟨e, hc, hf, he'⟩, hr'⟩
    · rintro ⟨e', he', hr'⟩
      obtain ⟨e, hc, hf, hr⟩ := (resolveComponents_cons hd (.inr rfl)).mp he'
      exact ⟨e, hc, hf, (ih (landed_followEntry hc hf)).mpr ⟨e', hr, hr'⟩⟩

theorem resolveComponents_landed {cs : List Bytes} (hd : Landed fs d)
    (hr : resolveComponents fs root p true d cs = .ok h) : Landed fs h := by
  induction cs generalizing d with
  | nil => cases hr; exact hd
  | cons c cs ih =>
    obtain ⟨e, hc, hf, hr⟩ := (resolveComponents_cons hd (.inr rfl)).mp hr
    exact ih (landed_followEntry hc hf) hr

/-- The displayed path is only in the errors. -/
theorem resolveComponents_path {cs : List Bytes} {fl : Bool} {p' : VfsPath} :
    resolveComponents fs root p fl d cs = .ok h ↔ resolveComponents fs root p' fl d cs = .ok h := by
  induction cs generalizing d with
  | nil => rfl
  | cons c cs ih =>
    rw [resolveComponents_step, resolveComponents_step]
    split
    · rfl
    · split
      · exact ih
      · simp
      · split
        · simp
        · split
          · exact ih
          · simp
      · exact ih

/-! ## By the last component -/

theorem resolve_ok {fl : Bool} :
    resolve fs root p fl = .ok h ↔ ∃ r, fs.canonicalize root = .ok r ∧
      resolveComponents fs r p fl r p.components = .ok h := by
  unfold resolve
  cases fs.canonicalize root with
  | error e => simp
  | ok r => simp

theorem containedTarget_root :
    containedTarget fs root .root = .ok h ↔ fs.canonicalize root = .ok h := by
  rw [containedTarget, resolve_ok]
  simp

theorem containedEntry_root :
    containedEntry fs root .root = .ok h ↔ fs.canonicalize root = .ok h := by
  rw [containedEntry, resolve_ok]
  simp

theorem containedTarget_landed (ht : containedTarget fs root p = .ok h) : Landed fs h := by
  obtain ⟨r, hr, hc⟩ := resolve_ok.mp ht
  exact resolveComponents_landed (landed_of_real (Fs.canonicalize_real hr)) hc

theorem containedEntry_join :
    containedEntry fs root (p.join n) = .ok h ↔
      ∃ d, containedTarget fs root p = .ok d ∧ h = d ++ [n.bytes] := by
  rw [containedEntry, resolve_ok]
  constructor
  · rintro ⟨r, hr, hc⟩
    rw [VfsPath.components_join,
      resolveComponents_append (landed_of_real (Fs.canonicalize_real hr))] at hc
    obtain ⟨d, hd, hh⟩ := hc
    have hh' : Except.ok (d ++ [n.bytes]) = (Except.ok h : VfsResult Posix.Path) := hh
    exact ⟨d, resolve_ok.mpr ⟨r, hr, resolveComponents_path.mp hd⟩, (Except.ok.inj hh').symm⟩
  · rintro ⟨d, hd, rfl⟩
    obtain ⟨r, hr, hc⟩ := resolve_ok.mp hd
    refine ⟨r, hr, ?_⟩
    rw [VfsPath.components_join,
      resolveComponents_append (landed_of_real (Fs.canonicalize_real hr))]
    exact ⟨d, resolveComponents_path.mp hc, rfl⟩

theorem containedTarget_join :
    containedTarget fs root (p.join n) = .ok h ↔
      ∃ r d, fs.canonicalize root = .ok r ∧ containedTarget fs root p = .ok d ∧
        fs.Clear (d ++ [n.bytes]) ∧ followEntry fs r (d ++ [n.bytes]) = some h := by
  rw [containedTarget, resolve_ok]
  constructor
  · rintro ⟨r, hr, hc⟩
    rw [VfsPath.components_join,
      resolveComponents_append (landed_of_real (Fs.canonicalize_real hr))] at hc
    obtain ⟨d, hd, hh⟩ := hc
    have hdt : containedTarget fs root p = .ok d :=
      resolve_ok.mpr ⟨r, hr, resolveComponents_path.mp hd⟩
    obtain ⟨e, hcl, hf, he⟩ :=
      (resolveComponents_cons (containedTarget_landed hdt) (.inr rfl)).mp hh
    cases he
    exact ⟨r, d, hr, hdt, hcl, hf⟩
  · rintro ⟨r, d, hr, hd, hcl, hf⟩
    obtain ⟨r', hr', hc⟩ := resolve_ok.mp hd
    rw [hr] at hr'
    cases hr'
    refine ⟨r, hr, ?_⟩
    rw [VfsPath.components_join,
      resolveComponents_append (landed_of_real (Fs.canonicalize_real hr))]
    exact ⟨d, resolveComponents_path.mp hc,
      (resolveComponents_cons (containedTarget_landed hd) (.inr rfl)).mpr ⟨h, hcl, hf, rfl⟩⟩

/-- A target whose entry is not a link is that entry. -/
theorem containedTarget_of_entry (he : containedEntry fs root p = .ok h) (hc : fs.Clear h)
    (hl : ∀ t, fs.shape h ≠ some (.symlink t)) : containedTarget fs root p = .ok h := by
  rcases VfsPath.root_or_join p with rfl | ⟨q, n, rfl⟩
  · exact containedTarget_root.mpr (containedEntry_root.mp he)
  · obtain ⟨d, hd, rfl⟩ := containedEntry_join.mp he
    obtain ⟨r, hr, -⟩ := resolve_ok.mp hd
    exact containedTarget_join.mpr ⟨r, d, hr, hd, hc, followEntry_of_not_link hl⟩

/-- Every target has an entry, and is that entry unless the entry is a link. -/
theorem containedEntry_of_target (ht : containedTarget fs root p = .ok h) :
    ∃ e, containedEntry fs root p = .ok e ∧ fs.Clear e ∧
      (e = h ∨ ∃ t, fs.shape e = some (.symlink t)) := by
  rcases VfsPath.root_or_join p with rfl | ⟨q, n, rfl⟩
  · exact ⟨h, containedEntry_root.mpr (containedTarget_root.mp ht),
      (containedTarget_landed ht).1, .inl rfl⟩
  · obtain ⟨r, d, hr, hd, hc, hf⟩ := containedTarget_join.mp ht
    refine ⟨d ++ [n.bytes], containedEntry_join.mpr ⟨d, hd, rfl⟩, hc, ?_⟩
    rcases followEntry_eq_some.mp hf with ⟨rfl, -⟩ | ⟨hl, -, -⟩
    · exact .inl rfl
    · exact .inr hl

/-- A path below the root needs the root to be a directory. -/
theorem root_dir_of_join {r : Posix.Path} (hr : fs.canonicalize root = .ok r)
    (ht : containedTarget fs root (p.join n) = .ok h) : fs.shape r = some .dir := by
  induction p using VfsPath.induct generalizing h n with
  | hroot =>
    obtain ⟨r', d, hr', hd, hc, -⟩ := containedTarget_join.mp ht
    rw [containedTarget_root, hr] at hd
    cases hd
    rcases (Fs.clear_append_singleton.mp hc).2 with h0 | h0
    · exact absurd h0 (Fs.canonicalize_real hr).1
    · exact h0
  | hjoin p m ih =>
    obtain ⟨r', d, hr', hd, hc, -⟩ := containedTarget_join.mp ht
    exact ih hd

/-- A target is under the canonical root. -/
theorem containedTarget_under {r : Posix.Path} (hr : fs.canonicalize root = .ok r)
    (ht : containedTarget fs root p = .ok h) : r <+: h := by
  induction p using VfsPath.induct generalizing h with
  | hroot =>
    rw [containedTarget_root, hr] at ht
    cases ht
    exact List.prefix_rfl
  | hjoin p n ih =>
    obtain ⟨r', d, hr', hd, -, hf⟩ := containedTarget_join.mp ht
    rw [hr] at hr'
    cases hr'
    rcases followEntry_eq_some.mp hf with ⟨rfl, -⟩ | ⟨-, -, hpre⟩
    · exact (ih hd).trans (List.prefix_append _ _)
    · exact hpre

/-- A component followed to a directory was that directory, or a link to it. -/
theorem followEntry_dir {e : Posix.Path} (hf : followEntry fs root e = some d)
    (hd : fs.shape d = some .dir) :
    (d = e ∧ fs.shape e = some .dir) ∨
      ∃ t, fs.shape e = some (.symlink t) ∧ fs.canonicalize e = .ok d := by
  rcases followEntry_eq_some.mp hf with ⟨rfl, -⟩ | ⟨⟨t, hs⟩, hcan, -⟩
  · exact .inl ⟨rfl, hd⟩
  · exact .inr ⟨t, hs, hcan⟩

/-! ## Stability -/

/-- The target `h` of `fs` is not disturbed in `fs'`: it is still there if it was, above it only
directories appeared, and it did not become a link. -/
structure Undisturbed (fs fs' : Fs) (h : Posix.Path) : Prop where
  real : fs.shape h ≠ none → fs'.Real h
  above : ∀ r s, h = r ++ s → s ≠ [] → fs.shape r = none →
    fs'.shape r = none ∨ fs'.shape r = some .dir
  noLink : ∀ t, fs'.shape h ≠ some (.symlink t)

theorem undisturbed_of_dir (hk : Fs.Keeps fs fs') (hd : fs.shape d = some .dir) :
    Undisturbed fs fs' d where
  real _ := Fs.real_of_dir (Fs.shape_eq_dir.mp (hk.1 d hd))
  above r s hrs hs hnone := by
    subst hrs
    rw [Fs.shape_dir_of_append (by rw [hd]; simp) hs] at hnone
    cases hnone
  noLink t ht := by
    rw [hk.1 d hd] at ht
    cases ht

/-- The parent of an undisturbed missing entry is undisturbed. -/
theorem Undisturbed.parent {m : Bytes} (hk : Fs.Keeps fs fs') (hu : Undisturbed fs fs' (d ++ [m]))
    (hd : fs.shape d = none ∨ fs.shape d = some .dir) : Undisturbed fs fs' d := by
  rcases hd with hd | hd
  · have hd' := hu.above d [m] rfl (by simp) hd
    refine ⟨fun h => absurd hd h, fun r s hrs hs hnone => ?_, ?_⟩
    · exact hu.above r (s ++ [m]) (by simp [hrs]) (by simp) hnone
    · intro t ht
      rcases hd' with h | h <;> rw [ht] at h <;> cases h
  · exact undisturbed_of_dir hk hd

/-- **A target stays the target.** -/
theorem containedTarget_keeps {r : Posix.Path} (hk : Fs.Keeps fs fs')
    (hr : fs.canonicalize root = .ok r) (hr' : fs'.canonicalize root = .ok r)
    (ht : containedTarget fs root p = .ok h) (hu : Undisturbed fs fs' h) :
    containedTarget fs' root p = .ok h := by
  induction p using VfsPath.induct generalizing h with
  | hroot =>
    rw [containedTarget_root, hr] at ht
    cases ht
    exact containedTarget_root.mpr hr'
  | hjoin p n ih =>
    obtain ⟨r₀, d, hr₀, hd, hc, hf⟩ := containedTarget_join.mp ht
    rw [hr] at hr₀
    cases hr₀
    have hdd := (Fs.clear_append_singleton.mp hc).2
    by_cases hl : ∃ t, fs.shape (d ++ [n.bytes]) = some (.symlink t)
    · -- A link: its directory is there, and what it resolves to is still there.
      obtain ⟨t, hs⟩ := hl
      have hdir : fs.shape d = some .dir := Fs.shape_dir_of_append (by rw [hs]; simp) (by simp)
      have hd' := ih hd (undisturbed_of_dir hk hdir)
      have hs' := hk.2 _ t hs
      refine containedTarget_join.mpr ⟨r, d, hr', hd', Fs.clear_of_shape (by rw [hs']; simp), ?_⟩
      rcases followEntry_eq_some.mp hf with ⟨-, hno⟩ | ⟨-, hcan, hpre⟩
      · exact absurd hs (hno t)
      · have hreal := hu.real (Fs.canonicalize_real hcan).1
        exact followEntry_eq_some.mpr
          (.inr ⟨⟨t, hs'⟩, Fs.canonicalize_keeps hk hcan hreal, hpre⟩)
    · have hl' : ∀ t, fs.shape (d ++ [n.bytes]) ≠ some (.symlink t) := fun t ht => hl ⟨t, ht⟩
      rw [followEntry_of_not_link hl'] at hf
      cases hf
      have hud := hu.parent hk hdd
      have hd' := ih hd hud
      have hc' : fs'.Clear (d ++ [n.bytes]) := by
        rw [clear_concat (containedTarget_landed hd')]
        intro c hfile
        rcases hdd with h | h
        · rcases hu.above d [n.bytes] rfl (by simp) h with h' | h' <;> rw [hfile] at h' <;> cases h'
        · rw [hk.1 d h] at hfile
          cases hfile
      exact containedTarget_join.mpr ⟨r, d, hr', hd', hc', followEntry_of_not_link hu.noLink⟩

/-- **Two targets of one path** that are both directories are the same. -/
theorem containedTarget_compat {d' : Posix.Path} (hk : Fs.Compat fs fs')
    (ht : containedTarget fs root p = .ok d) (ht' : containedTarget fs' root p = .ok d')
    (hd : fs.shape d = some .dir) (hd' : fs'.shape d' = some .dir) : d = d' := by
  induction p using VfsPath.induct generalizing d d' with
  | hroot =>
    exact Fs.canonicalize_compat hk (containedTarget_root.mp ht) (containedTarget_root.mp ht') hd hd'
  | hjoin p n ih =>
    obtain ⟨r, x, -, hx, -, hf⟩ := containedTarget_join.mp ht
    obtain ⟨r', x', -, hx', -, hf'⟩ := containedTarget_join.mp ht'
    have hcase := followEntry_dir hf hd
    have hcase' := followEntry_dir hf' hd'
    have hsome : fs.shape (x ++ [n.bytes]) ≠ none := by
      rcases hcase with ⟨-, hs⟩ | ⟨t, hs, -⟩ <;> simp [hs]
    have hsome' : fs'.shape (x' ++ [n.bytes]) ≠ none := by
      rcases hcase' with ⟨-, hs⟩ | ⟨t, hs, -⟩ <;> simp [hs]
    obtain rfl := ih hx hx' (Fs.shape_dir_of_append hsome (by simp))
      (Fs.shape_dir_of_append hsome' (by simp))
    rcases hcase with ⟨rfl, hs⟩ | ⟨t, hs, hcan⟩
    · rcases hcase' with ⟨rfl, -⟩ | ⟨t', hs', -⟩
      · rfl
      · simpa using hk _ _ _ hs hs'
    · rcases hcase' with ⟨rfl, hs'⟩ | ⟨t', hs', hcan'⟩
      · simpa using hk _ _ _ hs hs'
      · exact Fs.canonicalize_compat hk hcan hcan' hd hd'

/-- Two entries of one path, each in a directory, are the same. -/
theorem containedEntry_compat {e e' : Posix.Path} (hk : Fs.Compat fs fs')
    (he : containedEntry fs root (p.join n) = .ok e)
    (he' : containedEntry fs' root (p.join n) = .ok e')
    (hd : fs.shape e.dropLast = some .dir) (hd' : fs'.shape e'.dropLast = some .dir) : e = e' := by
  obtain ⟨d, ht, rfl⟩ := containedEntry_join.mp he
  obtain ⟨d', ht', rfl⟩ := containedEntry_join.mp he'
  rw [List.dropLast_concat] at hd hd'
  rw [containedTarget_compat hk ht ht' hd hd']

end KinVfs
