import KinVfs.Posix.CallSpec
import KinVfs.Posix.Search

/-!
# A tree without one of its entries

`fs.without e` is the tree with nothing at or below `e`. A path that resolves to the same place in it does not lead
through `e`, so it still leads there once the entry is moved away (`canonicalize_ne_notFound`).

A path that does not resolve says where it got stuck (`search`). New directories do not make it resolve as long as
they are not where the missing name is (`walk_grown_error`).
-/

namespace Posix

namespace Fs

variable {fs fs' fs'' : Fs} {e q r p cur : Path} {comps : List Comp} {k : Nat}

/-- The tree with nothing at or below `e`; the root of the tree stays. -/
def without (fs : Fs) (e : Path) : Fs where
  node q := if e ≠ [] ∧ e.isPrefixOf q then none else fs.node q
  support := fs.support
  env := fs.env
  supported := by
    intro p hp
    split at hp
    · cases hp
    · exact fs.supported p hp
  rootDir := by
    rw [if_neg (by rintro ⟨hne, hpre⟩; exact hne (List.prefix_nil.mp (List.isPrefixOf_iff_prefix.mp hpre)))]
    exact fs.rootDir
  closed := by
    intro p n hp
    split at hp
    · cases hp
    · rename_i hno
      rw [if_neg]
      · exact fs.closed p n hp
      · rintro ⟨hne, hpre⟩
        have hle : e <+: p ++ [n] := (List.isPrefixOf_iff_prefix.mp hpre).trans (List.prefix_append p [n])
        exact hno ⟨hne, List.isPrefixOf_iff_prefix.mpr hle⟩
  sized := by
    intro p nd h
    split at h
    · cases h
    · exact fs.sized p nd h

theorem shape_without_of_not_prefix (h : ¬ e <+: q) : (fs.without e).shape q = fs.shape q := by
  have hno : ¬ (e ≠ [] ∧ e.isPrefixOf q = true) := fun hpre => h (List.isPrefixOf_iff_prefix.mp hpre.2)
  simp only [shape, without, if_neg hno]

theorem shape_without_of_prefix (he : e ≠ []) (h : e <+: q) : (fs.without e).shape q = none := by
  have hyes : e ≠ [] ∧ e.isPrefixOf q = true := ⟨he, List.isPrefixOf_iff_prefix.mpr h⟩
  simp only [shape, without, if_pos hyes, Option.map_none]

/-- What the smaller tree has, the tree has. -/
theorem shape_of_without {s : Shape} (h : (fs.without e).shape q = some s) : fs.shape q = some s := by
  simp only [shape, without] at h
  split at h
  · cases h
  · exact h

/-! ## A way that is still there -/

/-- A smaller tree with the same entries. -/
theorem keeps_of_sub (hsub : ∀ q s, fs.shape q = some s → fs'.shape q = some s) : Keeps fs fs' :=
  ⟨fun q => hsub q _, fun q _ => hsub q _⟩

theorem canonicalize_of_sub (hsub : ∀ q s, fs.shape q = some s → fs'.shape q = some s)
    (h : fs.canonicalize p = .ok r) : fs'.canonicalize p = .ok r := by
  have hreal := canonicalize_real h
  obtain ⟨s, hs⟩ := Option.ne_none_iff_exists'.mp hreal.1
  have hs' := hsub r s hs
  exact canonicalize_keeps (keeps_of_sub hsub) h ⟨by simp [hs'], by rw [hs', ← hs]; exact hreal.2⟩

theorem walkWith_ne_notFound {on on' on'' : Path → List UInt8 → List Comp → Except ErrorKind Path}
    (hsame : ∀ q s s', fs.shape q = some s → fs'.shape q = some s' → s = s')
    (hstay : ∀ q s, fs.shape q = some s → fs'.shape q = some s → (∀ c, s ≠ .file c) →
      fs''.shape q = some s ∨ ∃ c, fs''.shape q = some (.file c))
    (hon : ∀ cur t rest, on cur t rest = .ok r → on' cur t rest = .ok r → on'' cur t rest ≠ .error .notFound)
    (hr : fs.shape r = some .dir) (h : walkWith fs on cur comps = .ok r) (h' : walkWith fs' on' cur comps = .ok r) :
    walkWith fs'' on'' cur comps ≠ .error .notFound := by
  induction comps generalizing cur with
  | nil => simp [walkWith]
  | cons c comps ih =>
    cases c with
    | cur =>
      rw [walkWith] at h h' ⊢
      split at h
      · split at h'
        · split
          · exact ih h h'
          · simp
        · cases h'
      · cases h
    | up =>
      rw [walkWith] at h h' ⊢
      split at h
      · split at h'
        · split
          · exact ih h h'
          · simp
        · cases h'
      · cases h
    | name n =>
      rw [walkWith] at h h' ⊢
      split at h
      · split at h'
        · split
          · cases hn : fs.node (cur ++ [n]) with
            | none =>
              rw [hn] at h
              cases h
            | some nd =>
              cases hn' : fs'.node (cur ++ [n]) with
              | none =>
                rw [hn'] at h'
                cases h'
              | some nd' =>
                rw [hn] at h
                rw [hn'] at h'
                have hs : fs.shape (cur ++ [n]) = some nd.shape := by simp [shape, hn]
                have hs' : fs'.shape (cur ++ [n]) = some nd'.shape := by simp [shape, hn']
                have hfile : ∀ c, nd.shape ≠ .file c := by
                  intro c hc
                  cases nd with
                  | file i c =>
                    rw [walkWith_file hn h, shape_eq_file.mpr ⟨i, hn⟩] at hr
                    cases hr
                  | dir i m => cases hc
                  | symlink i t => cases hc
                have heq := hsame _ _ _ hs hs'
                rcases hstay _ _ hs (heq ▸ hs') hfile with hs'' | ⟨c, hs''⟩
                · cases nd with
                  | file i c => exact absurd rfl (hfile c)
                  | dir i m =>
                    obtain ⟨i'', m'', hd⟩ := isDir_iff.mp (shape_eq_dir.mp hs'')
                    rw [hd]
                    cases nd' with
                    | dir i' m' => exact ih h h'
                    | file i' c => cases heq
                    | symlink i' t => cases heq
                  | symlink i t =>
                    obtain ⟨i'', hl⟩ := shape_eq_symlink.mp hs''
                    rw [hl]
                    cases nd' with
                    | symlink i' t' =>
                      cases heq
                      exact hon _ _ _ h h'
                    | file i' c => cases heq
                    | dir i' m => cases heq
                · obtain ⟨i'', hf⟩ := shape_eq_file.mp hs''
                  rw [hf]
                  have hnd : fs''.isDir (cur ++ [n]) = false := by simp [isDir, hf, Node.isDir]
                  cases comps with
                  | nil => simp [walkWith]
                  | cons x comps => cases x <;> simp [walkWith, hnd]
          · simp
        · cases h'
      · cases h

/-- Where a directory is reached in two trees, a tree that has what they share, or a file in its place, does not
miss a name. -/
theorem canonicalize_ne_notFound (hsame : ∀ q s s', fs.shape q = some s → fs'.shape q = some s' → s = s')
    (hstay : ∀ q s, fs.shape q = some s → fs'.shape q = some s → (∀ c, s ≠ .file c) →
      fs''.shape q = some s ∨ ∃ c, fs''.shape q = some (.file c))
    (hr : fs.shape r = some .dir) (h : fs.canonicalize p = .ok r) (h' : fs'.canonicalize p = .ok r) :
    fs''.canonicalize p ≠ .error .notFound := by
  have hwalk : ∀ k cur comps, walk fs k cur comps = .ok r → walk fs' k cur comps = .ok r →
      walk fs'' k cur comps ≠ .error .notFound := by
    intro k
    induction k with
    | zero =>
      intro cur comps
      exact walkWith_ne_notFound hsame hstay (by simp) hr
    | succ k ih =>
      intro cur comps
      refine walkWith_ne_notFound hsame hstay ?_ hr
      intro cur' t rest ht ht'
      split at ht
      · cases ht
      · rename_i hne
        rw [if_neg hne] at ht' ⊢
        exact ih _ _ ht ht'
  exact hwalk _ _ _ h h'

theorem walkWith_lost {on on' : Path → List UInt8 → List Comp → Except ErrorKind Path}
    (hsub : ∀ q s, fs.shape q = some s → fs'.shape q = some s ∨ fs'.shape q = none)
    (hon : ∀ cur t rest, fs'.shape cur = fs.shape cur → on cur t rest = .ok r →
      on' cur t rest = .ok r ∨ on' cur t rest = .error .notFound)
    (hcur : fs'.shape cur = fs.shape cur) (h : walkWith fs on cur comps = .ok r) :
    walkWith fs' on' cur comps = .ok r ∨ walkWith fs' on' cur comps = .error .notFound := by
  have hdir : ∀ {q}, fs'.shape q = fs.shape q → fs'.isDir q = fs.isDir q := by
    intro q hq
    rw [Bool.eq_iff_iff, ← shape_eq_dir, ← shape_eq_dir, hq]
  induction comps generalizing cur with
  | nil => exact .inl h
  | cons c comps ih =>
    cases c with
    | cur =>
      rw [walkWith] at h
      rw [walkWith, hdir hcur]
      split at h
      · rename_i hd
        rw [if_pos hd]
        exact ih hcur h
      · cases h
    | up =>
      rw [walkWith] at h
      rw [walkWith, hdir hcur]
      split at h
      · rename_i hd
        rw [if_pos hd]
        refine ih ?_ h
        rw [shape_eq_dir.mpr (isDir_dropLast hd), shape_eq_dir.mpr (isDir_dropLast ((hdir hcur).trans hd))]
      · cases h
    | name n =>
      rw [walkWith] at h
      rw [walkWith, hdir hcur]
      split at h
      · rename_i hd
        rw [if_pos hd]
        cases hn : fs.node (cur ++ [n]) with
        | none =>
          rw [hn] at h
          cases h
        | some nd =>
          rw [hn] at h
          have hs : fs.shape (cur ++ [n]) = some nd.shape := by simp [shape, hn]
          rcases hsub _ _ hs with hs' | hnone
          · cases nd with
            | file i c =>
              obtain ⟨i', hf⟩ := shape_eq_file.mp hs'
              rw [hf]
              exact ih (hs'.trans hs.symm) h
            | dir i m =>
              obtain ⟨i', m', hd'⟩ := isDir_iff.mp (shape_eq_dir.mp hs')
              rw [hd']
              exact ih (hs'.trans hs.symm) h
            | symlink i t =>
              obtain ⟨i', hl⟩ := shape_eq_symlink.mp hs'
              rw [hl]
              exact hon _ _ _ hcur h
          · rw [shape_eq_none.mp hnone]
            exact .inr rfl
      · cases h

/-- When entries disappear, a path leads where it led or misses a name. -/
theorem canonicalize_lost (hsub : ∀ q s, fs.shape q = some s → fs'.shape q = some s ∨ fs'.shape q = none)
    (h : fs.canonicalize p = .ok r) : fs'.canonicalize p = .ok r ∨ fs'.canonicalize p = .error .notFound := by
  have hwalk : ∀ k cur comps, fs'.shape cur = fs.shape cur → walk fs k cur comps = .ok r →
      walk fs' k cur comps = .ok r ∨ walk fs' k cur comps = .error .notFound := by
    intro k
    induction k with
    | zero =>
      intro cur comps hcur
      exact walkWith_lost hsub (by simp) hcur
    | succ k ih =>
      intro cur comps hcur
      refine walkWith_lost hsub ?_ hcur
      intro cur' t rest hcur' ht
      split at ht
      · cases ht
      · rename_i hne
        rw [if_neg hne]
        refine ih _ _ ?_ ht
        split
        · rw [shape_root, shape_root]
        · exact hcur'
  exact hwalk _ _ _ (by rw [shape_root, shape_root]) h

/-! ## A way that leads nowhere -/

/-- The names that are new in `fs'` are below `r`. -/
def GrownBelow (fs fs' : Fs) (r : Path) : Prop :=
  ∀ q, fs'.shape q = fs.shape q ∨ fs.shape q = none ∧ r <+: q.dropLast

theorem searchWith_grown_error {on : Path → Name → List UInt8 → List Comp → Except Stuck Path}
    {on' : Path → List UInt8 → List Comp → Except ErrorKind Path} {s : Stuck} (hg : GrownBelow fs fs' r)
    (hon : ∀ cur n t rest, fs.shape cur ≠ none → on cur n t rest = .error s → on' cur t rest = .error s.kind)
    (hs : s.kind = .notFound → ¬ r <+: s.place) (hcur : fs.shape cur ≠ none)
    (h : searchWith fs true on cur comps = .error s) : walkWith fs' on' cur comps = .error s.kind := by
  have hdir : ∀ {q}, fs.shape q ≠ none → fs'.isDir q = fs.isDir q := by
    intro q hq
    have hsame : fs'.shape q = fs.shape q := (hg q).resolve_right fun hnone => hq hnone.1
    rw [Bool.eq_iff_iff, ← shape_eq_dir, ← shape_eq_dir, hsame]
  induction comps generalizing cur with
  | nil => cases h
  | cons c comps ih =>
    cases c with
    | cur =>
      rw [searchWith] at h
      rw [walkWith, hdir hcur]
      split at h
      · rename_i hd
        rw [if_pos hd]
        exact ih hcur h
      · rename_i hd
        rw [if_neg hd]
        cases h
        rfl
    | up =>
      rw [searchWith] at h
      rw [walkWith, hdir hcur]
      split at h
      · rename_i hd
        rw [if_pos hd]
        have hup : fs.shape cur.dropLast ≠ none := by
          rw [shape_eq_dir.mpr (isDir_dropLast hd)]
          simp
        exact ih hup h
      · rename_i hd
        rw [if_neg hd]
        cases h
        rfl
    | name n =>
      rw [searchWith] at h
      rw [walkWith, hdir hcur]
      split at h
      · rename_i hd
        rw [if_pos hd]
        rw [if_neg (by simp)] at h
        rcases hg (cur ++ [n]) with hsame | ⟨hnone, hbelow⟩
        · cases hn : fs.node (cur ++ [n]) with
          | none =>
            rw [hn] at h
            have hn' : fs'.node (cur ++ [n]) = none := by
              rw [← shape_eq_none, hsame, shape_eq_none]
              exact hn
            rw [hn']
            cases h
            rfl
          | some nd =>
            rw [hn] at h
            have hs₁ : fs.shape (cur ++ [n]) = some nd.shape := by simp [shape, hn]
            have hnext : fs.shape (cur ++ [n]) ≠ none := by simp [hs₁]
            rw [hs₁] at hsame
            cases nd with
            | file i c =>
              obtain ⟨i', hf⟩ := shape_eq_file.mp hsame
              rw [hf]
              exact ih hnext h
            | dir i m =>
              obtain ⟨i', m', hd'⟩ := isDir_iff.mp (shape_eq_dir.mp hsame)
              rw [hd']
              exact ih hnext h
            | symlink i t =>
              obtain ⟨i', hl⟩ := shape_eq_symlink.mp hsame
              rw [hl]
              exact hon _ _ _ _ hcur h
        · -- A name that is missing below `r` is where the search would be stuck.
          rw [shape_eq_none.mp hnone] at h
          cases h
          rw [List.dropLast_concat] at hbelow
          exact absurd hbelow (hs rfl)
      · rename_i hd
        rw [if_neg hd]
        cases h
        rfl

/-- A path that is stuck elsewhere than at a name missing below `r` stays stuck when directories are made there. -/
theorem walk_grown_error {s : Stuck} (hg : GrownBelow fs fs' r) (hs : s.kind = .notFound → ¬ r <+: s.place)
    (h : search fs true maxLinks [] (p.map .name) = .error s) : fs'.canonicalize p = .error s.kind := by
  have hwalk : ∀ k cur comps, fs.shape cur ≠ none → search fs true k cur comps = .error s →
      walk fs' k cur comps = .error s.kind := by
    intro k
    induction k with
    | zero =>
      intro cur comps hcur hk
      refine searchWith_grown_error hg ?_ hs hcur hk
      intro _ _ _ _ _ hloop
      cases hloop
      rfl
    | succ k ih =>
      intro cur comps hcur hk
      refine searchWith_grown_error hg ?_ hs hcur hk
      intro cur' n t rest hcur' ht
      split at ht
      · rename_i hnil
        rw [if_pos hnil]
        cases ht
        rfl
      · rename_i hne
        rw [if_neg hne]
        refine ih _ _ ?_ ht
        split
        · rw [shape_root]
          simp
        · exact hcur'
  exact hwalk _ _ _ (by rw [shape_root]; simp) h

end Fs

/-- The directories made on the way down to a place below `r` are below `r`. -/
theorem Grown.below {fs fs' : Fs} {r q : Path} (hg : Grown fs fs' q) (hr : fs.shape r ≠ none) (hq : r <+: q) :
    Fs.GrownBelow fs fs' r := by
  intro s
  rw [hg]
  split
  · rename_i hnew
    refine .inr ⟨hnew.2, ?_⟩
    -- Of two prefixes of `q` the one that is there is the shorter one.
    rcases List.prefix_or_prefix_of_prefix hnew.1 hq with hle | ⟨u, rfl⟩
    · exact absurd hnew.2 (Fs.shape_of_prefix hr hle)
    · have hu : u ≠ [] := by
        rintro rfl
        rw [List.append_nil] at hnew
        exact hr hnew.2
      rw [List.dropLast_append_of_ne_nil hu]
      exact List.prefix_append _ _
  · exact .inl rfl

end Posix
