import KinVfs.Posix.Lexical
import KinVfs.Shim.KeyWalk

/-!
# Where a link target maps

With one workspace root at the components `base`, the key of a target is what is left of its folded
path below `base`; a target that folds to another place, or climbs over `/`, has none.
-/

namespace KinVfs

open Posix (Fs)
open Posix.Fs (Comp climb climb? linkStart targetComps)

/-- The bytes of an absolute path. -/
def pathBytes (p : Posix.Path) : Bytes := if p = [] then [slash] else p.flatMap (slash :: ·)

theorem splitOn_flatMap {p : Posix.Path} (hne : p ≠ []) (h : ∀ c ∈ p, slash ∉ c) :
    (p.flatMap (slash :: ·)).splitOn slash = [] :: p := by
  induction p with
  | nil => exact absurd rfl hne
  | cons c p ih =>
    have hc : c.splitOn slash = [c] := List.splitOn_eq_singleton (h c (by simp))
    have hhead : ∀ r : Bytes, (slash :: r).splitOn slash = [] :: r.splitOn slash := by
      intro r
      exact List.splitOn_append_cons_self [] r
    rw [List.flatMap_cons, List.cons_append, hhead]
    cases p with
    | nil => simp [hc]
    | cons d p =>
      have := ih (by simp) fun e he => h e (by simp [he])
      rw [List.flatMap_cons, List.cons_append, hhead] at this
      rw [List.flatMap_cons, List.cons_append, List.splitOn_append_cons_self, hc]
      rw [List.cons_append, List.nil_append, (List.cons.inj this).2]

/-- An absolute path of valid names has these components. -/
theorem hostComponents_pathBytes {p : Posix.Path} (h : ∀ c ∈ p, IsComponent c) :
    hostComponents (pathBytes p) = .ok (none, p) := by
  rw [hostComponents_unix]
  unfold pathBytes
  by_cases hne : p = []
  · subst hne
    exact ⟨rfl, rfl⟩
  · rw [if_neg hne]
    refine ⟨?_, ?_⟩
    · obtain ⟨c, p, rfl⟩ := List.exists_cons_of_ne_nil hne
      rfl
    · rw [splitOn_flatMap hne fun c hc => (h c hc).2]
      exact foldlM_pushComponent fun c hc => (h c hc).1

/-- The two loops agree on a path that the stricter one accepts. -/
theorem foldComponent_of_push {cs acc r : List Bytes} (h : cs.foldlM pushComponent acc = .ok r) :
    cs.foldlM foldComponent acc = some r := by
  induction cs generalizing acc with
  | nil =>
    cases h
    rfl
  | cons c cs ih =>
    rw [List.foldlM_cons] at h ⊢
    unfold pushComponent at h
    unfold foldComponent
    split at h
    · rename_i hc
      rw [if_pos hc]
      exact ih h
    · rename_i hc
      rw [if_neg hc]
      split at h
      · cases h
      · rename_i hup
        rw [if_neg hup]
        split at h
        · cases h
        · exact ih h

/-- The fold of the source is `climb?`. -/
theorem foldlM_foldComponent (t : Bytes) (acc : List Bytes) :
    (t.splitOn slash).foldlM foldComponent acc = climb? acc (targetComps t) := by
  unfold targetComps
  show _ = climb? acc ((t.splitOn slash).map _)
  induction t.splitOn slash generalizing acc with
  | nil => rfl
  | cons c cs ih =>
    rw [List.foldlM_cons, List.map_cons]
    by_cases hc : c = [] ∨ c = [dot]
    · have hstep : foldComponent acc c = some acc := if_pos hc
      rw [hstep, if_pos (show c = [] ∨ c = [46] from hc), climb?]
      exact ih acc
    · rw [if_neg (show ¬ (c = [] ∨ c = [46]) from hc)]
      by_cases hup : c = [dot, dot]
      · have hstep : foldComponent acc c = if acc = [] then none else some acc.dropLast := by
          unfold foldComponent
          rw [if_neg hc, if_pos hup]
        rw [hstep, if_pos (show c = [46, 46] from hup), climb?]
        split
        · rfl
        · exact ih _
      · have hstep : foldComponent acc c = some (acc ++ [c]) := by
          unfold foldComponent
          rw [if_neg hc, if_neg hup]
        rw [hstep, if_neg (show ¬ c = [46, 46] from hup), climb?]
        exact ih _

theorem mem_joinComponents {cs : List Bytes} {c : Bytes} {b : UInt8} (h : c ∈ cs) (hb : b ∈ c) :
    b ∈ joinComponents cs := by
  induction cs with
  | nil => cases h
  | cons d ds ih =>
    cases ds with
    | nil =>
      rw [List.mem_singleton] at h
      simpa [← h] using hb
    | cons e es =>
      unfold joinComponents at ih ⊢
      rw [List.intercalate_cons_cons]
      rcases List.mem_cons.mp h with rfl | h
      · simp [hb]
      · simp [ih h]

theorem mem_of_mem_splitOn {bytes c : Bytes} {b : UInt8} (h : c ∈ bytes.splitOn slash) (hb : b ∈ c) :
    b ∈ bytes := by
  have hjoin : joinComponents (bytes.splitOn slash) = bytes := by simp [joinComponents]
  rw [← hjoin]
  exact mem_joinComponents h hb

/-- A name of a target without NUL is a component. -/
theorem isComponent_of_target {t n : Bytes} (h0 : 0 ∉ t) (hn : n ∈ Posix.names (targetComps t)) :
    IsComponent n := by
  obtain ⟨c, hc, heq⟩ := List.mem_map.mp (Posix.mem_names.mp hn)
  split at heq
  · cases heq
  · rename_i h1
    split at heq
    · cases heq
    · rename_i h2
      cases heq
      rw [not_or] at h1
      refine ⟨validateComponent_ok.mpr ⟨h1.1, h1.2, h2, fun hz => h0 (mem_of_mem_splitOn hc hz)⟩, ?_⟩
      exact slash_not_mem_splitOn hc

theorem isComponent_of_push {cs acc r : List Bytes} (h : cs.foldlM pushComponent acc = .ok r)
    (hacc : ∀ c ∈ acc, IsComponent c) (hcs : ∀ c ∈ cs, slash ∉ c) : ∀ c ∈ r, IsComponent c := by
  induction cs generalizing acc with
  | nil =>
    cases h
    exact hacc
  | cons c cs ih =>
    rw [List.forall_mem_cons] at hcs
    rw [List.foldlM_cons] at h
    cases hp : pushComponent acc c with
    | error e =>
      rw [hp] at h
      cases h
    | ok acc' =>
      rw [hp] at h
      refine ih h ?_ hcs.2
      unfold pushComponent at hp
      split at hp
      · cases hp
        exact hacc
      · rename_i h1
        split at hp
        · cases hp
        · rename_i h2
          split at hp
          · cases hp
          · rename_i h3
            cases hp
            rw [not_or] at h1
            intro d hd
            rcases List.mem_append.mp hd with hd | hd
            · exact hacc d hd
            · rw [List.mem_singleton.mp hd]
              exact ⟨validateComponent_ok.mpr ⟨h1.1, h1.2, h2, by simpa using h3⟩, hcs.1⟩

section Root

variable {root : Bytes} {base : Posix.Path}

theorem isComponent_base (h : hostComponents root = .ok (none, base)) : ∀ c ∈ base, IsComponent c :=
  isComponent_of_push (hostComponents_unix.mp h).2 (by simp) fun _ hc => slash_not_mem_splitOn hc

theorem hostComponents_hostPath (h : hostComponents root = .ok (none, base)) (here : VfsPath) :
    hostComponents (hostPath root here) = .ok (none, base ++ here.components) := by
  unfold hostPath
  split
  · rename_i hroot
    rw [VfsPath.isRoot_iff] at hroot
    simpa [hroot] using h
  · exact hostComponents_joinAtPath h here

/-- The normalized path of a target. -/
theorem normalize_target (h : hostComponents root = .ok (none, base)) (here : VfsPath) (t : Bytes) :
    normalizeGraphPath (joinAtPath (hostPath root here) t) =
      (climb? (linkStart (base ++ here.components) t) (targetComps t)).map pathBytes := by
  have hhere := hostComponents_unix.mp (hostComponents_hostPath h here)
  have hrender : ∀ cs : Option (List Bytes), (do
      let components ← cs
      let normalized := components.flatMap (slash :: ·)
      return if normalized = [] then [slash] else normalized) = cs.map pathBytes := by
    intro cs
    cases cs with
    | none => rfl
    | some cs =>
      cases cs with
      | nil => rfl
      | cons c cs => rfl
  unfold normalizeGraphPath joinAtPath linkStart
  by_cases ht : t.head? = some slash
  · rw [if_pos ht, if_neg (by simp [ht]), if_pos (show t.head? = some 47 from ht), hrender,
      foldlM_foldComponent]
  · rw [if_neg ht, if_neg (show ¬ t.head? = some 47 from ht), hrender]
    have hhead : (hostPath root here ++ slash :: t).head? = some slash := by
      cases hb : hostPath root here with
      | nil => rfl
      | cons b bs => rw [hb] at hhere; exact hhere.1
    rw [if_neg (by simp [hhead]), List.splitOn_append_cons_self, List.foldlM_append,
      foldComponent_of_push hhere.2]
    show (_ : Option _).map pathBytes = _
    rw [← foldlM_foldComponent]
    rfl

theorem workspaceGraphKey_outside {p : Posix.Path} (h : hostComponents root = .ok (none, base))
    (hp : ∀ c ∈ p, IsComponent c) (hout : ¬ base <+: p) :
    workspaceGraphKey (pathBytes p) root = .error .outsideRoot := by
  have hm : rootMatches none p base = false := by
    rw [Bool.eq_false_iff]
    exact fun hm => hout (List.isPrefixOf_iff_prefix.mp hm)
  unfold workspaceGraphKey
  rw [hostComponents_pathBytes hp, h]
  simp only [bind, Except.bind, samePrefix, hm]
  simp [throw, throwThe, MonadExceptOf.throw]

/-- With one root, its own mapping decides. -/
theorem workspaceGraphKeyFromRoots_single (path : Bytes) :
    workspaceGraphKeyFromRoots path [root] = workspaceGraphKey path root := by
  unfold workspaceGraphKeyFromRoots tryRoot
  rw [List.foldlM_cons]
  cases workspaceGraphKey path root with
  | ok key => rfl
  | error e => cases e <;> rfl

/-- A target that folds to a place below the root maps to the key of that place. -/
theorem targetKey_inside (h : hostComponents root = .ok (none, base)) {here key : VfsPath} {t : Bytes}
    (h0 : 0 ∉ t) (hne : t ≠ [])
    (hc : climb? (linkStart (base ++ here.components) t) (targetComps t) =
      some (base ++ key.components)) :
    targetKey [root] (hostPath root here) t = .ok key := by
  have hp : ∀ c ∈ base ++ key.components, IsComponent c := by
    intro c hmem
    rcases List.mem_append.mp hmem with hmem | hmem
    · exact isComponent_base h c hmem
    · exact key.isComponent hmem
  unfold targetKey
  rw [if_neg (by simp [h0, hne]), normalize_target h, hc]
  dsimp only [Option.map]
  rw [workspaceGraphKeyFromRoots_single, workspaceGraphKey_of_components h (hostComponents_pathBytes hp)]
  rfl

/-- A target that folds to another place has no key. -/
theorem targetKey_outside (h : hostComponents root = .ok (none, base)) {here : VfsPath} {t : Bytes}
    (hout : ¬ base <+: climb (linkStart (base ++ here.components) t) (targetComps t)) :
    ∃ e, targetKey [root] (hostPath root here) t = .error e := by
  unfold targetKey
  split
  · exact ⟨_, rfl⟩
  · rename_i ht
    rw [not_or] at ht
    rw [normalize_target h]
    cases hc : climb? (linkStart (base ++ here.components) t) (targetComps t) with
    | none => exact ⟨_, rfl⟩
    | some p =>
      rw [Posix.Fs.climb_of_climb? hc] at hout
      have hp : ∀ c ∈ p, IsComponent c := by
        intro c hmem
        rcases Posix.Fs.mem_climb? hc hmem with hstart | hname
        · unfold linkStart at hstart
          split at hstart
          · cases hstart
          · rcases List.mem_append.mp hstart with hstart | hstart
            · exact isComponent_base h c hstart
            · exact here.isComponent hstart
        · exact isComponent_of_target (by simpa using ht.1) hname
      dsimp only [Option.map]
      rw [workspaceGraphKeyFromRoots_single, workspaceGraphKey_outside h hp hout]
      exact ⟨_, rfl⟩

end Root
end KinVfs
