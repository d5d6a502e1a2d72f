import KinVfs.Shim.RoundTrip
import KinVfs.Shim.Targets

/-!
# The walk and POSIX resolution

`Mounted` says that a file tree shows the snapshot at the components `base` of the workspace root.
The walk folds a link target before it resolves it, so it agrees with the resolution of the same path
on that tree as long as each target it takes folds soundly (`Posix.Fs.straight`) and no trailing `.` or
`/` stands at a file: `matches_tour` is the simulation, one link at a time.
-/

namespace KinVfs

open Fallible
open Posix (Fs Level names)
open Posix.Fs (Comp Visit Tour tour tourWith straight climb linkStart targetComps folds isLeave)

/-- `fs` has the tree of `g` at `base`. A repository boundary is not served and has no entry. -/
structure Mounted (fs : Fs) (base : Posix.Path) (g : ContentProvider) : Prop where
  dir : fs.isDir base = true
  link : ∀ key stat, g.stat key = .ok stat → stat.isSymlink = true →
    ∃ i t, g.readLink key = .ok t ∧ fs.node (base ++ key.components) = some (.symlink i t)
  directory : ∀ key stat, g.stat key = .ok stat → stat.isSymlink = false → stat.isDir = true →
    fs.isDir (base ++ key.components) = true
  file : ∀ key stat, g.stat key = .ok stat → stat.isSymlink = false → stat.isDir = false →
    ∃ i c, fs.node (base ++ key.components) = some (.file i c)
  absent : ∀ key e, g.stat key = .error e → fs.node (base ++ key.components) = none
  /-- The names of a file tree are components. -/
  named : ∀ n, fs.Occurs n → IsComponent n

/-- The walk ends in `r` where the resolution is `t`. -/
structure Matches (base : Posix.Path) (g : ContentProvider) (t : Tour)
    (r : Except GraphPathError (VfsPath × VirtualStat)) : Prop where
  same : ∀ l, t.2 = .ok l → (∀ v ∈ t.1, isLeave v = false) →
    ∃ key stat, l = base ++ key.components ∧ g.stat key = .ok stat ∧ r = .ok (key, stat)
  fails : t.2 = .error .notFound ∨ t.2 = .error .notADirectory → ∃ e, r = .error e

section

variable {fs : Fs} {base : Posix.Path} {g : ContentProvider}

theorem matches_error {t : Tour} {r : Except GraphPathError (VfsPath × VirtualStat)}
    {e : Posix.ErrorKind} {e' : GraphPathError} (ht : t.2 = .error e) (hr : r = .error e') :
    Matches base g t r where
  same l hl := by
    rw [ht] at hl
    cases hl
  fails _ := ⟨e', hr⟩

theorem Mounted.isDirectory (hm : Mounted fs base g) {key : VfsPath}
    (hd : fs.isDir (base ++ key.components) = true) : IsDirectory g key := by
  obtain ⟨i, n, hnode⟩ := Posix.Fs.isDir_iff.mp hd
  cases hs : g.stat key with
  | error e =>
    rw [hm.absent key e hs] at hnode
    cases hnode
  | ok stat =>
    refine ⟨stat, hs, ?_⟩
    cases hl : stat.isSymlink with
    | true =>
      obtain ⟨i', t, -, hnode'⟩ := hm.link key stat hs hl
      rw [hnode'] at hnode
      cases hnode
    | false =>
      refine ⟨?_, rfl⟩
      cases hdir : stat.isDir with
      | true => rfl
      | false =>
        obtain ⟨i', c, hnode'⟩ := hm.file key stat hs hl hdir
        rw [hnode'] at hnode
        cases hnode

theorem names_eq_nil_of_map {comps : List Comp} {ns : List VfsName}
    (h : names comps = ns.map (·.bytes)) : names comps = [] ↔ ns = [] := by
  rw [h, List.map_eq_nil_iff]

/-- A directory with no names left is where both end. -/
theorem tourWith_end {onTour : Posix.Path → List UInt8 → List Comp → Tour} {rest : List Comp}
    {q : Posix.Path} (hl : Level rest) (hn : names rest = []) (hd : fs.isDir q = true) :
    tourWith fs onTour q rest = ([], .ok q) := by
  have hend : tourWith fs onTour q (rest ++ []) = tourWith fs onTour (q ++ names rest) [] :=
    Posix.Fs.tourWith_dirs hl (by simpa [hn] using hd)
  rw [List.append_nil, hn, List.append_nil] at hend
  rw [hend, tourWith]

/-- A file ends the resolution, well when nothing is left and with an error otherwise. -/
theorem tourWith_file {onTour : Posix.Path → List UInt8 → List Comp → Tour} {rest : List Comp}
    {q : Posix.Path} (hl : Level rest) (hd : fs.isDir q = false)
    (hv : ∀ v ∈ (tourWith fs onTour q rest).1, folds fs v) :
    names rest = [] ∧ tourWith fs onTour q rest = ([], .ok q) ∨
      names rest ≠ [] ∧ (tourWith fs onTour q rest).2 = .error .notADirectory := by
  cases rest with
  | nil => exact .inl ⟨rfl, rfl⟩
  | cons c rest =>
    have hq : ¬ fs.isDir q = true := by simp [hd]
    cases c with
    | up => exact absurd List.mem_cons_self hl
    | name m =>
      right
      rw [tourWith, if_neg hq]
      exact ⟨by simp, rfl⟩
    | cur =>
      rw [tourWith, if_neg hq] at hv ⊢
      by_cases h0 : names rest = []
      · rw [if_pos h0] at hv
        exact absurd (hv _ List.mem_cons_self) id
      · exact .inr ⟨h0, rfl⟩

/-- Between two links, the walk and the resolution go together. -/
theorem matches_with (hm : Mounted fs base g)
    {onTour : Posix.Path → List UInt8 → List Comp → Tour}
    {onLink : VfsPath → VfsName → List VfsName → Except GraphPathError (VfsPath × VirtualStat)}
    (hon : ∀ here n rest ns t, fs.isDir (base ++ here.components) = true → Level rest →
      names rest = ns.map (·.bytes) → g.readLink (VfsPath.join here n) = .ok t →
      (∀ v ∈ (onTour (base ++ here.components) t rest).1, folds fs v) →
      Matches base g (onTour (base ++ here.components) t rest) (onLink here n ns))
    (comps : List Comp) (here : VfsPath) (ns : List VfsName) (hl : Level comps)
    (hn : names comps = ns.map (·.bytes)) (hne : ns ≠ [])
    (hd : fs.isDir (base ++ here.components) = true)
    (hv : ∀ v ∈ (tourWith fs onTour (base ++ here.components) comps).1, folds fs v) :
    Matches base g (tourWith fs onTour (base ++ here.components) comps)
      (keyWalkWith g onLink here ns) := by
  induction comps generalizing here ns with
  | nil => exact absurd (List.map_eq_nil_iff.mp hn.symm) hne
  | cons c rest ih =>
    cases c with
    | up => exact absurd List.mem_cons_self hl
    | cur =>
      rw [tourWith, if_pos hd] at hv ⊢
      exact ih here ns hl.tail hn hne hd hv
    | name m =>
      obtain ⟨n, ns, rfl⟩ := List.exists_cons_of_ne_nil hne
      obtain ⟨rfl, hrest⟩ := List.cons.inj hn
      have hpath : base ++ here.components ++ [n.bytes] = base ++ (here.join n).components := by
        rw [VfsPath.components_join, List.append_assoc]
      rw [tourWith, if_pos hd, hpath] at hv ⊢
      cases hs : g.stat (here.join n) with
      | error e =>
        rw [hm.absent _ e hs]
        obtain ⟨e', he'⟩ : ∃ e', keyWalkWith g onLink here (n :: ns) = .error e' := by
          rw [keyWalkWith, hs]
          cases e <;> exact ⟨_, rfl⟩
        exact matches_error rfl he'
      | ok stat =>
        cases hlink : stat.isSymlink with
        | true =>
          obtain ⟨i, t, hread, hnode⟩ := hm.link _ stat hs hlink
          rw [hnode] at hv ⊢
          rw [keyWalkWith, hs]
          simp only [hlink, ↓reduceIte]
          exact hon here n rest ns t hd hl.tail hrest hread hv
        | false =>
          have hlast : ns = [] → keyWalkWith g onLink here (n :: ns) = .ok (here.join n, stat) := by
            intro h0
            rw [keyWalkWith, hs]
            simp [hlink, h0]
          cases hdir : stat.isDir with
          | true =>
            have hd' := hm.directory _ stat hs hlink hdir
            obtain ⟨i, k, hnode⟩ := Posix.Fs.isDir_iff.mp hd'
            rw [hnode] at hv ⊢
            by_cases h0 : ns = []
            · dsimp only
              rw [tourWith_end hl.tail ((names_eq_nil_of_map hrest).mpr h0) hd', hlast h0]
              refine ⟨fun l hl' _ => ⟨here.join n, stat, ?_, hs, rfl⟩, by rintro (h | h) <;> cases h⟩
              exact (Except.ok.inj hl').symm
            · rw [keyWalkWith_dir ⟨stat, hs, hdir, hlink⟩ h0]
              exact ih (here.join n) ns hl.tail hrest h0 hd' hv
          | false =>
            obtain ⟨i, c, hnode⟩ := hm.file _ stat hs hlink hdir
            have hfile : fs.isDir (base ++ (here.join n).components) = false := by
              unfold Fs.isDir
              rw [hnode]
              rfl
            rw [hnode] at hv ⊢
            rcases tourWith_file hl.tail hfile hv with ⟨h0, ht⟩ | ⟨h0, ht⟩
            · dsimp only
              rw [ht, hlast ((names_eq_nil_of_map hrest).mp h0)]
              refine ⟨fun l hl' _ => ⟨here.join n, stat, ?_, hs, rfl⟩, by rintro (h | h) <;> cases h⟩
              exact (Except.ok.inj hl').symm
            · have hne' : ns ≠ [] := fun h => h0 ((names_eq_nil_of_map hrest).mpr h)
              have hr : keyWalkWith g onLink here (n :: ns) = .error .notDirectory := by
                rw [keyWalkWith, hs]
                simp [hlink, hdir, hne']
              exact matches_error ht hr

/-! ## At a link -/

/-- A piece of a target with NUL is a name. -/
theorem exists_name_of_nul {t : Bytes} (h0 : 0 ∈ t) : ∃ n ∈ names (targetComps t), 0 ∈ n := by
  have hpiece : ∃ c ∈ t.splitOn slash, 0 ∈ c := by
    induction t with
    | nil => cases h0
    | cons b t ih =>
      rw [List.splitOn_cons_eq_if_modifyHead]
      split
      · rename_i hb
        rcases List.mem_cons.mp h0 with h0 | h0
        · rw [beq_iff_eq, ← h0] at hb
          exact absurd hb (by decide)
        · obtain ⟨c, hc, hz⟩ := ih h0
          exact ⟨c, List.mem_cons_of_mem _ hc, hz⟩
      · cases hs : t.splitOn slash with
        | nil => exact absurd hs (List.splitOn_ne_nil _ _)
        | cons d ds =>
          rw [List.modifyHead_cons]
          rcases List.mem_cons.mp h0 with h0 | h0
          · exact ⟨b :: d, List.mem_cons_self, by simp [h0]⟩
          · obtain ⟨c, hc, hz⟩ := ih h0
            rw [hs] at hc
            rcases List.mem_cons.mp hc with rfl | hc
            · exact ⟨b :: c, List.mem_cons_self, List.mem_cons_of_mem _ hz⟩
            · exact ⟨c, List.mem_cons_of_mem _ hc, hz⟩
  obtain ⟨c, hc, hz⟩ := hpiece
  refine ⟨c, Posix.mem_names.mpr (List.mem_map.mpr ⟨c, hc, ?_⟩), hz⟩
  rw [if_neg, if_neg]
  · rintro rfl
    simp at hz
  · rintro (rfl | rfl) <;> simp at hz

/-- A resolution that succeeds has no target with NUL before it. -/
theorem nul_not_mem_of_walk (hm : Mounted fs base g) {k : Nat} {q l : Posix.Path} {t : Bytes}
    {rest : List Comp} (h : fs.walk k q (targetComps t ++ rest) = .ok l) : 0 ∉ t := by
  intro h0
  obtain ⟨n, hn, hz⟩ := exists_name_of_nul h0
  have hocc := Posix.Fs.walk_occurs h n (by simp [hn])
  exact (validateComponent_ok.mp (hm.named n hocc).1).2.2.2 hz

/-- Directories of the tree are walked through. -/
theorem keyWalkWith_through (hm : Mounted fs base g)
    {onLink : VfsPath → VfsName → List VfsName → Except GraphPathError (VfsPath × VirtualStat)}
    {d : VfsPath} (hd : fs.isDir (base ++ d.components) = true) {rest : List VfsName}
    (hne : rest ≠ []) :
    keyWalkWith g onLink .root (d.names ++ rest) = keyWalkWith g onLink d rest := by
  induction d using VfsPath.induct generalizing rest with
  | hroot => rfl
  | hjoin p n ih =>
    have hp : fs.isDir (base ++ p.components) = true := by
      rw [VfsPath.components_join, ← List.append_assoc] at hd
      simpa using Posix.Fs.isDir_dropLast hd
    rw [VfsPath.names_join, List.append_assoc, ih hp (by simp)]
    exact keyWalkWith_dir (hm.isDirectory hd) hne

/-- A directory is where the walk of its own path ends. -/
theorem keyWalkWith_self (hm : Mounted fs base g)
    {onLink : VfsPath → VfsName → List VfsName → Except GraphPathError (VfsPath × VirtualStat)}
    {d : VfsPath} (hd : fs.isDir (base ++ d.components) = true) (hne : d ≠ .root) :
    ∃ stat, g.stat d = .ok stat ∧ keyWalkWith g onLink .root d.names = .ok (d, stat) := by
  obtain ⟨p, n, rfl⟩ : ∃ p n, d = VfsPath.join p n := (VfsPath.root_or_join d).resolve_left hne
  obtain ⟨stat, hs, hdir, hlink⟩ := hm.isDirectory hd
  have hp : fs.isDir (base ++ p.components) = true := by
    rw [VfsPath.components_join, ← List.append_assoc] at hd
    simpa using Posix.Fs.isDir_dropLast hd
  refine ⟨stat, hs, ?_⟩
  rw [VfsPath.names_join, keyWalkWith_through hm hp (by simp), keyWalkWith, hs]
  simp [hlink]

/-- After a sound target, the resolution stands at a directory of the workspace with the rest of the
target's key before it. -/
theorem tour_target (hm : Mounted fs base g) {start : Posix.Path} {comps : List Comp}
    {target : VfsPath} (hstart : fs.isDir start = true) (hs : straight fs start comps = true)
    (htarget : climb start comps = base ++ target.components) :
    ∃ (d : VfsPath) (tail : List Comp) (ns : List VfsName),
      fs.isDir (base ++ d.components) = true ∧ Level tail ∧ names tail = ns.map (·.bytes) ∧
      target.names = d.names ++ ns ∧
      ∀ onTour rest, tourWith fs onTour start (comps ++ rest) =
        tourWith fs onTour (base ++ d.components) (tail ++ rest) := by
  obtain ⟨q, tail, hq, hlevel, heq, hall⟩ := Posix.Fs.tourWith_target hstart hs
  rw [htarget] at heq
  rcases List.append_eq_append_iff.mp heq with ⟨as, hbase, -⟩ | ⟨bs, hqbase, htail⟩
  · obtain ⟨tail', hlevel', hnames', hall'⟩ :=
      Posix.Fs.tourWith_reach hlevel heq hm.dir ⟨as, hbase.symm⟩
    refine ⟨.root, tail', target.names, by simpa using hm.dir, hlevel', ?_, by simp, ?_⟩
    · rw [hnames', target.map_names]
    · intro onTour rest
      rw [VfsPath.components_root, List.append_nil, ← hall' onTour rest]
      exact hall onTour rest
  · have hnames : target.names.map (·.bytes) = bs ++ names tail := by rw [target.map_names, htail]
    obtain ⟨ds, ns, hsplit, hds, hns⟩ := List.map_eq_append_iff.mp hnames
    have hvalid : ∀ c ∈ bs, IsComponent c := by
      intro c hc
      exact target.isComponent (by rw [htail]; simp [hc])
    refine ⟨VfsPath.ofComponents bs hvalid, tail, ns, ?_, hlevel, hns.symm, ?_, ?_⟩
    · rw [VfsPath.components_ofComponents, ← hqbase]
      exact hq
    · have hd : (VfsPath.ofComponents bs hvalid).names = ds := by
        apply VfsName.map_bytes_inj
        rw [VfsPath.map_names, VfsPath.components_ofComponents, hds]
      rw [hd, hsplit]
    · intro onTour rest
      rw [VfsPath.components_ofComponents, ← hqbase]
      exact hall onTour rest

section Root

variable {root : Bytes}

theorem linkKey_of_target {here : VfsPath} {n : VfsName} {t : Bytes} {roots : List Bytes}
    (hread : g.readLink (here.join n) = .ok t) :
    linkKey g roots root here n = targetKey roots (hostPath root here) t := by
  unfold linkKey
  rw [hread]

theorem Matches.link {t : Tour} {r : Except GraphPathError (VfsPath × VirtualStat)}
    (h : Matches base g t r) (dir : Posix.Path) (target : Bytes) :
    Matches base g (.link dir target :: t.1, t.2) r where
  same l hl hstays := h.same l hl fun v hv => hstays v (List.mem_cons_of_mem _ hv)
  fails := h.fails

/-- What the walk does with the key of a target. -/
def goOn (g : ContentProvider) (root : Bytes) (k : Nat) (ns : List VfsName) (target : VfsPath) :
    Except GraphPathError (VfsPath × VirtualStat) :=
  if target.names ++ ns = [] then rootAnswer g else keyWalk g [root] root k .root (target.names ++ ns)

/-- The walk goes on at the directory where the resolution stands. -/
theorem goOn_matches (hm : Mounted fs base g) {k : Nat}
    (ih : ∀ (comps : List Comp) (here : VfsPath) (ns : List VfsName), Level comps →
      names comps = ns.map (·.bytes) → ns ≠ [] → fs.isDir (base ++ here.components) = true →
      (∀ v ∈ (tour fs base k (base ++ here.components) comps).1, folds fs v) →
      Matches base g (tour fs base k (base ++ here.components) comps)
        (keyWalk g [root] root k here ns))
    {d target : VfsPath} {comps : List Comp} {ns ns' : List VfsName} (hl : Level comps)
    (hn : names comps = (ns' ++ ns).map (·.bytes)) (hd : fs.isDir (base ++ d.components) = true)
    (htarget : target.names = d.names ++ ns')
    (hv : ∀ v ∈ (tour fs base k (base ++ d.components) comps).1, folds fs v) :
    Matches base g (tour fs base k (base ++ d.components) comps) (goOn g root k ns target) := by
  obtain ⟨onLink, hwalk⟩ := keyWalk_eq_with g [root] root k
  obtain ⟨onTour, htour⟩ := Posix.Fs.tour_eq_with fs base k
  unfold goOn
  rw [htarget, List.append_assoc]
  by_cases h0 : ns' ++ ns = []
  · -- Nothing is left: both end at the directory.
    rw [h0, List.append_nil]
    rw [htour, tourWith_end hl (by rw [hn, h0]; rfl) hd]
    obtain ⟨stat, hs, hr⟩ : ∃ stat, g.stat d = .ok stat ∧
        (if d.names = [] then rootAnswer g else keyWalk g [root] root k .root d.names) =
          .ok (d, stat) := by
      by_cases hroot : d = .root
      · subst hroot
        obtain ⟨stat, hs, -⟩ := hm.isDirectory hd
        refine ⟨stat, hs, ?_⟩
        rw [if_pos VfsPath.names_root, rootAnswer, hs]
      · obtain ⟨stat, hs, hself⟩ := keyWalkWith_self hm hd hroot
        refine ⟨stat, hs, ?_⟩
        rw [if_neg fun h => hroot (VfsPath.names_eq_nil.mp h), hwalk, hself]
    rw [hr]
    refine ⟨fun l hl' _ => ⟨d, stat, (Except.ok.inj hl').symm, hs, rfl⟩, ?_⟩
    rintro (h | h) <;> cases h
  · have hne : d.names ++ (ns' ++ ns) ≠ [] := fun h => h0 (List.append_eq_nil_iff.mp h).2
    rw [if_neg hne, hwalk, keyWalkWith_through hm hd h0, ← hwalk]
    exact ih comps d (ns' ++ ns) hl hn h0 hd hv

/-- The resolution and the walk match, whatever number of links is left. -/
theorem matches_tour (hm : Mounted fs base g) (hroot : hostComponents root = .ok (none, base))
    (k : Nat) (comps : List Comp) (here : VfsPath) (ns : List VfsName) (hl : Level comps)
    (hn : names comps = ns.map (·.bytes)) (hne : ns ≠ [])
    (hd : fs.isDir (base ++ here.components) = true)
    (hv : ∀ v ∈ (tour fs base k (base ++ here.components) comps).1, folds fs v) :
    Matches base g (tour fs base k (base ++ here.components) comps)
      (keyWalk g [root] root k here ns) := by
  induction k generalizing comps here ns with
  | zero =>
    refine matches_with hm ?_ comps here ns hl hn hne hd hv
    intro here n rest ns t _ _ _ _ _
    refine ⟨fun l h => ?_, ?_⟩
    · cases h
    · rintro (h | h) <;> cases h
  | succ k ih =>
    refine matches_with hm ?_ comps here ns hl hn hne hd hv
    intro here n rest ns t hd hlevel hrest hread hv
    rw [linkKey_of_target hread]
    by_cases ht : t = []
    · rw [if_pos ht]
      subst ht
      exact matches_error rfl rfl
    rw [if_neg ht] at hv ⊢
    by_cases hin : base.isPrefixOf
        (climb (linkStart (base ++ here.components) t) (targetComps t)) = true
    · rw [if_pos hin] at hv ⊢
      have hstraight : straight fs (linkStart (base ++ here.components) t) (targetComps t) = true :=
        hv _ List.mem_cons_self
      have hv' := fun v hmem => hv v (List.mem_cons_of_mem _ hmem)
      by_cases h0 : 0 ∈ t
      · -- The walk refuses NUL, and no entry has such a name.
        have he : targetKey [root] (hostPath root here) t = .error .invalidSymlink := by
          unfold targetKey
          rw [if_pos (.inl (by simpa using h0))]
        rw [he]
        refine ⟨fun l hl _ => ?_, fun _ => ⟨_, rfl⟩⟩
        rw [Posix.Fs.tour_snd] at hl
        exact absurd h0 (nul_not_mem_of_walk hm hl)
      · obtain ⟨ks, hks⟩ := List.isPrefixOf_iff_prefix.mp hin
        have hclimb := Posix.Fs.climb?_of_straight hstraight
        rw [← hks] at hclimb
        have hvalid : ∀ c ∈ ks, IsComponent c := by
          intro c hc
          rcases Posix.Fs.mem_climb? hclimb (List.mem_append_right _ hc) with hstart | hname
          · unfold linkStart at hstart
            split at hstart
            · cases hstart
            · rcases List.mem_append.mp hstart with hstart | hstart
              · exact isComponent_base hroot c hstart
              · exact here.isComponent hstart
          · exact isComponent_of_target h0 hname
        have hfolded : climb (linkStart (base ++ here.components) t) (targetComps t) =
            base ++ (VfsPath.ofComponents ks hvalid).components := by
          rw [VfsPath.components_ofComponents, hks]
        obtain ⟨d, tail, ns', hd', hlevel', hnames', htarget, hall⟩ :=
          tour_target hm (Posix.Fs.isDir_linkStart hd) hstraight hfolded
        obtain ⟨onTour, htour⟩ := Posix.Fs.tour_eq_with fs base k
        have hkey : targetKey [root] (hostPath root here) t = .ok (.ofComponents ks hvalid) :=
          targetKey_inside hroot h0 ht (by rw [VfsPath.components_ofComponents, hclimb])
        rw [hkey]
        have hmoved : tour fs base k (linkStart (base ++ here.components) t) (targetComps t ++ rest) =
            tour fs base k (base ++ d.components) (tail ++ rest) := by rw [htour, hall]
        rw [hmoved] at hv' ⊢
        refine Matches.link ?_ _ _
        refine goOn_matches hm ih (Posix.level_append.mpr ⟨hlevel', hlevel⟩) ?_ hd' htarget hv'
        rw [Posix.names_append, hnames', hrest, List.map_append]
    · -- The walk refuses a target that leaves the workspace.
      rw [if_neg hin]
      have hout : ¬ base <+: climb (linkStart (base ++ here.components) t) (targetComps t) :=
        fun h => hin (List.isPrefixOf_iff_prefix.mpr h)
      obtain ⟨e, he⟩ := targetKey_outside hroot hout
      rw [he]
      refine ⟨fun l _ hstays => ?_, fun _ => ⟨e, rfl⟩⟩
      have := hstays _ List.mem_cons_self
      cases this

end Root
end
end KinVfs
