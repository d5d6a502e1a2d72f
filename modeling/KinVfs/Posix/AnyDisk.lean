import KinVfs.Posix.CallSpec
import KinVfs.Posix.Destination

/-!
# What the calls do on any tree

`CallSpec` has the calls on clear paths. Here the tree is arbitrary: the path may run through links,
and the lemmas say what is known once the call has succeeded.

* `entry` is the node of a path, the time of a directory aside: a change of the tree is an equation on
  it.
* `Made`: `create_dir_all` ends in the directory that the path leads to (`destination`), and makes
  only directories above it.
* `locate_concat`, `openFile_concat`, `rename_concat`: a name in a directory that the rest of the path
  leads to.
-/

namespace Posix

open Fallible

/-- A node without the time of a directory. -/
def Node.untimed : Node → Node
  | .dir i n => .dir { i with mtime := 0 } n
  | nd => nd

namespace Fs

variable {fs fs' : Fs} {p q r l d : Path} {n : Name} {nd : Node}

def entry (fs : Fs) (q : Path) : Option Node := (fs.node q).map Node.untimed

theorem entry_eq_none : fs.entry q = none ↔ fs.node q = none := by
  simp [entry]

theorem entry_eq_file {i : Info} {c : List UInt8} :
    fs.entry q = some (.file i c) ↔ fs.node q = some (.file i c) := by
  unfold entry
  cases fs.node q with
  | none => simp
  | some nd => cases nd <;> simp [Node.untimed]

theorem shape_eq_entry : fs.shape q = (fs.entry q).map Node.shape := by
  unfold shape entry
  cases fs.node q with
  | none => rfl
  | some nd => cases nd <;> rfl

theorem shape_congr (h : fs'.entry q = fs.entry q) : fs'.shape q = fs.shape q := by
  rw [shape_eq_entry, shape_eq_entry, h]

/-! ## Changes as equations on entries -/

theorem entry_setNode (hk : (fs.node p).map Node.isDir = some nd.isDir) (hf : nd.fits = true) :
    (fs.setNode p nd).entry q = if q = p then some nd.untimed else fs.entry q := by
  unfold setNode entry
  rw [dif_pos ⟨hk, hf⟩]
  dsimp only
  split <;> rfl

theorem entry_touch : (fs.touch p).entry q = fs.entry q := by
  unfold touch
  cases hn : fs.node p with
  | none => rfl
  | some nd =>
    have hk : (fs.node p).map Node.isDir = some (nd.touch fs.env.now).isDir := by simp [hn]
    have hf : (nd.touch fs.env.now).fits = true := by
      cases nd with
      | file i c => exact fs.sized p _ hn
      | _ => rfl
    rw [entry_setNode hk hf]
    split
    · rename_i hq
      subst hq
      rw [entry, hn]
      cases nd <;> rfl
    · rfl

theorem entry_addEntry (hl : l ≠ []) (hd : fs.isDir l.dropLast = true) (hn : fs.node l = none)
    (hf : nd.fits = true) :
    (fs.addEntry l nd).entry q = if q = l then some nd.untimed else fs.entry q := by
  unfold addEntry
  rw [dif_pos ⟨hl, hd, hn, hf⟩, entry_touch]
  unfold entry
  dsimp only
  split <;> rfl

theorem entry_removeEntry (hl : l ≠ []) (hd : fs.isDir l = false ∨ fs.isEmptyDir l = true) :
    (fs.removeEntry l).entry q = if q = l then none else fs.entry q := by
  unfold removeEntry
  rw [dif_pos ⟨hl, hd⟩, entry_touch]
  unfold entry
  dsimp only
  split <;> rfl

theorem entry_moveEntry {src dst : Path} (hs : src ≠ []) (hd : dst ≠ [])
    (hsd : src.isPrefixOf dst = false) (hdir : fs.isDir dst.dropLast = true) :
    (fs.moveEntry src dst).entry q =
      if dst.isPrefixOf q then fs.entry (src ++ q.drop dst.length)
      else if src.isPrefixOf q then none
      else fs.entry q := by
  unfold moveEntry
  rw [dif_pos ⟨hs, hd, hsd, hdir⟩, entry_touch, entry_touch]
  unfold entry moved
  dsimp only
  split
  · rfl
  · split <;> rfl

@[simp] theorem env_setNode : (fs.setNode p nd).env = fs.env := by
  unfold setNode
  split <;> rfl

@[simp] theorem env_touch : (fs.touch p).env = fs.env := by
  unfold touch
  split
  · exact env_setNode
  · rfl

@[simp] theorem env_addEntry : (fs.addEntry l nd).env = fs.env := by
  unfold addEntry
  split
  · exact env_touch
  · rfl

@[simp] theorem env_removeEntry : (fs.removeEntry l).env = fs.env := by
  unfold removeEntry
  split
  · exact env_touch
  · rfl

@[simp] theorem env_moveEntry {src dst : Path} : (fs.moveEntry src dst).env = fs.env := by
  unfold moveEntry
  split
  · rw [env_touch, env_touch]
  · rfl

/-! ## One name more -/

theorem isDir_congr (h : fs'.entry q = fs.entry q) : fs'.isDir q = fs.isDir q := by
  rw [Bool.eq_iff_iff, ← shape_eq_dir, ← shape_eq_dir, shape_congr h]

theorem walkWith_concat {onLink : Path → List UInt8 → List Comp → Except ErrorKind Path}
    (hon : ∀ cur t rest, onLink cur t rest = .ok d → onLink cur t (rest ++ [.name n]) = .ok (d ++ [n]))
    (hd : fs.isDir d = true) (hn : fs.Real (d ++ [n])) {comps : List Comp} {cur : Path}
    (h : walkWith fs onLink cur comps = .ok d) :
    walkWith fs onLink cur (comps ++ [.name n]) = .ok (d ++ [n]) := by
  induction comps generalizing cur with
  | nil =>
    cases h
    rw [List.nil_append, walkWith, if_pos hd]
    cases hnode : fs.node (d ++ [n]) with
    | none => exact absurd (shape_eq_none.mpr hnode) hn.1
    | some nd =>
      cases nd with
      | symlink i t => exact absurd (shape_eq_symlink.mpr ⟨i, hnode⟩) (hn.2 t)
      | file i c => rfl
      | dir i k => rfl
  | cons c rest ih =>
    obtain ⟨hcur, h⟩ := walkWith_cons_ok h
    rw [List.cons_append]
    cases c with
    | cur => rw [walkWith, if_pos hcur, ih h]
    | up => rw [walkWith, if_pos hcur, ih h]
    | name m =>
      rw [walkWith, if_pos hcur]
      rcases h with ⟨i, t, hlink, h⟩ | ⟨hreal, h⟩
      · rw [hlink]
        exact hon cur t rest h
      · cases hnode : fs.node (cur ++ [m]) with
        | none => exact absurd (shape_eq_none.mpr hnode) hreal.1
        | some nd =>
          cases nd with
          | symlink i t => exact absurd (shape_eq_symlink.mpr ⟨i, hnode⟩) (hreal.2 t)
          | file i c => exact ih h
          | dir i k => exact ih h

theorem walk_concat (hd : fs.isDir d = true) (hn : fs.Real (d ++ [n])) {k : Nat} {comps : List Comp}
    {cur : Path} (h : walk fs k cur comps = .ok d) :
    walk fs k cur (comps ++ [.name n]) = .ok (d ++ [n]) := by
  induction k generalizing cur comps with
  | zero => exact walkWith_concat (by intro _ _ _ hl; cases hl) hd hn h
  | succ k ih =>
    refine walkWith_concat ?_ hd hn h
    intro cur t rest hl
    by_cases ht : t = []
    · rw [if_pos ht] at hl
      cases hl
    · rw [if_neg ht] at hl ⊢
      rw [← List.append_assoc]
      exact ih hl

/-- An entry of a directory that a path leads to, when it is no link. -/
theorem canonicalize_concat (hp : fs.canonicalize p = .ok d) (hd : fs.isDir d = true)
    (hn : fs.Real (d ++ [n])) : fs.canonicalize (p ++ [n]) = .ok (d ++ [n]) := by
  unfold canonicalize at hp ⊢
  rw [List.map_append]
  exact walk_concat hd hn hp

theorem locate_concat (hp : fs.canonicalize p = .ok d) (hd : fs.isDir d = true) :
    fs.locate (p ++ [n]) = .ok (d ++ [n]) := by
  unfold locate
  rw [List.getLast?_concat, List.dropLast_concat]
  simp [hp, hd]

/-- The directory in which a path names an entry. -/
theorem locate_concat_ok (h : fs.locate (p ++ [n]) = .ok l) :
    ∃ d, fs.canonicalize p = .ok d ∧ fs.isDir d = true ∧ l = d ++ [n] := by
  unfold locate at h
  rw [List.getLast?_concat, List.dropLast_concat] at h
  dsimp only at h
  split at h
  · cases h
  · rename_i d hd
    split at h
    · rename_i hdir
      cases h
      exact ⟨d, hd, hdir, rfl⟩
    · cases h

theorem place_concat {cur : Path} {comps : List Comp} (h : place cur comps = .ok l) :
    place cur (comps ++ [.name n]) = .ok (l ++ [n]) := by
  induction comps generalizing cur with
  | nil =>
    cases h
    rfl
  | cons c rest ih =>
    cases c with
    | cur => cases h
    | up => cases h
    | name m => exact ih h

/-- The name can be added: there is nothing at `l`, or it is a directory without a link of that name. -/
def Open (fs : Fs) (l : Path) (n : Name) : Prop :=
  fs.node l = none ∨ fs.isDir l = true ∧ ∀ t, fs.shape (l ++ [n]) ≠ some (.symlink t)

theorem reachWith_concat {onLink : Path → List UInt8 → List Comp → Except ErrorKind Path}
    (hon : ∀ cur t rest, fs.isDir cur = true → onLink cur t rest = .ok l →
      onLink cur t (rest ++ [.name n]) = .ok (l ++ [n]))
    (hl : fs.Open l n) {comps : List Comp} {cur : Path} (hcur : fs.node cur ≠ none)
    (h : reachWith fs onLink cur comps = .ok l) :
    reachWith fs onLink cur (comps ++ [.name n]) = .ok (l ++ [n]) := by
  induction comps generalizing cur with
  | nil =>
    cases h
    rcases hl with hl | ⟨hd, hl⟩
    · exact absurd hl hcur
    · rw [List.nil_append, reachWith, if_pos hd]
      cases hnode : fs.node (l ++ [n]) with
      | none => rfl
      | some nd =>
        cases nd with
        | symlink i t => exact absurd (shape_eq_symlink.mpr ⟨i, hnode⟩) (hl t)
        | file i c => rfl
        | dir i k => rfl
  | cons c rest ih =>
    rw [List.cons_append]
    cases c with
    | cur =>
      rw [reachWith] at h ⊢
      split at h
      · rename_i hd
        rw [if_pos hd]
        exact ih hcur h
      · cases h
    | up =>
      rw [reachWith] at h ⊢
      split at h
      · rename_i hd
        rw [if_pos hd]
        refine ih ?_ h
        rw [ne_eq, ← shape_eq_none, shape_eq_dir.mpr (isDir_dropLast hd)]
        simp
      · cases h
    | name m =>
      rw [reachWith] at h ⊢
      split at h
      · rename_i hd
        rw [if_pos hd]
        cases hnode : fs.node (cur ++ [m]) with
        | none =>
          rw [hnode] at h
          exact place_concat h
        | some nd =>
          rw [hnode] at h
          cases nd with
          | symlink i t => exact hon cur t rest hd h
          | file i c => exact ih (by simp [hnode]) h
          | dir i k => exact ih (by simp [hnode]) h
      · cases h

theorem reach_concat (hl : fs.Open l n) {k : Nat} {comps : List Comp} {cur : Path}
    (hcur : fs.node cur ≠ none) (h : reach fs k cur comps = .ok l) :
    reach fs k cur (comps ++ [.name n]) = .ok (l ++ [n]) := by
  induction k generalizing cur comps with
  | zero => exact reachWith_concat (by intro _ _ _ _ hl; cases hl) hl hcur h
  | succ k ih =>
    refine reachWith_concat ?_ hl hcur h
    intro cur t rest hd hr
    by_cases ht : t = []
    · rw [if_pos ht] at hr
      cases hr
    · rw [if_neg ht] at hr ⊢
      rw [← List.append_assoc]
      refine ih ?_ hr
      split
      · rw [ne_eq, ← shape_eq_none, shape_root]
        simp
      · rw [ne_eq, ← shape_eq_none, shape_eq_dir.mpr hd]
        simp

theorem destination_concat (hl : fs.Open l n) (h : fs.destination p = .ok l) :
    fs.destination (p ++ [n]) = .ok (l ++ [n]) := by
  unfold destination at h ⊢
  rw [List.map_append]
  refine reach_concat hl ?_ h
  rw [ne_eq, ← shape_eq_none, shape_root]
  simp

/-! ## Making directories -/

/-- Directories were made above `d`, and nothing else changed. -/
def Rises (fs fs' : Fs) (d : Path) : Prop :=
  ∀ q, fs'.entry q = fs.entry q ∨ fs.node q = none ∧ fs'.shape q = some .dir ∧ q <+: d

/-- What `create_dir_all` of `p` did: `d` is the directory that `p` leads to. -/
structure Made (fs fs' : Fs) (p d : Path) : Prop where
  resolves : fs'.canonicalize p = .ok d
  isDir : fs'.isDir d = true
  leads : fs.destination p = .ok d
  rises : Rises fs fs' d
  env : fs'.env = fs.env
  /-- The last directory is new, or nothing changed. -/
  fresh : fs' = fs ∨ fs.node d = none

theorem Made.refl (hp : fs.canonicalize p = .ok d) (hd : fs.isDir d = true) : Made fs fs p d where
  resolves := hp
  isDir := hd
  leads := destination_of_canonicalize hp
  rises := fun _ => .inl rfl
  env := rfl
  fresh := .inl rfl

theorem Rises.keeps (h : Rises fs fs' d) : Keeps fs fs' := by
  constructor
  · intro q hq
    rcases h q with he | ⟨hn, hd, -⟩
    · rw [shape_congr he, hq]
    · exact hd
  · intro q t hq
    rcases h q with he | ⟨hn, -⟩
    · rw [shape_congr he, hq]
    · rw [shape_eq_none.mpr hn] at hq
      cases hq

/-- Nothing new is below the last directory. -/
theorem Rises.below (h : Rises fs fs' d) (hd : fs.node d = none) : fs'.node (d ++ [n]) = none := by
  have hnone : fs.node (d ++ [n]) = none := node_none_append hd
  rcases h (d ++ [n]) with he | ⟨-, -, hpre⟩
  · rw [← entry_eq_none, he, entry_eq_none, hnone]
  · have hlen := hpre.length_le
    rw [List.length_append, List.length_singleton] at hlen
    omega

end Fs

variable {fs fs' fs₁ : Fs} {p q d l : Path} {n : Name}

/-- `mkdir` of a name, from the entry that the path names. -/
theorem mkdir_exec (p : Path) (n : Name) (fs : Fs) :
    exec (mkdir (p ++ [n])) fs =
      match fs.locate (p ++ [n]) with
      | .error e => (.error e, fs)
      | .ok l =>
        if fs.node l = none then (.ok (), fs.addEntry l (newDir fs.env))
        else (.error .alreadyExists, fs) := by
  simp only [mkdir, exec_bind, exec_ofExcept]
  cases fs.locate (p ++ [n]) with
  | error e => rfl
  | ok l =>
    dsimp only [exec_get]
    cases fs.node l <;> rfl

theorem made_newDir (hp : fs.canonicalize p = .ok d) (hd : fs.isDir d = true)
    (hn : fs.node (d ++ [n]) = none) (hleads : fs₁.destination p = .ok d)
    (hopen : fs₁.Open d n) (hrises : fs₁.Rises fs d) (henv : fs.env = fs₁.env) :
    Fs.Made fs₁ (fs.addEntry (d ++ [n]) (newDir fs.env)) (p ++ [n]) (d ++ [n]) := by
  have hentry : ∀ q, (fs.addEntry (d ++ [n]) (newDir fs.env)).entry q =
      if q = d ++ [n] then some (newDir fs.env).untimed else fs.entry q := fun q =>
    Fs.entry_addEntry (by simp) (by rwa [List.dropLast_concat]) hn rfl
  have hother : ∀ q, q ≠ d ++ [n] →
      (fs.addEntry (d ++ [n]) (newDir fs.env)).entry q = fs.entry q := by
    intro q hq
    rw [hentry, if_neg hq]
  have hnew : (fs.addEntry (d ++ [n]) (newDir fs.env)).shape (d ++ [n]) = some .dir := by
    rw [Fs.shape_eq_entry, hentry, if_pos rfl]
    rfl
  have hnone : fs₁.node (d ++ [n]) = none := by
    rcases hrises (d ++ [n]) with he | ⟨-, -, hpre⟩
    · rw [← Fs.entry_eq_none, ← he, Fs.entry_eq_none, hn]
    · have hlen := hpre.length_le
      rw [List.length_append, List.length_singleton] at hlen
      omega
  have hdir : (fs.addEntry (d ++ [n]) (newDir fs.env)).isDir d = true := by
    rw [Fs.isDir_congr (hother d (by simp)), hd]
  have hkeeps : Fs.Keeps fs (fs.addEntry (d ++ [n]) (newDir fs.env)) := by
    constructor
    · intro q hq
      by_cases hqd : q = d ++ [n]
      · rw [hqd, hnew]
      · rw [Fs.shape_congr (hother q hqd), hq]
    · intro q t hq
      by_cases hqd : q = d ++ [n]
      · rw [hqd, Fs.shape_eq_none.mpr hn] at hq
        cases hq
      · rw [Fs.shape_congr (hother q hqd), hq]
  refine ⟨?_, Fs.shape_eq_dir.mp hnew, Fs.destination_concat hopen hleads, ?_, by simpa using henv,
    .inr hnone⟩
  · have hreal : (fs.addEntry (d ++ [n]) (newDir fs.env)).Real d := Fs.real_of_dir hdir
    exact Fs.canonicalize_concat (Fs.canonicalize_keeps hkeeps hp hreal) hdir
      (Fs.real_of_dir (Fs.shape_eq_dir.mp hnew))
  · intro q
    by_cases hqd : q = d ++ [n]
    · exact .inr ⟨hqd ▸ hnone, hqd ▸ hnew, hqd ▸ List.prefix_rfl⟩
    · rw [hother q hqd]
      rcases hrises q with he | ⟨hq, hdirq, hpre⟩
      · exact .inl he
      · refine .inr ⟨hq, ?_, hpre.trans (List.prefix_append _ _)⟩
        rw [Fs.shape_congr (hother q hqd), hdirq]

theorem unlessDir_ok {e : ErrorKind} (h : exec (unlessDir p e) fs = (.ok (), fs')) :
    fs' = fs ∧ ∃ d, fs.canonicalize p = .ok d ∧ fs.isDir d = true := by
  simp only [unlessDir, exec_bind, exec_get] at h
  split at h
  · rename_i hdir
    cases h
    unfold Fs.isDirPath at hdir
    split at hdir
    · rename_i d hd
      exact ⟨rfl, d, hd, hdir⟩
    · cases hdir
  · cases h

/-- `create_dir_all` that succeeds. The induction is on the path from its end: a parent that had to be
made is empty, so the name below it is made too. -/
theorem createDirAllRev_ok {rev : List Name} (h : exec (createDirAllRev rev) fs = (.ok (), fs')) :
    ∃ d, Fs.Made fs fs' rev.reverse d := by
  induction rev generalizing fs fs' with
  | nil =>
    cases h
    exact ⟨[], Fs.Made.refl rfl fs.rootDir⟩
  | cons n rev ih =>
    rw [createDirAllRev, List.reverse_cons, exec_orElse, mkdir_exec] at h
    cases hloc : fs.locate (rev.reverse ++ [n]) with
    | ok l =>
      obtain ⟨d, hp, hd, rfl⟩ := Fs.locate_concat_ok hloc
      rw [hloc] at h
      dsimp only at h
      by_cases hn : fs.node (d ++ [n]) = none
      · rw [if_pos hn] at h
        cases h
        have hopen : fs.Open d n := .inr ⟨hd, by simp [Fs.shape_eq_none.mpr hn]⟩
        exact ⟨d ++ [n], List.reverse_cons ▸ made_newDir hp hd hn
          (Fs.destination_of_canonicalize hp) hopen (fun _ => .inl rfl) rfl⟩
      · rw [if_neg hn] at h
        dsimp only at h
        rw [if_neg (by simp)] at h
        obtain ⟨rfl, d', hp', hd'⟩ := unlessDir_ok h
        exact ⟨d', List.reverse_cons ▸ Fs.Made.refl hp' hd'⟩
    | error e =>
      rw [hloc] at h
      dsimp only at h
      by_cases he : e = .notFound
      · -- The parent is missing, so it is made, and it is empty.
        subst he
        rw [if_pos rfl, exec_bind_ok] at h
        obtain ⟨_, fs₁, h₁, h₂⟩ := h
        obtain ⟨d, hmade⟩ := ih h₁
        have hchanged : fs₁ ≠ fs := by
          rintro rfl
          rw [Fs.locate_concat hmade.resolves hmade.isDir] at hloc
          cases hloc
        have hfresh : fs.node d = none := hmade.fresh.resolve_left hchanged
        have hn : fs₁.node (d ++ [n]) = none := hmade.rises.below hfresh
        rw [exec_orElse, mkdir_exec, Fs.locate_concat hmade.resolves hmade.isDir] at h₂
        dsimp only at h₂
        rw [if_pos hn] at h₂
        cases h₂
        exact ⟨d ++ [n], List.reverse_cons ▸ made_newDir hmade.resolves hmade.isDir hn hmade.leads
          (.inl hfresh) hmade.rises hmade.env⟩
      · rw [if_neg he] at h
        obtain ⟨rfl, d', hp', hd'⟩ := unlessDir_ok h
        exact ⟨d', List.reverse_cons ▸ Fs.Made.refl hp' hd'⟩

theorem createDirAll_ok (h : exec (createDirAll p) fs = (.ok (), fs')) : ∃ d, Fs.Made fs fs' p d := by
  obtain ⟨d, hmade⟩ := createDirAllRev_ok h
  rw [List.reverse_reverse] at hmade
  exact ⟨d, hmade⟩

/-! ## Files -/

theorem overwrite_empty (data : List UInt8) : Content.overwrite [] 0 data = data := by
  simp [Content.overwrite]

/-- The file `l` now is `nd`, and nothing else changed. -/
def Became (fs fs' : Fs) (l : Path) (nd : Node) : Prop :=
  (∀ q, fs'.entry q = if q = l then some nd.untimed else fs.entry q) ∧ fs'.env = fs.env

theorem Became.node {i : Info} {c : List UInt8} (h : Became fs fs' l (.file i c)) :
    fs'.node l = some (.file i c) := by
  rw [← Fs.entry_eq_file, h.1, if_pos rfl]
  rfl

theorem Became.other {nd : Node} (h : Became fs fs' l nd) (hq : q ≠ l) : fs'.entry q = fs.entry q := by
  rw [h.1, if_neg hq]

theorem Became.refl {i : Info} {c : List UInt8} (h : fs.node l = some (.file i c)) :
    Became fs fs l (.file i c) := by
  refine ⟨fun q => ?_, rfl⟩
  split
  · rename_i hq
    rw [hq]
    exact Fs.entry_eq_file.mpr h
  · rfl

theorem Became.trans {fs'' : Fs} {nd nd' : Node} (h : Became fs fs' l nd) (h' : Became fs' fs'' l nd') :
    Became fs fs'' l nd' := by
  refine ⟨fun q => ?_, h'.2.trans h.2⟩
  rw [h'.1, h.1]
  split <;> rfl

/-- A change of what is neither a directory nor a link keeps both. -/
theorem Became.keeps {nd : Node} (h : Became fs fs' l nd)
    (hl : fs.node l = none ∨ ∃ i c, fs.node l = some (.file i c)) : Fs.Keeps fs fs' := by
  have hne : ∀ q sh, fs.shape q = some sh → (∀ c, sh ≠ .file c) → q ≠ l := by
    rintro q sh hq hsh rfl
    rcases hl with hl | ⟨i, c, hl⟩
    · rw [Fs.shape_eq_none.mpr hl] at hq
      cases hq
    · rw [Fs.shape_eq_file.mpr ⟨i, hl⟩] at hq
      exact hsh c (Option.some.inj hq).symm
  constructor
  · intro q hq
    rw [Fs.shape_congr (h.other (hne q _ hq (by simp))), hq]
  · intro q t hq
    rw [Fs.shape_congr (h.other (hne q _ hq (by simp))), hq]

/-- The directory of a file that changed is reached as before. -/
theorem Became.canonicalize {nd : Node} (h : Became fs fs' l nd)
    (hl : fs.node l = none ∨ ∃ i c, fs.node l = some (.file i c))
    (hp : fs.canonicalize p = .ok d) (hd : fs.isDir d = true) :
    fs'.canonicalize p = .ok d ∧ fs'.isDir d = true := by
  have hdir : fs'.isDir d = true :=
    Fs.shape_eq_dir.mp ((h.keeps hl).1 d (Fs.shape_eq_dir.mpr hd))
  exact ⟨Fs.canonicalize_keeps (h.keeps hl) hp (Fs.real_of_dir hdir), hdir⟩

/-- `std::fs::write` of a name that is not there, or of a directory. -/
theorem writeWhole_ok {data : List UInt8} (hp : fs.canonicalize p = .ok d) (hd : fs.isDir d = true)
    (hn : fs.node (d ++ [n]) = none ∨ fs.isDir (d ++ [n]) = true)
    (h : exec (writeWhole (p ++ [n]) data) fs = (.ok (), fs')) :
    fs.node (d ++ [n]) = none ∧
      Became fs fs' (d ++ [n]) (.file ⟨fs.env.fileMode, fs.env.now⟩ data) := by
  rw [writeWhole, exec_bind_ok] at h
  obtain ⟨l, fs₁, hopen, hwrite⟩ := h
  simp only [openFile, exec_bind, exec_ofExcept, Fs.locate_concat hp hd, exec_get] at hopen
  have hnone : fs.node (d ++ [n]) = none := by
    rcases hn with hn | hn
    · exact hn
    · obtain ⟨i, k, hi⟩ := Fs.isDir_iff.mp hn
      rw [hi] at hopen
      simp [openReal, exec_bind, hi] at hopen
  rw [hnone] at hopen
  simp only [openReal, exec_bind, exec_get, hnone, Bool.or_false, ↓reduceIte, exec_set, exec_pure,
    Prod.mk.injEq, Except.ok.injEq] at hopen
  obtain ⟨rfl, rfl⟩ := hopen
  have hadd : ∀ q, (fs.addEntry (d ++ [n]) (.file ⟨fs.env.fileMode, fs.env.now⟩ [])).entry q =
      if q = d ++ [n] then some (.file ⟨fs.env.fileMode, fs.env.now⟩ []) else fs.entry q := fun q =>
    Fs.entry_addEntry (by simp) (by rwa [List.dropLast_concat]) hnone rfl
  have hnode : (fs.addEntry (d ++ [n]) (.file ⟨fs.env.fileMode, fs.env.now⟩ [])).node (d ++ [n]) =
      some (.file ⟨fs.env.fileMode, fs.env.now⟩ []) := by
    rw [← Fs.entry_eq_file, hadd, if_pos rfl]
  refine ⟨hnone, ?_⟩
  simp only [writeFile, exec_bind, exec_get, hnode, Fs.env_addEntry] at hwrite
  rw [if_neg (by simp)] at hwrite
  split at hwrite
  · rename_i hdata
    cases hwrite
    subst hdata
    exact ⟨hadd, Fs.env_addEntry⟩
  · split at hwrite
    · cases hwrite
    · rename_i hsize
      rw [Nat.zero_add, Nat.not_lt] at hsize
      cases hwrite
      rw [overwrite_empty]
      refine ⟨fun q => ?_, by simp⟩
      rw [Fs.entry_setNode (by simp [hnode, Node.isDir]) (by simpa [Node.fits] using hsize), hadd]
      split <;> rfl

/-- Removing a name that is no directory. -/
theorem removeFile_exec (fs : Fs) (p : Path) :
    exec (removeFile p) fs =
      match fs.locate p with
      | .error e => (.error e, fs)
      | .ok l =>
        match fs.node l with
        | none => (.error .notFound, fs)
        | some (.dir ..) => (.error .isADirectory, fs)
        | some _ => (.ok (), fs.removeEntry l) := by
  simp only [removeFile, exec_bind, exec_ofExcept]
  cases fs.locate p with
  | error e => rfl
  | ok l =>
    dsimp only [exec_get]
    cases fs.node l with
    | none => rfl
    | some nd => cases nd <;> rfl

/-- The directory of a located entry. -/
theorem isDir_of_locate (h : fs.locate p = .ok l) : l = [] ∨ fs.isDir l.dropLast = true := by
  rcases List.eq_nil_or_concat p with rfl | ⟨q, n, rfl⟩
  · cases h
    exact .inl rfl
  · rw [List.concat_eq_append] at h
    obtain ⟨d, -, hd, rfl⟩ := Fs.locate_concat_ok h
    exact .inr (by rwa [List.dropLast_concat])

/-- A rename that succeeds moves an entry, or leaves it where it is. -/
theorem rename_ok (h : exec (rename p q) fs = (.ok (), fs')) :
    ∃ src dst nd, fs.locate p = .ok src ∧ fs.locate q = .ok dst ∧ fs.node src = some nd ∧
      (src = dst ∧ fs' = fs ∨
        src ≠ dst ∧ src ≠ [] ∧ dst ≠ [] ∧ src.isPrefixOf dst = false ∧
          replaceable fs nd dst = .ok () ∧ fs.isDir dst.dropLast = true ∧
          fs' = fs.moveEntry src dst) := by
  simp only [rename, exec_bind, exec_ofExcept] at h
  cases hsrc : fs.locate p with
  | error e =>
    rw [hsrc] at h
    cases h
  | ok src =>
    cases hdst : fs.locate q with
    | error e =>
      rw [hsrc] at h
      dsimp only at h
      rw [hdst] at h
      cases h
    | ok dst =>
      rw [hsrc] at h
      dsimp only at h
      rw [hdst] at h
      dsimp only [exec_get] at h
      cases hn : fs.node src with
      | none =>
        rw [hn] at h
        cases h
      | some nd =>
        refine ⟨src, dst, nd, rfl, rfl, hn, ?_⟩
        rw [hn] at h
        dsimp only at h
        split at h
        · rename_i he
          cases h
          exact .inl ⟨he, rfl⟩
        · rename_i hne
          split at h
          · cases h
          · rename_i hroot
            rw [not_or] at hroot
            split at h
            · cases h
            · rename_i hpre
              rw [exec_bind, exec_ofExcept] at h
              cases hrep : replaceable fs nd dst with
              | error e =>
                rw [hrep] at h
                cases h
              | ok _ =>
                rw [hrep] at h
                cases h
                exact .inr ⟨hne, hroot.1, hroot.2, Bool.eq_false_iff.mpr hpre, rfl,
                  (isDir_of_locate hdst).resolve_left hroot.2, rfl⟩

/-- Nothing is below a file. -/
theorem file_not_below {i : Info} {c : List UInt8} (hl : fs.node l = some (.file i c)) (hq : q ≠ []) :
    fs.node (l ++ q) = none := by
  cases hn : fs.node (l ++ q) with
  | none => rfl
  | some nd =>
    obtain ⟨j, k, hd⟩ := Fs.isDir_iff.mp (Fs.isDir_of_append (by rw [hn]; rfl) hq)
    rw [hl] at hd
    cases hd

/-- A file is renamed within its directory, unless a directory has the new name. -/
theorem rename_concat {m : Name} {i : Info} {c : List UInt8} (hp : fs.canonicalize p = .ok d)
    (hd : fs.isDir d = true) (hm : fs.node (d ++ [m]) = some (.file i c)) (hne : m ≠ n) :
    exec (rename (p ++ [m]) (p ++ [n])) fs =
      if fs.isDir (d ++ [n]) then (.error .isADirectory, fs)
      else (.ok (), fs.moveEntry (d ++ [m]) (d ++ [n])) := by
  have hlast : d ++ [m] ≠ d ++ [n] := by simpa using hne
  have hpre : (d ++ [m]).isPrefixOf (d ++ [n]) = false := by
    rw [Bool.eq_false_iff]
    intro h
    have heq := (List.isPrefixOf_iff_prefix.mp h).eq_of_length (by simp)
    exact hlast heq
  simp only [rename, exec_bind, exec_ofExcept, Fs.locate_concat hp hd, exec_get, hm, if_neg hlast,
    hpre]
  rw [if_neg (by simp)]
  unfold replaceable
  cases hn : fs.node (d ++ [n]) with
  | none => simp [Fs.isDir, hn, exec_bind]
  | some nd => cases nd <;> simp [Fs.isDir, hn, exec_bind, Node.isDir]

/-- The entries after that. -/
theorem entry_renamed {m : Name} {i : Info} {c : List UInt8} (hd : fs.isDir d = true)
    (hm : fs.node (d ++ [m]) = some (.file i c)) (hne : m ≠ n)
    (hn : fs.isDir (d ++ [n]) = false) (q : Path) :
    (fs.moveEntry (d ++ [m]) (d ++ [n])).entry q =
      if q = d ++ [n] then some (.file i c) else if q = d ++ [m] then none else fs.entry q := by
  have hpre : (d ++ [m]).isPrefixOf (d ++ [n]) = false := by
    rw [Bool.eq_false_iff]
    intro h
    have heq := (List.isPrefixOf_iff_prefix.mp h).eq_of_length (by simp)
    exact hne (by simpa using heq)
  rw [Fs.entry_moveEntry (by simp) (by simp) hpre (by rwa [List.dropLast_concat])]
  by_cases hdst : (d ++ [n]).isPrefixOf q = true
  · obtain ⟨rest, rfl⟩ := List.isPrefixOf_iff_prefix.mp hdst
    rw [if_pos hdst, List.drop_left]
    by_cases hrest : rest = []
    · subst hrest
      rw [List.append_nil, List.append_nil, if_pos rfl, Fs.entry_eq_file, hm]
    · -- Below a file there is nothing, before and after.
      have hbelow : fs.node (d ++ [n] ++ rest) = none := by
        cases hnode : fs.node (d ++ [n] ++ rest) with
        | none => rfl
        | some nd =>
          rw [Fs.isDir_of_append (by rw [hnode]; rfl) hrest] at hn
          cases hn
      have hself : d ++ [n] ++ rest ≠ d ++ [n] := by simpa using hrest
      have hother : d ++ [n] ++ rest ≠ d ++ [m] := by
        intro he
        have hlen := congrArg List.length he
        have := List.length_pos_iff.mpr hrest
        simp only [List.length_append, List.length_singleton] at hlen
        omega
      rw [if_neg hself, if_neg hother, Fs.entry_eq_none.mpr (file_not_below hm hrest),
        Fs.entry_eq_none.mpr hbelow]
  · have hself : q ≠ d ++ [n] := by
      rintro rfl
      exact hdst (List.isPrefixOf_iff_prefix.mpr List.prefix_rfl)
    rw [if_neg hdst, if_neg hself]
    by_cases hsrc : (d ++ [m]).isPrefixOf q = true
    · rw [if_pos hsrc]
      obtain ⟨rest, rfl⟩ := List.isPrefixOf_iff_prefix.mp hsrc
      by_cases hrest : rest = []
      · subst hrest
        rw [List.append_nil, if_pos rfl]
      · rw [if_neg (by simpa using hrest), Fs.entry_eq_none.mpr (file_not_below hm hrest)]
    · have hother : q ≠ d ++ [m] := by
        rintro rfl
        exact hsrc (List.isPrefixOf_iff_prefix.mpr List.prefix_rfl)
      rw [if_neg hsrc, if_neg hother]

end Posix
