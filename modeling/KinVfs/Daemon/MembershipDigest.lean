import Mathlib.Data.Set.Operations
import KinVfs.Lib.Delimited
import KinVfs.Lib.Fallible
import KinVfs.Daemon.DirectoryIndex

/-!
# What a directory's membership digest says

`DirectoryBuilder` feeds a directory's path to the hash, then one record for each artifact below it, then
their number. Each record says where it ends, and the number is shorter than any record, so the bytes
say what the directory is and what is below it (`membershipBytes_inj`).
-/

namespace KinVfs

open Fold Delimited DirectoryBuilder

/-! ## Records -/

/-- What is fed for an entry. -/
def TreeEntry.fed : TreeEntry → Bytes
  | .blob hash executable => 0 :: (hash.toList ++ [if executable then 1 else 0])
  | .symlink targetBlob => 1 :: targetBlob.toList
  | .gitlink target => 2 :: (toBeBytes target.length ++ target)

/-- What is fed for an artifact. -/
def recordFed (item : VfsPath × TreeArtifact) : Bytes :=
  toBeBytes item.1.bytes.length ++ item.1.bytes ++ item.2.artifactId.toList ++ item.2.entry.fed ++
    toBeBytes item.2.size ++ toBeBytes item.2.mtime

/-- The length of a gitlink target fits a `u64`. -/
def TreeEntry.Fits : TreeEntry → Prop
  | .gitlink target => target.length ≤ u64Max
  | _ => True

/-- Lengths, sizes and times that a `u64` holds. -/
structure RecordFits (item : VfsPath × TreeArtifact) : Prop where
  path : item.1.bytes.length ≤ u64Max
  entry : item.2.entry.Fits
  size : item.2.size ≤ u64Max
  mtime : item.2.mtime ≤ u64Max

@[simp] theorem length_toBeBytes (n : Nat) : (toBeBytes n).length = 8 := rfl

/-- Equal above a byte and in it. -/
theorem byte_step {m n k : Nat} (habove : m / 2 ^ (k + 8) = n / 2 ^ (k + 8))
    (hbyte : m / 2 ^ k % 256 = n / 2 ^ k % 256) : m / 2 ^ k = n / 2 ^ k := by
  rw [Nat.pow_add, ← Nat.div_div_eq_div_mul, ← Nat.div_div_eq_div_mul] at habove
  rw [← Nat.div_add_mod (m / 2 ^ k) 256, hbyte, habove, Nat.div_add_mod]

theorem toBeBytes_inj {m n : Nat} (hm : m ≤ u64Max) (hn : n ≤ u64Max) (h : toBeBytes m = toBeBytes n) :
    m = n := by
  have hbyte : ∀ shift ∈ [56, 48, 40, 32, 24, 16, 8, 0], (m >>> shift) % 256 = (n >>> shift) % 256 := by
    intro shift hs
    have hs' := List.map_inj_left.mp h shift hs
    simpa using congrArg UInt8.toNat hs'
  simp only [List.forall_mem_cons, Nat.shiftRight_eq_div_pow] at hbyte
  obtain ⟨h56, h48, h40, h32, h24, h16, h8, h0, -⟩ := hbyte
  have htop : m / 2 ^ 56 = n / 2 ^ 56 := by
    clear h48 h40 h32 h24 h16 h8 h0
    unfold u64Max at hm hn
    omega
  have hlow := byte_step (byte_step (byte_step (byte_step (byte_step (byte_step (byte_step htop h48) h40) h32) h24) h16)
    h8) h0
  simpa using hlow

theorem tells_toBeBytes {α : Type} {P : α → Prop} {n : α → Nat} (hn : ∀ a, P a → n a ≤ u64Max) :
    Tells (fun a => toBeBytes (n a)) P n :=
  tells_of_length (fun _ _ => length_toBeBytes _) fun a b ha hb h => toBeBytes_inj (hn a ha) (hn b hb) h

/-- The tag of an entry says its fields. -/
theorem tells_entry : Tells TreeEntry.fed TreeEntry.Fits id := by
  intro a b x y ha hb h
  cases a with
  | blob hash executable =>
    cases b with
    | blob hash' executable' =>
      obtain ⟨hfed, hrest⟩ := List.append_inj (List.cons.inj h).2 (by simp)
      obtain ⟨hhash, hflag⟩ := List.append_inj hfed (by simp)
      have hexec : executable = executable' := by
        cases executable <;> cases executable' <;> simp_all
      rw [Vector.toList_inj.mp hhash, hexec]
      exact ⟨rfl, hrest⟩
    | symlink hash' => exact absurd (List.cons.inj h).1 (by decide)
    | gitlink target => exact absurd (List.cons.inj h).1 (by decide)
  | symlink hash =>
    cases b with
    | symlink hash' =>
      obtain ⟨hhash, hrest⟩ := List.append_inj (List.cons.inj h).2 (by simp)
      rw [Vector.toList_inj.mp hhash]
      exact ⟨rfl, hrest⟩
    | blob hash' executable => exact absurd (List.cons.inj h).1 (by decide)
    | gitlink target => exact absurd (List.cons.inj h).1 (by decide)
  | gitlink target =>
    cases b with
    | gitlink target' =>
      have htold : Tells (fun t : Bytes => toBeBytes t.length ++ t) (·.length ≤ u64Max) id :=
        tells_counted (tells_toBeBytes fun _ h => h)
      obtain ⟨htarget, hrest⟩ := htold ha hb (List.cons.inj h).2
      rw [show target = target' from htarget]
      exact ⟨rfl, hrest⟩
    | blob hash' executable => exact absurd (List.cons.inj h).1 (by decide)
    | symlink hash' => exact absurd (List.cons.inj h).1 (by decide)

/-- A record says the artifact. -/
theorem tells_record : Tells recordFed RecordFits id := by
  have hpath : Tells (fun item : VfsPath × TreeArtifact => toBeBytes item.1.bytes.length ++ item.1.bytes)
      RecordFits (fun item => item.1.bytes) :=
    tells_counted (tells_toBeBytes fun _ h => h.path)
  have hid : Tells (fun item : VfsPath × TreeArtifact => item.2.artifactId.toList) RecordFits
      (fun item => item.2.artifactId) :=
    tells_of_length (fun _ _ => Vector.length_toList) fun _ _ _ _ h => Vector.toList_inj.mp h
  have hentry : Tells (fun item : VfsPath × TreeArtifact => item.2.entry.fed) RecordFits
      (fun item => item.2.entry) :=
    fun _ _ _ _ ha hb h => tells_entry ha.entry hb.entry h
  have hsize : Tells (fun item : VfsPath × TreeArtifact => toBeBytes item.2.size) RecordFits
      (fun item => item.2.size) := tells_toBeBytes fun _ h => h.size
  have hmtime : Tells (fun item : VfsPath × TreeArtifact => toBeBytes item.2.mtime) RecordFits
      (fun item => item.2.mtime) := tells_toBeBytes fun _ h => h.mtime
  refine ((((hpath.append hid).append hentry).append hsize).append hmtime).map ?_
  rintro ⟨p, a⟩ ⟨q, b⟩ - - h
  simp only [Prod.mk.injEq] at h
  obtain ⟨⟨⟨⟨hbytes, hid⟩, hentry⟩, hsize⟩, hmtime⟩ := h
  cases a
  cases b
  simp only at hid hentry hsize hmtime
  rw [VfsPath.ext hbytes, hid, hentry, hsize, hmtime]

theorem lt_length_recordFed (item : VfsPath × TreeArtifact) : 8 < (recordFed item).length := by
  simp only [recordFed, List.length_append, length_toBeBytes]
  omega

/-! ## Directories -/

/-- What is fed for a directory with `items` below it. -/
def membershipBytes (d : VfsPath) (items : List (VfsPath × TreeArtifact)) : Bytes :=
  "kin-vfs-directory-membership-v1\x00".toUTF8.toList ++ (toBeBytes d.bytes.length ++ d.bytes) ++
    items.flatMap recordFed ++ toBeBytes items.length

/-- The bytes say the directory and what is below it. -/
theorem membershipBytes_inj {d d' : VfsPath} {items items' : List (VfsPath × TreeArtifact)}
    (hd : d.bytes.length ≤ u64Max) (hd' : d'.bytes.length ≤ u64Max)
    (hitems : ∀ item ∈ items, RecordFits item) (hitems' : ∀ item ∈ items', RecordFits item) :
    membershipBytes d items = membershipBytes d' items' ↔ d = d' ∧ items = items' := by
  constructor
  · intro h
    have hdir : Tells (fun d : VfsPath => toBeBytes d.bytes.length ++ d.bytes) (·.bytes.length ≤ u64Max)
        VfsPath.bytes := tells_counted (tells_toBeBytes fun _ h => h)
    simp only [membershipBytes, List.append_assoc] at h
    rw [← List.append_assoc (toBeBytes _) d.bytes, ← List.append_assoc (toBeBytes _) d'.bytes] at h
    obtain ⟨hpath, hrest⟩ := hdir hd hd' (List.append_cancel_left h)
    exact ⟨VfsPath.ext hpath, tells_record.flatMap_trailer (fun item _ => lt_length_recordFed item)
      hitems hitems' (length_toBeBytes _) (length_toBeBytes _) hrest⟩
  · rintro ⟨rfl, rfl⟩
    rfl

/-! ## The index -/

/-- The artifacts below `d`, in path order. -/
def descendants (byPath : Std.ExtTreeMap VfsPath TreeArtifact) (d : VfsPath) :
    List (VfsPath × TreeArtifact) :=
  byPath.toList.filter fun item => d.isAncestorOf item.1

/-- The loops of `build_directory_index`. -/
def indexBuilders (byPath : Std.ExtTreeMap VfsPath TreeArtifact) : Except String Builders := do
  let root ← DirectoryBuilder.new .root
  byPath.toList.foldlM feedArtifact ((∅ : Builders).insert .root root)

/-- All that is fed to the hash of `d`. -/
def hashedBytes (byPath : Std.ExtTreeMap VfsPath TreeArtifact) (d : VfsPath) : Option Bytes :=
  match indexBuilders byPath with
  | .ok builders => builders[d]?.map fun b => b.hasher ++ toBeBytes b.descendantCount
  | .error _ => none

theorem hashLenPrefixed_ok {bytes fed : Bytes} (h : hashLenPrefixed bytes = .ok fed) :
    bytes.length ≤ u64Max ∧ fed = toBeBytes bytes.length ++ bytes := by
  unfold hashLenPrefixed at h
  split at h
  · rename_i hlen
    cases h
    exact ⟨hlen, rfl⟩
  · cases h

theorem entryBytes_ok {e : TreeEntry} {fed : Bytes} (h : entryBytes e = .ok fed) :
    e.Fits ∧ fed = e.fed := by
  cases e with
  | blob hash executable =>
    cases h
    exact ⟨trivial, rfl⟩
  | symlink targetBlob =>
    cases h
    exact ⟨trivial, rfl⟩
  | gitlink target =>
    obtain ⟨bytes, hbytes, h⟩ := bind_eq_ok.mp h
    cases h
    obtain ⟨hlen, rfl⟩ := hashLenPrefixed_ok hbytes
    exact ⟨hlen, rfl⟩

/-- What a builder has fed, and how often, when `items` have been added to `d`. -/
structure HashedItems (d : VfsPath) (items : List (VfsPath × TreeArtifact)) (b : DirectoryBuilder) :
    Prop where
  directory : d.bytes.length ≤ u64Max
  hasher : b.hasher = "kin-vfs-directory-membership-v1\x00".toUTF8.toList ++
    (toBeBytes d.bytes.length ++ d.bytes) ++ items.flatMap recordFed
  count : b.descendantCount = items.length
  fits : ∀ item ∈ items, item.1.bytes.length ≤ u64Max ∧ item.2.entry.Fits

theorem hashedItems_new {d : VfsPath} {b : DirectoryBuilder} (h : DirectoryBuilder.new d = .ok b) :
    HashedItems d [] b := by
  unfold DirectoryBuilder.new at h
  obtain ⟨fed, hfed, h⟩ := bind_eq_ok.mp h
  cases h
  obtain ⟨hlen, rfl⟩ := hashLenPrefixed_ok hfed
  exact ⟨hlen, by simp, rfl, fun _ hitem => nomatch hitem⟩

theorem HashedItems.add {d : VfsPath} {items : List (VfsPath × TreeArtifact)} {b b' : DirectoryBuilder}
    {item : VfsPath × TreeArtifact} (hb : HashedItems d items b)
    (h : b.addDescendant d item.1 item.2 = .ok b') : HashedItems d (items ++ [item]) b' := by
  unfold addDescendant at h
  dsimp only at h
  split at h
  · cases h
  obtain ⟨path, hpath, h⟩ := bind_eq_ok.mp h
  obtain ⟨entry, hentry, h⟩ := bind_eq_ok.mp h
  split at h
  · obtain ⟨es, -, h⟩ := bind_eq_ok.mp h
    cases h
    obtain ⟨hlen, rfl⟩ := hashLenPrefixed_ok hpath
    obtain ⟨hfits, rfl⟩ := entryBytes_ok hentry
    refine ⟨hb.directory, ?_, ?_, ?_⟩
    · simp only [hb.hasher, recordFed, List.flatMap_append, List.flatMap_singleton, List.append_assoc]
    · simp [hb.count]
    · intro x hx
      rcases List.mem_append.mp hx with hx | hx
      · exact hb.fits x hx
      · rw [List.mem_singleton.mp hx]
        exact ⟨hlen, hfits⟩
  · cases h

/-- The artifacts that the turns `done` have added to `d`. -/
def added (done : List (VfsPath × (VfsPath × TreeArtifact))) (d : VfsPath) :
    List (VfsPath × TreeArtifact) :=
  (done.filter (·.1 = d)).map (·.2)

theorem added_concat (done : List (VfsPath × (VfsPath × TreeArtifact))) (d d' : VfsPath)
    (item : VfsPath × TreeArtifact) :
    added (done ++ [(d, item)]) d' = added done d' ++ if d = d' then [item] else [] := by
  unfold added
  by_cases h : d = d' <;> simp [h]

/-- Every builder has fed what the turns have added, and a directory without one has gained nothing. -/
structure HashedTurns (bs : Builders) (done : List (VfsPath × (VfsPath × TreeArtifact))) : Prop where
  builder : ∀ (d : VfsPath) (b : DirectoryBuilder), bs[d]? = some b → HashedItems d (added done d) b
  absent : ∀ d : VfsPath, bs[d]? = none → added done d = []

/-- One turn. -/
theorem HashedTurns.directory {bs bs' : Builders} {done : List (VfsPath × (VfsPath × TreeArtifact))}
    {d : VfsPath} {item : VfsPath × TreeArtifact} (hs : HashedTurns bs done)
    (h : feedDirectory item.1 item.2 bs d = .ok bs') : HashedTurns bs' (done ++ [(d, item)]) := by
  unfold feedDirectory at h
  obtain ⟨b, hb, h⟩ := bind_eq_ok.mp h
  obtain ⟨b', hb', h⟩ := bind_eq_ok.mp h
  cases h
  have hold : HashedItems d (added done d) b := by
    unfold builderAt at hb
    cases hd : bs[d]? with
    | some b₀ =>
      rw [hd] at hb
      cases hb
      exact hs.builder d b hd
    | none =>
      rw [hd] at hb
      rw [hs.absent d hd]
      exact hashedItems_new hb
  constructor
  · intro x bx hx
    rw [added_concat]
    simp only [Std.ExtTreeMap.getElem?_insert, Std.compare_eq_iff_eq] at hx
    by_cases hdx : d = x
    · subst hdx
      rw [if_pos rfl] at hx ⊢
      cases hx
      exact hold.add hb'
    · rw [if_neg hdx] at hx ⊢
      rw [List.append_nil]
      exact hs.builder x bx hx
  · intro x hx
    simp only [Std.ExtTreeMap.getElem?_insert, Std.compare_eq_iff_eq] at hx
    by_cases hdx : d = x
    · rw [if_pos hdx] at hx
      cases hx
    · rw [if_neg hdx] at hx
      rw [added_concat, if_neg hdx, List.append_nil]
      exact hs.absent x hx

/-- Both loops. -/
theorem hashedTurns_all {items : List (VfsPath × TreeArtifact)} {b : DirectoryBuilder} {bs : Builders}
    (hroot : DirectoryBuilder.new .root = .ok b)
    (h : items.foldlM feedArtifact ((∅ : Builders).insert .root b) = .ok bs) :
    HashedTurns bs (items.flatMap fun item => item.1.ancestors.map (·, item)) := by
  refine foldlM_inv (fun bs its => HashedTurns bs (its.flatMap fun item =>
    item.1.ancestors.map (·, item))) ?_ ?_ h
  · intro bs its item bs' hb hi
    rw [List.flatMap_append, List.flatMap_singleton]
    refine foldlM_inv (fun bs ds => HashedTurns bs ((its.flatMap fun item =>
      item.1.ancestors.map (·, item)) ++ ds.map (·, item))) ?_ ?_ hi
    · intro b ds d b' hb hd
      have hnext := hb.directory hd
      simpa using hnext
    · simpa using hb
  · constructor
    · intro d bd hd
      simp only [Std.ExtTreeMap.getElem?_insert, Std.compare_eq_iff_eq,
        Std.ExtTreeMap.getElem?_empty] at hd
      split at hd
      · rename_i hroot'
        subst hroot'
        cases hd
        exact hashedItems_new hroot
      · cases hd
    · intro d _
      rfl

theorem VfsPath.nodup_ancestors (p : VfsPath) : p.ancestors.Nodup := by
  induction p using VfsPath.induct with
  | hroot => exact List.nodup_nil
  | hjoin p n ih =>
    rw [VfsPath.ancestors_join, List.nodup_cons]
    refine ⟨fun hmem => ?_, ih⟩
    obtain ⟨cs, hne, hcs⟩ := VfsPath.isAncestorOf_iff.mp (VfsPath.mem_ancestors.mp hmem)
    exact hne (List.self_eq_append_right.mp hcs)

/-- A directory gains each artifact below it once. -/
theorem added_all (items : List (VfsPath × TreeArtifact)) (d : VfsPath) :
    added (items.flatMap fun item => item.1.ancestors.map (·, item)) d =
      items.filter fun item => d.isAncestorOf item.1 := by
  induction items with
  | nil => rfl
  | cons item items ih =>
    have hone : added (item.1.ancestors.map (·, item)) d =
        if d.isAncestorOf item.1 then [item] else [] := by
      have hcount : added (item.1.ancestors.map (·, item)) d =
          (item.1.ancestors.filter (· = d)).map fun _ => item := by
        rw [added, List.filter_map, List.map_map]
        rfl
      rw [hcount, List.filter_eq]
      by_cases hd : d.isAncestorOf item.1 = true
      · rw [if_pos hd, List.count_eq_one_of_mem (VfsPath.nodup_ancestors _) (VfsPath.mem_ancestors.mpr hd)]
        rfl
      · rw [if_neg hd, List.count_eq_zero_of_not_mem (fun h => hd (VfsPath.mem_ancestors.mp h))]
        rfl
    have hsplit : added ((item :: items).flatMap fun item => item.1.ancestors.map (·, item)) d =
        added (item.1.ancestors.map (·, item)) d ++
          added (items.flatMap fun item => item.1.ancestors.map (·, item)) d := by
      simp only [added, List.flatMap_cons, List.filter_append, List.map_append]
    rw [hsplit, hone, ih, List.filter_cons]
    split <;> rfl

section Digest

variable {codec : TreeCodec} {snapshot snapshot' : WorkspaceTreeSnapshot} {tree tree' : CachedTree}
  {d d' : VfsPath} {dir dir' : CachedDirectory}

/-- The sizes and times of a document are `u64`. -/
def WorkspaceTreeSnapshot.Typed (snapshot : WorkspaceTreeSnapshot) : Prop :=
  ∀ w ∈ snapshot.artifacts, w.size ≤ u64Max ∧ w.mtime ≤ u64Max

instance (snapshot : WorkspaceTreeSnapshot) : Decidable snapshot.Typed :=
  inferInstanceAs (Decidable (∀ w ∈ snapshot.artifacts, _))

/-- What an accepted document has fed for a directory, and its digest. -/
theorem hashedBytes_of_accepted (h : CachedTree.fromSnapshot codec snapshot = .ok tree)
    (ht : snapshot.Typed) (hd : tree.directories[d]? = some dir) :
    hashedBytes tree.byPath d = some (membershipBytes d (descendants tree.byPath d)) ∧
      dir.mutation.membership = codec.sha256 (membershipBytes d (descendants tree.byPath d)) ∧
      d.bytes.length ≤ u64Max ∧ ∀ item ∈ descendants tree.byPath d, RecordFits item := by
  obtain ⟨-, -, -, hby, hdirs, -⟩ := fromSnapshot_ok h
  unfold buildDirectoryIndex at hdirs
  obtain ⟨b, hroot, hdirs⟩ := bind_eq_ok.mp hdirs
  obtain ⟨bs, hbs, hdirs⟩ := bind_eq_ok.mp hdirs
  obtain ⟨bd, hbd, hfin⟩ := (finished_all hdirs).2 d dir hd
  have hbuilders : indexBuilders tree.byPath = .ok bs := bind_eq_ok.mpr ⟨b, hroot, hbs⟩
  have hitems := (hashedTurns_all hroot hbs).builder d bd hbd
  rw [added_all] at hitems
  have hfed : bd.hasher ++ toBeBytes bd.descendantCount =
      membershipBytes d (descendants tree.byPath d) := by
    rw [hitems.hasher, hitems.count]
    rfl
  refine ⟨?_, ?_, hitems.directory, ?_⟩
  · simp only [hashedBytes, hbuilders, hbd, Option.map_some, hfed]
  · unfold DirectoryBuilder.finish at hfin
    obtain ⟨es, -, hfin⟩ := bind_eq_ok.mp hfin
    cases hfin
    simp only [hfed]
  · intro item hitem
    obtain ⟨hpath, hentry⟩ := hitems.fits item hitem
    have hmem := Std.ExtTreeMap.mem_toList_iff_getElem?_eq_some.mp (List.mem_filter.mp hitem).1
    obtain ⟨w, hw, -, ha⟩ := ((artifacts_all hby).1 item.1 item.2).mp hmem
    obtain ⟨hsize, hmtime⟩ := ht w hw
    exact ⟨hpath, hentry, by rw [ha]; exact hsize, by rw [ha]; exact hmtime⟩

/-- **A membership digest identifies the directory and its contents**, as far as SHA-256 tells the byte
strings apart that it is given. -/
theorem membership_identifies (h : CachedTree.fromSnapshot codec snapshot = .ok tree)
    (h' : CachedTree.fromSnapshot codec snapshot' = .ok tree') (ht : snapshot.Typed) (ht' : snapshot'.Typed)
    (hd : tree.directories[d]? = some dir) (hd' : tree'.directories[d']? = some dir') :
    ∃ fed fed', hashedBytes tree.byPath d = some fed ∧ hashedBytes tree'.byPath d' = some fed' ∧
      dir.mutation.membership = codec.sha256 fed ∧ dir'.mutation.membership = codec.sha256 fed' ∧
      (fed = fed' ↔ d = d' ∧ descendants tree.byPath d = descendants tree'.byPath d') ∧
      ∀ inputs : Set Bytes, Set.InjOn codec.sha256 inputs → fed ∈ inputs → fed' ∈ inputs →
        dir.mutation.membership = dir'.mutation.membership →
        d = d' ∧ descendants tree.byPath d = descendants tree'.byPath d' := by
  obtain ⟨hfed, hdigest, hlen, hfits⟩ := hashedBytes_of_accepted h ht hd
  obtain ⟨hfed', hdigest', hlen', hfits'⟩ := hashedBytes_of_accepted h' ht' hd'
  have hinj := membershipBytes_inj hlen hlen' hfits hfits'
  refine ⟨_, _, hfed, hfed', hdigest, hdigest', hinj, ?_⟩
  intro inputs hcollision hmem hmem' heq
  rw [hdigest, hdigest'] at heq
  exact hinj.mp (hcollision hmem hmem' heq)

end Digest

namespace Sample

/-- SHA-256 of what the root of `oneFile [97]` feeds to the hash. -/
def oneFileRoot : Hash256 :=
  #v[174, 249, 145, 118, 41, 93, 14, 131, 212, 210, 254, 205, 111, 107, 147, 107,
    205, 179, 38, 66, 56, 24, 114, 30, 17, 95, 238, 81, 127, 211, 71, 208]

/-- The libraries on the two documents. -/
def digests : TreeCodec :=
  { codec with sha256 := fun bytes => if bytes = membershipBytes .root [] then emptyRoot else oneFileRoot }

theorem digests_injOn {fed : Bytes} (h : fed ≠ membershipBytes .root []) :
    Set.InjOn digests.sha256 {fed, membershipBytes .root []} := by
  have hne : oneFileRoot ≠ emptyRoot := by decide
  rintro a (rfl | rfl) b (rfl | rfl) hab
  · rfl
  · simp only [digests, if_neg h, if_true] at hab
    exact absurd hab hne
  · simp only [digests, if_neg h, if_true] at hab
    exact absurd hab.symm hne
  · rfl

end Sample

/-- A root with the file `a` has another digest than an empty one. -/
theorem membership_identifies_file :
    ∃ tree tree' dir dir', CachedTree.fromSnapshot Sample.digests (Sample.oneFile [97]) = .ok tree ∧
      CachedTree.fromSnapshot Sample.digests Sample.emptySnapshot = .ok tree' ∧
      tree.directories[VfsPath.root]? = some dir ∧ tree'.directories[VfsPath.root]? = some dir' ∧
      dir.mutation.membership ≠ dir'.mutation.membership := by
  have hok : (CachedTree.fromSnapshot Sample.digests (Sample.oneFile [97])).toOption.map
      (fun t => (t.directories[VfsPath.root]?.isSome, (descendants t.byPath .root).length)) =
        some (true, 1) := by
    decide +kernel
  have hok' : (CachedTree.fromSnapshot Sample.digests Sample.emptySnapshot).toOption.map
      (fun t => (t.directories[VfsPath.root]?.isSome, (descendants t.byPath .root).length)) =
        some (true, 0) := by
    decide +kernel
  obtain ⟨tree, h, hroot⟩ := Option.map_eq_some_iff.mp hok
  obtain ⟨tree', h', hroot'⟩ := Option.map_eq_some_iff.mp hok'
  rw [Prod.mk.injEq] at hroot hroot'
  obtain ⟨dir, hd⟩ := Option.isSome_iff_exists.mp hroot.1
  obtain ⟨dir', hd'⟩ := Option.isSome_iff_exists.mp hroot'.1
  have hok := Except.toOption_eq_some.mp h
  have hok' := Except.toOption_eq_some.mp h'
  obtain ⟨fed, fed', -, hfed', -, -, hiff, hident⟩ := membership_identifies hok hok'
    (by decide) (by decide) hd hd'
  have hdiff : descendants tree.byPath .root ≠ descendants tree'.byPath .root := by
    intro heq
    rw [heq, hroot'.2] at hroot
    exact absurd hroot.2 (by decide)
  have hempty : fed' = membershipBytes .root [] := by
    rw [(hashedBytes_of_accepted hok' (by decide) hd').1, List.length_eq_zero_iff.mp hroot'.2] at hfed'
    exact (Option.some.inj hfed').symm
  have hne : fed ≠ membershipBytes .root [] := fun heq => hdiff (hiff.mp (heq.trans hempty.symm)).2
  refine ⟨tree, tree', dir, dir', hok, hok', hd, hd', fun heq => ?_⟩
  exact hdiff (hident _ (Sample.digests_injOn hne) (.inl rfl) (.inr hempty) heq).2

end KinVfs
