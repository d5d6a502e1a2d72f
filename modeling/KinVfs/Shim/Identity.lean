import KinVfs.Daemon.DirectoryIndex
import KinVfs.Shim.NoFollow
import KinVfs.Shim.Seek

/-!
# Inode numbers (`path_to_inode` and `allocate_dir_vfd` of `crates/kin-vfs-shim/src/intercept.rs`)

An inode number is a hash. The hooks that return attributes hash a host path: `lstat` the path as it is spelled,
`stat` and `fstat` the one that was resolved. A directory record has the hash of the name alone.

Each step of the hash is injective, so the hash of a path is that of its last name only if the bytes before the name
leave the hash where it starts (`syntheticInode_append`). Whether listing and attributes agree is therefore decided by
the path of the directory, and not by the name (`listing_identity_iff`).
-/

namespace KinVfs

open Fallible

/-! ## The hash -/

/-- The prime of the hash is odd, so a multiplication with it can be undone. -/
theorem mul_prime_cancel {a b : UInt64} (h : a * 0x100000001b3 = b * 0x100000001b3) : a = b := by
  have hinv : ∀ x : UInt64, x * 0x100000001b3 * 0xce965057aff6957b = x := by
    intro x
    rw [UInt64.mul_assoc, show (0x100000001b3 * 0xce965057aff6957b : UInt64) = 1 by decide, UInt64.mul_one]
  rw [← hinv a, h, hinv b]

theorem xor_cancel {a b c : UInt64} (h : a ^^^ c = b ^^^ c) : a = b := by
  rw [← UInt64.xor_zero (a := a), ← UInt64.xor_self (a := c), ← UInt64.xor_assoc, h, UInt64.xor_assoc, UInt64.xor_self,
    UInt64.xor_zero]

/-- The bytes that follow keep two hashes apart. -/
theorem foldl_hash_inj {bytes : Bytes} {a b : UInt64} :
    bytes.foldl (fun hash byte => (hash ^^^ byte.toUInt64) * 0x100000001b3) a =
      bytes.foldl (fun hash byte => (hash ^^^ byte.toUInt64) * 0x100000001b3) b ↔ a = b := by
  induction bytes generalizing a b with
  | nil => rfl
  | cons byte bytes ih =>
    rw [List.foldl_cons, List.foldl_cons, ih]
    constructor
    · intro h
      exact xor_cancel (mul_prime_cancel h)
    · rintro rfl
      rfl

/-- A common suffix keeps two numbers equal, or apart. -/
theorem syntheticInode_append_right {a b suffix : Bytes} :
    syntheticInode (a ++ suffix) = syntheticInode (b ++ suffix) ↔ syntheticInode a = syntheticInode b := by
  unfold syntheticInode
  rw [List.foldl_append, List.foldl_append, foldl_hash_inj]

/-- Two bytes after the same text. -/
theorem syntheticInode_concat_inj {front : Bytes} {x y : UInt8} :
    syntheticInode (front ++ [x]) = syntheticInode (front ++ [y]) ↔ x = y := by
  constructor
  · intro h
    unfold syntheticInode at h
    rw [List.foldl_append, List.foldl_append] at h
    have hxor := mul_prime_cancel h
    rw [UInt64.xor_comm _ x.toUInt64, UInt64.xor_comm _ y.toUInt64] at hxor
    have hbyte := congrArg UInt64.toNat (xor_cancel hxor)
    rw [UInt8.toNat_toUInt64, UInt8.toNat_toUInt64] at hbyte
    exact UInt8.toNat_inj.mp hbyte
  · rintro rfl
    rfl

/-- Texts that differ in one place only, around that place. -/
theorem eq_append_of_single {a b : Bytes} {i : Nat} (hlength : a.length = b.length) (hi : a[i]? ≠ b[i]?)
    (hrest : ∀ j, a[j]? ≠ b[j]? → j = i) :
    ∃ front x y suffix, x ≠ y ∧ a = front ++ [x] ++ suffix ∧ b = front ++ [y] ++ suffix := by
  have hsame : ∀ j, j ≠ i → a[j]? = b[j]? := by
    intro j hj
    by_contra hne
    exact hj (hrest j hne)
  have hia : i < a.length := by
    by_contra hge
    rw [List.getElem?_eq_none (by omega), List.getElem?_eq_none (by omega)] at hi
    exact hi rfl
  have hib : i < b.length := by omega
  have hfront : a.take i = b.take i := by
    refine List.ext_getElem? fun j => ?_
    rw [List.getElem?_take, List.getElem?_take]
    split
    · exact hsame j (by omega)
    · rfl
  have hsuffix : a.drop (i + 1) = b.drop (i + 1) := by
    refine List.ext_getElem? fun j => ?_
    rw [List.getElem?_drop, List.getElem?_drop]
    exact hsame _ (by omega)
  refine ⟨a.take i, a[i], b[i], a.drop (i + 1), ?_, ?_, ?_⟩
  · intro heq
    rw [List.getElem?_eq_getElem hia, List.getElem?_eq_getElem hib, heq] at hi
    exact hi rfl
  · rw [List.append_assoc, List.singleton_append, ← List.drop_eq_getElem_cons hia, List.take_append_drop]
  · rw [hfront, hsuffix, List.append_assoc, List.singleton_append, ← List.drop_eq_getElem_cons hib,
      List.take_append_drop]

/-- **Close paths have different numbers**: a change of one byte changes the number, and what is appended to
both of two paths neither joins nor parts them. -/
theorem synthetic_inodes_separate :
    (∀ a b : Bytes, a.length = b.length → (∃! i : Nat, a[i]? ≠ b[i]?) → syntheticInode a ≠ syntheticInode b) ∧
      ∀ a b suffix : Bytes,
        syntheticInode (a ++ suffix) = syntheticInode (b ++ suffix) ↔ syntheticInode a = syntheticInode b := by
  refine ⟨fun a b hlength hone heq => ?_, fun a b suffix => syntheticInode_append_right⟩
  obtain ⟨i, hi, hrest⟩ := hone
  obtain ⟨front, x, y, suffix, hxy, rfl, rfl⟩ := eq_append_of_single hlength hi hrest
  rw [syntheticInode_append_right, syntheticInode_concat_inj] at heq
  exact hxy heq

/-- A path has the number of its last name if what stands before the name has that of nothing. -/
theorem syntheticInode_append (front name : Bytes) :
    syntheticInode (front ++ name) = syntheticInode name ↔ syntheticInode front = syntheticInode [] := by
  unfold syntheticInode
  rw [List.foldl_append, foldl_hash_inj]
  rfl

/-! ## Paths that the graph holds -/

section Held

variable {g : ContentProvider} {roots : List Bytes} {root : Bytes} {strict : Bool} {p q : Bytes} {key : VfsPath}
  {vstat : VirtualStat} {s s' : Shim} {fd : Nat} {flags : OpenFlags}

/-- An object that is no link is resolved to its own path. -/
theorem resolve_direct (hm : MapsBack roots root) (hs : g.stat key = .ok vstat) (hlink : vstat.isSymlink = false)
    (r : Resolver LastCall) :
    (exec (resolveGraphPath (daemonOracle g roots) roots root key) r).1 = .ok (hostPath root key, vstat) := by
  have hprobe : ∀ last, ((daemonOracle g roots).stat (hostPath root key) last).1 = .present vstat g.version := by
    intro last
    simp only [daemonOracle, graphStat, graphCall_of_key (hm key), clientStat, hs]
  unfold resolveGraphPath
  rcases VfsPath.root_or_join key with rfl | ⟨d, n, rfl⟩
  · rw [hostPath_root] at hprobe ⊢
    rw [if_pos (VfsPath.isRoot_iff.mpr rfl), exec_ask, exec_askRoot, hprobe]
  · rw [VfsPath.isRoot_join, if_neg Bool.false_ne_true, exec_bind, exec_ask, exec_askStat, ← hostPath_join]
    dsimp only
    rw [hprobe]
    dsimp only
    rw [exec_bind, hlink, if_neg Bool.false_ne_true]
    rfl

theorem stat_ino (hm : MapsBack roots root) (hp : graphRequestKey roots p = some key) (hs : g.stat key = .ok vstat)
    (hlink : vstat.isSymlink = false) :
    (exec (stat g roots root strict p) s).1 = .ok (fillStatBuf vstat (hostPath root key)) := by
  have hr := resolve_direct hm hs hlink s.resolver
  rw [exec_stat hp]
  rcases hx : exec (resolveGraphPath (daemonOracle g roots) roots root key) s.resolver with ⟨out, r⟩
  rw [hx] at hr
  cases hr
  rfl

/-- An open that succeeds opens the path as it is spelled, or as it was resolved. -/
theorem openRead_cases (hm : MapsBack roots root) (hp : graphRequestKey roots p = some key)
    (hs : g.stat key = .ok vstat) (hlink : vstat.isSymlink = false)
    (h : exec (openRead g roots root strict flags p) s = (.ok fd, s')) :
    ∃ q s₁, (q = p ∨ q = hostPath root key) ∧ graphRequestKey roots q = some key ∧
      exec (openResolved g roots strict flags (.ok (q, vstat))) s₁ = (.ok fd, s') := by
  unfold openRead at h
  by_cases hflags : flags.nofollow = true
  · rw [if_pos hflags, exec_bind, exec_callGraph, graphStat, graphCall_of_key hp] at h
    simp only [clientStat, hs, hlink, Bool.false_eq_true, if_false] at h
    exact ⟨p, _, .inl rfl, hp, h⟩
  · have hr := resolve_direct hm hs hlink s.resolver
    rw [if_neg hflags, exec_bind, exec_graphStatFollow hp, hr] at h
    exact ⟨hostPath root key, _, .inr rfl, hm key, h⟩

theorem allocateVfd_path {size : Nat} {content : Option Bytes}
    (h : exec (allocateVfd q size content) s = (.ok (some fd), s')) :
    ∃ handle, s'.table.map[fd]? = some handle ∧ handle.path = q := by
  have hx : exec (allocateVfd q size content) s = (.ok (s.table.allocate q size content).1,
      { s with table := (s.table.allocate q size content).2 }) := rfl
  rcases ha : s.table.allocate q size content with ⟨fd', table⟩
  rw [hx, ha] at h
  cases h
  obtain ⟨-, hmap⟩ := FdTable.insertNew_spec ha
  exact ⟨_, by rw [hmap]; exact Std.ExtTreeMap.getElem?_insert_self, rfl⟩

/-- The descriptor of a directory has its records from the start. -/
theorem allocateDirVfd_handle {entries : List DirEntry} (hq : graphRequestKey roots q = some key)
    (hread : g.readDir key = .ok entries) (h : exec (allocateDirVfd g roots q) s = (.ok (some fd), s')) :
    ∃ handle, s'.table.map[fd]? = some handle ∧ handle.path = q ∧ handle.isDirectory = true ∧
      handle.dirEntries = some (entries.map DirEntry.raw) ∧ handle.dirOffset = 0 := by
  unfold allocateDirVfd at h
  rw [exec_bind, exec_callGraph, graphReadDir, graphCall_of_key hq] at h
  simp only [clientReadDir, clientAnswer, hread] at h
  rw [exec_bind, exec_get] at h
  dsimp only at h
  rw [exec_bind, exec_set] at h
  dsimp only [exec_pure] at h
  rw [Shim.table_setLast] at h
  rcases ha : s.table.allocateDir q (entries.map DirEntry.raw) with ⟨fd', table⟩
  rw [ha] at h
  cases h
  obtain ⟨-, hmap⟩ := FdTable.insertNew_spec ha
  exact ⟨_, by rw [hmap]; exact Std.ExtTreeMap.getElem?_insert_self, rfl, rfl, rfl, rfl⟩

/-- A directory that was opened. -/
theorem openResolved_dir {entries : List DirEntry} (hq : graphRequestKey roots q = some key)
    (hread : g.readDir key = .ok entries) (hdir : vstat.isDir = true)
    (h : exec (openResolved g roots strict flags (.ok (q, vstat))) s = (.ok fd, s')) :
    ∃ handle, s'.table.map[fd]? = some handle ∧ handle.path = q ∧ handle.isDirectory = true ∧
      handle.dirEntries = some (entries.map DirEntry.raw) ∧ handle.dirOffset = 0 := by
  unfold openResolved at h
  simp only [hdir, if_true] at h
  obtain ⟨out, t, ha, hok⟩ := exec_bind_ok.mp h
  cases out with
  | none => cases hok
  | some n =>
    cases hok
    exact allocateDirVfd_handle hq hread ha

/-- A file that was opened. -/
theorem openResolved_file (hdir : vstat.isDir = false)
    (h : exec (openResolved g roots strict flags (.ok (q, vstat))) s = (.ok fd, s')) :
    ∃ handle, s'.table.map[fd]? = some handle ∧ handle.path = q := by
  unfold openResolved at h
  simp only [hdir, Bool.false_eq_true, if_false] at h
  split at h
  · cases h
  · split at h
    · obtain ⟨out, t, hpay, hok⟩ := exec_bind_ok.mp h
      cases out with
      | error e =>
        unfold failGraphPath at hok
        rw [exec_bind, exec_get] at hok
        cases hok
      | ok payload => exact allocateVfd_path (allocateVfd_opened (fun _ => rfl) (fun _ => rfl) hok)
    · cases h

/-- `fstat` of a descriptor hashes the path of its handle. -/
theorem fstat_ino {handle : VirtualFileHandle} (hmap : s.table.map[fd]? = some handle)
    (hp : graphRequestKey roots handle.path = some key) (hs : g.stat key = .ok vstat) :
    (exec (fstat g roots fd) s).1 = .ok (fillStatBuf vstat handle.path) := by
  unfold fstat requireHandle
  rw [exec_bind, exec_bind, exec_get]
  dsimp only
  rw [hmap]
  dsimp only [exec_pure]
  rw [exec_bind, exec_callGraph, graphStat, graphCall_of_key hp]
  simp only [clientStat, hs]
  rfl

end Held

/-! ## Listing and attributes -/

/-- The attributes of the object at `p` have the inode number `ino`, however they are asked for. -/
structure HasInode (g : ContentProvider) (roots : List Bytes) (root : Bytes) (strict : Bool) (s : Shim) (p : Bytes)
    (ino : UInt64) : Prop where
  lstat : ∃ buf, (exec (lstat g roots strict p) s).1 = .ok buf ∧ buf.ino = ino
  stat : ∃ buf, (exec (stat g roots root strict p) s).1 = .ok buf ∧ buf.ino = ino
  fstat : ∀ flags fd s', exec (openRead g roots root strict flags p) s = (.ok fd, s') →
    ∃ buf, (exec (fstat g roots fd) s').1 = .ok buf ∧ buf.ino = ino

/-- An object that is a file or a directory has an inode number if both spellings of its path have it. -/
theorem hasInode_iff {g : ContentProvider} {roots : List Bytes} {root : Bytes} {strict : Bool} {s : Shim} {p : Bytes}
    {ino : UInt64} {key : VfsPath} {vstat : VirtualStat} (hm : MapsBack roots root)
    (hp : graphRequestKey roots p = some key) (hs : g.stat key = .ok vstat) (hlink : vstat.isSymlink = false)
    (hdir : vstat.isDir = true → ∃ entries, g.readDir key = .ok entries) :
    HasInode g roots root strict s p ino ↔ syntheticInode p = ino ∧ syntheticInode (hostPath root key) = ino := by
  have hlstat : (exec (lstat g roots strict p) s).1 = .ok (fillStatBuf vstat p) := by
    rw [exec_lstat hp, entryStat, hs]
  constructor
  · rintro ⟨⟨buf, hbuf, hino⟩, ⟨buf', hbuf', hino'⟩, -⟩
    rw [hlstat] at hbuf
    rw [stat_ino hm hp hs hlink] at hbuf'
    cases hbuf
    cases hbuf'
    exact ⟨hino, hino'⟩
  · rintro ⟨hspelled, hresolved⟩
    refine ⟨⟨_, hlstat, hspelled⟩, ⟨_, stat_ino hm hp hs hlink, hresolved⟩, fun flags fd s' hopen => ?_⟩
    obtain ⟨q, s₁, hq, hqkey, hok⟩ := openRead_cases hm hp hs hlink hopen
    obtain ⟨handle, hmap, hpath⟩ : ∃ handle, s'.table.map[fd]? = some handle ∧ handle.path = q := by
      cases hd : vstat.isDir with
      | false => exact openResolved_file hd hok
      | true =>
        obtain ⟨entries, hread⟩ := hdir hd
        obtain ⟨handle, hmap, hpath, -⟩ := openResolved_dir hqkey hread hd hok
        exact ⟨handle, hmap, hpath⟩
    subst hpath
    refine ⟨_, fstat_ino hmap hqkey hs, ?_⟩
    rcases hq with hq | hq
    · rw [hq]
      exact hspelled
    · rw [hq]
      exact hresolved

section Snapshot

variable {codec : TreeCodec} {snapshot : WorkspaceTreeSnapshot} {tree : CachedTree} {d : VfsPath}
  {entries : List DirEntry} {entry : DirEntry}

theorem isSymlink_of_fileType {key : VfsPath} {st : VirtualStat} (h : tree.statPath key = .ok st)
    (hty : st.fileType ≠ .symlink) : st.isSymlink = false := by
  unfold CachedTree.statPath at h
  split at h
  · unfold CachedTree.statForEntry at h
    split at h
    · cases h
      rfl
    · cases h
      exact absurd rfl hty
    · cases h
  · split at h
    · cases h
      rfl
    · cases h

/-- What a directory of a snapshot is. -/
theorem stat_of_listDir (h : CachedTree.fromSnapshot codec snapshot = .ok tree) (hlist : tree.listDir d = .ok entries) :
    ∃ st, tree.statPath d = .ok st ∧ st.isSymlink = false ∧ st.isDir = true := by
  obtain ⟨dir, hd, -⟩ := listDir_ok hlist
  have hmem : d ∈ tree.directories := by
    rw [Std.ExtTreeMap.mem_iff_isSome_getElem?, hd]
    rfl
  have hnone := (accepted_of_fromSnapshot h).apart d hmem
  refine ⟨.directory dir.mutation.authorityGeneration, ?_, rfl, rfl⟩
  unfold CachedTree.statPath
  rw [Std.ExtTreeMap.getElem?_eq_none hnone, hd]

/-- What an entry that is a file or a directory is. -/
theorem stat_of_entry (h : CachedTree.fromSnapshot codec snapshot = .ok tree) (hlist : tree.listDir d = .ok entries)
    (hentry : entry ∈ entries) (hty : entry.fileType = .file ∨ entry.fileType = .directory) :
    ∃ st, tree.statPath (d.join entry.name) = .ok st ∧ st.isSymlink = false ∧
      (st.isDir = true → ∃ es, tree.listDir (d.join entry.name) = .ok es) := by
  have hindex := exactIndex_of_fromSnapshot h
  have hkind := (hindex.listed d entries hlist entry.name entry.fileType).mp hentry
  have hagree := hindex.lookups (d.join entry.name)
  unfold Agree at hagree
  rw [hkind] at hagree
  rcases hty with hty | hty
  · rw [hty] at hagree
    obtain ⟨-, -, ⟨st, hst, htype⟩, -, -⟩ := hagree
    refine ⟨st, hst, isSymlink_of_fileType hst (by simp [htype]), fun hdir => ?_⟩
    unfold VirtualStat.fileType at htype
    rw [if_pos hdir] at htype
    cases htype
  · rw [hty] at hagree
    obtain ⟨-, -, ⟨st, hst, htype⟩, -, hes⟩ := hagree
    exact ⟨st, hst, isSymlink_of_fileType hst (by simp [htype]), fun _ => hes⟩

end Snapshot

/-- **When a listing agrees with the attributes**: opened under the path `dirPath`, the directory `d` has the records of
its entries. The number in the record of a file or a directory is that of its attributes exactly if the hash of the
directory's path with its slash, both as it is spelled and as it is resolved, is that of no bytes. -/
theorem listing_identity_iff (codec : TreeCodec) (snapshot : WorkspaceTreeSnapshot) (tree : CachedTree)
    (h : CachedTree.fromSnapshot codec snapshot = .ok tree) (fetch : Hash256 → Nat → VfsPath → VfsResult Bytes)
    (roots : List Bytes) (root : Bytes) (hm : MapsBack roots root) (strict : Bool) (s : Shim) (d : VfsPath)
    (entries : List DirEntry) (hlist : tree.listDir d = .ok entries) (entry : DirEntry) (hentry : entry ∈ entries)
    (hty : entry.fileType = .file ∨ entry.fileType = .directory) (dirPath : Bytes)
    (hdir : graphRequestKey roots dirPath = some d)
    (hp : graphRequestKey roots (dirPath ++ slash :: entry.name.bytes) = some (d.join entry.name)) :
    (∀ flags fd s', exec (openRead (tree.provider fetch) roots root strict flags dirPath) s = (.ok fd, s') →
      AtEntry fd (entries.map DirEntry.raw) 0 s') ∧
    (HasInode (tree.provider fetch) roots root strict s (dirPath ++ slash :: entry.name.bytes) entry.raw.dIno ↔
      syntheticInode (dirPath ++ [slash]) = syntheticInode [] ∧
        syntheticInode (hostPath root d ++ [slash]) = syntheticInode []) := by
  constructor
  · intro flags fd s' hopen
    obtain ⟨st, hst, hlink, hisdir⟩ := stat_of_listDir h hlist
    obtain ⟨q, s₁, -, hq, hok⟩ := openRead_cases hm hdir hst hlink hopen
    obtain ⟨handle, hmap, -, hhdir, hentries, hpos⟩ := openResolved_dir hq hlist hisdir hok
    exact ⟨handle, hmap, hhdir, hentries, hpos⟩
  · obtain ⟨st, hst, hlink, hes⟩ := stat_of_entry h hlist hentry hty
    have hspelled : dirPath ++ slash :: entry.name.bytes = (dirPath ++ [slash]) ++ entry.name.bytes := by simp
    have hresolved : hostPath root (d.join entry.name) = (hostPath root d ++ [slash]) ++ entry.name.bytes := by
      rw [← joinAtPath_hostPath, joinAtPath, if_neg entry.name.head?_ne_slash]
      simp
    rw [hasInode_iff hm hp hst hlink hes, hspelled, hresolved]
    show syntheticInode _ = syntheticInode entry.name.bytes ∧ syntheticInode _ = syntheticInode entry.name.bytes ↔ _
    rw [syntheticInode_append, syntheticInode_append]

namespace Sample

/-- The listings of the root and of `d`. -/
def linkedListings (tree : CachedTree) : Option (List DirEntry) × Option (List DirEntry) :=
  ((tree.listDir .root).toOption, (tree.listDir directory).toOption)

theorem linkedTree_listings :
    (CachedTree.fromSnapshot linkedCodec linkedSnapshot).toOption.map linkedListings =
      some (some [⟨⟨[100], rfl⟩, .directory⟩, ⟨⟨[108], rfl⟩, .symlink⟩], some [⟨fileName, .file⟩]) := by
  decide +kernel

theorem linkedTree_lists : ∃ tree, CachedTree.fromSnapshot linkedCodec linkedSnapshot = .ok tree ∧
    tree.listDir .root = .ok [⟨⟨[100], rfl⟩, .directory⟩, ⟨⟨[108], rfl⟩, .symlink⟩] ∧
    tree.listDir directory = .ok [⟨fileName, .file⟩] := by
  have h := linkedTree_listings
  cases hf : CachedTree.fromSnapshot linkedCodec linkedSnapshot with
  | error e =>
    rw [hf] at h
    cases h
  | ok tree =>
    rw [hf] at h
    obtain ⟨hroot, hdir⟩ := Prod.mk.inj (Option.some.inj h)
    exact ⟨tree, rfl, Except.toOption_eq_some.mp hroot, Except.toOption_eq_some.mp hdir⟩

theorem mapsBack_workspace : MapsBack [workspace] workspace := by
  have hroot : hostComponents workspace = .ok (none, [[119]]) := by decide
  exact mapsBack_single hroot

end Sample

/-- The directory `/w/d`, listed in `/w`. -/
theorem listing_identity_iff_directory :
    ∃ tree, CachedTree.fromSnapshot Sample.linkedCodec Sample.linkedSnapshot = .ok tree ∧
      ¬ HasInode (tree.provider Sample.twoBlobs) [Sample.workspace] Sample.workspace false Sample.freshShim
        [47, 119, 47, 100] (syntheticInode [100]) := by
  obtain ⟨tree, hf, hroot, -⟩ := Sample.linkedTree_lists
  refine ⟨tree, hf, fun hcon => ?_⟩
  have hiff := (listing_identity_iff Sample.linkedCodec Sample.linkedSnapshot tree hf Sample.twoBlobs [Sample.workspace]
    Sample.workspace Sample.mapsBack_workspace false Sample.freshShim .root _ hroot ⟨⟨[100], rfl⟩, .directory⟩
    List.mem_cons_self (.inr rfl) Sample.workspace (Sample.mapsBack_workspace .root)
    (Sample.mapsBack_workspace (.join .root ⟨[100], rfl⟩))).2
  exact absurd (hiff.mp hcon).1 (by decide)

/-- The record of `f` in the listing of `/w/d` has the number of `f`, and `/w/d/f` has another. -/
theorem listing_other_inode :
    ∃ tree, CachedTree.fromSnapshot Sample.linkedCodec Sample.linkedSnapshot = .ok tree ∧
      tree.listDir Sample.directory = .ok [⟨Sample.fileName, .file⟩] ∧
      ¬ HasInode (tree.provider Sample.twoBlobs) [Sample.workspace] Sample.workspace false Sample.freshShim
        [47, 119, 47, 100, 47, 102] (DirEntry.raw ⟨Sample.fileName, .file⟩).dIno := by
  obtain ⟨tree, hf, -, hdir⟩ := Sample.linkedTree_lists
  refine ⟨tree, hf, hdir, ?_⟩
  rintro ⟨⟨buf, hbuf, hino⟩, -, -⟩
  obtain ⟨st, hst, -, -⟩ := stat_of_entry hf hdir List.mem_cons_self (.inl rfl)
  have hkey : graphRequestKey [Sample.workspace] [47, 119, 47, 100, 47, 102] =
      some (Sample.directory.join Sample.fileName) :=
    Sample.mapsBack_workspace (Sample.directory.join Sample.fileName)
  have hst' : (tree.provider Sample.twoBlobs).stat (Sample.directory.join Sample.fileName) = .ok st := hst
  rw [exec_lstat hkey, entryStat, hst'] at hbuf
  cases hbuf
  have hsame : syntheticInode [47, 119, 47, 100, 47, 102] = syntheticInode [102] := hino
  exact absurd hsame (by decide)

end KinVfs
