import KinVfs.Daemon.KinWriter

/-!
# The staging map

What each critical section does to the map, entry by entry, and what `health` says about it.
-/

namespace KinVfs
namespace Staging

variable {st : Staging} {p q : VfsPath} {r : Arc}

@[simp] theorem entries_init : init.entries = ∅ := rfl

theorem getElem?_mark {staged : Staged} {now : Nat} :
    (st.mark p staged r now).entries[q]? = if p = q then some ⟨staged, r⟩ else st.entries[q]? := by
  simp only [mark, Std.ExtTreeMap.getElem?_insert, Std.compare_eq_iff_eq]

theorem staged_mark {d : Staged} {now : Nat} :
    (st.mark p d r now).staged q = if p = q then some d else st.staged q := by
  rw [staged, getElem?_mark, staged]
  split <;> rfl

@[simp] theorem lastError_mark {staged : Staged} {now : Nat} :
    (st.mark p staged r now).lastError = none := rfl

@[simp] theorem entries_recordFailure {reason : String} :
    (st.recordFailure reason).entries = st.entries := rfl

@[simp] theorem lastError_recordFailure {reason : String} :
    (st.recordFailure reason).lastError = some reason := rfl

@[simp] theorem entries_clear {pending : List (VfsPath × Arc)} {adm : Admission} :
    (st.clear pending adm).entries = clearPending st.entries pending := rfl

@[simp] theorem lastError_clear {pending : List (VfsPath × Arc)} {adm : Admission} :
    (st.clear pending adm).lastError = none := rfl

theorem mem_snapshot :
    (p, r) ∈ st.snapshot ↔ ∃ e, st.entries[p]? = some e ∧ e.revision = r := by
  unfold snapshot
  rw [List.mem_map]
  constructor
  · rintro ⟨⟨q, e⟩, hm, heq⟩
    cases heq
    exact ⟨e, Std.ExtTreeMap.mem_toList_iff_getElem?_eq_some.mp hm, rfl⟩
  · rintro ⟨e, he, rfl⟩
    exact ⟨(p, e), Std.ExtTreeMap.mem_toList_iff_getElem?_eq_some.mpr he, rfl⟩

/-- **What a successful admission clears.** Exactly the entries that still carry the revision
that was snapped. -/
theorem getElem?_clearPending {m : Std.ExtTreeMap VfsPath StagedEntry}
    {pending : List (VfsPath × Arc)} :
    (clearPending m pending)[p]? = m[p]?.filter fun e => !pending.contains (p, e.revision) := by
  unfold clearPending
  induction pending generalizing m with
  | nil => cases h : m[p]? <;> simp [h, Option.filter]
  | cons x pending ih =>
    obtain ⟨q, r⟩ := x
    rw [List.foldl_cons, ih]
    dsimp only
    by_cases hq : q = p
    · subst hq
      cases hm : m[q]? with
      | none => simp [hm]
      | some e =>
        by_cases hr : e.revision = r
        · rw [if_pos (by simp [hr]), Std.ExtTreeMap.getElem?_erase]
          simp [Option.filter, hr]
        · rw [if_neg (by simp [hr]), hm]
          simp [Option.filter, hr]
    · have hne : ¬ p = q := fun h => hq h.symm
      have hm : (if m[q]?.any (·.revision == r) then m.erase q else m)[p]? = m[p]? := by
        split
        · simp [Std.ExtTreeMap.getElem?_erase, hq]
        · rfl
      rw [hm]
      simp [hne]

theorem keys_eq_nil : st.entries.keys = [] ↔ ∀ p : VfsPath, st.entries[p]? = none := by
  rw [← List.isEmpty_iff, Std.ExtTreeMap.isEmpty_keys, Std.ExtTreeMap.isEmpty_iff]
  constructor
  · intro h p
    rw [h]
    rfl
  · intro h
    exact Std.ExtTreeMap.ext_getElem? fun p => by rw [h p]; rfl

theorem health_eq_settled {last : Option Admission} :
    st.health = .settled last ↔
      st.lastError = none ∧ st.entries.keys = [] ∧ st.lastAdmission = last := by
  unfold health
  cases st.lastError with
  | some e => simp
  | none => cases h : st.entries.keys <;> simp

theorem health_eq_degraded {paths : List VfsPath} {reason : String} :
    st.health = .degraded paths reason ↔
      st.lastError = some reason ∧ st.entries.keys = paths := by
  unfold health
  cases st.lastError with
  | some e => simp [and_comm]
  | none => cases h : st.entries.keys <;> simp

end Staging
end KinVfs
