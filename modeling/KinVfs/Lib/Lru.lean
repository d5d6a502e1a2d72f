import Mathlib.Algebra.Group.Int.Defs
import Mathlib.Algebra.Group.Nat.Defs
import Mathlib.Tactic.Common

/-!
# A least-recently-used cache

A bounded map as a list of entries, the most recently used first: `get` moves the entry it finds to
the front, `put` drops the last entry when the cache is full.
-/

namespace Lru

variable {κ ν : Type} [DecidableEq κ] {key : κ} {value : ν} {cache : List (κ × ν)} {x : κ × ν}

/-- The value of `key`, without a use of it. -/
def peek (key : κ) (cache : List (κ × ν)) : Option ν := (cache.find? (·.1 = key)).map (·.2)

/-- The value of `key`, and the cache after its use. -/
def get (key : κ) (cache : List (κ × ν)) : Option ν × List (κ × ν) :=
  match cache.find? (·.1 = key) with
  | none => (none, cache)
  | some entry => (some entry.2, entry :: cache.filter (·.1 ≠ key))

/-- Add or replace the value of `key`; the cache holds `cap` entries. -/
def put (cap : Nat) (key : κ) (value : ν) (cache : List (κ × ν)) : List (κ × ν) :=
  ((key, value) :: cache.filter (·.1 ≠ key)).take cap

@[simp] theorem peek_nil : peek key ([] : List (κ × ν)) = none := rfl

theorem mem_of_peek (h : peek key cache = some value) : (key, value) ∈ cache := by
  obtain ⟨⟨k, v⟩, hfind, rfl⟩ := Option.map_eq_some_iff.mp h
  have hk : k = key := by simpa using List.find?_some hfind
  exact hk ▸ List.mem_of_find?_eq_some hfind

theorem get_fst : (get key cache).1 = peek key cache := by
  unfold get peek
  cases cache.find? (·.1 = key) <;> rfl

/-- A use changes no entry. -/
theorem mem_get (h : x ∈ (get key cache).2) : x ∈ cache := by
  unfold get at h
  cases hfind : cache.find? (·.1 = key) with
  | none => simpa [hfind] using h
  | some entry =>
    rw [hfind, List.mem_cons] at h
    rcases h with rfl | h
    · exact List.mem_of_find?_eq_some hfind
    · exact (List.mem_filter.mp h).1

theorem mem_put {cap : Nat} (h : x ∈ put cap key value cache) : x = (key, value) ∨ x ∈ cache := by
  rcases List.mem_cons.mp (List.mem_of_mem_take h) with rfl | h
  · exact .inl rfl
  · exact .inr ((List.mem_filter.mp h).1)

theorem peek_cons_ne {k : κ} (h : x.1 ≠ k) : peek k (x :: cache) = peek k cache := by
  simp [peek, h]

/-- What is left after the entries of `key` are dropped. -/
theorem peek_filter {k : κ} (h : k ≠ key) :
    peek k (cache.filter (·.1 ≠ key)) = peek k cache := by
  unfold peek
  rw [List.find?_filter]
  congr 2
  funext x
  by_cases hx : x.1 = k
  · simp [hx, h]
  · simp [hx]

theorem peek_filter_self : peek key (cache.filter (·.1 ≠ key)) = none := by
  unfold peek
  rw [List.find?_filter, Option.map_eq_none_iff, List.find?_eq_none]
  intro x _
  simp

/-- A use changes no value. -/
theorem peek_get {k : κ} : peek k (get key cache).2 = peek k cache := by
  unfold get
  cases hfind : cache.find? (·.1 = key) with
  | none => rfl
  | some entry =>
    have hkey : entry.1 = key := by simpa using List.find?_some hfind
    by_cases hk : k = key
    · subst hk
      simp [peek, hfind, hkey]
    · show peek k (entry :: cache.filter (·.1 ≠ key)) = _
      rw [peek_cons_ne fun h => hk (h.symm.trans hkey), peek_filter hk]

/-- A put adds one value and may drop others. -/
theorem peek_put {cap : Nat} {k : κ} {v : ν} (h : peek k (put cap key value cache) = some v) :
    k = key ∧ v = value ∨ k ≠ key ∧ peek k cache = some v := by
  have hfull : peek k ((key, value) :: cache.filter (·.1 ≠ key)) = some v := by
    obtain ⟨x, hfind, rfl⟩ := Option.map_eq_some_iff.mp h
    refine Option.map_eq_some_iff.mpr ⟨x, ?_, rfl⟩
    exact (List.take_prefix cap _).find?_eq_some hfind
  by_cases hk : k = key
  · subst hk
    simp only [peek, List.find?_cons, decide_true, Option.map_some, Option.some.injEq] at hfull
    exact .inl ⟨rfl, hfull.symm⟩
  · rw [peek_cons_ne (Ne.symm hk), peek_filter hk] at hfull
    exact .inr ⟨hk, hfull⟩

end Lru
