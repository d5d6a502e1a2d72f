import Mathlib.Algebra.Group.Int.Defs
import Mathlib.Algebra.Group.Nat.Defs
import Mathlib.Tactic.Common

/-!
# File content as a byte array

`overwrite`, `resize` and `slice` are what `pwrite`, `ftruncate` and a ranged read do to the bytes
of a file; `Edit` is one change and `applyEdits` a sequence.

Two contents of which an edit sequence makes the same bytes need not be equal: `SameUnder` says
exactly which positions matter (`applyEdits_congr`). `kept` are the positions the sequence leaves alone, `resized`
says whether it fixes the length.
-/

namespace Content

abbrev Bytes := List UInt8

/-- Replace `data.length` bytes at `offset`, zero-filling a gap. Nothing is written by no bytes. -/
def overwrite (c : Bytes) (offset : Nat) (data : Bytes) : Bytes :=
  if data = [] then c
  else c.take offset ++ List.replicate (offset - c.length) 0 ++ data ++
    c.drop (offset + data.length)

/-- Truncate or zero-extend to `n` bytes. -/
def resize (c : Bytes) (n : Nat) : Bytes := c.take n ++ List.replicate (n - c.length) 0

/-- The bytes from `start` up to `stop`. -/
def slice (c : Bytes) (start stop : Nat) : Bytes := (c.drop start).take (stop - start)

/-- The byte at `i`, zero past the end. -/
def at0 (c : Bytes) (i : Nat) : UInt8 := c.getD i 0

theorem ext_at0 {c d : Bytes} (hl : c.length = d.length) (h : ∀ i < c.length, at0 c i = at0 d i) :
    c = d := by
  apply List.ext_getElem hl
  intro i h₁ h₂
  have := h i h₁
  simpa [at0, List.getD_eq_getElem?_getD, h₁, h₂] using this

theorem at0_of_le {c : Bytes} {i : Nat} (h : c.length ≤ i) : at0 c i = 0 := by
  simp [at0, List.getD_eq_getElem?_getD, List.getElem?_eq_none h]

theorem length_overwrite {c data : Bytes} {offset : Nat} (h : data ≠ []) :
    (overwrite c offset data).length = max c.length (offset + data.length) := by
  simp only [overwrite, h, ↓reduceIte, List.length_append, List.length_take, List.length_drop,
    List.length_replicate]
  omega

@[simp] theorem length_resize (c : Bytes) (n : Nat) : (resize c n).length = n := by
  simp only [resize, List.length_append, List.length_take, List.length_replicate]
  omega

theorem at0_overwrite {c data : Bytes} {offset i : Nat} (h : data ≠ []) :
    at0 (overwrite c offset data) i =
      if offset ≤ i ∧ i < offset + data.length then at0 data (i - offset) else at0 c i := by
  simp only [at0, overwrite, h, ↓reduceIte, List.getD_eq_getElem?_getD, List.append_assoc]
  split
  · rename_i hi
    rw [List.getElem?_append_right (by simp; omega), List.getElem?_append_right (by simp; omega),
      List.getElem?_append_left (by simp; omega)]
    congr 2
    simp only [List.length_take, List.length_replicate]
    omega
  · rename_i hi
    by_cases hlt : i < offset
    · by_cases hc : i < c.length
      · rw [List.getElem?_append_left (by simp; omega), List.getElem?_take_of_lt hlt]
      · rw [List.getElem?_append_right (by simp; omega), List.getElem?_append_left (by simp; omega),
          List.getElem?_eq_none (l := c) (by omega), List.getElem?_replicate]
        split <;> rfl
    · rw [List.getElem?_append_right (by simp; omega), List.getElem?_append_right (by simp; omega),
        List.getElem?_append_right (by simp; omega), List.getElem?_drop]
      congr 2
      simp only [List.length_take, List.length_replicate]
      omega

theorem at0_resize {c : Bytes} {n i : Nat} :
    at0 (resize c n) i = if i < n then at0 c i else 0 := by
  split
  · rename_i h
    simp only [at0, resize, List.getD_eq_getElem?_getD]
    by_cases hc : i < c.length
    · rw [List.getElem?_append_left (by simp; omega), List.getElem?_take_of_lt h]
    · rw [List.getElem?_append_right (by simp; omega), List.getElem?_replicate,
        List.getElem?_eq_none (l := c) (by omega)]
      split <;> rfl
  · rename_i h
    exact at0_of_le (by simp; omega)

theorem slice_all (c : Bytes) {n : Nat} (h : c.length ≤ n) : slice c 0 n = c := by
  simp [slice, List.take_of_length_le h]

/-! ## Edit sequences -/

/-- One change of a file's content. -/
inductive Edit where
  | write (offset : Nat) (data : Bytes)
  | setLen (n : Nat)
  /-- Create or truncate to nothing. -/
  | create
  deriving DecidableEq, Repr

def Edit.apply : Edit → Bytes → Bytes
  | .write offset data, c => overwrite c offset data
  | .setLen n, c => resize c n
  | .create, _ => []

def applyEdits (es : List Edit) (c : Bytes) : Bytes := es.foldl (fun c e => e.apply c) c

/-- The sequence leaves the byte at `i` as it was. -/
def kept : List Edit → Nat → Bool
  | [], _ => true
  | .write offset data :: es, i => !(offset ≤ i && i < offset + data.length) && kept es i
  | .setLen n :: es, i => i < n && kept es i
  | .create :: _, _ => false

/-- The sequence fixes the length, whatever it was. -/
def resized : List Edit → Bool
  | [] => false
  | .write .. :: es => resized es
  | .setLen _ :: _ | .create :: _ => true

/-- The end of the last byte written. -/
def reach : List Edit → Nat
  | [] => 0
  | .write offset data :: es => max (if data = [] then 0 else offset + data.length) (reach es)
  | .setLen _ :: es | .create :: es => reach es

@[simp] theorem applyEdits_nil (c : Bytes) : applyEdits [] c = c := rfl

@[simp] theorem applyEdits_cons (e : Edit) (es : List Edit) (c : Bytes) :
    applyEdits (e :: es) c = applyEdits es (e.apply c) := rfl

theorem length_edit_write (c : Bytes) (offset : Nat) (data : Bytes) :
    ((Edit.write offset data).apply c).length =
      max c.length (if data = [] then 0 else offset + data.length) := by
  by_cases h : data = []
  · simp [Edit.apply, overwrite, h]
  · simp [Edit.apply, length_overwrite h, h]

theorem at0_edit_write (c : Bytes) (offset i : Nat) (data : Bytes) :
    at0 ((Edit.write offset data).apply c) i =
      if offset ≤ i ∧ i < offset + data.length then at0 data (i - offset) else at0 c i := by
  by_cases h : data = []
  · subst h
    rw [if_neg (by simp only [List.length_nil]; omega)]
    rfl
  · exact at0_overwrite h

/-- `c` and `d` differ only where the sequence does not keep them: it makes the same length of both,
and they agree on the bytes it leaves alone. -/
def SameUnder (es : List Edit) (c d : Bytes) : Prop :=
  (resized es = true ∨ max c.length (reach es) = max d.length (reach es)) ∧
    ∀ i, kept es i = true → at0 c i = at0 d i

/-- **Which bytes of the base matter.** -/
theorem applyEdits_congr (es : List Edit) (c d : Bytes) :
    applyEdits es c = applyEdits es d ↔ SameUnder es c d := by
  unfold SameUnder
  induction es generalizing c d with
  | nil =>
    simp only [applyEdits_nil, resized, Bool.false_eq_true, reach, Nat.max_zero, false_or, kept,
      forall_const]
    exact ⟨fun h => ⟨by rw [h], fun i => by rw [h]⟩, fun h => ext_at0 h.1 fun i _ => h.2 i⟩
  | cons e es ih =>
    rw [applyEdits_cons, applyEdits_cons, ih]
    cases e with
    | write offset data =>
      simp only [length_edit_write, at0_edit_write, resized, reach, kept, Nat.max_assoc]
      refine and_congr_right fun _ => forall_congr' fun i => ?_
      by_cases hi : offset ≤ i ∧ i < offset + data.length
      · simp [hi]
      · have : (decide (offset ≤ i) && decide (i < offset + data.length)) = false := by
          rw [Bool.eq_false_iff]; simpa using hi
        simp [hi, this]
    | setLen n =>
      simp only [Edit.apply, length_resize, at0_resize, resized, kept, Bool.and_eq_true,
        decide_eq_true_eq, true_or, or_true, true_and]
      refine forall_congr' fun i => ?_
      by_cases hi : i < n <;> simp [hi]
    | create => simp [Edit.apply, resized, kept]

end Content
