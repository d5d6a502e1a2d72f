import Mathlib.Algebra.Group.Int.Defs
import Mathlib.Algebra.Group.Nat.Defs
import Mathlib.Data.List.Basic
import Mathlib.Tactic.Common

/-!
# Encodings that say where they end

`Tells f P v`: what `f` writes for a value gives `v` of it back, and what was written after it. Fields
written one after another (`Tells.append`), fixed widths (`tells_of_length`), a length in front
(`tells_counted`), and items written until a trailer that is shorter than any item
(`Tells.flatMap_trailer`).
-/

namespace Delimited

variable {α β γ δ : Type} {f g : α → List β} {P : α → Prop} {v : α → γ} {w : α → δ}

/-- Two values that are written the same way, whatever follows, have the same `v`, and the same follows. -/
def Tells (f : α → List β) (P : α → Prop) (v : α → γ) : Prop :=
  ∀ ⦃a b : α⦄ ⦃x y : List β⦄, P a → P b → f a ++ x = f b ++ y → v a = v b ∧ x = y

/-- A field of fixed width. -/
theorem tells_of_length {n : Nat} (hlen : ∀ a, P a → (f a).length = n)
    (hinj : ∀ a b, P a → P b → f a = f b → v a = v b) : Tells f P v := by
  intro a b x y ha hb h
  obtain ⟨hf, hrest⟩ := List.append_inj h ((hlen a ha).trans (hlen b hb).symm)
  exact ⟨hinj a b ha hb hf, hrest⟩

/-- One field after another. -/
theorem Tells.append (hf : Tells f P v) (hg : Tells g P w) :
    Tells (fun a => f a ++ g a) P (fun a => (v a, w a)) := by
  intro a b x y ha hb h
  rw [List.append_assoc, List.append_assoc] at h
  obtain ⟨hv, h⟩ := hf ha hb h
  obtain ⟨hw, h⟩ := hg ha hb h
  exact ⟨Prod.ext hv hw, h⟩

/-- A view of what is told is told. -/
theorem Tells.map {u : α → δ} (hf : Tells f P v)
    (hu : ∀ a b, P a → P b → v a = v b → u a = u b) : Tells f P u := by
  intro a b x y ha hb h
  obtain ⟨hv, hrest⟩ := hf ha hb h
  exact ⟨hu a b ha hb hv, hrest⟩

/-- A field of any length after its length. -/
theorem tells_counted {body : α → List β} (hf : Tells f P fun a => (body a).length) :
    Tells (fun a => f a ++ body a) P body := by
  intro a b x y ha hb h
  rw [List.append_assoc, List.append_assoc] at h
  obtain ⟨hlen, h⟩ := hf ha hb h
  exact List.append_inj h hlen

/-- Items up to a trailer of `n` symbols, which no item fits in. -/
theorem Tells.flatMap_trailer {n : Nat} (hf : Tells f P id) (hlong : ∀ a, P a → n < (f a).length)
    {as bs : List α} {x y : List β} (has : ∀ a ∈ as, P a) (hbs : ∀ b ∈ bs, P b)
    (hx : x.length = n) (hy : y.length = n) (h : as.flatMap f ++ x = bs.flatMap f ++ y) : as = bs := by
  induction as generalizing bs with
  | nil =>
    cases bs with
    | nil => rfl
    | cons b bs =>
      -- the item would have to be in the trailer
      have hlen := congrArg List.length h
      have hb := hlong b (hbs b List.mem_cons_self)
      simp only [List.flatMap_nil, List.flatMap_cons, List.nil_append, List.length_append] at hlen
      omega
  | cons a as ih =>
    cases bs with
    | nil =>
      have hlen := congrArg List.length h
      have ha := hlong a (has a List.mem_cons_self)
      simp only [List.flatMap_nil, List.flatMap_cons, List.nil_append, List.length_append] at hlen
      omega
    | cons b bs =>
      rw [List.flatMap_cons, List.flatMap_cons, List.append_assoc, List.append_assoc] at h
      obtain ⟨hab, hrest⟩ := hf (has a List.mem_cons_self) (hbs b List.mem_cons_self) h
      rw [show a = b from hab, ih (fun c hc => has c (List.mem_cons_of_mem _ hc))
        (fun c hc => hbs c (List.mem_cons_of_mem _ hc)) hrest]

end Delimited
