import KinVfs.Lib.Fallible

/-!
# Two runs of one computation

`Couples bad P x y Q`: a run of `x` and a run of `y` from states that `P` relates, neither of which ends
in a bad error, end in the same way, and `Q` relates the states they leave. The rules follow the monad;
at a `get` the two runs go on from what they read (`Couples.read`).
-/

namespace Fallible

variable {ε ε' σ τ α β : Type} {bad : ε → Prop} {P P' Q Q' R : σ → σ → Prop}

/-- The outcome is no bad error. -/
def Fair (bad : ε → Prop) (r : Except ε α) : Prop := ∀ e, r = .error e → ¬ bad e

theorem fair_ok (a : α) : Fair bad (.ok a) := fun _ h => nomatch h

/-- A sequence that ends in no bad error does not begin with one. -/
theorem fair_of_bind {x : Fallible ε σ α} {f : α → Fallible ε σ β} {s : σ}
    (h : Fair bad (exec (x >>= f) s).1) : Fair bad (exec x s).1 := by
  rw [exec_bind] at h
  rcases hx : exec x s with ⟨_ | a, s₁⟩
  · rename_i e
    rw [hx] at h
    intro e' he
    cases he
    exact h e rfl
  · exact fair_ok a

def Couples (bad : ε → Prop) (P : σ → σ → Prop) (x y : Fallible ε σ α) (Q : σ → σ → Prop) : Prop :=
  ∀ s t, P s t → Fair bad (exec x s).1 → Fair bad (exec y t).1 →
    (exec x s).1 = (exec y t).1 ∧ Q (exec x s).2 (exec y t).2

theorem couples_pure (a : α) (h : ∀ s t, P s t → Q s t) :
    Couples bad P (pure a : Fallible ε σ α) (pure a) Q :=
  fun s t hst _ _ => ⟨rfl, h s t hst⟩

theorem couples_throw (e : ε) (h : ∀ s t, P s t → Q s t) :
    Couples bad P (throw e : Fallible ε σ α) (throw e) Q :=
  fun s t hst _ _ => ⟨rfl, h s t hst⟩

/-- A computation on a part that both states share. -/
theorem couples_zoom {getPart : τ → σ} {setPart : σ → τ → τ} {err : ε → ε'} {bad : ε' → Prop}
    {P Q : τ → τ → Prop} (x : Fallible ε σ α)
    (h : ∀ s t, P s t → getPart s = getPart t ∧ ∀ part, Q (setPart part s) (setPart part t)) :
    Couples bad P (zoom getPart setPart err x) (zoom getPart setPart err x) Q := by
  intro s t hst _ _
  obtain ⟨hpart, hset⟩ := h s t hst
  rw [exec_zoom, exec_zoom, hpart]
  exact ⟨rfl, hset _⟩

namespace Couples

variable {x y : Fallible ε σ α}

theorem weaken (h : Couples bad P x y Q) (hP : ∀ s t, P' s t → P s t) (hQ : ∀ s t, Q s t → Q' s t) :
    Couples bad P' x y Q' := by
  intro s t hst hx hy
  obtain ⟨hr, hq⟩ := h s t (hP s t hst) hx hy
  exact ⟨hr, hQ _ _ hq⟩

/-- An early end has to satisfy `Q` too. -/
theorem bind {f f' : α → Fallible ε σ β} (h : Couples bad P x y R)
    (hf : ∀ a, Couples bad R (f a) (f' a) Q) (hfail : ∀ s t, R s t → Q s t) :
    Couples bad P (x >>= f) (y >>= f') Q := by
  intro s t hst hx hy
  have hsame := h s t hst (fair_of_bind hx) (fair_of_bind hy)
  rw [exec_bind] at hx ⊢
  rw [exec_bind] at hy ⊢
  rcases hxs : exec x s with ⟨_ | a, s₁⟩
  · rcases hyt : exec y t with ⟨_ | b, t₁⟩
    · rw [hxs, hyt] at hsame
      obtain ⟨hr, hq⟩ := hsame
      cases hr
      exact ⟨rfl, hfail _ _ hq⟩
    · rw [hxs, hyt] at hsame
      cases hsame.1
  · rcases hyt : exec y t with ⟨_ | b, t₁⟩
    · rw [hxs, hyt] at hsame
      cases hsame.1
    · rw [hxs, hyt] at hsame
      obtain ⟨hr, hq⟩ := hsame
      cases hr
      rw [hxs] at hx
      rw [hyt] at hy
      exact hf a s₁ t₁ hq hx hy

/-- Both runs read their states. -/
theorem read {f f' : σ → Fallible ε σ β}
    (h : ∀ s t, P s t → Couples bad (fun s' t' => s' = s ∧ t' = t) (f s) (f' t) Q) :
    Couples bad P (get >>= f) (get >>= f') Q := by
  intro s t hst hx hy
  rw [exec_bind, exec_get] at hx ⊢
  rw [exec_bind, exec_get] at hy ⊢
  exact h s t hst s t ⟨rfl, rfl⟩ hx hy

end Couples

end Fallible
