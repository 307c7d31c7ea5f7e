import Mathlib.Data.List.Basic

/-! # Forward simulation of labelled steps

A system makes steps with labels that can be seen from outside.  When every step of one system
can be answered by a step of another with the same label, so that the two stay related, all that
is seen of a run of the first is also seen of a run of the second. -/

namespace CachedBTree.Support

variable {σ τ ℓ : Type} {step : σ → ℓ → σ → Prop} {spec : τ → ℓ → τ → Prop} {rel : σ → τ → Prop}

/-- Steps one after the other, and their labels. -/
inductive Steps (step : σ → ℓ → σ → Prop) : σ → List ℓ → σ → Prop
  | nil (s : σ) : Steps step s [] s
  | cons {s s' s'' : σ} {l : ℓ} {ls : List ℓ} (hstep : step s l s') (hrest : Steps step s' ls s'') :
    Steps step s (l :: ls) s''

/-- The second system answers every step of the first. -/
def Simulates (step : σ → ℓ → σ → Prop) (spec : τ → ℓ → τ → Prop) (rel : σ → τ → Prop) : Prop :=
  ∀ s l s' t, step s l s' → rel s t → ∃ t', spec t l t' ∧ rel s' t'

theorem Simulates.steps (h : Simulates step spec rel) {s s' : σ} {t : τ} {ls : List ℓ} (hsteps : Steps step s ls s')
    (hrel : rel s t) : ∃ t', Steps spec t ls t' ∧ rel s' t' := by
  induction hsteps generalizing t with
  | nil s => exact ⟨t, .nil t, hrel⟩
  | cons hstep hrest ih =>
    obtain ⟨t₁, hspec, hrel₁⟩ := h _ _ _ t hstep hrel
    obtain ⟨t', hrest', hrel'⟩ := ih hrel₁
    exact ⟨t', .cons hspec hrest', hrel'⟩

end CachedBTree.Support
