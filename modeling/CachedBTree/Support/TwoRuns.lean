import Mathlib.Data.List.Basic

/-! # Two runs side by side

One computation follows another when it returns wherever the other returns, with a result that
is related.  The rules take two computations apart step by step.  Where every call keeps two
states related, and some calls can be left out on one side, a whole run stays related to the run
without them. -/

namespace CachedBTree.Support

variable {ε α β γ δ σ τ κ ρ : Type} {R : α → β → Prop} {S : γ → δ → Prop} {x : Except ε α} {y : Except ε β}

/-- Where `x` returns, `y` returns something related. -/
def Follows (R : α → β → Prop) (x : Except ε α) (y : Except ε β) : Prop :=
  ∀ a, x = .ok a → ∃ b, y = .ok b ∧ R a b

namespace Follows

theorem ok {a : α} {b : β} (h : R a b) : Follows R (.ok a : Except ε α) (.ok b) := by
  intro a' ha
  cases ha
  exact ⟨b, rfl, h⟩

theorem error {e : ε} : Follows R (.error e) y := by
  intro a ha
  cases ha

/-- A computation that never returns. -/
theorem never (h : ∀ a, x ≠ .ok a) : Follows R x y := fun a ha => absurd ha (h a)

theorem bind {f : α → Except ε γ} {g : β → Except ε δ} (h : Follows R x y)
    (hnext : ∀ a b, R a b → Follows S (f a) (g b)) : Follows S (x >>= f) (y >>= g) := by
  intro c hc
  cases x with
  | error e => cases hc
  | ok a =>
    obtain ⟨b, rfl, hab⟩ := h a rfl
    exact hnext a b hab c hc

/-- A step that only the first computation makes. -/
theorem step_left {f : α → Except ε γ} {z : Except ε δ} (h : ∀ a, x = .ok a → Follows S (f a) z) :
    Follows S (x >>= f) z := by
  cases x with
  | error e => exact error
  | ok a => exact h a rfl

/-- A last step that only the first computation makes. -/
theorem then_left {f : α → Except ε γ} {y : Except ε δ} {R : α → δ → Prop} (h : Follows R x y)
    (hnext : ∀ a b, R a b → Follows S (f a) (.ok b : Except ε δ)) : Follows S (x >>= f) y := by
  intro c hc
  cases x with
  | error e => cases hc
  | ok a =>
    obtain ⟨b, rfl, hab⟩ := h a rfl
    exact hnext a b hab c hc

theorem ite {c c' : Prop} [Decidable c] [Decidable c'] {x' : Except ε α} {y' : Except ε β} (hc : c' ↔ c)
    (h : c → Follows R x y) (h' : ¬c → Follows R x' y') :
    Follows R (if c then x else x') (if c' then y else y') := by
  by_cases hcase : c
  · rw [if_pos hcase, if_pos (hc.mpr hcase)]
    exact h hcase
  · rw [if_neg hcase, if_neg fun h => hcase (hc.mp h)]
    exact h' hcase

/-- What is known of the first result. -/
theorem also {P : α → Prop} (h : Follows R x y) (hx : ∀ a, x = .ok a → P a) : Follows (fun a b => P a ∧ R a b) x y := by
  intro a ha
  obtain ⟨b, hb, hab⟩ := h a ha
  exact ⟨b, hb, hx a ha, hab⟩

/-- What returns on both sides, if it returns, is the same. -/
theorem eq_of_ok {x y : Except ε α} {a : α} (h : Follows Eq x y) (hx : x = .ok a) : y = x := by
  obtain ⟨b, hy, rfl⟩ := h a hx
  rw [hy, hx]

end Follows

/-- The same result, and related states. -/
def Paired (rel : σ → τ → Prop) (r : α × σ) (r' : α × τ) : Prop := r'.1 = r.1 ∧ rel r.2 r'.2

/-! ## Runs -/

/-- The calls one after the other, each with what it returns. -/
def runLog (exec : κ → σ → Except ε (ρ × σ)) : List κ → σ → Except ε (List (κ × ρ) × σ)
  | [], s => .ok ([], s)
  | c :: cs, s => do
    let (r, s) ← exec c s
    let (log, s) ← runLog exec cs s
    .ok ((c, r) :: log, s)

/-- Calls that keep the states related when only one side makes them can be left out of a run. -/
theorem runLog_erase {exec : κ → σ → Except ε (ρ × σ)} {keep : κ → Bool} {allowed : κ → Prop} {rel : σ → σ → Prop}
    (hkeep : ∀ c s t, allowed c → keep c = true → rel s t → Follows (Paired rel) (exec c s) (exec c t))
    (hdrop : ∀ c r s s' t, keep c = false → rel s t → exec c s = .ok (r, s') → rel s' t) :
    ∀ (cs : List κ) (s t : σ), (∀ c ∈ cs, allowed c) → rel s t →
      Follows (fun r r' => r'.1 = r.1.filter (fun e => keep e.1) ∧ rel r.2 r'.2)
        (runLog exec cs s) (runLog exec (cs.filter keep) t)
  | [], s, t, _, h => Follows.ok ⟨rfl, h⟩
  | c :: cs, s, t, hcs, h => by
    have hrest := fun c' hc' => hcs c' (List.mem_cons_of_mem c hc')
    cases hc : keep c with
    | true =>
      rw [List.filter_cons_of_pos hc]
      refine (hkeep c s t (hcs c List.mem_cons_self) hc h).bind ?_
      rintro ⟨r, s'⟩ ⟨r', t'⟩ ⟨hr, h'⟩
      obtain rfl : r' = r := hr
      refine (runLog_erase hkeep hdrop cs s' t' hrest h').bind ?_
      rintro ⟨log, s''⟩ ⟨log', t''⟩ ⟨hlog, h''⟩
      exact Follows.ok ⟨by simpa [hc] using hlog, h''⟩
    | false =>
      rw [List.filter_cons_of_neg (by simp [hc])]
      refine Follows.step_left ?_
      rintro ⟨r, s'⟩ hrun
      refine (runLog_erase hkeep hdrop cs s' t hrest (hdrop c r s s' t hc h hrun)).then_left ?_
      rintro ⟨log, s''⟩ ⟨log', t''⟩ ⟨hlog, h''⟩
      exact Follows.ok ⟨by simpa [hc] using hlog, h''⟩

end CachedBTree.Support
