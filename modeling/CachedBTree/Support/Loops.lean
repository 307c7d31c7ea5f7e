import Mathlib.Data.Nat.Basic

/-! # Counted loops

`scan p i d` is the loop `for (j = i; j < i + d; j++) if (p(j)) break;`, read at
its exit: the first index from `i` on that satisfies `p`, or `i + d` when there
is none. -/

namespace CachedBTree.Support

def scan (p : Nat → Bool) (i : Nat) : Nat → Nat
  | 0 => i
  | d + 1 => if p i then i else scan p (i + 1) d

theorem scan_congr {p q : Nat → Bool} : ∀ {i d : Nat},
    (∀ j, i ≤ j → j < i + d → p j = q j) → scan p i d = scan q i d
  | _, 0, _ => rfl
  | i, d + 1, h => by
    have hi : p i = q i := h i (Nat.le_refl i) (by omega)
    have htail : scan p (i + 1) d = scan q (i + 1) d :=
      scan_congr fun j hj hjd => h j (by omega) (by omega)
    simp only [scan, hi, htail]

/-- The loop stops at the first index that satisfies the test. -/
theorem scan_eq_of_first {p : Nat → Bool} : ∀ {i d k : Nat},
    i ≤ k → k < i + d → p k = true → (∀ j, i ≤ j → j < k → p j = false) → scan p i d = k := by
  intro i d
  induction d generalizing i with
  | zero =>
    intro k hik hkd _ _
    omega
  | succ d ih =>
    intro k hik hkd hk hbefore
    by_cases hi : i = k
    · subst hi
      simp [scan, hk]
    · have hpi : p i = false := hbefore i (Nat.le_refl i) (by omega)
      simp only [scan, hpi, Bool.false_eq_true, if_false]
      exact ih (by omega) (by omega) hk fun j hj hjk => hbefore j (by omega) hjk

/-- The loop runs to its bound when no index satisfies the test. -/
theorem scan_eq_bound {p : Nat → Bool} : ∀ {i d : Nat},
    (∀ j, i ≤ j → j < i + d → p j = false) → scan p i d = i + d
  | _, 0, _ => rfl
  | i, d + 1, h => by
    have hi : p i = false := h i (Nat.le_refl i) (by omega)
    simp only [scan, hi, Bool.false_eq_true, if_false]
    rw [scan_eq_bound fun j hj hjd => h j (by omega) (by omega)]
    omega

theorem scan_le (p : Nat → Bool) : ∀ i d : Nat, scan p i d ≤ i + d
  | _, 0 => Nat.le_refl _
  | i, d + 1 => by
    simp only [scan]
    split
    · omega
    · have := scan_le p (i + 1) d
      omega

theorem le_scan (p : Nat → Bool) : ∀ i d : Nat, i ≤ scan p i d
  | _, 0 => Nat.le_refl _
  | i, d + 1 => by
    simp only [scan]
    split
    · exact Nat.le_refl _
    · have := le_scan p (i + 1) d
      omega

/-- An index the loop has stopped at before its bound satisfies the test. -/
theorem scan_spec {p : Nat → Bool} : ∀ {i d : Nat}, scan p i d < i + d → p (scan p i d) = true := by
  intro i d
  induction d generalizing i with
  | zero =>
    intro h
    simp [scan] at h
  | succ d ih =>
    intro h
    simp only [scan] at h ⊢
    split at h
    next hi => simp [hi]
    next hi =>
      simp only [hi]
      exact ih (by omega)

/-- Every index the loop has passed over fails the test. -/
theorem scan_before {p : Nat → Bool} : ∀ {i d j : Nat}, i ≤ j → j < scan p i d → p j = false := by
  intro i d
  induction d generalizing i with
  | zero =>
    intro j hij hj
    simp only [scan] at hj; omega
  | succ d ih =>
    intro j hij hj
    simp only [scan] at hj
    split at hj
    · omega
    next hi =>
      by_cases heq : j = i
      · subst heq
        simpa using hi
      · exact ih (by omega) hj

end CachedBTree.Support
