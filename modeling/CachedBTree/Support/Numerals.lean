import Mathlib.Algebra.Order.Ring.Nat
import Mathlib.Tactic.Ring

/-! # Numbers written in digits, the most significant digit first

`numeral b d i n` is the number whose `n` digits in base `b` are `d i`, `d (i + 1)`,
..., read from left to right. -/

namespace CachedBTree.Support

def numeral (b : Nat) (d : Nat → Nat) (i : Nat) : Nat → Nat
  | 0 => 0
  | n + 1 => d i * b ^ n + numeral b d (i + 1) n

variable {b : Nat} {d e : Nat → Nat}

theorem numeral_congr : ∀ {i n : Nat}, (∀ j, i ≤ j → j < i + n → d j = e j) →
    numeral b d i n = numeral b e i n
  | _, 0, _ => rfl
  | i, n + 1, h => by
    have hhead : d i = e i := h i (Nat.le_refl i) (by omega)
    have htail : numeral b d (i + 1) n = numeral b e (i + 1) n :=
      numeral_congr fun j hj hjn => h j (by omega) (by omega)
    simp only [numeral, hhead, htail]

theorem numeral_zero : ∀ i n : Nat, numeral b (fun _ => 0) i n = 0
  | _, 0 => rfl
  | i, n + 1 => by simp [numeral, numeral_zero (i + 1) n]

/-- One more digit at the end. -/
theorem numeral_succ_last : ∀ i n : Nat, numeral b d i (n + 1) = numeral b d i n * b + d (i + n)
  | i, 0 => by simp [numeral]
  | i, n + 1 => by
    have htail := numeral_succ_last (i + 1) n
    have hlast : i + (n + 1) = i + 1 + n := by omega
    rw [numeral, htail, numeral, hlast]
    ring

theorem numeral_lt (hd : ∀ j, d j < b) : ∀ i n : Nat, numeral b d i n < b ^ n := by
  intro i n
  induction n generalizing i with
  | zero =>
    simp [numeral]
  | succ n ih =>
    have htail := ih (i + 1)
    have hhead : d i + 1 ≤ b := hd i
    calc d i * b ^ n + numeral b d (i + 1) n
        < d i * b ^ n + b ^ n := by omega
      _ = (d i + 1) * b ^ n := by ring
      _ ≤ b * b ^ n := Nat.mul_le_mul_right _ hhead
      _ = b ^ (n + 1) := by ring

/-- The first digit that differs decides. -/
theorem numeral_lt_of_head (hd : ∀ j, d j < b) {i n : Nat} (h : d i < e i) :
    numeral b d i (n + 1) < numeral b e i (n + 1) := by
  have htail := numeral_lt hd (i + 1) n
  have hhead : (d i + 1) * b ^ n ≤ e i * b ^ n := Nat.mul_le_mul_right _ h
  have hsplit : (d i + 1) * b ^ n = d i * b ^ n + b ^ n := by ring
  simp only [numeral]
  omega

/-- A number has one digit sequence of a given length. -/
theorem numeral_inj (hd : ∀ j, d j < b) (he : ∀ j, e j < b) : ∀ {i n : Nat},
    numeral b d i n = numeral b e i n → ∀ j, i ≤ j → j < i + n → d j = e j := by
  intro i n
  induction n generalizing i with
  | zero =>
    intro _ j hij hjn
    omega
  | succ n ih =>
    intro h j hij hjn
    have hhead : d i = e i := by
      rcases Nat.lt_trichotomy (d i) (e i) with hlt | heq | hgt
      · exact absurd h (Nat.ne_of_lt (numeral_lt_of_head hd hlt))
      · exact heq
      · exact absurd h.symm (Nat.ne_of_lt (numeral_lt_of_head he hgt))
    have htail : numeral b d (i + 1) n = numeral b e (i + 1) n := by
      simp only [numeral, hhead] at h
      omega
    by_cases hj : j = i
    · rw [hj, hhead]
    · exact ih htail j (by omega) (by omega)

end CachedBTree.Support
