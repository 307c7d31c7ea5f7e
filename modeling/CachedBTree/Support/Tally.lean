import Mathlib.Algebra.BigOperators.Group.Finset.Basic
import Mathlib.Algebra.BigOperators.Group.Finset.Piecewise
import Mathlib.Algebra.Order.BigOperators.Group.Finset
import Mathlib.Data.Finset.Card
import Mathlib.Tactic.Linarith

/-! # Counting over a family of lists

`tally c R` is the number of elements with `c` in all the lists `R i` together. -/

namespace CachedBTree.Support

variable {ι α β : Type*} [Fintype ι]

def tally (c : α → Bool) (R : ι → List α) : Nat := ∑ i, (R i).countP c

variable {c : α → Bool} {R R' : ι → List α}

/-- One list of the family is exchanged for another. -/
theorem tally_update [DecidableEq ι] (c : α → Bool) (R : ι → List α) (i : ι) (l : List α) :
    tally c (Function.update R i l) + (R i).countP c = tally c R + l.countP c := by
  have hrest : ∑ j ∈ Finset.univ.erase i, (Function.update R i l j).countP c =
      ∑ j ∈ Finset.univ.erase i, (R j).countP c :=
    Finset.sum_congr rfl fun j hj => by rw [Function.update_of_ne (Finset.ne_of_mem_erase hj)]
  have hnew := Finset.sum_erase_add Finset.univ
    (fun j => (Function.update R i l j).countP c) (Finset.mem_univ i)
  have hold := Finset.sum_erase_add Finset.univ (fun j => (R j).countP c) (Finset.mem_univ i)
  simp only [Function.update_self] at hnew
  unfold tally
  omega

theorem tally_congr (h : ∀ i, (R' i).countP c = (R i).countP c) : tally c R' = tally c R :=
  Finset.sum_congr rfl fun i _ => h i

theorem tally_pos {i : ι} {a : α} (ha : a ∈ R i) (hc : c a = true) : 0 < tally c R := by
  have hpos : 0 < (R i).countP c := List.countP_pos_iff.mpr ⟨a, ha, hc⟩
  exact hpos.trans_le (Finset.single_le_sum (f := fun j => (R j).countP c) (fun _ _ => Nat.zero_le _)
    (Finset.mem_univ i))

theorem tally_eq_zero : tally c R = 0 ↔ ∀ i, ∀ a ∈ R i, c a = false := by
  unfold tally
  simp [List.countP_eq_zero]

/-- Only the lists named in `l` have elements with `c`. -/
theorem tally_eq_sum [DecidableEq ι] {l : List ι} (hnodup : l.Nodup)
    (hrest : ∀ i, i ∉ l → (R i).countP c = 0) : tally c R = (l.map fun i => (R i).countP c).sum := by
  rw [← List.sum_toFinset _ hnodup]
  refine (Finset.sum_subset (Finset.subset_univ _) fun i _ hi => ?_).symm
  exact hrest i fun hmem => hi (List.mem_toFinset.mpr hmem)

/-- Elements told apart by a property that only values from `A` have are at most as many as these. -/
theorem tally_le_card [DecidableEq β] {f : α → β} (A : Finset β) (hA : ∀ i, ∀ a ∈ R i, f a ∈ A)
    (hnodup : ∀ i, ((R i).map f).Nodup)
    (happart : ∀ i j, i ≠ j → ∀ a ∈ R i, ∀ b ∈ R j, f a ≠ f b) : tally c R ≤ A.card := by
  have hdisj : (Set.univ : Set ι).PairwiseDisjoint fun i => ((R i).map f).toFinset := by
    intro i _ j _ hij
    refine Finset.disjoint_left.mpr fun x hi hj => ?_
    rw [List.mem_toFinset, List.mem_map] at hi hj
    obtain ⟨a, ha, rfl⟩ := hi
    obtain ⟨b, hb, heq⟩ := hj
    exact happart i j hij a ha b hb heq.symm
  have hsub : Finset.univ.biUnion (fun i => ((R i).map f).toFinset) ⊆ A := by
    intro x hx
    obtain ⟨i, -, hx⟩ := Finset.mem_biUnion.mp hx
    rw [List.mem_toFinset, List.mem_map] at hx
    obtain ⟨a, ha, rfl⟩ := hx
    exact hA i a ha
  calc tally c R
      ≤ ∑ i, ((R i).map f).toFinset.card := Finset.sum_le_sum fun i _ => by
        rw [List.toFinset_card_of_nodup (hnodup i), List.length_map]
        exact List.countP_le_length
    _ = (Finset.univ.biUnion fun i => ((R i).map f).toFinset).card := by
        rw [Finset.card_biUnion (by simpa using hdisj)]
    _ ≤ A.card := Finset.card_le_card hsub

/-- Lists put together: what bounds the length of each piece bounds the length of the whole. -/
theorem length_flatMap_le {f : α → List β} {b : Nat} : ∀ {l : List α}, (∀ x ∈ l, (f x).length ≤ b) →
    (l.flatMap f).length ≤ l.length * b
  | [], _ => Nat.zero_le _
  | x :: l, h => by
    have hx := h x List.mem_cons_self
    have hl := length_flatMap_le fun y hy => h y (List.mem_cons_of_mem x hy)
    rw [List.flatMap_cons, List.length_append, List.length_cons, Nat.add_mul, Nat.one_mul]
    omega

theorem affine_le_length_flatMap {γ : Type*} {f : α → List β} {g : α → List γ} {a b : Nat} : ∀ {l : List α},
    (∀ x ∈ l, a * (f x).length + b ≤ (g x).length) →
    a * (l.flatMap f).length + l.length * b ≤ (l.flatMap g).length
  | [], _ => by simp
  | x :: l, h => by
    have hx := h x List.mem_cons_self
    have hl := affine_le_length_flatMap fun y hy => h y (List.mem_cons_of_mem x hy)
    rw [List.flatMap_cons, List.length_append, List.flatMap_cons, List.length_append, List.length_cons,
      Nat.mul_add, Nat.add_mul, Nat.one_mul]
    omega

theorem length_flatMap_le_mul {γ : Type*} {f : α → List β} {g : α → List γ} {a : Nat} : ∀ {l : List α},
    (∀ x ∈ l, (f x).length ≤ a * (g x).length) → (l.flatMap f).length ≤ a * (l.flatMap g).length
  | [], _ => by simp
  | x :: l, h => by
    have hx := h x List.mem_cons_self
    have hl := length_flatMap_le_mul fun y hy => h y (List.mem_cons_of_mem x hy)
    rw [List.flatMap_cons, List.length_append, List.flatMap_cons, List.length_append, Nat.mul_add]
    omega

/-- The elements that a function sends to one of the values in `l`, summed value by value. -/
theorem sum_map_sum_filter {M : Type*} [AddCommMonoid M] [DecidableEq β] (g : α → β) (f : α → M) (xs : List α)
    {l : List β} (hl : l.Nodup) : (l.map fun b => ((xs.filter fun x => g x = b).map f).sum).sum =
      ((xs.filter fun x => g x ∈ l).map f).sum := by
  induction l with
  | nil => simp
  | cons b l ih =>
    obtain ⟨hb, hl⟩ := List.nodup_cons.mp hl
    -- the elements sent to `b :: l` are those sent to `b` and those sent to `l`
    have hhead : ((xs.filter fun x => g x ∈ b :: l).filter fun x => g x = b) = xs.filter fun x => g x = b := by
      rw [List.filter_filter]
      refine List.filter_congr fun x _ => ?_
      by_cases hx : g x = b <;> simp [hx]
    have htail : ((xs.filter fun x => g x ∈ b :: l).filter fun x => !decide (g x = b)) =
        xs.filter fun x => g x ∈ l := by
      rw [List.filter_filter]
      refine List.filter_congr fun x _ => ?_
      by_cases hx : g x = b <;> simp [hx, hb]
    have hperm := List.filter_append_perm (fun x => decide (g x = b)) (xs.filter fun x => g x ∈ b :: l)
    rw [hhead, htail] at hperm
    rw [List.map_cons, List.sum_cons, ih hl, ← (hperm.map f).sum_eq, List.map_append, List.sum_append]

/-! ## Counting in a finite type -/

/-- One value of a family is exchanged for another. -/
theorem sum_update_add [DecidableEq ι] (F : α → Nat) (f : ι → α) (i : ι) (a : α) :
    ∑ j, F (Function.update f i a j) + F (f i) = ∑ j, F (f j) + F a := by
  have hrest : ∑ j ∈ Finset.univ.erase i, F (Function.update f i a j) = ∑ j ∈ Finset.univ.erase i, F (f j) :=
    Finset.sum_congr rfl fun j hj => by rw [Function.update_of_ne (Finset.ne_of_mem_erase hj)]
  have hnew := Finset.sum_erase_add Finset.univ (fun j => F (Function.update f i a j)) (Finset.mem_univ i)
  have hold := Finset.sum_erase_add Finset.univ (fun j => F (f j)) (Finset.mem_univ i)
  simp only [Function.update_self] at hnew
  omega

/-- One value of a function is exchanged for another. -/
theorem card_filter_update [DecidableEq ι] (P : ι → α → Bool) (f : ι → α) (i : ι) (a : α) :
    (Finset.univ.filter fun j => P j (Function.update f i a j) = true).card + (P i (f i)).toNat =
      (Finset.univ.filter fun j => P j (f j) = true).card + (P i a).toNat := by
  have hcard : ∀ g : ι → α, (Finset.univ.filter fun j => P j (g j) = true).card =
      ∑ j ∈ Finset.univ.erase i, (P j (g j)).toNat + (P i (g i)).toNat := by
    intro g
    rw [Finset.sum_erase_add _ _ (Finset.mem_univ i), Finset.card_filter]
    exact Finset.sum_congr rfl fun j _ => by cases P j (g j) <;> rfl
  have hrest : ∑ j ∈ Finset.univ.erase i, (P j (Function.update f i a j)).toNat =
      ∑ j ∈ Finset.univ.erase i, (P j (f j)).toNat :=
    Finset.sum_congr rfl fun j hj => by rw [Function.update_of_ne (Finset.ne_of_mem_erase hj)]
  rw [hcard, hcard f, hrest, Function.update_self]
  omega

/-- What a function sends to a value is counted value by value. -/
theorem sum_card_filter_some [Fintype β] [DecidableEq β] (g : ι → Option β) :
    ∑ b, (Finset.univ.filter fun i => g i = some b).card = (Finset.univ.filter fun i => (g i).isSome = true).card := by
  have hone : ∀ i, (∑ b, if g i = some b then 1 else 0) = if (g i).isSome = true then 1 else 0 := by
    intro i
    cases g i with
    | none => simp
    | some a => simp
  calc ∑ b, (Finset.univ.filter fun i => g i = some b).card
      = ∑ b, ∑ i, if g i = some b then 1 else 0 := Finset.sum_congr rfl fun b _ => Finset.card_filter _ _
    _ = ∑ i, ∑ b, if g i = some b then 1 else 0 := Finset.sum_comm
    _ = ∑ i, if (g i).isSome = true then 1 else 0 := Finset.sum_congr rfl fun i _ => hone i
    _ = (Finset.univ.filter fun i => (g i).isSome = true).card := (Finset.card_filter _ _).symm

/-- Values that are nowhere above others have their sum only if they are these. -/
theorem sum_map_eq_iff [DecidableEq α] {l : List α} (hl : l.Nodup) {f g : α → Nat} (h : ∀ a ∈ l, f a ≤ g a) :
    (l.map f).sum = (l.map g).sum ↔ ∀ a ∈ l, f a = g a := by
  rw [← List.sum_toFinset _ hl, ← List.sum_toFinset _ hl,
    Finset.sum_eq_sum_iff_of_le fun a ha => h a (List.mem_toFinset.mp ha)]
  simp

end CachedBTree.Support
