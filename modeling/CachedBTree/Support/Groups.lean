import Mathlib.Data.List.Flatten

/-! # Characters in groups

A separator before every third character of a text read from its end, as a walk with a counter,
and what the text looks like read from its start: the groups that the separator splits. -/

namespace CachedBTree.Support

variable {α : Type}

/-- The characters with a separator before the next one as soon as three have passed since the last. -/
def separated (sep : α) : Nat → List α → List α
  | _, [] => []
  | counter, c :: cs => if counter = 3 then sep :: c :: separated sep 1 cs else c :: separated sep (counter + 1) cs

theorem length_separated_le (sep : α) : ∀ (counter : Nat) (cs : List α),
    (separated sep counter cs).length ≤ 2 * cs.length := by
  intro counter cs
  induction cs generalizing counter with
  | nil =>
    exact Nat.zero_le _
  | cons c cs ih =>
    unfold separated
    split
    next =>
      have := ih 1
      simp only [List.length_cons]
      omega
    next =>
      have := ih (counter + 1)
      simp only [List.length_cons]
      omega

/-- Groups of three from the start, the last one with what is left. -/
def groupsOfThree : List α → List (List α)
  | a :: b :: c :: d :: l => [a, b, c] :: groupsOfThree (d :: l)
  | l => [l]

theorem groupsOfThree_ne_nil : ∀ l : List α, groupsOfThree l ≠ []
  | [] | [_] | [_, _] | [_, _, _] | _ :: _ :: _ :: _ :: _ => List.cons_ne_nil _ _

theorem separated_eq (sep : α) : ∀ l : List α, separated sep 0 l = [sep].intercalate (groupsOfThree l)
  | [] | [_] | [_, _] | [_, _, _] => by simp [separated, groupsOfThree]
  | a :: b :: c :: d :: l => by
    have ih := separated_eq sep (d :: l)
    simp only [separated, groupsOfThree, Nat.reduceAdd, Nat.reduceEqDiff, if_false, if_true, Nat.zero_add] at ih ⊢
    rw [List.intercalate_cons_of_ne_nil (groupsOfThree_ne_nil _), ← ih]
    rfl

theorem flatten_groupsOfThree : ∀ l : List α, (groupsOfThree l).flatten = l
  | [] | [_] | [_, _] | [_, _, _] => by simp [groupsOfThree]
  | a :: b :: c :: d :: l => by
    simp [groupsOfThree, flatten_groupsOfThree (d :: l)]

/-- All groups but the last have three characters, and the last one has at least one. -/
theorem groupsOfThree_spec : ∀ l : List α, l ≠ [] → ∃ gs g, groupsOfThree l = gs ++ [g] ∧
    1 ≤ g.length ∧ g.length ≤ 3 ∧ ∀ x ∈ gs, x.length = 3
  | [], h => absurd rfl h
  | [a], _ => ⟨[], [a], rfl, by simp, by simp, by simp⟩
  | [a, b], _ => ⟨[], [a, b], rfl, by simp, by simp, by simp⟩
  | [a, b, c], _ => ⟨[], [a, b, c], rfl, by simp, by simp, by simp⟩
  | a :: b :: c :: d :: l, _ => by
    obtain ⟨gs, g, heq, hpos, hle, hgs⟩ := groupsOfThree_spec (d :: l) (List.cons_ne_nil _ _)
    refine ⟨[a, b, c] :: gs, g, by rw [groupsOfThree, heq, List.cons_append], hpos, hle, fun x hx => ?_⟩
    cases List.mem_cons.mp hx with
    | inl heq => rw [heq]; rfl
    | inr hmem => exact hgs x hmem

theorem intercalate_append_singleton (sep : List α) : ∀ (ls : List (List α)) (l : List α), ls ≠ [] →
    sep.intercalate (ls ++ [l]) = sep.intercalate ls ++ sep ++ l
  | [], _, h => absurd rfl h
  | [x], l, _ => by simp
  | x :: y :: ls, l, _ => by
    have ih := intercalate_append_singleton sep (y :: ls) l (List.cons_ne_nil _ _)
    simp only [List.cons_append, List.intercalate_cons_cons, List.append_assoc] at ih ⊢
    rw [ih]

theorem reverse_intercalate (sep : α) : ∀ ls : List (List α),
    ([sep].intercalate ls).reverse = [sep].intercalate (ls.reverse.map List.reverse)
  | [] => rfl
  | [l] => by simp
  | l :: l' :: ls => by
    rw [List.intercalate_cons_cons, List.reverse_append, reverse_intercalate sep (l' :: ls), List.reverse_append,
      List.reverse_cons (a := l), List.map_append, List.map_singleton,
      intercalate_append_singleton _ _ _ (by simp)]
    simp

theorem filter_intercalate [DecidableEq α] {sep : α} : ∀ (ls : List (List α)), (∀ l ∈ ls, sep ∉ l) →
    ([sep].intercalate ls).filter (· ≠ sep) = ls.flatten
  | [], _ => rfl
  | [l], h => by
    have hl : l.filter (· ≠ sep) = l := List.filter_eq_self.mpr fun c hc =>
      decide_eq_true fun heq => h l List.mem_cons_self (heq ▸ hc)
    simpa using hl
  | l :: l' :: ls, h => by
    have hl : l.filter (· ≠ sep) = l := List.filter_eq_self.mpr fun c hc =>
      decide_eq_true fun heq => h l List.mem_cons_self (heq ▸ hc)
    have ih := filter_intercalate (l' :: ls) fun x hx => h x (List.mem_cons_of_mem _ hx)
    rw [List.intercalate_cons_cons, List.filter_append, List.filter_append, ih, hl]
    simp

/-- Walking from the end of the text and writing down what is met: the groups of the text, split by the
separator, have three characters each from the second on. -/
theorem reverse_separated (sep : α) (l : List α) (hl : l ≠ []) : ∃ g gs,
    (separated sep 0 l.reverse).reverse = [sep].intercalate (g :: gs) ∧ (g :: gs).flatten = l ∧
      1 ≤ g.length ∧ g.length ≤ 3 ∧ ∀ x ∈ gs, x.length = 3 := by
  obtain ⟨gs, g, heq, hpos, hle, hgs⟩ := groupsOfThree_spec l.reverse (by simpa using hl)
  have hflat : (gs ++ [g]).flatten = l.reverse := by rw [← heq, flatten_groupsOfThree]
  refine ⟨g.reverse, gs.reverse.map List.reverse, ?_, ?_, by simpa using hpos, by simpa using hle, fun x hx => ?_⟩
  · rw [separated_eq, reverse_intercalate, heq, List.reverse_append, List.map_append]
    rfl
  · have hrev : (g.reverse :: gs.reverse.map List.reverse).flatten = (gs ++ [g]).flatten.reverse := by
      rw [List.reverse_flatten, List.map_append, List.reverse_append, List.map_reverse]
      rfl
    rw [hrev, hflat, List.reverse_reverse]
  · obtain ⟨y, hy, rfl⟩ := List.mem_map.mp hx
    rw [List.length_reverse]
    exact hgs y (List.mem_reverse.mp hy)

end CachedBTree.Support
