import CachedBTree.Slots
import CachedBTree.Support.Chains

/-! # A node as a list of pairs

`Holds geo node l` says that the used slots of `node` are a prefix, that they hold the
pairs of `l` in this order and that every later slot is zero.  Each loop over slots
then is an operation on lists, and the loops that look for a slot find the place where
a list is cut. -/

namespace CachedBTree

open CachedBTree.Support

variable {w : Nat} {geo : Geo} {node : Words w}

/-- The pairs of a node: keys as numbers, values or children. -/
abbrev Page (w : Nat) := List (Nat × Ptr w)

structure Holds (geo : Geo) (node : Words w) (l : Page w) : Prop where
  length_le : l.length ≤ geo.noPairs
  slot : ∀ i, i < geo.noPairs → slotAt geo node i = l.getD i (0, 0#w)
  used : ∀ e ∈ l, e.2 ≠ 0#w

theorem holds_zero (geo : Geo) : Holds geo (fun _ => (0#w)) [] where
  length_le := Nat.zero_le _
  slot i _ := by
    have hkey : bkey geo (fun _ => 0#w) i = fun _ => 0#w := rfl
    simp [slotAt, hkey, bval]
  used := by simp

theorem Holds.congr {node' : Words w} {l : Page w} (h : Holds geo node l)
    (hslots : ∀ i, i < geo.noPairs → slotAt geo node' i = slotAt geo node i) :
    Holds geo node' l :=
  ⟨h.length_le, fun i hi => (hslots i hi).trans (h.slot i hi), h.used⟩

section Reading

variable {l l₁ l₂ : Page w} {k : Nat} {v : Ptr w} {key : Words w}

theorem Holds.slot_append (h : Holds geo node (l₁ ++ (k, v) :: l₂)) :
    slotAt geo node l₁.length = (k, v) := by
  have hlen := h.length_le
  simp only [List.length_append, List.length_cons] at hlen
  rw [h.slot _ (by omega)]
  simp [List.getD_eq_getElem?_getD]

theorem Holds.bval_append (h : Holds geo node (l₁ ++ (k, v) :: l₂)) :
    bval geo node l₁.length = v := congrArg Prod.snd h.slot_append

theorem Holds.keyNum_append (h : Holds geo node (l₁ ++ (k, v) :: l₂)) :
    keyNum geo (bkey geo node l₁.length) = k := congrArg Prod.fst h.slot_append

theorem Holds.slot_end {i : Nat} (h : Holds geo node l) (hi : l.length ≤ i)
    (hiN : i < geo.noPairs) : slotAt geo node i = (0, 0#w) := by
  rw [h.slot i hiN, List.getD_eq_getElem?_getD, List.getElem?_eq_none hi]
  rfl

theorem Holds.slot_mem {i : Nat} (h : Holds geo node l) (hi : i < l.length) :
    slotAt geo node i ∈ l := by
  rw [h.slot i (hi.trans_le h.length_le), List.getD_eq_getElem?_getD, List.getElem?_eq_getElem hi]
  exact List.getElem_mem hi

theorem Holds.bval_ne_zero {i : Nat} (h : Holds geo node l) (hi : i < l.length) :
    bval geo node i ≠ 0#w := h.used _ (h.slot_mem hi)

theorem Holds.slot_of_mem (h : Holds geo node l) {e : Nat × Ptr w} (he : e ∈ l) :
    ∃ i, i < l.length ∧ slotAt geo node i = e := by
  obtain ⟨l₁, l₂, rfl⟩ := List.append_of_mem he
  exact ⟨l₁.length, by simp, h.slot_append⟩

/-- A page is determined by the node that holds it. -/
theorem Holds.unique {l' : Page w} (h : Holds geo node l) (h' : Holds geo node l') : l = l' := by
  have hlen : ∀ {a b : Page w}, Holds geo node a → Holds geo node b → a.length ≤ b.length := by
    intro a b ha hb
    by_contra hlt
    have hzero := congrArg Prod.snd (hb.slot_end (Nat.le_refl _) (by have := ha.length_le; omega))
    exact ha.bval_ne_zero (by omega) hzero
  refine List.ext_getElem (Nat.le_antisymm (hlen h h') (hlen h' h)) fun i hi hi' => ?_
  have hslot := h.slot i (hi.trans_le h.length_le)
  rw [h'.slot i (hi.trans_le h.length_le)] at hslot
  simpa [List.getD_eq_getElem?_getD, hi, hi'] using hslot.symm

/-- `getpos` cuts the page: the pairs before it have larger keys, the rest do not. -/
theorem Holds.getpos (h : Holds geo node (l₁ ++ l₂)) (h₁ : ∀ e ∈ l₁, keyNum geo key < e.1)
    (h₂ : ∀ e ∈ l₂, e.1 ≤ keyNum geo key) : getpos geo node key = l₁.length := by
  have hlen := h.length_le
  rw [List.length_append] at hlen
  have htest : ∀ i, decide (keycmp geo node i key ≤ 0) =
      decide ((slotAt geo node i).1 ≤ keyNum geo key) := fun i =>
    decide_eq_decide.mpr longcmp_le_zero
  -- the scan passes the greater keys
  have hbefore : ∀ j, 0 ≤ j → j < l₁.length →
      decide (keycmp geo node j key ≤ 0) = false := by
    intro j _ hj
    have hmem : slotAt geo node j ∈ l₁ := by
      rw [h.slot j (by omega), List.getD_eq_getElem?_getD, List.getElem?_append_left hj,
        List.getElem?_eq_getElem hj]
      exact List.getElem_mem hj
    have := h₁ _ hmem
    rw [htest, decide_eq_false_iff_not]
    omega
  unfold CachedBTree.getpos
  by_cases hfull : l₁.length < geo.noPairs
  · refine scan_eq_of_first (Nat.zero_le _) (by omega) ?_ hbefore
    rw [htest, decide_eq_true_iff]
    cases l₂ with
    | nil => rw [h.slot_end (by simp) hfull]; exact Nat.zero_le _
    | cons e l₂ => rw [h.slot_append]; exact h₂ e (by simp)
  · have hN : geo.noPairs = l₁.length := by omega
    rw [hN, scan_eq_bound fun j hj hjN => hbefore j hj (by omega), Nat.zero_add]

theorem Holds.getfill {start : Nat} (h : Holds geo node l) (hstart : start ≤ l.length) :
    getfill geo node start = l.length := by
  have hlen := h.length_le
  have hbefore : ∀ j, start ≤ j → j < l.length → decide (bval geo node j = 0#w) = false :=
    fun j _ hj => decide_eq_false (h.bval_ne_zero hj)
  unfold CachedBTree.getfill
  by_cases hfull : l.length < geo.noPairs
  · refine scan_eq_of_first hstart (by omega) ?_ hbefore
    exact decide_eq_true (congrArg Prod.snd (h.slot_end (Nat.le_refl _) hfull))
  · rw [scan_eq_bound fun j hj hjN => hbefore j hj (by omega)]
    omega

/-- The comparison made at the position `getpos` found. -/
theorem Holds.keycmp_append (h : Holds geo node (l₁ ++ (k, v) :: l₂)) :
    keycmp geo node l₁.length key = 0 ↔ k = keyNum geo key := by
  unfold keycmp
  rw [longcmp_eq_zero, h.keyNum_append]

end Reading

section Writing

variable {l l₁ l₂ : Page w} {k : Nat} {v : Ptr w} {key : Words w}

/-- Lower the key of one pair. -/
theorem Holds.setkey (h : Holds geo node (l₁ ++ (k, v) :: l₂)) :
    Holds geo (setkey geo node l₁.length key) (l₁ ++ (keyNum geo key, v) :: l₂) := by
  have hlen := h.length_le
  simp only [List.length_append, List.length_cons] at hlen
  refine ⟨by simpa using hlen, fun i hi => ?_, fun e he => ?_⟩
  · rw [slotAt_setkey (by omega)]
    by_cases hil : i = l₁.length
    · subst hil
      rw [if_pos rfl, h.bval_append]
      simp [List.getD_eq_getElem?_getD]
    · rw [if_neg hil, h.slot i hi]
      simp only [List.getD_eq_getElem?_getD]
      cases Nat.lt_or_gt_of_ne hil with
      | inl hlt =>
        rw [List.getElem?_append_left hlt, List.getElem?_append_left hlt]
      | inr hgt =>
        obtain ⟨j, rfl⟩ := Nat.exists_eq_add_of_lt hgt
        rw [List.getElem?_append_right (by omega), List.getElem?_append_right (by omega)]
        simp [Nat.add_assoc]
  · cases List.mem_append.mp he with
    | inl hmem =>
      exact h.used e (by simp [hmem])
    | inr hmem =>
      rcases List.mem_cons.mp hmem with rfl | hmem
      · exact h.used (k, v) (by simp)
      · exact h.used e (by simp [hmem])

theorem Holds.setval {v' : Ptr w} (h : Holds geo node (l₁ ++ (k, v) :: l₂)) (hv' : v' ≠ 0#w) :
    Holds geo (setval geo node l₁.length v') (l₁ ++ (k, v') :: l₂) := by
  have hlen := h.length_le
  simp only [List.length_append, List.length_cons] at hlen
  refine ⟨by simpa using hlen, fun i hi => ?_, fun e he => ?_⟩
  · rw [slotAt_setval hi]
    by_cases hil : i = l₁.length
    · subst hil
      rw [if_pos rfl, h.keyNum_append]
      simp [List.getD_eq_getElem?_getD]
    · rw [if_neg hil, h.slot i hi]
      simp only [List.getD_eq_getElem?_getD]
      cases Nat.lt_or_gt_of_ne hil with
      | inl hlt =>
        rw [List.getElem?_append_left hlt, List.getElem?_append_left hlt]
      | inr hgt =>
        obtain ⟨j, rfl⟩ := Nat.exists_eq_add_of_lt hgt
        rw [List.getElem?_append_right (by omega), List.getElem?_append_right (by omega)]
        simp [Nat.add_assoc]
  · cases List.mem_append.mp he with
    | inl hmem =>
      exact h.used e (by simp [hmem])
    | inr hmem =>
      rcases List.mem_cons.mp hmem with rfl | hmem
      · exact hv'
      · exact h.used e (by simp [hmem])

/-- Shift and insert. -/
theorem Holds.insert (h : Holds geo node (l₁ ++ l₂))
    (hroom : l₁.length + l₂.length < geo.noPairs) (hv : v ≠ 0#w) :
    Holds geo
      (CachedBTree.setval geo (CachedBTree.setkey geo (shiftRight geo l₁.length l₂.length node)
        l₁.length key) l₁.length v)
      (l₁ ++ (keyNum geo key, v) :: l₂) := by
  refine ⟨by simp; omega, fun i hi => ?_, fun e he => ?_⟩
  · rw [slotAt_setval hi, slotAt_setkey (by omega), keyNum_setkey]
    by_cases hil : i = l₁.length
    · subst hil
      simp [List.getD_eq_getElem?_getD]
    · rw [if_neg hil, if_neg hil, slotAt_shiftRight hi hroom]
      cases Nat.lt_or_gt_of_ne hil with
      | inl hlt =>
        rw [if_neg (by omega), h.slot i hi]
        simp only [List.getD_eq_getElem?_getD]
        rw [List.getElem?_append_left hlt, List.getElem?_append_left hlt]
      | inr hgt =>
        obtain ⟨j, rfl⟩ := Nat.exists_eq_add_of_lt hgt
        -- behind the new pair every pair is one slot further
        have hnew : (l₁ ++ (keyNum geo key, v) :: l₂).getD (l₁.length + j + 1) (0, 0#w) =
            l₂.getD j (0, 0#w) := by
          simp only [List.getD_eq_getElem?_getD]
          rw [List.getElem?_append_right (by omega)]
          simp [Nat.add_assoc]
        rw [hnew]
        by_cases hin : l₁.length + j + 1 ≤ l₁.length + l₂.length
        · rw [if_pos ⟨by omega, hin⟩, h.slot _ (by omega)]
          simp only [List.getD_eq_getElem?_getD, Nat.add_sub_cancel]
          rw [List.getElem?_append_right (by omega), Nat.add_sub_cancel_left]
        · rw [if_neg (by omega), h.slot_end (by simp; omega) hi]
          simp only [List.getD_eq_getElem?_getD]
          rw [List.getElem?_eq_none (by omega)]
          rfl
  · cases List.mem_append.mp he with
    | inl hmem =>
      exact h.used e (by simp [hmem])
    | inr hmem =>
      rcases List.mem_cons.mp hmem with rfl | hmem
      · exact hv
      · exact h.used e (by simp [hmem])

/-- Remove and shift. -/
theorem Holds.erase (h : Holds geo node (l₁ ++ (k, v) :: l₂)) :
    Holds geo (clearpair geo (shiftLeft geo node l₁.length l₂.length) (l₁.length + l₂.length))
      (l₁ ++ l₂) := by
  have hlen := h.length_le
  simp only [List.length_append, List.length_cons] at hlen
  refine ⟨by simp; omega, fun i hi => ?_, fun e he => ?_⟩
  · rw [slotAt_clearpair (by omega) hi]
    by_cases hlast : i = l₁.length + l₂.length
    · rw [if_pos hlast]
      simp only [List.getD_eq_getElem?_getD]
      rw [List.getElem?_eq_none (by simp; omega)]
      rfl
    · rw [if_neg hlast, slotAt_shiftLeft hi (by omega)]
      by_cases hin : l₁.length ≤ i ∧ i < l₁.length + l₂.length
      · obtain ⟨j, rfl⟩ := Nat.exists_eq_add_of_le hin.1
        rw [if_pos hin, h.slot _ (by omega)]
        simp only [List.getD_eq_getElem?_getD]
        rw [List.getElem?_append_right (by omega), List.getElem?_append_right (by omega)]
        simp [Nat.add_assoc]
      · rw [if_neg hin, h.slot i hi]
        simp only [List.getD_eq_getElem?_getD]
        by_cases hlow : i < l₁.length
        · rw [List.getElem?_append_left hlow, List.getElem?_append_left hlow]
        · rw [List.getElem?_eq_none (by simp; omega), List.getElem?_eq_none (by simp; omega)]
  · apply h.used e
    rcases List.mem_append.mp he with hmem | hmem <;> simp [hmem]

/-- Clearing the last used slot drops the last pair. -/
theorem Holds.clear_last (h : Holds geo node (l ++ [(k, v)])) :
    Holds geo (clearpair geo node l.length) l := by
  simpa [shiftLeft] using h.erase

theorem Holds.append {right : Words w} {lr : Page w} (h : Holds geo node l)
    (hr : Holds geo right lr) (hroom : l.length + lr.length ≤ geo.noPairs) :
    Holds geo (appendPairs geo node l.length right lr.length) (l ++ lr) := by
  refine ⟨by simpa using hroom, fun i hi => ?_, fun e he => ?_⟩
  · rw [slotAt_appendPairs hi hroom]
    by_cases hin : l.length ≤ i ∧ i < l.length + lr.length
    · rw [if_pos hin, hr.slot _ (by omega)]
      simp only [List.getD_eq_getElem?_getD]
      rw [List.getElem?_append_right hin.1]
    · rw [if_neg hin, h.slot i hi]
      simp only [List.getD_eq_getElem?_getD]
      by_cases hlow : i < l.length
      · rw [List.getElem?_append_left hlow]
      · rw [List.getElem?_eq_none (by omega), List.getElem?_eq_none (by simp; omega)]
  · cases List.mem_append.mp he with
    | inl hmem =>
      exact h.used e hmem
    | inr hmem =>
      exact hr.used e hmem

/-- The split of a full node: the first half of the pairs in `new`, the rest in the node. -/
theorem Holds.split {new : Words w} (h : Holds geo node l) (hnew : Holds geo new [])
    (htwo : 2 ≤ l.length) :
    Holds geo (splitNode geo l.length new node).1 (l.take (l.length / 2)) ∧
      Holds geo (splitNode geo l.length new node).2 (l.drop (l.length / 2)) := by
  have hlen := h.length_le
  refine ⟨⟨by simp; omega, fun i hi => ?_, fun e he => h.used e (List.mem_of_mem_take he)⟩,
    ⟨by simp; omega, fun i hi => ?_, fun e he => h.used e (List.mem_of_mem_drop he)⟩⟩
  · rw [(slotAt_splitNode hi htwo hlen).1]
    simp only [List.getD_eq_getElem?_getD, List.getElem?_take]
    by_cases hlow : i < l.length / 2
    · rw [if_pos hlow, if_pos hlow, h.slot i hi, List.getD_eq_getElem?_getD]
    · rw [if_neg hlow, if_neg hlow, hnew.slot i hi]
      rfl
  · rw [(slotAt_splitNode hi htwo hlen).2]
    simp only [List.getD_eq_getElem?_getD, List.getElem?_drop]
    by_cases hlow : i < l.length - l.length / 2
    · rw [if_pos hlow, h.slot _ (by omega), List.getD_eq_getElem?_getD, Nat.add_comm]
    · rw [if_neg hlow, List.getElem?_eq_none (show l.length ≤ l.length / 2 + i by omega)]
      by_cases hcleared : i < l.length
      · rw [if_pos hcleared]
        rfl
      · rw [if_neg hcleared, h.slot_end (by omega) hi]
        rfl

end Writing

end CachedBTree
