import CachedBTree.Caching.Lookup
import CachedBTree.Contents

/-! # The search without caches

The descent by the separators ends at the leaf that holds the key when the key is stored.
For a key that is not stored it ends at a leaf only when the key is 0 and the leaf has an
unused slot, which looks like one with this key. -/

namespace CachedBTree

open CachedBTree.Support

variable {w : Nat} {geo : Geo} {s : State w} {p c x : Ptr w} {G : Labels w} {m r : Nat} {key : Words w}

/-! ## The slot of a key in a leaf -/

section

variable {n : Words w} {l l₁ l₂ : Page w} {k : Nat} {v : Ptr w}

theorem Holds.findSlot_append (h : Holds geo n (l₁ ++ (k, v) :: l₂)) (hdesc : Descending (l₁ ++ (k, v) :: l₂))
    (hk : k = keyNum geo key) : findSlot geo n key = l₁.length := by
  have hlen := h.length_le
  simp only [List.length_append, List.length_cons] at hlen
  apply scan_eq_of_first (Nat.zero_le _) (by omega)
  · rw [decide_eq_true_eq, h.keycmp_append]
    exact hk
  · intro j _ hj
    have hmem : slotAt geo n j ∈ l₁ := by
      have hslot := h.slot j (by omega)
      rw [List.getD_eq_getElem?_getD, List.getElem?_append_left hj, List.getElem?_eq_getElem hj] at hslot
      rw [hslot]
      exact List.getElem_mem hj
    have hlt := hdesc.of_append.2.2 _ hmem (k, v) (by simp)
    rw [decide_eq_false_iff_not, keycmp, longcmp_eq_zero]
    simp only [slotAt] at hlt
    omega

/-- A key that no used slot has is found in the first unused slot when it is 0. -/
theorem Holds.findSlot_absent (key : Words w) (h : Holds geo n l) (habsent : ∀ e ∈ l, e.1 ≠ keyNum geo key) :
    findSlot geo n key = if keyNum geo key = 0 then l.length else geo.noPairs := by
  have hlen := h.length_le
  have hused : ∀ j, j < l.length → decide (keycmp geo n j key = 0) = false := by
    intro j hj
    have hne := habsent _ (h.slot_mem hj)
    rw [decide_eq_false_iff_not, keycmp, longcmp_eq_zero]
    exact hne
  -- an unused slot holds zeros, which are the key 0
  have hunused : ∀ j, l.length ≤ j → j < geo.noPairs →
      (keycmp geo n j key = 0 ↔ keyNum geo key = 0) := by
    intro j hj hjN
    have hzero : keyNum geo (bkey geo n j) = 0 := congrArg Prod.fst (h.slot_end hj hjN)
    rw [keycmp, longcmp_eq_zero, hzero]
    exact eq_comm
  unfold findSlot
  by_cases hfull : l.length = geo.noPairs
  · rw [scan_eq_bound fun j _ hj => hused j (by omega)]
    split <;> omega
  · split
    next hzero =>
      exact scan_eq_of_first (Nat.zero_le _) (by omega)
        (decide_eq_true ((hunused l.length le_rfl (by omega)).mpr hzero)) fun j _ hj => hused j hj
    next hne =>
      rw [scan_eq_bound fun j _ hj => ?_]
      · omega
      · by_cases hjl : j < l.length
        · exact hused j hjl
        · rw [decide_eq_false_iff_not, hunused j (by omega) (by omega)]
          exact hne

end

/-! ## The way down -/

theorem plainLeaf_succ (d : Nat) : plainLeaf geo key s (d + 2) p =
    if stepDown geo key s p = 0#w then 0#w else plainLeaf geo key s (d + 1) (stepDown geo key s p) := rfl

namespace Tree

/-- A key in the interval of a child leads to the child. -/
theorem stepDown_to {l₁ l₂ : Page w} {k₀ : Nat} (h : Tree geo m r 1 s G) (hp : 2 ≤ (G p).lvl)
    (hpage : (G p).page = l₁ ++ (k₀, c) :: l₂) (hlo : (G c).lo ≤ keyNum geo key)
    (hhi : keyNum geo key < (G c).hi) : stepDown geo key s p = c := by
  obtain ⟨n, hn, -, hholds⟩ := h.load (p := p) (by omega)
  obtain ⟨h₁, h₂⟩ := h.cut_at_child (by omega) hp hpage hlo hhi
  have hlen := hholds.length_le
  rw [hpage] at hholds hlen
  simp only [List.length_append, List.length_cons] at hlen
  simp only [stepDown, hn, hholds.getpos h₁ h₂]
  rw [if_neg (by omega), hholds.bval_append]

theorem plainLeaf_to (h : Tree geo m r 1 s G) (hlo : (G x).lo ≤ keyNum geo key)
    (hhi : keyNum geo key < (G x).hi) : ∀ {d : Nat} {p : Ptr w}, (G p).lvl = d + 1 →
    (1, x) ∈ nodesBelow geo s (d + 1) p → plainLeaf geo key s (d + 1) p = plainLeaf geo key s 1 x := by
  intro d
  induction d with
  | zero =>
    intro p hp hx
    simp only [nodesBelow, List.mem_cons, List.mem_flatMap, List.not_mem_nil, and_false, exists_false,
      or_false, Prod.mk.injEq] at hx
    rw [hx.2]
  | succ d ih =>
    intro p hp hx
    rw [nodesBelow, List.mem_cons] at hx
    rcases hx with heq | hx
    · simp at heq
    obtain ⟨⟨k, c⟩, hmem, (hbelow : (1, x) ∈ nodesBelow geo s (d + 1) c)⟩ := List.mem_flatMap.mp hx
    rw [h.page_eq (by omega)] at hmem
    obtain ⟨l₁, l₂, hpage⟩ := List.append_of_mem hmem
    have hclvl := (h.child (by omega) (by omega) hpage).1
    obtain ⟨-, -, -, hclo, hchi⟩ := h.nodesBelow_label (by omega) hbelow
    have hdown : stepDown geo key s p = c :=
      h.stepDown_to (by omega) hpage (hclo.trans hlo) (hhi.trans_le hchi)
    rw [plainLeaf_succ, hdown, if_neg (h.ne_null (by omega))]
    exact ih (by omega) hbelow

/-- A stored key leads to its leaf. -/
theorem plainLeaf_stored {v : Ptr w} (h : Tree geo m r 1 s G) (hx : (G x).lvl = 1)
    (hmem : (keyNum geo key, v) ∈ (G x).page) : plainLeaf geo key s s.height s.node = x := by
  obtain ⟨hlo, hhi⟩ := h.pair_interval (by omega) hmem
  have hh : 1 ≤ s.height := by have := h.lvl_le x; omega
  obtain ⟨d, hd⟩ : ∃ d, s.height = d + 1 := ⟨s.height - 1, by omega⟩
  have hnode : (1, x) ∈ nodes geo s := h.mem_nodes.mpr ⟨le_rfl, hx⟩
  rw [nodes, hd] at hnode
  rw [hd, h.plainLeaf_to hlo hhi (by rw [h.root_lvl hh, hd]) hnode]
  obtain ⟨n, hn, -, hholds⟩ := h.load (p := x) (by omega)
  obtain ⟨l₁, l₂, hpage⟩ := List.append_of_mem hmem
  have hdesc := (h.chain x (by omega)).descending
  have hlen := hholds.length_le
  rw [hpage] at hholds hdesc hlen
  simp only [List.length_append, List.length_cons] at hlen
  simp only [plainLeaf, hn]
  rw [hholds.findSlot_append hdesc rfl, if_pos (by omega)]

/-- Where the way down ends when the key is not stored. -/
theorem plainLeaf_absent (h : Tree geo m r 1 s G) (habsent : ∀ v, ¬PairAt G 1 (keyNum geo key, v)) :
    ∀ {d : Nat} {p : Ptr w}, (G p).lvl = d + 1 → plainLeaf geo key s (d + 1) p ≠ 0#w →
    keyNum geo key = 0 ∧ (G (plainLeaf geo key s (d + 1) p)).page.length < geo.noPairs := by
  intro d
  induction d with
  | zero =>
    intro p hp hne
    obtain ⟨n, hn, -, hholds⟩ := h.load (p := p) (by omega)
    have hslot := hholds.findSlot_absent key fun e he heq => habsent e.2 ⟨p, hp, by rwa [← heq]⟩
    simp only [plainLeaf, hn] at hne ⊢
    by_cases hlt : findSlot geo n key < geo.noPairs
    · rw [if_pos hlt]
      split at hslot
      next hzero => exact ⟨hzero, by omega⟩
      next => omega
    · rw [if_neg hlt] at hne
      exact absurd rfl hne
  | succ d ih =>
    intro p hp hne
    rw [plainLeaf_succ] at hne ⊢
    by_cases hdown : stepDown geo key s p = 0#w
    · rw [if_pos hdown] at hne
      exact absurd rfl hne
    · rw [if_neg hdown] at hne ⊢
      exact ih (h.stepDown_child key hp hdown) hne

/-- From the root. -/
theorem plainLeaf_root_absent (h : Tree geo m r 1 s G) (habsent : ∀ v, ¬PairAt G 1 (keyNum geo key, v))
    (hne : plainLeaf geo key s s.height s.node ≠ 0#w) : keyNum geo key = 0 := by
  by_cases hh : s.height = 0
  · rw [hh] at hne
    exact absurd rfl hne
  · obtain ⟨d, hd⟩ : ∃ d, s.height = d + 1 := ⟨s.height - 1, by omega⟩
    rw [hd] at hne
    exact (h.plainLeaf_absent habsent (by rw [h.root_lvl (by omega), hd]) hne).1

end Tree

end CachedBTree
