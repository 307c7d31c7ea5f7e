import CachedBTree.Removal.Faults
import CachedBTree.Descent

/-! # Removals that return

With the code's own release of nodes a removal returns only when it takes no node out of
the tree.  Then it has done no more than clear one slot of the leaf that the key leads to:
that of the key when it is stored there, or the last used one when the words behind the
used slots happen to look like the key. -/

namespace CachedBTree

open CachedBTree.Support

variable {w : Nat} {geo : Geo} {s s' s'' : State w} {p : Ptr w} {R : Rings w} {G : Labels w}

theorem getpos_le (geo : Geo) (node key : Words w) : getpos geo node key ≤ geo.noPairs := by
  have := scan_le (fun i => decide (keycmp geo node i key ≤ 0)) 0 geo.noPairs
  unfold getpos
  omega

theorem getfill_le (geo : Geo) (node : Words w) {start : Nat} (h : start ≤ geo.noPairs) :
    getfill geo node start ≤ geo.noPairs := by
  have := scan_le (fun i => decide (bval geo node i = 0#w)) start (geo.noPairs - start)
  unfold getfill
  omega

/-! ## Writes to slots -/

/-- Nothing but slots of nodes and the head has changed. -/
structure SlotWrite (geo : Geo) (s s' : State w) : Prop where
  side : SideKept s s'
  kfail : s'.kfail = s.kfail
  node : ∀ x n, s.heap x = some (.node n) → ∃ n', s'.heap x = some (.node n') ∧ SameCache geo n n'
  back : ∀ x n', s'.heap x = some (.node n') → ∃ n, s.heap x = some (.node n)

namespace SlotWrite

theorem refl (geo : Geo) (s : State w) : SlotWrite geo s s :=
  ⟨fun _ _ hx _ => hx, rfl, fun _ n hx => ⟨n, hx, SameCache.refl n⟩, fun _ n hx => ⟨n, hx⟩⟩

theorem setNode {n n' : Words w} (h : SlotWrite geo s s') (hp : s'.heap p = some (.node n))
    (hsame : SameCache geo n n') : SlotWrite geo s (s'.setNode p n') where
  side := h.side.trans (SideKept.setNode n' hp)
  kfail := h.kfail
  node x m hx := by
    obtain ⟨m', hm', hkeep⟩ := h.node x m hx
    by_cases hxp : x = p
    · subst hxp
      rw [hp] at hm'
      cases hm'
      exact ⟨n', State.setNode_heap_self n', hkeep.trans hsame⟩
    · exact ⟨m', by rw [State.setNode_heap_ne _ hxp, hm'], hkeep⟩
  back x m hx := by
    by_cases hxp : x = p
    · exact h.back x n (hxp ▸ hp)
    · exact h.back x m (by rwa [State.setNode_heap_ne _ hxp] at hx)

theorem caches (h : SlotWrite geo s s') (hC : Caches geo s R) : Caches geo s' R := by
  refine hC.mono h.kfail h.side (fun x n' hx => ?_) fun x n hx => ?_
  · obtain ⟨n, hn⟩ := h.back x n' hx
    obtain ⟨n'', hn'', hsame⟩ := h.node x n hn
    rw [hx] at hn''
    cases hn''
    exact ⟨n, hn, hsame _ le_rfl, hsame _ (by omega)⟩
  · obtain ⟨n', hn', -⟩ := h.node x n hx
    exact ⟨n', hn'⟩

theorem trans (h : SlotWrite geo s s') (h' : SlotWrite geo s' s'') : SlotWrite geo s s'' where
  side := h.side.trans h'.side
  kfail := h'.kfail.trans h.kfail
  node x n hx := by
    obtain ⟨n', hn', hsame⟩ := h.node x n hx
    obtain ⟨n'', hn'', hsame'⟩ := h'.node x n' hn'
    exact ⟨n'', hn'', hsame.trans hsame'⟩
  back x n'' hx := by
    obtain ⟨n', hn'⟩ := h'.back x n'' hx
    exact h.back x n' hn'

theorem findLevel {kp : KeyPtr w} {level : Nat} {q : Ptr w} (h : SlotWrite geo s s')
    (hrun : CachedBTree.findLevel geo kp level s' = .ok (q, s'')) : SlotWrite geo s s'' :=
  findLevel_keeps (I := SlotWrite geo s) (fun _ _ _ _ h hp hsame => h.setNode hp hsame) hrun h

end SlotWrite

/-! ## No node is given back -/

section Levels

variable {removeUp : KeyPtr w → Nat → State w → Except Fault (Ptr w × State w)} {kp : KeyPtr w}
  {level fill : Nat}

/-- A slot that holds the pointer to a node is inside the part of the node that slots use. -/
theorem Caches.child_word_lt {n m : Words w} {i : Nat} (hC : Caches geo s R)
    (hp : s.heap p = some (.node n)) (hi : i ≤ geo.noPairs) (hN : 0 < geo.noPairs)
    (hchild : s.heap (bval geo n i) = some (.node m)) : geo.noLongs + i < geo.arrLen := by
  by_cases hlt : i < geo.noPairs
  · exact value_word_lt hlt
  obtain rfl : i = geo.noPairs := by omega
  have harr : geo.arrLen = geo.keylen * geo.noPairs + geo.noLongs := rfl
  by_cases hone : geo.keylen = 1
  · -- the word behind the last value is the queue pointer
    have hword : bval geo n geo.noPairs = n geo.arrLen := by
      rw [harr, hone, Nat.one_mul, Nat.add_comm]
      rfl
    rw [hword] at hchild
    rcases hC.ring p n hp with ⟨hzero, -, -⟩ | hring
    · rw [hzero] at hchild
      exact absurd hchild (hC.null m)
    · rw [hring.queue.2] at hchild
      cases hchild
  · have hkey := geo.keylen_pos
    have : 2 * geo.noPairs ≤ geo.keylen * geo.noPairs := Nat.mul_le_mul_right _ (by omega)
    omega

/-- The calls further up write to slots only. -/
def WritesSlots (geo : Geo) (removeUp : KeyPtr w → Nat → State w → Except Fault (Ptr w × State w)) :
    Prop :=
  ∀ kp level s s' ret R, removeUp kp level s = .ok (ret, s') → Caches geo s R → SlotWrite geo s s'

theorem merge_faults {left right parent : Ptr w} {lfill rfill lpos : Nat}
    (hup : WritesSlots geo removeUp) (hC : Caches geo s R) (hfill : lfill + rfill ≤ geo.noPairs)
    (hpos : geo.noLongs + (lpos + 1) < geo.arrLen) :
    merge geo (Reclaim.code geo) removeUp level left lfill right rfill parent lpos s ≠ .ok s' := by
  intro hrun
  obtain ⟨lw, hleft, hrun⟩ := bind_eq_ok.mp hrun
  obtain ⟨rw', hright, hrun⟩ := bind_eq_ok.mp hrun
  obtain ⟨pw, hparent, hrun⟩ := bind_eq_ok.mp hrun
  obtain ⟨⟨ret, s₁⟩, hrec, hrun⟩ := bind_eq_ok.mp hrun
  have hswap : SameCache geo pw (setval geo (setval geo pw lpos right) (lpos + 1) left) :=
    (sameCache_setval_word (by omega)).trans (sameCache_setval_word hpos)
  have happend : SameCache geo lw (appendPairs geo lw lfill rw' rfill) := sameCache_appendPairs hfill
  have hwrite := ((SlotWrite.refl geo s).setNode (State.load_eq_ok.mp hleft).2 happend).setNode
    (State.load_eq_ok.mp hparent).2 hswap
  have hwrite₁ := hup _ _ _ _ _ R hrec (hwrite.caches hC)
  obtain ⟨n, hn, -⟩ := hwrite.node right rw' (State.load_eq_ok.mp hright).2
  obtain ⟨n₁, hn₁, -⟩ := hwrite₁.node right n hn
  exact (reclaim_faults (hwrite₁.caches (hwrite.caches hC)) hn₁).1 hrun

/-- The child that `k` leads to in a node with the words `words` has too many pairs, `fill`, to be merged
with the ones next to it. -/
structure Unmerged (geo : Geo) (s : State w) (words k : Words w) (child : Ptr w) (fill : Nat) : Prop where
  child : bval geo words (getpos geo words k) = child
  left : 0 < getpos geo words k →
    geo.noPairs < fill + fillOf geo s (bval geo words (getpos geo words k - 1))
  right : getpos geo words k + 1 < getfill geo words (getpos geo words k) →
    geo.noPairs < fill + fillOf geo s (bval geo words (getpos geo words k + 1))

theorem fillOf_load {n : Words w} (h : s.load p = .ok n) : fillOf geo s p = getfill geo n 0 := by
  simp only [fillOf, h]

/-- What `rebalance` leaves is what its search for the parent leaves, and it has found no neighbour to
merge with. -/
theorem rebalance_quiet {child : Ptr w} {n : Words w} (hN : 0 < geo.noPairs)
    (hup : WritesSlots geo removeUp) (hC : Caches geo s R) (hchild : s.heap child = some (.node n))
    (hrun : rebalance geo (Reclaim.code geo) removeUp kp level child fill s = .ok s') :
    fill ≠ 0 ∧ ∃ parent words k, findLevel geo kp (level + 1) s = .ok (parent, s') ∧
      s'.load parent = .ok words ∧ kp.read geo s' = .ok k ∧ Unmerged geo s' words k child fill := by
  rcases ite_eq_ok.mp hrun with ⟨-, hrun⟩ | ⟨hfill, hrun⟩
  · obtain ⟨⟨ret, s₁⟩, hrec, hrun⟩ := bind_eq_ok.mp hrun
    have hwrite := hup _ _ _ _ _ R hrec hC
    obtain ⟨n₁, hn₁, -⟩ := hwrite.node child n hchild
    exact absurd hrun (reclaim_faults (hwrite.caches hC) hn₁).2.1
  refine ⟨hfill, ?_⟩
  obtain ⟨⟨parent, s₁⟩, hfind, hrun⟩ := bind_eq_ok.mp hrun
  obtain ⟨words, hload, hrun⟩ := bind_eq_ok.mp hrun
  obtain ⟨k, hread, hrun⟩ := bind_eq_ok.mp hrun
  have hwrite := (SlotWrite.refl geo s).findLevel hfind
  have hC₁ := hwrite.caches hC
  obtain ⟨n₁, hn₁, -⟩ := hwrite.node child n hchild
  rcases ite_eq_ok.mp hrun with ⟨-, hrun⟩ | ⟨hsame, hrun⟩
  · cases hrun
  have hsame : bval geo words (getpos geo words k) = child := by simpa using hsame
  have hword : geo.noLongs + getpos geo words k < geo.arrLen :=
    hC₁.child_word_lt (State.load_eq_ok.mp hload).2 (getpos_le geo words k) hN (hsame ▸ hn₁)
  -- with or without a left neighbour, no merge comes to its end
  have htail : ∀ noLeft : Option Nat, (∀ m ∈ noLeft, 0 < getpos geo words k) →
      (if ∃ n ∈ noLeft, fill + n ≤ geo.noPairs then
        merge geo (Reclaim.code geo) removeUp level (bval geo words (getpos geo words k - 1))
          (noLeft.getD 0) child fill parent (getpos geo words k - 1) s₁
      else if getpos geo words k + 1 < getfill geo words (getpos geo words k) then do
        let rightWords ← s₁.load (bval geo words (getpos geo words k + 1))
        if fill + getfill geo rightWords 0 ≤ geo.noPairs then
          merge geo (Reclaim.code geo) removeUp level child fill
            (bval geo words (getpos geo words k + 1)) (getfill geo rightWords 0) parent
            (getpos geo words k) s₁
        else .ok s₁
      else .ok s₁) = .ok s' → s' = s₁ ∧ (∀ m ∈ noLeft, geo.noPairs < fill + m) ∧
        (getpos geo words k + 1 < getfill geo words (getpos geo words k) →
          geo.noPairs < fill + fillOf geo s₁ (bval geo words (getpos geo words k + 1))) := by
    intro noLeft hpos hrun
    rcases ite_eq_ok.mp hrun with ⟨⟨m, hm, hroom⟩, hrun⟩ | ⟨hnone, hrun⟩
    · have hsub : getpos geo words k - 1 + 1 = getpos geo words k := by have := hpos m hm; omega
      rw [show noLeft = some m from hm] at hrun
      exact absurd hrun (merge_faults hup hC₁ (by simp; omega) (by rw [hsub]; exact hword))
    · have hle := getfill_le geo words (getpos_le geo words k)
      have hleft : ∀ m ∈ noLeft, geo.noPairs < fill + m := fun m hm => by
        by_contra hroom
        exact hnone ⟨m, hm, by omega⟩
      rcases ite_eq_ok.mp hrun with ⟨hright, hrun⟩ | ⟨hright, hrun⟩
      · obtain ⟨rw', hload', hrun⟩ := bind_eq_ok.mp hrun
        rcases ite_eq_ok.mp hrun with ⟨hroom, hrun⟩ | ⟨hroom, hrun⟩
        · exact absurd hrun (merge_faults hup hC₁ hroom (value_word_lt (by omega)))
        · cases hrun
          exact ⟨rfl, hleft, fun _ => by rw [fillOf_load hload']; omega⟩
      · cases hrun
        exact ⟨rfl, hleft, fun h => absurd h hright⟩
  rcases ite_eq_ok.mp hrun with ⟨hpos, hrun⟩ | ⟨hpos, hrun⟩
  · obtain ⟨lw, hleft, hrun⟩ := bind_eq_ok.mp hrun
    obtain ⟨rfl, hleftFill, hrightFill⟩ := htail (some (getfill geo lw 0)) (fun _ _ => hpos) hrun
    exact ⟨parent, words, k, hfind, hload, hread, hsame,
      fun _ => by rw [fillOf_load hleft]; exact hleftFill _ rfl, hrightFill⟩
  · obtain ⟨rfl, -, hrightFill⟩ := htail none (by simp) hrun
    exact ⟨parent, words, k, hfind, hload, hread, hsame, fun h => absurd h hpos, hrightFill⟩

theorem cbtreeShrink_quiet (hC : Caches geo s R)
    (hrun : cbtreeShrink geo (Reclaim.code geo) s = .ok s') : s' = s := by
  rcases ite_eq_ok.mp hrun with ⟨-, hrun⟩ | ⟨-, hrun⟩
  · cases hrun
    rfl
  obtain ⟨words, hload, hrun⟩ := bind_eq_ok.mp hrun
  rcases ite_eq_ok.mp hrun with ⟨-, hrun⟩ | ⟨-, hrun⟩
  · cases hrun
  · exact absurd hrun (reclaim_faults (hC.withHead ⟨bval geo words 0, s.height - 1⟩) (State.load_eq_ok.mp hload).2).2.2

/-- What a call for one level that returns has done: the search for the node, and perhaps the
removal of one slot there. -/
theorem cbtreeRemoveLevel_quiet {fuel : Nat} {ret : Ptr w} (hN : 0 < geo.noPairs)
    (hup : WritesSlots (w := w) geo (cbtreeRemoveLevel geo (Reclaim.code geo) fuel)) (hC : Caches geo s R)
    (hrun : cbtreeRemoveLevel geo (Reclaim.code geo) (fuel + 1) kp level s = .ok (ret, s'))
    (hlevel : level ≤ s.height) :
    ∃ q s₁ words k, findLevel geo kp level s = .ok (q, s₁) ∧ s₁.load q = .ok words ∧
      kp.read geo s₁ = .ok k ∧
      ((level = 1 ∧ keycmp geo words (getpos geo words k) k ≠ 0 ∧ ret = 0#w ∧ s' = s₁) ∨
        ∃ fill s₂, ¬(level = 1 ∧ keycmp geo words (getpos geo words k) k ≠ 0) ∧
          fill + 1 = getfill geo words (getpos geo words k) ∧ ret = bval geo words (getpos geo words k) ∧
          s₂ = s₁.setNode q (clearpair geo
            (shiftLeft geo words (getpos geo words k) (fill - getpos geo words k)) fill) ∧
          SlotWrite geo s₁ s₂ ∧
          (s' = s₂ ∧ (fill < geo.noPairs / 2 → s₁.height ≤ level) ∨
            fill ≠ 0 ∧ level < s₁.height ∧ ∃ parent words' k', findLevel geo kp (level + 1) s₂ = .ok (parent, s') ∧
              s'.load parent = .ok words' ∧ kp.read geo s' = .ok k' ∧ Unmerged geo s' words' k' q fill)) := by
  rw [cbtreeRemoveLevel, if_neg (by omega)] at hrun
  obtain ⟨⟨q, s₁⟩, hfind, hrun⟩ := bind_eq_ok.mp hrun
  obtain ⟨words, hload, hrun⟩ := bind_eq_ok.mp hrun
  obtain ⟨k, hread, hrun⟩ := bind_eq_ok.mp hrun
  refine ⟨q, s₁, words, k, hfind, hload, hread, ?_⟩
  rcases ite_eq_ok.mp hrun with ⟨⟨hone, hcmp⟩, hrun⟩ | ⟨hcmp, hrun⟩
  · cases hrun
    exact .inl ⟨hone, hcmp, rfl, rfl⟩
  right
  rcases ite_eq_ok.mp hrun with ⟨-, hrun⟩ | ⟨hfill, hrun⟩
  · cases hrun
  -- the fill after the slot has been closed
  obtain ⟨fill, hfillEq⟩ : ∃ fill, fill + 1 = getfill geo words (getpos geo words k) :=
    ⟨getfill geo words (getpos geo words k) - 1, by omega⟩
  have hle := getfill_le geo words (getpos_le geo words k)
  have hge := le_scan (fun i => decide (bval geo words i = 0#w)) (getpos geo words k)
    (geo.noPairs - getpos geo words k)
  rw [← hfillEq, Nat.add_sub_cancel] at hrun
  have hnode := (State.load_eq_ok.mp hload).2
  have hsame : SameCache geo words (clearpair geo
      (shiftLeft geo words (getpos geo words k) (fill - getpos geo words k)) fill) := by
    by_cases hpos : getpos geo words k ≤ fill
    · exact (sameCache_shiftLeft (by omega)).trans (sameCache_clearpair (by omega))
    · rw [show fill - getpos geo words k = 0 by omega]
      exact sameCache_clearpair (by omega)
  have hwrite := (SlotWrite.refl geo s).findLevel hfind
  have hwrite₂ := (SlotWrite.refl geo s₁).setNode hnode hsame
  have hC₂ := hwrite₂.caches (hwrite.caches hC)
  suffices hlast : ret = bval geo words (getpos geo words k) ∧ _ from
    ⟨fill, _, hcmp, hfillEq, hlast.1, rfl, hwrite₂, hlast.2⟩
  -- too few pairs are left; the rebalancing that returns has found no room to merge
  rcases ite_eq_ok.mp hrun with ⟨hhalf, hrun⟩ | ⟨hhalf, hrun⟩
  · rcases ite_eq_ok.mp hrun with ⟨hlt, hrun⟩ | ⟨hge, hrun⟩
    · obtain ⟨s₃, hlast, hrun⟩ := bind_eq_ok.mp hrun
      cases hrun
      obtain ⟨hne, hparent⟩ := rebalance_quiet hN hup hC₂ (State.setNode_heap_self _) hlast
      exact ⟨rfl, .inr ⟨hne, hlt, hparent⟩⟩
    · have hge : s₁.height ≤ level := by simpa using hge
      rcases ite_eq_ok.mp hrun with ⟨-, hrun⟩ | ⟨-, hrun⟩
      · obtain ⟨s₃, hlast, hrun⟩ := bind_eq_ok.mp hrun
        cases hrun
        exact ⟨rfl, .inl ⟨cbtreeShrink_quiet hC₂ hlast, fun _ => hge⟩⟩
      · cases hrun
        exact ⟨rfl, .inl ⟨rfl, fun _ => hge⟩⟩
  · cases hrun
    exact ⟨rfl, .inl ⟨rfl, fun hlt => absurd hlt hhalf⟩⟩

theorem cbtreeRemoveLevel_writes (hN : 0 < geo.noPairs) : ∀ fuel : Nat,
    WritesSlots geo (cbtreeRemoveLevel geo (Reclaim.code (w := w) geo) fuel)
  | 0 => fun _ _ _ _ _ _ hrun _ => by cases hrun
  | fuel + 1 => fun kp level s s' ret R hrun hC => by
    by_cases hlevel : level ≤ s.height
    · obtain ⟨q, s₁, words, k, hfind, -, -, ⟨-, -, -, rfl⟩ | ⟨fill, s₂, -, -, -, -, hwrite, hlast⟩⟩ :=
        cbtreeRemoveLevel_quiet hN (cbtreeRemoveLevel_writes hN fuel) hC hrun hlevel
      · exact (SlotWrite.refl geo s).findLevel hfind
      · have hwrite₂ : SlotWrite geo s s₂ := ((SlotWrite.refl geo s).findLevel hfind).trans hwrite
        rcases hlast with ⟨rfl, -⟩ | ⟨-, -, parent, hparent⟩
        · exact hwrite₂
        · obtain ⟨-, -, hfind, -⟩ := hparent
          exact hwrite₂.findLevel hfind
    · rw [cbtreeRemoveLevel, if_pos (by omega)] at hrun
      cases hrun
      exact ⟨fun _ _ hx _ => hx, rfl, fun _ n hx => ⟨n, hx, SameCache.refl n⟩, fun _ n hx => ⟨n, hx⟩⟩

end Levels

end CachedBTree
