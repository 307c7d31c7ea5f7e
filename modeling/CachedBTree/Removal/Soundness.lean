import CachedBTree.Removal.Levels

/-! # `cbtree_remove`

Every level settles the node that lost a slot: it stays as it is, or goes when it is
empty, or is joined with a neighbour, or is a root with one child that gives way to
it.  From this follow the calls up the tree by induction on the bound of the
recursion, and then the call of `cbtree_remove` for a stored key. -/

namespace CachedBTree

open CachedBTree.Support

variable {w : Nat} {geo : Geo} {L : Nat} {s s' : State w} {G G' : Labels w} {p q a b c : Ptr w}
  {rec : Reclaim w} {removeUp : KeyPtr w → Nat → State w → Except Fault (Ptr w × State w)}

/-! ## A node that lost a slot -/

/-- A root with one child. -/
theorem cbtreeShrink_settles (hrec : Releases geo rec.shrunk) (h : Tree geo 1 1 s.height s G)
    (hlen : (G s.node).page.length = 1)
    (hfull : 2 ≤ s.height → ∀ x, (G x).lvl + 1 = s.height → (G x).page ≠ []) :
    ∃ s' G', cbtreeShrink geo rec s = .ok s' ∧ Settled geo s.height G s' G' := by
  unfold cbtreeShrink
  by_cases hh : s.height ≤ 1
  · rw [if_pos hh]
    exact ⟨s, G, rfl, Settled.refl h⟩
  have hroot := h.root_lvl (by omega)
  obtain ⟨⟨k, c⟩, hpage⟩ := List.length_eq_one_iff.mp hlen
  obtain ⟨hclvl, -, -, -, hchi⟩ := h.child_of_mem (p := s.node) (k := k) (c := c) (by omega) (by omega)
    (by rw [hpage]; simp)
  obtain ⟨n, -, hload, hholds⟩ := h.load (p := s.node) (by omega)
  rw [hpage] at hholds
  have hfill : getfill geo n 0 = 1 := hholds.getfill (Nat.zero_le _)
  have hcut : Holds geo n ([] ++ [(k, c)]) := hholds
  have hchild : bval geo n 0 = c := hcut.bval_append
  have hcr : c ≠ s.node := by rintro rfl; omega
  have htree : Tree geo 1 1 s.height (s.withHead ⟨c, s.height - 1⟩) (G.drop s.node [(k, c)]) :=
    (h.mono le_rfl (Nat.zero_le 1) le_rfl).shrink (by omega) hpage (hfull (by omega) c (by omega))
      (show s.height - 1 + 1 = s.height by omega) rfl fun _ _ _ => rfl
  obtain ⟨s', hrun, htree'⟩ := htree.release hrec (p := s.node) (by rw [drop_self])
  refine ⟨s', G.drop s.node [(k, c)], ?_, htree', Pruned.drop (by omega) ?_,
    pairAt_drop fun hone => by omega⟩
  · rw [if_neg hh]
    simp only [hload, ok_bind, hfill, hchild, lt_irrefl, if_false]
    exact hrun
  · simp only [List.mem_singleton, forall_eq]
    exact ⟨hcr, by omega, fun _ => hchi⟩

/-- Two neighbours have changed places, and the left one holds the pairs of both: the other can go. -/
theorem Tree.leaving_swapped {l₁ l₂ : Page w} {ka kb : Nat} (h : Tree geo 1 1 L s G) (hL : 1 ≤ L)
    (hp : (G p).lvl = L + 1) (hpage : (G p).page = l₁ ++ (ka, a) :: (kb, b) :: l₂) (hhead : s'.toHead = s.toHead)
    (hswap : Tree geo 1 1 (L + 1) s' (G.swapped p l₁ ka a kb b l₂)) :
    Leaving geo (L + 1) s' (G.swapped p l₁ ka a kb b l₂) p l₁ ka b ((kb, a) :: l₂) := by
  have hpageB : (G p).page = (l₁ ++ [(ka, a)]) ++ (kb, b) :: l₂ := by rw [hpage]; simp
  have halvl := (h.child (by omega) (by omega) hpage).1
  obtain ⟨hblvl, hbpar, -⟩ := h.child (by omega) (by omega) hpageB
  have hple := h.lvl_le p
  have hap : a ≠ p := by rintro rfl; omega
  have hbp : b ≠ p := by rintro rfl; omega
  have hba : b ≠ a := h.slot_ne (by omega) (by omega) hpage (.inr (List.mem_cons_self ..))
  refine ⟨hswap, by omega, (swapped_lvl p).trans hp, by rw [swapped_parent], fun x hx hne => ?_,
    ⟨a, hba.symm, by rw [swapped_lvl]; omega⟩, fun x hx hxb => ?_⟩
  · -- the children of `b` have moved to `a`
    rw [swapped_lvl] at hx
    rw [congrArg Head.node hhead] at hne
    have hxlvl := (h.parent x hx hne).1
    by_cases hxp : x = p
    · rw [hxp, swapped_parent]
      rintro heq
      rw [hxp, heq] at hxlvl
      omega
    by_cases hxa : x = a
    · rw [hxa, swapped_left hap]
      rintro heq
      rw [hxa, heq] at hxlvl
      omega
    by_cases hxb : x = b
    · rw [hxb, swapped_right hbp hba, hbpar]
      exact hbp.symm
    by_cases hxm : (G x).lvl + 1 = (G b).lvl ∧ (G x).par = b
    · rw [swapped_moved hxp hxa hxb hxm.1 hxm.2]
      exact hba.symm
    · rw [swapped_of_ne hxp hxa hxb fun hl hpar => hxm ⟨hl, hpar⟩]
      rintro heq
      rw [heq] at hxlvl
      exact hxm ⟨hxlvl.symm, heq⟩
  · rw [swapped_lvl] at hx
    have hfill := h.fill x (by omega) (h.ne_root (by omega))
    have hxp : x ≠ p := by rintro rfl; omega
    intro hnil
    by_cases hxa : x = a
    · rw [hxa, swapped_left hap] at hnil
      rw [hxa, (List.append_eq_nil_iff.mp hnil).1] at hfill
      simp at hfill
    · rw [swapped_page hxp hxa] at hnil
      rw [hnil] at hfill
      simp at hfill

/-- Two neighbours whose pairs fit into one node. -/
theorem merge_settles {l₁ l₂ : Page w} {ka kb : Nat} (hrec : Releases geo rec.merged)
    (hup : RemovesAt geo s.height (L + 1) removeUp) (h : Tree geo 1 1 L s G) (hL : 1 ≤ L)
    (hp : (G p).lvl = L + 1) (hpage : (G p).page = l₁ ++ (ka, a) :: (kb, b) :: l₂)
    (hroom : (G a).page.length + (G b).page.length ≤ geo.noPairs) :
    ∃ s' G', merge geo rec removeUp L a (G a).page.length b (G b).page.length p l₁.length s = .ok s' ∧
      Settled geo L G s' G' := by
  have hpageB : (G p).page = (l₁ ++ [(ka, a)]) ++ (kb, b) :: l₂ := by rw [hpage]; simp
  have halvl := (h.child (by omega) (by omega) hpage).1
  have hblvl := (h.child (by omega) (by omega) hpageB).1
  have hple := h.lvl_le p
  have hap : a ≠ p := by rintro rfl; omega
  have hbp : b ≠ p := by rintro rfl; omega
  have hba : b ≠ a := h.slot_ne (by omega) (by omega) hpage (.inr (List.mem_cons_self ..))
  obtain ⟨na, -, hloadA, hholdsA⟩ := h.load (p := a) (by omega)
  obtain ⟨nb, -, hloadB, hholdsB⟩ := h.load (p := b) (by omega)
  obtain ⟨np, hnp, hloadP, hholdsP⟩ := h.load (p := p) (by omega)
  have hholdsA' := hholdsA.append hholdsB hroom
  have hpne := h.ne_null (p := p) (by omega)
  rw [hpage] at hholdsP
  have hone := hholdsP.setval (h.ne_null (p := b) (by omega))
  have htwo : Holds geo (setval geo (setval geo np l₁.length b) (l₁.length + 1) a)
      (l₁ ++ (ka, b) :: (kb, a) :: l₂) := by
    have hcut : l₁ ++ (ka, b) :: (kb, b) :: l₂ = (l₁ ++ [(ka, b)]) ++ (kb, b) :: l₂ := by simp
    rw [hcut] at hone
    simpa using hone.setval (h.ne_null (p := a) (by omega))
  -- the neighbours change places
  let s₁ := s.setNode a (appendPairs geo na (G a).page.length nb (G b).page.length)
  let s₂ := s₁.setNode p (setval geo (setval geo np l₁.length b) (l₁.length + 1) a)
  have hload₁ : s₁.load p = .ok np :=
    State.load_eq_ok.mpr ⟨hpne, (State.setNode_heap_ne _ hap.symm).trans hnp⟩
  have hswap : Tree geo 1 1 (L + 1) s₂ (G.swapped p l₁ ka a kb b l₂) := by
    refine (h.mono (by omega) le_rfl le_rfl : Tree geo 1 1 (L + 1) s G).swap hL hp hpage rfl
      (fun x hxp hxa _ => ?_) (State.setNode_heap_self _) htwo ?_ hholdsA'
    · exact (State.setNode_heap_ne _ hxp).trans (State.setNode_heap_ne _ hxa)
    · exact (State.setNode_heap_ne _ hap).trans (State.setNode_heap_self _)
  -- the left one, now holding all pairs, stays
  have hleaving : Leaving geo (L + 1) s₂ (G.swapped p l₁ ka a kb b l₂) p l₁ ka b ((kb, a) :: l₂) :=
    h.leaving_swapped hL hp hpage rfl hswap
  obtain ⟨ret, s₃, G₃, hrun, htree₃, hpruned₃⟩ := hup s₂ _ (.slot p l₁.length) p l₁ ka b _ rfl hleaving
    (.slot (by simp))
  have htree : Tree geo 1 1 L s₃ G₃ := htree₃.lower hpruned₃ hL fun x hx => by
    have hlevel := h.swapped_level hL hp hpage hx
    refine ⟨hlevel.1, fun _ => hlevel.2 (h.ne_root ?_)⟩
    have hxb : x ≠ b := by
      rintro rfl
      rw [drop_self] at hx
      simp only at hx
      omega
    rw [(drop_same hxb).1, swapped_lvl] at hx
    omega
  have hgone : (G₃ b).lvl = 0 := by
    rcases hpruned₃.lvl b with heq | ⟨-, hzero⟩
    · rw [heq, drop_self]
    · exact hzero
  obtain ⟨s', hrun', htree'⟩ := htree.release hrec hgone
  refine ⟨s', G₃, ?_, htree', (Pruned.swapped hp (by omega) (by omega) hba).trans hpruned₃.of_succ,
    fun e => ?_⟩
  · unfold merge
    simp only [hloadA, hloadB, ok_bind]
    show (s₁.load p >>= _) = _
    simp only [hload₁, ok_bind]
    show (removeUp _ _ s₂ >>= _) = _
    rw [hrun, ok_bind]
    exact hrun'
  · exact (hpruned₃.pairAt (by omega) e).trans
      (pairAt_swapped hL hp (by omega) (by omega) hba e)

/-- The node `p` has lost a slot; it may be empty now, the others are not. -/
structure Thinned (geo : Geo) (L : Nat) (s : State w) (G : Labels w) (p : Ptr w) (kp : KeyPtr w) :
    Prop where
  tree : Tree geo 0 1 L s G
  lvl : (G p).lvl = L
  full : ∀ x, 1 ≤ (G x).lvl → L ≤ (G x).lvl + 1 → x ≠ s.node → x ≠ p → (G x).page ≠ []
  /-- The key still leads to the node. -/
  reads : ∃ k, Reads geo s kp k ∧ (G p).lo ≤ k ∧ k < (G p).hi
  empty : (G p).page = [] → (∃ key, kp = .buf key) ∧ ∃ y, y ≠ p ∧ (G y).lvl = L

namespace Thinned

variable {kp : KeyPtr w}

theorem tree_up (h : Thinned geo L s G p kp) : Tree geo 1 1 (L + 1) s G :=
  { h.tree.mono (Nat.le_succ L) le_rfl le_rfl with
    fill := fun x hx hne => List.length_pos_of_ne_nil (h.full x (by omega) (by omega) hne (by
      rintro rfl
      have := h.lvl
      omega)) }

theorem tree_full (h : Thinned geo L s G p kp) (hL : 1 ≤ L) (hne : p ≠ s.node → (G p).page ≠ []) :
    Tree geo 1 1 L s G :=
  { h.tree with
    fill := fun x hx hroot => by
      by_cases hxp : x = p
      · subst hxp
        exact List.length_pos_of_ne_nil (hne hroot)
      · exact List.length_pos_of_ne_nil (h.full x (by omega) (by omega) hroot hxp) }

/-- An empty node leaves its parent. -/
theorem rebalance_empty {rec : Reclaim w} (h : Thinned geo L s G p kp)
    (hrec : CachedBTree.Releases geo rec.emptied)
    (hup : RemovesAt geo s.height (L + 1) removeUp) (hL : 1 ≤ L) (hlt : L < s.height)
    (hnil : (G p).page = []) :
    ∃ s' G', rebalance geo rec removeUp kp L p 0 s = .ok s' ∧ Settled geo L G s' G' := by
  have hlvl := h.lvl
  have hroot : p ≠ s.node := h.tree.ne_root (by omega)
  obtain ⟨⟨key, rfl⟩, y, hy, hylvl⟩ := h.empty hnil
  obtain ⟨k₀, l₁, l₂, hplvl, hpage, -, hlohi, -⟩ := h.tree.parent_slot (by omega) (by omega) hroot
  obtain ⟨k, ⟨key', hread, rfl⟩, hlo, hhi⟩ := h.reads
  cases hread
  -- the separator of the empty node goes from its parent
  have hleaving : Leaving geo (L + 1) s G (G p).par l₁ k₀ p l₂ := by
    refine ⟨h.tree_up, by omega, by omega, hpage, fun x hx hne heq => ?_, ⟨y, hy, by omega⟩,
      fun x hx hxp => h.full x (by omega) (by omega) (h.tree.ne_root (by omega)) hxp⟩
    obtain ⟨-, k', hmem⟩ := h.tree.parent x hx hne
    rw [heq, hnil] at hmem
    simp at hmem
  obtain ⟨ret, s₁, G₁, hrun, htree₁, hpruned⟩ := hup s G (.buf key) _ l₁ k₀ p l₂ rfl hleaving
    (.buf key hlo hhi)
  -- the next sibling takes over what the node's interval was
  have hnext : ∀ e ∈ l₂, e.2 ≠ p ∧ (G e.2).lvl = L ∧ (G e.2).hi ≤ (G p).hi := by
    rintro ⟨k', c'⟩ he
    have hne := h.tree.slot_ne (by omega) (by omega) hpage (.inr he)
    obtain ⟨l₃, l₄, rfl⟩ := List.append_of_mem he
    have hcut : (G (G p).par).page = (l₁ ++ (k₀, p) :: l₃) ++ (k', c') :: l₄ := by rw [hpage]; simp
    obtain ⟨h₁, -, -, -, h₅⟩ := h.tree.child (by omega) (by omega) hcut
    have hchain := h.tree.chain (G p).par (by omega)
    rw [hcut] at hchain
    have hend := (chain_append.mp hchain).1.endKey_le_of_mem (e := (k₀, p)) (by simp)
    have hk₀ := (h.tree.child (by omega) (by omega) hpage).2.2.1
    simp only at hend ⊢
    exact ⟨hne, by omega, by omega⟩
  have htree : Tree geo 1 1 L s₁ G₁ := htree₁.lower hpruned hL fun x hx => by
    have hxp : x ≠ p := by
      rintro rfl
      rw [drop_self] at hx
      simp only at hx
      omega
    obtain ⟨hxlvl, -, hxlo, hxpage⟩ : (G.drop p l₂ x).lvl = (G x).lvl ∧
        (G.drop p l₂ x).par = (G x).par ∧ (G.drop p l₂ x).lo = (G x).lo ∧
        (G.drop p l₂ x).page = (G x).page := drop_same hxp
    rw [hxlvl] at hx
    have hhi' : (G x).hi ≤ (G.drop p l₂ x).hi := by
      unfold Labels.drop
      rw [if_neg hxp]
      split
      next heq =>
        obtain ⟨e, he, rfl⟩ := Option.map_eq_some_iff.mp heq
        exact (hnext e (List.mem_of_mem_head? he)).2.2
      next => exact le_rfl
    rw [hxlo, hxpage]
    refine ⟨?_, fun _ => h.full x (by omega) (by omega) (h.tree.ne_root (by omega)) hxp⟩
    refine chain_congr ((h.tree.chain x (by omega)).mono_hi hhi' fun _ _ hok => hok.mono_hi hhi')
      hxlvl fun k' c' hmem hlvlx => ?_
    have hclvl := (h.tree.child_of_mem (by omega) hlvlx hmem).1
    rw [drop_of_ne (by rintro rfl; omega) fun e he => by
      rintro rfl
      have := (hnext e he).2.1
      omega]
    exact SameSpan.refl _
  -- nothing names the node, so it can be given back
  have hgone : (G₁ p).lvl = 0 := by
    rcases hpruned.lvl p with heq | ⟨-, hzero⟩
    · rw [heq, drop_self]
    · exact hzero
  obtain ⟨s', hrun', htree'⟩ := htree.release hrec hgone
  refine ⟨s', G₁, ?_, htree', (Pruned.drop (by omega) fun e he => ?_).trans hpruned.of_succ, fun e => ?_⟩
  · unfold rebalance
    rw [if_pos rfl, hrun, ok_bind]
    exact hrun'
  · obtain ⟨h₁, h₂, h₃⟩ := hnext e he
    exact ⟨h₁, by omega, fun _ => h₃⟩
  · exact (hpruned.pairAt (by omega) e).trans (pairAt_drop (fun _ => hnil) e)

/-- A node that is not empty is joined with the left neighbour or with the right one, or stays. -/
theorem rebalance_full {rec : Reclaim w} (h : Thinned geo L s G p kp)
    (hrec : CachedBTree.Releases geo rec.merged)
    (hup : RemovesAt geo s.height (L + 1) removeUp) (hL : 1 ≤ L) (hlt : L < s.height)
    (hne : (G p).page ≠ []) :
    ∃ s' G', rebalance geo rec removeUp kp L p (G p).page.length s = .ok s' ∧
      Settled geo L G s' G' := by
  have hlvl := h.lvl
  have htree := h.tree_full hL fun _ => hne
  have hroot : p ≠ s.node := htree.ne_root (by omega)
  obtain ⟨k₀, l₁, l₂, hplvl, hpage, -, -, -⟩ := htree.parent_slot (by omega) (by omega) hroot
  obtain ⟨k, hread, hlo, hhi⟩ := h.reads
  obtain ⟨hplo, hphi⟩ := htree.interval_le (p := p) (by omega) (by omega) hroot
  have hfind : findLevel geo kp (L + 1) s = .ok ((G p).par, s) := by
    have := htree.findLevel_to hread (p := (G p).par) (by omega) (by omega) (by omega) (by omega)
    rwa [hplvl, hlvl] at this
  obtain ⟨key, hkey, rfl⟩ := hread
  obtain ⟨h₁, h₂⟩ := htree.cut_at_child (by omega) (by omega) hpage hlo hhi
  obtain ⟨n, -, hload, hholds⟩ := htree.load (p := (G p).par) (by omega)
  rw [hpage] at hholds
  have hpos : getpos geo n key = l₁.length := hholds.getpos h₁ h₂
  have hchild : bval geo n l₁.length = p := hholds.bval_append
  have hfill : getfill geo n l₁.length = l₁.length + (l₂.length + 1) := by
    rw [hholds.getfill (by simp), List.length_append, List.length_cons]
  have hbug : ¬bval geo n l₁.length ≠ p := by simp [hchild]
  unfold rebalance
  rw [if_neg (by simpa using hne)]
  simp only [hfind, hload, hkey, ok_bind, hpos, hfill, if_neg hbug]
  -- the right neighbour is looked at when the left one does not do
  have hright : ∃ s' G', (if l₁.length + 1 < l₁.length + (l₂.length + 1) then do
        let rightWords ← s.load (bval geo n (l₁.length + 1))
        if (G p).page.length + getfill geo rightWords 0 ≤ geo.noPairs then
          merge geo rec removeUp L p (G p).page.length (bval geo n (l₁.length + 1))
            (getfill geo rightWords 0) (G p).par l₁.length s
        else .ok s
      else .ok s) = .ok s' ∧ Settled geo L G s' G' := by
    cases l₂ with
    | nil => exact ⟨s, G, by simp, Settled.refl htree⟩
    | cons e l₂ =>
      obtain ⟨kb, b⟩ := e
      have hcut : (G (G p).par).page = (l₁ ++ [(k₀, p)]) ++ (kb, b) :: l₂ := by rw [hpage]; simp
      have hblvl := (htree.child (by omega) (by omega) hcut).1
      have hb : bval geo n (l₁.length + 1) = b := by
        have hholds' : Holds geo n ((l₁ ++ [(k₀, p)]) ++ (kb, b) :: l₂) := by simpa using hholds
        simpa using hholds'.bval_append
      obtain ⟨nb, -, hloadB, hholdsB⟩ := htree.load (p := b) (by omega)
      rw [if_pos (by simp), hb, hloadB, ok_bind, hholdsB.getfill (Nat.zero_le _)]
      by_cases hroom : (G p).page.length + (G b).page.length ≤ geo.noPairs
      · rw [if_pos hroom]
        exact merge_settles hrec hup htree hL (by omega) hpage hroom
      · rw [if_neg hroom]
        exact ⟨s, G, rfl, Settled.refl htree⟩
  rcases List.eq_nil_or_concat l₁ with rfl | ⟨l, ⟨ka, a⟩, rfl⟩
  · simpa using hright
  · simp only [List.concat_eq_append, List.append_assoc, List.cons_append, List.nil_append,
      List.length_append, List.length_singleton] at hpage hholds hright ⊢
    have halvl := (htree.child (by omega) (by omega) hpage).1
    have ha : bval geo n (l.length + 1 - 1) = a := hholds.bval_append
    obtain ⟨na, -, hloadA, hholdsA⟩ := htree.load (p := a) (by omega)
    rw [if_pos (Nat.succ_pos _), ha, hloadA, ok_bind, hholdsA.getfill (Nat.zero_le _)]
    simp only [Option.mem_def, Option.some.injEq, exists_eq_left', Option.getD_some]
    by_cases hroom : (G p).page.length + (G a).page.length ≤ geo.noPairs
    · rw [if_pos hroom]
      exact merge_settles hrec hup htree hL (by omega) hpage (by omega)
    · rw [if_neg hroom]
      exact hright

/-- The last part of `cbtree_remove_level`. -/
theorem settle {rec : Reclaim w} (h : Thinned geo L s G p kp) (hrec : rec.Releases geo)
    (hN : 2 ≤ geo.noPairs) (hup : RemovesAt geo s.height (L + 1) removeUp) (hL : 1 ≤ L)
    (ret : Ptr w) :
    ∃ s' G', (if (G p).page.length < geo.noPairs / 2 then
        if L < s.height then do
          let s ← rebalance geo rec removeUp kp L p (G p).page.length s
          .ok (ret, s)
        else if (G p).page.length = 1 then do
          let s ← cbtreeShrink geo rec s
          .ok (ret, s)
        else .ok (ret, s)
      else .ok (ret, s)) = .ok (ret, s') ∧ Settled geo L G s' G' := by
  have hlvl := h.lvl
  have hple := h.tree.lvl_le p
  by_cases hnil : (G p).page = []
  · -- an empty root would be all there is, but another entry is left
    have hlt : L < s.height := by
      by_contra hge
      obtain ⟨-, y, hy, hylvl⟩ := h.empty hnil
      rw [h.tree.eq_root (p := p) (by omega) (by omega)] at hy
      exact hy (h.tree.eq_root (by omega) (by omega))
    obtain ⟨s', G', hrun, hsettled⟩ := h.rebalance_empty hrec.emptied hup hL hlt hnil
    refine ⟨s', G', ?_, hsettled⟩
    rw [hnil, List.length_nil, if_pos (by omega), if_pos hlt, hrun, ok_bind]
  have htree := h.tree_full hL fun _ => hnil
  by_cases hfew : (G p).page.length < geo.noPairs / 2
  · rw [if_pos hfew]
    by_cases hlt : L < s.height
    · obtain ⟨s', G', hrun, hsettled⟩ := h.rebalance_full hrec.merged hup hL hlt hnil
      exact ⟨s', G', by rw [if_pos hlt, hrun, ok_bind], hsettled⟩
    · rw [if_neg hlt]
      -- the root may have few pairs, but not a single one
      obtain rfl : L = s.height := by omega
      have hroot := htree.eq_root (p := p) (by omega) (by omega)
      by_cases hone : (G p).page.length = 1
      · obtain ⟨s', G', hrun, hsettled⟩ := cbtreeShrink_settles hrec.shrunk htree (hroot ▸ hone)
          fun hh x hx => h.full x (by omega) (by omega) (htree.ne_root (by omega)) (by rintro rfl; omega)
        exact ⟨s', G', by rw [if_pos hone, hrun, ok_bind], hsettled⟩
      · exact ⟨s, G, by rw [if_neg hone], Settled.refl htree⟩
  · exact ⟨s, G, by rw [if_neg hfew], Settled.refl htree⟩

end Thinned

/-! ## The calls up the tree -/

section Up

variable {kp : KeyPtr w} {l₁ l₂ : Page w} {k : Nat}

/-- The key leads to the node and cuts its page in front of the slot. -/
theorem Aims.reads {m r : Nat} (haims : Aims geo G p l₁ c l₂ kp) (h : Tree geo m r L s G)
    (hL : 2 ≤ L) (hp : (G p).lvl = L) (hpage : (G p).page = l₁ ++ (k, c) :: l₂) :
    ∃ key, kp.read geo s = .ok key ∧ (G p).lo ≤ keyNum geo key ∧ keyNum geo key < (G p).hi ∧
      (∀ e ∈ l₁, keyNum geo key < e.1) ∧ ∀ e ∈ (k, c) :: l₂, e.1 ≤ keyNum geo key := by
  have hchain := h.chain p (by omega)
  cases haims with
  | buf key hlo hhi =>
    obtain ⟨-, -, hk, -, hchi⟩ := h.child_of_mem (p := p) (k := k) (c := c) (by omega) (by omega)
      (by rw [hpage]; simp)
    obtain ⟨h₁, h₂⟩ := h.cut_at_child (by omega) (by omega) hpage hlo hhi
    have hklo := (hchain.mem (by rw [hpage]; simp : (k, c) ∈ _)).1
    simp only at hklo
    exact ⟨key, rfl, by omega, by omega, h₁, h₂⟩
  | slot hnext =>
    obtain ⟨n, -, hload, hholds⟩ := h.load (p := p) (by omega)
    rw [hpage] at hholds hchain
    have hkey := hholds.keyNum_append
    obtain ⟨hlo, hhi⟩ := hchain.mem (by simp : (k, c) ∈ _)
    refine ⟨bkey geo n l₁.length, by simp only [KeyPtr.read, hload, ok_bind], by rw [hkey]; exact hlo,
      by rw [hkey]; exact hhi, fun e he => ?_, fun e he => ?_⟩
    · rw [hkey]
      exact hchain.descending.of_append.2.2 e he (k, c) (by simp)
    · rw [hkey]
      rcases List.mem_cons.mp he with rfl | he
      · exact le_rfl
      · exact ((List.pairwise_cons.mp hchain.descending.of_append.2.1).1 e he).le

/-- Without the slot the node is one that has been thinned out. -/
theorem Leaving.thinned {n' : Words w} (h : Leaving geo L s G p l₁ k c l₂)
    (haims : Aims geo G p l₁ c l₂ kp) (hholds : Holds geo n' (l₁ ++ l₂)) :
    Thinned geo L (s.setNode p n') (G.unlinked p l₁ c l₂) p kp := by
  obtain ⟨y, hyc, hylvl⟩ := h.sibling
  have hLtwo := h.two
  have hplvl := h.lvl
  have hpage := h.page
  have hclvl := (h.tree.child (by omega) (by omega) hpage).1
  have hyne : y ≠ s.node := h.tree.ne_root (by have := h.tree.lvl_le p; omega)
  obtain ⟨hyparlvl, ky, hymem⟩ := h.tree.parent y (by omega) hyne
  -- the sibling is a child of `p`, or of another node of the level
  have hother : (G y).par = p → l₁ ++ l₂ ≠ [] := by
    rintro heq hnil
    obtain ⟨rfl, rfl⟩ := List.append_eq_nil_iff.mp hnil
    rw [heq, hpage] at hymem
    simp only [List.nil_append, List.mem_singleton, Prod.mk.injEq] at hymem
    exact hyc hymem.2
  have hself : G.unlinked p l₁ c l₂ p = { G p with page := l₁ ++ l₂ } := unlinked_self
  have hcp : c ≠ p := by rintro rfl; omega
  refine ⟨h.tree.unlink hLtwo hplvl hpage h.orphan (fun hroot => hother ?_) hholds,
    by rw [hself]; exact hplvl, fun x hx hLx hne hxp => ?_, ?_, fun hnil => ⟨?_, (G y).par, ?_, ?_⟩⟩
  · have hrootlvl := h.tree.root_lvl (by have := h.tree.lvl_le p; omega)
    rw [← hroot] at hrootlvl
    exact (h.tree.eq_root (by omega) (by omega)).trans hroot.symm
  · have hxc : x ≠ c := by
      rintro rfl
      rw [unlinked_of_ne hxp, drop_self] at hx
      simp at hx
    rw [unlinked_of_ne hxp, (drop_same hxc).1] at hx hLx
    rw [unlinked_of_ne hxp, drop_page]
    by_cases hxL : L ≤ (G x).lvl
    · exact List.ne_nil_of_length_pos (h.tree.fill x hxL hne)
    · exact h.full x (by omega) hxc
  · rw [hself]
    cases haims with
    | buf key hlo hhi =>
      obtain ⟨-, -, hk, -, hchi⟩ := h.tree.child_of_mem (p := p) (k := k) (c := c) (by omega)
        (by omega) (by rw [hpage]; simp)
      have hklo := ((h.tree.chain p (by omega)).mem (by rw [hpage]; simp : (k, c) ∈ _)).1
      simp only at hklo ⊢
      exact ⟨_, reads_buf key, by omega, by omega⟩
    | slot hnext =>
      obtain ⟨⟨k', c'⟩, l₂, rfl⟩ := List.exists_cons_of_ne_nil hnext
      have hin := (h.tree.chain p (by omega)).mem (by rw [hpage]; simp : (k', c') ∈ _)
      refine ⟨k', ⟨bkey geo n' l₁.length, ?_, hholds.keyNum_append⟩, hin.1, hin.2⟩
      simp only [KeyPtr.read, State.load_setNode (h.tree.ne_null (p := p) (by omega)), ok_bind]
  · rw [hself] at hnil
    cases haims with
    | buf key _ _ => exact ⟨key, rfl⟩
    | slot hnext => exact absurd (List.append_eq_nil_iff.mp hnil).2 hnext
  · intro heq
    rw [hself] at hnil
    exact hother heq hnil
  · have hne : (G y).par ≠ c := h.orphan y (by omega) hyne
    have hnp : (G y).par ≠ p := fun heq => by
      rw [hself] at hnil
      exact hother heq hnil
    rw [unlinked_of_ne hnp, (drop_same hne).1]
    omega

theorem cbtreeRemoveLevel_removes (hrec : rec.Releases geo) (hN : 2 ≤ geo.noPairs) :
    ∀ {fuel height L : Nat}, 2 ≤ L → height + 1 ≤ L + fuel →
      RemovesAt geo height L (cbtreeRemoveLevel geo rec fuel) := by
  intro fuel
  induction fuel with
  | zero =>
    intro height L hL hfuel s G kp p l₁ k c l₂ hheight h _
    have := h.tree.lvl_le p
    have := h.lvl
    omega
  | succ fuel ih =>
    intro height L hL hfuel s G kp p l₁ k c l₂ hheight h haims
    subst hheight
    have hplvl := h.lvl
    have hpage := h.page
    have hple := h.tree.lvl_le p
    have hpc : p ≠ c := by
      rintro rfl
      have := (h.tree.child (by omega) (by omega) hpage).1
      omega
    obtain ⟨key, hkey, hlo, hhi, h₁, h₂⟩ := haims.reads h.tree hL hplvl hpage
    have hfind : findLevel geo kp L s = .ok (p, s) := by
      have := h.tree.findLevel_to ⟨key, hkey, rfl⟩ (p := p) (by omega) (by omega) hlo hhi
      rwa [hplvl] at this
    obtain ⟨n, -, hload, hholds⟩ := h.tree.load (p := p) (by omega)
    rw [hpage] at hholds
    have hthin := h.thinned haims hholds.erase
    have hup : RemovesAt geo s.height (L + 1) (cbtreeRemoveLevel geo rec fuel) :=
      ih (by omega) (by omega)
    obtain ⟨s', G', hrun, hsettled⟩ := hthin.settle hrec hN hup (by omega) c
    refine ⟨c, s', G', ?_, hsettled.tree,
      (Pruned.unlinked hplvl hpc).trans hsettled.pruned⟩
    have hfill : getfill geo n l₁.length = l₁.length + l₂.length + 1 := by
      rw [hholds.getfill (by simp), List.length_append, List.length_cons, Nat.add_assoc]
    have hlen : (G.unlinked p l₁ c l₂ p).page.length = l₁.length + l₂.length := by
      rw [unlinked_self, List.length_append]
    rw [hlen] at hrun
    rw [cbtreeRemoveLevel, if_neg (by omega)]
    simp only [hfind, hload, hkey, ok_bind, hholds.getpos h₁ h₂, hfill, hholds.bval_append]
    rw [if_neg (by omega), if_neg (by omega), Nat.add_sub_cancel, Nat.add_sub_cancel_left]
    exact hrun

end Up

/-! ## The whole call -/

/-- The leaf loses the pair of the key. -/
theorem Tree.thin_leaf {key n' : Words w} {v : Ptr w} {l₁ l₂ : Page w} (h : Tree geo 1 1 1 s G)
    (hp : (G p).lvl = 1) (hpage : (G p).page = l₁ ++ (keyNum geo key, v) :: l₂)
    (hother : ∃ e, PairAt G 1 e ∧ e ≠ (keyNum geo key, v)) (hholds : Holds geo n' (l₁ ++ l₂)) :
    Thinned geo 1 (s.setNode p n') (Function.update G p { G p with page := l₁ ++ l₂ }) p (.buf key) ∧
      ∀ e, PairAt (Function.update G p { G p with page := l₁ ++ l₂ }) 1 e ↔
        PairAt G 1 e ∧ e ≠ (keyNum geo key, v) := by
  have hchain := h.chain p (by omega)
  obtain ⟨hlo, hhi⟩ := h.pair_interval (p := p) (e := (keyNum geo key, v)) (by omega) (by rw [hpage]; simp)
  simp only at hlo hhi
  rw [hpage] at hchain
  have hchain' : Chain (fun _ _ _ => True) (G p).lo (G p).hi (l₁ ++ l₂) :=
    Chain.erase (hchain.imp le_rfl fun _ _ _ _ _ => trivial) fun _ _ _ _ _ _ => trivial
  have htree := (h.mono le_rfl (Nat.zero_le 1) le_rfl).setLeaf hp hchain' (fun _ => Nat.zero_le _)
    (s.setNode_toHead _) (fun q hq _ => State.setNode_heap_ne n' hq) (State.setNode_heap_self _) hholds
  have hself : Function.update G p { G p with page := l₁ ++ l₂ } p = { G p with page := l₁ ++ l₂ } :=
    Function.update_self _ _ _
  have hne : ∀ x, x ≠ p → Function.update G p { G p with page := l₁ ++ l₂ } x = G x := fun x hx =>
    Function.update_of_ne hx _ _
  generalize Function.update G p { G p with page := l₁ ++ l₂ } = G' at *
  have hlvl : ∀ x, (G' x).lvl = (G x).lvl := by
    intro x
    by_cases hxp : x = p
    · rw [hxp, hself]
    · rw [hne x hxp]
  -- no other leaf has the key
  have halone : ∀ x, (G x).lvl = 1 → (keyNum geo key, v) ∈ (G x).page → x = p := by
    intro x hx hmem
    obtain ⟨hxlo, hxhi⟩ := h.pair_interval (by omega) hmem
    exact h.node_unique (by omega) (by omega) (by omega) hlo hhi hxlo hxhi
  have hnodup := hchain.descending.nodup
  have hpage' : ∀ e, e ∈ l₁ ++ l₂ ↔ e ∈ (G p).page ∧ e ≠ (keyNum geo key, v) := by
    intro e
    rw [hpage]
    constructor
    · intro he
      have hnot := (List.nodup_middle.mp hnodup).notMem
      refine ⟨by simp only [List.mem_append, List.mem_cons] at he ⊢; tauto, ?_⟩
      rintro rfl
      exact hnot he
    · rintro ⟨he, hne⟩
      simp only [List.mem_append, List.mem_cons] at he ⊢
      tauto
  have hpairs : ∀ e, PairAt G' 1 e ↔ PairAt G 1 e ∧ e ≠ (keyNum geo key, v) := by
    intro e
    constructor
    · rintro ⟨x, hx, he⟩
      rw [hlvl] at hx
      by_cases hxp : x = p
      · rw [hxp, hself] at he
        exact ⟨⟨p, hp, ((hpage' e).mp he).1⟩, ((hpage' e).mp he).2⟩
      · rw [hne x hxp] at he
        exact ⟨⟨x, hx, he⟩, by rintro rfl; exact hxp (halone x hx he)⟩
    · rintro ⟨⟨x, hx, he⟩, hek⟩
      refine ⟨x, by rw [hlvl]; exact hx, ?_⟩
      by_cases hxp : x = p
      · rw [hxp, hself]
        exact (hpage' e).mpr ⟨hxp ▸ he, hek⟩
      · rwa [hne x hxp]
  refine ⟨⟨htree, by rw [hself]; exact hp, fun x hx _ hroot hxp => ?_,
    ⟨_, reads_buf key, by rw [hself]; exact hlo, by rw [hself]; exact hhi⟩, fun hnil =>
      ⟨⟨key, rfl⟩, ?_⟩⟩, hpairs⟩
  · rw [hlvl] at hx
    rw [hne x hxp]
    exact List.ne_nil_of_length_pos (h.fill x hx hroot)
  · obtain ⟨e, hpair, hek⟩ := hother
    obtain ⟨y, hy, he⟩ := (hpairs e).mpr ⟨hpair, hek⟩
    refine ⟨y, ?_, hy⟩
    rintro rfl
    rw [hnil] at he
    simp at he

/-- A stored key is removed. -/
theorem cbtreeRemove_stored {key : Words w} {v : Ptr w} (hrec : rec.Releases geo)
    (hN : 2 ≤ geo.noPairs) (h : Tree geo 1 1 1 s G) (hstored : PairAt G 1 (keyNum geo key, v))
    (hother : ∃ e, PairAt G 1 e ∧ e ≠ (keyNum geo key, v)) :
    ∃ s' G', cbtreeRemove geo rec key s = .ok (v, s') ∧ Tree geo 1 1 1 s' G' ∧
      ∀ e, PairAt G' 1 e ↔ PairAt G 1 e ∧ e ≠ (keyNum geo key, v) := by
  obtain ⟨p, hp, hmem⟩ := hstored
  have hple := h.lvl_le p
  obtain ⟨hlo, hhi⟩ := h.pair_interval (by omega) hmem
  obtain ⟨l₁, l₂, hpage⟩ := List.append_of_mem hmem
  obtain ⟨n, -, hload, hholds⟩ := h.load (p := p) (by omega)
  have hdesc := (h.chain p (by omega)).descending
  rw [hpage] at hholds hdesc
  -- the search ends at the leaf of the key, and the scan at its slot
  have hfind : findLevel geo (.buf key) 1 s = .ok (p, s) := by
    have := h.findLevel_to (reads_buf key) (p := p) (by omega) (by omega) hlo hhi
    rwa [hp] at this
  have hpos : getpos geo n key = l₁.length := by
    refine hholds.getpos (fun e he => hdesc.of_append.2.2 e he (keyNum geo key, v) (by simp))
      fun e he => ?_
    rcases List.mem_cons.mp he with rfl | he
    · exact le_rfl
    · exact ((List.pairwise_cons.mp hdesc.of_append.2.1).1 e he).le
  have hfill : getfill geo n l₁.length = l₁.length + l₂.length + 1 := by
    rw [hholds.getfill (by simp), List.length_append, List.length_cons, Nat.add_assoc]
  obtain ⟨hthin, hpairs⟩ := h.thin_leaf hp hpage hother hholds.erase
  have hup : RemovesAt geo s.height 2 (cbtreeRemoveLevel geo rec s.height) :=
    cbtreeRemoveLevel_removes hrec hN le_rfl (by omega)
  obtain ⟨s', G', hrun, hsettled⟩ := hthin.settle hrec hN hup le_rfl v
  refine ⟨s', G', ?_, hsettled.tree, fun e => (hsettled.pairs e).trans (hpairs e)⟩
  rw [Function.update_self, List.length_append] at hrun
  rw [cbtreeRemove, if_neg (by omega), cbtreeRemoveLevel, if_neg (by omega)]
  have hread : KeyPtr.read geo s (.buf key) = .ok key := rfl
  have hhit : ¬(True ∧ keycmp geo n l₁.length key ≠ 0) := by
    simp [hholds.keycmp_append.mpr rfl]
  simp only [hfind, hload, hread, ok_bind, hpos, hfill, hholds.bval_append]
  rw [if_neg hhit, if_neg (by omega), Nat.add_sub_cancel, Nat.add_sub_cancel_left]
  exact hrun

end CachedBTree
