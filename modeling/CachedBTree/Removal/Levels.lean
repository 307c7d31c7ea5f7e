import CachedBTree.Contents
import CachedBTree.Descent
import CachedBTree.Model.Remove
import CachedBTree.Removal.Relabel

/-! # One level of `cbtree_remove_level`

`cbtree_remove_level`, `rebalance` and `merge` call each other up the tree.  A call at
level `L` is made when a node right below has to go: an empty one, or one whose pairs
have been given to its left neighbour.  `Pruned` is what such a call leaves of the
levels below, and `settle` is what happens to the node at level `L` that lost a slot. -/

namespace CachedBTree

open CachedBTree.Support

variable {w : Nat} {geo : Geo} {m r L : Nat} {s s' : State w} {G G' G'' : Labels w}
  {p q a b c : Ptr w}

/-! ## Giving back a node -/

/-- The release of a node returns and changes no slot of another node of the tree. -/
def Releases (geo : Geo) (f : Ptr w → State w → Except Fault (State w)) : Prop :=
  ∀ p s, ∃ s', f p s = .ok s' ∧ s'.toHead = s.toHead ∧
    ∀ l x n, (l, x) ∈ nodes geo s → x ≠ p → s.heap x = some (.node n) →
      ∃ n', s'.heap x = some (.node n') ∧ ∀ i, i < geo.noPairs → slotAt geo n' i = slotAt geo n i

structure Reclaim.Releases (geo : Geo) (rec : Reclaim w) : Prop where
  merged : CachedBTree.Releases geo rec.merged
  emptied : CachedBTree.Releases geo rec.emptied
  shrunk : CachedBTree.Releases geo rec.shrunk

/-- A release that frees the node and nothing else. -/
def Reclaim.freed : Reclaim w where
  merged p s := .ok (s.setObj p none)
  emptied p s := .ok (s.setObj p none)
  shrunk p s := .ok (s.setObj p none)

theorem Reclaim.freed_releases (geo : Geo) : (Reclaim.freed (w := w)).Releases geo := by
  have hfree : CachedBTree.Releases geo fun p (s : State w) => .ok (s.setObj p none) := fun p s =>
    ⟨_, rfl, rfl, fun _ x n _ hxp hx => ⟨n, by rw [State.setObj_heap, if_neg hxp, hx], fun _ _ => rfl⟩⟩
  exact ⟨hfree, hfree, hfree⟩

theorem Tree.release {f : Ptr w → State w → Except Fault (State w)} (h : Tree geo m r L s G)
    (hf : Releases geo f) (hp : (G p).lvl = 0) : ∃ s', f p s = .ok s' ∧ Tree geo m r L s' G := by
  obtain ⟨s', hrun, hhead, hkept⟩ := hf p s
  refine ⟨s', hrun, h.frame hhead fun x n hx hn => ?_⟩
  exact hkept _ x n (h.mem_nodes_of_lvl hx rfl) (by rintro rfl; omega) hn

/-! ## What a level leaves of those below -/

/-- Removals at level `L` and above: nodes from `L` on may go, the nodes right below may get more
keys and other parents, and everything further down stays. -/
structure Pruned (L : Nat) (G G' : Labels w) : Prop where
  lvl : ∀ x, (G' x).lvl = (G x).lvl ∨ L ≤ (G x).lvl ∧ (G' x).lvl = 0
  page : ∀ x, (G x).lvl < L → (G' x).page = (G x).page
  lo : ∀ x, (G x).lvl < L → (G' x).lo = (G x).lo
  hi_le : ∀ x, (G x).lvl < L → (G x).hi ≤ (G' x).hi
  hi : ∀ x, (G x).lvl + 1 < L → (G' x).hi = (G x).hi
  par : ∀ x, (G x).lvl + 1 < L → (G' x).par = (G x).par

namespace Pruned

theorem refl (L : Nat) (G : Labels w) : Pruned L G G :=
  ⟨fun _ => .inl rfl, fun _ _ => rfl, fun _ _ => rfl, fun _ _ => le_rfl, fun _ _ => rfl,
    fun _ _ => rfl⟩

theorem lvl_eq (h : Pruned L G G') {x : Ptr w} (hx : (G x).lvl < L) : (G' x).lvl = (G x).lvl := by
  rcases h.lvl x with heq | ⟨hge, -⟩
  · exact heq
  · omega

theorem lvl_of_pos (h : Pruned L G G') {x : Ptr w} (hx : 1 ≤ (G' x).lvl) :
    (G x).lvl = (G' x).lvl := by
  rcases h.lvl x with heq | ⟨-, hzero⟩
  · exact heq.symm
  · omega

theorem trans (h : Pruned L G G') (h' : Pruned L G' G'') : Pruned L G G'' where
  lvl x := by
    rcases h.lvl x with heq | ⟨hge, hzero⟩
    · rw [← heq]
      exact h'.lvl x
    · refine .inr ⟨hge, ?_⟩
      rcases h'.lvl x with heq | ⟨-, hzero'⟩
      · rw [heq, hzero]
      · exact hzero'
  page x hx := by
    have hlvl := h.lvl_eq hx
    exact (h'.page x (by omega)).trans (h.page x hx)
  lo x hx := by
    have hlvl := h.lvl_eq hx
    exact (h'.lo x (by omega)).trans (h.lo x hx)
  hi_le x hx := by
    have hlvl := h.lvl_eq hx
    exact (h.hi_le x hx).trans (h'.hi_le x (by omega))
  hi x hx := by
    have hlvl := h.lvl_eq (x := x) (by omega)
    exact (h'.hi x (by omega)).trans (h.hi x hx)
  par x hx := by
    have hlvl := h.lvl_eq (x := x) (by omega)
    exact (h'.par x (by omega)).trans (h.par x hx)

/-- What a higher level leaves alone. -/
theorem of_succ (h : Pruned (L + 1) G G') : Pruned L G G' where
  lvl x := (h.lvl x).imp_right fun hx => ⟨by omega, hx.2⟩
  page x hx := h.page x (by omega)
  lo x hx := h.lo x (by omega)
  hi_le x hx := h.hi_le x (by omega)
  hi x hx := h.hi x (by omega)
  par x hx := h.par x (by omega)

theorem drop {l₂ : Page w} (hc : L ≤ (G c).lvl)
    (hnext : ∀ e ∈ l₂, e.2 ≠ c ∧ L ≤ (G e.2).lvl + 1 ∧ ((G e.2).lvl < L → (G e.2).hi ≤ (G c).hi)) :
    Pruned L G (G.drop c l₂) := by
  have hne : ∀ x, (G x).lvl < L → x ≠ c := by rintro x hx rfl; omega
  have hfar : ∀ x, (G x).lvl + 1 < L → G.drop c l₂ x = G x := by
    intro x hx
    apply drop_of_ne (hne x (by omega))
    rintro e he rfl
    have := (hnext e he).2.1
    omega
  refine ⟨fun x => ?_, fun x hx => drop_page x, fun x hx => (drop_same (hne x hx)).2.2.1,
    fun x hx => ?_, fun x hx => by rw [hfar x hx], fun x hx => by rw [hfar x hx]⟩
  · by_cases hxc : x = c
    · rw [hxc, drop_self]
      exact .inr ⟨hc, rfl⟩
    · exact .inl (drop_same hxc).1
  · by_cases hx₂ : ∀ e ∈ l₂, e.2 ≠ x
    · rw [drop_of_ne (hne x hx) hx₂]
    · unfold Labels.drop
      rw [if_neg (hne x hx)]
      split
      next heq =>
        obtain ⟨e, he, rfl⟩ := Option.map_eq_some_iff.mp heq
        exact (hnext e (List.mem_of_mem_head? he)).2.2 hx
      next => exact le_rfl

/-- The node that loses the slot is at the level itself. -/
theorem unlinked {l₁ l₂ : Page w} (hp : (G p).lvl = L) (hcp : p ≠ c) :
    Pruned L (G.drop c l₂) (G.unlinked p l₁ c l₂) := by
  have hlow : ∀ x, (G.drop c l₂ x).lvl < L → G.unlinked p l₁ c l₂ x = G.drop c l₂ x := by
    intro x hx
    apply unlinked_of_ne
    rintro rfl
    rw [(drop_same hcp).1] at hx
    omega
  refine ⟨fun x => .inl ?_, fun x hx => by rw [hlow x hx], fun x hx => by rw [hlow x hx],
    fun x hx => by rw [hlow x hx], fun x hx => by rw [hlow x (by omega)],
    fun x hx => by rw [hlow x (by omega)]⟩
  by_cases hxp : x = p
  · rw [hxp, unlinked_self, (drop_same hcp).1]
  · rw [unlinked_of_ne hxp]

/-- The pairs of the leaves are the same below the level. -/
theorem pairAt (h : Pruned L G G') (hL : 2 ≤ L) (e : Nat × Ptr w) : PairAt G' 1 e ↔ PairAt G 1 e := by
  constructor
  · rintro ⟨x, hx, he⟩
    have hlvl := h.lvl_of_pos (x := x) (by omega)
    exact ⟨x, hlvl.trans hx, by rwa [h.page x (by omega)] at he⟩
  · rintro ⟨x, hx, he⟩
    exact ⟨x, (h.lvl_eq (by omega)).trans hx, by rwa [h.page x (by omega)]⟩

end Pruned

/-- The order of level `L` joined to that of the levels above it. -/
theorem Tree.lower (h : Tree geo 1 1 (L + 1) s G') (hpruned : Pruned (L + 1) G G') (hL : 1 ≤ L)
    (hlevel : ∀ x, (G x).lvl = L →
      Chain (ChildOk G x) (G x).lo (G x).hi (G x).page ∧ (x ≠ s.node → (G x).page ≠ [])) :
    Tree geo 1 1 L s G' := by
  refine { h with
    chain := fun x hx => ?_
    fill := fun x hx hne => ?_ }
  · cases Nat.eq_or_lt_of_le hx with
    | inl heq =>
      have hlvl := hpruned.lvl_of_pos (x := x) (by omega)
      rw [hpruned.page x (by omega), hpruned.lo x (by omega)]
      have hwide : Chain (ChildOk G x) (G x).lo (G' x).hi (G x).page :=
        (hlevel x (by omega)).1.mono_hi (hpruned.hi_le x (by omega)) fun _ _ hok =>
          hok.mono_hi (hpruned.hi_le x (by omega))
      refine hwide.imp le_rfl fun _ k c _ hok => hok.congr hlvl.symm fun hlvlx => ?_
      have hclvl := (hok hlvlx).1
      exact ⟨hpruned.lvl_eq (by omega), hpruned.par c (by omega), hpruned.lo c (by omega),
        hpruned.hi c (by omega)⟩
    | inr hlt =>
      exact h.chain x hlt
  · cases Nat.eq_or_lt_of_le hx with
    | inl heq =>
      have hlvl := hpruned.lvl_of_pos (x := x) (by omega)
      rw [hpruned.page x (by omega)]
      exact List.length_pos_of_ne_nil ((hlevel x (by omega)).2 hne)
    | inr hlt =>
      exact h.fill x hlt hne

/-! ## Calls for the level above -/

/-- How the key given for the removal of the slot of `c` is found: it leads to `c`, or it is the
key of the slot itself, which after the removal is the next key. -/
inductive Aims (geo : Geo) (G : Labels w) (p : Ptr w) (l₁ : Page w) (c : Ptr w) (l₂ : Page w) :
    KeyPtr w → Prop
  | buf (key : Words w) (hlo : (G c).lo ≤ keyNum geo key) (hhi : keyNum geo key < (G c).hi) :
    Aims geo G p l₁ c l₂ (.buf key)
  | slot (hnext : l₂ ≠ []) : Aims geo G p l₁ c l₂ (.slot p l₁.length)

/-- The child `c` of `p` can go. -/
structure Leaving (geo : Geo) (L : Nat) (s : State w) (G : Labels w) (p : Ptr w) (l₁ : Page w)
    (k : Nat) (c : Ptr w) (l₂ : Page w) : Prop where
  tree : Tree geo 1 1 L s G
  two : 2 ≤ L
  lvl : (G p).lvl = L
  page : (G p).page = l₁ ++ (k, c) :: l₂
  orphan : ∀ x, 1 ≤ (G x).lvl → x ≠ s.node → (G x).par ≠ c
  sibling : ∃ y, y ≠ c ∧ (G y).lvl + 1 = L
  full : ∀ x, (G x).lvl + 1 = L → x ≠ c → (G x).page ≠ []

/-- The calls at level `L` in trees of height `height` do what they are made for. -/
def RemovesAt (geo : Geo) (height L : Nat)
    (removeUp : KeyPtr w → Nat → State w → Except Fault (Ptr w × State w)) : Prop :=
  ∀ (s : State w) G kp p l₁ k c l₂, s.height = height → Leaving geo L s G p l₁ k c l₂ →
    Aims geo G p l₁ c l₂ kp →
    ∃ ret s' G', removeUp kp L s = .ok (ret, s') ∧ Tree geo 1 1 L s' G' ∧
      Pruned L (G.drop c l₂) G'

/-- The node at level `L` that has lost a slot has been seen to. -/
structure Settled (geo : Geo) (L : Nat) (G : Labels w) (s' : State w) (G' : Labels w) : Prop where
  tree : Tree geo 1 1 L s' G'
  pruned : Pruned L G G'
  pairs : ∀ e, PairAt G' 1 e ↔ PairAt G 1 e

theorem Settled.refl (h : Tree geo 1 1 L s G) : Settled geo L G s G :=
  ⟨h, Pruned.refl L G, fun _ => Iff.rfl⟩

theorem pairAt_drop {l₂ : Page w} (hc : (G c).lvl = 1 → (G c).page = []) (e : Nat × Ptr w) :
    PairAt (G.drop c l₂) 1 e ↔ PairAt G 1 e := by
  constructor
  · rintro ⟨x, hx, he⟩
    have hxc : x ≠ c := by
      rintro rfl
      rw [drop_self] at hx
      simp at hx
    exact ⟨x, (drop_same hxc).1 ▸ hx, drop_page (G := G) x ▸ he⟩
  · rintro ⟨x, hx, he⟩
    have hxc : x ≠ c := by
      rintro rfl
      rw [hc hx] at he
      simp at he
    exact ⟨x, (drop_same hxc).1.trans hx, (drop_page (G := G) x).symm ▸ he⟩

/-! ## Two neighbours become one -/

section Join

variable {l₁ l₂ : Page w} {ka kb : Nat}

/-- Once the right neighbour is out of the tree, the left one has the pairs and the interval of
both, and the level is in order. -/
theorem Tree.swapped_level (h : Tree geo 1 1 L s G) (hL : 1 ≤ L) (hp : (G p).lvl = L + 1)
    (hpage : (G p).page = l₁ ++ (ka, a) :: (kb, b) :: l₂) {x : Ptr w}
    (hx : ((G.swapped p l₁ ka a kb b l₂).drop b ((kb, a) :: l₂) x).lvl = L) :
    Chain (ChildOk ((G.swapped p l₁ ka a kb b l₂).drop b ((kb, a) :: l₂)) x)
      ((G.swapped p l₁ ka a kb b l₂).drop b ((kb, a) :: l₂) x).lo
      ((G.swapped p l₁ ka a kb b l₂).drop b ((kb, a) :: l₂) x).hi
      ((G.swapped p l₁ ka a kb b l₂).drop b ((kb, a) :: l₂) x).page ∧
    (x ≠ s.node → ((G.swapped p l₁ ka a kb b l₂).drop b ((kb, a) :: l₂) x).page ≠ []) := by
  have hpageB : (G p).page = (l₁ ++ [(ka, a)]) ++ (kb, b) :: l₂ := by rw [hpage]; simp
  obtain ⟨halvl, hapar, hka, halohi, hahi⟩ := h.child (by omega) (by omega) hpage
  obtain ⟨hblvl, hbpar, hkb, hblohi, hbhi⟩ := h.child (by omega) (by omega) hpageB
  rw [endKey_snoc] at hbhi
  simp only at hbhi
  have hap : a ≠ p := by rintro rfl; omega
  have hbp : b ≠ p := by rintro rfl; omega
  have hba : b ≠ a := h.slot_ne (by omega) (by omega) hpage (.inr (List.mem_cons_self ..))
  have hdead : (G.swapped p l₁ ka a kb b l₂).drop b ((kb, a) :: l₂) b =
      { (G.swapped p l₁ ka a kb b l₂) b with lvl := 0 } := drop_self
  have hleft : (G.swapped p l₁ ka a kb b l₂).drop b ((kb, a) :: l₂) a =
      { G a with lo := (G b).lo, page := (G a).page ++ (G b).page } := by
    rw [drop_next hba.symm, swapped_left hap, swapped_right hbp hba]
  have hother : ∀ x, x ≠ p → x ≠ a → x ≠ b → ((G x).lvl + 1 = (G b).lvl → (G x).par ≠ b) →
      (G.swapped p l₁ ka a kb b l₂).drop b ((kb, a) :: l₂) x = G x := by
    intro x hxp hxa hxb hx
    rw [drop_of_ne_head hxb hxa, swapped_of_ne hxp hxa hxb hx]
  have hmoved : ∀ x, x ≠ p → x ≠ a → x ≠ b → (G x).lvl + 1 = (G b).lvl → (G x).par = b →
      (G.swapped p l₁ ka a kb b l₂).drop b ((kb, a) :: l₂) x = { G x with par := a } := by
    intro x hxp hxa hxb hlvl hpar
    rw [drop_of_ne_head hxb hxa, swapped_moved hxp hxa hxb hlvl hpar]
  have hxb : x ≠ b := by
    rintro rfl
    rw [hdead] at hx
    simp only at hx
    omega
  have hlvl : ((G.swapped p l₁ ka a kb b l₂).drop b ((kb, a) :: l₂) x).lvl = (G x).lvl := by
    rw [(drop_same hxb).1, swapped_lvl]
  generalize (G.swapped p l₁ ka a kb b l₂).drop b ((kb, a) :: l₂) = G' at *
  -- the children one level down, of whom those of `b` go to `a`
  have hchild : ∀ {y c : Ptr w} {hi k : Nat}, (G y).lvl = L → y ≠ b → ChildOk G y hi k c →
      2 ≤ (G y).lvl → ChildOk G' y hi k c := by
    intro y c hi k hy hyb hok hlvly hlvly'
    obtain ⟨h₁, h₂, h₃, h₄, h₅⟩ := hok hlvly
    rw [hother c (by rintro rfl; omega) (by rintro rfl; omega) (by rintro rfl; omega) fun _ => by
      rw [h₂]
      exact hyb]
    have hyl : (G' y).lvl = (G y).lvl := by
      by_cases hya : y = a
      · rw [hya, hleft]
      · rw [hother y (by rintro rfl; omega) hya hyb fun _ => by omega]
    exact ⟨by omega, h₂, h₃, h₄, h₅⟩
  by_cases hxa : x = a
  · subst hxa
    rw [hleft]
    have hlo : (G b).lo ≤ (G x).lo := by omega
    refine ⟨chain_append.mpr ⟨((h.chain x (by omega)).mono_lo hlo).imp le_rfl
      fun hi k c _ hok hlvlx => hchild (by omega) hba.symm hok (by omega) hlvlx, ?_⟩, fun _ => ?_⟩
    · have hend := (h.chain x (by omega)).le_endKey halohi.le
      have hhi : (G b).hi ≤ endKey (G x).hi (G x).page := by omega
      refine ((h.chain b (by omega)).mono_hi hhi fun _ _ hok => hok.mono_hi hhi).imp le_rfl
        fun hi k c _ hok hlvlx => ?_
      obtain ⟨h₁, h₂, h₃, h₄, h₅⟩ := hok (by omega)
      rw [hmoved c (by rintro rfl; omega) (by rintro rfl; omega) (by rintro rfl; omega) h₁ h₂, hleft]
      exact ⟨by simp only; omega, rfl, h₃, h₄, h₅⟩
    · have := h.fill x (by omega) (h.ne_root (by have := h.lvl_le p; omega))
      intro hnil
      simp only [List.append_eq_nil_iff] at hnil
      rw [hnil.1] at this
      simp at this
  · rw [hother x (by rintro rfl; omega) hxa hxb fun _ => by omega]
    refine ⟨(h.chain x (by omega)).imp le_rfl fun hi k c _ hok hlvlx => ?_, fun hne hnil => ?_⟩
    · rw [hlvl] at hlvlx
      exact hchild (by omega) hxb hok hlvlx (by omega)
    · have := h.fill x (by omega) hne
      rw [hnil] at this
      simp at this

theorem Pruned.swapped (hp : (G p).lvl = L + 1) (ha : (G a).lvl = L) (hb : (G b).lvl = L)
    (hba : b ≠ a) : Pruned L G ((G.swapped p l₁ ka a kb b l₂).drop b ((kb, a) :: l₂)) := by
  have hlow : ∀ x, (G x).lvl < L → x ≠ p ∧ x ≠ a ∧ x ≠ b := fun x hx =>
    ⟨by rintro rfl; omega, by rintro rfl; omega, by rintro rfl; omega⟩
  have hspan : ∀ x, (G x).lvl < L →
      (G.swapped p l₁ ka a kb b l₂).drop b ((kb, a) :: l₂) x = G x ∨ (G x).lvl + 1 = L ∧
      (G.swapped p l₁ ka a kb b l₂).drop b ((kb, a) :: l₂) x = { G x with par := a } := by
    intro x hx
    obtain ⟨hxp, hxa, hxb⟩ := hlow x hx
    rw [drop_of_ne_head hxb hxa]
    by_cases hxm : (G x).lvl + 1 = (G b).lvl ∧ (G x).par = b
    · exact .inr ⟨by omega, swapped_moved hxp hxa hxb hxm.1 hxm.2⟩
    · exact .inl (swapped_of_ne hxp hxa hxb fun hl hpar => hxm ⟨hl, hpar⟩)
  refine ⟨fun x => ?_, fun x hx => ?_, fun x hx => ?_, fun x hx => ?_, fun x hx => ?_, fun x hx => ?_⟩
  · by_cases hxb : x = b
    · rw [hxb, drop_self]
      exact .inr ⟨by omega, rfl⟩
    · exact .inl ((drop_same hxb).1.trans (swapped_lvl x))
  · rcases hspan x hx with heq | ⟨-, heq⟩ <;> rw [heq]
  · rcases hspan x hx with heq | ⟨-, heq⟩ <;> rw [heq]
  · rcases hspan x hx with heq | ⟨-, heq⟩ <;> rw [heq]
  · rcases hspan x (by omega) with heq | ⟨-, heq⟩ <;> rw [heq]
  · rcases hspan x (by omega) with heq | ⟨hlvl, -⟩
    · rw [heq]
    · omega

theorem pairAt_swapped (hL : 1 ≤ L) (hp : (G p).lvl = L + 1) (ha : (G a).lvl = L)
    (hb : (G b).lvl = L) (hba : b ≠ a) (e : Nat × Ptr w) :
    PairAt ((G.swapped p l₁ ka a kb b l₂).drop b ((kb, a) :: l₂)) 1 e ↔ PairAt G 1 e := by
  have hap : a ≠ p := by rintro rfl; omega
  have hlvl : ∀ x, x ≠ b →
      ((G.swapped p l₁ ka a kb b l₂).drop b ((kb, a) :: l₂) x).lvl = (G x).lvl := fun x hxb => by
    rw [(drop_same hxb).1, swapped_lvl]
  have hleft : ((G.swapped p l₁ ka a kb b l₂).drop b ((kb, a) :: l₂) a).page =
      (G a).page ++ (G b).page := by
    rw [drop_page, swapped_left hap]
  have hpage : ∀ x, (G x).lvl = 1 → x ≠ a →
      ((G.swapped p l₁ ka a kb b l₂).drop b ((kb, a) :: l₂) x).page = (G x).page := fun x hx hxa => by
    rw [drop_page, swapped_page (by rintro rfl; omega) hxa]
  constructor
  · rintro ⟨x, hx, he⟩
    have hxb : x ≠ b := by
      rintro rfl
      rw [drop_self] at hx
      simp at hx
    rw [hlvl x hxb] at hx
    by_cases hxa : x = a
    · rw [hxa, hleft] at he
      cases List.mem_append.mp he with
      | inl he =>
        exact ⟨a, by rw [← hxa]; exact hx, he⟩
      | inr he =>
        exact ⟨b, by rw [hxa] at hx; omega, he⟩
    · exact ⟨x, hx, by rwa [hpage x hx hxa] at he⟩
  · rintro ⟨x, hx, he⟩
    by_cases hxb : x = b
    · refine ⟨a, (hlvl a hba.symm).trans (by rw [hxb] at hx; omega), ?_⟩
      rw [hleft]
      exact List.mem_append_right _ (hxb ▸ he)
    · refine ⟨x, (hlvl x hxb).trans hx, ?_⟩
      by_cases hxa : x = a
      · rw [hxa, hleft]
        exact List.mem_append_left _ (hxa ▸ he)
      · rwa [hpage x hx hxa]

end Join

end CachedBTree
