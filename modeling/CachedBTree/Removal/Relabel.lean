import CachedBTree.Labels

/-! # What a removal does to the labels

Three changes: a child is taken out of its parent, two neighbours are prepared for the
removal of the right one, and the root gives way to its only child.  The source swaps
the two neighbours in the parent before it removes one, so their intervals change
places as well. -/

namespace CachedBTree

open CachedBTree.Support

variable {w : Nat} {geo : Geo} {m r L : Nat} {s s' : State w} {G : Labels w} {p a b c : Ptr w}

/-! ## A node leaves the tree -/

/-- The labels without the node `c`; the child in the next slot, the first of `l₂`, answers for
the interval of `c` too. -/
def Labels.drop (G : Labels w) (c : Ptr w) (l₂ : Page w) : Labels w := fun x =>
  if x = c then { G c with lvl := 0 }
  else if l₂.head?.map Prod.snd = some x then { G x with hi := (G c).hi }
  else G x

section Drop

variable {l₂ : Page w}

theorem drop_self : G.drop c l₂ c = { G c with lvl := 0 } := by simp [Labels.drop]

theorem drop_next {k : Nat} {x : Ptr w} (hxc : x ≠ c) :
    G.drop c ((k, x) :: l₂) x = { G x with hi := (G c).hi } := by
  simp [Labels.drop, hxc]

theorem drop_of_ne {x : Ptr w} (hxc : x ≠ c) (hx : ∀ e ∈ l₂, e.2 ≠ x) : G.drop c l₂ x = G x := by
  unfold Labels.drop
  rw [if_neg hxc, if_neg]
  cases l₂ with
  | nil => simp
  | cons e l₂ => simpa using hx e (by simp)

theorem drop_of_ne_head {k : Nat} {c' x : Ptr w} (hxc : x ≠ c) (hx : x ≠ c') :
    G.drop c ((k, c') :: l₂) x = G x := by
  simp [Labels.drop, hxc, Ne.symm hx]

/-- Everything but the upper end stays. -/
theorem drop_same {x : Ptr w} (hxc : x ≠ c) : (G.drop c l₂ x).lvl = (G x).lvl ∧
    (G.drop c l₂ x).par = (G x).par ∧ (G.drop c l₂ x).lo = (G x).lo ∧
    (G.drop c l₂ x).page = (G x).page := by
  unfold Labels.drop
  rw [if_neg hxc]
  split <;> exact ⟨rfl, rfl, rfl, rfl⟩

theorem drop_page (x : Ptr w) : (G.drop c l₂ x).page = (G x).page := by
  by_cases hxc : x = c
  · rw [hxc, drop_self]
  · exact (drop_same hxc).2.2.2

end Drop

/-- The labels when `p` has lost the slot of `c`. -/
def Labels.unlinked (G : Labels w) (p : Ptr w) (l₁ : Page w) (c : Ptr w) (l₂ : Page w) : Labels w :=
  Function.update (G.drop c l₂) p { G p with page := l₁ ++ l₂ }

section Unlink

variable {l₁ l₂ : Page w} {k : Nat} {n' : Words w}

theorem unlinked_self : G.unlinked p l₁ c l₂ p = { G p with page := l₁ ++ l₂ } :=
  Function.update_self _ _ _

theorem unlinked_of_ne {x : Ptr w} (hxp : x ≠ p) : G.unlinked p l₁ c l₂ x = G.drop c l₂ x :=
  Function.update_of_ne hxp _ _

/-- All but the label of `c` keep their level, their parent and their lower end. -/
theorem unlinked_same {x : Ptr w} (hxc : x ≠ c) : (G.unlinked p l₁ c l₂ x).lvl = (G x).lvl ∧
    (G.unlinked p l₁ c l₂ x).par = (G x).par ∧ (G.unlinked p l₁ c l₂ x).lo = (G x).lo := by
  by_cases hxp : x = p
  · rw [hxp, unlinked_self]
    exact ⟨rfl, rfl, rfl⟩
  · rw [unlinked_of_ne hxp]
    exact ⟨(drop_same hxc).1, (drop_same hxc).2.1, (drop_same hxc).2.2.1⟩

theorem unlinked_page {x : Ptr w} (hxp : x ≠ p) : (G.unlinked p l₁ c l₂ x).page = (G x).page := by
  rw [unlinked_of_ne hxp, drop_page]

/-- A node that is not a later child keeps its interval. -/
theorem unlinked_span {x : Ptr w} (hxc : x ≠ c) (hx : ∀ e ∈ l₂, e.2 ≠ x) :
    SameSpan (G x) (G.unlinked p l₁ c l₂ x) := by
  by_cases hxp : x = p
  · rw [hxp, unlinked_self]
    exact ⟨rfl, rfl, rfl, rfl⟩
  · rw [unlinked_of_ne hxp, drop_of_ne hxc hx]
    exact SameSpan.refl _

/-- The child `c` of `p` has no children left and loses its slot. -/
structure Unlinking (geo : Geo) (L : Nat) (s : State w) (G : Labels w) (p c : Ptr w) (k : Nat)
    (l₁ l₂ : Page w) : Prop where
  tree : Tree geo 1 1 L s G
  two_le : 2 ≤ L
  lvl : (G p).lvl = L
  page : (G p).page = l₁ ++ (k, c) :: l₂
  orphan : ∀ x, 1 ≤ (G x).lvl → x ≠ s.node → (G x).par ≠ c

namespace Unlinking

variable {x c' : Ptr w} {k' : Nat}

theorem child (h : Unlinking geo L s G p c k l₁ l₂) : (G c).lvl + 1 = L ∧ (G c).par = p ∧
    k ≤ (G c).lo ∧ (G c).lo < (G c).hi ∧ (G c).hi ≤ endKey (G p).hi l₁ := by
  have hlvl := h.lvl
  have htwo := h.two_le
  obtain ⟨h₁, h₂, h₃, h₄, h₅⟩ := h.tree.child (by omega) (by omega) h.page
  exact ⟨h₁.trans hlvl, h₂, h₃, h₄, h₅⟩

theorem ne (h : Unlinking geo L s G p c k l₁ l₂) : c ≠ p := by
  rintro rfl
  have hchild := h.child.1
  have hlvl := h.lvl
  omega

theorem label_child (h : Unlinking geo L s G p c k l₁ l₂) :
    G.unlinked p l₁ c l₂ c = { G c with lvl := 0 } := by
  rw [unlinked_of_ne h.ne, drop_self]

/-- The other children of `p`. -/
theorem sibling (h : Unlinking geo L s G p c k l₁ l₂) (hmem : (k', c') ∈ l₁ ∨ (k', c') ∈ l₂) :
    c' ≠ c ∧ (G c').lvl + 1 = L ∧ (G c').par = p := by
  have hlvl := h.lvl
  have htwo := h.two_le
  have hin : (k', c') ∈ (G p).page := by
    rw [h.page]
    rcases hmem with hmem | hmem <;> simp [hmem]
  obtain ⟨h₁, h₂, -⟩ := h.tree.child_of_mem (by omega) (by omega) hin
  exact ⟨h.tree.slot_ne (by omega) (by omega) h.page hmem, h₁.trans hlvl, h₂⟩

/-- The nodes that are worked on are not among the children. -/
theorem high (h : Unlinking geo L s G p c k l₁ l₂) (hx : L ≤ (G x).lvl) :
    x ≠ c ∧ ∀ e ∈ l₂, e.2 ≠ x := by
  constructor
  · rintro rfl
    have hchild := h.child.1
    omega
  · rintro ⟨k', c'⟩ he rfl
    have hsibling := (h.sibling (.inr he)).2.1
    simp only at hx
    omega

theorem slot_kept (h : Unlinking geo L s G p c k l₁ l₂) (hx : 1 ≤ (G x).lvl) (hne : x ≠ s.node)
    (hxc : x ≠ c) : (G.unlinked p l₁ c l₂ (G x).par).lvl = (G (G x).par).lvl ∧
      ∀ k', (k', x) ∈ (G (G x).par).page → ∃ k'', (k'', x) ∈ (G.unlinked p l₁ c l₂ (G x).par).page := by
  refine ⟨(unlinked_same (h.orphan x hx hne)).1, fun k' hmem => ⟨k', ?_⟩⟩
  by_cases hxp : (G x).par = p
  · rw [hxp, h.page] at hmem
    rw [hxp, unlinked_self]
    simp only [List.mem_append, List.mem_cons, Prod.mk.injEq] at hmem ⊢
    tauto
  · rw [unlinked_page hxp]
    exact hmem

/-- The child in the next slot takes the interval of `c` over. -/
theorem next {l : Page w} (h : Unlinking geo L s G p c k l₁ ((k', c') :: l))
    (hok : ChildOk G p k k' c') :
    ChildOk (G.unlinked p l₁ c ((k', c') :: l)) p (endKey (G p).hi l₁) k' c' := by
  intro _
  have hlvl := h.lvl
  have htwo := h.two_le
  obtain ⟨-, -, hkc, hclohi, hchi⟩ := h.child
  obtain ⟨hne, hc'lvl, -⟩ := h.sibling (.inr (List.mem_cons_self ..))
  have hsame : (G.unlinked p l₁ c ((k', c') :: l) p).lvl = (G p).lvl := (unlinked_same h.ne.symm).1
  obtain ⟨h₁, h₂, h₃, h₄, h₅⟩ := hok (by omega)
  rw [hsame, unlinked_of_ne (by rintro rfl; omega), drop_next hne]
  exact ⟨h₁, h₂, h₃, by simp only; omega, hchi⟩

/-- The children after it are as they were. -/
theorem later {l : Page w} {k'' : Nat} {c'' : Ptr w} (h : Unlinking geo L s G p c k l₁ ((k', c') :: l))
    (hmem : (k'', c'') ∈ l) : SameSpan (G c'') (G.unlinked p l₁ c ((k', c') :: l) c'') := by
  have hlvl := h.lvl
  have htwo := h.two_le
  obtain ⟨hne, hc''lvl, -⟩ := h.sibling (.inr (List.mem_cons_of_mem _ hmem))
  have hcut : (G p).page = (l₁ ++ [(k, c)]) ++ (k', c') :: l := by
    rw [h.page]
    simp
  have hne' : c'' ≠ c' := h.tree.slot_ne (by omega) (by omega) hcut (.inr hmem)
  rw [unlinked_of_ne (by rintro rfl; omega), drop_of_ne_head hne hne']
  exact SameSpan.refl _

theorem chain (h : Unlinking geo L s G p c k l₁ l₂) :
    Chain (ChildOk (G.unlinked p l₁ c l₂) p) (G p).lo (G p).hi (l₁ ++ l₂) := by
  have hp := h.lvl
  have htwo := h.two_le
  have hlvl : (G.unlinked p l₁ c l₂ p).lvl = (G p).lvl := (unlinked_same h.ne.symm).1
  have hchain := h.tree.chain p (by omega)
  rw [h.page] at hchain
  obtain ⟨hleft, -, hkend, -, hright⟩ := chain_append.mp hchain
  refine chain_append.mpr ⟨chain_congr hleft hlvl fun k' c' hmem hlvlp => ?_, ?_⟩
  · apply unlinked_span (h.sibling (.inl hmem)).1
    rintro ⟨k'', c''⟩ hmem' rfl
    exact chain_halves_disjoint hchain hlvlp hmem (List.mem_cons_of_mem _ hmem')
  · cases l₂ with
    | nil => exact chain_nil
    | cons e l =>
      obtain ⟨hlo, hlt, hok, htail⟩ := hright
      exact ⟨hlo, hlt.trans hkend, h.next hok, chain_congr htail hlvl fun _ _ hmem _ => h.later hmem⟩

/-! The conditions on each node. -/

theorem nodeOk_parent (h : Unlinking geo L s G p c k l₁ l₂) (hholds : Holds geo n' (l₁ ++ l₂)) :
    NodeOk geo 0 L (s.setNode p n') (G.unlinked p l₁ c l₂) p := by
  have hp := h.lvl
  have htwo := h.two_le
  constructor
  case stored =>
    rw [unlinked_self]
    exact ⟨n', State.setNode_heap_self _, hholds⟩
  case parent =>
    intro hne
    obtain ⟨hplvl, k', hmem⟩ := h.tree.parent p (by omega) hne
    obtain ⟨hsame, hin⟩ := h.slot_kept (by omega) hne h.ne.symm
    rw [unlinked_self]
    exact ⟨hsame.trans hplvl, hin k' hmem⟩
  case chain =>
    intro _
    have hchain := h.chain
    rw [unlinked_self]
    exact hchain
  case fill => exact fun _ _ => Nat.zero_le _

/-- A node at the level of `p` or above it. -/
theorem nodeOk_high (h : Unlinking geo L s G p c k l₁ l₂) (hxL : L ≤ (G x).lvl) (hxp : x ≠ p) :
    NodeOk geo 0 L (s.setNode p n') (G.unlinked p l₁ c l₂) x := by
  have hp := h.lvl
  have htwo := h.two_le
  obtain ⟨hxc, hx₂⟩ := h.high hxL
  have hlabel : (G.unlinked p l₁ c l₂) x = G x := by rw [unlinked_of_ne hxp, drop_of_ne hxc hx₂]
  have hok : NodeOk geo 0 L s G x := by
    obtain ⟨hstored, hparent, hchain, -⟩ := h.tree.node_ok (p := x) (by omega)
    exact ⟨hstored, hparent, hchain, fun _ _ => Nat.zero_le _⟩
  refine hok.congr rfl hlabel (State.setNode_heap_ne _ hxp) (fun _ k' c' hmem hlvl => ?_)
    fun hne => h.slot_kept (by omega) hne hxc
  -- its children are children of another node than `p`
  obtain ⟨-, hpar, -⟩ := h.tree.child_of_mem hxL hlvl hmem
  apply unlinked_span
  · rintro rfl
    exact hxp (hpar.symm.trans h.child.2.1)
  · rintro ⟨k'', c''⟩ hmem' rfl
    exact hxp (hpar.symm.trans (h.sibling (.inr hmem')).2.2)

theorem nodeOk_low (h : Unlinking geo L s G p c k l₁ l₂) (hx : 1 ≤ (G x).lvl) (hxL : (G x).lvl < L)
    (hxc : x ≠ c) : NodeOk geo 0 L (s.setNode p n') (G.unlinked p l₁ c l₂) x := by
  have hp := h.lvl
  have hxp : x ≠ p := by
    rintro rfl
    omega
  have hsame : (G.unlinked p l₁ c l₂ x).lvl = (G x).lvl ∧ (G.unlinked p l₁ c l₂ x).par = (G x).par ∧
      (G.unlinked p l₁ c l₂ x).lo = (G x).lo := unlinked_same hxc
  obtain ⟨hlvl, hpar, -⟩ := hsame
  apply NodeOk.ofLow
  case hlow =>
    rw [hlvl]
    exact hxL
  case stored =>
    rw [unlinked_page hxp, State.setNode_heap_ne _ hxp]
    exact h.tree.stored x hx
  case parent =>
    intro hne
    obtain ⟨hxlvl, k', hmem⟩ := h.tree.parent x hx hne
    obtain ⟨hsame, hin⟩ := h.slot_kept hx hne hxc
    rw [hpar, hlvl]
    exact ⟨hsame.trans hxlvl, hin k' hmem⟩

end Unlinking

/-- The node `p` may be empty afterwards, unless it is the root. -/
theorem Tree.unlink (h : Tree geo 1 1 L s G) (hL : 2 ≤ L) (hp : (G p).lvl = L)
    (hpage : (G p).page = l₁ ++ (k, c) :: l₂)
    (horphan : ∀ x, 1 ≤ (G x).lvl → x ≠ s.node → (G x).par ≠ c)
    (hleft : p = s.node → l₁ ++ l₂ ≠ []) (hholds : Holds geo n' (l₁ ++ l₂)) :
    Tree geo 0 1 L (s.setNode p n') (G.unlinked p l₁ c l₂) := by
  have hcut : Unlinking geo L s G p c k l₁ l₂ := ⟨h, hL, hp, hpage, horphan⟩
  have hple := h.lvl_le p
  have hroot := h.root_lvl (by omega)
  obtain ⟨hrc, hr₂⟩ := hcut.high (x := s.node) (by omega)
  apply Tree.ofNodes (by omega)
  case null =>
    by_cases hc : (0#w) = c
    · rw [hc, hcut.label_child]
    · rw [(unlinked_same hc).1]
      exact h.null
  case lvl_le =>
    intro x
    by_cases hxc : x = c
    · rw [hxc, hcut.label_child]
      exact Nat.zero_le _
    · rw [(unlinked_same hxc).1]
      exact h.lvl_le x
  case root_lvl => exact fun _ => (unlinked_same hrc).1.trans hroot
  case root_hi => exact fun hh => (unlinked_span hrc hr₂).2.2.2.trans (h.root_hi hh)
  case root_fill =>
    intro hh
    show 1 ≤ (G.unlinked p l₁ c l₂ s.node).page.length
    by_cases hrp : s.node = p
    · rw [hrp, unlinked_self]
      exact List.length_pos_of_ne_nil (hleft hrp.symm)
    · rw [unlinked_page hrp]
      exact h.root_fill hh
  case empty => exact fun hh => h.empty hh
  case nodes =>
    intro x hx
    by_cases hxc : x = c
    · rw [hxc, hcut.label_child] at hx
      simp at hx
    rw [(unlinked_same hxc).1] at hx
    by_cases hxp : x = p
    · rw [hxp]
      exact hcut.nodeOk_parent hholds
    by_cases hxL : L ≤ (G x).lvl
    · exact hcut.nodeOk_high hxL hxp
    · exact hcut.nodeOk_low hx (by omega) hxc

end Unlink

/-! ## Two neighbours change places -/

/-- The labels when `a` has got the pairs of its right neighbour `b` as well and the two have
changed places in `p`. -/
def Labels.swapped (G : Labels w) (p : Ptr w) (l₁ : Page w) (ka : Nat) (a : Ptr w) (kb : Nat)
    (b : Ptr w) (l₂ : Page w) : Labels w := fun x =>
  if x = p then { G p with page := l₁ ++ (ka, b) :: (kb, a) :: l₂ }
  else if x = a then
    { G a with lo := (G b).lo, hi := (G b).hi, page := (G a).page ++ (G b).page }
  else if x = b then { G b with lo := (G a).lo, hi := (G a).hi }
  else if (G x).lvl + 1 = (G b).lvl ∧ (G x).par = b then { G x with par := a }
  else G x

section Swap

variable {l₁ l₂ : Page w} {ka kb : Nat} {np na : Words w}

theorem swapped_parent : G.swapped p l₁ ka a kb b l₂ p =
    { G p with page := l₁ ++ (ka, b) :: (kb, a) :: l₂ } := by
  simp [Labels.swapped]

theorem swapped_left (hap : a ≠ p) : G.swapped p l₁ ka a kb b l₂ a =
    { G a with lo := (G b).lo, hi := (G b).hi, page := (G a).page ++ (G b).page } := by
  simp [Labels.swapped, hap]

theorem swapped_right (hbp : b ≠ p) (hba : b ≠ a) : G.swapped p l₁ ka a kb b l₂ b =
    { G b with lo := (G a).lo, hi := (G a).hi } := by
  simp [Labels.swapped, hbp, hba]

theorem swapped_moved {x : Ptr w} (hxp : x ≠ p) (hxa : x ≠ a) (hxb : x ≠ b)
    (hlvl : (G x).lvl + 1 = (G b).lvl) (hpar : (G x).par = b) :
    G.swapped p l₁ ka a kb b l₂ x = { G x with par := a } := by
  unfold Labels.swapped
  rw [if_neg hxp, if_neg hxa, if_neg hxb, if_pos ⟨hlvl, hpar⟩]

theorem swapped_of_ne {x : Ptr w} (hxp : x ≠ p) (hxa : x ≠ a) (hxb : x ≠ b)
    (hx : (G x).lvl + 1 = (G b).lvl → (G x).par ≠ b) : G.swapped p l₁ ka a kb b l₂ x = G x := by
  unfold Labels.swapped
  rw [if_neg hxp, if_neg hxa, if_neg hxb, if_neg fun hin => hx hin.1 hin.2]

theorem swapped_lvl (x : Ptr w) : (G.swapped p l₁ ka a kb b l₂ x).lvl = (G x).lvl := by
  unfold Labels.swapped
  split
  next h => rw [h]
  next => split
          next h => rw [h]
          next => split
                  next h => rw [h]
                  next => split <;> rfl

theorem swapped_page {x : Ptr w} (hxp : x ≠ p) (hxa : x ≠ a) :
    (G.swapped p l₁ ka a kb b l₂ x).page = (G x).page := by
  unfold Labels.swapped
  rw [if_neg hxp, if_neg hxa]
  split
  next h => rw [h]
  next => split <;> rfl

/-- The pairs of `b` go to its left neighbour `a`, and the two change places in `p`. -/
structure Swapping (geo : Geo) (m r L : Nat) (s s' : State w) (G G' : Labels w) (p a b : Ptr w)
    (ka kb : Nat) (l₁ l₂ : Page w) : Prop where
  tree : Tree geo m r (L + 1) s G
  one_le : 1 ≤ L
  lvl : (G p).lvl = L + 1
  page : (G p).page = l₁ ++ (ka, a) :: (kb, b) :: l₂
  head : s'.toHead = s.toHead
  heap : ∀ x, x ≠ p → x ≠ a → 1 ≤ (G x).lvl → s'.heap x = s.heap x
  node : ∃ np, s'.heap p = some (.node np) ∧ Holds geo np (l₁ ++ (ka, b) :: (kb, a) :: l₂)
  left : ∃ na, s'.heap a = some (.node na) ∧ Holds geo na ((G a).page ++ (G b).page)
  labels : G' = G.swapped p l₁ ka a kb b l₂

namespace Swapping

variable {G' : Labels w} {x y c : Ptr w} {k : Nat}

theorem root (h : Swapping geo m r L s s' G G' p a b ka kb l₁ l₂) : s'.node = s.node :=
  congrArg Head.node h.head

theorem height (h : Swapping geo m r L s s' G G' p a b ka kb l₁ l₂) : s'.height = s.height :=
  congrArg Head.height h.head

theorem child_left (h : Swapping geo m r L s s' G G' p a b ka kb l₁ l₂) :
    (G a).lvl = L ∧ (G a).par = p ∧ ka ≤ (G a).lo ∧ (G a).lo < (G a).hi ∧
      (G a).hi ≤ endKey (G p).hi l₁ := by
  have hlvl := h.lvl
  have hone := h.one_le
  obtain ⟨h₁, h₂, h₃, h₄, h₅⟩ := h.tree.child (by omega) (by omega) h.page
  exact ⟨by omega, h₂, h₃, h₄, h₅⟩

theorem page_right (h : Swapping geo m r L s s' G G' p a b ka kb l₁ l₂) :
    (G p).page = (l₁ ++ [(ka, a)]) ++ (kb, b) :: l₂ := by
  rw [h.page]
  simp

theorem child_right (h : Swapping geo m r L s s' G G' p a b ka kb l₁ l₂) :
    (G b).lvl = L ∧ (G b).par = p ∧ kb ≤ (G b).lo ∧ (G b).lo < (G b).hi ∧ (G b).hi ≤ ka := by
  have hlvl := h.lvl
  have hone := h.one_le
  obtain ⟨h₁, h₂, h₃, h₄, h₅⟩ := h.tree.child (by omega) (by omega) h.page_right
  rw [endKey_snoc] at h₅
  exact ⟨by omega, h₂, h₃, h₄, h₅⟩

theorem left_ne (h : Swapping geo m r L s s' G G' p a b ka kb l₁ l₂) : a ≠ p := by
  rintro rfl
  have hlvl := h.lvl
  have hleft := h.child_left.1
  omega

theorem right_ne (h : Swapping geo m r L s s' G G' p a b ka kb l₁ l₂) : b ≠ p := by
  rintro rfl
  have hlvl := h.lvl
  have hright := h.child_right.1
  omega

theorem ne (h : Swapping geo m r L s s' G G' p a b ka kb l₁ l₂) : b ≠ a := by
  have hlvl := h.lvl
  have hone := h.one_le
  exact h.tree.slot_ne (by omega) (by omega) h.page (.inr (List.mem_cons_self ..))

theorem label_parent (h : Swapping geo m r L s s' G G' p a b ka kb l₁ l₂) :
    G' p = { G p with page := l₁ ++ (ka, b) :: (kb, a) :: l₂ } := by
  rw [h.labels, swapped_parent]

theorem label_left (h : Swapping geo m r L s s' G G' p a b ka kb l₁ l₂) :
    G' a = { G a with lo := (G b).lo, hi := (G b).hi, page := (G a).page ++ (G b).page } := by
  rw [h.labels, swapped_left h.left_ne]

theorem label_right (h : Swapping geo m r L s s' G G' p a b ka kb l₁ l₂) :
    G' b = { G b with lo := (G a).lo, hi := (G a).hi } := by
  rw [h.labels, swapped_right h.right_ne h.ne]

theorem label_moved (h : Swapping geo m r L s s' G G' p a b ka kb l₁ l₂) (hxp : x ≠ p)
    (hxa : x ≠ a) (hxb : x ≠ b) (hlvl : (G x).lvl + 1 = (G b).lvl) (hpar : (G x).par = b) :
    G' x = { G x with par := a } := by
  rw [h.labels, swapped_moved hxp hxa hxb hlvl hpar]

theorem label_of_ne (h : Swapping geo m r L s s' G G' p a b ka kb l₁ l₂) (hxp : x ≠ p)
    (hxa : x ≠ a) (hxb : x ≠ b) (hx : (G x).lvl + 1 = (G b).lvl → (G x).par ≠ b) : G' x = G x := by
  rw [h.labels, swapped_of_ne hxp hxa hxb hx]

theorem lvl_eq (h : Swapping geo m r L s s' G G' p a b ka kb l₁ l₂) (x : Ptr w) :
    (G' x).lvl = (G x).lvl := by
  rw [h.labels, swapped_lvl]

theorem page_of_ne (h : Swapping geo m r L s s' G G' p a b ka kb l₁ l₂) (hxp : x ≠ p)
    (hxa : x ≠ a) : (G' x).page = (G x).page := by
  rw [h.labels, swapped_page hxp hxa]

/-- No page gets shorter. -/
theorem length_le (h : Swapping geo m r L s s' G G' p a b ka kb l₁ l₂) (x : Ptr w) :
    (G x).page.length ≤ (G' x).page.length := by
  by_cases hxp : x = p
  · rw [hxp, h.label_parent, h.page]
    simp
  · by_cases hxa : x = a
    · rw [hxa, h.label_left]
      simp
    · rw [h.page_of_ne hxp hxa]

/-- What a parent has in its page stays there; the pairs of `b` stand in `a` too. -/
theorem slot_kept (h : Swapping geo m r L s s' G G' p a b ka kb l₁ l₂)
    (hmem : (k, x) ∈ (G y).page) : ∃ k', (k', x) ∈ (G' y).page := by
  by_cases hyp : y = p
  · rw [hyp, h.page] at hmem
    rw [hyp, h.label_parent]
    simp only [List.mem_append, List.mem_cons, Prod.mk.injEq] at hmem ⊢
    rcases hmem with hmem | ⟨-, rfl⟩ | ⟨-, rfl⟩ | hmem
    · exact ⟨k, .inl hmem⟩
    · exact ⟨kb, .inr (.inr (.inl ⟨rfl, rfl⟩))⟩
    · exact ⟨ka, .inr (.inl ⟨rfl, rfl⟩)⟩
    · exact ⟨k, .inr (.inr (.inr hmem))⟩
  · by_cases hya : y = a
    · rw [hya] at hmem
      rw [hya, h.label_left]
      exact ⟨k, List.mem_append_left _ hmem⟩
    · exact ⟨k, by rwa [h.page_of_ne hyp hya]⟩

/-- A node that keeps its parent keeps its slot. -/
theorem parent_kept (h : Swapping geo m r L s s' G G' p a b ka kb l₁ l₂) (hx : 1 ≤ (G x).lvl)
    (hne : x ≠ s'.node) :
    (G' (G x).par).lvl = (G' x).lvl + 1 ∧ ∃ k, (k, x) ∈ (G' (G x).par).page := by
  rw [h.root] at hne
  obtain ⟨hxlvl, k, hmem⟩ := h.tree.parent x hx hne
  rw [h.lvl_eq, h.lvl_eq]
  exact ⟨hxlvl, h.slot_kept hmem⟩

/-- The other children of `p` are as they were. -/
theorem sibling (h : Swapping geo m r L s s' G G' p a b ka kb l₁ l₂)
    (hmem : (k, c) ∈ l₁ ∨ (k, c) ∈ l₂) : SameSpan (G c) (G' c) := by
  have hlvl := h.lvl
  have hone := h.one_le
  have hright := h.child_right.1
  have hca : c ≠ a := h.tree.slot_ne (by omega) (by omega) h.page
    (show (k, c) ∈ _ ∨ (k, c) ∈ _ by rcases hmem with hmem | hmem <;> simp [hmem])
  have hcb : c ≠ b := h.tree.slot_ne (by omega) (by omega) h.page_right
    (show (k, c) ∈ _ ∨ (k, c) ∈ _ by rcases hmem with hmem | hmem <;> simp [hmem])
  obtain ⟨hclvl, -⟩ := h.tree.child_of_mem (p := p) (k := k) (c := c) (by omega) (by omega) (by
    rw [h.page]
    rcases hmem with hmem | hmem <;> simp [hmem])
  rw [h.label_of_ne (by rintro rfl; omega) hca hcb fun _ => by omega]
  exact SameSpan.refl _

theorem chain (h : Swapping geo m r L s s' G G' p a b ka kb l₁ l₂) :
    Chain (ChildOk G' p) (G p).lo (G p).hi (l₁ ++ (ka, b) :: (kb, a) :: l₂) := by
  have hp := h.lvl
  obtain ⟨halvl, hapar, hka, halohi, hahi⟩ := h.child_left
  obtain ⟨hblvl, hbpar, hkb, hblohi, hbhi⟩ := h.child_right
  have hlvl := h.lvl_eq p
  have hchain := h.tree.chain p (by omega)
  rw [h.page] at hchain
  obtain ⟨hchain₁, hloka, hkaend, -, hlokb, hkbka, -, hchain₂⟩ := chain_append.mp hchain
  -- the nodes have changed places, and so have their intervals
  have hokB : ChildOk G' p (endKey (G p).hi l₁) ka b := by
    intro _
    rw [h.label_right, hlvl]
    exact ⟨by simp only; omega, hbpar, hka, halohi, hahi⟩
  have hokA : ChildOk G' p ka kb a := by
    intro _
    rw [h.label_left, hlvl]
    exact ⟨by simp only; omega, hapar, hkb, hblohi, hbhi⟩
  exact chain_append.mpr ⟨chain_congr hchain₁ hlvl fun _ _ hmem _ => h.sibling (.inl hmem),
    hloka, hkaend, hokB, hlokb, hkbka, hokA,
    chain_congr hchain₂ hlvl fun _ _ hmem _ => h.sibling (.inr hmem)⟩

/-! The conditions on each node. -/

theorem nodeOk_parent (h : Swapping geo m r L s s' G G' p a b ka kb l₁ l₂) :
    NodeOk geo m (L + 1) s' G' p := by
  have hp := h.lvl
  constructor
  case stored =>
    rw [h.label_parent]
    exact h.node
  case parent =>
    intro hne
    have hpar : (G' p).par = (G p).par := by rw [h.label_parent]
    rw [hpar]
    exact h.parent_kept (by omega) hne
  case chain =>
    intro _
    have hchain := h.chain
    rw [h.label_parent]
    exact hchain
  case fill =>
    intro _ hne
    rw [h.root] at hne
    exact (h.tree.fill p (by omega) hne).trans (h.length_le p)

theorem nodeOk_left (h : Swapping geo m r L s s' G G' p a b ka kb l₁ l₂) :
    NodeOk geo m (L + 1) s' G' a := by
  have hone := h.one_le
  have halvl := h.child_left.1
  apply NodeOk.ofLow
  case hlow =>
    rw [h.lvl_eq]
    omega
  case stored =>
    rw [h.label_left]
    exact h.left
  case parent =>
    intro hne
    have hpar : (G' a).par = (G a).par := by rw [h.label_left]
    rw [hpar]
    exact h.parent_kept (by omega) hne

theorem nodeOk_right (h : Swapping geo m r L s s' G G' p a b ka kb l₁ l₂) :
    NodeOk geo m (L + 1) s' G' b := by
  have hone := h.one_le
  have hblvl := h.child_right.1
  apply NodeOk.ofLow
  case hlow =>
    rw [h.lvl_eq]
    omega
  case stored =>
    rw [h.label_right, h.heap b h.right_ne h.ne (by omega)]
    exact h.tree.stored b (by omega)
  case parent =>
    intro hne
    have hpar : (G' b).par = (G b).par := by rw [h.label_right]
    rw [hpar]
    exact h.parent_kept (by omega) hne

/-- A child of `b` is a child of `a` now. -/
theorem nodeOk_moved (h : Swapping geo m r L s s' G G' p a b ka kb l₁ l₂) (hx : 1 ≤ (G x).lvl)
    (hxlvl : (G x).lvl + 1 = (G b).lvl) (hxpar : (G x).par = b) : NodeOk geo m (L + 1) s' G' x := by
  have hp := h.lvl
  have halvl := h.child_left.1
  have hblvl := h.child_right.1
  have hxp : x ≠ p := by
    rintro rfl
    omega
  have hxa : x ≠ a := by
    rintro rfl
    omega
  have hxb : x ≠ b := by
    rintro rfl
    omega
  have hlabel := h.label_moved hxp hxa hxb hxlvl hxpar
  apply NodeOk.ofLow
  case hlow =>
    rw [h.lvl_eq]
    omega
  case stored =>
    rw [hlabel, h.heap x hxp hxa hx]
    exact h.tree.stored x hx
  case parent =>
    intro hne
    rw [h.root] at hne
    obtain ⟨-, k, hmem⟩ := h.tree.parent x hx hne
    rw [hxpar] at hmem
    rw [hlabel]
    simp only
    rw [h.lvl_eq, h.label_left]
    exact ⟨by omega, k, List.mem_append_right _ hmem⟩

/-- The other nodes are as they were, and so are the spans of their children. -/
theorem nodeOk_of_ne (h : Swapping geo m r L s s' G G' p a b ka kb l₁ l₂) (hx : 1 ≤ (G x).lvl)
    (hxp : x ≠ p) (hxa : x ≠ a) (hxb : x ≠ b)
    (hxm : (G x).lvl + 1 = (G b).lvl → (G x).par ≠ b) : NodeOk geo m (L + 1) s' G' x := by
  refine (h.tree.node_ok hx).congr h.root (h.label_of_ne hxp hxa hxb hxm) (h.heap x hxp hxa hx)
    (fun hLx k c hmem hlvl => ?_) fun _ => ⟨h.lvl_eq _, fun _ hmem => h.slot_kept hmem⟩
  obtain ⟨-, hcpar, -⟩ := h.tree.child_of_mem hLx hlvl hmem
  have hca : c ≠ a := by
    rintro rfl
    exact hxp (hcpar.symm.trans h.child_left.2.1)
  have hcb : c ≠ b := by
    rintro rfl
    exact hxp (hcpar.symm.trans h.child_right.2.1)
  by_cases hcp : c = p
  · rw [hcp, h.label_parent]
    exact ⟨rfl, rfl, rfl, rfl⟩
  · rw [h.label_of_ne hcp hca hcb fun _ => by rw [hcpar]; exact hxb]
    exact SameSpan.refl _

theorem nodeOk (h : Swapping geo m r L s s' G G' p a b ka kb l₁ l₂) (hx : 1 ≤ (G' x).lvl) :
    NodeOk geo m (L + 1) s' G' x := by
  rw [h.lvl_eq] at hx
  by_cases hxp : x = p
  · rw [hxp]
    exact h.nodeOk_parent
  by_cases hxa : x = a
  · rw [hxa]
    exact h.nodeOk_left
  by_cases hxb : x = b
  · rw [hxb]
    exact h.nodeOk_right
  by_cases hxm : (G x).lvl + 1 = (G b).lvl ∧ (G x).par = b
  · exact h.nodeOk_moved hx hxm.1 hxm.2
  · exact h.nodeOk_of_ne hx hxp hxa hxb fun hlvl hpar => hxm ⟨hlvl, hpar⟩

end Swapping

theorem Tree.swap (h : Tree geo m r (L + 1) s G) (hL : 1 ≤ L) (hp : (G p).lvl = L + 1)
    (hpage : (G p).page = l₁ ++ (ka, a) :: (kb, b) :: l₂) (hhead : s'.toHead = s.toHead)
    (hheap : ∀ x, x ≠ p → x ≠ a → 1 ≤ (G x).lvl → s'.heap x = s.heap x)
    (hnode : s'.heap p = some (.node np))
    (hholds : Holds geo np (l₁ ++ (ka, b) :: (kb, a) :: l₂))
    (hanode : s'.heap a = some (.node na)) (haholds : Holds geo na ((G a).page ++ (G b).page)) :
    Tree geo m r (L + 1) s' (G.swapped p l₁ ka a kb b l₂) := by
  have hswap : Swapping geo m r L s s' G (G.swapped p l₁ ka a kb b l₂) p a b ka kb l₁ l₂ :=
    ⟨h, hL, hp, hpage, hhead, hheap, ⟨np, hnode, hholds⟩, ⟨na, hanode, haholds⟩, rfl⟩
  generalize G.swapped p l₁ ka a kb b l₂ = G' at *
  have hple := h.lvl_le p
  have hroot := h.root_lvl (by omega)
  have halvl := hswap.child_left.1
  have hblvl := hswap.child_right.1
  apply Tree.ofNodes (by omega)
  case null =>
    rw [hswap.lvl_eq]
    exact h.null
  case lvl_le =>
    intro x
    rw [hswap.lvl_eq, hswap.height]
    exact h.lvl_le x
  case root_lvl =>
    intro _
    rw [hswap.lvl_eq, hswap.root, hswap.height]
    exact hroot
  case root_hi =>
    intro _
    rw [hswap.root]
    by_cases hrp : s.node = p
    · rw [hrp, hswap.label_parent, ← hrp]
      exact h.root_hi (by omega)
    · have hra : s.node ≠ a := by
        intro heq
        rw [heq] at hroot
        omega
      have hrb : s.node ≠ b := by
        intro heq
        rw [heq] at hroot
        omega
      rw [hswap.label_of_ne hrp hra hrb fun _ => by omega]
      exact h.root_hi (by omega)
  case root_fill =>
    intro _
    rw [hswap.root]
    exact (h.root_fill (by omega)).trans (hswap.length_le _)
  case empty =>
    intro hh
    rw [hswap.height] at hh
    omega
  case nodes => exact fun x hx => hswap.nodeOk hx

end Swap

/-! ## The root gives way -/

/-- The only child of the root becomes the root. -/
theorem Tree.shrink {k : Nat} (h : Tree geo 0 1 s.height s G) (hh : 2 ≤ s.height)
    (hpage : (G s.node).page = [(k, c)]) (hc : (G c).page ≠ []) (hheight : s'.height + 1 = s.height)
    (hnode : s'.node = c) (hheap : ∀ x, x ≠ s.node → 1 ≤ (G x).lvl → s'.heap x = s.heap x) :
    Tree geo 1 1 s.height s' (G.drop s.node [(k, c)]) := by
  have hroot := h.root_lvl (by omega)
  obtain ⟨hclvl, -, -, -, -⟩ := h.child_of_mem (p := s.node) (k := k) (c := c) (by omega) (by omega)
    (by rw [hpage]; simp)
  have hcr : c ≠ s.node := by rintro rfl; omega
  have hdead : G.drop s.node [(k, c)] s.node = { G s.node with lvl := 0 } := drop_self
  have hnext : G.drop s.node [(k, c)] c = { G c with hi := (G s.node).hi } := drop_next hcr
  have hsame : ∀ x, x ≠ s.node → (G.drop s.node [(k, c)] x).lvl = (G x).lvl ∧
      (G.drop s.node [(k, c)] x).par = (G x).par ∧ (G.drop s.node [(k, c)] x).page = (G x).page :=
    fun x hx => ⟨(drop_same hx).1, (drop_same hx).2.1, (drop_same hx).2.2.2⟩
  generalize G.drop s.node [(k, c)] = G' at *
  -- the old root has no level any more, and the others were below it
  have hlow : ∀ x, (G' x).lvl < s.height := by
    intro x
    by_cases hx : x = s.node
    · rw [hx, hdead]
      simp only
      omega
    · rw [(hsame x hx).1]
      by_cases hx' : 1 ≤ (G x).lvl
      · exact h.lvl_lt hx' hx
      · omega
  refine Tree.ofNodes (by omega) ?_ (fun x => by have := hlow x; omega)
    (fun _ => by rw [hnode, hnext]; simp only; omega)
    (fun _ => by rw [hnode, hnext]; exact h.root_hi (by omega))
    (fun _ => by rw [hnode, hnext]; exact List.length_pos_of_ne_nil hc) (fun hh' => by omega) fun x hx => ?_
  · by_cases hx : (0#w) = s.node
    · rw [hx, hdead]
    · rw [(hsame _ hx).1]
      exact h.null
  · have hxr : x ≠ s.node := by
      rintro rfl
      rw [hdead] at hx
      simp at hx
    obtain ⟨hlvl, hpar, hpg⟩ := hsame x hxr
    rw [hlvl] at hx
    obtain ⟨n, hn, hholds⟩ := h.stored x hx
    refine ⟨⟨n, (hheap x hxr hx).trans hn, by rw [hpg]; exact hholds⟩, fun hne => ?_,
      fun hL => absurd hL (by have := hlow x; omega), fun hL => absurd hL (by have := hlow x; omega)⟩
    obtain ⟨hplvl, k', hmem⟩ := h.parent x hx hxr
    -- the old root had one child, which is the new root
    have hpr : (G x).par ≠ s.node := by
      intro heq
      rw [heq, hpage] at hmem
      simp only [List.mem_singleton, Prod.mk.injEq] at hmem
      exact hne (hmem.2.trans hnode.symm)
    obtain ⟨hl, -, hp'⟩ := hsame _ hpr
    rw [hpar, hlvl, hl, hp']
    exact ⟨hplvl, k', hmem⟩

end CachedBTree
