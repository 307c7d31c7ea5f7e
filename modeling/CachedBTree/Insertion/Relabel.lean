import CachedBTree.Labels

/-! # What an insertion does to the labels

Three changes: a new node is linked in front of the node it has been split from, the
pairs of a full node are shared with the new node, and a new root is put over the old
one.  NewSlot and sharing are apart because the code links the new node while it is
still empty. -/

namespace CachedBTree

open CachedBTree.Support

variable {w : Nat} {geo : Geo} {m r L : Nat} {s s' : State w} {G : Labels w} {p q v : Ptr w}

/-! ## NewSlot a new node -/

/-- The empty node `v` takes the upper part, from `k` on, of the interval of `q`. -/
def Labels.beside (G : Labels w) (k : Nat) (v q : Ptr w) : Labels w := fun x =>
  if x = v then ⟨(G q).lvl, k, (G q).hi, 0#w, []⟩
  else if x = q then { G q with hi := k }
  else G x

section

variable {k : Nat}

theorem beside_new : G.beside k v q v = ⟨(G q).lvl, k, (G q).hi, 0#w, []⟩ := by
  simp [Labels.beside]

theorem beside_old (hqv : q ≠ v) : G.beside k v q q = { G q with hi := k } := by
  simp [Labels.beside, hqv]

theorem beside_of_ne {x : Ptr w} (hxv : x ≠ v) (hxq : x ≠ q) : G.beside k v q x = G x := by
  simp [Labels.beside, hxv, hxq]

end

/-- The labels when `p` has got a slot for `v` in front of the one for `q`. -/
def Labels.linked (G : Labels w) (p : Ptr w) (l₁ : Page w) (k : Nat) (v q : Ptr w) (l₂ : Page w) :
    Labels w := fun x =>
  if x = p then { G p with page := l₁ ++ (k, v) :: l₂ }
  else if x = v then ⟨(G q).lvl, k, (G q).hi, p, []⟩
  else if x = q then { G q with hi := k }
  else G x

section Link

variable {l₁ l₂ : Page w} {k k₀ : Nat}

theorem linked_self : G.linked p l₁ k v q l₂ p = { G p with page := l₁ ++ (k, v) :: l₂ } := by
  simp [Labels.linked]

theorem linked_new (hvp : v ≠ p) : G.linked p l₁ k v q l₂ v = ⟨(G q).lvl, k, (G q).hi, p, []⟩ := by
  simp [Labels.linked, hvp]

theorem linked_old (hqp : q ≠ p) (hqv : q ≠ v) : G.linked p l₁ k v q l₂ q = { G q with hi := k } := by
  simp [Labels.linked, hqp, hqv]

theorem linked_of_ne {x : Ptr w} (hp : x ≠ p) (hv : x ≠ v) (hq : x ≠ q) :
    G.linked p l₁ k v q l₂ x = G x := by
  simp [Labels.linked, hp, hv, hq]

/-- The node `v`, which is not in the tree, gets a slot of `p` in front of the one for `q`. -/
structure NewSlot (geo : Geo) (m r L : Nat) (s s' : State w) (G G' : Labels w) (p q v : Ptr w)
    (k k₀ : Nat) (l₁ l₂ : Page w) : Prop where
  tree : Tree geo m r L s G
  two_le : 2 ≤ L
  lvl : (G p).lvl = L
  page : (G p).page = l₁ ++ (k₀, q) :: l₂
  lo : (G q).lo < k
  hi : k < (G q).hi
  fresh : (G v).lvl = 0
  fresh_ne : v ≠ 0#w
  head : s'.toHead = s.toHead
  heap : ∀ x, x ≠ p → 1 ≤ (G x).lvl → s'.heap x = s.heap x
  node : ∃ n', s'.heap p = some (.node n') ∧ Holds geo n' (l₁ ++ (k, v) :: (k₀, q) :: l₂)
  new : ∃ nv, s'.heap v = some (.node nv) ∧ Holds geo nv []
  labels : G' = G.linked p l₁ k v q ((k₀, q) :: l₂)

namespace NewSlot

variable {G' : Labels w} {x c : Ptr w}

theorem child (h : NewSlot geo m r L s s' G G' p q v k k₀ l₁ l₂) :
    (G q).lvl + 1 = L ∧ (G q).par = p ∧ k₀ ≤ (G q).lo ∧ (G q).hi ≤ endKey (G p).hi l₁ := by
  have hlvl := h.lvl
  have htwo := h.two_le
  obtain ⟨h₁, h₂, h₃, -, h₅⟩ := h.tree.child (by omega) (by omega) h.page
  exact ⟨h₁.trans hlvl, h₂, h₃, h₅⟩

theorem old_ne_parent (h : NewSlot geo m r L s s' G G' p q v k k₀ l₁ l₂) : q ≠ p := by
  rintro rfl
  have hchild := h.child.1
  have hlvl := h.lvl
  omega

theorem new_ne_parent (h : NewSlot geo m r L s s' G G' p q v k k₀ l₁ l₂) : v ≠ p := by
  rintro rfl
  have hfresh := h.fresh
  have hlvl := h.lvl
  have htwo := h.two_le
  omega

theorem old_ne_new (h : NewSlot geo m r L s s' G G' p q v k k₀ l₁ l₂) : q ≠ v := by
  rintro rfl
  have hchild := h.child.1
  have hfresh := h.fresh
  have htwo := h.two_le
  omega

theorem label_parent (h : NewSlot geo m r L s s' G G' p q v k k₀ l₁ l₂) :
    G' p = { G p with page := l₁ ++ (k, v) :: (k₀, q) :: l₂ } := by
  rw [h.labels, linked_self]

theorem label_new (h : NewSlot geo m r L s s' G G' p q v k k₀ l₁ l₂) :
    G' v = ⟨(G q).lvl, k, (G q).hi, p, []⟩ := by
  rw [h.labels, linked_new h.new_ne_parent]

theorem label_old (h : NewSlot geo m r L s s' G G' p q v k k₀ l₁ l₂) : G' q = { G q with hi := k } := by
  rw [h.labels, linked_old h.old_ne_parent h.old_ne_new]

theorem label_of_ne (h : NewSlot geo m r L s s' G G' p q v k k₀ l₁ l₂) (hp : x ≠ p) (hv : x ≠ v)
    (hq : x ≠ q) : G' x = G x := by
  rw [h.labels, linked_of_ne hp hv hq]

theorem lvl_eq (h : NewSlot geo m r L s s' G G' p q v k k₀ l₁ l₂) (hxv : x ≠ v) :
    (G' x).lvl = (G x).lvl := by
  by_cases hxp : x = p
  · rw [hxp, h.label_parent]
  · by_cases hxq : x = q
    · rw [hxq, h.label_old]
    · rw [h.label_of_ne hxp hxv hxq]

/-- Only the parent of `q` sees another span. -/
theorem sameSpan (h : NewSlot geo m r L s s' G G' p q v k k₀ l₁ l₂) (hc : 1 ≤ (G c).lvl)
    (hpar : (G c).par ≠ p) : SameSpan (G c) (G' c) := by
  have hcv : c ≠ v := by
    rintro rfl
    have hfresh := h.fresh
    omega
  have hcq : c ≠ q := by
    rintro rfl
    exact hpar h.child.2.1
  by_cases hcp : c = p
  · rw [hcp, h.label_parent]
    exact ⟨rfl, rfl, rfl, rfl⟩
  · rw [h.label_of_ne hcp hcv hcq]
    exact SameSpan.refl _

/-- The slots of the old nodes are where they were. -/
theorem slot_kept (h : NewSlot geo m r L s s' G G' p q v k k₀ l₁ l₂) (hx : 1 ≤ (G x).lvl)
    (hne : x ≠ s.node) : (G' (G x).par).lvl = (G (G x).par).lvl ∧
      ∀ k', (k', x) ∈ (G (G x).par).page → ∃ k'', (k'', x) ∈ (G' (G x).par).page := by
  obtain ⟨hxlvl, -⟩ := h.tree.parent x hx hne
  have hpv : (G x).par ≠ v := by
    intro heq
    have hfresh := h.fresh
    rw [heq] at hxlvl
    omega
  refine ⟨h.lvl_eq hpv, fun k' hmem => ⟨k', ?_⟩⟩
  by_cases hxp : (G x).par = p
  · rw [hxp, h.page] at hmem
    rw [hxp, h.label_parent]
    simp only [List.mem_append, List.mem_cons] at hmem ⊢
    tauto
  · by_cases hxq : (G x).par = q
    · rw [hxq] at hmem
      rw [hxq, h.label_old]
      exact hmem
    · rw [h.label_of_ne hxp hpv hxq]
      exact hmem

/-- The other children of `p` are as they were. -/
theorem sibling (h : NewSlot geo m r L s s' G G' p q v k k₀ l₁ l₂) {k' : Nat}
    (hmem : (k', c) ∈ l₁ ∨ (k', c) ∈ l₂) : SameSpan (G c) (G' c) := by
  have hlvl := h.lvl
  have htwo := h.two_le
  have hcq : c ≠ q := h.tree.slot_ne (by omega) (by omega) h.page hmem
  obtain ⟨hclvl, -⟩ := h.tree.child_of_mem (p := p) (k := k') (c := c) (by omega) (by omega) (by
    rw [h.page]
    rcases hmem with hmem | hmem <;> simp [hmem])
  have hcv : c ≠ v := by
    rintro rfl
    have hfresh := h.fresh
    omega
  have hcp : c ≠ p := by
    rintro rfl
    omega
  rw [h.label_of_ne hcp hcv hcq]
  exact SameSpan.refl _

theorem root (h : NewSlot geo m r L s s' G G' p q v k k₀ l₁ l₂) : s'.node = s.node :=
  congrArg Head.node h.head

theorem height (h : NewSlot geo m r L s s' G G' p q v k k₀ l₁ l₂) : s'.height = s.height :=
  congrArg Head.height h.head

/-! The conditions on each node. -/

theorem chain_parent (h : NewSlot geo m r L s s' G G' p q v k k₀ l₁ l₂) :
    Chain (ChildOk G' p) (G p).lo (G p).hi (l₁ ++ (k, v) :: (k₀, q) :: l₂) := by
  have hlvl := h.lvl
  obtain ⟨hqlvl, hqpar, hk₀, hqhi⟩ := h.child
  have hsame : (G' p).lvl = (G p).lvl := h.lvl_eq h.new_ne_parent.symm
  have hchain := h.tree.chain p (by omega)
  rw [h.page] at hchain
  obtain ⟨hleft, hlok₀, -, -, hright⟩ := chain_append.mp hchain
  have hlok : (G p).lo ≤ k := hlok₀.trans (hk₀.trans h.lo.le)
  have hv : ChildOk G' p (endKey (G p).hi l₁) k v := by
    intro _
    rw [h.label_new, hsame]
    exact ⟨hqlvl.trans hlvl.symm, rfl, le_rfl, h.hi, hqhi⟩
  have hq : ChildOk G' p k k₀ q := by
    intro _
    rw [h.label_old, hsame]
    exact ⟨hqlvl.trans hlvl.symm, hqpar, hk₀, h.lo, le_rfl⟩
  exact chain_append.mpr ⟨chain_congr hleft hsame fun _ _ hmem _ => h.sibling (.inl hmem),
    hlok, h.hi.trans_le hqhi, hv, hlok₀, hk₀.trans_lt h.lo, hq,
    chain_congr hright hsame fun _ _ hmem _ => h.sibling (.inr hmem)⟩

theorem nodeOk_parent (h : NewSlot geo m r L s s' G G' p q v k k₀ l₁ l₂) : NodeOk geo m L s' G' p := by
  have hlvl := h.lvl
  have htwo := h.two_le
  constructor
  case stored =>
    rw [h.label_parent]
    exact h.node
  case parent =>
    intro hne
    rw [h.root] at hne
    obtain ⟨hplvl, k', hmem⟩ := h.tree.parent p (by omega) hne
    obtain ⟨hsame, hin⟩ := h.slot_kept (by omega) hne
    rw [h.label_parent]
    exact ⟨hsame.trans hplvl, hin k' hmem⟩
  case chain =>
    intro _
    have hchain := h.chain_parent
    rw [h.label_parent]
    exact hchain
  case fill =>
    intro _ hne
    rw [h.root] at hne
    have hlen := h.tree.fill p (by omega) hne
    rw [h.page] at hlen
    rw [h.label_parent]
    simp only [List.length_append, List.length_cons] at hlen ⊢
    omega

theorem nodeOk_new (h : NewSlot geo m r L s s' G G' p q v k k₀ l₁ l₂) : NodeOk geo m L s' G' v := by
  have hlvl := h.lvl
  have hqlvl := h.child.1
  apply NodeOk.ofLow
  case hlow =>
    rw [h.label_new]
    simp only
    omega
  case stored =>
    rw [h.label_new]
    exact h.new
  case parent =>
    intro _
    rw [h.label_new]
    simp only
    rw [h.label_parent]
    exact ⟨hlvl.trans hqlvl.symm, k, by simp⟩

theorem nodeOk_old (h : NewSlot geo m r L s s' G G' p q v k k₀ l₁ l₂) : NodeOk geo m L s' G' q := by
  have htwo := h.two_le
  have hqlvl := h.child.1
  apply NodeOk.ofLow
  case hlow =>
    rw [h.lvl_eq h.old_ne_new]
    omega
  case stored =>
    rw [h.label_old, h.heap q h.old_ne_parent (by omega)]
    exact h.tree.stored q (by omega)
  case parent =>
    intro hne
    rw [h.root] at hne
    obtain ⟨hparlvl, k', hmem⟩ := h.tree.parent q (by omega) hne
    obtain ⟨hsame, hin⟩ := h.slot_kept (by omega) hne
    rw [h.label_old]
    exact ⟨hsame.trans hparlvl, hin k' hmem⟩

theorem nodeOk (h : NewSlot geo m r L s s' G G' p q v k k₀ l₁ l₂) (hx : 1 ≤ (G' x).lvl) :
    NodeOk geo m L s' G' x := by
  by_cases hxp : x = p
  · rw [hxp]
    exact h.nodeOk_parent
  by_cases hxv : x = v
  · rw [hxv]
    exact h.nodeOk_new
  by_cases hxq : x = q
  · rw [hxq]
    exact h.nodeOk_old
  rw [h.lvl_eq hxv] at hx
  refine (h.tree.node_ok hx).congr h.root (h.label_of_ne hxp hxv hxq) (h.heap x hxp hx)
    (fun hL k' c hmem hlvl => ?_) (h.slot_kept hx)
  obtain ⟨hclvl, hcpar, -⟩ := h.tree.child_of_mem hL hlvl hmem
  exact h.sameSpan (by omega) (by rw [hcpar]; exact hxp)

/-- The root is an old node, above `q`. -/
theorem root_ne (h : NewSlot geo m r L s s' G G' p q v k k₀ l₁ l₂) : s.node ≠ v ∧ s.node ≠ q := by
  have hlvl := h.lvl
  have htwo := h.two_le
  have hple := h.tree.lvl_le p
  have hroot := h.tree.root_lvl (by omega)
  constructor
  · intro heq
    have hfresh := h.fresh
    rw [heq] at hroot
    omega
  · intro heq
    have hqlvl := h.child.1
    rw [heq] at hroot
    omega

end NewSlot

theorem Tree.link {n' nv : Words w} {r' : Nat} (h : Tree geo m r L s G) (hL : 2 ≤ L)
    (hp : (G p).lvl = L) (hpage : (G p).page = l₁ ++ (k₀, q) :: l₂) (hlo : (G q).lo < k)
    (hhi : k < (G q).hi) (hv : (G v).lvl = 0) (hvne : v ≠ 0#w) (hr : p = s.node →
      r' ≤ (G p).page.length + 1) (hr' : p ≠ s.node → r' ≤ r) (hhead : s'.toHead = s.toHead)
    (hheap : ∀ x, x ≠ p → 1 ≤ (G x).lvl → s'.heap x = s.heap x)
    (hnode : s'.heap p = some (.node n')) (hholds : Holds geo n' (l₁ ++ (k, v) :: (k₀, q) :: l₂))
    (hvnode : s'.heap v = some (.node nv)) (hvholds : Holds geo nv []) :
    Tree geo m r' L s' (G.linked p l₁ k v q ((k₀, q) :: l₂)) := by
  have hlink : NewSlot geo m r L s s' G (G.linked p l₁ k v q ((k₀, q) :: l₂)) p q v k k₀ l₁ l₂ :=
    ⟨h, hL, hp, hpage, hlo, hhi, hv, hvne, hhead, hheap, ⟨n', hnode, hholds⟩, ⟨nv, hvnode, hvholds⟩, rfl⟩
  generalize G.linked p l₁ k v q ((k₀, q) :: l₂) = G' at *
  have hqlvl := hlink.child.1
  have hple := h.lvl_le p
  have hroot := h.root_lvl (by omega)
  obtain ⟨hnv, hnq⟩ := hlink.root_ne
  apply Tree.ofNodes (by omega)
  case null =>
    rw [hlink.lvl_eq hvne.symm]
    exact h.null
  case lvl_le =>
    intro x
    rw [hlink.height]
    by_cases hxv : x = v
    · rw [hxv, hlink.label_new]
      simp only
      omega
    · rw [hlink.lvl_eq hxv]
      exact h.lvl_le x
  case root_lvl =>
    intro _
    rw [hlink.root, hlink.height, hlink.lvl_eq hnv]
    exact hroot
  case root_hi =>
    intro _
    rw [hlink.root]
    by_cases hnp : s.node = p
    · rw [hnp, hlink.label_parent, ← hnp]
      exact h.root_hi (by omega)
    · rw [hlink.label_of_ne hnp hnv hnq]
      exact h.root_hi (by omega)
  case root_fill =>
    intro _
    rw [hlink.root]
    by_cases hnp : s.node = p
    · -- the page of the root has grown by one
      have hlen := hr hnp.symm
      rw [hpage] at hlen
      rw [hnp, hlink.label_parent]
      simpa [Nat.add_assoc] using hlen
    · rw [hlink.label_of_ne hnp hnv hnq]
      exact (hr' (Ne.symm hnp)).trans (h.root_fill (by omega))
  case empty =>
    intro hh
    rw [hlink.height] at hh
    omega
  case nodes => exact fun x hx => hlink.nodeOk hx

end Link

/-! ## Sharing the pairs of a full node -/

/-- The labels when `v` has got the pairs `a` of `q` and `q` has kept the pairs `b`. -/
def Labels.halved (G : Labels w) (v q : Ptr w) (a b : Page w) : Labels w := fun x =>
  if x = v then { G v with page := a }
  else if x = q then { G q with page := b }
  else if 2 ≤ (G q).lvl ∧ x ∈ a.map Prod.snd then { G x with par := v }
  else G x

section Halve

variable {a b : Page w}

theorem halved_new : G.halved v q a b v = { G v with page := a } := by simp [Labels.halved]

theorem halved_old (hqv : q ≠ v) : G.halved v q a b q = { G q with page := b } := by
  simp [Labels.halved, hqv]

theorem halved_moved {x : Ptr w} (hxv : x ≠ v) (hxq : x ≠ q) (hlvl : 2 ≤ (G q).lvl)
    (hx : x ∈ a.map Prod.snd) : G.halved v q a b x = { G x with par := v } := by
  unfold Labels.halved
  rw [if_neg hxv, if_neg hxq, if_pos ⟨hlvl, hx⟩]

theorem halved_of_ne {x : Ptr w} (hxv : x ≠ v) (hxq : x ≠ q)
    (hx : 2 ≤ (G q).lvl → x ∉ a.map Prod.snd) : G.halved v q a b x = G x := by
  unfold Labels.halved
  rw [if_neg hxv, if_neg hxq, if_neg fun hin => hx hin.1 hin.2]

theorem halved_span (x : Ptr w) : (G.halved v q a b x).lvl = (G x).lvl ∧
    (G.halved v q a b x).lo = (G x).lo ∧ (G.halved v q a b x).hi = (G x).hi := by
  unfold Labels.halved
  split
  next h => rw [h]; exact ⟨rfl, rfl, rfl⟩
  next =>
    split
    next h => rw [h]; exact ⟨rfl, rfl, rfl⟩
    next => split <;> exact ⟨rfl, rfl, rfl⟩

theorem halved_page {x : Ptr w} (hxv : x ≠ v) (hxq : x ≠ q) :
    (G.halved v q a b x).page = (G x).page := by
  unfold Labels.halved
  rw [if_neg hxv, if_neg hxq]
  split <;> rfl

/-- The pairs of `q` are shared with `v`, which stands in front of it and is still empty. -/
structure Halving (geo : Geo) (m r L : Nat) (s s' : State w) (G G' : Labels w) (q v : Ptr w)
    (a b : Page w) : Prop where
  tree : Tree geo m r (L + 1) s G
  one_le : 1 ≤ L
  below : L + 1 ≤ s.height
  old_lvl : (G q).lvl = L
  new_lvl : (G v).lvl = L
  ne : q ≠ v
  page : (G q).page = a ++ b
  new_page : (G v).page = []
  chain : Chain (ChildOk G q) (G q).lo (G v).hi (a ++ b)
  end_eq : endKey (G v).hi a = (G q).hi
  new_lo : (G v).lo = (G q).hi
  new_fill : m ≤ a.length
  old_fill : m ≤ b.length
  others : ∀ x, (G x).lvl = L → x ≠ q → x ≠ v →
    Chain (ChildOk G x) (G x).lo (G x).hi (G x).page ∧ m ≤ (G x).page.length
  head : s'.toHead = s.toHead
  heap : ∀ x, x ≠ v → x ≠ q → 1 ≤ (G x).lvl → s'.heap x = s.heap x
  new : ∃ nv, s'.heap v = some (.node nv) ∧ Holds geo nv a
  old : ∃ nq, s'.heap q = some (.node nq) ∧ Holds geo nq b
  labels : G' = G.halved v q a b

namespace Halving

variable {G' : Labels w} {x c : Ptr w}

theorem root (h : Halving geo m r L s s' G G' q v a b) : s'.node = s.node :=
  congrArg Head.node h.head

theorem height (h : Halving geo m r L s s' G G' q v a b) : s'.height = s.height :=
  congrArg Head.height h.head

theorem label_new (h : Halving geo m r L s s' G G' q v a b) : G' v = { G v with page := a } := by
  rw [h.labels, halved_new]

theorem label_old (h : Halving geo m r L s s' G G' q v a b) : G' q = { G q with page := b } := by
  rw [h.labels, halved_old h.ne]

theorem label_of_ne (h : Halving geo m r L s s' G G' q v a b) (hxv : x ≠ v) (hxq : x ≠ q)
    (hx : 2 ≤ L → x ∉ a.map Prod.snd) : G' x = G x := by
  rw [h.labels, halved_of_ne hxv hxq]
  rwa [h.old_lvl]

theorem span (h : Halving geo m r L s s' G G' q v a b) (x : Ptr w) :
    (G' x).lvl = (G x).lvl ∧ (G' x).lo = (G x).lo ∧ (G' x).hi = (G x).hi := by
  rw [h.labels]
  exact halved_span x

theorem page_of_ne (h : Halving geo m r L s s' G G' q v a b) (hxv : x ≠ v) (hxq : x ≠ q) :
    (G' x).page = (G x).page := by
  rw [h.labels, halved_page hxv hxq]

/-- The children that move are one level down. -/
theorem moved (h : Halving geo m r L s s' G G' q v a b) (hL : 2 ≤ L) (hx : x ∈ a.map Prod.snd) :
    (G x).lvl + 1 = L ∧ (G x).par = q := by
  obtain ⟨⟨k, c⟩, hmem, rfl⟩ := List.mem_map.mp hx
  obtain ⟨_, _, _, hok⟩ := (chain_append.mp h.chain).1.rel_of_mem hmem
  have hlvl := h.old_lvl
  obtain ⟨hclvl, hcpar, -⟩ := hok (by omega)
  exact ⟨hclvl.trans hlvl, hcpar⟩

theorem label_moved (h : Halving geo m r L s s' G G' q v a b) (hL : 2 ≤ L)
    (hx : x ∈ a.map Prod.snd) : G' x = { G x with par := v } := by
  have hxlvl := (h.moved hL hx).1
  have hnew := h.new_lvl
  have hold := h.old_lvl
  rw [h.labels, halved_moved _ _ (by omega) hx]
  · rintro rfl
    omega
  · rintro rfl
    omega

/-- What does not hang off `q` is seen as before. -/
theorem sameSpan (h : Halving geo m r L s s' G G' q v a b) (hc : (G c).par ≠ q) :
    SameSpan (G c) (G' c) := by
  obtain ⟨hlvl, hlo, hhi⟩ := h.span c
  refine ⟨hlvl, ?_, hlo, hhi⟩
  by_cases hcv : c = v
  · rw [hcv, h.label_new]
  · by_cases hcq : c = q
    · rw [hcq, h.label_old]
    · rw [h.label_of_ne hcv hcq fun hL hin => hc (h.moved hL hin).2]

theorem root_ne (h : Halving geo m r L s s' G G' q v a b) : s.node ≠ v ∧ s.node ≠ q := by
  have hbelow := h.below
  have hroot := h.tree.root_lvl (by omega)
  have hnew := h.new_lvl
  have hold := h.old_lvl
  constructor
  · intro heq
    rw [heq] at hroot
    omega
  · intro heq
    rw [heq] at hroot
    omega

/-- The two nodes keep their slot. -/
theorem parent_kept (h : Halving geo m r L s s' G G' q v a b) (hx : (G x).lvl = L) (hne : x ≠ s.node) :
    (G' (G x).par).lvl = (G x).lvl + 1 ∧ ∃ k, (k, x) ∈ (G' (G x).par).page := by
  have hone := h.one_le
  have hnew := h.new_lvl
  have hold := h.old_lvl
  obtain ⟨hparlvl, k, hmem⟩ := h.tree.parent x (by omega) hne
  rw [(h.span _).1, h.page_of_ne _ _]
  · exact ⟨hparlvl, k, hmem⟩
  · intro heq
    rw [heq] at hparlvl
    omega
  · intro heq
    rw [heq] at hparlvl
    omega

/-! The conditions on each node. -/

theorem nodeOk_new (h : Halving geo m r L s s' G G' q v a b) : NodeOk geo m L s' G' v := by
  have hnew := h.new_lvl
  have hold := h.old_lvl
  constructor
  case stored =>
    rw [h.label_new]
    exact h.new
  case parent =>
    intro _
    rw [h.label_new]
    exact h.parent_kept hnew h.root_ne.1.symm
  case chain =>
    intro _
    rw [h.label_new]
    simp only
    rw [h.new_lo, ← h.end_eq]
    refine (chain_append.mp h.chain).1.raise_lo.imp le_rfl fun hi k c hmem hok hlvl => ?_
    rw [(h.span v).1] at hlvl
    obtain ⟨h₁, _, h₃, h₄, h₅⟩ := hok (by omega)
    rw [h.label_moved (by omega) (List.mem_map_of_mem hmem), (h.span v).1]
    exact ⟨by simp only; omega, rfl, h₃, h₄, h₅⟩
  case fill =>
    intro _ _
    rw [h.label_new]
    exact h.new_fill

theorem nodeOk_old (h : Halving geo m r L s s' G G' q v a b) : NodeOk geo m L s' G' q := by
  have hnew := h.new_lvl
  have hold := h.old_lvl
  constructor
  case stored =>
    rw [h.label_old]
    exact h.old
  case parent =>
    intro _
    rw [h.label_old]
    exact h.parent_kept hold h.root_ne.2.symm
  case chain =>
    intro _
    have hchain := (chain_append.mp h.chain).2
    rw [h.end_eq] at hchain
    rw [h.label_old]
    refine hchain.imp le_rfl fun hi k c hmem hok hlvl => ?_
    rw [(h.span q).1] at hlvl
    obtain ⟨h₁, h₂, h₃, h₄, h₅⟩ := hok hlvl
    -- a child in the second half does not move
    have hca : c ∉ a.map Prod.snd := by
      intro hin
      obtain ⟨⟨k', c'⟩, hmem', rfl⟩ := List.mem_map.mp hin
      exact chain_halves_disjoint h.chain hlvl hmem' hmem
    rw [h.label_of_ne (by rintro rfl; omega) (by rintro rfl; omega) fun _ => hca, (h.span q).1]
    exact ⟨h₁, h₂, h₃, h₄, h₅⟩
  case fill =>
    intro _ _
    rw [h.label_old]
    exact h.old_fill

theorem nodeOk_moved (h : Halving geo m r L s s' G G' q v a b) (hL : 2 ≤ L)
    (hx : x ∈ a.map Prod.snd) : NodeOk geo m L s' G' x := by
  have hnew := h.new_lvl
  have hold := h.old_lvl
  obtain ⟨hxlvl, -⟩ := h.moved hL hx
  have hxv : x ≠ v := by
    rintro rfl
    omega
  have hxq : x ≠ q := by
    rintro rfl
    omega
  apply NodeOk.ofLow
  case hlow =>
    rw [(h.span x).1]
    omega
  case stored =>
    rw [h.label_moved hL hx, h.heap x hxv hxq (by omega)]
    exact h.tree.stored x (by omega)
  case parent =>
    intro _
    obtain ⟨⟨k, c⟩, hmem, rfl⟩ := List.mem_map.mp hx
    rw [h.label_moved hL hx]
    simp only
    rw [(h.span v).1, h.label_new]
    exact ⟨hnew.trans hxlvl.symm, k, hmem⟩

/-- A node that is neither of the two and does not move. -/
theorem nodeOk_of_ne (h : Halving geo m r L s s' G G' q v a b) (hx : 1 ≤ (G x).lvl) (hxv : x ≠ v)
    (hxq : x ≠ q) (hxa : 2 ≤ L → x ∉ a.map Prod.snd) : NodeOk geo m L s' G' x := by
  have hlabel := h.label_of_ne hxv hxq hxa
  have hnode := h.tree.node_ok hx
  constructor
  case stored =>
    rw [hlabel, h.heap x hxv hxq hx]
    exact hnode.stored
  case parent =>
    intro hne
    rw [h.root] at hne
    obtain ⟨hxlvl, k', hmem⟩ := hnode.parent hne
    rw [hlabel]
    refine ⟨(h.span _).1.trans hxlvl, k', ?_⟩
    have hpv : (G x).par ≠ v := by
      intro heq
      rw [heq, h.new_page] at hmem
      simp at hmem
    by_cases hpq : (G x).par = q
    · -- the slot is in the second half of the page
      have hold := h.old_lvl
      rw [hpq] at hxlvl
      rw [hpq, h.page] at hmem
      rw [hpq, h.label_old]
      cases List.mem_append.mp hmem with
      | inl hmem =>
        exact absurd (List.mem_map_of_mem hmem) (hxa (by omega))
      | inr hmem =>
        exact hmem
    · rw [h.page_of_ne hpv hpq]
      exact hmem
  case chain =>
    intro hLx
    rw [hlabel] at hLx ⊢
    have hchain : Chain (ChildOk G x) (G x).lo (G x).hi (G x).page := by
      cases Nat.eq_or_lt_of_le hLx with
      | inl heq =>
        exact (h.others x heq.symm hxq hxv).1
      | inr hlt =>
        exact hnode.chain hlt
    refine hchain.imp le_rfl fun hi k c hmem hok => hok.congr (by rw [hlabel]) fun hlvl => h.sameSpan ?_
    rw [(hok hlvl).2.1]
    exact hxq
  case fill =>
    intro hLx hne
    rw [hlabel] at hLx ⊢
    rw [h.root] at hne
    cases Nat.eq_or_lt_of_le hLx with
    | inl heq =>
      exact (h.others x heq.symm hxq hxv).2
    | inr hlt =>
      exact hnode.fill hlt hne

theorem nodeOk (h : Halving geo m r L s s' G G' q v a b) (hx : 1 ≤ (G' x).lvl) :
    NodeOk geo m L s' G' x := by
  rw [(h.span x).1] at hx
  by_cases hxv : x = v
  · rw [hxv]
    exact h.nodeOk_new
  by_cases hxq : x = q
  · rw [hxq]
    exact h.nodeOk_old
  by_cases hxa : 2 ≤ L ∧ x ∈ a.map Prod.snd
  · exact h.nodeOk_moved hxa.1 hxa.2
  · exact h.nodeOk_of_ne hx hxv hxq fun hL hin => hxa ⟨hL, hin⟩

end Halving

theorem Tree.halve {nv nq : Words w} (h : Tree geo m r (L + 1) s G) (hL : 1 ≤ L)
    (hheight : L + 1 ≤ s.height) (hq : (G q).lvl = L) (hv : (G v).lvl = L) (hqv : q ≠ v)
    (hpage : (G q).page = a ++ b) (hvpage : (G v).page = [])
    (hchain : Chain (ChildOk G q) (G q).lo (G v).hi (a ++ b))
    (hend : endKey (G v).hi a = (G q).hi) (hlo : (G v).lo = (G q).hi) (ha : m ≤ a.length)
    (hb : m ≤ b.length)
    (hothers : ∀ x, (G x).lvl = L → x ≠ q → x ≠ v →
      Chain (ChildOk G x) (G x).lo (G x).hi (G x).page ∧ m ≤ (G x).page.length)
    (hhead : s'.toHead = s.toHead)
    (hheap : ∀ x, x ≠ v → x ≠ q → 1 ≤ (G x).lvl → s'.heap x = s.heap x)
    (hvnode : s'.heap v = some (.node nv)) (hvholds : Holds geo nv a)
    (hqnode : s'.heap q = some (.node nq)) (hqholds : Holds geo nq b) :
    Tree geo m r L s' (G.halved v q a b) := by
  have hhalf : Halving geo m r L s s' G (G.halved v q a b) q v a b :=
    ⟨h, hL, hheight, hq, hv, hqv, hpage, hvpage, hchain, hend, hlo, ha, hb, hothers, hhead, hheap,
      ⟨nv, hvnode, hvholds⟩, ⟨nq, hqnode, hqholds⟩, rfl⟩
  generalize G.halved v q a b = G' at *
  have hspan := hhalf.span
  obtain ⟨hnv, hnq⟩ := hhalf.root_ne
  apply Tree.ofNodes hL
  case null =>
    rw [(hspan _).1]
    exact h.null
  case lvl_le =>
    intro x
    rw [(hspan x).1, hhalf.height]
    exact h.lvl_le x
  case root_lvl =>
    intro _
    rw [(hspan _).1, hhalf.root, hhalf.height]
    exact h.root_lvl (by omega)
  case root_hi =>
    intro _
    rw [(hspan _).2.2, hhalf.root]
    exact h.root_hi (by omega)
  case root_fill =>
    intro _
    rw [hhalf.root, hhalf.page_of_ne hnv hnq]
    exact h.root_fill (by omega)
  case empty =>
    intro hh
    rw [hhalf.height] at hh
    omega
  case nodes => exact fun x hx => hhalf.nodeOk hx

end Halve

/-! ## A new root -/

/-- The labels when `v` has become the root; `key` is the one separator it holds, if there was a
root before. -/
def Labels.grown (G : Labels w) (height bound : Nat) (root v : Ptr w) (key : Nat) : Labels w := fun x =>
  if x = v then ⟨height + 1, 0, bound, 0#w, if height = 0 then [] else [(key, root)]⟩
  else if x = root ∧ 1 ≤ height then { G root with lo := key, par := v }
  else G x

theorem grown_new {height bound key : Nat} {root : Ptr w} : G.grown height bound root v key v =
    ⟨height + 1, 0, bound, 0#w, if height = 0 then [] else [(key, root)]⟩ := by
  simp [Labels.grown]

theorem grown_root {height bound key : Nat} {root : Ptr w} (hne : root ≠ v) (hh : 1 ≤ height) :
    G.grown height bound root v key root = { G root with lo := key, par := v } := by
  simp [Labels.grown, hne, hh]

theorem grown_of_ne {height bound key : Nat} {root x : Ptr w} (hv : x ≠ v)
    (hroot : x ≠ root ∨ height = 0) : G.grown height bound root v key x = G x := by
  unfold Labels.grown
  rw [if_neg hv, if_neg]
  rintro ⟨rfl, hh⟩
  cases hroot with
  | inl hne =>
    exact hne rfl
  | inr hzero =>
    omega

/-- `v` has become the root. -/
structure Growing (geo : Geo) (m r L : Nat) (s s' : State w) (G G' : Labels w) (v : Ptr w) (key : Nat) : Prop where
  tree : Tree geo m r L s G
  free : (G v).lvl = 0
  ne : v ≠ 0#w
  key_lt : key < geo.keyBound w
  node : s'.node = v
  height : s'.height = s.height + 1
  heap : ∀ x, 1 ≤ (G x).lvl → s'.heap x = s.heap x
  new : ∃ nv, s'.heap v = some (.node nv) ∧ Holds geo nv (if s.height = 0 then [] else [(key, s.node)])
  labels : G' = G.grown s.height (geo.keyBound w) s.node v key

namespace Growing

variable {G' : Labels w} {x : Ptr w} {key : Nat}

theorem label_new (h : Growing geo m r L s s' G G' v key) : G' v =
    ⟨s.height + 1, 0, geo.keyBound w, 0#w, if s.height = 0 then [] else [(key, s.node)]⟩ := by
  rw [h.labels]
  exact grown_new

theorem root_ne (h : Growing geo m r L s s' G G' v key) (hh : 1 ≤ s.height) : s.node ≠ v := by
  rintro rfl
  have hroot := h.tree.root_lvl hh
  have hfree := h.free
  omega

theorem label_root (h : Growing geo m r L s s' G G' v key) (hh : 1 ≤ s.height) :
    G' s.node = { G s.node with lo := key, par := v } := by
  rw [h.labels]
  exact grown_root (h.root_ne hh) hh

theorem label_of_ne (h : Growing geo m r L s s' G G' v key) (hxv : x ≠ v) (hx : x ≠ s.node ∨ s.height = 0) :
    G' x = G x := by
  rw [h.labels]
  exact grown_of_ne hxv hx

/-- All but the new root keep their level and their page. -/
theorem same (h : Growing geo m r L s s' G G' v key) (hxv : x ≠ v) :
    (G' x).lvl = (G x).lvl ∧ (G' x).page = (G x).page := by
  by_cases hx : x = s.node ∧ 1 ≤ s.height
  · rw [hx.1, h.label_root hx.2]
    exact ⟨rfl, rfl⟩
  · have hcase : x ≠ s.node ∨ s.height = 0 := by
      by_cases hxr : x = s.node
      · have : ¬1 ≤ s.height := fun hh => hx ⟨hxr, hh⟩
        omega
      · exact .inl hxr
    rw [h.label_of_ne hxv hcase]
    exact ⟨rfl, rfl⟩

theorem lvl_le (h : Growing geo m r L s s' G G' v key) (hxv : x ≠ v) : (G' x).lvl ≤ s.height := by
  rw [(h.same hxv).1]
  exact h.tree.lvl_le x

theorem nodeOk_new (h : Growing geo m r L s s' G G' v key) : NodeOk geo m (s.height + 1) s' G' v := by
  have hnew := h.label_new
  constructor
  case stored =>
    rw [hnew]
    exact h.new
  case parent => exact fun hne => absurd h.node.symm hne
  case chain =>
    intro _
    rw [hnew]
    simp only
    by_cases hh : s.height = 0
    · rw [if_pos hh]
      exact chain_nil
    · -- the only child is the old root
      have hlvl := h.tree.root_lvl (by omega)
      have hhi := h.tree.root_hi (by omega)
      rw [if_neg hh]
      refine ⟨Nat.zero_le _, h.key_lt, fun _ => ?_, trivial⟩
      rw [h.label_root (by omega), hnew]
      simp only
      rw [hlvl, hhi]
      exact ⟨rfl, trivial, le_rfl, h.key_lt, le_rfl⟩
  case fill => exact fun _ hne => absurd h.node.symm hne

/-- The old root has a parent now, the other old nodes have the one they had. -/
theorem nodeOk_old (h : Growing geo m r L s s' G G' v key) (hxv : x ≠ v) (hx : 1 ≤ (G x).lvl) :
    NodeOk geo m (s.height + 1) s' G' x := by
  obtain ⟨hlvl, hpage⟩ := h.same hxv
  apply NodeOk.ofLow (Nat.lt_succ_of_le (h.lvl_le hxv))
  case stored =>
    rw [hpage, h.heap x hx]
    exact h.tree.stored x hx
  case parent =>
    intro _
    by_cases hxr : x = s.node
    · have hh : 1 ≤ s.height := by
        have := h.tree.lvl_le x
        omega
      rw [hxr, h.label_root hh, h.label_new]
      simp only
      rw [if_neg (by omega), h.tree.root_lvl hh]
      exact ⟨rfl, key, by simp⟩
    · obtain ⟨hplvl, k, hmem⟩ := h.tree.parent x hx hxr
      have hpv : (G x).par ≠ v := by
        intro heq
        rw [heq, h.free] at hplvl
        omega
      rw [h.label_of_ne hxv (.inl hxr), (h.same hpv).1, (h.same hpv).2]
      exact ⟨hplvl, k, hmem⟩

theorem nodeOk (h : Growing geo m r L s s' G G' v key) (hx : 1 ≤ (G' x).lvl) :
    NodeOk geo m (s.height + 1) s' G' x := by
  by_cases hxv : x = v
  · rw [hxv]
    exact h.nodeOk_new
  · rw [(h.same hxv).1] at hx
    exact h.nodeOk_old hxv hx

end Growing

theorem Tree.grow {nv : Words w} {key : Nat} (h : Tree geo m r L s G) (hv : (G v).lvl = 0)
    (hvne : v ≠ 0#w) (hkey : key < geo.keyBound w) (hnode : s'.node = v)
    (hheight : s'.height = s.height + 1) (hheap : ∀ x, 1 ≤ (G x).lvl → s'.heap x = s.heap x)
    (hvnode : s'.heap v = some (.node nv))
    (hvholds : Holds geo nv (if s.height = 0 then [] else [(key, s.node)])) :
    Tree geo m 1 (s.height + 1) s' (G.grown s.height (geo.keyBound w) s.node v key) := by
  have hgrow : Growing geo m r L s s' G (G.grown s.height (geo.keyBound w) s.node v key) v key :=
    ⟨h, hv, hvne, hkey, hnode, hheight, hheap, ⟨nv, hvnode, hvholds⟩, rfl⟩
  generalize G.grown s.height (geo.keyBound w) s.node v key = G' at *
  have hnew := hgrow.label_new
  apply Tree.ofNodes (by omega)
  case null =>
    rw [(hgrow.same hvne.symm).1]
    exact h.null
  case lvl_le =>
    intro x
    by_cases hxv : x = v
    · rw [hxv, hnew, hheight]
    · have := hgrow.lvl_le hxv
      omega
  case root_lvl =>
    intro _
    rw [hnode, hnew, hheight]
  case root_hi =>
    intro _
    rw [hnode, hnew]
  case root_fill =>
    intro hh
    rw [hnode, hnew]
    simp only
    rw [if_neg (by omega)]
    simp
  case empty =>
    intro hh
    omega
  case nodes => exact fun x hx => hgrow.nodeOk hx

end CachedBTree
