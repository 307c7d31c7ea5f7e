import CachedBTree.Pages

/-! # A labelling of the nodes

The tree is spread over the heap, and the code reaches a node from the root with a
key.  A labelling gives every node its level, the interval of keys that lead to it,
its parent and the pairs it holds, so that what has to be true of the tree becomes a
condition on one node and its children.  A change to a node then concerns this node,
its parent and its children and nothing else.

`Tree geo m r L s G` says that `G` labels the tree of `s`.  The order conditions are
asked for from level `L` upwards only: while `cbtree_insert_level` or
`cbtree_remove_level` works on a level, the level below is in the middle of a split or
of a merge. -/

namespace CachedBTree

open CachedBTree.Support

variable {w : Nat} {geo : Geo}

structure Label (w : Nat) where
  /-- 1 for a leaf, 0 for what is not in the tree. -/
  lvl : Nat
  /-- Searches for the keys from `lo` up to `hi` lead here. -/
  lo : Nat
  hi : Nat
  par : Ptr w
  page : Page w

abbrev Labels (w : Nat) := Ptr w → Label w

/-- What the child `c` in a slot of `p` with key `k` has to satisfy; `hi` is the key of the slot
before it.  The slots of a leaf hold values, of which nothing is asked. -/
def ChildOk (G : Labels w) (p : Ptr w) (hi k : Nat) (c : Ptr w) : Prop :=
  2 ≤ (G p).lvl →
    (G c).lvl + 1 = (G p).lvl ∧ (G c).par = p ∧
      k ≤ (G c).lo ∧ (G c).lo < (G c).hi ∧ (G c).hi ≤ hi

/-- `m` is the least fill of a node other than the root, `r` that of an internal root. -/
structure Tree (geo : Geo) (m r L : Nat) (s : State w) (G : Labels w) : Prop where
  null : (G 0#w).lvl = 0
  lvl_le : ∀ p, (G p).lvl ≤ s.height
  stored : ∀ p, 1 ≤ (G p).lvl → ∃ n, s.heap p = some (.node n) ∧ Holds geo n (G p).page
  parent : ∀ p, 1 ≤ (G p).lvl → p ≠ s.node →
    (G (G p).par).lvl = (G p).lvl + 1 ∧ ∃ k, (k, p) ∈ (G (G p).par).page
  root_lvl : 1 ≤ s.height → (G s.node).lvl = s.height
  root_hi : 1 ≤ s.height → (G s.node).hi = geo.keyBound w
  root_fill : 2 ≤ s.height → r ≤ (G s.node).page.length
  empty : s.height = 0 → s.node = 0#w
  chain : ∀ p, L ≤ (G p).lvl → Chain (ChildOk G p) (G p).lo (G p).hi (G p).page
  fill : ∀ p, L ≤ (G p).lvl → p ≠ s.node → m ≤ (G p).page.length

/-- The pairs at a level. -/
def PairAt (G : Labels w) (j : Nat) (e : Nat × Ptr w) : Prop := ∃ x, (G x).lvl = j ∧ e ∈ (G x).page

/-- A change of labels that a parent does not see. -/
def SameSpan (a b : Label w) : Prop :=
  b.lvl = a.lvl ∧ b.par = a.par ∧ b.lo = a.lo ∧ b.hi = a.hi

theorem SameSpan.refl (a : Label w) : SameSpan a a := ⟨rfl, rfl, rfl, rfl⟩

theorem ChildOk.congr {G G' : Labels w} {p c : Ptr w} {hi k : Nat} (h : ChildOk G p hi k c)
    (hp : (G' p).lvl = (G p).lvl) (hc : 2 ≤ (G p).lvl → SameSpan (G c) (G' c)) :
    ChildOk G' p hi k c := by
  intro hlvl
  rw [hp] at hlvl ⊢
  obtain ⟨h₁, h₂, h₃, h₄⟩ := hc hlvl
  rw [h₁, h₂, h₃, h₄]
  exact h hlvl

theorem ChildOk.mono_hi {G : Labels w} {p c : Ptr w} {hi hi' k : Nat} (h : ChildOk G p hi k c)
    (hle : hi ≤ hi') : ChildOk G p hi' k c := fun hlvl =>
  let ⟨h₁, h₂, h₃, h₄, h₅⟩ := h hlvl
  ⟨h₁, h₂, h₃, h₄, h₅.trans hle⟩

/-- The order condition of a node only reads the spans of its children. -/
theorem chain_congr {G G' : Labels w} {p : Ptr w} {lo hi : Nat} {l : Page w}
    (h : Chain (ChildOk G p) lo hi l) (hp : (G' p).lvl = (G p).lvl)
    (hc : ∀ k c, (k, c) ∈ l → 2 ≤ (G p).lvl → SameSpan (G c) (G' c)) :
    Chain (ChildOk G' p) lo hi l :=
  h.imp le_rfl fun _ k c hmem hok => hok.congr hp (hc k c hmem)

/-- No child stands in both halves of a page. -/
theorem chain_halves_disjoint {G : Labels w} {p c : Ptr w} {a b : Page w} {lo hi k k' : Nat}
    (h : Chain (ChildOk G p) lo hi (a ++ b)) (hlvl : 2 ≤ (G p).lvl) (ha : (k, c) ∈ a) :
    (k', c) ∉ b := by
  intro hb
  obtain ⟨hchainA, hchainB⟩ := chain_append.mp h
  obtain ⟨_, _, _, hA⟩ := hchainA.rel_of_mem ha
  obtain ⟨_, hle, _, hB⟩ := hchainB.rel_of_mem hb
  have hkA := (hA hlvl).2.2.1
  have hkB := (hB hlvl).2.2.2
  have hend := hchainA.endKey_le_of_mem ha
  simp only at hend
  omega

/-- The conditions on one node of the tree. -/
structure NodeOk (geo : Geo) (m L : Nat) (s : State w) (G : Labels w) (p : Ptr w) : Prop where
  stored : ∃ n, s.heap p = some (.node n) ∧ Holds geo n (G p).page
  parent : p ≠ s.node →
    (G (G p).par).lvl = (G p).lvl + 1 ∧ ∃ k, (k, p) ∈ (G (G p).par).page
  chain : L ≤ (G p).lvl → Chain (ChildOk G p) (G p).lo (G p).hi (G p).page
  fill : L ≤ (G p).lvl → p ≠ s.node → m ≤ (G p).page.length

theorem Tree.node_ok {m r L : Nat} {s : State w} {G : Labels w} {p : Ptr w}
    (h : Tree geo m r L s G) (hp : 1 ≤ (G p).lvl) : NodeOk geo m L s G p :=
  ⟨h.stored p hp, h.parent p hp, h.chain p, h.fill p⟩

/-- Below the level `L` a node only has to be stored and to have its slot. -/
theorem NodeOk.ofLow {m L : Nat} {s : State w} {G : Labels w} {p : Ptr w} (hlow : (G p).lvl < L)
    (stored : ∃ n, s.heap p = some (.node n) ∧ Holds geo n (G p).page)
    (parent : p ≠ s.node →
      (G (G p).par).lvl = (G p).lvl + 1 ∧ ∃ k, (k, p) ∈ (G (G p).par).page) :
    NodeOk geo m L s G p where
  stored := stored
  parent := parent
  chain hL := absurd hL (by omega)
  fill hL := absurd hL (by omega)

/-- A node is seen to be as before when its label, its words, its children's spans and its slot in
the parent are. -/
theorem NodeOk.congr {m L : Nat} {s s' : State w} {G G' : Labels w} {p : Ptr w}
    (h : NodeOk geo m L s G p) (hroot : s'.node = s.node) (hlabel : G' p = G p)
    (hheap : s'.heap p = s.heap p)
    (hchild : L ≤ (G p).lvl → ∀ k c, (k, c) ∈ (G p).page → 2 ≤ (G p).lvl → SameSpan (G c) (G' c))
    (hpar : p ≠ s.node → (G' (G p).par).lvl = (G (G p).par).lvl ∧
      ∀ k, (k, p) ∈ (G (G p).par).page → ∃ k', (k', p) ∈ (G' (G p).par).page) :
    NodeOk geo m L s' G' p where
  stored := by rw [hlabel, hheap]; exact h.stored
  parent hne := by
    rw [hroot] at hne
    obtain ⟨hlvl, k, hmem⟩ := h.parent hne
    rw [hlabel, (hpar hne).1]
    exact ⟨hlvl, (hpar hne).2 k hmem⟩
  chain hL := by
    rw [hlabel] at hL ⊢
    exact chain_congr (h.chain hL) (by rw [hlabel]) (hchild hL)
  fill hL hne := by
    rw [hlabel] at hL ⊢
    exact h.fill hL (by rwa [hroot] at hne)

/-! ## Reading a labelled tree -/

namespace Tree

variable {m r L : Nat} {s : State w} {G : Labels w} {p c : Ptr w}

theorem mono {L' m' r' : Nat} (h : Tree geo m r L s G) (hL : L ≤ L') (hm : m' ≤ m) (hr : r' ≤ r) :
    Tree geo m' r' L' s G :=
  { h with
    root_fill := fun hh => hr.trans (h.root_fill hh)
    chain := fun p hp => h.chain p (hL.trans hp)
    fill := fun p hp hne => hm.trans (h.fill p (hL.trans hp) hne) }

theorem ne_null (h : Tree geo m r L s G) (hp : 1 ≤ (G p).lvl) : p ≠ 0#w := by
  rintro rfl
  have := h.null
  omega

theorem load (h : Tree geo m r L s G) (hp : 1 ≤ (G p).lvl) :
    ∃ n, s.heap p = some (.node n) ∧ s.load p = .ok n ∧ Holds geo n (G p).page := by
  obtain ⟨n, hn, hholds⟩ := h.stored p hp
  exact ⟨n, hn, State.load_eq_ok.mpr ⟨h.ne_null hp, hn⟩, hholds⟩

theorem lvl_lt (h : Tree geo m r L s G) (hp : 1 ≤ (G p).lvl) (hne : p ≠ s.node) :
    (G p).lvl < s.height := by
  have := (h.parent p hp hne).1
  have := h.lvl_le (G p).par
  omega

/-- The root is the only node at the top level. -/
theorem eq_root (h : Tree geo m r L s G) (hp : 1 ≤ (G p).lvl) (htop : (G p).lvl = s.height) :
    p = s.node := by
  by_contra hne
  have := h.lvl_lt hp hne
  omega

theorem ne_root (h : Tree geo m r L s G) (hp : (G p).lvl < s.height) : p ≠ s.node := by
  rintro rfl
  have := h.root_lvl (by omega)
  omega

/-- The tree is what holds at each node and what is asked of the root. -/
theorem ofNodes (hL : 1 ≤ L) (null : (G 0#w).lvl = 0) (lvl_le : ∀ p, (G p).lvl ≤ s.height)
    (root_lvl : 1 ≤ s.height → (G s.node).lvl = s.height)
    (root_hi : 1 ≤ s.height → (G s.node).hi = geo.keyBound w)
    (root_fill : 2 ≤ s.height → r ≤ (G s.node).page.length)
    (empty : s.height = 0 → s.node = 0#w)
    (nodes : ∀ p, 1 ≤ (G p).lvl → NodeOk geo m L s G p) : Tree geo m r L s G where
  null := null
  lvl_le := lvl_le
  stored p hp := (nodes p hp).stored
  parent p hp := (nodes p hp).parent
  root_lvl := root_lvl
  root_hi := root_hi
  root_fill := root_fill
  empty := empty
  chain p hp := (nodes p (hL.trans hp)).chain hp
  fill p hp := (nodes p (hL.trans hp)).fill hp

/-- What the label of a child says. -/
theorem child {l₁ l₂ : Page w} {k : Nat} (h : Tree geo m r L s G) (hp : L ≤ (G p).lvl)
    (hlvl : 2 ≤ (G p).lvl) (hpage : (G p).page = l₁ ++ (k, c) :: l₂) :
    (G c).lvl + 1 = (G p).lvl ∧ (G c).par = p ∧ k ≤ (G c).lo ∧ (G c).lo < (G c).hi ∧
      (G c).hi ≤ endKey (G p).hi l₁ := by
  have hchain := h.chain p hp
  rw [hpage] at hchain
  exact hchain.rel_of_append.1 hlvl

theorem child_of_mem {k : Nat} (h : Tree geo m r L s G) (hp : L ≤ (G p).lvl)
    (hlvl : 2 ≤ (G p).lvl) (hmem : (k, c) ∈ (G p).page) :
    (G c).lvl + 1 = (G p).lvl ∧ (G c).par = p ∧ k ≤ (G c).lo ∧ (G c).lo < (G c).hi ∧
      (G c).hi ≤ (G p).hi := by
  obtain ⟨l₁, l₂, hpage⟩ := List.append_of_mem hmem
  obtain ⟨h₁, h₂, h₃, h₄, h₅⟩ := h.child hp hlvl hpage
  have hchain := h.chain p hp
  rw [hpage] at hchain
  exact ⟨h₁, h₂, h₃, h₄, h₅.trans (chain_append.mp hchain).1.endKey_le⟩

/-- The slot of a node in its parent. -/
theorem parent_slot (h : Tree geo m r L s G) (hp : 1 ≤ (G p).lvl) (hL : L ≤ (G p).lvl + 1)
    (hne : p ≠ s.node) :
    ∃ k l₁ l₂, (G (G p).par).lvl = (G p).lvl + 1 ∧ (G (G p).par).page = l₁ ++ (k, p) :: l₂ ∧
      k ≤ (G p).lo ∧ (G p).lo < (G p).hi ∧ (G p).hi ≤ endKey (G (G p).par).hi l₁ := by
  obtain ⟨hlvl, k, hmem⟩ := h.parent p hp hne
  obtain ⟨l₁, l₂, hpage⟩ := List.append_of_mem hmem
  obtain ⟨_, _, h₃, h₄, h₅⟩ := h.child (by omega) (by omega) hpage
  exact ⟨k, l₁, l₂, hlvl, hpage, h₃, h₄, h₅⟩

/-- The interval of a node lies in that of its parent. -/
theorem interval_le (h : Tree geo m r L s G) (hp : 1 ≤ (G p).lvl) (hL : L ≤ (G p).lvl + 1)
    (hne : p ≠ s.node) :
    (G (G p).par).lo ≤ (G p).lo ∧ (G p).hi ≤ (G (G p).par).hi := by
  obtain ⟨k, l₁, l₂, hlvl, hpage, hk, _, hhi⟩ := h.parent_slot hp hL hne
  have hchain := h.chain (G p).par (by omega)
  rw [hpage] at hchain
  exact ⟨(hchain.mem (by simp : (k, p) ∈ _)).1.trans hk,
    hhi.trans (chain_append.mp hchain).1.endKey_le⟩

/-- Of two slots with the same child, the one with the smaller key would have an interval below
the larger key. -/
private theorem not_two_slots {k k' : Nat} (h : Tree geo m r L s G) (hp : L ≤ (G p).lvl)
    (hlvl : 2 ≤ (G p).lvl) (hmem : (k, c) ∈ (G p).page) (hmem' : (k', c) ∈ (G p).page) :
    ¬k < k' := by
  intro hlt
  obtain ⟨l₁, l₂, hpage⟩ := List.append_of_mem hmem
  obtain ⟨_, _, _, _, hhi⟩ := h.child hp hlvl hpage
  obtain ⟨_, _, hk', hlohi, _⟩ := h.child_of_mem hp hlvl hmem'
  have hchain := h.chain p hp
  rw [hpage] at hchain hmem'
  have hbefore : (k', c) ∈ l₁ := hchain.descending.mem_left hmem' hlt
  have hend : endKey (G p).hi l₁ ≤ k' := (chain_append.mp hchain).1.endKey_le_of_mem hbefore
  omega

/-- A child has one slot. -/
theorem slot_unique {k k' : Nat} (h : Tree geo m r L s G) (hp : L ≤ (G p).lvl)
    (hlvl : 2 ≤ (G p).lvl) (hmem : (k, c) ∈ (G p).page) (hmem' : (k', c) ∈ (G p).page) :
    k = k' :=
  Nat.le_antisymm (Nat.not_lt.mp (h.not_two_slots hp hlvl hmem' hmem))
    (Nat.not_lt.mp (h.not_two_slots hp hlvl hmem hmem'))

/-- The other slots hold other children. -/
theorem slot_ne {l₁ l₂ : Page w} {k k' : Nat} {c' : Ptr w} (h : Tree geo m r L s G)
    (hp : L ≤ (G p).lvl) (hlvl : 2 ≤ (G p).lvl) (hpage : (G p).page = l₁ ++ (k, c) :: l₂)
    (hmem : (k', c') ∈ l₁ ∨ (k', c') ∈ l₂) : c' ≠ c := by
  rintro rfl
  have hin : (k', c') ∈ (G p).page := by
    rw [hpage]
    rcases hmem with hmem | hmem <;> simp [hmem]
  have hkk : k' = k := h.slot_unique hp hlvl hin (by rw [hpage]; simp)
  subst hkk
  have hdesc := (h.chain p hp).descending
  rw [hpage] at hdesc
  obtain ⟨_, htail, hcross⟩ := hdesc.of_append
  cases hmem with
  | inl hmem =>
    exact absurd (hcross _ hmem (k', c') (by simp)) (lt_irrefl k')
  | inr hmem =>
    exact absurd ((List.pairwise_cons.mp htail).1 _ hmem) (lt_irrefl k')

theorem pair_interval {e : Nat × Ptr w} (h : Tree geo m r 1 s G) (hp : 1 ≤ (G p).lvl)
    (he : e ∈ (G p).page) : (G p).lo ≤ e.1 ∧ e.1 < (G p).hi := (h.chain p hp).mem he

theorem no_pairs (h : Tree geo m r L s G) (hh : s.height = 0) (e : Nat × Ptr w) :
    ¬PairAt G 1 e := by
  rintro ⟨x, hx, -⟩
  have := h.lvl_le x
  omega

/-! ## Changes that leave the inner nodes alone -/

/-- A tree only depends on the head and on the slots of its nodes. -/
theorem frame {s' : State w} (h : Tree geo m r L s G) (hhead : s'.toHead = s.toHead)
    (hslots : ∀ p n, 1 ≤ (G p).lvl → s.heap p = some (.node n) →
      ∃ n', s'.heap p = some (.node n') ∧ ∀ i, i < geo.noPairs → slotAt geo n' i = slotAt geo n i) :
    Tree geo m r L s' G := by
  have hnode : s'.node = s.node := congrArg Head.node hhead
  have hheight : s'.height = s.height := congrArg Head.height hhead
  refine
    { null := h.null
      lvl_le := fun p => by rw [hheight]; exact h.lvl_le p
      stored := fun p hp => ?_
      parent := fun p hp hne => h.parent p hp (by rwa [hnode] at hne)
      root_lvl := fun hh => by rw [hnode, hheight]; exact h.root_lvl (by omega)
      root_hi := fun hh => by rw [hnode]; exact h.root_hi (by omega)
      root_fill := fun hh => by rw [hnode]; exact h.root_fill (by omega)
      empty := fun hh => by rw [hnode]; exact h.empty (by omega)
      chain := h.chain
      fill := fun p hp hne => h.fill p hp (by rwa [hnode] at hne) }
  obtain ⟨n, hn, hholds⟩ := h.stored p hp
  obtain ⟨n', hn', hsame⟩ := hslots p n hp hn
  exact ⟨n', hn', hholds.congr hsame⟩

theorem heap_frame {s' : State w} (h : Tree geo m r L s G) (hhead : s'.toHead = s.toHead)
    (hheap : ∀ p, 1 ≤ (G p).lvl → s'.heap p = s.heap p) : Tree geo m r L s' G :=
  h.frame hhead fun p n hp hn => ⟨n, (hheap p hp).trans hn, fun _ _ => rfl⟩

/-- A leaf gets other pairs. -/
theorem setLeaf {s' : State w} {n' : Words w} {l : Page w} (h : Tree geo m r 1 s G)
    (hp : (G p).lvl = 1) (hchain : Chain (fun _ _ _ => True) (G p).lo (G p).hi l)
    (hfill : p ≠ s.node → m ≤ l.length) (hhead : s'.toHead = s.toHead)
    (hheap : ∀ q, q ≠ p → 1 ≤ (G q).lvl → s'.heap q = s.heap q)
    (hnode : s'.heap p = some (.node n')) (hholds : Holds geo n' l) :
    Tree geo m r 1 s' (Function.update G p { G p with page := l }) := by
  have hroot : s'.node = s.node := congrArg Head.node hhead
  have hheight : s'.height = s.height := congrArg Head.height hhead
  have hother : ∀ q, q ≠ p → Function.update G p { G p with page := l } q = G q := fun q hq =>
    Function.update_of_ne hq _ _
  have hself : Function.update G p { G p with page := l } p = { G p with page := l } :=
    Function.update_self _ _ _
  have hspan : ∀ q, SameSpan (G q) (Function.update G p { G p with page := l } q) := by
    intro q
    by_cases hq : q = p
    · subst hq
      rw [hself]
      exact ⟨rfl, rfl, rfl, rfl⟩
    · rw [hother q hq]
      exact SameSpan.refl _
  refine ofNodes le_rfl (by rw [(hspan _).1]; exact h.null)
    (fun q => by rw [(hspan q).1, hheight]; exact h.lvl_le q)
    (fun hh => by rw [(hspan _).1, hroot, hheight]; exact h.root_lvl (by omega))
    (fun hh => by rw [(hspan _).2.2.2, hroot]; exact h.root_hi (by omega)) (fun hh => ?_)
    (fun hh => by rw [hroot]; exact h.empty (by omega)) fun q hq => ?_
  · have := h.root_lvl (by omega)
    rw [hroot, hother s.node (by rintro heq; rw [heq] at this; omega)]
    exact h.root_fill (by omega)
  · rw [(hspan q).1] at hq
    by_cases hqp : q = p
    · subst hqp
      refine ⟨⟨n', hnode, by rw [hself]; exact hholds⟩, fun hne => ?_, fun _ => ?_, fun _ hne => ?_⟩
      · obtain ⟨hlvl, k, hmem⟩ := h.parent q hq (by rwa [hroot] at hne)
        rw [(hspan q).1, (hspan q).2.1, (hspan _).1,
          hother (G q).par (by rintro heq; rw [heq] at hlvl; omega)]
        exact ⟨hlvl, k, hmem⟩
      · rw [hself]
        refine hchain.imp le_rfl fun _ _ _ _ _ hlvl => ?_
        rw [hself] at hlvl
        simp only at hlvl
        omega
      · rw [hself]
        exact hfill (by rwa [hroot] at hne)
    · refine (h.node_ok hq).congr hroot (hother q hqp) (hheap q hqp hq) (fun _ k c _ _ => hspan c)
        fun hne => ⟨(hspan _).1, fun k hmem => ⟨k, ?_⟩⟩
      have hlvl := (h.parent q hq hne).1
      rw [hother (G q).par (by rintro heq; rw [heq] at hlvl; omega)]
      exact hmem

end Tree

theorem Tree.kept {m r L : Nat} {s s' : State w} {G : Labels w} (h : Tree geo m r L s G)
    (hk : s'.toHead = s.toHead) (hheap : ∀ x o, s.heap x = some o → s'.heap x = some o) :
    Tree geo m r L s' G :=
  h.frame hk fun p n _ hn => ⟨n, hheap p _ hn, fun _ _ => rfl⟩

end CachedBTree
