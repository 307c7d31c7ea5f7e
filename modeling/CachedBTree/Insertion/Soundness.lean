import CachedBTree.Insertion.Levels

/-! # `cbtree_insert`

The call for the leaves, with a key of the caller: it fails without memory, stops at a
key that is stored, or adds the pair to the pairs of the leaves. -/

namespace CachedBTree

open CachedBTree.Support

variable {w : Nat} {geo : Geo} {m r L : Nat} {s s' : State w} {G G' : Labels w} {p q v : Ptr w}

theorem Routed.below {k : Nat} (h : Routed geo m r 1 k s G p s' G') (hnew : NoNew s s') :
    Below 1 s s' G G' where
  lvl x _ := h.lowered.lvl x
  span x hx hlt := by omega
  par x hx hlt := by omega
  heap x o hlt hx := by rw [h.heap x (by omega), hx]
  fresh x hx hx' := by
    rw [h.lowered.lvl x] at hx'
    omega
  live x n hx := .inl (hnew x n hx)

theorem Routed.pairAt {k : Nat} (h : Routed geo m r 1 k s G p s' G') (e : Nat × Ptr w) :
    PairAt G' 1 e ↔ PairAt G 1 e := by
  constructor
  · rintro ⟨x, hx, he⟩
    rw [h.lowered.lvl x] at hx
    exact ⟨x, hx, by rwa [h.lowered.page_leaf (by omega)] at he⟩
  · rintro ⟨x, hx, he⟩
    exact ⟨x, (h.lowered.lvl x).trans hx, by rwa [h.lowered.page_leaf (by omega)]⟩

theorem Routed.quiet {k : Nat} (h : Routed geo m r 1 k s G p s' G') : Quiet s s' G G' :=
  ⟨h.lowered.lvl, by rw [h.mem], by rw [h.mem]⟩

/-- The tree after an insertion that has failed. -/
structure Refused (geo : Geo) (m r : Nat) (s s' : State w) (G G' : Labels w) (key : Words w) :
    Prop where
  tree : Tree geo m r 1 s' G'
  below : Below 1 s s' G G'
  lowered : Lowered (keyNum geo key) G G'
  memory : OutOfMemory geo key s
  kept : Kept (routed geo key s) s'
  traceless : StarvedBare geo (nodesTaken geo key s) (routed geo key s) → Traceless (routed geo key s) s'
  first : Starved geo 1 (routed geo key s) → ∃ pool, s' = { routed geo key s with pool := pool }

/-- The tree after an insertion.  Pairs stay in their leaf, but for the upper half of the leaf that
the key leads to when it is full. -/
structure Inserted (geo : Geo) (m r : Nat) (s s' : State w) (G G' : Labels w) (leaf : Ptr w)
    (key : Words w) (v : Ptr w) : Prop where
  tree : Tree geo m r 1 s' G'
  below : Below 1 s s' G G'
  pairs : ∀ e, PairAt G' 1 e ↔ PairAt G 1 e ∨ e = (keyNum geo key, v)
  stay : ∀ x e, (G x).lvl = 1 → e ∈ (G x).page → e ∈ (G' x).page ∨
    x = leaf ∧ (G x).page.length = geo.noPairs ∧ e ∈ (G x).page.take (geo.noPairs / 2)
  memory : ¬OutOfMemory geo key s
  took : Took geo 1 (nodesTaken geo key s) (routed geo key s) s' G G'
  positive : 0 < keyNum geo key → G.Positive → G'.Positive
  crowded : InsertKeeps geo key s → G.Crowded geo 1 G.size → G'.Crowded geo 1 G'.size

/-- The pair has been put into the leaf `p`. -/
structure LeafPut (geo : Geo) (m r k : Nat) (v p : Ptr w) (s s' : State w) (G G' : Labels w) :
    Prop where
  tree : Tree geo m r 1 s' G'
  below : Below 1 s s' G G'
  pairs : ∀ e, PairAt G' 1 e ↔ PairAt G 1 e ∨ e = (k, v)
  stay : ∀ x e, (G x).lvl = 1 → e ∈ (G x).page → e ∈ (G' x).page
  quiet : Quiet s s' G G'
  positive : 0 < k → G.Positive → G'.Positive
  inner : ∀ x, 2 ≤ (G x).lvl → (G' x).page = (G x).page
  size : ∀ x, G'.size x = G.size x + if x = p then 1 else 0

/-- A leaf with room takes a pair. -/
theorem Tree.insert_leaf {n n' : Words w} {l₁ l₂ : Page w} {k : Nat} (h : Tree geo m r 1 s G)
    (hp : (G p).lvl = 1) (hnode : s.heap p = some (.node n)) (hpage : (G p).page = l₁ ++ l₂)
    (hlo : (G p).lo ≤ k) (hhi : k < (G p).hi)
    (h₁ : ∀ e ∈ l₁, k < e.1) (h₂ : ∀ e ∈ l₂, e.1 < k)
    (hholds : Holds geo n' (l₁ ++ (k, v) :: l₂)) :
    ∃ G', LeafPut geo m r k v p s (s.setNode p n') G G' := by
  have hchain := h.chain p (by omega)
  rw [hpage] at hchain
  obtain ⟨hchain₁, hchain₂⟩ := chain_append.mp hchain
  -- the key fits between the pairs before and behind it
  have hchain' : Chain (fun _ _ _ => True) (G p).lo (G p).hi (l₁ ++ (k, v) :: l₂) := by
    refine chain_append.mpr ⟨hchain₁.imp le_rfl fun _ _ _ _ _ => trivial, hlo, lt_endKey hhi h₁,
      trivial, ?_⟩
    cases l₂ with
    | nil => trivial
    | cons e l₂ =>
      obtain ⟨k', c'⟩ := e
      exact ⟨hchain₂.1, h₂ (k', c') (by simp), trivial,
        hchain₂.2.2.2.imp le_rfl fun _ _ _ _ _ => trivial⟩
  have hgrown : p ≠ s.node → m ≤ (l₁ ++ (k, v) :: l₂).length := fun hne => by
    have hfill := h.fill p (by omega) hne
    rw [hpage] at hfill
    simp only [List.length_append, List.length_cons] at hfill ⊢
    omega
  have htree : Tree geo m r 1 (s.setNode p n') _ := h.setLeaf hp hchain' hgrown rfl
    (fun x hx _ => State.setNode_heap_ne _ hx) (State.setNode_heap_self _) hholds
  have hother : ∀ x, x ≠ p → Function.update G p { G p with page := l₁ ++ (k, v) :: l₂ } x = G x :=
    fun x hx => Function.update_of_ne hx _ _
  have hself : Function.update G p { G p with page := l₁ ++ (k, v) :: l₂ } p =
      { G p with page := l₁ ++ (k, v) :: l₂ } := Function.update_self _ _ _
  generalize Function.update G p { G p with page := l₁ ++ (k, v) :: l₂ } = G' at *
  have hlvl : ∀ x, (G' x).lvl = (G x).lvl := by
    intro x
    by_cases hxp : x = p
    · rw [hxp, hself]
    · rw [hother x hxp]
  -- no pair is lost, and only one is new
  have hmem : ∀ x e, e ∈ (G' x).page ↔ e ∈ (G x).page ∨ x = p ∧ e = (k, v) := by
    intro x e
    by_cases hxp : x = p
    · rw [hxp, hself, hpage]
      simp only [List.mem_append, List.mem_cons]
      tauto
    · rw [hother x hxp]
      simp [hxp]
  refine ⟨G', ?_⟩
  constructor
  case tree => exact htree
  case below =>
    refine ⟨fun x _ => hlvl x, fun x hx hlt => by omega, fun x hx hlt => by omega,
      fun x o hlt hx => ?_, fun x hx hx' => by rw [hlvl x] at hx'; omega,
      fun x n₁ hx => .inl ((NoNew.refl s).setNode hnode n' x n₁ hx)⟩
    rw [State.setNode_heap_ne, hx]
    rintro rfl
    omega
  case pairs =>
    intro e
    constructor
    · rintro ⟨x, hx, he⟩
      rw [hlvl x] at hx
      cases (hmem x e).mp he with
      | inl hin =>
        exact .inl ⟨x, hx, hin⟩
      | inr hin =>
        exact .inr hin.2
    · rintro (⟨x, hx, he⟩ | rfl)
      · exact ⟨x, (hlvl x).trans hx, (hmem x e).mpr (.inl he)⟩
      · exact ⟨p, (hlvl p).trans hp, (hmem p _).mpr (.inr ⟨rfl, rfl⟩)⟩
  case stay => exact fun x e _ he => (hmem x e).mpr (.inl he)
  case quiet => exact ⟨hlvl, rfl, rfl⟩
  case positive =>
    intro hk hpos x hx e he
    rw [hlvl] at hx
    cases (hmem x e).mp he with
    | inl hin =>
      exact hpos x hx e hin
    | inr hin =>
      rw [hin.2]
      exact hk
  case inner =>
    intro x hx
    rw [hother x (by rintro rfl; omega)]
  case size =>
    intro x
    by_cases hxp : x = p
    · rw [if_pos hxp, hxp, Labels.size, hself, Labels.size, hpage]
      simp only [List.length_append, List.length_cons]
      omega
    · rw [if_neg hxp, Labels.size, hother x hxp]
      rfl

section Leaf

variable {up : KeyPtr w → Ptr w → Nat → State w → Except Fault (Int × State w)} {key : Words w}

/-- The leaf found, cut where the key belongs. -/
theorem Tree.cut_absent {k : Nat} (h : Tree geo m r 1 s G) (hp : (G p).lvl = 1)
    (habsent : ∀ c, ¬PairAt G 1 (k, c)) :
    ∃ l₁ l₂, (G p).page = l₁ ++ l₂ ∧ (∀ e ∈ l₁, k < e.1) ∧ ∀ e ∈ l₂, e.1 < k := by
  obtain ⟨l₁, l₂, hpage, h₁, h₂⟩ := (h.chain p (by omega)).descending.cut k
  refine ⟨l₁, l₂, hpage, h₁, fun e he => lt_of_le_of_ne (h₂ e he) ?_⟩
  rintro rfl
  exact habsent e.2 ⟨p, hp, by rw [hpage]; simp [he]⟩

/-- After a split `find_level` leads to one of the two halves. -/
theorem Split.leaf_found {new p₂ : Ptr w} {s₂ s₃ : State w} {G₂ G₃ : Labels w}
    (h : Tree geo m r 1 s G) (hp : (G p).lvl = 1) (hlo : (G p).lo ≤ keyNum geo key)
    (hhi : keyNum geo key < (G p).hi) (hsplit : Split geo m r 1 s s₂ G G₂ p new)
    (hfind : findLevel geo (.buf key) 1 s₂ = .ok (p₂, s₃))
    (hres : Routed geo m r 1 (keyNum geo key) s₂ G₂ p₂ s₃ G₃) : p₂ = p ∨ p₂ = new := by
  have hplvl : (G₂ p).lvl = 1 := by rw [hsplit.below.lvl p (by omega), hp]
  by_cases hroot : p = s.node
  · -- a leaf at the root: there are no others
    have hlvl : (G₂ p₂).lvl = 1 := by rw [← hres.lowered.lvl, hres.lvl]
    by_cases hG : 1 ≤ (G p₂).lvl
    · have htop := h.root_lvl (by have := h.lvl_le p; omega)
      rw [← hroot, hp] at htop
      have := hsplit.below.lvl p₂ hG
      exact .inl ((h.eq_root (by omega) (by omega)).trans hroot.symm)
    · exact .inr (hsplit.only_new p₂ (by omega) hlvl)
  · have hto : ∀ x, (G₂ x).lvl = 1 → (G₂ x).lo ≤ keyNum geo key → keyNum geo key < (G₂ x).hi →
        p₂ = x := by
      intro x hx hxlo hxhi
      have := hsplit.tree.findLevel_to (reads_buf key) (p := x) (by omega) (by omega) hxlo hxhi
      rw [hx, hfind] at this
      exact (Prod.mk.inj (Except.ok.inj this)).1
    by_cases hside : keyNum geo key < (G₂ p).hi
    · exact .inl (hto p hplvl (by rw [hsplit.lo hroot]; exact hlo) hside)
    · exact .inr (hto new hsplit.new_lvl (by rw [hsplit.mid]; omega) (by rw [hsplit.hi]; exact hhi))

/-- Which half that is: the upper one when the slot of the key was in it. -/
theorem Split.leaf_side {new p₂ : Ptr w} {s₂ s₃ : State w} {G₂ : Labels w} {l₁ l₂ : Page w}
    (hsplit : Split geo m r 1 s s₂ G G₂ p new) (hN : 4 ≤ geo.noPairs)
    (h : Tree geo m r 1 s G) (hp : (G p).lvl = 1) (hlo : (G p).lo ≤ keyNum geo key)
    (hhi : keyNum geo key < (G p).hi) (hfind : findLevel geo (.buf key) 1 s₂ = .ok (p₂, s₃))
    (hroot : p ≠ s.node) (hpage : (G p).page = l₁ ++ l₂) (h₁ : ∀ e ∈ l₁, keyNum geo key < e.1)
    (h₂ : ∀ e ∈ l₂, e.1 < keyNum geo key) (hfull : l₁.length + l₂.length = geo.noPairs) :
    l₁.length < geo.noPairs / 2 ↔ p₂ = new := by
  have hplvl : (G₂ p).lvl = 1 := by rw [hsplit.below.lvl p (by omega), hp]
  have hto : ∀ x, (G₂ x).lvl = 1 → (G₂ x).lo ≤ keyNum geo key → keyNum geo key < (G₂ x).hi →
      p₂ = x := by
    intro x hx hxlo hxhi
    have := hsplit.tree.findLevel_to (reads_buf key) (p := x) (by omega) (by omega) hxlo hxhi
    rw [hx, hfind] at this
    exact (Prod.mk.inj (Except.ok.inj this)).1
  have hpn : p ≠ new := by
    intro heq
    obtain ⟨n, hn, -⟩ := h.stored p (by omega)
    rw [heq, hsplit.new_free] at hn
    cases hn
  -- the separator between the halves is the last key of the upper one
  obtain ⟨l, c, hlast⟩ := hsplit.last
  have htake : l₁.take (geo.noPairs / 2) ++ l₂.take (geo.noPairs / 2 - l₁.length) = l ++ [((G₂ p).hi, c)] := by
    rw [← List.take_append, ← hpage, ← hsplit.new_page]
    exact hlast
  have hlastMem : ((G₂ p).hi, c) ∈ (l₁.take (geo.noPairs / 2) ++
      l₂.take (geo.noPairs / 2 - l₁.length)).getLast? := by
    rw [htake]
    simp
  constructor
  · intro hlt
    obtain ⟨e, l₂, rfl⟩ : ∃ e l, l₂ = e :: l := by
      cases l₂ with
      | nil => simp only [List.length_nil] at hfull; omega
      | cons e l => exact ⟨e, l, rfl⟩
    obtain ⟨n, hn⟩ : ∃ n, geo.noPairs / 2 - l₁.length = n + 1 := ⟨geo.noPairs / 2 - l₁.length - 1, by omega⟩
    rw [hn, List.take_succ_cons, List.getLast?_append_cons] at hlastMem
    have hkey := h₂ _ (List.mem_of_mem_take (i := n + 1) (List.mem_of_mem_getLast? hlastMem))
    exact hto new hsplit.new_lvl (by rw [hsplit.mid]; exact hkey.le) (by rw [hsplit.hi]; exact hhi)
  · rintro hnew
    by_contra hge
    rw [show geo.noPairs / 2 - l₁.length = 0 by omega, List.take_zero, List.append_nil] at hlastMem
    have hkey := h₁ _ (List.mem_of_mem_take (List.mem_of_mem_getLast? hlastMem))
    exact hpn ((hto p hplvl (by rw [hsplit.lo hroot]; exact hlo) hkey).symm.trans hnew)

/-- The sizes of the halves once the pair is in. -/
theorem Split.leaf_keeps {new p₂ : Ptr w} {s₂ s₃ : State w} {G₂ : Labels w} {l₁ l₂ : Page w}
    (hsplit : Split geo m r 1 s s₂ G G₂ p new) (hN : 4 ≤ geo.noPairs) (h : Tree geo m r 1 s G)
    (hp : (G p).lvl = 1) (hlo : (G p).lo ≤ keyNum geo key) (hhi : keyNum geo key < (G p).hi)
    (hfind : findLevel geo (.buf key) 1 s₂ = .ok (p₂, s₃)) (hpage : (G p).page = l₁ ++ l₂)
    (h₁ : ∀ e ∈ l₁, keyNum geo key < e.1) (h₂ : ∀ e ∈ l₂, e.1 < keyNum geo key)
    (hfull : l₁.length + l₂.length = geo.noPairs) (hkeeps : G.Keeps geo (s.height - 1) p l₁.length) :
    ∃ i, G.Keeps geo (s.height - 1) p i ∧ (i < geo.noPairs / 2 ↔ p₂ = new) := by
  by_cases hroot : p = s.node
  · -- the root has no neighbours
    have htop := h.root_lvl (by have := h.lvl_le p; omega)
    rw [← hroot, hp] at htop
    rw [← htop, Nat.sub_self]
    by_cases hnew : p₂ = new
    · exact ⟨0, trivial, iff_of_true (by omega) hnew⟩
    · exact ⟨geo.noPairs / 2, trivial, iff_of_false (Nat.lt_irrefl _) hnew⟩
  · exact ⟨l₁.length, hkeeps, hsplit.leaf_side hN h hp hlo hhi hfind hroot hpage h₁ h₂ hfull⟩

/-- The key has been led to the leaf `p`, which does not hold it. -/
structure LeafFound (geo : Geo) (m r : Nat) (key : Words w) (s s₁ : State w) (G G₁ : Labels w)
    (p : Ptr w) (l₁ l₂ : Page w) : Prop where
  before : Tree geo m r 1 s G
  rooted : 1 ≤ s.height
  find : findLevel geo (.buf key) 1 s = .ok (p, s₁)
  routed : Routed geo m r 1 (keyNum geo key) s G p s₁ G₁
  page : (G₁ p).page = l₁ ++ l₂
  left : ∀ e ∈ l₁, keyNum geo key < e.1
  right : ∀ e ∈ l₂, e.1 < keyNum geo key

theorem Tree.leafFound (h : Tree geo m r 1 s G) (hm : 1 ≤ m) (hr : 1 ≤ r) (hh : 1 ≤ s.height)
    (habsent : ∀ c, ¬PairAt G 1 (keyNum geo key, c)) :
    ∃ s₁ G₁ p l₁ l₂, LeafFound geo m r key s s₁ G G₁ p l₁ l₂ := by
  obtain ⟨p, s₁, G₁, hfind, hres⟩ := h.findLevel_route key hm hr le_rfl hh
  obtain ⟨l₁, l₂, hpage, h₁, h₂⟩ := hres.tree.cut_absent hres.lvl fun c hc =>
    habsent c ((hres.pairAt _).mp hc)
  exact ⟨s₁, G₁, p, l₁, l₂, h, hh, hfind, hres, hpage, h₁, h₂⟩

namespace LeafFound

variable {s₁ : State w} {G₁ : Labels w} {l₁ l₂ : Page w}

/-- The separators have been lowered, so the key leads there again. -/
theorem again (h : LeafFound geo m r key s s₁ G G₁ p l₁ l₂) :
    findLevel geo (.buf key) 1 s₁ = .ok (p, s₁) := by
  have hres := h.routed
  have hto := hres.tree.findLevel_to (reads_buf key) (p := p) (by rw [hres.lvl])
    (by rw [hres.lvl]; omega) hres.lo hres.hi
  rwa [hres.lvl] at hto

theorem height (h : LeafFound geo m r key s s₁ G G₁ p l₁ l₂) : s₁.height = s.height := by
  rw [h.routed.mem]

theorem page_leaf (h : LeafFound geo m r key s s₁ G G₁ p l₁ l₂) {x : Ptr w} (hx : (G x).lvl = 1) :
    (G₁ x).page = (G x).page :=
  h.routed.lowered.page_leaf (by omega)

theorem below (h : LeafFound geo m r key s s₁ G G₁ p l₁ l₂) : Below 1 s s₁ G G₁ :=
  h.routed.below (findLevel_noNew h.find)

theorem fullAt (h : LeafFound geo m r key s s₁ G G₁ p l₁ l₂) :
    CachedBTree.fullAt geo key 1 s₁ = true ↔ (G₁ p).page.length = geo.noPairs := by
  have hres := h.routed
  have hiff := hres.tree.fullAt_iff key (by rw [hres.lvl]) (by rw [hres.lvl]) hres.lo hres.hi
  rwa [hres.lvl] at hiff

theorem memory (h : LeafFound geo m r key s s₁ G G₁ p l₁ l₂) :
    OutOfMemory geo key s ↔ (G₁ p).page.length = geo.noPairs ∧
      Starved geo (G₁.needed geo (s₁.height - 1) p + 1) s₁ := by
  have hres := h.routed
  have hrooted := h.rooted
  have hheight := h.height
  have hneed := hres.tree.nodesNeeded_eq key (d := s₁.height - 1) (by rw [hres.lvl])
    (by rw [hres.lvl]) (by rw [hres.lvl]; omega) hres.lo hres.hi
  unfold OutOfMemory
  rw [if_neg (by omega), routed_of_find h.find, h.fullAt, ← hheight, hneed]

theorem taken (h : LeafFound geo m r key s s₁ G G₁ p l₁ l₂) :
    nodesTaken geo key s =
      if (G₁ p).page.length = geo.noPairs then G₁.needed geo (s₁.height - 1) p + 1 else 0 := by
  rw [h.routed.nodesTaken_eq key h.rooted h.find, h.height]

/-- A leaf with room takes the pair. -/
theorem put (h : LeafFound geo m r key s s₁ G G₁ p l₁ l₂)
    (up : KeyPtr w → Ptr w → Nat → State w → Except Fault (Int × State w)) {t : Nat} (hv : v ≠ 0#w)
    (hroom : l₁.length + l₂.length < geo.noPairs) :
    ∃ s' G', insertRetry geo up (.buf key) v 1 (t + 1) s = .ok (0, s') ∧
      LeafPut geo m r (keyNum geo key) v p s₁ s' G₁ G' := by
  have hres := h.routed
  obtain ⟨n, hnode, -, hholds⟩ := hres.tree.load (p := p) (by rw [hres.lvl])
  rw [h.page] at hholds
  obtain ⟨n', hrun, hholds', -⟩ := insertRetry_room up (t := t) (v := v)
    (hres.tree.ne_null (by rw [hres.lvl])) h.again hnode rfl trivial hholds h.left h.right hroom hv
  obtain ⟨G', hput⟩ :=
    hres.tree.insert_leaf hres.lvl hnode h.page hres.lo hres.hi h.left h.right hholds'
  exact ⟨_, G', by rw [insertRetry_found h.find h.again, hrun], hput⟩

/-- The leaf that is found has room. -/
theorem inserted (h : LeafFound geo m r key s s₁ G G₁ p l₁ l₂) {s' : State w} {G' : Labels w}
    (hroom : l₁.length + l₂.length < geo.noPairs)
    (hput : LeafPut geo m r (keyNum geo key) v p s₁ s' G₁ G') :
    Inserted geo m r s s' G G' p key v := by
  have hres := h.routed
  have hnotfull : (G₁ p).page.length ≠ geo.noPairs := by
    rw [h.page, List.length_append]
    omega
  constructor
  case tree => exact hput.tree
  case below => exact h.below.trans le_rfl hput.below
  case pairs =>
    intro e
    rw [hput.pairs, hres.pairAt]
  case stay =>
    intro x e hx he
    exact .inl (hput.stay x e ((hres.lowered.lvl x).trans hx) (by rwa [h.page_leaf hx]))
  case memory => exact fun hout => hnotfull (h.memory.mp hout).1
  case took =>
    rw [h.taken, if_neg hnotfull, routed_of_find h.find]
    exact (Took.of_quiet hput.quiet le_rfl (by omega)).relabel fun x =>
      (hres.lowered.lvl x).symm
  case positive => exact fun hk hpos => hput.positive hk (hpos.lowered hres.lowered hk)
  case crowded =>
    intro _ hcrowded
    refine (hcrowded.lowered hres.lowered).of_le (fun x => ?_) hput.quiet.lvl hput.inner
    rw [hput.size, ← hres.lowered.size]
    exact Nat.le_add_right _ _

/-! A full leaf is split first; the key then leads to the half `p₂`. -/

section Again

variable {s₂ s₃ s' : State w} {G₂ G₃ G' : Labels w} {new p₂ : Ptr w} {l₁' l₂' : Page w}

theorem half (h : LeafFound geo m r key s s₁ G G₁ p l₁ l₂)
    (hsplit : Split geo m r 1 s₁ s₂ G₁ G₂ p new)
    (h₂ : LeafFound geo m r key s₂ s₃ G₂ G₃ p₂ l₁' l₂') : p₂ = p ∨ p₂ = new :=
  Split.leaf_found h.routed.tree h.routed.lvl h.routed.lo h.routed.hi hsplit h₂.find h₂.routed

theorem half_lvl (h : LeafFound geo m r key s s₁ G G₁ p l₁ l₂) : (G p).lvl = 1 :=
  (h.routed.lowered.lvl p).symm.trans h.routed.lvl

/-- Either half has room. -/
theorem room (h : LeafFound geo m r key s s₁ G G₁ p l₁ l₂) (hN : 4 ≤ geo.noPairs)
    (hfull : (G₁ p).page.length = geo.noPairs) (hsplit : Split geo m r 1 s₁ s₂ G₁ G₂ p new)
    (h₂ : LeafFound geo m r key s₂ s₃ G₂ G₃ p₂ l₁' l₂') : l₁'.length + l₂'.length < geo.noPairs := by
  have hrooms := hsplit.room (by omega) hfull.le
  rw [← List.length_append, ← h₂.page, h₂.page_leaf h₂.half_lvl]
  cases h.half hsplit h₂ with
  | inl heq =>
    rw [heq]
    exact hrooms.1
  | inr heq =>
    rw [heq]
    exact hrooms.2

/-- A pair of the leaf is in the lower half, or it has gone to the new node. -/
theorem stay_split (h : LeafFound geo m r key s s₁ G G₁ p l₁ l₂)
    (hfull : (G₁ p).page.length = geo.noPairs) (hsplit : Split geo m r 1 s₁ s₂ G₁ G₂ p new)
    (h₂ : LeafFound geo m r key s₂ s₃ G₂ G₃ p₂ l₁' l₂')
    (hput : LeafPut geo m r (keyNum geo key) v p₂ s₃ s' G₃ G') {x : Ptr w} {e : Nat × Ptr w}
    (hx : (G x).lvl = 1) (he : e ∈ (G x).page) : e ∈ (G' x).page ∨
      x = p ∧ (G x).page.length = geo.noPairs ∧ e ∈ (G x).page.take (geo.noPairs / 2) := by
  have hx₁ : (G₁ x).lvl = 1 := (h.routed.lowered.lvl x).trans hx
  have hx₂ : (G₂ x).lvl = 1 := by rw [hsplit.below.lvl x (by omega), hx₁]
  have hx₃ : (G₃ x).lvl = 1 := (h₂.routed.lowered.lvl x).trans hx₂
  rw [← h.page_leaf hx] at he ⊢
  by_cases hxp : x = p
  · subst hxp
    rw [← List.take_append_drop (geo.noPairs / 2) (G₁ x).page] at he
    cases List.mem_append.mp he with
    | inl hmem =>
      exact .inr ⟨rfl, hfull, hmem⟩
    | inr hmem =>
      refine .inl (hput.stay x e hx₃ ?_)
      rw [h₂.page_leaf hx₂, hsplit.page]
      exact hmem
  · refine .inl (hput.stay x e hx₃ ?_)
    rw [h₂.page_leaf hx₂, hsplit.other_page x hxp hx₁]
    exact he

theorem crowded_split (h : LeafFound geo m r key s s₁ G G₁ p l₁ l₂) (hN : 4 ≤ geo.noPairs)
    (hfull : (G₁ p).page.length = geo.noPairs) (hsplit : Split geo m r 1 s₁ s₂ G₁ G₂ p new)
    (h₂ : LeafFound geo m r key s₂ s₃ G₂ G₃ p₂ l₁' l₂')
    (hput : LeafPut geo m r (keyNum geo key) v p₂ s₃ s' G₃ G') (hkeep : InsertKeeps geo key s)
    (hcrowded : G.Crowded geo 1 G.size) : G'.Crowded geo 1 G'.size := by
  have hres := h.routed
  have hrooted := h.rooted
  have hheight := h.height
  have hlen : l₁.length + l₂.length = geo.noPairs := by rw [← List.length_append, ← h.page, hfull]
  -- the slot of the key, which decides how many pairs the halves have in the end
  have hslot : getpos geo (nodeAt geo key 1 s₁) key = l₁.length := by
    have hnodeAt := hres.tree.nodeAt_eq key (p := p) (by rw [hres.lvl]) (by rw [hres.lvl]; omega)
      hres.lo hres.hi
    rw [hres.lvl, h.page] at hnodeAt
    exact hnodeAt.getpos h.left fun e he => (h.right e he).le
  have hkeeps : G₁.Keeps geo (s₁.height - 1) p l₁.length := by
    have hneeds := hkeep (by rw [routed_of_find h.find]; exact h.fullAt.mpr hfull)
    rw [routed_of_find h.find] at hneeds
    have hsplits := hres.tree.splitsKeep_keeps (p := p) (by rw [hres.lvl]) (by rw [hres.lvl])
      (by rw [hres.lvl]; omega) hres.lo hres.hi hneeds
    rwa [hres.lvl, hslot] at hsplits
  obtain ⟨i, hkeeps, hi⟩ := hsplit.leaf_keeps hN hres.tree hres.lvl hres.lo hres.hi h₂.find h.page
    h.left h.right hlen hkeeps
  have hcut := hsplit.crowded i hkeeps (by rw [hres.lowered.size]; exact hcrowded.lowered hres.lowered)
  refine (hcut.lowered h₂.routed.lowered).of_le (fun x => ?_) hput.quiet.lvl hput.inner
  rw [hput.size, h₂.routed.lowered.size]
  exact hsplit.shares_le hfull (h.half hsplit h₂) hi

theorem inserted_split (h : LeafFound geo m r key s s₁ G G₁ p l₁ l₂) (hN : 4 ≤ geo.noPairs)
    (hfull : (G₁ p).page.length = geo.noPairs) (hsplit : Split geo m r 1 s₁ s₂ G₁ G₂ p new)
    (htook : Took geo 1 (G₁.needed geo (s₁.height - 1) p + 1) s₁ s₂ G₁ G₂)
    (h₂ : LeafFound geo m r key s₂ s₃ G₂ G₃ p₂ l₁' l₂')
    (hput : LeafPut geo m r (keyNum geo key) v p₂ s₃ s' G₃ G') :
    Inserted geo m r s s' G G' p key v := by
  constructor
  case tree => exact hput.tree
  case below =>
    exact ((h.below.trans le_rfl hsplit.below).trans le_rfl h₂.below).trans le_rfl hput.below
  case pairs =>
    intro e
    rw [hput.pairs, h₂.routed.pairAt, hsplit.pairAt le_rfl h.routed.lvl, h.routed.pairAt]
  case stay => exact fun x e hx he => h.stay_split hfull hsplit h₂ hput hx he
  case memory => exact fun hout => htook.provided.not_starved (h.memory.mp hout).2
  case took =>
    rw [h.taken, if_pos hfull, routed_of_find h.find]
    exact (htook.quiet (h₂.routed.quiet.trans hput.quiet)).relabel fun x =>
      (h.routed.lowered.lvl x).symm
  case positive =>
    exact fun hk hpos => hput.positive hk
      ((hsplit.positive (hpos.lowered h.routed.lowered hk)).lowered h₂.routed.lowered hk)
  case crowded => exact h.crowded_split hN hfull hsplit h₂ hput

end Again

end LeafFound

theorem insertRetry_leaf (up : KeyPtr w → Ptr w → Nat → State w → Except Fault (Int × State w))
    {t : Nat} (hN : 4 ≤ geo.noPairs) (hm : 1 ≤ m) (hm' : m ≤ geo.noPairs / 2)
    (hr : 1 ≤ r) (h : Tree geo m r 1 s G) (hh : 1 ≤ s.height) (hv : v ≠ 0#w)
    (habsent : ∀ c, ¬PairAt G 1 (keyNum geo key, c))
    (hup : ∀ s₁ G₁ p i k v, s₁.height = s.height → (G₁ p).lvl = 1 → Pending geo m r s₁ G₁ p i k v →
      Linking geo m r s₁ G₁ p k v (up (.slot p i) v 2 s₁)) :
    (insertRetry geo up (.buf key) v 1 (t + 2) s = .error .nullDeref ∧
      ¬Provided geo (nodesTaken geo key s) (routed geo key s)) ∨
    (∃ s' G', insertRetry geo up (.buf key) v 1 (t + 2) s = .ok (-ENOMEM, s') ∧
      Refused geo m r s s' G G' key) ∨
    ∃ s' G' leaf s₁, insertRetry geo up (.buf key) v 1 (t + 2) s = .ok (0, s') ∧
      findLevel geo (.buf key) 1 s = .ok (leaf, s₁) ∧ Inserted geo m r s s' G G' leaf key v := by
  obtain ⟨s₁, G₁, p, l₁, l₂, hfound⟩ := h.leafFound hm hr hh habsent
  have hres := hfound.routed
  by_cases hroom : l₁.length + l₂.length < geo.noPairs
  · obtain ⟨s', G', hrun, hput⟩ := hfound.put up (t := t + 1) hv hroom
    exact .inr (.inr ⟨s', G', p, s₁, hrun, hfound.find, hfound.inserted hroom hput⟩)
  -- no room: the leaf is split, and the key is looked for again
  have hfull : (G₁ p).page.length = geo.noPairs := by
    obtain ⟨n, -, -, hholds⟩ := hres.tree.load (p := p) (by rw [hres.lvl])
    have hle := hholds.length_le
    rw [hfound.page, List.length_append] at hle ⊢
    omega
  have hlen : l₁.length + l₂.length = geo.noPairs := by
    rw [← List.length_append, ← hfound.page, hfull]
  have htaken := hfound.taken
  have hrouted := routed_of_find hfound.find
  rw [if_pos hfull] at htaken
  rw [insertRetry_found hfound.find hfound.again]
  rcases insertRetry_full up (t := t + 1) (v := v) hN hm' hres.tree le_rfl hres.lvl hfound.again rfl
    hfound.page hfound.left hfound.right hlen fun s₂ G₂ i k v hheight hlvl hpending =>
      hup s₂ G₂ p i k v (hheight.trans hfound.height) hlvl hpending with
    ⟨hnull, hnot⟩ | ⟨s', hfail, hkept, hnone, hstarved, hclean, hfirst⟩ | ⟨new, s₂, G₂, hagain, hsplit, htook⟩
  · exact .inl ⟨hnull, by rwa [htaken, hrouted]⟩
  · refine .inr (.inl ⟨s', G₁, hfail, hres.tree.kept hkept.head hkept.heap,
      hfound.below.trans le_rfl (Below.of_kept hkept hnone), hres.lowered,
      hfound.memory.mpr ⟨hfull, hstarved⟩, hrouted ▸ hkept, by rwa [htaken, hrouted],
      hrouted ▸ hfirst⟩)
  · have hheight₂ : 1 ≤ s₂.height := by
      have hle := hsplit.tree.lvl_le new
      have hlvl := hsplit.new_lvl
      omega
    obtain ⟨s₃, G₃, p₂, l₁', l₂', hfound₂⟩ := hsplit.tree.leafFound hm hr hheight₂ fun c hc => by
      rw [hsplit.pairAt le_rfl hres.lvl, hres.pairAt] at hc
      exact habsent c hc
    obtain ⟨s', G', hrun, hput⟩ :=
      hfound₂.put up (t := t) hv (hfound.room hN hfull hsplit hfound₂)
    exact .inr (.inr ⟨s', G', p, s₁, hagain.trans hrun, hfound.find,
      hfound.inserted_split hN hfull hsplit htook hfound₂ hput⟩)

/-- A stored key is found. -/
theorem insertRetry_leaf_dup {t : Nat} {c : Ptr w} (h : Tree geo m r 1 s G)
    (hstored : PairAt G 1 (keyNum geo key, c)) :
    insertRetry geo up (.buf key) v 1 (t + 1) s = .error (.bug .insertDup) := by
  obtain ⟨p, hp, hmem⟩ := hstored
  obtain ⟨hlo, hhi⟩ := h.pair_interval (by omega) hmem
  obtain ⟨n, hnode, -, hholds⟩ := h.load (p := p) (by omega)
  have hfind := h.findLevel_to (reads_buf key) (p := p) (by omega) (by omega) hlo hhi
  rw [hp] at hfind
  obtain ⟨l₁, l₂, hpage⟩ := List.append_of_mem hmem
  have hdesc := (h.chain p (by omega)).descending
  rw [hpage] at hholds hdesc
  exact insertRetry_dup (h.ne_null (by omega)) hfind hnode rfl hholds
    (fun e he => hdesc.of_append.2.2 e he (keyNum geo key, c) (by simp))
    fun e he => ((List.pairwise_cons.mp hdesc.of_append.2.1).1 e he).le

end Leaf

/-! ## The whole call -/

/-- Below two levels nothing is asked of the fill of the root. -/
theorem Tree.any_root_fill {r' : Nat} (h : Tree geo m r L s G) (hh : s.height ≤ 1) :
    Tree geo m r' L s G :=
  { h with root_fill := fun hh' => absurd hh' (by omega) }

/-- The pair of an empty tree goes into a new leaf. -/
theorem Below.of_first {new : Ptr w} (h : Tree geo m r L s G) (hh : s.height = 0)
    (hgrown : Grown geo s s' new 0) :
    Below 1 s s' G (G.grown s.height (geo.keyBound w) s.node new 0) ∧
      ∀ e, ¬PairAt (G.grown s.height (geo.keyBound w) s.node new 0) 1 e := by
  have hself : G.grown s.height (geo.keyBound w) s.node new 0 new = ⟨s.height + 1, 0,
      geo.keyBound w, 0#w, if s.height = 0 then [] else [(0, s.node)]⟩ := grown_new
  have hother : ∀ x, x ≠ new → G.grown s.height (geo.keyBound w) s.node new 0 x = G x := fun x hx =>
    grown_of_ne hx (.inr hh)
  have hzero : ∀ x, (G x).lvl = 0 := fun x => by have := h.lvl_le x; omega
  refine ⟨⟨fun x hx => ?_, fun x hx _ => ?_, fun x hx _ => ?_, fun x o _ hx => hgrown.heap x o hx,
    fun x hx hx' => ?_, fun x n hx => (hgrown.only x n hx).imp_right ?_⟩, ?_⟩
  · rw [hzero x] at hx; omega
  · rw [hzero x] at hx; omega
  · rw [hzero x] at hx; omega
  · by_cases hxn : x = new
    · exact ⟨hxn ▸ hgrown.free, hx'⟩
    · rw [hother x hxn, hzero x] at hx'
      omega
  · rintro rfl
    rw [hself]
    exact Nat.succ_pos _
  · rintro e ⟨x, hx, he⟩
    by_cases hxn : x = new
    · rw [hxn, hself] at he
      simp [hh] at he
    · rw [hother x hxn, hzero x] at hx
      omega

section

variable {key : Words w}

theorem cbtreeInsert_dup {c : Ptr w} (h : Tree geo m r 1 s G) (hv : v ≠ 0#w)
    (hstored : PairAt G 1 (keyNum geo key, c)) :
    cbtreeInsert geo key v s = .error (.bug .insertDup) := by
  have hh : ¬s.height < 1 := fun hh => h.no_pairs (by omega) _ hstored
  rw [cbtreeInsert, if_neg hv, cbtreeInsertLevel, if_neg hv, if_neg hh]
  simp only [ok_bind, ne_eq, not_true_eq_false, if_false]
  exact insertRetry_leaf_dup h hstored

/-- `cbtree_insert` with bounds on the passes through `retry:`. -/
def insertWithin (geo : Geo) (passes : Nat → Nat) (key : Words w) (val : Ptr w) (s : State w) :
    Except Fault (Int × State w) :=
  if val = 0#w then .error (.bug .insertVal)
  else insertLevelWithin geo passes (s.height + 3) (.buf key) val 1 s

theorem cbtreeInsert_eq (val : Ptr w) : cbtreeInsert geo key val s = insertWithin geo (· + 1) key val s := by
  rw [cbtreeInsert, insertWithin, cbtreeInsertLevel_eq]

/-- The first key: an empty tree takes one node, its root. -/
theorem insertWithin_empty {passes : Nat → Nat} (hpasses : Passes passes) (hN : 4 ≤ geo.noPairs)
    (h : Tree geo m r 1 s G) (hv : v ≠ 0#w) (hh : s.height < 1) :
    (insertWithin geo passes key v s = .error .nullDeref ∧
      ¬Provided geo (nodesTaken geo key s) (routed geo key s)) ∨
    (∃ s' G', insertWithin geo passes key v s = .ok (-ENOMEM, s') ∧ Refused geo m r s s' G G' key) ∨
    ∃ s' G' leaf, insertWithin geo passes key v s = .ok (0, s') ∧ Inserted geo m r s s' G G' leaf key v := by
  obtain ⟨t, ht⟩ : ∃ t, passes (s.height + 2) = t + 2 :=
    ⟨passes (s.height + 2) - 2, by have := (hpasses (s.height + 2)).2 (by omega); omega⟩
  rw [insertWithin, if_neg hv, insertLevelWithin, if_neg hv, ht, if_pos hh]
  have htaken : nodesTaken geo key s = 1 := if_pos (by omega)
  rcases cbtreeGrow_cases 0 (by omega) h fun hh' => absurd hh' (by omega) with
    ⟨hnull, hnot⟩ | ⟨pool, hfail, hstarved⟩ | ⟨new, s₁, hok, hgrown, hmem, hpool⟩
  · exact .inl ⟨by rw [hnull]; rfl, by rwa [htaken, h.routed_empty key (by omega)]⟩
  · refine .inr (.inl ⟨{ s with pool := pool }, G, by rw [hfail]; rfl, h.kept rfl fun _ _ hx => hx,
      Below.of_kept ⟨rfl, fun _ _ hx => hx, id⟩ fun _ n hx => ⟨n, hx⟩, Lowered.refl _ _, ?_,
      ?_, fun _ => .of_heap ?_, fun _ => ⟨pool, ?_⟩⟩)
    · unfold OutOfMemory
      rwa [if_pos (by omega)]
    · rw [h.routed_empty key (by omega)]
      exact ⟨rfl, fun _ _ hx => hx, id⟩
    · rw [h.routed_empty key (by omega)]
    · rw [h.routed_empty key (by omega)]
  · rw [hok, ok_bind]
    simp only [ne_eq, not_true_eq_false, if_false]
    have hzero : ∀ x, (G x).lvl = 0 := fun x => by have := h.lvl_le x; omega
    obtain ⟨nv, hnv, hnvholds⟩ := hgrown.new
    have hgrow := h.grow (hzero new) hgrown.ne (keyBound_pos geo w) hgrown.node hgrown.height
      (fun x hx => by rw [hzero x] at hx; omega) hnv hnvholds
    obtain ⟨hbelow, hnone⟩ := Below.of_first h (by omega) hgrown
    have htook := Took.of_grown geo 0 hmem hpool hgrown.height (hzero new)
    have hself : G.grown s.height (geo.keyBound w) s.node new 0 new = ⟨s.height + 1, 0,
        geo.keyBound w, 0#w, if s.height = 0 then [] else [(0, s.node)]⟩ := grown_new
    have hgrownPos : G.Positive → (G.grown s.height (geo.keyBound w) s.node new 0).Positive := fun h =>
      h.grown fun hh' => absurd hh' (by omega)
    generalize G.grown s.height (geo.keyBound w) s.node new 0 = G₁ at *
    have hheight₁ := hgrown.height
    have hgrow₁ : Tree geo m 1 1 s₁ G₁ := hgrow.mono (by omega) le_rfl le_rfl
    have htree : Tree geo m r 1 s₁ G₁ := hgrow₁.any_root_fill (by omega)
    -- the search ends at the new root
    have hfind : findLevel geo (.buf key) 1 s₁ = .ok (new, s₁) := by
      have := htree.findLevel_to (reads_buf key) (p := new) (by rw [hself]; simp)
        (by rw [hself]; simp) (by rw [hself]; exact Nat.zero_le _)
        (by rw [hself]; exact keyNum_lt geo key)
      rw [hself] at this
      simpa [show s.height = 0 by omega] using this
    have hpage : (G₁ new).page = [] ++ [] := by
      rw [hself]
      simp [show s.height = 0 by omega]
    have hempty : Holds geo nv ([] ++ []) := by rwa [if_pos (by omega)] at hnvholds
    obtain ⟨n', hrun, hholds', -⟩ := insertRetry_room (insertLevelWithin geo passes (s.height + 2))
      (t := t + 1) (v := v) hgrown.ne hfind hnv rfl trivial hempty
      (by simp) (by simp) (by simp; omega) hv
    obtain ⟨G', htree', hbelow', hpairs, -, hquiet, hpos, hinner, -⟩ :=
      htree.insert_leaf (by rw [hself]; simp; omega) hnv hpage
      (by rw [hself]; exact Nat.zero_le _) (by rw [hself]; exact keyNum_lt geo key) (by simp) (by simp)
      hholds'
    refine .inr (.inr ⟨_, G', new, hrun, htree',
      hbelow.trans le_rfl hbelow', fun e => ?_, fun x e hx => by rw [hzero x] at hx; omega, ?_, ?_,
      fun hk h => hpos hk (hgrownPos h), fun _ _ x hx => ?_⟩)
    · rw [hpairs]
      have := hnone e
      have := h.no_pairs (by omega) e
      tauto
    · unfold OutOfMemory
      rw [if_pos (by omega)]
      exact hmem.not_starved
    · rw [htaken, h.routed_empty key (by omega)]
      rw [show s.height + 1 = 1 by omega] at htook
      exact htook.quiet hquiet
    · -- there is no inner node
      have := htree'.lvl_le x
      rw [hquiet.height] at this
      omega

/-- An insertion of a key that is not stored. -/
theorem insertWithin_new {passes : Nat → Nat} (hpasses : Passes passes) (hN : 4 ≤ geo.noPairs) (hm : 1 ≤ m)
    (hm' : m ≤ geo.noPairs / 2) (hr : 1 ≤ r)
    (hr' : r ≤ 2) (h : Tree geo m r 1 s G) (hv : v ≠ 0#w)
    (habsent : ∀ c, ¬PairAt G 1 (keyNum geo key, c)) :
    (insertWithin geo passes key v s = .error .nullDeref ∧
      ¬Provided geo (nodesTaken geo key s) (routed geo key s)) ∨
    (∃ s' G', insertWithin geo passes key v s = .ok (-ENOMEM, s') ∧ Refused geo m r s s' G G' key) ∨
    ∃ s' G' leaf, insertWithin geo passes key v s = .ok (0, s') ∧
      (1 ≤ s.height → ∃ s₁, findLevel geo (.buf key) 1 s = .ok (leaf, s₁)) ∧
      Inserted geo m r s s' G G' leaf key v := by
  by_cases hh : s.height < 1
  · rcases insertWithin_empty hpasses hN h hv hh with hnull | hrefused | ⟨s', G', leaf, hrun, hins⟩
    · exact .inl hnull
    · exact .inr (.inl hrefused)
    · exact .inr (.inr ⟨s', G', leaf, hrun, fun hh' => absurd hh' (by omega), hins⟩)
  · have hup : ∀ (s₁ : State w) G₁ p i k v, s₁.height = s.height → (G₁ p).lvl = 1 → Pending geo m r s₁ G₁ p i k v →
        Linking geo m r s₁ G₁ p k v (insertLevelWithin geo passes (s.height + 2) (.slot p i) v 2 s₁) := by
      intro s₁ G₁ p i k v hheight hlvl hpending
      rw [show 2 = (G₁ p).lvl + 1 by omega]
      exact insertLevelWithin_links hpasses hN hm' hr' hpending (by omega)
    obtain ⟨t, ht⟩ : ∃ t, passes (s.height + 2) = t + 2 :=
      ⟨passes (s.height + 2) - 2, by have := (hpasses (s.height + 2)).2 (by omega); omega⟩
    rw [insertWithin, if_neg hv, insertLevelWithin, if_neg hv, ht, if_neg hh]
    simp only [ok_bind, ne_eq, not_true_eq_false, if_false]
    -- the leaf of the key takes the pair, perhaps after a split
    rcases insertRetry_leaf (insertLevelWithin geo passes (s.height + 2)) (t := t) hN hm hm'
      hr h (by omega) hv habsent hup with
      hnull | ⟨s', G', hfail, hrefused⟩ | ⟨s', G', leaf, s₁, hrun, hfind, hins⟩
    · exact .inl hnull
    · exact .inr (.inl ⟨s', G', hfail, hrefused⟩)
    · exact .inr (.inr ⟨s', G', leaf, hrun, fun _ => ⟨s₁, hfind⟩, hins⟩)

theorem cbtreeInsert_new (hN : 4 ≤ geo.noPairs) (hm : 1 ≤ m) (hm' : m ≤ geo.noPairs / 2) (hr : 1 ≤ r)
    (hr' : r ≤ 2) (h : Tree geo m r 1 s G) (hv : v ≠ 0#w)
    (habsent : ∀ c, ¬PairAt G 1 (keyNum geo key, c)) :
    cbtreeInsert geo key v s = .error .nullDeref ∨
    (∃ s' G', cbtreeInsert geo key v s = .ok (-ENOMEM, s') ∧ Refused geo m r s s' G G' key) ∨
    ∃ s' G' leaf, cbtreeInsert geo key v s = .ok (0, s') ∧
      (1 ≤ s.height → ∃ s₁, findLevel geo (.buf key) 1 s = .ok (leaf, s₁)) ∧
      Inserted geo m r s s' G G' leaf key v := by
  rw [cbtreeInsert_eq]
  exact (insertWithin_new (fun fuel => ⟨by omega, by omega⟩) hN hm hm' hr hr' h hv habsent).imp_left And.left

end

end CachedBTree
