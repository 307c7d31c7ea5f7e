import CachedBTree.Insertion.Neighbours

/-! # `cbtree_insert_level` above the leaves

The call for level `L` links a new, still empty node beside the node it is split from,
which is at the level below.  It works on level `L` and above, so that the caller,
which then shares the pairs, finds its own level as it left it.  The call ends in one of
three ways: through the `NULL` queue of a failed `kmalloc`, with `-ENOMEM` and nothing
changed, or with the new node linked. -/

namespace CachedBTree

open CachedBTree.Support

variable {w : Nat} {geo : Geo} {m r L : Nat} {s s' : State w} {G G' : Labels w} {p q v : Ptr w}

/-! ## The nodes taken -/

/-- No node has come or gone. -/
structure Quiet (s s' : State w) (G G' : Labels w) : Prop where
  lvl : ∀ x, (G' x).lvl = (G x).lvl
  pool : s'.pool = s.pool
  height : s'.height = s.height

theorem Quiet.trans {s'' : State w} {G'' : Labels w} (h : Quiet s s' G G') (h' : Quiet s' s'' G' G'') :
    Quiet s s'' G G'' :=
  ⟨fun x => (h'.lvl x).trans (h.lvl x), h'.pool.trans h.pool, h'.height.trans h.height⟩

/-- `n` nodes have been taken from the mempool, one for each level from `L` on. -/
structure Took (geo : Geo) (L n : Nat) (s s' : State w) (G G' : Labels w) : Prop where
  provided : Provided geo n s
  pool : s'.pool = s.pool.drop n
  height : s'.height = max s.height (L + n - 1)
  nodes : ∃ new : Nat → Ptr w, (∀ l, L ≤ l → l < L + n → (G (new l)).lvl = 0 ∧ (G' (new l)).lvl = l) ∧
    ∀ x, (G x).lvl = 0 → L ≤ (G' x).lvl → (G' x).lvl < L + n ∧ x = new (G' x).lvl

namespace Took

variable {n : Nat} {s'' : State w} {G'' : Labels w}

theorem of_quiet (h : Quiet s s' G G') (hL : 1 ≤ L) (hle : L ≤ s.height + 1) : Took geo L 0 s s' G G' where
  provided := trivial
  pool := h.pool
  height := by
    rw [h.height]
    omega
  nodes := ⟨fun _ => 0#w, fun l hl hlt => by omega, fun x hx hle => by
    rw [h.lvl x] at hle
    omega⟩

theorem quiet (h : Took geo L n s s' G G') (h' : Quiet s' s'' G' G'') : Took geo L n s s'' G G'' where
  provided := h.provided
  pool := h'.pool.trans h.pool
  height := h'.height.trans h.height
  nodes := by
    obtain ⟨new, hnew, honly⟩ := h.nodes
    refine ⟨new, fun l hl hlt => ?_, fun x hx hle => ?_⟩
    · rw [h'.lvl]
      exact hnew l hl hlt
    · rw [h'.lvl] at hle ⊢
      exact honly x hx hle

theorem relabel (h : Took geo L n s s' G G') (hlvl : ∀ x, (G'' x).lvl = (G x).lvl) : Took geo L n s s' G'' G' where
  provided := h.provided
  pool := h.pool
  height := h.height
  nodes := by
    obtain ⟨new, hnew, honly⟩ := h.nodes
    refine ⟨new, fun l hl hlt => ?_, fun x hx => ?_⟩
    · rw [hlvl]
      exact hnew l hl hlt
    · rw [hlvl] at hx
      exact honly x hx

/-- Linking an empty node beside `q` is the same seen from before and from after. -/
theorem beside {k : Nat} (h : Took geo L n s s' G G') (hq : 1 ≤ (G q).lvl) (hqL : (G q).lvl < L)
    (hqlvl : (G' q).lvl = (G q).lvl) (hv : (G' v).lvl = 0) :
    Took geo L n s s' (G.beside k v q) (G'.beside k v q) where
  provided := h.provided
  pool := h.pool
  height := h.height
  nodes := by
    obtain ⟨new, hnew, honly⟩ := h.nodes
    have hsame : ∀ G : Labels w, ∀ x, x ≠ v → (G.beside k v q x).lvl = (G x).lvl := by
      intro G x hxv
      by_cases hxq : x = q
      · rw [hxq, beside_old (hxq ▸ hxv)]
      · rw [beside_of_ne hxv hxq]
    refine ⟨new, fun l hl hlt => ?_, fun x hx hle => ?_⟩
    · obtain ⟨hold, hlvl⟩ := hnew l hl hlt
      have hne : new l ≠ v := by
        rintro heq
        rw [heq] at hlvl
        omega
      rw [hsame G _ hne, hsame G' _ hne]
      exact ⟨hold, hlvl⟩
    · by_cases hxv : x = v
      · rw [hxv, beside_new] at hle
        simp only at hle
        omega
      · rw [hsame _ x hxv] at hx hle ⊢
        exact honly x hx hle

/-- The node that `p` is split with comes before those of the levels above. -/
theorem cons {k : Nat} {new : Ptr w} {s₁ : State w} {G₁ : Labels w}
    (h : Took geo (L + 1) n s₁ s' (G₁.beside k new p) G') (hbelow : Below (L + 1) s₁ s' (G₁.beside k new p) G')
    (halloc : cbtreeNodeAlloc geo s = .ok (new, s₁)) (hne : new ≠ 0#w) (hheight : s₁.height = s.height)
    (hlvl : ∀ x, (G₁ x).lvl = (G x).lvl) (hL : 1 ≤ L) (hp : (G p).lvl = L) (hnew : (G new).lvl = 0) :
    Took geo L (n + 1) s s' G G' := by
  have hpn : p ≠ new := by rintro rfl; omega
  have hold : ∀ x, x ≠ new → (G₁.beside k new p x).lvl = (G x).lvl := by
    intro x hxn
    by_cases hxp : x = p
    · rw [hxp, beside_old hpn, hlvl]
    · rw [beside_of_ne hxn hxp, hlvl]
  have hbn : (G₁.beside k new p new).lvl = L := by
    rw [beside_new, hlvl, hp]
  -- the new node of this level, and those of the levels above
  obtain ⟨news, hnews, honly⟩ := h.nodes
  refine ⟨(provided_succ halloc).mpr ⟨hne, h.provided⟩, ?_, ?_, fun l => if l = L then new else news l, ?_, ?_⟩
  · rw [h.pool, cbtreeNodeAlloc_pool halloc hne, List.drop_drop, Nat.add_comm]
  · rw [h.height, hheight]
    omega
  · intro l hl hlt
    by_cases hlL : l = L
    · simp only [if_pos hlL]
      exact ⟨hnew, by rw [hbelow.lvl new (by omega), hbn, hlL]⟩
    · simp only [if_neg hlL]
      obtain ⟨hzero, hlvl'⟩ := hnews l (by omega) (by omega)
      have hxn : news l ≠ new := by
        rintro heq
        rw [heq] at hzero
        omega
      rw [hold _ hxn] at hzero
      exact ⟨hzero, hlvl'⟩
  · intro x hx hle
    by_cases hxn : x = new
    · have hxlvl : (G' x).lvl = L := by rw [hxn, hbelow.lvl new (by omega), hbn]
      refine ⟨by omega, ?_⟩
      simp only [hxlvl, if_true]
      exact hxn
    · -- any other new node is one of a level above
      have hzero : (G₁.beside k new p x).lvl = 0 := by rw [hold x hxn, hx]
      have hge := (hbelow.fresh x hzero (by omega)).2
      obtain ⟨hlt, heq⟩ := honly x hzero hge
      have hne' : ¬(G' x).lvl = L := by omega
      refine ⟨by omega, ?_⟩
      simp only [if_neg hne']
      exact heq

/-- The new root. -/
theorem of_grown (geo : Geo) (key : Nat) {new : Ptr w} (hprovided : Provided geo 1 s) (hpool : s'.pool = s.pool.drop 1)
    (hheight : s'.height = s.height + 1) (hnew : (G new).lvl = 0) :
    Took geo (s.height + 1) 1 s s' G (G.grown s.height (geo.keyBound w) s.node new key) := by
  have hself : (G.grown s.height (geo.keyBound w) s.node new key new).lvl = s.height + 1 := by rw [grown_new]
  have hold : ∀ x, x ≠ new → (G.grown s.height (geo.keyBound w) s.node new key x).lvl = (G x).lvl := by
    intro x hxn
    unfold Labels.grown
    rw [if_neg hxn]
    split
    next heq => rw [heq.1]
    next => rfl
  refine ⟨hprovided, hpool, by omega, fun _ => new, fun l hl hlt => ⟨hnew, by rw [hself]; omega⟩, fun x hx hle => ?_⟩
  by_cases hxn : x = new
  · rw [hxn, hself]
    exact ⟨by omega, rfl⟩
  · rw [hold x hxn] at hle
    omega

end Took

/-! ## Linking a new node at its level -/

section Upper

variable {up : KeyPtr w → Ptr w → Nat → State w → Except Fault (Int × State w)} {k i : Nat}
  {nv : Words w}

/-- A key inside the interval of `q` leads to the parent of `q` and to a place in front of its
slot. -/
theorem Tree.find_parent {kp : KeyPtr w} (h : Tree geo m r L s G) (hq : 1 ≤ (G q).lvl)
    (hL : (G q).lvl + 1 = L) (hpar : (G q).par = p) (hne : q ≠ s.node) (hlo : (G q).lo < k)
    (hhi : k < (G q).hi) (hread : Reads geo s kp k) :
    (G p).lvl = L ∧ findLevel geo kp L s = .ok (p, s) ∧
    ∃ k₀ l₁ l₂, (G p).page = l₁ ++ (k₀, q) :: l₂ ∧ (∀ e ∈ l₁, k < e.1) ∧
      ∀ e ∈ (k₀, q) :: l₂, e.1 < k := by
  obtain ⟨k₀, l₁, l₂, hplvl, hpage, hk₀, -, -⟩ := h.parent_slot hq (by omega) hne
  obtain ⟨hplo, hphi⟩ := h.interval_le (p := q) (by omega) (by omega) hne
  rw [hpar] at hplvl hpage hplo hphi
  have hlvl : (G p).lvl = L := by omega
  refine ⟨hlvl, ?_, k₀, l₁, l₂, hpage, (h.cut_at_child (by omega) (by omega) hpage hlo.le hhi).1,
    fun e he => ?_⟩
  · rw [← hlvl]
    exact h.findLevel_to hread (by omega) (by omega) (by omega) (by omega)
  · have hdesc := (h.chain p (by omega)).descending
    rw [hpage] at hdesc
    rcases List.mem_cons.mp he with rfl | hmem
    · exact hk₀.trans_lt hlo
    · have := (List.pairwise_cons.mp hdesc.of_append.2.1).1 e hmem
      simp only at this
      omega

/-- There is room in the parent of `q`, which gets the slot for `v`. -/
theorem insertRetry_link (up : KeyPtr w → Ptr w → Nat → State w → Except Fault (Int × State w))
    {t : Nat} (r' : Nat) (h : Tree geo m r L s G) (hL : 2 ≤ L)
    (hq : (G q).lvl + 1 = L) (hpar : (G q).par = p) (hne : q ≠ s.node) (hlo : (G q).lo < k)
    (hhi : k < (G q).hi) (hv : (G v).lvl = 0) (hvne : v ≠ 0#w) (hvnode : s.heap v = some (.node nv))
    (hvholds : Holds geo nv []) (hread : Reads geo s (.slot q i) k)
    (hroom : (G p).page.length < geo.noPairs) (hr : p = s.node → r' ≤ (G p).page.length + 1)
    (hr' : p ≠ s.node → r' ≤ r) :
    ∃ s' k₀ l₁ l₂, (G p).page = l₁ ++ (k₀, q) :: l₂ ∧
      insertRetry geo up (.slot q i) v L (t + 1) s = .ok (0, s') ∧
      Tree geo m r' L s' (G.linked p l₁ k v q ((k₀, q) :: l₂)) ∧
      Below L s s' (G.beside k v q) (G.linked p l₁ k v q ((k₀, q) :: l₂)) ∧
      Quiet s s' (G.beside k v q) (G.linked p l₁ k v q ((k₀, q) :: l₂)) := by
  obtain ⟨hplvl, hfind, k₀, l₁, l₂, hpage, h₁, h₂⟩ :=
    h.find_parent (by omega) hq hpar hne hlo hhi hread
  obtain ⟨key, hkey, rfl⟩ := hread
  obtain ⟨n, hnode, -, hholds⟩ := h.load (p := p) (by omega)
  rw [hpage] at hholds hroom
  have hqp : q ≠ p := by rintro rfl; omega
  have hvp : v ≠ p := by rintro rfl; omega
  have hqv : q ≠ v := by rintro rfl; omega
  obtain ⟨n', hrun, hholds', -⟩ := insertRetry_room up (t := t) (v := v)
    (h.ne_null (by omega)) hfind hnode hkey hqp hholds h₁ h₂ (by simpa using hroom) hvne
  refine ⟨_, k₀, l₁, l₂, hpage, hrun, h.link hL (by omega) hpage hlo hhi hv hvne hr hr' rfl
    (fun x hx _ => State.setNode_heap_ne _ hx) (State.setNode_heap_self _) hholds'
    ((State.setNode_heap_ne _ hvp).trans hvnode) hvholds, ?_⟩
  have hself : G.linked p l₁ (keyNum geo key) v q ((k₀, q) :: l₂) p =
      { G p with page := l₁ ++ (keyNum geo key, v) :: (k₀, q) :: l₂ } := linked_self
  -- besides the parent and the new node, only the parent pointer of the sibling is set
  have hother : ∀ x, x ≠ p → x ≠ v →
      G.linked p l₁ (keyNum geo key) v q ((k₀, q) :: l₂) x = G.beside (keyNum geo key) v q x := by
    intro x hxp hxv
    by_cases hxq : x = q
    · rw [hxq, linked_old hqp hqv, beside_old hqv]
    · rw [linked_of_ne hxp hxv hxq, beside_of_ne hxv hxq]
  have hnew : G.linked p l₁ (keyNum geo key) v q ((k₀, q) :: l₂) v =
      ⟨(G q).lvl, keyNum geo key, (G q).hi, p, []⟩ := linked_new hvp
  have hpbeside : G.beside (keyNum geo key) v q p = G p := beside_of_ne hvp.symm hqp.symm
  have hlvl : ∀ x, (G.linked p l₁ (keyNum geo key) v q ((k₀, q) :: l₂) x).lvl =
      (G.beside (keyNum geo key) v q x).lvl := by
    intro x
    by_cases hxp : x = p
    · rw [hxp, hself, hpbeside]
    · by_cases hxv : x = v
      · rw [hxv, hnew, beside_new]
      · rw [hother x hxp hxv]
  refine ⟨⟨fun x _ => hlvl x, fun x hx hlt => ?_, fun x hx hlt => ?_, fun x o hlt hx => ?_,
    fun x hx hx' => ?_, fun x m hx => .inl ((NoNew.refl s).setNode hnode n' x m hx)⟩, ⟨hlvl, rfl, rfl⟩⟩
  · by_cases hxp : x = p
    · rw [hxp, hpbeside] at hlt
      omega
    · by_cases hxv : x = v
      · rw [hxv, hnew, beside_new]
        exact ⟨rfl, rfl, rfl⟩
      · rw [hother x hxp hxv]
        exact ⟨rfl, rfl, rfl⟩
  · by_cases hxp : x = p
    · rw [hxp, hpbeside] at hlt
      omega
    · by_cases hxv : x = v
      · rw [hxv, beside_new] at hlt
        simp only at hlt
        omega
      · rw [hother x hxp hxv]
  · rw [State.setNode_heap_ne, hx]
    rintro rfl
    rw [hpbeside] at hlt
    omega
  · by_cases hxp : x = p
    · rw [hxp, hpbeside] at hx
      omega
    · by_cases hxv : x = v
      · rw [hxv, beside_new] at hx
        simp only at hx
        omega
      · rw [hother x hxp hxv] at hx'
        omega

end Upper

/-! ## Splitting a full node -/

/-- The call that links the new node `v` beside `q` with key `k`, which is slot `i` of `q`.  At the
root the lower end of the interval is the key that `cbtree_grow` puts over it. -/
structure Pending (geo : Geo) (m r : Nat) (s : State w) (G : Labels w) (q : Ptr w) (i k : Nat)
    (v : Ptr w) : Prop where
  tree : Tree geo m r (G q).lvl s G
  lvl : 1 ≤ (G q).lvl
  lo : (G q).lo < k
  hi : k < (G q).hi
  read : Reads geo s (.slot q i) k
  new_lvl : (G v).lvl = 0
  new_ne : v ≠ 0#w
  new : ∃ nv, s.heap v = some (.node nv) ∧ Holds geo nv []
  root : (G q).lvl = s.height → ∃ l c, (G q).page = l ++ [((G q).lo, c)]

/-- The memory that the call needs is not there. -/
def Pending.Fails (geo : Geo) (s : State w) (G : Labels w) (q : Ptr w) : Prop :=
  Starved geo (G.needed geo (s.height - (G q).lvl) q) s

/-- How such a call ends. -/
def Linking (geo : Geo) (m r : Nat) (s : State w) (G : Labels w) (q : Ptr w) (k : Nat) (v : Ptr w)
    (result : Except Fault (Int × State w)) : Prop :=
  (result = .error .nullDeref ∧ ¬Provided geo (G.needed geo (s.height - (G q).lvl) q) s) ∨
  (∃ s', result = .ok (-ENOMEM, s') ∧ Kept s s' ∧ NoNew s s' ∧ Pending.Fails geo s G q ∧
    (StarvedBare geo (G.needed geo (s.height - (G q).lvl) q) s → Traceless s s')) ∨
  ∃ s' G', result = .ok (0, s') ∧ Tree geo m r ((G q).lvl + 1) s' G' ∧
    Below ((G q).lvl + 1) s s' (G.beside k v q) G' ∧
    Took geo ((G q).lvl + 1) (G.needed geo (s.height - (G q).lvl) q) s s' (G.beside k v q) G' ∧
    Grafted geo (s.height - (G q).lvl) G G' q k v

/-- The node `p` of level `L` has been split: `new` holds the upper half of its pairs. -/
structure Split (geo : Geo) (m r L : Nat) (s s' : State w) (G G' : Labels w) (p new : Ptr w) :
    Prop where
  tree : Tree geo m r L s' G'
  below : Below L s s' G G'
  new_free : s.heap new = none
  new_lvl : (G' new).lvl = L
  only_new : ∀ x, (G x).lvl = 0 → (G' x).lvl = L → x = new
  page : (G' p).page = (G p).page.drop (geo.noPairs / 2)
  new_page : (G' new).page = (G p).page.take (geo.noPairs / 2)
  other_page : ∀ x, x ≠ p → (G x).lvl = L → (G' x).page = (G x).page
  hi : (G' new).hi = (G p).hi
  mid : (G' new).lo = (G' p).hi
  lo : p ≠ s.node → (G' p).lo = (G p).lo
  par : ∀ c, 1 ≤ (G c).lvl → (G c).lvl + 1 = L → (G c).par = p →
    (G' c).par = p ∨ (G' c).par = new
  last : ∃ l c, (G' new).page = l ++ [((G' p).hi, c)]
  positive : G.Positive → G'.Positive
  crowded : ∀ i, G.Keeps geo (s.height - L) p i → G.Crowded geo L G.size →
    G'.Crowded geo L (G'.shares geo new p i)

/-- The labels `G₁` are `G`, but for the lower end of `p` when it is the root. -/
structure Rebased (s : State w) (G G₁ : Labels w) (p : Ptr w) (low : Nat) : Prop where
  same : ∀ x, x ≠ p → G₁ x = G x
  lvl : (G₁ p).lvl = (G p).lvl
  par : (G₁ p).par = (G p).par
  hi : (G₁ p).hi = (G p).hi
  page : (G₁ p).page = (G p).page
  lo : p ≠ s.node → (G₁ p).lo = (G p).lo
  root : p = s.node → (G₁ p).lo = low

theorem Rebased.each {G₁ : Labels w} {low : Nat} (h : Rebased s G G₁ p low) (x : Ptr w) :
    (G₁ x).lvl = (G x).lvl ∧ (G₁ x).par = (G x).par ∧ (G₁ x).page = (G x).page := by
  by_cases hxp : x = p
  · rw [hxp]
    exact ⟨h.lvl, h.par, h.page⟩
  · rw [h.same x hxp]
    exact ⟨rfl, rfl, rfl⟩

/-- The interval of a root can be made to begin with its last key. -/
theorem Tree.rebase_last {l : Page w} {e : Nat × Ptr w} (h : Tree geo m r L s G)
    (hp : L ≤ (G p).lvl) (hpage : (G p).page = l ++ [e]) :
    ∃ G₁, Tree geo m r L s G₁ ∧ Rebased s G G₁ p e.1 := by
  by_cases hroot : p = s.node
  · have hdesc := (h.chain p hp).descending
    rw [hpage] at hdesc
    obtain ⟨hlvl, hpar, hhi, hpages⟩ := rebase_same (G := G) s.node e.1 p
    refine ⟨G.rebase s.node e.1, h.rebase fun a ha => ?_, fun x hx => rebase_of_ne (hroot ▸ hx), hlvl,
      hpar, hhi, hpages, fun hne => absurd hroot hne, fun _ => ?_⟩
    · rw [← hroot, hpage] at ha
      cases List.mem_append.mp ha with
      | inl hmem =>
        exact (hdesc.of_append.2.2 a hmem e (by simp)).le
      | inr hmem =>
        rw [List.mem_singleton.mp hmem]
    · rw [hroot, rebase_self]
  · exact ⟨G, h, fun _ _ => rfl, rfl, rfl, rfl, rfl, fun _ => rfl, fun heq => absurd heq hroot⟩

namespace Split

variable {new : Ptr w}

theorem room (h : Split geo m r L s s' G G' p new) (hN : 2 ≤ geo.noPairs)
    (hlen : (G p).page.length ≤ geo.noPairs) :
    (G' p).page.length < geo.noPairs ∧ (G' new).page.length < geo.noPairs := by
  rw [h.page, h.new_page, List.length_drop, List.length_take]
  omega

/-- No pair of the level is lost and none is new. -/
theorem pairAt (h : Split geo m r L s s' G G' p new) (hL : 1 ≤ L) (hp : (G p).lvl = L)
    (e : Nat × Ptr w) : PairAt G' L e ↔ PairAt G L e := by
  constructor
  · rintro ⟨x, hx, he⟩
    by_cases hxn : x = new
    · rw [hxn, h.new_page] at he
      exact ⟨p, hp, List.mem_of_mem_take he⟩
    · by_cases hxp : x = p
      · rw [hxp, h.page] at he
        exact ⟨p, hp, List.mem_of_mem_drop he⟩
      · by_cases hG : 1 ≤ (G x).lvl
        · have hlvl := h.below.lvl x hG
          exact ⟨x, by omega, by rwa [h.other_page x hxp (by omega)] at he⟩
        · exact absurd (h.only_new x (by omega) hx) hxn
  · rintro ⟨x, hx, he⟩
    by_cases hxp : x = p
    · rw [hxp, ← List.take_append_drop (geo.noPairs / 2) (G p).page] at he
      cases List.mem_append.mp he with
      | inl hmem =>
        exact ⟨new, h.new_lvl, by rw [h.new_page]; exact hmem⟩
      | inr hmem =>
        exact ⟨p, by rw [h.below.lvl p (by omega), hp], by rw [h.page]; exact hmem⟩
    · exact ⟨x, by rw [h.below.lvl x (by omega), hx], by rw [h.other_page x hxp hx]; exact he⟩

/-- Where a slot of one of the halves was before. -/
theorem old_slot (h : Split geo m r L s s' G G' p new) {x : Ptr w} {l₁ l₂ : Page w} {e : Nat × Ptr w}
    (hfull : G.size p = geo.noPairs) (hx : x = p ∨ x = new) (hpage : (G' x).page = l₁ ++ e :: l₂) :
    ∃ l₁' l₂', (G p).page = l₁' ++ e :: l₂' ∧
      (x = new ∧ l₁'.length < geo.noPairs / 2 ∨ x = p ∧ geo.noPairs / 2 ≤ l₁'.length) ∧
      (∀ a ∈ l₁.getLast?, a ∈ l₁'.getLast? ∧ l₁'.length ≠ geo.noPairs / 2) ∧
      ∀ a ∈ l₂.head?, a ∈ l₂'.head? ∧ l₁'.length + 1 ≠ geo.noPairs / 2 := by
  have hlen : geo.noPairs / 2 ≤ (G p).page.length := by
    have : (G p).page.length = geo.noPairs := hfull
    omega
  rcases hx with rfl | rfl
  · rw [h.page] at hpage
    obtain ⟨l₁', heq, hle, hlast⟩ := slot_of_drop hpage hlen
    exact ⟨l₁', l₂, heq, .inr ⟨rfl, hle⟩, hlast, fun a ha => ⟨ha, by omega⟩⟩
  · rw [h.new_page] at hpage
    obtain ⟨l₂', heq, hlt, hhead⟩ := slot_of_take hpage hlen
    exact ⟨l₁, l₂', heq, .inl ⟨rfl, hlt⟩, fun a ha => ⟨ha, by omega⟩, hhead⟩

/-- The half that gets one more pair has the size that `shares` foresees. -/
theorem shares_le {x y : Ptr w} {i : Nat} (h : Split geo m r L s s' G G' p new) (hfull : G.size p = geo.noPairs)
    (hy : y = p ∨ y = new) (hi : i < geo.noPairs / 2 ↔ y = new) :
    G'.shares geo new p i x ≤ G'.size x + if x = y then 1 else 0 := by
  have hlen : (G p).page.length = geo.noPairs := hfull
  unfold Labels.shares
  split
  next hxn =>
    have hsize : G'.size x = geo.noPairs / 2 := by
      rw [hxn, Labels.size, h.new_page, List.length_take]
      omega
    rw [hsize, upperFill, hxn]
    simp only [hi, eq_comm (a := new)]
    exact le_rfl
  next hxn =>
    split
    next hxp =>
      have hsize : G'.size x = geo.noPairs - geo.noPairs / 2 := by
        rw [hxp, Labels.size, h.page, List.length_drop, hlen]
      rw [hsize, lowerFill, hxp]
      simp only [hi]
      by_cases hyn : y = new
      · rw [if_pos hyn]
        exact Nat.le_add_right _ _
      · rw [if_neg hyn, if_pos (hy.resolve_right hyn).symm]
    next => exact Nat.le_add_right _ _

/-- The parent `p` of `q` has been split and one of the halves gets the slot for the new node. -/
theorem grafted {l₁ l₂ : Page w} {k k₀ d : Nat} (hsplit : Split geo m r L s s' G G' p new)
    (h : Tree geo m r L s G) (hL : 2 ≤ L) (hq : (G q).lvl + 1 = L) (hpar : (G q).par = p) (hp : (G p).lvl = L)
    (hd : d = s.height - L) (hfull : G.size p = geo.noPairs) (hv : (G' v).lvl = 0)
    (hpage : (G' (G' q).par).page = l₁ ++ (k₀, q) :: l₂) (hlvl : (G' (G' q).par).lvl = L) :
    Grafted geo (d + 1) G (G'.linked (G' q).par l₁ k v q ((k₀, q) :: l₂)) q k v where
  positive hk hpos := (hsplit.positive hpos).linked hpage hk
  crowded i hkeeps hcrowded := by
    have hside := hsplit.par q (by omega) hq hpar
    generalize (G' q).par = p' at *
    obtain ⟨l₁', l₂', hold, hhalf, hlast, hhead⟩ := hsplit.old_slot hfull hside hpage
    obtain ⟨hleft, hright, hup⟩ := hkeeps k₀ l₁' l₂' (by rw [hpar]; exact hold)
    rw [hpar] at hleft hright hup
    have hnewlvl := hsplit.new_lvl
    have hplvl : (G' p).lvl = L := by rw [hsplit.below.lvl p (by omega), hp]
    have hqlvl : (G' q).lvl = (G q).lvl := hsplit.below.lvl q (by omega)
    have hpn : p ≠ new := by
      intro heq
      obtain ⟨n, hn, -⟩ := h.stored p (by omega)
      rw [heq, hsplit.new_free] at hn
      cases hn
    have hqv : q ≠ v := by rintro rfl; omega
    have hcut := hsplit.crowded l₁'.length (hd ▸ hup hfull) (hcrowded.mono (by omega))
    have hi : l₁'.length < geo.noPairs / 2 ↔ p' = new := by
      rcases hhalf with ⟨heq, hlt⟩ | ⟨heq, hge⟩
      · exact iff_of_true hlt heq
      · exact iff_of_false (by omega) fun hn => hpn (heq.symm.trans hn)
    -- the nodes next to `q` are as before
    have hchild : ∀ e, e ∈ l₁ ∨ e ∈ l₂ → e ∈ l₁' ∨ e ∈ l₂' →
        (G'.linked p' l₁ k v q ((k₀, q) :: l₂)).shares geo v q i e.2 = G.size e.2 := by
      intro e he he'
      have hmem : e ∈ (G' p').page := by
        rw [hpage]
        simp only [List.mem_append, List.mem_cons]
        tauto
      have hmem' : e ∈ (G p).page := by
        rw [hold]
        simp only [List.mem_append, List.mem_cons]
        tauto
      have hev := (hsplit.tree.other_child (q := q) (by omega) (by omega) hmem hv).1
      have heq : e.2 ≠ q := hsplit.tree.slot_ne (by omega) (by omega) hpage he
      obtain ⟨hclvl, -⟩ := hsplit.tree.child_of_mem (k := e.1) (c := e.2) (by omega) (by omega) hmem
      obtain ⟨hclvl', -⟩ := h.child_of_mem (k := e.1) (c := e.2) (by omega) (by omega) hmem'
      have hep : e.2 ≠ p' := by rintro hep; rw [hep] at hclvl; omega
      rw [shares_of_ne hev heq, linked_size hpage hev, if_neg hep, Nat.add_zero]
      exact congrArg List.length (hsplit.below.span e.2 (by omega) (by omega)).2.2
    rw [hq]
    refine Labels.Crowded.linked hcut hsplit.tree hL hlvl hpage hv (fun x hxv hxq => ?_) ?_
      (fun e he => ?_) (fun e he => ?_)
    · rw [shares_of_ne hxv hxq, linked_size hpage hxv]
      exact hsplit.shares_le hfull hside hi
    · rw [shares_new, shares_old hqv, upperFill_add_lowerFill]
      exact Nat.lt_succ_self _
    · obtain ⟨he', hne⟩ := hlast e he
      rw [hchild e (.inl (List.mem_of_mem_getLast? he)) (.inl (List.mem_of_mem_getLast? he')), shares_new]
      exact hleft e he' fun hcutHere => hne hcutHere.2
    · obtain ⟨he', hne⟩ := hhead e he
      rw [hchild e (.inr (List.mem_of_mem_head? he)) (.inr (List.mem_of_mem_head? he')), shares_old hqv]
      exact hright e he' fun hcutHere => hne hcutHere.2

end Split

section Full

variable {up : KeyPtr w → Ptr w → Nat → State w → Except Fault (Int × State w)}
  {kp : KeyPtr w} {key n : Words w} {l₁ l₂ : Page w} {new : Ptr w}

/-- The levels above have entered the new node: `s₁`, `G₁` are from before the call for the next
level, `s₂`, `G₂` from after it. -/
structure Entered (L : Nat) (s₁ s₂ : State w) (G₁ G₂ : Labels w) (p new : Ptr w) (k : Nat) :
    Prop where
  one_le : 1 ≤ L
  lvl : (G₁ p).lvl = L
  fresh : (G₁ new).lvl = 0
  below : Below (L + 1) s₁ s₂ (G₁.beside k new p) G₂

namespace Entered

variable {s₁ s₂ : State w} {G₁ G₂ : Labels w} {k : Nat} {x c : Ptr w}

theorem ne (h : Entered L s₁ s₂ G₁ G₂ p new k) : p ≠ new := by
  rintro rfl
  have hone := h.one_le
  have hlvl := h.lvl
  have hfresh := h.fresh
  omega

theorem beside_lvl (h : Entered L s₁ s₂ G₁ G₂ p new k) (hx : 1 ≤ (G₁ x).lvl) :
    (G₁.beside k new p x).lvl = (G₁ x).lvl := by
  have hxn : x ≠ new := by
    rintro rfl
    have hfresh := h.fresh
    omega
  by_cases hxp : x = p
  · rw [hxp, beside_old h.ne]
  · rw [beside_of_ne hxn hxp]

/-- The old node: its upper end is the key of the new one now. -/
theorem old (h : Entered L s₁ s₂ G₁ G₂ p new k) :
    (G₂ p).lvl = L ∧ (G₂ p).lo = (G₁ p).lo ∧ (G₂ p).hi = k ∧ (G₂ p).page = (G₁ p).page := by
  have hone := h.one_le
  have hlvl := h.lvl
  have hlabel := beside_old (G := G₁) (k := k) h.ne
  have hlvl' := h.below.lvl p (by rw [hlabel]; simp only; omega)
  obtain ⟨hlo, hhi, hpage⟩ := h.below.span p (by rw [hlabel]; simp only; omega)
    (by rw [hlabel]; simp only; omega)
  rw [hlabel] at hlvl' hlo hhi hpage
  exact ⟨hlvl'.trans hlvl, hlo, hhi, hpage⟩

/-- The new node, which is still empty. -/
theorem fresh_label (h : Entered L s₁ s₂ G₁ G₂ p new k) :
    (G₂ new).lvl = L ∧ (G₂ new).lo = k ∧ (G₂ new).hi = (G₁ p).hi ∧ (G₂ new).page = [] := by
  have hone := h.one_le
  have hlvl := h.lvl
  have hlabel := beside_new (G := G₁) (k := k) (v := new) (q := p)
  have hlvl' := h.below.lvl new (by rw [hlabel]; simp only; omega)
  obtain ⟨hlo, hhi, hpage⟩ := h.below.span new (by rw [hlabel]; simp only; omega)
    (by rw [hlabel]; simp only; omega)
  rw [hlabel] at hlvl' hlo hhi hpage
  exact ⟨hlvl'.trans hlvl, hlo, hhi, hpage⟩

theorem lvl_kept (h : Entered L s₁ s₂ G₁ G₂ p new k) (hx : 1 ≤ (G₁ x).lvl) :
    (G₂ x).lvl = (G₁ x).lvl := by
  have hlvl := h.beside_lvl hx
  rw [h.below.lvl x (by omega), hlvl]

/-- The other nodes of this level and those below it keep their span and their page. -/
theorem span_kept (h : Entered L s₁ s₂ G₁ G₂ p new k) (hx : 1 ≤ (G₁ x).lvl)
    (hxL : (G₁ x).lvl ≤ L) (hxp : x ≠ p) :
    (G₂ x).lo = (G₁ x).lo ∧ (G₂ x).hi = (G₁ x).hi ∧ (G₂ x).page = (G₁ x).page := by
  have hlvl := h.beside_lvl hx
  have hxn : x ≠ new := by
    rintro rfl
    have hfresh := h.fresh
    omega
  have hspan := h.below.span x (by omega) (by omega)
  rwa [beside_of_ne hxn hxp] at hspan

theorem par_kept (h : Entered L s₁ s₂ G₁ G₂ p new k) (hx : 1 ≤ (G₁ x).lvl)
    (hxL : (G₁ x).lvl < L) : (G₂ x).par = (G₁ x).par := by
  have hlvl := h.beside_lvl hx
  have hxn : x ≠ new := by
    rintro rfl
    have hfresh := h.fresh
    omega
  have hxp : x ≠ p := by
    rintro rfl
    have hp := h.lvl
    omega
  have hpar := h.below.par x (by omega) (by omega)
  rwa [beside_of_ne hxn hxp] at hpar

theorem heap_kept (h : Entered L s₁ s₂ G₁ G₂ p new k) {o : Obj w} (hxL : (G₁ x).lvl ≤ L)
    (hx : s₁.heap x = some o) : s₂.heap x = some o := by
  have hp := h.lvl
  refine h.below.heap x o ?_ hx
  by_cases hxp : x = p
  · rw [hxp, beside_old h.ne]
    simp only
    omega
  · by_cases hxn : x = new
    · rw [hxn, beside_new]
      simp only
      omega
    · rw [beside_of_ne hxn hxp]
      omega

/-- Nodes that the levels above have made are above this level. -/
theorem fresh_above (h : Entered L s₁ s₂ G₁ G₂ p new k) (hxn : x ≠ new)
    (hx : (G₁ x).lvl = 0) (hx' : 1 ≤ (G₂ x).lvl) : s₁.heap x = none ∧ L + 1 ≤ (G₂ x).lvl := by
  have hxp : x ≠ p := by
    rintro rfl
    have hone := h.one_le
    have hlvl := h.lvl
    omega
  exact h.below.fresh x (by rw [beside_of_ne hxn hxp]; exact hx) hx'

/-- A node of this level is one of the two or was there before. -/
theorem lvl_back (h : Entered L s₁ s₂ G₁ G₂ p new k) (hx : (G₂ x).lvl = L)
    (hxn : x ≠ new) : (G₁ x).lvl = L := by
  have hone := h.one_le
  by_cases hx₁ : 1 ≤ (G₁ x).lvl
  · rw [← h.lvl_kept hx₁]
    exact hx
  · have habove := (h.fresh_above hxn (by omega) (by omega)).2
    omega

/-- The children of a node of this level are as they were. -/
theorem child_kept {k' : Nat} (h : Entered L s₁ s₂ G₁ G₂ p new k)
    (htree : Tree geo m r L s₁ G₁) (hx : (G₁ x).lvl = L) (hmem : (k', c) ∈ (G₁ x).page)
    (hlvl : 2 ≤ (G₁ x).lvl) : SameSpan (G₁ c) (G₂ c) := by
  have hp := h.lvl
  obtain ⟨hclvl, -⟩ := htree.child_of_mem (by omega) hlvl hmem
  have hcp : c ≠ p := by
    rintro rfl
    omega
  obtain ⟨hlo, hhi, -⟩ := h.span_kept (x := c) (by omega) (by omega) hcp
  exact ⟨h.lvl_kept (by omega), h.par_kept (by omega) (by omega), hlo, hhi⟩

/-- Two nodes of one level are not the root. -/
theorem below_root (h : Entered L s₁ s₂ G₁ G₂ p new k) (h₂ : Tree geo m r (L + 1) s₂ G₂) :
    L + 1 ≤ s₂.height := by
  have hone := h.one_le
  have hold := h.old.1
  have hnew := h.fresh_label.1
  cases Nat.eq_or_lt_of_le (h₂.lvl_le p) with
  | inl heq =>
    exact absurd ((h₂.eq_root (by omega) heq).trans
      (h₂.eq_root (p := new) (by omega) (by omega)).symm) h.ne
  | inr hlt =>
    omega

end Entered

/-- The pairs are shared after the new node has been linked. -/
theorem share_pairs {s₁ s₂ : State w} {G₁ G₂ : Labels w} {a b a' : Page w} {c : Ptr w} {k : Nat}
    {nv : Words w} (h₁ : Tree geo m r L s₁ G₁) (h : Entered L s₁ s₂ G₁ G₂ p new k)
    (hnewne : new ≠ 0#w) (hnode : s₁.heap p = some (.node n))
    (hnewnode : s₁.heap new = some (.node nv)) (hnewholds : Holds geo nv [])
    (hpage : (G₁ p).page = a ++ b) (ha' : a = a' ++ [(k, c)]) (hlen : a.length = (a ++ b).length / 2)
    (hfull : (a ++ b).length = geo.noPairs) (hN : 4 ≤ geo.noPairs) (hm : m ≤ geo.noPairs / 2)
    (h₂ : Tree geo m r (L + 1) s₂ G₂) :
    ∃ nv₂ n₂, s₂.load new = .ok nv₂ ∧ s₂.load p = .ok n₂ ∧
      Tree geo m r L ((s₂.setNode new (splitNode geo geo.noPairs nv₂ n₂).1).setNode p
        (splitNode geo geo.noPairs nv₂ n₂).2) (G₂.halved new p a b) := by
  have hL := h.one_le
  have hp := h.lvl
  obtain ⟨hlvlP, hloP, hhiP, hpageP⟩ := h.old
  obtain ⟨hlvlN, hloN, hhiN, hpageN⟩ := h.fresh_label
  have hnode₂ : s₂.heap p = some (.node n) := h.heap_kept (by omega) hnode
  have hnewnode₂ : s₂.heap new = some (.node nv) := h.heap_kept (by rw [h.fresh]; omega) hnewnode
  obtain ⟨n', hn', hholds⟩ := h₁.stored p (by omega)
  have hnn : n' = n := by
    rw [hnode] at hn'
    exact (Obj.node.inj (Option.some.inj hn')).symm
  subst hnn
  -- what the two nodes hold after the loop
  rw [hpage] at hholds
  obtain ⟨hsplitN, hsplitP⟩ := hholds.split hnewholds (by omega)
  rw [hfull] at hlen hsplitN hsplitP
  rw [← hlen, List.take_left] at hsplitN
  rw [← hlen, List.drop_left] at hsplitP
  have hlenB : a.length + b.length = geo.noPairs := by rw [← hfull, List.length_append]
  refine ⟨nv, n', State.load_eq_ok.mpr ⟨hnewne, hnewnode₂⟩,
    State.load_eq_ok.mpr ⟨h₁.ne_null (by omega), hnode₂⟩, ?_⟩
  refine h₂.halve hL (h.below_root h₂) hlvlP hlvlN h.ne (hpageP.trans hpage) hpageN ?_ ?_
    (hloN.trans hhiP.symm) (by omega) (by omega) (fun x hx hxp hxn => ?_) rfl
    (fun x hxn hxp _ => ?_) ?_ hsplitN (State.setNode_heap_self _) hsplitP
  · have hchain := h₁.chain p (by omega)
    rw [hloP, hhiN, ← hpage]
    exact chain_congr hchain (by omega) fun _ _ hmem => h.child_kept h₁ hp hmem
  · rw [hhiP, ha']
    exact endKey_snoc _ _ _
  · have hx₁ := h.lvl_back hx hxn
    obtain ⟨hxlo, hxhi, hxpage⟩ := h.span_kept (by omega) (by omega) hxp
    rw [hxlo, hxhi, hxpage]
    refine ⟨chain_congr (h₁.chain x (by omega)) (by omega) fun _ _ hmem => h.child_kept h₁ hx₁ hmem,
      h₁.fill x (by omega) ?_⟩
    -- two nodes of one level are not the root
    rintro rfl
    have hle := h₁.lvl_le s₁.node
    have htop := h₁.root_lvl (by omega)
    exact hxp (h₁.eq_root (by omega) (by omega)).symm
  · rw [State.setNode_heap_ne _ hxp, State.setNode_heap_ne _ hxn]
  · rw [State.setNode_heap_ne _ h.ne.symm]
    exact State.setNode_heap_self _

/-- The whole step: the full node `p` of `s`, `G`, whose lower end may have been moved in `G₁`,
and the new node have shared the pairs in `s₃`, `G₃`. -/
structure Shared (geo : Geo) (m r L : Nat) (s s₁ s₂ s₃ : State w) (G G₁ G₂ G₃ : Labels w)
    (p new : Ptr w) (k low : Nat) (a b : Page w) : Prop where
  before : Tree geo m r L s G
  between : Tree geo m r L s₁ G₁
  after : Tree geo m r L s₃ G₃
  entered : Entered L s₁ s₂ G₁ G₂ p new k
  kept : ∀ x o, s.heap x = some o → s₁.heap x = some o
  new_free : s.heap new = none
  only : ∀ x n, s₁.heap x = some (.node n) → (∃ n₀, s.heap x = some (.node n₀)) ∨ x = new
  rebased : Rebased s G G₁ p low
  page : (G p).page = a ++ b
  length : a.length = geo.noPairs / 2
  last : ∃ l c, a = l ++ [(k, c)]
  heap : ∀ x, x ≠ p → x ≠ new → s₃.heap x = s₂.heap x
  labels : G₃ = G₂.halved new p a b
  grafted : Grafted geo (s.height - L) G₁ G₂ p k new

namespace Shared

variable {s₁ s₂ s₃ : State w} {G₁ G₂ G₃ : Labels w} {k low : Nat} {a b : Page w} {x c : Ptr w}

theorem old_lvl (h : Shared geo m r L s s₁ s₂ s₃ G G₁ G₂ G₃ p new k low a b) : (G p).lvl = L :=
  h.rebased.lvl.symm.trans h.entered.lvl

theorem new_fresh (h : Shared geo m r L s s₁ s₂ s₃ G G₁ G₂ G₃ p new k low a b) : (G new).lvl = 0 :=
  (h.rebased.each new).1.symm.trans h.entered.fresh

theorem span (h : Shared geo m r L s s₁ s₂ s₃ G G₁ G₂ G₃ p new k low a b) (x : Ptr w) :
    (G₃ x).lvl = (G₂ x).lvl ∧ (G₃ x).lo = (G₂ x).lo ∧ (G₃ x).hi = (G₂ x).hi := by
  rw [h.labels]
  exact halved_span x

theorem lvl_kept (h : Shared geo m r L s s₁ s₂ s₃ G G₁ G₂ G₃ p new k low a b) (hx : 1 ≤ (G x).lvl) :
    (G₃ x).lvl = (G x).lvl := by
  have heach := (h.rebased.each x).1
  rw [(h.span x).1, h.entered.lvl_kept (by omega), heach]

/-- The other nodes of this level and those below it. -/
theorem span_kept (h : Shared geo m r L s s₁ s₂ s₃ G G₁ G₂ G₃ p new k low a b)
    (hx : 1 ≤ (G x).lvl) (hxL : (G x).lvl ≤ L) (hxp : x ≠ p) :
    (G₃ x).lo = (G x).lo ∧ (G₃ x).hi = (G x).hi ∧ (G₃ x).page = (G x).page := by
  have heach := (h.rebased.each x).1
  have hxn : x ≠ new := by
    rintro rfl
    have hfresh := h.new_fresh
    omega
  obtain ⟨hlo, hhi, hpage⟩ := h.entered.span_kept (x := x) (by omega) (by omega) hxp
  rw [h.rebased.same x hxp] at hlo hhi hpage
  rw [(h.span x).2.1, (h.span x).2.2, h.labels, halved_page hxn hxp]
  exact ⟨hlo, hhi, hpage⟩

theorem fresh_above (h : Shared geo m r L s s₁ s₂ s₃ G G₁ G₂ G₃ p new k low a b) (hxn : x ≠ new)
    (hx : (G x).lvl = 0) (hx' : 1 ≤ (G₃ x).lvl) : s.heap x = none ∧ L + 1 ≤ (G₃ x).lvl := by
  have heach := (h.rebased.each x).1
  rw [(h.span x).1] at hx' ⊢
  obtain ⟨hnone, habove⟩ := h.entered.fresh_above hxn (by omega) hx'
  refine ⟨?_, habove⟩
  cases hobj : s.heap x with
  | none => rfl
  | some o =>
    rw [h.kept x o hobj] at hnone
    cases hnone

/-- The children that moved hang off `new` now. -/
theorem par_cases (h : Shared geo m r L s s₁ s₂ s₃ G G₁ G₂ G₃ p new k low a b) (hxn : x ≠ new)
    (hxp : x ≠ p) : (G₃ x).par = (G₂ x).par ∨ (G₃ x).par = new := by
  rw [h.labels]
  unfold Labels.halved
  rw [if_neg hxn, if_neg hxp]
  split
  · exact .inr rfl
  · exact .inl rfl

/-- Further down nothing has moved. -/
theorem par_kept (h : Shared geo m r L s s₁ s₂ s₃ G G₁ G₂ G₃ p new k low a b)
    (hx : 1 ≤ (G x).lvl) (hxL : (G x).lvl + 1 < L) : (G₃ x).par = (G x).par := by
  have hp := h.old_lvl
  have hxn : x ≠ new := by
    rintro rfl
    have hfresh := h.new_fresh
    omega
  have hxp : x ≠ p := by
    rintro rfl
    omega
  have hx₁ : G₁ x = G x := h.rebased.same x hxp
  have hlabel : G₃ x = G₂ x := by
    rw [h.labels]
    refine halved_of_ne hxn hxp fun _ hin => ?_
    obtain ⟨⟨k', c⟩, hmem, rfl⟩ := List.mem_map.mp hin
    obtain ⟨hclvl, -⟩ := h.before.child_of_mem (p := p) (k := k') (c := c) (by omega) (by omega) (by
      rw [h.page]; simp [hmem])
    simp only at hxL
    omega
  rw [hlabel, h.entered.par_kept (by rw [hx₁]; exact hx) (by rw [hx₁]; omega), hx₁]

theorem below (h : Shared geo m r L s s₁ s₂ s₃ G G₁ G₂ G₃ p new k low a b) : Below L s s₃ G G₃ where
  lvl x hx := h.lvl_kept hx
  span x hx hlt := h.span_kept hx hlt.le (by
    rintro rfl
    have hp := h.old_lvl
    omega)
  par x hx hlt := h.par_kept hx hlt
  heap x o hlt hx := by
    have hp := h.old_lvl
    have heach := (h.rebased.each x).1
    have hxp : x ≠ p := by
      rintro rfl
      omega
    have hxn : x ≠ new := by
      rintro rfl
      rw [h.new_free] at hx
      cases hx
    rw [h.heap x hxp hxn]
    exact h.entered.heap_kept (by omega) (h.kept x o hx)
  fresh x hx hx' := by
    by_cases hxn : x = new
    · rw [hxn, (h.span new).1, h.entered.fresh_label.1]
      exact ⟨h.new_free, le_rfl⟩
    · obtain ⟨hnone, habove⟩ := h.fresh_above hxn hx hx'
      exact ⟨hnone, by omega⟩
  live x n hx := by
    have hone := h.entered.one_le
    by_cases hxp : x = p
    · rw [hxp, (h.span p).1, h.entered.old.1]
      exact .inr hone
    · by_cases hxn : x = new
      · rw [hxn, (h.span new).1, h.entered.fresh_label.1]
        exact .inr hone
      · rw [h.heap x hxp hxn] at hx
        rw [(h.span x).1]
        cases h.entered.below.live x n hx with
        | inl hnode =>
          obtain ⟨n₁, hx₁⟩ := hnode
          exact .inl ((h.only x n₁ hx₁).resolve_right hxn)
        | inr hlive =>
          exact .inr hlive

theorem positive (h : Shared geo m r L s s₁ s₂ s₃ G G₁ G₂ G₃ p new k low a b) (hpos : G.Positive) :
    G₃.Positive := by
  have hp := h.old_lvl
  have hone := h.entered.one_le
  obtain ⟨l, c, ha⟩ := h.last
  have hk : 0 < k := hpos p (by omega) (k, c) (by rw [h.page, ha]; simp)
  have hpos₁ : G₁.Positive := hpos.congr (fun x => (h.rebased.each x).1) fun x => (h.rebased.each x).2.2
  rw [h.labels]
  exact (h.grafted.positive hk hpos₁).halved (by rw [h.entered.old.1]; omega)
    (h.entered.old.2.2.2.trans (h.rebased.page.trans h.page))

theorem crowded (h : Shared geo m r L s s₁ s₂ s₃ G G₁ G₂ G₃ p new k low a b) {i : Nat}
    (hkeeps : G.Keeps geo (s.height - L) p i) (hcrowded : G.Crowded geo L G.size) :
    G₃.Crowded geo L (G₃.shares geo new p i) := by
  have hp := h.old_lvl
  have hone := h.entered.one_le
  have hsize : G₁.size = G.size := funext fun x => congrArg List.length (h.rebased.each x).2.2
  have hcrowded₁ : G₁.Crowded geo L G₁.size := by
    rw [hsize]
    exact hcrowded.congr (fun x => (h.rebased.each x).1) fun x => (h.rebased.each x).2.2
  have hlinked := h.grafted.crowded i
    (hkeeps.congr (fun x => (h.rebased.each x).2.1) fun x => (h.rebased.each x).2.2)
    (by rw [h.entered.lvl]; exact hcrowded₁)
  rw [h.entered.lvl] at hlinked
  rw [h.labels]
  exact hcrowded₁.halved hlinked h.between hone h.entered.lvl h.entered.fresh
    (h.rebased.page.trans h.page) h.entered.below

theorem split (h : Shared geo m r L s s₁ s₂ s₃ G G₁ G₂ G₃ p new k low a b) : Split geo m r L s s₃ G G₃ p new where
  tree := h.after
  below := h.below
  new_free := h.new_free
  new_lvl := by rw [(h.span new).1, h.entered.fresh_label.1]
  only_new x hx hx' := by
    by_contra hxn
    have hone := h.entered.one_le
    have habove := (h.fresh_above hxn hx (by omega)).2
    omega
  page := by rw [h.labels, halved_old h.entered.ne, h.page, ← h.length, List.drop_left]
  new_page := by rw [h.labels, halved_new, h.page, ← h.length, List.take_left]
  other_page x hxp hx := by
    have hone := h.entered.one_le
    exact (h.span_kept (by omega) hx.le hxp).2.2
  hi := by rw [(h.span new).2.2, h.entered.fresh_label.2.2.1, h.rebased.hi]
  mid := by rw [(h.span new).2.1, (h.span p).2.2, h.entered.fresh_label.2.1, h.entered.old.2.2.1]
  lo hne := by rw [(h.span p).2.1, h.entered.old.2.1, h.rebased.lo hne]
  par c hc hcL hcpar := by
    have hp := h.old_lvl
    have hcn : c ≠ new := by
      rintro rfl
      have hfresh := h.new_fresh
      omega
    have hcp : c ≠ p := by
      rintro rfl
      omega
    have hc₁ : G₁ c = G c := h.rebased.same c hcp
    have hsame : (G₂ c).par = p := by
      rw [h.entered.par_kept (by rw [hc₁]; exact hc) (by rw [hc₁]; omega), hc₁, hcpar]
    exact (h.par_cases hcn hcp).imp_left fun heq => heq.trans hsame
  last := by
    obtain ⟨l, c, ha⟩ := h.last
    refine ⟨l, c, ?_⟩
    rw [(h.span p).2.2, h.entered.old.2.2.1, h.labels, halved_new]
    exact ha
  positive := h.positive
  crowded _ := h.crowded

end Shared

/-- The upper half of a full node, which ends with the new separator, and the lower half. -/
theorem Tree.halves (h : Tree geo m r L s G) (hp : L ≤ (G p).lvl) (hN : 4 ≤ geo.noPairs)
    (hlen : (G p).page.length = geo.noPairs) :
    ∃ a k c b e, (G p).page = (a ++ [(k, c)]) ++ (b ++ [e]) ∧ a.length + 1 = geo.noPairs / 2 ∧
      e.1 < k := by
  have hcut := List.take_append_drop (geo.noPairs / 2) (G p).page
  have hupper : ((G p).page.take (geo.noPairs / 2)).length = geo.noPairs / 2 := by
    rw [List.length_take, hlen]
    omega
  have hlower : ((G p).page.drop (geo.noPairs / 2)).length = geo.noPairs - geo.noPairs / 2 := by
    rw [List.length_drop, hlen]
  obtain ⟨a, ⟨k, c⟩, ha⟩ : ∃ l e, (G p).page.take (geo.noPairs / 2) = l ++ [e] :=
    ⟨_, _, (List.dropLast_append_getLast (by
      intro hnil
      rw [hnil, List.length_nil] at hupper
      omega)).symm⟩
  obtain ⟨b, e, hb⟩ : ∃ l e, (G p).page.drop (geo.noPairs / 2) = l ++ [e] :=
    ⟨_, _, (List.dropLast_append_getLast (by
      intro hnil
      rw [hnil, List.length_nil] at hlower
      omega)).symm⟩
  rw [ha, List.length_append, List.length_singleton] at hupper
  rw [ha, hb] at hcut
  refine ⟨a, k, c, b, e, hcut.symm, hupper, ?_⟩
  have hdesc := (h.chain p hp).descending
  rw [← hcut] at hdesc
  exact hdesc.of_append.2.2 (k, c) (by simp) e (by simp)

/-- The node that has been allocated is ready to be linked. -/
theorem NewNode.pending {s₁ : State w} {G₁ : Labels w} {a b : Page w} {k : Nat} {c : Ptr w}
    {e : Nat × Ptr w} (hnew : NewNode geo s s₁ new) (h : Tree geo m r L s G)
    (h₁ : Tree geo m r L s G₁) (hG₁ : Rebased s G G₁ p e.1) (hL : 1 ≤ L) (hp : (G p).lvl = L)
    (hnode : s.heap p = some (.node n)) (hholds : Holds geo n (G p).page)
    (hpage : (G p).page = (a ++ [(k, c)]) ++ (b ++ [e])) (hek : e.1 < k)
    (hfresh : (G new).lvl = 0) : Pending geo m r s₁ G₁ p a.length k new := by
  have hpn : p ≠ new := by
    rintro rfl
    omega
  have htree : Tree geo m r L s₁ G₁ := h₁.kept hnew.kept.head hnew.kept.heap
  have hlvl : (G₁ p).lvl = L := hG₁.lvl.trans hp
  have hchain := htree.chain p (by omega)
  have hmemk : (k, c) ∈ (G₁ p).page := by
    rw [hG₁.page, hpage]
    simp
  have hmeme : e ∈ (G₁ p).page := by
    rw [hG₁.page, hpage]
    simp
  constructor
  case tree => rwa [hlvl]
  case lvl => omega
  case lo => exact (hchain.mem hmeme).1.trans_lt hek
  case hi => exact (hchain.mem hmemk).2
  case read =>
    refine ⟨bkey geo n a.length, ?_, ?_⟩
    · have hload := State.load_eq_ok.mpr ⟨h.ne_null (p := p) (by omega), hnew.kept.heap _ _ hnode⟩
      simp only [KeyPtr.read, hload, ok_bind]
    · have hcut : Holds geo n (a ++ (k, c) :: (b ++ [e])) := by
        rw [hpage, List.append_assoc] at hholds
        exact hholds
      exact hcut.keyNum_append
  case new_lvl => rw [hG₁.same new hpn.symm, hfresh]
  case new_ne => exact hnew.ne
  case new =>
    obtain ⟨nv, hnv, hnvholds, -⟩ := hnew.node
    exact ⟨nv, hnv, hnvholds⟩
  case root =>
    intro htop
    have hheight : s₁.height = s.height := congrArg Head.height hnew.kept.head
    have hroot := h.eq_root (p := p) (by omega) (by omega)
    refine ⟨(a ++ [(k, c)]) ++ b, e.2, ?_⟩
    rw [hG₁.page, hG₁.root hroot, hpage, List.append_assoc _ b]

/-- A node that has been allocated had no label. -/
theorem NewNode.unlabelled {s₁ : State w} (hnew : NewNode geo s s₁ new) (h : Tree geo m r L s G) :
    (G new).lvl = 0 := by
  by_contra hne
  obtain ⟨_, hstored, -⟩ := h.stored new (by omega)
  rw [hnew.free] at hstored
  cases hstored

/-- How a pass over a full node ends: through the `NULL` queue of a failed `kmalloc`, without memory,
or at `goto retry` with the node split. -/
theorem insertRetry_full (up : KeyPtr w → Ptr w → Nat → State w → Except Fault (Int × State w))
    {t : Nat} (hN : 4 ≤ geo.noPairs) (hm : m ≤ geo.noPairs / 2)
    (h : Tree geo m r L s G) (hL : 1 ≤ L) (hp : (G p).lvl = L)
    (hfind : findLevel geo kp L s = .ok (p, s)) (hread : kp.read geo s = .ok key)
    (hpage : (G p).page = l₁ ++ l₂) (h₁ : ∀ e ∈ l₁, keyNum geo key < e.1)
    (h₂ : ∀ e ∈ l₂, e.1 < keyNum geo key) (hfull : l₁.length + l₂.length = geo.noPairs)
    (hup : ∀ s₁ G₁ i k v, s₁.height = s.height → (G₁ p).lvl = L → Pending geo m r s₁ G₁ p i k v →
      Linking geo m r s₁ G₁ p k v (up (.slot p i) v (L + 1) s₁)) :
    (insertRetry geo up kp v L (t + 1) s = .error .nullDeref ∧
      ¬Provided geo (G.needed geo (s.height - L) p + 1) s) ∨
    (∃ s', insertRetry geo up kp v L (t + 1) s = .ok (-ENOMEM, s') ∧ Kept s s' ∧ NoNew s s' ∧
      Starved geo (G.needed geo (s.height - L) p + 1) s ∧
      (StarvedBare geo (G.needed geo (s.height - L) p + 1) s → Traceless s s') ∧
      (Starved geo 1 s → ∃ pool, s' = { s with pool := pool })) ∨
    ∃ new s' G', insertRetry geo up kp v L (t + 1) s = insertRetry geo up kp v L t s' ∧
      Split geo m r L s s' G G' p new ∧ Took geo L (G.needed geo (s.height - L) p + 1) s s' G G' := by
  obtain ⟨n, hnode, -, hholds⟩ := h.load (p := p) (by omega)
  rw [insertRetry_split (by omega) (h.ne_null (by omega)) hfind hnode hread (hpage ▸ hholds) h₁ h₂ hfull]
  have hlen : (G p).page.length = geo.noPairs := by rw [hpage, List.length_append, hfull]
  obtain ⟨a, k, c, b, e, hcut, halen, hek⟩ := h.halves (p := p) (by omega) hN hlen
  have hai : geo.noPairs / 2 - 1 = a.length := by omega
  obtain ⟨G₁, htree₁, hG₁⟩ := h.rebase_last (p := p) (by omega)
    (show (G p).page = ((a ++ [(k, c)]) ++ b) ++ [e] by simp [hcut])
  have hlvl₁ : (G₁ p).lvl = L := hG₁.lvl.trans hp
  rcases cbtreeNodeAlloc_cases geo s with hnull | ⟨pool, hfail, -⟩ | ⟨new, s₁, halloc, hnew⟩
  · left
    refine ⟨?_, not_provided_of_fault hnull⟩
    rw [hnull]
    rfl
  · right; left
    have hstarved := starved_of_fail (n := G.needed geo (s.height - L) p) hfail
    rw [hfail]
    exact ⟨{ s with pool := pool }, rfl, ⟨rfl, fun _ _ hx => hx, id⟩, fun _ n hx => ⟨n, hx⟩,
      hstarved, fun _ => .of_heap rfl, fun _ => ⟨pool, rfl⟩⟩
  -- there is a node; what follows depends on the levels above
  have hfresh := hnew.unlabelled h
  have hheight : s₁.height = s.height := congrArg Head.height hnew.kept.head
  have hneeded : G₁.needed geo (s₁.height - (G₁ p).lvl) p = G.needed geo (s.height - L) p := by
    rw [hheight, hlvl₁]
    exact needed_congr (fun x => (hG₁.each x).2.1) (fun x => congrArg List.length (hG₁.each x).2.2)
      (s.height - L) p
  have hmemory : Starved geo (G.needed geo (s.height - L) p + 1) s ↔ Pending.Fails geo s₁ G₁ p := by
    unfold Pending.Fails
    rw [starved_succ_of_ne halloc hnew.ne, hneeded]
  obtain ⟨nv, hnv, hnvholds, -⟩ := hnew.node
  have hpending := hnew.pending h htree₁ hG₁ hL hp hnode hholds hcut hek hfresh
  rw [halloc, ok_bind]
  simp only [if_neg hnew.ne]
  rw [hai]
  rcases hup s₁ G₁ _ _ _ hheight hlvl₁ hpending with
    ⟨hnull, hnot⟩ | ⟨s₂, hfail, hkept, hnone, hfails, hclean⟩ | ⟨s₂, G₂, hok, htree₂, hbelow, htook, hgraft⟩
  · left
    refine ⟨?_, fun hprovided => hnot ?_⟩
    · rw [hnull]
      rfl
    · rw [hneeded]
      exact ((provided_succ halloc).mp hprovided).2
  · -- the new node is given back
    right; left
    have hlive : s₂.free new = .ok (s₂.setObj new none) :=
      State.free_eq_ok.mpr (.inr ⟨hnew.ne, by rw [hkept.heap _ _ hnv]; simp, rfl⟩)
    have herr : (-ENOMEM : Int) ≠ 0 := by decide
    refine ⟨_, ?_, (hnew.kept.trans hkept).setObj hnew.free none, hnew.noNew_free hnone,
      hmemory.mpr hfails, fun hbare => ?_, fun hstarved => absurd hstarved ?_⟩
    · rw [hfail, ok_bind]
      simp only [if_pos herr, hlive, ok_bind]
    · obtain ⟨hqueue, hbare⟩ := ((starvedBare_succ halloc).mp hbare).resolve_left hnew.ne
      exact hnew.traceless_free hqueue hkept (hclean (by rwa [hneeded]))
    · rw [starved_succ_of_ne halloc hnew.ne]
      exact id
  · -- the new node is linked, and the pairs are shared
    right; right
    rw [hneeded] at htook
    rw [hlvl₁] at htree₂ hbelow htook hgraft
    rw [hheight] at hgraft
    have htree : Tree geo m r L s₁ G₁ := htree₁.kept hnew.kept.head hnew.kept.heap
    have halen' : (a ++ [(k, c)]).length = geo.noPairs / 2 := by simpa using halen
    have hfullAB : ((a ++ [(k, c)]) ++ (b ++ [e])).length = geo.noPairs := by rw [← hcut, hlen]
    have hentered : Entered L s₁ s₂ G₁ G₂ p new k :=
      ⟨hL, hlvl₁, (hG₁.each new).1.trans hfresh, hbelow⟩
    obtain ⟨nv₂, n₂, hloadn, hloadp, hshare⟩ := share_pairs htree hentered hnew.ne
      (hnew.kept.heap _ _ hnode) hnv hnvholds (hG₁.page.trans hcut) rfl (by rw [hfullAB, halen']) hfullAB
      hN hm htree₂
    have hshared : Shared geo m r L s s₁ s₂ _ G G₁ G₂ _ p new k e.1 (a ++ [(k, c)]) (b ++ [e]) :=
      { before := h, between := htree, after := hshare, entered := hentered
        kept := hnew.kept.heap, new_free := hnew.free, only := fun x n hx => hnew.only_node hx
        rebased := hG₁, page := hcut, length := halen', last := ⟨a, c, rfl⟩
        heap := fun x hxp hxn => by rw [State.setNode_heap_ne _ hxp, State.setNode_heap_ne _ hxn]
        labels := rfl, grafted := hgraft }
    refine ⟨new, _, _, ?_, hshared.split, (htook.cons hbelow halloc hnew.ne hheight
      (fun x => (hG₁.each x).1) hL hp hfresh).quiet ⟨fun x => (halved_span x).1, rfl, rfl⟩⟩
    rw [hok, ok_bind]
    simp only [ne_eq, not_true_eq_false, if_false, hloadn, hloadp, ok_bind]

end Full

/-! ## A new root -/

/-- `new` is the root over the old one. -/
structure Grown (geo : Geo) (s s' : State w) (new : Ptr w) (key : Nat) : Prop where
  node : s'.node = new
  height : s'.height = s.height + 1
  ne : new ≠ 0#w
  free : s.heap new = none
  heap : ∀ x o, s.heap x = some o → s'.heap x = some o
  only : ∀ x n, s'.heap x = some (.node n) → (∃ n₀, s.heap x = some (.node n₀)) ∨ x = new
  new : ∃ nv, s'.heap new = some (.node nv) ∧
    Holds geo nv (if s.height = 0 then [] else [(key, s.node)])

theorem cbtreeGrow_cases (key : Nat) (hN : 1 ≤ geo.noPairs) (h : Tree geo m r L s G)
    (hlast : 1 ≤ s.height → ∃ l c, (G s.node).page = l ++ [(key, c)]) :
    (cbtreeGrow geo s = .error .nullDeref ∧ ¬Provided geo 1 s) ∨
    (∃ pool, cbtreeGrow geo s = .ok (-ENOMEM, { s with pool := pool }) ∧ Starved geo 1 s) ∨
    ∃ new s', cbtreeGrow geo s = .ok (0, s') ∧ Grown geo s s' new key ∧ Provided geo 1 s ∧
      s'.pool = s.pool.drop 1 := by
  unfold cbtreeGrow
  rcases cbtreeNodeAlloc_cases geo s with hnull | ⟨pool, hfail, -⟩ | ⟨new, s₁, halloc, hnew⟩
  · exact .inl ⟨by rw [hnull]; rfl, not_provided_of_fault hnull⟩
  · exact .inr (.inl ⟨pool, by rw [hfail]; rfl, starved_of_fail hfail⟩)
  · right; right
    have hmem : Provided geo 1 s := (provided_succ halloc).mpr ⟨hnew.ne, trivial⟩
    have hpool := cbtreeNodeAlloc_pool halloc hnew.ne
    obtain ⟨nv, hnv, hnvholds, -⟩ := hnew.node
    have hnode₁ : s₁.node = s.node := congrArg Head.node hnew.kept.head
    have hheight₁ : s₁.height = s.height := congrArg Head.height hnew.kept.head
    simp only [halloc, ok_bind, if_neg hnew.ne]
    by_cases hh : s.height = 0
    · -- the tree was empty, and the new root is a leaf
      have hnull : ¬s₁.node ≠ 0#w := by rw [hnode₁, h.empty hh]; simp
      rw [if_neg hnull]
      exact ⟨new, _, rfl, ⟨rfl, by rw [← hheight₁]; rfl, hnew.ne, hnew.free, hnew.kept.heap,
        fun x n hx => hnew.only_node hx, ⟨nv, hnv, by rwa [if_pos hh]⟩⟩, hmem, hpool⟩
    · -- the new root gets one pair: the last key of the old one, and the old root
      have hlvl := h.root_lvl (by omega)
      have hrootne : s.node ≠ 0#w := h.ne_null (by omega)
      obtain ⟨n, hn, -, hholds⟩ := h.load (p := s.node) (by omega)
      obtain ⟨l, c, hpage⟩ := hlast (by omega)
      rw [hpage] at hholds
      have hload : s₁.load s₁.node = .ok n := by
        rw [hnode₁]
        exact State.load_eq_ok.mpr ⟨hrootne, hnew.kept.heap _ _ hn⟩
      have hfill : getfill geo n 0 = l.length + 1 := by
        rw [hholds.getfill (Nat.zero_le _)]
        simp
      have hnull : s₁.node ≠ 0#w := by rwa [hnode₁]
      rw [if_pos hnull, hload]
      simp only [ok_bind, hfill, Nat.add_one_ne_zero, if_false, Nat.add_sub_cancel,
        State.load_eq_ok.mpr ⟨hnew.ne, hnv⟩]
      refine ⟨new, _, rfl, ⟨rfl, by rw [← hheight₁]; rfl, hnew.ne, hnew.free, fun x o hx => ?_,
        fun x m hx => ?_, ⟨_, State.setNode_heap_self _, ?_⟩⟩, hmem, hpool⟩
      · rw [State.withHead_heap, State.setNode_heap_ne, hnew.kept.heap x o hx]
        rintro rfl
        rw [hnew.free] at hx
        cases hx
      · obtain ⟨n₁, hx₁⟩ := (NoNew.refl s₁).setNode hnv _ x m hx
        exact hnew.only_node hx₁
      · have hempty : Holds geo nv ([] ++ []) := hnvholds
        have hins : Holds geo (setval geo (setkey geo nv 0 (bkey geo n l.length)) 0 s.node)
            [(keyNum geo (bkey geo n l.length), s.node)] := hempty.insert (by simp; omega) hrootne
        rw [hholds.keyNum_append] at hins
        rw [if_neg hh, hnode₁]
        exact hins

/-! ## The levels above the leaves -/

theorem Below.of_grown {new : Ptr w} (h : Tree geo m r L s G) (hh : 1 ≤ s.height)
    (hgrown : Grown geo s s' new (G s.node).lo) (hnew : (G new).lvl = 0) :
    Below (s.height + 1) s s' G
      (G.grown s.height (geo.keyBound w) s.node new (G s.node).lo) := by
  have hroot := h.root_lvl hh
  have hne : s.node ≠ new := by rintro heq; rw [heq] at hroot; omega
  have hself : G.grown s.height (geo.keyBound w) s.node new (G s.node).lo new = ⟨s.height + 1, 0,
      geo.keyBound w, 0#w, if s.height = 0 then [] else [((G s.node).lo, s.node)]⟩ := grown_new
  have hold : G.grown s.height (geo.keyBound w) s.node new (G s.node).lo s.node =
      { G s.node with lo := (G s.node).lo, par := new } := grown_root hne hh
  -- only the old root gets a parent, and its labels stay otherwise
  have hother : ∀ x, x ≠ new → x ≠ s.node →
      G.grown s.height (geo.keyBound w) s.node new (G s.node).lo x = G x := fun x hxn hxr =>
    grown_of_ne hxn (.inl hxr)
  have hnot : ∀ x, 1 ≤ (G x).lvl → x ≠ new := by
    rintro x hx rfl
    omega
  refine ⟨fun x hx => ?_, fun x hx _ => ?_, fun x hx hlt => ?_, fun x o _ hx => hgrown.heap x o hx,
    fun x hx hx' => ?_, fun x n hx => (hgrown.only x n hx).imp_right ?_⟩
  · by_cases hxr : x = s.node
    · rw [hxr, hold]
    · rw [hother x (hnot x hx) hxr]
  · by_cases hxr : x = s.node
    · rw [hxr, hold]
      exact ⟨rfl, rfl, rfl⟩
    · rw [hother x (hnot x hx) hxr]
      exact ⟨rfl, rfl, rfl⟩
  · have hxr : x ≠ s.node := by rintro rfl; omega
    rw [hother x (hnot x hx) hxr]
  · by_cases hxn : x = new
    · rw [hxn, hself]
      exact ⟨hgrown.free, le_rfl⟩
    · have hxr : x ≠ s.node := by rintro rfl; omega
      rw [hother x hxn hxr] at hx'
      omega
  · rintro rfl
    rw [hself]
    exact Nat.succ_pos _

/-- `cbtree_insert_level` with a bound of its own on the passes through `retry:`, for each depth of the
recursion. -/
def insertLevelWithin (geo : Geo) (passes : Nat → Nat) :
    Nat → KeyPtr w → Ptr w → Nat → State w → Except Fault (Int × State w)
  | 0, _, _, _, _ => .error .outOfFuel
  | fuel + 1, key, val, level, s =>
    if val = 0#w then .error (.bug .insertVal)
    else do
      let (err, s) ← if s.height < level then cbtreeGrow geo s else .ok (0, s)
      if err ≠ 0 then .ok (err, s)
      else insertRetry geo (insertLevelWithin geo passes fuel) key val level (passes fuel) s

theorem cbtreeInsertLevel_eq : ∀ fuel : Nat,
    cbtreeInsertLevel (w := w) geo fuel = insertLevelWithin geo (· + 1) fuel
  | 0 => rfl
  | fuel + 1 => by
    funext key val level s
    rw [cbtreeInsertLevel, insertLevelWithin, cbtreeInsertLevel_eq fuel]

/-- Two passes are enough: one that splits the node and one that finds room. -/
def Passes (passes : Nat → Nat) : Prop := ∀ fuel, 1 ≤ passes fuel ∧ (1 ≤ fuel → 2 ≤ passes fuel)

theorem Labels.needed_of_lt {h l : Nat} (G : Labels w) (q : Ptr w) (hlt : l < h) :
    G.needed geo (h - l) q = if (G (G q).par).page.length = geo.noPairs
      then G.needed geo (h - (l + 1)) (G q).par + 1 else 0 := by
  rw [show h - l = h - (l + 1) + 1 by omega]
  rfl

/-- The root has been split, and gets a parent. -/
theorem Pending.links_grown (up : KeyPtr w → Ptr w → Nat → State w → Except Fault (Int × State w)) {t : Nat}
    (hN : 4 ≤ geo.noPairs) (hr : r ≤ 2) (h : Pending geo m r s G s.node i k v) (htop : (G s.node).lvl = s.height) :
    Linking geo m r s G s.node k v (do
      let (err, s') ← cbtreeGrow geo s
      if err ≠ 0 then .ok (err, s')
      else insertRetry geo up (.slot s.node i) v ((G s.node).lvl + 1) (t + 1) s') := by
  have hqlvl := h.lvl
  obtain ⟨nv, hnv, hnvholds⟩ := h.new
  have hneeded : G.needed geo (s.height - (G s.node).lvl) s.node = 1 := by
    rw [htop, Nat.sub_self]
    rfl
  have hfails : Pending.Fails geo s G s.node ↔ Starved geo 1 s := by
    unfold Pending.Fails
    rw [hneeded]
  rcases cbtreeGrow_cases (G s.node).lo (by omega) h.tree fun _ => h.root (by omega) with
    ⟨hnull, hnot⟩ | ⟨pool, hfail, hstarved⟩ | ⟨new, s₁, hok, hgrown, hmem, hpool⟩
  · exact .inl ⟨by rw [hnull]; rfl, by rwa [hneeded]⟩
  · exact .inr (.inl ⟨{ s with pool := pool }, by rw [hfail]; rfl, ⟨rfl, fun _ _ hx => hx, id⟩,
      fun _ n hx => ⟨n, hx⟩, hfails.mpr hstarved, fun _ => .of_heap rfl⟩)
  · rw [hok, ok_bind]
    simp only [ne_eq, not_true_eq_false, if_false]
    obtain ⟨nn, hnn, hnnholds⟩ := hgrown.new
    have hnewlvl : (G new).lvl = 0 := by
      by_contra hne
      obtain ⟨_, hstored, -⟩ := h.tree.stored new (by omega)
      rw [hgrown.free] at hstored
      cases hstored
    have hvnew : v ≠ new := by rintro rfl; rw [hgrown.free] at hnv; cases hnv
    have hvroot : v ≠ s.node := by
      rintro heq
      have := h.new_lvl
      rw [heq] at this
      omega
    have hrootnew : s.node ≠ new := by rintro heq; rw [heq] at hqlvl; omega
    have hkb : (G s.node).lo < geo.keyBound w := by
      have := h.tree.root_hi (by omega)
      have := h.lo
      have := h.hi
      omega
    have htree := h.tree.grow hnewlvl hgrown.ne hkb hgrown.node
      hgrown.height (fun x hx => by
        obtain ⟨n, hn, -⟩ := h.tree.stored x hx
        rw [hn, hgrown.heap x _ hn]) hnn hnnholds
    have hbelow := Below.of_grown h.tree (by omega) hgrown hnewlvl
    have htook := Took.of_grown geo (G s.node).lo hmem hpool hgrown.height hnewlvl
    have hroot' : G.grown s.height (geo.keyBound w) s.node new (G s.node).lo s.node =
        { G s.node with lo := (G s.node).lo, par := new } := grown_root hrootnew (by omega)
    have hnew' : G.grown s.height (geo.keyBound w) s.node new (G s.node).lo new =
        ⟨s.height + 1, 0, geo.keyBound w, 0#w,
          if s.height = 0 then [] else [((G s.node).lo, s.node)]⟩ := grown_new
    have hv' : G.grown s.height (geo.keyBound w) s.node new (G s.node).lo v = G v :=
      grown_of_ne hvnew (.inl hvroot)
    have hgraft := fun k₀ l₁ l₂ => Grafted.of_grown (v := v) (k := k) k₀ l₁ l₂ h.tree (by omega)
      (h.root htop) rfl htree (by rw [hv', h.new_lvl])
    generalize G.grown s.height (geo.keyBound w) s.node new (G s.node).lo = G₁ at *
    have hread : Reads geo s₁ (.slot s.node i) k := by
      obtain ⟨key, hkey, hk⟩ := h.read
      refine ⟨key, (KeyPtr.read_congr fun q j hq => ?_).trans hkey, hk⟩
      obtain ⟨n, hn, -⟩ := h.tree.stored s.node hqlvl
      cases hq
      rw [hn, hgrown.heap _ _ hn]
    obtain ⟨s₂, k₀, l₁, l₂, hslot, hrun, htree₂, hbelow₂, hquiet⟩ := insertRetry_link
      up (t := t) r (q := s.node) (p := new)
      htree (by omega) (by rw [hroot', htop]) (by rw [hroot'])
      (by rw [hgrown.node]; exact hrootnew) (by rw [hroot']; exact h.lo)
      (by rw [hroot']; exact h.hi) (by rw [hv', h.new_lvl]) h.new_ne (hgrown.heap _ _ hnv)
      hnvholds hread (by rw [hnew']; simp only; rw [if_neg (by omega)]; simp; omega)
      (fun _ => by rw [hnew']; simp only; rw [if_neg (by omega)]; simpa using hr)
      (fun hne => absurd hgrown.node.symm hne)
    refine .inr (.inr ⟨s₂, _, by rw [htop]; exact hrun, by rw [htop]; exact htree₂, ?_, ?_, ?_⟩)
    · rw [htop]
      exact ((hbelow.beside (k := k) (v := v) hqlvl (by omega) h.new_lvl
        (by rw [hnv]; simp)).trans (by omega) hbelow₂)
    · rw [hneeded, htop]
      exact (htook.beside hqlvl (by omega) (by rw [hroot']) (by rw [hv', h.new_lvl])).quiet hquiet
    · rw [htop, Nat.sub_self]
      exact hgraft k₀ l₁ l₂ hslot

/-- The parent has room for the new node. -/
theorem Pending.links_room (up : KeyPtr w → Ptr w → Nat → State w → Except Fault (Int × State w)) {t : Nat}
    (h : Pending geo m r s G q i k v) (hlt : (G q).lvl < s.height)
    (hroom : (G (G q).par).page.length < geo.noPairs) :
    Linking geo m r s G q k v (insertRetry geo up (.slot q i) v ((G q).lvl + 1) (t + 1) s) := by
  have hqlvl := h.lvl
  obtain ⟨nv, hnv, hnvholds⟩ := h.new
  have hne : q ≠ s.node := h.tree.ne_root (by omega)
  have htree : Tree geo m r ((G q).lvl + 1) s G := h.tree.mono (by omega) le_rfl le_rfl
  have hplvl := (htree.find_parent hqlvl rfl rfl hne h.lo h.hi h.read).1
  obtain ⟨s', k₁, l₁', l₂', hslot, hrun, htree', hbelow, hquiet⟩ := insertRetry_link up (t := t) r htree
    (by omega) rfl rfl hne h.lo h.hi h.new_lvl h.new_ne hnv hnvholds h.read hroom
    (fun heq => by have := htree.root_fill (by omega); rw [heq]; omega) (fun _ => le_rfl)
  refine .inr (.inr ⟨s', _, hrun, htree', hbelow, ?_, ?_⟩)
  · rw [G.needed_of_lt q hlt, if_neg (by omega)]
    exact .of_quiet hquiet (by omega) (by omega)
  · rw [show s.height - (G q).lvl = s.height - ((G q).lvl + 1) + 1 by omega]
    exact Grafted.of_room htree (by omega) rfl rfl hplvl hslot h.new_lvl hroom.ne

/-- The parent is full and is split before the new node is linked to one of its halves. -/
theorem Pending.links_split (up : KeyPtr w → Ptr w → Nat → State w → Except Fault (Int × State w)) {t : Nat}
    (hN : 4 ≤ geo.noPairs) (hm : m ≤ geo.noPairs / 2) (h : Pending geo m r s G q i k v) (hlt : (G q).lvl < s.height)
    (hpfull : (G (G q).par).page.length = geo.noPairs)
    (hup : ∀ s₁ G₁ i k v, s₁.height = s.height → (G₁ (G q).par).lvl = (G q).lvl + 1 →
      Pending geo m r s₁ G₁ (G q).par i k v →
      Linking geo m r s₁ G₁ (G q).par k v (up (.slot (G q).par i) v ((G q).lvl + 1 + 1) s₁)) :
    Linking geo m r s G q k v (insertRetry geo up (.slot q i) v ((G q).lvl + 1) (t + 2) s) := by
  have hqlvl := h.lvl
  obtain ⟨nv, hnv, hnvholds⟩ := h.new
  have hneeded : G.needed geo (s.height - (G q).lvl) q =
      G.needed geo (s.height - ((G q).lvl + 1)) (G q).par + 1 := by
    rw [G.needed_of_lt q hlt, if_pos hpfull]
  have hne : q ≠ s.node := h.tree.ne_root (by omega)
  have htree : Tree geo m r ((G q).lvl + 1) s G := h.tree.mono (by omega) le_rfl le_rfl
  obtain ⟨hplvl, hfind, k₀, l₁, l₂, hpage, h₁, h₂⟩ :=
    htree.find_parent hqlvl rfl rfl hne h.lo h.hi h.read
  have hfull : l₁.length + ((k₀, q) :: l₂).length = geo.noPairs := by
    rw [← List.length_append, ← hpage, hpfull]
  have hfails : Pending.Fails geo s G q ↔
      Starved geo (G.needed geo (s.height - ((G q).lvl + 1)) (G q).par + 1) s := by
    unfold Pending.Fails
    rw [hneeded]
  obtain ⟨key, hkey, hk⟩ := h.read
  subst hk
  rcases insertRetry_full up (t := t + 1) (v := v) hN hm htree (by omega) hplvl hfind hkey hpage h₁ h₂ hfull hup with
    ⟨hnull, hnot⟩ | ⟨s', hfail, hkept, hnone, hstarved, hclean, -⟩ | ⟨new, s₁, G₁, hagain, hsplit, htook⟩
  · exact .inl ⟨hnull, by rwa [hneeded]⟩
  · exact .inr (.inl ⟨s', hfail, hkept, hnone, hfails.mpr hstarved, by rwa [hneeded]⟩)
  · have hlvl₁ := hsplit.below.lvl q hqlvl
    obtain ⟨hlo₁, hhi₁, -⟩ := hsplit.below.span q hqlvl (by omega)
    have hv₁ : (G₁ v).lvl = 0 := by
      by_contra hne
      have := (hsplit.below.fresh v h.new_lvl (by omega)).1
      rw [hnv] at this
      cases this
    have hheight₁ : (G q).lvl + 1 ≤ s₁.height := by
      have := hsplit.tree.lvl_le new
      have := hsplit.new_lvl
      omega
    have hread : Reads geo s₁ (.slot q i) (keyNum geo key) := by
      refine ⟨key, (KeyPtr.read_congr fun x j hx => ?_).trans hkey, rfl⟩
      obtain ⟨n, hn, -⟩ := h.tree.stored q hqlvl
      cases hx
      rw [hn, hsplit.below.heap _ _ (by omega) hn]
    have hroom₁ : (G₁ (G₁ q).par).page.length < geo.noPairs := by
      have hlen : (G (G q).par).page.length ≤ geo.noPairs := by
        rw [hpage, List.length_append, hfull]
      cases hsplit.par q hqlvl rfl rfl with
      | inl heq =>
        rw [heq]
        exact (hsplit.room (by omega) hlen).1
      | inr heq =>
        rw [heq]
        exact (hsplit.room (by omega) hlen).2
    obtain ⟨s₂, k₁, l₁', l₂', hslot, hrun, htree₂, hbelow₂, hquiet⟩ := insertRetry_link
      up (t := t) r (q := q) (i := i) (k := keyNum geo key) (v := v) hsplit.tree (by omega) (by rw [hlvl₁]) rfl
      (hsplit.tree.ne_root (by omega)) (by rw [hlo₁]; exact h.lo) (by rw [hhi₁]; exact h.hi)
      hv₁ h.new_ne (hsplit.below.heap _ _ (by rw [h.new_lvl]; omega) hnv) hnvholds hread hroom₁
      (fun heq => by have := hsplit.tree.root_fill (by omega); rw [heq]; omega)
      (fun _ => le_rfl)
    refine .inr (.inr ⟨s₂, _, hagain.trans hrun, htree₂, ?_, ?_, ?_⟩)
    · exact (hsplit.below.beside hqlvl (by omega) h.new_lvl (by rw [hnv]; simp)).trans (by omega)
        hbelow₂
    · rw [hneeded]
      exact (htook.beside hqlvl (by omega) hlvl₁ hv₁).quiet hquiet
    · have hparlvl : (G₁ (G₁ q).par).lvl = (G q).lvl + 1 := by
        cases hsplit.par q hqlvl rfl rfl with
        | inl heq =>
          rw [heq, hsplit.below.lvl _ (by omega), hplvl]
        | inr heq =>
          rw [heq, hsplit.new_lvl]
      rw [show s.height - (G q).lvl = s.height - ((G q).lvl + 1) + 1 by omega]
      exact hsplit.grafted htree (by omega) rfl rfl hplvl rfl hpfull hv₁ hslot hparlvl

/-- The call of `cbtree_insert_level` for a level above the leaves. -/
theorem insertLevelWithin_links {passes : Nat → Nat} (hpasses : Passes passes) (hN : 4 ≤ geo.noPairs)
    (hm : m ≤ geo.noPairs / 2) (hr : r ≤ 2) :
    ∀ {fuel : Nat} {s : State w} {G : Labels w} {q : Ptr w} {i k : Nat} {v : Ptr w},
    Pending geo m r s G q i k v → s.height + 3 ≤ (G q).lvl + fuel →
    Linking geo m r s G q k v
      (insertLevelWithin geo passes fuel (.slot q i) v ((G q).lvl + 1) s) := by
  intro fuel
  induction fuel with
  | zero =>
    intro s G q i k v h hfuel
    have := h.tree.lvl_le q
    omega
  | succ fuel ih =>
    intro s G q i k v h hfuel
    have hle := h.tree.lvl_le q
    have hqlvl := h.lvl
    obtain ⟨t, ht⟩ : ∃ t, passes fuel = t + 1 := ⟨passes fuel - 1, by have := (hpasses fuel).1; omega⟩
    rw [insertLevelWithin, if_neg h.new_ne, ht]
    by_cases hgrow : s.height < (G q).lvl + 1
    · -- `q` is the root
      obtain rfl : q = s.node := h.tree.eq_root hqlvl (by omega)
      rw [if_pos hgrow]
      exact h.links_grown _ hN hr (h.tree.root_lvl (by omega))
    · rw [if_neg hgrow]
      simp only [ok_bind, ne_eq, not_true_eq_false, if_false]
      by_cases hfull : (G (G q).par).page.length = geo.noPairs
      · obtain ⟨t', rfl⟩ : ∃ t', t = t' + 1 := ⟨t - 1, by have := (hpasses fuel).2 (by omega); omega⟩
        apply h.links_split _ hN hm (by omega) hfull
        intro s₁ G₁ i k v hheight hlvl hpending
        rw [← hlvl]
        exact ih hpending (by omega)
      · have hplvl := (h.tree.parent q hqlvl (h.tree.ne_root (by omega))).1
        obtain ⟨n, -, hholds⟩ := h.tree.stored (G q).par (by omega)
        exact h.links_room _ (by omega) (Nat.lt_of_le_of_ne hholds.length_le hfull)

end CachedBTree
