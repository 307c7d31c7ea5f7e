import CachedBTree.Labels
import CachedBTree.Model.Insert

/-! # `find_level`

Two facts about the descent.  A key that lies in the interval of a node leads to this
node and changes nothing; this is how the code gets back to a node it has been at.
Any other key leads to some node of the level asked for, after the right-most
separators on the way that were larger than the key have been lowered to it. -/

namespace CachedBTree

open CachedBTree.Support

variable {w : Nat} {geo : Geo} {m r L : Nat} {s : State w} {G : Labels w} {p c : Ptr w}

/-- The key pointer reads a key with number `k`. -/
def Reads (geo : Geo) (s : State w) (kp : KeyPtr w) (k : Nat) : Prop :=
  ∃ key, kp.read geo s = .ok key ∧ keyNum geo key = k

theorem reads_buf (key : Words w) : Reads geo s (.buf key) (keyNum geo key) := ⟨key, rfl, rfl⟩

/-- The key pointer does not aim into the node `p`. -/
def KeyPtr.Avoids (p : Ptr w) : KeyPtr w → Prop
  | .buf _ => True
  | .slot q _ => q ≠ p

theorem KeyPtr.read_congr {kp : KeyPtr w} (h : ∀ q i, kp = .slot q i → s'.heap q = s.heap q) :
    kp.read geo s' = kp.read geo s := by
  cases kp with
  | buf words => rfl
  | slot q i =>
    have hq := h q i rfl
    simp only [KeyPtr.read, State.load, hq]

theorem KeyPtr.read_setNode {kp : KeyPtr w} (h : kp.Avoids p) (n : Words w) :
    kp.read geo (s.setNode p n) = kp.read geo s :=
  KeyPtr.read_congr fun q i hq => State.setNode_heap_ne n (by subst hq; exact h)

/-! ## Back to a known node -/

/-- One more level at the end of the descent. -/
theorem findLevelLoop_succ (kp : KeyPtr w) : ∀ (d : Nat) (x : Ptr w) (s : State w),
    findLevelLoop geo kp (d + 1) x s =
      findLevelLoop geo kp d x s >>= fun result => findLevelLoop geo kp 1 result.1 result.2 := by
  intro d
  induction d with
  | zero =>
    intro _ _
    exact rfl
  | succ d ih =>
    intro x s
    rw [findLevelLoop, findLevelLoop]
    cases hload : s.load x with
    | error e => rfl
    | ok words =>
      cases hkey : kp.read geo s with
      | error e => rfl
      | ok k =>
        simp only [ok_bind]
        split
        · split
          · rfl
          · exact ih _ _
        · exact ih _ _

/-- At a node whose page is cut by the key in front of a child, one step leads to the child. -/
theorem findLevelLoop_found {n key : Words w} {l₁ l₂ : Page w} {k₀ : Nat} {kp : KeyPtr w} (d : Nat)
    (hload : s.load p = .ok n) (hread : kp.read geo s = .ok key)
    (hholds : Holds geo n (l₁ ++ (k₀, c) :: l₂)) (h₁ : ∀ e ∈ l₁, keyNum geo key < e.1)
    (h₂ : ∀ e ∈ (k₀, c) :: l₂, e.1 ≤ keyNum geo key) :
    findLevelLoop geo kp (d + 1) p s = findLevelLoop geo kp d c s := by
  have hlen := hholds.length_le
  simp only [List.length_append, List.length_cons] at hlen
  have hne : ¬(l₁.length = geo.noPairs ∨ c = 0#w) := by
    rintro (hfull | hnull)
    · omega
    · exact hholds.used (k₀, c) (by simp) hnull
  rw [findLevelLoop]
  simp only [hload, hread, ok_bind, hholds.getpos h₁ h₂, hholds.bval_append, if_neg hne]

/-- The keys in front of the slot of a node are all larger than a key of its interval. -/
theorem Tree.cut_at_child {l₁ l₂ : Page w} {k k₀ : Nat} (h : Tree geo m r L s G)
    (hp : L ≤ (G p).lvl) (hlvl : 2 ≤ (G p).lvl) (hpage : (G p).page = l₁ ++ (k₀, c) :: l₂)
    (hlo : (G c).lo ≤ k) (hhi : k < (G c).hi) :
    (∀ e ∈ l₁, k < e.1) ∧ ∀ e ∈ (k₀, c) :: l₂, e.1 ≤ k := by
  obtain ⟨_, _, hk₀, _, hend⟩ := h.child hp hlvl hpage
  have hchain := h.chain p hp
  rw [hpage] at hchain
  refine ⟨fun e he => ?_, fun e he => ?_⟩
  · have := (chain_append.mp hchain).1.endKey_le_of_mem he
    omega
  · rcases List.mem_cons.mp he with rfl | hmem
    · omega
    · have := (List.pairwise_cons.mp hchain.descending.of_append.2.1).1 e hmem
      simp only at this
      omega

theorem Tree.findLevelLoop_to {kp : KeyPtr w} {k : Nat} (h : Tree geo m r L s G)
    (hread : Reads geo s kp k) : ∀ {d : Nat} {p : Ptr w}, 1 ≤ (G p).lvl → L ≤ (G p).lvl + 1 →
    (G p).lvl + d = s.height → (G p).lo ≤ k → k < (G p).hi →
    findLevelLoop geo kp d s.node s = .ok (p, s) := by
  intro d
  induction d with
  | zero =>
    intro p hp _ hd _ _
    rw [h.eq_root hp (by omega)]; rfl
  | succ d ih =>
    intro p hp hL hd hlo hhi
    have hne : p ≠ s.node := h.ne_root (by omega)
    obtain ⟨k₀, l₁, l₂, hlvl, hpage, -, -, -⟩ := h.parent_slot hp hL hne
    obtain ⟨hplo, hphi⟩ := h.interval_le hp hL hne
    obtain ⟨n, -, hload, hholds⟩ := h.load (p := (G p).par) (by omega)
    obtain ⟨key, hkey, rfl⟩ := hread
    obtain ⟨h₁, h₂⟩ := h.cut_at_child (by omega) (by omega) hpage hlo hhi
    rw [hpage] at hholds
    rw [findLevelLoop_succ, ih (by omega) (by omega) (by omega) (hplo.trans hlo) (hhi.trans_le hphi), ok_bind,
      findLevelLoop_found 0 hload hkey hholds h₁ h₂]
    rfl

/-- A key of the interval of `p` leads to `p`. -/
theorem Tree.findLevel_to {kp : KeyPtr w} {k : Nat} (h : Tree geo m r L s G)
    (hread : Reads geo s kp k) (hp : 1 ≤ (G p).lvl) (hL : L ≤ (G p).lvl + 1) (hlo : (G p).lo ≤ k)
    (hhi : k < (G p).hi) : findLevel geo kp (G p).lvl s = .ok (p, s) := by
  have hd : (G p).lvl + (s.height - (G p).lvl) = s.height := by
    have := h.lvl_le p
    omega
  unfold findLevel
  rw [h.findLevelLoop_to hread hp hL hd hlo hhi, ok_bind]
  exact if_neg (h.ne_null hp)

/-- At each level one interval at most contains a key. -/
theorem Tree.node_unique {key : Words w} (h : Tree geo m r L s G) (hp : 1 ≤ (G p).lvl)
    (hq : (G q).lvl = (G p).lvl) (hL : L ≤ (G p).lvl + 1) (hplo : (G p).lo ≤ keyNum geo key)
    (hphi : keyNum geo key < (G p).hi) (hqlo : (G q).lo ≤ keyNum geo key)
    (hqhi : keyNum geo key < (G q).hi) : q = p := by
  have hto := h.findLevel_to (reads_buf key) hp hL hplo hphi
  have hto' := h.findLevel_to (reads_buf key) (by omega) (by omega) hqlo hqhi
  rw [hq, hto] at hto'
  exact (Prod.mk.inj (Except.ok.inj hto')).1.symm

/-- A key stands in one node of a level only. -/
theorem Tree.key_unique {e e' : Nat × Ptr w} (h : Tree geo m r 1 s G) (hp : 1 ≤ (G p).lvl)
    (hq : (G q).lvl = (G p).lvl) (hep : e ∈ (G p).page) (heq : e' ∈ (G q).page) (hkeys : e'.1 = e.1) :
    q = p := by
  obtain ⟨n, -, -, hholds⟩ := h.load hp
  obtain ⟨i, -, hslot⟩ := hholds.slot_of_mem hep
  have hkey : keyNum geo (bkey geo n i) = e.1 := congrArg Prod.fst hslot
  have hpair := h.pair_interval hp hep
  have hpair' := h.pair_interval (by omega) heq
  rw [hkeys] at hpair'
  rw [← hkey] at hpair hpair'
  exact h.node_unique hp hq (by omega) hpair.1 hpair.2 hpair'.1 hpair'.2

/-- A pair stands in one node of a level only. -/
theorem Tree.pair_unique {e : Nat × Ptr w} (h : Tree geo m r 1 s G) (hp : 1 ≤ (G p).lvl)
    (hq : (G q).lvl = (G p).lvl) (hep : e ∈ (G p).page) (heq : e ∈ (G q).page) : q = p :=
  h.key_unique hp hq hep heq rfl

/-! ## The descent with a new key -/

/-- The labels after a step of the descent from `p`: the slot of the child `c` has key `k`, and
the child answers for all keys that lead to it. -/
def Labels.route (G : Labels w) (p : Ptr w) (l₁ : Page w) (k : Nat) (c : Ptr w) (l₂ : Page w) :
    Labels w := fun q =>
  if q = p then { G p with page := l₁ ++ (k, c) :: l₂ }
  else if q = c then { G c with lo := k, hi := endKey (G p).hi l₁ }
  else G q

/-- What a descent does to the labels: some right-most separators above level 1 go down to `k`. -/
structure Lowered (k : Nat) (G G' : Labels w) : Prop where
  lvl : ∀ q, (G' q).lvl = (G q).lvl
  par : ∀ q, (G' q).par = (G q).par
  page : ∀ q, (G' q).page = (G q).page ∨ 2 ≤ (G q).lvl ∧ ∃ l₁ k₀ c,
    (G q).page = l₁ ++ [(k₀, c)] ∧ k < k₀ ∧ (G' q).page = l₁ ++ [(k, c)]

theorem Lowered.refl (k : Nat) (G : Labels w) : Lowered k G G :=
  ⟨fun _ => rfl, fun _ => rfl, fun _ => .inl rfl⟩

theorem Lowered.trans {k : Nat} {G G' G'' : Labels w} (h : Lowered k G G')
    (h' : Lowered k G' G'') : Lowered k G G'' where
  lvl q := (h'.lvl q).trans (h.lvl q)
  par q := (h'.par q).trans (h.par q)
  page q := by
    rcases h.page q with heq | ⟨hq, l₁, k₀, c, hpage, hlt, hpage'⟩
    · rcases h'.page q with heq' | ⟨hq', l₁, k₀, c, hpage, hlt, hpage'⟩
      · exact .inl (heq'.trans heq)
      · exact .inr ⟨by rwa [h.lvl] at hq', l₁, k₀, c, heq ▸ hpage, hlt, hpage'⟩
    · rcases h'.page q with heq' | ⟨_, l₁', k₀', c', hpage'', hlt', _⟩
      · exact .inr ⟨hq, l₁, k₀, c, hpage, hlt, heq'.trans hpage'⟩
      · -- the last key is `k` already
        have hlast : (k, c) = (k₀', c') := by
          have := congrArg List.getLast? (hpage'.symm.trans hpage'')
          simpa using this
        have : k = k₀' := congrArg Prod.fst hlast
        omega

theorem Lowered.page_leaf {k : Nat} {G G' : Labels w} (h : Lowered k G G') {q : Ptr w}
    (hq : (G q).lvl ≤ 1) : (G' q).page = (G q).page := by
  rcases h.page q with heq | ⟨hlvl, _⟩
  · exact heq
  · omega

section Route

variable {l₁ l₂ : Page w} {k k₀ : Nat}

theorem route_of_ne {q : Ptr w} (hp : q ≠ p) (hc : q ≠ c) : G.route p l₁ k c l₂ q = G q := by
  simp [Labels.route, hp, hc]

theorem route_self : G.route p l₁ k c l₂ p = { G p with page := l₁ ++ (k, c) :: l₂ } := by
  simp [Labels.route]

theorem route_child (hcp : c ≠ p) :
    G.route p l₁ k c l₂ c = { G c with lo := k, hi := endKey (G p).hi l₁ } := by
  simp [Labels.route, hcp]

theorem route_lvl (q : Ptr w) : (G.route p l₁ k c l₂ q).lvl = (G q).lvl := by
  unfold Labels.route
  split
  next h => rw [h]
  next => split
          next h => rw [h]
          next => rfl

theorem route_par (q : Ptr w) : (G.route p l₁ k c l₂ q).par = (G q).par := by
  unfold Labels.route
  split
  next h => rw [h]
  next => split
          next h => rw [h]
          next => rfl

theorem route_page {q : Ptr w} (hq : q ≠ p) : (G.route p l₁ k c l₂ q).page = (G q).page := by
  unfold Labels.route
  rw [if_neg hq]
  split
  next h => rw [h]
  next => rfl

/-- A node other than the child is seen as before. -/
theorem route_span {q : Ptr w} (hqc : q ≠ c) :
    SameSpan (G q) (G.route p l₁ k c l₂ q) := by
  by_cases hq : q = p
  · rw [hq, route_self]
    exact ⟨rfl, rfl, rfl, rfl⟩
  · rw [route_of_ne hq hqc]
    exact SameSpan.refl _

theorem route_length (q : Ptr w) (hpage : (G p).page = l₁ ++ (k₀, c) :: l₂) :
    (G.route p l₁ k c l₂ q).page.length = (G q).page.length := by
  by_cases hq : q = p
  · rw [hq, route_self, hpage]
    simp
  · rw [route_page hq]

/-- The order of the slots, when the separator stays or the last one is lowered. -/
theorem Tree.route_chain {q : Ptr w} (h : Tree geo m r 1 s G) (hlvl : 2 ≤ (G p).lvl)
    (hpage : (G p).page = l₁ ++ (k₀, c) :: l₂) (hk : k ≤ k₀) (hlo : (G p).lo ≤ k)
    (hcase : k = k₀ ∨ l₂ = []) (hq : 1 ≤ (G q).lvl) :
    Chain (ChildOk (G.route p l₁ k c l₂) q) (G.route p l₁ k c l₂ q).lo (G.route p l₁ k c l₂ q).hi
      (G.route p l₁ k c l₂ q).page := by
  have hpL : 1 ≤ (G p).lvl := by omega
  obtain ⟨hclvl, hcpar, hck, hclohi, hchi⟩ := h.child hpL hlvl hpage
  have hcp : c ≠ p := fun heq => by rw [heq] at hclvl; omega
  by_cases hqp : q = p
  · subst hqp
    have hchain := h.chain q hpL
    rw [hpage] at hchain
    obtain ⟨hchain₁, hlok₀, hk₀end, -, hchain₂⟩ := chain_append.mp hchain
    rw [route_self]
    have hspan : ∀ k' c', (k', c') ∈ l₁ ∨ (k', c') ∈ l₂ → 2 ≤ (G q).lvl →
        SameSpan (G c') (G.route q l₁ k c l₂ c') := fun k' c' hmem _ =>
      route_span (h.slot_ne hpL hlvl hpage hmem)
    refine chain_append.mpr ⟨?_, hlo, hk.trans_lt hk₀end, ?_, ?_⟩
    · exact chain_congr hchain₁ (route_lvl q) fun k' c' hmem => hspan k' c' (.inl hmem)
    · intro _
      rw [route_lvl, route_lvl, route_par, route_child hcp]
      exact ⟨hclvl, hcpar, le_rfl, hk.trans_lt hk₀end, le_rfl⟩
    · rcases hcase with rfl | rfl
      · exact chain_congr hchain₂ (route_lvl q) fun k' c' hmem => hspan k' c' (.inr hmem)
      · trivial
  have hself := h.chain q hq
  by_cases hqc : q = c
  · -- the bounds of the child are those of its slot now
    subst hqc
    rw [route_child hcp]
    have hbig : Chain (ChildOk G q) k (endKey (G p).hi l₁) (G q).page :=
      (hself.mono_lo (hk.trans hck)).mono_hi hchi fun _ _ hok => hok.mono_hi hchi
    refine chain_congr hbig (route_lvl q) fun k' c' hmem hlvlq => route_span ?_
    rintro rfl
    have := (h.child_of_mem hq hlvlq hmem).1
    omega
  · rw [route_of_ne hqp hqc]
    refine chain_congr hself (route_lvl q) fun k' c' hmem hlvlq => route_span ?_
    rintro rfl
    exact hqp ((h.child_of_mem hq hlvlq hmem).2.1.symm.trans hcpar)

/-- A step of the descent keeps the tree.  Either the separator stays and memory with it, or it
is the last one and has been lowered. -/
theorem Tree.route {s' : State w} {n' : Words w} (h : Tree geo m r 1 s G) (hlvl : 2 ≤ (G p).lvl)
    (hpage : (G p).page = l₁ ++ (k₀, c) :: l₂) (hk : k ≤ k₀) (hlo : (G p).lo ≤ k)
    (hcase : k = k₀ ∨ l₂ = []) (hhead : s'.toHead = s.toHead)
    (hheap : ∀ q, q ≠ p → s'.heap q = s.heap q) (hnode : s'.heap p = some (.node n'))
    (hholds : Holds geo n' (l₁ ++ (k, c) :: l₂)) :
    Tree geo m r 1 s' (G.route p l₁ k c l₂) := by
  have hclvl := (h.child (by omega) hlvl hpage).1
  have hcroot : c ≠ s.node := h.ne_root (by have := h.lvl_le p; omega)
  have hnodeEq : s'.node = s.node := congrArg Head.node hhead
  have hheightEq : s'.height = s.height := congrArg Head.height hhead
  refine
    { null := by rw [route_lvl]; exact h.null
      lvl_le := fun q => by rw [route_lvl, hheightEq]; exact h.lvl_le q
      stored := fun q hq => ?_
      parent := fun q hq hne => ?_
      root_lvl := fun hh => by rw [route_lvl, hnodeEq, hheightEq]; exact h.root_lvl (by omega)
      root_hi := fun hh => ?_
      root_fill := fun hh => by rw [route_length _ hpage, hnodeEq]; exact h.root_fill (by omega)
      empty := fun hh => by rw [hnodeEq]; exact h.empty (by omega)
      chain := fun q hq => h.route_chain hlvl hpage hk hlo hcase (by rwa [route_lvl] at hq)
      fill := fun q hq hne => by
        rw [route_length _ hpage]
        rw [route_lvl] at hq
        exact h.fill q hq (by rwa [hnodeEq] at hne) }
  · rw [route_lvl] at hq
    by_cases hqp : q = p
    · subst hqp
      rw [route_self]
      exact ⟨n', hnode, hholds⟩
    · rw [route_page hqp, hheap q hqp]
      exact h.stored q hq
  · rw [route_lvl] at hq
    obtain ⟨hplvl, k', hmem⟩ := h.parent q hq (by rwa [hnodeEq] at hne)
    rw [route_par, route_lvl, route_lvl]
    refine ⟨hplvl, ?_⟩
    by_cases hpar : (G q).par = p
    · rw [hpar, hpage] at hmem
      rw [hpar, route_self]
      by_cases hqc : q = c
      · exact ⟨k, by simp [hqc]⟩
      · refine ⟨k', ?_⟩
        simpa [hqc] using hmem
    · rw [route_page hpar]
      exact ⟨k', hmem⟩
  · have hroot := h.root_hi (by omega)
    rw [hnodeEq]
    exact (route_span (Ne.symm hcroot)).2.2.2.trans hroot

/-- The labels when the separator stays. -/
theorem lowered_route_found (hpage : (G p).page = l₁ ++ (k₀, c) :: l₂) :
    Lowered k G (G.route p l₁ k₀ c l₂) where
  lvl := route_lvl
  par := route_par
  page q := by
    by_cases hq : q = p
    · subst hq
      rw [route_self]
      exact .inl hpage.symm
    · exact .inl (route_page hq)

/-- The labels when the last separator has gone down to `k`. -/
theorem lowered_route_last (hpage : (G p).page = l₁ ++ [(k₀, c)]) (hlvl : 2 ≤ (G p).lvl)
    (hk : k < k₀) : Lowered k G (G.route p l₁ k c []) where
  lvl := route_lvl
  par := route_par
  page q := by
    by_cases hq : q = p
    · subst hq
      rw [route_self]
      exact .inr ⟨hlvl, l₁, k₀, c, hpage, hk, rfl⟩
    · exact .inl (route_page hq)

end Route

/-- What a descent to level `level` with a key `k` of the caller leaves behind. -/
structure Routed (geo : Geo) (m r level k : Nat) (s : State w) (G : Labels w) (p : Ptr w)
    (s' : State w) (G' : Labels w) : Prop where
  tree : Tree geo m r 1 s' G'
  lowered : Lowered k G G'
  lvl : (G' p).lvl = level
  lo : (G' p).lo ≤ k
  hi : k < (G' p).hi
  mem : s' = { s with heap := s'.heap }
  heap : ∀ x, (G x).lvl ≤ level → s'.heap x = s.heap x

/-- At a node whose keys are all larger, the last separator is lowered. -/
theorem findLevelLoop_last {n key : Words w} {l₁ : Page w} {k₀ : Nat} (d : Nat)
    (hload : s.load p = .ok n) (hholds : Holds geo n (l₁ ++ [(k₀, c)]))
    (hall : ∀ e ∈ l₁ ++ [(k₀, c)], keyNum geo key < e.1) :
    findLevelLoop geo (.buf key) (d + 1) p s =
      findLevelLoop geo (.buf key) d c (s.setNode p (setkey geo n l₁.length key)) := by
  have hlen := hholds.length_le
  rw [List.length_append, List.length_singleton] at hlen
  have hpos : getpos geo n key = l₁.length + 1 := by
    have hholds' : Holds geo n ((l₁ ++ [(k₀, c)]) ++ []) := by rwa [List.append_nil]
    rw [hholds'.getpos hall (by simp)]
    simp
  have htoo : l₁.length + 1 = geo.noPairs ∨ bval geo n (l₁.length + 1) = 0#w := by
    by_cases hfull : l₁.length + 1 = geo.noPairs
    · exact .inl hfull
    · exact .inr (congrArg Prod.snd (hholds.slot_end (by simp) (by omega)))
  have hread : KeyPtr.read geo s (.buf key) = .ok key := rfl
  have hchild : bval geo (setkey geo n l₁.length key) l₁.length = c := by
    rw [bval_setkey (by omega), hholds.bval_append]
  rw [findLevelLoop]
  simp only [hload, hread, ok_bind, hpos, if_pos htoo, Nat.add_one_ne_zero, if_false,
    Nat.add_sub_cancel, hchild]

theorem Tree.findLevelLoop_route (key : Words w) (hm : 1 ≤ m) (hr : 1 ≤ r) :
    ∀ {d level : Nat} {q : Ptr w} {s : State w} {G : Labels w}, Tree geo m r 1 s G →
    1 ≤ level → (G q).lvl = level + d → (G q).lo ≤ keyNum geo key → keyNum geo key < (G q).hi →
    ∃ p s' G', findLevelLoop geo (.buf key) d q s = .ok (p, s') ∧
      Routed geo m r level (keyNum geo key) s G p s' G' := by
  intro d
  induction d with
  | zero =>
    intro level q s G h _ hq hlo hhi
    exact ⟨q, s, G, rfl, h, Lowered.refl _ G, hq, hlo, hhi, rfl, fun _ _ => rfl⟩
  | succ d ih =>
    intro level q s G h hlevel hq hlo hhi
    obtain ⟨n, hn, hload, hholds⟩ := h.load (p := q) (by omega)
    have hchain := h.chain q (by omega)
    obtain ⟨l₁, l₂, hpage, h₁, h₂⟩ := hchain.descending.cut (keyNum geo key)
    cases l₂ with
    | cons e l₂ =>
      obtain ⟨k₀, c⟩ := e
      have hcp : c ≠ q := by
        rintro rfl
        have := (h.child (by omega) (by omega) hpage).1
        omega
      have hclvl := (h.child (by omega) (by omega) hpage).1
      have hstep : Tree geo m r 1 s (G.route q l₁ k₀ c l₂) :=
        h.route (by omega) hpage le_rfl (hchain.mem (by rw [hpage]; simp : (k₀, c) ∈ _)).1
          (.inl rfl) rfl (fun _ _ => rfl) hn (hpage ▸ hholds)
      obtain ⟨p, s', G', hrun, hres⟩ := ih (q := c) hstep hlevel (by rw [route_lvl]; omega)
        (by rw [route_child hcp]; exact h₂ (k₀, c) (by simp)) (by rw [route_child hcp]; exact lt_endKey hhi h₁)
      refine ⟨p, s', G', ?_, hres.tree, (lowered_route_found hpage).trans hres.lowered, hres.lvl,
        hres.lo, hres.hi, hres.mem, fun x hx => hres.heap x (by rwa [route_lvl])⟩
      rw [hpage] at hholds
      rw [findLevelLoop_found d hload rfl hholds h₁ h₂, hrun]
    | nil =>
      rw [List.append_nil] at hpage
      have hne : l₁ ≠ [] := by
        rintro rfl
        by_cases hroot : q = s.node
        · have hfill := h.root_fill (by have := h.lvl_le q; omega)
          rw [← hroot, hpage] at hfill
          simp only [List.length_nil] at hfill
          omega
        · have hfill := h.fill q (by omega) hroot
          rw [hpage] at hfill
          simp only [List.length_nil] at hfill
          omega
      obtain ⟨l, ⟨k₀, c⟩, rfl⟩ : ∃ l e, l₁ = l ++ [e] :=
        ⟨_, _, (List.dropLast_append_getLast hne).symm⟩
      have hcp : c ≠ q := by
        rintro rfl
        have := (h.child (by omega) (by omega) hpage).1
        omega
      have hclvl := (h.child (by omega) (by omega) hpage).1
      have hk₀ : keyNum geo key < k₀ := h₁ (k₀, c) (by simp)
      rw [hpage] at hholds
      have hstep : Tree geo m r 1 (s.setNode q (setkey geo n l.length key))
          (G.route q l (keyNum geo key) c []) :=
        h.route (by omega) hpage hk₀.le hlo (.inr rfl) rfl
          (fun _ hx => State.setNode_heap_ne _ hx) (State.setNode_heap_self _) hholds.setkey
      obtain ⟨p, s', G', hrun, hres⟩ := ih (q := c) hstep hlevel (by rw [route_lvl]; omega) (by rw [route_child hcp])
        (by rw [route_child hcp]; exact lt_endKey hhi fun e he => h₁ e (by simp [he]))
      refine ⟨p, s', G', ?_, hres.tree, (lowered_route_last hpage (by omega) hk₀).trans hres.lowered,
        hres.lvl, hres.lo, hres.hi, ?_, fun x hx => ?_⟩
      · rw [findLevelLoop_last d hload hholds h₁, hrun]
      · rw [hres.mem]
        rfl
      · rw [hres.heap x (by rwa [route_lvl])]
        exact State.setNode_heap_ne _ (by rintro rfl; omega)

/-- The labels with another lower end for the root's interval, which nothing depends on. -/
def Labels.rebase (G : Labels w) (root : Ptr w) (lo : Nat) : Labels w :=
  Function.update G root { G root with lo := lo }

theorem rebase_of_ne {root q : Ptr w} {lo : Nat} (hq : q ≠ root) : G.rebase root lo q = G q :=
  Function.update_of_ne hq _ _

theorem rebase_self {root : Ptr w} {lo : Nat} :
    G.rebase root lo root = { G root with lo := lo } := Function.update_self _ _ _

theorem rebase_same (root : Ptr w) (lo : Nat) (q : Ptr w) :
    (G.rebase root lo q).lvl = (G q).lvl ∧ (G.rebase root lo q).par = (G q).par ∧
      (G.rebase root lo q).hi = (G q).hi ∧ (G.rebase root lo q).page = (G q).page := by
  by_cases hq : q = root
  · subst hq
    rw [rebase_self]
    exact ⟨rfl, rfl, rfl, rfl⟩
  · rw [rebase_of_ne hq]
    exact ⟨rfl, rfl, rfl, rfl⟩

theorem Tree.rebase {lo : Nat} (h : Tree geo m r L s G)
    (hlo : ∀ e ∈ (G s.node).page, lo ≤ e.1) : Tree geo m r L s (G.rebase s.node lo) := by
  have hsame := rebase_same (G := G) s.node lo
  refine
    { null := by rw [(hsame _).1]; exact h.null
      lvl_le := fun q => by rw [(hsame q).1]; exact h.lvl_le q
      stored := fun q hq => by
        rw [(hsame q).2.2.2]
        rw [(hsame q).1] at hq
        exact h.stored q hq
      parent := fun q hq hne => by
        rw [(hsame q).1] at hq
        rw [(hsame q).1, (hsame q).2.1, (hsame _).1, (hsame _).2.2.2]
        exact h.parent q hq hne
      root_lvl := fun hh => by rw [(hsame _).1]; exact h.root_lvl hh
      root_hi := fun hh => by rw [(hsame _).2.2.1]; exact h.root_hi hh
      root_fill := fun hh => by rw [(hsame _).2.2.2]; exact h.root_fill hh
      empty := h.empty
      chain := fun q hq => ?_
      fill := fun q hq hne => by
        rw [(hsame _).2.2.2]
        rw [(hsame q).1] at hq
        exact h.fill q hq hne }
  rw [(hsame q).1] at hq
  -- the root is nobody's child
  have hspan : ∀ k c, (k, c) ∈ (G q).page → 2 ≤ (G q).lvl →
      SameSpan (G c) (G.rebase s.node lo c) := by
    intro k c hmem hlvl
    have hclvl := (h.child_of_mem hq hlvl hmem).1
    rw [rebase_of_ne (h.ne_root (by have := h.lvl_le q; omega))]
    exact SameSpan.refl _
  have hchain := chain_congr (h.chain q hq) (hsame q).1 hspan
  rw [(hsame q).2.2.1, (hsame q).2.2.2]
  by_cases hq' : q = s.node
  · subst hq'
    rw [rebase_self]
    exact hchain.set_lo hlo
  · rw [rebase_of_ne hq']
    exact hchain

theorem lowered_rebase (k : Nat) (root : Ptr w) (lo : Nat) : Lowered k G (G.rebase root lo) where
  lvl q := (rebase_same root lo q).1
  par q := (rebase_same root lo q).2.1
  page q := .inl (rebase_same root lo q).2.2.2

/-- A descent with any key of a caller. -/
theorem Tree.findLevel_route (key : Words w) {level : Nat} (h : Tree geo m r 1 s G) (hm : 1 ≤ m)
    (hr : 1 ≤ r) (hlevel : 1 ≤ level) (hle : level ≤ s.height) :
    ∃ p s' G', findLevel geo (.buf key) level s = .ok (p, s') ∧
      Routed geo m r level (keyNum geo key) s G p s' G' := by
  have hroot : Tree geo m r 1 s (G.rebase s.node 0) := h.rebase fun _ _ => Nat.zero_le _
  obtain ⟨hlvl, -, hhi, -⟩ := rebase_same (G := G) s.node 0 s.node
  obtain ⟨p, s', G', hrun, hres⟩ := hroot.findLevelLoop_route key hm hr
    (d := s.height - level) (q := s.node) hlevel
    (by have := h.root_lvl (by omega); omega)
    (by rw [rebase_self]; exact Nat.zero_le _)
    (by rw [hhi, h.root_hi (by omega)]; exact keyNum_lt geo key)
  refine ⟨p, s', G', ?_, hres.tree, (lowered_rebase _ _ _).trans hres.lowered, hres.lvl, hres.lo,
    hres.hi, hres.mem, fun x hx => hres.heap x (by rwa [(rebase_same s.node 0 x).1])⟩
  unfold findLevel
  rw [hrun, ok_bind]
  exact if_neg (hres.tree.ne_null (by rw [hres.lvl]; exact hlevel))

end CachedBTree
