import CachedBTree.Caching.Plain
import CachedBTree.Caching.Runs
import CachedBTree.Routes
import Mathlib.Algebra.Order.BigOperators.Group.List

/-! # `cbtree_update`

The leaf to write to is what the search ends at, so a cache that answers with another leaf
sends the update there.  The key is then looked for over all slots of that leaf, and key 0 is
found in an unused one. -/

namespace CachedBTree

open CachedBTree.Support

variable {w : Nat} {geo : Geo} {s s' s₀ : State w} {p a x : Ptr w} {R : Rings w} {G : Labels w} {m r : Nat}
  {key : Words w} {val : Ptr w}

/-- Trees with the same labels have the same entries. -/
theorem Tree.entries_congr (h : Tree geo m r 1 s G) (h' : Tree geo m r 1 s' G) :
    entries geo s' = entries geo s :=
  h'.entries_descending.ext h.entries_descending fun e => by rw [h'.mem_entries, h.mem_entries]

/-! ## The call, once the search is over -/

/-- `cbtree_update` in terms of what the search ends at. -/
theorem Warm.update_cases (key : Words w) (val : Ptr w) (h : Warm geo m r s G R) :
    (lookupReady geo key s s.height s.node = false ∧ cbtreeUpdate geo key val s = .error .nullDeref) ∨
    (lookupReady geo key s s.height s.node = true ∧ ∃ s₁ R₁, Warm geo m r s₁ G R₁ ∧ s₁.toHead = s.toHead ∧
      ((answer geo key s s.height s.node = 0#w ∧ cbtreeUpdate geo key val s = .ok (-ENOENT, s₁)) ∨
        ∃ n, answer geo key s s.height s.node ≠ 0#w ∧ (G (answer geo key s s.height s.node)).lvl = 1 ∧
          s₁.heap (answer geo key s s.height s.node) = some (.node n) ∧
          Holds geo n (G (answer geo key s s.height s.node)).page ∧
          cbtreeUpdate geo key val s = if findSlot geo n key < geo.noPairs then
            .ok (0, s₁.setNode (answer geo key s s.height s.node) (setval geo n (findSlot geo n key) val))
            else .ok (-ENOENT, s₁))) := by
  unfold cbtreeUpdate
  rcases h.search key with ⟨hnull, -, hready⟩ | ⟨hready, s₁, R₁, hrun, hwarm, hlooked, -, -⟩
  · exact .inl ⟨hready, by rw [hnull]; rfl⟩
  refine .inr ⟨hready, s₁, R₁, hwarm, hlooked.write.head, ?_⟩
  rw [hrun, ok_bind]
  by_cases hzero : answer geo key s s.height s.node = 0#w
  · exact .inl ⟨hzero, if_pos hzero⟩
  · have hlvl : (G (answer geo key s s.height s.node)).lvl = 1 := by
      by_cases hh : s.height = 0
      · rw [hh] at hzero
        simp [answer, pathHit, plainLeaf] at hzero
      · obtain ⟨l, hl⟩ : ∃ l, s.height = l + 1 := ⟨s.height - 1, by omega⟩
        have hroot : (G s.node).lvl = l + 1 := by rw [h.tree.root_lvl (by omega), hl]
        rw [hl] at hzero ⊢
        exact answer_leaf key h.tree h.caches h.aimed hroot hzero
    obtain ⟨n, hn, hload, hholds⟩ := hwarm.tree.load (p := answer geo key s s.height s.node) (by omega)
    refine .inr ⟨n, hzero, hlvl, hn, hholds, ?_⟩
    simp only [if_neg hzero, hload, ok_bind]

/-! ## The right leaf -/

/-- The entries with another value for one key. -/
def withValue (K : Nat) (val : Ptr w) (es : Page w) : Page w :=
  es.map fun e => if e.1 = K then (e.1, val) else e

theorem withValue_absent {K : Nat} {l : Page w} (h : ∀ e ∈ l, e.1 ≠ K) : withValue K val l = l := by
  calc withValue K val l = l.map id := List.map_congr_left fun e he => if_neg (h e he)
    _ = l := List.map_id l

theorem withValue_middle {K : Nat} {v : Ptr w} {l₁ l₂ : Page w} (val : Ptr w)
    (hdesc : Descending (l₁ ++ (K, v) :: l₂)) :
    withValue K val (l₁ ++ (K, v) :: l₂) = l₁ ++ (K, val) :: l₂ := by
  obtain ⟨-, htail, hcross⟩ := hdesc.of_append
  have hleft : withValue K val l₁ = l₁ := withValue_absent fun e he =>
    (hcross e he (K, v) (by simp)).ne'
  have hright : withValue K val l₂ = l₂ := withValue_absent fun e he =>
    ((List.pairwise_cons.mp htail).1 e he).ne
  calc withValue K val (l₁ ++ (K, v) :: l₂) =
        withValue K val l₁ ++ (if K = K then (K, val) else (K, v)) :: withValue K val l₂ := by simp [withValue]
    _ = l₁ ++ (K, val) :: l₂ := by rw [hleft, hright, if_pos rfl]

theorem descending_withValue {K : Nat} {l : Page w} (h : Descending l) : Descending (withValue K val l) := by
  refine List.Pairwise.map _ (fun a b hab => ?_) h
  have hkey : ∀ e : Nat × Ptr w, (if e.1 = K then (e.1, val) else e).1 = e.1 := by
    intro e
    split <;> rfl
  rw [hkey, hkey]
  exact hab

/-- The value in the slot of the key is exchanged. -/
theorem Warm.write {n : Words w} {l₁ l₂ : Page w} {v : Ptr w} (h : Warm geo m r s G R) (hx : (G x).lvl = 1)
    (hn : s.heap x = some (.node n)) (hholds : Holds geo n (G x).page)
    (hpage : (G x).page = l₁ ++ (keyNum geo key, v) :: l₂) (hval : val ≠ 0#w) :
    ∃ G', Warm geo m r (s.setNode x (setval geo n l₁.length val)) G' R ∧
      entries geo (s.setNode x (setval geo n l₁.length val)) =
        withValue (keyNum geo key) val (entries geo s) := by
  have hchain : Chain (fun _ _ (_ : Ptr w) => True) (G x).lo (G x).hi (G x).page :=
    (h.tree.chain x (by omega)).imp le_rfl fun _ _ _ _ _ => trivial
  have hlen := hholds.length_le
  have hpage' := withValue_middle val (hpage ▸ hchain.descending)
  rw [← hpage] at hpage'
  rw [hpage] at hholds hchain hlen
  simp only [List.length_append, List.length_cons] at hlen
  have hchain' : Chain (fun _ _ _ => True) (G x).lo (G x).hi (l₁ ++ (keyNum geo key, val) :: l₂) := by
    rw [chain_append] at hchain ⊢
    exact hchain
  -- the keys of the leaf stay, so the tree does
  have htree := h.tree.setLeaf hx hchain' (fun hne => ?_) (s.setNode_toHead _)
    (fun q hq _ => State.setNode_heap_ne (setval geo n l₁.length val) hq) (State.setNode_heap_self _)
    (hholds.setval hval)
  swap
  · have := h.tree.fill x (by omega) hne
    rw [hpage] at this
    simpa using this
  have hsame : SameCache geo n (setval geo n l₁.length val) := sameCache_setval (by omega)
  refine ⟨_, ⟨htree, h.caches.setNode hn hsame, h.counted.setNode hn hsame, ?_⟩, ?_⟩
  · intro y e he hne
    obtain ⟨hy, hleaf⟩ := h.aimed y e he hne
    refine ⟨?_, ?_⟩
    · rwa [Function.update_of_ne (by rintro rfl; omega)]
    · by_cases hex : e.node = x
      · rw [hex, Function.update_self]
        exact hx
      · rwa [Function.update_of_ne hex]
  · -- every leaf holds what it held, with the new value for the key
    have hleaf : ∀ y, (G y).lvl = 1 →
        (Function.update G x { G x with page := l₁ ++ (keyNum geo key, val) :: l₂ } y).page =
          withValue (keyNum geo key) val (G y).page := by
      intro y hy
      by_cases hyx : y = x
      · rw [hyx, Function.update_self, hpage']
      · rw [Function.update_of_ne hyx, withValue_absent]
        intro e he heq
        have hmem : (keyNum geo key, v) ∈ (G x).page := by rw [hpage]; simp
        exact hyx (h.tree.key_unique (by omega) (by omega) hmem he heq)
    have hlvl : ∀ y, (Function.update G x { G x with page := l₁ ++ (keyNum geo key, val) :: l₂ } y).lvl =
        (G y).lvl := by
      intro y
      by_cases hyx : y = x
      · rw [hyx, Function.update_self]
      · rw [Function.update_of_ne hyx]
    refine htree.entries_descending.ext (descending_withValue h.tree.entries_descending) fun e => ?_
    rw [htree.mem_entries, withValue, List.mem_map]
    constructor
    · rintro ⟨y, hy, he⟩
      rw [hlvl] at hy
      rw [hleaf y hy, withValue, List.mem_map] at he
      obtain ⟨e₀, he₀, rfl⟩ := he
      exact ⟨e₀, h.tree.mem_entries.mpr ⟨y, hy, he₀⟩, rfl⟩
    · rintro ⟨e₀, he₀, rfl⟩
      obtain ⟨y, hy, hmem⟩ := h.tree.mem_entries.mp he₀
      refine ⟨y, by rw [hlvl, hy], ?_⟩
      rw [hleaf y hy, withValue, List.mem_map]
      exact ⟨e₀, hmem, rfl⟩

/-! ## The wrong leaf -/

/-- A value written behind the used slots makes an entry with key 0. -/
theorem Holds.setval_end {n : Words w} {l : Page w} (h : Holds geo n l) (hroom : l.length < geo.noPairs)
    (hval : val ≠ 0#w) : Holds geo (CachedBTree.setval geo n l.length val) (l ++ [(0, val)]) where
  length_le := by
    rw [List.length_append, List.length_singleton]
    exact hroom
  slot i hi := by
    rw [slotAt_setval hi, List.getD_eq_getElem?_getD, List.getElem?_append]
    have hslot := h.slot i hi
    rw [List.getD_eq_getElem?_getD] at hslot
    rcases Nat.lt_trichotomy i l.length with hlt | rfl | hgt
    · rw [if_neg hlt.ne, if_pos hlt, hslot]
    · have hkey : keyNum geo (bkey geo n l.length) = 0 := congrArg Prod.fst (h.slot_end le_rfl hi)
      rw [if_pos rfl, if_neg (lt_irrefl _), Nat.sub_self, hkey]
      rfl
    · have hnone : [((0 : Nat), val)][i - l.length]? = none := List.getElem?_eq_none (by
        rw [List.length_singleton]
        omega)
      rw [if_neg hgt.ne', if_neg hgt.not_gt, hnone, hslot, List.getElem?_eq_none hgt.le]
  used e he := by
    rw [List.mem_append, List.mem_singleton] at he
    rcases he with he | rfl
    · exact h.used e he
    · exact hval

/-- With more pairs in one leaf there are more entries. -/
theorem Tree.entriesBelow_longer {n' : Words w} (h : Tree geo m r 1 s G) (ha : (G a).lvl = 1)
    (hlonger : (G a).page.length < (pageOf geo n').length) : ∀ {d : Nat} {p : Ptr w}, (G p).lvl = d + 1 →
    (entriesBelow geo s (d + 1) p).length ≤ (entriesBelow geo (s.setNode a n') (d + 1) p).length ∧
    ((1, a) ∈ nodesBelow geo s (d + 1) p →
      (entriesBelow geo s (d + 1) p).length < (entriesBelow geo (s.setNode a n') (d + 1) p).length) := by
  intro d
  induction d with
  | zero =>
    intro p hp
    by_cases hpa : p = a
    · have hnew : (s.setNode a n').page geo p = pageOf geo n' := by
        simp only [State.page, hpa, State.setNode_heap_self]
      simp only [entriesBelow, hnew, h.page_eq (p := p) (by omega)]
      rw [← hpa] at hlonger
      exact ⟨hlonger.le, fun _ => hlonger⟩
    · -- `p` is not a leaf, so its page stays
      have hold : (s.setNode a n').page geo p = s.page geo p := by
        simp only [State.page, State.setNode_heap_ne _ hpa]
      simp only [entriesBelow, hold]
      refine ⟨le_rfl, fun hmem => ?_⟩
      simp only [nodesBelow, List.mem_cons, List.mem_flatMap, List.not_mem_nil, and_false, exists_false,
        or_false, Prod.mk.injEq] at hmem
      exact absurd hmem.2.symm hpa
  | succ d ih =>
    intro p hp
    have hpa : p ≠ a := by rintro rfl; omega
    have hold : (s.setNode a n').page geo p = s.page geo p := by
      simp only [State.page, State.setNode_heap_ne _ hpa]
    simp only [entriesBelow, hold, List.length_flatMap]
    have hchild : ∀ e ∈ s.page geo p, (G e.2).lvl = d + 1 := by
      intro e he
      rw [h.page_eq (by omega)] at he
      have := (h.child_of_mem (by omega) (by omega) he).1
      omega
    -- no subtree loses entries, and the one with `a` gains some
    have hle : ∀ e ∈ s.page geo p, (entriesBelow geo s (d + 1) e.2).length ≤
        (entriesBelow geo (s.setNode a n') (d + 1) e.2).length := fun e he =>
      (ih (hchild e he)).1
    refine ⟨List.sum_le_sum hle, fun hmem => List.sum_lt_sum _ _ hle ?_⟩
    rw [nodesBelow, List.mem_cons] at hmem
    cases hmem with
    | inl heq =>
      simp at heq
    | inr hmem =>
      obtain ⟨e, he, hbelow⟩ := List.mem_flatMap.mp hmem
      exact ⟨e, he, (ih (hchild e he)).2 hbelow⟩

/-- Key 0 is found in an unused slot of the wrong leaf, and then there is one entry too many. -/
theorem Tree.write_unused {n : Words w} (h : Tree geo m r 1 s G) (ha : (G a).lvl = 1)
    (hn : s.heap a = some (.node n)) (hroom : (G a).page.length < geo.noPairs) (hval : val ≠ 0#w) :
    (entries geo s).length < (entries geo (s.setNode a (setval geo n (G a).page.length val))).length := by
  obtain ⟨n₀, hn₀, hholds⟩ := h.stored a (by omega)
  obtain rfl : n₀ = n := by
    rw [hn₀] at hn
    exact Obj.node.inj (Option.some.inj hn)
  have hh : 1 ≤ s.height := by have := h.lvl_le a; omega
  obtain ⟨d, hd⟩ : ∃ d, s.height = d + 1 := ⟨s.height - 1, by omega⟩
  have hnode : (1, a) ∈ nodes geo s := h.mem_nodes.mpr ⟨le_rfl, ha⟩
  rw [nodes, hd] at hnode
  have hlonger : (G a).page.length < (pageOf geo (setval geo n₀ (G a).page.length val)).length := by
    rw [(hholds.setval_end hroom hval).pageOf]
    simp
  have hroot : (G s.node).lvl = d + 1 := by rw [h.root_lvl hh, hd]
  have hlt := (h.entriesBelow_longer ha hlonger hroot).2 hnode
  have hhead : (s.setNode a (setval geo n₀ (G a).page.length val)).toHead = s.toHead := rfl
  rw [entries, entries, hhead, hd]
  exact hlt

/-! ## The whole call -/

/-- The result of `cbtree_update` as its comment has it. -/
def UpdatesRight (geo : Geo) (s : State w) (key : Words w) (val : Ptr w)
    (result : Except Fault (Int × State w)) : Prop :=
  (Absent geo s key → ∃ s', result = .ok (-ENOENT, s') ∧ entries geo s' = entries geo s) ∧
  (¬Absent geo s key → ∃ s', result = .ok (0, s') ∧
    entries geo s' = withValue (keyNum geo key) val (entries geo s))

/-- The search has all it needs.  When the key is stored, the first cache that answers names its leaf, if
one answers.  When key 0 is not stored, the leaf that the search ends at has no unused slot, if it ends
at one. -/
def updateReaches (geo : Geo) (key : Words w) (s : State w) : Bool :=
  lookupReady geo key s s.height s.node &&
    if Absent geo s key then
      decide (keyNum geo key ≠ 0) || decide (answer geo key s s.height s.node = 0#w) ||
        decide ((s.page geo (answer geo key s s.height s.node)).length = geo.noPairs)
    else
      decide (pathHit geo key s s.height s.node = 0#w) ||
        (s.page geo (pathHit geo key s s.height s.node)).any fun e => decide (e.1 = keyNum geo key)

/-- The search for a stored key ends at its leaf. -/
theorem Warm.answer_stored {v : Ptr w} (h : Warm geo m r s G R) (hx : (G x).lvl = 1)
    (hmem : (keyNum geo key, v) ∈ (G x).page) : answer geo key s s.height s.node = x ↔
      (decide (pathHit geo key s s.height s.node = 0#w) ||
        (s.page geo (pathHit geo key s s.height s.node)).any fun e => decide (e.1 = keyNum geo key)) = true := by
  have hplain := h.tree.plainLeaf_stored hx hmem
  have hh : 1 ≤ s.height := by have := h.tree.lvl_le x; omega
  obtain ⟨l, hl⟩ : ∃ l, s.height = l + 1 := ⟨s.height - 1, by omega⟩
  rw [Bool.or_eq_true, decide_eq_true_eq, List.any_eq_true]
  by_cases hhit : pathHit geo key s s.height s.node = 0#w
  · simp [answer, hhit, hplain]
  · have hanswer : answer geo key s s.height s.node = pathHit geo key s s.height s.node := if_pos hhit
    have hleaf : (G (pathHit geo key s s.height s.node)).lvl = 1 := by
      rw [← hanswer, hl]
      apply answer_leaf key h.tree h.caches h.aimed (by rw [h.tree.root_lvl hh, hl])
      rw [← hl, hanswer]
      exact hhit
    rw [hanswer, h.tree.page_eq (by omega)]
    constructor
    · rintro rfl
      exact .inr ⟨_, hmem, by simp⟩
    · rintro (hzero | ⟨e, he, hkey⟩)
      · exact absurd hzero hhit
      · exact h.tree.key_unique (by omega) (by omega) hmem he (of_decide_eq_true hkey)

/-- How a call ends, for a key that is not stored. -/
theorem Warm.update_absent (val : Ptr w) (h : Warm geo m r s G R) (habsent : Absent geo s key) :
    (updateReaches geo key s = true ∧ ∃ s' R', cbtreeUpdate geo key val s = .ok (-ENOENT, s') ∧
      Warm geo m r s' G R') ∨
    (updateReaches geo key s = false ∧ ∀ s', cbtreeUpdate geo key val s ≠ .ok (-ENOENT, s')) := by
  rcases h.update_cases key val with ⟨hready, hnull⟩ | ⟨hready, s₁, R₁, hwarm, -, hend⟩
  · exact .inr ⟨by rw [updateReaches, hready, Bool.false_and], fun s' hrun => by rw [hnull] at hrun; cases hrun⟩
  have hreach : updateReaches geo key s = (decide (keyNum geo key ≠ 0) ||
      decide (answer geo key s s.height s.node = 0#w) ||
        decide ((s.page geo (answer geo key s s.height s.node)).length = geo.noPairs)) := by
    rw [updateReaches, hready, Bool.true_and, if_pos habsent]
  rcases hend with ⟨hzero, hrun⟩ | ⟨n, -, hlvl, -, hholds, hrun⟩
  · exact .inl ⟨by rw [hreach, hzero]; simp, s₁, R₁, hrun, hwarm⟩
  · have hslot := hholds.findSlot_absent key fun e he =>
      habsent e (h.tree.mem_entries.mpr ⟨_, hlvl, he⟩)
    have hlen := hholds.length_le
    rw [hslot] at hrun
    -- zero looks like the key of an unused slot, unless the leaf is full
    by_cases hbad : keyNum geo key = 0 ∧ (G (answer geo key s s.height s.node)).page.length ≠ geo.noPairs
    · refine .inr ⟨?_, fun s' hok => ?_⟩
      · rw [hreach, h.tree.page_eq (by omega)]
        simp [hbad, h.tree.ne_null (show 1 ≤ (G (answer geo key s s.height s.node)).lvl by omega)]
      · rw [if_pos hbad.1, if_pos (by omega)] at hrun
        rw [hrun] at hok
        simp [ENOENT] at hok
    · refine .inl ⟨?_, s₁, R₁, ?_, hwarm⟩
      · rw [hreach, h.tree.page_eq (by omega)]
        by_cases hzero : keyNum geo key = 0 <;> simp_all
      · rw [hrun, if_neg]
        split <;> simp_all

/-- How a call ends, for a key that is stored. -/
theorem Warm.update_stored (h : Warm geo m r s G R) (hval : val ≠ 0#w) (hstored : ¬Absent geo s key) :
    (updateReaches geo key s = true ∧ ∃ s' G' R', cbtreeUpdate geo key val s = .ok (0, s') ∧
      Warm geo m r s' G' R' ∧ entries geo s' = withValue (keyNum geo key) val (entries geo s)) ∨
    (updateReaches geo key s = false ∧ ∀ s', cbtreeUpdate geo key val s = .ok (0, s') →
      entries geo s' ≠ withValue (keyNum geo key) val (entries geo s)) := by
  rcases h.update_cases key val with ⟨hready, hnull⟩ | ⟨hready, s₁, R₁, hwarm, -, hend⟩
  · exact .inr ⟨by rw [updateReaches, hready, Bool.false_and], fun s' hrun => by rw [hnull] at hrun; cases hrun⟩
  obtain ⟨v, x, hx, hmem⟩ : ∃ v, PairAt G 1 (keyNum geo key, v) := by
    by_contra hnone
    exact hstored (h.tree.absent.mpr fun v hv => hnone ⟨v, hv⟩)
  have hreach : updateReaches geo key s = true ↔ answer geo key s s.height s.node = x := by
    rw [updateReaches, hready, Bool.true_and, if_neg hstored]
    exact (h.answer_stored hx hmem).symm
  have hentries : entries geo s₁ = entries geo s := h.tree.entries_congr hwarm.tree
  -- the search may end at another leaf than that of the key
  by_cases hright : answer geo key s s.height s.node = x
  · refine .inl ⟨hreach.mpr hright, ?_⟩
    rcases hend with ⟨hzero, -⟩ | ⟨n, -, -, hn, hholds, hrun⟩
    · exact absurd (hright.symm.trans hzero) (h.tree.ne_null (by omega))
    rw [hright] at hn hholds hrun
    obtain ⟨l₁, l₂, hpage⟩ := List.append_of_mem hmem
    have hdesc := (h.tree.chain x (by omega)).descending
    rw [hpage] at hdesc
    have hslot := (hpage ▸ hholds).findSlot_append hdesc (Eq.refl (keyNum geo key))
    have hlen := hholds.length_le
    rw [hpage, List.length_append, List.length_cons] at hlen
    rw [hslot, if_pos (by omega)] at hrun
    obtain ⟨G', hwarm', hnew⟩ := hwarm.write hx hn hholds hpage hval
    exact ⟨_, G', R₁, hrun, hwarm', by rw [hnew, hentries]⟩
  · refine .inr ⟨Bool.eq_false_iff.mpr fun htrue => hright (hreach.mp htrue), fun s' hok => ?_⟩
    rcases hend with ⟨-, hrun⟩ | ⟨n, -, hlvl, hn, hholds, hrun⟩
    · rw [hrun] at hok
      simp [ENOENT] at hok
    · -- there, the key is found in an unused slot or not at all
      have hslot := hholds.findSlot_absent key fun e he hkey =>
        hright (h.tree.key_unique (by omega) (by omega) hmem he hkey)
      rw [hslot] at hrun
      by_cases hzero : keyNum geo key = 0
      · rw [if_pos hzero] at hrun
        by_cases hroom : (G (answer geo key s s.height s.node)).page.length < geo.noPairs
        · rw [if_pos hroom] at hrun
          obtain rfl := congrArg Prod.snd (Except.ok.inj (hrun.symm.trans hok))
          have hlonger := hwarm.tree.write_unused hlvl hn hroom hval
          intro heq
          rw [heq, hentries, withValue, List.length_map] at hlonger
          omega
        · rw [if_neg hroom] at hrun
          rw [hrun] at hok
          simp [ENOENT] at hok
      · rw [if_neg hzero, if_neg (lt_irrefl _)] at hrun
        rw [hrun] at hok
        simp [ENOENT] at hok

/-- `cbtree_update` is right exactly when the search reaches the leaf of the key. -/
theorem Warm.updatesRight_iff (key : Words w) (h : Warm geo m r s G R) (hval : val ≠ 0#w) :
    UpdatesRight geo s key val (cbtreeUpdate geo key val s) ↔ updateReaches geo key s = true := by
  by_cases habsent : Absent geo s key
  · rcases h.update_absent val habsent with ⟨hreach, s', R', hrun, hwarm⟩ | ⟨hreach, hno⟩
    · exact iff_of_true ⟨fun _ => ⟨s', hrun, h.tree.entries_congr hwarm.tree⟩, fun hstored => absurd habsent hstored⟩
        hreach
    · rw [hreach]
      refine iff_of_false (fun hright => ?_) Bool.false_ne_true
      obtain ⟨s', hrun, -⟩ := hright.1 habsent
      exact hno s' hrun
  · rcases h.update_stored hval habsent with ⟨hreach, s', G', R', hrun, -, hnew⟩ | ⟨hreach, hno⟩
    · exact iff_of_true ⟨fun habsent' => absurd habsent' habsent, fun _ => ⟨s', hrun, hnew⟩⟩ hreach
    · rw [hreach]
      refine iff_of_false (fun hright => ?_) Bool.false_ne_true
      obtain ⟨s', hrun, hnew⟩ := hright.2 habsent
      exact hno s' hrun hnew

/-- Insertions, lookups, and updates that reach the leaf of the key. -/
def UpdatesReach (geo : Geo) : Cmd w → State w → Prop
  | .insert _ _, _ | .lookup _, _ => True
  | .update key val, s => val ≠ 0#w ∧ updateReaches geo key s = true
  | .remove _, _ => False

instance decidableUpdatesReach (geo : Geo) : ∀ (c : Cmd w) (s : State w), Decidable (UpdatesReach geo c s)
  | .insert _ _, _ | .lookup _, _ => isTrue trivial
  | .update key val, s => inferInstanceAs (Decidable (val ≠ 0#w ∧ updateReaches geo key s = true))
  | .remove _, _ => isFalse id

theorem warm_of_updates (hN : 4 ≤ geo.noPairs) (h₀ : Blank s₀) (h : Run geo (UpdatesReach geo) s₀ s) :
    ∃ G R, Warm geo (geo.noPairs / 2) 2 s G R := by
  refine h.keeps (I := fun s => ∃ G R, Warm geo (geo.noPairs / 2) 2 s G R) (fun c s s' hc hrun hs => ?_)
    ⟨_, _, h₀.warm⟩
  obtain ⟨G, R, hwarm⟩ := hs
  cases c with
  | insert key val =>
    obtain ⟨err, hrun⟩ := map_eq_ok.mp hrun
    obtain ⟨G', R', hwarm', -⟩ := hwarm.insert hN (by omega) le_rfl (by omega) le_rfl hrun
    exact ⟨G', R', hwarm'⟩
  | lookup key =>
    obtain ⟨ret, hrun⟩ := map_eq_ok.mp hrun
    obtain ⟨-, R', hwarm', -⟩ := hwarm.lookup hrun
    exact ⟨G, R', hwarm'⟩
  | update key val =>
    obtain ⟨ret, hrun⟩ := map_eq_ok.mp hrun
    -- an update for which the search ends elsewhere is not allowed here
    by_cases habsent : Absent geo s key
    · rcases hwarm.update_absent val habsent with ⟨-, s₁, R', hok, hwarm'⟩ | ⟨hreach, -⟩
      · obtain rfl := congrArg Prod.snd (Except.ok.inj (hok.symm.trans hrun))
        exact ⟨G, R', hwarm'⟩
      · exact absurd hc.2 (by simp [hreach])
    · rcases hwarm.update_stored hc.1 habsent with ⟨-, s₁, G', R', hok, hwarm', -⟩ | ⟨hreach, -⟩
      · obtain rfl := congrArg Prod.snd (Except.ok.inj (hok.symm.trans hrun))
        exact ⟨G', R', hwarm'⟩
      · exact absurd hc.2 (by simp [hreach])
  | remove => exact hc.elim

/-- In every run whose updates reach the leaf of their key, a further update does what its comment says
exactly when it reaches it too. -/
theorem cbtreeUpdate_iff (hN : 4 ≤ geo.noPairs) (h₀ : Blank s₀) (h : Run geo (UpdatesReach geo) s₀ s)
    (key : Words w) (hval : val ≠ 0#w) :
    UpdatesRight geo s key val (cbtreeUpdate geo key val s) ↔ updateReaches geo key s = true := by
  obtain ⟨G, R, hwarm⟩ := warm_of_updates hN h₀ h
  exact hwarm.updatesRight_iff key hval

/-- Two leaves, and the lower one in the cache of the root. -/
def cachedLower : State 64 := Cmd.execAll Machine.x86_64.cbtree_geo64 (UpdatesReach Machine.x86_64.cbtree_geo64)
  (eightInserts ++ [.lookup (wordKey 3), .update (wordKey 2) 0x99#64]) (arena 4)

theorem cachedLower_run :
    Run Machine.x86_64.cbtree_geo64 (UpdatesReach Machine.x86_64.cbtree_geo64) (arena 4) cachedLower :=
  Cmd.run_execAll _ _ _ (arena 4)

theorem cachedLower_reached : updateReaches Machine.x86_64.cbtree_geo64 (wordKey 3) cachedLower = true := by
  decide +kernel

theorem cbtreeUpdate_iff_cached_lower :
    updateReaches Machine.x86_64.cbtree_geo64 (wordKey 3) cachedLower = true ∧
    UpdatesRight Machine.x86_64.cbtree_geo64 cachedLower (wordKey 3) 0x88#64
      (cbtreeUpdate Machine.x86_64.cbtree_geo64 (wordKey 3) 0x88#64 cachedLower) :=
  ⟨cachedLower_reached, (cbtreeUpdate_iff (by decide) (arena_blank 4) cachedLower_run (wordKey 3)
    (by decide)).mpr cachedLower_reached⟩

/-- Key 6 is in the upper leaf, and the cache of the root sends its update to the lower one. -/
theorem cbtreeUpdate_misses_stored :
    ¬∀ s, Run Machine.x86_64.cbtree_geo64 (UpdatesReach Machine.x86_64.cbtree_geo64) (arena 4) s →
      ∀ key : Words 64, UpdatesRight Machine.x86_64.cbtree_geo64 s key 0x88#64
        (cbtreeUpdate Machine.x86_64.cbtree_geo64 key 0x88#64 s) := by
  intro hclaim
  have hstored : ¬Absent Machine.x86_64.cbtree_geo64 cachedLower (wordKey 6) := by decide +kernel
  have hresult : returned (cbtreeUpdate Machine.x86_64.cbtree_geo64 (wordKey 6) 0x88#64 cachedLower) =
      some (-ENOENT) := by decide +kernel
  obtain ⟨s', hrun, -⟩ := (hclaim cachedLower cachedLower_run (wordKey 6)).2 hstored
  rw [hrun] at hresult
  cases hresult

end CachedBTree
