import CachedBTree.Caching.Cold
import CachedBTree.Caching.Updates

/-! # The search with and without caches

With all caches emptied the search is the descent by the separators.  The caches change
its answer whenever the first of them that answers does not name the leaf it would end at. -/

namespace CachedBTree

open CachedBTree.Support

variable {w : Nat} {geo : Geo} {s s' s₀ : State w} {p q x : Ptr w} {R : Rings w} {G : Labels w} {m r : Nat}
  {key : Words w}

/-! ## Empty caches -/

def Obj.emptied : Obj w → Obj w
  | .entry _ key next => .entry 0#w key next
  | o => o

/-- No entry names a node. -/
def State.emptied (s : State w) : State w := { s with heap := fun x => (s.heap x).map Obj.emptied }

def Entry.emptied (e : Entry w) : Entry w := { e with node := 0#w }

theorem State.emptied_eq {o : Obj w} (hx : s.heap x = some o) : s.emptied.heap x = some o.emptied := by
  simp only [emptied, hx, Option.map_some]

theorem State.emptied_node {n : Words w} : s.emptied.heap x = some (.node n) ↔ s.heap x = some (.node n) := by
  cases hx : s.heap x with
  | none => simp [emptied, hx]
  | some o => cases o <;> simp [emptied, hx, Obj.emptied]

theorem State.emptied_write (geo : Geo) (s : State w) : CacheWrite geo s s.emptied where
  mem := rfl
  node x n hx := ⟨n, emptied_node.mpr hx, fun _ _ => rfl⟩
  back x n hx := ⟨n, emptied_node.mp hx⟩
  live x := by simp [emptied]

theorem Linked.emptied {last : Ptr w} : ∀ {es : List (Entry w)}, Linked s last es →
    Linked s.emptied last (es.map Entry.emptied)
  | [], _ => trivial
  | e :: es, h => by
    refine ⟨?_, h.2.emptied⟩
    have hnext : firstAddr last (es.map Entry.emptied) = firstAddr last es := by cases es <;> rfl
    rw [hnext]
    exact State.emptied_eq h.1

theorem Ring.emptied {es : List (Entry w)} (h : Ring s q es) : Ring s.emptied q (es.map Entry.emptied) := by
  have hfirst : firstAddr 0#w (es.map Entry.emptied) = firstAddr 0#w es := by cases es <;> rfl
  refine ⟨⟨h.queue.1, ?_⟩, ?_, ?_, ?_, ?_, ?_, ?_⟩
  · rw [hfirst]
    exact State.emptied_eq h.queue.2
  · rw [List.length_map, h.length]
  · rw [hfirst]
    exact h.linked.emptied
  · exact List.forall_mem_map.mpr fun e he => h.addr_ne e he
  · rw [List.map_map]
    exact h.addrs
  · intro e' he'
    obtain ⟨e, he, rfl⟩ := List.mem_map.mp he'
    rcases h.key e he with ⟨hkey, -⟩ | ⟨hkey, ws, hws⟩
    · exact .inl ⟨hkey, rfl⟩
    · exact .inr ⟨hkey, ws, State.emptied_eq hws⟩
  · exact List.pairwise_map.mpr h.keys

theorem Caches.emptied (h : Caches geo s R) : Caches geo s.emptied fun p => (R p).map Entry.emptied where
  null n hn := h.null n (State.emptied_node.mp hn)
  node p hp := by
    obtain ⟨n, hn⟩ := h.node p fun hnil => hp (by rw [hnil, List.map_nil])
    exact ⟨n, State.emptied_node.mpr hn⟩
  ring p n hn := by
    rcases h.ring p n (State.emptied_node.mp hn) with ⟨hzero, hnil, hfail⟩ | hring
    · exact .inl ⟨hzero, by rw [hnil, List.map_nil], hfail⟩
    · exact .inr hring.emptied
  apart p q x hp hq := by
    have howns : ∀ y, Owns geo s.emptied (fun p => (R p).map Entry.emptied) y x → Owns geo s R y x := by
      rintro y (⟨n, hn, hne, heq⟩ | ⟨e, he, heq⟩)
      · exact .inl ⟨n, State.emptied_node.mp hn, fun hnil => hne (congrArg (List.map Entry.emptied) hnil), heq⟩
      · obtain ⟨a, ha, rfl⟩ := List.mem_map.mp he
        exact .inr ⟨a, ha, heq⟩
    exact h.apart p q x (howns p hp) (howns q hq)
  keyed hk p := List.forall_mem_map.mpr fun e he => h.keyed hk p e he
  idle p n hn := h.idle p n (State.emptied_node.mp hn)
  live p := List.forall_mem_map.mpr fun e _ hne => absurd rfl hne

theorem stepDown_emptied (p : Ptr w) : stepDown geo key s.emptied p = stepDown geo key s p := by
  unfold stepDown
  cases hp : s.heap p with
  | none => simp [State.emptied, hp]
  | some o => cases o <;> simp [State.emptied, hp, Obj.emptied]

theorem plainLeaf_emptied : ∀ (d : Nat) (p : Ptr w),
    plainLeaf geo key s.emptied d p = plainLeaf geo key s d p
  | 0, _ => rfl
  | 1, p => by
    unfold plainLeaf
    cases hp : s.heap p with
    | none => simp [State.emptied, hp]
    | some o => cases o <;> simp [State.emptied, hp, Obj.emptied]
  | d + 2, p => by
    rw [plainLeaf_succ, plainLeaf_succ, stepDown_emptied, plainLeaf_emptied (d + 1)]

/-! ## Agreement -/

/-- The call returns, and what it returns does not depend on what the caches hold. -/
def AgreesWithPlain (geo : Geo) (key : Words w) (s : State w) : Prop :=
  ∃ found s₁ s₂, cbtreeLookupNode geo key s.height s.node s = .ok (found, s₁) ∧
    cbtreeLookupNode geo key s.height s.node s.emptied = .ok (found, s₂)

/-- Both searches have all they need, and the first cache that answers names the leaf that holds the key,
if one answers.  Without a leaf that holds it, which leaf is right is only a question for key 0. -/
def hitsRight (geo : Geo) (key : Words w) (s : State w) : Bool :=
  lookupReady geo key s s.height s.node && lookupReady geo key s.emptied s.height s.node &&
    (decide (pathHit geo key s s.height s.node = 0#w) ||
      ((s.page geo (pathHit geo key s s.height s.node)).any fun e => decide (e.1 = keyNum geo key)) ||
      decide (keyNum geo key = 0 ∧ pathHit geo key s s.height s.node = plainLeaf geo key s s.height s.node))

/-- How a search through the head ends. -/
theorem Caches.search (key : Words w) (h : Tree geo m r 1 s G) (hC : Caches geo s R) :
    (cbtreeLookupNode geo key s.height s.node s = .error .nullDeref ∧
      lookupReady geo key s s.height s.node = false) ∨
    (lookupReady geo key s s.height s.node = true ∧ ∃ s', cbtreeLookupNode geo key s.height s.node s =
      .ok (answer geo key s s.height s.node, s')) := by
  by_cases hh : s.height = 0
  · rw [hh]
    exact .inr ⟨rfl, s, by simp [cbtreeLookupNode, answer, pathHit, plainLeaf]⟩
  · obtain ⟨l, hl⟩ : ∃ l, s.height = l + 1 := ⟨s.height - 1, by omega⟩
    have hroot : (G s.node).lvl = l + 1 := by rw [h.root_lvl (by omega), hl]
    rw [hl]
    rcases h.lookup key hC hroot with ⟨hnull, -, hready⟩ | ⟨hready, s', R', hrun, -⟩
    · exact .inl ⟨hnull, hready⟩
    · exact .inr ⟨hready, s', hrun⟩

/-- Without what they hold, the caches have no answer. -/
theorem Caches.answer_emptied (key : Words w) (hC : Caches geo s R) (d : Nat) (p : Ptr w) :
    answer geo key s.emptied d p = plainLeaf geo key s d p := by
  have hcold : Cold fun p => (R p).map Entry.emptied := fun p => List.forall_mem_map.mpr fun e _ => rfl
  rw [answer_cold (hcold.cacheHit key hC.emptied), plainLeaf_emptied]

theorem Warm.pathHit_leaf (key : Words w) (h : Warm geo m r s G R) (hhit : pathHit geo key s s.height s.node ≠ 0#w) :
    (G (pathHit geo key s s.height s.node)).lvl = 1 := by
  have hanswer : answer geo key s s.height s.node = pathHit geo key s s.height s.node := if_pos hhit
  by_cases hh : s.height = 0
  · rw [hh] at hhit
    exact absurd rfl hhit
  · obtain ⟨l, hl⟩ : ∃ l, s.height = l + 1 := ⟨s.height - 1, by omega⟩
    rw [← hanswer] at hhit ⊢
    rw [hl] at hhit ⊢
    exact answer_leaf key h.tree h.caches h.aimed (by rw [h.tree.root_lvl (by omega), hl]) hhit

/-- The caches do not change what the search ends at. -/
theorem Warm.answer_plain (key : Words w) (h : Warm geo m r s G R) :
    answer geo key s s.height s.node = plainLeaf geo key s s.height s.node ↔
      (decide (pathHit geo key s s.height s.node = 0#w) ||
      ((s.page geo (pathHit geo key s s.height s.node)).any fun e => decide (e.1 = keyNum geo key)) ||
      decide (keyNum geo key = 0 ∧ pathHit geo key s s.height s.node = plainLeaf geo key s s.height s.node)) =
        true := by
  by_cases hhit : pathHit geo key s s.height s.node = 0#w
  · simp [answer, hhit]
  have hanswer : answer geo key s s.height s.node = pathHit geo key s s.height s.node := if_pos hhit
  by_cases hstored : ∃ v, PairAt G 1 (keyNum geo key, v)
  · -- a stored key is in one leaf only, which is where the descent ends
    obtain ⟨v, x, hx, hmem⟩ := hstored
    have hright := h.answer_stored hx hmem
    rw [h.tree.plainLeaf_stored hx hmem, hright, Bool.or_eq_true (_ || _)]
    refine ⟨.inl, ?_⟩
    rintro (hcache | hzero)
    · exact hcache
    · exact hright.mp (hanswer.trans (of_decide_eq_true hzero).2)
  · -- no leaf holds the key, so the two agree on an unused slot or not at all
    have hnone : ((s.page geo (pathHit geo key s s.height s.node)).any fun e =>
        decide (e.1 = keyNum geo key)) = false := by
      rw [h.tree.page_eq (by rw [h.pathHit_leaf key hhit]), List.any_eq_false]
      intro e he hkey
      exact hstored ⟨e.2, _, h.pathHit_leaf key hhit, by rwa [← of_decide_eq_true hkey]⟩
    rw [hnone, hanswer, Bool.or_false, decide_eq_false hhit, Bool.false_or, decide_eq_true_eq]
    refine ⟨fun heq => ⟨?_, heq⟩, And.right⟩
    rw [heq] at hhit
    exact h.tree.plainLeaf_root_absent (fun v hv => hstored ⟨v, hv⟩) hhit

/-- After every run of insertions and lookups the search agrees with the one without caches exactly when
the caches on its way are right. -/
theorem cbtreeLookupNode_agrees_iff (hN : 4 ≤ geo.noPairs) (h₀ : Blank s₀) (h : Run geo InsertsLooksUp s₀ s)
    (key : Words w) : AgreesWithPlain geo key s ↔ hitsRight geo key s = true := by
  obtain ⟨G, R, hwarm⟩ := warm_of_calls hN h₀ h
  have htree := (State.emptied_write geo s).tree hwarm.tree
  unfold hitsRight
  rw [Bool.and_eq_true, Bool.and_eq_true, ← hwarm.answer_plain key]
  rcases hwarm.caches.search key hwarm.tree with ⟨hnull, hready⟩ | ⟨hready, s₁, hcached⟩
  · rw [hready]
    refine iff_of_false ?_ fun hand => Bool.false_ne_true hand.1.1
    rintro ⟨found, s₁, s₂, hrun, -⟩
    rw [hnull] at hrun
    cases hrun
  rcases hwarm.caches.emptied.search key htree with ⟨hnull, hready'⟩ | ⟨hready', s₂, hempty⟩
  · refine iff_of_false ?_ fun hand => Bool.false_ne_true (hready'.symm.trans hand.1.2)
    rintro ⟨found, s₁, s₂, -, hrun⟩
    have hboth := hnull.symm.trans hrun
    cases hboth
  · rw [hwarm.caches.answer_emptied key] at hempty
    constructor
    · rintro ⟨found, t₁, t₂, hrun₁, hrun₂⟩
      have hfound := (Prod.mk.inj (Except.ok.inj (hcached.symm.trans hrun₁))).1
      have hfound' := (Prod.mk.inj (Except.ok.inj (hempty.symm.trans hrun₂))).1
      exact ⟨⟨hready, hready'⟩, hfound.trans hfound'.symm⟩
    · rintro ⟨-, hsame⟩
      rw [hsame] at hcached
      exact ⟨_, s₁, s₂, hcached, hempty⟩

/-- Keys 2 and 3 are in one leaf. -/
theorem hitsRight_after_lookup : hitsRight Machine.x86_64.cbtree_geo64 (wordKey 2) afterLookup = true := by
  decide +kernel

theorem cbtreeLookupNode_agrees_iff_after_lookup :
    AgreesWithPlain Machine.x86_64.cbtree_geo64 (wordKey 2) afterLookup :=
  (cbtreeLookupNode_agrees_iff (by decide) (arena_blank 4) afterLookup_run (wordKey 2)).mpr hitsRight_after_lookup

/-- Key 6 is in the upper leaf, and the cache of the root names the lower one. -/
theorem cbtreeLookupNode_disagrees :
    ¬∀ s, Run Machine.x86_64.cbtree_geo64 InsertsLooksUp (arena 4) s →
      ∀ key : Words 64, AgreesWithPlain Machine.x86_64.cbtree_geo64 key s := by
  intro hclaim
  obtain ⟨found, s₁, s₂, hcached, hempty⟩ := hclaim afterLookup afterLookup_run (wordKey 6)
  have hlower : returned (cbtreeLookupNode Machine.x86_64.cbtree_geo64 (wordKey 6) afterLookup.height
      afterLookup.node afterLookup) = some 0x1000#64 := by decide +kernel
  have hupper : returned (cbtreeLookupNode Machine.x86_64.cbtree_geo64 (wordKey 6) afterLookup.height
      afterLookup.node afterLookup.emptied) ≠ some 0x1000#64 := by decide +kernel
  rw [hcached] at hlower
  rw [hempty] at hupper
  exact hupper hlower

end CachedBTree
