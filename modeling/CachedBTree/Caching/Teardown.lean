import CachedBTree.Caching.Lifecycle
import CachedBTree.Caching.Profile
import CachedBTree.Caching.Sizes
import Mathlib.Data.List.Flatten

/-! # What the destruction of a tree leaves

`cbtree_destroy` gives back the root.  It walks over no other node, and it does not call
`freeQueue`, so the queue of the root outlives the root. -/

namespace CachedBTree

open CachedBTree.Support

variable {w : Nat} {geo : Geo} {s s' s₀ : State w} {p x : Ptr w} {R : Rings w} {G : Labels w} {m r : Nat}

/-- The queue of the node at `p`, its entries and their key buffers. -/
def queueParts (geo : Geo) (s : State w) (p : Ptr w) : List (Ptr w) :=
  (s.queueWord geo p :: ((s.cache geo p).map Entry.addr ++ (s.cache geo p).map Entry.key)).filter (· ≠ 0#w)

/-- The nodes of the tree and what belongs to their queues. -/
def treeMemory (geo : Geo) (s : State w) : List (Ptr w) :=
  (nodes geo s).map Prod.snd ++ ((nodes geo s).map Prod.snd).flatMap (queueParts geo s)

/-- All of it but the root. -/
def leftBehind (geo : Geo) (s : State w) : List (Ptr w) := (treeMemory geo s).erase s.node

/-! ## The parts of a queue -/

namespace Caches

theorem queueWord (h : Caches geo s R) (p : Ptr w) :
    s.queueWord geo p = 0#w ∧ R p = [] ∨ ∃ n, s.heap p = some (.node n) ∧ s.queueWord geo p = n geo.arrLen ∧
      Ring s (n geo.arrLen) (R p) := by
  by_cases hnode : ∃ n, s.heap p = some (.node n)
  · obtain ⟨n, hn⟩ := hnode
    have hword : s.queueWord geo p = n geo.arrLen := by rw [State.queueWord, hn]
    rcases h.ring p n hn with ⟨hzero, hnil, -⟩ | hring
    · exact .inl ⟨hword.trans hzero, hnil⟩
    · exact .inr ⟨n, hn, hword, hring⟩
  · refine .inl ⟨?_, by_contra fun hne => hnode (h.node p hne)⟩
    unfold State.queueWord
    split
    next n hn => exact absurd ⟨n, hn⟩ hnode
    next => rfl

theorem mem_queueParts (h : Caches geo s R) : x ∈ queueParts geo s p ↔ Owns geo s R p x := by
  unfold queueParts
  rw [h.cache, List.mem_filter, List.mem_cons, List.mem_append, List.mem_map, List.mem_map, decide_eq_true_eq]
  rcases h.queueWord p with ⟨hzero, hnil⟩ | ⟨n, hn, hword, hring⟩
  · constructor
    · rintro ⟨rfl | ⟨e, he, -⟩ | ⟨e, he, -⟩, hne⟩
      · exact absurd hzero hne
      · simp [hnil] at he
      · simp [hnil] at he
    · rintro (⟨n, -, hne, -⟩ | ⟨e, he, -⟩)
      · exact absurd hnil hne
      · simp [hnil] at he
  · rw [hword]
    constructor
    · rintro ⟨rfl | ⟨e, he, rfl⟩ | ⟨e, he, rfl⟩, hne⟩
      · exact .inl ⟨n, hn, hring.ne_nil, rfl⟩
      · exact .inr ⟨e, he, .inl rfl⟩
      · exact .inr ⟨e, he, .inr ⟨hne, rfl⟩⟩
    · intro hown
      obtain ⟨n', hn', -, hpart⟩ := h.owns hown
      obtain rfl : n = n' := Obj.node.inj (Option.some.inj (hn.symm.trans hn'))
      rcases hpart with rfl | ⟨e, he, rfl | ⟨hne, rfl⟩⟩
      · exact ⟨.inl rfl, hring.queue.1⟩
      · exact ⟨.inr (.inl ⟨e, he, rfl⟩), hring.addr_ne e he⟩
      · exact ⟨.inr (.inr ⟨e, he, rfl⟩), hne⟩

/-- The queue, the entries and the buffers are objects of three kinds, so no two of them are the same. -/
theorem queueParts_nodup (h : Caches geo s R) (p : Ptr w) : (queueParts geo s p).Nodup := by
  unfold queueParts
  rw [h.cache]
  rcases h.queueWord p with ⟨hzero, hnil⟩ | ⟨n, -, hword, hring⟩
  · simp [hzero, hnil]
  have hentry : ∀ e ∈ R p, ∃ next, s.heap e.addr = some (.entry e.node e.key next) := fun e he =>
    hring.linked.entry he
  have hbuf : ∀ e ∈ R p, e.key ≠ 0#w → ∃ ws, s.heap e.key = some (.buf ws) := fun e he hne =>
    ((hring.key e he).resolve_left fun hnull => hne hnull.1).2
  rw [hword, List.filter_cons_of_pos (by simpa using hring.queue.1), List.filter_append]
  refine List.nodup_cons.mpr ⟨fun hmem => ?_, List.nodup_append.mpr ⟨hring.addrs.filter _, ?_, ?_⟩⟩
  · simp only [List.mem_append, List.mem_filter, List.mem_map, decide_eq_true_eq] at hmem
    rcases hmem with ⟨⟨e, he, heq⟩, -⟩ | ⟨⟨e, he, heq⟩, hne⟩
    · obtain ⟨next, hnext⟩ := hentry e he
      rw [heq, hring.queue.2] at hnext
      cases hnext
    · obtain ⟨ws, hws⟩ := hbuf e he (heq ▸ hne)
      rw [heq, hring.queue.2] at hws
      cases hws
  · -- a buffer belongs to one entry only
    rw [List.filter_map]
    refine List.pairwise_map.mpr ?_
    refine (List.pairwise_filter.mpr (hring.keys.imp fun hown ha _ => hown ?_))
    simpa using ha
  · intro a ha b hb heq
    simp only [List.mem_filter, List.mem_map, decide_eq_true_eq] at ha hb
    obtain ⟨⟨e, he, rfl⟩, -⟩ := ha
    obtain ⟨⟨e', he', rfl⟩, hne⟩ := hb
    obtain ⟨next, hnext⟩ := hentry e he
    obtain ⟨ws, hws⟩ := hbuf e' he' hne
    rw [heq, hws] at hnext
    cases hnext

/-- Nine objects, unless a `kmalloc` has failed. -/
theorem length_queueParts (h : Caches geo s R) (hk : s.kfail = false) (hp : s.LiveNode p) :
    (queueParts geo s p).length = 9 := by
  obtain ⟨n, hn⟩ := hp
  have hring : Ring s (n geo.arrLen) (R p) := (h.ring p n hn).resolve_left fun hnone => by
    rw [hk] at hnone
    cases hnone.2.2
  have hword : s.queueWord geo p = n geo.arrLen := by rw [State.queueWord, hn]
  have hall : ∀ x ∈ s.queueWord geo p :: ((R p).map Entry.addr ++ (R p).map Entry.key), x ≠ 0#w := by
    intro x hx
    simp only [List.mem_cons, List.mem_append, List.mem_map] at hx
    rcases hx with rfl | ⟨e, he, rfl⟩ | ⟨e, he, rfl⟩
    · exact hword ▸ hring.queue.1
    · exact hring.addr_ne e he
    · exact h.keyed hk p e he
  unfold queueParts
  rw [h.cache, List.filter_eq_self.mpr fun x hx => decide_eq_true (hall x hx)]
  simp [hring.length]

end Caches

/-! ## The memory of the tree -/

theorem Tree.liveNode (h : Tree geo m r 1 s G) (hp : p ∈ (nodes geo s).map Prod.snd) : s.LiveNode p := by
  obtain ⟨⟨l, q⟩, hq, rfl⟩ := List.mem_map.mp hp
  obtain ⟨hl, hlvl⟩ := h.mem_nodes.mp hq
  obtain ⟨n, hn, -⟩ := h.stored q (by omega)
  exact ⟨n, hn⟩

theorem Warm.live_of_mem_treeMemory (h : Warm geo m r s G R) (hx : x ∈ treeMemory geo s) : s.heap x ≠ none := by
  rcases List.mem_append.mp hx with hnode | hpart
  · obtain ⟨n, hn⟩ := h.tree.liveNode hnode
    simp [hn]
  · obtain ⟨p, -, hp⟩ := List.mem_flatMap.mp hpart
    obtain ⟨o, ho, -⟩ := h.caches.owns_object (h.caches.mem_queueParts.mp hp)
    simp [ho]

theorem Warm.ne_null_of_mem_treeMemory (h : Warm geo m r s G R) (hx : x ∈ treeMemory geo s) : x ≠ 0#w := by
  rcases List.mem_append.mp hx with hnode | hpart
  · rintro rfl
    obtain ⟨n, hn⟩ := h.tree.liveNode hnode
    exact h.caches.null n hn
  · obtain ⟨p, -, hp⟩ := List.mem_flatMap.mp hpart
    simpa using (List.mem_filter.mp hp).2

theorem Warm.treeMemory_nodup (h : Warm geo m r s G R) : (treeMemory geo s).Nodup := by
  have hnodes := h.tree.btreeInv.once
  refine List.nodup_append.mpr ⟨hnodes, List.nodup_flatMap.mpr ⟨fun p _ => h.caches.queueParts_nodup p, ?_⟩, ?_⟩
  · refine hnodes.imp fun {p q} hne => List.disjoint_left.mpr fun x hp hq => hne ?_
    exact h.caches.apart p q x (h.caches.mem_queueParts.mp hp) (h.caches.mem_queueParts.mp hq)
  · rintro a ha b hb rfl
    obtain ⟨n, hn⟩ := h.tree.liveNode ha
    obtain ⟨p, -, hp⟩ := List.mem_flatMap.mp hb
    obtain ⟨o, ho, hnot⟩ := h.caches.owns_object (h.caches.mem_queueParts.mp hp)
    exact hnot n (Option.some.inj (ho.symm.trans hn))

theorem Warm.length_treeMemory (h : Warm geo m r s G R) (hk : s.kfail = false) :
    (treeMemory geo s).length = 10 * (nodes geo s).length := by
  have hparts : ∀ p ∈ (nodes geo s).map Prod.snd, (queueParts geo s p).length = 9 := fun p hp =>
    h.caches.length_queueParts hk (h.tree.liveNode hp)
  rw [treeMemory, List.length_append, List.length_flatMap, List.map_congr_left hparts, List.map_const',
    List.sum_replicate_nat, List.length_map]
  omega

theorem Tree.root_mem_nodes (h : Tree geo m r 1 s G) (hne : s.node ≠ 0#w) : s.node ∈ (nodes geo s).map Prod.snd := by
  have hh : s.height ≠ 0 := fun hzero => hne (h.empty hzero)
  have hroot := h.root_lvl (by omega)
  exact List.mem_map.mpr ⟨_, h.mem_nodes.mpr ⟨by omega, hroot⟩, rfl⟩

theorem Warm.length_leftBehind (h : Warm geo m r s G R) (hk : s.kfail = false) :
    (leftBehind geo s).length = 10 * (nodes geo s).length - 1 := by
  rw [leftBehind, ← h.length_treeMemory hk]
  by_cases hnull : s.node = 0#w
  · have hh : s.height = 0 := by
      by_contra hne
      exact h.tree.ne_null (by rw [h.tree.root_lvl (by omega)]; omega) hnull
    simp [treeMemory, nodes, hh, nodesBelow]
  · exact List.length_erase_of_mem (List.mem_append_left _ (h.tree.root_mem_nodes hnull))

/-- There are enough nodes for the entries. -/
theorem Tree.length_entriesBelow_le_nodesBelow (h : Tree geo m r 1 s G) : ∀ {d : Nat} {q : Ptr w},
    (G q).lvl = d + 1 →
    (entriesBelow geo s (d + 1) q).length ≤ geo.noPairs * (nodesBelow geo s (d + 1) q).length := by
  intro d
  induction d with
  | zero =>
    intro q hq
    have hone : (nodesBelow geo s 1 q).length = 1 := by simp [nodesBelow]
    rw [hone, Nat.mul_one]
    exact h.length_page_le (by omega)
  | succ d ih =>
    intro q hq
    have hchildren := h.of_children hq fun c hc _ => ih hc
    calc (entriesBelow geo s (d + 2) q).length
        ≤ geo.noPairs * ((s.page geo q).flatMap fun e => nodesBelow geo s (d + 1) e.2).length :=
          length_flatMap_le_mul hchildren
      _ ≤ geo.noPairs * (nodesBelow geo s (d + 2) q).length :=
          Nat.mul_le_mul_left _ (by rw [nodesBelow, List.length_cons]; omega)

theorem Tree.length_entries_le_nodes (h : Tree geo m r 1 s G) :
    (entries geo s).length ≤ geo.noPairs * (nodes geo s).length := by
  rcases hh : s.height with _ | d
  · simp [entries, hh, entriesBelow]
  · rw [entries, nodes, hh]
    exact h.length_entriesBelow_le_nodesBelow ((h.root_lvl (by omega)).trans hh)

/-! ## The destruction -/

theorem Warm.destroy (h : Warm geo m r s G R) : ∃ s', cbtreeDestroy s = .ok s' ∧
    ∀ x, s'.heap x = if x = s.node ∧ x ≠ 0#w then none else s.heap x := by
  by_cases hnull : s.node = 0#w
  · refine ⟨s, State.free_eq_ok.mpr (.inl ⟨hnull, rfl⟩), fun x => (if_neg ?_).symm⟩
    rintro ⟨rfl, hne⟩
    exact hne hnull
  · have hlive := h.live_of_mem_treeMemory (List.mem_append_left _ (h.tree.root_mem_nodes hnull))
    refine ⟨s.setObj s.node none, State.free_eq_ok.mpr (.inr ⟨hnull, hlive, rfl⟩), fun x => ?_⟩
    rw [State.setObj_heap]
    exact ite_congr (propext ⟨fun heq => ⟨heq, heq ▸ hnull⟩, And.left⟩) (fun _ => rfl) fun _ => rfl

/-- What is left of the tree: the parts of it are still there, ten for each node where all `kmalloc`s have
succeeded, and there are nodes for all entries. -/
structure LeftBehind (geo : Geo) (s s' : State w) : Prop where
  nodup : (leftBehind geo s).Nodup
  live : ∀ x ∈ leftBehind geo s, s'.heap x ≠ none
  length : s.kfail = false → (leftBehind geo s).length = 10 * (nodes geo s).length - 1
  enough : (entries geo s).length ≤ geo.noPairs * (nodes geo s).length

theorem Warm.leftBehind (h : Warm geo m r s G R)
    (hheap : ∀ x, s'.heap x = if x = s.node ∧ x ≠ 0#w then none else s.heap x) : LeftBehind geo s s' where
  nodup := h.treeMemory_nodup.erase _
  live x hx := by
    obtain ⟨hne, hmem⟩ := h.treeMemory_nodup.mem_erase_iff.mp hx
    rw [hheap, if_neg fun hroot => hne hroot.1]
    exact h.live_of_mem_treeMemory hmem
  length := h.length_leftBehind
  enough := h.tree.length_entries_le_nodes

theorem KeepsLifecycle.insertsLooksUpRemoves : ∀ {c : Cmd w} {s : State w}, KeepsLifecycle geo c s →
    InsertsLooksUpRemoves c s
  | .insert _ _, _, _ | .lookup _, _, _ | .remove _, _, _ => trivial

theorem accounted_of_calls (hN : 4 ≤ geo.noPairs) (h₀ : Blank s₀) (h : Run geo (KeepsLifecycle geo) s₀ s) :
    ∃ G R, Housed geo s G R ∧ Accounted geo s₀ s R := by
  apply h.keeps (I := fun s => ∃ G R, Housed geo s G R ∧ Accounted geo s₀ s R) ?_
    ⟨_, _, ⟨h₀.warm, fun x n hx => absurd hx (h₀.nodes x n)⟩, fun x o hx => .inl (by simp [hx])⟩
  rintro c s s' hkeep hrun ⟨G, R, hhoused, hacc⟩
  cases c with
  | insert key val =>
    obtain ⟨err, hrun⟩ := map_eq_ok.mp hrun
    obtain ⟨G', R', hhoused', hacc'⟩ := hhoused.insert s₀ hN hrun
    exact ⟨G', R', hhoused', hacc' hacc hkeep⟩
  | lookup key =>
    obtain ⟨ret, hrun⟩ := map_eq_ok.mp hrun
    obtain ⟨R', hhoused', hacc'⟩ := hhoused.lookup s₀ hrun
    exact ⟨G, R', hhoused', hacc' hacc⟩
  | remove key =>
    obtain ⟨ret, hrun⟩ := map_eq_ok.mp hrun
    obtain ⟨G', hhoused', hacc'⟩ := hhoused.remove s₀ hN hrun
    exact ⟨G', R, hhoused', hacc' hacc⟩
  | update _ _ => exact hkeep.elim

theorem Housed.mem_treeMemory (h : Housed geo s G R) (hacc : Accounted geo s₀ s R) (hk : s.kfail = false)
    (hlive : s.heap x ≠ none) : s₀.heap x ≠ none ∨ x ∈ treeMemory geo s := by
  obtain ⟨o, ho⟩ := Option.ne_none_iff_exists'.mp hlive
  rcases hacc x o ho with hold | ⟨n, rfl⟩ | ⟨hkfail, -⟩ | ⟨p, hown⟩
  · exact .inl hold
  · exact .inr (List.mem_append_left _ (h.mem_nodes ⟨n, ho⟩))
  · rw [hk] at hkfail
    cases hkfail
  · have hp := h.mem_nodes (h.caches.queuePart hown).1
    exact .inr (List.mem_append_right _ (List.mem_flatMap.mpr ⟨p, hp, h.caches.mem_queueParts.mpr hown⟩))

/-- `cbtree_destroy` returns after every run of calls and leaves the whole tree but for the root.  After calls that
leave nothing else behind, this is all that is left. -/
theorem cbtreeDestroy_leaves (hN : 4 ≤ geo.noPairs) (h₀ : Blank s₀) (h : Run geo InsertsLooksUpRemoves s₀ s) :
    ∃ s', cbtreeDestroy s = .ok s' ∧ LeftBehind geo s s' ∧
      (s.kfail = false → Run geo (KeepsLifecycle geo) s₀ s → ∀ x, s'.heap x ≠ none →
        s₀.heap x ≠ none ∨ x ∈ leftBehind geo s) := by
  obtain ⟨G, R, hhoused⟩ := housed_of_calls hN h₀ h
  obtain ⟨s', hrun, hheap⟩ := hhoused.toWarm.destroy
  refine ⟨s', hrun, hhoused.toWarm.leftBehind hheap, fun hk hkeep x hx => ?_⟩
  obtain ⟨G', R', hhoused', hacc⟩ := accounted_of_calls hN h₀ hkeep
  have hroot : ¬(x = s.node ∧ x ≠ 0#w) := fun hroot => hx ((hheap x).trans (if_pos hroot))
  rw [hheap, if_neg hroot] at hx
  refine (hhoused'.mem_treeMemory hacc hk hx).imp_right fun hmem => ?_
  have hne : x ≠ s.node := fun heq => hroot ⟨heq, hhoused'.toWarm.ne_null_of_mem_treeMemory hmem⟩
  exact (List.mem_erase_of_ne hne).mpr hmem

/-- Two keys in one leaf, one of them removed again: the queue of the leaf is left. -/
def oneRemoved : State 64 := Cmd.execAll Machine.x86_64.cbtree_geo64 (KeepsLifecycle Machine.x86_64.cbtree_geo64)
  [.insert (wordKey 1) 0x55#64, .insert (wordKey 2) 0x66#64, .lookup (wordKey 1), .remove (wordKey 2)] (arena 1)

theorem cbtreeDestroy_leaves_one_removed : ∃ s', cbtreeDestroy oneRemoved = .ok s' ∧
    (leftBehind Machine.x86_64.cbtree_geo64 oneRemoved).length = 9 ∧
    ∀ x, s'.heap x ≠ none ↔ x ∈ leftBehind Machine.x86_64.cbtree_geo64 oneRemoved := by
  have hkeep : Run Machine.x86_64.cbtree_geo64 (KeepsLifecycle Machine.x86_64.cbtree_geo64) (arena 1) oneRemoved :=
    Cmd.run_execAll _ _ _ _
  obtain ⟨s', hrun, hleft, hall⟩ := cbtreeDestroy_leaves (by decide) (arena_blank 1)
    (hkeep.mono fun c s hc => hc.insertsLooksUpRemoves)
  refine ⟨s', hrun, by decide +kernel, fun x => ⟨fun hx => ?_, hleft.live x⟩⟩
  exact (hall (by decide +kernel) hkeep x hx).resolve_left fun hold => hold rfl

/-! ## The module -/

/-- The lookups return unless a `kmalloc` of some queue has failed. -/
theorem Warm.findTree (treeSize : Nat) : ∀ (draws : List (Draw w)) (counts : Nat → Word w) {s : State w} {R : Rings w},
    Warm geo m r s G R → findTree geo treeSize draws counts s = .error .nullDeref ∨
      ∃ results counts' s' R', Finds geo treeSize draws counts s results counts' s' ∧ Warm geo m r s' G R' ∧
        results.length = draws.length := by
  intro draws
  induction draws with
  | nil =>
    intro counts s R h
    exact .inr ⟨[], counts, s, R, .nil counts s, h, rfl⟩
  | cons draw draws ih =>
    intro counts s R h
    have hsearch := h.search (tempKey (draw.key treeSize) draw.stack)
    rw [← cbtreeLookup_eq] at hsearch
    rcases hsearch with ⟨hnull, -⟩ | ⟨-, s₁, R₁, hrun, h₁, hlooked, -⟩
    · refine .inl ?_
      unfold CachedBTree.findTree
      simp only [findElement, hnull, error_bind]
    rcases ih (updateSearchCount treeSize (draw.key treeSize) counts) h₁ with
      hnull | ⟨results, counts', s', R', hfinds, hwarm, hlength⟩
    · refine .inl ?_
      unfold CachedBTree.findTree
      simp only [findElement, hrun, hnull, ok_bind, error_bind]
    · exact .inr ⟨_, counts', s', R', .cons hrun hlooked.write hfinds, hwarm, by simp [hlength]⟩

end CachedBTree
