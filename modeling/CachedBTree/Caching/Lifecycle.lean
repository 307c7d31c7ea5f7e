import CachedBTree.Caching.Coherence

/-! # The life of a node

A node lives from its allocation until it is neither in the tree nor named by an entry, and its
queue lives as long.  The code gives nodes back in five places.  Four of them call `freeQueue`
first, which does not return, so only the error path of `cbtree_insert_level` ever frees a node;
it frees the node and leaves its queue. -/

namespace CachedBTree

open CachedBTree.Support

variable {w : Nat} {geo : Geo} {s s' s₀ : State w} {p x : Ptr w} {R R' : Rings w} {G : Labels w}
  {key : Words w} {ret : Ptr w}

/-! ## What should be live -/

/-- There is a node at `p` that has not been given back. -/
def State.LiveNode (s : State w) (p : Ptr w) : Prop := ∃ n, s.heap p = some (.node n)

/-- `x` is the queue of the node at `p`, one of its entries or their key buffers. -/
def QueuePart (geo : Geo) (s : State w) (p x : Ptr w) : Prop :=
  x = s.queueWord geo p ∨ ∃ e ∈ s.cache geo p, x = e.addr ∨ x = e.key

instance decidableQueuePart (geo : Geo) (s : State w) (p x : Ptr w) : Decidable (QueuePart geo s p x) := by
  unfold QueuePart
  infer_instance

/-- No node in the tree, and none that an entry names, has been given back; every other node has been; and
what has been allocated besides nodes belongs to the queue of a node that is live, unless a failed `kmalloc`
has left it. -/
structure Lifecycle (geo : Geo) (s₀ s : State w) : Prop where
  tree : ∀ e ∈ nodes geo s, s.LiveNode e.2
  cached : ∀ p, s.LiveNode p → ∀ e ∈ s.cache geo p, e.node ≠ 0#w → s.LiveNode e.node
  freed : ∀ p, s.LiveNode p → p ∈ (nodes geo s).map Prod.snd ∨
    ∃ q, s.LiveNode q ∧ ∃ e ∈ s.cache geo q, e.node = p
  queues : ∀ x o, s.heap x = some o → s₀.heap x = none → (∀ n, o ≠ .node n) →
    (∃ p, s.LiveNode p ∧ QueuePart geo s p x) ∨ s.kfail = true ∧ o.Remnant

/-- All live nodes are nodes of the tree. -/
structure Housed (geo : Geo) (s : State w) (G : Labels w) (R : Rings w) : Prop extends Warm geo 1 1 s G R where
  housed : ∀ x n, s.heap x = some (.node n) → 1 ≤ (G x).lvl

theorem Housed.mem_nodes (h : Housed geo s G R) (hp : s.LiveNode p) : p ∈ (nodes geo s).map Prod.snd := by
  obtain ⟨n, hn⟩ := hp
  exact List.mem_map.mpr ⟨_, h.tree.mem_nodes.mpr ⟨h.housed p n hn, rfl⟩, rfl⟩

theorem Caches.queuePart (h : Caches geo s R) (hown : Owns geo s R p x) : s.LiveNode p ∧ QueuePart geo s p x := by
  obtain ⟨n, hn, -, hpart⟩ := h.owns hown
  refine ⟨⟨n, hn⟩, ?_⟩
  unfold QueuePart State.queueWord
  rw [h.cache, hn]
  exact hpart.imp_right fun ⟨e, he, hx⟩ => ⟨e, he, hx.imp_right And.right⟩

theorem Housed.lifecycle (h : Housed geo s G R) (hacc : Accounted geo s₀ s R) : Lifecycle geo s₀ s where
  tree e he := by
    obtain ⟨hlvl, heq⟩ := h.tree.mem_nodes.mp he
    obtain ⟨n, hn, -⟩ := h.tree.stored e.2 (by omega)
    exact ⟨n, hn⟩
  cached p _ e he hne := h.caches.live p e (by rwa [h.caches.cache] at he) hne
  freed p hp := .inl (h.mem_nodes hp)
  queues x o hx hfree ho := by
    rcases hacc x o hx with hold | ⟨n, hn⟩ | hleft | ⟨p, hown⟩
    · exact absurd hfree hold
    · exact absurd hn (ho n)
    · exact .inr hleft
    · exact .inl ⟨p, h.caches.queuePart hown⟩

/-- The rings are what the memory holds. -/
theorem Caches.rings_eq (h : Caches geo s R) (h' : Caches geo s R') : R = R' :=
  funext fun x => (h.cache x).symm.trans (h'.cache x)

/-! ## One call -/

theorem Accounted.findLevel {kp : KeyPtr w} {level : Nat} {q : Ptr w} (h : Accounted geo s₀ s R)
    (hrun : findLevel geo kp level s = .ok (q, s')) : Accounted geo s₀ s' R :=
  findLevel_keeps (I := fun s => Accounted geo s₀ s R) (fun _ _ _ _ hs hp hsame => hs.setNode hp hsame) hrun h

/-- A failed insertion leaves no queue when no node before the one that could not be allocated had one. -/
theorem Housed.insert {val : Ptr w} {err : Int} (s₀ : State w) (hN : 4 ≤ geo.noPairs) (h : Housed geo s G R)
    (hrun : cbtreeInsert geo key val s = .ok (err, s')) :
    ∃ G' R', Housed geo s' G' R' ∧ (Accounted geo s₀ s R →
      (OutOfMemory geo key s → StarvedBare geo (nodesTaken geo key s) (routed geo key s)) →
      Accounted geo s₀ s' R') := by
  obtain ⟨G', R', hwarm, hgrew, hres⟩ := h.toWarm.insert hN le_rfl (by omega) le_rfl (by omega) hrun
  have hbelow : Below 1 s s' G G' := hres.elim Refused.below fun ⟨_, hins, _⟩ => hins.below
  refine ⟨G', R', ⟨hwarm, fun x n hx => ?_⟩, fun hacc hkeep => ?_⟩
  · rcases hbelow.live x n hx with ⟨n₀, hold⟩ | hnew
    · rw [hbelow.lvl x (h.housed x n₀ hold)]
      exact h.housed x n₀ hold
    · exact hnew
  by_cases herr : err = 0
  · subst herr
    obtain ⟨R₁, hgrew₁, hacc₁⟩ := cbtreeInsert_accounted (by omega) h.caches hacc hrun
    rwa [hwarm.caches.rings_eq hgrew₁.caches]
  · have hrefused : Refused geo 1 1 s s' G G' key := by
      apply hres.resolve_right
      rintro ⟨leaf, hins, -⟩
      exact herr (hins.err_eq hN le_rfl (by omega) le_rfl (by omega) h.tree hrun)
    -- the search for the leaf writes to slots only, and then nothing is left
    obtain ⟨haccounted, hcaches, hold⟩ : Accounted geo s₀ (routed geo key s) R ∧
        Caches geo (routed geo key s) R ∧ NoNew s (routed geo key s) := by
      unfold routed
      split
      next q s₁ hfind =>
        exact ⟨hacc.findLevel hfind, (findLevel_caches hfind h.caches h.counted).1, findLevel_noNew hfind⟩
      next => exact ⟨hacc, h.caches, .refl s⟩
    intro x o hx
    cases hrefused.traceless (hkeep hrefused.memory) x o hx with
    | inl hlive =>
      obtain ⟨o', ho⟩ := Option.ne_none_iff_exists'.mp hlive
      rw [hrefused.kept.heap x o' ho] at hx
      cases hx
      refine haccounted.kept hcaches hrefused.kept (fun y n hy => ?_) ho
      obtain ⟨n₀, hy₀⟩ := hold y n hy
      exact (hgrew.old y n₀ hy₀).1
    | inr hleft =>
      exact .inr (.inr (.inl hleft))

theorem Accounted.looked {leaf : Ptr w} (h : Accounted geo s₀ s R) (hlooked : Looked geo G key leaf s R s' R') :
    Accounted geo s₀ s' R' := by
  intro x o' hx
  obtain ⟨o, ho⟩ : ∃ o, s.heap x = some o := by
    refine Option.ne_none_iff_exists'.mp fun hnone => ?_
    rw [(hlooked.write.live x).mpr hnone] at hx
    cases hx
  by_cases hnode : ∃ n, o = .node n
  · obtain ⟨n, rfl⟩ := hnode
    obtain ⟨n', hn', -⟩ := hlooked.write.node x n ho
    rw [hx] at hn'
    exact .inr (.inl ⟨n', Option.some.inj hn'⟩)
  by_cases howned : ∃ p, Owns geo s R p x
  · obtain ⟨p, hown⟩ := howned
    exact .inr (.inr (.inr ⟨p, hlooked.owns_iff.mpr hown⟩))
  · rw [hlooked.side x o ho (fun n hn => hnode ⟨n, hn⟩) fun p hp => howned ⟨p, hp⟩] at hx
    cases hx
    rcases h x _ ho with hold | hnode' | hleft | hown
    · exact .inl hold
    · exact .inr (.inl hnode')
    · rw [hlooked.write.kfail]
      exact .inr (.inr (.inl hleft))
    · exact absurd hown howned

theorem Housed.lookup (s₀ : State w) (h : Housed geo s G R) (hrun : cbtreeLookup geo key s = .ok (ret, s')) :
    ∃ R', Housed geo s' G R' ∧ (Accounted geo s₀ s R → Accounted geo s₀ s' R') := by
  obtain ⟨-, R', hwarm, hlooked, -⟩ := h.toWarm.lookup hrun
  refine ⟨R', ⟨hwarm, fun x n' hx => ?_⟩, fun hacc => hacc.looked hlooked⟩
  obtain ⟨n, hn⟩ := hlooked.write.back x n' hx
  exact h.housed x n hn

theorem Housed.remove (s₀ : State w) (hN : 4 ≤ geo.noPairs) (h : Housed geo s G R)
    (hrun : cbtreeRemove geo (Reclaim.code geo) key s = .ok (ret, s')) :
    ∃ G', Housed geo s' G' R ∧ (Accounted geo s₀ s R → Accounted geo s₀ s' R) := by
  obtain ⟨G₁, G', hwarm, hlowered, hreduced, -⟩ := h.toWarm.remove hN hrun
  have hlvl : ∀ x, (G' x).lvl = (G x).lvl := fun x => (hreduced.lvl x).trans (hlowered.lvl x)
  by_cases hh : s.height = 0
  · rw [cbtreeRemove, if_pos hh] at hrun
    cases hrun
    exact ⟨G, h, id⟩
  obtain ⟨p, s₁, G₂, n, hfind, -, hn, -, hcase⟩ := h.tree.removal (by omega) h.caches (by omega) hrun
  have hback : ∀ x n, s₁.heap x = some (.node n) → 1 ≤ (G' x).lvl := fun x n hx => by
    obtain ⟨n₀, hold⟩ := findLevel_noNew hfind x n hx
    rw [hlvl]
    exact h.housed x n₀ hold
  rcases hcase with ⟨-, -, rfl⟩ | ⟨-, n', l', -, rfl, hsame, -⟩
  · exact ⟨G', ⟨hwarm, hback⟩, fun hacc => hacc.findLevel hfind⟩
  · refine ⟨G', ⟨hwarm, fun x m hx => ?_⟩, fun hacc => (hacc.findLevel hfind).setNode hn hsame⟩
    obtain ⟨m₀, hm₀⟩ := (NoNew.refl s₁).setNode hn n' x m hx
    exact hback x m₀ hm₀

/-! ## Removals that take no node out -/

/-- The removal finds no pair, or takes one from a leaf that is the root, or that keeps half of its pairs, or
that keeps a pair and has too many for it to be merged with a neighbour. -/
def RemovesNoNode (geo : Geo) (key : Words w) (s : State w) : Prop :=
  let leaf := nodeAt geo key 1 (routed geo key s)
  let left := getfill geo leaf 0 - 1
  s.height ≤ 1 ∨ keycmp geo leaf (getpos geo leaf key) key ≠ 0 ∨ geo.noPairs / 2 ≤ left ∨
    left ≠ 0 ∧ (∀ n ∈ leftFill geo key 2 (routed geo key s), geo.noPairs < left + n) ∧
      ∀ n ∈ rightFill geo key 2 (routed geo key s), geo.noPairs < left + n

instance decidableRemovesNoNode (geo : Geo) (key : Words w) (s : State w) :
    Decidable (RemovesNoNode geo key s) := by
  unfold RemovesNoNode
  infer_instance

/-- A removal that would have to take a node out does not return. -/
theorem Housed.removes_no_node (hN : 4 ≤ geo.noPairs) (h : Housed geo s G R)
    (hrun : cbtreeRemove geo (Reclaim.code geo) key s = .ok (ret, s')) : RemovesNoNode geo key s := by
  by_cases hh : s.height ≤ 1
  · exact .inl hh
  obtain ⟨p, s₁, G₁, n, hfind, hrouted, hn, hholds, hcase⟩ :=
    h.tree.removal (by omega) h.caches (by omega) hrun
  have hplvl := hrouted.lvl
  have hheight : s₁.height = s.height := by rw [hrouted.mem]
  have hroot : s₁.node = s.node := by rw [hrouted.mem]
  have hne : p ≠ s₁.node := hrouted.tree.ne_root (by omega)
  -- the search finds the leaf again in the memory it has left
  have hleaf : nodeAt geo key 1 s₁ = n := by
    have hagain := hrouted.tree.findLevel_to (reads_buf key) (p := p) (by omega) (by omega) hrouted.lo hrouted.hi
    rw [hplvl] at hagain
    have hload : s₁.load p = .ok n := State.load_eq_ok.mpr ⟨hrouted.tree.ne_null (by omega), hn⟩
    simp only [nodeAt, hagain, hload]
  unfold RemovesNoNode
  simp only [routed_of_find hfind, hleaf, hholds.getfill (Nat.zero_le _)]
  rcases hcase with ⟨hcmp, -⟩ | ⟨-, n', l', hthin, rfl, -, htree, hchecked⟩
  · exact .inr (.inl hcmp)
  have hlen : (G₁ p).page.length - 1 = l'.length := by
    have := hthin.length
    omega
  rw [hlen]
  by_cases hhalf : geo.noPairs / 2 ≤ l'.length
  · exact .inr (.inr (.inl hhalf))
  have hapart := hchecked (by omega) (hroot ▸ hne)
  refine .inr (.inr (.inr ⟨?_, hrouted.tree.fills_of_apart hplvl hne hrouted.lo hrouted.hi hapart⟩))
  have hfill := htree.fill p (by rw [Function.update_self]; exact hplvl.ge) hne
  rw [Function.update_self] at hfill
  exact Nat.one_le_iff_ne_zero.mp hfill

/-! ## All runs -/

theorem housed_of_calls (hN : 4 ≤ geo.noPairs) (h₀ : Blank s₀) (h : Run geo InsertsLooksUpRemoves s₀ s) :
    ∃ G R, Housed geo s G R := by
  apply h.keeps (I := fun s => ∃ G R, Housed geo s G R) ?_
    ⟨_, _, h₀.warm, fun x n hx => absurd hx (h₀.nodes x n)⟩
  rintro c s s' hc hrun ⟨G, R, hhoused⟩
  cases c with
  | insert key val =>
    obtain ⟨err, hrun⟩ := map_eq_ok.mp hrun
    obtain ⟨G', R', hres, -⟩ := hhoused.insert s₀ hN hrun
    exact ⟨G', R', hres⟩
  | lookup key =>
    obtain ⟨ret, hrun⟩ := map_eq_ok.mp hrun
    obtain ⟨R', hres, -⟩ := hhoused.lookup s₀ hrun
    exact ⟨G, R', hres⟩
  | remove key =>
    obtain ⟨ret, hrun⟩ := map_eq_ok.mp hrun
    obtain ⟨G', hres, -⟩ := hhoused.remove s₀ hN hrun
    exact ⟨G', R, hres⟩
  | update _ _ => exact hc.elim

/-- The insertion does not run out of memory after it has allocated a node with a queue, and the removal takes
no node out of the tree. -/
def KeepsLifecycle (geo : Geo) : Cmd w → State w → Prop
  | .insert key _, s =>
    OutOfMemory geo key s → StarvedBare geo (nodesTaken geo key s) (routed geo key s)
  | .lookup _, _ => True
  | .remove key, s => RemovesNoNode geo key s
  | .update _ _, _ => False

instance decidableKeepsLifecycle (geo : Geo) : ∀ (c : Cmd w) (s : State w), Decidable (KeepsLifecycle geo c s)
  | .insert key _, s =>
    inferInstanceAs (Decidable (OutOfMemory geo key s → StarvedBare geo (nodesTaken geo key s) (routed geo key s)))
  | .lookup _, _ => isTrue trivial
  | .remove key, s => inferInstanceAs (Decidable (RemovesNoNode geo key s))
  | .update _ _, _ => isFalse id

/-- In every run of such calls that return the nodes and their queues live as long as they should.  The other
removals do not return. -/
theorem lifecycle_of_calls (hN : 4 ≤ geo.noPairs) (h₀ : Blank s₀) (h : Run geo (KeepsLifecycle geo) s₀ s) :
    Lifecycle geo s₀ s ∧ ∀ key ret s', cbtreeRemove geo (Reclaim.code geo) key s = .ok (ret, s') →
      RemovesNoNode geo key s := by
  suffices hI : ∃ G R, Housed geo s G R ∧ Accounted geo s₀ s R by
    obtain ⟨G, R, hhoused, hacc⟩ := hI
    exact ⟨hhoused.lifecycle hacc, fun key ret s' hrun => hhoused.removes_no_node hN hrun⟩
  apply h.keeps (I := fun s => ∃ G R, Housed geo s G R ∧ Accounted geo s₀ s R) ?_
    ⟨_, _, ⟨h₀.warm, fun x n hx => absurd hx (h₀.nodes x n)⟩, fun x o hx => .inl (by simp [hx])⟩
  rintro c s s' hkeep hrun ⟨G, R, hhoused, hacc⟩
  cases c with
  | insert key val =>
    obtain ⟨err, hrun⟩ := map_eq_ok.mp hrun
    obtain ⟨G', R', hres, hacc'⟩ := hhoused.insert s₀ hN hrun
    exact ⟨G', R', hres, hacc' hacc hkeep⟩
  | lookup key =>
    obtain ⟨ret, hrun⟩ := map_eq_ok.mp hrun
    obtain ⟨R', hres, hacc'⟩ := hhoused.lookup s₀ hrun
    exact ⟨G, R', hres, hacc' hacc⟩
  | remove key =>
    obtain ⟨ret, hrun⟩ := map_eq_ok.mp hrun
    obtain ⟨G', hres, hacc'⟩ := hhoused.remove s₀ hN hrun
    exact ⟨G', R, hres, hacc' hacc⟩
  | update _ _ => exact hkeep.elim

/-- Eight insertions, a lookup, a removal from a leaf that keeps enough pairs, and insertions until a split
finds no memory for its first node. -/
def splitRefused : State 64 := Cmd.execAll Machine.x86_64.cbtree_geo64 (KeepsLifecycle Machine.x86_64.cbtree_geo64)
  (eightInserts ++ [.lookup (wordKey 2), .remove (wordKey 8)] ++
    (List.range 5).map fun i => .insert (wordKey (8 + i)) 0x77#64) (arena 3)

theorem lifecycle_of_split_refused :
    (entries Machine.x86_64.cbtree_geo64 splitRefused).length = 11 ∧
    Lifecycle Machine.x86_64.cbtree_geo64 (arena 3) splitRefused :=
  ⟨by decide +kernel, (lifecycle_of_calls (by decide) (arena_blank 3) (Cmd.run_execAll _ _ _ _)).1⟩

/-- Memory for two nodes: the second one is given back when there is none for the new root. -/
def rootRefused : State 64 := Cmd.execAll Machine.x86_64.cbtree_geo64 InsertsLooksUpRemoves eightInserts (arena 2)

theorem queue_outlives_node :
    ¬∀ s, Run Machine.x86_64.cbtree_geo64 InsertsLooksUpRemoves (arena 2) s →
      Lifecycle Machine.x86_64.cbtree_geo64 (arena 2) s := by
  intro hall
  have hrun : Run Machine.x86_64.cbtree_geo64 InsertsLooksUpRemoves (arena 2) rootRefused := Cmd.run_execAll _ _ _ _
  obtain ⟨G, R, hhoused⟩ := housed_of_calls (by decide) (arena_blank 2) hrun
  -- the queue of the node that has been given back
  have hlive : (rootRefused.heap 0x109000#64).isSome = true := by decide +kernel
  obtain ⟨o, hqueue⟩ := Option.isSome_iff_exists.mp hlive
  have hother : ∀ n, o ≠ .node n := by
    rintro n rfl
    have hnode := hhoused.mem_nodes ⟨n, hqueue⟩
    exact absurd hnode (by decide +kernel)
  rcases (hall _ hrun).queues _ _ hqueue rfl hother with ⟨p, hp, hpart⟩ | ⟨hk, -⟩
  · have hnone : ∀ e ∈ nodes Machine.x86_64.cbtree_geo64 rootRefused,
        ¬QueuePart Machine.x86_64.cbtree_geo64 rootRefused e.2 0x109000#64 := by decide +kernel
    obtain ⟨e, he, rfl⟩ := List.mem_map.mp (hhoused.mem_nodes hp)
    exact hnone e he hpart
  · have hno : rootRefused.kfail = false := by decide +kernel
    rw [hno] at hk
    cases hk

end CachedBTree
