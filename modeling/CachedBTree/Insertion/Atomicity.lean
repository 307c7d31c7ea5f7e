import CachedBTree.Insertion.Runs
import CachedBTree.Routes

/-! # An insertion that fails

No node is allocated after the first one has been written, so an insertion that runs out of
memory leaves nothing behind in the tree but what `find_level` has written on its way to the
leaf: right-most separators that were too large and have become the key. -/

namespace CachedBTree

open CachedBTree.Support

variable {w : Nat} {geo : Geo} {s s' s₀ : State w} {p : Ptr w} {G : Labels w} {m r : Nat} {key : Words w}

/-- The key of the last slot in use has become `key` if it was larger; all else is as before. -/
structure LowersLast (geo : Geo) (key n n' : Words w) : Prop where
  vals : ∀ i, bval geo n' i = bval geo n i
  keys : ∀ i j, j < geo.keylen → bkey geo n' i j =
    if i + 1 = getfill geo n 0 ∧ keyNum geo key < keyNum geo (bkey geo n i) then key j else bkey geo n i j
  cache : ∀ j, geo.arrLen ≤ j → n' j = n j

/-- The tree after an insertion without success: the nodes above the leaf that the key leads to have had
their last separators lowered to the key, and there is no other change. -/
structure FailsAtomically (geo : Geo) (key : Words w) (s s' : State w) : Prop where
  head : s'.toHead = s.toHead
  inner : ∀ p ∈ innerPath geo key s (s.height - 1) s.node, ∃ l, 2 ≤ l ∧ (l, p) ∈ nodes geo s
  path : ∀ p ∈ innerPath geo key s (s.height - 1) s.node, ∃ n n', s.heap p = some (.node n) ∧
    s'.heap p = some (.node n') ∧ LowersLast geo key n n'
  rest : ∀ x o, s.heap x = some o → x ∉ innerPath geo key s (s.height - 1) s.node → s'.heap x = some o
  leaves : ∀ p, (1, p) ∈ nodes geo s → s'.heap p = s.heap p

theorem lowersLast_setkey {n : Words w} {l : Page w} {k : Nat} {c : Ptr w} (h : Holds geo n (l ++ [(k, c)]))
    (hk : keyNum geo key < k) : LowersLast geo key n (setkey geo n l.length key) := by
  have hlen := h.length_le
  have hfill := h.getfill (Nat.zero_le _)
  simp only [List.length_append, List.length_singleton] at hlen hfill
  refine ⟨fun i => bval_setkey (by omega), fun i j hj => ?_, sameCache_setkey (by omega)⟩
  rw [bkey_setkey hj, hfill]
  by_cases hi : i = l.length
  · rw [if_pos hi, if_pos ⟨by omega, by rwa [hi, h.keyNum_append]⟩]
  · rw [if_neg hi, if_neg fun hlast => hi (by omega)]

theorem lowersLast_refl {n : Words w} {l₁ l₂ : Page w} {k : Nat} {c : Ptr w}
    (h : Holds geo n (l₁ ++ (k, c) :: l₂)) (hdesc : Descending (l₁ ++ (k, c) :: l₂)) (hk : k ≤ keyNum geo key) :
    LowersLast geo key n n := by
  refine ⟨fun _ => rfl, fun i j _ => (if_neg ?_).symm, fun _ _ => rfl⟩
  rintro ⟨hlast, hlt⟩
  obtain ⟨l, e, hl⟩ : ∃ l e, (k, c) :: l₂ = l ++ [e] :=
    ⟨_, _, (List.dropLast_append_getLast (List.cons_ne_nil (k, c) l₂)).symm⟩
  have hle : e.1 ≤ k := by
    have he : e ∈ (k, c) :: l₂ := by rw [hl]; simp
    rcases List.mem_cons.mp he with rfl | he
    · exact le_rfl
    · exact ((List.pairwise_cons.mp hdesc.of_append.2.1).1 e he).le
  rw [hl, ← List.append_assoc] at h
  have hfill := h.getfill (Nat.zero_le _)
  rw [List.length_append, List.length_singleton] at hfill
  obtain rfl : i = (l₁ ++ l).length := by omega
  rw [h.keyNum_append] at hlt
  omega

/-- What `find_level` does to a node on its way. -/
theorem Tree.lowersLast (key : Words w) (h : Tree geo m r 1 s G) (hm : 1 ≤ m) (hr : 1 ≤ r) (hp : 2 ≤ (G p).lvl) :
    ∃ n, s.heap p = some (.node n) ∧ LowersLast geo key n (routeWords geo key n) := by
  obtain ⟨n, l₁, k, c, l₂, hn, hholds, hpage, -, hcase⟩ := h.route_cases key hm hr hp
  have hdesc := (h.chain p (by omega)).descending
  rw [hpage] at hholds hdesc
  refine ⟨n, hn, ?_⟩
  rcases hcase with ⟨hk, -, hsame⟩ | ⟨rfl, hk, -, hlow⟩
  · rw [hsame]
    exact lowersLast_refl hholds hdesc hk
  · rw [hlow]
    exact lowersLast_setkey hholds hk

/-- The memory in which the leaf has been found. -/
theorem Tree.routed_atomic (key : Words w) (h : Tree geo m r 1 s G) (hm : 1 ≤ m) (hr : 1 ≤ r)
    (hkept : Kept (routed geo key s) s') : FailsAtomically geo key s s' := by
  by_cases hh : s.height = 0
  · rw [h.routed_empty key hh] at hkept
    have hnil : innerPath geo key s (s.height - 1) s.node = [] := by rw [hh]; rfl
    refine ⟨hkept.head, fun p hp => by simp [hnil] at hp, fun p hp => by simp [hnil] at hp,
      fun x o hx _ => hkept.heap x o hx, fun p hp => ?_⟩
    simp [nodes, hh, nodesBelow] at hp
  · have hroot := h.root_lvl (by omega)
    obtain ⟨q, s₁, G₁, hfind, hrouted⟩ := h.findLevel_route key hm hr le_rfl (by omega)
    rw [routed_of_find hfind] at hkept
    have hheap := (h.findLevel_path hm hr le_rfl (by omega) hfind).2
    have hlvl : ∀ p ∈ innerPath geo key s (s.height - 1) s.node, 2 ≤ (G p).lvl := fun p hp =>
      (mem_innerPath_lvl (fun x => (G x).lvl) (fun x hx => h.routeChild_lvl key hm hr hx)
        (by omega) hp).1
    have hhead : s'.toHead = s.toHead := by rw [hkept.head, hrouted.mem]
    have hrest : ∀ x o, s.heap x = some o → x ∉ innerPath geo key s (s.height - 1) s.node →
        s'.heap x = some o := by
      intro x o hx hout
      apply hkept.heap x o
      rw [hheap, if_neg hout, hx]
    refine ⟨hhead, fun p hp => ?_, fun p hp => ?_, hrest, fun p hp => ?_⟩
    · exact ⟨_, hlvl p hp, h.mem_nodes.mpr ⟨by have := hlvl p hp; omega, rfl⟩⟩
    · obtain ⟨n, hn, hlow⟩ := h.lowersLast key hm hr (hlvl p hp)
      refine ⟨n, _, hn, hkept.heap p _ ?_, hlow⟩
      rw [hheap, if_pos hp, hn]
      rfl
    · have hleaf := (h.mem_nodes.mp hp).2
      obtain ⟨n, hn, -⟩ := h.stored p (by omega)
      rw [hn]
      exact hrest p _ hn fun hmem => by have := hlvl p hmem; omega

/-- An insertion that returns `-ENOMEM` leaves the tree as it was but for separators on the way of the
key. -/
theorem cbtreeInsert_fails_atomically (hN : 4 ≤ geo.noPairs) (h₀ : Fresh s₀) (h : Run geo (InsertsNew geo) s₀ s)
    {val : Ptr w} (hval : val ≠ 0#w) (habsent : Absent geo s key)
    (hrun : cbtreeInsert geo key val s = .ok (-ENOMEM, s')) : FailsAtomically geo key s s' := by
  obtain ⟨G, hG⟩ := tree_of_inserts hN h₀ h
  rcases cbtreeInsert_new hN (by omega) le_rfl (by omega) le_rfl hG hval (hG.absent.mp habsent) with
    hnull | ⟨s₁, G₁, hfail, hrefused⟩ | ⟨s₁, G₁, leaf, hok, -⟩
  · rw [hnull] at hrun
    cases hrun
  · obtain rfl := congrArg Prod.snd (Except.ok.inj (hfail.symm.trans hrun))
    exact hG.routed_atomic key (by omega) (by omega) hrefused.kept
  · rw [hok] at hrun
    have := congrArg Prod.fst (Except.ok.inj hrun)
    simp [ENOMEM] at this

/-- Two leaves under a root, the lower one full, and no memory for another node. -/
def threeNodes : State 64 :=
  Cmd.execAll Machine.x86_64.cbtree_geo64 (InsertsNew Machine.x86_64.cbtree_geo64)
    ([10, 11, 12, 13, 14, 15, 16, 17, 9, 8, 7].map fun k => .insert (wordKey k) 0x77#64) (arena 3)

theorem threeNodes_run : Run Machine.x86_64.cbtree_geo64 (InsertsNew Machine.x86_64.cbtree_geo64) (arena 3)
    threeNodes := Cmd.run_execAll _ _ _ (arena 3)

theorem cbtreeInsert_fails_atomically_three_nodes :
    returned (cbtreeInsert Machine.x86_64.cbtree_geo64 (wordKey 6) 0x77#64 threeNodes) = some (-ENOMEM) ∧
    FailsAtomically Machine.x86_64.cbtree_geo64 (wordKey 6) threeNodes
      (threeNodes.after (cbtreeInsert Machine.x86_64.cbtree_geo64 (wordKey 6) 0x77#64 threeNodes)) := by
  have hret : returned (cbtreeInsert Machine.x86_64.cbtree_geo64 (wordKey 6) 0x77#64 threeNodes) =
      some (-ENOMEM) := by decide +kernel
  exact ⟨hret, cbtreeInsert_fails_atomically (by decide) (arena_blank 3).fresh threeNodes_run (by decide)
    (by decide +kernel) (returned_eq_some.mp hret)⟩

end CachedBTree
