import CachedBTree.Insertion.Runs
import CachedBTree.Routes

/-! # The splits of an insertion

An insertion with enough memory splits the full nodes that it meets going up from its leaf,
each of them once, and puts a new root on top when all nodes of the way are full.  That a
second pass through `retry:` finds room is seen by giving the recursion two passes only. -/

namespace CachedBTree

open CachedBTree.Support

variable {w : Nat} {geo : Geo} {s s' s₀ : State w} {p q : Ptr w} {G G' : Labels w} {m r L : Nat} {key : Words w}

/-! ## More passes than needed -/

theorem insertRetry_mono {up up' : KeyPtr w → Ptr w → Nat → State w → Except Fault (Int × State w)}
    {kp : KeyPtr w} {v : Ptr w} {res : Int × State w}
    (hup : ∀ kp v L s res, up kp v L s = .ok res → up' kp v L s = .ok res) :
    ∀ {t t' : Nat} {s : State w}, t ≤ t' → insertRetry geo up kp v L t s = .ok res →
      insertRetry geo up' kp v L t' s = .ok res := by
  intro t
  induction t with
  | zero =>
    intro _ _ _ h
    cases h
  | succ t ih =>
    intro t' s hle h
    obtain ⟨t', rfl⟩ : ∃ t₁, t' = t₁ + 1 := ⟨t' - 1, by omega⟩
    rw [insertRetry] at h ⊢
    obtain ⟨⟨node, s₁⟩, hfind, h⟩ := bind_eq_ok.mp h
    obtain ⟨words, hload, h⟩ := bind_eq_ok.mp h
    obtain ⟨k, hread, h⟩ := bind_eq_ok.mp h
    rw [hfind, ok_bind]
    simp only [hload, hread, ok_bind]
    rcases ite_eq_ok.mp h with ⟨-, h⟩ | ⟨hdup, h⟩
    · cases h
    rw [if_neg hdup]
    rcases ite_eq_ok.mp h with ⟨hfull, h⟩ | ⟨hfull, h⟩
    · -- the node is split; the call for the level above and the next pass are the ones with more fuel
      rw [if_pos hfull]
      obtain ⟨⟨new, s₂⟩, halloc, h⟩ := bind_eq_ok.mp h
      rw [halloc, ok_bind]
      rcases ite_eq_ok.mp h with ⟨hnew, h⟩ | ⟨hnew, h⟩
      · simpa only [if_pos hnew] using h
      simp only [if_neg hnew]
      rcases ite_eq_ok.mp h with ⟨-, h⟩ | ⟨hhalf, h⟩
      · cases h
      rw [if_neg hhalf]
      obtain ⟨⟨err, s₃⟩, hrec, h⟩ := bind_eq_ok.mp h
      rw [hup _ _ _ _ _ hrec, ok_bind]
      rcases ite_eq_ok.mp h with ⟨herr, h⟩ | ⟨herr, h⟩
      · simpa only [if_pos herr] using h
      simp only [if_neg herr]
      obtain ⟨newWords, hnewWords, h⟩ := bind_eq_ok.mp h
      obtain ⟨words', hwords, h⟩ := bind_eq_ok.mp h
      simp only [hnewWords, hwords, ok_bind]
      exact ih (by omega) h
    · rwa [if_neg hfull]

/-- One level of the recursion: a new root if there is none for this level, and then the passes. -/
theorem insertLevelWithin_succ {passes : Nat → Nat} {fuel : Nat} {kp : KeyPtr w} {v : Ptr w} (hv : v ≠ 0#w) :
    insertLevelWithin geo passes (fuel + 1) kp v L s =
      (if s.height < L then cbtreeGrow geo s else .ok (0, s)) >>= fun grown =>
        if grown.1 ≠ 0 then .ok grown
        else insertRetry geo (insertLevelWithin geo passes fuel) kp v L (passes fuel) grown.2 := by
  rw [insertLevelWithin, if_neg hv]
  split <;> rfl

theorem insertLevelWithin_mono {passes passes' : Nat → Nat} (hle : ∀ fuel, passes fuel ≤ passes' fuel) :
    ∀ {fuel : Nat} (kp : KeyPtr w) (v : Ptr w) (L : Nat) (s : State w) (res : Int × State w),
    insertLevelWithin geo passes fuel kp v L s = .ok res → insertLevelWithin geo passes' fuel kp v L s = .ok res := by
  intro fuel
  induction fuel with
  | zero =>
    intro _ _ _ _ _ h
    cases h
  | succ fuel ih =>
    intro kp v L s res h
    by_cases hv : v = 0#w
    · rw [insertLevelWithin, if_pos hv] at h
      cases h
    rw [insertLevelWithin_succ hv] at h ⊢
    obtain ⟨grown, hgrow, h⟩ := bind_eq_ok.mp h
    rw [hgrow, ok_bind]
    rcases ite_eq_ok.mp h with ⟨herr, h⟩ | ⟨herr, h⟩
    · rwa [if_pos herr]
    · rw [if_neg herr]
      exact insertRetry_mono (ih) (hle fuel) h

/-- A run with fewer passes is a run with more. -/
theorem insertWithin_mono {passes passes' : Nat → Nat} {val : Ptr w} {res : Int × State w}
    (hle : ∀ fuel, passes fuel ≤ passes' fuel) (h : insertWithin geo passes key val s = .ok res) :
    insertWithin geo passes' key val s = .ok res := by
  unfold insertWithin at h ⊢
  rcases ite_eq_ok.mp h with ⟨-, h⟩ | ⟨hv, h⟩
  · cases h
  · rw [if_neg hv]
    exact insertLevelWithin_mono hle _ _ _ _ _ h

/-! ## The full nodes of the way -/

/-- The nodes from the leaf that `key` leads to up to the root. -/
def wayUp (geo : Geo) (key : Words w) (s : State w) : List (Ptr w) :=
  if s.height = 0 then []
  else leafOf geo key s :: (innerPath geo key s (s.height - 1) s.node).reverse

/-- No slot is left. -/
def State.full (geo : Geo) (s : State w) (p : Ptr w) : Bool := (s.page geo p).length = geo.noPairs

/-- The full nodes met going up from the leaf, before the first one with room. -/
def fullRun (geo : Geo) (key : Words w) (s : State w) : Nat :=
  ((wayUp geo key s).takeWhile (s.full geo)).length

theorem innerPath_succ_last : ∀ (d : Nat) (p : Ptr w),
    innerPath geo key s (d + 1) p = innerPath geo key s d p ++ [pathEnd geo key s d p]
  | 0, _ => rfl
  | d + 1, p => by
    rw [innerPath, innerPath_succ_last d, innerPath, pathEnd, List.cons_append]

theorem pathEnd_succ_last : ∀ (d : Nat) (p : Ptr w),
    pathEnd geo key s (d + 1) p = s.routeChild geo key (pathEnd geo key s d p)
  | 0, _ => rfl
  | d + 1, p => by
    rw [pathEnd, pathEnd_succ_last d, pathEnd]

/-- The search goes from a node to one of its children. -/
theorem Tree.routeChild_par (key : Words w) (h : Tree geo m r 1 s G) (hm : 1 ≤ m) (hr : 1 ≤ r)
    (hp : 2 ≤ (G p).lvl) : (G (s.routeChild geo key p)).par = p := by
  obtain ⟨n, l₁, k, c, l₂, -, -, hpage, hchild, -⟩ := h.route_cases key hm hr hp
  rw [hchild]
  exact (h.child (by omega) hp hpage).2.1

/-- What it takes to link a node beside the end of a path, in terms of the full nodes above it. -/
theorem Tree.needed_path (key : Words w) (h : Tree geo m r 1 s G) (hm : 1 ≤ m) (hr : 1 ≤ r) :
    ∀ {d : Nat}, d < (G p).lvl → G.needed geo d (pathEnd geo key s d p) =
      ((innerPath geo key s d p).reverse.takeWhile (s.full geo)).length +
        if ((innerPath geo key s d p).reverse.takeWhile (s.full geo)).length = d then 1 else 0 := by
  intro d
  induction d with
  | zero =>
    intro _
    exact rfl
  | succ d ih =>
    intro hd
    have hlvl : (G (pathEnd geo key s d p)).lvl = (G p).lvl - d :=
      pathEnd_lvl (fun x => (G x).lvl) (fun x hx => h.routeChild_lvl key hm hr (by omega)) (by omega)
    have hpar := h.routeChild_par key hm hr (p := pathEnd geo key s d p) (by omega)
    have hfull : s.full geo (pathEnd geo key s d p) =
        decide ((G (pathEnd geo key s d p)).page.length = geo.noPairs) := by
      rw [State.full, h.page_eq (by omega)]
    have hrec := ih (by omega)
    rw [pathEnd_succ_last, Labels.needed, hpar, innerPath_succ_last, List.reverse_append,
      List.reverse_singleton, List.singleton_append, List.takeWhile_cons, hfull]
    by_cases hpage : (G (pathEnd geo key s d p)).page.length = geo.noPairs
    · simp only [if_pos hpage, decide_eq_true hpage, if_true, List.length_cons, hrec]
      split <;> split <;> omega
    · simp [hpage]

/-- The new roots that an insertion makes: one when there is no tree or no node of the way has room. -/
def newRoots (geo : Geo) (key : Words w) (s : State w) : Nat :=
  if s.height = 0 ∨ fullRun geo key s = s.height then 1 else 0

/-- The nodes that an insertion takes, read off its way. -/
theorem Tree.nodesTaken_path (key : Words w) (h : Tree geo m r 1 s G) (hm : 1 ≤ m) (hr : 1 ≤ r) :
    nodesTaken geo key s = fullRun geo key s + newRoots geo key s := by
  unfold newRoots
  by_cases hh : s.height = 0
  · simp [nodesTaken, fullRun, wayUp, hh]
  · obtain ⟨q, s₁, G₁, hfind, hres⟩ := h.findLevel_route key hm hr le_rfl (by omega)
    have hq : q = leafOf geo key s := (h.findLevel_path hm hr le_rfl (by omega) hfind).1
    have hlen : ∀ x, (G₁ x).page.length = (G x).page.length := by
      intro x
      rcases hres.lowered.page x with hsame | ⟨-, l₁, k₀, c, hold, -, hnew⟩
      · rw [hsame]
      · rw [hold, hnew, List.length_append, List.length_append]
        rfl
    have hleaf := h.leafOf_lvl key hm hr (by omega)
    have hroot := h.root_lvl (by omega)
    have hfull : s.full geo (leafOf geo key s) = decide ((G (leafOf geo key s)).page.length = geo.noPairs) := by
      rw [State.full, h.page_eq (by omega)]
    have hneed := h.needed_path key hm hr (p := s.node) (d := s.height - 1) (by omega)
    rw [hres.nodesTaken_eq key (by omega) hfind, needed_congr hres.lowered.par hlen, hlen, hq, fullRun, wayUp,
      if_neg hh, List.takeWhile_cons, hfull]
    by_cases hpage : (G (leafOf geo key s)).page.length = geo.noPairs
    · rw [if_pos hpage, decide_eq_true hpage]
      rw [leafOf, hneed]
      simp only [if_true, List.length_cons]
      split <;> split <;> omega
    · simp [hpage, hh]
      omega

theorem fullRun_le (geo : Geo) (key : Words w) (s : State w) : fullRun geo key s ≤ s.height := by
  have hlen : ∀ (d : Nat) (p : Ptr w), (innerPath geo key s d p).length = d := by
    intro d
    induction d with
    | zero => exact fun _ => rfl
    | succ d ih => exact fun p => congrArg (· + 1) (ih _)
  have hrun := (List.takeWhile_prefix (s.full geo) (l := wayUp geo key s)).length_le
  have hway : (wayUp geo key s).length = s.height := by
    unfold wayUp
    split
    next hh => rw [hh, List.length_nil]
    next hh => rw [List.length_cons, List.length_reverse, hlen, Nat.sub_add_cancel (by omega)]
  rwa [hway] at hrun

/-! ## The nodes of an insertion -/

/-- The tree has `n` nodes more, all from the mempool and one on each level from the leaves up. -/
structure Splits (geo : Geo) (n : Nat) (s s' : State w) : Prop where
  pool : s'.pool = s.pool.drop n
  nodes : ∃ new : Nat → Ptr w, (∀ i < n, s.heap (new i) = none) ∧
    (nodes geo s').Perm (nodes geo s ++ (List.range n).map fun i => (i + 1, new i))

theorem Tree.nodes_nodup (h : Tree geo m r 1 s G) : (nodes geo s).Nodup := by
  by_cases hh : s.height = 0
  · simp [nodes, hh, nodesBelow]
  · exact h.nodesBelow_nodup (h.root_lvl (by omega))

/-- The new nodes, read off the labels. -/
theorem splits_of_took {n : Nat} {t : State w} (h : Tree geo m r 1 s G) (h' : Tree geo m r 1 s' G')
    (hbelow : Below 1 s s' G G') (htpool : t.pool = s.pool) (htook : Took geo 1 n t s' G G') :
    Splits geo n s s' := by
  obtain ⟨new, hnew, honly⟩ := htook.nodes
  have hlvl : ∀ i < n, (G (new (i + 1))).lvl = 0 ∧ (G' (new (i + 1))).lvl = i + 1 := fun i hi =>
    hnew (i + 1) (by omega) (by omega)
  have hfree : ∀ i < n, s.heap (new (i + 1)) = none := fun i hi =>
    (hbelow.fresh _ (hlvl i hi).1 (by rw [(hlvl i hi).2]; omega)).1
  refine ⟨htook.pool.trans (by rw [htpool]), fun i => new (i + 1), hfree, ?_⟩
  -- a new node had no level, so it is none of the old ones
  have hdisjoint : ∀ e ∈ nodes geo s, e ∉ (List.range n).map fun i => (i + 1, new (i + 1)) := by
    rintro ⟨l, x⟩ hold hmem
    obtain ⟨i, hi, heq⟩ := List.mem_map.mp hmem
    obtain ⟨rfl, rfl⟩ := Prod.mk.inj heq
    have hzero := (hlvl i (List.mem_range.mp hi)).1
    have := (h.mem_nodes.mp hold).2
    omega
  have hrange : ((List.range n).map fun i => (i + 1, new (i + 1))).Nodup :=
    List.nodup_range.map fun i j heq => by simpa using congrArg Prod.fst heq
  have hnodup : (nodes geo s ++ (List.range n).map fun i => (i + 1, new (i + 1))).Nodup :=
    List.nodup_append.mpr ⟨h.nodes_nodup, hrange, fun e he e' he' heq => hdisjoint e he (heq ▸ he')⟩
  -- both lists are without repetition, so it is enough to compare the members
  apply (List.perm_ext_iff_of_nodup h'.nodes_nodup hnodup).mpr
  rintro ⟨l, x⟩
  rw [List.mem_append, h'.mem_nodes, h.mem_nodes, List.mem_map]
  constructor
  · rintro ⟨hl, hx⟩
    by_cases hold : (G x).lvl = 0
    · obtain ⟨hlt, heq⟩ := honly x hold (by omega)
      rw [hx] at hlt heq
      refine .inr ⟨l - 1, List.mem_range.mpr (by omega), ?_⟩
      rw [Nat.sub_add_cancel hl, ← heq]
    · exact .inl ⟨hl, by rw [← hbelow.lvl x (by omega), hx]⟩
  · rintro (⟨hl, hx⟩ | ⟨i, hi, heq⟩)
    · exact ⟨hl, by rw [hbelow.lvl x (by omega), hx]⟩
    · obtain ⟨rfl, rfl⟩ := Prod.mk.inj heq
      exact ⟨by omega, (hlvl i (List.mem_range.mp hi)).2⟩

/-- The search of an insertion writes to nodes only. -/
theorem Tree.routed_mem (key : Words w) (h : Tree geo m r 1 s G) (hm : 1 ≤ m) (hr : 1 ≤ r) :
    (routed geo key s).pool = s.pool ∧ (routed geo key s).height = s.height := by
  by_cases hh : s.height = 0
  · rw [h.routed_empty key hh]
    exact ⟨rfl, rfl⟩
  · obtain ⟨q, s₁, G₁, hfind, hres⟩ := h.findLevel_route key hm hr le_rfl (by omega)
    rw [routed_of_find hfind, hres.mem]
    exact ⟨rfl, rfl⟩

theorem Tree.not_outOfMemory (h : Tree geo m r 1 s G)
    (hmemory : Provided geo (nodesTaken geo key s) (routed geo key s)) : ¬OutOfMemory geo key s := by
  have hnot := hmemory.not_starved
  unfold OutOfMemory
  unfold nodesTaken at hnot
  by_cases hh : s.height = 0
  · rwa [if_pos hh, h.routed_empty key hh] at *
  · rw [if_neg hh] at *
    rintro ⟨hfull, hstarved⟩
    rw [if_pos hfull] at hnot
    exact hnot hstarved

/-- With memory for its nodes an insertion returns, after two passes through `retry:` at most on each
level; each full node of the way is split once, and the root gets a parent when all are full. -/
theorem cbtreeInsert_splits (hN : 4 ≤ geo.noPairs) (h₀ : Fresh s₀) (h : Run geo (InsertsNew geo) s₀ s)
    {val : Ptr w} (hval : val ≠ 0#w) (habsent : Absent geo s key)
    (hmemory : Provided geo (fullRun geo key s + newRoots geo key s) (routed geo key s)) :
    ∃ s', cbtreeInsert geo key val s = .ok (0, s') ∧
      insertWithin geo (fun _ => 2) key val s = .ok (0, s') ∧
      Splits geo (fullRun geo key s + newRoots geo key s) s s' ∧
      s'.height = s.height + newRoots geo key s := by
  obtain ⟨G, hG⟩ := tree_of_inserts hN h₀ h
  have hle := fullRun_le geo key s
  have htaken := hG.nodesTaken_path key (by omega) (by omega)
  have hpasses : Passes fun fuel => min 2 (fuel + 1) := fun fuel =>
    ⟨le_min (by omega) (by omega), fun hfuel => le_min le_rfl (by omega)⟩
  obtain ⟨hpool, hheight⟩ := hG.routed_mem key (by omega) (by omega)
  rw [← htaken] at hmemory ⊢
  rcases insertWithin_new hpasses hN (by omega) le_rfl (by omega) le_rfl hG hval (hG.absent.mp habsent) with
    ⟨-, hnot⟩ | ⟨s', G', hfail, hrefused⟩ | ⟨s', G', leaf, hok, -, hins⟩
  · exact absurd hmemory hnot
  · exact absurd hrefused.memory (hG.not_outOfMemory hmemory)
  · refine ⟨s', ?_, insertWithin_mono (fun fuel => min_le_left 2 _) hok,
      splits_of_took hG hins.tree hins.below hpool hins.took, ?_⟩
    · rw [cbtreeInsert_eq]
      exact insertWithin_mono (fun fuel => min_le_right 2 _) hok
    · -- the way is as long as the tree is high
      rw [hins.took.height, hheight, htaken]
      unfold newRoots
      split <;> omega

/-- A full leaf and no other node. -/
def fullLeaf : State 64 :=
  Cmd.execAll Machine.x86_64.cbtree_geo64 (InsertsNew Machine.x86_64.cbtree_geo64) (eightInserts.take 7) (arena 4)

theorem fullLeaf_run : Run Machine.x86_64.cbtree_geo64 (InsertsNew Machine.x86_64.cbtree_geo64) (arena 4)
    fullLeaf := Cmd.run_execAll _ _ _ (arena 4)

theorem cbtreeInsert_splits_full_leaf :
    fullRun Machine.x86_64.cbtree_geo64 (wordKey 8) fullLeaf = 1 ∧
    newRoots Machine.x86_64.cbtree_geo64 (wordKey 8) fullLeaf = 1 ∧
    ∃ s', cbtreeInsert Machine.x86_64.cbtree_geo64 (wordKey 8) 0x77#64 fullLeaf = .ok (0, s') ∧
      Splits Machine.x86_64.cbtree_geo64 2 fullLeaf s' ∧ s'.height = 2 := by
  have hfull : fullRun Machine.x86_64.cbtree_geo64 (wordKey 8) fullLeaf = 1 := by decide +kernel
  have hroot : newRoots Machine.x86_64.cbtree_geo64 (wordKey 8) fullLeaf = 1 := by decide +kernel
  have hheight : fullLeaf.height = 1 := by decide +kernel
  have hval : (0x77#64 : Ptr 64) ≠ 0#64 := by decide
  have habsent : Absent Machine.x86_64.cbtree_geo64 fullLeaf (wordKey 8) := by decide +kernel
  obtain ⟨s', hrun, -, hsplits, hgrown⟩ := cbtreeInsert_splits (by decide) (arena_blank 4).fresh fullLeaf_run
    hval habsent (by decide +kernel)
  rw [hfull, hroot] at hsplits
  rw [hheight, hroot] at hgrown
  exact ⟨hfull, hroot, s', hrun, hsplits, hgrown⟩

end CachedBTree
