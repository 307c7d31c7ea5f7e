import CachedBTree.Removal.Absent

/-! # Cached keys

An entry of a cache records the key that it was written for.  Nothing else writes to it, so it
outlives what happens to the leaf: a split takes the greater half of the pairs away, a removal
takes one, and a lookup that another cache has misled records a key that the leaf never held.
Each call keeps the entries right exactly as long as it does none of this to a recorded key. -/

namespace CachedBTree

open CachedBTree.Support

variable {w : Nat} {geo : Geo} {s s' s₀ : State w} {p x : Ptr w} {R R' : Rings w} {G : Labels w} {m r : Nat}
  {key : Words w} {ret : Ptr w}

/-! ## What the entries record -/

/-- Every entry of a node in the tree that names a node which is not flagged names a leaf that holds the key
recorded. -/
def Coherent (geo : Geo) (s : State w) : Prop :=
  ∀ n ∈ nodes geo s, ∀ e ∈ s.cache geo n.2, e.node ≠ 0#w → s.flagged geo e.node = false →
    (1, e.node) ∈ nodes geo s ∧ keyNum geo (s.keyBuf e.key) ∈ (s.page geo e.node).map Prod.fst

instance decidableCoherent (geo : Geo) (s : State w) : Decidable (Coherent geo s) := by
  unfold Coherent
  infer_instance

/-- The keys recorded by the entries that name `leaf`. -/
def cachedKeys (geo : Geo) (s : State w) (leaf : Ptr w) : List Nat :=
  (nodes geo s).flatMap fun n =>
    ((s.cache geo n.2).filter fun e => e.node = leaf).map fun e => keyNum geo (s.keyBuf e.key)

/-- The same in terms of the entries. -/
def Backed (geo : Geo) (s : State w) (R : Rings w) : Prop :=
  ∀ x, ∀ e ∈ R x, e.node ≠ 0#w → keyNum geo (s.keyBuf e.key) ∈ (s.page geo e.node).map Prod.fst

/-- Entries in use sit in the tree. -/
theorem Warm.entry_node {e : Entry w} (h : Warm geo m r s G R) (he : e ∈ R x) (hne : e.node ≠ 0#w) :
    ((G x).lvl, x) ∈ nodes geo s ∧ e ∈ s.cache geo x ∧ (1, e.node) ∈ nodes geo s := by
  obtain ⟨hx, hleaf⟩ := h.aimed x e he hne
  exact ⟨h.tree.mem_nodes.mpr ⟨by omega, rfl⟩, by rwa [h.caches.cache],
    h.tree.mem_nodes.mpr ⟨le_rfl, hleaf⟩⟩

theorem Warm.coherent_iff (h : Warm geo m r s G R) : Coherent geo s ↔ Backed geo s R := by
  constructor
  · intro hc x e he hne
    obtain ⟨hx, hmem, -⟩ := h.entry_node he hne
    exact (hc _ hx e hmem hne (h.caches.not_flagged e.node)).2
  · intro hb n hn e he hne _
    rw [h.caches.cache] at he
    exact ⟨(h.entry_node he hne).2.2, hb n.2 e he hne⟩

theorem Warm.mem_cachedKeys {e : Entry w} (h : Warm geo m r s G R) (he : e ∈ R x) (hne : e.node ≠ 0#w) :
    keyNum geo (s.keyBuf e.key) ∈ cachedKeys geo s e.node := by
  obtain ⟨hx, hmem, -⟩ := h.entry_node he hne
  exact List.mem_flatMap.mpr ⟨_, hx, List.mem_map.mpr ⟨e, List.mem_filter.mpr ⟨hmem, by simp⟩, rfl⟩⟩

/-- A call that writes to no buffer leaves what is recorded. -/
theorem Caches.keyBuf_kept {e : Entry w} (h : Caches geo s R) (hside : SideKept s s') (he : e ∈ R x)
    (hne : e.node ≠ 0#w) : s'.keyBuf e.key = s.keyBuf e.key := by
  obtain ⟨n, hn⟩ := h.node x (List.ne_nil_of_mem he)
  rcases h.ring x n hn with ⟨-, hnil, -⟩ | hring
  · rw [hnil] at he
    cases he
  · rcases hring.key e he with ⟨-, hnull⟩ | ⟨-, ws, hbuf⟩
    · exact absurd hnull hne
    · unfold State.keyBuf
      rw [hbuf, hside _ _ hbuf fun n hn => by cases hn]

/-! ## One insertion -/

/-- No pair with a recorded key moves to another leaf. -/
theorem Warm.insert_backed {val : Ptr w} {err : Int} (hN : 4 ≤ geo.noPairs) (h : Warm geo 1 1 s G R)
    (hb : Backed geo s R)
    (hkeep : OutOfMemory geo key s ∨ ((s.page geo (leafOf geo key s)).length = geo.noPairs →
      ∀ k ∈ cachedKeys geo s (leafOf geo key s),
        k ∉ ((s.page geo (leafOf geo key s)).take (geo.noPairs / 2)).map Prod.fst))
    (hrun : cbtreeInsert geo key val s = .ok (err, s')) :
    ∃ G' R', Warm geo 1 1 s' G' R' ∧ Backed geo s' R' := by
  obtain ⟨G', R', hwarm, hgrew, hres⟩ := h.insert hN le_rfl (by omega) le_rfl (by omega) hrun
  refine ⟨G', R', hwarm, fun x e he hne => ?_⟩
  -- an entry that names a leaf is an old one; only the leaf can have changed
  obtain ⟨hold, -⟩ := hgrew.entry_old he hne
  obtain ⟨-, hlvl⟩ := h.aimed x e hold hne
  obtain ⟨-, hlvl'⟩ := hwarm.aimed x e he hne
  have hmem := hb x e hold hne
  rw [h.caches.keyBuf_kept hgrew.side hold hne, hwarm.tree.page_eq (by omega)]
  have hpage := h.tree.page_eq (p := e.node) (by omega)
  rcases hres with hrefused | ⟨leaf, hins, hfind⟩
  · rwa [hrefused.lowered.page_leaf (by omega), ← hpage]
  · obtain ⟨⟨k, v⟩, hin, hk⟩ := List.mem_map.mp hmem
    rw [hpage] at hin
    rcases hins.stay e.node (k, v) hlvl hin with hstay | ⟨heq, hfull, htake⟩
    · exact List.mem_map.mpr ⟨(k, v), hstay, hk⟩
    · -- the pair has moved, which the condition excludes
      exfalso
      have hh : 1 ≤ s.height := by have := h.tree.lvl_le e.node; omega
      obtain ⟨s₁, hfind⟩ := hfind hh
      obtain rfl : leaf = leafOf geo key s := (h.tree.findLevel_path le_rfl le_rfl le_rfl hh hfind).1
      rw [← heq, hpage] at hkeep
      exact hkeep.resolve_left hins.memory hfull _ (h.mem_cachedKeys hold hne) (hk ▸ List.mem_map_of_mem htake)

/-! ## One lookup -/

theorem Warm.lookup_backed (h : Warm geo 1 1 s G R) (hb : Backed geo s R)
    (hkeep : s.height ≤ 1 ∨ cacheHit geo key s s.node ≠ 0#w ∨ answer geo key s s.height s.node = 0#w ∨
      keyNum geo key ∈ (s.page geo (answer geo key s s.height s.node)).map Prod.fst)
    (hrun : cbtreeLookup geo key s = .ok (ret, s')) :
    ∃ R', Warm geo 1 1 s' G R' ∧ Backed geo s' R' := by
  obtain ⟨-, R', hwarm, hlooked, hhit⟩ := h.lookup hrun
  refine ⟨R', hwarm, fun x e' he' hne => ?_⟩
  obtain ⟨hlvl, hleaf⟩ := hwarm.aimed x e' he' hne
  have hpage : s'.page geo e'.node = s.page geo e'.node := by
    rw [hwarm.tree.page_eq (by omega), h.tree.page_eq (by omega)]
  rw [hpage]
  have hheight := h.tree.lvl_le x
  -- the entry is an old one, or the one written by this search
  rcases hlooked.entries x e' he' hne with ⟨e, he, hnode, hbuf⟩ | ⟨-, hnode, hkey⟩
  · rw [hbuf, ← hnode]
    exact hb x e he (by rwa [hnode])
  · rw [keyNum_congr hkey, hnode]
    rcases hkeep with hflat | hcached | hnone | hstored
    · omega
    · -- nothing has been written
      obtain ⟨rfl, rfl⟩ := hhit (by omega) hcached
      rw [← keyNum_congr hkey, ← hnode]
      exact hb x e' he' hne
    · exact absurd (hnode.trans hnone) hne
    · exact hstored

/-! ## One removal -/

/-- The key of the pair that `cbtree_remove` takes from a leaf. -/
def takenKey (geo : Geo) (key : Words w) (s : State w) : Option Nat :=
  if looksStored geo key s then (s.page geo (leafOf geo key s)).getLast?.map Prod.fst
  else some (keyNum geo key)

/-- What a removal that returns takes from the leaves. -/
theorem Warm.removed_page {e : Nat × Ptr w} (hN : 4 ≤ geo.noPairs) (h : Warm geo 1 1 s G R)
    (hrun : cbtreeRemove geo (Reclaim.code geo) key s = .ok (ret, s')) (hx : (G x).lvl = 1)
    (he : e ∈ s.page geo x) :
    e ∈ s'.page geo x ∨ x = leafOf geo key s ∧ takenKey geo key s = some e.1 := by
  have hh : 1 ≤ s.height := by have := h.tree.lvl_le x; omega
  obtain ⟨p, s₁, G₁, n, hfind, hrouted, hn, hholds, hcase⟩ := h.tree.removal (by omega) h.caches hh hrun
  have hpage : ∀ y, (G y).lvl = 1 → (G₁ y).page = s.page geo y := fun y hy => by
    rw [hrouted.lowered.page_leaf (by omega), h.tree.page_eq (by omega)]
  have hlvl : ∀ y, (G₁ y).lvl = (G y).lvl := hrouted.lowered.lvl
  rcases hcase with ⟨-, -, rfl⟩ | ⟨hcmp, n', l', hthin, -, -, htree, -⟩
  · left
    rwa [hrouted.tree.page_eq (by rw [hlvl]; omega), hpage x hx]
  have hplvl : (G p).lvl = 1 := by rw [← hlvl, hrouted.lvl]
  by_cases hxp : x = p
  · subst hxp
    have hleaf : x = leafOf geo key s := (h.tree.findLevel_path le_rfl le_rfl le_rfl hh hfind).1
    rw [htree.page_eq (by rw [Function.update_self]; simp only; rw [hlvl]; omega), Function.update_self]
    simp only
    rw [hpage x hx] at hthin hholds
    -- the words of the leaf are those from before the call
    have hnode : s.heap x = some (.node n) := by rw [← hrouted.heap x (by omega), hn]
    have hlooks : looksStored geo key s = true ↔
        (∀ a ∈ s.page geo x, keyNum geo key < a.1) ∧ keycmp geo n (s.page geo x).length key = 0 := by
      unfold looksStored
      rw [← hleaf, hnode]
      simp only [hholds.pageOf, Bool.and_eq_true, decide_eq_true_eq, List.all_eq_true]
      exact and_iff_right (by omega)
    unfold takenKey
    rw [← hleaf]
    generalize s.page geo x = l at he hthin hholds hlooks ⊢
    cases hthin with
    | stored l₁ l₂ =>
      have hfalse : ¬looksStored geo key s = true := fun hlook =>
        absurd ((hlooks.mp hlook).1 (keyNum geo key, ret) (by simp)) (lt_irrefl _)
      rw [if_neg hfalse]
      cases List.mem_append.mp he with
      | inl hmem =>
        exact .inl (List.mem_append_left l₂ hmem)
      | inr hmem =>
        rcases List.mem_cons.mp hmem with rfl | hmem
        · exact .inr ⟨rfl, rfl⟩
        · exact .inl (List.mem_append_right l₁ hmem)
    | phantom l e₀ hlt =>
      have hpos : getpos geo n key = (l' ++ [e₀]).length := by
        rw [← List.append_nil (l' ++ [e₀])] at hholds
        exact hholds.getpos hlt (by simp)
      rw [if_pos (hlooks.mpr ⟨hlt, by rwa [hpos] at hcmp⟩)]
      cases List.mem_append.mp he with
      | inl hmem =>
        exact .inl hmem
      | inr hmem =>
        rw [List.mem_singleton.mp hmem]
        exact .inr ⟨rfl, by simp⟩
  · left
    rw [htree.page_eq (by rw [Function.update_of_ne hxp, hlvl]; omega), Function.update_of_ne hxp, hpage x hx]
    exact he

theorem Warm.remove_backed (hN : 4 ≤ geo.noPairs) (h : Warm geo 1 1 s G R) (hb : Backed geo s R)
    (hkeep : ∀ k ∈ cachedKeys geo s (leafOf geo key s), takenKey geo key s ≠ some k)
    (hrun : cbtreeRemove geo (Reclaim.code geo) key s = .ok (ret, s')) :
    ∃ G', Warm geo 1 1 s' G' R ∧ Backed geo s' R := by
  obtain ⟨-, G', hwarm, -⟩ := h.remove hN hrun
  refine ⟨G', hwarm, fun x e he hne => ?_⟩
  have hside : SideKept s s' := by
    by_cases hh : s.height = 0
    · rw [cbtreeRemove, if_pos hh] at hrun
      cases hrun
      exact fun _ _ hx _ => hx
    · rw [cbtreeRemove, if_neg hh] at hrun
      exact (cbtreeRemoveLevel_writes (by omega) _ _ _ _ _ _ R hrun h.caches).side
  rw [h.caches.keyBuf_kept hside he hne]
  obtain ⟨⟨k, v⟩, hin, hk⟩ := List.mem_map.mp (hb x e he hne)
  rcases h.removed_page hN hrun (h.aimed x e he hne).2 hin with hstay | ⟨hleaf, htaken⟩
  · exact List.mem_map.mpr ⟨(k, v), hstay, hk⟩
  · rw [← hleaf] at hkeep
    exact absurd (hk ▸ htaken) (hkeep _ (h.mem_cachedKeys he hne))

/-! ## All runs -/

/-- Insertions, lookups and removals. -/
def InsertsLooksUpRemoves : Cmd w → State w → Prop
  | .insert _ _, _ | .lookup _, _ | .remove _, _ => True
  | .update _ _, _ => False

instance decidableInsertsLooksUpRemoves : ∀ (c : Cmd w) (s : State w), Decidable (InsertsLooksUpRemoves c s)
  | .insert _ _, _ | .lookup _, _ | .remove _, _ => isTrue trivial
  | .update _ _, _ => isFalse id

/-- The insertion fails, or splits no leaf that has a recorded key in its greater half; the lookup writes no
entry, or its leaf holds the key; the key that the removal takes from a leaf is not recorded for it. -/
def KeepsCoherent (geo : Geo) : Cmd w → State w → Prop
  | .insert key _, s => OutOfMemory geo key s ∨ ((s.page geo (leafOf geo key s)).length = geo.noPairs →
      ∀ k ∈ cachedKeys geo s (leafOf geo key s),
        k ∉ ((s.page geo (leafOf geo key s)).take (geo.noPairs / 2)).map Prod.fst)
  | .lookup key, s => s.height ≤ 1 ∨ cacheHit geo key s s.node ≠ 0#w ∨
      answer geo key s s.height s.node = 0#w ∨
      keyNum geo key ∈ (s.page geo (answer geo key s s.height s.node)).map Prod.fst
  | .remove key, s => ∀ k ∈ cachedKeys geo s (leafOf geo key s), takenKey geo key s ≠ some k
  | .update _ _, _ => False

instance decidableKeepsCoherent (geo : Geo) : ∀ (c : Cmd w) (s : State w), Decidable (KeepsCoherent geo c s)
  | .insert _ _, _ => inferInstanceAs (Decidable (_ ∨ _))
  | .lookup _, _ => inferInstanceAs (Decidable (_ ∨ _))
  | .remove key, s =>
    inferInstanceAs (Decidable (∀ k ∈ cachedKeys geo s (leafOf geo key s), takenKey geo key s ≠ some k))
  | .update _ _, _ => isFalse id

/-- In every run of such calls that return the caches record what the leaves hold. -/
theorem coherent_of_calls (hN : 4 ≤ geo.noPairs) (h₀ : Blank s₀) (h : Run geo (KeepsCoherent geo) s₀ s) :
    Coherent geo s := by
  suffices hI : ∃ G R, Warm geo 1 1 s G R ∧ Backed geo s R by
    obtain ⟨G, R, hwarm, hb⟩ := hI
    exact hwarm.coherent_iff.mpr hb
  apply h.keeps (I := fun s => ∃ G R, Warm geo 1 1 s G R ∧ Backed geo s R) ?_
    ⟨_, _, h₀.warm, fun x e he => by cases he⟩
  rintro c s s' hkeep hrun ⟨G, R, hwarm, hb⟩
  cases c with
  | insert key val =>
    obtain ⟨err, hrun⟩ := map_eq_ok.mp hrun
    obtain ⟨G', R', hres⟩ := hwarm.insert_backed hN hb hkeep hrun
    exact ⟨G', R', hres⟩
  | lookup key =>
    obtain ⟨ret, hrun⟩ := map_eq_ok.mp hrun
    obtain ⟨R', hres⟩ := hwarm.lookup_backed hb hkeep hrun
    exact ⟨G, R', hres⟩
  | remove key =>
    obtain ⟨ret, hrun⟩ := map_eq_ok.mp hrun
    obtain ⟨G', hres⟩ := hwarm.remove_backed hN hb hkeep hrun
    exact ⟨G', R, hres⟩
  | update _ _ => exact hkeep.elim

/-- Two keys are looked up in a tree with two leaves, then a third is removed. -/
def afterEleven : State 64 := Cmd.execAll Machine.x86_64.cbtree_geo64
  (KeepsCoherent Machine.x86_64.cbtree_geo64)
  (eightInserts ++ [.lookup (wordKey 2), .lookup (wordKey 3), .remove (wordKey 1)]) (arena 4)

theorem coherent_of_eleven_calls :
    cachedKeys Machine.x86_64.cbtree_geo64 afterEleven 0x1000#64 = [2] ∧
    Coherent Machine.x86_64.cbtree_geo64 afterEleven :=
  ⟨by decide +kernel, coherent_of_calls (by decide) (arena_blank 4) (Cmd.run_execAll _ _ _ _)⟩

/-- A key is looked up and removed. -/
def cachedRemoved : State 64 := Cmd.execAll Machine.x86_64.cbtree_geo64 InsertsLooksUpRemoves
  (eightInserts ++ [.lookup (wordKey 2), .remove (wordKey 2)]) (arena 4)

theorem cache_outlives_key :
    ¬∀ s, Run Machine.x86_64.cbtree_geo64 InsertsLooksUpRemoves (arena 4) s →
      Coherent Machine.x86_64.cbtree_geo64 s := by
  intro hall
  have hbad : ¬Coherent Machine.x86_64.cbtree_geo64 cachedRemoved := by decide +kernel
  exact hbad (hall _ (Cmd.run_execAll _ _ _ _))

end CachedBTree
