import CachedBTree.Caching.Sticking
import CachedBTree.Caching.Updates
import CachedBTree.Model.Profiling

/-! # What the profiling module measures

`fill_tree` stores the keys whose insertion does not run out of nodes.  `find_tree` then looks up
random keys: once a key has been found, `find_element` returns the leaf of this key for every
other one, so all later lookups that are timed are answers of the root's cache. -/

namespace CachedBTree

open CachedBTree.Support

variable {w : Nat} {geo : Geo} {s s' s₀ : State w} {leaf : Ptr w} {R : Rings w} {G : Labels w} {m r K : Nat}

/-! ## fill_tree -/

/-- `kmalloc` of a value that succeeds. -/
theorem Warm.kmalloc {val : Ptr w} (h : Warm geo m r s G R) (hval : val ≠ 0#w)
    (hrun : s.kmalloc .buf = (val, s')) : Warm geo m r s' G R ∧ s.heap val = none ∧
      (∃ ws, s'.heap val = some (.buf ws)) ∧ s'.toHead = s.toHead ∧ ∀ x o, s.heap x = some o → s'.heap x = some o := by
  rcases s.kmalloc_cases .buf with ⟨slab, hfail⟩ | ⟨p, junk, slab, hp, hfree, hok⟩
  · rw [hfail] at hrun
    exact absurd (Prod.mk.inj hrun).1.symm hval
  rw [hok] at hrun
  obtain ⟨rfl, rfl⟩ := Prod.mk.inj hrun
  have hheap : ∀ x, x ≠ p → ({ s with slab := slab }.setObj p (some (.buf junk))).heap x = s.heap x := fun x hx => by
    rw [State.setObj_heap, if_neg hx]
  have hself : ({ s with slab := slab }.setObj p (some (.buf junk))).heap p = some (.buf junk) := by
    rw [State.setObj_heap, if_pos rfl]
  have hold : ∀ x o, s.heap x = some o → ({ s with slab := slab }.setObj p (some (.buf junk))).heap x = some o := by
    intro x o hx
    rw [hheap x, hx]
    rintro rfl
    rw [hfree] at hx
    cases hx
  have hback : ∀ x n, ({ s with slab := slab }.setObj p (some (.buf junk))).heap x = some (.node n) →
      s.heap x = some (.node n) := by
    intro x n hx
    by_cases hxp : x = p
    · rw [hxp, hself] at hx
      cases hx
    · rwa [hheap x hxp] at hx
  refine ⟨⟨h.tree.kept rfl hold, ?_, fun x n hx => h.counted x n (hback x n hx), h.aimed⟩, hfree, ⟨junk, hself⟩, rfl,
    hold⟩
  exact h.caches.mono rfl (fun x o hx _ => hold x o hx) (fun x n hx => ⟨n, hback x n hx, rfl, rfl⟩)
    fun x n hx => ⟨n, hold x _ hx⟩

/-- The tree while `fill_tree` runs: no lookup yet, keys below `i`, and every value a buffer of its own. -/
structure Filled (geo : Geo) (s : State w) (i : Nat) : Prop where
  warm : ∃ G R, Warm geo (geo.noPairs / 2) 2 s G R ∧ Cold R
  below : ∀ e ∈ entries geo s, e.1 < i
  values : ∀ e ∈ entries geo s, ∃ ws, s.heap e.2 = some (.buf ws)
  distinct : ((entries geo s).map Prod.snd).Nodup

/-- The keys from `i` on whose insertion has returned 0. -/
def storedKeys : Nat → List Int → List Nat
  | _, [] => []
  | i, err :: errs => if err = 0 then i :: storedKeys (i + 1) errs else storedKeys (i + 1) errs

theorem keyNum_tempKey (hlen : geo.keylen = 1) {i : Nat} (hi : i < 2 ^ w) (stack : Words w) :
    keyNum geo (tempKey (BitVec.ofNat w i) stack) = i := by
  rw [keyNum, hlen]
  simp [numeral, tempKey, Nat.mod_eq_of_lt hi]

/-- A key above all others comes first. -/
theorem descending_cons {l l' : Page w} {e : Nat × Ptr w} (hl : Descending l) (hl' : Descending l')
    (hlt : ∀ a ∈ l', a.1 < e.1) (hperm : l.Perm (e :: l')) : l = e :: l' :=
  hl.ext (List.pairwise_cons.mpr ⟨hlt, hl'⟩) fun _ => hperm.mem_iff

theorem Filled.insertElement {i : Nat} (hN : 4 ≤ geo.noPairs) (hlen : geo.keylen = 1) (h : Filled geo s i)
    (hi : i < 2 ^ w) (stack : Words w) :
    insertElement geo (BitVec.ofNat w i) stack s = .error (.bug .insertVal) ∨
    insertElement geo (BitVec.ofNat w i) stack s = .error .nullDeref ∨
    ∃ err s', insertElement geo (BitVec.ofNat w i) stack s = .ok (err, s') ∧ Filled geo s' (i + 1) ∧
      (err = -ENOMEM ∧ (entries geo s').map Prod.fst = (entries geo s).map Prod.fst ∨
        err = 0 ∧ (entries geo s').map Prod.fst = i :: (entries geo s).map Prod.fst) := by
  obtain ⟨G, R, hwarm, hcold⟩ := h.warm
  obtain ⟨val, s₁, hkmalloc⟩ : ∃ val s₁, s.kmalloc .buf = (val, s₁) := ⟨_, _, rfl⟩
  unfold CachedBTree.insertElement
  simp only [hkmalloc]
  by_cases hval : val = 0#w
  · exact .inl (by rw [hval, cbtreeInsert, if_pos rfl])
  obtain ⟨hwarm₁, hfree, ⟨ws, hbuf⟩, hhead, hold⟩ := hwarm.kmalloc hval hkmalloc
  have hentries₁ : entries geo s₁ = entries geo s := hwarm.tree.entries_congr hwarm₁.tree
  have hkey := keyNum_tempKey hlen hi stack
  have habsent : Absent geo s₁ (tempKey (BitVec.ofNat w i) stack) := by
    intro e he
    rw [hentries₁] at he
    have := h.below e he
    omega
  -- what holds of the entries whatever the insertion does to the nodes
  have hlive : ∀ err s', cbtreeInsert geo (tempKey (BitVec.ofNat w i) stack) val s₁ = .ok (err, s') →
      (∃ G' R', Warm geo (geo.noPairs / 2) 2 s' G' R' ∧ Cold R') ∧
      (∃ ws, s'.heap val = some (.buf ws)) ∧ ∀ e ∈ entries geo s, ∃ ws, s'.heap e.2 = some (.buf ws) := by
    intro err s' hrun
    obtain ⟨G', R', hwarm', hgrew, -⟩ := hwarm₁.insert hN (by omega) le_rfl (by omega) le_rfl hrun
    refine ⟨⟨G', R', hwarm', fun x e he => ?_⟩, ⟨ws, hgrew.side val _ hbuf (by simp)⟩, fun e he => ?_⟩
    · by_contra hne
      exact hne (hcold x e (hgrew.entry_old he hne).1)
    · obtain ⟨ws', hws'⟩ := h.values e he
      exact ⟨ws', hgrew.side e.2 _ (hold e.2 _ hws') (by simp)⟩
  rcases hwarm₁.tree.insert_returns hN (by omega) le_rfl (by omega) le_rfl hval habsent with
    hnull | ⟨s', G', hfail, -, hentries⟩ | ⟨s', G', hok, htree, hperm⟩
  · exact .inr (.inl hnull)
  · obtain ⟨hwarm', -, hvalues⟩ := hlive _ s' hfail
    rw [hentries₁] at hentries
    refine .inr (.inr ⟨_, s', hfail, ⟨hwarm', ?_, ?_, ?_⟩, .inl ⟨rfl, by rw [hentries]⟩⟩)
    · rw [hentries]
      exact fun e he => (h.below e he).trans (Nat.lt_succ_self i)
    · rwa [hentries]
    · rw [hentries]
      exact h.distinct
  · obtain ⟨hwarm', hnew, hvalues⟩ := hlive _ s' hok
    rw [hentries₁, hkey] at hperm
    have hentries := descending_cons htree.entries_descending hwarm.tree.entries_descending h.below hperm
    refine .inr (.inr ⟨_, s', hok, ⟨hwarm', ?_, ?_, ?_⟩, .inr ⟨rfl, by rw [hentries]; rfl⟩⟩)
    · rw [hentries]
      refine List.forall_mem_cons.mpr ⟨Nat.lt_succ_self i, fun e he => ?_⟩
      exact (h.below e he).trans (Nat.lt_succ_self i)
    · rw [hentries]
      exact List.forall_mem_cons.mpr ⟨hnew, hvalues⟩
    · rw [hentries, List.map_cons, List.nodup_cons]
      refine ⟨fun hmem => ?_, h.distinct⟩
      obtain ⟨e, he, heq⟩ := List.mem_map.mp hmem
      obtain ⟨ws', hws'⟩ := h.values e he
      rw [heq, hfree] at hws'
      cases hws'

theorem Filled.fillLoop (hN : 4 ≤ geo.noPairs) (hlen : geo.keylen = 1) (stack : Words w) : ∀ {d i : Nat} {s : State w},
    Filled geo s i → i + d ≤ 2 ^ w →
    fillLoop geo stack i d s = .error (.bug .insertVal) ∨ fillLoop geo stack i d s = .error .nullDeref ∨
    ∃ errs s', fillLoop geo stack i d s = .ok (errs, s') ∧ Filled geo s' (i + d) ∧ errs.length = d ∧
      (∀ err ∈ errs, err = 0 ∨ err = -ENOMEM) ∧
      (entries geo s').map Prod.fst = (storedKeys i errs).reverse ++ (entries geo s).map Prod.fst := by
  intro d
  induction d with
  | zero =>
    intro i s h _
    exact .inr (.inr ⟨[], s, rfl, h, rfl, by simp, rfl⟩)
  | succ d ih =>
    intro i s h hi
    unfold CachedBTree.fillLoop
    rcases h.insertElement hN hlen (by omega) stack with hbug | hnull | ⟨err, s₁, hrun, h₁, hkeys⟩
    · exact .inl (by rw [hbug]; rfl)
    · exact .inr (.inl (by rw [hnull]; rfl))
    rw [hrun, ok_bind]
    rcases ih h₁ (by omega) with hbug | hnull | ⟨errs, s', hrest, h', hcount, herrs, hkeys'⟩
    · exact .inl (by simp only [hbug]; rfl)
    · exact .inr (.inl (by simp only [hnull]; rfl))
    refine .inr (.inr ⟨err :: errs, s', by simp only [hrest]; rfl, ?_, by rw [List.length_cons, hcount], ?_, ?_⟩)
    · rwa [Nat.add_right_comm] at h'
    · exact List.forall_mem_cons.mpr ⟨hkeys.elim (fun h => .inr h.1) fun h => .inl h.1, herrs⟩
    · rw [hkeys', storedKeys]
      rcases hkeys with ⟨rfl, hsame⟩ | ⟨rfl, hcons⟩
      · rw [if_neg (by decide), hsame]
      · rw [if_pos rfl, hcons, List.reverse_cons, List.append_assoc, List.singleton_append]

theorem Blank.filled (h : Blank s) (geo : Geo) (i : Nat) : Filled geo s i := by
  have hnone : entries geo s = [] := by simp [entries, h.fresh.2, entriesBelow]
  exact ⟨⟨_, _, h.warm, fun _ _ he => by cases he⟩, by simp [hnone], by simp [hnone], by simp [hnone]⟩

/-- `fill_tree` stores the keys whose insertion returns 0, in descending order and each with a buffer of its own
as its value.  Only a failed `kmalloc` stops it: the one of a value, which `cbtree_insert` does not take, or
one of a queue. -/
theorem fillTree_entries (hN : 4 ≤ geo.noPairs) (hlen : geo.keylen = 1) (h₀ : Blank s₀) {treeSize : Nat}
    (hsize : treeSize < 2 ^ w) (stack : Words w) :
    fillTree geo treeSize stack s₀ = .error (.bug .insertVal) ∨ fillTree geo treeSize stack s₀ = .error .nullDeref ∨
    ∃ errs s, fillTree geo treeSize stack s₀ = .ok (errs, s) ∧ errs.length = treeSize ∧
      (∀ err ∈ errs, err = 0 ∨ err = -ENOMEM) ∧ BTreeInv geo (geo.noPairs / 2) 2 s ∧
      (entries geo s).map Prod.fst = (storedKeys 1 errs).reverse ∧ ((entries geo s).map Prod.snd).Nodup ∧
      ∀ e ∈ entries geo s, ∃ ws, s.heap e.2 = some (.buf ws) := by
  rcases (h₀.filled geo 1).fillLoop hN hlen stack (d := treeSize) (by omega) with
    hbug | hnull | ⟨errs, s, hrun, h, hcount, herrs, hkeys⟩
  · exact .inl hbug
  · exact .inr (.inl hnull)
  have hnone : entries geo s₀ = [] := by simp [entries, h₀.fresh.2, entriesBelow]
  obtain ⟨G, R, hwarm, -⟩ := h.warm
  rw [hnone, List.map_nil, List.append_nil] at hkeys
  exact .inr (.inr ⟨errs, s, hrun, hcount, herrs, hwarm.tree.btreeInv, hkeys, h.distinct, h.values⟩)

/-- Eight keys, with memory for four nodes. -/
theorem fillTree_entries_eight : ∃ errs s,
    fillTree Machine.x86_64.cbtree_geo32 8 (fun _ => 0#64) (arena 4) = .ok (errs, s) ∧
    (entries Machine.x86_64.cbtree_geo32 s).map Prod.fst = (storedKeys 1 errs).reverse := by
  have hok : faulted (fillTree Machine.x86_64.cbtree_geo32 8 (fun _ => 0#64) (arena 4)) = none := by decide +kernel
  have hN : 4 ≤ Machine.x86_64.cbtree_geo32.noPairs := by decide
  rcases fillTree_entries hN rfl (arena_blank 4) (by decide : 8 < 2 ^ 64) (fun _ => 0#64) with
    hbug | hnull | ⟨errs, s, hrun, -, -, -, hkeys, -⟩
  · rw [hbug] at hok
    cases hok
  · rw [hnull] at hok
    cases hok
  · exact ⟨errs, s, hrun, hkeys⟩

/-! ## find_tree -/

/-- From the first answer that is not `NULL` on, this answer. -/
def sticking : Ptr w → List (Ptr w) → List (Ptr w)
  | _, [] => []
  | found, leaf :: leaves =>
    let found := if found = 0#w then leaf else found
    found :: sticking found leaves

/-- Where the descent by the separators ends for the keys that are drawn. -/
def plainLeaves (geo : Geo) (treeSize : Nat) (draws : List (Draw w)) (s : State w) : List (Ptr w) :=
  draws.map fun draw => plainLeaf geo (tempKey (draw.key treeSize) draw.stack) s s.height s.node

theorem plainLeaves_congr {treeSize : Nat} (draws : List (Draw w)) (hw : CacheWrite geo s s') :
    plainLeaves geo treeSize draws s' = plainLeaves geo treeSize draws s := by
  refine List.map_congr_left fun draw _ => ?_
  rw [hw.head, plainLeaf_congr hw rfl]

/-- The rounds that draw the key `k`. -/
def drawsOf (treeSize : Nat) (draws : List (Draw w)) (k : Nat) : Nat :=
  if k < treeSize then draws.countP fun draw => (draw.key treeSize).toNat = k else 0

/-- All rounds return, with these answers; the tree is as before and each round has been counted. -/
structure Finds (geo : Geo) (treeSize : Nat) (draws : List (Draw w)) (counts : Nat → Word w) (s : State w)
    (leaves : List (Ptr w)) (counts' : Nat → Word w) (s' : State w) : Prop where
  run : findTree geo treeSize draws counts s = .ok (leaves, counts', s')
  write : CacheWrite geo s s'
  counts : ∀ k, counts' k = counts k + BitVec.ofNat w (drawsOf treeSize draws k)

theorem Finds.nil {treeSize : Nat} (counts : Nat → Word w) (s : State w) :
    Finds geo treeSize [] counts s [] counts s where
  run := rfl
  write := .refl geo s
  counts k := by simp [drawsOf]

theorem updateSearchCount_apply {treeSize : Nat} (key : Word w) (counts : Nat → Word w) (k : Nat) :
    updateSearchCount treeSize key counts k =
      counts k + BitVec.ofNat w (if k < treeSize ∧ key.toNat = k then 1 else 0) := by
  unfold updateSearchCount
  by_cases hkey : key.toNat = k
  · subst hkey
    by_cases hlt : key.toNat < treeSize
    · simp [hlt]
    · simp [hlt]
  · have hzero : (if k < treeSize ∧ key.toNat = k then 1 else 0) = 0 := if_neg fun h => hkey h.2
    rw [hzero, BitVec.add_zero]
    split
    · exact Function.update_of_ne (Ne.symm hkey) _ _
    · rfl

theorem Finds.cons {treeSize : Nat} {draw : Draw w} {draws : List (Draw w)} {counts counts' : Nat → Word w}
    {s₁ : State w} {leaves : List (Ptr w)}
    (hrun : cbtreeLookup geo (tempKey (draw.key treeSize) draw.stack) s = .ok (leaf, s₁)) (hw : CacheWrite geo s s₁)
    (h : Finds geo treeSize draws (updateSearchCount treeSize (draw.key treeSize) counts) s₁ leaves counts' s') :
    Finds geo treeSize (draw :: draws) counts s (leaf :: leaves) counts' s' where
  run := by
    unfold findTree
    simp only [findElement, hrun, h.run, ok_bind]
  write := hw.trans h.write
  counts k := by
    rw [h.counts, updateSearchCount_apply, BitVec.add_assoc, ← BitVec.ofNat_add, drawsOf, drawsOf, List.countP_cons]
    congr 2
    by_cases hk : k < treeSize
    · simp only [hk, true_and, if_true, decide_eq_true_eq]
      omega
    · simp [hk]

theorem Stuck.findTree (hN : 1 ≤ geo.noPairs) (treeSize : Nat) : ∀ (draws : List (Draw w)) (counts : Nat → Word w)
    {s : State w} {R : Rings w}, Warm geo m r s G R → Stuck geo s R leaf K → 2 ≤ s.height → s.kfail = false →
    ∃ counts' s', Finds geo treeSize draws counts s (List.replicate draws.length leaf) counts' s' := by
  intro draws
  induction draws with
  | nil =>
    intro counts s R _ _ _ _
    exact ⟨counts, s, .nil counts s⟩
  | cons draw draws ih =>
    intro counts s R h hs hh hk
    obtain ⟨s₁, R₁, hrun, h₁, hw, hs₁⟩ := hs.lookup hN h hh hk (tempKey (draw.key treeSize) draw.stack)
    obtain ⟨counts', s', hrest⟩ := ih (updateSearchCount treeSize (draw.key treeSize) counts) h₁ hs₁
      (by rwa [hw.head]) (by rwa [hw.kfail])
    exact ⟨counts', s', .cons hrun hw hrest⟩

theorem sticking_found (hleaf : leaf ≠ 0#w) : ∀ leaves : List (Ptr w),
    sticking leaf leaves = List.replicate leaves.length leaf
  | [] => rfl
  | _ :: leaves => by simp [sticking, hleaf, sticking_found hleaf leaves, List.replicate_succ]

theorem Cold.findTree (hN : 1 ≤ geo.noPairs) (treeSize : Nat) : ∀ (draws : List (Draw w)) (counts : Nat → Word w)
    {s : State w} {R : Rings w}, Warm geo m r s G R → Cold R → 2 ≤ s.height → s.kfail = false →
    ∃ counts' s', Finds geo treeSize draws counts s (sticking 0#w (plainLeaves geo treeSize draws s)) counts' s' := by
  intro draws
  induction draws with
  | nil =>
    intro counts s R _ _ _ _
    exact ⟨counts, s, .nil counts s⟩
  | cons draw draws ih =>
    intro counts s R h hcold hh hk
    obtain ⟨s₁, R₁, hrun, h₁, hw, hnone, hfound⟩ := hcold.lookup h hh hk (tempKey (draw.key treeSize) draw.stack)
    have hh₁ : 2 ≤ s₁.height := by rwa [hw.head]
    have hk₁ : s₁.kfail = false := by rwa [hw.kfail]
    have hleaves : plainLeaves geo treeSize (draw :: draws) s =
        plainLeaf geo (tempKey (draw.key treeSize) draw.stack) s s.height s.node :: plainLeaves geo treeSize draws s₁ :=
      congrArg _ (plainLeaves_congr draws hw).symm
    rw [hleaves, sticking, if_pos rfl]
    by_cases hzero : plainLeaf geo (tempKey (draw.key treeSize) draw.stack) s s.height s.node = 0#w
    · rw [hzero] at hrun ⊢
      obtain ⟨counts', s', hrest⟩ := ih (updateSearchCount treeSize (draw.key treeSize) counts) h₁ (hnone hzero) hh₁ hk₁
      exact ⟨counts', s', .cons hrun hw hrest⟩
    · rw [sticking_found hzero, plainLeaves, List.length_map]
      obtain ⟨counts', s', hrest⟩ := (hfound hzero).findTree hN treeSize draws
        (updateSearchCount treeSize (draw.key treeSize) counts) h₁ hh₁ hk₁
      exact ⟨counts', s', .cons hrun hw hrest⟩

/-- Without inner nodes there is no cache to read. -/
theorem Warm.findTree_flat (treeSize : Nat) : ∀ (draws : List (Draw w)) (counts : Nat → Word w)
    {s : State w} {R : Rings w}, Warm geo m r s G R → s.height < 2 → s.kfail = false →
    ∃ counts' s', Finds geo treeSize draws counts s (plainLeaves geo treeSize draws s) counts' s' := by
  intro draws
  induction draws with
  | nil =>
    intro counts s R _ _ _
    exact ⟨counts, s, .nil counts s⟩
  | cons draw draws ih =>
    intro counts s R h hh hk
    have hready := h.ready (tempKey (draw.key treeSize) draw.stack) hk
    rcases h.search (tempKey (draw.key treeSize) draw.stack) with
      ⟨-, -, hnot⟩ | ⟨-, s₁, R₁, hrun, h₁, hlooked, -⟩
    · rw [hready] at hnot
      cases hnot
    have hflat : answer geo (tempKey (draw.key treeSize) draw.stack) s s.height s.node =
        plainLeaf geo (tempKey (draw.key treeSize) draw.stack) s s.height s.node := by
      have hnone : pathHit geo (tempKey (draw.key treeSize) draw.stack) s s.height s.node = 0#w := by
        match s.height, hh with
        | 0, _ | 1, _ => rfl
      rw [answer, if_neg (not_not_intro hnone)]
    rw [hflat, ← cbtreeLookup_eq] at hrun
    have hw := hlooked.write
    obtain ⟨counts', s', hrest⟩ := ih (updateSearchCount treeSize (draw.key treeSize) counts) h₁
      (by rwa [hw.head]) (by rwa [hw.kfail])
    rw [plainLeaves_congr draws hw] at hrest
    exact ⟨counts', s', .cons hrun hw hrest⟩

/-- The descent by the separators is right about every key but 0. -/
theorem Tree.plainLeaf_right (h : Tree geo m r 1 s G) (key : Words w) :
    (¬Absent geo s key → IsLeafOf geo key s (plainLeaf geo key s s.height s.node)) ∧
      (Absent geo s key → keyNum geo key ≠ 0 → plainLeaf geo key s s.height s.node = 0#w) := by
  constructor
  · intro hstored
    obtain ⟨v, x, hx, hmem⟩ : ∃ v, PairAt G 1 (keyNum geo key, v) := by
      by_contra hnone
      exact hstored (h.absent.mpr fun v hv => hnone ⟨v, hv⟩)
    rw [h.plainLeaf_stored hx hmem]
    exact h.isLeafOf hx hmem
  · intro habsent hkey
    by_contra hne
    exact hkey (h.plainLeaf_root_absent (h.absent.mp habsent) hne)

/-- The answers of `find_tree` after `fill_tree`.  The leaf of each key is where the descent ends; but in a
tree with inner nodes the leaf of the first key that is found is the answer for every key from then on. -/
theorem findTree_answers (hN : 4 ≤ geo.noPairs) (hlen : geo.keylen = 1) (h₀ : Blank s₀) {treeSize : Nat}
    (hsize : treeSize < 2 ^ w) {stack : Words w} {errs : List Int}
    (hfill : fillTree geo treeSize stack s₀ = .ok (errs, s)) (hk : s.kfail = false) (draws : List (Draw w))
    (counts : Nat → Word w) :
    (∀ key, (¬Absent geo s key → IsLeafOf geo key s (plainLeaf geo key s s.height s.node)) ∧
      (Absent geo s key → keyNum geo key ≠ 0 → plainLeaf geo key s s.height s.node = 0#w)) ∧
    ∃ counts' s', findTree geo treeSize draws counts s =
      .ok (if s.height < 2 then plainLeaves geo treeSize draws s
        else sticking 0#w (plainLeaves geo treeSize draws s), counts', s') ∧ SlotsKept geo s s' ∧
      ∀ k, counts' k = counts k + BitVec.ofNat w (drawsOf treeSize draws k) := by
  rcases (h₀.filled geo 1).fillLoop hN hlen stack (d := treeSize) (by omega) with
    hbug | hnull | ⟨errs', s₁, hrun, h, -⟩
  · rw [fillTree, hbug] at hfill
    cases hfill
  · rw [fillTree, hnull] at hfill
    cases hfill
  rw [fillTree, hrun] at hfill
  obtain ⟨-, rfl⟩ := Prod.mk.inj (Except.ok.inj hfill)
  obtain ⟨G, R, hwarm, hcold⟩ := h.warm
  refine ⟨hwarm.tree.plainLeaf_right, ?_⟩
  by_cases hh : s₁.height < 2
  · rw [if_pos hh]
    obtain ⟨counts', s', hfinds⟩ := hwarm.findTree_flat treeSize draws counts hh hk
    exact ⟨counts', s', hfinds.run, hfinds.write.slotsKept, hfinds.counts⟩
  · rw [if_neg hh]
    obtain ⟨counts', s', hfinds⟩ := hcold.findTree (by omega) treeSize draws counts hwarm (by omega) hk
    exact ⟨counts', s', hfinds.run, hfinds.write.slotsKept, hfinds.counts⟩

/-- Keys 1 to 4 are in the lower of two leaves. -/
def filledEight : State 64 :=
  (arena 4).after (fillTree Machine.x86_64.cbtree_geo32 8 (fun _ => 0#64) (arena 4))

def fourDraws : List (Draw 64) := [0#64, 5#64, 1#64, 8#64].map fun bytes => ⟨bytes, fun _ => 0#64⟩

/-- The upper leaf, that of key 5, is returned for key 1 too. -/
theorem findTree_answers_four_draws : plainLeaves Machine.x86_64.cbtree_geo32 8 fourDraws filledEight =
      [0x0#64, 0x2000#64, 0x1000#64, 0x2000#64] ∧
    ∃ counts' s', findTree Machine.x86_64.cbtree_geo32 8 fourDraws (fun _ => 0#64) filledEight =
      .ok ([0x0#64, 0x2000#64, 0x2000#64, 0x2000#64], counts', s') := by
  have hfill : fillTree Machine.x86_64.cbtree_geo32 8 (fun _ => 0#64) (arena 4) =
      .ok (List.replicate 8 0, filledEight) := returned_eq_some.mp (by decide +kernel)
  have hleaves : plainLeaves Machine.x86_64.cbtree_geo32 8 fourDraws filledEight =
      [0x0#64, 0x2000#64, 0x1000#64, 0x2000#64] := by decide +kernel
  have hheight : filledEight.height = 2 := by decide +kernel
  obtain ⟨-, counts', s', hrun, -⟩ := findTree_answers (by decide) rfl (arena_blank 4) (by decide : 8 < 2 ^ 64)
    hfill (by decide +kernel) fourDraws fun _ => 0#64
  rw [hleaves, hheight] at hrun
  exact ⟨hleaves, counts', s', hrun⟩

end CachedBTree
