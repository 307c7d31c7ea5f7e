import CachedBTree.Caching.Growth
import CachedBTree.Caching.Lookup
import CachedBTree.Insertion.Runs
import Mathlib.Order.Interval.Finset.Nat

/-! # Insertions and lookups

In every run of the two calls the caches stay intact: an entry sits in an inner node and
names a leaf, and each reference count is the number of entries that name the node. -/

namespace CachedBTree

open CachedBTree.Support

variable {w : Nat} {geo : Geo} {s s' s₀ : State w} {p x : Ptr w} {R : Rings w} {G : Labels w} {m r : Nat}

/-- Insertions, of any key, and lookups. -/
def InsertsLooksUp : Cmd w → State w → Prop
  | .insert _ _, _ | .lookup _, _ => True
  | .update _ _, _ | .remove _, _ => False

instance decidableInsertsLooksUp : ∀ (c : Cmd w) (s : State w), Decidable (InsertsLooksUp c s)
  | .insert _ _, _ | .lookup _, _ => isTrue trivial
  | .update _ _, _ | .remove _, _ => isFalse id

/-- The tree and its caches. -/
structure Warm (geo : Geo) (m r : Nat) (s : State w) (G : Labels w) (R : Rings w) : Prop where
  tree : Tree geo m r 1 s G
  caches : Caches geo s R
  counted : Counted geo s R
  aimed : Aimed G R

theorem Blank.warm (h : Blank s) : Warm geo m r s Labels.none fun _ => [] where
  tree := h.fresh.tree
  caches :=
    { null := h.nodes 0#w
      node := fun _ hne => absurd rfl hne
      ring := fun p n hn => absurd hn (h.nodes p n)
      apart := fun p q x hp => by
        rcases hp with ⟨n, hn, -⟩ | ⟨e, he, -⟩
        · exact absurd hn (h.nodes p n)
        · simp at he
      keyed := fun _ _ e he => by simp at he
      idle := fun p n hn => absurd hn (h.nodes p n)
      live := fun _ e he => by simp at he }
  counted p n hn := absurd hn (h.nodes p n)
  aimed _ e he := by simp at he

/-! ## One call -/

/-- An insertion of a key that is stored does not return. -/
theorem Tree.absent_of_ok {key : Words w} {val : Ptr w} {err : Int} (h : Tree geo m r 1 s G)
    (hrun : cbtreeInsert geo key val s = .ok (err, s')) :
    val ≠ 0#w ∧ ∀ c, ¬PairAt G 1 (keyNum geo key, c) := by
  have hval : val ≠ 0#w := by
    rintro rfl
    simp [cbtreeInsert] at hrun
  refine ⟨hval, fun c hc => ?_⟩
  rw [cbtreeInsert_dup h hval hc] at hrun
  cases hrun

theorem Aimed.grown {G' : Labels w} {R' : Rings w} (ha : Aimed G R) (hgrew : Grew geo s s' R R')
    (hbelow : Below 1 s s' G G') : Aimed G' R' := by
  intro x e he hne
  obtain ⟨hx, hleaf⟩ := ha x e (hgrew.entry_old he hne).1 hne
  rw [hbelow.lvl x (by omega), hbelow.lvl e.node (by omega)]
  exact ⟨hx, hleaf⟩

theorem Warm.insert {key : Words w} {val : Ptr w} {err : Int} (hN : 4 ≤ geo.noPairs) (hm : 1 ≤ m)
    (hm' : m ≤ geo.noPairs / 2) (hr : 1 ≤ r) (hr' : r ≤ 2) (h : Warm geo m r s G R)
    (hrun : cbtreeInsert geo key val s = .ok (err, s')) :
    ∃ G' R', Warm geo m r s' G' R' ∧ Grew geo s s' R R' ∧
      (Refused geo m r s s' G G' key ∨ ∃ leaf, Inserted geo m r s s' G G' leaf key val ∧
        (1 ≤ s.height → ∃ s₁, findLevel geo (.buf key) 1 s = .ok (leaf, s₁))) := by
  obtain ⟨hval, habsent⟩ := h.tree.absent_of_ok hrun
  obtain ⟨R', hgrew⟩ := cbtreeInsert_grew (by omega) h.caches hrun
  rcases cbtreeInsert_new hN hm hm' hr hr' h.tree hval habsent with
    hnull | ⟨s₁, G', hfail, hrefused⟩ | ⟨s₁, G', leaf, hok, hfind, hins⟩
  · rw [hnull] at hrun
    cases hrun
  · rw [hfail] at hrun
    cases hrun
    exact ⟨G', R', ⟨hrefused.tree, hgrew.caches, hgrew.counted h.caches h.counted,
      h.aimed.grown hgrew hrefused.below⟩, hgrew, .inl hrefused⟩
  · rw [hok] at hrun
    cases hrun
    exact ⟨G', R', ⟨hins.tree, hgrew.caches, hgrew.counted h.caches h.counted,
      h.aimed.grown hgrew hins.below⟩, hgrew, .inr ⟨leaf, hins, hfind⟩⟩

/-- With memory for all the nodes the call succeeds. -/
theorem Inserted.err_eq {key : Words w} {val : Ptr w} {err : Int} {leaf : Ptr w} {G' : Labels w} (hN : 4 ≤ geo.noPairs)
    (hm : 1 ≤ m) (hm' : m ≤ geo.noPairs / 2) (hr : 1 ≤ r) (hr' : r ≤ 2) (h : Tree geo m r 1 s G)
    (hins : Inserted geo m r s s' G G' leaf key val) (hrun : cbtreeInsert geo key val s = .ok (err, s')) :
    err = 0 := by
  obtain ⟨hval, habsent⟩ := h.absent_of_ok hrun
  rcases cbtreeInsert_new hN hm hm' hr hr' h hval habsent with
    hnull | ⟨s₁, G₁, -, hrefused⟩ | ⟨s₁, G₁, leaf₁, hok, -⟩
  · rw [hrun] at hnull
    cases hnull
  · exact absurd hrefused.memory hins.memory
  · rw [hrun] at hok
    cases hok
    rfl

/-- A lookup through the head, with the tree possibly empty. -/
theorem Warm.search (key : Words w) (h : Warm geo m r s G R) :
    (cbtreeLookupNode geo key s.height s.node s = .error .nullDeref ∧ s.kfail = true ∧
      lookupReady geo key s s.height s.node = false) ∨
    (lookupReady geo key s s.height s.node = true ∧
      ∃ s' R', cbtreeLookupNode geo key s.height s.node s =
        .ok (answer geo key s s.height s.node, s') ∧ Warm geo m r s' G R' ∧
      Looked geo G key (answer geo key s s.height s.node) s R s' R' ∧
      (2 ≤ s.height → cacheHit geo key s s.node ≠ 0#w → s' = s ∧ R' = R) ∧
      ∀ x, R' x = if x ∈ missPath geo key s s.height s.node then
        passedRing (answer geo key s s.height s.node) (R x) else R x) := by
  by_cases hh : s.height = 0
  · rw [hh]
    refine .inr ⟨rfl, s, R, ?_, h, Looked.refl h.caches, fun hge => by omega, fun x => by simp [missPath]⟩
    simp [cbtreeLookupNode, answer, pathHit, plainLeaf]
  · obtain ⟨l, hl⟩ : ∃ l, s.height = l + 1 := ⟨s.height - 1, by omega⟩
    have hroot : (G s.node).lvl = l + 1 := by rw [h.tree.root_lvl (by omega), hl]
    rw [hl]
    rcases h.tree.lookup key h.caches hroot with hnull | ⟨hready, s', R', hrun, hlooked, hsame, hrings⟩
    · exact .inl hnull
    · refine .inr ⟨hready, s', R', hrun, ⟨hlooked.write.tree h.tree, hlooked.caches,
        hlooked.counted h.counted, hlooked.aimed h.aimed fun hne => ?_⟩, hlooked,
        fun hge => hsame (by omega), hrings⟩
      exact answer_leaf key h.tree h.caches h.aimed hroot hne

/-- A tree without failed `kmalloc`s is ready for every search. -/
theorem Warm.ready (key : Words w) (h : Warm geo m r s G R) (hk : s.kfail = false) :
    lookupReady geo key s s.height s.node = true := by
  rcases h.search key with ⟨-, hfail, -⟩ | ⟨hready, -⟩
  · rw [hk] at hfail
    cases hfail
  · exact hready

theorem cbtreeLookup_eq (geo : Geo) (key : Words w) (s : State w) :
    cbtreeLookup geo key s = cbtreeLookupNode geo key s.height s.node s := by
  unfold cbtreeLookup
  cases cbtreeLookupNode geo key s.height s.node s with
  | error e => rfl
  | ok ret =>
    obtain ⟨node, s'⟩ := ret
    simp only [ok_bind]
    split
    next hzero => rw [hzero]
    next => rfl

theorem Warm.lookup {key : Words w} {ret : Ptr w} (h : Warm geo m r s G R)
    (hrun : cbtreeLookup geo key s = .ok (ret, s')) :
    ret = answer geo key s s.height s.node ∧ ∃ R', Warm geo m r s' G R' ∧
      Looked geo G key (answer geo key s s.height s.node) s R s' R' ∧
      (2 ≤ s.height → cacheHit geo key s s.node ≠ 0#w → s' = s ∧ R' = R) := by
  rw [cbtreeLookup_eq] at hrun
  rcases h.search key with ⟨hnull, -⟩ | ⟨-, s₁, R', hok, hwarm, hlooked, hsame, -⟩
  · rw [hnull] at hrun
    cases hrun
  · rw [hok] at hrun
    cases hrun
    exact ⟨rfl, R', hwarm, hlooked, hsame⟩

/-! ## All runs -/

theorem warm_of_calls (hN : 4 ≤ geo.noPairs) (h₀ : Blank s₀) (h : Run geo InsertsLooksUp s₀ s) :
    ∃ G R, Warm geo (geo.noPairs / 2) 2 s G R := by
  refine h.keeps (I := fun s => ∃ G R, Warm geo (geo.noPairs / 2) 2 s G R) (fun c s s' hc hrun hs => ?_)
    ⟨_, _, h₀.warm⟩
  obtain ⟨G, R, hwarm⟩ := hs
  cases c with
  | insert key val =>
    obtain ⟨err, hrun⟩ := map_eq_ok.mp hrun
    obtain ⟨G', R', hwarm', -⟩ := hwarm.insert hN (by omega) le_rfl (by omega) le_rfl hrun
    exact ⟨G', R', hwarm'⟩
  | lookup key =>
    obtain ⟨ret, hrun⟩ := map_eq_ok.mp hrun
    obtain ⟨-, R', hwarm', -⟩ := hwarm.lookup hrun
    exact ⟨G, R', hwarm'⟩
  | update | remove => exact hc.elim

/-! ## The reference counts -/

/-- The entries that point to `x` in the queues of the nodes of the tree. -/
def pointers (geo : Geo) (s : State w) (x : Ptr w) : Nat :=
  (((nodes geo s).map Prod.snd).map fun p => (s.cache geo p).countP fun e => decide (e.node = x)).sum

/-- Whenever the search gets to `setcache`, the node named by the entry that is written over has a
reference left to give up. -/
def NeverBelowZero (geo : Geo) (key : Words w) : Nat → Ptr w → State w → Prop
  | height + 2, p, s => ∀ s₁ words, findNode p geo.arrLen key geo.arrLen s = .ok (0#w, s₁) →
      s₁.load p = .ok words → getpos geo words key ≠ geo.noPairs →
      bval geo words (getpos geo words key) ≠ 0#w →
      NeverBelowZero geo key (height + 1) (bval geo words (getpos geo words key)) s₁ ∧
      ∀ leaf s₂, cbtreeLookupNode geo key (height + 1) (bval geo words (getpos geo words key)) s₁ =
        .ok (leaf, s₂) → leaf ≠ 0#w →
      ∀ e ∈ (s₂.cache geo p).head?, e.node ≠ 0#w → s₂.refWord geo e.node ≠ 0#w
  | _, _, _ => True

/-- There are more words than entries. -/
theorem Caches.refCount_lt (h : Caches geo s R) (x : Ptr w) : refCount R x < 2 ^ w := by
  have hle : refCount R x ≤ (Finset.Ico 1 (2 ^ w)).card := by
    refine tally_le_card (f := fun e : Entry w => e.addr.toNat) _ (fun p e he => ?_) (fun p => ?_)
      fun p q hpq a ha b hb heq => ?_
    · obtain ⟨n, -, hring, -⟩ := h.owns (p := p) (.inr ⟨e, he, .inl rfl⟩)
      have hne : e.addr.toNat ≠ 0 := fun hzero =>
        hring.addr_ne e he (BitVec.eq_of_toNat_eq (by simpa using hzero))
      exact Finset.mem_Ico.mpr ⟨by omega, e.addr.isLt⟩
    · by_cases hnil : R p = []
      · simp [hnil]
      · obtain ⟨e, he⟩ := List.exists_mem_of_ne_nil _ hnil
        obtain ⟨n, -, hring, -⟩ := h.owns (p := p) (.inr ⟨e, he, .inl rfl⟩)
        have := hring.addrs.map (f := BitVec.toNat) fun a b => BitVec.eq_of_toNat_eq
        rwa [List.map_map] at this
    · exact hpq (h.apart p q a.addr (.inr ⟨a, ha, .inl rfl⟩)
        (.inr ⟨b, hb, .inl (BitVec.eq_of_toNat_eq heq)⟩))
  rw [Nat.card_Ico] at hle
  have := Nat.two_pow_pos w
  omega

theorem Counted.refWord_toNat {n : Words w} (h : Counted geo s R) (hC : Caches geo s R)
    (hx : s.heap x = some (.node n)) : (s.refWord geo x).toNat = refCount R x := by
  rw [State.refWord_node hx, h x n hx, BitVec.toNat_ofNat, Nat.mod_eq_of_lt (hC.refCount_lt x)]

/-- A node named by an entry has a reference. -/
theorem Counted.refWord_ne {e : Entry w} (h : Counted geo s R) (hC : Caches geo s R) (he : e ∈ R p)
    (hne : e.node ≠ 0#w) : s.refWord geo e.node ≠ 0#w := by
  obtain ⟨n, hn⟩ := hC.live p e he hne
  have hpos : 0 < refCount R e.node := tally_pos he (by simp)
  intro hzero
  have hword := h.refWord_toNat hC hn
  rw [hzero] at hword
  simp only [BitVec.toNat_ofNat, Nat.zero_mod] at hword
  omega

theorem Warm.refCount_eq (h : Warm geo m r s G R) (hx : x ≠ 0#w) : refCount R x = pointers geo s x := by
  have hnodup : ((nodes geo s).map Prod.snd).Nodup := h.tree.btreeInv.once
  have hcache : ∀ p, s.cache geo p = R p := h.caches.cache
  unfold refCount pointers
  simp only [hcache]
  refine tally_eq_sum hnodup fun p hp => List.countP_eq_zero.mpr fun e he heq => hp ?_
  have hnode : e.node = x := by simpa using heq
  have hlvl := (h.aimed p e he (hnode ▸ hx)).1
  exact List.mem_map.mpr ⟨_, h.tree.mem_nodes_of_lvl (by omega) rfl, rfl⟩

theorem NeverBelowZero.of_counted (key : Words w) : ∀ {l : Nat} {p : Ptr w} {s : State w} {R : Rings w},
    Tree geo m r 1 s G → Caches geo s R → Counted geo s R → (G p).lvl = l + 1 →
      NeverBelowZero geo key (l + 1) p s := by
  intro l
  induction l with
  | zero =>
    intro _ _ _ _ _ _ _
    exact trivial
  | succ l ih =>
    intro p s R h hC hcount hp
    obtain ⟨n, hn, -⟩ := h.stored p (by omega)
    intro s₁ words hfind hload hend hval
    rcases findNode_cases key hC hn with ⟨hnull, -⟩ | ⟨hhit, hfound⟩ | ⟨-, -, s₁', hnone, hturn⟩
    · rw [hnull] at hfind
      cases hfind
    · rw [hfound] at hfind
      exact absurd (congrArg Prod.fst (Except.ok.inj hfind)) hhit
    · obtain rfl : s₁' = s₁ := congrArg Prod.snd (Except.ok.inj (hnone.symm.trans hfind))
      have hlooked : Looked geo G key 0#w s R s₁' _ := Looked.of_turned hC hturn
      have htree := hturn.write.tree h
      have hcount₁ := hlooked.counted hcount
      have hdown : stepDown geo key s₁' p = bval geo words (getpos geo words key) := by
        simp only [stepDown, (State.load_eq_ok.mp hload).2, if_neg hend]
      have hclvl := htree.stepDown_child key hp (hdown ▸ hval)
      rw [hdown] at hclvl
      refine ⟨ih htree hturn.caches hcount₁ hclvl, fun leaf s₂ hrun _ e he hne => ?_⟩
      rcases htree.lookup key hturn.caches hclvl with ⟨hnull, -⟩ | ⟨-, s₂', R₂, hok, hlooked₂, -⟩
      · rw [hnull] at hrun
        cases hrun
      · obtain rfl : s₂' = s₂ := congrArg Prod.snd (Except.ok.inj (hok.symm.trans hrun))
        rw [hlooked₂.caches.cache] at he
        exact (hlooked₂.counted hcount₁).refWord_ne hlooked₂.caches (List.mem_of_mem_head? he) hne

/-- After every run of insertions and lookups the reference counts are exact and the entries point to
leaves of the tree, and the next lookup never takes a reference from a node that has none. -/
theorem references_exact (hN : 4 ≤ geo.noPairs) (h₀ : Blank s₀) (h : Run geo InsertsLooksUp s₀ s) :
    (∀ l p, (l, p) ∈ nodes geo s → (s.refWord geo p).toNat = pointers geo s p) ∧
    (∀ l p, (l, p) ∈ nodes geo s → ∀ e ∈ s.cache geo p, e.node ≠ 0#w → (1, e.node) ∈ nodes geo s) ∧
    ∀ key, NeverBelowZero geo key s.height s.node s := by
  obtain ⟨G, R, hwarm⟩ := warm_of_calls hN h₀ h
  refine ⟨fun l p hp => ?_, fun l p _ e he hne => ?_, fun key => ?_⟩
  · obtain ⟨hl, hlvl⟩ := hwarm.tree.mem_nodes.mp hp
    obtain ⟨n, hn, -⟩ := hwarm.tree.stored p (by omega)
    rw [hwarm.counted.refWord_toNat hwarm.caches hn, hwarm.refCount_eq (hwarm.tree.ne_null (by omega))]
  · rw [hwarm.caches.cache] at he
    exact hwarm.tree.mem_nodes.mpr ⟨le_rfl, (hwarm.aimed p e he hne).2⟩
  · by_cases hh : s.height = 0
    · rw [hh]
      trivial
    · obtain ⟨l, hl⟩ : ∃ l, s.height = l + 1 := ⟨s.height - 1, by omega⟩
      rw [hl]
      exact .of_counted key hwarm.tree hwarm.caches hwarm.counted (by rw [hwarm.tree.root_lvl (by omega), hl])

/-- The lookup of a key in the lower of two leaves. -/
def afterLookup : State 64 := Cmd.execAll Machine.x86_64.cbtree_geo64 InsertsLooksUp
  (eightInserts ++ [.lookup (wordKey 3)]) (arena 4)

theorem afterLookup_run : Run Machine.x86_64.cbtree_geo64 InsertsLooksUp (arena 4) afterLookup :=
  Cmd.run_execAll _ _ _ (arena 4)

theorem references_exact_after_lookup :
    (afterLookup.refWord Machine.x86_64.cbtree_geo64 0x1000#64).toNat =
      pointers Machine.x86_64.cbtree_geo64 afterLookup 0x1000#64 ∧
    afterLookup.refWord Machine.x86_64.cbtree_geo64 0x1000#64 = 1#64 :=
  ⟨(references_exact (by decide) (arena_blank 4) afterLookup_run).1 1 0x1000#64 (by decide +kernel),
    by decide +kernel⟩

end CachedBTree
