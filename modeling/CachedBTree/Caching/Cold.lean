import CachedBTree.Caching.Plain
import CachedBTree.Caching.Runs

/-! # The first lookup

After insertions alone no cache entry holds anything, so no cache answers and the search is
the descent by the separators.  When it ends at a leaf, every inner node on the way gets
this leaf as its only entry. -/

namespace CachedBTree

open CachedBTree.Support

variable {w : Nat} {geo : Geo} {s s' s₀ : State w} {p q x leaf : Ptr w} {R : Rings w} {G : Labels w} {m r : Nat}
  {key : Words w}

/-- No entry holds anything. -/
def Cold (R : Rings w) : Prop := ∀ p, ∀ e ∈ R p, e.node = 0#w

/-! ## The search -/

theorem Cold.cacheHit (key : Words w) (hcold : Cold R) (hC : Caches geo s R) (p : Ptr w) :
    cacheHit geo key s p = 0#w := by
  by_contra hhit
  obtain ⟨e, he, heq⟩ := firstAnswer_mem hhit
  rw [hC.cache] at he
  exact hhit (heq.symm.trans (hcold p e he))

theorem pathHit_cold (hcold : ∀ p, cacheHit geo key s p = 0#w) : ∀ {d : Nat} {p : Ptr w},
    pathHit geo key s d p = 0#w
  | 0, _ | 1, _ => rfl
  | d + 2, p => by
    rw [pathHit, if_neg (by simp [hcold])]
    split
    next => rfl
    next => exact pathHit_cold hcold

theorem answer_cold (hcold : ∀ p, cacheHit geo key s p = 0#w) (d : Nat) (p : Ptr w) :
    answer geo key s d p = plainLeaf geo key s d p := by
  simp [answer, pathHit_cold hcold]

theorem missPath_succ (hcold : ∀ p, cacheHit geo key s p = 0#w) (d : Nat) (p : Ptr w) :
    missPath geo key s (d + 2) p =
      p :: if stepDown geo key s p = 0#w then [] else missPath geo key s (d + 1) (stepDown geo key s p) := by
  rw [missPath, if_neg (by simp [hcold])]

theorem missPath_nodup (key : Words w) (h : Tree geo m r 1 s G) (hcold : ∀ p, cacheHit geo key s p = 0#w) :
    ∀ {d : Nat} {p : Ptr w}, (G p).lvl = d + 1 → (missPath geo key s (d + 1) p).Nodup := by
  intro d
  induction d with
  | zero =>
    intro _ _
    exact List.nodup_nil
  | succ d ih =>
    intro p hp
    rw [missPath_succ hcold]
    by_cases hdown : stepDown geo key s p = 0#w
    · rw [if_pos hdown]
      exact List.nodup_singleton p
    · rw [if_neg hdown]
      have hc := h.stepDown_child key hp hdown
      refine List.nodup_cons.mpr ⟨fun hmem => ?_, ih hc⟩
      have := (missPath_lvl key h hc hmem).2
      omega

/-- The search passes the inner nodes above the leaf that the key belongs to. -/
theorem Tree.missPath_to (h : Tree geo m r 1 s G) (hcold : ∀ p, CachedBTree.cacheHit geo key s p = 0#w)
    (hlo : (G x).lo ≤ keyNum geo key) (hhi : keyNum geo key < (G x).hi) :
    ∀ {d : Nat} {p : Ptr w}, (G p).lvl = d + 1 → (1, x) ∈ nodesBelow geo s (d + 1) p →
    (missPath geo key s (d + 1) p).length = d ∧ ∀ q, q ∈ missPath geo key s (d + 1) p ↔
      ∃ l, 2 ≤ l ∧ (l, q) ∈ nodesBelow geo s (d + 1) p ∧ (1, x) ∈ nodesBelow geo s l q := by
  intro d
  induction d with
  | zero =>
    intro p hp _
    refine ⟨rfl, fun q => iff_of_false (by simp [missPath]) ?_⟩
    rintro ⟨l, hl, hq, -⟩
    have := (h.nodesBelow_label hp hq).2.2.1
    omega
  | succ d ih =>
    intro p hp hx
    have hx' := hx
    rw [nodesBelow, List.mem_cons] at hx'
    rcases hx' with heq | hx'
    · simp at heq
    obtain ⟨⟨k, c⟩, hmem, (hbelow : (1, x) ∈ nodesBelow geo s (d + 1) c)⟩ := List.mem_flatMap.mp hx'
    have hslot := hmem
    rw [h.page_eq (by omega)] at hslot
    obtain ⟨l₁, l₂, hpage⟩ := List.append_of_mem hslot
    have hclvl : (G c).lvl = d + 1 := by have := (h.child (by omega) (by omega) hpage).1; omega
    obtain ⟨-, -, -, hclo, hchi⟩ := h.nodesBelow_label hclvl hbelow
    have hdown : stepDown geo key s p = c :=
      h.stepDown_to (by omega) hpage (hclo.trans hlo) (hhi.trans_le hchi)
    obtain ⟨hlen, hpath⟩ := ih hclvl hbelow
    rw [missPath_succ hcold, hdown, if_neg (h.ne_null (by omega))]
    refine ⟨by rw [List.length_cons, hlen], fun q => ?_⟩
    rw [List.mem_cons, hpath]
    constructor
    · rintro (rfl | ⟨l, hl, hq, hxq⟩)
      · exact ⟨d + 2, by omega, by simp [nodesBelow], hx⟩
      · refine ⟨l, hl, ?_, hxq⟩
        rw [nodesBelow]
        exact List.mem_cons_of_mem _ (List.mem_flatMap.mpr ⟨(k, c), hmem, hq⟩)
    · rintro ⟨l, hl, hq, hxq⟩
      rw [nodesBelow, List.mem_cons] at hq
      cases hq with
      | inl heq =>
        simp only [Prod.mk.injEq] at heq
        exact .inl heq.2
      | inr hq =>
        obtain ⟨⟨k', c'⟩, hmem', (hq : (l, q) ∈ nodesBelow geo s (d + 1) c')⟩ := List.mem_flatMap.mp hq
        rw [h.page_eq (by omega)] at hmem'
        have hclvl' : (G c').lvl = d + 1 := by
          have := (h.child_of_mem (by omega) (by omega) hmem').1
          omega
        obtain ⟨-, hql, -, hqlo, hqhi⟩ := h.nodesBelow_label hclvl' hq
        obtain ⟨-, -, -, hxlo, hxhi⟩ := h.nodesBelow_label hql hxq
        -- the key is in the intervals of both children
        obtain rfl : c' = c := h.node_unique (by omega) (by omega) (by omega) (hclo.trans hlo)
          (hhi.trans_le hchi) ((hqlo.trans hxlo).trans hlo) ((hhi.trans_le hxhi).trans_le hqhi)
        exact .inr ⟨l, hl, hq, hxq⟩

/-- The nodes passed have their queues. -/
theorem queue_of_ready : ∀ {d : Nat} {p : Ptr w}, lookupReady geo key s (d + 1) p = true →
    q ∈ missPath geo key s (d + 1) p → s.cache geo q ≠ [] := by
  intro d
  induction d with
  | zero =>
    intro _ _ hq
    simp [missPath] at hq
  | succ d ih =>
    intro p hready hq
    rw [lookupReady, Bool.and_eq_true, Bool.or_eq_true, Bool.or_eq_true, Bool.and_eq_true] at hready
    obtain ⟨hqueue, hrest⟩ := hready
    rw [missPath] at hq
    split at hq
    next => cases hq
    next hmiss =>
      rcases List.mem_cons.mp hq with rfl | hq
      · simpa using hqueue
      · split at hq
        next => cases hq
        next hdown =>
          rcases hrest with (hhit | hzero) | ⟨hready, -⟩
          · exact absurd (of_decide_eq_true hhit) hmiss
          · exact absurd (of_decide_eq_true hzero) hdown
          · exact ih hready hq

/-- A search that returns `NULL` turns queues and does nothing else. -/
theorem Tree.lookup_null (key : Words w) : ∀ {l : Nat} {p : Ptr w} {s s' : State w} {R : Rings w},
    Tree geo m r 1 s G → Caches geo s R → (G p).lvl = l + 1 →
    cbtreeLookupNode geo key (l + 1) p s = .ok (0#w, s') →
    ∀ x, (∀ q, s.heap x ≠ some (.queue q)) → s'.heap x = s.heap x := by
  intro l
  induction l with
  | zero =>
    intro p s s' R h hC hp hrun
    obtain ⟨n, -, hload, -⟩ := h.load (p := p) (by omega)
    simp only [cbtreeLookupNode, hload, ok_bind] at hrun
    split at hrun
    next => exact absurd (congrArg Prod.fst (Except.ok.inj hrun)) (h.ne_null (p := p) (by omega))
    next =>
      obtain rfl := congrArg Prod.snd (Except.ok.inj hrun)
      exact fun _ _ => rfl
  | succ l ih =>
    intro p s s' R h hC hp hrun
    obtain ⟨n, hn, -⟩ := h.stored p (by omega)
    rw [cbtreeLookupNode] at hrun
    obtain ⟨⟨found, s₁⟩, hfind, hrun⟩ := bind_eq_ok.mp hrun
    rcases findNode_cases key hC hn with ⟨hnull, -⟩ | ⟨hhit, hfound⟩ | ⟨-, -, s₁', hnone, hturn⟩
    · rw [hnull] at hfind
      cases hfind
    · obtain ⟨rfl, rfl⟩ := Prod.mk.inj (Except.ok.inj (hfound.symm.trans hfind))
      simp only [if_pos hhit] at hrun
      exact absurd (congrArg Prod.fst (Except.ok.inj hrun)) hhit
    obtain ⟨rfl, rfl⟩ := Prod.mk.inj (Except.ok.inj (hnone.symm.trans hfind))
    simp only [ne_eq, not_true_eq_false, if_false] at hrun
    obtain ⟨words, hload, hrun⟩ := bind_eq_ok.mp hrun
    have hdown : stepDown geo key s₁' p = if getpos geo words key = geo.noPairs then 0#w
        else bval geo words (getpos geo words key) := by
      simp only [stepDown, (State.load_eq_ok.mp hload).2]
    rcases ite_eq_ok.mp hrun with ⟨-, hrun⟩ | ⟨hend, hrun⟩
    · obtain rfl := congrArg Prod.snd (Except.ok.inj hrun)
      exact hturn.same
    rcases ite_eq_ok.mp hrun with ⟨-, hrun⟩ | ⟨hval, hrun⟩
    · obtain rfl := congrArg Prod.snd (Except.ok.inj hrun)
      exact hturn.same
    obtain ⟨⟨leaf, s₂⟩, hrec, hrun⟩ := bind_eq_ok.mp hrun
    rcases ite_eq_ok.mp hrun with ⟨hleaf, hrun⟩ | ⟨-, hrun⟩
    · obtain ⟨s₃, -, hrun⟩ := bind_eq_ok.mp hrun
      exact absurd (congrArg Prod.fst (Except.ok.inj hrun)) hleaf
    · obtain ⟨rfl, rfl⟩ := Prod.mk.inj (Except.ok.inj hrun)
      have htree := hturn.write.tree h
      rw [if_neg hend] at hdown
      have hclvl := htree.stepDown_child key hp (by rw [hdown]; exact hval)
      rw [hdown] at hclvl
      intro x hx
      have hsame := hturn.same x hx
      have hrest := ih htree hturn.caches hclvl hrec x (by rwa [hsame])
      exact hrest.trans hsame

/-- The entry that a search writes into a queue that held nothing. -/
theorem passedRing_cold {es : List (Entry w)} (hcold : ∀ e ∈ es, e.node = 0#w) (hne : es ≠ [])
    (hleaf : leaf ≠ 0#w) : ∃ l e, passedRing leaf es = l ++ [e] ∧ e.node = leaf ∧ ∀ a ∈ l, a.node = 0#w := by
  rw [passedRing, if_neg hleaf]
  cases hes : es.rotate 1 with
  | nil => exact absurd (List.rotate_eq_nil_iff.mp hes) hne
  | cons e l =>
    refine ⟨l, ⟨e.addr, leaf, e.key⟩, rfl, rfl, fun a ha => hcold a ?_⟩
    exact List.mem_rotate.mp (hes ▸ List.mem_cons_of_mem e ha)

/-! ## What the first lookup leaves -/

/-- The entries of the cache of `p` that hold something. -/
def State.cached (geo : Geo) (s : State w) (p : Ptr w) : List (Entry w) :=
  (s.cache geo p).filter fun e => decide (e.node ≠ 0#w)

/-- The inner nodes above `leaf` have it with the key as their only entry, the others have none, and the
leaf counts these entries. -/
structure NamedAbove (geo : Geo) (key : Words w) (leaf : Ptr w) (s s' : State w) : Prop where
  above : ∀ l p, (l, p) ∈ nodes geo s → 2 ≤ l → (1, leaf) ∈ nodesBelow geo s l p →
    ∃ e, s'.cached geo p = [e] ∧ e.node = leaf ∧ ∀ j, j < geo.keylen → s'.keyBuf e.key j = key j
  others : ∀ l p, (l, p) ∈ nodes geo s → (l < 2 ∨ (1, leaf) ∉ nodesBelow geo s l p) → s'.cached geo p = []
  refs : (s'.refWord geo leaf).toNat = s.height - 1

/-- The head and the slots of the nodes are as they were. -/
def SlotsKept (geo : Geo) (s s' : State w) : Prop :=
  s'.toHead = s.toHead ∧ ∀ p n, s.heap p = some (.node n) →
    ∃ n', s'.heap p = some (.node n') ∧ ∀ j, j < geo.arrLen → n' j = n j

/-- The leaf that holds the key; there is no other. -/
def IsLeafOf (geo : Geo) (key : Words w) (s : State w) (leaf : Ptr w) : Prop :=
  (1, leaf) ∈ nodes geo s ∧ (∃ v, (keyNum geo key, v) ∈ s.page geo leaf) ∧
    ∀ y v, (1, y) ∈ nodes geo s → (keyNum geo key, v) ∈ s.page geo y → y = leaf

/-- A lookup as it should go when no cache has an answer.  For a key that is not stored only the heads
of queues are written. -/
def LooksUpCold (geo : Geo) (key : Words w) (s : State w) : Prop :=
  ∃ found s', cbtreeLookupNode geo key s.height s.node s = .ok (found, s') ∧ SlotsKept geo s s' ∧
    (Absent geo s key → found = 0#w ∧ ∀ x, (∀ q, s.heap x ≠ some (.queue q)) → s'.heap x = s.heap x) ∧
    (¬Absent geo s key → IsLeafOf geo key s found ∧ NamedAbove geo key found s s')

theorem CacheWrite.slotsKept (h : CacheWrite geo s s') : SlotsKept geo s s' := by
  refine ⟨h.head, fun p n hp => ?_⟩
  obtain ⟨n', hn', hsame⟩ := h.node p n hp
  exact ⟨n', hn', fun j hj => hsame j (by omega)⟩

theorem Tree.isLeafOf {v : Ptr w} (h : Tree geo m r 1 s G) (hx : (G x).lvl = 1)
    (hmem : (keyNum geo key, v) ∈ (G x).page) : IsLeafOf geo key s x := by
  refine ⟨h.mem_nodes.mpr ⟨le_rfl, hx⟩, ⟨v, by rwa [h.page_eq (by omega)]⟩, fun y v' hy hv' => ?_⟩
  have hylvl := (h.mem_nodes.mp hy).2
  rw [h.page_eq (by omega)] at hv'
  exact h.key_unique (by omega) (by omega) hmem hv' rfl

/-- The entries and the count, once the search has ended at the leaf of a stored key. -/
theorem Warm.named_above {R' : Rings w} (h : Warm geo m r s G R) (hcold : Cold R) (h' : Warm geo m r s' G R')
    (hlooked : Looked geo G key x s R s' R') (hready : lookupReady geo key s s.height s.node = true)
    (hx : (G x).lvl = 1) (hlo : (G x).lo ≤ keyNum geo key) (hhi : keyNum geo key < (G x).hi)
    (hrings : ∀ p, R' p = if p ∈ missPath geo key s s.height s.node then passedRing x (R p) else R p) :
    NamedAbove geo key x s s' := by
  have hcaches := hcold.cacheHit key h.caches
  have hxne := h.tree.ne_null (p := x) (by omega)
  have hh : 1 ≤ s.height := by have := h.tree.lvl_le x; omega
  obtain ⟨d, hd⟩ : ∃ d, s.height = d + 1 := ⟨s.height - 1, by omega⟩
  have hroot : (G s.node).lvl = d + 1 := by rw [h.tree.root_lvl hh, hd]
  have hnode : (1, x) ∈ nodes geo s := h.tree.mem_nodes.mpr ⟨le_rfl, hx⟩
  rw [nodes, hd] at hnode
  rw [hd] at hrings hready
  obtain ⟨hlen, hpath⟩ := h.tree.missPath_to hcaches hlo hhi hroot hnode
  have hnodup := missPath_nodup key h.tree hcaches hroot
  -- the queues of the nodes passed and of the others
  have hpassed : ∀ p ∈ missPath geo key s (d + 1) s.node,
      ∃ l e, R' p = l ++ [e] ∧ e.node = x ∧ ∀ a ∈ l, a.node = 0#w := by
    intro p hp
    rw [hrings p, if_pos hp]
    refine passedRing_cold (hcold p) ?_ hxne
    rw [← h.caches.cache]
    exact queue_of_ready hready hp
  have hother : ∀ p, p ∉ missPath geo key s (d + 1) s.node → ∀ e ∈ R' p, e.node = 0#w := by
    intro p hp e he
    rw [hrings p, if_neg hp] at he
    exact hcold p e he
  refine ⟨fun l p hp hl hbelow => ?_, fun l p hp hout => ?_, ?_⟩
  · rw [nodes, hd] at hp
    obtain ⟨es, e, hring, he, hes⟩ := hpassed p ((hpath p).mpr ⟨l, hl, hp, hbelow⟩)
    refine ⟨e, ?_, he, ?_⟩
    · have hnone : es.filter (fun e => decide (e.node ≠ 0#w)) = [] :=
        List.filter_eq_nil_iff.mpr fun a ha => by simp [hes a ha]
      rw [State.cached, h'.caches.cache, hring, List.filter_append, hnone, List.nil_append]
      exact List.filter_cons_of_pos (by simp [he, hxne])
    · rcases hlooked.entries p e (by rw [hring]; simp) (by rw [he]; exact hxne) with ⟨e₀, he₀, hsame, -⟩ | ⟨-, -, hkey⟩
      · rw [hcold p e₀ he₀, he] at hsame
        exact absurd hsame.symm hxne
      · exact hkey
  · rw [nodes, hd] at hp
    have hout : p ∉ missPath geo key s (d + 1) s.node := by
      intro hmem
      obtain ⟨l', hl', hp', hbelow⟩ := (hpath p).mp hmem
      have hlvl := (h.tree.nodesBelow_label hroot hp).2.1
      have hlvl' := (h.tree.nodesBelow_label hroot hp').2.1
      obtain rfl : l' = l := by omega
      cases hout with
      | inl hlt =>
        omega
      | inr hnot =>
        exact hnot hbelow
    rw [State.cached, h'.caches.cache]
    exact List.filter_eq_nil_iff.mpr fun a ha => by simp [hother p hout a ha]
  · obtain ⟨n, hn, -⟩ := h'.tree.stored x (by omega)
    rw [h'.counted.refWord_toNat h'.caches hn, refCount, tally_eq_sum hnodup]
    · have hone : ∀ c ∈ (missPath geo key s (d + 1) s.node).map fun p =>
          (R' p).countP fun e => decide (e.node = x), c = 1 := by
        intro c hc
        obtain ⟨p, hp, rfl⟩ := List.mem_map.mp hc
        obtain ⟨es, e, hring, he, hes⟩ := hpassed p hp
        have hnone : es.countP (fun e => decide (e.node = x)) = 0 :=
          List.countP_eq_zero.mpr fun a ha => by simp [hes a ha, hxne.symm]
        rw [hring, List.countP_append, hnone, List.countP_singleton, if_pos (by simp [he])]
      rw [List.sum_eq_card_nsmul _ 1 hone, List.length_map, hlen, hd]
      simp
    · intro p hp
      refine List.countP_eq_zero.mpr fun a ha => ?_
      simp [hother p hp a ha, hxne.symm]

/-- Insertions, of any keys. -/
def Inserts : Cmd w → State w → Prop
  | .insert _ _, _ => True
  | .update _ _, _ | .lookup _, _ | .remove _, _ => False

instance decidableInserts : ∀ (c : Cmd w) (s : State w), Decidable (Inserts c s)
  | .insert _ _, _ => isTrue trivial
  | .update _ _, _ | .lookup _, _ | .remove _, _ => isFalse id

theorem warm_of_inserts (hN : 4 ≤ geo.noPairs) (h₀ : Blank s₀) (h : Run geo Inserts s₀ s) :
    ∃ G R, Warm geo (geo.noPairs / 2) 2 s G R ∧ Cold R := by
  refine h.keeps (I := fun s => ∃ G R, Warm geo (geo.noPairs / 2) 2 s G R ∧ Cold R) (fun c s s' hc hrun hs => ?_)
    ⟨_, _, h₀.warm, fun _ _ he => by cases he⟩
  obtain ⟨G, R, hwarm, hcold⟩ := hs
  cases c with
  | insert key val =>
    obtain ⟨err, hrun⟩ := map_eq_ok.mp hrun
    obtain ⟨G', R', hwarm', hgrew, -⟩ := hwarm.insert hN (by omega) le_rfl (by omega) le_rfl hrun
    refine ⟨G', R', hwarm', fun p e he => ?_⟩
    by_contra hne
    exact hne (hcold p e (hgrew.entry_old he hne).1)
  | lookup | update | remove => exact hc.elim

/-- After insertions alone a lookup of a key other than 0 finds its leaf and names it in the nodes above,
exactly when no `kmalloc` for a queue that it needs has failed. -/
theorem cbtreeLookupNode_cold_iff (hN : 4 ≤ geo.noPairs) (h₀ : Blank s₀) (h : Run geo Inserts s₀ s)
    (hkey : keyNum geo key ≠ 0) :
    LooksUpCold geo key s ↔ lookupReady geo key s s.height s.node = true := by
  obtain ⟨G, R, hwarm, hcold⟩ := warm_of_inserts hN h₀ h
  rcases hwarm.search key with ⟨hnull, -, hready⟩ | ⟨hready, s', R', hrun, hwarm', hlooked, -, hrings⟩
  · rw [hready]
    refine iff_of_false ?_ Bool.false_ne_true
    rintro ⟨found, s', hrun, -⟩
    rw [hnull] at hrun
    cases hrun
  refine iff_of_true ?_ hready
  -- no cache answers, so the answer is that of the descent
  have hplain := answer_cold (hcold.cacheHit key hwarm.caches) s.height s.node
  refine ⟨_, s', hrun, hlooked.write.slotsKept, fun habsent => ?_, fun hstored => ?_⟩
  · -- an absent key reaches a leaf only where it looks like an unused slot
    have hnone : answer geo key s s.height s.node = 0#w := by
      by_contra hne
      rw [hplain] at hne
      exact hkey (hwarm.tree.plainLeaf_root_absent (hwarm.tree.absent.mp habsent) hne)
    refine ⟨hnone, ?_⟩
    rw [hnone] at hrun
    by_cases hh : s.height = 0
    · rw [hh] at hrun
      obtain rfl := congrArg Prod.snd (Except.ok.inj hrun)
      exact fun _ _ => rfl
    · obtain ⟨d, hd⟩ : ∃ d, s.height = d + 1 := ⟨s.height - 1, by omega⟩
      rw [hd] at hrun
      exact hwarm.tree.lookup_null key hwarm.caches (by rw [hwarm.tree.root_lvl (by omega), hd]) hrun
  · obtain ⟨v, x, hx, hmem⟩ : ∃ v, PairAt G 1 (keyNum geo key, v) := by
      by_contra hnone
      exact hstored (hwarm.tree.absent.mpr fun v hv => hnone ⟨v, hv⟩)
    obtain ⟨hlo, hhi⟩ := hwarm.tree.pair_interval (by omega) hmem
    rw [hwarm.tree.plainLeaf_stored hx hmem] at hplain
    rw [hplain] at hlooked hrings ⊢
    exact ⟨hwarm.tree.isLeafOf hx hmem, hwarm.named_above hcold hwarm' hlooked hready hx hlo hhi hrings⟩

/-- Two leaves under a root, and no lookup yet. -/
def eightStored : State 64 := Cmd.execAll Machine.x86_64.cbtree_geo64 Inserts eightInserts (arena 4)

theorem eightStored_run : Run Machine.x86_64.cbtree_geo64 Inserts (arena 4) eightStored :=
  Cmd.run_execAll _ _ _ (arena 4)

theorem cbtreeLookupNode_cold_iff_eight_stored :
    keyNum Machine.x86_64.cbtree_geo64 (wordKey 3) ≠ 0 ∧
    LooksUpCold Machine.x86_64.cbtree_geo64 (wordKey 3) eightStored := by
  have hkey : keyNum Machine.x86_64.cbtree_geo64 (wordKey 3) ≠ 0 := by decide +kernel
  have hready : lookupReady Machine.x86_64.cbtree_geo64 (wordKey 3) eightStored eightStored.height
      eightStored.node = true := by decide +kernel
  exact ⟨hkey, (cbtreeLookupNode_cold_iff (by decide) (arena_blank 4) eightStored_run hkey).mpr hready⟩

/-- Memory for four nodes and for the queues of two. -/
def twoQueues : State 64 := { arena 4 with slab := (arena 4).slab.take 19 }

/-- The root has no queue, and the first lookup stops there. -/
theorem cbtreeLookupNode_cold_stops :
    ¬∀ s, Run Machine.x86_64.cbtree_geo64 Inserts twoQueues s → ∀ key : Words 64,
      keyNum Machine.x86_64.cbtree_geo64 key ≠ 0 → LooksUpCold Machine.x86_64.cbtree_geo64 key s := by
  intro hclaim
  have hkey : keyNum Machine.x86_64.cbtree_geo64 (wordKey 3) ≠ 0 := by decide +kernel
  obtain ⟨found, s', hrun, -⟩ := hclaim
    (Cmd.execAll Machine.x86_64.cbtree_geo64 Inserts eightInserts twoQueues) (Cmd.run_execAll _ _ _ _)
    (wordKey 3) hkey
  have hfault : faulted (cbtreeLookupNode Machine.x86_64.cbtree_geo64 (wordKey 3)
      (Cmd.execAll Machine.x86_64.cbtree_geo64 Inserts eightInserts twoQueues).height
      (Cmd.execAll Machine.x86_64.cbtree_geo64 Inserts eightInserts twoQueues).node
      (Cmd.execAll Machine.x86_64.cbtree_geo64 Inserts eightInserts twoQueues)) = some .nullDeref := by
    decide +kernel
  rw [hrun] at hfault
  cases hfault

end CachedBTree
