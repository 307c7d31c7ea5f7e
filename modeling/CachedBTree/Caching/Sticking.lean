import CachedBTree.Caching.Cold

/-! # One leaf for every key

In a tree with inner nodes the first search that ends at a leaf leaves this leaf in the cache of
the root.  `findNode` takes an entry for an answer when its key is *not* the one that is looked
for, so from then on every search ends at this leaf: for another key the entry answers, and for
the same key the search goes the same way down again. -/

namespace CachedBTree

open CachedBTree.Support

variable {w : Nat} {geo : Geo} {s s' s₀ : State w} {p x leaf : Ptr w} {R R' : Rings w} {G : Labels w} {m r K : Nat}
  {key key' : Words w}

/-! ## What the descent depends on -/

theorem CacheWrite.slotAt_eq {n n' : Words w} (hsame : ∀ j, j ≠ geo.arrLen + 1 → n' j = n j) {i : Nat}
    (hi : i < geo.noPairs) : slotAt geo n' i = slotAt geo n i := by
  have harr : geo.arrLen = geo.keylen * geo.noPairs + geo.noLongs := rfl
  have hval : geo.noLongs + i < geo.arrLen := value_word_lt hi
  refine Prod.ext (keyNum_congr fun j hj => ?_) (hsame _ (by omega))
  have : i * geo.keylen + j < geo.noLongs := key_word_lt hi hj
  exact hsame _ (by omega)

theorem getpos_congr {n n' : Words w} (hslots : ∀ i, i < geo.noPairs → slotAt geo n' i = slotAt geo n i)
    (hkey : keyNum geo key' = keyNum geo key) : getpos geo n' key' = getpos geo n key := by
  refine scan_congr fun i _ hi => decide_eq_decide.mpr ?_
  have hslot := congrArg Prod.fst (hslots i (by omega))
  simp only [slotAt] at hslot
  rw [keycmp, keycmp, longcmp_le_zero, longcmp_le_zero, hslot, hkey]

theorem findSlot_congr {n n' : Words w} (hslots : ∀ i, i < geo.noPairs → slotAt geo n' i = slotAt geo n i)
    (hkey : keyNum geo key' = keyNum geo key) : findSlot geo n' key' = findSlot geo n key := by
  refine scan_congr fun i _ hi => decide_eq_decide.mpr ?_
  have hslot := congrArg Prod.fst (hslots i (by omega))
  simp only [slotAt] at hslot
  rw [keycmp, keycmp, longcmp_eq_zero, longcmp_eq_zero, hslot, hkey]

theorem stepDown_congr (hw : CacheWrite geo s s') (hkey : keyNum geo key' = keyNum geo key) :
    stepDown geo key' s' p = stepDown geo key s p := by
  by_cases hnode : ∃ n, s.heap p = some (.node n)
  · obtain ⟨n, hn⟩ := hnode
    obtain ⟨n', hn', hsame⟩ := hw.node p n hn
    have hslots : ∀ i, i < geo.noPairs → slotAt geo n' i = slotAt geo n i := fun i hi =>
      CacheWrite.slotAt_eq hsame hi
    simp only [stepDown, hn, hn', getpos_congr hslots hkey]
    have hle := scan_le (fun i => decide (keycmp geo n i key ≤ 0)) 0 geo.noPairs
    by_cases hend : getpos geo n key = geo.noPairs
    · rw [if_pos hend, if_pos hend]
    · rw [if_neg hend, if_neg hend]
      unfold getpos at hend ⊢
      exact congrArg Prod.snd (hslots _ (by omega))
  · have hnone : ∀ t : State w, (¬∃ n, t.heap p = some (.node n)) → ∀ k : Words w, stepDown geo k t p = 0#w := by
      intro t ht k
      cases hobj : t.heap p with
      | none => simp only [stepDown, hobj]
      | some o =>
        cases o with
        | node n => exact absurd ⟨n, hobj⟩ ht
        | queue _ | entry _ _ _ | buf _ => simp only [stepDown, hobj]
    have hnode' : ¬∃ n, s'.heap p = some (.node n) := fun hex => hex.elim fun n' hn' => hnode (hw.back p n' hn')
    rw [hnone s hnode, hnone s' hnode']

/-- The descent reads the slots, which a lookup leaves alone, and the words of the key. -/
theorem plainLeaf_congr (hw : CacheWrite geo s s') (hkey : keyNum geo key' = keyNum geo key) :
    ∀ (d : Nat) (p : Ptr w), plainLeaf geo key' s' d p = plainLeaf geo key s d p
  | 0, _ => rfl
  | 1, p => by
    unfold plainLeaf
    by_cases hnode : ∃ n, s.heap p = some (.node n)
    · obtain ⟨n, hn⟩ := hnode
      obtain ⟨n', hn', hsame⟩ := hw.node p n hn
      have hslot : findSlot geo n' key' = findSlot geo n key :=
        findSlot_congr (fun i hi => CacheWrite.slotAt_eq hsame hi) hkey
      simp only [hn, hn', hslot]
    · split
      next n' hn' => exact absurd (hw.back p n' hn') hnode
      next =>
        split
        next n hn => exact absurd ⟨n, hn⟩ hnode
        next => rfl
  | d + 2, p => by
    rw [plainLeaf_succ, plainLeaf_succ, stepDown_congr hw hkey, plainLeaf_congr hw hkey (d + 1)]

/-! ## Caches that name one leaf -/

/-- Every entry that holds something names `leaf`, with the key of number `K`; the root has such an entry, and
the descent for this key ends at `leaf`. -/
structure Stuck (geo : Geo) (s : State w) (R : Rings w) (leaf : Ptr w) (K : Nat) : Prop where
  leaf_ne : leaf ≠ 0#w
  entries : ∀ x, ∀ e ∈ R x, e.node ≠ 0#w → e.node = leaf ∧ keyNum geo (s.keyBuf e.key) = K
  root : ∃ e ∈ R s.node, e.node ≠ 0#w
  plain : ∀ key, keyNum geo key = K → plainLeaf geo key s s.height s.node = leaf

theorem cachelongcmpLoop_eq_zero {l1 l2 : Words w} : ∀ {d i : Nat}, cachelongcmpLoop l1 l2 i d = 0 →
    ∀ j, i ≤ j → j < i + d → l1 j = l2 j
  | 0, _, _, _, _, _ => by omega
  | d + 1, i, h, j, hij, hj => by
    unfold cachelongcmpLoop at h
    split at h
    next => cases h
    next heq =>
      by_cases hji : j = i
      · rw [hji]
        exact not_not.mp heq
      · exact cachelongcmpLoop_eq_zero h j (by omega) (by omega)

/-- An answer on the way down is an entry of some cache. -/
theorem pathHit_entry (hC : Caches geo s R) : ∀ {d : Nat} {p : Ptr w}, pathHit geo key s d p ≠ 0#w →
    ∃ x, ∃ e ∈ R x, e.node = pathHit geo key s d p
  | 0, _, h | 1, _, h => absurd rfl h
  | d + 2, p, h => by
    unfold pathHit at h ⊢
    by_cases hhit : cacheHit geo key s p = 0#w
    · rw [if_neg (not_not_intro hhit)] at h ⊢
      split at h
      next => exact absurd rfl h
      next hdown =>
        rw [if_neg hdown]
        exact pathHit_entry hC h
    · rw [if_pos hhit]
      obtain ⟨e, he, heq⟩ := firstAnswer_mem hhit
      rw [hC.cache] at he
      exact ⟨p, e, he, heq⟩

/-- When the entry of the root is no answer, the key is the one that it records. -/
theorem Stuck.key_of_miss (h : Stuck geo s R leaf K) (hC : Caches geo s R) (hN : 1 ≤ geo.noPairs)
    (hmiss : cacheHit geo key s s.node = 0#w) : keyNum geo key = K := by
  obtain ⟨e, he, hne⟩ := h.root
  have hsilent : answers geo s key e = false := by
    by_contra hans
    rw [Bool.not_eq_false] at hans
    unfold cacheHit at hmiss
    rw [hC.cache] at hmiss
    unfold firstAnswer at hmiss
    split at hmiss
    next a ha =>
      have := List.find?_some ha
      simp [answers, hmiss] at this
    next hnone => exact List.find?_eq_none.mp hnone e he hans
  have hsame : cachelongcmp key (s.keyBuf e.key) geo.arrLen = 0 := by
    simpa [answers, hne, hC.not_flagged e.node] using hsilent
  have hlen : geo.keylen ≤ geo.arrLen := by
    have := Nat.le_mul_of_pos_right geo.keylen hN
    unfold Geo.arrLen
    omega
  rw [← (h.entries _ e he hne).2]
  exact keyNum_congr fun j hj => cachelongcmpLoop_eq_zero hsame j (Nat.zero_le _) (by omega)

/-- Every search ends at the leaf. -/
theorem Stuck.answer_eq (h : Stuck geo s R leaf K) (hC : Caches geo s R) (hN : 1 ≤ geo.noPairs) (hh : 2 ≤ s.height)
    (key : Words w) : answer geo key s s.height s.node = leaf := by
  unfold answer
  by_cases hhit : pathHit geo key s s.height s.node = 0#w
  · rw [if_neg (not_not_intro hhit)]
    refine h.plain key (h.key_of_miss hC hN ?_)
    obtain ⟨d, hd⟩ : ∃ d, s.height = d + 2 := ⟨s.height - 2, by omega⟩
    rw [hd] at hhit
    unfold pathHit at hhit
    by_contra hne
    rw [if_pos hne] at hhit
    exact hne hhit
  · rw [if_pos hhit]
    obtain ⟨x, e, he, heq⟩ := pathHit_entry hC hhit
    rw [← heq]
    exact (h.entries x e he (heq ▸ hhit)).1

/-! ## One more lookup -/

/-- A node that the search has passed has the leaf as its newest entry. -/
theorem passedRing_mem {es : List (Entry w)} (hleaf : leaf ≠ 0#w) (hne : es ≠ []) :
    ∃ e ∈ passedRing leaf es, e.node ≠ 0#w := by
  rw [passedRing, if_neg hleaf]
  cases hes : es.rotate 1 with
  | nil => exact absurd (List.rotate_eq_nil_iff.mp hes) hne
  | cons e l => exact ⟨⟨e.addr, leaf, e.key⟩, by simp, hleaf⟩

theorem mem_missPath_root (hh : 2 ≤ s.height) (hmiss : cacheHit geo key s s.node = 0#w) :
    s.node ∈ missPath geo key s s.height s.node := by
  obtain ⟨d, hd⟩ : ∃ d, s.height = d + 2 := ⟨s.height - 2, by omega⟩
  rw [hd, missPath, if_neg (not_not_intro hmiss)]
  exact List.mem_cons_self

/-- What a lookup that finds `leaf` leaves when the cache of the root has not answered. -/
theorem Stuck.of_found (h : Warm geo m r s G R) (hh : 2 ≤ s.height) (hlooked : Looked geo G key leaf s R s' R')
    (hrings : ∀ x, R' x = if x ∈ missPath geo key s s.height s.node then passedRing leaf (R x) else R x)
    (hready : lookupReady geo key s s.height s.node = true) (hmiss : cacheHit geo key s s.node = 0#w)
    (hleaf : leaf ≠ 0#w)
    (hold : ∀ x, ∀ e ∈ R x, e.node ≠ 0#w → e.node = leaf ∧ keyNum geo (s.keyBuf e.key) = keyNum geo key)
    (hplain : plainLeaf geo key s s.height s.node = leaf) : Stuck geo s' R' leaf (keyNum geo key) where
  leaf_ne := hleaf
  entries x e' he' hne := by
    rcases hlooked.entries x e' he' hne with ⟨e, he, hnode, hbuf⟩ | ⟨-, hnode, hkey⟩
    · rw [← hnode] at hne ⊢
      rw [hbuf]
      exact hold x e he hne
    · exact ⟨hnode, keyNum_congr hkey⟩
  root := by
    have hmem := mem_missPath_root hh hmiss
    obtain ⟨d, hd⟩ : ∃ d, s.height = d + 1 := ⟨s.height - 1, by omega⟩
    have hne : R s.node ≠ [] := by
      rw [← h.caches.cache]
      rw [hd] at hready hmem
      exact queue_of_ready hready hmem
    rw [hlooked.write.head, hrings, if_pos hmem]
    exact passedRing_mem hleaf hne
  plain k hk := by
    rw [hlooked.write.head, plainLeaf_congr hlooked.write hk]
    exact hplain

/-- With caches that name one leaf a lookup finds it, whatever its key. -/
theorem Stuck.lookup (hN : 1 ≤ geo.noPairs) (h : Warm geo m r s G R) (hs : Stuck geo s R leaf K)
    (hh : 2 ≤ s.height) (hk : s.kfail = false) (key : Words w) :
    ∃ s' R', cbtreeLookup geo key s = .ok (leaf, s') ∧ Warm geo m r s' G R' ∧ CacheWrite geo s s' ∧
      Stuck geo s' R' leaf K := by
  have hans := hs.answer_eq h.caches hN hh key
  have hready := h.ready key hk
  rcases h.search key with ⟨-, -, hnot⟩ | ⟨-, s', R', hrun, hwarm, hlooked, hsame, hrings⟩
  · rw [hready] at hnot
    cases hnot
  rw [hans] at hrun hlooked hrings
  refine ⟨s', R', by rw [cbtreeLookup_eq, hrun], hwarm, hlooked.write, ?_⟩
  by_cases hmiss : cacheHit geo key s s.node = 0#w
  · have hkey := hs.key_of_miss h.caches hN hmiss
    have hstuck := Stuck.of_found h hh hlooked hrings hready hmiss hs.leaf_ne
      (fun x e he hne => hkey ▸ hs.entries x e he hne) (hs.plain key hkey)
    rwa [hkey] at hstuck
  · -- the root answers, and nothing changes
    obtain ⟨rfl, rfl⟩ := hsame hh hmiss
    exact hs

/-- With caches that hold nothing a lookup goes the plain way, and when it finds a leaf the caches name it. -/
theorem Cold.lookup (h : Warm geo m r s G R) (hcold : Cold R) (hh : 2 ≤ s.height) (hk : s.kfail = false)
    (key : Words w) :
    ∃ s' R', cbtreeLookup geo key s = .ok (plainLeaf geo key s s.height s.node, s') ∧ Warm geo m r s' G R' ∧
      CacheWrite geo s s' ∧ (plainLeaf geo key s s.height s.node = 0#w → Cold R') ∧
      (plainLeaf geo key s s.height s.node ≠ 0#w →
        Stuck geo s' R' (plainLeaf geo key s s.height s.node) (keyNum geo key)) := by
  have hmiss := hcold.cacheHit key h.caches
  have hready := h.ready key hk
  rcases h.search key with ⟨-, -, hnot⟩ | ⟨-, s', R', hrun, hwarm, hlooked, -, hrings⟩
  · rw [hready] at hnot
    cases hnot
  rw [answer_cold hmiss] at hrun hlooked hrings
  refine ⟨s', R', by rw [cbtreeLookup_eq, hrun], hwarm, hlooked.write, fun hnone x e' he' => ?_, fun hfound => ?_⟩
  · by_contra hne
    rcases hlooked.entries x e' he' hne with ⟨e, he, hnode, -⟩ | ⟨-, hnode, -⟩
    · exact hne (hnode ▸ hcold x e he)
    · exact hne (hnode.trans hnone)
  · exact Stuck.of_found h hh hlooked hrings hready (hmiss s.node) hfound
      (fun x e he hne => absurd (hcold x e he) hne) rfl

end CachedBTree
