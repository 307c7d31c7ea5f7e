import CachedBTree.Caching.Lifecycle

/-! # How many places a cache has

A miss of `findNode` and the write of `setcache` both move the head of the queue, so each round
moves it by two of the four places.  Only every other place is ever written: from the second round
on the ring holds the leaves of the last two rounds and two places with `NULL`. -/

namespace CachedBTree

variable {w : Nat} {geo : Geo} {s s' s₀ s₁ : State w} {p leaf : Ptr w} {R : Rings w} {key : Words w}

/-! ## One round -/

/-- `findNode` on the queue of `p` misses and `setcache` writes `leaf`; `none` when `findNode` answers or
one of the calls does not return. -/
def cacheRound (geo : Geo) (p : Ptr w) (round : Words w × Ptr w) (s : State w) : Option (State w) :=
  match findNode p geo.arrLen round.1 geo.arrLen s with
  | .ok (found, s₁) =>
    if found = 0#w then
      match setcache round.2 p round.1 geo.arrLen geo.keylen s₁ with
      | .ok s' => some s'
      | .error _ => none
    else none
  | .error _ => none

/-- The nodes that the entries of `p` name, from the head of its queue on. -/
def cachedNodes (geo : Geo) (p : Ptr w) (s : State w) : List (Ptr w) := (s.cache geo p).map Entry.node

/-- What a round does to four places: the second one is written over and becomes the last one. -/
def writeSecond (leaf : Ptr w) : List (Ptr w) → List (Ptr w)
  | a :: _ :: l => l ++ [a, leaf]
  | l => l

theorem cacheRound_eq_some {round : Words w × Ptr w} : cacheRound geo p round s = some s' ↔
    ∃ s₁, findNode p geo.arrLen round.1 geo.arrLen s = .ok (0#w, s₁) ∧
      setcache round.2 p round.1 geo.arrLen geo.keylen s₁ = .ok s' := by
  unfold cacheRound
  constructor
  · intro h
    split at h
    next found s₁ hfind =>
      split at h
      next hzero =>
        split at h
        next s₂ hset =>
          cases h
          exact ⟨s₁, hzero ▸ hfind, hset⟩
        next => cases h
      next => cases h
    next => cases h
  · rintro ⟨s₁, hfind, hset⟩
    simp only [hfind, hset, if_true]

theorem Caches.findNode_miss {n : Words w} (h : Caches geo s R) (hp : s.heap p = some (.node n))
    (hfind : findNode p geo.arrLen key geo.arrLen s = .ok (0#w, s₁)) : Turned geo s R p s₁ := by
  rcases findNode_cases key h hp with ⟨hnull, -⟩ | ⟨hne, hhit⟩ | ⟨-, -, s₂, hnone, hturned⟩
  · rw [hfind] at hnull
    cases hnull
  · rw [hfind] at hhit
    exact absurd (Prod.mk.inj (Except.ok.inj hhit)).1.symm hne
  · rw [hfind] at hnone
    cases hnone
    exact hturned

/-- The places are turned before the write. -/
theorem Caches.cachedNodes_miss {n : Words w} (h : Caches geo s R) (hp : s.heap p = some (.node n))
    (hfind : findNode p geo.arrLen key geo.arrLen s = .ok (0#w, s₁)) :
    cachedNodes geo p s₁ = (cachedNodes geo p s).rotate 1 := by
  have hturned := h.findNode_miss hp hfind
  rw [cachedNodes, cachedNodes, hturned.caches.cache, h.cache, Function.update_self, List.map_rotate]

theorem Caches.round {round : Words w × Ptr w} {n m : Words w} (h : Caches geo s R)
    (hp : s.heap p = some (.node n)) (hleaf : s.heap round.2 = some (.node m))
    (hround : cacheRound geo p round s = some s') :
    ∃ R', Caches geo s' R' ∧ CacheWrite geo s s' ∧
      cachedNodes geo p s' = writeSecond round.2 (cachedNodes geo p s) := by
  obtain ⟨s₁, hfind, hset⟩ := cacheRound_eq_some.mp hround
  have hturned := h.findNode_miss hp hfind
  obtain ⟨n₁, hp₁, -⟩ := hturned.write.node p n hp
  obtain ⟨m₁, hleaf₁, -⟩ := hturned.write.node round.2 m hleaf
  rcases setcache_cases round.1 hturned.caches hp₁ ⟨m₁, hleaf₁⟩ with ⟨hnull, -⟩ | ⟨s₂, R', hok, hnamed⟩
  · rw [hset] at hnull
    cases hnull
  rw [hset] at hok
  cases hok
  refine ⟨R', hnamed.caches, hturned.write.trans hnamed.write, ?_⟩
  -- the entry written over was the second one before findNode
  obtain ⟨e, es, hes, hR', -⟩ := hnamed.entries
  rw [Function.update_self] at hes
  have hring : Ring s (n geo.arrLen) (R p) := (h.ring p n hp).resolve_left fun hnil => by
    rw [hnil.2.1] at hes
    cases hes
  rw [cachedNodes, cachedNodes, hnamed.caches.cache, h.cache, hR', Function.update_self]
  obtain ⟨a, b, l, hab⟩ : ∃ a b l, R p = a :: b :: l := by
    have hlen := hring.length
    match R p, hlen with
    | a :: b :: l, _ => exact ⟨a, b, l, rfl⟩
  rw [hab, List.rotate_cons_succ, List.rotate_zero, List.cons_append, List.cons.injEq] at hes
  obtain ⟨-, rfl⟩ := hes
  rw [hab, List.map_append, List.map_append]
  simp [writeSecond]

/-! ## Rounds one after another -/

def cacheRounds (geo : Geo) (p : Ptr w) : List (Words w × Ptr w) → State w → Option (State w)
  | [], s => some s
  | round :: rounds, s => (cacheRound geo p round s).bind (cacheRounds geo p rounds)

theorem cacheRounds_append : ∀ (rounds rounds' : List (Words w × Ptr w)) (s : State w),
    cacheRounds geo p (rounds ++ rounds') s = (cacheRounds geo p rounds s).bind (cacheRounds geo p rounds')
  | [], _, _ => rfl
  | round :: rounds, rounds', s => by
    rw [List.cons_append, cacheRounds, cacheRounds, Option.bind_assoc]
    exact congrArg _ (funext fun s₁ => cacheRounds_append rounds rounds' s₁)

/-- The places after rounds for the leaves, the first of them on a new queue. -/
def placesAfter (leaves : List (Ptr w)) : List (Ptr w) := leaves.foldl (fun l leaf => writeSecond leaf l)
  [0#w, 0#w, 0#w, 0#w]

theorem placesAfter_snoc (leaves : List (Ptr w)) (leaf : Ptr w) :
    placesAfter (leaves ++ [leaf]) = writeSecond leaf (placesAfter leaves) := by
  rw [placesAfter, List.foldl_append]
  rfl

/-- After two rounds and more the last two leaves stand between two places with `NULL`. -/
theorem placesAfter_two (leaves : List (Ptr w)) : ∀ x y : Ptr w,
    placesAfter (leaves ++ [x, y]) = [0#w, x, 0#w, y] := by
  induction leaves using List.reverseRecOn with
  | nil => exact fun _ _ => rfl
  | append_singleton leaves z ih =>
    intro x y
    rw [List.append_assoc, show [z] ++ [x, y] = [z, x] ++ [y] from rfl, ← List.append_assoc, placesAfter_snoc, ih]
    rfl

theorem placesAfter_free : ∀ {leaves : List (Ptr w)}, leaves.length ≤ 1 →
    ((placesAfter leaves).rotate 1).head? = some 0#w
  | [], _ | [_], _ => rfl

theorem placesAfter_few : ∀ {leaves : List (Ptr w)}, leaves.length ≤ 2 → (∀ x ∈ leaves, x ≠ 0#w) →
    (placesAfter leaves).filter (· ≠ 0#w) = leaves
  | [], _, _ => by simp [placesAfter]
  | [x], _, hne => by
    have hx : x ≠ 0#w := hne x List.mem_cons_self
    simp [placesAfter, writeSecond, hx]
  | [x, y], _, hne => by
    have hx : x ≠ 0#w := hne x List.mem_cons_self
    have hy : y ≠ 0#w := hne y (List.mem_cons_of_mem _ List.mem_cons_self)
    simp [placesAfter, writeSecond, hx, hy]

theorem Caches.rounds : ∀ {rounds : List (Words w × Ptr w)} {s : State w} {R : Rings w} {n : Words w}
    (leaves : List (Ptr w)), Caches geo s R → s.heap p = some (.node n) → (∀ r ∈ rounds, s.LiveNode r.2) →
    cachedNodes geo p s = placesAfter leaves → cacheRounds geo p rounds s = some s' →
    ∃ R' n', Caches geo s' R' ∧ s'.heap p = some (.node n') ∧
      cachedNodes geo p s' = placesAfter (leaves ++ rounds.map Prod.snd) := by
  intro rounds
  induction rounds with
  | nil =>
    intro s R n leaves h hp _ hplaces hrun
    cases hrun
    exact ⟨R, n, h, hp, by rwa [List.map_nil, List.append_nil]⟩
  | cons round rounds ih =>
    intro s R n leaves h hp hlive hplaces hrun
    obtain ⟨s₁, hround, hrest⟩ := Option.bind_eq_some_iff.mp hrun
    obtain ⟨m, hm⟩ := hlive round List.mem_cons_self
    obtain ⟨R₁, h₁, hwrite, hnodes⟩ := h.round hp hm hround
    obtain ⟨n₁, hp₁, -⟩ := hwrite.node p n hp
    have hlive₁ : ∀ r ∈ rounds, s₁.LiveNode r.2 := fun r hr => by
      obtain ⟨m, hm⟩ := hlive r (List.mem_cons_of_mem _ hr)
      obtain ⟨m', hm', -⟩ := hwrite.node r.2 m hm
      exact ⟨m', hm'⟩
    rw [hplaces, ← placesAfter_snoc] at hnodes
    obtain ⟨R', n', h', hp', hnodes'⟩ := ih _ h₁ hp₁ hlive₁ hnodes hrest
    exact ⟨R', n', h', hp', by rwa [List.map_cons, ← List.singleton_append, ← List.append_assoc]⟩

/-- `initQueue` leaves four places with `NULL`. -/
theorem Caches.cachedNodes_new (h : Caches geo s R) (hnew : NewNode geo s s' p) (hqueue : s'.queueWord geo p ≠ 0#w) :
    cachedNodes geo p s' = placesAfter [] := by
  obtain ⟨es, hnull, hC, -⟩ := h.alloc hnew
  obtain ⟨n, hn, -⟩ := hnew.node
  have hword : s'.queueWord geo p = n geo.arrLen := by rw [State.queueWord, hn]
  have hring : Ring s' (n geo.arrLen) es := by
    have hring := (hC.ring p n hn).resolve_left fun hnil => hqueue (hword.trans hnil.1)
    rwa [Function.update_self] at hring
  rw [cachedNodes, hC.cache, Function.update_self]
  refine (List.eq_replicate_iff (n := 4)).mpr ⟨by rw [List.length_map, hring.length], fun b hb => ?_⟩
  obtain ⟨e, he, rfl⟩ := List.mem_map.mp hb
  exact hnull e he

/-! ## Four places -/

/-- No round writes over a leaf while another place is free, and after `n` rounds the places hold the leaves
of the last four. -/
structure FourPlaces (geo : Geo) (p : Ptr w) (rounds : List (Words w × Ptr w)) (s : State w) : Prop where
  free : ∀ n key leaf s₁ s₂, rounds[n]? = some (key, leaf) →
    cacheRounds geo p (rounds.take n) s = some s₁ → findNode p geo.arrLen key geo.arrLen s₁ = .ok (0#w, s₂) →
    (cachedNodes geo p s₂).head? = some 0#w ∨ 0#w ∉ cachedNodes geo p s₂
  holds : ∀ n ≤ rounds.length, ∀ s₁, cacheRounds geo p (rounds.take n) s = some s₁ →
    ((cachedNodes geo p s₁).filter (· ≠ 0#w)).Perm (((rounds.take n).map Prod.snd).drop (n - min n 4))

/-- Rounds on a queue in which nothing has been cached use four places if and only if there are at most two
of them. -/
theorem fourPlaces_iff (hN : 4 ≤ geo.noPairs) (h₀ : Blank s₀) (h : Run geo InsertsLooksUpRemoves s₀ s)
    (hnew : cachedNodes geo p s = [0#w, 0#w, 0#w, 0#w]) (rounds : List (Words w × Ptr w))
    (hlive : ∀ r ∈ rounds, s.LiveNode r.2) (hrun : cacheRounds geo p rounds s = some s') :
    FourPlaces geo p rounds s ↔ rounds.length ≤ 2 := by
  obtain ⟨G, R, hhoused⟩ := housed_of_calls hN h₀ h
  have hC := hhoused.caches
  obtain ⟨n, hn⟩ := hC.node p fun hnil => by
    rw [cachedNodes, hC.cache, hnil] at hnew
    cases hnew
  have hne : ∀ r ∈ rounds, r.2 ≠ 0#w := fun r hr hzero => by
    obtain ⟨m, hm⟩ := hlive r hr
    exact hC.null m (hzero ▸ hm)
  have hafter : ∀ (k : Nat) {s₁ : State w}, cacheRounds geo p (rounds.take k) s = some s₁ →
      ∃ R' n', Caches geo s₁ R' ∧ s₁.heap p = some (.node n') ∧
        cachedNodes geo p s₁ = placesAfter ((rounds.take k).map Prod.snd) := fun k _ hk =>
    hC.rounds [] hn (fun r hr => hlive r (List.mem_of_mem_take hr)) hnew hk
  constructor
  · intro hfour
    by_contra hmany
    obtain ⟨r₀, r₁, r₂, rest, rfl⟩ : ∃ r₀ r₁ r₂ rest, rounds = [r₀, r₁] ++ r₂ :: rest := by
      clear hfour hrun hlive hne hafter
      match rounds, hmany with
      | r₀ :: r₁ :: r₂ :: rest, _ => exact ⟨r₀, r₁, r₂, rest, rfl⟩
      | [], h | [_], h | [_, _], h => exact absurd (by simp) h
    -- the third round writes over the leaf of the first
    rw [cacheRounds_append] at hrun
    obtain ⟨s₂, htwo, hrest⟩ := Option.bind_eq_some_iff.mp hrun
    obtain ⟨s₃, hthird, -⟩ := Option.bind_eq_some_iff.mp hrest
    obtain ⟨s₂', hfind, -⟩ := cacheRound_eq_some.mp hthird
    obtain ⟨R₂, n₂, hC₂, hn₂, hnodes⟩ := hafter 2 htwo
    have hturned := hC₂.cachedNodes_miss hn₂ hfind
    have hplaces : cachedNodes geo p s₂ = [0#w, r₀.2, 0#w, r₁.2] := hnodes.trans (placesAfter_two [] r₀.2 r₁.2)
    rw [hplaces] at hturned
    have hfree := hfour.free 2 r₂.1 r₂.2 s₂ s₂' rfl htwo hfind
    rw [hturned] at hfree
    cases hfree with
    | inl hhead => exact hne r₀ List.mem_cons_self (Option.some.inj hhead)
    | inr hnone => exact hnone (by simp)
  · intro hfew
    refine ⟨fun k key leaf s₁ s₂ hget hk hfind => .inl ?_, fun k hle s₁ hk => ?_⟩
    · obtain ⟨R₁, n₁, hC₁, hn₁, hnodes⟩ := hafter k hk
      obtain ⟨hlt, -⟩ := List.getElem?_eq_some_iff.mp hget
      rw [hC₁.cachedNodes_miss hn₁ hfind, hnodes]
      apply placesAfter_free
      rw [List.length_map, List.length_take]
      omega
    · obtain ⟨R₁, n₁, hC₁, hn₁, hnodes⟩ := hafter k hk
      rw [hnodes, placesAfter_few, show k - min k 4 = 0 by omega, List.drop_zero]
      · rw [List.length_map, List.length_take]
        omega
      · intro x hx
        obtain ⟨r, hr, rfl⟩ := List.mem_map.mp hx
        exact hne r (List.mem_of_mem_take hr)

/-- Two levels; the queue of the root has not been used. -/
def unusedRoot : State 64 :=
  Cmd.execAll Machine.x86_64.cbtree_geo64 InsertsLooksUpRemoves eightInserts (arena 4)

theorem unusedRoot_run : Run Machine.x86_64.cbtree_geo64 InsertsLooksUpRemoves (arena 4) unusedRoot :=
  Cmd.run_execAll _ _ _ _

theorem unusedRoot_new :
    cachedNodes Machine.x86_64.cbtree_geo64 unusedRoot.node unusedRoot = [0#64, 0#64, 0#64, 0#64] := by
  decide +kernel

theorem liveNode_of_kind
    (h : (match s.heap p with | some (.node _) => true | _ => false) = true) : s.LiveNode p := by
  split at h
  next n heq => exact ⟨n, heq⟩
  next => cases h

theorem live_of_replicate {n : Nat} (h : s.LiveNode leaf) : ∀ r ∈ List.replicate n (key, leaf), s.LiveNode r.2 :=
  fun r hr => by
    obtain rfl := List.eq_of_mem_replicate hr
    exact h

/-- Rounds of key 2 for its leaf; they miss because the words recorded are those of key 2. -/
theorem fourPlaces_iff_two_rounds : FourPlaces Machine.x86_64.cbtree_geo64 unusedRoot.node
    (List.replicate 2 (wordKey 2, 0x1000#64)) unusedRoot := by
  have hrun : (cacheRounds Machine.x86_64.cbtree_geo64 unusedRoot.node
      (List.replicate 2 (wordKey 2, 0x1000#64)) unusedRoot).isSome = true := by
    decide +kernel
  obtain ⟨s', hs'⟩ := Option.isSome_iff_exists.mp hrun
  exact (fourPlaces_iff (by decide) (arena_blank 4) unusedRoot_run unusedRoot_new _
    (live_of_replicate (liveNode_of_kind (by decide +kernel))) hs').mpr (by simp)

/-- The third of three rounds writes over a leaf while two places are free. -/
theorem cache_has_two_places :
    ¬∀ s, Run Machine.x86_64.cbtree_geo64 InsertsLooksUpRemoves (arena 4) s → ∀ p,
      cachedNodes Machine.x86_64.cbtree_geo64 p s = [0#64, 0#64, 0#64, 0#64] →
      ∀ rounds s', (∀ r ∈ rounds, s.LiveNode r.2) → cacheRounds Machine.x86_64.cbtree_geo64 p rounds s = some s' →
        FourPlaces Machine.x86_64.cbtree_geo64 p rounds s := by
  intro hclaim
  have hlength : (cacheRounds Machine.x86_64.cbtree_geo64 unusedRoot.node (List.replicate 3 (wordKey 2, 0x1000#64))
      unusedRoot).map (fun s => ((cachedNodes Machine.x86_64.cbtree_geo64 unusedRoot.node s).filter
        (· ≠ 0#64)).length) = some 2 := by
    decide +kernel
  obtain ⟨s', hs', hcount⟩ := Option.map_eq_some_iff.mp hlength
  have hfour := hclaim unusedRoot unusedRoot_run unusedRoot.node unusedRoot_new _ s'
    (live_of_replicate (liveNode_of_kind (by decide +kernel))) hs'
  have hperm := (hfour.holds 3 (by simp) s' hs').length_eq
  rw [hcount] at hperm
  simp at hperm

end CachedBTree
