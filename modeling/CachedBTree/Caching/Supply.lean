import CachedBTree.Caching.Runs
import CachedBTree.Insertion.Splits

/-! # Nodes without a cache

A new node makes nine more allocations, and `initQueue` does not tell its caller when one of
them fails.  A node has its cache when `kmalloc` has answered all nine; an insertion that
succeeds gives a cache to every node it links exactly when the answers of `kmalloc` suffice for
all of them. -/

namespace CachedBTree

variable {w : Nat} {geo : Geo} {s s' s₀ : State w} {p x : Ptr w} {as : List (Ptr w)} {d k : Nat}

/-! ## Answers of the allocators -/

/-- The next `d` answers of `kmalloc` and the addresses `as` can all be handed out, one after the other and
in any order. -/
structure Stocked (s : State w) (d : Nat) (as : List (Ptr w)) : Prop where
  length : d ≤ s.slab.length
  nodup : ((s.slab.take d).map Prod.fst ++ as).Nodup
  free : ∀ a ∈ (s.slab.take d).map Prod.fst ++ as, a ≠ 0#w ∧ s.inUse a = false

instance decidableStocked (s : State w) (d : Nat) (as : List (Ptr w)) : Decidable (Stocked s d as) :=
  decidable_of_iff (d ≤ s.slab.length ∧ ((s.slab.take d).map Prod.fst ++ as).Nodup ∧
      ((s.slab.take d).map Prod.fst ++ as).all (fun a => decide (a ≠ 0#w ∧ s.inUse a = false)) = true)
    ⟨fun h => ⟨h.1, h.2.1, fun a ha => of_decide_eq_true (List.all_eq_true.mp h.2.2 a ha)⟩,
      fun h => ⟨h.length, h.nodup, List.all_eq_true.mpr fun a ha => decide_eq_true (h.free a ha)⟩⟩

theorem inUse_eq_false : s.inUse p = false ↔ s.heap p = none := by simp [State.inUse]

/-- Less is in use and the lists are the same. -/
theorem Stocked.mono (h : Stocked s d as) (hslab : s'.slab = s.slab)
    (hfree : ∀ a, s.heap a = none → s'.heap a = none) : Stocked s' d as where
  length := hslab ▸ h.length
  nodup := hslab ▸ h.nodup
  free a ha := by
    rw [hslab] at ha
    obtain ⟨hne, hnone⟩ := h.free a ha
    exact ⟨hne, inUse_eq_false.mpr (hfree a (inUse_eq_false.mp hnone))⟩

theorem Stocked.setWord {i : Nat} {v : Word w} (h : Stocked s d as) (hrun : s.setWord p i v = .ok s') :
    Stocked s' d as := by
  obtain ⟨-, o, o', hobj, -, rfl⟩ := State.setWord_eq_ok.mp hrun
  refine h.mono rfl fun a ha => ?_
  rw [State.setObj_heap, if_neg, ha]
  rintro rfl
  rw [hobj] at ha
  cases ha

theorem Stocked.kmalloc (h : Stocked s (d + 1) as) (mk : Words w → Obj w) :
    ∃ p s' junk, s.kmalloc mk = (p, s') ∧ p ≠ 0#w ∧ s.heap p = none ∧ Stocked s' d as ∧
      ∀ x, s'.heap x = if x = p then some (mk junk) else s.heap x := by
  obtain ⟨⟨p, junk⟩, rest, hslab⟩ := List.exists_cons_of_length_pos
    (Nat.lt_of_lt_of_le (Nat.succ_pos d) h.length)
  have hlen := h.length
  have hnodup := h.nodup
  have hfree := h.free
  rw [hslab, List.length_cons] at hlen
  rw [hslab, List.take_succ_cons, List.map_cons, List.cons_append] at hnodup hfree
  obtain ⟨hnot, hnodup⟩ := List.nodup_cons.mp hnodup
  obtain ⟨⟨hp, huse⟩, hrest⟩ := List.forall_mem_cons.mp hfree
  have halloc : s.kmalloc mk = (p, { s with slab := rest }.setObj p (some (mk junk))) := by
    simp [State.kmalloc, hslab, hp, huse]
  refine ⟨p, _, junk, halloc, hp, inUse_eq_false.mp huse, ⟨by simpa using hlen, hnodup, fun a ha => ?_⟩,
    fun x => State.setObj_heap _⟩
  obtain ⟨hne, hnone⟩ := hrest a ha
  refine ⟨hne, inUse_eq_false.mpr ?_⟩
  rw [State.setObj_heap, if_neg]
  · exact inUse_eq_false.mp hnone
  · rintro rfl
    exact hnot ha

/-! ## A queue with all its key buffers -/

theorem Obj.word_set {o o' : Obj w} {i : Nat} {v : Word w} (h : o.set? i v = some o') : o'.word? i = some v := by
  cases o with
  | node ws | buf ws =>
    cases h
    simp [Obj.word?]
  | queue head =>
    match i, h with
    | 0, h =>
      cases h
      rfl
  | entry c key next =>
    match i, h with
    | 0, h | 1, h | 2, h =>
      cases h
      rfl

/-- The entries made since `s₀` have key buffers. -/
def EntriesKeyed (s₀ s : State w) : Prop :=
  ∀ x c key next, s.heap x = some (.entry c key next) → s₀.heap x = none → key ≠ 0#w

/-- Only the second word of an entry is its key buffer. -/
theorem EntriesKeyed.setWord {i : Nat} {v : Word w} (h : EntriesKeyed s₀ s) (hv : i ≠ 1 ∨ v ≠ 0#w)
    (hrun : s.setWord p i v = .ok s') : EntriesKeyed s₀ s' := by
  obtain ⟨-, o, o', hobj, hset, rfl⟩ := State.setWord_eq_ok.mp hrun
  intro x c key next hx hfree
  rw [State.setObj_heap] at hx
  split at hx
  next hxp =>
    subst hxp
    cases hx
    cases o with
    | node | queue | buf => cases i <;> cases hset
    | entry c₀ key₀ next₀ =>
      match i, hv, hset with
      | 0, _, hset | 2, _, hset =>
        cases hset
        exact h x _ _ _ hobj hfree
      | 1, hv, hset =>
        cases hset
        exact hv.resolve_left fun hne => hne rfl
  next => exact h x c key next hx hfree

/-- One round of `initQueue`: an entry and its key buffer. -/
theorem Stocked.round (h : Stocked s (d + 2) as) (hkeyed : EntriesKeyed s₀ s) :
    ∃ curr s₁ key s₂, s.kmalloc (fun _ => .entry 0#w 0#w 0#w) = (curr, s₁) ∧ curr ≠ 0#w ∧
      s₁.kmalloc .buf = (key, s₂) ∧
      ∀ s₃, s₂.setWord curr 1 key = .ok s₃ → Stocked s₃ d as ∧ EntriesKeyed s₀ s₃ := by
  obtain ⟨curr, s₁, -, hentry, hcurr, -, h₁, hheap₁⟩ := h.kmalloc fun _ => .entry 0#w 0#w 0#w
  obtain ⟨key, s₂, junk, hbuf, hkey, hkfree, h₂, hheap₂⟩ := h₁.kmalloc .buf
  refine ⟨curr, s₁, key, s₂, hentry, hcurr, hbuf, fun s₃ hset => ⟨h₂.setWord hset, ?_⟩⟩
  -- two answers in a row are different addresses
  have hck : curr ≠ key := by
    rintro rfl
    rw [hheap₁, if_pos rfl] at hkfree
    cases hkfree
  obtain ⟨-, o, o', hobj, hset, rfl⟩ := State.setWord_eq_ok.mp hset
  rw [hheap₂, if_neg hck, hheap₁, if_pos rfl] at hobj
  cases hobj
  cases hset
  intro x c k next hx hfree
  rw [State.setObj_heap] at hx
  split at hx
  next =>
    cases hx
    exact hkey
  next hxc =>
    rw [hheap₂] at hx
    split at hx
    next => cases hx
    next =>
      rw [hheap₁, if_neg hxc] at hx
      exact hkeyed x c k next hx hfree

theorem initQueueLoop_stocked : ∀ {d : Nat} {first previous : Ptr w} {s : State w}
    {ends : Option (Ptr w × Ptr w)}, Stocked s (k + 2 * d) as → EntriesKeyed s₀ s →
    initQueueLoop first previous d s = .ok (ends, s') → ends ≠ none ∧ Stocked s' k as ∧ EntriesKeyed s₀ s' := by
  intro d
  induction d with
  | zero =>
    intro first previous s ends h hkeyed hrun
    cases hrun
    exact ⟨by simp, h, hkeyed⟩
  | succ d ih =>
    intro first previous s ends h hkeyed hrun
    obtain ⟨curr, s₁, key, s₂, hentry, hcurr, hbuf, hround⟩ := Stocked.round (d := k + 2 * d) h hkeyed
    rw [initQueueLoop] at hrun
    simp only [hentry, if_neg hcurr, hbuf] at hrun
    obtain ⟨s₃, hset, hrun⟩ := bind_eq_ok.mp hrun
    obtain ⟨h₃, hkeyed₃⟩ := hround s₃ hset
    rcases ite_eq_ok.mp hrun with ⟨-, hrun⟩ | ⟨-, hrun⟩
    · exact ih h₃ hkeyed₃ hrun
    · obtain ⟨s₄, hlink, hrun⟩ := bind_eq_ok.mp hrun
      exact ih (h₃.setWord hlink) (hkeyed₃.setWord (.inl (by decide)) hlink) hrun

/-- With nine answers of `kmalloc` the node gets a queue. -/
theorem initQueue_stocked {off : Nat} (h : Stocked s (k + 9) as) (hkeyed : EntriesKeyed s₀ s)
    (hrun : initQueue p off s = .ok s') :
    Stocked s' k as ∧ EntriesKeyed s₀ s' ∧ ∃ q, q ≠ 0#w ∧ s'.word p off = .ok q := by
  obtain ⟨q, s₁, junk, hqueue, hq, -, h₁, hheap₁⟩ := Stocked.kmalloc (d := k + 2 * 4) h fun _ => .queue 0#w
  have hkeyed₁ : EntriesKeyed s₀ s₁ := fun x c key next hx hfree => by
    rw [hheap₁] at hx
    split at hx
    next => cases hx
    next => exact hkeyed x c key next hx hfree
  unfold initQueue at hrun
  simp only [hqueue] at hrun
  obtain ⟨⟨ends, s₂⟩, hloop, hrun⟩ := bind_eq_ok.mp hrun
  obtain ⟨hends, h₂, hkeyed₂⟩ := initQueueLoop_stocked h₁ hkeyed₁ hloop
  cases ends with
  | none => exact absurd rfl hends
  | some ends =>
    obtain ⟨s₃, hring, hrun⟩ := bind_eq_ok.mp hrun
    obtain ⟨s₄, hhead, hrun⟩ := bind_eq_ok.mp hrun
    refine ⟨((h₂.setWord hring).setWord hhead).setWord hrun, ((hkeyed₂.setWord (.inl (by decide)) hring).setWord
      (.inl (by decide)) hhead).setWord (.inr hq) hrun, q, hq, ?_⟩
    obtain ⟨hp, o, o', hobj, hset, rfl⟩ := State.setWord_eq_ok.mp hrun
    refine State.word_eq_ok.mpr ⟨hp, o', ?_, Obj.word_set hset⟩
    rw [State.setObj_heap, if_pos rfl]

/-! ## A node with its cache -/

/-- The node at `p` has a queue whose head is on a ring of four entries, each with a key buffer of its own. -/
def HasCache (geo : Geo) (s : State w) (p : Ptr w) : Prop :=
  ∃ es, Ring s (s.queueWord geo p) es ∧ ∀ e ∈ es, e.key ≠ 0#w

theorem queueWord_eq {n : Words w} (h : s.heap p = some (.node n)) : s.queueWord geo p = n geo.arrLen := by
  unfold State.queueWord
  rw [h]

theorem HasCache.mono (h : HasCache geo s p) (hside : SideKept s s')
    (hword : s'.queueWord geo p = s.queueWord geo p) : HasCache geo s' p := by
  obtain ⟨es, hring, hkeyed⟩ := h
  exact ⟨es, hword ▸ hring.mono hside, hkeyed⟩

/-- One answer of `mempool_alloc` and nine of `kmalloc` make a node with its cache. -/
theorem Stocked.nodeAlloc (h : Stocked s (k + 9) (s.pool.take (d + 1)))
    (hrun : cbtreeNodeAlloc geo s = .ok (p, s')) (hp : p ≠ 0#w) :
    Stocked s' k (s'.pool.take d) ∧ HasCache geo s' p := by
  have hnew := newNode_of_alloc hrun hp
  unfold cbtreeNodeAlloc State.mempoolAlloc at hrun
  cases hpool : s.pool with
  | nil =>
    rw [hpool] at hrun
    exact absurd (congrArg Prod.fst (Except.ok.inj hrun)).symm hp
  | cons q rest =>
    simp only [hpool] at hrun
    by_cases hq : q = 0#w ∨ s.inUse q
    · rw [if_pos hq] at hrun
      exact absurd (congrArg Prod.fst (Except.ok.inj hrun)).symm hp
    · rw [if_neg hq] at hrun
      simp only [if_neg (not_or.mp hq).1] at hrun
      obtain ⟨s₁, hinit, hrun⟩ := bind_eq_ok.mp hrun
      cases hrun
      generalize hs₁ : ({ s with pool := rest }.setNode p fun _ => 0).setNode p (fun _ => 0#w) = s₁ at hinit
      have hheap : ∀ x, s₁.heap x = if x = p then some (.node fun _ => 0#w) else s.heap x := fun x => by
        rw [← hs₁, State.setNode_setNode, State.setNode_heap]
      -- the address taken for the node is not among the nine for its queue
      have hstock : Stocked s₁ (k + 9) (rest.take d) := by
        have hnodup := h.nodup
        have hfree := h.free
        rw [hpool, List.take_succ_cons] at hnodup hfree
        obtain ⟨hnot, hrest⟩ := List.nodup_cons.mp (List.nodup_middle.mp hnodup)
        rw [← hs₁]
        refine ⟨h.length, hrest, fun a ha => ?_⟩
        obtain ⟨hne, hnone⟩ := hfree a (List.perm_middle.mem_iff.mpr (List.mem_cons_of_mem _ ha))
        refine ⟨hne, inUse_eq_false.mpr ?_⟩
        rw [hs₁, hheap, if_neg]
        · exact inUse_eq_false.mp hnone
        · rintro rfl
          exact hnot ha
      obtain ⟨hstock', hkeyed, q, hq, hword⟩ := initQueue_stocked hstock
        (fun x c key next hx hfree => by
          rw [hheap] at hx
          split at hx
          next => cases hx
          next =>
            rw [hfree] at hx
            cases hx) hinit
      have hpool' : s'.pool = rest := by
        rw [initQueue_pool hinit, ← hs₁]
        rfl
      refine ⟨hpool' ▸ hstock', ?_⟩
      -- the queue that `initQueue` has left is the one the node names
      obtain ⟨n, hn, -, -, -, hqueue⟩ := hnew.node
      obtain ⟨-, o, ho, hq'⟩ := State.word_eq_ok.mp hword
      rw [hn] at ho
      cases ho
      cases hq'
      rcases hqueue with ⟨hzero, -⟩ | ⟨es, hring, -⟩
      · exact absurd hzero hq
      · refine ⟨es, queueWord_eq hn ▸ hring.ring, fun e he => ?_⟩
        obtain ⟨next, hnext⟩ := hring.ring.linked.entry he
        exact hkeyed _ _ _ _ hnext (hring.fresh e he).2.1

/-! ## One call -/

theorem pool_ne_nil_of_alloc (hrun : cbtreeNodeAlloc geo s = .ok (p, s')) (hp : p ≠ 0#w) : s.pool ≠ [] := by
  intro hnil
  rw [cbtreeNodeAlloc, State.mempoolAlloc, hnil] at hrun
  exact hp (congrArg Prod.fst (Except.ok.inj hrun)).symm

/-- Memory in a call that has begun in `s₀` and has taken `i` of the `n` nodes there are answers for. -/
structure Supplied (geo : Geo) (n : Nat) (s₀ s : State w) (i : Nat) : Prop where
  le : i ≤ s₀.pool.length
  pool : s.pool = s₀.pool.drop i
  stocked : i ≤ n → Stocked s (9 * (n - i)) (s.pool.take (n - i))
  cached : i ≤ n → ∀ x m, s.heap x = some (.node m) → s₀.heap x = none → HasCache geo s x

theorem Supplied.stable (geo : Geo) (n : Nat) (s₀ : State w) :
    AllocStable geo (fun s => ∃ i, Supplied geo n s₀ s i) (fun _ => True) 0 where
  slots s p m m' := by
    rintro ⟨i, h⟩ hp hsame
    refine ⟨i, h.le, h.pool, fun hi => (h.stocked hi).mono rfl fun a ha => ?_, fun hi x m₁ hx hfree => ?_⟩
    · rw [State.setNode_heap_ne, ha]
      rintro rfl
      rw [hp] at ha
      cases ha
    · by_cases hxp : x = p
      · subst hxp
        refine (h.cached hi x m hp hfree).mono (SideKept.setNode m' hp) ?_
        rw [queueWord_eq (State.setNode_heap_self m'), queueWord_eq hp, hsame _ le_rfl]
      · rw [State.setNode_heap_ne _ hxp] at hx
        refine (h.cached hi x m₁ hx hfree).mono (SideKept.setNode m' hp) ?_
        rw [queueWord_eq hx, queueWord_eq ((State.setNode_heap_ne _ hxp).trans hx)]
  head s head := by
    rintro ⟨i, h⟩
    exact ⟨i, h.le, h.pool, fun hi => (h.stocked hi).mono rfl fun _ ha => ha,
      fun hi x m hx hfree => (h.cached hi x m hx hfree).mono (fun _ _ hx _ => hx) rfl⟩
  fail _ _ _ _ := .inl rfl
  free := .inl rfl
  alloc s s' p := by
    rintro ⟨i, h⟩ hrun hp
    have hlt : i < s₀.pool.length := by
      by_contra hge
      apply pool_ne_nil_of_alloc hrun hp
      rw [h.pool, List.drop_eq_nil_of_le (by omega)]
    have hkept := kept_of_alloc hrun
    have hpool : s'.pool = s₀.pool.drop (i + 1) := by
      rw [cbtreeNodeAlloc_pool hrun hp, h.pool, List.drop_drop]
    have hstep : i + 1 ≤ n → Stocked s' (9 * (n - (i + 1))) (s'.pool.take (n - (i + 1))) ∧
        HasCache geo s' p := fun hi => by
      obtain ⟨d, hd⟩ : ∃ d, n - i = d + 1 := ⟨n - i - 1, by omega⟩
      have hstock := h.stocked (by omega)
      rw [hd] at hstock
      rw [show n - (i + 1) = d by omega]
      exact Stocked.nodeAlloc hstock hrun hp
    refine ⟨⟨i + 1, hlt, hpool, fun hi => (hstep hi).1, fun hi x m hx hfree => ?_⟩, trivial⟩
    -- the node is the new one, or its queue is as before
    rcases (newNode_of_alloc hrun hp).only_node hx with ⟨m₀, hold⟩ | rfl
    · refine (h.cached (by omega) x m₀ hold hfree).mono hkept.side ?_
      rw [queueWord_eq hold, queueWord_eq (hkept.heap x _ hold)]
    · exact (hstep hi).2

/-- An insertion that takes `n` nodes gives a cache to each when there are answers for all of them. -/
theorem cbtreeInsert_cached {key : Words w} {val : Ptr w} {n : Nat} (hN : 0 < geo.noPairs)
    (hstock : Stocked s (9 * n) (s.pool.take n)) (hrun : cbtreeInsert geo key val s = .ok (0, s'))
    (hpool : s'.pool = s.pool.drop n) {m : Words w} (hx : s'.heap x = some (.node m)) (hfree : s.heap x = none) :
    HasCache geo s' x := by
  obtain ⟨i, h⟩ := (Supplied.stable geo n s).insert hN hrun ⟨0, Nat.zero_le _, rfl, fun _ => hstock,
    fun _ x m hx hfree => by
      rw [hfree] at hx
      cases hx⟩
  refine h.cached ?_ x m hx hfree
  have hlen := congrArg List.length (h.pool.symm.trans hpool)
  simp only [List.length_drop] at hlen
  have := h.le
  omega

section

variable {G : Labels w} {R R' : Rings w} {m r : Nat} {key : Words w}

/-- A node that is written to in slots only, or not at all, keeps its cache. -/
theorem Grew.hasCache {n : Words w} (h : Grew geo s s' R R') (hx : s.heap x = some (.node n))
    (hcache : HasCache geo s x) : HasCache geo s' x := by
  obtain ⟨-, n', hx', hsame⟩ := h.old x n hx
  apply hcache.mono h.side
  rw [queueWord_eq hx', queueWord_eq hx, hsame _ le_rfl]

theorem Warm.insert_hasCache {val : Ptr w} {err : Int} (hN : 4 ≤ geo.noPairs) (hm : 1 ≤ m)
    (hm' : m ≤ geo.noPairs / 2) (hr : 1 ≤ r) (hr' : r ≤ 2) (h : Warm geo m r s G R)
    (hcache : ∀ x, 1 ≤ (G x).lvl → HasCache geo s x)
    (hkeep : OutOfMemory geo key s ∨
      Stocked s (9 * nodesTaken geo key s) (s.pool.take (nodesTaken geo key s)))
    (hrun : cbtreeInsert geo key val s = .ok (err, s')) :
    ∃ G' R', Warm geo m r s' G' R' ∧ ∀ x, 1 ≤ (G' x).lvl → HasCache geo s' x := by
  obtain ⟨G', R', hwarm, hgrew, hres⟩ := h.insert hN hm hm' hr hr' hrun
  refine ⟨G', R', hwarm, fun x hx => ?_⟩
  by_cases hold : 1 ≤ (G x).lvl
  · obtain ⟨n, hn, -⟩ := h.tree.load hold
    exact hgrew.hasCache hn (hcache x hold)
  · -- the node is new, so the call has succeeded
    rcases hres with hrefused | ⟨leaf, hins, -⟩
    · rw [hrefused.lowered.lvl] at hx
      exact absurd hx hold
    · have hstock := hkeep.resolve_left hins.memory
      have hpool := hins.took.pool
      rw [(h.tree.routed_mem key hm hr).1] at hpool
      obtain ⟨n, hn, -⟩ := hwarm.tree.load hx
      have herr : err = 0 := hins.err_eq hN hm hm' hr hr' h.tree hrun
      rw [herr] at hrun
      exact cbtreeInsert_cached (by omega) hstock hrun hpool hn (hins.below.fresh x (by omega) hx).1

/-- A lookup leaves a ring of the same entries behind. -/
theorem Looked.hasCache {leaf : Ptr w} (h : Looked geo G key leaf s R s' R') (hC : Caches geo s R)
    (hcache : HasCache geo s x) : HasCache geo s' x := by
  obtain ⟨es, hring, hkeyed⟩ := hcache
  have hnode : ∃ n, s.heap x = some (.node n) := by
    by_contra hnone
    apply hring.queue.1
    unfold State.queueWord
    split
    next n hn => exact absurd ⟨n, hn⟩ hnone
    next => rfl
  obtain ⟨n, hn⟩ := hnode
  rw [queueWord_eq hn] at hring
  have hes : R x = es := (hC.cache x).symm.trans (hring.cache hn)
  -- the entries of `x` are those of before, turned and with other leaves
  have hparts := h.parts x
  rw [hes] at hparts
  obtain ⟨n', hn', hsame⟩ := h.write.node x n hn
  have hring' : Ring s' (n' geo.arrLen) (R' x) := by
    refine (h.caches.ring x n' hn').resolve_left ?_
    rintro ⟨-, hnil, -⟩
    rw [hnil] at hparts
    have hlen := hparts.length_eq
    rw [List.length_map, List.length_map, hring.length] at hlen
    cases hlen
  refine ⟨R' x, queueWord_eq hn' ▸ hring', fun e he => ?_⟩
  obtain ⟨e₀, he₀, hpart⟩ := List.mem_map.mp (hparts.mem_iff.mp (List.mem_map_of_mem he))
  have hkey : e₀.key = e.key := congrArg Prod.snd hpart
  exact hkey ▸ hkeyed e₀ he₀

end

/-! ## All runs -/

/-- The insertion runs out of nodes, or `kmalloc` has nine answers for each of the nodes it takes. -/
def KeepsCaches (geo : Geo) : Cmd w → State w → Prop
  | .insert key _, s => OutOfMemory geo key s ∨
      Stocked s (9 * nodesTaken geo key s) (s.pool.take (nodesTaken geo key s))
  | .lookup _, _ => True
  | .update _ _, _ | .remove _, _ => False

instance decidableKeepsCaches (geo : Geo) : ∀ (c : Cmd w) (s : State w), Decidable (KeepsCaches geo c s)
  | .insert _ _, _ => inferInstanceAs (Decidable (_ ∨ _))
  | .lookup _, _ => isTrue trivial
  | .update _ _, _ | .remove _, _ => isFalse id

/-- In every run of such calls that return all nodes of the tree have their caches. -/
theorem caches_of_calls (hN : 4 ≤ geo.noPairs) (h₀ : Blank s₀) (h : Run geo (KeepsCaches geo) s₀ s) :
    ∀ e ∈ nodes geo s, HasCache geo s e.2 := by
  obtain ⟨G, R, hwarm, hcache⟩ := h.keeps (I := fun s => ∃ G R, Warm geo (geo.noPairs / 2) 2 s G R ∧
      ∀ x, 1 ≤ (G x).lvl → HasCache geo s x) (fun c s s' hc hrun hs => by
    obtain ⟨G, R, hwarm, hcache⟩ := hs
    cases c with
    | insert key val =>
      obtain ⟨err, hrun⟩ := map_eq_ok.mp hrun
      exact hwarm.insert_hasCache hN (by omega) le_rfl (by omega) le_rfl hcache hc hrun
    | lookup key =>
      obtain ⟨ret, hrun⟩ := map_eq_ok.mp hrun
      obtain ⟨-, R', hwarm', hlooked, -⟩ := hwarm.lookup hrun
      exact ⟨G, R', hwarm', fun x hx => hlooked.hasCache hwarm.caches (hcache x hx)⟩
    | update | remove => exact hc.elim) ⟨_, _, h₀.warm, fun x hx => absurd hx (by simp [Labels.none])⟩
  rintro ⟨l, p⟩ hp
  obtain ⟨hl, hlvl⟩ := hwarm.tree.mem_nodes.mp hp
  exact hcache p (by omega)

/-- Three nodes and a lookup that writes into the cache of the root. -/
def wellSupplied : State 64 := Cmd.execAll Machine.x86_64.cbtree_geo64 (KeepsCaches Machine.x86_64.cbtree_geo64)
  (eightInserts ++ [.lookup (wordKey 3)]) (arena 4)

theorem caches_of_nine_calls :
    (nodes Machine.x86_64.cbtree_geo64 wellSupplied).map Prod.fst = [2, 1, 1] ∧
    (wellSupplied.cache Machine.x86_64.cbtree_geo64 0x3000#64).map Entry.node = [0#64, 0#64, 0#64, 0x1000#64] ∧
    ∀ e ∈ nodes Machine.x86_64.cbtree_geo64 wellSupplied, HasCache Machine.x86_64.cbtree_geo64 wellSupplied e.2 :=
  ⟨by decide +kernel, by decide +kernel,
    caches_of_calls (by decide) (arena_blank 4) (Cmd.run_execAll _ _ _ (arena 4))⟩

/-- `kmalloc` answers once, for the queue. -/
def oneAnswer : State 64 := { arena 1 with slab := (arena 1).slab.take 1 }

/-- The insertion returns 0 and the leaf has no queue. -/
theorem leaf_without_cache :
    ¬∀ s, Run Machine.x86_64.cbtree_geo64 InsertsLooksUp oneAnswer s →
      ∀ e ∈ nodes Machine.x86_64.cbtree_geo64 s, HasCache Machine.x86_64.cbtree_geo64 s e.2 := by
  intro hclaim
  have hcache := hclaim _
    (Cmd.run_execAll Machine.x86_64.cbtree_geo64 InsertsLooksUp [.insert (wordKey 5) 0x77#64] oneAnswer)
  have hnodes : nodes Machine.x86_64.cbtree_geo64
      (Cmd.execAll Machine.x86_64.cbtree_geo64 InsertsLooksUp [.insert (wordKey 5) 0x77#64] oneAnswer) =
        [(1, 0x1000#64)] := by
    decide +kernel
  obtain ⟨es, hring, -⟩ := hcache (1, 0x1000#64) (by rw [hnodes]; simp)
  apply hring.queue.1
  decide +kernel

end CachedBTree
