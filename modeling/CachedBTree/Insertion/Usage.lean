import CachedBTree.Insertion.Exhaustion
import CachedBTree.Insertion.Splits

/-! # What an allocation depends on

Whether a node can be allocated depends on the answers to come and on which addresses are in
use, not on what is there: `cbtree_node_alloc` writes to nothing but what it has allocated
itself.  So does whether an insertion runs out of memory, given the tree. -/

namespace CachedBTree

variable {w : Nat} {geo : Geo} {s s' t : State w} {p : Ptr w} {B : Ptr w → Prop}

/-- The same answers to come and the same addresses in use. -/
structure SameUse (s t : State w) : Prop where
  pool : t.pool = s.pool
  slab : t.slab = s.slab
  use : ∀ x, t.heap x = none ↔ s.heap x = none

theorem SameUse.symm (h : SameUse s t) : SameUse t s := ⟨h.pool.symm, h.slab.symm, fun x => (h.use x).symm⟩

theorem SameUse.trans {u : State w} (h : SameUse s t) (h' : SameUse t u) : SameUse s u :=
  ⟨h'.pool.trans h.pool, h'.slab.trans h.slab, fun x => (h'.use x).trans (h.use x)⟩

/-! ## One call in two memories -/

/-- The same call in two memories, where `B` was in use when it began: outside of `B` they agree. -/
structure Twin (B : Ptr w → Prop) (s t : State w) : Prop where
  pool : t.pool = s.pool
  slab : t.slab = s.slab
  own : ∀ x, ¬B x → t.heap x = s.heap x
  old : ∀ x, B x → s.heap x ≠ none ∧ t.heap x ≠ none

/-- The addresses `E` are entries that the call has made, and lead to no others. -/
def MadeEntries (B E : Ptr w → Prop) (s : State w) : Prop :=
  ∀ x, E x → ¬B x ∧ ∃ c key next, s.heap x = some (.entry c key next) ∧ (next = 0#w ∨ E next)

/-- A new object leaves the entries alone. -/
theorem MadeEntries.alloc {E : Ptr w → Prop} {o : Obj w} (h : MadeEntries B E s) (hp : s.heap p = none)
    (hs' : ∀ x, s'.heap x = if x = p then some o else s.heap x) : MadeEntries B E s' := by
  intro x hx
  obtain ⟨hB, c, key, next, hobj, hnext⟩ := h x hx
  refine ⟨hB, c, key, next, ?_, hnext⟩
  rw [hs', if_neg, hobj]
  rintro rfl
  rw [hp] at hobj
  cases hobj

theorem MadeEntries.setWord {E : Ptr w → Prop} {i : Nat} {v : Word w} (h : MadeEntries B E s)
    (hv : i = 2 → v = 0#w ∨ E v) (hrun : s.setWord p i v = .ok s') : MadeEntries B E s' := by
  obtain ⟨-, o, o', hobj, hset, rfl⟩ := State.setWord_eq_ok.mp hrun
  intro x hx
  obtain ⟨hB, c, key, next, hentry, hnext⟩ := h x hx
  refine ⟨hB, ?_⟩
  rw [State.setObj_heap]
  split
  next hxp =>
    subst hxp
    rw [hentry] at hobj
    cases hobj
    match i, hv, hset with
    | 0, _, hset | 1, _, hset =>
      cases hset
      exact ⟨_, _, next, rfl, hnext⟩
    | 2, hv, hset =>
      cases hset
      exact ⟨_, _, v, rfl, hv rfl⟩
  next => exact ⟨c, key, next, hentry, hnext⟩

namespace Twin

variable {E : Ptr w → Prop}

theorem use (h : Twin B s t) (x : Ptr w) : t.heap x = none ↔ s.heap x = none := by
  by_cases hx : B x
  · exact iff_of_false (h.old x hx).2 (h.old x hx).1
  · rw [h.own x hx]

theorem inUse (h : Twin B s t) (x : Ptr w) : t.inUse x = s.inUse x := by
  have huse := h.use x
  unfold State.inUse
  cases hs : s.heap x <;> cases ht : t.heap x <;> simp_all

/-- A write to an object outside of `B`. -/
theorem setObj (h : Twin B s t) (hp : ¬B p) (o : Option (Obj w)) : Twin B (s.setObj p o) (t.setObj p o) where
  pool := h.pool
  slab := h.slab
  own x hx := by rw [State.setObj_heap, State.setObj_heap, h.own x hx]
  old x hx := by
    have hxp : x ≠ p := by
      rintro rfl
      exact hp hx
    rw [State.setObj_heap, State.setObj_heap, if_neg hxp, if_neg hxp]
    exact h.old x hx

theorem word (h : Twin B s t) (hp : ¬B p) (i : Nat) : t.word p i = s.word p i := by
  unfold State.word
  rw [h.own p hp]

theorem setWord {i : Nat} {v : Word w} (h : Twin B s t) (hp : p = 0#w ∨ ¬B p)
    (hrun : s.setWord p i v = .ok s') : ∃ t', t.setWord p i v = .ok t' ∧ Twin B s' t' := by
  obtain ⟨hne, o, o', hobj, hset, rfl⟩ := State.setWord_eq_ok.mp hrun
  have hpB := hp.resolve_left hne
  exact ⟨_, State.setWord_eq_ok.mpr ⟨hne, o, o', (h.own p hpB).trans hobj, hset, rfl⟩, h.setObj hpB _⟩

theorem kmalloc (h : Twin B s t) (mk : Words w → Obj w) : ∃ p s' t', s.kmalloc mk = (p, s') ∧
    t.kmalloc mk = (p, t') ∧ Twin B s' t' ∧ (p = 0#w ∧ s'.heap = s.heap ∨ p ≠ 0#w ∧ ¬B p ∧ s.heap p = none ∧
      ∃ junk, ∀ x, s'.heap x = if x = p then some (mk junk) else s.heap x) := by
  unfold State.kmalloc
  rw [h.slab]
  cases hslab : s.slab with
  | nil => exact ⟨_, _, _, rfl, rfl, ⟨h.pool, rfl, h.own, h.old⟩, .inl ⟨rfl, rfl⟩⟩
  | cons a rest =>
    obtain ⟨p, junk⟩ := a
    simp only [h.inUse]
    by_cases hp : p = 0#w ∨ s.inUse p = true
    · rw [if_pos hp, if_pos hp]
      exact ⟨_, _, _, rfl, rfl, ⟨h.pool, rfl, h.own, h.old⟩, .inl ⟨rfl, rfl⟩⟩
    · rw [if_neg hp, if_neg hp]
      have hfree : s.heap p = none := by simpa [State.inUse] using (not_or.mp hp).2
      have hpB : ¬B p := fun hB => (h.old p hB).1 hfree
      have hrest : Twin B { s with slab := rest } { t with slab := rest } := ⟨h.pool, rfl, h.own, h.old⟩
      exact ⟨p, _, _, rfl, rfl, hrest.setObj hpB _, .inr ⟨(not_or.mp hp).1, hpB, hfree, junk,
        fun x => State.setObj_heap _⟩⟩

/-- The clean-up meets nothing but entries of `s₁`; it does not return when it meets one twice. -/
theorem freeEntries {s₁ : State w} (hE : MadeEntries B E s₁) : ∀ {d : Nat} {p : Ptr w} {s t s' : State w}, Twin B s t →
    (∀ x o, E x → s.heap x = some o → s₁.heap x = some o) → p = 0#w ∨ E p →
    CachedBTree.freeEntries d p s = .ok s' → ∃ t', CachedBTree.freeEntries d p t = .ok t' ∧ Twin B s' t'
  | 0, p, s, t, s', h, _, _, hrun => by
    rcases ite_eq_ok.mp hrun with ⟨hzero, hrun⟩ | ⟨-, hrun⟩
    · cases hrun
      exact ⟨t, if_pos hzero, h⟩
    · cases hrun
  | d + 1, p, s, t, s', h, hsub, hp, hrun => by
    rcases ite_eq_ok.mp hrun with ⟨hzero, hrun⟩ | ⟨hne, hrun⟩
    · cases hrun
      exact ⟨t, if_pos hzero, h⟩
    · obtain ⟨temp, hword, hrun⟩ := bind_eq_ok.mp hrun
      obtain ⟨s₂, hfree, hrun⟩ := bind_eq_ok.mp hrun
      have hpE := hp.resolve_left hne
      obtain ⟨hpB, c, key, next, hentry, hnext⟩ := hE p hpE
      obtain ⟨-, o, hobj, hval⟩ := State.word_eq_ok.mp hword
      have ho : o = .entry c key next := Option.some.inj ((hsub p o hpE hobj).symm.trans hentry)
      rw [ho] at hobj hval
      cases hval
      rcases State.free_eq_ok.mp hfree with ⟨hzero, -⟩ | ⟨-, hlive, rfl⟩
      · exact absurd hzero hne
      have hfree' : t.free p = .ok (t.setObj p none) :=
        State.free_eq_ok.mpr (.inr ⟨hne, by rwa [h.own p hpB], rfl⟩)
      obtain ⟨t', hrun', h'⟩ := freeEntries hE (h.setObj hpB none) (fun x o hx hobj => by
        rw [State.setObj_heap] at hobj
        split at hobj
        next => cases hobj
        next => exact hsub x o hx hobj) hnext hrun
      exact ⟨t', by simp only [CachedBTree.freeEntries, if_neg hne, h.word hpB, hword, hfree', ok_bind, hrun'], h'⟩

/-- The entries that the loop returns are its own. -/
theorem initQueueLoop : ∀ {d : Nat} {E : Ptr w → Prop} {first previous : Ptr w} {s t s' : State w}
    {ends : Option (Ptr w × Ptr w)}, Twin B s t → MadeEntries B E s → first = 0#w ∨ E first →
    previous = 0#w ∨ E previous → CachedBTree.initQueueLoop first previous d s = .ok (ends, s') →
    ∃ t', CachedBTree.initQueueLoop first previous d t = .ok (ends, t') ∧ Twin B s' t' ∧
      ∀ a b, ends = some (a, b) → b = 0#w ∨ ¬B b
  | 0, E, first, previous, s, t, s', ends, h, hE, hfirst, hprev, hrun => by
    cases hrun
    refine ⟨t, rfl, h, ?_⟩
    rintro a b heq
    cases heq
    exact hprev.imp_right fun hp => (hE _ hp).1
  | d + 1, E, first, previous, s, t, s', ends, h, hE, hfirst, hprev, hrun => by
    rw [CachedBTree.initQueueLoop] at hrun ⊢
    obtain ⟨curr, s₁, t₁, hentry, hentry', h₁, hcurr⟩ := h.kmalloc fun _ => .entry 0#w 0#w 0#w
    simp only [hentry, hentry'] at hrun ⊢
    rcases hcurr with ⟨hzero, hheap⟩ | ⟨hne, hcB, hcfree, -, hheap⟩
    · simp only [if_pos hzero] at hrun ⊢
      obtain ⟨s₂, hfree, hrun⟩ := bind_eq_ok.mp hrun
      cases hrun
      obtain ⟨t₂, hfree', h₂⟩ := freeEntries hE h₁ (fun x o _ hx => by rwa [hheap] at hx) hfirst hfree
      exact ⟨t₂, by rw [hfree']; rfl, h₂, by simp⟩
    · -- one more entry, and its key buffer
      have hE₁ : MadeEntries B (fun x => E x ∨ x = curr) s₁ := by
        rintro x (hx | rfl)
        · obtain ⟨hB, c, key, next, hobj, hnext⟩ := hE.alloc hcfree hheap x hx
          exact ⟨hB, c, key, next, hobj, hnext.imp_right .inl⟩
        · exact ⟨hcB, 0#w, 0#w, 0#w, by rw [hheap, if_pos rfl], .inl rfl⟩
      obtain ⟨key, s₂, t₂, hkey, hkey', h₂, hbuf⟩ := h₁.kmalloc .buf
      have hE₂ : MadeEntries B (fun x => E x ∨ x = curr) s₂ := by
        rcases hbuf with ⟨-, hheap₂⟩ | ⟨-, -, hkfree, junk, hheap₂⟩
        · intro x hx
          rw [hheap₂]
          exact hE₁ x hx
        · exact hE₁.alloc hkfree hheap₂
      simp only [hkey, hkey', if_neg hne] at hrun ⊢
      obtain ⟨s₃, hset, hrun⟩ := bind_eq_ok.mp hrun
      obtain ⟨t₃, hset', h₃⟩ := h₂.setWord (.inr hcB) hset
      have hE₃ := hE₂.setWord (by simp) hset
      rw [hset', ok_bind]
      rcases ite_eq_ok.mp hrun with ⟨hzero, hrun⟩ | ⟨hfne, hrun⟩
      · rw [if_pos hzero]
        exact h₃.initQueueLoop hE₃ (.inr (.inr rfl)) (.inr (.inr rfl)) hrun
      · obtain ⟨s₄, hlink, hrun⟩ := bind_eq_ok.mp hrun
        obtain ⟨t₄, hlink', h₄⟩ := h₃.setWord (hprev.imp_right fun hp => (hE _ hp).1) hlink
        rw [if_neg hfne, hlink', ok_bind]
        exact h₄.initQueueLoop (hE₃.setWord (fun _ => .inr (.inr rfl)) hlink) (hfirst.imp_right .inl)
          (.inr (.inr rfl)) hrun

theorem initQueue {off : Nat} (h : Twin B s t) (hp : ¬B p) (hrun : CachedBTree.initQueue p off s = .ok s') :
    ∃ t', CachedBTree.initQueue p off t = .ok t' ∧ Twin B s' t' := by
  unfold CachedBTree.initQueue at hrun ⊢
  obtain ⟨q, s₁, t₁, hqueue, hqueue', h₁, hq⟩ := h.kmalloc fun _ => .queue 0#w
  simp only [hqueue, hqueue'] at hrun ⊢
  obtain ⟨⟨ends, s₂⟩, hloop, hrun⟩ := bind_eq_ok.mp hrun
  obtain ⟨t₂, hloop', h₂, hends⟩ := h₁.initQueueLoop (E := fun _ => False) (fun _ hx => hx.elim) (.inl rfl)
    (.inl rfl) hloop
  rw [hloop', ok_bind]
  cases ends with
  | none =>
    cases hrun
    exact ⟨t₂, rfl, h₂⟩
  | some ends =>
    obtain ⟨first, curr⟩ := ends
    obtain ⟨s₃, hring, hrun⟩ := bind_eq_ok.mp hrun
    obtain ⟨s₄, hhead, hrun⟩ := bind_eq_ok.mp hrun
    obtain ⟨t₃, hring', h₃⟩ := h₂.setWord (hends first curr rfl) hring
    obtain ⟨t₄, hhead', h₄⟩ := h₃.setWord (hq.imp And.left fun hq => hq.2.1) hhead
    obtain ⟨t₅, hrun', h₅⟩ := h₄.setWord (.inr hp) hrun
    exact ⟨t₅, by simp only [hring', hhead', hrun', ok_bind], h₅⟩

end Twin

/-! ## The allocation of a node -/

theorem SameUse.twin (h : SameUse s t) : Twin (fun x => s.heap x ≠ none) s t where
  pool := h.pool
  slab := h.slab
  own x hx := by
    have hnone : s.heap x = none := by simpa using hx
    rw [hnone, (h.use x).mpr hnone]
  old x hx := ⟨hx, fun hnone => hx ((h.use x).mp hnone)⟩

theorem Twin.sameUse (h : Twin B s t) : SameUse s t := ⟨h.pool, h.slab, h.use⟩

theorem SameUse.nodeAlloc (h : SameUse s t) (hrun : cbtreeNodeAlloc geo s = .ok (p, s')) :
    ∃ t', cbtreeNodeAlloc geo t = .ok (p, t') ∧ SameUse s' t' := by
  unfold cbtreeNodeAlloc State.mempoolAlloc at hrun ⊢
  rw [h.pool]
  have hinUse : ∀ x, t.inUse x = s.inUse x := h.twin.inUse
  cases hpool : s.pool with
  | nil =>
    simp only [hpool, if_true] at hrun ⊢
    cases hrun
    exact ⟨t, rfl, h⟩
  | cons q rest =>
    simp only [hpool, hinUse] at hrun ⊢
    by_cases hq : q = 0#w ∨ s.inUse q = true
    · simp only [if_pos hq, if_true] at hrun ⊢
      cases hrun
      exact ⟨_, rfl, rfl, h.slab, h.use⟩
    · simp only [if_neg hq, if_neg (not_or.mp hq).1] at hrun ⊢
      obtain ⟨s₁, hinit, hrun⟩ := bind_eq_ok.mp hrun
      cases hrun
      have hfree : s.heap p = none := by simpa [State.inUse] using (not_or.mp hq).2
      have htwin : Twin (fun x => s.heap x ≠ none) { s with pool := rest } { t with pool := rest } :=
        ⟨rfl, h.slab, h.twin.own, h.twin.old⟩
      obtain ⟨t₁, hinit', h₁⟩ := ((htwin.setObj (by simpa using hfree) _).setObj (by simpa using hfree) _).initQueue
        (by simpa using hfree) hinit
      exact ⟨t₁, by rw [State.setNode, State.setNode, hinit', ok_bind], h₁.sameUse⟩

theorem starved_congr : ∀ {n : Nat} {s t : State w}, SameUse s t → Starved geo n s → Starved geo n t
  | 0, _, _, _, h => h
  | n + 1, s, t, huse, h => by
    obtain ⟨p, s', hrun, hor⟩ := h
    obtain ⟨t', hrun', huse'⟩ := huse.nodeAlloc hrun
    exact ⟨p, t', hrun', hor.imp_right (starved_congr huse')⟩

/-! ## The demand of an insertion -/

theorem outOfMemory_iff (key : Words w) (hroute : s.height = 0 → routed geo key s = s) :
    OutOfMemory geo key s ↔ Starved geo (nodesTaken geo key s) (routed geo key s) := by
  unfold OutOfMemory nodesTaken
  by_cases hh : s.height = 0
  · rw [if_pos hh, if_pos hh, hroute hh]
  · rw [if_neg hh, if_neg hh]
    by_cases hfull : fullAt geo key 1 (routed geo key s) = true
    · rw [if_pos hfull, and_iff_right hfull]
    · rw [if_neg hfull]
      exact iff_of_false (fun h => hfull h.1) id

/-- The child that a page leads to. -/
def Page.route (k : Nat) (l : Page w) : Ptr w :=
  match l.find? fun e => decide (e.1 ≤ k) with
  | some e => e.2
  | none => (l.getLast?.map Prod.snd).getD 0#w

section

variable {G : Labels w} {m r : Nat} {key key' : Words w}

theorem Tree.routeChild_eq (key : Words w) (h : Tree geo m r 1 s G) (hm : 1 ≤ m) (hr : 1 ≤ r)
    (hp : 2 ≤ (G p).lvl) : s.routeChild geo key p = (G p).page.route (keyNum geo key) := by
  obtain ⟨n, l₁, k, c, l₂, -, -, hpage, hchild, hcases⟩ := h.route_cases key hm hr hp
  rw [hchild, hpage, Page.route]
  rcases hcases with ⟨hle, hall, -⟩ | ⟨rfl, hlt, hall, -⟩
  · rw [List.find?_append, List.find?_eq_none.mpr fun e he => by simpa using hall e he,
      List.find?_cons_of_pos (by simpa using hle)]
    rfl
  · rw [List.find?_eq_none.mpr fun e he => ?_]
    · simp
    · cases List.mem_append.mp he with
      | inl hmem =>
        simpa using hall e hmem
      | inr hmem =>
        rw [List.mem_singleton.mp hmem]
        simpa using hlt

/-- The leaf that a key leads to does not depend on more than the tree. -/
theorem Tree.pathEnd_congr (hs : Tree geo m r 1 s G) (ht : Tree geo m r 1 t G) (hm : 1 ≤ m) (hr : 1 ≤ r)
    (hkey : keyNum geo key' = keyNum geo key) : ∀ {d : Nat} {p : Ptr w}, (G p).lvl = d + 1 →
    pathEnd geo key' t d p = pathEnd geo key s d p := by
  intro d
  induction d with
  | zero =>
    intro _ _
    exact rfl
  | succ d ih =>
    intro p hp
    have hchild : t.routeChild geo key' p = s.routeChild geo key p := by
      rw [hs.routeChild_eq key hm hr (by omega), ht.routeChild_eq key' hm hr (by omega), hkey]
    have hlvl := hs.routeChild_lvl key hm hr (p := p) (by omega)
    rw [pathEnd, pathEnd, hchild]
    exact ih (by omega)

theorem Tree.leafOf_congr (hs : Tree geo m r 1 s G) (ht : Tree geo m r 1 t G) (hm : 1 ≤ m) (hr : 1 ≤ r)
    (hkey : keyNum geo key' = keyNum geo key) (hhead : t.toHead = s.toHead) (hh : 1 ≤ s.height) :
    leafOf geo key' t = leafOf geo key s := by
  have hroot := hs.root_lvl hh
  unfold leafOf
  rw [congrArg Head.height hhead, congrArg Head.node hhead]
  exact hs.pathEnd_congr ht hm hr hkey (by omega)

/-- What the search finds, for any key of a caller. -/
theorem Tree.routed_leaf (key : Words w) (h : Tree geo m r 1 s G) (hm : 1 ≤ m) (hr : 1 ≤ r) (hh : 1 ≤ s.height) :
    ∃ G', findLevel geo (.buf key) 1 s = .ok (leafOf geo key s, routed geo key s) ∧
      Routed geo m r 1 (keyNum geo key) s G (leafOf geo key s) (routed geo key s) G' ∧
      SameUse s (routed geo key s) := by
  obtain ⟨q, s₁, G', hfind, hrouted⟩ := h.findLevel_route key hm hr le_rfl hh
  obtain ⟨hq, hheap⟩ := h.findLevel_path hm hr le_rfl hh hfind
  have hleaf : q = leafOf geo key s := hq
  rw [hleaf] at hfind hrouted
  rw [routed_of_find hfind]
  refine ⟨G', hfind, hrouted, ?_, ?_, fun x => ?_⟩
  · rw [hrouted.mem]
  · rw [hrouted.mem]
  · rw [hheap]
    split
    · simp
    · exact Iff.rfl

theorem Tree.nodesTaken_eq (key : Words w) (h : Tree geo m r 1 s G) (hm : 1 ≤ m) (hr : 1 ≤ r) (hh : 1 ≤ s.height) :
    nodesTaken geo key s = if (G (leafOf geo key s)).page.length = geo.noPairs then
      G.needed geo (s.height - 1) (leafOf geo key s) + 1 else 0 := by
  obtain ⟨G', hfind, hrouted, -⟩ := h.routed_leaf key hm hr hh
  have hlen : ∀ x, (G' x).page.length = (G x).page.length := fun x => congrFun hrouted.lowered.size x
  rw [hrouted.nodesTaken_eq key hh hfind, hlen, needed_congr hrouted.lowered.par hlen]

/-- Whether an insertion runs out of memory depends on the tree, the key, the answers to come and the
addresses in use. -/
theorem Tree.outOfMemory_congr (hs : Tree geo m r 1 s G) (ht : Tree geo m r 1 t G) (hm : 1 ≤ m) (hr : 1 ≤ r)
    (hkey : keyNum geo key' = keyNum geo key) (hhead : t.toHead = s.toHead) (huse : SameUse s t)
    (hmem : OutOfMemory geo key s) : OutOfMemory geo key' t := by
  rw [outOfMemory_iff key' fun hh => ht.routed_empty key' hh]
  rw [outOfMemory_iff key fun hh => hs.routed_empty key hh] at hmem
  have hheight : t.height = s.height := congrArg Head.height hhead
  by_cases hh : s.height = 0
  · rw [hs.routed_empty key hh, nodesTaken, if_pos hh] at hmem
    rw [ht.routed_empty key' (hheight.trans hh), nodesTaken, if_pos (hheight.trans hh)]
    exact starved_congr huse hmem
  · have hh : 1 ≤ s.height := by omega
    have htaken : nodesTaken geo key' t = nodesTaken geo key s := by
      rw [hs.nodesTaken_eq key hm hr hh, ht.nodesTaken_eq key' hm hr (by omega),
        hs.leafOf_congr ht hm hr hkey hhead hh, hheight]
    obtain ⟨-, -, -, huses⟩ := hs.routed_leaf key hm hr hh
    obtain ⟨-, -, -, huset⟩ := ht.routed_leaf key' hm hr (by omega)
    rw [htaken]
    exact starved_congr (huses.symm.trans (huse.trans huset)) hmem

end

end CachedBTree
