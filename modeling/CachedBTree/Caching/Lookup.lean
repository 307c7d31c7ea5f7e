import CachedBTree.Caching.Operations
import CachedBTree.Descent

/-! # A lookup

What `cbtree_lookup_node` returns, read off the memory before the call: the first answer of
a cache on the way down, or else what the descent by the separators ends at.  The call
changes nothing but caches, and the entries it writes name what it returns. -/

namespace CachedBTree

open CachedBTree.Support

variable {w : Nat} {geo : Geo} {s s' s'' : State w} {p q leaf x : Ptr w} {R R' R'' : Rings w}
  {key : Words w} {G : Labels w} {m r : Nat}

/-! ## The search, without its effects -/

/-- `d` entries, the first one at `p`. -/
def State.entriesFrom (s : State w) : Nat → Ptr w → List (Entry w)
  | 0, _ => []
  | d + 1, p =>
    match s.heap p with
    | some (.entry node key next) => ⟨p, node, key⟩ :: s.entriesFrom d next
    | _ => []

/-- The entries of the queue of `p`. -/
def State.cache (geo : Geo) (s : State w) (p : Ptr w) : List (Entry w) :=
  match s.heap p with
  | some (.node n) =>
    if n geo.arrLen = 0#w then []
    else match s.heap (n geo.arrLen) with
      | some (.queue head) => s.entriesFrom 4 head
      | _ => []
  | _ => []

/-- The answer of the cache of `p`, `NULL` when there is none. -/
def cacheHit (geo : Geo) (key : Words w) (s : State w) (p : Ptr w) : Ptr w :=
  firstAnswer geo s key (s.cache geo p)

/-- Where the separators of `p` lead, `NULL` when the key is below them all. -/
def stepDown (geo : Geo) (key : Words w) (s : State w) (p : Ptr w) : Ptr w :=
  match s.heap p with
  | some (.node n) => if getpos geo n key = geo.noPairs then 0#w else bval geo n (getpos geo n key)
  | _ => 0#w

/-- The descent by the separators alone: the leaf when one of its slots has the key. -/
def plainLeaf (geo : Geo) (key : Words w) (s : State w) : Nat → Ptr w → Ptr w
  | 0, _ => 0#w
  | 1, p =>
    match s.heap p with
    | some (.node n) => if findSlot geo n key < geo.noPairs then p else 0#w
    | _ => 0#w
  | height + 2, p =>
    if stepDown geo key s p = 0#w then 0#w
    else plainLeaf geo key s (height + 1) (stepDown geo key s p)

/-- The first answer of a cache on the way down. -/
def pathHit (geo : Geo) (key : Words w) (s : State w) : Nat → Ptr w → Ptr w
  | height + 2, p =>
    if cacheHit geo key s p ≠ 0#w then cacheHit geo key s p
    else if stepDown geo key s p = 0#w then 0#w
    else pathHit geo key s (height + 1) (stepDown geo key s p)
  | _, _ => 0#w

def answer (geo : Geo) (key : Words w) (s : State w) (height : Nat) (p : Ptr w) : Ptr w :=
  if pathHit geo key s height p ≠ 0#w then pathHit geo key s height p
  else plainLeaf geo key s height p

theorem answer_one : answer geo key s 1 p = plainLeaf geo key s 1 p := by simp [answer, pathHit]

theorem answer_succ (geo : Geo) (key : Words w) (s : State w) (p : Ptr w) (height : Nat) :
    answer geo key s (height + 2) p =
    if cacheHit geo key s p ≠ 0#w then cacheHit geo key s p
    else if stepDown geo key s p = 0#w then 0#w
    else answer geo key s (height + 1) (stepDown geo key s p) := by
  by_cases hhit : cacheHit geo key s p = 0#w
  · by_cases hdown : stepDown geo key s p = 0#w
    · simp [answer, pathHit, plainLeaf, hhit, hdown]
    · simp [answer, pathHit, plainLeaf, hhit, hdown]
  · simp [answer, pathHit, hhit]

/-- The inner nodes that a search passes with no answer from their caches. -/
def missPath (geo : Geo) (key : Words w) (s : State w) : Nat → Ptr w → List (Ptr w)
  | height + 2, p =>
    if cacheHit geo key s p ≠ 0#w then []
    else p :: if stepDown geo key s p = 0#w then []
      else missPath geo key s (height + 1) (stepDown geo key s p)
  | _, _ => []

/-- What a search needs is there: every node it looks into has its queue, and the entry it is going to
write over has its key buffer. -/
def lookupReady (geo : Geo) (key : Words w) (s : State w) : Nat → Ptr w → Bool
  | height + 2, p =>
    !(s.cache geo p).isEmpty && (decide (cacheHit geo key s p ≠ 0#w) || decide (stepDown geo key s p = 0#w) ||
      (lookupReady geo key s (height + 1) (stepDown geo key s p) &&
        (decide (answer geo key s (height + 2) p = 0#w) ||
          ((s.cache geo p).rotate 1).head?.all fun e => decide (e.key ≠ 0#w))))
  | _, _ => true

/-- The entries of a queue that a search has passed: the first two have changed places, and when it
has found `leaf` the new first one has been written over and is the last one now. -/
def passedRing (leaf : Ptr w) (es : List (Entry w)) : List (Entry w) :=
  if leaf = 0#w then es.rotate 1
  else match es.rotate 1 with
    | [] => []
    | e :: es => es ++ [⟨e.addr, leaf, e.key⟩]

theorem Linked.entriesFrom {last : Ptr w} : ∀ {es : List (Entry w)}, Linked s last es →
    s.entriesFrom es.length (firstAddr last es) = es
  | [], _ => rfl
  | e :: es, h => by
    have hrec := h.2.entriesFrom
    simp only [List.length_cons, State.entriesFrom, firstAddr_cons, h.1, hrec]

/-- The entries of a node are its ring. -/
theorem Ring.cache {n : Words w} {es : List (Entry w)} (h : Ring s (n geo.arrLen) es)
    (hp : s.heap p = some (.node n)) : s.cache geo p = es := by
  simp only [State.cache, hp, if_neg h.queue.1, h.queue.2]
  have hfrom := h.linked.entriesFrom
  rw [h.length] at hfrom
  obtain ⟨e, es, rfl⟩ := List.exists_cons_of_ne_nil h.ne_nil
  exact hfrom

/-- The entries are what the queues in memory hold. -/
theorem Caches.cache (h : Caches geo s R) (p : Ptr w) : s.cache geo p = R p := by
  by_cases hnode : ∃ n, s.heap p = some (.node n)
  · obtain ⟨n, hn⟩ := hnode
    rcases h.ring p n hn with ⟨hzero, hnil, -⟩ | hring
    · simp only [State.cache, hn, if_pos hzero, hnil]
    · exact hring.cache hn
  · have hnil : R p = [] := by
      by_contra hne
      exact hnode (h.node p hne)
    rw [hnil, State.cache]
    split
    next n hn => exact absurd ⟨n, hn⟩ hnode
    next => rfl

theorem firstAnswer_mem {es : List (Entry w)} (h : firstAnswer geo s key es ≠ 0#w) :
    ∃ e ∈ es, e.node = firstAnswer geo s key es := by
  unfold firstAnswer at h ⊢
  split at h
  next e he => exact ⟨e, List.mem_of_find?_eq_some he, rfl⟩
  next => exact absurd rfl h

theorem firstAnswer_congr {es : List (Entry w)}
    (h : ∀ e ∈ es, answers geo s' key e = answers geo s key e) :
    firstAnswer geo s' key es = firstAnswer geo s key es := by
  have hfind : es.find? (answers geo s' key) = es.find? (answers geo s key) := by
    induction es with
    | nil => rfl
    | cons e es ih =>
      rw [List.find?_cons, List.find?_cons, h e (by simp), ih fun a ha => h a (by simp [ha])]
  unfold firstAnswer
  rw [hfind]

/-- The separators lead to a child. -/
theorem Tree.stepDown_child (key : Words w) (h : Tree geo m r 1 s G) {l : Nat} (hp : (G p).lvl = l + 2)
    (hne : stepDown geo key s p ≠ 0#w) : (G (stepDown geo key s p)).lvl = l + 1 := by
  obtain ⟨n, hn, -, hholds⟩ := h.load (p := p) (by omega)
  have hdown : stepDown geo key s p =
      if getpos geo n key = geo.noPairs then 0#w else bval geo n (getpos geo n key) := by
    simp only [stepDown, hn]
  rw [hdown] at hne ⊢
  by_cases hend : getpos geo n key = geo.noPairs
  · rw [if_pos hend] at hne
    exact absurd rfl hne
  · rw [if_neg hend] at hne ⊢
    have hle := scan_le (fun i => decide (keycmp geo n i key ≤ 0)) 0 geo.noPairs
    have hlt : getpos geo n key < geo.noPairs := by
      unfold getpos at hend ⊢
      omega
    have hlen : getpos geo n key < (G p).page.length := by
      by_contra hge
      exact hne (congrArg Prod.snd (hholds.slot_end (by omega) hlt))
    have := (h.child_of_mem (p := p) (by omega) (by omega) (hholds.slot_mem hlen)).1
    rw [hp] at this
    exact Nat.add_right_cancel this

/-! ## What a lookup leaves -/

/-- The entries of `s'` that hold something are old ones, or name `leaf` with the key. -/
structure Looked (geo : Geo) (G : Labels w) (key : Words w) (leaf : Ptr w) (s : State w) (R : Rings w)
    (s' : State w) (R' : Rings w) : Prop where
  write : CacheWrite geo s s'
  caches : Caches geo s' R'
  counted : Counted geo s R → Counted geo s' R'
  entries : ∀ x, ∀ e' ∈ R' x, e'.node ≠ 0#w →
    (∃ e ∈ R x, e.node = e'.node ∧ s'.keyBuf e'.key = s.keyBuf e.key) ∨
    (2 ≤ (G x).lvl ∧ e'.node = leaf ∧ ∀ j, j < geo.keylen → s'.keyBuf e'.key j = key j)
  parts : ∀ x, ((R' x).map Entry.parts).Perm ((R x).map Entry.parts)
  side : ∀ x o, s.heap x = some o → (∀ n, o ≠ .node n) → (∀ p, ¬Owns geo s R p x) → s'.heap x = some o

namespace Looked

/-- A lookup takes nothing from a queue. -/
theorem owns_iff (h : Looked geo G key leaf s R s' R') : Owns geo s' R' p x ↔ Owns geo s R p x :=
  h.write.owns_iff (h.parts p)

theorem refl (h : Caches geo s R) : Looked geo G key leaf s R s R :=
  ⟨CacheWrite.refl geo s, h, id, fun _ e he _ => .inl ⟨e, he, rfl, rfl⟩, fun _ => .refl _,
    fun _ _ hx _ _ => hx⟩

theorem trans (h : Looked geo G key leaf s R s' R') (h' : Looked geo G key leaf s' R' s'' R'') :
    Looked geo G key leaf s R s'' R'' where
  write := h.write.trans h'.write
  caches := h'.caches
  counted hc := h'.counted (h.counted hc)
  entries x e'' he'' hne := by
    rcases h'.entries x e'' he'' hne with ⟨e', he', hnode, hbuf⟩ | hnew
    · rcases h.entries x e' he' (by rwa [hnode]) with ⟨e, he, hnode', hbuf'⟩ | ⟨hx, hleaf, hkey⟩
      · exact .inl ⟨e, he, hnode'.trans hnode, hbuf.trans hbuf'⟩
      · exact .inr ⟨hx, hnode ▸ hleaf, fun j hj => by rw [hbuf]; exact hkey j hj⟩
    · exact .inr hnew
  parts x := (h'.parts x).trans (h.parts x)
  side x o hx ho hnot := h'.side x o (h.side x o hx ho hnot) ho fun p hown => hnot p (h.owns_iff.mp hown)

/-- A queue has been turned. -/
theorem of_turned (h : Caches geo s R) (ht : Turned geo s R p s') :
    Looked geo G key leaf s R s' (Function.update R p ((R p).rotate 1)) := by
  have hmem : ∀ {x e}, e ∈ Function.update R p ((R p).rotate 1) x → e ∈ R x := by
    intro x e he
    by_cases hxp : x = p
    · rw [hxp, Function.update_self, List.mem_rotate] at he
      rwa [hxp]
    · rwa [Function.update_of_ne hxp] at he
  refine ⟨ht.write, ht.caches, fun hcount x n' hx => ?_, fun x e he hne => .inl ⟨e, hmem he, rfl, ?_⟩,
    fun x => ?_, fun x o hx _ hnot => (ht.side x (hnot p)).trans hx⟩
  · obtain ⟨n, hn⟩ := ht.write.back x n' hx
    rw [ht.same x (by simp [hn]), hn] at hx
    cases hx
    rw [hcount x _ hn]
    congr 1
    refine (tally_congr fun y => ?_).symm
    by_cases hyp : y = p
    · rw [hyp, Function.update_self]
      exact (List.rotate_perm (R p) 1).countP_eq _
    · rw [Function.update_of_ne hyp]
  · obtain ⟨n, -, hring, -⟩ := h.owns (p := x) (.inr ⟨e, hmem he, .inl rfl⟩)
    obtain ⟨-, ws, hbuf⟩ := (hring.key e (hmem he)).resolve_left fun hz => hne hz.2
    have hsame : s'.heap e.key = s.heap e.key := ht.same _ (by simp [hbuf])
    simp only [State.keyBuf, hsame]
  · by_cases hxp : x = p
    · rw [hxp, Function.update_self]
      exact (List.rotate_perm (R p) 1).map _
    · rw [Function.update_of_ne hxp]

/-- A node on the way down gets the leaf as its newest entry. -/
theorem of_named (h : Caches geo s R) (hp : 2 ≤ (G p).lvl) (hn : Named geo s R p leaf key s' R') :
    Looked geo G key leaf s R s' R' := by
  obtain ⟨e, es, hes, rfl, hkey⟩ := hn.entries
  refine ⟨hn.write, hn.caches, hn.counted, fun x e' he' hne => ?_, fun x => ?_, fun x o hx ho hnot =>
    (hn.side x o hx ho (hnot p)).trans hx⟩
  · by_cases hxp : x = p
    · subst hxp
      rw [Function.update_self] at he'
      cases List.mem_append.mp he' with
      | inl hmem =>
        have he'R : e' ∈ R x := by rw [hes]; exact List.mem_cons_of_mem e hmem
        refine .inl ⟨e', he'R, rfl, hn.other x e' he'R fun _ a ha => ?_⟩
        obtain ⟨n, -, hring, -⟩ := h.owns (p := x) (.inr ⟨e', he'R, .inl rfl⟩)
        have hnodup := hring.addrs
        rw [hes, List.map_cons, List.nodup_cons] at hnodup
        obtain rfl : e = a := by simpa [hes] using ha
        rintro rfl
        exact hnodup.1 (List.mem_map_of_mem hmem)
      | inr hmem =>
        rw [List.mem_singleton.mp hmem]
        exact .inr ⟨hp, rfl, hkey⟩
    · rw [Function.update_of_ne hxp] at he'
      exact .inl ⟨e', he', rfl, hn.other x e' he' fun heq => absurd heq hxp⟩
  · by_cases hxp : x = p
    · rw [hxp, Function.update_self, hes, List.map_append, List.map_cons]
      exact List.perm_append_singleton e.parts (es.map Entry.parts)
    · rw [Function.update_of_ne hxp]

end Looked

/-- The entries sit in inner nodes and name leaves. -/
def Aimed (G : Labels w) (R : Rings w) : Prop :=
  ∀ x, ∀ e ∈ R x, e.node ≠ 0#w → 2 ≤ (G x).lvl ∧ (G e.node).lvl = 1

theorem Looked.aimed (h : Looked geo G key leaf s R s' R') (ha : Aimed G R)
    (hleaf : leaf ≠ 0#w → (G leaf).lvl = 1) : Aimed G R' := by
  intro x e' he' hne
  rcases h.entries x e' he' hne with ⟨e, he, hnode, -⟩ | ⟨hx, hnode, -⟩
  · rw [← hnode]
    exact ha x e he (by rwa [hnode])
  · exact ⟨hx, by rw [hnode]; exact hleaf (hnode ▸ hne)⟩

/-! ## The whole search -/

/-- What the search reads in another node does not depend on the queue that has been turned. -/
theorem Turned.other_node {c : Ptr w} (key : Words w) (h : Tree geo m r 1 s G) (hC : Caches geo s R)
    (ht : Turned geo s R p s') (hc : 1 ≤ (G c).lvl) (hcp : c ≠ p) :
    s'.heap c = s.heap c ∧ s'.cache geo c = s.cache geo c ∧ stepDown geo key s' c = stepDown geo key s c ∧
      cacheHit geo key s' c = cacheHit geo key s c := by
  obtain ⟨n, hn, -⟩ := h.stored c hc
  have hnode : s'.heap c = s.heap c := ht.same c (by simp [hn])
  have hcache : s'.cache geo c = s.cache geo c := by
    rw [ht.caches.cache, hC.cache, Function.update_of_ne hcp]
  refine ⟨hnode, hcache, by simp only [stepDown, hnode], ?_⟩
  unfold cacheHit
  rw [hcache, hC.cache]
  refine firstAnswer_congr fun e he => ?_
  by_cases hzero : e.node = 0#w
  · simp [answers, hzero]
  · obtain ⟨n', -, hring, -⟩ := hC.owns (p := c) (.inr ⟨e, he, .inl rfl⟩)
    obtain ⟨-, ws, hbuf⟩ := (hring.key e he).resolve_left fun hz => hzero hz.2
    have hsame : s'.heap e.key = s.heap e.key := ht.same _ (by simp [hbuf])
    have hwords : s'.keyBuf e.key = s.keyBuf e.key := by simp only [State.keyBuf, hsame]
    simp only [answers, hC.not_flagged e.node, ht.caches.not_flagged e.node, hwords]

/-- Nothing of the search further down depends on the queue that has been turned. -/
theorem Turned.search (key : Words w) (h : Tree geo m r 1 s G) (hC : Caches geo s R) (ht : Turned geo s R p s') :
    ∀ {l : Nat} {c : Ptr w}, (G c).lvl = l + 1 → l + 1 < (G p).lvl →
      answer geo key s' (l + 1) c = answer geo key s (l + 1) c ∧
      missPath geo key s' (l + 1) c = missPath geo key s (l + 1) c ∧
      lookupReady geo key s' (l + 1) c = lookupReady geo key s (l + 1) c := by
  intro l
  induction l with
  | zero =>
    intro c hc hlt
    have hcp : c ≠ p := by rintro rfl; omega
    obtain ⟨hnode, -⟩ := ht.other_node key h hC (by omega) hcp
    rw [answer_one, answer_one]
    exact ⟨by simp only [plainLeaf, hnode], rfl, rfl⟩
  | succ l ih =>
    intro c hc hlt
    have hcp : c ≠ p := by rintro rfl; omega
    obtain ⟨-, hcache, hdown, hhit⟩ := ht.other_node key h hC (by omega) hcp
    rw [lookupReady, lookupReady, missPath, missPath, answer_succ, answer_succ, hdown, hhit, hcache]
    by_cases hzero : stepDown geo key s c = 0#w
    · simp [hzero]
    · obtain ⟨hans, hmiss, hready⟩ := ih (h.stepDown_child key hc hzero) (by omega)
      rw [hans, hmiss, hready]
      exact ⟨rfl, rfl, rfl⟩

theorem missPath_lvl (key : Words w) (h : Tree geo m r 1 s G) : ∀ {l : Nat} {p : Ptr w}, (G p).lvl = l + 1 →
    x ∈ missPath geo key s (l + 1) p → 2 ≤ (G x).lvl ∧ (G x).lvl ≤ l + 1 := by
  intro l
  induction l with
  | zero =>
    intro _ _ hx
    simp [missPath] at hx
  | succ l ih =>
    intro p hp hx
    rw [missPath] at hx
    split at hx
    next => simp at hx
    next =>
      rcases List.mem_cons.mp hx with rfl | hx
      · omega
      · split at hx
        next => simp at hx
        next hne =>
          have := ih (h.stepDown_child key hp hne) hx
          omega

/-- What a search ends at is a live node. -/
theorem answer_node (key : Words w) (h : Tree geo m r 1 s G) (hC : Caches geo s R) :
    ∀ {l : Nat} {p : Ptr w}, (G p).lvl = l + 1 → answer geo key s (l + 1) p ≠ 0#w →
      ∃ n, s.heap (answer geo key s (l + 1) p) = some (.node n) := by
  intro l
  induction l with
  | zero =>
    intro p hp hne
    obtain ⟨n, hn, -⟩ := h.stored p (by omega)
    rw [answer_one] at hne ⊢
    simp only [plainLeaf, hn] at hne ⊢
    split at hne
    next hlt => exact ⟨n, by rw [if_pos hlt, hn]⟩
    next => exact absurd rfl hne
  | succ l ih =>
    intro p hp hne
    rw [answer_succ] at hne ⊢
    by_cases hhit : cacheHit geo key s p = 0#w
    · rw [if_neg (by simpa using hhit)] at hne ⊢
      by_cases hdown : stepDown geo key s p = 0#w
      · rw [if_pos hdown] at hne
        exact absurd rfl hne
      · rw [if_neg hdown] at hne ⊢
        exact ih (h.stepDown_child key hp hdown) hne
    · rw [if_pos hhit]
      obtain ⟨e, he, heq⟩ := firstAnswer_mem hhit
      rw [hC.cache] at he
      unfold cacheHit at hhit ⊢
      rw [← heq] at hhit ⊢
      exact hC.live p e he hhit

/-- With entries that name leaves only, a search ends at a leaf. -/
theorem answer_leaf (key : Words w) (h : Tree geo m r 1 s G) (hC : Caches geo s R) (ha : Aimed G R) :
    ∀ {l : Nat} {p : Ptr w}, (G p).lvl = l + 1 → answer geo key s (l + 1) p ≠ 0#w →
      (G (answer geo key s (l + 1) p)).lvl = 1 := by
  intro l
  induction l with
  | zero =>
    intro p hp hne
    obtain ⟨n, hn, -⟩ := h.stored p (by omega)
    rw [answer_one] at hne ⊢
    simp only [plainLeaf, hn] at hne ⊢
    split at hne
    next hlt => rw [if_pos hlt, hp]
    next => exact absurd rfl hne
  | succ l ih =>
    intro p hp hne
    rw [answer_succ] at hne ⊢
    by_cases hhit : cacheHit geo key s p = 0#w
    · rw [if_neg (by simpa using hhit)] at hne ⊢
      by_cases hdown : stepDown geo key s p = 0#w
      · rw [if_pos hdown] at hne
        exact absurd rfl hne
      · rw [if_neg hdown] at hne ⊢
        exact ih (h.stepDown_child key hp hdown) hne
    · rw [if_pos hhit]
      obtain ⟨e, he, heq⟩ := firstAnswer_mem hhit
      rw [hC.cache] at he
      unfold cacheHit at hhit ⊢
      rw [← heq] at hhit ⊢
      exact (ha p e he hhit).2

/-! ### One level -/

/-- Nothing has been found in the cache of the node. -/
theorem cbtreeLookupNode_miss {n : Words w} {l : Nat} (hp : p ≠ 0#w) (hn : s.heap p = some (.node n))
    (hn' : s'.heap p = some (.node n)) (hnone : findNode p geo.arrLen key geo.arrLen s = .ok (0#w, s')) :
    cbtreeLookupNode geo key (l + 2) p s = if stepDown geo key s p = 0#w then .ok (0#w, s') else (do
      let (leaf, s) ← cbtreeLookupNode geo key (l + 1) (stepDown geo key s p) s'
      if leaf ≠ 0#w then do
        let s ← setcache leaf p key geo.arrLen geo.keylen s
        .ok (leaf, s)
      else .ok (leaf, s)) := by
  have hload : s'.load p = .ok n := State.load_eq_ok.mpr ⟨hp, hn'⟩
  have hdown : stepDown geo key s p =
      if getpos geo n key = geo.noPairs then 0#w else bval geo n (getpos geo n key) := by
    simp only [stepDown, hn]
  rw [cbtreeLookupNode, hnone, ok_bind, hdown]
  simp only [ne_eq, not_true_eq_false, if_false, hload, ok_bind]
  by_cases hend : getpos geo n key = geo.noPairs
  · simp [hend]
  · by_cases hzero : bval geo n (getpos geo n key) = 0#w
    · simp [hzero]
    · simp [hend, hzero]

/-- The queues of the nodes on `path` have been passed, and no others. -/
structure PassedRings (path : List (Ptr w)) (leaf : Ptr w) (R R' : Rings w) : Prop where
  on_path : ∀ x ∈ path, R' x = passedRing leaf (R x)
  off_path : ∀ x, x ∉ path → R' x = R x

section PassedRings

variable {path : List (Ptr w)} {R₁ R₂ : Rings w}

theorem passedRings_iff : PassedRings path leaf R R' ↔ ∀ x, R' x = if x ∈ path then passedRing leaf (R x) else R x := by
  constructor
  · intro h x
    split
    next hx => exact h.on_path x hx
    next hx => exact h.off_path x hx
  · exact fun h => ⟨fun x hx => (h x).trans (if_pos hx), fun x hx => (h x).trans (if_neg hx)⟩

/-- The way further down has been passed, and the queue of `p` above it is `es` now. -/
theorem PassedRings.cons {es : List (Entry w)} (h : PassedRings path leaf (Function.update R p ((R p).rotate 1)) R₂)
    (hes : es = passedRing leaf (R p)) : PassedRings (p :: path) leaf R (Function.update R₂ p es) := by
  constructor
  · intro x hx
    by_cases hxp : x = p
    · rw [hxp, Function.update_self, hes]
    · have hmem := (List.mem_cons.mp hx).resolve_left hxp
      rw [Function.update_of_ne hxp, h.on_path x hmem, Function.update_of_ne hxp]
  · intro x hx
    obtain ⟨hxp, hpath⟩ := not_or.mp fun hor => hx (List.mem_cons.mpr hor)
    rw [Function.update_of_ne hxp, h.off_path x hpath, Function.update_of_ne hxp]

/-- The queue of `p` has been turned, and nothing has been found further down. -/
theorem PassedRings.turned (h : PassedRings path 0#w (Function.update R p ((R p).rotate 1)) R₂) (hp : p ∉ path) :
    PassedRings (p :: path) 0#w R R₂ := by
  have hself : R₂ p = passedRing 0#w (R p) := by
    rw [h.off_path p hp, Function.update_self, passedRing, if_pos rfl]
  have hpassed := h.cons hself
  rwa [Function.update_eq_self] at hpassed

/-- The entry that has become the first one is written over with the leaf. -/
theorem PassedRings.named {e : Entry w} {es : List (Entry w)}
    (h : PassedRings path leaf (Function.update R p ((R p).rotate 1)) R₂) (hleaf : leaf ≠ 0#w)
    (hes : (R p).rotate 1 = e :: es) :
    PassedRings (p :: path) leaf R (Function.update R₂ p (es ++ [⟨e.addr, leaf, e.key⟩])) :=
  h.cons (by rw [passedRing, if_neg hleaf, hes])

end PassedRings

/-- What has been found is put into the cache of a node further up. -/
theorem Looked.setcache {n : Words w} (h : Looked geo G key leaf s R s' R') (hp : 2 ≤ (G p).lvl)
    (hn : s.heap p = some (.node n)) (hne : leaf ≠ 0#w) (hleaf : ∃ o, s.heap leaf = some (.node o)) :
    (CachedBTree.setcache leaf p key geo.arrLen geo.keylen s' = .error .nullDeref ∧ s.kfail = true ∧
      ∀ e ∈ (R' p).head?, e.key = 0#w) ∨
    ∃ s'' e es, CachedBTree.setcache leaf p key geo.arrLen geo.keylen s' = .ok s'' ∧ R' p = e :: es ∧ e.key ≠ 0#w ∧
      Looked geo G key leaf s R s'' (Function.update R' p (es ++ [⟨e.addr, leaf, e.key⟩])) := by
  obtain ⟨o, ho⟩ := hleaf
  obtain ⟨o', ho', -⟩ := h.write.node _ o ho
  obtain ⟨n', hn', -⟩ := h.write.node p n hn
  rcases setcache_cases key h.caches hn' ⟨o', ho'⟩ with ⟨hnull, hk, hnobuf⟩ | ⟨s'', R'', hset, hnamed⟩
  · exact .inl ⟨hnull, by rw [← h.write.kfail]; exact hk, hnobuf⟩
  obtain ⟨e, es, hes, rfl, -⟩ := hnamed.entries
  have hmem : (⟨e.addr, leaf, e.key⟩ : Entry w) ∈ Function.update R' p (es ++ [⟨e.addr, leaf, e.key⟩]) p := by
    rw [Function.update_self]
    simp
  -- only an entry without a buffer names nothing
  have hekey : e.key ≠ 0#w := fun hz => by
    obtain ⟨m, -, hring, -⟩ := hnamed.caches.owns (p := p) (.inr ⟨_, hmem, .inl rfl⟩)
    rcases hring.key _ hmem with hnone | hsome
    · exact hne hnone.2
    · exact hsome.1 hz
  exact .inr ⟨s'', e, es, hset, hes, hekey, h.trans (Looked.of_named h.caches hp hnamed)⟩

/-! ### All levels -/

/-- `cbtree_lookup_node` from a node of the tree.  It can only be stopped by the queue or the key
buffer of a failed `kmalloc`. -/
theorem Tree.lookup (key : Words w) : ∀ {l : Nat} {p : Ptr w} {s : State w} {R : Rings w}, Tree geo m r 1 s G →
    Caches geo s R → (G p).lvl = l + 1 →
    (cbtreeLookupNode geo key (l + 1) p s = .error .nullDeref ∧ s.kfail = true ∧
      lookupReady geo key s (l + 1) p = false) ∨
    (lookupReady geo key s (l + 1) p = true ∧
      ∃ s' R', cbtreeLookupNode geo key (l + 1) p s = .ok (answer geo key s (l + 1) p, s') ∧
      Looked geo G key (answer geo key s (l + 1) p) s R s' R' ∧
      (1 ≤ l → cacheHit geo key s p ≠ 0#w → s' = s ∧ R' = R) ∧
      ∀ x, R' x = if x ∈ missPath geo key s (l + 1) p then passedRing (answer geo key s (l + 1) p) (R x)
        else R x) := by
  intro l
  induction l with
  | zero =>
    intro p s R h hC hp
    obtain ⟨n, hn, hload, -⟩ := h.load (p := p) (by omega)
    refine .inr ⟨rfl, s, R, ?_, Looked.refl hC, fun hl => absurd hl (by omega), fun x => by simp [missPath]⟩
    rw [answer_one]
    simp only [cbtreeLookupNode, hload, ok_bind, plainLeaf, hn]
    split <;> rfl
  | succ l ih =>
    intro p s R h hC hp
    obtain ⟨n, hn, -⟩ := h.stored p (by omega)
    have hanswer := answer_succ geo key s p l
    have hcache : cacheHit geo key s p = firstAnswer geo s key (R p) := by
      unfold cacheHit
      rw [hC.cache]
    rw [lookupReady, missPath, hC.cache]
    rcases findNode_cases key hC hn with ⟨hnull, hk, hnil⟩ | ⟨hhit, hfound⟩ | ⟨hmiss, hne, s₁, hnone, hturn⟩
    · exact .inl ⟨by rw [cbtreeLookupNode, hnull]; rfl, hk, by rw [hnil]; rfl⟩
    · rw [← hcache] at hhit hfound
      rw [if_pos hhit] at hanswer
      have hne : R p ≠ [] := fun hnil => hhit (by rw [hcache, hnil]; rfl)
      refine .inr ⟨by simp [hhit, hne], s, R, ?_, Looked.refl hC, fun _ _ => ⟨rfl, rfl⟩, fun x => by simp [hhit]⟩
      rw [cbtreeLookupNode, hfound, ok_bind, hanswer]
      simp only [if_pos hhit]
    · rw [← hcache] at hmiss
      have hmissp : ¬cacheHit geo key s p ≠ 0#w := by simpa using hmiss
      have hlooked₁ : Looked geo G key (answer geo key s (l + 2) p) s R s₁ _ := Looked.of_turned hC hturn
      have hn₁ : s₁.heap p = some (.node n) := by rw [hturn.same p (by simp [hn]), hn]
      rw [cbtreeLookupNode_miss (h.ne_null (by omega)) hn hn₁ hnone, if_neg hmissp]
      rw [if_neg hmissp] at hanswer
      by_cases hdown : stepDown geo key s p = 0#w
      · -- the search ends here
        rw [if_pos hdown] at hanswer ⊢
        rw [hanswer] at hlooked₁ ⊢
        have hstart : PassedRings [] 0#w (Function.update R p ((R p).rotate 1)) (Function.update R p ((R p).rotate 1)) :=
          ⟨fun _ hx => absurd hx List.not_mem_nil, fun _ _ => rfl⟩
        refine .inr ⟨by simp [hne, hdown], s₁, _, rfl, hlooked₁, fun _ hne => absurd hmiss hne, ?_⟩
        rw [if_pos hdown]
        exact passedRings_iff.mp (hstart.turned List.not_mem_nil)
      rw [if_neg hdown] at hanswer ⊢
      have hclvl := h.stepDown_child key hp hdown
      obtain ⟨hsame, hpath, hready⟩ := hturn.search key h hC hclvl (by omega)
      rcases ih (hturn.write.tree h) hturn.caches hclvl with
        ⟨hnull, hk, hnot⟩ | ⟨hyes, s₂, R₂, hrun, hlooked₂, -, hrings⟩
      · rw [hready] at hnot
        exact .inl ⟨by rw [hnull]; rfl, by rw [← hturn.write.kfail]; exact hk, by simp [hmiss, hdown, hnot]⟩
      rw [hready] at hyes
      rw [hsame, ← hanswer] at hrun hlooked₂ hrings
      rw [hpath] at hrings
      have hpassed : PassedRings (missPath geo key s (l + 1) (stepDown geo key s p)) (answer geo key s (l + 2) p)
        (Function.update R p ((R p).rotate 1)) R₂ := passedRings_iff.mpr hrings
      have hlooked := hlooked₁.trans hlooked₂
      -- the queue of this node is not touched further down
      have hpout : p ∉ missPath geo key s (l + 1) (stepDown geo key s p) := fun hmem => by
        have := missPath_lvl key h hclvl hmem
        omega
      have hRp : R₂ p = (R p).rotate 1 := by rw [hpassed.off_path p hpout, Function.update_self]
      rw [hrun, ok_bind, if_neg hdown]
      by_cases hleaf : answer geo key s (l + 2) p = 0#w
      · simp only [hleaf, ne_eq, not_true_eq_false, if_false]
        rw [hleaf] at hlooked hpassed
        exact .inr ⟨by simp [hne, hyes], s₂, R₂, rfl, hlooked, fun _ hne => absurd hmiss hne,
          passedRings_iff.mp (hpassed.turned hpout)⟩
      · simp only [hleaf, ne_eq, not_false_eq_true, if_true]
        have hlive := answer_node key (l := l + 1) h hC hp hleaf
        rcases hlooked.setcache (p := p) (by omega) hn hleaf hlive with
          ⟨hnull, hk, hnobuf⟩ | ⟨s₃, e, es, hset, hes, hekey, hlooked₃⟩
        · refine .inl ⟨by rw [hnull]; rfl, hk, ?_⟩
          obtain ⟨e, es, hes⟩ := List.exists_cons_of_ne_nil
            (show (R p).rotate 1 ≠ [] by simpa [List.rotate_eq_nil_iff] using hne)
          rw [hRp, hes] at hnobuf
          simp [hmiss, hdown, hes, hnobuf e (by simp)]
        · rw [hRp] at hes
          exact .inr ⟨by simp [hne, hyes, hes, hekey], s₃, _, by rw [hset]; rfl, hlooked₃,
            fun _ hne => absurd hmiss hne, passedRings_iff.mp (hpassed.named hleaf hes)⟩

end CachedBTree
