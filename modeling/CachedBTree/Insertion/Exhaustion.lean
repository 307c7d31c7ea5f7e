import CachedBTree.Descent
import CachedBTree.Queues

/-! # Running out of memory

How many nodes an insertion takes from the mempool is settled before it starts, by the
full nodes above the leaf that the key leads to. -/

namespace CachedBTree

variable {w : Nat} {geo : Geo} {m r L : Nat} {s s' : State w} {G G' : Labels w} {p : Ptr w}

/-! ## The allocations of a call -/

/-- One of the next `n` allocations of a node finds no memory. -/
def Starved (geo : Geo) : Nat → State w → Prop
  | 0, _ => False
  | n + 1, s => ∃ p s', cbtreeNodeAlloc geo s = .ok (p, s') ∧ (p = 0#w ∨ Starved geo n s')

theorem starved_of_fail {n : Nat} {s' : State w} (h : cbtreeNodeAlloc geo s = .ok (0#w, s')) :
    Starved geo (n + 1) s := ⟨_, s', h, .inl rfl⟩

theorem starved_succ {n : Nat} {s' : State w} (h : cbtreeNodeAlloc geo s = .ok (p, s')) :
    Starved geo (n + 1) s ↔ p = 0#w ∨ Starved geo n s' := by
  constructor
  · rintro ⟨p', s'', h', hor⟩
    obtain ⟨rfl, rfl⟩ := Prod.mk.inj (Except.ok.inj (h.symm.trans h'))
    exact hor
  · exact fun hor => ⟨p, s', h, hor⟩

theorem starved_succ_of_ne {n : Nat} {s' : State w} (h : cbtreeNodeAlloc geo s = .ok (p, s'))
    (hp : p ≠ 0#w) : Starved geo (n + 1) s ↔ Starved geo n s' := by
  rw [starved_succ h, or_iff_right hp]

instance decidableStarved (geo : Geo) : ∀ (n : Nat) (s : State w), Decidable (Starved geo n s)
  | 0, _ => isFalse id
  | n + 1, s =>
    match h : cbtreeNodeAlloc geo s with
    | .error _ => isFalse fun ⟨_, _, h', _⟩ => by
      rw [h] at h'
      cases h'
    | .ok (p, s') =>
      have := decidableStarved geo n s'
      decidable_of_iff (p = 0#w ∨ Starved geo n s') (starved_succ h).symm

/-- The next `n` allocations of a node succeed. -/
def Provided (geo : Geo) : Nat → State w → Prop
  | 0, _ => True
  | n + 1, s => ∃ p s', cbtreeNodeAlloc geo s = .ok (p, s') ∧ p ≠ 0#w ∧ Provided geo n s'

theorem provided_succ {n : Nat} {s' : State w} (h : cbtreeNodeAlloc geo s = .ok (p, s')) :
    Provided geo (n + 1) s ↔ p ≠ 0#w ∧ Provided geo n s' := by
  constructor
  · rintro ⟨p', s'', h', hand⟩
    obtain ⟨rfl, rfl⟩ := Prod.mk.inj (Except.ok.inj (h.symm.trans h'))
    exact hand
  · exact fun hand => ⟨p, s', h, hand⟩

theorem not_provided_of_fault {n : Nat} {f : Fault} (h : cbtreeNodeAlloc geo s = .error f) :
    ¬Provided geo (n + 1) s := by
  rintro ⟨p, s', h', -⟩
  rw [h] at h'
  cases h'

theorem Provided.not_starved : ∀ {n : Nat} {s : State w}, Provided geo n s → ¬Starved geo n s
  | 0, _, _ => id
  | n + 1, s, ⟨p, s', hrun, hp, hrest⟩ => by
    rw [starved_succ_of_ne hrun hp]
    exact hrest.not_starved

instance decidableProvided (geo : Geo) : ∀ (n : Nat) (s : State w), Decidable (Provided geo n s)
  | 0, _ => isTrue trivial
  | n + 1, s =>
    match h : cbtreeNodeAlloc geo s with
    | .error _ => isFalse (not_provided_of_fault h)
    | .ok (p, s') =>
      have := decidableProvided geo n s'
      decidable_of_iff (p ≠ 0#w ∧ Provided geo n s') (provided_succ h).symm

/-! ## What a failure leaves behind -/

/-- The word of a node that points to its queue. -/
def State.queueWord (geo : Geo) (s : State w) (p : Ptr w) : Word w :=
  match s.heap p with
  | some (.node n) => n geo.arrLen
  | _ => 0#w

/-- One of the next `n` allocations of a node finds no memory, and the nodes that come before it get no
queue. -/
def StarvedBare (geo : Geo) : Nat → State w → Prop
  | 0, _ => False
  | n + 1, s => ∃ p s', cbtreeNodeAlloc geo s = .ok (p, s') ∧
      (p = 0#w ∨ s'.queueWord geo p = 0#w ∧ StarvedBare geo n s')

theorem starvedBare_succ {n : Nat} {s' : State w} (h : cbtreeNodeAlloc geo s = .ok (p, s')) :
    StarvedBare geo (n + 1) s ↔ p = 0#w ∨ s'.queueWord geo p = 0#w ∧ StarvedBare geo n s' := by
  constructor
  · rintro ⟨p', s₁, h', hbare⟩
    rw [h] at h'
    cases h'
    exact hbare
  · exact fun hbare => ⟨p, s', h, hbare⟩

instance decidableStarvedBare (geo : Geo) : ∀ (n : Nat) (s : State w), Decidable (StarvedBare geo n s)
  | 0, _ => isFalse id
  | n + 1, s =>
    match h : cbtreeNodeAlloc geo s with
    | .error _ => isFalse fun ⟨_, _, h', _⟩ => by
      rw [h] at h'
      cases h'
    | .ok (p, s') =>
      have := decidableStarvedBare geo n s'
      decidable_of_iff (p = 0#w ∨ s'.queueWord geo p = 0#w ∧ StarvedBare geo n s') (starvedBare_succ h).symm

/-- Nothing is live that was not, but for what a failed `kmalloc` leaves. -/
def Traceless (s s' : State w) : Prop :=
  ∀ x o, s'.heap x = some o → s.heap x ≠ none ∨ s'.kfail = true ∧ o.Remnant

theorem Traceless.of_heap (h : s'.heap = s.heap) : Traceless s s' := fun x o hx => by
  rw [h] at hx
  exact .inl (by simp [hx])

/-- A node without a queue is given back. -/
theorem NewNode.traceless_free {s₁ s₂ : State w} (h : NewNode geo s s₁ p) (hbare : s₁.queueWord geo p = 0#w)
    (hkept : Kept s₁ s₂) (ht : Traceless s₁ s₂) : Traceless s (s₂.setObj p none) := by
  obtain ⟨n, hn, -, -, -, hqueue⟩ := h.node
  have hzero : n geo.arrLen = 0#w := by
    unfold State.queueWord at hbare
    rwa [hn] at hbare
  rcases hqueue with ⟨-, hk, hrem⟩ | ⟨es, hring, -⟩
  · intro x o hx
    rw [State.setObj_heap] at hx
    split at hx
    next => cases hx
    next hxp =>
      cases ht x o hx with
      | inl hlive =>
        obtain ⟨o', ho⟩ := Option.ne_none_iff_exists'.mp hlive
        rw [hkept.heap x o' ho] at hx
        cases hx
        rcases hrem x o ho with hold | heq | ho
        · exact .inl hold
        · exact absurd heq hxp
        · exact .inr ⟨hkept.kfail hk, ho⟩
      | inr hleft =>
        exact .inr hleft
  · exact absurd hzero hring.ring.queue.1

/-! ## What is left in the mempool -/

theorem kmalloc_pool (s : State w) (mk : Words w → Obj w) : (s.kmalloc mk).2.pool = s.pool := by
  rcases s.kmalloc_cases mk with ⟨slab, h⟩ | ⟨q, junk, slab, -, -, h⟩
  · rw [h]
  · rw [h]
    rfl

theorem setWord_pool {i : Nat} {v : Word w} (h : s.setWord p i v = .ok s') : s'.pool = s.pool := by
  obtain ⟨-, o, o', -, -, rfl⟩ := State.setWord_eq_ok.mp h
  rfl

theorem free_pool (h : s.free p = .ok s') : s'.pool = s.pool := by
  rcases State.free_eq_ok.mp h with ⟨-, rfl⟩ | ⟨-, -, rfl⟩ <;> rfl

theorem freeEntries_pool : ∀ {d : Nat} {p : Ptr w} {s : State w}, freeEntries d p s = .ok s' → s'.pool = s.pool := by
  intro d
  induction d with
  | zero =>
    intro p s h
    rcases ite_eq_ok.mp h with ⟨-, h⟩ | ⟨-, h⟩
    · rw [← Except.ok.inj h]
    · cases h
  | succ d ih =>
    intro p s h
    rcases ite_eq_ok.mp h with ⟨-, h⟩ | ⟨-, h⟩
    · rw [← Except.ok.inj h]
    · obtain ⟨temp, -, h⟩ := bind_eq_ok.mp h
      obtain ⟨s₁, hfree, h⟩ := bind_eq_ok.mp h
      exact (ih h).trans (free_pool hfree)

theorem initQueueLoop_pool : ∀ {d : Nat} {first previous : Ptr w} {s : State w}
    {ends : Option (Ptr w × Ptr w)}, initQueueLoop first previous d s = .ok (ends, s') → s'.pool = s.pool := by
  intro d
  induction d with
  | zero =>
    intro _ _ _ _ h
    rw [← (Prod.mk.inj (Except.ok.inj h)).2]
  | succ d ih =>
    intro first previous s ends h
    rw [initQueueLoop] at h
    have hentry := kmalloc_pool s fun _ => .entry 0#w 0#w 0#w
    generalize s.kmalloc (fun _ => .entry 0#w 0#w 0#w) = pair at h hentry
    obtain ⟨curr, s₁⟩ := pair
    rcases ite_eq_ok.mp h with ⟨-, h⟩ | ⟨-, h⟩
    · obtain ⟨s₂, hfree, h⟩ := bind_eq_ok.mp h
      rw [← (Prod.mk.inj (Except.ok.inj h)).2]
      exact (freeEntries_pool hfree).trans hentry
    · have hkey := kmalloc_pool s₁ .buf
      generalize s₁.kmalloc .buf = pair at h hkey
      obtain ⟨key, s₂⟩ := pair
      obtain ⟨s₃, hset, h⟩ := bind_eq_ok.mp h
      have hpool : s₃.pool = s.pool := (setWord_pool hset).trans (hkey.trans hentry)
      rcases ite_eq_ok.mp h with ⟨-, h⟩ | ⟨-, h⟩
      · exact (ih h).trans hpool
      · obtain ⟨s₄, hset', h⟩ := bind_eq_ok.mp h
        exact (ih h).trans ((setWord_pool hset').trans hpool)

theorem initQueue_pool {off : Nat} (h : initQueue p off s = .ok s') : s'.pool = s.pool := by
  unfold initQueue at h
  have hqueue := kmalloc_pool s fun _ => .queue 0#w
  generalize s.kmalloc (fun _ => .queue 0#w) = pair at h hqueue
  obtain ⟨q, s₁⟩ := pair
  obtain ⟨⟨ends, s₂⟩, hloop, h⟩ := bind_eq_ok.mp h
  have hpool : s₂.pool = s.pool := (initQueueLoop_pool hloop).trans hqueue
  cases ends with
  | none => rw [← Except.ok.inj h, hpool]
  | some ends =>
    obtain ⟨s₃, h₃, h⟩ := bind_eq_ok.mp h
    obtain ⟨s₄, h₄, h⟩ := bind_eq_ok.mp h
    exact (setWord_pool h).trans ((setWord_pool h₄).trans ((setWord_pool h₃).trans hpool))

/-- A node takes one answer of the mempool. -/
theorem cbtreeNodeAlloc_pool (h : cbtreeNodeAlloc geo s = .ok (p, s')) (hp : p ≠ 0#w) :
    s'.pool = s.pool.drop 1 := by
  unfold cbtreeNodeAlloc State.mempoolAlloc at h
  cases hpool : s.pool with
  | nil =>
    rw [hpool] at h
    exact absurd (congrArg Prod.fst (Except.ok.inj h)).symm hp
  | cons q rest =>
    simp only [hpool] at h
    by_cases hq : q = 0#w ∨ s.inUse q
    · rw [if_pos hq] at h
      exact absurd (congrArg Prod.fst (Except.ok.inj h)).symm hp
    · rw [if_neg hq] at h
      simp only [if_neg (not_or.mp hq).1] at h
      obtain ⟨s₁, hinit, h⟩ := bind_eq_ok.mp h
      rw [← (Prod.mk.inj (Except.ok.inj h)).2, initQueue_pool hinit]
      rfl

/-- The nodes it takes to link a node beside `q`, which has `d` levels above it: one for each full
parent on the way up, and a new root when all are full. -/
def Labels.needed (geo : Geo) (G : Labels w) : Nat → Ptr w → Nat
  | 0, _ => 1
  | d + 1, q => if (G (G q).par).page.length = geo.noPairs then G.needed geo d (G q).par + 1 else 0

theorem needed_congr (hpar : ∀ x, (G' x).par = (G x).par)
    (hlen : ∀ x, (G' x).page.length = (G x).page.length) :
    ∀ (d : Nat) (q : Ptr w), G'.needed geo d q = G.needed geo d q
  | 0, _ => rfl
  | d + 1, q => by
    simp only [Labels.needed, hpar, hlen, needed_congr hpar hlen d]

/-! ## The need of a call, read off the memory -/

/-- The node of this level that `key` leads to has no slot left. -/
def fullAt (geo : Geo) (key : Words w) (level : Nat) (s : State w) : Bool :=
  match findLevel geo (.buf key) level s with
  | .ok (node, s) =>
    match s.load node with
    | .ok words => getfill geo words 0 = geo.noPairs
    | .error _ => false
  | .error _ => false

/-- The nodes it takes to split the node that `key` leads to `d` levels below the root: one beside it,
and what it takes to link that one. -/
def nodesNeeded (geo : Geo) (key : Words w) (s : State w) : Nat → Nat
  | 0 => 2
  | d + 1 => if fullAt geo key (s.height - d) s then nodesNeeded geo key s d + 1 else 1

/-- Memory when the search for the leaf is over. -/
def routed (geo : Geo) (key : Words w) (s : State w) : State w :=
  match findLevel geo (.buf key) 1 s with
  | .ok (_, s') => s'
  | .error _ => s

/-- One of the nodes that `cbtree_insert` needs cannot be allocated. -/
def OutOfMemory (geo : Geo) (key : Words w) (s : State w) : Prop :=
  if s.height = 0 then Starved geo 1 s
  else fullAt geo key 1 (routed geo key s) = true ∧
    Starved geo (nodesNeeded geo key (routed geo key s) (s.height - 1)) (routed geo key s)

/-- The nodes that `cbtree_insert` takes from the mempool. -/
def nodesTaken (geo : Geo) (key : Words w) (s : State w) : Nat :=
  if s.height = 0 then 1
  else if fullAt geo key 1 (routed geo key s) = true then
    nodesNeeded geo key (routed geo key s) (s.height - 1)
  else 0

instance decidableOutOfMemory (geo : Geo) (key : Words w) (s : State w) :
    Decidable (OutOfMemory geo key s) := by
  unfold OutOfMemory
  infer_instance

theorem routed_of_find {key : Words w} (h : findLevel geo (.buf key) 1 s = .ok (p, s')) :
    routed geo key s = s' := by
  unfold routed
  rw [h]

section

variable (key : Words w)

theorem Tree.routed_empty (h : Tree geo m r L s G) (hh : s.height = 0) : routed geo key s = s := by
  simp [routed, findLevel, findLevelLoop, hh, h.empty hh]

theorem Tree.fullAt_iff (h : Tree geo m r L s G) (hp : 1 ≤ (G p).lvl) (hL : L ≤ (G p).lvl)
    (hlo : (G p).lo ≤ keyNum geo key) (hhi : keyNum geo key < (G p).hi) :
    fullAt geo key (G p).lvl s = true ↔ (G p).page.length = geo.noPairs := by
  obtain ⟨n, -, hload, hholds⟩ := h.load hp
  unfold fullAt
  simp only [h.findLevel_to (reads_buf key) hp (by omega) hlo hhi, hload,
    hholds.getfill (Nat.zero_le _), decide_eq_true_eq]

theorem Tree.nodesNeeded_eq (h : Tree geo m r L s G) : ∀ {d : Nat} {p : Ptr w}, 1 ≤ (G p).lvl →
    L ≤ (G p).lvl → (G p).lvl + d = s.height → (G p).lo ≤ keyNum geo key →
    keyNum geo key < (G p).hi → nodesNeeded geo key s d = G.needed geo d p + 1 := by
  intro d
  induction d with
  | zero =>
    intro _ _ _ _ _ _
    exact rfl
  | succ d ih =>
    intro p hp hL hd hlo hhi
    have hne : p ≠ s.node := h.ne_root (by omega)
    obtain ⟨hplo, hphi⟩ := h.interval_le hp (by omega) hne
    obtain ⟨k₀, l₁, l₂, hplvl, -⟩ := h.parent_slot hp (by omega) hne
    have hfull := h.fullAt_iff key (p := (G p).par) (by omega) (by omega) (by omega) (by omega)
    rw [show (G (G p).par).lvl = s.height - d by omega] at hfull
    have hrec := ih (p := (G p).par) (by omega) (by omega) (by omega) (by omega) (by omega)
    unfold nodesNeeded Labels.needed
    by_cases hpage : (G (G p).par).page.length = geo.noPairs
    · rw [if_pos (hfull.mpr hpage), if_pos hpage, hrec]
    · rw [if_neg (fun hf => hpage (hfull.mp hf)), if_neg hpage]

/-- The nodes that an insertion takes, once the leaf has been found. -/
theorem Routed.nodesTaken_eq (h : Routed geo m r 1 (keyNum geo key) s G p s' G') (hh : 1 ≤ s.height)
    (hfind : findLevel geo (.buf key) 1 s = .ok (p, s')) : nodesTaken geo key s =
      if (G' p).page.length = geo.noPairs then G'.needed geo (s.height - 1) p + 1 else 0 := by
  have hheight : s'.height = s.height := by rw [h.mem]
  have hfull := h.tree.fullAt_iff key (by rw [h.lvl]) (by rw [h.lvl]) h.lo h.hi
  have hneed := h.tree.nodesNeeded_eq key (d := s.height - 1) (by rw [h.lvl])
    (by rw [h.lvl]) (by rw [h.lvl]; omega) h.lo h.hi
  rw [h.lvl] at hfull
  unfold nodesTaken
  rw [if_neg (by omega), routed_of_find hfind, hneed]
  exact if_congr hfull rfl rfl

end

end CachedBTree
