import CachedBTree.Caching.Rings

/-! # Insertion and the caches

An insertion gives every node it allocates a queue with nothing in it and leaves the other
queues alone.  When it has to give a node back, the queue of that node stays behind. -/

namespace CachedBTree

open CachedBTree.Support

variable {w : Nat} {geo : Geo} {s s' s₀ : State w} {p q x : Ptr w} {R R₀ : Rings w}

/-! ## One node more or less -/

/-- `x` is the queue that the node `n` names, one of the entries or a key buffer. -/
def IsPart (geo : Geo) (n : Words w) (es : List (Entry w)) (x : Ptr w) : Prop :=
  x = n geo.arrLen ∨ ∃ e ∈ es, x = e.addr ∨ e.key ≠ 0#w ∧ x = e.key

/-- The entries of a new node, none if a `kmalloc` has failed, and whom their objects belong to. -/
structure NewEntries (geo : Geo) (s s' : State w) (p : Ptr w) (n : Words w) (es : List (Entry w)) : Prop where
  node : s'.heap p = some (.node n)
  idle : n (geo.arrLen + 2) ≠ 1#w
  empty : ∀ e ∈ es, e.node = 0#w
  ring : (n geo.arrLen = 0#w ∧ es = [] ∧ s'.kfail = true) ∨
    Ring s' (n geo.arrLen) es ∧ ∀ e ∈ es, e.key = 0#w → s'.kfail = true
  free : ∀ x, es ≠ [] → IsPart geo n es x → s.heap x = none
  account : ∀ x o, s'.heap x = some o → s.heap x ≠ none ∨ x = p ∨ (s'.kfail = true ∧ o.Remnant) ∨
    es ≠ [] ∧ IsPart geo n es x

theorem NewNode.newEntries (h : NewNode geo s s' p) : ∃ n es, NewEntries geo s s' p n es := by
  obtain ⟨n, hn, -, -, hflag, ⟨hzero, hk, hrem⟩ | ⟨es, hring, honly⟩⟩ := h.node
  · refine ⟨n, [], hn, ?_, by simp, .inl ⟨hzero, rfl, hk⟩, fun x hne => absurd rfl hne, fun x o hx => ?_⟩
    · rw [hflag]
      exact one_ne_zero_of_ptr h.ne
    · exact (hrem x o hx).imp_right (Or.imp_right fun hrem => .inl ⟨hk, hrem⟩)
  · refine ⟨n, es, hn, ?_, fun e he => (hring.fresh e he).1, .inr ⟨hring.ring, fun e he hzero => ?_⟩,
      fun x _ hx => ?_, fun x o hx => ?_⟩
    · rw [hflag]
      exact one_ne_zero_of_ptr h.ne
    · rcases (hring.fresh e he).2.2 with ⟨-, hk⟩ | ⟨hne, -⟩
      · exact hk
      · exact absurd hzero hne
    · rcases hx with rfl | ⟨e, he, rfl | ⟨hne, rfl⟩⟩
      · exact hring.queue_free
      · exact (hring.fresh e he).2.1
      · exact ((hring.fresh e he).2.2.resolve_left fun hz => hne hz.1).2
    · exact (honly x (by simp [hx])).imp_right (Or.imp_right fun hpart => .inr ⟨hring.ring.ne_nil, hpart⟩)

section Alloc

variable {n : Words w} {es : List (Entry w)}

/-- The other nodes were there before. -/
theorem NewNode.old_node {m : Words w} (h : NewNode geo s s' p) (hxp : x ≠ p) (hx : s'.heap x = some (.node m)) :
    s.heap x = some (.node m) := by
  obtain ⟨n₀, hx₀⟩ := (h.only_node hx).resolve_right hxp
  rw [h.kept.heap x _ hx₀] at hx
  rw [hx₀, hx]

theorem NewNode.owns_other (h : NewNode geo s s' p) (hqp : q ≠ p)
    (hown : Owns geo s' (Function.update R p es) q x) : Owns geo s R q x := by
  have hother : Function.update R p es q = R q := Function.update_of_ne hqp _ _
  rcases hown with ⟨m, hm, hne, rfl⟩ | hentry
  · rw [hother] at hne
    exact .inl ⟨m, h.old_node hqp hm, hne, rfl⟩
  · rw [hother] at hentry
    exact .inr hentry

/-- What belongs to the new node was free. -/
theorem NewEntries.owns_new (h : NewEntries geo s s' p n es) (hown : Owns geo s' (Function.update R p es) p x) :
    s.heap x = none := by
  have hself : Function.update R p es p = es := Function.update_self _ _ _
  rcases hown with ⟨m, hm, hne, rfl⟩ | ⟨e, he, hpart⟩
  · rw [h.node] at hm
    cases hm
    exact h.free _ (hself ▸ hne) (.inl rfl)
  · rw [hself] at he
    exact h.free _ (List.ne_nil_of_mem he) (.inr ⟨e, he, hpart⟩)

/-- The queues of all nodes, the new one among them. -/
theorem Caches.grow (h : Caches geo s R) (hnew : NewNode geo s s' p) (hes : NewEntries geo s s' p n es) :
    Caches geo s' (Function.update R p es) := by
  have hself : Function.update R p es p = es := Function.update_self _ _ _
  have hother : ∀ x, x ≠ p → Function.update R p es x = R x := fun x hx => Function.update_of_ne hx _ _
  have hkfail : s'.kfail = false → s.kfail = false := fun hk => by
    by_contra hne
    rw [hnew.kept.kfail (by simpa using hne)] at hk
    cases hk
  have hthe : ∀ {m}, s'.heap p = some (.node m) → m = n := fun hm => by
    rw [hes.node] at hm
    cases hm
    rfl
  refine ⟨fun m hm => h.null m (hnew.old_node hnew.ne.symm hm), fun x hx => ?_, fun x m hm => ?_,
    fun a b x ha hb => ?_, fun hk x e he => ?_, fun x m hm => ?_, fun x e he hne => ?_⟩
  · by_cases hxp : x = p
    · exact ⟨n, hxp ▸ hes.node⟩
    · obtain ⟨m, hm⟩ := h.node x (by rwa [hother x hxp] at hx)
      exact ⟨m, hnew.kept.heap x _ hm⟩
  · by_cases hxp : x = p
    · subst hxp
      rw [hthe hm, hself]
      exact hes.ring.imp_right And.left
    · rw [hother x hxp]
      refine (h.ring x m (hnew.old_node hxp hm)).imp (fun hnone => ?_) fun hr => hr.mono hnew.kept.side
      exact ⟨hnone.1, hnone.2.1, hnew.kept.kfail hnone.2.2⟩
  · by_cases hap : a = p
    · by_cases hbp : b = p
      · rw [hap, hbp]
      · obtain ⟨o, ho, -⟩ := h.owns_object (hnew.owns_other hbp hb)
        rw [hes.owns_new (hap ▸ ha)] at ho
        cases ho
    · by_cases hbp : b = p
      · obtain ⟨o, ho, -⟩ := h.owns_object (hnew.owns_other hap ha)
        rw [hes.owns_new (hbp ▸ hb)] at ho
        cases ho
      · exact h.apart a b x (hnew.owns_other hap ha) (hnew.owns_other hbp hb)
  · by_cases hxp : x = p
    · rw [hxp, hself] at he
      rcases hes.ring with ⟨-, rfl, -⟩ | ⟨-, hkey⟩
      · simp at he
      · intro hzero
        rw [hkey e he hzero] at hk
        cases hk
    · rw [hother x hxp] at he
      exact h.keyed (hkfail hk) x e he
  · by_cases hxp : x = p
    · subst hxp
      rw [hthe hm]
      exact hes.idle
    · exact h.idle x m (hnew.old_node hxp hm)
  · by_cases hxp : x = p
    · rw [hxp, hself] at he
      exact absurd (hes.empty e he) hne
    · rw [hother x hxp] at he
      obtain ⟨m, hm⟩ := h.live x e he hne
      exact ⟨m, hnew.kept.heap _ _ hm⟩

end Alloc

/-- A new node comes with its own queue. -/
theorem Caches.alloc (h : Caches geo s R) (hnew : NewNode geo s s' p) :
    ∃ es, (∀ e ∈ es, e.node = 0#w) ∧ Caches geo s' (Function.update R p es) ∧
      ∀ x o, s'.heap x = some o → s.heap x ≠ none ∨ x = p ∨ (s'.kfail = true ∧ o.Remnant) ∨
        Owns geo s' (Function.update R p es) p x := by
  obtain ⟨n, es, hes⟩ := hnew.newEntries
  have hself : Function.update R p es p = es := Function.update_self _ _ _
  refine ⟨es, hes.empty, h.grow hnew hes, fun x o hx => ?_⟩
  rcases hes.account x o hx with hlive | hxp | hrem | ⟨hne, hpart⟩
  · exact .inl hlive
  · exact .inr (.inl hxp)
  · exact .inr (.inr (.inl hrem))
  · refine .inr (.inr (.inr (hpart.imp (fun heq => ⟨n, hes.node, ?_, heq⟩) fun hentry => ?_)))
    · rw [hself]
      exact hne
    · rw [hself]
      exact hentry

/-- A node to which no entry points, and whose own entries hold nothing, is given back. -/
theorem Caches.dropNode {n : Words w} (h : Caches geo s R) (hp : s.heap p = some (.node n))
    (haim : ∀ x, ∀ e ∈ R x, e.node ≠ p) :
    Caches geo (s.setObj p none) (Function.update R p []) := by
  have hheap : ∀ x, x ≠ p → (s.setObj p none).heap x = s.heap x := fun x hx => by
    rw [State.setObj_heap, if_neg hx]
  have hnode : ∀ {x m}, (s.setObj p none).heap x = some (.node m) → x ≠ p := by
    rintro x m hm rfl
    simp [State.setObj_heap] at hm
  have hother : ∀ x, x ≠ p → Function.update R p [] x = R x := fun x hx =>
    Function.update_of_ne hx _ _
  have hself : Function.update R p [] p = [] := Function.update_self _ _ _
  have hside : SideKept s (s.setObj p none) := by
    intro x o hx ho
    rw [hheap, hx]
    rintro rfl
    exact ho n (Option.some.inj (hx.symm.trans hp))
  generalize Function.update R p [] = R' at *
  -- what is owned afterwards was owned before, by a node other than `p`
  have hown : ∀ {q x}, Owns geo (s.setObj p none) R' q x → Owns geo s R q x := by
    rintro q x (⟨m, hm, hne, rfl⟩ | ⟨e, he, hpart⟩)
    · have hqp := hnode hm
      exact .inl ⟨m, by rwa [hheap q hqp] at hm, by rwa [hother q hqp] at hne, rfl⟩
    · have hqp : q ≠ p := by
        rintro rfl
        rw [hself] at he
        simp at he
      rw [hother q hqp] at he
      exact .inr ⟨e, he, hpart⟩
  refine ⟨fun m hm => h.null m (by rwa [hheap _ (hnode hm)] at hm), fun x hx => ?_, fun x m hm => ?_,
    fun a b x ha hb => h.apart a b x (hown ha) (hown hb), fun hk x e he => ?_, fun x m hm => ?_,
    fun x e he hne => ?_⟩
  · have hxp : x ≠ p := by
      rintro rfl
      exact hx hself
    rw [hheap x hxp]
    exact h.node x (by rwa [hother x hxp] at hx)
  · have hxp := hnode hm
    rw [hheap x hxp] at hm
    rw [hother x hxp]
    exact (h.ring x m hm).imp_right fun hr => hr.mono hside
  · by_cases hxp : x = p
    · rw [hxp, hself] at he
      simp at he
    · rw [hother x hxp] at he
      exact h.keyed hk x e he
  · have hxp := hnode hm
    exact h.idle x m (by rwa [hheap x hxp] at hm)
  · by_cases hxp : x = p
    · rw [hxp, hself] at he
      simp at he
    · rw [hother x hxp] at he
      -- no entry names `p`, so the node it names is still there
      obtain ⟨m, hm⟩ := h.live x e he hne
      refine ⟨m, ?_⟩
      rw [hheap _ (haim x e he), hm]

/-! ## The whole call -/

/-- What an insertion that began in `s₀` has left of the caches. -/
structure Grew (geo : Geo) (s₀ s : State w) (R₀ R : Rings w) : Prop where
  caches : Caches geo s R
  old : ∀ x n, s₀.heap x = some (.node n) →
    R x = R₀ x ∧ ∃ n', s.heap x = some (.node n') ∧ SameCache geo n n'
  new : ∀ x n, s.heap x = some (.node n) → s₀.heap x = none →
    n (geo.arrLen + 1) = 0#w ∧ ∀ e ∈ R x, e.node = 0#w
  side : SideKept s₀ s
  kfail : s₀.kfail = true → s.kfail = true

/-- Every live object that was not there in `s₀` is a node, belongs to a queue or is what a failed
`kmalloc` has left. -/
def Accounted (geo : Geo) (s₀ s : State w) (R : Rings w) : Prop :=
  ∀ x o, s.heap x = some o → s₀.heap x ≠ none ∨ (∃ n, o = .node n) ∨ (s.kfail = true ∧ o.Remnant) ∨
    ∃ p, Owns geo s R p x

namespace Grew

theorem refl (h : Caches geo s R) : Grew geo s s R R where
  caches := h
  old _ n hx := ⟨rfl, n, hx, SameCache.refl n⟩
  new x n hx hnone := by
    rw [hnone] at hx
    cases hx
  side _ _ hx _ := hx
  kfail := id

/-- What is free now was free in the beginning. -/
theorem free (h : Grew geo s₀ s R₀ R) (hx : s.heap x = none) : s₀.heap x = none := by
  cases hobj : s₀.heap x with
  | none => rfl
  | some o =>
    by_cases hnode : ∃ n, o = .node n
    · obtain ⟨n, rfl⟩ := hnode
      obtain ⟨-, n', hn', -⟩ := h.old x n hobj
      rw [hx] at hn'
      cases hn'
    · have := h.side x o hobj fun n hn => hnode ⟨n, hn⟩
      rw [hx] at this
      cases this

/-- The entries that hold something are those from before. -/
theorem entry_old (h : Grew geo s₀ s R₀ R) {e : Entry w} (he : e ∈ R x) (hne : e.node ≠ 0#w) :
    e ∈ R₀ x ∧ ∃ n, s₀.heap x = some (.node n) := by
  obtain ⟨n, hn⟩ := h.caches.node x (List.ne_nil_of_mem he)
  cases hobj : s₀.heap x with
  | none => exact absurd ((h.new x n hn hobj).2 e he) hne
  | some o =>
    by_cases hnode : ∃ n, o = .node n
    · obtain ⟨n, rfl⟩ := hnode
      rw [(h.old x n hobj).1] at he
      exact ⟨he, n, rfl⟩
    · have := h.side x o hobj fun n hn => hnode ⟨n, hn⟩
      rw [hn] at this
      cases this
      exact absurd ⟨n, rfl⟩ hnode

theorem setNode {n n' : Words w} (h : Grew geo s₀ s R₀ R) (hp : s.heap p = some (.node n))
    (hsame : SameCache geo n n') : Grew geo s₀ (s.setNode p n') R₀ R where
  caches := h.caches.setNode hp hsame
  old x m hx := by
    obtain ⟨hR, m', hm', hkeep⟩ := h.old x m hx
    refine ⟨hR, ?_⟩
    by_cases hxp : x = p
    · subst hxp
      rw [hp] at hm'
      cases hm'
      exact ⟨n', State.setNode_heap_self n', hkeep.trans hsame⟩
    · exact ⟨m', by rw [State.setNode_heap_ne _ hxp, hm'], hkeep⟩
  new x m hx hnone := by
    by_cases hxp : x = p
    · subst hxp
      rw [State.setNode_heap_self] at hx
      cases hx
      rw [hsame _ (by omega)]
      exact h.new x n hp hnone
    · exact h.new x m (by rwa [State.setNode_heap_ne _ hxp] at hx) hnone
  side := h.side.trans (SideKept.setNode n' hp)
  kfail := h.kfail

theorem alloc (h : Grew geo s₀ s R₀ R) (hnew : NewNode geo s s' p) :
    ∃ es, Grew geo s₀ s' R₀ (Function.update R p es) ∧
      ∀ x o, s'.heap x = some o → s.heap x ≠ none ∨ x = p ∨ (s'.kfail = true ∧ o.Remnant) ∨
        Owns geo s' (Function.update R p es) p x := by
  obtain ⟨es, hnull, hcaches, haccount⟩ := h.caches.alloc hnew
  refine ⟨es, ⟨hcaches, fun x n hx => ?_, fun x n hx hnone => ?_,
    h.side.trans hnew.kept.side, fun hk => hnew.kept.kfail (h.kfail hk)⟩, haccount⟩
  · obtain ⟨hR, n', hn', hkeep⟩ := h.old x n hx
    have hxp : x ≠ p := by
      rintro rfl
      rw [hnew.free] at hn'
      cases hn'
    exact ⟨by rw [Function.update_of_ne hxp, hR], n', hnew.kept.heap x _ hn', hkeep⟩
  · by_cases hxp : x = p
    · subst hxp
      obtain ⟨m, hm, -, hrefs, -⟩ := hnew.node
      rw [hm] at hx
      cases hx
      exact ⟨hrefs, by rwa [Function.update_self]⟩
    · obtain ⟨m, hm⟩ := (hnew.only_node hx).resolve_right hxp
      rw [hnew.kept.heap x _ hm] at hx
      cases hx
      rw [Function.update_of_ne hxp]
      exact h.new x _ hm hnone

theorem sameHeap (h : Grew geo s₀ s R₀ R) (hheap : s'.heap = s.heap) (hk : s'.kfail = s.kfail) :
    Grew geo s₀ s' R₀ R where
  caches := h.caches.mono hk (fun x o hx _ => by rw [hheap, hx])
    (fun x n hx => ⟨n, by rwa [hheap] at hx, rfl, rfl⟩) fun x n hx => ⟨n, by rw [hheap, hx]⟩
  old := by
    rw [hheap]
    exact h.old
  new := by
    rw [hheap]
    exact h.new
  side x o hx ho := by
    rw [hheap]
    exact h.side x o hx ho
  kfail hk₀ := hk.trans (h.kfail hk₀)

theorem drop {n : Words w} (h₀ : Caches geo s₀ R₀) (h : Grew geo s₀ s R₀ R)
    (hfresh : s₀.heap p = none) (hp : s.heap p = some (.node n)) :
    Grew geo s₀ (s.setObj p none) R₀ (Function.update R p []) := by
  have hheap : ∀ x, x ≠ p → (s.setObj p none).heap x = s.heap x := fun x hx => by
    rw [State.setObj_heap, if_neg hx]
  have hold : ∀ x o, s₀.heap x = some o → x ≠ p := by
    rintro x o hx rfl
    rw [hfresh] at hx
    cases hx
  refine ⟨h.caches.dropNode hp fun x e he => ?_, fun x m hx => ?_, fun x m hx hnone => ?_,
    fun x o hx ho => ?_, h.kfail⟩
  · rintro rfl
    -- an entry that names a node is an old one, and names an old node
    by_cases hne : e.node = 0#w
    · rw [hne] at hp
      exact h.caches.null n hp
    · obtain ⟨m, hm⟩ := h₀.live x e (h.entry_old he hne).1 hne
      rw [hfresh] at hm
      cases hm
  · obtain ⟨hR, m', hm', hkeep⟩ := h.old x m hx
    exact ⟨by rw [Function.update_of_ne (hold x _ hx), hR], m', by rw [hheap x (hold x _ hx), hm'],
      hkeep⟩
  · have hxp : x ≠ p := by
      rintro rfl
      simp [State.setObj_heap] at hx
    rw [hheap x hxp] at hx
    rw [Function.update_of_ne hxp]
    exact h.new x m hx hnone
  · rw [hheap x (hold x o hx)]
    exact h.side x o hx ho

/-- The counts are still right. -/
theorem counted (h₀ : Caches geo s₀ R₀) (h : Grew geo s₀ s R₀ R) (hcount : Counted geo s₀ R₀) :
    Counted geo s R := by
  intro x n hx
  have hne : x ≠ 0#w := by
    rintro rfl
    exact h.caches.null n hx
  -- an entry that points to `x` was there before
  have hsame : refCount R x = refCount R₀ x := by
    refine tally_congr fun y => ?_
    by_cases hy : ∃ m, s₀.heap y = some (.node m)
    · obtain ⟨m, hm⟩ := hy
      rw [(h.old y m hm).1]
    · have hnil : R₀ y = [] := by
        by_contra hne'
        exact hy (h₀.node y hne')
      rw [hnil, List.countP_nil, List.countP_eq_zero]
      intro e he heq
      have heq' : e.node = x := by simpa using heq
      exact hy (h.entry_old he (heq' ▸ hne)).2
  rw [hsame]
  cases hobj : s₀.heap x with
  | none =>
    have hzero : refCount R₀ x = 0 := tally_eq_zero.mpr fun y e he => by
      rw [decide_eq_false_iff_not]
      rintro rfl
      obtain ⟨m, hm⟩ := h₀.live y e he hne
      rw [hobj] at hm
      cases hm
    rw [(h.new x n hx hobj).1, hzero]
  | some o =>
    by_cases hnode : ∃ n, o = .node n
    · obtain ⟨m, rfl⟩ := hnode
      obtain ⟨-, n', hn', hkeep⟩ := h.old x m hobj
      rw [hx] at hn'
      cases hn'
      rw [hkeep _ (by omega)]
      exact hcount x m hobj
    · have := h.side x o hobj fun n hn => hnode ⟨n, hn⟩
      rw [hx] at this
      cases this
      exact absurd ⟨n, rfl⟩ hnode

end Grew

/-- An insertion and the caches, with or without success. -/
theorem cbtreeInsert_grew {key : Words w} {v : Ptr w} {err : Int} (hN : 0 < geo.noPairs)
    (h₀ : Caches geo s₀ R₀) (hrun : cbtreeInsert geo key v s₀ = .ok (err, s)) :
    ∃ R, Grew geo s₀ s R₀ R := by
  have hstable : InsertStable geo (fun s => ∃ R, Grew geo s₀ s R₀ R) fun p => s₀.heap p = none :=
    { slots := fun s p n n' ⟨R, h⟩ hp hsame => ⟨R, h.setNode hp hsame⟩
      head := fun s head ⟨R, h⟩ => ⟨R, h.sameHeap rfl rfl⟩
      pool := fun s pool ⟨R, h⟩ => ⟨R, h.sameHeap rfl rfl⟩
      alloc := fun s s' p ⟨R, h⟩ hnew =>
        let ⟨es, h', _⟩ := h.alloc hnew
        ⟨⟨_, h'⟩, h.free hnew.free⟩ }
  have hfree : FreeStable (fun s => ∃ R, Grew geo s₀ s R₀ R) fun p => s₀.heap p = none :=
    fun s p n ⟨R, h⟩ hfresh hp => ⟨_, h.drop h₀ hfresh hp⟩
  exact cbtreeInsert_keeps hN hstable (.inr hfree) hrun ⟨R₀, .refl h₀⟩

theorem Owns.setNode {n n' : Words w} (h : Owns geo s R p x) (hq : s.heap q = some (.node n))
    (hsame : SameCache geo n n') : Owns geo (s.setNode q n') R p x := by
  rcases h with ⟨m, hm, hne, rfl⟩ | hentry
  · by_cases hpq : p = q
    · subst hpq
      rw [hq] at hm
      cases hm
      exact .inl ⟨n', State.setNode_heap_self n', hne, (hsame _ le_rfl).symm⟩
    · exact .inl ⟨m, by rw [State.setNode_heap_ne _ hpq, hm], hne, rfl⟩
  · exact .inr hentry

section Accounts

variable {t₀ : State w}

/-- What is accounted for stays so when it is not touched and the queues are the same. -/
theorem Accounted.kept (h : Accounted geo t₀ s R) (hC : Caches geo s R) (hkept : Kept s s')
    (hR : ∀ x n, s.heap x = some (.node n) → R₀ x = R x) {o : Obj w} (hx : s.heap x = some o) :
    t₀.heap x ≠ none ∨ (∃ n, o = .node n) ∨ (s'.kfail = true ∧ o.Remnant) ∨ ∃ p, Owns geo s' R₀ p x := by
  rcases h x o hx with hold | hnode | ⟨hk, hrem⟩ | ⟨q, hown⟩
  · exact .inl hold
  · exact .inr (.inl hnode)
  · exact .inr (.inr (.inl ⟨hkept.kfail hk, hrem⟩))
  · obtain ⟨n, hn, hring, hpart⟩ := hC.owns hown
    refine .inr (.inr (.inr ⟨q, ?_⟩))
    rw [Owns, hR q n hn]
    exact hpart.imp (fun heq => ⟨n, hkept.heap q _ hn, hring.ne_nil, heq⟩) id

theorem Accounted.setNode {n n' : Words w} (h : Accounted geo t₀ s R) (hp : s.heap p = some (.node n))
    (hsame : SameCache geo n n') : Accounted geo t₀ (s.setNode p n') R := by
  intro x o hx
  by_cases hxp : x = p
  · rw [hxp, State.setNode_heap_self] at hx
    cases hx
    exact .inr (.inl ⟨n', rfl⟩)
  · rw [State.setNode_heap_ne _ hxp] at hx
    rcases h x o hx with hold | hnode | hrem | ⟨q, hown⟩
    · exact .inl hold
    · exact .inr (.inl hnode)
    · exact .inr (.inr (.inl hrem))
    · exact .inr (.inr (.inr ⟨q, hown.setNode hp hsame⟩))

/-- An insertion that succeeds leaves nothing behind. -/
theorem cbtreeInsert_accounted {key : Words w} {v : Ptr w} (hN : 0 < geo.noPairs)
    (h₀ : Caches geo s₀ R₀) (hacc₀ : Accounted geo t₀ s₀ R₀) (hrun : cbtreeInsert geo key v s₀ = .ok (0, s)) :
    ∃ R, Grew geo s₀ s R₀ R ∧ Accounted geo t₀ s R := by
  have hstable : InsertStable geo (fun s => ∃ R, Grew geo s₀ s R₀ R ∧ Accounted geo t₀ s R)
      fun _ => True :=
    { slots := fun s p n n' ⟨R, h, hacc⟩ hp hsame => ⟨R, h.setNode hp hsame, hacc.setNode hp hsame⟩
      head := fun s head ⟨R, h, hacc⟩ => ⟨R, h.sameHeap rfl rfl, hacc⟩
      pool := fun s pool ⟨R, h, hacc⟩ => ⟨R, h.sameHeap rfl rfl, hacc⟩
      alloc := fun s s' p ⟨R, h, hacc⟩ hnew => by
        obtain ⟨es, h', haccount⟩ := h.alloc hnew
        refine ⟨⟨_, h', fun x o hx => ?_⟩, trivial⟩
        cases hobj : s.heap x with
        -- what was there before keeps its owner
        | some o' =>
          rw [hnew.kept.heap x o' hobj] at hx
          cases hx
          refine hacc.kept h.caches hnew.kept (fun q n hq => Function.update_of_ne ?_ _ _) hobj
          rintro rfl
          rw [hnew.free] at hq
          cases hq
        | none =>
          -- what is new is the node, its queue, or what a failed `kmalloc` has left
          rcases haccount x o hx with hlive | rfl | hrem | hown
          · exact absurd hobj hlive
          · obtain ⟨n, hn, -⟩ := hnew.node
            rw [hn] at hx
            cases hx
            exact .inr (.inl ⟨n, rfl⟩)
          · exact .inr (.inr (.inl hrem))
          · exact .inr (.inr (.inr ⟨p, hown⟩)) }
  exact cbtreeInsert_keeps hN hstable (.inl rfl) hrun ⟨R₀, .refl h₀, hacc₀⟩

end Accounts

end CachedBTree
