import CachedBTree.Caching.Rings
import CachedBTree.Labels

/-! # What a lookup does to one cache

`findNode` looks through the four entries of a node and, when none of them answers, makes
the second one the first.  `setcache` writes over the first entry, moves the reference
from the leaf it named to the new one and turns the queue as well.  Neither touches a slot
of a node or an object of another queue. -/

namespace CachedBTree

open CachedBTree.Support

variable {w : Nat} {geo : Geo} {s s' s'' : State w} {p q x : Ptr w} {R : Rings w}

/-! ## Writes to caches -/

/-- Nothing but reference counts and objects of queues has changed. -/
structure CacheWrite (geo : Geo) (s s' : State w) : Prop where
  mem : s' = { s with heap := s'.heap }
  node : ∀ x n, s.heap x = some (.node n) →
    ∃ n', s'.heap x = some (.node n') ∧ ∀ j, j ≠ geo.arrLen + 1 → n' j = n j
  back : ∀ x n', s'.heap x = some (.node n') → ∃ n, s.heap x = some (.node n)
  live : ∀ x, s'.heap x = none ↔ s.heap x = none

namespace CacheWrite

theorem refl (geo : Geo) (s : State w) : CacheWrite geo s s :=
  ⟨rfl, fun _ n hx => ⟨n, hx, fun _ _ => rfl⟩, fun _ n hx => ⟨n, hx⟩, fun _ => Iff.rfl⟩

theorem trans (h : CacheWrite geo s s') (h' : CacheWrite geo s' s'') : CacheWrite geo s s'' where
  mem := by
    rw [h'.mem, h.mem]
  node x n hx := by
    obtain ⟨n', hx', hsame⟩ := h.node x n hx
    obtain ⟨n'', hx'', hsame'⟩ := h'.node x n' hx'
    exact ⟨n'', hx'', fun j hj => (hsame' j hj).trans (hsame j hj)⟩
  back x n'' hx := by
    obtain ⟨n', hx'⟩ := h'.back x n'' hx
    exact h.back x n' hx'
  live x := (h'.live x).trans (h.live x)

/-- Another object in place of one that is not a node. -/
theorem setSide {o o' : Obj w} (hp : s.heap p = some o) (ho : ∀ n, o ≠ .node n)
    (ho' : ∀ n, o' ≠ .node n) : CacheWrite geo s (s.setObj p (some o')) where
  mem := rfl
  node x n hx := by
    refine ⟨n, ?_, fun _ _ => rfl⟩
    rw [State.setObj_heap, if_neg, hx]
    rintro rfl
    exact ho n (Option.some.inj (hp.symm.trans hx))
  back x n hx := by
    rw [State.setObj_heap] at hx
    split at hx
    next => exact absurd (Option.some.inj hx) (ho' n)
    next => exact ⟨n, hx⟩
  live x := by
    rw [State.setObj_heap]
    split
    next hxp => simp [hxp, hp]
    next => exact Iff.rfl

theorem head (h : CacheWrite geo s s') : s'.toHead = s.toHead := by rw [h.mem]

theorem kfail (h : CacheWrite geo s s') : s'.kfail = s.kfail := by rw [h.mem]

/-- What a node was before. -/
theorem before {n' : Words w} (h : CacheWrite geo s s') (hx : s'.heap x = some (.node n')) :
    ∃ n, s.heap x = some (.node n) ∧ ∀ j, j ≠ geo.arrLen + 1 → n' j = n j := by
  obtain ⟨n, hn⟩ := h.back x n' hx
  obtain ⟨n'', hn'', hsame⟩ := h.node x n hn
  rw [hx] at hn''
  cases hn''
  exact ⟨n, hn, hsame⟩

/-- The trees in memory are as they were. -/
theorem tree {m r L : Nat} {G : Labels w} (h : CacheWrite geo s s') (hT : Tree geo m r L s G) :
    Tree geo m r L s' G := by
  refine hT.frame h.head fun x n _ hx => ?_
  obtain ⟨n', hx', hsame⟩ := h.node x n hx
  refine ⟨n', hx', fun i hi => ?_⟩
  have hval : geo.noLongs + i < geo.arrLen := value_word_lt hi
  refine Prod.ext (keyNum_congr fun j hj => ?_) ?_
  · have : i * geo.keylen + j < geo.noLongs := key_word_lt hi hj
    have harr : geo.arrLen = geo.keylen * geo.noPairs + geo.noLongs := rfl
    exact hsame _ (by omega)
  · exact hsame _ (by omega)

end CacheWrite

/-- The addresses of an entry and of its key buffer. -/
def Entry.parts (e : Entry w) : Ptr w × Ptr w := (e.addr, e.key)

theorem owns_iff_parts : Owns geo s R p x ↔
    (∃ n, s.heap p = some (.node n) ∧ (R p).map Entry.parts ≠ [] ∧ x = n geo.arrLen) ∨
      ∃ a ∈ (R p).map Entry.parts, x = a.1 ∨ a.2 ≠ 0#w ∧ x = a.2 := by
  unfold Owns
  simp [Entry.parts]

/-- What belongs to a queue does not depend on what the entries name or on their order. -/
theorem CacheWrite.owns_iff {R' : Rings w} (hw : CacheWrite geo s s')
    (hparts : ((R' p).map Entry.parts).Perm ((R p).map Entry.parts)) :
    Owns geo s' R' p x ↔ Owns geo s R p x := by
  rw [owns_iff_parts, owns_iff_parts]
  have hne : (R' p).map Entry.parts ≠ [] ↔ (R p).map Entry.parts ≠ [] :=
    not_congr ⟨fun h => by simpa [h] using hparts.symm, fun h => by simpa [h] using hparts⟩
  have hentry : (∃ a ∈ (R' p).map Entry.parts, x = a.1 ∨ a.2 ≠ 0#w ∧ x = a.2) ↔
      ∃ a ∈ (R p).map Entry.parts, x = a.1 ∨ a.2 ≠ 0#w ∧ x = a.2 :=
    exists_congr fun a => and_congr_left' hparts.mem_iff
  rw [hne, hentry]
  refine or_congr_left ⟨?_, ?_⟩
  · rintro ⟨n', hn', hnil, hx⟩
    obtain ⟨n, hn, hsame⟩ := hw.before hn'
    exact ⟨n, hn, hnil, hx.trans (hsame _ (by omega))⟩
  · rintro ⟨n, hn, hnil, hx⟩
    obtain ⟨n', hn', hsame⟩ := hw.node p n hn
    exact ⟨n', hn', hnil, hx.trans (hsame _ (by omega)).symm⟩

/-- A queue made of objects that were a queue's already owns nothing else. -/
theorem CacheWrite.owns_of_parts {R' : Rings w} (hw : CacheWrite geo s s')
    (hparts : ∀ e' ∈ R' p, ∃ e ∈ R p, e'.addr = e.addr ∧ e'.key = e.key) (h : Owns geo s' R' p x) :
    Owns geo s R p x := by
  rcases h with ⟨n', hn', hne, rfl⟩ | ⟨e', he', hpart⟩
  · obtain ⟨n, hn, hsame⟩ := hw.before hn'
    obtain ⟨e', he'⟩ := List.exists_mem_of_ne_nil _ hne
    obtain ⟨e, he, -⟩ := hparts e' he'
    exact .inl ⟨n, hn, List.ne_nil_of_mem he, hsame _ (by omega)⟩
  · obtain ⟨e, he, haddr, hkey⟩ := hparts e' he'
    exact .inr ⟨e, he, by rwa [haddr, hkey] at hpart⟩

/-! ## Reference counts -/

/-- `d` is added to the reference count of the node. -/
def State.addRef (geo : Geo) (s : State w) (p : Ptr w) (d : Word w) : State w :=
  match s.heap p with
  | some (.node n) => s.setNode p (Function.update n (geo.arrLen + 1) (n (geo.arrLen + 1) + d))
  | _ => s

theorem State.addRef_node {n : Words w} {d : Word w} (hp : s.heap p = some (.node n)) :
    s.addRef geo p d = s.setNode p (Function.update n (geo.arrLen + 1) (n (geo.arrLen + 1) + d)) := by
  simp only [State.addRef, hp]

theorem State.addRef_heap {n : Words w} {d : Word w} (hp : s.heap p = some (.node n)) (hx : x ≠ p) :
    (s.addRef geo p d).heap x = s.heap x := by
  rw [State.addRef_node hp, State.setNode_heap_ne _ hx]

theorem CacheWrite.addRef {n : Words w} {d : Word w} (hp : s.heap p = some (.node n)) :
    CacheWrite geo s (s.addRef geo p d) := by
  rw [State.addRef_node hp]
  refine ⟨rfl, fun x m hx => ?_, fun x m hx => ?_, fun x => ?_⟩
  · by_cases hxp : x = p
    · subst hxp
      rw [hp] at hx
      cases hx
      exact ⟨_, State.setNode_heap_self _, fun j hj => Function.update_of_ne hj _ _⟩
    · exact ⟨m, by rw [State.setNode_heap_ne _ hxp, hx], fun _ _ => rfl⟩
  · by_cases hxp : x = p
    · exact ⟨n, hxp ▸ hp⟩
    · exact ⟨m, by rwa [State.setNode_heap_ne _ hxp] at hx⟩
  · by_cases hxp : x = p
    · simp [hxp, hp]
    · rw [State.setNode_heap_ne _ hxp]

/-- The word that a node counts its references with. -/
def State.refWord (geo : Geo) (s : State w) (p : Ptr w) : Word w :=
  match s.heap p with
  | some (.node n) => n (geo.arrLen + 1)
  | _ => 0#w

theorem State.refWord_node {n : Words w} (hp : s.heap p = some (.node n)) :
    s.refWord geo p = n (geo.arrLen + 1) := by
  simp only [State.refWord, hp]

theorem State.refWord_addRef {n : Words w} {d : Word w} (hp : s.heap p = some (.node n)) :
    (s.addRef geo p d).refWord geo x = if x = p then s.refWord geo x + d else s.refWord geo x := by
  by_cases hxp : x = p
  · subst hxp
    rw [if_pos rfl, State.addRef_node hp, State.refWord_node (State.setNode_heap_self _),
      State.refWord_node hp, Function.update_self]
  · rw [if_neg hxp, State.refWord, State.addRef_heap hp hxp]
    rfl

/-! ## Turning a queue -/

/-- The first entry, now with `v`, becomes the last one. -/
theorem Ring.turn {e : Entry w} {es : List (Entry w)} {v : Ptr w} (h : Ring s q (e :: es))
    (hv : e.key = 0#w → v = 0#w) (hq : s'.heap q = some (.queue (firstAddr e.addr es)))
    (hentry : s'.heap e.addr = some (.entry v e.key (firstAddr e.addr es)))
    (hkey : e.key ≠ 0#w → ∃ ws, s'.heap e.key = some (.buf ws))
    (hrest : ∀ a ∈ es, s'.heap a.addr = s.heap a.addr ∧
      (a.key ≠ 0#w → s'.heap a.key = s.heap a.key)) :
    Ring s' q (es ++ [⟨e.addr, v, e.key⟩]) := by
  -- the entry at the head becomes the last one
  have hfirst : firstAddr 0#w (es ++ [⟨e.addr, v, e.key⟩]) = firstAddr e.addr es := by cases es <;> rfl
  have hnodup := h.addrs
  rw [List.map_cons, List.nodup_cons] at hnodup
  have hlinked : Linked s' e.addr es := h.linked.2.congr fun a ha => (hrest a ha).1
  refine ⟨⟨h.queue.1, by rw [hfirst, hq]⟩, ?_, ?_, fun a ha => ?_, ?_, fun a ha => ?_, ?_⟩
  · have := h.length
    simpa using this
  · rw [hfirst]
    exact Linked.append_one (e := ⟨e.addr, v, e.key⟩) hlinked hentry
  · cases List.mem_append.mp ha with
    | inl hmem =>
      exact h.addr_ne a (List.mem_cons_of_mem _ hmem)
    | inr hmem =>
      rw [List.mem_singleton.mp hmem]
      exact h.addr_ne e (List.mem_cons_self ..)
  · rw [List.map_append, List.map_singleton, List.nodup_append]
    refine ⟨hnodup.2, List.nodup_singleton _, fun a ha b hb => ?_⟩
    rw [List.mem_singleton.mp hb]
    rintro rfl
    exact hnodup.1 ha
  · cases List.mem_append.mp ha with
    | inl hmem =>
      rcases h.key a (List.mem_cons_of_mem _ hmem) with hnone | ⟨hne, ws, hbuf⟩
      · exact .inl hnone
      · exact .inr ⟨hne, ws, ((hrest a hmem).2 hne).trans hbuf⟩
    | inr hmem =>
      rw [List.mem_singleton.mp hmem]
      by_cases hne : e.key = 0#w
      · exact .inl ⟨hne, hv hne⟩
      · exact .inr ⟨hne, hkey hne⟩
  · have hkeys := List.pairwise_cons.mp h.keys
    refine List.pairwise_append.mpr ⟨hkeys.2, List.pairwise_singleton _ _, fun a ha b hb hne => ?_⟩
    rw [List.mem_singleton.mp hb]
    rintro heq
    exact hkeys.1 a ha (heq ▸ hne) heq.symm

/-- The queue of `p` has other entries, made of the same objects. -/
theorem Caches.exchange {n : Words w} {es : List (Entry w)} (h : Caches geo s R)
    (hw : CacheWrite geo s s') (hp : s.heap p = some (.node n)) (hring : Ring s' (n geo.arrLen) es)
    (hobjs : ∀ e' ∈ es, ∃ e ∈ R p, e'.addr = e.addr ∧ e'.key = e.key ∧
      (e'.node = e.node ∨ ∃ m, s.heap e'.node = some (.node m)))
    (hothers : ∀ x o, s.heap x = some o → (∀ n, o ≠ .node n) → ¬Owns geo s R p x →
      s'.heap x = s.heap x) :
    Caches geo s' (Function.update R p es) := by
  have hself : Function.update R p es p = es := Function.update_self _ _ _
  have hother : ∀ x, x ≠ p → Function.update R p es x = R x := fun x hx =>
    Function.update_of_ne hx _ _
  generalize Function.update R p es = R' at *
  have hown : ∀ {a x}, Owns geo s' R' a x → Owns geo s R a x := fun {a x} =>
    hw.owns_of_parts fun e' he' => by
      by_cases hap : a = p
      · subst hap
        rw [hself] at he'
        obtain ⟨e, he, haddr, hkey, -⟩ := hobjs e' he'
        exact ⟨e, he, haddr, hkey⟩
      · rw [hother a hap] at he'
        exact ⟨e', he', rfl, rfl⟩
  refine ⟨fun m hm => ?_, fun a ha => ?_, fun a m' hm' => ?_,
    fun a b x ha hb => h.apart a b x (hown ha) (hown hb), fun hk a e' he' => ?_, fun a m' hm' => ?_,
    fun a e' he' hnode => ?_⟩
  · obtain ⟨m₀, hm₀, -⟩ := hw.before hm
    exact h.null m₀ hm₀
  · by_cases hap : a = p
    · obtain ⟨n', hn', -⟩ := hw.node p n hp
      exact ⟨n', hap ▸ hn'⟩
    · rw [hother a hap] at ha
      obtain ⟨m, hm⟩ := h.node a ha
      obtain ⟨m', hm', -⟩ := hw.node a m hm
      exact ⟨m', hm'⟩
  · obtain ⟨m, hm, hsame⟩ := hw.before hm'
    rw [hsame _ (by omega), hw.kfail]
    by_cases hap : a = p
    · subst hap
      rw [hp] at hm
      cases hm
      rw [hself]
      exact .inr hring
    · rw [hother a hap]
      -- the objects of another queue are none of those of `p`
      refine (h.ring a m hm).imp_right fun hr => hr.frame fun x hx => ?_
      obtain ⟨o, ho, hside⟩ := hr.object hx
      refine hothers x o ho hside fun hownp => hap (h.apart a p x ?_ hownp)
      exact hx.imp (fun heq => ⟨m, hm, hr.ne_nil, heq⟩) id
  · rw [hw.kfail] at hk
    by_cases hap : a = p
    · subst hap
      rw [hself] at he'
      obtain ⟨e, he, -, hkey, -⟩ := hobjs e' he'
      rw [hkey]
      exact h.keyed hk a e he
    · rw [hother a hap] at he'
      exact h.keyed hk a e' he'
  · obtain ⟨m, hm, hsame⟩ := hw.before hm'
    rw [hsame _ (by omega)]
    exact h.idle a m hm
  · have hlive : ∃ m, s.heap e'.node = some (.node m) := by
      by_cases hap : a = p
      · subst hap
        rw [hself] at he'
        obtain ⟨e, he, -, -, heq | hm⟩ := hobjs e' he'
        · rw [heq] at hnode ⊢
          exact h.live a e he hnode
        · exact hm
      · rw [hother a hap] at he'
        exact h.live a e' he' hnode
    obtain ⟨m, hm⟩ := hlive
    obtain ⟨m', hm', -⟩ := hw.node e'.node m hm
    exact ⟨m', hm'⟩

end CachedBTree
