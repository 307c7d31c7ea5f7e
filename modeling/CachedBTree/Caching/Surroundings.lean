import CachedBTree.Caching.Updates

/-! # What lies behind the objects

The code reads behind two kinds of objects: the deleted flag of a node is the first word of whatever
comes after its `NODESIZE` bytes, and `findNode` compares more words than a key buffer has.  No call
writes there, but other objects do lie there, so a call may find something else than the call before.
The tree and its caches do not depend on it as long as no node looks deleted. -/

namespace CachedBTree

variable {w : Nat} {geo : Geo} {s : State w} {p q x : Ptr w} {R : Rings w} {G : Labels w} {m r : Nat}
  {behind : Ptr w → Words w}

/-- The object with `words` behind it. -/
def Obj.amid (geo : Geo) (words : Words w) : Obj w → Obj w
  | .node ws => .node (Function.update ws (geo.arrLen + 2) (words 0))
  | .buf ws => .buf fun j => if j < 2 then ws j else words j
  | o => o

/-- The memory as a call finds it, with `behind x` behind the object at `x`. -/
def State.amid (geo : Geo) (behind : Ptr w → Words w) (s : State w) : State w :=
  { s with heap := fun x => (s.heap x).map (Obj.amid geo (behind x)) }

namespace State

theorem amid_eq {o : Obj w} (hx : s.heap x = some o) : (s.amid geo behind).heap x = some (o.amid geo (behind x)) := by
  simp only [amid, hx, Option.map_some]

theorem amid_node {n : Words w} (hx : s.heap x = some (.node n)) :
    (s.amid geo behind).heap x = some (.node (Function.update n (geo.arrLen + 2) (behind x 0))) := amid_eq hx

theorem node_of_amid {n' : Words w} (hx : (s.amid geo behind).heap x = some (.node n')) :
    ∃ n, s.heap x = some (.node n) ∧ n' = Function.update n (geo.arrLen + 2) (behind x 0) := by
  obtain ⟨o, ho, heq⟩ := Option.map_eq_some_iff.mp hx
  cases o with
  | node n =>
    cases heq
    exact ⟨n, ho, rfl⟩
  | queue head => cases heq
  | entry node key next => cases heq
  | buf ws => cases heq

end State

theorem Linked.amid {last : Ptr w} : ∀ {es : List (Entry w)}, Linked s last es → Linked (s.amid geo behind) last es
  | [], _ => trivial
  | _ :: _, h => ⟨State.amid_eq h.1, h.2.amid⟩

theorem Ring.amid {es : List (Entry w)} (h : Ring s q es) : Ring (s.amid geo behind) q es where
  queue := ⟨h.queue.1, State.amid_eq h.queue.2⟩
  length := h.length
  linked := h.linked.amid
  addr_ne := h.addr_ne
  addrs := h.addrs
  key e he := (h.key e he).imp_right fun ⟨hne, _, hbuf⟩ => ⟨hne, _, State.amid_eq hbuf⟩
  keys := h.keys

theorem Caches.amid (h : Caches geo s R) (hflags : ∀ x, behind x 0 ≠ 1#w) : Caches geo (s.amid geo behind) R where
  null n' hn' := by
    obtain ⟨n, hn, -⟩ := State.node_of_amid hn'
    exact h.null n hn
  node p hp := by
    obtain ⟨n, hn⟩ := h.node p hp
    exact ⟨_, State.amid_node hn⟩
  ring p n' hn' := by
    obtain ⟨n, hn, rfl⟩ := State.node_of_amid hn'
    rw [Function.update_of_ne (by omega)]
    exact (h.ring p n hn).imp_right Ring.amid
  apart p q x hp hq := by
    have howns : ∀ y, Owns geo (s.amid geo behind) R y x → Owns geo s R y x := by
      rintro y (⟨n', hn', hne, rfl⟩ | hentry)
      · obtain ⟨n, hn, rfl⟩ := State.node_of_amid hn'
        exact .inl ⟨n, hn, hne, Function.update_of_ne (by omega) _ _⟩
      · exact .inr hentry
    exact h.apart p q x (howns p hp) (howns q hq)
  keyed := h.keyed
  idle p n' hn' := by
    obtain ⟨n, hn, rfl⟩ := State.node_of_amid hn'
    rw [Function.update_self]
    exact hflags p
  live p e he hne := by
    obtain ⟨n, hn⟩ := h.live p e he hne
    exact ⟨_, State.amid_node hn⟩

theorem Tree.amid (h : Tree geo m r 1 s G) : Tree geo m r 1 (s.amid geo behind) G := by
  refine h.frame rfl fun x n _ hx => ⟨_, State.amid_node hx, fun i hi => ?_⟩
  have hval : geo.noLongs + i < geo.arrLen := value_word_lt hi
  refine Prod.ext (keyNum_congr fun j hj => ?_) (Function.update_of_ne (by omega) _ _)
  have hkey : i * geo.keylen + j < geo.noLongs := key_word_lt hi hj
  exact Function.update_of_ne (by omega) _ _

/-- The tree with its caches does not change with what lies behind the objects. -/
theorem Warm.amid (h : Warm geo m r s G R) (hflags : ∀ x, behind x 0 ≠ 1#w) :
    Warm geo m r (s.amid geo behind) G R where
  tree := h.tree.amid
  caches := h.caches.amid hflags
  counted x n' hx := by
    obtain ⟨n, hn, rfl⟩ := State.node_of_amid hx
    rw [Function.update_of_ne (by omega)]
    exact h.counted x n hn
  aimed := h.aimed

end CachedBTree
