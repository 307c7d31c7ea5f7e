import CachedBTree.Support.Tally
import CachedBTree.Writes
import Mathlib.Data.FinEnum

/-! # The caches of all nodes

Every node owns a queue with four entries, and no two nodes share a part of it.  `Caches`
says so for the whole memory, with the entries of each node in the order of its queue;
`Counted` says that the reference counts are right.  What only writes slots, allocates or
gives back a node keeps both. -/

namespace CachedBTree

open CachedBTree.Support

variable {w : Nat} {geo : Geo} {s s' : State w} {p q x : Ptr w}

/-- The entries of each node, from the head of its queue on. -/
abbrev Rings (w : Nat) := Ptr w → List (Entry w)

/-- `x` is part of the queue of `p`: the queue itself, an entry or a key buffer. -/
def Owns (geo : Geo) (s : State w) (R : Rings w) (p x : Ptr w) : Prop :=
  (∃ n, s.heap p = some (.node n) ∧ R p ≠ [] ∧ x = n geo.arrLen) ∨
  ∃ e ∈ R p, x = e.addr ∨ e.key ≠ 0#w ∧ x = e.key

/-- The queues of the nodes in memory.  A node has none when a `kmalloc` has failed. -/
structure Caches (geo : Geo) (s : State w) (R : Rings w) : Prop where
  null : ∀ n, s.heap 0#w ≠ some (.node n)
  node : ∀ p, R p ≠ [] → ∃ n, s.heap p = some (.node n)
  ring : ∀ p n, s.heap p = some (.node n) →
    (n geo.arrLen = 0#w ∧ R p = [] ∧ s.kfail = true) ∨ Ring s (n geo.arrLen) (R p)
  apart : ∀ p q x, Owns geo s R p x → Owns geo s R q x → p = q
  keyed : s.kfail = false → ∀ p, ∀ e ∈ R p, e.key ≠ 0#w
  idle : ∀ p n, s.heap p = some (.node n) → n (geo.arrLen + 2) ≠ 1#w
  live : ∀ p, ∀ e ∈ R p, e.node ≠ 0#w → ∃ n, s.heap e.node = some (.node n)

/-- The entries that point to `x`. -/
def refCount (R : Rings w) (x : Ptr w) : Nat := tally (fun e => decide (e.node = x)) R

/-- Every reference count is the number of entries that point to the node. -/
def Counted (geo : Geo) (s : State w) (R : Rings w) : Prop :=
  ∀ p n, s.heap p = some (.node n) → n (geo.arrLen + 1) = BitVec.ofNat w (refCount R p)

/-- Memory with an address other than `NULL` has words other than 0. -/
theorem one_ne_zero_of_ptr (hp : p ≠ 0#w) : (0#w : Word w) ≠ 1#w := by
  intro heq
  apply hp
  have hw : w = 0 := by
    by_contra hne
    have := congrArg BitVec.toNat heq
    simp [BitVec.toNat_ofNat, Nat.mod_eq_of_lt (Nat.one_lt_two_pow hne)] at this
  subst hw
  exact BitVec.eq_of_getLsbD_eq fun i hi => absurd hi (Nat.not_lt_zero i)

/-! ## Rings -/

section Rings

variable {e : Entry w} {es : List (Entry w)} {last : Ptr w}

/-- The first entry becomes the last one. -/
theorem Linked.append_one : ∀ {es : List (Entry w)}, Linked s e.addr es →
    s.heap e.addr = some (.entry e.node e.key last) → Linked s last (es ++ [e])
  | [], _, he => ⟨he, trivial⟩
  | a :: es, h, he => by
    refine ⟨h.1.trans ?_, h.2.append_one he⟩
    cases es <;> rfl

theorem Ring.ne_nil (h : Ring s q es) : es ≠ [] := by
  rintro rfl
  have := h.length
  simp at this

/-- A buffer that belongs to one entry only. -/
theorem Ring.key_ne (h : Ring s q (e :: es)) {a : Entry w} (ha : a ∈ es) (he : e.key ≠ 0#w) :
    a.key ≠ e.key := fun heq => (List.pairwise_cons.mp h.keys).1 a ha he heq.symm

end Rings

namespace Caches

variable {R : Rings w}

theorem owns (h : Caches geo s R) (hx : Owns geo s R p x) :
    ∃ n, s.heap p = some (.node n) ∧ Ring s (n geo.arrLen) (R p) ∧
      (x = n geo.arrLen ∨ ∃ e ∈ R p, x = e.addr ∨ e.key ≠ 0#w ∧ x = e.key) := by
  have hne : R p ≠ [] := by
    rcases hx with ⟨_, _, hne, _⟩ | ⟨e, he, _⟩
    · exact hne
    · exact List.ne_nil_of_mem he
  obtain ⟨n, hn⟩ := h.node p hne
  have hring := (h.ring p n hn).resolve_left fun hnone => hne hnone.2.1
  refine ⟨n, hn, hring, hx.imp ?_ id⟩
  rintro ⟨n', hn', -, rfl⟩
  rw [hn] at hn'
  rw [Obj.node.inj (Option.some.inj hn')]

theorem owns_object (h : Caches geo s R) (hx : Owns geo s R p x) :
    ∃ o, s.heap x = some o ∧ ∀ n, o ≠ .node n := by
  obtain ⟨n, -, hring, hpart⟩ := h.owns hx
  exact hring.object hpart

/-- The words of the caches stay, and so do the objects that are not nodes. -/
theorem mono (h : Caches geo s R) (hk : s'.kfail = s.kfail) (hside : SideKept s s')
    (hback : ∀ x n', s'.heap x = some (.node n') →
      ∃ n, s.heap x = some (.node n) ∧ n' geo.arrLen = n geo.arrLen ∧
        n' (geo.arrLen + 2) = n (geo.arrLen + 2))
    (hkept : ∀ x n, s.heap x = some (.node n) → ∃ n', s'.heap x = some (.node n')) :
    Caches geo s' R where
  null n hn := by
    obtain ⟨m, hm, -⟩ := hback 0#w n hn
    exact h.null m hm
  node p hp := by
    obtain ⟨n, hn⟩ := h.node p hp
    exact hkept p n hn
  ring p n' hn' := by
    obtain ⟨n, hn, hword, -⟩ := hback p n' hn'
    rw [hword, hk]
    exact (h.ring p n hn).imp_right fun hring => hring.mono hside
  apart p q x hp hq := by
    have hown : ∀ p, Owns geo s' R p x → Owns geo s R p x := by
      rintro p (⟨n', hn', hne, rfl⟩ | hentry)
      · obtain ⟨n, hn, hword, -⟩ := hback p n' hn'
        exact .inl ⟨n, hn, hne, hword⟩
      · exact .inr hentry
    exact h.apart p q x (hown p hp) (hown q hq)
  keyed hk' := h.keyed (hk ▸ hk')
  idle p n' hn' := by
    obtain ⟨n, hn, -, hflag⟩ := hback p n' hn'
    rw [hflag]
    exact h.idle p n hn
  live p e he hne := by
    obtain ⟨n, hn⟩ := h.live p e he hne
    exact hkept e.node n hn

/-- The queues do not depend on the head. -/
theorem withHead (h : Caches geo s R) (head : Head w) : Caches geo (s.withHead head) R :=
  h.mono rfl (fun _ _ hx _ => hx) (fun _ n hx => ⟨n, hx, rfl, rfl⟩) fun _ n hx => ⟨n, hx⟩

/-- A write to slots. -/
theorem setNode {n n' : Words w} (h : Caches geo s R) (hp : s.heap p = some (.node n))
    (hsame : SameCache geo n n') : Caches geo (s.setNode p n') R := by
  refine h.mono rfl (SideKept.setNode n' hp) (fun x m hx => ?_) fun x m hx => ?_
  · by_cases hxp : x = p
    · subst hxp
      rw [State.setNode_heap_self] at hx
      cases hx
      exact ⟨n, hp, hsame _ le_rfl, hsame _ (by omega)⟩
    · rw [State.setNode_heap_ne _ hxp] at hx
      exact ⟨m, hx, rfl, rfl⟩
  · by_cases hxp : x = p
    · exact ⟨n', by rw [hxp, State.setNode_heap_self]⟩
    · exact ⟨m, by rw [State.setNode_heap_ne _ hxp, hx]⟩

end Caches

theorem Counted.setNode {R : Rings w} {n n' : Words w} (h : Counted geo s R)
    (hp : s.heap p = some (.node n)) (hsame : SameCache geo n n') : Counted geo (s.setNode p n') R := by
  intro x m hx
  by_cases hxp : x = p
  · subst hxp
    rw [State.setNode_heap_self] at hx
    cases hx
    rw [hsame _ (by omega)]
    exact h x n hp
  · rw [State.setNode_heap_ne _ hxp] at hx
    exact h x m hx

end CachedBTree
