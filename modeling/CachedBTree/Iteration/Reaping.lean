import CachedBTree.Caching.Lifecycle
import CachedBTree.Iteration.Walk
import CachedBTree.Removal.Faults

/-! # `cbtree_grim_visitor`

The walk that reaps comes to the leftmost leaf first, makes its calls, and hands the leaf to
`freeQueue`, which does not return: nothing has ever been cached in a leaf, so the second
entry of its queue holds `NULL`.  Only a head without a node is left as it should be. -/

namespace CachedBTree

open CachedBTree.Support

variable {w : Nat} {geo : Geo} {s s' s₀ : State w} {p : Ptr w} {G : Labels w} {R : Rings w} {m r : Nat}

/-! ## The walk that reaps -/

/-- A loop whose body does not return for the first child does not return. -/
theorem forEachLoop_stops {n : Words w} {k : Nat} {c : Ptr w} {l : Page w} {d : Nat} {seen : Visits w}
    (body : Ptr w → Words w → Visits w → State w → Except Fault (Visits w × State w))
    (hload : s.load p = .ok n) (hholds : Holds geo n ((k, c) :: l)) (hd : 0 < d)
    (hbody : ∀ key res, body c key seen s ≠ .ok res) (res : Visits w × State w) :
    forEachLoop geo p body 0 d seen s ≠ .ok res := by
  intro hrun
  obtain ⟨d, rfl⟩ : ∃ d', d = d' + 1 := ⟨d - 1, by omega⟩
  have hcut : Holds geo n ([] ++ (k, c) :: l) := hholds
  have hfirst : bval geo n 0 = c := hcut.bval_append
  have hne : c ≠ 0#w := hfirst ▸ hholds.bval_ne_zero (by simp)
  rw [forEachLoop, hload, ok_bind] at hrun
  simp only [hfirst, if_neg hne] at hrun
  obtain ⟨res₁, hres₁, -⟩ := bind_eq_ok.mp hrun
  exact hbody _ res₁ hres₁

/-- No node is reaped by a call that returns. -/
theorem Warm.reap_stops (h : Warm geo m r s G R) (hm : 1 ≤ m) (hr : 1 ≤ r) : ∀ {d : Nat} {p : Ptr w}
    (seen : Visits w) (res : Visits w × State w), (G p).lvl = d + 1 →
    cbtreeForEach geo true d p seen s ≠ .ok res := by
  intro d
  induction d with
  | zero =>
    intro p seen res hp hrun
    obtain ⟨n, hn, hload, hholds⟩ := h.tree.load (p := p) (by omega)
    -- the calls for the entries of the leaf leave the memory alone
    obtain ⟨seen', hloop, -⟩ := forEachLoop_visited
      (fun child key seen s => .ok (⟨seen.calls ++ [⟨child, key, seen.count⟩], seen.count + 1⟩, s))
      (fun e => [e]) hload [] (G p).page seen hholds (Nat.zero_add _) fun e _ key seen hkey => ⟨_, rfl, by
        have hone := Visited.one geo e.2 key seen
        rwa [hkey] at hone⟩
    simp only [List.length_nil] at hloop
    rw [cbtreeForEach, hloop, ok_bind] at hrun
    obtain ⟨s₁, hreap, -⟩ := bind_eq_ok.mp hrun
    obtain ⟨s₂, hqueue, -⟩ := bind_eq_ok.mp hreap
    exact h.caches.freeQueue_stops hn hqueue
  | succ d ih =>
    intro p seen res hp hrun
    obtain ⟨n, -, hload, hholds⟩ := h.tree.load (p := p) (by omega)
    obtain ⟨⟨k, c⟩, l, hpage⟩ := List.exists_cons_of_ne_nil (h.tree.inner_page_ne_nil hm hr (by omega)
      (by omega : 2 ≤ (G p).lvl))
    have hclvl := (h.tree.child_of_mem (p := p) (k := k) (c := c) (by omega) (by omega) (by rw [hpage]; simp)).1
    rw [hpage] at hholds
    have hlen := hholds.length_le
    rw [List.length_cons] at hlen
    rw [cbtreeForEach] at hrun
    obtain ⟨res₁, hloop, -⟩ := bind_eq_ok.mp hrun
    exact forEachLoop_stops _ hload hholds (by omega)
      (fun _ res => ih seen res (by omega)) res₁ hloop

/-! ## What it should do -/

/-- The call returns after the calls of `cbtree_visitor`, with all nodes and their queues given back (a second
release would stop it) and the head empty. -/
def ReapsAll (geo : Geo) (s : State w) : Prop :=
  ∃ seen s', cbtreeGrimVisitor geo s = .ok (seen, s') ∧ cbtreeVisitor geo s = .ok (seen, s) ∧
    (∀ e ∈ nodes geo s, s'.heap e.2 = none ∧ ∀ x, x ≠ 0#w → QueuePart geo s e.2 x → s'.heap x = none) ∧
    s'.node = 0#w ∧ s'.height = 0

/-- `cbtree_grim_visitor` does this if and only if there is no node. -/
theorem cbtreeGrimVisitor_iff (hN : 4 ≤ geo.noPairs) (h₀ : Blank s₀) (h : Run geo InsertsLooksUp s₀ s) :
    ReapsAll geo s ↔ s.node = 0#w := by
  obtain ⟨G, R, hwarm⟩ := warm_of_calls hN h₀ h
  constructor
  · rintro ⟨seen, s', hrun, -⟩
    by_contra hne
    have hh : s.height ≠ 0 := fun hzero => hne (hwarm.tree.empty hzero)
    have hroot := hwarm.tree.root_lvl (by omega)
    rw [cbtreeGrimVisitor, if_pos hne] at hrun
    obtain ⟨res, hreap, -⟩ := bind_eq_ok.mp hrun
    exact hwarm.reap_stops (by omega) (by omega) ⟨[], 0⟩ res (by omega) hreap
  · intro hnull
    have hh : s.height = 0 := by
      by_contra hne
      exact hwarm.tree.ne_null (by rw [hwarm.tree.root_lvl (by omega)]; omega) hnull
    refine ⟨⟨[], 0⟩, s.withHead ⟨0#w, 0⟩, ?_, ?_, ?_, rfl, rfl⟩
    · simp [cbtreeGrimVisitor, hnull, ok_bind]
    · simp [cbtreeVisitor, hnull]
    · rw [nodes, hh, nodesBelow]
      simp

theorem cbtreeGrimVisitor_iff_empty : ReapsAll Machine.x86_64.cbtree_geo64 (arena 1) :=
  (cbtreeGrimVisitor_iff (by decide) (arena_blank 1) .refl).mpr rfl

/-- One stored key is enough: the first round looks at the second entry of the leaf's queue. -/
theorem cbtreeGrimVisitor_follows_null :
    ¬∀ s, Run Machine.x86_64.cbtree_geo64 InsertsLooksUp (arena 1) s → ReapsAll Machine.x86_64.cbtree_geo64 s := by
  intro hclaim
  obtain ⟨seen, s', hrun, -⟩ := hclaim _
    (Cmd.run_execAll Machine.x86_64.cbtree_geo64 InsertsLooksUp [.insert (wordKey 5) 0x77#64] (arena 1))
  have hfault : faulted (cbtreeGrimVisitor Machine.x86_64.cbtree_geo64
      (Cmd.execAll Machine.x86_64.cbtree_geo64 InsertsLooksUp [.insert (wordKey 5) 0x77#64] (arena 1))) =
        some .nullDeref := by
    decide +kernel
  rw [hrun] at hfault
  cases hfault

end CachedBTree
