import CachedBTree.Caching.Updates
import CachedBTree.Insertion.Usage
import CachedBTree.Removal.Absent

/-! # Two trees in one memory

Two heads share the allocators and the memory but no node.  A call on one of the trees changes
nothing of the other: an insertion writes to nodes of its own tree and to new ones, a lookup to
queues and reference counts, and a removal that returns to a leaf and the nodes above it. -/

namespace CachedBTree

open CachedBTree.Support Relation

variable {w : Nat} {geo : Geo} {s s' s₀ : State w} {other : Head w} {p x : Ptr w} {G G' H : Labels w} {R R' : Rings w}
  {key : Words w}

/-- The tree of `s` and the tree of another head. -/
structure TwoTrees (geo : Geo) (other : Head w) (s : State w) (G H : Labels w) (R : Rings w) : Prop where
  tree : Tree geo 1 1 1 s G
  other : Tree geo 1 1 1 (s.withHead other) H
  apart : ∀ x, (G x).lvl = 0 ∨ (H x).lvl = 0
  caches : Caches geo s R
  counted : Counted geo s R

theorem CacheWrite.withHead (h : CacheWrite geo s s') (head : Head w) :
    CacheWrite geo (s.withHead head) (s'.withHead head) where
  mem := by
    rw [h.mem]
    rfl
  node := h.node
  back := h.back
  live := h.live

theorem CacheWrite.sameUse (h : CacheWrite geo s s') : SameUse s s' where
  pool := by rw [h.mem]
  slab := by rw [h.mem]
  use := h.live

/-- A removal that returns writes to nodes of its tree only. -/
theorem Tree.remove_frame {ret : Ptr w} (hN : 4 ≤ geo.noPairs) (h : Tree geo 1 1 1 s G) (hC : Caches geo s R)
    (hrun : cbtreeRemove geo (Reclaim.code geo) key s = .ok (ret, s')) (hx : (G x).lvl = 0) :
    s'.heap x = s.heap x := by
  by_cases hh : s.height = 0
  · rw [cbtreeRemove, if_pos hh] at hrun
    cases hrun
    rfl
  · obtain ⟨p, s₁, G₁, n, -, hrouted, -, -, hcase⟩ := h.removal (by omega) hC (by omega) hrun
    have hheap := hrouted.heap x (by omega)
    rcases hcase with ⟨-, -, rfl⟩ | ⟨-, n', l', -, rfl, -⟩
    · exact hheap
    · rw [State.setNode_heap_ne, hheap]
      rintro rfl
      have hlvl := hrouted.lvl
      rw [hrouted.lowered.lvl] at hlvl
      omega

theorem Reduced.page_sublist {G₁ : Labels w} {ret : Ptr w} {k : Nat} (h : Reduced geo key ret s G₁ G')
    (hlowered : Lowered k G G₁) (hx : (G x).lvl = 1) : (G' x).page.Sublist (G x).page := by
  have hleaf : (G₁ x).page = (G x).page := hlowered.page_leaf (by omega)
  cases h with
  | kept => rw [hleaf]
  | leaf p l' _ hthin _ =>
    by_cases hxp : x = p
    · subst hxp
      rw [Function.update_self, ← hleaf]
      exact hthin.sublist
    · rw [Function.update_of_ne hxp, hleaf]

namespace TwoTrees

/-- The heads can change places. -/
theorem swap (h : TwoTrees geo other s G H R) : TwoTrees geo s.toHead (s.withHead other) H G R where
  tree := h.other
  other := h.tree
  apart x := (h.apart x).symm
  caches := h.caches.withHead other
  counted := h.counted

/-- A tree whose nodes are not written to. -/
theorem frame_other (h : TwoTrees geo other s G H R) (hheap : ∀ x, 1 ≤ (H x).lvl → s'.heap x = s.heap x) :
    Tree geo 1 1 1 (s'.withHead other) H :=
  h.other.heap_frame rfl hheap

theorem insert {val : Ptr w} {err : Int} (hN : 4 ≤ geo.noPairs) (h : TwoTrees geo other s G H R)
    (hrun : cbtreeInsert geo key val s = .ok (err, s')) :
    ∃ G' R', TwoTrees geo other s' G' H R' ∧ Grew geo s s' R R' ∧
      (err = -ENOMEM ∧ OutOfMemory geo key s ∧ entries geo s' = entries geo s ∨
        err = 0 ∧ ¬OutOfMemory geo key s ∧ (entries geo s').Perm ((keyNum geo key, val) :: entries geo s)) := by
  obtain ⟨hval, habsent⟩ := h.tree.absent_of_ok hrun
  obtain ⟨R', hgrew⟩ := cbtreeInsert_grew (by omega) h.caches hrun
  obtain ⟨G', hT, hbelow, hres⟩ : ∃ G', Tree geo 1 1 1 s' G' ∧ Below 1 s s' G G' ∧
      (err = -ENOMEM ∧ OutOfMemory geo key s ∧ entries geo s' = entries geo s ∨
        err = 0 ∧ ¬OutOfMemory geo key s ∧ (entries geo s').Perm ((keyNum geo key, val) :: entries geo s)) := by
    rcases cbtreeInsert_new hN le_rfl (by omega) le_rfl (by omega) h.tree hval habsent with
      hnull | ⟨s₁, G', hfail, hrefused⟩ | ⟨s₁, G', leaf, hok, -, hins⟩
    · rw [hnull] at hrun
      cases hrun
    · rw [hfail] at hrun
      cases hrun
      exact ⟨G', hrefused.tree, hrefused.below, .inl ⟨rfl, hrefused.memory, hrefused.entries h.tree⟩⟩
    · rw [hok] at hrun
      cases hrun
      exact ⟨G', hins.tree, hins.below, .inr ⟨rfl, hins.memory, hins.entries h.tree (h.tree.absent.mpr habsent)⟩⟩
  -- the nodes of the other tree have no level in this one, so they are kept
  have hzero : ∀ x, 1 ≤ (H x).lvl → (G x).lvl = 0 := fun x hx => (h.apart x).resolve_right (by omega)
  refine ⟨G', R', ⟨hT, h.frame_other fun x hx => ?_, fun x => ?_, hgrew.caches,
    hgrew.counted h.caches h.counted⟩, hgrew, hres⟩
  · obtain ⟨n, hn, -⟩ := h.other.load hx
    have hn : s.heap x = some (.node n) := hn
    rw [hn, hbelow.heap x _ (by have := hzero x hx; omega) hn]
  · -- a new node was free, so it is none of the other tree
    by_contra hboth
    have hG' : 1 ≤ (G' x).lvl := by omega
    have hH : 1 ≤ (H x).lvl := by omega
    obtain ⟨n, hn, -⟩ := h.other.load hH
    have hn : s.heap x = some (.node n) := hn
    rw [(hbelow.fresh x (hzero x hH) hG').1] at hn
    cases hn

/-- A lookup, in a tree whose entries name its own leaves. -/
theorem lookup {ret : Ptr w} (h : TwoTrees geo other s G H R) (haimed : Aimed G R)
    (hrun : cbtreeLookup geo key s = .ok (ret, s')) :
    ret = answer geo key s s.height s.node ∧ ∃ R', TwoTrees geo other s' G H R' ∧ Aimed G R' ∧
      Looked geo G key ret s R s' R' := by
  obtain ⟨hret, R', hwarm, hlooked, -⟩ := Warm.lookup ⟨h.tree, h.caches, h.counted, haimed⟩ hrun
  rw [← hret] at hlooked
  exact ⟨hret, R', ⟨hwarm.tree, (hlooked.write.withHead other).tree h.other, h.apart, hwarm.caches,
    hwarm.counted⟩, hwarm.aimed, hlooked⟩

/-- A removal that returns, of a key that is stored. -/
theorem remove {ret : Ptr w} (hN : 4 ≤ geo.noPairs) (h : TwoTrees geo other s G H R) (haimed : Aimed G R)
    (hstored : ¬Absent geo s key) (hrun : cbtreeRemove geo (Reclaim.code geo) key s = .ok (ret, s')) :
    ∃ G', TwoTrees geo other s' G' H R ∧ Aimed G' R ∧ (∀ x, (G' x).lvl = (G x).lvl) ∧
      (∀ x, (G x).lvl = 1 → (G' x).page = (G x).page.filter fun e => decide (e.1 ≠ keyNum geo key)) ∧
      entries geo s' = (entries geo s).filter fun e => decide (e.1 ≠ keyNum geo key) := by
  have hwarm : Warm geo 1 1 s G R := ⟨h.tree, h.caches, h.counted, haimed⟩
  obtain ⟨-, hentries⟩ := hwarm.remove_stored hN hstored hrun
  obtain ⟨G₁, G', hwarm', hlowered, hreduced, -⟩ := hwarm.remove hN hrun
  have hlvl : ∀ x, (G' x).lvl = (G x).lvl := fun x => (hreduced.lvl x).trans (hlowered.lvl x)
  refine ⟨G', ⟨hwarm'.tree, h.frame_other fun x hx => ?_, fun x => hlvl x ▸ h.apart x, hwarm'.caches,
    hwarm'.counted⟩, hwarm'.aimed, hlvl, fun x hx => ?_, hentries⟩
  · exact h.tree.remove_frame hN h.caches hrun ((h.apart x).resolve_right (by omega))
  · refine ((hwarm'.tree.chain x (by rw [hlvl]; omega)).descending).ext
      ((h.tree.chain x (by omega)).descending.filter _) fun e => ?_
    have hsub : ∀ {y}, (G y).lvl = 1 → (G' y).page.Sublist (G y).page := hreduced.page_sublist hlowered
    have hmem' := hwarm'.tree.mem_entries (e := e)
    have hmem := h.tree.mem_entries (e := e)
    rw [hentries, List.mem_filter, decide_eq_true_eq] at hmem'
    rw [List.mem_filter, decide_eq_true_eq]
    constructor
    · intro he
      exact ⟨(hsub hx).subset he, (hmem'.mpr ⟨x, (hlvl x).trans hx, he⟩).2⟩
    · rintro ⟨he, hne⟩
      obtain ⟨y, hy, hey⟩ := hmem'.mp ⟨hmem.mpr ⟨x, hx, he⟩, hne⟩
      rw [hlvl] at hy
      -- a key is in one leaf only
      obtain rfl : x = y := h.tree.key_unique (by omega) (by omega) ((hsub hy).subset hey) he rfl
      exact hey

end TwoTrees

end CachedBTree
