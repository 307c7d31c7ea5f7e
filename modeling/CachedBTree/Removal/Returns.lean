import CachedBTree.Insertion.Soundness
import CachedBTree.Removal.Quiet

/-! # What a removal that returns has done to the tree

The comparison of `cbtree_remove_level` with the slot at the position it has found decides
everything.  When the keys differ, only separators on the way have been lowered.  When they
agree, the slot is that of the stored key or lies behind the used slots: an unused slot of
key 0, or the values of a full leaf.  Then the last pair of the leaf is lost. -/

namespace CachedBTree

open CachedBTree.Support

variable {w : Nat} {geo : Geo} {s s' : State w} {p : Ptr w} {R : Rings w} {G : Labels w} {key : Words w}
  {ret : Ptr w}

/-- The page of the leaf without the pair of the key, or without its last pair when all its keys are
larger. -/
inductive Thinning (geo : Geo) (key : Words w) (ret : Ptr w) : Page w → Page w → Prop where
  | stored (l₁ l₂ : Page w) : Thinning geo key ret (l₁ ++ (keyNum geo key, ret) :: l₂) (l₁ ++ l₂)
  | phantom (l : Page w) (e : Nat × Ptr w) (hlt : ∀ a ∈ l ++ [e], keyNum geo key < a.1) :
    Thinning geo key ret (l ++ [e]) l

theorem Thinning.sublist {l l' : Page w} (h : Thinning geo key ret l l') : l'.Sublist l := by
  cases h with
  | stored l₁ l₂ => exact (List.sublist_cons_self _ l₂).append_left l₁
  | phantom _ e _ => exact List.sublist_append_left l' [e]

theorem Thinning.length {l l' : Page w} (h : Thinning geo key ret l l') : l'.length + 1 = l.length := by
  cases h with
  | stored l₁ l₂ => simp [Nat.add_assoc]
  | phantom l e _ => simp

theorem Thinning.chain {l l' : Page w} {lo hi : Nat} (h : Thinning geo key ret l l')
    (hchain : Chain (fun _ _ (_ : Ptr w) => True) lo hi l) : Chain (fun _ _ _ => True) lo hi l' := by
  cases h with
  | stored l₁ l₂ => exact Chain.erase hchain fun _ _ _ _ _ _ => trivial
  | phantom _ _ _ => exact (chain_append.mp hchain).1

theorem Tree.thin {n' : Words w} {l' : Page w} (h : Tree geo 1 1 1 s G) (hp : (G p).lvl = 1)
    (hthin : Thinning geo key ret (G p).page l') (hleft : p ≠ s.node → l' ≠ [])
    (hholds : Holds geo n' l') :
    Tree geo 1 1 1 (s.setNode p n') (Function.update G p { G p with page := l' }) :=
  h.setLeaf hp (hthin.chain ((h.chain p (by omega)).imp le_rfl fun _ _ _ _ _ => trivial))
    (fun hne => List.length_pos_iff.mpr (hleft hne)) rfl (fun q hq _ => State.setNode_heap_ne n' hq)
    (State.setNode_heap_self n') hholds

/-- What shifting and clearing leave of a leaf when the comparison has found its key. -/
theorem thinning_of_found {n : Words w} {l : Page w} {fill : Nat} (h : Holds geo n l) (hdesc : Descending l)
    (hcmp : keycmp geo n (getpos geo n key) key = 0)
    (hfill : fill + 1 = getfill geo n (getpos geo n key)) :
    fill + 1 = l.length ∧ ∃ l', Thinning geo key (bval geo n (getpos geo n key)) l l' ∧
      Holds geo (clearpair geo (shiftLeft geo n (getpos geo n key) (fill - getpos geo n key)) fill) l' := by
  obtain ⟨l₁, l₂, rfl, h₁, h₂⟩ := hdesc.cut (keyNum geo key)
  have hpos : getpos geo n key = l₁.length := h.getpos h₁ h₂
  rw [hpos] at hcmp hfill ⊢
  rw [h.getfill (by simp)] at hfill
  refine ⟨hfill, ?_⟩
  rw [List.length_append] at hfill
  cases l₂ with
  | nil =>
    -- the slot compared lies behind the used ones
    obtain ⟨l', e, rfl⟩ : ∃ l' e, l₁ = l' ++ [e] := by
      refine ⟨l₁.dropLast, l₁.getLast ?_, (List.dropLast_append_getLast _).symm⟩
      rintro rfl
      simp at hfill
    rw [List.append_nil] at h ⊢
    have hlen : fill = l'.length := by simpa using hfill
    refine ⟨l', .phantom l' e h₁, ?_⟩
    rw [hlen, show l'.length - (l' ++ [e]).length = 0 by simp, shiftLeft]
    exact h.clear_last
  | cons e l₂ =>
    obtain ⟨k, v⟩ := e
    obtain rfl : k = keyNum geo key := h.keycmp_append.mp hcmp
    have hlen : fill = l₁.length + l₂.length := by
      simp only [List.length_cons] at hfill
      omega
    refine ⟨l₁ ++ l₂, ?_, ?_⟩
    · rw [h.bval_append]
      exact .stored l₁ l₂
    · rw [hlen, Nat.add_sub_cancel_left]
      exact h.erase

/-- The check of `rebalance`, in terms of the fills read off the memory. -/
theorem Unmerged.fills {parent : Ptr w} {words : Words w} {l : Page w} {level fill : Nat}
    (h : Unmerged geo s words key p fill) (hfind : findLevel geo (.buf key) level s = .ok (parent, s))
    (hload : s.load parent = .ok words) (hholds : Holds geo words l) (hpos : getpos geo words key ≤ l.length) :
    (∀ n ∈ leftFill geo key level s, geo.noPairs < fill + n) ∧
      ∀ n ∈ rightFill geo key level s, geo.noPairs < fill + n := by
  have hnode : nodeAt geo key level s = words := by simp only [nodeAt, hfind, hload]
  unfold leftFill rightFill
  simp only [hnode, hholds.getfill (Nat.zero_le _)]
  have hright := h.right
  rw [hholds.getfill hpos] at hright
  constructor
  · intro n hn
    split at hn
    next hlt =>
      cases hn
      exact h.left hlt
    next => cases hn
  · intro n hn
    split at hn
    next hlt =>
      cases hn
      exact hright hlt
    next => cases hn

/-- The fills of the nodes next to a leaf decide whether it can be merged. -/
theorem Tree.apart_of_fills {m r n : Nat} (h : Tree geo m r 1 s G) (hp : (G p).lvl = 1) (hne : p ≠ s.node)
    (hlo : (G p).lo ≤ keyNum geo key) (hhi : keyNum geo key < (G p).hi)
    (hleft : ∀ fill ∈ leftFill geo key 2 s, geo.noPairs < n + fill)
    (hright : ∀ fill ∈ rightFill geo key 2 s, geo.noPairs < n + fill) : G.Apart geo p n := by
  obtain ⟨-, -, -, hplvl, -⟩ := h.parent_slot (by omega) (by omega) hne
  obtain ⟨hplo, hphi⟩ := h.interval_le (by omega) (by omega) hne
  intro k₀ l₁ l₂ hpage
  obtain ⟨-, hl, hr⟩ := h.neighbour_fills (by omega) (by omega) hpage hlo hhi (by omega) (by omega)
  rw [hplvl, hp] at hl hr
  rw [hl] at hleft
  rw [hr] at hright
  exact ⟨fun e he => hleft _ (Option.mem_map_of_mem _ he), fun e he => hright _ (Option.mem_map_of_mem _ he)⟩

/-- The other way round: a leaf that cannot be merged has neighbours with enough pairs. -/
theorem Tree.fills_of_apart {m r n : Nat} (h : Tree geo m r 1 s G) (hp : (G p).lvl = 1) (hne : p ≠ s.node)
    (hlo : (G p).lo ≤ keyNum geo key) (hhi : keyNum geo key < (G p).hi) (hapart : G.Apart geo p n) :
    (∀ fill ∈ leftFill geo key 2 s, geo.noPairs < n + fill) ∧
      ∀ fill ∈ rightFill geo key 2 s, geo.noPairs < n + fill := by
  obtain ⟨k₀, l₁, l₂, hplvl, hpage, -⟩ := h.parent_slot (by omega) (by omega) hne
  obtain ⟨hplo, hphi⟩ := h.interval_le (by omega) (by omega) hne
  obtain ⟨-, hl, hr⟩ := h.neighbour_fills (by omega) (by omega) hpage hlo hhi (by omega) (by omega)
  rw [hplvl, hp] at hl hr
  rw [hl, hr]
  obtain ⟨hleft, hright⟩ := hapart k₀ l₁ l₂ hpage
  constructor
  · intro fill hfill
    obtain ⟨e, he, rfl⟩ := Option.mem_map.mp hfill
    exact hleft e he
  · intro fill hfill
    obtain ⟨e, he, rfl⟩ := Option.mem_map.mp hfill
    exact hright e he

/-- After a search for its key the search for the parent of a leaf writes nothing, and a `rebalance` that
merges nothing has seen that nothing can be merged. -/
theorem Tree.rebalanced {m r fill : Nat} {parent : Ptr w} {words k : Words w} (h : Tree geo m r 1 s G)
    (hp : (G p).lvl = 1) (hlt : 1 < s.height) (hlo : (G p).lo ≤ keyNum geo key) (hhi : keyNum geo key < (G p).hi)
    (hfind : findLevel geo (.buf key) 2 s = .ok (parent, s')) (hload : s'.load parent = .ok words)
    (hread : (KeyPtr.buf key).read geo s' = .ok k) (hunmerged : Unmerged geo s' words k p fill) :
    s' = s ∧ G.Apart geo p fill := by
  have hne : p ≠ s.node := h.ne_root (by omega)
  obtain ⟨k₀, l₁, l₂, hplvl, hslot, -⟩ := h.parent_slot (by omega) (by omega) hne
  obtain ⟨hplo, hphi⟩ := h.interval_le (p := p) (by omega) (by omega) hne
  have hto := h.findLevel_to (reads_buf key) (p := (G p).par) (by omega) (by omega) (hplo.trans hlo)
    (hhi.trans_le hphi)
  rw [hplvl, hp, hfind] at hto
  obtain ⟨rfl, rfl⟩ := Prod.mk.inj (Except.ok.inj hto)
  cases hread
  obtain ⟨n, -, hload', hholds⟩ := h.load (p := (G p).par) (by omega)
  rw [hload] at hload'
  cases hload'
  obtain ⟨h₁, h₂⟩ := h.cut_at_child (p := (G p).par) (by omega) (by omega) hslot hlo hhi
  have hpos : getpos geo words key ≤ (G (G p).par).page.length := by
    rw [hslot] at hholds ⊢
    rw [hholds.getpos h₁ h₂]
    simp
  obtain ⟨hleft, hright⟩ := hunmerged.fills hfind hload hholds hpos
  exact ⟨rfl, h.apart_of_fills hp hne hlo hhi hleft hright⟩

/-- The page of a leaf does not show in its neighbours. -/
theorem Tree.apart_of_page {G₁ : Labels w} {l' : Page w} {fill : Nat} (h : Tree geo 1 1 1 s G)
    (hlt : 1 < s.height) (hp : (G₁ p).lvl = 1) (hself : G p = { G₁ p with page := l' })
    (hother : ∀ x, x ≠ p → G x = G₁ x) (hapart : G.Apart geo p fill) : G₁.Apart geo p fill := by
  have hlvl : (G p).lvl = 1 := by rw [hself]; exact hp
  have hparEq : (G p).par = (G₁ p).par := by rw [hself]
  obtain ⟨-, -, -, hplvl, -⟩ := h.parent_slot (p := p) (by omega) (by omega) (h.ne_root (by omega))
  have hpp : (G₁ p).par ≠ p := by
    rw [← hparEq]
    intro heq
    rw [heq] at hplvl
    omega
  intro k₀ a b hpage
  rw [← hother _ hpp, ← hparEq] at hpage
  obtain ⟨hl, hr⟩ := hapart k₀ a b hpage
  have hsize : ∀ e, e ∈ a ∨ e ∈ b → G.size e.2 = G₁.size e.2 := by
    intro e he
    have hep : e.2 ≠ p := h.slot_ne (by omega) (by omega) hpage he
    rw [Labels.size, hother _ hep]
    rfl
  exact ⟨fun e he => by rw [← hsize e (.inl (List.mem_of_mem_getLast? he))]; exact hl e he,
    fun e he => by rw [← hsize e (.inr (List.mem_of_mem_head? he))]; exact hr e he⟩

/-- A removal that returns, on a tree with at least one level. -/
theorem Tree.removal (hN : 2 ≤ geo.noPairs) (h : Tree geo 1 1 1 s G) (hC : Caches geo s R)
    (hh : 1 ≤ s.height) (hrun : cbtreeRemove geo (Reclaim.code geo) key s = .ok (ret, s')) :
    ∃ p s₁ G₁ n, findLevel geo (.buf key) 1 s = .ok (p, s₁) ∧
      Routed geo 1 1 1 (keyNum geo key) s G p s₁ G₁ ∧ s₁.heap p = some (.node n) ∧
      Holds geo n (G₁ p).page ∧
      ((keycmp geo n (getpos geo n key) key ≠ 0 ∧ ret = 0#w ∧ s' = s₁) ∨
        keycmp geo n (getpos geo n key) key = 0 ∧ ∃ n' l', Thinning geo key ret (G₁ p).page l' ∧
          s' = s₁.setNode p n' ∧ SameCache geo n n' ∧
          Tree geo 1 1 1 s' (Function.update G₁ p { G₁ p with page := l' }) ∧
          (l'.length < geo.noPairs / 2 → p ≠ s.node → G₁.Apart geo p l'.length)) := by
  obtain ⟨p, s₁, G₁, hfind, hrouted⟩ := h.findLevel_route key le_rfl le_rfl le_rfl hh
  have htree := hrouted.tree
  obtain ⟨n, hn, hload, hholds⟩ := htree.load (p := p) (by have := hrouted.lvl; omega)
  refine ⟨p, s₁, G₁, n, hfind, hrouted, hn, hholds, ?_⟩
  rw [cbtreeRemove, if_neg (by omega)] at hrun
  obtain ⟨q, s₁', words, k, hfind', hload', hread, hcase⟩ :=
    cbtreeRemoveLevel_quiet (by omega) (cbtreeRemoveLevel_writes (by omega) s.height) hC hrun hh
  rw [hfind] at hfind'
  cases hfind'
  rw [hload] at hload'
  cases hload'
  cases hread
  rcases hcase with ⟨-, hcmp, hret, rfl⟩ | ⟨fill, s₂, hcmp, hfill, hret, hs₂, hwrite, hlast⟩
  · exact .inl ⟨hcmp, hret, rfl⟩
  have hcmp : keycmp geo n (getpos geo n key) key = 0 := by simpa using hcmp
  obtain ⟨hlen, l', hthin, hholds'⟩ := thinning_of_found hholds
    (htree.chain p (by have := hrouted.lvl; omega)).descending
    hcmp hfill
  rw [← hret] at hthin
  have hheight : s₁.height = s.height := by rw [hrouted.mem]
  -- a leaf that has become empty would be given back, which does not return
  have hleft : p ≠ s₁.node → l' ≠ [] := by
    intro hne hnil
    have hfillZero : fill = 0 := by
      have := hthin.length
      rw [hnil, List.length_nil] at this
      omega
    have hlt := htree.lvl_lt (p := p) (by have := hrouted.lvl; omega) hne
    rcases hlast with ⟨-, hroot⟩ | ⟨hne', -⟩
    · have := hroot (by omega)
      have := hrouted.lvl
      omega
    · exact hne' hfillZero
  have htree₂ := htree.thin hrouted.lvl hthin hleft hholds'
  rw [← hs₂] at htree₂
  have hsame : SameCache geo n (clearpair geo (shiftLeft geo n (getpos geo n key)
      (fill - getpos geo n key)) fill) := by
    obtain ⟨m, hm, hsame⟩ := hwrite.node p n hn
    rw [hs₂, State.setNode_heap_self] at hm
    cases hm
    exact hsame
  have hself : Function.update G₁ p { G₁ p with page := l' } p = { G₁ p with page := l' } :=
    Function.update_self _ _ _
  have hother : ∀ x, x ≠ p → Function.update G₁ p { G₁ p with page := l' } x = G₁ x := fun x hx =>
    Function.update_of_ne hx _ _
  have hfillEq : fill = l'.length := by
    have := hthin.length
    omega
  rcases hlast with ⟨rfl, hroot⟩ | ⟨-, hlt, parent, words', k', hparent, hload', hread', hunmerged⟩
  · refine .inr ⟨hcmp, _, l', hthin, hs₂, hsame, htree₂, fun hhalf hne => ?_⟩
    have := htree.lvl_lt (p := p) (by have := hrouted.lvl; omega) (by rw [hrouted.mem]; exact hne)
    have := hroot (by omega)
    have := hrouted.lvl
    omega
  -- the parent has been looked for, and its neighbours are too full to merge with
  obtain ⟨hs', hapart⟩ := htree₂.rebalanced (by rw [hself]; exact hrouted.lvl) (by rw [hs₂]; exact hlt)
    (by rw [hself]; exact hrouted.lo) (by rw [hself]; exact hrouted.hi) hparent hload' hread' hunmerged
  subst hs'
  rw [hfillEq] at hapart
  exact .inr ⟨hcmp, _, l', hthin, hs₂, hsame, htree₂, fun _ _ =>
    htree₂.apart_of_page (by rw [hs₂]; exact hlt) hrouted.lvl hself hother hapart⟩

/-! ## The leaf and its neighbours -/

/-- The leaf that `cbtree_remove` takes a pair from can be merged with no neighbour afterwards: `rebalance`
has looked at them, or they have enough pairs. -/
def RemoveKeeps (geo : Geo) (key : Words w) (s : State w) : Prop :=
  let fill := getfill geo (nodeAt geo key 1 (routed geo key s)) 0
  s.height ≤ 1 ∨ fill - 1 < geo.noPairs / 2 ∨
    (∀ n ∈ leftFill geo key 2 (routed geo key s), geo.noPairs < fill - 1 + n) ∧
      ∀ n ∈ rightFill geo key 2 (routed geo key s), geo.noPairs < fill - 1 + n

instance decidableRemoveKeeps (geo : Geo) (key : Words w) (s : State w) : Decidable (RemoveKeeps geo key s) := by
  unfold RemoveKeeps
  infer_instance

/-- The labels after a removal that returns: a leaf may have lost a pair. -/
inductive Reduced (geo : Geo) (key : Words w) (ret : Ptr w) (s : State w) (G : Labels w) : Labels w → Prop where
  | kept : Reduced geo key ret s G G
  | leaf (p : Ptr w) (l' : Page w) (lvl : (G p).lvl = 1) (thin : Thinning geo key ret (G p).page l')
      (apart : RemoveKeeps geo key s → p ≠ s.node → G.Apart geo p l'.length) :
      Reduced geo key ret s G (Function.update G p { G p with page := l' })

theorem Reduced.lvl {G' : Labels w} (h : Reduced geo key ret s G G') (x : Ptr w) : (G' x).lvl = (G x).lvl := by
  cases h with
  | kept => rfl
  | leaf p l' lvl thin apart =>
    by_cases hx : x = p
    · rw [hx, Function.update_self]
    · rw [Function.update_of_ne hx]

theorem Reduced.crowded {m r : Nat} {s₁ : State w} {G' : Labels w} (h : Reduced geo key ret s G G')
    (htree : Tree geo m r 1 s₁ G) (hroot : s₁.node = s.node) (hkeeps : RemoveKeeps geo key s)
    (hG : G.Crowded geo 1 G.size) : G'.Crowded geo 1 G'.size := by
  cases h with
  | kept => exact hG
  | leaf p l' lvl thin apart =>
    exact hG.setLeaf htree lvl (fun hne => apart hkeeps (hroot ▸ hne)) (Function.update_self _ _ _)
      fun x hx => Function.update_of_ne hx _ _

/-- With its neighbours full enough, or looked at by `rebalance`, the leaf cannot be merged. -/
theorem Routed.removal_apart {s₁ : State w} {G₁ : Labels w} {l' : Page w}
    (h : Routed geo 1 1 1 (keyNum geo key) s G p s₁ G₁) (hfind : findLevel geo (.buf key) 1 s = .ok (p, s₁))
    (hlen : l'.length + 1 = (G₁ p).page.length)
    (hchecked : l'.length < geo.noPairs / 2 → p ≠ s.node → G₁.Apart geo p l'.length)
    (hkeeps : RemoveKeeps geo key s) (hne : p ≠ s.node) : G₁.Apart geo p l'.length := by
  have hnode : s₁.node = s.node := by rw [h.mem]
  have hheight : s₁.height = s.height := by rw [h.mem]
  have hlvl := h.lvl
  have hlt := h.tree.lvl_lt (p := p) (by omega) (by rwa [hnode])
  have hholds := h.tree.nodeAt_eq key (p := p) (by omega) (by omega) h.lo h.hi
  rw [hlvl] at hholds
  unfold RemoveKeeps at hkeeps
  simp only [routed_of_find hfind, hholds.getfill (Nat.zero_le _), ← hlen, Nat.add_sub_cancel] at hkeeps
  rcases hkeeps with hflat | hhalf | ⟨hleft, hright⟩
  · omega
  · exact hchecked hhalf hne
  · exact h.tree.apart_of_fills hlvl (by rwa [hnode]) h.lo h.hi hleft hright

end CachedBTree
