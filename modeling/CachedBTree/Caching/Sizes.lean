import CachedBTree.Caching.Runs
import CachedBTree.Support.Tally
import Mathlib.Data.Nat.Log

/-! # How high a tree is and how many nodes it has

Insertions leave every node but the root at least half full, and lookups change no slots.  So the
number of keys grows with the height at least as fast as the powers of half a node, and the nodes
are few beside the keys. -/

namespace CachedBTree

open CachedBTree.Support

variable {w : Nat} {geo : Geo} {s s₀ : State w} {q : Ptr w} {G : Labels w} {m r : Nat}

theorem Tree.length_page_le {L : Nat} (h : Tree geo m r L s G) (hq : 1 ≤ (G q).lvl) :
    (s.page geo q).length ≤ geo.noPairs := by
  obtain ⟨n, -, hholds⟩ := h.stored q hq
  rw [h.page_eq hq]
  exact hholds.length_le

/-- What is true of all nodes one level lower is true of the children. -/
theorem Tree.of_children {d : Nat} {P : Ptr w → Prop} (h : Tree geo m r 1 s G) (hq : (G q).lvl = d + 2)
    (hP : ∀ c, (G c).lvl = d + 1 → c ≠ s.node → P c) : ∀ e ∈ s.page geo q, P e.2 := by
  intro e hmem
  rw [h.page_eq (by omega)] at hmem
  obtain ⟨hlvl, -⟩ := h.child_of_mem (p := q) (k := e.1) (c := e.2) (by omega) (by omega) hmem
  have hle := h.lvl_le q
  exact hP e.2 (by omega) (h.ne_root (by omega))

/-- The keys under a node are at most as many as full nodes would hold. -/
theorem Tree.length_entriesBelow_le (h : Tree geo m r 1 s G) : ∀ {d : Nat} {q : Ptr w}, (G q).lvl = d + 1 →
    (entriesBelow geo s (d + 1) q).length ≤ geo.noPairs ^ (d + 1) := by
  intro d
  induction d with
  | zero =>
    intro q hq
    rw [Nat.pow_one]
    exact h.length_page_le (by omega)
  | succ d ih =>
    intro q hq
    have hchildren := h.of_children hq fun c hc _ => ih hc
    calc (entriesBelow geo s (d + 2) q).length
        ≤ (s.page geo q).length * geo.noPairs ^ (d + 1) := length_flatMap_le hchildren
      _ ≤ geo.noPairs * geo.noPairs ^ (d + 1) := Nat.mul_le_mul_right _ (h.length_page_le (by omega))
      _ = geo.noPairs ^ (d + 2) := (Nat.pow_succ' ..).symm

/-- The pieces of the entries under a node, each at least `b` long. -/
theorem Tree.mul_le_length_entriesBelow {d b : Nat} (h : Tree geo m r 1 s G) (hq : (G q).lvl = d + 2)
    (hb : ∀ {c : Ptr w}, (G c).lvl = d + 1 → c ≠ s.node → b ≤ (entriesBelow geo s (d + 1) c).length) :
    (s.page geo q).length * b ≤ (entriesBelow geo s (d + 2) q).length := by
  have hchildren := h.of_children hq fun c hc hne => hb hc hne
  have hsum := affine_le_length_flatMap (f := fun e => entriesBelow geo s (d + 1) e.2)
    (g := fun e => entriesBelow geo s (d + 1) e.2) (a := 0) (b := b) (l := s.page geo q)
    fun e he => by simpa using hchildren e he
  rw [Nat.zero_mul, Nat.zero_add] at hsum
  exact hsum

/-- The nodes under an internal node beside its keys, when each child has its place among its own. -/
theorem Tree.nodesBelow_le_entriesBelow {d : Nat} (h : Tree geo m r 1 s G) (hq : (G q).lvl = d + 2)
    (hb : ∀ {c : Ptr w}, (G c).lvl = d + 1 → c ≠ s.node →
      (m - 1) * (nodesBelow geo s (d + 1) c).length + 1 ≤ (entriesBelow geo s (d + 1) c).length) :
    (m - 1) * (nodesBelow geo s (d + 2) q).length + (s.page geo q).length ≤
      (entriesBelow geo s (d + 2) q).length + (m - 1) := by
  have hchildren := h.of_children hq fun c hc hne => hb hc hne
  have hsum := affine_le_length_flatMap hchildren
  rw [Nat.mul_one] at hsum
  rw [nodesBelow, List.length_cons, Nat.mul_add, Nat.mul_one, Nat.add_right_comm]
  exact Nat.add_le_add_right hsum _

/-- The keys under a node are at least as many as nodes of the least fill would hold. -/
theorem Tree.pow_le_length_entriesBelow (h : Tree geo m r 1 s G) : ∀ {d : Nat} {q : Ptr w}, (G q).lvl = d + 1 →
    q ≠ s.node → m ^ (d + 1) ≤ (entriesBelow geo s (d + 1) q).length := by
  intro d
  induction d with
  | zero =>
    intro q hq hne
    rw [Nat.pow_one]
    change m ≤ (s.page geo q).length
    rw [h.page_eq (by omega)]
    exact h.fill q (by omega) hne
  | succ d ih =>
    intro q hq hne
    have hfill : m ≤ (s.page geo q).length := by
      rw [h.page_eq (by omega)]
      exact h.fill q (by omega) hne
    calc m ^ (d + 2) = m * m ^ (d + 1) := Nat.pow_succ' ..
      _ ≤ (s.page geo q).length * m ^ (d + 1) := Nat.mul_le_mul_right _ hfill
      _ ≤ (entriesBelow geo s (d + 2) q).length := h.mul_le_length_entriesBelow hq ih

/-- A node that is not the root takes its place among the keys under it. -/
theorem Tree.nodesBelow_lt_entriesBelow (h : Tree geo m r 1 s G) (hm : 1 ≤ m) : ∀ {d : Nat} {q : Ptr w},
    (G q).lvl = d + 1 → q ≠ s.node →
    (m - 1) * (nodesBelow geo s (d + 1) q).length + 1 ≤ (entriesBelow geo s (d + 1) q).length := by
  intro d
  induction d with
  | zero =>
    intro q hq hne
    have hfill : m ≤ (s.page geo q).length := by
      rw [h.page_eq (by omega)]
      exact h.fill q (by omega) hne
    have hone : (nodesBelow geo s 1 q).length = 1 := by simp [nodesBelow]
    change (m - 1) * (nodesBelow geo s 1 q).length + 1 ≤ (s.page geo q).length
    rw [hone]
    omega
  | succ d ih =>
    intro q hq hne
    have hfill : m ≤ (s.page geo q).length := by
      rw [h.page_eq (by omega)]
      exact h.fill q (by omega) hne
    have hsum := h.nodesBelow_le_entriesBelow hq ih
    change (m - 1) * (nodesBelow geo s (d + 2) q).length + 1 ≤ (entriesBelow geo s (d + 2) q).length
    omega

/-- The tree as a whole. -/
theorem Tree.sizes (h : Tree geo m r 1 s G) (hm : 2 ≤ m) (hr : 2 ≤ r) :
    (entries geo s).length ≤ geo.noPairs ^ s.height ∧
    s.height ≤ Nat.log m ((entries geo s).length / 2) + 1 ∧
    (m - 1) * ((nodes geo s).length - 1) ≤ (entries geo s).length := by
  rcases hh : s.height with _ | _ | d
  · simp [entries, nodes, hh, entriesBelow, nodesBelow]
  · have hroot := h.root_lvl (by omega)
    rw [hh] at hroot
    refine ⟨?_, by omega, ?_⟩
    · rw [entries, hh]
      exact h.length_entriesBelow_le hroot
    · have hone : (nodes geo s).length = 1 := by simp [nodes, hh, nodesBelow]
      rw [hone]
      exact Nat.zero_le _
  · have hroot := h.root_lvl (by omega)
    rw [hh] at hroot
    have hfill : 2 ≤ (s.page geo s.node).length := by
      rw [h.page_eq (by omega)]
      exact hr.trans (h.root_fill (by omega))
    refine ⟨?_, ?_, ?_⟩
    · rw [entries, hh]
      exact h.length_entriesBelow_le hroot
    · -- two children at least, each with its share of keys
      have hpow : 2 * m ^ (d + 1) ≤ (entries geo s).length := by
        rw [entries, hh]
        exact (Nat.mul_le_mul_right _ hfill).trans
          (h.mul_le_length_entriesBelow hroot fun hc hne => h.pow_le_length_entriesBelow hc hne)
      have hlog : d + 1 ≤ Nat.log m ((entries geo s).length / 2) := by
        apply Nat.le_log_of_pow_le hm
        omega
      omega
    · rw [entries, nodes, hh]
      have hsum := h.nodesBelow_le_entriesBelow hroot fun hc hne => h.nodesBelow_lt_entriesBelow (by omega) hc hne
      rw [Nat.mul_sub, Nat.mul_one]
      change (m - 1) * (nodesBelow geo s (d + 2) s.node).length - (m - 1) ≤
        (entriesBelow geo s (d + 2) s.node).length
      omega

/-- After insertions and lookups in any order: how many keys a tree of this height can hold, how high it is
at most with so many keys, and how many nodes there are beside the root. -/
theorem sizes_of_calls (hN : 4 ≤ geo.noPairs) (h₀ : Blank s₀) (h : Run geo InsertsLooksUp s₀ s) :
    (entries geo s).length ≤ geo.noPairs ^ s.height ∧
    s.height ≤ Nat.log (geo.noPairs / 2) ((entries geo s).length / 2) + 1 ∧
    (geo.noPairs / 2 - 1) * ((nodes geo s).length - 1) ≤ (entries geo s).length := by
  obtain ⟨G, R, hwarm⟩ := warm_of_calls hN h₀ h
  exact hwarm.tree.sizes (by omega) le_rfl

theorem sizes_of_calls_after_lookup : afterLookup.height ≤
    Nat.log 3 ((entries Machine.x86_64.cbtree_geo64 afterLookup).length / 2) + 1 :=
  (sizes_of_calls (by decide) (arena_blank 4) afterLookup_run).2.1

end CachedBTree
