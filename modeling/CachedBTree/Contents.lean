import CachedBTree.Labels
import Mathlib.Data.List.Flatten
import Mathlib.Data.List.Lattice

/-! # What a tree holds

Walks over the tree from its root: the nodes with their levels, the keys below a node and
the entries of the leaves.  `BTreeInv` is the invariant of a B+tree in these terms; it
follows from a labelling of the tree. -/

namespace CachedBTree

open CachedBTree.Support

variable {w : Nat} {geo : Geo}

/-- The pairs of the used slots. -/
def pageOf (geo : Geo) (node : Words w) : Page w :=
  (List.range (getfill geo node 0)).map (slotAt geo node)

def State.page (geo : Geo) (s : State w) (p : Ptr w) : Page w :=
  match s.heap p with
  | some (.node node) => pageOf geo node
  | _ => []

/-- The nodes from `p` down, `p` being at the level given, each with its level. -/
def nodesBelow (geo : Geo) (s : State w) : Nat → Ptr w → List (Nat × Ptr w)
  | 0, _ => []
  | l + 1, p => (l + 1, p) :: (s.page geo p).flatMap fun e => nodesBelow geo s l e.2

/-- The keys of all slots in the nodes from `p` down. -/
def keysBelow (geo : Geo) (s : State w) : Nat → Ptr w → List Nat
  | 0, _ => []
  | l + 1, p => (s.page geo p).map Prod.fst ++
      (s.page geo p).flatMap fun e => keysBelow geo s l e.2

/-- The pairs of the leaves from `p` down, in the order of the walk. -/
def entriesBelow (geo : Geo) (s : State w) : Nat → Ptr w → Page w
  | 0, _ => []
  | 1, p => s.page geo p
  | l + 2, p => (s.page geo p).flatMap fun e => entriesBelow geo s (l + 1) e.2

/-- The nodes of the tree, the leaves at level 1. -/
def nodes (geo : Geo) (s : State w) : List (Nat × Ptr w) := nodesBelow geo s s.height s.node

/-- The keys with their values, as the leaves hold them. -/
def entries (geo : Geo) (s : State w) : Page w := entriesBelow geo s s.height s.node

/-- The used slots are a prefix with descending keys, the rest is zero. -/
structure SlotsOk (geo : Geo) (node : Words w) : Prop where
  used : ∀ i, i < getfill geo node 0 → bval geo node i ≠ 0#w
  descending : ∀ i j, i < j → j < getfill geo node 0 →
    keyNum geo (bkey geo node j) < keyNum geo (bkey geo node i)
  rest : ∀ i, getfill geo node 0 ≤ i → i < geo.noPairs →
    bval geo node i = 0#w ∧ ∀ j, j < geo.keylen → bkey geo node i j = 0#w

/-- The invariant of a B+tree.  All leaves are at depth `height`: the walk that goes down exactly
so far meets live nodes only, and each node once.  `m` is the least fill of a node other than
the root and `r` that of an internal root. -/
structure BTreeInv (geo : Geo) (m r : Nat) (s : State w) : Prop where
  node : ∀ l p, (l, p) ∈ nodes geo s → ∃ n, s.heap p = some (.node n) ∧ SlotsOk geo n
  once : ((nodes geo s).map Prod.snd).Nodup
  lower : ∀ l p, (l, p) ∈ nodes geo s → 2 ≤ l → ∀ e ∈ s.page geo p,
    ∀ k ∈ keysBelow geo s (l - 1) e.2, e.1 ≤ k
  upper : ∀ l p, (l, p) ∈ nodes geo s → 2 ≤ l → ∀ l₁ l₂ before e,
    s.page geo p = l₁ ++ before :: e :: l₂ → ∀ k ∈ keysBelow geo s (l - 1) e.2, k < before.1
  fill : ∀ l p, (l, p) ∈ nodes geo s → p ≠ s.node → m ≤ (s.page geo p).length
  root_fill : 2 ≤ s.height → r ≤ (s.page geo s.node).length

/-! ## Pages -/

theorem Holds.pageOf {node : Words w} {l : Page w} (h : Holds geo node l) : pageOf geo node = l := by
  unfold CachedBTree.pageOf
  rw [h.getfill (Nat.zero_le _)]
  refine List.ext_getElem (by simp) fun i hi hi' => ?_
  simp only [List.getElem_map, List.getElem_range]
  rw [h.slot i (hi'.trans_le h.length_le), List.getD_eq_getElem?_getD, List.getElem?_eq_getElem hi']
  rfl

theorem Holds.slotsOk {node : Words w} {l : Page w} (h : Holds geo node l) (hdesc : Descending l) :
    SlotsOk geo node := by
  have hfill := h.getfill (Nat.zero_le _)
  refine ⟨fun i hi => h.bval_ne_zero (by omega), fun i j hij hj => ?_, fun i hi hiN => ?_⟩
  · rw [hfill] at hj
    have hlen := h.length_le
    have hi := h.slot i (by omega)
    have hj' := h.slot j (by omega)
    rw [List.getD_eq_getElem?_getD, List.getElem?_eq_getElem (by omega)] at hi hj'
    have hlt := List.pairwise_iff_getElem.mp hdesc i j (by omega) hj hij
    have hki := congrArg Prod.fst hi
    have hkj := congrArg Prod.fst hj'
    simp only [slotAt, Option.getD_some] at hki hkj
    rw [hki, hkj]
    exact hlt
  · have hend := h.slot_end (by omega) hiN
    exact ⟨congrArg Prod.snd hend, keyNum_eq_zero.mp (congrArg Prod.fst hend)⟩

namespace Tree

variable {m r : Nat} {s : State w} {G : Labels w} {p q c x : Ptr w}

theorem page_eq {L : Nat} (h : Tree geo m r L s G) (hp : 1 ≤ (G p).lvl) :
    s.page geo p = (G p).page := by
  obtain ⟨n, hn, hholds⟩ := h.stored p hp
  simp only [State.page, hn, hholds.pageOf]

/-! ## Nodes -/

/-- The walk from a node stays inside its interval. -/
theorem nodesBelow_label (h : Tree geo m r 1 s G) : ∀ {d l : Nat} {q x : Ptr w}, (G q).lvl = d →
    (l, x) ∈ nodesBelow geo s d q →
    1 ≤ l ∧ (G x).lvl = l ∧ l ≤ d ∧ (G q).lo ≤ (G x).lo ∧ (G x).hi ≤ (G q).hi := by
  intro d
  induction d with
  | zero =>
    intro _ _ _ _ hx
    simp [nodesBelow] at hx
  | succ d ih =>
    intro l q x hq hx
    simp only [nodesBelow, List.mem_cons, List.mem_flatMap] at hx
    rcases hx with heq | ⟨⟨k, c⟩, hmem, hx⟩
    · obtain ⟨rfl, rfl⟩ := Prod.mk.inj heq
      exact ⟨by omega, hq, le_rfl, le_rfl, le_rfl⟩
    · by_cases hd : d = 0
      · subst hd
        simp [nodesBelow] at hx
      · rw [h.page_eq (by omega)] at hmem
        simp only at hx
        obtain ⟨hclvl, -, hk, -, hhi⟩ := h.child_of_mem (by omega) (by omega) hmem
        have hklo := ((h.chain q (by omega)).mem hmem).1
        simp only at hklo
        obtain ⟨h₁, h₂, h₃, h₄, h₅⟩ := ih (by omega) hx
        exact ⟨h₁, h₂, by omega, by omega, by omega⟩

/-- The walk goes on to the children. -/
theorem nodesBelow_child : ∀ {d l : Nat} {q x : Ptr w} {e : Nat × Ptr w},
    (l + 2, x) ∈ nodesBelow geo s d q → e ∈ s.page geo x → (l + 1, e.2) ∈ nodesBelow geo s d q := by
  intro d
  induction d with
  | zero =>
    intro _ _ _ _ hx _
    simp [nodesBelow] at hx
  | succ d ih =>
    intro l q x e hx he
    simp only [nodesBelow, List.mem_cons, List.mem_flatMap] at hx ⊢
    right
    rcases hx with heq | ⟨a, ha, hx⟩
    · obtain ⟨hl, rfl⟩ := Prod.mk.inj heq
      obtain rfl : d = l + 1 := by omega
      exact ⟨e, he, by simp [nodesBelow]⟩
    · exact ⟨a, ha, ih hx he⟩

/-- The walk from the root finds every node of the tree, whatever is known of the order. -/
theorem mem_nodes_of_lvl {L : Nat} (h : Tree geo m r L s G) {l : Nat} (hl : 1 ≤ l)
    (hx : (G x).lvl = l) : (l, x) ∈ nodes geo s := by
  -- up from the node to the root
  obtain ⟨d, hd⟩ : ∃ d, l + d = s.height := ⟨s.height - l, by have := h.lvl_le x; omega⟩
  induction d generalizing l x with
  | zero =>
    obtain ⟨l, rfl⟩ : ∃ j, l = j + 1 := ⟨l - 1, by omega⟩
    have hroot := h.eq_root (p := x) (by omega) (by omega)
    subst hroot
    rw [nodes, ← hd]
    simp [nodesBelow]
  | succ d ih =>
    have hne : x ≠ s.node := h.ne_root (by omega)
    obtain ⟨hplvl, k, hmem⟩ := h.parent x (by omega) hne
    obtain ⟨l, rfl⟩ : ∃ j, l = j + 1 := ⟨l - 1, by omega⟩
    have hpar : (l + 2, (G x).par) ∈ nodes geo s := ih (by omega) (by omega) (by omega)
    exact nodesBelow_child (e := (k, x)) hpar (by rwa [h.page_eq (by omega)])

/-- The walk from the root finds exactly the labelled nodes. -/
theorem mem_nodes (h : Tree geo m r 1 s G) {l : Nat} :
    (l, x) ∈ nodes geo s ↔ 1 ≤ l ∧ (G x).lvl = l := by
  refine ⟨fun hx => ?_, fun hx => h.mem_nodes_of_lvl hx.1 hx.2⟩
  by_cases hh : 1 ≤ s.height
  · obtain ⟨h₁, h₂, -⟩ := h.nodesBelow_label (h.root_lvl hh) hx
    exact ⟨h₁, h₂⟩
  · simp [nodes, show s.height = 0 by omega, nodesBelow] at hx

theorem nodesBelow_nodup (h : Tree geo m r 1 s G) : ∀ {d : Nat} {q : Ptr w}, (G q).lvl = d →
    (nodesBelow geo s d q).Nodup := by
  intro d
  induction d with
  | zero =>
    intro _ _
    exact List.nodup_nil
  | succ d ih =>
    intro q hq
    rw [nodesBelow, List.nodup_cons]
    have hpage := h.page_eq (p := q) (by omega)
    by_cases hd : d = 0
    · subst hd
      simp only [nodesBelow]
      rw [show ((s.page geo q).flatMap fun _ => ([] : List (Nat × Ptr w))) = [] by simp]
      exact ⟨by simp, List.nodup_nil⟩
    have hchain := h.chain q (by omega)
    constructor
    · rw [List.mem_flatMap]
      rintro ⟨⟨k, c⟩, hmem, hx⟩
      rw [hpage] at hmem
      simp only at hx
      have hclvl := (h.child_of_mem (by omega) (by omega) hmem).1
      have := (h.nodesBelow_label (by omega) hx).2.2.1
      omega
    · rw [List.nodup_flatMap]
      constructor
      · rintro ⟨k, c⟩ hmem
        rw [hpage] at hmem
        have hclvl := (h.child_of_mem (by omega) (by omega) hmem).1
        simp only
        exact ih (by omega)
      · rw [hpage]
        -- of two slots the later one has the lower interval
        refine List.pairwise_iff_forall_sublist.mpr fun {a b} hsub => ?_
        obtain ⟨k, c⟩ := a
        obtain ⟨k', c'⟩ := b
        obtain ⟨l₁, l₂, hpage', hmem'⟩ : ∃ l₁ l₂, (G q).page = l₁ ++ (k', c') :: l₂ ∧
            (k, c) ∈ l₁ := by
          obtain ⟨l₁, l₂, heq, hone, htwo⟩ := List.cons_sublist_iff.mp hsub
          obtain ⟨l₃, l₄, rfl⟩ := List.append_of_mem (List.singleton_sublist.mp htwo)
          exact ⟨l₁ ++ l₃, l₄, by rw [heq, List.append_assoc], List.mem_append_left _ hone⟩
        obtain ⟨hclvl', -, -, -, hhi⟩ := h.child (by omega) (by omega) hpage'
        obtain ⟨hclvl, -, hk, -, -⟩ := h.child_of_mem (p := q) (k := k) (c := c) (by omega) (by omega)
          (by rw [hpage']; simp [hmem'])
        rw [hpage'] at hchain
        have hend := (chain_append.mp hchain).1.endKey_le_of_mem hmem'
        simp only at hend
        intro ⟨l, x⟩ hx hx'
        simp only at hx hx'
        obtain ⟨hl, hxl, -, hlo, -⟩ := h.nodesBelow_label (by omega) hx
        obtain ⟨-, -, -, -, hhi'⟩ := h.nodesBelow_label (by omega) hx'
        have hlohi : (G x).lo < (G x).hi := by
          by_cases hroot : x = s.node
          · subst hroot
            have := h.root_lvl (by have := h.lvl_le s.node; omega)
            have := (h.nodesBelow_label (by omega) hx).2.2.1
            have := h.lvl_le q
            omega
          · obtain ⟨-, -, -, -, -, -, hlt, -⟩ := h.parent_slot (p := x) (by omega) (by omega) hroot
            exact hlt
        omega

/-! ## Keys and entries -/

theorem keysBelow_interval (h : Tree geo m r 1 s G) : ∀ {d : Nat} {q : Ptr w}, (G q).lvl = d →
    ∀ k ∈ keysBelow geo s d q, (G q).lo ≤ k ∧ k < (G q).hi := by
  intro d
  induction d with
  | zero =>
    intro _ _ k hk
    simp [keysBelow] at hk
  | succ d ih =>
    intro q hq k hk
    simp only [keysBelow, List.mem_append, List.mem_map, List.mem_flatMap] at hk
    rw [h.page_eq (by omega)] at hk
    have hchain := h.chain q (by omega)
    rcases hk with ⟨e, he, rfl⟩ | ⟨⟨k', c⟩, hmem, hk⟩
    · exact hchain.mem he
    · by_cases hd : d = 0
      · subst hd
        simp [keysBelow] at hk
      · simp only at hk
        obtain ⟨hclvl, -, hlo, -, hhi⟩ := h.child_of_mem (by omega) (by omega) hmem
        have := ih (by omega) k hk
        have := (hchain.mem hmem).1
        simp only at this
        omega

theorem mem_entriesBelow (h : Tree geo m r 1 s G) : ∀ {d : Nat} {q : Ptr w} {e : Nat × Ptr w},
    (G q).lvl = d → (e ∈ entriesBelow geo s d q ↔
      ∃ x, (1, x) ∈ nodesBelow geo s d q ∧ e ∈ (G x).page)
  | 0, _, _, _ => by simp [entriesBelow, nodesBelow]
  | 1, q, e, hq => by
    have hpage := h.page_eq (p := q) (by omega)
    constructor
    · intro he
      rw [entriesBelow, hpage] at he
      exact ⟨q, by simp [nodesBelow], he⟩
    · rintro ⟨x, hx, he⟩
      simp only [nodesBelow, List.mem_cons, List.mem_flatMap, List.not_mem_nil, and_false,
        exists_false, or_false, Prod.mk.injEq, true_and, Nat.zero_add] at hx
      subst hx
      rwa [entriesBelow, hpage]
  | d + 2, q, e, hq => by
    have hpage := h.page_eq (p := q) (by omega)
    have hchild : ∀ a ∈ s.page geo q, (G a.2).lvl = d + 1 := by
      rintro ⟨k, c⟩ ha
      rw [hpage] at ha
      have := (h.child_of_mem (by omega) (by omega) ha).1
      simp only
      omega
    rw [entriesBelow, nodesBelow, List.mem_flatMap]
    constructor
    · rintro ⟨a, ha, he⟩
      obtain ⟨x, hx, hxe⟩ := (h.mem_entriesBelow (hchild a ha)).mp he
      exact ⟨x, List.mem_cons_of_mem _ (List.mem_flatMap.mpr ⟨a, ha, hx⟩), hxe⟩
    · rintro ⟨x, hx, he⟩
      cases List.mem_cons.mp hx with
      | inl heq =>
        simp at heq
      | inr hx =>
        obtain ⟨a, ha, hx⟩ := List.mem_flatMap.mp hx
        exact ⟨a, ha, (h.mem_entriesBelow (hchild a ha)).mpr ⟨x, hx, he⟩⟩

/-- The entries are the pairs of the leaves. -/
theorem mem_entries (h : Tree geo m r 1 s G) {e : Nat × Ptr w} :
    e ∈ entries geo s ↔ ∃ x, (G x).lvl = 1 ∧ e ∈ (G x).page := by
  by_cases hh : 1 ≤ s.height
  · rw [entries, h.mem_entriesBelow (h.root_lvl hh)]
    constructor
    · rintro ⟨x, hx, he⟩
      exact ⟨x, (h.mem_nodes.mp hx).2, he⟩
    · rintro ⟨x, hx, he⟩
      exact ⟨x, h.mem_nodes.mpr ⟨le_rfl, hx⟩, he⟩
  · have hzero : s.height = 0 := by omega
    simp only [entries, hzero, entriesBelow, List.not_mem_nil, false_iff]
    rintro ⟨x, hx, -⟩
    have := h.lvl_le x
    omega

theorem entriesBelow_interval (h : Tree geo m r 1 s G) {d : Nat} (hq : (G q).lvl = d)
    {e : Nat × Ptr w} (he : e ∈ entriesBelow geo s d q) : (G q).lo ≤ e.1 ∧ e.1 < (G q).hi := by
  obtain ⟨x, hx, hmem⟩ := (h.mem_entriesBelow hq).mp he
  obtain ⟨-, hxl, -, hlo, hhi⟩ := h.nodesBelow_label hq hx
  have := (h.chain x (by omega)).mem hmem
  omega

theorem entriesBelow_descending (h : Tree geo m r 1 s G) : ∀ {d : Nat} {q : Ptr w}, (G q).lvl = d →
    Descending (entriesBelow geo s d q)
  | 0, _, _ => List.Pairwise.nil
  | 1, q, hq => by
    rw [entriesBelow, h.page_eq (by omega)]
    exact (h.chain q (by omega)).descending
  | d + 2, q, hq => by
    rw [entriesBelow, h.page_eq (by omega)]
    have hchain := h.chain q (by omega)
    have hok : ∀ k c, (k, c) ∈ (G q).page → (G c).lvl = d + 1 ∧ k ≤ (G c).lo := by
      intro k c hmem
      obtain ⟨hclvl, -, hk, -⟩ := h.child_of_mem (by omega) (by omega) hmem
      exact ⟨by omega, hk⟩
    -- the pairs below later slots are below the key of each earlier slot
    have hflat : ∀ (l : Page w) (hi : Nat), Chain (ChildOk G q) (G q).lo hi l →
        (∀ e ∈ l, (G e.2).lvl = d + 1 ∧ e.1 ≤ (G e.2).lo) →
        Descending (l.flatMap fun e => entriesBelow geo s (d + 1) e.2) ∧
          ∀ e ∈ l.flatMap fun e => entriesBelow geo s (d + 1) e.2, e.1 < hi := by
      intro l
      induction l with
      | nil => exact fun _ _ _ => ⟨List.Pairwise.nil, by simp⟩
      | cons a l ih =>
        obtain ⟨k, c⟩ := a
        rintro hi ⟨-, hkhi, hR, htail⟩ hall
        obtain ⟨hclvl, hk⟩ := hall (k, c) (by simp)
        obtain ⟨hdesc, hlt⟩ := ih k htail fun e he => hall e (by simp [he])
        have hchi := (hR (by omega)).2.2.2.2
        simp only at hclvl hk
        rw [List.flatMap_cons]
        refine ⟨List.pairwise_append.mpr ⟨h.entriesBelow_descending hclvl, hdesc, fun e he b hb => ?_⟩,
          fun e he => ?_⟩
        · have := (h.entriesBelow_interval hclvl he).1
          have := hlt b hb
          omega
        · cases List.mem_append.mp he with
          | inl hmem =>
            have := (h.entriesBelow_interval hclvl hmem).2
            omega
          | inr hmem =>
            exact (hlt e hmem).trans hkhi
    exact (hflat _ _ hchain fun e he => hok e.1 e.2 he).1

theorem entries_descending (h : Tree geo m r 1 s G) : Descending (entries geo s) := by
  by_cases hh : 1 ≤ s.height
  · exact h.entriesBelow_descending (h.root_lvl hh)
  · simp only [entries, show s.height = 0 by omega, entriesBelow]
    exact List.Pairwise.nil

/-! ## The invariant -/

theorem btreeInv (h : Tree geo m r 1 s G) : BTreeInv geo m r s where
  node l p hp := by
    obtain ⟨hl, hlvl⟩ := h.mem_nodes.mp hp
    obtain ⟨n, hn, hholds⟩ := h.stored p (by omega)
    exact ⟨n, hn, hholds.slotsOk (h.chain p (by omega)).descending⟩
  once := by
    by_cases hh : 1 ≤ s.height
    · refine (h.nodesBelow_nodup (h.root_lvl hh)).map_on fun a ha b hb heq => ?_
      obtain ⟨l, x⟩ := a
      obtain ⟨l', x'⟩ := b
      simp only at heq
      subst heq
      rw [← (h.mem_nodes.mp ha).2, ← (h.mem_nodes.mp hb).2]
    · simp [nodes, show s.height = 0 by omega, nodesBelow]
  lower l p hp hl e he k hk := by
    obtain ⟨-, hlvl⟩ := h.mem_nodes.mp hp
    rw [h.page_eq (by omega)] at he
    obtain ⟨hclvl, -, hlo, -⟩ := h.child_of_mem (k := e.1) (c := e.2) (by omega) (by omega) he
    exact hlo.trans (h.keysBelow_interval (by omega) k hk).1
  upper l p hp hl l₁ l₂ before e hpage k hk := by
    obtain ⟨-, hlvl⟩ := h.mem_nodes.mp hp
    rw [h.page_eq (by omega)] at hpage
    -- the separator before is the upper bound of the child
    have hcut : (G p).page = (l₁ ++ [before]) ++ (e.1, e.2) :: l₂ := by rw [hpage]; simp
    obtain ⟨hclvl, -, -, -, hhi⟩ := h.child (by omega) (by omega) hcut
    rw [endKey_snoc] at hhi
    exact (h.keysBelow_interval (by omega) k hk).2.trans_le hhi
  fill l p hp hne := by
    obtain ⟨hl, hlvl⟩ := h.mem_nodes.mp hp
    rw [h.page_eq (by omega)]
    exact h.fill p (by omega) hne
  root_fill hh := by
    have := h.root_lvl (by omega)
    rw [h.page_eq (p := s.node) (by omega)]
    exact h.root_fill hh

end Tree

end CachedBTree
