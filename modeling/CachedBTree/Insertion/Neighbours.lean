import CachedBTree.Insertion.Exhaustion
import CachedBTree.Insertion.Pass
import Mathlib.Data.List.Chain

/-! # Separators of key 0, and neighbours that could be merged

Two things about the pages that the order of the keys does not say: whether a slot has key 0,
and whether two neighbours have more pairs together than one node can hold.  A split shares
the pairs of a full node with a new one, so what matters for the second is the fill of the
nodes on both sides of the two halves, and whether the parent is split right there. -/

namespace CachedBTree

open CachedBTree.Support

variable {w : Nat} {geo : Geo} {m r L : Nat} {s s' : State w} {G G' : Labels w} {p q v : Ptr w}

/-! ## Keys that are not 0 -/

def Labels.Positive (G : Labels w) : Prop := ∀ x, 1 ≤ (G x).lvl → ∀ e ∈ (G x).page, 0 < e.1

theorem Labels.Positive.congr (h : G.Positive) (hlvl : ∀ x, (G' x).lvl = (G x).lvl)
    (hpage : ∀ x, (G' x).page = (G x).page) : G'.Positive := fun x hx e he =>
  h x (by rwa [← hlvl]) e (by rwa [← hpage])

theorem Labels.Positive.lowered {k : Nat} (h : G.Positive) (hlow : Lowered k G G') (hk : 0 < k) :
    G'.Positive := by
  intro x hx e he
  rw [hlow.lvl] at hx
  rcases hlow.page x with hsame | ⟨-, l₁, k₀, c, hold, -, hnew⟩
  · exact h x hx e (by rwa [← hsame])
  · rw [hnew] at he
    cases List.mem_append.mp he with
    | inl hmem => exact h x hx e (by rw [hold]; simp [hmem])
    | inr hmem =>
      rw [List.mem_singleton.mp hmem]
      exact hk

theorem Labels.Positive.linked {l₁ l₂ : Page w} {k : Nat} (h : G.Positive) (hpage : (G p).page = l₁ ++ l₂)
    (hk : 0 < k) : (G.linked p l₁ k v q l₂).Positive := by
  intro x hx e he
  unfold Labels.linked at hx he
  split at hx
  next hxp =>
    rw [if_pos hxp] at he
    cases List.mem_append.mp he with
    | inl hmem =>
      exact h p hx e (by rw [hpage]; simp [hmem])
    | inr hmem =>
      cases List.mem_cons.mp hmem with
      | inl heq =>
        rw [heq]
        exact hk
      | inr hmem => exact h p hx e (by rw [hpage]; simp [hmem])
  next hxp =>
    rw [if_neg hxp] at he
    split at hx
    next hxv =>
      rw [if_pos hxv] at he
      cases he
    next hxv =>
      rw [if_neg hxv] at he
      split at hx
      next hxq =>
        rw [if_pos hxq] at he
        exact h q hx e he
      next hxq =>
        rw [if_neg hxq] at he
        exact h x hx e he

theorem Labels.Positive.halved {a b : Page w} (h : G.Positive) (hq : 1 ≤ (G q).lvl)
    (hpage : (G q).page = a ++ b) : (G.halved v q a b).Positive := by
  intro x hx e he
  rw [(halved_span x).1] at hx
  by_cases hxv : x = v
  · rw [hxv, halved_new] at he
    exact h q hq e (by rw [hpage]; exact List.mem_append_left b he)
  · by_cases hxq : x = q
    · rw [hxq, halved_old (hxq ▸ hxv)] at he
      exact h q hq e (by rw [hpage]; exact List.mem_append_right a he)
    · rw [halved_page hxv hxq] at he
      exact h x hx e he

theorem Labels.Positive.grown {height bound key : Nat} {root : Ptr w} (h : G.Positive)
    (hkey : 1 ≤ height → 0 < key) : (G.grown height bound root v key).Positive := by
  intro x hx e he
  unfold Labels.grown at hx he
  split at hx
  next hxv =>
    rw [if_pos hxv] at he
    simp only at he
    split at he
    next => cases he
    next hheight =>
      rw [List.mem_singleton.mp he]
      exact hkey (by omega)
  next hxv =>
    rw [if_neg hxv] at he
    split at hx
    next hroot =>
      rw [if_pos hroot] at he
      exact h root hx e he
    next hroot =>
      rw [if_neg hroot] at he
      exact h x hx e he

/-! ## Neighbours -/

/-- From level `L` on, children in adjacent slots have more pairs together than a node can hold;
`size` says how many pairs a node has. -/
def Labels.Crowded (geo : Geo) (L : Nat) (G : Labels w) (size : Ptr w → Nat) : Prop :=
  ∀ x, 2 ≤ (G x).lvl → L ≤ (G x).lvl →
    (G x).page.IsChain fun e e' => geo.noPairs < size e.2 + size e'.2

def Labels.size (G : Labels w) (x : Ptr w) : Nat := (G x).page.length

/-- What the new node holds after a split and one more insertion, at slot `i` of the full node. -/
def upperFill (geo : Geo) (i : Nat) : Nat := geo.noPairs / 2 + if i < geo.noPairs / 2 then 1 else 0

/-- What stays in the old node. -/
def lowerFill (geo : Geo) (i : Nat) : Nat :=
  geo.noPairs - geo.noPairs / 2 + if i < geo.noPairs / 2 then 0 else 1

theorem upperFill_add_lowerFill (geo : Geo) (i : Nat) :
    upperFill geo i + lowerFill geo i = geo.noPairs + 1 := by
  unfold upperFill lowerFill
  split <;> omega

/-- The sizes when the split of `q` is over. -/
def Labels.shares (geo : Geo) (G : Labels w) (v q : Ptr w) (i : Nat) (x : Ptr w) : Nat :=
  if x = v then upperFill geo i else if x = q then lowerFill geo i else G.size x

theorem shares_new {i : Nat} : G.shares geo v q i v = upperFill geo i := if_pos rfl

theorem shares_old {i : Nat} (hqv : q ≠ v) : G.shares geo v q i q = lowerFill geo i := by
  rw [Labels.shares, if_neg hqv, if_pos rfl]

theorem shares_of_ne {x : Ptr w} {i : Nat} (hxv : x ≠ v) (hxq : x ≠ q) :
    G.shares geo v q i x = G.size x := by
  rw [Labels.shares, if_neg hxv, if_neg hxq]

/-- The full node `q`, with `d` levels above it, can be split for an insertion at its slot `i`: the
nodes next to it in its parent, where the parent is not split, have enough pairs, and the parent
can be split when it is full. -/
def Labels.Keeps (geo : Geo) (G : Labels w) : Nat → Ptr w → Nat → Prop
  | 0, _, _ => True
  | d + 1, q, i => ∀ k₀ l₁ l₂, (G (G q).par).page = l₁ ++ (k₀, q) :: l₂ →
    (∀ e ∈ l₁.getLast?, ¬(G.size (G q).par = geo.noPairs ∧ l₁.length = geo.noPairs / 2) →
      geo.noPairs < G.size e.2 + upperFill geo i) ∧
    (∀ e ∈ l₂.head?, ¬(G.size (G q).par = geo.noPairs ∧ l₁.length + 1 = geo.noPairs / 2) →
      geo.noPairs < lowerFill geo i + G.size e.2) ∧
    (G.size (G q).par = geo.noPairs → G.Keeps geo d (G q).par l₁.length)

/-- Only the half that the slot is in matters. -/
theorem Labels.Keeps.slot {d i j : Nat} (h : G.Keeps geo d q i)
    (hij : i < geo.noPairs / 2 ↔ j < geo.noPairs / 2) : G.Keeps geo d q j := by
  cases d with
  | zero => trivial
  | succ d =>
    intro k₀ l₁ l₂ hpage
    have hup : upperFill geo j = upperFill geo i := by simp only [upperFill, hij]
    have hlow : lowerFill geo j = lowerFill geo i := by simp only [lowerFill, hij]
    rw [hup, hlow]
    exact h k₀ l₁ l₂ hpage

theorem Labels.Keeps.congr (hpar : ∀ x, (G' x).par = (G x).par) (hpage : ∀ x, (G' x).page = (G x).page) :
    ∀ {d : Nat} {q : Ptr w} {i : Nat}, G.Keeps geo d q i → G'.Keeps geo d q i
  | 0, _, _, _ => trivial
  | d + 1, q, i, h => by
    have hsize : ∀ x, G'.size x = G.size x := fun x => congrArg List.length (hpage x)
    intro k₀ l₁ l₂ hslot
    rw [hpar, hpage] at hslot
    simp only [hpar, hsize]
    obtain ⟨hleft, hright, hup⟩ := h k₀ l₁ l₂ hslot
    exact ⟨hleft, hright, fun hfull => (hup hfull).congr hpar hpage⟩

theorem Labels.Crowded.congr {f : Ptr w → Nat} (h : G.Crowded geo L f)
    (hlvl : ∀ x, (G' x).lvl = (G x).lvl) (hpage : ∀ x, (G' x).page = (G x).page) : G'.Crowded geo L f := by
  intro x hx hL
  rw [hlvl] at hx hL
  rw [hpage]
  exact h x hx hL

theorem Lowered.size {k : Nat} (h : Lowered k G G') : G'.size = G.size := by
  funext x
  rcases h.page x with hsame | ⟨-, l₁, k₀, c, hold, -, hnew⟩
  · exact congrArg List.length hsame
  · unfold Labels.size
    rw [hold, hnew, List.length_append, List.length_append]
    rfl

theorem Labels.Crowded.lowered {f : Ptr w → Nat} {k : Nat} (h : G.Crowded geo L f) (hlow : Lowered k G G') :
    G'.Crowded geo L f := by
  intro x hx hL
  rw [hlow.lvl] at hx hL
  have hchain := h x hx hL
  rcases hlow.page x with hsame | ⟨-, l₁, k₀, c, hold, -, hnew⟩
  · rwa [hsame]
  · rw [hold, List.isChain_append] at hchain
    rw [hnew, List.isChain_append]
    refine ⟨hchain.1, List.isChain_singleton _, fun e he e' he' => ?_⟩
    cases he'
    exact hchain.2.2 e he (k₀, c) rfl

theorem Labels.Crowded.of_le {f f' : Ptr w → Nat} (h : G.Crowded geo L f) (hle : ∀ x, f x ≤ f' x)
    (hlvl : ∀ x, (G' x).lvl = (G x).lvl) (hpage : ∀ x, 2 ≤ (G x).lvl → (G' x).page = (G x).page) :
    G'.Crowded geo L f' := by
  intro x hx hL
  rw [hlvl] at hx hL
  rw [hpage x hx]
  refine (h x hx hL).imp fun e e' hlt => ?_
  have := hle e.2
  have := hle e'.2
  omega

/-- The children of another node are neither `q` nor new. -/
theorem Tree.other_child {x : Ptr w} {e : Nat × Ptr w} (h : Tree geo m r L s G) (hL : L ≤ (G x).lvl)
    (hlvl : 2 ≤ (G x).lvl) (he : e ∈ (G x).page) (hv : (G v).lvl = 0) :
    e.2 ≠ v ∧ ((G q).par ≠ x → e.2 ≠ q) := by
  obtain ⟨hchild, hpar, -⟩ := h.child_of_mem (k := e.1) (c := e.2) hL hlvl he
  refine ⟨?_, ?_⟩
  · rintro heq
    rw [heq, hv] at hchild
    omega
  · rintro hne heq
    exact hne (heq ▸ hpar)

theorem Labels.Crowded.linked {f f' : Ptr w → Nat} {l₁ l₂ : Page w} {k k₀ : Nat}
    (hG : G.Crowded geo L f) (h : Tree geo m r L s G) (hL : 2 ≤ L) (hp : (G p).lvl = L)
    (hpage : (G p).page = l₁ ++ (k₀, q) :: l₂) (hv : (G v).lvl = 0)
    (hle : ∀ x, x ≠ v → x ≠ q → f x ≤ f' x) (hvq : geo.noPairs < f' v + f' q)
    (h₁ : ∀ e ∈ l₁.getLast?, geo.noPairs < f' e.2 + f' v)
    (h₂ : ∀ e ∈ l₂.head?, geo.noPairs < f' q + f' e.2) :
    (G.linked p l₁ k v q ((k₀, q) :: l₂)).Crowded geo L f' := by
  obtain ⟨hqlvl, hqpar, -⟩ := h.child (by omega) (by omega) hpage
  have hvp : v ≠ p := by rintro rfl; omega
  have hqp : q ≠ p := by rintro rfl; omega
  have hqv : q ≠ v := by rintro rfl; omega
  -- a part of a page without `q`
  have hpart : ∀ {l : Page w}, (∀ e ∈ l, e.2 ≠ v ∧ e.2 ≠ q) →
      (l.IsChain fun e e' => geo.noPairs < f e.2 + f e'.2) →
      l.IsChain fun e e' => geo.noPairs < f' e.2 + f' e'.2 := by
    intro l hl hchain
    refine hchain.imp_of_mem_imp fun a b ha hb hab => ?_
    have := hle a.2 (hl a ha).1 (hl a ha).2
    have := hle b.2 (hl b hb).1 (hl b hb).2
    omega
  intro x hx hxL
  by_cases hxp : x = p
  · rw [hxp, linked_self]
    have hchain := hG p (by omega) (by omega)
    have hout : ∀ e, e ∈ l₁ ∨ e ∈ l₂ → e.2 ≠ v ∧ e.2 ≠ q := by
      intro e he
      have hmem : e ∈ (G p).page := by
        rw [hpage]
        simp only [List.mem_append, List.mem_cons]
        tauto
      exact ⟨(h.other_child (q := q) (by omega) (by omega) hmem hv).1,
        h.slot_ne (by omega) (by omega) hpage he⟩
    rw [hpage, List.isChain_append, List.isChain_cons] at hchain
    refine List.isChain_append.mpr ⟨hpart (fun e he => hout e (.inl he)) hchain.1,
      List.isChain_cons.mpr ⟨?_, List.isChain_cons.mpr
        ⟨h₂, hpart (fun e he => hout e (.inr he)) hchain.2.1.2⟩⟩, ?_⟩
    · intro e he
      cases he
      exact hvq
    · intro e he e' he'
      cases he'
      exact h₁ e he
  · by_cases hxv : x = v
    · rw [hxv, linked_new hvp]
      exact List.isChain_nil
    · by_cases hxq : x = q
      · rw [hxq, linked_old hqp hqv] at hxL
        simp only at hxL
        omega
      · rw [linked_of_ne hxp hxv hxq] at hx hxL ⊢
        refine hpart (fun e he => ?_) (hG x hx hxL)
        obtain ⟨hev, heq⟩ := h.other_child (q := q) hxL hx he hv
        exact ⟨hev, heq (by rw [hqpar]; exact Ne.symm hxp)⟩

/-- The new root has one child. -/
theorem Labels.Crowded.grown {key : Nat} {f : Ptr w → Nat} (h : Tree geo m r L s G) :
    (G.grown s.height (geo.keyBound w) s.node v key).Crowded geo (s.height + 1) f := by
  intro x _ hxL
  by_cases hxv : x = v
  · rw [hxv, grown_new]
    simp only
    split
    · exact List.isChain_nil
    · exact List.isChain_singleton _
  · have hold : (G.grown s.height (geo.keyBound w) s.node v key x).lvl = (G x).lvl := by
      unfold Labels.grown
      rw [if_neg hxv]
      split
      next heq => rw [heq.1]
      next => rfl
    have := h.lvl_le x
    omega

/-- The pairs of `p` are shared after the new node has been linked. -/
theorem Labels.Crowded.halved {s₁ s₂ : State w} {G₁ G₂ : Labels w} {a b : Page w} {k i : Nat} {new : Ptr w}
    (h₁ : G₁.Crowded geo L G₁.size) (h₂ : G₂.Crowded geo (L + 1) (G₂.shares geo new p i))
    (htree : Tree geo m r L s₁ G₁) (hL : 1 ≤ L) (hp : (G₁ p).lvl = L) (hnew : (G₁ new).lvl = 0)
    (hpage : (G₁ p).page = a ++ b) (hbelow : Below (L + 1) s₁ s₂ (G₁.beside k new p) G₂) :
    (G₂.halved new p a b).Crowded geo L ((G₂.halved new p a b).shares geo new p i) := by
  have hpn : p ≠ new := by rintro rfl; omega
  have hbp := beside_old (G := G₁) (k := k) hpn
  have hbn := beside_new (G := G₁) (k := k) (v := new) (q := p)
  have hsize : (G₂.halved new p a b).shares geo new p i = G₂.shares geo new p i := by
    funext x
    by_cases hxn : x = new
    · rw [hxn, shares_new, shares_new]
    · by_cases hxp : x = p
      · rw [hxp, shares_old hpn, shares_old hpn]
      · rw [shares_of_ne hxn hxp, shares_of_ne hxn hxp]
        exact congrArg List.length (halved_page hxn hxp)
  have hlvlP : (G₂ p).lvl = L := by
    rw [hbelow.lvl p (by rw [hbp]; simp only; omega), hbp]
    exact hp
  have hlvlN : (G₂ new).lvl = L := by
    rw [hbelow.lvl new (by rw [hbn]; simp only; omega), hbn]
    exact hp
  -- the children of this level are as before
  have hpart : ∀ {x : Ptr w} {l : Page w}, (G₁ x).lvl = L → 2 ≤ L → (∀ e ∈ l, e ∈ (G₁ x).page) →
      (l.IsChain fun e e' => geo.noPairs < G₁.size e.2 + G₁.size e'.2) →
      l.IsChain fun e e' => geo.noPairs < G₂.shares geo new p i e.2 + G₂.shares geo new p i e'.2 := by
    intro x l hx hL' hl hchain
    have hsame : ∀ e ∈ l, G₂.shares geo new p i e.2 = G₁.size e.2 := by
      intro e he
      obtain ⟨hclvl, -⟩ := htree.child_of_mem (k := e.1) (c := e.2) (p := x) (by omega) (by omega) (hl e he)
      have hcn : e.2 ≠ new := by rintro heq; rw [heq] at hclvl; omega
      have hcp : e.2 ≠ p := by rintro heq; rw [heq] at hclvl; omega
      have hb := beside_of_ne (G := G₁) (k := k) hcn hcp
      rw [shares_of_ne hcn hcp]
      apply congrArg List.length
      rw [(hbelow.span e.2 (by rw [hb]; omega) (by rw [hb]; omega)).2.2, hb]
    refine hchain.imp_of_mem_imp fun e e' he he' h => ?_
    rwa [hsame e he, hsame e' he']
  intro x hx hxL
  rw [(halved_span x).1] at hx hxL
  rw [hsize]
  cases Nat.eq_or_lt_of_le hxL with
  | inl hlevel =>
    have hL' : 2 ≤ L := by omega
    have hchain := h₁ p (by omega) (by omega)
    rw [hpage] at hchain
    by_cases hxn : x = new
    · rw [hxn, halved_new]
      exact hpart hp hL' (fun e he => by rw [hpage]; exact List.mem_append_left b he) hchain.left_of_append
    · by_cases hxp : x = p
      · rw [hxp, halved_old hpn]
        exact hpart hp hL' (fun e he => by rw [hpage]; exact List.mem_append_right a he)
          hchain.right_of_append
      · have hb := beside_of_ne (G := G₁) (k := k) hxn hxp
        have hx₁ : (G₁ x).lvl = L := by
          by_cases hG : 1 ≤ (G₁ x).lvl
          · have := hbelow.lvl x (by rwa [hb])
            rw [hb] at this
            omega
          · have := (hbelow.fresh x (by rw [hb]; omega) (by omega)).2
            omega
        rw [halved_page hxn hxp, (hbelow.span x (by rw [hb]; omega) (by rw [hb]; omega)).2.2, hb]
        exact hpart hx₁ hL' (fun e he => he) (h₁ x (by omega) (by omega))
  | inr habove =>
    have hxn : x ≠ new := by rintro rfl; omega
    have hxp : x ≠ p := by rintro rfl; omega
    rw [halved_page hxn hxp]
    exact h₂ x hx habove

/-- With `n` pairs, `p` has too many to be merged with a node next to it. -/
def Labels.Apart (geo : Geo) (G : Labels w) (p : Ptr w) (n : Nat) : Prop :=
  ∀ k₀ l₁ l₂, (G (G p).par).page = l₁ ++ (k₀, p) :: l₂ →
    (∀ e ∈ l₁.getLast?, geo.noPairs < n + G.size e.2) ∧ ∀ e ∈ l₂.head?, geo.noPairs < n + G.size e.2

/-- A leaf gets other pairs. -/
theorem Labels.Crowded.setLeaf {l : Page w} (hG : G.Crowded geo 1 G.size) (h : Tree geo m r 1 s G)
    (hp : (G p).lvl = 1) (hapart : p ≠ s.node → G.Apart geo p l.length)
    (hself : G' p = { G p with page := l }) (hother : ∀ x, x ≠ p → G' x = G x) :
    G'.Crowded geo 1 G'.size := by
  have hsize : ∀ x, x ≠ p → G'.size x = G.size x := fun x hx => by rw [Labels.size, hother x hx]; rfl
  have hsizeP : G'.size p = l.length := by rw [Labels.size, hself]
  -- the sums without the leaf stay
  have hpart : ∀ {l : Page w}, (∀ e ∈ l, e.2 ≠ p) →
      (l.IsChain fun e e' => geo.noPairs < G.size e.2 + G.size e'.2) →
      l.IsChain fun e e' => geo.noPairs < G'.size e.2 + G'.size e'.2 := by
    intro l hl hchain
    refine hchain.imp_of_mem_imp fun a b ha hb hab => ?_
    rwa [hsize a.2 (hl a ha), hsize b.2 (hl b hb)]
  intro x hx hxL
  have hxp : x ≠ p := by
    rintro rfl
    rw [hself] at hx
    simp only at hx
    omega
  rw [hother x hxp] at hx hxL ⊢
  have hchain := hG x hx hxL
  -- at its parent the leaf counts twice, with either neighbour
  by_cases hin : ∃ e ∈ (G x).page, e.2 = p
  · obtain ⟨⟨k, c⟩, hmem, rfl⟩ := hin
    obtain ⟨l₁, l₂, hpage⟩ := List.append_of_mem hmem
    obtain ⟨hclvl, hcpar, -⟩ := h.child hxL hx hpage
    have hroot : c ≠ s.node := h.ne_root (by have := h.lvl_le x; omega)
    obtain ⟨hleft, hright⟩ := hapart hroot k l₁ l₂ (by rw [hcpar]; exact hpage)
    have hout : ∀ e, e ∈ l₁ ∨ e ∈ l₂ → e.2 ≠ c := fun e he => h.slot_ne hxL hx hpage he
    rw [hpage] at hchain ⊢
    rw [List.isChain_append, List.isChain_cons] at hchain
    refine List.isChain_append.mpr ⟨hpart (fun e he => hout e (.inl he)) hchain.1,
      List.isChain_cons.mpr ⟨fun e he => ?_, hpart (fun e he => hout e (.inr he)) hchain.2.1.2⟩,
      fun e he e' he' => ?_⟩
    · simp only [hsizeP, hsize e.2 (hout e (.inr (List.mem_of_mem_head? he)))]
      exact hright e he
    · cases he'
      simp only [hsizeP, hsize e.2 (hout e (.inl (List.mem_of_mem_getLast? he)))]
      rw [Nat.add_comm]
      exact hleft e he
  · exact hpart (fun e he heq => hin ⟨e, he, heq⟩) hchain

/-! ## Where a slot of a split page was -/

section

variable {α : Type} {l l₁ l₂ : List α} {e : α} {n : Nat}

/-- The upper half ends behind slot `n - 1`. -/
theorem slot_of_take (h : l.take n = l₁ ++ e :: l₂) (hn : n ≤ l.length) :
    ∃ l₂', l = l₁ ++ e :: l₂' ∧ l₁.length < n ∧ ∀ a ∈ l₂.head?, a ∈ l₂'.head? ∧ l₁.length + 1 ≠ n := by
  have hlen : l₁.length + (l₂.length + 1) = n := by
    have := congrArg List.length h
    rw [List.length_take, List.length_append, List.length_cons] at this
    omega
  refine ⟨l₂ ++ l.drop n, ?_, by omega, fun a ha => ?_⟩
  · conv_lhs => rw [← List.take_append_drop n l, h, List.append_assoc, List.cons_append]
  · cases l₂ with
    | nil => cases ha
    | cons b l₂ =>
      simp only [List.length_cons] at hlen
      exact ⟨ha, by omega⟩

/-- The lower half begins at slot `n`. -/
theorem slot_of_drop (h : l.drop n = l₁ ++ e :: l₂) (hn : n ≤ l.length) :
    ∃ l₁', l = l₁' ++ e :: l₂ ∧ n ≤ l₁'.length ∧ ∀ a ∈ l₁.getLast?, a ∈ l₁'.getLast? ∧ l₁'.length ≠ n := by
  have hlen : (l.take n).length = n := by rw [List.length_take]; omega
  refine ⟨l.take n ++ l₁, ?_, by rw [List.length_append]; omega, fun a ha => ?_⟩
  · conv_lhs => rw [← List.take_append_drop n l, h, ← List.append_assoc]
  · have hne : l₁ ≠ [] := by rintro rfl; cases ha
    have := List.length_pos_of_ne_nil hne
    exact ⟨List.mem_getLast?_append_of_mem_getLast? ha, by rw [List.length_append]; omega⟩

end

/-! ## Linking a node -/

/-- What linking the new node `v` beside `q` with key `k` keeps. -/
structure Grafted (geo : Geo) (d : Nat) (G G' : Labels w) (q : Ptr w) (k : Nat) (v : Ptr w) : Prop where
  positive : 0 < k → G.Positive → G'.Positive
  crowded : ∀ i, G.Keeps geo d q i → G.Crowded geo (G q).lvl G.size →
    G'.Crowded geo ((G q).lvl + 1) (G'.shares geo v q i)

theorem Labels.Crowded.mono {L' : Nat} {f : Ptr w → Nat} (h : G.Crowded geo L f) (hle : L ≤ L') :
    G.Crowded geo L' f := fun x hx hxL => h x hx (hle.trans hxL)

/-- Only the parent has got a slot. -/
theorem linked_size {l₁ l₂ : Page w} {k : Nat} {x : Ptr w} (hpage : (G p).page = l₁ ++ l₂) (hx : x ≠ v) :
    (G.linked p l₁ k v q l₂).size x = G.size x + if x = p then 1 else 0 := by
  unfold Labels.size Labels.linked
  by_cases hxp : x = p
  · rw [if_pos hxp, if_pos hxp, hxp, hpage]
    simp only [List.length_append, List.length_cons]
    omega
  · rw [if_neg hxp, if_neg hxp, if_neg hx]
    split
    next hxq => rw [hxq]; rfl
    next => rfl

/-- The parent has room. -/
theorem Grafted.of_room {l₁ l₂ : Page w} {k k₀ d : Nat} (h : Tree geo m r L s G) (hL : 2 ≤ L)
    (hq : (G q).lvl + 1 = L) (hpar : (G q).par = p) (hp : (G p).lvl = L)
    (hpage : (G p).page = l₁ ++ (k₀, q) :: l₂) (hv : (G v).lvl = 0) (hroom : G.size p ≠ geo.noPairs) :
    Grafted geo (d + 1) G (G.linked p l₁ k v q ((k₀, q) :: l₂)) q k v where
  positive hk hpos := hpos.linked hpage hk
  crowded i hkeeps hcrowded := by
    have hqv : q ≠ v := by rintro rfl; omega
    obtain ⟨hleft, hright, -⟩ := hkeeps k₀ l₁ l₂ (by rw [hpar]; exact hpage)
    rw [hpar] at hleft hright
    have hchild : ∀ e, e ∈ l₁ ∨ e ∈ l₂ →
        (G.linked p l₁ k v q ((k₀, q) :: l₂)).shares geo v q i e.2 = G.size e.2 := by
      intro e he
      have hmem : e ∈ (G p).page := by
        rw [hpage]
        simp only [List.mem_append, List.mem_cons]
        tauto
      have hev := (h.other_child (q := q) (by omega) (by omega) hmem hv).1
      have heq : e.2 ≠ q := h.slot_ne (by omega) (by omega) hpage he
      obtain ⟨hclvl, -⟩ := h.child_of_mem (k := e.1) (c := e.2) (by omega) (by omega) hmem
      have hep : e.2 ≠ p := by rintro hep; rw [hep] at hclvl; omega
      rw [shares_of_ne hev heq, linked_size hpage hev, if_neg hep, Nat.add_zero]
    refine Labels.Crowded.linked (hcrowded.mono (by omega)) (by rw [hq]; exact h) (by omega) (by omega)
      hpage hv (fun x hxv hxq => ?_) ?_ (fun e he => ?_) (fun e he => ?_)
    · rw [shares_of_ne hxv hxq, linked_size hpage hxv]
      exact Nat.le_add_right _ _
    · rw [shares_new, shares_old hqv, upperFill_add_lowerFill]
      exact Nat.lt_succ_self _
    · rw [hchild e (.inl (List.mem_of_mem_getLast? he)), shares_new]
      exact hleft e he fun hfull => hroom hfull.1
    · rw [hchild e (.inr (List.mem_of_mem_head? he)), shares_old hqv]
      exact hright e he fun hfull => hroom hfull.1

/-- The new node is linked into a new root. -/
theorem Grafted.of_grown {s₁ : State w} {G₁ : Labels w} {new : Ptr w} {r' key k : Nat} (k₀ : Nat)
    (l₁ l₂ : Page w) (h : Tree geo m r L s G) (hh : 1 ≤ s.height) (hlast : ∃ l c, (G s.node).page = l ++ [(key, c)])
    (heq : G₁ = G.grown s.height (geo.keyBound w) s.node new key)
    (h₁ : Tree geo m r' (s.height + 1) s₁ G₁) (hv : (G₁ v).lvl = 0)
    (hpage : (G₁ new).page = l₁ ++ (k₀, s.node) :: l₂) :
    Grafted geo 0 G (G₁.linked new l₁ k v s.node ((k₀, s.node) :: l₂)) s.node k v where
  positive hk hpos := by
    have hroot := h.root_lvl hh
    have hpos₁ : G₁.Positive := by
      rw [heq]
      refine hpos.grown fun _ => ?_
      obtain ⟨l, c, hl⟩ := hlast
      exact hpos s.node (by omega) (key, c) (by rw [hl]; simp)
    exact hpos₁.linked hpage hk
  crowded i _ _ := by
    have hroot := h.root_lvl hh
    have hnew : G₁ new = ⟨s.height + 1, 0, geo.keyBound w, 0#w, if s.height = 0 then [] else [(key, s.node)]⟩ := by
      rw [heq, grown_new]
    have hsv : s.node ≠ v := by
      rintro rfl
      have := h₁.child_of_mem (p := new) (k := k₀) (c := s.node) (by rw [hnew]) (by rw [hnew]; simp only; omega)
        (by rw [hpage]; simp)
      rw [hnew] at this
      simp only at this
      omega
    -- the old root is the only child
    obtain ⟨rfl, -, rfl⟩ : l₁ = [] ∧ (k₀, s.node) = (key, s.node) ∧ l₂ = [] := by
      rw [hnew] at hpage
      simp only [show s.height ≠ 0 by omega, if_false] at hpage
      have hlen := congrArg List.length hpage
      simp only [List.length_append, List.length_cons, List.length_nil] at hlen
      obtain rfl : l₁ = [] := List.eq_nil_of_length_eq_zero (by omega)
      obtain rfl : l₂ = [] := List.eq_nil_of_length_eq_zero (by omega)
      simpa using hpage.symm
    rw [hroot]
    refine Labels.Crowded.linked (by rw [heq]; exact Labels.Crowded.grown h) h₁ (by omega)
      (by rw [hnew]) hpage hv (fun _ _ _ => le_rfl) ?_ (by simp) (by simp)
    rw [shares_new, shares_old hsv, upperFill_add_lowerFill]
    exact Nat.lt_succ_self _

/-! ## The neighbours, read off the memory -/

/-- The words of the node of this level that `key` leads to. -/
def nodeAt (geo : Geo) (key : Words w) (level : Nat) (s : State w) : Words w :=
  match findLevel geo (.buf key) level s with
  | .ok (node, s) =>
    match s.load node with
    | .ok words => words
    | .error _ => fun _ => 0#w
  | .error _ => fun _ => 0#w

def fillOf (geo : Geo) (s : State w) (node : Ptr w) : Nat :=
  match s.load node with
  | .ok words => getfill geo words 0
  | .error _ => 0

/-- The fill of the child in front of the one that `key` leads to, in the node of this level. -/
def leftFill (geo : Geo) (key : Words w) (level : Nat) (s : State w) : Option Nat :=
  let parent := nodeAt geo key level s
  let i := getpos geo parent key
  if 0 < i then some (fillOf geo s (bval geo parent (i - 1))) else none

/-- The fill of the child behind it. -/
def rightFill (geo : Geo) (key : Words w) (level : Nat) (s : State w) : Option Nat :=
  let parent := nodeAt geo key level s
  let i := getpos geo parent key
  if i + 1 < getfill geo parent 0 then some (fillOf geo s (bval geo parent (i + 1))) else none

/-- The halves of the node of this level can be merged with no neighbour, when the next insertion is the one
of `key`. -/
def splitKeeps (geo : Geo) (key : Words w) (level : Nat) (s : State w) : Prop :=
  let i := getpos geo (nodeAt geo key level s) key
  let j := getpos geo (nodeAt geo key (level + 1) s) key
  (∀ fill ∈ leftFill geo key (level + 1) s,
    ¬(fullAt geo key (level + 1) s = true ∧ j = geo.noPairs / 2) → geo.noPairs < fill + upperFill geo i) ∧
  (∀ fill ∈ rightFill geo key (level + 1) s,
    ¬(fullAt geo key (level + 1) s = true ∧ j + 1 = geo.noPairs / 2) →
      geo.noPairs < lowerFill geo i + fill)

/-- The same for the node `d` levels below the root, and for those above it that are split with it. -/
def splitsKeep (geo : Geo) (key : Words w) (s : State w) : Nat → Prop
  | 0 => True
  | d + 1 => splitKeeps geo key (s.height - (d + 1)) s ∧
    (fullAt geo key (s.height - d) s = true → splitsKeep geo key s d)

/-- No node that `cbtree_insert` splits can be merged with a neighbour afterwards. -/
def InsertKeeps (geo : Geo) (key : Words w) (s : State w) : Prop :=
  fullAt geo key 1 (routed geo key s) = true →
    splitsKeep geo key (routed geo key s) ((routed geo key s).height - 1)

instance decidableSplitKeeps (geo : Geo) (key : Words w) (level : Nat) (s : State w) :
    Decidable (splitKeeps geo key level s) := by
  unfold splitKeeps
  infer_instance

instance decidableSplitsKeep (geo : Geo) (key : Words w) (s : State w) :
    ∀ d : Nat, Decidable (splitsKeep geo key s d)
  | 0 => isTrue trivial
  | d + 1 => by
    have := decidableSplitsKeep geo key s d
    unfold splitsKeep
    infer_instance

instance decidableInsertKeeps (geo : Geo) (key : Words w) (s : State w) : Decidable (InsertKeeps geo key s) := by
  unfold InsertKeeps
  infer_instance

section

variable {key : Words w}

theorem Tree.nodeAt_eq (key : Words w) (h : Tree geo m r L s G) (hp : 1 ≤ (G p).lvl) (hL : L ≤ (G p).lvl + 1)
    (hlo : (G p).lo ≤ keyNum geo key) (hhi : keyNum geo key < (G p).hi) :
    Holds geo (nodeAt geo key (G p).lvl s) (G p).page := by
  obtain ⟨n, -, hload, hholds⟩ := h.load hp
  unfold nodeAt
  simp only [h.findLevel_to (reads_buf key) hp hL hlo hhi, hload]
  exact hholds

theorem Tree.fillOf_eq (h : Tree geo m r L s G) (hp : 1 ≤ (G p).lvl) : fillOf geo s p = G.size p := by
  obtain ⟨n, -, hload, hholds⟩ := h.load hp
  unfold fillOf
  simp only [hload, hholds.getfill (Nat.zero_le _)]
  rfl

/-- The children next to `q`, whose interval the key lies in. -/
theorem Tree.neighbour_fills {l₁ l₂ : Page w} {k₀ : Nat} (h : Tree geo m r L s G) (hp : L ≤ (G p).lvl)
    (hlvl : 2 ≤ (G p).lvl) (hpage : (G p).page = l₁ ++ (k₀, q) :: l₂) (hlo : (G q).lo ≤ keyNum geo key)
    (hhi : keyNum geo key < (G q).hi) (hplo : (G p).lo ≤ keyNum geo key) (hphi : keyNum geo key < (G p).hi) :
    getpos geo (nodeAt geo key (G p).lvl s) key = l₁.length ∧
    leftFill geo key (G p).lvl s = l₁.getLast?.map (fun e => G.size e.2) ∧
    rightFill geo key (G p).lvl s = l₂.head?.map fun e => G.size e.2 := by
  have hholds := h.nodeAt_eq key (by omega) (by omega) hplo hphi
  obtain ⟨h₁, h₂⟩ := h.cut_at_child hp hlvl hpage hlo hhi
  rw [hpage] at hholds
  have hpos := hholds.getpos h₁ h₂
  -- `getfill` counts the pairs of a node
  have hfill : ∀ e ∈ (G p).page, fillOf geo s e.2 = G.size e.2 := by
    intro e he
    obtain ⟨hchild, -⟩ := h.child_of_mem (k := e.1) (c := e.2) hp hlvl he
    exact h.fillOf_eq (by omega)
  rw [hpage] at hfill
  refine ⟨hpos, ?_, ?_⟩
  · simp only [leftFill, hpos]
    rcases List.eq_nil_or_concat l₁ with rfl | ⟨l, e, rfl⟩
    · rfl
    · obtain ⟨k, c⟩ := e
      rw [List.concat_eq_append] at hholds hfill ⊢
      have hcut : Holds geo (nodeAt geo key (G p).lvl s) (l ++ (k, c) :: (k₀, q) :: l₂) := by
        simpa using hholds
      rw [if_pos (by simp), List.length_append, List.length_singleton, Nat.add_sub_cancel, hcut.bval_append,
        hfill (k, c) (by simp)]
      simp
  · simp only [rightFill, hpos, hholds.getfill (Nat.zero_le _)]
    cases l₂ with
    | nil =>
      rw [if_neg (by simp)]
      rfl
    | cons e l₂ =>
      obtain ⟨k, c⟩ := e
      have hcut : Holds geo (nodeAt geo key (G p).lvl s) ((l₁ ++ [(k₀, q)]) ++ (k, c) :: l₂) := by
        simpa using hholds
      have hval := hcut.bval_append
      rw [List.length_append, List.length_singleton] at hval
      rw [if_pos (by simp), hval, hfill (k, c) (by simp)]
      rfl

theorem Tree.splitsKeep_keeps (h : Tree geo m r L s G) : ∀ {d : Nat} {p : Ptr w}, 1 ≤ (G p).lvl →
    L ≤ (G p).lvl → (G p).lvl + d = s.height → (G p).lo ≤ keyNum geo key → keyNum geo key < (G p).hi →
    splitsKeep geo key s d → G.Keeps geo d p (getpos geo (nodeAt geo key (G p).lvl s) key) := by
  intro d
  induction d with
  | zero =>
    intro _ _ _ _ _ _ _
    exact trivial
  | succ d ih =>
    intro p hp hL hd hlo hhi hkeep
    have hne : p ≠ s.node := h.ne_root (by omega)
    obtain ⟨hplo, hphi⟩ := h.interval_le hp (by omega) hne
    obtain ⟨-, -, -, hplvl, -⟩ := h.parent_slot hp (by omega) hne
    have hfull := h.fullAt_iff key (p := (G p).par) (by omega) (by omega) (by omega) (by omega)
    obtain ⟨hsplit, hrest⟩ := hkeep
    rw [show s.height - (d + 1) = (G p).lvl by omega] at hsplit
    rw [show s.height - d = (G (G p).par).lvl by omega, hfull] at hrest
    unfold splitKeeps at hsplit
    rw [← hplvl] at hsplit
    simp only [hfull] at hsplit
    intro k₀ l₁ l₂ hpage
    obtain ⟨hpos, hleft, hright⟩ := h.neighbour_fills (by omega) (by omega) hpage hlo hhi (by omega) (by omega)
    rw [hpos, hleft, hright] at hsplit
    refine ⟨fun e he => ?_, fun e he => ?_, fun hcut => ?_⟩
    · exact hsplit.1 (G.size e.2) (Option.mem_map_of_mem _ he)
    · exact hsplit.2 (G.size e.2) (Option.mem_map_of_mem _ he)
    · have hrec := ih (p := (G p).par) (by omega) (by omega) (by omega) (by omega) (by omega) (hrest hcut)
      rwa [hpos] at hrec

end

end CachedBTree
