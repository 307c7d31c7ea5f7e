import CachedBTree.Descent
import CachedBTree.Writes
import CachedBTree.Insertion.Relabel

/-! # One pass of `cbtree_insert_level`

The code from `retry:` on either inserts into the node found, or stops at a key that is
there already, or splits the node.  `Below` says what the work on a level leaves alone
further down. -/

namespace CachedBTree

open CachedBTree.Support

variable {w : Nat} {geo : Geo} {m r L : Nat} {s s' : State w} {G G' : Labels w} {p q v : Ptr w}

/-! ## One pass after `retry:` -/

section Pass

variable {up : KeyPtr w → Ptr w → Nat → State w → Except Fault (Int × State w)}
  {kp : KeyPtr w} {key n : Words w} {l₁ l₂ : Page w} {k : Nat}

/-- There is room in the node found: shift and insert. -/
theorem insertRetry_room (up : KeyPtr w → Ptr w → Nat → State w → Except Fault (Int × State w))
    {t : Nat} (hp : p ≠ 0#w) (hfind : findLevel geo kp L s = .ok (p, s))
    (hnode : s.heap p = some (.node n)) (hread : kp.read geo s = .ok key) (havoids : kp.Avoids p)
    (hholds : Holds geo n (l₁ ++ l₂)) (h₁ : ∀ e ∈ l₁, keyNum geo key < e.1)
    (h₂ : ∀ e ∈ l₂, e.1 < keyNum geo key) (hroom : l₁.length + l₂.length < geo.noPairs)
    (hv : v ≠ 0#w) :
    ∃ n', insertRetry geo up kp v L (t + 1) s = .ok (0, s.setNode p n') ∧
      Holds geo n' (l₁ ++ (keyNum geo key, v) :: l₂) ∧ SameCache geo n n' := by
  have hload : s.load p = .ok n := State.load_eq_ok.mpr ⟨hp, hnode⟩
  have hpos : getpos geo n key = l₁.length := hholds.getpos h₁ fun e he => (h₂ e he).le
  have hfill : getfill geo n l₁.length = l₁.length + l₂.length := by
    rw [hholds.getfill (by simp), List.length_append]
  have hnodup : ¬(l₁.length < l₁.length + l₂.length ∧ keycmp geo n l₁.length key = 0) := by
    rintro ⟨hlt, heq⟩
    cases l₂ with
    | nil => simp at hlt
    | cons e l₂ =>
      have := h₂ e (by simp)
      have := hholds.keycmp_append.mp heq
      omega
  refine ⟨_, ?_, hholds.insert hroom hv, ?_⟩
  · rw [insertRetry]
    simp only [hfind, hload, hread, ok_bind, hpos, hfill, if_neg hnodup]
    rw [if_neg (by omega), if_neg (by omega), State.load_setNode hp,
      KeyPtr.read_setNode havoids, hread]
    simp only [ok_bind, Nat.add_sub_cancel_left, State.setNode_setNode]
  · exact ((sameCache_shiftRight (by omega)).trans (sameCache_setkey (by omega))).trans
      (sameCache_setval (by omega))

/-- The key is there already. -/
theorem insertRetry_dup {t : Nat} {c : Ptr w} (hp : p ≠ 0#w)
    (hfind : findLevel geo kp L s = .ok (p, s'))
    (hnode : s'.heap p = some (.node n)) (hread : kp.read geo s' = .ok key)
    (hholds : Holds geo n (l₁ ++ (keyNum geo key, c) :: l₂)) (h₁ : ∀ e ∈ l₁, keyNum geo key < e.1)
    (h₂ : ∀ e ∈ l₂, e.1 ≤ keyNum geo key) :
    insertRetry geo up kp v L (t + 1) s = .error (.bug .insertDup) := by
  have hload : s'.load p = .ok n := State.load_eq_ok.mpr ⟨hp, hnode⟩
  have hpos : getpos geo n key = l₁.length := hholds.getpos h₁ fun e he => by
    rcases List.mem_cons.mp he with rfl | hmem
    · exact le_rfl
    · exact h₂ e hmem
  have hdup : l₁.length < l₁.length + (l₂.length + 1) ∧ keycmp geo n l₁.length key = 0 :=
    ⟨by omega, hholds.keycmp_append.mpr rfl⟩
  have hfill : getfill geo n l₁.length = l₁.length + (l₂.length + 1) := by
    rw [hholds.getfill (by simp), List.length_append, List.length_cons]
  rw [insertRetry]
  simp only [hfind, hload, hread, ok_bind, hpos, hfill, if_pos hdup]

/-- The node found is full. -/
theorem insertRetry_split {t : Nat} (hN : 2 ≤ geo.noPairs) (hp : p ≠ 0#w)
    (hfind : findLevel geo kp L s = .ok (p, s))
    (hnode : s.heap p = some (.node n)) (hread : kp.read geo s = .ok key)
    (hholds : Holds geo n (l₁ ++ l₂)) (h₁ : ∀ e ∈ l₁, keyNum geo key < e.1)
    (h₂ : ∀ e ∈ l₂, e.1 < keyNum geo key) (hfull : l₁.length + l₂.length = geo.noPairs) :
    insertRetry geo up kp v L (t + 1) s = (do
      let (new, s) ← cbtreeNodeAlloc geo s
      if new = 0#w then .ok (-ENOMEM, s)
      else do
        let (err, s) ← up (.slot p (geo.noPairs / 2 - 1)) new (L + 1) s
        if err ≠ 0 then do
          let s ← s.free new
          .ok (err, s)
        else do
          let newWords ← s.load new
          let words ← s.load p
          let pair := splitNode geo geo.noPairs newWords words
          insertRetry geo up kp v L t ((s.setNode new pair.1).setNode p pair.2)) := by
  have hload : s.load p = .ok n := State.load_eq_ok.mpr ⟨hp, hnode⟩
  have hpos : getpos geo n key = l₁.length := hholds.getpos h₁ fun e he => (h₂ e he).le
  have hfill : getfill geo n l₁.length = geo.noPairs := by
    rw [hholds.getfill (by simp), List.length_append, hfull]
  -- the key is not there, so this is no duplicate
  have hnodup : ¬(l₁.length < geo.noPairs ∧ keycmp geo n l₁.length key = 0) := by
    rintro ⟨hlt, heq⟩
    cases l₂ with
    | nil => simp only [List.length_nil] at hfull; omega
    | cons e l₂ =>
      have := h₂ e (by simp)
      have := hholds.keycmp_append.mp heq
      omega
  have hhalf : ¬geo.noPairs / 2 = 0 := by omega
  rw [insertRetry]
  simp only [hfind, hload, hread, ok_bind, hpos, hfill, if_neg hnodup, if_true, if_neg hhalf]

/-- A pass begins anew from where `find_level` has got to. -/
theorem insertRetry_found {t : Nat} (hfind : findLevel geo kp L s = .ok (p, s'))
    (hfind' : findLevel geo kp L s' = .ok (p, s')) :
    insertRetry geo up kp v L (t + 1) s = insertRetry geo up kp v L (t + 1) s' := by
  rw [insertRetry, insertRetry, hfind, hfind']

end Pass

/-! ## What a level leaves alone -/

/-- The work on level `L` and above, seen from below.  Only the parents of the nodes right
below may change. -/
structure Below (L : Nat) (s s' : State w) (G G' : Labels w) : Prop where
  lvl : ∀ x, 1 ≤ (G x).lvl → (G' x).lvl = (G x).lvl
  span : ∀ x, 1 ≤ (G x).lvl → (G x).lvl < L →
    (G' x).lo = (G x).lo ∧ (G' x).hi = (G x).hi ∧ (G' x).page = (G x).page
  par : ∀ x, 1 ≤ (G x).lvl → (G x).lvl + 1 < L → (G' x).par = (G x).par
  heap : ∀ x o, (G x).lvl < L → s.heap x = some o → s'.heap x = some o
  fresh : ∀ x, (G x).lvl = 0 → 1 ≤ (G' x).lvl → s.heap x = none ∧ L ≤ (G' x).lvl
  live : ∀ x n, s'.heap x = some (.node n) →
    (∃ n₀, s.heap x = some (.node n₀)) ∨ 1 ≤ (G' x).lvl

namespace Below

variable {s'' : State w} {G'' : Labels w}

theorem refl (L : Nat) (s : State w) (G : Labels w) : Below L s s G G :=
  ⟨fun _ _ => rfl, fun _ _ _ => ⟨rfl, rfl, rfl⟩, fun _ _ _ => rfl, fun _ _ _ h => h,
    fun _ h h' => by omega, fun _ n h => .inl ⟨n, h⟩⟩

/-- Nothing has been written further down and there is no new node. -/
theorem of_kept (hkept : Kept s s') (hnew : NoNew s s') : Below L s s' G G where
  lvl _ _ := rfl
  span _ _ _ := ⟨rfl, rfl, rfl⟩
  par _ _ _ := rfl
  heap x o _ hx := hkept.heap x o hx
  fresh _ hx hx' := by omega
  live x n hx := .inl (hnew x n hx)

theorem trans (hL : 1 ≤ L) (h : Below L s s' G G') (h' : Below L s' s'' G' G'') : Below L s s'' G G'' where
  lvl x hx := (h'.lvl x (by rw [h.lvl x hx]; exact hx)).trans (h.lvl x hx)
  span x hx hlt := by
    have hlvl := h.lvl x hx
    obtain ⟨h₁, h₂, h₃⟩ := h.span x hx hlt
    obtain ⟨h₁', h₂', h₃'⟩ := h'.span x (by omega) (by omega)
    exact ⟨h₁'.trans h₁, h₂'.trans h₂, h₃'.trans h₃⟩
  par x hx hlt := by
    have hlvl := h.lvl x hx
    exact (h'.par x (by omega) (by omega)).trans (h.par x hx hlt)
  heap x o hlt hobj := by
    refine h'.heap x o ?_ (h.heap x o hlt hobj)
    -- a node that is new in between was free before, so it did not hold `o`
    by_cases hx : 1 ≤ (G x).lvl
    · rw [h.lvl x hx]
      exact hlt
    · by_cases hx' : 1 ≤ (G' x).lvl
      · have := (h.fresh x (by omega) hx').1
        rw [hobj] at this
        cases this
      · omega
  fresh x hx hx'' := by
    by_cases hx' : 1 ≤ (G' x).lvl
    · have := h.fresh x hx hx'
      rw [h'.lvl x hx']
      exact this
    · -- new in the second part: the first has not allocated it
      obtain ⟨hfree, hlvl⟩ := h'.fresh x (by omega) hx''
      refine ⟨?_, hlvl⟩
      cases hobj : s.heap x with
      | none => rfl
      | some o =>
        rw [h.heap x o (by omega) hobj] at hfree
        cases hfree
  live x n hx := by
    rcases h'.live x n hx with ⟨n', hx'⟩ | hlvl
    · cases h.live x n' hx' with
      | inl hold =>
        exact .inl hold
      | inr hlvl =>
        exact .inr (by rw [h'.lvl x hlvl]; exact hlvl)
    · exact .inr hlvl

/-- Linking an empty node beside `q` is the same seen from before and from after. -/
theorem beside {k : Nat} (h : Below L s s' G G') (hq : 1 ≤ (G q).lvl) (hqL : (G q).lvl < L)
    (hv : (G v).lvl = 0) (hobj : s.heap v ≠ none) :
    Below L s s' (G.beside k v q) (G'.beside k v q) := by
  have hqv : q ≠ v := by rintro rfl; omega
  have hqlvl := h.lvl q hq
  obtain ⟨hqlo, hqhi, hqpage⟩ := h.span q hq hqL
  -- `v` and `q` get the same labels on both sides, the others keep theirs
  have hnew : ∀ G : Labels w, G.beside k v q v = ⟨(G q).lvl, k, (G q).hi, 0#w, []⟩ := fun G =>
    beside_new
  have hold : ∀ G : Labels w, G.beside k v q q = { G q with hi := k } := fun G => beside_old hqv
  have hother : ∀ (G : Labels w) x, x ≠ v → x ≠ q → G.beside k v q x = G x := fun G x => beside_of_ne
  refine ⟨fun x hx => ?_, fun x hx hlt => ?_, fun x hx hlt => ?_, fun x o hlt hx => ?_,
    fun x hx hx' => ?_, fun x n hx => (h.live x n hx).imp_right fun hlvl => ?_⟩
  · by_cases hxv : x = v
    · rw [hxv, hnew, hnew]
      exact hqlvl
    · by_cases hxq : x = q
      · rw [hxq, hold, hold]
        exact hqlvl
      · rw [hother _ x hxv hxq] at hx
        rw [hother _ x hxv hxq, hother _ x hxv hxq]
        exact h.lvl x hx
  · by_cases hxv : x = v
    · rw [hxv, hnew, hnew]
      exact ⟨rfl, hqhi, rfl⟩
    · by_cases hxq : x = q
      · rw [hxq, hold, hold]
        exact ⟨hqlo, rfl, hqpage⟩
      · rw [hother _ x hxv hxq] at hx hlt
        rw [hother _ x hxv hxq, hother _ x hxv hxq]
        exact h.span x hx hlt
  · by_cases hxv : x = v
    · rw [hxv, hnew, hnew]
    · by_cases hxq : x = q
      · rw [hxq, hold] at hlt
        rw [hxq, hold, hold]
        exact h.par q hq hlt
      · rw [hother _ x hxv hxq] at hx hlt
        rw [hother _ x hxv hxq, hother _ x hxv hxq]
        exact h.par x hx hlt
  · refine h.heap x o ?_ hx
    by_cases hxv : x = v
    · rw [hxv]
      omega
    · by_cases hxq : x = q
      · rw [hxq]
        exact hqL
      · rwa [hother _ x hxv hxq] at hlt
  · by_cases hxv : x = v
    · rw [hxv, hnew] at hx
      simp only at hx
      omega
    · by_cases hxq : x = q
      · rw [hxq, hold] at hx
        simp only at hx
        omega
      · rw [hother _ x hxv hxq] at hx hx' ⊢
        exact h.fresh x hx hx'
  · by_cases hxv : x = v
    · rw [hxv, hnew]
      simp only
      omega
    · by_cases hxq : x = q
      · rw [hxq, hold]
        simp only
        omega
      · rwa [hother _ x hxv hxq]

/-- The pairs of the levels below are the same. -/
theorem pairAt {j : Nat} (h : Below L s s' G G') (hj : 1 ≤ j) (hjL : j < L) (e : Nat × Ptr w) :
    PairAt G' j e ↔ PairAt G j e := by
  constructor
  · rintro ⟨x, hx, he⟩
    by_cases hG : 1 ≤ (G x).lvl
    · have hlvl := h.lvl x hG
      rw [(h.span x hG (by omega)).2.2] at he
      exact ⟨x, by omega, he⟩
    · have := (h.fresh x (by omega) (by omega)).2
      omega
  · rintro ⟨x, hx, he⟩
    refine ⟨x, by rw [h.lvl x (by omega)]; exact hx, ?_⟩
    rw [(h.span x (by omega) (by omega)).2.2]
    exact he

end Below

end CachedBTree
