import CachedBTree.Iteration.Predecessor

/-! # Two ways over the entries

`cbtree_visitor` walks over the tree and `cbtree_for_each_safe` asks for the predecessor of
the key it has come to.  Both go through all entries, from the greatest down, when no
separator is 0; insertions of keys other than 0 make no such separator. -/

namespace CachedBTree

open CachedBTree.Support

variable {w : Nat} {geo : Geo} {s s' s₀ : State w} {p : Ptr w} {G : Labels w} {m r : Nat} {key : Words w}
  {v : Ptr w}

/-! ## cbtree_visitor -/

/-- The calls from `seen` to `seen'` are one for each of the entries `es`. -/
structure Visited (geo : Geo) (es : Page w) (seen seen' : Visits w) : Prop where
  count : seen'.count = seen.count + es.length
  calls : ∃ new, seen'.calls = seen.calls ++ new ∧
    new.map (fun c => (keyNum geo c.key, c.elem)) = es ∧
    new.map Visit.index = List.range' seen.count es.length

namespace Visited

variable {es es' : Page w} {seen seen' seen'' : Visits w}

theorem refl (geo : Geo) (seen : Visits w) : Visited geo [] seen seen :=
  ⟨rfl, [], by simp, rfl, rfl⟩

theorem trans (h : Visited geo es seen seen') (h' : Visited geo es' seen' seen'') :
    Visited geo (es ++ es') seen seen'' := by
  obtain ⟨new, hcalls, hes, hindex⟩ := h.calls
  obtain ⟨new', hcalls', hes', hindex'⟩ := h'.calls
  refine ⟨?_, new ++ new', ?_, ?_, ?_⟩
  · rw [h'.count, h.count, List.length_append, Nat.add_assoc]
  · rw [hcalls', hcalls, List.append_assoc]
  · rw [List.map_append, hes, hes']
  · rw [List.map_append, hindex, hindex', h.count, List.length_append, List.range'_append_1]

/-- One call. -/
theorem one (geo : Geo) (elem : Ptr w) (key : Words w) (seen : Visits w) : Visited geo [(keyNum geo key, elem)] seen
    ⟨seen.calls ++ [⟨elem, key, seen.count⟩], seen.count + 1⟩ :=
  ⟨rfl, [⟨elem, key, seen.count⟩], rfl, rfl, rfl⟩

end Visited

/-- The loop over the slots from `l₁.length` on; `sub` are the entries below a child. -/
theorem forEachLoop_visited {n : Words w}
    (body : Ptr w → Words w → Visits w → State w → Except Fault (Visits w × State w))
    (sub : Nat × Ptr w → Page w) (hload : s.load p = .ok n) :
    ∀ (l₁ l₂ : Page w) {d : Nat} (seen : Visits w), Holds geo n (l₁ ++ l₂) → l₁.length + d = geo.noPairs →
    (∀ e ∈ l₂, ∀ key seen, keyNum geo key = e.1 →
      ∃ seen', body e.2 key seen s = .ok (seen', s) ∧ Visited geo (sub e) seen seen') →
    ∃ seen', forEachLoop geo p body l₁.length d seen s = .ok (seen', s) ∧
      Visited geo (l₂.flatMap sub) seen seen'
  | l₁, [], 0, seen, _, _, _ => ⟨seen, rfl, .refl geo seen⟩
  | l₁, [], d + 1, seen, hholds, hlen, _ => by
    rw [List.append_nil] at hholds
    have hend : bval geo n l₁.length = 0#w := congrArg Prod.snd (hholds.slot_end le_rfl (by omega))
    refine ⟨seen, ?_, .refl geo seen⟩
    rw [forEachLoop, hload, ok_bind]
    simp only [hend, if_true]
  | l₁, e :: l₂, 0, seen, hholds, hlen, _ => by
    have := hholds.length_le
    rw [List.length_append, List.length_cons] at this
    omega
  | l₁, (k, c) :: l₂, d + 1, seen, hholds, hlen, hbody => by
    have hne : bval geo n l₁.length ≠ 0#w := hholds.bval_ne_zero (by simp)
    obtain ⟨seen₁, hrun, hvisited⟩ := hbody (k, c) (by simp) (bkey geo n l₁.length) seen
      hholds.keyNum_append
    have hcut : Holds geo n ((l₁ ++ [(k, c)]) ++ l₂) := by simpa using hholds
    obtain ⟨seen', hrest, hvisited'⟩ := forEachLoop_visited body sub hload (l₁ ++ [(k, c)]) l₂ (d := d) seen₁ hcut
      (by rw [List.length_append, List.length_singleton]; omega)
      fun e he => hbody e (List.mem_cons_of_mem _ he)
    rw [List.length_append, List.length_singleton] at hrest
    refine ⟨seen', ?_, hvisited.trans hvisited'⟩
    rw [forEachLoop, hload, ok_bind]
    simp only [if_neg hne]
    rw [hholds.bval_append]
    simp only [hrun, ok_bind]
    exact hrest

theorem Tree.cbtreeForEach_visited (h : Tree geo m r 1 s G) : ∀ {d : Nat} {p : Ptr w} (seen : Visits w),
    (G p).lvl = d + 1 → ∃ seen', cbtreeForEach geo false d p seen s = .ok (seen', s) ∧
      Visited geo (entriesBelow geo s (d + 1) p) seen seen' := by
  intro d
  induction d with
  | zero =>
    intro p seen hp
    obtain ⟨n, -, hload, hholds⟩ := h.load (p := p) (by omega)
    obtain ⟨seen', hrun, hvisited⟩ := forEachLoop_visited
      (fun child key seen s => .ok (⟨seen.calls ++ [⟨child, key, seen.count⟩], seen.count + 1⟩, s))
      (fun e => [e]) hload [] (G p).page seen hholds (Nat.zero_add _) fun e _ key seen hkey => ⟨_, rfl, by
        have hone := Visited.one geo e.2 key seen
        rwa [hkey] at hone⟩
    refine ⟨seen', ?_, ?_⟩
    · rw [cbtreeForEach]
      simp only [List.length_nil] at hrun
      rw [hrun]
      rfl
    · rwa [entriesBelow, h.page_eq (by omega), ← List.flatMap_singleton' (G p).page]
  | succ d ih =>
    intro p seen hp
    obtain ⟨n, -, hload, hholds⟩ := h.load (p := p) (by omega)
    obtain ⟨seen', hrun, hvisited⟩ := forEachLoop_visited
      (fun child _ => cbtreeForEach geo false d child) (fun e => entriesBelow geo s (d + 1) e.2) hload []
      (G p).page seen hholds (Nat.zero_add _) fun e he _ seen _ => ih seen (by
        have := (h.child_of_mem (k := e.1) (c := e.2) (by omega) (by omega) he).1
        omega)
    refine ⟨seen', ?_, by rwa [entriesBelow, h.page_eq (by omega)]⟩
    rw [cbtreeForEach]
    simp only [List.length_nil] at hrun
    rw [hrun]
    rfl

theorem Tree.cbtreeVisitor_visited (h : Tree geo m r 1 s G) :
    ∃ seen, cbtreeVisitor geo s = .ok (seen, s) ∧ Visited geo (entries geo s) ⟨[], 0⟩ seen := by
  unfold cbtreeVisitor
  by_cases hh : s.height = 0
  · rw [if_neg (not_not.mpr (h.empty hh)), entries, hh]
    exact ⟨_, rfl, .refl geo _⟩
  · have hroot := h.root_lvl (by omega)
    rw [if_pos (h.ne_null (by omega))]
    obtain ⟨seen, hrun, hvisited⟩ := h.cbtreeForEach_visited (d := s.height - 1) (p := s.node) ⟨[], 0⟩ (by omega)
    rw [show s.height - 1 + 1 = s.height by omega] at hvisited
    exact ⟨seen, hrun, hvisited⟩

/-! ## cbtree_last -/

theorem Tree.cbtreeLastLoop_leaf (h : Tree geo m r 1 s G) (hm : 1 ≤ m) (hr : 1 ≤ r) :
    ∀ {d : Nat} {p : Ptr w}, (G p).lvl = d + 1 →
    ∃ q B, cbtreeLastLoop geo d p s = .ok q ∧ (G q).lvl = 1 ∧
      entriesBelow geo s (d + 1) p = (G q).page ++ B ∧ ((G q).page = [] → B = []) := by
  intro d
  induction d with
  | zero =>
    intro p hp
    exact ⟨p, [], rfl, hp, by rw [entriesBelow, h.page_eq (by omega), List.append_nil], fun _ => rfl⟩
  | succ d ih =>
    intro p hp
    obtain ⟨n, -, hload, hholds⟩ := h.load (p := p) (by omega)
    obtain ⟨⟨k, c⟩, l, hpage⟩ := List.exists_cons_of_ne_nil (h.inner_page_ne_nil hm hr (by omega)
      (by omega : 2 ≤ (G p).lvl))
    have hcut : Holds geo n ([] ++ (k, c) :: l) := hpage ▸ hholds
    have hfirst : bval geo n 0 = c := hcut.bval_append
    have hclvl := (h.child_of_mem (p := p) (k := k) (c := c) (by omega) (by omega) (by rw [hpage]; simp)).1
    obtain ⟨q, B, hrun, hq, hB, -⟩ := ih (p := c) (by omega)
    have hlt := h.lvl_le p
    have hfill := h.fill q (by omega) (h.ne_root (by omega))
    refine ⟨q, B ++ l.flatMap fun e => entriesBelow geo s (d + 1) e.2, ?_, hq, ?_, fun hnil => ?_⟩
    · rw [cbtreeLastLoop, hload, ok_bind, hfirst]
      exact hrun
    · rw [entriesBelow, h.page_eq (by omega), hpage, List.flatMap_cons, hB, List.append_assoc]
    · rw [hnil, List.length_nil] at hfill
      omega

/-- `cbtree_last` finds the greatest entry, or `NULL` in a tree without entries: then it has copied the
words of a cleared slot, unless there is no node. -/
theorem Tree.cbtreeLast_entry (hN : 1 ≤ geo.noPairs) (h : Tree geo m r 1 s G) (hm : 1 ≤ m) (hr : 1 ≤ r)
    (key : Words w) :
    ∃ v key', cbtreeLast geo key s = .ok (v, key') ∧
      (v = 0#w ∧ entries geo s = [] ∧
          key' = (if s.height = 0 then key else longcpy key 0 (fun _ => 0#w) geo.keylen) ∨
        ∃ B, entries geo s = (keyNum geo key', v) :: B) := by
  unfold cbtreeLast
  by_cases hh : s.height = 0
  · rw [if_pos hh]
    exact ⟨_, _, rfl, .inl ⟨rfl, by rw [entries, hh, entriesBelow], (if_pos hh).symm⟩⟩
  · have hroot := h.root_lvl (by omega)
    obtain ⟨q, B, hrun, hq, hB, hnil⟩ := h.cbtreeLastLoop_leaf hm hr (d := s.height - 1) (p := s.node) (by omega)
    rw [show s.height - 1 + 1 = s.height by omega] at hB
    obtain ⟨n, -, hload, hholds⟩ := h.load (p := q) (by omega)
    rw [if_neg hh, hrun, ok_bind, hload, ok_bind]
    refine ⟨_, _, rfl, ?_⟩
    rw [keyNum_longcpy, entries, hB]
    cases hpage : (G q).page with
    | nil =>
      rw [hpage] at hholds
      -- an empty first leaf is an empty tree; its slot 0 holds zeros
      obtain rfl := hnil hpage
      have hslot := hholds.slot_end (Nat.le_refl 0) (by omega)
      have hzero : ∀ j < geo.keylen, bkey geo n 0 j = 0#w := keyNum_eq_zero.mp (congrArg Prod.fst hslot)
      exact .inl ⟨congrArg Prod.snd hslot, rfl, (longcpy_congr hzero).trans (if_neg hh).symm⟩
    | cons e l =>
      obtain ⟨k, c⟩ := e
      -- slot 0 of the first leaf is the greatest entry
      have hcut : Holds geo n ([] ++ (k, c) :: l) := hpage ▸ hholds
      have hkey : keyNum geo (bkey geo n 0) = k := hcut.keyNum_append
      have hval : bval geo n 0 = c := hcut.bval_append
      rw [hkey, hval]
      exact .inr ⟨l ++ B, rfl⟩

/-- What the comment of `cbtree_last` says. -/
def LastRight (geo : Geo) (key : Words w) (s : State w) : Prop :=
  ∃ v key', cbtreeLast geo key s = .ok (v, key') ∧
    (entries geo s ≠ [] → (keyNum geo key', v) ∈ entries geo s ∧ ∀ e ∈ entries geo s, e.1 ≤ keyNum geo key') ∧
    (entries geo s = [] → v = 0#w ∧ key' = key)

/-- `cbtree_last` does what its comment says except in a tree whose entries have all been removed: there it
sets the key to zero. -/
theorem cbtreeLast_iff (hN : 4 ≤ geo.noPairs) (h₀ : Blank s₀) (h : Run geo InsertsRemoves s₀ s)
    (key : Words w) :
    LastRight geo key s ↔ entries geo s ≠ [] ∨ s.height = 0 ∨ ∀ j < geo.keylen, key j = 0#w := by
  obtain ⟨G, R, hwarm⟩ := warm_of_inserts_removes hN h₀ h
  obtain ⟨v, key', hrun, hcase⟩ := hwarm.tree.cbtreeLast_entry (by omega) le_rfl le_rfl key
  rcases hcase with ⟨rfl, hnil, hkey⟩ | ⟨B, hB⟩
  · -- the key is written over unless the root is NULL; zeros over zeros go unseen
    have hsame : key' = key ↔ s.height = 0 ∨ ∀ j < geo.keylen, key j = 0#w := by
      by_cases hh : s.height = 0
      · simp [hkey, hh]
      · rw [hkey, if_neg hh]
        simp only [hh, false_or]
        constructor
        · intro heq j hj
          have := congrFun heq j
          rwa [longcpy_apply, if_pos (by omega), eq_comm] at this
        · intro hzero
          have hself : longcpy key 0 key geo.keylen = key := by
            funext j
            rw [longcpy_apply]
            split <;> simp
          exact (longcpy_congr fun j hj => (hzero j hj).symm).trans hself
    constructor
    · rintro ⟨v, key₂, hrun₂, -, hnone⟩
      have heq : (0#w, key') = (v, key₂) := Except.ok.inj (hrun.symm.trans hrun₂)
      obtain ⟨-, rfl⟩ := Prod.mk.inj heq
      exact .inr (hsame.mp (hnone hnil).2)
    · rintro (hne | hcond)
      · exact absurd hnil hne
      · exact ⟨0#w, key', hrun, fun hne => absurd hnil hne, fun _ => ⟨rfl, hsame.mpr hcond⟩⟩
  · have hne : entries geo s ≠ [] := hB ▸ List.cons_ne_nil _ _
    have hdesc := hwarm.tree.entries_descending
    rw [hB] at hdesc
    refine ⟨fun _ => .inl hne, fun _ => ⟨v, key', hrun, fun _ => ⟨hB ▸ List.mem_cons_self, fun e he => ?_⟩,
      fun hnil => absurd hnil hne⟩⟩
    rw [hB] at he
    cases List.mem_cons.mp he with
    | inl hhead => rw [hhead]
    | inr htail => exact ((List.pairwise_cons.mp hdesc).1 e htail).le

/-- A key is stored and removed again. -/
def removedAgain : State 64 :=
  Cmd.execAll Machine.x86_64.cbtree_geo64 InsertsRemoves [.insert (wordKey 5) 0x77#64, .remove (wordKey 5)]
    (arena 1)

theorem removedAgain_run : Run Machine.x86_64.cbtree_geo64 InsertsRemoves (arena 1) removedAgain :=
  Cmd.run_execAll _ _ _ _

theorem cbtreeLast_iff_stored : LastRight Machine.x86_64.cbtree_geo64 (wordKey 7) afterOne :=
  (cbtreeLast_iff (by decide) (arena_blank 1) afterOne_run (wordKey 7)).mpr (.inl (by decide +kernel))

/-- In the emptied tree key 7 becomes key 0. -/
theorem cbtreeLast_changes_key :
    ¬∀ s, Run Machine.x86_64.cbtree_geo64 InsertsRemoves (arena 1) s → ∀ key,
      LastRight Machine.x86_64.cbtree_geo64 key s := by
  intro hclaim
  obtain ⟨v, key', hrun, -, hnone⟩ := hclaim removedAgain removedAgain_run (wordKey 7)
  obtain ⟨-, rfl⟩ := hnone (by decide +kernel)
  have hzero : (cbtreeLast Machine.x86_64.cbtree_geo64 (wordKey 7) removedAgain).map (fun r => r.2 0) =
      .ok 0#64 := by
    decide +kernel
  rw [hrun] at hzero
  cases hzero

/-! ## cbtree_for_each_safe -/

/-- `cbtree_get_prev` leads from an entry to the next one of the list. -/
theorem Tree.getPrev_next (h : Tree geo m r 1 s G) (hm : 1 ≤ m) (hr : 1 ≤ r)
    (hzero : zeroSeparator geo s = false) {A B : Page w} (hes : entries geo s = A ++ (keyNum geo key, v) :: B) :
    ∃ v' key', cbtreeGetPrev geo key s = .ok (v', key') ∧
      (v' = 0#w ∧ B = [] ∨ ∃ B', B = (keyNum geo key', v') :: B') := by
  have hprev : IsPrev geo s key (cbtreeGetPrev geo key s) :=
    (h.getPrev_isPrev_iff key hm hr).mpr (by simp [wrapsAround, hzero])
  have hdesc := h.entries_descending
  rw [hes] at hdesc
  have hbelow : ∀ e ∈ B, e.1 < keyNum geo key := fun e he => (List.pairwise_cons.mp hdesc.of_append.2.1).1 e he
  rcases hprev with ⟨v', key', hrun, hmem, hlt, hgreatest⟩ | ⟨hnone, hrun⟩
  · refine ⟨v', key', hrun, .inr ?_⟩
    -- the predecessor is behind the key, so it is the first one there
    have hmemB : (keyNum geo key', v') ∈ B := by
      rw [hes] at hmem
      cases List.mem_append.mp hmem with
      | inl hin =>
        have := hdesc.of_append.2.2 _ hin (keyNum geo key, v) (by simp)
        simp only at this
        omega
      | inr hin =>
        cases List.mem_cons.mp hin with
        | inl heq =>
          have := congrArg Prod.fst heq
          simp only at this
          omega
        | inr hin =>
          exact hin
    cases B with
    | nil => cases hmemB
    | cons e B =>
      cases List.mem_cons.mp hmemB with
      | inl heq =>
        exact ⟨B, by rw [heq]⟩
      | inr hin =>
        have hfirst := (List.pairwise_cons.mp (List.pairwise_cons.mp hdesc.of_append.2.1).2).1 _ hin
        have := hgreatest e (by rw [hes]; simp) (hbelow e (by simp))
        simp only at hfirst
        omega
  · refine ⟨0#w, key, hrun, .inl ⟨rfl, ?_⟩⟩
    cases B with
    | nil => rfl
    | cons e B =>
      have := hnone e (by rw [hes]; simp)
      have := hbelow e (by simp)
      omega

theorem Tree.forEachSafeLoop_entries (h : Tree geo m r 1 s G) (hm : 1 ≤ m) (hr : 1 ≤ r)
    (hzero : zeroSeparator geo s = false) : ∀ (B A : Page w) (fuel : Nat) (v : Ptr w) (key : Words w),
    entries geo s = A ++ (keyNum geo key, v) :: B → keyNum geo key + 1 < fuel →
    ∃ walk, forEachSafeLoop geo s fuel v key = .ok walk ∧
      walk.map (fun e => (keyNum geo e.1, e.2)) = (keyNum geo key, v) :: B
  | B, A, 0, v, key, _, hfuel => by omega
  | B, A, fuel + 1, v, key, hes, hfuel => by
    have hne : v ≠ 0#w := h.entry_ne_null (e := (keyNum geo key, v)) (by rw [hes]; simp)
    obtain ⟨v', key', hrun, hnext⟩ := h.getPrev_next hm hr hzero hes
    rw [forEachSafeLoop, if_neg hne, hrun, ok_bind]
    rcases hnext with ⟨rfl, rfl⟩ | ⟨B', rfl⟩
    · obtain ⟨fuel, rfl⟩ : ∃ f, fuel = f + 1 := ⟨fuel - 1, by omega⟩
      exact ⟨[(key, v)], by simp [forEachSafeLoop, ok_bind], rfl⟩
    · have hdesc := h.entries_descending
      rw [hes] at hdesc
      have hlt := (List.pairwise_cons.mp hdesc.of_append.2.1).1 (keyNum geo key', v') (by simp)
      simp only at hlt
      obtain ⟨walk, hwalk, hmap⟩ := h.forEachSafeLoop_entries hm hr hzero B' (A ++ [(keyNum geo key, v)]) fuel
        v' key' (by rw [hes]; simp) (by omega)
      exact ⟨(key, v) :: walk, by simp only [hwalk, ok_bind], by rw [List.map_cons, hmap]⟩
termination_by B => B.length

theorem Tree.cbtreeForEachSafe_entries (hN : 1 ≤ geo.noPairs) (h : Tree geo m r 1 s G) (hm : 1 ≤ m) (hr : 1 ≤ r)
    (hzero : zeroSeparator geo s = false) (key : Words w) :
    ∃ walk, cbtreeForEachSafe geo key s = .ok walk ∧
      walk.map (fun e => (keyNum geo e.1, e.2)) = entries geo s := by
  obtain ⟨v, key', hlast, hentries⟩ := h.cbtreeLast_entry hN hm hr key
  rw [cbtreeForEachSafe, hlast, ok_bind]
  rcases hentries with ⟨rfl, hnil, -⟩ | ⟨B, hB⟩
  · exact ⟨[], by simp [forEachSafeLoop], hnil.symm⟩
  · have hbound : geo.keyBound w = 2 ^ (w * geo.keylen) := (pow_mul 2 w geo.keylen).symm
    have hlt := keyNum_lt geo key'
    obtain ⟨walk, hwalk, hmap⟩ := h.forEachSafeLoop_entries hm hr hzero B []
      (2 ^ (w * geo.keylen) + 1) v key' hB (by omega)
    exact ⟨walk, hwalk, hmap.trans hB.symm⟩

/-! ## Trees of keys that are not 0 -/

/-- Insertions of keys other than 0 that are not stored. -/
def InsertsNonzero (geo : Geo) (c : Cmd w) (s : State w) : Prop :=
  InsertsNew geo c s ∧ match c with
    | .insert key _ => keyNum geo key ≠ 0
    | _ => False

instance decidableInsertsNonzero (geo : Geo) : ∀ (c : Cmd w) (s : State w), Decidable (InsertsNonzero geo c s)
  | .insert key val, s =>
    inferInstanceAs (Decidable (InsertsNew geo (.insert key val) s ∧ keyNum geo key ≠ 0))
  | .lookup _, _ | .update _ _, _ | .remove _, _ => isFalse fun h => h.2

/-- Neither a separator nor a stored key is 0. -/
theorem positive_of_inserts (hN : 4 ≤ geo.noPairs) (h₀ : Fresh s₀) (h : Run geo (InsertsNonzero geo) s₀ s) :
    ∃ G, Tree geo (geo.noPairs / 2) 2 1 s G ∧ G.Positive := by
  refine h.keeps (I := fun s => ∃ G, Tree geo (geo.noPairs / 2) 2 1 s G ∧ G.Positive) ?_
    ⟨Labels.none, h₀.tree, fun x hx => by simp [Labels.none] at hx⟩
  rintro c s s' hallowed hrun ⟨G, htree, hpos⟩
  cases c with
  | insert key val =>
    obtain ⟨⟨hval, habsent⟩, hkey⟩ := hallowed
    have hkey : 0 < keyNum geo key := Nat.pos_of_ne_zero hkey
    obtain ⟨err, hrun⟩ := map_eq_ok.mp hrun
    rcases cbtreeInsert_new hN (by omega) le_rfl (by omega) le_rfl htree hval (htree.absent.mp habsent) with
      hnull | ⟨s₁, G₁, hfail, hrefused⟩ | ⟨s₁, G₁, leaf, hok, -, hins⟩
    · rw [hnull] at hrun
      cases hrun
    · rw [hfail] at hrun
      cases hrun
      exact ⟨G₁, hrefused.tree, hpos.lowered hrefused.lowered hkey⟩
    · rw [hok] at hrun
      cases hrun
      exact ⟨G₁, hins.tree, hins.positive hkey hpos⟩
  | lookup _ => exact hallowed.2.elim
  | update _ _ => exact hallowed.2.elim
  | remove _ => exact hallowed.2.elim

/-- In every tree built by insertions of keys other than 0, some of which may have failed, the loop of
`cbtree_for_each_safe` ends, and it goes through the entries that `cbtree_visitor` hands on: all that are
stored, each once, in descending order and counted from 0. -/
theorem cbtreeForEachSafe_eq_visitor (hN : 4 ≤ geo.noPairs) (h₀ : Fresh s₀)
    (h : Run geo (InsertsNonzero geo) s₀ s) (key : Words w) :
    ∃ walk seen, cbtreeForEachSafe geo key s = .ok walk ∧ cbtreeVisitor geo s = .ok (seen, s) ∧
      walk.map (fun e => (keyNum geo e.1, e.2)) = seen.calls.map (fun c => (keyNum geo c.key, c.elem)) ∧
      seen.calls.map (fun c => (keyNum geo c.key, c.elem)) = entries geo s ∧ Descending (entries geo s) ∧
      seen.calls.map Visit.index = List.range seen.count ∧ seen.count = (entries geo s).length := by
  obtain ⟨G, htree, hpos⟩ := positive_of_inserts hN h₀ h
  -- no separator is 0 where no key is
  have hzero : zeroSeparator geo s = false := by
    rw [← Bool.not_eq_true]
    intro hsep
    simp only [zeroSeparator, Bool.and_eq_true, decide_eq_true_eq, List.any_eq_true] at hsep
    obtain ⟨hh, e, he, hkey⟩ := hsep
    have hroot := htree.root_lvl (by omega)
    rw [htree.page_eq (by omega)] at he
    have := hpos s.node (by omega) e he
    omega
  obtain ⟨walk, hwalk, hmap⟩ := htree.cbtreeForEachSafe_entries (by omega) (by omega) (by omega) hzero key
  obtain ⟨seen, hvisitor, hvisited⟩ := htree.cbtreeVisitor_visited
  obtain ⟨new, hcalls, hes, hindex⟩ := hvisited.calls
  have hcount := hvisited.count
  simp only [List.nil_append, Nat.zero_add] at hcalls hcount hindex
  rw [← hcalls] at hes hindex
  refine ⟨walk, seen, hwalk, hvisitor, hmap.trans hes.symm, hes, htree.entries_descending, ?_, hcount⟩
  rw [hindex, hcount, List.range_eq_range']

def eightNonzero : State 64 :=
  Cmd.execAll Machine.x86_64.cbtree_geo64 (InsertsNonzero Machine.x86_64.cbtree_geo64) eightInserts (arena 4)

theorem eightNonzero_run : Run Machine.x86_64.cbtree_geo64 (InsertsNonzero Machine.x86_64.cbtree_geo64)
    (arena 4) eightNonzero := Cmd.run_execAll _ _ eightInserts (arena 4)

theorem cbtreeForEachSafe_eq_visitor_eight : ∃ walk seen,
    cbtreeForEachSafe Machine.x86_64.cbtree_geo64 (wordKey 0) eightNonzero = .ok walk ∧
    cbtreeVisitor Machine.x86_64.cbtree_geo64 eightNonzero = .ok (seen, eightNonzero) ∧ seen.count = 8 ∧
    walk.map (fun e => (keyNum Machine.x86_64.cbtree_geo64 e.1, e.2)) =
      entries Machine.x86_64.cbtree_geo64 eightNonzero := by
  obtain ⟨walk, seen, hwalk, hvisitor, hsame, hentries, -, -, hcount⟩ := cbtreeForEachSafe_eq_visitor
    (by decide) (arena_blank 4).fresh eightNonzero_run (wordKey 0)
  refine ⟨walk, seen, hwalk, hvisitor, ?_, hsame.trans hentries⟩
  rw [hcount]
  decide +kernel

end CachedBTree
