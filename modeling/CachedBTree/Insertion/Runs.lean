import CachedBTree.Contents
import CachedBTree.Insertion.Soundness
import CachedBTree.Layout
import CachedBTree.Model.Calls

/-! # Trees built by insertions

Every tree that calls of `cbtree_insert` with new keys lead to, from an empty head and
whichever allocations fail, is a B+tree; a further call stops at a duplicate exactly
when the key is stored and else adds one entry. -/

namespace CachedBTree

variable {w : Nat} {geo : Geo} {s s' s₀ : State w}

/-- No entry has the key. -/
def Absent (geo : Geo) (s : State w) (key : Words w) : Prop :=
  ∀ e ∈ entries geo s, e.1 ≠ keyNum geo key

instance decidableAbsent (geo : Geo) (s : State w) (key : Words w) : Decidable (Absent geo s key) :=
  inferInstanceAs (Decidable (∀ e ∈ entries geo s, e.1 ≠ keyNum geo key))

/-- Insertions of keys not yet stored. -/
def InsertsNew (geo : Geo) : Cmd w → State w → Prop
  | .insert key val, s => val ≠ 0#w ∧ Absent geo s key
  | _, _ => False

instance decidableInsertsNew (geo : Geo) : ∀ (c : Cmd w) (s : State w), Decidable (InsertsNew geo c s)
  | .insert key val, s => inferInstanceAs (Decidable (val ≠ 0#w ∧ Absent geo s key))
  | .lookup _, _ | .update _ _, _ | .remove _, _ => isFalse id

/-- What every node is labelled with when there is no tree. -/
def Labels.none : Labels w := fun _ => ⟨0, 0, 0, 0#w, []⟩

theorem Fresh.tree {m r : Nat} (h : Fresh s) : Tree geo m r 1 s Labels.none where
  null := rfl
  lvl_le _ := Nat.zero_le _
  stored p hp := by simp [Labels.none] at hp
  parent p hp := by simp [Labels.none] at hp
  root_lvl hh := by have := h.2; omega
  root_hi hh := by have := h.2; omega
  root_fill hh := by have := h.2; omega
  empty _ := h.1
  chain p hp := by simp [Labels.none] at hp
  fill p hp := by simp [Labels.none] at hp

/-- A key is absent when no leaf has it. -/
theorem Tree.absent {m r : Nat} {G : Labels w} {key : Words w} (h : Tree geo m r 1 s G) :
    Absent geo s key ↔ ∀ c, ¬PairAt G 1 (keyNum geo key, c) := by
  constructor
  · exact fun habsent c hc => habsent _ (h.mem_entries.mpr hc) rfl
  · intro hnone e he heq
    apply hnone e.2
    rw [← heq]
    exact h.mem_entries.mp he

/-- A failure leaves the entries as they were. -/
theorem Refused.entries {m r : Nat} {G G' : Labels w} {key : Words w} (h : Refused geo m r s s' G G' key)
    (hT : Tree geo m r 1 s G) : entries geo s' = entries geo s := by
  refine h.tree.entries_descending.ext hT.entries_descending fun e => ?_
  rw [h.tree.mem_entries, hT.mem_entries]
  constructor
  · rintro ⟨x, hx, he⟩
    rw [h.lowered.lvl] at hx
    exact ⟨x, hx, by rwa [h.lowered.page_leaf (by omega)] at he⟩
  · rintro ⟨x, hx, he⟩
    exact ⟨x, (h.lowered.lvl x).trans hx, by rwa [h.lowered.page_leaf (by omega)]⟩

/-- A success adds one entry. -/
theorem Inserted.entries {m r : Nat} {G G' : Labels w} {key : Words w} {leaf val : Ptr w}
    (h : Inserted geo m r s s' G G' leaf key val) (hT : Tree geo m r 1 s G) (habsent : Absent geo s key) :
    (entries geo s').Perm ((keyNum geo key, val) :: entries geo s) := by
  have hnew : (keyNum geo key, val) ∉ CachedBTree.entries geo s := fun hmem => habsent _ hmem rfl
  refine (List.perm_ext_iff_of_nodup h.tree.entries_descending.nodup
    (List.nodup_cons.mpr ⟨hnew, hT.entries_descending.nodup⟩)).mpr fun e => ?_
  rw [h.tree.mem_entries, List.mem_cons, hT.mem_entries]
  exact (h.pairs e).trans or_comm

/-- The invariant of the runs, and how one more call ends. -/
theorem Tree.insert_returns {m r : Nat} {G : Labels w} {key : Words w} {val : Ptr w}
    (hN : 4 ≤ geo.noPairs) (hm : 1 ≤ m) (hm' : m ≤ geo.noPairs / 2) (hr : 1 ≤ r) (hr' : r ≤ 2)
    (h : Tree geo m r 1 s G) (hval : val ≠ 0#w) (habsent : Absent geo s key) :
    cbtreeInsert geo key val s = .error .nullDeref ∨
    (∃ s' G', cbtreeInsert geo key val s = .ok (-ENOMEM, s') ∧ Tree geo m r 1 s' G' ∧
      entries geo s' = entries geo s) ∨
    ∃ s' G', cbtreeInsert geo key val s = .ok (0, s') ∧ Tree geo m r 1 s' G' ∧
      (entries geo s').Perm ((keyNum geo key, val) :: entries geo s) := by
  rcases cbtreeInsert_new hN hm hm' hr hr' h hval (h.absent.mp habsent) with
    hnull | ⟨s', G', hfail, hrefused⟩ | ⟨s', G', leaf, hrun, -, hins⟩
  · exact .inl hnull
  · exact .inr (.inl ⟨s', G', hfail, hrefused.tree, hrefused.entries h⟩)
  · exact .inr (.inr ⟨s', G', hrun, hins.tree, hins.entries h habsent⟩)

theorem tree_of_inserts (hN : 4 ≤ geo.noPairs) (h₀ : Fresh s₀)
    (h : Run geo (InsertsNew geo) s₀ s) : ∃ G, Tree geo (geo.noPairs / 2) 2 1 s G := by
  refine h.keeps (I := fun s => ∃ G, Tree geo (geo.noPairs / 2) 2 1 s G) (fun c s s' hc hrun hs => ?_)
    ⟨_, h₀.tree⟩
  obtain ⟨G, hG⟩ := hs
  cases c with
  | insert key val =>
    obtain ⟨hval, habsent⟩ := hc
    obtain ⟨err, hrun⟩ := map_eq_ok.mp hrun
    rcases hG.insert_returns hN (by omega) le_rfl (by omega) le_rfl hval habsent with
      hnull | ⟨s', G', hfail, htree, -⟩ | ⟨s', G', hok, htree, -⟩
    · rw [hnull] at hrun
      cases hrun
    · rw [hfail] at hrun
      cases hrun
      exact ⟨G', htree⟩
    · rw [hok] at hrun
      cases hrun
      exact ⟨G', htree⟩
  | lookup | update | remove => exact hc.elim

/-- After every call the tree is a B+tree whose nodes are at least half full, and the next call
returns, unless a `kmalloc` of a queue fails. -/
theorem btreeInv_of_inserts (hN : 4 ≤ geo.noPairs) (h₀ : Fresh s₀)
    (h : Run geo (InsertsNew geo) s₀ s) :
    BTreeInv geo (geo.noPairs / 2) 2 s ∧
    ∀ key val, val ≠ 0#w → Absent geo s key → cbtreeInsert geo key val s = .error .nullDeref ∨
      ∃ err s', cbtreeInsert geo key val s = .ok (err, s') ∧ (err = 0 ∨ err = -ENOMEM) := by
  obtain ⟨G, hG⟩ := tree_of_inserts hN h₀ h
  refine ⟨hG.btreeInv, fun key val hval habsent => ?_⟩
  rcases hG.insert_returns hN (by omega) le_rfl (by omega) le_rfl hval habsent with
    hnull | ⟨s', -, hfail, -⟩ | ⟨s', -, hok, -⟩
  · exact .inl hnull
  · exact .inr ⟨_, s', hfail, .inr rfl⟩
  · exact .inr ⟨_, s', hok, .inl rfl⟩

/-- Eight keys in ascending order, one more than a leaf holds. -/
def eightInserts : List (Cmd 64) := (List.range 8).map fun i => .insert (wordKey (i + 1)) 0x77#64

def afterEight : State 64 :=
  Cmd.execAll Machine.x86_64.cbtree_geo64 (InsertsNew Machine.x86_64.cbtree_geo64) eightInserts (arena 4)

theorem afterEight_run : Run Machine.x86_64.cbtree_geo64 (InsertsNew Machine.x86_64.cbtree_geo64)
    (arena 4) afterEight := Cmd.run_execAll _ _ eightInserts (arena 4)

theorem btreeInv_of_eight_inserts :
    (nodes Machine.x86_64.cbtree_geo64 afterEight).map Prod.fst = [2, 1, 1] ∧
    BTreeInv Machine.x86_64.cbtree_geo64 (Machine.x86_64.cbtree_geo64.noPairs / 2) 2 afterEight :=
  ⟨by decide +kernel,
    (btreeInv_of_inserts (by decide) (arena_blank 4).fresh afterEight_run).1⟩

/-- The duplicate check is exact, and an insertion adds its entry to the others. -/
theorem cbtreeInsert_exact (hN : 4 ≤ geo.noPairs) (h₀ : Fresh s₀)
    (h : Run geo (InsertsNew geo) s₀ s) (key : Words w) {val : Ptr w} (hval : val ≠ 0#w) :
    (cbtreeInsert geo key val s = .error (.bug .insertDup) ↔
      ∃ e ∈ entries geo s, e.1 = keyNum geo key) ∧
    (Absent geo s key → ∀ s', cbtreeInsert geo key val s = .ok (0, s') →
      (entries geo s').Perm ((keyNum geo key, val) :: entries geo s)) := by
  obtain ⟨G, hG⟩ := tree_of_inserts hN h₀ h
  refine ⟨⟨fun hdup => ?_, ?_⟩, fun habsent s' hrun => ?_⟩
  · by_contra hnone
    have habsent : Absent geo s key := fun e he heq => hnone ⟨e, he, heq⟩
    rcases hG.insert_returns hN (by omega) le_rfl (by omega) le_rfl hval habsent with
      hnull | ⟨s', -, hfail, -⟩ | ⟨s', -, hok, -⟩ <;> simp_all
  · rintro ⟨e, he, heq⟩
    apply cbtreeInsert_dup (c := e.2) hG hval
    rw [← heq]
    exact hG.mem_entries.mp he
  · rcases hG.insert_returns hN (by omega) le_rfl (by omega) le_rfl hval habsent with
      hnull | ⟨s₁, -, hfail, -⟩ | ⟨s₁, -, hok, -, hperm⟩
    · rw [hnull] at hrun
      cases hrun
    · rw [hfail] at hrun
      cases hrun
    · rw [hok] at hrun
      cases hrun
      exact hperm

theorem cbtreeInsert_exact_after_eight :
    cbtreeInsert Machine.x86_64.cbtree_geo64 (wordKey 3) 0x78#64 afterEight = .error (.bug .insertDup) ∧
    (entries Machine.x86_64.cbtree_geo64
      (afterEight.after (cbtreeInsert Machine.x86_64.cbtree_geo64 (wordKey 9) 0x78#64 afterEight))).Perm
      ((9, 0x78#64) :: entries Machine.x86_64.cbtree_geo64 afterEight) := by
  have hexact := fun key => cbtreeInsert_exact (by decide) (arena_blank 4).fresh afterEight_run key
    (by decide : 0x78#64 ≠ 0#64)
  exact ⟨(hexact (wordKey 3)).1.mpr ⟨(3, 0x77#64), by decide +kernel, by decide +kernel⟩,
    (hexact (wordKey 9)).2 (of_decide_eq_true (by decide +kernel)) _
      (returned_eq_some.mp (by decide +kernel))⟩

end CachedBTree
