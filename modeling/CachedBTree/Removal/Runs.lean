import CachedBTree.Insertion.Runs
import CachedBTree.Removal.Soundness

/-! # Trees under insertions and removals

The history of the calls says which entries a tree should hold: an insertion adds one,
a removal takes one away.  With a release of memory that leaves the tree alone, the
leaves hold exactly these entries along every run that never empties the tree, and no
check of the source stops a call. -/

namespace CachedBTree

open CachedBTree.Support

variable {w : Nat} {geo : Geo} {s s' s₀ : State w} {rec : Reclaim w} {es : Page w}

/-- Calls that return, insertions of absent keys with 0, removals of stored keys that are not the
last.  `es` is what the calls should leave in the tree. -/
inductive History (geo : Geo) (rec : Reclaim w) (s₀ : State w) : State w → Page w → Prop
  | start : History geo rec s₀ s₀ []
  | insert {s s' : State w} {es : Page w} (key : Words w) (val : Ptr w)
    (h : History geo rec s₀ s es) (hval : val ≠ 0#w)
    (habsent : ∀ e ∈ es, e.1 ≠ keyNum geo key) (hrun : cbtreeInsert geo key val s = .ok (0, s')) :
    History geo rec s₀ s' ((keyNum geo key, val) :: es)
  | remove {s s' : State w} {es : Page w} (key : Words w) (val ret : Ptr w)
    (h : History geo rec s₀ s es)
    (hstored : (keyNum geo key, val) ∈ es) (hleft : es.erase (keyNum geo key, val) ≠ [])
    (hrun : cbtreeRemove geo rec key s = .ok (ret, s')) :
    History geo rec s₀ s' (es.erase (keyNum geo key, val))

/-- Nothing is stored before the first call only. -/
theorem History.eq_start (h : History geo rec s₀ s es) (hes : es = []) : s = s₀ := by
  cases h with
  | start => rfl
  | insert => cases hes
  | remove _ _ _ _ _ hleft _ => exact absurd hes hleft

theorem Tree.remove_returns {G : Labels w} {key : Words w} {val : Ptr w} (hrec : rec.Releases geo)
    (hN : 4 ≤ geo.noPairs) (h : Tree geo 1 1 1 s G) (hes : (entries geo s).Perm es)
    (hstored : (keyNum geo key, val) ∈ es) (hleft : es.erase (keyNum geo key, val) ≠ []) :
    ∃ s' G', cbtreeRemove geo rec key s = .ok (val, s') ∧ Tree geo 1 1 1 s' G' ∧
      (entries geo s').Perm (es.erase (keyNum geo key, val)) := by
  have hnodup := h.entries_descending.nodup
  have hmem : ∀ e, PairAt G 1 e ↔ e ∈ es := fun e => h.mem_entries.symm.trans hes.mem_iff
  have hother : ∃ e, PairAt G 1 e ∧ e ≠ (keyNum geo key, val) := by
    obtain ⟨e, l, hel⟩ := List.exists_cons_of_ne_nil hleft
    have he : e ∈ es.erase (keyNum geo key, val) := by rw [hel]; simp
    rw [(hes.nodup_iff.mp hnodup).mem_erase_iff] at he
    exact ⟨e, (hmem e).mpr he.2, he.1⟩
  obtain ⟨s', G', hrun, htree, hpairs⟩ :=
    cbtreeRemove_stored hrec (by omega) h ((hmem _).mpr hstored) hother
  refine ⟨s', G', hrun, htree, List.Perm.trans ?_ (hes.erase _)⟩
  refine (List.perm_ext_iff_of_nodup htree.entries_descending.nodup (hnodup.erase _)).mpr fun e => ?_
  rw [hnodup.mem_erase_iff, htree.mem_entries, h.mem_entries, and_comm]
  exact hpairs e

theorem History.tree (hrec : rec.Releases geo) (hN : 4 ≤ geo.noPairs) (h₀ : Fresh s₀)
    (h : History geo rec s₀ s es) :
    (∃ G, Tree geo 1 1 1 s G) ∧ (entries geo s).Perm es := by
  induction h with
  | start => exact ⟨⟨_, h₀.tree⟩, by simp [entries, h₀.2, entriesBelow]⟩
  | insert key val _ hval habsent hrun ih =>
    obtain ⟨⟨G, hG⟩, hperm⟩ := ih
    have habsent' : Absent geo _ key := fun e he => habsent e (hperm.mem_iff.mp he)
    rcases hG.insert_returns hN le_rfl (by omega) le_rfl (by omega) hval habsent' with
      hnull | ⟨s', -, hfail, -⟩ | ⟨s', G', hok, htree, hperm'⟩
    · rw [hnull] at hrun
      cases hrun
    · rw [hfail] at hrun
      cases hrun
    · rw [hok] at hrun
      cases hrun
      exact ⟨⟨G', htree⟩, hperm'.trans (hperm.cons _)⟩
  | remove key val ret _ hstored hleft hrun ih =>
    obtain ⟨⟨G, hG⟩, hperm⟩ := ih
    obtain ⟨s', G', hok, htree, hperm'⟩ := hG.remove_returns hrec hN hperm hstored hleft
    rw [hok] at hrun
    cases hrun
    exact ⟨⟨G', htree⟩, hperm'⟩

/-- No node of the tree is empty, when something is stored. -/
theorem Tree.page_ne_nil {G : Labels w} (h : Tree geo 1 1 1 s G) (hes : entries geo s ≠ []) {l : Nat}
    {p : Ptr w} (hp : (l, p) ∈ nodes geo s) : s.page geo p ≠ [] := by
  obtain ⟨hl, hlvl⟩ := h.mem_nodes.mp hp
  rw [h.page_eq (by omega)]
  by_cases hroot : p = s.node
  · subst hroot
    by_cases hh : 2 ≤ s.height
    · exact List.ne_nil_of_length_pos (h.root_fill hh)
    · have := h.root_lvl (by have := h.lvl_le s.node; omega)
      have hone : s.height = 1 := by have := h.lvl_le s.node; omega
      rwa [entries, hone, entriesBelow, h.page_eq (by omega)] at hes
  · exact List.ne_nil_of_length_pos (h.fill p (by omega) hroot)

/-- Along every history the tree is in order and holds what it should, no node is empty, and the
next call returns as it should, unless a `kmalloc` of a queue fails. -/
theorem History.sound (hrec : rec.Releases geo) (hN : 4 ≤ geo.noPairs) (h₀ : Fresh s₀)
    (h : History geo rec s₀ s es) :
    BTreeInv geo 1 1 s ∧ Descending (entries geo s) ∧ (entries geo s).Perm es ∧
    (∀ l p, (l, p) ∈ nodes geo s → s.page geo p ≠ []) ∧
    (∀ key val, val ≠ 0#w → (∀ e ∈ es, e.1 ≠ keyNum geo key) →
      cbtreeInsert geo key val s = .error .nullDeref ∨
      ∃ err s', cbtreeInsert geo key val s = .ok (err, s') ∧ (err = 0 ∨ err = -ENOMEM)) ∧
    ∀ key val, (keyNum geo key, val) ∈ es → es.erase (keyNum geo key, val) ≠ [] →
      ∃ s', cbtreeRemove geo rec key s = .ok (val, s') := by
  obtain ⟨⟨G, hG⟩, hperm⟩ := h.tree hrec hN h₀
  refine ⟨hG.btreeInv, hG.entries_descending, hperm, fun l p hp => ?_, fun key val hval habsent => ?_,
    fun key val hstored hleft => ?_⟩
  · by_cases hes : es = []
    · -- the tree is as it was before the first call
      rw [h.eq_start hes] at hp
      simp [nodes, h₀.2, nodesBelow] at hp
    · refine hG.page_ne_nil (fun hnil => hes ?_) hp
      rw [hnil] at hperm
      exact hperm.nil_eq.symm
  · rcases hG.insert_returns hN le_rfl (by omega) le_rfl (by omega) hval
      fun e he => habsent e (hperm.mem_iff.mp he) with
      hnull | ⟨s', -, hfail, -⟩ | ⟨s', -, hok, -⟩
    · exact .inl hnull
    · exact .inr ⟨_, s', hfail, .inr rfl⟩
    · exact .inr ⟨_, s', hok, .inl rfl⟩
  · obtain ⟨s', -, hrun, -⟩ := hG.remove_returns hrec hN hperm hstored hleft
    exact ⟨s', hrun⟩

/-- Insertions one after the other, up to the first that does not return 0 or whose key is there already, and
what they should leave. -/
def storeAll (geo : Geo) : List (Words w × Ptr w) → State w × Page w → State w × Page w
  | [], stored => stored
  | (key, val) :: calls, (s, es) =>
    if val ≠ 0#w ∧ ∀ e ∈ es, e.1 ≠ keyNum geo key then
      match cbtreeInsert geo key val s with
      | .ok (0, s') => storeAll geo calls (s', (keyNum geo key, val) :: es)
      | _ => (s, es)
    else (s, es)

/-- What each of the insertions keeps holds after all of them. -/
theorem storeAll_keeps {I : State w → Page w → Prop} (hstep : ∀ key val s s' es, val ≠ 0#w →
    (∀ e ∈ es, e.1 ≠ keyNum geo key) → cbtreeInsert geo key val s = .ok (0, s') → I s es →
    I s' ((keyNum geo key, val) :: es)) : ∀ (calls : List (Words w × Ptr w)) (s : State w) (es : Page w), I s es →
    I (storeAll geo calls (s, es)).1 (storeAll geo calls (s, es)).2 := by
  intro calls
  induction calls with
  | nil => exact fun s es h => h
  | cons call calls ih =>
    obtain ⟨key, val⟩ := call
    intro s es h
    unfold storeAll
    split
    next hcall =>
      split
      next s' hrun => exact ih s' _ (hstep key val s s' es hcall.1 hcall.2 hrun h)
      next => exact h
    next => exact h

/-- Keys 1 to 8, each with a value of its own: the root is split. -/
def eightValues : State 64 × Page 64 := storeAll Machine.x86_64.cbtree_geo64
  ((List.range 8).map fun i => (wordKey (i + 1), BitVec.ofNat 64 (0x71 + i))) (arena 4, [])

/-- Keys 8 and 7 are removed: the two leaves are merged, and the tree loses its root. -/
def sevenLeft : State 64 :=
  eightValues.1.after (cbtreeRemove Machine.x86_64.cbtree_geo64 Reclaim.freed (wordKey 8) eightValues.1)

def sixLeft : State 64 :=
  sevenLeft.after (cbtreeRemove Machine.x86_64.cbtree_geo64 Reclaim.freed (wordKey 7) sevenLeft)

theorem eightValues_history :
    History Machine.x86_64.cbtree_geo64 Reclaim.freed (arena 4) eightValues.1 eightValues.2 :=
  storeAll_keeps (fun key val _ _ _ hval habsent hrun h => h.insert key val hval habsent hrun) _ _ _ .start

theorem History.sound_split_merge :
    (nodes Machine.x86_64.cbtree_geo64 eightValues.1).length = 3 ∧
    (nodes Machine.x86_64.cbtree_geo64 sixLeft).length = 1 ∧
    BTreeInv Machine.x86_64.cbtree_geo64 1 1 sixLeft ∧
    (entries Machine.x86_64.cbtree_geo64 sixLeft).Perm
      [(6, 0x76#64), (5, 0x75#64), (4, 0x74#64), (3, 0x73#64), (2, 0x72#64), (1, 0x71#64)] := by
  have h₇ : History Machine.x86_64.cbtree_geo64 Reclaim.freed (arena 4) sevenLeft _ :=
    eightValues_history.remove (wordKey 8) 0x78#64 0x78#64 (by decide +kernel) (by decide +kernel)
      (returned_eq_some.mp (by decide +kernel))
  have h₆ : History Machine.x86_64.cbtree_geo64 Reclaim.freed (arena 4) sixLeft _ :=
    h₇.remove (wordKey 7) 0x77#64 0x77#64 (by decide +kernel) (by decide +kernel)
      (returned_eq_some.mp (by decide +kernel))
  obtain ⟨hinv, -, hperm, -⟩ := History.sound (Reclaim.freed_releases _) (by decide) (arena_blank 4).fresh h₆
  have hleft : (eightValues.2.erase (keyNum Machine.x86_64.cbtree_geo64 (wordKey 8), 0x78#64)).erase
      (keyNum Machine.x86_64.cbtree_geo64 (wordKey 7), 0x77#64) =
        [(6, 0x76#64), (5, 0x75#64), (4, 0x74#64), (3, 0x73#64), (2, 0x72#64), (1, 0x71#64)] := by decide +kernel
  rw [hleft] at hperm
  exact ⟨by decide +kernel, by decide +kernel, hinv, hperm⟩

end CachedBTree
