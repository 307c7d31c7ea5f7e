import CachedBTree.Caching.Runs
import CachedBTree.Removal.Returns
import CachedBTree.Routes

/-! # Insertions and removals that return

Along every run of the two calls the tree and its caches stay intact.  A removal of a key
that is not stored looks at one slot of the leaf that the key leads to; when all keys there
are larger this slot lies behind the used ones, and what it holds decides whether the call
returns `NULL` with nothing changed or takes the last entry of the leaf for the key. -/

namespace CachedBTree

open CachedBTree.Support

variable {w : Nat} {geo : Geo} {s s' s₀ : State w} {p : Ptr w} {R : Rings w} {G : Labels w} {key : Words w}
  {ret : Ptr w}

/-- Insertions and removals, of any keys. -/
def InsertsRemoves : Cmd w → State w → Prop
  | .insert _ _, _ | .remove _, _ => True
  | .update _ _, _ | .lookup _, _ => False

instance decidableInsertsRemoves : ∀ (c : Cmd w) (s : State w), Decidable (InsertsRemoves c s)
  | .insert _ _, _ | .remove _, _ => isTrue trivial
  | .update _ _, _ | .lookup _, _ => isFalse id

/-! ## One removal -/

/-- What `find_level` writes leaves the caches and their counts alone. -/
theorem findLevel_caches {level : Nat} {q : Ptr w} {kp : KeyPtr w}
    (hrun : findLevel geo kp level s = .ok (q, s')) (hC : Caches geo s R) (hcount : Counted geo s R) :
    Caches geo s' R ∧ Counted geo s' R :=
  findLevel_keeps (I := fun s => Caches geo s R ∧ Counted geo s R)
    (fun _ _ _ _ hs hp hsame => ⟨hs.1.setNode hp hsame, hs.2.setNode hp hsame⟩) hrun ⟨hC, hcount⟩

/-- A removal that returns moves no node, so the entries of the caches name leaves as before. -/
theorem Warm.remove (hN : 4 ≤ geo.noPairs) (h : Warm geo 1 1 s G R)
    (hrun : cbtreeRemove geo (Reclaim.code geo) key s = .ok (ret, s')) :
    ∃ G₁ G', Warm geo 1 1 s' G' R ∧ Lowered (keyNum geo key) G G₁ ∧ Reduced geo key ret s G₁ G' ∧
      ∃ s₁, Tree geo 1 1 1 s₁ G₁ ∧ s₁.node = s.node := by
  by_cases hh : s.height = 0
  · rw [cbtreeRemove, if_pos hh] at hrun
    cases hrun
    exact ⟨G, G, h, .refl _ _, .kept, s, h.tree, rfl⟩
  obtain ⟨p, s₁, G₁, n, hfind, hrouted, hn, -, hcase⟩ := h.tree.removal (by omega) h.caches (by omega) hrun
  obtain ⟨hC, hcount⟩ := findLevel_caches hfind h.caches h.counted
  have haimed : ∀ {G' : Labels w}, (∀ x, (G' x).lvl = (G x).lvl) → Aimed G' R := by
    intro G' hlvl x e he hne
    rw [hlvl, hlvl]
    exact h.aimed x e he hne
  have hnode : s₁.node = s.node := by rw [hrouted.mem]
  rcases hcase with ⟨-, -, rfl⟩ | ⟨-, n', l', hthin, rfl, hsame, htree, hchecked⟩
  · exact ⟨G₁, G₁, ⟨hrouted.tree, hC, hcount, haimed hrouted.lowered.lvl⟩, hrouted.lowered, .kept, s',
      hrouted.tree, hnode⟩
  · have hreduced : Reduced geo key ret s G₁ _ := .leaf p l' hrouted.lvl hthin
      (hrouted.removal_apart hfind hthin.length hchecked)
    exact ⟨G₁, _, ⟨htree, hC.setNode hn hsame, hcount.setNode hn hsame,
      haimed fun x => (hreduced.lvl x).trans (hrouted.lowered.lvl x)⟩, hrouted.lowered, hreduced, s₁,
      hrouted.tree, hnode⟩

theorem warm_of_inserts_removes (hN : 4 ≤ geo.noPairs) (h₀ : Blank s₀)
    (h : Run geo InsertsRemoves s₀ s) : ∃ G R, Warm geo 1 1 s G R := by
  apply h.keeps (I := fun s => ∃ G R, Warm geo 1 1 s G R) ?_ ⟨_, _, h₀.warm⟩
  intro c s s' hc hrun hs
  obtain ⟨G, R, hwarm⟩ := hs
  cases c with
  | insert key val =>
    obtain ⟨err, hrun⟩ := map_eq_ok.mp hrun
    obtain ⟨G', R', hwarm', -⟩ := hwarm.insert hN le_rfl (by omega) le_rfl (by omega) hrun
    exact ⟨G', R', hwarm'⟩
  | remove key =>
    obtain ⟨ret, hrun⟩ := map_eq_ok.mp hrun
    obtain ⟨-, G', hwarm', -⟩ := hwarm.remove hN hrun
    exact ⟨G', R, hwarm'⟩
  | lookup key => exact hc.elim
  | update key val => exact hc.elim

/-! ## Keys that are not stored -/

/-- All keys of the leaf that `key` leads to are larger, and the words behind its used slots are those
of `key`: zeros when a slot is free, and else the first values of the leaf. -/
def looksStored (geo : Geo) (key : Words w) (s : State w) : Bool :=
  decide (s.height ≠ 0) && match s.heap (leafOf geo key s) with
    | some (.node n) => (pageOf geo n).all (fun e => decide (keyNum geo key < e.1)) &&
        decide (keycmp geo n (pageOf geo n).length key = 0)
    | _ => false

/-- The slot that the removal compares with the key, when no slot of the leaf has it. -/
theorem Holds.compared {n : Words w} {l : Page w} (h : Holds geo n l) (hdesc : Descending l)
    (habsent : ∀ e ∈ l, e.1 ≠ keyNum geo key) :
    keycmp geo n (CachedBTree.getpos geo n key) key = 0 ↔
      (∀ e ∈ l, keyNum geo key < e.1) ∧ keycmp geo n l.length key = 0 := by
  obtain ⟨l₁, l₂, rfl, h₁, h₂⟩ := hdesc.cut (keyNum geo key)
  rw [h.getpos h₁ h₂]
  cases l₂ with
  | nil =>
    rw [List.append_nil] at habsent ⊢
    exact ⟨fun hcmp => ⟨h₁, hcmp⟩, fun hcmp => hcmp.2⟩
  | cons e l₂ =>
    obtain ⟨k, v⟩ := e
    constructor
    · intro hcmp
      exact absurd (h.keycmp_append.mp hcmp) (habsent (k, v) (by simp))
    · intro hlarger
      have hlt := hlarger.1 (k, v) (by simp)
      have hle := h₂ (k, v) (by simp)
      omega

theorem Routed.page_leaf {k : Nat} {G' : Labels w} (h : Routed geo 1 1 1 k s G p s' G') :
    (G' p).page = (G p).page :=
  h.lowered.page_leaf (by have := h.lowered.lvl p; have := h.lvl; omega)

/-- `find_level` leads to `leafOf`, and `looksStored` reads there what the removal compares. -/
theorem Tree.looksStored_iff {G₁ : Labels w} {s₁ : State w} {n : Words w} (h : Tree geo 1 1 1 s G)
    (hh : 1 ≤ s.height) (habsent : Absent geo s key) (hfind : findLevel geo (.buf key) 1 s = .ok (p, s₁))
    (hrouted : Routed geo 1 1 1 (keyNum geo key) s G p s₁ G₁) (hn : s₁.heap p = some (.node n))
    (hholds : Holds geo n (G₁ p).page) :
    looksStored geo key s = true ↔ keycmp geo n (getpos geo n key) key = 0 := by
  have hleaf : p = leafOf geo key s := (h.findLevel_path le_rfl le_rfl le_rfl hh hfind).1
  have hlvl : (G p).lvl = 1 := by rw [← hrouted.lowered.lvl p]; exact hrouted.lvl
  have hn₀ : s.heap p = some (.node n) := by rw [← hrouted.heap p (by omega), hn]
  rw [hrouted.page_leaf] at hholds
  have hpage : ∀ e ∈ (G p).page, e.1 ≠ keyNum geo key := fun e he heq =>
    h.absent.mp habsent e.2 ⟨p, hlvl, by rwa [← heq]⟩
  rw [hholds.compared (h.chain p (by omega)).descending hpage]
  have hheight : s.height ≠ 0 := by omega
  simp [looksStored, ← hleaf, hn₀, hholds.pageOf, hheight]

/-- The entries are the pairs of the leaves in descending order. -/
theorem entries_eq_of_pairAt {m r m' r' : Nat} {G' : Labels w} (h : Tree geo m r 1 s G)
    (h' : Tree geo m' r' 1 s' G') (hpairs : ∀ e, PairAt G' 1 e ↔ PairAt G 1 e) :
    entries geo s' = entries geo s :=
  h'.entries_descending.ext h.entries_descending fun e => by
    rw [h'.mem_entries, h.mem_entries]
    exact hpairs e

/-- A leaf that has lost a pair shows in the entries. -/
theorem Tree.thinned_entries {G₁ : Labels w} {s₁ : State w} {l' : Page w} (h : Tree geo 1 1 1 s G)
    (hrouted : Routed geo 1 1 1 (keyNum geo key) s G p s₁ G₁) (hthin : Thinning geo key ret (G₁ p).page l')
    (h' : Tree geo 1 1 1 s' (Function.update G₁ p { G₁ p with page := l' })) :
    entries geo s' ≠ entries geo s := by
  intro hentries
  have hlvl := hrouted.lvl
  have hkept : ∀ e, e ∈ (G₁ p).page → e ∈ l' := by
    intro e he
    have hmem : e ∈ entries geo s' := by
      rw [hentries]
      exact h.mem_entries.mpr ⟨p, by rw [← hrouted.lowered.lvl, hlvl], by rwa [← hrouted.page_leaf]⟩
    obtain ⟨x, hx, hex⟩ := h'.mem_entries.mp hmem
    by_cases hxp : x = p
    · rw [hxp, Function.update_self] at hex
      exact hex
    · rw [Function.update_of_ne hxp] at hx hex
      exact absurd (hrouted.tree.pair_unique (by omega) (by omega) he hex) hxp
  have hnodup := (hrouted.tree.chain p (by omega)).descending.nodup
  have hle := (hnodup.subperm hkept).length_le
  have hlen := hthin.length
  omega

/-- One more removal, of a key that is not stored. -/
theorem Warm.remove_absent (hN : 4 ≤ geo.noPairs) (hwarm : Warm geo 1 1 s G R) (habsent : Absent geo s key) :
    (∃ s', cbtreeRemove geo (Reclaim.code geo) key s = .ok (0#w, s') ∧ entries geo s' = entries geo s) ↔
      looksStored geo key s = false := by
  have htree := hwarm.tree
  by_cases hh : s.height = 0
  · rw [cbtreeRemove, if_pos hh]
    simp [looksStored, hh]
  obtain ⟨p, s₁, G₁, hfind, hrouted⟩ := htree.findLevel_route key le_rfl le_rfl le_rfl (by omega : 1 ≤ s.height)
  have hlvl := hrouted.lvl
  obtain ⟨n, hn, hload, hholds⟩ := hrouted.tree.load (p := p) (by omega)
  have hlooks := htree.looksStored_iff (by omega) habsent hfind hrouted hn hholds
  constructor
  · rintro ⟨s', hrun, hentries⟩
    obtain ⟨p', s₁', G₁', n', hfind', hrouted', hn', -, hcase⟩ :=
      htree.removal (by omega) hwarm.caches (by omega) hrun
    rw [hfind] at hfind'
    cases hfind'
    rw [hn] at hn'
    cases hn'
    -- the call has found nothing, or has taken another pair from the leaf
    rcases hcase with ⟨hne, -⟩ | ⟨-, m', l', hthin, -, -, htree', -⟩
    · rw [← Bool.not_eq_true, hlooks]
      exact hne
    · exact absurd hentries (htree.thinned_entries hrouted' hthin htree')
  · intro hfalse
    have hne : keycmp geo n (getpos geo n key) key ≠ 0 := fun hcmp => by
      rw [hlooks.mpr hcmp] at hfalse
      cases hfalse
    refine ⟨s₁, ?_, entries_eq_of_pairAt htree hrouted.tree hrouted.pairAt⟩
    have hheight : ¬s.height < 1 := by omega
    rw [cbtreeRemove, if_neg hh, cbtreeRemoveLevel, if_neg hheight, hfind, ok_bind]
    simp only [hload, ok_bind, KeyPtr.read]
    exact if_pos ⟨trivial, hne⟩

/-- A removal of a stored key that returns. -/
theorem Warm.remove_stored (hN : 4 ≤ geo.noPairs) (hwarm : Warm geo 1 1 s G R) (hstored : ¬Absent geo s key)
    (hrun : cbtreeRemove geo (Reclaim.code geo) key s = .ok (ret, s')) :
    (keyNum geo key, ret) ∈ entries geo s ∧
      entries geo s' = (entries geo s).filter fun e => decide (e.1 ≠ keyNum geo key) := by
  obtain ⟨v, x, hx, hmem⟩ : ∃ v, PairAt G 1 (keyNum geo key, v) := by
    by_contra hnone
    exact hstored (hwarm.tree.absent.mpr fun v hv => hnone ⟨v, hv⟩)
  have hh : 1 ≤ s.height := by have := hwarm.tree.lvl_le x; omega
  obtain ⟨p, s₁, G₁, n, -, hrouted, hn, hholds, hcase⟩ := hwarm.tree.removal (by omega) hwarm.caches hh hrun
  have hlvl := hrouted.lvl
  have hpages : ∀ y, (G y).lvl = 1 → (G₁ y).page = (G y).page := fun y hy =>
    hrouted.lowered.page_leaf (by omega)
  have hx₁ : (G₁ x).lvl = 1 := (hrouted.lowered.lvl x).trans hx
  -- the key is in the leaf that it leads to
  obtain rfl : x = p := by
    obtain ⟨hlo, hhi⟩ := hrouted.tree.pair_interval (by omega) ((hpages x hx).symm ▸ hmem)
    exact hrouted.tree.node_unique (by omega) (by omega) (by omega) hrouted.lo hrouted.hi hlo hhi
  have hdesc := (hrouted.tree.chain x (by omega)).descending
  rw [← hpages x hx] at hmem
  rcases hcase with ⟨hne, -⟩ | ⟨-, m', l', hthin, -, -, htree', -⟩
  · obtain ⟨l₁, l₂, hpage⟩ := List.append_of_mem hmem
    rw [hpage] at hholds hdesc
    obtain ⟨-, htail, hcross⟩ := hdesc.of_append
    have hbehind : ∀ e ∈ (keyNum geo key, v) :: l₂, e.1 ≤ keyNum geo key := fun e he => by
      rcases List.mem_cons.mp he with rfl | he
      · exact le_rfl
      · exact ((List.pairwise_cons.mp htail).1 e he).le
    have hbefore : ∀ e ∈ l₁, keyNum geo key < e.1 := fun e he =>
      hcross e he (keyNum geo key, v) (by simp)
    rw [hholds.getpos hbefore hbehind] at hne
    exact absurd (hholds.keycmp_append.mpr rfl) hne
  generalize hpage : (G₁ x).page = l at hthin hmem hdesc
  cases hthin with
  | phantom l e hlt => exact absurd (hlt _ hmem) (lt_irrefl _)
  | stored l₁ l₂ =>
    have hself : (Function.update G₁ x { G₁ x with page := l₁ ++ l₂ } x).page = l₁ ++ l₂ := by
      rw [Function.update_self]
    have hothers : ∀ y, y ≠ x → Function.update G₁ x { G₁ x with page := l₁ ++ l₂ } y = G₁ y := fun y hy =>
      Function.update_of_ne hy _ _
    refine ⟨hwarm.tree.mem_entries.mpr ⟨x, hx, by rw [← hpages x hx, hpage]; simp⟩, ?_⟩
    apply htree'.entries_descending.ext (hwarm.tree.entries_descending.filter _)
    intro e
    rw [List.mem_filter, htree'.mem_entries, hwarm.tree.mem_entries, decide_eq_true_eq]
    constructor
    · rintro ⟨y, hy, he⟩
      by_cases hyx : y = x
      · subst hyx
        rw [hself] at he
        obtain ⟨hold, hne⟩ := hdesc.mem_without.mp he
        exact ⟨⟨y, hx, by rwa [← hpages y hx, hpage]⟩, hne⟩
      · rw [hothers y hyx] at hy he
        have hold : (G y).lvl = 1 := by rw [← hrouted.lowered.lvl y, hy]
        refine ⟨⟨y, hold, by rwa [← hpages y hold]⟩, fun hkey => hyx ?_⟩
        exact hrouted.tree.key_unique (by omega) (by omega) (hpage.symm ▸ hmem) he hkey
    · rintro ⟨⟨y, hy, he⟩, hne⟩
      have hy₁ : (G₁ y).lvl = 1 := (hrouted.lowered.lvl y).trans hy
      rw [← hpages y hy] at he
      by_cases hyx : y = x
      · subst hyx
        rw [hpage] at he
        exact ⟨y, by rw [Function.update_self]; exact hy₁, by rw [hself]; exact hdesc.mem_without.mpr ⟨he, hne⟩⟩
      · exact ⟨y, by rwa [hothers y hyx], by rwa [hothers y hyx]⟩

/-- A removal of a key that is not stored returns `NULL` and leaves the entries, unless the slot it looks
at looks like one with the key. -/
theorem cbtreeRemove_absent_iff (hN : 4 ≤ geo.noPairs) (h₀ : Blank s₀) (h : Run geo InsertsRemoves s₀ s)
    (habsent : Absent geo s key) :
    (∃ s', cbtreeRemove geo (Reclaim.code geo) key s = .ok (0#w, s') ∧ entries geo s' = entries geo s) ↔
      looksStored geo key s = false := by
  obtain ⟨G, R, hwarm⟩ := warm_of_inserts_removes hN h₀ h
  exact hwarm.remove_absent hN habsent

/-- One key is stored. -/
def afterOne : State 64 :=
  Cmd.execAll Machine.x86_64.cbtree_geo64 InsertsRemoves [.insert (wordKey 5) 0x77#64] (arena 1)

theorem afterOne_run : Run Machine.x86_64.cbtree_geo64 InsertsRemoves (arena 1) afterOne :=
  Cmd.run_execAll _ _ _ _

theorem cbtreeRemove_absent_iff_after_one :
    looksStored Machine.x86_64.cbtree_geo64 (wordKey 4) afterOne = false ∧
    ∃ s', cbtreeRemove Machine.x86_64.cbtree_geo64 (Reclaim.code Machine.x86_64.cbtree_geo64) (wordKey 4)
        afterOne = .ok (0#64, s') ∧
      entries Machine.x86_64.cbtree_geo64 s' = entries Machine.x86_64.cbtree_geo64 afterOne := by
  have hlooks : looksStored Machine.x86_64.cbtree_geo64 (wordKey 4) afterOne = false := by decide +kernel
  exact ⟨hlooks, (cbtreeRemove_absent_iff (by decide) (arena_blank 1) afterOne_run (by decide +kernel)).mpr
    hlooks⟩

/-- Removing key 0, which is not stored, takes the only entry. -/
theorem cbtreeRemove_absent_loses_entry :
    ¬∀ s, Run Machine.x86_64.cbtree_geo64 InsertsRemoves (arena 1) s → ∀ key : Words 64,
      Absent Machine.x86_64.cbtree_geo64 s key →
      ∃ s', cbtreeRemove Machine.x86_64.cbtree_geo64 (Reclaim.code Machine.x86_64.cbtree_geo64) key s =
          .ok (0#64, s') ∧
        entries Machine.x86_64.cbtree_geo64 s' = entries Machine.x86_64.cbtree_geo64 s := by
  intro hevery
  obtain ⟨s', hrun, hentries⟩ := hevery afterOne afterOne_run (wordKey 0) (by decide +kernel)
  have hlost : entries Machine.x86_64.cbtree_geo64 (afterOne.after
      (cbtreeRemove Machine.x86_64.cbtree_geo64 (Reclaim.code Machine.x86_64.cbtree_geo64) (wordKey 0)
        afterOne)) = [] := by
    decide +kernel
  have hstored : entries Machine.x86_64.cbtree_geo64 afterOne = [(5, 0x77#64)] := by decide +kernel
  rw [hrun, State.after, hentries, hstored] at hlost
  cases hlost

end CachedBTree
