import CachedBTree.Caching.Updates
import CachedBTree.Removal.Absent
import CachedBTree.Removal.Runs

/-! # What a lookup returns

`cbtree_lookup` is to return the value that the calls made so far have left for the key.  It
returns the node that the search ends at, so for a stored key it is right only when its
value is that address. -/

namespace CachedBTree

open CachedBTree.Support

variable {w : Nat} {geo : Geo} {s s' s₀ : State w} {R : Rings w} {G : Labels w} {es : Page w} {key : Words w}

/-! ## The calls and what they store -/

/-- Calls that return.  `es` is what they should have left: an insertion that succeeds adds an entry, an
update gives the entry of its key another value, a removal takes the entry of its key away.  The
updates reach the leaf of their key, and no removal of a key that is not stored finds words that
look like the key. -/
inductive Record (geo : Geo) (s₀ : State w) : State w → Page w → Prop
  | start : Record geo s₀ s₀ []
  | inserted {s s' : State w} {es : Page w} (key : Words w) (val : Ptr w) (h : Record geo s₀ s es)
    (habsent : ∀ e ∈ es, e.1 ≠ keyNum geo key) (hrun : cbtreeInsert geo key val s = .ok (0, s')) :
    Record geo s₀ s' ((keyNum geo key, val) :: es)
  | refused {s s' : State w} {es : Page w} (key : Words w) (val : Ptr w) (h : Record geo s₀ s es)
    (habsent : ∀ e ∈ es, e.1 ≠ keyNum geo key) (hrun : cbtreeInsert geo key val s = .ok (-ENOMEM, s')) :
    Record geo s₀ s' es
  | lookup {s s' : State w} {es : Page w} (key : Words w) (ret : Ptr w) (h : Record geo s₀ s es)
    (hrun : cbtreeLookup geo key s = .ok (ret, s')) : Record geo s₀ s' es
  | update {s s' : State w} {es : Page w} (key : Words w) (val : Ptr w) (err : Int) (h : Record geo s₀ s es)
    (hval : val ≠ 0#w) (hreach : updateReaches geo key s = true)
    (hrun : cbtreeUpdate geo key val s = .ok (err, s')) : Record geo s₀ s' (withValue (keyNum geo key) val es)
  | remove {s s' : State w} {es : Page w} (key : Words w) (ret : Ptr w) (h : Record geo s₀ s es)
    (hlooks : (∀ e ∈ es, e.1 ≠ keyNum geo key) → looksStored geo key s = false)
    (hrun : cbtreeRemove geo (Reclaim.code geo) key s = .ok (ret, s')) :
    Record geo s₀ s' (es.filter fun e => decide (e.1 ≠ keyNum geo key))

theorem absent_of_perm (h : (entries geo s).Perm es) : Absent geo s key ↔ ∀ e ∈ es, e.1 ≠ keyNum geo key :=
  ⟨fun habsent e he => habsent e (h.mem_iff.mpr he), fun habsent e he => habsent e (h.mem_iff.mp he)⟩

/-- One more insertion that returns. -/
theorem Warm.insert_entries {val : Ptr w} {err : Int} (hN : 4 ≤ geo.noPairs) (h : Warm geo 1 1 s G R)
    (hrun : cbtreeInsert geo key val s = .ok (err, s')) :
    ∃ G' R', Warm geo 1 1 s' G' R' ∧ (err = -ENOMEM ∧ entries geo s' = entries geo s ∨
      err = 0 ∧ (entries geo s').Perm ((keyNum geo key, val) :: entries geo s)) := by
  obtain ⟨hval, habsent⟩ := h.tree.absent_of_ok hrun
  obtain ⟨G', R', hwarm, -⟩ := h.insert hN le_rfl (by omega) le_rfl (by omega) hrun
  refine ⟨G', R', hwarm, ?_⟩
  rcases h.tree.insert_returns hN le_rfl (by omega) le_rfl (by omega) hval (h.tree.absent.mpr habsent) with
    hnull | ⟨s₁, G₁, hfail, -, hentries⟩ | ⟨s₁, G₁, hok, -, hentries⟩
  · rw [hnull] at hrun
    cases hrun
  · rw [hfail] at hrun
    cases hrun
    exact .inl ⟨rfl, hentries⟩
  · rw [hok] at hrun
    cases hrun
    exact .inr ⟨rfl, hentries⟩

/-- One more update that reaches its leaf. -/
theorem Warm.update_entries {val : Ptr w} {err : Int} (h : Warm geo 1 1 s G R) (hval : val ≠ 0#w)
    (hreach : updateReaches geo key s = true) (hrun : cbtreeUpdate geo key val s = .ok (err, s')) :
    ∃ G' R', Warm geo 1 1 s' G' R' ∧ entries geo s' = withValue (keyNum geo key) val (entries geo s) := by
  by_cases habsent : Absent geo s key
  · rcases h.update_absent val habsent with ⟨-, s₁, R', hok, hwarm⟩ | ⟨hno, -⟩
    · obtain rfl := congrArg Prod.snd (Except.ok.inj (hok.symm.trans hrun))
      exact ⟨G, R', hwarm, (h.tree.entries_congr hwarm.tree).trans (withValue_absent habsent).symm⟩
    · rw [hno] at hreach
      cases hreach
  · rcases h.update_stored hval habsent with ⟨-, s₁, G', R', hok, hwarm, hentries⟩ | ⟨hno, -⟩
    · obtain rfl := congrArg Prod.snd (Except.ok.inj (hok.symm.trans hrun))
      exact ⟨G', R', hwarm, hentries⟩
    · rw [hno] at hreach
      cases hreach

/-- One more removal that returns. -/
theorem Warm.remove_entries {ret : Ptr w} (hN : 4 ≤ geo.noPairs) (h : Warm geo 1 1 s G R)
    (hlooks : Absent geo s key → looksStored geo key s = false)
    (hrun : cbtreeRemove geo (Reclaim.code geo) key s = .ok (ret, s')) :
    ∃ G', Warm geo 1 1 s' G' R ∧
      entries geo s' = (entries geo s).filter fun e => decide (e.1 ≠ keyNum geo key) := by
  obtain ⟨-, G', hwarm, -⟩ := h.remove hN hrun
  refine ⟨G', hwarm, ?_⟩
  by_cases habsent : Absent geo s key
  · obtain ⟨s₁, hok, hentries⟩ := (h.remove_absent hN habsent).mpr (hlooks habsent)
    obtain rfl := congrArg Prod.snd (Except.ok.inj (hok.symm.trans hrun))
    rw [hentries, List.filter_eq_self.mpr fun e he => decide_eq_true (habsent e he)]
  · exact (h.remove_stored hN habsent hrun).2

/-- The tree with its caches, and the entries it holds. -/
def Stores (geo : Geo) (s : State w) (es : Page w) : Prop :=
  (∃ G R, Warm geo 1 1 s G R) ∧ (entries geo s).Perm es

namespace Stores

theorem start (h₀ : Blank s₀) : Stores geo s₀ [] := by
  have hnone : CachedBTree.entries geo s₀ = [] := by simp [CachedBTree.entries, h₀.fresh.2, entriesBelow]
  exact ⟨⟨_, _, h₀.warm⟩, by rw [hnone]⟩

theorem inserted {val : Ptr w} (hN : 4 ≤ geo.noPairs) (h : Stores geo s es)
    (hrun : cbtreeInsert geo key val s = .ok (0, s')) : Stores geo s' ((keyNum geo key, val) :: es) := by
  obtain ⟨⟨G, R, hwarm⟩, hperm⟩ := h
  obtain ⟨G', R', hwarm', ⟨herr, -⟩ | ⟨-, hentries⟩⟩ := hwarm.insert_entries hN hrun
  · simp [ENOMEM] at herr
  · exact ⟨⟨G', R', hwarm'⟩, hentries.trans (hperm.cons _)⟩

theorem refused {val : Ptr w} (hN : 4 ≤ geo.noPairs) (h : Stores geo s es)
    (hrun : cbtreeInsert geo key val s = .ok (-ENOMEM, s')) : Stores geo s' es := by
  obtain ⟨⟨G, R, hwarm⟩, hperm⟩ := h
  obtain ⟨G', R', hwarm', ⟨-, hentries⟩ | ⟨herr, -⟩⟩ := hwarm.insert_entries hN hrun
  · exact ⟨⟨G', R', hwarm'⟩, hentries ▸ hperm⟩
  · simp [ENOMEM] at herr

theorem lookup {ret : Ptr w} (h : Stores geo s es) (hrun : cbtreeLookup geo key s = .ok (ret, s')) :
    Stores geo s' es := by
  obtain ⟨⟨G, R, hwarm⟩, hperm⟩ := h
  obtain ⟨-, R', hwarm', -⟩ := hwarm.lookup hrun
  exact ⟨⟨G, R', hwarm'⟩, hwarm.tree.entries_congr hwarm'.tree ▸ hperm⟩

theorem update {val : Ptr w} {err : Int} (h : Stores geo s es) (hval : val ≠ 0#w)
    (hreach : updateReaches geo key s = true) (hrun : cbtreeUpdate geo key val s = .ok (err, s')) :
    Stores geo s' (withValue (keyNum geo key) val es) := by
  obtain ⟨⟨G, R, hwarm⟩, hperm⟩ := h
  obtain ⟨G', R', hwarm', hentries⟩ := hwarm.update_entries hval hreach hrun
  exact ⟨⟨G', R', hwarm'⟩, hentries ▸ hperm.map _⟩

theorem remove {ret : Ptr w} (hN : 4 ≤ geo.noPairs) (h : Stores geo s es)
    (hlooks : (∀ e ∈ es, e.1 ≠ keyNum geo key) → looksStored geo key s = false)
    (hrun : cbtreeRemove geo (Reclaim.code geo) key s = .ok (ret, s')) :
    Stores geo s' (es.filter fun e => decide (e.1 ≠ keyNum geo key)) := by
  obtain ⟨⟨G, R, hwarm⟩, hperm⟩ := h
  obtain ⟨G', hwarm', hentries⟩ := hwarm.remove_entries hN
    (fun habsent => hlooks ((absent_of_perm hperm).mp habsent)) hrun
  exact ⟨⟨G', R, hwarm'⟩, hentries ▸ hperm.filter _⟩

end Stores

/-- The entries are what the calls should have left. -/
theorem Record.entries (hN : 4 ≤ geo.noPairs) (h₀ : Blank s₀) (h : Record geo s₀ s es) : Stores geo s es := by
  induction h with
  | start => exact .start h₀
  | inserted key val h habsent hrun ih => exact ih.inserted hN hrun
  | refused key val h habsent hrun ih => exact ih.refused hN hrun
  | lookup key ret h hrun ih => exact ih.lookup hrun
  | update key val err h hval hreach hrun ih => exact ih.update hval hreach hrun
  | remove key ret h hlooks hrun ih => exact ih.remove hN hlooks hrun

/-! ## Lookups -/

/-- The value stored for a key, `NULL` when there is none. -/
def valueOf (K : Nat) (es : Page w) : Ptr w :=
  ((es.find? fun e => decide (e.1 = K)).map Prod.snd).getD 0#w

/-- The search has all it needs, and ends at no leaf when the key is not stored: no cache on the way
answers, and key 0 is not taken for that of an unused slot.  A stored key has for its value the
address of the leaf that the search ends at. -/
def lookupTrue (geo : Geo) (key : Words w) (s : State w) : Bool :=
  lookupReady geo key s s.height s.node &&
    if Absent geo s key then
      decide (pathHit geo key s s.height s.node = 0#w) &&
        (decide (keyNum geo key ≠ 0) || decide (plainLeaf geo key s s.height s.node = 0#w))
    else (entries geo s).any fun e => decide (e = (keyNum geo key, answer geo key s s.height s.node))

theorem valueOf_absent {K : Nat} (h : ∀ e ∈ es, e.1 ≠ K) : valueOf K es = 0#w := by
  have hnone : es.find? (fun e => decide (e.1 = K)) = none :=
    List.find?_eq_none.mpr fun e he => by simpa using h e he
  rw [valueOf, hnone]
  rfl

theorem valueOf_stored {K : Nat} {v : Ptr w} (hmem : (K, v) ∈ es) (hone : ∀ u, (K, u) ∈ es → u = v) :
    valueOf K es = v := by
  cases hfound : es.find? (fun e => decide (e.1 = K)) with
  | none => exact absurd (decide_eq_true rfl) (List.find?_eq_none.mp hfound (K, v) hmem)
  | some e =>
    have hkey : e.1 = K := by simpa using List.find?_some hfound
    rw [valueOf, hfound]
    exact hone e.2 (hkey ▸ List.mem_of_find?_eq_some hfound)

/-- In every run whose updates reach their leaf, and whose removals of other keys than the stored ones are
not misled, a lookup returns what the calls have left for its key in these cases only. -/
theorem cbtreeLookup_iff (hN : 4 ≤ geo.noPairs) (h₀ : Blank s₀) (h : Record geo s₀ s es) (key : Words w) :
    (∃ s', cbtreeLookup geo key s = .ok (valueOf (keyNum geo key) es, s')) ↔ lookupTrue geo key s = true := by
  obtain ⟨⟨G, R, hwarm⟩, hperm⟩ := h.entries hN h₀
  rw [cbtreeLookup_eq]
  rcases hwarm.search key with ⟨hnull, -, hready⟩ | ⟨hready, s₁, R₁, hrun, -⟩
  · rw [hnull, lookupTrue, hready, Bool.false_and]
    refine iff_of_false ?_ Bool.false_ne_true
    rintro ⟨s', hrun⟩
    cases hrun
  have hvalue : (∃ s', cbtreeLookupNode geo key s.height s.node s = .ok (valueOf (keyNum geo key) es, s')) ↔
      answer geo key s s.height s.node = valueOf (keyNum geo key) es := by
    rw [hrun]
    constructor
    · rintro ⟨s', heq⟩
      exact (Prod.mk.inj (Except.ok.inj heq)).1
    · intro heq
      exact ⟨s₁, by rw [heq]⟩
  rw [hvalue, lookupTrue, hready, Bool.true_and]
  by_cases habsent : Absent geo s key
  · rw [if_pos habsent, valueOf_absent ((absent_of_perm hperm).mp habsent), Bool.and_eq_true,
      Bool.or_eq_true, decide_eq_true_eq, decide_eq_true_eq, decide_eq_true_eq]
    by_cases hhit : pathHit geo key s s.height s.node = 0#w
    · rw [answer, if_neg (not_not_intro hhit)]
      constructor
      · intro hplain
        exact ⟨hhit, .inr hplain⟩
      · rintro ⟨-, hkey | hplain⟩
        · by_contra hplain
          exact hkey (hwarm.tree.plainLeaf_root_absent (hwarm.tree.absent.mp habsent) hplain)
        · exact hplain
    · rw [answer, if_pos hhit]
      exact iff_of_false hhit fun hand => hhit hand.1
  · obtain ⟨v, hv⟩ : ∃ v, (keyNum geo key, v) ∈ entries geo s := by
      by_contra hnone
      exact habsent fun e he hkey => hnone ⟨e.2, hkey ▸ he⟩
    have hdesc := hwarm.tree.entries_descending
    have hone : ∀ u, (keyNum geo key, u) ∈ entries geo s → u = v := fun u hu => hdesc.unique hu hv
    rw [if_neg habsent, valueOf_stored (hperm.mem_iff.mp hv) fun u hu => hone u (hperm.mem_iff.mpr hu),
      List.any_eq_true]
    constructor
    · intro heq
      exact ⟨_, hv, decide_eq_true (by rw [heq])⟩
    · rintro ⟨e, he, heq⟩
      rw [of_decide_eq_true heq] at he
      exact hone _ he

/-- Keys 1 to 8 in two leaves.  The value of key 8 is the address of the leaf with keys 1 to 4. -/
def leafStored : State 64 × Page 64 := storeAll Machine.x86_64.cbtree_geo64
  ((List.range 8).map fun i => (wordKey (i + 1), if i = 7 then 0x1000#64 else BitVec.ofNat 64 (0x71 + i)))
  (arena 4, [])

/-- A lookup has put that leaf into the cache of the root. -/
def leafCached : State 64 :=
  leafStored.1.after (cbtreeLookup Machine.x86_64.cbtree_geo64 (wordKey 3) leafStored.1)

theorem leafCached_record : Record Machine.x86_64.cbtree_geo64 (arena 4) leafCached leafStored.2 := by
  have hstored : Record Machine.x86_64.cbtree_geo64 (arena 4) leafStored.1 leafStored.2 :=
    storeAll_keeps (fun key val _ _ _ _ habsent hrun h => h.inserted key val habsent hrun) _ _ _ .start
  exact hstored.lookup (wordKey 3) 0x1000#64 (returned_eq_some.mp (by decide +kernel))

/-- The cache answers for key 8, with what happens to be its value. -/
theorem cbtreeLookup_iff_leaf_cached :
    pathHit Machine.x86_64.cbtree_geo64 (wordKey 8) leafCached leafCached.height leafCached.node = 0x1000#64 ∧
    plainLeaf Machine.x86_64.cbtree_geo64 (wordKey 8) leafCached leafCached.height leafCached.node ≠ 0x1000#64 ∧
    ∃ s', cbtreeLookup Machine.x86_64.cbtree_geo64 (wordKey 8) leafCached = .ok (0x1000#64, s') := by
  have htrue : lookupTrue Machine.x86_64.cbtree_geo64 (wordKey 8) leafCached = true := by decide +kernel
  have hvalue : valueOf (keyNum Machine.x86_64.cbtree_geo64 (wordKey 8)) leafStored.2 = 0x1000#64 := by
    decide +kernel
  obtain ⟨s', hrun⟩ := (cbtreeLookup_iff (by decide) (arena_blank 4) leafCached_record (wordKey 8)).mpr htrue
  rw [hvalue] at hrun
  exact ⟨by decide +kernel, by decide +kernel, s', hrun⟩

/-- One entry. -/
def oneStored : State 64 :=
  (arena 1).after (cbtreeInsert Machine.x86_64.cbtree_geo64 (wordKey 5) 0x77#64 (arena 1))

/-- The lookup of a stored key returns the address of its leaf. -/
theorem cbtreeLookup_returns_leaf :
    ¬∀ s es, Record Machine.x86_64.cbtree_geo64 (arena 1) s es → ∀ key : Words 64,
      ∃ s', cbtreeLookup Machine.x86_64.cbtree_geo64 key s =
        .ok (valueOf (keyNum Machine.x86_64.cbtree_geo64 key) es, s') := by
  intro hevery
  have hrecord : Record Machine.x86_64.cbtree_geo64 (arena 1) oneStored _ :=
    Record.start.inserted (wordKey 5) 0x77#64 (by simp) (returned_eq_some.mp (by decide +kernel))
  obtain ⟨s', hrun⟩ := hevery oneStored _ hrecord (wordKey 5)
  have hleaf : returned (cbtreeLookup Machine.x86_64.cbtree_geo64 (wordKey 5) oneStored) =
      some 0x1000#64 := by decide +kernel
  rw [hrun] at hleaf
  have hvalue : valueOf (keyNum Machine.x86_64.cbtree_geo64 (wordKey 5))
      [(keyNum Machine.x86_64.cbtree_geo64 (wordKey 5), 0x77#64)] = 0x77#64 := by decide +kernel
  rw [hvalue] at hleaf
  exact absurd (Option.some.inj hleaf) (by decide)

end CachedBTree
