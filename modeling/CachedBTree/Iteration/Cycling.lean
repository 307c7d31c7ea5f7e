import CachedBTree.Iteration.Walk
import CachedBTree.Support.Walks

/-! # When `cbtree_for_each_safe` ends

In a tree that has had key 0 below an inner root, `cbtree_get_prev` leads from the smallest key back to
the greatest one.  The loop then goes round all entries for ever, unless key 0 is still stored:
there `keyzero` stops it.  The walk of `cbtree_visitor` does not depend on the separators. -/

namespace CachedBTree

open CachedBTree.Support

variable {w : Nat} {geo : Geo} {s s' s₀ : State w} {G : Labels w} {m r : Nat} {key : Words w} {v : Ptr w}

/-! ## One round -/

/-- A list is split in one way only into what satisfies a predicate and what begins with something that
does not. -/
theorem append_unique {α : Type} {p : α → Prop} {b b' : α} : ∀ {A A' B B' : List α},
    A ++ b :: B = A' ++ b' :: B' → (∀ a ∈ A, p a) → (∀ a ∈ A', p a) → ¬p b → ¬p b' → A = A' ∧ b :: B = b' :: B'
  | [], [], _, _, h, _, _, _, _ => ⟨rfl, h⟩
  | [], a' :: A', _, _, h, _, hA', hb, _ => by
    obtain ⟨rfl, -⟩ := List.cons.inj h
    exact absurd (hA' _ List.mem_cons_self) hb
  | a :: A, [], _, _, h, hA, _, _, hb' => by
    obtain ⟨rfl, -⟩ := List.cons.inj h
    exact absurd (hA _ List.mem_cons_self) hb'
  | a :: A, a' :: A', _, _, h, hA, hA', hb, hb' => by
    obtain ⟨rfl, hrest⟩ := List.cons.inj h
    obtain ⟨rfl, hsame⟩ := append_unique hrest (fun x hx => hA x (List.mem_cons_of_mem _ hx))
      (fun x hx => hA' x (List.mem_cons_of_mem _ hx)) hb hb'
    exact ⟨rfl, hsame⟩

/-- What `cbtree_get_prev` makes of a stored key: the next entry; behind the last one the first, when the root
has a separator of key 0 and the key is not 0 itself; or else `NULL`. -/
inductive RoundCase (geo : Geo) (s : State w) (key : Words w) (es : Page w) : Page w → Prop
  | next (v' : Ptr w) (key' : Words w) (B : Page w) (run : cbtreeGetPrev geo key s = .ok (v', key')) :
    RoundCase geo s key es ((keyNum geo key', v') :: B)
  | wrap (v' : Ptr w) (key' : Words w) (B : Page w) (run : cbtreeGetPrev geo key s = .ok (v', key'))
    (split : es = (keyNum geo key', v') :: B) (sep : zeroSeparator geo s = true) (ne : keyNum geo key ≠ 0) :
    RoundCase geo s key es []
  | stop (run : cbtreeGetPrev geo key s = .ok (0#w, key))
    (ends : zeroSeparator geo s = false ∨ keyNum geo key = 0) : RoundCase geo s key es []

/-- The call, once the search below the key has returned. -/
theorem cbtreeGetPrev_of_retry {res : Option (Ptr w × Words w)} (hkey : keyNum geo key ≠ 0) (hh : s.height ≠ 0)
    (hrun : getPrevRetry geo s (2 ^ (w * geo.keylen) + 1) key = .ok res) :
    cbtreeGetPrev geo key s =
      .ok (res.elim (0#w, key) fun found => (found.1, longcpy key 0 found.2 geo.keylen)) := by
  rw [cbtreeGetPrev, if_neg fun hzero => hkey (keyzero_eq_true.mp hzero), if_neg hh, hrun, ok_bind]
  cases res <;> rfl

/-- `cbtree_get_prev` returns an entry, or else `NULL` and the key as it was. -/
theorem Tree.getPrev_returns (h : Tree geo m r 1 s G) (hm : 1 ≤ m) (hr : 1 ≤ r) (key : Words w) :
    ∃ v key', cbtreeGetPrev geo key s = .ok (v, key') ∧
      (v = 0#w ∧ key' = key ∨ (keyNum geo key', v) ∈ entries geo s) := by
  by_cases hzero : keyNum geo key = 0
  · exact ⟨0#w, key, by rw [cbtreeGetPrev, if_pos (keyzero_eq_true.mpr hzero)], .inl ⟨rfl, rfl⟩⟩
  by_cases hh : s.height = 0
  · refine ⟨0#w, key, ?_, .inl ⟨rfl, rfl⟩⟩
    rw [cbtreeGetPrev, if_neg fun hkey => hzero (keyzero_eq_true.mp hkey), if_pos hh]
  have hbound : geo.keyBound w = 2 ^ (w * geo.keylen) := (pow_mul 2 w geo.keylen).symm
  have hlt := keyNum_lt geo key
  obtain ⟨res, hrun, hres⟩ := getPrevRetry_found h hm hr (by omega) (keyNum geo key)
    (2 ^ (w * geo.keylen) + 1) rfl (by omega) (by omega)
  have hcall := cbtreeGetPrev_of_retry hzero hh hrun
  split at hres
  next =>
    obtain ⟨v, k, B, rfl, hfirst⟩ := hres
    refine ⟨v, longcpy key 0 k geo.keylen, hcall, .inr ?_⟩
    rw [keyNum_longcpy, hfirst]
    exact List.mem_cons_self
  next =>
    cases hres with
    | none hall => exact ⟨0#w, key, hcall, .inl ⟨rfl, rfl⟩⟩
    | prev v k A B split above lt =>
      refine ⟨v, longcpy key 0 k geo.keylen, hcall, .inr ?_⟩
      rw [keyNum_longcpy, split]
      simp

theorem Tree.getPrev_round (h : Tree geo m r 1 s G) (hm : 1 ≤ m) (hr : 1 ≤ r) {A B : Page w}
    (hes : entries geo s = A ++ (keyNum geo key, v) :: B) : RoundCase geo s key (entries geo s) B := by
  have hdesc := h.entries_descending
  rw [hes] at hdesc
  have hbelow : ∀ e ∈ B, e.1 < keyNum geo key := fun e he => (List.pairwise_cons.mp hdesc.of_append.2.1).1 e he
  have habove : ∀ e ∈ A ++ [(keyNum geo key, v)], keyNum geo key ≤ e.1 := by
    intro e he
    cases List.mem_append.mp he with
    | inl he => exact (hdesc.of_append.2.2 e he (keyNum geo key, v) (by simp)).le
    | inr he => rw [List.mem_singleton.mp he]
  have hh : s.height ≠ 0 := by
    intro hh
    rw [entries, hh, entriesBelow] at hes
    simp at hes
  by_cases hzero : keyNum geo key = 0
  · have hnil : B = [] := List.eq_nil_iff_forall_not_mem.mpr fun e he => by have := hbelow e he; omega
    rw [hnil]
    exact .stop (by rw [cbtreeGetPrev, if_pos (keyzero_eq_true.mpr hzero)]) (.inr hzero)
  have hbound : geo.keyBound w = 2 ^ (w * geo.keylen) := (pow_mul 2 w geo.keylen).symm
  have hlt := keyNum_lt geo key
  obtain ⟨res, hrun, hres⟩ := getPrevRetry_found h hm hr (by omega) (keyNum geo key)
    (2 ^ (w * geo.keylen) + 1) rfl (by omega) (by omega)
  have hcall := cbtreeGetPrev_of_retry hzero hh hrun
  split at hres
  next hwrap =>
    -- no entry is below the key, so it is the last one
    have hnil : B = [] := List.eq_nil_iff_forall_not_mem.mpr fun e he => by
      have := hbelow e he
      have := hwrap.2 e (by rw [hes]; simp [he])
      omega
    obtain ⟨v', k, B', rfl, hfirst⟩ := hres
    rw [hnil]
    exact .wrap v' (longcpy key 0 k geo.keylen) B' hcall (by rw [keyNum_longcpy, hfirst]) hwrap.1 hzero
  next hwrap =>
    cases hres with
    | none hall =>
      have hnil : B = [] := List.eq_nil_iff_forall_not_mem.mpr fun e he => by
        have := hbelow e he
        have := hall e (by rw [hes]; simp [he])
        omega
      rw [hnil]
      refine .stop hcall (.inl ?_)
      rw [← Bool.not_eq_true]
      exact fun hsep => hwrap ⟨hsep, hall⟩
    | prev v' k A' B' split above lt =>
      cases B with
      | nil =>
        have := habove (keyNum geo k, v') (by rw [← hes, split]; simp)
        simp only at this
        omega
      | cons e B =>
        have hsplit : (A ++ [(keyNum geo key, v)]) ++ e :: B = A' ++ (keyNum geo k, v') :: B' := by
          rw [List.append_assoc, List.singleton_append, ← hes, split]
        have he := hbelow e List.mem_cons_self
        obtain ⟨-, hsame⟩ := append_unique (p := fun a => keyNum geo key ≤ a.1) hsplit habove above (by omega)
          (by simp only; omega)
        rw [hsame, ← keyNum_longcpy key k]
        exact .next v' (longcpy key 0 k geo.keylen) B' hcall

/-! ## The loop -/

/-- The loop comes to an end: nothing is stored, no separator of the root is 0, or key 0 is stored. -/
def endsWalk (geo : Geo) (s : State w) : Bool :=
  (entries geo s).isEmpty || !zeroSeparator geo s || (entries geo s).any fun e => decide (e.1 = 0)

theorem forEachSafeLoop_eq (geo : Geo) (s : State w) : ∀ (fuel : Nat) (val : Ptr w) (key : Words w),
    forEachSafeLoop geo s fuel val key =
      walkLoop .outOfFuel 0#w (fun key => cbtreeGetPrev geo key s) fuel val key
  | 0, _, _ => rfl
  | fuel + 1, val, key => by
    simp only [forEachSafeLoop, walkLoop, forEachSafeLoop_eq geo s fuel]

/-- No entry is passed over, and the last one ends the walk. -/
theorem Tree.leads (h : Tree geo m r 1 s G) (hm : 1 ≤ m) (hr : 1 ≤ r)
    (hends : zeroSeparator geo s = false ∨ ∃ e ∈ entries geo s, e.1 = 0) :
    LeadsOn 0#w (fun key => cbtreeGetPrev geo key s) (keyNum geo) (entries geo s) := by
  intro A key v B hes
  cases h.getPrev_round hm hr hes with
  | next v' key' B' hrun => exact ⟨v', key', hrun, .inr ⟨B', rfl⟩⟩
  | wrap v' key' B' hrun hfirst hsep hkey =>
    -- key 0 would stand behind the key
    obtain ⟨e, he, hezero⟩ := hends.resolve_left (by simp [hsep])
    have hdesc := h.entries_descending
    rw [hes] at he hdesc
    cases List.mem_append.mp he with
    | inl he =>
      have := hdesc.of_append.2.2 e he (keyNum geo key, v) (by simp)
      omega
    | inr he =>
      rw [List.mem_singleton.mp he] at hezero
      exact absurd hezero hkey
  | stop hrun _ => exact ⟨0#w, key, hrun, .inl ⟨rfl, rfl⟩⟩

/-- In the other case each round leads to an entry. -/
theorem Tree.leads_around (h : Tree geo m r 1 s G) (hm : 1 ≤ m) (hr : 1 ≤ r) (hsep : zeroSeparator geo s = true)
    (hnone : ∀ e ∈ entries geo s, e.1 ≠ 0) (key : Words w) (v : Ptr w) (he : (keyNum geo key, v) ∈ entries geo s) :
    ∃ v' key', cbtreeGetPrev geo key s = .ok (v', key') ∧ (keyNum geo key', v') ∈ entries geo s := by
  obtain ⟨A, B, hes⟩ := List.append_of_mem he
  cases h.getPrev_round hm hr hes with
  | next v' key' B' hrun => exact ⟨v', key', hrun, by rw [hes]; simp⟩
  | wrap v' key' B' hrun hfirst _ _ => exact ⟨v', key', hrun, by rw [hfirst]; simp⟩
  | stop _ ends =>
    cases ends with
    | inl hno =>
      rw [hsep] at hno
      cases hno
    | inr hzero => exact absurd hzero (hnone _ he)

/-! ## All runs -/

/-- The calls of the visitor are one for each entry, counted from 0. -/
theorem Tree.visitor_entries (h : Tree geo m r 1 s G) : ∃ seen, cbtreeVisitor geo s = .ok (seen, s) ∧
    seen.calls.map (fun c => (keyNum geo c.key, c.elem)) = entries geo s ∧
    seen.calls.map Visit.index = List.range seen.count ∧ seen.count = (entries geo s).length := by
  obtain ⟨seen, hrun, hvisited⟩ := h.cbtreeVisitor_visited
  obtain ⟨new, hcalls, hes, hindex⟩ := hvisited.calls
  have hcount := hvisited.count
  simp only [List.nil_append, Nat.zero_add] at hcalls hcount hindex
  rw [← hcalls] at hes hindex
  exact ⟨seen, hrun, hes, by rw [hindex, hcount, List.range_eq_range'], hcount⟩

/-- After insertions and removals in any order the visitor hands on all entries in descending order, and the
loop of `cbtree_for_each_safe` goes through the same ones exactly when it ends.  Where it does not end, no
number of rounds is enough. -/
theorem cbtreeForEachSafe_iff (hN : 4 ≤ geo.noPairs) (h₀ : Blank s₀) (h : Run geo InsertsRemoves s₀ s)
    (key : Words w) : Descending (entries geo s) ∧
    (∃ seen, cbtreeVisitor geo s = .ok (seen, s) ∧
      seen.calls.map (fun c => (keyNum geo c.key, c.elem)) = entries geo s ∧
      seen.calls.map Visit.index = List.range seen.count ∧ seen.count = (entries geo s).length) ∧
    (endsWalk geo s = true → ∃ walk, cbtreeForEachSafe geo key s = .ok walk ∧
      walk.map (fun e => (keyNum geo e.1, e.2)) = entries geo s) ∧
    (endsWalk geo s = false → ∃ v key', cbtreeLast geo key s = .ok (v, key') ∧
      ∀ fuel, forEachSafeLoop geo s fuel v key' = .error .outOfFuel) := by
  obtain ⟨G, R, hwarm⟩ := warm_of_inserts_removes hN h₀ h
  have htree := hwarm.tree
  obtain ⟨v, key', hlast, hcase⟩ := htree.cbtreeLast_entry (by omega) le_rfl le_rfl key
  refine ⟨htree.entries_descending, htree.visitor_entries, fun hends => ?_, fun hendless => ?_⟩
  · rw [cbtreeForEachSafe, hlast, ok_bind]
    rcases hcase with ⟨rfl, hnil, -⟩ | ⟨B, hB⟩
    · exact ⟨[], by simp [forEachSafeLoop], hnil.symm⟩
    · have hbound : geo.keyBound w = 2 ^ (w * geo.keylen) := (pow_mul 2 w geo.keylen).symm
      have hlt := keyNum_lt geo key'
      have hstop : zeroSeparator geo s = false ∨ ∃ e ∈ entries geo s, e.1 = 0 := by
        simpa [endsWalk, hB] using hends
      have hdesc := htree.entries_descending
      rw [hB] at hdesc
      have hlength : B.length ≤ keyNum geo key' := Descending.length_le hdesc
      obtain ⟨walk, hwalk, hmap⟩ := (htree.leads le_rfl le_rfl hstop).walkLoop Fault.outOfFuel
        (fun e he => htree.entry_ne_null he) B [] (2 ^ (w * geo.keylen) + 1) v key' hB (by omega)
      exact ⟨walk, (forEachSafeLoop_eq geo s _ v key').trans hwalk, hmap.trans hB.symm⟩
  · simp only [endsWalk, Bool.or_eq_false_iff, Bool.not_eq_false', List.any_eq_false, decide_eq_true_eq] at hendless
    obtain ⟨⟨hsome, hsep⟩, hnone⟩ := hendless
    rcases hcase with ⟨-, hnil, -⟩ | ⟨B, hB⟩
    · rw [hnil] at hsome
      cases hsome
    · exact ⟨v, key', hlast, fun fuel => (forEachSafeLoop_eq geo s fuel v key').trans
        (walkLoop_stuck (fun e he => htree.entry_ne_null he)
          (htree.leads_around le_rfl le_rfl hsep hnone) fuel v key' (by rw [hB]; simp))⟩

/-- Eight entries are left when key 0 has been removed again. -/
theorem cbtreeForEachSafe_iff_zero_removed : (entries Machine.x86_64.cbtree_geo64 zeroRemoved).length = 8 ∧
    ∃ v key', cbtreeLast Machine.x86_64.cbtree_geo64 (wordKey 0) zeroRemoved = .ok (v, key') ∧
      ∀ fuel, forEachSafeLoop Machine.x86_64.cbtree_geo64 zeroRemoved fuel v key' = .error .outOfFuel :=
  ⟨by decide +kernel, (cbtreeForEachSafe_iff (by decide) (arena_blank 4) zeroRemoved_run (wordKey 0)).2.2.2
    (by decide +kernel)⟩

end CachedBTree
