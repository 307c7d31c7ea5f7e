import CachedBTree.Caching.Lifecycle
import CachedBTree.Iteration.Cycling

/-! # `cbtree_for_each_safe` with a body that removes

The body may take out the entry it is called for: the next round goes on from the key, which
need not be stored any more.  A removal that returns writes to one leaf, so the walk behind it
finds the separators as they were. -/

namespace CachedBTree

open CachedBTree.Support

variable {w : Nat} {geo : Geo} {s s' s₀ : State w} {G : Labels w} {R : Rings w} {key : Words w} {val : Ptr w}

/-! ## The loop -/

/-- The rounds of the loop from a value and its key on, with a body. -/
def forEachSafeBodyLoop (geo : Geo) (body : Words w → Ptr w → State w → Except Fault (State w)) :
    Nat → Ptr w → Words w → State w → Except Fault (List (Words w × Ptr w) × State w)
  | 0, _, _, _ => .error .outOfFuel
  | fuel + 1, val, key, s =>
    if val = 0#w then .ok ([], s)
    else do
      let s ← body key val s
      let (prev, prevKey) ← cbtreeGetPrev geo key s
      let (rest, s) ← forEachSafeBodyLoop geo body fuel prev prevKey s
      .ok ((key, val) :: rest, s)

/-- `cbtree_for_each_safe` with a body, and the keys and values it goes through. -/
def cbtreeForEachSafeBody (geo : Geo) (body : Words w → Ptr w → State w → Except Fault (State w)) (key : Words w)
    (s : State w) : Except Fault (List (Words w × Ptr w) × State w) := do
  let (val, key) ← cbtreeLast geo key s
  forEachSafeBodyLoop geo body (2 ^ (w * geo.keylen) + 1) val key s

/-- A body that removes the entries it selects. -/
def removeSelected (geo : Geo) (selected : Words w → Ptr w → Bool) (key : Words w) (val : Ptr w) (s : State w) :
    Except Fault (State w) :=
  if selected key val then (cbtreeRemove geo (Reclaim.code geo) key s).map Prod.snd else .ok s

/-! ## A removal in the middle of the walk -/

/-- A removal of a stored key leaves the separators of the root. -/
theorem Warm.remove_separators {ret : Ptr w} (hN : 4 ≤ geo.noPairs) (h : Warm geo 1 1 s G R)
    (hstored : ¬Absent geo s key) (hrun : cbtreeRemove geo (Reclaim.code geo) key s = .ok (ret, s')) :
    zeroSeparator geo s' = zeroSeparator geo s := by
  obtain ⟨v, x, hx, hmem⟩ : ∃ v, PairAt G 1 (keyNum geo key, v) := by
    by_contra hnone
    exact hstored (h.tree.absent.mpr fun v hv => hnone ⟨v, hv⟩)
  have hh : 1 ≤ s.height := by have := h.tree.lvl_le x; omega
  obtain ⟨p, s₁, G₁, n, hfind, -, -, -, hcase⟩ := h.tree.removal (by omega) h.caches hh hrun
  -- the search has lowered no separator
  obtain ⟨hlo, hhi⟩ := h.tree.pair_interval (by omega) hmem
  have hto := h.tree.findLevel_to (reads_buf key) (by omega) (by omega) hlo hhi
  rw [hx, hfind] at hto
  obtain ⟨rfl, rfl⟩ := Prod.mk.inj (Except.ok.inj hto)
  rcases hcase with ⟨-, -, rfl⟩ | ⟨-, n', l', -, rfl, -⟩
  · rfl
  · have hhead : (s₁.setNode p n').toHead = s₁.toHead := rfl
    by_cases htwo : 2 ≤ s₁.height
    · have hroot := h.tree.root_lvl hh
      have hne : s₁.node ≠ p := by
        rintro rfl
        omega
      simp only [zeroSeparator, State.page, hhead, State.setNode_heap_ne n' hne]
    · simp [zeroSeparator, htwo]

/-- The next round after an entry that may have been removed. -/
theorem Tree.getPrev_behind {A B : Page w} {G : Labels w} (h : Tree geo 1 1 1 s G) (hes : entries geo s = A ++ B)
    (habove : ∀ e ∈ A, keyNum geo key ≤ e.1) (hbelow : ∀ e ∈ B, e.1 < keyNum geo key)
    (hends : B = [] → zeroSeparator geo s = false ∨ keyNum geo key = 0) :
    ∃ prev prevKey, cbtreeGetPrev geo key s = .ok (prev, prevKey) ∧
      (prev = 0#w ∧ B = [] ∨ ∃ B', B = (keyNum geo prevKey, prev) :: B') := by
  have hwraps : wrapsAround geo s key = false := by
    by_contra hwrap
    simp only [Bool.not_eq_false, wrapsAround, Bool.and_eq_true, decide_eq_true_eq, List.all_eq_true] at hwrap
    obtain ⟨⟨hkey, hsep⟩, hall⟩ := hwrap
    cases B with
    | nil =>
      rcases hends rfl with hno | hzero
      · rw [hsep] at hno
        cases hno
      · exact hkey hzero
    | cons e B =>
      have := hall e (by rw [hes]; simp)
      have := hbelow e List.mem_cons_self
      omega
  rcases (h.getPrev_isPrev_iff key le_rfl le_rfl).mpr hwraps with ⟨v, key', hrun, hmem, hlt, hgreatest⟩ | ⟨hall, hrun⟩
  · refine ⟨v, key', hrun, .inr ?_⟩
    have hin : (keyNum geo key', v) ∈ B := by
      rw [hes] at hmem
      cases List.mem_append.mp hmem with
      | inl hA =>
        have := habove _ hA
        simp only at this
        omega
      | inr hB => exact hB
    have hdesc := h.entries_descending
    rw [hes] at hdesc
    cases B with
    | nil => cases hin
    | cons e B =>
      cases List.mem_cons.mp hin with
      | inl heq => exact ⟨B, by rw [heq]⟩
      | inr htail =>
        have hless := (List.pairwise_cons.mp hdesc.of_append.2.1).1 _ htail
        have hle := hgreatest e (by rw [hes]; simp) (hbelow e List.mem_cons_self)
        simp only at hless
        omega
  · refine ⟨0#w, key, hrun, .inl ⟨rfl, List.eq_nil_iff_forall_not_mem.mpr fun e he => ?_⟩⟩
    have := hall e (by rw [hes]; simp [he])
    have := hbelow e he
    omega

/-! ## The whole loop -/

/-- No separator of the root is 0, or an entry with key 0 is still to come. -/
def Stops (geo : Geo) (s : State w) (es : Page w) : Prop := zeroSeparator geo s = false ∨ ∃ e ∈ es, e.1 = 0

theorem Stops.last {e : Nat × Ptr w} (h : Stops geo s [e]) : zeroSeparator geo s = false ∨ e.1 = 0 := by
  rcases h with hno | ⟨e', he, hzero⟩
  · exact .inl hno
  · rw [List.mem_singleton.mp he] at hzero
    exact .inr hzero

theorem Stops.tail {e e' : Nat × Ptr w} {B : Page w} (h : Stops geo s (e :: e' :: B)) (hlt : e'.1 < e.1) :
    Stops geo s (e' :: B) := by
  rcases h with hno | ⟨a, ha, hzero⟩
  · exact .inl hno
  · cases List.mem_cons.mp ha with
    | inl heq =>
      rw [heq] at hzero
      omega
    | inr hin => exact .inr ⟨a, hin, hzero⟩

/-- What the loop comes to that has the entries `B` before it and has left the entries `A` behind. -/
inductive Removes (geo : Geo) (selected : Words w → Ptr w → Bool) (s : State w) (A B : Page w) :
    Except Fault (List (Words w × Ptr w) × State w) → Prop where
  /-- It has gone through all entries, and those that are not selected are left. -/
  | ends (walk : List (Words w × Ptr w)) (s' : State w) (run : Run geo InsertsLooksUpRemoves s s')
      (walked : walk.map (fun e => (keyNum geo e.1, e.2)) = B)
      (left : entries geo s' = A ++ (walk.filter fun e => !selected e.1 e.2).map fun e => (keyNum geo e.1, e.2)) :
      Removes geo selected s A B (.ok (walk, s'))
  /-- The removal of an entry that is selected does not return. -/
  | faults (key : Words w) (val : Ptr w) (s₁ : State w) (f : Fault) (run : Run geo InsertsLooksUpRemoves s s₁)
      (mem : (keyNum geo key, val) ∈ entries geo s₁) (sel : selected key val = true)
      (fault : cbtreeRemove geo (Reclaim.code geo) key s₁ = .error f) : Removes geo selected s A B (.error f)

variable {selected : Words w → Ptr w → Bool}

/-- An entry that has been dealt with, in front of the others. -/
theorem Removes.cons {s₁ : State w} {A A₁ B : Page w} {x : Except Fault (List (Words w × Ptr w) × State w)}
    (h : Removes geo selected s₁ A₁ B x) (hrun : Run geo InsertsLooksUpRemoves s s₁)
    (hA : A₁ = A ++ if selected key val then [] else [(keyNum geo key, val)]) :
    Removes geo selected s A ((keyNum geo key, val) :: B) (x >>= fun r => .ok ((key, val) :: r.1, r.2)) := by
  cases h with
  | ends walk s' run walked left =>
    refine .ends ((key, val) :: walk) s' (hrun.trans run) (by rw [List.map_cons, walked]) ?_
    rw [left, hA]
    by_cases hsel : selected key val = true
    · simp [hsel]
    · simp [hsel]
  | faults key' val' s₂ f run mem sel fault => exact .faults key' val' s₂ f (hrun.trans run) mem sel fault

theorem Warm.removes (hN : 4 ≤ geo.noPairs) : ∀ (B A : Page w) (fuel : Nat) {val : Ptr w} {key : Words w} {s : State w}
    {G : Labels w} {R : Rings w}, Warm geo 1 1 s G R → entries geo s = A ++ (keyNum geo key, val) :: B →
    Stops geo s ((keyNum geo key, val) :: B) → B.length + 1 < fuel →
    Removes geo selected s A ((keyNum geo key, val) :: B)
      (forEachSafeBodyLoop geo (removeSelected geo selected) fuel val key s)
  | _, _, 0, _, _, _, _, _, _, _, _, hfuel => by omega
  | B, A, fuel + 1, val, key, s, G, R, hwarm, hes, hends, hfuel => by
    have hdesc := hwarm.tree.entries_descending
    have hmem : (keyNum geo key, val) ∈ entries geo s := by rw [hes]; simp
    have hval := hwarm.tree.entry_ne_null hmem
    rw [hes] at hdesc
    obtain ⟨-, htail, hcross⟩ := hdesc.of_append
    have habove : ∀ e ∈ A, keyNum geo key < e.1 := fun e he => hcross e he _ List.mem_cons_self
    have hbelow : ∀ e ∈ B, e.1 < keyNum geo key := (List.pairwise_cons.mp htail).1
    rw [forEachSafeBodyLoop, if_neg hval]
    -- the rounds behind the body
    have hrest : ∀ {s₁ : State w} {A₁ : Page w} {G₁ : Labels w}, Warm geo 1 1 s₁ G₁ R →
        Run geo InsertsLooksUpRemoves s s₁ →
        entries geo s₁ = A₁ ++ B → (∀ e ∈ A₁, keyNum geo key ≤ e.1) → zeroSeparator geo s₁ = zeroSeparator geo s →
        A₁ = A ++ (if selected key val then [] else [(keyNum geo key, val)]) →
        Removes geo selected s A ((keyNum geo key, val) :: B) (do
          let (prev, prevKey) ← cbtreeGetPrev geo key s₁
          let (rest, s) ← forEachSafeBodyLoop geo (removeSelected geo selected) fuel prev prevKey s₁
          .ok ((key, val) :: rest, s)) := by
      intro s₁ A₁ G₁ hwarm₁ hrun hes₁ habove₁ hsep hA₁
      have hends₁ : Stops geo s₁ ((keyNum geo key, val) :: B) := hends.imp_left hsep.trans
      obtain ⟨prev, prevKey, hprev, hcase⟩ := hwarm₁.tree.getPrev_behind hes₁ habove₁ hbelow
        fun hnil => Stops.last (hnil ▸ hends₁)
      rw [hprev, ok_bind]
      rcases hcase with ⟨rfl, rfl⟩ | ⟨B', rfl⟩
      · obtain ⟨fuel, rfl⟩ : ∃ f, fuel = f + 1 := ⟨fuel - 1, by omega⟩
        have hnil : Removes geo selected s₁ A₁ [] (.ok ([], s₁)) := .ends [] s₁ .refl rfl (by simpa using hes₁)
        exact hnil.cons hrun hA₁
      · have hlater := hends₁.tail (hbelow _ List.mem_cons_self)
        exact (Warm.removes hN B' A₁ fuel hwarm₁ hes₁ hlater (by simpa using hfuel)).cons hrun hA₁
    by_cases hsel : selected key val = true
    · unfold removeSelected
      rw [if_pos hsel]
      cases hremove : cbtreeRemove geo (Reclaim.code geo) key s with
      | error f => exact .faults key val s f .refl hmem hsel hremove
      | ok r =>
        obtain ⟨ret, s₁⟩ := r
        have hstored : ¬Absent geo s key := fun habsent => habsent _ hmem rfl
        obtain ⟨-, hes₁⟩ := hwarm.remove_stored hN hstored hremove
        obtain ⟨-, G₁, hwarm₁, -⟩ := hwarm.remove hN hremove
        have hcall : Run geo InsertsLooksUpRemoves s s₁ := .single ⟨.remove key, trivial, map_eq_ok.mpr ⟨ret, hremove⟩⟩
        have hleft : entries geo s₁ = A ++ B := by
          rw [hes₁, hes, List.filter_append, List.filter_cons_of_neg (by simp),
            List.filter_eq_self.mpr fun e he => by simpa using (habove e he).ne',
            List.filter_eq_self.mpr fun e he => by simpa using (hbelow e he).ne]
        exact hrest hwarm₁ hcall hleft (fun e he => (habove e he).le) (hwarm.remove_separators hN hstored hremove)
          (by simp [hsel])
    · unfold removeSelected
      rw [if_neg hsel]
      have hes' : entries geo s = (A ++ [(keyNum geo key, val)]) ++ B := by simpa using hes
      refine hrest hwarm .refl hes' (fun e he => ?_) rfl (by simp [hsel])
      cases List.mem_append.mp he with
      | inl he => exact (habove e he).le
      | inr he => rw [List.mem_singleton.mp he]

/-- The loop with a body that removes the entries it selects, whatever calls have led to the tree.  It goes
through all entries in descending order and leaves those that are not selected; or else the removal of one
that is selected does not return. -/
theorem cbtreeForEachSafe_removes (hN : 4 ≤ geo.noPairs) (h₀ : Blank s₀) (h : Run geo InsertsLooksUpRemoves s₀ s)
    (hends : endsWalk geo s = true) (selected : Words w → Ptr w → Bool) (key : Words w) :
    Removes geo selected s [] (entries geo s) (cbtreeForEachSafeBody geo (removeSelected geo selected) key s) := by
  obtain ⟨G, R, hhoused⟩ := housed_of_calls hN h₀ h
  have hwarm := hhoused.toWarm
  obtain ⟨val, key', hlast, hcase⟩ := hwarm.tree.cbtreeLast_entry (by omega) le_rfl le_rfl key
  rw [cbtreeForEachSafeBody, hlast, ok_bind]
  rcases hcase with ⟨rfl, hnil, -⟩ | ⟨B, hB⟩
  · rw [hnil]
    refine .ends [] s .refl rfl ?_
    simpa using hnil
  · have hstop : Stops geo s ((keyNum geo key', val) :: B) := by
      simpa [endsWalk, hB, Stops] using hends
    have hlt := keyNum_lt geo key'
    have hbound : geo.keyBound w = 2 ^ (w * geo.keylen) := (pow_mul 2 w geo.keylen).symm
    have hlength : B.length ≤ keyNum geo key' := Descending.length_le (hB ▸ hwarm.tree.entries_descending)
    rw [hB]
    exact Warm.removes hN B [] _ hwarm hB hstop (by omega)

/-- Keys 1 to 4 and 5 to 8 in two leaves, and two lookups. -/
def eightLookedUp : State 64 := Cmd.execAll Machine.x86_64.cbtree_geo64 InsertsLooksUpRemoves
  (eightInserts ++ [.lookup (wordKey 2), .lookup (wordKey 7)]) (arena 4)

theorem eightLookedUp_run : Run Machine.x86_64.cbtree_geo64 InsertsLooksUpRemoves (arena 4) eightLookedUp :=
  Cmd.run_execAll _ _ _ _

/-- One entry of each leaf is removed on the way. -/
theorem cbtreeForEachSafe_removes_two : ∃ walk s', cbtreeForEachSafeBody Machine.x86_64.cbtree_geo64
      (removeSelected Machine.x86_64.cbtree_geo64 fun key _ => key 0 = 6#64 || key 0 = 2#64) (wordKey 0)
      eightLookedUp = .ok (walk, s') ∧
    walk.map (fun e => (keyNum Machine.x86_64.cbtree_geo64 e.1, e.2)) =
      entries Machine.x86_64.cbtree_geo64 eightLookedUp := by
  have hok : faulted (cbtreeForEachSafeBody Machine.x86_64.cbtree_geo64
      (removeSelected Machine.x86_64.cbtree_geo64 fun key _ => key 0 = 6#64 || key 0 = 2#64) (wordKey 0)
      eightLookedUp) = none := by decide +kernel
  have hremoves := cbtreeForEachSafe_removes (by decide) (arena_blank 4) eightLookedUp_run (by decide +kernel)
    (fun key _ => key 0 = 6#64 || key 0 = 2#64) (wordKey 0)
  generalize cbtreeForEachSafeBody Machine.x86_64.cbtree_geo64
    (removeSelected Machine.x86_64.cbtree_geo64 fun key _ => key 0 = 6#64 || key 0 = 2#64) (wordKey 0)
    eightLookedUp = x at hok hremoves ⊢
  cases hremoves with
  | ends walk s' run walked left => exact ⟨walk, s', rfl, walked⟩
  | faults key val s₁ f run mem sel fault => cases hok

end CachedBTree
