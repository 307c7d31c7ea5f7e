import CachedBTree.Typed.Refinement
import CachedBTree.Iteration.Cycling

/-! # Going through a tree of typed keys

After every run of the functions for typed keys, `last`, `get_prev`, the loops and the visitors
speak of the table that the run has left. -/

namespace CachedBTree

open CachedBTree.Support

variable {κ : Type} [DecidableEq κ] {machine : Machine64} {K : KeyType machine κ} {s s₀ : State 64}
  {es : List (κ × Ptr 64)} {log : List (TableCall κ × Answer 64)}

/-! ## cbtree_last and cbtree_get_prev -/

omit [DecidableEq κ] in
/-- The greatest entry is read back as a key of the table. -/
theorem Tabled.last_entry (h : Tabled K s es) (key : κ) (stack : Words 64) :
    ∃ val key', K.last key stack s = .ok (val, key') ∧
      (val = 0#64 ∧ CachedBTree.entries K.geo s = [] ∧ (K.narrow = true → key' = key) ∨
        ∃ B, CachedBTree.entries K.geo s = (K.num key', val) :: B) := by
  have hN := K.four_le
  obtain ⟨⟨G, R, hwarm⟩, hperm⟩ := h
  obtain ⟨val, ws, hrun, hcase⟩ := hwarm.tree.cbtreeLast_entry (by omega) le_rfl le_rfl
    (if K.narrow then stack else localWords (K.words key) stack)
  have hcall : K.last key stack s = .ok (val, if K.narrow = true ∧ val = 0#64 then key else K.read ws) := by
    unfold KeyType.last
    cases hnarrow : K.narrow with
    | false =>
      simp only [hnarrow, Bool.false_eq_true, if_false] at hrun
      simp [hrun, ok_bind]
    | true =>
      simp only [hnarrow, if_true] at hrun
      by_cases hval : val = 0#64 <;> simp [hrun, ok_bind, hval]
  refine ⟨val, _, hcall, ?_⟩
  rcases hcase with ⟨rfl, hnil, -⟩ | ⟨B, hB⟩
  · exact .inl ⟨rfl, hnil, fun hnarrow => if_pos ⟨hnarrow, rfl⟩⟩
  · have hmem : (keyNum K.geo ws, val) ∈ CachedBTree.entries K.geo s := by rw [hB]; simp
    obtain ⟨-, hnum⟩ := KeyType.read_of_mem (hperm.mem_iff.mp hmem)
    rw [if_neg fun hboth => hwarm.tree.entry_ne_null hmem hboth.2, hnum]
    exact .inr ⟨B, hB⟩

/-- Through a local variable `cbtree_last` does what its comment says, also in a tree whose entries have all
been removed. -/
theorem typedLast_right (h₀ : Blank s₀) (h : Steps (TypedStep K) s₀ log s) (hnarrow : K.bits < 64) (key : κ)
    (stack : Words 64) : ∃ val key', K.last key stack s = .ok (val, key') ∧
      (table log = [] → val = 0#64 ∧ key' = key) ∧
      (table log ≠ [] → (key', val) ∈ table log ∧ ∀ e ∈ table log, K.num e.1 ≤ K.num key') := by
  obtain ⟨-, htabled⟩ := steps_tableStep h₀ h
  obtain ⟨⟨G, R, hwarm⟩, hperm⟩ := id htabled
  obtain ⟨val, key', hrun, hcase⟩ := htabled.last_entry key stack
  refine ⟨val, key', hrun, ?_⟩
  rcases hcase with ⟨hval, hnil, hkey⟩ | ⟨B, hB⟩
  · rw [hnil] at hperm
    have hes : table log = [] := List.map_eq_nil_iff.mp hperm.symm.eq_nil
    exact ⟨fun _ => ⟨hval, hkey (decide_eq_true hnarrow)⟩, fun hne => absurd hes hne⟩
  · have hmem : (key', val) ∈ table log := KeyType.mem_numbered.mp (hperm.mem_iff.mp (by rw [hB]; simp))
    refine ⟨fun hnil => absurd hmem (by simp [hnil]), fun _ => ⟨hmem, fun e he => ?_⟩⟩
    have hin : (K.num e.1, e.2) ∈ CachedBTree.entries K.geo s := hperm.mem_iff.mpr (KeyType.mem_numbered.mpr he)
    have hdesc := hwarm.tree.entries_descending
    rw [hB] at hin hdesc
    cases List.mem_cons.mp hin with
    | inl heq => exact (congrArg Prod.fst heq).le
    | inr hin => exact ((List.pairwise_cons.mp hdesc).1 _ hin).le

/-- Keys 10 to 80 of 32 bits in two leaves, and a lookup. -/
def run32 : List (TableCall (BitVec 32) × Answer 64) × State 64 :=
  typedAll Machine64.x86_64.keys32
    ((List.range 8).map (fun i => .insert (BitVec.ofNat 32 (10 * (i + 1))) (BitVec.ofNat 64 (0x71 + i))) ++
      [.lookup 30#32, .remove 80#32]) (arena 4)

theorem run32_steps : Steps (TypedStep Machine64.x86_64.keys32) (arena 4) run32.1 run32.2 := steps_typedAll _ _ _

/-- The table that is left. -/
def sevenLeft32 : List (BitVec 32 × Ptr 64) := [(70#32, 0x77#64), (60#32, 0x76#64), (50#32, 0x75#64),
  (40#32, 0x74#64), (30#32, 0x73#64), (20#32, 0x72#64), (10#32, 0x71#64)]

/-- One key is stored and removed again: the root is there still. -/
def emptied32 : List (TableCall (BitVec 32) × Answer 64) × State 64 :=
  typedAll Machine64.x86_64.keys32 [.insert 5#32 0x77#64, .remove 5#32] (arena 1)

theorem emptied32_steps : Steps (TypedStep Machine64.x86_64.keys32) (arena 1) emptied32.1 emptied32.2 :=
  steps_typedAll _ _ _

theorem typedLast_right_narrow :
    Machine64.x86_64.keys32.last 7#32 (fun _ => 0#64) run32.2 = .ok (0x77#64, 70#32) ∧
    emptied32.2.height = 1 ∧
    Machine64.x86_64.keys32.last 7#32 (fun _ => 0#64) emptied32.2 = .ok (0#64, 7#32) := by
  obtain ⟨val, key, hrun, -, hgreatest⟩ := typedLast_right (arena_blank 4) run32_steps (by decide) 7#32 fun _ => 0#64
  obtain ⟨val', key', hrun', hnone, -⟩ :=
    typedLast_right (arena_blank 1) emptied32_steps (by decide) 7#32 fun _ => 0#64
  have htable : table run32.1 = sevenLeft32 := by decide +kernel
  have hempty : table emptied32.1 = [] := by decide +kernel
  rw [htable] at hgreatest
  obtain ⟨rfl, rfl⟩ := hnone hempty
  obtain ⟨hmem, hall⟩ := hgreatest (by decide)
  have hseventy : Machine64.x86_64.keys32.num 70#32 ≤ Machine64.x86_64.keys32.num key :=
    hall (70#32, 0x77#64) (by simp [sevenLeft32])
  simp only [sevenLeft32, List.mem_cons, Prod.mk.injEq, List.not_mem_nil, or_false] at hmem
  rcases hmem with ⟨rfl, rfl⟩ | ⟨rfl, rfl⟩ | ⟨rfl, rfl⟩ | ⟨rfl, rfl⟩ | ⟨rfl, rfl⟩ | ⟨rfl, rfl⟩ | ⟨rfl, rfl⟩
  · exact ⟨hrun, by decide +kernel, hrun'⟩
  all_goals exact absurd hseventy (by decide)

/-- The greatest key of the table below the one given, or `NULL` and the key as it was. -/
def KeyType.IsPrev (K : KeyType machine κ) (es : List (κ × Ptr 64)) (key : κ)
    (result : Except Fault (Ptr 64 × κ)) : Prop :=
  (∃ val key', result = .ok (val, key') ∧ (key', val) ∈ es ∧ K.num key' < K.num key ∧
    ∀ e ∈ es, K.num e.1 < K.num key → K.num e.1 ≤ K.num key') ∨
  (∀ e ∈ es, K.num key ≤ K.num e.1) ∧ result = .ok (0#64, key)

omit [DecidableEq κ] in
/-- A call hands back what the call with words returns: an entry, or `NULL` and the key. -/
theorem Tabled.getPrev_returns (h : Tabled K s es) (key : κ) (stack : Words 64) : ∃ val ws,
      cbtreeGetPrev K.geo (localWords (K.words key) stack) s = .ok (val, ws) ∧
      K.getPrev key stack s = .ok (val, K.read ws) ∧
      (val = 0#64 ∧ ws = localWords (K.words key) stack ∧ K.read ws = key ∨
        (K.read ws, val) ∈ es ∧ (keyNum K.geo ws, val) ∈ CachedBTree.entries K.geo s ∧
          K.num (K.read ws) = keyNum K.geo ws) := by
  obtain ⟨⟨G, R, hwarm⟩, hperm⟩ := h
  obtain ⟨val, ws, hrun, hcase⟩ := hwarm.tree.getPrev_returns le_rfl le_rfl (localWords (K.words key) stack)
  refine ⟨val, ws, hrun, ?_, ?_⟩
  · unfold KeyType.getPrev
    rcases hcase with ⟨rfl, rfl⟩ | hmem
    · have hsame := K.read_of_num key _ (K.keyNum_words key stack)
      cases K.narrow <;> simp [hrun, ok_bind, hsame]
    · have hval := hwarm.tree.entry_ne_null hmem
      cases K.narrow <;> simp [hrun, ok_bind, hval]
  · rcases hcase with ⟨rfl, rfl⟩ | hmem
    · exact .inl ⟨rfl, rfl, K.read_of_num key _ (K.keyNum_words key stack)⟩
    · obtain ⟨hread, hnum⟩ := KeyType.read_of_mem (hperm.mem_iff.mp hmem)
      exact .inr ⟨hread, hmem, hnum⟩

omit [DecidableEq κ] in
theorem Tabled.getPrev_isPrev_iff (h : Tabled K s es) (key : κ) (stack : Words 64) :
    K.IsPrev es key (K.getPrev key stack s) ↔
      wrapsAround K.geo s (localWords (K.words key) stack) = false := by
  obtain ⟨val, ws, hrun, htyped, hcase⟩ := h.getPrev_returns key stack
  obtain ⟨⟨G, R, hwarm⟩, hperm⟩ := id h
  have hmem : ∀ e ∈ es, (K.num e.1, e.2) ∈ CachedBTree.entries K.geo s := fun e he =>
    hperm.mem_iff.mpr (KeyType.mem_numbered.mpr he)
  have hall : ∀ P : Nat → Prop, (∀ e ∈ CachedBTree.entries K.geo s, P e.1) ↔ ∀ e ∈ es, P (K.num e.1) := by
    intro P
    constructor
    · exact fun h e he => h _ (hmem e he)
    · intro h e he
      obtain ⟨e', he', rfl⟩ := List.mem_map.mp (hperm.mem_iff.mp he)
      exact h e' he'
  rw [← hwarm.tree.getPrev_isPrev_iff (localWords (K.words key) stack) le_rfl le_rfl]
  unfold KeyType.IsPrev CachedBTree.IsPrev
  rw [hrun, htyped, K.keyNum_words, hall (K.num key ≤ ·)]
  rcases hcase with ⟨rfl, rfl, hread⟩ | ⟨hread, hin, hnum⟩
  · -- no entry has the value NULL
    have hleft : ∀ val key', (Except.ok (0#64, K.read (localWords (K.words key) stack)) : Except Fault _) =
        .ok (val, key') → (key', val) ∉ es := by
      intro val key' heq hes
      obtain ⟨rfl, -⟩ := Prod.mk.inj (Except.ok.inj heq)
      exact hwarm.tree.entry_ne_null (hmem _ hes) rfl
    have hright : ∀ val ws, (Except.ok (0#64, localWords (K.words key) stack) : Except Fault _) =
        .ok (val, ws) → (keyNum K.geo ws, val) ∉ CachedBTree.entries K.geo s := by
      intro val ws heq hes
      obtain ⟨rfl, -⟩ := Prod.mk.inj (Except.ok.inj heq)
      exact hwarm.tree.entry_ne_null hes rfl
    constructor
    · rintro (⟨val, key', heq, hes, -⟩ | ⟨hbelow, -⟩)
      · exact absurd hes (hleft val key' heq)
      · exact .inr ⟨hbelow, rfl⟩
    · rintro (⟨val, ws, heq, hes, -⟩ | ⟨hbelow, -⟩)
      · exact absurd hes (hright val ws heq)
      · exact .inr ⟨hbelow, by rw [hread]⟩
  · have hval := hwarm.tree.entry_ne_null hin
    constructor
    · rintro (⟨val', key', heq, -, hlt, hgreatest⟩ | ⟨-, heq⟩)
      · obtain ⟨rfl, rfl⟩ := Prod.mk.inj (Except.ok.inj heq)
        rw [hnum] at hlt hgreatest
        exact .inl ⟨val, ws, rfl, hin, hlt, (hall fun n => n < K.num key → n ≤ keyNum K.geo ws).mpr hgreatest⟩
      · exact absurd (congrArg Prod.fst (Except.ok.inj heq)) hval
    · rintro (⟨val', ws', heq, -, hlt, hgreatest⟩ | ⟨-, heq⟩)
      · obtain ⟨rfl, rfl⟩ := Prod.mk.inj (Except.ok.inj heq)
        rw [← hnum] at hlt hgreatest
        exact .inl ⟨val, K.read ws, rfl, hread, hlt,
          (hall fun n => n < K.num key → n ≤ K.num (K.read ws)).mp hgreatest⟩
      · exact absurd (congrArg Prod.fst (Except.ok.inj heq)) hval

/-- `get_prev` does what the comment of `cbtree_get_prev` says unless the search wraps around. -/
theorem typedGetPrev_iff (h₀ : Blank s₀) (h : Steps (TypedStep K) s₀ log s) (key : κ) (stack : Words 64) :
    K.IsPrev (table log) key (K.getPrev key stack s) ↔
      wrapsAround K.geo s (localWords (K.words key) stack) = false :=
  (steps_tableStep h₀ h).2.getPrev_isPrev_iff key stack

/-- From the least key of the upper leaf to the greatest one of the lower leaf. -/
theorem typedGetPrev_iff_cached : Machine64.x86_64.keys64.IsPrev (table typedRun.1) 6#64
    (Machine64.x86_64.keys64.getPrev 6#64 (fun _ => 0#64) typedRun.2) :=
  (typedGetPrev_iff (arena_blank 4) typedRun_steps 6#64 fun _ => 0#64).mpr (by decide +kernel)

/-! ## cbtree_for_each_safe -/

omit [DecidableEq κ] in
/-- The walk leads through the table. -/
theorem Tabled.leadsOn (h : Tabled K s es) (stack : Words 64)
    (hends : zeroSeparator K.geo s = false ∨ ∃ e ∈ CachedBTree.entries K.geo s, e.1 = 0) :
    LeadsOn 0#64 (fun key => K.getPrev key stack s) K.num (CachedBTree.entries K.geo s) := by
  obtain ⟨⟨G, R, hwarm⟩, hperm⟩ := id h
  intro A key val B hes
  obtain ⟨val', ws, hrun, htyped, hcase⟩ := h.getPrev_returns key stack
  refine ⟨val', K.read ws, htyped, ?_⟩
  rw [← K.keyNum_words key stack] at hes
  obtain ⟨val₂, ws₂, hrun₂, hnext⟩ := hwarm.tree.leads le_rfl le_rfl hends A _ val B hes
  obtain ⟨rfl, rfl⟩ := Prod.mk.inj (Except.ok.inj (hrun.symm.trans hrun₂))
  rcases hnext with ⟨rfl, rfl⟩ | ⟨B', rfl⟩
  · exact .inl ⟨rfl, rfl⟩
  · rcases hcase with ⟨rfl, -⟩ | ⟨-, -, hnum⟩
    · have hnull : (keyNum K.geo ws, 0#64) ∈ CachedBTree.entries K.geo s := by rw [hes]; simp
      exact absurd rfl (hwarm.tree.entry_ne_null hnull)
    · exact .inr ⟨B', by rw [hnum]⟩

omit [DecidableEq κ] in
theorem Tabled.forEachSafe_ends (h : Tabled K s es) (key : κ) (stack : Words 64)
    (hends : endsWalk K.geo s = true) : ∃ walk, K.forEachSafe key stack s = .ok walk ∧ walk.Perm es ∧
      walk.Pairwise fun a b => K.num b.1 < K.num a.1 := by
  obtain ⟨⟨G, R, hwarm⟩, hperm⟩ := id h
  obtain ⟨val, key', hlast, hcase⟩ := h.last_entry key stack
  have hdesc := hwarm.tree.entries_descending
  rw [KeyType.forEachSafe, hlast, ok_bind]
  rcases hcase with ⟨rfl, hnil, -⟩ | ⟨B, hB⟩
  · rw [hnil] at hperm
    obtain rfl : es = [] := List.map_eq_nil_iff.mp hperm.symm.eq_nil
    exact ⟨[], by simp [walkLoop], .nil, .nil⟩
  · have hstop : zeroSeparator K.geo s = false ∨ ∃ e ∈ CachedBTree.entries K.geo s, e.1 = 0 := by
      simpa [endsWalk, hB] using hends
    have hlength : B.length ≤ K.num key' := Descending.length_le (hB ▸ hdesc)
    have hbound : K.num key' < 2 ^ (64 * K.geo.keylen) := by
      have hlt := keyNum_lt K.geo (localWords (K.words key') stack)
      rwa [K.keyNum_words, Geo.keyBound, ← pow_mul] at hlt
    obtain ⟨walk, hwalk, hmap⟩ := (h.leadsOn stack hstop).walkLoop Fault.outOfFuel
      (fun e he => hwarm.tree.entry_ne_null he) B [] (2 ^ (64 * K.geo.keylen) + 1) val key' hB (by omega)
    have hall : K.numbered walk = CachedBTree.entries K.geo s := hmap.trans hB.symm
    refine ⟨walk, hwalk, ?_, ?_⟩
    · exact (KeyType.numbered_perm K).mp (hall ▸ hperm)
    · rw [← hall] at hdesc
      exact List.pairwise_map.mp hdesc

omit [DecidableEq κ] in
theorem Tabled.forEachSafe_endless (h : Tabled K s es) (key : κ) (stack : Words 64)
    (hendless : endsWalk K.geo s = false) : ∃ val key', K.last key stack s = .ok (val, key') ∧
      ∀ fuel, walkLoop .outOfFuel 0#64 (fun key => K.getPrev key stack s) fuel val key' = .error Fault.outOfFuel := by
  obtain ⟨⟨G, R, hwarm⟩, hperm⟩ := id h
  have htree := hwarm.tree
  obtain ⟨val, key', hlast, hcase⟩ := h.last_entry key stack
  simp only [endsWalk, Bool.or_eq_false_iff, Bool.not_eq_false', List.any_eq_false, decide_eq_true_eq] at hendless
  obtain ⟨⟨hsome, hsep⟩, hnone⟩ := hendless
  rcases hcase with ⟨-, hnil, -⟩ | ⟨B, hB⟩
  · rw [hnil] at hsome
    cases hsome
  · have hfirst : (K.num key', val) ∈ CachedBTree.entries K.geo s := by rw [hB]; simp
    refine ⟨val, key', hlast, fun fuel =>
      walkLoop_stuck (fun e he => htree.entry_ne_null he) ?_ fuel val key' hfirst⟩
    intro key₁ val₁ hmem
    rw [← K.keyNum_words key₁ stack] at hmem
    obtain ⟨val₂, ws, hrun, htyped, hback⟩ := h.getPrev_returns key₁ stack
    obtain ⟨val₃, ws₃, hrun₃, hin⟩ := htree.leads_around le_rfl le_rfl hsep hnone _ _ hmem
    obtain ⟨rfl, rfl⟩ := Prod.mk.inj (Except.ok.inj (hrun.symm.trans hrun₃))
    refine ⟨val₂, K.read ws, htyped, ?_⟩
    rcases hback with ⟨rfl, -⟩ | ⟨-, -, hnum⟩
    · exact absurd rfl (htree.entry_ne_null hin)
    · rwa [hnum]

/-- The loop for typed keys goes through the table in descending order, whatever calls have led to it, or
else it never ends. -/
theorem typedForEachSafe_iff (h₀ : Blank s₀) (h : Steps (TypedStep K) s₀ log s) (key : κ) (stack : Words 64) :
    (endsWalk K.geo s = true → ∃ walk, K.forEachSafe key stack s = .ok walk ∧ walk.Perm (table log) ∧
      walk.Pairwise fun a b => K.num b.1 < K.num a.1) ∧
    (endsWalk K.geo s = false → ∃ val key', K.last key stack s = .ok (val, key') ∧
      ∀ fuel, walkLoop .outOfFuel 0#64 (fun key => K.getPrev key stack s) fuel val key' =
        .error Fault.outOfFuel) :=
  have htabled := (steps_tableStep h₀ h).2
  ⟨htabled.forEachSafe_ends key stack, htabled.forEachSafe_endless key stack⟩

/-- The seven entries in both leaves. -/
theorem typedForEachSafe_iff_cached : ∃ walk,
    Machine64.x86_64.keys64.forEachSafe 0#64 (fun _ => 0#64) typedRun.2 = .ok walk ∧ walk.length = 7 ∧
      walk.Perm (table typedRun.1) := by
  obtain ⟨walk, hrun, hperm, -⟩ := (typedForEachSafe_iff (arena_blank 4) typedRun_steps 0#64 fun _ => 0#64).1
    (by decide +kernel)
  exact ⟨walk, hrun, hperm.length_eq.trans (by decide +kernel), hperm⟩

/-! ## The visitors -/

/-- The visitor hands on the table in descending order, and returns how many entries there are. -/
theorem typedVisitor_calls (h₀ : Blank s₀) (h : Steps (TypedStep K) s₀ log s) (visitorl : Visitor κ)
    (hvisitorl : K.HandsOn visitorl) :
    ∃ calls, K.visitor visitorl s = .ok (calls, (table log).length) ∧
      (calls.map fun c => (c.key, c.elem)).Perm (table log) ∧
      calls.Pairwise (fun a b => K.num b.key < K.num a.key) ∧
      calls.map TypedVisit.index = List.range (table log).length := by
  obtain ⟨⟨G, R, hwarm⟩, hperm⟩ := (steps_tableStep h₀ h).2
  obtain ⟨seen, hrun, hcalls, hindex, hcount⟩ := hwarm.tree.visitor_entries
  have hlength : seen.count = (table log).length := by
    rw [hcount, hperm.length_eq, KeyType.numbered, List.length_map]
  -- the words handed on are read as keys of the table
  have hread : ∀ c ∈ seen.calls, K.num (K.read c.key) = keyNum K.geo c.key := fun c hc =>
    (KeyType.read_of_mem (hperm.mem_iff.mp (hcalls ▸ List.mem_map_of_mem hc))).2
  have hnumbered : (seen.calls.map fun c => (K.num (K.read c.key), c.elem)) = CachedBTree.entries K.geo s := by
    rw [← hcalls]
    exact List.map_congr_left fun c hc => by rw [hread c hc]
  have hone : (seen.calls.flatMap fun call => visitorl call.elem call.key call.index) =
      seen.calls.map fun c => ⟨c.elem, K.read c.key, c.index⟩ := by
    rw [List.map_eq_flatMap]
    exact List.flatMap_congr fun c _ => hvisitorl c.elem c.key c.index
  have hvisitor : K.visitor visitorl s = .ok
      (seen.calls.map fun c => { elem := c.elem, key := K.read c.key, index := c.index }, (table log).length) := by
    simp only [KeyType.visitor, hrun, ok_bind, hlength, hone]
  refine ⟨_, hvisitor, ?_, ?_, ?_⟩
  · refine (KeyType.numbered_perm K).mp ?_
    rw [List.map_map]
    have hsame : K.numbered (seen.calls.map fun c => (K.read c.key, c.elem)) = CachedBTree.entries K.geo s := by
      rw [KeyType.numbered, List.map_map]
      exact hnumbered
    rw [← hsame] at hperm
    exact hperm
  · have hdesc := hwarm.tree.entries_descending
    rw [← hnumbered] at hdesc
    exact List.pairwise_map.mpr (List.pairwise_map.mp hdesc)
  · rw [List.map_map, ← hlength, ← hindex]
    rfl

/-- The visitors of the source hand on what they are given. -/
theorem cvisitor_handsOn (machine : Machine64) : machine.keysl.HandsOn cvisitorl ∧
    machine.keys64.HandsOn cvisitorl ∧ machine.keys64.HandsOn cvisitor64 :=
  ⟨fun _ _ _ => rfl, fun _ _ _ => rfl, fun _ _ _ => rfl⟩

/-- Seven calls, with a `visitorl` that does what `cvisitorl` does. -/
theorem typedVisitor_calls_cached : ∃ calls,
    Machine64.x86_64.keys64.visitor cvisitorl typedRun.2 = .ok (calls, 7) ∧
    (calls.map fun c => (c.key, c.elem)).Perm (table typedRun.1) ∧
    calls.map TypedVisit.index = [0, 1, 2, 3, 4, 5, 6] := by
  have hlength : (table typedRun.1).length = 7 := by decide +kernel
  obtain ⟨calls, hrun, hperm, -, hindex⟩ :=
    typedVisitor_calls (arena_blank 4) typedRun_steps cvisitorl (cvisitor_handsOn Machine64.x86_64).2.1
  rw [hlength] at hrun hindex
  exact ⟨calls, hrun, hperm, hindex⟩

end CachedBTree
