import CachedBTree.Monitoring.Conservation

/-! # `print_ds_monitoring` after calls at the same time

Calls that overlap may lose visits.  The report on them still has each index that has been visited, once,
and no other, and no count or share in it is too high.  Its counts sum to the number of visits only if
each of them is right, so a reader of the report can tell. -/

namespace CachedBTree.Monitoring

open CachedBTree.Support

variable {w : Nat} {ε κ : Type} [Fintype κ] [DecidableEq κ] {ops : DsMonitoringOperations w ε} {elem : κ → ε}
  {s s' : Calls w κ} {c : κ} {addr : Ptr w} {i : Word w}

/-! ## When all calls have returned -/

omit [DecidableEq κ] in
theorem added_of_returned (hdone : ∀ c, s.phase c = .returned) (i : Word w) :
    added ops elem s i = callsFor ops elem i := by
  simp [added, callsFor, hdone, Phase.added]

omit [DecidableEq κ] in
theorem finished_of_returned (hdone : ∀ c, s.phase c = .returned) :
    finished ops elem s = ∑ i, callsFor ops elem i := by
  unfold callsFor
  rw [sum_card_filter_some]
  simp [finished, hdone]

omit [DecidableEq κ] in
/-- An index has an element if it has been visited. -/
theorem Conserved.elements_iff (h : Conserved ops elem s) (hdone : ∀ c, s.phase c = .returned) :
    s.dm.elements i ≠ 0#w ↔ 0 < callsFor ops elem i := by
  constructor
  · intro hi
    obtain ⟨e, he, rfl⟩ := h.stored i hi
    have hpos := h.counted _ e he
    have hle := visitsIn_le_recorded s.dm (s.dm.elements e.key) e.key
    rw [he, h.recorded, added_of_returned hdone] at hle
    simp only [visitsIn, if_true] at hle
    omega
  · intro hcalls
    obtain ⟨c, hc⟩ := Finset.card_pos.mp hcalls
    have hplaced := h.placed c
    rw [hdone c] at hplaced
    exact hplaced i (Finset.mem_filter.mp hc).2

omit [DecidableEq κ] in
/-- A visit may be missing from a counter; none is there twice. -/
theorem Conserved.countAt_le (h : Conserved ops elem s) (hdone : ∀ c, s.phase c = .returned) (i : Word w) :
    s.dm.countAt i ≤ callsFor ops elem i := by
  by_cases hi : s.dm.elements i = 0#w
  · simp [DsMonitoring.countAt, hi]
  · obtain ⟨e, he, rfl⟩ := h.stored i hi
    have hle := visitsIn_le_recorded s.dm (s.dm.elements e.key) e.key
    rw [he, h.recorded, added_of_returned hdone] at hle
    simpa [DsMonitoring.countAt, hi, he, visitsIn] using hle

omit [DecidableEq κ] in
/-- All visits are for indices of the array. -/
theorem Conserved.sum_callsFor (h : Conserved ops elem s) (hdone : ∀ c, s.phase c = .returned) :
    ((xaIndices s.dm.elements).map (callsFor ops elem)).sum = ∑ i, callsFor ops elem i := by
  rw [← List.sum_toFinset _ (nodup_xaIndices _)]
  refine Finset.sum_subset (Finset.subset_univ _) fun i _ hi => ?_
  rw [List.mem_toFinset, mem_xaIndices, h.elements_iff hdone] at hi
  omega

omit [DecidableEq κ] in
theorem Conserved.totalCounts_eq (h : Conserved ops elem s) (hfew : Fintype.card κ < 2 ^ 57)
    (hdone : ∀ c, s.phase c = .returned) :
    s.dm.totalCounts.toNat = ∑ i, callsFor ops elem i ∧ s.dm.totalCounts.toNat < 2 ^ 57 := by
  have hle : finished ops elem s ≤ Fintype.card κ := Finset.card_le_univ _
  have htotal : s.dm.totalCounts.toNat = finished ops elem s := by
    rw [h.total, BitVec.toNat_ofNat]
    exact Nat.mod_eq_of_lt (by omega)
  exact ⟨htotal.trans (finished_of_returned hdone), by omega⟩

/-! ## Names -/

/-- Each element has the name that one of the calls for its index gives. -/
def Named (ops : DsMonitoringOperations w ε) (elem : κ → ε) (dm : DsMonitoring w) : Prop :=
  ∀ p e, dm.heap p = some e →
    ∃ c, indexOf ops elem c = some e.key ∧ e.name = ops.getName.map fun getName => getName (elem c)

omit [Fintype κ] in
/-- What a step does to the elements in memory: nothing, or one gets another count, or one is made. -/
theorem step_heap (hstep : step ops elem c addr s = some s') : s'.dm.heap = s.dm.heap ∨
    (∃ cur e, s.dm.heap cur = some e ∧ s'.dm = s.dm.setElem cur { e with count := e.count + 1 }) ∨
    ∃ i, s.phase c = .insert i ∧
      s'.dm = s.dm.setElem addr ⟨i, ops.getName.map fun getName => getName (elem c), 1⟩ := by
  unfold Monitoring.step at hstep
  cases hphase : s.phase c with
  | call =>
    simp only [hphase] at hstep
    cases hget : ops.getIndex with
    | none =>
      simp only [hget] at hstep
      exact .inl (Option.some.inj hstep ▸ rfl)
    | some getIndex =>
      simp only [hget] at hstep
      exact .inl (Option.some.inj hstep ▸ rfl)
  | load i =>
    simp only [hphase] at hstep
    exact .inl (Option.some.inj hstep ▸ rfl)
  | found cur =>
    simp only [hphase] at hstep
    cases he : s.dm.heap cur with
    | none => simp [he] at hstep
    | some e =>
      simp only [he] at hstep
      exact .inr (.inl ⟨cur, e, he, Option.some.inj hstep ▸ rfl⟩)
  | insert i =>
    simp only [hphase] at hstep
    by_cases hbad : addr = 0#w ∨ (s.dm.heap addr).isSome
    · rw [if_pos hbad] at hstep
      cases hstep
    · rw [if_neg hbad] at hstep
      exact .inr (.inr ⟨i, rfl, Option.some.inj hstep ▸ rfl⟩)
  | store new =>
    simp only [hphase] at hstep
    cases he : s.dm.heap new with
    | none => simp [he] at hstep
    | some e =>
      simp only [he] at hstep
      exact .inl (Option.some.inj hstep ▸ rfl)
  | total =>
    simp only [hphase] at hstep
    exact .inl (Option.some.inj hstep ▸ rfl)
  | returned => simp [hphase] at hstep

omit [Fintype κ] [DecidableEq κ] in
theorem Named.setElem {dm : DsMonitoring w} {p : Ptr w} {new : DsMonitoringElem w} (h : Named ops elem dm)
    (hnew : ∃ c, indexOf ops elem c = some new.key ∧ new.name = ops.getName.map fun getName => getName (elem c)) :
    Named ops elem (dm.setElem p new) := by
  intro q e he
  by_cases hq : q = p
  · subst hq
    rw [dm.setElem_self q new] at he
    exact Option.some.inj he ▸ hnew
  · rw [DsMonitoring.setElem_of_ne hq] at he
    exact h q e he

theorem Named.step (h : Named ops elem s.dm) (hconserved : Conserved ops elem s)
    (hstep : step ops elem c addr s = some s') : Named ops elem s'.dm := by
  obtain hsame | ⟨cur, e, he, hdm⟩ | ⟨i, hphase, hdm⟩ := step_heap hstep
  · intro p e he
    exact h p e (hsame ▸ he)
  · rw [hdm]
    exact h.setElem (h cur e he)
  · rw [hdm]
    -- the index was taken from the element of the call
    have hplaced := hconserved.placed c
    rw [hphase] at hplaced
    exact h.setElem ⟨c, hplaced, rfl⟩

theorem named_of_interleaved (hfew : Fintype.card κ < 2 ^ 64)
    (h : Interleaved ops elem (fun _ _ => True) .init s) : Named ops elem s.dm := by
  induction h with
  | refl =>
    intro p e he
    cases he
  | tail hrun hlast ih =>
    obtain ⟨c, addr, -, hstep⟩ := hlast
    exact ih.step (conserved_of_interleaved hfew hrun) hstep

omit [Fintype κ] [DecidableEq κ] in
theorem mem_printLoop {dm : DsMonitoring w} {p : PrintElem w} {l : List (Word w)} {printed : List (PrintElem w)}
    (hprint : printLoop dm l = some printed) (hp : p ∈ printed) :
    ∃ e, dm.heap (dm.elements p.index) = some e ∧ p.name = e.name := by
  induction l generalizing printed with
  | nil =>
    cases hprint
    cases hp
  | cons i l ih =>
    cases he : dm.heap (dm.elements i) with
    | none => simp [printLoop, he] at hprint
    | some e =>
      cases hrest : printLoop dm l with
      | none => simp [printLoop, he, hrest] at hprint
      | some rest =>
        simp only [printLoop, he, hrest, Option.bind_eq_bind, Option.bind_some] at hprint
        rw [← Option.some.inj hprint] at hp
        cases List.mem_cons.mp hp with
        | inl hhead =>
          subst hhead
          exact ⟨e, he, rfl⟩
        | inr htail => exact ih hrest htail

/-! ## The report -/

/-- What the report says of the calls, lost visits or not. -/
structure ReportsVisited (ops : DsMonitoringOperations w ε) (elem : κ → ε) (printed : List (PrintElem w)) :
    Prop where
  once : (printed.map PrintElem.index).Nodup
  indices : ∀ i, i ∈ printed.map PrintElem.index ↔ 0 < callsFor ops elem i
  name : ∀ p ∈ printed, ∃ c, indexOf ops elem c = some p.index ∧
    p.name = ops.getName.map fun getName => getName (elem c)
  count : ∀ p ∈ printed, 0 < p.count.toNat ∧ p.count.toNat ≤ callsFor ops elem p.index
  share : ∀ p ∈ printed, p.percentage.toInt = ((p.count.toNat * 100 / ∑ i, callsFor ops elem i : Nat) : Int)
  whole : (printed.map fun p => p.percentage.toInt).sum ≤ 100
  right : (printed.map fun p => p.count.toNat).sum = ∑ i, callsFor ops elem i ↔
    ∀ p ∈ printed, p.count.toNat = callsFor ops elem p.index

/-- A call of `print_elem` for the element that its index leads to. -/
structure PrintedFrom (dm : DsMonitoring w) (p : PrintElem w) : Prop where
  elem : ∃ e, dm.heap (dm.elements p.index) = some e ∧ e.key = p.index ∧ p.name = e.name
  count : p.count.toNat = dm.countAt p.index
  visited : 0 < p.count.toNat
  percentage : p.percentage = (p.count * 100 / dm.totalCounts).setWidth 32

omit [DecidableEq κ] in
/-- The loop runs over the array; when there has been no visit, there is nothing in it. -/
theorem Conserved.print (h : Conserved ops elem s) (hfew : Fintype.card κ < 2 ^ 57)
    (hdone : ∀ c, s.phase c = .returned) :
    ∃ printed, printDsMonitoring true s.dm = some printed ∧
      printed.map PrintElem.index = xaIndices s.dm.elements ∧ ∀ p ∈ printed, PrintedFrom s.dm p := by
  -- the element at an index of the array
  have helem : ∀ i ∈ xaIndices s.dm.elements, ∃ e, s.dm.heap (s.dm.elements i) = some e ∧ e.key = i ∧
      e.count.toNat = s.dm.countAt i ∧ 0 < e.count.toNat := by
    intro i hi
    rw [mem_xaIndices] at hi
    obtain ⟨e, he, hkey⟩ := h.stored i hi
    exact ⟨e, he, hkey, by simp [DsMonitoring.countAt, hi, he], h.counted _ e he⟩
  obtain ⟨printed, hprint, hindices, hall⟩ := printLoop_eq s.dm (fun i => BitVec.ofNat 64 (s.dm.countAt i))
    fun i (hi : i ∈ xaIndices s.dm.elements) => by
      obtain ⟨e, he, -, hcount, -⟩ := helem i hi
      exact ⟨e, he, by rw [← hcount, BitVec.ofNat_toNat, BitVec.setWidth_eq]⟩
  refine ⟨printed, ?_, hindices, fun p hp => ?_⟩
  · unfold printDsMonitoring
    by_cases hzero : s.dm.totalCounts = 0
    · -- no visit, no element
      have hsum := (h.totalCounts_eq hfew hdone).1
      rw [hzero] at hsum
      have hnone : xaIndices s.dm.elements = [] := by
        refine List.eq_nil_iff_forall_not_mem.mpr fun i hi => ?_
        rw [mem_xaIndices, h.elements_iff hdone] at hi
        have hle := Finset.single_le_sum (f := callsFor ops elem) (fun _ _ => Nat.zero_le _) (Finset.mem_univ i)
        rw [← hsum] at hle
        exact absurd hi (Nat.not_lt.mpr hle)
      rw [if_pos (Or.inl hzero), ← hprint, hnone]
      rfl
    · rw [if_neg (not_or.mpr ⟨hzero, Bool.noConfusion⟩), hprint]
  · have hmem : p.index ∈ xaIndices s.dm.elements := hindices ▸ List.mem_map_of_mem hp
    obtain ⟨e, he, hkey, hcount, hpos⟩ := helem p.index hmem
    obtain ⟨e', he', hname⟩ := mem_printLoop hprint hp
    obtain rfl := Option.some.inj (he.symm.trans he')
    obtain ⟨heq, hshare⟩ := hall p hp
    have hsame : p.count.toNat = s.dm.countAt p.index := by
      rw [heq, ← hcount, BitVec.ofNat_toNat, BitVec.setWidth_eq]
    exact ⟨⟨e, he, hkey, hname⟩, hsame, by omega, hshare⟩

/-- The report after fewer than 2 ^ 57 calls, in whatever order their steps have been taken: one call of
`print_elem` for each index that has been visited, with a count that is not too high, and shares of all
visits that sum to at most 100.  The counts sum to the number of visits only if all of them are right. -/
theorem printDsMonitoring_reports_races (hfew : Fintype.card κ < 2 ^ 57)
    (h : Interleaved ops elem (fun _ _ => True) .init s) (hdone : ∀ c, s.phase c = .returned) :
    ∃ printed, printDsMonitoring true s.dm = some printed ∧ ReportsVisited ops elem printed := by
  have hconserved := conserved_of_interleaved (by omega) h
  obtain ⟨htotal, htotal57⟩ := hconserved.totalCounts_eq hfew hdone
  obtain ⟨printed, hprint, hindices, hall⟩ := hconserved.print hfew hdone
  have hle : ∀ i, s.dm.countAt i ≤ callsFor ops elem i := hconserved.countAt_le hdone
  have hsum := hconserved.sum_callsFor hdone
  have hnodup := nodup_xaIndices s.dm.elements
  -- what is printed, as functions of the index
  have hcounts : printed.map (fun p => p.count.toNat) = (xaIndices s.dm.elements).map s.dm.countAt := by
    rw [← hindices, List.map_map]
    exact List.map_congr_left fun p hp => (hall p hp).count
  have hcallsFor : ∀ p ∈ printed, callsFor ops elem p.index ≤ ∑ i, callsFor ops elem i := fun p _ =>
    Finset.single_le_sum (f := callsFor ops elem) (fun _ _ => Nat.zero_le _) (Finset.mem_univ p.index)
  have hshare : ∀ p ∈ printed,
      p.percentage.toInt = ((p.count.toNat * 100 / ∑ i, callsFor ops elem i : Nat) : Int) := by
    intro p hp
    have hcount := (hall p hp).count
    have hpos := (hall p hp).visited
    have hcalls := hcallsFor p hp
    have hlost := hle p.index
    rw [(hall p hp).percentage, ← htotal]
    exact (percentage_eq p.count s.dm.totalCounts (by omega) htotal57 (by omega)).1
  refine ⟨printed, hprint, ?_, fun i => ?_, fun p hp => ?_, fun p hp => ?_, hshare, ?_, ?_⟩
  · rw [hindices]
    exact hnodup
  · rw [hindices, mem_xaIndices, hconserved.elements_iff hdone]
  · obtain ⟨e, he, hkey, hname⟩ := (hall p hp).elem
    obtain ⟨c, hindex, hgiven⟩ := named_of_interleaved (by omega) h _ e he
    exact ⟨c, hkey ▸ hindex, hname.trans hgiven⟩
  · exact ⟨(hall p hp).visited, (hall p hp).count ▸ hle p.index⟩
  · have hshares : printed.map (fun p => p.percentage.toInt) = ((xaIndices s.dm.elements).map fun i =>
        s.dm.countAt i * 100 / ∑ j, callsFor ops elem j).map fun n : Nat => (n : Int) := by
      rw [← hindices, List.map_map, List.map_map]
      refine List.map_congr_left fun p hp => ?_
      rw [hshare p hp, (hall p hp).count]
      rfl
    have hwhole := sum_div_le s.dm.countAt (∑ j, callsFor ops elem j) (xaIndices s.dm.elements)
    have hless : ((xaIndices s.dm.elements).map s.dm.countAt).sum ≤ ∑ j, callsFor ops elem j := by
      rw [← hsum]
      exact List.sum_le_sum fun i _ => hle i
    have hhundred := Nat.div_le_of_le_mul (Nat.mul_le_mul_right 100 hless)
    rw [hshares, ← Nat.cast_list_sum]
    omega
  · rw [hcounts, ← hsum, sum_map_eq_iff hnodup fun i _ => hle i, ← hindices]
    constructor
    · intro hright p hp
      rw [(hall p hp).count]
      exact hright p.index (List.mem_map_of_mem hp)
    · intro hright i hi
      obtain ⟨p, hp, rfl⟩ := List.mem_map.mp hi
      rw [← (hall p hp).count]
      exact hright p hp

/-- Two calls for one index that both find no element. -/
def bothMake : Calls 3 Bool :=
  runAll ownIndex (fun _ => 5#3) (fun _ _ => True)
    [(false, 0#3), (false, 0#3), (true, 0#3), (true, 0#3), (false, 1#3), (true, 2#3), (false, 0#3), (true, 0#3),
      (false, 0#3), (true, 0#3)] .init

theorem bothMake_interleaved : Interleaved ownIndex (fun _ => 5#3) (fun _ _ => True) .init bothMake :=
  interleaved_runAll _ _ _ _ _

/-- One visit of two, a share of 50: the counts do not sum to the total. -/
theorem printDsMonitoring_reports_races_two :
    printDsMonitoring true bothMake.dm = some [⟨5#3, none, 1, 50⟩] ∧
      ReportsVisited ownIndex (fun _ : Bool => 5#3) [⟨5#3, none, 1, 50⟩] := by
  have hprint : printDsMonitoring true bothMake.dm = some [⟨5#3, none, 1, 50⟩] := by decide +kernel
  obtain ⟨printed, heq, hreports⟩ := printDsMonitoring_reports_races (by simp) bothMake_interleaved
    (by decide +kernel)
  rw [hprint] at heq
  exact ⟨hprint, Option.some.inj heq ▸ hreports⟩

end CachedBTree.Monitoring
