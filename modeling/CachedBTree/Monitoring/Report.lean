import CachedBTree.Model.Monitoring
import Mathlib.Algebra.BigOperators.Group.Finset.Basic
import Mathlib.Algebra.BigOperators.Group.Finset.Lemmas
import Mathlib.Algebra.BigOperators.Ring.Finset
import Mathlib.Data.BitVec

/-! # `print_ds_monitoring` after calls one after another

Calls that do not overlap count every visit: each index that has occurred has its own element, whose
count is the number of its calls, and the total is the number of all calls.  The shares that are
printed are rounded down, so together they are not more than the whole. -/

namespace CachedBTree.Monitoring

open Relation

variable {w : Nat} {ε κ : Type} {ops : DsMonitoringOperations w ε} {getIndex : ε → Word w} {dm dm' : DsMonitoring w}
  {elem : ε} {addr : Ptr w} {visited : List (Word w)}

/-! ## One call -/

/-- The monitor after calls for the indices `visited`. -/
structure Tallied (visited : List (Word w)) (dm : DsMonitoring w) : Prop where
  stored : ∀ i ∈ visited, dm.elements i ≠ 0#w ∧ ∃ e, dm.heap (dm.elements i) = some e ∧ e.key = i ∧
    e.count = BitVec.ofNat 64 (visited.count i)
  unseen : ∀ i, i ∉ visited → dm.elements i = 0#w
  total : dm.totalCounts = BitVec.ofNat 64 visited.length

theorem tallied_init : Tallied ([] : List (Word w)) .init where
  stored := fun _ hi => absurd hi List.not_mem_nil
  unseen := fun _ _ => rfl
  total := rfl

/-- The `kmalloc` of a call succeeds, if the call comes to it. -/
def Allocates (getIndex : ε → Word w) (elem : ε) (addr : Ptr w) (dm : DsMonitoring w) : Prop :=
  dm.elements (getIndex elem) = 0#w → addr ≠ 0#w ∧ dm.heap addr = none

/-- A call for an index that has occurred adds one to its element. -/
theorem Tallied.found {i : Word w} (h : Tallied visited dm) (hi : i ∈ visited) : ∃ e,
    dm.heap (dm.elements i) = some e ∧ dm.elements i ≠ 0#w ∧
      Tallied (visited ++ [i]) { dm.setElem (dm.elements i) { e with count := e.count + 1 } with
        totalCounts := dm.totalCounts + 1 } := by
  obtain ⟨hne, e, he, hkey, hcount⟩ := h.stored i hi
  refine ⟨e, he, hne, ?_, ?_, ?_⟩
  · intro j hj
    have hmem : j ∈ visited := by
      cases List.mem_append.mp hj with
      | inl hj => exact hj
      | inr hj => exact List.mem_singleton.mp hj ▸ hi
    obtain ⟨hnej, e', he', hkey', hcount'⟩ := h.stored j hmem
    by_cases hij : j = i
    · subst hij
      refine ⟨hne, _, dm.setElem_self _ _, hkey, ?_⟩
      rw [List.count_append, List.count_singleton_self, hcount, BitVec.ofNat_add]
      rfl
    · -- an element records the index it was made for, so two indices have two elements
      have hapart : dm.elements j ≠ dm.elements i := by
        intro heq
        rw [heq, he] at he'
        exact hij (hkey'.symm.trans (Option.some.inj he' ▸ hkey))
      refine ⟨hnej, e', (DsMonitoring.setElem_of_ne hapart).trans he', hkey', ?_⟩
      rw [List.count_append, List.count_singleton, if_neg (by simpa using fun heq => hij heq.symm), Nat.add_zero]
      exact hcount'
  · intro j hj
    exact h.unseen j fun hmem => hj (List.mem_append_left _ hmem)
  · rw [List.length_append, List.length_singleton, BitVec.ofNat_add]
    exact congrArg (· + 1) h.total

/-- A call for a new index stores an element of its own. -/
theorem Tallied.made {i : Word w} (name : Option String) (h : Tallied visited dm) (hi : i ∉ visited)
    (hne : addr ≠ 0#w) (hfree : dm.heap addr = none) :
    Tallied (visited ++ [i]) { (dm.setElem addr ⟨i, name, 1⟩).xaStore i addr with
      totalCounts := dm.totalCounts + 1 } := by
  refine ⟨?_, ?_, ?_⟩
  · intro j hj
    by_cases hij : j = i
    · subst hij
      have hstore : ((dm.setElem addr ⟨j, name, 1⟩).xaStore j addr).elements j = addr :=
        DsMonitoring.xaStore_self _ _ _
      simp only [hstore]
      refine ⟨hne, _, dm.setElem_self _ _, rfl, ?_⟩
      rw [List.count_append, List.count_singleton_self, List.count_eq_zero_of_not_mem hi]
      rfl
    · have hmem : j ∈ visited := by
        cases List.mem_append.mp hj with
        | inl hj => exact hj
        | inr hj => exact absurd (List.mem_singleton.mp hj) hij
      obtain ⟨hnej, e', he', hkey', hcount'⟩ := h.stored j hmem
      have hstore : ((dm.setElem addr ⟨i, name, 1⟩).xaStore i addr).elements j = dm.elements j :=
        DsMonitoring.xaStore_of_ne hij
      -- the address was not in use
      have hapart : dm.elements j ≠ addr := by
        intro heq
        rw [heq, hfree] at he'
        exact absurd he' (by simp)
      simp only [hstore]
      refine ⟨hnej, e', (DsMonitoring.setElem_of_ne hapart).trans he', hkey', ?_⟩
      rw [List.count_append, List.count_singleton, if_neg (by simpa using fun heq => hij heq.symm), Nat.add_zero]
      exact hcount'
  · intro j hj
    have hij : j ≠ i := fun heq => hj (by simp [heq])
    exact (DsMonitoring.xaStore_of_ne hij).trans (h.unseen j fun hmem => hj (List.mem_append_left _ hmem))
  · rw [List.length_append, List.length_singleton, BitVec.ofNat_add]
    exact congrArg (· + 1) h.total

theorem Tallied.find (h : Tallied visited dm) (hops : ops.getIndex = some getIndex)
    (halloc : Allocates getIndex elem addr dm) : ∃ dm', findDsMonitoring ops elem addr dm = some dm' ∧
      Tallied (visited ++ [getIndex elem]) dm' := by
  by_cases hmem : getIndex elem ∈ visited
  · obtain ⟨e, he, hne, htallied⟩ := h.found hmem
    refine ⟨_, ?_, htallied⟩
    simp only [findDsMonitoring, hops, hne, he, ne_eq, not_false_eq_true, if_true, Option.map_some,
      Option.bind_eq_bind, Option.bind_some]
    rfl
  · have hnone := h.unseen _ hmem
    obtain ⟨hne, hfree⟩ := halloc hnone
    refine ⟨_, ?_, h.made (ops.getName.map fun getName => getName elem) hmem hne hfree⟩
    simp only [findDsMonitoring, insertDsMonitoring, hops, hnone, hne, hfree, ne_eq, not_true_eq_false, if_false,
      Option.isSome_none, Bool.false_eq_true, or_self, Option.bind_eq_bind, Option.bind_some]
    rfl

/-- A call that runs without a break takes the steps of a call among others. -/
theorem interleaved_findDsMonitoring [DecidableEq κ] {elems : κ → ε} {s : Calls w κ} {c : κ}
    (hphase : s.phase c = .call) (hfind : findDsMonitoring ops (elems c) addr s.dm = some dm') :
    Interleaved ops elems (fun _ _ => True) s ⟨dm', Function.update s.phase c .returned⟩ := by
  have hupd : ∀ (dm : DsMonitoring w) (p q : Phase w),
      (⟨dm, Function.update (Function.update s.phase c p) c q⟩ : Calls w κ) = ⟨dm, Function.update s.phase c q⟩ :=
    fun dm p q => by rw [Function.update_idem]
  have hend : ∀ dm : DsMonitoring w, Interleaved ops elems (fun _ _ => True)
      ⟨dm, Function.update s.phase c .total⟩
      ⟨{ dm with totalCounts := dm.totalCounts + 1 }, Function.update s.phase c .returned⟩ := fun dm =>
    .single ⟨c, 0#w, trivial, by simp only [step, Function.update_self, Calls.goto, hupd]⟩
  unfold findDsMonitoring at hfind
  cases hget : ops.getIndex with
  | none =>
    rw [hget] at hfind
    obtain rfl : s.dm = dm' := Option.some.inj hfind
    exact .single ⟨c, 0#w, trivial, by simp only [step, hphase, hget, Calls.goto]⟩
  | some getIndex =>
    simp only [hget] at hfind
    -- up to xa_load
    have hload : Interleaved ops elems (fun _ _ => True) s
        ⟨s.dm, Function.update s.phase c (.load (getIndex (elems c)))⟩ :=
      .single ⟨c, 0#w, trivial, by simp only [step, hphase, hget, Calls.goto]⟩
    by_cases hcur : s.dm.elements (getIndex (elems c)) = 0#w
    · simp only [hcur, ne_eq, not_true_eq_false, if_false, insertDsMonitoring] at hfind
      by_cases haddr : addr = 0#w ∨ (s.dm.heap addr).isSome
      · simp [haddr] at hfind
      · simp only [haddr, if_false, Option.bind_eq_bind, Option.bind_some, Option.some.injEq] at hfind
        subst hfind
        have hinsert : Interleaved ops elems (fun _ _ => True)
            ⟨s.dm, Function.update s.phase c (.load (getIndex (elems c)))⟩
            ⟨s.dm, Function.update s.phase c (.insert (getIndex (elems c)))⟩ :=
          .single ⟨c, 0#w, trivial, by
            simp only [step, Function.update_self, hcur, ne_eq, not_true_eq_false, if_false, Calls.goto, hupd]⟩
        have hkmalloc : Interleaved ops elems (fun _ _ => True)
            ⟨s.dm, Function.update s.phase c (.insert (getIndex (elems c)))⟩
            ⟨s.dm.setElem addr ⟨getIndex (elems c), ops.getName.map fun getName => getName (elems c), 1⟩,
              Function.update s.phase c (.store addr)⟩ :=
          .single ⟨c, addr, trivial, by simp only [step, Function.update_self, haddr, if_false, Calls.goto, hupd]⟩
        have hstore : Interleaved ops elems (fun _ _ => True)
            ⟨s.dm.setElem addr ⟨getIndex (elems c), ops.getName.map fun getName => getName (elems c), 1⟩,
              Function.update s.phase c (.store addr)⟩
            ⟨(s.dm.setElem addr ⟨getIndex (elems c), ops.getName.map fun getName => getName (elems c), 1⟩).xaStore
              (getIndex (elems c)) addr, Function.update s.phase c .total⟩ :=
          .single ⟨c, 0#w, trivial, by
            simp only [step, Function.update_self, DsMonitoring.setElem_self, Calls.goto, hupd]⟩
        exact hload.trans (hinsert.trans (hkmalloc.trans (hstore.trans (hend _))))
    · cases he : s.dm.heap (s.dm.elements (getIndex (elems c))) with
      | none => simp [hcur, he] at hfind
      | some e =>
        simp only [hcur, he, ne_eq, not_false_eq_true, if_true, Option.map_some, Option.bind_eq_bind,
          Option.bind_some, Option.some.injEq] at hfind
        subst hfind
        have hfound : Interleaved ops elems (fun _ _ => True)
            ⟨s.dm, Function.update s.phase c (.load (getIndex (elems c)))⟩
            ⟨s.dm, Function.update s.phase c (.found (s.dm.elements (getIndex (elems c))))⟩ :=
          .single ⟨c, 0#w, trivial, by
            simp only [step, Function.update_self, hcur, ne_eq, not_false_eq_true, if_true, Calls.goto, hupd]⟩
        have hadd : Interleaved ops elems (fun _ _ => True)
            ⟨s.dm, Function.update s.phase c (.found (s.dm.elements (getIndex (elems c))))⟩
            ⟨s.dm.setElem (s.dm.elements (getIndex (elems c))) { e with count := e.count + 1 },
              Function.update s.phase c .total⟩ :=
          .single ⟨c, 0#w, trivial, by simp only [step, Function.update_self, he, Calls.goto, hupd]⟩
        exact hload.trans (hfound.trans (hadd.trans (hend _)))

/-! ## All calls -/

/-- No `kmalloc` of the calls fails. -/
def AllocationsSucceed (ops : DsMonitoringOperations w ε) (getIndex : ε → Word w) :
    List (ε × Ptr w) → DsMonitoring w → Prop
  | [], _ => True
  | (elem, addr) :: calls, dm => Allocates getIndex elem addr dm ∧
      ∀ dm', findDsMonitoring ops elem addr dm = some dm' → AllocationsSucceed ops getIndex calls dm'

theorem Tallied.findAll (hops : ops.getIndex = some getIndex) : ∀ {calls : List (ε × Ptr w)}
    {visited : List (Word w)} {dm : DsMonitoring w}, Tallied visited dm →
    AllocationsSucceed ops getIndex calls dm → ∃ dm', findAll ops calls dm = some dm' ∧
      Tallied (visited ++ calls.map fun c => getIndex c.1) dm'
  | [], visited, dm, h, _ => ⟨dm, rfl, by simpa using h⟩
  | (elem, addr) :: calls, visited, dm, h, ⟨halloc, hrest⟩ => by
    obtain ⟨dm₁, hfind, h₁⟩ := h.find hops halloc
    obtain ⟨dm', hall, h'⟩ := h₁.findAll hops (hrest dm₁ hfind)
    refine ⟨dm', ?_, by simpa using h'⟩
    simp only [Monitoring.findAll, hfind, Option.bind_eq_bind, Option.bind_some]
    exact hall

/-! ## The report -/

theorem nodup_xaIndices (elements : Word w → Ptr w) : (xaIndices elements).Nodup := by
  refine List.Nodup.filter _ (List.nodup_range.map_on fun a ha b hb heq => ?_)
  have := congrArg BitVec.toNat heq
  rw [BitVec.toNat_ofNat, BitVec.toNat_ofNat, Nat.mod_eq_of_lt (List.mem_range.mp ha),
    Nat.mod_eq_of_lt (List.mem_range.mp hb)] at this
  exact this

theorem mem_xaIndices {elements : Word w → Ptr w} {i : Word w} : i ∈ xaIndices elements ↔ elements i ≠ 0#w := by
  have hrange : i ∈ (List.range (2 ^ w)).map (BitVec.ofNat w) :=
    List.mem_map.mpr ⟨i.toNat, List.mem_range.mpr i.isLt, by rw [BitVec.ofNat_toNat, BitVec.setWidth_eq]⟩
  simp [xaIndices, hrange]

theorem printLoop_eq (dm : DsMonitoring w) (n : Word w → BitVec 64) : ∀ {l : List (Word w)},
    (∀ i ∈ l, ∃ e, dm.heap (dm.elements i) = some e ∧ e.count = n i) →
    ∃ printed, printLoop dm l = some printed ∧ printed.map PrintElem.index = l ∧
      ∀ p ∈ printed, p.count = n p.index ∧
        p.percentage = (p.count * 100 / dm.totalCounts).setWidth 32 := by
  intro l
  induction l with
  | nil =>
    intro _
    exact ⟨[], rfl, rfl, fun p hp => absurd hp List.not_mem_nil⟩
  | cons i l ih =>
    intro h
    obtain ⟨e, he, hcount⟩ := h i List.mem_cons_self
    obtain ⟨printed, heq, hindices, hall⟩ := ih fun j hj => h j (List.mem_cons_of_mem _ hj)
    refine ⟨⟨i, e.name, e.count, (e.count * 100 / dm.totalCounts).setWidth 32⟩ :: printed, ?_, ?_, fun p hp => ?_⟩
    · simp only [printLoop, he, heq, Option.bind_eq_bind, Option.bind_some]
    · rw [List.map_cons, hindices]
    · cases List.mem_cons.mp hp with
      | inl hhead => subst hhead; exact ⟨hcount, rfl⟩
      | inr htail => exact hall p htail

/-- The share of one index, in percent and rounded down, is computed without an overflow. -/
theorem percentage_eq (count total : BitVec 64) (hle : count.toNat ≤ total.toNat) (hfew : total.toNat < 2 ^ 57)
    (hpos : 0 < total.toNat) :
    ((count * 100 / total).setWidth 32).toInt = ((count.toNat * 100 / total.toNat : Nat) : Int) ∧
      count.toNat * 100 / total.toNat ≤ 100 := by
  have hshare : count.toNat * 100 / total.toNat ≤ 100 :=
    Nat.div_le_of_le_mul (Nat.mul_le_mul_right 100 hle)
  have hmul : (count * 100).toNat = count.toNat * 100 := by
    rw [BitVec.toNat_mul]
    exact Nat.mod_eq_of_lt (by rw [show (100 : BitVec 64).toNat = 100 from rfl]; omega)
  refine ⟨?_, hshare⟩
  rw [BitVec.toInt_setWidth, BitVec.toNat_udiv, hmul]
  generalize count.toNat * 100 / total.toNat = q at hshare
  exact Int.bmod_eq_of_le (by omega) (by omega)

theorem sum_div_le (f : Word w → Nat) (n : Nat) : ∀ l : List (Word w),
    (l.map fun i => f i * 100 / n).sum ≤ (l.map f).sum * 100 / n
  | [] => Nat.zero_le _
  | i :: l => by
    have ih := sum_div_le f n l
    rw [List.map_cons, List.sum_cons, List.map_cons, List.sum_cons, Nat.add_mul]
    exact (Nat.add_le_add_left ih _).trans (Nat.div_add_div_le_add_div)

/-- What is asked of the report on calls for the indices `visited`. -/
structure Reports (visited : List (Word w)) (printed : List (PrintElem w)) : Prop where
  once : (printed.map PrintElem.index).Nodup
  indices : ∀ i, i ∈ printed.map PrintElem.index ↔ i ∈ visited
  count : ∀ p ∈ printed, p.count.toNat = visited.count p.index
  share : ∀ p ∈ printed, 0 ≤ p.percentage.toInt ∧ p.percentage.toInt ≤ 100
  whole : (printed.map fun p => p.percentage.toInt).sum ≤ 100

theorem Tallied.report (h : Tallied visited dm) (hne : visited ≠ []) (hfew : visited.length < 2 ^ 57) :
    ∃ printed, printDsMonitoring true dm = some printed ∧ Reports visited printed := by
  have htotal : dm.totalCounts.toNat = visited.length := by
    rw [h.total, BitVec.toNat_ofNat]
    exact Nat.mod_eq_of_lt (by omega)
  have hpos : 0 < visited.length := List.length_pos_iff.mpr hne
  -- the indices of the array are those visited
  have hmem : ∀ i, i ∈ xaIndices dm.elements ↔ i ∈ visited := fun i => by
    rw [mem_xaIndices]
    constructor
    · intro hi
      by_contra hnot
      exact hi (h.unseen i hnot)
    · exact fun hi => (h.stored i hi).1
  obtain ⟨printed, hprint, hindices, hall⟩ := printLoop_eq dm (fun i => BitVec.ofNat 64 (visited.count i))
    fun i (hi : i ∈ xaIndices dm.elements) => by
      obtain ⟨-, e, he, -, hcount⟩ := h.stored i ((hmem i).mp hi)
      exact ⟨e, he, hcount⟩
  have hcount : ∀ p ∈ printed, p.count.toNat = visited.count p.index := fun p hp => by
    have hle : visited.count p.index ≤ visited.length := List.count_le_length
    rw [(hall p hp).1, BitVec.toNat_ofNat]
    exact Nat.mod_eq_of_lt (by omega)
  -- below 2 ^ 57 visits the product does not wrap
  have hshare : ∀ p ∈ printed, p.percentage.toInt = ((visited.count p.index * 100 / visited.length : Nat) : Int) ∧
      visited.count p.index * 100 / visited.length ≤ 100 := fun p hp => by
    have hle : visited.count p.index ≤ visited.length := List.count_le_length
    have h := percentage_eq p.count dm.totalCounts (by rw [hcount p hp, htotal]; exact hle)
      (by omega) (by omega)
    rw [hcount p hp, htotal] at h
    rwa [(hall p hp).2]
  refine ⟨printed, ?_, ?_, ?_, hcount, fun p hp => ?_, ?_⟩
  · unfold printDsMonitoring
    rw [if_neg, hprint]
    rintro (hzero | hfalse)
    · rw [hzero] at htotal
      exact absurd htotal (by rw [show (0 : BitVec 64).toNat = 0 from rfl]; omega)
    · exact absurd hfalse (by decide)
  · rw [hindices]
    exact nodup_xaIndices _
  · rw [hindices]
    exact hmem
  · obtain ⟨heq, hle⟩ := hshare p hp
    rw [heq]
    exact ⟨Int.natCast_nonneg _, by exact_mod_cast hle⟩
  · have hcounts : ((xaIndices dm.elements).map fun i => visited.count i).sum = visited.length := by
      have hset : (xaIndices dm.elements).toFinset = visited.toFinset := by
        ext i
        rw [List.mem_toFinset, List.mem_toFinset, hmem]
      rw [← List.sum_toFinset _ (nodup_xaIndices _), hset]
      exact List.sum_toFinset_count_eq_length visited
    have hsum : printed.map (fun p => p.percentage.toInt) = ((xaIndices dm.elements).map fun i =>
        visited.count i * 100 / visited.length).map fun n : Nat => (n : Int) := by
      rw [← hindices, List.map_map, List.map_map]
      exact List.map_congr_left fun p hp => (hshare p hp).1
    -- a sum of rounded shares is at most the share of the sum
    have hle := sum_div_le (fun i => visited.count i) visited.length (xaIndices dm.elements)
    rw [hcounts, Nat.mul_comm, Nat.mul_div_cancel _ hpos] at hle
    rw [hsum, ← Nat.cast_list_sum]
    omega

/-- The report after fewer than 2 ^ 57 calls one after another on a fresh monitor: one call of `print_elem`
for each index that has occurred, with its count, and shares that sum to at most 100. -/
theorem printDsMonitoring_reports (hops : ops.getIndex = some getIndex) (calls : List (ε × Ptr w))
    (hne : calls ≠ []) (hfew : calls.length < 2 ^ 57) (halloc : AllocationsSucceed ops getIndex calls .init) :
    ∃ dm printed, findAll ops calls .init = some dm ∧ printDsMonitoring true dm = some printed ∧
      Reports (calls.map fun c => getIndex c.1) printed := by
  obtain ⟨dm, hall, htallied⟩ := tallied_init.findAll hops halloc
  rw [List.nil_append] at htallied
  obtain ⟨printed, hprint, hreports⟩ := htallied.report (by simpa using hne) (by simpa using hfew)
  exact ⟨dm, printed, hall, hprint, hreports⟩

/-- The elements are indices themselves. -/
def ownIndex : DsMonitoringOperations 3 (BitVec 3) := ⟨some id, none⟩

theorem ownIndex_allocations : AllocationsSucceed ownIndex id [(2#3, 1#3), (5#3, 4#3), (2#3, 0#3)] .init := by
  refine ⟨fun _ => ⟨by decide, rfl⟩, fun dm₁ h₁ => ?_⟩
  obtain rfl := Option.some.inj (h₁.symm.trans rfl)
  refine ⟨fun _ => ⟨by decide, rfl⟩, fun dm₂ h₂ => ?_⟩
  obtain rfl := Option.some.inj (h₂.symm.trans rfl)
  exact ⟨fun hnone => absurd hnone (by decide), fun _ _ => trivial⟩

/-- Three calls, two of them for one index. -/
theorem printDsMonitoring_reports_three : ∃ dm printed,
    findAll ownIndex [(2#3, 1#3), (5#3, 4#3), (2#3, 0#3)] .init = some dm ∧
      printDsMonitoring true dm = some printed ∧ Reports [2#3, 5#3, 2#3] printed :=
  printDsMonitoring_reports rfl [(2#3, 1#3), (5#3, 4#3), (2#3, 0#3)] (by simp) (by decide) ownIndex_allocations

end CachedBTree.Monitoring
