import CachedBTree.Monitoring.Visits
import CachedBTree.Monitoring.Report

/-! # What no interleaving loses

A visit that is missing from the counter of its index is not gone: it stands in an element that
another call has overwritten in the array.  Whatever the order of the steps, the elements in memory
together hold every visit, no step reads an element that is not there, and the memory that
`delete_ds_monitoring` does not give back is that of the overwritten elements. -/

namespace CachedBTree.Monitoring

open CachedBTree.Support

variable {w : Nat} {ε κ : Type} [Fintype κ] [DecidableEq κ] {ops : DsMonitoringOperations w ε} {elem : κ → ε}
  {s s' : Calls w κ} {c : κ} {addr : Ptr w} {dm dm' : DsMonitoring w}

/-! ## The visits in memory -/

/-- The visits that an element in memory holds for an index. -/
def visitsIn (i : Word w) : Option (DsMonitoringElem w) → Nat
  | none => 0
  | some e => if e.key = i then e.count.toNat else 0

/-- The visits that all elements in memory hold for an index, stored or not. -/
def DsMonitoring.recorded (dm : DsMonitoring w) (i : Word w) : Nat := ∑ p, visitsIn i (dm.heap p)

/-- The call has added its visit to an element. -/
def Phase.added : Phase w → Bool
  | .store _ | .total | .returned => true
  | _ => false

/-- The calls for an index that have added their visit. -/
def added (ops : DsMonitoringOperations w ε) (elem : κ → ε) (s : Calls w κ) (i : Word w) : Nat :=
  (Finset.univ.filter fun c => (decide (indexOf ops elem c = some i) && (s.phase c).added) = true).card

theorem recorded_setElem (dm : DsMonitoring w) (p : Ptr w) (e : DsMonitoringElem w) (i : Word w) :
    (dm.setElem p e).recorded i + visitsIn i (dm.heap p) = dm.recorded i + visitsIn i (some e) :=
  sum_update_add (visitsIn i) dm.heap p (some e)

theorem visitsIn_le_recorded (dm : DsMonitoring w) (p : Ptr w) (i : Word w) :
    visitsIn i (dm.heap p) ≤ dm.recorded i :=
  Finset.single_le_sum (f := fun p => visitsIn i (dm.heap p)) (fun _ _ => Nat.zero_le _) (Finset.mem_univ p)

theorem added_goto (ops : DsMonitoringOperations w ε) (elem : κ → ε) (s : Calls w κ) (c : κ) (dm : DsMonitoring w)
    (p : Phase w) (i : Word w) :
    added ops elem (({ s with dm := dm } : Calls w κ).goto c p) i +
        (decide (indexOf ops elem c = some i) && (s.phase c).added).toNat =
      added ops elem s i + (decide (indexOf ops elem c = some i) && p.added).toNat :=
  card_filter_update (fun c (p : Phase w) => decide (indexOf ops elem c = some i) && p.added) s.phase c p

omit [DecidableEq κ] in
/-- A call that has not added its visit is not among those that have. -/
theorem added_lt (i : Word w) (hphase : (s.phase c).added = false) : added ops elem s i < Fintype.card κ := by
  refine Finset.card_lt_univ_of_notMem (x := c) fun hmem => ?_
  simp [hphase] at hmem

/-! ## One step -/

/-- What is true of a call where it stands: the element it holds is in memory and has its index. -/
def Placed (dm : DsMonitoring w) (index : Option (Word w)) : Phase w → Prop
  | .call => True
  | .load i => index = some i
  | .found cur => ∃ e, dm.heap cur = some e ∧ index = some e.key ∧ dm.elements e.key ≠ 0#w
  | .insert i => index = some i
  | .store new => new ≠ 0#w ∧ ∃ e, dm.heap new = some e ∧ index = some e.key
  | .total => ∃ i, index = some i ∧ dm.elements i ≠ 0#w
  | .returned => ∀ i, index = some i → dm.elements i ≠ 0#w

/-- Elements stay in memory under their keys, and an index that has an element keeps one. -/
structure Grows (dm dm' : DsMonitoring w) : Prop where
  heap : ∀ p e, dm.heap p = some e → ∃ e', dm'.heap p = some e' ∧ e'.key = e.key
  elements : ∀ i, dm.elements i ≠ 0#w → dm'.elements i ≠ 0#w

theorem Grows.refl (dm : DsMonitoring w) : Grows dm dm := ⟨fun _ e he => ⟨e, he, rfl⟩, fun _ hi => hi⟩

theorem Placed.mono {index : Option (Word w)} {p : Phase w} (hgrows : Grows dm dm') (h : Placed dm index p) :
    Placed dm' index p := by
  cases p with
  | call => trivial
  | load i => exact h
  | found cur =>
    obtain ⟨e, he, hindex, hi⟩ := h
    obtain ⟨e', he', hkey⟩ := hgrows.heap cur e he
    rw [← hkey] at hindex hi
    exact ⟨e', he', hindex, hgrows.elements e'.key hi⟩
  | insert i => exact h
  | store new =>
    obtain ⟨hne, e, he, hindex⟩ := h
    obtain ⟨e', he', hkey⟩ := hgrows.heap new e he
    exact ⟨hne, e', he', hkey ▸ hindex⟩
  | total =>
    obtain ⟨i, hindex, hi⟩ := h
    exact ⟨i, hindex, hgrows.elements i hi⟩
  | returned => exact fun i hindex => hgrows.elements i (h i hindex)

/-- An element that gets another count, or one at an address that was not in use. -/
theorem grows_setElem {p : Ptr w} {e : DsMonitoringElem w}
    (h : ∀ old, dm.heap p = some old → e.key = old.key) : Grows dm (dm.setElem p e) := by
  refine ⟨fun x old hold => ?_, fun _ hi => hi⟩
  by_cases hx : x = p
  · subst hx
    exact ⟨e, dm.setElem_self x e, h old hold⟩
  · exact ⟨old, (DsMonitoring.setElem_of_ne hx).trans hold, rfl⟩

theorem grows_xaStore {i : Word w} {p : Ptr w} (hp : p ≠ 0#w) : Grows dm (dm.xaStore i p) := by
  refine ⟨fun x old hold => ⟨old, hold, rfl⟩, fun j hj => ?_⟩
  by_cases hij : j = i
  · subst hij
    rw [dm.xaStore_self j p]
    exact hp
  · rw [DsMonitoring.xaStore_of_ne hij]
    exact hj

/-- What holds in every interleaving. -/
structure Conserved (ops : DsMonitoringOperations w ε) (elem : κ → ε) (s : Calls w κ) : Prop where
  placed : ∀ c, Placed s.dm (indexOf ops elem c) (s.phase c)
  stored : ∀ i, s.dm.elements i ≠ 0#w → ∃ e, s.dm.heap (s.dm.elements i) = some e ∧ e.key = i
  counted : ∀ p e, s.dm.heap p = some e → 0 < e.count.toNat
  recorded : ∀ i, s.dm.recorded i = added ops elem s i
  total : s.dm.totalCounts = BitVec.ofNat 64 (finished ops elem s)

omit [DecidableEq κ] in
theorem conserved_init : Conserved ops elem (.init : Calls w κ) where
  placed c := trivial
  stored i h := absurd rfl h
  counted p e h := by cases h
  recorded i := by simp [DsMonitoring.recorded, Calls.init, DsMonitoring.init, visitsIn, added, Phase.added]
  total := by simp [finished, Calls.init, DsMonitoring.init]

/-- A step of call `c`, given what it does to the counts. -/
theorem Conserved.goto {p : Phase w} (h : Conserved ops elem s) (hgrows : Grows s.dm dm')
    (hplaced : Placed dm' (indexOf ops elem c) p)
    (hstored : ∀ i, dm'.elements i ≠ 0#w → ∃ e, dm'.heap (dm'.elements i) = some e ∧ e.key = i)
    (hcounted : ∀ q e, dm'.heap q = some e → 0 < e.count.toNat)
    (hrecorded : ∀ i, dm'.recorded i + (decide (indexOf ops elem c = some i) && (s.phase c).added).toNat =
      s.dm.recorded i + (decide (indexOf ops elem c = some i) && p.added).toNat)
    (htotal : dm'.totalCounts = BitVec.ofNat 64 (finished ops elem (({ s with dm := dm' } : Calls w κ).goto c p))) :
    Conserved ops elem (({ s with dm := dm' } : Calls w κ).goto c p) where
  placed c' := by
    by_cases hc' : c' = c
    · subst hc'
      rw [show (({ s with dm := dm' } : Calls w κ).goto c' p).phase c' = p from Function.update_self _ _ _]
      exact hplaced
    · rw [show (({ s with dm := dm' } : Calls w κ).goto c p).phase c' = s.phase c' from Function.update_of_ne hc' _ _]
      exact (h.placed c').mono hgrows
  stored := hstored
  counted := hcounted
  recorded i := by
    have hcount := added_goto ops elem s c dm' p i
    have hsum := hrecorded i
    have hold := h.recorded i
    change dm'.recorded i = _
    omega
  total := htotal

/-- The calls that have finished stay the same, unless the call returns. -/
theorem finished_goto_of_ne {p : Phase w} (hold : s.phase c ≠ .returned) (hp : p ≠ .returned) :
    finished ops elem (({ s with dm := dm' } : Calls w κ).goto c p) = finished ops elem s := by
  have hcount := finished_goto ops elem s c dm' p
  simpa [hold, hp] using hcount

/-- A step that leaves the monitor as it is. -/
theorem Conserved.moves {p : Phase w} (h : Conserved ops elem s) (hold : s.phase c ≠ .returned)
    (hp : p = .returned → indexOf ops elem c = none) (hadded : (s.phase c).added = false)
    (hplaced : Placed s.dm (indexOf ops elem c) p)
    (hnew : ∀ i, indexOf ops elem c = some i → p.added = false) : Conserved ops elem (s.goto c p) := by
  refine h.goto (.refl s.dm) hplaced h.stored h.counted (fun i => ?_) ?_
  · by_cases hi : indexOf ops elem c = some i
    · simp [hi, hadded, hnew i hi]
    · simp [hi]
  · rw [h.total]
    have hcount := finished_goto ops elem s c s.dm p
    by_cases hreturned : p = .returned
    · rw [hp hreturned] at hcount
      simpa using congrArg (BitVec.ofNat 64) hcount.symm
    · rw [finished_goto_of_ne hold hreturned]

omit [DecidableEq κ] in
/-- An element gets another count: what is stored stays stored. -/
theorem Conserved.stored_setElem {p : Ptr w} {e : DsMonitoringElem w} (h : Conserved ops elem s)
    (hkey : ∀ old, s.dm.heap p = some old → e.key = old.key) :
    ∀ i, (s.dm.setElem p e).elements i ≠ 0#w →
      ∃ e', (s.dm.setElem p e).heap ((s.dm.setElem p e).elements i) = some e' ∧ e'.key = i := by
  intro i hi
  obtain ⟨old, hold, hindex⟩ := h.stored i hi
  obtain ⟨e', he', hkey'⟩ := (grows_setElem hkey).heap _ old hold
  exact ⟨e', he', hkey'.trans hindex⟩

omit [DecidableEq κ] in
theorem Conserved.counted_setElem {p : Ptr w} {e : DsMonitoringElem w} (h : Conserved ops elem s)
    (hpos : 0 < e.count.toNat) : ∀ q e', (s.dm.setElem p e).heap q = some e' → 0 < e'.count.toNat := by
  intro q e' he'
  by_cases hq : q = p
  · subst hq
    rw [s.dm.setElem_self q e] at he'
    obtain rfl := Option.some.inj he'
    exact hpos
  · rw [DsMonitoring.setElem_of_ne hq] at he'
    exact h.counted q e' he'

/-- One more visit is added to an element: its counter does not wrap. -/
theorem Conserved.adds {cur : Ptr w} {e : DsMonitoringElem w} (h : Conserved ops elem s)
    (hfew : Fintype.card κ < 2 ^ 64) (hphase : s.phase c = .found cur) (he : s.dm.heap cur = some e) :
    Conserved ops elem ({ s with dm := s.dm.setElem cur { e with count := e.count + 1 } }.goto c .total) := by
  have hplaced := h.placed c
  rw [hphase] at hplaced
  obtain ⟨e', he', hindex, hi⟩ := hplaced
  rw [he] at he'
  obtain rfl := Option.some.inj he'
  -- the element holds no more visits than all elements do, and those are fewer than the calls
  have hmore : (e.count + 1).toNat = e.count.toNat + 1 := by
    have hle := visitsIn_le_recorded s.dm cur e.key
    have hlt : added ops elem s e.key < Fintype.card κ := added_lt (c := c) e.key (by rw [hphase]; rfl)
    rw [he, h.recorded e.key] at hle
    simp only [visitsIn, if_true] at hle
    rw [BitVec.toNat_add]
    exact Nat.mod_eq_of_lt (by rw [show (1 : BitVec 64).toNat = 1 from rfl]; omega)
  have hkey : ∀ old, s.dm.heap cur = some old → ({ e with count := e.count + 1 } : DsMonitoringElem w).key = old.key := by
    intro old hold
    rw [he] at hold
    rw [← Option.some.inj hold]
  refine h.goto (grows_setElem hkey) ⟨e.key, hindex, hi⟩ (h.stored_setElem hkey)
    (h.counted_setElem (by rw [hmore]; omega)) (fun i => ?_) ?_
  · have hsum := recorded_setElem s.dm cur { e with count := e.count + 1 } i
    rw [he] at hsum
    by_cases hi : e.key = i
    · subst hi
      simp only [visitsIn, if_true, hmore] at hsum
      simp only [hindex, hphase, Phase.added, decide_true, Bool.and_false, Bool.and_true, Bool.toNat_false,
        Bool.toNat_true]
      omega
    · simp only [visitsIn, hi, if_false] at hsum
      simpa [hindex, hi] using hsum
  · rw [finished_goto_of_ne (by rw [hphase]; simp) (by simp)]
    exact h.total

/-- `insert_ds_monitoring` has made an element, which holds the visit of its call. -/
theorem Conserved.makes {i : Word w} {name : Option String} (h : Conserved ops elem s)
    (hphase : s.phase c = .insert i) (hne : addr ≠ 0#w) (hfree : s.dm.heap addr = none) :
    Conserved ops elem ({ s with dm := s.dm.setElem addr ⟨i, name, 1⟩ }.goto c (.store addr)) := by
  have hindex := h.placed c
  rw [hphase] at hindex
  change indexOf ops elem c = some i at hindex
  have hkey : ∀ old, s.dm.heap addr = some old → (⟨i, name, 1⟩ : DsMonitoringElem w).key = old.key := by
    intro old hold
    rw [hfree] at hold
    cases hold
  refine h.goto (grows_setElem hkey) ⟨hne, _, s.dm.setElem_self addr _, hindex⟩ (h.stored_setElem hkey)
    (h.counted_setElem (e := ⟨i, name, 1⟩) (show 0 < (1 : BitVec 64).toNat from by decide)) (fun j => ?_) ?_
  · have hsum := recorded_setElem s.dm addr ⟨i, name, 1⟩ j
    rw [hfree] at hsum
    by_cases hj : i = j
    · subst hj
      simpa [visitsIn, hindex, hphase, Phase.added] using hsum
    · simpa [visitsIn, hindex, hphase, Phase.added, hj] using hsum
  · rw [finished_goto_of_ne (by rw [hphase]; simp) (by simp)]
    exact h.total

/-- An element is stored, over another one if another call was faster. -/
theorem Conserved.stores {new : Ptr w} {e : DsMonitoringElem w} (h : Conserved ops elem s)
    (hphase : s.phase c = .store new) (he : s.dm.heap new = some e) :
    Conserved ops elem ({ s with dm := s.dm.xaStore e.key new }.goto c .total) := by
  have hplaced := h.placed c
  rw [hphase] at hplaced
  obtain ⟨hne, e', he', hindex⟩ := hplaced
  rw [he] at he'
  obtain rfl := Option.some.inj he'
  have hself := s.dm.xaStore_self e.key new
  refine h.goto (grows_xaStore hne) ⟨e.key, hindex, by rw [hself]; exact hne⟩ (fun j hj => ?_) h.counted
    (fun j => ?_) ?_
  · by_cases hkey : j = e.key
    · subst hkey
      rw [hself]
      exact ⟨e, he, rfl⟩
    · rw [DsMonitoring.xaStore_of_ne hkey] at hj ⊢
      exact h.stored j hj
  · rw [hphase]
    rfl
  · rw [finished_goto_of_ne (by rw [hphase]; simp) (by simp)]
    exact h.total

theorem Conserved.totals (h : Conserved ops elem s) (hphase : s.phase c = .total) :
    Conserved ops elem ({ s with dm := { s.dm with totalCounts := s.dm.totalCounts + 1 } }.goto c .returned) := by
  have hplaced := h.placed c
  rw [hphase] at hplaced
  obtain ⟨i, hindex, hi⟩ := hplaced
  have hgrows : Grows s.dm { s.dm with totalCounts := s.dm.totalCounts + 1 } :=
    ⟨fun _ e he => ⟨e, he, rfl⟩, fun _ hj => hj⟩
  refine h.goto hgrows ?_ h.stored h.counted (fun j => ?_) ?_
  · intro j hj
    rw [hindex] at hj
    exact Option.some.inj hj ▸ hi
  · rw [hphase]
    rfl
  · have hcount := finished_goto ops elem s c { s.dm with totalCounts := s.dm.totalCounts + 1 } .returned
    simp only [hindex, hphase, Option.isSome_some, decide_true, Bool.true_and, reduceCtorEq, decide_false,
      Bool.toNat_false, Bool.toNat_true, Nat.add_zero] at hcount
    rw [hcount, BitVec.ofNat_add, ← h.total]
    rfl

/-- One step of any call, whatever the others are doing. -/
theorem Conserved.step (h : Conserved ops elem s) (hfew : Fintype.card κ < 2 ^ 64)
    (hstep : step ops elem c addr s = some s') : Conserved ops elem s' := by
  unfold Monitoring.step at hstep
  cases hphase : s.phase c with
  | call =>
    simp only [hphase] at hstep
    cases hget : ops.getIndex with
    | none =>
      simp only [hget] at hstep
      obtain rfl := Option.some.inj hstep
      have hnone : indexOf ops elem c = none := by rw [indexOf, hget, Option.map_none]
      exact h.moves (by simp [hphase]) (fun _ => hnone) (by rw [hphase]; rfl)
        (fun i hi => by rw [hnone] at hi; cases hi) (fun i hi => by rw [hnone] at hi; cases hi)
    | some getIndex =>
      simp only [hget] at hstep
      obtain rfl := Option.some.inj hstep
      have hsome : indexOf ops elem c = some (getIndex (elem c)) := by rw [indexOf, hget, Option.map_some]
      exact h.moves (by simp [hphase]) (by simp) (by rw [hphase]; rfl) hsome fun _ _ => rfl
  | load i =>
    simp only [hphase] at hstep
    obtain rfl := Option.some.inj hstep
    have hindex := h.placed c
    rw [hphase] at hindex
    by_cases hcur : s.dm.elements i = 0#w
    · rw [if_neg (not_not_intro hcur)]
      exact h.moves (by simp [hphase]) (by simp) (by rw [hphase]; rfl) hindex fun _ _ => rfl
    · rw [if_pos hcur]
      obtain ⟨e, he, rfl⟩ := h.stored i hcur
      exact h.moves (by simp [hphase]) (by simp) (by rw [hphase]; rfl) ⟨e, he, hindex, hcur⟩ fun _ _ => rfl
  | found cur =>
    simp only [hphase] at hstep
    cases he : s.dm.heap cur with
    | none => simp [he] at hstep
    | some e =>
      simp only [he] at hstep
      obtain rfl := Option.some.inj hstep
      exact h.adds hfew hphase he
  | insert i =>
    simp only [hphase] at hstep
    by_cases hbad : addr = 0#w ∨ (s.dm.heap addr).isSome
    · rw [if_pos hbad] at hstep
      cases hstep
    · rw [if_neg hbad] at hstep
      obtain rfl := Option.some.inj hstep
      obtain ⟨hne, hfree⟩ := not_or.mp hbad
      exact h.makes hphase hne (by simpa using hfree)
  | store new =>
    simp only [hphase] at hstep
    cases he : s.dm.heap new with
    | none => simp [he] at hstep
    | some e =>
      simp only [he] at hstep
      obtain rfl := Option.some.inj hstep
      exact h.stores hphase he
  | total =>
    simp only [hphase] at hstep
    obtain rfl := Option.some.inj hstep
    exact h.totals hphase
  | returned => simp [hphase] at hstep

theorem conserved_of_interleaved (hfew : Fintype.card κ < 2 ^ 64)
    (h : Interleaved ops elem (fun _ _ => True) .init s) : Conserved ops elem s := by
  induction h with
  | refl => exact conserved_init
  | tail _ hlast ih =>
    obtain ⟨c, addr, -, hstep⟩ := hlast
    exact ih.step hfew hstep

/-! ## At any time -/

/-- A call goes on from where it stands, unless its `kmalloc` fails. -/
theorem Conserved.goesOn (h : Conserved ops elem s) (hphase : s.phase c ≠ .returned) (hne : addr ≠ 0#w)
    (hfree : s.dm.heap addr = none) : (Monitoring.step ops elem c addr s).isSome := by
  have hplaced := h.placed c
  unfold Monitoring.step
  cases hp : s.phase c with
  | call => cases ops.getIndex <;> simp
  | load i => simp
  | found cur =>
    rw [hp] at hplaced
    obtain ⟨e, he, -⟩ := hplaced
    simp [he]
  | insert i => simp [hne, hfree]
  | store new =>
    rw [hp] at hplaced
    obtain ⟨-, e, he, -⟩ := hplaced
    simp [he]
  | total => simp
  | returned => exact absurd hp hphase

/-- What is true of the monitor at any time. -/
structure KeepsVisits (ops : DsMonitoringOperations w ε) (elem : κ → ε) (s : Calls w κ) : Prop where
  recorded : ∀ i, s.dm.recorded i = added ops elem s i
  total : s.dm.totalCounts.toNat = finished ops elem s
  stored : ∀ i, s.dm.elements i ≠ 0#w →
    ∃ e, s.dm.heap (s.dm.elements i) = some e ∧ e.key = i ∧ 0 < e.count.toNat
  goesOn : ∀ c addr, s.phase c ≠ .returned → addr ≠ 0#w → s.dm.heap addr = none →
    (Monitoring.step ops elem c addr s).isSome

/-- In every interleaving, at any time: the elements in memory together hold each visit that has been
added, the total is the number of calls that have returned, an index in the array leads to an element of
its own, and no step reads an element that is not in memory. -/
theorem findDsMonitoring_keepsVisits (hfew : Fintype.card κ < 2 ^ 64)
    (h : Interleaved ops elem (fun _ _ => True) .init s) : KeepsVisits ops elem s := by
  have hconserved := conserved_of_interleaved hfew h
  refine ⟨hconserved.recorded, ?_, fun i hi => ?_, fun c addr => hconserved.goesOn⟩
  · have hle : finished ops elem s ≤ Fintype.card κ := Finset.card_le_univ _
    rw [hconserved.total, BitVec.toNat_ofNat]
    exact Nat.mod_eq_of_lt (by omega)
  · obtain ⟨e, he, hkey⟩ := hconserved.stored i hi
    exact ⟨e, he, hkey, hconserved.counted _ e he⟩

theorem lostVisit_interleaved : Interleaved oneIndex (fun _ => ()) (fun _ _ => True) .init lostVisit :=
  interleaved_runAll _ _ _ _ _

/-- Of two calls that both find no element, one overwrites the visit of the other; it is in memory still. -/
theorem findDsMonitoring_keepsVisits_lost :
    lostVisit.dm.countAt 5#64 = 1 ∧ lostVisit.dm.recorded 5#64 = 2 := by
  have hkeeps := findDsMonitoring_keepsVisits (by simp) lostVisit_interleaved
  refine ⟨by decide +kernel, (hkeeps.recorded 5#64).trans ?_⟩
  decide +kernel

/-! ## What is given back -/

/-- Each element of the array is freed once, as no two indices share one. -/
theorem deleteLoop_eq : ∀ {l : List (Word w)} {dm : DsMonitoring w}, l.Nodup →
    (∀ i ∈ l, ∃ e, dm.heap (dm.elements i) = some e ∧ e.key = i) → ∃ dm', deleteLoop dm l = some dm' ∧
      dm'.totalCounts = dm.totalCounts ∧ (∀ i ∈ l, dm'.heap (dm.elements i) = none) ∧
      ∀ p, (∀ i ∈ l, dm.elements i ≠ p) → dm'.heap p = dm.heap p
  | [], dm, _, _ => ⟨dm, rfl, rfl, fun _ hi => absurd hi List.not_mem_nil, fun _ _ => rfl⟩
  | curIdx :: l, dm, hnodup, h => by
    obtain ⟨hnot, hnodup⟩ := List.nodup_cons.mp hnodup
    obtain ⟨e, he, hkey⟩ := h curIdx List.mem_cons_self
    have hapart : ∀ i ∈ l, dm.elements i ≠ dm.elements curIdx := by
      intro i hi heq
      obtain ⟨e', he', hkey'⟩ := h i (List.mem_cons_of_mem _ hi)
      rw [heq, he] at he'
      obtain rfl := Option.some.inj he'
      exact hnot (by rw [← hkey, hkey']; exact hi)
    have hrest : ∀ i ∈ l, ∃ e, (dm.free (dm.elements curIdx)).heap ((dm.free (dm.elements curIdx)).elements i) =
        some e ∧ e.key = i := by
      intro i hi
      obtain ⟨e', he', hkey'⟩ := h i (List.mem_cons_of_mem _ hi)
      exact ⟨e', (DsMonitoring.free_of_ne (hapart i hi)).trans he', hkey'⟩
    obtain ⟨dm', hloop, htotal, hfreed, hkept⟩ := deleteLoop_eq hnodup hrest
    refine ⟨dm', ?_, htotal, fun i hi => ?_, fun p hp => ?_⟩
    · simp only [deleteLoop, he]
      exact hloop
    · cases List.mem_cons.mp hi with
      | inl heq =>
        subst heq
        exact (hkept _ hapart).trans (dm.free_self _)
      | inr hi => exact hfreed i hi
    · have hne : p ≠ dm.elements curIdx := fun heq => hp curIdx List.mem_cons_self heq.symm
      exact (hkept p fun i hi => hp i (List.mem_cons_of_mem _ hi)).trans (DsMonitoring.free_of_ne hne)

/-- What `delete_ds_monitoring` leaves. -/
structure Deleted (dm dm' : DsMonitoring w) : Prop where
  elements : ∀ i, dm'.elements i = 0#w
  freed : ∀ i, dm.elements i ≠ 0#w → dm'.heap (dm.elements i) = none
  kept : ∀ p, (∀ i, dm.elements i ≠ 0#w → dm.elements i ≠ p) → dm'.heap p = dm.heap p
  total : dm'.totalCounts = dm.totalCounts

omit [DecidableEq κ] in
theorem Conserved.delete (h : Conserved ops elem s) :
    ∃ dm, deleteDsMonitoring s.dm = some dm ∧ Deleted s.dm dm := by
  obtain ⟨dm, hloop, htotal, hfreed, hkept⟩ := deleteLoop_eq (nodup_xaIndices s.dm.elements)
    fun i hi => h.stored i (mem_xaIndices.mp hi)
  refine ⟨{ dm with elements := fun _ => 0#w }, ?_, fun _ => rfl, fun i hi => ?_, fun p hp => ?_, htotal⟩
  · simp only [deleteDsMonitoring, hloop, Option.bind_eq_bind, Option.bind_some]
  · exact hfreed i (mem_xaIndices.mpr hi)
  · exact hkept p fun i hi => hp i (mem_xaIndices.mp hi)

omit [DecidableEq κ] in
/-- The visits in the memory that is left are those that the array has not led to. -/
theorem Deleted.recorded (hdeleted : Deleted s.dm dm) (h : Conserved ops elem s) (i : Word w) :
    dm.recorded i + s.dm.countAt i = s.dm.recorded i := by
  -- an address is freed and holds visits for the index that leads to it, or it is kept
  have hsplit : ∀ p, visitsIn i (s.dm.heap p) = visitsIn i (dm.heap p) +
      if p = s.dm.elements i then s.dm.countAt i else 0 := by
    intro p
    by_cases hp : ∃ j, s.dm.elements j ≠ 0#w ∧ s.dm.elements j = p
    · obtain ⟨j, hj, rfl⟩ := hp
      obtain ⟨e, he, hkey⟩ := h.stored j hj
      rw [hdeleted.freed j hj, he]
      by_cases hij : j = i
      · subst hij
        simp [visitsIn, DsMonitoring.countAt, hj, he, hkey]
      · by_cases heq : s.dm.elements j = s.dm.elements i
        · obtain ⟨e', he', hkey'⟩ := h.stored i (heq ▸ hj)
          rw [← heq, he] at he'
          obtain rfl := Option.some.inj he'
          exact absurd (hkey.symm.trans hkey') hij
        · simp [visitsIn, heq, hkey, hij]
    · have hkept : ∀ j, s.dm.elements j ≠ 0#w → s.dm.elements j ≠ p := fun j hj heq => hp ⟨j, hj, heq⟩
      rw [hdeleted.kept p hkept]
      by_cases heq : p = s.dm.elements i
      · have hnone : s.dm.elements i = 0#w := by
          by_contra hne
          exact hkept i hne heq.symm
        simp [DsMonitoring.countAt, hnone]
      · simp [heq]
  unfold DsMonitoring.recorded
  rw [Finset.sum_congr rfl fun p _ => hsplit p, Finset.sum_add_distrib, Finset.sum_ite_eq' Finset.univ,
    if_pos (Finset.mem_univ _)]

/-- When all calls have returned, in whatever order they went, `delete_ds_monitoring` frees every element
of the array, none of them twice.  What is left in memory holds the visits that are missing from the
counters, so nothing is left if and only if the counters are right. -/
theorem deleteDsMonitoring_frees (hfew : Fintype.card κ < 2 ^ 64)
    (h : Interleaved ops elem (fun _ _ => True) .init s) (hdone : ∀ c, s.phase c = .returned) :
    ∃ dm, deleteDsMonitoring s.dm = some dm ∧ Deleted s.dm dm ∧
      (∀ i, dm.recorded i + s.dm.countAt i = callsFor ops elem i) ∧
      ((∀ p, dm.heap p = none) ↔ ∀ i, s.dm.countAt i = callsFor ops elem i) := by
  have hconserved := conserved_of_interleaved hfew h
  obtain ⟨dm, hdelete, hdeleted⟩ := hconserved.delete
  have hvisits : ∀ i, dm.recorded i + s.dm.countAt i = callsFor ops elem i := by
    intro i
    rw [hdeleted.recorded hconserved i, hconserved.recorded i]
    simp [added, callsFor, hdone, Phase.added]
  refine ⟨dm, hdelete, hdeleted, hvisits, fun hempty i => ?_, fun hcounts p => ?_⟩
  · have hzero : dm.recorded i = 0 := by simp [DsMonitoring.recorded, hempty, visitsIn]
    rw [← hvisits i, hzero, Nat.zero_add]
  · by_contra hp
    obtain ⟨e, he⟩ := Option.ne_none_iff_exists'.mp hp
    -- what is left was there before, so it holds a visit
    have hpos : 0 < e.count.toNat := by
      by_cases hfreed : ∃ j, s.dm.elements j ≠ 0#w ∧ s.dm.elements j = p
      · obtain ⟨j, hj, rfl⟩ := hfreed
        rw [hdeleted.freed j hj] at he
        cases he
      · rw [hdeleted.kept p fun j hj heq => hfreed ⟨j, hj, heq⟩] at he
        exact hconserved.counted p e he
    have hle := visitsIn_le_recorded dm p e.key
    rw [he] at hle
    simp only [visitsIn, if_true] at hle
    have hsum := hvisits e.key
    have hcount := hcounts e.key
    omega

/-- The element of the lost visit stays in memory. -/
theorem deleteDsMonitoring_frees_lost : ∃ dm, deleteDsMonitoring lostVisit.dm = some dm ∧ dm.recorded 5#64 = 1 ∧
    ∃ p, dm.heap p ≠ none := by
  have hone : lostVisit.dm.countAt 5#64 = 1 := by decide +kernel
  have htwo : callsFor oneIndex (fun _ : Fin 2 => ()) 5#64 = 2 := by decide +kernel
  obtain ⟨dm, hdelete, -, hvisits, hright⟩ := deleteDsMonitoring_frees (by simp) lostVisit_interleaved
    (by decide +kernel)
  have hcount := hvisits 5#64
  rw [hone, htwo] at hcount
  refine ⟨dm, hdelete, Nat.add_right_cancel hcount, ?_⟩
  by_contra hnone
  have hall := hright.mp (by simpa using hnone) 5#64
  rw [hone, htwo] at hall
  cases hall

end CachedBTree.Monitoring
