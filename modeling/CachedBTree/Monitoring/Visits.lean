import CachedBTree.Model.Monitoring
import CachedBTree.Support.Tally
import Mathlib.Data.FinEnum

/-! # What the counters say when all calls have returned

The additions are atomic, but a call that has found no element stores one of its own, and a
second call for the index that has found none either writes over it.  As long as no call
finds none while another is about to store one, every visit is counted. -/

namespace CachedBTree.Monitoring

open CachedBTree.Support

variable {w : Nat} {ε κ : Type} [Fintype κ] [DecidableEq κ] {ops : DsMonitoringOperations w ε} {elem : κ → ε}
  {s s' : Calls w κ} {c : κ} {addr : Ptr w}

/-- The call has added its visit to the element of its index. -/
def Phase.visited : Phase w → Bool
  | .total | .returned => true
  | _ => false

/-- The call has found no element and has not stored its own yet. -/
def Phase.storing : Phase w → Bool
  | .insert _ | .store _ => true
  | _ => false

/-- The next step of the call finds no element. -/
def Calls.findsNone (s : Calls w κ) (c : κ) : Bool :=
  match s.phase c with
  | .load i => s.dm.elements i = 0#w
  | _ => false

/-- A call that finds no element is the only one for its index that is about to store one. -/
def FindsAlone (ops : DsMonitoringOperations w ε) (elem : κ → ε) (c : κ) (s : Calls w κ) : Prop :=
  s.findsNone c = true → ∀ c', c' ≠ c → indexOf ops elem c' = indexOf ops elem c → (s.phase c').storing = false

instance decidableFindsAlone (c : κ) (s : Calls w κ) : Decidable (FindsAlone ops elem c s) :=
  inferInstanceAs (Decidable (_ → _))

/-- The calls for an index that have been counted. -/
def visits (ops : DsMonitoringOperations w ε) (elem : κ → ε) (s : Calls w κ) (i : Word w) : Nat :=
  (Finset.univ.filter fun c => (decide (indexOf ops elem c = some i) && (s.phase c).visited) = true).card

def finished (ops : DsMonitoringOperations w ε) (elem : κ → ε) (s : Calls w κ) : Nat :=
  (Finset.univ.filter fun c =>
    (decide ((indexOf ops elem c).isSome) && decide (s.phase c = .returned)) = true).card

/-- What holds as long as no visit is lost. -/
structure Counted (ops : DsMonitoringOperations w ε) (elem : κ → ε) (s : Calls w κ) : Prop where
  stored : ∀ i, s.dm.elements i ≠ 0#w → ∃ e, s.dm.heap (s.dm.elements i) = some e ∧ e.key = i ∧
    e.count = BitVec.ofNat 64 (visits ops elem s i)
  unseen : ∀ i, s.dm.elements i = 0#w → visits ops elem s i = 0
  total : s.dm.totalCounts = BitVec.ofNat 64 (finished ops elem s)
  load : ∀ c i, s.phase c = .load i → indexOf ops elem c = some i
  last : ∀ c, s.phase c = .total → (indexOf ops elem c).isSome
  found : ∀ c cur, s.phase c = .found cur → cur ≠ 0#w ∧ ∃ i, indexOf ops elem c = some i ∧ cur = s.dm.elements i
  insert : ∀ c i, s.phase c = .insert i → indexOf ops elem c = some i ∧ s.dm.elements i = 0#w
  store : ∀ c new, s.phase c = .store new → new ≠ 0#w ∧ ∃ e, s.dm.heap new = some e ∧ e.count = 1 ∧
    indexOf ops elem c = some e.key ∧ s.dm.elements e.key = 0#w
  alone : ∀ c c', indexOf ops elem c' = indexOf ops elem c → (s.phase c).storing = true →
    (s.phase c').storing = true → c' = c

omit [Fintype κ] in
/-- A call stands where it has gone to, or it is another call. -/
theorem Calls.goto_cases {c' : κ} {p q : Phase w} (h : (s.goto c p).phase c' = q) :
    c' = c ∧ p = q ∨ c' ≠ c ∧ s.phase c' = q := by
  by_cases heq : c' = c
  · subst heq
    have hself : (s.goto c' p).phase c' = p := Function.update_self _ _ _
    exact .inl ⟨rfl, hself.symm.trans h⟩
  · have hother : (s.goto c p).phase c' = s.phase c' := Function.update_of_ne heq _ _
    exact .inr ⟨heq, hother.symm.trans h⟩

/-- A call goes on; the calls counted for an index are as many as before, or one more. -/
theorem visits_goto (ops : DsMonitoringOperations w ε) (elem : κ → ε) (s : Calls w κ) (c : κ) (dm : DsMonitoring w)
    (p : Phase w) (i : Word w) :
    visits ops elem (({ s with dm := dm } : Calls w κ).goto c p) i +
        (decide (indexOf ops elem c = some i) && (s.phase c).visited).toNat =
      visits ops elem s i + (decide (indexOf ops elem c = some i) && p.visited).toNat :=
  card_filter_update (fun c (p : Phase w) => decide (indexOf ops elem c = some i) && p.visited) s.phase c p

theorem finished_goto (ops : DsMonitoringOperations w ε) (elem : κ → ε) (s : Calls w κ) (c : κ)
    (dm : DsMonitoring w) (p : Phase w) :
    finished ops elem (({ s with dm := dm } : Calls w κ).goto c p) +
        (decide ((indexOf ops elem c).isSome) && decide (s.phase c = .returned)).toNat =
      finished ops elem s + (decide ((indexOf ops elem c).isSome) && decide (p = .returned)).toNat :=
  card_filter_update (fun c (p : Phase w) => decide ((indexOf ops elem c).isSome) && decide (p = .returned))
    s.phase c p

omit [DecidableEq κ] in
theorem counted_init : Counted ops elem (.init : Calls w κ) where
  stored i h := absurd rfl h
  unseen i _ := by simp [visits, Calls.init, Phase.visited]
  total := by simp [finished, Calls.init, DsMonitoring.init]
  load c i h := by cases h
  last c h := by cases h
  found c cur h := by cases h
  insert c i h := by cases h
  store c new h := by cases h
  alone c c' _ h := by cases h

omit [Fintype κ] in
/-- Two calls for one index are about to store: neither has just begun to. -/
theorem alone_goto {dm : DsMonitoring w} {p : Phase w}
    (h : ∀ c c', indexOf ops elem c' = indexOf ops elem c → (s.phase c).storing = true →
      (s.phase c').storing = true → c' = c)
    (hp : p.storing = true → ∀ c', c' ≠ c → indexOf ops elem c' = indexOf ops elem c →
      (s.phase c').storing = false) :
    ∀ c₁ c₂, indexOf ops elem c₂ = indexOf ops elem c₁ →
      ((({ s with dm := dm } : Calls w κ).goto c p).phase c₁).storing = true →
      ((({ s with dm := dm } : Calls w κ).goto c p).phase c₂).storing = true → c₂ = c₁ := by
  intro c₁ c₂ hindex h₁ h₂
  generalize hq₁ : (({ s with dm := dm } : Calls w κ).goto c p).phase c₁ = q₁ at h₁
  generalize hq₂ : (({ s with dm := dm } : Calls w κ).goto c p).phase c₂ = q₂ at h₂
  rcases Calls.goto_cases hq₁ with ⟨rfl, rfl⟩ | ⟨hne₁, rfl⟩ <;>
    rcases Calls.goto_cases hq₂ with ⟨rfl, rfl⟩ | ⟨hne₂, rfl⟩
  · rfl
  · exact absurd h₂ (by rw [hp h₁ c₂ hne₂ hindex]; exact Bool.false_ne_true)
  · exact absurd h₁ (by rw [hp h₂ c₁ hne₁ hindex.symm]; exact Bool.false_ne_true)
  · exact h c₁ c₂ hindex h₁ h₂

/-- A step that changes neither the monitor nor what is counted. -/
theorem Counted.goto {p : Phase w} (h : Counted ops elem s)
    (hvisited : ∀ i, indexOf ops elem c = some i → p.visited = (s.phase c).visited)
    (hreturned : (indexOf ops elem c).isSome → p ≠ .returned ∧ s.phase c ≠ .returned)
    (hload : ∀ i, p = .load i → indexOf ops elem c = some i)
    (hfound : ∀ cur, p = .found cur → cur ≠ 0#w ∧ ∃ i, indexOf ops elem c = some i ∧ cur = s.dm.elements i)
    (hinsert : ∀ i, p = .insert i → indexOf ops elem c = some i ∧ s.dm.elements i = 0#w)
    (hstoring : p.storing = true → ∀ c', c' ≠ c → indexOf ops elem c' = indexOf ops elem c →
      (s.phase c').storing = false)
    (hstore : ∀ new, p ≠ .store new) (hlast : p ≠ .total) : Counted ops elem (s.goto c p) := by
  -- no caller finishes and none visits, so the sums stay
  have hvisits : ∀ i, visits ops elem (s.goto c p) i = visits ops elem s i := by
    intro i
    have hcount := visits_goto ops elem s c s.dm p i
    by_cases hi : indexOf ops elem c = some i
    · rw [hvisited i hi] at hcount
      exact Nat.add_right_cancel hcount
    · simpa [hi] using hcount
  have hfinished : finished ops elem (s.goto c p) = finished ops elem s := by
    have hcount := finished_goto ops elem s c s.dm p
    by_cases hi : (indexOf ops elem c).isSome
    · obtain ⟨hp, hold⟩ := hreturned hi
      simpa [hp, hold] using hcount
    · simpa [hi] using hcount
  refine ⟨fun i hi => ?_, fun i hi => ?_, ?_, fun c' i hc' => ?_, fun c' hc' => ?_, fun c' cur hc' => ?_,
    fun c' i hc' => ?_, fun c' new hc' => ?_, alone_goto h.alone hstoring⟩
  · rw [hvisits i]
    exact h.stored i hi
  · rw [hvisits i]
    exact h.unseen i hi
  · rw [hfinished]
    exact h.total
  · rcases Calls.goto_cases hc' with ⟨rfl, hp⟩ | ⟨-, hold⟩
    · exact hload i hp
    · exact h.load c' i hold
  · rcases Calls.goto_cases hc' with ⟨rfl, hp⟩ | ⟨-, hold⟩
    · exact absurd hp hlast
    · exact h.last c' hold
  · rcases Calls.goto_cases hc' with ⟨rfl, hp⟩ | ⟨-, hold⟩
    · exact hfound cur hp
    · exact h.found c' cur hold
  · rcases Calls.goto_cases hc' with ⟨rfl, hp⟩ | ⟨-, hold⟩
    · exact hinsert i hp
    · exact h.insert c' i hold
  · rcases Calls.goto_cases hc' with ⟨rfl, hp⟩ | ⟨-, hold⟩
    · exact absurd hp (hstore new)
    · exact h.store c' new hold

/-- Calls at other phases than the one that moves are where they were. -/
theorem Counted.others (h : Counted ops elem s) (c : κ) (dm : DsMonitoring w) {p : Phase w}
    (hp : p = .total ∨ p = .returned ∨ ∃ new, p = .store new) :
    (∀ c' i, (({ s with dm := dm } : Calls w κ).goto c p).phase c' = .load i →
      indexOf ops elem c' = some i) ∧
    (∀ c' cur, (({ s with dm := dm } : Calls w κ).goto c p).phase c' = .found cur →
      c' ≠ c ∧ s.phase c' = .found cur) ∧
    ∀ c' i, (({ s with dm := dm } : Calls w κ).goto c p).phase c' = .insert i →
      c' ≠ c ∧ s.phase c' = .insert i := by
  refine ⟨fun c' i hc' => ?_, fun c' cur hc' => ?_, fun c' i hc' => ?_⟩ <;>
    rcases Calls.goto_cases hc' with ⟨rfl, rfl⟩ | ⟨hne, hold⟩
  · simp at hp
  · exact h.load c' i hold
  · simp at hp
  · exact ⟨hne, hold⟩
  · simp at hp
  · exact ⟨hne, hold⟩

/-- One more visit is added to an element. -/
theorem Counted.added {cur : Ptr w} {e : DsMonitoringElem w} (h : Counted ops elem s)
    (hphase : s.phase c = .found cur) (he : s.dm.heap cur = some e) :
    Counted ops elem ({ s with dm := s.dm.setElem cur { e with count := e.count + 1 } }.goto c .total) := by
  obtain ⟨hne, i₀, hindex, hcur⟩ := h.found c cur hphase
  obtain ⟨e', he', hkey, hcount⟩ := h.stored i₀ (hcur ▸ hne)
  rw [← hcur, he] at he'
  obtain rfl := Option.some.inj he'
  have hself := s.dm.setElem_self cur { e with count := e.count + 1 }
  have hother : ∀ x, x ≠ cur → (s.dm.setElem cur { e with count := e.count + 1 }).heap x = s.dm.heap x :=
    fun x hx => DsMonitoring.setElem_of_ne hx
  have helements : (s.dm.setElem cur { e with count := e.count + 1 }).elements = s.dm.elements := rfl
  have htotal : (s.dm.setElem cur { e with count := e.count + 1 }).totalCounts = s.dm.totalCounts := rfl
  generalize s.dm.setElem cur { e with count := e.count + 1 } = dm at hself hother helements htotal ⊢
  obtain ⟨hload, hfound, hinsert⟩ := h.others c dm (.inl rfl)
  have hsame : ∀ i, i ≠ i₀ → visits ops elem ({ s with dm := dm }.goto c .total) i = visits ops elem s i := by
    intro i hi
    have hcount := visits_goto ops elem s c dm .total i
    simpa [hindex, Ne.symm hi] using hcount
  have hmore : visits ops elem ({ s with dm := dm }.goto c .total) i₀ = visits ops elem s i₀ + 1 := by
    have hcount := visits_goto ops elem s c dm .total i₀
    simpa [hindex, hphase, Phase.visited] using hcount
  have hfinished : finished ops elem ({ s with dm := dm }.goto c .total) = finished ops elem s := by
    have hcount := finished_goto ops elem s c dm .total
    simpa [hphase] using hcount
  refine ⟨fun i hi => ?_, fun i hi => ?_, ?_, hload, fun c' hc' => ?_, fun c' cur' hc' => ?_,
    fun c' i hc' => ?_, fun c' new hc' => ?_, alone_goto h.alone (by simp [Phase.storing])⟩
  · change dm.elements i ≠ 0#w at hi
    change ∃ e, dm.heap (dm.elements i) = some e ∧ _
    rw [helements] at hi ⊢
    by_cases hi₀ : i = i₀
    · subst hi₀
      rw [← hcur, hself, hmore]
      exact ⟨_, rfl, hkey, by rw [hcount, BitVec.ofNat_add]; rfl⟩
    · obtain ⟨e', he', hkey', hcount'⟩ := h.stored i hi
      have hx : s.dm.elements i ≠ cur := fun heq => by
        rw [heq, he] at he'
        exact hi₀ (hkey'.symm.trans ((congrArg _ (Option.some.inj he')).symm.trans hkey))
      rw [hother _ hx, hsame i hi₀]
      exact ⟨e', he', hkey', hcount'⟩
  · change dm.elements i = 0#w at hi
    rw [helements] at hi
    have hi₀ : i ≠ i₀ := fun heq => hne (by rw [hcur, ← heq, hi])
    rw [hsame i hi₀]
    exact h.unseen i hi
  · rw [hfinished]
    exact htotal.trans h.total
  · rcases Calls.goto_cases hc' with ⟨rfl, -⟩ | ⟨-, hold⟩
    · rw [hindex]
      rfl
    · exact h.last c' hold
  · exact helements.symm ▸ h.found c' cur' (hfound c' cur' hc').2
  · exact helements.symm ▸ h.insert c' i (hinsert c' i hc').2
  · rcases Calls.goto_cases hc' with ⟨-, hp⟩ | ⟨-, hold⟩
    · cases hp
    · obtain ⟨hnew, e', he', hcount', hindex', hnone⟩ := h.store c' new hold
      have hx : new ≠ cur := fun heq => by
        rw [heq, he] at he'
        obtain rfl := Option.some.inj he'
        rw [hkey] at hnone
        exact hne (hcur.trans hnone)
      exact ⟨hnew, e', (hother new hx).trans he', hcount', hindex', by rw [← hnone]; exact congrFun helements _⟩

/-- `insert_ds_monitoring` has made an element. -/
theorem Counted.made {i : Word w} {name : Option String} (h : Counted ops elem s)
    (hphase : s.phase c = .insert i) (hne : addr ≠ 0#w) (hfree : s.dm.heap addr = none) :
    Counted ops elem ({ s with dm := s.dm.setElem addr ⟨i, name, 1⟩ }.goto c (.store addr)) := by
  obtain ⟨hindex, hnone⟩ := h.insert c i hphase
  have hself := s.dm.setElem_self addr ⟨i, name, 1⟩
  have hother : ∀ x, s.dm.heap x ≠ none → (s.dm.setElem addr ⟨i, name, 1⟩).heap x = s.dm.heap x :=
    fun x hx => DsMonitoring.setElem_of_ne fun heq => hx (heq ▸ hfree)
  have helements : (s.dm.setElem addr ⟨i, name, 1⟩).elements = s.dm.elements := rfl
  have htotal : (s.dm.setElem addr ⟨i, name, 1⟩).totalCounts = s.dm.totalCounts := rfl
  generalize s.dm.setElem addr ⟨i, name, 1⟩ = dm at hself hother helements htotal ⊢
  obtain ⟨hload, hfound, hinsert⟩ := h.others c dm (.inr (.inr ⟨addr, rfl⟩))
  have hvisits : ∀ j, visits ops elem ({ s with dm := dm }.goto c (.store addr)) j = visits ops elem s j := by
    intro j
    have hcount := visits_goto ops elem s c dm (.store addr) j
    simpa [hphase, Phase.visited] using hcount
  have hfinished : finished ops elem ({ s with dm := dm }.goto c (.store addr)) = finished ops elem s := by
    have hcount := finished_goto ops elem s c dm (.store addr)
    simpa [hphase] using hcount
  have halone : ∀ c', c' ≠ c → indexOf ops elem c' = indexOf ops elem c → (s.phase c').storing = false := by
    intro c' hc' heq
    by_contra hstoring
    exact hc' (h.alone c c' heq (by rw [hphase]; rfl) (by simpa using hstoring))
  refine ⟨fun j hj => ?_, fun j hj => ?_, ?_, hload, fun c' hc' => ?_, fun c' cur' hc' => ?_,
    fun c' j hc' => ?_, fun c' new hc' => ?_, alone_goto h.alone fun _ => halone⟩
  · change dm.elements j ≠ 0#w at hj
    change ∃ e, dm.heap (dm.elements j) = some e ∧ _
    rw [helements] at hj ⊢
    obtain ⟨e, he, hkey, hcount⟩ := h.stored j hj
    rw [hother _ (by rw [he]; exact Option.some_ne_none e), hvisits j]
    exact ⟨e, he, hkey, hcount⟩
  · rw [hvisits j]
    exact h.unseen j ((congrFun helements j).symm.trans hj)
  · rw [hfinished]
    exact htotal.trans h.total
  · rcases Calls.goto_cases hc' with ⟨-, hp⟩ | ⟨-, hold⟩
    · cases hp
    · exact h.last c' hold
  · exact helements.symm ▸ h.found c' cur' (hfound c' cur' hc').2
  · exact helements.symm ▸ h.insert c' j (hinsert c' j hc').2
  · rcases Calls.goto_cases hc' with ⟨rfl, hp⟩ | ⟨-, hold⟩
    · obtain rfl : addr = new := by cases hp; rfl
      exact ⟨hne, _, hself, rfl, hindex, (congrFun helements i).trans hnone⟩
    · obtain ⟨hnew, e, he, hcount, hindex', hnone'⟩ := h.store c' new hold
      exact ⟨hnew, e, (hother new (by rw [he]; exact Option.some_ne_none e)).trans he, hcount, hindex',
        (congrFun helements _).trans hnone'⟩

/-- The first element of an index is stored. -/
theorem Counted.stores {new : Ptr w} {e : DsMonitoringElem w} (h : Counted ops elem s)
    (hphase : s.phase c = .store new) (he : s.dm.heap new = some e) :
    Counted ops elem ({ s with dm := s.dm.xaStore e.key new }.goto c .total) := by
  obtain ⟨hne, e', he', hone, hindex, hnone⟩ := h.store c new hphase
  rw [he] at he'
  obtain rfl := Option.some.inj he'
  have hself := s.dm.xaStore_self e.key new
  have hother : ∀ j, j ≠ e.key → (s.dm.xaStore e.key new).elements j = s.dm.elements j :=
    fun j hj => DsMonitoring.xaStore_of_ne hj
  have hheap : (s.dm.xaStore e.key new).heap = s.dm.heap := rfl
  have htotal : (s.dm.xaStore e.key new).totalCounts = s.dm.totalCounts := rfl
  generalize s.dm.xaStore e.key new = dm at hself hother hheap htotal ⊢
  obtain ⟨hload, hfound, hinsert⟩ := h.others c dm (.inl rfl)
  have hsame : ∀ j, j ≠ e.key → visits ops elem ({ s with dm := dm }.goto c .total) j = visits ops elem s j := by
    intro j hj
    have hcount := visits_goto ops elem s c dm .total j
    simpa [hindex, Ne.symm hj] using hcount
  have hfirst : visits ops elem ({ s with dm := dm }.goto c .total) e.key = 1 := by
    have hcount := visits_goto ops elem s c dm .total e.key
    rw [h.unseen _ hnone] at hcount
    simpa [hindex, hphase, Phase.visited] using hcount
  have hfinished : finished ops elem ({ s with dm := dm }.goto c .total) = finished ops elem s := by
    have hcount := finished_goto ops elem s c dm .total
    simpa [hphase] using hcount
  -- no other call for the index is storing
  have hapart : ∀ c' k, c' ≠ c → indexOf ops elem c' = some k → (s.phase c').storing = true → k ≠ e.key := by
    rintro c' k hc' hk hstoring rfl
    exact hc' (h.alone c c' (hk.trans hindex.symm) (by rw [hphase]; rfl) hstoring)
  refine ⟨fun j hj => ?_, fun j hj => ?_, ?_, hload, fun c' hc' => ?_, fun c' cur hc' => ?_,
    fun c' j hc' => ?_, fun c' new' hc' => ?_, alone_goto h.alone (by simp [Phase.storing])⟩
  · change dm.elements j ≠ 0#w at hj
    change ∃ a, dm.heap (dm.elements j) = some a ∧ _
    rw [hheap]
    by_cases hkey : j = e.key
    · subst hkey
      rw [hself, hfirst]
      exact ⟨e, he, rfl, hone⟩
    · rw [hother j hkey] at hj ⊢
      rw [hsame j hkey]
      exact h.stored j hj
  · change dm.elements j = 0#w at hj
    have hkey : j ≠ e.key := fun heq => hne (by rw [← hself, ← heq, hj])
    rw [hsame j hkey]
    exact h.unseen j ((hother j hkey).symm.trans hj)
  · rw [hfinished]
    exact htotal.trans h.total
  · rcases Calls.goto_cases hc' with ⟨rfl, -⟩ | ⟨-, hold⟩
    · rw [hindex]
      rfl
    · exact h.last c' hold
  · obtain ⟨hcur, j, hj, heq⟩ := h.found c' cur (hfound c' cur hc').2
    have hkey : j ≠ e.key := fun hk => hcur (by rw [heq, hk, hnone])
    exact ⟨hcur, j, hj, heq.trans (hother j hkey).symm⟩
  · obtain ⟨hc'ne, hold⟩ := hinsert c' j hc'
    obtain ⟨hj, hnone'⟩ := h.insert c' j hold
    exact ⟨hj, (hother j (hapart c' j hc'ne hj (by rw [hold]; rfl))).trans hnone'⟩
  · rcases Calls.goto_cases hc' with ⟨-, hp⟩ | ⟨hc'ne, hold⟩
    · cases hp
    · obtain ⟨hnew, a, ha, hcount, hj, hnone'⟩ := h.store c' new' hold
      exact ⟨hnew, a, (congrFun hheap new').trans ha, hcount, hj,
        (hother _ (hapart c' _ hc'ne hj (by rw [hold]; rfl))).trans hnone'⟩

theorem Counted.totalled (h : Counted ops elem s) (hphase : s.phase c = .total) :
    Counted ops elem ({ s with dm := { s.dm with totalCounts := s.dm.totalCounts + 1 } }.goto c .returned) := by
  have helements : ({ s.dm with totalCounts := s.dm.totalCounts + 1 } : DsMonitoring w).elements =
      s.dm.elements := rfl
  have hheap : ({ s.dm with totalCounts := s.dm.totalCounts + 1 } : DsMonitoring w).heap = s.dm.heap := rfl
  have htotal : ({ s.dm with totalCounts := s.dm.totalCounts + 1 } : DsMonitoring w).totalCounts =
      s.dm.totalCounts + 1 := rfl
  generalize ({ s.dm with totalCounts := s.dm.totalCounts + 1 } : DsMonitoring w) = dm
    at helements hheap htotal ⊢
  obtain ⟨hload, hfound, hinsert⟩ := h.others c dm (.inr (.inl rfl))
  have hvisits : ∀ j, visits ops elem ({ s with dm := dm }.goto c .returned) j = visits ops elem s j := by
    intro j
    have hcount := visits_goto ops elem s c dm .returned j
    rw [hphase] at hcount
    exact Nat.add_right_cancel hcount
  have hfinished : finished ops elem ({ s with dm := dm }.goto c .returned) = finished ops elem s + 1 := by
    have hcount := finished_goto ops elem s c dm .returned
    simpa [hphase, h.last c hphase] using hcount
  refine ⟨fun j hj => ?_, fun j hj => ?_, ?_, hload, fun c' hc' => ?_, fun c' cur hc' => ?_,
    fun c' j hc' => ?_, fun c' new hc' => ?_, alone_goto h.alone (by simp [Phase.storing])⟩
  · change dm.elements j ≠ 0#w at hj
    change ∃ a, dm.heap (dm.elements j) = some a ∧ _
    rw [helements] at hj ⊢
    rw [hheap, hvisits j]
    exact h.stored j hj
  · rw [hvisits j]
    exact h.unseen j ((congrFun helements j).symm.trans hj)
  · rw [hfinished]
    change dm.totalCounts = _
    rw [htotal, h.total, BitVec.ofNat_add]
    rfl
  · rcases Calls.goto_cases hc' with ⟨-, hp⟩ | ⟨-, hold⟩
    · cases hp
    · exact h.last c' hold
  · exact helements.symm ▸ h.found c' cur (hfound c' cur hc').2
  · exact helements.symm ▸ h.insert c' j (hinsert c' j hc').2
  · rcases Calls.goto_cases hc' with ⟨-, hp⟩ | ⟨-, hold⟩
    · cases hp
    · exact helements.symm ▸ hheap.symm ▸ h.store c' new hold

/-! ## Every run -/

/-- One step of any call. -/
theorem Counted.step (h : Counted ops elem s) (halone : FindsAlone ops elem c s)
    (hstep : step ops elem c addr s = some s') : Counted ops elem s' := by
  unfold Monitoring.step at hstep
  cases hphase : s.phase c with
  | call =>
    simp only [hphase] at hstep
    cases hindex : ops.getIndex with
    | none =>
      simp only [hindex] at hstep
      obtain rfl := Option.some.inj hstep
      have hnone : indexOf ops elem c = none := by rw [indexOf, hindex, Option.map_none]
      exact h.goto (by simp [hnone]) (by simp [hnone]) (by simp) (by simp) (by simp)
        (by simp [Phase.storing]) (by simp) (by simp)
    | some getIndex =>
      simp only [hindex] at hstep
      obtain rfl := Option.some.inj hstep
      have hsome : indexOf ops elem c = some (getIndex (elem c)) := by rw [indexOf, hindex, Option.map_some]
      exact h.goto (by simp [hphase, Phase.visited]) (by simp [hphase]) (by simp [hsome]) (by simp) (by simp)
        (by simp [Phase.storing]) (by simp) (by simp)
  | load i =>
    simp only [hphase] at hstep
    obtain rfl := Option.some.inj hstep
    have hindex := h.load c i hphase
    by_cases hcur : s.dm.elements i = 0#w
    · rw [if_neg (not_not_intro hcur)]
      have hnone : s.findsNone c = true := by simp [Calls.findsNone, hphase, hcur]
      exact h.goto (by simp [hphase, Phase.visited]) (by simp [hphase]) (by simp) (by simp)
        (fun j hj => by cases hj; exact ⟨hindex, hcur⟩) (fun _ => halone hnone) (by simp) (by simp)
    · rw [if_pos hcur]
      exact h.goto (by simp [hphase, Phase.visited]) (by simp [hphase]) (by simp)
        (fun p hp => by cases hp; exact ⟨hcur, i, hindex, rfl⟩) (by simp) (by simp [Phase.storing]) (by simp)
        (by simp)
  | found cur =>
    simp only [hphase] at hstep
    cases he : s.dm.heap cur with
    | none => simp [he] at hstep
    | some e =>
      simp only [he] at hstep
      obtain rfl := Option.some.inj hstep
      exact h.added hphase he
  | insert i =>
    simp only [hphase] at hstep
    by_cases hbad : addr = 0#w ∨ (s.dm.heap addr).isSome
    · rw [if_pos hbad] at hstep
      cases hstep
    · rw [if_neg hbad] at hstep
      obtain rfl := Option.some.inj hstep
      obtain ⟨hne, hfree⟩ := not_or.mp hbad
      exact h.made hphase hne (by simpa using hfree)
  | store new =>
    simp only [hphase] at hstep
    cases he : s.dm.heap new with
    | none => simp [he] at hstep
    | some e =>
      simp only [he] at hstep
      obtain rfl := Option.some.inj hstep
      exact h.stores hphase he
  | total =>
    simp only [hphase] at hstep
    obtain rfl := Option.some.inj hstep
    exact h.totalled hphase
  | returned => simp [hphase] at hstep

theorem counted_of_interleaved (h : Interleaved ops elem (FindsAlone ops elem) .init s) :
    Counted ops elem s := by
  induction h with
  | refl => exact counted_init
  | tail _ hlast ih =>
    obtain ⟨c, addr, halone, hstep⟩ := hlast
    exact ih.step halone hstep

/-- All visits have been counted. -/
structure CountsRight (ops : DsMonitoringOperations w ε) (elem : κ → ε) (s : Calls w κ) : Prop where
  elements : ∀ i, s.dm.countAt i = callsFor ops elem i
  total : s.dm.totalCounts.toNat = ∑ i, s.dm.countAt i

omit [DecidableEq κ] in
/-- The calls for the indices together are the calls that have one. -/
theorem sum_callsFor (ops : DsMonitoringOperations w ε) (elem : κ → ε) :
    ∑ i : Word w, callsFor ops elem i = (Finset.univ.filter fun c => (indexOf ops elem c).isSome = true).card := by
  cases hindex : ops.getIndex with
  | none => simp [callsFor, indexOf, hindex]
  | some getIndex =>
    have hcard := Finset.card_eq_sum_card_fiberwise (f := fun c => getIndex (elem c))
      (s := Finset.univ) (t := Finset.univ) fun _ _ => Finset.mem_coe.mpr (Finset.mem_univ _)
    simp only [callsFor, indexOf, hindex, Option.map_some, Option.some.injEq, Option.isSome_some,
      Finset.filter_true]
    exact hcard.symm

/-- In every interleaving in which no call finds no element while another is about to store one for the
same index, the counters are exact in the end. -/
theorem findDsMonitoring_counts (hfew : Fintype.card κ < 2 ^ 64)
    (h : Interleaved ops elem (FindsAlone ops elem) .init s) (hdone : ∀ c, s.phase c = .returned) :
    CountsRight ops elem s := by
  have hcounted := counted_of_interleaved h
  have hvisits : ∀ i, visits ops elem s i = callsFor ops elem i := fun i => by
    simp [visits, callsFor, hdone, Phase.visited]
  have hfinished : finished ops elem s = ∑ i : Word w, callsFor ops elem i := by
    rw [sum_callsFor]
    simp [finished, hdone]
  have helements : ∀ i, s.dm.countAt i = callsFor ops elem i := by
    intro i
    unfold DsMonitoring.countAt
    by_cases hi : s.dm.elements i = 0#w
    · rw [if_pos hi, ← hvisits i, hcounted.unseen i hi]
    · obtain ⟨e, he, -, hcount⟩ := hcounted.stored i hi
      have hle : callsFor ops elem i ≤ Fintype.card κ := Finset.card_le_univ _
      simp only [if_neg hi, he, hcount, hvisits i, BitVec.toNat_ofNat]
      exact Nat.mod_eq_of_lt (by omega)
  refine ⟨helements, ?_⟩
  have hle : finished ops elem s ≤ Fintype.card κ := Finset.card_le_univ _
  rw [hcounted.total, BitVec.toNat_ofNat, Nat.mod_eq_of_lt (by omega), hfinished]
  exact Finset.sum_congr rfl fun i _ => (helements i).symm

/-- Every element is monitored under the one index 5. -/
def oneIndex : DsMonitoringOperations 64 Unit := ⟨some fun _ => 5#64, none⟩

/-- Two calls, one after the other. -/
def inTurn : Calls 64 (Fin 2) :=
  runAll oneIndex (fun _ => ()) (FindsAlone oneIndex fun _ => ())
    ([0, 0, 0, 0, 0, 1, 1, 1, 1].map fun c => (c, 0x1000#64)) .init

theorem inTurn_interleaved : Interleaved oneIndex (fun _ => ()) (FindsAlone oneIndex fun _ => ()) .init inTurn :=
  interleaved_runAll _ _ _ _ _

theorem findDsMonitoring_counts_in_turn : inTurn.dm.countAt 5#64 = 2 ∧ CountsRight oneIndex (fun _ => ()) inTurn := by
  have hdone : ∀ c, inTurn.phase c = .returned := by decide +kernel
  have hright := findDsMonitoring_counts (by simp) inTurn_interleaved hdone
  exact ⟨hright.elements 5#64, hright⟩

/-- Two calls that both find no element: the second one stores its own over the first. -/
def lostVisit : Calls 64 (Fin 2) :=
  runAll oneIndex (fun _ => ()) (fun _ _ => True)
    [(0, 0#64), (0, 0#64), (1, 0#64), (1, 0#64), (0, 0x1000#64), (1, 0x2000#64), (0, 0#64), (1, 0#64),
      (0, 0#64), (1, 0#64)] .init

theorem findDsMonitoring_loses_visit :
    ¬∀ s : Calls 64 (Fin 2), Interleaved oneIndex (fun _ => ()) (fun _ _ => True) .init s →
      (∀ c, s.phase c = .returned) → CountsRight oneIndex (fun _ => ()) s := by
  intro hevery
  have hdone : ∀ c, lostVisit.phase c = .returned := by decide +kernel
  have hright := hevery lostVisit (interleaved_runAll _ _ _ _ _) hdone
  have hone : lostVisit.dm.countAt 5#64 = 1 := by decide +kernel
  have htwo : callsFor oneIndex (fun _ : Fin 2 => ()) 5#64 = 2 := by decide +kernel
  have hcount := hright.elements 5#64
  rw [hone, htwo] at hcount
  cases hcount

end CachedBTree.Monitoring
