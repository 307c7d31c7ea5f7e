import CachedBTree.Model.Memory
import Mathlib.Data.Fintype.Card
import Mathlib.Logic.Relation

/-! # `find_ds_monitoring`

`ds_monitoring.c`: a counter for each index that has been visited, kept in an XArray.  A
number of calls run at the same time on one monitor.  A step of a call is one access to
what they share: `xa_load`, `xa_store`, an atomic addition, or the allocation of an element. -/

namespace CachedBTree.Monitoring

open Relation

variable {w : Nat} {ε κ : Type}

/-- `struct ds_monitoring_operations`, without the function that prints. -/
structure DsMonitoringOperations (w : Nat) (ε : Type) where
  getIndex : Option (ε → Word w)
  getName : Option (ε → String)

structure DsMonitoringElem (w : Nat) where
  key : Word w
  name : Option String
  count : BitVec 64

/-- `struct ds_monitoring`, with the elements in memory.  `elements` is the XArray. -/
structure DsMonitoring (w : Nat) where
  elements : Word w → Ptr w
  totalCounts : BitVec 64
  heap : Ptr w → Option (DsMonitoringElem w)

/-- `DS_MONITORING_INIT` -/
def DsMonitoring.init : DsMonitoring w := ⟨fun _ => 0#w, 0, fun _ => none⟩

def DsMonitoring.setElem (dm : DsMonitoring w) (p : Ptr w) (e : DsMonitoringElem w) : DsMonitoring w :=
  { dm with heap := Function.update dm.heap p (some e) }

def DsMonitoring.xaStore (dm : DsMonitoring w) (xaIndex : Word w) (p : Ptr w) : DsMonitoring w :=
  { dm with elements := Function.update dm.elements xaIndex p }

theorem DsMonitoring.setElem_self (dm : DsMonitoring w) (p : Ptr w) (e : DsMonitoringElem w) :
    (dm.setElem p e).heap p = some e := Function.update_self _ _ _

theorem DsMonitoring.setElem_of_ne {dm : DsMonitoring w} {p x : Ptr w} {e : DsMonitoringElem w} (hx : x ≠ p) :
    (dm.setElem p e).heap x = dm.heap x := Function.update_of_ne hx _ _

theorem DsMonitoring.xaStore_self (dm : DsMonitoring w) (i : Word w) (p : Ptr w) :
    (dm.xaStore i p).elements i = p := Function.update_self _ _ _

theorem DsMonitoring.xaStore_of_ne {dm : DsMonitoring w} {i j : Word w} {p : Ptr w} (hj : j ≠ i) :
    (dm.xaStore i p).elements j = dm.elements j := Function.update_of_ne hj _ _

/-- Where a call of `find_ds_monitoring` stands. -/
inductive Phase (w : Nat) where
  | call
  | load (xaIndex : Word w)      -- before xa_load
  | found (cur : Ptr w)          -- before __sync_fetch_and_add(&cur->count, 1)
  | insert (xaIndex : Word w)    -- in insert_ds_monitoring, before kmalloc
  | store (new : Ptr w)          -- before xa_store
  | total                        -- before __sync_fetch_and_add(&dm->total_counts, 1)
  | returned
  deriving DecidableEq

/-- The monitor and the calls on it. -/
structure Calls (w : Nat) (κ : Type) where
  dm : DsMonitoring w
  phase : κ → Phase w

def Calls.init : Calls w κ := ⟨.init, fun _ => .call⟩

section

variable [DecidableEq κ] (ops : DsMonitoringOperations w ε) (elem : κ → ε)

def Calls.goto (s : Calls w κ) (c : κ) (p : Phase w) : Calls w κ :=
  { s with phase := Function.update s.phase c p }

/-- One step of call `c`; `addr` is what `kmalloc` returns, which does not fail. -/
def step (c : κ) (addr : Ptr w) (s : Calls w κ) : Option (Calls w κ) :=
  match s.phase c with
  | .call =>
    match ops.getIndex with
    | none => some (s.goto c .returned)
    | some getIndex => some (s.goto c (.load (getIndex (elem c))))
  | .load xaIndex =>
    let cur := s.dm.elements xaIndex
    some (s.goto c (if cur ≠ 0#w then .found cur else .insert xaIndex))
  | .found cur =>
    match s.dm.heap cur with
    | none => none
    | some e => some ({ s with dm := s.dm.setElem cur { e with count := e.count + 1 } }.goto c .total)
  | .insert xaIndex =>
    if addr = 0#w ∨ (s.dm.heap addr).isSome then none
    else
      let new : DsMonitoringElem w := ⟨xaIndex, ops.getName.map fun getName => getName (elem c), 1⟩
      some ({ s with dm := s.dm.setElem addr new }.goto c (.store addr))
  | .store new =>
    match s.dm.heap new with
    | none => none
    | some e => some ({ s with dm := s.dm.xaStore e.key new }.goto c .total)
  | .total => some ({ s with dm := { s.dm with totalCounts := s.dm.totalCounts + 1 } }.goto c .returned)
  | .returned => none

/-- A step of a call that may take it. -/
def Step (allowed : κ → Calls w κ → Prop) (s s' : Calls w κ) : Prop :=
  ∃ c addr, allowed c s ∧ step ops elem c addr s = some s'

/-- What the calls can lead to, with their steps in any order. -/
def Interleaved (allowed : κ → Calls w κ → Prop) : Calls w κ → Calls w κ → Prop :=
  ReflTransGen (Step ops elem allowed)

/-- The steps of a schedule, up to the first that cannot be taken. -/
def runAll (allowed : κ → Calls w κ → Prop) [∀ c s, Decidable (allowed c s)] :
    List (κ × Ptr w) → Calls w κ → Calls w κ
  | [], s => s
  | (c, addr) :: l, s =>
    if allowed c s then
      match step ops elem c addr s with
      | some s => runAll allowed l s
      | none => s
    else s

theorem interleaved_runAll (allowed : κ → Calls w κ → Prop) [∀ c s, Decidable (allowed c s)] :
    ∀ (l : List (κ × Ptr w)) (s : Calls w κ),
      Interleaved ops elem allowed s (runAll ops elem allowed l s) := by
  intro l
  induction l with
  | nil =>
    intro _
    exact .refl
  | cons first l ih =>
    obtain ⟨c, addr⟩ := first
    intro s
    unfold runAll
    split
    next hc =>
      split
      next s₁ hstep => exact .head ⟨c, addr, hc, hstep⟩ (ih s₁)
      next => exact .refl
    next => exact .refl

end

/-! ## Calls one after another -/

section

variable (ops : DsMonitoringOperations w ε)

/-- `insert_ds_monitoring`, with what its `kmalloc` returns; `none` stands for a failed allocation. -/
def insertDsMonitoring (index : Word w) (elem : ε) (addr : Ptr w) (dm : DsMonitoring w) :
    Option (DsMonitoring w) :=
  if addr = 0#w ∨ (dm.heap addr).isSome then none
  else
    let new : DsMonitoringElem w := ⟨index, ops.getName.map fun getName => getName elem, 1⟩
    some ((dm.setElem addr new).xaStore new.key addr)

/-- `find_ds_monitoring`, run without a break. -/
def findDsMonitoring (elem : ε) (addr : Ptr w) (dm : DsMonitoring w) : Option (DsMonitoring w) :=
  match ops.getIndex with
  | none => some dm
  | some getIndex => do
    let xaIndex := getIndex elem
    let cur := dm.elements xaIndex
    let dm ← if cur ≠ 0#w then
        (dm.heap cur).map fun e => dm.setElem cur { e with count := e.count + 1 }
      else insertDsMonitoring ops xaIndex elem addr dm
    some { dm with totalCounts := dm.totalCounts + 1 }

def findAll : List (ε × Ptr w) → DsMonitoring w → Option (DsMonitoring w)
  | [], dm => some dm
  | (elem, addr) :: calls, dm => do
    let dm ← findDsMonitoring ops elem addr dm
    findAll calls dm

end

/-! ## print_ds_monitoring -/

/-- One call of `print_elem`. -/
structure PrintElem (w : Nat) where
  index : Word w
  name : Option String
  count : BitVec 64
  percentage : BitVec 32
  deriving DecidableEq

/-- The indices that `xa_for_each` goes through. -/
def xaIndices (elements : Word w → Ptr w) : List (Word w) :=
  ((List.range (2 ^ w)).map (BitVec.ofNat w)).filter fun i => elements i ≠ 0#w

/-- The body of the loop for each index; `none` when no element is found in memory. -/
def printLoop (dm : DsMonitoring w) : List (Word w) → Option (List (PrintElem w))
  | [] => some []
  | curIdx :: l => do
    let cur ← dm.heap (dm.elements curIdx)
    let rest ← printLoop dm l
    some (⟨curIdx, cur.name, cur.count, (cur.count * 100 / dm.totalCounts).setWidth 32⟩ :: rest)

/-- `print_ds_monitoring`, where `print_elem` is set or not: the calls of `print_elem`. -/
def printDsMonitoring (printElem : Bool) (dm : DsMonitoring w) : Option (List (PrintElem w)) :=
  if dm.totalCounts = 0 ∨ printElem = false then some []
  else printLoop dm (xaIndices dm.elements)

/-! ## delete_ds_monitoring -/

def DsMonitoring.free (dm : DsMonitoring w) (p : Ptr w) : DsMonitoring w :=
  { dm with heap := Function.update dm.heap p none }

theorem DsMonitoring.free_self (dm : DsMonitoring w) (p : Ptr w) : (dm.free p).heap p = none :=
  Function.update_self _ _ _

theorem DsMonitoring.free_of_ne {dm : DsMonitoring w} {p x : Ptr w} (hx : x ≠ p) :
    (dm.free p).heap x = dm.heap x := Function.update_of_ne hx _ _

/-- The body of the loop for each index; `none` when an element is read and freed that is not in memory.
The copy of the name, which belongs to one element only, is freed with it. -/
def deleteLoop (dm : DsMonitoring w) : List (Word w) → Option (DsMonitoring w)
  | [] => some dm
  | curIdx :: l =>
    let cur := dm.elements curIdx
    match dm.heap cur with
    | none => none
    | some _ => deleteLoop (dm.free cur) l

/-- `delete_ds_monitoring`.  `xa_destroy` leaves an array without elements; the total stays. -/
def deleteDsMonitoring (dm : DsMonitoring w) : Option (DsMonitoring w) := do
  let dm ← deleteLoop dm (xaIndices dm.elements)
  some { dm with elements := fun _ => 0#w }

/-! ## What is counted -/

/-- The index that a call is for. -/
def indexOf (ops : DsMonitoringOperations w ε) (elem : κ → ε) (c : κ) : Option (Word w) :=
  ops.getIndex.map fun getIndex => getIndex (elem c)

/-- The count of the element stored at an index, 0 when there is none. -/
def DsMonitoring.countAt (dm : DsMonitoring w) (i : Word w) : Nat :=
  if dm.elements i = 0#w then 0
  else match dm.heap (dm.elements i) with
    | some e => e.count.toNat
    | none => 0

/-- The calls made for an index. -/
def callsFor [Fintype κ] (ops : DsMonitoringOperations w ε) (elem : κ → ε) (i : Word w) : Nat :=
  (Finset.univ.filter fun c => indexOf ops elem c = some i).card

end CachedBTree.Monitoring
