import CachedBTree.Model.Lookup
import Mathlib.Logic.Relation

/-! # Runs of calls

The operations of `cbtree_base.h` on one tree, as commands.  What holds over all runs is
stated for the calls that return; which calls a run may make is a parameter. -/

namespace CachedBTree

open Relation

variable {w : Nat} {geo : Geo} {s s' : State w}

inductive Cmd (w : Nat) where
  | insert (key : Words w) (val : Ptr w)
  | lookup (key : Words w)
  | update (key : Words w) (val : Ptr w)
  | remove (key : Words w)

namespace Cmd

/-- The call, without what it returns. -/
def exec (geo : Geo) (s : State w) : Cmd w → Except Fault (State w)
  | insert key val => (cbtreeInsert geo key val s).map Prod.snd
  | lookup key => (cbtreeLookup geo key s).map Prod.snd
  | update key val => (cbtreeUpdate geo key val s).map Prod.snd
  | remove key => (cbtreeRemove geo (Reclaim.code geo) key s).map Prod.snd

/-- The calls one after the other, up to the first that is not allowed or does not return. -/
def execAll (geo : Geo) (allowed : Cmd w → State w → Prop) [∀ c s, Decidable (allowed c s)] :
    List (Cmd w) → State w → State w
  | [], s => s
  | c :: cs, s =>
    if allowed c s then
      match c.exec geo s with
      | .ok s => execAll geo allowed cs s
      | .error _ => s
    else s

end Cmd

/-- A call that is allowed has returned. -/
def Call (geo : Geo) (allowed : Cmd w → State w → Prop) (s s' : State w) : Prop :=
  ∃ c, allowed c s ∧ c.exec geo s = .ok s'

/-- The states that runs of such calls lead to. -/
def Run (geo : Geo) (allowed : Cmd w → State w → Prop) : State w → State w → Prop :=
  ReflTransGen (Call geo allowed)

theorem map_eq_ok {α : Type} {x : Except Fault (α × State w)} :
    x.map Prod.snd = .ok s' ↔ ∃ a, x = .ok (a, s') := by
  cases x with
  | error e => simp [Except.map]
  | ok r =>
    obtain ⟨a, s₁⟩ := r
    simp [Except.map]

/-- A property that each call keeps holds after all runs. -/
theorem Run.keeps {allowed : Cmd w → State w → Prop} {I : State w → Prop} (h : Run geo allowed s s')
    (hcall : ∀ c s s', allowed c s → c.exec geo s = .ok s' → I s → I s') (hs : I s) : I s' := by
  induction h with
  | refl => exact hs
  | tail _ hlast ih =>
    obtain ⟨c, hc, hrun⟩ := hlast
    exact hcall c _ _ hc hrun ih

/-- What is shown for more calls holds for fewer. -/
theorem Run.mono {allowed allowed' : Cmd w → State w → Prop} (h : Run geo allowed s s')
    (hsub : ∀ c s, allowed c s → allowed' c s) : Run geo allowed' s s' :=
  ReflTransGen.mono (fun s _ ⟨c, hc, hrun⟩ => ⟨c, hsub c s hc, hrun⟩) _ _ h

theorem Cmd.run_execAll (geo : Geo) (allowed : Cmd w → State w → Prop)
    [∀ c s, Decidable (allowed c s)] : ∀ (cs : List (Cmd w)) (s : State w),
    Run geo allowed s (execAll geo allowed cs s) := by
  intro cs
  induction cs with
  | nil =>
    intro _
    exact .refl
  | cons c cs ih =>
    intro s
    unfold execAll
    split
    next hc =>
      split
      next s₁ hrun => exact .head ⟨c, hc, hrun⟩ (ih s₁)
      next => exact .refl
    next => exact .refl

/-! ## Memory to run in -/

/-- A head as `__cbtree_init` leaves it. -/
def Fresh (s : State w) : Prop := s.node = 0#w ∧ s.height = 0

/-- `cbtree_destroy`.  The mempool, which it destroys as well, is not part of the head here. -/
def cbtreeDestroy (s : State w) : Except Fault (State w) := s.free s.node

/-- An empty head in a memory without nodes. -/
structure Blank (s : State w) : Prop where
  fresh : Fresh s
  nodes : ∀ p n, s.heap p ≠ some (.node n)

/-- 64-bit memory with room for `n` nodes and their queues.  The objects lie far apart, so that the words behind
an object belong to no other. -/
def arena (n : Nat) : State 64 where
  node := 0#64
  height := 0
  heap _ := none
  pool := (List.range n).map fun i => BitVec.ofNat 64 (0x1000 * (i + 1))
  slab := (List.range (9 * n)).map fun i => (BitVec.ofNat 64 (0x100000 + 0x1000 * i), fun _ => 0#64)
  kfail := false

theorem arena_blank (n : Nat) : Blank (arena n) := ⟨⟨rfl, rfl⟩, by simp [arena]⟩

/-- A key of one word, and zeros behind it. -/
def wordKey (k : Nat) : Words 64 := fun i => if i = 0 then BitVec.ofNat 64 k else 0#64

end CachedBTree
