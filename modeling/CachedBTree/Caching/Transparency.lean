import CachedBTree.Caching.Congruence
import CachedBTree.Removal.Absent
import CachedBTree.Iteration.Cycling

/-! # Lookups leave no trace in the tree

Lookups write to the caches, and nothing else ever depends on these: a run of insertions,
removals and lookups returns what it would return without the lookups, and leaves the same tree. -/

namespace CachedBTree

open CachedBTree.Support

variable {w : Nat} {geo : Geo} {s s' s₀ t : State w}

/-- What a call returns. -/
inductive Answer (w : Nat) where
  | code (err : Int)
  | value (val : Ptr w)
  deriving DecidableEq

namespace Cmd

/-- The call with what it returns. -/
def answer (geo : Geo) : Cmd w → State w → Except Fault (Answer w × State w)
  | insert key val, s => do
    let (err, s) ← cbtreeInsert geo key val s
    .ok (.code err, s)
  | lookup key, s => do
    let (val, s) ← cbtreeLookup geo key s
    .ok (.value val, s)
  | update key val, s => do
    let (err, s) ← cbtreeUpdate geo key val s
    .ok (.code err, s)
  | remove key, s => do
    let (val, s) ← cbtreeRemove geo (Reclaim.code geo) key s
    .ok (.value val, s)

def isLookup : Cmd w → Bool
  | lookup _ => true
  | insert _ _ | update _ _ | remove _ => false

def isUpdate : Cmd w → Bool
  | update _ _ => true
  | insert _ _ | lookup _ | remove _ => false

end Cmd

/-- The invariant of two runs side by side. -/
def Shadowed (geo : Geo) (s t : State w) : Prop := (∃ G R, Warm geo 1 1 s G R) ∧ SameTree geo s t

theorem Shadowed.call (hN : 4 ≤ geo.noPairs) (c : Cmd w) (s t : State w) (hc : c.isUpdate = false)
    (hlookup : (!c.isLookup) = true) (h : Shadowed geo s t) :
    Follows (Paired (Shadowed geo)) (c.answer geo s) (c.answer geo t) := by
  obtain ⟨⟨G, R, hwarm⟩, hsame⟩ := h
  cases c with
  | insert key val =>
    refine ((hsame.insert key val).also (P := fun r => ∃ G R, Warm geo 1 1 r.2 G R) fun r hrun => ?_).bind ?_
    · obtain ⟨G', R', hwarm', -⟩ := hwarm.insert hN le_rfl (by omega) le_rfl (by omega) hrun
      exact ⟨G', R', hwarm'⟩
    · rintro ⟨err, s'⟩ ⟨err', t'⟩ ⟨hwarm', herr, hsame'⟩
      obtain rfl : err' = err := herr
      exact Follows.ok ⟨rfl, hwarm', hsame'⟩
  | remove key =>
    have hremove := hsame.remove (by omega) hwarm.caches key
    refine (hremove.also (P := fun r => ∃ G R, Warm geo 1 1 r.2 G R) fun r hrun => ?_).bind ?_
    · obtain ⟨-, G', hwarm', -⟩ := hwarm.remove hN hrun
      exact ⟨G', R, hwarm'⟩
    · rintro ⟨val, s'⟩ ⟨val', t'⟩ ⟨hwarm', hval, hsame'⟩
      obtain rfl : val' = val := hval
      exact Follows.ok ⟨rfl, hwarm', hsame'⟩
  | lookup key => cases hlookup
  | update key val => cases hc

theorem Shadowed.lookup (c : Cmd w) (r : Answer w) (s s' t : State w) (hlookup : (!c.isLookup) = false)
    (h : Shadowed geo s t) (hrun : c.answer geo s = .ok (r, s')) : Shadowed geo s' t := by
  obtain ⟨⟨G, R, hwarm⟩, hsame⟩ := h
  cases c with
  | lookup key =>
    obtain ⟨⟨val, s₁⟩, hrun, hret⟩ := bind_eq_ok.mp hrun
    cases hret
    obtain ⟨-, R', hwarm', hlooked, -⟩ := hwarm.lookup hrun
    exact ⟨⟨G, R', hwarm'⟩, hlooked.write.sameTree.symm.trans hsame⟩
  | insert key val => cases hlookup
  | update key val => cases hlookup
  | remove key => cases hlookup

/-- A run of insertions, removals and lookups is, without its lookups, a run as well.  The other calls return
the same, and the nodes, the entries and the walk over them are the same afterwards. -/
theorem lookups_erased {cs : List (Cmd w)} {log : List (Cmd w × Answer w)} (hN : 4 ≤ geo.noPairs) (h₀ : Blank s₀)
    (hcs : ∀ c ∈ cs, c.isUpdate = false) (hrun : runLog (Cmd.answer geo) cs s₀ = .ok (log, s)) :
    ∃ t, runLog (Cmd.answer geo) (cs.filter fun c => !c.isLookup) s₀ =
        .ok (log.filter fun e => !e.1.isLookup, t) ∧
      SameTree geo s t ∧ nodes geo t = nodes geo s ∧ entries geo t = entries geo s ∧
      ∀ key, cbtreeLast geo key t = cbtreeLast geo key s ∧ cbtreeGetPrev geo key t = cbtreeGetPrev geo key s := by
  have hstart : Shadowed geo s₀ s₀ := ⟨⟨_, _, h₀.warm⟩, SameTree.refl geo s₀⟩
  obtain ⟨⟨log', t⟩, hrun', hlog, ⟨G, R, hwarm⟩, hsame⟩ :=
    runLog_erase (Shadowed.call hN) Shadowed.lookup cs s₀ s₀ hcs hstart _ hrun
  obtain rfl : log' = log.filter fun e => !e.1.isLookup := hlog
  refine ⟨t, hrun', hsame, hsame.nodes, hsame.entries, fun key => ?_⟩
  obtain ⟨val, key', hlast, -⟩ := hwarm.tree.cbtreeLast_entry (by omega) le_rfl le_rfl key
  obtain ⟨val', key'', hprev, -⟩ := hwarm.tree.getPrev_returns le_rfl le_rfl key
  exact ⟨(hsame.last (by omega) key).eq_of_ok hlast, (hsame.getPrev (by omega) key).eq_of_ok hprev⟩

/-- Nine insertions split the root; then come lookups, a removal and another insertion. -/
def mixedCalls : List (Cmd 64) :=
  ((List.range 9).map fun i => .insert (wordKey (i + 1)) (BitVec.ofNat 64 (i + 1))) ++
    [.lookup (wordKey 3), .lookup (wordKey 8), .remove (wordKey 8), .lookup (wordKey 3),
      .insert (wordKey 20) 0x77#64, .lookup (wordKey 20)]

theorem lookups_erased_mixed : ∃ log s t,
    runLog (Cmd.answer Machine.x86_64.cbtree_geo64) mixedCalls (arena 4) = .ok (log, s) ∧
      runLog (Cmd.answer Machine.x86_64.cbtree_geo64) (mixedCalls.filter fun c => !c.isLookup) (arena 4) =
        .ok (log.filter fun e => !e.1.isLookup, t) ∧
      entries Machine.x86_64.cbtree_geo64 t = entries Machine.x86_64.cbtree_geo64 s := by
  obtain ⟨⟨log, s⟩, hrun⟩ :
      ∃ r, runLog (Cmd.answer Machine.x86_64.cbtree_geo64) mixedCalls (arena 4) = .ok r := by
    have hok : (runLog (Cmd.answer Machine.x86_64.cbtree_geo64) mixedCalls (arena 4)).isOk = true := by decide +kernel
    cases hrun : runLog (Cmd.answer Machine.x86_64.cbtree_geo64) mixedCalls (arena 4) with
    | error e =>
      rw [hrun] at hok
      cases hok
    | ok r => exact ⟨r, rfl⟩
  obtain ⟨t, hrun', -, -, hentries, -⟩ := lookups_erased (by decide) (arena_blank 4) (by decide) hrun
  exact ⟨log, s, t, hrun, hrun', hentries⟩

end CachedBTree
