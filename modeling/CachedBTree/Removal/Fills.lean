import CachedBTree.Removal.Absent

/-! # The invariant of `rebalance`

"No two neighboring nodes can be merged": the fills of two children in adjacent slots sum to
more than one node can hold.  A split keeps this only when the nodes on both sides of the
halves have enough pairs, and a removal that leaves a leaf at least half full does not look
at its neighbours. -/

namespace CachedBTree

open CachedBTree.Support

variable {w : Nat} {geo : Geo} {s s' s₀ : State w} {G : Labels w} {m r : Nat}

/-- The invariant as the comment in `rebalance` has it. -/
def Unmergeable (geo : Geo) (s : State w) : Prop :=
  ∀ e ∈ nodes geo s, 2 ≤ e.1 →
    (s.page geo e.2).IsChain fun a b => geo.noPairs < fillOf geo s a.2 + fillOf geo s b.2

instance decidableUnmergeable (geo : Geo) (s : State w) : Decidable (Unmergeable geo s) := by
  unfold Unmergeable
  infer_instance

theorem Tree.unmergeable_iff (h : Tree geo m r 1 s G) : Unmergeable geo s ↔ G.Crowded geo 1 G.size := by
  have hchain : ∀ p, 2 ≤ (G p).lvl →
      (((s.page geo p).IsChain fun a b => geo.noPairs < fillOf geo s a.2 + fillOf geo s b.2) ↔
        (G p).page.IsChain fun a b => geo.noPairs < G.size a.2 + G.size b.2) := by
    intro p hp
    rw [h.page_eq (by omega)]
    have hfill : ∀ e ∈ (G p).page, fillOf geo s e.2 = G.size e.2 := by
      intro e he
      have := (h.child_of_mem (k := e.1) (c := e.2) (by omega) hp he).1
      exact h.fillOf_eq (by omega)
    constructor
    · intro hc
      refine hc.imp_of_mem_imp fun a b ha hb hab => ?_
      rwa [hfill a ha, hfill b hb] at hab
    · intro hc
      refine hc.imp_of_mem_imp fun a b ha hb hab => ?_
      rwa [hfill a ha, hfill b hb]
  constructor
  · intro hall x hx _
    exact (hchain x hx).mp (hall ((G x).lvl, x) (h.mem_nodes.mpr ⟨by omega, rfl⟩) hx)
  · rintro hall ⟨l, p⟩ hmem hl
    obtain ⟨-, rfl⟩ := h.mem_nodes.mp hmem
    exact (hchain p hl).mpr (hall p hl (by simp only at hl; omega))

/-- Insertions of absent keys and removals of stored ones. -/
def InsertsRemovesStored (geo : Geo) : Cmd w → State w → Prop
  | .insert key _, s => Absent geo s key
  | .remove key, s => ¬Absent geo s key
  | _, _ => False

instance decidableInsertsRemovesStored (geo : Geo) :
    ∀ (c : Cmd w) (s : State w), Decidable (InsertsRemovesStored geo c s)
  | .insert key _, s => inferInstanceAs (Decidable (Absent geo s key))
  | .remove key, s => inferInstanceAs (Decidable (¬Absent geo s key))
  | .lookup _, _ | .update _ _, _ => isFalse id

/-- The insertions fail or split no node next to one with too few pairs, and the removals take their key
from a leaf that keeps enough pairs or that `rebalance` looks at. -/
def KeepsFills (geo : Geo) (c : Cmd w) (s : State w) : Prop :=
  InsertsRemovesStored geo c s ∧ match c with
    | .insert key _ => OutOfMemory geo key s ∨ InsertKeeps geo key s
    | .remove key => RemoveKeeps geo key s
    | _ => False

instance decidableKeepsFills (geo : Geo) : ∀ (c : Cmd w) (s : State w), Decidable (KeepsFills geo c s)
  | .insert key val, s => inferInstanceAs (Decidable (InsertsRemovesStored geo (.insert key val) s ∧
      (OutOfMemory geo key s ∨ InsertKeeps geo key s)))
  | .remove key, s =>
    inferInstanceAs (Decidable (InsertsRemovesStored geo (.remove key) s ∧ RemoveKeeps geo key s))
  | .lookup _, _ | .update _ _, _ => isFalse fun h => h.2

/-- In every run of such calls that return no two neighbouring nodes can be merged. -/
theorem unmergeable_of_calls (hN : 4 ≤ geo.noPairs) (h₀ : Blank s₀) (h : Run geo (KeepsFills geo) s₀ s) :
    Unmergeable geo s := by
  suffices hI : ∃ G R, Warm geo 1 1 s G R ∧ G.Crowded geo 1 G.size by
    obtain ⟨G, R, hwarm, hcrowded⟩ := hI
    exact hwarm.tree.unmergeable_iff.mpr hcrowded
  refine h.keeps (I := fun s => ∃ G R, Warm geo 1 1 s G R ∧ G.Crowded geo 1 G.size) ?_
    ⟨_, _, h₀.warm, fun x hx => by simp [Labels.none] at hx⟩
  rintro c s s' hallowed hrun ⟨G, R, hwarm, hcrowded⟩
  cases c with
  | insert key val =>
    obtain ⟨-, hkeeps⟩ := hallowed
    obtain ⟨err, hrun⟩ := map_eq_ok.mp hrun
    obtain ⟨G', R', hwarm', -, hres⟩ := hwarm.insert hN le_rfl (by omega) le_rfl (by omega) hrun
    refine ⟨G', R', hwarm', ?_⟩
    rcases hres with hrefused | ⟨leaf, hins, -⟩
    · rw [hrefused.lowered.size]
      exact hcrowded.lowered hrefused.lowered
    · exact hins.crowded (hkeeps.resolve_left hins.memory) hcrowded
  | remove key =>
    obtain ⟨-, hkeeps⟩ := hallowed
    obtain ⟨ret, hrun⟩ := map_eq_ok.mp hrun
    obtain ⟨G₁, G', hwarm', hlow, hthin, s₁, htree₁, hroot⟩ := hwarm.remove hN hrun
    refine ⟨G', R, hwarm', hthin.crowded htree₁ hroot hkeeps ?_⟩
    rw [hlow.size]
    exact hcrowded.lowered hlow
  | lookup _ => exact hallowed.2.elim
  | update _ _ => exact hallowed.2.elim

/-- Nine insertions, and a removal from a leaf whose neighbour has five pairs. -/
def afterTen : State 64 := Cmd.execAll Machine.x86_64.cbtree_geo64 (KeepsFills Machine.x86_64.cbtree_geo64)
  (eightInserts ++ [.insert (wordKey 9) 0x77#64, .remove (wordKey 1)]) (arena 4)

theorem unmergeable_of_ten_calls : (entries Machine.x86_64.cbtree_geo64 afterTen).length = 8 ∧
    Unmergeable Machine.x86_64.cbtree_geo64 afterTen :=
  ⟨by decide +kernel, unmergeable_of_calls (by decide) (arena_blank 4) (Cmd.run_execAll _ _ _ _)⟩

/-- Keys in descending order leave two neighbours with three pairs each. -/
def elevenDescending : State 64 := Cmd.execAll Machine.x86_64.cbtree_geo64
  (InsertsRemovesStored Machine.x86_64.cbtree_geo64)
  ((List.range 11).map fun i => .insert (wordKey (11 - i)) 0x77#64) (arena 4)

theorem neighbours_mergeable :
    ¬∀ s, Run Machine.x86_64.cbtree_geo64 (InsertsRemovesStored Machine.x86_64.cbtree_geo64) (arena 4) s →
      Unmergeable Machine.x86_64.cbtree_geo64 s := by
  intro hall
  have hbad : ¬Unmergeable Machine.x86_64.cbtree_geo64 elevenDescending := by decide +kernel
  exact hbad (hall _ (Cmd.run_execAll _ _ _ _))

end CachedBTree
