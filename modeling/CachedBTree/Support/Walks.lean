import Mathlib.Data.List.Basic

/-! # A loop from each element to the next

`for (val = first; val != null; val = next(key))` over a function `next` that gives a value and
its key.  Where `next` leads from each entry of a list to the following one, the loop goes
through the list from any entry on.  Where it leads from an entry to an entry always, no number
of rounds is enough. -/

namespace CachedBTree.Support

variable {κ ν ρ ε : Type} [DecidableEq ν]

/-- The rounds of the loop from a value and its key on, `stuck` when they are used up. -/
def walkLoop (stuck : ε) (null : ν) (next : κ → Except ε (ν × κ)) : Nat → ν → κ → Except ε (List (κ × ν))
  | 0, _, _ => .error stuck
  | fuel + 1, val, key =>
    if val = null then .ok []
    else do
      let (prev, prevKey) ← next key
      let rest ← walkLoop stuck null next fuel prev prevKey
      .ok ((key, val) :: rest)

variable {stuck : ε} {null : ν} {next : κ → Except ε (ν × κ)} {num : κ → ρ} {es : List (ρ × ν)}

/-- From an entry the function leads to the next one in the list, and from the last entry to `null`. -/
def LeadsOn (null : ν) (next : κ → Except ε (ν × κ)) (num : κ → ρ) (es : List (ρ × ν)) : Prop :=
  ∀ A key val B, es = A ++ (num key, val) :: B → ∃ val' key', next key = .ok (val', key') ∧
    (val' = null ∧ B = [] ∨ ∃ B', B = (num key', val') :: B')

theorem LeadsOn.walkLoop (h : LeadsOn null next num es) (stuck : ε) (hne : ∀ e ∈ es, e.2 ≠ null) :
    ∀ (B A : List (ρ × ν)) (fuel : Nat) (val : ν) (key : κ), es = A ++ (num key, val) :: B → B.length + 1 < fuel →
    ∃ walk, walkLoop stuck null next fuel val key = .ok walk ∧
      walk.map (fun e => (num e.1, e.2)) = (num key, val) :: B
  | B, A, 0, val, key, _, hfuel => by omega
  | B, A, fuel + 1, val, key, hes, hfuel => by
    have hval : val ≠ null := hne (num key, val) (by rw [hes]; simp)
    obtain ⟨val', key', hrun, hcase⟩ := h A key val B hes
    rw [Support.walkLoop, if_neg hval, hrun]
    cases hcase with
    | inl hend =>
      obtain ⟨rfl, rfl⟩ := hend
      obtain ⟨fuel, rfl⟩ : ∃ f, fuel = f + 1 := ⟨fuel - 1, by omega⟩
      exact ⟨[(key, val)], by simp [Support.walkLoop, bind, Except.bind], rfl⟩
    | inr hnext =>
      obtain ⟨B', rfl⟩ := hnext
      obtain ⟨walk, hwalk, hmap⟩ := h.walkLoop stuck hne B' (A ++ [(num key, val)]) fuel val' key'
        (by rw [hes]; simp) (by simpa using hfuel)
      exact ⟨(key, val) :: walk, by simp [hwalk, bind, Except.bind], by rw [List.map_cons, hmap]⟩
termination_by B => B.length

theorem walkLoop_stuck (hne : ∀ e ∈ es, e.2 ≠ null)
    (h : ∀ key val, (num key, val) ∈ es → ∃ val' key', next key = .ok (val', key') ∧ (num key', val') ∈ es) :
    ∀ (fuel : Nat) (val : ν) (key : κ), (num key, val) ∈ es → walkLoop stuck null next fuel val key = .error stuck
  | 0, _, _, _ => rfl
  | fuel + 1, val, key, hmem => by
    obtain ⟨val', key', hrun, hmem'⟩ := h key val hmem
    rw [Support.walkLoop, if_neg (hne _ hmem), hrun]
    simp [walkLoop_stuck hne h fuel val' key' hmem', bind, Except.bind]

end CachedBTree.Support
