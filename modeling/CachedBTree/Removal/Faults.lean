import CachedBTree.Caching.Runs
import CachedBTree.Model.Remove

/-! # `freeQueue` on a queue that is intact

Each round of `freeQueue` looks at the entry after the one it frees.  The ring closes, so
the fourth round looks at the first entry, which is gone, if nothing has stopped the loop
before: an entry that holds nothing, or a node without a queue.  So no call on a whole
ring returns, and with the code's own release a removal that gives a node back does not
return either. -/

namespace CachedBTree

open CachedBTree.Support

variable {w : Nat} {geo : Geo} {s s' s'' : State w} {p q first : Ptr w} {R : Rings w} {es : List (Entry w)}

/-! ## What `freeQueue` writes -/

/-- Objects have been freed, and word 1 of the others may have changed. -/
def Decayed (s s' : State w) : Prop :=
  ∀ x, s'.heap x = none ∨
    ∃ o o', s.heap x = some o ∧ s'.heap x = some o' ∧ ∀ i, i ≠ 1 → o'.word? i = o.word? i

namespace Decayed

theorem refl (s : State w) : Decayed s s := fun x => by
  cases hx : s.heap x with
  | none => exact .inl rfl
  | some o => exact .inr ⟨o, o, rfl, rfl, fun _ _ => rfl⟩

theorem trans (h : Decayed s s') (h' : Decayed s' s'') : Decayed s s'' := by
  intro x
  rcases h' x with hnone | ⟨o', o'', hx', hx'', hsame'⟩
  · exact .inl hnone
  rcases h x with hnone | ⟨o, o₁, hx, hx₁, hsame⟩
  · rw [hnone] at hx'
    cases hx'
  · rw [hx'] at hx₁
    cases hx₁
    exact .inr ⟨o, o'', hx, hx'', fun i hi => (hsame' i hi).trans (hsame i hi)⟩

theorem free (h : Decayed s s') (hrun : s'.free p = .ok s'') : Decayed s s'' := by
  refine h.trans fun x => ?_
  obtain ⟨-, rfl⟩ | ⟨-, -, rfl⟩ := State.free_eq_ok.mp hrun
  · exact Decayed.refl _ x
  · rw [State.setObj_heap]
    split
    next => exact .inl rfl
    next => exact Decayed.refl _ x

theorem setWord {v : Word w} (h : Decayed s s') (hrun : s'.setWord p 1 v = .ok s'') : Decayed s s'' := by
  refine h.trans fun x => ?_
  obtain ⟨-, o, o', hp, hset, rfl⟩ := State.setWord_eq_ok.mp hrun
  rw [State.setObj_heap]
  split
  next hxp =>
    refine .inr ⟨o, o', hxp ▸ hp, rfl, fun i hi => ?_⟩
    cases o with
    | node ws =>
      cases hset
      exact congrArg some (Function.update_of_ne hi _ _)
    | buf ws =>
      cases hset
      exact congrArg some (Function.update_of_ne hi _ _)
    | queue head => cases hset
    | entry cached key next =>
      cases hset
      match i with
      | 0 => rfl
      | 2 => rfl
      | _ + 3 => rfl
  next => exact Decayed.refl _ x

/-- What is free stays free. -/
theorem gone (h : Decayed s s') (hp : s.heap p = none) : s'.heap p = none := by
  rcases h p with hnone | ⟨o, -, hx, -⟩
  · exact hnone
  · rw [hp] at hx
    cases hx

/-- A word other than word 1 that can still be read has not changed. -/
theorem word {i : Nat} {v : Word w} (h : Decayed s s') (hi : i ≠ 1) (hrun : s'.word p i = .ok v) :
    s.word p i = .ok v := by
  obtain ⟨hne, o', hx', hword⟩ := State.word_eq_ok.mp hrun
  rcases h p with hnone | ⟨o, o₁, hx, hx₁, hsame⟩
  · rw [hnone] at hx'
    cases hx'
  · rw [hx'] at hx₁
    cases hx₁
    exact State.word_eq_ok.mpr ⟨hne, o, hx, (hsame i hi).symm.trans hword⟩

end Decayed

theorem word_of_gone {i : Nat} {v : Word w} (hp : s.heap p = none) : s.word p i ≠ .ok v := by
  intro hrun
  obtain ⟨-, o, hx, -⟩ := State.word_eq_ok.mp hrun
  rw [hp] at hx
  cases hx

section Loop

variable {arrLen : Nat} {free : Ptr w → Nat → State w → Except Fault (State w)}

/-- One round: what it reads first, and what it leaves. -/
theorem freeQueueLoop_round {temp : Ptr w} {fuel : Nat}
    (hfree : ∀ p off s s', free p off s = .ok s' → Decayed s s')
    (hrun : freeQueueLoop arrLen first free (fuel + 1) temp s = .ok s') :
    ∃ curr s₁, s.word temp 2 = .ok curr ∧ (curr ≠ 0#w → ∃ v, s.word curr 0 = .ok v) ∧ Decayed s s₁ ∧
      (temp ≠ 0#w → s₁.heap temp = none) ∧
      if curr ≠ first then freeQueueLoop arrLen first free fuel curr s₁ = .ok s' else s' = s₁ := by
  obtain ⟨curr, hcurr, hrun⟩ := bind_eq_ok.mp hrun
  -- the part that frees the key and the entry, whatever the round did before
  have hlast : ∀ s₁, Decayed s s₁ → (do
      let key ← s₁.word temp 1
      let s ← s₁.free key
      let s ← s.free temp
      if curr ≠ first then freeQueueLoop arrLen first free fuel curr s else .ok s) = .ok s' →
      ∃ s₂, Decayed s s₂ ∧ (temp ≠ 0#w → s₂.heap temp = none) ∧
        if curr ≠ first then freeQueueLoop arrLen first free fuel curr s₂ = .ok s' else s' = s₂ := by
    intro s₁ hs₁ hrun
    obtain ⟨key, -, hrun⟩ := bind_eq_ok.mp hrun
    obtain ⟨s₂, hkey, hrun⟩ := bind_eq_ok.mp hrun
    obtain ⟨s₃, htemp, hrun⟩ := bind_eq_ok.mp hrun
    refine ⟨s₃, (hs₁.free hkey).free htemp, fun hne => ?_, ?_⟩
    · obtain ⟨hzero, -⟩ | ⟨-, -, rfl⟩ := State.free_eq_ok.mp htemp
      · exact absurd hzero hne
      · rw [State.setObj_heap, if_pos rfl]
    · split
      next hne => rwa [if_pos hne] at hrun
      next heq =>
        rw [if_neg heq] at hrun
        exact (Except.ok.inj hrun).symm
  rcases ite_eq_ok.mp hrun with ⟨hne, hrun⟩ | ⟨hzero, hrun⟩
  · obtain ⟨cached, hcached, hrun⟩ := bind_eq_ok.mp hrun
    obtain ⟨refs, -, hrun⟩ := bind_eq_ok.mp hrun
    obtain ⟨deleted, -, hrun⟩ := bind_eq_ok.mp hrun
    rcases ite_eq_ok.mp hrun with ⟨-, hrun⟩ | ⟨-, hrun⟩
    · obtain ⟨queue, -, hrun⟩ := bind_eq_ok.mp hrun
      obtain ⟨s₁, hrec, hrun⟩ := bind_eq_ok.mp hrun
      obtain ⟨cached', -, hrun⟩ := bind_eq_ok.mp hrun
      obtain ⟨s₂, hnode, hrun⟩ := bind_eq_ok.mp hrun
      obtain ⟨s₃, hres⟩ := hlast s₂ ((hfree _ _ _ _ hrec).free hnode) hrun
      exact ⟨curr, s₃, hcurr, fun _ => ⟨cached, hcached⟩, hres⟩
    · obtain ⟨second, -, hrun⟩ := bind_eq_ok.mp hrun
      obtain ⟨s₁, hset, hrun⟩ := bind_eq_ok.mp hrun
      obtain ⟨s₃, hres⟩ := hlast s₁ ((Decayed.refl s).setWord hset) hrun
      exact ⟨curr, s₃, hcurr, fun _ => ⟨cached, hcached⟩, hres⟩
  · obtain ⟨s₃, hres⟩ := hlast s (Decayed.refl s) hrun
    exact ⟨curr, s₃, hcurr, fun hne => absurd hne hzero, hres⟩

theorem freeQueueLoop_decayed (hfree : ∀ p off s s', free p off s = .ok s' → Decayed s s') :
    ∀ {fuel : Nat} {temp : Ptr w} {s : State w},
      freeQueueLoop arrLen first free fuel temp s = .ok s' → Decayed s s' := by
  intro fuel
  induction fuel with
  | zero =>
    intro _ _ hrun
    cases hrun
  | succ fuel ih =>
    intro temp s hrun
    obtain ⟨curr, s₁, -, -, hs₁, -, hrest⟩ := freeQueueLoop_round hfree hrun
    split at hrest
    next => exact hs₁.trans (ih hrest)
    next => exact hrest ▸ hs₁

theorem freeQueueFuel_decayed : ∀ (fuel : Nat) (p : Ptr w) (off : Nat) (s s' : State w),
    freeQueueFuel arrLen fuel p off s = .ok s' → Decayed s s' := by
  intro fuel
  induction fuel with
  | zero =>
    intro _ _ _ _ hrun
    cases hrun
  | succ fuel ih =>
    intro p off s s' hrun
    obtain ⟨q, -, hrun⟩ := bind_eq_ok.mp hrun
    obtain ⟨curr, -, hrun⟩ := bind_eq_ok.mp hrun
    rcases ite_eq_ok.mp hrun with ⟨-, hrun⟩ | ⟨-, hrun⟩
    · cases hrun
      exact Decayed.refl s
    · obtain ⟨s₁, hloop, hrun⟩ := bind_eq_ok.mp hrun
      exact (freeQueueLoop_decayed (ih) hloop).free hrun

/-! ## The loop does not come to its end -/

/-- Each entry leads to the next one of the list as long as it can be read, the last one to `last`. -/
def Leads (s : State w) (last : Ptr w) : List (Ptr w) → Prop
  | [] => True
  | a :: l => (∀ v, s.word a 2 = .ok v → v = l.headD last) ∧ Leads s last l

theorem Leads.decayed (hs : Decayed s s') : ∀ {l : List (Ptr w)}, Leads s first l → Leads s' first l
  | [], _ => trivial
  | _ :: _, h => ⟨fun v hv => h.1 v (hs.word (by decide) hv), h.2.decayed hs⟩

theorem freeQueueLoop_faults (hfree : ∀ p off s s', free p off s = .ok s' → Decayed s s')
    (hfirst : first ≠ 0#w) : ∀ {l : List (Ptr w)} {temp : Ptr w} {s : State w} {fuel : Nat},
      Leads s first (temp :: l) → (s.heap first = none ∨ temp = first ∧ l ≠ []) →
      (∀ a ∈ l, a ≠ first) → freeQueueLoop arrLen first free fuel temp s ≠ .ok s' := by
  intro l temp s fuel
  induction fuel generalizing l temp s with
  | zero =>
    intro _ _ _
    simp [freeQueueLoop]
  | succ fuel ih =>
    intro hleads hclosed hne hrun
    obtain ⟨curr, s₁, hcurr, hread, hs₁, hgone, hrest⟩ := freeQueueLoop_round hfree hrun
    have hnext := hleads.1 curr hcurr
    cases l with
    | nil =>
      -- the round after the last one would start at the first entry
      obtain rfl : curr = first := hnext
      obtain ⟨v, hv⟩ := hread hfirst
      exact word_of_gone (hclosed.resolve_right fun hr => hr.2 rfl) hv
    | cons a l =>
      obtain rfl : curr = a := hnext
      have hfirst₁ : s₁.heap first = none := by
        rcases hclosed with hnone | ⟨rfl, -⟩
        · exact hs₁.gone hnone
        · exact hgone hfirst
      rw [if_pos (hne curr (List.mem_cons_self ..))] at hrest
      exact ih (hleads.2.decayed hs₁) (.inl hfirst₁) (fun b hb => hne b (List.mem_cons_of_mem curr hb)) hrest

end Loop

theorem Linked.leads : ∀ {es : List (Entry w)}, Linked s first es → Leads s first (es.map Entry.addr) := by
  intro es
  induction es with
  | nil =>
    intro _
    exact trivial
  | cons e es ih =>
    intro h
    refine ⟨fun v hv => ?_, ih h.2⟩
    obtain ⟨-, o, hx, hword⟩ := State.word_eq_ok.mp hv
    rw [h.1] at hx
    cases hx
    have : firstAddr first es = v := Option.some.inj hword
    cases es with
    | nil => exact this.symm
    | cons a es => exact this.symm

theorem Ring.freeQueue_stops {n : Words w} (hring : Ring s (n geo.arrLen) es) (hp : s.heap p = some (.node n)) :
    freeQueue p geo.arrLen geo.arrLen s ≠ .ok s' := by
  intro hrun
  obtain ⟨k, hk⟩ : ∃ k, 2 ^ w = k + 1 := ⟨2 ^ w - 1, by have := Nat.two_pow_pos w; omega⟩
  rw [freeQueue, hk, freeQueueFuel] at hrun
  obtain ⟨q, hq, hrun⟩ := bind_eq_ok.mp hrun
  obtain ⟨-, o, hx, hword⟩ := State.word_eq_ok.mp hq
  rw [hp] at hx
  cases hx
  obtain rfl : n geo.arrLen = q := Option.some.inj hword
  obtain ⟨e, es, rfl⟩ := List.exists_cons_of_ne_nil hring.ne_nil
  have hene := hring.addr_ne e (List.mem_cons_self ..)
  have hhead : s.word (n geo.arrLen) 0 = .ok e.addr :=
    State.word_eq_ok.mpr ⟨hring.queue.1, _, hring.queue.2, rfl⟩
  rw [hhead, ok_bind, if_neg hene] at hrun
  obtain ⟨s₁, hloop, -⟩ := bind_eq_ok.mp hrun
  have hlen := hring.length
  have haddrs := hring.addrs
  rw [List.map_cons, List.nodup_cons] at haddrs
  refine freeQueueLoop_faults (freeQueueFuel_decayed k) hene hring.linked.leads (.inr ⟨rfl, ?_⟩)
    (fun a ha => ?_) hloop
  · intro hnil
    rw [List.map_eq_nil_iff.mp hnil] at hlen
    simp at hlen
  · rintro rfl
    exact haddrs.1 ha

/-- `freeQueue` does not return when the node's queue is a ring of four entries. -/
theorem freeQueue_faults {n : Words w} (hp : s.heap p = some (.node n))
    (hring : Ring s (n geo.arrLen) es) (s' : State w) : freeQueue p geo.arrLen geo.arrLen s ≠ .ok s' :=
  hring.freeQueue_stops hp

/-- The root after a lookup, with one entry in use, has a whole queue, and all reference counts are
right. -/
theorem afterLookup_root_ring : ∃ n es R, afterLookup.heap 0x3000#64 = some (.node n) ∧
    Ring afterLookup (n Machine.x86_64.cbtree_geo64.arrLen) es ∧
    Caches Machine.x86_64.cbtree_geo64 afterLookup R ∧ Counted Machine.x86_64.cbtree_geo64 afterLookup R := by
  obtain ⟨G, R, hwarm⟩ := warm_of_calls (by decide) (arena_blank 4) afterLookup_run
  have hroot : (2, 0x3000#64) ∈ nodes Machine.x86_64.cbtree_geo64 afterLookup := by decide +kernel
  obtain ⟨n, hn, -⟩ := hwarm.tree.stored 0x3000#64 (by have := hwarm.tree.mem_nodes.mp hroot; omega)
  refine ⟨n, R 0x3000#64, R, hn, (hwarm.caches.ring _ n hn).resolve_left fun hnone => ?_, hwarm.caches,
    hwarm.counted⟩
  have hk : afterLookup.kfail = false := by decide +kernel
  rw [hk] at hnone
  exact absurd hnone.2.2 (by decide)

/-- There the call does not return: it follows the `NULL` of the next entry. -/
theorem freeQueue_faults_at_root :
    (∀ s', freeQueue 0x3000#64 Machine.x86_64.cbtree_geo64.arrLen Machine.x86_64.cbtree_geo64.arrLen afterLookup ≠
      .ok s') ∧
    freeQueue 0x3000#64 Machine.x86_64.cbtree_geo64.arrLen Machine.x86_64.cbtree_geo64.arrLen afterLookup =
      .error .nullDeref := by
  obtain ⟨n, es, R, hn, hring, -⟩ := afterLookup_root_ring
  exact ⟨freeQueue_faults hn hring, faulted_eq_some.mp (by decide +kernel)⟩

/-- The next entry holds nothing. -/
theorem freeQueue_follows_null :
    (∃ n es R, afterLookup.heap 0x3000#64 = some (.node n) ∧
      Ring afterLookup (n Machine.x86_64.cbtree_geo64.arrLen) es ∧
      Caches Machine.x86_64.cbtree_geo64 afterLookup R ∧
      Counted Machine.x86_64.cbtree_geo64 afterLookup R) ∧
    freeQueue 0x3000#64 Machine.x86_64.cbtree_geo64.arrLen Machine.x86_64.cbtree_geo64.arrLen afterLookup =
      .error .nullDeref :=
  ⟨afterLookup_root_ring, faulted_eq_some.mp (by decide +kernel)⟩

/-! ## No node is given back -/

theorem Caches.freeQueue_stops {n : Words w} (h : Caches geo s R) (hp : s.heap p = some (.node n)) :
    freeQueue p geo.arrLen geo.arrLen s ≠ .ok s' := by
  intro hrun
  rcases h.ring p n hp with ⟨hzero, -, -⟩ | hring
  · -- the node has no queue
    obtain ⟨k, hk⟩ : ∃ k, 2 ^ w = k + 1 := ⟨2 ^ w - 1, by have := Nat.two_pow_pos w; omega⟩
    rw [freeQueue, hk, freeQueueFuel] at hrun
    obtain ⟨q, hq, hrun⟩ := bind_eq_ok.mp hrun
    obtain ⟨-, o, hx, hword⟩ := State.word_eq_ok.mp hq
    rw [hp] at hx
    cases hx
    obtain rfl : n geo.arrLen = q := Option.some.inj hword
    rw [hzero] at hrun
    simp [State.word] at hrun
  · exact hring.freeQueue_stops hp hrun

/-- No node is given back by a call that returns. -/
theorem reclaim_faults {n : Words w} (h : Caches geo s R) (hp : s.heap p = some (.node n)) :
    (Reclaim.code geo).merged p s ≠ .ok s' ∧ (Reclaim.code geo).emptied p s ≠ .ok s' ∧
      (Reclaim.code geo).shrunk p s ≠ .ok s' := by
  refine ⟨fun hrun => ?_, fun hrun => ?_, fun hrun => ?_⟩
  all_goals
    obtain ⟨s₁, hfree, -⟩ := bind_eq_ok.mp hrun
    exact h.freeQueue_stops hp hfree

end CachedBTree
