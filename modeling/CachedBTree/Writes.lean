import CachedBTree.Queues

/-! # What the code writes

Between the allocations and releases of nodes, `find_level` and `cbtree_insert` write
nothing but slots of nodes and the head.  A property of memory that survives such
writes and the allocation of a node survives the whole call. -/

namespace CachedBTree

open CachedBTree.Support

variable {w : Nat} {geo : Geo} {s s' : State w}

/-- A property that writes to slots keep. -/
def SlotStable (geo : Geo) (I : State w → Prop) : Prop :=
  ∀ s p n n', I s → s.heap p = some (.node n) → SameCache geo n n' → I (s.setNode p n')

theorem SlotStable.store {I : State w → Prop} {p : Ptr w} {n n' : Words w} (h : SlotStable geo I)
    (hs : I s) (hload : s.load p = .ok n) (hsame : SameCache geo n n') : I (s.setNode p n') :=
  h s p n n' hs (State.load_eq_ok.mp hload).2 hsame

theorem findLevelLoop_keeps {I : State w → Prop} {kp : KeyPtr w} (hI : SlotStable geo I) :
    ∀ {d : Nat} {p q : Ptr w} {s : State w}, findLevelLoop geo kp d p s = .ok (q, s') → I s → I s' := by
  intro d
  induction d with
  | zero =>
    intro _ _ _ hrun hs
    cases hrun
    exact hs
  | succ d ih =>
    intro p q s hrun hs
    obtain ⟨n, hload, hrun⟩ := bind_eq_ok.mp hrun
    obtain ⟨k, -, hrun⟩ := bind_eq_ok.mp hrun
    rcases ite_eq_ok.mp hrun with ⟨-, hrun⟩ | ⟨-, hrun⟩
    · rcases ite_eq_ok.mp hrun with ⟨-, hrun⟩ | ⟨hne, hrun⟩
      · cases hrun
      · have hpos : getpos geo n k ≤ geo.noPairs := by
          have := scan_le (fun i => decide (keycmp geo n i k ≤ 0)) 0 geo.noPairs
          unfold getpos
          omega
        exact ih hrun (hI.store hs hload (sameCache_setkey (by omega)))
    · exact ih hrun hs

theorem findLevel_keeps {I : State w → Prop} {kp : KeyPtr w} {level : Nat} {p : Ptr w}
    (hI : SlotStable geo I) (hrun : findLevel geo kp level s = .ok (p, s')) (hs : I s) : I s' := by
  obtain ⟨⟨q, s₁⟩, hloop, hrun⟩ := bind_eq_ok.mp hrun
  rcases ite_eq_ok.mp hrun with ⟨-, hrun⟩ | ⟨-, hrun⟩
  · cases hrun
  · cases hrun
    exact findLevelLoop_keeps hI hloop hs

theorem findLevel_noNew {kp : KeyPtr w} {level : Nat} {p : Ptr w}
    (hrun : findLevel geo kp level s = .ok (p, s')) : NoNew s s' :=
  findLevel_keeps (fun _ _ _ n' h hp _ => h.setNode hp n') hrun (NoNew.refl s)

/-- A property that an insertion keeps; `fresh` tells the nodes it has allocated from the others. -/
structure InsertStable (geo : Geo) (I : State w → Prop) (fresh : Ptr w → Prop) : Prop where
  slots : SlotStable geo I
  head : ∀ s h, I s → I (s.withHead h)
  pool : ∀ (s : State w) pool, I s → I { s with pool := pool }
  alloc : ∀ s s' p, I s → NewNode geo s s' p → I s' ∧ fresh p

/-- A node given back after a failure further up. -/
def FreeStable (I : State w → Prop) (fresh : Ptr w → Prop) : Prop :=
  ∀ s p n, I s → fresh p → s.heap p = some (.node n) → I (s.setObj p none)

/-- The same with the allocations themselves, for calls that return `err`: one of a node fails only when
`err` is not 0. -/
structure AllocStable (geo : Geo) (I : State w → Prop) (fresh : Ptr w → Prop) (err : Int) : Prop where
  slots : SlotStable geo I
  head : ∀ s h, I s → I (s.withHead h)
  fail : ∀ s s', I s → cbtreeNodeAlloc geo s = .ok (0#w, s') → err = 0 ∨ I s'
  alloc : ∀ s s' p, I s → cbtreeNodeAlloc geo s = .ok (p, s') → p ≠ 0#w → I s' ∧ fresh p
  free : err = 0 ∨ FreeStable I fresh

section

variable {I : State w → Prop} {fresh : Ptr w → Prop} {err : Int}

theorem InsertStable.allocStable (hI : InsertStable geo I fresh) (hfree : err = 0 ∨ FreeStable I fresh) :
    AllocStable geo I fresh err where
  slots := hI.slots
  head := hI.head
  fail s s' hs hrun := by
    rcases cbtreeNodeAlloc_cases geo s with hnull | ⟨pool, hfail, -⟩ | ⟨q, s₁, hok, hnew⟩
    · rw [hnull] at hrun
      cases hrun
    · rw [hfail] at hrun
      cases hrun
      exact .inr (hI.pool s pool hs)
    · rw [hok] at hrun
      cases hrun
      exact absurd rfl hnew.ne
  alloc s s' p hs hrun hp := hI.alloc s s' p hs (newNode_of_alloc hrun hp)
  free := hfree

namespace AllocStable

/-- What a call that succeeds keeps. -/
theorem success (hI : AllocStable geo I fresh err) : AllocStable geo I fresh 0 :=
  ⟨hI.slots, hI.head, fun _ _ _ _ => .inl rfl, hI.alloc, .inl rfl⟩

/-- A node that is there when the call begins stays one. -/
theorem withNode (hI : AllocStable geo I fresh err) (p : Ptr w) :
    AllocStable geo (fun s => I s ∧ ∃ n, s.heap p = some (.node n)) (fun q => fresh q ∧ q ≠ p) err where
  slots s q n n' hs hq hsame := by
    refine ⟨hI.slots s q n n' hs.1 hq hsame, ?_⟩
    by_cases hpq : p = q
    · exact ⟨n', by rw [hpq, State.setNode_heap_self]⟩
    · rw [State.setNode_heap_ne _ hpq]
      exact hs.2
  head s h hs := ⟨hI.head s h hs.1, hs.2⟩
  fail s s' hs hrun := by
    obtain ⟨n, hn⟩ := hs.2
    exact (hI.fail s s' hs.1 hrun).imp_right fun hs' => ⟨hs', n, (kept_of_alloc hrun).heap p _ hn⟩
  alloc s s' q hs hrun hq := by
    obtain ⟨n, hn⟩ := hs.2
    have hnew := newNode_of_alloc hrun hq
    obtain ⟨hs', hfresh⟩ := hI.alloc s s' q hs.1 hrun hq
    refine ⟨⟨hs', n, hnew.kept.heap p _ hn⟩, hfresh, ?_⟩
    rintro rfl
    rw [hnew.free] at hn
    cases hn
  free := hI.free.imp_right fun hfree s q n hs hfresh hq => by
    refine ⟨hfree s q n hs.1 hfresh.1 hq, ?_⟩
    rw [State.setObj_heap, if_neg hfresh.2.symm]
    exact hs.2

theorem grow (hN : 0 < geo.noPairs) (hI : AllocStable geo I fresh err)
    (hrun : cbtreeGrow geo s = .ok (err, s')) (hs : I s) : I s' := by
  obtain ⟨⟨p, s₁⟩, halloc, hrun⟩ := bind_eq_ok.mp hrun
  rcases ite_eq_ok.mp hrun with ⟨hp, hrun⟩ | ⟨hp, hrun⟩
  · cases hrun
    cases hp
    exact (hI.fail s s' hs halloc).resolve_left (by decide)
  · have hs₁ := (hI.alloc s s₁ p hs halloc hp).1
    rcases ite_eq_ok.mp hrun with ⟨-, hrun⟩ | ⟨-, hrun⟩
    · obtain ⟨old, -, hrun⟩ := bind_eq_ok.mp hrun
      rcases ite_eq_ok.mp hrun with ⟨-, hrun⟩ | ⟨-, hrun⟩
      · cases hrun
      · obtain ⟨n, hload, hrun⟩ := bind_eq_ok.mp hrun
        cases hrun
        exact hI.head _ _ (hI.slots.store hs₁ hload
          ((sameCache_setkey hN).trans (sameCache_setval hN)))
    · cases hrun
      exact hI.head _ _ hs₁

section Retry

variable {up : KeyPtr w → Ptr w → Nat → State w → Except Fault (Int × State w)} {kp : KeyPtr w}
  {v : Ptr w} {level : Nat}

theorem retry (hI : AllocStable geo I fresh err)
    (hup : ∀ {I : State w → Prop} {fresh : Ptr w → Prop} {kp v level s s' err}, AllocStable geo I fresh err →
      up kp v level s = .ok (err, s') → I s → I s') :
    ∀ {t : Nat} {s : State w}, insertRetry geo up kp v level t s = .ok (err, s') → I s → I s' := by
  intro t
  induction t with
  | zero =>
    intro s hrun _
    cases hrun
  | succ t ih =>
    intro s hrun hs
    obtain ⟨⟨p, s₁⟩, hfind, hrun⟩ := bind_eq_ok.mp hrun
    have hs₁ := findLevel_keeps hI.slots hfind hs
    obtain ⟨n, hload, hrun⟩ := bind_eq_ok.mp hrun
    obtain ⟨k, -, hrun⟩ := bind_eq_ok.mp hrun
    rcases ite_eq_ok.mp hrun with ⟨-, hrun⟩ | ⟨-, hrun⟩
    · cases hrun
    rcases ite_eq_ok.mp hrun with ⟨hfull, hrun⟩ | ⟨hfull, hrun⟩
    · -- the node is split
      obtain ⟨⟨new, s₂⟩, halloc, hrun⟩ := bind_eq_ok.mp hrun
      rcases ite_eq_ok.mp hrun with ⟨hnew, hrun⟩ | ⟨hnew, hrun⟩
      · cases hrun
        cases hnew
        exact (hI.fail s₁ s' hs₁ halloc).resolve_left (by decide)
      obtain ⟨hs₂, hfresh⟩ := hI.alloc s₁ s₂ new hs₁ halloc hnew
      rcases ite_eq_ok.mp hrun with ⟨-, hrun⟩ | ⟨-, hrun⟩
      · cases hrun
      obtain ⟨⟨err', s₃⟩, hcall, hrun⟩ := bind_eq_ok.mp hrun
      rcases ite_eq_ok.mp hrun with ⟨herr, hrun⟩ | ⟨herr, hrun⟩
      · obtain ⟨s₄, hrel, hrun⟩ := bind_eq_ok.mp hrun
        cases hrun
        obtain ⟨n₂, hn₂, -⟩ := (newNode_of_alloc halloc hnew).node
        obtain ⟨hs₃, n₃, hn₃⟩ := hup (hI.withNode new) hcall ⟨hs₂, n₂, hn₂⟩
        rcases State.free_eq_ok.mp hrel with ⟨-, rfl⟩ | ⟨-, -, rfl⟩
        · exact hs₃
        · exact hI.free.resolve_left herr _ _ n₃ hs₃ hfresh hn₃
      · have herr₀ : err' = 0 := by simpa using herr
        rw [herr₀] at hcall
        have hs₃ := hup hI.success hcall hs₂
        obtain ⟨nv, hloadn, hrun⟩ := bind_eq_ok.mp hrun
        obtain ⟨n₃, hloadp, hrun⟩ := bind_eq_ok.mp hrun
        rw [hfull] at hrun
        obtain ⟨hsame₁, hsame₂⟩ : SameCache geo nv (splitNode geo geo.noPairs nv n₃).1 ∧
            SameCache geo n₃ (splitNode geo geo.noPairs nv n₃).2 := sameCache_splitNode le_rfl
        have hs₄ := hI.slots.store hs₃ hloadn hsame₁
        apply ih hrun
        by_cases hpn : p = new
        · subst hpn
          have heq : nv = n₃ := Except.ok.inj (hloadn.symm.trans hloadp)
          refine hI.slots _ _ _ _ hs₄ (State.setNode_heap_self _) fun j hj => ?_
          rw [hsame₂ j hj, hsame₁ j hj, heq]
        · refine hI.slots _ _ n₃ _ hs₄ ?_ hsame₂
          exact (State.setNode_heap_ne _ hpn).trans (State.load_eq_ok.mp hloadp).2
    · rcases ite_eq_ok.mp hrun with ⟨-, hrun⟩ | ⟨hroom, hrun⟩
      · cases hrun
      obtain ⟨n', hload', hrun⟩ := bind_eq_ok.mp hrun
      obtain ⟨k', -, hrun⟩ := bind_eq_ok.mp hrun
      cases hrun
      have hfill : getpos geo n k ≤ getfill geo n (getpos geo n k) := le_scan _ _ _
      exact hI.slots.store (hI.slots.store hs₁ hload (sameCache_shiftRight (by omega))) hload'
        ((sameCache_setkey (by omega)).trans (sameCache_setval (by omega)))

theorem insertLevel (hN : 0 < geo.noPairs) : ∀ {fuel : Nat} {I : State w → Prop} {fresh : Ptr w → Prop}
    {kp : KeyPtr w} {v : Ptr w} {level : Nat} {s s' : State w} {err : Int}, AllocStable geo I fresh err →
    cbtreeInsertLevel geo fuel kp v level s = .ok (err, s') → I s → I s' := by
  intro fuel
  induction fuel with
  | zero =>
    intro _ _ _ _ _ _ _ _ _ hrun _
    cases hrun
  | succ fuel ih =>
    intro I fresh kp v level s s' err hI hrun hs
    rcases ite_eq_ok.mp hrun with ⟨-, hrun⟩ | ⟨-, hrun⟩
    · cases hrun
    rcases ite_eq_ok.mp hrun with ⟨-, hrun⟩ | ⟨-, hrun⟩
    · obtain ⟨⟨err', s₁⟩, hgrow, hrun⟩ := bind_eq_ok.mp hrun
      rcases ite_eq_ok.mp hrun with ⟨-, hrun⟩ | ⟨herr, hrun⟩
      · cases hrun
        exact hI.grow hN hgrow hs
      · have herr₀ : err' = 0 := by simpa using herr
        rw [herr₀] at hgrow
        exact hI.retry (ih) hrun (hI.success.grow hN hgrow hs)
    · rw [ok_bind] at hrun
      rcases ite_eq_ok.mp hrun with ⟨hne, -⟩ | ⟨-, hrun⟩
      · exact absurd rfl hne
      · exact hI.retry (ih) hrun hs

/-- What an insertion keeps. -/
theorem insert {key : Words w} (hN : 0 < geo.noPairs) (hI : AllocStable geo I fresh err)
    (hrun : cbtreeInsert geo key v s = .ok (err, s')) (hs : I s) : I s' := by
  rcases ite_eq_ok.mp hrun with ⟨-, hrun⟩ | ⟨-, hrun⟩
  · cases hrun
  · exact hI.insertLevel hN hrun hs

end Retry

end AllocStable

theorem cbtreeInsert_keeps {key : Words w} {v : Ptr w} (hN : 0 < geo.noPairs) (hI : InsertStable geo I fresh)
    (hfree : err = 0 ∨ FreeStable I fresh) (hrun : cbtreeInsert geo key v s = .ok (err, s'))
    (hs : I s) : I s' := (hI.allocStable hfree).insert hN hrun hs

end

end CachedBTree
