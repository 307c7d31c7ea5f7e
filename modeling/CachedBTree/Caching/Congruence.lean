import CachedBTree.Caching.Sticking
import CachedBTree.Insertion.Usage
import CachedBTree.Merging.Heads
import CachedBTree.Model.Iterate
import CachedBTree.Removal.Returns
import CachedBTree.Support.TwoRuns

/-! # What does not look at the caches

Two memories with the same tree, whose nodes differ in the cache words only and whose queues may
hold anything.  The search for a node, an allocation, an insertion, a removal that returns and
the walk from entry to entry do the same in both. -/

namespace CachedBTree

open CachedBTree.Support

variable {w : Nat} {geo : Geo} {s s' t : State w} {p : Ptr w} {n n' m m' k k' : Words w} {i j : Nat}

/-! ## Slots -/

/-- The keys, the values and the pointer to the queue are the same. -/
def SameSlots (geo : Geo) (n n' : Words w) : Prop := ∀ j, j ≤ geo.arrLen → n' j = n j

/-- The words of the key are the same. -/
def SameKey (geo : Geo) (k k' : Words w) : Prop := ∀ j, j < geo.keylen → k' j = k j

theorem SameKey.keyNum (h : SameKey geo k k') : keyNum geo k' = keyNum geo k := keyNum_congr h

namespace SameSlots

theorem refl (geo : Geo) (n : Words w) : SameSlots geo n n := fun _ _ => rfl

theorem symm (h : SameSlots geo n n') : SameSlots geo n' n := fun j hj => (h j hj).symm

/-- Slot `noPairs` is read too: its key lies in the values, and its value may be the pointer to the queue. -/
theorem bval (h : SameSlots geo n n') (hi : i ≤ geo.noPairs) :
    CachedBTree.bval geo n' i = CachedBTree.bval geo n i := by
  have hpairs : geo.noPairs ≤ geo.keylen * geo.noPairs := Nat.le_mul_of_pos_left _ geo.keylen_pos
  have harr : geo.arrLen = geo.keylen * geo.noPairs + geo.noLongs := rfl
  exact h _ (by omega)

theorem bkey (h : SameSlots geo n n') (hN : 0 < geo.noPairs) (hi : i ≤ geo.noPairs) :
    SameKey geo (CachedBTree.bkey geo n i) (CachedBTree.bkey geo n' i) := by
  intro j hj
  have harr : geo.arrLen = geo.keylen * geo.noPairs + geo.noLongs := rfl
  have hfirst : geo.keylen ≤ geo.noLongs := by
    rw [geo.noLongs_eq]
    exact Nat.le_mul_of_pos_right _ hN
  have hslot : i * geo.keylen ≤ geo.keylen * geo.noPairs := by
    rw [Nat.mul_comm]
    exact Nat.mul_le_mul_left _ hi
  exact h _ (by omega)

theorem slotAt (h : SameSlots geo n n') (hi : i < geo.noPairs) :
    CachedBTree.slotAt geo n' i = CachedBTree.slotAt geo n i :=
  Prod.ext (h.bkey (by omega) hi.le).keyNum (h.bval hi.le)

theorem getpos (h : SameSlots geo n n') (hk : SameKey geo k k') :
    CachedBTree.getpos geo n' k' = CachedBTree.getpos geo n k :=
  getpos_congr (fun _ hi => h.slotAt hi) hk.keyNum

theorem getfill (h : SameSlots geo n n') (start : Nat) :
    CachedBTree.getfill geo n' start = CachedBTree.getfill geo n start :=
  scan_congr fun i _ hi => by rw [h.bval (by omega)]

theorem keycmp (h : SameSlots geo n n') (hk : SameKey geo k k') (hN : 0 < geo.noPairs) (hi : i ≤ geo.noPairs) :
    CachedBTree.keycmp geo n' i k' = 0 ↔ CachedBTree.keycmp geo n i k = 0 := by
  rw [CachedBTree.keycmp, CachedBTree.keycmp, longcmp_eq_zero, longcmp_eq_zero, (h.bkey hN hi).keyNum, hk.keyNum]

theorem setkey (h : SameSlots geo n n') (hk : SameKey geo k k') :
    SameSlots geo (CachedBTree.setkey geo n i k) (CachedBTree.setkey geo n' i k') := by
  intro j hj
  rw [CachedBTree.setkey, CachedBTree.setkey, longcpy_apply, longcpy_apply]
  split
  next hin => exact hk _ (by omega)
  next => exact h j hj

theorem setval (h : SameSlots geo n n') (v : Ptr w) :
    SameSlots geo (CachedBTree.setval geo n i v) (CachedBTree.setval geo n' i v) := by
  intro j hj
  simp only [CachedBTree.setval, Function.update_apply]
  split
  · rfl
  · exact h j hj

theorem copypair (h : SameSlots geo n n') (hsrc : SameSlots geo m m') (hN : 0 < geo.noPairs) (hi : i ≤ geo.noPairs) :
    SameSlots geo (CachedBTree.copypair geo n j m i) (CachedBTree.copypair geo n' j m' i) := by
  rw [CachedBTree.copypair, CachedBTree.copypair, hsrc.bval hi]
  exact (h.setkey (hsrc.bkey hN hi)).setval _

theorem clearpair (h : SameSlots geo n n') :
    SameSlots geo (CachedBTree.clearpair geo n i) (CachedBTree.clearpair geo n' i) := by
  rw [clearpair_eq, clearpair_eq]
  exact (h.setkey fun _ _ => rfl).setval _

theorem shiftRight : ∀ {d : Nat} {n n' : Words w}, SameSlots geo n n' → i + d < geo.noPairs →
    SameSlots geo (CachedBTree.shiftRight geo i d n) (CachedBTree.shiftRight geo i d n')
  | 0, _, _, h, _ => h
  | _ + 1, _, _, h, hd => (h.copypair h (by omega) (by omega)).shiftRight (by omega)

theorem shiftLeft (h : SameSlots geo n n') (hN : 0 < geo.noPairs) : ∀ {d : Nat}, i + d ≤ geo.noPairs →
    SameSlots geo (CachedBTree.shiftLeft geo n i d) (CachedBTree.shiftLeft geo n' i d)
  | 0, _ => h
  | _ + 1, hd => (h.shiftLeft hN (by omega)).copypair (h.shiftLeft hN (by omega)) hN hd

/-- Both nodes of a split. -/
theorem splitLoop (h : SameSlots geo n n') (hnew : SameSlots geo m m') {fill : Nat} (hfill : fill ≤ geo.noPairs) :
    ∀ {i : Nat}, i ≤ fill / 2 →
    SameSlots geo (CachedBTree.splitLoop geo fill i (m, n)).1 (CachedBTree.splitLoop geo fill i (m', n')).1 ∧
      SameSlots geo (CachedBTree.splitLoop geo fill i (m, n)).2 (CachedBTree.splitLoop geo fill i (m', n')).2
  | 0, _ => ⟨hnew, h⟩
  | i + 1, hi => by
    obtain ⟨hfirst, hsecond⟩ := h.splitLoop hnew hfill (i := i) (by omega)
    exact ⟨hfirst.copypair hsecond (by omega) (by omega), (hsecond.copypair hsecond (by omega) (by omega)).clearpair⟩

theorem splitNode (h : SameSlots geo n n') (hnew : SameSlots geo m m') {fill : Nat} (hfill : fill ≤ geo.noPairs) :
    SameSlots geo (CachedBTree.splitNode geo fill m n).1 (CachedBTree.splitNode geo fill m' n').1 ∧
      SameSlots geo (CachedBTree.splitNode geo fill m n).2 (CachedBTree.splitNode geo fill m' n').2 := by
  obtain ⟨hfirst, hsecond⟩ := h.splitLoop hnew hfill (i := fill / 2) le_rfl
  unfold CachedBTree.splitNode
  by_cases hodd : fill % 2 = 1
  · rw [if_pos hodd, if_pos hodd]
    exact ⟨hfirst, (hsecond.copypair hsecond (by omega) (by omega)).clearpair⟩
  · rw [if_neg hodd, if_neg hodd]
    exact ⟨hfirst, hsecond⟩

end SameSlots

/-! ## Memories -/

/-- The same head, the same answers to come and the same addresses in use, and nodes with the same slots. -/
structure SameTree (geo : Geo) (s t : State w) : Prop extends SameUse s t where
  head : t.toHead = s.toHead
  node : ∀ p n, s.heap p = some (.node n) → ∃ n', t.heap p = some (.node n') ∧ SameSlots geo n n'
  back : ∀ p n', t.heap p = some (.node n') → ∃ n, s.heap p = some (.node n)

theorem CacheWrite.sameTree (h : CacheWrite geo s s') : SameTree geo s s' where
  toSameUse := h.sameUse
  head := h.head
  node p n hp := by
    obtain ⟨n', hn', hsame⟩ := h.node p n hp
    exact ⟨n', hn', fun j hj => hsame j (by omega)⟩
  back := h.back

namespace SameTree

theorem refl (geo : Geo) (s : State w) : SameTree geo s s := (CacheWrite.refl geo s).sameTree

theorem symm (h : SameTree geo s t) : SameTree geo t s where
  toSameUse := h.toSameUse.symm
  head := h.head.symm
  node p n' hp := by
    obtain ⟨n, hn⟩ := h.back p n' hp
    obtain ⟨m, hm, hsame⟩ := h.node p n hn
    rw [hp] at hm
    cases hm
    exact ⟨n, hn, hsame.symm⟩
  back p n hp := by
    obtain ⟨n', hn', -⟩ := h.node p n hp
    exact ⟨n', hn'⟩

theorem trans {u : State w} (h : SameTree geo s t) (h' : SameTree geo t u) : SameTree geo s u where
  toSameUse := h.toSameUse.trans h'.toSameUse
  head := h'.head.trans h.head
  node p n hp := by
    obtain ⟨n', hn', hsame⟩ := h.node p n hp
    obtain ⟨n'', hn'', hsame'⟩ := h'.node p n' hn'
    exact ⟨n'', hn'', fun j hj => (hsame' j hj).trans (hsame j hj)⟩
  back p n'' hp := by
    obtain ⟨n', hn'⟩ := h'.back p n'' hp
    exact h.back p n' hn'

theorem height (h : SameTree geo s t) : t.height = s.height := congrArg Head.height h.head

theorem root (h : SameTree geo s t) : t.node = s.node := congrArg Head.node h.head

theorem load (h : SameTree geo s t) (p : Ptr w) : Follows (SameSlots geo) (s.load p) (t.load p) := by
  intro n hload
  obtain ⟨hp, hn⟩ := State.load_eq_ok.mp hload
  obtain ⟨n', hn', hsame⟩ := h.node p n hn
  exact ⟨n', State.load_eq_ok.mpr ⟨hp, hn'⟩, hsame⟩

theorem setNode (h : SameTree geo s t) (hn : SameSlots geo n n') (p : Ptr w) :
    SameTree geo (s.setNode p n) (t.setNode p n') where
  pool := h.pool
  slab := h.slab
  use x := by
    rw [State.setNode_heap, State.setNode_heap]
    split
    · simp
    · exact h.use x
  head := h.head
  node x m hx := by
    rw [State.setNode_heap] at hx ⊢
    by_cases hxp : x = p
    · rw [if_pos hxp] at hx ⊢
      cases hx
      exact ⟨n', rfl, hn⟩
    · rw [if_neg hxp] at hx ⊢
      exact h.node x m hx
  back x m hx := by
    rw [State.setNode_heap] at hx ⊢
    by_cases hxp : x = p
    · rw [if_pos hxp]
      exact ⟨n, rfl⟩
    · rw [if_neg hxp] at hx ⊢
      exact h.back x m hx

theorem withHead (h : SameTree geo s t) (head : Head w) : SameTree geo (s.withHead head) (t.withHead head) :=
  ⟨⟨h.pool, h.slab, h.use⟩, rfl, h.node, h.back⟩

theorem free (h : SameTree geo s t) (p : Ptr w) : Follows (SameTree geo) (s.free p) (t.free p) := by
  unfold State.free
  refine Follows.ite Iff.rfl (fun _ => Follows.ok h) fun _ => ?_
  have huse : t.inUse p = s.inUse p := h.toSameUse.twin.inUse p
  refine Follows.ite (by rw [huse]) (fun _ => Follows.ok ⟨⟨h.pool, h.slab, fun x => ?_⟩, h.head, fun x m hx => ?_,
    fun x m hx => ?_⟩) fun _ => Follows.error
  · rw [State.setObj_heap, State.setObj_heap]
    split
    · exact Iff.rfl
    · exact h.use x
  · rw [State.setObj_heap] at hx ⊢
    by_cases hxp : x = p
    · rw [if_pos hxp] at hx
      cases hx
    · rw [if_neg hxp] at hx ⊢
      exact h.node x m hx
  · rw [State.setObj_heap] at hx ⊢
    by_cases hxp : x = p
    · rw [if_pos hxp] at hx
      cases hx
    · rw [if_neg hxp] at hx ⊢
      exact h.back x m hx

/-! ## The steps of an insertion -/

/-- What is allocated is the same in both memories. -/
theorem nodeAlloc (h : SameTree geo s t) :
    Follows (Paired (SameTree geo)) (cbtreeNodeAlloc geo s) (cbtreeNodeAlloc geo t) := by
  rintro ⟨p, s'⟩ hrun
  obtain ⟨t', hrun', huse, hnew⟩ : ∃ t', cbtreeNodeAlloc geo t = .ok (p, t') ∧ SameUse s' t' ∧
      ∀ x, s.heap x = none → t'.heap x = s'.heap x := by
    unfold cbtreeNodeAlloc State.mempoolAlloc at hrun ⊢
    rw [h.pool]
    have htwin := h.toSameUse.twin
    cases hpool : s.pool with
    | nil =>
      simp only [hpool, if_true] at hrun ⊢
      cases hrun
      exact ⟨t, rfl, h.toSameUse, fun x hx => by rw [hx, (h.use x).mpr hx]⟩
    | cons q rest =>
      simp only [hpool, htwin.inUse] at hrun ⊢
      by_cases hq : q = 0#w ∨ s.inUse q = true
      · simp only [if_pos hq, if_true] at hrun ⊢
        cases hrun
        exact ⟨_, rfl, ⟨rfl, h.slab, h.use⟩, fun x hx => hx ▸ (h.use x).mpr hx⟩
      · simp only [if_neg hq, if_neg (not_or.mp hq).1] at hrun ⊢
        obtain ⟨s₁, hinit, hrun⟩ := bind_eq_ok.mp hrun
        cases hrun
        have hfree : s.heap p = none := by simpa [State.inUse] using (not_or.mp hq).2
        have hbegun : Twin (fun x => s.heap x ≠ none) { s with pool := rest } { t with pool := rest } :=
          ⟨rfl, h.slab, htwin.own, htwin.old⟩
        obtain ⟨t₁, hinit', h₁⟩ := ((hbegun.setObj (by simpa using hfree) _).setObj (by simpa using hfree) _).initQueue
          (by simpa using hfree) hinit
        exact ⟨t₁, by rw [State.setNode, State.setNode, hinit', ok_bind], h₁.sameUse,
          fun x hx => h₁.own x (by simpa using hx)⟩
  have hkept := kept_of_alloc hrun
  have hkept' := kept_of_alloc hrun'
  refine ⟨(p, t'), hrun', rfl, huse, hkept'.head.trans (h.head.trans hkept.head.symm), fun x n hx => ?_,
    fun x n hx => ?_⟩
  · cases hold : s.heap x with
    | none => exact ⟨n, (hnew x hold).trans hx, SameSlots.refl geo n⟩
    | some o =>
      rw [hkept.heap x o hold] at hx
      cases hx
      obtain ⟨n', hn', hsame⟩ := h.node x n hold
      exact ⟨n', hkept'.heap x _ hn', hsame⟩
  · cases hold : t.heap x with
    | none => exact ⟨n, (hnew x ((h.use x).mp hold)).symm.trans hx⟩
    | some o =>
      rw [hkept'.heap x o hold] at hx
      cases hx
      obtain ⟨n₀, hn₀⟩ := h.back x n hold
      exact ⟨n₀, hkept.heap x _ hn₀⟩

end SameTree

/-- A key of the caller, or one of the slots of a node. -/
def KeyPtr.InRange (geo : Geo) : KeyPtr w → Prop
  | .buf _ => True
  | .slot _ i => i < geo.noPairs

namespace SameTree

variable {kp : KeyPtr w} {level : Nat}

theorem read (h : SameTree geo s t) (hkp : kp.InRange geo) : Follows (SameKey geo) (kp.read geo s) (kp.read geo t) := by
  cases kp with
  | buf words => exact Follows.ok fun _ _ => rfl
  | slot q i => exact (h.load q).bind fun n n' hn => Follows.ok (hn.bkey (Nat.zero_lt_of_lt hkp) (Nat.le_of_lt hkp))

theorem findLevelLoop (hkp : kp.InRange geo) : ∀ (d : Nat) (q : Ptr w) {s t : State w}, SameTree geo s t →
    Follows (Paired (SameTree geo)) (CachedBTree.findLevelLoop geo kp d q s) (CachedBTree.findLevelLoop geo kp d q t)
  | 0, _, _, _, h => Follows.ok ⟨rfl, h⟩
  | d + 1, q, s, t, h => by
    refine (h.load q).bind fun n n' hn => (h.read hkp).bind fun k k' hk => ?_
    have hpos := getpos_le geo n k
    simp only [hn.getpos hk]
    refine Follows.ite (or_congr_right' fun hne => by rw [hn.bval (by omega)]) (fun _ => ?_) fun hin => ?_
    · -- the right-most separator goes down to the key
      refine Follows.ite Iff.rfl (fun _ => Follows.error) fun hzero => ?_
      have hset := hn.setkey (i := getpos geo n k - 1) hk
      rw [hset.bval (by omega)]
      exact findLevelLoop hkp d _ (h.setNode hset q)
    · rw [hn.bval (by omega)]
      exact findLevelLoop hkp d _ h

theorem findLevel (h : SameTree geo s t) (hkp : kp.InRange geo) (level : Nat) :
    Follows (Paired (SameTree geo)) (CachedBTree.findLevel geo kp level s) (CachedBTree.findLevel geo kp level t) := by
  unfold CachedBTree.findLevel
  rw [h.height, h.root]
  refine (findLevelLoop hkp _ _ h).bind ?_
  rintro ⟨q, s'⟩ ⟨q', t'⟩ ⟨hq, h'⟩
  obtain rfl : q' = q := hq
  exact Follows.ite Iff.rfl (fun _ => Follows.error) fun _ => Follows.ok ⟨rfl, h'⟩

theorem grow (h : SameTree geo s t) : Follows (Paired (SameTree geo)) (cbtreeGrow geo s) (cbtreeGrow geo t) := by
  refine h.nodeAlloc.bind ?_
  rintro ⟨q, s'⟩ ⟨q', t'⟩ ⟨hq, h'⟩
  obtain rfl : q' = q := hq
  refine Follows.ite Iff.rfl (fun _ => Follows.ok ⟨rfl, h'⟩) fun _ => ?_
  have hlast : ∀ {s'' t'' : State w}, SameTree geo s'' t'' →
      Follows (ε := Fault) (Paired (SameTree geo)) (.ok ((0 : Int), s''.withHead ⟨q', s''.height + 1⟩))
        (.ok ((0 : Int), t''.withHead ⟨q', t''.height + 1⟩)) := fun h'' => by
    rw [h''.height]
    exact Follows.ok ⟨rfl, h''.withHead _⟩
  dsimp only
  rw [h'.root]
  refine Follows.ite Iff.rfl (fun _ => ?_) fun _ => hlast h'
  refine (h'.load _).bind fun old old' hold => ?_
  have hfill := getfill_le geo old (Nat.zero_le _)
  dsimp only
  rw [hold.getfill]
  refine Follows.ite Iff.rfl (fun _ => Follows.error) fun hne => (h'.load q').bind fun n n' hn => ?_
  exact hlast (h'.setNode ((hn.setkey (hold.bkey (by omega) (by omega))).setval _) q')

/-! ## cbtree_insert -/

/-- The call at the next level does the same in both memories. -/
def Respects (geo : Geo) (up : KeyPtr w → Ptr w → Nat → State w → Except Fault (Int × State w)) : Prop :=
  ∀ kp val level s t, kp.InRange geo → SameTree geo s t →
    Follows (Paired (SameTree geo)) (up kp val level s) (up kp val level t)

theorem insertRetry {insertUp : KeyPtr w → Ptr w → Nat → State w → Except Fault (Int × State w)} {val : Ptr w}
    (hup : Respects geo insertUp) (hkp : kp.InRange geo) : ∀ (tries : Nat) {s t : State w}, SameTree geo s t →
    Follows (Paired (SameTree geo)) (CachedBTree.insertRetry geo insertUp kp val level tries s)
      (CachedBTree.insertRetry geo insertUp kp val level tries t)
  | 0, _, _, _ => Follows.error
  | tries + 1, s, t, h => by
    refine (h.findLevel hkp level).bind ?_
    rintro ⟨q, s₁⟩ ⟨q', t₁⟩ ⟨hq, h₁⟩
    obtain rfl : q' = q := hq
    refine (h₁.load q').bind fun n n' hn => (h₁.read hkp).bind fun k k' hk => ?_
    have hpos := getpos_le geo n k
    have hfill := getfill_le geo n hpos
    have hstart : CachedBTree.getpos geo n k ≤ CachedBTree.getfill geo n (CachedBTree.getpos geo n k) :=
      le_scan _ _ _
    simp only [hn.getpos hk, hn.getfill]
    refine Follows.ite (and_congr_right fun hlt => hn.keycmp hk (by omega) (by omega)) (fun _ => Follows.error)
      fun _ => ?_
    refine Follows.ite Iff.rfl (fun hfull => ?_) fun hroom => ?_
    · -- a new node, its separator one level up, and the split
      refine h₁.nodeAlloc.bind ?_
      rintro ⟨new, s₂⟩ ⟨new', t₂⟩ ⟨hnew, h₂⟩
      obtain rfl : new' = new := hnew
      refine Follows.ite Iff.rfl (fun _ => Follows.ok ⟨rfl, h₂⟩) fun _ => ?_
      refine Follows.ite Iff.rfl (fun _ => Follows.error) fun hhalf => ?_
      have hslot : (KeyPtr.slot q' (CachedBTree.getfill geo n (CachedBTree.getpos geo n k) / 2 - 1)).InRange geo := by
        show _ - 1 < geo.noPairs
        omega
      refine (hup _ _ _ _ _ hslot h₂).bind ?_
      rintro ⟨err, s₃⟩ ⟨err', t₃⟩ ⟨herr, h₃⟩
      obtain rfl : err' = err := herr
      refine Follows.ite Iff.rfl (fun _ => (h₃.free new').bind fun _ _ h₄ => Follows.ok ⟨rfl, h₄⟩) fun _ => ?_
      refine (h₃.load new').bind fun m m' hm => (h₃.load q').bind fun o o' ho => ?_
      obtain ⟨hfirst, hsecond⟩ := ho.splitNode hm hfill
      exact insertRetry hup hkp tries ((h₃.setNode hfirst new').setNode hsecond q')
    · refine Follows.ite Iff.rfl (fun _ => Follows.error) fun _ => ?_
      have h₂ := h₁.setNode (hn.shiftRight (i := CachedBTree.getpos geo n k)
        (d := CachedBTree.getfill geo n (CachedBTree.getpos geo n k) - CachedBTree.getpos geo n k) (by omega)) q'
      refine (h₂.load q').bind fun m m' hm => (h₂.read hkp).bind fun l l' hl => Follows.ok ⟨rfl, ?_⟩
      exact h₂.setNode ((hm.setkey hl).setval val) q'

theorem insertLevel : ∀ fuel : Nat, Respects geo (cbtreeInsertLevel (w := w) geo fuel)
  | 0 => fun _ _ _ _ _ _ _ => Follows.error
  | fuel + 1 => fun kp val level s t hkp h => by
    refine Follows.ite Iff.rfl (fun _ => Follows.error) fun _ => ?_
    have hrest : ∀ {err : Int} {s₁ t₁ : State w}, SameTree geo s₁ t₁ → Follows (Paired (SameTree geo))
        (if err ≠ 0 then .ok (err, s₁) else
          CachedBTree.insertRetry geo (cbtreeInsertLevel geo fuel) kp val level (fuel + 1) s₁)
        (if err ≠ 0 then .ok (err, t₁) else
          CachedBTree.insertRetry geo (cbtreeInsertLevel geo fuel) kp val level (fuel + 1) t₁) := fun h₁ =>
      Follows.ite Iff.rfl (fun _ => Follows.ok ⟨rfl, h₁⟩) fun _ => insertRetry (insertLevel fuel) hkp _ h₁
    dsimp only
    rw [h.height]
    refine Follows.ite Iff.rfl (fun _ => h.grow.bind ?_) fun _ => @hrest 0 s t h
    rintro ⟨err, s₁⟩ ⟨err', t₁⟩ ⟨herr, h₁⟩
    obtain rfl : err' = err := herr
    exact hrest h₁

/-- An insertion does the same whatever the caches hold. -/
theorem insert (h : SameTree geo s t) (key : Words w) (val : Ptr w) :
    Follows (Paired (SameTree geo)) (cbtreeInsert geo key val s) (cbtreeInsert geo key val t) := by
  refine Follows.ite Iff.rfl (fun _ => Follows.error) fun _ => ?_
  rw [h.height]
  exact insertLevel _ _ _ _ _ _ trivial h

/-! ## cbtree_remove -/

section Removal

variable {removeUp : KeyPtr w → Nat → State w → Except Fault (Ptr w × State w)} {R : Rings w} {child parent : Ptr w}
  {fill : Nat}

/-- The end of `rebalance`; no merge returns. -/
theorem rightNeighbour (h : SameTree geo s t) (hm : SameSlots geo m m') (hi : i ≤ geo.noPairs)
    (hup : WritesSlots geo removeUp) (hC : Caches geo s R) : Follows (SameTree geo)
      (if i + 1 < CachedBTree.getfill geo m i then do
        let rightWords ← s.load (CachedBTree.bval geo m (i + 1))
        if fill + CachedBTree.getfill geo rightWords 0 ≤ geo.noPairs then
          merge geo (Reclaim.code geo) removeUp level child fill (CachedBTree.bval geo m (i + 1))
            (CachedBTree.getfill geo rightWords 0) parent i s
        else .ok s
      else .ok s)
      (if i + 1 < CachedBTree.getfill geo m' i then do
        let rightWords ← t.load (CachedBTree.bval geo m' (i + 1))
        if fill + CachedBTree.getfill geo rightWords 0 ≤ geo.noPairs then
          merge geo (Reclaim.code geo) removeUp level child fill (CachedBTree.bval geo m' (i + 1))
            (CachedBTree.getfill geo rightWords 0) parent i t
        else .ok t
      else .ok t) := by
  have hfill := getfill_le geo m hi
  rw [hm.getfill]
  refine Follows.ite Iff.rfl (fun hin => ?_) fun _ => Follows.ok h
  rw [hm.bval (by omega)]
  refine (h.load _).bind fun o o' ho => ?_
  rw [ho.getfill]
  exact Follows.ite Iff.rfl (fun hroom => Follows.never fun _ => merge_faults hup hC hroom (value_word_lt (by omega)))
    fun _ => Follows.ok h

/-- The rebalancing that returns has read slots only. -/
theorem rebalance (h : SameTree geo s t) (hN : 0 < geo.noPairs) (hkp : kp.InRange geo) (hup : WritesSlots geo removeUp)
    (hC : Caches geo s R) (hchild : s.heap child = some (.node n)) :
    Follows (SameTree geo) (CachedBTree.rebalance geo (Reclaim.code geo) removeUp kp level child fill s)
      (CachedBTree.rebalance geo (Reclaim.code geo) removeUp kp level child fill t) := by
  intro s' hrun
  obtain ⟨hfill, parent, m, k, hfind, hload, hread, hunmerged⟩ := rebalance_quiet hN hup hC hchild hrun
  obtain ⟨⟨parent', t'⟩, hfind', hsame, h'⟩ := h.findLevel hkp (level + 1) _ hfind
  obtain rfl : parent' = parent := hsame
  obtain ⟨m', hload', hm⟩ := h'.load parent' m hload
  obtain ⟨k', hread', hk⟩ := h'.read hkp k hread
  have hpos := getpos_le geo m k
  have hwrite := (SlotWrite.refl geo s).findLevel hfind
  have hC' := hwrite.caches hC
  obtain ⟨o, ho, -⟩ := hwrite.node child n hchild
  have hword := hC'.child_word_lt (State.load_eq_ok.mp hload).2 hpos hN (hunmerged.child ▸ ho)
  unfold CachedBTree.rebalance at hrun ⊢
  rw [if_neg hfill] at hrun ⊢
  simp only [hfind, hload, hread, ok_bind] at hrun
  simp only [hfind', hload', hread', ok_bind, hm.getpos hk, hm.bval hpos]
  rw [if_neg (not_not.mpr hunmerged.child)] at hrun ⊢
  refine Follows.ite Iff.rfl (fun hleft => ?_) (fun _ => ?_) s' hrun
  · rw [hm.bval (by omega)]
    refine (h'.load _).bind fun o o' ho => ?_
    rw [ho.getfill]
    refine Follows.ite Iff.rfl (fun hroom => Follows.never fun _ => ?_) fun _ => h'.rightNeighbour hm hpos hup hC'
    obtain ⟨l, hl, hroom⟩ := hroom
    cases hl
    exact merge_faults hup hC' (by simpa [Nat.add_comm] using hroom) (by rwa [Nat.sub_add_cancel hleft])
  · exact Follows.ite Iff.rfl (fun hnone => by simp at hnone) fun _ => h'.rightNeighbour hm hpos hup hC'

theorem shrink (h : SameTree geo s t) (hC : Caches geo s R) :
    Follows (SameTree geo) (cbtreeShrink geo (Reclaim.code geo) s) (cbtreeShrink geo (Reclaim.code geo) t) := by
  unfold cbtreeShrink
  rw [h.height, h.root]
  refine Follows.ite Iff.rfl (fun _ => Follows.ok h) fun _ => ?_
  intro s' hrun
  obtain ⟨n, hload, hrun⟩ := bind_eq_ok.mp hrun
  rcases ite_eq_ok.mp hrun with ⟨-, hrun⟩ | ⟨-, hrun⟩
  · cases hrun
  · have hC' := hC.withHead ⟨CachedBTree.bval geo n 0, s.height - 1⟩
    exact absurd hrun (reclaim_faults hC' (State.load_eq_ok.mp hload).2).2.2

theorem removeLevel (h : SameTree geo s t) (hN : 0 < geo.noPairs) (hkp : kp.InRange geo) (hC : Caches geo s R)
    (fuel : Nat) : Follows (Paired (SameTree geo)) (cbtreeRemoveLevel geo (Reclaim.code geo) (fuel + 1) kp level s)
      (cbtreeRemoveLevel geo (Reclaim.code geo) (fuel + 1) kp level t) := by
  rw [cbtreeRemoveLevel, cbtreeRemoveLevel, h.height]
  refine Follows.ite Iff.rfl (fun _ => Follows.ok ⟨rfl, h.withHead _⟩) fun _ => ?_
  intro r hrun
  obtain ⟨⟨q, s₁⟩, hfind, hrun⟩ := bind_eq_ok.mp hrun
  obtain ⟨⟨q', t₁⟩, hfind', hsame, h₁⟩ := h.findLevel hkp level _ hfind
  obtain rfl : q' = q := hsame
  have hC₁ := ((SlotWrite.refl geo s).findLevel hfind).caches hC
  obtain ⟨n, hload, hrun⟩ := bind_eq_ok.mp hrun
  obtain ⟨n', hload', hn⟩ := h₁.load q' n hload
  obtain ⟨k, hread, hrun⟩ := bind_eq_ok.mp hrun
  obtain ⟨k', hread', hk⟩ := h₁.read hkp k hread
  have hpos := getpos_le geo n k
  have hfill := getfill_le geo n hpos
  simp only [hfind', hload', hread', ok_bind, hn.getpos hk, hn.getfill, hn.bval hpos]
  refine Follows.ite (and_congr_right' (not_congr (hn.keycmp hk hN hpos))) (fun _ => Follows.ok ⟨rfl, h₁⟩)
    (fun _ => ?_) r hrun
  refine Follows.ite Iff.rfl (fun _ => Follows.error) fun hne => ?_
  -- the pair is taken out
  generalize CachedBTree.getpos geo n k = pos at hpos hfill hne ⊢
  generalize CachedBTree.getfill geo n pos = fill at hfill hne ⊢
  have hlast : pos + (fill - 1 - pos) ≤ geo.noPairs := by omega
  have hkeep : SameCache geo n
      (CachedBTree.clearpair geo (CachedBTree.shiftLeft geo n pos (fill - 1 - pos)) (fill - 1)) :=
    (sameCache_shiftLeft hlast).trans (sameCache_clearpair (by omega))
  have hC₂ := ((SlotWrite.refl geo s₁).setNode (State.load_eq_ok.mp hload).2 hkeep).caches hC₁
  have h₂ := h₁.setNode ((hn.shiftLeft hN hlast).clearpair (i := fill - 1)) q'
  have hend : ∀ {x y : State w}, SameTree geo x y → Follows (ε := Fault) (Paired (SameTree geo))
      (.ok (CachedBTree.bval geo n pos, x)) (.ok (CachedBTree.bval geo n pos, y)) := fun h₃ => Follows.ok ⟨rfl, h₃⟩
  dsimp only
  rw [h₂.height]
  refine Follows.ite Iff.rfl (fun _ => ?_) fun _ => hend h₂
  refine Follows.ite Iff.rfl (fun _ => ?_) fun _ => ?_
  · exact (h₂.rebalance hN hkp (cbtreeRemoveLevel_writes hN fuel) hC₂ (State.setNode_heap_self _)).bind fun _ _ => hend
  · exact Follows.ite Iff.rfl (fun _ => (h₂.shrink hC₂).bind fun _ _ => hend) fun _ => hend h₂

/-- A removal that returns does the same whatever the caches hold. -/
theorem remove (h : SameTree geo s t) (hN : 0 < geo.noPairs) (hC : Caches geo s R) (key : Words w) :
    Follows (Paired (SameTree geo)) (cbtreeRemove geo (Reclaim.code geo) key s)
      (cbtreeRemove geo (Reclaim.code geo) key t) := by
  unfold cbtreeRemove
  rw [h.height]
  have hkp : (KeyPtr.buf key).InRange geo := trivial
  exact Follows.ite Iff.rfl (fun _ => Follows.ok ⟨rfl, h⟩) fun _ => h.removeLevel hN hkp hC s.height

end Removal

/-! ## The entries and the walk over them -/

theorem page (h : SameTree geo s t) : t.page geo = s.page geo := by
  funext p
  unfold State.page
  cases hs : s.heap p with
  | none => rw [(h.use p).mpr hs]
  | some o =>
    cases o with
    | node n =>
      obtain ⟨n', hn', hsame⟩ := h.node p n hs
      rw [hn']
      dsimp only [pageOf]
      rw [hsame.getfill]
      refine List.map_congr_left fun i hi => hsame.slotAt ?_
      have := getfill_le geo n (Nat.zero_le _)
      have := List.mem_range.mp hi
      omega
    | queue _ | entry _ _ _ | buf _ =>
      cases ht : t.heap p with
      | none => rfl
      | some o' =>
        cases o' with
        | node n' =>
          obtain ⟨n, hn⟩ := h.back p n' ht
          rw [hs] at hn
          cases hn
        | queue _ | entry _ _ _ | buf _ => rfl

theorem entriesBelow (h : SameTree geo s t) : ∀ (l : Nat) (p : Ptr w),
    CachedBTree.entriesBelow geo t l p = CachedBTree.entriesBelow geo s l p
  | 0, _ => rfl
  | 1, p => congrFun h.page p
  | l + 2, p => by
    simp only [CachedBTree.entriesBelow, h.page, h.entriesBelow (l + 1)]

theorem entries (h : SameTree geo s t) : CachedBTree.entries geo t = CachedBTree.entries geo s := by
  unfold CachedBTree.entries
  rw [h.height, h.root, h.entriesBelow]

theorem nodesBelow (h : SameTree geo s t) : ∀ (l : Nat) (p : Ptr w),
    CachedBTree.nodesBelow geo t l p = CachedBTree.nodesBelow geo s l p
  | 0, _ => rfl
  | l + 1, p => by
    simp only [CachedBTree.nodesBelow, h.page, h.nodesBelow l]

theorem nodes (h : SameTree geo s t) : CachedBTree.nodes geo t = CachedBTree.nodes geo s := by
  unfold CachedBTree.nodes
  rw [h.height, h.root, h.nodesBelow]

theorem lastLoop (h : SameTree geo s t) : ∀ (d : Nat) (p : Ptr w),
    Follows Eq (cbtreeLastLoop geo d p s) (cbtreeLastLoop geo d p t)
  | 0, _ => Follows.ok rfl
  | d + 1, p => (h.load p).bind fun n n' hn => by
    rw [hn.bval (Nat.zero_le _)]
    exact h.lastLoop d _

theorem last (h : SameTree geo s t) (hN : 0 < geo.noPairs) (key : Words w) :
    Follows Eq (cbtreeLast geo key s) (cbtreeLast geo key t) := by
  unfold cbtreeLast
  rw [h.height, h.root]
  refine Follows.ite Iff.rfl (fun _ => Follows.ok rfl) fun _ => (h.lastLoop _ _).bind ?_
  rintro q _ rfl
  refine (h.load q).bind fun n n' hn => Follows.ok ?_
  rw [hn.bval (Nat.zero_le _), longcpy_congr (hn.bkey hN (Nat.zero_le _))]

/-- The place that the last node left has kept for a retry. -/
def RetryInRange (geo : Geo) (retry : Option (KeyPtr w)) : Prop := ∀ kp ∈ retry, kp.InRange geo

theorem getPrevDescent (h : SameTree geo s t) (key : Words w) : ∀ (d : Nat) (p : Ptr w) (retry : Option (KeyPtr w)),
    RetryInRange geo retry → Follows (fun r r' => r' = r ∧ RetryInRange geo r.2)
      (CachedBTree.getPrevDescent geo key d p retry s) (CachedBTree.getPrevDescent geo key d p retry t)
  | 0, _, _, hretry => Follows.ok ⟨rfl, hretry⟩
  | d + 1, p, retry, hretry => (h.load p).bind fun n n' hn => by
    have hpos := getpos_le geo n key
    simp only [hn.getpos fun _ _ => rfl, hn.bval hpos]
    refine Follows.ite Iff.rfl (fun _ => Follows.ok ⟨rfl, hretry⟩) fun hend => ?_
    refine Follows.ite Iff.rfl (fun _ => Follows.ok ⟨rfl, hretry⟩) fun _ => h.getPrevDescent key d _ _ ?_
    intro kp hkp
    cases hkp
    exact Nat.lt_of_le_of_ne hpos hend

theorem getPrevLeaf (h : SameTree geo s t) (hN : 0 < geo.noPairs) (key : Words w)
    (ends : Option (Ptr w) × Option (KeyPtr w)) : Follows
      (fun r r' => r'.2 = r.2 ∧ r.2 = ends.2 ∧ (r.1 = none ∧ r'.1 = none ∨
        ∃ v k k', r.1 = some (v, k) ∧ r'.1 = some (v, k') ∧ SameKey geo k k'))
      (CachedBTree.getPrevLeaf geo key s ends) (CachedBTree.getPrevLeaf geo key t ends) := by
  obtain ⟨node, retry⟩ := ends
  have hmiss : Follows (ε := Fault)
      (fun (r r' : Option (Ptr w × Words w) × Option (KeyPtr w)) => r'.2 = r.2 ∧ r.2 = retry ∧
        (r.1 = none ∧ r'.1 = none ∨ ∃ v k k', r.1 = some (v, k) ∧ r'.1 = some (v, k') ∧ SameKey geo k k'))
      (.ok (none, retry)) (.ok (none, retry)) := Follows.ok ⟨rfl, rfl, .inl ⟨rfl, rfl⟩⟩
  cases node with
  | none => exact hmiss
  | some q =>
    refine Follows.ite Iff.rfl (fun _ => hmiss) fun _ => (h.load q).bind fun n n' hn => ?_
    have hpos := getpos_le geo n key
    simp only [hn.getpos fun _ _ => rfl, hn.bval hpos]
    refine Follows.ite Iff.rfl (fun _ => hmiss) fun _ => Follows.ite Iff.rfl (fun _ => hmiss) fun _ => ?_
    exact Follows.ok ⟨rfl, rfl, .inr ⟨_, _, _, rfl, rfl, hn.bkey hN hpos⟩⟩

theorem getPrevRetry (h : SameTree geo s t) (hN : 0 < geo.noPairs) : ∀ (fuel : Nat) (key : Words w), Follows
      (fun r r' => r = none ∧ r' = none ∨ ∃ v k k', r = some (v, k) ∧ r' = some (v, k') ∧ SameKey geo k k')
      (CachedBTree.getPrevRetry geo s fuel key) (CachedBTree.getPrevRetry geo t fuel key)
  | 0, _ => Follows.error
  | fuel + 1, key => by
    unfold CachedBTree.getPrevRetry
    rw [h.height, h.root]
    refine (h.getPrevDescent _ _ _ none (by simp [RetryInRange])).bind ?_
    rintro ends ends' ⟨hends, hretry⟩
    obtain rfl : ends' = ends := hends
    refine (h.getPrevLeaf hN _ ends').bind ?_
    rintro ⟨found, retry⟩ ⟨found', retry'⟩ ⟨hr', hr, hcase⟩
    obtain rfl : retry' = retry := hr'
    obtain rfl : retry' = ends'.2 := hr
    rcases hcase with ⟨hnone, hnone'⟩ | ⟨v, k, k', hsome, hsome', hk⟩
    · obtain rfl : found = none := hnone
      obtain rfl : found' = none := hnone'
      cases hends : ends'.2 with
      | none => exact Follows.ok (.inl ⟨rfl, rfl⟩)
      | some kp =>
        refine (h.read (hretry kp (by simp [hends]))).bind fun k k' hk => ?_
        rw [longcpy_congr hk]
        exact h.getPrevRetry hN fuel _
    · obtain rfl : found = some (v, k) := hsome
      obtain rfl : found' = some (v, k') := hsome'
      exact Follows.ok (.inr ⟨v, k, k', rfl, rfl, hk⟩)

theorem getPrev (h : SameTree geo s t) (hN : 0 < geo.noPairs) (key : Words w) :
    Follows Eq (cbtreeGetPrev geo key s) (cbtreeGetPrev geo key t) := by
  unfold cbtreeGetPrev
  rw [h.height]
  refine Follows.ite Iff.rfl (fun _ => Follows.ok rfl) fun _ => ?_
  refine Follows.ite Iff.rfl (fun _ => Follows.ok rfl) fun _ => ?_
  refine (h.getPrevRetry hN _ key).bind ?_
  rintro found found' (⟨rfl, rfl⟩ | ⟨v, k, k', rfl, rfl, hk⟩)
  · exact Follows.ok rfl
  · exact Follows.ok (by rw [longcpy_congr hk])

end SameTree

end CachedBTree
