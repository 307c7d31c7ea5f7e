import CachedBTree.Caching.Cold
import CachedBTree.Iteration.Walk
import CachedBTree.Merging.Heads

/-! # `cbtree_merge`

Each round takes the greatest entry of the victim, but what it inserts into the target is what
`cbtree_lookup` returns, and that is the leaf and not the value.  All rounds of a call that
returns look at the same leaf: as soon as it is empty it would have to be given back, unless it
is the root. -/

namespace CachedBTree

open CachedBTree.Support Relation

variable {w : Nat} {geo : Geo} {s s' s₀ : State w} {victim victim' : Head w} {p x leaf : Ptr w} {G H : Labels w}
  {R R' : Rings w} {key dup : Words w} {err : Int}

/-! ## Two trees built by insertions -/

inductive Side where
  | target
  | victim

/-- An insertion into one of the two trees. -/
def insertInto (geo : Geo) (key : Words w) (val : Ptr w) (trees : Head w × State w) :
    Side → Except Fault (Head w × State w)
  | .target => do
    let (_, s) ← cbtreeInsert geo key val trees.2
    .ok (trees.1, s)
  | .victim => do
    let (_, s) ← cbtreeInsert geo key val (trees.2.withHead trees.1)
    .ok (s.toHead, s.withHead trees.2.toHead)

/-- The states that insertions into the two trees lead to. -/
def Built (geo : Geo) : Head w × State w → Head w × State w → Prop :=
  ReflTransGen fun trees trees' => ∃ side key val, insertInto geo key val trees side = .ok trees'

/-- The insertions one after the other, up to the first that does not return. -/
def insertAll (geo : Geo) : List (Side × Words w × Ptr w) → Head w × State w → Head w × State w
  | [], trees => trees
  | (side, key, val) :: calls, trees =>
    match insertInto geo key val trees side with
    | .ok trees => insertAll geo calls trees
    | .error _ => trees

theorem built_insertAll (geo : Geo) : ∀ (calls : List (Side × Words w × Ptr w)) (trees : Head w × State w),
    Built geo trees (insertAll geo calls trees)
  | [], _ => .refl
  | (side, key, val) :: calls, trees => by
    unfold insertAll
    split
    next trees' hrun => exact .head ⟨side, key, val, hrun⟩ (built_insertAll geo calls trees')
    next => exact .refl

theorem Cold.grown (h : Cold R) (hgrew : Grew geo s s' R R') : Cold R' := by
  intro x e he
  by_contra hne
  exact hne (h x e (hgrew.entry_old he hne).1)

theorem Blank.twoTrees (h : Blank s) : TwoTrees geo ⟨0#w, 0⟩ s Labels.none Labels.none fun _ => [] where
  tree := h.fresh.tree
  other := Fresh.tree ⟨rfl, rfl⟩
  apart _ := .inl rfl
  caches := (h.warm (m := 1) (r := 1)).caches
  counted := (h.warm (m := 1) (r := 1)).counted

theorem twoTrees_of_built (hN : 4 ≤ geo.noPairs) (h₀ : Blank s₀) (h : Built geo (⟨0#w, 0⟩, s₀) (victim, s)) :
    ∃ G H R, TwoTrees geo victim s G H R ∧ Cold R := by
  suffices hall : ∀ trees, Built geo (⟨0#w, 0⟩, s₀) trees →
      ∃ G H R, TwoTrees geo trees.1 trees.2 G H R ∧ Cold R from hall _ h
  intro trees htrees
  induction htrees with
  | refl => exact ⟨_, _, _, h₀.twoTrees, fun x e he => by simp at he⟩
  | tail _ hlast ih =>
    obtain ⟨G, H, R, htwo, hcold⟩ := ih
    obtain ⟨side, key, val, hrun⟩ := hlast
    cases side with
    | target =>
      obtain ⟨⟨err, s'⟩, hins, hrun⟩ := bind_eq_ok.mp hrun
      cases hrun
      obtain ⟨G', R', htwo', hgrew, -⟩ := htwo.insert hN hins
      exact ⟨G', H, R', htwo', hcold.grown hgrew⟩
    | victim =>
      obtain ⟨⟨err, s'⟩, hins, hrun⟩ := bind_eq_ok.mp hrun
      cases hrun
      obtain ⟨H', R', htwo', hgrew, -⟩ := htwo.swap.insert hN hins
      exact ⟨G, H', R', htwo'.swap, hcold.grown hgrew⟩

/-! ## The leaf that `cbtree_last` looks at -/

def lastLeaf (geo : Geo) (s : State w) : Ptr w :=
  match cbtreeLastLoop geo (s.height - 1) s.node s with
  | .ok leaf => leaf
  | .error _ => 0#w

/-- The key that `cbtree_last` copies. -/
def lastKey (geo : Geo) (s : State w) : Words w :=
  match cbtreeLast geo (fun _ => 0#w) s with
  | .ok (_, key) => key
  | .error _ => fun _ => 0#w

theorem Tree.lastLeaf_page (h : Tree geo 1 1 1 s G) (hh : 1 ≤ s.height) :
    (G (lastLeaf geo s)).lvl = 1 ∧ ∃ B, entries geo s = (G (lastLeaf geo s)).page ++ B := by
  have hroot := h.root_lvl hh
  obtain ⟨q, B, hrun, hq, hB, -⟩ := h.cbtreeLastLoop_leaf le_rfl le_rfl (d := s.height - 1) (p := s.node) (by omega)
  rw [show s.height - 1 + 1 = s.height by omega] at hB
  unfold lastLeaf
  rw [hrun]
  exact ⟨hq, B, hB⟩

theorem Tree.keyNum_lastKey {e : Nat × Ptr w} {B : Page w} (hN : 1 ≤ geo.noPairs) (h : Tree geo 1 1 1 s G)
    (hes : entries geo s = e :: B) : keyNum geo (lastKey geo s) = e.1 := by
  obtain ⟨v, key', hrun, hcase⟩ := h.cbtreeLast_entry hN le_rfl le_rfl fun _ => 0#w
  rcases hcase with ⟨-, hnil, -⟩ | ⟨B', hB'⟩
  · rw [hnil] at hes
    cases hes
  · rw [hB'] at hes
    unfold lastKey
    rw [hrun, ← (List.cons.inj hes).1]

/-- A leaf is empty only in a tree without entries. -/
theorem Tree.entries_nil_of_page (h : Tree geo 1 1 1 s G) (hx : (G x).lvl = 1) (hnil : (G x).page = []) :
    entries geo s = [] := by
  by_cases hroot : x = s.node
  · subst hroot
    have hh : s.height = 1 := by
      rw [← h.root_lvl (by have := h.lvl_le s.node; omega), hx]
    rw [entries, hh, entriesBelow, h.page_eq (by omega), hnil]
  · have hfill := h.fill x (by omega) hroot
    rw [hnil, List.length_nil] at hfill
    omega

/-! ## One round -/

/-- Nothing is left to move. -/
theorem Tree.cbtreeMergeLoop_empty {fuel : Nat} {res : Int × Head w × State w} (hN : 1 ≤ geo.noPairs)
    (h : Tree geo 1 1 1 (s.withHead victim) G) (hnil : entries geo (s.withHead victim) = [])
    (hrun : cbtreeMergeLoop geo (Reclaim.code geo) (fuel + 1) key dup victim s = .ok res) :
    res = (0, victim, s) := by
  obtain ⟨v, key', hlast, hcase⟩ := h.cbtreeLast_entry hN le_rfl le_rfl key
  rw [cbtreeMergeLoop, hlast, ok_bind] at hrun
  have hv : v = 0#w := by
    rcases hcase with ⟨hv, -⟩ | ⟨l, hes⟩
    · exact hv
    · rw [hnil] at hes
      cases hes
  rcases ite_eq_ok.mp hrun with ⟨-, hrun⟩ | ⟨hne, -⟩
  · exact (Except.ok.inj hrun).symm
  · exact absurd hv hne

theorem pathHit_mem : ∀ {d : Nat} {p : Ptr w}, pathHit geo key s d p ≠ 0#w →
    ∃ q, ∃ e ∈ s.cache geo q, e.node = pathHit geo key s d p
  | 0, _, hne | 1, _, hne => absurd rfl hne
  | d + 2, p, hne => by
    rw [pathHit] at hne ⊢
    by_cases hhit : cacheHit geo key s p = 0#w
    · simp only [hhit, ne_eq, not_true_eq_false, if_false] at hne ⊢
      by_cases hdown : stepDown geo key s p = 0#w
      · rw [if_pos hdown] at hne
        exact absurd rfl hne
      · rw [if_neg hdown] at hne ⊢
        exact pathHit_mem hne
    · rw [if_pos hhit]
      unfold cacheHit firstAnswer at hhit ⊢
      split at hhit
      next e he => exact ⟨p, e, List.mem_of_find?_eq_some he, rfl⟩
      next => exact absurd rfl hhit

/-- A search whose caches name one leaf at most, for a key of this leaf. -/
theorem Tree.answer_named {v : Ptr w} (h : Tree geo 1 1 1 s H) (hC : Caches geo s R)
    (hnamed : ∀ x, ∀ e ∈ R x, e.node ≠ 0#w → e.node = leaf) (hx : (H leaf).lvl = 1)
    (hmem : (keyNum geo key, v) ∈ (H leaf).page) : answer geo key s s.height s.node = leaf := by
  unfold answer
  split
  next hne =>
    obtain ⟨q, e, he, heq⟩ := pathHit_mem hne
    rw [hC.cache] at he
    rw [← heq] at hne ⊢
    exact hnamed q e he hne
  next => exact h.plainLeaf_stored hx hmem

/-- In the middle of a merge: `M` has been removed from the victim, and `N` inserted into the target.  The
target had the entries `T`, the victim `P` in its leaf with the greatest keys and `B` elsewhere. -/
structure Moving (geo : Geo) (T P B : Page w) (leaf : Ptr w) (M N : Page w) (victim : Head w) (s : State w)
    (G H : Labels w) (R : Rings w) : Prop where
  trees : TwoTrees geo victim s G H R
  aimed : Aimed H R
  named : ∀ x, ∀ e ∈ R x, e.node ≠ 0#w → e.node = leaf
  lvl : (H leaf).lvl = 1
  page : P = M ++ (H leaf).page
  stays : entries geo (s.withHead victim) = (H leaf).page ++ B
  gains : (entries geo s).Perm (T ++ N.map fun e => (e.1, leaf))

namespace Moving

variable {T P B M N : Page w} {e : Nat × Ptr w} {l : Page w} {ret : Ptr w}

/-- What is left in the victim begins with what is left in the leaf. -/
theorem first (h : Moving geo T P B leaf M N victim s G H R) (hes : entries geo (s.withHead victim) = e :: l) :
    ∃ l₁, (H leaf).page = e :: l₁ := by
  have hstays := h.stays
  rw [hes] at hstays
  cases hp : (H leaf).page with
  | nil =>
    rw [h.trees.other.entries_nil_of_page h.lvl hp] at hes
    cases hes
  | cons a l₁ =>
    rw [hp] at hstays
    exact ⟨l₁, by rw [(List.cons.inj hstays).1]⟩

/-- The lookup returns the leaf. -/
theorem lookup (h : Moving geo T P B leaf M N victim s G H R) (hpage : (H leaf).page = e :: l)
    (hkey : keyNum geo key = e.1) (hrun : cbtreeLookup geo key (s.withHead victim) = .ok (ret, s')) :
    ret = leaf ∧ SameUse s (s'.withHead s.toHead) ∧
      ∃ R', Moving geo T P B leaf M N victim (s'.withHead s.toHead) G H R' := by
  obtain ⟨hret, R', htwo, haimed, hlooked⟩ := h.trees.swap.lookup h.aimed hrun
  have hleaf : ret = leaf := by
    rw [hret]
    apply h.trees.other.answer_named (h.trees.caches.withHead victim) h.named h.lvl (v := e.2)
    rw [hpage, hkey]
    exact List.mem_cons_self
  subst hleaf
  have hhead : s'.toHead = victim := hlooked.write.head
  have htwo' : TwoTrees geo victim (s'.withHead s.toHead) G H R' := hhead ▸ htwo.swap
  refine ⟨rfl, (hlooked.write.withHead s.toHead).sameUse, R', htwo', haimed, fun x a ha hne => ?_, h.lvl, h.page,
    ?_, ?_⟩
  · rcases hlooked.entries x a ha hne with ⟨b, hb, heq, -⟩ | ⟨-, heq, -⟩
    · rw [← heq] at hne ⊢
      exact h.named x b hb hne
    · exact heq
  · rw [h.trees.other.entries_congr htwo'.other, h.stays]
  · rw [h.trees.tree.entries_congr htwo'.tree]
    exact h.gains

theorem insert (hN : 4 ≤ geo.noPairs) (h : Moving geo T P B leaf M N victim s G H R) (hkey : keyNum geo key = e.1)
    (hrun : cbtreeInsert geo key leaf s = .ok (err, s')) :
    (err = -ENOMEM ∧ OutOfMemory geo key s ∧ ∃ G' R', Moving geo T P B leaf M N victim s' G' H R') ∨
    err = 0 ∧ ¬OutOfMemory geo key s ∧ ∃ G' R', Moving geo T P B leaf M (N ++ [e]) victim s' G' H R' := by
  obtain ⟨G', R', htwo, hgrew, hcase⟩ := h.trees.insert hN hrun
  have haimed : Aimed H R' := fun x a ha hne => h.aimed x a (hgrew.entry_old ha hne).1 hne
  have hnamed : ∀ x, ∀ a ∈ R' x, a.node ≠ 0#w → a.node = leaf := fun x a ha hne =>
    h.named x a (hgrew.entry_old ha hne).1 hne
  have hstays : entries geo (s'.withHead victim) = (H leaf).page ++ B := by
    rw [h.trees.other.entries_congr htwo.other, h.stays]
  rcases hcase with ⟨herr, hmem, hentries⟩ | ⟨herr, hmem, hentries⟩
  · exact .inl ⟨herr, hmem, G', R', htwo, haimed, hnamed, h.lvl, h.page, hstays, hentries ▸ h.gains⟩
  · refine .inr ⟨herr, hmem, G', R', htwo, haimed, hnamed, h.lvl, h.page, hstays, ?_⟩
    rw [hkey] at hentries
    rw [List.map_append, ← List.append_assoc]
    exact (hentries.trans (h.gains.cons _)).trans (List.perm_append_singleton _ _).symm

theorem remove (hN : 4 ≤ geo.noPairs) (h : Moving geo T P B leaf M N victim s G H R) (hpage : (H leaf).page = e :: l)
    (hkey : keyNum geo key = e.1)
    (hrun : cbtreeRemove geo (Reclaim.code geo) key (s.withHead victim) = .ok (ret, s')) :
    ∃ H', Moving geo T P B leaf (M ++ [e]) N s'.toHead (s'.withHead s.toHead) G H' R := by
  have hes := h.stays
  rw [hpage, List.cons_append] at hes
  have hstored : ¬Absent geo (s.withHead victim) key := fun habsent =>
    habsent e (by rw [hes]; exact List.mem_cons_self) hkey.symm
  obtain ⟨H', htwo, haimed, hlvl, hpages, hentries⟩ := h.trees.swap.remove hN h.aimed hstored hrun
  have hdesc := h.trees.other.entries_descending
  rw [hes] at hdesc
  -- the others have smaller keys
  have hothers : ∀ a ∈ l ++ B, decide (a.1 ≠ keyNum geo key) = true := fun a ha => by
    have hlt := (List.pairwise_cons.mp hdesc).1 a ha
    rw [hkey, decide_eq_true_eq]
    omega
  have hself : decide (e.1 ≠ keyNum geo key) = false := by simp [hkey]
  have hpage' : (H' leaf).page = l := by
    rw [hpages leaf h.lvl, hpage, List.filter_cons, hself]
    exact List.filter_eq_self.mpr fun a ha => hothers a (List.mem_append_left B ha)
  refine ⟨H', htwo.swap, haimed, h.named, (hlvl leaf).trans h.lvl, ?_, ?_, ?_⟩
  · rw [hpage', h.page, hpage, List.append_assoc, List.singleton_append]
  · rw [hpage']
    apply hentries.trans
    rw [hes, List.filter_cons, hself]
    exact List.filter_eq_self.mpr hothers
  · rw [h.trees.tree.entries_congr htwo.other]
    exact h.gains

variable {fuel : Nat} {res : Int × Head w × State w}

/-- A round that is not the last one before the call returns moves the first of the entries that are left. -/
theorem round (hN : 4 ≤ geo.noPairs) (h : Moving geo T P B leaf M M victim s G H R)
    (hrun : cbtreeMergeLoop geo (Reclaim.code geo) (fuel + 1) key dup victim s = .ok res) :
    (entries geo (s.withHead victim) = [] ∧ res = (0, victim, s)) ∨
    (OutOfMemory geo (lastKey geo (s.withHead victim)) s ∧
      ∃ s' G' R', res = (-ENOMEM, victim, s') ∧ Moving geo T P B leaf M M victim s' G' H R') ∨
    ¬OutOfMemory geo (lastKey geo (s.withHead victim)) s ∧ ∃ e l, (H leaf).page = e :: l ∧
      ∃ key' dup' victim' s' G' H' R', Moving geo T P B leaf (M ++ [e]) (M ++ [e]) victim' s' G' H' R' ∧
        cbtreeMergeLoop geo (Reclaim.code geo) fuel key' dup' victim' s' = .ok res := by
  have hvictim := h.trees.other
  by_cases hnil : entries geo (s.withHead victim) = []
  · exact .inl ⟨hnil, hvictim.cbtreeMergeLoop_empty (by omega) hnil hrun⟩
  right
  obtain ⟨v, key', hlast, hcase⟩ := hvictim.cbtreeLast_entry (by omega) le_rfl le_rfl key
  obtain ⟨l, hes⟩ := hcase.resolve_left fun hnull => hnil hnull.2.1
  have hv : v ≠ 0#w := hvictim.entry_ne_null (e := (keyNum geo key', v)) (by rw [hes]; exact List.mem_cons_self)
  rw [cbtreeMergeLoop, hlast, ok_bind] at hrun
  replace hrun := ((ite_eq_ok.mp hrun).resolve_left fun hnull => hv hnull.1).2
  have hlastKey := hvictim.keyNum_lastKey (by omega) hes
  obtain ⟨l₁, hpage⟩ := h.first hes
  obtain ⟨⟨val, s₁⟩, hlookup, hrun⟩ := bind_eq_ok.mp hrun
  obtain ⟨rfl, huse, R₁, h₁⟩ := h.lookup hpage rfl hlookup
  -- the lookup has no part in whether there is memory
  have hmem : OutOfMemory geo key' (s₁.withHead s.toHead) ↔ OutOfMemory geo (lastKey geo (s.withHead victim)) s :=
    ⟨h₁.trees.tree.outOfMemory_congr h.trees.tree le_rfl le_rfl hlastKey rfl huse.symm,
      h.trees.tree.outOfMemory_congr h₁.trees.tree le_rfl le_rfl hlastKey.symm rfl huse⟩
  obtain ⟨⟨err, s₂⟩, hins, hrun⟩ := bind_eq_ok.mp hrun
  rcases h₁.insert hN (e := (keyNum geo key', v)) rfl hins with ⟨herr, hout, G₂, R₂, h₂⟩ | ⟨herr, hout, G₂, R₂, h₂⟩
  · subst herr
    left
    rcases ite_eq_ok.mp hrun with ⟨-, hrun⟩ | ⟨hne, -⟩
    · exact ⟨hmem.mp hout, s₂, G₂, R₂, (Except.ok.inj hrun).symm, h₂⟩
    · exact absurd (by decide) hne
  · subst herr
    right
    rcases ite_eq_ok.mp hrun with ⟨hne, -⟩ | ⟨-, hrun⟩
    · exact absurd rfl hne
    obtain ⟨⟨ret, s₃⟩, hrem, hrun⟩ := bind_eq_ok.mp hrun
    obtain ⟨H₃, h₃⟩ := h₂.remove hN hpage (keyNum_longcpy dup key') hrem
    exact ⟨fun hout' => hout (hmem.mpr hout'), _, l₁, hpage, _, _, _, _, G₂, H₃, R₂, h₃, hrun⟩

/-- The rounds up to the one in which the call returns move `M'`. -/
theorem loop (hN : 4 ≤ geo.noPairs) : ∀ {fuel : Nat} {key dup : Words w} {victim victim' : Head w} {s s' : State w}
    {M : Page w} {G H : Labels w} {R : Rings w}, Moving geo T P B leaf M M victim s G H R →
    cbtreeMergeLoop geo (Reclaim.code geo) fuel key dup victim s = .ok (err, victim', s') →
    ∃ M' G' H' R', Moving geo T P B leaf (M ++ M') (M ++ M') victim' s' G' H' R' ∧
      (err = 0 ∧ entries geo (s'.withHead victim') = [] ∨ err = -ENOMEM) ∧
      (M' = [] ↔ entries geo (s.withHead victim) = [] ∨ OutOfMemory geo (lastKey geo (s.withHead victim)) s) := by
  intro fuel
  induction fuel with
  | zero =>
    intro _ _ _ _ _ _ _ _ _ _ _ hrun
    cases hrun
  | succ fuel ih =>
    intro key dup victim victim' s s' M G H R h hrun
    rcases h.round hN hrun with
      ⟨hnil, hres⟩ | ⟨hmem, s₁, G', R', hres, h₁⟩ |
      ⟨hmem, e, l, hpage, key₁, dup₁, victim₁, s₁, G₁, H₁, R₁, h₁, hrun₁⟩
    · cases hres
      exact ⟨[], G, H, R, by rwa [List.append_nil], .inl ⟨rfl, hnil⟩, iff_of_true rfl (.inl hnil)⟩
    · cases hres
      exact ⟨[], G', H, R', by rwa [List.append_nil], .inr rfl, iff_of_true rfl (.inr hmem)⟩
    · obtain ⟨M', G', H', R', h', hcase, -⟩ := ih h₁ hrun₁
      rw [List.append_assoc, List.singleton_append] at h'
      refine ⟨e :: M', G', H', R', h', hcase, iff_of_false (List.cons_ne_nil e M') ?_⟩
      rw [h.stays, hpage]
      exact fun hor => hor.elim (List.cons_ne_nil e (l ++ B)) hmem

end Moving

/-! ## What a merge leaves -/

/-- What a merge that has returned `err` should leave: in the target all entries of both trees, or, when memory
ran out, in the two together. -/
def Merges (geo : Geo) (victim : Head w) (s : State w) (err : Int) (victim' : Head w) (s' : State w) : Prop :=
  (err = 0 ∧ (entries geo s').Perm (entries geo s ++ entries geo (s.withHead victim)) ∧
    entries geo (s'.withHead victim') = []) ∨
  err = -ENOMEM ∧ (entries geo s' ++ entries geo (s'.withHead victim')).Perm
    (entries geo s ++ entries geo (s.withHead victim))

/-- Nothing goes through a lookup: the target is empty and takes over the victim's root, the victim is empty, or
there is no memory for the first insertion. -/
def MovesNothing (geo : Geo) (victim : Head w) (s : State w) : Prop :=
  s.node = 0#w ∨ entries geo (s.withHead victim) = [] ∨ OutOfMemory geo (lastKey geo (s.withHead victim)) s

instance decidableMerges (geo : Geo) (victim : Head w) (s : State w) (err : Int) (victim' : Head w) (s' : State w) :
    Decidable (Merges geo victim s err victim' s') := inferInstanceAs (Decidable (_ ∨ _))

instance decidableMovesNothing (geo : Geo) (victim : Head w) (s : State w) :
    Decidable (MovesNothing geo victim s) := inferInstanceAs (Decidable (_ ∨ _))

/-- The entries that a merge moves have the leaf as their value afterwards. -/
theorem Moving.merges_iff {P B M : Page w} (h : Moving geo (entries geo s) P B leaf M M victim' s' G H R)
    (hentries : entries geo (s.withHead victim) = P ++ B)
    (hcase : err = 0 ∧ entries geo (s'.withHead victim') = [] ∨ err = -ENOMEM) :
    Merges geo victim s err victim' s' ↔ ∀ e ∈ M, e.2 = leaf := by
  have hall : entries geo (s.withHead victim) = M ++ entries geo (s'.withHead victim') := by
    rw [hentries, h.page, h.stays, List.append_assoc]
  -- whatever is returned, the two trees hold `M` with other values
  have hperm : (entries geo s' ++ entries geo (s'.withHead victim')).Perm
      (entries geo s ++ entries geo (s.withHead victim)) ↔ (M.map fun e => (e.1, leaf)).Perm M := by
    rw [hall, ← List.append_assoc, List.perm_append_right_iff]
    constructor
    · intro hperm
      exact (List.perm_append_left_iff _).mp (h.gains.symm.trans hperm)
    · intro hperm
      exact h.gains.trans (hperm.append_left _)
  have hmap : (M.map fun e => (e.1, leaf)).Perm M ↔ ∀ e ∈ M, e.2 = leaf := by
    constructor
    · intro hperm e he
      obtain ⟨a, -, rfl⟩ := List.mem_map.mp (hperm.mem_iff.mpr he)
      rfl
    · intro hleaf
      rw [List.map_congr_left (g := id) fun e he => by rw [id, ← hleaf e he], List.map_id]
  rw [← hmap, ← hperm]
  unfold Merges
  rcases hcase with ⟨rfl, hnil⟩ | rfl
  · rw [hnil, List.append_nil]
    simp [ENOMEM]
  · simp [ENOMEM]

theorem Tree.height_of_null (h : Tree geo 1 1 1 s G) (hnode : s.node = 0#w) : s.height = 0 := by
  by_contra hne
  have hlvl := h.root_lvl (by omega)
  rw [hnode, h.null] at hlvl
  exact hne hlvl.symm

theorem TwoTrees.moving (h : TwoTrees geo victim s G H R) (hcold : Cold R)
    (hne : entries geo (s.withHead victim) ≠ []) :
    ∃ B, Moving geo (entries geo s) (H (lastLeaf geo (s.withHead victim))).page B (lastLeaf geo (s.withHead victim))
      [] [] victim s G H R := by
  have hheight : 1 ≤ (s.withHead victim).height := by
    by_contra hlt
    exact hne (by rw [entries, Nat.lt_one_iff.mp (not_le.mp hlt), entriesBelow])
  obtain ⟨hlvl, B, hentries⟩ := h.other.lastLeaf_page hheight
  exact ⟨B, h, fun x e he hname => absurd (hcold x e he) hname, fun x e he hname => absurd (hcold x e he) hname, hlvl,
    rfl, hentries, by rw [List.map_nil, List.append_nil]⟩

/-- How many entries go through a lookup, and what comes of them. -/
theorem TwoTrees.merge (hN : 4 ≤ geo.noPairs) (h : TwoTrees geo victim s G H R) (hcold : Cold R)
    (hrun : cbtreeMerge geo (Reclaim.code geo) key dup victim s = .ok (err, victim', s')) :
    ∃ k, (k = 0 ↔ MovesNothing geo victim s) ∧ (Merges geo victim s err victim' s' ↔
      ∀ e ∈ (entries geo (s.withHead victim)).take k, e.2 = lastLeaf geo (s.withHead victim)) := by
  unfold cbtreeMerge at hrun
  rcases ite_eq_ok.mp hrun with ⟨hnode, hrun⟩ | ⟨hnode, hrun⟩
  · -- the victim's root becomes the target's
    cases hrun
    have hnil : entries geo s = [] := by
      rw [entries, h.tree.height_of_null hnode, entriesBelow]
    have hmerges : Merges geo victim s 0 ⟨0#w, 0⟩ (s.withHead victim) := .inl ⟨rfl, by rw [hnil, List.nil_append], rfl⟩
    exact ⟨0, iff_of_true rfl (.inl hnode), iff_of_true hmerges (by simp)⟩
  · by_cases hes : entries geo (s.withHead victim) = []
    · cases h.other.cbtreeMergeLoop_empty (by omega) hes hrun
      have hmerges : Merges geo victim s 0 victim s := .inl ⟨rfl, by rw [hes, List.append_nil], hes⟩
      exact ⟨0, iff_of_true rfl (.inr (.inl hes)), iff_of_true hmerges (by simp)⟩
    · obtain ⟨B, hmoving⟩ := h.moving hcold hes
      obtain ⟨M, G', H', R', hmoving', hcase, hM⟩ := hmoving.loop hN hrun
      rw [List.nil_append] at hmoving'
      refine ⟨M.length, ?_, ?_⟩
      · rw [List.length_eq_zero_iff, hM, MovesNothing, or_iff_right hnode]
      · have htake : (entries geo (s.withHead victim)).take M.length = M := by
          rw [hmoving.stays, hmoving'.page, List.append_assoc, List.take_left]
        rw [htake]
        exact hmoving'.merges_iff hmoving.stays hcase

theorem merge_of_inserts (hN : 4 ≤ geo.noPairs) (h₀ : Blank s₀) (h : Built geo (⟨0#w, 0⟩, s₀) (victim, s))
    (hrun : cbtreeMerge geo (Reclaim.code geo) key dup victim s = .ok (err, victim', s')) :
    ((MovesNothing geo victim s ∨
        ∀ e ∈ entries geo (s.withHead victim), e.2 = lastLeaf geo (s.withHead victim)) →
      Merges geo victim s err victim' s') ∧
    (Merges geo victim s err victim' s' → MovesNothing geo victim s ∨
      ∀ e ∈ (entries geo (s.withHead victim)).head?, e.2 = lastLeaf geo (s.withHead victim)) := by
  obtain ⟨G, H, R, htwo, hcold⟩ := twoTrees_of_built hN h₀ h
  obtain ⟨k, hk, hiff⟩ := htwo.merge hN hcold hrun
  rw [← hk, hiff]
  constructor
  · rintro (rfl | hall) e he
    · rw [List.take_zero] at he
      cases he
    · exact hall e (List.mem_of_mem_take he)
  · intro hall
    cases k.eq_zero_or_pos with
    | inl hzero =>
      exact .inl hzero
    | inr hpos =>
      refine .inr fun e he => hall e ?_
      obtain ⟨l, hes⟩ := List.head?_eq_some_iff.mp he
      obtain ⟨n, rfl⟩ := Nat.exists_eq_succ_of_ne_zero hpos.ne'
      rw [hes, List.take_succ_cons]
      exact List.mem_cons_self

/-- What a merge returns, or the trees as they are if it does not. -/
def mergeResult (geo : Geo) (victim : Head w) (s : State w) : Int × Head w × State w :=
  match cbtreeMerge geo (Reclaim.code geo) (fun _ => 0#w) (fun _ => 0#w) victim s with
  | .ok res => res
  | .error _ => (0, victim, s)

theorem cbtreeMerge_eq_mergeResult
    (h : faulted (cbtreeMerge geo (Reclaim.code geo) (fun _ => 0#w) (fun _ => 0#w) victim s) = none) :
    cbtreeMerge geo (Reclaim.code geo) (fun _ => 0#w) (fun _ => 0#w) victim s = .ok (mergeResult geo victim s) := by
  unfold mergeResult
  split
  next hok => exact hok
  next hfault =>
    rw [hfault] at h
    cases h

/-- A full leaf, another tree with one key, and no memory for another node. -/
def fullTarget : Head 64 × State 64 :=
  insertAll Machine.x86_64.cbtree_geo64
    ((.victim, wordKey 9, 0x99#64) :: [1, 2, 3, 4, 5, 6, 7].map fun k => (.target, wordKey k, 0x77#64))
    (⟨0#64, 0⟩, arena 2)

theorem fullTarget_built : Built Machine.x86_64.cbtree_geo64 (⟨0#64, 0⟩, arena 2) (fullTarget.1, fullTarget.2) := by
  rw [Prod.mk.eta]
  exact built_insertAll _ _ _

def fullMerge : Int × Head 64 × State 64 := mergeResult Machine.x86_64.cbtree_geo64 fullTarget.1 fullTarget.2

theorem merge_of_inserts_full :
    fullMerge.1 = -ENOMEM ∧
    Merges Machine.x86_64.cbtree_geo64 fullTarget.1 fullTarget.2 fullMerge.1 fullMerge.2.1 fullMerge.2.2 := by
  have hnothing : MovesNothing Machine.x86_64.cbtree_geo64 fullTarget.1 fullTarget.2 := by decide +kernel
  have hrun : cbtreeMerge Machine.x86_64.cbtree_geo64 (Reclaim.code Machine.x86_64.cbtree_geo64) (fun _ => 0#64)
      (fun _ => 0#64) fullTarget.1 fullTarget.2 = .ok (fullMerge.1, fullMerge.2.1, fullMerge.2.2) := by
    rw [Prod.mk.eta]
    exact cbtreeMerge_eq_mergeResult (by decide +kernel)
  exact ⟨by decide +kernel, (merge_of_inserts (by decide) (arena_blank 2) fullTarget_built hrun).1 (.inl hnothing)⟩

/-- Two trees with one key each. -/
def twoKeys : Head 64 × State 64 :=
  insertAll Machine.x86_64.cbtree_geo64
    [(.target, wordKey 1, 0x77#64), (.victim, wordKey 2, 0x99#64)] (⟨0#64, 0⟩, arena 2)

/-- Key 2 comes to the target with the address of the victim's leaf. -/
theorem cbtreeMerge_moves_leaf :
    ¬∀ trees, Built Machine.x86_64.cbtree_geo64 (⟨0#64, 0⟩, arena 2) trees →
      ∀ key dup err victim' s', cbtreeMerge Machine.x86_64.cbtree_geo64 (Reclaim.code Machine.x86_64.cbtree_geo64)
        key dup trees.1 trees.2 = .ok (err, victim', s') →
          Merges Machine.x86_64.cbtree_geo64 trees.1 trees.2 err victim' s' := by
  intro hevery
  have hmerges := hevery twoKeys (built_insertAll _ _ _) _ _ _ _ _ (cbtreeMerge_eq_mergeResult (by decide +kernel))
  have hwrong : ¬Merges Machine.x86_64.cbtree_geo64 twoKeys.1 twoKeys.2
      (mergeResult Machine.x86_64.cbtree_geo64 twoKeys.1 twoKeys.2).1
      (mergeResult Machine.x86_64.cbtree_geo64 twoKeys.1 twoKeys.2).2.1
      (mergeResult Machine.x86_64.cbtree_geo64 twoKeys.1 twoKeys.2).2.2 := by
    decide +kernel
  exact hwrong hmerges

end CachedBTree
