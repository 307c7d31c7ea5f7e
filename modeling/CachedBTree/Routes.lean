import CachedBTree.Descent

/-! # The path of a search

Which nodes `find_level` meets with a key of the caller, and what it does to them, read off
the memory before the call.  The search goes on from the first slot whose key is at most the
key, or else from the last slot in use, whose key it lowers. -/

namespace CachedBTree

open CachedBTree.Support

variable {w : Nat} {geo : Geo} {m r : Nat} {s s₁ s' : State w} {G : Labels w} {p q x : Ptr w}
  {key : Words w}

/-- No slot in use has a key that is at most `key`. -/
def Misses (geo : Geo) (key n : Words w) : Prop :=
  getpos geo n key = geo.noPairs ∨ bval geo n (getpos geo n key) = 0#w

instance decidableMisses (geo : Geo) (key n : Words w) : Decidable (Misses geo key n) :=
  inferInstanceAs (Decidable (_ ∨ _))

/-- A page is cut in front of the slot that `getpos` has found, or all its keys are larger. -/
theorem Holds.misses_or {n : Words w} {l : Page w} (h : Holds geo n l) (hdesc : Descending l)
    (key : Words w) :
    (Misses geo key n ∧ CachedBTree.getpos geo n key = l.length ∧ ∀ e ∈ l, keyNum geo key < e.1) ∨
    ∃ l₁ k v l₂, l = l₁ ++ (k, v) :: l₂ ∧ (∀ e ∈ l₁, keyNum geo key < e.1) ∧ k ≤ keyNum geo key ∧
      ¬Misses geo key n ∧ CachedBTree.getpos geo n key = l₁.length ∧ bval geo n l₁.length = v ∧
      keyNum geo (bkey geo n l₁.length) = k := by
  obtain ⟨l₁, l₂, rfl, h₁, h₂⟩ := hdesc.cut (keyNum geo key)
  have hlen := h.length_le
  have hpos := h.getpos h₁ h₂
  cases l₂ with
  | nil =>
    rw [List.append_nil] at h hlen ⊢
    refine .inl ⟨?_, hpos, h₁⟩
    by_cases hfull : l₁.length = geo.noPairs
    · exact .inl (hpos.trans hfull)
    · refine .inr ?_
      rw [hpos]
      exact congrArg Prod.snd (h.slot_end le_rfl (by omega))
  | cons e l₂ =>
    obtain ⟨k, v⟩ := e
    have hval : bval geo n l₁.length = v := h.bval_append
    refine .inr ⟨l₁, k, v, l₂, rfl, h₁, h₂ (k, v) (by simp), ?_, hpos, hval, h.keyNum_append⟩
    rintro (hfull | hnull)
    · simp only [List.length_append, List.length_cons] at hlen
      omega
    · rw [hpos, hval] at hnull
      exact h.used (k, v) (by simp) hnull

/-- The slot that the search goes on from. -/
def routeSlot (geo : Geo) (key n : Words w) : Nat :=
  if Misses geo key n then getpos geo n key - 1 else getpos geo n key

/-- A node after the search has passed. -/
def routeWords (geo : Geo) (key n : Words w) : Words w :=
  if Misses geo key n then setkey geo n (getpos geo n key - 1) key else n

def State.routeChild (geo : Geo) (key : Words w) (s : State w) (p : Ptr w) : Ptr w :=
  match s.heap p with
  | some (.node n) => bval geo n (routeSlot geo key n)
  | _ => 0#w

/-- The `d` nodes that the search passes, from `p` down. -/
def innerPath (geo : Geo) (key : Words w) (s : State w) : Nat → Ptr w → List (Ptr w)
  | 0, _ => []
  | d + 1, p => p :: innerPath geo key s d (s.routeChild geo key p)

/-- The node that the search ends at, `d` levels below `p`. -/
def pathEnd (geo : Geo) (key : Words w) (s : State w) : Nat → Ptr w → Ptr w
  | 0, p => p
  | d + 1, p => pathEnd geo key s d (s.routeChild geo key p)

/-- The leaf that `key` leads to. -/
def leafOf (geo : Geo) (key : Words w) (s : State w) : Ptr w :=
  pathEnd geo key s (s.height - 1) s.node

/-- The separators on the way that are too large go down to `key`. -/
def Obj.route (geo : Geo) (key : Words w) : Obj w → Obj w
  | .node n => .node (routeWords geo key n)
  | o => o

theorem State.routeChild_node {n : Words w} (hp : s.heap p = some (.node n)) :
    s.routeChild geo key p = bval geo n (routeSlot geo key n) := by
  simp [routeChild, hp]

/-! ## The search follows the path -/

section

variable (lvl : Ptr w → Nat) {level : Nat}

theorem mem_innerPath_lvl (hdown : ∀ x, level < lvl x → lvl (s.routeChild geo key x) + 1 = lvl x) :
    ∀ {d : Nat} {p : Ptr w}, lvl p = level + d → x ∈ innerPath geo key s d p →
      level < lvl x ∧ lvl x ≤ lvl p := by
  intro d
  induction d with
  | zero =>
    intro _ _ hx
    simp [innerPath] at hx
  | succ d ih =>
    intro p hp hx
    have hchild := hdown p (by omega)
    cases List.mem_cons.mp hx with
    | inl heq =>
      subst heq
      omega
    | inr htail =>
      have := ih (by omega) htail
      omega

theorem pathEnd_lvl (hdown : ∀ x, level < lvl x → lvl (s.routeChild geo key x) + 1 = lvl x) :
    ∀ {d : Nat} {p : Ptr w}, lvl p = level + d → lvl (pathEnd geo key s d p) = level
  | 0, _, hp => hp
  | d + 1, p, hp => pathEnd_lvl hdown (d := d) (by have := hdown p (by omega); omega)

/-- One step of the search. -/
theorem findLevelLoop_step {d : Nat} {n : Words w} (hload : s.load p = .ok n)
    (hrun : findLevelLoop geo (.buf key) (d + 1) p s = .ok (q, s')) :
    ∃ s₂, findLevelLoop geo (.buf key) d (bval geo n (routeSlot geo key n)) s₂ = .ok (q, s') ∧
      ∀ x, s₂.heap x = if x = p then some (.node (routeWords geo key n)) else s.heap x := by
  have hn := (State.load_eq_ok.mp hload).2
  rw [findLevelLoop, hload, ok_bind] at hrun
  simp only [KeyPtr.read, ok_bind] at hrun
  rcases ite_eq_ok.mp hrun with ⟨hmiss, hrun⟩ | ⟨hfound, hrun⟩
  · have hmiss : Misses geo key n := hmiss
    rcases ite_eq_ok.mp hrun with ⟨-, herr⟩ | ⟨hpos, hrest⟩
    · cases herr
    have hlt : getpos geo n key - 1 < geo.noPairs := by
      have hle : getpos geo n key ≤ geo.noPairs := by
        have := scan_le (fun i => decide (keycmp geo n i key ≤ 0)) 0 geo.noPairs
        unfold getpos
        omega
      omega
    rw [bval_setkey hlt] at hrest
    refine ⟨_, by rw [routeSlot, if_pos hmiss]; exact hrest, fun x => ?_⟩
    rw [routeWords, if_pos hmiss, State.setNode_heap]
  · have hfound : ¬Misses geo key n := hfound
    refine ⟨s, by rw [routeSlot, if_neg hfound]; exact hrun, fun x => ?_⟩
    rw [routeWords, if_neg hfound]
    split
    next heq => rw [heq, hn]
    next => rfl

theorem findLevelLoop_path (hdown : ∀ x, level < lvl x → lvl (s.routeChild geo key x) + 1 = lvl x) :
    ∀ {d : Nat} {p : Ptr w} {s₁ : State w}, lvl p = level + d →
    (∀ x, lvl x ≤ lvl p → s₁.heap x = s.heap x) → findLevelLoop geo (.buf key) d p s₁ = .ok (q, s') →
    q = pathEnd geo key s d p ∧ ∀ x, s'.heap x =
      if x ∈ innerPath geo key s d p then (s.heap x).map (Obj.route geo key) else s₁.heap x := by
  intro d
  induction d with
  | zero =>
    intro p s₁ _ _ hrun
    cases hrun
    exact ⟨rfl, fun x => by simp [innerPath]⟩
  | succ d ih =>
    intro p s₁ hp hsame hrun
    obtain ⟨n, hload⟩ : ∃ n, s₁.load p = .ok n := by
      rw [findLevelLoop] at hrun
      obtain ⟨n, hload, -⟩ := bind_eq_ok.mp hrun
      exact ⟨n, hload⟩
    have hn : s.heap p = some (.node n) := by
      rw [← hsame p le_rfl]
      exact (State.load_eq_ok.mp hload).2
    obtain ⟨s₂, hrun₂, hheap₂⟩ := findLevelLoop_step hload hrun
    rw [← State.routeChild_node hn] at hrun₂
    have hchild := hdown p (by omega)
    have hbelow : ∀ x, lvl x ≤ lvl (s.routeChild geo key p) → s₂.heap x = s.heap x := by
      intro x hx
      rw [hheap₂, if_neg (by rintro rfl; omega)]
      exact hsame x (by omega)
    obtain ⟨hq, hheap⟩ := ih (by omega) hbelow hrun₂
    refine ⟨hq, fun x => ?_⟩
    rw [hheap, innerPath]
    by_cases hx : x = p
    · -- the path does not come back to `p`
      have hout : p ∉ innerPath geo key s d (s.routeChild geo key p) := fun hmem => by
        have := mem_innerPath_lvl lvl hdown (d := d) (by omega) hmem
        omega
      subst hx
      rw [if_neg hout, if_pos (by simp), hheap₂, if_pos rfl, hn]
      rfl
    · simp only [List.mem_cons, hx, false_or, hheap₂, if_false]

end

namespace Tree

/-- Above the leaves no page is empty. -/
theorem inner_page_ne_nil {L : Nat} (h : Tree geo m r L s G) (hm : 1 ≤ m) (hr : 1 ≤ r)
    (hL : L ≤ (G p).lvl) (hp : 2 ≤ (G p).lvl) : (G p).page ≠ [] := by
  intro hnil
  by_cases hroot : p = s.node
  · have hfill := h.root_fill (by have := h.lvl_le p; omega)
    rw [← hroot, hnil, List.length_nil] at hfill
    omega
  · have hfill := h.fill p hL hroot
    rw [hnil, List.length_nil] at hfill
    omega

/-- How the search passes an inner node. -/
theorem route_cases (key : Words w) (h : Tree geo m r 1 s G) (hm : 1 ≤ m) (hr : 1 ≤ r)
    (hp : 2 ≤ (G p).lvl) :
    ∃ n l₁ k c l₂, s.heap p = some (.node n) ∧ Holds geo n (G p).page ∧ (G p).page = l₁ ++ (k, c) :: l₂ ∧
      s.routeChild geo key p = c ∧
      ((k ≤ keyNum geo key ∧ (∀ e ∈ l₁, keyNum geo key < e.1) ∧ routeWords geo key n = n) ∨
        l₂ = [] ∧ keyNum geo key < k ∧ (∀ e ∈ l₁, keyNum geo key < e.1) ∧
          routeWords geo key n = setkey geo n l₁.length key) := by
  obtain ⟨n, hn, -, hholds⟩ := h.load (p := p) (by omega)
  rcases hholds.misses_or (h.chain p (by omega)).descending key with
    ⟨hmiss, hpos, hall⟩ | ⟨l₁, k, c, l₂, hpage, h₁, hk, hfound, hpos, hval, -⟩
  · -- the last separator is lowered
    obtain ⟨l, ⟨k, c⟩, hpage⟩ : ∃ l e, (G p).page = l ++ [e] :=
      ⟨_, _, (List.dropLast_append_getLast (h.inner_page_ne_nil hm hr (by omega) hp)).symm⟩
    rw [hpage] at hall
    have hlast : getpos geo n key - 1 = l.length := by rw [hpos, hpage]; simp
    refine ⟨n, l, k, c, [], hn, hholds, hpage, ?_, .inr ⟨rfl, hall (k, c) (by simp),
      fun e he => hall e (by simp [he]), ?_⟩⟩
    · rw [State.routeChild_node hn, routeSlot, if_pos hmiss, hlast]
      exact (hpage ▸ hholds : Holds geo n (l ++ (k, c) :: [])).bval_append
    · rw [routeWords, if_pos hmiss, hlast]
  · refine ⟨n, l₁, k, c, l₂, hn, hholds, hpage, ?_, .inl ⟨hk, h₁, ?_⟩⟩
    · rw [State.routeChild_node hn, routeSlot, if_neg hfound, hpos, hval]
    · rw [routeWords, if_neg hfound]

theorem routeChild_lvl (key : Words w) (h : Tree geo m r 1 s G) (hm : 1 ≤ m) (hr : 1 ≤ r)
    (hp : 2 ≤ (G p).lvl) : (G (s.routeChild geo key p)).lvl + 1 = (G p).lvl := by
  obtain ⟨n, l₁, k, c, l₂, -, -, hpage, hchild, -⟩ := h.route_cases key hm hr hp
  rw [hchild]
  exact (h.child (by omega) hp hpage).1

/-- `find_level` for any key of a caller: it ends at the node of the level on the path, and the nodes
passed are all it may change. -/
theorem findLevel_path {level : Nat} (h : Tree geo m r 1 s G) (hm : 1 ≤ m) (hr : 1 ≤ r)
    (hlevel : 1 ≤ level) (hle : level ≤ s.height)
    (hrun : findLevel geo (.buf key) level s = .ok (q, s')) :
    q = pathEnd geo key s (s.height - level) s.node ∧ ∀ x, s'.heap x =
      if x ∈ innerPath geo key s (s.height - level) s.node then (s.heap x).map (Obj.route geo key)
      else s.heap x := by
  unfold findLevel at hrun
  obtain ⟨⟨q', s₁⟩, hloop, hrest⟩ := bind_eq_ok.mp hrun
  rcases ite_eq_ok.mp hrest with ⟨-, herr⟩ | ⟨-, hok⟩
  · cases herr
  cases hok
  have hroot := h.root_lvl (by omega)
  have hdown : ∀ x, level < (G x).lvl → (G (s.routeChild geo key x)).lvl + 1 = (G x).lvl := fun x hx =>
    h.routeChild_lvl key hm hr (by omega)
  exact findLevelLoop_path (fun x => (G x).lvl) hdown (by omega) (fun _ _ => rfl) hloop

theorem leafOf_lvl (key : Words w) (h : Tree geo m r 1 s G) (hm : 1 ≤ m) (hr : 1 ≤ r)
    (hh : 1 ≤ s.height) : (G (leafOf geo key s)).lvl = 1 :=
  pathEnd_lvl (fun x => (G x).lvl) (fun _ hx => h.routeChild_lvl key hm hr hx)
    (by have := h.root_lvl hh; omega)

end Tree

end CachedBTree
