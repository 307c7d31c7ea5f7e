import CachedBTree.Pages
import CachedBTree.Model.Insert

/-! # A new node and its queue

What `initQueue` and `cbtree_node_alloc` leave in memory.  Everything that was live
before stays as it is; a new node is empty and owns a queue whose four entries form a
ring and hold nothing yet, unless a `kmalloc` has failed.  When there is no memory for
an entry the node stays without a queue, an entry whose key buffer cannot be allocated
has `NULL` instead, and when the queue itself cannot be allocated the code writes
through `NULL`. -/

namespace CachedBTree

variable {w : Nat} {geo : Geo}

/-- What was live is as it was, and the head too. -/
structure Kept (s s' : State w) : Prop where
  head : s'.toHead = s.toHead
  heap : ∀ x o, s.heap x = some o → s'.heap x = some o
  kfail : s.kfail = true → s'.kfail = true

namespace Kept

variable {s₀ s s' : State w} {p : Ptr w}

theorem refl (s : State w) : Kept s s := ⟨rfl, fun _ _ h => h, id⟩

theorem trans (h : Kept s₀ s) (h' : Kept s s') : Kept s₀ s' :=
  ⟨h'.head.trans h.head, fun x o hx => h'.heap x o (h.heap x o hx), fun hk => h'.kfail (h.kfail hk)⟩

/-- What is free now was free before. -/
theorem free (h : Kept s₀ s) (hp : s.heap p = none) : s₀.heap p = none := by
  cases hobj : s₀.heap p with
  | none => rfl
  | some o => rw [h.heap p o hobj] at hp; cases hp

/-- A change at an address that was free. -/
theorem setObj (h : Kept s₀ s) (hp : s₀.heap p = none) (o : Option (Obj w)) :
    Kept s₀ (s.setObj p o) := by
  refine ⟨h.head, fun x o' hx => ?_, h.kfail⟩
  rw [State.setObj_heap, if_neg]
  · exact h.heap x o' hx
  · rintro rfl
    rw [hp] at hx
    cases hx

end Kept

/-- There are no other tree nodes than before. -/
def NoNew (s s' : State w) : Prop :=
  ∀ x n, s'.heap x = some (.node n) → ∃ n₀, s.heap x = some (.node n₀)

theorem NoNew.refl (s : State w) : NoNew s s := fun _ n h => ⟨n, h⟩

theorem NoNew.trans {s s' s'' : State w} (h : NoNew s s') (h' : NoNew s' s'') : NoNew s s'' :=
  fun x n hx => let ⟨n', hx'⟩ := h' x n hx; h x n' hx'

theorem NoNew.setNode {s s' : State w} {p : Ptr w} {n : Words w} (h : NoNew s s')
    (hp : s'.heap p = some (.node n)) (n' : Words w) : NoNew s (s'.setNode p n') := by
  intro x m hx
  by_cases hxp : x = p
  · exact h x n (hxp ▸ hp)
  · exact h x m (by rwa [State.setNode_heap_ne _ hxp] at hx)

/-- An entry of a cache: its address, the node it points to and its key buffer. -/
structure Entry (w : Nat) where
  addr : Ptr w
  node : Ptr w
  key : Ptr w
  deriving DecidableEq

/-- The address of the first entry, `last` for the empty list. -/
def firstAddr (last : Ptr w) : List (Entry w) → Ptr w
  | [] => last
  | e :: _ => e.addr

@[simp] theorem firstAddr_nil (last : Ptr w) : firstAddr last [] = last := rfl
@[simp] theorem firstAddr_cons (last : Ptr w) (e : Entry w) (es : List (Entry w)) :
    firstAddr last (e :: es) = e.addr := rfl

/-- The entries are in memory, each pointing to the next one and the last one to `last`. -/
def Linked (s : State w) (last : Ptr w) : List (Entry w) → Prop
  | [] => True
  | e :: es => s.heap e.addr = some (.entry e.node e.key (firstAddr last es)) ∧ Linked s last es

theorem Linked.congr {s s' : State w} {last : Ptr w} : ∀ {es : List (Entry w)}, Linked s last es →
    (∀ e ∈ es, s'.heap e.addr = s.heap e.addr) → Linked s' last es
  | [], _, _ => trivial
  | e :: _, h, hsame =>
    ⟨(hsame e (by simp)).trans h.1, h.2.congr fun a ha => hsame a (by simp [ha])⟩

theorem Linked.entry {s : State w} {last : Ptr w} : ∀ {es : List (Entry w)}, Linked s last es →
    ∀ {e : Entry w}, e ∈ es → ∃ next, s.heap e.addr = some (.entry e.node e.key next)
  | _ :: _, h, _, he => by
    rcases List.mem_cons.mp he with rfl | hmem
    · exact ⟨_, h.1⟩
    · exact h.2.entry hmem

theorem Linked.last_entry {s : State w} {last : Ptr w} : ∀ {es : List (Entry w)} {e : Entry w},
    Linked s last (es ++ [e]) → s.heap e.addr = some (.entry e.node e.key last)
  | [], _, h => h.1
  | _ :: _, _, h => h.2.last_entry

/-- One more entry at the end. -/
theorem Linked.snoc {s s' : State w} {last : Ptr w} {a : Entry w} : ∀ {es : List (Entry w)} {e : Entry w},
    Linked s last (es ++ [e]) → (∀ x ∈ es, s'.heap x.addr = s.heap x.addr) →
    s'.heap e.addr = some (.entry e.node e.key a.addr) →
    s'.heap a.addr = some (.entry a.node a.key last) → Linked s' last (es ++ [e, a]) := by
  intro es
  induction es with
  | nil =>
    intro _ _ _ he ha
    exact ⟨he, ha, trivial⟩
  | cons x es ih =>
    intro e h hsame he ha
    have htail : Linked s' last (es ++ [e, a]) :=
      ih h.2 (fun y hy => hsame y (by simp [hy])) he ha
    refine ⟨(hsame x (by simp)).trans (h.1.trans ?_), htail⟩
    cases es <;> rfl

/-- The last entry can be made to point anywhere. -/
theorem Linked.close {s s' : State w} {last last' : Ptr w} : ∀ {es : List (Entry w)} {e : Entry w},
    Linked s last (es ++ [e]) → (∀ x ∈ es, s'.heap x.addr = s.heap x.addr) →
    s'.heap e.addr = some (.entry e.node e.key last') → Linked s' last' (es ++ [e])
  | [], _, _, _, he => ⟨he, trivial⟩
  | x :: es, e, h, hsame, he => by
    refine ⟨(hsame x (by simp)).trans (h.1.trans ?_), h.2.close (fun y hy => hsame y (by simp [hy])) he⟩
    cases es <;> rfl

/-- No two entries share a key buffer. -/
def OwnKeys (es : List (Entry w)) : Prop := es.Pairwise fun a b => a.key ≠ 0#w → a.key ≠ b.key

/-- The entries that `initQueue` has made so far, on top of what was live in `s₀`. -/
structure Made (s₀ s : State w) (es : List (Entry w)) : Prop where
  kept : Kept s₀ s
  linked : Linked s 0#w es
  nodup : (es.map Entry.addr).Nodup
  addr : ∀ e ∈ es, e.addr ≠ 0#w ∧ s₀.heap e.addr = none ∧ e.node = 0#w
  key : ∀ e ∈ es, e.key = 0#w ∧ s.kfail = true ∨
    e.key ≠ 0#w ∧ s₀.heap e.key = none ∧ ∃ ws, s.heap e.key = some (.buf ws)
  keys : OwnKeys es
  only : ∀ x, s.heap x ≠ none →
    s₀.heap x ≠ none ∨ ∃ e ∈ es, x = e.addr ∨ e.key ≠ 0#w ∧ x = e.key

section

variable {s₀ s : State w} {es : List (Entry w)}

/-- A key buffer, or a queue that has got no entries: what `initQueue` leaves behind when a `kmalloc`
fails. -/
inductive Obj.Remnant : Obj w → Prop where
  | buf (ws : Words w) : Remnant (.buf ws)
  | queue : Remnant (.queue 0#w)

theorem Obj.Remnant.not_node {o : Obj w} (h : o.Remnant) (n : Words w) : o ≠ .node n := by
  cases h <;> simp

/-- The clean-up frees the entries and leaves what was live. -/
theorem freeEntries_linked : ∀ {d : Nat} {es : List (Entry w)} {s : State w}, es.length ≤ d →
    Kept s₀ s → Linked s 0#w es → (es.map Entry.addr).Nodup →
    (∀ e ∈ es, e.addr ≠ 0#w ∧ s₀.heap e.addr = none) →
    ∃ s', freeEntries d (firstAddr 0#w es) s = .ok s' ∧ Kept s₀ s' ∧ s'.kfail = s.kfail ∧
      ∀ x o, s'.heap x = some o → s.heap x = some o ∧ ∀ e ∈ es, x ≠ e.addr
  | d, [], s, _, hkept, _, _, _ =>
    ⟨s, by cases d <;> simp [freeEntries], hkept, rfl, fun _ _ h => ⟨h, by simp⟩⟩
  | 0, e :: es, s, hlen, _, _, _, _ => by simp at hlen
  | d + 1, e :: es, s, hlen, hkept, hlinked, hnodup, haddr => by
    obtain ⟨hne, hfree⟩ := haddr e (by simp)
    have hnext : s.word e.addr 2 = .ok (firstAddr 0#w es) :=
      State.word_eq_ok.mpr ⟨hne, _, hlinked.1, rfl⟩
    have hdrop : s.free e.addr = .ok (s.setObj e.addr none) :=
      State.free_eq_ok.mpr (.inr ⟨hne, by simp [hlinked.1], rfl⟩)
    obtain ⟨hnot, htail⟩ := List.nodup_cons.mp hnodup
    -- the entries behind are others, so they stay linked
    have hlinked' : Linked (s.setObj e.addr none) 0#w es := hlinked.2.congr fun a ha => by
      rw [State.setObj_heap, if_neg]
      rintro heq
      exact hnot (heq ▸ List.mem_map_of_mem ha)
    obtain ⟨s', hrun, hkept', hk, hsub⟩ := freeEntries_linked (s := s.setObj e.addr none) (d := d)
      (by simpa using hlen) (hkept.setObj hfree none) hlinked' htail fun a ha => haddr a (by simp [ha])
    refine ⟨s', ?_, hkept', hk, fun x o hx => ?_⟩
    · simp only [freeEntries, firstAddr_cons, if_neg hne, hnext, hdrop, ok_bind, hrun]
    · obtain ⟨hobj, hgone⟩ := hsub x o hx
      rw [State.setObj_heap] at hobj
      split at hobj
      next => cases hobj
      next hxe => exact ⟨hobj, List.forall_mem_cons.mpr ⟨hxe, hgone⟩⟩

/-- A round of the loop has made one more entry; the last one before points to it. -/
theorem Made.snoc {s' : State w} {p key : Ptr w} (h : Made s₀ s es) (hp : p ≠ 0#w)
    (hfree : s.heap p = none) (hnew : s'.heap p = some (.entry 0#w key 0#w))
    (hold : ∀ x, s.heap x ≠ none → (∀ e ∈ es.getLast?, x ≠ e.addr) → s'.heap x = s.heap x)
    (hlast : ∀ e ∈ es.getLast?, s'.heap e.addr = some (.entry e.node e.key p))
    (hhead : s'.toHead = s.toHead) (hkfail : s.kfail = true → s'.kfail = true)
    (hkey : key = 0#w ∧ s'.kfail = true ∨
      key ≠ 0#w ∧ s.heap key = none ∧ ∃ ws, s'.heap key = some (.buf ws))
    (honly : ∀ x, s'.heap x ≠ none → s.heap x ≠ none ∨ x = p ∨ key ≠ 0#w ∧ x = key) :
    Made s₀ s' (es ++ [⟨p, 0#w, key⟩]) := by
  have hlive : ∀ e ∈ es, s.heap e.addr ≠ none := fun e he => by
    obtain ⟨next, hnext⟩ := h.linked.entry he
    simp [hnext]
  have hpes : ∀ e ∈ es, e.addr ≠ p := fun e he heq => hlive e he (heq ▸ hfree)
  refine ⟨⟨hhead.trans h.kept.head, fun x o hx => ?_, fun hk => hkfail (h.kept.kfail hk)⟩, ?_, ?_,
    fun e he => ?_, fun e he => ?_, ?_, fun x hx => ?_⟩
  · have hx' := h.kept.heap x o hx
    rw [hold x (by simp [hx']) fun e he heq => ?_, hx']
    rw [heq, (h.addr e (List.mem_of_mem_getLast? he)).2.1] at hx
    cases hx
  · rcases List.eq_nil_or_concat es with rfl | ⟨es, e, rfl⟩
    · exact ⟨hnew, trivial⟩
    · rw [List.concat_eq_append] at *
      have hnodup := h.nodup
      rw [List.map_append, List.nodup_append] at hnodup
      rw [List.append_assoc]
      refine h.linked.snoc (fun x hx => ?_) (hlast e (by simp)) hnew
      refine hold x.addr (hlive x (by simp [hx])) fun a ha heq => ?_
      have hae : a = e := by simpa using ha.symm
      subst hae
      exact hnodup.2.2 x.addr (List.mem_map_of_mem hx) a.addr (by simp) heq
  · rw [List.map_append, List.nodup_append]
    refine ⟨h.nodup, by simp, fun a ha b hb => ?_⟩
    obtain ⟨e, he, rfl⟩ := List.mem_map.mp ha
    rw [show b = p by simpa using hb]
    exact hpes e he
  · cases List.mem_append.mp he with
    | inl hmem =>
      exact h.addr e hmem
    | inr hmem =>
      rw [List.mem_singleton.mp hmem]
      exact ⟨hp, h.kept.free hfree, rfl⟩
  · cases List.mem_append.mp he with
    | inl hmem =>
      rcases h.key e hmem with ⟨hzero, hk⟩ | ⟨hne, hfresh, ws, hbuf⟩
      · exact .inl ⟨hzero, hkfail hk⟩
      · refine .inr ⟨hne, hfresh, ws, ?_⟩
        rw [hold _ (by simp [hbuf]) fun a ha heq => ?_, hbuf]
        -- an entry is not a buffer
        rcases List.eq_nil_or_concat es with rfl | ⟨es, e', rfl⟩
        · simp at hmem
        · rw [List.concat_eq_append] at *
          have hae : a = e' := by simpa using ha.symm
          subst hae
          rw [heq, h.linked.last_entry] at hbuf
          cases hbuf
    | inr hmem =>
      rw [List.mem_singleton.mp hmem]
      exact hkey.imp id fun hk => ⟨hk.1, h.kept.free hk.2.1, hk.2.2⟩
  · refine List.pairwise_append.mpr ⟨h.keys, by simp, fun e he b hb hne heq => ?_⟩
    rw [List.mem_singleton.mp hb] at heq
    rcases h.key e he with ⟨hzero, -⟩ | ⟨-, -, ws, hbuf⟩
    · exact hne hzero
    · rcases hkey with ⟨hzero, -⟩ | ⟨-, hkfree, -⟩
      · exact hne (heq.trans hzero)
      · rw [heq] at hbuf
        simp only at hbuf
        rw [hkfree] at hbuf
        cases hbuf
  · cases honly x hx with
    | inl hold' =>
      rcases h.only x hold' with hlive₀ | ⟨e, he, hxe⟩
      · exact .inl hlive₀
      · exact .inr ⟨e, by simp [he], hxe⟩
    | inr hnew' =>
      exact .inr ⟨_, List.mem_append_right _ (List.mem_singleton.mpr rfl), hnew'⟩

/-- An entry that a round has allocated at `p`, with its key buffer (`NULL` when there was no memory
for it). -/
structure NewEntry (s s' : State w) (p key : Ptr w) : Prop where
  head : s'.toHead = s.toHead
  kfail : s.kfail = true → s'.kfail = true
  entry : s'.heap p = some (.entry 0#w 0#w 0#w)
  old : ∀ x, s.heap x ≠ none → s'.heap x = s.heap x
  only : ∀ x, s'.heap x ≠ none → s.heap x ≠ none ∨ x = p ∨ key ≠ 0#w ∧ x = key
  key : key = 0#w ∧ s'.kfail = true ∨
    key ≠ 0#w ∧ s.heap key = none ∧ ∃ ws, s'.heap key = some (.buf ws)

theorem kmalloc_key {p : Ptr w} (slab : List (Ptr w × Words w)) (hfree : s.heap p = none) :
    ∃ key s', ({ s with slab := slab }.setObj p (some (.entry 0#w 0#w 0#w))).kmalloc .buf = (key, s') ∧
      NewEntry s s' p key := by
  have hold : ∀ x, s.heap x ≠ none →
      ({ s with slab := slab }.setObj p (some (.entry 0#w 0#w 0#w))).heap x = s.heap x := by
    intro x hx
    rw [State.setObj_heap, if_neg]
    rintro rfl
    exact hx hfree
  rcases State.kmalloc_cases ({ s with slab := slab }.setObj p (some (.entry 0#w 0#w 0#w)))
    .buf with ⟨slab', hfail⟩ | ⟨key, junk, slab', hne, hkfree, hok⟩
  · refine ⟨_, _, hfail, rfl, fun _ => rfl, by simp [State.setObj_heap], hold,
      fun x hx => ?_, .inl ⟨rfl, rfl⟩⟩
    by_cases hxp : x = p
    · exact .inr (.inl hxp)
    · exact .inl (by simpa [State.setObj_heap, hxp] using hx)
  · have hkp : key ≠ p := by
      rintro rfl
      simp [State.setObj_heap] at hkfree
    have hkfree' : s.heap key = none := by simpa [State.setObj_heap, hkp] using hkfree
    refine ⟨key, _, hok, rfl, fun hk => hk, ?_, fun x hx => ?_, fun x hx => ?_,
      .inr ⟨hne, hkfree', junk, by simp [State.setObj_heap]⟩⟩
    · rw [State.setObj_heap, if_neg hkp.symm]
      simp [State.setObj_heap]
    · rw [State.setObj_heap, if_neg]
      · exact hold x hx
      · rintro rfl
        exact hx hkfree'
    · by_cases hxk : x = key
      · exact .inr (.inr ⟨hne, hxk⟩)
      · by_cases hxp : x = p
        · exact .inr (.inl hxp)
        · exact .inl (by simpa [State.setObj_heap, hxk, hxp] using hx)

/-- The key buffer is still there after writes to entries. -/
theorem NewEntry.key_kept {s₂ s' : State w} {p key : Ptr w} (h : NewEntry s s₂ p key)
    (hk : s'.kfail = s₂.kfail) (hsame : ∀ x, x ≠ p → s.heap x = none → s'.heap x = s₂.heap x) :
    key = 0#w ∧ s'.kfail = true ∨
      key ≠ 0#w ∧ s.heap key = none ∧ ∃ ws, s'.heap key = some (.buf ws) := by
  rcases h.key with ⟨hzero, hfail⟩ | ⟨hne, hkfree, ws, hbuf⟩
  · exact .inl ⟨hzero, hk ▸ hfail⟩
  · refine .inr ⟨hne, hkfree, ws, ?_⟩
    rw [hsame key ?_ hkfree, hbuf]
    rintro rfl
    rw [h.entry] at hbuf
    cases hbuf

/-- There is no memory for one more entry: those made so far are freed, their key buffers are not. -/
theorem Made.freed (h : Made s₀ s es) (hlen : es.length ≤ 4) (slab : List (Ptr w × Words w)) :
    ∃ s', freeEntries 4 (firstAddr 0#w es) { s with slab := slab, kfail := true } = .ok s' ∧ Kept s₀ s' ∧
      s'.kfail = true ∧ ∀ x o, s'.heap x = some o → s₀.heap x ≠ none ∨ o.Remnant := by
  have hkept : Kept s₀ { s with slab := slab, kfail := true } := ⟨h.kept.head, h.kept.heap, fun _ => rfl⟩
  obtain ⟨s', hrun, hkept', hk, hsub⟩ := freeEntries_linked hlen hkept (h.linked.congr fun _ _ => rfl) h.nodup
    fun e he => ⟨(h.addr e he).1, (h.addr e he).2.1⟩
  refine ⟨s', hrun, hkept', hk, fun x o hx => ?_⟩
  obtain ⟨hobj, hgone⟩ : s.heap x = some o ∧ ∀ e ∈ es, x ≠ e.addr := hsub x o hx
  rcases h.only x (by simp [hobj]) with hold | ⟨e, he, rfl | ⟨hne, rfl⟩⟩
  · exact .inl hold
  · exact absurd rfl (hgone e he)
  · obtain ⟨-, -, ws, hbuf⟩ := (h.key e he).resolve_left fun hz => hne hz.1
    rw [hbuf] at hobj
    cases hobj
    exact .inr (.buf _)

section Round

variable {s₂ : State w} {p key : Ptr w} {e : Entry w}

theorem ne_of_free (hfree : s.heap p = none) : ∀ x, s.heap x ≠ none → x ≠ p := by
  rintro x hx rfl
  exact hx hfree

/-- The first entry. -/
theorem Made.first (h : Made s₀ s []) (hp : p ≠ 0#w) (hfree : s.heap p = none) (hround : NewEntry s s₂ p key) :
    Made s₀ (s₂.setObj p (some (.entry 0#w key 0#w))) ([] ++ [⟨p, 0#w, key⟩]) := by
  have hother : ∀ x, x ≠ p → (s₂.setObj p (some (.entry 0#w key 0#w))).heap x = s₂.heap x := fun x hx => by
    rw [State.setObj_heap, if_neg hx]
  refine h.snoc hp hfree (by simp [State.setObj_heap]) (fun x hx _ => ?_) (by simp) hround.head hround.kfail
    (hround.key_kept rfl fun x hx _ => hother x hx) fun x hx => ?_
  · rw [hother x (ne_of_free hfree x hx), hround.old x hx]
  · by_cases hxp : x = p
    · exact .inr (.inl hxp)
    · exact hround.only x (by rwa [hother x hxp] at hx)

/-- One more entry, to which the last one is linked. -/
theorem Made.next (h : Made s₀ s (es ++ [e])) (hp : p ≠ 0#w) (hfree : s.heap p = none) (hround : NewEntry s s₂ p key) :
    (s₂.setObj p (some (.entry 0#w key 0#w))).setWord e.addr 2 p =
        .ok ((s₂.setObj p (some (.entry 0#w key 0#w))).setObj e.addr (some (.entry e.node e.key p))) ∧
      Made s₀ ((s₂.setObj p (some (.entry 0#w key 0#w))).setObj e.addr (some (.entry e.node e.key p)))
        ((es ++ [e]) ++ [⟨p, 0#w, key⟩]) := by
  have hlast : s.heap e.addr = some (.entry e.node e.key 0#w) := h.linked.last_entry
  have hep : e.addr ≠ p := ne_of_free hfree _ (by simp [hlast])
  have hother : ∀ x, x ≠ e.addr → x ≠ p →
      ((s₂.setObj p (some (.entry 0#w key 0#w))).setObj e.addr (some (.entry e.node e.key p))).heap x =
        s₂.heap x := fun x hxe hxp => by
    rw [State.setObj_heap, if_neg hxe, State.setObj_heap, if_neg hxp]
  constructor
  · refine State.setWord_eq_ok.mpr ⟨(h.addr e (by simp)).1, .entry e.node e.key 0#w, _, ?_, rfl, rfl⟩
    rw [State.setObj_heap, if_neg hep, hround.old _ (by simp [hlast]), hlast]
  refine h.snoc hp hfree (by simp [State.setObj_heap, hep.symm]) (fun x hx hxe => ?_) ?_ hround.head hround.kfail
    (hround.key_kept rfl fun x hx hxfree => ?_) (fun x hx => ?_)
  · rw [hother x (hxe e (by simp)) (ne_of_free hfree x hx), hround.old x hx]
  · intro a ha
    have hae : a = e := by simpa using ha.symm
    subst hae
    simp [State.setObj_heap]
  · refine hother x ?_ hx
    rintro rfl
    rw [hlast] at hxfree
    cases hxfree
  · by_cases hxe : x = e.addr
    · exact .inl (by simp [hxe, hlast])
    by_cases hxp : x = p
    · exact .inr (.inl hxp)
    · exact hround.only x (by rwa [hother x hxe hxp] at hx)

end Round

/-- The loop of `initQueue`: either a `kmalloc` of an entry has failed and at most key buffers are
left over, or there are `d` more entries. -/
theorem initQueueLoop_made : ∀ {d : Nat} {es : List (Entry w)} {s : State w}, es.length + d ≤ 4 →
    Made s₀ s es →
    (∃ s', initQueueLoop (firstAddr 0#w es) (firstAddr 0#w es.reverse) d s = .ok (none, s') ∧
      Kept s₀ s' ∧ s'.kfail = true ∧
      ∀ x o, s'.heap x = some o → s₀.heap x ≠ none ∨ o.Remnant) ∨
    (∃ s' es', initQueueLoop (firstAddr 0#w es) (firstAddr 0#w es.reverse) d s =
        .ok (some (firstAddr 0#w es', firstAddr 0#w es'.reverse), s') ∧
      Made s₀ s' es' ∧ es'.length = es.length + d) := by
  intro d
  induction d with
  | zero =>
    intro es s _ h
    exact .inr ⟨s, es, rfl, h, rfl⟩
  | succ d ih =>
    intro es s hlen h
    rw [initQueueLoop]
    rcases s.kmalloc_cases (fun _ => .entry 0#w 0#w 0#w) with
      ⟨slab, hfail⟩ | ⟨p, junk, slab, hp, hfree, halloc⟩
    · obtain ⟨s', hrun, hkept, hk, hremnant⟩ := h.freed (by omega) slab
      simp only [hfail, if_true]
      exact .inl ⟨s', by simp only [hrun, ok_bind], hkept, hk, hremnant⟩
    · simp only [halloc, if_neg hp]
      obtain ⟨key, s₂, hkey, hround⟩ := kmalloc_key slab hfree
      have hset : s₂.setWord p 1 key = .ok (s₂.setObj p (some (.entry 0#w key 0#w))) :=
        State.setWord_eq_ok.mpr ⟨hp, _, _, hround.entry, rfl, rfl⟩
      simp only [hkey, hset, ok_bind]
      rcases List.eq_nil_or_concat es with rfl | ⟨es, e, rfl⟩
      · simp only [firstAddr_nil, if_true]
        have hrec := ih (by simp only [List.length_nil] at hlen; simp; omega) (h.first hp hfree hround)
        simpa [Nat.add_comm] using hrec
      · rw [List.concat_eq_append] at *
        have hfirst : ∀ l : List (Entry w), firstAddr (0#w) (es ++ e :: l) = firstAddr 0#w (es ++ [e]) :=
          fun l => by cases es <;> rfl
        have hfirstNe : firstAddr 0#w (es ++ [e]) ≠ 0#w := by
          cases es with
          | nil => exact (h.addr e (by simp)).1
          | cons a es => exact (h.addr a (by simp)).1
        obtain ⟨hlink, hmade⟩ := h.next hp hfree hround
        have hrec := ih (by simp at hlen ⊢; omega) hmade
        rw [List.append_assoc, List.singleton_append, hfirst] at hrec
        simp only [List.reverse_append, List.reverse_cons, List.reverse_nil, List.nil_append,
          List.cons_append, firstAddr_cons, if_neg hfirstNe, hlink, ok_bind] at hrec ⊢
        simpa [Nat.add_assoc, show 1 + (d + 1) = 2 + d by omega] using hrec

/-- The four entries behind the queue `q`, listed from its head. -/
structure Ring (s : State w) (q : Ptr w) (es : List (Entry w)) : Prop where
  queue : q ≠ 0#w ∧ s.heap q = some (.queue (firstAddr 0#w es))
  length : es.length = 4
  linked : Linked s (firstAddr 0#w es) es
  addr_ne : ∀ e ∈ es, e.addr ≠ 0#w
  addrs : (es.map Entry.addr).Nodup
  key : ∀ e ∈ es, e.key = 0#w ∧ e.node = 0#w ∨ e.key ≠ 0#w ∧ ∃ ws, s.heap e.key = some (.buf ws)
  keys : OwnKeys es

/-- The objects that are not tree nodes are as they were. -/
def SideKept (s s' : State w) : Prop :=
  ∀ x o, s.heap x = some o → (∀ n, o ≠ .node n) → s'.heap x = some o

theorem SideKept.trans {s' s'' : State w} (h : SideKept s s') (h' : SideKept s' s'') :
    SideKept s s'' := fun x o hx ho => h' x o (h x o hx ho) ho

theorem Kept.side {s' : State w} (h : Kept s s') : SideKept s s' := fun x o hx _ => h.heap x o hx

theorem SideKept.setNode {p : Ptr w} {n : Words w} (n' : Words w) (hp : s.heap p = some (.node n)) :
    SideKept s (s.setNode p n') := by
  intro x o hx ho
  rw [State.setNode_heap_ne, hx]
  rintro rfl
  exact ho n (Option.some.inj (hx.symm.trans hp))

/-- A queue only depends on its own objects. -/
theorem Ring.frame {s' : State w} {q : Ptr w} (h : Ring s q es)
    (hk : ∀ x, (x = q ∨ ∃ e ∈ es, x = e.addr ∨ e.key ≠ 0#w ∧ x = e.key) → s'.heap x = s.heap x) :
    Ring s' q es where
  queue := ⟨h.queue.1, (hk q (.inl rfl)).trans h.queue.2⟩
  length := h.length
  linked := h.linked.congr fun e he => hk _ (.inr ⟨e, he, .inl rfl⟩)
  addr_ne := h.addr_ne
  addrs := h.addrs
  key e he := (h.key e he).imp_right fun ⟨hne, ws, hbuf⟩ =>
    ⟨hne, ws, (hk _ (.inr ⟨e, he, .inr ⟨hne, rfl⟩⟩)).trans hbuf⟩
  keys := h.keys

/-- What a queue is made of is live and no tree node. -/
theorem Ring.object {q x : Ptr w} (h : Ring s q es)
    (hx : x = q ∨ ∃ e ∈ es, x = e.addr ∨ e.key ≠ 0#w ∧ x = e.key) :
    ∃ o, s.heap x = some o ∧ ∀ n, o ≠ .node n := by
  rcases hx with rfl | ⟨e, he, rfl | ⟨hne, rfl⟩⟩
  · exact ⟨_, h.queue.2, by simp⟩
  · obtain ⟨next, hnext⟩ := h.linked.entry he
    exact ⟨_, hnext, by simp⟩
  · obtain ⟨-, ws, hbuf⟩ := (h.key e he).resolve_left fun hzero => hne hzero.1
    exact ⟨_, hbuf, by simp⟩

theorem Ring.mono {s' : State w} {q : Ptr w} (h : Ring s q es) (hk : SideKept s s') :
    Ring s' q es := h.frame fun x hx => by
  obtain ⟨o, ho, hside⟩ := h.object hx
  rw [ho, hk x o ho hside]

/-- A queue that did not exist in `s`, with nothing cached yet. -/
structure NewRing (s s' : State w) (q : Ptr w) (es : List (Entry w)) : Prop where
  ring : Ring s' q es
  queue_free : s.heap q = none
  fresh : ∀ e ∈ es, e.node = 0#w ∧ s.heap e.addr = none ∧
    (e.key = 0#w ∧ s'.kfail = true ∨ e.key ≠ 0#w ∧ s.heap e.key = none)

/-- Every live object of `s'` is one of `s` or belongs to the ring. -/
def OnlyRing (s s' : State w) (q : Ptr w) (es : List (Entry w)) : Prop :=
  ∀ x, s'.heap x ≠ none →
    s.heap x ≠ none ∨ x = q ∨ ∃ e ∈ es, x = e.addr ∨ e.key ≠ 0#w ∧ x = e.key

/-- `kmalloc` has been called for a queue, and has returned `q`. -/
structure QueueAlloc (s s' : State w) (q : Ptr w) : Prop where
  kept : Kept s s'
  queue : q ≠ 0#w → s.heap q = none ∧ s'.heap q = some (.queue 0#w) ∧ ∀ x, s'.heap x ≠ none → s.heap x ≠ none ∨ x = q
  remnant : ∀ x o, s'.heap x = some o → s.heap x ≠ none ∨ o.Remnant

theorem kmalloc_queue (s : State w) : ∃ q s', s.kmalloc (fun _ => .queue 0#w) = (q, s') ∧ QueueAlloc s s' q := by
  rcases s.kmalloc_cases (fun _ => .queue 0#w) with ⟨slab, hfail⟩ | ⟨q, junk, slab, hq, hfree, halloc⟩
  · refine ⟨_, _, hfail, ⟨rfl, fun _ _ h => h, fun _ => rfl⟩, fun hne => absurd rfl hne, fun x o hx => .inl ?_⟩
    rw [show s.heap x = some o from hx]
    simp
  have hother : ∀ x, x ≠ q → ({ s with slab := slab }.setObj q (some (.queue 0#w))).heap x = s.heap x :=
    fun x hx => by rw [State.setObj_heap, if_neg hx]
  refine ⟨q, _, halloc, ⟨rfl, fun x o hx => ?_, id⟩, fun _ => ⟨hfree, by simp [State.setObj_heap], fun x hx => ?_⟩,
    fun x o hx => ?_⟩
  · rw [hother, hx]
    rintro rfl
    rw [hfree] at hx
    cases hx
  · by_cases hxq : x = q
    · exact .inr hxq
    · exact .inl (by rwa [hother x hxq] at hx)
  · by_cases hxq : x = q
    · rw [hxq, State.setObj_heap, if_pos rfl] at hx
      cases hx
      exact .inr .queue
    · rw [hother x hxq] at hx
      exact .inl (by simp [hx])

/-! ### The ring is closed -/

/-- The last entry is linked to the first one, and the queue is told where the first one is. -/
def closeRing (s : State w) (q : Ptr w) (es : List (Entry w)) (e : Entry w) : State w :=
  (s.setObj e.addr (some (.entry e.node e.key (firstAddr 0#w (es ++ [e]))))).setObj q
    (some (.queue (firstAddr 0#w (es ++ [e]))))

section CloseRing

variable {s₁ : State w} {q x : Ptr w} {e : Entry w}

theorem closeRing_heap : (closeRing s q es e).heap x =
    if x = q then some (.queue (firstAddr 0#w (es ++ [e])))
    else if x = e.addr then some (.entry e.node e.key (firstAddr 0#w (es ++ [e])))
    else s.heap x := by
  rw [closeRing, State.setObj_heap, State.setObj_heap]

/-- An entry was free when the queue was already there. -/
theorem Made.queue_ne (h : Made s₁ s es) (hqueue : s₁.heap q ≠ none) : ∀ a ∈ es, q ≠ a.addr := by
  rintro a ha rfl
  exact hqueue (h.addr a ha).2.1

theorem Made.close_entry (h : Made s₁ s (es ++ [e])) : s.setWord e.addr 2 (firstAddr 0#w (es ++ [e])) =
    .ok (s.setObj e.addr (some (.entry e.node e.key (firstAddr 0#w (es ++ [e]))))) :=
  State.setWord_eq_ok.mpr ⟨(h.addr e (by simp)).1, _, _, h.linked.last_entry, rfl, rfl⟩

theorem Made.close_queue (h : Made s₁ s (es ++ [e])) (hqne : q ≠ 0#w) (hqueue : s₁.heap q = some (.queue 0#w)) :
    (s.setObj e.addr (some (.entry e.node e.key (firstAddr 0#w (es ++ [e]))))).setWord q 0
      (firstAddr 0#w (es ++ [e])) = .ok (closeRing s q es e) := by
  refine State.setWord_eq_ok.mpr ⟨hqne, .queue 0#w, _, ?_, rfl, rfl⟩
  rw [State.setObj_heap, if_neg (h.queue_ne (by simp [hqueue]) e (by simp)), h.kept.heap q _ hqueue]

theorem Made.close_linked (h : Made s₁ s (es ++ [e])) (hqueue : s₁.heap q ≠ none) :
    Linked (closeRing s q es e) (firstAddr 0#w (es ++ [e])) (es ++ [e]) := by
  have hqe := h.queue_ne hqueue
  refine h.linked.close (fun a ha => ?_) ?_
  · have hae : a.addr ≠ e.addr := by
      have hnodup := h.nodup
      rw [List.map_append, List.nodup_append] at hnodup
      exact hnodup.2.2 _ (List.mem_map_of_mem ha) _ (by simp)
    rw [closeRing_heap, if_neg (hqe a (by simp [ha])).symm, if_neg hae]
  · rw [closeRing_heap, if_neg (hqe e (by simp)).symm, if_pos rfl]

/-- The key buffers are neither the last entry nor the queue. -/
theorem Made.close_key (h : Made s₁ s (es ++ [e])) (hqueue : s₁.heap q ≠ none) : ∀ a ∈ es ++ [e],
    a.key = 0#w ∧ (closeRing s q es e).kfail = true ∨
      a.key ≠ 0#w ∧ s₁.heap a.key = none ∧ ∃ ws, (closeRing s q es e).heap a.key = some (.buf ws) := by
  intro a ha
  rcases h.key a ha with ⟨hzero, hk⟩ | ⟨hkne, hkfree, ws, hbuf⟩
  · exact .inl ⟨hzero, hk⟩
  refine .inr ⟨hkne, hkfree, ws, ?_⟩
  rw [closeRing_heap, if_neg, if_neg, hbuf]
  · intro heq
    rw [heq, h.linked.last_entry] at hbuf
    cases hbuf
  · rintro rfl
    exact hqueue hkfree

/-- The queue and the entries that have been made for it. -/
theorem Made.newRing {s₀ : State w} (halloc : QueueAlloc s₀ s₁ q) (hqne : q ≠ 0#w) (h : Made s₁ s (es ++ [e]))
    (hlen : (es ++ [e]).length = 4) : Kept s₀ (closeRing s q es e) ∧ NewRing s₀ (closeRing s q es e) q (es ++ [e]) ∧
      OnlyRing s₀ (closeRing s q es e) q (es ++ [e]) := by
  obtain ⟨hqfree, hqobj, hqonly⟩ := halloc.queue hqne
  have hqueue : s₁.heap q ≠ none := by simp [hqobj]
  have hkey := h.close_key hqueue
  refine ⟨((halloc.kept.trans h.kept).setObj (halloc.kept.free (h.addr e (by simp)).2.1) _).setObj hqfree _,
    ⟨⟨⟨hqne, by rw [closeRing_heap, if_pos rfl]⟩, hlen, h.close_linked hqueue, fun a ha => (h.addr a ha).1, h.nodup,
      fun a ha => ?_, h.keys⟩, hqfree, fun a ha => ⟨(h.addr a ha).2.2, halloc.kept.free (h.addr a ha).2.1, ?_⟩⟩,
    fun x hx => ?_⟩
  · exact (hkey a ha).imp (fun hk => ⟨hk.1, (h.addr a ha).2.2⟩) fun hk => ⟨hk.1, hk.2.2⟩
  · exact (hkey a ha).imp id fun hk => ⟨hk.1, halloc.kept.free hk.2.1⟩
  · by_cases hxq : x = q
    · exact .inr (.inl hxq)
    by_cases hxe : x = e.addr
    · exact .inr (.inr ⟨e, by simp, .inl hxe⟩)
    rw [closeRing_heap, if_neg hxq, if_neg hxe] at hx
    cases h.only x hx with
    | inl hold =>
      exact (hqonly x hold).imp id .inl
    | inr hnew =>
      exact .inr (.inr hnew)

end CloseRing

/-- The three ways `initQueue` ends: a write through `NULL`, no queue for the node, or a queue. -/
theorem initQueue_cases {nodep : Ptr w} {n : Words w} (off : Nat) (hne : nodep ≠ 0#w)
    (hnode : s.heap nodep = some (.node n)) :
    initQueue nodep off s = .error .nullDeref ∨
    (∃ s', initQueue nodep off s = .ok s' ∧ Kept s s' ∧ s'.kfail = true ∧
      ∀ x o, s'.heap x = some o → s.heap x ≠ none ∨ o.Remnant) ∨
    (∃ s₁ q es, initQueue nodep off s = .ok (s₁.setNode nodep (Function.update n off q)) ∧
      Kept s s₁ ∧ NewRing s s₁ q es ∧ OnlyRing s s₁ q es) := by
  obtain ⟨q, s₀, hq, halloc⟩ := kmalloc_queue s
  have hstart : Made s₀ s₀ ([] : List (Entry w)) :=
    ⟨Kept.refl s₀, trivial, List.nodup_nil, by simp, by simp, List.Pairwise.nil, fun _ hx => .inl hx⟩
  unfold initQueue
  simp only [hq]
  rcases initQueueLoop_made (d := 4) (by simp) hstart with ⟨s', hrun, hkept, hk, hnodes⟩ |
    ⟨s', es, hrun, hmade, hlen⟩
  · -- the entries are gone again, the queue and the key buffers are not
    simp only [List.reverse_nil, firstAddr_nil] at hrun
    simp only [hrun, ok_bind]
    refine .inr (.inl ⟨s', rfl, halloc.kept.trans hkept, hk, fun x o hx => ?_⟩)
    cases hnodes x o hx with
    | inl hlive =>
      obtain ⟨o', hobj⟩ := Option.ne_none_iff_exists'.mp hlive
      rw [hkept.heap x o' hobj] at hx
      cases hx
      exact halloc.remnant x o hobj
    | inr hno =>
      exact .inr hno
  · simp only [List.reverse_nil, firstAddr_nil] at hrun
    obtain ⟨es, e, rfl⟩ : ∃ l e, es = l ++ [e] := by
      rcases List.eq_nil_or_concat es with rfl | ⟨l, e, rfl⟩
      · simp at hlen
      · exact ⟨l, e, List.concat_eq_append⟩
    simp only [hrun, ok_bind, List.reverse_append, List.reverse_cons, List.reverse_nil, List.nil_append,
      List.cons_append, firstAddr_cons]
    rw [hmade.close_entry, ok_bind]
    by_cases hqne : q = 0#w
    · exact .inl (by simp [hqne, State.setWord])
    · obtain ⟨hkept, hnew, honly⟩ := Made.newRing halloc hqne hmade hlen
      refine .inr (.inr ⟨_, q, es ++ [e], ?_, hkept, hnew, honly⟩)
      rw [hmade.close_queue hqne (halloc.queue hqne).2.1, ok_bind]
      exact State.setWord_eq_ok.mpr ⟨hne, .node n, _, hkept.heap _ _ hnode, rfl, rfl⟩

end

/-! ## cbtree_node_alloc -/

/-- A node that did not exist in `s`: empty, with both counting words 0 and, unless a `kmalloc` has
failed, a new queue.  There is no other new node. -/
structure NewNode (geo : Geo) (s s' : State w) (p : Ptr w) : Prop where
  ne : p ≠ 0#w
  free : s.heap p = none
  kept : Kept s s'
  node : ∃ n, s'.heap p = some (.node n) ∧ Holds geo n [] ∧ n (geo.arrLen + 1) = 0#w ∧
    n (geo.arrLen + 2) = 0#w ∧
    (n geo.arrLen = 0#w ∧ s'.kfail = true ∧
        (∀ x o, s'.heap x = some o → s.heap x ≠ none ∨ x = p ∨ o.Remnant) ∨
      ∃ es, NewRing s s' (n geo.arrLen) es ∧
      ∀ x, s'.heap x ≠ none → s.heap x ≠ none ∨ x = p ∨ x = n geo.arrLen ∨
        ∃ e ∈ es, x = e.addr ∨ e.key ≠ 0#w ∧ x = e.key)
  only : ∀ x n, s'.heap x = some (.node n) → s.heap x ≠ none ∨ x = p

theorem cbtreeNodeAlloc_cases (geo : Geo) (s : State w) :
    cbtreeNodeAlloc geo s = .error .nullDeref ∨
    (∃ pool, cbtreeNodeAlloc geo s = .ok (0#w, { s with pool := pool }) ∧ (s.mempoolAlloc).1 = 0#w) ∨
    (∃ p s', cbtreeNodeAlloc geo s = .ok (p, s') ∧ NewNode geo s s' p) := by
  unfold cbtreeNodeAlloc
  rcases s.mempoolAlloc_cases with ⟨pool, hfail⟩ | ⟨p, pool, hp, hfree, halloc⟩
  · exact .inr (.inl ⟨pool, by simp [hfail], by simp [hfail]⟩)
  · simp only [halloc, if_neg hp]
    generalize hs₁ : ({ s with pool := pool }.setNode p fun _ => 0).setNode p (fun _ => 0#w) = s₁
    have hheap : ∀ x, s₁.heap x = if x = p then some (.node fun _ => 0#w) else s.heap x := by
      intro x
      rw [← hs₁, State.setNode_heap]
      by_cases hx : x = p
      · simp [hx]
      · rw [if_neg hx, if_neg hx, State.setNode_heap_ne _ hx]
    have hkept : Kept s s₁ := by
      refine ⟨by rw [← hs₁]; rfl, fun x o hx => ?_, fun hk => by rw [← hs₁]; exact hk⟩
      rw [hheap, if_neg, hx]
      rintro rfl
      rw [hfree] at hx
      cases hx
    have hnode : s₁.heap p = some (.node fun _ => 0#w) := by rw [hheap, if_pos rfl]
    have honly : ∀ x, s₁.heap x ≠ none → s.heap x ≠ none ∨ x = p := by
      intro x hx
      by_cases hxp : x = p
      · exact .inr hxp
      · exact .inl (by rwa [hheap, if_neg hxp] at hx)
    rcases initQueue_cases geo.arrLen hp hnode with hnull | ⟨s', hrun, hkept', hk, hnodes⟩ |
      ⟨s₂, q, es, hrun, hkept', hnew, honly'⟩
    · exact .inl (by rw [hnull]; rfl)
    · -- no queue: the node is returned without one
      refine .inr (.inr ⟨p, s', by rw [hrun]; rfl, hp, hfree, hkept.trans hkept', ⟨_,
        hkept'.heap _ _ hnode, holds_zero geo, rfl, rfl, .inl ⟨rfl, hk, fun x o hx => ?_⟩⟩, fun x n hx => ?_⟩)
      · cases hnodes x o hx with
        | inl hold =>
          exact (honly x hold).imp_right .inl
        | inr hrem =>
          exact .inr (.inr hrem)
      · exact honly x ((hnodes x _ hx).resolve_right fun hrem => hrem.not_node n rfl)
    · right; right
      refine ⟨p, _, by rw [hrun]; rfl, hp, hfree, (hkept.trans hkept').setObj hfree _, ⟨_,
        State.setNode_heap_self _, ?_, by simp, by simp, .inr ?_⟩, fun x n hx => ?_⟩
      · refine (holds_zero geo).congr fun i hi => ?_
        have := value_word_lt hi
        have hkeys : ∀ j, j < geo.keylen → i * geo.keylen + j < geo.noLongs := fun j hj =>
          key_word_lt hi hj
        have harr : geo.arrLen = geo.keylen * geo.noPairs + geo.noLongs := rfl
        unfold slotAt
        refine Prod.ext (keyNum_congr fun j hj => ?_) ?_
        · have := hkeys j hj
          simp only [bkey]
          rw [Function.update_of_ne (by omega)]
        · simp only [bval]
          rw [Function.update_of_ne (by omega)]
      · -- the last write names the queue, in a word that is no slot
        have hside : SideKept s₂ (s₂.setNode p (Function.update (fun _ => 0#w) geo.arrLen q)) :=
          SideKept.setNode _ (hkept'.heap _ _ hnode)
        have hq : Function.update (fun _ => (0#w)) geo.arrLen q geo.arrLen = q :=
          Function.update_self _ _ _
        rw [hq]
        refine ⟨es, ⟨hnew.ring.mono hside, hkept.free hnew.queue_free, fun e he =>
          ⟨(hnew.fresh e he).1, hkept.free (hnew.fresh e he).2.1, ?_⟩⟩, fun x hx => ?_⟩
        · exact (hnew.fresh e he).2.2.imp id fun hk => ⟨hk.1, hkept.free hk.2⟩
        · by_cases hxp : x = p
          · exact .inr (.inl hxp)
          · rw [State.setObj_heap, if_neg hxp] at hx
            cases honly' x hx with
            | inl hold =>
              exact (honly x hold).imp id .inl
            | inr hnew =>
              exact .inr (.inr hnew)
      · by_cases hxp : x = p
        · exact .inr hxp
        · rw [State.setObj_heap, if_neg hxp] at hx
          rcases honly' x (by simp [hx]) with hold | rfl | ⟨e, he, rfl | ⟨hkne, rfl⟩⟩
          · exact honly x hold
          · rw [hnew.ring.queue.2] at hx
            cases hx
          · obtain ⟨next, hnext⟩ := hnew.ring.linked.entry he
            rw [hnext] at hx
            cases hx
          · obtain ⟨-, ws, hbuf⟩ := (hnew.ring.key e he).resolve_left fun hzero => hkne hzero.1
            rw [hbuf] at hx
            cases hx

theorem NewNode.only_node {s s' : State w} {p x : Ptr w} {n : Words w} (h : NewNode geo s s' p)
    (hx : s'.heap x = some (.node n)) : (∃ n₀, s.heap x = some (.node n₀)) ∨ x = p := by
  refine (h.only x n hx).imp_left fun hlive => ?_
  cases hobj : s.heap x with
  | none => exact absurd hobj hlive
  | some o =>
    rw [h.kept.heap x o hobj] at hx
    cases hx
    exact ⟨n, rfl⟩

theorem newNode_of_alloc {s s' : State w} {p : Ptr w} (h : cbtreeNodeAlloc geo s = .ok (p, s'))
    (hp : p ≠ 0#w) : NewNode geo s s' p := by
  rcases cbtreeNodeAlloc_cases geo s with hnull | ⟨pool, hfail, -⟩ | ⟨q, s₁, hok, hnew⟩
  · rw [hnull] at h
    cases h
  · rw [hfail] at h
    cases h
    exact absurd rfl hp
  · rw [hok] at h
    cases h
    exact hnew

theorem kept_of_alloc {s s' : State w} {p : Ptr w} (h : cbtreeNodeAlloc geo s = .ok (p, s')) : Kept s s' := by
  rcases cbtreeNodeAlloc_cases geo s with hnull | ⟨pool, hfail, -⟩ | ⟨q, s₁, hok, hnew⟩
  · rw [hnull] at h
    cases h
  · rw [hfail] at h
    cases h
    exact ⟨rfl, fun _ _ hx => hx, id⟩
  · rw [hok] at h
    cases h
    exact hnew.kept

/-- Without the new node there are the old ones only. -/
theorem NewNode.noNew_free {s s₁ s₂ : State w} {p : Ptr w} (h : NewNode geo s s₁ p)
    (hnew : NoNew s₁ s₂) : NoNew s (s₂.setObj p none) := by
  intro x n hx
  rw [State.setObj_heap] at hx
  split at hx
  next => cases hx
  next hxp =>
    obtain ⟨n₁, hx₁⟩ := hnew x n hx
    exact (h.only_node hx₁).resolve_right hxp

end CachedBTree
