import CachedBTree.Caching.Steps
import CachedBTree.Model.Lookup

/-! # `findNode` and `setcache`

What the two functions return and what they leave, for a node whose queue is intact.
A node without a queue stops both of them, and an entry without a key buffer stops
`setcache`: this needs a failed `kmalloc`. -/

namespace CachedBTree

open CachedBTree.Support

variable {w : Nat} {geo : Geo} {s s' : State w} {p q leaf x : Ptr w} {R : Rings w} {key : Words w}
  {e : Entry w} {es : List (Entry w)}

/-! ## What an entry holds -/

/-- The words behind a key pointer. -/
def State.keyBuf (s : State w) (p : Ptr w) : Words w :=
  match s.heap p with
  | some (.buf words) => words
  | _ => fun _ => 0#w

/-- The node is flagged deleted. -/
def State.flagged (geo : Geo) (s : State w) (p : Ptr w) : Bool :=
  match s.heap p with
  | some (.node n) => n (geo.arrLen + 2) = 1#w
  | _ => false

/-- `findNode` stops at this entry: it names a node that is not flagged, and the words of its key
buffer are not the words from `key` on. -/
def answers (geo : Geo) (s : State w) (key : Words w) (e : Entry w) : Bool :=
  decide (e.node ≠ 0#w) && !s.flagged geo e.node &&
    decide (cachelongcmp key (s.keyBuf e.key) geo.arrLen ≠ 0)

/-- The node of the first entry that answers, else `NULL`. -/
def firstAnswer (geo : Geo) (s : State w) (key : Words w) (es : List (Entry w)) : Ptr w :=
  match es.find? (answers geo s key) with
  | some e => e.node
  | none => 0#w

theorem Caches.not_flagged (h : Caches geo s R) (x : Ptr w) : s.flagged geo x = false := by
  unfold State.flagged
  split
  next n hn => exact decide_eq_false (h.idle x n hn)
  next => rfl

/-! ## findNode -/

/-- The loop over the entries. -/
theorem findNodeLoop_eq (geo : Geo) (key : Words w) {last : Ptr w} :
    ∀ {es : List (Entry w)}, Linked s last es → (∀ e ∈ es, e.addr ≠ 0#w) →
    (∀ e ∈ es, e.key = 0#w ∧ e.node = 0#w ∨ e.key ≠ 0#w ∧ ∃ ws, s.heap e.key = some (.buf ws)) →
    (∀ e ∈ es, e.node ≠ 0#w → ∃ n, s.heap e.node = some (.node n)) →
    findNodeLoop key geo.arrLen s es.length (firstAddr last es) = .ok (firstAnswer geo s key es) := by
  intro es
  induction es with
  | nil =>
    intro _ _ _ _
    rfl
  | cons e es ih =>
    intro hlinked haddr hkey hlive
    have hne := haddr e (List.mem_cons_self ..)
    have hnode : s.word e.addr 0 = .ok e.node := State.word_eq_ok.mpr ⟨hne, _, hlinked.1, rfl⟩
    have hnext : s.word e.addr 2 = .ok (firstAddr last es) :=
      State.word_eq_ok.mpr ⟨hne, _, hlinked.1, rfl⟩
    have hrec := ih hlinked.2 (fun a ha => haddr a (by simp [ha])) (fun a ha => hkey a (by simp [ha]))
      fun a ha => hlive a (by simp [ha])
    have hskip : answers geo s key e = false →
        firstAnswer geo s key (e :: es) = firstAnswer geo s key es := fun hno => by
      simp only [firstAnswer, List.find?_cons, hno]
    rw [List.length_cons, findNodeLoop, firstAddr_cons, hnode, ok_bind]
    by_cases hzero : e.node = 0#w
    · rw [if_neg (by simpa using hzero), hnext, ok_bind, hrec, hskip (by simp [answers, hzero])]
    · rw [if_pos hzero]
      obtain ⟨n, hn⟩ := hlive e (List.mem_cons_self ..) hzero
      obtain ⟨hkne, ws, hbuf⟩ := (hkey e (List.mem_cons_self ..)).resolve_left fun hz => hzero hz.2
      have hflag : s.word e.node (geo.arrLen + 2) = .ok (n (geo.arrLen + 2)) :=
        State.word_eq_ok.mpr ⟨hzero, _, hn, rfl⟩
      have hkp : s.word e.addr 1 = .ok e.key := State.word_eq_ok.mpr ⟨hne, _, hlinked.1, rfl⟩
      have hwords : s.keyWords e.key = .ok ws := by simp [State.keyWords, hkne, hbuf]
      have hans : answers geo s key e =
          (!decide (n (geo.arrLen + 2) = 1#w) && decide (cachelongcmp key ws geo.arrLen ≠ 0)) := by
        simp [answers, hzero, State.flagged, hn, State.keyBuf, hbuf]
      simp only [hflag, hkp, hwords, hnext, hrec, ok_bind]
      by_cases hdel : n (geo.arrLen + 2) = 1#w
      · simp only [if_pos hdel, Bool.false_eq_true, if_false]
        rw [hskip (by simp [hans, hdel])]
      · simp only [if_neg hdel, decide_eq_true_eq]
        by_cases hcmp : cachelongcmp key ws geo.arrLen ≠ 0
        · have hyes : answers geo s key e = true := by simp [hans, hdel, hcmp]
          rw [if_pos hcmp, firstAnswer, List.find?_cons, hyes]
        · rw [if_neg hcmp, hskip (by simp [hans, hcmp])]

/-- No entry answers: the second one is the first one now. -/
structure Turned (geo : Geo) (s : State w) (R : Rings w) (p : Ptr w) (s' : State w) : Prop where
  write : CacheWrite geo s s'
  caches : Caches geo s' (Function.update R p ((R p).rotate 1))
  same : ∀ x, (∀ q, s.heap x ≠ some (.queue q)) → s'.heap x = s.heap x
  side : ∀ x, ¬Owns geo s R p x → s'.heap x = s.heap x

theorem findNode_cases {n : Words w} (key : Words w) (h : Caches geo s R)
    (hp : s.heap p = some (.node n)) :
    (findNode p geo.arrLen key geo.arrLen s = .error .nullDeref ∧ s.kfail = true ∧ R p = []) ∨
    (firstAnswer geo s key (R p) ≠ 0#w ∧
      findNode p geo.arrLen key geo.arrLen s = .ok (firstAnswer geo s key (R p), s)) ∨
    (firstAnswer geo s key (R p) = 0#w ∧ R p ≠ [] ∧
      ∃ s', findNode p geo.arrLen key geo.arrLen s = .ok (0#w, s') ∧ Turned geo s R p s') := by
  have hpne : p ≠ 0#w := by
    rintro rfl
    exact h.null n hp
  have hq : s.word p geo.arrLen = .ok (n geo.arrLen) := State.word_eq_ok.mpr ⟨hpne, _, hp, rfl⟩
  unfold findNode
  rw [hq, ok_bind]
  rcases h.ring p n hp with ⟨hzero, hnil, hk⟩ | hring
  · left
    refine ⟨?_, hk, hnil⟩
    rw [hzero]
    simp [State.word]
  right
  obtain ⟨e, es, hes⟩ := List.exists_cons_of_ne_nil hring.ne_nil
  have hhead : s.word (n geo.arrLen) 0 = .ok (firstAddr 0#w (R p)) :=
    State.word_eq_ok.mpr ⟨hring.queue.1, _, hring.queue.2, rfl⟩
  -- the loop looks at each of the four places once
  have hloop := findNodeLoop_eq geo key hring.linked hring.addr_ne hring.key (h.live p)
  rw [hring.length, hes] at hloop
  simp only [firstAddr_cons] at hloop
  rw [hhead, ok_bind, hes, firstAddr_cons, hloop, ok_bind]
  by_cases hans : firstAnswer geo s key (e :: es) = 0#w
  swap
  · exact .inl ⟨hans, by rw [if_pos hans]⟩
  right
  refine ⟨hans, List.cons_ne_nil e es, ?_⟩
  rw [hes] at hring
  -- no hit: the head moves to the next entry
  have hene := hring.addr_ne e (List.mem_cons_self ..)
  have hlast : firstAddr (firstAddr 0#w (e :: es)) es = firstAddr e.addr es := rfl
  have hentry : s.heap e.addr = some (.entry e.node e.key (firstAddr e.addr es)) := hring.linked.1
  have hnext : s.word e.addr 2 = .ok (firstAddr e.addr es) :=
    State.word_eq_ok.mpr ⟨hene, _, hentry, rfl⟩
  have hset : s.setWord (n geo.arrLen) 0 (firstAddr e.addr es) =
      .ok (s.setObj (n geo.arrLen) (some (.queue (firstAddr e.addr es)))) :=
    State.setWord_eq_ok.mpr ⟨hring.queue.1, _, _, hring.queue.2, rfl, rfl⟩
  have hqueue := hring.queue.2
  rw [if_neg (by simpa using hans), hnext, ok_bind, hset]
  refine ⟨_, rfl, ?_⟩
  have hwrite : CacheWrite geo s (s.setObj (n geo.arrLen) (some (.queue (firstAddr e.addr es)))) :=
    CacheWrite.setSide hqueue (by simp) (by simp)
  have hheap : ∀ x, x ≠ n geo.arrLen →
      (s.setObj (n geo.arrLen) (some (.queue (firstAddr e.addr es)))).heap x = s.heap x := fun x hx => by
    rw [State.setObj_heap, if_neg hx]
  -- only the queue itself is written to
  have hnotq : ∀ {x o}, s.heap x = some o → (∀ q, o ≠ .queue q) → x ≠ n geo.arrLen := by
    rintro x o hx ho rfl
    rw [hqueue] at hx
    cases hx
    exact ho _ rfl
  have hpart : Owns geo s R p (n geo.arrLen) := .inl ⟨n, hp, by simp [hes], rfl⟩
  refine ⟨hwrite, ?_, fun x hx => hheap x fun heq => hx _ (heq ▸ hqueue), fun x hx =>
    hheap x fun heq => hx (heq ▸ hpart)⟩
  rw [hes, List.rotate_cons_succ, List.rotate_zero]
  refine h.exchange hwrite hp (hring.turn (v := e.node) (fun hz => ?_) (by simp [State.setObj_heap]) ?_
    (fun hkne => ?_) fun a ha => ⟨?_, fun hkne => ?_⟩) (fun a ha => ?_) fun x o hx ho hown => ?_
  · exact ((hring.key e (List.mem_cons_self ..)).resolve_right fun hk => hk.1 hz).2
  · rw [hheap _ (hnotq hentry (by simp)), hentry]
  · obtain ⟨-, ws, hbuf⟩ := (hring.key e (List.mem_cons_self ..)).resolve_left fun hz => hkne hz.1
    exact ⟨ws, by rw [hheap _ (hnotq hbuf (by simp)), hbuf]⟩
  · obtain ⟨next, ha'⟩ := hring.linked.entry (List.mem_cons_of_mem e ha)
    exact hheap _ (hnotq ha' (by simp))
  · obtain ⟨-, ws, hbuf⟩ := (hring.key a (List.mem_cons_of_mem e ha)).resolve_left fun hz => hkne hz.1
    exact hheap _ (hnotq hbuf (by simp))
  · refine ⟨⟨a.addr, a.node, a.key⟩, ?_, rfl, rfl, .inl rfl⟩
    rw [hes]
    simp only [List.mem_append, List.mem_cons] at ha ⊢
    tauto
  · exact hheap x fun heq => hown (heq ▸ hpart)

/-! ## setcache -/

theorem copyKey_eq {kp : Ptr w} {ws : Words w} (hkp : kp ≠ 0#w) (hbuf : s.heap kp = some (.buf ws)) :
    ∀ n : Nat, copyKey kp key s n = .ok (s.setObj kp (some (.buf (longcpy ws 0 key n)))) := by
  intro n
  induction n with
  | zero =>
    have hsame : s.setObj kp (some (.buf ws)) = s := by
      rw [State.setObj, ← hbuf, Function.update_eq_self]
    rw [copyKey, longcpy, hsame]
  | succ n ih =>
    rw [copyKey, ih, ok_bind]
    refine State.setWord_eq_ok.mpr ⟨hkp, .buf (longcpy ws 0 key n), _, by simp [State.setObj_heap], rfl, ?_⟩
    simp [State.setObj, longcpy]

theorem copyKey_null : ∀ n : Nat, copyKey 0#w key s (n + 1) = .error .nullDeref
  | 0 => by simp [copyKey, State.setWord]
  | n + 1 => by rw [copyKey, copyKey_null n]; rfl

/-- The first part of `setcache`: the old reference goes, the new one comes. -/
def rereference (geo : Geo) (s : State w) (old leaf : Ptr w) : State w :=
  (if old ≠ 0#w then s.addRef geo old (-1#w) else s).addRef geo leaf 1#w

/-- A node is named by the first entry of `p` in place of what was named there before. -/
structure Named (geo : Geo) (s : State w) (R : Rings w) (p leaf : Ptr w) (key : Words w)
    (s' : State w) (R' : Rings w) : Prop where
  write : CacheWrite geo s s'
  caches : Caches geo s' R'
  counted : Counted geo s R → Counted geo s' R'
  entries : ∃ e es, R p = e :: es ∧ R' = Function.update R p (es ++ [⟨e.addr, leaf, e.key⟩]) ∧
    ∀ j, j < geo.keylen → s'.keyBuf e.key j = key j
  other : ∀ q, ∀ a ∈ R q, (q = p → ∀ e ∈ (R p).head?, a ≠ e) → s'.keyBuf a.key = s.keyBuf a.key
  side : ∀ x o, s.heap x = some o → (∀ n, o ≠ .node n) → ¬Owns geo s R p x → s'.heap x = s.heap x

theorem rereference_write {old : Ptr w} (hold : old ≠ 0#w → ∃ n, s.heap old = some (.node n))
    (hleaf : ∃ n, s.heap leaf = some (.node n)) : CacheWrite geo s (rereference geo s old leaf) := by
  obtain ⟨n, hn⟩ := hleaf
  unfold rereference
  by_cases hzero : old = 0#w
  · rw [if_neg (by simpa using hzero)]
    exact CacheWrite.addRef hn
  · rw [if_pos hzero]
    obtain ⟨m, hm⟩ := hold hzero
    have hfirst : CacheWrite geo s (s.addRef geo old (-1#w)) := CacheWrite.addRef hm
    obtain ⟨n', hn', -⟩ := hfirst.node leaf n hn
    exact hfirst.trans (CacheWrite.addRef hn')

/-- Nothing but the two nodes is touched. -/
theorem rereference_heap {old : Ptr w} (hx : ∀ n, s.heap x ≠ some (.node n))
    (hold : old ≠ 0#w → ∃ n, s.heap old = some (.node n)) (hleaf : ∃ n, s.heap leaf = some (.node n)) :
    (rereference geo s old leaf).heap x = s.heap x := by
  obtain ⟨n, hn⟩ := hleaf
  have hxl : x ≠ leaf := by rintro rfl; exact hx n hn
  unfold rereference
  by_cases hzero : old = 0#w
  · rw [if_neg (by simpa using hzero), State.addRef_heap hn hxl]
  · rw [if_pos hzero]
    obtain ⟨m, hm⟩ := hold hzero
    have hxo : x ≠ old := by rintro rfl; exact hx m hm
    have hfirst : CacheWrite geo s (s.addRef geo old (-1#w)) := CacheWrite.addRef hm
    obtain ⟨n', hn', -⟩ := hfirst.node leaf n hn
    rw [State.addRef_heap hn' hxl, State.addRef_heap hm hxo]

theorem rereference_refWord {old : Ptr w} (hold : old ≠ 0#w → ∃ n, s.heap old = some (.node n))
    (hleaf : ∃ n, s.heap leaf = some (.node n)) (hx : x ≠ 0#w) :
    (rereference geo s old leaf).refWord geo x + (if old = x then 1#w else 0#w) =
      s.refWord geo x + if leaf = x then 1#w else 0#w := by
  obtain ⟨n, hn⟩ := hleaf
  unfold rereference
  by_cases hzero : old = 0#w
  · -- no reference is given up
    have hox : old ≠ x := by rw [hzero]; exact hx.symm
    rw [if_neg (by simpa using hzero), State.refWord_addRef hn, if_neg hox]
    by_cases hxl : x = leaf
    · simp [hxl]
    · simp [hxl, Ne.symm hxl]
  · rw [if_pos hzero]
    obtain ⟨m, hm⟩ := hold hzero
    have hfirst : CacheWrite geo s (s.addRef geo old (-1#w)) := CacheWrite.addRef hm
    -- one reference is given up before the other is taken; the two nodes may be the same
    obtain ⟨n', hn', -⟩ := hfirst.node leaf n hn
    rw [State.refWord_addRef hn', State.refWord_addRef hm]
    by_cases hxo : x = old
    · by_cases hxl : x = leaf
      · rw [if_pos hxl, if_pos hxo, if_pos hxo.symm, if_pos hxl.symm, BitVec.add_assoc, BitVec.add_assoc,
          BitVec.add_comm _ (1#w + 1#w), BitVec.add_assoc, ← BitVec.sub_eq_add_neg, BitVec.sub_self,
          BitVec.add_zero]
      · rw [if_neg hxl, if_pos hxo, if_pos hxo.symm, if_neg (Ne.symm hxl), BitVec.add_assoc,
          BitVec.add_comm (-1#w), ← BitVec.sub_eq_add_neg, BitVec.sub_self]
    · by_cases hxl : x = leaf
      · rw [if_pos hxl, if_neg hxo, if_neg (Ne.symm hxo), if_pos hxl.symm, BitVec.add_zero]
      · simp [hxo, hxl, Ne.symm hxo, Ne.symm hxl]

theorem setWord_ref {n : Words w} {d : Word w} (hp : p ≠ 0#w) (hn : s.heap p = some (.node n)) :
    s.setWord p (geo.arrLen + 1) (n (geo.arrLen + 1) + d) = .ok (s.addRef geo p d) := by
  rw [State.addRef_node hn]
  exact State.setWord_eq_ok.mpr ⟨hp, _, _, hn, rfl, rfl⟩

/-- The counts after the exchange of one reference for another. -/
theorem Counted.renamed (h : Counted geo s R) (hw : CacheWrite geo s s') (hR : R p = e :: es)
    (hnull : ∀ n, s.heap 0#w ≠ some (.node n))
    (hrefs : ∀ x, x ≠ 0#w → s'.refWord geo x + (if e.node = x then 1#w else 0#w) =
      s.refWord geo x + if leaf = x then 1#w else 0#w) :
    Counted geo s' (Function.update R p (es ++ [⟨e.addr, leaf, e.key⟩])) := by
  intro x n' hx
  obtain ⟨n, hn⟩ := hw.back x n' hx
  have hxne : x ≠ 0#w := by
    rintro rfl
    exact hnull n hn
  have hword := hrefs x hxne
  rw [State.refWord_node hx, State.refWord_node hn, h x n hn] at hword
  have hcount := tally_update (fun a : Entry w => decide (a.node = x)) R p
    (es ++ [⟨e.addr, leaf, e.key⟩])
  rw [hR, List.countP_append, List.countP_cons, List.countP_singleton] at hcount
  have hnat : refCount (Function.update R p (es ++ [⟨e.addr, leaf, e.key⟩])) x +
      (if e.node = x then 1 else 0) = refCount R x + if leaf = x then 1 else 0 := by
    unfold refCount
    simp only [decide_eq_true_eq] at hcount
    omega
  have hcast := congrArg (BitVec.ofNat w) hnat
  rw [BitVec.ofNat_add, BitVec.ofNat_add, apply_ite (BitVec.ofNat w), apply_ite (BitVec.ofNat w)] at hcast
  exact (BitVec.add_left_inj _).mp (hword.trans hcast.symm)

/-! ## What `setcache` writes -/

/-- The second part of `setcache`, after the two counts. -/
def setcacheWrite (q leaf : Ptr w) (key : Words w) (keyLen : Nat) (s : State w) :
    Except Fault (State w) := do
  let head ← s.word q 0
  let s ← s.setWord head 0 leaf
  let kp ← s.word head 1
  let s ← copyKey kp key s keyLen
  let next ← s.word head 2
  s.setWord q 0 next

/-- The first part exchanges the two references.  No node is flagged, so none is freed. -/
theorem setcache_eq {n : Words w} (h : Caches geo s R) (hp : s.heap p = some (.node n))
    (hring : Ring s (n geo.arrLen) (e :: es))
    (hold : e.node ≠ 0#w → ∃ m, s.heap e.node = some (.node m))
    (hleaf : ∃ m, s.heap leaf = some (.node m)) :
    setcache leaf p key geo.arrLen geo.keylen s =
      setcacheWrite (n geo.arrLen) leaf key geo.keylen (rereference geo s e.node leaf) := by
  have hpne : p ≠ 0#w := by
    rintro rfl
    exact h.null n hp
  obtain ⟨m, hm⟩ := hleaf
  have hlne : leaf ≠ 0#w := by
    rintro rfl
    exact h.null m hm
  have hq : s.word p geo.arrLen = .ok (n geo.arrLen) := State.word_eq_ok.mpr ⟨hpne, _, hp, rfl⟩
  have hhead : s.word (n geo.arrLen) 0 = .ok e.addr :=
    State.word_eq_ok.mpr ⟨hring.queue.1, _, hring.queue.2, rfl⟩
  have hcached : s.word e.addr 0 = .ok e.node :=
    State.word_eq_ok.mpr ⟨hring.addr_ne e (List.mem_cons_self ..), _, hring.linked.1, rfl⟩
  unfold setcache setcacheWrite rereference
  by_cases hzero : e.node = 0#w
  · have hrefs : s.word leaf (geo.arrLen + 1) = .ok (m (geo.arrLen + 1)) :=
      State.word_eq_ok.mpr ⟨hlne, _, hm, rfl⟩
    simp only [hq, hhead, hcached, hzero, ne_eq, not_true_eq_false, if_false, ok_bind, hrefs,
      setWord_ref hlne hm]
  · obtain ⟨o, ho⟩ := hold hzero
    obtain ⟨m', hm', -⟩ := (CacheWrite.addRef (d := -1#w) ho).node leaf m hm
    have hrefs : s.word e.node (geo.arrLen + 1) = .ok (o (geo.arrLen + 1)) :=
      State.word_eq_ok.mpr ⟨hzero, _, ho, rfl⟩
    have hflag : s.word e.node (geo.arrLen + 2) = .ok (o (geo.arrLen + 2)) :=
      State.word_eq_ok.mpr ⟨hzero, _, ho, rfl⟩
    have hnot : ¬(o (geo.arrLen + 1) = 1#w ∧ o (geo.arrLen + 2) = 1#w) := fun hand => h.idle _ o ho hand.2
    have hrefs' : (s.addRef geo e.node (-1#w)).word leaf (geo.arrLen + 1) = .ok (m' (geo.arrLen + 1)) :=
      State.word_eq_ok.mpr ⟨hlne, _, hm', rfl⟩
    simp only [hq, hhead, hcached, ne_eq, hzero, not_false_eq_true, if_true, ok_bind, hrefs, hflag,
      if_neg hnot, BitVec.sub_eq_add_neg, setWord_ref hzero ho, hrefs', setWord_ref hlne hm']

/-- Without a buffer, the first word of the key is written through `NULL`. -/
theorem setcacheWrite_null (hring : Ring s q (e :: es)) (hkey : e.key = 0#w)
    (hold : e.node ≠ 0#w → ∃ m, s.heap e.node = some (.node m))
    (hleaf : ∃ m, s.heap leaf = some (.node m)) :
    setcacheWrite q leaf key geo.keylen (rereference geo s e.node leaf) = .error .nullDeref := by
  have hqueue : (rereference geo s e.node leaf).heap q = some (.queue e.addr) := by
    rw [rereference_heap (by simp [hring.queue.2]) hold hleaf, hring.queue.2, firstAddr_cons]
  have hentry : (rereference geo s e.node leaf).heap e.addr =
      some (.entry e.node e.key (firstAddr e.addr es)) := by
    rw [rereference_heap (by simp [hring.linked.1]) hold hleaf, hring.linked.1, firstAddr_cons]
  generalize rereference geo s e.node leaf = s₁ at *
  have hene := hring.addr_ne e (List.mem_cons_self ..)
  have hhead : s₁.word q 0 = .ok e.addr := State.word_eq_ok.mpr ⟨hring.queue.1, _, hqueue, rfl⟩
  have hname : s₁.setWord e.addr 0 leaf =
      .ok (s₁.setObj e.addr (some (.entry leaf e.key (firstAddr e.addr es)))) :=
    State.setWord_eq_ok.mpr ⟨hene, _, _, hentry, rfl, rfl⟩
  have hkp : (s₁.setObj e.addr (some (.entry leaf e.key (firstAddr e.addr es)))).word e.addr 1 =
      .ok e.key := State.word_eq_ok.mpr ⟨hene, _, by rw [State.setObj_heap, if_pos rfl], rfl⟩
  obtain ⟨k, hkl⟩ : ∃ k, geo.keylen = k + 1 := ⟨geo.keylen - 1, by have := geo.keylen_pos; omega⟩
  rw [setcacheWrite, hhead, ok_bind, hname, ok_bind, hkp, ok_bind, hkey, hkl, copyKey_null, error_bind]

/-- A queue and its first entry, whose key buffer exists. -/
structure Front (s : State w) (q : Ptr w) (e : Entry w) (es : List (Entry w)) (ws : Words w) :
    Prop where
  queue_ne : q ≠ 0#w
  queue : s.heap q = some (.queue e.addr)
  entry_ne : e.addr ≠ 0#w
  entry : s.heap e.addr = some (.entry e.node e.key (firstAddr e.addr es))
  key_ne : e.key ≠ 0#w
  buf : s.heap e.key = some (.buf ws)

theorem Ring.front (h : Ring s q (e :: es)) (hkey : e.key ≠ 0#w) : ∃ ws, Front s q e es ws := by
  obtain ⟨-, ws, hbuf⟩ := (h.key e (List.mem_cons_self ..)).resolve_left fun hz => hkey hz.1
  exact ⟨ws, h.queue.1, h.queue.2, h.addr_ne e (List.mem_cons_self ..), h.linked.1, hkey, hbuf⟩

namespace Front

variable {ws ws' : Words w}

theorem queue_ne_entry (h : Front s q e es ws) : q ≠ e.addr := by
  intro heq
  have hqueue := h.queue
  rw [heq, h.entry] at hqueue
  cases hqueue

theorem queue_ne_key (h : Front s q e es ws) : q ≠ e.key := by
  intro heq
  have hqueue := h.queue
  rw [heq, h.buf] at hqueue
  cases hqueue

theorem key_ne_entry (h : Front s q e es ws) : e.key ≠ e.addr := by
  intro heq
  have hbuf := h.buf
  rw [heq, h.entry] at hbuf
  cases hbuf

/-- The counts are in the nodes. -/
theorem rereferenced (h : Front s q e es ws)
    (hold : e.node ≠ 0#w → ∃ m, s.heap e.node = some (.node m))
    (hleaf : ∃ m, s.heap leaf = some (.node m)) :
    Front (rereference geo s e.node leaf) q e es ws where
  queue_ne := h.queue_ne
  queue := by rw [rereference_heap (by simp [h.queue]) hold hleaf, h.queue]
  entry_ne := h.entry_ne
  entry := by rw [rereference_heap (by simp [h.entry]) hold hleaf, h.entry]
  key_ne := h.key_ne
  buf := by rw [rereference_heap (by simp [h.buf]) hold hleaf, h.buf]

end Front

/-- The first entry takes the leaf and the words of the key, and the next entry is the first. -/
def State.putFirst (s : State w) (q : Ptr w) (e : Entry w) (es : List (Entry w)) (leaf : Ptr w)
    (ws : Words w) : State w :=
  ((s.setObj e.addr (some (.entry leaf e.key (firstAddr e.addr es)))).setObj e.key
    (some (.buf ws))).setObj q (some (.queue (firstAddr e.addr es)))

theorem State.putFirst_heap (s : State w) (q leaf x : Ptr w) (e : Entry w) (es : List (Entry w))
    (ws : Words w) :
    (s.putFirst q e es leaf ws).heap x =
      if x = q then some (.queue (firstAddr e.addr es))
      else if x = e.key then some (.buf ws)
      else if x = e.addr then some (.entry leaf e.key (firstAddr e.addr es)) else s.heap x := by
  rw [State.putFirst, State.setObj_heap, State.setObj_heap, State.setObj_heap]

namespace Front

variable {ws ws' : Words w}

/-- The second part goes through. -/
theorem setcacheWrite_eq (h : Front s q e es ws) (leaf : Ptr w) (key : Words w) (keyLen : Nat) :
    setcacheWrite q leaf key keyLen s = .ok (s.putFirst q e es leaf (longcpy ws 0 key keyLen)) := by
  have hhead : s.word q 0 = .ok e.addr := State.word_eq_ok.mpr ⟨h.queue_ne, _, h.queue, rfl⟩
  -- the entry names the leaf
  have hname : s.setWord e.addr 0 leaf =
      .ok (s.setObj e.addr (some (.entry leaf e.key (firstAddr e.addr es)))) :=
    State.setWord_eq_ok.mpr ⟨h.entry_ne, _, _, h.entry, rfl, rfl⟩
  rw [setcacheWrite, hhead, ok_bind, hname, ok_bind, State.putFirst]
  have hentry₁ : (s.setObj e.addr (some (.entry leaf e.key (firstAddr e.addr es)))).heap e.addr =
      some (.entry leaf e.key (firstAddr e.addr es)) := by rw [State.setObj_heap, if_pos rfl]
  have hother₁ : ∀ x, x ≠ e.addr →
      (s.setObj e.addr (some (.entry leaf e.key (firstAddr e.addr es)))).heap x = s.heap x :=
    fun x hx => by rw [State.setObj_heap, if_neg hx]
  generalize s.setObj e.addr (some (.entry leaf e.key (firstAddr e.addr es))) = s₁ at *
  have hkp : s₁.word e.addr 1 = .ok e.key := State.word_eq_ok.mpr ⟨h.entry_ne, _, hentry₁, rfl⟩
  -- the buffer takes the key
  rw [hkp, ok_bind, copyKey_eq h.key_ne (by rw [hother₁ _ h.key_ne_entry, h.buf]) keyLen, ok_bind]
  have hother₂ : ∀ x, x ≠ e.key →
      (s₁.setObj e.key (some (.buf (longcpy ws 0 key keyLen)))).heap x = s₁.heap x :=
    fun x hx => by rw [State.setObj_heap, if_neg hx]
  generalize s₁.setObj e.key (some (.buf (longcpy ws 0 key keyLen))) = s₂ at *
  have hnext : s₂.word e.addr 2 = .ok (firstAddr e.addr es) :=
    State.word_eq_ok.mpr ⟨h.entry_ne, _, by rw [hother₂ _ h.key_ne_entry.symm, hentry₁], rfl⟩
  have hqueue : s₂.heap q = some (.queue e.addr) := by
    rw [hother₂ _ h.queue_ne_key, hother₁ _ h.queue_ne_entry, h.queue]
  -- the head moves on
  rw [hnext, ok_bind]
  exact State.setWord_eq_ok.mpr ⟨h.queue_ne, _, _, hqueue, rfl, rfl⟩

theorem putFirst_write (h : Front s q e es ws) (leaf : Ptr w) (ws' : Words w) :
    CacheWrite geo s (s.putFirst q e es leaf ws') := by
  have hkey : (s.setObj e.addr (some (.entry leaf e.key (firstAddr e.addr es)))).heap e.key =
      some (.buf ws) := by rw [State.setObj_heap, if_neg h.key_ne_entry, h.buf]
  have hqueue : ((s.setObj e.addr (some (.entry leaf e.key (firstAddr e.addr es)))).setObj e.key
      (some (.buf ws'))).heap q = some (.queue e.addr) := by
    rw [State.setObj_heap, if_neg h.queue_ne_key, State.setObj_heap, if_neg h.queue_ne_entry, h.queue]
  exact ((CacheWrite.setSide h.entry (by simp) (by simp)).trans
    (CacheWrite.setSide hkey (by simp) (by simp))).trans (CacheWrite.setSide hqueue (by simp) (by simp))

/-- None of the three objects is a node. -/
theorem putFirst_refWord (h : Front s q e es ws) (geo : Geo) (x : Ptr w) :
    (s.putFirst q e es leaf ws').refWord geo x = s.refWord geo x := by
  unfold State.refWord
  rw [State.putFirst_heap]
  by_cases hxq : x = q
  · rw [if_pos hxq, hxq, h.queue]
  · by_cases hxk : x = e.key
    · rw [if_neg hxq, if_pos hxk, hxk, h.buf]
    · by_cases hxa : x = e.addr
      · rw [if_neg hxq, if_neg hxk, if_pos hxa, hxa, h.entry]
      · rw [if_neg hxq, if_neg hxk, if_neg hxa]

/-- The other entries of the ring and their buffers are none of the three objects. -/
theorem rest_kept (h : Front s q e es ws) (hring : Ring s q (e :: es))
    (hsame : ∀ x, (∀ m, s.heap x ≠ some (.node m)) → x ≠ q → x ≠ e.key → x ≠ e.addr →
      s'.heap x = s.heap x) :
    ∀ a ∈ es, s'.heap a.addr = s.heap a.addr ∧ (a.key ≠ 0#w → s'.heap a.key = s.heap a.key) := by
  intro a ha
  obtain ⟨next, ha'⟩ := hring.linked.entry (List.mem_cons_of_mem e ha)
  have hnodup := hring.addrs
  rw [List.map_cons, List.nodup_cons] at hnodup
  constructor
  · apply hsame _ (by simp [ha'])
    · intro heq
      rw [heq, h.queue] at ha'
      cases ha'
    · intro heq
      rw [heq, h.buf] at ha'
      cases ha'
    · exact fun heq => hnodup.1 (heq ▸ List.mem_map_of_mem ha)
  · intro hkne
    obtain ⟨-, ws', hbuf'⟩ :=
      (hring.key a (List.mem_cons_of_mem e ha)).resolve_left fun hz => hkne hz.1
    apply hsame _ (by simp [hbuf']) _ (hring.key_ne ha h.key_ne)
    · intro heq
      rw [heq, h.entry] at hbuf'
      cases hbuf'
    · intro heq
      rw [heq, h.queue] at hbuf'
      cases hbuf'

/-- The parts of the queue that are written to belong to the node. -/
theorem owns {n : Words w} (h : Front s (n geo.arrLen) e es ws) (hp : s.heap p = some (.node n))
    (hes : R p = e :: es) :
    Owns geo s R p (n geo.arrLen) ∧ Owns geo s R p e.key ∧ Owns geo s R p e.addr := by
  have he : e ∈ R p := by
    rw [hes]
    exact List.mem_cons_self ..
  exact ⟨.inl ⟨n, hp, List.ne_nil_of_mem he, rfl⟩, .inr ⟨e, he, .inr ⟨h.key_ne, rfl⟩⟩,
    .inr ⟨e, he, .inl rfl⟩⟩

/-- The other entries, of this queue and of all others, have buffers of their own. -/
theorem buffers_kept {n : Words w} {b : Ptr w} {a : Entry w} (h : Front s (n geo.arrLen) e es ws)
    (hc : Caches geo s R) (hp : s.heap p = some (.node n)) (hes : R p = e :: es)
    (hring : Ring s (n geo.arrLen) (e :: es))
    (hsame : ∀ x, (∀ m, s.heap x ≠ some (.node m)) → x ≠ n geo.arrLen → x ≠ e.key → x ≠ e.addr →
      s'.heap x = s.heap x)
    (ha : a ∈ R b) (hae : b = p → a ≠ e) : s'.heap a.key = s.heap a.key := by
  by_cases hzero : a.key = 0#w
  · rw [hzero]
    exact hsame _ hc.null h.queue_ne.symm h.key_ne.symm h.entry_ne.symm
  have howna : Owns geo s R b a.key := .inr ⟨a, ha, .inr ⟨hzero, rfl⟩⟩
  by_cases hbp : b = p
  · subst hbp
    have haes : a ∈ es := by
      rw [hes] at ha
      cases List.mem_cons.mp ha with
      | inl heq =>
        exact absurd heq (hae rfl)
      | inr hmem =>
        exact hmem
    exact (h.rest_kept hring hsame a haes).2 hzero
  · -- the objects of two queues are different ones
    have hown := h.owns hp hes
    obtain ⟨o, ho, hside⟩ := hc.owns_object howna
    apply hsame _ (fun m hm => hside m (Option.some.inj (ho.symm.trans hm)))
    · exact fun heq => hbp (hc.apart b p _ howna (heq ▸ hown.1))
    · exact fun heq => hbp (hc.apart b p _ howna (heq ▸ hown.2.1))
    · exact fun heq => hbp (hc.apart b p _ howna (heq ▸ hown.2.2))

/-- What `setcache` leaves when it goes through. -/
theorem named {n : Words w} (h : Front s (n geo.arrLen) e es ws) (hc : Caches geo s R)
    (hp : s.heap p = some (.node n)) (hes : R p = e :: es) (hring : Ring s (n geo.arrLen) (e :: es))
    (hleaf : ∃ m, s.heap leaf = some (.node m)) (key : Words w) :
    Named geo s R p leaf key
      ((rereference geo s e.node leaf).putFirst (n geo.arrLen) e es leaf (longcpy ws 0 key geo.keylen))
      (Function.update R p (es ++ [⟨e.addr, leaf, e.key⟩])) := by
  have hold : e.node ≠ 0#w → ∃ m, s.heap e.node = some (.node m) :=
    hc.live p e (by rw [hes]; exact List.mem_cons_self ..)
  have hreref : CacheWrite geo s (rereference geo s e.node leaf) := rereference_write hold hleaf
  have hfront : Front (rereference geo s e.node leaf) (n geo.arrLen) e es ws :=
    h.rereferenced hold hleaf
  have hwrite := hreref.trans (hfront.putFirst_write leaf (longcpy ws 0 key geo.keylen))
  have hheap := fun x => State.putFirst_heap (rereference geo s e.node leaf) (n geo.arrLen)
    leaf x e es (longcpy ws 0 key geo.keylen)
  have hsame : ∀ x, (∀ m, s.heap x ≠ some (.node m)) → x ≠ n geo.arrLen → x ≠ e.key → x ≠ e.addr →
      ((rereference geo s e.node leaf).putFirst (n geo.arrLen) e es leaf
        (longcpy ws 0 key geo.keylen)).heap x = s.heap x := fun x hx hxq hxk hxa => by
    rw [hheap, if_neg hxq, if_neg hxk, if_neg hxa, rereference_heap hx hold hleaf]
  have hrefs : ∀ x, x ≠ 0#w →
      ((rereference geo s e.node leaf).putFirst (n geo.arrLen) e es leaf
        (longcpy ws 0 key geo.keylen)).refWord geo x + (if e.node = x then 1#w else 0#w) =
      s.refWord geo x + if leaf = x then 1#w else 0#w := fun x hx => by
    rw [hfront.putFirst_refWord, rereference_refWord hold hleaf hx]
  generalize (rereference geo s e.node leaf).putFirst (n geo.arrLen) e es leaf
    (longcpy ws 0 key geo.keylen) = s' at *
  have hside : ∀ x o, s.heap x = some o → (∀ n, o ≠ .node n) → ¬Owns geo s R p x →
      s'.heap x = s.heap x := by
    intro x o hx ho hnot
    have hown := h.owns hp hes
    apply hsame x fun m hm => ho m (Option.some.inj (hx.symm.trans hm))
    · exact fun heq => hnot (heq ▸ hown.1)
    · exact fun heq => hnot (heq ▸ hown.2.1)
    · exact fun heq => hnot (heq ▸ hown.2.2)
  have hbuf : s'.heap e.key = some (.buf (longcpy ws 0 key geo.keylen)) := by
    rw [hheap, if_neg h.queue_ne_key.symm, if_pos rfl]
  have hturn : Ring s' (n geo.arrLen) (es ++ [⟨e.addr, leaf, e.key⟩]) := by
    apply hring.turn (fun hz => absurd hz h.key_ne) _ _ (fun _ => ⟨_, hbuf⟩) (h.rest_kept hring hsame)
    · rw [hheap, if_pos rfl]
    · rw [hheap, if_neg h.queue_ne_entry.symm, if_neg h.key_ne_entry.symm, if_pos rfl]
  constructor
  case write => exact hwrite
  case caches =>
    refine hc.exchange hwrite hp hturn (fun a ha => ?_) hside
    cases List.mem_append.mp ha with
    | inl hmem =>
      exact ⟨a, by rw [hes]; exact List.mem_cons_of_mem e hmem, rfl, rfl, .inl rfl⟩
    | inr hmem =>
      rw [List.mem_singleton.mp hmem]
      exact ⟨e, by rw [hes]; exact List.mem_cons_self .., rfl, rfl, .inr hleaf⟩
  case counted => exact fun hcount => hcount.renamed hwrite hes hc.null hrefs
  case entries =>
    refine ⟨e, es, hes, rfl, fun j hj => ?_⟩
    simp only [State.keyBuf, hbuf, longcpy_apply]
    rw [if_pos (by omega)]
    simp
  case other =>
    intro b a ha hae
    have hkept := h.buffers_kept hc hp hes hring hsame ha fun hb => hae hb e (by simp [hes])
    simp only [State.keyBuf, hkept]
  case side => exact hside

end Front

theorem setcache_cases {n : Words w} (key : Words w) (h : Caches geo s R)
    (hp : s.heap p = some (.node n)) (hleaf : ∃ m, s.heap leaf = some (.node m)) :
    (setcache leaf p key geo.arrLen geo.keylen s = .error .nullDeref ∧ s.kfail = true ∧
      ∀ e ∈ (R p).head?, e.key = 0#w) ∨
    ∃ s' R', setcache leaf p key geo.arrLen geo.keylen s = .ok s' ∧ Named geo s R p leaf key s' R' := by
  cases h.ring p n hp with
  | inl hnone =>
    -- no queue
    obtain ⟨hzero, hnil, hk⟩ := hnone
    have hpne : p ≠ 0#w := by
      rintro rfl
      exact h.null n hp
    have hq : s.word p geo.arrLen = .ok (n geo.arrLen) := State.word_eq_ok.mpr ⟨hpne, _, hp, rfl⟩
    left
    refine ⟨?_, hk, by simp [hnil]⟩
    unfold setcache
    rw [hq, ok_bind, hzero]
    simp [State.word]
  | inr hring =>
    obtain ⟨e, es, hes⟩ := List.exists_cons_of_ne_nil hring.ne_nil
    have hmem : e ∈ R p := by
      rw [hes]
      exact List.mem_cons_self ..
    rw [hes] at hring
    rw [setcache_eq h hp hring (h.live p e hmem) hleaf]
    by_cases hkzero : e.key = 0#w
    · -- no key buffer
      left
      refine ⟨?_, ?_, by simpa [hes] using hkzero⟩
      · exact setcacheWrite_null hring hkzero (h.live p e hmem) hleaf
      · by_contra hfalse
        exact h.keyed (by simpa using hfalse) p e hmem hkzero
    · right
      obtain ⟨ws, hfront⟩ := hring.front hkzero
      exact ⟨_, _, (hfront.rereferenced (h.live p e hmem) hleaf).setcacheWrite_eq leaf key geo.keylen,
        hfront.named h hp hes hring hleaf key⟩

end CachedBTree
