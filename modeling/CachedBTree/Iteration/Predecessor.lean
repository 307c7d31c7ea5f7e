import CachedBTree.Contents
import CachedBTree.Model.Iterate
import CachedBTree.Removal.Absent

/-! # `cbtree_get_prev`

One way down either finds the greatest entry up to the key, or ends with a separator below
which nothing has been looked at yet, or shows that there is no such entry.  The search is
taken up again below the separator, so it goes through smaller and smaller keys.  With a
separator of key 0 at the root it does not stop there: the key wraps around and the search
finds the greatest entry of all. -/

namespace CachedBTree

open CachedBTree.Support

variable {w : Nat} {geo : Geo} {s s' s₀ : State w} {p : Ptr w} {G : Labels w} {m r : Nat} {key : Words w}

/-! ## dec_key -/

theorem decKeyLoop_apply : ∀ {i j : Nat} {key : Words w}, i ≤ j → decKeyLoop i key j = key j
  | 0, _, _, _ => rfl
  | i + 1, j, key, hij => by
    have hne : j ≠ i := by omega
    rw [decKeyLoop]
    split
    next => exact Function.update_of_ne hne _ _
    next => rw [decKeyLoop_apply (by omega), Function.update_of_ne hne]

theorem toNat_zero_sub_one (w : Nat) : (0#w - 1#w).toNat = 2 ^ w - 1 := by
  cases w with
  | zero => rfl
  | succ w =>
    have hone : 1 < 2 ^ (w + 1) := Nat.one_lt_two_pow (Nat.succ_ne_zero w)
    simp only [BitVec.toNat_sub, BitVec.toNat_ofNat, Nat.zero_mod, Nat.add_zero, Nat.mod_eq_of_lt hone]
    exact Nat.mod_eq_of_lt (by omega)

theorem toNat_sub_one {v : Word w} (hv : v ≠ 0#w) : (v - 1#w).toNat = v.toNat - 1 := by
  have hpos : 0 < v.toNat := Nat.pos_of_ne_zero fun h => hv (BitVec.eq_of_toNat_eq (by simpa using h))
  have hlt := v.isLt
  have hone : 1 % 2 ^ w = 1 := Nat.mod_eq_of_lt (by omega)
  rw [BitVec.toNat_sub, BitVec.toNat_ofNat, hone, show 2 ^ w - 1 + v.toNat = v.toNat - 1 + 2 ^ w by omega,
    Nat.add_mod_right]
  exact Nat.mod_eq_of_lt (by omega)

/-- The digit 0 at the end becomes the greatest one, and one is taken from the number before. -/
theorem borrow_last {b : Nat} (hb : 0 < b) (n x : Nat) :
    (if x = 0 then b ^ n - 1 else x - 1) * b + (b - 1) =
      if x * b + (0#w).toNat = 0 then b ^ (n + 1) - 1 else x * b + (0#w).toNat - 1 := by
  have hzero : (0#w).toNat = 0 := by simp
  rw [hzero, Nat.add_zero]
  cases x with
  | zero =>
    obtain ⟨y, hy⟩ : ∃ y, b ^ n = y + 1 := ⟨b ^ n - 1, by have := Nat.pow_pos (n := n) hb; omega⟩
    rw [if_pos rfl, if_pos (Nat.zero_mul b), pow_succ, hy, Nat.add_sub_cancel, Nat.succ_mul]
    omega
  | succ x =>
    have hpos : 0 < (x + 1) * b := Nat.mul_pos (Nat.succ_pos x) hb
    rw [if_neg (Nat.succ_ne_zero x), if_neg (by omega), Nat.add_sub_cancel, Nat.succ_mul]
    omega

/-- The words before `n`, read as a number, are lowered by one, or wrap around. -/
theorem numeral_decKeyLoop : ∀ (n : Nat) (key : Words w),
    numeral (2 ^ w) (fun j => (decKeyLoop n key j).toNat) 0 n =
      if numeral (2 ^ w) (fun j => (key j).toNat) 0 n = 0 then (2 ^ w) ^ n - 1
      else numeral (2 ^ w) (fun j => (key j).toNat) 0 n - 1 := by
  intro n
  induction n with
  | zero =>
    intro key
    simp [numeral]
  | succ n ih =>
    intro key
    rw [numeral_succ_last, numeral_succ_last, decKeyLoop, Nat.zero_add]
    -- the words before word `n` are the same
    have hsame : numeral (2 ^ w) (fun j => (Function.update key n (key n - 1#w) j).toNat) 0 n =
        numeral (2 ^ w) (fun j => (key j).toNat) 0 n :=
      numeral_congr fun j _ hj => by rw [Function.update_of_ne (show j ≠ n by omega)]
    by_cases hzero : key n = 0#w
    · -- a borrow from the words before
      have hlast : (decKeyLoop n (Function.update key n (key n - 1#w)) n).toNat = 2 ^ w - 1 := by
        rw [decKeyLoop_apply le_rfl, Function.update_self, hzero]
        exact toNat_zero_sub_one w
      rw [if_neg (not_not.mpr hzero), ih, hsame, hlast, hzero]
      exact borrow_last (Nat.two_pow_pos w) _ _
    · have hpos : 0 < (key n).toNat := Nat.pos_of_ne_zero fun h => hzero (BitVec.eq_of_toNat_eq (by simpa using h))
      have hlast : (Function.update key n (key n - 1#w) n).toNat = (key n).toNat - 1 := by
        rw [Function.update_self]
        exact toNat_sub_one hzero
      rw [if_pos hzero, hsame, hlast, if_neg (by omega)]
      omega

/-- The number that `n` words stand for, the first one most significant. -/
def wordsNum (n : Nat) (key : Words w) : Nat := numeral (2 ^ w) (fun j => (key j).toNat) 0 n

theorem wordsNum_lt (n : Nat) (key : Words w) : wordsNum n key < 2 ^ (w * n) := by
  rw [Nat.pow_mul]
  exact numeral_lt (fun j => (key j).isLt) 0 n

theorem longcmp_wordsNum (n : Nat) (l1 l2 : Words w) : longcmp l1 l2 n =
    if wordsNum n l1 < wordsNum n l2 then -1 else if wordsNum n l2 < wordsNum n l1 then 1 else 0 :=
  longcmpLoop_eq l1 l2 0 n

theorem longcmp_neg (n : Nat) (l1 l2 : Words w) : longcmp l1 l2 n < 0 ↔ wordsNum n l1 < wordsNum n l2 := by
  rw [longcmp_wordsNum]
  split
  next hlt => simp [hlt]
  next hge =>
    split
    next => simp [hge]
    next => simp [hge]

theorem wordsNum_eq_zero {n : Nat} {key : Words w} : wordsNum n key = 0 ↔ ∀ j, j < n → key j = 0#w := by
  constructor
  · intro hzero j hj
    have hdigits := numeral_inj (b := 2 ^ w) (d := fun j => (key j).toNat) (e := fun _ => 0) (i := 0) (n := n)
      (fun j => (key j).isLt) (fun _ => Nat.two_pow_pos w) (hzero.trans (numeral_zero 0 n).symm) j (Nat.zero_le j)
      (by omega)
    exact BitVec.eq_of_toNat_eq (by simpa using hdigits)
  · intro hall
    refine (numeral_congr fun j _ hj => ?_).trans (numeral_zero 0 n)
    rw [hall j (by omega)]
    simp

/-- The loop of `dec_key` over `n` words takes one from the number they stand for. -/
theorem wordsNum_decKeyLoop (n : Nat) (key : Words w) :
    wordsNum n (decKeyLoop n key) = (wordsNum n key + (2 ^ (w * n) - 1)) % 2 ^ (w * n) := by
  have hlt := wordsNum_lt n key
  have hdec : wordsNum n (decKeyLoop n key) =
      if wordsNum n key = 0 then 2 ^ (w * n) - 1 else wordsNum n key - 1 := by
    rw [Nat.pow_mul]
    exact numeral_decKeyLoop n key
  rw [hdec]
  split
  next hzero => rw [hzero, Nat.zero_add, Nat.mod_eq_of_lt (by omega)]
  next hpos =>
    rw [show wordsNum n key + (2 ^ (w * n) - 1) = wordsNum n key - 1 + 2 ^ (w * n) by omega, Nat.add_mod_right]
    exact (Nat.mod_eq_of_lt (by omega)).symm

/-- `longcmp` orders keys of any length as the numbers they stand for, and `dec_key` goes to the number
before: a key that is not all zero has no key between it and the result. -/
theorem decKey_predecessor (n : Nat) :
    (∀ l1 l2 : Words w, longcmp l1 l2 n =
      if wordsNum n l1 < wordsNum n l2 then -1 else if wordsNum n l2 < wordsNum n l1 then 1 else 0) ∧
    (∀ geo : Geo, geo.keylen = n → ∀ key : Words w, decKey geo key = decKeyLoop n key) ∧
    ∀ key : Words w,
      wordsNum n (decKeyLoop n key) = (wordsNum n key + (2 ^ (w * n) - 1)) % 2 ^ (w * n) ∧
      ((∃ j < n, key j ≠ 0#w) → longcmp (decKeyLoop n key) key n < 0 ∧
        ∀ between : Words w, ¬(longcmp (decKeyLoop n key) between n < 0 ∧ longcmp between key n < 0)) := by
  refine ⟨longcmp_wordsNum n, ?_, fun key => ⟨wordsNum_decKeyLoop n key, ?_⟩⟩
  · rintro geo rfl key
    rfl
  · rintro ⟨j, hj, hne⟩
    have hpos : wordsNum n key ≠ 0 := fun hzero => hne (wordsNum_eq_zero.mp hzero j hj)
    have hlt := wordsNum_lt n key
    have hdec : wordsNum n (decKeyLoop n key) = wordsNum n key - 1 := by
      rw [wordsNum_decKeyLoop, show wordsNum n key + (2 ^ (w * n) - 1) = wordsNum n key - 1 + 2 ^ (w * n) by omega,
        Nat.add_mod_right]
      exact Nat.mod_eq_of_lt (by omega)
    refine ⟨(longcmp_neg n _ _).mpr (by omega), fun between hbetween => ?_⟩
    have hlow := (longcmp_neg n _ _).mp hbetween.1
    have hhigh := (longcmp_neg n _ _).mp hbetween.2
    omega

/-- A borrow through two zero words. -/
theorem decKey_predecessor_borrow : longcmp (decKeyLoop 3 fun j => if j = 0 then 1#64 else 0#64)
      (fun j => if j = 0 then 1#64 else 0#64) 3 < 0 :=
  (((decKey_predecessor (w := 64) 3).2.2 _).2 ⟨0, by decide, by decide⟩).1

theorem keyNum_decKey (geo : Geo) (key : Words w) : keyNum geo (decKey geo key) =
    if keyNum geo key = 0 then geo.keyBound w - 1 else keyNum geo key - 1 :=
  numeral_decKeyLoop geo.keylen key

/-! ## Entries below a node -/

namespace Tree

theorem entriesBelow_ne_nil (h : Tree geo m r 1 s G) (hm : 1 ≤ m) (hr : 1 ≤ r) : ∀ {d : Nat} {p : Ptr w},
    (G p).lvl = d + 1 → (d = 0 → p ≠ s.node) → entriesBelow geo s (d + 1) p ≠ [] := by
  intro d
  induction d with
  | zero =>
    intro p hp hne
    rw [entriesBelow, h.page_eq (by omega)]
    have := h.fill p (by omega) (hne rfl)
    exact List.ne_nil_of_length_pos (by omega)
  | succ d ih =>
    intro p hp _
    obtain ⟨⟨k, c⟩, hmem⟩ := List.exists_mem_of_ne_nil _
      (h.inner_page_ne_nil hm hr (by omega) (by omega : 2 ≤ (G p).lvl))
    have hclvl := (h.child_of_mem (by omega) (by omega) hmem).1
    have hlt := h.lvl_le p
    obtain ⟨e, he⟩ := List.exists_mem_of_ne_nil _
      (ih (p := c) (by omega) fun _ => h.ne_root (by omega))
    rw [entriesBelow, h.page_eq (by omega)]
    exact List.ne_nil_of_mem (List.mem_flatMap.mpr ⟨(k, c), hmem, he⟩)

/-- A key that cuts the page of a node in front of a child cuts the entries around those of the child. -/
theorem entriesBelow_cut {d k K : Nat} {c : Ptr w} {l₁ l₂ : Page w} (h : Tree geo m r 1 s G)
    (hp : (G p).lvl = d + 2) (hpage : (G p).page = l₁ ++ (k, c) :: l₂) (h₁ : ∀ e ∈ l₁, K < e.1) :
    ∃ A B, entriesBelow geo s (d + 2) p = A ++ entriesBelow geo s (d + 1) c ++ B ∧
      (∀ e ∈ A, K < e.1) ∧ ∀ e ∈ B, e.1 < k := by
  refine ⟨l₁.flatMap fun e => entriesBelow geo s (d + 1) e.2,
    l₂.flatMap fun e => entriesBelow geo s (d + 1) e.2, ?_, fun e he => ?_, fun e he => ?_⟩
  · rw [entriesBelow, h.page_eq (by omega), hpage, List.flatMap_append, List.flatMap_cons,
      List.append_assoc]
  · obtain ⟨⟨k', c'⟩, hmem, (hbelow : e ∈ entriesBelow geo s (d + 1) c')⟩ := List.mem_flatMap.mp he
    obtain ⟨hlvl, -, hlo, -⟩ := h.child_of_mem (p := p) (k := k') (c := c') (by omega) (by omega)
      (by rw [hpage]; simp [hmem])
    have := (h.entriesBelow_interval (by omega) hbelow).1
    have := h₁ (k', c') hmem
    simp only at this
    omega
  · obtain ⟨⟨k', c'⟩, hmem, (hbelow : e ∈ entriesBelow geo s (d + 1) c')⟩ := List.mem_flatMap.mp he
    obtain ⟨l₃, l₄, rfl⟩ := List.append_of_mem hmem
    have hpage' : (G p).page = (l₁ ++ (k, c) :: l₃) ++ (k', c') :: l₄ := by
      rw [hpage, List.append_assoc, List.cons_append]
    obtain ⟨hlvl, -, -, -, hhi⟩ := h.child (by omega) (by omega) hpage'
    have hchain := h.chain p (by omega)
    rw [hpage, ← List.cons_append, ← List.append_assoc] at hchain
    have hend := (chain_append.mp hchain).1.endKey_le_of_mem (e := (k, c)) (by simp)
    have := (h.entriesBelow_interval (by omega) hbelow).2
    simp only at hend
    omega

end Tree

/-! ## One way down -/

/-- How a way down for `key` ends at `miss:` or with a value, for a node with the page `page` and the
entries `es` below it. -/
inductive Passed (geo : Geo) (s : State w) (key : Words w) (page es : Page w) (retry : Option (KeyPtr w)) :
    Option (Ptr w × Words w) × Option (KeyPtr w) → Prop where
  /-- The greatest entry up to the key. -/
  | found (v : Ptr w) (k : Words w) (A B : Page w) (kp : Option (KeyPtr w))
      (split : es = A ++ (keyNum geo k, v) :: B) (above : ∀ e ∈ A, keyNum geo key < e.1)
      (le : keyNum geo k ≤ keyNum geo key) : Passed geo s key page es retry (some (v, k), kp)
  /-- No slot leads on. -/
  | above (entries : ∀ e ∈ es, keyNum geo key < e.1) (keys : ∀ e ∈ page, keyNum geo key < e.1) :
      Passed geo s key page es retry (none, retry)
  /-- No entry between the separator `k` and the key. -/
  | below (kp : KeyPtr w) (k : Nat) (A B : Page w) (reads : Reads geo s kp k) (le : k ≤ keyNum geo key)
      (split : es = A ++ B) (ne : A ≠ []) (above : ∀ e ∈ A, keyNum geo key < e.1)
      (below : ∀ e ∈ B, e.1 < k) (slot : ∃ e ∈ page, e.1 ≤ k) :
      Passed geo s key page es retry (none, some kp)

theorem getPrevDescent_passed (key : Words w) (h : Tree geo m r 1 s G) (hm : 1 ≤ m) (hr : 1 ≤ r) :
    ∀ {d : Nat} {p : Ptr w} (retry : Option (KeyPtr w)), (G p).lvl = d + 1 →
    ∃ res, (getPrevDescent geo key d p retry s >>= getPrevLeaf geo key s) = .ok res ∧
      Passed geo s key (G p).page (entriesBelow geo s (d + 1) p) retry res := by
  intro d
  induction d with
  | zero =>
    intro p retry hp
    obtain ⟨n, -, hload, hholds⟩ := h.load (p := p) (by omega)
    rw [entriesBelow, h.page_eq (by omega), getPrevDescent, ok_bind, getPrevLeaf,
      if_neg (h.ne_null (by omega)), hload, ok_bind]
    rcases hholds.misses_or (h.chain p (by omega)).descending key with
      ⟨hmiss, -, hall⟩ | ⟨l₁, k, v, l₂, hpage, h₁, hk, hfound, hpos, hval, hkey⟩
    · refine ⟨_, ?_, .above hall hall⟩
      by_cases hfull : getpos geo n key = geo.noPairs
      · exact if_pos hfull
      · exact (if_neg hfull).trans (if_pos (hmiss.resolve_left hfull))
    · obtain ⟨hfull, hne⟩ := not_or.mp hfound
      refine ⟨_, (if_neg hfull).trans (if_neg hne), ?_⟩
      rw [hpos, hval]
      exact .found v _ l₁ l₂ retry (by rw [hkey]; exact hpage) h₁ (by rw [hkey]; exact hk)
  | succ d ih =>
    intro p retry hp
    obtain ⟨n, -, hload, hholds⟩ := h.load (p := p) (by omega)
    rw [getPrevDescent, hload, ok_bind]
    rcases hholds.misses_or (h.chain p (by omega)).descending key with
      ⟨hmiss, -, hall⟩ | ⟨l₁, k, c, l₂, hpage, h₁, hk, hfound, hpos, hval, hkey⟩
    · refine ⟨(none, retry), ?_, .above (fun e he => ?_) hall⟩
      · by_cases hfull : getpos geo n key = geo.noPairs
        · rw [if_pos hfull]
          rfl
        · rw [if_neg hfull, if_pos (hmiss.resolve_left hfull)]
          rfl
      · -- an entry lies above the separator of its subtree
        rw [entriesBelow, h.page_eq (by omega)] at he
        obtain ⟨⟨k, c⟩, hmem, (hbelow : e ∈ entriesBelow geo s (d + 1) c)⟩ := List.mem_flatMap.mp he
        obtain ⟨hlvl, -, hlo, -⟩ := h.child_of_mem (by omega) (by omega) hmem
        have := (h.entriesBelow_interval (by omega) hbelow).1
        have := hall (k, c) hmem
        simp only at this
        omega
    · obtain ⟨hfull, hne⟩ := not_or.mp hfound
      have hclvl := (h.child (by omega) (by omega) hpage).1
      have hlo := (h.child (by omega) (by omega) hpage).2.2.1
      have hreads : Reads geo s (.slot p l₁.length) k := ⟨bkey geo n l₁.length, by simp [KeyPtr.read, hload], hkey⟩
      rw [if_neg hfull, if_neg hne, hpos, hval]
      obtain ⟨res, hrun, hpassed⟩ := ih (p := c) (some (.slot p l₁.length)) (by omega)
      obtain ⟨A, B, hsplit, hA, hB⟩ := h.entriesBelow_cut hp hpage h₁
      refine ⟨res, hrun, ?_⟩
      cases hpassed with
      | found v k' A' B' kp split above le =>
        refine .found v k' (A ++ A') (B' ++ B) kp ?_ ?_ le
        · rw [hsplit, split]
          simp
        · simp only [List.mem_append]
          rintro e (he | he)
          · exact hA e he
          · exact above e he
      | above entries keys =>
        refine .below _ k (A ++ entriesBelow geo s (d + 1) c) B hreads hk hsplit ?_ ?_ hB ⟨(k, c), ?_, le_rfl⟩
        · have hcne := h.entriesBelow_ne_nil hm hr (d := d) (p := c) (by omega)
            fun _ => h.ne_root (by have := h.lvl_le p; omega)
          simp [hcne]
        · simp only [List.mem_append]
          rintro e (he | he)
          · exact hA e he
          · exact entries e he
        · rw [hpage]
          simp
      | below kp k' A' B' reads le split ne above below slot =>
        -- the separator found further down is not below the one passed here
        obtain ⟨e, he, hek⟩ := slot
        have hkk : k ≤ k' := hlo.trans ((((h.chain c (by omega)).mem he).1).trans hek)
        refine .below kp k' (A ++ A') (B' ++ B) reads le ?_ (by simp [ne]) ?_ ?_ ⟨(k, c), ?_, hkk⟩
        · rw [hsplit, split]
          simp
        · simp only [List.mem_append]
          rintro e (he | he)
          · exact hA e he
          · exact above e he
        · simp only [List.mem_append]
          rintro e (he | he)
          · exact below e he
          · exact (hB e he).trans_le hkk
        · rw [hpage]
          simp

/-! ## All ways down -/

theorem keyNum_longcpy (dest src : Words w) : keyNum geo (longcpy dest 0 src geo.keylen) = keyNum geo src :=
  keyNum_congr fun j hj => by rw [longcpy_apply, if_pos ⟨Nat.zero_le j, by omega⟩, Nat.sub_zero]

/-- The root is an inner node with a separator of key 0. -/
def zeroSeparator (geo : Geo) (s : State w) : Bool :=
  decide (2 ≤ s.height) && (s.page geo s.node).any fun e => decide (e.1 = 0)

/-- What the search finds among the entries `es` for a key with number `K`. -/
inductive Found (geo : Geo) (es : Page w) (K : Nat) : Option (Ptr w × Words w) → Prop where
  /-- The greatest entry below `K`. -/
  | prev (v : Ptr w) (k : Words w) (A B : Page w) (split : es = A ++ (keyNum geo k, v) :: B)
      (above : ∀ e ∈ A, K ≤ e.1) (lt : keyNum geo k < K) : Found geo es K (some (v, k))
  | none (entries : ∀ e ∈ es, K ≤ e.1) : Found geo es K none

/-- With no entry between two bounds the greatest entry below them is one. -/
theorem Found.up {es : Page w} {k K : Nat} {res : Option (Ptr w × Words w)} (h : Found geo es k res) (hk : k ≤ K)
    (hnone : ∀ e ∈ es, k ≤ e.1 → K ≤ e.1) : Found geo es K res := by
  cases h with
  | none hall => exact .none fun e he => hnone e he (hall e he)
  | prev v kv A B split above lt =>
    exact .prev v kv A B split (fun e he => hnone e (by rw [split]; simp [he]) (above e he)) (by omega)

/-- The greatest entry of all. -/
def FoundLast (geo : Geo) (es : Page w) (res : Option (Ptr w × Words w)) : Prop :=
  ∃ v k B, res = some (v, k) ∧ es = (keyNum geo k, v) :: B

theorem Tree.entry_ne_null {e : Nat × Ptr w} (h : Tree geo m r 1 s G) (he : e ∈ entries geo s) :
    e.2 ≠ 0#w := by
  obtain ⟨x, hx, hmem⟩ := h.mem_entries.mp he
  obtain ⟨n, -, -, hholds⟩ := h.load (p := x) (by omega)
  exact hholds.used e hmem

theorem Tree.entries_lt_bound {e : Nat × Ptr w} (h : Tree geo m r 1 s G) (hh : 1 ≤ s.height)
    (he : e ∈ entries geo s) : e.1 < geo.keyBound w := by
  rw [← h.root_hi hh]
  exact (h.entriesBelow_interval (h.root_lvl hh) he).2

section

variable (h : Tree geo m r 1 s G) (hm : 1 ≤ m) (hr : 1 ≤ r) (hh : 1 ≤ s.height)

include h hm hr hh

theorem getPrev_pass (key : Words w) :
    ∃ res, (getPrevDescent geo key (s.height - 1) s.node none s >>= getPrevLeaf geo key s) = .ok res ∧
      Passed geo s key (s.page geo s.node) (entries geo s) none res := by
  have hroot : (G s.node).lvl = s.height - 1 + 1 := by rw [h.root_lvl hh]; omega
  have hheight : s.height - 1 + 1 = s.height := by omega
  rw [h.page_eq (by omega), entries]
  have hpassed := getPrevDescent_passed key h hm hr none hroot
  rwa [hheight] at hpassed

/-- From key 0 the search goes on at the greatest key. -/
theorem getPrevRetry_wraps (fuel : Nat) (hkey : keyNum geo key = 0) (hslot : (s.page geo s.node) ≠ []) :
    ∃ res, getPrevRetry geo s (fuel + 1) key = .ok res ∧ FoundLast geo (entries geo s) res := by
  have hdec : keyNum geo (decKey geo key) = geo.keyBound w - 1 := by rw [keyNum_decKey, if_pos hkey]
  have hbound := keyBound_pos geo w
  obtain ⟨res, hrun, hpassed⟩ := getPrev_pass h hm hr hh (decKey geo key)
  -- no entry and no separator is above the greatest key
  have hnone : ∀ e ∈ entries geo s, ¬keyNum geo (decKey geo key) < e.1 := fun e he => by
    have := h.entries_lt_bound hh he
    omega
  rw [getPrevRetry, ← bind_assoc, hrun, ok_bind]
  cases hpassed with
  | found v k A B kp split above le =>
    cases A with
    | nil => exact ⟨_, rfl, v, k, B, rfl, split⟩
    | cons a A => exact absurd (above a (by simp)) (hnone a (by rw [split]; simp))
  | above entries keys =>
    obtain ⟨e, he⟩ := List.exists_mem_of_ne_nil _ hslot
    have hlt := keys e he
    rw [h.page_eq (by rw [h.root_lvl hh]; exact hh)] at he
    have hhi := (h.pair_interval (by rw [h.root_lvl hh]; exact hh) he).2
    rw [h.root_hi hh] at hhi
    omega
  | below kp k A B reads le split ne above below slot =>
    obtain ⟨a, ha⟩ := List.exists_mem_of_ne_nil _ ne
    exact absurd (above a ha) (hnone a (by rw [split]; simp [ha]))

theorem getPrevRetry_found : ∀ (K fuel : Nat) {key : Words w}, keyNum geo key = K → 0 < K → K < fuel →
    ∃ res, getPrevRetry geo s fuel key = .ok res ∧
      (if zeroSeparator geo s = true ∧ ∀ e ∈ entries geo s, K ≤ e.1 then FoundLast geo (entries geo s) res
      else Found geo (entries geo s) K res) := by
  intro K
  induction K using Nat.strong_induction_on with
  | _ K ih =>
    intro fuel key hkey hpos hfuel
    obtain ⟨fuel, rfl⟩ : ∃ f, fuel = f + 1 := ⟨fuel - 1, by omega⟩
    have hdec : keyNum geo (decKey geo key) = K - 1 := by rw [keyNum_decKey, if_neg (by omega), hkey]
    obtain ⟨res, hrun, hpassed⟩ := getPrev_pass h hm hr hh (decKey geo key)
    rw [getPrevRetry, ← bind_assoc, hrun, ok_bind]
    cases hpassed with
    | found v k A B kp split above le =>
      have hlt : keyNum geo k < K := by omega
      refine ⟨_, rfl, ?_⟩
      rw [if_neg fun hwrap => by
        have := hwrap.2 (keyNum geo k, v) (by rw [split]; simp)
        simp only at this
        omega]
      exact .prev v k A B split (fun e he => by have := above e he; omega) hlt
    | above entries keys =>
      refine ⟨_, rfl, ?_⟩
      rw [if_neg fun hwrap => by
        -- a separator of key 0 leads on from every key
        have hzero := hwrap.1
        simp only [zeroSeparator, Bool.and_eq_true, List.any_eq_true, decide_eq_true_eq] at hzero
        obtain ⟨-, e, he, hek⟩ := hzero
        have := keys e he
        omega]
      exact .none fun e he => by have := entries e he; omega
    | below kp k A B reads le split ne above below slot =>
      obtain ⟨kw, hread, hkw⟩ := reads
      have hnext : keyNum geo (longcpy (decKey geo key) 0 kw geo.keylen) = k := by rw [keyNum_longcpy, hkw]
      simp only [hread, ok_bind]
      by_cases hk : k = 0
      · -- nothing is left below the separator
        subst hk
        have hB : B = [] := List.eq_nil_iff_forall_not_mem.mpr fun e he => by have := below e he; omega
        rw [hB, List.append_nil] at split
        obtain ⟨e, he, hek⟩ := slot
        have hheight : 2 ≤ s.height := by
          by_contra hlow
          have hone : s.height = 1 := by omega
          have hmem : e ∈ A := by
            rw [← split, entries, hone, entriesBelow]
            exact he
          have := above e hmem
          omega
        have hzero : zeroSeparator geo s = true := by
          simp only [zeroSeparator, Bool.and_eq_true, List.any_eq_true, decide_eq_true_eq]
          exact ⟨hheight, e, he, by omega⟩
        obtain ⟨fuel, rfl⟩ : ∃ f, fuel = f + 1 := ⟨fuel - 1, by omega⟩
        obtain ⟨res, hrun, hlast⟩ := getPrevRetry_wraps h hm hr hh fuel hnext (List.ne_nil_of_mem he)
        refine ⟨res, hrun, ?_⟩
        rw [if_pos ⟨hzero, fun e he => by have := above e (split ▸ he); omega⟩]
        exact hlast
      · obtain ⟨res, hrun, hres⟩ := ih k (by omega) fuel hnext (by omega) (by omega)
        refine ⟨res, hrun, ?_⟩
        have hnone : ∀ e ∈ entries geo s, k ≤ e.1 → K ≤ e.1 := by
          intro e he hle
          rcases List.mem_append.mp (split ▸ he) with hmem | hmem
          · have := above e hmem
            omega
          · have := below e hmem
            omega
        have hsame : (∀ e ∈ entries geo s, k ≤ e.1) ↔ ∀ e ∈ entries geo s, K ≤ e.1 :=
          forall₂_congr fun e he => ⟨hnone e he, fun hK => by omega⟩
        split at hres
        next hwrap =>
          rw [if_pos (hwrap.imp_right hsame.mp)]
          exact hres
        next hwrap =>
          rw [if_neg fun hw => hwrap (hw.imp_right hsame.mpr)]
          exact hres.up (by omega) hnone

end

/-! ## The whole call -/

/-- The result of `cbtree_get_prev` as its comment has it: the greatest entry with a smaller key, or else
`NULL` and the key as it was. -/
def IsPrev (geo : Geo) (s : State w) (key : Words w) (result : Except Fault (Ptr w × Words w)) : Prop :=
  (∃ v key', result = .ok (v, key') ∧ (keyNum geo key', v) ∈ entries geo s ∧
    keyNum geo key' < keyNum geo key ∧
    ∀ e ∈ entries geo s, e.1 < keyNum geo key → e.1 ≤ keyNum geo key') ∨
  (∀ e ∈ entries geo s, keyNum geo key ≤ e.1) ∧ result = .ok (0#w, key)

theorem keyzero_eq_true {key : Words w} : keyzero geo key = true ↔ keyNum geo key = 0 := by
  rw [keyNum_eq_zero, keyzero, decide_eq_true_eq]
  constructor
  · intro hend j hj
    have hbefore := scan_before (p := fun i => decide (key i ≠ 0#w)) (i := 0) (d := geo.keylen) (Nat.zero_le j)
      (by omega)
    simpa using hbefore
  · intro hall
    have hbound := scan_eq_bound (p := fun i => decide (key i ≠ 0#w)) (i := 0) (d := geo.keylen)
      fun j _ hj => by simp [hall j (by omega)]
    omega

/-- The key is not 0, no stored key is smaller, and the root has a separator of key 0. -/
def wrapsAround (geo : Geo) (s : State w) (key : Words w) : Bool :=
  decide (keyNum geo key ≠ 0) && zeroSeparator geo s &&
    (entries geo s).all fun e => decide (keyNum geo key ≤ e.1)

theorem Tree.getPrev_isPrev_iff (key : Words w) (h : Tree geo m r 1 s G) (hm : 1 ≤ m) (hr : 1 ≤ r) :
    IsPrev geo s key (cbtreeGetPrev geo key s) ↔ wrapsAround geo s key = false := by
  by_cases hzero : keyNum geo key = 0
  · rw [cbtreeGetPrev, if_pos (keyzero_eq_true.mpr hzero)]
    simp [IsPrev, wrapsAround, hzero]
  by_cases hh : s.height = 0
  · rw [cbtreeGetPrev, if_neg fun hkey => hzero (keyzero_eq_true.mp hkey), if_pos hh]
    simp [IsPrev, wrapsAround, zeroSeparator, hh, entries, entriesBelow]
  have hbound : geo.keyBound w = 2 ^ (w * geo.keylen) := (pow_mul 2 w geo.keylen).symm
  have hlt := keyNum_lt geo key
  obtain ⟨res, hrun, hres⟩ := getPrevRetry_found h hm hr (by omega) (keyNum geo key)
    (2 ^ (w * geo.keylen) + 1) rfl (by omega) (by omega)
  rw [cbtreeGetPrev, if_neg fun hkey => hzero (keyzero_eq_true.mp hkey), if_neg hh, hrun, ok_bind]
  split at hres
  next hwrap =>
    -- the greatest entry is not smaller than the key
    obtain ⟨v, k, B, rfl, hentries⟩ := hres
    have hwraps : wrapsAround geo s key = true := by
      simp only [wrapsAround, Bool.and_eq_true, decide_eq_true_eq, List.all_eq_true]
      exact ⟨⟨hzero, hwrap.1⟩, hwrap.2⟩
    rw [hwraps]
    constructor
    · rintro (⟨v', key', -, hmem, hless, -⟩ | ⟨-, hnull⟩)
      · have := hwrap.2 _ hmem
        simp only at this
        omega
      · have hvalue : (keyNum geo k, v) ∈ entries geo s := by rw [hentries]; simp
        exact absurd (Prod.mk.inj (Except.ok.inj hnull)).1 (h.entry_ne_null hvalue)
    · intro hfalse
      cases hfalse
  next hwrap =>
    have hfalse : wrapsAround geo s key = false := by
      rw [← Bool.not_eq_true]
      intro hwraps
      simp only [wrapsAround, Bool.and_eq_true, decide_eq_true_eq, List.all_eq_true] at hwraps
      exact hwrap ⟨hwraps.1.2, hwraps.2⟩
    rw [hfalse]
    refine iff_of_true ?_ rfl
    cases hres with
    | none hall => exact .inr ⟨hall, rfl⟩
    | prev v k A B split above lt =>
      refine .inl ⟨v, _, rfl, ?_, ?_, fun e he hek => ?_⟩
      · rw [keyNum_longcpy, split]
        simp
      · rwa [keyNum_longcpy]
      · rw [keyNum_longcpy]
        rw [split] at he
        cases List.mem_append.mp he with
        | inl he =>
          have := above e he
          omega
        | inr he =>
          have hdesc := h.entries_descending
          rw [split] at hdesc
          rcases List.mem_cons.mp he with rfl | he
          · exact le_rfl
          · exact ((List.pairwise_cons.mp hdesc.of_append.2.1).1 e he).le

/-- In every tree that insertions and removals lead to, `cbtree_get_prev` does what its comment says,
unless the search wraps around. -/
theorem cbtreeGetPrev_iff (hN : 4 ≤ geo.noPairs) (h₀ : Blank s₀) (h : Run geo InsertsRemoves s₀ s)
    (key : Words w) : IsPrev geo s key (cbtreeGetPrev geo key s) ↔ wrapsAround geo s key = false := by
  obtain ⟨G, R, hwarm⟩ := warm_of_inserts_removes hN h₀ h
  exact hwarm.tree.getPrev_isPrev_iff key le_rfl le_rfl

/-- Key 0 has been stored and removed again in a tree with two levels. -/
def zeroRemoved : State 64 := Cmd.execAll Machine.x86_64.cbtree_geo64 InsertsRemoves
  (eightInserts ++ [.insert (wordKey 0) 0x77#64, .remove (wordKey 0)]) (arena 4)

theorem zeroRemoved_run : Run Machine.x86_64.cbtree_geo64 InsertsRemoves (arena 4) zeroRemoved :=
  Cmd.run_execAll _ _ _ _

theorem cbtreeGetPrev_iff_zero_removed :
    wrapsAround Machine.x86_64.cbtree_geo64 zeroRemoved (wordKey 5) = false ∧
    IsPrev Machine.x86_64.cbtree_geo64 zeroRemoved (wordKey 5)
      (cbtreeGetPrev Machine.x86_64.cbtree_geo64 (wordKey 5) zeroRemoved) := by
  have hwrap : wrapsAround Machine.x86_64.cbtree_geo64 zeroRemoved (wordKey 5) = false := by decide +kernel
  exact ⟨hwrap, (cbtreeGetPrev_iff (by decide) (arena_blank 4) zeroRemoved_run (wordKey 5)).mpr hwrap⟩

/-- Nothing is stored below key 1, and the search for what is before it returns the greatest entry. -/
theorem cbtreeGetPrev_wraps_around :
    ¬∀ s, Run Machine.x86_64.cbtree_geo64 InsertsRemoves (arena 4) s → ∀ key : Words 64,
      IsPrev Machine.x86_64.cbtree_geo64 s key (cbtreeGetPrev Machine.x86_64.cbtree_geo64 key s) := by
  intro hclaim
  have hprev := hclaim zeroRemoved zeroRemoved_run (wordKey 1)
  have hentries : entries Machine.x86_64.cbtree_geo64 zeroRemoved =
      (List.range 8).reverse.map fun i => (i + 1, 0x77#64) := by decide +kernel
  have hresult : ((cbtreeGetPrev Machine.x86_64.cbtree_geo64 (wordKey 1) zeroRemoved).map Prod.fst).toOption =
      some 0x77#64 := by decide +kernel
  rw [IsPrev, hentries] at hprev
  rcases hprev with ⟨v, key', -, hmem, hlt, -⟩ | ⟨-, hnull⟩
  · have hone : keyNum Machine.x86_64.cbtree_geo64 (wordKey 1) = 1 := by decide +kernel
    have hpos : ∀ e ∈ (List.range 8).reverse.map fun i => (i + 1, 0x77#64), 0 < e.1 := by decide
    have := hpos _ hmem
    omega
  · rw [hnull] at hresult
    cases hresult

end CachedBTree
