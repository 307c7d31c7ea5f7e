import CachedBTree.Model.Node
import CachedBTree.Support.Numerals
import Mathlib.Data.List.GetD

/-! # What the slot operations do to a node

A key is looked at as the number its words are the digits of, so that the loops over
words disappear behind comparisons of numbers.  `slotAt geo node i` is slot `i` as a
pair of such a number and a value; each operation of `Model/Node.lean` gets one lemma
that says what it does to every slot, and one that says that the three cache words
stay as they are. -/

namespace CachedBTree

open CachedBTree.Support

variable {w : Nat} {geo : Geo}

/-! ## Keys as numbers -/

/-- The number that a key of `keylen` words stands for. -/
def keyNum (geo : Geo) (key : Words w) : Nat :=
  numeral (2 ^ w) (fun j => (key j).toNat) 0 geo.keylen

/-- Every key is below this number. -/
def Geo.keyBound (geo : Geo) (w : Nat) : Nat := (2 ^ w) ^ geo.keylen

theorem keyNum_lt (geo : Geo) (key : Words w) : keyNum geo key < geo.keyBound w :=
  numeral_lt (fun j => (key j).isLt) 0 geo.keylen

theorem keyBound_pos (geo : Geo) (w : Nat) : 0 < geo.keyBound w := by
  exact Nat.pow_pos (Nat.pow_pos (by omega))

theorem keyNum_congr {k k' : Words w} (h : ∀ j, j < geo.keylen → k j = k' j) :
    keyNum geo k = keyNum geo k' :=
  numeral_congr fun j _ hj => by rw [h j (by omega)]

theorem keyNum_inj {k k' : Words w} (h : keyNum geo k = keyNum geo k') :
    ∀ j, j < geo.keylen → k j = k' j := fun j hj =>
  BitVec.eq_of_toNat_eq <|
    numeral_inj (fun j => (k j).isLt) (fun j => (k' j).isLt) h j (Nat.zero_le j) (by omega)

@[simp] theorem keyNum_zero : keyNum geo (fun _ => (0#w)) = 0 := by
  unfold keyNum
  simpa using numeral_zero (b := 2 ^ w) 0 geo.keylen

/-- The words of a key that stands for 0 are all zero. -/
theorem keyNum_eq_zero {k : Words w} : keyNum geo k = 0 ↔ ∀ j, j < geo.keylen → k j = 0#w :=
  ⟨fun h => keyNum_inj (h.trans keyNum_zero.symm), fun h => (keyNum_congr h).trans keyNum_zero⟩

theorem longcmpLoop_eq (l1 l2 : Words w) : ∀ i d : Nat,
    longcmpLoop l1 l2 i d =
      if numeral (2 ^ w) (fun j => (l1 j).toNat) i d < numeral (2 ^ w) (fun j => (l2 j).toNat) i d
      then -1
      else if numeral (2 ^ w) (fun j => (l2 j).toNat) i d <
          numeral (2 ^ w) (fun j => (l1 j).toNat) i d then 1
      else 0 := by
  intro i d
  induction d generalizing i with
  | zero =>
    simp [longcmpLoop, numeral]
  | succ d hrec =>
    have ih := hrec (i + 1)
    simp only [longcmpLoop, gt_iff_lt, BitVec.lt_def]
    rcases Nat.lt_trichotomy (l1 i).toNat (l2 i).toNat with hlt | heq | hgt
    · rw [if_pos hlt, if_pos (numeral_lt_of_head (fun j => (l1 j).isLt) hlt)]
    · rw [if_neg (by omega), if_neg (by omega), ih]
      simp only [numeral, heq, Nat.add_lt_add_iff_left]
    · have hnum : numeral (2 ^ w) (fun j => (l2 j).toNat) i (d + 1) <
          numeral (2 ^ w) (fun j => (l1 j).toNat) i (d + 1) :=
        numeral_lt_of_head (fun j => (l2 j).isLt) hgt
      rw [if_neg (by omega), if_pos hgt, if_neg (by omega), if_pos hnum]

/-- `longcmp` compares the numbers. -/
theorem longcmp_le_zero {l1 l2 : Words w} :
    longcmp l1 l2 geo.keylen ≤ 0 ↔ keyNum geo l1 ≤ keyNum geo l2 := by
  unfold longcmp keyNum
  rw [longcmpLoop_eq]
  split
  · simp; omega
  · split <;> simp <;> omega

theorem longcmp_eq_zero {l1 l2 : Words w} :
    longcmp l1 l2 geo.keylen = 0 ↔ keyNum geo l1 = keyNum geo l2 := by
  unfold longcmp keyNum
  rw [longcmpLoop_eq]
  split
  · simp; omega
  · split <;> simp <;> omega

/-! ## Words of a node -/

theorem longcpy_apply (dest src : Words w) (off : Nat) : ∀ n j : Nat,
    longcpy dest off src n j = if off ≤ j ∧ j < off + n then src (j - off) else dest j := by
  intro n
  induction n with
  | zero =>
    intro j
    simp [longcpy]
  | succ n ih =>
    intro j
    simp only [longcpy, Function.update_apply, ih]
    by_cases hj : j = off + n
    · subst hj
      simp
    · have : (off ≤ j ∧ j < off + (n + 1)) ↔ (off ≤ j ∧ j < off + n) := by omega
      simp [hj, this]

theorem longcpy_congr {dest src src' : Words w} {off n : Nat} (h : ∀ j < n, src j = src' j) :
    longcpy dest off src n = longcpy dest off src' n := by
  funext j
  rw [longcpy_apply, longcpy_apply]
  split
  next hj => exact h _ (by omega)
  next => rfl

theorem longset_eq_longcpy (s : Words w) (off : Nat) (c : Word w) : ∀ n : Nat,
    longset s off c n = longcpy s off (fun _ => c) n
  | 0 => rfl
  | n + 1 => by simp only [longset, longcpy, longset_eq_longcpy s off c n]

/-- Word `j` of key `n`. -/
theorem key_word_lt {n j : Nat} (hn : n < geo.noPairs) (hj : j < geo.keylen) :
    n * geo.keylen + j < geo.noLongs := by
  rw [geo.noLongs_eq]
  calc n * geo.keylen + j < n * geo.keylen + geo.keylen := by omega
    _ = (n + 1) * geo.keylen := by ring
    _ ≤ geo.noPairs * geo.keylen := Nat.mul_le_mul_right _ hn
    _ = geo.keylen * geo.noPairs := Nat.mul_comm _ _

theorem last_key_word_lt {n : Nat} (hn : n < geo.noPairs) :
    n * geo.keylen + geo.keylen ≤ geo.noLongs := by
  have hpos := geo.keylen_pos
  have hlast : n * geo.keylen + (geo.keylen - 1) < geo.noLongs := key_word_lt hn (by omega)
  omega

theorem value_word_lt {n : Nat} (hn : n < geo.noPairs) : geo.noLongs + n < geo.arrLen := by
  have : geo.noPairs ≤ geo.keylen * geo.noPairs :=
    Nat.le_mul_of_pos_left _ geo.keylen_pos
  unfold Geo.arrLen
  omega

/-- The words of different keys do not overlap. -/
theorem key_word_eq {n m i j : Nat} (hi : i < geo.keylen) (hj : j < geo.keylen)
    (h : n * geo.keylen + i = m * geo.keylen + j) : n = m ∧ i = j := by
  have hdiv : n = m := by
    have hn : (n * geo.keylen + i) / geo.keylen = n := by
      rw [Nat.mul_comm, Nat.mul_add_div geo.keylen_pos, Nat.div_eq_of_lt hi, Nat.add_zero]
    have hm : (m * geo.keylen + j) / geo.keylen = m := by
      rw [Nat.mul_comm, Nat.mul_add_div geo.keylen_pos, Nat.div_eq_of_lt hj, Nat.add_zero]
    rw [← hn, ← hm, h]
  subst hdiv
  exact ⟨rfl, by omega⟩

/-! ## Slots -/

def slotAt (geo : Geo) (node : Words w) (i : Nat) : Nat × Ptr w :=
  (keyNum geo (bkey geo node i), bval geo node i)

/-- The queue pointer, the reference count and the deleted flag are the same. -/
def SameCache (geo : Geo) (node node' : Words w) : Prop :=
  ∀ j, geo.arrLen ≤ j → node' j = node j

theorem SameCache.refl (node : Words w) : SameCache geo node node := fun _ _ => rfl

theorem SameCache.trans {node node' node'' : Words w} (h : SameCache geo node node')
    (h' : SameCache geo node' node'') : SameCache geo node node'' := fun j hj =>
  (h' j hj).trans (h j hj)

section Setters

variable {node src : Words w} {key : Words w} {val : Ptr w} {n m : Nat}

theorem bkey_setkey {j : Nat} (hj : j < geo.keylen) :
    bkey geo (setkey geo node n key) m j = if m = n then key j else bkey geo node m j := by
  simp only [bkey, setkey, longcpy_apply]
  by_cases hmn : m = n
  · subst hmn
    simp [hj]
  · have : ¬(n * geo.keylen ≤ m * geo.keylen + j ∧
        m * geo.keylen + j < n * geo.keylen + geo.keylen) := by
      rintro ⟨hle, hlt⟩
      have hoff : m * geo.keylen + j = n * geo.keylen + (m * geo.keylen + j - n * geo.keylen) := by
        omega
      exact hmn (key_word_eq hj (by omega) hoff).1
    rw [if_neg this, if_neg hmn]

theorem bval_setkey (hn : n < geo.noPairs) : bval geo (setkey geo node n key) m = bval geo node m := by
  simp only [bval, setkey, longcpy_apply]
  rw [if_neg]
  rintro ⟨_, hlt⟩
  have := last_key_word_lt hn
  omega

theorem bkey_setval (hm : m < geo.noPairs) {j : Nat} (hj : j < geo.keylen) :
    bkey geo (setval geo node n val) m j = bkey geo node m j := by
  have := key_word_lt hm hj
  simp only [bkey, setval, Function.update_apply]
  rw [if_neg (by omega)]

theorem bval_setval : bval geo (setval geo node n val) m = if m = n then val else bval geo node m := by
  simp only [bval, setval, Function.update_apply]
  by_cases hmn : m = n
  · simp [hmn]
  · rw [if_neg (by omega), if_neg hmn]

theorem keyNum_setkey : keyNum geo (bkey geo (setkey geo node n key) m) =
    if m = n then keyNum geo key else keyNum geo (bkey geo node m) := by
  by_cases hmn : m = n
  · rw [if_pos hmn]
    exact keyNum_congr fun j hj => by rw [bkey_setkey hj, if_pos hmn]
  · rw [if_neg hmn]
    exact keyNum_congr fun j hj => by rw [bkey_setkey hj, if_neg hmn]

theorem keyNum_setval (hm : m < geo.noPairs) :
    keyNum geo (bkey geo (setval geo node n val) m) = keyNum geo (bkey geo node m) :=
  keyNum_congr fun _ hj => bkey_setval hm hj

theorem slotAt_setkey (hn : n < geo.noPairs) :
    slotAt geo (setkey geo node n key) m =
      if m = n then (keyNum geo key, bval geo node m) else slotAt geo node m := by
  unfold slotAt
  rw [bval_setkey hn, keyNum_setkey]
  by_cases hmn : m = n <;> simp [hmn]

theorem slotAt_setval (hm : m < geo.noPairs) :
    slotAt geo (setval geo node n val) m =
      if m = n then (keyNum geo (bkey geo node m), val) else slotAt geo node m := by
  unfold slotAt
  rw [bval_setval, keyNum_setval hm]
  by_cases hmn : m = n <;> simp [hmn]

theorem slotAt_copypair (hn : n < geo.noPairs) (hm : m < geo.noPairs) {i : Nat} :
    slotAt geo (copypair geo node n src i) m =
      if m = n then slotAt geo src i else slotAt geo node m := by
  unfold copypair
  rw [slotAt_setval hm, slotAt_setkey hn, keyNum_setkey]
  by_cases hmn : m = n <;> simp [hmn, slotAt]

/-- Clearing a slot is writing key 0 and `NULL` to it. -/
theorem clearpair_eq : clearpair geo node n = setval geo (setkey geo node n fun _ => 0#w) n 0#w := by
  unfold clearpair setval setkey
  rw [longset_eq_longcpy]

theorem slotAt_clearpair (hn : n < geo.noPairs) (hm : m < geo.noPairs) :
    slotAt geo (clearpair geo node n) m = if m = n then (0, 0#w) else slotAt geo node m := by
  rw [clearpair_eq, slotAt_setval hm, slotAt_setkey hn, keyNum_setkey]
  by_cases hmn : m = n <;> simp [hmn]

theorem sameCache_setkey (hn : n < geo.noPairs) : SameCache geo node (setkey geo node n key) := by
  intro j hj
  have := last_key_word_lt hn
  have harr : geo.arrLen = geo.keylen * geo.noPairs + geo.noLongs := rfl
  simp only [setkey, longcpy_apply]
  rw [if_neg (by omega)]

theorem sameCache_setval_word (hn : geo.noLongs + n < geo.arrLen) :
    SameCache geo node (setval geo node n val) := by
  intro j hj
  simp only [setval, Function.update_apply]
  rw [if_neg (by omega)]

theorem sameCache_setval (hn : n < geo.noPairs) : SameCache geo node (setval geo node n val) :=
  sameCache_setval_word (value_word_lt hn)

theorem sameCache_copypair (hn : n < geo.noPairs) {i : Nat} :
    SameCache geo node (copypair geo node n src i) :=
  (sameCache_setkey hn).trans (sameCache_setval hn)

theorem sameCache_clearpair (hn : n < geo.noPairs) : SameCache geo node (clearpair geo node n) := by
  rw [clearpair_eq]
  exact (sameCache_setkey hn).trans (sameCache_setval hn)

end Setters

/-! ## The loops -/

theorem slotAt_shiftRight {pos m : Nat} (hm : m < geo.noPairs) : ∀ {d : Nat} {node : Words w},
    pos + d < geo.noPairs →
    slotAt geo (shiftRight geo pos d node) m =
      if pos < m ∧ m ≤ pos + d then slotAt geo node (m - 1) else slotAt geo node m := by
  intro d
  induction d with
  | zero =>
    intro node _
    simp [shiftRight]
  | succ d ih =>
    intro node h
    rw [shiftRight, ih (by omega)]
    -- the round before this one has filled slot `pos + d + 1` from `pos + d`
    by_cases hlast : m = pos + d + 1
    · subst hlast
      rw [if_neg (by omega), if_pos (by omega), slotAt_copypair (by omega) hm, if_pos rfl]
      rfl
    · by_cases hin : pos < m ∧ m ≤ pos + d
      · rw [if_pos hin, if_pos (by omega), slotAt_copypair (by omega) (by omega), if_neg (by omega)]
      · rw [if_neg hin, if_neg (by omega), slotAt_copypair (by omega) hm, if_neg hlast]

theorem slotAt_shiftLeft {node : Words w} {pos m : Nat} (hm : m < geo.noPairs) : ∀ {d : Nat},
    pos + d < geo.noPairs →
    slotAt geo (shiftLeft geo node pos d) m =
      if pos ≤ m ∧ m < pos + d then slotAt geo node (m + 1) else slotAt geo node m
  | 0, _ => by simp [shiftLeft]
  | d + 1, h => by
    simp only [shiftLeft]
    rw [slotAt_copypair (by omega) hm]
    by_cases hlast : m = pos + d
    · subst hlast
      rw [if_pos rfl, if_pos (by omega), slotAt_shiftLeft (by omega) (by omega), if_neg (by omega)]
    · rw [if_neg hlast, slotAt_shiftLeft hm (by omega)]
      by_cases hin : pos ≤ m ∧ m < pos + d
      · rw [if_pos hin, if_pos (by omega)]
      · rw [if_neg hin, if_neg (by omega)]

theorem slotAt_appendPairs {left right : Words w} {lfill m : Nat} (hm : m < geo.noPairs) :
    ∀ {n : Nat}, lfill + n ≤ geo.noPairs →
    slotAt geo (appendPairs geo left lfill right n) m =
      if lfill ≤ m ∧ m < lfill + n then slotAt geo right (m - lfill) else slotAt geo left m := by
  intro n
  induction n with
  | zero =>
    intro _
    simp [appendPairs]
  | succ n ih =>
    intro h
    rw [appendPairs, slotAt_copypair (by omega) hm, ih (by omega)]
    by_cases hlast : m = lfill + n
    · subst hlast
      rw [if_pos rfl, if_pos (by omega)]
      congr 1
      omega
    · rw [if_neg hlast]
      by_cases hin : lfill ≤ m ∧ m < lfill + n
      · rw [if_pos hin, if_pos (by omega)]
      · rw [if_neg hin, if_neg (by omega)]

/-- After `i` rounds of the split loop the first `i` pairs are in `new`, the `i` pairs from
`fill / 2` on have taken their places, and they are gone where they were. -/
theorem slotAt_splitLoop {new node : Words w} {fill m : Nat} (hm : m < geo.noPairs)
    (hfill : fill ≤ geo.noPairs) : ∀ {i : Nat}, i ≤ fill / 2 →
    slotAt geo (splitLoop geo fill i (new, node)).1 m =
        (if m < i then slotAt geo node m else slotAt geo new m) ∧
      slotAt geo (splitLoop geo fill i (new, node)).2 m =
        (if m < i then slotAt geo node (m + fill / 2)
        else if fill / 2 ≤ m ∧ m < fill / 2 + i then (0, 0#w)
        else slotAt geo node m)
  | 0, _ => by simp [splitLoop]
  | i + 1, hi => by
    have ih : ∀ {m : Nat}, m < geo.noPairs →
        slotAt geo (splitLoop geo fill i (new, node)).1 m =
            (if m < i then slotAt geo node m else slotAt geo new m) ∧
          slotAt geo (splitLoop geo fill i (new, node)).2 m =
            (if m < i then slotAt geo node (m + fill / 2)
            else if fill / 2 ≤ m ∧ m < fill / 2 + i then (0, 0#w)
            else slotAt geo node m) :=
      fun hm => slotAt_splitLoop hm hfill (by omega)
    simp only [splitLoop, splitRound]
    constructor
    · rw [slotAt_copypair (by omega) hm, (ih hm).1]
      by_cases hlast : m = i
      · subst hlast
        rw [if_pos rfl, if_pos (by omega), (ih hm).2, if_neg (by omega), if_neg (by omega)]
      · rw [if_neg hlast]
        by_cases hin : m < i
        · rw [if_pos hin, if_pos (by omega)]
        · rw [if_neg hin, if_neg (by omega)]
    · rw [slotAt_clearpair (by omega) hm]
      by_cases hcleared : m = i + fill / 2
      · rw [if_pos hcleared, if_neg (by omega), if_pos (by omega)]
      · rw [if_neg hcleared, slotAt_copypair (by omega) hm]
        by_cases hlast : m = i
        · subst hlast
          rw [if_pos rfl, if_pos (by omega), (ih (by omega)).2, if_neg (by omega),
            if_neg (by omega)]
        · rw [if_neg hlast, (ih hm).2]
          by_cases hin : m < i
          · rw [if_pos hin, if_pos (by omega)]
          · rw [if_neg hin, if_neg (show ¬m < i + 1 by omega)]
            by_cases hold : fill / 2 ≤ m ∧ m < fill / 2 + i
            · rw [if_pos hold, if_pos (by omega)]
            · rw [if_neg hold, if_neg (by omega)]

/-- The split of a full node leaves the first half in `new` and the rest, moved to the front,
in the old node; for an odd fill the step after the loop moves the last pair. -/
theorem slotAt_splitNode {new node : Words w} {fill m : Nat} (hm : m < geo.noPairs)
    (htwo : 2 ≤ fill) (hfill : fill ≤ geo.noPairs) :
    slotAt geo (splitNode geo fill new node).1 m =
        (if m < fill / 2 then slotAt geo node m else slotAt geo new m) ∧
      slotAt geo (splitNode geo fill new node).2 m =
        (if m < fill - fill / 2 then slotAt geo node (m + fill / 2)
        else if m < fill then (0, 0#w)
        else slotAt geo node m) := by
  have hloop : ∀ {m : Nat}, m < geo.noPairs →
      slotAt geo (splitLoop geo fill (fill / 2) (new, node)).1 m =
          (if m < fill / 2 then slotAt geo node m else slotAt geo new m) ∧
        slotAt geo (splitLoop geo fill (fill / 2) (new, node)).2 m =
          (if m < fill / 2 then slotAt geo node (m + fill / 2)
          else if fill / 2 ≤ m ∧ m < fill / 2 + fill / 2 then (0, 0#w)
          else slotAt geo node m) :=
    fun hm => slotAt_splitLoop hm hfill (Nat.le_refl (fill / 2))
  unfold splitNode
  by_cases hodd : fill % 2 = 1
  · simp only [hodd, if_true]
    refine ⟨(hloop hm).1, ?_⟩
    rw [slotAt_clearpair (by omega) hm]
    by_cases hend : m = fill - 1
    · rw [if_pos hend, if_neg (show ¬m < fill - fill / 2 by omega), if_pos (by omega)]
    · rw [if_neg hend, slotAt_copypair (by omega) hm]
      by_cases hmiddle : m = fill / 2
      · -- an odd pair is left over: the last one goes to the slot in the middle
        have hsrc : fill - 1 = m + fill / 2 := by omega
        rw [if_pos hmiddle, if_pos (show m < fill - fill / 2 by omega),
          (hloop (show fill - 1 < geo.noPairs by omega)).2, if_neg (show ¬fill - 1 < fill / 2 by omega),
          if_neg (show ¬(fill / 2 ≤ fill - 1 ∧ fill - 1 < fill / 2 + fill / 2) by omega), hsrc]
      · rw [if_neg hmiddle, (hloop hm).2]
        by_cases hlow : m < fill / 2
        · rw [if_pos hlow, if_pos (by omega)]
        · rw [if_neg hlow, if_neg (show ¬m < fill - fill / 2 by omega)]
          by_cases hcleared : m < fill
          · rw [if_pos hcleared, if_pos (by omega)]
          · rw [if_neg hcleared, if_neg (by omega)]
  · simp only [hodd, if_false]
    refine ⟨(hloop hm).1, ?_⟩
    rw [(hloop hm).2]
    by_cases hlow : m < fill / 2
    · rw [if_pos hlow, if_pos (by omega)]
    · rw [if_neg hlow, if_neg (show ¬m < fill - fill / 2 by omega)]
      by_cases hcleared : m < fill
      · rw [if_pos hcleared, if_pos (by omega)]
      · rw [if_neg hcleared, if_neg (by omega)]

/-- The words of all slots, keys and values. -/
def slots (geo : Geo) (node : Words w) : List (List (Word w) × Ptr w) :=
  (List.range geo.noPairs).map fun i => ((List.range geo.keylen).map (bkey geo node i), bval geo node i)

/-- An unused slot. -/
def clearedSlot (geo : Geo) (w : Nat) : List (Word w) × Ptr w := (List.replicate geo.keylen 0#w, 0#w)

theorem length_slots (node : Words w) : (slots geo node).length = geo.noPairs := by
  simp [slots]

/-- Slots with the same number and value have the same words. -/
theorem slots_getElem_eq {node node' : Words w} {i j : Nat} (hi : i < geo.noPairs) (hj : j < geo.noPairs)
    (h : slotAt geo node i = slotAt geo node' j) :
    (slots geo node)[i]? = (slots geo node')[j]? := by
  have hwords : ∀ k < geo.keylen, bkey geo node i k = bkey geo node' j k :=
    fun k hk => keyNum_inj (congrArg Prod.fst h) k hk
  have hval : bval geo node i = bval geo node' j := congrArg Prod.snd h
  have hkey : (List.range geo.keylen).map (bkey geo node i) = (List.range geo.keylen).map (bkey geo node' j) :=
    List.map_congr_left fun k hk => hwords k (List.mem_range.mp hk)
  simp only [slots, List.getElem?_map, List.getElem?_range hi, List.getElem?_range hj, Option.map_some]
  rw [hkey, hval]

theorem slots_getElem_cleared {node : Words w} {i : Nat} (hi : i < geo.noPairs)
    (h : slotAt geo node i = (0, 0#w)) : (slots geo node)[i]? = some (clearedSlot geo w) := by
  have hwords : ∀ k < geo.keylen, bkey geo node i k = 0#w := keyNum_eq_zero.mp (congrArg Prod.fst h)
  have hval : bval geo node i = 0#w := congrArg Prod.snd h
  have hkey : (List.range geo.keylen).map (bkey geo node i) = List.replicate geo.keylen 0#w :=
    List.eq_replicate_iff.mpr ⟨by simp, fun b hb => by
      obtain ⟨k, hk, rfl⟩ := List.mem_map.mp hb
      exact hwords k (List.mem_range.mp hk)⟩
  simp only [slots, List.getElem?_map, List.getElem?_range hi, Option.map_some]
  rw [hkey, hval, clearedSlot]

/-- The slots are what `slotAt` finds: those of `node'` from `d` on in front, cleared ones behind. -/
theorem slots_eq_of_slotAt (geo : Geo) (node node' : Words w) (d n : Nat) (hn : d + n ≤ geo.noPairs)
    (hfront : ∀ m < n, slotAt geo node m = slotAt geo node' (m + d))
    (hbehind : ∀ m, n ≤ m → m < geo.noPairs → slotAt geo node m = (0, 0#w)) :
    slots geo node = ((slots geo node').drop d).take n ++
      List.replicate (geo.noPairs - n) (clearedSlot geo w) := by
  have hlen : (((slots geo node').drop d).take n).length = n := by
    rw [List.length_take, List.length_drop, length_slots]
    omega
  refine List.ext_getElem? fun m => ?_
  by_cases hm : m < geo.noPairs
  · by_cases hlow : m < n
    · rw [List.getElem?_append_left (by omega), List.getElem?_take_of_lt hlow, List.getElem?_drop, Nat.add_comm d m]
      exact slots_getElem_eq hm (by omega) (hfront m hlow)
    · rw [List.getElem?_append_right (by omega), hlen, List.getElem?_replicate, if_pos (by omega)]
      exact slots_getElem_cleared hm (hbehind m (by omega) hm)
  · rw [List.getElem?_eq_none (by rw [length_slots]; omega), List.getElem?_eq_none]
    rw [List.length_append, hlen, List.length_replicate]
    omega

/-- The split of a full node, for even and odd numbers of pairs: the first half of the slots goes to the
cleared node, the rest to the front of the old one, and all slots behind are clear. -/
theorem splitNode_slots (hN : 2 ≤ geo.noPairs) (node : Words w) :
    slots geo (splitNode geo geo.noPairs (fun _ => 0#w) node).1 = (slots geo node).take (geo.noPairs / 2) ++
        List.replicate (geo.noPairs - geo.noPairs / 2) (clearedSlot geo w) ∧
      slots geo (splitNode geo geo.noPairs (fun _ => 0#w) node).2 = (slots geo node).drop (geo.noPairs / 2) ++
        List.replicate (geo.noPairs / 2) (clearedSlot geo w) ∧
      (slots geo (splitNode geo geo.noPairs (fun _ => 0#w) node).1).take (geo.noPairs / 2) ++
        (slots geo (splitNode geo geo.noPairs (fun _ => 0#w) node).2).take (geo.noPairs - geo.noPairs / 2) =
          slots geo node := by
  have hzero : ∀ m, slotAt geo (fun _ => 0#w) m = (0, 0#w) :=
    fun m => Prod.ext (keyNum_eq_zero.mpr fun _ _ => rfl) rfl
  have hnew : slots geo (splitNode geo geo.noPairs (fun _ => 0#w) node).1 =
      (slots geo node).take (geo.noPairs / 2) ++
        List.replicate (geo.noPairs - geo.noPairs / 2) (clearedSlot geo w) := by
    refine slots_eq_of_slotAt geo _ node 0 _ (by omega) (fun m hm => ?_) fun m hlow hm => ?_
    · rw [(slotAt_splitNode (by omega) hN (Nat.le_refl _)).1, if_pos hm, Nat.add_zero]
    · rw [(slotAt_splitNode hm hN (Nat.le_refl _)).1, if_neg (by omega), hzero]
  have hold : slots geo (splitNode geo geo.noPairs (fun _ => 0#w) node).2 =
      (slots geo node).drop (geo.noPairs / 2) ++ List.replicate (geo.noPairs / 2) (clearedSlot geo w) := by
    have h := slots_eq_of_slotAt geo (splitNode geo geo.noPairs (fun _ => 0#w) node).2 node
      (geo.noPairs / 2) (geo.noPairs - geo.noPairs / 2) (by omega)
      (fun m hm => by rw [(slotAt_splitNode (by omega) hN (Nat.le_refl _)).2, if_pos hm])
      (fun m hlow hm => by
        rw [(slotAt_splitNode hm hN (Nat.le_refl _)).2, if_neg (by omega), if_pos hm])
    rw [List.take_of_length_le (by rw [List.length_drop, length_slots])] at h
    rw [h, Nat.sub_sub_self (Nat.div_le_self _ _)]
  refine ⟨hnew, hold, ?_⟩
  have hlow : ((slots geo node).take (geo.noPairs / 2)).length = geo.noPairs / 2 := by
    rw [List.length_take, length_slots]
    omega
  have hhigh : ((slots geo node).drop (geo.noPairs / 2)).length = geo.noPairs - geo.noPairs / 2 := by
    rw [List.length_drop, length_slots]
  rw [hnew, hold, List.take_left' hlow, List.take_left' hhigh, List.take_append_drop]

/-- Of seven pairs three move and four stay. -/
theorem splitNode_slots_seven :
    slots ⟨1, 7, 7, Nat.one_pos, rfl⟩ (splitNode ⟨1, 7, 7, Nat.one_pos, rfl⟩ 7 (fun _ => 0#64)
        fun o => BitVec.ofNat 64 (o + 1)).2 =
      (slots ⟨1, 7, 7, Nat.one_pos, rfl⟩ fun o => BitVec.ofNat 64 (o + 1)).drop 3 ++
        List.replicate 3 (clearedSlot ⟨1, 7, 7, Nat.one_pos, rfl⟩ 64) :=
  (splitNode_slots (by decide) fun o => BitVec.ofNat 64 (o + 1)).2.1

theorem sameCache_shiftRight {pos : Nat} : ∀ {d : Nat} {node : Words w},
    pos + d < geo.noPairs → SameCache geo node (shiftRight geo pos d node)
  | 0, node, _ => SameCache.refl node
  | _ + 1, _, h => (sameCache_copypair (by omega)).trans (sameCache_shiftRight (by omega))

theorem sameCache_shiftLeft {node : Words w} {pos : Nat} : ∀ {d : Nat},
    pos + d ≤ geo.noPairs → SameCache geo node (shiftLeft geo node pos d)
  | 0, _ => SameCache.refl node
  | _ + 1, h => (sameCache_shiftLeft (by omega)).trans (sameCache_copypair (by omega))

theorem sameCache_appendPairs {left right : Words w} {lfill : Nat} : ∀ {n : Nat},
    lfill + n ≤ geo.noPairs → SameCache geo left (appendPairs geo left lfill right n)
  | 0, _ => SameCache.refl left
  | _ + 1, h => (sameCache_appendPairs (by omega)).trans (sameCache_copypair (by omega))

theorem sameCache_splitLoop {new node : Words w} {fill : Nat} (hfill : fill ≤ geo.noPairs) :
    ∀ {i : Nat}, i ≤ fill / 2 →
    SameCache geo new (splitLoop geo fill i (new, node)).1 ∧
      SameCache geo node (splitLoop geo fill i (new, node)).2 := by
  intro i
  induction i with
  | zero =>
    intro _
    exact ⟨SameCache.refl new, SameCache.refl node⟩
  | succ i hrec =>
    intro hi
    have ih : SameCache geo new (splitLoop geo fill i (new, node)).1 ∧
        SameCache geo node (splitLoop geo fill i (new, node)).2 :=
      hrec (by omega)
    exact ⟨ih.1.trans (sameCache_copypair (by omega)),
      (ih.2.trans (sameCache_copypair (by omega))).trans (sameCache_clearpair (by omega))⟩

theorem sameCache_splitNode {new node : Words w} {fill : Nat} (hfill : fill ≤ geo.noPairs) :
    SameCache geo new (splitNode geo fill new node).1 ∧
      SameCache geo node (splitNode geo fill new node).2 := by
  have hloop : SameCache geo new (splitLoop geo fill (fill / 2) (new, node)).1 ∧
      SameCache geo node (splitLoop geo fill (fill / 2) (new, node)).2 :=
    sameCache_splitLoop hfill (Nat.le_refl (fill / 2))
  unfold splitNode
  by_cases hodd : fill % 2 = 1
  · simp only [hodd, if_true]
    exact ⟨hloop.1, (hloop.2.trans (sameCache_copypair (by omega))).trans
      (sameCache_clearpair (by omega))⟩
  · simp only [hodd, if_false]
    exact hloop

end CachedBTree
