import CachedBTree.Model.Calclock
import CachedBTree.Support.Groups

/-! # The commas of `separate_num`

The first loop writes the digits from the last one on, with a comma before the next digit as soon as
three have been written; a round that writes a comma stays at its digit.  The second loop turns that
around.  The digits of a 64-bit number with their commas fit in the buffers. -/

namespace CachedBTree.Calclock

open CachedBTree.Support

/-- The characters stand in the buffer from place `i` on. -/
def Holds (buff : CharBuff) : Nat → List Char → Prop
  | _, [] => True
  | i, c :: cs => buff i = c ∧ Holds buff (i + 1) cs

theorem holds_append {buff : CharBuff} : ∀ {i : Nat} {cs cs' : List Char},
    Holds buff i (cs ++ cs') ↔ Holds buff i cs ∧ Holds buff (i + cs.length) cs'
  | i, [], cs' => by simp [Holds]
  | i, c :: cs, cs' => by
    rw [List.cons_append, Holds, Holds, holds_append (i := i + 1), List.length_cons, and_assoc,
      Nat.add_right_comm, Nat.add_assoc]

theorem Holds.congr {buff buff' : CharBuff} : ∀ {i : Nat} {cs : List Char}, Holds buff i cs →
    (∀ j, i ≤ j → j < i + cs.length → buff' j = buff j) → Holds buff' i cs
  | _, [], _, _ => trivial
  | i, c :: cs, h, hsame => by
    rw [List.length_cons] at hsame
    exact ⟨(hsame i le_rfl (by omega)).trans h.1,
      h.2.congr fun j hj hlt => hsame j (by omega) (by omega)⟩

theorem Holds.map_range {buff : CharBuff} : ∀ {i : Nat} {cs : List Char}, Holds buff i cs →
    (List.range cs.length).map (fun k => buff (i + k)) = cs
  | _, [], _ => rfl
  | i, c :: cs, h => by
    have ih := h.2.map_range
    rw [List.length_cons, List.range_succ_eq_map, List.map_cons, List.map_map]
    simp only [Function.comp_def, Nat.add_zero, h.1, Nat.add_succ, ← Nat.succ_add]
    rw [show (fun k => buff (i.succ + k)) = fun k => buff (i + 1 + k) from rfl, ih]

/-! ## Stores -/

theorem store_eq {buff : CharBuff} {i : Nat} {c : Char} (hi : i < BUFF_SIZE) :
    buff.store i c = some (Function.update buff i c) := if_pos hi

theorem load_eq {buff : CharBuff} {i : Nat} (hi : i < BUFF_SIZE) : buff.load i = some (buff i) := if_pos hi

theorem storeChars_spec : ∀ (buff : CharBuff) (i : Nat) (cs : List Char), i + cs.length < BUFF_SIZE →
    ∃ buff', buff.storeChars i cs = some buff' ∧ Holds buff' i cs ∧ buff' (i + cs.length) = '\x00' ∧
      ∀ j < i, buff' j = buff j := by
  intro buff i cs
  induction cs generalizing buff i with
  | nil =>
    intro hlen
    refine ⟨Function.update buff i '\x00', store_eq hlen, trivial, Function.update_self _ _ _, fun j hj => ?_⟩
    exact Function.update_of_ne (by omega) _ _
  | cons c cs ih =>
    intro hlen
    rw [List.length_cons] at hlen
    obtain ⟨buff', heq, hholds, hend, hbefore⟩ := ih (Function.update buff i c) (i + 1) (by omega)
    refine ⟨buff', ?_, ⟨?_, hholds⟩, ?_, fun j hj => ?_⟩
    · rw [CharBuff.storeChars, store_eq (by omega)]
      exact heq
    · rw [hbefore i (by omega), Function.update_self]
    · rw [List.length_cons, show i + (cs.length + 1) = i + 1 + cs.length by omega]
      exact hend
    · rw [hbefore j (by omega), Function.update_of_ne (by omega)]

theorem strlen_eq {buff : CharBuff} {cs : List Char} (hholds : Holds buff 0 cs)
    (hend : buff cs.length = '\x00') (hcs : '\x00' ∉ cs) (hlen : cs.length < BUFF_SIZE) :
    buff.strlen = some cs.length := by
  have hscan : scan (fun i => decide (buff i = '\x00')) 0 BUFF_SIZE = cs.length := by
    refine scan_eq_of_first (Nat.zero_le _) (by omega) (by simpa using hend) fun j _ hj => ?_
    have hmem : buff j ∈ cs := by
      have hmap := hholds.map_range
      rw [← hmap]
      exact List.mem_map.mpr ⟨j, List.mem_range.mpr hj, by rw [Nat.zero_add]⟩
    exact decide_eq_false fun hnull => hcs (hnull ▸ hmem)
  unfold CharBuff.strlen
  rw [hscan]
  exact if_pos hlen

theorem chars_eq {buff : CharBuff} {cs : List Char} (hholds : Holds buff 0 cs)
    (hend : buff cs.length = '\x00') (hcs : '\x00' ∉ cs) (hlen : cs.length < BUFF_SIZE) :
    buff.chars = some cs := by
  have hmap := hholds.map_range
  simp only [Nat.zero_add] at hmap
  rw [CharBuff.chars, strlen_eq hholds hend hcs hlen]
  exact congrArg some hmap

/-! ## The loops -/

/-- `l` is what is left to read, the next character first. -/
theorem reverseLoop_spec (tmpBuff : CharBuff) : ∀ (l : List Char) (counter rvsCur : Nat) (rvs : CharBuff),
    Holds tmpBuff 0 l.reverse → l.length ≤ BUFF_SIZE →
    rvsCur + (separated ',' counter l).length ≤ BUFF_SIZE →
    ∃ rvs', reverseLoop tmpBuff (l.length - 1) counter rvsCur rvs =
        some (rvsCur + (separated ',' counter l).length, rvs') ∧
      Holds rvs' rvsCur (separated ',' counter l) ∧ ∀ j < rvsCur, rvs' j = rvs j := by
  intro l
  induction l with
  | nil =>
    intro counter rvsCur rvs _ _ _
    refine ⟨rvs, ?_, trivial, fun _ _ => rfl⟩
    rw [reverseLoop, if_neg (by simp)]
    rfl
  | cons c cs ih =>
    intro counter rvsCur rvs hholds hlen hroom
    rw [List.reverse_cons, holds_append, List.length_reverse, Nat.zero_add] at hholds
    rw [List.length_cons] at hlen
    have hcur : (((c :: cs).length : Nat) : Int) - 1 = (cs.length : Int) := by
      rw [List.length_cons]
      omega
    -- one digit, when the counter is below three
    have hdigit : ∀ (n rvsCur : Nat) (rvs : CharBuff), n ≠ 3 →
        rvsCur + 1 + (separated ',' (n + 1) cs).length ≤ BUFF_SIZE →
        ∃ rvs', reverseLoop tmpBuff cs.length n rvsCur rvs =
            some (rvsCur + 1 + (separated ',' (n + 1) cs).length, rvs') ∧
          Holds rvs' rvsCur (c :: separated ',' (n + 1) cs) ∧ ∀ j < rvsCur, rvs' j = rvs j := by
      intro n rvsCur rvs hn hroom
      obtain ⟨rvs', heq, hwritten, hbefore⟩ :=
        ih (n + 1) (rvsCur + 1) (Function.update rvs rvsCur c) hholds.1 (by omega) hroom
      refine ⟨rvs', ?_, ⟨?_, hwritten⟩, fun j hj => ?_⟩
      · rw [reverseLoop, if_pos (by omega), if_neg hn, Int.toNat_natCast, load_eq (by omega), hholds.2.1]
        simp only [Option.bind_eq_bind, Option.bind_some, store_eq (show rvsCur < BUFF_SIZE by omega)]
        exact heq
      · rw [hbefore rvsCur (by omega), Function.update_self]
      · rw [hbefore j (by omega), Function.update_of_ne (by omega)]
    rw [hcur]
    by_cases hthree : counter = 3
    · subst hthree
      simp only [separated, if_true, List.length_cons] at hroom ⊢
      obtain ⟨rvs', heq, hwritten, hbefore⟩ := hdigit 0 (rvsCur + 1)
        (Function.update rvs rvsCur ',') (by decide) (by simp only [Nat.zero_add]; omega)
      refine ⟨rvs', ?_, ⟨?_, hwritten⟩, fun j hj => ?_⟩
      · rw [reverseLoop, if_pos (by omega), if_pos rfl, store_eq (by omega), Option.bind_eq_bind,
          Option.bind_some, Int.add_sub_cancel, heq]
        simp only [Nat.zero_add]
        congr 2
        omega
      · rw [hbefore rvsCur (by omega), Function.update_self]
      · rw [hbefore j (by omega), Function.update_of_ne (by omega)]
    · simp only [separated, hthree, if_false, List.length_cons] at hroom ⊢
      obtain ⟨rvs', heq, hwritten, hbefore⟩ := hdigit counter rvsCur rvs hthree (by omega)
      refine ⟨rvs', ?_, hwritten, hbefore⟩
      rw [heq]
      congr 2
      omega

/-- `l` is what is left to write. -/
theorem copyLoop_spec (rvs : CharBuff) : ∀ (l : List Char) (cur : Nat) (buffer : CharBuff),
    Holds rvs 0 l.reverse → cur + l.length ≤ BUFF_SIZE →
    ∃ buffer', copyLoop rvs cur l.length buffer = some (cur + l.length, buffer') ∧ Holds buffer' cur l ∧
      ∀ j < cur, buffer' j = buffer j := by
  intro l
  induction l with
  | nil =>
    intro cur buffer _ _
    exact ⟨buffer, rfl, trivial, fun _ _ => rfl⟩
  | cons c cs ih =>
    intro cur buffer hholds hroom
    rw [List.reverse_cons, holds_append, List.length_reverse, Nat.zero_add] at hholds
    rw [List.length_cons] at hroom
    obtain ⟨buffer', heq, hwritten, hbefore⟩ := ih (cur + 1) (Function.update buffer cur c) hholds.1 (by omega)
    refine ⟨buffer', ?_, ⟨?_, hwritten⟩, fun j hj => ?_⟩
    · rw [List.length_cons, copyLoop, load_eq (by omega), hholds.2.1]
      simp only [Option.bind_eq_bind, Option.bind_some, store_eq (show cur < BUFF_SIZE by omega)]
      rw [heq, Nat.add_right_comm, Nat.add_assoc]
    · rw [hbefore cur (by omega), Function.update_self]
    · rw [hbefore j (by omega), Function.update_of_ne (by omega)]

/-! ## separate_num -/

theorem digit_not_separator {number : Nat} {c : Char} (hc : c ∈ Nat.toDigits 10 number) :
    c ≠ ',' ∧ c ≠ '\x00' := by
  have hdigit : c.isDigit := Nat.isDigit_of_mem_toDigits (by decide) (by decide) hc
  constructor
  · rintro rfl
    exact absurd hdigit (by decide)
  · rintro rfl
    exact absurd hdigit (by decide)

theorem mem_separated {α : Type} {sep x : α} : ∀ {counter : Nat} {l : List α},
    x ∈ separated sep counter l → x = sep ∨ x ∈ l := by
  intro counter l
  induction l generalizing counter with
  | nil =>
    intro h
    exact absurd h (List.not_mem_nil)
  | cons c cs ih =>
    intro h
    unfold separated at h
    split at h
    next =>
      cases List.mem_cons.mp h with
      | inl hsep => exact .inl hsep
      | inr h =>
        cases List.mem_cons.mp h with
        | inl hc => exact .inr (hc ▸ List.mem_cons_self)
        | inr h => exact (ih h).imp_right (List.mem_cons_of_mem _)
    next =>
      cases List.mem_cons.mp h with
      | inl hc => exact .inr (hc ▸ List.mem_cons_self)
      | inr h => exact (ih h).imp_right (List.mem_cons_of_mem _)

/-- The text is in the buffer, and no store or load was outside of one. -/
theorem separateNum_chars (stack buffer : CharBuff) (number : BitVec 64) : ∃ buffer',
    separateNum stack number buffer = some buffer' ∧
      buffer'.chars = some (separated ',' 0 (Nat.toDigits 10 number.toNat).reverse).reverse := by
  -- 20 digits at most, so none of the loops leaves its buffer
  have hdigits : (Nat.toDigits 10 number.toNat).length ≤ 20 :=
    (Nat.length_toDigits_le_iff (by decide) (by decide)).mpr (Nat.lt_trans number.isLt (by decide))
  have hsize : BUFF_SIZE = 100 := rfl
  have hnull : '\x00' ∉ Nat.toDigits 10 number.toNat := fun hmem => (digit_not_separator hmem).2 rfl
  unfold separateNum sprintfLlu
  generalize Nat.toDigits 10 number.toNat = ds at *
  have hlen := length_separated_le ',' 0 ds.reverse
  rw [List.length_reverse] at hlen
  -- `sprintf`, the loop over the digits from the last one, and the loop that turns them round
  obtain ⟨tmpBuff, htmp, htmpHolds, htmpEnd, -⟩ := storeChars_spec stack 0 ds (by omega)
  rw [Nat.zero_add] at htmpEnd
  obtain ⟨rvs, hrvs, hrvsHolds, -⟩ := reverseLoop_spec tmpBuff ds.reverse 0 0 stack
    (by rwa [List.reverse_reverse]) (by rw [List.length_reverse]; omega) (by omega)
  rw [List.length_reverse, Nat.zero_add] at hrvs
  obtain ⟨buffer₁, hcopy, hwritten, -⟩ := copyLoop_spec rvs (separated ',' 0 ds.reverse).reverse 0
    buffer (by rwa [List.reverse_reverse]) (by rw [List.length_reverse]; omega)
  rw [List.length_reverse, Nat.zero_add] at hcopy
  refine ⟨Function.update buffer₁ (separated ',' 0 ds.reverse).length '\x00', ?_, chars_eq ?_ ?_ ?_ ?_⟩
  · have hstrlen : tmpBuff.strlen = some ds.length := strlen_eq htmpHolds htmpEnd hnull (by omega)
    simp only [htmp, hstrlen, hrvs, hcopy, Option.bind_eq_bind, Option.bind_some]
    exact store_eq (by omega)
  · refine hwritten.congr fun j _ hj => Function.update_of_ne ?_ _ _
    rw [List.length_reverse] at hj
    omega
  · rw [List.length_reverse, Function.update_self]
  · intro hmem
    cases mem_separated (List.mem_reverse.mp hmem) with
    | inl hsep => exact absurd hsep (by decide)
    | inr hdigit => exact hnull (List.mem_reverse.mp hdigit)
  · rw [List.length_reverse]
    omega

/-- `separate_num` writes the digits of the number with commas between them, which leave groups of three
from the right and one to three digits in front. -/
theorem separateNum_groups (stack buffer : CharBuff) (number : BitVec 64) : ∃ buffer' text,
    separateNum stack number buffer = some buffer' ∧ buffer'.chars = some text ∧
      text.filter (· ≠ ',') = Nat.toDigits 10 number.toNat ∧
      ∃ g gs, text.splitOn ',' = g :: gs ∧ 1 ≤ g.length ∧ g.length ≤ 3 ∧ ∀ x ∈ gs, x.length = 3 := by
  obtain ⟨buffer', heq, hchars⟩ := separateNum_chars stack buffer number
  obtain ⟨g, gs, htext, hflat, hpos, hle, hgs⟩ := reverse_separated ',' (Nat.toDigits 10 number.toNat)
    Nat.toDigits_ne_nil
  have hcomma : ∀ x ∈ g :: gs, ',' ∉ x := fun x hx hmem =>
    (digit_not_separator (hflat ▸ List.mem_flatten.mpr ⟨x, hx, hmem⟩)).1 rfl
  refine ⟨buffer', _, heq, hchars, ?_, g, gs, ?_, hpos, hle, hgs⟩
  · rw [htext, filter_intercalate _ hcomma, hflat]
  · rw [htext]
    exact List.splitOn_intercalate ',' hcomma (List.cons_ne_nil _ _)

end CachedBTree.Calclock
