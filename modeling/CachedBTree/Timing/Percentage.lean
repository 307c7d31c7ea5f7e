import CachedBTree.Timing.Commas

/-! # The percentage of `__ktprint`

The static variable holds the longest time of all calls, so the time of a call is never above it, and
the percentage is exact as long as ten thousand times the time fits in 63 bits.  From then on the
product wraps around and the percentage is another one. -/

namespace CachedBTree.Calclock

/-! ## Wrapping -/

/-- A product that has wrapped around gives a quotient below the right one. -/
theorem tdiv_bmod_lt {x m : Int} (hm : 0 < m) (hm63 : m < 2 ^ 63) (hx : 2 ^ 63 ≤ x) :
    (x.bmod (2 ^ 64)).tdiv m < x / m := by
  have hupper : x.bmod (2 ^ 64) < 2 ^ 63 := by
    have := Int.bmod_lt (x := x) (m := 2 ^ 64) (by decide)
    omega
  obtain ⟨k, hk⟩ : ∃ k, x = x.bmod (2 ^ 64) + 2 ^ 64 * k :=
    ⟨x.bdiv (2 ^ 64), by have := Int.bmod_add_bdiv x (2 ^ 64); omega⟩
  have hfloor : x < (x / m + 1) * m := Int.lt_ediv_add_one_mul_self x hm
  cases le_or_gt 0 (x.bmod (2 ^ 64)) with
  | inl hnonneg =>
    -- at least 2 ^ 64 is missing, which is more than two divisors
    have hq : (x.bmod (2 ^ 64)).tdiv m * m ≤ x.bmod (2 ^ 64) := by
      rw [Int.tdiv_eq_ediv_of_nonneg hnonneg]
      exact Int.ediv_mul_le _ (by omega)
    have hlt : (x.bmod (2 ^ 64)).tdiv m * m < (x / m) * m := by
      rw [Int.add_mul, Int.one_mul] at hfloor
      omega
    exact Int.lt_of_mul_lt_mul_right hlt (by omega)
  | inr hneg =>
    have hle : (x.bmod (2 ^ 64)).tdiv m ≤ 0 := by
      have := Int.tdiv_nonneg (a := -x.bmod (2 ^ 64)) (b := m) (by omega) (by omega)
      rw [Int.neg_tdiv] at this
      omega
    have hone : 1 ≤ x / m := Int.le_ediv_of_mul_le hm (by omega)
    omega

/-- Such a quotient still fits in an `int`, for a divisor that is not below the time. -/
theorem natAbs_tdiv_bmod_le {t m : Int} (ht : 0 ≤ t) (htm : t ≤ m) (hm : 0 < m) :
    ((t * 10000).bmod (2 ^ 64)).natAbs / m.natAbs ≤ 10000 := by
  have hbound : ((t * 10000).bmod (2 ^ 64)).natAbs ≤ 10000 * m.natAbs := by
    have hlower := Int.le_bmod (x := t * 10000) (m := 2 ^ 64) (by decide)
    have hupper := Int.bmod_lt (x := t * 10000) (m := 2 ^ 64) (by decide)
    cases lt_or_ge (t * 10000) (2 ^ 63) with
    | inl hlt =>
      have heq : (t * 10000).bmod (2 ^ 64) = t * 10000 := Int.bmod_eq_of_le (by omega) (by omega)
      omega
    | inr hge =>
      omega
  exact Nat.div_le_of_le_mul (by rwa [Nat.mul_comm])

theorem toInt_setWidth_of_small {x : BitVec 64} (hlow : -10000 ≤ x.toInt) (hhigh : x.toInt ≤ 10000) :
    (x.setWidth 32).toInt = x.toInt := by
  have hnat : (x.toNat : Int).bmod (2 ^ 32) = x.toInt.bmod (2 ^ 32) := by
    have := BitVec.toInt_eq_toNat_cond x
    split at this
    next => rw [this]
    next =>
      have hpow : ((2 ^ 64 : Nat) : Int) = ((2 ^ 32 : Nat) : Int) * 2 ^ 32 := rfl
      rw [this, hpow, Int.sub_mul_bmod_self_left]
  rw [BitVec.toInt_setWidth, hnat]
  exact Int.bmod_eq_of_le (by omega) (by omega)

/-! ## One call -/

/-- What is asked of a call whose longest time so far, its own included, is `m`. -/
structure Exact (m : Int) (call : KtCall) (line : KtLine) : Prop where
  percentage : line.percentage.toInt = 10000 * call.time.toInt / m
  nonneg : 0 ≤ line.percentage.toInt
  le : line.percentage.toInt ≤ 10000
  noOverflow : (call.time * 10000).toInt = call.time.toInt * 10000
  divisor : line.totaltime ≠ 0

theorem percentage_iff {time total : Ktime} (ht : 0 ≤ time.toInt) (hle : time.toInt ≤ total.toInt)
    (hpos : 0 < total.toInt) :
    ((((time * 10000).sdiv total).setWidth 32).toInt = 10000 * time.toInt / total.toInt ↔
      10000 * time.toInt < 2 ^ 63) ∧
    (10000 * time.toInt < 2 ^ 63 → (time * 10000).toInt = time.toInt * 10000) ∧
    (((time * 10000).sdiv total).setWidth 32).toInt.natAbs ≤ 10000 := by
  have hlt : total.toInt < 2 ^ 63 := BitVec.toInt_lt
  have hmul : (time * 10000).toInt = (time.toInt * 10000).bmod (2 ^ 64) := BitVec.toInt_mul _ _
  have hdiv : ((time * 10000).sdiv total).toInt = ((time.toInt * 10000).bmod (2 ^ 64)).tdiv total.toInt := by
    rw [BitVec.toInt_sdiv_of_ne_or_ne, hmul]
    refine .inr fun heq => ?_
    rw [heq] at hpos
    exact absurd hpos (by decide)
  -- wrapped or not, the quotient fits into an int
  have habs : ((time * 10000).sdiv total).toInt.natAbs ≤ 10000 := by
    rw [hdiv, Int.natAbs_tdiv]
    exact natAbs_tdiv_bmod_le ht hle hpos
  have hsmall : (((time * 10000).sdiv total).setWidth 32).toInt =
      ((time.toInt * 10000).bmod (2 ^ 64)).tdiv total.toInt := by
    rw [toInt_setWidth_of_small (by omega) (by omega), hdiv]
  have hfits : 10000 * time.toInt < 2 ^ 63 → (time.toInt * 10000).bmod (2 ^ 64) = time.toInt * 10000 :=
    fun hfit => Int.bmod_eq_of_le (by omega) (by omega)
  refine ⟨⟨fun heq => ?_, fun hfit => ?_⟩, fun hfit => hmul.trans (hfits hfit), by rwa [hsmall, ← hdiv]⟩
  · by_contra hge
    -- a product that has wrapped is below 2 ^ 63, so the quotient is too small
    have := tdiv_bmod_lt hpos hlt (show 2 ^ 63 ≤ time.toInt * 10000 by omega)
    rw [hsmall, Int.mul_comm 10000] at heq
    omega
  · rw [hsmall, hfits hfit, Int.tdiv_eq_ediv_of_nonneg (by omega), Int.mul_comm]

/-- A call leaves the longest time in the static variable. -/
theorem ktprint_spec (stack : CharBuff) (numOnlineCpus : BitVec 32) {call : KtCall} {totaltime : Ktime}
    (ht : 0 ≤ call.time.toInt) (hpos : 0 < totaltime.toInt) :
    ∃ line, ktprint stack numOnlineCpus call totaltime = some line ∧
      line.totaltime.toInt = max totaltime.toInt call.time.toInt ∧
      (line.percentage.toInt = 10000 * call.time.toInt / max totaltime.toInt call.time.toInt ↔
        10000 * call.time.toInt < 2 ^ 63) ∧
      (10000 * call.time.toInt < 2 ^ 63 → Exact (max totaltime.toInt call.time.toInt) call line) := by
  obtain ⟨buff₁, hbuff₁, hchars₁⟩ := separateNum_chars stack stack call.count
  obtain ⟨buff₂, hbuff₂, hchars₂⟩ := separateNum_chars stack buff₁ call.time
  obtain ⟨buff₃, hbuff₃, hchars₃⟩ := separateNum_chars stack stack
    (call.time.sdiv (numOnlineCpus.setWidth 64))
  -- the total grows to the greatest time so far
  have htotal : ∀ total, (if ktimeBefore totaltime call.time then call.time else totaltime) = total →
      total.toInt = max totaltime.toInt call.time.toInt := by
    rintro total rfl
    unfold ktimeBefore
    split
    next hlt => rw [max_eq_right (le_of_lt (BitVec.slt_iff_toInt_lt.mp hlt))]
    next hge => rw [max_eq_left (not_lt.mp fun hlt => hge (BitVec.slt_iff_toInt_lt.mpr hlt))]
  simp only [ktprint, hbuff₁, hchars₁, hbuff₂, hchars₂, hbuff₃, hchars₃, Option.bind_eq_bind, Option.bind_some]
  refine ⟨_, rfl, htotal _ rfl, ?_⟩
  simp only
  generalize htot : (if ktimeBefore totaltime call.time then call.time else totaltime) = total
  rw [← htotal total htot]
  have hle : call.time.toInt ≤ total.toInt := htotal total htot ▸ le_max_right _ _
  have hge : totaltime.toInt ≤ total.toInt := htotal total htot ▸ le_max_left _ _
  have hposTotal : 0 < total.toInt := by omega
  obtain ⟨hiff, hmul, habs⟩ := percentage_iff ht hle hposTotal
  refine ⟨hiff, fun hfit => ⟨hiff.mpr hfit, ?_, by simp only; omega, hmul hfit, ?_⟩⟩
  · rw [hiff.mpr hfit]
    exact Int.ediv_nonneg (by omega) (by omega)
  · rintro rfl
    exact absurd hposTotal (by decide)

/-! ## Calls one after another -/

/-- The largest of `m` and the times of the calls. -/
def longest (m : Int) (calls : List KtCall) : Int := calls.foldl (fun m call => max m call.time.toInt) m

theorem ktprintAll_spec (stack : CharBuff) (numOnlineCpus : BitVec 32) : ∀ (calls : List KtCall)
    (totaltime : Ktime), (∀ call ∈ calls, 0 ≤ call.time.toInt) → 0 < totaltime.toInt →
    ∃ lines, ktprintAll stack numOnlineCpus calls totaltime = some lines ∧ lines.length = calls.length ∧
      ∀ n call line, calls[n]? = some call → lines[n]? = some line →
        (line.percentage.toInt = 10000 * call.time.toInt / longest totaltime.toInt (calls.take (n + 1)) ↔
          10000 * call.time.toInt < 2 ^ 63) ∧
        (10000 * call.time.toInt < 2 ^ 63 → Exact (longest totaltime.toInt (calls.take (n + 1))) call line) := by
  intro calls
  induction calls with
  | nil =>
    intro totaltime _ _
    exact ⟨[], rfl, rfl, fun n call line h => by simp at h⟩
  | cons call calls ih =>
    intro totaltime hnonneg hpos
    obtain ⟨line, hline, htotal, hstep⟩ := ktprint_spec stack numOnlineCpus (hnonneg call List.mem_cons_self) hpos
    obtain ⟨lines, hlines, hlength, hrest⟩ :=
      ih line.totaltime (fun c hc => hnonneg c (List.mem_cons_of_mem _ hc)) (by omega)
    refine ⟨line :: lines, ?_, by rw [List.length_cons, hlength, List.length_cons], fun n c l hc hl => ?_⟩
    · rw [ktprintAll, hline]
      simp only [Option.bind_eq_bind, Option.bind_some, hlines]
    · cases n with
      | zero =>
        obtain rfl : call = c := by simpa using hc
        obtain rfl : line = l := by simpa using hl
        exact hstep
      | succ n =>
        have h := hrest n c l (by simpa using hc) (by simpa using hl)
        rw [htotal] at h
        exact h

/-- In calls with times that are not negative, the percentage of a call is the rounded down share of the
longest time so far if and only if ten thousand times its time does not overflow. -/
theorem ktprintAll_exact_iff (stack : CharBuff) (numOnlineCpus : BitVec 32) (calls : List KtCall)
    (hnonneg : ∀ call ∈ calls, 0 ≤ call.time.toInt) :
    ∃ lines, ktprintAll stack numOnlineCpus calls 1 = some lines ∧ lines.length = calls.length ∧
      ∀ n call line, calls[n]? = some call → lines[n]? = some line →
        (line.percentage.toInt = 10000 * call.time.toInt / longest 1 (calls.take (n + 1)) ↔
          10000 * call.time.toInt < 2 ^ 63) ∧
        (Exact (longest 1 (calls.take (n + 1))) call line ↔ 10000 * call.time.toInt < 2 ^ 63) := by
  obtain ⟨lines, hlines, hlength, hall⟩ := ktprintAll_spec stack numOnlineCpus calls 1 hnonneg (by decide)
  refine ⟨lines, hlines, hlength, fun n call line hc hl => ?_⟩
  obtain ⟨hiff, hexact⟩ := hall n call line hc hl
  exact ⟨hiff, fun h => hiff.mp h.percentage, hexact⟩

/-- Two calls of one and two seconds. -/
theorem ktprintAll_exact_seconds : ∃ lines,
    ktprintAll (fun _ => '\x00') 4 [⟨0, "insert", 1000000000, 10⟩, ⟨0, "lookup", 2000000000, 20⟩] 1 = some lines ∧
      ∀ line, lines[0]? = some line → line.percentage.toInt = 10000 := by
  obtain ⟨lines, hlines, -, hall⟩ := ktprintAll_exact_iff (fun _ => '\x00') 4
    [⟨0, "insert", 1000000000, 10⟩, ⟨0, "lookup", 2000000000, 20⟩] (by decide)
  exact ⟨lines, hlines, fun line hl => (hall 0 _ line rfl hl).1.mpr (by decide)⟩

/-- A single call of somewhat under eleven days does not print 100 percent. -/
theorem ktprintAll_overflow : ¬∀ (stack : CharBuff) (numOnlineCpus : BitVec 32) (calls : List KtCall)
    (lines : List KtLine), (∀ call ∈ calls, 0 ≤ call.time.toInt) →
      ktprintAll stack numOnlineCpus calls 1 = some lines → ∀ n call line, calls[n]? = some call →
        lines[n]? = some line → Exact (longest 1 (calls.take (n + 1))) call line := by
  intro h
  obtain ⟨lines, hlines, hlength, hall⟩ := ktprintAll_spec (fun _ => '\x00') 4
    [⟨0, "insert", 922337203685478, 1⟩] 1 (by decide) (by decide)
  obtain ⟨line, hline⟩ : ∃ line, lines[0]? = some line :=
    ⟨_, List.getElem?_eq_getElem (by rw [hlength]; decide)⟩
  have hexact := h _ _ _ _ (by decide) hlines 0 _ _ rfl hline
  exact absurd ((hall 0 _ _ rfl hline).1.mp hexact.percentage) (by decide)

end CachedBTree.Calclock
