import CachedBTree.Timing.Commas
import CachedBTree.Timing.Percentage
import CachedBTree.Support.Tally
import Mathlib.Algebra.Order.BigOperators.Group.List

/-! # From the measurements to the printed sums

Every CPU has a clock of its own, to which `ktput` adds under disabled preemption, so the
measurements of all CPUs come one after another in some order.  A clock stops at `KTIME_MAX`,
the sum over the clocks wraps around. -/

namespace CachedBTree.Calclock

open CachedBTree.Support

variable {κ : Type} [DecidableEq κ] {ktimeAddSafe : Ktime → Ktime → Ktime} {clocks clocks' : Clocks κ}
  {m : Measure κ} {ms : List (Measure κ)} {online : List κ} {cpu : κ}

/-- `ktime_add_safe` of the kernel: a sum that is too large becomes `KTIME_MAX`. -/
def AddsSafely (ktimeAddSafe : Ktime → Ktime → Ktime) : Prop :=
  ∀ lhs rhs : Ktime, 0 ≤ lhs.toInt → 0 ≤ rhs.toInt →
    (ktimeAddSafe lhs rhs).toInt = min (lhs.toInt + rhs.toInt) KTIME_MAX.toInt

/-- The clocks are read one after the other from a time that is not negative. -/
def Measure.Ordered (m : Measure κ) : Prop := 0 ≤ m.start.toInt ∧ m.start.toInt ≤ m.stop.toInt

instance decidableOrdered (m : Measure κ) : Decidable m.Ordered := inferInstanceAs (Decidable (_ ∧ _))

def Measure.duration (m : Measure κ) : Int := m.stop.toInt - m.start.toInt

/-- The time measured on a CPU. -/
def spent (ms : List (Measure κ)) (cpu : κ) : Int := ((ms.filter fun m => m.cpu = cpu).map Measure.duration).sum

/-- The measurements put on a CPU. -/
def puts (ms : List (Measure κ)) (cpu : κ) : Nat := (ms.filter fun m => m.cpu = cpu).length

/-- The time measured on the CPUs that are online. -/
def spentOn (ms : List (Measure κ)) (online : List κ) : Int :=
  ((ms.filter fun m => m.cpu ∈ online).map Measure.duration).sum

def putsOn (ms : List (Measure κ)) (online : List κ) : Nat := (ms.filter fun m => m.cpu ∈ online).length

/-! ## The clocks -/

omit [DecidableEq κ] in
theorem Measure.Ordered.duration_nonneg (h : m.Ordered) : 0 ≤ m.duration := by
  unfold Measure.duration
  have := h.2
  omega

omit [DecidableEq κ] in
/-- `ktime_sub` does not overflow. -/
theorem Measure.Ordered.toInt_sub (h : m.Ordered) : (m.stop - m.start).toInt = m.duration := by
  obtain ⟨hstart, hle⟩ := h
  have hlt : m.stop.toInt < 2 ^ 63 := BitVec.toInt_lt
  rw [BitVec.toInt_sub]
  exact Int.bmod_eq_of_le (by omega) (by omega)

theorem spent_append (ms : List (Measure κ)) (m : Measure κ) (cpu : κ) :
    spent (ms ++ [m]) cpu = spent ms cpu + if m.cpu = cpu then m.duration else 0 := by
  unfold spent
  by_cases h : m.cpu = cpu <;> simp [h]

theorem puts_append (ms : List (Measure κ)) (m : Measure κ) (cpu : κ) :
    puts (ms ++ [m]) cpu = puts ms cpu + if m.cpu = cpu then 1 else 0 := by
  unfold puts
  by_cases h : m.cpu = cpu <;> simp [h]

theorem spent_nonneg (h : ∀ m ∈ ms, m.Ordered) (cpu : κ) : 0 ≤ spent ms cpu := by
  apply List.sum_nonneg
  intro d hd
  obtain ⟨m, hm, rfl⟩ := List.mem_map.mp hd
  exact (h m (List.mem_of_mem_filter hm)).duration_nonneg

/-- The clocks after the measurements `ms`. -/
structure Timed (ms : List (Measure κ)) (clocks : Clocks κ) : Prop where
  time : ∀ cpu, (clocks cpu).time.toInt = min (spent ms cpu) KTIME_MAX.toInt
  count : ∀ cpu, (clocks cpu).count = BitVec.ofNat 64 (puts ms cpu)

theorem timed_ktdef : Timed ([] : List (Measure κ)) Clocks.ktdef := ⟨fun _ => rfl, fun _ => rfl⟩

/-- One measurement more, on any CPU. -/
theorem Timed.ktput (hadd : AddsSafely ktimeAddSafe) (h : Timed ms clocks) (hms : ∀ m ∈ ms, m.Ordered)
    (hm : m.Ordered) :
    ∃ clocks', clocks.ktput ktimeAddSafe m = some clocks' ∧ Timed (ms ++ [m]) clocks' := by
  have hbug : ktimeAfter m.start m.stop = false := by
    unfold ktimeAfter ktimeBefore
    rw [BitVec.slt_eq_decide]
    exact decide_eq_false (by have := hm.2; omega)
  refine ⟨Function.update clocks m.cpu
    ⟨ktimeAddSafe (clocks m.cpu).time (m.stop - m.start), (clocks m.cpu).count + 1⟩, ?_, fun cpu => ?_, fun cpu => ?_⟩
  · simp only [Clocks.ktput, Calclock.ktput, hbug, Bool.false_eq_true, if_false, Option.bind_eq_bind,
      Option.bind_some]
  · rw [spent_append]
    by_cases hcpu : m.cpu = cpu
    · subst hcpu
      have hspent := spent_nonneg hms m.cpu
      have hduration := hm.duration_nonneg
      have hmax : KTIME_MAX.toInt = 2 ^ 63 - 1 := by decide
      rw [Function.update_self, hadd _ _ (by rw [h.time, hmax]; omega) (by rw [hm.toInt_sub]; exact hduration),
        hm.toInt_sub, h.time, if_pos rfl]
      omega
    · rw [Function.update_of_ne (Ne.symm hcpu), h.time, if_neg hcpu, Int.add_zero]
  · rw [puts_append]
    by_cases hcpu : m.cpu = cpu
    · subst hcpu
      rw [Function.update_self, h.count, if_pos rfl, BitVec.ofNat_add]
      rfl
    · rw [Function.update_of_ne (Ne.symm hcpu), h.count, if_neg hcpu, Nat.add_zero]

/-- `BUG_ON` stops a measurement that ends before it starts. -/
theorem ktput_eq_none (clocks : Clocks κ) (hm : m.stop.toInt < m.start.toInt) :
    clocks.ktput ktimeAddSafe m = none := by
  have hbug : ktimeAfter m.start m.stop = true := by
    unfold ktimeAfter ktimeBefore
    rw [BitVec.slt_eq_decide]
    exact decide_eq_true hm
  simp [Clocks.ktput, Calclock.ktput, hbug]

theorem Timed.ktputAll (hadd : AddsSafely ktimeAddSafe) : ∀ {ms' ms : List (Measure κ)} {clocks : Clocks κ},
    Timed ms clocks → (∀ m ∈ ms, m.Ordered) → (∀ m ∈ ms', m.Ordered) →
    ∃ clocks', ktputAll ktimeAddSafe ms' clocks = some clocks' ∧ Timed (ms ++ ms') clocks'
  | [], ms, clocks, h, _, _ => ⟨clocks, rfl, by simpa using h⟩
  | m :: ms', ms, clocks, h, hms, hms' => by
    have hm := hms' m List.mem_cons_self
    obtain ⟨clocks₁, hput, h₁⟩ := h.ktput hadd hms hm
    have hms₁ : ∀ m' ∈ ms ++ [m], m'.Ordered := by
      intro m' hm'
      cases List.mem_append.mp hm' with
      | inl hm' => exact hms m' hm'
      | inr hm' => exact List.mem_singleton.mp hm' ▸ hm
    obtain ⟨clocks', hall, h'⟩ := h₁.ktputAll hadd hms₁ fun m' hm' => hms' m' (List.mem_cons_of_mem _ hm')
    refine ⟨clocks', ?_, by simpa using h'⟩
    simp only [Calclock.ktputAll, hput, Option.bind_eq_bind, Option.bind_some]
    exact hall

/-- The measurements go through if and only if none of them ends before it starts. -/
theorem ktputAll_eq_none (hadd : AddsSafely ktimeAddSafe) : ∀ {ms' ms : List (Measure κ)} {clocks : Clocks κ},
    Timed ms clocks → (∀ m ∈ ms, m.Ordered) → (∀ m ∈ ms', 0 ≤ m.start.toInt) →
    (∃ m ∈ ms', m.stop.toInt < m.start.toInt) → ktputAll ktimeAddSafe ms' clocks = none
  | [], _, _, _, _, _, ⟨_, hm, _⟩ => absurd hm List.not_mem_nil
  | m :: ms', ms, clocks, h, hms, hstart, ⟨m', hm', hlt⟩ => by
    by_cases hm : m.stop.toInt < m.start.toInt
    · simp [ktputAll, ktput_eq_none clocks hm]
    · have hordered : m.Ordered := ⟨hstart m List.mem_cons_self, not_lt.mp hm⟩
      obtain ⟨clocks₁, hput, h₁⟩ := h.ktput hadd hms hordered
      have hms₁ : ∀ m' ∈ ms ++ [m], m'.Ordered := by
        intro m' hm'
        cases List.mem_append.mp hm' with
        | inl hm' => exact hms m' hm'
        | inr hm' => exact List.mem_singleton.mp hm' ▸ hordered
      have hrest : ∃ m' ∈ ms', m'.stop.toInt < m'.start.toInt := by
        cases List.mem_cons.mp hm' with
        | inl heq => exact absurd (heq ▸ hlt) hm
        | inr hmem => exact ⟨m', hmem, hlt⟩
      simp only [ktputAll, hput, Option.bind_eq_bind, Option.bind_some]
      exact ktputAll_eq_none hadd h₁ hms₁ (fun m hm => hstart m (List.mem_cons_of_mem _ hm)) hrest

/-! ## The sums -/

omit [DecidableEq κ] in
theorem sums_eq (clocks : Clocks κ) : ∀ (l : List κ) (timesum : Ktime) (countsum : BitVec 64),
    clocks.sums l timesum countsum =
      (timesum + BitVec.ofInt 64 (l.map fun cpu => (clocks cpu).time.toInt).sum,
        countsum + BitVec.ofNat 64 (l.map fun cpu => (clocks cpu).count.toNat).sum)
  | [], timesum, countsum => by simp [Clocks.sums]
  | cpu :: l, timesum, countsum => by
    rw [Clocks.sums, sums_eq clocks l]
    simp only [List.map_cons, List.sum_cons, BitVec.ofInt_add, BitVec.ofNat_add, BitVec.ofInt_toInt,
      BitVec.ofNat_toNat, BitVec.setWidth_eq, BitVec.add_assoc]

omit [DecidableEq κ] in
theorem ktprint_eq (clocks : Clocks κ) (online : List κ) (depth : Nat) (funcName : String) :
    clocks.ktprint online depth funcName = ⟨depth, funcName,
      BitVec.ofInt 64 (online.map fun cpu => (clocks cpu).time.toInt).sum,
      BitVec.ofNat 64 (online.map fun cpu => (clocks cpu).count.toNat).sum⟩ := by
  simp [Clocks.ktprint, sums_eq]

/-- The time on the CPUs that are online, CPU by CPU. -/
theorem sum_spent (ms : List (Measure κ)) (honline : online.Nodup) :
    (online.map (spent ms)).sum = spentOn ms online :=
  sum_map_sum_filter Measure.cpu Measure.duration ms honline

theorem sum_puts (ms : List (Measure κ)) (honline : online.Nodup) :
    (online.map (puts ms)).sum = putsOn ms online := by
  have hlength : ∀ l : List (Measure κ), (l.map fun _ => 1).sum = l.length := by simp
  have h := sum_map_sum_filter Measure.cpu (fun _ => 1) ms honline
  simp only [hlength] at h
  exact h

theorem spent_le_spentOn (h : ∀ m ∈ ms, m.Ordered) (honline : online.Nodup) (hcpu : cpu ∈ online) :
    spent ms cpu ≤ spentOn ms online := by
  rw [← sum_spent ms honline]
  apply List.single_le_sum
  · intro d hd
    obtain ⟨c, -, rfl⟩ := List.mem_map.mp hd
    exact spent_nonneg h c
  · exact List.mem_map_of_mem hcpu

theorem spentOn_nonneg (h : ∀ m ∈ ms, m.Ordered) : 0 ≤ spentOn ms online := by
  apply List.sum_nonneg
  intro d hd
  obtain ⟨m, hm, rfl⟩ := List.mem_map.mp hd
  exact (h m (List.mem_of_mem_filter hm)).duration_nonneg

/-- The sum of the clocks is the time that was measured, as long as it fits in 63 bits. -/
theorem Timed.time_iff (h : Timed ms clocks) (hms : ∀ m ∈ ms, m.Ordered) (honline : online.Nodup) (depth : Nat)
    (funcName : String) : (clocks.ktprint online depth funcName).time.toInt = spentOn ms online ↔
      spentOn ms online < 2 ^ 63 := by
  constructor
  · intro heq
    rw [← heq]
    exact BitVec.toInt_lt
  · intro hlt
    have hmax : KTIME_MAX.toInt = 2 ^ 63 - 1 := by decide
    -- no clock has come to its limit
    have htimes : (online.map fun cpu => (clocks cpu).time.toInt) = online.map (spent ms) := by
      refine List.map_congr_left fun cpu hcpu => ?_
      have hle := spent_le_spentOn hms honline hcpu
      rw [h.time, hmax]
      omega
    have hnonneg : 0 ≤ spentOn ms online := spentOn_nonneg hms
    rw [ktprint_eq, htimes, sum_spent ms honline, BitVec.toInt_ofInt]
    exact Int.bmod_eq_of_le (by omega) (by omega)

theorem Timed.count_eq (h : Timed ms clocks) (honline : online.Nodup) (depth : Nat) (funcName : String) :
    (clocks.ktprint online depth funcName).count = BitVec.ofNat 64 (putsOn ms online) := by
  have hsum : ∀ l : List κ, BitVec.ofNat 64 (l.map fun cpu => (clocks cpu).count.toNat).sum =
      BitVec.ofNat 64 (l.map (puts ms)).sum := by
    intro l
    induction l with
    | nil => rfl
    | cons cpu l ih =>
      rw [List.map_cons, List.sum_cons, List.map_cons, List.sum_cons, BitVec.ofNat_add, BitVec.ofNat_add, ih,
        BitVec.ofNat_toNat, h.count, BitVec.setWidth_eq]
  rw [ktprint_eq, hsum, sum_puts ms honline]

/-- What has been measured determines the clocks. -/
theorem Timed.unique (h : Timed ms clocks) (h' : Timed ms clocks') : clocks = clocks' := by
  funext cpu
  have htime : (clocks cpu).time = (clocks' cpu).time :=
    BitVec.eq_of_toInt_eq ((h.time cpu).trans (h'.time cpu).symm)
  have hcount : (clocks cpu).count = (clocks' cpu).count := (h.count cpu).trans (h'.count cpu).symm
  cases hc : clocks cpu
  cases hc' : clocks' cpu
  simp_all

theorem Timed.perm {ms' : List (Measure κ)} (h : Timed ms clocks) (hperm : ms'.Perm ms) : Timed ms' clocks where
  time cpu := by
    have hspent : spent ms' cpu = spent ms cpu := ((hperm.filter _).map _).sum_eq
    rw [hspent]
    exact h.time cpu
  count cpu := by
    have hputs : puts ms' cpu = puts ms cpu := (hperm.filter _).length_eq
    rw [hputs]
    exact h.count cpu

/-- Measurements on any CPUs, put in any order: they stop at a measurement that ends before it starts, and
only there; the order makes no difference; and `ktprint` hands on the number of the measurements on the
CPUs that are online, and the sum of their times if and only if it fits in 63 bits. -/
theorem ktputAll_sums (hadd : AddsSafely ktimeAddSafe) (ms : List (Measure κ))
    (hstart : ∀ m ∈ ms, 0 ≤ m.start.toInt) (honline : online.Nodup) (depth : Nat) (funcName : String) :
    (ktputAll ktimeAddSafe ms Clocks.ktdef = none ↔ ∃ m ∈ ms, m.stop.toInt < m.start.toInt) ∧
    (∀ ms', ms'.Perm ms → ktputAll ktimeAddSafe ms' Clocks.ktdef = ktputAll ktimeAddSafe ms Clocks.ktdef) ∧
    ∀ clocks, ktputAll ktimeAddSafe ms Clocks.ktdef = some clocks →
      (clocks.ktprint online depth funcName).count = BitVec.ofNat 64 (putsOn ms online) ∧
      ((clocks.ktprint online depth funcName).time.toInt = spentOn ms online ↔ spentOn ms online < 2 ^ 63) := by
  have hnone : ∀ {l : List (Measure κ)}, ∀ m ∈ ([] : List (Measure κ)), m.Ordered := fun _ hm =>
    absurd hm List.not_mem_nil
  have hfails : ∀ l : List (Measure κ), (∀ m ∈ l, 0 ≤ m.start.toInt) →
      (∃ m ∈ l, m.stop.toInt < m.start.toInt) → ktputAll ktimeAddSafe l Clocks.ktdef = none := fun l hl hbad =>
    ktputAll_eq_none hadd timed_ktdef (hnone (l := l)) hl hbad
  by_cases hbad : ∃ m ∈ ms, m.stop.toInt < m.start.toInt
  · have hms := hfails ms hstart hbad
    refine ⟨⟨fun _ => hbad, fun _ => hms⟩, fun ms' hperm => ?_, fun clocks hclocks => ?_⟩
    · obtain ⟨m, hm, hlt⟩ := hbad
      rw [hms]
      exact hfails ms' (fun m hm => hstart m (hperm.mem_iff.mp hm)) ⟨m, hperm.mem_iff.mpr hm, hlt⟩
    · rw [hms] at hclocks
      cases hclocks
  · have hordered : ∀ m ∈ ms, m.Ordered := fun m hm =>
      ⟨hstart m hm, not_lt.mp fun hlt => hbad ⟨m, hm, hlt⟩⟩
    obtain ⟨clocks, hall, htimed⟩ := timed_ktdef.ktputAll hadd (hnone (l := ms)) hordered
    rw [List.nil_append] at htimed
    refine ⟨⟨fun heq => ?_, fun h => absurd h hbad⟩, fun ms' hperm => ?_, fun clocks₁ hclocks₁ => ?_⟩
    · rw [hall] at heq
      cases heq
    · obtain ⟨clocks', hall', htimed'⟩ := timed_ktdef.ktputAll hadd (hnone (l := ms'))
        fun m hm => hordered m (hperm.mem_iff.mp hm)
      rw [List.nil_append] at htimed'
      rw [hall, hall', htimed.unique (htimed'.perm hperm.symm)]
    · rw [hall] at hclocks₁
      obtain rfl := Option.some.inj hclocks₁
      exact ⟨htimed.count_eq honline depth funcName, htimed.time_iff hordered honline depth funcName⟩

/-- An addition that looks at its result. -/
def addSafe (lhs rhs : Ktime) : Ktime :=
  let res := lhs + rhs
  if res.slt 0 ∨ res.slt lhs ∨ res.slt rhs then KTIME_MAX else res

theorem addsSafely_addSafe : AddsSafely addSafe := by
  intro lhs rhs hlhs hrhs
  have hlt := BitVec.toInt_lt (x := lhs)
  have hrt := BitVec.toInt_lt (x := rhs)
  have hmax : KTIME_MAX.toInt = 2 ^ 63 - 1 := by decide
  have hzero : (0 : Ktime).toInt = 0 := by decide
  have hsum : (lhs + rhs).toInt = (lhs.toInt + rhs.toInt).bmod (2 ^ 64) := BitVec.toInt_add _ _
  simp only [addSafe, BitVec.slt_iff_toInt_lt, hzero]
  cases lt_or_ge (lhs.toInt + rhs.toInt) (2 ^ 63) with
  | inl hfits =>
    have hexact : (lhs + rhs).toInt = lhs.toInt + rhs.toInt :=
      hsum.trans (Int.bmod_eq_of_le (by omega) (by omega))
    rw [if_neg (by omega), hexact, hmax]
    omega
  | inr hover =>
    have hneg : (lhs + rhs).toInt < 0 := by
      rw [hsum, Int.bmod_def]
      omega
    rw [if_pos (.inl hneg), hmax]
    omega

/-- Three measurements on two of four CPUs, one of which has gone offline. -/
theorem ktputAll_sums_three : ∃ clocks : Clocks (Fin 4),
    ktputAll addSafe [⟨1, 100, 350⟩, ⟨2, 120, 180⟩, ⟨1, 400, 405⟩] Clocks.ktdef = some clocks ∧
      (clocks.ktprint [0, 1, 3] 0 "cbtree_insert").time.toInt = 255 := by
  obtain ⟨hnone, -, hsums⟩ := ktputAll_sums addsSafely_addSafe
    ([⟨1, 100, 350⟩, ⟨2, 120, 180⟩, ⟨1, 400, 405⟩] : List (Measure (Fin 4))) (by decide)
    (show [0, 1, 3].Nodup by decide) 0 "cbtree_insert"
  obtain ⟨clocks, hclocks⟩ := Option.ne_none_iff_exists'.mp (mt hnone.mp (by decide))
  exact ⟨clocks, hclocks, (hsums clocks hclocks).2.mpr (by decide)⟩

end CachedBTree.Calclock
