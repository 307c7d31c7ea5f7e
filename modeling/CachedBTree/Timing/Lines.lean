import CachedBTree.Timing.Measures

/-! # The lines that the module prints

For each function that was measured one line: how often it was called, the time it took on all
CPUs together and on one of them, and its share of the longest time so far. -/

namespace CachedBTree.Calclock

open CachedBTree.Support

variable {κ : Type} [DecidableEq κ] {ktimeAddSafe : Ktime → Ktime → Ktime} {online : List κ}

/-! ## One line -/

/-- A number in groups of three digits. -/
def grouped (n : Nat) : String := String.ofList (separated ',' 0 (Nat.toDigits 10 n).reverse).reverse

/-- A share in hundredths of a percent, with two digits behind the point. -/
def percent (share : Nat) : String :=
  toString (share / 100) ++ "." ++ ((if share % 100 < 10 then "0" else "") ++ toString (share % 100))

/-- The pieces of the line for `count` calls that took the time `time`. -/
def lineOf (depth : Nat) (funcName : String) (cpus count time share : Nat) : List String :=
  [""] ++ List.replicate depth "    " ++
    [funcName ++ " is called ", grouped count ++ " times, ",
      "and the time interval is " ++ grouped time ++ "ns (per thread is " ++ grouped (time / cpus) ++ "ns)",
      " (" ++ percent share ++ "%)\n"]

theorem showD_natCast (n : Nat) : showD (n : Int) = toString n := rfl

theorem showD2_natCast (n : Nat) : showD2 (n : Int) = (if n < 10 then "0" else "") ++ toString n := by
  simp [showD2, toString, Int.natAbs_natCast]

/-- A percentage that is not negative is printed as it is. -/
theorem percent_eq {percentage : BitVec 32} {share : Nat} (h : percentage.toInt = share) :
    showD (percentage.sdiv 100).toInt ++ "." ++ showD2 (percentage.srem 100).toInt = percent share := by
  have hdiv : (percentage.sdiv 100).toInt = (share / 100 : Nat) := by
    rw [BitVec.toInt_sdiv_of_ne_or_ne _ _ (.inr (by decide)), h]
    rfl
  have hrem : (percentage.srem 100).toInt = (share % 100 : Nat) := by
    rw [BitVec.toInt_srem, h]
    rfl
  rw [hdiv, hrem, showD_natCast, showD2_natCast]
  rfl

theorem toNat_of_toInt {x : BitVec 64} {n : Nat} (h : x.toInt = n) : x.toNat = n := by
  have := BitVec.toInt_eq_toNat_cond x
  have := x.isLt
  split at * <;> omega

/-- What a call prints. -/
theorem ktprint_printed {stack : CharBuff} {cpus : Nat} {call : KtCall} {totaltime : Ktime} {line : KtLine}
    {time share : Nat} (hcpus : cpus < 2 ^ 32) (htime : call.time.toInt = time)
    (hline : ktprint stack (BitVec.ofNat 32 cpus) call totaltime = some line)
    (hshare : line.percentage.toInt = share) :
    line.printed = lineOf call.depth call.funcName cpus call.count.toNat time share := by
  obtain ⟨buff₁, hbuff₁, hchars₁⟩ := separateNum_chars stack stack call.count
  obtain ⟨buff₂, hbuff₂, hchars₂⟩ := separateNum_chars stack buff₁ call.time
  obtain ⟨buff₃, hbuff₃, hchars₃⟩ := separateNum_chars stack stack
    (call.time.sdiv ((BitVec.ofNat 32 cpus).setWidth 64))
  simp only [ktprint, hbuff₁, hchars₁, hbuff₂, hchars₂, hbuff₃, hchars₃, Option.bind_eq_bind,
    Option.bind_some, Option.some.injEq] at hline
  subst hline
  have hthread : (call.time.sdiv ((BitVec.ofNat 32 cpus).setWidth 64)).toNat = time / cpus := by
    have hdivisor : ((BitVec.ofNat 32 cpus).setWidth 64).toInt = cpus := by
      rw [BitVec.toInt_setWidth, BitVec.toNat_ofNat, Nat.mod_eq_of_lt hcpus]
      exact Int.bmod_eq_of_le (by omega) (by omega)
    apply toNat_of_toInt
    have hlt : call.time.toInt < 2 ^ 63 := BitVec.toInt_lt
    have hle : time / cpus ≤ time := Nat.div_le_self time cpus
    rw [BitVec.toInt_sdiv, htime, hdivisor, ← Int.ofNat_tdiv]
    generalize time / cpus = q at hle ⊢
    exact Int.bmod_eq_of_le (by omega) (by omega)
  simp only at hshare
  simp only [lineOf, grouped, toNat_of_toInt htime, hthread, ← percent_eq hshare, String.append_assoc]

/-- A call whose time is not too long: its line, and the longest time after it. -/
theorem ktprint_line (stack : CharBuff) {cpus : Nat} {call : KtCall} {totaltime : Ktime} {time longest : Nat}
    (hcpus : cpus < 2 ^ 32) (htime : call.time.toInt = time) (hfits : 10000 * time < 2 ^ 63)
    (hlongest : totaltime.toInt = longest) (hpos : 0 < longest) :
    ∃ line, ktprint stack (BitVec.ofNat 32 cpus) call totaltime = some line ∧
      line.totaltime.toInt = max longest time ∧
      line.printed = lineOf call.depth call.funcName cpus call.count.toNat time
        (10000 * time / max longest time) := by
  have hnonneg : 0 ≤ call.time.toInt := by omega
  have htotalpos : 0 < totaltime.toInt := by omega
  obtain ⟨line, hline, htotal, hiff, -⟩ := ktprint_spec stack (BitVec.ofNat 32 cpus) hnonneg htotalpos
  rw [htime, hlongest] at htotal hiff
  have hshare : line.percentage.toInt = (10000 * time / max longest time : Nat) := by
    rw [hiff.mpr (by omega)]
    simp
  exact ⟨line, hline, by simpa using htotal, ktprint_printed hcpus htime hline hshare⟩

/-! ## All lines -/

/-- A function whose calls are measured, and how its line is indented. -/
structure Timing (κ : Type) where
  depth : Nat
  funcName : String
  measures : List (Measure κ)

/-- What the clocks of a function hand to `__ktprint`. -/
def Timing.call (ktimeAddSafe : Ktime → Ktime → Ktime) (online : List κ) (f : Timing κ) : Option KtCall := do
  let clocks ← ktputAll ktimeAddSafe f.measures Clocks.ktdef
  some (clocks.ktprint online f.depth f.funcName)

def Timing.calls (ktimeAddSafe : Ktime → Ktime → Ktime) (online : List κ) : List (Timing κ) → Option (List KtCall)
  | [] => some []
  | f :: fs => do
    let call ← f.call ktimeAddSafe online
    let calls ← Timing.calls ktimeAddSafe online fs
    some (call :: calls)

/-- The time of a function on the CPUs that are online. -/
def Timing.time (online : List κ) (f : Timing κ) : Nat := (spentOn f.measures online).toNat

/-- The lines of the functions; `longest` is the longest time before them. -/
def linesOf (online : List κ) : Nat → List (Timing κ) → List (List String)
  | _, [] => []
  | longest, f :: fs =>
    lineOf f.depth f.funcName online.length (putsOn f.measures online) (f.time online)
      (10000 * f.time online / max longest (f.time online)) :: linesOf online (max longest (f.time online)) fs

/-- The measurements of a function are in order, and those on the CPUs that are online are neither too many nor
too long. -/
structure Timing.Fits (online : List κ) (f : Timing κ) : Prop where
  ordered : ∀ m ∈ f.measures, m.Ordered
  puts : putsOn f.measures online < 2 ^ 64
  time : 10000 * f.time online < 2 ^ 63

theorem Timing.Fits.call {f : Timing κ} (h : f.Fits online) (hadd : AddsSafely ktimeAddSafe)
    (honline : online.Nodup) : ∃ call, f.call ktimeAddSafe online = some call ∧ call.depth = f.depth ∧
      call.funcName = f.funcName ∧ call.time.toInt = f.time online ∧
      call.count.toNat = putsOn f.measures online := by
  obtain ⟨clocks, hall, htimed⟩ := timed_ktdef.ktputAll hadd (fun _ hm => absurd hm List.not_mem_nil) h.ordered
  rw [List.nil_append] at htimed
  have hnonneg : 0 ≤ spentOn f.measures online := spentOn_nonneg h.ordered
  have hfits := h.time
  unfold Timing.time at hfits ⊢
  refine ⟨clocks.ktprint online f.depth f.funcName, ?_, rfl, rfl, ?_, ?_⟩
  · simp only [Timing.call, hall, Option.bind_eq_bind, Option.bind_some]
  · rw [(htimed.time_iff h.ordered honline f.depth f.funcName).mpr (by omega)]
    omega
  · rw [htimed.count_eq honline f.depth f.funcName, BitVec.toNat_ofNat]
    exact Nat.mod_eq_of_lt h.puts

theorem ktprintAll_lines (hadd : AddsSafely ktimeAddSafe) (stack : CharBuff) (honline : online.Nodup)
    (hcpus : online.length < 2 ^ 32) : ∀ {fs : List (Timing κ)} {totaltime : Ktime} {longest : Nat},
    (∀ f ∈ fs, f.Fits online) → totaltime.toInt = longest → 0 < longest →
    ∃ calls lines, Timing.calls ktimeAddSafe online fs = some calls ∧
      ktprintAll stack (BitVec.ofNat 32 online.length) calls totaltime = some lines ∧
      lines.map KtLine.printed = linesOf online longest fs := by
  intro fs
  induction fs with
  | nil =>
    intro _ _ _ _ _
    exact ⟨[], [], rfl, rfl, rfl⟩
  | cons f fs ih =>
    intro totaltime longest hfits hlongest hpos
    have hf := hfits f List.mem_cons_self
    obtain ⟨call, hcall, hdepth, hname, htime, hcount⟩ := hf.call hadd honline
    obtain ⟨line, hline, htotal, hprinted⟩ := ktprint_line stack hcpus htime hf.time hlongest hpos
    obtain ⟨calls, lines, hcalls, hlines, hrest⟩ :=
      ih (fun g hg => hfits g (List.mem_cons_of_mem _ hg)) htotal (by omega)
    refine ⟨call :: calls, line :: lines, ?_, ?_, ?_⟩
    · simp only [Timing.calls, hcall, hcalls, Option.bind_eq_bind, Option.bind_some]
    · simp only [ktprintAll, hline, hlines, Option.bind_eq_bind, Option.bind_some]
    · rw [List.map_cons, hrest, hprinted, hdepth, hname, hcount]
      rfl

/-- What the module prints in the end about functions whose calls were measured on any CPUs in any order:
for each function the exact number of its calls on the CPUs that are online, the exact time they took
there, and its share of the longest such time so far. -/
theorem ktprintAll_reports (hadd : AddsSafely ktimeAddSafe) (stack : CharBuff) (fs : List (Timing κ))
    (honline : online.Nodup) (hcpus : online.length < 2 ^ 32) (hfits : ∀ f ∈ fs, f.Fits online) :
    ∃ calls lines, Timing.calls ktimeAddSafe online fs = some calls ∧
      ktprintAll stack (BitVec.ofNat 32 online.length) calls 1 = some lines ∧
      lines.map KtLine.printed = linesOf online 1 fs :=
  ktprintAll_lines hadd stack honline hcpus hfits rfl (by decide)

/-- Two functions on two CPUs. -/
def sampleTimings : List (Timing Nat) :=
  [⟨0, "cbtree_insert", [⟨0, 5, 1005⟩, ⟨1, 7, 507⟩]⟩, ⟨0, "cbtree_lookup", [⟨1, 600, 1100⟩]⟩]

theorem ktprintAll_reports_two : ∃ calls lines, Timing.calls addSafe [0, 1] sampleTimings = some calls ∧
    ktprintAll (fun _ => '\x00') 2 calls 1 = some lines ∧ lines.map KtLine.printed =
      [["", "cbtree_insert is called ", "2 times, ",
          "and the time interval is 1,500ns (per thread is 750ns)", " (100.00%)\n"],
        ["", "cbtree_lookup is called ", "1 times, ",
          "and the time interval is 500ns (per thread is 250ns)", " (33.33%)\n"]] := by
  have hfits : ∀ f ∈ sampleTimings, f.Fits [0, 1] := by
    refine List.forall_mem_cons.mpr ⟨⟨by decide, by decide, by decide⟩, ?_⟩
    exact List.forall_mem_singleton.mpr ⟨by decide, by decide, by decide⟩
  obtain ⟨calls, lines, hcalls, hlines, hprinted⟩ := ktprintAll_reports addsSafely_addSafe (fun _ => '\x00')
    sampleTimings (show [0, 1].Nodup by decide) (by decide) hfits
  refine ⟨calls, lines, hcalls, hlines, hprinted.trans ?_⟩
  decide +kernel

end CachedBTree.Calclock
