import CachedBTree.Support.Loops
import Mathlib.Data.BitVec

/-! # `calclock.c`

`separate_num` and `__ktprint`.  The character buffers of the source all have 100 places; a
store or a load outside of them stops the run.  What a local buffer holds before it is written
is a parameter, and what is printed is recorded. -/

namespace CachedBTree.Calclock

open CachedBTree.Support

/-- A `char[100]`. -/
abbrev CharBuff := Nat → Char

def BUFF_SIZE : Nat := 100

def CharBuff.load (buff : CharBuff) (i : Nat) : Option Char :=
  if i < BUFF_SIZE then some (buff i) else none

def CharBuff.store (buff : CharBuff) (i : Nat) (c : Char) : Option CharBuff :=
  if i < BUFF_SIZE then some (Function.update buff i c) else none

def CharBuff.strlen (buff : CharBuff) : Option Nat :=
  let n := scan (fun i => buff i = '\x00') 0 BUFF_SIZE
  if n < BUFF_SIZE then some n else none

/-- The characters before the one that ends the string. -/
def CharBuff.chars (buff : CharBuff) : Option (List Char) := do
  let n ← buff.strlen
  some ((List.range n).map buff)

/-- Characters stored from place `i` on, with the null character behind them. -/
def CharBuff.storeChars (buff : CharBuff) (i : Nat) : List Char → Option CharBuff
  | [] => buff.store i '\x00'
  | c :: cs => do
    let buff ← buff.store i c
    CharBuff.storeChars buff (i + 1) cs

/-- `sprintf(buff, "%llu", number)` -/
def sprintfLlu (buff : CharBuff) (number : BitVec 64) : Option CharBuff :=
  buff.storeChars 0 (Nat.toDigits 10 number.toNat)

/-! ## separate_num -/

/-- The first loop, from the test of `cur > -1` on. -/
def reverseLoop (tmpBuff : CharBuff) (cur : Int) (counter rvsCur : Nat) (tmpReverseBuff : CharBuff) :
    Option (Nat × CharBuff) :=
  if -1 < cur then
    if counter = 3 then do
      let tmpReverseBuff ← tmpReverseBuff.store rvsCur ','
      -- cur++, and the cur-- of the loop takes it back
      reverseLoop tmpBuff (cur + 1 - 1) 0 (rvsCur + 1) tmpReverseBuff
    else do
      let c ← tmpBuff.load cur.toNat
      let tmpReverseBuff ← tmpReverseBuff.store rvsCur c
      reverseLoop tmpBuff (cur - 1) (counter + 1) (rvsCur + 1) tmpReverseBuff
  else some (rvsCur, tmpReverseBuff)
termination_by 2 * (cur + 1).toNat + if counter = 3 then 1 else 0
decreasing_by
  · rw [if_false, if_pos ‹counter = 3›]
    omega
  · rw [if_neg ‹¬counter = 3›]
    split <;> omega

/-- The second loop with `d` characters to go; `rvs_cur` is `d - 1`. -/
def copyLoop (tmpReverseBuff : CharBuff) (cur : Nat) : Nat → CharBuff → Option (Nat × CharBuff)
  | 0, buffer => some (cur, buffer)
  | d + 1, buffer => do
    let c ← tmpReverseBuff.load d
    let buffer ← buffer.store cur c
    copyLoop tmpReverseBuff (cur + 1) d buffer

/-- `separate_num`; `stack` is what the two local buffers hold at first. -/
def separateNum (stack : CharBuff) (number : BitVec 64) (buffer : CharBuff) : Option CharBuff := do
  let tmpBuff ← sprintfLlu stack number
  let cur ← tmpBuff.strlen
  let (rvsCur, tmpReverseBuff) ← reverseLoop tmpBuff (cur - 1) 0 0 stack
  let (cur, buffer) ← copyLoop tmpReverseBuff 0 rvsCur buffer
  buffer.store cur '\x00'

/-! ## __ktprint -/

/-- `ktime_t`, and what `ktime_before` compares. -/
abbrev Ktime := BitVec 64

def ktimeBefore (cmp1 cmp2 : Ktime) : Bool := cmp1.slt cmp2

/-- The arguments of `__ktprint`. -/
structure KtCall where
  depth : Nat
  funcName : String
  time : Ktime
  count : BitVec 64

/-- What a call computes and prints; `totaltime` is its static variable. -/
structure KtLine where
  totaltime : Ktime
  percentage : BitVec 32
  printed : List String

/-- `%d` -/
def showD (n : Int) : String := toString n

/-- `%.2d`: at least two digits. -/
def showD2 (n : Int) : String :=
  if n < 0 then "-" ++ (if n.natAbs < 10 then "0" else "") ++ toString n.natAbs
  else (if n.natAbs < 10 then "0" else "") ++ toString n.natAbs

/-- `__ktprint`, with `num_online_cpus()` given. -/
def ktprint (stack : CharBuff) (numOnlineCpus : BitVec 32) (call : KtCall) (totaltime : Ktime) :
    Option KtLine := do
  let totaltime := if ktimeBefore totaltime call.time then call.time else totaltime
  let percentage := ((call.time * 10000).sdiv totaltime).setWidth 32
  let charBuff ← separateNum stack call.count stack
  let count ← charBuff.chars
  let charBuff ← separateNum stack call.time charBuff
  let charBuff2 ← separateNum stack (call.time.sdiv (numOnlineCpus.setWidth 64)) stack
  let time ← charBuff.chars
  let perThread ← charBuff2.chars
  some ⟨totaltime, percentage,
    [""] ++ List.replicate call.depth "    " ++
      [call.funcName ++ " is called ", String.ofList count ++ " times, ",
        "and the time interval is " ++ String.ofList time ++ "ns (per thread is " ++
          String.ofList perThread ++ "ns)",
        " (" ++ showD (percentage.sdiv 100).toInt ++ "." ++ showD2 (percentage.srem 100).toInt ++ "%)\n"]⟩

/-- Calls one after another; `totaltime` is what the static variable holds before them. -/
def ktprintAll (stack : CharBuff) (numOnlineCpus : BitVec 32) : List KtCall → Ktime → Option (List KtLine)
  | [], _ => some []
  | call :: calls, totaltime => do
    let line ← ktprint stack numOnlineCpus call totaltime
    let lines ← ktprintAll stack numOnlineCpus calls line.totaltime
    some (line :: lines)

/-! ## ktput and ktprint -/

def ktimeAfter (cmp1 cmp2 : Ktime) : Bool := ktimeBefore cmp2 cmp1

def KTIME_MAX : Ktime := 0x7fffffffffffffff

/-- `struct calclock` -/
structure CalcClock where
  time : Ktime
  count : BitVec 64
  deriving DecidableEq

/-- `__ktput`, with the `ktime_add_safe` of the kernel; `none` where `BUG_ON` stops it. -/
def ktput (ktimeAddSafe : Ktime → Ktime → Ktime) (start stop clockTime : Ktime) : Option Ktime :=
  if ktimeAfter start stop then none
  else
    let diff := stop - start
    some (ktimeAddSafe clockTime diff)

section

variable {κ : Type} [DecidableEq κ] (ktimeAddSafe : Ktime → Ktime → Ktime)

/-- The clocks of one function, one for each CPU. -/
abbrev Clocks (κ : Type) := κ → CalcClock

/-- `KTDEF` -/
def Clocks.ktdef : Clocks κ := fun _ => ⟨0, 0⟩

/-- A use of the macro `ktput`: the CPU that it runs on, and the two local clocks. -/
structure Measure (κ : Type) where
  cpu : κ
  start : Ktime
  stop : Ktime

/-- The macro `ktput`.  It does not change its CPU and is not preempted on it. -/
def Clocks.ktput (clocks : Clocks κ) (m : Measure κ) : Option (Clocks κ) := do
  let clock := clocks m.cpu
  let time ← Calclock.ktput ktimeAddSafe m.start m.stop clock.time
  some (Function.update clocks m.cpu ⟨time, clock.count + 1⟩)

/-- Measurements in the order in which they are put. -/
def ktputAll : List (Measure κ) → Clocks κ → Option (Clocks κ)
  | [], clocks => some clocks
  | m :: ms, clocks => do
    let clocks ← clocks.ktput ktimeAddSafe m
    ktputAll ms clocks

/-- The loop of the macro `ktprint`. -/
def Clocks.sums (clocks : Clocks κ) : List κ → Ktime → BitVec 64 → Ktime × BitVec 64
  | [], timesum, countsum => (timesum, countsum)
  | cpu :: cpus, timesum, countsum =>
    let clock := clocks cpu
    clocks.sums cpus (timesum + clock.time) (countsum + clock.count)

/-- The call of `__ktprint` in the macro `ktprint`, with the CPUs that are online. -/
def Clocks.ktprint (clocks : Clocks κ) (online : List κ) (depth : Nat) (funcName : String) : KtCall :=
  let (timesum, countsum) := clocks.sums online 0 0
  ⟨depth, funcName, timesum, countsum⟩

end

end CachedBTree.Calclock
