import CachedBTree.Model.Node

/-! # The cache of a node

`cbtree_cache.c`: the ring of four entries that every node owns, how it is built
and released, how a lookup reads it and how it is written.  `nodep` is the address
of the word that holds the queue pointer, given as an object and an offset. -/

namespace CachedBTree

variable {w : Nat}

/-! ## initQueue -/

/-- The clean-up of `initQueue`: frees the entries made so far, not their key buffers. -/
def freeEntries : Nat → Ptr w → State w → Except Fault (State w)
  | 0, curr, s => if curr = 0#w then .ok s else .error .outOfFuel
  | d + 1, curr, s =>
    if curr = 0#w then .ok s
    else do
      let temp ← s.word curr 2
      let s ← s.free curr
      freeEntries d temp s

/-- The loop of `initQueue` with `d` rounds to go; `first` is `NULL` in round 0.
Returns the first and the last entry, or `none` when the clean-up has run. -/
def initQueueLoop (first previous : Ptr w) :
    Nat → State w → Except Fault (Option (Ptr w × Ptr w) × State w)
  | 0, s => .ok (some (first, previous), s)
  | d + 1, s =>
    let (curr, s) := s.kmalloc fun _ => .entry 0#w 0#w 0#w
    if curr = 0#w then do
      let s ← freeEntries 4 first s
      .ok (none, s)
    else do
      let (key, s) := s.kmalloc .buf
      let s ← s.setWord curr 1 key
      if first = 0#w then initQueueLoop curr curr d s
      else do
        let s ← s.setWord previous 2 curr
        initQueueLoop first curr d s

def initQueue (nodep : Ptr w) (off : Nat) (s : State w) : Except Fault (State w) := do
  let (q, s) := s.kmalloc fun _ => .queue 0#w
  let (ends, s) ← initQueueLoop 0#w 0#w 4 s
  match ends with
  | none => .ok s
  | some (first, curr) =>
    let s ← s.setWord curr 2 first
    let s ← s.setWord q 0 first
    s.setWord nodep off q

/-! ## freeQueue -/

/-- The body of the `do ... while (curr != first)` loop and, through `free`, the recursive
call.  `fuel` bounds the rounds and the depth together. -/
def freeQueueLoop (arrLen : Nat) (first : Ptr w)
    (free : Ptr w → Nat → State w → Except Fault (State w)) :
    Nat → Ptr w → State w → Except Fault (State w)
  | 0, _, _ => .error .outOfFuel
  | fuel + 1, temp, s => do
    let curr ← s.word temp 2
    let s ← if curr ≠ 0#w then do
        let cached ← s.word curr 0
        let refs ← s.word cached (arrLen + 1)
        let deleted ← s.word cached (arrLen + 2)
        if refs ≤ 1#w ∧ deleted = 1#w then do
          let queue ← s.word cached arrLen
          let s ← free queue 0 s
          let cached ← s.word curr 0
          s.free cached
        else do
          let second ← s.word cached 1
          s.setWord cached 1 (second - 1#w)
      else .ok s
    let key ← s.word temp 1
    let s ← s.free key
    let s ← s.free temp
    if curr ≠ first then freeQueueLoop arrLen first free fuel curr s
    else .ok s

def freeQueueFuel (arrLen : Nat) : Nat → Ptr w → Nat → State w → Except Fault (State w)
  | 0, _, _, _ => .error .outOfFuel
  | fuel + 1, nodep, off, s => do
    let q ← s.word nodep off
    let curr ← s.word q 0
    if curr = 0#w then .ok s
    else do
      let s ← freeQueueLoop arrLen curr (freeQueueFuel arrLen fuel) (fuel + 1) curr s
      s.free q

/-- `freeQueue`.  The bound is the number of addresses: every round frees an object. -/
def freeQueue (nodep : Ptr w) (off arrLen : Nat) (s : State w) : Except Fault (State w) :=
  freeQueueFuel arrLen (2 ^ w) nodep off s

/-! ## findNode and setcache -/

def cachelongcmpLoop (l1 l2 : Words w) (i : Nat) : Nat → Int
  | 0 => 0
  | d + 1 => if l1 i ≠ l2 i then 1 else cachelongcmpLoop l1 l2 (i + 1) d

/-- 0 when the first `n` words agree, else 1. -/
def cachelongcmp (l1 l2 : Words w) (n : Nat) : Int := cachelongcmpLoop l1 l2 0 n

/-- The words of a cache entry's key buffer. -/
def State.keyWords (s : State w) (p : Ptr w) : Except Fault (Words w) :=
  if p = 0#w then .error .nullDeref
  else match s.heap p with
    | some (.buf words) => .ok words
    | _ => .error .badAccess

/-- The loop of `findNode`, which only reads. -/
def findNodeLoop (key : Words w) (arrLen : Nat) (s : State w) :
    Nat → Ptr w → Except Fault (Ptr w)
  | 0, _ => .ok 0#w
  | d + 1, curr => do
    let cached ← s.word curr 0
    if cached ≠ 0#w then do
      let deleted ← s.word cached (arrLen + 2)
      let found ← if deleted = 1#w then .ok false
        else do
          let kp ← s.word curr 1
          let words ← s.keyWords kp
          .ok (decide (cachelongcmp key words arrLen ≠ 0))
      if found then .ok cached
      else do
        let next ← s.word curr 2
        findNodeLoop key arrLen s d next
    else do
      let next ← s.word curr 2
      findNodeLoop key arrLen s d next

def findNode (nodep : Ptr w) (off : Nat) (key : Words w) (arrLen : Nat) (s : State w) :
    Except Fault (Ptr w × State w) := do
  let q ← s.word nodep off
  let head ← s.word q 0
  let found ← findNodeLoop key arrLen s 4 head
  if found ≠ 0#w then .ok (found, s)
  else do
    let next ← s.word head 2
    let s ← s.setWord q 0 next
    .ok (0#w, s)

/-- `for (i = 0; i < key_len; i++) kp[i] = key[i];` -/
def copyKey (kp : Ptr w) (key : Words w) (s : State w) : Nat → Except Fault (State w)
  | 0 => .ok s
  | n + 1 => do
    let s ← copyKey kp key s n
    s.setWord kp n (key n)

def setcache (leaf callNode : Ptr w) (key : Words w) (arrLen keyLen : Nat) (s : State w) :
    Except Fault (State w) := do
  let q ← s.word callNode arrLen
  let head ← s.word q 0
  let cached ← s.word head 0
  let s ← if cached ≠ 0#w then do
      let refs ← s.word cached (arrLen + 1)
      let deleted ← s.word cached (arrLen + 2)
      if refs = 1#w ∧ deleted = 1#w then freeQueue cached 0 arrLen s
      else s.setWord cached (arrLen + 1) (refs - 1#w)
    else .ok s
  let refs ← s.word leaf (arrLen + 1)
  let s ← s.setWord leaf (arrLen + 1) (refs + 1#w)
  let head ← s.word q 0
  let s ← s.setWord head 0 leaf
  let kp ← s.word head 1
  let s ← copyKey kp key s keyLen
  let next ← s.word head 2
  s.setWord q 0 next

end CachedBTree
