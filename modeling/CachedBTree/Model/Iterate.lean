import CachedBTree.Model.Lookup

/-! # Walking over the entries

`dec_key`, `keyzero`, `cbtree_get_prev`, the loop of `cbtree_for_each_safe` and the two
visitors.  The calls that a visitor makes are recorded instead of made. -/

namespace CachedBTree

open CachedBTree.Support

variable {w : Nat}

/-- The loop of `dec_key` with the words before `i` to go. -/
def decKeyLoop : Nat → Words w → Words w
  | 0, key => key
  | i + 1, key =>
    let val := key i
    let key := Function.update key i (val - 1#w)
    if val ≠ 0#w then key else decKeyLoop i key

def decKey (geo : Geo) (key : Words w) : Words w := decKeyLoop geo.keylen key

/-- All words of the key are zero. -/
def keyzero (geo : Geo) (key : Words w) : Bool :=
  scan (fun i => decide (key i ≠ 0#w)) 0 geo.keylen = geo.keylen

/-! ## cbtree_get_prev -/

/-- The way down with `d` levels to go: the node it ends at, or `none` at `goto miss`, and
`retry_key`, which points into the last node left. -/
def getPrevDescent (geo : Geo) (key : Words w) :
    Nat → Ptr w → Option (KeyPtr w) → State w → Except Fault (Option (Ptr w) × Option (KeyPtr w))
  | 0, node, retry, _ => .ok (some node, retry)
  | d + 1, node, retry, s => do
    let words ← s.load node
    let i := getpos geo words key
    if i = geo.noPairs then .ok (none, retry)
    else
      let oldnode := node
      let node := bval geo words i
      if node = 0#w then .ok (none, retry)
      else getPrevDescent geo key d node (some (.slot oldnode i)) s

/-- From the end of the way down to the label `miss:`; the value found with its key. -/
def getPrevLeaf (geo : Geo) (key : Words w) (s : State w) (ends : Option (Ptr w) × Option (KeyPtr w)) :
    Except Fault (Option (Ptr w × Words w) × Option (KeyPtr w)) :=
  match ends with
  | (none, retry) => .ok (none, retry)
  | (some node, retry) =>
    if node = 0#w then .ok (none, retry)
    else do
      let words ← s.load node
      let i := getpos geo words key
      if i = geo.noPairs then .ok (none, retry)
      else if bval geo words i = 0#w then .ok (none, retry)
      else .ok (some (bval geo words i, bkey geo words i), retry)

/-- From the label `retry:` on; `key` is the local array. -/
def getPrevRetry (geo : Geo) (s : State w) :
    Nat → Words w → Except Fault (Option (Ptr w × Words w))
  | 0, _ => .error .outOfFuel
  | fuel + 1, key => do
    let key := decKey geo key
    let ends ← getPrevDescent geo key (s.height - 1) s.node none s
    let (found, retry) ← getPrevLeaf geo key s ends
    match found, retry with
    | some pair, _ => .ok (some pair)
    | none, some retryKey => do
      let k ← retryKey.read geo s
      getPrevRetry geo s fuel (longcpy key 0 k geo.keylen)
    | none, none => .ok none

/-- `cbtree_get_prev`: the value, and what `*__key` holds afterwards.  A retry goes on from a
smaller key, or from the greatest one after key 0, which bounds their number. -/
def cbtreeGetPrev (geo : Geo) (key : Words w) (s : State w) : Except Fault (Ptr w × Words w) :=
  if keyzero geo key then .ok (0#w, key)
  else if s.height = 0 then .ok (0#w, key)
  else do
    let found ← getPrevRetry geo s (2 ^ (w * geo.keylen) + 1) key
    match found with
    | some (val, k) => .ok (val, longcpy key 0 k geo.keylen)
    | none => .ok (0#w, key)

/-! ## cbtree_for_each_safe -/

/-- The rounds of the loop from a value and its key on: the keys and values it goes through. -/
def forEachSafeLoop (geo : Geo) (s : State w) :
    Nat → Ptr w → Words w → Except Fault (List (Words w × Ptr w))
  | 0, _, _ => .error .outOfFuel
  | fuel + 1, val, key =>
    if val = 0#w then .ok []
    else do
      let (prev, prevKey) ← cbtreeGetPrev geo key s
      let rest ← forEachSafeLoop geo s fuel prev prevKey
      .ok ((key, val) :: rest)

/-- `cbtree_for_each_safe` with a body that leaves the tree alone.  No two rounds have the same
key. -/
def cbtreeForEachSafe (geo : Geo) (key : Words w) (s : State w) :
    Except Fault (List (Words w × Ptr w)) := do
  let (val, key) ← cbtreeLast geo key s
  forEachSafeLoop geo s (2 ^ (w * geo.keylen) + 1) val key

/-! ## The visitors -/

/-- One call of `func`. -/
structure Visit (w : Nat) where
  elem : Ptr w
  key : Words w
  index : Nat

/-- The calls of `func` so far, and `count`. -/
structure Visits (w : Nat) where
  calls : List (Visit w)
  count : Nat

/-- The loop of `__cbtree_for_each` from slot `i` on; `body` is what it does with a child. -/
def forEachLoop (geo : Geo) (node : Ptr w)
    (body : Ptr w → Words w → Visits w → State w → Except Fault (Visits w × State w)) :
    Nat → Nat → Visits w → State w → Except Fault (Visits w × State w)
  | _, 0, seen, s => .ok (seen, s)
  | i, d + 1, seen, s => do
    let words ← s.load node
    let child := bval geo words i
    if child = 0#w then .ok (seen, s)
    else do
      let (seen, s) ← body child (bkey geo words i) seen s
      forEachLoop geo node body (i + 1) d seen s

/-- `if (reap)`: the queue and the node are given back. -/
def reapNode (geo : Geo) (reap : Bool) (node : Ptr w) (s : State w) : Except Fault (State w) :=
  if reap then do
    let s ← freeQueue node geo.arrLen geo.arrLen s
    s.free node
  else .ok s

/-- `__cbtree_for_each` with `d` levels below `node`. -/
def cbtreeForEach (geo : Geo) (reap : Bool) :
    Nat → Ptr w → Visits w → State w → Except Fault (Visits w × State w)
  | 0, node, seen, s => do
    let (seen, s) ← forEachLoop geo node
      (fun child key seen s => .ok (⟨seen.calls ++ [⟨child, key, seen.count⟩], seen.count + 1⟩, s))
      0 geo.noPairs seen s
    let s ← reapNode geo reap node s
    .ok (seen, s)
  | d + 1, node, seen, s => do
    let (seen, s) ← forEachLoop geo node (fun child _ => cbtreeForEach geo reap d child)
      0 geo.noPairs seen s
    let s ← reapNode geo reap node s
    .ok (seen, s)

/-- `cbtree_visitor` with a `func2` that is not `NULL`: the calls of `func` and what it returns. -/
def cbtreeVisitor (geo : Geo) (s : State w) : Except Fault (Visits w × State w) :=
  if s.node ≠ 0#w then cbtreeForEach geo false (s.height - 1) s.node ⟨[], 0⟩ s
  else .ok (⟨[], 0⟩, s)

/-- `cbtree_grim_visitor`, likewise. -/
def cbtreeGrimVisitor (geo : Geo) (s : State w) : Except Fault (Visits w × State w) := do
  let (seen, s) ← if s.node ≠ 0#w then cbtreeForEach geo true (s.height - 1) s.node ⟨[], 0⟩ s
    else .ok (⟨[], 0⟩, s)
  .ok (seen, s.withHead ⟨0#w, 0⟩)

end CachedBTree
