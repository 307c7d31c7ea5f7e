import CachedBTree.Model.Remove

/-! # Lookup, update, the last entry and the merge of two trees

`cbtree_lookup_node`, `cbtree_lookup`, `cbtree_update`, `cbtree_last` and
`cbtree_merge`.  A lookup is given the words from its key pointer on, not only the
key: `findNode` compares `arr_len` of them. -/

namespace CachedBTree

open CachedBTree.Support

variable {w : Nat}

/-- The first slot whose key is `key`, over all slots of the node, used or not. -/
def findSlot (geo : Geo) (node key : Words w) : Nat :=
  scan (fun i => decide (keycmp geo node i key = 0)) 0 geo.noPairs

def cbtreeLookupNode (geo : Geo) (key : Words w) :
    Nat → Ptr w → State w → Except Fault (Ptr w × State w)
  | 0, _, s => .ok (0#w, s)
  | 1, node, s => do
    let words ← s.load node
    if findSlot geo words key < geo.noPairs then .ok (node, s) else .ok (0#w, s)
  | height + 2, node, s => do
    let (found, s) ← findNode node geo.arrLen key geo.arrLen s
    if found ≠ 0#w then .ok (found, s)
    else do
      let words ← s.load node
      let i := getpos geo words key
      if i = geo.noPairs then .ok (0#w, s)
      else if bval geo words i = 0#w then .ok (0#w, s)
      else do
        let (leaf, s) ← cbtreeLookupNode geo key (height + 1) (bval geo words i) s
        if leaf ≠ 0#w then do
          let s ← setcache leaf node key geo.arrLen geo.keylen s
          .ok (leaf, s)
        else .ok (leaf, s)

/-- `cbtree_lookup`: what `cbtree_lookup_node` found, which is a node. -/
def cbtreeLookup (geo : Geo) (key : Words w) (s : State w) : Except Fault (Ptr w × State w) := do
  let (node, s) ← cbtreeLookupNode geo key s.height s.node s
  if node = 0#w then .ok (0#w, s) else .ok (node, s)

/-- `cbtree_update`: 0, or `-ENOENT`. -/
def cbtreeUpdate (geo : Geo) (key : Words w) (val : Ptr w) (s : State w) :
    Except Fault (Int × State w) := do
  let (node, s) ← cbtreeLookupNode geo key s.height s.node s
  if node = 0#w then .ok (-ENOENT, s)
  else do
    let words ← s.load node
    let i := findSlot geo words key
    if i < geo.noPairs then .ok (0, s.setNode node (setval geo words i val))
    else .ok (-ENOENT, s)

/-- The loop of `cbtree_last`, `d` levels down along slot 0. -/
def cbtreeLastLoop (geo : Geo) : Nat → Ptr w → State w → Except Fault (Ptr w)
  | 0, node, _ => .ok node
  | d + 1, node, s => do
    let words ← s.load node
    cbtreeLastLoop geo d (bval geo words 0) s

/-- `cbtree_last`: the value, and what `*key` holds afterwards. -/
def cbtreeLast (geo : Geo) (key : Words w) (s : State w) : Except Fault (Ptr w × Words w) :=
  if s.height = 0 then .ok (0#w, key)
  else do
    let node ← cbtreeLastLoop geo (s.height - 1) s.node s
    let words ← s.load node
    .ok (bval geo words 0, longcpy key 0 (bkey geo words 0) geo.keylen)

/-- The `for (;;)` loop of `cbtree_merge`.  The state carries the head of `target`; `key` and
`dup` are the local arrays. -/
def cbtreeMergeLoop (geo : Geo) (rec : Reclaim w) :
    Nat → Words w → Words w → Head w → State w → Except Fault (Int × Head w × State w)
  | 0, _, _, _, _ => .error .outOfFuel
  | fuel + 1, key, dup, victim, s => do
    let (last, key) ← cbtreeLast geo key (s.withHead victim)
    if last = 0#w then .ok (0, victim, s)
    else do
      let target := s.toHead
      let (val, s) ← cbtreeLookup geo key (s.withHead victim)
      let (err, s) ← cbtreeInsert geo key val (s.withHead target)
      if err ≠ 0 then .ok (err, victim, s)
      else do
        let target := s.toHead
        let dup := longcpy dup 0 key geo.keylen
        let (_, s) ← cbtreeRemove geo rec dup (s.withHead victim)
        cbtreeMergeLoop geo rec fuel key dup s.toHead (s.withHead target)

/-- `cbtree_merge`, for two different heads.  `key` and `dup` are the local arrays as they are
found on the stack.  Every round but the last takes a key out of the victim, which bounds the
number of rounds by the number of keys. -/
def cbtreeMerge (geo : Geo) (rec : Reclaim w) (key dup : Words w) (victim : Head w)
    (s : State w) : Except Fault (Int × Head w × State w) :=
  if s.node = 0#w then
    -- target is empty, just copy fields over
    .ok (0, ⟨0#w, 0⟩, s.withHead victim)
  else cbtreeMergeLoop geo rec (2 ^ (w * geo.keylen) + 1) key dup victim s

end CachedBTree
