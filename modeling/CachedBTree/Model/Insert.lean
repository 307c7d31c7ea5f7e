import CachedBTree.Model.Cache

/-! # Insertion

`cbtree_node_alloc`, `find_level`, `cbtree_grow`, `cbtree_insert_level` and
`cbtree_insert`.  Calls that the source makes on itself go through a bound on their
depth; running out of it is a `Fault`, so a result that is not that fault is the
result of the source. -/

namespace CachedBTree

variable {w : Nat}

/-- `cbtree_node_alloc`: a cleared node with its queue, or `NULL`.  The source clears `NODESIZE` bytes; here the
cache words that lie behind these (`layout_never_ok`) are cleared as well. -/
def cbtreeNodeAlloc (geo : Geo) (s : State w) : Except Fault (Ptr w × State w) :=
  let (node, s) := s.mempoolAlloc
  if node = 0#w then .ok (0#w, s)
  else do
    let s := s.setNode node fun _ => 0#w
    let s ← initQueue node geo.arrLen s
    .ok (node, s)

/-- The loop of `find_level` with `d` levels to go down. -/
def findLevelLoop (geo : Geo) (key : KeyPtr w) :
    Nat → Ptr w → State w → Except Fault (Ptr w × State w)
  | 0, node, s => .ok (node, s)
  | d + 1, node, s => do
    let words ← s.load node
    let k ← key.read geo s
    let i := getpos geo words k
    if i = geo.noPairs ∨ bval geo words i = 0#w then
      -- right-most key is too large, update it
      if i = 0 then .error (.bug .findLevelIndex)
      else
        let words := setkey geo words (i - 1) k
        findLevelLoop geo key d (bval geo words (i - 1)) (s.setNode node words)
    else findLevelLoop geo key d (bval geo words i) s

def findLevel (geo : Geo) (key : KeyPtr w) (level : Nat) (s : State w) :
    Except Fault (Ptr w × State w) := do
  let (node, s) ← findLevelLoop geo key (s.height - level) s.node s
  if node = 0#w then .error (.bug .findLevelNode) else .ok (node, s)

/-- `cbtree_grow`: a new root over the old one, 0 or `-ENOMEM`. -/
def cbtreeGrow (geo : Geo) (s : State w) : Except Fault (Int × State w) := do
  let (node, s) ← cbtreeNodeAlloc geo s
  if node = 0#w then .ok (-ENOMEM, s)
  else do
    let s ← if s.node ≠ 0#w then do
        let old ← s.load s.node
        let fill := getfill geo old 0
        if fill = 0 then .error .outOfBounds
        else do
          let words ← s.load node
          let words := setkey geo words 0 (bkey geo old (fill - 1))
          .ok (s.setNode node (setval geo words 0 s.node))
      else .ok s
    .ok (0, s.withHead ⟨node, s.height + 1⟩)

/-- From the label `retry:` to the end of `cbtree_insert_level`; `insertUp` is the call at
the next level, `tries` bounds the jumps back. -/
def insertRetry (geo : Geo)
    (insertUp : KeyPtr w → Ptr w → Nat → State w → Except Fault (Int × State w))
    (key : KeyPtr w) (val : Ptr w) (level : Nat) :
    Nat → State w → Except Fault (Int × State w)
  | 0, _ => .error .outOfFuel
  | tries + 1, s => do
    let (node, s) ← findLevel geo key level s
    let words ← s.load node
    let k ← key.read geo s
    let pos := getpos geo words k
    let fill := getfill geo words pos
    -- two identical keys are not allowed
    if pos < fill ∧ keycmp geo words pos k = 0 then .error (.bug .insertDup)
    else if fill = geo.noPairs then do
      -- need to split node
      let (new, s) ← cbtreeNodeAlloc geo s
      if new = 0#w then .ok (-ENOMEM, s)
      -- bkey(geo, node, fill / 2 - 1) in front of the only slot
      else if fill / 2 = 0 then .error .outOfBounds
      else do
        let (err, s) ← insertUp (.slot node (fill / 2 - 1)) new (level + 1) s
        if err ≠ 0 then do
          let s ← s.free new
          .ok (err, s)
        else do
          let newWords ← s.load new
          let words ← s.load node
          let pair := splitNode geo fill newWords words
          insertRetry geo insertUp key val level tries
            ((s.setNode new pair.1).setNode node pair.2)
    else if geo.noPairs ≤ fill then .error (.bug .insertFull)
    else do
      -- shift and insert
      let s := s.setNode node (shiftRight geo pos (fill - pos) words)
      let words ← s.load node
      let k ← key.read geo s
      .ok (0, s.setNode node (setval geo (setkey geo words pos k) pos val))

def cbtreeInsertLevel (geo : Geo) :
    Nat → KeyPtr w → Ptr w → Nat → State w → Except Fault (Int × State w)
  | 0, _, _, _, _ => .error .outOfFuel
  | fuel + 1, key, val, level, s =>
    if val = 0#w then .error (.bug .insertVal)
    else do
      let (err, s) ← if s.height < level then cbtreeGrow geo s else .ok (0, s)
      if err ≠ 0 then .ok (err, s)
      else insertRetry geo (cbtreeInsertLevel geo fuel) key val level (fuel + 1) s

/-- `cbtree_insert`: 0, or `-ENOMEM`. -/
def cbtreeInsert (geo : Geo) (key : Words w) (val : Ptr w) (s : State w) :
    Except Fault (Int × State w) :=
  if val = 0#w then .error (.bug .insertVal)
  else cbtreeInsertLevel geo (s.height + 3) (.buf key) val 1 s

end CachedBTree
