import CachedBTree.Model.Insert

/-! # Removal

`cbtree_shrink`, `merge`, `rebalance`, `cbtree_remove_level` and `cbtree_remove`.
The three places that give back a node which has left the tree are gathered in
`Reclaim`, so that the tree part can be looked at by itself; `Reclaim.code` is what
the source does there. -/

namespace CachedBTree

variable {w : Nat}

/-- What is done with a node that `merge`, the empty-child case of `rebalance` or
`cbtree_shrink` has taken out of the tree. -/
structure Reclaim (w : Nat) where
  merged : Ptr w → State w → Except Fault (State w)
  emptied : Ptr w → State w → Except Fault (State w)
  shrunk : Ptr w → State w → Except Fault (State w)

/-- The common part of `merge` and `rebalance`: the queue goes, then the node is freed when
no cache points to it (`mempool_free(freed, ...)`), else flagged deleted. -/
def reclaimNode (geo : Geo) (node freed : Ptr w) (s : State w) : Except Fault (State w) := do
  let s ← freeQueue node geo.arrLen geo.arrLen s
  let refs ← s.word node (geo.arrLen + 1)
  if refs = 0#w then s.free freed
  else s.setWord node (geo.arrLen + 2) 1#w

/-- The code of the source.  `rebalance` passes `right` to `mempool_free`, which is still
`NULL` there. -/
def Reclaim.code (geo : Geo) : Reclaim w where
  merged right := reclaimNode geo right right
  emptied child := reclaimNode geo child 0#w
  shrunk node s := do
    let s ← freeQueue node geo.arrLen geo.arrLen s
    s.free node

def cbtreeShrink (geo : Geo) (rec : Reclaim w) (s : State w) : Except Fault (State w) :=
  if s.height ≤ 1 then .ok s
  else do
    let node := s.node
    let words ← s.load node
    let fill := getfill geo words 0
    if 1 < fill then .error (.bug .shrinkFill)
    else rec.shrunk node (s.withHead ⟨bval geo words 0, s.height - 1⟩)

/-- `merge`; `removeUp` is `cbtree_remove_level`. -/
def merge (geo : Geo) (rec : Reclaim w)
    (removeUp : KeyPtr w → Nat → State w → Except Fault (Ptr w × State w))
    (level : Nat) (left : Ptr w) (lfill : Nat) (right : Ptr w) (rfill : Nat)
    (parent : Ptr w) (lpos : Nat) (s : State w) : Except Fault (State w) := do
  -- Move all keys to the left
  let leftWords ← s.load left
  let rightWords ← s.load right
  let s := s.setNode left (appendPairs geo leftWords lfill rightWords rfill)
  -- Exchange left and right child in parent
  let words ← s.load parent
  let s := s.setNode parent (setval geo (setval geo words lpos right) (lpos + 1) left)
  -- Remove left (formerly right) child from parent
  let (_, s) ← removeUp (.slot parent lpos) (level + 1) s
  rec.merged right s

def rebalance (geo : Geo) (rec : Reclaim w)
    (removeUp : KeyPtr w → Nat → State w → Except Fault (Ptr w × State w))
    (key : KeyPtr w) (level : Nat) (child : Ptr w) (fill : Nat) (s : State w) :
    Except Fault (State w) :=
  if fill = 0 then do
    let (_, s) ← removeUp key (level + 1) s
    rec.emptied child s
  else do
    let (parent, s) ← findLevel geo key (level + 1) s
    let words ← s.load parent
    let k ← key.read geo s
    let i := getpos geo words k
    if bval geo words i ≠ child then .error (.bug .rebalanceChild)
    else do
      let left := bval geo words (i - 1)
      let noLeft ← if 0 < i then do
          let leftWords ← s.load left
          .ok (some (getfill geo leftWords 0))
        else .ok none
      if ∃ n ∈ noLeft, fill + n ≤ geo.noPairs then
        merge geo rec removeUp level left (noLeft.getD 0) child fill parent (i - 1) s
      else if i + 1 < getfill geo words i then do
        let right := bval geo words (i + 1)
        let rightWords ← s.load right
        let noRight := getfill geo rightWords 0
        if fill + noRight ≤ geo.noPairs then
          merge geo rec removeUp level child fill right noRight parent i s
        else .ok s
      else .ok s

def cbtreeRemoveLevel (geo : Geo) (rec : Reclaim w) :
    Nat → KeyPtr w → Nat → State w → Except Fault (Ptr w × State w)
  | 0, _, _, _ => .error .outOfFuel
  | fuel + 1, key, level, s =>
    if s.height < level then
      -- we recursed all the way up
      .ok (0#w, s.withHead ⟨0#w, 0⟩)
    else do
      let (node, s) ← findLevel geo key level s
      let words ← s.load node
      let k ← key.read geo s
      let pos := getpos geo words k
      let fill := getfill geo words pos
      if level = 1 ∧ keycmp geo words pos k ≠ 0 then .ok (0#w, s)
      else
        let ret := bval geo words pos
        -- clearpair(geo, node, fill - 1) with no slot in use
        if fill = 0 then .error .outOfBounds
        else do
          -- remove and shift
          let words := shiftLeft geo words pos (fill - 1 - pos)
          let s := s.setNode node (clearpair geo words (fill - 1))
          let s ← if fill - 1 < geo.noPairs / 2 then
              if level < s.height then
                rebalance geo rec (cbtreeRemoveLevel geo rec fuel) key level node (fill - 1) s
              else if fill - 1 = 1 then cbtreeShrink geo rec s
              else .ok s
            else .ok s
          .ok (ret, s)

/-- `cbtree_remove`: the value removed, or `NULL`. -/
def cbtreeRemove (geo : Geo) (rec : Reclaim w) (key : Words w) (s : State w) :
    Except Fault (Ptr w × State w) :=
  if s.height = 0 then .ok (0#w, s)
  else cbtreeRemoveLevel geo rec (s.height + 1) (.buf key) 1 s

end CachedBTree
