import CachedBTree.Support.Loops
import CachedBTree.Model.Memory

/-! # One node: its layout, its keys and its slots

The first half of `cbtree_base.c`: the geometry, the comparison of keys, the
access to the slots of a node and the loops that look for a slot.  A node is the
sequence of words from its address on; where in it the keys, the values and the
three cache words lie is computed from the geometry as the source computes it. -/

namespace CachedBTree

open CachedBTree.Support

variable {w : Nat}

/-- `struct cbtree_geo`.  Every geometry of the source has `no_longs` words of keys,
`keylen` for each pair. -/
structure Geo where
  keylen : Nat
  noPairs : Nat
  noLongs : Nat
  keylen_pos : 0 < keylen
  noLongs_eq : noLongs = keylen * noPairs

/-- `geo->keylen * geo->no_pairs + geo->no_longs`, passed around as `arr_len`: the
offset of the queue pointer, behind which follow the reference count and the deleted
flag. -/
def Geo.arrLen (geo : Geo) : Nat := geo.keylen * geo.noPairs + geo.noLongs

def ENOMEM : Int := 12
def ENOENT : Int := 2

/-! ## Keys -/

def longcmpLoop (l1 l2 : Words w) (i : Nat) : Nat → Int
  | 0 => 0
  | d + 1 =>
    if l1 i < l2 i then -1
    else if l1 i > l2 i then 1
    else longcmpLoop l1 l2 (i + 1) d

def longcmp (l1 l2 : Words w) (n : Nat) : Int := longcmpLoop l1 l2 0 n

/-- `longcpy(&dest[off], src, n)`. -/
def longcpy (dest : Words w) (off : Nat) (src : Words w) : Nat → Words w
  | 0 => dest
  | n + 1 => Function.update (longcpy dest off src n) (off + n) (src n)

/-- `longset(&s[off], c, n)`. -/
def longset (s : Words w) (off : Nat) (c : Word w) : Nat → Words w
  | 0 => s
  | n + 1 => Function.update (longset s off c n) (off + n) c

/-! ## Slots -/

def bkey (geo : Geo) (node : Words w) (n : Nat) : Words w := fun j => node (n * geo.keylen + j)

def bval (geo : Geo) (node : Words w) (n : Nat) : Ptr w := node (geo.noLongs + n)

def setkey (geo : Geo) (node : Words w) (n : Nat) (key : Words w) : Words w :=
  longcpy node (n * geo.keylen) key geo.keylen

def setval (geo : Geo) (node : Words w) (n : Nat) (val : Ptr w) : Words w :=
  Function.update node (geo.noLongs + n) val

def clearpair (geo : Geo) (node : Words w) (n : Nat) : Words w :=
  Function.update (longset node (n * geo.keylen) 0#w geo.keylen) (geo.noLongs + n) 0#w

/-- `setkey(geo, dest, n, bkey(geo, src, m)); setval(geo, dest, n, bval(geo, src, m));` -/
def copypair (geo : Geo) (dest : Words w) (n : Nat) (src : Words w) (m : Nat) : Words w :=
  setval geo (setkey geo dest n (bkey geo src m)) n (bval geo src m)

def keycmp (geo : Geo) (node : Words w) (pos : Nat) (key : Words w) : Int :=
  longcmp (bkey geo node pos) key geo.keylen

/-- The first slot whose key is at most `key`; an unused slot counts as key 0. -/
def getpos (geo : Geo) (node key : Words w) : Nat :=
  scan (fun i => decide (keycmp geo node i key ≤ 0)) 0 geo.noPairs

/-- The first slot from `start` on that holds no value. -/
def getfill (geo : Geo) (node : Words w) (start : Nat) : Nat :=
  scan (fun i => decide (bval geo node i = 0#w)) start (geo.noPairs - start)

/-! ## Loops over the slots -/

/-- `for (i = pos + d; i > pos; i--)`: slot `i - 1` moves to slot `i`. -/
def shiftRight (geo : Geo) (pos : Nat) : Nat → Words w → Words w
  | 0, node => node
  | d + 1, node => shiftRight geo pos d (copypair geo node (pos + d + 1) node (pos + d))

/-- `for (i = pos; i < pos + d; i++)`: slot `i + 1` moves to slot `i`. -/
def shiftLeft (geo : Geo) (node : Words w) (pos : Nat) : Nat → Words w
  | 0 => node
  | d + 1 =>
    let node := shiftLeft geo node pos d
    copypair geo node (pos + d) node (pos + d + 1)

/-- One round of the split loop: slot `i` goes to `new`, slot `i + fill / 2` takes its place. -/
def splitRound (geo : Geo) (fill i : Nat) (pair : Words w × Words w) : Words w × Words w :=
  let new := copypair geo pair.1 i pair.2 i
  let node := copypair geo pair.2 i pair.2 (i + fill / 2)
  (new, clearpair geo node (i + fill / 2))

def splitLoop (geo : Geo) (fill : Nat) : Nat → Words w × Words w → Words w × Words w
  | 0, pair => pair
  | i + 1, pair => splitRound geo fill i (splitLoop geo fill i pair)

/-- The in-place split of a full node: the loop, then the step for an odd fill.  The
first component is `new`. -/
def splitNode (geo : Geo) (fill : Nat) (new node : Words w) : Words w × Words w :=
  let pair := splitLoop geo fill (fill / 2) (new, node)
  if fill % 2 = 1 then
    (pair.1, clearpair geo (copypair geo pair.2 (fill / 2) pair.2 (fill - 1)) (fill - 1))
  else pair

/-- The first loop of `merge`: the `rfill` pairs of `right` go behind those of `left`. -/
def appendPairs (geo : Geo) (left : Words w) (lfill : Nat) (right : Words w) : Nat → Words w
  | 0 => left
  | i + 1 => copypair geo (appendPairs geo left lfill right i) (lfill + i) right i

/-! ## Key arguments -/

/-- An `unsigned long *key` argument: a buffer of the caller, or the key slot of a node,
read anew each time it is used. -/
inductive KeyPtr (w : Nat) where
  | buf (words : Words w)
  | slot (node : Ptr w) (n : Nat)

def KeyPtr.read (geo : Geo) (s : State w) : KeyPtr w → Except Fault (Words w)
  | .buf words => .ok words
  | .slot node n => do
    let words ← s.load node
    .ok (bkey geo words n)

end CachedBTree
