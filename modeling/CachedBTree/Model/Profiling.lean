import CachedBTree.Model.Calls

/-! # `btree_profiling.c`

What the module does with the cbtree: it stores the keys from 1 to `TREE_SIZE` and then looks
up keys that it draws at random.  `TREE_SIZE`, 100000000 in the source, is a parameter.  The tree
of the kernel's own `btree` that is filled next to it shares nothing with this one, and the
stopwatches of `calclock.h` around the calls are in `Timing`.  A key is an array of one word on
the stack: what lies behind it is a parameter. -/

namespace CachedBTree

variable {w : Nat}

/-- `unsigned long temp_key_cb[1] = {key};` and the words behind it. -/
def tempKey (key : Word w) (stack : Words w) : Words w := fun j => if j = 0 then key else stack j

/-! ## fill_tree -/

/-- `insert_element`.  What `cbtree_insert` returns is recorded; the source drops it. -/
def insertElement (geo : Geo) (key : Word w) (stack : Words w) (s : State w) : Except Fault (Int × State w) :=
  let (val, s) := s.kmalloc .buf
  cbtreeInsert geo (tempKey key stack) val s

/-- The loop of `fill_tree` from `i` on, with `d` keys to go. -/
def fillLoop (geo : Geo) (stack : Words w) : Nat → Nat → State w → Except Fault (List Int × State w)
  | _, 0, s => .ok ([], s)
  | i, d + 1, s => do
    let (err, s) ← insertElement geo (BitVec.ofNat w i) stack s
    let (errs, s) ← fillLoop geo stack (i + 1) d s
    .ok (err :: errs, s)

/-- `fill_tree` for a tree of `treeSize` keys. -/
def fillTree (geo : Geo) (treeSize : Nat) (stack : Words w) (s : State w) : Except Fault (List Int × State w) :=
  fillLoop geo stack 1 treeSize s

/-! ## find_tree -/

/-- `search_counts` has `treeSize` places. -/
def updateSearchCount (treeSize : Nat) (key : Word w) (searchCounts : Nat → Word w) : Nat → Word w :=
  if key.toNat < treeSize then
    Function.update searchCounts key.toNat (searchCounts key.toNat + 1#w)
  else searchCounts

def findElement (geo : Geo) (key : Word w) (stack : Words w) (s : State w) : Except Fault (Ptr w × State w) :=
  cbtreeLookup geo (tempKey key stack) s

/-- What a round of `find_tree` draws: the bytes that `get_random_bytes` writes to the key, and the words
behind the key of `find_element`. -/
structure Draw (w : Nat) where
  bytes : Word w
  stack : Words w

/-- `key %= (TREE_SIZE + 1)` -/
def Draw.key (treeSize : Nat) (draw : Draw w) : Word w := draw.bytes % BitVec.ofNat w (treeSize + 1)

/-- The loop of `find_tree`.  What `find_element` returns is recorded; the source drops it. -/
def findTree (geo : Geo) (treeSize : Nat) : List (Draw w) → (Nat → Word w) → State w →
    Except Fault (List (Ptr w) × (Nat → Word w) × State w)
  | [], searchCounts, s => .ok ([], searchCounts, s)
  | draw :: draws, searchCounts, s => do
    let key := draw.key treeSize
    let searchCounts := updateSearchCount treeSize key searchCounts
    let (result, s) ← findElement geo key draw.stack s
    let (results, searchCounts, s) ← findTree geo treeSize draws searchCounts s
    .ok (result :: results, searchCounts, s)

/-! ## The module -/

/-- `mempool_free` for the mempool of the tree, which calls `kmem_cache_free(cbtree_cachep, element)`; `cachep` says
whether the cache is there. -/
def mempoolFree (cachep : Bool) (element : Ptr w) (s : State w) : Except Fault (State w) :=
  if element = 0#w then .ok s
  else if cachep then s.free element
  else .error .cacheGone

/-- As long as the cache is there, this is `cbtree_destroy`. -/
theorem mempoolFree_node (s : State w) : mempoolFree true s.node s = cbtreeDestroy s := by
  unfold mempoolFree cbtreeDestroy State.free
  split <;> simp

end CachedBTree
