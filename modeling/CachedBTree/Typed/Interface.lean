import CachedBTree.Layout
import CachedBTree.Slots
import CachedBTree.Support.Walks
import CachedBTree.Model.Iterate

/-! # `cbtree-type.h`

The functions for keys of one type, on a machine with 64-bit words.  The header is a template,
included for `unsigned long`, `u32` and `u64`; where a key has fewer bits than a word it goes
through a local variable, and otherwise the place of the key is handed on.  The keys of
`cbtree-128.h`, which are two words long, are left out: the cache words that the code writes for
their geometry belong to the next object. -/

namespace CachedBTree

open CachedBTree.Support

variable {κ : Type}

/-- A machine with 64-bit words and an even number of words in a cache line. -/
structure Machine64 extends Machine where
  longPerU64 : toMachine.LONG_PER_U64 = 1
  even : 2 ∣ toMachine.NODESIZE / toMachine.sizeofLong

def Machine64.x86_64 : Machine64 := ⟨.x86_64, by decide, by decide⟩

/-- The words of a local array, and behind them what else is on the stack. -/
def localWords (words : List (Word 64)) (stack : Words 64) : Words 64 := fun j => words.getD j (stack j)

/-- A type of keys: its geometry, the words that stand for a key, the key that is read off words, and its number.
Of the cache words the calls write the queue pointer and the reference count; these are inside the node. -/
structure KeyType (machine : Machine64) (κ : Type) where
  geo : Geo
  /-- `CBTREE_TYPE_BITS` -/
  bits : Nat
  words : κ → List (Word 64)
  read : Words 64 → κ
  num : κ → Nat
  geometry : geo ∈ machine.geometries
  inside : geo.arrLen + 1 < machine.NODESIZE / machine.sizeofLong
  keyNum_words : ∀ key stack, keyNum geo (localWords (words key) stack) = num key
  read_of_num : ∀ key ws, keyNum geo ws = num key → read ws = key

/-- One call of a `visitorl_t` or the like. -/
structure TypedVisit (κ : Type) where
  elem : Ptr 64
  key : κ
  index : Nat

/-- What a visitor of `cbtree_visitor` calls, given an element, the place of its key and its index. -/
abbrev Visitor (κ : Type) := Ptr 64 → Words 64 → Nat → List (TypedVisit κ)

def cvisitorl : Visitor (BitVec 64) := fun elem key index => [⟨elem, key 0, index⟩]

def cvisitor64 : Visitor (BitVec 64) := fun elem key index => [⟨elem, key 0, index⟩]

namespace KeyType

variable {machine : Machine64} (K : KeyType machine κ)

/-- `BITS_PER_LONG > CBTREE_TYPE_BITS` -/
def narrow : Bool := decide (K.bits < 64)

/-- `CBTREE_FN(lookup)` -/
def lookup (key : κ) (stack : Words 64) (s : State 64) : Except Fault (Ptr 64 × State 64) :=
  cbtreeLookup K.geo (localWords (K.words key) stack) s

/-- `CBTREE_FN(insert)` -/
def insert (key : κ) (val : Ptr 64) (stack : Words 64) (s : State 64) : Except Fault (Int × State 64) :=
  cbtreeInsert K.geo (localWords (K.words key) stack) val s

/-- `CBTREE_FN(update)` -/
def update (key : κ) (val : Ptr 64) (stack : Words 64) (s : State 64) : Except Fault (Int × State 64) :=
  cbtreeUpdate K.geo (localWords (K.words key) stack) val s

/-- `CBTREE_FN(remove)` -/
def remove (key : κ) (stack : Words 64) (s : State 64) : Except Fault (Ptr 64 × State 64) :=
  cbtreeRemove K.geo (Reclaim.code K.geo) (localWords (K.words key) stack) s

/-- `CBTREE_FN(last)`: the value, and what `*key` holds afterwards.  The local variable is not initialised. -/
def last (key : κ) (stack : Words 64) (s : State 64) : Except Fault (Ptr 64 × κ) :=
  if K.narrow then do
    let (val, words) ← cbtreeLast K.geo stack s
    .ok (val, if val ≠ 0#64 then K.read words else key)
  else do
    let (val, words) ← cbtreeLast K.geo (localWords (K.words key) stack) s
    .ok (val, K.read words)

/-- `CBTREE_FN(get_prev)` -/
def getPrev (key : κ) (stack : Words 64) (s : State 64) : Except Fault (Ptr 64 × κ) :=
  if K.narrow then do
    let (val, words) ← cbtreeGetPrev K.geo (localWords (K.words key) stack) s
    .ok (val, if val ≠ 0#64 then K.read words else key)
  else do
    let (val, words) ← cbtreeGetPrev K.geo (localWords (K.words key) stack) s
    .ok (val, K.read words)

/-- The loops `cbtree_for_each_safel` and so on, with a body that leaves the tree alone. -/
def forEachSafe (key : κ) (stack : Words 64) (s : State 64) : Except Fault (List (κ × Ptr 64)) := do
  let (val, key) ← K.last key stack s
  walkLoop .outOfFuel 0#64 (fun key => K.getPrev key stack s) (2 ^ (64 * K.geo.keylen) + 1) val key

/-- `CBTREE_FN(visitor)` with a `func2` that is not `NULL`: the calls of it, and what is returned.  Every type
hands on `visitorl`, which the header declares and the kernel defines. -/
def visitor (visitorl : Visitor κ) (s : State 64) : Except Fault (List (TypedVisit κ) × Nat) := do
  let (seen, _) ← cbtreeVisitor K.geo s
  .ok (seen.calls.flatMap fun call => visitorl call.elem call.key call.index, seen.count)

/-- A visitor calls its function once, with the key at the place given. -/
def HandsOn (visitor : Visitor κ) : Prop := ∀ elem key index, visitor elem key index = [⟨elem, K.read key, index⟩]

/-- There is room for five pairs. -/
theorem four_le : 4 ≤ K.geo.noPairs := by
  have := machine.geometries_noPairs K.geometry
  omega

/-- The deleted flag is the first word behind the node. -/
theorem flag_behind : K.geo.arrLen + 2 = machine.NODESIZE / machine.sizeofLong :=
  Nat.le_antisymm K.inside (machine.deleted_outside K.geometry)

end KeyType

/-! ## The types -/

theorem keyNum_one {geo : Geo} (hgeo : geo.keylen = 1) (ws : Words 64) : keyNum geo ws = (ws 0).toNat := by
  simp [keyNum, hgeo, numeral]

namespace Machine64

variable (machine : Machine64)

/-- With keys of one word the reference count is the last word of a node at most. -/
theorem inside_of_keylen {geo : Geo} (hgeo : geo ∈ machine.geometries) (hone : geo.keylen = 1) :
    geo.arrLen + 1 < machine.NODESIZE / machine.sizeofLong := by
  have hwords := machine.longs_eq.1
  have heven := machine.even
  have hwide := machine.longPerU64
  simp only [Machine.geometries, List.mem_cons, List.not_mem_nil, or_false] at hgeo
  rcases hgeo with rfl | rfl | rfl
  · simp only [Geo.arrLen, Machine.cbtree_geo32]
    omega
  · simp only [Geo.arrLen, Machine.cbtree_geo64, hwide]
    omega
  · simp only [Machine.cbtree_geo128] at hone
    omega

/-- For a pair of `u64` even the queue pointer is behind the node. -/
theorem geo128_outside : machine.NODESIZE / machine.sizeofLong ≤ machine.cbtree_geo128.arrLen := by
  obtain ⟨hwords, hlongs⟩ := machine.longs_eq
  have hwide := machine.longPerU64
  simp only [Geo.arrLen, Machine.cbtree_geo128, hwide]
  omega

/-- One word for each key. -/
def wordKeys (geo : Geo) (hgeo : geo ∈ machine.geometries) (hone : geo.keylen = 1) : KeyType machine (BitVec 64) where
  geo := geo
  bits := 64
  words key := [key]
  read ws := ws 0
  num key := key.toNat
  geometry := hgeo
  inside := machine.inside_of_keylen hgeo hone
  keyNum_words key stack := by rw [keyNum_one hone]; rfl
  read_of_num key ws h := by
    rw [keyNum_one hone] at h
    exact BitVec.eq_of_toNat_eq h

theorem geo32_mem : machine.cbtree_geo32 ∈ machine.geometries := List.mem_cons_self

theorem geo64_mem : machine.cbtree_geo64 ∈ machine.geometries := List.mem_cons_of_mem _ List.mem_cons_self

/-- `CBTREE_TYPE_SUFFIX l` -/
def keysl : KeyType machine (BitVec 64) := machine.wordKeys machine.cbtree_geo32 machine.geo32_mem rfl

/-- `CBTREE_TYPE_SUFFIX 32` -/
def keys32 : KeyType machine (BitVec 32) where
  geo := machine.cbtree_geo32
  bits := 32
  words key := [key.setWidth 64]
  read ws := (ws 0).setWidth 32
  num key := key.toNat
  geometry := machine.geo32_mem
  inside := machine.inside_of_keylen machine.geo32_mem rfl
  keyNum_words key stack := by
    rw [keyNum_one rfl]
    have := key.isLt
    simp [localWords]
    omega
  read_of_num key ws h := by
    rw [keyNum_one rfl] at h
    apply BitVec.eq_of_toNat_eq
    rw [BitVec.toNat_setWidth, h]
    exact Nat.mod_eq_of_lt key.isLt

/-- `CBTREE_TYPE_SUFFIX 64` -/
def keys64 : KeyType machine (BitVec 64) := machine.wordKeys machine.cbtree_geo64 machine.geo64_mem machine.longPerU64

end Machine64

/-- So no type of keys has the geometry of a pair of `u64`. -/
theorem KeyType.geo_ne_geo128 {machine : Machine64} (K : KeyType machine κ) : K.geo ≠ machine.cbtree_geo128 := by
  intro hgeo
  have hinside := K.inside
  rw [hgeo] at hinside
  have := machine.geo128_outside
  omega

end CachedBTree
