import Mathlib.Logic.Function.Basic
import Mathlib.Data.BitVec

/-! # The memory the tree lives in

Words are the `unsigned long`s of a machine with `w`-bit words, and pointers are
words (`NULL` is `0`).  A pointer to words is read as the sequence of words from
that address on, so what lies behind the last word an array owns is part of the
sequence: some functions of the source read it.

Objects are kept apart by their address.  An access through `NULL`, to an address
that holds no object, or outside the fields of an object stops the run with a
`Fault`, and so does a failed `BUG_ON`. -/

namespace CachedBTree

abbrev Word (w : Nat) := BitVec w
abbrev Ptr (w : Nat) := BitVec w
abbrev Words (w : Nat) := Nat → BitVec w

/-- The `BUG_ON` lines of `cbtree_base.c`. -/
inductive BugSite where
  | findLevelIndex    -- find_level: BUG_ON(i < 0)
  | findLevelNode     -- find_level: BUG_ON(!node)
  | shrinkFill        -- cbtree_shrink: BUG_ON(fill > 1)
  | insertVal         -- cbtree_insert, cbtree_insert_level: BUG_ON(!val)
  | insertDup         -- cbtree_insert_level: two identical keys are not allowed
  | insertFull        -- cbtree_insert_level: BUG_ON(fill >= geo->no_pairs)
  | rebalanceChild    -- rebalance: BUG_ON(bval(geo, parent, i) != child)
  deriving DecidableEq, Repr

/-- What stops a call before it returns. -/
inductive Fault where
  | bug (site : BugSite)
  | nullDeref
  | badAccess         -- a freed or never allocated object, or the wrong kind of object
  | outOfBounds       -- a negative slot number
  | badFree           -- an object freed twice
  | cacheGone         -- an object freed into a kmem_cache that has been destroyed
  | outOfFuel         -- the bound a recursion of the model was given ran out
  deriving DecidableEq, Repr

/-- The objects the code allocates. -/
inductive Obj (w : Nat) where
  /-- A B+tree node from the mempool: keys, values and the three cache words.  All of them belong to the node
  here, also those that its geometry places behind `NODESIZE` bytes (`layout_never_ok`), where in the source the
  next object lies. -/
  | node (words : Words w)
  /-- `CircularQueue` of `cbtree_cache.h`. -/
  | queue (head : Ptr w)
  /-- `Node` of `cbtree_cache.h`: one cache entry. -/
  | entry (node key next : Ptr w)
  /-- The key buffer of a cache entry: the two words that are written, and behind them what was in the memory when
  it was handed out. -/
  | buf (words : Words w)

/-- Word `i` of an object; `none` behind the last field of a struct. -/
def Obj.word? {w : Nat} : Obj w → Nat → Option (Word w)
  | .node ws, i => some (ws i)
  | .buf ws, i => some (ws i)
  | .queue head, 0 => some head
  | .entry cached _ _, 0 => some cached
  | .entry _ key _, 1 => some key
  | .entry _ _ next, 2 => some next
  | _, _ => none

def Obj.set? {w : Nat} : Obj w → Nat → Word w → Option (Obj w)
  | .node ws, i, v => some (.node (Function.update ws i v))
  | .buf ws, i, v => some (.buf (Function.update ws i v))
  | .queue _, 0, v => some (.queue v)
  | .entry _ key next, 0, v => some (.entry v key next)
  | .entry cached _ next, 1, v => some (.entry cached v next)
  | .entry cached key _, 2, v => some (.entry cached key v)
  | _, _, _ => none

/-- `struct cbtree_head` without its mempool. -/
structure Head (w : Nat) where
  node : Ptr w
  height : Nat

/-- A head and the memory.  `pool` and `slab` are the answers that `mempool_alloc`
and `kmalloc` are going to give, in order: an address and, for `kmalloc`, what
happens to be in the memory handed out.  An answer that is `NULL` or already in use
stands for a failed allocation, so the two lists range over every pattern of failures
and every reuse of freed addresses.  `kfail` records that a `kmalloc` has failed; the
code never reads it. -/
structure State (w : Nat) extends Head w where
  heap : Ptr w → Option (Obj w)
  pool : List (Ptr w)
  slab : List (Ptr w × Words w)
  kfail : Bool

namespace State

variable {w : Nat}

def setObj (s : State w) (p : Ptr w) (o : Option (Obj w)) : State w :=
  { s with heap := Function.update s.heap p o }

def setNode (s : State w) (p : Ptr w) (ws : Words w) : State w :=
  s.setObj p (some (.node ws))

def withHead (s : State w) (head : Head w) : State w :=
  { s with toHead := head }

/-- The words of the tree node at `p`. -/
def load (s : State w) (p : Ptr w) : Except Fault (Words w) :=
  if p = 0#w then .error .nullDeref
  else match s.heap p with
    | some (.node ws) => .ok ws
    | _ => .error .badAccess

/-- Word `i` of whatever object is at `p`. -/
def word (s : State w) (p : Ptr w) (i : Nat) : Except Fault (Word w) :=
  if p = 0#w then .error .nullDeref
  else match (s.heap p).bind (·.word? i) with
    | some v => .ok v
    | none => .error .badAccess

def setWord (s : State w) (p : Ptr w) (i : Nat) (v : Word w) : Except Fault (State w) :=
  if p = 0#w then .error .nullDeref
  else match (s.heap p).bind (·.set? i v) with
    | some o => .ok (s.setObj p (some o))
    | none => .error .badAccess

def inUse (s : State w) (p : Ptr w) : Bool := (s.heap p).isSome

/-- `mempool_alloc`; what the memory holds does not matter, it is cleared next. -/
def mempoolAlloc (s : State w) : Ptr w × State w :=
  match s.pool with
  | [] => (0#w, s)
  | p :: rest =>
    if p = 0#w ∨ s.inUse p then (0#w, { s with pool := rest })
    else (p, { s with pool := rest }.setNode p fun _ => 0)

/-- `kmalloc` of an object that `mk` builds from what the memory holds. -/
def kmalloc (s : State w) (mk : Words w → Obj w) : Ptr w × State w :=
  match s.slab with
  | [] => (0#w, { s with kfail := true })
  | (p, junk) :: rest =>
    if p = 0#w ∨ s.inUse p then (0#w, { s with slab := rest, kfail := true })
    else (p, { s with slab := rest }.setObj p (some (mk junk)))

/-- `kfree` and `mempool_free`: nothing happens to `NULL`. -/
def free (s : State w) (p : Ptr w) : Except Fault (State w) :=
  if p = 0#w then .ok s
  else if s.inUse p then .ok (s.setObj p none)
  else .error .badFree

end State

/-! ## Reading a run of the model -/

@[simp] theorem ok_bind {α β : Type} (a : α) (f : α → Except Fault β) :
    (Except.ok a >>= f) = f a := rfl

@[simp] theorem error_bind {α β : Type} (e : Fault) (f : α → Except Fault β) :
    ((Except.error e : Except Fault α) >>= f) = .error e := rfl

/-- A sequence of two steps returns exactly when both do. -/
theorem bind_eq_ok {α β : Type} {x : Except Fault α} {f : α → Except Fault β} {b : β} :
    (x >>= f) = .ok b ↔ ∃ a, x = .ok a ∧ f a = .ok b := by
  cases x with
  | error e => simp
  | ok a => simp

theorem ite_eq_ok {α : Type} {c : Prop} [Decidable c] {x y : Except Fault α} {a : α} :
    (if c then x else y) = .ok a ↔ (c ∧ x = .ok a) ∨ (¬c ∧ y = .ok a) := by
  by_cases hc : c <;> simp [hc]

section

variable {α : Type} {w : Nat} {x : Except Fault (α × State w)} {s : State w}

/-- What a call returns. -/
def returned (x : Except Fault (α × State w)) : Option α :=
  match x with
  | .ok (a, _) => some a
  | .error _ => none

/-- The memory after a call; as before when the call does not return. -/
def State.after (s : State w) (x : Except Fault (α × State w)) : State w :=
  match x with
  | .ok (_, s') => s'
  | .error _ => s

theorem returned_eq_some {a : α} : returned x = some a ↔ x = .ok (a, s.after x) := by
  cases x with
  | error e => simp [returned]
  | ok r =>
    obtain ⟨b, s'⟩ := r
    simp [returned, State.after]

/-- What stops a call. -/
def faulted (x : Except Fault α) : Option Fault :=
  match x with
  | .ok _ => none
  | .error f => some f

theorem faulted_eq_some {x : Except Fault α} {f : Fault} : faulted x = some f ↔ x = .error f := by
  cases x <;> simp [faulted]

end

namespace State

variable {w : Nat} {s : State w} {p q : Ptr w}

@[simp] theorem setObj_toHead (o : Option (Obj w)) : (s.setObj p o).toHead = s.toHead := rfl
@[simp] theorem setObj_pool (o : Option (Obj w)) : (s.setObj p o).pool = s.pool := rfl
@[simp] theorem setObj_slab (o : Option (Obj w)) : (s.setObj p o).slab = s.slab := rfl
@[simp] theorem setObj_kfail (o : Option (Obj w)) : (s.setObj p o).kfail = s.kfail := rfl
@[simp] theorem setNode_toHead (ws : Words w) : (s.setNode p ws).toHead = s.toHead := rfl
@[simp] theorem setNode_pool (ws : Words w) : (s.setNode p ws).pool = s.pool := rfl
@[simp] theorem setNode_slab (ws : Words w) : (s.setNode p ws).slab = s.slab := rfl
@[simp] theorem setNode_kfail (ws : Words w) : (s.setNode p ws).kfail = s.kfail := rfl
@[simp] theorem withHead_heap (h : Head w) : (s.withHead h).heap = s.heap := rfl

theorem setObj_heap (o : Option (Obj w)) :
    (s.setObj p o).heap q = if q = p then o else s.heap q := by
  simp [setObj, Function.update_apply]

theorem setNode_heap (ws : Words w) :
    (s.setNode p ws).heap q = if q = p then some (.node ws) else s.heap q := setObj_heap _

@[simp] theorem setNode_heap_self (ws : Words w) : (s.setNode p ws).heap p = some (.node ws) := by
  simp [setNode_heap]

theorem setNode_heap_ne (ws : Words w) (h : q ≠ p) : (s.setNode p ws).heap q = s.heap q := by
  simp [setNode_heap, h]

theorem load_eq_ok {ws : Words w} : s.load p = .ok ws ↔ p ≠ 0#w ∧ s.heap p = some (.node ws) := by
  unfold load
  by_cases hp : p = 0#w
  · simp [hp]
  · cases hobj : s.heap p with
    | none => simp [hp]
    | some o => cases o <;> simp [hp]

theorem setNode_setNode (s : State w) (p : Ptr w) (n n' : Words w) :
    (s.setNode p n).setNode p n' = s.setNode p n' := by
  simp [setNode, setObj]

theorem load_setNode (hp : p ≠ 0#w) (n : Words w) : (s.setNode p n).load p = .ok n :=
  load_eq_ok.mpr ⟨hp, setNode_heap_self n⟩

theorem word_eq_ok {i : Nat} {v : Word w} :
    s.word p i = .ok v ↔ p ≠ 0#w ∧ ∃ o, s.heap p = some o ∧ o.word? i = some v := by
  unfold word
  by_cases hp : p = 0#w
  · simp [hp]
  · cases hobj : s.heap p with
    | none => simp [hp]
    | some o => cases hword : o.word? i <;> simp [hp, hword]

theorem setWord_eq_ok {i : Nat} {v : Word w} {s' : State w} :
    s.setWord p i v = .ok s' ↔
      p ≠ 0#w ∧ ∃ o o', s.heap p = some o ∧ o.set? i v = some o' ∧ s' = s.setObj p (some o') := by
  unfold setWord
  by_cases hp : p = 0#w
  · simp [hp]
  · cases hobj : s.heap p with
    | none => simp [hp]
    | some o => cases hset : o.set? i v <;> simp [hp, hset, eq_comm]

/-- Either the allocation fails and memory is as before, or a fresh node appears. -/
theorem mempoolAlloc_cases (s : State w) :
    (∃ pool, s.mempoolAlloc = (0#w, { s with pool := pool })) ∨
    (∃ p pool, p ≠ 0#w ∧ s.heap p = none ∧
      s.mempoolAlloc = (p, { s with pool := pool }.setNode p fun _ => 0)) := by
  unfold mempoolAlloc
  split
  next heq => exact .inl ⟨[], by rw [← heq]⟩
  next p rest _ =>
    by_cases hp : p = 0#w ∨ s.inUse p
    · exact .inl ⟨rest, by rw [if_pos hp]⟩
    · have hfree : s.heap p = none := by simpa [inUse] using (not_or.mp hp).2
      exact .inr ⟨p, rest, (not_or.mp hp).1, hfree, by rw [if_neg hp]⟩

theorem kmalloc_cases (s : State w) (mk : Words w → Obj w) :
    (∃ slab, s.kmalloc mk = (0#w, { s with slab := slab, kfail := true })) ∨
    (∃ p junk slab, p ≠ 0#w ∧ s.heap p = none ∧
      s.kmalloc mk = (p, { s with slab := slab }.setObj p (some (mk junk)))) := by
  unfold kmalloc
  split
  next heq => exact .inl ⟨[], by rw [← heq]⟩
  next p junk rest _ =>
    by_cases hp : p = 0#w ∨ s.inUse p
    · exact .inl ⟨rest, by rw [if_pos hp]⟩
    · have hfree : s.heap p = none := by simpa [inUse] using (not_or.mp hp).2
      exact .inr ⟨p, junk, rest, (not_or.mp hp).1, hfree, by rw [if_neg hp]⟩

theorem free_eq_ok {s' : State w} :
    s.free p = .ok s' ↔ (p = 0#w ∧ s' = s) ∨ (p ≠ 0#w ∧ s.heap p ≠ none ∧ s' = s.setObj p none) := by
  unfold free inUse
  by_cases hp : p = 0#w
  · simp [hp, eq_comm]
  · cases hobj : s.heap p <;> simp [hp, eq_comm]

end State

end CachedBTree
