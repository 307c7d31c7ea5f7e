import CachedBTree.Support.Simulations
import CachedBTree.Caching.Answers
import CachedBTree.Caching.Surroundings
import CachedBTree.Caching.Transparency
import CachedBTree.Typed.Interface

/-! # The functions for typed keys refine a table

The table is what the comments of `cbtree_base.h` speak of: keys with their values.  Through these
functions only words that stand for keys of the type come into the tree, so what is read back is the
key that was put in, and every run of calls is a run of the table with the same answers.  What a
lookup returns is left open here: it is the address of a leaf. -/

namespace CachedBTree

open CachedBTree.Support

variable {κ : Type} [DecidableEq κ] {machine : Machine64} {K : KeyType machine κ} {s s' s₀ : State 64}
  {es es' : List (κ × Ptr 64)} {key : κ} {val ret : Ptr 64} {stack : Words 64} {err : Int}

/-! ## Keys and numbers -/

namespace KeyType

omit [DecidableEq κ] in
theorem num_inj (K : KeyType machine κ) {key key' : κ} (h : K.num key = K.num key') : key = key' := by
  have hwords := K.keyNum_words key fun _ => 0#64
  exact (K.read_of_num key _ hwords).symm.trans (K.read_of_num key' _ (hwords.trans h))

omit [DecidableEq κ] in
theorem num_eq_num {key key' : κ} : K.num key = K.num key' ↔ key = key' := ⟨K.num_inj, congrArg K.num⟩

/-- A table with the numbers of its keys. -/
def numbered (K : KeyType machine κ) (es : List (κ × Ptr 64)) : Page 64 := es.map fun e => (K.num e.1, e.2)

omit [DecidableEq κ] in
theorem mem_numbered : (K.num key, val) ∈ K.numbered es ↔ (key, val) ∈ es := by
  constructor
  · intro hmem
    obtain ⟨e, he, heq⟩ := List.mem_map.mp hmem
    obtain ⟨hnum, rfl⟩ := Prod.mk.inj heq
    rw [← K.num_inj hnum]
    exact he
  · exact fun hmem => List.mem_map_of_mem hmem

omit [DecidableEq κ] in
theorem numbered_perm (K : KeyType machine κ) : (K.numbered es).Perm (K.numbered es') ↔ es.Perm es' := by
  have hinj : Function.Injective fun e : κ × Ptr 64 => (K.num e.1, e.2) := fun a b heq => by
    obtain ⟨hnum, hval⟩ := Prod.mk.inj heq
    exact Prod.ext (K.num_inj hnum) hval
  exact List.map_perm_map_iff hinj

omit [DecidableEq κ] in
/-- Words whose number stands in the table are read as the key there. -/
theorem read_of_mem {ws : Words 64} (h : (keyNum K.geo ws, val) ∈ K.numbered es) :
    (K.read ws, val) ∈ es ∧ K.num (K.read ws) = keyNum K.geo ws := by
  obtain ⟨e, he, heq⟩ := List.mem_map.mp h
  obtain ⟨hnum, rfl⟩ := Prod.mk.inj heq
  rw [K.read_of_num e.1 ws hnum.symm]
  exact ⟨he, hnum⟩

omit [DecidableEq κ] in
theorem absent_numbered : (∀ e ∈ K.numbered es, e.1 ≠ K.num key) ↔ ∀ e ∈ es, e.1 ≠ key := by
  constructor
  · exact fun habsent e he heq => habsent _ (List.mem_map_of_mem he) (congrArg K.num heq)
  · intro habsent e he
    obtain ⟨e', he', rfl⟩ := List.mem_map.mp he
    exact fun heq => habsent e' he' (K.num_inj heq)

theorem withValue_numbered (key : κ) (val : Ptr 64) : withValue (K.num key) val (K.numbered es) =
    K.numbered (es.map fun e => if e.1 = key then (e.1, val) else e) := by
  simp only [withValue, numbered, List.map_map]
  refine List.map_congr_left fun e _ => ?_
  by_cases he : e.1 = key
  · simp [he]
  · simp [he, num_eq_num]

theorem filter_numbered (key : κ) : (K.numbered es).filter (fun e => decide (e.1 ≠ K.num key)) =
    K.numbered (es.filter fun e => decide (e.1 ≠ key)) := by
  simp only [numbered, List.filter_map]
  exact congrArg (List.map _) (List.filter_congr fun e _ => by simp [num_eq_num])

end KeyType

/-! ## The table -/

inductive TableCall (κ : Type) where
  | insert (key : κ) (val : Ptr 64)
  | lookup (key : κ)
  | update (key : κ) (val : Ptr 64)
  | remove (key : κ)
  deriving DecidableEq

namespace TableCall

/-- What the table answers.  An insertion may find no memory, and a lookup may return anything. -/
def Answered (es : List (κ × Ptr 64)) : TableCall κ → Answer 64 → Prop
  | insert key _, .code err => (∀ e ∈ es, e.1 ≠ key) ∧ (err = 0 ∨ err = -ENOMEM)
  | lookup _, .value _ => True
  | update key _, .code err => err = 0 ∧ (∃ val, (key, val) ∈ es) ∨ err = -ENOENT ∧ ∀ e ∈ es, e.1 ≠ key
  | remove key, .value val => (key, val) ∈ es ∨ val = 0#64 ∧ ∀ e ∈ es, e.1 ≠ key
  | _, _ => False

/-- What a call makes of the table. -/
def apply (es : List (κ × Ptr 64)) : TableCall κ → Answer 64 → List (κ × Ptr 64)
  | insert key val, answer => if answer = .code 0 then (key, val) :: es else es
  | lookup _, _ => es
  | update key val, _ => es.map fun e => if e.1 = key then (e.1, val) else e
  | remove key, _ => es.filter fun e => decide (e.1 ≠ key)

end TableCall

def TableStep (es : List (κ × Ptr 64)) (l : TableCall κ × Answer 64) (es' : List (κ × Ptr 64)) : Prop :=
  l.1.Answered es l.2 ∧ es' = l.1.apply es l.2

/-- What calls with these answers leave in an empty table. -/
def table (log : List (TableCall κ × Answer 64)) : List (κ × Ptr 64) :=
  log.foldl (fun es l => l.1.apply es l.2) []

theorem steps_table {log : List (TableCall κ × Answer 64)} (h : Steps TableStep es log es') :
    es' = log.foldl (fun es l => l.1.apply es l.2) es := by
  induction h with
  | nil es => rfl
  | cons hstep _ ih => rw [ih, hstep.2, List.foldl_cons]

/-! ## The calls -/

namespace TableCall

/-- The function for the call, with what it returns. -/
def answer (K : KeyType machine κ) (stack : Words 64) : TableCall κ → State 64 → Except Fault (Answer 64 × State 64)
  | insert key val, s => do
    let (err, s) ← K.insert key val stack s
    .ok (.code err, s)
  | lookup key, s => do
    let (val, s) ← K.lookup key stack s
    .ok (.value val, s)
  | update key val, s => do
    let (err, s) ← K.update key val stack s
    .ok (.code err, s)
  | remove key, s => do
    let (val, s) ← K.remove key stack s
    .ok (.value val, s)

/-- An update is not misled by a cache, nor the removal of a key that is not stored by words that look like it. -/
def Handled (K : KeyType machine κ) (stack : Words 64) (s : State 64) : TableCall κ → Prop
  | insert _ _ | lookup _ => True
  | update key val => val ≠ 0#64 ∧ updateReaches K.geo (localWords (K.words key) stack) s = true
  | remove key => Absent K.geo s (localWords (K.words key) stack) →
    looksStored K.geo (localWords (K.words key) stack) s = false

instance decidableHandled (K : KeyType machine κ) (stack : Words 64) (s : State 64) (call : TableCall κ) :
    Decidable (call.Handled K stack s) :=
  match call with
  | insert _ _ | lookup _ => inferInstanceAs (Decidable True)
  | update _ _ => inferInstanceAs (Decidable (_ ∧ _))
  | remove _ => inferInstanceAs (Decidable (_ → _))

end TableCall

/-- A call that returns.  What lies on the stack behind its key may be anything, and so may what lies behind the
objects in memory, as long as no node looks deleted. -/
def TypedStep (K : KeyType machine κ) (s : State 64) (l : TableCall κ × Answer 64) (s' : State 64) : Prop :=
  ∃ stack behind, (∀ x, behind x 0 ≠ 1#64) ∧ l.1.Handled K stack (s.amid K.geo behind) ∧
    l.1.answer K stack (s.amid K.geo behind) = .ok (l.2, s')

/-- The calls one after the other with their answers, up to the first that is misled or does not return.  Behind the
objects and the keys there are zeros. -/
def typedAll (K : KeyType machine κ) : List (TableCall κ) → State 64 → List (TableCall κ × Answer 64) × State 64
  | [], s => ([], s)
  | call :: calls, s =>
    if call.Handled K (fun _ => 0#64) (s.amid K.geo fun _ _ => 0#64) then
      match call.answer K (fun _ => 0#64) (s.amid K.geo fun _ _ => 0#64) with
      | .ok (answer, s) => ((call, answer) :: (typedAll K calls s).1, (typedAll K calls s).2)
      | .error _ => ([], s)
    else ([], s)

omit [DecidableEq κ] in
theorem steps_typedAll (K : KeyType machine κ) : ∀ (calls : List (TableCall κ)) (s : State 64),
    Steps (TypedStep K) s (typedAll K calls s).1 (typedAll K calls s).2 := by
  intro calls
  induction calls with
  | nil => exact Steps.nil
  | cons call calls ih =>
    intro s
    unfold typedAll
    split
    next hhandled =>
      split
      next answer s₁ hrun => exact .cons ⟨_, _, fun _ => by decide, hhandled, hrun⟩ (ih s₁)
      next => exact .nil s
    next => exact .nil s

/-! ## The answers -/

/-- The tree holds the table, each key as its number. -/
def Tabled (K : KeyType machine κ) (s : State 64) (es : List (κ × Ptr 64)) : Prop := Stores K.geo s (K.numbered es)

namespace Tabled

omit [DecidableEq κ] in
theorem start (h₀ : Blank s₀) : Tabled K s₀ [] := Stores.start h₀

omit [DecidableEq κ] in
/-- The table does not change with what lies behind the objects. -/
theorem amid {behind : Ptr 64 → Words 64} (h : Tabled K s es) (hflags : ∀ x, behind x 0 ≠ 1#64) :
    Tabled K (s.amid K.geo behind) es := by
  obtain ⟨⟨G, R, hwarm⟩, hperm⟩ := h
  have hwarm' := hwarm.amid hflags
  exact ⟨⟨G, R, hwarm'⟩, hwarm.tree.entries_congr hwarm'.tree ▸ hperm⟩

omit [DecidableEq κ] in
theorem absent_iff (h : Tabled K s es) (key : κ) (stack : Words 64) :
    Absent K.geo s (localWords (K.words key) stack) ↔ ∀ e ∈ es, e.1 ≠ key := by
  rw [absent_of_perm h.2, K.keyNum_words]
  exact KeyType.absent_numbered

omit [DecidableEq κ] in
theorem exists_stored (h : Tabled K s es)
    (hstored : ¬Absent K.geo s (localWords (K.words key) stack)) : ∃ val, (key, val) ∈ es := by
  by_contra hnone
  exact hstored ((h.absent_iff key stack).mpr fun e he heq => hnone ⟨e.2, heq ▸ he⟩)

omit [DecidableEq κ] in
theorem keys_nodup (h : Tabled K s es) : (es.map Prod.fst).Nodup := by
  obtain ⟨⟨G, R, hwarm⟩, hperm⟩ := h
  have hdistinct : ((CachedBTree.entries K.geo s).map Prod.fst).Nodup :=
    List.pairwise_map.mpr (hwarm.tree.entries_descending.imp fun hlt => hlt.ne')
  have hnumbers : ((K.numbered es).map Prod.fst).Nodup := (hperm.map Prod.fst).nodup_iff.mp hdistinct
  rw [KeyType.numbered, List.map_map] at hnumbers
  refine List.Nodup.of_map K.num ?_
  rwa [List.map_map]

omit [DecidableEq κ] in
theorem insert_answer (h : Tabled K s es) (hrun : K.insert key val stack s = .ok (err, s')) :
    (∀ e ∈ es, e.1 ≠ key) ∧ (err = 0 ∨ err = -ENOMEM) := by
  obtain ⟨⟨G, R, hwarm⟩, -⟩ := id h
  obtain ⟨-, habsent⟩ := hwarm.tree.absent_of_ok hrun
  obtain ⟨G', R', -, hcase⟩ := hwarm.insert_entries K.four_le hrun
  exact ⟨(h.absent_iff key stack).mp (hwarm.tree.absent.mpr habsent), hcase.symm.imp And.left And.left⟩

omit [DecidableEq κ] in
theorem insert_stored (h : Tabled K s es) (hval : val ≠ 0#64) (hstored : (key, ret) ∈ es)
    (stack : Words 64) : K.insert key val stack s = .error (.bug .insertDup) := by
  obtain ⟨⟨G, R, hwarm⟩, hperm⟩ := h
  obtain ⟨x, hx, hmem⟩ := hwarm.tree.mem_entries.mp (hperm.mem_iff.mpr (KeyType.mem_numbered.mpr hstored))
  rw [← K.keyNum_words key stack] at hmem
  exact cbtreeInsert_dup hwarm.tree hval ⟨x, hx, hmem⟩

omit [DecidableEq κ] in
theorem update_answer (h : Tabled K s es) (hval : val ≠ 0#64)
    (hreach : updateReaches K.geo (localWords (K.words key) stack) s = true)
    (hrun : K.update key val stack s = .ok (err, s')) :
    err = 0 ∧ (∃ old, (key, old) ∈ es) ∨ err = -ENOENT ∧ ∀ e ∈ es, e.1 ≠ key := by
  obtain ⟨⟨G, R, hwarm⟩, -⟩ := id h
  by_cases habsent : Absent K.geo s (localWords (K.words key) stack)
  · rcases hwarm.update_absent val habsent with ⟨-, s₁, R', hok, -⟩ | ⟨hno, -⟩
    · obtain ⟨rfl, -⟩ := Prod.mk.inj (Except.ok.inj (hok.symm.trans hrun))
      exact .inr ⟨rfl, (h.absent_iff key stack).mp habsent⟩
    · rw [hno] at hreach
      cases hreach
  · rcases hwarm.update_stored hval habsent with ⟨-, s₁, G', R', hok, -⟩ | ⟨hno, -⟩
    · obtain ⟨rfl, -⟩ := Prod.mk.inj (Except.ok.inj (hok.symm.trans hrun))
      exact .inl ⟨rfl, h.exists_stored habsent⟩
    · rw [hno] at hreach
      cases hreach

omit [DecidableEq κ] in
theorem remove_answer (h : Tabled K s es)
    (hlooks : Absent K.geo s (localWords (K.words key) stack) →
      looksStored K.geo (localWords (K.words key) stack) s = false)
    (hrun : K.remove key stack s = .ok (ret, s')) : (key, ret) ∈ es ∨ ret = 0#64 ∧ ∀ e ∈ es, e.1 ≠ key := by
  obtain ⟨⟨G, R, hwarm⟩, hperm⟩ := id h
  by_cases habsent : Absent K.geo s (localWords (K.words key) stack)
  · obtain ⟨s₁, hok, -⟩ := (hwarm.remove_absent K.four_le habsent).mpr (hlooks habsent)
    obtain ⟨rfl, -⟩ := Prod.mk.inj (Except.ok.inj (hok.symm.trans hrun))
    exact .inr ⟨rfl, (h.absent_iff key stack).mp habsent⟩
  · obtain ⟨hmem, -⟩ := hwarm.remove_stored K.four_le habsent hrun
    rw [K.keyNum_words] at hmem
    exact .inl (KeyType.mem_numbered.mp (hperm.mem_iff.mp hmem))

end Tabled

/-! ## All runs -/

/-- Every call that returns is answered by the table, and the tree holds what it leaves there. -/
theorem typedStep_simulates : Simulates (TypedStep K) TableStep (Tabled K) := by
  rintro s ⟨call, answer⟩ s' es ⟨stack, behind, hflags, hhandled, hrun⟩ hbefore
  have h := hbefore.amid hflags
  generalize s.amid K.geo behind = s₁ at h hhandled hrun
  cases call with
  | insert key val =>
    obtain ⟨⟨err, s₂⟩, hcall, heq⟩ := bind_eq_ok.mp hrun
    obtain ⟨rfl, rfl⟩ := Prod.mk.inj (Except.ok.inj heq)
    obtain ⟨habsent, herr⟩ := h.insert_answer hcall
    refine ⟨_, ⟨⟨habsent, herr⟩, rfl⟩, ?_⟩
    rcases herr with rfl | rfl
    · have hnext := Stores.inserted K.four_le h hcall
      rwa [K.keyNum_words] at hnext
    · exact Stores.refused K.four_le h hcall
  | lookup key =>
    obtain ⟨⟨ret, s₂⟩, hcall, heq⟩ := bind_eq_ok.mp hrun
    obtain ⟨rfl, rfl⟩ := Prod.mk.inj (Except.ok.inj heq)
    exact ⟨es, ⟨trivial, rfl⟩, Stores.lookup h hcall⟩
  | update key val =>
    obtain ⟨⟨err, s₂⟩, hcall, heq⟩ := bind_eq_ok.mp hrun
    obtain ⟨rfl, rfl⟩ := Prod.mk.inj (Except.ok.inj heq)
    refine ⟨_, ⟨h.update_answer hhandled.1 hhandled.2 hcall, rfl⟩, ?_⟩
    have hnext := Stores.update h hhandled.1 hhandled.2 hcall
    rwa [K.keyNum_words, KeyType.withValue_numbered] at hnext
  | remove key =>
    obtain ⟨⟨ret, s₂⟩, hcall, heq⟩ := bind_eq_ok.mp hrun
    obtain ⟨rfl, rfl⟩ := Prod.mk.inj (Except.ok.inj heq)
    refine ⟨_, ⟨h.remove_answer hhandled hcall, rfl⟩, ?_⟩
    have hnext := Stores.remove K.four_le h (fun habsent => hhandled ((absent_of_perm h.2).mpr habsent)) hcall
    rwa [K.keyNum_words, KeyType.filter_numbered] at hnext

section Runs

variable {log : List (TableCall κ × Answer 64)}

theorem steps_tableStep (h₀ : Blank s₀) (h : Steps (TypedStep K) s₀ log s) :
    Steps TableStep [] log (table log) ∧ Tabled K s (table log) := by
  obtain ⟨es, hsteps, hes⟩ := typedStep_simulates.steps h (Tabled.start h₀)
  obtain rfl : es = table log := steps_table hsteps
  exact ⟨hsteps, hes⟩

/-- All that is seen of a run of the functions is a run of the table, each key of which has one value.  The tree
holds the table afterwards, and the insertion of a key that is in the table is stopped. -/
theorem typedCalls_refine (h₀ : Blank s₀) (h : Steps (TypedStep K) s₀ log s) :
    Steps TableStep [] log (table log) ∧ ((table log).map Prod.fst).Nodup ∧
      (CachedBTree.entries K.geo s).Perm (K.numbered (table log)) ∧
      ∀ key val old stack, val ≠ 0#64 → (key, old) ∈ table log →
        K.insert key val stack s = .error (.bug .insertDup) := by
  obtain ⟨hsteps, htabled⟩ := steps_tableStep h₀ h
  exact ⟨hsteps, htabled.keys_nodup, htabled.2,
    fun key val old stack hval hstored => htabled.insert_stored hval hstored stack⟩

end Runs

/-- Keys 1 to 8 come into two leaves.  The cache of the root leads the update of key 2 to the leaf of key 3. -/
def typedCalls : List (TableCall (BitVec 64)) :=
  (List.range 8).map (fun i => .insert (BitVec.ofNat 64 (i + 1)) (BitVec.ofNat 64 (0x71 + i))) ++
    [.lookup 3#64, .update 2#64 0x99#64, .remove 5#64, .lookup 7#64]

def typedRun : List (TableCall (BitVec 64) × Answer 64) × State 64 :=
  typedAll Machine64.x86_64.keys64 typedCalls (arena 4)

theorem typedRun_steps : Steps (TypedStep Machine64.x86_64.keys64) (arena 4) typedRun.1 typedRun.2 :=
  steps_typedAll _ _ _

/-- All twelve calls return, and the last lookup returns the leaf of key 3 for key 7. -/
theorem typedCalls_refine_cached :
    typedRun.1.drop 8 = [(.lookup 3#64, .value 0x1000#64), (.update 2#64 0x99#64, .code 0),
      (.remove 5#64, .value 0x75#64), (.lookup 7#64, .value 0x1000#64)] ∧
    (CachedBTree.entries Machine64.x86_64.keys64.geo typedRun.2).Perm
      [(8, 0x78#64), (7, 0x77#64), (6, 0x76#64), (4, 0x74#64), (3, 0x73#64), (2, 0x99#64), (1, 0x71#64)] := by
  obtain ⟨-, -, hperm, -⟩ := typedCalls_refine (arena_blank 4) typedRun_steps
  have htable : Machine64.x86_64.keys64.numbered (table typedRun.1) =
      [(8, 0x78#64), (7, 0x77#64), (6, 0x76#64), (4, 0x74#64), (3, 0x73#64), (2, 0x99#64), (1, 0x71#64)] := by
    decide +kernel
  rw [htable] at hperm
  exact ⟨by decide +kernel, hperm⟩

end CachedBTree
