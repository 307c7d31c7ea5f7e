import CachedBTree.Slots
import Mathlib.Data.List.Range
import Mathlib.Data.List.Nodup
import Mathlib.Data.List.Flatten

/-! # The layout of a node

The three geometries as the source computes them from the cache line size and the word
size, and the word offsets that the code uses inside a node of `NODESIZE` bytes.  No two
uses of a node share a word, but the three cache words are set aside as three bytes, and
their offset is counted as if the values took as many words as the keys: the deleted
flag is never inside the node. -/

namespace CachedBTree

/-- What the build depends on: `L1_CACHE_BYTES` and `sizeof(long)`. -/
structure Machine where
  l1CacheBytes : Nat
  sizeofLong : Nat
  sizeofLong_eq : sizeofLong = 4 ∨ sizeofLong = 8
  l1_dvd : sizeofLong ∣ l1CacheBytes

namespace Machine

variable (machine : Machine)

def NODESIZE : Nat := max machine.l1CacheBytes 128

def CACHE_LENTH : Nat := 3

/-- `64 / BITS_PER_LONG` -/
def LONG_PER_U64 : Nat := 64 / (8 * machine.sizeofLong)

/-- `(NODESIZE - CACHE_LENTH) / sizeof(long)` -/
def longs : Nat := (machine.NODESIZE - CACHE_LENTH) / machine.sizeofLong

theorem longPerU64_pos : 0 < machine.LONG_PER_U64 := by
  unfold LONG_PER_U64
  rcases machine.sizeofLong_eq with h | h <;> simp [h]

def cbtree_geo32 : Geo where
  keylen := 1
  noPairs := machine.longs / 2
  noLongs := machine.longs / 2
  keylen_pos := Nat.one_pos
  noLongs_eq := (Nat.one_mul _).symm

def cbtree_geo64 : Geo where
  keylen := machine.LONG_PER_U64
  noPairs := machine.longs / (1 + machine.LONG_PER_U64)
  noLongs := machine.LONG_PER_U64 * (machine.longs / (1 + machine.LONG_PER_U64))
  keylen_pos := machine.longPerU64_pos
  noLongs_eq := rfl

def cbtree_geo128 : Geo where
  keylen := 2 * machine.LONG_PER_U64
  noPairs := machine.longs / (1 + 2 * machine.LONG_PER_U64)
  noLongs := 2 * machine.LONG_PER_U64 * (machine.longs / (1 + 2 * machine.LONG_PER_U64))
  keylen_pos := by have := machine.longPerU64_pos; omega
  noLongs_eq := rfl

def geometries : List Geo := [machine.cbtree_geo32, machine.cbtree_geo64, machine.cbtree_geo128]

end Machine

/-- The word offsets used inside a node: the words of the keys, the values, the queue pointer, the
reference count and the deleted flag. -/
def Geo.offsets (geo : Geo) : List Nat :=
  ((List.range geo.noPairs).flatMap fun n => (List.range geo.keylen).map fun j => n * geo.keylen + j) ++
    (List.range geo.noPairs).map (fun n => geo.noLongs + n) ++
    [geo.arrLen, geo.arrLen + 1, geo.arrLen + 2]

/-- The offsets are distinct and inside the node. -/
def LayoutOk (machine : Machine) (geo : Geo) : Prop :=
  geo.offsets.Nodup ∧ ∀ o ∈ geo.offsets, o < machine.NODESIZE / machine.sizeofLong

/-! ## The offsets are distinct -/

theorem Geo.key_offset_lt {geo : Geo} {o : Nat}
    (ho : o ∈ (List.range geo.noPairs).flatMap fun n =>
      (List.range geo.keylen).map fun j => n * geo.keylen + j) : o < geo.noLongs := by
  obtain ⟨n, hn, ho⟩ := List.mem_flatMap.mp ho
  obtain ⟨j, hj, rfl⟩ := List.mem_map.mp ho
  exact key_word_lt (List.mem_range.mp hn) (List.mem_range.mp hj)

theorem Geo.offsets_nodup (geo : Geo) : geo.offsets.Nodup := by
  have hkeys : ((List.range geo.noPairs).flatMap fun n =>
      (List.range geo.keylen).map fun j => n * geo.keylen + j).Nodup := by
    rw [List.nodup_flatMap]
    refine ⟨fun n _ => List.nodup_range.map fun a b hab => by simpa using hab, ?_⟩
    refine List.nodup_range.imp_of_mem fun {n m} _ _ hne x hx hx' => ?_
    obtain ⟨i, hi, rfl⟩ := List.mem_map.mp hx
    obtain ⟨j, hj, heq⟩ := List.mem_map.mp hx'
    exact hne (key_word_eq (List.mem_range.mp hj) (List.mem_range.mp hi) heq).1.symm
  have hvalues : ((List.range geo.noPairs).map fun n => geo.noLongs + n).Nodup :=
    List.nodup_range.map fun a b hab => by simpa using hab
  have harr : geo.noLongs ≤ geo.arrLen := Nat.le_add_left _ _
  refine List.nodup_append.mpr ⟨List.nodup_append.mpr ⟨hkeys, hvalues, ?_⟩, by simp, ?_⟩
  · rintro a ha b hb rfl
    have := Geo.key_offset_lt ha
    obtain ⟨n, -, rfl⟩ := List.mem_map.mp hb
    omega
  · rintro a ha b hb rfl
    have hcache : geo.arrLen ≤ a := by
      simp only [List.mem_cons, List.not_mem_nil, or_false] at hb
      omega
    cases List.mem_append.mp ha with
    | inl hmem =>
      have := Geo.key_offset_lt hmem
      omega
    | inr hmem =>
      obtain ⟨n, hn, rfl⟩ := List.mem_map.mp hmem
      have := value_word_lt (List.mem_range.mp hn)
      omega

/-! ## The deleted flag is outside -/

namespace Machine

variable (machine : Machine)

/-- Dividing the bytes without the three cache bytes drops exactly one word. -/
theorem longs_eq : machine.longs + 1 = machine.NODESIZE / machine.sizeofLong ∧
    (machine.LONG_PER_U64 = 1 ∧ 15 ≤ machine.longs ∨
      machine.LONG_PER_U64 = 2 ∧ 31 ≤ machine.longs) := by
  obtain ⟨q, hq⟩ : machine.sizeofLong ∣ machine.NODESIZE := by
    unfold NODESIZE
    cases le_total machine.l1CacheBytes 128 with
    | inl hle =>
      rw [max_eq_right hle]
      rcases machine.sizeofLong_eq with h | h <;> rw [h] <;> decide
    | inr hle =>
      rw [max_eq_left hle]
      exact machine.l1_dvd
  have hsize : 128 ≤ machine.NODESIZE := le_max_right _ _
  have hbytes : CACHE_LENTH = 3 := rfl
  unfold longs LONG_PER_U64
  rw [hbytes]
  rcases machine.sizeofLong_eq with h | h <;> rw [h] at hq ⊢ <;> omega

/-- Each geometry has room for five pairs. -/
theorem geometries_noPairs {geo : Geo} (hgeo : geo ∈ machine.geometries) : 5 ≤ geo.noPairs := by
  obtain ⟨-, hlongs⟩ := machine.longs_eq
  simp only [geometries, List.mem_cons, List.not_mem_nil, or_false] at hgeo
  rcases hgeo with rfl | rfl | rfl
  · simp only [cbtree_geo32]
    omega
  · simp only [cbtree_geo64]
    rcases hlongs with ⟨h, hge⟩ | ⟨h, hge⟩ <;> rw [h] <;> omega
  · simp only [cbtree_geo128]
    rcases hlongs with ⟨h, hge⟩ | ⟨h, hge⟩ <;> rw [h] <;> omega

/-- The deleted flag lies behind the last word of the node. -/
theorem deleted_outside {geo : Geo} (hgeo : geo ∈ machine.geometries) :
    machine.NODESIZE / machine.sizeofLong ≤ geo.arrLen + 2 := by
  obtain ⟨hsize, hlongs⟩ := machine.longs_eq
  simp only [geometries, List.mem_cons, List.not_mem_nil, or_false] at hgeo
  rw [← hsize]
  rcases hgeo with rfl | rfl | rfl
  · simp only [Geo.arrLen, cbtree_geo32]
    omega
  · simp only [Geo.arrLen, cbtree_geo64]
    rcases hlongs with ⟨h, hge⟩ | ⟨h, hge⟩ <;> rw [h] <;> omega
  · simp only [Geo.arrLen, cbtree_geo128]
    rcases hlongs with ⟨h, hge⟩ | ⟨h, hge⟩ <;> rw [h] <;> omega

end Machine

/-- No geometry on any machine keeps inside its node. -/
theorem layout_never_ok (machine : Machine) {geo : Geo} (hgeo : geo ∈ machine.geometries) :
    ¬LayoutOk machine geo := by
  rintro ⟨-, hinside⟩
  have := hinside (geo.arrLen + 2) (by simp [Geo.offsets])
  have := machine.deleted_outside hgeo
  omega

/-- 64-bit words and cache lines of 64 bytes. -/
def Machine.x86_64 : Machine := ⟨64, 8, .inr rfl, by decide⟩

theorem layout_never_ok_x86_64 : ¬LayoutOk Machine.x86_64 Machine.x86_64.cbtree_geo64 :=
  layout_never_ok Machine.x86_64 (by simp [Machine.geometries])

/-- There the deleted flag is word 16 of a node of 16 words. -/
theorem layout_x86_64_not_ok : ¬∀ machine : Machine, ∀ geo ∈ machine.geometries, LayoutOk machine geo := by
  intro h
  have hok := (h Machine.x86_64 Machine.x86_64.cbtree_geo64 (by simp [Machine.geometries])).2
  exact absurd (hok 16 (by decide)) (by decide)

end CachedBTree
