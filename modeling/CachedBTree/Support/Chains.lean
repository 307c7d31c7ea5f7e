import Mathlib.Order.Lattice
import Mathlib.Data.List.Pairwise
import Mathlib.Data.List.Basic
import Mathlib.Data.List.Nodup
import Mathlib.Data.List.Perm.Basic
import Mathlib.Order.Basic

/-! # Descending key-value lists

A list of pairs whose keys descend from below `hi` and stay at or above `lo`, where
every value is related by `R` to its key and to the key before it (`hi` for the first
pair).  This is the shape of one node of a search tree: `R hi k v` says what the
subtree `v`, which answers for the keys from `k` up to `hi`, has to satisfy. -/

namespace CachedBTree.Support

variable {κ ν : Type*}

/-- The key of the last pair, `hi` for the empty list. -/
def endKey : κ → List (κ × ν) → κ
  | hi, [] => hi
  | _, (k, _) :: l => endKey k l

@[simp] theorem endKey_nil (hi : κ) : endKey hi ([] : List (κ × ν)) = hi := rfl

@[simp] theorem endKey_cons (hi : κ) (e : κ × ν) (l : List (κ × ν)) :
    endKey hi (e :: l) = endKey e.1 l := rfl

theorem endKey_append (l₂ : List (κ × ν)) : ∀ (hi : κ) (l₁ : List (κ × ν)),
    endKey hi (l₁ ++ l₂) = endKey (endKey hi l₁) l₂
  | _, [] => rfl
  | _, e :: l₁ => endKey_append l₂ e.1 l₁

@[simp] theorem endKey_snoc (hi : κ) (l : List (κ × ν)) (e : κ × ν) :
    endKey hi (l ++ [e]) = e.1 := by
  rw [endKey_append]
  rfl

variable [LinearOrder κ]

theorem lt_endKey {hi k : κ} {l : List (κ × ν)} (hhi : k < hi) (hl : ∀ e ∈ l, k < e.1) :
    k < endKey hi l := by
  induction l generalizing hi with
  | nil => exact hhi
  | cons e l ih => exact ih (hl e (by simp)) fun a ha => hl a (by simp [ha])

def Chain (R : κ → κ → ν → Prop) (lo : κ) : κ → List (κ × ν) → Prop
  | _, [] => True
  | hi, (k, v) :: l => lo ≤ k ∧ k < hi ∧ R hi k v ∧ Chain R lo k l

section

variable {R R' : κ → κ → ν → Prop} {lo lo' hi hi' k : κ} {v : ν} {l l₁ l₂ : List (κ × ν)}

@[simp] theorem chain_nil : Chain R lo hi ([] : List (κ × ν)) := trivial

@[simp] theorem chain_cons :
    Chain R lo hi ((k, v) :: l) ↔ lo ≤ k ∧ k < hi ∧ R hi k v ∧ Chain R lo k l := Iff.rfl

theorem chain_append :
    Chain R lo hi (l₁ ++ l₂) ↔ Chain R lo hi l₁ ∧ Chain R lo (endKey hi l₁) l₂ := by
  induction l₁ generalizing hi with
  | nil => simp
  | cons e l₁ ih =>
    obtain ⟨k, v⟩ := e
    simp [ih, and_assoc]

theorem Chain.imp (h : Chain R lo hi l) (hlo : lo' ≤ lo)
    (hR : ∀ hi k v, (k, v) ∈ l → R hi k v → R' hi k v) : Chain R' lo' hi l := by
  induction l generalizing hi with
  | nil => trivial
  | cons e l ih =>
    obtain ⟨k, v⟩ := e
    obtain ⟨hk, hkhi, hv, htail⟩ := h
    exact ⟨hlo.trans hk, hkhi, hR _ _ _ (by simp) hv,
      ih htail fun hi k v hmem => hR hi k v (by simp [hmem])⟩

theorem Chain.mono_lo (h : Chain R lo hi l) (hlo : lo' ≤ lo) : Chain R lo' hi l :=
  h.imp hlo fun _ _ _ _ hR => hR

/-- Any lower bound of the keys will do. -/
theorem Chain.set_lo (h : Chain R lo hi l) (hlo : ∀ e ∈ l, lo' ≤ e.1) : Chain R lo' hi l := by
  induction l generalizing hi with
  | nil => trivial
  | cons e l ih =>
    obtain ⟨k, v⟩ := e
    exact ⟨hlo (k, v) (by simp), h.2.1, h.2.2.1, ih h.2.2.2 fun a ha => hlo a (by simp [ha])⟩

/-- A larger upper bound only concerns the first pair. -/
theorem Chain.mono_hi (h : Chain R lo hi l) (hhi : hi ≤ hi')
    (hR : ∀ k v, R hi k v → R hi' k v) : Chain R lo hi' l := by
  cases l with
  | nil => trivial
  | cons e l =>
    obtain ⟨k, v⟩ := e
    exact ⟨h.1, h.2.1.trans_le hhi, hR _ _ h.2.2.1, h.2.2.2⟩

theorem Chain.mem (h : Chain R lo hi l) {e : κ × ν} (he : e ∈ l) : lo ≤ e.1 ∧ e.1 < hi := by
  induction l generalizing hi with
  | nil => simp at he
  | cons a l ih =>
    obtain ⟨k, v⟩ := a
    obtain ⟨hk, hkhi, _, htail⟩ := h
    rcases List.mem_cons.mp he with rfl | hmem
    · exact ⟨hk, hkhi⟩
    · exact ⟨(ih htail hmem).1, (ih htail hmem).2.trans hkhi⟩

theorem Chain.endKey_le (h : Chain R lo hi l) : endKey hi l ≤ hi := by
  induction l generalizing hi with
  | nil => exact le_rfl
  | cons e l ih => exact (ih h.2.2.2).trans h.2.1.le

theorem Chain.le_endKey (h : Chain R lo hi l) (hlo : lo ≤ hi) : lo ≤ endKey hi l := by
  induction l generalizing hi with
  | nil => exact hlo
  | cons e l ih => exact ih h.2.2.2 h.1

theorem Chain.endKey_le_of_mem (h : Chain R lo hi l) {e : κ × ν} (he : e ∈ l) :
    endKey hi l ≤ e.1 := by
  induction l generalizing hi with
  | nil => simp at he
  | cons a l ih =>
    rcases List.mem_cons.mp he with rfl | hmem
    · exact h.2.2.2.endKey_le
    · exact ih h.2.2.2 hmem

theorem Chain.raise_lo (h : Chain R lo hi l) : Chain R (endKey hi l) hi l := by
  induction l generalizing hi with
  | nil => trivial
  | cons e l ih =>
    obtain ⟨k, v⟩ := e
    exact ⟨h.2.2.2.endKey_le, h.2.1, h.2.2.1, ih h.2.2.2⟩

/-- Without one of its pairs, when a larger upper bound does no harm. -/
theorem Chain.erase (h : Chain R lo hi (l₁ ++ (k, v) :: l₂))
    (hR : ∀ hi hi' k v, hi ≤ hi' → R hi k v → R hi' k v) : Chain R lo hi (l₁ ++ l₂) := by
  obtain ⟨h₁, -, hk, -, h₂⟩ := chain_append.mp h
  exact chain_append.mpr ⟨h₁, h₂.mono_hi hk.le fun k' v' => hR _ _ k' v' hk.le⟩

/-- What the relation says of a pair, with the key before it as its upper bound. -/
theorem Chain.rel_of_append (h : Chain R lo hi (l₁ ++ (k, v) :: l₂)) :
    R (endKey hi l₁) k v ∧ k < endKey hi l₁ :=
  ⟨(chain_append.mp h).2.2.2.1, (chain_append.mp h).2.2.1⟩

theorem Chain.rel_of_mem (h : Chain R lo hi l) (he : (k, v) ∈ l) :
    ∃ hi', hi' ≤ hi ∧ k < hi' ∧ R hi' k v := by
  obtain ⟨l₁, l₂, rfl⟩ := List.append_of_mem he
  exact ⟨_, (chain_append.mp h).1.endKey_le, h.rel_of_append.2, h.rel_of_append.1⟩

/-- The keys descend strictly. -/
def Descending (l : List (κ × ν)) : Prop := l.Pairwise fun a b => b.1 < a.1

theorem Chain.descending (h : Chain R lo hi l) : Descending l := by
  induction l generalizing hi with
  | nil => exact List.Pairwise.nil
  | cons e l ih => exact List.Pairwise.cons (fun a ha => (h.2.2.2.mem ha).2) (ih h.2.2.2)

end

section

variable {l l₁ l₂ : List (κ × ν)} {k : κ} {v v' : ν}

theorem Descending.nodup (h : Descending l) : l.Nodup :=
  h.imp fun hlt heq => (ne_of_gt hlt) (congrArg Prod.fst heq)

theorem Descending.unique (h : Descending l) (hv : (k, v) ∈ l) (hv' : (k, v') ∈ l) : v = v' := by
  induction l with
  | nil => simp at hv
  | cons e l ih =>
    obtain ⟨hhead, htail⟩ := List.pairwise_cons.mp h
    rcases List.mem_cons.mp hv with rfl | hmem <;> rcases List.mem_cons.mp hv' with heq | hmem'
    · exact (Prod.mk.inj heq).2.symm
    · exact absurd (hhead _ hmem') (lt_irrefl k)
    · subst heq; exact absurd (hhead _ hmem) (lt_irrefl k)
    · exact ih htail hmem hmem'

/-- Two descending lists with the same pairs are the same list. -/
theorem Descending.ext (h₁ : Descending l₁) (h₂ : Descending l₂)
    (hmem : ∀ e, e ∈ l₁ ↔ e ∈ l₂) : l₁ = l₂ :=
  ((List.perm_ext_iff_of_nodup h₁.nodup h₂.nodup).mpr hmem).eq_of_pairwise
    (fun _ _ _ _ hab hba => absurd (hab.trans hba) (lt_irrefl _)) h₁ h₂

/-- Any key cuts a descending list: the larger keys come first. -/
theorem Descending.cut (h : Descending l) (k : κ) :
    ∃ l₁ l₂, l = l₁ ++ l₂ ∧ (∀ e ∈ l₁, k < e.1) ∧ (∀ e ∈ l₂, e.1 ≤ k) := by
  induction l with
  | nil => exact ⟨[], [], rfl, by simp, by simp⟩
  | cons e l ih =>
    obtain ⟨hhead, htail⟩ := List.pairwise_cons.mp h
    cases lt_or_ge k e.1 with
    | inl hlt =>
      obtain ⟨l₁, l₂, rfl, h₁, h₂⟩ := ih htail
      exact ⟨e :: l₁, l₂, rfl, by simpa [hlt] using h₁, h₂⟩
    | inr hge =>
      refine ⟨[], e :: l, rfl, by simp, ?_⟩
      intro a ha
      rcases List.mem_cons.mp ha with rfl | hmem
      · exact hge
      · exact (hhead a hmem).le.trans hge

/-- Below a number there is no room for more keys than it says. -/
theorem Descending.length_le : ∀ {l : List (Nat × ν)} {e : Nat × ν}, Descending (e :: l) → l.length ≤ e.1
  | [], _, _ => Nat.zero_le _
  | e' :: l, e, h => by
    have hle := Descending.length_le (List.pairwise_cons.mp h).2
    have hlt := (List.pairwise_cons.mp h).1 e' List.mem_cons_self
    rw [List.length_cons]
    omega

/-- A pair with a larger key stands before. -/
theorem Descending.mem_left {e a : κ × ν} (h : Descending (l₁ ++ e :: l₂))
    (ha : a ∈ l₁ ++ e :: l₂) (hlt : e.1 < a.1) : a ∈ l₁ := by
  obtain ⟨_, htail, _⟩ := List.pairwise_append.mp h
  cases List.mem_append.mp ha with
  | inl hmem =>
    exact hmem
  | inr hmem =>
    rcases List.mem_cons.mp hmem with rfl | hmem
    · exact absurd hlt (lt_irrefl _)
    · exact absurd (hlt.trans ((List.pairwise_cons.mp htail).1 a hmem)) (lt_irrefl _)

theorem Descending.of_append (h : Descending (l₁ ++ l₂)) :
    Descending l₁ ∧ Descending l₂ ∧ ∀ a ∈ l₁, ∀ b ∈ l₂, b.1 < a.1 :=
  List.pairwise_append.mp h

/-- Without one pair the others are left, which have other keys. -/
theorem Descending.mem_without {a : κ × ν} (h : Descending (l₁ ++ (k, v) :: l₂)) :
    a ∈ l₁ ++ l₂ ↔ a ∈ l₁ ++ (k, v) :: l₂ ∧ a.1 ≠ k := by
  obtain ⟨-, htail, hcross⟩ := h.of_append
  have hafter := (List.pairwise_cons.mp htail).1
  simp only [List.mem_append, List.mem_cons]
  constructor
  · rintro (hmem | hmem)
    · exact ⟨.inl hmem, (hcross a hmem (k, v) (by simp)).ne'⟩
    · exact ⟨.inr (.inr hmem), (hafter a hmem).ne⟩
  · rintro ⟨hmem | rfl | hmem, hne⟩
    · exact .inl hmem
    · exact absurd rfl hne
    · exact .inr hmem

end

end CachedBTree.Support
