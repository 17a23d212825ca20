import Mathlib

/-!
# Storage for objects under construction

A heap gives out addresses.  The storage at an address is empty until the
object there has been constructed, and stays empty for good when its
construction fails.  Addresses are never given out twice, so an old address
never comes to mean a new object.

* `Heap.alloc`, `Heap.store`, `Heap.update` — take storage, put a constructed
  object into it, change an object that is there.
* `Heap.get?_alloc`, `Heap.get?_store`, `Heap.get?_update` — what each does to
  what is found at every address.
* `Heap.get?_store_of_some` — storing an object keeps all others.
-/

namespace Transition

/-- The storage of objects of one type, by address. -/
structure Heap (α : Type) where
  /-- What is at each address given out so far. -/
  slots : List (Option α) := []
  deriving DecidableEq, Repr

namespace Heap

variable {α : Type} {h : Heap α} {p q : Nat} {a b : α}

/-- The number of addresses given out; also the next address. -/
def size (h : Heap α) : Nat := h.slots.length

/-- The object at an address. -/
def get? (h : Heap α) (p : Nat) : Option α := h.slots[p]?.join

/-- Take storage; its address is `h.size`. -/
def alloc (h : Heap α) : Heap α := ⟨h.slots ++ [none]⟩

/-- An object has been constructed at an address. -/
def store (h : Heap α) (p : Nat) (a : α) : Heap α := ⟨h.slots.set p (some a)⟩

/-- Change the object at an address, if there is one. -/
def update (h : Heap α) (p : Nat) (f : α → α) : Heap α := ⟨h.slots.modify p (Option.map f)⟩

@[simp] theorem size_alloc : h.alloc.size = h.size + 1 := by
  simp [size, alloc]

@[simp] theorem size_store : (h.store p a).size = h.size := by
  simp [size, store]

@[simp] theorem size_update {f : α → α} : (h.update p f).size = h.size := by
  simp [size, update]

theorem get?_size : h.get? h.size = none := by
  rw [get?, size, List.getElem?_eq_none (Nat.le_refl _)]
  rfl

@[simp] theorem get?_alloc : h.alloc.get? p = h.get? p := by
  rw [get?, get?, alloc, List.getElem?_append]
  split
  · rfl
  · next hge =>
      rw [List.getElem?_eq_none (l := h.slots) (Nat.le_of_not_lt hge), List.getElem?_singleton]
      split <;> rfl

theorem get?_store (hp : p < h.size) :
    (h.store p a).get? q = if q = p then some a else h.get? q := by
  rw [get?, get?, store, List.getElem?_set]
  by_cases hq : p = q
  · subst hq
    rw [if_pos rfl, if_pos (show p < h.slots.length from hp), if_pos rfl]
    rfl
  · rw [if_neg hq, if_neg (Ne.symm hq)]

/-- What is found after a construction is the new object, or was there. -/
theorem get?_store_cases (hq : (h.store p a).get? q = some b) : b = a ∨ h.get? q = some b := by
  by_cases hp : p < h.size
  · rw [get?_store hp] at hq
    split at hq
    · exact .inl (Option.some.inj hq).symm
    · exact .inr hq
  · rw [store, List.set_eq_of_length_le (Nat.le_of_not_lt hp)] at hq
    exact .inr hq

/-- Constructing an object keeps those that are there. -/
theorem get?_store_of_some (hp : p < h.size) (hnone : h.get? p = none) (hq : h.get? q = some b) :
    (h.store p a).get? q = some b := by
  rw [get?_store hp, if_neg ?_]
  · exact hq
  · rintro rfl
    rw [hnone] at hq
    cases hq

theorem get?_store_self (hp : p < h.size) : (h.store p a).get? p = some a := by
  rw [get?_store hp, if_pos rfl]

theorem get?_update {f : α → α} :
    (h.update p f).get? q = if q = p then (h.get? q).map f else h.get? q := by
  rw [get?, get?, update, List.getElem?_modify]
  by_cases hq : p = q
  · subst hq
    cases h.slots[p]? with
    | none => simp
    | some o => simp
  · simp [hq, Ne.symm hq]

end Heap

end Transition
