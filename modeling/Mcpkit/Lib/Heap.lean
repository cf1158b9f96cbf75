import Mathlib.Data.Set.Basic

/-!
# Heaps

A heap maps addresses to live cells.  Addresses are given out in increasing
order and never a second time, so a cell that was freed stays dead: a pointer to
it is dangling for good.
-/

/-- Cells by address; no cell has been allocated from `next` on. -/
structure Heap (α : Type*) where
  cells : Nat → Option α
  next : Nat
  fresh : ∀ a, next ≤ a → cells a = none

namespace Heap

open Function Nat

variable {α : Type*} (h : Heap α) {a b : Nat} {x y : α}

def empty : Heap α := ⟨fun _ => none, 0, fun _ _ => rfl⟩

theorem lt_next {h : Heap α} (ha : h.cells a = some x) : a < h.next := by
  by_contra hge
  rw [h.fresh a (not_lt.mp hge)] at ha
  cases ha

def alloc (x : α) : Nat × Heap α :=
  (h.next, {
    cells := Function.update h.cells h.next (some x)
    next := h.next + 1
    fresh := by
      intro a ha
      rw [update_of_ne (by omega)]
      exact h.fresh a (by omega) })

def free (a : Nat) : Heap α where
  cells := Function.update h.cells a none
  next := h.next
  fresh := by
    intro b hb
    by_cases hab : b = a
    · rw [hab, update_self]
    · rw [update_of_ne hab]
      exact h.fresh b hb

/-- The heap with `x` in the cell at `a`, if that was allocated. -/
def store (a : Nat) (x : α) : Heap α where
  cells := if a < h.next then Function.update h.cells a (some x) else h.cells
  next := h.next
  fresh := by
    intro b hb
    split
    · rw [update_of_ne (by omega)]
      exact h.fresh b hb
    · exact h.fresh b hb

@[simp] theorem cells_alloc_next (x : α) : (h.alloc x).2.cells h.next = some x := update_self ..

theorem cells_alloc_of_lt (ha : a < h.next) (x : α) : (h.alloc x).2.cells a = h.cells a :=
  update_of_ne (Nat.ne_of_lt ha) ..

@[simp] theorem cells_free_self (a : Nat) : (h.free a).cells a = none := update_self ..

theorem cells_free_of_ne (hab : b ≠ a) : (h.free a).cells b = h.cells b := update_of_ne hab ..

theorem cells_store_self (ha : a < h.next) (x : α) : (h.store a x).cells a = some x := by
  simp [store, if_pos ha]

theorem cells_store_of_ne (hab : b ≠ a) (x : α) : (h.store a x).cells b = h.cells b := by
  simp only [store]
  split
  · exact update_of_ne hab ..
  · rfl

/-- Cells outside `S` are as before, and new cells have new addresses. -/
structure SameOutside (S : Set Nat) (h h' : Heap α) : Prop where
  next : h.next ≤ h'.next
  cells : ∀ a, a ∉ S → a < h.next → h'.cells a = h.cells a

namespace SameOutside

variable {S T : Set Nat} {h h' h'' : Heap α}

protected theorem refl (S : Set Nat) (h : Heap α) : SameOutside S h h :=
  ⟨le_refl _, fun _ _ _ => rfl⟩

protected theorem trans (h₁ : SameOutside S h h') (h₂ : SameOutside S h' h'') :
    SameOutside S h h'' where
  next := h₁.next.trans h₂.next
  cells := fun a ha hlt => by rw [h₂.cells a ha (hlt.trans_le h₁.next), h₁.cells a ha hlt]

theorem mono (hST : S ⊆ T) (hs : SameOutside S h h') : SameOutside T h h' :=
  ⟨hs.next, fun a ha => hs.cells a fun hmem => ha (hST hmem)⟩

theorem alloc (S : Set Nat) (h : Heap α) (x : α) : SameOutside S h (h.alloc x).2 :=
  ⟨le_succ _, fun _ _ hlt => h.cells_alloc_of_lt hlt x⟩

theorem free (h : Heap α) (ha : a ∈ S) : SameOutside S h (h.free a) :=
  ⟨le_refl _, fun b hb _ => h.cells_free_of_ne fun hab : b = a => hb (hab ▸ ha)⟩

theorem store (h : Heap α) (ha : a ∈ S) (x : α) : SameOutside S h (h.store a x) :=
  ⟨le_refl _, fun b hb _ => h.cells_store_of_ne (fun hab : b = a => hb (hab ▸ ha)) x⟩

end SameOutside

end Heap
