import Mathlib.Data.List.Induction
import Mathlib.Data.List.TakeDrop

/-!
# Allocated arrays

A block is an array on the heap.  A cell without a value is not initialised.  An
access outside the block, or a read from a cell that is not initialised, has no
result: nothing can be said about a program that makes one.

`Holds` says that the cells from some index on hold the elements of a list.
-/

structure Block (α : Type*) where
  cells : List (Option α)

namespace Block

open List Option

variable {α : Type*} {b b' : Block α} {i j n off dst src : Nat} {a : α} {l l₁ l₂ : List α}

def null : Block α := ⟨[]⟩

def size (b : Block α) : Nat := b.cells.length

def read (b : Block α) (i : Nat) : Option α := b.cells[i]?.join

def write (b : Block α) (i : Nat) (a : α) : Option (Block α) :=
  if i < b.size then some ⟨b.cells.set i (some a)⟩ else none

def resize (b : Block α) (n : Nat) : Block α := ⟨b.cells.take n ++ List.replicate (n - b.size) none⟩

def move (b : Block α) (dst src n : Nat) : Option (Block α) :=
  if dst + n ≤ b.size ∧ src + n ≤ b.size then
    some ⟨b.cells.take dst ++ ((b.cells.drop src).take n ++ b.cells.drop (dst + n))⟩
  else none

def toList (b : Block α) (n : Nat) : List α := (List.range n).filterMap b.read

@[simp] theorem size_null : (null : Block α).size = 0 := rfl

theorem exists_write (h : i < b.size) (a : α) : ∃ b', b.write i a = some b' := ⟨_, if_pos h⟩

theorem exists_move (hdst : dst + n ≤ b.size) (hsrc : src + n ≤ b.size) :
    ∃ b', b.move dst src n = some b' :=
  ⟨_, if_pos ⟨hdst, hsrc⟩⟩

theorem size_write (h : b.write i a = some b') : b'.size = b.size := by
  rw [write, ite_none_right_eq_some] at h
  obtain ⟨-, h⟩ := h
  obtain rfl := Option.some.inj h
  exact length_set

theorem size_resize (h : b.size ≤ n) : (b.resize n).size = n := by
  simp only [size, resize, length_append, length_take, length_replicate]
  simp only [size] at h
  omega

theorem size_move (h : b.move dst src n = some b') : b'.size = b.size := by
  rw [move, ite_none_right_eq_some] at h
  obtain ⟨⟨hdst, hsrc⟩, h⟩ := h
  obtain rfl := Option.some.inj h
  simp only [size] at hdst hsrc ⊢
  simp only [length_append, length_take, length_drop]
  omega

theorem read_write (h : b.write i a = some b') (j : Nat) :
    b'.read j = if j = i then some a else b.read j := by
  rw [write, ite_none_right_eq_some] at h
  obtain ⟨hi, h⟩ := h
  obtain rfl := Option.some.inj h
  simp only [size] at hi
  simp only [read, getElem?_set]
  grind

theorem read_resize (h : b.size ≤ n) (i : Nat) : (b.resize n).read i = b.read i := by
  simp only [read, resize, getElem?_append, getElem?_replicate, length_take]
  simp only [size] at h ⊢
  grind

theorem read_move (h : b.move dst src n = some b') (i : Nat) :
    b'.read i = if dst ≤ i ∧ i < dst + n then b.read (src + (i - dst)) else b.read i := by
  rw [move, ite_none_right_eq_some] at h
  obtain ⟨⟨hdst, hsrc⟩, h⟩ := h
  obtain rfl := Option.some.inj h
  simp only [size] at hdst hsrc
  simp only [read, getElem?_append, length_take, length_drop, getElem?_take, getElem?_drop]
  grind

/-- The cells from `off` on hold the elements of `l`. -/
def Holds (b : Block α) (off : Nat) (l : List α) : Prop :=
  ∀ i a, l[i]? = some a → b.read (off + i) = some a

theorem holds_nil (b : Block α) (off : Nat) : b.Holds off [] := fun i a h => by simp at h

theorem holds_cons : b.Holds off (a :: l) ↔ b.read off = some a ∧ b.Holds (off + 1) l := by
  constructor
  · intro h
    refine ⟨h 0 a rfl, fun i c hi => ?_⟩
    have hc := h (i + 1) c hi
    rwa [show off + (i + 1) = off + 1 + i by omega] at hc
  rintro ⟨ha, h⟩ i c hi
  cases i with
  | zero => rw [← Option.some.inj hi]; exact ha
  | succ i =>
    rw [show off + (i + 1) = off + 1 + i by omega]
    exact h i c hi

theorem holds_append :
    b.Holds off (l₁ ++ l₂) ↔ b.Holds off l₁ ∧ b.Holds (off + l₁.length) l₂ := by
  induction l₁ generalizing off with
  | nil => simp [holds_nil]
  | cons a l₁ ih =>
    rw [cons_append, holds_cons, holds_cons, ih, length_cons, and_assoc,
      Nat.add_right_comm, Nat.add_assoc]

theorem Holds.congr (h : b.Holds off l)
    (heq : ∀ i, i < l.length → b'.read (dst + i) = b.read (off + i)) : b'.Holds dst l := by
  intro i a hi
  rw [heq i (List.getElem?_eq_some_iff.mp hi).1]
  exact h i a hi

theorem Holds.lt_size (h : b.Holds off (a :: l)) : off < b.size := by
  have hread := (holds_cons.mp h).1
  by_contra hlt
  simp only [size, Nat.not_lt] at hlt
  simp [read, getElem?_eq_none hlt] at hread

theorem Holds.read_eq (h : b.Holds 0 l) (ha : l[i]? = some a) : b.read i = some a := by
  have hcell := h i a ha
  rwa [Nat.zero_add] at hcell

theorem Holds.read_middle (h : b.Holds 0 (l₁ ++ a :: l₂)) : b.read l₁.length = some a :=
  h.read_eq (by simp)

theorem Holds.toList_eq (h : b.Holds 0 l) : b.toList l.length = l := by
  induction l using List.reverseRecOn with
  | nil => rfl
  | append_singleton l a ih =>
    obtain ⟨hl, ha⟩ := holds_append.mp h
    have hlast := (holds_cons.mp ha).1
    rw [Nat.zero_add] at hlast
    have hinit : (List.range l.length).filterMap b.read = l := ih hl
    simp [toList, range_succ, hinit, hlast]

theorem Holds.resize (h : b.Holds off l) (hn : b.size ≤ n) : (b.resize n).Holds off l :=
  h.congr fun _ _ => read_resize hn _

theorem Holds.write (h : b.Holds off l) (hw : b.write i a = some b')
    (hi : i < off ∨ off + l.length ≤ i) : b'.Holds off l :=
  h.congr fun j hj => by rw [read_write hw, if_neg (by omega)]

theorem holds_write (hw : b.write i a = some b') : b'.Holds i [a] :=
  holds_cons.mpr ⟨by rw [read_write hw, if_pos rfl], holds_nil _ _⟩

theorem Holds.write_append (h : b.Holds off l) (hw : b.write (off + l.length) a = some b') :
    b'.Holds off (l ++ [a]) :=
  holds_append.mpr ⟨h.write hw (.inr (Nat.le_refl _)), holds_write hw⟩

theorem exists_replace (h : b.Holds 0 (l₁ ++ a :: l₂)) (a' : α) :
    ∃ b', b.write l₁.length a' = some b' ∧ b'.size = b.size ∧ b'.Holds 0 (l₁ ++ a' :: l₂) := by
  obtain ⟨h₁, h₂⟩ := holds_append.mp h
  rw [Nat.zero_add] at h₂
  obtain ⟨b', hb'⟩ := exists_write h₂.lt_size a'
  refine ⟨b', hb', size_write hb', holds_append.mpr ⟨h₁.write hb' (.inr (by omega)), ?_⟩⟩
  rw [Nat.zero_add, holds_cons]
  exact ⟨(holds_cons.mp (holds_write hb')).1,
    (holds_cons.mp h₂).2.write hb' (.inl (Nat.lt_succ_self _))⟩

theorem Holds.move (h : b.Holds src l) (hm : b.move dst src l.length = some b') : b'.Holds dst l :=
  h.congr fun i hi => by rw [read_move hm, if_pos (by omega), Nat.add_sub_cancel_left]

theorem Holds.move_of_disjoint (h : b.Holds off l) (hm : b.move dst src n = some b')
    (hdisjoint : off + l.length ≤ dst ∨ dst + n ≤ off) : b'.Holds off l :=
  h.congr fun i hi => by rw [read_move hm, if_neg (by omega)]

end Block
