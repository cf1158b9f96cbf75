import Mcpkit.Lib.SwapRemove
import Mathlib.Data.List.Nodup

/-!
# A pool of objects behind handles

A pool registers objects in an unordered array and hands out a handle for each.
A handle names one object for ever: it is never given to a second object, also
not after its own object is gone.  Looking up a handle whose object is gone
gives nothing, so a use after release cannot be mistaken for a use of another
object.
-/

/-- Objects registered under distinct handles, all of them handed out before `next`. -/
structure Pool (α : Type*) where
  live : List (Nat × α)
  next : Nat
  nodup : (live.map Prod.fst).Nodup
  lt_next : ∀ r ∈ live.map Prod.fst, r < next

namespace Pool

open List Function

open List (Perm)

variable {α : Type*}

def empty : Pool α := ⟨[], 0, .nil, by simp⟩

variable (p : Pool α)

def handles : List Nat := p.live.map Prod.fst

def get? (r : Nat) : Option α := p.live.lookup r

/-- Register an object at the end of the array, under the handle `p.next`. -/
def alloc (a : α) : Pool α where
  live := p.live ++ [(p.next, a)]
  next := p.next + 1
  nodup := by
    rw [map_append, nodup_append]
    refine ⟨p.nodup, by simp, ?_⟩
    intro r hr s hs
    have hlt := p.lt_next r hr
    simp only [map_cons, map_nil, mem_singleton] at hs
    omega
  lt_next := by
    intro r hr
    rw [map_append, mem_append] at hr
    cases hr with
    | inl hr => exact Nat.lt_succ_of_lt (p.lt_next r hr)
    | inr hr =>
      simp only [map_cons, map_nil, mem_singleton] at hr
      omega

def put (r : Nat) (a : α) : Pool α where
  live := p.live.map fun e => if e.1 = r then (e.1, a) else e
  next := p.next
  nodup := by simpa [comp_def, apply_ite Prod.fst] using p.nodup
  lt_next := by simpa [comp_def, apply_ite Prod.fst] using p.lt_next

variable {r : Nat}

theorem map_fst_swapRemove (h : r ∈ p.handles) :
    Perm ((p.live.swapRemove (p.handles.idxOf r)).map Prod.fst) (p.handles.erase r) := by
  have hlt : p.handles.idxOf r < p.live.length := by simpa [handles] using idxOf_lt_length_of_mem h
  refine ((swapRemove_perm hlt).map Prod.fst).trans (.of_eq ?_)
  rw [← eraseIdx_map, erase_eq_eraseIdx_of_idxOf rfl]
  rfl

/-- Release the object of a handle; a handle without an object is left alone. -/
def free (r : Nat) : Pool α :=
  if h : r ∈ p.handles then
    { live := p.live.swapRemove (p.handles.idxOf r)
      next := p.next
      nodup := (p.map_fst_swapRemove h).nodup_iff.2 (p.nodup.erase r)
      lt_next := fun s hs =>
        p.lt_next s (mem_of_mem_erase ((p.map_fst_swapRemove h).mem_iff.1 hs)) }
  else p

@[simp] theorem handles_alloc (a : α) : (p.alloc a).handles = p.handles ++ [p.next] := by
  simp [handles, alloc]

theorem next_mem_alloc (a : α) : p.next ∈ (p.alloc a).handles := by simp

@[simp] theorem handles_put (r : Nat) (a : α) : (p.put r a).handles = p.handles := by
  simp [handles, put, comp_def, apply_ite Prod.fst]

@[simp] theorem next_alloc (a : α) : (p.alloc a).next = p.next + 1 := rfl

@[simp] theorem next_put (r : Nat) (a : α) : (p.put r a).next = p.next := rfl

@[simp] theorem next_free (r : Nat) : (p.free r).next = p.next := by
  unfold free
  split <;> rfl

theorem mem_handles_free {p : Pool α} {s : Nat} :
    s ∈ (p.free r).handles ↔ s ≠ r ∧ s ∈ p.handles := by
  unfold free
  split
  next h => exact (p.map_fst_swapRemove h).mem_iff.trans p.nodup.mem_erase_iff
  next h =>
    refine ⟨fun hs => ⟨?_, hs⟩, And.right⟩
    rintro rfl
    exact h hs

theorem next_notMem : p.next ∉ p.handles := fun h => Nat.lt_irrefl _ (p.lt_next _ h)

theorem isSome_get? {p : Pool α} : (p.get? r).isSome ↔ r ∈ p.handles := by
  rw [get?, lookup_isSome_iff, handles, mem_map]
  simp only [beq_iff_eq]
  exact exists_congr fun e => and_congr_right fun _ => eq_comm

end Pool
