import Mathlib.Data.Multiset.AddSub

/-!
# Counted references

Taking a reference raises the counter of an object and giving it up lowers it; whoever lowers it to
zero destroys the object afterwards.  `Balanced` ties the counters to the references that are held
and to the destructions under way.  The operations keep it, if references are taken only to objects
that are referred to; so an object is destroyed once, and not while a reference to it is held.
-/

namespace RefCount

open List Function Nat

variable {α : Type*}

/-- The objects that were made, their counters, and the objects that were destroyed, as often as
they were. -/
structure Pool (α : Type*) where
  made : List α
  count : α → Nat
  destroyed : List α

namespace Pool

def empty : Pool α := ⟨[], fun _ => 0, []⟩

def destroy (p : Pool α) (a : α) : Pool α := { p with destroyed := a :: p.destroyed }

variable [DecidableEq α]

def make (p : Pool α) (a : α) : Pool α :=
  { p with made := a :: p.made, count := Function.update p.count a 1 }

def ref (p : Pool α) (a : α) : Pool α :=
  { p with count := Function.update p.count a (p.count a + 1) }

def unref (p : Pool α) (a : α) : Pool α :=
  { p with count := Function.update p.count a (p.count a - 1) }

/-- A reference that is given up is the last one. -/
def isLast (p : Pool α) (a : α) : Bool := p.count a = 1

end Pool

/-- The counters count the references that are held.  An object is destroyed, or its destruction is
under way, exactly if it was made and no reference to it is held. -/
structure Balanced [DecidableEq α] (p : Pool α) (refs doomed : Multiset α) : Prop where
  count_eq : ∀ a, p.count a = refs.count a
  mem_made : ∀ a ∈ refs, a ∈ p.made
  settled : ∀ a, p.destroyed.count a + doomed.count a = if a ∈ p.made ∧ a ∉ refs then 1 else 0

namespace Balanced

variable [DecidableEq α] {p : Pool α} {refs doomed : Multiset α} {a : α}

theorem empty : Balanced (Pool.empty : Pool α) 0 0 where
  count_eq a := (Multiset.count_zero a).symm
  mem_made a h := absurd h (Multiset.notMem_zero a)
  settled a := by
    rw [if_neg fun h => not_mem_nil h.1]
    rfl

theorem make (h : Balanced p refs doomed) (hnew : a ∉ p.made) :
    Balanced (p.make a) (a ::ₘ refs) doomed where
  count_eq b := by
    by_cases hb : b = a
    · subst hb
      have hfree : b ∉ refs := fun hmem => hnew (h.mem_made b hmem)
      rw [Multiset.count_cons_self, Multiset.count_eq_zero_of_notMem hfree]
      exact update_self b 1 p.count
    · rw [Multiset.count_cons_of_ne hb, ← h.count_eq b]
      exact update_of_ne hb 1 p.count
  mem_made b hmem := by
    rcases Multiset.mem_cons.mp hmem with rfl | hmem
    · exact mem_cons_self
    · exact mem_cons_of_mem a (h.mem_made b hmem)
  settled b := by
    by_cases hb : b = a
    · subst hb
      rw [if_neg fun hcon => hcon.2 (Multiset.mem_cons_self b refs)]
      exact (h.settled b).trans (if_neg fun hcon => hnew hcon.1)
    · refine (h.settled b).trans ?_
      simp [Pool.make, hb]

theorem ref (h : Balanced p refs doomed) (hmem : a ∈ refs) :
    Balanced (p.ref a) (a ::ₘ refs) doomed where
  count_eq b := by
    by_cases hb : b = a
    · subst hb
      rw [Multiset.count_cons_self, ← h.count_eq b]
      exact update_self b _ p.count
    · rw [Multiset.count_cons_of_ne hb, ← h.count_eq b]
      exact update_of_ne hb _ p.count
  mem_made b hb := by
    rcases Multiset.mem_cons.mp hb with rfl | hb
    · exact h.mem_made b hmem
    · exact h.mem_made b hb
  settled b := by
    have hiff : b ∈ a ::ₘ refs ↔ b ∈ refs := by
      rw [Multiset.mem_cons, or_iff_right_of_imp]
      rintro rfl
      exact hmem
    simp only [hiff]
    exact h.settled b

theorem unref (h : Balanced p (a ::ₘ refs) doomed) :
    Balanced (p.unref a) refs (if p.isLast a then a ::ₘ doomed else doomed) := by
  have hcount : p.count a = refs.count a + 1 := by rw [h.count_eq a, Multiset.count_cons_self]
  have hlast : p.isLast a = true ↔ a ∉ refs := by
    rw [Pool.isLast, decide_eq_true_eq, hcount, ← Multiset.count_eq_zero]
    exact succ_inj
  refine ⟨?_, ?_, ?_⟩
  · intro b
    by_cases hb : b = a
    · subst hb
      refine (update_self b _ p.count).trans ?_
      rw [hcount, Nat.add_sub_cancel]
    · rw [← Multiset.count_cons_of_ne hb, ← h.count_eq b]
      exact update_of_ne hb _ p.count
  · exact fun b hb => h.mem_made b (Multiset.mem_cons_of_mem hb)
  intro b
  have hbefore := h.settled b
  by_cases hb : b = a
  · subst hb
    -- it was held before, so that nothing has happened to it yet
    rw [if_neg fun hcon => hcon.2 (Multiset.mem_cons_self b refs)] at hbefore
    have hmade : b ∈ (p.unref b).made := h.mem_made b (Multiset.mem_cons_self b refs)
    split
    next htrue =>
      rw [Multiset.count_cons_self, if_pos ⟨hmade, hlast.mp htrue⟩, ← Nat.add_assoc]
      exact congrArg succ hbefore
    next hfalse =>
      rwa [if_neg fun hcon => hfalse (hlast.mpr hcon.2)]
  · have hiff : b ∈ a ::ₘ refs ↔ b ∈ refs := by
      rw [Multiset.mem_cons, or_iff_right hb]
    simp only [hiff] at hbefore
    have hdoomed : (if p.isLast a then a ::ₘ doomed else doomed).count b = doomed.count b := by
      split
      · exact Multiset.count_cons_of_ne hb doomed
      · rfl
    rwa [hdoomed]

theorem destroy (h : Balanced p refs (a ::ₘ doomed)) : Balanced (p.destroy a) refs doomed where
  count_eq := h.count_eq
  mem_made := h.mem_made
  settled b := by
    refine Eq.trans ?_ (h.settled b)
    rw [Pool.destroy, count_cons, Multiset.count_cons]
    by_cases hb : b = a
    · subst hb
      simp only [BEq.rfl, if_true]
      omega
    · simp only [beq_iff_eq, Ne.symm hb, hb, if_false]
      omega

theorem count_destroyed_le_one (h : Balanced p refs doomed) (a : α) :
    p.destroyed.count a ≤ 1 := by
  have hsettled := h.settled a
  split at hsettled <;> omega

theorem notMem_destroyed (h : Balanced p refs doomed) (hmem : a ∈ refs) : a ∉ p.destroyed := by
  have hsettled := h.settled a
  rw [if_neg fun hcon => hcon.2 hmem] at hsettled
  exact count_eq_zero.mp (by omega)

theorem count_destroyed_eq_one (h : Balanced p 0 0) (hmade : a ∈ p.made) :
    p.destroyed.count a = 1 := by
  have hsettled := h.settled a
  rwa [if_pos ⟨hmade, Multiset.notMem_zero a⟩, Multiset.count_zero, Nat.add_zero] at hsettled

end Balanced

end RefCount
