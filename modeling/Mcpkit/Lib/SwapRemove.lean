import Mathlib.Data.List.Perm.Basic

/-!
# Removal by swapping with the last entry

An unordered array drops an entry by moving its last entry into the gap.  Up to
order this is the removal of the entry.  A relation between earlier and later
entries survives if the last entry has it to those it passes.

Two arrays with the same entries in different orders have the same first entry
with a property if the entries with the property stand in the same order in both.
-/

namespace List

variable {α : Type*}

/-- Store the last entry at index `i` and shorten the list by one. -/
def swapRemove (l : List α) (i : Nat) : List α :=
  match l.getLast? with
  | none => []
  | some x => (l.set i x).dropLast

variable {l : List α} {i : Nat} {p : α → Bool} {R : α → α → Prop}

theorem swapRemove_perm (h : i < l.length) : l.swapRemove i ~ l.eraseIdx i := by
  obtain ⟨init, x, rfl⟩ := (eq_nil_or_concat' l).resolve_left (by rintro rfl; simp at h)
  rw [length_append, length_singleton] at h
  simp only [swapRemove, getLast?_concat]
  by_cases hi : i < init.length
  · rw [set_append_left _ _ hi, dropLast_concat, eraseIdx_append_of_lt_length hi]
    exact (set_perm_cons_eraseIdx hi x).trans (perm_append_singleton x _).symm
  · obtain rfl : i = init.length := by omega
    simp [set_append_right, eraseIdx_append_of_length_le]

theorem map_swapRemove {β : Type*} (f : α → β) (l : List α) (i : Nat) :
    (l.map f).swapRemove i = (l.swapRemove i).map f := by
  rw [swapRemove, swapRemove, getLast?_map]
  cases l.getLast? with
  | none => rfl
  | some x => simp [map_set, map_dropLast]

theorem swapRemove_length (a : List α) (x : α) : (a ++ [x]).swapRemove a.length = a := by
  simp [swapRemove]

theorem swapRemove_length_cons (a m : List α) (x y : α) :
    (a ++ x :: (m ++ [y])).swapRemove a.length = a ++ y :: m := by
  rw [← cons_append, ← append_assoc]
  simp only [swapRemove, getLast?_concat]
  rw [append_assoc, set_append_right _ _ (Nat.le_refl _), Nat.sub_self, cons_append, set_cons_zero,
    ← cons_append, ← append_assoc, dropLast_concat]

theorem swapRemove_findIdx? (h : l.findIdx? p = some i) :
    ∃ a x, p x = true ∧ ((l = a ++ [x] ∧ l.swapRemove i = a) ∨
      ∃ m y, l = a ++ x :: (m ++ [y]) ∧ l.swapRemove i = a ++ y :: m) := by
  obtain ⟨hi, hx, -⟩ := findIdx?_eq_some_iff_getElem.mp h
  have hlength : (l.take i).length = i := length_take_of_le (Nat.le_of_lt hi)
  have hl : l = l.take i ++ l[i] :: l.drop (i + 1) := by rw [getElem_cons_drop hi, take_append_drop]
  refine ⟨l.take i, l[i], hx, ?_⟩
  obtain hnil | ⟨m, y, hconcat⟩ := eq_nil_or_concat' (l.drop (i + 1))
  · rw [hnil] at hl
    have hremove := swapRemove_length (l.take i) l[i]
    rw [← hl, hlength] at hremove
    exact .inl ⟨hl, hremove⟩
  rw [hconcat] at hl
  have hremove := swapRemove_length_cons (l.take i) m l[i] y
  rw [← hl, hlength] at hremove
  exact .inr ⟨m, y, hl, hremove⟩

theorem Pairwise.swap_last {a m : List α} {x y : α} (h : (a ++ x :: (m ++ [y])).Pairwise R)
    (hpass : ∀ z ∈ m, R y z) : (a ++ y :: m).Pairwise R := by
  obtain ⟨ha, hrest, hacross⟩ := pairwise_append.mp h
  refine pairwise_append.mpr ⟨ha, ?_, ?_⟩
  · exact pairwise_cons.mpr ⟨hpass, (pairwise_append.mp (pairwise_cons.mp hrest).2).1⟩
  · intro z hz w hw
    exact hacross z hz w (by simp only [mem_cons, mem_append] at hw ⊢; tauto)

/-- Reordering keeps the first entry with a property if the entries with it are in order. -/
theorem Perm.find?_eq {l₁ l₂ : List α} (h : l₁ ~ l₂) (hasymm : ∀ x y, R x y → ¬R y x)
    (h₁ : l₁.Pairwise fun x y => p x = true → p y = true → R x y)
    (h₂ : l₂.Pairwise fun x y => p x = true → p y = true → R x y) : l₁.find? p = l₂.find? p := by
  have hfilter : ∀ {l : List α}, (l.Pairwise fun x y => p x = true → p y = true → R x y) →
      (l.filter p).Pairwise R := by
    intro l hl
    refine (hl.filter p).imp_of_mem ?_
    intro x y hx hy hxy
    exact hxy (mem_filter.mp hx).2 (mem_filter.mp hy).2
  have heq : l₁.filter p = l₂.filter p :=
    Perm.eq_of_pairwise (fun x y _ _ hxy hyx => absurd hyx (hasymm x y hxy)) (hfilter h₁)
      (hfilter h₂) (h.filter p)
  rw [← head?_filter, heq, head?_filter]

end List
