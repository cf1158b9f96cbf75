import Mathlib.Data.List.TakeDrop

/-!
# Lines of a stream

A stream is cut at a separator into the lines that it ends and a remainder.  Both
functions carry the part of the first line that was read before, so what they say
about a stream can be taken over, piece by piece, to a reader that has read a part
of a line.

A caller asks for the lines one by one, and once there is none left it gets the
same answer for ever.
-/

namespace Lines

open List

variable {α : Type*} [DecidableEq α] {sep : α} {line t s : List α}

/-- The lines that a separator ends, without it. -/
def complete (sep : α) (line : List α) : List α → List (List α)
  | [] => []
  | c :: s => if c = sep then line :: complete sep [] s else complete sep (line ++ [c]) s

/-- What stands behind the last separator. -/
def remainder (sep : α) (line : List α) : List α → List α
  | [] => line
  | c :: s => if c = sep then remainder sep [] s else remainder sep (line ++ [c]) s

@[simp] theorem complete_nil : complete sep line [] = [] := rfl

@[simp] theorem remainder_nil : remainder sep line [] = line := rfl

@[simp] theorem complete_cons_sep : complete sep line (sep :: s) = line :: complete sep [] s :=
  if_pos rfl

@[simp] theorem remainder_cons_sep : remainder sep line (sep :: s) = remainder sep [] s :=
  if_pos rfl

theorem complete_append (line t s : List α) :
    complete sep line (t ++ s) = complete sep line t ++ complete sep (remainder sep line t) s := by
  induction t generalizing line with
  | nil => rfl
  | cons c t ih => by_cases hc : c = sep <;> simp [complete, remainder, hc, ih]

theorem remainder_append (line t s : List α) :
    remainder sep line (t ++ s) = remainder sep (remainder sep line t) s := by
  induction t generalizing line with
  | nil => rfl
  | cons c t ih => by_cases hc : c = sep <;> simp [remainder, hc, ih]

section

variable (h : sep ∉ t)
include h

theorem complete_of_notMem : complete sep line t = [] := by
  induction t generalizing line with
  | nil => rfl
  | cons c t ih =>
    rw [mem_cons, not_or] at h
    simp [complete, Ne.symm h.1, ih h.2]

theorem remainder_of_notMem : remainder sep line t = line ++ t := by
  induction t generalizing line with
  | nil => simp
  | cons c t ih =>
    rw [mem_cons, not_or] at h
    simp [remainder, Ne.symm h.1, ih h.2]

theorem complete_append_of_notMem : complete sep line (t ++ s) = complete sep (line ++ t) s := by
  rw [complete_append, complete_of_notMem h, remainder_of_notMem h, nil_append]

theorem remainder_append_of_notMem : remainder sep line (t ++ s) = remainder sep (line ++ t) s := by
  rw [remainder_append, remainder_of_notMem h]

theorem complete_append_sep :
    complete sep line (t ++ sep :: s) = (line ++ t) :: complete sep [] s := by
  rw [complete_append_of_notMem h, complete_cons_sep]

theorem remainder_append_sep : remainder sep line (t ++ sep :: s) = remainder sep [] s := by
  rw [remainder_append_of_notMem h, remainder_cons_sep]

end

theorem notMem_remainder (h : sep ∉ line) : sep ∉ remainder sep line s := by
  induction s generalizing line with
  | nil => exact h
  | cons c s ih =>
    by_cases hc : c = sep
    · simpa [remainder, hc] using ih not_mem_nil
    · have hline : sep ∉ line ++ [c] := by simp [h, Ne.symm hc]
      simpa [remainder, hc] using ih hline

theorem length_lt_of_mem_complete {l : List α} (h : l ∈ complete sep line s) :
    l.length < line.length + s.length := by
  induction s generalizing line with
  | nil => exact absurd h not_mem_nil
  | cons c s ih =>
    rw [length_cons]
    by_cases hc : c = sep
    · simp only [complete, if_pos hc, mem_cons] at h
      rcases h with rfl | h
      · omega
      · have hlt := ih h
        rw [length_nil] at hlt
        omega
    · simp only [complete, if_neg hc] at h
      have hlt := ih h
      rw [length_append, length_singleton] at hlt
      omega

theorem length_remainder_le (sep : α) (line s : List α) :
    (remainder sep line s).length ≤ line.length + s.length := by
  induction s generalizing line with
  | nil => simp
  | cons c s ih =>
    rw [length_cons]
    by_cases hc : c = sep
    · have hle := ih []
      rw [length_nil] at hle
      simp only [remainder, if_pos hc]
      omega
    have hle := ih (line ++ [c])
    rw [length_append, length_singleton] at hle
    simp only [remainder, if_neg hc]
    omega

theorem length_complete (line line' s : List α) :
    (complete sep line s).length = (complete sep line' s).length := by
  induction s generalizing line line' with
  | nil => rfl
  | cons c s ih =>
    by_cases hc : c = sep
    · simp [hc]
    · simpa [complete, hc] using ih (line ++ [c]) (line' ++ [c])

theorem remainder_ne_nil (h : remainder sep [] s ≠ []) (line : List α) :
    remainder sep line s ≠ [] := by
  by_cases hsep : sep ∈ s
  · obtain ⟨t, s, rfl, ht⟩ := eq_append_cons_of_mem hsep
    rw [remainder_append_sep ht] at h ⊢
    exact h
  · rw [remainder_of_notMem hsep] at h ⊢
    intro hnil
    exact h (by simpa using (append_eq_nil_iff.mp hnil).2)

omit [DecidableEq α] in
theorem eq_of_takeD_eq {l l' : List α} {last : α} (hl : last ∉ l) (hl' : last ∉ l')
    (h : ∀ n, List.takeD n l last = List.takeD n l' last) : l = l' := by
  induction l generalizing l' with
  | nil =>
    cases l' with
    | nil => rfl
    | cons a l' =>
      have hfirst : last = a := (List.cons.inj (h 1)).1
      exact absurd (hfirst ▸ mem_cons_self) hl'
  | cons b l ih =>
    cases l' with
    | nil =>
      have hfirst : b = last := (List.cons.inj (h 1)).1
      exact absurd (hfirst ▸ mem_cons_self) hl
    | cons a l' =>
      have hfirst : b = a := (List.cons.inj (h 1)).1
      have hrest : l = l' := by
        apply ih (fun hmem => hl (mem_cons_of_mem b hmem))
          (fun hmem => hl' (mem_cons_of_mem a hmem))
        intro n
        exact (List.cons.inj (h (n + 1))).2
      rw [hfirst, hrest]

end Lines
