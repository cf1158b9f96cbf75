import Mathlib.Data.List.Infix

/-!
# The first occurrence of a pattern

`firstOccurrence pat l` is the index at which `pat` first stands in `l`.  Whether
and where a pattern is found depends only on the part of the list up to the end
of that occurrence, so a reader that looks for a delimiter gets one answer
however much of the input it holds.
-/

namespace List

open Option

variable {α : Type*} [DecidableEq α] {pat l t : List α} {i : Nat}

def firstOccurrence (pat : List α) : List α → Option Nat
  | [] => if pat = [] then some 0 else none
  | a :: l => if pat <+: a :: l then some 0 else (firstOccurrence pat l).map (· + 1)

theorem firstOccurrence_cons_eq_some {a : α} :
    firstOccurrence pat (a :: l) = some i ↔
      (pat <+: a :: l ∧ i = 0) ∨
        (¬pat <+: a :: l ∧ ∃ j, firstOccurrence pat l = some j ∧ i = j + 1) := by
  rw [firstOccurrence]
  split
  next h => simp [h, eq_comm]
  next h => simp [h, map_eq_some_iff, eq_comm (a := i)]

theorem firstOccurrence_eq_some_iff :
    firstOccurrence pat l = some i ↔ pat <+: l.drop i ∧ ∀ j < i, ¬pat <+: l.drop j := by
  induction l generalizing i with
  | nil =>
    rw [firstOccurrence]
    split
    next hpat =>
      subst hpat
      simp only [some.injEq, nil_prefix, true_and, not_true]
      exact ⟨fun h j hj => by omega, fun h => (Nat.eq_zero_of_not_pos fun hi => h 0 hi).symm⟩
    next hpat => simp [hpat]
  | cons a l ih =>
    rw [firstOccurrence_cons_eq_some]
    cases i with
    | zero => simp
    | succ i =>
      simp only [Nat.succ_ne_zero, and_false, Nat.add_right_cancel_iff,
        exists_eq_right', false_or, drop_succ_cons, ih]
      constructor
      · rintro ⟨hhead, hpre, hfirst⟩
        refine ⟨hpre, fun j hj => ?_⟩
        cases j with
        | zero => exact hhead
        | succ j => exact hfirst j (by omega)
      · rintro ⟨hpre, hfirst⟩
        exact ⟨hfirst 0 (Nat.zero_lt_succ i), hpre, fun j hj => hfirst (j + 1) (by omega)⟩

theorem firstOccurrence_eq_none_iff :
    firstOccurrence pat l = none ↔ ∀ j, ¬pat <+: l.drop j := by
  induction l with
  | nil =>
    rw [firstOccurrence]
    split <;> simp_all
  | cons a l ih =>
    rw [firstOccurrence]
    split
    next hpre => simpa using ⟨0, hpre⟩
    next hpre =>
      rw [map_eq_none_iff, ih]
      refine ⟨fun h j => ?_, fun h j => h (j + 1)⟩
      cases j with
      | zero => exact hpre
      | succ j => exact h j

theorem firstOccurrence_eq_none_iff_not_infix :
    firstOccurrence pat l = none ↔ ¬pat <:+: l := by
  rw [firstOccurrence_eq_none_iff]
  constructor
  · rintro h ⟨s, t, rfl⟩
    exact h s.length ⟨t, by rw [append_assoc, drop_left]⟩
  · exact fun h j hpre => h (hpre.isInfix.trans (drop_suffix j l).isInfix)

/-- A pattern that begins with `a` and `b` is not found where the two are never side by side. -/
theorem firstOccurrence_append_of_not_infix {a b : α} {u v : List α} (h : ¬[a, b] <:+: u)
    (hv : v.head? ≠ some b) :
    firstOccurrence (a :: b :: pat) (u ++ v) =
      (firstOccurrence (a :: b :: pat) v).map (u.length + ·) := by
  induction u with
  | nil => simp
  | cons c u ih =>
    have hne : ¬(a :: b :: pat <+: c :: (u ++ v)) := by
      rw [cons_prefix_cons]
      rintro ⟨rfl, hpre⟩
      cases u with
      | nil =>
        obtain ⟨rest, rfl⟩ := hpre
        exact hv rfl
      | cons d u =>
        obtain ⟨rfl, -⟩ := cons_prefix_cons.mp hpre
        exact h ⟨[], u, rfl⟩
    rw [cons_append, firstOccurrence, if_neg hne,
      ih fun hinside => h (hinside.trans (suffix_cons c u).isInfix), Option.map_map]
    congr 1
    funext n
    simp only [Function.comp_apply, length_cons]
    omega

theorem add_length_le_of_firstOccurrence (h : firstOccurrence pat l = some i) :
    i + pat.length ≤ l.length := by
  induction l generalizing i with
  | nil =>
    obtain ⟨rfl, rfl⟩ : pat = [] ∧ 0 = i := by simpa [firstOccurrence] using h
    simp
  | cons a l ih =>
    rcases firstOccurrence_cons_eq_some.mp h with ⟨hpre, rfl⟩ | ⟨-, j, hj, rfl⟩
    · simpa using hpre.length_le
    · have := ih hj
      rw [length_cons]
      omega

theorem firstOccurrence_append (h : firstOccurrence pat l = some i) (t : List α) :
    firstOccurrence pat (l ++ t) = some i := by
  induction l generalizing i with
  | nil =>
    obtain ⟨rfl, rfl⟩ : pat = [] ∧ 0 = i := by simpa [firstOccurrence] using h
    cases t <;> simp [firstOccurrence]
  | cons a l ih =>
    rw [cons_append]
    rcases firstOccurrence_cons_eq_some.mp h with ⟨hpre, rfl⟩ | ⟨hpre, j, hj, rfl⟩
    · exact firstOccurrence_cons_eq_some.mpr (.inl ⟨hpre.trans (prefix_append _ t), rfl⟩)
    -- an earlier occurrence would have to end in `t`, past the one that is known
    have hle := add_length_le_of_firstOccurrence hj
    refine firstOccurrence_cons_eq_some.mpr (.inr ⟨fun hlong => hpre ?_, j, ih hj, rfl⟩)
    refine prefix_of_prefix_length_le hlong (prefix_append (a :: l) t) ?_
    rw [length_cons]
    omega

theorem firstOccurrence_left (h : firstOccurrence pat (l ++ t) = some i)
    (hle : i + pat.length ≤ l.length) : firstOccurrence pat l = some i := by
  induction l generalizing i with
  | nil =>
    obtain ⟨rfl, hpat⟩ : i = 0 ∧ pat.length = 0 := by simpa using hle
    simp [firstOccurrence, length_eq_zero_iff.mp hpat]
  | cons a l ih =>
    rw [cons_append] at h
    rcases firstOccurrence_cons_eq_some.mp h with ⟨hpre, rfl⟩ | ⟨hpre, j, hj, rfl⟩
    · refine firstOccurrence_cons_eq_some.mpr (.inl ⟨?_, rfl⟩)
      exact prefix_of_prefix_length_le hpre (prefix_append (a :: l) t) (by simpa using hle)
    · rw [length_cons] at hle
      have hshort : ¬pat <+: a :: l := fun hp => hpre (hp.trans (prefix_append _ t))
      exact firstOccurrence_cons_eq_some.mpr (.inr ⟨hshort, j, ih hj (by omega), rfl⟩)

theorem firstOccurrence_eq_none (h : firstOccurrence pat (l ++ t) = some i)
    (hlt : l.length < i + pat.length) : firstOccurrence pat l = none := by
  cases hl : firstOccurrence pat l with
  | none => rfl
  | some j =>
    have hij : some j = some i := (firstOccurrence_append hl t).symm.trans h
    have hle := add_length_le_of_firstOccurrence hl
    rw [some.inj hij] at hle
    omega

end List
