import Mathlib.Data.List.TakeDrop

/-!
# The cuts of a list

The ways to cut a list in two, the shortest front first, up to a bound on the length
of the front and up to an element that no front may hold.  A search that takes the
first cut that succeeds takes the one with the shortest front.
-/

namespace Cuts

open List Nat

variable {α β : Type*} {stop : α → Bool} {n : Nat} {u front rest : List α}

/-- The cuts of `u` after at most `n` elements, none of them one that stops. -/
def cuts (stop : α → Bool) : Nat → List α → List (List α × List α)
  | 0, u => [([], u)]
  | _ + 1, [] => [([], [])]
  | n + 1, c :: u =>
    ([], c :: u) ::
      if stop c then [] else (cuts stop n u).map fun cut => (c :: cut.1, cut.2)

theorem nil_mem_cuts : ([], rest) ∈ cuts stop n u ↔ u = rest := by
  fun_cases cuts stop n u
  case case1 => simp [eq_comm]
  case case2 => simp [eq_comm]
  case case3 n c u => cases stop c <;> simp [eq_comm]

theorem cons_mem_cuts {c d : α} :
    (d :: front, rest) ∈ cuts stop (n + 1) (c :: u) ↔
      d = c ∧ stop c = false ∧ (front, rest) ∈ cuts stop n u := by
  rw [cuts, mem_cons]
  cases stop c with
  | true => simp
  | false => simp [and_comm, and_assoc, eq_comm]

/-- A cut has its two parts in order, with a front that is short enough and free of
elements that stop. -/
theorem mem_cuts :
    (front, rest) ∈ cuts stop n u ↔
      u = front ++ rest ∧ front.length ≤ n ∧ ∀ c ∈ front, stop c = false := by
  induction front generalizing n u with
  | nil => simp [nil_mem_cuts]
  | cons d front ih =>
    cases n with
    | zero => simp [cuts]
    | succ n =>
      cases u with
      | nil => simp [cuts]
      | cons c u =>
        rw [cons_mem_cuts, ih, forall_mem_cons, cons_append, List.cons.injEq,
          length_cons, succ_le_succ_iff]
        constructor
        · rintro ⟨rfl, hc, heq, hlen, hfront⟩
          exact ⟨⟨rfl, heq⟩, hlen, hc, hfront⟩
        · rintro ⟨⟨rfl, heq⟩, hlen, hc, hfront⟩
          exact ⟨rfl, hc, heq, hlen, hfront⟩

theorem pairwise_cuts (stop : α → Bool) (n : Nat) (u : List α) :
    (cuts stop n u).Pairwise fun a b => a.1.length < b.1.length := by
  induction n generalizing u with
  | zero => exact pairwise_singleton ..
  | succ n ih =>
    cases u with
    | nil => exact pairwise_singleton ..
    | cons c u =>
      cases hstop : stop c with
      | true => simp [cuts, hstop]
      | false =>
        simp only [cuts, hstop, Bool.false_eq_true, if_false, pairwise_cons, pairwise_map, mem_map]
        refine ⟨?_, (ih u).imp succ_lt_succ⟩
        rintro _ ⟨cut, -, rfl⟩
        exact succ_pos _

/-- What a search finds belongs to a cut, and every cut with a shorter front fails. -/
theorem exists_of_findSome?_cuts {attempt : List α × List α → Option β} {b : β}
    (h : (cuts stop n u).findSome? attempt = some b) :
    ∃ front rest, (front, rest) ∈ cuts stop n u ∧ attempt (front, rest) = some b ∧
      ∀ cut ∈ cuts stop n u, cut.1.length < front.length → attempt cut = none := by
  obtain ⟨before, ⟨front, rest⟩, after, hcuts, hb, hfail⟩ := findSome?_eq_some_iff.mp h
  have hsorted := pairwise_cuts stop n u
  rw [hcuts] at hsorted ⊢
  have hafter := (pairwise_cons.mp (pairwise_append.mp hsorted).2.1).1
  refine ⟨front, rest, by simp, hb, fun cut hmem hlt => ?_⟩
  -- A cut behind the one that succeeds has a longer front.
  obtain hmem | hmem := mem_append.mp hmem
  · exact hfail cut hmem
  · obtain rfl | hmem := mem_cons.mp hmem
    · exact absurd hlt (Nat.lt_irrefl _)
    · exact absurd hlt (Nat.lt_asymm (hafter cut hmem))

end Cuts
