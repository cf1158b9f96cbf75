import Mathlib.Data.List.Basic

/-!
# Reading a list page by page

A source answers a cursor with a page and, unless the page is the last one, the next cursor.
`follow` asks with each cursor until there is none and joins the pages.  The rule asks for a
relation between the state of the source, a cursor and the items still to come, such that every
answer takes a page off these items.
-/

namespace Paging

variable {S C A : Type*}

/-- Ask with a cursor and then with each next cursor, and join the pages; nothing if an answer is
missing or the fuel runs out. -/
def follow (ask : S → C → S × Option (List A × Option C)) : Nat → S → C → Option (List A)
  | 0, _, _ => none
  | fuel + 1, s, c =>
    match ask s c with
    | (_, none) => none
    | (_, some (page, none)) => some page
    | (s, some (page, some c)) => (follow ask fuel s c).map (page ++ ·)

/-- An answer is a page and, before the end, a cursor for the items after it. -/
structure Serves (ask : S → C → S × Option (List A × Option C))
    (Rest : S → C → List A → Prop) : Prop where
  answer : ∀ s c items, Rest s c items → ∃ s' page next rest,
    ask s c = (s', some (page, next)) ∧ items = page ++ rest ∧
      match next with
      | none => rest = []
      | some c' => Rest s' c' rest ∧ rest.length < items.length

/-- The reader gets every item once and in order, with one request for each item at most. -/
theorem follow_eq {ask : S → C → S × Option (List A × Option C)} {Rest : S → C → List A → Prop}
    (hserves : Serves ask Rest) {s : S} {c : C} {items : List A} (h : Rest s c items)
    {fuel : Nat} (hfuel : items.length < fuel) : follow ask fuel s c = some items := by
  induction fuel generalizing s c items with
  | zero => omega
  | succ fuel ih =>
    obtain ⟨s', page, next, rest, hask, rfl, hnext⟩ := hserves.answer s c items h
    rw [follow, hask]
    cases next with
    | none => rw [show rest = [] from hnext, List.append_nil]
    | some c' =>
      obtain ⟨hrest, hlt⟩ := hnext
      have hread := ih hrest (by omega)
      simp [hread]

end Paging
