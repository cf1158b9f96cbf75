import Mathlib.Order.Lattice
import Mcpkit.Lib.Block

/-!
# Sorted arrays

A table in an allocated array, sorted by a key: binary search, and the insertion and
removal of an element with the moves they need.
-/

namespace Block

open List Nat

variable {α K : Type} [LinearOrder K]

/-- Binary search for a key in the cells from `low` to `high`: whether it is there, and where it is
or belongs. -/
def search (b : Block α) (key : α → K) (k : K) : Nat → Nat → Nat → Option (Bool × Nat)
  | 0, _, _ => none
  | fuel + 1, low, high =>
    if low < high then do
      let mid := low + (high - low) / 2
      let a ← b.read mid
      if key a = k then some (true, mid)
      else if key a < k then b.search key k fuel (mid + 1) high
      else b.search key k fuel low mid
    else some (false, low)

def insertAt (b : Block α) (i n : Nat) (a : α) : Option (Block α) :=
  (if i < n then b.move (i + 1) i (n - i) else some b).bind fun b => b.write i a

def eraseAt (b : Block α) (i n : Nat) : Option (Block α) :=
  if i + 1 < n then b.move i (i + 1) (n - i - 1) else some b

variable {b : Block α} {l l₁ l₂ : List α} {a : α}

theorem exists_insertAt (h : b.Holds 0 (l₁ ++ l₂)) (hsize : l₁.length + l₂.length < b.size)
    (a : α) :
    ∃ b', b.insertAt l₁.length (l₁.length + l₂.length) a = some b' ∧ b'.size = b.size ∧
      b'.Holds 0 (l₁ ++ a :: l₂) := by
  obtain ⟨h₁, h₂⟩ := holds_append.mp h
  rw [Nat.zero_add] at h₂
  have hmoved : ∃ m, (if l₁.length < l₁.length + l₂.length then
      b.move (l₁.length + 1) l₁.length (l₁.length + l₂.length - l₁.length) else some b) = some m ∧
      m.size = b.size ∧ m.Holds 0 l₁ ∧ m.Holds (l₁.length + 1) l₂ := by
    split
    · rw [Nat.add_sub_cancel_left]
      obtain ⟨m, hm⟩ : ∃ m, b.move (l₁.length + 1) l₁.length l₂.length = some m :=
        exists_move (by omega) (by omega)
      exact ⟨m, hm, size_move hm, h₁.move_of_disjoint hm (.inl (by omega)), h₂.move hm⟩
    · obtain rfl : l₂ = [] := eq_nil_of_length_eq_zero (by omega)
      exact ⟨b, rfl, rfl, h₁, holds_nil _ _⟩
  obtain ⟨m, hm, hmsize, hm₁, hm₂⟩ := hmoved
  obtain ⟨b', hb'⟩ := exists_write (b := m) (i := l₁.length) (by omega) a
  refine ⟨b', by rw [insertAt, hm]; exact hb', (size_write hb').trans hmsize, ?_⟩
  refine holds_append.mpr ⟨hm₁.write hb' (.inr (by omega)), ?_⟩
  rw [Nat.zero_add, holds_cons]
  exact ⟨(holds_cons.mp (holds_write hb')).1, hm₂.write hb' (.inl (Nat.lt_succ_self _))⟩

theorem exists_eraseAt (h : b.Holds 0 (l₁ ++ a :: l₂)) (hsize : l₁.length + l₂.length < b.size) :
    ∃ b', b.eraseAt l₁.length (l₁.length + (l₂.length + 1)) = some b' ∧ b'.size = b.size ∧
      b'.Holds 0 (l₁ ++ l₂) := by
  obtain ⟨h₁, h₂⟩ := holds_append.mp h
  rw [Nat.zero_add] at h₂
  have h₂ := (holds_cons.mp h₂).2
  rw [eraseAt]
  split
  · have hn : l₁.length + (l₂.length + 1) - l₁.length - 1 = l₂.length := by omega
    rw [hn]
    obtain ⟨b', hb'⟩ : ∃ b', b.move l₁.length (l₁.length + 1) l₂.length = some b' :=
      exists_move (by omega) (by omega)
    refine ⟨b', hb', size_move hb', holds_append.mpr ⟨?_, ?_⟩⟩
    · exact h₁.move_of_disjoint hb' (.inl (by omega))
    · rw [Nat.zero_add]
      exact h₂.move hb'
  · obtain rfl : l₂ = [] := eq_nil_of_length_eq_zero (by omega)
    exact ⟨b, rfl, rfl, by rwa [append_nil]⟩

/-- What a search of a sorted list finds: the element with the key, or the place between the
smaller and the larger keys. -/
inductive Found (key : α → K) (k : K) : List α → Bool × Nat → Prop where
  | there {l₁ l₂ : List α} {a : α} (ha : key a = k) : Found key k (l₁ ++ a :: l₂) (true, l₁.length)
  | missing {l₁ l₂ : List α} (hlow : ∀ a ∈ l₁, key a < k) (hhigh : ∀ a ∈ l₂, k < key a) :
      Found key k (l₁ ++ l₂) (false, l₁.length)

variable {key : α → K} {k : K}

variable {mid : Nat}

theorem drop_eq_cons (ha : l[mid]? = some a) : l.drop mid = a :: l.drop (mid + 1) := by
  obtain ⟨hmid, rfl⟩ := List.getElem?_eq_some_iff.mp ha
  exact drop_eq_getElem_cons hmid

theorem eq_take_append_cons_drop (ha : l[mid]? = some a) :
    l = l.take mid ++ a :: l.drop (mid + 1) := by
  rw [← drop_eq_cons ha, take_append_drop]

theorem key_lt_of_sorted (hsorted : l.Pairwise fun a a' => key a < key a') (ha : l[mid]? = some a) :
    (∀ x ∈ l.take mid, key x < key a) ∧ ∀ x ∈ l.drop (mid + 1), key a < key x := by
  rw [eq_take_append_cons_drop ha, pairwise_append, pairwise_cons] at hsorted
  obtain ⟨-, ⟨hafter, -⟩, hbefore⟩ := hsorted
  exact ⟨fun x hx => hbefore x hx a mem_cons_self, hafter⟩

theorem found_of_getElem? (ha : l[mid]? = some a) (hk : key a = k) : Found key k l (true, mid) := by
  obtain ⟨hmid, -⟩ := List.getElem?_eq_some_iff.mp ha
  have hfound : Found key k (l.take mid ++ a :: l.drop (mid + 1))
      (true, (l.take mid).length) := .there hk
  rwa [← eq_take_append_cons_drop ha, length_take_of_le (le_of_lt hmid)] at hfound

/-- The search keeps what is below `low` smaller and what is from `high` on larger than the
key. -/
theorem search_loop (hl : b.Holds 0 l) (hsorted : l.Pairwise fun a a' => key a < key a')
    {fuel low high : Nat} (hfuel : high - low < fuel) (hle : low ≤ high)
    (hhigh : high ≤ l.length) (hbelow : ∀ a ∈ l.take low, key a < k)
    (habove : ∀ a ∈ l.drop high, k < key a) :
    ∃ r, b.search key k fuel low high = some r ∧ Found key k l r := by
  induction fuel generalizing low high with
  | zero => omega
  | succ fuel ih =>
    rw [search]
    split
    · have hmid : low + (high - low) / 2 < l.length := by omega
      generalize hm : low + (high - low) / 2 = mid at hmid
      obtain ⟨a, ha⟩ : ∃ a, l[mid]? = some a := ⟨_, getElem?_eq_getElem hmid⟩
      obtain ⟨hbefore, hafter⟩ := key_lt_of_sorted hsorted ha
      simp only [hl.read_eq ha, Option.bind_eq_bind, Option.bind_some]
      split
      · rename_i heq
        exact ⟨_, rfl, found_of_getElem? ha heq⟩
      split
      · rename_i hlt
        refine ih (by omega) (by omega) hhigh (fun x hx => ?_) habove
        rw [take_add_one, ha] at hx
        obtain hx | hx := mem_append.mp hx
        · exact lt_trans (hbefore x hx) hlt
        · obtain rfl := mem_singleton.mp hx
          exact hlt
      rename_i hne hnlt
      have hgt : k < key a := lt_of_le_of_ne (not_lt.mp hnlt) (Ne.symm hne)
      refine ih (by omega) (by omega) (by omega) hbelow fun x hx => ?_
      rw [drop_eq_cons ha] at hx
      obtain rfl | hx := mem_cons.mp hx
      · exact hgt
      · exact lt_trans hgt (hafter x hx)
    · obtain rfl : low = high := by omega
      have hfound : Found key k (l.take low ++ l.drop low) (false, (l.take low).length) :=
        .missing hbelow habove
      rw [take_append_drop, length_take_of_le hhigh] at hfound
      exact ⟨_, rfl, hfound⟩

theorem exists_search (hl : b.Holds 0 l) (hsorted : l.Pairwise fun a a' => key a < key a') :
    ∃ r, b.search key k (l.length + 1) 0 l.length = some r ∧ Found key k l r :=
  search_loop hl hsorted (by omega) (zero_le _) (le_refl _) (by simp) (by simp)

end Block
