import Mathlib.Data.List.Nodup
import Mathlib.Data.List.Perm.Subperm

/-!
# Association lists in insertion order

A finite map stored as a list of key-value pairs in the order in which the keys
were first set.  Setting a key that is present replaces its value in place;
setting a new key appends.  Lookup is `List.lookup`.
-/

namespace Assoc

open List

variable {K V : Type*} [DecidableEq K]

def keys (l : List (K × V)) : List K := l.map Prod.fst

/-- Replace the value of the first entry with the key, or append a new entry. -/
def set (l : List (K × V)) (k : K) (v : V) : List (K × V) :=
  match l with
  | [] => [(k, v)]
  | (k', v') :: l => if k' = k then (k', v) :: l else (k', v') :: set l k v

omit [DecidableEq K] in
@[simp] theorem keys_nil : keys ([] : List (K × V)) = [] := rfl

omit [DecidableEq K] in
@[simp] theorem keys_cons (p : K × V) (l : List (K × V)) : keys (p :: l) = p.1 :: keys l := rfl

@[simp] theorem set_nil (k : K) (v : V) : set [] k v = [(k, v)] := rfl

theorem set_cons (p : K × V) (l : List (K × V)) (k : K) (v : V) :
    set (p :: l) k v = if p.1 = k then (p.1, v) :: l else p :: set l k v := rfl

variable {l before after : List (K × V)} {k : K} {v : V} {p : K × V}

theorem set_of_notMem (h : k ∉ keys l) (v : V) : set l k v = l ++ [(k, v)] := by
  induction l with
  | nil => rfl
  | cons p l ih =>
    simp only [keys_cons, mem_cons, not_or] at h
    rw [set_cons, if_neg (Ne.symm h.1), ih h.2, cons_append]

theorem set_append_cons (h : k ∉ keys before) (v v' : V) :
    set (before ++ (k, v) :: after) k v' = before ++ (k, v') :: after := by
  induction before with
  | nil => simp [set_cons]
  | cons p before ih =>
    simp only [keys_cons, mem_cons, not_or] at h
    rw [cons_append, set_cons, if_neg (Ne.symm h.1), ih h.2, cons_append]

theorem mem_set (h : p ∈ set l k v) : p.2 = v ∨ p ∈ l := by
  induction l with
  | nil =>
    rw [set_nil, mem_singleton] at h
    exact .inl (congrArg Prod.snd h)
  | cons q l ih =>
    rw [set_cons] at h
    split at h
    · obtain rfl | h := mem_cons.mp h
      · exact .inl rfl
      · exact .inr (mem_cons_of_mem q h)
    · obtain rfl | h := mem_cons.mp h
      · exact .inr mem_cons_self
      · exact (ih h).imp_right (mem_cons_of_mem q)

theorem keys_set (l : List (K × V)) (k : K) (v : V) :
    keys (set l k v) = if k ∈ keys l then keys l else keys l ++ [k] := by
  induction l with
  | nil => simp
  | cons p l ih =>
    rw [set_cons]
    by_cases h : p.1 = k
    · simp [h]
    · simp only [if_neg h, keys_cons, ih, mem_cons, Ne.symm h, false_or]
      split <;> simp

theorem mem_keys_set {k' : K} : k' ∈ keys (set l k v) ↔ k' = k ∨ k' ∈ keys l := by
  rw [keys_set]
  split
  · rename_i h
    constructor
    · exact .inr
    · rintro (rfl | h')
      · exact h
      · exact h'
  · rw [mem_append, mem_singleton, or_comm]

theorem nodup_keys_set (h : (keys l).Nodup) (k : K) (v : V) : (keys (set l k v)).Nodup := by
  rw [keys_set]
  split
  · exact h
  rename_i hk
  exact nodup_append.mpr ⟨h, nodup_singleton k, by
    intro a ha b hb
    rw [mem_singleton] at hb
    rintro rfl
    exact hk (hb ▸ ha)⟩

theorem lookup_set_self (l : List (K × V)) (k : K) (v : V) : (set l k v).lookup k = some v := by
  induction l with
  | nil => simp
  | cons p l ih =>
    obtain ⟨k₀, v₀⟩ := p
    rw [set_cons]
    by_cases h : k₀ = k
    · simp [h]
    · rwa [if_neg h, lookup_cons, beq_eq_false_iff_ne.mpr (Ne.symm h)]

theorem lookup_set_of_ne (l : List (K × V)) {k' : K} (h : k' ≠ k) (v : V) :
    (set l k v).lookup k' = l.lookup k' := by
  induction l with
  | nil => simp [lookup_cons, beq_eq_false_iff_ne.mpr h]
  | cons p l ih =>
    obtain ⟨k₀, v₀⟩ := p
    rw [set_cons]
    by_cases h₀ : k₀ = k
    · rw [if_pos h₀, lookup_cons, lookup_cons, h₀, beq_eq_false_iff_ne.mpr h]
    · rw [if_neg h₀, lookup_cons, lookup_cons, ih]

omit [DecidableEq K] in
theorem notMem_of_nodup (h : (keys (before ++ p :: after)).Nodup) : p.1 ∉ keys before := by
  simp only [keys, map_append, map_cons, nodup_append] at h
  exact fun hmem => h.2.2 p.1 hmem p.1 mem_cons_self rfl

theorem lookup_of_mem (h : (keys l).Nodup) (hp : p ∈ l) : l.lookup p.1 = some p.2 := by
  induction l with
  | nil => cases hp
  | cons q l ih =>
    rw [keys_cons, nodup_cons] at h
    obtain rfl | hp := mem_cons.mp hp
    · rw [lookup_cons, beq_self_eq_true]
    have hne : p.1 ≠ q.1 := by
      intro heq
      exact h.1 (heq ▸ mem_map_of_mem hp)
    rw [lookup_cons, beq_eq_false_iff_ne.mpr hne]
    exact ih h.2 hp

theorem mem_of_lookup (h : l.lookup k = some v) : (k, v) ∈ l := by
  obtain ⟨_, _, rfl, -⟩ := lookup_eq_some_iff.mp h
  exact mem_append_right _ mem_cons_self

theorem isSome_lookup_iff : (l.lookup k).isSome = true ↔ k ∈ keys l := by
  rw [lookup_isSome_iff, keys, mem_map]
  refine exists_congr fun p => and_congr_right fun _ => ?_
  rw [beq_iff_eq, eq_comm]

theorem lookup_eq_none (h : k ∉ keys l) : l.lookup k = none := by
  rwa [← Option.not_isSome_iff_eq_none, isSome_lookup_iff]

theorem lookup_append_cons (h : k ∉ keys before) (v : V) :
    (before ++ (k, v) :: after).lookup k = some v := by
  rw [lookup_append, lookup_eq_none h, Option.none_or, lookup_cons_self]

/-- Lists without repeated keys have the same keys if they have the same length and the keys of
one are keys of the other. -/
theorem sameKeys_iff {W : Type*} {l' : List (K × W)} (h : (keys l).Nodup) (h' : (keys l').Nodup) :
    (l.length = l'.length ∧ ∀ k ∈ keys l, k ∈ keys l') ↔
      ∀ k, (l.lookup k).isSome = (l'.lookup k).isSome := by
  have hlen : l.length = l'.length ↔ (keys l).length = (keys l').length := by simp [keys]
  have hkeys : (∀ k, (l.lookup k).isSome = (l'.lookup k).isSome) ↔
      ∀ k, k ∈ keys l ↔ k ∈ keys l' := by
    refine forall_congr' fun k => ?_
    rw [Bool.eq_iff_iff, isSome_lookup_iff, isSome_lookup_iff]
  rw [hlen, hkeys]
  constructor
  · rintro ⟨hlen, hsub⟩
    have hperm := (h.subperm hsub).perm_of_length_le (Nat.le_of_eq hlen.symm)
    exact fun k => hperm.mem_iff
  · intro hiff
    have hperm := (perm_ext_iff_of_nodup h h').mpr hiff
    exact ⟨hperm.length_eq, fun k hk => (hiff k).mp hk⟩

theorem foldl_set (h : (keys (before ++ after)).Nodup) :
    after.foldl (fun out p => set out p.1 p.2) before = before ++ after := by
  induction after generalizing before with
  | nil => simp
  | cons p after ih =>
    rw [foldl_cons, set_of_notMem (notMem_of_nodup h), ih (by simpa using h)]
    simp

theorem forall₂_set {K' V' : Type*} [DecidableEq K'] {R : K × V → K' × V' → Prop}
    {l' : List (K' × V')} (h : List.Forall₂ R l l') {k' : K'} {v' : V'}
    (hkey : ∀ p q, R p q → (p.1 = k ↔ q.1 = k'))
    (hval : ∀ p q, R p q → p.1 = k → R (p.1, v) (q.1, v')) (hnew : R (k, v) (k', v')) :
    List.Forall₂ R (set l k v) (set l' k' v') := by
  induction h with
  | nil => exact .cons hnew .nil
  | @cons p q l l' hpq h ih =>
    rw [set_cons, set_cons]
    by_cases hp : p.1 = k
    · rw [if_pos hp, if_pos ((hkey p q hpq).mp hp)]
      exact .cons (hval p q hpq hp) h
    · rw [if_neg hp, if_neg (fun hq => hp ((hkey p q hpq).mpr hq))]
      exact .cons hpq ih

end Assoc
