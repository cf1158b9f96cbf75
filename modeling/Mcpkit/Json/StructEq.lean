import Mcpkit.Json.Clone
import Mcpkit.Json.Schema
import Mcpkit.Lib.Binary64Value

/-!
# Structural equality

Two values are equal up to the order of members if they have the same shape:
numbers of the same value, arrays that agree element by element, objects that
agree key by key.  `value_equal` compares sizes and looks up the keys of one
object in the other, which decides the same relation because no object has a key
twice.
-/

namespace Mcpkit.Json.JsonValue

open Option List

/-- Equality up to the order of members. -/
inductive StructEq : JsonValue → JsonValue → Prop
  | null : StructEq null null
  | bool (b : Bool) : StructEq (bool b) (bool b)
  | number {x y : FiniteDouble} (h : x.val.value = y.val.value) : StructEq (number x) (number y)
  | string (s : JString) : StructEq (string s) (string s)
  | array {xs ys : List JsonValue} (size : xs.length = ys.length)
      (items : ∀ (i : Nat) (x y : JsonValue), xs[i]? = some x → ys[i]? = some y → StructEq x y) :
      StructEq (array xs) (array ys)
  | object {xs ys : MemberList}
      (keys : ∀ k, (xs.lookup k).isSome = (ys.lookup k).isSome)
      (members : ∀ (k : JString) (x y : JsonValue), xs.lookup k = some x → ys.lookup k = some y →
        StructEq x y) :
      StructEq (object xs) (object ys)

namespace StructEq

theorem exists_lookup {xs ys : MemberList} {k : JString} {x : JsonValue}
    (keys : (xs.lookup k).isSome = (ys.lookup k).isSome) (h : xs.lookup k = some x) :
    ∃ y, ys.lookup k = some y := by
  rw [h] at keys
  exact isSome_iff_exists.mp keys.symm

theorem exists_getElem {xs ys : List JsonValue} {i : Nat} {x : JsonValue}
    (size : xs.length = ys.length) (h : xs[i]? = some x) : ∃ y, ys[i]? = some y := by
  obtain ⟨hi, -⟩ := List.getElem?_eq_some_iff.mp h
  exact ⟨ys[i], getElem?_eq_getElem (size ▸ hi)⟩

protected theorem refl (v : JsonValue) : StructEq v v := by
  induction v using JsonValue.inductionOn with
  | null => exact .null
  | bool b => exact .bool b
  | number d => exact .number rfl
  | string s => exact .string s
  | array items ih =>
    refine .array rfl fun i x y hx hy => ?_
    obtain rfl : x = y := some.inj (hx.symm.trans hy)
    exact ih x (mem_of_getElem? hx)
  | object members ih =>
    refine .object (fun _ => rfl) fun k x y hx hy => ?_
    obtain rfl : x = y := some.inj (hx.symm.trans hy)
    exact ih (k, x) (Assoc.mem_of_lookup hx)

protected theorem symm {a b : JsonValue} (h : StructEq a b) : StructEq b a := by
  induction h with
  | null => exact .null
  | bool b => exact .bool b
  | number h => exact .number h.symm
  | string s => exact .string s
  | array size _ ih => exact .array size.symm fun i x y hx hy => ih i y x hy hx
  | object keys _ ih => exact .object (fun k => (keys k).symm) fun k x y hx hy => ih k y x hy hx

protected theorem trans {a b c : JsonValue} (hab : StructEq a b) (hbc : StructEq b c) :
    StructEq a c := by
  induction hab generalizing c with
  | null | bool | string => exact hbc
  | number h =>
    cases hbc with
    | number h' => exact .number (h.trans h')
  | array size _ ih =>
    cases hbc with
    | array size' items' =>
      refine .array (size.trans size') fun i x z hx hz => ?_
      obtain ⟨y, hy⟩ := exists_getElem size hx
      exact ih i x y hx hy (items' i y z hy hz)
  | object keys _ ih =>
    cases hbc with
    | object keys' members' =>
      refine .object (fun k => (keys k).trans (keys' k)) fun k x z hx hz => ?_
      obtain ⟨y, hy⟩ := exists_lookup (keys k) hx
      exact ih k x y hx hy (members' k y z hy hz)

end StructEq

end Mcpkit.Json.JsonValue

namespace Mcpkit.Json

open JsonValue

variable {n : Nat}

theorem valueEqual_array_iff {xs ys : List JsonValue} :
    valueEqual (n + 1) (.array xs) (.array ys) = true ↔
      xs.length = ys.length ∧
        ∀ (i : Nat) (x y : JsonValue), xs[i]? = some x → ys[i]? = some y →
          valueEqual n x y = true := by
  simp only [valueEqual, Bool.and_eq_true, beq_iff_eq, List.all_eq_true]
  refine and_congr_right fun _ => ?_
  constructor
  · intro h i x y hx hy
    exact h (x, y) (List.mem_of_getElem? (List.getElem?_zip_eq_some.mpr ⟨hx, hy⟩))
  intro h p hp
  obtain ⟨i, hi⟩ := List.getElem?_of_mem hp
  obtain ⟨hx, hy⟩ := List.getElem?_zip_eq_some.mp hi
  exact h i p.1 p.2 hx hy

theorem valueEqual_object_iff {xs ys : MemberList} (hx : (Assoc.keys xs).Nodup)
    (hy : (Assoc.keys ys).Nodup) :
    valueEqual (n + 1) (.object xs) (.object ys) = true ↔
      (∀ k, (xs.lookup k).isSome = (ys.lookup k).isSome) ∧
        ∀ (k : JString) (x y : JsonValue), xs.lookup k = some x → ys.lookup k = some y →
          valueEqual n x y = true := by
  rw [← Assoc.sameKeys_iff hx hy]
  simp only [valueEqual, Bool.and_eq_true, beq_iff_eq, List.all_eq_true, and_assoc]
  refine and_congr_right fun _ => ?_
  constructor
  · intro h
    constructor
    · intro k hk
      obtain ⟨p, hp, rfl⟩ := List.mem_map.mp hk
      have hmember := h p hp
      rw [Assoc.lookup_of_mem hx hp] at hmember
      rw [← Assoc.isSome_lookup_iff]
      cases hw : ys.lookup p.1 with
      | none => simp [hw] at hmember
      | some w => rfl
    · intro k x y hk hk'
      have hmember := h (k, x) (Assoc.mem_of_lookup hk)
      simpa only [hk, hk'] using hmember
  · rintro ⟨hkeys, h⟩ p hp
    have hk := Assoc.lookup_of_mem hx hp
    obtain ⟨w, hw⟩ := Option.isSome_iff_exists.mp
      (Assoc.isSome_lookup_iff.mpr (hkeys p.1 (List.mem_map_of_mem hp)))
    rw [hk, hw]
    exact h p.1 p.2 w hk hw

theorem valueEqual_iff {a b : JsonValue} (hdepth : a.depth < n) (ha : a.DistinctKeys)
    (hb : b.DistinctKeys) : valueEqual n a b = true ↔ StructEq a b := by
  induction n generalizing a b with
  | zero => omega
  | succ n ih =>
    constructor
    · intro h
      cases a <;> cases b <;> try (simp [valueEqual] at h; done)
      case null.null => exact .null
      case bool.bool x y =>
        obtain rfl : x = y := beq_iff_eq.mp h
        exact .bool x
      case number.number x y => exact .number ((Binary64.eq_iff_value x.finite y.finite).mp h)
      case string.string x y =>
        obtain rfl : x = y := of_decide_eq_true h
        exact .string x
      case array.array xs ys =>
        obtain ⟨size, h⟩ := valueEqual_array_iff.mp h
        refine .array size fun i x y hx hy => ?_
        have hlt := depth_lt_of_getElem hx
        exact (ih (by omega) (ha.getElem hx) (hb.getElem hy)).mp (h i x y hx hy)
      case object.object xs ys =>
        obtain ⟨keys, h⟩ := (valueEqual_object_iff ha.1 hb.1).mp h
        refine .object keys fun k x y hx hy => ?_
        have hlt := depth_lt_of_lookup hx
        exact (ih (by omega) (ha.lookup hx) (hb.lookup hy)).mp (h k x y hx hy)
    · intro h
      cases h with
      | null => rfl
      | bool b | string s => simp [valueEqual]
      | @number x y h => exact (Binary64.eq_iff_value x.finite y.finite).mpr h
      | array size h =>
        refine valueEqual_array_iff.mpr ⟨size, fun i x y hx hy => ?_⟩
        have hlt := depth_lt_of_getElem hx
        exact (ih (by omega) (ha.getElem hx) (hb.getElem hy)).mpr (h i x y hx hy)
      | object keys h =>
        refine (valueEqual_object_iff ha.1 hb.1).mpr ⟨keys, fun k x y hx hy => ?_⟩
        have hlt := depth_lt_of_lookup hx
        exact (ih (by omega) (ha.lookup hx) (hb.lookup hy)).mpr (h k x y hx hy)

end Mcpkit.Json
