import Mcpkit.Json.SchemaSpec

/-!
# The order of members and the verdict of a schema

Schemas and instances may be built with their members in any order.  The verdict
of the checker is the same for schemas and instances that `value_equal` equates,
whether or not the operands of the schema have the right types.
-/

namespace Mcpkit.Json

open JsonValue List

variable {a b s' v' s v : JsonValue}

namespace JsonValue.StructEq

theorem typeOf_eq (h : StructEq a b) : a.typeOf = b.typeOf := by cases h <;> rfl

variable {y : JsonValue}

theorem objectGet (h : StructEq a b) {k : JString} (hy : b.objectGet k = some y) :
    ∃ x, a.objectGet k = some x ∧ StructEq x y := by
  cases h with
  | object keys members =>
    obtain ⟨x, hx⟩ := exists_lookup (keys k).symm hy
    exact ⟨x, hx, members k x y hx hy⟩
  | _ => cases hy

theorem exists_mem {xs ys : List JsonValue} (h : StructEq (.array xs) (.array ys)) (hy : y ∈ ys) :
    ∃ x ∈ xs, StructEq x y := by
  cases h with
  | array size items =>
    obtain ⟨i, hi⟩ := getElem?_of_mem hy
    obtain ⟨x, hx⟩ := exists_getElem size.symm hi
    exact ⟨x, mem_of_getElem? hx, items i x y hx hi⟩

theorem hasType (h : StructEq a b) {t : JString} (ht : HasType t a) : HasType t b := by
  cases h with
  | number hvalue =>
    rw [HasType] at ht ⊢
    rwa [← hvalue]
  | _ => exact ht

end JsonValue.StructEq

theorem PartsConform.congr {R R' : JsonValue → JsonValue → Prop} (h : PartsConform R s v)
    (hs : StructEq s s') (hv : StructEq v v') (hds : s.DistinctKeys) (hds' : s'.DistinctKeys)
    (hdv : v.DistinctKeys) (hdv' : v'.DistinctKeys)
    (hR : ∀ sub sub' val val', StructEq sub sub' → StructEq val val' → sub.DistinctKeys →
      sub'.DistinctKeys → val.DistinctKeys → val'.DistinctKeys → R sub val → R' sub' val') :
    PartsConform R' s' v' := by
  cases hv with
  | @object ms ms' keys members =>
    obtain ⟨hrequired, hobject, hproperties⟩ := h
    refine ⟨fun x' hx' => ?_, fun x' hx' => ?_, fun props' k sub' val' hprops' hsub' hval' => ?_⟩
    · obtain ⟨x, hx, heq⟩ := hs.objectGet hx'
      obtain ⟨names, rfl, hnames⟩ := hrequired x hx
      cases heq with
      | @array _ names' size items =>
        refine ⟨names', rfl, fun e' he' => ?_⟩
        obtain ⟨e, he, hee⟩ := StructEq.exists_mem (.array size items) he'
        obtain ⟨name, rfl, hname⟩ := hnames e he
        cases hee
        exact ⟨name, rfl, by rwa [← keys name]⟩
    · obtain ⟨x, hx, heq⟩ := hs.objectGet hx'
      rw [← heq.typeOf_eq]
      exact hobject x hx
    · obtain ⟨x, hx, heq⟩ := hs.objectGet hprops'
      obtain ⟨val, hval⟩ := StructEq.exists_lookup (keys k).symm hval'
      cases heq with
      | @object props _ pkeys pmembers =>
        obtain ⟨sub, hsub⟩ := StructEq.exists_lookup (pkeys k).symm hsub'
        exact hR sub sub' val val' (pmembers k sub sub' hsub hsub') (members k val val' hval hval')
          ((hds.objectGet hx).lookup hsub) ((hds'.objectGet hprops').lookup hsub')
          (hdv.lookup hval) (hdv'.lookup hval') (hproperties props k sub val hx hsub hval)
  | @array vs vs' size items =>
    intro sub' val' hsub' hval'
    obtain ⟨sub, hsub, heq⟩ := hs.objectGet hsub'
    obtain ⟨val, hval, hvv⟩ := StructEq.exists_mem (.array size items) hval'
    exact hR sub sub' val val' heq hvv (hds.objectGet hsub) (hds'.objectGet hsub') (hdv.mem hval)
      (hdv'.mem hval') (h sub val hsub hval)
  | @number d d' hvalue =>
    obtain ⟨hminimum, hmaximum⟩ := h
    constructor
    · intro lo' hlo'
      obtain ⟨x, hx, heq⟩ := hs.objectGet hlo'
      cases heq with
      | number hlo => exact hlo ▸ hvalue ▸ hminimum _ hx
    intro hi' hhi'
    obtain ⟨x, hx, heq⟩ := hs.objectGet hhi'
    cases heq with
    | number hhi => exact hhi ▸ hvalue ▸ hmaximum _ hx
  | _ => trivial

theorem Passes.congr {n : Nat} (h : Passes n s v) (hs : StructEq s s') (hv : StructEq v v')
    (hds : s.DistinctKeys) (hds' : s'.DistinctKeys) (hdv : v.DistinctKeys)
    (hdv' : v'.DistinctKeys) : Passes n s' v' := by
  induction n generalizing s s' v v' with
  | zero => exact h
  | succ n ih =>
    refine ⟨hs.typeOf_eq ▸ h.object, fun x' hx' => ?_, fun x' hx' => ?_, ?_⟩
    · obtain ⟨x, hx, heq⟩ := hs.objectGet hx'
      obtain ⟨t, rfl, htype⟩ := h.type x hx
      cases heq
      exact ⟨t, rfl, htype.1, hv.hasType htype.2⟩
    · obtain ⟨x, hx, heq⟩ := hs.objectGet hx'
      obtain ⟨vs, rfl, hmem⟩ := h.enum x hx
      have hdvs := hds.objectGet hx
      have hdvs' := hds'.objectGet hx'
      obtain ⟨w, hw, hvw⟩ := (exists_valueEqual_iff hdv hdvs).mp hmem
      cases heq with
      | @array _ vs' size items =>
        obtain ⟨w', hw', hww⟩ := StructEq.exists_mem (.symm (.array size items)) hw
        refine ⟨vs', rfl, (exists_valueEqual_iff hdv' hdvs').mpr ⟨w', hw', ?_⟩⟩
        exact hv.symm.trans (hvw.trans hww.symm)
    · refine h.parts.congr hs hv hds hds' hdv hdv' ?_
      intro sub sub' val val' hsub hval hd hd' hd₂ hd₂' hpasses
      exact ih hpasses hsub hval hd hd' hd₂ hd₂'

/-- `value_equal` with enough depth for its first value. -/
def valuesEqual (a b : JsonValue) : Bool := valueEqual (a.depth + 1) a b

theorem valuesEqual_iff (ha : a.DistinctKeys) (hb : b.DistinctKeys) :
    valuesEqual a b = true ↔ StructEq a b :=
  valueEqual_iff (Nat.lt_succ_self _) ha hb

theorem mcpSchemaValidate_of_structEq (hs : StructEq s s') (hv : StructEq v v')
    (hds : s.DistinctKeys) (hds' : s'.DistinctKeys) (hdv : v.DistinctKeys) (hdv' : v'.DistinctKeys)
    (h : mcpSchemaValidate s v = true) : mcpSchemaValidate s' v' = true := by
  rw [mcpSchemaValidate_iff] at h ⊢
  exact (h.congr hs hv hds hds' hdv hdv').of_depth_lt (Nat.lt_succ_self _)

/-- On values without repeated keys `value_equal` is an equivalence, and schemas and instances it
equates get the same verdict. -/
theorem valuesEqual_equivalence_and_verdict :
    Equivalence (fun a b : {v : JsonValue // v.DistinctKeys} => valuesEqual a.1 b.1 = true) ∧
      ∀ s s' v v' : {v : JsonValue // v.DistinctKeys}, valuesEqual s.1 s'.1 = true →
        valuesEqual v.1 v'.1 = true →
        mcpSchemaValidate s.1 v.1 = mcpSchemaValidate s'.1 v'.1 := by
  have hequal : ∀ a b : {v : JsonValue // v.DistinctKeys},
      valuesEqual a.1 b.1 = true ↔ StructEq a.1 b.1 := fun a b => valuesEqual_iff a.2 b.2
  simp only [hequal]
  refine ⟨⟨fun a => .refl a.1, StructEq.symm, StructEq.trans⟩, ?_⟩
  intro s s' v v' hs hv
  rw [Bool.eq_iff_iff]
  constructor
  · exact mcpSchemaValidate_of_structEq hs hv s.2 s'.2 v.2 v'.2
  · exact mcpSchemaValidate_of_structEq hs.symm hv.symm s'.2 s.2 v'.2 v.2

/-- The members of the schema `{"type": "object", "required": ["a"]}`. -/
def objectWithA : MemberList :=
  [("type", .string "object"), ("required", .array [.string "a"])]

/-- The schema with its members in the other order. -/
theorem mcpSchemaValidate_reverse :
    valuesEqual (.object objectWithA) (.object objectWithA.reverse) = true ∧
      mcpSchemaValidate (.object objectWithA) (.object [("a", .null)]) =
        mcpSchemaValidate (.object objectWithA.reverse) (.object [("a", .null)]) := by
  have hschema : (JsonValue.object objectWithA).DistinctKeys :=
    ⟨by decide, trivial, ⟨trivial, trivial⟩, trivial⟩
  have hreverse : (JsonValue.object objectWithA.reverse).DistinctKeys :=
    ⟨by decide, ⟨trivial, trivial⟩, trivial, trivial⟩
  have hinst : (JsonValue.object [("a", .null)]).DistinctKeys :=
    ⟨nodup_singleton _, trivial, trivial⟩
  have hequal : valuesEqual (.object objectWithA) (.object objectWithA.reverse) = true := by
    decide +kernel
  have hsame : valuesEqual (.object [("a", .null)]) (.object [("a", .null)]) = true := by
    decide +kernel
  exact ⟨hequal, valuesEqual_equivalence_and_verdict.2 ⟨_, hschema⟩ ⟨_, hreverse⟩ ⟨_, hinst⟩
    ⟨_, hinst⟩ hequal hsame⟩

end Mcpkit.Json
