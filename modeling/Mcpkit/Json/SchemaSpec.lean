import Mcpkit.Json.StructEq

/-!
# What a schema asks of an instance

A schema is a set of demands, one for each keyword, and an instance satisfies it if it meets them.
The checker reports the first demand that is not met, with the path to it.  Its verdict is
satisfaction, for schemas whose keywords have operands of the right type, and the path has no part
in it.  `Conforms` is one level of the checker; the results are inductions over the levels.
-/

namespace Mcpkit.Json

open JsonValue List Assoc Bool Binary64 Except

/-- The type names of JSON Schema that a value has; an integer is of magnitude at most
`2 ^ 53 - 1`. -/
def HasType (type : JString) : JsonValue → Prop
  | .null => type = "null"
  | .bool _ => type = "boolean"
  | .number d => type = "number" ∨
      type = "integer" ∧ ∃ n : Int, n.natAbs ≤ 9007199254740991 ∧ d.val.value = n
  | .string _ => type = "string"
  | .array _ => type = "array"
  | .object _ => type = "object"

/-- The types the checker knows: all but `null`. -/
def HasSupportedType (type : JString) (v : JsonValue) : Prop := type ≠ "null" ∧ HasType type v

theorem unitsAbs_maxSafeInteger :
    maxSafeInteger.unitsAbs = 9007199254740991 * unitsPerOne :=
  unitsAbs_ofNat (by decide)

variable {d : Binary64} {v : JsonValue} {ms : MemberList} {vs : List JsonValue}
  {t : String}

theorem outOfRange_iff (h : d.isFinite = true) :
    (!d.isFinite || d.lt maxSafeInteger.neg || maxSafeInteger.lt d) = true ↔
      9007199254740991 * unitsPerOne < d.unitsAbs := by
  have hfinite : maxSafeInteger.isFinite = true := by decide +kernel
  have hpos : maxSafeInteger.negative = false := negative_ofNat _
  rw [← unitsAbs_maxSafeInteger, ← lt_neg_or_lt_iff h hfinite hpos]
  simp [h]

theorem isIntegerValue_iff (h : d.isFinite = true) :
    isIntegerValue d = true ↔ ∃ n : Int, n.natAbs ≤ 9007199254740991 ∧ d.value = n := by
  unfold isIntegerValue
  split
  · rename_i hout
    rw [outOfRange_iff h] at hout
    refine iff_of_false false_ne_true ?_
    rintro ⟨n, hn, hvalue⟩
    rw [unitsAbs_of_value_eq_int hvalue] at hout
    exact absurd (Nat.mul_le_mul_right _ hn) (not_le.mpr hout)
  rename_i hin
  rw [outOfRange_iff h, not_lt] at hin
  have htrunc := natAbs_trunc_le hin
  rw [eq_iff_value h (isFinite_ofInt (by omega)), value_ofInt (by omega)]
  constructor
  · intro hvalue
    exact ⟨d.trunc, htrunc, hvalue⟩
  · rintro ⟨n, -, hvalue⟩
    rwa [trunc_of_value_eq_int hvalue]

theorem typeMatches_eq_true_iff {type : JString} :
    typeMatches type v = some true ↔ HasSupportedType type v := by
  unfold typeMatches HasSupportedType
  cases v with
  | number d =>
    simp only [HasType, ← isIntegerValue_iff d.finite]
    split_ifs <;> simp_all +decide [typeOf, numberValue, d.finite]
  | _ => split_ifs <;> simp_all +decide [typeOf, numberValue, HasType]

/-- What the keywords for the type of the instance ask, with `R` for the verdicts on its parts. -/
def PartsConform (R : JsonValue → JsonValue → Prop) (schema : JsonValue) : JsonValue → Prop
  | .object ms =>
    (∀ x, schema.objectGet "required" = some x →
      ∃ names, x = .array names ∧ ∀ e ∈ names, ∃ n, e = .string n ∧ (ms.lookup n).isSome = true) ∧
    (∀ x, schema.objectGet "properties" = some x → x.typeOf = .object) ∧
    ∀ props k sub val, schema.objectGet "properties" = some (.object props) →
      props.lookup k = some sub → ms.lookup k = some val → R sub val
  | .array vs => ∀ sub val, schema.objectGet "items" = some sub → val ∈ vs → R sub val
  | .number d =>
    (∀ lo, schema.objectGet "minimum" = some (.number lo) → lo.val.value ≤ d.val.value) ∧
    ∀ hi, schema.objectGet "maximum" = some (.number hi) → d.val.value ≤ hi.val.value
  | _ => True

/-- What `check` asks of an instance at one level. -/
structure Conforms (R : JsonValue → JsonValue → Prop) (schema inst : JsonValue) : Prop where
  object : schema.typeOf = .object
  type : ∀ x, schema.objectGet "type" = some x → ∃ t, x = .string t ∧ HasSupportedType t inst
  enum : ∀ x, schema.objectGet "enum" = some x →
    ∃ vs, x = .array vs ∧ ∃ v ∈ vs, valueEqual (inst.depth + 1) inst v = true
  parts : PartsConform R schema inst

/-- The verdict of the checker with a bound on the levels. -/
def Passes : Nat → JsonValue → JsonValue → Prop
  | 0, _, _ => False
  | n + 1, schema, inst => Conforms (Passes n) schema inst

section

variable {ε : Type}

theorem isOk_bind (x : Except ε Unit) (f : Unit → Except ε Unit) :
    (x >>= f).isOk = true ↔ x.isOk = true ∧ (f ()).isOk = true := by
  cases x with
  | error e | ok u => simp [bind, Except.bind, Except.isOk, Except.toBool]

theorem isOk_forM {α : Type} (l : List α) (f : α → Except ε Unit) :
    (l.forM f).isOk = true ↔ ∀ a ∈ l, (f a).isOk = true := by
  induction l with
  | nil => simp [pure, Except.pure, Except.isOk, Except.toBool]
  | cons a l ih =>
    have hcons : (a :: l).forM f = (f a >>= fun _ => l.forM f) := rfl
    rw [hcons, isOk_bind, ih, forall_mem_cons]

@[simp] theorem isOk_ok (u : Unit) : (ok u : Except ε Unit).isOk = true := rfl

@[simp] theorem isOk_error (e : ε) : (error e : Except ε Unit).isOk = false := rfl

end

variable {schema inst : JsonValue} {path : Bytes} {n : Nat} {R : JsonValue → JsonValue → Prop}

theorem isOk_checkType :
    (checkType schema inst path).isOk = true ↔
      ∀ x, schema.objectGet "type" = some x → ∃ t, x = .string t ∧
        HasSupportedType t inst := by
  unfold checkType
  cases schema.objectGet "type" with
  | none => simp
  | some x =>
    cases x with
    | string t =>
      simp only [stringValue, Option.some.injEq, forall_eq', JsonValue.string.injEq,
        exists_eq_left', ← typeMatches_eq_true_iff]
      cases typeMatches t inst with
      | none => simp
      | some b => cases b <;> simp
    | _ => simp [stringValue]

theorem isOk_checkEnum :
    (checkEnum schema inst path).isOk = true ↔
      ∀ x, schema.objectGet "enum" = some x →
        ∃ vs, x = .array vs ∧ ∃ v ∈ vs, valueEqual (inst.depth + 1) inst v = true := by
  unfold checkEnum
  cases schema.objectGet "enum" with
  | none => simp
  | some x =>
    cases x with
    | array vs =>
      simp only [Option.some.injEq, forall_eq', JsonValue.array.injEq, exists_eq_left',
        ← any_eq_true]
      split <;> simp_all
    | _ => simp

theorem isOk_checkRequired :
    (checkRequired schema (.object ms) path).isOk = true ↔
      ∀ x, schema.objectGet "required" = some x →
        ∃ names, x = .array names ∧
          ∀ e ∈ names, ∃ n, e = .string n ∧ (ms.lookup n).isSome = true := by
  unfold checkRequired
  cases schema.objectGet "required" with
  | none => simp
  | some x =>
    cases x with
    | array names =>
      simp only [Option.some.injEq, forall_eq', JsonValue.array.injEq, exists_eq_left']
      have hname : ∀ e : JsonValue, (e.stringValue.any ((JsonValue.object ms).objectHas ·)) = true ↔
            ∃ n, e = .string n ∧ (ms.lookup n).isSome = true := by
        intro e
        cases e <;> simp [stringValue, objectHas, objectGet]
      simp only [← hname, ← all_eq_true]
      split <;> simp_all
    | _ => simp

theorem isOk_checkBounds {d : FiniteDouble} :
    (checkBounds schema d path).isOk = true ↔
      (∀ lo, schema.objectGet "minimum" = some (.number lo) →
          lo.val.value ≤ d.val.value) ∧
        ∀ hi, schema.objectGet "maximum" = some (.number hi) →
          d.val.value ≤ hi.val.value := by
  -- a bound that is a number is kept unless the comparison of doubles says otherwise
  have hbound : ∀ (key : JString) (f : FiniteDouble → Bool),
      ((schema.objectGet key).bind (·.numberValue)).any f = false ↔
        ∀ b, schema.objectGet key = some (.number b) → f b = false := by
    intro key f
    rw [← not_eq_true, Option.any_eq_true]
    simp [Option.bind_eq_some_iff, numberValue_eq_some_iff]
  have hlt : ∀ x y : FiniteDouble, x.val.lt y.val = false ↔ y.val.value ≤ x.val.value := by
    intro x y
    rw [← not_eq_true, lt_iff_value x.finite y.finite, not_lt]
  simp only [← hlt, ← hbound]
  unfold checkBounds
  dsimp only
  split_ifs <;> simp_all

def checkProperties (n : Nat) (schema : JsonValue) (ms : MemberList)
    (path : Bytes) : Except SchemaFailure Unit :=
  match schema.objectGet "properties" with
  | none => .ok ()
  | some (.object props) =>
    props.forM fun p =>
      match props.lookup p.1, (JsonValue.object ms).objectGet p.1 with
      | some sub, some val => check n sub val (propertyPath path p.1)
      | _, _ => .ok ()
  | some _ => .error ⟨path, "properties is not an object"⟩

def checkItems (n : Nat) (schema : JsonValue) (vs : List JsonValue) (path : Bytes) :
    Except SchemaFailure Unit :=
  match schema.objectGet "items" with
  | none => .ok ()
  | some items => vs.zipIdx.forM fun p => check n items p.1 (elementPath path p.2)

/-- The part of `check` that depends on the type of the instance. -/
def checkParts (n : Nat) (schema inst : JsonValue) (path : Bytes) : Except SchemaFailure Unit :=
  match inst with
  | .object ms => do
    checkRequired schema inst path
    checkProperties n schema ms path
  | .array vs => checkItems n schema vs path
  | .number d => checkBounds schema d path
  | _ => .ok ()

theorem isOk_check_succ :
    (check (n + 1) schema inst path).isOk = true ↔
      schema.typeOf = .object ∧ (checkType schema inst path).isOk = true ∧
        (checkEnum schema inst path).isOk = true ∧ (checkParts n schema inst path).isOk = true := by
  by_cases hobject : schema.typeOf = .object
  · have hcheck : check (n + 1) schema inst path = (do
        checkType schema inst path
        checkEnum schema inst path
        checkParts n schema inst path) := by
      cases inst <;> simp only [check, hobject, ne_eq, not_true_eq_false, if_false] <;> rfl
    rw [hcheck, isOk_bind, isOk_bind]
    exact (and_iff_right hobject).symm
  · have hcheck : (check (n + 1) schema inst path).isOk = false := by
      cases inst <;> simp only [check, hobject, ne_eq, not_false_eq_true, if_true] <;> rfl
    rw [hcheck]
    exact iff_of_false false_ne_true fun h => hobject h.1

/-- The checker with the bound `n` gives the verdict `R`, whatever the path. -/
def Decides (n : Nat) (R : JsonValue → JsonValue → Prop) : Prop :=
  ∀ (schema inst : JsonValue) (path : Bytes), (check n schema inst path).isOk = true ↔ R schema inst

theorem Decides.isOk_checkProperties (ih : Decides n R) :
    (checkProperties n schema ms path).isOk = true ↔
      (∀ x, schema.objectGet "properties" = some x → x.typeOf = .object) ∧
        ∀ props k sub val, schema.objectGet "properties" = some (.object props) →
          props.lookup k = some sub → ms.lookup k = some val → R sub val := by
  unfold checkProperties
  split
  · rename_i hnone
    simp [hnone]
  · rename_i props hprops
    rw [isOk_forM, hprops]
    constructor
    · intro h
      refine ⟨fun x hx => by cases hx; rfl, fun props' k sub val hprops' hsub hval => ?_⟩
      cases hprops'
      have hmember := h (k, sub) (mem_of_lookup hsub)
      simp only [objectGet, hsub, hval] at hmember
      exact (ih _ _ _).mp hmember
    rintro ⟨-, h⟩ p hp
    cases hsub : props.lookup p.1 with
    | none => rfl
    | some sub =>
      cases hval : (JsonValue.object ms).objectGet p.1 with
      | none => rfl
      | some val => exact (ih _ _ _).mpr (h props p.1 sub val rfl hsub hval)
  · rename_i x hnot hx
    refine iff_of_false false_ne_true ?_
    rintro ⟨h, -⟩
    have htype := h x hx
    cases x with
    | object props => exact hnot props rfl
    | _ => cases htype

theorem Decides.isOk_checkItems (ih : Decides n R) :
    (checkItems n schema vs path).isOk = true ↔
      ∀ sub val, schema.objectGet "items" = some sub → val ∈ vs → R sub val := by
  unfold checkItems
  split
  · rename_i hnone
    simp [hnone]
  rename_i items hitems
  rw [isOk_forM, hitems]
  constructor
  · intro h sub val hsub hval
    cases hsub
    obtain ⟨i, hi⟩ := getElem?_of_mem hval
    exact (ih _ _ _).mp (h (val, i) (mk_mem_zipIdx_iff_getElem?.mpr hi))
  · rintro h ⟨val, i⟩ hp
    have hval := mem_of_getElem? (mk_mem_zipIdx_iff_getElem?.mp hp)
    exact (ih _ _ _).mpr (h items val rfl hval)

theorem Decides.isOk_checkParts (ih : Decides n R) :
    (checkParts n schema inst path).isOk = true ↔ PartsConform R schema inst := by
  cases inst with
  | object ms =>
    rw [checkParts, isOk_bind, isOk_checkRequired, ih.isOk_checkProperties]
    rfl
  | array vs => exact ih.isOk_checkItems
  | number d => exact isOk_checkBounds
  | _ => exact iff_of_true rfl trivial

theorem Decides.succ (ih : Decides n R) : Decides (n + 1) (Conforms R) := by
  intro schema inst path
  rw [isOk_check_succ, isOk_checkType, isOk_checkEnum, ih.isOk_checkParts]
  constructor
  · rintro ⟨hobject, htype, henum, hparts⟩
    exact ⟨hobject, htype, henum, hparts⟩
  · rintro ⟨hobject, htype, henum, hparts⟩
    exact ⟨hobject, htype, henum, hparts⟩

theorem decides_passes (n : Nat) : Decides n (Passes n) := by
  induction n with
  | zero => exact fun _ _ _ => iff_of_false false_ne_true id
  | succ n ih => exact ih.succ

theorem mcpSchemaValidate_iff :
    mcpSchemaValidate schema inst = true ↔ Passes (schema.depth + 1) schema inst :=
  decides_passes _ _ _ _

theorem PartsConform.mono {R' : JsonValue → JsonValue → Prop} (h : PartsConform R schema inst)
    (hR : ∀ sub val, sub.depth < schema.depth → R sub val → R' sub val) :
    PartsConform R' schema inst := by
  cases inst with
  | object ms =>
    obtain ⟨hrequired, hobject, hproperties⟩ := h
    refine ⟨hrequired, hobject, fun props k sub val hprops hsub hval => ?_⟩
    have hdepth := (depth_lt_of_lookup hsub).trans (depth_lt_of_objectGet hprops)
    exact hR sub val hdepth (hproperties props k sub val hprops hsub hval)
  | array vs =>
    intro sub val hsub hval
    exact hR sub val (depth_lt_of_objectGet hsub) (h sub val hsub hval)
  | _ => exact h

theorem Passes.of_depth_lt {m : Nat} (h : Passes n schema inst) (hm : schema.depth < m) :
    Passes m schema inst := by
  induction m generalizing n schema inst with
  | zero => omega
  | succ m ih =>
    cases n with
    | zero => exact h.elim
    | succ n =>
      refine ⟨h.object, h.type, h.enum, h.parts.mono fun sub val hsub hpasses => ?_⟩
      exact ih hpasses (by omega)

/-- The instance meets every demand of the schema; `T` says which types a value has. -/
inductive Satisfies (T : JString → JsonValue → Prop) : JsonValue → JsonValue → Prop
  | intro {schema inst : JsonValue}
      (type : ∀ t, schema.objectGet "type" = some (.string t) → T t inst)
      (enum : ∀ vs, schema.objectGet "enum" = some (.array vs) → ∃ v ∈ vs, StructEq inst v)
      (required : ∀ ms names n, inst = .object ms →
        schema.objectGet "required" = some (.array names) → .string n ∈ names →
        n ∈ keys ms)
      (properties : ∀ ms props k sub val, inst = .object ms →
        schema.objectGet "properties" = some (.object props) → props.lookup k = some sub →
        ms.lookup k = some val → Satisfies T sub val)
      (items : ∀ vs sub val, inst = .array vs → schema.objectGet "items" = some sub →
        val ∈ vs → Satisfies T sub val)
      (minimum : ∀ d lo, inst = .number d →
        schema.objectGet "minimum" = some (.number lo) → lo.val.value ≤ d.val.value)
      (maximum : ∀ d hi, inst = .number d →
        schema.objectGet "maximum" = some (.number hi) → d.val.value ≤ hi.val.value) :
      Satisfies T schema inst

/-- A schema whose keywords have operands of the right type at every level. -/
inductive WellTyped : JsonValue → Prop
  | intro {schema : JsonValue} (object : schema.typeOf = .object)
      (type : ∀ x, schema.objectGet "type" = some x → ∃ t, x = .string t)
      (enum : ∀ x, schema.objectGet "enum" = some x → ∃ vs, x = .array vs)
      (required : ∀ x, schema.objectGet "required" = some x →
        ∃ names, x = .array names ∧ ∀ e ∈ names, ∃ n, e = .string n)
      (propertiesObject : ∀ x, schema.objectGet "properties" = some x → x.typeOf = .object)
      (properties : ∀ props k sub,
        schema.objectGet "properties" = some (.object props) → props.lookup k = some sub →
        WellTyped sub)
      (items : ∀ sub, schema.objectGet "items" = some sub → WellTyped sub)
      (minimum : ∀ x, schema.objectGet "minimum" = some x → ∃ lo, x = .number lo)
      (maximum : ∀ x, schema.objectGet "maximum" = some x → ∃ hi, x = .number hi) :
      WellTyped schema

theorem exists_valueEqual_iff (hinst : inst.DistinctKeys)
    (hvs : (JsonValue.array vs).DistinctKeys) :
    (∃ v ∈ vs, valueEqual (inst.depth + 1) inst v = true) ↔ ∃ v ∈ vs, StructEq inst v :=
  exists_congr fun _ => and_congr_right fun hv =>
    valueEqual_iff (Nat.lt_succ_self _) hinst (hvs.mem hv)

theorem Passes.satisfies (h : Passes n schema inst) (hschema : schema.DistinctKeys)
    (hinst : inst.DistinctKeys) : Satisfies HasSupportedType schema inst := by
  induction n generalizing schema inst with
  | zero => exact h.elim
  | succ n ih =>
    refine .intro ?_ ?_ ?_ ?_ ?_ ?_ ?_
    · intro t ht
      obtain ⟨t', heq, htype⟩ := h.type _ ht
      cases heq
      exact htype
    · intro vs hvs
      obtain ⟨vs', heq, hmem⟩ := h.enum _ hvs
      cases heq
      exact (exists_valueEqual_iff hinst (hschema.objectGet hvs)).mp hmem
    · rintro ms names name rfl hnames hname
      obtain ⟨names', heq, hall⟩ := h.parts.1 _ hnames
      cases heq
      obtain ⟨name', heq, hsome⟩ := hall _ hname
      cases heq
      exact isSome_lookup_iff.mp hsome
    · rintro ms props k sub val rfl hprops hsub hval
      exact ih (h.parts.2.2 props k sub val hprops hsub hval)
        ((hschema.objectGet hprops).lookup hsub) (hinst.lookup hval)
    · rintro vs sub val rfl hsub hval
      exact ih (h.parts sub val hsub hval) (hschema.objectGet hsub) (hinst.mem hval)
    · rintro d lo rfl hlo
      exact h.parts.1 lo hlo
    · rintro d hi rfl hhi
      exact h.parts.2 hi hhi

theorem Satisfies.passes (h : Satisfies HasSupportedType schema inst) (hn : schema.depth < n)
    (hwell : WellTyped schema) (hschema : schema.DistinctKeys) (hinst : inst.DistinctKeys) :
    Passes n schema inst := by
  induction n generalizing schema inst with
  | zero => omega
  | succ n ih =>
    obtain ⟨htype, henum, hrequired, hproperties, hitems, hminimum, hmaximum⟩ := h
    obtain ⟨wobject, wtype, wenum, wrequired, wpropertiesObject, wproperties, witems, -, -⟩ := hwell
    refine ⟨wobject, ?_, ?_, ?_⟩
    · intro x hx
      obtain ⟨t, rfl⟩ := wtype x hx
      exact ⟨t, rfl, htype t hx⟩
    · intro x hx
      obtain ⟨vs, rfl⟩ := wenum x hx
      exact ⟨vs, rfl, (exists_valueEqual_iff hinst (hschema.objectGet hx)).mpr (henum vs hx)⟩
    cases inst with
    | object ms =>
      refine ⟨fun x hx => ?_, wpropertiesObject, fun props k sub val hprops hsub hval => ?_⟩
      · obtain ⟨names, rfl, hstrings⟩ := wrequired x hx
        refine ⟨names, rfl, fun e he => ?_⟩
        obtain ⟨name, rfl⟩ := hstrings e he
        exact ⟨name, rfl, isSome_lookup_iff.mpr (hrequired ms names name rfl hx he)⟩
      have hdepth := (depth_lt_of_lookup hsub).trans (depth_lt_of_objectGet hprops)
      exact ih (hproperties ms props k sub val rfl hprops hsub hval) (by omega)
        (wproperties props k sub hprops hsub) ((hschema.objectGet hprops).lookup hsub)
        (hinst.lookup hval)
    | array vs =>
      intro sub val hsub hval
      have hdepth := depth_lt_of_objectGet hsub
      exact ih (hitems vs sub val rfl hsub hval) (by omega) (witems sub hsub)
        (hschema.objectGet hsub) (hinst.mem hval)
    | number d => exact ⟨fun lo => hminimum d lo rfl, fun hi => hmaximum d hi rfl⟩
    | _ => trivial

theorem fst_mcpSchemaValidateVerbose (schema inst : JsonValue) (cap : Option Nat) :
    (mcpSchemaValidateVerbose schema inst cap).1 = mcpSchemaValidate schema inst := by
  unfold mcpSchemaValidateVerbose mcpSchemaValidate
  split <;> rename_i h _ <;> rw [h] <;> rfl

/-- For a schema whose operands have the right types the verdict is satisfaction, with the type
`null` satisfied by nothing, whatever the error buffer and the path. -/
theorem mcpSchemaValidate_satisfies {schema inst : JsonValue} (hwell : WellTyped schema)
    (hschema : schema.DistinctKeys) (hinst : inst.DistinctKeys) :
    (mcpSchemaValidate schema inst = true ↔ Satisfies HasSupportedType schema inst) ∧
      (∀ cap, (mcpSchemaValidateVerbose schema inst cap).1 = mcpSchemaValidate schema inst) ∧
      ∀ path, (check (schema.depth + 1) schema inst path).isOk = mcpSchemaValidate schema inst := by
  refine ⟨?_, fst_mcpSchemaValidateVerbose schema inst, fun path => ?_⟩
  · rw [mcpSchemaValidate_iff]
    constructor
    · intro h
      exact h.satisfies hschema hinst
    · intro h
      exact h.passes (Nat.lt_succ_self _) hwell hschema hinst
  · rw [Bool.eq_iff_iff, mcpSchemaValidate_iff]
    exact decides_passes _ schema inst path

def typeSchema (t : String) : JsonValue := .object [("type", .string t)]

theorem typeSchema_absent {k : JString} {x : JsonValue} {P : Prop} (hk : k ≠ "type")
    (hx : (typeSchema t).objectGet k = some x) : P := by
  simp [typeSchema, objectGet, lookup_cons, beq_eq_false_iff_ne.mpr hk] at hx

theorem wellTyped_typeSchema (t : String) : WellTyped (typeSchema t) :=
  .intro rfl (fun _ hx => ⟨.lit t, (Option.some.inj hx).symm⟩)
    (fun _ => typeSchema_absent (by decide)) (fun _ => typeSchema_absent (by decide))
    (fun _ => typeSchema_absent (by decide)) (fun _ _ _ hx _ => typeSchema_absent (by decide) hx)
    (fun _ => typeSchema_absent (by decide)) (fun _ => typeSchema_absent (by decide))
    (fun _ => typeSchema_absent (by decide))

theorem distinctKeys_typeSchema (t : String) : (typeSchema t).DistinctKeys :=
  ⟨nodup_singleton _, trivial, trivial⟩

theorem satisfies_typeSchema {T : JString → JsonValue → Prop} (h : T t v) :
    Satisfies T (typeSchema t) v := by
  refine .intro (fun t' ht' => ?_) (fun _ => typeSchema_absent (by decide))
    (fun _ _ _ _ hx _ => typeSchema_absent (by decide) hx)
    (fun _ _ _ _ _ _ hx _ _ => typeSchema_absent (by decide) hx)
    (fun _ _ _ _ hx _ => typeSchema_absent (by decide) hx)
    (fun _ _ _ => typeSchema_absent (by decide)) (fun _ _ _ => typeSchema_absent (by decide))
  cases ht'
  exact h

/-- The schema of an object that has to have a member `tags`, an array of strings. -/
def tagsSchema : JsonValue :=
  .object [("type", .string "object"), ("required", .array [.string "tags"]),
    ("properties", .object [("tags", .object
      [("type", .string "array"), ("items", typeSchema "string")])])]

theorem wellTyped_tagsSchema : WellTyped tagsSchema := by
  refine .intro rfl (fun _ hx => ⟨_, (Option.some.inj hx).symm⟩) (fun _ hx => nomatch hx) ?_ ?_ ?_
    (fun _ hx => nomatch hx) (fun _ hx => nomatch hx) (fun _ hx => nomatch hx)
  · rintro _ ⟨⟩
    exact ⟨_, rfl, forall_mem_singleton.mpr ⟨_, rfl⟩⟩
  · rintro _ ⟨⟩
    rfl
  · rintro _ k sub ⟨⟩ hsub
    rw [lookup_cons] at hsub
    split at hsub <;> cases hsub
    refine .intro rfl (fun _ hx => ⟨_, (Option.some.inj hx).symm⟩) (fun _ hx => nomatch hx)
      (fun _ hx => nomatch hx) (fun _ hx => nomatch hx) (fun _ _ _ hx => nomatch hx) ?_
      (fun _ hx => nomatch hx) (fun _ hx => nomatch hx)
    rintro _ ⟨⟩
    exact wellTyped_typeSchema "string"

theorem distinctKeys_tagsSchema : tagsSchema.DistinctKeys :=
  ⟨by decide, trivial, ⟨trivial, trivial⟩, ⟨nodup_singleton _,
    ⟨by decide, trivial, distinctKeys_typeSchema "string", trivial⟩, trivial⟩, trivial⟩

/-- The array of strings is there and is checked, and an object without it is refused. -/
theorem mcpSchemaValidate_tagsSchema :
    Satisfies HasSupportedType tagsSchema (.object [("tags", .array [.string "a"])]) ∧
      ¬Satisfies HasSupportedType tagsSchema (.object [("tags", .array [.null])]) ∧
      ¬Satisfies HasSupportedType tagsSchema (.object []) := by
  have hiff : ∀ inst : JsonValue, inst.DistinctKeys → _ := fun inst hinst =>
    (mcpSchemaValidate_satisfies wellTyped_tagsSchema distinctKeys_tagsSchema hinst).1
  have htags : ∀ v : JsonValue, v.DistinctKeys → (object [("tags", array [v])]).DistinctKeys :=
    fun v hv => ⟨nodup_singleton _, ⟨hv, trivial⟩, trivial⟩
  refine ⟨(hiff _ (htags (string "a") trivial)).mp (by decide), fun h => ?_, fun h => ?_⟩
  · exact absurd ((hiff _ (htags .null trivial)).mpr h) (by decide)
  · exact absurd ((hiff (object []) ⟨nodup_nil, trivial⟩).mpr h) (by decide)

/-- The schema `{"type": "null"}` is not satisfied by `null`. -/
theorem mcpSchemaValidate_nullSchema :
    WellTyped (typeSchema "null") ∧
      ¬(mcpSchemaValidate (typeSchema "null") .null = true ↔
        Satisfies HasType (typeSchema "null") .null) := by
  refine ⟨wellTyped_typeSchema "null", fun h => ?_⟩
  have htrue := h.mpr (satisfies_typeSchema rfl)
  have hfalse : mcpSchemaValidate (typeSchema "null") .null = false := by decide
  rw [hfalse] at htrue
  cases htrue

end Mcpkit.Json
