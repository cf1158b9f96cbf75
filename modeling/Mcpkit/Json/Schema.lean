import Mcpkit.Json.Value

/-!
# Schema validation

The recursive check of an instance against a schema document.  Every recursive
call descends in the schema (for equality, in the first value), so its nesting
bounds the depth of the recursion.

A failure carries what the verbose entry point prints: the dotted path, cut to
the buffer it is built in, and the reason.
-/

namespace Mcpkit.Json

open JString

/-- `SCHEMA_MAX_PATH`, terminator included. -/
def schemaMaxPath : Nat := 256

structure SchemaFailure where
  path : Bytes
  reason : String
  deriving DecidableEq

/-- The double `9007199254740991.0`. -/
def maxSafeInteger : Binary64 := Binary64.ofNat 9007199254740991

def isIntegerValue (d : Binary64) : Bool :=
  if !d.isFinite || d.lt maxSafeInteger.neg || maxSafeInteger.lt d then false
  else d.eq (Binary64.ofInt d.trunc)

/-- `value_equal`, with a bound on the nesting of the first value. -/
def valueEqual : Nat → JsonValue → JsonValue → Bool
  | 0, _, _ => false
  | fuel + 1, a, b =>
    match a, b with
    | .null, .null => true
    | .bool x, .bool y => x == y
    | .number x, .number y => x.val.eq y.val
    | .string x, .string y => decide (x = y)
    | .array xs, .array ys =>
      xs.length == ys.length && (xs.zip ys).all fun p => valueEqual fuel p.1 p.2
    | .object xs, .object ys =>
      xs.length == ys.length && xs.all fun p =>
        match xs.lookup p.1, ys.lookup p.1 with
        | some v, some w => valueEqual fuel v w
        | _, _ => false
    | _, _ => false

/-- The test of the `type` keyword; an unknown name has no test. -/
def typeMatches (type : JString) (inst : JsonValue) : Option Bool :=
  if type = "string" then some (inst.typeOf = .string)
  else if type = "integer" then some (inst.numberValue.any fun d => isIntegerValue d.val)
  else if type = "number" then some (inst.numberValue.any fun d => d.val.isFinite)
  else if type = "boolean" then some (inst.typeOf = .bool)
  else if type = "array" then some (inst.typeOf = .array)
  else if type = "object" then some (inst.typeOf = .object)
  else none

def checkType (schema inst : JsonValue) (path : Bytes) : Except SchemaFailure Unit :=
  match schema.objectGet "type" with
  | none => .ok ()
  | some typev =>
    match typev.stringValue with
    | none => .error ⟨path, "type is not a string"⟩
    | some type =>
      match typeMatches type inst with
      | none => .error ⟨path, "unknown type"⟩
      | some false => .error ⟨path, "type mismatch"⟩
      | some true => .ok ()

def checkEnum (schema inst : JsonValue) (path : Bytes) : Except SchemaFailure Unit :=
  match schema.objectGet "enum" with
  | none => .ok ()
  | some (.array values) =>
    if values.any (valueEqual (inst.depth + 1) inst ·) then .ok ()
    else .error ⟨path, "not in enum"⟩
  | some _ => .error ⟨path, "enum is not an array"⟩

def checkRequired (schema inst : JsonValue) (path : Bytes) : Except SchemaFailure Unit :=
  match schema.objectGet "required" with
  | none => .ok ()
  | some (.array names) =>
    if names.all fun e => e.stringValue.any (inst.objectHas ·) then .ok ()
    else .error ⟨path, "missing required property"⟩
  | some _ => .error ⟨path, "required is not an array"⟩

/-- The `minimum` and `maximum` keywords; a bound that is not a number is ignored. -/
def checkBounds (schema : JsonValue) (d : FiniteDouble) (path : Bytes) :
    Except SchemaFailure Unit :=
  let bound (key : String) := (schema.objectGet key).bind (·.numberValue)
  if (bound "minimum").any (d.val.lt ·.val) then .error ⟨path, "below minimum"⟩
  else if (bound "maximum").any (·.val.lt d.val) then .error ⟨path, "above maximum"⟩
  else .ok ()

/-- `snprintf` of the path of a property into `sub_path`. -/
def propertyPath (path : Bytes) (name : JString) : Bytes :=
  (path ++ (if path = [] then [] else (lit ".").bytes) ++ name.bytes).take
    (schemaMaxPath - 1)

/-- `snprintf` of the path of an element into `sub_path`. -/
def elementPath (path : Bytes) (i : Nat) : Bytes :=
  (path ++ (lit "[").bytes ++ (lit (toString i)).bytes ++
    (lit "]").bytes).take (schemaMaxPath - 1)

def check : Nat → JsonValue → JsonValue → Bytes → Except SchemaFailure Unit
  | 0, _, _, path => .error ⟨path, "bad schema or instance"⟩
  | fuel + 1, schema, inst, path => do
    if schema.typeOf ≠ .object then .error ⟨path, "bad schema or instance"⟩
    checkType schema inst path
    checkEnum schema inst path
    match inst with
    | .object _ =>
      checkRequired schema inst path
      match schema.objectGet "properties" with
      | none => .ok ()
      | some (.object props) =>
        props.forM fun p =>
          match props.lookup p.1, inst.objectGet p.1 with
          | some sub, some val => check fuel sub val (propertyPath path p.1)
          | _, _ => .ok ()
      | some _ => .error ⟨path, "properties is not an object"⟩
    | .array values =>
      match schema.objectGet "items" with
      | none => .ok ()
      | some items => values.zipIdx.forM fun p => check fuel items p.1 (elementPath path p.2)
    | .number d => checkBounds schema d path
    | _ => .ok ()

/-- `mcp_schema_validate`, which passes no buffer and keeps the verdict only. -/
def mcpSchemaValidate (schema inst : JsonValue) : Bool :=
  (check (schema.depth + 1) schema inst []).isOk

/-- `fail_at`, into a buffer of `errcap` bytes: the line without its terminator. -/
def failAt (errcap : Nat) (f : SchemaFailure) : Bytes :=
  ((if f.path = [] then (lit "<root>").bytes else f.path) ++ (lit ": ").bytes ++
    (lit f.reason).bytes).take (errcap - 1)

/-- `mcp_schema_validate_verbose`: the verdict, and the text it leaves in a buffer of `cap` bytes.
There is no text without a buffer or with an empty one. -/
def mcpSchemaValidateVerbose (schema inst : JsonValue) (cap : Option Nat) : Bool × Option Bytes :=
  match check (schema.depth + 1) schema inst [], cap.filter (0 < ·) with
  | .ok _, none => (true, none)
  | .ok _, some _ => (true, some [])
  | .error _, none => (false, none)
  | .error f, some cap => (false, some (failAt cap f))

end Mcpkit.Json
