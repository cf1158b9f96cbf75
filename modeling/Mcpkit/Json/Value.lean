import Mathlib.Data.List.TakeWhile
import Mcpkit.Core.Status
import Mcpkit.Json.Utf8
import Mcpkit.Lib.Assoc
import Mcpkit.Lib.Binary64

/-!
# JSON values

The document model of the built-in backend and its constructors.  A string node
owns a NUL-terminated buffer of valid UTF-8, and a number node a finite double;
both facts are part of the types.  An object keeps its members in insertion
order, with the parallel arrays of keys and values as one list of pairs.

Memory allocation does not fail in this model, so a constructor returns nothing
only when it rejects its argument.
-/

namespace Mcpkit.Json

open List Assoc Utf8

/-- The characters of a NUL-terminated buffer. -/
def cString (s : Bytes) : Bytes := s.takeWhile (· ≠ 0)

theorem zero_notMem_cString (s : Bytes) : (0 : UInt8) ∉ cString s := by
  intro h
  simpa using mem_takeWhile_imp h

theorem cString_append {a : Bytes} (ha : (0 : UInt8) ∉ a) (b : Bytes) :
    cString (a ++ b) = a ++ cString b := by
  have hpos : ∀ x ∈ a, decide (x ≠ 0) = true := by
    intro x hx
    exact decide_eq_true fun h => ha (h ▸ hx)
  exact takeWhile_append_of_pos hpos

theorem cString_of_notMem {s : Bytes} (h : (0 : UInt8) ∉ s) : cString s = s := by
  simpa [cString] using cString_append h []

/-- A NUL-terminated string the program owns, by its characters; `strcmp` decides equality. -/
structure CString where
  bytes : Bytes
  noNul : (0 : UInt8) ∉ bytes
  deriving DecidableEq

/-- The payload of a string node or of a member key. -/
structure JString where
  bytes : Bytes
  noNul : (0 : UInt8) ∉ bytes
  valid : utf8Valid bytes = true
  deriving DecidableEq

variable {s : JString}

namespace JString

variable {t : JString}

theorem ext (h : s.bytes = t.bytes) : s = t := by
  cases s
  cases t
  cases h
  rfl

theorem bytes_inj : s.bytes = t.bytes ↔ s = t := ⟨ext, congrArg bytes⟩

def ofBuffer (s : Bytes) : Option JString :=
  if h : utf8Valid (cString s) = true then some ⟨cString s, zero_notMem_cString s, h⟩ else none

theorem utf8Valid_cString_encode (cs : List Char) :
    utf8Valid (cString (encode cs)) = true := by
  rw [cString, takeWhile_encode, utf8Valid_iff]
  exact wellFormed_encode _

/-- The C string of a list of scalar values: it ends at the first `U+0000`. -/
def ofChars (cs : List Char) : JString :=
  ⟨cString (encode cs), zero_notMem_cString _, utf8Valid_cString_encode cs⟩

/-- A string literal of the program. -/
def lit (s : String) : JString where
  bytes := cString s.toByteArray.data.toList
  noNul := zero_notMem_cString _
  valid := by
    obtain ⟨cs, hcs⟩ := s.isValidUTF8
    rw [hcs, List.utf8Encode, data_toByteArray]
    exact utf8Valid_cString_encode cs

instance : Coe String JString := ⟨lit⟩

/-- A copy of the payload, as `srv_strdup` makes it. -/
def toCString (s : JString) : CString := ⟨s.bytes, s.noNul⟩

instance : Coe String CString := ⟨fun s => (lit s).toCString⟩

theorem ofBuffer_bytes (s : JString) : ofBuffer s.bytes = some s := by
  have h : cString s.bytes = s.bytes := cString_of_notMem s.noNul
  have hvalid : utf8Valid (cString s.bytes) = true := by
    rw [h]
    exact s.valid
  rw [ofBuffer, dif_pos hvalid]
  exact congrArg some (ext h)

end JString

/-- The payload of a number node. -/
structure FiniteDouble where
  val : Binary64
  finite : val.isFinite = true
  deriving DecidableEq

inductive JsonValue where
  | null
  | bool (b : Bool)
  | number (d : FiniteDouble)
  | string (s : JString)
  | array (items : List JsonValue)
  | object (members : List (JString × JsonValue))
  deriving Inhabited

abbrev MemberList := List (JString × JsonValue)

inductive JsonType where
  | null | bool | number | string | array | object
  deriving DecidableEq

namespace JsonValue

mutual

def beq : JsonValue → JsonValue → Bool
  | null, null => true
  | bool a, bool b => a == b
  | number a, number b => decide (a = b)
  | string a, string b => decide (a = b)
  | array a, array b => beqItems a b
  | object a, object b => beqMembers a b
  | _, _ => false

def beqItems : List JsonValue → List JsonValue → Bool
  | [], [] => true
  | a :: as, b :: bs => beq a b && beqItems as bs
  | _, _ => false

def beqMembers : List (JString × JsonValue) → List (JString × JsonValue) → Bool
  | [], [] => true
  | (k, a) :: as, (l, b) :: bs => decide (k = l) && beq a b && beqMembers as bs
  | _, _ => false

end

mutual

theorem beq_iff : ∀ a b : JsonValue, beq a b = true ↔ a = b
  | null, b => by cases b <;> simp [beq]
  | bool a, b => by cases b <;> simp [beq]
  | number a, b => by cases b <;> simp [beq]
  | string a, b => by cases b <;> simp [beq]
  | array a, b => by cases b <;> simp [beq, beqItems_iff]
  | object a, b => by cases b <;> simp [beq, beqMembers_iff]

theorem beqItems_iff : ∀ a b : List JsonValue, beqItems a b = true ↔ a = b
  | [], b => by cases b <;> simp [beqItems]
  | x :: a, b => by cases b <;> simp [beqItems, beq_iff, beqItems_iff]

theorem beqMembers_iff : ∀ a b : List (JString × JsonValue), beqMembers a b = true ↔ a = b
  | [], b => by cases b <;> simp [beqMembers]
  | (k, x) :: a, b => by
    cases b with
    | nil => simp [beqMembers]
    | cons y b => simp [beqMembers, beq_iff, beqMembers_iff, Prod.ext_iff]

end

instance : DecidableEq JsonValue := fun a b => decidable_of_iff _ (beq_iff a b)

def typeOf : JsonValue → JsonType
  | null => .null
  | bool _ => .bool
  | number _ => .number
  | string _ => .string
  | array _ => .array
  | object _ => .object

def newNumber (d : Binary64) : Option JsonValue :=
  if h : d.isFinite = true then some (number ⟨d, h⟩) else none

def newStringN (s : Bytes) : Option JsonValue :=
  if h : (0 : UInt8) ∉ s ∧ utf8Valid s = true then some (string ⟨s, h.1, h.2⟩) else none

def newString (s : Bytes) : Option JsonValue := newStringN (cString s)

/-- `builtin_object_set`.  The key is a NUL-terminated buffer. -/
def objectSet (obj : JsonValue) (key : Bytes) (val : JsonValue) : Except Status JsonValue :=
  match obj, JString.ofBuffer key with
  | object members, some k => .ok (object (set members k val))
  | _, _ => .error .invalidArgument

def objectGet (obj : JsonValue) (key : JString) : Option JsonValue :=
  match obj with
  | object members => members.lookup key
  | _ => none

def objectHas (obj : JsonValue) (key : JString) : Bool := (obj.objectGet key).isSome

def boolValue : JsonValue → Option Bool
  | bool b => some b
  | _ => none

def numberValue : JsonValue → Option FiniteDouble
  | number d => some d
  | _ => none

def stringValue : JsonValue → Option JString
  | string s => some s
  | _ => none

/-- `mcp_json_object_set_take` with a key of the program's own. -/
def setTake (obj : JsonValue) (key : String) (val : JsonValue) : Option JsonValue :=
  (obj.objectSet (JString.lit key).bytes val).toOption

def arrayAppend (arr val : JsonValue) : Except Status JsonValue :=
  match arr with
  | array items => .ok (array (items ++ [val]))
  | _ => .error .invalidArgument

mutual

/-- `mcp_json_clone`: an object is rebuilt by looking up each of its keys in turn. -/
def clone : JsonValue → JsonValue
  | array items => array (cloneItems items)
  | object members =>
    let copies := cloneMembers members
    object (copies.foldl (fun out p => set out p.1 ((copies.lookup p.1).getD p.2)) [])
  | v => v

def cloneItems : List JsonValue → List JsonValue
  | [] => []
  | v :: vs => clone v :: cloneItems vs

def cloneMembers : List (JString × JsonValue) → List (JString × JsonValue)
  | [] => []
  | (k, v) :: ms => (k, clone v) :: cloneMembers ms

end

mutual

def depth : JsonValue → Nat
  | array items => depthItems items + 1
  | object members => depthMembers members + 1
  | _ => 0

def depthItems : List JsonValue → Nat
  | [] => 0
  | v :: vs => max (depth v) (depthItems vs)

def depthMembers : List (JString × JsonValue) → Nat
  | [] => 0
  | (_, v) :: ms => max (depth v) (depthMembers ms)

end

/-- The values the public constructors build. -/
inductive Built : JsonValue → Prop
  | null : Built null
  | bool (b : Bool) : Built (bool b)
  | number {d : Binary64} {v : JsonValue} (h : newNumber d = some v) : Built v
  | string {s : Bytes} {v : JsonValue} (h : newStringN s = some v) : Built v
  | array : Built (array [])
  | append {arr val v : JsonValue} (harr : Built arr) (hval : Built val)
      (h : arrayAppend arr val = .ok v) : Built v
  | object : Built (object [])
  | set {obj val v : JsonValue} {key : Bytes} (hobj : Built obj) (hval : Built val)
      (h : objectSet obj key val = .ok v) : Built v

mutual

/-- No object has two members with the same key. -/
def DistinctKeys : JsonValue → Prop
  | array items => DistinctKeysItems items
  | object members => (keys members).Nodup ∧ DistinctKeysMembers members
  | _ => True

def DistinctKeysItems : List JsonValue → Prop
  | [] => True
  | v :: vs => DistinctKeys v ∧ DistinctKeysItems vs

def DistinctKeysMembers : List (JString × JsonValue) → Prop
  | [] => True
  | (_, v) :: ms => DistinctKeys v ∧ DistinctKeysMembers ms

end

theorem distinctKeysItems_append {vs ws : List JsonValue} :
    DistinctKeysItems (vs ++ ws) ↔ DistinctKeysItems vs ∧ DistinctKeysItems ws := by
  induction vs with
  | nil => simp [DistinctKeysItems]
  | cons v vs ih => simp [DistinctKeysItems, ih, and_assoc]

variable {v val : JsonValue}

theorem distinctKeysMembers_set {ms : List (JString × JsonValue)} (h : DistinctKeysMembers ms)
    (k : JString) (hv : DistinctKeys v) : DistinctKeysMembers (set ms k v) := by
  induction ms with
  | nil => exact ⟨hv, trivial⟩
  | cons p ms ih =>
    obtain ⟨k', v'⟩ := p
    rw [set_cons]
    split
    · exact ⟨hv, h.2⟩
    · exact ⟨h.1, ih h.2⟩

theorem arrayAppend_eq_ok {arr : JsonValue} (h : arrayAppend arr val = .ok v) :
    ∃ items, arr = array items ∧ v = array (items ++ [val]) := by
  cases arr with
  | array items =>
    cases h
    exact ⟨items, rfl, rfl⟩
  | _ => cases h

theorem objectSet_eq_ok {obj : JsonValue} {key : Bytes} (h : objectSet obj key val = .ok v) :
    ∃ members k, obj = object members ∧ JString.ofBuffer key = some k ∧
      v = object (set members k val) := by
  cases obj with
  | object members =>
    cases hk : JString.ofBuffer key with
    | none => simp [objectSet, hk] at h
    | some k =>
      simp only [objectSet, hk, Except.ok.injEq] at h
      exact ⟨members, k, rfl, rfl, h.symm⟩
  | _ => simp [objectSet] at h

@[simp] theorem setTake_object (members : List (JString × JsonValue)) (key : String)
    (val : JsonValue) :
    (object members).setTake key val = some (object (set members (JString.lit key) val)) := by
  simp only [setTake, objectSet, JString.ofBuffer_bytes]
  rfl

theorem newString_eq_some {s : Bytes} (h : newString s = some v) : ∃ str, v = string str := by
  unfold newString newStringN at h
  split at h
  · exact ⟨_, (Option.some.inj h).symm⟩
  · cases h

@[simp] theorem newString_bytes (s : JString) : newString s.bytes = some (string s) := by
  rw [newString, cString_of_notMem s.noNul, newStringN, dif_pos ⟨s.noNul, s.valid⟩]

theorem Built.distinctKeys (h : Built v) : DistinctKeys v := by
  induction h with
  | null | bool | array => trivial
  | number h | string h =>
    obtain ⟨_, h⟩ := Option.dite_none_right_eq_some.mp h
    cases h
    trivial
  | append _ _ h ihArr ihVal =>
    obtain ⟨items, rfl, rfl⟩ := arrayAppend_eq_ok h
    exact distinctKeysItems_append.mpr ⟨ihArr, ihVal, trivial⟩
  | object => exact ⟨nodup_nil, trivial⟩
  | set _ _ h ihObj ihVal =>
    obtain ⟨members, k, rfl, -, rfl⟩ := objectSet_eq_ok h
    exact ⟨nodup_keys_set ihObj.1 k _, distinctKeysMembers_set ihObj.2 k ihVal⟩

theorem typeOf_of_objectGet {w : JsonValue} {key : JString} (h : v.objectGet key = some w) :
    v.typeOf = .object := by
  cases v with
  | object members => rfl
  | _ => cases h

theorem numberValue_eq_some_iff {d : FiniteDouble} : v.numberValue = some d ↔ v = number d := by
  cases v <;> simp [numberValue]

theorem stringValue_eq_some_iff : v.stringValue = some s ↔ v = string s := by
  cases v <;> simp [stringValue]

section

variable {P : JsonValue → Prop}

mutual

@[elab_as_elim]
theorem inductionOn (null : P null) (bool : ∀ b, P (bool b)) (number : ∀ d, P (number d))
    (string : ∀ s, P (string s)) (array : ∀ items, (∀ v ∈ items, P v) → P (array items))
    (object : ∀ members, (∀ p ∈ members, P p.2) → P (object members)) : ∀ v, P v
  | .null => null
  | .bool b => bool b
  | .number d => number d
  | .string s => string s
  | .array items => array items (inductionItems null bool number string array object items)
  | .object members =>
    object members (inductionMembers null bool number string array object members)

theorem inductionItems (null : P null) (bool : ∀ b, P (bool b)) (number : ∀ d, P (number d))
    (string : ∀ s, P (string s)) (array : ∀ items, (∀ v ∈ items, P v) → P (array items))
    (object : ∀ members, (∀ p ∈ members, P p.2) → P (object members)) :
    ∀ items : List JsonValue, ∀ v ∈ items, P v
  | [] => forall_mem_nil _
  | w :: items => forall_mem_cons.mpr
      ⟨inductionOn null bool number string array object w,
        inductionItems null bool number string array object items⟩

theorem inductionMembers (null : P null) (bool : ∀ b, P (bool b)) (number : ∀ d, P (number d))
    (string : ∀ s, P (string s)) (array : ∀ items, (∀ v ∈ items, P v) → P (array items))
    (object : ∀ members, (∀ p ∈ members, P p.2) → P (object members)) :
    ∀ members : List (JString × JsonValue), ∀ p ∈ members, P p.2
  | [] => forall_mem_nil _
  | (_, w) :: members => forall_mem_cons.mpr
      ⟨inductionOn null bool number string array object w,
        inductionMembers null bool number string array object members⟩

end

end

end JsonValue

end Mcpkit.Json
