import Mcpkit.Protocol.UriMatch

/-!
# Expanding URI templates

`mcp_uri_template_expand` copies the literals of a template and writes the value of each
variable, percent-encoded.  The output buffer is only appended to, so a function returns
the bytes that it appends.

Over the pieces of a template the result is the text that the template spells with the
encoded values, and the decoder of the matcher reads an encoded value back.
-/

namespace Mcpkit.Protocol.UriTemplate

open Json JsonValue List Nat

/-- The C library function that prints the numbers of a URI. -/
class NumberFormat where
  /-- The text `snprintf` leaves in a 64-byte buffer for the format `%g`. -/
  snprintfG : Binary64 → CString

def isUnreserved (c : UInt8) : Bool :=
  (0x61 ≤ c && c ≤ 0x7A) || (0x41 ≤ c && c ≤ 0x5A) || (0x30 ≤ c && c ≤ 0x39) ||
    c == 0x2D || c == 0x2E || c == 0x5F || c == 0x7E

def isReservedChar (c : UInt8) : Bool :=
  [0x3A, 0x2F, 0x3F, 0x23, 0x5B, 0x5D, 0x40, 0x21, 0x24, 0x26, 0x27, 0x28, 0x29, 0x2A, 0x2B,
    0x2C, 0x3B, 0x3D].contains c

def hex (n : Nat) : UInt8 := UInt8.ofNat (if n < 10 then 0x30 + n else 0x41 + (n - 10))

/-- What the loop of `append_encoded_str` writes for one byte. -/
def encodedByte (isReserved : Bool) (c : UInt8) : Bytes :=
  if isUnreserved c || (isReserved && isReservedChar c) then [c]
  else [0x25, hex (c.toNat >>> 4), hex (c.toNat &&& 0xF)]

/-- A byte that does not continue a character. -/
def startsChar (c : UInt8) : Bool := c &&& 0xC0 != 0x80

/-- The test that ends the loop of `append_encoded_str` in front of a character. -/
def UriModifier.isFull (mod : UriModifier) (charCount : Nat) : Bool :=
  match mod with
  | .modPrefix prefixLen => prefixLen ≤ charCount
  | _ => false

/-- The loop of `append_encoded_str`, behind `charCount` characters. -/
def appendEncodedFrom (isReserved : Bool) (mod : UriModifier) : Nat → Bytes → Bytes
  | _, [] => []
  | charCount, c :: s =>
    if startsChar c then
      if mod.isFull charCount then []
      else encodedByte isReserved c ++ appendEncodedFrom isReserved mod (charCount + 1) s
    else encodedByte isReserved c ++ appendEncodedFrom isReserved mod charCount s

def appendEncodedStr (str : Bytes) (isReserved : Bool) (mod : UriModifier) : Bytes :=
  appendEncodedFrom isReserved mod 0 str

def valStr [NumberFormat] : JsonValue → Option Bytes
  | .string s => some s.bytes
  | .number d => some (NumberFormat.snprintfG d.val).bytes
  | _ => none

@[simp] theorem valStr_string [NumberFormat] (s : JString) : valStr (string s) = some s.bytes := rfl

namespace ParsedVarExpr

variable (expr : ParsedVarExpr)

def prefixText : Bytes :=
  match expr.op with
  | .simple | .plus => []
  | .hash => [0x23]
  | .slash => [0x2F]
  | .dot => [0x2E]
  | .query => [0x3F]

def nameBuf : Bytes := expr.name.take 127

def encoded (str : Bytes) : Bytes := appendEncodedStr str expr.op.isReserved expr.mod

/-- The prefix in front of a value, and for a query `name=`. -/
def expandLead : Bytes := expr.prefixText ++ if expr.op = .query then expr.nameBuf ++ [0x3D] else []

def expandExplodedItem (i : Nat) (itemStr : Bytes) : Bytes :=
  match expr.op with
  | .query => (if i = 0 then 0x3F else 0x26) :: (expr.nameBuf ++ 0x3D :: expr.encoded itemStr)
  | .slash => 0x2F :: expr.encoded itemStr
  | .dot => 0x2E :: expr.encoded itemStr
  | _ =>
    (if i = 0 ∧ expr.op = .hash then [0x23] else []) ++
      ((if 0 < i then [0x2C] else []) ++ expr.encoded itemStr)

def expandExploded : Nat → List Bytes → Bytes
  | _, [] => []
  | i, itemStr :: items => expr.expandExplodedItem i itemStr ++ expandExploded (i + 1) items

def expandJoined : Nat → List Bytes → Bytes
  | _, [] => []
  | i, itemStr :: items =>
    (if 0 < i then [0x2C] else []) ++ (expr.encoded itemStr ++ expandJoined (i + 1) items)

def expandValue [NumberFormat] : JsonValue → Bytes
  | .array items =>
    let itemStrs := items.map fun item => (valStr item).getD []
    if items = [] then []
    else if expr.mod = .modExplode then expr.expandExploded 0 itemStrs
    else expr.expandLead ++ expr.expandJoined 0 itemStrs
  | v =>
    match valStr v with
    | none => []
    | some str => expr.expandLead ++ expr.encoded str

/-- The value of the variable: a name that is not UTF-8 names no member. -/
def lookupIn (vars : Option JsonValue) : Option JsonValue := do
  (← vars).objectGet (← JString.ofBuffer expr.nameBuf)

/-- What an expression expands to; an undefined variable to nothing. -/
def expand [NumberFormat] (vars : Option JsonValue) : Bytes :=
  match expr.lookupIn vars with
  | none => []
  | some v => expr.expandValue v

end ParsedVarExpr

/-- The loop over the template; nothing if its syntax is wrong. -/
def expandLoop [NumberFormat] (vars : Option JsonValue) : Nat → Bytes → Option Bytes
  | 0, _ => none
  | _ + 1, [] => some []
  | fuel + 1, c :: p =>
    if c = 0x7B then do
      let (text, next) ← strchrClose p
      let expr ← parseVarExpr text
      some (expr.expand vars ++ (← expandLoop vars fuel next))
    else do some (c :: (← expandLoop vars fuel p))

def mcpUriTemplateExpand [NumberFormat] (pattern : Option CString) (vars : Option JsonValue)
    (outUri : Bool) : Status × Option CString :=
  match pattern, outUri with
  | some pattern, true =>
    match expandLoop vars (pattern.bytes.length + 1) pattern.bytes with
    | none => (.invalidArgument, none)
    | some buf => (.ok, some ⟨cString buf, zero_notMem_cString buf⟩)
  | _, _ => (.invalidArgument, none)

/-- The bytes of a string that a modifier keeps, behind `charCount` characters. -/
def UriModifier.kept (mod : UriModifier) : Nat → Bytes → Bytes
  | _, [] => []
  | charCount, c :: s =>
    if startsChar c then
      if mod.isFull charCount then [] else c :: kept mod (charCount + 1) s
    else c :: kept mod charCount s

theorem appendEncodedFrom_eq (isReserved : Bool) (mod : UriModifier) (charCount : Nat)
    (s : Bytes) :
    appendEncodedFrom isReserved mod charCount s =
      (mod.kept charCount s).flatMap (encodedByte isReserved) := by
  induction s generalizing charCount with
  | nil => rfl
  | cons c s ih =>
    rw [appendEncodedFrom, UriModifier.kept]
    split
    · split
      · rfl
      · rw [ih, flatMap_cons]
    · rw [ih, flatMap_cons]

theorem UriModifier.kept_of_not_full {mod : UriModifier} (h : ∀ n, mod.isFull n = false)
    (charCount : Nat) (s : Bytes) : mod.kept charCount s = s := by
  induction s generalizing charCount with
  | nil => rfl
  | cons c s ih => simp [UriModifier.kept, h, ih]

theorem ParsedVarExpr.encoded_eq (e : ParsedVarExpr) (str : Bytes) :
    e.encoded str = (e.mod.kept 0 str).flatMap (encodedByte e.op.isReserved) :=
  appendEncodedFrom_eq ..

variable {e : ParsedVarExpr}

theorem ParsedVarExpr.encoded_whole (h : ∀ k, e.mod ≠ .modPrefix k) (str : Bytes) :
    e.encoded str = str.flatMap (encodedByte e.op.isReserved) := by
  have hfull : ∀ n, e.mod.isFull n = false := by
    intro n
    cases hmod : e.mod with
    | modPrefix k => exact absurd hmod (h k)
    | _ => rfl
  rw [e.encoded_eq, UriModifier.kept_of_not_full hfull]

theorem isUnreserved_hex : ∀ n < 16, isUnreserved (hex n) = true := by decide

theorem shiftRight_lt (c : UInt8) : c.toNat >>> 4 < 16 := by
  have := c.toNat_lt
  rw [shiftRight_eq_div_pow]
  omega

theorem and_lt (c : UInt8) : c.toNat &&& 0xF < 16 := lt_succ_of_le and_le_right

def InEncoded (isReserved : Bool) (b : UInt8) : Prop :=
  isUnreserved b = true ∨ b = 0x25 ∨ (isReserved = true ∧ isReservedChar b = true)

instance (isReserved : Bool) (b : UInt8) : Decidable (InEncoded isReserved b) :=
  inferInstanceAs (Decidable (_ ∨ _))

variable {b c : UInt8} {ps : List Piece} {p : Bytes}

theorem inEncoded_of_mem_encodedByte {isReserved : Bool} (h : b ∈ encodedByte isReserved c) :
    InEncoded isReserved b := by
  rw [encodedByte] at h
  split at h
  case isTrue hkept =>
    rw [mem_singleton] at h
    subst h
    rw [Bool.or_eq_true, Bool.and_eq_true] at hkept
    exact hkept.imp_right .inr
  case isFalse =>
    simp only [mem_cons, not_mem_nil, or_false] at h
    obtain rfl | rfl | rfl := h
    · exact .inr (.inl rfl)
    · exact .inl (isUnreserved_hex _ (shiftRight_lt c))
    · exact .inl (isUnreserved_hex _ (and_lt c))

theorem inEncoded_of_mem_encoded {str : Bytes} (h : b ∈ e.encoded str) :
    InEncoded e.op.isReserved b := by
  rw [e.encoded_eq, mem_flatMap] at h
  obtain ⟨c, -, hb⟩ := h
  exact inEncoded_of_mem_encodedByte hb

theorem notMem_encoded (h : ¬InEncoded e.op.isReserved b) (str : Bytes) : b ∉ e.encoded str :=
  fun hmem => h (inEncoded_of_mem_encoded hmem)

theorem zero_notMem_encoded (e : ParsedVarExpr) (str : Bytes) : (0 : UInt8) ∉ e.encoded str := by
  refine notMem_encoded ?_ str
  cases e.op.isReserved <;> decide

theorem urlDecode_cons_of_ne (h : c ≠ 0x25) (src : Bytes) :
    urlDecode (c :: src) = c :: urlDecode src := by
  cases src with
  | nil => rfl
  | cons a src =>
    cases src with
    | nil => rfl
    | cons b src => simp only [urlDecode, if_neg h]

theorem escapedByte_hex : ∀ c : UInt8,
    escapedByte (hex (c.toNat >>> 4)) (hex (c.toNat &&& 0xF)) = some c :=
  Utf8.forall_byte (by decide +kernel)

theorem urlDecode_encodedByte (isReserved : Bool) (c : UInt8) (src : Bytes) :
    urlDecode (encodedByte isReserved c ++ src) = c :: urlDecode src := by
  rw [encodedByte]
  split
  case isTrue hkept =>
    refine urlDecode_cons_of_ne ?_ src
    rintro rfl
    cases isReserved <;> cases hkept
  case isFalse => simp [urlDecode, escapedByte_hex]

theorem urlDecode_flatMap (isReserved : Bool) (s : Bytes) :
    urlDecode (s.flatMap (encodedByte isReserved)) = s := by
  induction s with
  | nil => rfl
  | cons c s ih => rw [flatMap_cons, urlDecode_encodedByte, ih]

theorem decoded_encoded (h : ∀ k, e.mod ≠ .modPrefix k) (s : JString) :
    decoded (e.encoded s.bytes) = some (string s) := by
  rw [decoded, ParsedVarExpr.encoded_whole h, urlDecode_flatMap, newString_bytes]

namespace ParsedVarExpr

variable {e : ParsedVarExpr} (hname : (0 : UInt8) ∉ e.name)

include hname

theorem zero_notMem_nameBuf : (0 : UInt8) ∉ e.nameBuf := fun h => hname (mem_of_mem_take h)

theorem zero_notMem_expandLead : (0 : UInt8) ∉ e.expandLead := by
  have hbuf := zero_notMem_nameBuf hname
  rw [expandLead, prefixText]
  cases e.op <;> simp [hbuf]

theorem zero_notMem_expandExplodedItem (i : Nat) (itemStr : Bytes) :
    (0 : UInt8) ∉ e.expandExplodedItem i itemStr := by
  have hbuf := zero_notMem_nameBuf hname
  have hitem := zero_notMem_encoded e itemStr
  rw [expandExplodedItem]
  cases e.op with
  | query =>
    simp only [mem_cons, mem_append, hbuf, hitem, or_false, false_or]
    split <;> decide
  | _ => grind

theorem zero_notMem_expandExploded (i : Nat) (items : List Bytes) :
    (0 : UInt8) ∉ e.expandExploded i items := by
  induction items generalizing i with
  | nil => exact not_mem_nil
  | cons itemStr items ih =>
    rw [expandExploded, mem_append, not_or]
    exact ⟨zero_notMem_expandExplodedItem hname i itemStr, ih (i + 1)⟩

omit hname in
theorem zero_notMem_expandJoined (i : Nat) (items : List Bytes) :
    (0 : UInt8) ∉ e.expandJoined i items := by
  induction items generalizing i with
  | nil => exact not_mem_nil
  | cons itemStr items ih =>
    have hitem := zero_notMem_encoded e itemStr
    rw [expandJoined]
    split <;> simp [hitem, ih]

variable [NumberFormat]

theorem zero_notMem_expandValue (v : JsonValue) : (0 : UInt8) ∉ e.expandValue v := by
  have hlead := zero_notMem_expandLead hname
  fun_cases e.expandValue v
  case case1 => exact not_mem_nil
  case case2 => exact zero_notMem_expandExploded hname _ _
  case case3 => simp [hlead, zero_notMem_expandJoined]
  case case4 => exact not_mem_nil
  case case5 => simp [hlead, zero_notMem_encoded]

theorem zero_notMem_expand (vars : Option JsonValue) : (0 : UInt8) ∉ e.expand vars := by
  rw [expand]
  split
  · exact not_mem_nil
  · exact zero_notMem_expandValue hname _

end ParsedVarExpr

theorem IsExprText.zero_notMem_name {text : Bytes} (h : IsExprText e text)
    (htext : (0 : UInt8) ∉ text) : (0 : UInt8) ∉ e.name := by
  obtain ⟨modifier, rfl, -⟩ := h.parts
  simp only [mem_append, not_or] at htext
  exact htext.2.1

variable [NumberFormat]

def Piece.expand (vars : Option JsonValue) : Piece → Bytes
  | .literal c => [c]
  | .expr e => e.expand vars

theorem expandLoop_eq (h : SplitsInto p ps) {fuel : Nat} (hfuel : p.length < fuel)
    (vars : Option JsonValue) : expandLoop vars fuel p = some (ps.flatMap (Piece.expand vars)) := by
  induction h generalizing fuel with
  | nil =>
    obtain ⟨fuel, rfl⟩ := Nat.exists_eq_add_of_le' (Nat.one_le_of_lt hfuel)
    rfl
  | literal hopen hclose h ih =>
    obtain ⟨fuel, rfl⟩ := Nat.exists_eq_add_of_le' (Nat.one_le_of_lt hfuel)
    rw [expandLoop, if_neg hopen, ih (lt_of_succ_lt_succ hfuel)]
    rfl
  | @expr text p e ps hclose he h ih =>
    obtain ⟨fuel, rfl⟩ := Nat.exists_eq_add_of_le' (Nat.one_le_of_lt hfuel)
    have hlen : p.length < fuel := by
      simp only [length_cons, length_append] at hfuel
      omega
    rw [expandLoop, if_pos rfl, strchrClose_eq_some_iff.mpr ⟨rfl, hclose⟩]
    simp only [Option.bind_eq_bind, Option.bind_some, parseVarExpr_eq_some_iff.mpr he, ih hlen]
    rfl

theorem zero_notMem_flatMap_expand (h : SplitsInto p ps) (hp : (0 : UInt8) ∉ p)
    (vars : Option JsonValue) : (0 : UInt8) ∉ ps.flatMap (Piece.expand vars) := by
  induction h with
  | nil => exact not_mem_nil
  | literal hopen hclose h ih =>
    rw [mem_cons, not_or] at hp
    rw [flatMap_cons, Piece.expand, singleton_append, mem_cons, not_or]
    exact ⟨hp.1, ih hp.2⟩
  | expr hclose he h ih =>
    simp only [mem_cons, mem_append, not_or] at hp
    rw [flatMap_cons, mem_append, not_or]
    exact ⟨ParsedVarExpr.zero_notMem_expand (he.zero_notMem_name hp.2.1) vars, ih hp.2.2.2⟩

def Template.expansion (t : Template) (vars : Option JsonValue) : CString where
  bytes := t.pieces.flatMap (Piece.expand vars)
  noNul := zero_notMem_flatMap_expand t.splits t.text.noNul vars

theorem Template.mcpUriTemplateExpand_eq (t : Template) (vars : Option JsonValue) :
    mcpUriTemplateExpand (some t.text) vars true = (.ok, some (t.expansion vars)) := by
  have hbytes := cString_of_notMem (t.expansion vars).noNul
  simp only [Template.expansion] at hbytes
  simp only [mcpUriTemplateExpand, expandLoop_eq t.splits (lt_succ_self _), hbytes,
    Template.expansion]

end Mcpkit.Protocol.UriTemplate
