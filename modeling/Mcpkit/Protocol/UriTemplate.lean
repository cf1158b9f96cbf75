import Mcpkit.Json.Parser
import Mcpkit.Lib.Cuts

/-!
# Matching URI templates

`mcp_uri_template_match` checks the syntax of the template, matches the URI by trying
the lengths of each value in turn, and decodes what it captured into a JSON object.

`match_step` walks both strings with pointers; here they are the bytes that remain.
It calls itself behind each expression of the template, so the template's length is
fuel enough.
-/

namespace Mcpkit.Protocol.UriTemplate

open Json JsonValue

inductive UriOp where
  | simple | plus | hash | slash | dot | query
  deriving DecidableEq

/-- The operator that a first character stands for. -/
def uriOp (first : UInt8) : Option UriOp :=
  if first = 0x2B then some .plus
  else if first = 0x23 then some .hash
  else if first = 0x2F then some .slash
  else if first = 0x2E then some .dot
  else if first = 0x3F then some .query
  else none

def UriOp.isReserved : UriOp → Bool
  | .plus | .hash => true
  | _ => false

inductive UriModifier where
  | modNone
  | modPrefix (prefixLen : Nat)
  | modExplode
  deriving DecidableEq

structure ParsedVarExpr where
  op : UriOp
  name : Bytes
  mod : UriModifier
  deriving DecidableEq

/-- The digits of a length modifier, read behind the number `lenVal`. -/
def parsePrefixLen (lenVal : Nat) : Bytes → Option Nat
  | [] => if lenVal = 0 then none else some lenVal
  | c :: s =>
    if c < 0x30 ∨ 0x39 < c then none
    else if 999999 < lenVal * 10 + (c.toNat - 0x30) then none
    else parsePrefixLen (lenVal * 10 + (c.toNat - 0x30)) s

/-- The part of `parse_var_expr` behind the operator. -/
def parseNameAndModifier (op : UriOp) (s : Bytes) : Option ParsedVarExpr :=
  if s.getLast? = some 0x2A then
    if 0x3A ∈ s ∨ s.dropLast = [] then none else some ⟨op, s.dropLast, .modExplode⟩
  else if 0x3A ∈ s then
    let name := s.takeWhile (· ≠ 0x3A)
    let digits := (s.dropWhile (· ≠ 0x3A)).drop 1
    if name = [] ∨ digits = [] then none
    else (parsePrefixLen 0 digits).map fun prefixLen => ⟨op, name, .modPrefix prefixLen⟩
  else if s = [] then none
  else some ⟨op, s, .modNone⟩

def parseVarExpr : Bytes → Option ParsedVarExpr
  | [] => none
  | first :: s =>
    match uriOp first with
    | some op => parseNameAndModifier op s
    | none => parseNameAndModifier .simple (first :: s)

/-- `strchr` for a closing brace: what stands in front of it and behind it. -/
def strchrClose : Bytes → Option (Bytes × Bytes)
  | [] => none
  | c :: s => if c = 0x7D then some ([], s) else (strchrClose s).map fun r => (c :: r.1, r.2)

def validPattern : Nat → Bytes → Bool
  | 0, scan => scan.isEmpty
  | _ + 1, [] => true
  | fuel + 1, c :: scan =>
    if c = 0x7B then
      match strchrClose scan with
      | none => false
      | some (text, next) => (parseVarExpr text).isSome && validPattern fuel next
    else if c = 0x7D then false
    else validPattern fuel scan

def maxRawCaptures : Nat := 64

structure RawCapture where
  name : Bytes
  val : Bytes
  isReserved : Bool
  op : UriOp
  mod : UriModifier
  deriving DecidableEq

variable (expr : ParsedVarExpr) (cap : RawCapture)

/-- The item that `match_step` stores for a value. -/
def ParsedVarExpr.capture (val : Bytes) : RawCapture where
  name := expr.name
  val := val
  isReserved := expr.op.isReserved
  op := expr.op
  mod := expr.mod

def skipChar (c : UInt8) : Bytes → Option Bytes
  | [] => none
  | d :: u => if d = c then some u else none

/-- The operator in front of a value, and for a query its name too. -/
def ParsedVarExpr.skipOperator (u : Bytes) : Option Bytes :=
  match expr.op with
  | .simple | .plus => some u
  | .hash => skipChar 0x23 u
  | .slash => skipChar 0x2F u
  | .dot => skipChar 0x2E u
  | .query => do
    let uVal ← skipChar 0x3F u
    let uVal ← matchLit uVal expr.name
    skipChar 0x3D uVal

def ParsedVarExpr.noSlash : Bool :=
  !expr.op.isReserved && expr.mod != .modExplode

def ParsedVarExpr.inQuery : Bool :=
  expr.op == .query && expr.mod != .modExplode

/-- The checks on a value that takes the rest of the URI. -/
def ParsedVarExpr.takesRest (uVal : Bytes) : Bool :=
  !(expr.noSlash && uVal.contains 0x2F) && !(expr.inQuery && uVal.contains 0x26) &&
    match expr.mod with
    | .modPrefix prefixLen => uVal.length ≤ prefixLen
    | _ => true

/-- A character that ends the loop over the lengths. -/
def ParsedVarExpr.stopsAt (c : UInt8) : Bool :=
  (expr.noSlash && c == 0x2F) || (expr.inQuery && (c == 0x26 || c == 0x23))

def ParsedVarExpr.maxLen (uVal : Bytes) : Nat :=
  match expr.mod with
  | .modPrefix prefixLen => min prefixLen uVal.length
  | _ => uVal.length

/-- `match_step`.  A failed attempt leaves the captures as they were. -/
def matchStep : Nat → Bytes → Bytes → List RawCapture → Option (List RawCapture)
  | 0, _, _, _ => none
  | _ + 1, [], u, caps => if u = [] then some caps else none
  | fuel + 1, c :: p, u, caps =>
    if c = 0x7B then do
      let (text, next) ← strchrClose p
      let expr ← parseVarExpr text
      let uVal ← expr.skipOperator u
      if next = [] then
        if expr.takesRest uVal && decide (caps.length < maxRawCaptures) then
          some (caps ++ [expr.capture uVal])
        else none
      else
        (Cuts.cuts expr.stopsAt (expr.maxLen uVal) uVal).findSome? fun cut =>
          if caps.length < maxRawCaptures then
            matchStep fuel next cut.2 (caps ++ [expr.capture cut.1])
          else none
    else do
      let u ← skipChar c u
      matchStep fuel p u caps

def escapedByte (a b : UInt8) : Option UInt8 := do
  let h1 ← hexDigit a
  let h2 ← hexDigit b
  some (UInt8.ofNat (h1 <<< 4 ||| h2))

/-- `url_decode`.  An escape needs both of its digits. -/
def urlDecode : Bytes → Bytes
  | c :: a :: b :: src =>
    match if c = 0x25 then escapedByte a b else none with
    | some byte => byte :: urlDecode src
    | none => c :: urlDecode (a :: b :: src)
  | src => src

def RawCapture.cutName : Bytes := cap.name.take 127

def UriOp.delim : UriOp → UInt8
  | .slash => 0x2F
  | .query => 0x26
  | .dot => 0x2E
  | _ => 0x2C

/-- A later item of a query without its `name=`. -/
def RawCapture.dropName (token : Bytes) : Bytes :=
  if cap.op = .query then (matchLit token (cap.cutName ++ [0x3D])).getD token else token

/-- The texts of a captured value: one, or the items of an exploded one. -/
def RawCapture.tokens : List Bytes :=
  if cap.mod = .modExplode then
    match cap.val.splitOn cap.op.delim with
    | [] => []
    | first :: more => first :: more.map cap.dropName
  else [cap.val]

def decoded (token : Bytes) : Option JsonValue := newString (urlDecode token)

def RawCapture.jsonValue : Option JsonValue :=
  if cap.mod = .modExplode then
    cap.tokens.foldlM (fun arr token => do (arr.arrayAppend (← decoded token)).toOption) (array [])
  else decoded cap.val

def collectVariables (caps : List RawCapture) : Option JsonValue :=
  caps.foldlM
    (fun obj cap => do (obj.objectSet cap.cutName (← cap.jsonValue)).toOption) (object [])

def rawCaptures (pattern uri : CString) : Option (List RawCapture) :=
  matchStep (pattern.bytes.length + 1) pattern.bytes uri.bytes []

def mcpUriTemplateMatch (pattern uri : Option CString) (outVariables : Bool) :
    Status × Option JsonValue :=
  match pattern, uri with
  | some pattern, some uri =>
    if validPattern pattern.bytes.length pattern.bytes then
      match rawCaptures pattern uri with
      | none => (.notFound, none)
      | some caps =>
        if outVariables then
          match collectVariables caps with
          | none => (.noMem, none)
          | some obj => (.ok, some obj)
        else (.ok, none)
    else (.invalidArgument, none)
  | _, _ => (.invalidArgument, none)

end Mcpkit.Protocol.UriTemplate
