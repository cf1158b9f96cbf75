import Mcpkit.Json.Value

/-!
# The recursive descent parser

`builtin_parse` over the bytes that remain: a parser returns its result with the rest of the input,
or nothing.  The depth counter is restored on every way out of a value, so it is an argument.
`builtinParse` supplies three units of fuel a byte; every round of a loop and every nested value
consumes a byte, so the fuel does not run out before the input does.
-/

namespace Mcpkit.Json

open JsonValue

/-- The C library functions that read and print numbers. -/
class Libc where
  /-- The result of `strtod` on a string, and the number of characters it consumed. -/
  strtod : Bytes → Binary64 × Nat
  /-- The text `snprintf` leaves in a 32-byte buffer for the format `%.17g`. -/
  snprintf17g : Binary64 → Bytes

def mcpJsonMaxDepth : Nat := 128

def skipWs (ps : Bytes) : Bytes :=
  ps.dropWhile fun b => b == 0x20 || b == 0x09 || b == 0x0A || b == 0x0D

def matchLit (ps lit : Bytes) : Option Bytes :=
  if lit.isPrefixOf ps then some (ps.drop lit.length) else none

def isDigit (b : UInt8) : Bool := 0x30 ≤ b && b ≤ 0x39

def scanDigits (s : Bytes) : Bytes := s.dropWhile isDigit

def scanMinus : Bytes → Bytes
  | b :: s => if b == 0x2D then s else b :: s
  | [] => []

def scanInt : Bytes → Option Bytes
  | [] => none
  | b :: s =>
    if b == 0x30 then some s
    else if 0x31 ≤ b && b ≤ 0x39 then some (scanDigits (b :: s))
    else none

def scanDigits1 (s : Bytes) : Option Bytes :=
  if (scanDigits s).length == s.length then none else some (scanDigits s)

def scanFrac : Bytes → Option Bytes
  | [] => some []
  | b :: s => if b == 0x2E then scanDigits1 s else some (b :: s)

def scanExpSign : Bytes → Bytes
  | b :: s => if b == 0x2B || b == 0x2D then s else b :: s
  | [] => []

def scanExp : Bytes → Option Bytes
  | [] => some []
  | b :: s => if b == 0x65 || b == 0x45 then scanDigits1 (scanExpSign s) else some (b :: s)

def scanNumber (p : Bytes) : Option Nat := do
  let s ← scanInt (scanMinus p)
  let s ← scanFrac s
  let s ← scanExp s
  return p.length - s.length

def parseNumber [Libc] (ps : Bytes) : Option (JsonValue × Bytes) := do
  let len ← scanNumber ps
  let tmp := ps.take len
  let (d, used) := Libc.strtod tmp
  if used == len && d.isFinite then
    let v ← newNumber d
    return (v, ps.drop len)
  else none

def hexDigit (c : UInt8) : Option Nat :=
  if 0x30 ≤ c && c ≤ 0x39 then some (c.toNat - 0x30)
  else if 0x61 ≤ c && c ≤ 0x66 then some (c.toNat - 0x61 + 10)
  else if 0x41 ≤ c && c ≤ 0x46 then some (c.toNat - 0x41 + 10)
  else none

def parseHex4 : Bytes → Option (Nat × Bytes)
  | a :: b :: c :: d :: ps => do
    let x ← hexDigit a
    let y ← hexDigit b
    let z ← hexDigit c
    let w ← hexDigit d
    return ((((0 <<< 4 ||| x) <<< 4 ||| y) <<< 4 ||| z) <<< 4 ||| w, ps)
  | _ => none

/-- `parse_unicode_escape`, after `\u`: the buffer grows by one encoded code point. -/
def parseUnicodeEscape (ps buf : Bytes) : Option (Bytes × Bytes) := do
  let (hi, ps) ← parseHex4 ps
  if 0xD800 ≤ hi && hi ≤ 0xDBFF then
    match ps with
    | 0x5C :: 0x75 :: ps =>
      let (lo, ps) ← parseHex4 ps
      if lo < 0xDC00 || lo > 0xDFFF then none
      else
        let cp := 0x10000 + ((hi - 0xD800) <<< 10) + (lo - 0xDC00)
        if cp > 0x10FFFF then none else some (buf ++ utf8Encode cp, ps)
    | _ => none
  else if 0xDC00 ≤ hi && hi ≤ 0xDFFF then none
  else if hi > 0x10FFFF then none
  else some (buf ++ utf8Encode hi, ps)

def simpleEscape (e : UInt8) : Option UInt8 :=
  if e == 0x22 then some 0x22
  else if e == 0x5C then some 0x5C
  else if e == 0x2F then some 0x2F
  else if e == 0x62 then some 0x08
  else if e == 0x66 then some 0x0C
  else if e == 0x6E then some 0x0A
  else if e == 0x72 then some 0x0D
  else if e == 0x74 then some 0x09
  else none

/-- The loop of `parse_string_raw`, up to and including the closing quote. -/
def parseStringLoop : Nat → Bytes → Bytes → Option (Bytes × Bytes)
  | 0, _, _ => none
  | _ + 1, [], _ => none
  | fuel + 1, c :: ps, buf =>
    if c == 0x22 then some (buf, ps)
    else if c == 0x5C then
      match ps with
      | [] => none
      | e :: ps =>
        match simpleEscape e with
        | some x => parseStringLoop fuel ps (buf ++ [x])
        | none =>
          if e == 0x75 then
            match parseUnicodeEscape ps buf with
            | some (buf, ps) => parseStringLoop fuel ps buf
            | none => none
          else none
    else if c < 0x20 then none
    else parseStringLoop fuel ps (buf ++ [c])

/-- `parse_string_raw`, at the opening quote: the decoded buffer and the rest. -/
def parseStringRaw (ps : Bytes) : Option (Bytes × Bytes) := do
  let (buf, rest) ← parseStringLoop ps.length (ps.drop 1) []
  if utf8Valid buf then some (buf, rest) else none

mutual

def parseValue [Libc] : Nat → Nat → Bytes → Option (JsonValue × Bytes)
  | 0, _, _ => none
  | _ + 1, _, [] => none
  | fuel + 1, depth, c :: ps =>
    if c == 0x6E then
      (matchLit (c :: ps) [0x6E, 0x75, 0x6C, 0x6C]).map (null, ·)
    else if c == 0x74 then
      (matchLit (c :: ps) [0x74, 0x72, 0x75, 0x65]).map (bool true, ·)
    else if c == 0x66 then
      (matchLit (c :: ps) [0x66, 0x61, 0x6C, 0x73, 0x65]).map (bool false, ·)
    else if c == 0x22 then
      match parseStringRaw (c :: ps) with
      | some (s, rest) => (newStringN (cString s)).map (·, rest)
      | none => none
    else if c == 0x5B then parseArray fuel depth ps
    else if c == 0x7B then parseObject fuel depth ps
    else parseNumber (c :: ps)
termination_by structural fuel => fuel

def parseArray [Libc] : Nat → Nat → Bytes → Option (JsonValue × Bytes)
  | 0, _, _ => none
  | fuel + 1, depth, ps =>
    if depth + 1 > mcpJsonMaxDepth then none
    else
      match skipWs ps with
      | 0x5D :: rest => some (.array [], rest)
      | ps => parseItems fuel (depth + 1) ps []
termination_by structural fuel => fuel

def parseItems [Libc] : Nat → Nat → Bytes → List JsonValue → Option (JsonValue × Bytes)
  | 0, _, _, _ => none
  | fuel + 1, depth, ps, items =>
    match parseValue fuel depth (skipWs ps) with
    | none => none
    | some (item, ps) =>
      match skipWs ps with
      | 0x2C :: ps => parseItems fuel depth ps (items ++ [item])
      | 0x5D :: ps => some (.array (items ++ [item]), ps)
      | _ => none
termination_by structural fuel => fuel

def parseObject [Libc] : Nat → Nat → Bytes → Option (JsonValue × Bytes)
  | 0, _, _ => none
  | fuel + 1, depth, ps =>
    if depth + 1 > mcpJsonMaxDepth then none
    else
      match skipWs ps with
      | 0x7D :: rest => some (.object [], rest)
      | ps => parseMembers fuel (depth + 1) ps (.object [])
termination_by structural fuel => fuel

def parseMembers [Libc] : Nat → Nat → Bytes → JsonValue → Option (JsonValue × Bytes)
  | 0, _, _, _ => none
  | fuel + 1, depth, ps, obj =>
    match skipWs ps with
    | 0x22 :: ps =>
      match parseStringRaw (0x22 :: ps) with
      | none => none
      | some (key, ps) =>
        match skipWs ps with
        | 0x3A :: ps =>
          match parseValue fuel depth (skipWs ps) with
          | none => none
          | some (val, ps) =>
            match objectSet obj key val with
            | .error _ => none
            | .ok obj =>
              match skipWs ps with
              | 0x2C :: ps => parseMembers fuel depth ps obj
              | 0x7D :: ps => some (obj, ps)
              | _ => none
        | _ => none
    | _ => none
termination_by structural fuel => fuel

end

def builtinParse [Libc] (text : Bytes) : Option JsonValue :=
  if utf8Valid text then
    match parseValue (3 * text.length + 3) 0 (skipWs text) with
    | none => none
    | some (v, ps) => if (skipWs ps).isEmpty then some v else none
  else none

end Mcpkit.Json
