import Mcpkit.Json.Value
import Mcpkit.Lib.Occurrence

/-!
# HTTP requests and responses

The request parser works on a buffer that may hold more than one request.  It reads the request line
and the headers up to the blank line, and as many body bytes as the first `Content-Length` header
announces.  What follows a request does not change it, and a buffer with only some of the announced
body gives nothing.
-/

namespace Mcpkit.Transport

open Json List Option

def text (s : String) : Bytes := (JString.lit s).bytes

instance : Coe String Bytes := ⟨text⟩

def crlf : Bytes := [0x0D, 0x0A]

def crlfCrlf : Bytes := [0x0D, 0x0A, 0x0D, 0x0A]

inductive HttpMethod where
  | get | post | delete | unknown
  deriving DecidableEq, Repr

/-- A header as its readers see it: a name and a value that end at a zero byte. -/
structure Header where
  name : Bytes
  value : Bytes
  deriving DecidableEq, Repr

/-- A parsed request.  The source keeps a null body pointer for an empty body. -/
structure HttpRequest where
  method : HttpMethod
  target : Bytes
  headers : List Header
  body : Bytes
  deriving DecidableEq, Repr

def mcpHttpMaxHeaders : Nat := 64
def mcpHttpMaxLine : Nat := 8192
def mcpHttpMaxBody : Nat := 4194304

def findCrlf (data : Bytes) : Option Nat := List.firstOccurrence crlf data

def findHeadersEnd (data : Bytes) : Option Nat := List.firstOccurrence crlfCrlf data

def tolower (c : UInt8) : UInt8 := if 0x41 ≤ c ∧ c ≤ 0x5A then c + 0x20 else c

def headerNameEq (a b : Bytes) : Bool := a.map tolower == b.map tolower

def isBlank (c : UInt8) : Bool := c == 0x20 || c == 0x09

def trim (s : Bytes) : Bytes := ((s.dropWhile isBlank).reverse.dropWhile isBlank).reverse

def methodOf (name : Bytes) : HttpMethod :=
  if name = "GET" then .get
  else if name = "POST" then .post
  else if name = "DELETE" then .delete
  else .unknown

def splitAtByte (c : UInt8) (s : Bytes) : Option (Bytes × Bytes) :=
  if c ∈ s then some (s.takeWhile (· ≠ c), (s.dropWhile (· ≠ c)).drop 1) else none

def parseRequestLine (line : Bytes) : Option (HttpMethod × Bytes) :=
  match splitAtByte 0x20 line with
  | none => none
  | some (method, rest) =>
    match splitAtByte 0x20 rest with
    | none => none
    | some (target, version) =>
      if method = [] ∨ target = [] ∨ version ≠ "HTTP/1.1" then none
      else some (methodOf method, cString target)

def parseHeaderLine (line : Bytes) : Option Header :=
  if mcpHttpMaxLine < line.length then none
  else
    match splitAtByte 0x3A line with
    | none => none
    | some (name, value) =>
      if trim name = [] then none else some ⟨cString (trim name), cString (trim value)⟩

/-- The header lines up to the blank line, `n` of them already read. -/
def parseHeaderLines : Nat → Nat → Bytes → Option (List Header)
  | 0, _, _ => some []
  | fuel + 1, n, block =>
    if block = [] then some []
    else
      let line := block.take ((findCrlf block).getD block.length)
      match parseHeaderLine line with
      | none => none
      | some header =>
        if mcpHttpMaxHeaders ≤ n then none
        else (parseHeaderLines fuel (n + 1) (block.drop (line.length + 2))).map (header :: ·)

def findHeader (headers : List Header) (name : String) : Option Bytes :=
  (headers.find? fun h => headerNameEq h.name (text name)).map Header.value

def isSpace (c : UInt8) : Bool := c == 0x20 || (0x09 ≤ c && c ≤ 0x0D)

def isDigit (c : UInt8) : Bool := 0x30 ≤ c && c ≤ 0x39

/-- `strtoul` in base ten on a 64-bit `unsigned long`: leading white space, one sign, digits.  A
value out of range is the largest one, a minus sign negates modulo `2^64`. -/
def strtoul (s : Bytes) : Option (Nat × Bytes) :=
  let s := s.dropWhile isSpace
  let negative := s.head? = some 0x2D
  let s := if negative ∨ s.head? = some 0x2B then s.drop 1 else s
  let digits := s.takeWhile isDigit
  if digits = [] then none
  else
    let v : Nat := digits.foldl (fun v c => v * 10 + (c.toNat - 0x30)) 0
    let v := if 2 ^ 64 ≤ v then 2 ^ 64 - 1 else if negative then (2 ^ 64 - v) % 2 ^ 64 else v
    some (v, s.dropWhile isDigit)

/-- The announced body length: the whole value of the header has to be a number. -/
def contentLength (value : Bytes) : Option Nat :=
  match strtoul value with
  | some (v, []) => some v
  | _ => none

def parseHead (data : Bytes) (hsEnd : Nat) : Option (HttpMethod × Bytes × List Header) :=
  match findCrlf data with
  | none => none
  | some lineEnd =>
    if hsEnd < lineEnd then none
    else
      match parseRequestLine (data.take lineEnd) with
      | none => none
      | some (method, target) =>
        let block := (data.take hsEnd).drop (lineEnd + 2)
        (parseHeaderLines (block.length + 1) 0 block).map fun headers => (method, target, headers)

/-- The body: as many of the available bytes as the first `Content-Length` says. -/
def parseBody (headers : List Header) (avail : Bytes) : Option Bytes :=
  match findHeader headers "Content-Length" with
  | none => some []
  | some value =>
    match contentLength value with
    | none => none
    | some want =>
      if mcpHttpMaxBody < want ∨ avail.length < want then none else some (avail.take want)

def mcpHttpParseRequest (data : Bytes) : Option HttpRequest :=
  match findHeadersEnd data with
  | none => none
  | some hsEnd =>
    match parseHead data hsEnd with
    | none => none
    | some (method, target, headers) =>
      (parseBody headers (data.drop (hsEnd + 4))).map fun body => ⟨method, target, headers, body⟩

def mcpHttpHeader (req : HttpRequest) (name : String) : Option Bytes := findHeader req.headers name

variable {data avail body : Bytes} {hsEnd : Nat} {headers : List Header} {req : HttpRequest}

theorem findHeadersEnd_le (h : findHeadersEnd data = some hsEnd) : hsEnd + 4 ≤ data.length := by
  simpa [crlfCrlf] using add_length_le_of_firstOccurrence h

/-- The header block of a buffer: what stands between the request line and the blank line. -/
def headerBlock (data : Bytes) (lineEnd hsEnd : Nat) : Bytes := (data.take hsEnd).drop (lineEnd + 2)

/-- How a request is read off a buffer. -/
structure ParsedAs (data : Bytes) (req : HttpRequest) (lineEnd hsEnd : Nat) : Prop where
  headers_end : findHeadersEnd data = some hsEnd
  line_end : findCrlf data = some lineEnd
  le : lineEnd ≤ hsEnd
  requestLine : parseRequestLine (data.take lineEnd) = some (req.method, req.target)
  headers : parseHeaderLines ((headerBlock data lineEnd hsEnd).length + 1) 0
    (headerBlock data lineEnd hsEnd) = some req.headers
  body : parseBody req.headers (data.drop (hsEnd + 4)) = some req.body

theorem mcpHttpParseRequest_eq_some_iff :
    mcpHttpParseRequest data = some req ↔ ∃ lineEnd hsEnd, ParsedAs data req lineEnd hsEnd := by
  constructor
  · intro h
    unfold mcpHttpParseRequest at h
    split at h
    · cases h
    next hsEnd hend =>
      split at h
      · cases h
      next method target headers hhead =>
        obtain ⟨body, hbody, rfl⟩ := map_eq_some_iff.mp h
        unfold parseHead at hhead
        split at hhead
        · cases hhead
        next lineEnd hline =>
          split at hhead
          · cases hhead
          next hle =>
            split at hhead
            · cases hhead
            next hfirst =>
              obtain ⟨headers, hlines, heq⟩ := map_eq_some_iff.mp hhead
              cases heq
              exact ⟨lineEnd, hsEnd, hend, hline, Nat.not_lt.mp hle, hfirst, hlines, hbody⟩
  · rintro ⟨lineEnd, hsEnd, h⟩
    have hhead : parseHead data hsEnd = some (req.method, req.target, req.headers) := by
      simp only [parseHead, h.line_end, if_neg (Nat.not_lt.mpr h.le), h.requestLine,
        map_eq_some_iff]
      exact ⟨req.headers, h.headers, rfl⟩
    simp only [mcpHttpParseRequest, h.headers_end, hhead, h.body, map_some]

theorem parseBody_append (h : parseBody headers avail = some body) (rest : Bytes) :
    parseBody headers (avail ++ rest) = some body := by
  unfold parseBody at h ⊢
  split at h
  · exact h
  next value _ =>
    split at h
    · cases h
    next want _ =>
      split at h
      · cases h
      next hwant =>
        have hle : want ≤ avail.length := by omega
        have hlong : ¬(mcpHttpMaxBody < want ∨ (avail ++ rest).length < want) := by
          rw [length_append]
          omega
        rwa [if_neg hlong, take_append_of_le_length hle]

theorem mcpHttpParseRequest_append (h : mcpHttpParseRequest data = some req) (rest : Bytes) :
    mcpHttpParseRequest (data ++ rest) = some req := by
  obtain ⟨lineEnd, hsEnd, h⟩ := mcpHttpParseRequest_eq_some_iff.mp h
  have hle := findHeadersEnd_le h.headers_end
  have hline : lineEnd ≤ data.length := h.le.trans (by omega)
  have hblock : headerBlock (data ++ rest) lineEnd hsEnd = headerBlock data lineEnd hsEnd := by
    rw [headerBlock, headerBlock, take_append_of_le_length (by omega)]
  refine mcpHttpParseRequest_eq_some_iff.mpr ⟨lineEnd, hsEnd, ?_, ?_, h.le, ?_, ?_, ?_⟩
  · exact firstOccurrence_append h.headers_end rest
  · exact firstOccurrence_append h.line_end rest
  · rw [take_append_of_le_length hline]
    exact h.requestLine
  · rw [hblock]
    exact h.headers
  · rw [drop_append_of_le_length hle]
    exact parseBody_append h.body rest

theorem prefix_of_parseBody (h : parseBody headers avail = some body) : body <+: avail := by
  unfold parseBody at h
  split at h
  · cases h
    exact nil_prefix
  split at h
  · cases h
  split at h
  · cases h
  · cases h
    exact take_prefix _ _

theorem exists_findHeadersEnd (h : mcpHttpParseRequest data = some req) :
    ∃ hs, findHeadersEnd data = some hs ∧ hs + 4 + req.body.length ≤ data.length := by
  obtain ⟨lineEnd, hsEnd, h⟩ := mcpHttpParseRequest_eq_some_iff.mp h
  have hle := findHeadersEnd_le h.headers_end
  have hlen := (prefix_of_parseBody h.body).length_le
  rw [length_drop] at hlen
  exact ⟨hsEnd, h.headers_end, by omega⟩

/-- A response under construction; the reason and the headers are C strings. -/
structure HttpResponse where
  status : Nat
  reason : String
  headers : List (String × Bytes)
  body : Bytes

/-- `%u` and `%zu`. -/
def unsignedDecimal (n : Nat) : Bytes := (Nat.toDigits 10 n).map fun c => UInt8.ofNat c.toNat

def mcpHttpResponseSerialize (resp : HttpResponse) : Bytes :=
  text "HTTP/1.1 " ++ unsignedDecimal resp.status ++ text " " ++ text resp.reason ++ crlf ++
    resp.headers.flatMap (fun h => text h.1 ++ text ": " ++ h.2 ++ crlf) ++
    text "Content-Length: " ++ unsignedDecimal resp.body.length ++ crlfCrlf ++ resp.body

end Mcpkit.Transport
