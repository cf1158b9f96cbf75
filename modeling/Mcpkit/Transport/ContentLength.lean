import Mcpkit.Transport.BodyLength
import Mcpkit.Transport.HeaderBlock

/-!
# The lines that announce the length of a body

For a peer or a proxy every line named `Content-Length` has to be a decimal number, all of them the
same, and that is the length of the body.  The parser takes the first of the name, as a C string,
and leaves the check of its value to `strtoul`, which lets through a sign, white space that is no
blank, and whatever a zero byte hides.  Apart from that the two readings agree.
-/

namespace Mcpkit.Transport

open Json Async List

/-- A header line as it stands in the input, with the blanks around its parts removed. -/
structure HeaderLine where
  name : Bytes
  value : Bytes
  deriving DecidableEq, Repr

def HeaderLine.ofLine (line : Bytes) : HeaderLine :=
  ⟨trim (line.takeWhile (· ≠ 0x3A)), trim (behindColon line)⟩

def HeaderLine.stored (l : HeaderLine) : Header := ⟨cString l.name, cString l.value⟩

/-- The lines between the request line and the blank line. -/
def headerLines (data : Bytes) : List HeaderLine :=
  match findHeadersEnd data, findCrlf data with
  | some hsEnd, some lineEnd =>
    let block := (data.take hsEnd).drop (lineEnd + 2)
    (blockLines (block.length + 1) block).map HeaderLine.ofLine
  | _, _ => []

def isLengthName (name : Bytes) : Bool := headerNameEq name "Content-Length"

def lengthLines (data : Bytes) : List HeaderLine :=
  (headerLines data).filter fun l => isLengthName l.name

/-- The line that the parser takes: the first whose name is `Content-Length` up to a zero byte. -/
def takenLine (data : Bytes) : Option HeaderLine :=
  (headerLines data).find? fun l => isLengthName (cString l.name)

variable {headers : List Header} {value : Bytes} {v : Nat}

theorem eq_stored_of_parseHeaderLine {line : Bytes} {header : Header}
    (h : parseHeaderLine line = some header) : header = (HeaderLine.ofLine line).stored := by
  obtain ⟨-, hname, hvalue⟩ := parseHeaderLine_eq_some h
  cases header
  cases hname
  cases hvalue
  rfl

theorem parseHeaderLines_eq_map {fuel : Nat} {block : Bytes}
    (h : parseHeaderLines fuel 0 block = some headers) :
    headers = (blockLines fuel block).map fun line => (HeaderLine.ofLine line).stored := by
  obtain ⟨-, hlines⟩ := (parseHeaderLines_eq_some_iff (Nat.zero_le _)).mp h
  have hstored : ∀ line ∈ blockLines fuel block,
      parseHeaderLine line = some (HeaderLine.ofLine line).stored := by
    intro line hline
    obtain ⟨header, -, hheader⟩ := mem_map.mp (hlines ▸ mem_map_of_mem hline)
    rw [← hheader, ← eq_stored_of_parseHeaderLine hheader.symm]
  rw [map_congr_left hstored, ← Function.comp_def, ← map_map] at hlines
  exact (map_inj_right fun _ _ => Option.some.inj).mp hlines.symm

theorem findHeader_map_stored (lines : List HeaderLine) :
    findHeader (lines.map HeaderLine.stored) "Content-Length" =
      (lines.find? fun l => isLengthName (cString l.name)).map fun l => cString l.value := by
  induction lines with
  | nil => rfl
  | cons l lines ih =>
    rw [map_cons, findHeader_cons, find?_cons, ih]
    change (if isLengthName (cString l.name) = true then _ else _) = _
    cases isLengthName (cString l.name) <;> rfl

variable {data : Bytes}

theorem findHeader_of_parse {req : HttpRequest} {lineEnd hsEnd : Nat}
    (h : ParsedAs data req lineEnd hsEnd) :
    findHeader req.headers "Content-Length" =
      (takenLine data).map (fun l => cString l.value) := by
  rw [parseHeaderLines_eq_map h.headers, takenLine, headerLines, h.headers_end, h.line_end,
    ← findHeader_map_stored, map_map]
  rfl

def IsDecimal (value : Bytes) : Prop := value ≠ [] ∧ ∀ c ∈ value, isDigit c = true

instance (value : Bytes) : Decidable (IsDecimal value) := inferInstanceAs (Decidable (_ ∧ _))

/-- No zero byte hides part of the value, and it begins neither with white space nor with a sign. -/
def IsPlain (value : Bytes) : Prop :=
  0 ∉ value ∧ ∀ c ∈ value.head?, isSpace c = false ∧ c ≠ 0x2D ∧ c ≠ 0x2B

instance (value : Bytes) : Decidable (IsPlain value) := inferInstanceAs (Decidable (_ ∧ _))

theorem IsDecimal.isPlain (h : IsDecimal value) : IsPlain value := by
  refine ⟨?_, ?_⟩
  · intro hzero
    exact absurd (h.2 0 hzero) (by decide)
  · intro c hc
    have hdigit := h.2 c (mem_of_mem_head? hc)
    exact ⟨isSpace_of_isDigit hdigit, ne_sign_of_isDigit hdigit⟩

theorem IsDecimal.isNumeral (h : IsDecimal value) : IsNumeral value [] value [] where
  split := ⟨[], fun _ hc => absurd hc not_mem_nil, by simp⟩
  sign := .inl rfl
  nonempty := h.1
  digits := h.2
  rest := headIs_nil _

theorem IsDecimal.magnitude_eq (hdec : IsDecimal value) (h : contentLength value = some v)
    (hle : v ≤ mcpHttpMaxBody) : magnitude value = v := by
  have hread := strtoul_of_contentLength_eq h
  rw [hdec.isNumeral.strtoul_eq, Option.some.injEq, Prod.mk.injEq] at hread
  have hv := hread.1
  rw [mcpHttpMaxBody] at hle
  split at hv
  · omega
  · rwa [if_neg (by decide)] at hv

theorem IsPlain.isDecimal (hplain : IsPlain value) (h : contentLength (cString value) = some v) :
    IsDecimal value := by
  rw [cString_of_notMem hplain.1] at h
  obtain ⟨sign, digits, hnum⟩ := isNumeral_of_strtoul (strtoul_of_contentLength_eq h)
  obtain ⟨space, hspace, hvalue⟩ := hnum.split
  rw [append_nil] at hvalue
  -- white space or a sign would be the first byte
  have hspace_nil : space = [] := by
    cases space with
    | nil => rfl
    | cons c cs =>
      have hc := (hplain.2 c (by rw [hvalue]; rfl)).1
      rw [hspace c mem_cons_self] at hc
      cases hc
  rw [hspace_nil, nil_append] at hvalue
  have hsign_nil : sign = [] := by
    rcases hnum.sign with hsign | hsign | hsign
    · exact hsign
    · exact absurd rfl (hplain.2 0x2D (by rw [hvalue, hsign]; rfl)).2.1
    · exact absurd rfl (hplain.2 0x2B (by rw [hvalue, hsign]; rfl)).2.2
  rw [hsign_nil, nil_append] at hvalue
  exact hvalue ▸ ⟨hnum.nonempty, hnum.digits⟩

theorem cString_of_isLengthName {name : Bytes} (h : isLengthName name = true) :
    cString name = name := by
  apply cString_of_notMem
  intro hzero
  rw [isLengthName, headerNameEq, beq_iff_eq] at h
  have hmem : tolower 0 ∈ (text "Content-Length").map tolower := h ▸ mem_map_of_mem hzero
  exact absurd hmem (by decide)

theorem lengthLines_of_takenLine_none (h : takenLine data = none) : lengthLines data = [] := by
  rw [lengthLines, filter_eq_nil_iff]
  intro l hl hname
  have hnot := find?_eq_none.mp h l hl
  rw [cString_of_isLengthName hname] at hnot
  exact hnot hname

theorem takenLine_mem {l : HeaderLine} (h : takenLine data = some l) (hname : 0 ∉ l.name) :
    l ∈ lengthLines data := by
  have hfound := find?_some h
  rw [cString_of_notMem hname] at hfound
  exact mem_filter.mpr ⟨mem_of_find?_eq_some h, hfound⟩

/-- The header block and the body of a request agree for every reader of the lines. -/
structure LengthsAgree (data : Bytes) (req : HttpRequest) : Prop where
  decimal : ∀ l ∈ lengthLines data, IsDecimal l.value
  number : ∀ l ∈ lengthLines data, magnitude l.value = req.body.length
  within : ∃ hsEnd, findHeadersEnd data = some hsEnd ∧
    hsEnd + 4 + req.body.length ≤ data.length ∧
    req.body = (data.drop (hsEnd + 4)).take req.body.length
  absent : lengthLines data = [] → req.body = []

/-- The taken line leaves no room for a second reading.  If its name is `Content-Length` as it
stands, the value is plain and every other line writes the same number.  If a zero byte cuts the
name, the other lines write the number it is read as, or it is zero. -/
def UniqueLength (data : Bytes) (taken : HeaderLine) : Prop :=
  if 0 ∈ taken.name then
    (∀ l ∈ lengthLines data, IsDecimal l.value ∧
      contentLength (cString taken.value) = some (magnitude l.value)) ∧
    (lengthLines data = [] → contentLength (cString taken.value) = some 0)
  else
    IsPlain taken.value ∧ ∀ l ∈ lengthLines data,
      l = taken ∨ (IsDecimal l.value ∧ magnitude l.value = magnitude taken.value)

theorem parseBody_eq_some {avail body : Bytes}
    (hvalue : findHeader headers "Content-Length" = some value)
    (h : parseBody headers avail = some body) :
    contentLength value = some body.length ∧ body.length ≤ mcpHttpMaxBody ∧
      body = avail.take body.length := by
  unfold parseBody at h
  rw [hvalue] at h
  dsimp only at h
  split at h
  · cases h
  next want hwant =>
    split at h
    · cases h
    next hroom =>
      cases h
      have hlen : (avail.take want).length = want := length_take_of_le (by omega)
      rw [hlen]
      exact ⟨hwant, by omega, rfl⟩

section

variable {data : Bytes} {req : HttpRequest}

section

variable (h : mcpHttpParseRequest data = some req)
include h

theorem body_of_takenLine_none (htaken : takenLine data = none) : req.body = [] := by
  obtain ⟨lineEnd, hsEnd, h⟩ := mcpHttpParseRequest_eq_some_iff.mp h
  have hfind := findHeader_of_parse h
  have hbody := h.body
  rw [htaken] at hfind
  unfold parseBody at hbody
  rw [hfind] at hbody
  exact (Option.some.inj hbody).symm

variable {taken : HeaderLine}

theorem body_of_takenLine (htaken : takenLine data = some taken) :
    contentLength (cString taken.value) = some req.body.length ∧
      req.body.length ≤ mcpHttpMaxBody := by
  obtain ⟨lineEnd, hsEnd, h⟩ := mcpHttpParseRequest_eq_some_iff.mp h
  have hfind := findHeader_of_parse h
  rw [htaken] at hfind
  have hread := parseBody_eq_some hfind h.body
  exact ⟨hread.1, hread.2.1⟩

theorem body_within :
    ∃ hsEnd, findHeadersEnd data = some hsEnd ∧ hsEnd + 4 + req.body.length ≤ data.length ∧
      req.body = (data.drop (hsEnd + 4)).take req.body.length := by
  obtain ⟨lineEnd, hsEnd', hparsed⟩ := mcpHttpParseRequest_eq_some_iff.mp h
  have hfind := findHeader_of_parse hparsed
  obtain ⟨hsEnd, hend, hle⟩ := exists_findHeadersEnd h
  obtain rfl := Option.some.inj (hend.symm.trans hparsed.headers_end)
  refine ⟨hsEnd, hend, hle, ?_⟩
  cases htaken : takenLine data with
  | none => rw [body_of_takenLine_none h htaken, length_nil, take_zero]
  | some taken =>
    rw [htaken] at hfind
    exact (parseBody_eq_some hfind hparsed.body).2.2

/-- A line that is cut at a zero byte announces a length that other readers do not see. -/
theorem lengthsAgree_iff_of_hidden (htaken : takenLine data = some taken) (hzero : 0 ∈ taken.name) :
    LengthsAgree data req ↔ UniqueLength data taken := by
  obtain ⟨hread, -⟩ := body_of_takenLine h htaken
  rw [UniqueLength, if_pos hzero, hread]
  constructor
  · intro hagree
    refine ⟨?_, ?_⟩
    · intro l hl
      exact ⟨hagree.decimal l hl, congrArg some (hagree.number l hl).symm⟩
    · intro hnone
      rw [hagree.absent hnone, length_nil]
  rintro ⟨hlines, hnone⟩
  refine ⟨fun l hl => (hlines l hl).1, ?_, body_within h, ?_⟩
  · intro l hl
    exact (Option.some.inj (hlines l hl).2).symm
  · intro habsent
    exact eq_nil_of_length_eq_zero (Option.some.inj (hnone habsent))

theorem lengthsAgree_iff_of_named (htaken : takenLine data = some taken) (hname : 0 ∉ taken.name) :
    LengthsAgree data req ↔ UniqueLength data taken := by
  obtain ⟨hread, hle⟩ := body_of_takenLine h htaken
  have hmem := takenLine_mem htaken hname
  rw [UniqueLength, if_neg hname]
  constructor
  · intro hagree
    refine ⟨(hagree.decimal taken hmem).isPlain, ?_⟩
    intro l hl
    refine .inr ⟨hagree.decimal l hl, ?_⟩
    rw [hagree.number l hl, hagree.number taken hmem]
  rintro ⟨hplain, hothers⟩
  have hdec := hplain.isDecimal hread
  rw [cString_of_notMem hplain.1] at hread
  have hnumber : magnitude taken.value = req.body.length := hdec.magnitude_eq hread hle
  refine ⟨?_, ?_, body_within h, ?_⟩
  · intro l hl
    rcases hothers l hl with rfl | hother
    · exact hdec
    · exact hother.1
  · intro l hl
    rcases hothers l hl with rfl | hother
    · exact hnumber
    · exact hother.2.trans hnumber
  · intro habsent
    rw [habsent] at hmem
    cases hmem

end

end

/-- A request that is read has one length for all readers exactly if the line that the parser
takes, if there is one, leaves no room for a second reading. -/
theorem lengthsAgree_iff {data : Bytes} {req : HttpRequest}
    (h : mcpHttpParseRequest data = some req) :
    LengthsAgree data req ↔ ∀ taken ∈ takenLine data, UniqueLength data taken := by
  cases htaken : takenLine data with
  | none =>
    have hnone := lengthLines_of_takenLine_none htaken
    have hbody := body_of_takenLine_none h htaken
    refine ⟨fun _ taken hmem => absurd hmem (Option.not_mem_none taken), fun _ => ?_⟩
    refine ⟨?_, ?_, body_within h, fun _ => hbody⟩ <;> rw [hnone] <;> intro l hl <;> cases hl
  | some taken =>
    simp only [Option.mem_some_iff, forall_eq']
    by_cases hzero : 0 ∈ taken.name
    · exact lengthsAgree_iff_of_hidden h htaken hzero
    · exact lengthsAgree_iff_of_named h htaken hzero

def fiveBehind (lines : List Bytes) : Bytes :=
  text "POST / HTTP/1.1" ++ crlf ++ lines.flatMap (· ++ crlf) ++ crlf ++ text "hello"

/-- Two lines that contradict each other are accepted, and so is a sign. -/
theorem not_lengthsAgree_conflicting :
    (∃ req, mcpHttpParseRequest
        (fiveBehind ["Content-Length: 5", "Content-Length: 3"]) = some req ∧
      ¬LengthsAgree (fiveBehind ["Content-Length: 5", "Content-Length: 3"]) req) ∧
    ∃ req, mcpHttpParseRequest (fiveBehind ["Content-Length: +5"]) = some req ∧
      ¬LengthsAgree (fiveBehind ["Content-Length: +5"]) req := by
  refine ⟨⟨⟨.post, "/", [⟨"Content-Length", "5"⟩, ⟨"Content-Length", "3"⟩],
    text "hello"⟩, by decide +kernel, ?_⟩,
    ⟨⟨.post, "/", [⟨"Content-Length", "+5"⟩], "hello"⟩, by decide +kernel, ?_⟩⟩
  · intro hagree
    have hnumber := hagree.number ⟨"Content-Length", "3"⟩ (by decide +kernel)
    exact absurd hnumber (by decide)
  · intro hagree
    have hdec := hagree.decimal ⟨"Content-Length", "+5"⟩ (by decide +kernel)
    exact absurd hdec (by decide)

theorem lengthsAgree_plain :
    ∃ req, mcpHttpParseRequest
        (fiveBehind ["Content-Length: 5", "content-length:5 "]) = some req ∧
      LengthsAgree (fiveBehind ["Content-Length: 5", "content-length:5 "]) req := by
  refine ⟨⟨.post, "/", [⟨"Content-Length", "5"⟩, ⟨"content-length", "5"⟩],
    text "hello"⟩, by decide +kernel, (lengthsAgree_iff (by decide +kernel)).mpr ?_⟩
  intro taken htaken
  have hfirst : takenLine (fiveBehind ["Content-Length: 5", "content-length:5 "]) =
      some ⟨"Content-Length", "5"⟩ := by decide +kernel
  cases hfirst.symm.trans htaken
  rw [UniqueLength, if_neg (by decide)]
  decide +kernel

end Mcpkit.Transport
