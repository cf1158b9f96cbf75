import Mcpkit.Lib.Decimal
import Mcpkit.Transport.BodyLength
import Mcpkit.Transport.HeaderBlock

/-!
# Well-formed requests

The text of a request: a request line, fields that each stand on a line of their
own, a blank line and a body whose length a field announces.  Of such a request
the server makes out the end, whatever follows it, and it waits as long as a
part of it is missing.
-/

namespace Mcpkit.Transport.Async

open Json List Decimal Nat Bool

def isVisible (c : UInt8) : Bool := 0x21 ≤ c && c != 0x7F

/-- A character of a method or of the name of a field. -/
def isToken (c : UInt8) : Bool := isVisible c && c != 0x3A

/-- A text without a zero byte or the end of a line. -/
def OneLine (s : Bytes) : Prop := ∀ c ∈ s, c ≠ 0 ∧ c ≠ 0x0D ∧ c ≠ 0x0A

instance (s : Bytes) : Decidable (OneLine s) :=
  decidableBAll (p := fun c => c ≠ 0 ∧ c ≠ 0x0D ∧ c ≠ 0x0A) s

/-- A header field: its name, and what stands between the colon and the end of the line. -/
structure Field where
  name : Bytes
  value : Bytes

namespace Field

def line (f : Field) : Bytes := f.name ++ 0x3A :: f.value

def header (f : Field) : Header := ⟨f.name, trim f.value⟩

/-- The field announces the length of the body. -/
def isLength (f : Field) : Bool := headerNameEq f.name "Content-Length"

structure WellFormed (f : Field) : Prop where
  name_ne_nil : f.name ≠ []
  name : ∀ c ∈ f.name, isToken c = true
  value : OneLine f.value
  short : f.line.length ≤ mcpHttpMaxLine

end Field

/-- The value is the number in decimal, with blanks around it. -/
def Writes (value : Bytes) (n : Nat) : Prop :=
  ∃ lead digits trail, (∀ c ∈ lead, isBlank c = true) ∧ (∀ c ∈ trail, isBlank c = true) ∧
    digits ≠ [] ∧ (∀ c ∈ digits, isDigit c = true) ∧ magnitude digits = n ∧
    value = lead ++ (digits ++ trail)

structure RequestText where
  method : Bytes
  target : Bytes
  fields : List Field
  body : Bytes

namespace RequestText

def requestLine (q : RequestText) : Bytes :=
  q.method ++ 0x20 :: (q.target ++ 0x20 :: text "HTTP/1.1")

def lines (q : RequestText) : List Bytes := q.requestLine :: q.fields.map Field.line

def head (q : RequestText) : Bytes := crlf.intercalate q.lines ++ crlfCrlf

def bytes (q : RequestText) : Bytes := q.head ++ q.body

def request (q : RequestText) : HttpRequest :=
  ⟨methodOf q.method, q.target, q.fields.map Field.header, q.body⟩

structure WellFormed (q : RequestText) : Prop where
  method_ne_nil : q.method ≠ []
  method : ∀ c ∈ q.method, isToken c = true
  target_ne_nil : q.target ≠ []
  target : ∀ c ∈ q.target, isVisible c = true
  fields : ∀ f ∈ q.fields, f.WellFormed
  count : q.fields.length ≤ mcpHttpMaxHeaders
  length : ∀ f ∈ q.fields, f.isLength = true → Writes f.value q.body.length
  announced : q.body ≠ [] → ∃ f ∈ q.fields, f.isLength = true
  small : q.body.length ≤ maxBody

end RequestText

variable {c : UInt8} {s l : Bytes} {f : Field} {n : Nat}

theorem ne_of_isVisible : ∀ {c : UInt8}, isVisible c = true →
    c ≠ 0 ∧ c ≠ 0x0D ∧ c ≠ 0x0A ∧ c ≠ 0x20 ∧ isBlank c = false :=
  @(Utf8.forall_byte (by decide +kernel))

theorem isVisible_of_isToken (h : isToken c = true) : isVisible c = true ∧ c ≠ 0x3A := by
  rwa [isToken, and_eq_true, bne_iff_ne] at h

theorem oneLine_of_isVisible (h : ∀ c ∈ s, isVisible c = true) : OneLine s := by
  intro c hc
  obtain ⟨h0, hcr, hlf, -⟩ := ne_of_isVisible (h c hc)
  exact ⟨h0, hcr, hlf⟩

theorem oneLine_of_isToken (h : ∀ c ∈ s, isToken c = true) : OneLine s :=
  oneLine_of_isVisible fun c hc => (isVisible_of_isToken (h c hc)).1

theorem OneLine.append {t : Bytes} (hs : OneLine s) (ht : OneLine t) : OneLine (s ++ t) := by
  intro c hc
  exact (mem_append.mp hc).elim (hs c) (ht c)

theorem OneLine.cons (hc : c ≠ 0 ∧ c ≠ 0x0D ∧ c ≠ 0x0A) (hs : OneLine s) : OneLine (c :: s) := by
  intro d hd
  rcases mem_cons.mp hd with rfl | hmem
  · exact hc
  · exact hs d hmem

theorem trim_append {lead mid trail : Bytes} (hlead : ∀ c ∈ lead, isBlank c = true)
    (htrail : ∀ c ∈ trail, isBlank c = true) (hne : mid ≠ [])
    (hmid : ∀ c ∈ mid, isBlank c = false) : trim (lead ++ (mid ++ trail)) = mid := by
  have hhead : ∀ {s : Bytes}, s ≠ [] → (∀ c ∈ s, isBlank c = false) → ∀ t,
      HeadIs (fun c => !isBlank c) (s ++ t) := by
    intro s hs hall t
    obtain ⟨c, cs, rfl⟩ := exists_cons_of_ne_nil hs
    refine headIs_cons.mpr ?_
    rw [hall c mem_cons_self]
    rfl
  have hreverse : HeadIs (fun c => !isBlank c) (mid.reverse ++ []) :=
    hhead (reverse_ne_nil_iff.mpr hne) (fun c hc => hmid c (mem_reverse.mp hc)) []
  rw [append_nil] at hreverse
  rw [trim, dropWhile_of_all hlead (hhead hne hmid trail), reverse_append,
    dropWhile_of_all (fun c hc => htrail c (mem_reverse.mp hc)) hreverse, reverse_reverse]

theorem OneLine.zero_notMem (h : OneLine s) : (0 : UInt8) ∉ s := fun hmem => (h 0 hmem).1 rfl

theorem unbroken_of_notMem (h : 0x0D ∉ s) : Unbroken s :=
  fun hinside => h (hinside.subset (by decide))

theorem OneLine.unbroken (h : OneLine s) : Unbroken s :=
  unbroken_of_notMem fun hmem => (h 0x0D hmem).2.1 rfl

theorem splitAtByte_append (hs : c ∉ s) (t : Bytes) :
    splitAtByte c (s ++ c :: t) = some (s, t) := by
  have hall : ∀ b ∈ s, decide (b ≠ c) = true := by
    intro b hb
    rw [decide_eq_true_eq]
    rintro rfl
    exact hs hb
  have hhead : HeadIs (fun b => !decide (b ≠ c)) (c :: t) := headIs_cons.mpr (by simp)
  rw [splitAtByte, if_pos (by simp), takeWhile_of_all hall hhead, dropWhile_of_all hall hhead]
  rfl

theorem trim_subset (hc : c ∈ trim s) : c ∈ s := by
  obtain ⟨lead, trail, -, -, hsplit⟩ := exists_trim s
  rw [hsplit]
  exact mem_append_right lead (mem_append_left trail hc)

theorem Field.WellFormed.parseHeaderLine_line (h : f.WellFormed) :
    parseHeaderLine f.line = some f.header := by
  have hname : trim f.name = f.name := by
    have hblank : ∀ c ∈ f.name, isBlank c = false := fun c hc =>
      (ne_of_isVisible (isVisible_of_isToken (h.name c hc)).1).2.2.2.2
    have htrim := @trim_append [] f.name [] nofun nofun h.name_ne_nil hblank
    rwa [append_nil] at htrim
  rw [parseHeaderLine, if_neg (not_lt.mpr h.short), Field.line,
    splitAtByte_append fun hmem => (isVisible_of_isToken (h.name _ hmem)).2 rfl]
  dsimp only
  rw [hname, if_neg h.name_ne_nil, cString_of_notMem (oneLine_of_isToken h.name).zero_notMem,
    cString_of_notMem fun hmem => h.value.zero_notMem (trim_subset hmem)]
  rfl

theorem Field.WellFormed.oneLine_line (h : f.WellFormed) : OneLine f.line :=
  (oneLine_of_isToken h.name).append (h.value.cons (by decide))

theorem Field.WellFormed.line_ne_nil : f.line ≠ [] :=
  append_ne_nil_of_right_ne_nil f.name (cons_ne_nil _ _)

theorem RequestText.WellFormed.parseRequestLine_requestLine {q : RequestText} (h : q.WellFormed) :
    parseRequestLine q.requestLine = some (methodOf q.method, q.target) := by
  have hparts : ¬(q.method = [] ∨ q.target = [] ∨ text "HTTP/1.1" ≠ text "HTTP/1.1") := by
    simp [h.method_ne_nil, h.target_ne_nil]
  rw [parseRequestLine, RequestText.requestLine, splitAtByte_append fun hmem =>
    (ne_of_isVisible (isVisible_of_isToken (h.method _ hmem)).1).2.2.2.1 rfl]
  dsimp only
  rw [splitAtByte_append fun hmem => (ne_of_isVisible (h.target _ hmem)).2.2.2.1 rfl]
  dsimp only
  rw [if_neg hparts, cString_of_notMem (oneLine_of_isVisible h.target).zero_notMem]

theorem oneLine_unsignedDecimal (n : Nat) : OneLine (unsignedDecimal n) := by
  intro c hc
  have hdigit := (isDigit_of_mem_numeral hc).1
  refine ⟨?_, ?_, ?_⟩ <;> (rintro rfl; exact absurd hdigit (by decide))

theorem trim_unsignedDecimal (n : Nat) : trim (0x20 :: unsignedDecimal n) = unsignedDecimal n := by
  have hblank : ∀ c ∈ unsignedDecimal n, isBlank c = false := by
    intro c hc
    rw [isBlank, or_eq_false_iff, beq_eq_false_iff_ne, beq_eq_false_iff_ne]
    have hdigit := (isDigit_of_mem_numeral hc).1
    refine ⟨?_, ?_⟩ <;> (rintro rfl; exact absurd hdigit (by decide))
  have htrim : trim ([0x20] ++ (unsignedDecimal n ++ [])) = unsignedDecimal n :=
    trim_append (forall_mem_singleton.mpr rfl) (fun _ h => by cases h) (numeral_ne_nil n) hblank
  rwa [append_nil] at htrim

namespace RequestText

variable {q : RequestText}

theorem oneLine_requestLine (h : q.WellFormed) : OneLine q.requestLine :=
  (oneLine_of_isToken h.method).append (((oneLine_of_isVisible h.target).append
    ((oneLine_of_isVisible (by decide +kernel)).cons (by decide))).cons (by decide))

theorem lines_wellFormed (h : q.WellFormed) : ∀ l ∈ q.lines, l ≠ [] ∧ OneLine l := by
  intro l hl
  rcases mem_cons.mp hl with rfl | hfield
  · exact ⟨append_ne_nil_of_right_ne_nil _ (cons_ne_nil _ _), oneLine_requestLine h⟩
  · obtain ⟨f, hf, rfl⟩ := mem_map.mp hfield
    exact ⟨Field.WellFormed.line_ne_nil, (h.fields f hf).oneLine_line⟩

theorem lines_unbroken (h : q.WellFormed) : ∀ l ∈ q.lines, l ≠ [] ∧ Unbroken l := by
  intro l hl
  obtain ⟨hne, hone⟩ := lines_wellFormed h l hl
  exact ⟨hne, hone.unbroken⟩

theorem findHeadersEnd_head (h : q.WellFormed) (rest : Bytes) :
    findHeadersEnd (q.head ++ rest) = some (crlf.intercalate q.lines).length := by
  rw [head, append_assoc]
  exact findHeadersEnd_lines (cons_ne_nil _ _) (lines_unbroken h) rest

theorem isNumeral_of_writes {value : Bytes} (h : Writes value n) {rest : Bytes}
    (hrest : HeadIs (fun c => !isDigit c) rest) :
    ∃ digits behind, magnitude digits = n ∧ IsNumeral (value ++ rest) [] digits behind := by
  obtain ⟨lead, digits, trail, hlead, htrail, hne, hdigits, hn, rfl⟩ := h
  refine ⟨digits, trail ++ rest, hn, ⟨lead, ?_, ?_⟩, .inl rfl, hne, hdigits, ?_⟩
  · intro c hc
    exact isSpace_of_isBlank (hlead c hc)
  · simp
  cases trail with
  | nil => exact hrest
  | cons c trail =>
    refine headIs_cons.mpr ?_
    rw [isDigit_of_isBlank (htrail c mem_cons_self)]
    rfl

theorem contentLength_trim {value : Bytes} (h : Writes value n) (hn : n ≤ maxBody) :
    contentLength (trim value) = some n := by
  obtain ⟨lead, digits, trail, hlead, htrail, hne, hdigits, rfl, rfl⟩ := h
  have hblank : ∀ c ∈ digits, isBlank c = false := by
    intro c hc
    rw [eq_false_iff]
    intro hblank
    have hdigit := hdigits c hc
    rw [isDigit_of_isBlank hblank] at hdigit
    cases hdigit
  have hnumeral : IsNumeral digits [] digits [] :=
    ⟨⟨[], nofun, by rw [append_nil]; rfl⟩, .inl rfl, hne, hdigits, headIs_nil _⟩
  rw [maxBody] at hn
  rw [trim_append hlead htrail hne hblank, contentLength, hnumeral.strtoul_eq,
    if_neg (by omega), if_neg (by decide)]

theorem parseBody_body (h : q.WellFormed) (rest : Bytes) :
    parseBody (q.fields.map Field.header) (q.body ++ rest) = some q.body := by
  have hfind : findHeader (q.fields.map Field.header) "Content-Length" =
      (q.fields.find? Field.isLength).map fun f => trim f.value := by
    rw [findHeader, find?_map, Option.map_map]
    rfl
  rw [parseBody, hfind]
  cases hfield : q.fields.find? Field.isLength with
  | none =>
    have hbody : q.body = [] := by
      by_contra hne
      obtain ⟨f, hf, hlength⟩ := h.announced hne
      exact absurd hlength (find?_eq_none.mp hfield f hf)
    rw [hbody]
    rfl
  | some f =>
    have hwrites := h.length f (mem_of_find?_eq_some hfield) (find?_some hfield)
    have hfits : ¬(mcpHttpMaxBody < q.body.length ∨ (q.body ++ rest).length < q.body.length) := by
      have hsmall := h.small
      rw [maxBody] at hsmall
      rw [mcpHttpMaxBody, length_append]
      omega
    dsimp only [Option.map_some]
    rw [contentLength_trim hwrites h.small]
    dsimp only
    rw [if_neg hfits, take_left]

theorem mcpHttpParseRequest_bytes (h : q.WellFormed) (rest : Bytes) :
    mcpHttpParseRequest (q.bytes ++ rest) = some q.request := by
  have hfields : (q.fields.map Field.line).map parseHeaderLine =
      (q.fields.map Field.header).map some := by
    rw [map_map, map_map]
    exact map_congr_left fun f hf => (h.fields f hf).parseHeaderLine_line
  rw [bytes, head, append_assoc, append_assoc]
  exact mcpHttpParseRequest_lines (lines_unbroken h) h.parseRequestLine_requestLine
    (by rw [length_map]; exact h.count) hfields (parseBody_body h rest)

end RequestText

theorem OneLine.takeWhile_line (hl : OneLine l) (s : Bytes) (m : Nat) :
    ((l ++ (crlf ++ s)).take (l.length + 2 + m)).takeWhile (· ≠ 0x0A) = l ++ [0x0D] := by
  have htake : (l ++ (crlf ++ s)).take (l.length + 2 + m) = (l ++ [0x0D]) ++ 0x0A :: s.take m := by
    rw [add_assoc, take_length_add_append, append_assoc, add_comm 2 m]
    rfl
  have hall : ∀ c ∈ l ++ [0x0D], decide (c ≠ 0x0A) = true := by
    intro c hc
    rw [decide_eq_true_eq]
    rcases mem_append.mp hc with hmem | hmem
    · exact (hl c hmem).2.2
    · rw [mem_singleton.mp hmem]
      decide
  rw [htake, takeWhile_of_all hall (headIs_cons.mpr rfl)]

theorem contentLengthLoop_line (hl : OneLine l) (hname : isContentLength (l ++ [0x0D]) = false)
    (fuel : Nat) (s : Bytes) (m : Nat) :
    contentLengthLoop (fuel + 1) (l ++ (crlf ++ s)) (l.length + 2 + m) =
      contentLengthLoop fuel s m := by
  have hlen : (l ++ [0x0D]).length = l.length + 1 := length_append
  have hdrop : (l ++ (crlf ++ s)).drop (l.length + 1 + 1) = s := by
    rw [add_assoc, ← drop_drop, drop_left]
    rfl
  rw [contentLengthLoop]
  simp only [hl.takeWhile_line, hname, hlen, hdrop]
  rw [if_neg Bool.false_ne_true, if_neg (by omega),
    show l.length + 2 + m - (l.length + 1 + 1) = m by omega]

theorem contentLengthLoop_length (hl : OneLine l) (hname : isContentLength (l ++ [0x0D]) = true)
    (fuel : Nat) (s : Bytes) (m : Nat) :
    contentLengthLoop (fuel + 1) (l ++ (crlf ++ s)) (l.length + 2 + m) =
      (strtol ((l ++ (crlf ++ s)).drop 15)).getD (-1) := by
  rw [contentLengthLoop]
  simp only [hl.takeWhile_line]
  exact if_pos hname

theorem behindColon_line (h : f.WellFormed) (s : Bytes) :
    behindColon (f.line ++ s) = f.value ++ s := by
  have hall : ∀ c ∈ f.name, decide (c ≠ 0x3A) = true := by
    intro c hc
    rw [decide_eq_true_eq]
    exact (isVisible_of_isToken (h.name c hc)).2
  rw [behindColon, Field.line, append_assoc, cons_append,
    dropWhile_of_all hall (headIs_cons.mpr rfl)]
  rfl

theorem isContentLength_colon {name : Bytes} (hlen : name.length = 14) (s : Bytes) :
    isContentLength (name ++ 0x3A :: s) = headerNameEq name "Content-Length" := by
  have htake : (name ++ 0x3A :: s).take 15 = name ++ [0x3A] := by
    rw [show 15 = name.length + 1 by omega, take_length_add_append]
    rfl
  have hpattern : (text "Content-Length:").map tolower =
      (text "Content-Length").map tolower ++ [0x3A] := by
    decide +kernel
  rw [isContentLength, htake, headerNameEq, headerNameEq, hpattern, map_append, Bool.eq_iff_iff,
    beq_iff_eq, beq_iff_eq]
  exact append_left_inj _

theorem Field.WellFormed.isContentLength_line (h : f.WellFormed) (s : Bytes) :
    isContentLength (f.line ++ s) = f.isLength := by
  have hcolon : f.line ++ s = f.name ++ 0x3A :: (f.value ++ s) := by
    rw [Field.line, append_assoc, cons_append]
  by_cases hlen : f.name.length = 14
  · rw [hcolon, isContentLength_colon hlen]
    rfl
  -- the first colon is not where the name would end
  have hline : isContentLength (f.line ++ s) = false := by
    rw [eq_false_iff]
    intro hname
    have hlength := length_of_isContentLength hname
    have hdrop := congrArg List.length ((behindColon_line h s).symm.trans
      (behindColon_of_isContentLength hname))
    rw [hcolon] at hdrop hlength
    simp only [length_append, length_drop, length_cons] at hdrop hlength
    omega
  have hname : f.isLength = false := by
    rw [eq_false_iff]
    intro hname
    rw [Field.isLength, headerNameEq, beq_iff_eq] at hname
    have hlength := congrArg List.length hname
    rw [length_map, length_map] at hlength
    exact hlen (hlength.trans (by decide +kernel))
  rw [hline, hname]

namespace RequestText

variable {q : RequestText}

theorem isContentLength_requestLine (h : q.WellFormed) (s : Bytes) :
    isContentLength (q.requestLine ++ s) = false := by
  rw [eq_false_iff]
  intro hname
  have hblank := (notMem_of_isContentLength hname).2
  have hcolon := colon_mem_of_isContentLength hname
  rw [requestLine, append_assoc, cons_append, take_append] at hblank hcolon
  by_cases hlen : 15 ≤ q.method.length
  · rw [Nat.sub_eq_zero_of_le hlen, take_zero, append_nil] at hcolon
    exact (isVisible_of_isToken (h.method _ (mem_of_mem_take hcolon))).2 rfl
  apply hblank
  obtain ⟨k, hk⟩ : ∃ k, 15 - q.method.length = k + 1 := ⟨14 - q.method.length, by omega⟩
  rw [hk, take_succ_cons]
  exact mem_append_right _ mem_cons_self

theorem contentLengthLoop_fields {fs : List Field} (hfs : ∀ f ∈ fs, f.WellFormed) (hn : n ≤ maxBody)
    (hlength : ∀ f ∈ fs, f.isLength = true → Writes f.value n)
    (hannounced : n ≠ 0 → ∃ f ∈ fs, f.isLength = true) (fuel : Nat) (rest : Bytes)
    (hfuel : fs.length + 2 ≤ fuel) :
    contentLengthLoop fuel (fs.flatMap (fun f => f.line ++ crlf) ++ (crlf ++ rest))
      ((fs.flatMap (fun f => f.line ++ crlf)).length + 2) = n := by
  induction fs generalizing fuel with
  | nil =>
    have hzero : n = 0 := by
      by_contra hne
      obtain ⟨f, hf, -⟩ := hannounced hne
      cases hf
    obtain ⟨fuel, rfl⟩ : ∃ fuel', fuel = fuel' + 2 := ⟨fuel - 2, by omega⟩
    have hblank := contentLengthLoop_line (l := []) nofun (by decide +kernel) (fuel + 1) rest 0
    rw [nil_append] at hblank
    rwa [flatMap_nil, nil_append, hzero]
  | cons f fs ih =>
    obtain ⟨fuel, rfl⟩ : ∃ fuel', fuel = fuel' + 1 := ⟨fuel - 1, by omega⟩
    have hf := hfs f mem_cons_self
    have htext : (f :: fs).flatMap (fun f => f.line ++ crlf) ++ (crlf ++ rest) =
        f.line ++ (crlf ++ (fs.flatMap (fun f => f.line ++ crlf) ++ (crlf ++ rest))) := by
      rw [flatMap_cons, append_assoc, append_assoc]
    have hlen : ((f :: fs).flatMap (fun f => f.line ++ crlf)).length + 2 =
        f.line.length + 2 + ((fs.flatMap (fun f => f.line ++ crlf)).length + 2) := by
      rw [flatMap_cons, length_append, length_append, show crlf.length = 2 from rfl, add_assoc]
    rw [htext, hlen]
    cases hname : f.isLength with
    | true =>
      have hline := hf.isContentLength_line
      rw [hname] at hline
      rw [contentLengthLoop_length hf.oneLine_line (hline _), ← behindColon_of_isContentLength
        (hline _), behindColon_line hf]
      have hbehind : HeadIs (fun c => !isDigit c)
          (crlf ++ (fs.flatMap (fun f => f.line ++ crlf) ++ (crlf ++ rest))) :=
        headIs_cons.mpr rfl
      obtain ⟨digits, behind, rfl, hnumeral⟩ :=
        isNumeral_of_writes (hlength f mem_cons_self hname) hbehind
      rw [maxBody] at hn
      rw [hnumeral.strtol_eq, if_neg (by decide), Option.getD_some]
      omega
    | false =>
      rw [contentLengthLoop_line hf.oneLine_line (by rw [hf.isContentLength_line, hname])]
      refine ih (fun g hg => hfs g (mem_cons_of_mem f hg))
        (fun g hg => hlength g (mem_cons_of_mem f hg)) ?_ fuel ?_
      · intro hne
        obtain ⟨g, hg, hglength⟩ := hannounced hne
        rcases mem_cons.mp hg with rfl | hmem
        · rw [hname] at hglength
          cases hglength
        · exact ⟨g, hmem, hglength⟩
      · rw [length_cons] at hfuel
        omega

theorem intercalate_crlf (l : Bytes) (ls : List Bytes) :
    crlf.intercalate (l :: ls) ++ crlf = l ++ (crlf ++ ls.flatMap (· ++ crlf)) := by
  induction ls generalizing l with
  | nil => rw [intercalate_singleton, flatMap_nil, append_nil]
  | cons l' ls ih =>
    rw [intercalate_cons_cons, append_assoc, ih, flatMap_cons, append_assoc, append_assoc]

theorem zero_notMem_intercalate {ls : List Bytes} (h : ∀ l ∈ ls, (0 : UInt8) ∉ l) :
    (0 : UInt8) ∉ crlf.intercalate ls := by
  intro hzero
  cases ls with
  | nil => cases hzero
  | cons l ls =>
    have hmem := mem_append_left crlf hzero
    rw [intercalate_crlf, mem_append, mem_append, mem_flatMap] at hmem
    rcases hmem with hl | hcrlf | ⟨l', hl', hmem⟩
    · exact h l mem_cons_self hl
    · exact absurd hcrlf (by decide)
    · rcases mem_append.mp hmem with hline | hcrlf
      · exact h l' (mem_cons_of_mem _ hl') hline
      · exact absurd hcrlf (by decide)

theorem head_eq (q : RequestText) :
    q.head = q.requestLine ++ (crlf ++ (q.fields.flatMap (fun f => f.line ++ crlf) ++ crlf)) := by
  rw [head, show crlfCrlf = crlf ++ crlf from rfl, ← append_assoc, lines, intercalate_crlf,
    flatMap_map, append_assoc, append_assoc]

theorem parseHttpContentLength_head (h : q.WellFormed) (rest : Bytes) :
    parseHttpContentLength (q.head ++ rest) q.head.length = q.body.length := by
  have hcrlf : crlf.length = 2 := rfl
  have hcount : q.fields.length ≤ (q.fields.flatMap (fun f => f.line ++ crlf)).length := by
    generalize q.fields = fs
    induction fs with
    | nil => exact zero_le _
    | cons f fs ih =>
      rw [flatMap_cons, length_append, length_append, length_cons, hcrlf]
      omega
  have hlen : q.head.length = q.requestLine.length + 2 +
      ((q.fields.flatMap (fun f => f.line ++ crlf)).length + 2) := by
    rw [head_eq, length_append, length_append, length_append, hcrlf, add_assoc]
  have htext : q.head ++ rest = q.requestLine ++ (crlf ++
      (q.fields.flatMap (fun f => f.line ++ crlf) ++ (crlf ++ rest))) := by
    rw [head_eq, append_assoc, append_assoc, append_assoc]
  rw [parseHttpContentLength, htext, hlen, contentLengthLoop_line (oneLine_requestLine h)
    (isContentLength_requestLine h _)]
  refine contentLengthLoop_fields h.fields h.small h.length ?_ _ rest (by omega)
  intro hne
  apply h.announced
  rintro hnil
  rw [hnil] at hne
  exact hne rfl

theorem length_head (q : RequestText) : q.head.length = (crlf.intercalate q.lines).length + 4 :=
  length_append

theorem length_bytes (q : RequestText) :
    q.bytes.length = (crlf.intercalate q.lines).length + 4 + q.body.length := by
  rw [bytes, length_append, length_head]

theorem parseHttpContentLength_lines (h : q.WellFormed) (rest : Bytes) :
    parseHttpContentLength (q.head ++ rest) ((crlf.intercalate q.lines).length + 4) =
      q.body.length := by
  rw [← length_head]
  exact parseHttpContentLength_head h rest

theorem scanRequest_bytes (h : q.WellFormed) (rest : Bytes) :
    scanRequest (q.bytes ++ rest) = .request q.head.length q.bytes.length q.request := by
  have hparse := mcpHttpParseRequest_bytes h []
  have hsmall := h.small
  rw [append_nil] at hparse
  have htake : (q.head ++ (q.body ++ rest)).take q.bytes.length = q.bytes := by
    rw [← append_assoc]
    exact take_left
  have hlong : ¬(q.head ++ (q.body ++ rest)).length < q.bytes.length := by
    rw [bytes]
    simp only [length_append]
    omega
  rw [length_bytes] at htake hlong
  rw [show q.bytes ++ rest = q.head ++ (q.body ++ rest) from append_assoc .., scanRequest,
    findHeadersEnd_head h]
  simp only [parseHttpContentLength_lines h, Int.toNat_natCast]
  rw [if_neg (by omega), if_neg (by omega), if_neg hlong, htake, hparse, length_bytes, length_head]

theorem scanRequest_part (h : q.WellFormed) {part rest : Bytes} (hsplit : part ++ rest = q.bytes)
    (hne : rest ≠ []) : scanRequest part = .wait := by
  have hlen := congrArg List.length hsplit
  have hpos := length_pos_iff.mpr hne
  rw [length_append] at hlen
  by_cases hhead : part.length < q.head.length
  · have hend : findHeadersEnd (part ++ rest) = some (crlf.intercalate q.lines).length := by
      rw [hsplit]
      exact findHeadersEnd_head h q.body
    have hnone : findHeadersEnd part = none := by
      refine firstOccurrence_eq_none hend ?_
      rwa [length_head] at hhead
    rw [scanRequest, hnone]
  · obtain ⟨body, rfl⟩ : q.head <+: part :=
      prefix_of_prefix_length_le ⟨q.body, rfl⟩ ⟨rest, hsplit⟩ (not_lt.mp hhead)
    have hsmall := h.small
    rw [length_bytes] at hlen
    rw [scanRequest, findHeadersEnd_head h]
    simp only [parseHttpContentLength_lines h, Int.toNat_natCast]
    rw [if_neg (by omega), if_neg (by omega), if_pos (by omega)]

theorem part_or_whole {buf later behind : Bytes} (hstream : buf ++ later = q.bytes ++ behind) :
    (∃ rest, buf ++ rest = q.bytes ∧ rest ≠ []) ∨
      ∃ rest, buf = q.bytes ++ rest ∧ rest ++ later = behind := by
  rcases append_eq_append_iff.mp hstream with ⟨rest, hfront, hback⟩ | ⟨rest, hfront, hback⟩
  · by_cases hnil : rest = []
    · subst hnil
      exact .inr ⟨[], by rw [hfront, append_nil, append_nil], hback⟩
    · exact .inl ⟨rest, hfront.symm, hnil⟩
  · exact .inr ⟨rest, hfront, hback.symm⟩

end RequestText

end Mcpkit.Transport.Async
