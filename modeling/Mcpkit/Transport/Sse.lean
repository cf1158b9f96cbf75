import Mcpkit.Transport.Http

/-!
# The parser of event streams

`mcp_sse_parser_feed` takes a stream in chunks.  It hands complete lines to `process_line` and
remembers a carriage return at the end of a chunk, so that a line feed behind it does not end a
second line.

The interpretation of a whole stream is given in its own terms: lines, blocks, fields and events.
The parser reports the events of that interpretation, however the stream is cut.
-/

namespace Mcpkit.Transport.Sse

open Json List

/-- The complete lines of a stream.  A line ends at a line feed, a carriage return, or both. -/
def streamLines (line : Bytes) : Bytes → List Bytes
  | [] => []
  | c :: rest =>
    if c = 0x0A then line :: streamLines [] rest
    else if c = 0x0D then
      match rest with
      | [] => [line]
      | d :: rest' => line :: if d = 0x0A then streamLines [] rest' else streamLines [] (d :: rest')
    else streamLines (line ++ [c]) rest

def blocks (block : List Bytes) : List Bytes → List (List Bytes)
  | [] => []
  | line :: lines => if line = [] then block :: blocks [] lines else blocks (block ++ [line]) lines

/-- The lines behind the last blank line. -/
def openBlock (block : List Bytes) : List Bytes → List Bytes
  | [] => block
  | line :: lines => if line = [] then openBlock [] lines else openBlock (block ++ [line]) lines

/-- The name and the value of a field; a line that begins with a colon is a comment. -/
def fieldOf (line : Bytes) : Option (Bytes × Bytes) :=
  if line.head? = some 0x3A then none
  else
    match splitAtByte 0x3A line with
    | none => some (line, [])
    | some (name, value) => some (name, if value.head? = some 0x20 then value.drop 1 else value)

def valuesOf (name : String) (block : List Bytes) : List Bytes :=
  (block.filterMap fieldOf).filterMap fun f => if f.1 = text name then some f.2 else none

def eventOf (block : List Bytes) : Option (Bytes × Bytes) :=
  if valuesOf "data" block = [] then none
  else
    let type := (valuesOf "event" block).getLastD []
    some (if type = [] then text "message" else type, [0x0A].intercalate (valuesOf "data" block))

def streamEvents (stream : Bytes) : List (Bytes × Bytes) :=
  (blocks [] (streamLines [] stream)).filterMap eventOf

structure SseEvent where
  event : Bytes
  data : Bytes
  id : Option Bytes
  retryMs : Int
  deriving DecidableEq, Repr

/-- The buffers of the current event, what persists across events, and the events reported. -/
structure SseBuffers where
  data : Bytes
  hasData : Bool
  event : Bytes
  id : Bytes
  hasId : Bool
  retryMs : Int
  lastEventId : Bytes
  events : List SseEvent
  deriving DecidableEq, Repr

structure SseParser where
  line : Bytes
  pendingLf : Bool
  buffers : SseBuffers
  deriving DecidableEq, Repr

def mcpSseParserCreate : SseParser := ⟨[], false, ⟨[], false, [], [], false, -1, [], []⟩⟩

def lineField (s : Bytes) : Bytes := s.takeWhile (· ≠ 0x3A)

def lineValue (s : Bytes) : Bytes :=
  let value := (s.dropWhile (· ≠ 0x3A)).drop 1
  if value.head? = some 0x20 then value.drop 1 else value

def retryValue (digits : Bytes) : Int :=
  min (digits.foldl (fun v c => v * 10 + (c.toNat - 0x30)) 0 : Nat) (2 ^ 63 - 1)

/-- The empty line: report an event if there are data, and clear the buffers. -/
def SseBuffers.dispatch (b : SseBuffers) : SseBuffers :=
  { b with
    events :=
      if b.hasData then
        b.events ++ [⟨if b.event = [] then text "message" else b.event, b.data,
          if b.hasId then some b.id else none, b.retryMs⟩]
      else b.events
    data := []
    hasData := false
    event := []
    id := []
    hasId := false }

def SseBuffers.setField (b : SseBuffers) (field value : Bytes) : SseBuffers :=
  if field = "event" then { b with event := value }
  else if field = "data" then
    { b with data := (if b.hasData then b.data ++ [0x0A] else b.data) ++ value, hasData := true }
  else if field = "id" then { b with hasId := true, id := value, lastEventId := value }
  else if field = "retry" then
    if value ≠ [] ∧ value.all isDigit = true then { b with retryMs := retryValue value } else b
  else b

def processLine (b : SseBuffers) (line : Bytes) : SseBuffers :=
  if line = [] then b.dispatch
  else if line.head? = some 0x3A then b
  else b.setField (lineField (cString line)) (lineValue (cString line))

def isEol (c : UInt8) : Bool := c = 0x0D || c = 0x0A

/-- The loop of `mcp_sse_parser_feed`.  Every round takes at least one byte. -/
def feedLoop : Nat → SseParser → Bytes → SseParser
  | 0, p, _ => p
  | _ + 1, p, [] => p
  | fuel + 1, p, c :: rest =>
    if p.pendingLf = true ∧ c = 0x0A then feedLoop fuel { p with pendingLf := false } rest
    else
      let line := p.line ++ (c :: rest).takeWhile (!isEol ·)
      match (c :: rest).dropWhile (!isEol ·) with
      | [] => { p with line := line, pendingLf := false }
      | eol :: rest => feedLoop fuel ⟨[], eol = 0x0D, processLine p.buffers line⟩ rest

variable (p : SseParser)

def mcpSseParserFeed (chunk : Bytes) : SseParser := feedLoop chunk.length p chunk

def mcpSseParserLastEventId : Option Bytes :=
  if p.buffers.lastEventId = [] then none else some p.buffers.lastEventId

def feedAll (chunks : List Bytes) : SseParser := chunks.foldl mcpSseParserFeed mcpSseParserCreate

def byteStep (c : UInt8) : SseParser :=
  if p.pendingLf = true ∧ c = 0x0A then { p with pendingLf := false }
  else if isEol c then ⟨[], c = 0x0D, processLine p.buffers p.line⟩
  else { p with line := p.line ++ [c], pendingLf := false }

theorem foldl_byteStep_text {s : Bytes} (hs : ∀ c ∈ s, isEol c = false) (hne : s ≠ [])
    (p : SseParser) :
    s.foldl byteStep p = { p with line := p.line ++ s, pendingLf := false } := by
  induction s generalizing p with
  | nil => exact absurd rfl hne
  | cons c s ih =>
    have hc := hs c mem_cons_self
    have hstep : byteStep p c = { p with line := p.line ++ [c], pendingLf := false } := by
      rw [byteStep, if_neg, hc, if_neg Bool.false_ne_true]
      rintro ⟨-, rfl⟩
      exact absurd hc (by decide)
    rw [foldl_cons, hstep]
    by_cases hnil : s = []
    · rw [hnil, foldl_nil]
    · rw [ih (fun c' hc' => hs c' (mem_cons_of_mem c hc')) hnil, append_assoc]
      rfl

theorem byteStep_eol {p : SseParser} {c : UInt8} (hc : isEol c = true)
    (hskip : ¬(p.pendingLf = true ∧ c = 0x0A)) :
    byteStep p c = ⟨[], c = 0x0D, processLine p.buffers p.line⟩ := by
  rw [byteStep, if_neg hskip, if_pos hc]

theorem feedLoop_eq_foldl {fuel : Nat} {chunk : Bytes} (hfuel : chunk.length ≤ fuel)
    (p : SseParser) : feedLoop fuel p chunk = chunk.foldl byteStep p := by
  induction fuel generalizing p chunk with
  | zero =>
    obtain rfl := eq_nil_of_length_eq_zero (Nat.le_zero.mp hfuel)
    rfl
  | succ fuel ih =>
    cases chunk with
    | nil => rfl
    | cons c rest =>
      rw [feedLoop]
      split
      next hskip => rw [ih (Nat.le_of_succ_le_succ hfuel), foldl_cons, byteStep, if_pos hskip]
      next hskip =>
        have hcut : (c :: rest).takeWhile (!isEol ·) ++ (c :: rest).dropWhile (!isEol ·) =
            c :: rest := takeWhile_append_dropWhile
        have htext : ∀ c' ∈ (c :: rest).takeWhile (!isEol ·), isEol c' = false := by
          intro c' hc'
          simpa using mem_takeWhile_imp hc'
        generalize (c :: rest).takeWhile (!isEol ·) = line at hcut htext
        cases hrest : (c :: rest).dropWhile (!isEol ·) with
        | nil =>
          rw [hrest, append_nil] at hcut
          rw [← hcut, foldl_byteStep_text htext (by rw [hcut]; exact cons_ne_nil c rest)]
        | cons eol later =>
          have heol : isEol eol = true := by
            have hhead := head?_dropWhile_not (!isEol ·) (c :: rest)
            rw [hrest] at hhead
            simpa using hhead
          rw [hrest] at hcut
          have hlength := congrArg List.length hcut
          rw [length_append, length_cons, length_cons] at hlength
          rw [length_cons] at hfuel
          have hlater : later.length ≤ fuel := by omega
          rw [← hcut, foldl_append, foldl_cons]
          dsimp only
          rw [ih hlater]
          congr 1
          -- behind some text no line feed is skipped
          by_cases hline : line = []
          · rw [hline, nil_append] at hcut
            rw [hline, foldl_nil, append_nil, byteStep_eol heol]
            rwa [(List.cons.inj hcut).1]
          · rw [foldl_byteStep_text htext hline, byteStep_eol heol (fun h => by cases h.1)]

theorem feedAll_eq_foldl (chunks : List Bytes) :
    feedAll chunks = chunks.flatten.foldl byteStep mcpSseParserCreate := by
  have hall : ∀ p, chunks.foldl mcpSseParserFeed p = chunks.flatten.foldl byteStep p := by
    induction chunks with
    | nil =>
      intro p
      rfl
    | cons chunk chunks ih =>
      intro p
      rw [foldl_cons, flatten_cons, foldl_append, ih, mcpSseParserFeed,
        feedLoop_eq_foldl (Nat.le_refl _)]
  exact hall _

section

variable (line : Bytes) (c : UInt8) (rest : Bytes)

theorem streamLines_lf : streamLines line (0x0A :: rest) = line :: streamLines [] rest := by
  rw [streamLines.eq_def]
  rfl

theorem streamLines_cr_lf :
    streamLines line (0x0D :: 0x0A :: rest) = line :: streamLines [] rest := by
  rw [streamLines.eq_def]
  rfl

theorem streamLines_cr (h : rest.head? ≠ some 0x0A) :
    streamLines line (0x0D :: rest) = line :: streamLines [] rest := by
  rw [streamLines.eq_def]
  cases rest with
  | nil => rfl
  | cons d rest => exact congrArg (line :: ·) (if_neg fun hd => h (congrArg some hd))

theorem streamLines_text (h : isEol c = false) :
    streamLines line (c :: rest) = streamLines (line ++ [c]) rest := by
  rw [isEol, Bool.or_eq_false_iff, decide_eq_false_iff_not, decide_eq_false_iff_not] at h
  rw [streamLines.eq_def]
  dsimp only
  rw [if_neg h.2, if_neg h.1]

end

/-- The lines that are still to be completed, by where the parser stands. -/
def linesFrom (stream : Bytes) : List Bytes :=
  if p.pendingLf = true ∧ stream.head? = some 0x0A then streamLines p.line (stream.drop 1)
  else streamLines p.line stream

theorem foldl_linesFrom_cons (c : UInt8) (rest : Bytes) :
    (linesFrom p (c :: rest)).foldl processLine p.buffers =
      (linesFrom (byteStep p c) rest).foldl processLine (byteStep p c).buffers := by
  by_cases hskip : p.pendingLf = true ∧ c = 0x0A
  · have hhead : p.pendingLf = true ∧ (c :: rest).head? = some 0x0A :=
      ⟨hskip.1, congrArg some hskip.2⟩
    rw [linesFrom, if_pos hhead, byteStep, if_pos hskip, linesFrom, if_neg (fun h => by cases h.1)]
    rfl
  have hhead : ¬(p.pendingLf = true ∧ (c :: rest).head? = some 0x0A) := by
    rintro ⟨hpending, hc⟩
    exact hskip ⟨hpending, Option.some.inj hc⟩
  rw [linesFrom, if_neg hhead]
  cases heol : isEol c with
  | false =>
    rw [streamLines_text _ _ _ heol, byteStep, if_neg hskip, heol, if_neg Bool.false_ne_true,
      linesFrom, if_neg (fun h => by cases h.1)]
  | true =>
    rw [byteStep_eol heol hskip, linesFrom]
    rw [isEol, Bool.or_eq_true, decide_eq_true_eq, decide_eq_true_eq] at heol
    rcases heol with rfl | rfl
    · by_cases hlf : rest.head? = some 0x0A
      · rw [if_pos ⟨rfl, hlf⟩, eq_cons_of_mem_head? hlf, streamLines_cr_lf]
        rfl
      · rw [if_neg (fun h => hlf h.2), streamLines_cr _ _ hlf]
        rfl
    · rw [if_neg (fun h => by cases h.1), streamLines_lf]
      rfl

theorem buffers_foldl_byteStep (stream : Bytes) :
    (stream.foldl byteStep p).buffers = (linesFrom p stream).foldl processLine p.buffers := by
  induction stream generalizing p with
  | nil =>
    rw [linesFrom, if_neg (fun h => by cases h.2)]
    rfl
  | cons c rest ih => rw [foldl_cons, ih (byteStep p c), foldl_linesFrom_cons]

theorem buffers_feedAll (chunks : List Bytes) :
    (feedAll chunks).buffers =
      (streamLines [] chunks.flatten).foldl processLine mcpSseParserCreate.buffers := by
  rw [feedAll_eq_foldl, buffers_foldl_byteStep, linesFrom, if_neg (fun h => by cases h.1)]
  rfl

theorem mem_of_mem_streamLines {line stream : Bytes} :
    ∀ l ∈ streamLines line stream, ∀ b ∈ l, b ∈ line ∨ b ∈ stream := by
  fun_induction streamLines line stream <;> grind

theorem zero_notMem_streamLines {stream : Bytes} (h : (0 : UInt8) ∉ stream) :
    ∀ l ∈ streamLines [] stream, (0 : UInt8) ∉ l := by
  intro l hl hzero
  rcases mem_of_mem_streamLines l hl 0 hzero with hnil | hmem
  · cases hnil
  · exact h hmem

section

variable {b : SseBuffers} {line name value : Bytes} {block : List Bytes}

theorem processLine_of_comment (hne : line ≠ []) (h : fieldOf line = none) :
    processLine b line = b := by
  rw [fieldOf] at h
  split at h
  next hcolon => rw [processLine, if_neg hne, if_pos hcolon]
  · split at h <;> cases h

theorem fieldOf_eq_some (h : fieldOf line = some (name, value)) :
    line.head? ≠ some 0x3A ∧ lineField line = name ∧ lineValue line = value := by
  rw [fieldOf] at h
  split at h
  · cases h
  next hcolon =>
    refine ⟨hcolon, ?_⟩
    by_cases hmem : 0x3A ∈ line
    · rw [splitAtByte, if_pos hmem] at h
      cases h
      exact ⟨rfl, rfl⟩
    have hall : ∀ c ∈ line, decide (c ≠ 0x3A) = true := by
      intro c hc
      apply decide_eq_true
      rintro rfl
      exact hmem hc
    rw [splitAtByte, if_neg hmem] at h
    cases h
    refine ⟨takeWhile_eq_self_iff.mpr hall, ?_⟩
    rw [lineValue, dropWhile_eq_nil_iff.mpr hall]
    rfl

theorem processLine_of_field (hne : line ≠ []) (hzero : (0 : UInt8) ∉ line)
    (h : fieldOf line = some (name, value)) : processLine b line = b.setField name value := by
  obtain ⟨hcolon, hname, hvalue⟩ := fieldOf_eq_some h
  rw [processLine, if_neg hne, if_neg hcolon, cString_of_notMem hzero, hname, hvalue]

theorem valuesOf_concat_comment (h : fieldOf line = none) (field : String) :
    valuesOf field (block ++ [line]) = valuesOf field block := by
  rw [valuesOf, filterMap_append, filterMap_cons_none h, filterMap_nil, append_nil]
  rfl

theorem valuesOf_concat_field (h : fieldOf line = some (name, value)) (field : String) :
    valuesOf field (block ++ [line]) =
      valuesOf field block ++ if name = text field then [value] else [] := by
  simp only [valuesOf, filterMap_append, filterMap_cons_some h, filterMap_nil]
  congr 1
  by_cases hname : name = text field <;> simp [hname]

end

/-- The buffers hold the fields of the block so far. -/
structure Collects (block : List Bytes) (b : SseBuffers) : Prop where
  data : b.data = [0x0A].intercalate (valuesOf "data" block)
  hasData : b.hasData = true ↔ valuesOf "data" block ≠ []
  event : b.event = (valuesOf "event" block).getLastD []

theorem intercalate_concat (sep : Bytes) (vs : List Bytes) (v : Bytes) :
    sep.intercalate (vs ++ [v]) = if vs = [] then v else sep.intercalate vs ++ sep ++ v := by
  induction vs with
  | nil => simp
  | cons w vs ih =>
    rw [if_neg (cons_ne_nil w vs), cons_append, intercalate_cons_of_ne_nil (by simp), ih]
    split
    next hvs => simp [hvs]
    next hvs => rw [intercalate_cons_of_ne_nil hvs, append_assoc, append_assoc,
      append_assoc, append_assoc, append_assoc]

def SseEvent.typeAndData (e : SseEvent) : Bytes × Bytes := (e.event, e.data)

namespace Collects

variable {block : List Bytes} {b : SseBuffers} {line : Bytes}

theorem setField (h : Collects block b) {name value : Bytes}
    (hfield : fieldOf line = some (name, value)) :
    Collects (block ++ [line]) (b.setField name value) := by
  have hdata : valuesOf "data" (block ++ [line]) = _ := valuesOf_concat_field hfield "data"
  have hevent : valuesOf "event" (block ++ [line]) = _ := valuesOf_concat_field hfield "event"
  -- a field with another name leaves the values of both as they are
  have hother : name ≠ "data" → name ≠ "event" → ∀ b' : SseBuffers,
      b'.data = b.data → b'.hasData = b.hasData → b'.event = b.event →
      Collects (block ++ [line]) b' := by
    intro hnd hne b' hd hh he
    rw [if_neg hnd, append_nil] at hdata
    rw [if_neg hne, append_nil] at hevent
    exact ⟨by rw [hd, hdata, h.data], by rw [hh, hdata, h.hasData], by rw [he, hevent, h.event]⟩
  rw [SseBuffers.setField]
  split
  next hname =>
    have hnd : name ≠ text "data" := by
      rw [hname]
      decide
    rw [if_neg hnd, append_nil] at hdata
    rw [if_pos hname] at hevent
    refine ⟨by rw [hdata]; exact h.data, by rw [hdata]; exact h.hasData, ?_⟩
    rw [hevent, getLastD_concat]
  next hne =>
    split
    next hname =>
      rw [if_pos hname] at hdata
      rw [if_neg hne, append_nil] at hevent
      refine ⟨?_, ?_, by rw [hevent]; exact h.event⟩
      · rw [hdata, intercalate_concat]
        dsimp only
        by_cases hvalues : valuesOf "data" block = []
        · rw [if_pos hvalues, if_neg (fun hh => h.hasData.mp hh hvalues), h.data, hvalues]
          rfl
        · rw [if_neg hvalues, if_pos (h.hasData.mpr hvalues), h.data]
      · rw [hdata]
        exact ⟨fun _ => by simp, fun _ => rfl⟩
    next hnd =>
      split
      · exact hother hnd hne _ rfl rfl rfl
      split
      · split
        · exact hother hnd hne _ rfl rfl rfl
        · exact hother hnd hne _ rfl rfl rfl
      · exact hother hnd hne _ rfl rfl rfl

theorem processLine (h : Collects block b) (hne : line ≠ []) (hzero : (0 : UInt8) ∉ line) :
    Collects (block ++ [line]) (processLine b line) := by
  cases hfield : fieldOf line with
  | none =>
    rw [processLine_of_comment hne hfield]
    exact ⟨by rw [valuesOf_concat_comment hfield]; exact h.data,
      by rw [valuesOf_concat_comment hfield]; exact h.hasData,
      by rw [valuesOf_concat_comment hfield]; exact h.event⟩
  | some f =>
    rw [processLine_of_field hne hzero hfield]
    exact h.setField hfield

theorem dispatch (h : Collects block b) :
    Collects [] b.dispatch ∧
      b.dispatch.events.map SseEvent.typeAndData =
        b.events.map SseEvent.typeAndData ++ (eventOf block).toList := by
  refine ⟨⟨rfl, by simp [SseBuffers.dispatch, valuesOf], rfl⟩, ?_⟩
  rw [SseBuffers.dispatch, eventOf]
  dsimp only
  by_cases hvalues : valuesOf "data" block = []
  · rw [if_pos hvalues, if_neg (fun hh => h.hasData.mp hh hvalues), Option.toList_none, append_nil]
  · rw [if_neg hvalues, if_pos (h.hasData.mpr hvalues), map_append, ← h.event, ← h.data]
    rfl

end Collects

theorem events_setField (b : SseBuffers) (name value : Bytes) :
    (b.setField name value).events = b.events := by
  rw [SseBuffers.setField]
  split
  · rfl
  split
  · rfl
  split
  · rfl
  · split
    · split <;> rfl
    · rfl

theorem events_processLine {b : SseBuffers} {line : Bytes} (hne : line ≠ []) :
    (processLine b line).events = b.events := by
  rw [processLine, if_neg hne]
  split
  · rfl
  · exact events_setField b _ _

theorem events_foldl_processLine {lines block : List Bytes} {b : SseBuffers} (h : Collects block b)
    (hzero : ∀ l ∈ lines, (0 : UInt8) ∉ l) :
    (lines.foldl processLine b).events.map SseEvent.typeAndData =
      b.events.map SseEvent.typeAndData ++ (blocks block lines).filterMap eventOf := by
  induction lines generalizing block b with
  | nil => simp [blocks]
  | cons line lines ih =>
    have hlater : ∀ l ∈ lines, (0 : UInt8) ∉ l := fun l hl => hzero l (mem_cons_of_mem _ hl)
    rw [foldl_cons, blocks]
    split
    next hblank =>
      obtain ⟨hnew, hevents⟩ := h.dispatch
      rw [processLine, if_pos hblank, ih hnew hlater, hevents, append_assoc, filterMap_cons]
      cases eventOf block <;> rfl
    next hblank =>
      rw [ih (h.processLine hblank (hzero line mem_cons_self)) hlater, events_processLine hblank]

/-- However a stream is cut, the parser reports the types and the data of its events in order. -/
theorem feedAll_events (chunks : List Bytes) (hzero : (0 : UInt8) ∉ chunks.flatten) :
    (feedAll chunks).buffers.events.map SseEvent.typeAndData = streamEvents chunks.flatten := by
  have hstart : Collects [] mcpSseParserCreate.buffers :=
    ⟨rfl, by simp [mcpSseParserCreate, valuesOf], rfl⟩
  rw [buffers_feedAll, events_foldl_processLine hstart (zero_notMem_streamLines hzero)]
  rfl

/-- A carriage return at the end of a chunk, two data fields, an empty type and a block without
data. -/
theorem feedAll_events_crlf :
    (feedAll [text "data: a" ++ [0x0D], [0x0A] ++ text "data:b" ++ [0x0A],
        text "event:" ++ [0x0A, 0x0D],
        [0x0A] ++ text "event: x" ++ [0x0A, 0x0A]]).buffers.events.map
        SseEvent.typeAndData = [(text "message", text "a" ++ [0x0A] ++ text "b")] := by
  rw [feedAll_events _ (by decide)]
  decide

end Mcpkit.Transport.Sse
