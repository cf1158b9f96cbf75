import Mcpkit.Transport.Sse

/-!
# The id with which a stream is resumed

A client that loses the connection asks for the events behind the last one that
it has received, by the id of that event.  An event is received when the blank
line that ends its block is there.  The parser takes the id over with the line
of the field, so between that line and the blank line it reports the id of an
event that it has not delivered.
-/

namespace Mcpkit.Transport.Sse

open Json List

def reportable (id : Bytes) : Option Bytes := if id = [] then none else some id

/-- The id of the last id field in a block that has been ended by its blank line. -/
def committedId (stream : Bytes) : Option Bytes :=
  reportable ((valuesOf "id" (blocks [] (streamLines [] stream)).flatten).getLastD [])

/-- The last id field in the block that is still open. -/
def pendingId (stream : Bytes) : Option Bytes :=
  (valuesOf "id" (openBlock [] (streamLines [] stream))).getLast?

theorem lastEventId_setField (b : SseBuffers) (name value : Bytes) :
    (b.setField name value).lastEventId = if name = "id" then value else b.lastEventId := by
  rw [SseBuffers.setField]
  split
  next hname => rw [if_neg (by rw [hname]; decide)]
  · split
    next hname =>
      have hid : name ≠ text "id" := by
        rw [hname]
        decide
      rw [if_neg hid]
    · split
      · rfl
      · split
        · split <;> rfl
        · rfl

theorem valuesOf_append (field : String) (lines lines' : List Bytes) :
    valuesOf field (lines ++ lines') = valuesOf field lines ++ valuesOf field lines' := by
  rw [valuesOf, filterMap_append, filterMap_append]
  rfl

theorem lastEventId_processLine {b : SseBuffers} {line : Bytes} (hzero : (0 : UInt8) ∉ line) :
    (processLine b line).lastEventId = (valuesOf "id" [line]).getLastD b.lastEventId := by
  by_cases hblank : line = []
  · rw [hblank]
    rfl
  cases hfield : fieldOf line with
  | none =>
    rw [processLine_of_comment hblank hfield, ← nil_append [line], valuesOf_concat_comment hfield]
    rfl
  | some f =>
    rw [processLine_of_field hblank hzero hfield, lastEventId_setField, ← nil_append [line],
      valuesOf_concat_field hfield]
    split <;> rfl

theorem lastEventId_foldl_processLine {lines : List Bytes} (hzero : ∀ l ∈ lines, (0 : UInt8) ∉ l)
    (b : SseBuffers) :
    (lines.foldl processLine b).lastEventId = (valuesOf "id" lines).getLastD b.lastEventId := by
  induction lines generalizing b with
  | nil => rfl
  | cons line lines ih =>
    have hlater : ∀ l ∈ lines, (0 : UInt8) ∉ l := fun l hl => hzero l (mem_cons_of_mem _ hl)
    have hcons : valuesOf "id" (line :: lines) = valuesOf "id" [line] ++ valuesOf "id" lines :=
      valuesOf_append "id" [line] lines
    rw [foldl_cons, ih hlater, lastEventId_processLine (hzero line mem_cons_self), hcons]
    rcases eq_nil_or_concat (valuesOf "id" lines) with hnil | ⟨ids, id, hids⟩
    · rw [hnil, append_nil]
      rfl
    · rw [hids, concat_eq_append, ← append_assoc, getLastD_concat, getLastD_concat]

/-- A blank line has no field with a name, so the fields of the lines are those of the ended blocks
and then those of the open one. -/
theorem valuesOf_blocks {field : String} (hfield : text field ≠ []) (block lines : List Bytes) :
    valuesOf field (block ++ lines) =
      valuesOf field (blocks block lines).flatten ++ valuesOf field (openBlock block lines) := by
  induction lines generalizing block with
  | nil =>
    rw [append_nil]
    rfl
  | cons line lines ih =>
    rw [blocks, openBlock]
    by_cases hblank : line = []
    · have hempty : valuesOf field [[]] = [] := by
        rw [← nil_append [[]], valuesOf_concat_field rfl, if_neg (fun h => hfield h.symm)]
        rfl
      have hcons : valuesOf field ([] :: lines) = valuesOf field lines := by
        rw [← singleton_append, valuesOf_append, hempty, nil_append]
      have hrest := ih []
      rw [nil_append] at hrest
      rw [if_pos hblank, if_pos hblank, hblank, flatten_cons, valuesOf_append,
        valuesOf_append, hcons, hrest, append_assoc]
    · rw [if_neg hblank, if_neg hblank, ← ih, append_assoc, singleton_append]

/-- The id that the parser reports is that of the last event received exactly if no id field has
arrived since its blank line, or the last that has sets the same id. -/
theorem lastEventId_eq_committedId_iff (chunks : List Bytes)
    (hzero : (0 : UInt8) ∉ chunks.flatten) :
    mcpSseParserLastEventId (feedAll chunks) = committedId chunks.flatten ↔
      ∀ id ∈ pendingId chunks.flatten, reportable id = committedId chunks.flatten := by
  have hreport : mcpSseParserLastEventId (feedAll chunks) =
      reportable ((valuesOf "id" (blocks [] (streamLines [] chunks.flatten)).flatten ++
        valuesOf "id" (openBlock [] (streamLines [] chunks.flatten))).getLastD []) := by
    rw [← valuesOf_blocks (by decide), nil_append]
    change reportable (feedAll chunks).buffers.lastEventId = _
    rw [buffers_feedAll, lastEventId_foldl_processLine (zero_notMem_streamLines hzero)]
    rfl
  rw [hreport, pendingId]
  rcases eq_nil_or_concat (valuesOf "id" (openBlock [] (streamLines [] chunks.flatten))) with
    hnil | ⟨ids, id, hids⟩
  · rw [hnil, append_nil]
    exact ⟨fun _ id hid => absurd hid (Option.not_mem_none id), fun _ => rfl⟩
  · rw [hids, concat_eq_append, ← append_assoc, getLastD_concat, getLast?_concat]
    exact ⟨fun h v hv => Option.some.inj hv ▸ h, fun h => h id rfl⟩

/-- The line of an id field is enough, without the rest of its event. -/
theorem lastEventId_openBlock :
    mcpSseParserLastEventId (feedAll [text "id: 1" ++ [0x0A]]) = some (text "1") ∧
      committedId (text "id: 1" ++ [0x0A]) = none := by
  decide

theorem lastEventId_endedBlock :
    mcpSseParserLastEventId (feedAll
        [text "id: 1" ++ [0x0A] ++ text "data: a" ++ [0x0A, 0x0A] ++ text "data: b" ++ [0x0A]]) =
      committedId
        (text "id: 1" ++ [0x0A] ++ text "data: a" ++ [0x0A, 0x0A] ++ text "data: b" ++ [0x0A]) ∧
    committedId
        (text "id: 1" ++ [0x0A] ++ text "data: a" ++ [0x0A, 0x0A] ++ text "data: b" ++ [0x0A]) =
      some (text "1") := by
  refine ⟨?_, by decide⟩
  have hcommitted := (lastEventId_eq_committedId_iff
    [text "id: 1" ++ [0x0A] ++ text "data: a" ++ [0x0A, 0x0A] ++ text "data: b" ++ [0x0A]]
    (by decide)).mpr (by decide)
  exact hcommitted

end Mcpkit.Transport.Sse
