import Mcpkit.Transport.Sse
import Mcpkit.Transport.StreamableHttp

/-!
# Wrapped messages

`mcp_sse_wrap` makes an event of one `data` line out of a text.  The text of a
JSON value has no control characters, so it is one line for the parser, whatever
the strings in the value hold.
-/

namespace Mcpkit.Transport.Sse

open Json List

variable {s : Bytes}

theorem streamLines_line (hs : ∀ c ∈ s, isEol c = false) (line rest : Bytes) :
    streamLines line (s ++ 0x0A :: rest) = (line ++ s) :: streamLines [] rest := by
  induction s generalizing line with
  | nil => rw [nil_append, streamLines_lf, append_nil]
  | cons c s ih =>
    obtain ⟨hc, hs⟩ := forall_mem_cons.mp hs
    rw [cons_append, streamLines_text _ _ _ hc, ih hs, append_assoc]
    rfl

theorem isEol_of_printed (h : Printed s) : ∀ c ∈ s, isEol c = false := by
  intro c hc
  rw [isEol, Bool.or_eq_false_iff, decide_eq_false_iff_not, decide_eq_false_iff_not]
  exact ⟨fun heq => h.notMem (by decide) (heq ▸ hc), fun heq => h.notMem (by decide) (heq ▸ hc)⟩

theorem eventOf_data (s : Bytes) : eventOf [text "data: " ++ s] = some (text "message", s) := by
  have hdata : text "data: " = [0x64, 0x61, 0x74, 0x61, 0x3A, 0x20] := by decide
  have hname : text "data" = [0x64, 0x61, 0x74, 0x61] := by decide
  have hevent : text "event" ≠ [0x64, 0x61, 0x74, 0x61] := by decide
  have hfield : fieldOf (text "data: " ++ s) = some (text "data", s) := by
    simp [fieldOf, splitAtByte, hdata, hname]
  simp [eventOf, valuesOf, hfield, hname, hevent.symm]

theorem streamEvents_mcpSseWrap (h : Printed s) (rest : Bytes) :
    streamEvents (mcpSseWrap s ++ rest) = (text "message", s) :: streamEvents rest := by
  have hline : Printed (text "data: " ++ s) := printed_append.mpr ⟨by decide, h⟩
  have hlines : streamLines [] (mcpSseWrap s ++ rest) =
      (text "data: " ++ s) :: [] :: streamLines [] rest := by
    rw [mcpSseWrap, append_assoc (text "data: " ++ s)]
    exact (streamLines_line (isEol_of_printed hline) [] _).trans
      (congrArg _ (streamLines_lf [] rest))
  rw [streamEvents, hlines, blocks, if_neg (append_ne_nil_of_left_ne_nil (by decide) s), blocks,
    if_pos rfl, nil_append, filterMap_cons_some (eventOf_data s), streamEvents]

/-- However the wrapped texts of some values are cut, the parser reports one message for each of
them, with the text as its data. -/
theorem feedAll_mcpSseWrap [Libc] (hlibc : PrintsDoubles) (vs : List JsonValue)
    (chunks : List Bytes)
    (hchunks : chunks.flatten = (vs.map fun v => mcpSseWrap (builtinSerialize v)).flatten) :
    (feedAll chunks).buffers.events.map SseEvent.typeAndData =
      vs.map fun v => (text "message", builtinSerialize v) := by
  have hprinted : ∀ v, Printed (builtinSerialize v) := printed_serValue hlibc
  rw [feedAll_events, hchunks]
  · clear hchunks
    induction vs with
    | nil => rfl
    | cons v vs ih =>
      rw [map_cons, flatten_cons, streamEvents_mcpSseWrap (hprinted v), ih]
      rfl
  · rw [hchunks, mem_flatten]
    rintro ⟨s, hs, hzero⟩
    obtain ⟨v, -, rfl⟩ := mem_map.mp hs
    rw [mcpSseWrap, mem_append, mem_append] at hzero
    rcases hzero with (hzero | hzero) | hzero
    · exact absurd hzero (by decide)
    · exact (hprinted v).notMem (by decide) hzero
    · exact absurd hzero (by decide)

/-- A line feed in a string, cut in front of the text and in the blank line. -/
theorem feedAll_mcpSseWrap_lineFeed :
    (feedAll [text "data: ", [0x22, 0x5C, 0x6E, 0x22, 0x0A], [0x0A]]).buffers.events.map
      SseEvent.typeAndData = [(text "message", [0x22, 0x5C, 0x6E, 0x22])] :=
  @feedAll_mcpSseWrap decimalLibc decimalLibc_printsDoubles
    [.string ⟨[0x0A], by decide, by decide⟩] _ (by decide)

end Mcpkit.Transport.Sse
