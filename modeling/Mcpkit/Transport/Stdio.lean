import Mcpkit.Protocol.Message
import Mcpkit.Transport.LineText

/-!
# The stdio transport

`stdio_recv` appends what it reads to a buffer until that holds a line feed, returns the line and
keeps the rest for the next call.  A read that would make the buffer too long is dropped, and the
call reads on until a later read holds a line feed.

The results of all calls depend on the bytes alone exactly if no such read holds a line feed itself,
unless it is the last byte of the stream.
-/

namespace Mcpkit.Transport.Stdio

open Json Protocol Lines

/-- What `wait_readable` and `read` give: the wait may end without input, with the status to
return.  No bytes, or the end of the list, is the end of the input. -/
inductive Read where
  | data (chunk : Bytes)
  | interrupted
  | failed
  | unready (status : Status)
  deriving DecidableEq

def beforeLf (s : Bytes) : Bytes := s.takeWhile (· ≠ lf)

def behindLf (s : Bytes) : Bytes := (s.dropWhile (· ≠ lf)).drop 1

variable (buf : Bytes) (reads : List Read)

/-- The input has ended or failed: what there is of a line is returned. -/
def atEnd : Except Status Bytes := if buf = [] then .error .io else .ok (stripCr buf)

/-- The loop that discards a line: the result, the stash and the reads that are left. -/
def discardLoop : List Read → Except Status Bytes × Bytes × List Read
  | [] => (.error .protocol, [], [])
  | .unready status :: reads => (.error status, [], reads)
  | .interrupted :: reads => discardLoop reads
  | .failed :: reads => (.error .protocol, [], reads)
  | .data chunk :: reads =>
    if chunk = [] then (.error .protocol, [], reads)
    else if lf ∈ chunk then (.error .protocol, behindLf chunk, reads)
    else discardLoop reads

def recvLoop (buf : Bytes) (reads : List Read) : Except Status Bytes × Bytes × List Read :=
  if lf ∈ buf then (.ok (stripCr (beforeLf buf)), behindLf buf, reads)
  else
    match reads with
    | [] => (atEnd buf, [], [])
    | .unready status :: reads => (.error status, [], reads)
    | .interrupted :: reads => recvLoop buf reads
    | .failed :: reads => (atEnd buf, [], reads)
    | .data chunk :: reads =>
      if chunk = [] then (atEnd buf, [], reads)
      else if mcpProtocolMaxMessageBytes < buf.length + chunk.length + 1 then discardLoop reads
      else recvLoop (buf ++ chunk) reads

/-- `stdio_recv`: the buffer begins with the stash. -/
def stdioRecv (stash : Bytes) (reads : List Read) : Except Status Bytes × Bytes × List Read :=
  recvLoop stash reads

def stdioCalls : Nat → Bytes → List Read → List (Except Status Bytes)
  | 0, _, _ => []
  | calls + 1, stash, reads =>
    (stdioRecv stash reads).1 ::
      stdioCalls calls (stdioRecv stash reads).2.1 (stdioRecv stash reads).2.2

/-- The lines of a text as they are returned. -/
def okLines (line s : Bytes) : List (Except Status Bytes) :=
  (complete lf line s).map fun l => .ok (stripCr l)

/-- The results that follow, by the part of a line that is held, or while one is discarded. -/
def results : Option Bytes → List Read → List (Except Status Bytes)
  | some line, [] => if line = [] then [] else [.ok (stripCr line)]
  | none, [] => [.error .protocol]
  | some _, .unready status :: reads => .error status :: results (some []) reads
  | none, .unready status :: reads => .error status :: results (some []) reads
  | some line, .interrupted :: reads => results (some line) reads
  | none, .interrupted :: reads => results none reads
  | some line, .failed :: reads => atEnd line :: results (some []) reads
  | none, .failed :: reads => .error .protocol :: results (some []) reads
  | some line, .data chunk :: reads =>
    if chunk = [] then atEnd line :: results (some []) reads
    else if mcpProtocolMaxMessageBytes < line.length + chunk.length + 1 then results none reads
    else okLines line chunk ++ results (some (remainder lf line chunk)) reads
  | none, .data chunk :: reads =>
    if chunk = [] then .error .protocol :: results (some []) reads
    else if lf ∈ chunk then
      .error .protocol :: (okLines [] (behindLf chunk) ++
        results (some (remainder lf [] (behindLf chunk))) reads)
    else results none reads

def resultsFrom (stash : Bytes) (reads : List Read) : List (Except Status Bytes) :=
  okLines [] stash ++ results (some (remainder lf [] stash)) reads

theorem behindLf_append_lf {pre : Bytes} (h : lf ∉ pre) (post : Bytes) :
    behindLf (pre ++ lf :: post) = post := by
  rw [behindLf, List.dropWhile_append_of_pos (ne_lf_of_notMem h)]
  simp

theorem resultsFrom_of_notMem {stash : Bytes} (h : lf ∉ stash) (reads : List Read) :
    resultsFrom stash reads = results (some stash) reads := by
  simp [resultsFrom, okLines, complete_of_notMem h, remainder_of_notMem h]

theorem resultsFrom_append_lf {pre : Bytes} (h : lf ∉ pre) (post : Bytes) (reads : List Read) :
    resultsFrom (pre ++ lf :: post) reads = .ok (stripCr pre) :: resultsFrom post reads := by
  simp [resultsFrom, okLines, complete_append_sep h, remainder_append_sep h]

theorem resultsFrom_append {buf : Bytes} (h : lf ∉ buf) (chunk : Bytes) (reads : List Read) :
    resultsFrom (buf ++ chunk) reads =
      okLines buf chunk ++ results (some (remainder lf buf chunk)) reads := by
  simp [resultsFrom, okLines, complete_append_of_notMem h, remainder_append_of_notMem h]

/-- A call gives the first result and leaves the others. -/
def Answers (rs : List (Except Status Bytes)) (out : Except Status Bytes × Bytes × List Read) :
    Prop :=
  rs = out.1 :: resultsFrom out.2.1 out.2.2 ∨ (rs = [] ∧ out = (.error .io, [], []))

theorem answers_atEnd : Answers (atEnd buf :: results (some []) reads) (atEnd buf, [], reads) :=
  .inl rfl

theorem answers_discardLoop : Answers (results none reads) (discardLoop reads) := by
  induction reads with
  | nil => exact .inl rfl
  | cons r reads ih =>
    cases r with
    | unready status | failed => exact .inl rfl
    | interrupted => exact ih
    | data chunk =>
      rw [results, discardLoop]
      by_cases hnil : chunk = []
      · rw [if_pos hnil, if_pos hnil]
        exact .inl rfl
      rw [if_neg hnil, if_neg hnil]
      by_cases hlf : lf ∈ chunk
      · rw [if_pos hlf, if_pos hlf]
        exact .inl rfl
      · rwa [if_neg hlf, if_neg hlf]

theorem answers_recvLoop_of_mem {buf : Bytes} (hlf : lf ∈ buf) (reads : List Read) :
    Answers (resultsFrom buf reads) (recvLoop buf reads) := by
  rw [recvLoop.eq_def, if_pos hlf]
  obtain ⟨pre, post, rfl, hpre⟩ := List.eq_append_cons_of_mem hlf
  rw [resultsFrom_append_lf hpre, beforeLf, takeWhile_append_lf hpre, behindLf_append_lf hpre]
  exact .inl rfl

theorem answers_recvLoop : Answers (resultsFrom buf reads) (recvLoop buf reads) := by
  induction reads generalizing buf with
  | nil =>
    by_cases hlf : lf ∈ buf
    · exact answers_recvLoop_of_mem hlf _
    rw [resultsFrom_of_notMem hlf, recvLoop.eq_def, if_neg hlf]
    by_cases hnil : buf = []
    · exact .inr ⟨if_pos hnil, by simp [atEnd, hnil]⟩
    · left
      simp [results, atEnd, hnil, resultsFrom, okLines]
  | cons r reads ih =>
    by_cases hlf : lf ∈ buf
    · exact answers_recvLoop_of_mem hlf _
    rw [resultsFrom_of_notMem hlf, recvLoop.eq_def, if_neg hlf]
    cases r with
    | unready status => exact .inl rfl
    | interrupted =>
      have hrest := ih buf
      rwa [resultsFrom_of_notMem hlf] at hrest
    | failed => exact answers_atEnd buf reads
    | data chunk =>
      rw [results]
      by_cases hnil : chunk = []
      · rw [if_pos hnil]
        simpa only [if_pos hnil] using answers_atEnd buf reads
      by_cases hbig : mcpProtocolMaxMessageBytes < buf.length + chunk.length + 1
      · simpa only [if_neg hnil, if_pos hbig] using answers_discardLoop reads
      · have hrest := ih (buf ++ chunk)
        rw [resultsFrom_append hlf] at hrest
        simpa only [if_neg hnil, if_neg hbig] using hrest

theorem stdioCalls_eq (calls : Nat) (stash : Bytes) (reads : List Read) :
    stdioCalls calls stash reads = (resultsFrom stash reads).takeD calls (.error .io) := by
  induction calls generalizing stash reads with
  | zero => rfl
  | succ calls ih =>
    rw [stdioCalls, ih]
    rcases answers_recvLoop stash reads with hsome | ⟨hnil, hout⟩
    · rw [hsome]
      rfl
    · rw [hnil, stdioRecv, hout]
      rfl

end Mcpkit.Transport.Stdio
