import Mathlib.Data.List.Basic

/-!
# Framing a stream through a carry buffer

A receiver appends each read to a buffer and takes complete messages off its front.  Its scanner
answers that it needs more, that the front is no message, or that it is a message of some size; a
buffer without a message is dropped whole.

The scanners here ask for more inside the head of a message and refuse a message of which only the
head is complete.  So the events of a run are those of the messages exactly when no read ends
between the end of a head and the end of its message.
-/

namespace Framing

open List

/-- What a scanner finds at the front of the buffer. -/
inductive Scan (Q : Type*) where
  | more
  | bad
  | item (q : Q) (size : Nat)
  deriving DecidableEq

/-- How a run ends: at the end of the stream, with what the buffer holds, or
because a buffer without a complete message reached its limit. -/
inductive End (α : Type*) where
  | eof (rest : List α)
  | overflow
  deriving DecidableEq

variable {α Q : Type*} (scan : List α → Scan Q)

/-- Take messages off the buffer until the scanner needs more.  An event is a
message, or `none` for a buffer that was dropped. -/
def drain : Nat → List α → List (Option Q) × List α
  | 0, buf => ([], buf)
  | fuel + 1, buf =>
    match scan buf with
    | .more => ([], buf)
    | .bad => ([none], [])
    | .item q size =>
      let later := drain fuel (buf.drop size)
      (some q :: later.1, later.2)

/-- The events of a run over a list of reads, and how it ends. -/
def feed (limit : Nat) : List (List α) → List α → List (Option Q) × End α
  | [], buf =>
    let now := drain scan (buf.length + 1) buf
    (now.1, if limit ≤ now.2.length then .overflow else .eof now.2)
  | read :: reads, buf =>
    let now := drain scan (buf.length + 1) buf
    if limit ≤ now.2.length then (now.1, .overflow)
    else
      let later := feed limit reads (now.2 ++ read)
      (now.1 ++ later.1, later.2)

/-- A message that the scanner takes whole, whose head it waits for and whose
rest it does not wait for. -/
structure Framed (m : List α) (q : Q) (head : Nat) : Prop where
  head_pos : 0 < head
  head_le : head ≤ m.length
  whole : ∀ rest, scan (m ++ rest) = .item q m.length
  early : ∀ part rest, m = part ++ rest → part.length < head → scan part = .more
  late : ∀ part rest, m = part ++ rest → rest ≠ [] → head ≤ part.length → scan part = .bad

/-- A message with its decoding, in the form the scanner is right about. -/
structure Frame where
  bytes : List α
  value : Q
  head : Nat
  framed : Framed scan bytes value head

variable {scan}

def stream (ms : List (Frame scan)) : List α := (ms.map Frame.bytes).flatten

@[simp] theorem stream_nil : stream ([] : List (Frame scan)) = [] := rfl

@[simp] theorem stream_cons (m : Frame scan) (ms : List (Frame scan)) :
    stream (m :: ms) = m.bytes ++ stream ms := rfl

@[simp] theorem stream_append (ms ns : List (Frame scan)) :
    stream (ms ++ ns) = stream ms ++ stream ns := by
  simp [stream]

theorem Frame.length_pos (m : Frame scan) : 0 < m.bytes.length :=
  Nat.lt_of_lt_of_le m.framed.head_pos m.framed.head_le

theorem length_le_stream (ms : List (Frame scan)) : ms.length ≤ (stream ms).length := by
  induction ms with
  | nil => simp
  | cons m ms ih =>
    have := m.length_pos
    rw [stream_cons, length_append, length_cons]
    omega

/-- What is left of the buffer once every complete message is taken: nothing, or
the beginning of the next message. -/
inductive Partial : List α → List (Frame scan) → Prop
  | none (ms : List (Frame scan)) : Partial [] ms
  | some {part rest : List α} {m : Frame scan} (ms : List (Frame scan))
      (h : m.bytes = part ++ rest) (hrest : rest ≠ []) : Partial part (m :: ms)

variable {rest part buf : List α} {m : Frame scan} {ms : List (Frame scan)}

theorem length_lt_of_some (h : m.bytes = part ++ rest) (hrest : rest ≠ []) :
    part.length < m.bytes.length := by
  rw [h, length_append]
  have := length_pos_iff.mpr hrest
  omega

variable {limit pos : Nat} {reads : List (List α)}

theorem Partial.length_lt (h : Partial part ms) (hlimit : 0 < limit)
    (hsmall : ∀ m ∈ ms, m.bytes.length < limit) : part.length < limit := by
  cases h with
  | none => exact hlimit
  | some ms h hrest => exact Nat.lt_trans (length_lt_of_some h hrest) (hsmall _ (by simp))

theorem Partial.eq_nil (h : Partial (stream ms) ms) : ms = [] := by
  generalize hs : stream ms = part at h
  cases h with
  | none =>
    have := length_le_stream ms
    rw [hs] at this
    exact length_eq_zero_iff.mp (Nat.le_zero.mp this)
  | @some _ _ m ms h hrest =>
    have := length_lt_of_some h hrest
    rw [← hs, stream_cons, length_append] at this
    omega

theorem exists_partial (h : buf ++ rest = stream ms) :
    ∃ done todo part, ms = done ++ todo ∧ buf = stream done ++ part ∧ Partial part todo := by
  induction ms generalizing buf with
  | nil =>
    have hbuf : buf = [] := (append_eq_nil_iff.mp h).1
    exact ⟨[], [], [], rfl, by simp [hbuf], .none []⟩
  | cons m ms ih =>
    rw [stream_cons, append_eq_append_iff] at h
    rcases h with ⟨a, hm, -⟩ | ⟨c, rfl, hc⟩
    · by_cases ha : a = []
      · refine ⟨[m], ms, [], rfl, ?_, .none ms⟩
        simpa [ha] using hm.symm
      · exact ⟨[], m :: ms, buf, rfl, rfl, .some ms hm ha⟩
    · obtain ⟨done, todo, part, rfl, rfl, hpart⟩ := ih hc.symm
      exact ⟨m :: done, todo, part, rfl, by simp, hpart⟩

/-- A position of the stream between the end of a head and the end of its message. -/
def InRest (pos : Nat) (ms : List (Frame scan)) : Prop :=
  ∃ done m todo, ms = done ++ m :: todo ∧ (stream done).length + m.head ≤ pos ∧
    pos < (stream done).length + m.bytes.length

/-- Some read ends inside the rest of a message. -/
def CutsRest (buf : List α) (reads : List (List α)) (ms : List (Frame scan)) : Prop :=
  ∃ before after, reads = before ++ after ∧ InRest (buf ++ before.flatten).length ms

theorem inRest_cons : InRest (m.bytes.length + pos) (m :: ms) ↔ InRest pos ms := by
  constructor
  · rintro ⟨done, m', todo, h, hhead, hend⟩
    cases done with
    | nil =>
      obtain ⟨rfl, rfl⟩ : m = m' ∧ ms = todo := by simpa using h
      rw [stream_nil, length_nil] at hend
      omega
    | cons x done =>
      obtain ⟨rfl, rfl⟩ : m = x ∧ ms = done ++ m' :: todo := by simpa using h
      rw [stream_cons, length_append] at hhead hend
      exact ⟨done, m', todo, rfl, by omega, by omega⟩
  · rintro ⟨done, m', todo, rfl, hhead, hend⟩
    refine ⟨m :: done, m', todo, rfl, ?_, ?_⟩ <;> rw [stream_cons, length_append] <;> omega

theorem inRest_append (done : List (Frame scan)) {todo : List (Frame scan)} :
    InRest ((stream done).length + pos) (done ++ todo) ↔ InRest pos todo := by
  induction done generalizing pos with
  | nil => simp
  | cons m done ih => rw [stream_cons, length_append, Nat.add_assoc, cons_append, inRest_cons, ih]

theorem inRest_of_some (h : m.bytes = part ++ rest) (hrest : rest ≠ []) :
    InRest part.length (m :: ms) ↔ m.head ≤ part.length := by
  have hlt := length_lt_of_some h hrest
  constructor
  · rintro ⟨done, m', todo, heq, hhead, -⟩
    cases done with
    | nil =>
      obtain ⟨rfl, -⟩ : m = m' ∧ ms = todo := by simpa using heq
      simpa using hhead
    | cons x done =>
      obtain ⟨rfl, -⟩ : m = x ∧ ms = done ++ m' :: todo := by simpa using heq
      rw [stream_cons, length_append] at hhead
      omega
  · intro hhead
    exact ⟨[], m, ms, rfl, by simpa using hhead, by simpa using hlt⟩

theorem not_inRest_zero (ms : List (Frame scan)) : ¬InRest 0 ms := by
  rintro ⟨done, m, todo, -, hhead, -⟩
  have := m.framed.head_pos
  omega

theorem drain_stream (done : List (Frame scan)) (part : List α) (fuel : Nat) :
    drain scan (done.length + fuel) (stream done ++ part) =
      (done.map (some ·.value) ++ (drain scan fuel part).1, (drain scan fuel part).2) := by
  induction done with
  | nil => simp
  | cons m done ih =>
    have hwhole : scan (stream (m :: done) ++ part) = .item m.value m.bytes.length := by
      rw [stream_cons, append_assoc]
      exact m.framed.whole _
    rw [length_cons, Nat.add_right_comm, drain, hwhole]
    simp [ih]

/-- The buffer holds `done` and the part of a message that the scanner waits for. -/
def Waits (ms : List (Frame scan)) (buf : List α) (done todo : List (Frame scan))
    (part : List α) : Prop :=
  ms = done ++ todo ∧ buf = stream done ++ part ∧
    drain scan (buf.length + 1) buf = (done.map (some ·.value), part) ∧ Partial part todo

/-- Draining gives the complete messages; it refuses the buffer exactly when the
buffer ends inside the rest of a message. -/
theorem drain_spec (hnil : scan [] = .more) (h : buf ++ rest = stream ms) :
    (¬InRest buf.length ms ∧ ∃ done todo part, Waits ms buf done todo part) ∨
      (InRest buf.length ms ∧ none ∈ (drain scan (buf.length + 1) buf).1) := by
  obtain ⟨done, todo, part, rfl, rfl, hpart⟩ := exists_partial h
  obtain ⟨fuel, hfuel⟩ : ∃ fuel, (stream done ++ part).length + 1 = done.length + (fuel + 1) := by
    have := length_le_stream done
    exact ⟨(stream done ++ part).length - done.length, by rw [length_append]; omega⟩
  have hdrain := drain_stream done part (fuel + 1)
  rw [← hfuel] at hdrain
  have hpos : InRest (stream done ++ part).length (done ++ todo) ↔ InRest part.length todo := by
    rw [length_append, inRest_append]
  rw [hpos]
  cases hpart with
  | none =>
    refine .inl ⟨not_inRest_zero _, done, todo, [], rfl, rfl, ?_, .none todo⟩
    rw [hdrain, drain, hnil, append_nil]
  | @some _ rest m ms hm hrest =>
    rw [inRest_of_some hm hrest]
    by_cases hhead : m.head ≤ part.length
    · refine .inr ⟨hhead, ?_⟩
      rw [hdrain, drain, m.framed.late part rest hm hrest hhead]
      simp
    · refine .inl ⟨hhead, done, m :: ms, part, rfl, rfl, ?_, .some ms hm hrest⟩
      rw [hdrain, drain, m.framed.early part rest hm (by omega), append_nil]

theorem cutsRest_cons {read : List α} :
    CutsRest buf (read :: reads) ms ↔ InRest buf.length ms ∨ CutsRest (buf ++ read) reads ms := by
  constructor
  · rintro ⟨before, after, hreads, hrest⟩
    cases before with
    | nil => exact .inl (by simpa using hrest)
    | cons r before =>
      obtain ⟨rfl, rfl⟩ := List.cons.inj hreads
      exact .inr ⟨before, after, rfl, by simpa using hrest⟩
  · rintro (hrest | ⟨before, after, rfl, hrest⟩)
    · exact ⟨[], read :: reads, rfl, by simpa using hrest⟩
    · exact ⟨read :: before, after, rfl, by simpa using hrest⟩

theorem cutsRest_append (done : List (Frame scan)) :
    CutsRest (stream done ++ buf) reads (done ++ ms) ↔ CutsRest buf reads ms := by
  simp [CutsRest, inRest_append]

/-- Reads that never end inside the rest of a message give the messages in order
and leave an empty buffer; the receiver refuses a read that does. -/
theorem feed_spec (hnil : scan [] = .more) (hlimit : 0 < limit)
    (hsmall : ∀ m ∈ ms, m.bytes.length < limit) (h : buf ++ reads.flatten = stream ms) :
    (¬CutsRest buf reads ms ∧ feed scan limit reads buf = (ms.map (some ·.value), .eof [])) ∨
      (CutsRest buf reads ms ∧ none ∈ (feed scan limit reads buf).1) := by
  induction reads generalizing buf ms with
  | nil =>
    have hcut : CutsRest buf [] ms ↔ InRest buf.length ms := by simp [CutsRest]
    rw [hcut]
    refine (drain_spec hnil h).imp_left ?_
    rintro ⟨hrest, done, todo, part, rfl, rfl, hdrain, hpart⟩
    -- the stream has been read to its end, so nothing is left over
    obtain rfl : part = stream todo := by simpa using h
    obtain rfl := hpart.eq_nil
    refine ⟨hrest, ?_⟩
    rw [feed, hdrain, append_nil]
    exact congrArg (Prod.mk _) (if_neg (Nat.not_le.mpr hlimit))
  | cons read reads ih =>
    rw [cutsRest_cons]
    obtain ⟨hrest, done, todo, part, rfl, rfl, hdrain, hpart⟩ | ⟨hrest, hnone⟩ := drain_spec hnil h
    · have hsmall' : ∀ m ∈ todo, m.bytes.length < limit := fun m hm => hsmall m (by simp [hm])
      have hfit := Nat.not_le.mpr (hpart.length_lt hlimit hsmall')
      have hlater : part ++ read ++ reads.flatten = stream todo := by simpa using h
      simp only [feed, hdrain, if_neg hfit, hrest, false_or, append_assoc, cutsRest_append]
      obtain ⟨hcut, hfeed⟩ | ⟨hcut, hnone⟩ := ih hsmall' hlater
      · exact .inl ⟨hcut, by rw [hfeed, map_append]⟩
      · exact .inr ⟨hcut, mem_append_right _ hnone⟩
    · refine .inr ⟨.inl hrest, ?_⟩
      simp only [feed]
      split
      · exact hnone
      · exact mem_append_left _ hnone

theorem not_cutsRest_bytes (ms : List (Frame scan)) : ¬CutsRest [] (ms.map Frame.bytes) ms := by
  rintro ⟨before, after, hreads, hrest⟩
  obtain ⟨done, todo, rfl, rfl, rfl⟩ := map_eq_append_iff.mp hreads
  exact not_inRest_zero todo ((inRest_append done).mp hrest)

end Framing
