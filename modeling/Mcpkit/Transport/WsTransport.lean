import Mcpkit.Transport.FrameCodec

/-!
# The WebSocket transport

`ws_recv` keeps the bytes that it has not used in a carry buffer.  It reads until a frame is
complete, answers a ping, ends at a close frame, and returns the payload of every other frame that
is not a pong.  It returns each fragment on its own and a null pointer for an empty payload, so its
lines are the messages exactly if each message is one frame with a payload, as far as the carry
buffer has room.
-/

namespace Mcpkit.Transport

open Json List Nat Prod
open Framing (Scan)

/-- What `recv` gives: bytes, or an error that is an interruption or not.  Behind the last one the
peer has closed the connection.  The number of bytes is not bounded here. -/
inductive Recv where
  | data (bytes : Bytes)
  | interrupted
  | failed
  deriving DecidableEq, Repr

/-- `mcp_ws_backend_t` on an open descriptor, with the pongs that were sent. -/
structure WsBackend where
  isServer : Bool
  closed : Bool
  carry : Bytes
  carryCap : Nat
  sent : List WsFrame
  deriving DecidableEq, Repr

def WsBackend.create (isServer : Bool) : WsBackend := ⟨isServer, false, [], 0, []⟩

def wsCarryMax : Nat := 4194304

/-- The capacity for the next read, if there may be one. -/
def wsGrow (cap len : Nat) : Option Nat :=
  if len + 4096 ≤ cap then some cap
  else
    let ncap := if cap = 0 then 8192 else cap * 2
    if wsCarryMax < ncap then none else some ncap

/-- The pointer to a payload; an empty payload has none. -/
def WsFrame.line (f : WsFrame) : Option Bytes := if f.payload = [] then none else some f.payload

def WsFrame.isPart (f : WsFrame) : Bool := !f.opcode.isControl

section

variable (random : Nat → Option Bytes)

/-- The answer to a ping.  A client masks it with the random bytes that it gets, if it gets them. -/
def wsPong (b : WsBackend) (payload : Bytes) : Option WsFrame :=
  if b.isServer then some ⟨true, .pong, false, [0, 0, 0, 0], payload⟩
  else (random b.sent.length).map fun key => ⟨true, .pong, true, key, payload⟩

/-- What a frame does: the call returns, or it goes on. -/
def wsHandle (b : WsBackend) (f : WsFrame) : WsBackend × Option (Except Status (Option Bytes)) :=
  match f.opcode with
  | .text | .binary | .continuation => (b, some (.ok f.line))
  | .ping =>
    match wsPong random b f.payload with
    | none => (b, some (.error .io))
    | some pong => ({ b with sent := b.sent ++ [pong] }, none)
  | .close => ({ b with closed := true }, some (.error .io))
  | .pong => (b, none)

/-- Read until a frame is complete at the front of the carry buffer, and take it off. -/
def wsNextFrame (reads : List Recv) (b : WsBackend) :
    Except Status WsFrame × WsBackend × List Recv :=
  match mcpWsParseFrame b.carry with
  | .bad => (.error .protocol, b, reads)
  | .item f n => (.ok f, { b with carry := b.carry.drop n }, reads)
  | .more =>
    match wsGrow b.carryCap b.carry.length with
    | none => (.error .protocol, b, reads)
    | some cap =>
      let b := { b with carryCap := cap }
      match reads with
      | [] => (.error .io, b, [])
      | .failed :: reads => (.error .io, b, reads)
      | .interrupted :: reads => wsNextFrame reads b
      | .data bytes :: reads =>
        if bytes = [] then (.error .io, b, reads)
        else wsNextFrame reads { b with carry := b.carry ++ bytes }

def wsRecvLoop : Nat → WsBackend → List Recv → Except Status (Option Bytes) × WsBackend × List Recv
  | 0, b, reads => (.error .io, b, reads)
  | fuel + 1, b, reads =>
    match wsNextFrame reads b with
    | (.error st, b, reads) => (.error st, b, reads)
    | (.ok f, b, reads) =>
      match wsHandle random b f with
      | (b, some r) => (r, b, reads)
      | (b, none) => wsRecvLoop fuel b reads

def recvBytes (reads : List Recv) : Bytes :=
  reads.flatMap fun r => match r with
    | .data bytes => bytes
    | _ => []

/-- `ws_recv`.  Every frame takes at least one byte, so this is enough fuel. -/
def wsRecv (b : WsBackend) (reads : List Recv) :
    Except Status (Option Bytes) × WsBackend × List Recv :=
  if b.closed then (.error .io, b, reads)
  else wsRecvLoop random (b.carry.length + (recvBytes reads).length + 1) b reads

/-- The lines of the calls that return `MCP_OK` among the first calls. -/
def wsDelivered : Nat → WsBackend → List Recv → List (Option Bytes)
  | 0, _, _ => []
  | calls + 1, b, reads =>
    match wsRecv random b reads with
    | (.ok line, b, reads) => line :: wsDelivered calls b reads
    | (.error _, b, reads) => wsDelivered calls b reads

end

/-- The messages that the frames complete, with the part of one that is open. -/
def wsMessages : Option Bytes → List WsFrame → List Bytes
  | _, [] => []
  | part, f :: fs =>
    match f.opcode with
    | .text | .binary =>
      if f.fin then f.payload :: wsMessages none fs else wsMessages (some f.payload) fs
    | .continuation =>
      if f.fin then (part.getD [] ++ f.payload) :: wsMessages none fs
      else wsMessages (some (part.getD [] ++ f.payload)) fs
    | .close | .ping | .pong => wsMessages part fs

/-- A message starts outside of one and goes on inside of one, and nothing follows a close frame. -/
def wsValid : Bool → List WsFrame → Bool
  | _, [] => true
  | inside, f :: fs =>
    match f.opcode with
    | .text | .binary => !inside && wsValid (!f.fin) fs
    | .continuation => inside && wsValid (!f.fin) fs
    | .ping | .pong => wsValid inside fs
    | .close => fs.isEmpty

/-- Read until the carry buffer holds a frame of this size: its capacity, the bytes it holds and the
reads that are left, unless a read finds no room before. -/
def wsReach (size : Nat) (reads : List Recv) (cap held : Nat) : Option (Nat × Nat × List Recv) :=
  if size ≤ held then some (cap, held, reads)
  else
    match wsGrow cap held with
    | none => none
    | some cap =>
      match reads with
      | .data bytes :: reads => wsReach size reads cap (held + bytes.length)
      | .interrupted :: reads => wsReach size reads cap held
      | .failed :: _ => none
      | [] => none

/-- The frames that are complete before a read finds no room. -/
def wsArrived : List (Bytes × WsFrame) → List Recv → Nat → Nat → List WsFrame
  | [], _, _, _ => []
  | m :: ms, reads, cap, held =>
    match wsReach m.1.length reads cap held with
    | none => []
    | some (cap, held, reads) => m.2 :: wsArrived ms reads cap (held - m.1.length)

variable {cap : Nat}

theorem wsReach_of_full {size held : Nat} (reads : List Recv) (hlt : held < size)
    (hfull : wsGrow cap held = none) : wsReach size reads cap held = none := by
  rw [wsReach.eq_def, if_neg (not_le.mpr hlt), hfull]

theorem lt_of_wsGrow {len : Nat} (h : wsGrow cap len = none) : 2093056 < len := by
  rw [wsGrow] at h
  split at h
  · cases h
  next hlen =>
    dsimp only at h
    by_cases hcap : cap = 0
    · rw [if_pos hcap, if_neg (by decide)] at h
      cases h
    rw [if_neg hcap] at h
    split at h
    next hfull =>
      rw [wsCarryMax] at hfull
      omega
    · cases h

theorem recvBytes_data (bytes : Bytes) (reads : List Recv) :
    recvBytes (.data bytes :: reads) = bytes ++ recvBytes reads := rfl

/-- The carry buffer and the reads bring frames, each in bytes that the parser takes for it. -/
structure Arriving (ms : List (Bytes × WsFrame)) (b : WsBackend) (reads : List Recv) : Prop where
  frames : ∀ m ∈ ms, mcpWsParseFrame m.1 = .item m.2 m.1.length
  bytes : b.carry ++ recvBytes reads = (ms.map fst).flatten
  reads : ∀ r ∈ reads, r ≠ .failed ∧ r ≠ .data []
  valid : ∃ inside, wsValid inside (ms.map snd) = true

namespace Arriving

variable {m : Bytes × WsFrame} {ms : List (Bytes × WsFrame)} {b : WsBackend} {r : Recv}
  {reads : List Recv}

variable {bytes : Bytes}

theorem read (h : Arriving ms b (r :: reads)) (hr : r = .data bytes) (cap : Nat) :
    Arriving ms { b with carry := b.carry ++ bytes, carryCap := cap } reads where
  frames := h.frames
  bytes := by
    rw [append_assoc, ← recvBytes_data, ← hr]
    exact h.bytes
  reads r' hr' := h.reads r' (mem_cons_of_mem r hr')
  valid := h.valid

theorem ne_nil (h : Arriving ms b (r :: reads)) (hr : r = .data bytes) : bytes ≠ [] := by
  intro hnil
  exact (h.reads r mem_cons_self).2 (by rw [hr, hnil])

theorem parse_nil (h : Arriving [] b reads) : mcpWsParseFrame b.carry = .more := by
  rw [(append_eq_nil_iff.mp h.bytes).1]
  rfl

theorem data_nil (h : Arriving [] b (r :: reads)) (hr : r = .data bytes) : bytes = [] := by
  have hnone := (append_eq_nil_iff.mp h.bytes).2
  rw [hr, recvBytes_data] at hnone
  exact (append_eq_nil_iff.mp hnone).1

theorem interrupted (h : Arriving ms b (.interrupted :: reads)) (cap : Nat) :
    Arriving ms { b with carryCap := cap } reads where
  frames := h.frames
  bytes := h.bytes
  reads r hr := h.reads r (mem_cons_of_mem _ hr)
  valid := h.valid

theorem exists_carry (h : Arriving (m :: ms) b reads) (hheld : m.1.length ≤ b.carry.length) :
    ∃ carry, b.carry = m.1 ++ carry ∧ carry ++ recvBytes reads = (ms.map fst).flatten := by
  have hbytes := h.bytes
  rw [map_cons, flatten_cons] at hbytes
  obtain ⟨carry, hcarry⟩ : m.1 <+: b.carry :=
    prefix_of_prefix_length_le ⟨_, hbytes.symm⟩ ⟨_, rfl⟩ hheld
  refine ⟨carry, hcarry.symm, ?_⟩
  rw [← hcarry, append_assoc] at hbytes
  exact append_cancel_left hbytes

theorem parse_more (h : Arriving (m :: ms) b reads) (hheld : ¬m.1.length ≤ b.carry.length) :
    mcpWsParseFrame b.carry = .more := by
  have hwhole : mcpWsParseFrame (b.carry ++ recvBytes reads) = .item m.2 m.1.length := by
    rw [h.bytes, map_cons, flatten_cons]
    exact stable_mcpWsParseFrame.item_append _ (h.frames m mem_cons_self)
  exact stable_mcpWsParseFrame.more_of_part hwhole (not_le.mp hheld)

theorem length_lt (h : Arriving (m :: ms) b []) : m.1.length ≤ b.carry.length := by
  have hbytes := congrArg List.length h.bytes
  rw [map_cons, flatten_cons, length_append, length_append] at hbytes
  have hnone : (recvBytes []).length = 0 := rfl
  omega

theorem tail (h : Arriving (m :: ms) b reads) {carry : Bytes} {reads' : List Recv}
    (hbytes : carry ++ recvBytes reads' = (ms.map fst).flatten)
    (hreads : ∀ r ∈ reads', r ≠ .failed ∧ r ≠ .data []) (cap : Nat) :
    Arriving ms { b with carry := carry, carryCap := cap } reads' where
  frames m' hm' := h.frames m' (mem_cons_of_mem m hm')
  bytes := hbytes
  reads := hreads
  valid := by
    obtain ⟨inside, hvalid⟩ := h.valid
    rw [map_cons, wsValid] at hvalid
    split at hvalid
    · exact ⟨_, (Bool.and_eq_true_iff.mp hvalid).2⟩
    · exact ⟨_, (Bool.and_eq_true_iff.mp hvalid).2⟩
    · exact ⟨_, (Bool.and_eq_true_iff.mp hvalid).2⟩
    · exact ⟨_, hvalid⟩
    · exact ⟨_, hvalid⟩
    · rw [List.isEmpty_iff.mp hvalid]
      exact ⟨true, rfl⟩

theorem nil_of_close (h : Arriving (m :: ms) b reads) (hclose : m.2.opcode = .close) : ms = [] := by
  obtain ⟨inside, hvalid⟩ := h.valid
  rw [map_cons, wsValid, hclose] at hvalid
  exact map_eq_nil_iff.mp (List.isEmpty_iff.mp hvalid)

theorem length_le (h : Arriving ms b reads) :
    ms.length ≤ b.carry.length + (recvBytes reads).length := by
  rw [← length_append, h.bytes]
  have hpos : ∀ m ∈ ms, 0 < m.1.length := by
    intro m hm
    exact stable_mcpWsParseFrame.size_pos (h.frames m hm)
  clear h
  induction ms with
  | nil => exact le_refl 0
  | cons m ms ih =>
    have hm := hpos m mem_cons_self
    have hms := ih fun m' hm' => hpos m' (mem_cons_of_mem m hm')
    rw [map_cons, flatten_cons, length_append, length_cons]
    omega

end Arriving

section

variable {m : Bytes × WsFrame} {ms : List (Bytes × WsFrame)} {b : WsBackend} {reads : List Recv}

theorem wsNextFrame_of_held (h : Arriving (m :: ms) b reads)
    (hheld : m.1.length ≤ b.carry.length) :
    ∃ carry, carry.length = b.carry.length - m.1.length ∧
      wsNextFrame reads b = (.ok m.2, { b with carry := carry }, reads) ∧
      Arriving ms { b with carry := carry } reads := by
  obtain ⟨carry, hcarry, hrest⟩ := h.exists_carry hheld
  refine ⟨carry, ?_, ?_, h.tail hrest h.reads b.carryCap⟩
  · rw [hcarry, length_append, Nat.add_sub_cancel_left]
  rw [wsNextFrame.eq_def, hcarry,
    stable_mcpWsParseFrame.item_append carry (h.frames m mem_cons_self)]
  dsimp only
  rw [drop_left]

/-- The frame at the front is taken if there is room until it is complete.  Without room the call
fails, and so will the next one. -/
theorem wsNextFrame_cases (h : Arriving (m :: ms) b reads) :
    (∃ cap held carry reads', wsReach m.1.length reads b.carryCap b.carry.length =
        some (cap, held, reads') ∧ carry.length = held - m.1.length ∧
      wsNextFrame reads b = (.ok m.2, { b with carry := carry, carryCap := cap }, reads') ∧
      Arriving ms { b with carry := carry, carryCap := cap } reads') ∨
    (∃ b' reads', wsReach m.1.length reads b.carryCap b.carry.length = none ∧
      wsNextFrame reads b = (.error .protocol, b', reads') ∧ b'.closed = b.closed ∧
      Arriving (m :: ms) b' reads' ∧ b'.carry.length < m.1.length ∧
      wsGrow b'.carryCap b'.carry.length = none) := by
  induction reads generalizing b with
  | nil =>
    obtain ⟨carry, hcarry⟩ := wsNextFrame_of_held h h.length_lt
    refine .inl ⟨_, _, carry, [], ?_, hcarry⟩
    rw [wsReach, if_pos h.length_lt]
  | cons r reads ih =>
    by_cases hheld : m.1.length ≤ b.carry.length
    · obtain ⟨carry, hcarry⟩ := wsNextFrame_of_held h hheld
      refine .inl ⟨_, _, carry, r :: reads, ?_, hcarry⟩
      rw [wsReach, if_pos hheld]
    rw [wsReach, if_neg hheld, wsNextFrame, h.parse_more hheld]
    cases hgrow : wsGrow b.carryCap b.carry.length with
    | none => exact .inr ⟨b, r :: reads, rfl, rfl, rfl, h, not_le.mp hheld, hgrow⟩
    | some ncap =>
      cases r with
      | failed => exact absurd rfl (h.reads .failed mem_cons_self).1
      | interrupted => exact ih (h.interrupted ncap)
      | data bytes =>
        dsimp only
        rw [if_neg (h.ne_nil rfl), ← length_append]
        exact ih (h.read rfl ncap)

theorem wsNextFrame_of_nil (h : Arriving [] b reads) :
    ∃ st b' reads', wsNextFrame reads b = (.error st, b', reads') ∧ b'.closed = b.closed ∧
      Arriving [] b' reads' := by
  induction reads generalizing b with
  | nil =>
    rw [wsNextFrame, h.parse_nil]
    cases wsGrow b.carryCap b.carry.length with
    | none => exact ⟨_, _, _, rfl, rfl, h⟩
    | some cap => exact ⟨_, _, _, rfl, rfl, h.frames, h.bytes, h.reads, h.valid⟩
  | cons r reads ih =>
    rw [wsNextFrame, h.parse_nil]
    cases wsGrow b.carryCap b.carry.length with
    | none => exact ⟨_, _, _, rfl, rfl, h⟩
    | some cap =>
      cases r with
      | failed => exact absurd rfl (h.reads .failed mem_cons_self).1
      | interrupted => exact ih (h.interrupted cap)
      | data bytes => exact absurd (h.data_nil rfl) (h.ne_nil rfl)

end

/-- The lines of the frames that carry a part of a message. -/
def wsLines (fs : List WsFrame) : List (Option Bytes) := (fs.filter WsFrame.isPart).map WsFrame.line

theorem wsLines_cons_of_isPart {f : WsFrame} (h : f.isPart = true) (fs : List WsFrame) :
    wsLines (f :: fs) = f.line :: wsLines fs := by
  rw [wsLines, filter_cons_of_pos h, map_cons]
  rfl

theorem wsLines_cons_of_control {f : WsFrame} (h : f.isPart = false) (fs : List WsFrame) :
    wsLines (f :: fs) = wsLines fs := by
  rw [wsLines, filter_cons_of_neg (by rw [h]; decide)]
  rfl

/-- The transport will return these lines and then fail. -/
inductive Awaits (lines : List (Option Bytes)) (b : WsBackend) (reads : List Recv) : Prop where
  | ended : b.closed = true → lines = [] → Awaits lines b reads
  | running (ms : List (Bytes × WsFrame)) : b.closed = false → Arriving ms b reads →
      wsLines (wsArrived ms reads b.carryCap b.carry.length) = lines → Awaits lines b reads

/-- What a call returns, by the lines that were to come. -/
def Answers (lines : List (Option Bytes))
    (out : Except Status (Option Bytes) × WsBackend × List Recv) : Prop :=
  (∃ line later, lines = line :: later ∧ out.1 = .ok line ∧ Awaits later out.2.1 out.2.2) ∨
    ∃ st, lines = [] ∧ out.1 = .error st ∧ Awaits [] out.2.1 out.2.2

variable {b : WsBackend} {reads : List Recv} {ms : List (Bytes × WsFrame)}

section

variable {random : Nat → Option Bytes} (hrandom : ∀ k, (random k).isSome = true)

include hrandom in
theorem exists_wsPong (b : WsBackend) (payload : Bytes) :
    ∃ pong, wsPong random b payload = some pong := by
  obtain ⟨key, hkey⟩ := Option.isSome_iff_exists.mp (hrandom b.sent.length)
  rw [wsPong, hkey]
  split <;> exact ⟨_, rfl⟩

include hrandom in
/-- The loop takes frames up to the first that carries a part of a message.  The induction is on the
frames that are still to come. -/
theorem answers_wsRecvLoop {fuel : Nat} (h : Arriving ms b reads) (hopen : b.closed = false)
    (hfuel : ms.length < fuel) :
    Answers (wsLines (wsArrived ms reads b.carryCap b.carry.length))
      (wsRecvLoop random fuel b reads) := by
  induction ms generalizing b reads fuel with
  | nil =>
    obtain ⟨fuel, rfl⟩ := exists_eq_add_one_of_ne_zero (ne_of_gt hfuel)
    obtain ⟨st, b', reads', hnext, hclosed, harrive⟩ := wsNextFrame_of_nil h
    rw [wsRecvLoop, hnext]
    exact .inr ⟨st, rfl, rfl, .running [] (hclosed.trans hopen) harrive rfl⟩
  | cons m ms ih =>
    obtain ⟨fuel, rfl⟩ := exists_eq_add_one_of_ne_zero (ne_of_gt (zero_lt_of_lt hfuel))
    rw [length_cons] at hfuel
    rw [wsArrived, wsRecvLoop]
    obtain ⟨cap, held, carry, reads', hreach, hlength, hnext, harrive⟩ |
      ⟨b', reads', hreach, hnext, hclosed, harrive, hlt, hfull⟩ := wsNextFrame_cases h
    · rw [hreach, hnext]
      dsimp only
      rw [← hlength]
      cases hopcode : m.2.opcode with
      | text | binary | continuation =>
        have hpart : m.2.isPart = true := by rw [WsFrame.isPart, hopcode]; rfl
        rw [wsLines_cons_of_isPart hpart, wsHandle, hopcode]
        exact .inl ⟨_, _, rfl, rfl, .running ms hopen harrive rfl⟩
      | ping =>
        have hpart : m.2.isPart = false := by rw [WsFrame.isPart, hopcode]; rfl
        rw [wsLines_cons_of_control hpart, wsHandle, hopcode]
        dsimp only
        obtain ⟨pong, hpong⟩ := exists_wsPong hrandom
          { b with carry := carry, carryCap := cap } m.2.payload
        rw [hpong]
        have harrive' : Arriving ms
            { b with carry := carry, carryCap := cap, sent := b.sent ++ [pong] } reads' :=
          ⟨harrive.frames, harrive.bytes, harrive.reads, harrive.valid⟩
        exact ih harrive' hopen (lt_of_succ_lt_succ hfuel)
      | pong =>
        have hpart : m.2.isPart = false := by rw [WsFrame.isPart, hopcode]; rfl
        rw [wsLines_cons_of_control hpart, wsHandle, hopcode]
        exact ih harrive hopen (lt_of_succ_lt_succ hfuel)
      | close =>
        have hpart : m.2.isPart = false := by rw [WsFrame.isPart, hopcode]; rfl
        rw [wsLines_cons_of_control hpart, wsHandle, hopcode, h.nil_of_close hopcode]
        exact .inr ⟨_, rfl, rfl, .ended rfl rfl⟩
    · have hstuck := wsReach_of_full reads' hlt hfull
      rw [hreach, hnext]
      refine .inr ⟨_, rfl, rfl, .running (m :: ms) (hclosed.trans hopen) harrive ?_⟩
      dsimp only
      rw [wsArrived, hstuck]
      rfl

variable {lines : List (Option Bytes)}

include hrandom in
theorem answers_wsRecv (h : Awaits lines b reads) : Answers lines (wsRecv random b reads) := by
  rw [wsRecv]
  cases h with
  | ended hclosed hlines =>
    rw [if_pos hclosed]
    exact .inr ⟨_, hlines, rfl, .ended hclosed rfl⟩
  | running ms hopen harrive hlines =>
    rw [if_neg (by rw [hopen]; decide), ← hlines]
    apply answers_wsRecvLoop hrandom harrive hopen
    exact lt_succ_of_le harrive.length_le

include hrandom in
theorem wsDelivered_eq_take (calls : Nat) (h : Awaits lines b reads) :
    wsDelivered random calls b reads = lines.take calls := by
  induction calls generalizing lines b reads with
  | zero => rfl
  | succ calls ih =>
    have hanswers := answers_wsRecv hrandom h
    rw [wsDelivered]
    generalize wsRecv random b reads = out at hanswers
    obtain ⟨r, b', reads'⟩ := out
    rcases hanswers with ⟨line, later, rfl, hr, hawaits⟩ | ⟨st, rfl, hr, hawaits⟩
    · cases hr
      rw [take_succ_cons]
      exact congrArg (line :: ·) (ih hawaits)
    · cases hr
      dsimp only
      rw [ih hawaits, take_nil, take_nil]

end

/-- The frame is a message of its own that is not empty. -/
def WsFrame.IsWhole (f : WsFrame) : Prop := f.opcode ≠ .continuation ∧ f.fin = true ∧ f.payload ≠ []

instance (f : WsFrame) : Decidable f.IsWhole := inferInstanceAs (Decidable (_ ∧ _))

section

variable {f : WsFrame} {fs seen unseen : List WsFrame} {part : Option Bytes} {inside : Bool}

theorem opcode_of_control (h : f.isPart = false) :
    f.opcode = .close ∨ f.opcode = .ping ∨ f.opcode = .pong := by
  have h : (!f.opcode.isControl) = false := h
  revert h
  cases f.opcode <;> decide

theorem opcode_of_start (h : f.isPart = true) (hstart : f.opcode ≠ .continuation) :
    f.opcode = .text ∨ f.opcode = .binary := by
  have h : (!f.opcode.isControl) = true := h
  revert h hstart
  cases f.opcode <;> decide

theorem wsMessages_cons_of_control (h : f.isPart = false) :
    wsMessages part (f :: fs) = wsMessages part fs := by
  rw [wsMessages]
  obtain hop | hop | hop := opcode_of_control h <;> rw [hop]

theorem wsMessages_cons_of_start (h : f.isPart = true) (hstart : f.opcode ≠ .continuation) :
    wsMessages part (f :: fs) =
      if f.fin then f.payload :: wsMessages none fs else wsMessages (some f.payload) fs := by
  rw [wsMessages]
  obtain hop | hop := opcode_of_start h hstart <;> rw [hop]

theorem wsMessages_cons_of_continuation (h : f.opcode = .continuation) (text : Bytes) :
    wsMessages (some text) (f :: fs) =
      if f.fin then (text ++ f.payload) :: wsMessages none fs
      else wsMessages (some (text ++ f.payload)) fs := by
  rw [wsMessages, h]
  rfl

theorem wsValid_cons_of_start (h : f.isPart = true) (hstart : f.opcode ≠ .continuation)
    (hvalid : wsValid inside (f :: fs) = true) : inside = false ∧ wsValid (!f.fin) fs = true := by
  rw [wsValid] at hvalid
  obtain hop | hop := opcode_of_start h hstart <;> simpa [hop] using hvalid

theorem wsValid_cons_of_continuation (h : f.opcode = .continuation)
    (hvalid : wsValid inside (f :: fs) = true) : inside = true ∧ wsValid (!f.fin) fs = true := by
  rwa [wsValid, h, Bool.and_eq_true] at hvalid

theorem wsValid_cons_of_control (h : f.isPart = false) (hvalid : wsValid inside (f :: fs) = true) :
    wsValid inside fs = true := by
  rw [wsValid] at hvalid
  obtain hop | hop | hop := opcode_of_control h <;> rw [hop] at hvalid
  · rw [List.isEmpty_iff.mp hvalid]
    rfl
  · exact hvalid
  · exact hvalid

variable {text : Bytes} {ms : List Bytes}

theorem exists_suffix_of_wsMessages {m : Bytes} (hvalid : wsValid true fs = true)
    (h : wsMessages (some text) fs = m :: ms) : ∃ more, m = text ++ more := by
  induction fs generalizing text with
  | nil => cases h
  | cons f fs ih =>
    cases hpart : f.isPart with
    | false =>
      rw [wsMessages_cons_of_control hpart] at h
      exact ih (wsValid_cons_of_control hpart hvalid) h
    | true =>
      by_cases hcont : f.opcode = .continuation
      · rw [wsMessages_cons_of_continuation hcont] at h
        have hnext := (wsValid_cons_of_continuation hcont hvalid).2
        cases hfin : f.fin with
        | true =>
          rw [hfin, if_pos rfl] at h
          exact ⟨f.payload, (List.cons.inj h).1.symm⟩
        | false =>
          rw [hfin, if_neg Bool.false_ne_true] at h
          rw [hfin] at hnext
          obtain ⟨more, hmore⟩ := ih hnext h
          exact ⟨f.payload ++ more, by rw [hmore, append_assoc]⟩
      · exact absurd (wsValid_cons_of_start hpart hcont hvalid).1 (by decide)

theorem opcode_of_inside (hpart : f.isPart = true) (hvalid : wsValid true (f :: fs) = true) :
    f.opcode = .continuation := by
  by_contra hcont
  exact absurd (wsValid_cons_of_start hpart hcont hvalid).1 (by decide)

theorem payload_nil_of_wsMessages (hpart : f.isPart = true) (hvalid : wsValid true (f :: fs) = true)
    (h : wsMessages (some text) (f :: fs) = text :: ms) : f.payload = [] := by
  have hcont := opcode_of_inside hpart hvalid
  have hnext := (wsValid_cons_of_continuation hcont hvalid).2
  rw [wsMessages_cons_of_continuation hcont] at h
  cases hfin : f.fin with
  | true =>
    rw [hfin, if_pos rfl] at h
    exact self_eq_append_right.mp (List.cons.inj h).1.symm
  | false =>
    rw [hfin] at hnext
    rw [hfin, if_neg Bool.false_ne_true] at h
    obtain ⟨more, hmore⟩ := exists_suffix_of_wsMessages hnext h
    rw [append_assoc] at hmore
    exact (append_eq_nil_iff.mp (self_eq_append_right.mp hmore)).1

/-- The first frame that was not seen is a part of a message and not empty. -/
def BigFirst (unseen : List WsFrame) : Prop := ∀ f ∈ unseen.head?, f.isPart = true ∧ f.payload ≠ []

/-- The line of a first fragment is not the message: if the others are empty, the next line is a
null pointer. -/
theorem lines_ne_of_open (hvalid : wsValid true (seen ++ unseen) = true) (hbig : BigFirst unseen) :
    some text :: wsLines seen ≠ (wsMessages (some text) (seen ++ unseen)).map some := by
  intro h
  obtain ⟨m, ms, hms, htext, hlines⟩ := map_eq_cons_iff.mp h.symm
  cases htext
  induction seen with
  | nil =>
    cases unseen with
    | nil => cases hms
    | cons g rest =>
      obtain ⟨hpart, hne⟩ := hbig g rfl
      exact hne (payload_nil_of_wsMessages hpart hvalid hms)
  | cons g seen ih =>
    rw [cons_append] at hvalid h hms
    cases hpart : g.isPart with
    | false =>
      rw [wsMessages_cons_of_control hpart] at h hms
      rw [wsLines_cons_of_control hpart] at h hlines
      exact ih (wsValid_cons_of_control hpart hvalid) h hlines hms
    | true =>
      have hnil := payload_nil_of_wsMessages hpart hvalid hms
      rw [wsLines_cons_of_isPart hpart, WsFrame.line, if_pos hnil] at hlines
      obtain ⟨_, _, _, hnone, _⟩ := map_eq_cons_iff.mp hlines
      cases hnone

/-- The lines of the frames that were seen are the messages exactly if each of these frames is a
message of its own and the others complete none. -/
theorem wsLines_eq_iff (hvalid : wsValid false (seen ++ unseen) = true) (hbig : BigFirst unseen) :
    wsLines seen = (wsMessages none (seen ++ unseen)).map some ↔
      (∀ f ∈ seen, f.isPart = true → f.IsWhole) ∧ wsMessages none unseen = [] := by
  induction seen with
  | nil =>
    change [] = (wsMessages none unseen).map some ↔ _
    rw [eq_comm, map_eq_nil_iff]
    exact ⟨fun h => ⟨fun f hf => absurd hf not_mem_nil, h⟩, fun h => h.2⟩
  | cons f seen ih =>
    rw [cons_append] at hvalid ⊢
    rw [forall_mem_cons]
    cases hpart : f.isPart with
    | false =>
      rw [wsLines_cons_of_control hpart, wsMessages_cons_of_control hpart,
        ih (wsValid_cons_of_control hpart hvalid)]
      exact ⟨fun h => ⟨⟨fun hp => (by cases hp), h.1⟩, h.2⟩, fun h => ⟨h.1.2, h.2⟩⟩
    | true =>
      have hstart : f.opcode ≠ .continuation := by
        intro hcont
        exact absurd (wsValid_cons_of_continuation hcont hvalid).1 (by decide)
      have hnext := (wsValid_cons_of_start hpart hstart hvalid).2
      rw [wsLines_cons_of_isPart hpart, wsMessages_cons_of_start hpart hstart]
      cases hfin : f.fin with
      | true =>
        rw [hfin] at hnext
        rw [if_pos rfl, map_cons, List.cons.injEq, ih hnext, WsFrame.line]
        constructor
        · rintro ⟨hline, hseen, hrest⟩
          refine ⟨⟨fun _ => ⟨hstart, hfin, ?_⟩, hseen⟩, hrest⟩
          intro hnil
          rw [if_pos hnil] at hline
          cases hline
        · rintro ⟨⟨hwhole, hseen⟩, hrest⟩
          exact ⟨if_neg (hwhole rfl).2.2, hseen, hrest⟩
      | false =>
        rw [hfin] at hnext
        rw [if_neg Bool.false_ne_true]
        constructor
        · intro h
          by_cases hnil : f.payload = []
          · rw [WsFrame.line, if_pos hnil] at h
            obtain ⟨_, _, _, hnone, _⟩ := map_eq_cons_iff.mp h.symm
            cases hnone
          · rw [WsFrame.line, if_neg hnil] at h
            exact absurd h (lines_ne_of_open hnext hbig)
        · rintro ⟨⟨hwhole, -⟩, -⟩
          rw [(hwhole rfl).2.1] at hfin
          cases hfin

end

theorem bigFirst_of_length {m : Bytes × WsFrame} (hm : mcpWsParseFrame m.1 = .item m.2 m.1.length)
    (hlong : 2093056 < m.1.length) (rest : List WsFrame) : BigFirst (m.2 :: rest) := by
  intro f hf
  cases hf
  refine ⟨?_, ?_⟩
  · rw [WsFrame.isPart, Bool.not_eq_true']
    cases hcontrol : m.2.opcode.isControl with
    | false => rfl
    | true =>
      have hle := length_le_of_isControl hm hcontrol
      omega
  · intro hnil
    have hle := length_le_of_mcpWsParseFrame hm
    rw [hnil, length_nil] at hle
    omega

theorem exists_unseen (h : Arriving ms b reads) :
    ∃ unseen, ms.map snd = wsArrived ms reads b.carryCap b.carry.length ++ unseen ∧
      BigFirst unseen := by
  induction ms generalizing b reads with
  | nil => exact ⟨[], rfl, fun f hf => absurd hf (Option.not_mem_none f)⟩
  | cons m ms ih =>
    rw [wsArrived]
    obtain ⟨cap, held, carry, reads', hreach, hlength, -, harrive⟩ |
      ⟨b', reads', hreach, -, -, -, hlt, hfull⟩ := wsNextFrame_cases h
    · obtain ⟨unseen, hsplit, hbig⟩ := ih harrive
      refine ⟨unseen, ?_, hbig⟩
      dsimp only at hsplit
      rw [hreach, map_cons, hsplit, hlength]
      rfl
    · rw [hreach]
      refine ⟨m.2 :: ms.map snd, rfl, ?_⟩
      apply bigFirst_of_length (h.frames m mem_cons_self)
      exact lt_trans (lt_of_wsGrow hfull) hlt

/-- The stream that a peer sends on a new connection: frames that the parser accepts, messages in
fragments that follow each other, and reads that bring all bytes. -/
structure Conversation (ms : List (Bytes × WsFrame)) (reads : List Recv) : Prop where
  frames : ∀ m ∈ ms, mcpWsParseFrame m.1 = .item m.2 m.1.length
  valid : wsValid false (ms.map snd) = true
  bytes : recvBytes reads = (ms.map fst).flatten
  reads : ∀ r ∈ reads, r ≠ .failed ∧ r ≠ .data []

/-- The lines that `ws_recv` returns on a new connection are the messages of the peer exactly if
every part of a message is a message of its own and not empty, and no message is completed after a
read that finds no room. -/
theorem wsDelivered_eq_messages_iff {random : Nat → Option Bytes}
    (hrandom : ∀ k, (random k).isSome = true) (isServer : Bool) {ms : List (Bytes × WsFrame)}
    {reads : List Recv} (h : Conversation ms reads) {calls : Nat} (hcalls : ms.length ≤ calls) :
    wsDelivered random calls (.create isServer) reads =
        (wsMessages none (ms.map snd)).map some ↔
      (∀ f ∈ wsArrived ms reads 0 0, f.isPart = true → f.IsWhole) ∧
        wsMessages none ((ms.map snd).drop (wsArrived ms reads 0 0).length) = [] := by
  have harrive : Arriving ms (.create isServer) reads :=
    ⟨h.frames, h.bytes, h.reads, false, h.valid⟩
  obtain ⟨unseen, hsplit, hbig⟩ := exists_unseen harrive
  change ms.map snd = wsArrived ms reads 0 0 ++ unseen at hsplit
  have hfew : (wsLines (wsArrived ms reads 0 0)).length ≤ calls := by
    have hlength := congrArg List.length hsplit
    have hlines : (wsLines (wsArrived ms reads 0 0)).length ≤ (wsArrived ms reads 0 0).length := by
      rw [wsLines, length_map]
      exact length_filter_le _ _
    rw [length_map, length_append] at hlength
    omega
  have hvalid := h.valid
  rw [hsplit] at hvalid
  rw [wsDelivered_eq_take hrandom calls (.running ms rfl harrive rfl)]
  change (wsLines (wsArrived ms reads 0 0)).take calls = _ ↔ _
  rw [take_of_length_le hfew, hsplit, drop_left]
  exact wsLines_eq_iff hvalid hbig

/-- A message in two fragments is returned as two lines, and an empty one as a null pointer. -/
theorem wsDelivered_fragments :
    (Conversation [([0x01, 0x01, 0x61], ⟨false, .text, false, [0, 0, 0, 0], [0x61]⟩),
        ([0x80, 0x01, 0x62], ⟨true, .continuation, false, [0, 0, 0, 0], [0x62]⟩)]
        [.data [0x01, 0x01, 0x61, 0x80, 0x01, 0x62]] ∧
      wsMessages none [⟨false, .text, false, [0, 0, 0, 0], [0x61]⟩,
        ⟨true, .continuation, false, [0, 0, 0, 0], [0x62]⟩] = [[0x61, 0x62]] ∧
      wsDelivered (fun _ => some [0, 0, 0, 0]) 3 (.create true)
        [.data [0x01, 0x01, 0x61, 0x80, 0x01, 0x62]] = [some [0x61], some [0x62]]) ∧
    Conversation [([0x81, 0x00], ⟨true, .text, false, [0, 0, 0, 0], []⟩)] [.data [0x81, 0x00]] ∧
      wsMessages none [⟨true, .text, false, [0, 0, 0, 0], []⟩] = [[]] ∧
      wsDelivered (fun _ => some [0, 0, 0, 0]) 2 (.create true) [.data [0x81, 0x00]] = [none] := by
  refine ⟨⟨⟨?_, by decide, by decide, by decide⟩, by decide, by decide +kernel⟩,
    ⟨?_, by decide, by decide, by decide⟩, by decide, by decide +kernel⟩
  · intro m hm
    simp only [mem_cons, not_mem_nil, or_false] at hm
    rcases hm with rfl | rfl <;> rfl
  intro m hm
  rw [mem_singleton] at hm
  rw [hm]
  rfl

theorem wsDelivered_wholeFrames :
    wsDelivered (fun _ => some [1, 2, 3, 4]) 3 (.create false)
      [.data [0x81], .interrupted, .data [0x01, 0x61, 0x89, 0x00, 0x82], .data [0x01, 0x62]] =
      [some [0x61], some [0x62]] := by
  have hconv : Conversation [([0x81, 0x01, 0x61], ⟨true, .text, false, [0, 0, 0, 0], [0x61]⟩),
      ([0x89, 0x00], ⟨true, .ping, false, [0, 0, 0, 0], []⟩),
      ([0x82, 0x01, 0x62], ⟨true, .binary, false, [0, 0, 0, 0], [0x62]⟩)]
      [.data [0x81], .interrupted, .data [0x01, 0x61, 0x89, 0x00, 0x82], .data [0x01, 0x62]] := by
    refine ⟨?_, by decide, by decide, by decide⟩
    intro m hm
    simp only [mem_cons, not_mem_nil, or_false] at hm
    rcases hm with rfl | rfl | rfl <;> rfl
  apply (wsDelivered_eq_messages_iff (fun _ => rfl) false hconv (by decide)).mpr
  decide +kernel

end Mcpkit.Transport
