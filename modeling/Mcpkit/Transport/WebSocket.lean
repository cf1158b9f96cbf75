import Mcpkit.Json.Value
import Mcpkit.Lib.Incremental

/-!
# WebSocket frames

The frame codec of `ws.c`.  The parser looks at the front of a buffer: it asks
for more, refuses the frame, or takes it with its payload unmasked.

What it takes depends on the frame alone and not on the bytes behind it, and of
a frame that it takes it never refuses a part.
-/

namespace Mcpkit.Transport

open Json List UInt8
open Framing (Scan)

inductive WsOpcode where
  | continuation | text | binary | close | ping | pong
  deriving DecidableEq, Repr

namespace WsOpcode

def toByte : WsOpcode → UInt8
  | continuation => 0x0
  | text => 0x1
  | binary => 0x2
  | close => 0x8
  | ping => 0x9
  | pong => 0xA

def ofByte (raw : UInt8) : Option WsOpcode :=
  [continuation, text, binary, close, ping, pong].find? (·.toByte = raw)

def isControl (op : WsOpcode) : Bool := op.toByte &&& 0x08 ≠ 0

end WsOpcode

/-- `mcp_ws_frame_t`.  The source keeps a null pointer for an empty payload. -/
structure WsFrame where
  fin : Bool
  opcode : WsOpcode
  masked : Bool
  maskKey : Bytes
  payload : Bytes
  deriving DecidableEq, Repr

/-- The loops over the payload and the four bytes of a mask. -/
def wsMask (key payload : Bytes) : Bytes := payload.zipIdx.map fun p => p.1 ^^^ key.getD (p.2 % 4) 0

def bigEndianValue (s : Bytes) : Nat := s.foldl (fun n b => n * 256 + b.toNat) 0

/-- The length of the payload, from the seven bits of the second byte and the bytes behind it; its
size is the number of those bytes that it takes. -/
def wsPayloadLen (len7 : Nat) (rest : Bytes) : Scan Nat :=
  if len7 = 126 then
    if rest.length < 2 then .more else .item (bigEndianValue (rest.take 2)) 2
  else if len7 = 127 then
    if rest.length < 8 then .more
    else if rest.headD 0 &&& 0x80 ≠ 0 then .bad
    else .item (bigEndianValue (rest.take 8)) 8
  else .item len7 0

/-- The mask and the payload of a frame whose length is known. -/
def wsPayload (fin : Bool) (opcode : WsOpcode) (masked : Bool) (payloadLen headerLen : Nat)
    (rest : Bytes) : Scan WsFrame :=
  if masked then
    if rest.length < 4 + payloadLen then .more
    else
      .item ⟨fin, opcode, true, rest.take 4, wsMask (rest.take 4) ((rest.drop 4).take payloadLen)⟩
        (headerLen + 4 + payloadLen)
  else if rest.length < payloadLen then .more
  else .item ⟨fin, opcode, false, [0, 0, 0, 0], rest.take payloadLen⟩ (headerLen + payloadLen)

/-- `mcp_ws_parse_frame`: the frame at the front of the buffer and the bytes that it takes. -/
def mcpWsParseFrame : Bytes → Scan WsFrame
  | b0 :: b1 :: rest =>
    let fin : Bool := b0 &&& 0x80 ≠ 0
    let len7 := (b1 &&& 0x7F).toNat
    if b0 &&& 0x70 ≠ 0 then .bad
    else
      match WsOpcode.ofByte (b0 &&& 0x0F) with
      | none => .bad
      | some opcode =>
        if opcode.isControl && !fin then .bad
        else if opcode.isControl && 125 < len7 then .bad
        else
          match wsPayloadLen len7 rest with
          | .more => .more
          | .bad => .bad
          | .item payloadLen extra =>
            wsPayload fin opcode (b1 &&& 0x80 ≠ 0) payloadLen (2 + extra) (rest.drop extra)
  | _ => .more

/-- The bytes of the length, with the bit of the mask in the first of them. -/
def wsEncodeLen (maskBit : UInt8) (payloadLen : Nat) : Bytes :=
  if payloadLen ≤ 125 then [maskBit ||| ofNat payloadLen]
  else if payloadLen ≤ 0xFFFF then
    [maskBit ||| 126, ofNat (payloadLen / 256), ofNat payloadLen]
  else
    (maskBit ||| 127) :: (List.range 8).map fun i => ofNat (payloadLen / 256 ^ (7 - i))

def mcpWsEncodeFrame (frame : WsFrame) : Bytes :=
  [(if frame.fin then 0x80 else 0) ||| (frame.opcode.toByte &&& 0x0F)] ++
    wsEncodeLen (if frame.masked then 0x80 else 0) frame.payload.length ++
    if frame.masked then frame.maskKey ++ wsMask frame.maskKey frame.payload else frame.payload

variable {rest buf : Bytes} {n len7 payloadLen extra headerLen : Nat} {f : WsFrame}
  {opcode : WsOpcode} {masked fin : Bool}

theorem wsPayloadLen_item (h : wsPayloadLen len7 rest = .item n extra) :
    extra ≤ rest.length ∧ extra ≤ 8 ∧ (len7 ≤ 125 → n = len7 ∧ extra = 0) := by
  rw [wsPayloadLen] at h
  split at h
  · split at h <;> cases h
    omega
  split at h
  · split at h
    · cases h
    · split at h <;> cases h
      omega
  · cases h
    omega

theorem wsPayloadLen_append (h : wsPayloadLen len7 rest ≠ .more) (more : Bytes) :
    wsPayloadLen len7 (rest ++ more) = wsPayloadLen len7 rest := by
  have hlength : (rest ++ more).length = rest.length + more.length := length_append
  unfold wsPayloadLen at h ⊢
  split
  next h126 =>
    have hlen : ¬rest.length < 2 := fun hlen => h (by rw [if_pos h126, if_pos hlen])
    rw [if_neg hlen, if_neg (by omega), take_append_of_le_length (by omega)]
  next h126 =>
    split
    next h127 =>
      have hlen : ¬rest.length < 8 := fun hlen => h (by rw [if_neg h126, if_pos h127, if_pos hlen])
      have hhead : (rest ++ more).headD 0 = rest.headD 0 := by
        cases rest with
        | nil => exact absurd (show List.length [] < 8 by decide) hlen
        | cons b rest => rfl
      rw [if_neg hlen, if_neg (by omega), hhead, take_append_of_le_length (by omega)]
    · rfl

theorem length_wsMask (key payload : Bytes) : (wsMask key payload).length = payload.length := by
  rw [wsMask, length_map, length_zipIdx]

theorem wsPayload_item (h : wsPayload fin opcode masked payloadLen headerLen rest = .item f n) :
    f.opcode = opcode ∧ f.payload.length = payloadLen ∧ headerLen + payloadLen ≤ n ∧
      n ≤ headerLen + 4 + payloadLen ∧ n ≤ headerLen + rest.length := by
  rw [wsPayload] at h
  split at h
  · split at h <;> cases h
    dsimp only
    rw [length_wsMask, length_take, length_drop]
    exact ⟨rfl, by omega⟩
  split at h <;> cases h
  dsimp only
  rw [length_take]
  exact ⟨rfl, by omega⟩

theorem wsPayload_append (h : wsPayload fin opcode masked payloadLen headerLen rest ≠ .more)
    (more : Bytes) :
    wsPayload fin opcode masked payloadLen headerLen (rest ++ more) =
      wsPayload fin opcode masked payloadLen headerLen rest := by
  have hlength : (rest ++ more).length = rest.length + more.length := length_append
  unfold wsPayload at h ⊢
  split
  next hmask =>
    have hlen : ¬rest.length < 4 + payloadLen := fun hlen => h (by rw [if_pos hmask, if_pos hlen])
    rw [if_neg hlen, if_neg (by omega), take_append_of_le_length (by omega),
      drop_append_of_le_length (by omega), take_append_of_le_length (by rw [length_drop]; omega)]
  next hmask =>
    have hlen : ¬rest.length < payloadLen := fun hlen => h (by rw [if_neg hmask, if_pos hlen])
    rw [if_neg hlen, if_neg (by omega), take_append_of_le_length (by omega)]

theorem mcpWsParseFrame_append {b0 b1 : UInt8} (h : mcpWsParseFrame (b0 :: b1 :: rest) ≠ .more)
    (more : Bytes) :
    mcpWsParseFrame (b0 :: b1 :: (rest ++ more)) = mcpWsParseFrame (b0 :: b1 :: rest) := by
  unfold mcpWsParseFrame at h ⊢
  dsimp only at h ⊢
  split
  · rfl
  next hrsv =>
    rw [if_neg hrsv] at h
    cases hopcode : WsOpcode.ofByte (b0 &&& 0x0F) with
    | none => rfl
    | some opcode =>
      simp only [hopcode] at h ⊢
      split
      · rfl
      next hfin =>
        rw [if_neg hfin] at h
        split
        · rfl
        next hlong =>
          rw [if_neg hlong] at h
          have hlen : wsPayloadLen (b1 &&& 0x7F).toNat rest ≠ .more := fun hmore =>
            h (by rw [hmore])
          rw [wsPayloadLen_append hlen]
          cases hitem : wsPayloadLen (b1 &&& 0x7F).toNat rest with
          | more | bad => rfl
          | item payloadLen extra =>
            rw [hitem] at h
            dsimp only at h ⊢
            rw [drop_append_of_le_length (wsPayloadLen_item hitem).1]
            exact wsPayload_append h more

theorem exists_of_mcpWsParseFrame (h : mcpWsParseFrame buf = .item f n) :
    ∃ b0 b1 rest payloadLen extra, buf = b0 :: b1 :: rest ∧
      (b0 &&& 0x70 = 0 ∧ WsOpcode.ofByte (b0 &&& 0x0F) = some f.opcode) ∧
      wsPayloadLen (b1 &&& 0x7F).toNat rest = .item payloadLen extra ∧
      wsPayload (b0 &&& 0x80 ≠ 0) f.opcode (b1 &&& 0x80 ≠ 0) payloadLen (2 + extra)
        (rest.drop extra) = .item f n ∧
      (f.opcode.isControl = true → (b1 &&& 0x7F).toNat ≤ 125) := by
  unfold mcpWsParseFrame at h
  split at h
  next b0 b1 rest =>
    dsimp only at h
    split at h
    · cases h
    next hrsv =>
      split at h
      · cases h
      next opcode hopcode =>
        split at h
        · cases h
        split at h
        · cases h
        next hshort =>
          split at h
          · cases h
          · cases h
          next payloadLen extra hlen =>
            obtain ⟨rfl, -⟩ := wsPayload_item h
            refine ⟨b0, b1, rest, payloadLen, extra, rfl, ⟨not_not.mp hrsv, hopcode⟩, hlen, h, ?_⟩
            intro hcontrol
            rw [hcontrol, Bool.true_and, decide_eq_true_eq] at hshort
            exact Nat.not_lt.mp hshort
  · cases h

theorem length_le_of_mcpWsParseFrame (h : mcpWsParseFrame buf = .item f n) :
    n ≤ f.payload.length + 14 := by
  obtain ⟨b0, b1, rest, payloadLen, extra, -, -, hlen, hframe, -⟩ := exists_of_mcpWsParseFrame h
  have hextra := wsPayloadLen_item hlen
  have hsize := wsPayload_item hframe
  omega

theorem length_le_of_isControl (h : mcpWsParseFrame buf = .item f n)
    (hcontrol : f.opcode.isControl = true) : n ≤ 131 := by
  obtain ⟨b0, b1, rest, payloadLen, extra, -, -, hlen, hframe, hshort⟩ :=
    exists_of_mcpWsParseFrame h
  have hle := hshort hcontrol
  obtain ⟨rfl, rfl⟩ := (wsPayloadLen_item hlen).2.2 hle
  have hsize := wsPayload_item hframe
  omega

theorem stable_mcpWsParseFrame : Incremental.Stable mcpWsParseFrame where
  size_pos := by
    intro buf f n h
    obtain ⟨b0, b1, rest, payloadLen, extra, -, -, -, hframe, -⟩ := exists_of_mcpWsParseFrame h
    have hsize := wsPayload_item hframe
    omega
  size_le := by
    intro buf f n h
    obtain ⟨b0, b1, rest, payloadLen, extra, rfl, -, hlen, hframe, -⟩ := exists_of_mcpWsParseFrame h
    have hextra := (wsPayloadLen_item hlen).1
    have hsize := (wsPayload_item hframe).2.2.2.2
    rw [length_drop] at hsize
    simp only [length_cons]
    omega
  item_append := by
    intro buf f n more h
    match buf, h with
    | b0 :: b1 :: rest, h => exact (mcpWsParseFrame_append (by simp [h]) more).trans h
  bad_append := by
    intro buf more h
    match buf, h with
    | b0 :: b1 :: rest, h => exact (mcpWsParseFrame_append (by simp [h]) more).trans h

end Mcpkit.Transport
