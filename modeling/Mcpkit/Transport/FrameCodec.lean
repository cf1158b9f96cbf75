import Mcpkit.Transport.WebSocket
import Mathlib.Data.List.Induction

/-!
# Encoded frames and the parser

The parser takes the encoding of a frame as that frame, for each of the three encodings of the
length, masked or not, and asks for more on every shorter part.  So a stream of encoded frames gives
those frames however it is cut.  For a frame that is not masked it reports a key of zeros.

The parser takes more than the encoder writes: a length need not stand in the shortest field that
has room for it.
-/

namespace Mcpkit.Transport

open Json List Nat Prod Bool UInt8 Incremental
open Framing (Scan)

theorem bigEndianValue_concat (s : Bytes) (b : UInt8) :
    bigEndianValue (s ++ [b]) = bigEndianValue s * 256 + b.toNat := by
  rw [bigEndianValue, foldl_append]
  rfl

/-- The bytes of a number, the highest first.  The last one is split off, and in front of it stand
the bytes of a number 256 times smaller. -/
theorem bigEndianValue_bytes (k n : Nat) :
    bigEndianValue ((List.range k).map fun i => ofNat (n / 256 ^ (k - 1 - i))) =
      n % 256 ^ k := by
  induction k generalizing n with
  | zero => exact (mod_one n).symm
  | succ k ih =>
    have hfront : ((List.range k).map fun i => UInt8.ofNat (n / 256 ^ (k + 1 - 1 - i))) =
        (List.range k).map fun i => UInt8.ofNat (n / 256 / 256 ^ (k - 1 - i)) := by
      apply map_congr_left
      intro i hi
      have hlt := mem_range.mp hi
      rw [Nat.div_div_eq_div_mul, ← Nat.pow_succ', show k + 1 - 1 - i = (k - 1 - i).succ by omega]
    have hlast : (UInt8.ofNat (n / 256 ^ (k + 1 - 1 - k))).toNat = n % 256 := by
      rw [show k + 1 - 1 - k = 0 by omega, Nat.pow_zero, Nat.div_one]
      exact toNat_ofNat'
    rw [range_succ, map_append, map_singleton, bigEndianValue_concat, hfront, ih,
      hlast, Nat.pow_succ', Nat.mod_mul]
    omega

theorem wsMask_wsMask (key payload : Bytes) : wsMask key (wsMask key payload) = payload := by
  apply ext_getElem
  · rw [length_wsMask, length_wsMask]
  · intro i h₁ h₂
    simp only [wsMask, getElem_map, getElem_zipIdx, zero_add, UInt8.xor_assoc, UInt8.xor_self,
      UInt8.xor_zero]

def wsFirstByte (fin : Bool) (opcode : WsOpcode) : UInt8 :=
  (if fin then 0x80 else 0) ||| (opcode.toByte &&& 0x0F)

theorem wsFirstByte_bits (fin : Bool) (opcode : WsOpcode) :
    wsFirstByte fin opcode &&& 0x70 = 0 ∧
      WsOpcode.ofByte (wsFirstByte fin opcode &&& 0x0F) = some opcode ∧
      decide (wsFirstByte fin opcode &&& 0x80 ≠ 0) = fin := by
  cases fin <;> cases opcode <;> decide

def wsMaskBit (masked : Bool) : UInt8 := if masked then 0x80 else 0

variable {n : Nat} {f : WsFrame} {rest : Bytes} {opcode : WsOpcode} {b0 b1 : UInt8}
  {masked fin : Bool}

theorem wsMaskBit_or (masked : Bool) (h : n < 128) :
    decide ((wsMaskBit masked ||| UInt8.ofNat n) &&& 0x80 ≠ 0) = masked ∧
      ((wsMaskBit masked ||| UInt8.ofNat n) &&& 0x7F).toNat = n := by
  have hall : ∀ n < 128, ∀ masked, decide ((wsMaskBit masked ||| UInt8.ofNat n) &&& 0x80 ≠ 0) =
      masked ∧ ((wsMaskBit masked ||| UInt8.ofNat n) &&& 0x7F).toNat = n := by decide +kernel
  exact hall n h masked

theorem ofNat_and_highBit (h : n < 128) : UInt8.ofNat n &&& 0x80 = 0 := by
  have hall : ∀ n < 128, UInt8.ofNat n &&& 0x80 = 0 := by decide +kernel
  exact hall n h

/-- What the bytes of the length say, whatever stands behind them. -/
structure LenReads (masked : Bool) (n : Nat) (b1 : UInt8) (extra : Bytes) : Prop where
  mask : decide (b1 &&& 0x80 ≠ 0) = masked
  short : n ≤ 125 → (b1 &&& 0x7F).toNat = n
  len : ∀ rest, wsPayloadLen (b1 &&& 0x7F).toNat (extra ++ rest) = .item n extra.length

theorem exists_lenReads (masked : Bool) (h : n < 2 ^ 63) :
    ∃ b1 extra, wsEncodeLen (wsMaskBit masked) n = b1 :: extra ∧ LenReads masked n b1 extra := by
  rw [wsEncodeLen]
  split
  next hshort =>
    obtain ⟨hmask, hlen⟩ := wsMaskBit_or masked (n := n) (by omega)
    refine ⟨_, [], rfl, hmask, fun _ => hlen, ?_⟩
    intro rest
    rw [hlen, wsPayloadLen, if_neg (by omega), if_neg (by omega)]
    rfl
  next hshort =>
    split
    next hmedium =>
      obtain ⟨hmask, hlen⟩ := wsMaskBit_or masked (n := 126) (by decide)
      refine ⟨_, _, rfl, hmask, fun hn => absurd hn hshort, ?_⟩
      intro rest
      have hvalue : bigEndianValue [ofNat (n / 256), ofNat n] = n := by
        have hbytes := bigEndianValue_bytes 2 n
        simp only [List.range, List.range.loop, map_cons, map_nil] at hbytes
        change bigEndianValue [ofNat (n / 256), ofNat (n / 1)] = n % 65536 at hbytes
        rw [Nat.div_one] at hbytes
        omega
      change wsPayloadLen ((wsMaskBit masked ||| UInt8.ofNat 126) &&& 0x7F).toNat _ = _
      rw [hlen, wsPayloadLen, if_pos rfl, if_neg (by simp)]
      exact congrArg (Scan.item · 2) hvalue
    next hmedium =>
      obtain ⟨hmask, hlen⟩ := wsMaskBit_or masked (n := 127) (by decide)
      refine ⟨_, _, rfl, hmask, fun hn => absurd hn hshort, ?_⟩
      intro rest
      have hlength : ((List.range 8).map fun i => UInt8.ofNat (n / 256 ^ (7 - i))).length = 8 := by
        rw [length_map, length_range]
      have hhigh : UInt8.ofNat (n / 256 ^ 7) &&& 0x80 = 0 := ofNat_and_highBit (by omega)
      have hhead : (((List.range 8).map fun i => UInt8.ofNat (n / 256 ^ (7 - i))) ++ rest).headD 0 =
          UInt8.ofNat (n / 256 ^ 7) := rfl
      change wsPayloadLen ((wsMaskBit masked ||| UInt8.ofNat 127) &&& 0x7F).toNat _ = _
      rw [hlen, wsPayloadLen, if_neg (by decide), if_pos rfl,
        if_neg (by rw [length_append, hlength]; omega), hhead, hhigh, if_neg (by decide),
        take_left' hlength, hlength, bigEndianValue_bytes 8 n, mod_eq_of_lt (by omega)]

/-- A frame that can be encoded for a peer.  No object of the program is larger than `2^63 - 1`
bytes. -/
structure WsFrame.Encodable (f : WsFrame) : Prop where
  size : f.payload.length < 2 ^ 63
  key : f.maskKey.length = 4
  control : f.opcode.isControl = true → f.fin = true ∧ f.payload.length ≤ 125

instance (f : WsFrame) : Decidable f.Encodable :=
  decidable_of_iff (f.payload.length < 2 ^ 63 ∧ f.maskKey.length = 4 ∧
      (f.opcode.isControl = true → f.fin = true ∧ f.payload.length ≤ 125))
    ⟨fun h => ⟨h.1, h.2.1, h.2.2⟩, fun h => ⟨h.size, h.key, h.control⟩⟩

def WsFrame.sent (f : WsFrame) : WsFrame :=
  { f with maskKey := if f.masked then f.maskKey else [0, 0, 0, 0] }

def wsEncodeBody (f : WsFrame) : Bytes :=
  if f.masked then f.maskKey ++ wsMask f.maskKey f.payload else f.payload

theorem wsPayload_wsEncodeBody (hkey : f.maskKey.length = 4) (headerLen : Nat) :
    wsPayload f.fin f.opcode f.masked f.payload.length headerLen (wsEncodeBody f) =
      .item f.sent (headerLen + (wsEncodeBody f).length) := by
  obtain ⟨fin, opcode, masked, key, payload⟩ := f
  dsimp only at hkey
  cases masked with
  | true =>
    have hlen : (key ++ wsMask key payload).length = 4 + payload.length := by
      rw [length_append, hkey, length_wsMask]
    simp only [wsPayload, wsEncodeBody, WsFrame.sent, if_true]
    rw [if_neg (by omega), take_left' hkey, drop_left' hkey, hlen,
      take_of_length_le (le_of_eq (length_wsMask key payload)), wsMask_wsMask, add_assoc]
  | false => simp [wsPayload, wsEncodeBody, WsFrame.sent]

theorem mcpWsParseFrame_cons {extra : Bytes} (hb0 : b0 = wsFirstByte fin opcode)
    (hlen : LenReads masked n b1 extra)
    (hcontrol : opcode.isControl = true → fin = true ∧ n ≤ 125) :
    mcpWsParseFrame (b0 :: b1 :: (extra ++ rest)) =
      wsPayload fin opcode masked n (2 + extra.length) rest := by
  obtain ⟨hrsv, hopcode, hfin⟩ := wsFirstByte_bits fin opcode
  rw [← hb0] at hrsv hopcode hfin
  have hwhole : ¬(opcode.isControl && !fin) = true := by
    intro h
    rw [and_eq_true] at h
    rw [(hcontrol h.1).1] at h
    cases h.2
  have hshort : ¬(opcode.isControl && decide (125 < (b1 &&& 0x7F).toNat)) = true := by
    intro h
    rw [and_eq_true, decide_eq_true_eq] at h
    have hn := (hcontrol h.1).2
    rw [hlen.short hn] at h
    omega
  rw [mcpWsParseFrame, if_neg (not_not_intro hrsv), hopcode, hfin, hlen.mask]
  dsimp only
  rw [if_neg hwhole, if_neg hshort, hlen.len]
  dsimp only
  rw [drop_left]

theorem mcpWsParseFrame_mcpWsEncodeFrame (h : f.Encodable) :
    mcpWsParseFrame (mcpWsEncodeFrame f) = .item f.sent (mcpWsEncodeFrame f).length := by
  obtain ⟨b1, extra, hencode, hreads⟩ := exists_lenReads f.masked h.size
  have hbytes : mcpWsEncodeFrame f =
      wsFirstByte f.fin f.opcode :: b1 :: (extra ++ wsEncodeBody f) := by
    change [wsFirstByte f.fin f.opcode] ++ wsEncodeLen (wsMaskBit f.masked) f.payload.length ++
      wsEncodeBody f = _
    rw [hencode]
    rfl
  rw [hbytes, mcpWsParseFrame_cons rfl hreads h.control, wsPayload_wsEncodeBody h.key]
  congr 1
  simp only [length_cons, length_append]
  omega

def keepFrame (fs : List (WsFrame × Nat)) (f : WsFrame × Nat) : List (WsFrame × Nat) × Bool :=
  (fs ++ [f], true)

/-- Parse the bytes accumulated so far after each read. -/
def parseReads (reads : List Bytes) : Incremental.Outcome (List (WsFrame × Nat)) UInt8 :=
  reads.foldl (feed (sized mcpWsParseFrame) keepFrame) (.running [] [])

theorem steps_keepFrame (seen fs : List (WsFrame × Nat)) :
    steps keepFrame seen fs = (seen ++ fs, true) := by
  induction fs generalizing seen with
  | nil => rw [steps, append_nil]
  | cons f fs ih =>
    rw [steps, keepFrame]
    dsimp only
    rw [ih, append_assoc]
    rfl

theorem mcpWsParseFrame_part (h : f.Encodable) {part : Bytes} (hrest : rest ≠ [])
    (hsplit : part ++ rest = mcpWsEncodeFrame f) : mcpWsParseFrame part = .more := by
  have hwhole : mcpWsParseFrame (part ++ rest) = .item f.sent (mcpWsEncodeFrame f).length := by
    rw [hsplit]
    exact mcpWsParseFrame_mcpWsEncodeFrame h
  apply stable_mcpWsParseFrame.more_of_part hwhole
  have hpos := length_pos_of_ne_nil hrest
  rw [← hsplit, length_append]
  omega

/-- Any bytes, malformed ones too, give the same frames and the same refusal, however they are cut
into reads. -/
theorem parseReads_flatten (reads : List Bytes) :
    parseReads reads = parseReads [reads.flatten] := by
  have hall (reads : List Bytes) : parseReads reads = consumeAll
      (sized mcpWsParseFrame) keepFrame [] reads.flatten :=
    foldl_feed stable_mcpWsParseFrame.sized [] [] reads
  rw [hall, hall, flatten_singleton]

/-- However a stream of encoded frames is cut, the frames come out in order, each with the key that
was sent, and take the bytes of their encodings; on a strict part of one the parser takes nothing.
-/
theorem parseReads_mcpWsEncodeFrame (fs : List WsFrame) (hfs : ∀ f ∈ fs, f.Encodable) :
    (∀ reads : List Bytes, reads.flatten = (fs.map mcpWsEncodeFrame).flatten →
      parseReads reads = .running (fs.map fun f => (f.sent, (mcpWsEncodeFrame f).length)) []) ∧
    ∀ f ∈ fs, ∀ part rest, rest ≠ [] → part ++ rest = mcpWsEncodeFrame f →
      mcpWsParseFrame part = .more := by
  refine ⟨?_, fun f hf part rest hrest hsplit => mcpWsParseFrame_part (hfs f hf) hrest hsplit⟩
  intro reads hreads
  have hstable := stable_mcpWsParseFrame.sized
  let ms := fs.map fun f => (mcpWsEncodeFrame f, (f.sent, (mcpWsEncodeFrame f).length))
  have hms : ∀ m ∈ ms, sized mcpWsParseFrame m.1 = .item m.2 m.1.length := by
    intro m hm
    obtain ⟨f, hf, rfl⟩ := mem_map.mp hm
    exact sized_of_item (mcpWsParseFrame_mcpWsEncodeFrame (hfs f hf))
  have hbytes : ms.map fst = fs.map mcpWsEncodeFrame := map_map
  have hframes : ms.map snd = fs.map fun f => (f.sent, (mcpWsEncodeFrame f).length) := map_map
  calc parseReads reads
      = consumeAll (sized mcpWsParseFrame) keepFrame [] reads.flatten :=
        foldl_feed hstable [] [] reads
    _ = settled (steps keepFrame [] (ms.map snd)) := by
        rw [hreads, ← hbytes]
        exact consumeAll_stream hstable rfl [] ms hms
    _ = .running (fs.map fun f => (f.sent, (mcpWsEncodeFrame f).length)) [] := by
        rw [steps_keepFrame, hframes]
        rfl

/-- The key of a frame that is not masked is lost. -/
theorem mcpWsParseFrame_unmaskedKey :
    ∃ f g : WsFrame, f.Encodable ∧
      mcpWsParseFrame (mcpWsEncodeFrame f) = .item g (mcpWsEncodeFrame f).length ∧
      g.maskKey ≠ f.maskKey :=
  ⟨⟨true, .text, false, [1, 2, 3, 4], [0x61]⟩, ⟨true, .text, false, [0, 0, 0, 0], [0x61]⟩,
    by decide, rfl, by decide⟩

theorem parseReads_twoFrames :
    parseReads [[0x81], [0x81, 1, 2, 3, 4, 0x60, 0x88], [0x00]] =
      .running [(⟨true, .text, true, [1, 2, 3, 4], [0x61]⟩, 7),
        (⟨true, .close, false, [0, 0, 0, 0], []⟩, 2)] [] := by
  exact (parseReads_mcpWsEncodeFrame
    [⟨true, .text, true, [1, 2, 3, 4], [0x61]⟩, ⟨true, .close, false, [9, 9, 9, 9], []⟩]
    (by decide)).1 _ (by decide)

/-- The length field of a frame is as short as its length allows. -/
def MinimalLen : Bytes → Prop
  | _ :: b1 :: rest =>
    ((b1 &&& 0x7F).toNat = 126 → 125 < bigEndianValue (rest.take 2)) ∧
      ((b1 &&& 0x7F).toNat = 127 → 0xFFFF < bigEndianValue (rest.take 8))
  | _ => True

instance : DecidablePred MinimalLen
  | [] | [_] => .isTrue trivial
  | _ :: _ :: _ => inferInstanceAs (Decidable (_ ∧ _))

theorem wsFirstByte_of_bits (hrsv : b0 &&& 0x70 = 0)
    (hopcode : WsOpcode.ofByte (b0 &&& 0x0F) = some opcode) :
    wsFirstByte (b0 &&& 0x80 ≠ 0) opcode = b0 := by
  have hall : ∀ b0 : UInt8, b0 &&& 0x70 = 0 → ∀ opcode,
      WsOpcode.ofByte (b0 &&& 0x0F) = some opcode → wsFirstByte (b0 &&& 0x80 ≠ 0) opcode = b0 :=
    Utf8.forall_byte (by decide +kernel)
  exact hall b0 hrsv opcode hopcode

theorem wsMaskBit_or_len : ∀ b1 : UInt8,
    wsMaskBit (b1 &&& 0x80 ≠ 0) ||| UInt8.ofNat (b1 &&& 0x7F).toNat = b1 :=
  Utf8.forall_byte (by decide +kernel)

theorem bytes_bigEndianValue (s : Bytes) :
    ((List.range s.length).map fun i =>
      UInt8.ofNat (bigEndianValue s / 256 ^ (s.length - 1 - i))) = s := by
  induction s using List.reverseRecOn with
  | nil => rfl
  | append_singleton s b ih =>
    have hlt := b.toNat_lt
    rw [length_append, length_singleton, range_succ, map_append,
      map_singleton, bigEndianValue_concat, Nat.add_sub_cancel, Nat.sub_self]
    congr 1
    · refine (map_congr_left ?_).trans ih
      intro i hi
      have hi := mem_range.mp hi
      rw [show s.length - i = s.length - 1 - i + 1 by omega, pow_succ',
        ← Nat.div_div_eq_div_mul,
        show (bigEndianValue s * 256 + b.toNat) / 256 = bigEndianValue s by omega]
    · rw [Nat.pow_zero, Nat.div_one, UInt8.ofNat_add, UInt8.ofNat_mul, UInt8.ofNat_toNat]
      simp

theorem bigEndianValue_lt (s : Bytes) : bigEndianValue s < 256 ^ s.length := by
  have hvalue := bigEndianValue_bytes s.length (bigEndianValue s)
  rw [bytes_bigEndianValue] at hvalue
  rw [hvalue]
  exact Nat.mod_lt _ (Nat.pow_pos (by decide))

theorem wsEncodeLen_iff {extra : Nat} (h : wsPayloadLen (b1 &&& 0x7F).toNat rest = .item n extra) :
    wsEncodeLen (wsMaskBit (b1 &&& 0x80 ≠ 0)) n = b1 :: rest.take extra ↔
      MinimalLen (b0 :: b1 :: rest) := by
  have hb1 := wsMaskBit_or_len b1
  have hfield : ∀ k, k ≤ rest.length → bigEndianValue (rest.take k) < 256 ^ k ∧
      ((List.range k).map fun i =>
        UInt8.ofNat (bigEndianValue (rest.take k) / 256 ^ (k - 1 - i))) = rest.take k := by
    intro k hk
    have hlt := bigEndianValue_lt (rest.take k)
    have hbytes := bytes_bigEndianValue (rest.take k)
    rw [length_take_of_le hk] at hlt hbytes
    exact ⟨hlt, hbytes⟩
  rw [wsPayloadLen] at h
  rw [MinimalLen, wsEncodeLen]
  split at h
  next h126 =>
    split at h <;> cases h
    obtain ⟨hlt, hbytes⟩ := hfield 2 (by omega)
    rw [h126] at hb1
    simp only [h126, true_implies, if_pos (show bigEndianValue (rest.take 2) ≤ 0xFFFF by omega)]
    split
    next hshort =>
      refine ⟨fun heq => ?_, fun hmin => absurd hmin.1 (not_lt.mpr hshort)⟩
      have hlen := congrArg List.length heq
      rw [length_cons, length_cons, length_take_of_le (by omega)] at hlen
      cases hlen
    next hshort =>
      refine ⟨fun _ => ⟨not_le.mp hshort, fun h => absurd h (by decide)⟩, fun _ => ?_⟩
      refine congrArg₂ List.cons hb1 (Eq.trans ?_ hbytes)
      simp [range_succ]
  next h126 =>
    split at h
    next h127 =>
      split at h
      · cases h
      split at h <;> cases h
      obtain ⟨hlt, hbytes⟩ := hfield 8 (by omega)
      rw [h127] at hb1
      simp only [h127, true_implies]
      have hlen : (b1 :: rest.take 8).length = 9 := by
        rw [length_cons, length_take_of_le (by omega)]
      split
      next hshort =>
        refine ⟨fun heq => ?_, fun hmin => absurd hmin.2 (by omega)⟩
        cases (congrArg List.length heq).trans hlen
      split
      next hmedium =>
        refine ⟨fun heq => ?_, fun hmin => absurd hmin.2 (by omega)⟩
        cases (congrArg List.length heq).trans hlen
      next hmedium =>
        refine ⟨fun _ => ⟨fun h => absurd h (by decide), by omega⟩, fun _ => ?_⟩
        exact congrArg₂ List.cons hb1 hbytes
    next h127 =>
      cases h
      have hseven : (b1 &&& 0x7F).toNat < 128 := by
        rw [UInt8.toNat_and]
        exact and_lt_two_pow (n := 7) _ (by decide)
      rw [if_pos (by omega), hb1]
      exact ⟨fun _ => ⟨fun h => absurd h h126, fun h => absurd h h127⟩, fun _ => rfl⟩

theorem wsEncodeBody_of_wsPayload {payloadLen headerLen : Nat}
    (h : wsPayload fin opcode masked payloadLen headerLen rest = .item f n) :
    f.fin = fin ∧ f.masked = masked ∧ headerLen ≤ n ∧
      wsEncodeBody f = rest.take (n - headerLen) := by
  rw [wsPayload] at h
  split at h
  next hmask =>
    split at h <;> cases h
    refine ⟨rfl, hmask.symm, by omega, ?_⟩
    rw [wsEncodeBody, if_pos rfl, wsMask_wsMask, ← take_add]
    congr 1
    omega
  next hmask =>
    split at h <;> cases h
    refine ⟨rfl, (eq_false_of_not_eq_true hmask).symm, by omega, ?_⟩
    rw [wsEncodeBody, if_neg Bool.false_ne_true, Nat.add_sub_cancel_left]

/-- A frame that was taken is encoded as the bytes that it was taken from exactly if its length
stood in a minimal field. -/
theorem mcpWsEncodeFrame_eq_take_iff {buf : Bytes} (h : mcpWsParseFrame buf = .item f n) :
    mcpWsEncodeFrame f = buf.take n ↔ MinimalLen buf := by
  obtain ⟨b0, b1, rest, payloadLen, extra, rfl, ⟨hrsv, hopcode⟩, hlen, hframe, -⟩ :=
    exists_of_mcpWsParseFrame h
  obtain ⟨-, hpayload, -⟩ := wsPayload_item hframe
  obtain ⟨hfin, hmasked, hle, hbody⟩ := wsEncodeBody_of_wsPayload hframe
  have hencode : mcpWsEncodeFrame f =
      b0 :: (wsEncodeLen (wsMaskBit (b1 &&& 0x80 ≠ 0)) payloadLen ++ wsEncodeBody f) := by
    change wsFirstByte f.fin f.opcode ::
      (wsEncodeLen (wsMaskBit f.masked) f.payload.length ++ wsEncodeBody f) = _
    rw [hfin, hmasked, hpayload, wsFirstByte_of_bits hrsv hopcode]
  have htake : (b0 :: b1 :: rest).take n = b0 :: (b1 :: rest.take extra ++ wsEncodeBody f) := by
    obtain ⟨k, rfl⟩ := Nat.exists_eq_add_of_le hle
    rw [hbody, Nat.add_sub_cancel_left, cons_append, ← take_add,
      show 2 + extra + k = extra + k + 2 by omega]
    rfl
  rw [hencode, htake, cons_inj_right, append_cancel_right_eq, wsEncodeLen_iff hlen]

/-- One byte of text, its length in two bytes. -/
theorem mcpWsEncodeFrame_longLen :
    ∃ f, mcpWsParseFrame [0x81, 126, 0, 1, 0x61] = .item f 5 ∧
      mcpWsEncodeFrame f ≠ [0x81, 126, 0, 1, 0x61] :=
  ⟨⟨true, .text, false, [0, 0, 0, 0], [0x61]⟩, by decide, by decide⟩

theorem mcpWsEncodeFrame_eq_take_masked :
    mcpWsEncodeFrame ⟨true, .text, true, [1, 2, 3, 4], [0x61]⟩ =
      [0x81, 0x81, 1, 2, 3, 4, 0x60, 0x88].take 7 :=
  (mcpWsEncodeFrame_eq_take_iff rfl).mpr (by decide)

end Mcpkit.Transport
