import Mcpkit.Lib.Base64
import Mcpkit.Protocol.Sha256

/-!
# The accept key of the WebSocket handshake

SHA-1 as `sha1.c` computes it, and the key that a server answers an upgrade
request with: the base64 text of the hash of the client's key and a fixed one.
-/

namespace Mcpkit.Core

open Json Protocol List

def sha1Rol (x n : UInt32) : UInt32 := (x <<< n) ||| (x >>> (32 - n))

/-- The array `state`, and the working variables of the rounds. -/
structure Sha1State where
  a : UInt32
  b : UInt32
  c : UInt32
  d : UInt32
  e : UInt32

def sha1Extend (w : List UInt32) : List UInt32 :=
  let word (back : Nat) := w.getD (w.length - back) 0
  w ++ [sha1Rol (word 3 ^^^ word 8 ^^^ word 14 ^^^ word 16) 1]

/-- The function and the constant of a round. -/
def sha1Mix (s : Sha1State) (i : Nat) : UInt32 × UInt32 :=
  if i < 20 then ((s.b &&& s.c) ||| (~~~s.b &&& s.d), 0x5A827999)
  else if i < 40 then (s.b ^^^ s.c ^^^ s.d, 0x6ED9EBA1)
  else if i < 60 then ((s.b &&& s.c) ||| (s.b &&& s.d) ||| (s.c &&& s.d), 0x8F1BBCDC)
  else (s.b ^^^ s.c ^^^ s.d, 0xCA62C1D6)

/-- One of the 80 rounds, with its word of the schedule and its number. -/
def sha1Round (s : Sha1State) (wi : UInt32 × Nat) : Sha1State :=
  let (f, k) := sha1Mix s wi.2
  { a := sha1Rol s.a 5 + f + s.e + k + wi.1, b := s.a, c := sha1Rol s.b 30, d := s.c, e := s.d }

def sha1Transform (s : Sha1State) (block : Bytes) : Sha1State :=
  let t := (sha1Extend^[64] (blockWords block)).zipIdx.foldl sha1Round s
  { a := s.a + t.a, b := s.b + t.b, c := s.c + t.c, d := s.d + t.d, e := s.e + t.e }

/-- The loop of `mcp_sha1` over the full blocks, and the bytes that are left. -/
def sha1Blocks : Nat → Sha1State → Bytes → Sha1State × Bytes
  | 0, s, data => (s, data)
  | fuel + 1, s, data =>
    if 64 ≤ data.length then sha1Blocks fuel (sha1Transform s (data.take 64)) (data.drop 64)
    else (s, data)

def mcpSha1 (data : Bytes) : Bytes :=
  let (s, rest) := sha1Blocks data.length ⟨0x67452301, 0xEFCDAB89, 0x98BADCFE, 0x10325476,
    0xC3D2E1F0⟩ data
  let buffer := rest ++ [0x80]
  let (s, buffer) :=
    if 56 ≤ rest.length then
      (sha1Transform s (buffer ++ replicate (64 - buffer.length) 0), replicate 56 0)
    else (s, buffer ++ replicate (56 - buffer.length) 0)
  let s := sha1Transform s (buffer ++ bigEndian64 (UInt64.ofNat data.length * 8))
  [s.a, s.b, s.c, s.d, s.e].flatMap bigEndian32

def kBase64Chars : Bytes :=
  (JString.lit "ABCDEFGHIJKLMNOPQRSTUVWXYZabcdefghijklmnopqrstuvwxyz0123456789+/").bytes

def base64Encode20 (digest : Bytes) : Bytes :=
  (Base64.sextets digest).map (kBase64Chars.getD · 0) ++ [0x3D]

def wsGuid : Bytes := (JString.lit "258EAFA5-E914-47DA-95CA-C5AB0DC85B11").bytes

/-- `mcp_ws_compute_accept_key`, absent for a key that is too long. -/
def mcpWsComputeAcceptKey (clientKey : Bytes) : Option Bytes :=
  if 256 < clientKey.length then none else some (base64Encode20 (mcpSha1 (clientKey ++ wsGuid)))

end Mcpkit.Core
