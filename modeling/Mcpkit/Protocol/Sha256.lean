import Mcpkit.Json.Value

/-!
# The hash of the state tokens

SHA-256 and HMAC as `mrtr_state.c` computes them.  The context of a running
hash keeps the bytes that wait for a full block; in the source they are the
first `count % 64` bytes of an array of 64, and the rest of that array is
overwritten before it is read.
-/

namespace Mcpkit.Protocol

open Json List

def rotr32 (x n : UInt32) : UInt32 := (x >>> n) ||| (x <<< (32 - n))

def sha256Ch (x y z : UInt32) : UInt32 := (x &&& y) ^^^ (~~~x &&& z)

def sha256Maj (x y z : UInt32) : UInt32 := (x &&& y) ^^^ (x &&& z) ^^^ (y &&& z)

def sha256Ep0 (x : UInt32) : UInt32 := rotr32 x 2 ^^^ rotr32 x 13 ^^^ rotr32 x 22

def sha256Ep1 (x : UInt32) : UInt32 := rotr32 x 6 ^^^ rotr32 x 11 ^^^ rotr32 x 25

def sha256Sig0 (x : UInt32) : UInt32 := rotr32 x 7 ^^^ rotr32 x 18 ^^^ (x >>> 3)

def sha256Sig1 (x : UInt32) : UInt32 := rotr32 x 17 ^^^ rotr32 x 19 ^^^ (x >>> 10)

def k256 : List UInt32 :=
  [0x428a2f98, 0x71374491, 0xb5c0fbcf, 0xe9b5dba5, 0x3956c25b, 0x59f111f1, 0x923f82a4, 0xab1c5ed5,
    0xd807aa98, 0x12835b01, 0x243185be, 0x550c7dc3, 0x72be5d74, 0x80deb1fe, 0x9bdc06a7, 0xc19bf174,
    0xe49b69c1, 0xefbe4786, 0x0fc19dc6, 0x240ca1cc, 0x2de92c6f, 0x4a7484aa, 0x5cb0a9dc, 0x76f988da,
    0x983e5152, 0xa831c66d, 0xb00327c8, 0xbf597fc7, 0xc6e00bf3, 0xd5a79147, 0x06ca6351, 0x14292967,
    0x27b70a85, 0x2e1b2138, 0x4d2c6dfc, 0x53380d13, 0x650a7354, 0x766a0abb, 0x81c2c92e, 0x92722c85,
    0xa2bfe8a1, 0xa81a664b, 0xc24b8b70, 0xc76c51a3, 0xd192e819, 0xd6990624, 0xf40e3585, 0x106aa070,
    0x19a4c116, 0x1e376c08, 0x2748774c, 0x34b0bcb5, 0x391c0cb3, 0x4ed8aa4a, 0x5b9cca4f, 0x682e6ff3,
    0x748f82ee, 0x78a5636f, 0x84c87814, 0x8cc70208, 0x90befffa, 0xa4506ceb, 0xbef9a3f7, 0xc67178f2]

/-- The array `state` of `mcp_sha256_t`, and the working variables of the rounds. -/
structure Sha256State where
  a : UInt32
  b : UInt32
  c : UInt32
  d : UInt32
  e : UInt32
  f : UInt32
  g : UInt32
  h : UInt32
  deriving DecidableEq

structure Sha256 where
  state : Sha256State
  count : UInt64
  buffer : Bytes

def sha256Init : Sha256 where
  state := ⟨0x6a09e667, 0xbb67ae85, 0x3c6ef372, 0xa54ff53a, 0x510e527f, 0x9b05688c, 0x1f83d9ab,
    0x5be0cd19⟩
  count := 0
  buffer := []

/-- The words of a block, big endian: `m[0]` to `m[15]`. -/
def blockWords : Bytes → List UInt32
  | p :: q :: r :: s :: rest =>
    ((p.toUInt32 <<< 24) ||| (q.toUInt32 <<< 16) ||| (r.toUInt32 <<< 8) ||| s.toUInt32) ::
      blockWords rest
  | _ => []

def extendSchedule (m : List UInt32) : List UInt32 :=
  let word (back : Nat) := m.getD (m.length - back) 0
  m ++ [sha256Sig1 (word 2) + word 7 + sha256Sig0 (word 15) + word 16]

/-- One of the 64 rounds, with its constant and its word of the schedule. -/
def sha256Round (s : Sha256State) (kw : UInt32 × UInt32) : Sha256State :=
  let t1 := s.h + sha256Ep1 s.e + sha256Ch s.e s.f s.g + kw.1 + kw.2
  let t2 := sha256Ep0 s.a + sha256Maj s.a s.b s.c
  { a := t1 + t2, b := s.a, c := s.b, d := s.c, e := s.d + t1, f := s.e, g := s.f, h := s.g }

def sha256Transform (s : Sha256State) (data : Bytes) : Sha256State :=
  let m := extendSchedule^[48] (blockWords data)
  let t := (k256.zip m).foldl sha256Round s
  { a := s.a + t.a, b := s.b + t.b, c := s.c + t.c, d := s.d + t.d, e := s.e + t.e, f := s.f + t.f,
    g := s.g + t.g, h := s.h + t.h }

/-- The loop of `sha256_update`; every turn takes at least one byte. -/
def sha256UpdateLoop : Nat → Sha256 → Bytes → Sha256
  | 0, ctx, _ => ctx
  | fuel + 1, ctx, data =>
    if data = [] then ctx
    else
      let take := min (64 - ctx.buffer.length) data.length
      let buffer := ctx.buffer ++ data.take take
      let ctx :=
        if buffer.length = 64 then
          { ctx with state := sha256Transform ctx.state buffer, buffer := [] }
        else { ctx with buffer := buffer }
      sha256UpdateLoop fuel ctx (data.drop take)

def sha256Update (ctx : Sha256) (data : Bytes) : Sha256 :=
  sha256UpdateLoop data.length { ctx with count := ctx.count + UInt64.ofNat data.length } data

def bigEndian64 (n : UInt64) : Bytes :=
  [(n >>> 56).toUInt8, (n >>> 48).toUInt8, (n >>> 40).toUInt8, (n >>> 32).toUInt8,
    (n >>> 24).toUInt8, (n >>> 16).toUInt8, (n >>> 8).toUInt8, n.toUInt8]

def bigEndian32 (n : UInt32) : Bytes :=
  [(n >>> 24).toUInt8, (n >>> 16).toUInt8, (n >>> 8).toUInt8, n.toUInt8]

/-- The padding of `sha256_final`: the state before the last block, and the first 56 bytes of it. -/
def sha256Pad (ctx : Sha256) : Sha256State × Bytes :=
  let buffer := ctx.buffer ++ [0x80]
  if 56 < buffer.length then
    (sha256Transform ctx.state (buffer ++ replicate (64 - buffer.length) 0),
      replicate 56 0)
  else (ctx.state, buffer ++ replicate (56 - buffer.length) 0)

def sha256Final (ctx : Sha256) : Bytes :=
  let padded := sha256Pad ctx
  let s := sha256Transform padded.1 (padded.2 ++ bigEndian64 (ctx.count * 8))
  [s.a, s.b, s.c, s.d, s.e, s.f, s.g, s.h].flatMap bigEndian32

def sha256Hash (data : Bytes) : Bytes := sha256Final (sha256Update sha256Init data)

def hmacKeyPad (key : Bytes) : Bytes :=
  let k := if 64 < key.length then sha256Hash key else key
  k ++ replicate (64 - k.length) 0

def hmacSha256 (key data : Bytes) : Bytes :=
  let inner := (hmacKeyPad key).map (· ^^^ 0x36)
  let outer := (hmacKeyPad key).map (· ^^^ 0x5c)
  let innerHash := sha256Final (sha256Update (sha256Update sha256Init inner) data)
  sha256Final (sha256Update (sha256Update sha256Init outer) innerHash)

theorem length_sha256Final (ctx : Sha256) : (sha256Final ctx).length = 32 := rfl

@[simp] theorem length_hmacSha256 (key data : Bytes) : (hmacSha256 key data).length = 32 :=
  length_sha256Final _

end Mcpkit.Protocol
