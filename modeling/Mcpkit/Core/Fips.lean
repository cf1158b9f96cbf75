import Mathlib.Data.Nat.NthRoot.Defs
import Mcpkit.Core.Sha1
import Mcpkit.Lib.BlockHash

/-!
# The hash functions of the standard

SHA-256 and SHA-1 as FIPS 180-4 defines them, and that the functions of `mrtr_state.c` and
`sha1.c` compute them, however the message is handed over.
-/

namespace Mcpkit.Fips

open Json Protocol Mcpkit.Core BlockHash List Nat

def rotr (n : Nat) (x : UInt32) : UInt32 := ⟨x.toBitVec.rotateRight n⟩

def rotl (n : Nat) (x : UInt32) : UInt32 := ⟨x.toBitVec.rotateLeft n⟩

def ch (x y z : UInt32) : UInt32 := (x &&& y) ^^^ (~~~x &&& z)

def maj (x y z : UInt32) : UInt32 := (x &&& y) ^^^ (x &&& z) ^^^ (y &&& z)

def parity (x y z : UInt32) : UInt32 := x ^^^ y ^^^ z

/-- The first 32 bits of the fractional part of the `n`th root of `p`. -/
def fraction (n p : Nat) : UInt32 := UInt32.ofNat (nthRoot n (p * 2 ^ (32 * n)))

def primes : List Nat := (range 312).filter fun p => 2 ≤ p ∧ ∀ d ∈ range p, 2 ≤ d → p % d ≠ 0

variable (w : Nat → UInt32) (s : Sha1State) (m : Bytes)

def round256 (s : Sha256State) (t : Nat) : Sha256State :=
  let t1 := s.h + (rotr 6 s.e ^^^ rotr 11 s.e ^^^ rotr 25 s.e) + ch s.e s.f s.g +
    fraction 3 (primes.getD t 0) + w t
  let t2 := (rotr 2 s.a ^^^ rotr 13 s.a ^^^ rotr 22 s.a) + maj s.a s.b s.c
  ⟨t1 + t2, s.a, s.b, s.c, s.d + t1, s.e, s.f, s.g⟩

def next256 : UInt32 :=
  (rotr 17 (w 2) ^^^ rotr 19 (w 2) ^^^ (w 2 >>> 10)) + w 7 +
    (rotr 7 (w 15) ^^^ rotr 18 (w 15) ^^^ (w 15 >>> 3)) + w 16

def compress256 (s : Sha256State) (block : Bytes) : Sha256State :=
  let v := (range 64).foldl (round256 (schedule next256 (word block))) s
  ⟨s.a + v.a, s.b + v.b, s.c + v.c, s.d + v.d, s.e + v.e, s.f + v.f, s.g + v.g, s.h + v.h⟩

def start256 : Sha256State :=
  ⟨fraction 2 2, fraction 2 3, fraction 2 5, fraction 2 7, fraction 2 11, fraction 2 13,
    fraction 2 17, fraction 2 19⟩

def sha256 : Bytes :=
  let s := digest compress256 start256 m
  [s.a, s.b, s.c, s.d, s.e, s.f, s.g, s.h].flatMap fun w => bigEndian 4 w.toNat

def round1 (t : Nat) : Sha1State :=
  let f := if t < 20 then ch s.b s.c s.d else if t < 40 then parity s.b s.c s.d
    else if t < 60 then maj s.b s.c s.d else parity s.b s.c s.d
  let k := if t < 20 then 0x5a827999 else if t < 40 then 0x6ed9eba1
    else if t < 60 then 0x8f1bbcdc else 0xca62c1d6
  ⟨rotl 5 s.a + f + s.e + k + w t, s.a, rotl 30 s.b, s.c, s.d⟩

def next1 : UInt32 := rotl 1 (w 3 ^^^ w 8 ^^^ w 14 ^^^ w 16)

def compress1 (block : Bytes) : Sha1State :=
  let v := (range 80).foldl (round1 (schedule next1 (word block))) s
  ⟨s.a + v.a, s.b + v.b, s.c + v.c, s.d + v.d, s.e + v.e⟩

def sha1 : Bytes :=
  let s := digest compress1 ⟨0x67452301, 0xefcdab89, 0x98badcfe, 0x10325476, 0xc3d2e1f0⟩ m
  [s.a, s.b, s.c, s.d, s.e].flatMap fun w => bigEndian 4 w.toNat

theorem bigEndian32_eq : bigEndian32 = fun n => bigEndian 4 n.toNat := by
  funext n
  simp [bigEndian32, bigEndian, range_succ, ← UInt8.toNat_inj, shiftRight_eq_div_pow]

theorem bigEndian64_eq (n : Nat) : bigEndian64 (UInt64.ofNat n * 8) = bigEndian 8 (8 * n) := by
  simp [bigEndian64, bigEndian, range_succ, ← UInt8.toNat_inj, shiftRight_eq_div_pow]
  omega

theorem blockWords_eq (d : Bytes) : blockWords d = (range (d.length / 4)).map (word d) := by
  induction d using blockWords.induct with
  | case1 p q r s rest ih =>
    have hlen : (p :: q :: r :: s :: rest).length / 4 = rest.length / 4 + 1 := by
      simp only [length_cons]
      omega
    have hword : (p.toUInt32 <<< 24) ||| (q.toUInt32 <<< 16) ||| (r.toUInt32 <<< 8) ||| s.toUInt32 =
        word (p :: q :: r :: s :: rest) 0 := by
      rw [← UInt32.toBitVec_inj]
      simp [word, BitVec.shiftLeft_or_distrib, ← BitVec.shiftLeft_add]
    rw [blockWords, ih, hlen, range_succ_eq_map, map_cons, map_map, hword]
    rfl
  | case2 d h =>
    match d, h with
    | [], _ | [_], _ | [_, _], _ | [_, _, _], _ => simp [blockWords]
    | p :: q :: r :: s :: rest, h => exact absurd rfl (h p q r s rest)

theorem sha256Transform_eq (s : Sha256State) {block : Bytes} (h : block.length = 64) :
    sha256Transform s block = compress256 s block := by
  have hk : k256 = (range 64).map fun t => fraction 3 (primes.getD t 0) := by decide +kernel
  have hm : extendSchedule^[48] (blockWords block) =
      (range 64).map (schedule next256 (word block)) := by
    rw [blockWords_eq, h]
    exact iterate_extend next256 (word block) 48
  rw [sha256Transform, hk, hm, zip_map', foldl_map]
  rfl

/-- The context once a message has been handed over. -/
def reading : Sha256 where
  state := (absorb sha256Transform sha256Init.state m).1
  count := UInt64.ofNat m.length
  buffer := (absorb sha256Transform sha256Init.state m).2

theorem sha256UpdateLoop_eq {fuel : Nat} {ctx : Sha256} {data : Bytes} (hfuel : data.length ≤ fuel)
    (h : ctx.buffer.length < 64) : sha256UpdateLoop fuel ctx data =
      { ctx with
        state := (absorb sha256Transform ctx.state (ctx.buffer ++ data)).1
        buffer := (absorb sha256Transform ctx.state (ctx.buffer ++ data)).2 } := by
  induction fuel generalizing ctx data with
  | zero =>
    obtain rfl : data = [] := length_eq_zero_iff.mp (le_zero.mp hfuel)
    rw [sha256UpdateLoop, append_nil, absorb_of_lt h]
  | succ fuel ih =>
    rw [sha256UpdateLoop]
    split
    next hnil => rw [hnil, append_nil, absorb_of_lt h]
    next hne =>
      have hpos := length_pos_iff.mpr hne
      generalize htake : min (64 - ctx.buffer.length) data.length = n
      have hsplit : ctx.buffer ++ data = ctx.buffer ++ data.take n ++ data.drop n := by simp
      rw [hsplit]
      dsimp only
      split
      next hfull =>
        rw [ih (by rw [length_drop]; omega) (by simp), absorb_block_append hfull]
        rfl
      next hpart =>
        have hdrop : data.drop n = [] := by
          rw [drop_eq_nil_iff]
          simp only [length_append, length_take] at hpart
          omega
        have hlt : (ctx.buffer ++ data.take n).length < 64 := by
          simp only [length_append, length_take] at hpart ⊢
          omega
        rw [hdrop, append_nil, absorb_of_lt hlt]
        cases fuel <;> rfl

theorem sha256Update_reading (d : Bytes) : sha256Update (reading m) d = reading (m ++ d) := by
  have hlen : (reading m).buffer.length < 64 := by
    rw [reading, length_absorb]
    omega
  rw [sha256Update, sha256UpdateLoop_eq (le_refl _)]
  · simp [reading, ← absorb_append]
  · exact hlen

theorem foldl_sha256Update (pieces : List Bytes) (m : Bytes) :
    pieces.foldl sha256Update (reading m) = reading (m ++ pieces.flatten) := by
  induction pieces generalizing m with
  | nil => simp
  | cons d pieces ih => rw [foldl_cons, sha256Update_reading, ih, flatten_cons, append_assoc]

theorem sha256Final_reading : sha256Final (reading m) = sha256 m := by
  have hstart : start256 = sha256Init.state := by decide +kernel
  rw [sha256, digest, ← absorb_congr fun s b h => sha256Transform_eq s h, ← digest, hstart,
    digest_eq rfl, ← bigEndian64_eq, ← bigEndian32_eq]
  rfl

/-- However a message is divided, the digest is that of the standard, and so is the code of a
message under any key. -/
theorem sha256Final_foldl_sha256Update_and_hmacSha256 :
    (∀ pieces : List Bytes,
      sha256Final (pieces.foldl sha256Update sha256Init) = sha256 pieces.flatten) ∧
      ∀ key data, hmacSha256 key data = hmac sha256 key data := by
  have hall (pieces : List Bytes) :
      sha256Final (pieces.foldl sha256Update sha256Init) = sha256 pieces.flatten := by
    have hinit : sha256Init = reading [] := by rw [reading, absorb_of_lt (by decide)]; rfl
    rw [hinit, foldl_sha256Update, sha256Final_reading, nil_append]
  refine ⟨hall, fun key data => ?_⟩
  have hone (m : Bytes) : sha256Hash m = sha256 m := by simpa [sha256Hash] using hall [m]
  have htwo (a b : Bytes) : sha256Final (sha256Update (sha256Update sha256Init a) b) =
      sha256 (a ++ b) := by simpa using hall [a, b]
  simp only [hmacSha256, htwo, hmac, hmacKeyPad, hone]

private theorem or_eq (b c d : UInt32) : (b &&& c) ||| (~~~b &&& d) = ch b c d ∧
    (b &&& c) ||| (b &&& d) ||| (c &&& d) = maj b c d := by
  rw [ch, maj, ← UInt32.toBitVec_inj, ← UInt32.toBitVec_inj]
  constructor
  all_goals
    ext i
    simp
    cases b.toBitVec[i] <;> cases c.toBitVec[i] <;> cases d.toBitVec[i] <;> rfl

theorem sha1Round_eq (t : Nat) : sha1Round s (w t, t) = round1 w s t := by
  simp only [sha1Round, sha1Mix, round1, or_eq]
  split_ifs <;> rfl

theorem sha1Transform_eq {block : Bytes} (h : block.length = 64) :
    sha1Transform s block = compress1 s block := by
  have hw : sha1Extend^[64] (blockWords block) = (range 80).map (schedule next1 (word block)) := by
    rw [blockWords_eq, h]
    exact iterate_extend next1 (word block) 64
  have hzip : ((range 80).map (schedule next1 (word block))).zipIdx =
      (range 80).map fun t => (schedule next1 (word block) t, t) := by
    exact ext_getElem (by simp) (by simp)
  rw [sha1Transform, hw, hzip, foldl_map]
  simp only [sha1Round_eq]
  rfl

theorem sha1Blocks_eq {fuel : Nat} {s : Sha1State} {d : Bytes} (h : d.length ≤ fuel) :
    sha1Blocks fuel s d = absorb sha1Transform s d := by
  induction fuel generalizing s d with
  | zero => rw [absorb_of_lt (by omega), sha1Blocks]
  | succ fuel ih =>
    rw [sha1Blocks, absorb]
    split
    · exact ih (by rw [length_drop]; omega)
    · rfl

/-- `mcp_sha1` computes SHA-1. -/
theorem mcpSha1_eq (m : Bytes) : mcpSha1 m = sha1 m := by
  rw [sha1, digest, ← absorb_congr fun s b h => sha1Transform_eq s h, ← digest, digest_eq rfl,
    ← bigEndian64_eq, ← bigEndian32_eq, mcpSha1, sha1Blocks_eq (Nat.le_refl _)]
  generalize absorb sha1Transform _ m = r
  simp only [lastBlock, length_append, length_singleton, Nat.lt_succ_iff]

end Mcpkit.Fips
