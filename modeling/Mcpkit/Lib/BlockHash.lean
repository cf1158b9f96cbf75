import Mathlib.Algebra.Group.Nat.Defs
import Mathlib.Data.List.Basic
import Mathlib.Logic.Function.Iterate

/-!
# Hash functions over blocks

What the hash functions of FIPS 180-4 with blocks of 64 bytes share: the padding of the message,
the iteration over its blocks and the message schedule.
-/

namespace BlockHash

open List

variable {σ : Type} (f : σ → List UInt8 → σ)

/-- The compression function over the full blocks of a byte string, and the bytes that are left. -/
def absorb (s : σ) (d : List UInt8) : σ × List UInt8 :=
  if 64 ≤ d.length then absorb (f s (d.take 64)) (d.drop 64) else (s, d)
termination_by d.length
decreasing_by
  rw [length_drop]
  omega

/-- The low `k` bytes of a number, the highest first. -/
def bigEndian (k n : Nat) : List UInt8 := (range k).map fun i => UInt8.ofNat (n / 256 ^ (k - 1 - i))

/-- A one bit, the fewest zeros that leave eight bytes in the last block, and there the length of
the message in bits. -/
def padding (n : Nat) : List UInt8 :=
  0x80 :: replicate ((119 - n % 64) % 64) 0 ++ bigEndian 8 (8 * n)

def digest (s : σ) (m : List UInt8) : σ := (absorb f s (m ++ padding m.length)).1

/-- HMAC (RFC 2104) for a hash with blocks of 64 bytes. -/
def hmac (hash : List UInt8 → List UInt8) (key text : List UInt8) : List UInt8 :=
  let k := if 64 < key.length then hash key else key
  let pad (b : UInt8) := (k ++ replicate (64 - k.length) 0).map (· ^^^ b)
  hash (pad 0x5c ++ hash (pad 0x36 ++ text))

/-- The word `t` of a block: four bytes, the highest first. -/
def word (block : List UInt8) (t : Nat) : UInt32 :=
  ((block.drop (4 * t)).take 4).foldl (fun v b => v <<< 8 ||| b.toUInt32) 0

/-- The message schedule: the words `m` of the block, then words that depend on those before. -/
def schedule (next : (Nat → UInt32) → UInt32) (m : Nat → UInt32) (t : Nat) : UInt32 :=
  if t < 16 then m t
  else next fun back => if 0 < back then schedule next m (t - back) else 0

variable {f} {s s₀ : σ} {d e m rest : List UInt8}

theorem absorb_of_lt (h : d.length < 64) : absorb f s d = (s, d) := by
  rw [absorb, if_neg (Nat.not_le.mpr h)]

theorem absorb_append :
    absorb f s (d ++ e) = absorb f (absorb f s d).1 ((absorb f s d).2 ++ e) := by
  induction s, d using absorb.induct f with
  | case1 s d hle ih =>
    conv_lhs => rw [absorb]
    rw [absorb.eq_def f s d, if_pos (by rw [length_append]; omega), if_pos hle,
      take_append_of_le_length hle, drop_append_of_le_length hle, ih]
  | case2 s d hlt => rw [absorb_of_lt (Nat.not_le.mp hlt)]

theorem absorb_block_append (h : d.length = 64) : absorb f s (d ++ e) = absorb f (f s d) e := by
  rw [absorb, if_pos (by rw [length_append]; omega), ← h, take_left, drop_left]

theorem absorb_congr {g : σ → List UInt8 → σ} (h : ∀ s b, b.length = 64 → f s b = g s b) :
    absorb f s d = absorb g s d := by
  induction s, d using absorb.induct f with
  | case1 s d hle ih =>
    rw [absorb, if_pos hle, ih, h s _ (by rw [length_take]; omega), absorb.eq_def g s d, if_pos hle]
  | case2 s d hlt => rw [absorb_of_lt (Nat.not_le.mp hlt), absorb_of_lt (Nat.not_le.mp hlt)]

theorem length_absorb : (absorb f s d).2.length = d.length % 64 := by
  induction s, d using absorb.induct f with
  | case1 s d hle ih =>
    rw [absorb, if_pos hle, ih, length_drop]
    omega
  | case2 s d hlt =>
    rw [absorb, if_neg hlt]
    exact (Nat.mod_eq_of_lt (Nat.not_le.mp hlt)).symm

theorem absorb_block (h : d.length = 64) : (absorb f s d).1 = f s d := by
  rw [← append_nil d, absorb_block_append h, absorb_of_lt (by decide), append_nil]

/-- The state before the last block, which the padding may need a block of its own to reach, and
the part of that block in front of the length. -/
def lastBlock (f : σ → List UInt8 → σ) (s : σ) (rest : List UInt8) : σ × List UInt8 :=
  let buffer := rest ++ [0x80]
  if 56 < buffer.length then
    (f s (buffer ++ replicate (64 - buffer.length) 0), replicate 56 0)
  else (s, buffer ++ replicate (56 - buffer.length) 0)

theorem digest_eq (h : absorb f s₀ m = (s, rest)) : digest f s₀ m =
    f (lastBlock f s rest).1 ((lastBlock f s rest).2 ++ bigEndian 8 (8 * m.length)) := by
  have hrest : rest.length = m.length % 64 := by rw [← length_absorb (f := f) (s := s₀), h]
  have hlen : (bigEndian 8 (8 * m.length)).length = 8 := by rw [bigEndian, length_map, length_range]
  have hbuffer : (rest ++ [(0x80 : UInt8)]).length = rest.length + 1 := length_append
  rw [digest, padding, absorb_append, h, ← hrest, lastBlock, cons_append, append_cons,
    ← append_assoc]
  generalize bigEndian 8 (8 * m.length) = l, rest ++ [(0x80 : UInt8)] = buffer at hlen hbuffer ⊢
  dsimp only
  split
  case isTrue hlt =>
    rw [show (119 - rest.length) % 64 = 64 - buffer.length + 56 by omega, replicate_add,
      ← append_assoc, append_assoc, absorb_block_append, absorb_block]
    · rw [length_append, hlen, length_replicate]
    · rw [length_append, length_replicate]
      omega
  case isFalse hle =>
    rw [show (119 - rest.length) % 64 = 56 - buffer.length by omega, absorb_block]
    rw [length_append, length_append, length_replicate, hlen]
    omega

theorem iterate_extend (next : (Nat → UInt32) → UInt32) (m : Nat → UInt32) (n : Nat) :
    (fun w : List UInt32 => w ++ [next fun back => w.getD (w.length - back) 0])^[n]
      ((range 16).map m) = (range (16 + n)).map (schedule next m) := by
  induction n with
  | zero =>
    refine map_congr_left fun t ht => ?_
    rw [schedule, if_pos (mem_range.mp ht)]
  | succ n ih =>
    rw [Function.iterate_succ_apply', ih, ← Nat.add_assoc, range_succ, map_append, map_singleton,
      length_map, length_range, schedule.eq_def next m (16 + n), if_neg (by omega)]
    congr 3
    funext back
    split
    case isTrue h => simp [show 16 + n - back < 16 + n by omega]
    case isFalse h => simp [show back = 0 by omega]

end BlockHash
