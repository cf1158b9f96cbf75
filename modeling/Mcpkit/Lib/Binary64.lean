import Mathlib.Data.Nat.Log
import Mathlib.Tactic.IntervalCases

/-!
# Double-precision numbers

The binary64 format of IEEE 754 by its three fields.  Only the operations a
program needs that stores, compares and converts numbers are defined; there is
no arithmetic.

Two numbers that are not NaN compare as their ranks do: the exponent and the
fraction, read as one number, grow with the magnitude, and the two zeros have
the same rank.
-/

structure Binary64 where
  negative : Bool
  exponent : Fin 2048
  fraction : Fin 4503599627370496
  deriving DecidableEq

namespace Binary64

open Nat

variable (d : Binary64)

def isFinite : Bool := d.exponent.val != 2047

def isNaN : Bool := d.exponent.val == 2047 && d.fraction.val != 0

def zero : Binary64 := ⟨false, 0, 0⟩

def one : Binary64 := ⟨false, 1023, 0⟩

/-- The position of a number in the order of the format. -/
def rank : Int :=
  let magnitude : Int := d.exponent.val * 4503599627370496 + d.fraction.val
  if d.negative then -magnitude else magnitude

def eq (a b : Binary64) : Bool := !a.isNaN && !b.isNaN && a.rank == b.rank

def lt (a b : Binary64) : Bool := !a.isNaN && !b.isNaN && decide (a.rank < b.rank)

/-- The significand with its leading bit, in units of `2 ^ (exponent - 1075)`. -/
def significand : Nat :=
  if d.exponent.val = 0 then d.fraction.val else d.fraction.val + 4503599627370496

/-- The integer part of the magnitude of a finite number. -/
def truncAbs : Nat :=
  let e := max d.exponent.val 1
  if 1075 ≤ e then d.significand * 2 ^ (e - 1075) else d.significand / 2 ^ (1075 - e)

def trunc : Int := if d.negative then -(d.truncAbs : Int) else d.truncAbs

/-- The quotient by `2 ^ shift`, to the nearest integer, ties to even. -/
def roundShift (n shift : Nat) : Nat :=
  let q := n / 2 ^ shift
  let r := 2 * (n % 2 ^ shift)
  if 2 ^ shift < r || (r == 2 ^ shift && q % 2 == 1) then q + 1 else q

/-- Conversion of a natural number, to the nearest double, ties to even. -/
def ofNat (n : Nat) : Binary64 :=
  if n = 0 then zero
  else
    let k := Nat.log2 n
    -- the significand has 53 bits, or is `2 ^ 53` when rounding carried into the exponent
    let m := if k ≤ 52 then n * 2 ^ (52 - k) else roundShift n (k - 52)
    let e := if m = 9007199254740992 then k + 1 else k
    if e < 1024 then ⟨false, Fin.ofNat 2048 (e + 1023), Fin.ofNat 4503599627370496 m⟩
    else ⟨false, 2047, 0⟩

def neg : Binary64 := { d with negative := !d.negative }

/-- Conversion of an integer; zero converts to positive zero. -/
def ofInt (n : Int) : Binary64 := if n < 0 then (ofNat n.natAbs).neg else ofNat n.natAbs

@[simp] theorem isFinite_neg : d.neg.isFinite = d.isFinite := rfl

theorem isNaN_of_isFinite {d : Binary64} (h : d.isFinite = true) : d.isNaN = false := by
  simp only [isFinite, bne_iff_ne] at h
  simp [isNaN, h]

theorem eq_iff_rank {a b : Binary64} (ha : a.isFinite = true) (hb : b.isFinite = true) :
    a.eq b = true ↔ a.rank = b.rank := by
  simp [eq, isNaN_of_isFinite ha, isNaN_of_isFinite hb]

variable {n : Nat}

theorem isFinite_ofNat (h : n < 2 ^ 64) : (ofNat n).isFinite = true := by
  unfold ofNat
  split
  · decide
  rename_i hn
  have hlog : n.log2 < 64 := (log2_lt hn).mpr h
  dsimp only
  generalize (if n.log2 ≤ 52 then n * 2 ^ (52 - n.log2) else roundShift n (n.log2 - 52)) = m
  have he : (if m = 9007199254740992 then n.log2 + 1 else n.log2) ≤ 64 := by split <;> omega
  generalize (if m = 9007199254740992 then n.log2 + 1 else n.log2) = e at he
  have hmod : (e + 1023) % 2048 ≠ 2047 := by omega
  rw [if_pos (by omega)]
  exact bne_iff_ne.mpr hmod

theorem isFinite_ofInt {n : Int} (h : n.natAbs < 2 ^ 64) : (ofInt n).isFinite = true := by
  unfold ofInt
  split
  · rw [isFinite_neg]
    exact isFinite_ofNat h
  · exact isFinite_ofNat h

theorem negative_ofNat (n : Nat) : (ofNat n).negative = false := by
  simp only [ofNat]
  split_ifs <;> rfl

private theorem shifted_bounds (hn : n ≠ 0) (hk : n.log2 ≤ 52) :
    4503599627370496 ≤ n * 2 ^ (52 - n.log2) ∧ n * 2 ^ (52 - n.log2) < 9007199254740992 := by
  have hpow : 2 ^ n.log2 * 2 ^ (52 - n.log2) = 4503599627370496 := by
    rw [← Nat.pow_add, add_sub_of_le hk]
  constructor
  · rw [← hpow]
    exact mul_le_mul_right _ (log2_self_le hn)
  have hlt : n < 2 ^ n.log2 * 2 := lt_log2_self
  calc n * 2 ^ (52 - n.log2)
      < 2 ^ n.log2 * 2 * 2 ^ (52 - n.log2) := Nat.mul_lt_mul_of_pos_right hlt (Nat.two_pow_pos _)
    _ = 9007199254740992 := by rw [Nat.mul_right_comm, hpow]

theorem exponent_significand_ofNat (hpos : 0 < n) (hlt : n < 9007199254740992) :
    (ofNat n).exponent.val = n.log2 + 1023 ∧
      (ofNat n).significand = n * 2 ^ (52 - n.log2) ∧ n.log2 ≤ 52 := by
  have hk : n.log2 ≤ 52 := Nat.lt_succ_iff.mp ((log2_lt hpos.ne').mpr hlt)
  obtain ⟨hlow, hhigh⟩ := shifted_bounds hpos.ne' hk
  have hexponent : (n.log2 + 1023) % 2048 = n.log2 + 1023 := mod_eq_of_lt (by omega)
  have hof : ofNat n = ⟨false, Fin.ofNat 2048 (n.log2 + 1023),
      Fin.ofNat 4503599627370496 (n * 2 ^ (52 - n.log2))⟩ := by
    simp only [ofNat, if_neg hpos.ne', if_pos hk, if_neg hhigh.ne]
    rw [if_pos (by omega)]
  refine ⟨?_, ?_, hk⟩
  · rw [hof]
    exact hexponent
  rw [hof]
  simp only [significand, Fin.val_ofNat, hexponent]
  rw [if_neg (by omega)]
  omega

theorem truncAbs_ofNat (h : n ≤ 9007199254740992) : (ofNat n).truncAbs = n := by
  obtain rfl | hlt := h.eq_or_lt
  · decide +kernel
  obtain rfl | hpos := n.eq_zero_or_pos
  · have hzero : (ofNat 0).significand = 0 := rfl
    simp [truncAbs, hzero]
  obtain ⟨hval, hsignificand, hk⟩ := exponent_significand_ofNat hpos hlt
  rw [truncAbs, hsignificand, hval]
  simp only [Nat.max_eq_left (show 1 ≤ n.log2 + 1023 by omega)]
  by_cases htop : n.log2 = 52
  · simp [htop]
  · rw [if_neg (by omega), show 1075 - (n.log2 + 1023) = 52 - n.log2 by omega,
      Nat.mul_div_cancel _ (Nat.two_pow_pos _)]

theorem eq_of_eq {a b : Binary64} (ha : a.negative = false) (hb : b.negative = false)
    (h : a.eq b = true) : a = b := by
  obtain ⟨sa, ea, fa⟩ := a
  obtain ⟨sb, eb, fb⟩ := b
  dsimp only at ha hb
  subst ha hb
  simp only [eq, rank, Bool.and_eq_true, beq_iff_eq, Bool.false_eq_true, if_false] at h
  obtain ⟨-, hrank⟩ := h
  have hfa := fa.isLt
  have hfb := fb.isLt
  have he : ea = eb := Fin.ext (by omega)
  have hf : fa = fb := Fin.ext (by omega)
  rw [he, hf]

theorem eq_ofNat_iff {m : Nat} (hm : m ≤ 9007199254740992) (hn : n ≤ 9007199254740992) :
    (ofNat m).eq (ofNat n) = true ↔ m = n := by
  constructor
  · intro h
    rw [← truncAbs_ofNat hm, eq_of_eq (negative_ofNat m) (negative_ofNat n) h, truncAbs_ofNat hn]
  · rintro rfl
    have hfinite : (ofNat m).isFinite = true := isFinite_ofNat (by omega)
    exact (eq_iff_rank hfinite hfinite).mpr rfl

example : (ofInt (-32600)).trunc = -32600 := by decide

end Binary64
