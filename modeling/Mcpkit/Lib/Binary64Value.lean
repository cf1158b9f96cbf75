import Mathlib.Algebra.Order.Field.Basic
import Mathlib.Tactic.Linarith
import Mcpkit.Lib.Binary64

/-!
# The numbers that doubles stand for

A finite double is a rational number.  It is a multiple of `2 ^ (-1074)`, the
least positive number of the format, so its value is an integer count of these
units; the order of the format is the order of the counts.
-/

namespace Binary64

open Nat Int

/-- The exponent and the fraction, read as one number. -/
def position (d : Binary64) : Nat := d.exponent.val * 4503599627370496 + d.fraction.val

/-- The magnitude of a finite number, in units of `2 ^ (-1074)`. -/
def unitsAbs (d : Binary64) : Nat := d.significand * 2 ^ (max d.exponent.val 1 - 1)

/-- A finite number, in units of `2 ^ (-1074)`. -/
def units (d : Binary64) : Int := if d.negative then -(d.unitsAbs : Int) else d.unitsAbs

def unitsPerOne : Nat := 2 ^ 1074

/-- The number a finite double stands for. -/
def value (d : Binary64) : ℚ := d.units / unitsPerOne

theorem unitsPerOne_pos : 0 < unitsPerOne := by
  unfold unitsPerOne
  positivity

theorem unitsPerOne_cast_pos : (0 : ℚ) < unitsPerOne := cast_pos.mpr unitsPerOne_pos

theorem rank_eq (d : Binary64) :
    d.rank = if d.negative then -(d.position : Int) else d.position := by
  simp only [rank, position]
  push_cast
  rfl

variable {a b d : Binary64} {n : Int}

theorem unitsAbs_lt_of_position_lt (h : a.position < b.position) : a.unitsAbs < b.unitsAbs := by
  have hfa := a.fraction.isLt
  have hfb := b.fraction.isLt
  unfold position at h
  obtain he | he : a.exponent.val = b.exponent.val ∨ a.exponent.val < b.exponent.val := by omega
  · -- the same exponent: the fractions decide
    have hsig : a.significand < b.significand := by
      unfold significand
      split_ifs <;> omega
    unfold unitsAbs
    rw [he]
    exact Nat.mul_lt_mul_of_pos_right hsig (Nat.two_pow_pos _)
  -- a smaller exponent: half of the larger unit lies between
  have hb : 4503599627370496 * 2 ^ (b.exponent.val - 1) ≤ b.unitsAbs := by
    unfold unitsAbs significand
    rw [if_neg (by omega), max_eq_left (by omega)]
    exact mul_le_mul_right _ (by omega)
  refine lt_of_lt_of_le ?_ hb
  unfold unitsAbs significand
  split
  · rename_i hzero
    rw [hzero]
    calc a.fraction.val * 2 ^ (max 0 1 - 1) < 4503599627370496 := by simp
      _ ≤ 4503599627370496 * 2 ^ (b.exponent.val - 1) :=
          Nat.le_mul_of_pos_right _ (Nat.two_pow_pos _)
  rw [max_eq_left (by omega)]
  calc (a.fraction.val + 4503599627370496) * 2 ^ (a.exponent.val - 1)
      < 9007199254740992 * 2 ^ (a.exponent.val - 1) :=
        Nat.mul_lt_mul_of_pos_right (by omega) (Nat.two_pow_pos _)
    _ = 4503599627370496 * 2 ^ (a.exponent.val - 1 + 1) := by rw [pow_succ]; omega
    _ ≤ 4503599627370496 * 2 ^ (b.exponent.val - 1) :=
        Nat.mul_le_mul_left _ (Nat.pow_le_pow_right (by omega) (by omega))

theorem unitsAbs_eq_of_position_eq (h : a.position = b.position) : a.unitsAbs = b.unitsAbs := by
  have hfa := a.fraction.isLt
  have hfb := b.fraction.isLt
  unfold position at h
  have he : a.exponent.val = b.exponent.val := by omega
  have hf : a.fraction.val = b.fraction.val := by omega
  simp only [unitsAbs, significand, he, hf]

theorem unitsAbs_lt_iff : a.unitsAbs < b.unitsAbs ↔ a.position < b.position := by
  obtain h | h | h := lt_trichotomy a.position b.position
  · exact iff_of_true (unitsAbs_lt_of_position_lt h) h
  · have heq := unitsAbs_eq_of_position_eq h
    omega
  · have hgt := unitsAbs_lt_of_position_lt h
    omega

theorem unitsAbs_eq_zero_iff : d.unitsAbs = 0 ↔ d.position = 0 := by
  have hzero : zero.unitsAbs = 0 := rfl
  have hpos : zero.position = 0 := rfl
  have h := unitsAbs_lt_iff (a := zero) (b := d)
  omega

theorem units_lt_iff : a.units < b.units ↔ a.rank < b.rank := by
  have hab := unitsAbs_lt_iff (a := a) (b := b)
  have hba := unitsAbs_lt_iff (a := b) (b := a)
  have ha := unitsAbs_eq_zero_iff (d := a)
  have hb := unitsAbs_eq_zero_iff (d := b)
  rw [rank_eq, rank_eq]
  unfold units
  split_ifs <;> omega

theorem units_eq_iff : a.units = b.units ↔ a.rank = b.rank := by
  have hab := units_lt_iff (a := a) (b := b)
  have hba := units_lt_iff (a := b) (b := a)
  omega

theorem value_lt_iff_units : a.value < b.value ↔ a.units < b.units := by
  unfold value
  rw [div_lt_div_iff_of_pos_right unitsPerOne_cast_pos]
  exact cast_lt

theorem value_eq_iff_units : a.value = b.value ↔ a.units = b.units := by
  unfold value
  rw [div_left_inj' unitsPerOne_cast_pos.ne']
  exact cast_inj

theorem lt_iff_value (ha : a.isFinite = true) (hb : b.isFinite = true) :
    a.lt b = true ↔ a.value < b.value := by
  rw [value_lt_iff_units, units_lt_iff]
  simp [lt, isNaN_of_isFinite ha, isNaN_of_isFinite hb]

theorem eq_iff_value (ha : a.isFinite = true) (hb : b.isFinite = true) :
    a.eq b = true ↔ a.value = b.value := by
  rw [value_eq_iff_units, units_eq_iff]
  exact eq_iff_rank ha hb

theorem natAbs_units (d : Binary64) : d.units.natAbs = d.unitsAbs := by
  unfold units
  split <;> simp

@[simp] theorem units_neg (d : Binary64) : d.neg.units = -d.units := by
  obtain ⟨negative, exponent, fraction⟩ := d
  cases negative <;> simp [units, neg] <;> rfl

theorem lt_neg_or_lt_iff {m : Binary64} (hd : d.isFinite = true) (hm : m.isFinite = true)
    (hpos : m.negative = false) : d.lt m.neg = true ∨ m.lt d = true ↔ m.unitsAbs < d.unitsAbs := by
  have hunits : m.units = m.unitsAbs := by simp [units, hpos]
  rw [lt_iff_value hd (show m.neg.isFinite = true from hm), lt_iff_value hm hd,
    value_lt_iff_units, value_lt_iff_units, units_neg, hunits, ← natAbs_units d]
  omega

theorem unitsAbs_ofNat {n : Nat} (h : n ≤ 9007199254740992) :
    (ofNat n).unitsAbs = n * unitsPerOne := by
  obtain rfl | hlt := h.eq_or_lt
  · decide +kernel
  obtain rfl | hpos := n.eq_zero_or_pos
  · have hzero : (ofNat 0).significand = 0 := rfl
    rw [unitsAbs, hzero, zero_mul, zero_mul]
  obtain ⟨hexponent, hsignificand, hk⟩ := exponent_significand_ofNat hpos hlt
  have hshift : 52 - n.log2 + (n.log2 + 1023 - 1) = 1074 := by omega
  rw [unitsAbs, hexponent, hsignificand, max_eq_left (by omega), mul_assoc, ← pow_add]
  exact congrArg (fun k => n * 2 ^ k) hshift

theorem units_ofNat {n : Nat} (h : n ≤ 9007199254740992) :
    (ofNat n).units = (n : Int) * unitsPerOne := by
  rw [units, negative_ofNat, unitsAbs_ofNat h]
  exact natCast_mul n unitsPerOne

theorem units_ofInt (h : n.natAbs ≤ 9007199254740992) : (ofInt n).units = n * unitsPerOne := by
  unfold ofInt
  split
  · rw [units_neg, units_ofNat h, ← neg_mul]
    congr 1
    omega
  · rw [units_ofNat h]
    congr 1
    omega

theorem truncAbs_eq (d : Binary64) : d.truncAbs = d.unitsAbs / unitsPerOne := by
  simp only [truncAbs, unitsAbs, unitsPerOne]
  split
  · rename_i h
    rw [show max d.exponent.val 1 - 1 = max d.exponent.val 1 - 1075 + 1074 by omega, pow_add,
      ← Nat.mul_assoc, Nat.mul_div_cancel _ (by positivity)]
  · rename_i h
    rw [show 1074 = 1075 - max d.exponent.val 1 + (max d.exponent.val 1 - 1) by omega, pow_add,
      Nat.mul_div_mul_right _ _ (Nat.two_pow_pos _)]

theorem value_eq_int_iff : d.value = n ↔ d.units = n * unitsPerOne := by
  rw [value, div_eq_iff unitsPerOne_cast_pos.ne']
  norm_cast

theorem value_ofInt (h : n.natAbs ≤ 9007199254740992) : (ofInt n).value = n :=
  value_eq_int_iff.mpr (units_ofInt h)

theorem unitsAbs_of_value_eq_int (h : d.value = n) : d.unitsAbs = n.natAbs * unitsPerOne := by
  rw [← natAbs_units, value_eq_int_iff.mp h, natAbs_mul, natAbs_natCast]

theorem trunc_of_value_eq_int (h : d.value = n) : d.trunc = n := by
  have htrunc : d.truncAbs = n.natAbs := by
    rw [truncAbs_eq, unitsAbs_of_value_eq_int h, Nat.mul_div_cancel _ unitsPerOne_pos]
  rw [value_eq_int_iff] at h
  have hpos : (0 : Int) < unitsPerOne := by exact_mod_cast unitsPerOne_pos
  unfold trunc
  unfold units at h
  rw [htrunc]
  split
  · rename_i hneg
    rw [if_pos hneg] at h
    have hn : n ≤ 0 := by
      by_contra hgt
      have := mul_pos (by omega : 0 < n) hpos
      omega
    omega
  rename_i hneg
  rw [if_neg hneg] at h
  have hn : 0 ≤ n := by
    by_contra hlt
    have := mul_neg_of_neg_of_pos (by omega : n < 0) hpos
    omega
  omega

theorem natAbs_trunc_le {n : Nat} (h : d.unitsAbs ≤ n * unitsPerOne) : d.trunc.natAbs ≤ n := by
  have htrunc : d.truncAbs ≤ n := by
    rw [truncAbs_eq]
    exact Nat.div_le_of_le_mul (by rwa [Nat.mul_comm] at h)
  unfold trunc
  split <;> omega

end Binary64
