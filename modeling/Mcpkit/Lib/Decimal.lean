import Mathlib.Algebra.Group.Nat.Defs
import Mathlib.Data.List.Basic

/-!
# Decimal numerals

A numeral is a text of digit characters, most significant digit first.  Any
such text denotes a number, leading zeros included; `numeral` is the text the
printing functions of a C library give for an unsigned number.
-/

namespace Decimal

open List Nat UInt8

def IsDigit (b : UInt8) : Prop := 0x30 ≤ b ∧ b ≤ 0x39

instance (b : UInt8) : Decidable (IsDigit b) := inferInstanceAs (Decidable (_ ∧ _))

def digit (b : UInt8) : Nat := b.toNat - 0x30

/-- The number a text of digits denotes, continuing from the number before it. -/
def valueFrom (n : Nat) (s : List UInt8) : Nat := s.foldl (fun n b => n * 10 + digit b) n

def value (s : List UInt8) : Nat := valueFrom 0 s

def numeral (n : Nat) : List UInt8 := (toDigits 10 n).map fun c => ofNat c.toNat

@[simp] theorem valueFrom_nil (n : Nat) : valueFrom n [] = n := rfl

@[simp] theorem valueFrom_cons (n : Nat) (b : UInt8) (s : List UInt8) :
    valueFrom n (b :: s) = valueFrom (n * 10 + digit b) s :=
  foldl_cons ..

variable {b : UInt8} {c : Char} {n : Nat}

theorem digit_lt (h : IsDigit b) : digit b < 10 := by
  have hle : b.toNat ≤ 0x39 := h.2
  unfold digit
  omega

theorem le_valueFrom (n : Nat) (s : List UInt8) : n ≤ valueFrom n s := by
  induction s generalizing n with
  | nil => exact Nat.le_refl n
  | cons b s ih =>
    have hstep : n ≤ n * 10 + digit b := by omega
    exact Nat.le_trans hstep (ih _)

private theorem toNat_of_isDigit (h : c.isDigit = true) : 0x30 ≤ c.toNat ∧ c.toNat ≤ 0x39 := by
  simp only [Char.isDigit, Bool.and_eq_true, decide_eq_true_eq] at h
  exact ⟨UInt32.le_iff_toNat_le.mp h.1, UInt32.le_iff_toNat_le.mp h.2⟩

private theorem toNat_ofNat_toNat (h : c.isDigit = true) :
    (ofNat c.toNat).toNat = c.toNat := by
  obtain ⟨-, hle⟩ := toNat_of_isDigit h
  rw [toNat_ofNat']
  exact mod_eq_of_lt (by omega)

private theorem isDigit_of_mem_toDigits (h : c ∈ toDigits 10 n) : c.isDigit = true :=
  Nat.isDigit_of_mem_toDigits (by decide) (by decide) h

theorem toNat_lt_of_mem_toDigits (h : c ∈ toDigits 10 n) : c.toNat < 128 := by
  obtain ⟨-, hle⟩ := toNat_of_isDigit (isDigit_of_mem_toDigits h)
  omega

theorem isDigit_of_mem_numeral (h : b ∈ numeral n) : IsDigit b := by
  obtain ⟨c, hc, rfl⟩ := mem_map.mp h
  have hdigit := isDigit_of_mem_toDigits hc
  obtain ⟨hge, hle⟩ := toNat_of_isDigit hdigit
  have hval := toNat_ofNat_toNat hdigit
  exact ⟨le_iff_toNat_le.mpr (by rw [hval]; exact hge),
    le_iff_toNat_le.mpr (by rw [hval]; exact hle)⟩

theorem numeral_ne_nil (n : Nat) : numeral n ≠ [] := by simp [numeral]

theorem length_numeral_le {k : Nat} (hk : 0 < k) (h : n < 10 ^ k) : (numeral n).length ≤ k := by
  rw [numeral, length_map]
  exact (length_toDigits_le_iff (by decide) hk).mpr h

private theorem valueFrom_map {cs : List Char} (h : ∀ c ∈ cs, c.isDigit = true) (n : Nat) :
    valueFrom n (cs.map fun c => ofNat c.toNat) = ofDigitChars 10 cs n := by
  induction cs generalizing n with
  | nil => rfl
  | cons c cs ih =>
    have hc := toNat_ofNat_toNat (h c mem_cons_self)
    rw [map_cons, valueFrom_cons, ofDigitChars_cons, digit, hc, mul_comm n 10]
    exact ih (fun d hd => h d (mem_cons_of_mem c hd)) _

@[simp] theorem value_numeral (n : Nat) : value (numeral n) = n := by
  rw [value, numeral, valueFrom_map fun c hc => isDigit_of_mem_toDigits hc]
  exact ofDigitChars_ten_toDigits

end Decimal
