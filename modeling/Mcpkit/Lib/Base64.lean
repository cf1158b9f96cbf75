import Mathlib.Data.List.Basic

/-!
# Bytes in groups of six bits

The arithmetic part of the base64 encodings, without an alphabet and without
padding.  Three bytes give four sextets; a rest of one or two bytes gives two
or three, filled up with zero bits at the end.

Reading the sextets back fails when a single one is left over, or when the bits
that filled up the last one are not zero.
-/

namespace Base64

open List Option UInt8

def sextets : List UInt8 → List Nat
  | a :: b :: c :: rest =>
    let v := a.toNat * 65536 + b.toNat * 256 + c.toNat
    v / 262144 % 64 :: v / 4096 % 64 :: v / 64 % 64 :: v % 64 :: sextets rest
  | [a, b] =>
    let v := a.toNat * 65536 + b.toNat * 256
    [v / 262144 % 64, v / 4096 % 64, v / 64 % 64]
  | [a] =>
    let v := a.toNat * 65536
    [v / 262144 % 64, v / 4096 % 64]
  | [] => []

/-- The byte that starts with the low bits of one sextet, of which `unused` belong to it, and goes
on with the high bits of the next. -/
def joined (p q unused : Nat) : UInt8 := ofNat ((p * 64 + q) / unused)

def bytes : List Nat → Option (List UInt8)
  | p :: q :: r :: s :: rest =>
    (bytes rest).map fun d => joined p q 16 :: joined q r 4 :: joined r s 1 :: d
  | [p, q, r] => if r % 4 = 0 then some [joined p q 16, joined q r 4] else none
  | [p, q] => if q % 16 = 0 then some [joined p q 16] else none
  | [_] => none
  | [] => some []

theorem lt_of_mem_sextets {d : List UInt8} {v : Nat} (h : v ∈ sextets d) : v < 64 := by
  have hmod : ∀ n, n % 64 < 64 := fun n => Nat.mod_lt n (by decide)
  induction d using sextets.induct with
  | case1 a b c rest ih =>
    simp only [sextets, mem_cons] at h
    obtain rfl | rfl | rfl | rfl | h := h
    · exact hmod _
    · exact hmod _
    · exact hmod _
    · exact hmod _
    · exact ih h
  | case2 a b =>
    simp only [sextets, mem_cons, not_mem_nil, or_false] at h
    obtain rfl | rfl | rfl := h <;> exact hmod _
  | case3 a =>
    simp only [sextets, mem_cons, not_mem_nil, or_false] at h
    obtain rfl | rfl := h <;> exact hmod _
  | case4 => cases h

private theorem joined_eq {p q unused : Nat} {a : UInt8}
    (h : (p * 64 + q) / unused % 256 = a.toNat) : joined p q unused = a := by
  refine UInt8.toNat_inj.mp ?_
  rwa [joined, UInt8.toNat_ofNat']

theorem bytes_sextets (d : List UInt8) : bytes (sextets d) = some d := by
  induction d using sextets.induct with
  | case1 a b c rest ih =>
    simp only [sextets, bytes, ih, map_some]
    generalize hv : a.toNat * 65536 + b.toNat * 256 + c.toNat = v
    have ha := a.toNat_lt
    have hb := b.toNat_lt
    have hc := c.toNat_lt
    have h₁ : joined (v / 262144 % 64) (v / 4096 % 64) 16 = a := joined_eq (by omega)
    have h₂ : joined (v / 4096 % 64) (v / 64 % 64) 4 = b := joined_eq (by omega)
    have h₃ : joined (v / 64 % 64) (v % 64) 1 = c := joined_eq (by omega)
    rw [h₁, h₂, h₃]
  | case2 a b =>
    simp only [sextets, bytes]
    generalize hv : a.toNat * 65536 + b.toNat * 256 = v
    have ha := a.toNat_lt
    have hb := b.toNat_lt
    have h₁ : joined (v / 262144 % 64) (v / 4096 % 64) 16 = a := joined_eq (by omega)
    have h₂ : joined (v / 4096 % 64) (v / 64 % 64) 4 = b := joined_eq (by omega)
    have hzero : v / 64 % 64 % 4 = 0 := by omega
    rw [if_pos hzero, h₁, h₂]
  | case3 a =>
    simp only [sextets, bytes]
    generalize hv : a.toNat * 65536 = v
    have ha := a.toNat_lt
    have h₁ : joined (v / 262144 % 64) (v / 4096 % 64) 16 = a := joined_eq (by omega)
    have hzero : v / 4096 % 64 % 16 = 0 := by omega
    rw [if_pos hzero, h₁]
  | case4 => rfl

/-- What the low bits of the last of `n` sextets that belong to no byte count up to. -/
def unused (n : Nat) : Nat := if n % 4 = 2 then 16 else if n % 4 = 3 then 4 else 1

theorem isSome_bytes (qs : List Nat) :
    (bytes qs).isSome ↔ qs.length % 4 ≠ 1 ∧ qs.getLastD 0 % unused qs.length = 0 := by
  induction qs using bytes.induct with
  | case1 p q r s rest ih =>
    cases rest with
    | nil => simp [bytes, unused, Nat.mod_one]
    | cons t ts =>
      have hmod : (ts.length + 1 + 1 + 1 + 1 + 1) % 4 = (ts.length + 1) % 4 := by omega
      simpa [bytes, unused, hmod] using ih
  | _ => simp_all [bytes, unused]

theorem sextets_of_mem_bytes {qs : List Nat} {d : List UInt8} (hlt : ∀ q ∈ qs, q < 64)
    (h : d ∈ bytes qs) : sextets d = qs := by
  induction qs using bytes.induct generalizing d with
  | case1 p q r s rest ih =>
    simp only [mem_cons, forall_eq_or_imp] at hlt
    obtain ⟨d, hd, rfl⟩ := map_eq_some_iff.mp h
    simp only [sextets, joined, toNat_ofNat', ih hlt.2.2.2.2 hd, cons.injEq, and_true]
    omega
  | case2 p q r hr | case4 p q hr =>
    obtain rfl := some.inj ((if_pos hr).symm.trans h)
    simp only [mem_cons, forall_eq_or_imp] at hlt
    simp only [sextets, joined, toNat_ofNat', cons.injEq, and_true]
    omega
  | case3 p q r hr | case5 p q hr => cases (if_neg hr).symm.trans h
  | case6 => cases h
  | case7 => cases h; rfl

end Base64
