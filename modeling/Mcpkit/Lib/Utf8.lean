import Mathlib.Data.List.Basic
import Mathlib.Tactic.IntervalCases

/-!
# Well-formed UTF-8

The byte sequences of Table 3-7 of the Unicode Standard, and their relation to
the encoder of the standard library.  A sequence of bytes is well formed exactly
when it is the concatenated encoding of a list of Unicode scalar values.
-/

namespace Utf8

open List Nat UInt8

theorem forall_byte {p : UInt8 → Prop} (h : ∀ n < 256, p (ofNat n)) (b : UInt8) : p b := by
  simpa using h b.toNat b.toNat_lt

/-- The range of an unrestricted second, third or fourth byte. -/
def Tail (b : UInt8) : Prop := 0x80 ≤ b ∧ b ≤ 0xBF

inductive Sequence : List UInt8 → Prop
  | row1 {a : UInt8} (ha : a ≤ 0x7F) : Sequence [a]
  | row2 {a b : UInt8} (ha : 0xC2 ≤ a ∧ a ≤ 0xDF) (hb : Tail b) : Sequence [a, b]
  | row3 {b c : UInt8} (hb : 0xA0 ≤ b ∧ b ≤ 0xBF) (hc : Tail c) : Sequence [0xE0, b, c]
  | row4 {a b c : UInt8} (ha : 0xE1 ≤ a ∧ a ≤ 0xEC) (hb : Tail b) (hc : Tail c) : Sequence [a, b, c]
  | row5 {b c : UInt8} (hb : 0x80 ≤ b ∧ b ≤ 0x9F) (hc : Tail c) : Sequence [0xED, b, c]
  | row6 {a b c : UInt8} (ha : 0xEE ≤ a ∧ a ≤ 0xEF) (hb : Tail b) (hc : Tail c) : Sequence [a, b, c]
  | row7 {b c d : UInt8} (hb : 0x90 ≤ b ∧ b ≤ 0xBF) (hc : Tail c) (hd : Tail d) :
      Sequence [0xF0, b, c, d]
  | row8 {a b c d : UInt8} (ha : 0xF1 ≤ a ∧ a ≤ 0xF3) (hb : Tail b) (hc : Tail c)
      (hd : Tail d) : Sequence [a, b, c, d]
  | row9 {b c d : UInt8} (hb : 0x80 ≤ b ∧ b ≤ 0x8F) (hc : Tail c) (hd : Tail d) :
      Sequence [0xF4, b, c, d]

/-- A byte string is well formed when it is a concatenation of table rows. -/
inductive WellFormed : List UInt8 → Prop
  | nil : WellFormed []
  | append {s t : List UInt8} (hs : Sequence s) (ht : WellFormed t) : WellFormed (s ++ t)

def encode (cs : List Char) : List UInt8 := cs.flatMap String.utf8EncodeChar

@[simp] theorem encode_nil : encode [] = [] := rfl

@[simp] theorem encode_cons (c : Char) (cs : List Char) :
    encode (c :: cs) = String.utf8EncodeChar c ++ encode cs := rfl

@[simp] theorem encode_append (cs ds : List Char) :
    encode (cs ++ ds) = encode cs ++ encode ds :=
  flatMap_append

theorem encode_injective {cs ds : List Char} (h : encode cs = encode ds) : cs = ds := by
  refine String.ofList_injective (String.toByteArray_inj.mp ?_)
  rw [String.toByteArray_ofList, String.toByteArray_ofList]
  exact congrArg List.toByteArray h

variable {a b : UInt8} {n : Nat} {s t : List UInt8} {c : Char}

private theorem ofNat_eq (h : n = a.toNat) : UInt8.ofNat n = a := by rw [h, UInt8.ofNat_toNat]

private theorem exists_encode (n : Nat) (hn : n.isValidChar)
    (hs : ∀ c : Char, c.val.toNat = n → String.utf8EncodeChar c = s) :
    ∃ c : Char, String.utf8EncodeChar c = s :=
  ⟨Char.ofNatAux n hn, hs _ rfl⟩

private theorem encode_two (ha : 0xC2 ≤ a ∧ a ≤ 0xDF) (hb : Tail b) :
    ∃ c : Char, String.utf8EncodeChar c = [a, b] := by
  simp only [Tail, le_iff_toNat_le, reduceToNat] at ha hb
  refine exists_encode ((a.toNat - 192) * 64 + (b.toNat - 128)) (.inl (by omega)) fun e he => ?_
  rw [String.utf8EncodeChar, he, if_neg (by omega), if_pos (by omega), ofNat_eq (a := a) (by omega),
    ofNat_eq (a := b) (by omega)]

private theorem encode_three {c : UInt8} (ha : 0xE0 ≤ a ∧ a ≤ 0xEF) (hb : Tail b) (hc : Tail c)
    (hlow : a = 0xE0 → 0xA0 ≤ b) (hsurrogate : a = 0xED → b ≤ 0x9F) :
    ∃ d : Char, String.utf8EncodeChar d = [a, b, c] := by
  simp only [Tail, UInt8.le_iff_toNat_le, ← UInt8.toNat_inj, UInt8.reduceToNat] at *
  refine exists_encode ((a.toNat - 224) * 4096 + (b.toNat - 128) * 64 + (c.toNat - 128))
    (by unfold Nat.isValidChar; omega) fun e he => ?_
  rw [String.utf8EncodeChar, he, if_neg (by omega), if_neg (by omega), if_pos (by omega),
    ofNat_eq (a := a) (by omega), ofNat_eq (a := b) (by omega), ofNat_eq (a := c) (by omega)]

private theorem encode_four {c d : UInt8} (ha : 0xF0 ≤ a ∧ a ≤ 0xF4) (hb : Tail b) (hc : Tail c)
    (hd : Tail d) (hlow : a = 0xF0 → 0x90 ≤ b) (hhigh : a = 0xF4 → b ≤ 0x8F) :
    ∃ e : Char, String.utf8EncodeChar e = [a, b, c, d] := by
  simp only [Tail, UInt8.le_iff_toNat_le, ← UInt8.toNat_inj, UInt8.reduceToNat] at *
  refine exists_encode ((a.toNat - 240) * 262144 + (b.toNat - 128) * 4096 +
    (c.toNat - 128) * 64 + (d.toNat - 128)) (.inr (by omega)) fun e he => ?_
  rw [String.utf8EncodeChar, he, if_neg (by omega), if_neg (by omega), if_neg (by omega),
    ofNat_eq (a := a) (by omega), ofNat_eq (a := b) (by omega), ofNat_eq (a := c) (by omega),
    ofNat_eq (a := d) (by omega)]

theorem Sequence.exists_char (h : Sequence s) : ∃ c : Char, String.utf8EncodeChar c = s := by
  cases h with
  | row1 ha =>
    rename_i a
    simp only [le_iff_toNat_le, reduceToNat] at ha
    refine exists_encode a.toNat (.inl (by omega)) fun e he => ?_
    rw [String.utf8EncodeChar, he, if_pos ha, UInt8.ofNat_toNat]
  | row2 ha hb => exact encode_two ha hb
  | row3 hb hc | row5 hb hc =>
    exact encode_three (by decide) (by grind [Tail]) hc (by grind) (by grind)
  | row4 ha hb hc | row6 ha hb hc => exact encode_three (by grind) hb hc (by grind) (by grind)
  | row7 hb hc hd | row9 hb hc hd =>
    exact encode_four (by decide) (by grind [Tail]) hc hd (by grind) (by grind)
  | row8 ha hb hc hd => exact encode_four (by grind) hb hc hd (by grind) (by grind)

private theorem ofNat_le {k : UInt8} (h : n ≤ k.toNat) : ofNat n ≤ k := by
  rwa [le_iff_toNat_le, toNat_ofNat_of_lt' (lt_of_le_of_lt h k.toNat_lt)]

private theorem le_ofNat {k : UInt8} (h : k.toNat ≤ n) (hn : n < 256) : k ≤ ofNat n := by
  rwa [le_iff_toNat_le, toNat_ofNat_of_lt' hn]

private theorem between_ofNat {lo hi : UInt8} (hlo : lo.toNat ≤ n) (hhi : n ≤ hi.toNat) :
    lo ≤ ofNat n ∧ ofNat n ≤ hi :=
  ⟨le_ofNat hlo (by have := hi.toNat_lt; omega), ofNat_le hhi⟩

theorem sequence_utf8EncodeChar (c : Char) : Sequence (String.utf8EncodeChar c) := by
  have hvalid := c.valid
  simp only [UInt32.isValidChar, Nat.isValidChar] at hvalid
  have tail (n : Nat) : Tail (ofNat (n % 64 + 128)) :=
    between_ofNat (by simp) (by simp; omega)
  unfold String.utf8EncodeChar
  generalize c.val.toNat = v at hvalid ⊢
  simp only
  split
  · exact .row1 (ofNat_le (by simpa))
  split
  · exact .row2 (between_ofNat (by simp; omega) (by simp; omega)) (tail _)
  split
  · -- the lead byte `v / 4096 + 224` selects the row, and with it the second byte's range
    obtain h | h | h | h | h : v / 4096 = 0 ∨ (1 ≤ v / 4096 ∧ v / 4096 ≤ 12) ∨ v / 4096 = 13 ∨
        v / 4096 = 14 ∨ v / 4096 = 15 := by omega
    · simp only [h]
      exact .row3 (between_ofNat (by simp; omega) (by simp; omega)) (tail _)
    · exact .row4 (between_ofNat (by simp; omega) (by simp; omega)) (tail _) (tail _)
    · simp only [h]
      exact .row5 (between_ofNat (by simp) (by simp; omega)) (tail _)
    · exact .row6 (between_ofNat (by simp; omega) (by simp; omega)) (tail _) (tail _)
    · exact .row6 (between_ofNat (by simp; omega) (by simp; omega)) (tail _) (tail _)
  · obtain h | h | h : v / 262144 = 0 ∨ (1 ≤ v / 262144 ∧ v / 262144 ≤ 3) ∨ v / 262144 = 4 := by
      omega
    · simp only [h]
      exact .row7 (between_ofNat (by simp; omega) (by simp; omega)) (tail _) (tail _)
    · exact .row8 (between_ofNat (by simp; omega) (by simp; omega)) (tail _) (tail _) (tail _)
    · simp only [h]
      exact .row9 (between_ofNat (by simp) (by simp; omega)) (tail _) (tail _)

/-- The scalar value that a sequence denotes: the free bits of its bytes. -/
def scalar : List UInt8 → Nat
  | [a] => a.toNat
  | [a, b] => a.toNat % 32 * 64 + b.toNat % 64
  | [a, b, c] => a.toNat % 16 * 4096 + b.toNat % 64 * 64 + c.toNat % 64
  | [a, b, c, d] => a.toNat % 8 * 262144 + b.toNat % 64 * 4096 + c.toNat % 64 * 64 + d.toNat % 64
  | _ => 0

theorem scalar_utf8EncodeChar (c : Char) : scalar (String.utf8EncodeChar c) = c.toNat := by
  have hvalid := c.valid
  simp only [UInt32.isValidChar, Nat.isValidChar] at hvalid
  unfold String.utf8EncodeChar Char.toNat
  generalize c.val.toNat = v at hvalid ⊢
  simp only
  split_ifs <;> simp only [scalar, toNat_ofNat'] <;> omega

theorem Sequence.exists_lead (h : Sequence s) :
    ∃ a tail, s = a :: tail ∧ (a ≤ 0x7F ∨ 0xC2 ≤ a) ∧ ∀ t ∈ tail, Tail t := by
  cases h with
  | row1 ha => exact ⟨_, _, rfl, .inl ha, forall_mem_nil _⟩
  | row2 ha hb => exact ⟨_, _, rfl, .inr ha.1, by simpa⟩
  | row3 hb hc | row5 hb hc | row7 hb hc hd | row9 hb hc hd =>
    exact ⟨_, _, rfl, .inr (by decide), by grind [Tail]⟩
  | row4 ha hb hc | row6 ha hb hc => exact ⟨_, _, rfl, .inr (by grind), by simp [hb, hc]⟩
  | row8 ha hb hc hd => exact ⟨_, _, rfl, .inr (by grind), by simp [hb, hc, hd]⟩

theorem wellFormed_encode (cs : List Char) : WellFormed (encode cs) := by
  induction cs with
  | nil => exact .nil
  | cons c cs ih => exact .append (sequence_utf8EncodeChar c) ih

theorem wellFormed_iff_exists_encode : WellFormed s ↔ ∃ cs, s = encode cs := by
  constructor
  · intro h
    induction h with
    | nil => exact ⟨[], rfl⟩
    | append hs _ ih =>
      obtain ⟨c, rfl⟩ := hs.exists_char
      obtain ⟨cs, rfl⟩ := ih
      exact ⟨c :: cs, rfl⟩
  · rintro ⟨cs, rfl⟩
    exact wellFormed_encode cs

theorem WellFormed.append_wellFormed (hs : WellFormed s) (ht : WellFormed t) :
    WellFormed (s ++ t) := by
  obtain ⟨cs, rfl⟩ := wellFormed_iff_exists_encode.mp hs
  obtain ⟨ds, rfl⟩ := wellFormed_iff_exists_encode.mp ht
  rw [← encode_append]
  exact wellFormed_encode _

theorem utf8EncodeChar_of_lt (h : c.toNat < 128) :
    String.utf8EncodeChar c = [ofNat c.toNat] := by
  change c.val.toNat < 128 at h
  simp only [String.utf8EncodeChar, Char.toNat]
  rw [if_pos (by omega)]

theorem le_of_mem_utf8EncodeChar (h : 128 ≤ c.toNat) (hb : b ∈ String.utf8EncodeChar c) :
    0x80 ≤ b := by
  change 128 ≤ c.val.toNat at h
  simp only [String.utf8EncodeChar] at hb
  rw [if_neg (by omega)] at hb
  split at hb
  · simp only [mem_cons, not_mem_nil, or_false] at hb
    rcases hb with rfl | rfl <;> exact le_ofNat (by simp) (by omega)
  split at hb
  · simp only [mem_cons, not_mem_nil, or_false] at hb
    rcases hb with rfl | rfl | rfl <;> exact le_ofNat (by simp) (by omega)
  · simp only [mem_cons, not_mem_nil, or_false] at hb
    rcases hb with rfl | rfl | rfl | rfl <;> exact le_ofNat (by simp) (by omega)

theorem wellFormed_of_ascii (hs : ∀ b ∈ s, b < 0x80) : WellFormed s := by
  induction s with
  | nil => exact .nil
  | cons b s ih =>
    have hlt := hs b mem_cons_self
    have hb : b ≤ 0x7F := by grind
    exact .append (.row1 hb) (ih fun b' hb' => hs b' (mem_cons_of_mem _ hb'))

theorem WellFormed.of_cons (h : WellFormed (b :: t)) (hb : b < 0x80) : WellFormed t := by
  generalize hl : b :: t = l at h
  cases h with
  | nil => cases hl
  | append hs ht =>
    -- every other row starts outside ASCII
    cases hs with
    | row1 =>
      cases hl
      exact ht
    | _ =>
      cases hl
      grind

theorem WellFormed.of_append (h : WellFormed (s ++ t)) (hs : ∀ b ∈ s, b < 0x80) : WellFormed t := by
  induction s with
  | nil => exact h
  | cons b s ih =>
    exact ih (WellFormed.of_cons h (hs b mem_cons_self))
      (fun b' hb' => hs b' (mem_cons_of_mem _ hb'))

private theorem mem_zero_utf8EncodeChar : (0 : UInt8) ∈ String.utf8EncodeChar c ↔ c = '\x00' := by
  obtain hc | hc := lt_or_ge c.toNat 128
  · rw [utf8EncodeChar_of_lt hc, mem_singleton, ← Char.toNat_inj, ← UInt8.toNat_inj,
      toNat_ofNat_of_lt' (lt_trans hc (by decide))]
    exact eq_comm
  constructor
  · intro h
    exact absurd (le_of_mem_utf8EncodeChar hc h) (by decide)
  · rintro rfl
    simp at hc

/-- Cutting an encoding at its first zero byte cuts the list at its first `U+0000`. -/
theorem takeWhile_encode (cs : List Char) :
    (encode cs).takeWhile (· ≠ 0) = encode (cs.takeWhile (· ≠ '\x00')) := by
  induction cs with
  | nil => rfl
  | cons c cs ih =>
    rw [encode_cons, takeWhile_cons]
    by_cases hc : c = '\x00'
    · subst hc
      rfl
    have hall : ∀ b ∈ String.utf8EncodeChar c, decide (b ≠ 0) = true := by
      intro b hb
      simp only [decide_eq_true_eq]
      rintro rfl
      exact hc (mem_zero_utf8EncodeChar.mp hb)
    rw [takeWhile_append_of_pos hall, ih]
    simp [hc]

theorem zero_mem_encode {cs : List Char} : (0 : UInt8) ∈ encode cs ↔ '\x00' ∈ cs := by
  simp only [encode, mem_flatMap, mem_zero_utf8EncodeChar]
  simp

end Utf8
