import Mcpkit.Lib.Utf8

/-!
# UTF-8 in the built-in JSON backend

The table-driven automaton that validates bytes, and the encoder of code points.
The automaton accepts exactly the well-formed byte strings: in each of its live
states one byte range leads on, and the ranges are those of the table rows.
-/

namespace Mcpkit.Json

open List Utf8 UInt8 Nat Bool

abbrev Bytes := List UInt8

/-- `k_utf8d`: the class of each byte, then the transitions of each state. -/
def kUtf8d : List Nat :=
  [0, 0, 0, 0, 0, 0, 0, 0, 0, 0, 0, 0, 0, 0, 0, 0, 0, 0, 0, 0, 0, 0, 0, 0, 0, 0, 0, 0, 0, 0, 0, 0,
   0, 0, 0, 0, 0, 0, 0, 0, 0, 0, 0, 0, 0, 0, 0, 0, 0, 0, 0, 0, 0, 0, 0, 0, 0, 0, 0, 0, 0, 0, 0, 0,
   0, 0, 0, 0, 0, 0, 0, 0, 0, 0, 0, 0, 0, 0, 0, 0, 0, 0, 0, 0, 0, 0, 0, 0, 0, 0, 0, 0, 0, 0, 0, 0,
   0, 0, 0, 0, 0, 0, 0, 0, 0, 0, 0, 0, 0, 0, 0, 0, 0, 0, 0, 0, 0, 0, 0, 0, 0, 0, 0, 0, 0, 0, 0, 0,
   1, 1, 1, 1, 1, 1, 1, 1, 1, 1, 1, 1, 1, 1, 1, 1, 9, 9, 9, 9, 9, 9, 9, 9, 9, 9, 9, 9, 9, 9, 9, 9,
   7, 7, 7, 7, 7, 7, 7, 7, 7, 7, 7, 7, 7, 7, 7, 7, 7, 7, 7, 7, 7, 7, 7, 7, 7, 7, 7, 7, 7, 7, 7, 7,
   8, 8, 2, 2, 2, 2, 2, 2, 2, 2, 2, 2, 2, 2, 2, 2, 2, 2, 2, 2, 2, 2, 2, 2, 2, 2, 2, 2, 2, 2, 2, 2,
   10, 3, 3, 3, 3, 3, 3, 3, 3, 3, 3, 3, 3, 4, 3, 3, 11, 6, 6, 6, 5, 8, 8, 8, 8, 8, 8, 8, 8, 8, 8, 8,
   0, 1, 2, 3, 5, 8, 7, 1, 1, 1, 4, 6, 1, 1, 1, 1, 1, 1, 1, 1, 1, 1, 1, 1, 1, 1, 1, 1, 1, 1, 1, 1,
   1, 0, 1, 1, 1, 1, 1, 0, 1, 0, 1, 1, 1, 1, 1, 1, 1, 2, 1, 1, 1, 1, 1, 2, 1, 2, 1, 1, 1, 1, 1, 1,
   1, 1, 1, 1, 1, 1, 1, 2, 1, 1, 1, 1, 1, 1, 1, 1, 1, 2, 1, 1, 1, 1, 1, 1, 1, 2, 1, 1, 1, 1, 1, 1,
   1, 1, 1, 1, 1, 1, 1, 3, 1, 3, 1, 1, 1, 1, 1, 1, 1, 3, 1, 1, 1, 1, 1, 3, 1, 3, 1, 1, 1, 1, 1, 1,
   1, 3, 1, 1, 1, 1, 1, 1, 1, 1, 1, 1, 1, 1, 1, 1]

def utf8Accept : Nat := 0

def utf8Reject : Nat := 1

def utf8Step (state : Nat) (byte : UInt8) : Nat :=
  let type := kUtf8d.getD byte.toNat 0
  kUtf8d.getD (256 + state * 16 + type) 0

def utf8ValidFrom (state : Nat) : Bytes → Bool
  | [] => state == utf8Accept
  | b :: bs =>
    let next := utf8Step state b
    if next == utf8Reject then false else utf8ValidFrom next bs

def utf8Valid (s : Bytes) : Bool := utf8ValidFrom utf8Accept s

def utf8Encode (cp : Nat) : Bytes :=
  if cp < 0x80 then [UInt8.ofNat cp]
  else if cp < 0x800 then [UInt8.ofNat (0xC0 ||| (cp >>> 6)), UInt8.ofNat (0x80 ||| (cp &&& 0x3F))]
  else if cp < 0x10000 then
    [UInt8.ofNat (0xE0 ||| (cp >>> 12)), UInt8.ofNat (0x80 ||| ((cp >>> 6) &&& 0x3F)),
      UInt8.ofNat (0x80 ||| (cp &&& 0x3F))]
  else
    [UInt8.ofNat (0xF0 ||| (cp >>> 18)), UInt8.ofNat (0x80 ||| ((cp >>> 12) &&& 0x3F)),
      UInt8.ofNat (0x80 ||| ((cp >>> 6) &&& 0x3F)), UInt8.ofNat (0x80 ||| (cp &&& 0x3F))]

def firstState (n : Nat) : Nat :=
  if n ≤ 0x7F then 0
  else if n < 0xC2 then 1
  else if n ≤ 0xDF then 2
  else if n = 0xE0 then 4
  else if n = 0xED then 5
  else if n ≤ 0xEF then 3
  else if n = 0xF0 then 6
  else if n ≤ 0xF3 then 7
  else if n = 0xF4 then 8
  else 1

/-- In a live state other than the accepting one, the accepted byte range and
the state it leads to. -/
def continuation : Nat → Nat × Nat × Nat
  | 2 => (0x80, 0xBF, 0)
  | 3 => (0x80, 0xBF, 2)
  | 4 => (0xA0, 0xBF, 2)
  | 5 => (0x80, 0x9F, 2)
  | 6 => (0x90, 0xBF, 3)
  | 7 => (0x80, 0xBF, 3)
  | _ => (0x80, 0x8F, 3)

variable {state : Nat} {s t : Bytes} {b lo : UInt8}

theorem utf8Step_accept : ∀ b : UInt8, utf8Step utf8Accept b = firstState b.toNat :=
  forall_byte (by decide +kernel)

theorem utf8Step_continuation : ∀ b : UInt8, ∀ state < 9, 2 ≤ state →
    utf8Step state b =
      if (continuation state).1 ≤ b.toNat ∧ b.toNat ≤ (continuation state).2.1 then
        (continuation state).2.2
      else utf8Reject :=
  forall_byte (by decide +kernel)

theorem utf8ValidFrom_accept_cons (b : UInt8) (bs : Bytes) :
    utf8ValidFrom utf8Accept (b :: bs) =
      (firstState b.toNat != utf8Reject && utf8ValidFrom (firstState b.toNat) bs) := by
  rw [utf8ValidFrom, utf8Step_accept]
  cases h : firstState b.toNat == utf8Reject <;> simp [bne, h]

theorem utf8ValidFrom_continuation_nil (h : 2 ≤ state) : utf8ValidFrom state [] = false := by
  simp only [utf8ValidFrom, utf8Accept, beq_eq_false_iff_ne]
  omega

theorem utf8ValidFrom_continuation_cons (h : 2 ≤ state) (h' : state < 9) (b : UInt8) (bs : Bytes) :
    utf8ValidFrom state (b :: bs) =
      (decide ((continuation state).1 ≤ b.toNat ∧ b.toNat ≤ (continuation state).2.1) &&
        utf8ValidFrom (continuation state).2.2 bs) := by
  have hnext : (continuation state).2.2 ≠ utf8Reject := by
    unfold continuation utf8Reject
    split <;> decide
  rw [utf8ValidFrom, utf8Step_continuation b state h' h]
  by_cases hb : (continuation state).1 ≤ b.toNat ∧ b.toNat ≤ (continuation state).2.1
  · simp [hb, hnext]
  · simp [hb]

def InRange (state : Nat) (b : UInt8) : Prop :=
  (continuation state).1 ≤ b.toNat ∧ b.toNat ≤ (continuation state).2.1

theorem utf8ValidFrom_continuation {q : Nat} (h : 2 ≤ q) (h' : q < 9)
    (hs : utf8ValidFrom q s = true) :
    ∃ b t, s = b :: t ∧ InRange q b ∧ utf8ValidFrom (continuation q).2.2 t = true := by
  cases s with
  | nil => simp [utf8ValidFrom_continuation_nil h] at hs
  | cons b t =>
    rw [utf8ValidFrom_continuation_cons h h', and_eq_true, decide_eq_true_eq] at hs
    exact ⟨b, t, rfl, hs⟩

theorem utf8ValidFrom_cons_iff (h : 2 ≤ state) (h' : state < 9) (hb : InRange state b) :
    utf8ValidFrom state (b :: t) = true ↔ utf8ValidFrom (continuation state).2.2 t = true := by
  rw [utf8ValidFrom_continuation_cons h h', and_eq_true, decide_eq_true_eq]
  exact and_iff_right hb

theorem utf8Valid_cons :
    utf8Valid (b :: s) = true ↔
      firstState b.toNat ≠ utf8Reject ∧ utf8ValidFrom (firstState b.toNat) s = true := by
  rw [utf8Valid, utf8ValidFrom_accept_cons, and_eq_true, bne_iff_ne]

private theorem utf8Valid_cons_of_first {q : Nat} (hb : firstState b.toNat = q) (hq : q ≠ 1) :
    utf8Valid (b :: s) = true ↔ utf8ValidFrom q s = true := by
  rw [utf8Valid_cons, hb]
  exact and_iff_right hq

private theorem inRange {hi : UInt8} (h : lo ≤ b ∧ b ≤ hi) (hlo : lo.toNat = (continuation state).1)
    (hhi : hi.toNat = (continuation state).2.1) : InRange state b := by
  rw [InRange, ← hlo, ← hhi]
  exact ⟨le_iff_toNat_le.mp h.1, le_iff_toNat_le.mp h.2⟩

private theorem firstState_of : ∀ a : UInt8, (a ≤ 0x7F → firstState a.toNat = 0) ∧
    (0xC2 ≤ a ∧ a ≤ 0xDF → firstState a.toNat = 2) ∧
    (0xE1 ≤ a ∧ a ≤ 0xEC → firstState a.toNat = 3) ∧
    (0xEE ≤ a ∧ a ≤ 0xEF → firstState a.toNat = 3) ∧
    (0xF1 ≤ a ∧ a ≤ 0xF3 → firstState a.toNat = 7) :=
  forall_byte (by decide +kernel)

theorem utf8Valid_sequence_append (h : Sequence s) :
    utf8Valid (s ++ t) = true ↔ utf8Valid t = true := by
  have tail {b : UInt8} (hb : Tail b) (r : Bytes) :
      utf8ValidFrom 2 (b :: r) = true ↔ utf8Valid r = true :=
    utf8ValidFrom_cons_iff (by decide) (by decide) (inRange hb rfl rfl)
  have tails {b c : UInt8} (hb : Tail b) (hc : Tail c) (r : Bytes) :
      utf8ValidFrom 3 (b :: c :: r) = true ↔ utf8Valid r = true :=
    (utf8ValidFrom_cons_iff (by decide) (by decide) (inRange hb rfl rfl)).trans (tail hc r)
  have first {a : UInt8} := firstState_of a
  cases h with
  | row1 ha => exact utf8Valid_cons_of_first (first.1 ha) (by decide)
  | row2 ha hb => exact (utf8Valid_cons_of_first (first.2.1 ha) (by decide)).trans (tail hb t)
  | row3 hb hc | row5 hb hc =>
    refine (utf8Valid_cons_of_first rfl (by decide)).trans ?_
    exact (utf8ValidFrom_cons_iff (by decide) (by decide) (inRange hb rfl rfl)).trans (tail hc t)
  | row4 ha hb hc =>
    exact (utf8Valid_cons_of_first (first.2.2.1 ha) (by decide)).trans (tails hb hc t)
  | row6 ha hb hc =>
    exact (utf8Valid_cons_of_first (first.2.2.2.1 ha) (by decide)).trans (tails hb hc t)
  | row7 hb hc hd | row9 hb hc hd =>
    refine (utf8Valid_cons_of_first rfl (by decide)).trans ?_
    exact (utf8ValidFrom_cons_iff (by decide) (by decide) (inRange hb rfl rfl)).trans
      (tails hc hd t)
  | row8 ha hb hc hd =>
    refine (utf8Valid_cons_of_first (first.2.2.2.2 ha) (by decide)).trans ?_
    exact (utf8ValidFrom_cons_iff (by decide) (by decide) (inRange hb rfl rfl)).trans
      (tails hc hd t)

private theorem between {hi : UInt8} (h : InRange state b) (hlo : lo.toNat = (continuation state).1)
    (hhi : hi.toNat = (continuation state).2.1) : lo ≤ b ∧ b ≤ hi := by
  rw [InRange, ← hlo, ← hhi] at h
  exact ⟨le_iff_toNat_le.mpr h.1, le_iff_toNat_le.mpr h.2⟩

private theorem one_tail (hs : utf8ValidFrom 2 s = true) :
    ∃ b t, s = b :: t ∧ Tail b ∧ utf8Valid t = true := by
  obtain ⟨b, t, rfl, hb, ht⟩ := utf8ValidFrom_continuation (by decide) (by decide) hs
  exact ⟨b, t, rfl, between hb rfl rfl, ht⟩

private theorem two_tails (hs : utf8ValidFrom 3 s = true) :
    ∃ b c t, s = b :: c :: t ∧ Tail b ∧ Tail c ∧ utf8Valid t = true := by
  obtain ⟨b, t, rfl, hb, ht⟩ := utf8ValidFrom_continuation (by decide) (by decide) hs
  obtain ⟨c, t, rfl, hc, ht⟩ := one_tail ht
  exact ⟨b, c, t, rfl, between hb rfl rfl, hc, ht⟩

private theorem firstState_cases : ∀ b : UInt8, firstState b.toNat = 1 ∨
    (b ≤ 0x7F ∧ firstState b.toNat = 0) ∨ ((0xC2 ≤ b ∧ b ≤ 0xDF) ∧ firstState b.toNat = 2) ∨
    (b = 0xE0 ∧ firstState b.toNat = 4) ∨ ((0xE1 ≤ b ∧ b ≤ 0xEC) ∧ firstState b.toNat = 3) ∨
    (b = 0xED ∧ firstState b.toNat = 5) ∨ ((0xEE ≤ b ∧ b ≤ 0xEF) ∧ firstState b.toNat = 3) ∨
    (b = 0xF0 ∧ firstState b.toNat = 6) ∨ ((0xF1 ≤ b ∧ b ≤ 0xF3) ∧ firstState b.toNat = 7) ∨
    (b = 0xF4 ∧ firstState b.toNat = 8) :=
  forall_byte (by decide +kernel)

theorem exists_sequence_of_utf8Valid {bs : Bytes} (h : utf8Valid (b :: bs) = true) :
    ∃ s t, b :: bs = s ++ t ∧ Sequence s ∧ utf8Valid t = true := by
  obtain ⟨hne, hbs⟩ := utf8Valid_cons.mp h
  obtain hs | ⟨ha, hs⟩ | ⟨ha, hs⟩ | ⟨rfl, hs⟩ | ⟨ha, hs⟩ | ⟨rfl, hs⟩ | ⟨ha, hs⟩ | ⟨rfl, hs⟩ |
    ⟨ha, hs⟩ | ⟨rfl, hs⟩ := firstState_cases b <;> rw [hs] at hbs
  · exact absurd hs hne
  · exact ⟨[b], bs, rfl, .row1 ha, hbs⟩
  · obtain ⟨c, t, rfl, hc, ht⟩ := one_tail hbs
    exact ⟨[b, c], t, rfl, .row2 ha hc, ht⟩
  · obtain ⟨c, t, rfl, hc, ht⟩ := utf8ValidFrom_continuation (by decide) (by decide) hbs
    obtain ⟨d, t, rfl, hd, ht⟩ := one_tail ht
    exact ⟨_, t, rfl, .row3 (between hc rfl rfl) hd, ht⟩
  · obtain ⟨c, d, t, rfl, hc, hd, ht⟩ := two_tails hbs
    exact ⟨[b, c, d], t, rfl, .row4 ha hc hd, ht⟩
  · obtain ⟨c, t, rfl, hc, ht⟩ := utf8ValidFrom_continuation (by decide) (by decide) hbs
    obtain ⟨d, t, rfl, hd, ht⟩ := one_tail ht
    exact ⟨_, t, rfl, .row5 (between hc rfl rfl) hd, ht⟩
  · obtain ⟨c, d, t, rfl, hc, hd, ht⟩ := two_tails hbs
    exact ⟨[b, c, d], t, rfl, .row6 ha hc hd, ht⟩
  · obtain ⟨c, t, rfl, hc, ht⟩ := utf8ValidFrom_continuation (by decide) (by decide) hbs
    obtain ⟨d, e, t, rfl, hd, he, ht⟩ := two_tails ht
    exact ⟨_, t, rfl, .row7 (between hc rfl rfl) hd he, ht⟩
  · obtain ⟨c, t, rfl, hc, ht⟩ := utf8ValidFrom_continuation (by decide) (by decide) hbs
    obtain ⟨d, e, t, rfl, hd, he, ht⟩ := two_tails ht
    exact ⟨[b, c, d, e], t, rfl, .row8 ha (between hc rfl rfl) hd he, ht⟩
  · obtain ⟨c, t, rfl, hc, ht⟩ := utf8ValidFrom_continuation (by decide) (by decide) hbs
    obtain ⟨d, e, t, rfl, hd, he, ht⟩ := two_tails ht
    exact ⟨_, t, rfl, .row9 (between hc rfl rfl) hd he, ht⟩

theorem wellFormed_of_utf8Valid (h : utf8Valid s = true) : WellFormed s := by
  -- every row is nonempty, so the rest is shorter
  induction hn : s.length using Nat.strong_induction_on generalizing s with
  | _ n ih =>
    cases s with
    | nil => exact .nil
    | cons b bs =>
      obtain ⟨r, t, he, hr, ht⟩ := exists_sequence_of_utf8Valid h
      rw [he]
      refine .append hr (ih t.length ?_ ht rfl)
      rw [← hn, he, length_append]
      cases hr <;> simp

theorem utf8Valid_iff : utf8Valid s = true ↔ WellFormed s := by
  constructor
  · exact wellFormed_of_utf8Valid
  intro h
  induction h with
  | nil => rfl
  | append hs _ ih => exact (utf8Valid_sequence_append hs).mpr ih

theorem wellFormed_of_append (hs : WellFormed s) (h : WellFormed (s ++ t)) :
    WellFormed t := by
  rw [← utf8Valid_iff] at h ⊢
  induction hs with
  | nil => exact h
  | append hr _ ih =>
    rw [append_assoc, utf8Valid_sequence_append hr] at h
    exact ih h

private theorem or_eq_add {i a n : Nat} (h : n < 2 ^ i) : 2 ^ i * a ||| n = n + 2 ^ i * a := by
  rw [← two_pow_add_eq_or_of_lt h, add_comm]

private theorem or_tail (n : Nat) : 0x80 ||| (n &&& 0x3F) = n % 64 + 128 := by
  rw [show n &&& 0x3F = n % 64 from and_two_pow_sub_one_eq_mod n 6]
  exact or_eq_add (i := 7) (a := 1) (by omega)

theorem utf8Encode_char (c : Char) : utf8Encode c.toNat = String.utf8EncodeChar c := by
  have hvalid := c.valid
  simp only [UInt32.isValidChar, Nat.isValidChar] at hvalid
  unfold utf8Encode String.utf8EncodeChar Char.toNat
  generalize c.val.toNat = v at hvalid ⊢
  simp only [or_tail, shiftRight_eq_div_pow]
  by_cases h1 : v < 0x80
  · rw [if_pos h1, if_pos (by omega)]
  by_cases h2 : v < 0x800
  · rw [if_neg h1, if_pos h2, if_neg (by omega), if_pos (by omega),
      show 0xC0 ||| v / 2 ^ 6 = v / 64 % 32 + 192 from
        (or_eq_add (i := 6) (a := 3) (by omega)).trans (by omega)]
  by_cases h3 : v < 0x10000
  · rw [if_neg h1, if_neg h2, if_pos h3, if_neg (by omega), if_neg (by omega), if_pos (by omega),
      show 0xE0 ||| v / 2 ^ 12 = v / 4096 % 16 + 224 from
        (or_eq_add (i := 5) (a := 7) (by omega)).trans (by omega)]
  · rw [if_neg h1, if_neg h2, if_neg h3, if_neg (by omega), if_neg (by omega), if_neg (by omega),
      show 0xF0 ||| v / 2 ^ 18 = v / 262144 % 8 + 240 from
        (or_eq_add (i := 4) (a := 15) (by omega)).trans (by omega)]

/-- The automaton accepts exactly the concatenations of table rows, and the
encoder writes the one row that denotes its scalar value. -/
theorem utf8Valid_iff_and_utf8Encode_iff :
    (∀ s, utf8Valid s = true ↔ WellFormed s) ∧
      ∀ (c : Char) (s : Bytes), s = utf8Encode c.toNat ↔ Sequence s ∧ scalar s = c.toNat := by
  refine ⟨fun _ => utf8Valid_iff, fun c s => ⟨?_, fun ⟨hs, hc⟩ => ?_⟩⟩
  · rintro rfl
    rw [utf8Encode_char]
    exact ⟨sequence_utf8EncodeChar c, scalar_utf8EncodeChar c⟩
  · obtain ⟨d, rfl⟩ := hs.exists_char
    rw [← hc, scalar_utf8EncodeChar, utf8Encode_char]

end Mcpkit.Json
