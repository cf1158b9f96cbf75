import Mcpkit.Json.Parser
import Mcpkit.Lib.JsonText

/-!
# Whitespace, numbers and strings

The parser's scanners against the productions of the grammar.  A scanner reads as far as it can, so
the rest must not prolong a derivable prefix: the side condition `Delimits` of the number lemma.
The loop over a derivable string body returns the encoding of the denoted scalar values, or fails
when a surrogate escape is not part of a pair.
-/

namespace Mcpkit.Json

open List JsonText Utf8 Nat UInt8
open Bool (and_eq_true)
open Option (bind_eq_bind bind_eq_some_iff bind_some)

open JsonText (Ws Digits IntPart FracPart ExpPart Number Elem Element StringBody denote)

variable {rest ps s t r buf bs : Bytes} {p : UInt8 → Bool} {b : UInt8} {x u : Nat} {es : List Elem}

theorem matchLit_eq_some_iff {lit : Bytes} : matchLit ps lit = some rest ↔ ps = lit ++ rest := by
  unfold matchLit
  constructor
  · intro h
    split at h
    · rename_i hpre
      cases h
      obtain ⟨t, rfl⟩ := isPrefixOf_iff_prefix.mp hpre
      rw [drop_left]
    · cases h
  · rintro rfl
    rw [if_pos ( isPrefixOf_iff_prefix.mpr (prefix_append lit rest)), drop_left]

theorem skipWs_eq (ps : Bytes) : skipWs ps = ps.dropWhile isWs := rfl

/-- The first byte, if any, satisfies a predicate. -/
def HeadIs (p : UInt8 → Bool) (s : Bytes) : Prop := ∀ b ∈ s.head?, p b = true

@[simp] theorem headIs_nil (p : UInt8 → Bool) : HeadIs p [] := by simp [HeadIs]

@[simp] theorem headIs_cons : HeadIs p (b :: s) ↔ p b = true := by simp [HeadIs]

theorem dropWhile_of_all (hs : ∀ b ∈ s, p b = true) (ht : HeadIs (fun b => !p b) t) :
    (s ++ t).dropWhile p = t := by
  rw [dropWhile_append_of_pos hs]
  cases t with
  | nil => rfl
  | cons b t =>
    rw [headIs_cons, Bool.not_eq_true'] at ht
    rw [dropWhile_cons_of_neg (by simp [ht])]

theorem takeWhile_of_all (hs : ∀ b ∈ s, p b = true) (ht : HeadIs (fun b => !p b) t) :
    (s ++ t).takeWhile p = s := by
  rw [takeWhile_append_of_pos hs]
  cases t with
  | nil => rw [takeWhile_nil, append_nil]
  | cons b t =>
    rw [headIs_cons, Bool.not_eq_true'] at ht
    rw [takeWhile_cons_of_neg (by simp [ht]), append_nil]

theorem dropWhile_cut (p : UInt8 → Bool) (s : Bytes) :
    ∃ w, s = w ++ s.dropWhile p ∧ (∀ b ∈ w, p b = true) ∧
      HeadIs (fun b => !p b) (s.dropWhile p) := by
  refine ⟨s.takeWhile p, takeWhile_append_dropWhile.symm, ?_, ?_⟩
  · intro b hb
    exact mem_takeWhile_imp hb
  intro b hb
  have h := head?_dropWhile_not p s
  simp only [Option.mem_def] at hb
  rw [hb] at h
  simpa using h

theorem skipWs_append {w : Bytes} (hw : Ws w) (ht : HeadIs (fun b => !isWs b) t) :
    skipWs (w ++ t) = t :=
  dropWhile_of_all hw ht

theorem skipWs_cut (ps : Bytes) : ∃ w, ps = w ++ skipWs ps ∧ Ws w :=
  let ⟨w, h, hw, _⟩ := dropWhile_cut isWs ps
  ⟨w, h, hw⟩

/-- The rest of the input cannot prolong a number. -/
def Delimits (b : UInt8) : Bool := !isDigit b && b != 0x2E && b != 0x65 && b != 0x45

private theorem scanDigits1_append {ds : Bytes} (hds : Digits ds)
    (ht : HeadIs (fun b => !isDigit b) t) : scanDigits1 (ds ++ t) = some t := by
  have h : scanDigits (ds ++ t) = t := dropWhile_of_all hds.2 ht
  have hlen : 0 < ds.length := length_pos_iff.mpr hds.1
  rw [scanDigits1, h, if_neg]
  simp only [length_append, beq_iff_eq]
  omega

private theorem scanDigits1_eq_some (h : scanDigits1 s = some r) :
    ∃ ds, s = ds ++ r ∧ Digits ds := by
  unfold scanDigits1 at h
  split at h
  · cases h
  rename_i hne
  obtain ⟨ds, hs, hds, -⟩ := dropWhile_cut isDigit s
  cases h
  refine ⟨ds, hs, ?_, hds⟩
  rintro rfl
  exact hne (by simpa [scanDigits] using congrArg List.length hs.symm)

variable {e f buf' : Bytes} {n v y z w fuel : Nat} {a c d : UInt8}

private theorem headIs_exp (he : ExpPart e) (hlow : p 0x65 = true) (hhigh : p 0x45 = true)
    (ht : HeadIs p t) : HeadIs p (e ++ t) := by
  cases he with
  | absent => exact ht
  | present he _ _ =>
    rw [cons_append, headIs_cons]
    rcases he with rfl | rfl
    · exact hlow
    · exact hhigh

private theorem headIs_frac (hf : FracPart f) (hdot : p 0x2E = true) (ht : HeadIs p t) :
    HeadIs p (f ++ t) := by
  cases hf with
  | absent => exact ht
  | present _ => exact headIs_cons.mpr hdot

private theorem headIs_mono {q : UInt8 → Bool} (h : ∀ b, p b = true → q b = true)
    (ht : HeadIs p t) : HeadIs q t := fun b hb => h b (ht b hb)

private theorem isDigit_of_nonzero : ∀ {b : UInt8}, 0x31 ≤ b ∧ b ≤ 0x39 →
    isDigit b = true ∧ b ≠ 0x30 ∧ b ≠ 0x2D :=
  @(forall_byte (by decide +kernel))

private theorem scanInt_append {i : Bytes} (hi : IntPart i) (ht : HeadIs (fun b => !isDigit b) t) :
    scanInt (i ++ t) = some t := by
  cases hi with
  | zero => rfl
  | @nonzero b ds hb hds =>
    obtain ⟨hd, hne, -⟩ := isDigit_of_nonzero hb
    have hall : ∀ d ∈ b :: ds, isDigit d = true := forall_mem_cons.mpr ⟨hd, hds⟩
    rw [cons_append, scanInt, if_neg (by simp [hne]), if_pos (by simp [hb.1, hb.2]), ← cons_append]
    exact congrArg some (dropWhile_of_all hall ht)

private theorem scanFrac_append (hf : FracPart f)
    (ht : HeadIs (fun b => !isDigit b && b != 0x2E) t) : scanFrac (f ++ t) = some t := by
  cases hf with
  | absent =>
    cases t with
    | nil => rfl
    | cons b t =>
      rw [headIs_cons, and_eq_true, bne_iff_ne] at ht
      rw [nil_append, scanFrac, if_neg (by simpa using ht.2)]
  | present hds =>
    rw [cons_append, scanFrac, if_pos (by decide)]
    refine scanDigits1_append hds (headIs_mono ?_ ht)
    intro b hb
    exact (and_eq_true _ _ ▸ hb).1

private theorem scanExp_append (he : ExpPart e) (ht : HeadIs Delimits t) :
    scanExp (e ++ t) = some t := by
  cases he with
  | absent =>
    cases t with
    | nil => rfl
    | cons b t =>
      simp only [headIs_cons, Delimits, and_eq_true, bne_iff_ne] at ht
      rw [nil_append, scanExp, if_neg (by simp [ht.1.2, ht.2])]
  | @present c sign ds hc hsign hds =>
    have hdigits : scanDigits1 (ds ++ t) = some t := by
      refine scanDigits1_append hds (headIs_mono ?_ ht)
      intro b hb
      simp only [Delimits, and_eq_true] at hb
      exact hb.1.1.1
    have hletter : (c == 0x65 || c == 0x45) = true := by rcases hc with rfl | rfl <;> rfl
    rw [cons_append, scanExp, if_pos hletter]
    rcases hsign with rfl | rfl | rfl
    · -- without a sign the first byte is a digit, which is no sign
      obtain ⟨d, ds, rfl⟩ := exists_cons_of_ne_nil hds.1
      have hd := hds.2 d mem_cons_self
      have hnosign : (d == 0x2B || d == 0x2D) = false := by
        simp only [Bool.or_eq_false_iff, beq_eq_false_iff_ne]
        constructor <;> rintro rfl <;> exact absurd hd (by decide)
      rw [nil_append, cons_append, scanExpSign, if_neg (by simp [hnosign]), ← cons_append, hdigits]
    · exact hdigits
    · exact hdigits

theorem scanNumber_append (hs : Number s) (ht : HeadIs Delimits t) :
    scanNumber (s ++ t) = some s.length := by
  cases hs with
  | @intro minus int frac exp hminus hint hfrac hexp =>
    have hdot : HeadIs (fun b => !isDigit b && b != 0x2E) (exp ++ t) := by
      refine headIs_exp hexp rfl rfl (headIs_mono ?_ ht)
      intro b hb
      simp only [Delimits, and_eq_true] at hb ⊢
      exact hb.1.1
    have hdigit : HeadIs (fun b => !isDigit b) (frac ++ (exp ++ t)) := by
      refine headIs_frac hfrac rfl (headIs_mono ?_ hdot)
      intro b hb
      simp only [and_eq_true] at hb
      exact hb.1
    have hscan : scanMinus (minus ++ (int ++ (frac ++ exp)) ++ t) =
        int ++ (frac ++ (exp ++ t)) := by
      rcases hminus with rfl | rfl
      · -- the first byte of the integer part is a digit
        cases hint with
        | zero => simp [scanMinus]
        | nonzero hb _ => simp [scanMinus, (isDigit_of_nonzero hb).2.2]
      · simp [scanMinus]
    simp only [scanNumber, hscan, scanInt_append hint hdigit, scanFrac_append hfrac hdot,
      scanExp_append hexp ht, bind_eq_bind, bind_some, Option.pure_def]
    simp only [length_append, Option.some.injEq]
    omega

private theorem scanInt_eq_some (h : scanInt s = some r) : ∃ i, s = i ++ r ∧ IntPart i := by
  cases s with
  | nil => cases h
  | cons b s =>
    rw [scanInt] at h
    split at h
    · rename_i hb
      cases h
      rw [beq_iff_eq] at hb
      subst hb
      exact ⟨[0x30], rfl, .zero⟩
    split at h
    · rename_i hb
      simp only [and_eq_true, decide_eq_true_eq] at hb
      obtain ⟨ds, hs, hds, -⟩ := dropWhile_cut isDigit s
      rw [scanDigits, dropWhile_cons_of_pos (isDigit_of_nonzero hb).1] at h
      cases h
      exact ⟨b :: ds, congrArg (b :: ·) hs, .nonzero hb hds⟩
    · cases h

private theorem scanFrac_eq_some (h : scanFrac s = some r) : ∃ f, s = f ++ r ∧ FracPart f := by
  cases s with
  | nil =>
    cases h
    exact ⟨[], rfl, .absent⟩
  | cons b s =>
    rw [scanFrac] at h
    split at h
    · rename_i hb
      rw [beq_iff_eq] at hb
      subst hb
      obtain ⟨ds, rfl, hds⟩ := scanDigits1_eq_some h
      exact ⟨0x2E :: ds, rfl, .present hds⟩
    · cases h
      exact ⟨[], rfl, .absent⟩

private theorem scanExpSign_cut (s : Bytes) :
    ∃ sign, s = sign ++ scanExpSign s ∧ (sign = [] ∨ sign = [0x2B] ∨ sign = [0x2D]) := by
  cases s with
  | nil => exact ⟨[], rfl, .inl rfl⟩
  | cons b s =>
    rw [scanExpSign]
    split
    · rename_i hb
      simp only [Bool.or_eq_true, beq_iff_eq] at hb
      rcases hb with rfl | rfl
      · exact ⟨[0x2B], rfl, .inr (.inl rfl)⟩
      · exact ⟨[0x2D], rfl, .inr (.inr rfl)⟩
    · exact ⟨[], rfl, .inl rfl⟩

private theorem scanExp_eq_some (h : scanExp s = some r) : ∃ e, s = e ++ r ∧ ExpPart e := by
  cases s with
  | nil =>
    cases h
    exact ⟨[], rfl, .absent⟩
  | cons b s =>
    rw [scanExp] at h
    split at h
    · rename_i hb
      simp only [Bool.or_eq_true, beq_iff_eq] at hb
      obtain ⟨sign, hs, hsign⟩ := scanExpSign_cut s
      obtain ⟨ds, hds, hdigits⟩ := scanDigits1_eq_some h
      refine ⟨b :: (sign ++ ds), ?_, .present hb hsign hdigits⟩
      rw [cons_append, append_assoc, ← hds, ← hs]
    · cases h
      exact ⟨[], rfl, .absent⟩

private theorem scanMinus_cut (s : Bytes) :
    ∃ minus, s = minus ++ scanMinus s ∧ (minus = [] ∨ minus = [0x2D]) := by
  cases s with
  | nil => exact ⟨[], rfl, .inl rfl⟩
  | cons b s =>
    rw [scanMinus]
    split
    · rename_i hb
      rw [beq_iff_eq] at hb
      subst hb
      exact ⟨[0x2D], rfl, .inr rfl⟩
    · exact ⟨[], rfl, .inl rfl⟩

theorem scanNumber_eq_some {p : Bytes} (h : scanNumber p = some n) :
    ∃ s t, p = s ++ t ∧ s.length = n ∧ Number s := by
  simp only [scanNumber, bind_eq_bind, bind_eq_some_iff, Option.pure_def, Option.some.injEq] at h
  obtain ⟨s₁, h₁, s₂, h₂, s₃, h₃, rfl⟩ := h
  obtain ⟨minus, hp, hminus⟩ := scanMinus_cut p
  obtain ⟨int, hs₁, hint⟩ := scanInt_eq_some h₁
  obtain ⟨frac, hs₂, hfrac⟩ := scanFrac_eq_some h₂
  obtain ⟨exp, hs₃, hexp⟩ := scanExp_eq_some h₃
  have hcut : p = minus ++ (int ++ (frac ++ exp)) ++ s₃ := by
    rw [hp, hs₁, hs₂, hs₃]
    simp
  refine ⟨minus ++ (int ++ (frac ++ exp)), s₃, hcut, ?_, .intro hminus hint hfrac hexp⟩
  have := congrArg List.length hcut
  rw [length_append] at this
  omega

theorem hexDigit_eq (c : UInt8) : hexDigit c = hexValue c := by simp [hexDigit, hexValue]

private theorem shift_or (h : x < 16) : v <<< 4 ||| x = v * 16 + x := by
  rw [shiftLeft_eq, mul_comm, ← two_pow_add_eq_or_of_lt (i := 4) h]

theorem parseHex4_cons (ha : hexValue a = some x) (hb : hexValue b = some y)
    (hc : hexValue c = some z) (hd : hexValue d = some w) (ps : Bytes) :
    parseHex4 (a :: b :: c :: d :: ps) = some (((x * 16 + y) * 16 + z) * 16 + w, ps) := by
  simp only [parseHex4, hexDigit_eq, ha, hb, hc, hd, bind_eq_bind, bind_some,
    Option.pure_def, shift_or (hexValue_lt ha), shift_or (hexValue_lt hb),
    shift_or (hexValue_lt hc), shift_or (hexValue_lt hd)]
  simp

theorem parseHex4_eq_some (h : parseHex4 ps = some (v, rest)) :
    ∃ a b c d x y z w, ps = a :: b :: c :: d :: rest ∧ hexValue a = some x ∧
      hexValue b = some y ∧ hexValue c = some z ∧
      hexValue d = some w ∧ v = ((x * 16 + y) * 16 + z) * 16 + w := by
  unfold parseHex4 at h
  split at h
  · rename_i a b c d ps
    simp only [hexDigit_eq, bind_eq_bind, bind_eq_some_iff] at h
    obtain ⟨x, ha, y, hb, z, hc, w, hd, hv⟩ := h
    have hcons := parseHex4_cons ha hb hc hd ps
    simp only [parseHex4, hexDigit_eq, ha, hb, hc, hd, bind_eq_bind, bind_some] at hcons
    rw [hcons] at hv
    cases hv
    exact ⟨a, b, c, d, x, y, z, w, rfl, ha, hb, hc, hd, rfl⟩
  · cases h

private theorem ofNat_utf8Encode (h : n.isValidChar) :
    utf8Encode n = String.utf8EncodeChar (Char.ofNat n) := by
  have hval : (Char.ofNatAux n h).toNat = n := rfl
  rw [← utf8Encode_char, Char.ofNat, dif_pos h, hval]

private theorem unit_lt (ha : hexValue a = some x) (hb : hexValue b = some y)
    (hc : hexValue c = some z) (hd : hexValue d = some w) :
    ((x * 16 + y) * 16 + z) * 16 + w < 0x10000 := by
  have := hexValue_lt ha
  have := hexValue_lt hb
  have := hexValue_lt hc
  have := hexValue_lt hd
  omega

section

variable (hhex : parseHex4 ps = some (u, rest))
include hhex

theorem parseUnicodeEscape_scalar (hlt : u < 0x10000)
    (hhigh : isHighSurrogate u = false) (hlow : isLowSurrogate u = false) :
    parseUnicodeEscape ps buf = some (buf ++ String.utf8EncodeChar (Char.ofNat u), rest) := by
  have hvalid : u.isValidChar := by
    simp only [isHighSurrogate, isLowSurrogate, Bool.and_eq_false_iff,
      decide_eq_false_iff_not] at hhigh hlow
    unfold Nat.isValidChar
    omega
  unfold isHighSurrogate at hhigh
  unfold isLowSurrogate at hlow
  simp only [parseUnicodeEscape, hhex, bind_eq_bind, bind_some, hhigh, hlow,
    Bool.false_eq_true, if_false]
  rw [if_neg (by omega), ofNat_utf8Encode hvalid]

theorem parseUnicodeEscape_low
    (hhigh : isHighSurrogate u = false) (hlow : isLowSurrogate u = true) :
    parseUnicodeEscape ps buf = none := by
  unfold isHighSurrogate at hhigh
  unfold isLowSurrogate at hlow
  simp only [parseUnicodeEscape, hhex, bind_eq_bind, bind_some, hhigh, hlow,
    Bool.false_eq_true, if_false, if_true]

theorem parseUnicodeEscape_high
    (hhigh : isHighSurrogate u = true) (hrest : ∀ ps, rest ≠ 0x5C :: 0x75 :: ps) :
    parseUnicodeEscape ps buf = none := by
  unfold isHighSurrogate at hhigh
  simp only [parseUnicodeEscape, hhex, bind_eq_bind, bind_some, hhigh, if_true]

end

private theorem shiftLeft_ten (n : Nat) : n <<< 10 = n * 0x400 := by rw [shiftLeft_eq]

theorem parseUnicodeEscape_pair {ps' : Bytes} {lo : Nat}
    (hhex : parseHex4 ps = some (u, 0x5C :: 0x75 :: ps'))
    (hhigh : isHighSurrogate u = true) (hhex' : parseHex4 ps' = some (lo, rest)) :
    parseUnicodeEscape ps buf =
      if isLowSurrogate lo then
        some (buf ++ String.utf8EncodeChar (Char.ofNat (pairValue u lo)), rest)
      else none := by
  have hrange := hhigh
  simp only [isHighSurrogate, and_eq_true, decide_eq_true_eq] at hrange
  unfold isHighSurrogate at hhigh
  simp only [parseUnicodeEscape, hhex, hhex', bind_eq_bind, bind_some, hhigh, if_true]
  by_cases hlow : 0xDC00 ≤ lo ∧ lo ≤ 0xDFFF
  · have hcp : 0x10000 + ((u - 0xD800) <<< 10) + (lo - 0xDC00) = pairValue u lo := by
      unfold pairValue
      rw [shiftLeft_ten]
    have hvalid : (pairValue u lo).isValidChar := by
      unfold pairValue Nat.isValidChar
      omega
    rw [if_neg (by simp; omega), hcp, if_neg (by unfold pairValue; omega),
      if_pos (by simp [isLowSurrogate, hlow]), ofNat_utf8Encode hvalid]
  · rw [if_pos (by simp; omega), if_neg (by simp [isLowSurrogate]; omega)]

def RawByte (b : UInt8) : Prop := b ≠ 0x22 ∧ b ≠ 0x5C ∧ ¬b < 0x20

theorem parseStringLoop_rawByte (hb : RawByte b) (fuel : Nat) (ps buf : Bytes) :
    parseStringLoop (fuel + 1) (b :: ps) buf = parseStringLoop fuel ps (buf ++ [b]) := by
  rw [parseStringLoop.eq_def]
  dsimp only
  rw [if_neg (by simpa using hb.1), if_neg (by simpa using hb.2.1), if_neg hb.2.2]

theorem parseStringLoop_rawBytes (hbs : ∀ b ∈ bs, RawByte b) (fuel : Nat) (ps buf : Bytes) :
    parseStringLoop (bs.length + fuel) (bs ++ ps) buf = parseStringLoop fuel ps (buf ++ bs) := by
  induction bs generalizing buf with
  | nil => simp
  | cons b bs ih =>
    rw [length_cons, add_right_comm, cons_append, parseStringLoop_rawByte (hbs b mem_cons_self),
      ih (fun b hb => hbs b (mem_cons_of_mem _ hb)), append_assoc]
    rfl

private theorem rawByte_iff :
    ∀ b, RawByte b ↔ 0x20 ≤ b.toNat ∧ b.toNat ≠ 0x22 ∧ b.toNat ≠ 0x5C := by
  unfold RawByte
  exact forall_byte (by decide +kernel)

private theorem toNat_ofNat_char {c : Char} (h : c.toNat < 128) :
    (ofNat c.toNat).toNat = c.toNat :=
  toNat_ofNat_of_lt' (lt_trans h (by decide))

theorem rawByte_of_unescaped {c : Char} (hc : Unescaped c) :
    ∀ b ∈ String.utf8EncodeChar c, RawByte b := by
  intro b hb
  rw [rawByte_iff]
  obtain hlt | hge := lt_or_ge c.toNat 128
  · rw [utf8EncodeChar_of_lt hlt, mem_singleton] at hb
    rwa [hb, toNat_ofNat_char hlt]
  · have hb : 128 ≤ b.toNat := le_iff_toNat_le.mp (le_of_mem_utf8EncodeChar hge hb)
    omega

theorem parseStringLoop_escape (e : Escape) (fuel : Nat) (ps buf : Bytes) :
    parseStringLoop (fuel + 1) (0x5C :: e.letter :: ps) buf =
      parseStringLoop fuel ps (buf ++ String.utf8EncodeChar e.char) := by
  cases e <;> rfl

theorem parseStringLoop_unicode (fuel : Nat) (ps buf : Bytes) :
    parseStringLoop (fuel + 1) (0x5C :: 0x75 :: ps) buf =
      match parseUnicodeEscape ps buf with
      | some (buf, ps) => parseStringLoop fuel ps buf
      | none => none := rfl

private theorem not_unicode_start (hs : StringBody s es) (hes : ∀ lo es', es ≠ .unicode lo :: es')
    (rest ps : Bytes) : s ++ 0x22 :: rest ≠ 0x5C :: 0x75 :: ps := by
  intro h
  cases hs with
  | nil => simp at h
  | @cons s₁ s₂ e es he hes' =>
    cases he with
    | raw hc =>
      rename_i c
      cases hb : String.utf8EncodeChar c with
      | nil => exact String.utf8EncodeChar_ne_nil hb
      | cons b bs =>
        rw [hb, cons_append, cons_append, List.cons.injEq] at h
        exact (rawByte_of_unescaped hc b (by simp [hb])).2.1 h.1
    | escape e => cases e <;> simp [Escape.letter] at h
    | unicode => exact hes _ _ rfl

theorem parseStringLoop_body (hs : StringBody s es) (rest : Bytes) :
    ∀ (fuel : Nat) (buf : Bytes), s.length < fuel →
      parseStringLoop fuel (s ++ 0x22 :: rest) buf =
        (denote es).map fun cs => (buf ++ encode cs, rest) := by
  -- a surrogate pair consumes two elements, hence the induction on the length
  induction hn : es.length using Nat.strong_induction_on generalizing s es with
  | _ n ih =>
    intro fuel buf hfuel
    obtain ⟨fuel, rfl⟩ := exists_eq_add_one_of_ne_zero (ne_zero_of_lt hfuel)
    cases hs with
    | nil => simp [parseStringLoop, denote]
    | @cons s₁ s₂ e es he hes =>
      rw [length_append] at hfuel
      rw [append_assoc]
      cases he with
      | @raw c hc =>
        have hpos : 0 < (String.utf8EncodeChar c).length :=
          length_pos_iff.mpr String.utf8EncodeChar_ne_nil
        obtain ⟨fuel', hfuel'⟩ := Nat.exists_eq_add_of_le
          (show (String.utf8EncodeChar c).length ≤ fuel + 1 by omega)
        rw [hfuel', parseStringLoop_rawBytes (rawByte_of_unescaped hc),
          ih _ (by simp [← hn]) hes rfl _ _ (by omega), denote]
        cases denote es <;> simp
      | escape e =>
        simp only [length_cons, length_nil] at hfuel
        rw [cons_append, cons_append, nil_append, parseStringLoop_escape,
          ih _ (by simp [← hn]) hes rfl _ _ (by omega), denote]
        cases denote es <;> simp
      | @unicode a b c d x y z w ha hb hc hd =>
        have hhex := parseHex4_cons ha hb hc hd (s₂ ++ 0x22 :: rest)
        have hlt := unit_lt ha hb hc hd
        generalize ((x * 16 + y) * 16 + z) * 16 + w = u at hhex hlt hn
        simp only [length_cons, length_nil] at hfuel
        simp only [cons_append, nil_append]
        rw [parseStringLoop_unicode]
        by_cases hhigh : isHighSurrogate u = true
        · by_cases hnext : ∃ lo es', es = .unicode lo :: es'
          · obtain ⟨lo, es', rfl⟩ := hnext
            cases hes with
            | @cons s₂ s₃ _ _ he' hes' =>
            cases he' with
            | @unicode a' b' c' d' x' y' z' w' ha' hb' hc' hd' =>
            have hhex' := parseHex4_cons ha' hb' hc' hd' (s₃ ++ 0x22 :: rest)
            simp only [length_append, length_cons, length_nil] at hfuel
            simp only [cons_append, nil_append] at hhex ⊢
            rw [parseUnicodeEscape_pair hhex hhigh hhex', denote_pair hhigh]
            by_cases hlow : isLowSurrogate (((x' * 16 + y') * 16 + z') * 16 + w') = true
            · rw [if_pos hlow, if_pos hlow]
              dsimp only
              rw [ih _ (by simp only [← hn, length_cons]; omega) hes' rfl _ _ (by omega)]
              cases denote es' <;> simp
            · rw [if_neg hlow, if_neg hlow]
              rfl
          · have hes' : ∀ lo es', es ≠ .unicode lo :: es' :=
              fun lo es' h => hnext ⟨lo, es', h⟩
            rw [parseUnicodeEscape_high hhex hhigh (not_unicode_start hes hes' rest),
              denote_high hhigh hes']
            rfl
        rw [Bool.not_eq_true] at hhigh
        by_cases hlow : isLowSurrogate u = true
        · rw [parseUnicodeEscape_low hhex hhigh hlow, denote_low hhigh hlow]
          rfl
        rw [Bool.not_eq_true] at hlow
        rw [parseUnicodeEscape_scalar hhex hlt hhigh hlow, denote_scalar hhigh hlow]
        dsimp only
        rw [ih _ (by simp [← hn]) hes rfl _ _ (by omega)]
        cases denote es <;> simp

private theorem exists_fuel_of_rawBytes (hbs : ∀ b ∈ bs, RawByte b) {r : Bytes × Bytes}
    (h : parseStringLoop fuel (bs ++ ps) buf = some r) : ∃ fuel', fuel = bs.length + fuel' := by
  induction bs generalizing fuel buf with
  | nil => exact ⟨fuel, by simp⟩
  | cons b bs ih =>
    cases fuel with
    | zero => cases h
    | succ fuel =>
      rw [cons_append, parseStringLoop_rawByte (hbs b mem_cons_self)] at h
      obtain ⟨fuel', rfl⟩ := ih (fun b hb => hbs b (mem_cons_of_mem _ hb)) h
      exact ⟨fuel', by rw [length_cons]; omega⟩

private theorem unescaped_of_rawByte {c : Char} (h : String.utf8EncodeChar c = b :: bs)
    (hb : RawByte b) : Unescaped c := by
  obtain hlt | hge := lt_or_ge c.toNat 128
  · rw [utf8EncodeChar_of_lt hlt, List.cons.injEq] at h
    rwa [← h.1, rawByte_iff, toNat_ofNat_char hlt] at hb
  · exact ⟨by omega, by omega, by omega⟩

private theorem simpleEscape_eq_some {e x : UInt8} (h : simpleEscape e = some x) :
    ∃ esc : Escape, e = esc.letter := by
  have hmem : e = 0x22 ∨ e = 0x5C ∨ e = 0x2F ∨ e = 0x62 ∨ e = 0x66 ∨ e = 0x6E ∨ e = 0x72 ∨
      e = 0x74 := by
    by_contra hne
    simp only [not_or] at hne
    simp [simpleEscape, hne] at h
  rcases hmem with rfl | rfl | rfl | rfl | rfl | rfl | rfl | rfl
  · exact ⟨.quote, rfl⟩
  · exact ⟨.backslash, rfl⟩
  · exact ⟨.slash, rfl⟩
  · exact ⟨.backspace, rfl⟩
  · exact ⟨.formfeed, rfl⟩
  · exact ⟨.newline, rfl⟩
  · exact ⟨.carriage, rfl⟩
  · exact ⟨.tab, rfl⟩

private theorem parseUnicodeEscape_eq_some (h : parseUnicodeEscape ps buf = some (buf', rest)) :
    ∃ s es, 0x5C :: 0x75 :: ps = s ++ rest ∧ StringBody s es ∧ ∀ b ∈ s, b < 0x80 := by
  simp only [parseUnicodeEscape, bind_eq_bind, bind_eq_some_iff] at h
  obtain ⟨⟨hi, ps₁⟩, hhi, h⟩ := h
  obtain ⟨a, b, c, d, x, y, z, w, rfl, ha, hb, hc, hd, rfl⟩ := parseHex4_eq_some hhi
  have hone : StringBody ([0x5C, 0x75, a, b, c, d] ++ []) [.unicode _] :=
    .cons (.unicode ha hb hc hd) .nil
  have hascii : ∀ b' ∈ [(0x5C : UInt8), 0x75, a, b, c, d], b' < 0x80 := by
    simp [hexValue_ascii ha, hexValue_ascii hb, hexValue_ascii hc, hexValue_ascii hd]
  dsimp only at h
  split at h
  · -- a high surrogate: the second escape is read as well
    split at h
    · rename_i ps₂
      simp only [bind_eq_some_iff] at h
      obtain ⟨⟨lo, ps₃⟩, hlo, h⟩ := h
      obtain ⟨a', b', c', d', x', y', z', w', rfl, ha', hb', hc', hd', rfl⟩ := parseHex4_eq_some hlo
      dsimp only at h
      split at h
      · cases h
      split at h
      · cases h
      cases h
      refine ⟨[0x5C, 0x75, a, b, c, d] ++ ([0x5C, 0x75, a', b', c', d'] ++ []), _, rfl,
        .cons (.unicode ha hb hc hd) (.cons (.unicode ha' hb' hc' hd') .nil), ?_⟩
      simp [hexValue_ascii ha, hexValue_ascii hb, hexValue_ascii hc, hexValue_ascii hd,
        hexValue_ascii ha', hexValue_ascii hb', hexValue_ascii hc', hexValue_ascii hd']
    · cases h
  split at h
  · cases h
  split at h
  · cases h
  · cases h
    exact ⟨_, _, rfl, hone, by simpa using hascii⟩

private theorem StringBody.append {es' : List Elem} (hs : StringBody s es) (ht : StringBody t es') :
    StringBody (s ++ t) (es ++ es') := by
  induction hs with
  | nil => exact ht
  | cons he _ ih =>
    rw [append_assoc, cons_append]
    exact .cons he ih

theorem parseStringLoop_eq_some (hps : WellFormed ps)
    (h : parseStringLoop fuel ps buf = some (buf', rest)) :
    ∃ s es, ps = s ++ 0x22 :: rest ∧ StringBody s es := by
  induction fuel using Nat.strong_induction_on generalizing ps buf with
  | _ fuel ih =>
    obtain _ | fuel := fuel
    · cases h
    obtain _ | ⟨c, ps⟩ := ps
    · cases h
    by_cases hquote : c = 0x22
    · subst hquote
      cases h
      exact ⟨[], [], rfl, .nil⟩
    by_cases hslash : c = 0x5C
    · subst hslash
      have hps := hps.of_cons (by decide)
      obtain _ | ⟨e, ps⟩ := ps
      · cases h
      by_cases hu : e = 0x75
      · subst hu
        have hps := hps.of_cons (by decide)
        rw [parseStringLoop_unicode] at h
        cases hesc : parseUnicodeEscape ps buf with
        | none => simp [hesc] at h
        | some r =>
          obtain ⟨buf₁, ps₁⟩ := r
          rw [hesc] at h
          obtain ⟨s₁, es₁, hs₁, hbody₁, hascii⟩ := parseUnicodeEscape_eq_some hesc
          have hps₁ : WellFormed ps₁ := by
            refine WellFormed.of_append (s := s₁) ?_ hascii
            rw [← hs₁]
            assumption
          obtain ⟨s, es, rfl, hbody⟩ := ih fuel (lt_succ_self _) hps₁ h
          exact ⟨s₁ ++ s, es₁ ++ es, by rw [hs₁, append_assoc], StringBody.append hbody₁ hbody⟩
      · cases hesc : simpleEscape e with
        | none =>
          rw [parseStringLoop.eq_def] at h
          simp [hesc, hu] at h
        | some x =>
          obtain ⟨esc, rfl⟩ := simpleEscape_eq_some hesc
          rw [parseStringLoop_escape] at h
          have hps := hps.of_cons (by cases esc <;> decide)
          obtain ⟨s, es, rfl, hbody⟩ := ih fuel (lt_succ_self _) hps h
          exact ⟨_, _, rfl, .cons (.escape esc) hbody⟩
    by_cases hctl : c < 0x20
    · rw [parseStringLoop.eq_def] at h
      simp [hquote, hslash, hctl] at h
    obtain ⟨cs, hcs⟩ := wellFormed_iff_exists_encode.mp hps
    obtain _ | ⟨ch, cs⟩ := cs
    · simp at hcs
    rw [encode_cons] at hcs
    obtain ⟨b, bs, hb⟩ := exists_cons_of_ne_nil (String.utf8EncodeChar_ne_nil (c := ch))
    have hch : Unescaped ch := by
      refine unescaped_of_rawByte hb ?_
      rw [hb, cons_append, List.cons.injEq] at hcs
      rw [← hcs.1]
      exact ⟨hquote, hslash, hctl⟩
    rw [hcs] at h ⊢
    have hraw := rawByte_of_unescaped hch
    obtain ⟨fuel', hfuel'⟩ := exists_fuel_of_rawBytes hraw h
    rw [hfuel', parseStringLoop_rawBytes hraw] at h
    have hlt : fuel' < fuel + 1 := by
      rw [hfuel', hb, length_cons]
      omega
    obtain ⟨s, es, hs, hbody⟩ := ih fuel' hlt (wellFormed_encode cs) h
    rw [hs, ← append_assoc]
    exact ⟨_, _, rfl, .cons (.raw hch) hbody⟩

theorem parseStringRaw_body (hs : StringBody s es) (rest : Bytes) :
    parseStringRaw (0x22 :: (s ++ 0x22 :: rest)) = (denote es).map fun cs => (encode cs, rest) := by
  have hloop := parseStringLoop_body hs rest (0x22 :: (s ++ 0x22 :: rest)).length []
    (by simp only [length_cons, length_append]; omega)
  simp only [parseStringRaw, drop_succ_cons, drop_zero, hloop, nil_append]
  cases denote es with
  | none => rfl
  | some cs => simp [utf8Valid_iff.mpr (wellFormed_encode cs)]

theorem parseStringRaw_eq_some (hps : WellFormed ps)
    (h : parseStringRaw (0x22 :: ps) = some (buf, rest)) :
    ∃ s es, ps = s ++ 0x22 :: rest ∧ StringBody s es := by
  simp only [parseStringRaw, bind_eq_bind, bind_eq_some_iff] at h
  obtain ⟨⟨buf₁, rest₁⟩, hloop, h⟩ := h
  dsimp only at h
  split at h
  · cases h
    exact parseStringLoop_eq_some hps hloop
  · cases h

end Mcpkit.Json
