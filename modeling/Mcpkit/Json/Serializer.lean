import Mathlib.Data.Nat.Digits.Lemmas
import Mcpkit.Json.Clone

/-!
# The serializer and its round trip

`builtin_serialize` prints a value without whitespace.  Its output is derivable
in the grammar, and the tree of that derivation builds the printed value, so the
parser returns the value it was printed from.

Only the two C library functions on numbers are assumed: the printed form of a
finite double is a JSON number, and reading it back gives the same double.
-/

namespace Mcpkit.Json

open List Assoc JsonText Utf8 Bool Nat JString UInt8 JsonValue

open JsonText (Ws Number Elem Element StringBody denote Tree Value Items Members)

def kHex (n : Nat) : UInt8 := ofNat (if n < 10 then 0x30 + n else 0x61 + (n - 10))

/-- One round of the loop of `ser_string`. -/
def serByte (b : UInt8) : Bytes :=
  if b == 0x22 then [0x5C, 0x22]
  else if b == 0x5C then [0x5C, 0x5C]
  else if b == 0x08 then [0x5C, 0x62]
  else if b == 0x0C then [0x5C, 0x66]
  else if b == 0x0A then [0x5C, 0x6E]
  else if b == 0x0D then [0x5C, 0x72]
  else if b == 0x09 then [0x5C, 0x74]
  else if b < 0x20 then
    [0x5C, 0x75, 0x30, 0x30, kHex (b.toNat >>> 4), kHex (b.toNat &&& 0xF)]
  else [b]

def serString (s : JString) : Bytes := 0x22 :: (s.bytes.flatMap serByte ++ [0x22])

mutual

def serValue [Libc] : JsonValue → Bytes
  | .null => [0x6E, 0x75, 0x6C, 0x6C]
  | .bool b => if b then [0x74, 0x72, 0x75, 0x65] else [0x66, 0x61, 0x6C, 0x73, 0x65]
  | .number d => Libc.snprintf17g d.val
  | .string s => serString s
  | .array items => 0x5B :: (serItems 0 items ++ [0x5D])
  | .object members => 0x7B :: (serMembers 0 members ++ [0x7D])

/-- The loop over the items of an array, from index `i`. -/
def serItems [Libc] : Nat → List JsonValue → Bytes
  | _, [] => []
  | i, v :: vs => (if i > 0 then [0x2C] else []) ++ (serValue v ++ serItems (i + 1) vs)

/-- The loop over the members of an object, from index `i`. -/
def serMembers [Libc] : Nat → MemberList → Bytes
  | _, [] => []
  | i, (k, v) :: ms =>
    (if i > 0 then [0x2C] else []) ++
      (serString k ++ 0x3A :: (serValue v ++ serMembers (i + 1) ms))

end

def builtinSerialize [Libc] (v : JsonValue) : Bytes := serValue v

/-- The element a scalar value is printed as. -/
private def printedElem (c : Char) : Elem :=
  if c.toNat = 0x22 then .escape .quote
  else if c.toNat = 0x5C then .escape .backslash
  else if c.toNat = 0x08 then .escape .backspace
  else if c.toNat = 0x0C then .escape .formfeed
  else if c.toNat = 0x0A then .escape .newline
  else if c.toNat = 0x0D then .escape .carriage
  else if c.toNat = 0x09 then .escape .tab
  else if c.toNat < 0x20 then .unicode c.toNat
  else .raw c

private theorem hexValue_kHex : ∀ n < 16, hexValue (kHex n) = some n := by decide

variable {b : UInt8} {s : Bytes}

private theorem serByte_high : ∀ {b : UInt8}, 0x80 ≤ b → serByte b = [b] :=
  @(Utf8.forall_byte (by decide +kernel))

private theorem element_serByte_ascii : ∀ n < 128, serByte (ofNat n) =
    (if n = 0x22 then [0x5C, 0x22] else if n = 0x5C then [0x5C, 0x5C]
      else if n = 0x08 then [0x5C, 0x62] else if n = 0x0C then [0x5C, 0x66]
      else if n = 0x0A then [0x5C, 0x6E] else if n = 0x0D then [0x5C, 0x72]
      else if n = 0x09 then [0x5C, 0x74]
      else if n < 0x20 then [0x5C, 0x75, 0x30, 0x30, kHex (n / 16), kHex (n % 16)]
      else [ofNat n]) := by
  decide +kernel

private theorem element_printed (c : Char) :
    Element ((String.utf8EncodeChar c).flatMap serByte) (printedElem c) := by
  obtain hlt | hge := Nat.lt_or_ge c.toNat 128
  · rw [utf8EncodeChar_of_lt hlt, flatMap_singleton, element_serByte_ascii _ hlt, printedElem]
    split
    · exact .escape .quote
    split
    · exact .escape .backslash
    split
    · exact .escape .backspace
    split
    · exact .escape .formfeed
    split
    · exact .escape .newline
    split
    · exact .escape .carriage
    split
    · exact .escape .tab
    split
    · have h := Element.unicode (hexValue_kHex 0 (by decide)) (hexValue_kHex 0 (by decide))
        (hexValue_kHex (c.toNat / 16) (by omega)) (hexValue_kHex (c.toNat % 16) (by omega))
      rwa [show ((0 * 16 + 0) * 16 + c.toNat / 16) * 16 + c.toNat % 16 = c.toNat by omega] at h
    · rw [← utf8EncodeChar_of_lt hlt]
      exact .raw ⟨by omega, by assumption, by assumption⟩
  · have hid : (String.utf8EncodeChar c).flatMap serByte = String.utf8EncodeChar c := by
      have hall : ∀ bs : Bytes, (∀ b ∈ bs, 0x80 ≤ b) → bs.flatMap serByte = bs := by
        intro bs hbs
        induction bs with
        | nil => rfl
        | cons b bs ih =>
          rw [flatMap_cons, serByte_high (hbs b mem_cons_self),
            ih fun b hb => hbs b (mem_cons_of_mem _ hb)]
          rfl
      exact hall _ fun b hb => le_of_mem_utf8EncodeChar hge hb
    have hraw : printedElem c = .raw c := by
      unfold printedElem
      rw [if_neg (by omega), if_neg (by omega), if_neg (by omega), if_neg (by omega),
        if_neg (by omega), if_neg (by omega), if_neg (by omega), if_neg (by omega)]
    rw [hid, hraw]
    exact .raw ⟨by omega, by omega, by omega⟩

private theorem stringBody_printed (cs : List Char) :
    StringBody ((encode cs).flatMap serByte) (cs.map printedElem) := by
  induction cs with
  | nil => exact .nil
  | cons c cs ih =>
    rw [encode_cons, flatMap_append]
    exact .cons (element_printed c) ih

private theorem denote_printedElem (c : Char) (es : List Elem) :
    denote (printedElem c :: es) = (denote es).map (c :: ·) := by
  have hescape (e : Escape) (h : c.toNat = e.char.toNat) :
      denote (.escape e :: es) = (denote es).map (c :: ·) := by
    rw [Char.toNat_inj.mp h, denote]
  unfold printedElem
  split
  · exact hescape .quote (by assumption)
  split
  · exact hescape .backslash (by assumption)
  split
  · exact hescape .backspace (by assumption)
  split
  · exact hescape .formfeed (by assumption)
  split
  · exact hescape .newline (by assumption)
  split
  · exact hescape .carriage (by assumption)
  split
  · exact hescape .tab (by assumption)
  split
  · rename_i hlt
    have hhigh : isHighSurrogate c.toNat = false := by
      simp only [isHighSurrogate, and_eq_false_iff, decide_eq_false_iff_not]
      omega
    have hlow : isLowSurrogate c.toNat = false := by
      simp only [isLowSurrogate, and_eq_false_iff, decide_eq_false_iff_not]
      omega
    rw [denote_scalar hhigh hlow, Char.ofNat_toNat]
  · rw [denote]

private theorem denote_printed (cs : List Char) : denote (cs.map printedElem) = some cs := by
  induction cs with
  | nil => rfl
  | cons c cs ih => rw [map_cons, denote_printedElem, ih, Option.map_some]

theorem exists_stringBody (s : JString) :
    ∃ es cs, StringBody (s.bytes.flatMap serByte) es ∧ denote es = some cs ∧ ofChars cs = s := by
  obtain ⟨cs, hcs⟩ := wellFormed_iff_exists_encode.mp (utf8Valid_iff.mp s.valid)
  refine ⟨cs.map printedElem, cs, hcs ▸ stringBody_printed cs, denote_printed cs, ?_⟩
  refine ext ?_
  rw [hcs]
  exact cString_of_notMem (hcs ▸ s.noNul)

/-- No control characters. -/
def Printed (s : Bytes) : Prop := ∀ b ∈ s, 0x20 ≤ b

instance (s : Bytes) : Decidable (Printed s) := decidableBAll (p := (0x20 ≤ ·)) s

@[simp] theorem printed_nil : Printed [] := fun _ h => absurd h not_mem_nil

@[simp] theorem printed_cons : Printed (b :: s) ↔ 0x20 ≤ b ∧ Printed s := forall_mem_cons

@[simp] theorem printed_append {t : Bytes} : Printed (s ++ t) ↔ Printed s ∧ Printed t :=
  forall_mem_append

theorem Printed.notMem {c : UInt8} (h : Printed s) (hc : c < 0x20) : c ∉ s :=
  fun hmem => absurd (h c hmem) (UInt8.not_le.mpr hc)

private theorem printed_serByte : ∀ c : UInt8, Printed (serByte c) :=
  Utf8.forall_byte (by decide +kernel)

theorem printed_serString (s : JString) : Printed (serString s) := by
  have hbytes : Printed (s.bytes.flatMap serByte) := by
    intro b hb
    obtain ⟨c, -, hb⟩ := mem_flatMap.mp hb
    exact printed_serByte c b hb
  simp [serString, hbytes]

section

variable [Libc]

/-- The printed form of a finite double is a JSON number that reads back as it. -/
structure PrintsDoubles : Prop where
  number : ∀ d : Binary64, d.isFinite = true → Number (Libc.snprintf17g d)
  strtod : ∀ d : Binary64, d.isFinite = true →
    Libc.strtod (Libc.snprintf17g d) = (d, (Libc.snprintf17g d).length)

private theorem build_number (hlibc : PrintsDoubles) (d : FiniteDouble) (depth : Nat) :
    build depth (.number (Libc.snprintf17g d.val)) = some (.number d) := by
  have hread := hlibc.strtod d.val d.finite
  rw [build, if_pos (by simp [numberOk, hread, d.finite]), newNumber, hread,
    dif_pos d.finite]

omit [Libc] in
private theorem ws_nil : Ws [] := by simp [Ws]

/-- A tree derives the bytes and builds the value at every depth with room for it. -/
private def Prints (s : Bytes) (v : JsonValue) : Prop :=
  ∃ t, Value s t ∧ ∀ depth, depth + v.depth ≤ mcpJsonMaxDepth → build depth t = some v

private theorem prints_string (s : JString) : Prints (serString s) (.string s) := by
  obtain ⟨es, cs, hbody, hdenote, hs⟩ := exists_stringBody s
  refine ⟨.string es, .string hbody, fun depth _ => ?_⟩
  rw [build, hdenote, Option.map_some, hs]

mutual

private theorem prints_serValue (hlibc : PrintsDoubles) :
    ∀ {v : JsonValue}, v.DistinctKeys → Prints (serValue v) v
  | .null, _ => ⟨.null, .null, fun _ _ => rfl⟩
  | .bool true, _ => ⟨.bool true, .true, fun _ _ => rfl⟩
  | .bool false, _ => ⟨.bool false, .false, fun _ _ => rfl⟩
  | .number d, _ =>
    ⟨.number _, .number (hlibc.number d.val d.finite), fun depth _ => build_number hlibc d depth⟩
  | .string s, _ => prints_string s
  | .array [], _ => ⟨.array [], .emptyArray ws_nil, fun depth hdepth => by
    rw [JsonValue.depth] at hdepth
    rw [build, if_neg (by omega)]
    rfl⟩
  | .array (v :: vs), h => by
    obtain ⟨s, ts, hs, hts, hbuild⟩ := prints_serItems hlibc h (cons_ne_nil v vs)
    refine ⟨.array ts, ?_, fun depth hdepth => ?_⟩
    · rw [serValue, hs 0]
      exact .array hts
    · rw [JsonValue.depth] at hdepth
      rw [build, if_neg (by omega), hbuild (depth + 1) (by omega)]
      rfl
  | .object [], _ => ⟨.object [], .emptyObject ws_nil, fun depth hdepth => by
    rw [JsonValue.depth] at hdepth
    rw [build, if_neg (by omega)]
    rfl⟩
  | .object (m :: ms), h => by
    obtain ⟨s, ts, hs, hts, hbuild⟩ := prints_serMembers hlibc h.2 (cons_ne_nil m ms)
    refine ⟨.object ts, ?_, fun depth hdepth => ?_⟩
    · rw [serValue, hs 0]
      exact .object hts
    · rw [JsonValue.depth] at hdepth
      rw [build, if_neg (by omega), hbuild (depth + 1) [] (by omega) h.1]
      rfl

/-- The items of a nonempty list; the index only decides on a comma before them. -/
private theorem prints_serItems (hlibc : PrintsDoubles) : ∀ {vs : List JsonValue},
    JsonValue.DistinctKeysItems vs → vs ≠ [] →
    ∃ s ts, (∀ i, serItems i vs = (if i > 0 then [0x2C] else []) ++ s) ∧ Items s ts ∧
      ∀ depth, depth + depthItems vs ≤ mcpJsonMaxDepth → buildItems depth ts = some vs
  | [v], h, _ => by
    obtain ⟨t, ht, hbuild⟩ := prints_serValue hlibc h.1
    refine ⟨serValue v, [t], fun i => ?_, ?_, fun depth hdepth => ?_⟩
    · simp [serItems]
    · simpa using @Items.one [] _ [] _ ws_nil ht ws_nil
    · rw [depthItems, depthItems] at hdepth
      simp [buildItems, hbuild depth (by omega)]
  | v :: v' :: vs, h, _ => by
    obtain ⟨t, ht, hbuild⟩ := prints_serValue hlibc h.1
    obtain ⟨s, ts, hs, hts, hbuilds⟩ := prints_serItems hlibc h.2 (cons_ne_nil v' vs)
    refine ⟨serValue v ++ 0x2C :: s, t :: ts, fun i => ?_, ?_, fun depth hdepth => ?_⟩
    · rw [serItems, hs (i + 1)]
      simp
    · simpa using @Items.more [] _ [] _ _ _ ws_nil ht ws_nil hts
    · rw [depthItems] at hdepth
      simp [buildItems, hbuild depth (by omega), hbuilds depth (by omega)]

private theorem prints_serMembers (hlibc : PrintsDoubles) :
    ∀ {ms : MemberList}, JsonValue.DistinctKeysMembers ms → ms ≠ [] →
    ∃ s ts, (∀ i, serMembers i ms = (if i > 0 then [0x2C] else []) ++ s) ∧ Members s ts ∧
      ∀ depth before, depth + JsonValue.depthMembers ms ≤ mcpJsonMaxDepth →
        (keys (before ++ ms)).Nodup → buildMembers depth ts before = some (before ++ ms)
  | [(k, v)], h, _ => by
    obtain ⟨t, ht, hbuild⟩ := prints_serValue hlibc h.1
    obtain ⟨es, cs, hbody, hdenote, hk⟩ := exists_stringBody k
    refine ⟨serString k ++ 0x3A :: serValue v, [(es, t)], fun i => ?_, ?_,
      fun depth before hdepth hnodup => ?_⟩
    · simp [serMembers]
    · simpa [serString] using
        @Members.one [] _ [] [] _ [] _ _ ws_nil hbody ws_nil ws_nil ht ws_nil
    · rw [JsonValue.depthMembers, JsonValue.depthMembers] at hdepth
      simp [buildMembers, hdenote, hbuild depth (by omega), hk,
        set_of_notMem (notMem_of_nodup hnodup)]
  | (k, v) :: m :: ms, h, _ => by
    obtain ⟨t, ht, hbuild⟩ := prints_serValue hlibc h.1
    obtain ⟨es, cs, hbody, hdenote, hk⟩ := exists_stringBody k
    obtain ⟨s, ts, hs, hts, hbuilds⟩ := prints_serMembers hlibc h.2 (cons_ne_nil m ms)
    refine ⟨serString k ++ 0x3A :: (serValue v ++ 0x2C :: s), (es, t) :: ts, fun i => ?_, ?_,
      fun depth before hdepth hnodup => ?_⟩
    · rw [serMembers, hs (i + 1)]
      simp
    · simpa [serString] using
        @Members.more [] _ [] [] _ [] _ _ _ _ ws_nil hbody ws_nil ws_nil ht ws_nil hts
    rw [JsonValue.depthMembers] at hdepth
    have hrest := hbuilds depth (before ++ [(k, v)]) (by omega) (by simpa using hnodup)
    simp [buildMembers, hdenote, hbuild depth (by omega), hk, hrest,
      set_of_notMem (notMem_of_nodup hnodup)]

end

theorem builtinParse_of_distinctKeys (hlibc : PrintsDoubles) {v : JsonValue}
    (hv : v.DistinctKeys) (hdepth : v.depth ≤ mcpJsonMaxDepth) :
    builtinParse (builtinSerialize v) = some v := by
  obtain ⟨t, ht, hbuild⟩ := prints_serValue hlibc hv
  have htext : Text (serValue v) t := by simpa using @JsonText.Text.intro [] _ [] _ ws_nil ht ws_nil
  rw [builtinSerialize, builtinParse_text ht.wellFormed htext, hbuild 0 (by omega)]

/-- Serializing a value built by the public constructors, nested no deeper than
the parser allows, and parsing the text gives the value back. -/
theorem builtinParse_builtinSerialize (hlibc : PrintsDoubles) {v : JsonValue} (hv : v.Built)
    (hdepth : v.depth ≤ mcpJsonMaxDepth) : builtinParse (builtinSerialize v) = some v :=
  builtinParse_of_distinctKeys hlibc hv.distinctKeys hdepth

mutual

theorem printed_serValue (hlibc : PrintsDoubles) : ∀ v : JsonValue, Printed (serValue v)
  | .null => by simp [serValue]
  | .bool b => by cases b <;> simp [serValue]
  | .number d => fun b hb =>
    UInt8.le_of_lt (UInt8.lt_trans (by decide) ((hlibc.number d.val d.finite).visible b hb).1)
  | .string s => printed_serString s
  | .array items => by simp [serValue, printed_serItems hlibc 0 items]
  | .object members => by simp [serValue, printed_serMembers hlibc 0 members]

theorem printed_serItems (hlibc : PrintsDoubles) :
    ∀ (i : Nat) (vs : List JsonValue), Printed (serItems i vs)
  | _, [] => by simp [serItems]
  | i, v :: vs => by
    cases i <;> simp [serItems, printed_serValue hlibc v, printed_serItems hlibc _ vs]

theorem printed_serMembers (hlibc : PrintsDoubles) :
    ∀ (i : Nat) (ms : MemberList), Printed (serMembers i ms)
  | _, [] => by simp [serMembers]
  | i, (k, v) :: ms => by
    cases i <;> simp [serMembers, printed_serString k, printed_serValue hlibc v,
      printed_serMembers hlibc _ ms]

end

end

/-- A number for each double: `1` for one, and the bit pattern shifted for the others. -/
private def doubleCode (d : Binary64) : Nat :=
  if d = .one then 1
  else d.fraction.val + 4503599627370496 * (d.exponent.val + 2048 * d.negative.toNat) + 2

private def codeDouble (n : Nat) : Binary64 :=
  if n = 1 then .one
  else ⟨(n - 2) / 4503599627370496 / 2048 == 1,
    ⟨(n - 2) / 4503599627370496 % 2048, mod_lt _ (by decide)⟩,
    ⟨(n - 2) % 4503599627370496, mod_lt _ (by decide)⟩⟩

private theorem codeDouble_doubleCode (d : Binary64) : codeDouble (doubleCode d) = d := by
  unfold doubleCode
  split
  · rename_i h
    rw [h]
    rfl
  obtain ⟨negative, exponent, fraction⟩ := d
  have hexp := exponent.isLt
  have hfrac := fraction.isLt
  rw [codeDouble, if_neg (by omega)]
  simp only [Nat.add_sub_cancel, Binary64.mk.injEq]
  refine ⟨?_, ?_, ?_⟩
  · cases negative
    · simp only [toNat_false, beq_eq_false_iff_ne]
      omega
    · simp only [toNat_true, beq_iff_eq]
      omega
  · refine Fin.ext ?_
    dsimp only
    omega
  · refine Fin.ext ?_
    dsimp only
    omega

private def decimal (n : Nat) : Bytes :=
  ((Nat.digits 10 n).map fun d => UInt8.ofNat (0x30 + d)).reverse

private def undecimal (s : Bytes) : Nat := Nat.ofDigits 10 (s.reverse.map fun b => b.toNat - 0x30)

private theorem undecimal_decimal (n : Nat) : undecimal (decimal n) = n := by
  have hdigits : ((Nat.digits 10 n).map fun d => UInt8.ofNat (0x30 + d)).map
      (fun b => b.toNat - 0x30) = Nat.digits 10 n := by
    rw [map_map]
    refine (map_congr_left fun d hd => ?_).trans (map_id _)
    have hlt := digits_lt_base (by decide) hd
    simp only [Function.comp_apply, id_eq]
    rw [toNat_ofNat_of_lt' (Nat.lt_trans (show 0x30 + d < 0x3A by omega) (by decide))]
    omega
  rw [undecimal, decimal, reverse_reverse, hdigits, ofDigits_digits]

private theorem isDigit_ofNat {d : Nat} (hd : d < 10) :
    isDigit (ofNat (0x30 + d)) = true := by
  have : ∀ d < 10, isDigit (ofNat (0x30 + d)) = true := by decide
  exact this d hd

private theorem number_decimal {n : Nat} (hn : n ≠ 0) : Number (decimal n) := by
  have hne : Nat.digits 10 n ≠ [] := digits_ne_nil_iff_ne_zero.mpr hn
  have hlast : (Nat.digits 10 n).getLast hne ≠ 0 := getLast_digit_ne_zero 10 hn
  have hlt := digits_lt_base (b := 10) (by decide) (getLast_mem hne)
  have hcut : decimal n = UInt8.ofNat (0x30 + (Nat.digits 10 n).getLast hne) ::
      ((Nat.digits 10 n).dropLast.map fun d => UInt8.ofNat (0x30 + d)).reverse := by
    conv_lhs => rw [decimal, ← dropLast_append_getLast hne]
    simp
  generalize (Nat.digits 10 n).getLast hne = k at hlast hlt hcut
  have hk : (0x31 : UInt8) ≤ UInt8.ofNat (0x30 + k) ∧ UInt8.ofNat (0x30 + k) ≤ 0x39 := by
    have : ∀ k < 10, k ≠ 0 →
        (0x31 : UInt8) ≤ UInt8.ofNat (0x30 + k) ∧ UInt8.ofNat (0x30 + k) ≤ 0x39 := by decide
    exact this k hlt hlast
  have hds : ∀ b ∈ ((Nat.digits 10 n).dropLast.map fun d => UInt8.ofNat (0x30 + d)).reverse,
      isDigit b = true := by
    intro b hb
    simp only [mem_reverse, mem_map] at hb
    obtain ⟨d, hd, rfl⟩ := hb
    exact isDigit_ofNat (digits_lt_base (by decide) (mem_of_mem_dropLast hd))
  rw [hcut]
  simpa using @Number.intro [] _ [] [] (.inl rfl) (.nonzero hk hds) .absent .absent

/-- Prints one as `1`, and every other double as some decimal numeral of its own. -/
@[reducible] def decimalLibc : Libc where
  strtod s := (codeDouble (undecimal s), s.length)
  snprintf17g d := decimal (doubleCode d)

theorem decimalLibc_printsDoubles : @PrintsDoubles decimalLibc := by
  refine @PrintsDoubles.mk decimalLibc ?_ ?_
  · intro d _
    exact number_decimal (by unfold doubleCode; split <;> omega)
  · intro d _
    change (codeDouble (undecimal (decimal (doubleCode d))), _) = (d, _)
    rw [undecimal_decimal, codeDouble_doubleCode]

private def readCounting : Bytes → Binary64 × Nat
  | 0x2D :: s => (codeDouble (undecimal s), s.length + 1)
  | s => (Binary64.ofNat (undecimal s), s.length)

private def printCounting (d : Binary64) : Bytes :=
  if d.truncAbs ≠ 0 ∧ d = Binary64.ofNat d.truncAbs then decimal d.truncAbs
  else 0x2D :: decimal (doubleCode d)

/-- Prints the positive integers that are doubles as the C library does, and every other double as
some negative numeral of its own. -/
@[reducible] def countingLibc : Libc where
  strtod := readCounting
  snprintf17g := printCounting

private theorem number_neg (h : Number s) (hs : s.head? ≠ some 0x2D) : Number (0x2D :: s) := by
  obtain ⟨hminus, hint, hfrac, hexp⟩ := h
  obtain rfl | rfl := hminus
  · exact .intro (.inr rfl) hint hfrac hexp
  · exact absurd rfl hs

private theorem head_decimal (n : Nat) : (decimal n).head? ≠ some 0x2D := by
  intro h
  obtain ⟨d, hd, heq⟩ := mem_map.mp (mem_reverse.mp (mem_of_mem_head? h))
  have hdigit := isDigit_ofNat (digits_lt_base (by decide) hd)
  rw [heq] at hdigit
  revert hdigit
  decide

private theorem readCounting_of_head (h : s.head? ≠ some 0x2D) :
    readCounting s = (Binary64.ofNat (undecimal s), s.length) := by
  unfold readCounting
  split
  next => exact absurd rfl h
  next => rfl

theorem countingLibc_printsDoubles : @PrintsDoubles countingLibc := by
  have hcode : ∀ d, doubleCode d ≠ 0 := by
    intro d
    unfold doubleCode
    split <;> omega
  refine @PrintsDoubles.mk countingLibc ?_ ?_
  · intro d _
    change Number (printCounting d)
    unfold printCounting
    split
    next h => exact number_decimal h.1
    next => exact number_neg (number_decimal (hcode d)) (head_decimal _)
  intro d _
  change readCounting (printCounting d) = (d, (printCounting d).length)
  unfold printCounting
  split
  next h => rw [readCounting_of_head (head_decimal _), undecimal_decimal, ← h.2]
  next =>
    rw [readCounting, undecimal_decimal, codeDouble_doubleCode]
    rfl

/-- The round trip of the value `[1,{"k":null}]`. -/
theorem roundTrip_decimalLibc :
    @builtinParse decimalLibc (@builtinSerialize decimalLibc
      (.array [.number ⟨.one, rfl⟩, .object [(lit "k", .null)]])) =
      some (.array [.number ⟨.one, rfl⟩, .object [(lit "k", .null)]]) := by
  refine @builtinParse_builtinSerialize decimalLibc decimalLibc_printsDoubles _ ?_ (by decide)
  have hobject : JsonValue.Built (.object [(lit "k", .null)]) :=
    @JsonValue.Built.set (.object []) .null _ (lit "k").bytes .object .null
      (by decide +kernel)
  have hone : JsonValue.Built (.number ⟨.one, rfl⟩) := @JsonValue.Built.number .one _ (by decide)
  exact .append (.append .array hone rfl) hobject rfl

/-- Printing a parsed value and parsing the text again gives the value, so that
two accepted texts are printed alike exactly if they stand for the same value. -/
theorem builtinParse_reprinted [Libc] (hlibc : PrintsDoubles) {text : Bytes} {v : JsonValue}
    (h : builtinParse text = some v) :
    builtinParse (builtinSerialize v) = some v ∧ ∀ text' w, builtinParse text' = some w →
      (builtinSerialize w = builtinSerialize v ↔ w = v) := by
  have again : ∀ {text v}, builtinParse text = some v →
      builtinParse (builtinSerialize v) = some v := fun h =>
    builtinParse_of_distinctKeys hlibc (builtinParse_bounded h).1 (builtinParse_bounded h).2
  refine ⟨again h, fun text' w hw => ⟨fun heq => ?_, congrArg builtinSerialize⟩⟩
  exact Option.some.inj ((again hw).symm.trans (heq ▸ again h))

/-- The second member of the text replaces the first. -/
theorem builtinParse_reprinted_replaced :
    @builtinParse decimalLibc (@builtinSerialize decimalLibc (.object [(lit "a", .bool true)])) =
      some (.object [(lit "a", .bool true)]) :=
  (@builtinParse_reprinted decimalLibc decimalLibc_printsDoubles
    "\x7b\"a\":null,\"a\":true\x7d".toUTF8.toList _ (by decide +kernel)).1

end Mcpkit.Json
