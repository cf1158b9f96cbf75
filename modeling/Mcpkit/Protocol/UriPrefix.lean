import Mcpkit.Protocol.UriRoundTrip

/-!
# Length modifiers

A length modifier `:n` cuts the value of a variable.  The loop of the encoder
looks at single bytes: it stops in front of a byte that starts a character once
it has passed `n` such bytes.  In UTF-8 every character has one byte of this kind,
its first, so the cut is behind the `n`-th character.
-/

namespace Mcpkit.Protocol.UriTemplate

open Json JsonValue List Utf8 Nat Bool UInt8

structure IsLongestPrefix (n : Nat) (s p : Bytes) : Prop where
  isPrefix : p <+: s
  chars : ∃ cs : List Char, p = encode cs ∧ cs.length ≤ n
  longest : ∀ cs : List Char, encode cs <+: s → cs.length ≤ n → (encode cs).length ≤ p.length

variable {n : Nat} {e : ParsedVarExpr} {text : Bytes}

theorem IsLongestPrefix.unique {s p q : Bytes} (hp : IsLongestPrefix n s p)
    (hq : IsLongestPrefix n s q) : p = q := by
  have hle : ∀ {p q : Bytes}, IsLongestPrefix n s p → IsLongestPrefix n s q →
      p.length ≤ q.length := by
    intro p q hp hq
    obtain ⟨cs, rfl, hcs⟩ := hp.chars
    exact hq.longest cs hp.isPrefix hcs
  rw [prefix_iff_eq_take.mp hp.isPrefix, prefix_iff_eq_take.mp hq.isPrefix,
    le_antisymm (hle hp hq) (hle hq hp)]

theorem startsChar_eq : ∀ c : UInt8,
    startsChar c = (decide (c.toNat < 128) || decide (192 ≤ c.toNat)) :=
  Utf8.forall_byte (by decide +kernel)

theorem startsChar_of_tail {b : UInt8} (h : Tail b) : startsChar b = false := by
  simp only [Tail, le_iff_toNat_le, reduceToNat] at h
  simp only [startsChar_eq, or_eq_false_iff, decide_eq_false_iff_not]
  omega

theorem exists_utf8EncodeChar (c : Char) :
    ∃ b tail, String.utf8EncodeChar c = b :: tail ∧ startsChar b = true ∧
      ∀ t ∈ tail, startsChar t = false := by
  obtain ⟨b, tail, heq, hb, htail⟩ := (sequence_utf8EncodeChar c).exists_lead
  refine ⟨b, tail, heq, ?_, fun t ht => startsChar_of_tail (htail t ht)⟩
  simp only [le_iff_toNat_le, reduceToNat] at hb
  simp only [startsChar_eq, or_eq_true, decide_eq_true_eq]
  omega

theorem kept_append_of_continues {mod : UriModifier} {tail : Bytes}
    (h : ∀ t ∈ tail, startsChar t = false) (count : Nat) (s : Bytes) :
    mod.kept count (tail ++ s) = tail ++ mod.kept count s := by
  induction tail with
  | nil => rfl
  | cons t tail ih =>
    obtain ⟨ht, htail⟩ := forall_mem_cons.mp h
    rw [cons_append, UriModifier.kept, ht, if_neg Bool.false_ne_true, ih htail, cons_append]

theorem kept_utf8EncodeChar (n count : Nat) (c : Char) (s : Bytes) :
    (UriModifier.modPrefix n).kept count (String.utf8EncodeChar c ++ s) =
      if n ≤ count then []
      else String.utf8EncodeChar c ++ (UriModifier.modPrefix n).kept (count + 1) s := by
  obtain ⟨b, tail, heq, hb, htail⟩ := exists_utf8EncodeChar c
  rw [heq, cons_append, UriModifier.kept, if_pos hb, kept_append_of_continues htail]
  simp [UriModifier.isFull]

theorem kept_encode (n count : Nat) (cs : List Char) :
    (UriModifier.modPrefix n).kept count (encode cs) = encode (cs.take (n - count)) := by
  induction cs generalizing count with
  | nil => rw [take_nil]; rfl
  | cons c cs ih =>
    rw [encode_cons, kept_utf8EncodeChar]
    split
    · rw [Nat.sub_eq_zero_of_le (by assumption), take_zero]
      rfl
    · rw [ih, show n - count = n - (count + 1) + 1 by omega, take_succ_cons, encode_cons]

theorem isPrefix_kept (cs : List Char) (count : Nat) (rest : Bytes) :
    encode cs <+: (UriModifier.modPrefix (count + cs.length)).kept count
      (encode cs ++ rest) := by
  induction cs generalizing count with
  | nil => exact nil_prefix
  | cons c cs ih =>
    rw [encode_cons, append_assoc, kept_utf8EncodeChar, if_neg (by simp),
      prefix_append_right_inj, length_cons, ← succ_add_eq_add_succ]
    exact ih (count + 1)

theorem isPrefixOf_encode_take {m : Nat} (h : m ≤ n) (cs : List Char) :
    encode (cs.take m) <+: encode (cs.take n) := by
  obtain ⟨ds, hds⟩ := take_prefix_take_left (l := cs) h
  rw [← hds, encode_append]
  exact prefix_append _ _

/-- What is kept of a valid string is its longest prefix of at most `n` characters. -/
theorem isLongestPrefix_kept (n : Nat) (s : JString) :
    IsLongestPrefix n s.bytes ((UriModifier.modPrefix n).kept 0 s.bytes) := by
  obtain ⟨cs, hcs⟩ : ∃ cs, s.bytes = encode cs :=
    wellFormed_iff_exists_encode.mp (utf8Valid_iff.mp s.valid)
  have hkept : (UriModifier.modPrefix n).kept 0 s.bytes = encode (cs.take n) := by
    rw [hcs, kept_encode, Nat.sub_zero]
  rw [hkept, hcs]
  constructor
  · have hpre := isPrefixOf_encode_take (le_max_left n cs.length) cs
    rwa [take_of_length_le (le_max_right n cs.length)] at hpre
  · exact ⟨cs.take n, rfl, length_take_le n cs⟩
  rintro ds ⟨rest, hrest⟩ hlen
  have hshort := isPrefix_kept ds 0 rest
  rw [hrest, Nat.zero_add, kept_encode, Nat.sub_zero] at hshort
  exact (hshort.trans (isPrefixOf_encode_take hlen cs)).length_le

theorem isPrefix_kept_and_wellFormed (mod : UriModifier) (s : JString) :
    mod.kept 0 s.bytes <+: s.bytes ∧ WellFormed (mod.kept 0 s.bytes) := by
  cases mod with
  | modPrefix n =>
    have hlongest := isLongestPrefix_kept n s
    obtain ⟨cs, hcs, -⟩ := hlongest.chars
    exact ⟨hlongest.isPrefix, wellFormed_iff_exists_encode.mpr ⟨cs, hcs⟩⟩
  | _ =>
    rw [UriModifier.kept_of_not_full fun _ => rfl]
    exact ⟨prefix_rfl, utf8Valid_iff.mp s.valid⟩

/-- What is decoded from an encoding is the string, cut behind a character. -/
theorem wellFormed_decode_encoded (e : ParsedVarExpr) (s : JString) :
    WellFormed (cString (urlDecode (e.encoded s.bytes))) := by
  obtain ⟨hpre, hvalid⟩ := isPrefix_kept_and_wellFormed e.mod s
  rwa [e.encoded_eq, urlDecode_flatMap, cString_of_notMem fun h => s.noNul (hpre.subset h)]

variable {assignment : List (JString × JString)}

theorem exists_of_mem_encodings {es : List ParsedVarExpr} {cap : RawCapture}
    (h : cap ∈ zipWith ParsedVarExpr.capture es (encodings es assignment)) :
    ∃ e ∈ es, ∃ s : JString, cap = e.capture (e.encoded s.bytes) := by
  induction es generalizing assignment with
  | nil => cases h
  | cons e es ih =>
    cases assignment with
    | nil => cases h
    | cons a assignment =>
      obtain rfl | h := mem_cons.mp h
      · exact ⟨e, mem_cons_self, a.2, rfl⟩
      · obtain ⟨e', he', hcap⟩ := ih h
        exact ⟨e', mem_cons_of_mem _ he', hcap⟩

/-- Expressions between delimiters that match one text each. -/
structure Template.Divisible (t : Template) : Prop where
  single : ∀ e ∈ exprs t.pieces, e.op.isReserved = false ∧ e.mod ≠ .modExplode
  delimited : Delimited t.pieces

theorem AssignsStrings.storable {vars : JsonValue} {ps : List Piece}
    (h : AssignsStrings vars (exprs ps) assignment) (hsingle : ∀ e ∈ exprs ps, e.mod ≠ .modExplode)
    {cap : RawCapture} (hcap : cap ∈ capturesOf ps (encodings (exprs ps) assignment)) :
    cap.Storable := by
  refine ⟨h.wellFormed_cutName hcap, ?_⟩
  obtain ⟨e, he, s, rfl⟩ := exists_of_mem_encodings hcap
  rw [RawCapture.tokens, if_neg (by exact hsingle e he), forall_mem_singleton]
  exact wellFormed_decode_encoded e s

section Expansion

variable [NumberFormat]

end Expansion

/-- The template `\x7ba:3\x7d/\x7bv\x7d`. -/
def prefixAndVariable : Template :=
  slashAndVariable ⟨.simple, [0x61], .modPrefix 3⟩ [0x61, 0x3A, 0x33]
    ⟨⟨[0x3A, 0x33], rfl, [0x33], rfl, by decide, forall_mem_singleton.mpr (by decide), rfl,
      by decide, by decide⟩, by decide, by decide, fun _ => rfl, fun h => by cases h⟩
    (by decide) (by decide)

def firstOfVariable : Template where
  text := ⟨[0x7B, 0x76, 0x3A, 0x31, 0x7D], by decide⟩
  pieces := [.expr ⟨.simple, [0x76], .modPrefix 1⟩]
  splits :=
    have hexpr : IsExprText ⟨.simple, [0x76], .modPrefix 1⟩ [0x76, 0x3A, 0x31] :=
      ⟨⟨[0x3A, 0x31], rfl, [0x31], rfl, by decide, forall_mem_singleton.mpr (by decide), rfl,
        by decide, by decide⟩, by decide, by decide, fun _ => rfl, fun h => by cases h⟩
    .expr (by decide) hexpr .nil
  few := by decide

theorem splitsInto_expr (he : parseVarExpr text = some e) (hclose : 0x7D ∉ text) :
    SplitsInto (0x7B :: (text ++ [0x7D])) [.expr e] :=
  .expr hclose (parseVarExpr_eq_some_iff.mp he) .nil

theorem mcpUriTemplateExpand_expr [NumberFormat] (he : parseVarExpr text = some e)
    (hclose : 0x7D ∉ text) {pattern : CString} (hpattern : pattern.bytes = 0x7B :: (text ++ [0x7D]))
    (vars : Option JsonValue) :
    ∃ uri : CString, mcpUriTemplateExpand (some pattern) vars true = (.ok, some uri) ∧
      uri.bytes = e.expand vars := by
  have hsplits : SplitsInto pattern.bytes [.expr e] := by
    rw [hpattern]
    exact splitsInto_expr he hclose
  have hloop := expandLoop_eq hsplits (lt_succ_self _) vars
  have hzero := zero_notMem_flatMap_expand hsplits pattern.noNul vars
  rw [flatMap_singleton] at hloop hzero
  refine ⟨⟨cString (e.expand vars), zero_notMem_cString _⟩, ?_, cString_of_notMem hzero⟩
  simp only [mcpUriTemplateExpand, hloop, Piece.expand]

/-- An expression with a length modifier expands to the prefix of its operator, for a query with the
name of the variable, and the percent-encoding of the longest prefix of the value with as many
characters.  The variable goes by the first 127 bytes of its name. -/
theorem mcpUriTemplateExpand_longest [NumberFormat] {text : Bytes} {e : ParsedVarExpr}
    (he : parseVarExpr text = some e) (hclose : 0x7D ∉ text) {pattern : CString}
    (hpattern : pattern.bytes = 0x7B :: (text ++ [0x7D])) {n : Nat} (hmod : e.mod = .modPrefix n)
    {vars : JsonValue} {name value : JString} (hname : name.bytes = e.name.take 127)
    (hvalue : vars.objectGet name = some (string value)) :
    ∃ (uri : CString) (p : Bytes),
      mcpUriTemplateExpand (some pattern) (some vars) true = (.ok, some uri) ∧
        IsLongestPrefix n value.bytes p ∧
        uri.bytes = e.prefixText ++ (if e.op = .query then e.name.take 127 ++ [0x3D] else []) ++
          p.flatMap (encodedByte e.op.isReserved) := by
  obtain ⟨uri, hexpand, huri⟩ := mcpUriTemplateExpand_expr he hclose hpattern (some vars)
  refine ⟨uri, _, hexpand, isLongestPrefix_kept n value, ?_⟩
  have hlookup : e.lookupIn (some vars) = some (string value) := by
    rwa [ParsedVarExpr.lookupIn, ParsedVarExpr.nameBuf, ← hname, JString.ofBuffer_bytes]
  have hencoded := e.encoded_eq value.bytes
  rw [hmod] at hencoded
  have hscalar : e.expandValue (string value) = e.expandLead ++ e.encoded value.bytes := rfl
  have hexpr : e.expand (some vars) = e.expandValue (string value) := by
    rw [ParsedVarExpr.expand, hlookup]
  rw [huri, hexpr, hscalar, hencoded, ParsedVarExpr.expandLead, ParsedVarExpr.nameBuf]

def valueAB : JString := ⟨[0x61, 0x62], by decide, by decide⟩

theorem mcpUriTemplateExpand_firstOfAB :
    ∃ (uri : CString) (p : Bytes), @mcpUriTemplateExpand zeroFormat (some firstOfVariable.text)
          (some (object [(nameV, string valueAB)])) true = (.ok, some uri) ∧
        IsLongestPrefix 1 valueAB.bytes p ∧ uri.bytes = p.flatMap (encodedByte false) :=
  @mcpUriTemplateExpand_longest zeroFormat [0x76, 0x3A, 0x31] ⟨.simple, [0x76], .modPrefix 1⟩
    (by decide) (by decide) firstOfVariable.text rfl 1 rfl (object [(nameV, string valueAB)])
    nameV valueAB rfl rfl

/-- The expansion without the name of a query, of a variable that goes by its whole name. -/
def IsPlainExpansion (e : ParsedVarExpr) (n : Nat) (value : JString) (uri : CString) : Prop :=
  ∃ p, IsLongestPrefix n value.bytes p ∧
    uri.bytes = e.prefixText ++ p.flatMap (encodedByte e.op.isReserved)

theorem isPlainExpansion_iff {value : JString} {uri : CString} :
    IsPlainExpansion e n value uri ↔
      uri.bytes = e.prefixText ++ ((UriModifier.modPrefix n).kept 0 value.bytes).flatMap
        (encodedByte e.op.isReserved) := by
  constructor
  · rintro ⟨p, hp, huri⟩
    rwa [hp.unique (isLongestPrefix_kept n value)] at huri
  · intro huri
    exact ⟨_, isLongestPrefix_kept n value, huri⟩

def longName : JString := ⟨List.replicate 128 0x76, by decide, by decide +kernel⟩

/-- The name of a query stands between the prefix of the operator and the value, and a variable
with a name of 128 bytes is not found. -/
theorem not_isPlainExpansion :
    (∃ uri : CString,
      @mcpUriTemplateExpand zeroFormat (some ⟨[0x7B, 0x3F, 0x76, 0x3A, 0x31, 0x7D], by decide⟩)
          (some (object [(nameV, string valueAB)])) true = (.ok, some uri) ∧
        ¬IsPlainExpansion ⟨.query, nameV.bytes, .modPrefix 1⟩ 1 valueAB uri) ∧
      ∃ uri : CString, @mcpUriTemplateExpand zeroFormat
            (some ⟨0x7B :: (longName.bytes ++ [0x3A, 0x31, 0x7D]), by decide⟩)
            (some (object [(longName, string valueAB)])) true = (.ok, some uri) ∧
          ¬IsPlainExpansion ⟨.simple, longName.bytes, .modPrefix 1⟩ 1 valueAB uri := by
  constructor
  · refine ⟨⟨[0x3F, 0x76, 0x3D, 0x61], by decide⟩, rfl, ?_⟩
    rw [isPlainExpansion_iff]
    decide
  · refine ⟨⟨[], not_mem_nil⟩, by decide +kernel, ?_⟩
    rw [isPlainExpansion_iff]
    decide

end Mcpkit.Protocol.UriTemplate
