import Mcpkit.Lib.Utf8

/-!
# The grammar of JSON texts

The productions of RFC 8259 as derivations over bytes.  The syntax tree keeps number literals as
bytes and strings as lists of raw scalar values and escapes.  What a string denotes is a partial
function: a `\u` escape in the surrogate range has a meaning only as part of a high-low pair.
-/

namespace JsonText

open List Option Utf8 Bool UInt8

def isWs (b : UInt8) : Bool := b == 0x20 || b == 0x09 || b == 0x0A || b == 0x0D

def isDigit (b : UInt8) : Bool := 0x30 ≤ b && b ≤ 0x39

def Ws (s : List UInt8) : Prop := ∀ b ∈ s, isWs b = true

def Digits (s : List UInt8) : Prop := s ≠ [] ∧ ∀ b ∈ s, isDigit b = true

inductive IntPart : List UInt8 → Prop
  | zero : IntPart [0x30]
  | nonzero {b : UInt8} {ds : List UInt8} (hb : 0x31 ≤ b ∧ b ≤ 0x39)
      (hds : ∀ d ∈ ds, isDigit d = true) : IntPart (b :: ds)

inductive FracPart : List UInt8 → Prop
  | absent : FracPart []
  | present {ds : List UInt8} (hds : Digits ds) : FracPart (0x2E :: ds)

inductive ExpPart : List UInt8 → Prop
  | absent : ExpPart []
  | present {e : UInt8} {sign ds : List UInt8} (he : e = 0x65 ∨ e = 0x45)
      (hsign : sign = [] ∨ sign = [0x2B] ∨ sign = [0x2D]) (hds : Digits ds) :
      ExpPart (e :: (sign ++ ds))

inductive Number : List UInt8 → Prop
  | intro {minus int frac exp : List UInt8} (hminus : minus = [] ∨ minus = [0x2D])
      (hint : IntPart int) (hfrac : FracPart frac) (hexp : ExpPart exp) :
      Number (minus ++ (int ++ (frac ++ exp)))

inductive Escape where
  | quote | backslash | slash | backspace | formfeed | newline | carriage | tab
  deriving DecidableEq

def Escape.letter : Escape → UInt8
  | quote => 0x22
  | backslash => 0x5C
  | slash => 0x2F
  | backspace => 0x62
  | formfeed => 0x66
  | newline => 0x6E
  | carriage => 0x72
  | tab => 0x74

def Escape.char : Escape → Char
  | quote => '\x22'
  | backslash => '\x5C'
  | slash => '/'
  | backspace => '\x08'
  | formfeed => '\x0C'
  | newline => '\x0A'
  | carriage => '\x0D'
  | tab => '\x09'

def hexValue (b : UInt8) : Option Nat :=
  if 0x30 ≤ b ∧ b ≤ 0x39 then some (b.toNat - 0x30)
  else if 0x61 ≤ b ∧ b ≤ 0x66 then some (b.toNat - 0x61 + 10)
  else if 0x41 ≤ b ∧ b ≤ 0x46 then some (b.toNat - 0x41 + 10)
  else none

variable {c : UInt8} {u : Nat} {s : List UInt8}

variable {x : Nat} {w t : List UInt8} {b : UInt8}

theorem hexValue_lt (h : hexValue c = some x) : x < 16 := by
  simp only [hexValue, le_iff_toNat_le, reduceToNat] at h
  split_ifs at h <;> cases h <;> omega

theorem hexValue_ascii (h : hexValue c = some x) : c < 0x80 := by
  simp only [hexValue, le_iff_toNat_le, reduceToNat] at h
  simp only [lt_iff_toNat_lt, reduceToNat]
  split_ifs at h <;> omega

/-- One element of a string between its quotes. -/
inductive Elem where
  | raw (c : Char)
  | escape (e : Escape)
  | unicode (unit : Nat)
  deriving DecidableEq

def Unescaped (c : Char) : Prop := 0x20 ≤ c.toNat ∧ c.toNat ≠ 0x22 ∧ c.toNat ≠ 0x5C

inductive Element : List UInt8 → Elem → Prop
  | raw {c : Char} (hc : Unescaped c) : Element (String.utf8EncodeChar c) (.raw c)
  | escape (e : Escape) : Element [0x5C, e.letter] (.escape e)
  | unicode {a b c d : UInt8} {x y z w : Nat} (ha : hexValue a = some x)
      (hb : hexValue b = some y) (hc : hexValue c = some z) (hd : hexValue d = some w) :
      Element [0x5C, 0x75, a, b, c, d] (.unicode (((x * 16 + y) * 16 + z) * 16 + w))

/-- The characters between two quotation marks. -/
inductive StringBody : List UInt8 → List Elem → Prop
  | nil : StringBody [] []
  | cons {s t : List UInt8} {e : Elem} {es : List Elem} (he : Element s e)
      (hes : StringBody t es) : StringBody (s ++ t) (e :: es)

def isHighSurrogate (u : Nat) : Bool := 0xD800 ≤ u && u ≤ 0xDBFF

def isLowSurrogate (u : Nat) : Bool := 0xDC00 ≤ u && u ≤ 0xDFFF

def pairValue (hi lo : Nat) : Nat := 0x10000 + (hi - 0xD800) * 0x400 + (lo - 0xDC00)

/-- The scalar values a string denotes, if each of its surrogates is in a pair. -/
def denote : List Elem → Option (List Char)
  | [] => some []
  | .raw c :: es => (denote es).map (c :: ·)
  | .escape e :: es => (denote es).map (e.char :: ·)
  | .unicode u :: es =>
    if isHighSurrogate u then
      match es with
      | .unicode lo :: es =>
        if isLowSurrogate lo then (denote es).map (Char.ofNat (pairValue u lo) :: ·) else none
      | _ => none
    else if isLowSurrogate u then none
    else (denote es).map (Char.ofNat u :: ·)

/-- Every `\u` escape in the surrogate range belongs to a high-low pair. -/
inductive Paired : List Elem → Prop
  | nil : Paired []
  | raw {es : List Elem} (c : Char) (hes : Paired es) : Paired (.raw c :: es)
  | escape {es : List Elem} (e : Escape) (hes : Paired es) : Paired (.escape e :: es)
  | scalar {es : List Elem} {u : Nat} (hhigh : isHighSurrogate u = false)
      (hlow : isLowSurrogate u = false) (hes : Paired es) : Paired (.unicode u :: es)
  | pair {es : List Elem} {hi lo : Nat} (hhi : isHighSurrogate hi = true)
      (hlo : isLowSurrogate lo = true) (hes : Paired es) :
      Paired (.unicode hi :: .unicode lo :: es)

theorem denote_scalar (hhigh : isHighSurrogate u = false) (hlow : isLowSurrogate u = false)
    (es : List Elem) : denote (.unicode u :: es) = (denote es).map (Char.ofNat u :: ·) := by
  rw [denote.eq_def]
  simp [hhigh, hlow]

theorem denote_low (hhigh : isHighSurrogate u = false) (hlow : isLowSurrogate u = true)
    (es : List Elem) : denote (.unicode u :: es) = none := by
  rw [denote.eq_def]
  simp [hhigh, hlow]

theorem denote_pair (hhigh : isHighSurrogate u = true) (lo : Nat) (es : List Elem) :
    denote (.unicode u :: .unicode lo :: es) =
      if isLowSurrogate lo then (denote es).map (Char.ofNat (pairValue u lo) :: ·) else none := by
  rw [denote.eq_def]
  simp [hhigh]

variable {es : List Elem}

theorem denote_high (hhigh : isHighSurrogate u = true) (hes : ∀ lo es', es ≠ .unicode lo :: es') :
    denote (.unicode u :: es) = none := by
  rw [denote.eq_def]
  simp [hhigh]

theorem Paired.isSome_denote (h : Paired es) : (denote es).isSome = true := by
  induction h with
  | nil => rfl
  | raw c _ ih | escape e _ ih => simpa [denote] using ih
  | scalar hhigh hlow _ ih => simpa [denote_scalar hhigh hlow] using ih
  | pair hhi hlo _ ih => simpa [denote_pair hhi, hlo] using ih

theorem paired_of_denote {cs : List Char} (h : denote es = some cs) : Paired es := by
  -- a pair is two elements, hence the induction on the length
  induction hn : es.length using Nat.strong_induction_on generalizing es cs with
  | _ n ih =>
    match es with
    | [] => exact .nil
    | .raw c :: es =>
      obtain ⟨cs, hcs, -⟩ := map_eq_some_iff.mp h
      exact .raw c (ih _ (by simp [← hn]) hcs rfl)
    | .escape e :: es =>
      obtain ⟨cs, hcs, -⟩ := map_eq_some_iff.mp h
      exact .escape e (ih _ (by simp [← hn]) hcs rfl)
    | .unicode u :: es =>
      by_cases hhigh : isHighSurrogate u = true
      · by_cases hnext : ∃ lo es', es = .unicode lo :: es'
        · obtain ⟨lo, es, rfl⟩ := hnext
          rw [denote_pair hhigh] at h
          split at h
          · rename_i hlow
            obtain ⟨cs, hcs, -⟩ := map_eq_some_iff.mp h
            exact .pair hhigh hlow (ih _ (by simp only [← hn, length_cons]; omega) hcs rfl)
          · cases h
        · rw [denote_high hhigh fun lo es' he => hnext ⟨lo, es', he⟩] at h
          cases h
      rw [not_eq_true] at hhigh
      by_cases hlow : isLowSurrogate u = true
      · rw [denote_low hhigh hlow] at h
        cases h
      rw [not_eq_true] at hlow
      rw [denote_scalar hhigh hlow] at h
      obtain ⟨cs, hcs, -⟩ := map_eq_some_iff.mp h
      exact .scalar hhigh hlow (ih _ (by simp [← hn]) hcs rfl)

theorem isSome_denote_iff : (denote es).isSome = true ↔ Paired es := by
  constructor
  · intro h
    obtain ⟨cs, hcs⟩ := isSome_iff_exists.mp h
    exact paired_of_denote hcs
  · exact Paired.isSome_denote

inductive Tree where
  | null
  | bool (b : Bool)
  | number (literal : List UInt8)
  | string (body : List Elem)
  | array (items : List Tree)
  | object (members : List (List Elem × Tree))

mutual

def Tree.depth : Tree → Nat
  | .array items => depthList items + 1
  | .object members => depthMembers members + 1
  | _ => 0

def depthList : List Tree → Nat
  | [] => 0
  | t :: ts => max t.depth (depthList ts)

def depthMembers : List (List Elem × Tree) → Nat
  | [] => 0
  | (_, t) :: ms => max t.depth (depthMembers ms)

end

mutual

def Tree.numbers : Tree → List (List UInt8)
  | .number literal => [literal]
  | .array items => numbersList items
  | .object members => numbersMembers members
  | _ => []

def numbersList : List Tree → List (List UInt8)
  | [] => []
  | t :: ts => t.numbers ++ numbersList ts

def numbersMembers : List (List Elem × Tree) → List (List UInt8)
  | [] => []
  | (_, t) :: ms => t.numbers ++ numbersMembers ms

end

mutual

def Tree.strings : Tree → List (List Elem)
  | .string body => [body]
  | .array items => stringsList items
  | .object members => stringsMembers members
  | _ => []

def stringsList : List Tree → List (List Elem)
  | [] => []
  | t :: ts => t.strings ++ stringsList ts

def stringsMembers : List (List Elem × Tree) → List (List Elem)
  | [] => []
  | (k, t) :: ms => k :: (t.strings ++ stringsMembers ms)

end

mutual

/-- `Value s t`: the bytes `s`, without surrounding whitespace, are the value `t`. -/
inductive Value : List UInt8 → Tree → Prop
  | null : Value [0x6E, 0x75, 0x6C, 0x6C] .null
  | true : Value [0x74, 0x72, 0x75, 0x65] (.bool .true)
  | false : Value [0x66, 0x61, 0x6C, 0x73, 0x65] (.bool .false)
  | number {s : List UInt8} (hs : Number s) : Value s (.number s)
  | string {s : List UInt8} {es : List Elem} (hs : StringBody s es) :
      Value (0x22 :: (s ++ [0x22])) (.string es)
  | emptyArray {w : List UInt8} (hw : Ws w) : Value (0x5B :: (w ++ [0x5D])) (.array [])
  | array {s : List UInt8} {ts : List Tree} (hs : Items s ts) :
      Value (0x5B :: (s ++ [0x5D])) (.array ts)
  | emptyObject {w : List UInt8} (hw : Ws w) : Value (0x7B :: (w ++ [0x7D])) (.object [])
  | object {s : List UInt8} {ms : List (List Elem × Tree)} (hs : Members s ms) :
      Value (0x7B :: (s ++ [0x7D])) (.object ms)

/-- One or more values separated by commas, each with its surrounding whitespace. -/
inductive Items : List UInt8 → List Tree → Prop
  | one {w s w' : List UInt8} {t : Tree} (hw : Ws w) (hs : Value s t) (hw' : Ws w') :
      Items (w ++ (s ++ w')) [t]
  | more {w s w' r : List UInt8} {t : Tree} {ts : List Tree} (hw : Ws w) (hs : Value s t)
      (hw' : Ws w') (hr : Items r ts) : Items (w ++ (s ++ (w' ++ 0x2C :: r))) (t :: ts)

/-- One or more members separated by commas. -/
inductive Members : List UInt8 → List (List Elem × Tree) → Prop
  | one {w k w₁ w₂ s w' : List UInt8} {es : List Elem} {t : Tree} (hw : Ws w)
      (hk : StringBody k es) (hw₁ : Ws w₁) (hw₂ : Ws w₂) (hs : Value s t) (hw' : Ws w') :
      Members (w ++ 0x22 :: (k ++ 0x22 :: (w₁ ++ 0x3A :: (w₂ ++ (s ++ w'))))) [(es, t)]
  | more {w k w₁ w₂ s w' r : List UInt8} {es : List Elem} {t : Tree}
      {ms : List (List Elem × Tree)} (hw : Ws w) (hk : StringBody k es) (hw₁ : Ws w₁)
      (hw₂ : Ws w₂) (hs : Value s t) (hw' : Ws w') (hr : Members r ms) :
      Members (w ++ 0x22 :: (k ++ 0x22 :: (w₁ ++ 0x3A :: (w₂ ++ (s ++ (w' ++ 0x2C :: r))))))
        ((es, t) :: ms)

end

inductive Text : List UInt8 → Tree → Prop
  | intro {w s w' : List UInt8} {t : Tree} (hw : Ws w) (hs : Value s t) (hw' : Ws w') :
      Text (w ++ (s ++ w')) t

theorem Ws.ascii (hw : Ws w) : ∀ b ∈ w, b < 0x80 := by
  intro b hb
  have := hw b hb
  simp only [isWs, or_eq_true, beq_iff_eq] at this
  rcases this with ((rfl | rfl) | rfl) | rfl <;> decide

private theorem digits_visible {ds : List UInt8} (h : ∀ b ∈ ds, isDigit b = true) :
    ∀ b ∈ ds, 0x2A < b ∧ b < 0x80 := by
  intro b hb
  have := h b hb
  simp only [isDigit, and_eq_true, decide_eq_true_eq] at this
  exact ⟨UInt8.lt_of_lt_of_le (by decide) this.1, UInt8.lt_of_le_of_lt this.2 (by decide)⟩

theorem Number.visible (hs : Number s) : ∀ b ∈ s, 0x2A < b ∧ b < 0x80 := by
  cases hs with
  | @intro minus int frac exp hminus hint hfrac hexp =>
    have hm : ∀ b ∈ minus, 0x2A < b ∧ b < 0x80 := by rcases hminus with rfl | rfl <;> simp
    have hi : ∀ b ∈ int, 0x2A < b ∧ b < 0x80 := by
      cases hint with
      | zero => simp
      | @nonzero b ds hb hds =>
        simp only [forall_mem_cons]
        exact ⟨⟨UInt8.lt_of_lt_of_le (by decide) hb.1, UInt8.lt_of_le_of_lt hb.2 (by decide)⟩,
          digits_visible hds⟩
    have hf : ∀ b ∈ frac, 0x2A < b ∧ b < 0x80 := by
      cases hfrac with
      | absent => simp
      | present hds =>
        simp only [forall_mem_cons]
        exact ⟨by decide, digits_visible hds.2⟩
    have he : ∀ b ∈ exp, 0x2A < b ∧ b < 0x80 := by
      cases hexp with
      | absent => simp
      | @present c sign ds hc hsign hds =>
        simp only [forall_mem_cons, forall_mem_append]
        refine ⟨?_, ?_, digits_visible hds.2⟩
        · rcases hc with rfl | rfl <;> decide
        · rcases hsign with rfl | rfl | rfl <;> simp
    simp only [forall_mem_append]
    exact ⟨hm, hi, hf, he⟩

theorem Number.ascii (hs : Number s) : ∀ b ∈ s, b < 0x80 := fun b hb => (hs.visible b hb).2

theorem StringBody.wellFormed (hs : StringBody s es) : WellFormed s := by
  induction hs with
  | nil => exact .nil
  | cons he _ ih =>
    refine WellFormed.append_wellFormed ?_ ih
    cases he with
    | raw => simpa using wellFormed_encode [_]
    | escape e => exact wellFormed_of_ascii (by cases e <;> simp [Escape.letter])
    | unicode ha hb hc hd =>
      refine wellFormed_of_ascii ?_
      simp [hexValue_ascii ha, hexValue_ascii hb, hexValue_ascii hc, hexValue_ascii hd]

private theorem Ws.wellFormed (hw : Ws w) : WellFormed w := wellFormed_of_ascii hw.ascii

private theorem wellFormed_cons (hb : b < 0x80) (ht : WellFormed t) : WellFormed (b :: t) := by
  have h : WellFormed [b] := wellFormed_of_ascii (by simpa using hb)
  exact h.append_wellFormed ht

private theorem wellFormed_enclose (hb : b < 0x80) (hc : c < 0x80) (ht : WellFormed t) :
    WellFormed (b :: (t ++ [c])) :=
  wellFormed_cons hb (ht.append_wellFormed (wellFormed_cons hc .nil))

mutual

theorem Value.wellFormed {s : List UInt8} {t : Tree} (hs : Value s t) : WellFormed s := by
  cases hs with
  | null | true | false => exact wellFormed_of_ascii (by simp)
  | number hn => exact wellFormed_of_ascii hn.ascii
  | string hs => exact wellFormed_enclose (by decide) (by decide) hs.wellFormed
  | emptyArray hw | emptyObject hw => exact wellFormed_enclose (by decide) (by decide) hw.wellFormed
  | array hs => exact wellFormed_enclose (by decide) (by decide) (Items.wellFormed hs)
  | object hs => exact wellFormed_enclose (by decide) (by decide) (Members.wellFormed hs)

theorem Items.wellFormed {s : List UInt8} {ts : List Tree} (hs : Items s ts) :
    WellFormed s := by
  cases hs with
  | one hw hv hw' =>
    exact hw.wellFormed.append_wellFormed ((Value.wellFormed hv).append_wellFormed hw'.wellFormed)
  | more hw hv hw' hr =>
    have hrest := hw'.wellFormed.append_wellFormed
      (wellFormed_cons (b := 0x2C) (by decide) (Items.wellFormed hr))
    exact hw.wellFormed.append_wellFormed ((Value.wellFormed hv).append_wellFormed hrest)

theorem Members.wellFormed {s : List UInt8} {ms : List (List Elem × Tree)} (hs : Members s ms) :
    WellFormed s := by
  -- a member is its whitespace, its quoted key and, after the colon, its value
  have key {w k w₁ w₂ r : List UInt8} {es : List Elem} (hw : Ws w) (hk : StringBody k es)
      (hw₁ : Ws w₁) (hw₂ : Ws w₂) (hr : WellFormed r) :
      WellFormed (w ++ 0x22 :: (k ++ 0x22 :: (w₁ ++ 0x3A :: (w₂ ++ r)))) :=
    hw.wellFormed.append_wellFormed (wellFormed_cons (by decide)
      (hk.wellFormed.append_wellFormed (wellFormed_cons (by decide)
        (hw₁.wellFormed.append_wellFormed (wellFormed_cons (by decide)
          (hw₂.wellFormed.append_wellFormed hr))))))
  cases hs with
  | one hw hk hw₁ hw₂ hv hw' =>
    exact key hw hk hw₁ hw₂ ((Value.wellFormed hv).append_wellFormed hw'.wellFormed)
  | more hw hk hw₁ hw₂ hv hw' hr =>
    have hrest := hw'.wellFormed.append_wellFormed
      (wellFormed_cons (b := 0x2C) (by decide) (Members.wellFormed hr))
    exact key hw hk hw₁ hw₂ ((Value.wellFormed hv).append_wellFormed hrest)

end

mutual

theorem Value.number_of_mem {s l : List UInt8} {t : Tree} (hs : Value s t) (hl : l ∈ t.numbers) :
    Number l := by
  cases hs with
  | null | true | false | string | emptyArray | emptyObject => simp [Tree.numbers, numbersList,
      numbersMembers] at hl
  | number hn =>
    simp only [Tree.numbers, mem_singleton] at hl
    exact hl ▸ hn
  | array hs => exact Items.number_of_mem hs hl
  | object hs => exact Members.number_of_mem hs hl

theorem Items.number_of_mem {s l : List UInt8} {ts : List Tree} (hs : Items s ts)
    (hl : l ∈ numbersList ts) : Number l := by
  cases hs with
  | one _ hv _ =>
    simp only [numbersList, append_nil] at hl
    exact Value.number_of_mem hv hl
  | more _ hv _ hr =>
    rw [numbersList, mem_append] at hl
    exact hl.elim (Value.number_of_mem hv) (Items.number_of_mem hr)

theorem Members.number_of_mem {s l : List UInt8} {ms : List (List Elem × Tree)}
    (hs : Members s ms) (hl : l ∈ numbersMembers ms) : Number l := by
  cases hs with
  | one _ _ _ _ hv _ =>
    simp only [numbersMembers, append_nil] at hl
    exact Value.number_of_mem hv hl
  | more _ _ _ _ hv _ hr =>
    rw [numbersMembers, mem_append] at hl
    exact hl.elim (Value.number_of_mem hv) (Members.number_of_mem hr)

end

theorem Text.number_of_mem {l : List UInt8} {t : Tree} (hs : Text s t) (hl : l ∈ t.numbers) :
    Number l := by
  cases hs with
  | intro _ hv _ => exact hv.number_of_mem hl

end JsonText
