import Mathlib.Data.List.Infix
import Mcpkit.Lib.JsonText

/-!
# A quoted word in a JSON text

Where a word of small letters stands in a JSON text with a quotation mark on either side.  The marks
are those of a string that spells the word, or an escaped mark and the end of the string.
-/

namespace JsonText

open List UInt8 Utf8

section Infix

variable {α : Type*} {pat s w r : List α} {a c : α}

theorem prefix_append_cons_iff (hc : c ∉ pat) : pat <+: s ++ c :: r ↔ pat <+: s := by
  refine ⟨fun h => ?_, fun h => h.trans (prefix_append s _)⟩
  obtain hs | hs := prefix_or_prefix_of_prefix h (prefix_append s (c :: r))
  · exact hs
  · obtain ⟨rest, rfl⟩ := hs
    rw [prefix_append_right_inj] at h
    obtain _ | ⟨x, rest⟩ := rest
    · simp
    · obtain ⟨rfl, -⟩ := cons_prefix_cons.mp h
      simp at hc

/-- A pattern does not reach across an element that is not in it. -/
theorem infix_append_cons_iff (hc : c ∉ pat) : pat <:+: s ++ c :: r ↔ pat <:+: s ∨ pat <:+: r := by
  induction s with
  | nil =>
    have hnil := prefix_append_cons_iff (s := []) (r := r) hc
    rw [nil_append] at hnil ⊢
    rw [infix_cons_iff, hnil, infix_nil, prefix_nil]
  | cons x s ih =>
    have hcons := prefix_append_cons_iff (s := x :: s) (r := r) hc
    rw [cons_append] at hcons ⊢
    rw [infix_cons_iff, hcons, ih, infix_cons_iff, or_assoc]

theorem infix_append_left_iff (ha : a ∉ w) : a :: pat <:+: w ++ r ↔ a :: pat <:+: r := by
  induction w with
  | nil => rfl
  | cons x w ih =>
    obtain ⟨hax, ha⟩ := not_or.mp (mt mem_cons.mpr ha)
    rw [cons_append, infix_cons_iff, ih ha, cons_prefix_cons]
    exact or_iff_right fun h => hax h.1

theorem not_infix_of_notMem (ha : a ∉ s) : ¬a :: pat <:+: s := fun h => ha (h.subset mem_cons_self)

theorem infix_append_right_iff (ha : a ∉ w) (hw : ∀ b ∈ w, b ∉ a :: pat) :
    a :: pat <:+: s ++ w ↔ a :: pat <:+: s := by
  cases w with
  | nil => rw [append_nil]
  | cons b w =>
    rw [infix_append_cons_iff (hw b mem_cons_self)]
    exact or_iff_left (not_infix_of_notMem fun h => ha (mem_cons_of_mem b h))

end Infix

/-- The word between quotation marks. -/
def quoted (word : List UInt8) : List UInt8 := 0x22 :: (word ++ [0x22])

def rawWord (word : List UInt8) : List Elem := word.map fun b => .raw (Char.ofNat b.toNat)

/-- The string is the word, or it ends with a quotation mark and the word. -/
def Spells (word : List UInt8) (es : List Elem) : Prop :=
  es = rawWord word ∨ .escape .quote :: rawWord word <:+ es

variable {word s k : List UInt8} {e : Elem} {es : List Elem}

variable {b : UInt8}

theorem Unescaped.of_mem {c : Char} (hc : Unescaped c) (hb : b ∈ String.utf8EncodeChar c) :
    b ≠ 0 ∧ b ≠ 0x22 := by
  by_cases hlt : c.toNat < 128
  · rw [utf8EncodeChar_of_lt hlt, mem_singleton] at hb
    obtain ⟨hlow, hquote, -⟩ := hc
    subst hb
    constructor <;> rw [ne_eq, ← UInt8.toNat_inj] <;> simp <;> omega
  · have hle := le_of_mem_utf8EncodeChar (Nat.not_lt.mp hlt) hb
    constructor <;> rintro rfl <;> exact absurd hle (by decide)

theorem hexValue_ne {x : Nat} (h : hexValue b = some x) : b ≠ 0 ∧ b ≠ 0x22 := by
  constructor <;> rintro rfl <;> cases h

theorem Element.of_mem (he : Element s e) (hquote : e ≠ .escape .quote) (hb : b ∈ s) :
    b ≠ 0 ∧ b ≠ 0x22 := by
  cases he with
  | raw hc => exact hc.of_mem hb
  | escape e =>
    simp only [mem_cons, not_mem_nil, or_false] at hb
    rcases hb with rfl | rfl
    · decide
    · cases e <;> first | exact absurd rfl hquote | decide
  | unicode h₁ h₂ h₃ h₄ =>
    simp only [mem_cons, not_mem_nil, or_false] at hb
    rcases hb with rfl | rfl | rfl | rfl | rfl | rfl
    · decide
    · decide
    · exact hexValue_ne h₁
    · exact hexValue_ne h₂
    · exact hexValue_ne h₃
    · exact hexValue_ne h₄

theorem Element.exists_head (he : Element s e) : ∃ b r, s = b :: r ∧ b ≠ 0x22 := by
  cases he with
  | escape | unicode => exact ⟨_, _, rfl, by decide⟩
  | @raw c hc =>
    obtain ⟨b, r, hs, -⟩ := (sequence_utf8EncodeChar c).exists_lead
    exact ⟨b, r, hs, (hc.of_mem (hs ▸ mem_cons_self)).2⟩

/-- A letter begins only the element that is the letter. -/
theorem Element.letter_iff {x y : List UInt8} (hb : 0x61 ≤ b ∧ b ≤ 0x7A) (he : Element s e) :
    b :: x <+: s ++ y ↔ e = .raw (Char.ofNat b.toNat) ∧ x <+: y := by
  have hne : b ≠ 0x5C := by rintro rfl; exact absurd hb.1 (by decide)
  have hle : b.toNat ≤ 0x7A := hb.2
  have hchar : (Char.ofNat b.toNat).toNat = b.toNat :=
    forall_byte (p := fun b => 0x61 ≤ b ∧ b ≤ 0x7A → (Char.ofNat b.toNat).toNat = b.toNat)
      (by decide +kernel) b hb
  cases he with
  | escape | unicode => simp [hne]
  | @raw c hc =>
    rw [Elem.raw.injEq]
    by_cases hlt : c.toNat < 128
    · rw [utf8EncodeChar_of_lt hlt, cons_append, cons_prefix_cons, nil_append]
      refine and_congr_left fun _ => ⟨?_, ?_⟩
      · rintro rfl
        simp [Nat.mod_eq_of_lt (show c.toNat < 256 by omega)]
      · rintro rfl
        simp [hchar]
    · refine iff_of_false (fun h => ?_) (fun h => hlt (by rw [h.1, hchar]; omega))
      obtain ⟨b', r, hs, -⟩ := (Element.raw hc).exists_head
      have hge := le_of_mem_utf8EncodeChar (Nat.not_lt.mp hlt) (hs ▸ mem_cons_self)
      rw [hs, cons_append, cons_prefix_cons] at h
      exact absurd (UInt8.le_trans (h.1 ▸ hge : 0x80 ≤ b) hb.2) (by decide)

section

variable (hword : ∀ b ∈ word, 0x61 ≤ b ∧ b ≤ 0x7A)
include hword

/-- The word follows the mark that opens a string. -/
theorem StringBody.prefix_iff (hk : StringBody k es) :
    word ++ [0x22] <+: k ++ [0x22] ↔ es = rawWord word := by
  induction word generalizing k es with
  | nil =>
    cases hk with
    | nil => simp [rawWord]
    | cons he hes =>
      obtain ⟨b, r, rfl, hb⟩ := he.exists_head
      simp [rawWord, hb.symm]
  | cons b word ih =>
    obtain ⟨hb, hword⟩ := forall_mem_cons.mp hword
    cases hk with
    | nil =>
      have hne : b ≠ 0x22 := by rintro rfl; exact absurd hb.1 (by decide)
      simp [rawWord, hne]
    | @cons s t e es he hes =>
      rw [cons_append, append_assoc, he.letter_iff hb, ih hword hes]
      simp [rawWord]

theorem StringBody.infix_iff (hk : StringBody k es) :
    quoted word <:+: k ++ [0x22] ↔ .escape .quote :: rawWord word <:+ es := by
  induction hk with
  | nil => simp [quoted, infix_cons_iff]
  | @cons s t e es he hes ih =>
    rw [append_assoc, suffix_cons_iff, ← ih]
    by_cases hquote : e = .escape .quote
    · subst hquote
      cases he
      have hpre : quoted word <+: 0x22 :: (t ++ [0x22]) ↔ es = rawWord word := by
        rw [quoted, cons_prefix_cons, StringBody.prefix_iff hword hes]
        simp
      have hslash : ¬quoted word <+: 0x5C :: 0x22 :: (t ++ [0x22]) := by simp [quoted]
      change quoted word <:+: 0x5C :: 0x22 :: (t ++ [0x22]) ↔ _
      rw [infix_cons_iff, or_iff_right hslash, infix_cons_iff, hpre, cons.injEq, eq_comm]
      simp
    · rw [quoted, infix_append_left_iff fun hmem => (he.of_mem hquote hmem).2 rfl]
      simp [Ne.symm hquote]

end

theorem StringBody.zero_notMem (hk : StringBody k es) : 0 ∉ k := by
  induction hk with
  | nil => simp
  | @cons s t e es he _ ih =>
    rw [mem_append, not_or]
    refine ⟨fun h => ?_, ih⟩
    by_cases hquote : e = .escape .quote
    · subst hquote
      cases he
      simp [Escape.letter] at h
    · exact (he.of_mem hquote h).1 rfl

/-- The byte is neither in a word of small letters nor one of its marks. -/
def Outside (c : UInt8) : Prop := c ≠ 0 ∧ (c < 0x22 ∨ 0x22 < c ∧ c < 0x61 ∨ 0x7A < c)

instance (c : UInt8) : Decidable (Outside c) := inferInstanceAs (Decidable (_ ∧ _))

/-- What the strings of a part of a text say about the word in it. -/
structure Shows (word s : List UInt8) (strings : List (List Elem)) : Prop where
  zero_notMem : 0 ∉ s
  infix_iff : quoted word <:+: s ↔ ∃ es ∈ strings, Spells word es

namespace Shows

variable {w r : List UInt8} {ss rs : List (List Elem)} {c : UInt8}

theorem plain (h : ∀ b ∈ s, b ≠ 0 ∧ b ≠ 0x22) : Shows word s [] := by
  refine ⟨fun h0 => (h 0 h0).1 rfl, iff_of_false ?_ (by simp)⟩
  exact not_infix_of_notMem fun hq => (h _ hq).2 rfl

theorem ws_append (hw : Ws w) (hs : Shows word s ss) : Shows word (w ++ s) ss := by
  refine ⟨?_, ?_⟩
  · rw [mem_append, not_or]
    exact ⟨fun h => absurd (hw 0 h) (by decide), hs.zero_notMem⟩
  · rw [quoted, infix_append_left_iff fun h => absurd (hw _ h) (by decide)]
    exact hs.infix_iff

variable (hword : ∀ b ∈ word, 0x61 ≤ b ∧ b ≤ 0x7A)
include hword

theorem notMem_quoted (hc : Outside c) : c ∉ quoted word := by
  have hmark : c ≠ 0x22 := by rintro rfl; exact absurd hc (by decide)
  simp only [quoted, mem_cons, mem_append, not_mem_nil, or_false, hmark, false_or]
  intro hmem
  obtain ⟨hlow, hhigh⟩ := hword c hmem
  simp only [Outside, lt_iff_toNat_lt, le_iff_toNat_le, reduceToNat]
    at hc hlow hhigh
  omega

theorem append_ws (hw : Ws w) (hs : Shows word s ss) : Shows word (s ++ w) ss := by
  refine ⟨?_, ?_⟩
  · rw [mem_append, not_or]
    exact ⟨hs.zero_notMem, fun h => absurd (hw 0 h) (by decide)⟩
  · have hws : ∀ b ∈ w, b ∉ quoted word := fun b hb => by
      have h := hw b hb
      simp only [isWs, Bool.or_eq_true, beq_iff_eq] at h
      rcases h with ((rfl | rfl) | rfl) | rfl <;> exact notMem_quoted hword (by decide)
    rw [quoted, infix_append_right_iff (fun h => absurd (hw _ h) (by decide)) hws]
    exact hs.infix_iff

/-- Two parts with a mark between them that is not in the word. -/
theorem join (hs : Shows word s ss) (hr : Shows word r rs)
    (hc : Outside c) : Shows word (s ++ c :: r) (ss ++ rs) := by
  refine ⟨?_, ?_⟩
  · simp [hs.zero_notMem, hr.zero_notMem, hc.1.symm]
  · rw [infix_append_cons_iff (notMem_quoted hword hc), hs.infix_iff, hr.infix_iff]
    simp only [mem_append, or_and_right, exists_or]

theorem string (hk : StringBody k es) : Shows word (0x22 :: (k ++ [0x22])) [es] := by
  refine ⟨by simp [hk.zero_notMem], ?_⟩
  rw [quoted, infix_cons_iff, cons_prefix_cons, StringBody.prefix_iff hword hk]
  simp only [true_and, mem_singleton, exists_eq_left, Spells, ← StringBody.infix_iff hword hk]
  rfl

theorem enclose {a : UInt8} (hs : Shows word s ss) (ha : Outside a) (hc : Outside c) :
    Shows word (a :: (s ++ [c])) ss := by
  have hnil : Shows word [] [] := plain (by simp)
  simpa using hnil.join hword (hs.join hword hnil hc) ha

end Shows

section

variable (hword : ∀ b ∈ word, 0x61 ≤ b ∧ b ≤ 0x7A)
include hword

mutual

theorem Value.shows {s : List UInt8} {t : Tree} (hs : Value s t) : Shows word s t.strings := by
  cases hs with
  | null | true | false => exact .plain (by simp)
  | number hn =>
    refine .plain fun b hb => ⟨?_, ?_⟩ <;> rintro rfl
    · exact absurd (hn.visible 0 hb).1 (by decide)
    · exact absurd (hn.visible _ hb).1 (by decide)
  | string hs => exact .string hword hs
  | emptyArray hw | emptyObject hw =>
    have hnil : Shows word [] [] := .plain (by simp)
    exact (hnil.append_ws hword hw).enclose hword (by decide) (by decide)
  | array hs => exact (Items.shows hs).enclose hword (by decide) (by decide)
  | object hs => exact (Members.shows hs).enclose hword (by decide) (by decide)

theorem Items.shows {s : List UInt8} {ts : List Tree} (hs : Items s ts) :
    Shows word s (stringsList ts) := by
  cases hs with
  | one hw hv hw' =>
    have h := ((Value.shows hv).append_ws hword hw').ws_append hw
    simpa [stringsList] using h
  | more hw hv hw' hr =>
    have h := (((Value.shows hv).append_ws hword hw').ws_append hw).join hword (Items.shows hr)
      (c := 0x2C) (by decide)
    simpa [stringsList] using h

theorem Members.shows {s : List UInt8} {ms : List (List Elem × Tree)} (hs : Members s ms) :
    Shows word s (stringsMembers ms) := by
  cases hs with
  | one hw hk hw₁ hw₂ hv hw' =>
    have h := (((Shows.string hword hk).append_ws hword hw₁).ws_append hw).join (c := 0x3A) hword
      (((Value.shows hv).append_ws hword hw').ws_append hw₂) (by decide)
    simpa [stringsMembers] using h
  | more hw hk hw₁ hw₂ hv hw' hr =>
    have h := (((Shows.string hword hk).append_ws hword hw₁).ws_append hw).join (c := 0x3A) hword
      (((Value.shows hv).append_ws hword hw').ws_append hw₂) (by decide)
    simpa [stringsMembers] using h.join (c := 0x2C) hword (Members.shows hr) (by decide)

end

theorem Text.shows {t : Tree} (h : Text s t) : Shows word s t.strings := by
  cases h with
  | intro hw hv hw' => exact ((Value.shows hword hv).append_ws hword hw').ws_append hw

/-- The word does not reach across the end of an object. -/
theorem Text.infix_append_iff {ms : List (List Elem × Tree)} (h : Text s (.object ms))
    (r : List UInt8) :
    quoted word <:+: s ++ r ↔ quoted word <:+: s ∨ quoted word <:+: r := by
  cases h with
  | @intro w v w' _ _ hv hw' =>
    obtain ⟨u, rfl⟩ : ∃ u, v = u ++ [0x7D] := by
      cases hv with
      | emptyObject | object => exact ⟨_ :: _, rfl⟩
    have hquote : 0x22 ∉ w' := fun h => absurd (hw' _ h) (by decide)
    have hbrace : 0x7D ∉ quoted word := Shows.notMem_quoted hword (by decide)
    have hs : w ++ (u ++ [0x7D] ++ w') = (w ++ u) ++ 0x7D :: w' := by simp
    have hsr : w ++ (u ++ [0x7D] ++ w') ++ r = (w ++ u) ++ 0x7D :: (w' ++ r) := by simp
    rw [hsr, hs, infix_append_cons_iff hbrace, infix_append_cons_iff hbrace, quoted,
      infix_append_left_iff hquote, or_iff_left (not_infix_of_notMem hquote)]

end

end JsonText
