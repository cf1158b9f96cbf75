import Mathlib.Data.List.DropRight
import Mcpkit.Json.Scanner

/-!
# The texts the parser accepts

`build` is the value the backend makes of a syntax tree: a string ends at its
first `U+0000`, a later member replaces an earlier one with the same key, and
there is no value when nesting, a surrogate or a number is out of bounds.

On every derivable text the parser returns what `build` gives, and it accepts
derivable texts only.  The two facts together determine the accepted texts.
-/

namespace Mcpkit.Json

open List JsonText Utf8 Nat Option JString
open Option (map_eq_some_iff map_some)

open JsonText (Ws Number Elem StringBody denote Tree Value Items Members)

variable {b : UInt8} {s w rest ps : Bytes}

private theorem isWs_not_of (h : isWs b = false) (t : Bytes) :
    HeadIs (fun b => !isWs b) (b :: t) := by
  rw [headIs_cons, h]
  rfl

theorem Number.head (hs : Number s) : ∃ b t, s = b :: t ∧ (b = 0x2D ∨ isDigit b = true) := by
  cases hs with
  | @intro minus int frac exp hminus hint _ _ =>
    rcases hminus with rfl | rfl
    · cases hint with
      | zero => exact ⟨_, _, rfl, .inr (by decide)⟩
      | @nonzero b ds hb _ =>
        refine ⟨_, _, rfl, .inr ?_⟩
        have hlow : (0x30 : UInt8) ≤ b := UInt8.le_trans (by decide) hb.1
        simp [isDigit, hlow, hb.2]
    · exact ⟨_, _, rfl, .inl rfl⟩

/-- The first bytes of values: none is whitespace, a closing bracket or a separator. -/
def startsValue (b : UInt8) : Bool :=
  b == 0x6E || b == 0x74 || b == 0x66 || b == 0x22 || b == 0x5B || b == 0x7B || b == 0x2D ||
    isDigit b

theorem Value.head {t : Tree} (hs : Value s t) : ∃ b r, s = b :: r ∧ startsValue b = true := by
  cases hs with
  | number hn =>
    obtain ⟨b, r, rfl, hb⟩ := Number.head hn
    refine ⟨b, r, rfl, ?_⟩
    rcases hb with rfl | hb
    · rfl
    · simp [startsValue, hb]
  | null | true | false | string | emptyArray | array | emptyObject | object =>
    exact ⟨_, _, rfl, rfl⟩

theorem startsValue_not :
    ∀ {b : UInt8}, startsValue b = true → isWs b = false ∧ b ≠ 0x5D ∧ b ≠ 0x7D :=
  @(Utf8.forall_byte (by decide +kernel))

theorem Items.head {ts : List Tree} (hs : Items s ts) :
    ∃ w b r, s = w ++ b :: r ∧ Ws w ∧ startsValue b = true := by
  cases hs with
  | one hw hv _ | more hw hv _ _ =>
    obtain ⟨b, r, rfl, hb⟩ := Value.head hv
    exact ⟨_, b, _, rfl, hw, hb⟩

private theorem skipWs_skipWs (ps : Bytes) : skipWs (skipWs ps) = skipWs ps := by
  rw [skipWs_eq, skipWs_eq, dropWhile_idempotent]

theorem skipWs_value {t : Tree} (hw : Ws w) (hs : Value s t) (rest : Bytes) :
    skipWs (w ++ (s ++ rest)) = s ++ rest := by
  obtain ⟨b, r, rfl, hb⟩ := Value.head hs
  exact skipWs_append hw (isWs_not_of (startsValue_not hb).1 _)

theorem headIs_delimits_ws (hw : Ws w) (hrest : HeadIs Delimits rest) :
    HeadIs Delimits (w ++ rest) := by
  cases w with
  | nil => exact hrest
  | cons b w =>
    have hws : ∀ b : UInt8, isWs b = true → Delimits b = true :=
      Utf8.forall_byte (by decide +kernel)
    exact headIs_cons.mpr (hws b (hw b mem_cons_self))

private theorem newStringN_ofChars (cs : List Char) :
    JsonValue.newStringN (cString (encode cs)) = some (.string (ofChars cs)) := by
  rw [JsonValue.newStringN, dif_pos ⟨zero_notMem_cString _, utf8Valid_cString_encode cs⟩]
  rfl

private theorem objectSet_ofChars (members : MemberList) (cs : List Char)
    (v : JsonValue) : JsonValue.objectSet (.object members) (encode cs) v =
      .ok (.object (Assoc.set members (ofChars cs) v)) := by
  simp only [JsonValue.objectSet, ofBuffer, utf8Valid_cString_encode, dif_pos]
  rfl

variable {t text : Bytes} {v : JsonValue}

private theorem skipWs_mark (hw : Ws w) (hb : isWs b = false) : skipWs (w ++ b :: t) = b :: t :=
  skipWs_append hw (isWs_not_of hb t)

private theorem delimits_mark (hw : Ws w) (hb : Delimits b = true) :
    HeadIs Delimits (w ++ b :: t) :=
  headIs_delimits_ws hw (headIs_cons.mpr hb)

variable [Libc]

/-- `strtod` consumes the literal and its result is finite. -/
def numberOk (literal : Bytes) : Bool :=
  (Libc.strtod literal).2 == literal.length && (Libc.strtod literal).1.isFinite

mutual

def build (depth : Nat) : Tree → Option JsonValue
  | .null => some .null
  | .bool b => some (.bool b)
  | .number literal =>
    if numberOk literal then JsonValue.newNumber (Libc.strtod literal).1 else none
  | .string body => (denote body).map fun cs => .string (ofChars cs)
  | .array items =>
    if depth + 1 > mcpJsonMaxDepth then none
    else (buildItems (depth + 1) items).map JsonValue.array
  | .object members =>
    if depth + 1 > mcpJsonMaxDepth then none
    else (buildMembers (depth + 1) members []).map JsonValue.object

def buildItems (depth : Nat) : List Tree → Option (List JsonValue)
  | [] => some []
  | t :: ts => do
    let v ← build depth t
    let vs ← buildItems depth ts
    return v :: vs

/-- The members so far, followed by the members of the list. -/
def buildMembers (depth : Nat) :
    List (List Elem × Tree) → MemberList → Option MemberList
  | [], members => some members
  | (key, t) :: ms, members => do
    let cs ← denote key
    let v ← build depth t
    buildMembers depth ms (Assoc.set members (ofChars cs) v)

end

theorem parseNumber_append (hs : Number s) (hrest : HeadIs Delimits rest) :
    parseNumber (s ++ rest) = (build 0 (.number s)).map (·, rest) := by
  simp only [parseNumber, scanNumber_append hs hrest, bind_eq_bind, bind_some,
    take_left, drop_left, build]
  change (if numberOk s = true then _ else _) = _
  by_cases h : numberOk s = true
  · rw [if_pos h, if_pos h]
    cases JsonValue.newNumber (Libc.strtod s).1 <;> rfl
  · rw [if_neg h, if_neg h]
    rfl

private theorem parseValue_of_number (hb : b = 0x2D ∨ isDigit b = true) (fuel depth : Nat) :
    parseValue (fuel + 1) depth (b :: ps) = parseNumber (b :: ps) := by
  have hne : ∀ b : UInt8, b = 0x2D ∨ isDigit b = true →
      b ≠ 0x6E ∧ b ≠ 0x74 ∧ b ≠ 0x66 ∧ b ≠ 0x22 ∧ b ≠ 0x5B ∧ b ≠ 0x7B :=
    Utf8.forall_byte (by decide +kernel)
  simp [parseValue, hne b hb]

private theorem parseArray_items {ts : List Tree} (hs : Items s ts) (fuel depth : Nat)
    (hdepth : ¬depth + 1 > mcpJsonMaxDepth) :
    parseArray (fuel + 1) depth (s ++ 0x5D :: rest) =
      parseItems fuel (depth + 1) (skipWs (s ++ 0x5D :: rest)) [] := by
  obtain ⟨w, b, r, rfl, hw, hb⟩ := Items.head hs
  obtain ⟨hws, hclose, -⟩ := startsValue_not hb
  rw [append_assoc, cons_append, parseArray, if_neg hdepth, skipWs_mark hw hws]
  split
  · rename_i h
    cases h
    exact absurd rfl hclose
  · rfl

theorem parseItems_skipWs (fuel depth : Nat) (ps : Bytes) (items : List JsonValue) :
    parseItems fuel depth (skipWs ps) items = parseItems fuel depth ps items := by
  cases fuel with
  | zero => rfl
  | succ fuel => rw [parseItems, parseItems, skipWs_skipWs]

theorem parseMembers_skipWs (fuel depth : Nat) (ps : Bytes) (obj : JsonValue) :
    parseMembers fuel depth (skipWs ps) obj = parseMembers fuel depth ps obj := by
  cases fuel with
  | zero => rfl
  | succ fuel => rw [parseMembers, parseMembers, skipWs_skipWs]

private theorem parseObject_members {ms : List (List Elem × Tree)} (hs : Members s ms)
    (fuel depth : Nat) (hdepth : ¬depth + 1 > mcpJsonMaxDepth) :
    parseObject (fuel + 1) depth (s ++ 0x7D :: rest) =
      parseMembers fuel (depth + 1) (s ++ 0x7D :: rest) (.object []) := by
  have hstart : ∃ r, skipWs (s ++ 0x7D :: rest) = 0x22 :: r := by
    cases hs with
    | one hw | more hw =>
      rw [append_assoc, cons_append]
      exact ⟨_, skipWs_mark hw (b := 0x22) rfl⟩
  obtain ⟨r, hr⟩ := hstart
  rw [parseObject, if_neg hdepth, ← parseMembers_skipWs, hr]
  rfl

mutual

theorem parseValue_value {s : Bytes} {t : Tree} (hs : Value s t) (fuel depth : Nat)
    (rest : Bytes) (hfuel : 3 * s.length + 1 ≤ fuel) (hrest : HeadIs Delimits rest) :
    parseValue fuel depth (s ++ rest) = (build depth t).map (·, rest) := by
  obtain ⟨fuel, rfl⟩ := exists_eq_add_one_of_ne_zero (show fuel ≠ 0 by omega)
  cases hs with
  | null | true | false => rfl
  | number hn =>
    obtain ⟨b, r, rfl, hb⟩ := Number.head hn
    rw [cons_append, parseValue_of_number hb, ← cons_append, parseNumber_append hn hrest]
    rfl
  | @string s es hbody =>
    have hraw := parseStringRaw_body hbody rest
    simp only [cons_append, append_assoc, nil_append]
    change (match parseStringRaw (0x22 :: (s ++ 0x22 :: rest)) with
      | some (s, rest) => (JsonValue.newStringN (cString s)).map (·, rest)
      | none => none) = _
    rw [hraw, build]
    cases denote es with
    | none => rfl
    | some cs => simp [newStringN_ofChars]
  | @emptyArray w hw =>
    simp only [length_cons, length_append] at hfuel
    obtain ⟨fuel, rfl⟩ := exists_eq_add_one_of_ne_zero (show fuel ≠ 0 by omega)
    simp only [cons_append, append_assoc, nil_append]
    change parseArray (fuel + 1) depth (w ++ 0x5D :: rest) = _
    rw [parseArray, skipWs_mark hw (b := 0x5D) rfl, build]
    split
    · rfl
    · rfl
  | @array s ts hitems =>
    simp only [length_cons, length_append] at hfuel
    obtain ⟨fuel, rfl⟩ := exists_eq_add_one_of_ne_zero (show fuel ≠ 0 by omega)
    simp only [cons_append, append_assoc, nil_append]
    change parseArray (fuel + 1) depth (s ++ 0x5D :: rest) = _
    rw [build]
    by_cases hdepth : depth + 1 > mcpJsonMaxDepth
    · rw [if_pos hdepth, parseArray, if_pos hdepth]
      rfl
    · rw [if_neg hdepth, parseArray_items hitems fuel depth hdepth, parseItems_skipWs,
        parseItems_items hitems fuel (depth + 1) rest [] (by omega)]
      cases buildItems (depth + 1) ts <;> rfl
  | @emptyObject w hw =>
    simp only [length_cons, length_append] at hfuel
    obtain ⟨fuel, rfl⟩ := exists_eq_add_one_of_ne_zero (show fuel ≠ 0 by omega)
    simp only [cons_append, append_assoc, nil_append]
    change parseObject (fuel + 1) depth (w ++ 0x7D :: rest) = _
    rw [parseObject, skipWs_mark hw (b := 0x7D) rfl, build]
    split
    · rfl
    · rfl
  | @object s ms hmembers =>
    simp only [length_cons, length_append] at hfuel
    obtain ⟨fuel, rfl⟩ := exists_eq_add_one_of_ne_zero (show fuel ≠ 0 by omega)
    simp only [cons_append, append_assoc, nil_append]
    change parseObject (fuel + 1) depth (s ++ 0x7D :: rest) = _
    rw [build]
    by_cases hdepth : depth + 1 > mcpJsonMaxDepth
    · rw [if_pos hdepth, parseObject, if_pos hdepth]
      rfl
    · rw [if_neg hdepth, parseObject_members hmembers fuel depth hdepth,
        parseMembers_members hmembers fuel (depth + 1) rest [] (by omega)]
      cases buildMembers (depth + 1) ms [] <;> rfl
termination_by fuel

theorem parseItems_items {s : Bytes} {ts : List Tree} (hs : Items s ts) (fuel depth : Nat)
    (rest : Bytes) (items : List JsonValue) (hfuel : 3 * s.length + 2 ≤ fuel) :
    parseItems fuel depth (s ++ 0x5D :: rest) items =
      (buildItems depth ts).map fun vs => (.array (items ++ vs), rest) := by
  obtain ⟨fuel, rfl⟩ := exists_eq_add_one_of_ne_zero (show fuel ≠ 0 by omega)
  cases hs with
  | @one w s w' t hw hv hw' =>
    simp only [length_append] at hfuel
    simp only [append_assoc]
    rw [parseItems, skipWs_value hw hv,
      parseValue_value hv fuel depth _ (by omega) (delimits_mark hw' (b := 0x5D) rfl), buildItems]
    cases build depth t with
    | none => rfl
    | some v => simp [skipWs_mark hw' (b := 0x5D) rfl, buildItems]
  | @more w s w' r t ts hw hv hw' hr =>
    simp only [length_append, length_cons] at hfuel
    simp only [append_assoc, cons_append]
    rw [parseItems, skipWs_value hw hv,
      parseValue_value hv fuel depth _ (by omega) (delimits_mark hw' (b := 0x2C) rfl), buildItems]
    cases build depth t with
    | none => rfl
    | some v =>
      simp only [map_some, skipWs_mark hw' (b := 0x2C) rfl]
      rw [parseItems_items hr fuel depth rest _ (by omega)]
      cases buildItems depth ts <;> simp
termination_by fuel

theorem parseMembers_members {s : Bytes} {ms : List (List Elem × Tree)} (hs : Members s ms)
    (fuel depth : Nat) (rest : Bytes) (members : MemberList)
    (hfuel : 3 * s.length + 2 ≤ fuel) :
    parseMembers fuel depth (s ++ 0x7D :: rest) (.object members) =
      (buildMembers depth ms members).map fun all => (.object all, rest) := by
  obtain ⟨fuel, rfl⟩ := exists_eq_add_one_of_ne_zero (show fuel ≠ 0 by omega)
  cases hs with
  | @one w k w₁ w₂ s w' es t hw hk hw₁ hw₂ hv hw' =>
    simp only [length_append, length_cons] at hfuel
    simp only [append_assoc, cons_append]
    rw [parseMembers, skipWs_mark hw (b := 0x22) rfl]
    simp only [parseStringRaw_body hk, buildMembers]
    cases denote es with
    | none => rfl
    | some cs =>
      simp only [map_some, skipWs_mark hw₁ (b := 0x3A) rfl, skipWs_value hw₂ hv,
        parseValue_value hv fuel depth _ (show _ by omega) (delimits_mark hw' (b := 0x7D) rfl)]
      cases build depth t with
      | none => rfl
      | some v => simp [objectSet_ofChars, skipWs_mark hw' (b := 0x7D) rfl]
  | @more w k w₁ w₂ s w' r es t ms hw hk hw₁ hw₂ hv hw' hr =>
    simp only [length_append, length_cons] at hfuel
    simp only [append_assoc, cons_append]
    rw [parseMembers, skipWs_mark hw (b := 0x22) rfl]
    simp only [parseStringRaw_body hk, buildMembers]
    cases denote es with
    | none => rfl
    | some cs =>
      simp only [map_some, skipWs_mark hw₁ (b := 0x3A) rfl, skipWs_value hw₂ hv,
        parseValue_value hv fuel depth _ (show _ by omega) (delimits_mark hw' (b := 0x2C) rfl)]
      cases build depth t with
      | none => rfl
      | some v =>
        simp only [map_some, objectSet_ofChars, skipWs_mark hw' (b := 0x2C) rfl]
        exact parseMembers_members hr fuel depth rest _ (by omega)
termination_by fuel

end

omit [Libc] in
private theorem skipWs_split (h : WellFormed ps) :
    ∃ w, ps = w ++ skipWs ps ∧ Ws w ∧ WellFormed (skipWs ps) := by
  obtain ⟨w, hcut, hw⟩ := skipWs_cut ps
  rw [hcut] at h
  exact ⟨w, hcut, hw, h.of_append hw.ascii⟩

omit [Libc] in
private theorem literal_sound {lit : Bytes} {u : JsonValue} {t : Tree} (ht : Value lit t)
    (hascii : ∀ b ∈ lit, b < 0x80) (hps : WellFormed ps)
    (h : (matchLit ps lit).map (fun r => (u, r)) = some (v, rest)) :
    ∃ s t, ps = s ++ rest ∧ Value s t ∧ WellFormed rest := by
  obtain ⟨r, hr, he⟩ := map_eq_some_iff.mp h
  cases he
  rw [matchLit_eq_some_iff.mp hr] at hps ⊢
  exact ⟨_, _, rfl, ht, hps.of_append hascii⟩

omit [Libc] in
private theorem parseStringRaw_rest {buf : Bytes} (hps : WellFormed (0x22 :: ps))
    (h : parseStringRaw (0x22 :: ps) = some (buf, rest)) :
    ∃ s es, ps = s ++ 0x22 :: rest ∧ StringBody s es ∧ WellFormed rest := by
  have hps := hps.of_cons (by decide)
  obtain ⟨s, es, rfl, hbody⟩ := parseStringRaw_eq_some hps h
  have hrest := wellFormed_of_append hbody.wellFormed hps
  exact ⟨s, es, rfl, hbody, hrest.of_cons (by decide)⟩

private theorem parseNumber_eq_some (h : parseNumber ps = some (v, rest)) :
    ∃ s, ps = s ++ rest ∧ Number s := by
  simp only [parseNumber, bind_eq_bind, bind_eq_some_iff] at h
  obtain ⟨len, hlen, h⟩ := h
  obtain ⟨s, t, rfl, rfl, hs⟩ := scanNumber_eq_some hlen
  split at h
  · simp only [Option.bind_eq_some_iff, Option.pure_def, Option.some.injEq, Prod.mk.injEq,
      drop_left] at h
    obtain ⟨_, _, _, rfl⟩ := h
    exact ⟨s, rfl, hs⟩
  · cases h

mutual

/-- A value the parser returns was read from a derivable prefix of its input. -/
theorem parseValue_sound (fuel depth : Nat) {ps rest : Bytes} {v : JsonValue}
    (hps : WellFormed ps) (h : parseValue fuel depth ps = some (v, rest)) :
    ∃ s t, ps = s ++ rest ∧ Value s t ∧ WellFormed rest := by
  obtain ⟨fuel, rfl⟩ := exists_eq_add_one_of_ne_zero (show fuel ≠ 0 by rintro rfl; cases h)
  obtain _ | ⟨c, ps⟩ := ps
  · cases h
  rw [parseValue] at h
  split at h
  · exact literal_sound .null (by simp) hps h
  split at h
  · exact literal_sound .true (by simp) hps h
  split at h
  · exact literal_sound .false (by simp) hps h
  split at h
  · rename_i hc
    rw [beq_iff_eq] at hc
    subst hc
    split at h
    · rename_i buf r hraw
      obtain ⟨_, _, he⟩ := map_eq_some_iff.mp h
      cases he
      obtain ⟨s, es, rfl, hbody, hrest⟩ := parseStringRaw_rest hps hraw
      exact ⟨0x22 :: (s ++ [0x22]), _, by simp, .string hbody, hrest⟩
    · cases h
  split at h
  · rename_i hc
    rw [beq_iff_eq] at hc
    subst hc
    exact parseArray_sound fuel depth hps h
  split at h
  · rename_i hc
    rw [beq_iff_eq] at hc
    subst hc
    exact parseObject_sound fuel depth hps h
  · obtain ⟨s, hs, hn⟩ := parseNumber_eq_some h
    rw [hs] at hps ⊢
    exact ⟨s, _, rfl, .number hn, hps.of_append hn.ascii⟩
termination_by fuel

theorem parseArray_sound (fuel depth : Nat) {ps rest : Bytes} {v : JsonValue}
    (hps : WellFormed (0x5B :: ps)) (h : parseArray fuel depth ps = some (v, rest)) :
    ∃ s t, 0x5B :: ps = s ++ rest ∧ Value s t ∧ WellFormed rest := by
  obtain ⟨fuel, rfl⟩ := exists_eq_add_one_of_ne_zero (show fuel ≠ 0 by rintro rfl; cases h)
  have hps := hps.of_cons (by decide)
  obtain ⟨w, hcut, hw, hskip⟩ := skipWs_split hps
  rw [parseArray] at h
  split at h
  · cases h
  split at h
  · rename_i r hclose
    cases h
    rw [hclose] at hcut hskip
    exact ⟨0x5B :: (w ++ [0x5D]), _, by simp [hcut], .emptyArray hw, hskip.of_cons (by decide)⟩
  · rw [parseItems_skipWs] at h
    obtain ⟨s, ts, rfl, hitems, hrest⟩ := parseItems_sound fuel (depth + 1) hps h
    exact ⟨0x5B :: (s ++ [0x5D]), _, by simp, .array hitems, hrest⟩
termination_by fuel

theorem parseItems_sound (fuel depth : Nat) {ps rest : Bytes} {items : List JsonValue}
    {v : JsonValue} (hps : WellFormed ps)
    (h : parseItems fuel depth ps items = some (v, rest)) :
    ∃ s ts, ps = s ++ 0x5D :: rest ∧ Items s ts ∧ WellFormed rest := by
  obtain ⟨fuel, rfl⟩ := exists_eq_add_one_of_ne_zero (show fuel ≠ 0 by rintro rfl; cases h)
  obtain ⟨w, hcut, hw, hskip⟩ := skipWs_split hps
  rw [parseItems] at h
  split at h
  · cases h
  rename_i item ps₁ hitem
  obtain ⟨s, t, hs, hv, hps₁⟩ := parseValue_sound fuel depth hskip hitem
  obtain ⟨w', hcut', hw', hskip⟩ := skipWs_split hps₁
  split at h
  · rename_i ps₂ hcomma
    rw [hcomma] at hcut' hskip
    obtain ⟨r, ts, rfl, hitems, hrest⟩ := parseItems_sound fuel depth (hskip.of_cons (by decide)) h
    refine ⟨w ++ (s ++ (w' ++ 0x2C :: r)), _, ?_, .more hw hv hw' hitems, hrest⟩
    rw [hcut, hs, hcut']
    simp
  · rename_i ps₂ hclose
    cases h
    rw [hclose] at hcut' hskip
    refine ⟨w ++ (s ++ w'), _, ?_, .one hw hv hw', hskip.of_cons (by decide)⟩
    rw [hcut, hs, hcut']
    simp
  · cases h
termination_by fuel

theorem parseObject_sound (fuel depth : Nat) {ps rest : Bytes} {v : JsonValue}
    (hps : WellFormed (0x7B :: ps)) (h : parseObject fuel depth ps = some (v, rest)) :
    ∃ s t, 0x7B :: ps = s ++ rest ∧ Value s t ∧ WellFormed rest := by
  obtain ⟨fuel, rfl⟩ := exists_eq_add_one_of_ne_zero (show fuel ≠ 0 by rintro rfl; cases h)
  have hps := hps.of_cons (by decide)
  obtain ⟨w, hcut, hw, hskip⟩ := skipWs_split hps
  rw [parseObject] at h
  split at h
  · cases h
  split at h
  · rename_i r hclose
    cases h
    rw [hclose] at hcut hskip
    exact ⟨0x7B :: (w ++ [0x7D]), _, by simp [hcut], .emptyObject hw, hskip.of_cons (by decide)⟩
  · rw [parseMembers_skipWs] at h
    obtain ⟨s, ms, rfl, hmembers, hrest⟩ := parseMembers_sound fuel (depth + 1) hps h
    exact ⟨0x7B :: (s ++ [0x7D]), _, by simp, .object hmembers, hrest⟩
termination_by fuel

theorem parseMembers_sound (fuel depth : Nat) {ps rest : Bytes} {obj v : JsonValue}
    (hps : WellFormed ps) (h : parseMembers fuel depth ps obj = some (v, rest)) :
    ∃ s ms, ps = s ++ 0x7D :: rest ∧ Members s ms ∧ WellFormed rest := by
  obtain ⟨fuel, rfl⟩ := exists_eq_add_one_of_ne_zero (show fuel ≠ 0 by rintro rfl; cases h)
  obtain ⟨w, hcut, hw, hskip⟩ := skipWs_split hps
  rw [parseMembers] at h
  split at h
  · rename_i ps₀ hquote
    rw [hquote] at hcut hskip
    split at h
    · cases h
    rename_i key ps₁ hraw
    obtain ⟨k, es, rfl, hkey, hps₁⟩ := parseStringRaw_rest hskip hraw
    obtain ⟨w₁, hcut₁, hw₁, hskip₁⟩ := skipWs_split hps₁
    split at h
    · rename_i ps₂ hcolon
      rw [hcolon] at hcut₁ hskip₁
      obtain ⟨w₂, hcut₂, hw₂, hskip₂⟩ := skipWs_split (hskip₁.of_cons (by decide))
      split at h
      · cases h
      rename_i val ps₃ hval
      obtain ⟨s, t, hs, hv, hps₃⟩ := parseValue_sound fuel depth hskip₂ hval
      obtain ⟨w', hcut', hw', hskip'⟩ := skipWs_split hps₃
      split at h
      · cases h
      split at h
      · rename_i ps₄ hcomma
        rw [hcomma] at hcut' hskip'
        obtain ⟨r, ms, rfl, hmembers, hrest⟩ :=
          parseMembers_sound fuel depth (hskip'.of_cons (by decide)) h
        refine ⟨_, _, ?_, .more hw hkey hw₁ hw₂ hv hw' hmembers, hrest⟩
        rw [hcut, hcut₁, hcut₂, hs, hcut']
        simp
      · rename_i ps₄ hclose
        cases h
        rw [hclose] at hcut' hskip'
        refine ⟨_, _, ?_, .one hw hkey hw₁ hw₂ hv hw', hskip'.of_cons (by decide)⟩
        rw [hcut, hcut₁, hcut₂, hs, hcut']
        simp
      · cases h
    · cases h
  · cases h
termination_by fuel

end

theorem builtinParse_text {t : Tree} (hvalid : WellFormed text) (h : Text text t) :
    builtinParse text = build 0 t := by
  cases h with
  | @intro w s w' _ hw hv hw' =>
    have hend : HeadIs Delimits w' := by simpa using headIs_delimits_ws hw' (headIs_nil Delimits)
    have hskip : skipWs w' = [] := by simpa using skipWs_append hw' (headIs_nil _)
    rw [builtinParse, if_pos (utf8Valid_iff.mpr hvalid), skipWs_value hw hv,
      parseValue_value hv _ 0 w' (by simp only [length_append]; omega) hend]
    cases build 0 t with
    | none => rfl
    | some v => simp [hskip]

theorem builtinParse_sound (h : builtinParse text = some v) :
    WellFormed text ∧ ∃ t, Text text t := by
  unfold builtinParse at h
  split at h
  · rename_i hvalid
    have hvalid := utf8Valid_iff.mp hvalid
    refine ⟨hvalid, ?_⟩
    split at h
    · cases h
    rename_i v' ps hparse
    split at h
    · rename_i hend
      obtain ⟨w, hcut, hw, hskip⟩ := skipWs_split hvalid
      obtain ⟨s, t, hs, hv, -⟩ := parseValue_sound _ 0 hskip hparse
      obtain ⟨w', hcut', hw'⟩ := skipWs_cut ps
      rw [List.isEmpty_iff.mp hend, append_nil] at hcut'
      refine ⟨t, ?_⟩
      rw [hcut, hs, hcut']
      exact .intro hw hv hw'
    · cases h
  · cases h

omit [Libc] in
private theorem isSome_newNumber {d : Binary64} (h : d.isFinite = true) :
    (JsonValue.newNumber d).isSome = true := by
  rw [JsonValue.newNumber, dif_pos h]
  rfl

mutual

theorem isSome_build {depth : Nat} (hdepth : depth ≤ mcpJsonMaxDepth) (t : Tree) :
    (build depth t).isSome = true ↔ depth + t.depth ≤ mcpJsonMaxDepth ∧
      (∀ es ∈ t.strings, (denote es).isSome = true) ∧ ∀ l ∈ t.numbers, numberOk l = true := by
  cases t with
  | null | bool => simp [build, Tree.depth, Tree.strings, Tree.numbers, hdepth]
  | number l =>
    simp only [build, Tree.depth, Tree.strings, Tree.numbers, not_mem_nil, false_imp_iff,
      implies_true, mem_singleton, forall_eq, true_and, Nat.add_zero, hdepth]
    by_cases h : numberOk l = true
    · have hfinite := h
      simp only [numberOk, Bool.and_eq_true] at hfinite
      simp [h, isSome_newNumber hfinite.2]
    · simp [h]
  | string body => simp [build, Tree.depth, Tree.strings, Tree.numbers, hdepth]
  | array items =>
    simp only [build, Tree.depth, Tree.strings, Tree.numbers]
    by_cases h : depth + 1 > mcpJsonMaxDepth
    · rw [if_pos h]
      constructor
      · intro hs
        cases hs
      · intro hs
        have := hs.1
        omega
    · rw [if_neg h, isSome_map, isSome_buildItems (Nat.not_lt.mp h) items,
        show depth + (depthList items + 1) = depth + 1 + depthList items by omega]
  | object members =>
    simp only [build, Tree.depth, Tree.strings, Tree.numbers]
    by_cases h : depth + 1 > mcpJsonMaxDepth
    · rw [if_pos h]
      constructor
      · intro hs
        cases hs
      · intro hs
        have := hs.1
        omega
    · rw [if_neg h, isSome_map, isSome_buildMembers (Nat.not_lt.mp h) members,
        show depth + (depthMembers members + 1) = depth + 1 + depthMembers members by omega]

theorem isSome_buildItems {depth : Nat} (hdepth : depth ≤ mcpJsonMaxDepth) (ts : List Tree) :
    (buildItems depth ts).isSome = true ↔ depth + depthList ts ≤ mcpJsonMaxDepth ∧
      (∀ es ∈ stringsList ts, (denote es).isSome = true) ∧
      ∀ l ∈ numbersList ts, numberOk l = true := by
  cases ts with
  | nil => simp [buildItems, depthList, stringsList, numbersList, hdepth]
  | cons t ts =>
    have ht := isSome_build hdepth t
    have hts := isSome_buildItems hdepth ts
    have hboth : (buildItems depth (t :: ts)).isSome = true ↔
        (build depth t).isSome = true ∧ (buildItems depth ts).isSome = true := by
      rw [buildItems]
      cases build depth t <;> cases buildItems depth ts <;> simp
    rw [hboth, ht, hts]
    simp only [depthList, stringsList, numbersList, forall_mem_append]
    constructor
    · rintro ⟨⟨h₁, h₂, h₃⟩, h₄, h₅, h₆⟩
      exact ⟨by omega, ⟨h₂, h₅⟩, h₃, h₆⟩
    · rintro ⟨h₁, ⟨h₂, h₅⟩, h₃, h₆⟩
      exact ⟨⟨by omega, h₂, h₃⟩, by omega, h₅, h₆⟩

theorem isSome_buildMembers {depth : Nat} (hdepth : depth ≤ mcpJsonMaxDepth)
    (ms : List (List Elem × Tree)) {members : MemberList} :
    (buildMembers depth ms members).isSome = true ↔
      depth + depthMembers ms ≤ mcpJsonMaxDepth ∧
      (∀ es ∈ stringsMembers ms, (denote es).isSome = true) ∧
      ∀ l ∈ numbersMembers ms, numberOk l = true := by
  cases ms with
  | nil =>
    simp [buildMembers, depthMembers, stringsMembers, numbersMembers, hdepth]
  | cons m ms =>
    obtain ⟨key, t⟩ := m
    have ht := isSome_build hdepth t
    have hms (before : MemberList) :
        (buildMembers depth ms before).isSome = true ↔ _ := isSome_buildMembers hdepth ms
    have hall : (buildMembers depth ((key, t) :: ms) members).isSome = true ↔
        (denote key).isSome = true ∧ (build depth t).isSome = true ∧
          (buildMembers depth ms []).isSome = true := by
      rw [buildMembers, hms []]
      cases denote key with
      | none => simp
      | some cs =>
        cases build depth t with
        | none => simp
        | some v => simp [hms]
    rw [hall, ht, hms]
    simp only [depthMembers, stringsMembers, numbersMembers, forall_mem_append, forall_mem_cons]
    constructor
    · rintro ⟨h₀, ⟨h₁, h₂, h₃⟩, h₄, h₅, h₆⟩
      exact ⟨by omega, ⟨h₀, h₂, h₅⟩, h₃, h₆⟩
    · rintro ⟨h₁, ⟨h₀, h₂, h₅⟩, h₃, h₆⟩
      exact ⟨h₀, ⟨by omega, h₂, h₃⟩, by omega, h₅, h₆⟩

end

/-- The accepted byte strings: well-formed UTF-8 that is one JSON text, nested at
most 128 deep, with surrogates in pairs and numbers that are finite doubles. -/
theorem isSome_builtinParse_iff
    (hstrtod : ∀ l, Number l → (Libc.strtod l).2 = l.length) (text : Bytes) :
    (builtinParse text).isSome = true ↔ WellFormed text ∧ ∃ t, Text text t ∧
      t.depth ≤ 128 ∧ (∀ es ∈ t.strings, Paired es) ∧
      ∀ l ∈ t.numbers, (Libc.strtod l).1.isFinite = true := by
  have hbuild : ∀ t, Text text t → ((build 0 t).isSome = true ↔ t.depth ≤ 128 ∧
      (∀ es ∈ t.strings, Paired es) ∧
      ∀ l ∈ t.numbers, (Libc.strtod l).1.isFinite = true) := by
    intro t ht
    rw [isSome_build (zero_le _), Nat.zero_add]
    simp only [isSome_denote_iff]
    have hnumbers : (∀ l ∈ t.numbers, numberOk l = true) ↔
        ∀ l ∈ t.numbers, (Libc.strtod l).1.isFinite = true := by
      refine forall₂_congr fun l hl => ?_
      simp [numberOk, hstrtod l (ht.number_of_mem hl)]
    rw [hnumbers]
    rfl
  constructor
  · intro h
    obtain ⟨v, hv⟩ := isSome_iff_exists.mp h
    obtain ⟨hvalid, t, ht⟩ := builtinParse_sound hv
    rw [builtinParse_text hvalid ht] at h
    exact ⟨hvalid, t, ht, (hbuild t ht).mp h⟩
  · rintro ⟨hvalid, t, ht, hok⟩
    rw [builtinParse_text hvalid ht]
    exact (hbuild t ht).mpr hok

/-- A library that reads every literal, as the real one does on `1`, and prints it back. -/
@[reducible] def unitLibc : Libc where
  strtod s := (Binary64.one, s.length)
  snprintf17g _ := [0x31]

omit [Libc] in
/-- The text `[1]` is accepted. -/
theorem isSome_builtinParse_unit : (@builtinParse unitLibc [0x5B, 0x31, 0x5D]).isSome = true := by
  refine (@isSome_builtinParse_iff unitLibc (fun _ _ => rfl) _).mpr
    ⟨?_, .array [.number [0x31]], ?_⟩
  · exact utf8Valid_iff.mp (by decide)
  have hone : Number [0x31] :=
    @Number.intro [] [0x31] [] [] (.inl rfl) (.nonzero (by decide) (by simp)) .absent .absent
  have ws : Ws [] := by simp [Ws]
  have hvalue : Value [0x5B, 0x31, 0x5D] (.array [.number [0x31]]) :=
    .array (@Items.one [] [0x31] [] _ ws (.number hone) ws)
  refine ⟨@JsonText.Text.intro [] _ [] _ ws hvalue ws, by decide, ?_, ?_⟩
  · simp [Tree.strings, stringsList]
  · intro l _
    rfl

end Mcpkit.Json
