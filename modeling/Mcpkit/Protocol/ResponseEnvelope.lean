import Mcpkit.Lib.Binary64Value
import Mcpkit.Protocol.Validate

/-!
# The envelope of a response

A response is to carry an id and exactly one of a result and an error, the error
being an object with an integral code and a text.  The envelope layer asks the
accessors of the error object whether there is an error, and these fail for a
missing error and for a malformed one alike.  So a malformed error next to a
result goes unseen, and neither the id nor the integrality of the code is looked
at.
-/

namespace Mcpkit.Protocol

open Json JsonValue Option

/-- A number without a fractional part. -/
def IsIntegral (d : FiniteDouble) : Prop := ∃ n : Int, d.val.value = n

/-- What an error member is to be: an object with an integral code and a text. -/
def IsErrorObject (err : JsonValue) : Prop :=
  err.typeOf = .object ∧
    (∃ d, err.objectGet "code" = some (.number d) ∧ IsIntegral d) ∧
    ∃ t, err.objectGet "message" = some (.string t)

structure WellFormedResponse (m : Message) : Prop where
  jsonrpc : m.getKey "jsonrpc" = some (.string "2.0")
  id : (m.getKey "id").isSome = true
  one : (m.getKey "result").isSome ≠ (m.getKey "error").isSome
  error : ∀ err, m.getKey "error" = some err → IsErrorObject err

def HasErrorCode (m : Message) (d : FiniteDouble) : Prop :=
  ∃ err, m.getKey "error" = some err ∧ err.objectGet "code" = some (.number d)

def HasErrorText (m : Message) (t : JString) : Prop :=
  ∃ err, m.getKey "error" = some err ∧ err.objectGet "message" = some (.string t)

/-- What the envelope layer does not see: a result beside an error without a numeric code, an error
whose code is not integral, and either of them without an id. -/
def LooseResponse (m : Message) : Prop :=
  m.getKey "jsonrpc" = some (.string "2.0") ∧
    ((m.getKey "result").isSome = true ∧ (∀ d, ¬HasErrorCode m d) ∧
        (m.getKey "id" = none ∨ (m.getKey "error").isSome = true) ∨
      m.getKey "result" = none ∧ ∃ d t, HasErrorCode m d ∧ HasErrorText m t ∧
        (m.getKey "id" = none ∨ ¬IsIntegral d))

variable {m : Message}

theorem errorObj_eq_some_iff {err : JsonValue} :
    errorObj m = some err ↔ m.getKey "error" = some err ∧ err.typeOf = .object := by
  simp [errorObj, filter_eq_some_iff]

theorem isSome_mcpMessageErrorCode_iff :
    (mcpMessageErrorCode m).isSome = true ↔ ∃ d, HasErrorCode m d := by
  rw [isSome_iff_exists]
  constructor
  · rintro ⟨code, h⟩
    simp only [mcpMessageErrorCode, bind, bind_eq_some_iff] at h
    obtain ⟨err, herr, v, hv, d, hd, -⟩ := h
    rw [numberValue_eq_some_iff] at hd
    exact ⟨d, err, (errorObj_eq_some_iff.mp herr).1, hd ▸ hv⟩
  · rintro ⟨d, err, herr, hcode⟩
    refine ⟨d.val.trunc, ?_⟩
    simp [mcpMessageErrorCode, errorObj_eq_some_iff.mpr ⟨herr, typeOf_of_objectGet hcode⟩, hcode,
      JsonValue.numberValue]

theorem isSome_mcpMessageErrorText_iff :
    (mcpMessageErrorText m).isSome = true ↔ ∃ t, HasErrorText m t := by
  rw [isSome_iff_exists]
  refine exists_congr fun t => ?_
  constructor
  · intro h
    simp only [mcpMessageErrorText, bind, bind_eq_some_iff] at h
    obtain ⟨err, herr, v, hv, ht⟩ := h
    rw [stringValue_eq_some_iff] at ht
    exact ⟨err, (errorObj_eq_some_iff.mp herr).1, ht ▸ hv⟩
  · rintro ⟨err, herr, htext⟩
    simp [mcpMessageErrorText, errorObj_eq_some_iff.mpr ⟨herr, typeOf_of_objectGet htext⟩, htext,
      JsonValue.stringValue]

theorem mcpValidateEnvelope_eq_ok_iff (hkind : mcpMessageKind m = .response) :
    mcpValidateEnvelope m = .ok () ↔
      m.getKey "jsonrpc" = some (.string (.lit "2.0")) ∧
        ((m.getKey "result").isSome = true ∧ (∀ d, ¬HasErrorCode m d) ∨
          m.getKey "result" = none ∧ ∃ d t, HasErrorCode m d ∧ HasErrorText m t) := by
  have hjsonrpc : mcpMessageJsonrpc m = some (.lit "2.0") ↔
      m.getKey "jsonrpc" = some (.string (.lit "2.0")) := by
    simp [mcpMessageJsonrpc, bind_eq_some_iff, stringValue_eq_some_iff]
  rw [← hjsonrpc, ← not_exists, ← isSome_mcpMessageErrorCode_iff]
  simp only [exists_and_left, exists_and_right, ← isSome_mcpMessageErrorCode_iff,
    ← isSome_mcpMessageErrorText_iff]
  unfold mcpValidateEnvelope mcpMessageResult
  simp only [hkind]
  by_cases hj : mcpMessageJsonrpc m = some (.lit "2.0")
  · cases m.getKey "result" <;> cases (mcpMessageErrorCode m).isSome <;>
      cases (mcpMessageErrorText m).isSome <;> simp [hj]
  · simp [hj]

theorem WellFormedResponse.accepted (h : WellFormedResponse m)
    (hkind : mcpMessageKind m = .response) : mcpValidateEnvelope m = .ok () := by
  rw [mcpValidateEnvelope_eq_ok_iff hkind]
  refine ⟨h.jsonrpc, ?_⟩
  have hone := h.one
  cases herr : m.getKey "error" with
  | none =>
    rw [herr] at hone
    refine .inl ⟨isSome_iff_ne_none.mpr (by simpa using hone), ?_⟩
    rintro d ⟨err, h', -⟩
    rw [herr] at h'
    cases h'
  | some err =>
    rw [herr] at hone
    obtain ⟨-, ⟨d, hcode, -⟩, t, htext⟩ := h.error err herr
    exact .inr ⟨by simpa using hone, d, t, ⟨err, herr, hcode⟩, err, herr, htext⟩

/-- An accepted response is well-formed or one of those whose defect is not seen. -/
theorem loose_of_accepted (hkind : mcpMessageKind m = .response)
    (h : mcpValidateEnvelope m = .ok ()) : WellFormedResponse m ∨ LooseResponse m := by
  obtain ⟨hjsonrpc, ⟨hresult, hcode⟩ | ⟨hresult, d, t, hcode, htext⟩⟩ :=
    (mcpValidateEnvelope_eq_ok_iff hkind).mp h
  · by_cases hid : m.getKey "id" = none
    · exact .inr ⟨hjsonrpc, .inl ⟨hresult, hcode, .inl hid⟩⟩
    cases herr : m.getKey "error" with
    | some err => exact .inr ⟨hjsonrpc, .inl ⟨hresult, hcode, .inr (by rw [herr]; rfl)⟩⟩
    | none =>
      refine .inl ⟨hjsonrpc, isSome_iff_ne_none.mpr hid, ?_, ?_⟩
      · rw [hresult, herr]
        decide
      · intro err h'
        rw [herr] at h'
        cases h'
  by_cases hid : m.getKey "id" = none
  · exact .inr ⟨hjsonrpc, .inr ⟨hresult, d, t, hcode, htext, .inl hid⟩⟩
  by_cases hint : IsIntegral d
  · obtain ⟨err, herr, hcode⟩ := hcode
    obtain ⟨err', herr', htext⟩ := htext
    obtain rfl : err = err' := Option.some.inj (herr.symm.trans herr')
    refine .inl ⟨hjsonrpc, isSome_iff_ne_none.mpr hid, ?_, ?_⟩
    · rw [hresult, herr]
      exact Bool.false_ne_true
    · intro err' h'
      obtain rfl : err = err' := Option.some.inj (herr.symm.trans h')
      exact ⟨typeOf_of_objectGet hcode, ⟨d, hcode, hint⟩, t, htext⟩
  · exact .inr ⟨hjsonrpc, .inr ⟨hresult, d, t, hcode, htext, .inr hint⟩⟩

theorem LooseResponse.accepted (h : LooseResponse m) (hkind : mcpMessageKind m = .response) :
    mcpValidateEnvelope m = .ok () := by
  rw [mcpValidateEnvelope_eq_ok_iff hkind]
  obtain ⟨hjsonrpc, ⟨hresult, hcode, -⟩ | ⟨hresult, d, t, hcode, htext, -⟩⟩ := h
  · exact ⟨hjsonrpc, .inl ⟨hresult, hcode⟩⟩
  · exact ⟨hjsonrpc, .inr ⟨hresult, d, t, hcode, htext⟩⟩

theorem LooseResponse.not_wellFormed (h : LooseResponse m) : ¬WellFormedResponse m := by
  intro hwell
  have hid := isSome_iff_ne_none.mp hwell.id
  obtain ⟨-, ⟨hresult, -, hid' | herr⟩ | ⟨-, d, t, ⟨err, herr, hcode⟩, -, hid' | hint⟩⟩ := h
  · exact hid hid'
  · exact hwell.one (by rw [hresult, herr])
  · exact hid hid'
  obtain ⟨-, ⟨d', hcode', hint'⟩, -⟩ := hwell.error err herr
  rw [hcode] at hcode'
  cases hcode'
  exact hint hint'

/-- The envelope layer decides whether a response is well-formed, except for the responses whose
defect it does not see. -/
theorem mcpValidateEnvelope_response_iff {m : Message} (hkind : mcpMessageKind m = .response) :
    (mcpValidateEnvelope m = .ok () ↔ WellFormedResponse m) ↔ ¬LooseResponse m := by
  constructor
  · intro hiff hloose
    exact hloose.not_wellFormed (hiff.mp (hloose.accepted hkind))
  intro hloose
  constructor
  · intro h
    exact (loose_of_accepted hkind h).resolve_right hloose
  · intro h
    exact h.accepted hkind

/-- A response to the request `7` with the result `true` and further members. -/
def resultAnd (extra : MemberList) : Message :=
  ⟨[(.lit "jsonrpc", .string (.lit "2.0")), (.lit "id", .string (.lit "7")),
    (.lit "result", .bool true)] ++ extra⟩

theorem mcpValidateEnvelope_resultAnd :
    mcpMessageKind (resultAnd []) = .response ∧ ¬LooseResponse (resultAnd []) ∧
      (mcpValidateEnvelope (resultAnd []) = .ok () ↔ WellFormedResponse (resultAnd [])) := by
  have hkind : mcpMessageKind (resultAnd []) = .response := by decide
  have hloose : ¬LooseResponse (resultAnd []) := by
    rintro ⟨-, ⟨-, -, hid | herr⟩ | ⟨hresult, -⟩⟩
    · revert hid
      decide
    · revert herr
      decide
    · revert hresult
      decide
  exact ⟨hkind, hloose, (mcpValidateEnvelope_response_iff hkind).mpr hloose⟩

/-- A result beside an error that is no object is accepted. -/
theorem mcpValidateEnvelope_resultAndError :
    ¬(mcpMessageKind (resultAnd [(.lit "error", .string (.lit "x"))]) = .response →
      (mcpValidateEnvelope (resultAnd [(.lit "error", .string (.lit "x"))]) = .ok () ↔
        WellFormedResponse (resultAnd [(.lit "error", .string (.lit "x"))]))) := by
  intro h
  have hwell := (h (by decide)).mp (by decide)
  exact hwell.one (by decide)

end Mcpkit.Protocol
