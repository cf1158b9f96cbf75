import Mcpkit.Client.Client
import Mcpkit.Server.Results

/-!
# What a request reports

`mcp_client_request` takes the line it receives for the response to its request
and decides from the members of that message whether the request succeeded.  An
error counts only if it is an object with a numeric code, and the code zero maps
to the status of success; an error of any other form is overlooked.
-/

namespace Mcpkit

open Json JsonValue Protocol JString Option List

variable {T : Type} [Libc]

/-- The message is one that the parser accepts: not nested too deep and not too long. -/
structure WithinLimits (m : Message) : Prop where
  depth : m.dom.depth ≤ mcpJsonMaxDepth
  length : (mcpMessageSerialize m).length ≤ mcpProtocolMaxMessageBytes

theorem cString_mcpMessageSerialize (hlibc : PrintsDoubles) (m : Message) :
    cString (mcpMessageSerialize m) = mcpMessageSerialize m :=
  cString_of_notMem ((printed_serValue hlibc m.dom).notMem (by decide))

variable {m : Message} {id : Binary64} {result : JsonValue}

theorem mcpMessageParse_mcpMessageSerialize (hlibc : PrintsDoubles) (hkeys : m.dom.DistinctKeys)
    (hlimits : WithinLimits m) : mcpMessageParse (cString (mcpMessageSerialize m)) = some m := by
  have hparse : builtinParse (mcpMessageSerialize m) = some m.dom :=
    builtinParse_of_distinctKeys hlibc hkeys hlimits.depth
  rw [cString_mcpMessageSerialize hlibc, mcpMessageParse, if_neg (Nat.not_lt.mpr hlimits.length),
    hparse]
  rfl

structure Reads (id : Binary64) (line : Bytes) (resp : Message) : Prop where
  parsed : mcpMessageParse (cString line) = some resp
  response : mcpMessageKind resp = .response
  id : ∃ got, mcpMessageIdNumber resp = some got ∧ got.val.eq id = true

def CarriesResult (id : Binary64) (line : Bytes) (result : JsonValue) : Prop :=
  ∃ resp, Reads id line resp ∧ resp.getKey "result" = some result ∧ resp.getKey "error" = none

variable {line method : Bytes} {resp : Message} {t : TransportOps T} {st : Client × T}
  {params : Option JsonValue} {tr : T}

theorem readResponse_eq_ok : readResponse id line = .ok resp ↔ Reads id line resp := by
  constructor
  · intro h
    unfold readResponse at h
    split at h
    · cases h
    next resp' hparsed =>
      split at h
      · cases h
      next hkind =>
        split at h
        · cases h
        next got hgot =>
          split at h
          next heq =>
            cases h
            exact ⟨hparsed, not_not.mp hkind, got, hgot, heq⟩
          · cases h
  · rintro ⟨hparsed, hkind, got, hgot, heq⟩
    simp only [readResponse, hparsed, hkind, hgot, heq]
    rfl

theorem Reads.unique {resp' : Message} (h : Reads id line resp) (h' : Reads id line resp') :
    resp = resp' :=
  some.inj (h.parsed.symm.trans h'.parsed)

variable {text : Bytes} {code : Int} {resultOut : Bool}

theorem builtinParse_of_mcpMessageParse (h : mcpMessageParse text = some m) :
    builtinParse text = some m.dom := by
  unfold mcpMessageParse at h
  split at h
  · cases h
  split at h
  next members hparse =>
    cases h
    exact hparse
  · cases h

theorem distinctKeys_mcpMessageParse (h : mcpMessageParse text = some m) : m.dom.DistinctKeys :=
  distinctKeys_builtinParse (builtinParse_of_mcpMessageParse h)

omit [Libc] in
theorem distinctKeys_getKey (h : m.dom.DistinctKeys) {key : String} {v : JsonValue}
    (hv : m.getKey key = some v) : v.DistinctKeys := by
  obtain ⟨before, after, hmembers, -⟩ := lookup_eq_some_iff.mp hv
  exact distinctKeys_of_mem h.2 (hmembers ▸ mem_append_right before mem_cons_self)

theorem Reads.result_or_error (h : Reads id line resp) :
    (∃ result, resp.getKey "result" = some result) ∨ ∃ err, resp.getKey "error" = some err := by
  have hkind := h.response
  unfold mcpMessageKind classify at hkind
  split at hkind
  · split at hkind
    · cases hkind
    · split at hkind <;> cases hkind
  split at hkind
  next hmembers =>
    rw [Bool.or_eq_true] at hmembers
    exact hmembers.imp isSome_iff_exists.mp isSome_iff_exists.mp
  · cases hkind

def resultResponse (c : Client) (result : JsonValue) : Message :=
  (newEnvelope.set "id" (.number ⟨c.id, c.isFinite_id⟩)).set "result" result

omit [Libc] in
theorem distinctKeys_resultResponse (c : Client) (h : result.DistinctKeys) :
    (resultResponse c result).dom.DistinctKeys :=
  Message.distinctKeys_set (Message.distinctKeys_set distinctKeys_newEnvelope "id"
    (show DistinctKeys (.number ⟨c.id, c.isFinite_id⟩) from trivial)) "result" h

theorem carriesResult_resultResponse (hlibc : PrintsDoubles) (c : Client)
    (hkeys : result.DistinctKeys) (hlimits : WithinLimits (resultResponse c result)) :
    CarriesResult c.id (mcpMessageSerialize (resultResponse c result)) result := by
  have hparse := mcpMessageParse_mcpMessageSerialize hlibc (distinctKeys_resultResponse c hkeys)
    hlimits
  have heq : c.id.eq c.id = true := (Binary64.eq_iff_rank c.isFinite_id c.isFinite_id).mpr rfl
  exact ⟨_, ⟨hparse, rfl, ⟨_, c.isFinite_id⟩, rfl, heq⟩, rfl, rfl⟩

/-- The exchange of one request over a transport that does not fail. -/
structure Exchange (t : TransportOps T) (st : Client × T) (method : Bytes)
    (params : Option JsonValue) (line : Bytes) (tr : T) : Prop where
  request : ∃ req sent, mcpRequestNewNumberId st.1.id method params = some req ∧
    t.send st.2 (cString (mcpMessageSerialize req)) = (sent, .ok) ∧ t.recv sent = (tr, .ok line)

theorem Exchange.roundtrip (h : Exchange t st method params line tr) :
    Mcpkit.roundtrip t st method params = ((st.1.advance, tr), readResponse st.1.id line) := by
  obtain ⟨req, sent, hreq, hsend, hrecv⟩ := h.request
  simp only [Mcpkit.roundtrip, hreq, hsend, hrecv]

/-- Success is reported exactly for a line that carries a result and no error, and a caller who
asks for the result gets it. -/
def Reports (t : TransportOps T) (st : Client × T) (method : Bytes) (params : Option JsonValue)
    (resultOut : Bool) (line : Bytes) : Prop :=
  ((mcpClientRequest t st method params resultOut).2.1 = .ok ↔
    ∃ result, CarriesResult st.1.id line result) ∧
  (resultOut = true → ∀ result, CarriesResult st.1.id line result →
    (mcpClientRequest t st method params resultOut).2.2 = some result)

/-- The line answers the request with an error that is overlooked: its code is zero, or it has no
code and the client finds nothing else missing. -/
def OverlooksError (id : Binary64) (line : Bytes) (resultOut : Bool) : Prop :=
  ∃ resp err, Reads id line resp ∧ resp.getKey "error" = some err ∧
    (mcpMessageErrorCode resp = some 0 ∨
      mcpMessageErrorCode resp = none ∧
        (resultOut = true → ∃ result, resp.getKey "result" = some result))

omit [Libc] in
theorem mcpMessageErrorCode_of_none (h : m.getKey "error" = none) :
    mcpMessageErrorCode m = none := by
  rw [mcpMessageErrorCode, errorObj, h]
  rfl

omit [Libc] in
theorem mcpRpcCodeToStatus_eq_ok : mcpRpcCodeToStatus code = .ok ↔ code = 0 := by
  unfold mcpRpcCodeToStatus
  split
  next h => exact iff_of_true rfl h
  next h =>
    refine iff_of_false ?_ h
    split
    · decide
    · split
      · decide
      · split <;> decide

section

variable {t : TransportOps T} {st : Client × T} {method : Bytes} {params : Option JsonValue}
  {line : Bytes} {tr : T} (h : Exchange t st method params line tr)

include h

theorem Exchange.request_state (resultOut : Bool) :
    (mcpClientRequest t st method params resultOut).1 = (st.1.advance, tr) := by
  simp only [mcpClientRequest, h.roundtrip]
  cases readResponse st.1.id line with
  | error status => rfl
  | ok resp =>
    dsimp only
    split
    · rfl
    · split
      · split <;> rfl
      · rfl

theorem Exchange.request_unread (hline : ∀ resp, ¬Reads st.1.id line resp) (resultOut : Bool) :
    (mcpClientRequest t st method params resultOut).2.1 ≠ .ok := by
  cases hread : readResponse st.1.id line with
  | ok resp => exact absurd (readResponse_eq_ok.mp hread) (hline resp)
  | error status =>
    have hstatus : status = .protocol := by
      unfold readResponse at hread
      grind
    simp only [mcpClientRequest, h.roundtrip, hread, hstatus]
    exact Status.noConfusion

variable {resp : Message} (hresp : Reads st.1.id line resp)

include hresp

theorem Exchange.request_error (hcode : mcpMessageErrorCode resp = some code) (resultOut : Bool) :
    (mcpClientRequest t st method params resultOut).2 = (mcpRpcCodeToStatus code, none) := by
  simp only [mcpClientRequest, h.roundtrip, readResponse_eq_ok.mpr hresp, hcode]

section

variable (hcode : mcpMessageErrorCode resp = none)
include hcode

theorem Exchange.request_unasked : (mcpClientRequest t st method params false).2 = (.ok, none) := by
  simp only [mcpClientRequest, h.roundtrip, readResponse_eq_ok.mpr hresp, hcode]
  rfl

theorem Exchange.request_missing (hresult : resp.getKey "result" = none) :
    (mcpClientRequest t st method params true).2 = (.noMem, none) := by
  have hresult : mcpMessageResult resp = none := hresult
  simp only [mcpClientRequest, h.roundtrip, readResponse_eq_ok.mpr hresp, hcode, hresult]
  rfl

theorem Exchange.request_result (hresult : resp.getKey "result" = some result) :
    (mcpClientRequest t st method params true).2 = (.ok, some result) := by
  have hcopy : result.clone = result :=
    clone_of_distinctKeys (distinctKeys_getKey (distinctKeys_mcpMessageParse hresp.parsed) hresult)
  have hresult : mcpMessageResult resp = some result := hresult
  simp only [mcpClientRequest, h.roundtrip, readResponse_eq_ok.mpr hresp, hcode, hresult, hcopy]
  rfl

end

end

theorem Exchange.request_overlooked (h : Exchange t st method params line tr)
    (hover : OverlooksError st.1.id line resultOut) :
    (mcpClientRequest t st method params resultOut).2.1 = .ok := by
  obtain ⟨resp, err, hresp, -, hcode | ⟨hcode, hresult⟩⟩ := hover
  · rw [h.request_error hresp hcode, mcpRpcCodeToStatus_eq_ok]
  cases resultOut with
  | false => rw [h.request_unasked hresp hcode]
  | true =>
    obtain ⟨result, hresult⟩ := hresult rfl
    rw [h.request_result hresp hcode hresult]

theorem Exchange.request_failed (h : Exchange t st method params line tr)
    (hresp : Reads st.1.id line resp) {err : JsonValue} (herr : resp.getKey "error" = some err)
    (hseen : ¬OverlooksError st.1.id line resultOut) :
    (mcpClientRequest t st method params resultOut).2.1 ≠ .ok := by
  cases hcode : mcpMessageErrorCode resp with
  | some code =>
    rw [h.request_error hresp hcode, Ne, mcpRpcCodeToStatus_eq_ok]
    rintro rfl
    exact hseen ⟨resp, err, hresp, herr, .inl hcode⟩
  | none =>
    cases hresult : resp.getKey "result" with
    | some result =>
      exact absurd ⟨resp, err, hresp, herr, .inr ⟨hcode, fun _ => ⟨result, hresult⟩⟩⟩ hseen
    | none =>
      cases resultOut with
      | false => exact absurd ⟨resp, err, hresp, herr, .inr ⟨hcode, nofun⟩⟩ hseen
      | true =>
        rw [h.request_missing hresp hcode hresult]
        exact Status.noConfusion

/-- The verdict on a line is right exactly if the line is not an error that is overlooked. -/
theorem reports_iff_not_overlooksError {t : TransportOps T} {st : Client × T} {method : Bytes}
    {params : Option JsonValue} {line : Bytes} {tr : T} (h : Exchange t st method params line tr)
    (resultOut : Bool) :
    Reports t st method params resultOut line ↔ ¬OverlooksError st.1.id line resultOut := by
  constructor
  · intro hreports hover
    obtain ⟨result, resp', hresp', -, hnone⟩ := hreports.1.mp (h.request_overlooked hover)
    obtain ⟨resp, err, hresp, herr, -⟩ := hover
    rw [hresp'.unique hresp, herr] at hnone
    cases hnone
  intro hseen
  by_cases hread : ∃ resp, Reads st.1.id line resp
  · obtain ⟨resp, hresp⟩ := hread
    cases herr : resp.getKey "error" with
    | some err =>
      have hnot : ¬∃ result, CarriesResult st.1.id line result := by
        rintro ⟨result, resp', hresp', -, hnone⟩
        rw [hresp'.unique hresp, herr] at hnone
        cases hnone
      refine ⟨iff_of_false (h.request_failed hresp herr hseen) hnot, ?_⟩
      intro _ result hcarries
      exact absurd ⟨result, hcarries⟩ hnot
    | none =>
      obtain ⟨result, hresult⟩ := hresp.result_or_error.resolve_right (by simp [herr])
      have hcode := mcpMessageErrorCode_of_none herr
      refine ⟨iff_of_true ?_ ⟨result, resp, hresp, hresult, herr⟩, ?_⟩
      · cases resultOut with
        | false => rw [h.request_unasked hresp hcode]
        | true => rw [h.request_result hresp hcode hresult]
      · rintro rfl result' ⟨resp', hresp', hresult', -⟩
        rw [hresp'.unique hresp] at hresult'
        rw [h.request_result hresp hcode hresult']
  · have hunread : ∀ resp, ¬Reads st.1.id line resp := fun resp hresp => hread ⟨resp, hresp⟩
    have hnot : ∀ result, ¬CarriesResult st.1.id line result :=
      fun result ⟨resp, hresp, _⟩ => hunread resp hresp
    refine ⟨iff_of_false (h.request_unread hunread resultOut) (fun ⟨r, hr⟩ => hnot r hr), ?_⟩
    intro _ result hcarries
    exact absurd hcarries (hnot result)

def answering (line : Bytes) : TransportOps Unit where
  send _ _ := ((), .ok)
  recv _ := ((), .ok line)

omit [Libc] in
theorem exchange_answering (libc : Libc) (line : Bytes) :
    @Exchange Unit libc (answering line) (.create, ()) (lit "ping").bytes none line () :=
  @Exchange.mk _ libc _ _ _ _ _ _ ⟨_, _, rfl, rfl, rfl⟩

def resultLine : Bytes := (lit "\x7b\"jsonrpc\":\"2.0\",\"id\":1,\"result\":true\x7d").bytes

def errorLine : Bytes := (lit "\x7b\"jsonrpc\":\"2.0\",\"id\":1,\"error\":\"failed\"\x7d").bytes

omit [Libc] in
theorem reports_resultLine :
    @Reports Unit unitLibc (answering resultLine) (.create, ()) (lit "ping").bytes none true
      resultLine := by
  apply (@reports_iff_not_overlooksError Unit unitLibc _ _ _ _ _ _
    (exchange_answering unitLibc resultLine) true).mpr
  rintro ⟨resp, err, hresp, herr, -⟩
  have hnone : ∀ m ∈ @mcpMessageParse unitLibc (cString resultLine), m.getKey "error" = none := by
    decide +kernel
  rw [hnone resp (@Reads.parsed unitLibc _ _ _ hresp)] at herr
  cases herr

omit [Libc] in
/-- An error without a code is reported as success to a caller who does not ask for a result. -/
theorem mcpClientRequest_errorLine :
    (@mcpClientRequest Unit unitLibc (answering errorLine) (.create, ()) (lit "ping").bytes
        none false).2.1 = .ok ∧
      ¬∃ result, @CarriesResult unitLibc Client.create.id errorLine result := by
  refine ⟨by decide +kernel, ?_⟩
  rintro ⟨result, resp, hresp, hresult, -⟩
  have hnone : ∀ m ∈ @mcpMessageParse unitLibc (cString errorLine), m.getKey "result" = none := by
    decide +kernel
  rw [hnone resp (@Reads.parsed unitLibc _ _ _ hresp)] at hresult
  cases hresult

end Mcpkit
