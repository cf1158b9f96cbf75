import Mcpkit.Server.HiddenTools

/-!
# Requests that are answered with a result

An answer that carries a result comes from the route of the request's method: all
that refuses a request before its route answers with an error.
-/

namespace Mcpkit

open Json JsonValue Protocol

variable {W : Type}

variable {req m resp : Message} {text : String} {code : Int32} {s : Session} {result : JsonValue}
  {srv : Server W}

theorem mcpMessageResult_errResp (h : errResp req code text = some m) :
    mcpMessageResult m = none := by
  obtain ⟨d, hm⟩ := exists_mcpResponseErrNew req code text
  rw [errResp, hm] at h
  cases h
  rfl

theorem mcpMessageResult_orNoMem (h : orNoMem (errResp req code text) = .ok m) :
    mcpMessageResult m = none := by
  obtain ⟨m', hm', -⟩ := exists_errResp req code text
  rw [hm', orNoMem] at h
  cases h
  exact mcpMessageResult_errResp hm'

theorem mcpServerDispatch_of_route (srv : Server W) {s' : Session} {method : JString}
    (hkind : mcpMessageKind req = .request) (hgate : dispatchGate s req = .route method s') :
    mcpServerDispatch srv s req =
      dispatchRoute (adoptLogLevel srv.countRequest req) s' req method := by
  simp only [mcpServerDispatch, if_neg (not_not.mpr hkind), hgate]

theorem adoptLogLevel_eq (srv : Server W) (req : Message) :
    ∃ level, adoptLogLevel srv req = { srv with logFloor := level } := by
  rw [adoptLogLevel]
  split
  · exact ⟨_, rfl⟩
  · exact ⟨srv.logFloor, rfl⟩

def routedServer (srv : Server W) (req : Message) (method : JString) : Server W :=
  (adoptLogLevel srv.countRequest req).trace (.begin method)

theorem exists_route_of_result (hresp : (mcpServerDispatch srv s req).2.2 = .ok resp)
    (hresult : mcpMessageResult resp = some result) :
    ∃ method s', mcpMessageMethod req = some method ∧ Reaches s req method ∧
      (mcpServerRouteRequest (routedServer srv req method) s' req method).2.2 = some resp := by
  by_cases hkind : mcpMessageKind req = .request
  · cases hgate : dispatchGate s req with
    | reject code text =>
      simp only [mcpServerDispatch, if_neg (not_not.mpr hkind), hgate] at hresp
      rw [mcpMessageResult_orNoMem hresp] at hresult
      cases hresult
    | route method s' =>
      obtain ⟨-, hmethod, -, -⟩ := dispatchGate_eq_route hgate
      refine ⟨method, s', hmethod, ⟨hkind, s', hgate⟩, ?_⟩
      rw [mcpServerDispatch_of_route srv hkind hgate, reply_dispatchRoute] at hresp
      cases hroute : (mcpServerRouteRequest (routedServer srv req method) s' req method).2.2 with
      | none =>
        rw [routedServer] at hroute
        rw [hroute, replyOf] at hresp
        rw [mcpMessageResult_orNoMem hresp] at hresult
        cases hresult
      | some m =>
        rw [routedServer] at hroute
        rw [hroute, replyOf] at hresp
        rw [Except.ok.inj hresp]
  · rw [mcpServerDispatch, if_pos hkind] at hresp
    cases hresp

theorem mcpMessageResult_respondDecorated {members : MemberList}
    (h : respondDecorated srv req (.object members) false = some resp)
    (hresult : mcpMessageResult resp = some result) :
    result = .object (Assoc.set members "resultType" (.string "complete")) := by
  have hdecorate : decorateResult srv (.object members) false =
      some (.object (Assoc.set members "resultType" (.string "complete"))) := by
    simp [decorateResult, mcpResultInjectResultType]
  rw [respondDecorated, hdecorate] at h
  simp only [bind, Option.bind, mcpResponseOkNew_some] at h
  cases h
  rw [mcpMessageResult, Message.getKey_set_self] at hresult
  exact (Option.some.inj hresult).symm

end Mcpkit
