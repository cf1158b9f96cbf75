import Mcpkit.Server.Replies

/-!
# The dispatcher

A request passes the three validation layers, the session gate and the test for
a repeated id before it is handed to a route; each of these answers with an
error of its own.  `dispatchGate` is that part of `mcp_server_dispatch`, so that
"handed to a route" is something a statement can speak of.

A notification only changes flags of the session.
-/

namespace Mcpkit

open Json JsonValue Protocol

variable {W : Type}

/-- The id of a request, as the id set of the session keeps it. -/
def requestId (req : Message) : Option IdEntry :=
  match mcpMessageIdType req with
  | .none => none
  | .string => (mcpMessageIdString req).map (.string ·.bytes)
  | .number => (mcpMessageIdNumber req).map (.number ·.val)

/-- What becomes of a request before its route runs. -/
inductive Gate where
  | reject (code : Int32) (text : String)
  | route (method : JString) (session : Session)

variable (srv : Server W) (s : Session)

def dispatchGate (req : Message) : Gate :=
  match mcpMessageValidate req, mcpMessageMethod req with
  | .error r, _ => .reject r.code "invalid request"
  | .ok _, none => .reject rpcInvalidRequest "missing method"
  | .ok _, some method =>
    if !s.initialized ∧ method ≠ "initialize" ∧ method ≠ "server/discover" ∧
        mcpMessageMeta req = none then
      .reject rpcInvalidRequest "session not initialized"
    else
      match requestId req with
      | none => .route method s
      | some id =>
        if mcpIdsetContains s.ids id then .reject rpcInvalidRequest "duplicate request id"
        else
          match mcpIdsetAdd s.ids (some id) with
          | .error _ => .reject rpcInternalError "id tracking failed"
          | .ok ids => .route method { s with ids := ids }

/-- The log level a request carries in its `_meta` object. -/
def metaLogLevel (req : Message) : Option LogLevel := do
  let metaObj ← mcpMessageMeta req
  let lv ← (metaObj.objectGet "io.modelcontextprotocol/logLevel").or
    (metaObj.objectGet "logLevel")
  logLevelOf (← lv.stringValue)

/-- A request that passes validation may set the log floor, whatever becomes of it then. -/
def adoptLogLevel (req : Message) : Server W :=
  match mcpMessageValidate req, metaLogLevel req with
  | .ok _, some level => { srv with logFloor := level }
  | _, _ => srv

/-- The end of every early exit: no message means that memory ran out. -/
def orNoMem : Option Message → Except Status Message
  | none => .error .noMem
  | some m => .ok m

def dispatchRoute (req : Message) (method : JString) : Server W × Session × Except Status Message :=
  match mcpServerRouteRequest (srv.trace (.begin method)) s req method with
  | (srv, s, none) =>
    (srv.countError.trace (.finish method rpcInternalError.toInt), s,
      orNoMem (errResp req rpcInternalError "internal error"))
  | (srv, s, some resp) =>
    let endStatus := (mcpMessageErrorCode resp).getD 0
    let srv := if endStatus ≠ 0 then srv.countError else srv
    (srv.trace (.finish method endStatus), s, .ok resp)

def mcpServerDispatch (req : Message) : Server W × Session × Except Status Message :=
  if mcpMessageKind req ≠ .request then (srv, s, .error .invalidArgument)
  else
    let srv := adoptLogLevel srv.countRequest req
    match dispatchGate s req with
    | .reject code text => (srv.countError, s, orNoMem (errResp req code text))
    | .route method s => dispatchRoute srv s req method

def mcpServerNotify (notif : Message) : Server W × Session × Status :=
  if mcpMessageKind notif ≠ .notification then (srv, s, .invalidArgument)
  else
    match mcpMessageMethod notif with
    | none => (srv, s, .ok)
    | some method =>
      let s :=
        if method = "notifications/initialized" then { s with initialized := true }
        else if method = "notifications/cancelled" then { s with subscriptionActive := false }
        else s
      ({ srv with cNotificationsTotal := srv.cNotificationsTotal + 1 }, s, .ok)

def GateOpen (req : Message) (method : JString) : Prop :=
  s.initialized = true ∨ method = "initialize" ∨ method = "server/discover" ∨
    mcpMessageMeta req ≠ none

variable {req : Message} {method : JString}

/-- A request that reaches a route passed validation, and the session differs from the one before
by the recorded id. -/
theorem dispatchGate_eq_route {s s' : Session} (h : dispatchGate s req = .route method s') :
    mcpMessageValidate req = .ok () ∧ mcpMessageMethod req = some method ∧
      GateOpen s req method ∧
      (requestId req = none ∧ s' = s ∨
        ∃ id, requestId req = some id ∧ mcpIdsetContains s.ids id = false ∧
          s' = { s with ids := s.ids ++ [id] }) := by
  unfold dispatchGate at h
  split at h
  · cases h
  · cases h
  rename_i method' hvalid hmethod
  split at h
  · cases h
  rename_i hgate
  have hopen : GateOpen s req method' := by
    by_contra hclosed
    simp only [GateOpen, not_or, not_not, Bool.not_eq_true] at hclosed
    exact hgate ⟨by simp [hclosed.1], hclosed.2.1, hclosed.2.2.1, hclosed.2.2.2⟩
  split at h
  · rename_i hid
    cases h
    exact ⟨hvalid, hmethod, hopen, .inl ⟨hid, rfl⟩⟩
  rename_i id hid
  split at h
  · cases h
  rename_i hcontains
  rw [Bool.not_eq_true] at hcontains
  rw [mcpIdsetAdd_of_not_contains hcontains] at h
  cases h
  exact ⟨hvalid, hmethod, hopen, .inr ⟨id, hid, hcontains, rfl⟩⟩

theorem idType_ne_none_of_validate (hkind : mcpMessageKind req = .request)
    (h : mcpMessageValidate req = .ok ()) : mcpMessageIdType req ≠ .none := by
  have henv := (mcpMessageValidate_eq_ok h).1
  unfold mcpValidateEnvelope at henv
  simp only [hkind] at henv
  split at henv
  · cases henv
  split at henv
  · cases henv
  · rename_i hid
    exact fun h => hid (.inl h)

theorem idType_cases (h : mcpMessageIdType req ≠ .none) :
    (∃ t, req.getKey "id" = some (.string t)) ∨ ∃ d, req.getKey "id" = some (.number d) := by
  unfold mcpMessageIdType at h
  split at h
  next t hkey => exact .inl ⟨t, hkey⟩
  next d hkey => exact .inr ⟨d, hkey⟩
  · exact absurd rfl h

theorem getKey_id_of_validate (hkind : mcpMessageKind req = .request)
    (h : mcpMessageValidate req = .ok ()) : req.getKey "id" = some (replyId req) := by
  obtain ⟨t, hkey⟩ | ⟨d, hkey⟩ := idType_cases (idType_ne_none_of_validate hkind h)
  · rw [replyId, hkey]
  · rw [replyId, hkey]

theorem listenParams_of_validate (hkind : mcpMessageKind req = .request)
    (hmethod : mcpMessageMethod req = some (.lit "subscriptions/listen"))
    (h : mcpMessageValidate req = .ok ()) :
    ∃ members, mcpMessageParams req = some (.object members) ∧
      ((JsonValue.object members).objectGet (.lit "notifications")).all (·.typeOf = .object) := by
  have hparams := (mcpMessageValidate_eq_ok h).2.2
  unfold mcpValidateParams at hparams
  simp only [hkind, hmethod] at hparams
  rw [if_neg (by decide)] at hparams
  cases hp : mcpMessageParams req with
  | none =>
    rw [hp] at hparams
    simp only [reduceCtorEq, if_false] at hparams
    rw [if_pos (by decide)] at hparams
    cases hparams
  | some params =>
    simp only [hp] at hparams
    cases params with
    | object members =>
      have hshape : paramsShape (.lit "subscriptions/listen") (.object members) =
          ((JsonValue.object members).objectGet (.lit "notifications")).all
            (·.typeOf = .object) := rfl
      rw [hshape, if_neg (by simp [typeOf])] at hparams
      split at hparams
      · rename_i hall
        exact ⟨members, rfl, hall⟩
      · cases hparams
    | _ => simp [typeOf] at hparams

theorem exists_errResp_orNoMem (req : Message) (code : Int32) (text : String) :
    ∃ m, orNoMem (errResp req code text) = .ok m ∧ IsReply req m := by
  obtain ⟨m, hm, hreply⟩ := exists_errResp req code text
  exact ⟨m, by rw [hm, orNoMem], hreply⟩

theorem exists_reply_dispatchRoute (req : Message) (h : method ≠ "subscriptions/listen") :
    ∃ m, (dispatchRoute srv s req method).2.2 = .ok m ∧ IsReply req m := by
  have hanswers := answers_mcpServerRouteRequest (srv.trace (.begin method)) s req h
  unfold dispatchRoute
  split
  · exact exists_errResp_orNoMem req _ _
  · rename_i resp heq
    rw [heq] at hanswers
    exact ⟨resp, rfl, hanswers resp rfl⟩

/-- A `subscriptions/listen` request that is not refused before its route. -/
def ListenAccepted (req : Message) : Prop :=
  ∃ s', dispatchGate s req = .route "subscriptions/listen" s'

theorem exists_ack_dispatchRoute (hkind : mcpMessageKind req = .request)
    (hmethod : mcpMessageMethod req = some (.lit "subscriptions/listen"))
    (hvalid : mcpMessageValidate req = .ok ()) :
    ∃ m, (dispatchRoute srv s req "subscriptions/listen").2.2 = .ok m ∧ IsAck req m := by
  obtain ⟨members, hparams, hnotifs⟩ := listenParams_of_validate hkind hmethod hvalid
  obtain ⟨m, hm, hack⟩ :=
    exists_ack_of_listen (srv.trace (.begin "subscriptions/listen")) s hparams hnotifs
  refine ⟨m, ?_, hack⟩
  unfold dispatchRoute
  split
  · rename_i heq
    rw [heq] at hm
    cases hm
  rename_i heq
  rw [heq] at hm
  cases hm
  rfl

/-- A request is answered with one message: a well-formed response with its id, or for an accepted
`subscriptions/listen` a notification tagged with the id. -/
theorem mcpServerDispatch_replies (srv : Server W) (s : Session) {req : Message}
    (hkind : mcpMessageKind req = .request) :
    ∃ m, (mcpServerDispatch srv s req).2.2 = .ok m ∧
      (¬ListenAccepted s req → IsReply req m) ∧
      (ListenAccepted s req → IsAck req m ∧ req.getKey "id" = some (replyId req)) := by
  unfold mcpServerDispatch
  rw [if_neg (not_not.mpr hkind)]
  dsimp only
  cases hgate : dispatchGate s req with
  | reject code text =>
    obtain ⟨m, hm, hreply⟩ := exists_errResp_orNoMem req code text
    refine ⟨m, hm, fun _ => hreply, ?_⟩
    rintro ⟨s', hs'⟩
    rw [hgate] at hs'
    cases hs'
  | route method s' =>
    obtain ⟨hvalid, hmethod, -, -⟩ := dispatchGate_eq_route hgate
    by_cases hlisten : method = "subscriptions/listen"
    · subst hlisten
      obtain ⟨m, hm, hack⟩ := exists_ack_dispatchRoute _ s' hkind hmethod hvalid
      exact ⟨m, hm, fun h => absurd ⟨s', hgate⟩ h,
        fun _ => ⟨hack, getKey_id_of_validate hkind hvalid⟩⟩
    obtain ⟨m, hm, hreply⟩ := exists_reply_dispatchRoute _ s' req hlisten
    refine ⟨m, hm, fun _ => hreply, ?_⟩
    rintro ⟨s'', hs''⟩
    rw [hgate] at hs''
    cases hs''
    exact absurd rfl hlisten

def pingRequest : Message :=
  ⟨[("jsonrpc", .string "2.0"), ("id", .string "7"), ("method", .string "ping")]⟩

theorem mcpServerDispatch_ping :
    mcpMessageKind pingRequest = .request ∧
      ∃ m, (mcpServerDispatch (mcpServerCreate () "s"
          "1") sessionNew pingRequest).2.2 = .ok m ∧
        (¬ListenAccepted sessionNew pingRequest → IsReply pingRequest m) ∧
        (ListenAccepted sessionNew pingRequest →
          IsAck pingRequest m ∧ pingRequest.getKey "id" = some (replyId pingRequest)) :=
  ⟨by decide, mcpServerDispatch_replies _ _ (by decide)⟩

end Mcpkit
