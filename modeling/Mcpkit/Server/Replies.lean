import Mcpkit.Server.Routes

/-!
# The answers of the routes

Every message a route builds is a response to the request it was given: it
passes the envelope check and carries the request's id.  The one exception is
the acknowledgement of a subscription, which is a notification tagged with the
id.

A route may also build nothing, which the dispatcher turns into an error.
-/

namespace Mcpkit

open Json JsonValue Protocol List Binary64

variable {W : Type}

/-- A response to a request: well formed, with the request's id, or `null` when that is neither a
string nor a number. -/
structure IsReply (req m : Message) : Prop where
  kind : mcpMessageKind m = .response
  envelope : mcpValidateEnvelope m = .ok ()
  id : m.getKey "id" = some (replyId req)

/-- The acknowledgement of a subscription, tagged with the id of the request. -/
structure IsAck (req m : Message) : Prop where
  kind : mcpMessageKind m = .notification
  method : mcpMessageMethod m = some (.lit "notifications/subscriptions/acknowledged")
  tag : (do
    let params ← mcpMessageParams m
    let metaObj ← params.objectGet "_meta"
    metaObj.objectGet "io.modelcontextprotocol/subscriptionId") = some (replyId req)

def Answers (req : Message) (r : Option Message) : Prop := ∀ m, r = some m → IsReply req m

inductive Built (req : Message) (E : Int32 → String → Prop) : Option Message → Prop
  | nothing : Built req E none
  | error {code : Int32} {text : String} (h : E code text) : Built req E (errResp req code text)
  | result (v : JsonValue) : Built req E (mcpResponseOkNew req (some v))

def errorCodes : List Int32 :=
  [rpcInvalidRequest, rpcMethodNotFound, rpcInvalidParams, rpcInternalError]

def RouteError (code : Int32) (_ : String) : Prop := code ∈ errorCodes

/-- The errors of a call of a tool that the session is offered. -/
def ToolError (code : Int32) (text : String) : Prop :=
  code ∈ [rpcInternalError, rpcInvalidParams] ∧
    text ∈ ["tools/call: invalid arguments", "tools/call: permission denied",
      "tools/call: empty result", "tools/call: structuredContent failed outputSchema validation"]

instance (code : Int32) (text : String) : Decidable (RouteError code text) :=
  inferInstanceAs (Decidable (_ ∈ _))

instance (code : Int32) (text : String) : Decidable (ToolError code text) :=
  inferInstanceAs (Decidable (_ ∧ _))

variable {text : String} {code : Int32} {m : Message}

theorem ToolError.routeError (h : ToolError code text) : RouteError code text := by
  obtain rfl | rfl := mem_pair.mp h.1
  · exact show rpcInternalError ∈ errorCodes by decide
  · exact show rpcInvalidParams ∈ errorCodes by decide

variable {req : Message} {E E' : Int32 → String → Prop} {r : Option Message}

theorem exists_errResp (req : Message) (code : Int32) (text : String) :
    ∃ m, errResp req code text = some m ∧ IsReply req m := by
  obtain ⟨d, h⟩ := exists_mcpResponseErrNew req code text
  obtain ⟨hkind, henv⟩ := envelope_error (replyId req) d text
  refine ⟨_, h, hkind, henv, ?_⟩
  rfl

theorem errorCode_errResp (h : errResp req code text = some m) :
    mcpMessageErrorCode m = some (ofInt code.toInt).trunc ∧
      mcpMessageErrorText m = some (.lit text) := by
  obtain ⟨d, hd⟩ := isSome_newNumber_int32 code
  have hval : d.val = ofInt code.toInt := by
    rw [newNumber] at hd
    split at hd
    · cases hd
      rfl
    · cases hd
  rw [errResp, mcpResponseErrNew, copyId_some, hd, newString_bytes] at h
  cases h
  rw [← hval]
  exact ⟨rfl, rfl⟩

theorem mcpMessageError_of_none (h : m.getKey "error" = none) :
    mcpMessageErrorCode m = none ∧ mcpMessageErrorText m = none := by
  simp [mcpMessageErrorCode, mcpMessageErrorText, errorObj, h]

namespace Built

theorem error_cases (h : Built req E r) (hm : r = some m) :
    m.getKey "error" = none ∨
      ∃ code text, E code text ∧ mcpMessageErrorCode m = some (ofInt code.toInt).trunc ∧
        mcpMessageErrorText m = some (.lit text) := by
  cases h with
  | nothing => cases hm
  | error h => exact .inr ⟨_, _, h, errorCode_errResp hm⟩
  | result v =>
    rw [mcpResponseOkNew_some] at hm
    cases hm
    exact .inl rfl

theorem mono (h : Built req E r) (hE : ∀ code text, E code text → E' code text) :
    Built req E' r := by
  cases h with
  | nothing => exact .nothing
  | error h => exact .error (hE _ _ h)
  | result v => exact .result v

theorem bind {α : Type} (x : Option α) {f : α → Option Message} (h : ∀ a, Built req E (f a)) :
    Built req E (x >>= f) := by
  cases x with
  | none => exact .nothing
  | some a => exact h a

theorem answers (h : Built req E r) : Answers req r := by
  intro m hm
  cases h with
  | nothing => cases hm
  | error h =>
    obtain ⟨m', hm', hreply⟩ := exists_errResp req _ _
    rw [hm] at hm'
    cases hm'
    exact hreply
  | result v =>
    rw [mcpResponseOkNew_some] at hm
    cases hm
    obtain ⟨hkind, henv⟩ := envelope_result (replyId req) v
    refine ⟨hkind, henv, ?_⟩
    rfl

theorem respondDecorated (srv : Server W) (result : JsonValue) (isList : Bool) :
    Built req E (Mcpkit.respondDecorated srv req result isList) :=
  .bind _ fun _ => .result _

theorem respondPage (srv : Server W) (key : String) (entries : List JsonValue)
    (next : Option Nat) : Built req E (Mcpkit.respondPage srv req key entries next) :=
  .bind _ fun _ => .bind _ fun _ => .respondDecorated srv _ true

theorem toolReply (srv : Server W) (tool : Tool W) (r : HandlerResult W) :
    Built req ToolError (Mcpkit.toolReply srv tool req r) := by
  unfold Mcpkit.toolReply
  repeat' first | exact .error (by decide) | exact .respondDecorated srv _ false | split
  · exact .bind _ fun _ => .bind _ fun _ => .bind _ fun _ => .bind _ fun _ => .result _
  · exact .result _

theorem contentsReply (r : HandlerResult W) (failed bad : String)
    {respond : JsonValue → Option Message} (h : ∀ v, Built req RouteError (respond v)) :
    Built req RouteError (Mcpkit.contentsReply req r failed bad respond) := by
  have hcode : ∀ status, status ≠ .ok → mcpStatusToRpcCode status ∈ errorCodes := by
    intro status hstatus
    cases status with
    | ok => exact absurd rfl hstatus
    | other code => exact show rpcInternalError ∈ errorCodes by decide
    | _ => decide
  unfold Mcpkit.contentsReply
  split
  next hstatus => exact .error (hcode _ hstatus)
  · split
    · exact h _
    · exact .error (show rpcInternalError ∈ errorCodes by decide)

theorem routeServerDiscover (srv : Server W) :
    Built req RouteError (Mcpkit.routeServerDiscover srv req) := by
  unfold Mcpkit.routeServerDiscover
  repeat first
    | exact .respondDecorated srv _ true
    | refine .bind _ fun _ => ?_

theorem routeToolsList (srv : Server W) (s : Session) :
    Built req RouteError (Mcpkit.routeToolsList srv s req) := by
  unfold Mcpkit.routeToolsList
  dsimp only
  split
  · exact .error (by decide)
  · exact .bind _ fun _ => .respondPage srv _ _ _

theorem routeResourcesList (srv : Server W) :
    Built req RouteError (Mcpkit.routeResourcesList srv req) := by
  unfold Mcpkit.routeResourcesList
  dsimp only
  repeat' first | exact .error (by decide) | split
  exact .bind _ fun _ => .respondPage srv _ _ _

theorem routePromptsList (srv : Server W) :
    Built req RouteError (Mcpkit.routePromptsList srv req) := by
  unfold Mcpkit.routePromptsList
  dsimp only
  repeat' first | exact .error (by decide) | split
  exact .bind _ fun _ => .respondPage srv _ _ _

theorem routeCompletionList (srv : Server W) :
    Built req RouteError (Mcpkit.routeCompletionList srv req) := by
  unfold Mcpkit.routeCompletionList
  repeat' first | exact .error (by decide) | split
  exact .bind _ fun _ => .respondDecorated srv _ true

theorem routeTasksGet (srv : Server W) :
    Built req RouteError (Mcpkit.routeTasksGet srv req) := by
  unfold Mcpkit.routeTasksGet
  repeat' first | exact .error (by decide) | split
  exact .bind _ fun _ => .respondDecorated srv _ false

theorem routeSkillsList (srv : Server W) :
    Built req RouteError (Mcpkit.routeSkillsList srv req) := by
  unfold Mcpkit.routeSkillsList
  dsimp only
  repeat' first | exact .error (by decide) | split
  exact .bind _ fun _ => .respondPage srv _ _ _

theorem routeSkillsGet (srv : Server W) :
    Built req RouteError (Mcpkit.routeSkillsGet srv req) := by
  unfold Mcpkit.routeSkillsGet
  dsimp only
  repeat' first | exact .error (by decide) | split
  exact .bind _ fun _ => .respondDecorated srv _ false

end Built

theorem session_routeInitialize (srv : Server W) (s : Session) (req : Message) :
    ∃ name version metaObj, (routeInitialize srv s req).1 =
        { s with clientName := name, clientVersion := version, clientMeta := metaObj } ∧
      Built req RouteError (routeInitialize srv s req).2 := by
  have hinfo : ∀ info, ∃ name version, recordClientInfo s info =
      { s with clientName := name, clientVersion := version } := by
    intro info
    unfold recordClientInfo
    split <;> split <;> exact ⟨_, _, rfl⟩
  obtain ⟨name, version, hrecord⟩ :=
    hinfo ((mcpMessageParams req).bind (·.objectGet "clientInfo"))
  unfold routeInitialize
  dsimp only
  rw [hrecord]
  repeat' first | exact ⟨_, _, _, rfl, .error (by decide)⟩ | split
  · exact ⟨_, _, _, rfl, .nothing⟩
  all_goals exact ⟨_, _, _, rfl, .respondDecorated srv _ false⟩

/-- What a handler other than that of a tool leaves behind. -/
inductive HandlerEffect (srv : Server W) (s : Session) : Effect W → Prop
  | resource {res : Resource W} {onRead : W → Session → JString → HandlerResult W} (uri : JString)
      (hmem : res ∈ srv.resources) (h : res.onRead = some onRead) :
      HandlerEffect srv s (onRead srv.world s uri).effect
  | prompt {p : Prompt W} {onGet : W → Session → Option JsonValue → HandlerResult W}
      (args : Option JsonValue) (hmem : p ∈ srv.prompts) (h : p.onGet = some onGet) :
      HandlerEffect srv s (onGet srv.world s args).effect
  | completion {entry : CompletionEntry W} (args : JsonValue) (hmem : entry ∈ srv.completions) :
      HandlerEffect srv s (entry.fn srv.world s args).1

inductive RouteEffect (srv : Server W) (s : Session) (req : Message) (method : JString) :
    Server W → Session → Prop
  | keep : RouteEffect srv s req method srv s
  | tool {tool : Tool W} (params : JsonValue) (hmem : tool ∈ srv.tools) :
      RouteEffect srv s req method
        { srv.apply (callTool srv s tool params).effect with cToolsCalled := srv.cToolsCalled + 1 }
        (s.apply (callTool srv s tool params).effect)
  | handler {e : Effect W} (h : HandlerEffect srv s e) :
      RouteEffect srv s req method (srv.apply e) (s.apply e)
  | client (name version : Option CString) (metaObj : Option JsonValue) :
      RouteEffect srv s req method srv
        { s with clientName := name, clientVersion := version, clientMeta := metaObj }
  | listen (notifs : Option JsonValue) (h : method = "subscriptions/listen") :
      RouteEffect srv s req method srv (recordSubscription s req notifs)
  | logFloor (level : LogLevel) : RouteEffect srv s req method { srv with logFloor := level } s
  | subscribe (uris : List CString) :
      RouteEffect srv s req method { srv with subscribedUris := uris } s
  | tasks (mgr : TaskMgr) (h : method = "tasks/update" ∨ method = "tasks/cancel") :
      RouteEffect srv s req method { srv with taskMgr := some mgr } s

/-- What a route does and what it answers: a reply, or the acknowledgement of a subscription. -/
structure RouteOutcome (srv : Server W) (s : Session) (req : Message) (method : JString)
    (r : Server W × Session × Option Message) : Prop where
  effect : RouteEffect srv s req method r.1 r.2.1
  reply : Built req RouteError r.2.2 ∨
    method = "subscriptions/listen" ∧ ∃ notifs, r.2.2 = subscriptionAck req notifs

namespace RouteOutcome

variable {srv : Server W} {s : Session} {method : JString}

theorem keep (h : Built req RouteError r) : RouteOutcome srv s req method (srv, s, r) :=
  ⟨.keep, .inl h⟩

theorem refuse (h : RouteError code text) :
    RouteOutcome srv s req method (srv, s, errResp req code text) :=
  keep (.error h)

theorem ite {c : Prop} [Decidable c] {a b : Server W × Session × Option Message}
    (ha : RouteOutcome srv s req method a) (hb : RouteOutcome srv s req method b) :
    RouteOutcome srv s req method (if c then a else b) := by
  split
  · exact ha
  · exact hb

theorem routeInitialize : RouteOutcome srv s req method
    (srv, (Mcpkit.routeInitialize srv s req).1, (Mcpkit.routeInitialize srv s req).2) := by
  obtain ⟨name, version, metaObj, hsession, hbuilt⟩ := session_routeInitialize srv s req
  rw [hsession]
  exact ⟨.client name version metaObj, .inl hbuilt⟩

theorem routeToolsCall :
    RouteOutcome srv s req method (Mcpkit.routeToolsCall srv s req) := by
  unfold Mcpkit.routeToolsCall
  split
  · split
    · exact refuse (by decide)
    next tool hfound =>
      refine ite (refuse (by decide)) (ite (refuse (by decide)) (ite (refuse (by decide)) ?_))
      refine ⟨.tool _ (mem_of_find?_eq_some hfound), .inl ?_⟩
      exact (Built.toolReply _ tool _).mono fun _ _ => ToolError.routeError
  · exact refuse (by decide)

theorem routeResourcesRead :
    RouteOutcome srv s req method (Mcpkit.routeResourcesRead srv s req) := by
  unfold Mcpkit.routeResourcesRead
  repeat' first | exact refuse (by decide) | split
  next res hfound _ onRead hread =>
    refine ⟨.handler (.resource _ (mem_of_find?_eq_some hfound) hread), .inl ?_⟩
    dsimp only
    exact .contentsReply _ _ _ fun _ => .bind _ fun _ => .respondDecorated _ _ true

theorem routePromptsGet :
    RouteOutcome srv s req method (Mcpkit.routePromptsGet srv s req) := by
  unfold Mcpkit.routePromptsGet
  dsimp only
  repeat' first | exact refuse (by decide) | split
  next prompt hfound _ onGet hget =>
    refine ⟨.handler (.prompt _ (mem_of_find?_eq_some hfound) hget), .inl ?_⟩
    dsimp only
    exact .contentsReply _ _ _ fun _ => .bind _ fun _ => .bind _ fun _ =>
      .respondDecorated _ _ false

theorem routeCompletionComplete :
    RouteOutcome srv s req method (Mcpkit.routeCompletionComplete srv s req) := by
  unfold Mcpkit.routeCompletionComplete
  dsimp only
  split
  · exact refuse (by decide)
  split
  · exact refuse (by decide)
  split
  · exact keep (.bind _ fun _ => .respondDecorated srv _ false)
  next entry hfound =>
    refine ⟨.handler (.completion _ (mem_of_find?_eq_some hfound)), .inl ?_⟩
    dsimp only
    repeat' first | exact .error (by decide) | split
    exact .bind _ fun _ => .respondDecorated _ _ false

/-- `route_advanced` answers, or the method is not one of its own and nothing changes. -/
theorem routeAdvanced :
    RouteOutcome srv s req method
        ((Mcpkit.routeAdvanced srv req method).1, s, (Mcpkit.routeAdvanced srv req method).2) ∧
      ((Mcpkit.routeAdvanced srv req method).2 = none →
        (Mcpkit.routeAdvanced srv req method).1 = srv) := by
  have hrespond : ∀ srv : Server W, respondDecorated srv req (.object []) false ≠ none := by
    intro srv
    simp [respondDecorated, decorateResult, mcpResultInjectResultType, mcpResponseOkNew_some]
  unfold Mcpkit.routeAdvanced
  repeat' first | exact ⟨refuse (by decide), fun _ => rfl⟩ | split
  · exact ⟨⟨.logFloor _, .inl (.respondDecorated _ _ false)⟩, fun h => absurd h (hrespond _)⟩
  · exact ⟨⟨.subscribe _, .inl (.respondDecorated _ _ false)⟩, fun h => absurd h (hrespond _)⟩
  · exact ⟨keep (.bind _ fun _ => .respondDecorated srv _ true), fun _ => rfl⟩
  · exact ⟨keep .nothing, fun _ => rfl⟩

theorem routeSubscriptionsListen (h : method = "subscriptions/listen") :
    RouteOutcome srv s req method
      (srv, (Mcpkit.routeSubscriptionsListen s req).1,
        (Mcpkit.routeSubscriptionsListen s req).2) := by
  unfold Mcpkit.routeSubscriptionsListen
  split
  · dsimp only
    split
    · exact ⟨.listen _ h, .inr ⟨h, _, rfl⟩⟩
    · exact refuse (by decide)
  · exact refuse (by decide)

theorem routeTasksUpdate (h : method = "tasks/update") :
    RouteOutcome srv s req method
      ((Mcpkit.routeTasksUpdate srv req).1, s, (Mcpkit.routeTasksUpdate srv req).2) := by
  unfold Mcpkit.routeTasksUpdate
  repeat' first | exact refuse (by decide) | split
  all_goals exact ⟨.tasks _ (.inl h), .inl (.bind _ fun _ => .respondDecorated _ _ false)⟩

theorem routeTasksCancel (h : method = "tasks/cancel") :
    RouteOutcome srv s req method
      ((Mcpkit.routeTasksCancel srv req).1, s, (Mcpkit.routeTasksCancel srv req).2) := by
  unfold Mcpkit.routeTasksCancel
  repeat' first | exact refuse (by decide) | split
  exact ⟨.tasks _ (.inr h), .inl (.bind _ fun _ => .respondDecorated _ _ false)⟩

theorem routeExtensions :
    RouteOutcome srv s req method (Mcpkit.routeExtensions srv s req method) := by
  unfold Mcpkit.routeExtensions
  refine ite (keep (.routeServerDiscover srv)) ?_
  split
  next h => exact routeSubscriptionsListen h
  refine ite (keep (.routeTasksGet srv)) ?_
  split
  next h => exact routeTasksUpdate h
  split
  next h => exact routeTasksCancel h
  exact ite (keep (.routeSkillsList srv)) (ite (keep (.routeSkillsGet srv)) (refuse (by decide)))

theorem mcpServerRouteRequest (srv : Server W) (s : Session) (req : Message) (method : JString) :
    RouteOutcome srv s req method (Mcpkit.mcpServerRouteRequest srv s req method) := by
  unfold Mcpkit.mcpServerRouteRequest
  refine ite routeInitialize ?_
  refine ite (keep (.respondDecorated srv _ false)) ?_
  refine ite (keep (.routeToolsList srv s)) ?_
  refine ite routeToolsCall ?_
  refine ite (keep (.routeResourcesList srv)) ?_
  refine ite routeResourcesRead ?_
  refine ite (keep (.routePromptsList srv)) ?_
  refine ite routePromptsGet ?_
  refine ite (keep (.routeCompletionList srv)) ?_
  refine ite routeCompletionComplete ?_
  obtain ⟨hadvanced, hnone⟩ := @routeAdvanced _ req srv s method
  split
  next heq =>
    rwa [heq] at hadvanced
  next srv' heq =>
    rw [heq] at hnone
    obtain rfl : srv' = srv := hnone rfl
    exact routeExtensions

end RouteOutcome

theorem answers_mcpServerRouteRequest (srv : Server W) (s : Session) (req : Message)
    {method : JString} (h : method ≠ "subscriptions/listen") :
    Answers req (mcpServerRouteRequest srv s req method).2.2 := by
  obtain hbuilt | ⟨hlisten, -⟩ := (RouteOutcome.mcpServerRouteRequest srv s req method).reply
  · exact hbuilt.answers
  · exact absurd hlisten h

theorem exists_subscriptionAck (req : Message) (notifs : Option JsonValue) :
    ∃ m, subscriptionAck req notifs = some m ∧ IsAck req m := by
  let tagged := (Message.mk []).set "io.modelcontextprotocol/subscriptionId" (replyId req)
  let params := ((Message.mk []).set "_meta" tagged.dom).set "notifications"
    ((notifs.map clone).getD (.object []))
  let m := (newEnvelope.set "method"
    (.string "notifications/subscriptions/acknowledged")).set "params" params.dom
  have hbuilt : subscriptionAck req notifs = some m := by
    simp only [subscriptionAck, copyId_some, Option.bind_eq_bind, Option.bind_some,
      setTake_object, mcpNotificationNew, newString_bytes]
    rfl
  have hmethod : m.getKey "method" =
      some (.string "notifications/subscriptions/acknowledged") := rfl
  have hid : m.getKey "id" = none := rfl
  have hparams : m.getKey "params" = some params.dom := Message.getKey_set_self _ _ _
  have hmeta : params.dom.objectGet "_meta" = some tagged.dom := by rfl
  have htag : tagged.dom.objectGet "io.modelcontextprotocol/subscriptionId" =
      some (replyId req) := Message.getKey_set_self _ _ _
  refine ⟨m, hbuilt, ?_, ?_, ?_⟩
  · rw [mcpMessageKind_of_method hmethod, hid]
    rfl
  · rw [mcpMessageMethod, hmethod]
    rfl
  · simp [mcpMessageParams, hparams, hmeta, htag]

theorem exists_ack_of_listen (srv : Server W) (s : Session) {members : MemberList}
    (hparams : mcpMessageParams req = some (.object members))
    (hnotifs : ((JsonValue.object members).objectGet "notifications").all
      (·.typeOf = .object)) :
    ∃ m, (mcpServerRouteRequest srv s req "subscriptions/listen").2.2 = some m ∧
      IsAck req m := by
  have hroute : mcpServerRouteRequest srv s req "subscriptions/listen" =
      (srv, (routeSubscriptionsListen s req).1, (routeSubscriptionsListen s req).2) := rfl
  rw [hroute, routeSubscriptionsListen, hparams]
  dsimp only
  rw [if_pos hnotifs]
  exact exists_subscriptionAck req _

end Mcpkit
