import Mcpkit.Client.CallTool
import Mcpkit.Client.ListTools

/-!
# A call over several round trips, from end to end

The client of `mcp_client_call_tool_mrtr` and the dispatcher of a server, with a
faithful transport between them.  The retries of the client carry no arguments.
The server tests the arguments of every call that has no `requestState`, so it
refuses a retry without one unless the schema of the tool accepts `null`.
-/

namespace Mcpkit

open Json JsonValue Protocol Option JString Nat Binary64

variable {W T E : Type}

/-- The tracer may have changed the host's state once. -/
inductive Traced (srv : Server W) (w : W) : W → Prop
  | silent : Traced srv w w
  | event {trace : W → TraceEvent → W} (h : srv.tracer = some trace) (ev : TraceEvent) :
      Traced srv w (trace w ev)

theorem traced_trace (srv : Server W) (ev : TraceEvent) :
    Traced srv srv.world (srv.trace ev).world := by
  unfold Server.trace
  split
  · exact .silent
  next trace h => exact .event h ev

/-- Nothing of the server that a call of a tool depends on differs, the host's state apart. -/
structure SameTools (srv srv' : Server W) : Prop where
  tools : srv'.tools = srv.tools
  tracer : srv'.tracer = srv.tracer

variable {srv' : Server W} {w w' : W} {result : JsonValue}

variable {srv : Server W} {s : Session} {tool : Tool W} {hop : Hop}

namespace SameTools

theorem trans {srv'' : Server W} (h : SameTools srv srv') (h' : SameTools srv' srv'') :
    SameTools srv srv'' :=
  ⟨h'.tools.trans h.tools, h'.tracer.trans h.tracer⟩

theorem trace (srv : Server W) (ev : TraceEvent) : SameTools srv (srv.trace ev) := by
  unfold Server.trace
  split <;> exact ⟨rfl, rfl⟩

theorem adoptLogLevel (srv : Server W) (req : Message) :
    SameTools srv (Mcpkit.adoptLogLevel srv.countRequest req) := by
  unfold Mcpkit.adoptLogLevel
  split <;> exact ⟨rfl, rfl⟩

theorem findTool (h : SameTools srv srv') (name : JString) :
    Mcpkit.findTool srv' name = Mcpkit.findTool srv name := by
  rw [Mcpkit.findTool, h.tools]
  rfl

theorem toolsCallGate (h : SameTools srv srv') (s : Session) (req : Message) :
    Mcpkit.toolsCallGate srv' s req = Mcpkit.toolsCallGate srv s req := by
  simp only [Mcpkit.toolsCallGate, h.findTool]

theorem traced (h : SameTools srv srv') (htraced : Traced srv' w w') : Traced srv w w' := by
  cases htraced with
  | silent => exact .silent
  | event htracer ev => exact .event (h.tracer.symm.trans htracer) ev

end SameTools

theorem world_adoptLogLevel (srv : Server W) (req : Message) :
    (adoptLogLevel srv.countRequest req).world = srv.world := by
  unfold adoptLogLevel
  split <;> rfl

theorem toolReply_congr (srv srv' : Server W) (tool : Tool W) (req : Message)
    (r : HandlerResult W) : toolReply srv' tool req r = toolReply srv tool req r := rfl

theorem mcpServerRouteRequest_toolsCall (srv : Server W) (s : Session) (req : Message) :
    mcpServerRouteRequest srv s req "tools/call" =
      finishToolsCall srv s req (toolsCallGate srv s req) :=
  routeToolsCall_eq srv s req

section

variable {srv : Server W} {s s' : Session} {req : Message}
  (hkind : mcpMessageKind req = .request)
  (hgate : dispatchGate s req = .route "tools/call" s')

include hkind hgate

theorem mcpServerDispatch_toolsCall :
    mcpServerDispatch srv s req =
      dispatchRoute (adoptLogLevel srv.countRequest req) s' req "tools/call" := by
  simp only [mcpServerDispatch, if_neg (not_not.mpr hkind), hgate]

theorem mcpServerDispatch_invoked {call : ToolCallCtx}
    (hinvoke : toolsCallGate srv s' req = .invoke tool call) :
    ∃ w, Traced srv srv.world w ∧
      ∀ resp, toolReply srv tool req (tool.invoke w s' call) = some resp →
        ∃ srv', mcpServerDispatch srv s req =
            (srv', s'.apply (tool.invoke w s' call).effect, .ok resp) ∧
          SameTools srv srv' ∧ Traced srv (tool.invoke w s' call).effect.world srv'.world := by
  let srv₁ := adoptLogLevel srv.countRequest req
  let srv₂ := srv₁.trace (.begin "tools/call")
  have hsame : SameTools srv srv₂ := (SameTools.adoptLogLevel srv req).trans (.trace srv₁ _)
  have htraced : Traced srv srv.world srv₂.world := by
    have h := (SameTools.adoptLogLevel srv req).traced
      (traced_trace srv₁ (.begin "tools/call"))
    rwa [world_adoptLogLevel] at h
  refine ⟨srv₂.world, htraced, ?_⟩
  intro resp hreply
  let effect := (tool.invoke srv₂.world s' call).effect
  let srv₃ : Server W := { srv₂.apply effect with cToolsCalled := srv₂.cToolsCalled + 1 }
  let srv₄ := if (mcpMessageErrorCode resp).getD 0 ≠ 0 then srv₃.countError else srv₃
  have hsame₄ : SameTools srv srv₄ ∧ srv₄.world = effect.world := by
    simp only [srv₄]
    split <;> exact ⟨⟨hsame.tools, hsame.tracer⟩, rfl⟩
  let ev := TraceEvent.finish "tools/call" ((mcpMessageErrorCode resp).getD 0)
  refine ⟨srv₄.trace ev, ?_, hsame₄.1.trans (.trace srv₄ ev), ?_⟩
  · rw [mcpServerDispatch_toolsCall hkind hgate, dispatchRoute, mcpServerRouteRequest_toolsCall,
      hsame.toolsCallGate, hinvoke]
    simp only [finishToolsCall, toolReply_congr srv, srv₂, srv₁] at hreply ⊢
    rw [hreply]
  · have h := hsame₄.1.traced (traced_trace srv₄ ev)
    rwa [hsame₄.2] at h

theorem mcpServerDispatch_refused {code : Int32} {text : String} {resp : Message}
    (hrefuse : toolsCallGate srv s' req = .refuse code text)
    (hresp : errResp req code text = some resp) :
    ∃ srv' s'', mcpServerDispatch srv s req = (srv', s'', .ok resp) := by
  have hsame := (SameTools.adoptLogLevel srv req).trans (.trace _ (.begin "tools/call"))
  rw [mcpServerDispatch_toolsCall hkind hgate, dispatchRoute, mcpServerRouteRequest_toolsCall,
    hsame.toolsCallGate, hrefuse]
  simp only [finishToolsCall, hresp]
  exact ⟨_, _, rfl⟩

end

theorem objectGet_hopObject (name : JString) (hop : Hop) :
    (hopObject name hop).objectGet "name" = some (.string name) ∧
      (hopObject name hop).objectGet "arguments" = hop.args ∧
      (hopObject name hop).objectGet "inputResponses" = hop.pendingResponses ∧
      (hopObject name hop).objectGet "requestState" = hop.pendingState.map .string := by
  obtain ⟨args, responses, state⟩ := hop
  cases args <;> cases responses <;> cases state <;> exact ⟨rfl, rfl, rfl, rfl⟩

def Hop.call (hop : Hop) : ToolCallCtx := ⟨hop.args, hop.pendingResponses, hop.pendingState⟩

theorem toolCallCtx_hopObject (name : JString) (hop : Hop) :
    toolCallCtx (hopObject name hop) = hop.call := by
  obtain ⟨-, hargs, hresponses, hstate⟩ := objectGet_hopObject name hop
  rw [toolCallCtx, hargs, hresponses, hstate]
  cases hop with
  | mk args responses state => cases state <;> rfl

theorem mcpMessageValidate_toolCallRequest (c : Client) (name : JString) (hop : Hop) :
    mcpMessageValidate (toolCallRequest c (hopObject name hop)) = .ok () := by
  obtain ⟨args, responses, state⟩ := hop
  cases args <;> cases responses <;> cases state <;> rfl

theorem distinctKeys_toolCallRequest (c : Client) {params : JsonValue} (h : params.DistinctKeys) :
    (toolCallRequest c params).dom.DistinctKeys :=
  Message.distinctKeys_set
    (Message.distinctKeys_set
      (Message.distinctKeys_set distinctKeys_newEnvelope "id"
        (show DistinctKeys (.number ⟨c.id, c.isFinite_id⟩) from trivial)) "method"
      (show DistinctKeys (.string "tools/call") from trivial)) "params" h

theorem distinctKeys_hopObject (name : JString) (hargs : ∀ v ∈ hop.args, v.DistinctKeys)
    (hresponses : ∀ v ∈ hop.pendingResponses, v.DistinctKeys) :
    (hopObject name hop).DistinctKeys := by
  have hparams := hopParams_eq (newString_bytes name) hop
  rw [hopParams, newString_bytes] at hparams
  have hkeeps := (KeepsDistinct.setTake "name" (.string name) trivial).bind <|
    (KeepsDistinct.setOptional "arguments" hargs).bind <|
    (KeepsDistinct.setOptional "inputResponses" hresponses).bind <|
    KeepsDistinct.setStringOpt "requestState" (hop.pendingState.map (·.toCString))
  exact hkeeps distinctKeys_empty hparams

theorem toolsCallGate_toolCallRequest {name : JString} (hfound : findTool srv name = some tool)
    (hvisible : tool.VisibleTo s) (hpermitted : tool.Permitted s)
    {f : W → Session → ToolCallCtx → HandlerResult W} (hv2 : tool.handler = .v2 f)
    (haccepted : hop.pendingState ≠ none ∨ tool.Fits hop.args) (c : Client) :
    toolsCallGate srv s (toolCallRequest c (hopObject name hop)) = .invoke tool hop.call := by
  obtain ⟨hname, hargs, hresponses, hstate⟩ := objectGet_hopObject name hop
  apply toolsCallGate_eq_invoke.mpr
  refine ⟨hopObject name hop, name, rfl, ?_, hfound, toolCallCtx_hopObject name hop, hvisible,
    hpermitted, ?_⟩
  · rw [getString, bind_some, hname]
    rfl
  rw [hstate]
  obtain hsome | hfits := haccepted
  · exact .inr ⟨⟨f, hv2⟩, by simpa using hsome⟩
  · exact .inl hfits

theorem toolsCallGate_toolCallRequest_refuse {name : JString}
    (hfound : findTool srv name = some tool) (hvisible : tool.VisibleTo s)
    (hstate : hop.pendingState = none) (hfits : ¬tool.Fits hop.args) (c : Client) :
    toolsCallGate srv s (toolCallRequest c (hopObject name hop)) =
      .refuse rpcInvalidParams "tools/call: invalid arguments" := by
  obtain ⟨hname, hargs, -, hstate'⟩ := objectGet_hopObject name hop
  have hparams : mcpMessageParams (toolCallRequest c (hopObject name hop)) =
      some (hopObject name hop) := rfl
  have hstring : getString (some (hopObject name hop)) "name" = some name := by
    rw [getString, bind_some, hname]
    rfl
  have hrejected : argumentsAccepted tool hop.args none = false := by
    rw [← Bool.not_eq_true, argumentsAccepted_iff]
    rintro (h | ⟨-, h⟩)
    · exact hfits h
    · exact h rfl
  simp only [toolsCallGate, hparams, hstring, hfound, toolGate,
    toolHidden_eq_false_iff.mpr hvisible, hargs, hstate', hstate, map_none, hrejected]
  rfl

structure AsksThenCompletes (tool : Tool W) (hop : Nat → Hop) (called : Nat → W → Session → Prop)
    (n : Nat) (answer : Nat → JsonValue) (final : JsonValue) : Prop where
  handler : ∃ f, tool.handler = .v2 f
  allowed : ∀ k ≤ n, ∀ w s, called k w s → tool.VisibleTo s ∧ tool.Permitted s
  recorded : ∀ k w s ids, called k w s → called k w { s with ids := ids }
  returns : ∀ k ≤ n, ∀ w s, called k w s → (tool.invoke w s (hop k).call).status = .ok ∧
    (tool.invoke w s (hop k).call).value = some (answer k)
  next : ∀ k ≤ n, ∀ w s, called k w s → called (k + 1) (tool.invoke w s (hop k).call).effect.world
    (s.apply (tool.invoke w s (hop k).call).effect)
  asks : ∀ k < n, ∃ requests state, mcpMrtrResultInputRequiredNew requests state = some (answer k)
  completes : mcpMrtrIsInputRequired (answer n) = false
  valid : ∀ schema content, tool.outputSchema = some schema →
    (answer n).objectGet "structuredContent" = some content →
    mcpSchemaValidate schema content = true
  final : mcpResultInjectResultType (answer n) = some final

theorem mcpMrtrIsInputRequired_setTake {key : String} {v result' : JsonValue}
    (hkey : lit "resultType" ≠ .lit key) (h : result.setTake key v = some result') :
    mcpMrtrIsInputRequired result' = mcpMrtrIsInputRequired result := by
  cases result with
  | object members =>
    rw [setTake_object] at h
    cases h
    rw [mcpMrtrIsInputRequired, objectGet, Assoc.lookup_set_of_ne _ hkey]
    rfl
  | _ => cases h

theorem mcpMrtrIsInputRequired_of_new {requests : Option JsonValue} {state : Option CString}
    (h : mcpMrtrResultInputRequiredNew requests state = some result) :
    mcpMrtrIsInputRequired result = true := by
  rw [mcpMrtrResultInputRequiredNew] at h
  split at h
  · cases h
  obtain ⟨obj, hobj, h⟩ := bind_eq_some_iff.mp h
  obtain ⟨obj', hobj', h⟩ := bind_eq_some_iff.mp h
  have hrequired : mcpMrtrIsInputRequired obj = true := by
    rw [setTake_object] at hobj
    cases hobj
    rfl
  have hrequired' : mcpMrtrIsInputRequired obj' = true := by
    cases requests with
    | none =>
      cases hobj'
      exact hrequired
    | some v => rw [mcpMrtrIsInputRequired_setTake (by decide) hobj', hrequired]
  cases state with
  | none =>
    cases h
    exact hrequired'
  | some val =>
    obtain ⟨v, -, h⟩ := bind_eq_some_iff.mp h
    rw [mcpMrtrIsInputRequired_setTake (by decide) h, hrequired']

theorem mcpMrtrIsInputRequired_of_complete {final : JsonValue}
    (h : mcpResultInjectResultType result = some final) : mcpMrtrIsInputRequired final = false := by
  cases result with
  | object members =>
    rw [mcpResultInjectResultType, setTake_object] at h
    cases h
    rw [mcpMrtrIsInputRequired, objectGet, Assoc.lookup_set_self]
    decide
  | _ => cases h

/-- What the client receives for a hop: the answers as they are, and the final result marked as
complete. -/
def receivedAt (n : Nat) (answer : Nat → JsonValue) (final : JsonValue) (k : Nat) : JsonValue :=
  if k < n then answer k else final

namespace AsksThenCompletes

variable {tool : Tool W} {hop : Nat → Hop} {called : Nat → W → Session → Prop} {n : Nat}
  {answer : Nat → JsonValue} {final : JsonValue}

variable {k : Nat}

theorem toolReply_eq (h : AsksThenCompletes tool hop called n answer final) (hk : k ≤ n)
    (hcalled : called k w s) (srv : Server W) (c : Client) (params : JsonValue) :
    toolReply srv tool (toolCallRequest c params) (tool.invoke w s (hop k).call) =
      some (resultResponse c (receivedAt n answer final k)) := by
  obtain ⟨hstatus, hvalue⟩ := h.returns k hk w s hcalled
  have hreply : ∀ v, mcpResponseOkNew (toolCallRequest c params) (some v) =
      some (resultResponse c v) := mcpResponseOkNew_some (toolCallRequest c params)
  rw [toolReply, if_neg (not_not.mpr hstatus)]
  by_cases hlt : k < n
  · obtain ⟨requests, state, hnew⟩ := h.asks k hlt
    rw [receivedAt, if_pos hlt]
    simp [hvalue, mcpMrtrIsInputRequired_of_new hnew, hreply]
  obtain rfl : k = n := by omega
  rw [receivedAt, if_neg hlt]
  have hrespond : respondDecorated srv (toolCallRequest c params) (answer k) false =
      some (resultResponse c final) := by
    rw [respondDecorated, decorateResult, h.final]
    exact hreply final
  simp only [hvalue, h.completes, Bool.false_eq_true, if_false, hrespond]
  split
  next schema content hschema hcontent => rw [if_pos (h.valid schema content hschema hcontent)]
  next => rfl

theorem distinctKeys_receivedAt (h : AsksThenCompletes tool hop called n answer final)
    (hkeys : ∀ k ≤ n, (answer k).DistinctKeys) (hk : k ≤ n) :
    (receivedAt n answer final k).DistinctKeys := by
  unfold receivedAt
  split
  · exact hkeys k hk
  · exact KeepsDistinct.setTake "resultType" (.string "complete") trivial
      (hkeys n le_rfl) h.final

end AsksThenCompletes

/-- Between two requests of a client nobody else uses the session, the tools and the tracer stay
what they are, and the handler is not called for it. -/
def Uncalled (called : Nat → W → Session → Prop) (st st' : Server W × Session) : Prop :=
  st'.2 = st.2 ∧ SameTools st.1 st'.1 ∧ ∀ k, called k st.1.world st.2 → called k st'.1.world st.2

section

variable [Libc]

/-- What it takes for a client to call a tool: a faithful transport, a tool that accepts the
arguments, a host that does not cancel, an initialized session without the ids to come, and messages
that both parsers accept. -/
structure CanCall (t : TransportOps T) (view : T → Server W × Session) (c : Client) (tr : T)
    (elicit : ElicitFn E) (e : E) (name : JString) (args : Option JsonValue) (tool : Tool W)
    (called : Nat → W → Session → Prop) (n : Nat) (answer : Nat → JsonValue)
    (final : JsonValue) : Prop where
  delivers : Delivers t view (Uncalled called)
  found : findTool (view tr).1 name = some tool
  fits : tool.Fits args
  handler : AsksThenCompletes tool (hopAt elicit e answer args) called n answer final
  start : called 0 (view tr).1.world (view tr).2
  traced : ∀ trace, (view tr).1.tracer = some trace →
    ∀ k w s ev, called k w s → called k (trace w ev) s
  hops : n ≤ mcpMrtrMaxHops
  answers : ∀ e requests state, (elicit e requests state).2 ≠ none
  initialized : (view tr).2.initialized = true
  fresh : UnseenFrom c.nextId (view tr).2.ids
  ids : c.nextId + n < 9007199254740992
  keys : ∀ k ≤ n, (hopObject name (hopAt elicit e answer args k)).DistinctKeys ∧
    (answer k).DistinctKeys
  limits : ∀ k ≤ n, WithinLimits (toolCallRequest (Client.advance^[k] c)
      (hopObject name (hopAt elicit e answer args k))) ∧
    WithinLimits (resultResponse (Client.advance^[k] c) (receivedAt n answer final k))

/-- The session once it has recorded a request with a number for its id. -/
def Session.recordNumber (s : Session) (m : Nat) : Session :=
  { s with ids := s.ids ++ [.number (ofNat m)] }

/-- The client is about to send a hop, and the handler has been called for those before. -/
structure AtHop (view : T → Server W × Session) (c : Client) (name : JString) (tool : Tool W)
    (called : Nat → W → Session → Prop) (k : Nat) (st : Client × T) : Prop where
  client : st.1 = Client.advance^[k] c
  found : findTool (view st.2).1 name = some tool
  world : called k (view st.2).1.world (view st.2).2
  traced : ∀ trace, (view st.2).1.tracer = some trace →
    ∀ k w s ev, called k w s → called k (trace w ev) s
  initialized : (view st.2).2.initialized = true
  fresh : UnseenFrom (c.nextId + k) (view st.2).2.ids

variable {t : TransportOps T} {view : T → Server W × Session} {c : Client} {tr : T}
  {elicit : ElicitFn E} {e : E} {name : JString} {args : Option JsonValue} {tool : Tool W}
  {called : Nat → W → Session → Prop} {n : Nat} {answer : Nat → JsonValue} {final : JsonValue}
  {k : Nat} {st : Client × T}

variable {tr' : T}

section

variable (h : AtHop view c name tool called k st)
include h

omit [Libc] in
theorem AtHop.traced_of {i : Nat} (htraced : Traced (view st.2).1 w w') (hcalled : called i w s) :
    called i w' s := by
  cases htraced with
  | silent => exact hcalled
  | event htracer ev => exact h.traced _ htracer _ _ _ ev hcalled

omit [Libc] in
theorem AtHop.dispatchGate (hid : c.nextId + k ≤ 9007199254740992) (hop : Hop) :
    Mcpkit.dispatchGate (view st.2).2 (toolCallRequest st.1 (hopObject name hop)) =
      .route "tools/call" ((view st.2).2.recordNumber (c.nextId + k)) := by
  have hrequestId : requestId (toolCallRequest st.1 (hopObject name hop)) =
      some (.number (ofNat (c.nextId + k))) := by
    rw [← nextId_iterate hid, ← h.client]
    rfl
  rw [dispatchGate_of_initialized (mcpMessageValidate_toolCallRequest st.1 name hop) rfl
    h.initialized, hrequestId]
  · rfl
  intro id heq
  rw [hrequestId] at heq
  cases heq
  exact h.fresh.not_contains hid

omit [Libc] in
theorem AtHop.next (hid : c.nextId + k < 9007199254740992) {effect : Effect W}
    (hcalled : called (k + 1) effect.world
      (((view st.2).2.recordNumber (c.nextId + k)).apply effect))
    (hsame : SameTools (view st.2).1 srv') (htraced : Traced (view st.2).1 effect.world srv'.world)
    (hview : Uncalled called
      (srv', ((view st.2).2.recordNumber (c.nextId + k)).apply effect) (view tr')) :
    AtHop view c name tool called (k + 1) (st.1.advance, tr') := by
  obtain ⟨hsession, hsame', hkeep⟩ := hview
  dsimp only at hsession hsame' hkeep
  have hboth := hsame.trans hsame'
  refine ⟨?_, ?_, ?_, ?_, ?_, ?_⟩
  · rw [Function.iterate_succ_apply', ← h.client]
  · rw [hboth.findTool]
    exact h.found
  · rw [hsession]
    exact hkeep _ (h.traced_of htraced hcalled)
  · rw [hboth.tracer]
    exact h.traced
  · rw [hsession]
    exact h.initialized
  · rw [hsession]
    exact h.fresh.record hid

theorem AtHop.request (hlibc : PrintsDoubles)
    (hcan : CanCall t view c tr elicit e name args tool called n answer final) (hk : k ≤ n)
    (haccepted : (hopAt elicit e answer args k).pendingState ≠ none ∨
      tool.Fits (hopAt elicit e answer args k).args) :
    ∃ st', mcpClientRequest t st (lit "tools/call").bytes
        (some (hopObject name (hopAt elicit e answer args k))) true =
          (st', .ok, some (receivedAt n answer final k)) ∧
      AtHop view c name tool called (k + 1) st' := by
  have hid : c.nextId + k < 9007199254740992 := by
    have := hcan.ids
    omega
  obtain ⟨f, hv2⟩ := hcan.handler.handler
  have hrecorded : called k (view st.2).1.world ((view st.2).2.recordNumber (c.nextId + k)) :=
    hcan.handler.recorded _ _ _ _ h.world
  obtain ⟨hvisible, hpermitted⟩ := hcan.handler.allowed k hk _ _ hrecorded
  have hinvoke := toolsCallGate_toolCallRequest h.found hvisible hpermitted hv2 haccepted st.1
  obtain ⟨w, htraced, hdispatch⟩ := mcpServerDispatch_invoked rfl (h.dispatchGate hid.le _) hinvoke
  have hcalled := h.traced_of htraced hrecorded
  obtain ⟨srv', hdispatch, hsame, htraced'⟩ := hdispatch _
    (hcan.handler.toolReply_eq hk hcalled (view st.2).1 st.1 _)
  obtain ⟨hlimits, hlimits'⟩ := hcan.limits k hk
  rw [← h.client] at hlimits hlimits'
  obtain ⟨tr', hexchange, hview⟩ := hcan.delivers.exchanges hlibc
    (mcpRequestNewNumberId_call st.1 _) rfl (distinctKeys_toolCallRequest st.1 (hcan.keys k hk).1)
    hlimits hdispatch
  have hkeys := hcan.handler.distinctKeys_receivedAt (fun i hi => (hcan.keys i hi).2) hk
  obtain ⟨resp, hresp, hresult, herror⟩ := carriesResult_resultResponse hlibc st.1 hkeys hlimits'
  refine ⟨(st.1.advance, tr'), ?_, h.next hid (hcan.handler.next k hk w _ hcalled) hsame htraced'
    hview⟩
  exact Prod.ext (hexchange.request_state true)
    (hexchange.request_result hresp (mcpMessageErrorCode_of_none herror) hresult)

end

omit [Libc] in
theorem isFinite_rpcInvalidParams : (ofInt rpcInvalidParams.toInt).isFinite = true := by
  decide

def refusal (c : Client) : Message :=
  (newEnvelope.set "id" (.number ⟨c.id, c.isFinite_id⟩)).set "error"
    (.object [("code", .number ⟨_, isFinite_rpcInvalidParams⟩),
      ("message", .string "tools/call: invalid arguments")])

omit [Libc] in
theorem errResp_toolCallRequest (c : Client) (params : JsonValue) :
    errResp (toolCallRequest c params) rpcInvalidParams "tools/call: invalid arguments" =
      some (refusal c) := by
  rw [errResp, mcpResponseErrNew, copyId_some, newNumber, dif_pos isFinite_rpcInvalidParams,
    newString_bytes]
  rfl

omit [Libc] in
theorem distinctKeys_refusal (c : Client) : (refusal c).dom.DistinctKeys :=
  Message.distinctKeys_set (Message.distinctKeys_set distinctKeys_newEnvelope "id"
    (show DistinctKeys (.number ⟨c.id, c.isFinite_id⟩) from trivial)) "error"
    ((distinctKeys_empty.set "code" (v := .number _) trivial).set "message"
      (v := .string _) trivial)

theorem Exchange.request_refusal (hlibc : PrintsDoubles) {method : Bytes}
    {params : Option JsonValue}
    (h : Exchange t st method params (mcpMessageSerialize (refusal st.1)) tr') :
    (mcpClientRequest t st method params true).2.1 ≠ .ok := by
  by_cases hlength : (mcpMessageSerialize (refusal st.1)).length ≤ mcpProtocolMaxMessageBytes
  · have hdepth : (refusal st.1).dom.depth = 2 := rfl
    have hparse := mcpMessageParse_mcpMessageSerialize hlibc (distinctKeys_refusal st.1)
      ⟨by rw [hdepth]; decide, hlength⟩
    have heq : st.1.id.eq st.1.id = true :=
      (eq_iff_rank st.1.isFinite_id st.1.isFinite_id).mpr rfl
    have hcode : mcpMessageErrorCode (refusal st.1) = some (-32602) := rfl
    rw [h.request_error ⟨hparse, rfl, _, rfl, heq⟩ hcode]
    decide
  · apply h.request_unread
    rintro resp ⟨hparse, -⟩
    rw [cString_mcpMessageSerialize hlibc, mcpMessageParse, if_pos (by omega)] at hparse
    cases hparse

theorem AtHop.request_refused (h : AtHop view c name tool called k st) (hlibc : PrintsDoubles)
    (hcan : CanCall t view c tr elicit e name args tool called n answer final) (hk : k ≤ n)
    (hstate : (hopAt elicit e answer args k).pendingState = none)
    (hfits : ¬tool.Fits (hopAt elicit e answer args k).args) :
    (mcpClientRequest t st (lit "tools/call").bytes
      (some (hopObject name (hopAt elicit e answer args k))) true).2.1 ≠ .ok := by
  have hid : c.nextId + k ≤ 9007199254740992 := by
    have := hcan.ids
    omega
  have hrecorded : called k (view st.2).1.world ((view st.2).2.recordNumber (c.nextId + k)) :=
    hcan.handler.recorded _ _ _ _ h.world
  obtain ⟨hvisible, -⟩ := hcan.handler.allowed k hk _ _ hrecorded
  obtain ⟨srv', s', hdispatch⟩ := mcpServerDispatch_refused rfl (h.dispatchGate hid _)
    (toolsCallGate_toolCallRequest_refuse h.found hvisible hstate hfits st.1)
    (errResp_toolCallRequest st.1 _)
  have hlimits := (hcan.limits k hk).1
  rw [← h.client] at hlimits
  obtain ⟨tr', hexchange, -⟩ := hcan.delivers.exchanges hlibc
    (mcpRequestNewNumberId_call st.1 _) rfl (distinctKeys_toolCallRequest st.1 (hcan.keys k hk).1)
    hlimits hdispatch
  exact hexchange.request_refusal hlibc

/-- The server accepts the retry after an answer: the answer has a state, or the schema accepts a
call without arguments. -/
def RetryAccepted (tool : Tool W) (answer : JsonValue) : Prop :=
  mcpMrtrGetRequestState answer ≠ none ∨ tool.Fits none

/-- The call returns the final result, and the handler has been called for every hop. -/
def CallCompletes (t : TransportOps T) (view : T → Server W × Session) (elicit : ElicitFn E)
    (st : (Client × T) × E) (name : JString) (args : Option JsonValue)
    (called : Nat → W → Session → Prop) (n : Nat) (final : JsonValue) : Prop :=
  ∃ st' e', mcpClientCallToolMrtr t (some elicit) st name.bytes args =
      ((st', e'), .ok, some final) ∧
    called (n + 1) (view st'.2).1.world (view st'.2).2

theorem CanCall.accepted (hcan : CanCall t view c tr elicit e name args tool called n answer final)
    (hretries : ∀ i < k, RetryAccepted tool (answer i)) :
    (hopAt elicit e answer args k).pendingState ≠ none ∨
      tool.Fits (hopAt elicit e answer args k).args := by
  cases k with
  | zero => exact .inr hcan.fits
  | succ k => exact hretries k (lt_succ_self k)

theorem CanCall.callToolLoop (hlibc : PrintsDoubles)
    (hcan : CanCall t view c tr elicit e name args tool called n answer final) (hk : k ≤ n)
    (hretries : ∀ i, i + 1 < k → RetryAccepted tool (answer i)) :
    ∃ st, AtHop view c name tool called k st ∧
      mcpClientCallToolMrtr t (some elicit) ((c, tr), e) name.bytes args =
        Mcpkit.callToolLoop t (some elicit) name.bytes (mcpMrtrMaxHops - k)
          (st, elicitState elicit e answer k) (hopAt elicit e answer args k) := by
  induction k with
  | zero =>
    exact ⟨(c, tr), ⟨rfl, hcan.found, hcan.start, hcan.traced, hcan.initialized, hcan.fresh⟩, rfl⟩
  | succ k ih =>
    have hlt : k < n := hk
    obtain ⟨st, hat, hloop⟩ := ih hlt.le fun i hi => hretries i (by omega)
    obtain ⟨st', hrequest, hnext⟩ := hat.request hlibc hcan hlt.le
      (hcan.accepted fun i hi => hretries i (succ_lt_succ hi))
    rw [receivedAt, if_pos hlt] at hrequest
    obtain ⟨requests, state, hnew⟩ := hcan.handler.asks k hlt
    obtain ⟨responses, hanswer⟩ := ne_none_iff_exists'.mp (hcan.answers
      (elicitState elicit e answer k) (mcpMrtrGetInputRequests (answer k))
      (mcpMrtrGetRequestState (answer k)))
    have hleft : mcpMrtrMaxHops - k = mcpMrtrMaxHops - (k + 1) + 1 := by
      have := hcan.hops
      omega
    refine ⟨st', hnext, ?_⟩
    rw [hloop, hleft, callToolLoop_retry (hopParams_eq (newString_bytes name) _) hrequest
      (mcpMrtrIsInputRequired_of_new hnew) (Prod.ext rfl hanswer), hopAt, elicitAnswer, hanswer]
    rfl

/-- A call over several round trips ends with the final result of the handler exactly if the
server accepts the retry after every answer that asks for input. -/
theorem callCompletes_iff (hlibc : PrintsDoubles)
    (hcan : CanCall t view c tr elicit e name args tool called n answer final) :
    CallCompletes t view elicit ((c, tr), e) name args called n final ↔
      ∀ k < n, RetryAccepted tool (answer k) := by
  constructor
  · rintro ⟨st', e', hcall, -⟩ k
    -- the retries before this one were accepted, so its hop is sent
    induction k using Nat.strong_induction_on with
    | h k ih =>
      intro hk
      by_contra hrefused
      obtain ⟨hstate, hfits⟩ := not_or.mp hrefused
      obtain ⟨st, hat, hloop⟩ := hcan.callToolLoop hlibc (succ_le_of_lt hk)
        fun i hi => ih i (by omega) (by omega)
      have hfailed := hat.request_refused hlibc hcan (succ_le_of_lt hk)
        (not_not.mp hstate) hfits
      rw [hloop, callToolLoop_failed (hopParams_eq (newString_bytes name) _) rfl hfailed] at hcall
      exact hfailed (congrArg (fun r => r.2.1) hcall)
  · intro hretries
    obtain ⟨st, hat, hloop⟩ := hcan.callToolLoop hlibc le_rfl fun i hi => hretries i (by omega)
    obtain ⟨st', hrequest, hnext⟩ := hat.request hlibc hcan le_rfl (hcan.accepted hretries)
    rw [receivedAt, if_neg (lt_irrefl n)] at hrequest
    refine ⟨st', elicitState elicit e answer n, ?_, hnext.world⟩
    rw [hloop, callToolLoop_complete (hopParams_eq (newString_bytes name) _) hrequest
      (mcpMrtrIsInputRequired_of_complete hcan.handler.final)]

end

variable (withState : Bool)

def askOnce : Nat → JsonValue
  | 0 => .object [("resultType", .string "input_required"),
      if withState then ("requestState", .string "s")
      else ("inputRequests", .array [])]
  | _ => .object []

def askOnceTool : Tool Nat where
  name := "t"
  description := none
  schema := some (.object [("type", .string "object")])
  outputSchema := none
  metaObj := none
  handler := .v2 fun w s _ => ⟨⟨w + 1, s.appsHost, s.granted⟩, .ok, some (askOnce withState w)⟩
  vis := .both
  required := 0

def askOnceServer : Loopback Nat where
  server := { mcpServerCreate 0 "demo" "1.0" with
    tools := [askOnceTool withState] }
  session := openSession
  line := none

def counted (k w : Nat) (_ : Session) : Prop := w = k

def askOnceFinal : JsonValue := .object [("resultType", .string "complete")]

theorem asksThenCompletes_askOnceTool (hop : Nat → Hop) :
    AsksThenCompletes (askOnceTool withState) hop counted 1 (askOnce withState) askOnceFinal where
  handler := ⟨_, rfl⟩
  allowed := by
    intro k hk w s hcalled
    refine ⟨.inl rfl, ?_⟩
    intro i hi
    simp [askOnceTool] at hi
  recorded := by
    intro k w s ids hcalled
    exact hcalled
  returns := by
    rintro k hk w s rfl
    exact ⟨rfl, rfl⟩
  next := by
    rintro k hk w s rfl
    rfl
  asks := by
    intro k hk
    obtain rfl : k = 0 := by omega
    cases withState with
    | true => exact ⟨none, some (lit "s").toCString, rfl⟩
    | false => exact ⟨some (.array []), none, rfl⟩
  completes := rfl
  valid := by
    intro schema content hschema
    cases hschema
  final := rfl

theorem distinctKeys_askOnce (k : Nat) : (askOnce withState k).DistinctKeys := by
  have htype := distinctKeys_empty.set "resultType" (v := .string "input_required")
    trivial
  cases k with
  | zero =>
    cases withState with
    | true => exact htype.set "requestState" (v := .string _) trivial
    | false => exact htype.set "inputRequests" (v := .array []) trivial
  | succ k => exact distinctKeys_empty

def askOnceHop : Nat → Hop :=
  hopAt answerAll () (askOnce withState) (some (.object []))

theorem distinctKeys_askOnceHop (k : Nat) :
    (hopObject "t" (askOnceHop withState k)).DistinctKeys := by
  apply distinctKeys_hopObject
  · intro v hv
    cases k with
    | zero =>
      cases hv
      exact distinctKeys_empty
    | succ k => cases hv
  intro v hv
  cases k with
  | zero => cases hv
  | succ k =>
    cases hv
    trivial

theorem canCall_askOnce :
    @CanCall Nat (Loopback Nat) Unit countingLibc (@Loopback.transport Nat countingLibc)
      Loopback.view .create (askOnceServer withState) answerAll () "t" (some (.object []))
      (askOnceTool withState) counted 1 (askOnce withState) askOnceFinal := by
  refine @CanCall.mk _ _ _ countingLibc _ _ _ _ _ _ _ _ _ _ _ _ _ ?_ rfl ?_
    (asksThenCompletes_askOnceTool withState _) rfl ?_ (by decide) ?_ rfl ?_ (by decide)
    (fun k _ => ⟨distinctKeys_askOnceHop withState k, distinctKeys_askOnce withState k⟩) ?_
  · refine @Delivers.mono _ _ countingLibc _ _ _ _ (@Loopback.delivers_unchanged _ countingLibc) ?_
    rintro st _ rfl
    exact ⟨rfl, ⟨rfl, rfl⟩, fun _ hcalled => hcalled⟩
  · rintro schema ⟨⟩
    rfl
  · intro trace htracer
    cases htracer
  · intro e requests state
    exact some_ne_none _
  · rintro entry ⟨⟩
  have hlimits : ∀ withState, ∀ k ≤ 1, ∀ m ∈
      [toolCallRequest (Client.advance^[k] .create) (hopObject "t" (askOnceHop withState k)),
        resultResponse (Client.advance^[k] .create)
          (receivedAt 1 (askOnce withState) askOnceFinal k)], m.dom.depth ≤ mcpJsonMaxDepth ∧
        (@mcpMessageSerialize countingLibc m).length ≤ mcpProtocolMaxMessageBytes := by
    decide +kernel
  intro k hk
  obtain ⟨hrequest, hresponse⟩ := List.forall_mem_cons.mp (hlimits withState k hk)
  obtain ⟨hresponse, -⟩ := List.forall_mem_cons.mp hresponse
  exact ⟨@WithinLimits.mk countingLibc _ hrequest.1 hrequest.2,
    @WithinLimits.mk countingLibc _ hresponse.1 hresponse.2⟩

/-- With a state the call ends with the final result. -/
theorem callCompletes_askOnce :
    @CallCompletes Nat (Loopback Nat) Unit countingLibc (@Loopback.transport Nat countingLibc)
      Loopback.view answerAll ((.create, askOnceServer true), ()) "t" (some (.object []))
      counted 1 askOnceFinal := by
  apply (@callCompletes_iff _ _ _ countingLibc _ _ _ _ _ _ _ _ _ _ _ _ _ countingLibc_printsDoubles
    (canCall_askOnce true)).mpr
  intro k hk
  obtain rfl : k = 0 := by omega
  exact .inl (some_ne_none _)

/-- Without a state the server refuses the retry, and the call fails. -/
theorem not_callCompletes_askOnce :
    @CanCall Nat (Loopback Nat) Unit countingLibc (@Loopback.transport Nat countingLibc)
        Loopback.view .create (askOnceServer false) answerAll () "t" (some (.object []))
        (askOnceTool false) counted 1 (askOnce false) askOnceFinal ∧
      ¬@CallCompletes Nat (Loopback Nat) Unit countingLibc (@Loopback.transport Nat countingLibc)
        Loopback.view answerAll ((.create, askOnceServer false), ()) "t" (some (.object []))
        counted 1 askOnceFinal := by
  refine ⟨canCall_askOnce false, ?_⟩
  rintro ⟨st', e', hcall, -⟩
  have hstatus : (@mcpClientCallToolMrtr _ _ countingLibc (@Loopback.transport Nat countingLibc)
      (some answerAll) ((.create, askOnceServer false), ()) (lit "t").bytes
      (some (.object []))).2.1 = .invalidArgument := by decide +kernel
  rw [hcall] at hstatus
  cases hstatus

end Mcpkit
