import Mcpkit.Server.History
import Mcpkit.Server.ToolCalls

/-!
# Isolation of sessions

The sessions of a server share its registries and some state that requests change.  Replies are made
from the registries and the calling session; of the shared state only the host's reaches a reply,
through the handlers, and the tasks, which the `tasks/*` methods report.  Where the handlers do not
let it through, what one session does cannot be told from the replies to another.
-/

namespace Mcpkit

open Json JsonValue Protocol List Machine

variable {W O : Type}

/-- What requests change in a server, the tasks apart. -/
structure SharedState (W : Type) where
  world : W
  cRequestsTotal : UInt64
  cRequestsError : UInt64
  cNotificationsTotal : UInt64
  cToolsCalled : UInt64
  outbox : List Message
  nextServerId : UInt64
  logFloor : LogLevel
  subscribedUris : List CString

namespace Server

def shared (srv : Server W) : SharedState W where
  world := srv.world
  cRequestsTotal := srv.cRequestsTotal
  cRequestsError := srv.cRequestsError
  cNotificationsTotal := srv.cNotificationsTotal
  cToolsCalled := srv.cToolsCalled
  outbox := srv.outbox
  nextServerId := srv.nextServerId
  logFloor := srv.logFloor
  subscribedUris := srv.subscribedUris

def withShared (srv : Server W) (x : SharedState W) : Server W :=
  { srv with
    world := x.world
    cRequestsTotal := x.cRequestsTotal
    cRequestsError := x.cRequestsError
    cNotificationsTotal := x.cNotificationsTotal
    cToolsCalled := x.cToolsCalled
    outbox := x.outbox
    nextServerId := x.nextServerId
    logFloor := x.logFloor
    subscribedUris := x.subscribedUris }

end Server

/-- Two results of a handler that differ in the host's state at most. -/
structure HandlerResult.Same (r r' : HandlerResult W) : Prop where
  appsHost : r.effect.appsHost = r'.effect.appsHost
  granted : r.effect.granted = r'.effect.granted
  status : r.status = r'.status
  value : r.value = r'.value

/-- The results of every handler depend on its arguments and on the calling session only. -/
structure PureHandlers (srv : Server W) : Prop where
  tools : ∀ tool ∈ srv.tools, ∀ w w' s call, (tool.invoke w s call).Same (tool.invoke w' s call)
  resources : ∀ res ∈ srv.resources, ∀ f, res.onRead = some f →
    ∀ w w' s uri, (f w s uri).Same (f w' s uri)
  prompts : ∀ prompt ∈ srv.prompts, ∀ f, prompt.onGet = some f →
    ∀ w w' s args, (f w s args).Same (f w' s args)
  completions : ∀ entry ∈ srv.completions, ∀ w w' s args,
    (entry.fn w s args).1.appsHost = (entry.fn w' s args).1.appsHost ∧
    (entry.fn w s args).1.granted = (entry.fn w' s args).1.granted ∧
    (entry.fn w s args).2 = (entry.fn w' s args).2

theorem HandlerResult.Same.apply {r r' : HandlerResult W} (h : r.Same r') (s : Session) :
    s.apply r.effect = s.apply r'.effect := by
  rw [Session.apply, Session.apply, h.appsHost, h.granted]

/-- The outcomes for each shared state leave the rest of the server as it is, and what they make of
the session and what they answer do not depend on the shared state. -/
def Blind (srv : Server W) (r : SharedState W → Server W × Session × O) : Prop :=
  ∃ s o, ∀ x, ∃ x', r x = (srv.withShared x', s, o)

namespace Blind

variable {srv : Server W}

theorem const (f : SharedState W → SharedState W) (s : Session) (o : O) :
    Blind srv fun x => (srv.withShared (f x), s, o) :=
  ⟨s, o, fun x => ⟨f x, rfl⟩⟩

theorem ite {c : Prop} [Decidable c] {r r' : SharedState W → Server W × Session × O}
    (hr : Blind srv r) (hr' : Blind srv r') : Blind srv fun x => if c then r x else r' x := by
  by_cases h : c
  · simpa only [if_pos h] using hr
  · simpa only [if_neg h] using hr'

theorem handler {h : W → HandlerResult W} (hpure : ∀ w w', (h w).Same (h w'))
    (f : SharedState W → SharedState W) (s : Session) (reply : HandlerResult W → O)
    (hreply : ∀ r r', r.Same r' → reply r = reply r') :
    Blind srv fun x => (srv.withShared (f x), s.apply (h x.world).effect, reply (h x.world)) := by
  refine ⟨s.apply (h srv.world).effect, reply (h srv.world), fun x => ⟨f x, ?_⟩⟩
  have hsame := hpure x.world srv.world
  dsimp only
  rw [hsame.apply s, hreply _ _ hsame]

theorem routeToolsCall (hpure : PureHandlers srv) (s : Session) (req : Message) :
    Blind srv fun x => Mcpkit.routeToolsCall (srv.withShared x) s req := by
  have hroute : ∀ x, Mcpkit.routeToolsCall (srv.withShared x) s req =
      finishToolsCall (srv.withShared x) s req (toolsCallGate srv s req) :=
    fun x => routeToolsCall_eq (srv.withShared x) s req
  simp only [hroute]
  cases h : toolsCallGate srv s req with
  | refuse code text => exact const id s (errResp req code text)
  | invoke tool call =>
    obtain ⟨params, name, -, -, hfound, -⟩ := toolsCallGate_eq_invoke.mp h
    have htool := hpure.tools tool (findTool_eq_some hfound).1
    refine handler (fun w w' => htool w w' s call)
      (fun x => { x with
        world := (tool.invoke x.world s call).effect.world
        cToolsCalled := x.cToolsCalled + 1 }) s (toolReply srv tool req) ?_
    intro r r' hsame
    rw [toolReply, toolReply, hsame.status, hsame.value]

theorem contentsReply {r r' : HandlerResult W} (h : r.Same r') (req : Message)
    (failed bad : String) (respond : JsonValue → Option Message) :
    Mcpkit.contentsReply req r failed bad respond =
      Mcpkit.contentsReply req r' failed bad respond := by
  rw [Mcpkit.contentsReply, Mcpkit.contentsReply, h.status, h.value]

theorem routeResourcesRead (hpure : PureHandlers srv) (s : Session) (req : Message) :
    Blind srv fun x => Mcpkit.routeResourcesRead (srv.withShared x) s req := by
  unfold Mcpkit.routeResourcesRead
  cases getString (mcpMessageParams req) "uri" with
  | none => exact const id s _
  | some uri =>
    have hfind : ∀ x, findResource (srv.withShared x) uri = findResource srv uri := fun x => rfl
    simp only [hfind]
    cases hres : findResource srv uri with
    | none => exact const id s _
    | some res =>
      dsimp only
      cases hread : res.onRead with
      | none => exact const id s _
      | some onRead =>
        have hmem : res ∈ srv.resources := mem_of_find?_eq_some hres
        exact handler (fun w w' => hpure.resources res hmem onRead hread w w' s uri)
          (fun x => { x with world := (onRead x.world s uri).effect.world }) s
          (fun r => Mcpkit.contentsReply req r "resources/read: handler failed"
            "resources/read: bad contents" fun contents => do
              let result ← (JsonValue.object []).setTake "contents" contents
              respondDecorated srv req result true)
          fun r r' hsame => contentsReply hsame req _ _ _

theorem routePromptsGet (hpure : PureHandlers srv) (s : Session) (req : Message) :
    Blind srv fun x => Mcpkit.routePromptsGet (srv.withShared x) s req := by
  unfold Mcpkit.routePromptsGet
  dsimp only
  cases getString (mcpMessageParams req) "name" with
  | none => exact const id s _
  | some name =>
    have hfind : ∀ x, findPrompt (srv.withShared x) name = findPrompt srv name := fun x => rfl
    simp only [hfind]
    cases hprompt : findPrompt srv name with
    | none => exact const id s _
    | some prompt =>
      dsimp only
      cases hget : prompt.onGet with
      | none => exact const id s _
      | some onGet =>
        have hmem : prompt ∈ srv.prompts := mem_of_find?_eq_some hprompt
        generalize (mcpMessageParams req).bind (·.objectGet "arguments") = args
        exact handler (fun w w' => hpure.prompts prompt hmem onGet hget w w' s args)
          (fun x => { x with world := (onGet x.world s args).effect.world }) s
          (fun r => Mcpkit.contentsReply req r "prompts/get: handler failed"
            "prompts/get: bad messages" fun messages => do
              let result ← (JsonValue.object []).setTake "messages" messages
              let result ← setStringOpt result "description" prompt.description
              respondDecorated srv req result false)
          fun r r' hsame => contentsReply hsame req _ _ _

theorem routeCompletionComplete (hpure : PureHandlers srv) (s : Session) (req : Message) :
    Blind srv fun x => Mcpkit.routeCompletionComplete (srv.withShared x) s req := by
  unfold Mcpkit.routeCompletionComplete
  dsimp only
  cases ((mcpMessageParams req).bind (·.objectGet "ref")).filter (·.typeOf = .object) with
  | none => exact const id s _
  | some refObj =>
    dsimp only
    cases getString (some refObj) "value" with
    | none => exact const id s _
    | some refStr =>
      have hcompletions : ∀ x, (srv.withShared x).completions = srv.completions := fun x => rfl
      simp only [hcompletions]
      cases hfind : srv.completions.find? (·.refPrefix.bytes.isPrefixOf refStr.bytes) with
      | none => exact const id s _
      | some entry =>
        have hmem : entry ∈ srv.completions := mem_of_find?_eq_some hfind
        generalize ((((mcpMessageParams req).bind (·.objectGet "argument")).map
          clone).getD .null) = args
        have hentry := hpure.completions entry hmem
        obtain ⟨value, hvalue⟩ : ∃ value, ∀ w, (entry.fn w s args).2 = value :=
          ⟨_, fun w => (hentry w srv.world s args).2.2⟩
        obtain ⟨s', hsession⟩ : ∃ s', ∀ w, s.apply (entry.fn w s args).1 = s' := by
          refine ⟨s.apply (entry.fn srv.world s args).1, fun w => ?_⟩
          obtain ⟨happs, hgranted, -⟩ := hentry w srv.world s args
          rw [Session.apply, Session.apply, happs, hgranted]
        have hdecorate : ∀ x effect result,
            respondDecorated ((srv.withShared x).apply effect) req result false =
              respondDecorated srv req result false := fun _ _ _ => rfl
        simp only [hvalue, hsession, hdecorate]
        exact const (fun x => { x with world := (entry.fn x.world s args).1.world }) s' _

theorem routeAdvanced (srv : Server W) (req : Message) (method : JString) :
    ∃ (f : SharedState W → SharedState W) (o : Option Message), ∀ x,
      Mcpkit.routeAdvanced (srv.withShared x) req method = (srv.withShared (f x), o) := by
  unfold Mcpkit.routeAdvanced
  split
  · cases getString (mcpMessageParams req) "level" with
    | none => exact ⟨id, _, fun x => rfl⟩
    | some lvl =>
      dsimp only
      cases logLevelOf lvl with
      | none => exact ⟨id, _, fun x => rfl⟩
      | some mapped => exact ⟨fun x => { x with logFloor := mapped }, _, fun x => rfl⟩
  split
  · cases getString (mcpMessageParams req) "uri" with
    | none => exact ⟨id, _, fun x => rfl⟩
    | some uri =>
      exact ⟨fun x => { x with
        subscribedUris := updateSubscribed x.subscribedUris uri.toCString
          (method = "resources/subscribe") }, _, fun x => rfl⟩
  · split
    · exact ⟨id, do
        let result ← (JsonValue.object []).setTake "templates" (.array [])
        respondDecorated srv req result true, fun x => rfl⟩
    · exact ⟨id, none, fun x => rfl⟩

end Blind

/-- The methods that report or change the tasks of the server. -/
def IsTaskMethod (method : JString) : Prop :=
  method = "tasks/get" ∨ method = "tasks/update" ∨ method = "tasks/cancel"

variable {method : JString} {srv : Server W} {c : Call}

namespace Blind

variable {srv : Server W}

theorem routeExtensions (s : Session) (req : Message) (h : ¬IsTaskMethod method) :
    Blind srv fun x => Mcpkit.routeExtensions (srv.withShared x) s req method := by
  simp only [IsTaskMethod, not_or] at h
  unfold Mcpkit.routeExtensions
  simp only [if_neg h.1, if_neg h.2.1, if_neg h.2.2]
  refine ite (const id s (routeServerDiscover srv req)) ?_
  refine ite (const id _ (routeSubscriptionsListen s req).2) ?_
  refine ite (const id s (routeSkillsList srv req)) ?_
  exact ite (const id s (routeSkillsGet srv req)) (const id s _)

theorem comp (r : Server W → Server W × Session × O)
    (h : Blind srv fun x => r (srv.withShared x)) {g : SharedState W → Server W}
    (hg : ∀ x, ∃ x', g x = srv.withShared x') : Blind srv fun x => r (g x) := by
  obtain ⟨s, o, hr⟩ := h
  refine ⟨s, o, fun x => ?_⟩
  obtain ⟨x', hx'⟩ := hg x
  dsimp only
  rw [hx']
  exact hr x'

theorem mcpServerRouteRequest (hpure : PureHandlers srv) (s : Session) (req : Message)
    (h : ¬IsTaskMethod method) :
    Blind srv fun x => Mcpkit.mcpServerRouteRequest (srv.withShared x) s req method := by
  unfold Mcpkit.mcpServerRouteRequest
  refine ite (const id (routeInitialize srv s req).1 (routeInitialize srv s req).2) ?_
  refine ite (const id s (respondDecorated srv req (.object []) false)) ?_
  refine ite (const id s (routeToolsList srv s req)) ?_
  refine ite (routeToolsCall hpure s req) ?_
  refine ite (const id s (routeResourcesList srv req)) ?_
  refine ite (routeResourcesRead hpure s req) ?_
  refine ite (const id s (routePromptsList srv req)) ?_
  refine ite (routePromptsGet hpure s req) ?_
  refine ite (const id s (routeCompletionList srv req)) ?_
  refine ite (routeCompletionComplete hpure s req) ?_
  obtain ⟨f, o, hadvanced⟩ := routeAdvanced srv req method
  simp only [hadvanced]
  cases o with
  | some adv => exact const f s (some adv)
  | none => exact comp (Mcpkit.routeExtensions · s req method) (routeExtensions s req h) fun x =>
    ⟨f x, rfl⟩

end Blind

namespace Server

variable (srv : Server W)

theorem withShared_trace (x : SharedState W) (ev : TraceEvent) :
    ∃ x', (srv.withShared x).trace ev = srv.withShared x' := by
  unfold trace
  split
  · exact ⟨x, rfl⟩
  next f hf => exact ⟨{ x with world := f x.world ev }, rfl⟩

theorem withShared_countError (x : SharedState W) :
    ∃ x', (srv.withShared x).countError = srv.withShared x' :=
  ⟨{ x with cRequestsError := x.cRequestsError + 1 }, rfl⟩

theorem withShared_adoptLogLevel (x : SharedState W) (req : Message) :
    ∃ x', adoptLogLevel (srv.withShared x).countRequest req = srv.withShared x' := by
  unfold adoptLogLevel
  split
  next level _ _ =>
    exact ⟨{ x with cRequestsTotal := x.cRequestsTotal + 1, logFloor := level }, rfl⟩
  · exact ⟨{ x with cRequestsTotal := x.cRequestsTotal + 1 }, rfl⟩

end Server

namespace Blind

variable {srv : Server W}

theorem dispatchRoute (hpure : PureHandlers srv) (s : Session) (req : Message)
    (h : ¬IsTaskMethod method) :
    Blind srv fun x => Mcpkit.dispatchRoute (srv.withShared x) s req method := by
  have hroute : Blind srv fun x =>
      Mcpkit.mcpServerRouteRequest ((srv.withShared x).trace (.begin method)) s req method :=
    comp (Mcpkit.mcpServerRouteRequest · s req method) (mcpServerRouteRequest hpure s req h)
      fun x => srv.withShared_trace x (.begin method)
  obtain ⟨s', o, hroute⟩ := hroute
  cases o with
  | none =>
    refine ⟨s', orNoMem (errResp req rpcInternalError "internal error"), fun x => ?_⟩
    obtain ⟨x', hx'⟩ := hroute x
    obtain ⟨x₁, hx₁⟩ := srv.withShared_countError x'
    obtain ⟨x₂, hx₂⟩ := srv.withShared_trace x₁ (.finish method rpcInternalError.toInt)
    refine ⟨x₂, ?_⟩
    simp only [Mcpkit.dispatchRoute, hx', hx₁, hx₂]
  | some resp =>
    refine ⟨s', .ok resp, fun x => ?_⟩
    obtain ⟨x', hx'⟩ := hroute x
    have hcount : ∃ x₁, (if (mcpMessageErrorCode resp).getD 0 ≠ 0 then
        (srv.withShared x').countError else srv.withShared x') = srv.withShared x₁ := by
      split
      · exact srv.withShared_countError x'
      · exact ⟨x', rfl⟩
    obtain ⟨x₁, hx₁⟩ := hcount
    obtain ⟨x₂, hx₂⟩ := srv.withShared_trace x₁ (.finish method ((mcpMessageErrorCode resp).getD 0))
    refine ⟨x₂, ?_⟩
    simp only [Mcpkit.dispatchRoute, hx', hx₁, hx₂]

theorem mcpServerDispatch (hpure : PureHandlers srv) (s : Session) {req : Message}
    (h : ∀ method, mcpMessageMethod req = some method → ¬IsTaskMethod method) :
    Blind srv fun x => Mcpkit.mcpServerDispatch (srv.withShared x) s req := by
  unfold Mcpkit.mcpServerDispatch
  refine ite (const id s _) ?_
  cases hgate : dispatchGate s req with
  | reject code text =>
    refine ⟨s, orNoMem (errResp req code text), fun x => ?_⟩
    obtain ⟨x₁, hx₁⟩ := srv.withShared_adoptLogLevel x req
    obtain ⟨x₂, hx₂⟩ := srv.withShared_countError x₁
    refine ⟨x₂, ?_⟩
    simp only [hx₁, hx₂]
  | route method s' =>
    have hmethod := h method (dispatchGate_eq_route hgate).2.1
    exact comp (Mcpkit.dispatchRoute · s' req method) (dispatchRoute hpure s' req hmethod)
      fun x => srv.withShared_adoptLogLevel x req

theorem mcpServerNotify (srv : Server W) (s : Session) (notif : Message) :
    Blind srv fun x => Mcpkit.mcpServerNotify (srv.withShared x) s notif := by
  unfold Mcpkit.mcpServerNotify
  refine ite (const id s _) ?_
  cases mcpMessageMethod notif with
  | none => exact const id s _
  | some method =>
    exact const (fun x => { x with cNotificationsTotal := x.cNotificationsTotal + 1 }) _ _

end Blind

structure TwoSessions (W : Type) where
  srv : Server W
  a : Session
  b : Session

inductive SessionCall where
  | onA (c : Call)
  | onB (c : Call)

def SessionCall.call : SessionCall → Call
  | .onA c => c
  | .onB c => c

def SessionCall.isA : SessionCall → Bool
  | .onA _ => true
  | .onB _ => false

def twoStep (st : TwoSessions W) : SessionCall → TwoSessions W × Except Status (Option Message)
  | .onA c =>
    let r := callStep (st.srv, st.a) c
    ({ st with srv := r.1.1, a := r.1.2 }, r.2)
  | .onB c =>
    let r := callStep (st.srv, st.b) c
    ({ st with srv := r.1.1, b := r.1.2 }, r.2)

def TaskFree : Call → Prop
  | .dispatch m => ∀ method, mcpMessageMethod m = some method → ¬IsTaskMethod method
  | .notify _ => True

/-- A call leaves the server as it is but for the shared state, and gives the same whatever that
state is. -/
theorem callStep_withShared (hpure : PureHandlers srv) (s : Session) (h : TaskFree c) :
    ∃ s' o, ∀ x, ∃ x', callStep (srv.withShared x, s) c = ((srv.withShared x', s'), o) := by
  cases c with
  | dispatch m =>
    obtain ⟨s', o, hm⟩ := Blind.mcpServerDispatch hpure s h
    refine ⟨s', o.map some, fun x => ?_⟩
    obtain ⟨x', hx'⟩ := hm x
    exact ⟨x', by simp only [callStep, hx']⟩
  | notify m =>
    obtain ⟨s', o, hm⟩ := Blind.mcpServerNotify srv s m
    refine ⟨s', if o = .ok then .ok none else .error o, fun x => ?_⟩
    obtain ⟨x', hx'⟩ := hm x
    exact ⟨x', by simp only [callStep, hx']⟩

/-- Two states that session A cannot tell apart: they differ in the shared state and session B. -/
def SameForA (srv : Server W) (st st' : TwoSessions W) : Prop :=
  st.a = st'.a ∧ (∃ x, st.srv = srv.withShared x) ∧ ∃ x, st'.srv = srv.withShared x

theorem SameForA.onA (hpure : PureHandlers srv) {st st' : TwoSessions W} (h : SameForA srv st st')
    (hc : TaskFree c) :
    SameForA srv (twoStep st (.onA c)).1 (twoStep st' (.onA c)).1 ∧
      (twoStep st (.onA c)).2 = (twoStep st' (.onA c)).2 := by
  obtain ⟨ha, ⟨x, hx⟩, x', hx'⟩ := h
  obtain ⟨s', o, hcall⟩ := callStep_withShared hpure st.a hc
  obtain ⟨y, hy⟩ := hcall x
  obtain ⟨y', hy'⟩ := hcall x'
  have hst : twoStep st (.onA c) = (⟨srv.withShared y, s', st.b⟩, o) := by
    simp only [twoStep, hx, hy]
  have hst' : twoStep st' (.onA c) = (⟨srv.withShared y', s', st'.b⟩, o) := by
    simp only [twoStep, hx', ← ha, hy']
  rw [hst, hst']
  exact ⟨⟨rfl, ⟨y, rfl⟩, y', rfl⟩, rfl⟩

theorem SameForA.onB (hpure : PureHandlers srv) {st st' : TwoSessions W} (h : SameForA srv st st')
    (hc : TaskFree c) : SameForA srv (twoStep st (.onB c)).1 st' := by
  obtain ⟨ha, ⟨x, hx⟩, hst'⟩ := h
  obtain ⟨s', o, hcall⟩ := callStep_withShared hpure st.b hc
  obtain ⟨y, hy⟩ := hcall x
  simp only [twoStep, hx, hy]
  exact ⟨ha, ⟨y, rfl⟩, hst'⟩

/-- Calls on session B change nothing in what the calls on session A return, as long as no call is
about tasks and no handler reports the host's state. -/
theorem outputs_onA_independent (st : TwoSessions W) (hpure : PureHandlers st.srv)
    {calls : List SessionCall} (htasks : ∀ c ∈ calls, TaskFree c.call) :
    outputsOf twoStep SessionCall.isA st calls =
      outputs twoStep st (calls.filter SessionCall.isA) := by
  have hstart : SameForA st.srv st st := ⟨rfl, ⟨st.srv.shared, rfl⟩, st.srv.shared, rfl⟩
  refine outputsOf_eq_outputs_filter (R := SameForA st.srv) ?_ ?_ hstart htasks
  · intro s t c hc hA h
    cases c with
    | onA c => exact h.onA hpure hc
    | onB c => cases hA
  intro s t c hc hB h
  cases c with
  | onA c => cases hB
  | onB c => exact h.onB hpure hc

theorem pureHandlers_objectServer : PureHandlers objectServer where
  tools tool htool w w' s call := by
    cases mem_singleton.mp htool
    exact ⟨rfl, rfl, rfl, rfl⟩
  resources res hres := by cases hres
  prompts prompt hprompt := by cases hprompt
  completions entry hentry := by cases hentry

/-- A call of session B between two calls of session A. -/
theorem outputs_onA_objectServer :
    outputsOf twoStep SessionCall.isA ⟨objectServer, sessionNew, sessionNew⟩
        [.onA (.dispatch initializeRequest), .onB (.dispatch initializeRequest),
          .onA (.notify initializedNotification)] =
      outputs twoStep ⟨objectServer, sessionNew, sessionNew⟩
        [.onA (.dispatch initializeRequest), .onA (.notify initializedNotification)] := by
  refine outputs_onA_independent ⟨objectServer, sessionNew, sessionNew⟩ pureHandlers_objectServer ?_
  have hfree : TaskFree (.dispatch initializeRequest) := by
    intro method hmethod
    cases hmethod
    simp only [IsTaskMethod]
    decide
  simp only [forall_mem_cons, SessionCall.call]
  exact ⟨hfree, hfree, trivial, by simp⟩

end Mcpkit
