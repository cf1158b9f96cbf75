import Mcpkit.Server.Isolation
import Mcpkit.Server.Results

/-!
# Hidden tools

A tool may be hidden from sessions of one kind.  The list of tools leaves the hidden ones out, but
`server/discover` counts all tools, and a call of a hidden tool is refused with another code than a
call of an unknown name.  Servers that agree but for hidden tools give the same replies exactly as
long as no request asks one of these two questions with different answers.
-/

namespace Mcpkit

open Json JsonValue Protocol List Machine Option Binary64 Assoc

variable {W : Type}

namespace Server

def withTools (srv : Server W) (tools : List (Tool W)) : Server W := { srv with tools := tools }

end Server

def visibleTools (tools : List (Tool W)) (s : Session) : List (Tool W) :=
  tools.filter (!toolHidden · s)

def hides (tools : List (Tool W)) (s : Session) (name : JString) : Bool :=
  (tools.find? (·.name = name.toCString)).any (toolHidden · s)

variable {s s' : Session} {req : Message} {name method : JString}
  {tools tools₁ tools₂ : List (Tool W)}

theorem toolHidden_congr (h : s'.appsHost = s.appsHost) (tool : Tool W) :
    toolHidden tool s' = toolHidden tool s := by
  rw [toolHidden, toolHidden, h]

theorem visibleTools_congr (h : s'.appsHost = s.appsHost) (tools : List (Tool W)) :
    visibleTools tools s' = visibleTools tools s := by
  simp only [visibleTools, toolHidden_congr h]

theorem find?_of_not_hides (h : hides tools s name = false) :
    tools.find? (·.name = name.toCString) =
      (visibleTools tools s).find? (·.name = name.toCString) := by
  induction tools with
  | nil => rfl
  | cons tool tools ih =>
    unfold hides at h ih
    by_cases hname : tool.name = name.toCString
    · rw [find?_cons_of_pos (by simpa using hname)] at h ⊢
      have hvisible : toolHidden tool s = false := h
      rw [visibleTools, filter_cons_of_pos (by simp [hvisible]),
        find?_cons_of_pos (by simpa using hname)]
    rw [find?_cons_of_neg (by simpa using hname)] at h ⊢
    rw [ih h, visibleTools, visibleTools]
    cases hhidden : toolHidden tool s with
    | true => rw [filter_cons_of_neg (by simp [hhidden])]
    | false =>
      rw [filter_cons_of_pos (by simp [hhidden]), find?_cons_of_neg (by simpa using hname)]

/-- The texts of the discover reply are valid UTF-8. -/
def DiscoverPrints (srv : Server W) : Prop :=
  srv.name.Printable ∧ srv.version.Printable ∧ ∀ t ∈ srv.listCacheScope, t.Printable

/-- The registries have sizes of type `size_t`. -/
def SizesFit (srv : Server W) : Prop :=
  srv.tools.length < 2 ^ 64 ∧ srv.resources.length < 2 ^ 64 ∧ srv.prompts.length < 2 ^ 64

theorem Extends.discoverCapabilities (srv : Server W) :
    Extends ["capabilities"] (Mcpkit.discoverCapabilities srv) := by
  apply Extends.setWhen
  obtain ⟨exts₁, heq₁, -⟩ := Extends.setWhen srv.taskMgr.isSome "io.modelcontextprotocol/tasks"
    ⟨.object [], rfl⟩ []
  obtain ⟨exts₂, heq₂, -⟩ := Extends.setWhen srv.skillReg.isSome "io.modelcontextprotocol/skills"
    ⟨.object [], rfl⟩ exts₁
  dsimp only at heq₁ heq₂
  rw [heq₁, bind_eq_bind, bind_some, heq₂]
  exact ⟨_, setTake_object [] "extensions" _⟩

theorem exists_routeServerDiscover (srv : Server W) (hprints : DiscoverPrints srv)
    (hsizes : SizesFit srv) (req : Message) :
    ∃ members d, routeServerDiscover srv req =
        some ((newEnvelope.set "id" (replyId req)).set "result" (.object members)) ∧
      members.lookup (.lit "toolsCount") = some (.number d) ∧
      d.val = ofNat srv.tools.length := by
  obtain ⟨hname, hversion, hscope⟩ := hprints
  obtain ⟨htools, hresources, hprompts⟩ := hsizes
  obtain ⟨members₁, heq₁, -⟩ := Extends.setString "serverName" hname []
  obtain ⟨members₂, heq₂, -⟩ := Extends.setString "serverVersion" hversion members₁
  obtain ⟨ttl, httl⟩ := newNumber_uint64 srv.listTtlMs
  have hrest := (Extends.setTake "resourcesCount"
      (.number ⟨_, isFinite_ofNat hresources⟩)).responds <|
    (Extends.setTake "promptsCount" (.number ⟨_, isFinite_ofNat hprompts⟩)).responds <|
    (Extends.setWhen (srv.listTtlMs ≠ 0) "listTtlMs" ⟨_, httl⟩).responds <|
    (Extends.setStringOpt "listCacheScope" hscope).responds <|
    (Extends.setTake "supportsStateless" (.bool true)).responds <|
    (Extends.setTake "supportsMeta" (.bool true)).responds <|
    (Extends.discoverCapabilities srv).responds (Responds.decorated hscope req true)
  obtain ⟨members, heq, hlookup⟩ := hrest (set (set members₂ (.lit "protocolVersion")
    (.string (.lit mcpProtocolVersionLatest))) (.lit "toolsCount")
      (.number ⟨ofNat srv.tools.length, isFinite_ofNat htools⟩))
  dsimp only at heq₁ heq₂
  refine ⟨members, ⟨ofNat srv.tools.length, isFinite_ofNat htools⟩, ?_, ?_, rfl⟩
  · simp only [routeServerDiscover, newNumber_ofNat htools, newNumber_ofNat hresources,
      newNumber_ofNat hprompts, bind_eq_bind, bind_some]
    rwa [heq₁, bind_some, heq₂, bind_some, setTake_object, bind_some, setTake_object, bind_some]
  · rw [hlookup _ (by decide)]
    exact lookup_set_self _ _ _

theorem routeServerDiscover_eq_none (srv : Server W) (h : ¬DiscoverPrints srv) (req : Message) :
    routeServerDiscover srv req = none := by
  unfold routeServerDiscover
  by_cases hname : srv.name.Printable
  · by_cases hversion : srv.version.Printable
    · have hscope : ∃ t, srv.listCacheScope = some t ∧ ¬t.Printable := by
        by_contra hall
        refine h ⟨hname, hversion, fun t ht => ?_⟩
        by_contra hprint
        exact hall ⟨t, ht, hprint⟩
      obtain ⟨t, ht, hprint⟩ := hscope
      repeat first
        | exact respondDecorated_eq_none ht hprint req _
        | refine bind_eq_none_iff.mpr fun _ _ => ?_
    · refine bind_eq_none_iff.mpr fun obj _ => ?_
      rw [setString, newString_of_not_printable hversion]
      rfl
  · rw [setString, newString_of_not_printable hname]
    rfl

section TwoLists

variable {srv : Server W} {tools₁ tools₂ : List (Tool W)}

theorem routeServerDiscover_congr (h : ofNat tools₁.length = ofNat tools₂.length)
    (req : Message) :
    routeServerDiscover (srv.withTools tools₁) req =
      routeServerDiscover (srv.withTools tools₂) req := by
  have h₁ : (srv.withTools tools₁).tools = tools₁ := rfl
  have h₂ : (srv.withTools tools₂).tools = tools₂ := rfl
  rw [routeServerDiscover, routeServerDiscover, h₁, h₂, h]
  rfl

theorem routeServerDiscover_eq_iff (h₁ : SizesFit (srv.withTools tools₁))
    (h₂ : SizesFit (srv.withTools tools₂)) (req : Message) :
    routeServerDiscover (srv.withTools tools₁) req =
      routeServerDiscover (srv.withTools tools₂) req ↔
      (DiscoverPrints srv → ofNat tools₁.length = ofNat tools₂.length) := by
  constructor
  · intro heq hprints
    obtain ⟨members₁, d₁, hreply₁, hcount₁, hd₁⟩ :=
      exists_routeServerDiscover (srv.withTools tools₁) hprints h₁ req
    obtain ⟨members₂, d₂, hreply₂, hcount₂, hd₂⟩ :=
      exists_routeServerDiscover (srv.withTools tools₂) hprints h₂ req
    rw [hreply₁, hreply₂] at heq
    have hresult := congrArg (·.getKey "result") (Option.some.inj heq)
    simp only [Message.getKey_set_self, Option.some.injEq, object.injEq] at hresult
    rw [hresult, hcount₂] at hcount₁
    cases hcount₁
    exact hd₁.symm.trans hd₂
  · intro h
    by_cases hprints : DiscoverPrints srv
    · exact routeServerDiscover_congr (h hprints) req
    · rw [routeServerDiscover_eq_none (srv.withTools tools₁) hprints,
        routeServerDiscover_eq_none (srv.withTools tools₂) hprints]

theorem routeToolsList_congr (srv : Server W) (h : visibleTools tools₁ s = visibleTools tools₂ s)
    (req : Message) :
    routeToolsList (srv.withTools tools₁) s req = routeToolsList (srv.withTools tools₂) s req := by
  have h₁ : (srv.withTools tools₁).tools = tools₁ := rfl
  have h₂ : (srv.withTools tools₂).tools = tools₂ := rfl
  unfold visibleTools at h
  rw [routeToolsList, routeToolsList, h₁, h₂, h]
  rfl

end TwoLists

section Calls

variable {srv : Server W} {tools tools₁ tools₂ : List (Tool W)} {s : Session} {req : Message}
  {params : JsonValue} {name : JString}

theorem toolsCallGate_of_hides (hparams : mcpMessageParams req = some params)
    (hname : getString (some params) "name" = some name) (h : hides tools s name = true) :
    toolsCallGate (srv.withTools tools) s req =
      .refuse rpcMethodNotFound "tools/call: unknown tool" := by
  rw [hides] at h
  cases hfound : tools.find? (·.name = name.toCString) with
  | none =>
    rw [hfound] at h
    cases h
  | some tool =>
    rw [hfound, any_some] at h
    have hfind : findTool (srv.withTools tools) name = some tool := hfound
    simp [toolsCallGate, hparams, hname, hfind, toolGate, h]

theorem toolsCallGate_of_not_hides (hparams : mcpMessageParams req = some params)
    (hname : getString (some params) "name" = some name) (h : hides tools s name = false) :
    toolsCallGate (srv.withTools tools) s req =
      match (visibleTools tools s).find? (·.name = name.toCString) with
      | none => .refuse rpcInvalidParams "tools/call: unknown tool"
      | some tool => toolGate tool s params := by
  have hfind : findTool (srv.withTools tools) name =
      (visibleTools tools s).find? (·.name = name.toCString) := find?_of_not_hides h
  cases hvisible : (visibleTools tools s).find? (·.name = name.toCString) with
  | none | some tool => simp only [toolsCallGate, hparams, hname, hfind, hvisible]

theorem toolsCallGate_congr (h : visibleTools tools₁ s = visibleTools tools₂ s)
    (hhides : ∀ name, getString (mcpMessageParams req) "name" = some name →
      hides tools₁ s name = hides tools₂ s name) :
    toolsCallGate (srv.withTools tools₁) s req = toolsCallGate (srv.withTools tools₂) s req := by
  cases hparams : mcpMessageParams req with
  | none => simp only [toolsCallGate, hparams]
  | some params =>
    rw [hparams] at hhides
    cases hname : getString (some params) "name" with
    | none => simp only [toolsCallGate, hparams, hname]
    | some name =>
      have hsame := hhides name hname
      cases hhidden : hides tools₁ s name with
      | true =>
        rw [toolsCallGate_of_hides hparams hname hhidden,
          toolsCallGate_of_hides hparams hname (hsame ▸ hhidden)]
      | false =>
        rw [toolsCallGate_of_not_hides hparams hname hhidden,
          toolsCallGate_of_not_hides hparams hname (hsame ▸ hhidden), h]

end Calls

/-- The error codes of what is built differ from that of a method that does not exist. -/
def NotMissing (r : Option Message) : Prop :=
  ∀ m, r = some m → mcpMessageErrorCode m ≠ some rpcMethodNotFound.toInt

theorem NotMissing.of_built {E : Int32 → String → Prop} {r : Option Message} (h : Built req E r)
    (hE : ∀ code text, E code text → (ofInt code.toInt).trunc ≠ -32601) :
    NotMissing r := by
  intro m hm hcode
  obtain hnone | ⟨code, text, herror, hcode', -⟩ := h.error_cases hm
  · rw [(mcpMessageError_of_none hnone).1] at hcode
    cases hcode
  · exact hE code text herror (Option.some.inj (hcode'.symm.trans hcode))

theorem NotMissing.routeToolsCall (srv : Server W) {params : JsonValue}
    (hparams : mcpMessageParams req = some params)
    (hname : getString (some params) "name" = some name) (h : hides tools s name = false) :
    NotMissing (Mcpkit.routeToolsCall (srv.withTools tools) s req).2.2 := by
  have hcodes : ∀ code ∈ [rpcInternalError, rpcInvalidParams],
      (ofInt code.toInt).trunc ≠ -32601 := by
    intro code hcode
    obtain rfl | rfl := mem_pair.mp hcode <;> decide
  rw [routeToolsCall_eq, toolsCallGate_of_not_hides hparams hname h]
  cases hfind : (visibleTools tools s).find? (·.name = name.toCString) with
  | none =>
    have hbuilt : Built req (fun code _ => code = rpcInvalidParams)
        (errResp req rpcInvalidParams "tools/call: unknown tool") := .error rfl
    exact .of_built hbuilt fun code _ hcode => hcode ▸ by decide
  | some tool =>
    have hvisible : toolHidden tool s = false := by
      have hmem := (mem_filter.mp (mem_of_find?_eq_some hfind)).2
      simpa using hmem
    exact .of_built (.finishToolsCall _ hvisible params) fun code _ herror => hcodes code herror.1

section TwoServers

variable {O : Type} (srv : Server W) (tools₁ tools₂ : List (Tool W))

def Server.variant (x : SharedState W) (tools : List (Tool W)) : Server W :=
  (srv.withShared x).withTools tools

/-- The outcomes with both lists of tools are the same, and the session stays of its kind. -/
def Alike (s : Session) (r : List (Tool W) → Server W × Session × O) : Prop :=
  ∃ x s' o, s'.appsHost = s.appsHost ∧
    ∀ tools, tools = tools₁ ∨ tools = tools₂ → r tools = (srv.variant x tools, s', o)

def KeepsKind (tools : List (Tool W)) : Prop :=
  ∀ tool ∈ tools, ∀ w s call, (tool.invoke w s call).effect.appsHost = s.appsHost

variable {srv tools₁ tools₂}

namespace Alike

theorem const (h : s'.appsHost = s.appsHost) (x : SharedState W) (o : O) :
    Alike srv tools₁ tools₂ s fun tools => (srv.variant x tools, s', o) :=
  ⟨x, s', o, h, fun _ _ => rfl⟩

theorem answer {g : List (Tool W) → O} (h : g tools₁ = g tools₂) (s : Session)
    (x : SharedState W) : Alike srv tools₁ tools₂ s fun tools => (srv.variant x tools, s, g tools)
    := by
  refine ⟨x, s, g tools₁, rfl, ?_⟩
  rintro tools (rfl | rfl)
  · rfl
  · rw [h]

theorem routeInitialize (s : Session) (x : SharedState W) (req : Message) :
    Alike srv tools₁ tools₂ s fun tools =>
      mcpServerRouteRequest (srv.variant x tools) s req "initialize" := by
  obtain ⟨name, version, metaObj, h, -⟩ := session_routeInitialize srv s req
  have hkind : (Mcpkit.routeInitialize srv s req).1.appsHost = s.appsHost := by rw [h]
  exact const hkind x (Mcpkit.routeInitialize srv s req).2

theorem routeToolsCall (h : visibleTools tools₁ s = visibleTools tools₂ s)
    (hkind : KeepsKind (visibleTools tools₁ s)) (x : SharedState W)
    (hhides : ∀ name, getString (mcpMessageParams req) "name" = some name →
      hides tools₁ s name = hides tools₂ s name) :
    Alike srv tools₁ tools₂ s fun tools =>
      mcpServerRouteRequest (srv.variant x tools) s req "tools/call" := by
  have hroute : ∀ tools, tools = tools₁ ∨ tools = tools₂ →
      mcpServerRouteRequest (srv.variant x tools) s req "tools/call" =
        finishToolsCall (srv.variant x tools) s req
          (toolsCallGate (srv.withTools tools₁) s req) := by
    rintro tools (rfl | rfl)
    · exact routeToolsCall_eq (srv.variant x tools) s req
    · rw [toolsCallGate_congr h hhides]
      exact routeToolsCall_eq (srv.variant x tools) s req
  cases hcall : toolsCallGate (srv.withTools tools₁) s req with
  | refuse code text =>
    rw [hcall] at hroute
    exact ⟨x, s, errResp req code text, rfl, hroute⟩
  | invoke tool call =>
    rw [hcall] at hroute
    obtain ⟨params, name, -, -, hfound, -, hvisible, -⟩ := toolsCallGate_eq_invoke.mp hcall
    have hmem : tool ∈ visibleTools tools₁ s := by
      refine mem_filter.mpr ⟨(findTool_eq_some hfound).1, ?_⟩
      rw [toolHidden_eq_false_iff.mpr hvisible]
      rfl
    have hr : (tool.invoke x.world s call).effect.appsHost = s.appsHost := hkind tool hmem _ _ _
    exact ⟨{ x with
        world := (tool.invoke x.world s call).effect.world
        cToolsCalled := x.cToolsCalled + 1 }, s.apply (tool.invoke x.world s call).effect,
      toolReply srv tool req (tool.invoke x.world s call), hr, hroute⟩

end Alike

end TwoServers

namespace Server

variable (srv : Server W) (x : SharedState W)

theorem variant_trace (ev : TraceEvent) :
    ∃ x', ∀ tools, (srv.variant x tools).trace ev = srv.variant x' tools := by
  cases h : srv.tracer with
  | none =>
    refine ⟨x, fun tools => ?_⟩
    have htracer : (srv.variant x tools).tracer = none := h
    simp only [trace, htracer]
  | some f =>
    refine ⟨{ x with world := f x.world ev }, fun tools => ?_⟩
    have htracer : (srv.variant x tools).tracer = some f := h
    unfold trace
    split
    next hnone => cases htracer.symm.trans hnone
    next g hg =>
      cases htracer.symm.trans hg
      rfl

theorem variant_adoptLogLevel (req : Message) :
    ∃ x', ∀ tools, adoptLogLevel (srv.variant x tools).countRequest req = srv.variant x' tools := by
  unfold adoptLogLevel
  split
  next level _ _ =>
    exact ⟨{ x with cRequestsTotal := x.cRequestsTotal + 1, logFloor := level }, fun _ => rfl⟩
  · exact ⟨{ x with cRequestsTotal := x.cRequestsTotal + 1 }, fun _ => rfl⟩

end Server

/-- What the dispatcher makes of the answer of a route. -/
def replyOf (req : Message) : Option Message → Except Status Message
  | none => orNoMem (errResp req rpcInternalError "internal error")
  | some m => .ok m

theorem reply_dispatchRoute (srv : Server W) (s : Session) (req : Message) (method : JString) :
    (dispatchRoute srv s req method).2.2 =
      replyOf req (mcpServerRouteRequest (srv.trace (.begin method)) s req method).2.2 := by
  rw [dispatchRoute]
  obtain ⟨srv', s', o⟩ := mcpServerRouteRequest (srv.trace (.begin method)) s req method
  cases o <;> rfl

theorem Alike.dispatchRoute {srv : Server W}
    (h : ∀ x, Alike srv tools₁ tools₂ s fun tools =>
      mcpServerRouteRequest (srv.variant x tools) s req method) (x : SharedState W) :
    Alike srv tools₁ tools₂ s fun tools =>
      Mcpkit.dispatchRoute (srv.variant x tools) s req method := by
  obtain ⟨x₁, hx₁⟩ := srv.variant_trace x (.begin method)
  obtain ⟨x₂, s', o, hkind, hroute⟩ := h x₁
  dsimp only at hroute
  cases o with
  | none =>
    obtain ⟨x₃, hx₃⟩ := srv.variant_trace { x₂ with cRequestsError := x₂.cRequestsError + 1 }
      (.finish method rpcInternalError.toInt)
    refine ⟨x₃, s', replyOf req none, hkind, fun tools htools => ?_⟩
    simp only [Mcpkit.dispatchRoute, hx₁, hroute tools htools]
    rw [← hx₃]
    rfl
  | some resp =>
    obtain ⟨x₃, hx₃⟩ : ∃ x₃, ∀ tools, (if (mcpMessageErrorCode resp).getD 0 ≠ 0 then
        (srv.variant x₂ tools).countError else srv.variant x₂ tools) = srv.variant x₃ tools := by
      split
      · exact ⟨{ x₂ with cRequestsError := x₂.cRequestsError + 1 }, fun _ => rfl⟩
      · exact ⟨x₂, fun _ => rfl⟩
    obtain ⟨x₄, hx₄⟩ := srv.variant_trace x₃ (.finish method ((mcpMessageErrorCode resp).getD 0))
    refine ⟨x₄, s', .ok resp, hkind, fun tools htools => ?_⟩
    simp only [Mcpkit.dispatchRoute, hx₁, hroute tools htools, hx₃, hx₄]

structure ToolRequest where
  msg : Message
  asks : mcpMessageMethod msg = some (.lit "initialize") ∨
    mcpMessageMethod msg = some (.lit "server/discover") ∨
    mcpMessageMethod msg = some (.lit "tools/list") ∨
    mcpMessageMethod msg = some (.lit "tools/call")

/-- The request shows no difference in hidden tools: a `server/discover` gets the same count or no
answer, and a call names no tool that only one list hides. -/
structure Discreet (srv : Server W) (tools₁ tools₂ : List (Tool W)) (s : Session)
    (req : Message) : Prop where
  count : Reaches s req "server/discover" → DiscoverPrints srv →
    ofNat tools₁.length = ofNat tools₂.length
  call : Reaches s req "tools/call" →
    ∀ name, getString (mcpMessageParams req) "name" = some name →
      hides tools₁ s name = hides tools₂ s name

structure DifferHidden (srv : Server W) (tools₁ tools₂ : List (Tool W)) (s : Session) : Prop where
  visible : visibleTools tools₁ s = visibleTools tools₂ s
  kind : KeepsKind (visibleTools tools₁ s)
  sizes₁ : SizesFit (srv.withTools tools₁)
  sizes₂ : SizesFit (srv.withTools tools₂)

theorem DifferHidden.congr {srv : Server W} (h : DifferHidden srv tools₁ tools₂ s)
    (hkind : s'.appsHost = s.appsHost) :
    DifferHidden srv tools₁ tools₂ s' where
  visible := by rw [visibleTools_congr hkind, visibleTools_congr hkind, h.visible]
  kind := by
    rw [visibleTools_congr hkind]
    exact h.kind
  sizes₁ := h.sizes₁
  sizes₂ := h.sizes₂

theorem appsHost_of_gate (h : dispatchGate s req = .route method s') :
    s'.appsHost = s.appsHost := by
  obtain ⟨-, -, -, ⟨-, rfl⟩ | ⟨id, -, -, rfl⟩⟩ := dispatchGate_eq_route h <;> rfl

theorem hides_congr (h : s'.appsHost = s.appsHost) (tools : List (Tool W)) (name : JString) :
    hides tools s' name = hides tools s name := by
  simp only [hides, toolHidden_congr h]

section Dispatch

variable {srv : Server W} {tools₁ tools₂ : List (Tool W)} {s : Session}

theorem Alike.mcpServerDispatch (h : DifferHidden srv tools₁ tools₂ s) (x : SharedState W)
    (m : ToolRequest) (hok : Discreet srv tools₁ tools₂ s m.msg) :
    Alike srv tools₁ tools₂ s fun tools =>
      Mcpkit.mcpServerDispatch (srv.variant x tools) s m.msg := by
  by_cases hrequest : mcpMessageKind m.msg = .request
  · obtain ⟨x₁, hx₁⟩ := srv.variant_adoptLogLevel x m.msg
    simp only [Mcpkit.mcpServerDispatch, if_neg (not_not.mpr hrequest), hx₁]
    cases hgate : dispatchGate s m.msg with
    | reject code text =>
      exact const rfl { x₁ with cRequestsError := x₁.cRequestsError + 1 }
        (orNoMem (errResp m.msg code text))
    | route method s' =>
      have hkind := appsHost_of_gate hgate
      have h' := h.congr hkind
      have hmethod := (dispatchGate_eq_route hgate).2.1
      have hroute : ∀ x, Alike srv tools₁ tools₂ s' fun tools =>
          mcpServerRouteRequest (srv.variant x tools) s' m.msg method := by
        intro x
        obtain hm | hm | hm | hm := m.asks <;> cases hmethod.symm.trans hm
        · exact routeInitialize s' x m.msg
        · have hcount := hok.count ⟨hrequest, s', hgate⟩
          exact answer ((routeServerDiscover_eq_iff h'.sizes₁ h'.sizes₂ m.msg).mpr hcount) s' x
        · exact answer (routeToolsList_congr srv h'.visible m.msg) s' x
        · refine routeToolsCall h'.visible h'.kind x fun name hname => ?_
          rw [hides_congr hkind, hides_congr hkind]
          exact hok.call ⟨hrequest, s', hgate⟩ name hname
      obtain ⟨x₂, s'', o, hkind', hsame⟩ := Alike.dispatchRoute hroute x₁
      exact ⟨x₂, s'', o, hkind'.trans hkind, hsame⟩
  · simp only [Mcpkit.mcpServerDispatch, if_pos hrequest]
    exact const rfl x _

theorem exists_reply_of_gate (srv : Server W) (hrequest : mcpMessageKind req = .request)
    (hgate : dispatchGate s req = .route method s') (x : SharedState W) :
    ∃ x', ∀ tools, (Mcpkit.mcpServerDispatch (srv.variant x tools) s req).2.2 =
      replyOf req (mcpServerRouteRequest (srv.variant x' tools) s' req method).2.2 := by
  obtain ⟨x₁, hx₁⟩ := srv.variant_adoptLogLevel x req
  obtain ⟨x₂, hx₂⟩ := srv.variant_trace x₁ (.begin method)
  refine ⟨x₂, fun tools => ?_⟩
  simp only [Mcpkit.mcpServerDispatch, if_neg (not_not.mpr hrequest), hx₁, hgate]
  rw [reply_dispatchRoute, hx₂]

def replyCode (r : Except Status Message) : Option Int := r.toOption.bind mcpMessageErrorCode

theorem replyCode_errResp {code : Int32} {text : String} :
    replyCode (replyOf req (errResp req code text)) = some (ofInt code.toInt).trunc := by
  obtain ⟨m, hm, -⟩ := exists_errResp req code text
  rw [hm]
  exact (errorCode_errResp hm).1

theorem replyCode_of_notMissing (req : Message) {o : Option Message} (h : NotMissing o) :
    replyCode (replyOf req o) ≠ some rpcMethodNotFound.toInt := by
  cases o with
  | some m => exact h m rfl
  | none =>
    obtain ⟨m, hm, -⟩ := exists_errResp req rpcInternalError "internal error"
    have hcode := (errorCode_errResp hm).1
    rw [replyOf, hm]
    intro heq
    exact absurd (hcode.symm.trans heq) (by decide)

theorem reply_ne_of_hides {x : SharedState W}
    (hname : getString (mcpMessageParams req) "name" = some name) (h₁ : hides tools₁ s name = true)
    (h₂ : hides tools₂ s name = false) :
    replyOf req (mcpServerRouteRequest (srv.variant x tools₁) s req "tools/call").2.2 ≠
      replyOf req (mcpServerRouteRequest (srv.variant x tools₂) s req "tools/call").2.2 := by
  obtain ⟨params, hparams⟩ : ∃ params, mcpMessageParams req = some params := by
    cases hparams : mcpMessageParams req with
    | none =>
      rw [hparams] at hname
      cases hname
    | some params => exact ⟨params, rfl⟩
  rw [hparams] at hname
  intro heq
  have hmissing : (mcpServerRouteRequest (srv.variant x tools₁) s req "tools/call").2.2 =
      errResp req rpcMethodNotFound "tools/call: unknown tool" := by
    change (Mcpkit.routeToolsCall (srv.variant x tools₁) s req).2.2 = _
    rw [routeToolsCall_eq, Server.variant, toolsCallGate_of_hides hparams hname h₁]
    rfl
  have hother : NotMissing
      (mcpServerRouteRequest (srv.variant x tools₂) s req "tools/call").2.2 :=
    NotMissing.routeToolsCall (srv.withShared x) hparams hname h₂
  apply replyCode_of_notMissing req hother
  rw [← heq, hmissing, replyCode_errResp]
  decide

theorem reply_ne_of_not_discreet (h : DifferHidden srv tools₁ tools₂ s) (x : SharedState W)
    (hbad : ¬Discreet srv tools₁ tools₂ s req) :
    (Mcpkit.mcpServerDispatch (srv.variant x tools₁) s req).2.2 ≠
      (Mcpkit.mcpServerDispatch (srv.variant x tools₂) s req).2.2 := by
  by_cases hcount : Reaches s req "server/discover" → DiscoverPrints srv →
      ofNat tools₁.length = ofNat tools₂.length
  · have hcall : ¬(Reaches s req "tools/call" →
        ∀ name, getString (mcpMessageParams req) "name" = some name →
          hides tools₁ s name = hides tools₂ s name) := fun hcall => hbad ⟨hcount, hcall⟩
    push Not at hcall
    obtain ⟨⟨hrequest, s', hgate⟩, name, hname, hne⟩ := hcall
    have hkind := appsHost_of_gate hgate
    obtain ⟨x', hreply⟩ := exists_reply_of_gate srv hrequest hgate x
    rw [hreply, hreply]
    rw [← hides_congr hkind, ← hides_congr hkind] at hne
    cases h₁ : hides tools₁ s' name with
    | true =>
      rw [h₁] at hne
      exact reply_ne_of_hides hname h₁ (Bool.eq_false_iff.mpr hne.symm)
    | false =>
      rw [h₁] at hne
      exact (reply_ne_of_hides hname (Bool.eq_true_of_not_eq_false hne.symm) h₁).symm
  · push Not at hcount
    obtain ⟨⟨hrequest, s', hgate⟩, hprints, hne⟩ := hcount
    obtain ⟨x', hreply⟩ := exists_reply_of_gate srv hrequest hgate x
    obtain ⟨members₁, d₁, hreply₁, -⟩ :=
      exists_routeServerDiscover (srv.withTools tools₁) hprints h.sizes₁ req
    obtain ⟨members₂, d₂, hreply₂, -⟩ :=
      exists_routeServerDiscover (srv.withTools tools₂) hprints h.sizes₂ req
    have hdiffer := mt (routeServerDiscover_eq_iff h.sizes₁ h.sizes₂ req).mp
      fun hsame => hne (hsame hprints)
    have hroute : ∀ tools, (mcpServerRouteRequest (srv.variant x' tools) s' req
      "server/discover").2.2 = routeServerDiscover (srv.withTools tools) req := fun _ => rfl
    rw [hreply, hreply, hroute, hroute]
    rw [hreply₁, hreply₂] at hdiffer ⊢
    intro heq
    exact hdiffer (congrArg some (Except.ok.inj heq))

end Dispatch

def askStep (st : Server W × Session) (m : ToolRequest) :
    (Server W × Session) × Except Status (Option Message) :=
  callStep st (.dispatch m.msg)

theorem map_some_inj {r r' : Except Status Message} (h : r.map some = r'.map some) : r = r' := by
  cases r <;> cases r' <;> cases h <;> rfl

/-- The two servers in the course of a run. -/
def Parallel (srv : Server W) (tools₁ tools₂ : List (Tool W)) (s : Session)
    (st₁ st₂ : Server W × Session) : Prop :=
  ∃ x s', s'.appsHost = s.appsHost ∧ st₁ = (srv.variant x tools₁, s') ∧
    st₂ = (srv.variant x tools₂, s')

/-- Two servers that differ in hidden tools answer the same requests alike exactly as long as every
request is discreet. -/
theorem outputs_agree_iff_discreet (srv : Server W) {tools₁ tools₂ : List (Tool W)} {s : Session}
    (h : DifferHidden srv tools₁ tools₂ s) (reqs : List ToolRequest) :
    outputs askStep (srv.withTools tools₁, s) reqs =
        outputs askStep (srv.withTools tools₂, s) reqs ↔
      Admissible askStep (fun st m => Discreet srv tools₁ tools₂ st.2 m.msg)
        (srv.withTools tools₁, s) reqs := by
  have hstart : Parallel srv tools₁ tools₂ s (srv.withTools tools₁, s) (srv.withTools tools₂, s) :=
    ⟨srv.shared, s, rfl, rfl, rfl⟩
  refine outputs_eq_iff_admissible (R := Parallel srv tools₁ tools₂ s) ?_ ?_ hstart
  · rintro _ _ m ⟨x, s', hkind, rfl, rfl⟩ hok
    obtain ⟨x', s'', o, hkind', hsame⟩ := Alike.mcpServerDispatch (h.congr hkind) x m hok
    have h₁ := hsame tools₁ (.inl rfl)
    have h₂ := hsame tools₂ (.inr rfl)
    dsimp only at h₁ h₂
    simp only [askStep, callStep, h₁, h₂]
    exact ⟨⟨x', s'', hkind'.trans hkind, rfl, rfl⟩, trivial⟩
  · rintro _ _ m ⟨x, s', hkind, rfl, rfl⟩ hbad heq
    apply reply_ne_of_not_discreet (h.congr hkind) x hbad
    exact map_some_inj heq

def appTool : Tool Unit := { objectTool with vis := .app }

theorem differHidden_appTool : DifferHidden bareServer [] [appTool] sessionNew where
  visible := rfl
  kind := by
    intro tool htool
    cases htool
  sizes₁ := ⟨by decide, by decide, by decide⟩
  sizes₂ := ⟨by decide, by decide, by decide⟩

def toolsListRequest : Message :=
  ⟨[("jsonrpc", .string "2.0"), ("id", .string "1"),
    ("method", .string "tools/list"), ("_meta", .object [])]⟩

theorem outputs_agree_toolsList :
    outputs askStep (bareServer.withTools [], sessionNew)
        [⟨toolsListRequest, by decide⟩] =
      outputs askStep (bareServer.withTools [appTool], sessionNew)
        [⟨toolsListRequest, by decide⟩] := by
  refine (outputs_agree_iff_discreet bareServer differHidden_appTool _).mpr ⟨⟨?_, ?_⟩, trivial⟩
  · rintro ⟨-, s', hgate⟩
    exact absurd (dispatchGate_eq_route hgate).2.1 (by decide)
  · rintro ⟨-, s', hgate⟩
    exact absurd (dispatchGate_eq_route hgate).2.1 (by decide)

def discoverRequest : Message :=
  ⟨[("jsonrpc", .string "2.0"), ("id", .string "1"), ("method", .string "server/discover")]⟩

def callRequest : Message :=
  ⟨[("jsonrpc", .string "2.0"), ("id", .string "1"),
    ("method", .string "tools/call"), ("_meta", .object []),
    ("params", .object [("name", .string "t")])]⟩

def toolsCount (r : Except Status Message) : Option JsonValue :=
  (r.toOption.bind mcpMessageResult).bind (·.objectGet "toolsCount")

/-- `server/discover` counts the hidden tool, and a call of it is refused with another code than a
call of an unknown one. -/
theorem hidden_tool_shows :
    visibleTools [] sessionNew = visibleTools [appTool] sessionNew ∧
      toolsCount (mcpServerDispatch (bareServer.withTools []) sessionNew discoverRequest).2.2 ≠
        toolsCount
          (mcpServerDispatch (bareServer.withTools [appTool]) sessionNew discoverRequest).2.2 ∧
      replyCode (mcpServerDispatch (bareServer.withTools []) sessionNew callRequest).2.2 =
        some rpcInvalidParams.toInt ∧
      replyCode (mcpServerDispatch (bareServer.withTools [appTool]) sessionNew callRequest).2.2 =
        some rpcMethodNotFound.toInt :=
  ⟨rfl, by decide, by decide, by decide⟩

end Mcpkit
