import Mcpkit.Server.Replies

/-!
# Calls of tools

`route_tools_call` tests the name, the visibility, the arguments and the
permissions before it calls a handler.  `toolsCallGate` is that part of it: the
call is refused with a message, or a tool is invoked with a call context.

The test of the arguments is skipped for a retry of a V2 handler, which the
route recognises by a `requestState` of any kind, while the handler is given the
state of a string only.
-/

namespace Mcpkit

open Json JsonValue Protocol Option JString Bool

variable {W : Type}

/-- What the params of a `tools/call` hand to a handler; a V1 handler is given the arguments. -/
def toolCallCtx (params : JsonValue) : ToolCallCtx where
  args := params.objectGet "arguments"
  inputResponses := params.objectGet "inputResponses"
  requestState := (params.objectGet "requestState").bind (·.stringValue)

def Tool.invoke (tool : Tool W) (world : W) (s : Session) (call : ToolCallCtx) : HandlerResult W :=
  match tool.handler with
  | .v1 f => f world s call.args
  | .v2 f => f world s call

/-- What becomes of a `tools/call` before a handler runs. -/
inductive ToolsCall (W : Type) where
  | refuse (code : Int32) (text : String)
  | invoke (tool : Tool W) (call : ToolCallCtx)

def toolGate (tool : Tool W) (s : Session) (params : JsonValue) : ToolsCall W :=
  if toolHidden tool s then .refuse rpcMethodNotFound "tools/call: unknown tool"
  else if !argumentsAccepted tool (params.objectGet "arguments")
      (params.objectGet "requestState") then
    .refuse rpcInvalidParams "tools/call: invalid arguments"
  else if tool.required &&& ~~~s.granted ≠ 0 then
    .refuse rpcInvalidParams "tools/call: permission denied"
  else .invoke tool (toolCallCtx params)

/-- `route_tools_call` up to the call of the handler. -/
def toolsCallGate (srv : Server W) (s : Session) (req : Message) : ToolsCall W :=
  match mcpMessageParams req, getString (mcpMessageParams req) "name" with
  | some params, some name =>
    match findTool srv name with
    | none => .refuse rpcInvalidParams "tools/call: unknown tool"
    | some tool => toolGate tool s params
  | _, _ => .refuse rpcInvalidParams "tools/call: missing name"

/-- `route_tools_call` from the gate on: a refused call changes nothing, and the handler of an
invoked tool runs once. -/
def finishToolsCall (srv : Server W) (s : Session) (req : Message) :
    ToolsCall W → Server W × Session × Option Message
  | .refuse code text => (srv, s, errResp req code text)
  | .invoke tool call =>
    let r := tool.invoke srv.world s call
    let srv := { srv.apply r.effect with cToolsCalled := srv.cToolsCalled + 1 }
    (srv, s.apply r.effect, toolReply srv tool req r)

theorem callTool_eq (srv : Server W) (s : Session) (tool : Tool W) (params : JsonValue) :
    callTool srv s tool params = tool.invoke srv.world s (toolCallCtx params) := by
  rw [callTool, Tool.invoke]
  cases tool.handler <;> rfl

theorem routeToolsCall_eq (srv : Server W) (s : Session) (req : Message) :
    routeToolsCall srv s req = finishToolsCall srv s req (toolsCallGate srv s req) := by
  rw [routeToolsCall, toolsCallGate]
  cases mcpMessageParams req with
  | none => rfl
  | some params =>
    cases getString (some params) "name" with
    | none => rfl
    | some name =>
      dsimp only
      cases findTool srv name with
      | none => rfl
      | some tool =>
        simp only [toolGate, callTool_eq, apply_ite (finishToolsCall srv s req)]
        rfl

variable {req : Message} {srv : Server W} {call : ToolCallCtx}

theorem Built.finishToolsCall (srv : Server W) {s : Session} {tool : Tool W}
    (h : toolHidden tool s = false) (params : JsonValue) :
    Built req ToolError (Mcpkit.finishToolsCall srv s req (toolGate tool s params)).2.2 := by
  rw [toolGate, h, if_neg (by decide)]
  repeat' first | exact .error (by decide) | split
  exact .toolReply _ tool _

def Tool.VisibleTo (tool : Tool W) (s : Session) : Prop :=
  tool.vis = .both ∨ (tool.vis = .app ↔ s.appsHost = true)

def Tool.Permitted (tool : Tool W) (s : Session) : Prop :=
  ∀ i, tool.required.toBitVec.getLsbD i = true → s.granted.toBitVec.getLsbD i = true

/-- The arguments satisfy the schema of the tool, if it has one; missing ones count as `null`. -/
def Tool.Fits (tool : Tool W) (args : Option JsonValue) : Prop :=
  ∀ schema, tool.schema = some schema → mcpSchemaValidate schema (args.getD .null) = true

variable {tool : Tool W} {s : Session}

theorem findTool_eq_some {name : JString} (h : findTool srv name = some tool) :
    tool ∈ srv.tools ∧ tool.name = name.toCString :=
  ⟨List.mem_of_find?_eq_some h, by simpa using List.find?_some h⟩

theorem toolHidden_eq_false_iff : toolHidden tool s = false ↔ tool.VisibleTo s := by
  unfold toolHidden Tool.VisibleTo
  cases tool.vis <;> cases s.appsHost <;> decide

theorem permitted_iff : tool.required &&& ~~~s.granted = 0 ↔ tool.Permitted s := by
  rw [← UInt32.toBitVec_inj, UInt32.toBitVec_and, UInt32.toBitVec_not]
  constructor
  · intro h i hi
    have hbit := congrArg (·.getLsbD i) h
    have hlt := BitVec.lt_of_getLsbD hi
    simpa [hi, hlt] using hbit
  intro h
  apply BitVec.eq_of_getLsbD_eq
  intro i hlt
  have hi := h i
  cases hreq : tool.required.toBitVec.getLsbD i with
  | false => simp [hreq]
  | true => simp [hi hreq]

def InvokesSafely (srv : Server W) (s : Session) (req : Message) : Prop :=
  ∀ tool call, toolsCallGate srv s req = .invoke tool call →
    tool ∈ srv.tools ∧
      (getString (mcpMessageParams req) "name").map (·.toCString) = some tool.name ∧
      tool.VisibleTo s ∧ tool.Permitted s ∧
      (tool.Fits call.args ∨ (∃ f, tool.handler = .v2 f) ∧ call.requestState ≠ none)

/-- The request retries a V2 tool with a `requestState` that is not a string and with arguments
that do not fit the schema, and nothing else stands against the call. -/
def StrayRetry (srv : Server W) (s : Session) (req : Message) : Prop :=
  ∃ params name tool f rsVal, mcpMessageParams req = some params ∧
    getString (some params) "name" = some name ∧ findTool srv name = some tool ∧
    tool.VisibleTo s ∧ tool.Permitted s ∧ tool.handler = .v2 f ∧
    params.objectGet "requestState" = some rsVal ∧ rsVal.stringValue = none ∧
    ¬tool.Fits (params.objectGet "arguments")

theorem argumentsAccepted_iff {args rsVal : Option JsonValue} :
    argumentsAccepted tool args rsVal = true ↔
      tool.Fits args ∨ (∃ f, tool.handler = .v2 f) ∧ rsVal ≠ none := by
  unfold argumentsAccepted Tool.Fits
  cases tool.schema with
  | none => simp
  | some schema =>
    cases tool.handler with
    | v1 f => simp
    | v2 f => cases rsVal <;> simp

theorem toolGate_eq_invoke {tool' : Tool W} {params : JsonValue} :
    toolGate tool s params = .invoke tool' call ↔
      tool = tool' ∧ toolCallCtx params = call ∧ tool.VisibleTo s ∧ tool.Permitted s ∧
        (tool.Fits call.args ∨
          (∃ f, tool.handler = .v2 f) ∧ params.objectGet "requestState" ≠ none) := by
  unfold toolGate
  constructor
  · intro h
    split at h
    · cases h
    next hvis =>
      split at h
      · cases h
      next hargs =>
        split at h
        · cases h
        next hperm =>
          cases h
          rw [not_eq_true] at hvis
          rw [not_eq_true, not_eq_false'] at hargs
          exact ⟨rfl, rfl, toolHidden_eq_false_iff.mp hvis, permitted_iff.mp (not_not.mp hperm),
            argumentsAccepted_iff.mp hargs⟩
  · rintro ⟨rfl, rfl, hvis, hperm, hargs⟩
    have hargs : argumentsAccepted tool (params.objectGet "arguments")
        (params.objectGet "requestState") = true := argumentsAccepted_iff.mpr hargs
    rw [toolHidden_eq_false_iff.mpr hvis, hargs, if_neg (by decide), if_neg (by decide),
      if_neg (not_not.mpr (permitted_iff.mpr hperm))]

theorem toolsCallGate_eq_invoke :
    toolsCallGate srv s req = .invoke tool call ↔
      ∃ params name, mcpMessageParams req = some params ∧
        getString (some params) "name" = some name ∧ findTool srv name = some tool ∧
        toolCallCtx params = call ∧ tool.VisibleTo s ∧ tool.Permitted s ∧
        (tool.Fits call.args ∨
          (∃ f, tool.handler = .v2 f) ∧ params.objectGet "requestState" ≠ none) := by
  unfold toolsCallGate
  constructor
  · intro h
    split at h
    next params name hparams hname =>
      rw [hparams] at hname
      split at h
      · cases h
      next found hfound =>
        obtain ⟨rfl, hcall, hrest⟩ := toolGate_eq_invoke.mp h
        exact ⟨params, name, hparams, hname, hfound, hcall, hrest⟩
    · cases h
  · rintro ⟨params, name, hparams, hname, hfound, hcall, hrest⟩
    simp only [hparams, hname, hfound]
    exact toolGate_eq_invoke.mpr ⟨rfl, hcall, hrest⟩

/-- The guards hold at every invocation except those of a stray retry. -/
theorem invokesSafely_iff_not_strayRetry (srv : Server W) (s : Session) (req : Message) :
    InvokesSafely srv s req ↔ ¬StrayRetry srv s req := by
  constructor
  · rintro hsafe ⟨params, name, tool, f, rsVal, hparams, hname, hfound, hvis, hperm, hv2, hrs,
      hstring, hfits⟩
    have hinvoke : toolsCallGate srv s req = .invoke tool (toolCallCtx params) :=
      toolsCallGate_eq_invoke.mpr ⟨params, name, hparams, hname, hfound, rfl, hvis, hperm,
        .inr ⟨⟨f, hv2⟩, by rw [hrs]; exact some_ne_none rsVal⟩⟩
    obtain ⟨-, -, -, -, h | ⟨-, hstate⟩⟩ := hsafe tool _ hinvoke
    · exact hfits h
    · apply hstate
      rwa [toolCallCtx, hrs]
  intro hstray tool call hinvoke
  obtain ⟨params, name, hparams, hname, hfound, rfl, hvis, hperm, hargs⟩ :=
    toolsCallGate_eq_invoke.mp hinvoke
  obtain ⟨hmem, hsame⟩ := findTool_eq_some hfound
  refine ⟨hmem, ?_, hvis, hperm, ?_⟩
  · rw [hparams, hname, map_some, hsame]
  by_cases hfits : tool.Fits (params.objectGet "arguments")
  · exact .inl hfits
  obtain ⟨⟨f, hv2⟩, hpresent⟩ := hargs.resolve_left hfits
  refine .inr ⟨⟨f, hv2⟩, fun hstate => ?_⟩
  -- the state is there, so that it is not given to the handler means it is no string
  obtain ⟨rsVal, hrs⟩ := ne_none_iff_exists'.mp hpresent
  rw [toolCallCtx, hrs] at hstate
  exact hstray ⟨params, name, tool, f, rsVal, hparams, hname, hfound, hvis, hperm, hv2, hrs,
    hstate, hfits⟩

def objectTool : Tool Unit where
  name := "t"
  description := none
  schema := some (.object [("type", .string "object")])
  outputSchema := none
  metaObj := none
  handler := .v2 fun w s _ => ⟨⟨w, s.appsHost, s.granted⟩, .ok, some (.object [])⟩
  vis := .both
  required := 0

def objectServer : Server Unit :=
  { mcpServerCreate () "demo" "1.0" with
    tools := [objectTool] }

def strayRequest : Message :=
  ⟨[("jsonrpc", .string "2.0"), ("id", .string "1"), ("method", .string "tools/call"),
    ("params", .object
      [("name", .string "t"), ("requestState", .bool true)])]⟩

/-- The handler is invoked without arguments and without a state. -/
theorem invoked_unchecked :
    toolsCallGate objectServer sessionNew strayRequest = .invoke objectTool ⟨none, none, none⟩ ∧
      objectTool.schema.map (mcpSchemaValidate · .null) = some false :=
  ⟨rfl, by decide⟩

end Mcpkit
