import Mcpkit.Json.Schema
import Mcpkit.Lib.SwapRemove
import Mcpkit.Server.State

/-!
# Routes

The handler of each method, as `routes.c` has them.  A route answers with a
message, or with nothing when a value cannot be built; it returns the server
and the session where it changes them.

List offsets are `size_t`: the digits of a cursor are accumulated, and the page
size added, modulo `2 ^ 64`, and the largest offset is the mark of a bad cursor.
-/

namespace Mcpkit

open Json JsonValue Protocol JString Binary64

variable {W : Type}

def mcpListPageSize : Nat := 100

def sizeModulus : Nat := 18446744073709551616

/-- `(size_t)-1`, the mark of a bad cursor. -/
def badOffset : Nat := sizeModulus - 1

variable (srv : Server W) (s : Session) (req : Message)

def errResp (code : Int32) (text : String) : Option Message :=
  mcpResponseErrNew (some req) code (lit text).bytes none

/-- The loop of `page_offset` over the characters of the cursor. -/
def accumulateDigits : Bytes → Nat → Option Nat
  | [], off => some off
  | c :: cs, off =>
    if 0x30 ≤ c ∧ c ≤ 0x39 then
      accumulateDigits cs ((off * 10 + (c.toNat - 0x30)) % sizeModulus)
    else none

def pageOffset : Nat :=
  match (mcpMessageParams req).bind (·.objectGet "cursor") with
  | none => 0
  | some (.string s) =>
    if s.bytes = [] then badOffset else (accumulateDigits s.bytes 0).getD badOffset
  | some _ => badOffset

def pageEnd (offset : Nat) : Nat := (offset + mcpListPageSize) % sizeModulus

/-- `set_next_cursor`, behind the test that there is a next page. -/
def setNextCursor (result : JsonValue) (next : Option Nat) : Option JsonValue :=
  setOptional result "nextCursor" (next.map fun pos => .string (.lit (toString pos)))

def setString (obj : JsonValue) (key : String) (val : CString) : Option JsonValue := do
  obj.setTake key (← newString val.bytes)

/-- `set_string` behind a test for `NULL`. -/
def setStringOpt (obj : JsonValue) (key : String) (val : Option CString) : Option JsonValue :=
  match val with
  | none => some obj
  | some val => setString obj key val

/-- `get_string`, on parameters that may be missing. -/
def getString (obj : Option JsonValue) (key : String) : Option JString :=
  (obj.bind (·.objectGet key)).bind (·.stringValue)

def findTool (name : JString) : Option (Tool W) :=
  srv.tools.find? (·.name = name.toCString)

def findResource (uri : JString) : Option (Resource W) :=
  srv.resources.find? (·.uri = uri.toCString)

def findPrompt (name : JString) : Option (Prompt W) :=
  srv.prompts.find? (·.name = name.toCString)

def decorateResult (result : JsonValue) (isList : Bool) : Option JsonValue := do
  let result ← mcpResultInjectResultType result
  if !isList then some result
  else
    let result ← setWhen (srv.listTtlMs ≠ 0) result "ttlMs"
      (newNumber (ofNat srv.listTtlMs.toNat))
    let result ← setStringOpt result "cacheScope" srv.listCacheScope
    match srv.responseMeta with
    | none => some result
    | some metaObj => mcpResultInjectMeta result metaObj.clone

/-- The end that most routes share: decorate the result and wrap it. -/
def respondDecorated (result : JsonValue) (isList : Bool) :
    Option Message := do
  mcpResponseOkNew req (some (← decorateResult srv result isList))

/-- The `capabilities` member of `route_server_discover`, set when an extension is enabled. -/
def discoverCapabilities (result : JsonValue) : Option JsonValue :=
  setWhen (srv.taskMgr.isSome || srv.skillReg.isSome) result "capabilities" do
    let exts ← setWhen srv.taskMgr.isSome (.object []) "io.modelcontextprotocol/tasks"
      (some (.object []))
    let exts ← setWhen srv.skillReg.isSome exts "io.modelcontextprotocol/skills"
      (some (.object []))
    (JsonValue.object []).setTake "extensions" exts

def routeServerDiscover : Option Message := do
  let result ← setString (.object []) "serverName" srv.name
  let result ← setString result "serverVersion" srv.version
  let result ← result.setTake "protocolVersion" (.string mcpProtocolVersionLatest)
  let result ← result.setTake "toolsCount" (← newNumber (ofNat srv.tools.length))
  let result ← result.setTake "resourcesCount" (← newNumber (ofNat srv.resources.length))
  let result ← result.setTake "promptsCount" (← newNumber (ofNat srv.prompts.length))
  let result ← setWhen (srv.listTtlMs ≠ 0) result "listTtlMs"
    (newNumber (ofNat srv.listTtlMs.toNat))
  let result ← setStringOpt result "listCacheScope" srv.listCacheScope
  let result ← result.setTake "supportsStateless" (.bool true)
  let result ← result.setTake "supportsMeta" (.bool true)
  let result ← discoverCapabilities srv result
  respondDecorated srv req result true

def infoBlock (name version : CString) : Option JsonValue := do
  setString (← setString (.object []) "name" name) "version" version

def mcpInitializeResultNew (serverName serverVersion : CString) : Option JsonValue := do
  let res ← (JsonValue.object []).setTake "protocolVersion"
    (.string mcpProtocolVersionLatest)
  let res ← res.setTake "capabilities" (.object [])
  res.setTake "serverInfo" (← infoBlock serverName serverVersion)

/-- The copies of `clientInfo` that `route_initialize` keeps. -/
def recordClientInfo (info : Option JsonValue) : Session :=
  let s := match getString info "name" with
    | none => s
    | some name => { s with clientName := some name.toCString }
  match getString info "version" with
  | none => s
  | some version => { s with clientVersion := some version.toCString }

def routeInitialize : Session × Option Message :=
  let params := mcpMessageParams req
  match getString params "protocolVersion" with
  | none => (s, errResp req rpcInvalidParams "initialize: missing protocolVersion")
  | some ver =>
    match mcpProtocolNegotiate ver with
    | none => (s, errResp req rpcInvalidParams "initialize: unsupported version")
    | some _ =>
      let s := recordClientInfo s (params.bind (·.objectGet "clientInfo"))
      match mcpInitializeResultNew srv.name srv.version with
      | none => (s, none)
      | some result =>
        let s := match mcpMessageMeta req with
          | none => s
          | some metaObj => { s with clientMeta := some metaObj.clone }
        (s, respondDecorated srv req result false)

/-- The tests of `route_tools_list` and `route_tools_call` that hide a tool from a session. -/
def toolHidden (t : Tool W) (s : Session) : Bool :=
  t.vis ≠ .both && decide (t.vis = .app) != s.appsHost

def toolEntry (t : Tool W) : Option JsonValue := do
  let entry ← setString (.object []) "name" t.name
  let entry ← setStringOpt entry "description" t.description
  let entry ← setOptional entry "inputSchema" (t.schema.map clone)
  let entry ← setOptional entry "outputSchema" (t.outputSchema.map clone)
  setOptional entry "_meta" (t.metaObj.map clone)

def respondPage (key : String) (entries : List JsonValue) (next : Option Nat) : Option Message := do
  let result ← (JsonValue.object []).setTake key (.array entries)
  let result ← setNextCursor result next
  respondDecorated srv req result true

/-- The visible tools whose index among them is in `[offset, offset + MCP_LIST_PAGE_SIZE)`. -/
def toolsPage (visible : List (Tool W)) (offset : Nat) : List (Tool W) :=
  (visible.zipIdx.filter fun p => !(p.2 < offset || pageEnd offset ≤ p.2)).map Prod.fst

def routeToolsList : Option Message :=
  let offset := pageOffset req
  if offset = badOffset then errResp req rpcInvalidParams "tools/list: bad cursor"
  else do
    let visible := srv.tools.filter (!toolHidden · s)
    let entries ← (toolsPage visible offset).mapM toolEntry
    let next := if pageEnd offset < visible.length then some (pageEnd offset) else none
    respondPage srv req "tools" entries next

def toolErrorResult (st : Status) : Option Message := do
  let item ← (JsonValue.object []).setTake "type" (.string "text")
  let item ← item.setTake "text" (.string (.lit (mcpStatusString st)))
  let result ← (JsonValue.object []).setTake "content" (.array [item])
  let result ← result.setTake "isError" (.bool true)
  mcpResponseOkNew req (some result)

/-- Whether the schema check of `route_tools_call` passes; missing arguments count as `null`, and
a retry of a V2 handler is not checked. -/
def argumentsAccepted (tool : Tool W) (args rsVal : Option JsonValue) : Bool :=
  match tool.schema, tool.handler, rsVal with
  | none, _, _ => true
  | some _, .v2 _, some _ => true
  | some schema, _, _ => mcpSchemaValidate schema (args.getD .null)

def callTool (tool : Tool W) (params : JsonValue) : HandlerResult W :=
  let args := params.objectGet "arguments"
  match tool.handler with
  | .v1 f => f srv.world s args
  | .v2 f =>
    f srv.world s
      { args := args
        inputResponses := params.objectGet "inputResponses"
        requestState := (params.objectGet "requestState").bind (·.stringValue) }

/-- The reply of `route_tools_call` once the handler returned. -/
def toolReply (tool : Tool W) (req : Message) (r : HandlerResult W) : Option Message :=
  if r.status ≠ .ok then toolErrorResult req r.status
  else
    match r.value with
    | none => errResp req rpcInternalError "tools/call: empty result"
    | some result =>
      if mcpMrtrIsInputRequired result then mcpResponseOkNew req (some result)
      else
        match tool.outputSchema, result.objectGet "structuredContent" with
        | some schema, some sc =>
          if mcpSchemaValidate schema sc then respondDecorated srv req result false
          else errResp req rpcInvalidParams
            "tools/call: structuredContent failed outputSchema validation"
        | _, _ => respondDecorated srv req result false

def routeToolsCall : Server W × Session × Option Message :=
  match mcpMessageParams req, getString (mcpMessageParams req) "name" with
  | some params, some name =>
    match findTool srv name with
    | none => (srv, s, errResp req rpcInvalidParams "tools/call: unknown tool")
    | some tool =>
      if toolHidden tool s then
        (srv, s, errResp req rpcMethodNotFound "tools/call: unknown tool")
      else if !argumentsAccepted tool (params.objectGet "arguments")
          (params.objectGet "requestState") then
        (srv, s, errResp req rpcInvalidParams "tools/call: invalid arguments")
      else if tool.required &&& ~~~s.granted ≠ 0 then
        (srv, s, errResp req rpcInvalidParams "tools/call: permission denied")
      else
        let r := callTool srv s tool params
        let srv := { srv.apply r.effect with cToolsCalled := srv.cToolsCalled + 1 }
        (srv, s.apply r.effect, toolReply srv tool req r)
  | _, _ => (srv, s, errResp req rpcInvalidParams "tools/call: missing name")

/-- The page `[offset, end)` of the routes that list a whole registry, and the next cursor. -/
def indexPage {α : Type} (items : List α) (offset : Nat) : List α × Option Nat :=
  let pos := if pageEnd offset < items.length then pageEnd offset else items.length
  ((items.take pos).drop offset, if pos < items.length then some pos else none)

def resourceEntry (r : Resource W) : Option JsonValue := do
  let entry ← setString (.object []) "uri" r.uri
  let entry ← setString entry "name" r.name
  setStringOpt entry "mimeType" r.mimeType

def routeResourcesList : Option Message :=
  let offset := pageOffset req
  if offset = badOffset then errResp req rpcInvalidParams "resources/list: bad cursor"
  else do
    let page := indexPage srv.resources offset
    respondPage srv req "resources" (← page.1.mapM resourceEntry) page.2

/-- The reply of `route_resources_read` and `route_prompts_get` once the handler returned. -/
def contentsReply (r : HandlerResult W) (failed bad : String)
    (respond : JsonValue → Option Message) : Option Message :=
  if r.status ≠ .ok then errResp req (mcpStatusToRpcCode r.status) failed
  else
    match r.value with
    | some (.array items) => respond (.array items)
    | _ => errResp req rpcInternalError bad

def routeResourcesRead : Server W × Session × Option Message :=
  match getString (mcpMessageParams req) "uri" with
  | none => (srv, s, errResp req rpcInvalidParams "resources/read: missing uri")
  | some uri =>
    match findResource srv uri with
    | none => (srv, s, errResp req rpcInvalidParams "resources/read: unknown resource")
    | some res =>
      match res.onRead with
      | none => (srv, s, errResp req rpcInternalError "resources/read: no reader")
      | some onRead =>
        let r := onRead srv.world s uri
        let srv := srv.apply r.effect
        (srv, s.apply r.effect,
          contentsReply req r "resources/read: handler failed" "resources/read: bad contents"
            fun contents => do
              let result ← (JsonValue.object []).setTake "contents" contents
              respondDecorated srv req result true)

def promptEntry (p : Prompt W) : Option JsonValue := do
  setStringOpt (← setString (.object []) "name" p.name) "description" p.description

def routePromptsList : Option Message :=
  let offset := pageOffset req
  if offset = badOffset then errResp req rpcInvalidParams "prompts/list: bad cursor"
  else do
    let page := indexPage srv.prompts offset
    respondPage srv req "prompts" (← page.1.mapM promptEntry) page.2

def routePromptsGet : Server W × Session × Option Message :=
  let params := mcpMessageParams req
  match getString params "name" with
  | none => (srv, s, errResp req rpcInvalidParams "prompts/get: missing name")
  | some name =>
    match findPrompt srv name with
    | none => (srv, s, errResp req rpcInvalidParams "prompts/get: unknown prompt")
    | some prompt =>
      match prompt.onGet with
      | none => (srv, s, errResp req rpcInternalError "prompts/get: no handler")
      | some onGet =>
        let r := onGet srv.world s (params.bind (·.objectGet "arguments"))
        let srv := srv.apply r.effect
        (srv, s.apply r.effect,
          contentsReply req r "prompts/get: handler failed" "prompts/get: bad messages"
            fun messages => do
              let result ← (JsonValue.object []).setTake "messages" messages
              let result ← setStringOpt result "description" prompt.description
              respondDecorated srv req result false)

def routeCompletionList : Option Message :=
  if pageOffset req = badOffset then errResp req rpcInvalidParams "completion/list: bad cursor"
  else do
    let result ← (JsonValue.object []).setTake "completions" (.array [])
    respondDecorated srv req result true

def routeCompletionComplete : Server W × Session × Option Message :=
  let params := mcpMessageParams req
  match (params.bind (·.objectGet "ref")).filter (·.typeOf = .object) with
  | none => (srv, s, errResp req rpcInvalidParams "completion/complete: missing ref object")
  | some refObj =>
    match getString (some refObj) "value" with
    | none =>
      (srv, s, errResp req rpcInvalidParams
        "completion/complete: ref.value missing or not a string")
    | some refStr =>
      match srv.completions.find? (·.refPrefix.bytes.isPrefixOf refStr.bytes) with
      | none =>
        (srv, s, do
          let result ← (JsonValue.object []).setTake "completions" (.array [])
          respondDecorated srv req result false)
      | some entry =>
        let args := ((params.bind (·.objectGet "argument")).map clone).getD .null
        let r := entry.fn srv.world s args
        let srv := srv.apply r.1
        (srv, s.apply r.1, match r.2 with
          | none => errResp req rpcInternalError "completion/complete: provider returned NULL"
          | some (.array comps) => do
            let result ← (JsonValue.object []).setTake "completions" (.array comps)
            respondDecorated srv req result false
          | some _ =>
            errResp req rpcInternalError
              "completion/complete: provider returned non-array")

/-- The update of `subscribed_uris` by `resources/subscribe` and `resources/unsubscribe`. -/
def updateSubscribed (uris : List CString) (uri : CString) (isSub : Bool) : List CString :=
  match uris.findIdx? (· = uri) with
  | none => if isSub then uris ++ [uri] else uris
  | some i => if isSub then uris else uris.swapRemove i

/-- `route_advanced`: nothing also when the method is not one of its own. -/
def routeAdvanced (method : JString) : Server W × Option Message :=
  if method = "logging/setLevel" then
    match getString (mcpMessageParams req) "level" with
    | none => (srv, errResp req rpcInvalidParams "logging/setLevel: missing level")
    | some lvl =>
      match logLevelOf lvl with
      | none => (srv, errResp req rpcInvalidParams "logging/setLevel: bad level")
      | some mapped =>
        let srv := { srv with logFloor := mapped }
        (srv, respondDecorated srv req (.object []) false)
  else if method = "resources/subscribe" ∨ method = "resources/unsubscribe" then
    match getString (mcpMessageParams req) "uri" with
    | none => (srv, errResp req rpcInvalidParams "missing uri")
    | some uri =>
      let srv := { srv with
        subscribedUris := updateSubscribed srv.subscribedUris uri.toCString
          (method = "resources/subscribe") }
      (srv, respondDecorated srv req (.object []) false)
  else if method = "resources/templates/list" then
    (srv, do
      let result ← (JsonValue.object []).setTake "templates" (.array [])
      respondDecorated srv req result true)
  else (srv, none)

def notificationFlag (notifs : Option JsonValue) (key : String) : Bool :=
  ((notifs.bind (·.objectGet key)).bind (·.boolValue)).getD false

def resourceSubscriptions (notifs : Option JsonValue) : List CString :=
  match notifs.bind (·.objectGet "resourceSubscriptions") with
  | some (.array items) => items.filterMap fun v => v.stringValue.map (·.toCString)
  | _ => []

def recordSubscription (notifs : Option JsonValue) : Session :=
  { s with
    subscriptionActive := true
    subIdType := mcpMessageIdType req
    subIdStr := (mcpMessageIdString req).map (·.toCString)
    subIdNum := match mcpMessageIdNumber req with
      | none => s.subIdNum
      | some d => d.val
    subToolsListChanged := notificationFlag notifs "toolsListChanged"
    subPromptsListChanged := notificationFlag notifs "promptsListChanged"
    subResourcesListChanged := notificationFlag notifs "resourcesListChanged"
    subResourceUris := resourceSubscriptions notifs }

/-- The acknowledgement of `route_subscriptions_listen`. -/
def subscriptionAck (notifs : Option JsonValue) : Option Message := do
  let subId ← copyId (some req)
  let metaOut ← (JsonValue.object []).setTake "io.modelcontextprotocol/subscriptionId" subId
  let paramsOut ← (JsonValue.object []).setTake "_meta" metaOut
  let paramsOut ← paramsOut.setTake "notifications" ((notifs.map clone).getD (.object []))
  mcpNotificationNew (lit "notifications/subscriptions/acknowledged").bytes (some paramsOut)

def routeSubscriptionsListen : Session × Option Message :=
  match mcpMessageParams req with
  | some (.object members) =>
    let notifs := (JsonValue.object members).objectGet "notifications"
    if notifs.all (·.typeOf = .object) then
      (recordSubscription s req notifs, subscriptionAck req notifs)
    else (s, errResp req rpcInvalidParams "notifications must be an object")
  | _ => (s, errResp req rpcInvalidParams "subscriptions/listen requires params object")

def routeTasksGet : Option Message :=
  match srv.taskMgr with
  | none => errResp req rpcMethodNotFound "tasks extension not enabled"
  | some mgr =>
    match getString (mcpMessageParams req) "taskId" with
    | none => errResp req rpcInvalidParams "tasks/get: missing taskId"
    | some taskId =>
      match mcpTaskMgrGet mgr taskId.toCString with
      | .error _ => errResp req rpcInvalidParams "tasks/get: task not found"
      | .ok desc => do respondDecorated srv req (← mcpTaskDescToJson desc) false

/-- The reply of `route_tasks_update` and `route_tasks_cancel`: one flag. -/
def flagReply (key : String) : Option Message := do
  respondDecorated srv req (← (JsonValue.object []).setTake key (.bool true)) false

def routeTasksUpdate : Server W × Option Message :=
  match srv.taskMgr with
  | none => (srv, errResp req rpcMethodNotFound "tasks extension not enabled")
  | some mgr =>
    match getString (mcpMessageParams req) "taskId" with
    | none => (srv, errResp req rpcInvalidParams "tasks/update: missing taskId")
    | some taskId =>
      match mcpTaskMgrGet mgr taskId.toCString with
      | .error _ => (srv, errResp req rpcInvalidParams "tasks/update: task not found")
      | .ok desc =>
        let mgr :=
          if desc.status = .inputRequired then
            ((mcpTaskMgrSetStatus mgr taskId.toCString .working
              (some (lit "Input received; resuming").toCString)).toOption).getD mgr
          else mgr
        let srv := { srv with taskMgr := some mgr }
        (srv, flagReply srv req "accepted")

def routeTasksCancel : Server W × Option Message :=
  match srv.taskMgr with
  | none => (srv, errResp req rpcMethodNotFound "tasks extension not enabled")
  | some mgr =>
    match getString (mcpMessageParams req) "taskId" with
    | none => (srv, errResp req rpcInvalidParams "tasks/cancel: missing taskId")
    | some taskId =>
      match mcpTaskMgrCancel mgr taskId.toCString with
      | .error _ => (srv, errResp req rpcInvalidParams "tasks/cancel: task not found")
      | .ok mgr =>
        let srv := { srv with taskMgr := some mgr }
        (srv, flagReply srv req "cancelled")

def routeSkillsList : Option Message :=
  match srv.skillReg with
  | none => errResp req rpcMethodNotFound "skills extension not enabled"
  | some reg =>
    let offset := pageOffset req
    if offset = badOffset then errResp req rpcInvalidParams "invalid cursor"
    else do
      let page := indexPage reg offset
      respondPage srv req "skills" (← page.1.mapM mcpSkillToJson) page.2

def routeSkillsGet : Option Message :=
  match srv.skillReg with
  | none => errResp req rpcMethodNotFound "skills extension not enabled"
  | some reg =>
    let params := mcpMessageParams req
    match ((getString params "name").filter (·.bytes ≠ [])).or (getString params "uri") with
    | none => errResp req rpcInvalidParams "skills/get: missing name or uri"
    | some key =>
      match mcpSkillRegistryFind reg key.toCString with
      | none => errResp req rpcInvalidParams "skills/get: skill not found"
      | some sk => do respondDecorated srv req (← mcpSkillToJson sk) false

/-- The methods `mcp_server_route_request` tries after `route_advanced` returned nothing. -/
def routeExtensions (method : JString) : Server W × Session × Option Message :=
  if method = "server/discover" then (srv, s, routeServerDiscover srv req)
  else if method = "subscriptions/listen" then
    let r := routeSubscriptionsListen s req
    (srv, r.1, r.2)
  else if method = "tasks/get" then (srv, s, routeTasksGet srv req)
  else if method = "tasks/update" then
    let r := routeTasksUpdate srv req
    (r.1, s, r.2)
  else if method = "tasks/cancel" then
    let r := routeTasksCancel srv req
    (r.1, s, r.2)
  else if method = "skills/list" then (srv, s, routeSkillsList srv req)
  else if method = "skills/get" then (srv, s, routeSkillsGet srv req)
  else (srv, s, errResp req rpcMethodNotFound "unknown method")

def mcpServerRouteRequest (method : JString) : Server W × Session × Option Message :=
  if method = "initialize" then
    let r := routeInitialize srv s req
    (srv, r.1, r.2)
  else if method = "ping" then (srv, s, respondDecorated srv req (.object []) false)
  else if method = "tools/list" then (srv, s, routeToolsList srv s req)
  else if method = "tools/call" then routeToolsCall srv s req
  else if method = "resources/list" then (srv, s, routeResourcesList srv req)
  else if method = "resources/read" then routeResourcesRead srv s req
  else if method = "prompts/list" then (srv, s, routePromptsList srv req)
  else if method = "prompts/get" then routePromptsGet srv s req
  else if method = "completion/list" then (srv, s, routeCompletionList srv req)
  else if method = "completion/complete" then routeCompletionComplete srv s req
  else
    match routeAdvanced srv req method with
    | (srv, some adv) => (srv, s, some adv)
    | (srv, none) => routeExtensions srv s req method

end Mcpkit
