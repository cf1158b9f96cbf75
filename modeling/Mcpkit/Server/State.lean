import Mcpkit.Protocol.Extensions
import Mcpkit.Protocol.Validate

/-!
# Sessions and servers

The state the dispatcher works on.  A server belongs to a host, which registers handlers with it;
`W` is the type of the host's own state.  A handler may change that state and the two session flags
that have public setters, and returns any status and any value.  Locks, capacities, the logger and
calls from a handler back into its server are left out.
-/

namespace Mcpkit

open Json Protocol

inductive LogLevel where
  | debug | info | warn | error
  deriving DecidableEq

structure Session where
  initialized : Bool
  appsHost : Bool
  granted : UInt32
  clientName : Option CString
  clientVersion : Option CString
  ids : List IdEntry
  clientMeta : Option JsonValue
  subscriptionActive : Bool
  subIdType : IdType
  subIdStr : Option CString
  subIdNum : Binary64
  subToolsListChanged : Bool
  subPromptsListChanged : Bool
  subResourcesListChanged : Bool
  subResourceUris : List CString
  deriving DecidableEq

def sessionNew : Session where
  initialized := false
  appsHost := false
  granted := 0xFFFFFFFF
  clientName := none
  clientVersion := none
  ids := []
  clientMeta := none
  subscriptionActive := false
  subIdType := .none
  subIdStr := none
  subIdNum := Binary64.zero
  subToolsListChanged := false
  subPromptsListChanged := false
  subResourcesListChanged := false
  subResourceUris := []

/-- What a handler leaves behind: the host's state and the session flags it may set. -/
structure Effect (W : Type) where
  world : W
  appsHost : Bool
  granted : UInt32

/-- What a handler returns: a status, and the value stored through its out parameter. -/
structure HandlerResult (W : Type) where
  effect : Effect W
  status : Status
  value : Option JsonValue

structure ToolCallCtx where
  args : Option JsonValue
  inputResponses : Option JsonValue
  requestState : Option JString

/-- The handler of a tool: `mcp_tool_handler_fn` or `mcp_tool_handler_v2_fn`. -/
inductive ToolHandler (W : Type) where
  | v1 (f : W → Session → Option JsonValue → HandlerResult W)
  | v2 (f : W → Session → ToolCallCtx → HandlerResult W)

inductive ToolVisibility where
  | model | app | both
  deriving DecidableEq

structure Tool (W : Type) where
  name : CString
  description : Option CString
  schema : Option JsonValue
  outputSchema : Option JsonValue
  metaObj : Option JsonValue
  handler : ToolHandler W
  vis : ToolVisibility
  required : UInt32

structure Resource (W : Type) where
  uri : CString
  name : CString
  mimeType : Option CString
  onRead : Option (W → Session → JString → HandlerResult W)

structure Prompt (W : Type) where
  name : CString
  description : Option CString
  onGet : Option (W → Session → Option JsonValue → HandlerResult W)

/-- `mcp_completion_entry_t`; a provider returns a value and no status. -/
structure CompletionEntry (W : Type) where
  refPrefix : CString
  fn : W → Session → JsonValue → Effect W × Option JsonValue

/-- One call of the tracer, `mcp_trace_event_t` with its arguments; the duration is left out. -/
inductive TraceEvent where
  | begin (method : JString)
  | finish (method : JString) (status : Int)

/-- `mcp_server_t`, without its list of sessions. -/
structure Server (W : Type) where
  name : CString
  version : CString
  tools : List (Tool W)
  resources : List (Resource W)
  prompts : List (Prompt W)
  completions : List (CompletionEntry W)
  world : W
  cRequestsTotal : UInt64
  cRequestsError : UInt64
  cNotificationsTotal : UInt64
  cToolsCalled : UInt64
  tracer : Option (W → TraceEvent → W)
  outbox : List Message
  nextServerId : UInt64
  logFloor : LogLevel
  subscribedUris : List CString
  listTtlMs : UInt64
  listCacheScope : Option CString
  responseMeta : Option JsonValue
  taskMgr : Option TaskMgr
  skillReg : Option SkillRegistry

def mcpServerCreate {W : Type} (world : W) (name version : CString) : Server W where
  name := name
  version := version
  tools := []
  resources := []
  prompts := []
  completions := []
  world := world
  cRequestsTotal := 0
  cRequestsError := 0
  cNotificationsTotal := 0
  cToolsCalled := 0
  tracer := none
  outbox := []
  nextServerId := 1000
  logFloor := .debug
  subscribedUris := []
  listTtlMs := 0
  listCacheScope := none
  responseMeta := none
  taskMgr := none
  skillReg := none

variable {W : Type}

namespace Session

def apply (s : Session) (e : Effect W) : Session :=
  { s with appsHost := e.appsHost, granted := e.granted }

end Session

namespace Server

def apply (srv : Server W) (e : Effect W) : Server W := { srv with world := e.world }

def countRequest (srv : Server W) : Server W :=
  { srv with cRequestsTotal := srv.cRequestsTotal + 1 }

def countError (srv : Server W) : Server W := { srv with cRequestsError := srv.cRequestsError + 1 }

def trace (srv : Server W) (ev : TraceEvent) : Server W :=
  match srv.tracer with
  | none => srv
  | some f => { srv with world := f srv.world ev }

end Server

/-- The mapping of level names that `logging/setLevel` and `_meta` share. -/
def logLevelOf (lvl : JString) : Option LogLevel :=
  if lvl = "debug" then some .debug
  else if lvl = "info" ∨ lvl = "notice" then some .info
  else if lvl = "warning" ∨ lvl = "warn" then some .warn
  else if lvl = "error" then some .error
  else none

end Mcpkit
