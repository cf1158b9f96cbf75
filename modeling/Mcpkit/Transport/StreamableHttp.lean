import Mcpkit.Lib.Pool
import Mcpkit.Server.History
import Mcpkit.Transport.Http

/-!
# The HTTP endpoint of a server

A POST carries one JSON-RPC message.  An `initialize` request without a session id opens a session
in a table of sixteen slots; later messages name it by its id, and a DELETE closes it.  A message
with a `_meta` object and a `server/discover` request are stateless: their session is destroyed
right after.

Sessions live in the registry of the server, a pool of handles.  The handlers give `none` for a
request that uses a session which is no longer registered.  Writes and allocations succeed.
-/

namespace Mcpkit.Transport

open Json Protocol List

variable {W : Type}

def mcpHttpMaxSessions : Nat := 16

/-- A used slot: the id that names it and the session it holds. -/
structure Slot where
  id : Bytes
  sess : Nat
  deriving DecidableEq

/-- `http_session_table_t`; an unused slot is `none`. -/
structure SessionTable where
  slots : Fin mcpHttpMaxSessions → Option Slot
  nextId : UInt32

def SessionTable.initial : SessionTable := ⟨fun _ => none, 1⟩

/-- What a request can change: the server, its sessions and the table of the loop. -/
structure ServeState (W : Type) where
  server : Server W
  sessions : Pool Session
  table : SessionTable

/-- What a request leaves behind: the bytes written and the call into the server. -/
structure Reply where
  written : Bytes
  call : Option Call

/-- `send_bytes`: at most two headers, then the body, up to a zero byte. -/
def sendBytes (status : Nat) (reason : String) (ctype : Option String) (body : Bytes)
    (extra : Option (String × Bytes)) : Bytes :=
  cString (mcpHttpResponseSerialize
    { status := status
      reason := reason
      headers := (ctype.map fun t => ("Content-Type", text t)).toList ++ extra.toList
      body := body })

def sendStatus (status : Nat) (reason : String) : Bytes := sendBytes status reason none [] none

def badRequest : Bytes := sendStatus 400 "Bad Request"

def sendUnauthorized : Bytes :=
  cString (mcpHttpResponseSerialize
    { status := 401
      reason := "Unauthorized"
      headers := [("WWW-Authenticate", "Bearer"), ("Content-Length", "0")]
      body := [] })

def sendRpcError [Libc] (msg : Message) (code : Int32) (message : String) : Bytes :=
  match mcpResponseErrNew (some msg) code (text message) none with
  | none => badRequest
  | some err =>
    sendBytes 400 "Bad Request" (some "application/json") (cString (mcpMessageSerialize err)) none

def kSupportedVersions : List String := ["2026-07-28", "2025-11-25", "2025-06-18", "2024-11-05"]

def isSupportedProtocolVersion (ver : Bytes) : Bool := kSupportedVersions.any (text · == ver)

variable (t : SessionTable) (req : HttpRequest) (msg : Message)

def metaVersion : Option Bytes := do
  let metaObj ← mcpMessageMeta msg
  let pv ← (metaObj.objectGet "io.modelcontextprotocol/protocolVersion").or
    (metaObj.objectGet "protocolVersion")
  pv.stringValue.map (·.bytes)

def mismatch (a b : Option Bytes) : Bool :=
  match a, b with
  | some a, some b => a != b
  | _, _ => false

def stringParam (key : String) : Option Bytes :=
  (((mcpMessageParams msg).bind (·.objectGet key)).bind (·.stringValue)).map (·.bytes)

/-- The methods whose target is named by `params.name`. -/
def namedByName (method : Option JString) : Bool :=
  method = some (.lit "tools/call") || method = some (.lit "prompts/get")

def namedByUri (method : Option JString) : Bool := method = some (.lit "resources/read")

/-- `validate_http_metadata`: the code and the text of a refusal. -/
def validateHttpMetadata : Option (Int32 × String) :=
  let protoHdr := mcpHttpHeader req "MCP-Protocol-Version"
  let methodHdr := mcpHttpHeader req "Mcp-Method"
  let nameHdr := mcpHttpHeader req "Mcp-Name"
  let is2026 := protoHdr == some (text "2026-07-28")
  let method := mcpMessageMethod msg
  if protoHdr.any (!isSupportedProtocolVersion ·) then
    some (rpcUnsupportedProtocolVersion, "unsupported protocol version")
  else if mismatch protoHdr (metaVersion msg) then
    some (rpcHeaderMismatch, "MCP-Protocol-Version header does not match _meta")
  else if is2026 && mcpMessageKind msg = .request && methodHdr.isNone then
    some (rpcHeaderMismatch, "missing required Mcp-Method header")
  else if mismatch methodHdr (method.map (·.bytes)) then
    some (rpcHeaderMismatch, "Mcp-Method header does not match request method")
  else if is2026 && (namedByName method || namedByUri method) && nameHdr.isNone then
    some (rpcHeaderMismatch, "missing required Mcp-Name header")
  else if nameHdr.isSome && namedByName method && stringParam msg "name" != nameHdr then
    some (rpcHeaderMismatch, "Mcp-Name header does not match params.name")
  else if nameHdr.isSome && namedByUri method && stringParam msg "uri" != nameHdr then
    some (rpcHeaderMismatch, "Mcp-Name header does not match params.uri")
  else none

/-- `table_find`: the first used slot with an id. -/
def tableFind (sid : Bytes) : Option (Fin mcpHttpMaxSessions × Slot) :=
  (finRange mcpHttpMaxSessions).findSome? fun i =>
    ((t.slots i).filter fun slot => slot.id == sid).map fun slot => (i, slot)

def unusedSlot : Option (Fin mcpHttpMaxSessions) :=
  (finRange mcpHttpMaxSessions).find? fun i => (t.slots i).isNone

def sessionId (n : UInt32) : Bytes := text "sess-" ++ unsignedDecimal n.toNat

def SessionTable.take (i : Fin mcpHttpMaxSessions) (sess : Nat) :
    SessionTable where
  slots := Function.update t.slots i (some ⟨sessionId t.nextId, sess⟩)
  nextId := t.nextId + 1

def SessionTable.release (i : Fin mcpHttpMaxSessions) : SessionTable where
  slots := Function.update t.slots i none
  nextId := t.nextId

/-- `ci_prefix_eq`: the text begins with a pattern in lower case, in any letter case. -/
def ciPrefixEq (s pattern : Bytes) : Bool := (s.take pattern.length).map tolower == pattern

/-- The token of the first `Authorization` header, if it has the scheme `Bearer`. -/
def bearerToken : Option Bytes :=
  match mcpHttpHeader req "Authorization" with
  | none => none
  | some value => if ciPrefixEq value "bearer " then some (value.drop 7) else none

/-- A POST passes authentication; without a predicate every one does. -/
def authorized (auth : Option (Bytes → Bool)) (req : HttpRequest) : Bool :=
  match auth with
  | none => true
  | some accepts => (bearerToken req).any accepts

/-- The method of a request; `handle_post` does not look at that of a notification. -/
def requestMethod : Option JString :=
  if mcpMessageKind msg = .request then mcpMessageMethod msg else none

def isInit : Bool := requestMethod msg = some (.lit "initialize")

def isStateless : Bool :=
  (mcpMessageMeta msg).isSome || requestMethod msg = some (.lit "server/discover")

def interim : Bytes :=
  match mcpHttpHeader req "Expect" with
  | none => []
  | some value =>
    if value.take 3 = "100" ∧ (value.drop 3 = [] ∨ (value.drop 3).head? = some 0x2D) then
      text "HTTP/1.1 100 Continue\r\n\r\n"
    else []

/-- `handle_post` up to the choice of a session: the message, or the bytes of a refusal. -/
def postMessage [Libc] (auth : Option (Bytes → Bool)) (req : HttpRequest) :
    Except Bytes Message :=
  if !authorized auth req then .error sendUnauthorized
  else if req.body = [] then .error badRequest
  else
    match mcpMessageParse req.body with
    | none => .error (interim req ++ badRequest)
    | some msg =>
      if mcpMessageKind msg ≠ .request ∧ mcpMessageKind msg ≠ .notification then
        .error (interim req ++ badRequest)
      else
        match validateHttpMetadata req msg with
        | some (code, message) => .error (interim req ++ sendRpcError msg code message)
        | none => .ok msg

/-- The session a message is served on. -/
inductive Choice where
  | refuse (response : Bytes)
  | temporary
  | fresh (i : Fin mcpHttpMaxSessions)
  | held (slot : Slot)

def chooseSession : Choice :=
  match mcpHttpHeader req "Mcp-Session-Id" with
  | none =>
    if isStateless msg then .temporary
    else if !isInit msg then .refuse badRequest
    else
      match unusedSlot t with
      | none => .refuse (sendStatus 500 "Internal Server Error")
      | some i => .fresh i
  | some sid =>
    match tableFind t sid with
    | none => .refuse (sendStatus 404 "Not Found")
    | some (_, slot) => .held slot

/-- The response to a call; a new session is named in a header. -/
def callResponse [Libc] (newId : Option Bytes) : Call → Except Status (Option Message) → Bytes
  | .notify _, _ => sendStatus 202 "Accepted"
  | .dispatch _, .ok (some resp) =>
    sendBytes 200 "OK" (some "application/json") (cString (mcpMessageSerialize resp))
      (newId.map fun id => ("Mcp-Session-Id", id))
  | .dispatch _, _ => sendStatus 500 "Internal Server Error"

/-- `handle_post` from the call into the server on. -/
def serveOn [Libc] (st : ServeState W) (sess : Nat) (req : HttpRequest) (msg : Message)
    (newId : Option Bytes) : Option (ServeState W × Reply) :=
  match st.sessions.get? sess with
  | none => none
  | some s =>
    let call := if mcpMessageKind msg = .notification then Call.notify msg else .dispatch msg
    let result := callStep (st.server, s) call
    let sessions := st.sessions.put sess result.1.2
    some ({ st with
        server := result.1.1
        sessions := if isStateless msg then sessions.free sess else sessions },
      ⟨interim req ++ callResponse newId call result.2, some call⟩)

def handlePost [Libc] (auth : Option (Bytes → Bool)) (st : ServeState W) (req : HttpRequest) :
    Option (ServeState W × Reply) :=
  match postMessage auth req with
  | .error response => some (st, ⟨response, none⟩)
  | .ok msg =>
    let created := { st with sessions := st.sessions.alloc sessionNew }
    match chooseSession st.table req msg with
    | .refuse response => some (st, ⟨interim req ++ response, none⟩)
    | .temporary => serveOn created st.sessions.next req msg none
    | .fresh i =>
      serveOn { created with table := st.table.take i st.sessions.next } st.sessions.next req
        msg (some (sessionId st.table.nextId))
    | .held slot => serveOn st slot.sess req msg none

def mcpSseWrap (jsonText : Bytes) : Bytes := text "data: " ++ jsonText ++ [0x0A, 0x0A]

def handleGet : Bytes :=
  match mcpHttpHeader req "Accept" with
  | none => sendStatus 405 "Method Not Allowed"
  | some accept =>
    if (firstOccurrence "text/event-stream" accept).isNone then
      sendStatus 405 "Method Not Allowed"
    else
      sendBytes 200 "OK" (some "text/event-stream")
        (mcpSseWrap "\x7b\"ping\":\"ok\"\x7d") none

def handleDelete (st : ServeState W) (req : HttpRequest) : ServeState W × Bytes :=
  match (mcpHttpHeader req "Mcp-Session-Id").bind (tableFind st.table) with
  | none => (st, sendStatus 404 "Not Found")
  | some (i, slot) =>
    ({ st with sessions := st.sessions.free slot.sess, table := st.table.release i },
      sendStatus 200 "OK")

/-- The part of the serve loop that answers one request. -/
def handleRequest [Libc] (auth : Option (Bytes → Bool)) (st : ServeState W) (req : HttpRequest) :
    Option (ServeState W × Reply) :=
  match req.method with
  | .post => handlePost auth st req
  | .get => some (st, ⟨handleGet req, none⟩)
  | .delete =>
    let r := handleDelete st req
    some (r.1, ⟨r.2, none⟩)
  | .unknown => some (st, ⟨sendStatus 405 "Method Not Allowed", none⟩)

/-- One turn of the serve loop.  After an undefined outcome nothing more is known. -/
def serveTurn [Libc] (auth : Option (Bytes → Bool)) :
    Option (ServeState W) → HttpRequest → Option (ServeState W) × Option Reply
  | none, _ => (none, none)
  | some st, req =>
    match handleRequest auth st req with
    | none => (none, none)
    | some (st, reply) => (some st, some reply)

end Mcpkit.Transport
