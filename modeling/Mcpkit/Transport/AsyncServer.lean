import Mcpkit.Client.Request
import Mcpkit.Core.Sha1
import Mcpkit.Transport.Http
import Mcpkit.Transport.WebSocket

/-!
# The asynchronous server

One connection of the reactor.  Bytes that arrive are appended to its read buffer.  A complete
request is answered by the reactor itself or handed to a worker, which runs the dispatcher and
queues the answer.  Draining the queue moves answers into the write buffer.  The next request waits
until the answer has been written; after an upgrade every message is handed to a worker at once.

All connections share the list of sessions.  When a task runs, the server and its session are in
whatever state other tasks have left them.  Allocations succeed.
-/

namespace Mcpkit.Transport.Async

open Json Protocol List Bool
open Incremental (Outcome)

variable {W : Type}

def maxBody : Nat := 4194304

def maxReadCap : Nat := 4259840

inductive ConnType where
  | httpInit | sse | ws
  deriving DecidableEq

/-- `mcp_async_server_config_t`, as far as a connection reads it. -/
structure Config where
  enableWebsocket : Bool
  enableSse : Bool

structure SessionEntry where
  id : Bytes
  session : Nat
  deriving DecidableEq

/-- What the connections share: the list of sessions, the counter of their ids, and the number of
sessions that have been created. -/
structure Shared where
  sessions : List SessionEntry
  idCounter : UInt64
  created : Nat
  deriving DecidableEq

/-- `async_conn_t`.  `readBuf` holds the `read_len` bytes in use; `detached` also stands for a
closed socket. -/
structure Conn where
  type : ConnType
  readBuf : Bytes
  readCap : Nat
  writeBuf : Option Bytes
  writeOff : Nat
  wsFragBuf : Option Bytes
  session : Option Nat
  closing : Bool
  detached : Bool
  httpInFlight : Bool
  deriving DecidableEq

def Conn.accepted : Conn where
  type := .httpInit
  readBuf := []
  readCap := 0
  writeBuf := none
  writeOff := 0
  wsFragBuf := none
  session := none
  closing := false
  detached := false
  httpInFlight := false

structure ResponseItem where
  data : Bytes
  closeAfter : Bool
  deriving DecidableEq

/-- `worker_task_t`.  The source has a null pointer for the body of an empty WebSocket message. -/
structure Task where
  session : Option Nat
  jsonBody : Bytes
  isWs : Bool
  sessionId : Bytes
  deriving DecidableEq

/-- A connection, its part of the response queue, its unfinished tasks and what it shares; and the
tasks submitted and the bytes written so far. -/
structure State where
  cfg : Config
  shared : Shared
  conn : Conn
  resp : List ResponseItem
  tasks : List Task
  submitted : List Task
  written : Bytes

variable (cfg : Config) (shared : Shared)

def State.accepted : State where
  cfg := cfg
  shared := shared
  conn := .accepted
  resp := []
  tasks := []
  submitted := []
  written := []

namespace State

def enqueueResponse (st : State) (data : Bytes) (closeAfter : Bool) : State :=
  { st with resp := st.resp ++ [⟨data, closeAfter⟩] }

def submit (st : State) (task : Task) : State :=
  { st with tasks := st.tasks ++ [task], submitted := st.submitted ++ [task] }

def closeConn (st : State) : State :=
  { st with conn := { st.conn with closing := true, detached := true } }

def httpError (code : Nat) (msg : String) : Bytes :=
  text "HTTP/1.1 " ++ unsignedDecimal code ++ text " " ++ text msg ++ crlf ++
    text "Content-Type: text/plain" ++ crlf ++
    text "Content-Length: " ++ unsignedDecimal (text msg).length ++ crlf ++
    text "Connection: close" ++ crlfCrlf ++ text msg

def sendHttpError (st : State) (code : Nat) (msg : String) : State :=
  st.enqueueResponse (httpError code msg) true

end State

/-- `strtol` in base ten on a 64-bit `long`: leading white space, one sign, digits, and the nearest
number if the value is out of range.  Without digits nothing is converted. -/
def strtol (s : Bytes) : Option Int :=
  let s := s.dropWhile isSpace
  let negative := s.head? = some 0x2D
  let s := if negative ∨ s.head? = some 0x2B then s.drop 1 else s
  let digits := s.takeWhile isDigit
  if digits = [] then none
  else
    let v : Nat := digits.foldl (fun v c => v * 10 + (c.toNat - 0x30)) 0
    some (if negative then max (-(v : Int)) (-2 ^ 63) else min (v : Int) (2 ^ 63 - 1))

/-- The line starts with the name and the colon, in any case. -/
def isContentLength (line : Bytes) : Bool := headerNameEq (line.take 15) "Content-Length:"

/-- The loop of `parse_http_content_length` from the start of a line on; the first `headerLen` bytes
of `buf` belong to the header block.  A value is read to where its digits end, be it behind the
line. -/
def contentLengthLoop : Nat → Bytes → Nat → Int
  | 0, _, _ => 0
  | fuel + 1, buf, headerLen =>
    let line := (buf.take headerLen).takeWhile (· ≠ 0x0A)
    if isContentLength line then (strtol (buf.drop 15)).getD (-1)
    else if line.length = headerLen then 0
    else contentLengthLoop fuel (buf.drop (line.length + 1)) (headerLen - (line.length + 1))

def parseHttpContentLength (buf : Bytes) (headerLen : Nat) : Int :=
  contentLengthLoop (headerLen + 1) buf headerLen

/-- What `process_http_request` finds in the buffer before it looks at the request. -/
inductive RequestScan where
  | wait
  | refuse (code : Nat) (msg : String)
  | request (headerLen totalNeeded : Nat) (req : HttpRequest)
  deriving DecidableEq

/-- `process_http_request` up to the first branch on the request. -/
def scanRequest (buf : Bytes) : RequestScan :=
  match findHeadersEnd buf with
  | none => .wait
  | some hsEnd =>
    let headerLen := hsEnd + 4
    let contentLen := parseHttpContentLength buf headerLen
    if contentLen < 0 then .refuse 400 "Bad Request"
    else if maxBody < contentLen then .refuse 413 "Payload Too Large"
    else
      let totalNeeded := headerLen + contentLen.toNat
      if buf.length < totalNeeded then .wait
      else
        match mcpHttpParseRequest (buf.take totalNeeded) with
        | none => .refuse 400 "Bad Request"
        | some req => .request headerLen totalNeeded req

namespace Shared

def findSession (sh : Shared) (sid : Bytes) : Option SessionEntry := sh.sessions.find? (·.id = sid)

/-- The id that `create_session_entry` prints. -/
def nextSessionId (sh : Shared) : Bytes := text "sess-" ++ unsignedDecimal sh.idCounter.toNat

def createSessionEntry (sh : Shared) : Shared × SessionEntry :=
  let entry := ⟨sh.nextSessionId, sh.created⟩
  (⟨entry :: sh.sessions, sh.idCounter + 1, sh.created + 1⟩, entry)

end Shared

def strstr (haystack needle : Bytes) : Bool := (firstOccurrence needle haystack).isSome

def switchingProtocols (acceptKey : Bytes) : Bytes :=
  text "HTTP/1.1 101 Switching Protocols" ++ crlf ++ text "Upgrade: websocket" ++ crlf ++
    text "Connection: Upgrade" ++ crlf ++ text "Sec-WebSocket-Accept: " ++ acceptKey ++ crlfCrlf

def sseOk : Bytes :=
  text "HTTP/1.1 200 OK" ++ crlf ++ text "Content-Type: text/event-stream" ++ crlf ++
    text "Cache-Control: no-cache" ++ crlf ++ text "Connection: keep-alive" ++ crlfCrlf

/-- What becomes of a request: an error, a switch to another kind of connection, or a task. -/
inductive Branch where
  | error (code : Nat) (msg : String)
  | upgrade (acceptKey : Bytes)
  | stream (session : Nat)
  | dispatch (shared : Shared) (entry : SessionEntry)

def wantsUpgrade (req : HttpRequest) : Bool :=
  (mcpHttpHeader req "Upgrade").any (headerNameEq · "websocket")

def upgradeBranch (req : HttpRequest) : Branch :=
  if !cfg.enableWebsocket then .error 403 "WebSocket Disabled"
  else
    match mcpHttpHeader req "Sec-WebSocket-Key" with
    | none => .error 400 "Missing Sec-WebSocket-Key"
    | some key =>
      match Core.mcpWsComputeAcceptKey key with
      | none => .error 500 "Handshake Error"
      | some acceptKey => .upgrade acceptKey

def getBranch (req : HttpRequest) : Branch :=
  if (mcpHttpHeader req "Accept").any (strstr · "text/event-stream") then
    if !cfg.enableSse then .error 403 "SSE Disabled"
    else
      match mcpHttpHeader req "Mcp-Session-Id" with
      | none => .error 400 "Bad Request: Missing Mcp-Session-Id"
      | some sid =>
        match shared.findSession sid with
        | none => .error 404 "Session Not Found"
        | some entry => .stream entry.session
  else .error 405 "Method Not Allowed"

/-- The branch of a POST.  The body is searched where it stands in the buffer, so that the search
goes on behind it until a zero byte. -/
def postBranch (req : HttpRequest) (bodyOnwards : Bytes) : Branch :=
  if req.body = [] then .error 400 "Bad Request"
  else
    match mcpHttpHeader req "Mcp-Session-Id" with
    | none =>
      if strstr (cString bodyOnwards) "\"initialize\"" then
        let created := shared.createSessionEntry
        .dispatch created.1 created.2
      else .error 400 "Bad Request: Missing Mcp-Session-Id"
    | some sid =>
      match shared.findSession sid with
      | none => .error 404 "Session Not Found"
      | some entry => .dispatch shared entry

/-- `process_http_request` from the first branch on the request. -/
def requestBranch (req : HttpRequest) (bodyOnwards : Bytes) : Branch :=
  if wantsUpgrade req then upgradeBranch cfg req
  else
    match req.method with
    | .get => getBranch cfg shared req
    | .post => postBranch shared req bodyOnwards
    | _ => .error 405 "Method Not Allowed"

namespace State

def dropRead (st : State) (n : Nat) : State :=
  { st with conn := { st.conn with readBuf := st.conn.readBuf.drop n } }

/-- What a branch does, and the number of bytes it reports as consumed. -/
def takeBranch (st : State) (totalNeeded : Nat) (req : HttpRequest) : Branch → State × Nat
  | .error code msg => (st.sendHttpError code msg, totalNeeded)
  | .upgrade acceptKey =>
    let st := st.enqueueResponse (switchingProtocols acceptKey) false
    let st := { st with
      shared := { st.shared with created := st.shared.created + 1 }
      conn := { st.conn with type := .ws, session := some st.shared.created } }
    (st.dropRead totalNeeded, 0)
  | .stream session =>
    let st := { st with conn := { st.conn with type := .sse, session := some session } }
    ((st.enqueueResponse sseOk false).dropRead totalNeeded, 0)
  | .dispatch shared entry =>
    let st := { st with shared := shared }.submit ⟨some entry.session, req.body, false, entry.id⟩
    ({ st with conn := { st.conn with httpInFlight := true } }, totalNeeded)

/-- `process_http_request`, with the number of bytes that it reports as consumed. -/
def processHttpRequest (st : State) : State × Nat :=
  match scanRequest st.conn.readBuf with
  | .wait => (st, 0)
  | .refuse code msg => ((st.sendHttpError code msg).closeConn, st.conn.readBuf.length)
  | .request headerLen totalNeeded req =>
    st.takeBranch totalNeeded req
      (requestBranch st.cfg st.shared req (st.conn.readBuf.drop headerLen))

def httpSlideWindow (st : State) (totalNeeded : Nat) : State :=
  if st.conn.httpInFlight then st.dropRead totalNeeded else st

/-- The pair of calls that handles the request at the front of the buffer. -/
def processAndSlide (st : State) : State :=
  let r := st.processHttpRequest
  r.1.httpSlideWindow r.2

def handlePipelinedHttp (st : State) : State :=
  if st.conn.type ≠ .httpInit ∨ st.conn.readBuf = [] ∨ st.conn.httpInFlight then st
  else st.processAndSlide

def wsTask (st : State) (payload : Bytes) : Task := ⟨st.conn.session, payload, true, []⟩

/-- A frame of the loop in `handle_client_read`; the connection is closed if it is not to go on. -/
def wsFrameStep (st : State) (frame : WsFrame) : State × Bool :=
  match frame.opcode, st.conn.wsFragBuf with
  | .text, some _ | .binary, some _ => (st, false)
  | .text, none | .binary, none =>
    if frame.fin then (st.submit (st.wsTask frame.payload), true)
    else ({ st with conn := { st.conn with wsFragBuf := some frame.payload } }, true)
  | .continuation, none => (st, false)
  | .continuation, some frag =>
    if maxBody < frag.length + frame.payload.length then (st, false)
    else if frame.fin then
      ({ st with conn := { st.conn with wsFragBuf := none } }.submit
        (st.wsTask (frag ++ frame.payload)), true)
    else
      ({ st with conn := { st.conn with wsFragBuf := some (frag ++ frame.payload) } }, true)
  | .ping, _ =>
    (st.enqueueResponse (mcpWsEncodeFrame ⟨true, .pong, false, [0, 0, 0, 0], frame.payload⟩) false,
      true)
  | .pong, _ => (st, true)
  | .close, _ => (st, false)

/-- Where the loop over the frames leaves the connection. -/
def ofOutcome : Outcome State UInt8 → State
  | .running st rest => { st with conn := { st.conn with readBuf := rest } }
  | .stopped st => st.closeConn

def readFrames (st : State) : State :=
  ofOutcome (Incremental.consumeAll mcpWsParseFrame wsFrameStep st st.conn.readBuf)

/-- Make room for a read; nothing if the buffer may not grow any more. -/
def growRead (conn : Conn) : Option Conn :=
  if conn.readBuf.length + 4096 ≤ conn.readCap then some conn
  else if maxReadCap ≤ conn.readCap then none
  else
    some { conn with
      readCap := min (if conn.readCap = 0 then 8192 else conn.readCap * 2) maxReadCap }

/-- `handle_client_read` on a readable socket, where `recv` gives some bytes. -/
def onRead (st : State) (chunk : Bytes) : State :=
  match growRead st.conn with
  | none => st.closeConn
  | some conn =>
    let st := { st with conn := { conn with readBuf := conn.readBuf ++ chunk } }
    match st.conn.type with
    | .httpInit => if st.conn.httpInFlight then st else st.processAndSlide
    | .ws => st.readFrames
    | .sse => st

/-- `handle_client_read` on a writable socket, where `send` takes at most `n` bytes.  The answer is
done with the event after its last byte. -/
def onWrite (st : State) (n : Nat) : State :=
  match st.conn.writeBuf with
  | none => st
  | some buf =>
    if st.conn.writeOff < buf.length then
      let now := (buf.drop st.conn.writeOff).take n
      { st with
        written := st.written ++ now
        conn := { st.conn with writeOff := st.conn.writeOff + now.length } }
    else
      let st := { st with
        conn := { st.conn with writeBuf := none, writeOff := 0, httpInFlight := false } }
      if st.conn.closing then st.closeConn else st.handlePipelinedHttp

def drainItem (conn : Conn) (item : ResponseItem) : Conn :=
  if conn.detached then conn
  else
    match conn.writeBuf with
    | none =>
      { conn with
        writeBuf := some item.data, writeOff := 0, closing := conn.closing || item.closeAfter }
    | some buf =>
      { conn with
        writeBuf := some (buf ++ item.data), closing := conn.closing || item.closeAfter }

def drainResponses (st : State) : State :=
  { st with conn := st.resp.foldl drainItem st.conn, resp := [] }

end State

section

variable [Libc]

/-- The text that stands in for a missing response. -/
def internalErrorText : Bytes :=
  text
    "\x7b\"jsonrpc\":\"2.0\",\"error\":\x7b\"code\":-32603,\"message\":\"Internal error\"\x7d\x7d"

/-- `worker_dispatch_fn` up to the form of the answer: the text of a message, or nothing for a
notification. -/
def workerMessage (srv : Server W) (s : Session) (jsonBody : Bytes) :
    Server W × Session × Option Bytes :=
  match mcpMessageParse (cString jsonBody) with
  | none => (srv, s, some internalErrorText)
  | some msg =>
    if mcpMessageKind msg = .notification then
      let r := mcpServerNotify srv s msg
      (r.1, r.2.1, none)
    else
      match mcpServerDispatch srv s msg with
      | (srv, s, .ok resp) => (srv, s, some (cString (mcpMessageSerialize resp)))
      | (srv, s, .error _) => (srv, s, some internalErrorText)

def kAccepted : Bytes :=
  text "HTTP/1.1 202 Accepted" ++ crlf ++ text "Content-Length: 0" ++ crlf ++
    text "Connection: keep-alive" ++ crlfCrlf

def httpOk (sessionId body : Bytes) : Bytes :=
  text "HTTP/1.1 200 OK" ++ crlf ++ text "Content-Type: application/json" ++ crlf ++
    text "Content-Length: " ++ unsignedDecimal body.length ++ crlf ++
    (if sessionId = [] then [] else text "Mcp-Session-Id: " ++ sessionId ++ crlf) ++
    text "Connection: keep-alive" ++ crlfCrlf ++ body

def workerAnswer (task : Task) (message : Option Bytes) : Option Bytes :=
  if task.isWs then
    message.map fun body => mcpWsEncodeFrame ⟨true, .text, false, [0, 0, 0, 0], body⟩
  else some (message.elim kAccepted (httpOk task.sessionId))

/-- `worker_dispatch_fn`: the bytes that it puts into the queue. -/
def workerDispatchFn (srv : Server W) (s : Session) (task : Task) :
    Server W × Session × Option Bytes :=
  let r := workerMessage srv s task.jsonBody
  (r.1, r.2.1, workerAnswer task r.2.2)

/-- What can happen to a connection.  A worker finishes a task in the state of the server and the
session that it finds, and other connections change what is shared. -/
inductive Event (W : Type) where
  | read (chunk : Bytes)
  | write (n : Nat)
  | fail
  | drain
  | complete (i : Nat) (srv : Server W) (s : Session)
  | others (shared : Shared)

namespace State

def onComplete (st : State) (i : Nat) (srv : Server W) (s : Session) : State :=
  match st.tasks[i]? with
  | none => st
  | some task =>
    let st := { st with tasks := st.tasks.eraseIdx i }
    match (workerDispatchFn srv s task).2.2 with
    | none => st
    | some answer => st.enqueueResponse answer false

def step (st : State) : Event W → State
  | .read chunk => if st.conn.detached then st else st.onRead chunk
  | .write n => if st.conn.detached then st else st.onWrite n
  | .fail => if st.conn.detached then st else st.closeConn
  | .drain => st.drainResponses
  | .complete i srv s => st.onComplete i srv s
  | .others shared => { st with shared := shared }

def machine (st : State) (ev : Event W) : State × Unit := (st.step ev, ())

end State

end

def Event.bytes : Event W → Bytes
  | .read chunk => chunk
  | _ => []

theorem Event.bytes_eq_nil {ev : Event W} (h : ∀ chunk, ev ≠ .read chunk) : ev.bytes = [] := by
  cases ev with
  | read chunk => exact absurd rfl (h chunk)
  | _ => rfl

/-- A read of an open connection does not find its buffer full. -/
def HasRoom (st : State) (ev : Event W) : Prop :=
  st.conn.detached = false → ∀ chunk, ev = .read chunk → State.growRead st.conn ≠ none

variable {conn : Conn}

namespace State

theorem growRead_eq_some {conn' : Conn} (h : growRead conn = some conn') :
    ∃ cap, conn' = { conn with readCap := cap } := by
  rw [growRead] at h
  split at h
  · cases h
    exact ⟨conn.readCap, rfl⟩
  split at h
  · cases h
  · cases h
    exact ⟨_, rfl⟩

theorem exists_growRead (h : growRead conn ≠ none) :
    ∃ cap, growRead conn = some { conn with readCap := cap } := by
  obtain ⟨conn', hgrow⟩ := Option.ne_none_iff_exists'.mp h
  obtain ⟨cap, rfl⟩ := growRead_eq_some hgrow
  exact ⟨cap, hgrow⟩

theorem growRead_ne_none (h : conn.readBuf.length + 4096 ≤ maxReadCap) : growRead conn ≠ none := by
  rw [growRead]
  split
  · exact nofun
  · split
    · omega
    · exact nofun

theorem foldl_drainItem (items : List ResponseItem) (conn : Conn) :
    ∃ writeBuf writeOff closing, items.foldl drainItem conn =
        { conn with writeBuf := writeBuf, writeOff := writeOff, closing := closing } ∧
      ((∀ item ∈ items, item.closeAfter = false) → closing = conn.closing) := by
  induction items generalizing conn with
  | nil => exact ⟨_, _, _, rfl, fun _ => rfl⟩
  | cons item items ih =>
    have hitem : ∃ writeBuf writeOff closing, drainItem conn item =
          { conn with writeBuf := writeBuf, writeOff := writeOff, closing := closing } ∧
        (item.closeAfter = false → closing = conn.closing) := by
      rw [drainItem]
      split
      · exact ⟨_, _, _, rfl, fun _ => rfl⟩
      · split
        · exact ⟨_, _, _, rfl, fun hkeep => by rw [hkeep, Bool.or_false]⟩
        · exact ⟨_, _, _, rfl, fun hkeep => by rw [hkeep, Bool.or_false]⟩
    obtain ⟨w, o, c, heq, hclosing⟩ := hitem
    obtain ⟨w', o', c', heq', hclosing'⟩ := ih (drainItem conn item)
    refine ⟨w', o', c', ?_, ?_⟩
    · rw [foldl_cons, heq', heq]
    · intro hkeep
      rw [hclosing' fun item' hmem => hkeep item' (mem_cons_of_mem item hmem), heq]
      exact hclosing (hkeep item mem_cons_self)

section

variable {st : State}

theorem processAndSlide_of_wait (hscan : scanRequest st.conn.readBuf = .wait)
    (hflight : st.conn.httpInFlight = false) : st.processAndSlide = st := by
  simp only [processAndSlide, processHttpRequest, hscan]
  exact if_neg (by rw [hflight]; exact false_ne_true)

variable {headerLen totalNeeded : Nat} {req : HttpRequest}
  (hscan : scanRequest st.conn.readBuf = .request headerLen totalNeeded req)

include hscan

theorem processAndSlide_of_error {code : Nat} {msg : String}
    (hbranch : requestBranch st.cfg st.shared req (st.conn.readBuf.drop headerLen) =
      .error code msg)
    (hflight : st.conn.httpInFlight = false) : st.processAndSlide = st.sendHttpError code msg := by
  simp only [processAndSlide, processHttpRequest, hscan, hbranch, takeBranch]
  exact if_neg (by change ¬st.conn.httpInFlight = true; rw [hflight]; exact false_ne_true)

theorem processAndSlide_of_upgrade {acceptKey : Bytes}
    (hbranch : requestBranch st.cfg st.shared req (st.conn.readBuf.drop headerLen) =
      .upgrade acceptKey) (hflight : st.conn.httpInFlight = false) :
    st.processAndSlide = (st.takeBranch totalNeeded req (.upgrade acceptKey)).1 := by
  simp only [processAndSlide, processHttpRequest, hscan, hbranch]
  exact if_neg (by change ¬st.conn.httpInFlight = true; rw [hflight]; exact false_ne_true)

theorem processAndSlide_of_dispatch {shared : Shared} {entry : SessionEntry}
    (hbranch : requestBranch st.cfg st.shared req (st.conn.readBuf.drop headerLen) =
      .dispatch shared entry) :
    st.processAndSlide = (st.takeBranch totalNeeded req (.dispatch shared entry)).1.dropRead
      totalNeeded := by
  simp only [processAndSlide, processHttpRequest, hscan, hbranch]
  rfl

end

def received (st : State) (cap : Nat) (chunk : Bytes) : State :=
  { st with conn := { st.conn with readCap := cap, readBuf := st.conn.readBuf ++ chunk } }

section

variable {st : State}

theorem onRead_of_httpInit (htype : st.conn.type = .httpInit) (hroom : growRead st.conn ≠ none)
    (chunk : Bytes) :
    ∃ cap, st.onRead chunk = if st.conn.httpInFlight then st.received cap chunk
      else (st.received cap chunk).processAndSlide := by
  obtain ⟨cap, hgrow⟩ := exists_growRead hroom
  refine ⟨cap, ?_⟩
  rw [onRead, hgrow]
  dsimp only
  split
  next => rfl
  next hws => exact absurd (htype.symm.trans hws) nofun
  next hsse => exact absurd (htype.symm.trans hsse) nofun

theorem onWrite_of_none (h : st.conn.writeBuf = none) (n : Nat) : st.onWrite n = st := by
  rw [onWrite, h]

theorem drainResponses_of_nil (h : st.resp = []) : st.drainResponses = st := by
  obtain ⟨cfg, shared, conn, resp, tasks, submitted, written⟩ := st
  change resp = [] at h
  subst h
  rfl

theorem onComplete_of_none [Libc] {i : Nat} (h : st.tasks[i]? = none) (srv : Server W)
    (s : Session) : st.onComplete i srv s = st := by
  rw [onComplete, h]

theorem handlePipelinedHttp_of_httpInit (htype : st.conn.type = .httpInit)
    (hflight : st.conn.httpInFlight = false) : st.handlePipelinedHttp = st.processAndSlide := by
  rw [handlePipelinedHttp]
  split
  next h =>
    rcases h with hne | hnil | htrue
    · exact absurd htype hne
    · refine (processAndSlide_of_wait ?_ hflight).symm
      rw [hnil]
      rfl
    · rw [hflight] at htrue
      cases htrue
  next => rfl

theorem handlePipelinedHttp_of_ne (h : st.conn.type ≠ .httpInit) :
    st.handlePipelinedHttp = st :=
  if_pos (.inl h)

end

theorem step_of_detached [Libc] {st : State} (h : st.conn.detached = true) (ev : Event W) :
    (st.step ev).conn.detached = true ∧ (st.step ev).submitted = st.submitted ∧
      (st.step ev).written = st.written := by
  cases ev with
  | read chunk | write n | fail => rw [step, if_pos h]; exact ⟨h, rfl, rfl⟩
  | others shared => exact ⟨h, rfl, rfl⟩
  | drain =>
    obtain ⟨w, o, c, heq, -⟩ := foldl_drainItem st.resp st.conn
    rw [step, drainResponses, heq]
    exact ⟨h, rfl, rfl⟩
  | complete i srv s =>
    rw [step, onComplete]
    split
    · exact ⟨h, rfl, rfl⟩
    · dsimp only
      split <;> exact ⟨h, rfl, rfl⟩

end State

end Mcpkit.Transport.Async
