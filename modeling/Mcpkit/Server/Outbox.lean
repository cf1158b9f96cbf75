import Mcpkit.Server.Frame

/-!
# Messages from the server to its clients

The host sends a notification to the client of a session, or closes its
subscription, by putting a message into the outbox of the server.  There is one
outbox for all sessions; an entry is a message and says nothing about the
session it was made for.  Entries are taken out at the end where they are put in.
-/

namespace Mcpkit

open Json JsonValue Protocol List JString

variable {W : Type}

variable (srv : Server W) (s : Session)

def outboxPush (msg : Message) : Server W :=
  { srv with outbox := srv.outbox ++ [msg] }

def mcpServerOutboxPop : Option (Message × Server W) :=
  match srv.outbox.getLast? with
  | none => none
  | some msg => some (msg, { srv with outbox := srv.outbox.dropLast })

def mcpSessionIsSubscribedToNotification (method : Bytes) (params : Option JsonValue) : Bool :=
  if method = (lit "notifications/tools/list_changed").bytes then s.subToolsListChanged
  else if method = (lit "notifications/prompts/list_changed").bytes then
    s.subPromptsListChanged
  else if method = (lit "notifications/resources/list_changed").bytes then
    s.subResourcesListChanged
  else if method = (lit "notifications/resources/updated").bytes then
    match (params.bind (·.objectGet "uri")).bind (·.stringValue) with
    | none => false
    | some uri => s.subResourceUris.any (·.bytes = uri.bytes)
  else true

def subscriptionId : Option JsonValue :=
  match s.subIdType with
  | .string => newString ((s.subIdStr.map (·.bytes)).getD [])
  | .number => newNumber s.subIdNum
  | .none => some .null

def tagParams (params : Option JsonValue) : Option JsonValue := do
  let params := params.getD (.object [])
  let metaObj := (params.objectGet "_meta").getD (.object [])
  let metaObj ← metaObj.setTake "io.modelcontextprotocol/subscriptionId" (← subscriptionId s)
  params.setTake "_meta" metaObj

def newNotification (method : Bytes) (params : Option JsonValue) :
    Except Status (Option Message) :=
  match mcpNotificationNew method params with
  | none => .error .noMem
  | some msg => .ok (some msg)

def mcpSessionBuildNotification (session : Option Session) (method : Bytes)
    (params : Option JsonValue) : Except Status (Option Message) :=
  match session.filter (·.subscriptionActive) with
  | none => newNotification method params
  | some s =>
    if !mcpSessionIsSubscribedToNotification s method params then .ok none
    else
      match tagParams s params with
      | none => .error .noMem
      | some params => newNotification method (some params)

def mcpServerSessionNotify (session : Option Session) (method : Bytes) (params : Option JsonValue) :
    Server W × Status :=
  match mcpSessionBuildNotification session method params with
  | .error st => (srv, st)
  | .ok none => (srv, .ok)
  | .ok (some msg) => (outboxPush srv msg, .ok)

def closureResult : Option JsonValue := do
  let result ← (JsonValue.object []).setTake "resultType" (.string "complete")
  let metaObj ← (JsonValue.object []).setTake "io.modelcontextprotocol/subscriptionId"
    (← subscriptionId s)
  result.setTake "_meta" metaObj

/-- The closing response, under the id of the request that opened the subscription. -/
def closureResponse (result : JsonValue) : Option Message :=
  match s.subIdType with
  | .string => mcpResponseOkStringIdNew ((s.subIdStr.map (·.bytes)).getD []) (some result)
  | .number => mcpResponseOkNumberIdNew s.subIdNum (some result)
  | .none => mcpResponseOkStringIdNew [] (some result)

def mcpSessionBuildSubscriptionClosure : Except Status (Session × Message) :=
  if !s.subscriptionActive then .error .notFound
  else
    match (closureResult s).bind (closureResponse s) with
    | none => .error .noMem
    | some resp =>
      .ok ({ s with
        subscriptionActive := false
        subIdStr := none
        subToolsListChanged := false
        subPromptsListChanged := false
        subResourcesListChanged := false
        subResourceUris := [] }, resp)

/-- `mcp_server_session_close_subscription`: the response is returned if the caller asks for it,
and put into the outbox otherwise. -/
def mcpServerSessionCloseSubscription (respOut : Bool) :
    Server W × Session × Except Status (Option Message) :=
  match mcpSessionBuildSubscriptionClosure s with
  | .error st => (srv, s, .error st)
  | .ok (s, resp) =>
    if respOut then (srv, s, .ok (some resp)) else (outboxPush srv resp, s, .ok none)

theorem outbox_mcpServerSessionNotify (session : Option Session) (method : Bytes)
    (params : Option JsonValue) :
    srv.outbox <+: (mcpServerSessionNotify srv session method params).1.outbox := by
  unfold mcpServerSessionNotify
  split
  · exact prefix_rfl
  · exact prefix_rfl
  · exact prefix_append srv.outbox _

theorem outbox_mcpServerSessionCloseSubscription (respOut : Bool) :
    srv.outbox <+: (mcpServerSessionCloseSubscription srv s respOut).1.outbox := by
  unfold mcpServerSessionCloseSubscription
  split
  · exact prefix_rfl
  · split
    · exact prefix_rfl
    · exact prefix_append srv.outbox _

end Mcpkit
