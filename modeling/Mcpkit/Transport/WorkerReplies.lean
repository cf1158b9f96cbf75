import Mcpkit.Transport.AsyncServer

/-!
# What a worker sends back

A worker of the asynchronous server sends a message back for every text that is
not a notification.  For a request it is the reply of the dispatcher, with the
id of the request; only an accepted `subscriptions/listen` is acknowledged by a
notification.
-/

namespace Mcpkit.Transport.Async

open Json JsonValue Protocol

variable {W : Type}

section

variable [Libc]

def SendsBack (srv : Server W) (s : Session) (task : Task) (message : Bytes) : Prop :=
  (workerDispatchFn srv s task).2.2 = some (if task.isWs
    then mcpWsEncodeFrame ⟨true, .text, false, [0, 0, 0, 0], message⟩
    else httpOk task.sessionId message)

/-- The worker sends no message back: nothing at all, or a response without a body. -/
def SendsNoMessage (srv : Server W) (s : Session) (task : Task) : Prop :=
  (workerDispatchFn srv s task).2.2 = if task.isWs then none else some kAccepted

variable {srv : Server W} {s : Session} {task : Task} {jsonBody : Bytes} {msg : Message}

theorem sendsBack_of_some {message : Bytes}
    (h : (workerMessage srv s task.jsonBody).2.2 = some message) :
    SendsBack srv s task message := by
  rw [SendsBack, workerDispatchFn, workerAnswer, h]
  split <;> rfl

theorem sendsNoMessage_of_none (h : (workerMessage srv s task.jsonBody).2.2 = none) :
    SendsNoMessage srv s task := by
  rw [SendsNoMessage, workerDispatchFn, workerAnswer, h]
  split <;> rfl

/-- The text is a JSON-RPC message that reports an internal error and has no id. -/
def ReportsInternalError (message : Bytes) : Prop :=
  message = text ("\x7b\"jsonrpc\":\"2.0\",\"error\":" ++
      "\x7b\"code\":-32603,\"message\":\"Internal error\"\x7d\x7d") ∧
    (@mcpMessageParse unitLibc message).map (fun m =>
      (mcpMessageJsonrpc m, mcpMessageErrorText m, m.getKey "id")) =
        some (some (.lit "2.0"), some (.lit "Internal error"), none)

omit [Libc] in
theorem reportsInternalError_internalErrorText : ReportsInternalError internalErrorText :=
  ⟨by decide +kernel, by decide +kernel⟩

theorem workerMessage_of_unparsable (srv : Server W) (s : Session)
    (h : mcpMessageParse (cString jsonBody) = none) :
    (workerMessage srv s jsonBody).2.2 = some internalErrorText := by
  rw [workerMessage, h]

theorem workerMessage_of_notification (srv : Server W) (s : Session)
    (h : mcpMessageParse (cString jsonBody) = some msg)
    (hkind : mcpMessageKind msg = .notification) : (workerMessage srv s jsonBody).2.2 = none := by
  rw [workerMessage, h]
  dsimp only
  rw [if_pos hkind]

theorem workerMessage_of_request (srv : Server W) (s : Session)
    (h : mcpMessageParse (cString jsonBody) = some msg) (hkind : mcpMessageKind msg = .request) :
    ∃ m, (workerMessage srv s jsonBody).2.2 = some (cString (mcpMessageSerialize m)) ∧
      (¬ListenAccepted s msg → IsReply msg m) ∧ (ListenAccepted s msg → IsAck msg m) := by
  obtain ⟨m, hm, hreply, hack⟩ := mcpServerDispatch_replies srv s hkind
  refine ⟨m, ?_, hreply, fun hlisten => (hack hlisten).1⟩
  rw [workerMessage, h]
  dsimp only
  rw [if_neg (by rw [hkind]; decide)]
  split
  next heq =>
    rw [heq] at hm
    cases hm
    rfl
  next heq =>
    rw [heq] at hm
    cases hm

/-- A message goes back for an unreadable text and for a request, and none for a notification.  For
an unreadable text it reports an internal error.  The answer to a request is a well-formed response
with its id, or for an accepted `subscriptions/listen` a notification tagged with the id. -/
theorem workerDispatchFn_sends (srv : Server W) (s : Session) (task : Task) :
    (mcpMessageParse (cString task.jsonBody) = none →
      ∃ message, SendsBack srv s task message ∧ ReportsInternalError message) ∧
    ∀ msg, mcpMessageParse (cString task.jsonBody) = some msg →
      (mcpMessageKind msg = .notification → SendsNoMessage srv s task) ∧
      (mcpMessageKind msg = .request →
        ∃ m, SendsBack srv s task (cString (mcpMessageSerialize m)) ∧
          (¬ListenAccepted s msg → IsReply msg m) ∧ (ListenAccepted s msg → IsAck msg m)) := by
  refine ⟨?_, ?_⟩
  · intro hparse
    exact ⟨_, sendsBack_of_some (workerMessage_of_unparsable srv s hparse),
      reportsInternalError_internalErrorText⟩
  intro msg hparse
  refine ⟨?_, ?_⟩
  · intro hkind
    exact sendsNoMessage_of_none (workerMessage_of_notification srv s hparse hkind)
  · intro hkind
    obtain ⟨m, hm, hreplies⟩ := workerMessage_of_request srv s hparse hkind
    exact ⟨m, sendsBack_of_some hm, hreplies⟩

end

def emptyServer : Server Unit :=
  mcpServerCreate () "s" "1"

def readySession : Session := { sessionNew with initialized := true }

def textTask (s : String) : Task := ⟨some 0, text s, true, []⟩

def listenTask : Task :=
  textTask
    "\x7b\"jsonrpc\":\"2.0\",\"id\":1,\"method\":\"subscriptions/listen\",\"params\":\x7b\x7d\x7d"

def pingTask : Task := textTask "\x7b\"jsonrpc\":\"2.0\",\"id\":1,\"method\":\"ping\"\x7d"

/-- The acknowledgement of a subscription has no id. -/
theorem listenTask_answer :
    ((@mcpMessageParse unitLibc (cString listenTask.jsonBody)).map mcpMessageKind =
        some .request) ∧
      ((@workerMessage Unit unitLibc emptyServer readySession listenTask.jsonBody).2.2.bind
        (@mcpMessageParse unitLibc)).map (·.getKey "id") = some none := by
  decide +kernel

theorem pingTask_answer :
    ∃ msg, @mcpMessageParse unitLibc (cString pingTask.jsonBody) = some msg ∧
      ∃ m, @SendsBack Unit unitLibc emptyServer readySession pingTask
          (cString (@mcpMessageSerialize unitLibc m)) ∧
        (¬ListenAccepted readySession msg → IsReply msg m) ∧
        (ListenAccepted readySession msg → IsAck msg m) := by
  have hparse : (@mcpMessageParse unitLibc (cString pingTask.jsonBody)).map mcpMessageKind =
      some .request := by
    decide +kernel
  obtain ⟨msg, hmsg, hkind⟩ := Option.map_eq_some_iff.mp hparse
  exact ⟨msg, hmsg, ((@workerDispatchFn_sends Unit unitLibc emptyServer readySession pingTask).2 msg
    hmsg).2 hkind⟩

end Mcpkit.Transport.Async
