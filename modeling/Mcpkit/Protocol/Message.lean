import Mcpkit.Json.Serializer

/-!
# JSON-RPC messages

A message owns one JSON object; everything else about it, its kind included, is
read from the members of that object when it is asked for.  The builders attach
members to a fresh envelope and hand back nothing when a text they are given is
not valid UTF-8.

A C string argument is a buffer, read up to its terminator.
-/

namespace Mcpkit.Protocol

open Json JsonValue Binary64

inductive MsgKind where
  | invalid | request | notification | response
  deriving DecidableEq

inductive IdType where
  | none | string | number
  deriving DecidableEq

/-- `mcp_message_t`, by the members of the object it owns. -/
structure Message where
  members : MemberList
  deriving DecidableEq

variable (m : Message)

namespace Message

def dom : JsonValue := .object m.members

def getKey (key : String) : Option JsonValue := m.dom.objectGet key

/-- `mcp_json_object_set` on the owned object, which accepts every key of the program's own. -/
def set (key : String) (val : JsonValue) : Message :=
  ⟨Assoc.set m.members key val⟩

/-- `set_owned`: an absent value is not attached. -/
def setOwned (key : String) (val : Option JsonValue) : Message :=
  match val with
  | none => m
  | some v => m.set key v

@[simp] theorem getKey_set_self (key : String) (val : JsonValue) :
    (m.set key val).getKey key = some val :=
  Assoc.lookup_set_self m.members key val

end Message

def mcpProtocolMaxMessageBytes : Nat := 4194304

def rpcParseError : Int32 := -32700
def rpcInvalidRequest : Int32 := -32600
def rpcMethodNotFound : Int32 := -32601
def rpcInvalidParams : Int32 := -32602
def rpcInternalError : Int32 := -32603
def rpcHeaderMismatch : Int32 := -32020
def rpcMissingRequiredClientCapability : Int32 := -32021
def rpcUnsupportedProtocolVersion : Int32 := -32022

def classify (dom : JsonValue) : MsgKind :=
  match dom.objectGet "method" with
  | some method =>
    match method.stringValue with
    | none => .invalid
    | some _ => if dom.objectHas "id" then .request else .notification
  | none =>
    if dom.objectHas "result" || dom.objectHas "error" then .response else .invalid

def mcpMessageParse [Libc] (text : Bytes) : Option Message :=
  if mcpProtocolMaxMessageBytes < text.length then none
  else
    match builtinParse text with
    | some (.object members) => some ⟨members⟩
    | _ => none

def mcpMessageSerialize [Libc] (m : Message) : Bytes := builtinSerialize m.dom

def mcpMessageKind : MsgKind := classify m.dom

def mcpMessageJsonrpc : Option JString := (m.getKey "jsonrpc").bind (·.stringValue)

def mcpMessageMethod : Option JString := (m.getKey "method").bind (·.stringValue)

def mcpMessageParams : Option JsonValue := m.getKey "params"

def mcpMessageIdType : IdType :=
  match m.getKey "id" with
  | some (.string _) => .string
  | some (.number _) => .number
  | _ => .none

def mcpMessageIdString : Option JString := (m.getKey "id").bind (·.stringValue)

def mcpMessageIdNumber : Option FiniteDouble := (m.getKey "id").bind (·.numberValue)

def mcpMessageResult : Option JsonValue := m.getKey "result"

def errorObj : Option JsonValue := (m.getKey "error").filter (·.typeOf = .object)

/-- `mcp_message_error_code`.  The conversion to `int` is undefined outside the range of `int`;
here it keeps the integer. -/
def mcpMessageErrorCode : Option Int := do
  let err ← errorObj m
  let code ← err.objectGet "code"
  let d ← code.numberValue
  pure d.val.trunc

def mcpMessageErrorText : Option JString := do
  let err ← errorObj m
  let text ← err.objectGet "message"
  text.stringValue

def mcpMessageMeta : Option JsonValue :=
  (m.getKey "_meta").filter (·.typeOf = .object)

def newEnvelope : Message := Message.set ⟨[]⟩ "jsonrpc" (.string "2.0")

def mcpRequestNewNumberId (id : Binary64) (method : Bytes) (params : Option JsonValue) :
    Option Message := do
  let idv ← newNumber id
  let mv ← newString method
  pure (((newEnvelope.set "id" idv).set "method" mv).setOwned "params" params)

def mcpNotificationNew (method : Bytes) (params : Option JsonValue) : Option Message := do
  let mv ← newString method
  pure ((newEnvelope.set "method" mv).setOwned "params" params)

def copyId : Option Message → Option JsonValue
  | none => some .null
  | some req =>
    match mcpMessageIdType req with
    | .string => (mcpMessageIdString req).bind fun s => newString s.bytes
    | .number => (mcpMessageIdNumber req).bind fun d => newNumber d.val
    | .none => some .null

def mcpResponseOkNew (req : Message) (result : Option JsonValue) : Option Message := do
  let idv ← copyId (some req)
  pure ((newEnvelope.set "id" idv).setOwned "result" result)

def mcpResponseOkStringIdNew (id : Bytes) (result : Option JsonValue) : Option Message := do
  let idv ← newString id
  pure ((newEnvelope.set "id" idv).setOwned "result" result)

def mcpResponseOkNumberIdNew (id : Binary64) (result : Option JsonValue) : Option Message := do
  let idv ← newNumber id
  pure ((newEnvelope.set "id" idv).setOwned "result" result)

def mcpResponseErrNew (req : Option Message) (code : Int32) (message : Bytes)
    (data : Option JsonValue) : Option Message := do
  let idv ← copyId req
  let codev ← newNumber (ofInt code.toInt)
  let msgv ← newString message
  let err := ((Message.mk []).set "code" codev).set "message" msgv
  pure ((newEnvelope.set "id" idv).set "error" (err.setOwned "data" data).dom)

def mcpResultInjectResultType (result : JsonValue) : Option JsonValue :=
  result.setTake "resultType" (.string "complete")

/-- `mcp_result_inject_meta`, absent on failure. -/
def mcpResultInjectMeta (result metaObj : JsonValue) : Option JsonValue :=
  result.setTake "_meta" metaObj

def mcpStatusToRpcCode : Status → Int32
  | .ok => 0
  | .invalidArgument => rpcInvalidParams
  | .notFound => rpcMethodNotFound
  | .protocol => rpcInvalidRequest
  | _ => rpcInternalError

def mcpRpcCodeToStatus (code : Int) : Status :=
  if code = 0 then .ok
  else if code = rpcInvalidParams.toInt then .invalidArgument
  else if code = rpcMethodNotFound.toInt then .notFound
  else if code = rpcMissingRequiredClientCapability.toInt ∨
      code = rpcUnsupportedProtocolVersion.toInt then .unsupported
  else .protocol

def replyId (req : Message) : JsonValue :=
  match req.getKey "id" with
  | some (.string s) => .string s
  | some (.number d) => .number d
  | _ => .null

@[simp] theorem newNumber_val (d : FiniteDouble) :
    newNumber d.val = some (.number d) := by
  rw [newNumber, dif_pos d.finite]

theorem copyId_some (req : Message) : copyId (some req) = some (replyId req) := by
  simp only [copyId, replyId, mcpMessageIdType, mcpMessageIdString, mcpMessageIdNumber]
  cases req.getKey "id" with
  | none => rfl
  | some id => cases id <;> simp [stringValue, numberValue]

theorem mcpResponseOkNew_some (req : Message) (result : JsonValue) :
    mcpResponseOkNew req (some result) =
      some ((newEnvelope.set "id" (replyId req)).set "result" result) := by
  rw [mcpResponseOkNew, copyId_some]
  rfl

theorem isSome_newNumber_int32 (code : Int32) :
    ∃ d, newNumber (ofInt code.toInt) = some (.number d) := by
  have hbound : code.toInt.natAbs < 2 ^ 64 := by
    have hlt := Int32.toInt_lt code
    have hle := Int32.le_toInt code
    omega
  exact ⟨⟨_, isFinite_ofInt hbound⟩, dif_pos (isFinite_ofInt hbound)⟩

theorem exists_mcpResponseErrNew (req : Message) (code : Int32) (text : JString) :
    ∃ d : FiniteDouble, mcpResponseErrNew (some req) code text.bytes none =
      some ((newEnvelope.set "id" (replyId req)).set "error"
        (((Message.mk []).set "code" (.number d)).set "message" (.string text)).dom) := by
  obtain ⟨d, hd⟩ := isSome_newNumber_int32 code
  refine ⟨d, ?_⟩
  rw [mcpResponseErrNew, copyId_some, hd, newString_bytes]
  rfl

end Mcpkit.Protocol
