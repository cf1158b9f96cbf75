import Mcpkit.Protocol.Message

/-!
# Validation of messages and the set of request ids

A message passes three layers: the envelope, the method and the shape of the
parameters.  The first layer that fails decides the status and the code of the
error.

The ids a session has seen are kept in a growing array.  The search returns the
index it found as an `int`, so an index beyond the range of `int` comes back
negative and reads as a failed search.
-/

namespace Mcpkit.Protocol

open Json List JsonValue

def kMcpServerMethods : List String :=
  ["initialize", "ping", "tools/list", "tools/call", "resources/list", "resources/read",
    "prompts/list", "prompts/get", "completion/list", "completion/complete",
    "notifications/initialized", "logging/setLevel", "resources/subscribe",
    "resources/unsubscribe", "resources/templates/list", "server/discover",
    "subscriptions/listen", "tasks/get", "tasks/update", "tasks/cancel", "skills/list",
    "skills/get"]

def kL2OnlyMethods : List String := ["roots/list", "sampling/createMessage", "elicitation/create"]

def kMcpServerNotifications : List String :=
  ["notifications/initialized", "notifications/cancelled", "notifications/progress",
    "notifications/tools/list_changed", "notifications/resources/list_changed",
    "notifications/resources/updated", "notifications/prompts/list_changed",
    "notifications/message", "notifications/roots/list_changed",
    "notifications/subscriptions/acknowledged", "notifications/tasks"]

def mcpMethodKnown (method : JString) : Bool :=
  kMcpServerMethods.any (method = .lit ·) || kL2OnlyMethods.any (method = .lit ·) ||
    kMcpServerNotifications.any (method = .lit ·)

/-- A failed validation: the status, and the code stored through `rpc_code_out`. -/
structure Rejection where
  status : Status
  code : Int32
  deriving DecidableEq

def mcpValidateEnvelope (m : Message) : Except Rejection Unit :=
  let invalid : Except Rejection Unit := .error ⟨.protocol, rpcInvalidRequest⟩
  if mcpMessageJsonrpc m ≠ some (.lit "2.0") then invalid
  else
    match mcpMessageKind m with
    | .request => if mcpMessageIdType m = .none ∨ mcpMessageMethod m = none then invalid else .ok ()
    | .notification => if mcpMessageMethod m = none then invalid else .ok ()
    | .response =>
      let hasResult := (mcpMessageResult m).isSome
      let hasError := (mcpMessageErrorCode m).isSome
      let errorOk := !hasError || (mcpMessageErrorText m).isSome
      if hasResult = hasError ∨ !errorOk then invalid else .ok ()
    | .invalid => invalid

def mcpValidateMethod (m : Message) : Except Rejection Unit :=
  if mcpMessageKind m = .response then .ok ()
  else
    match mcpMessageMethod m with
    | none => .error ⟨.notFound, rpcMethodNotFound⟩
    | some method => if mcpMethodKnown method then .ok () else .error ⟨.notFound, rpcMethodNotFound⟩

def requireStringParam (params : JsonValue) (key : String) : Bool :=
  ((params.objectGet key).bind (·.stringValue)).isSome

def mcpInitializeParamsValidate (params : JsonValue) : Bool :=
  decide (params.typeOf = .object) && requireStringParam params "protocolVersion" &&
    (params.objectGet "capabilities").any (·.typeOf = .object) &&
    (params.objectGet "clientInfo").any fun ci =>
      decide (ci.typeOf = .object) && requireStringParam ci "name" &&
        requireStringParam ci "version"

def mcpProtocolVersionLatest : String := "2025-06-18"

def kSupported : List String := [mcpProtocolVersionLatest, "2024-11-05"]

def mcpProtocolNegotiate (clientVersion : JString) : Option String :=
  kSupported.find? (clientVersion = .lit ·)

/-- The requests that `mcp_validate_params` refuses without parameters. -/
def paramsRequired : List String :=
  ["initialize", "tools/call", "resources/read", "prompts/get", "completion/complete",
    "subscriptions/listen", "tasks/get", "tasks/update", "tasks/cancel", "skills/get"]

def hasNonEmptyString (params : JsonValue) (key : String) : Bool :=
  ((params.objectGet key).bind (·.stringValue)).any (·.bytes ≠ [])

def paramsShape (method : JString) (params : JsonValue) : Bool :=
  if method = "initialize" then mcpInitializeParamsValidate params
  else if method = "tools/call" then requireStringParam params "name"
  else if method = "resources/read" then requireStringParam params "uri"
  else if method = "prompts/get" then requireStringParam params "name"
  else if method = "completion/complete" then
    (params.objectGet "ref").any (·.typeOf = .object) &&
      (params.objectGet "argument").any (·.typeOf = .object)
  else if method = "logging/setLevel" then requireStringParam params "level"
  else if method = "resources/subscribe" ∨ method = "resources/unsubscribe" then
    requireStringParam params "uri"
  else if method = "subscriptions/listen" then
    (params.objectGet "notifications").all (·.typeOf = .object)
  else if method = "tasks/get" ∨ method = "tasks/update" ∨
      method = "tasks/cancel" then
    requireStringParam params "taskId"
  else if method = "skills/get" then
    hasNonEmptyString params "name" || hasNonEmptyString params "uri"
  else true

def mcpValidateParams (m : Message) : Except Rejection Unit :=
  let invalid : Except Rejection Unit := .error ⟨.invalidArgument, rpcInvalidParams⟩
  if mcpMessageKind m = .response then .ok ()
  else
    match mcpMessageMethod m with
    | none => invalid
    | some method =>
      match mcpMessageParams m with
      | none =>
        if mcpMessageKind m = .notification then .ok ()
        else if paramsRequired.any (method = .lit ·) then invalid
        else .ok ()
      | some params =>
        if params.typeOf ≠ .object then invalid
        else if paramsShape method params then .ok () else invalid

def mcpMessageValidate (m : Message) : Except Rejection Unit := do
  mcpValidateEnvelope m
  mcpValidateMethod m
  mcpValidateParams m

inductive IdEntry where
  | string (s : Bytes)
  | number (n : Binary64)
  deriving DecidableEq

def idEqual : IdEntry → IdEntry → Bool
  | .string s, .string t => s = t
  | .number m, .number n => m.eq n
  | _, _ => false

def idFind (set : List IdEntry) (id : IdEntry) : Int :=
  match set.findIdx? (idEqual · id) with
  | some i => Int.bmod i 4294967296
  | none => -1

def mcpIdsetAdd (set : List IdEntry) (id : Option IdEntry) : Except Status (List IdEntry) :=
  match id with
  | none => .error .invalidArgument
  | some id => if 0 ≤ idFind set id then .error .alreadyExists else .ok (set ++ [id])

def mcpIdsetContains (set : List IdEntry) (id : IdEntry) : Bool := 0 ≤ idFind set id

variable {m : Message} {set : List IdEntry} {id : IdEntry}

theorem mcpMessageValidate_eq_ok (h : mcpMessageValidate m = .ok ()) :
    mcpValidateEnvelope m = .ok () ∧ mcpValidateMethod m = .ok () ∧
      mcpValidateParams m = .ok () := by
  unfold mcpMessageValidate at h
  cases henv : mcpValidateEnvelope m with
  | error e => simp [henv, bind, Except.bind] at h
  | ok =>
    cases hmethod : mcpValidateMethod m with
    | error e => simp [henv, hmethod, bind, Except.bind] at h
    | ok =>
      simp only [henv, hmethod, bind, Except.bind] at h
      exact ⟨rfl, rfl, h⟩

theorem mcpMessageKind_of_method {method : JString}
    (h : m.getKey "method" = some (.string method)) :
    mcpMessageKind m = if (m.getKey "id").isSome then .request else .notification := by
  unfold Message.getKey at h
  simp [mcpMessageKind, classify, h, stringValue, objectHas, Message.getKey]
  rfl

theorem mcpMessageKind_of_no_method (h : m.getKey "method" = none) :
    mcpMessageKind m =
      if (m.getKey "result").isSome || (m.getKey "error").isSome then .response else .invalid := by
  unfold Message.getKey at h
  simp [mcpMessageKind, classify, h, objectHas, Message.getKey]

theorem envelope_result (id result : JsonValue) :
    mcpMessageKind ((newEnvelope.set "id" id).set "result" result) = .response ∧
      mcpValidateEnvelope ((newEnvelope.set "id" id).set "result" result) = .ok () := by
  set m := (newEnvelope.set "id" id).set "result" result with hm
  have hjsonrpc : m.getKey "jsonrpc" = some (.string "2.0") := rfl
  have hmethod : m.getKey "method" = none := rfl
  have herror : m.getKey "error" = none := rfl
  have hresult : m.getKey "result" = some result := Message.getKey_set_self _ _ _
  have hkind : mcpMessageKind m = .response := by
    simp [mcpMessageKind_of_no_method hmethod, hresult]
  refine ⟨hkind, ?_⟩
  simp [mcpValidateEnvelope, hkind, mcpMessageJsonrpc, hjsonrpc, mcpMessageResult, hresult,
    mcpMessageErrorCode, errorObj, herror, stringValue]

theorem envelope_error (id : JsonValue) (code : FiniteDouble) (text : JString) :
    let err := ((Message.mk []).set "code" (.number code)).set "message" (.string text)
    let m := (newEnvelope.set "id" id).set "error" err.dom
    mcpMessageKind m = .response ∧ mcpValidateEnvelope m = .ok () := by
  intro err m
  have hjsonrpc : m.getKey "jsonrpc" = some (.string "2.0") := rfl
  have hmethod : m.getKey "method" = none := rfl
  have hresult : m.getKey "result" = none := rfl
  have herror : m.getKey "error" = some err.dom := Message.getKey_set_self _ _ _
  have hkind : mcpMessageKind m = .response := by simp [mcpMessageKind_of_no_method hmethod, herror]
  have hobj : errorObj m = some err.dom := by simp [errorObj, herror, Message.dom, typeOf]
  have hcode : err.dom.objectGet "code" = some (.number code) := by rfl
  have htext : err.dom.objectGet "message" = some (.string text) :=
    Message.getKey_set_self _ _ _
  refine ⟨hkind, ?_⟩
  simp [mcpValidateEnvelope, hkind, mcpMessageJsonrpc, hjsonrpc, mcpMessageResult, hresult,
    mcpMessageErrorCode, mcpMessageErrorText, hobj, hcode, htext, stringValue,
    numberValue]

theorem exists_idEqual_of_contains (h : mcpIdsetContains set id = true) :
    ∃ e ∈ set, idEqual e id = true := by
  unfold mcpIdsetContains idFind at h
  split at h
  · rename_i i hi
    obtain ⟨hlt, he, -⟩ := findIdx?_eq_some_iff_getElem.mp hi
    exact ⟨set[i], getElem_mem hlt, he⟩
  · simp at h

theorem mcpIdsetAdd_of_not_contains (h : mcpIdsetContains set id = false) :
    mcpIdsetAdd set (some id) = .ok (set ++ [id]) := by
  simp only [mcpIdsetContains, decide_eq_false_iff_not] at h
  simp [mcpIdsetAdd, h]

/-- Up to `2 ^ 31` entries every index fits an `int` and the search finds what is there. -/
theorem contains_of_exists_idEqual (hlen : set.length ≤ 2147483648)
    (h : ∃ e ∈ set, idEqual e id = true) : mcpIdsetContains set id = true := by
  unfold mcpIdsetContains idFind
  split
  · rename_i i hi
    obtain ⟨hlt, -, -⟩ := findIdx?_eq_some_iff_getElem.mp hi
    have hi : Int.bmod i 4294967296 = i := Int.bmod_eq_of_le (by omega) (by omega)
    simp [hi]
  rename_i hnone
  obtain ⟨e, he, heq⟩ := h
  have := findIdx?_eq_none_iff.mp hnone e he
  simp [heq] at this

end Mcpkit.Protocol
