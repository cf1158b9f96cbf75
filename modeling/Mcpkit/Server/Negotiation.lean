import Mcpkit.Server.Answers

/-!
# The negotiated version

`route_initialize` asks `mcp_protocol_negotiate` whether it knows the version that
the client requests, and drops what that returns.  The result is built without it
and always names the latest version.
-/

namespace Mcpkit

open Json JsonValue Protocol Option

variable {W : Type}

def requestedVersion (req : Message) : Option JString :=
  getString (mcpMessageParams req) "protocolVersion"

def Negotiated (req : Message) (result : JsonValue) : Prop :=
  ∃ ver version, requestedVersion req = some ver ∧ mcpProtocolNegotiate ver = some version ∧
    result.objectGet "protocolVersion" = some (.string version)

theorem mcpProtocolNegotiate_eq_some {ver : JString} {version : String}
    (h : mcpProtocolNegotiate ver = some version) : ver = .lit version := by
  simpa using List.find?_some h

theorem mcpInitializeResultNew_eq_some {serverName serverVersion : CString} {res : JsonValue}
    (h : mcpInitializeResultNew serverName serverVersion = some res) :
    ∃ info, res = .object
      [("protocolVersion", .string mcpProtocolVersionLatest),
        ("capabilities", .object []), ("serverInfo", info)] := by
  rw [mcpInitializeResultNew] at h
  cases hinfo : infoBlock serverName serverVersion with
  | none => simp [hinfo] at h
  | some info =>
    simp only [hinfo, setTake_object, bind, bind] at h
    exact ⟨info, (some.inj h).symm⟩

/-- What the route answers with a result has asked for a version that is known, and is told the
latest. -/
theorem version_routeInitialize {srv : Server W} {s : Session} {req resp : Message}
    {result : JsonValue} (h : (routeInitialize srv s req).2 = some resp)
    (hresult : mcpMessageResult resp = some result) :
    (∃ ver version, requestedVersion req = some ver ∧ mcpProtocolNegotiate ver = some version) ∧
      result.objectGet "protocolVersion" =
        some (.string mcpProtocolVersionLatest) := by
  rw [routeInitialize] at h
  dsimp only at h
  split at h
  · rw [mcpMessageResult_errResp h] at hresult
    cases hresult
  next ver hver =>
    split at h
    · rw [mcpMessageResult_errResp h] at hresult
      cases hresult
    next version hversion =>
      split at h
      · cases h
      next res hres =>
        obtain ⟨info, rfl⟩ := mcpInitializeResultNew_eq_some hres
        refine ⟨⟨ver, version, hver, hversion⟩, ?_⟩
        rw [mcpMessageResult_respondDecorated h hresult]
        rfl

/-- The result of an `initialize` request names the negotiated version exactly if the client asked
for the latest one. -/
theorem negotiated_iff_latest (srv : Server W) (s : Session) {req resp : Message}
    {result : JsonValue} (hmethod : mcpMessageMethod req = some (.lit "initialize"))
    (hresp : (mcpServerDispatch srv s req).2.2 = .ok resp)
    (hresult : mcpMessageResult resp = some result) :
    Negotiated req result ↔ requestedVersion req = some (.lit mcpProtocolVersionLatest) := by
  obtain ⟨method, s', hmethod', -, hroute⟩ := exists_route_of_result hresp hresult
  obtain rfl : method = "initialize" := some.inj (hmethod'.symm.trans hmethod)
  obtain ⟨⟨ver, version, hver, hversion⟩, hlatest⟩ := version_routeInitialize hroute hresult
  rw [Negotiated, hlatest]
  constructor
  · rintro ⟨ver', version', hver', hversion', heq⟩
    rw [hver', mcpProtocolNegotiate_eq_some hversion']
    exact congrArg some (JsonValue.string.inj (some.inj heq)).symm
  · intro hrequested
    exact ⟨_, _, hrequested, by decide, rfl⟩

def oldInitializeRequest : Message :=
  ⟨[("jsonrpc", .string "2.0"), ("id", .string "1"), ("method", .string "initialize"),
    ("params", .object
      [("protocolVersion", .string "2024-11-05"), ("capabilities", .object []),
        ("clientInfo", .object
          [("name", .string "c"), ("version", .string "0")])])]⟩

/-- The answer that a fresh session gives to an `initialize` request. -/
def initializeAnswer (req : Message) : Option JsonValue :=
  match (mcpServerDispatch bareServer sessionNew req).2.2 with
  | .ok resp => mcpMessageResult resp
  | .error _ => none

/-- A client that asks for 2024-11-05 is told 2025-06-18. -/
theorem initializeAnswer_oldVersion :
    mcpProtocolNegotiate "2024-11-05" = some "2024-11-05" ∧
      (initializeAnswer oldInitializeRequest).bind (·.objectGet "protocolVersion") =
        some (.string "2025-06-18") := by
  decide +kernel

theorem negotiated_initializeRequest :
    ∃ resp result, (mcpServerDispatch bareServer sessionNew initializeRequest).2.2 = .ok resp ∧
      mcpMessageResult resp = some result ∧ Negotiated initializeRequest result :=
  ⟨_, _, rfl, rfl, (negotiated_iff_latest bareServer sessionNew (by decide) rfl rfl).mpr
    (by decide)⟩

end Mcpkit
