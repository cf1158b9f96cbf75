import Mcpkit.Transport.SessionTable

/-!
# Metadata headers

A POST describes its message twice, in the body and in three headers.  What
`handle_post` hands to the server is described the same way by both; a POST whose
headers disagree with its body gets an error and changes nothing.
-/

namespace Mcpkit.Transport

open Json Protocol Option

variable {W : Type}

def version2026 : Bytes := "2026-07-28"

def targetParam (method : JString) : Option String :=
  if method = "tools/call" ∨ method = "prompts/get" then some "name"
  else if method = "resources/read" then some "uri"
  else none

/-- The first values of the metadata headers describe the message. -/
structure HeadersAgree (req : HttpRequest) (msg : Message) (method : JString) : Prop where
  supported : ∀ version, mcpHttpHeader req "MCP-Protocol-Version" = some version →
    isSupportedProtocolVersion version
  sameVersion : ∀ version, mcpHttpHeader req "MCP-Protocol-Version" = some version →
    ∀ named, metaVersion msg = some named → version = named
  sameMethod : ∀ value, mcpHttpHeader req "Mcp-Method" = some value → value = method.bytes
  sameName : ∀ value, mcpHttpHeader req "Mcp-Name" = some value →
    ∀ key, targetParam method = some key → stringParam msg key = some value
  hasMethod : mcpHttpHeader req "MCP-Protocol-Version" = some version2026 →
    mcpMessageKind msg = .request → (mcpHttpHeader req "Mcp-Method").isSome
  hasName : mcpHttpHeader req "MCP-Protocol-Version" = some version2026 →
    ∀ key, targetParam method = some key → (mcpHttpHeader req "Mcp-Name").isSome

theorem refusal_eq_none {α : Type} {c : Bool} {a : α} {rest : Option α}
    (h : (if c then some a else rest) = none) : c = false ∧ rest = none := by
  cases c with
  | true => cases h
  | false => exact ⟨rfl, h⟩

theorem eq_of_mismatch_eq_false {a b : Option Bytes} (h : mismatch a b = false) {x y : Bytes}
    (hx : a = some x) (hy : b = some y) : x = y := by
  subst hx hy
  simpa [mismatch] using h

variable {method : JString} {req : HttpRequest} {msg : Message}

theorem targetParam_eq_some {key : String} (h : targetParam method = some key) :
    (namedByName (some method) = true ∧ key = "name") ∨
      (namedByUri (some method) = true ∧ key = "uri") := by
  rw [targetParam] at h
  split at h
  next hname => exact .inl ⟨by simpa [namedByName] using hname, (some.inj h).symm⟩
  next =>
    split at h
    next huri => exact .inr ⟨by simpa [namedByUri] using huri, (some.inj h).symm⟩
    next => cases h

theorem headersAgree_of_validate (hmethod : mcpMessageMethod msg = some method)
    (h : validateHttpMetadata req msg = none) : HeadersAgree req msg method := by
  rw [validateHttpMetadata, hmethod] at h
  obtain ⟨hsupported, h⟩ := refusal_eq_none h
  obtain ⟨hversion, h⟩ := refusal_eq_none h
  obtain ⟨hhasMethod, h⟩ := refusal_eq_none h
  obtain ⟨hvalue, h⟩ := refusal_eq_none h
  obtain ⟨hhasName, h⟩ := refusal_eq_none h
  obtain ⟨hname, h⟩ := refusal_eq_none h
  obtain ⟨huri, -⟩ := refusal_eq_none h
  constructor
  case supported =>
    intro version hv
    simpa [hv] using hsupported
  case sameVersion =>
    intro version hv named hnamed
    exact eq_of_mismatch_eq_false hversion hv hnamed
  case sameMethod =>
    intro value hv
    exact eq_of_mismatch_eq_false hvalue hv rfl
  case sameName =>
    intro value hv key hkey
    rw [hv] at hname huri
    obtain ⟨hnamed, rfl⟩ | ⟨hnamed, rfl⟩ := targetParam_eq_some hkey
    · simpa [hnamed] using hname
    · simpa [hnamed] using huri
  case hasMethod =>
    intro hv hkind
    simpa [hv, hkind, version2026] using hhasMethod
  case hasName =>
    intro hv key hkey
    obtain ⟨hnamed, -⟩ | ⟨hnamed, -⟩ := targetParam_eq_some hkey <;>
      simpa [hv, hnamed, version2026] using hhasName

def statusLine (status : Nat) : Bytes := text "HTTP/1.1 " ++ unsignedDecimal status ++ text " "

/-- The bytes of a response with a status, behind an interim response if one was sent. -/
def RespondsWith (status : Nat) (written : Bytes) : Prop :=
  ∃ before rest, (before = [] ∨ before = text "HTTP/1.1 100 Continue\r\n\r\n") ∧
    written = before ++ (statusLine status ++ rest)

theorem cString_mcpHttpResponseSerialize (resp : HttpResponse)
    (hzero : (0 : UInt8) ∉ statusLine resp.status) :
    ∃ rest, cString (mcpHttpResponseSerialize resp) = statusLine resp.status ++ rest := by
  rw [mcpHttpResponseSerialize, ← statusLine]
  simp only [List.append_assoc]
  exact ⟨_, cString_append hzero _⟩

theorem interim_eq (req : HttpRequest) :
    interim req = [] ∨ interim req = text "HTTP/1.1 100 Continue\r\n\r\n" := by
  rw [interim]
  split
  · exact .inl rfl
  · split
    · exact .inr rfl
    · exact .inl rfl

theorem respondsWith_sendUnauthorized : RespondsWith 401 sendUnauthorized := by
  obtain ⟨rest, hrest⟩ := cString_mcpHttpResponseSerialize
    ⟨401, "Unauthorized", [("WWW-Authenticate", "Bearer"), ("Content-Length", "0")], []⟩
    (by decide)
  exact ⟨[], rest, .inl rfl, hrest⟩

theorem respondsWith_sendBytes {before : Bytes}
    (hbefore : before = [] ∨ before = text "HTTP/1.1 100 Continue\r\n\r\n") (reason : String)
    (ctype : Option String) (body : Bytes) (extra : Option (String × Bytes)) :
    RespondsWith 400 (before ++ sendBytes 400 reason ctype body extra) := by
  obtain ⟨rest, hrest⟩ := cString_mcpHttpResponseSerialize
    ⟨400, reason, (ctype.map fun t => ("Content-Type", text t)).toList ++ extra.toList, body⟩
    (show (0 : UInt8) ∉ statusLine 400 by decide)
  exact ⟨before, rest, hbefore, congrArg (before ++ ·) hrest⟩

theorem respondsWith_sendRpcError [Libc] (req : HttpRequest) (msg : Message) (code : Int32)
    (message : String) : RespondsWith 400 (interim req ++ sendRpcError msg code message) := by
  rw [sendRpcError]
  split
  · exact respondsWith_sendBytes (interim_eq req) _ _ _ _
  · exact respondsWith_sendBytes (interim_eq req) _ _ _ _

theorem postMessage_of_parse [Libc] (auth : Option (Bytes → Bool))
    (hparse : mcpMessageParse req.body = some msg) (hmethod : mcpMessageMethod msg = some method) :
    (postMessage auth req = .ok msg ∧ HeadersAgree req msg method) ∨
      ∃ response, postMessage auth req = .error response ∧
        (RespondsWith 400 response ∨ RespondsWith 401 response) := by
  rw [postMessage, hparse]
  dsimp only
  split
  · exact .inr ⟨_, rfl, .inr respondsWith_sendUnauthorized⟩
  split
  · exact .inr ⟨_, rfl, .inl (respondsWith_sendBytes (.inl rfl) _ _ _ _)⟩
  split
  · exact .inr ⟨_, rfl, .inl (respondsWith_sendBytes (interim_eq req) _ _ _ _)⟩
  · split
    next code message _ => exact .inr ⟨_, rfl, .inl (respondsWith_sendRpcError req msg _ _)⟩
    next hnone => exact .inl ⟨rfl, headersAgree_of_validate hmethod hnone⟩

variable {st' st : ServeState W} {reply : Reply} {call : Call}

theorem call_serveOn [Libc] {sess : Nat} {newId : Option Bytes}
    (h : serveOn st sess req msg newId = some (st', reply)) (hcall : reply.call = some call) :
    call = .dispatch msg ∨ call = .notify msg := by
  rw [serveOn] at h
  split at h
  · cases h
  obtain ⟨-, rfl⟩ := Prod.mk.inj (some.inj h)
  obtain rfl := some.inj hcall
  split
  · exact .inr rfl
  · exact .inl rfl

theorem call_handlePost [Libc] {auth : Option (Bytes → Bool)}
    (hmsg : postMessage auth req = .ok msg) (h : handlePost auth st req = some (st', reply))
    (hcall : reply.call = some call) : call = .dispatch msg ∨ call = .notify msg := by
  rw [handlePost, hmsg] at h
  dsimp only at h
  split at h
  · obtain ⟨-, rfl⟩ := Prod.mk.inj (some.inj h)
    cases hcall
  · exact call_serveOn h hcall
  · exact call_serveOn h hcall
  · exact call_serveOn h hcall

/-- A POST whose message reaches the server has headers that agree with it; one whose headers do not
is answered with an error and changes nothing. -/
theorem serveTurn_post_headers [Libc] (auth : Option (Bytes → Bool)) (st : ServeState W)
    {req : HttpRequest} {msg : Message} {method : JString} (hpost : req.method = .post)
    (hparse : mcpMessageParse req.body = some msg) (hmethod : mcpMessageMethod msg = some method) :
    (∀ reply call, (serveTurn auth (some st) req).2 = some reply → reply.call = some call →
      (call = .dispatch msg ∨ call = .notify msg) ∧ HeadersAgree req msg method) ∧
    (¬HeadersAgree req msg method →
      ∃ written, serveTurn auth (some st) req = (some st, some ⟨written, none⟩) ∧
        (RespondsWith 400 written ∨ RespondsWith 401 written)) := by
  have hturn : handleRequest auth st req = handlePost auth st req := by rw [handleRequest, hpost]
  obtain ⟨hmsg, hagree⟩ | ⟨response, herror, hresponse⟩ := postMessage_of_parse auth hparse hmethod
  · refine ⟨fun reply call hreply hcall => ⟨?_, hagree⟩, fun hnot => absurd hagree hnot⟩
    cases hpost : handlePost auth st req with
    | none => simp [serveTurn, hturn, hpost] at hreply
    | some result =>
      simp only [serveTurn, hturn, hpost, some.injEq] at hreply
      exact call_handlePost hmsg (hpost.trans (congrArg (fun r => some (result.1, r)) hreply))
        hcall
  · have hserve : serveTurn auth (some st) req = (some st, some ⟨response, none⟩) := by
      simp [serveTurn, hturn, handlePost, herror]
    refine ⟨fun reply call hreply hcall => ?_, fun _ => ⟨response, hserve, hresponse⟩⟩
    rw [hserve] at hreply
    obtain rfl := some.inj hreply
    cases hcall

def metaPing : Message :=
  ⟨[("jsonrpc", .string "2.0"), ("id", .string "2"),
    ("method", .string "ping"), ("_meta", .object [])]⟩

/-- A POST of this message under the version that makes the headers mandatory. -/
def metaPingPost2026 (headers : List Header) : HttpRequest :=
  ⟨.post, "/", ⟨"MCP-Protocol-Version", version2026⟩ :: headers, metaPingBody⟩

/-- With the method in a header the message is served, without it the POST is refused. -/
theorem serveTurn_metaPingPost2026 :
    @mcpMessageParse unitLibc metaPingBody = some metaPing ∧
      HeadersAgree (metaPingPost2026 [⟨"Mcp-Method", "ping"⟩]) metaPing "ping" ∧
      ∃ written, @serveTurn _ unitLibc none (some ⟨bareServer, .empty, .initial⟩)
          (metaPingPost2026 []) =
        (some ⟨bareServer, .empty, .initial⟩, some ⟨written, none⟩) ∧
        (RespondsWith 400 written ∨ RespondsWith 401 written) := by
  have hparse : @mcpMessageParse unitLibc metaPingBody = some metaPing := by decide +kernel
  have hmethod : mcpMessageMethod metaPing = some (.lit "ping") := by decide
  refine ⟨hparse, ?_, ?_⟩
  · have hcall : (((@serveTurn _ unitLibc none (some ⟨bareServer, .empty, .initial⟩)
        (metaPingPost2026 [⟨"Mcp-Method", "ping"⟩])).2.bind (·.call)).isSome) = true := by
      decide +kernel
    obtain ⟨call, hcall⟩ := isSome_iff_exists.mp hcall
    obtain ⟨reply, hreply, hcall⟩ := bind_eq_some_iff.mp hcall
    exact ((@serveTurn_post_headers _ unitLibc none _ _ _ _ rfl hparse hmethod).1 reply call hreply
      hcall).2
  · apply (@serveTurn_post_headers _ unitLibc none _ _ _ _ rfl hparse hmethod).2
    intro hagree
    exact absurd (hagree.hasMethod (by decide) (by decide)) (by decide)

end Mcpkit.Transport
