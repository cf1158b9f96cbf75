import Mcpkit.Json.Value

/-!
# The metadata of an authorization server

`mcp_oauth_metadata_parse` copies five strings of a document into fields of 256
bytes with `strncpy`.  A longer string is cut off without an error, and the
issuer of a response is later compared with what is left of it.
-/

namespace Mcpkit.Core

open Json List

/-- The size of each string in `mcp_oauth_metadata_t`. -/
def fieldSize : Nat := 256

structure OauthMetadata where
  issuer : Bytes
  authorizationEndpoint : Bytes
  tokenEndpoint : Bytes
  registrationEndpoint : Bytes
  jwksUri : Bytes
  supportsPkceS256 : Bool
  clientIdMetadataDocumentSupported : Bool
  deriving DecidableEq

/-- The string that a document has under a key, or the empty string. -/
def documentString (doc : JsonValue) (key : String) : Bytes :=
  ((doc.objectGet key).bind (·.stringValue)).elim [] (·.bytes)

def copyStringField (obj : JsonValue) (key : String) : Bytes :=
  (documentString obj key).take (fieldSize - 1)

/-- The loop over `code_challenge_methods_supported`. -/
def supportsS256 (doc : JsonValue) : Bool :=
  match doc.objectGet "code_challenge_methods_supported" with
  | some (.array items) => items.any (·.stringValue = some (.lit "S256"))
  | _ => false

def mcpOauthMetadataParse (doc : JsonValue) : Except Status OauthMetadata :=
  match doc with
  | .object _ =>
    let m : OauthMetadata :=
      { issuer := copyStringField doc "issuer"
        authorizationEndpoint := copyStringField doc "authorization_endpoint"
        tokenEndpoint := copyStringField doc "token_endpoint"
        registrationEndpoint := copyStringField doc "registration_endpoint"
        jwksUri := copyStringField doc "jwks_uri"
        supportsPkceS256 := supportsS256 doc
        clientIdMetadataDocumentSupported :=
          doc.objectGet "client_id_metadata_document_supported" = some (.bool true) }
    if m.issuer = [] ∨ m.authorizationEndpoint = [] ∨ m.tokenEndpoint = [] then .error .protocol
    else .ok m
  | _ => .error .invalidArgument

def mcpOauthValidateIssuer (expected response : Option Bytes) : Bool :=
  match expected, response with
  | none, _ => false
  | some _, none => true
  | some expected, some response => expected = response

/-- The strings that a parse reports, with the keys that they stand under. -/
def OauthMetadata.reported (m : OauthMetadata) : List (String × Bytes) :=
  [("issuer", m.issuer), ("authorization_endpoint", m.authorizationEndpoint),
    ("token_endpoint", m.tokenEndpoint), ("registration_endpoint", m.registrationEndpoint),
    ("jwks_uri", m.jwksUri)]

theorem copyStringField_eq_iff (doc : JsonValue) (key : String) :
    copyStringField doc key = documentString doc key ↔
      (documentString doc key).length < fieldSize := by
  rw [copyStringField]
  constructor
  · intro heq
    have hle := congrArg length heq
    rw [length_take, fieldSize] at hle
    rw [fieldSize]
    omega
  · exact fun hlt => take_of_length_le (Nat.le_sub_one_of_lt hlt)

theorem reported_of_parse {doc : JsonValue} {m : OauthMetadata}
    (h : mcpOauthMetadataParse doc = .ok m) :
    ∀ p ∈ m.reported, p.2 = copyStringField doc p.1 := by
  rw [mcpOauthMetadataParse.eq_def] at h
  split at h
  · dsimp only at h
    split at h <;> cases h
    simp [OauthMetadata.reported]
  · cases h

/-- The reported strings are those of the document exactly if each fits its field, and an accepted
issuer is that of the document exactly if that one does. -/
theorem mcpOauthMetadataParse_exact_iff {doc : JsonValue} {m : OauthMetadata}
    (h : mcpOauthMetadataParse doc = .ok m) :
    ((∀ p ∈ m.reported, p.2 = documentString doc p.1) ↔
      ∀ p ∈ m.reported, (documentString doc p.1).length < fieldSize) ∧
    ((∀ response, mcpOauthValidateIssuer (some m.issuer) (some response) = true →
        response = documentString doc "issuer") ↔
      (documentString doc "issuer").length < fieldSize) := by
  have hreported := reported_of_parse h
  constructor
  · refine forall₂_congr fun p hp => ?_
    rw [hreported p hp, copyStringField_eq_iff]
  · have hissuer : m.issuer = copyStringField doc "issuer" :=
      hreported ("issuer", m.issuer) mem_cons_self
    rw [← copyStringField_eq_iff, hissuer]
    constructor
    · exact fun hall => hall _ (decide_eq_true rfl)
    · exact fun heq response hvalid => (of_decide_eq_true hvalid).symm.trans heq

def issuerDocument (issuer : JString) : JsonValue :=
  .object [("issuer", .string issuer), ("authorization_endpoint", .string "a"),
    ("token_endpoint", .string "t")]

def issuerMetadata (issuer : Bytes) : OauthMetadata :=
  ⟨issuer, [0x61], [0x74], [], [], false, false⟩

/-- Of an issuer of 256 bytes the first 255 are accepted. -/
theorem mcpOauthValidateIssuer_cutOff :
    ∃ doc m response, mcpOauthMetadataParse doc = .ok m ∧
      mcpOauthValidateIssuer (some m.issuer) (some response) = true ∧
      response ≠ documentString doc "issuer" :=
  ⟨issuerDocument ⟨replicate 256 0x61, by decide +kernel, by decide +kernel⟩,
    issuerMetadata (replicate 255 0x61), replicate 255 0x61, by decide +kernel,
    by decide +kernel, by decide +kernel⟩

theorem mcpOauthMetadataParse_exact_short :
    (issuerMetadata [0x69]).issuer = documentString (issuerDocument "i") "issuer" :=
  have h : mcpOauthMetadataParse (issuerDocument "i") = .ok (issuerMetadata [0x69]) := by
    decide +kernel
  (mcpOauthMetadataParse_exact_iff h).1.mpr (by decide +kernel) ("issuer", _) (by decide +kernel)

end Mcpkit.Core
