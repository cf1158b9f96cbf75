import Mcpkit.Core.Fips
import Mcpkit.Protocol.Base64Url
import Mcpkit.Protocol.UriExpand

/-!
# The token requests of an OAuth client

Four functions of `auth.c` print the body of a token request into a buffer whose
size they add up before, from the lengths of the encoded parameters and a constant
for each name.  A body that did not fit would be cut off.  Read as a form, it has
the grant type and the parameters that were given, in order and complete.  The
challenge that goes with a code verifier is its SHA-256 digest.
-/

namespace Mcpkit.Core

open Json JString List Nat Utf8
open Protocol.UriTemplate (encodedByte urlDecode urlDecode_flatMap isUnreserved)
open Protocol (sha256Init sha256Update sha256Final b64urlEncode b64urlDecode)

def urlEncode (str : CString) : Bytes := str.bytes.flatMap (encodedByte false)

def formPart (p : String × Option CString) : Option Bytes :=
  p.2.map fun v => (lit p.1).bytes ++ 0x3D :: urlEncode v

/-- A parameter, with what is added to the length of its value. -/
abbrev FormField := (String × Option CString) × Nat

def fieldText (f : FormField) : Bytes := (formPart f.1).elim [] (0x26 :: ·)

def fieldRoom (f : FormField) : Nat := f.1.2.elim 0 fun v => (urlEncode v).length + f.2

/-- A form that a builder prints: what it adds to the room for the fields, how its format begins,
and the fields. -/
structure Form where
  base : Nat
  first : String
  fields : List FormField

namespace Form

def needed (form : Form) : Nat := form.base + (form.fields.map fieldRoom).sum

def text (form : Form) : Bytes := (lit form.first).bytes ++ form.fields.flatMap fieldText

/-- The call of `snprintf` that the builders share. -/
def print (form : Form) : Bytes := form.text.take (form.needed - 1)

/-- The buffer holds the text and its zero byte. -/
def Fits (form : Form) : Prop := form.text.length < form.needed

end Form

def pkceForm (code codeVerifier : CString) (redirectUri clientId : Option CString) : Form :=
  ⟨64, "grant_type=authorization_code", [(("code", code), 0),
    (("code_verifier", codeVerifier), 0), (("redirect_uri", redirectUri), 16),
    (("client_id", clientId), 12)]⟩

def mcpOauthBuildTokenRequestPkce (code codeVerifier : CString)
    (redirectUri clientId : Option CString) : Bytes :=
  (pkceForm code codeVerifier redirectUri clientId).print

def refreshForm (refreshToken : CString) (clientId scope : Option CString) : Form :=
  ⟨64, "grant_type=refresh_token", [(("refresh_token", refreshToken), 0),
    (("client_id", clientId), 12), (("scope", scope), 8)]⟩

def mcpOauthBuildRefreshRequest (refreshToken : CString) (clientId scope : Option CString) :
    Bytes :=
  (refreshForm refreshToken clientId scope).print

def clientForm (clientId : CString) (clientSecret scope : Option CString) : Form :=
  ⟨64, "grant_type=client_credentials", [(("client_id", clientId), 0),
    (("client_secret", clientSecret), 16), (("scope", scope), 8)]⟩

def mcpOauthBuildClientCredentialsRequest (clientId : CString)
    (clientSecret scope : Option CString) : Bytes :=
  (clientForm clientId clientSecret scope).print

structure TokenExchangeReq where
  subjectToken : Option CString
  subjectTokenType : Option CString
  actorToken : Option CString
  actorTokenType : Option CString
  resource : Option CString
  audience : Option CString
  scope : Option CString
  requestedTokenType : Option CString

/-- The empty string counts as missing. -/
def filled (v : Option CString) : Option CString := v.filter (·.bytes ≠ [])

/-- An exchange has a subject with its type, and the type of an actor. -/
def TokenExchangeReq.Complete (req : TokenExchangeReq) : Prop :=
  (filled req.subjectToken).isSome ∧ (filled req.subjectTokenType).isSome ∧
    ((filled req.actorToken).isSome → (filled req.actorTokenType).isSome)

instance (req : TokenExchangeReq) : Decidable req.Complete := inferInstanceAs (Decidable (_ ∧ _))

/-- The parameters in the order of the body. -/
def TokenExchangeReq.params (req : TokenExchangeReq) : List (String × Option CString) :=
  [("subject_token", req.subjectToken), ("subject_token_type", req.subjectTokenType),
    ("actor_token", req.actorToken), ("actor_token_type", req.actorTokenType),
    ("resource", req.resource), ("audience", req.audience), ("scope", req.scope),
    ("requested_token_type", req.requestedTokenType)]

def exchangeForm (req : TokenExchangeReq) : Form :=
  ⟨128, "grant_type=urn%3Aietf%3Aparams%3Aoauth%3Agrant-type%3Atoken-exchange",
    [(("subject_token", filled req.subjectToken), 0),
      (("subject_token_type", filled req.subjectTokenType), 0),
      (("actor_token", filled req.actorToken), 16),
      (("actor_token_type", filled req.actorTokenType), 20),
      (("resource", filled req.resource), 12), (("audience", filled req.audience), 12),
      (("scope", filled req.scope), 10),
      (("requested_token_type", filled req.requestedTokenType), 24)]⟩

def mcpOauthBuildTokenExchangeRequest (req : TokenExchangeReq) : Except Status Bytes :=
  if req.Complete then .ok (exchangeForm req).print else .error .invalidArgument

/-- A name or a value of a form: a plus sign stands for a blank. -/
def formText (t : Bytes) : Bytes := urlDecode (t.map fun c => if c = 0x2B then 0x20 else c)

def formPair (part : Bytes) : Bytes × Bytes :=
  (formText (part.takeWhile (· ≠ 0x3D)), formText ((part.dropWhile (· ≠ 0x3D)).drop 1))

/-- The pairs of a text of type `application/x-www-form-urlencoded`. -/
def formPairs (body : Bytes) : List (Bytes × Bytes) :=
  ((body.splitOn 0x26).filter (· ≠ [])).map formPair

/-- The pairs that a form is to have: the grant type and the parameters that are there. -/
def given (grant : String) (ps : List (String × Option CString)) : List (Bytes × Bytes) :=
  (("grant_type", some (lit grant).toCString) :: ps).filterMap fun p =>
    p.2.map fun v => ((lit p.1).bytes, v.bytes)

/-- The first parameter stands in the format already, the names are plain text, and there is room
for them. -/
def FormOk (base : Nat) (first grant : String) (names : List (String × Nat)) : Prop :=
  formPart ("grant_type", some (lit grant).toCString) = some (lit first).bytes ∧
    (∀ p ∈ ("grant_type", 0) :: names, (lit p.1).bytes.all isUnreserved = true) ∧
    (lit first).bytes.length + (names.map fun p => (lit p.1).bytes.length + 2 - p.2).sum < base

instance (base : Nat) (first grant : String) (names : List (String × Nat)) :
    Decidable (FormOk base first grant names) :=
  inferInstanceAs (Decidable (_ ∧ _))

variable {c : UInt8} {t : Bytes}

theorem ne_of_plain : ∀ {c : UInt8}, isUnreserved c = true ∨ c = 0x25 →
    c ≠ 0x26 ∧ c ≠ 0x3D ∧ c ≠ 0x2B :=
  @(forall_byte (by decide +kernel))

theorem ne_of_mem_urlEncode {v : CString} (h : c ∈ urlEncode v) :
    c ≠ 0x26 ∧ c ≠ 0x3D ∧ c ≠ 0x2B := by
  have hbyte : ∀ b, (encodedByte false b).all (fun c => isUnreserved c ∨ c = 0x25) = true :=
    forall_byte (by decide +kernel)
  obtain ⟨b, -, hc⟩ := mem_flatMap.mp h
  exact ne_of_plain (of_decide_eq_true (all_eq_true.mp (hbyte b) c hc))

theorem formText_of_notMem (h : 0x2B ∉ t) : formText t = urlDecode t := by
  have hsame : ∀ c ∈ t, (if c = 0x2B then 0x20 else c) = c :=
    fun c hc => if_neg (ne_of_mem_of_not_mem hc h)
  rw [formText, map_congr_left hsame, map_id']

theorem formText_name (h : t.all isUnreserved = true) : formText t = t := by
  have hplain : ∀ {c}, isUnreserved c = true → encodedByte false c = [c] :=
    @(forall_byte (by decide +kernel))
  have hsame : t.flatMap (encodedByte false) = t := by
    rw [flatMap_congr fun c hc => hplain (all_eq_true.mp h c hc), flatMap_singleton']
  rw [formText_of_notMem fun hmem => (ne_of_plain (.inl (all_eq_true.mp h _ hmem))).2.2 rfl,
    ← hsame, urlDecode_flatMap, hsame]

theorem formPart_spec {p : String × Option CString} (h : (lit p.1).bytes.all isUnreserved = true) :
    (∀ part ∈ formPart p, 0x26 ∉ part ∧ part ≠ []) ∧
      (formPart p).map formPair = p.2.map fun v => ((lit p.1).bytes, v.bytes) := by
  obtain ⟨name, value⟩ := p
  rw [formPart]
  cases value with
  | none => exact ⟨fun part hpart => (Option.not_mem_none part hpart).elim, rfl⟩
  | some v =>
    have hname (c) (hc : c ∈ (lit name).bytes) := ne_of_plain (.inl (all_eq_true.mp h c hc))
    have hstop : ∀ c ∈ (lit name).bytes, decide (c ≠ 0x3D) = true :=
      fun c hc => decide_eq_true (hname c hc).2.1
    have hvalue : 0x2B ∉ urlEncode v := fun hmem => (ne_of_mem_urlEncode hmem).2.2 rfl
    simp only [Option.map_some, Option.mem_some_iff, forall_eq']
    refine ⟨⟨fun hmem => ?_, by simp⟩, ?_⟩
    · simp only [mem_append, mem_cons] at hmem
      obtain hmem | hmem | hmem := hmem
      · exact (hname _ hmem).1 rfl
      · cases hmem
      · exact (ne_of_mem_urlEncode hmem).1 rfl
    · rw [formPair, takeWhile_append_of_pos hstop, dropWhile_append_of_pos hstop,
        takeWhile_cons_of_neg (by decide), dropWhile_cons_of_neg (by decide), append_nil, drop_one,
        tail_cons, formText_name h, formText_of_notMem hvalue, urlEncode, urlDecode_flatMap]

theorem intercalate_parts (part : Bytes) (fields : List FormField) :
    part ++ fields.flatMap fieldText =
      [0x26].intercalate (part :: (fields.map (·.1)).filterMap formPart) := by
  induction fields generalizing part with
  | nil => simp
  | cons f fields ih =>
    rw [map_cons]
    cases hpart : formPart f.1 with
    | none => simpa [fieldText, hpart] using ih part
    | some next =>
      rw [filterMap_cons_some hpart, intercalate_cons_cons, ← ih]
      simp [fieldText, hpart]

theorem length_flatMap_le (fields : List FormField) :
    (fields.flatMap fieldText).length ≤
      (fields.map fun f => (lit f.1.1).bytes.length + 2 - f.2).sum +
        (fields.map fieldRoom).sum := by
  induction fields with
  | nil => exact le_refl 0
  | cons f fields ih =>
    obtain ⟨⟨name, value⟩, slack⟩ := f
    rw [flatMap_cons, length_append, map_cons, sum_cons, map_cons, sum_cons, fieldText, fieldRoom,
      formPart]
    cases value with
    | none => exact le_trans (by simpa using ih) (by dsimp only; omega)
    | some v =>
      simp only [Option.map_some, Option.elim_some, length_cons, length_append]
      omega

/-- The text fits its buffer, and the form that it is has the given parameters. -/
theorem Form.fits_and_pairs {form : Form} {grant : String}
    (hok : FormOk form.base form.first grant (form.fields.map fun f => (f.1.1, f.2))) :
    form.Fits ∧ formPairs form.print = given grant (form.fields.map (·.1)) := by
  obtain ⟨base, first, fields⟩ := form
  obtain ⟨hfirst, hnames, hroom⟩ := hok
  have hlength := length_flatMap_le fields
  rw [map_map] at hroom
  simp only [Function.comp_def] at hroom
  have hfits : Form.Fits ⟨base, first, fields⟩ := by
    rw [Form.Fits, Form.text, Form.needed, length_append]
    dsimp only
    omega
  have hpart : ∀ p ∈ ("grant_type", some (lit grant).toCString) :: fields.map (·.1),
      (lit p.1).bytes.all isUnreserved = true := by
    simp only [mem_cons, mem_map]
    rintro p (rfl | ⟨f, hf, rfl⟩)
    · exact hnames _ mem_cons_self
    · exact hnames _ (mem_cons_of_mem _ (mem_map_of_mem hf))
  have hparts : ∀ part ∈ (("grant_type", some (lit grant).toCString) ::
      fields.map (·.1)).filterMap formPart, 0x26 ∉ part ∧ part ≠ [] := by
    intro part hmem
    obtain ⟨p, hp, hsome⟩ := mem_filterMap.mp hmem
    exact (formPart_spec (hpart p hp)).1 part hsome
  refine ⟨hfits, ?_⟩
  rw [Form.print, take_of_length_le (le_sub_one_of_lt hfits), Form.text, intercalate_parts,
    ← filterMap_cons_some hfirst, formPairs, splitOn_intercalate _ fun p hp => (hparts p hp).1,
    filter_eq_self.mpr fun p hp => decide_eq_true (hparts p hp).2, map_filterMap, given]
  · exact filterMap_congr fun p hp => (formPart_spec (hpart p hp)).2
  · rw [filterMap_cons_some hfirst]
    exact cons_ne_nil _ _

theorem formOk_tokenRequests :
    FormOk 64 "grant_type=authorization_code" "authorization_code"
      [("code", 0), ("code_verifier", 0), ("redirect_uri", 16), ("client_id", 12)] ∧
    FormOk 64 "grant_type=refresh_token" "refresh_token"
      [("refresh_token", 0), ("client_id", 12), ("scope", 8)] ∧
    FormOk 64 "grant_type=client_credentials" "client_credentials"
      [("client_id", 0), ("client_secret", 16), ("scope", 8)] ∧
    FormOk 128 "grant_type=urn%3Aietf%3Aparams%3Aoauth%3Agrant-type%3Atoken-exchange"
      "urn:ietf:params:oauth:grant-type:token-exchange"
      [("subject_token", 0), ("subject_token_type", 0), ("actor_token", 16),
        ("actor_token_type", 20), ("resource", 12), ("audience", 12), ("scope", 10),
        ("requested_token_type", 24)] := by
  decide +kernel

/-- With no empty strings among them, the parameters of all four requests are read back as they
were given. -/
theorem formPairs_of_filled (code verifier token client : CString)
    (uri clientId secret scope : Option CString) (req : TokenExchangeReq)
    (hcomplete : req.Complete) (hfilled : ∀ p ∈ req.params, filled p.2 = p.2) :
    formPairs (mcpOauthBuildTokenRequestPkce code verifier uri clientId) =
        given "authorization_code" [("code", code), ("code_verifier", verifier),
          ("redirect_uri", uri), ("client_id", clientId)] ∧
      formPairs (mcpOauthBuildRefreshRequest token clientId scope) =
        given "refresh_token" [("refresh_token", token), ("client_id", clientId),
          ("scope", scope)] ∧
      formPairs (mcpOauthBuildClientCredentialsRequest client secret scope) =
        given "client_credentials" [("client_id", client), ("client_secret", secret),
          ("scope", scope)] ∧
      (mcpOauthBuildTokenExchangeRequest req).map formPairs =
        .ok (given "urn:ietf:params:oauth:grant-type:token-exchange" req.params) := by
  obtain ⟨hpkce, hrefresh, hclient, hexchange⟩ := formOk_tokenRequests
  have hpairs := (@Form.fits_and_pairs (exchangeForm req) _ hexchange).2
  have hsame : req.params.map (fun p => (p.1, filled p.2)) = req.params := by
    conv_rhs => rw [← map_id req.params]
    exact map_congr_left fun p hp => Prod.ext rfl (hfilled p hp)
  refine ⟨(Form.fits_and_pairs hpkce).2, (Form.fits_and_pairs hrefresh).2,
    (Form.fits_and_pairs hclient).2, ?_⟩
  rw [mcpOauthBuildTokenExchangeRequest, if_pos hcomplete]
  exact congrArg Except.ok (hpairs.trans (congrArg _ hsame))

/-- A subject with its type, and a scope. -/
def scopedExchange (scope : String) : TokenExchangeReq :=
  let given (s : String) := some (lit s).toCString
  ⟨given "t", given "jwt", none, none, none, none, given scope, none⟩

theorem formPairs_of_filled_scoped :
    (mcpOauthBuildTokenExchangeRequest (scopedExchange "s")).map formPairs =
      .ok (given "urn:ietf:params:oauth:grant-type:token-exchange" (scopedExchange "s").params) :=
  let s := "s"
  (formPairs_of_filled s s s s none none none none _ (by decide +kernel) (by decide +kernel)).2.2.2

/-- An empty scope is left out. -/
theorem tokenExchange_emptyScope : (scopedExchange "").Complete ∧
    (mcpOauthBuildTokenExchangeRequest (scopedExchange "")).map formPairs ≠
      .ok (given "urn:ietf:params:oauth:grant-type:token-exchange" (scopedExchange "").params) := by
  decide +kernel

/-- `mcp_pkce_compute_challenge`, with the bytes before the terminator of the verifier. -/
def mcpPkceComputeChallenge (codeVerifier : Bytes) : Except Status Bytes :=
  if codeVerifier.length < 43 ∨ 128 < codeVerifier.length then .error .invalidArgument
  else if codeVerifier.all isUnreserved then
    .ok (b64urlEncode (sha256Final (sha256Update sha256Init codeVerifier)))
  else .error .invalidArgument

/-- The bytes that stand in for `/dev/urandom`. -/
def seededBytes : Nat → UInt32 → Bytes
  | 0, _ => []
  | n + 1, seed =>
    let seed := seed * 1103515245 + 12345
    (seed >>> 16).toUInt8 :: seededBytes n seed

def verifierCharset : Bytes :=
  (lit "ABCDEFGHIJKLMNOPQRSTUVWXYZabcdefghijklmnopqrstuvwxyz0123456789-._~").bytes

/-- `mcp_pkce_generate`, with what `fread` reads and the seed for the case that it reads less. -/
def mcpPkceGenerate (read : Bytes) (seed : UInt32) : Bytes × Except Status Bytes :=
  let randBytes := if read.length = 64 then read else seededBytes 64 seed
  let verifier := randBytes.map fun b => verifierCharset.getD (b.toNat % verifierCharset.length) 0
  (verifier, mcpPkceComputeChallenge verifier)

theorem length_seededBytes (n : Nat) (seed : UInt32) : (seededBytes n seed).length = n := by
  induction n generalizing seed with
  | zero => rfl
  | succ n ih => rw [seededBytes, length_cons, ih]

def IsVerifier (v : Bytes) : Prop :=
  43 ≤ v.length ∧ v.length ≤ 128 ∧ v.all isUnreserved = true

theorem mcpPkceComputeChallenge_eq_ok (v challenge : Bytes) :
    mcpPkceComputeChallenge v = .ok challenge ↔
      IsVerifier v ∧ challenge = b64urlEncode (Fips.sha256 v) := by
  have hinit : sha256Init = Fips.reading [] := by
    rw [Fips.reading, BlockHash.absorb_of_lt (by decide)]
    rfl
  rw [mcpPkceComputeChallenge, hinit, Fips.sha256Update_reading, Fips.sha256Final_reading,
    IsVerifier, nil_append]
  split
  · exact ⟨(by cases ·), (by omega)⟩
  · have hlen : 43 ≤ v.length ∧ v.length ≤ 128 := by omega
    split <;> simp [*, eq_comm]

/-- A challenge is computed exactly for 43 to 128 unreserved characters and stands for their digest
by the standard.  The generated verifier always has one, also without `/dev/urandom`. -/
theorem pkceChallenge_sha256 :
    (∀ v challenge, mcpPkceComputeChallenge v = .ok challenge ↔
      IsVerifier v ∧ challenge = b64urlEncode (Fips.sha256 v)) ∧
    ∀ read seed, ∃ v challenge, mcpPkceGenerate read seed = (v, .ok challenge) ∧
      v.length = 64 ∧ b64urlDecode challenge = some (Fips.sha256 v) := by
  refine ⟨mcpPkceComputeChallenge_eq_ok, fun read seed => ?_⟩
  have hset : ∀ i < 66, isUnreserved (verifierCharset.getD i 0) = true := by decide +kernel
  have hlen : (mcpPkceGenerate read seed).1.length = 64 := by
    rw [mcpPkceGenerate, length_map]
    split
    · assumption
    · exact length_seededBytes 64 seed
  have hall : (mcpPkceGenerate read seed).1.all isUnreserved = true := by
    rw [mcpPkceGenerate, all_map, all_eq_true]
    exact fun b _ => hset _ (mod_lt _ (by decide))
  have hv : IsVerifier (mcpPkceGenerate read seed).1 := ⟨by omega, by omega, hall⟩
  exact ⟨_, _, Prod.ext rfl ((mcpPkceComputeChallenge_eq_ok _ _).mpr ⟨hv, rfl⟩), hlen,
    Protocol.b64urlDecode_b64urlEncode _⟩

end Mcpkit.Core
