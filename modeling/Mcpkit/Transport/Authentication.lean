import Mcpkit.Transport.HttpMetadata
import Mcpkit.Transport.ServeLoop

/-!
# Authentication of POST requests

A serve loop with a token predicate answers 401 to a POST that does not carry an
accepted token.  Such a POST leaves no trace: the rest of a run, its responses
and its final state are those of the run without it.
-/

namespace Mcpkit.Transport

open Json Protocol List Machine

variable {W : Type}

/-- The first `Authorization` header is the word `Bearer` in any letter case, one space and a
token that the predicate accepts. -/
def CarriesToken (accepts : Bytes → Bool) (req : HttpRequest) : Prop :=
  ∃ word token, mcpHttpHeader req "Authorization" = some (word ++ 0x20 :: token) ∧
    word.map tolower = "bearer" ∧ accepts token = true

theorem tolower_eq_space : ∀ {c : UInt8}, tolower c = 0x20 → c = 0x20 :=
  @(Utf8.forall_byte (by decide +kernel))

theorem ciPrefixEq_bearer {value : Bytes} :
    ciPrefixEq value (text "bearer ") = true ↔
      ∃ word, word.map tolower = text "bearer" ∧ value.take 7 = word ++ [0x20] := by
  have hpattern : text "bearer " = text "bearer" ++ [0x20] := by decide +kernel
  have hlength : (text "bearer ").length = 7 := by decide +kernel
  rw [ciPrefixEq, hlength, beq_iff_eq, hpattern, map_eq_append_iff]
  constructor
  · rintro ⟨word, last, htake, hword, hlast⟩
    obtain ⟨c, rfl, hc⟩ : ∃ c, last = [c] ∧ tolower c = 0x20 := by
      simpa [map_eq_cons_iff] using hlast
    exact ⟨word, hword, by rw [htake, tolower_eq_space hc]⟩
  · rintro ⟨word, hword, htake⟩
    exact ⟨word, [0x20], htake, hword, by decide⟩

variable {req : HttpRequest}

theorem authorized_iff {accepts : Bytes → Bool} :
    authorized (some accepts) req = true ↔ CarriesToken accepts req := by
  unfold authorized bearerToken CarriesToken
  cases mcpHttpHeader req "Authorization" with
  | none => simp
  | some value =>
    constructor
    · intro h
      by_cases hbearer : ciPrefixEq value "bearer " = true
      · obtain ⟨word, hword, htake⟩ := ciPrefixEq_bearer.mp hbearer
        refine ⟨word, value.drop 7, congrArg some ?_, hword, by simpa [hbearer] using h⟩
        calc value = value.take 7 ++ value.drop 7 := (take_append_drop 7 value).symm
          _ = word ++ 0x20 :: value.drop 7 := by rw [htake, append_assoc]; rfl
      · simp [hbearer] at h
    rintro ⟨word, token, hvalue, hword, haccepts⟩
    obtain rfl := Option.some.inj hvalue
    have hlength : word.length = 6 := by
      simpa using (congrArg List.length hword).trans (by decide +kernel : _ = 6)
    have hbearer : ciPrefixEq (word ++ 0x20 :: token) "bearer " = true :=
      ciPrefixEq_bearer.mpr ⟨word, hword, by simp [take_append, hlength]⟩
    have hdrop : (word ++ 0x20 :: token).drop 7 = token := by
      rw [drop_append, drop_of_length_le (by omega), hlength]
      rfl
    simpa [hbearer, hdrop] using haccepts

instance (accepts : Bytes → Bool) (req : HttpRequest) : Decidable (CarriesToken accepts req) :=
  decidable_of_iff _ authorized_iff

def UnauthorizedPost (accepts : Bytes → Bool) (req : HttpRequest) : Prop :=
  req.method = .post ∧ ¬CarriesToken accepts req
  deriving Decidable

def kept (accepts : Bytes → Bool) (req : HttpRequest) : Bool := decide ¬UnauthorizedPost accepts req

section Removal

variable [Libc] (accepts : Bytes → Bool)

/-- A POST without an accepted token is answered 401; it calls nothing and changes nothing. -/
theorem handleRequest_unauthorized (h : UnauthorizedPost accepts req) (st : ServeState W) :
    handleRequest (some accepts) st req = some (st, ⟨sendUnauthorized, none⟩) := by
  have hauth : authorized (some accepts) req = false :=
    Bool.eq_false_iff.mpr (mt authorized_iff.mp h.2)
  simp [handleRequest, handlePost, postMessage, h.1, hauth]

theorem answer_unauthorized (h : UnauthorizedPost accepts req) (o : Option (ServeState W)) :
    answer (some accepts) o (some req) = (o, o.map fun _ => ⟨sendUnauthorized, none⟩) := by
  cases o with
  | none => rfl
  | some st => simp [answer, serveTurn, handleRequest_unauthorized accepts h st]

/-- The events that are left: those of the requests that are kept. -/
def keptEvent (e : Option HttpRequest) : Bool := e.all (kept accepts)

theorem answer_of_not_kept (o : Option (ServeState W)) (e : Option HttpRequest)
    (h : keptEvent accepts e = false) : (answer (some accepts) o e).1 = o := by
  cases e with
  | none => simp [keptEvent] at h
  | some req =>
    have hreq : UnauthorizedPost accepts req := by simpa [keptEvent, kept] using h
    rw [answer_unauthorized accepts hreq]

theorem turnsOf_filter (o : Option (ServeState W)) (es : List (Option HttpRequest)) :
    turnsOf (some accepts) o (es.filter (keptEvent accepts)) =
      (turnsOf (some accepts) o es).filter fun turn => keptEvent accepts turn.request := by
  induction es generalizing o with
  | nil => rfl
  | cons e es ih =>
    cases hk : keptEvent accepts e with
    | true => simp [hk, ih]
    | false => simp [hk, ih, answer_of_not_kept accepts o e hk]

/-- Along a run every removed request is answered 401, as long as the outcome is defined. -/
theorem reply_of_unauthorized {o : Option (ServeState W)} {es : List (Option HttpRequest)}
    {turn : Turn} (hturn : turn ∈ turnsOf (some accepts) o es) (hreq : turn.request = some req)
    (h : UnauthorizedPost accepts req) :
    turn.reply = some ⟨sendUnauthorized, none⟩ ∨
      turn.reply = none ∧ exec (answer (some accepts)) o es = none := by
  induction es generalizing o with
  | nil => simp at hturn
  | cons e es ih =>
    rcases mem_cons.mp hturn with rfl | htail
    · obtain rfl : e = some req := hreq
      simp only [exec_cons, answer_unauthorized accepts h]
      cases o with
      | none => exact .inr ⟨rfl, exec_answer_none _ es⟩
      | some st => exact .inl rfl
    · exact ih htail

variable (srv : Server W) (sessions : Pool Session)

theorem events_of_turns {auth : Option (Bytes → Bool)} {reads : List Bytes}
    {reqs : List HttpRequest}
    (h : (serveLoop auth srv sessions reads).2.turns.map Turn.request = reqs.map some) :
    events reads = reqs.map some := by
  rwa [serveLoop_eq, map_request_turnsOf] at h

/-- A run over some requests, and one without the POSTs that have no accepted token, end in the same
state; the replies to the requests that are left are the same, and each removed POST is answered 401
without a call into the server. -/
theorem unauthorized_posts_removable {reads reads' : List Bytes} {reqs : List HttpRequest}
    (hreqs : (serveLoop (some accepts) srv sessions reads).2.turns.map Turn.request = reqs.map some)
    (hkept : (serveLoop (some accepts) srv sessions reads').2.turns.map Turn.request =
      (reqs.filter (kept accepts)).map some) :
    (serveLoop (some accepts) srv sessions reads').2.state =
        (serveLoop (some accepts) srv sessions reads).2.state ∧
      (serveLoop (some accepts) srv sessions reads').2.turns =
        (serveLoop (some accepts) srv sessions reads).2.turns.filter
          (fun turn => keptEvent accepts turn.request) ∧
      ∀ turn ∈ (serveLoop (some accepts) srv sessions reads).2.turns, ∀ req,
        turn.request = some req → UnauthorizedPost accepts req →
          turn.reply = some ⟨sendUnauthorized, none⟩ ∧ RespondsWith 401 sendUnauthorized ∨
            turn.reply = none ∧ (serveLoop (some accepts) srv sessions reads).2.state = none := by
  have hevents : events reads' = (events reads).filter (keptEvent accepts) := by
    rw [events_of_turns srv sessions hreqs, events_of_turns srv sessions hkept, filter_map]
    rfl
  simp only [serveLoop_eq, hevents]
  refine ⟨exec_filter (answer_of_not_kept accepts) _ _, turnsOf_filter accepts _ _, ?_⟩
  intro turn hturn req hreq h
  exact (reply_of_unauthorized accepts hturn hreq h).imp_left fun hreply =>
    ⟨hreply, respondsWith_sendUnauthorized⟩

end Removal

def acceptsSecret (token : Bytes) : Bool := token == "secret"

def getText : RequestText where
  bytes := "GET / HTTP/1.1\r\n\r\n"
  request := ⟨.get, "/", [], []⟩
  accepted := by decide +kernel
  exact := by decide +kernel
  small := by decide +kernel

theorem filter_kept_demo :
    ([getText, discoverText].map RequestText.request).filter (kept acceptsSecret) =
      [getText].map RequestText.request := by
  decide +kernel

/-- A POST without a token behind a GET: the run is the one with the GET alone. -/
theorem unauthorized_discover_removed :
    UnauthorizedPost acceptsSecret discoverText.request ∧
      (@serveLoop _ unitLibc (some acceptsSecret) bareServer .empty [getText.bytes]).2.state =
        (@serveLoop _ unitLibc (some acceptsSecret) bareServer .empty
          [getText.bytes, discoverText.bytes]).2.state := by
  have hreqs := @map_request_serveLoop_bytes _ unitLibc (some acceptsSecret) bareServer .empty
    [getText, discoverText]
  have hkept := @map_request_serveLoop_bytes _ unitLibc (some acceptsSecret) bareServer .empty
    [getText]
  refine ⟨by decide +kernel, (@unauthorized_posts_removable _ unitLibc acceptsSecret bareServer
    .empty _ _ _ hreqs ?_).1⟩
  rwa [filter_kept_demo]

end Mcpkit.Transport
