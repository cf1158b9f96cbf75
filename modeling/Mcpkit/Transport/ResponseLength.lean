import Mcpkit.Transport.ContentLength
import Mcpkit.Transport.HttpMetadata
import Mcpkit.Transport.RequestText
import Mcpkit.Transport.ServeLoop

/-!
# The length of a response

Every response of the serve loop is made by `mcp_http_response_serialize`, which
writes a `Content-Length` header behind the headers that the sender has set.
The senders set none of their own, but for one: `send_unauthorized` sets the
length to 0, so that a refused request is answered with two of them.
-/

namespace Mcpkit.Transport

open Json Protocol Async List Decimal

variable {W : Type}

/-- The header block has one `Content-Length`, and it is the number of bytes behind the block. -/
def AnnouncesBody (resp : Bytes) : Prop :=
  ∃ hsEnd line, findHeadersEnd resp = some hsEnd ∧ lengthLines resp = [line] ∧
    line.value = unsignedDecimal (resp.drop (hsEnd + 4)).length

/-- The final response announces its body; in front of it there may be an interim response. -/
def FinalAnnounces (written : Bytes) : Prop :=
  ∃ before resp, (before = [] ∨ before = text "HTTP/1.1 100 Continue\r\n\r\n") ∧
    written = before ++ resp ∧ AnnouncesBody resp

variable {ls : List Bytes} {reason : String} {status : Nat} {resp : Bytes}

theorem headerLines_intercalate {l : Bytes} (hne : ls ≠ [])
    (hls : ∀ l' ∈ l :: ls, l' ≠ [] ∧ Unbroken l') (body : Bytes) :
    headerLines (crlf.intercalate (l :: ls) ++ (crlfCrlf ++ body)) = ls.map HeaderLine.ofLine := by
  obtain ⟨⟨-, hl⟩, hls'⟩ := forall_mem_cons.mp hls
  have hend := findHeadersEnd_lines (cons_ne_nil l ls) hls body
  have hblock : crlf.intercalate (l :: ls) = l ++ crlf ++ crlf.intercalate ls := by
    rw [intercalate_cons_of_ne_nil hne]
  have hline : findCrlf (crlf.intercalate (l :: ls) ++ (crlfCrlf ++ body)) = some l.length := by
    rw [hblock, append_assoc, append_assoc, hl.findCrlf_append]
  rw [headerLines, hend, hline]
  dsimp only
  rw [take_left, hblock, show l.length + 2 = (l ++ crlf).length by simp [crlf], drop_left,
    blockLines_intercalate hls' (Nat.lt_succ_self _)]

def setLine (h : String × Bytes) : Bytes := text h.1 ++ text ": " ++ h.2

theorem mcpHttpResponseSerialize_eq (resp : HttpResponse) :
    mcpHttpResponseSerialize resp =
      crlf.intercalate ((statusLine resp.status ++ text resp.reason) :: resp.headers.map setLine ++
        [setLine ("Content-Length", unsignedDecimal resp.body.length)]) ++
      (crlfCrlf ++ resp.body) := by
  have hlength : text "Content-Length: " = text "Content-Length" ++ text ": " := by decide
  have hheaders : resp.headers.flatMap (fun h => text h.1 ++ text ": " ++ h.2 ++ crlf) =
      (resp.headers.map setLine).flatMap (· ++ crlf) := by
    rw [flatMap_map]
    rfl
  rw [mcpHttpResponseSerialize, hheaders, hlength, show crlfCrlf = crlf ++ crlf from rfl,
    append_assoc crlf, ← append_assoc (intercalate _ _), cons_append, RequestText.intercalate_crlf,
    flatMap_append, flatMap_singleton, statusLine, setLine]
  simp

theorem ofLine_setLine {h : String × Bytes} (hcolon : 0x3A ∉ text h.1) :
    HeaderLine.ofLine (setLine h) = ⟨trim (text h.1), trim (0x20 :: h.2)⟩ := by
  have hall : ∀ c ∈ text h.1, decide (c ≠ 0x3A) = true :=
    fun c hc => decide_eq_true fun heq => hcolon (heq ▸ hc)
  have hhead : HeadIs (fun c => !decide (c ≠ 0x3A)) (0x3A :: 0x20 :: h.2) := headIs_cons.mpr rfl
  have hline : setLine h = text h.1 ++ 0x3A :: 0x20 :: h.2 := append_assoc _ _ _
  rw [HeaderLine.ofLine, behindColon, hline, takeWhile_of_all hall hhead,
    dropWhile_of_all hall hhead]
  rfl

/-- A header that is not taken for the length of the body. -/
structure Harmless (h : String × Bytes) : Prop where
  colon : 0x3A ∉ text h.1
  name : isLengthName (trim (text h.1)) = false
  line : OneLine (setLine h)

theorem announcesBody_serialize {resp : HttpResponse}
    (hstatus : OneLine (statusLine resp.status ++ text resp.reason))
    (hheaders : ∀ h ∈ resp.headers, Harmless h) (hbody : (0 : UInt8) ∉ resp.body) :
    AnnouncesBody (cString (mcpHttpResponseSerialize resp)) := by
  have hsetLine : ∀ h, setLine h ≠ [] := by
    intro h hnil
    rw [setLine, append_eq_nil_iff, append_eq_nil_iff] at hnil
    exact absurd hnil.1.2 (by decide)
  have hlines : ∀ l ∈ (statusLine resp.status ++ text resp.reason) :: (resp.headers.map setLine ++
      [setLine ("Content-Length", unsignedDecimal resp.body.length)]), l ≠ [] ∧ OneLine l := by
    rw [forall_mem_cons, forall_mem_append, forall_mem_map, forall_mem_singleton]
    refine ⟨⟨append_ne_nil_of_left_ne_nil ?_ _, hstatus⟩,
      fun h hh => ⟨hsetLine h, (hheaders h hh).line⟩, hsetLine _,
      (show OneLine (text "Content-Length" ++ text ": ") by decide).append
        (oneLine_unsignedDecimal _)⟩
    rw [statusLine, append_assoc]
    exact append_ne_nil_of_left_ne_nil (by decide) _
  have hbroken := fun l hl => And.imp_right OneLine.unbroken (hlines l hl)
  have hzero : (0 : UInt8) ∉ mcpHttpResponseSerialize resp := by
    rw [mcpHttpResponseSerialize_eq, cons_append, mem_append, mem_append, not_or, not_or]
    exact ⟨RequestText.zero_notMem_intercalate fun l hl => (hlines l hl).2.zero_notMem,
      by decide, hbody⟩
  have hother : ((resp.headers.map setLine).map HeaderLine.ofLine).filter
      (fun l => isLengthName l.name) = [] := by
    rw [filter_eq_nil_iff, map_map, forall_mem_map]
    intro h hh
    rw [Function.comp_apply, ofLine_setLine (hheaders h hh).colon]
    exact Bool.eq_false_iff.mp (hheaders h hh).name
  rw [cString_of_notMem hzero, mcpHttpResponseSerialize_eq, cons_append]
  refine ⟨_, ⟨trim "Content-Length", unsignedDecimal resp.body.length⟩,
    findHeadersEnd_lines (cons_ne_nil _ _) hbroken _, ?_, ?_⟩
  · rw [lengthLines, headerLines_intercalate (by simp) hbroken, map_append, filter_append, hother,
      map_singleton, ofLine_setLine (show 0x3A ∉ text "Content-Length" by decide),
      trim_unsignedDecimal]
    rfl
  · rw [← append_assoc, drop_left' (by rw [length_append]; rfl)]

theorem announcesBody_sendBytes {ctype : Option String} {body : Bytes}
    {extra : Option (String × Bytes)} (hstatus : OneLine (statusLine status ++ text reason))
    (hctype : ∀ t ∈ ctype, OneLine (setLine ("Content-Type", text t)))
    (hextra : ∀ h ∈ extra, Harmless h) (hbody : (0 : UInt8) ∉ body) :
    AnnouncesBody (sendBytes status reason ctype body extra) := by
  apply announcesBody_serialize hstatus _ hbody
  intro h hh
  rcases mem_append.mp hh with hh | hh
  · obtain ⟨t, ht, rfl⟩ := Option.map_eq_some_iff.mp (Option.mem_toList.mp hh)
    exact ⟨show 0x3A ∉ text "Content-Type" by decide,
      show isLengthName (trim "Content-Type") = false by decide, hctype t ht⟩
  · exact hextra h (Option.mem_toList.mp hh)

theorem announcesBody_sendStatus (hstatus : OneLine (statusLine status ++ text reason)) :
    AnnouncesBody (sendStatus status reason) :=
  announcesBody_sendBytes hstatus (fun _ h => by cases h) (fun _ h => by cases h) not_mem_nil

theorem announcesBody_badRequest : AnnouncesBody badRequest := announcesBody_sendStatus (by decide)

theorem AnnouncesBody.final (h : AnnouncesBody resp) : FinalAnnounces resp :=
  ⟨[], resp, .inl rfl, rfl, h⟩

theorem AnnouncesBody.interim (h : AnnouncesBody resp) (req : HttpRequest) :
    FinalAnnounces (interim req ++ resp) :=
  ⟨_, resp, interim_eq req, rfl, h⟩

theorem harmless_sessionId (n : UInt32) : Harmless ("Mcp-Session-Id", sessionId n) where
  colon := show 0x3A ∉ text "Mcp-Session-Id" by decide
  name := show isLengthName (trim "Mcp-Session-Id") = false by decide
  line := (show OneLine (text "Mcp-Session-Id" ++ text ": ") by decide).append
    ((show OneLine "sess-" by decide).append (oneLine_unsignedDecimal _))

theorem not_finalAnnounces_sendUnauthorized : ¬FinalAnnounces sendUnauthorized := by
  rintro ⟨before, resp, rfl | rfl, hwritten, hsEnd, line, -, hone, -⟩
  · rw [← nil_append resp, ← hwritten] at hone
    have hlength : (lengthLines sendUnauthorized).length = 1 := congrArg length hone
    exact absurd hlength (by decide +kernel)
  · have htake := congrArg (take 10) hwritten
    rw [take_append_of_le_length (by decide)] at htake
    exact absurd htake (by decide)

section

variable [Libc]

theorem announcesBody_sendRpcError (msg : Message) (code : Int32) (message : String) :
    AnnouncesBody (sendRpcError msg code message) := by
  rw [sendRpcError]
  split
  · exact announcesBody_badRequest
  · refine announcesBody_sendBytes (by decide) (fun t ht => ?_) (fun _ hh => by cases hh)
      (zero_notMem_cString _)
    cases ht
    decide

variable {newId : Option Bytes}

theorem announcesBody_callResponse (hnew : ∀ id ∈ newId, ∃ n, id = sessionId n) (call : Call)
    (result : Except Status (Option Message)) : AnnouncesBody (callResponse newId call result) := by
  rw [callResponse.eq_def]
  split
  · exact announcesBody_sendStatus (by decide)
  · refine announcesBody_sendBytes (by decide) (fun t ht => ?_) (fun h hh => ?_)
      (zero_notMem_cString _)
    · cases ht
      decide
    · obtain ⟨id, hid, rfl⟩ := Option.map_eq_some_iff.mp hh
      obtain ⟨n, rfl⟩ := hnew id hid
      exact harmless_sessionId n
  · exact announcesBody_sendStatus (by decide)

variable {auth : Option (Bytes → Bool)} {st st' : ServeState W} {req : HttpRequest} {reply : Reply}

theorem finalAnnounces_serveOn {sess : Nat} {msg : Message}
    (hnew : ∀ id ∈ newId, ∃ n, id = sessionId n)
    (h : serveOn st sess req msg newId = some (st', reply)) : FinalAnnounces reply.written := by
  rw [serveOn] at h
  split at h <;> cases h
  exact (announcesBody_callResponse hnew _ _).interim req

theorem finalAnnounces_handlePost (hauth : authorized auth req = true)
    (h : handlePost auth st req = some (st', reply)) : FinalAnnounces reply.written := by
  rw [handlePost] at h
  split at h
  next response herror =>
    cases h
    rw [postMessage, hauth] at herror
    split at herror
    next hnot => cases hnot
    split at herror
    · cases herror
      exact announcesBody_badRequest.final
    split at herror
    · cases herror
      exact announcesBody_badRequest.interim req
    split at herror
    · cases herror
      exact announcesBody_badRequest.interim req
    split at herror <;> cases herror
    exact (announcesBody_sendRpcError _ _ _).interim req
  next msg _ =>
    dsimp only at h
    split at h
    next response hchoice =>
      cases h
      rw [chooseSession] at hchoice
      repeat' first | cases hchoice | split at hchoice
      all_goals exact (announcesBody_sendStatus (by decide)).interim req
    · exact finalAnnounces_serveOn (fun _ hid => by cases hid) h
    · exact finalAnnounces_serveOn (fun id hid => ⟨_, (Option.some.inj hid).symm⟩) h
    · exact finalAnnounces_serveOn (fun _ hid => by cases hid) h

/-- A POST without an accepted token. -/
def Refused (auth : Option (Bytes → Bool)) (e : Option HttpRequest) : Prop :=
  ∃ req ∈ e, req.method = .post ∧ authorized auth req = false

theorem finalAnnounces_handleRequest (hkept : ¬Refused auth (some req))
    (h : handleRequest auth st req = some (st', reply)) : FinalAnnounces reply.written := by
  rw [handleRequest] at h
  split at h
  next hpost =>
    refine finalAnnounces_handlePost ?_ h
    exact Bool.of_not_eq_false fun hfalse => hkept ⟨req, rfl, hpost, hfalse⟩
  · cases h
    rw [handleGet]
    repeat' split
    · exact (announcesBody_sendStatus (by decide)).final
    · exact (announcesBody_sendStatus (by decide)).final
    · refine (announcesBody_sendBytes (by decide) (fun t ht => ?_) (fun _ hh => by cases hh)
        (by decide)).final
      cases ht
      decide
  · cases h
    rw [handleDelete]
    split <;> exact (announcesBody_sendStatus (by decide)).final
  · cases h
    exact (announcesBody_sendStatus (by decide)).final

theorem answer_announces_iff {o : Option (ServeState W)} {e : Option HttpRequest}
    (h : (answer auth o e).2 = some reply) : FinalAnnounces reply.written ↔ ¬Refused auth e := by
  cases o with
  | none => cases e <;> cases h
  | some st =>
    cases e with
    | none =>
      cases h
      exact iff_of_true announcesBody_badRequest.final (by rintro ⟨req, hreq, -⟩; cases hreq)
    | some req =>
      rw [answer, serveTurn] at h
      split at h
      · cases h
      next st' reply' hreply =>
        cases h
        constructor
        · rintro hannounces ⟨req, hreq, hpost, hauth⟩
          cases hreq
          simp only [handleRequest, hpost, handlePost, postMessage, hauth] at hreply
          cases hreply
          exact not_finalAnnounces_sendUnauthorized hannounces
        · exact fun hkept => finalAnnounces_handleRequest hkept hreply

/-- In every run of the loop the response to a request has one `Content-Length`, and it is the
length of the body, exactly if the request was not refused for its token. -/
theorem serveLoop_announces_iff (srv : Server W) (sessions : Pool Session) (reads : List Bytes)
    (turn : Turn) (hturn : turn ∈ (serveLoop auth srv sessions reads).2.turns)
    (hreply : turn.reply = some reply) :
    FinalAnnounces reply.written ↔ ¬Refused auth turn.request := by
  rw [serveLoop_eq] at hturn
  dsimp only at hturn
  generalize startState srv sessions = o, events reads = es at hturn
  induction es generalizing o with
  | nil => cases hturn
  | cons e es ih =>
    rcases mem_cons.mp hturn with rfl | htail
    · exact answer_announces_iff hreply
    · exact ih _ htail

end

theorem serveLoop_announces_get : FinalAnnounces (sendStatus 405 "Method Not Allowed") := by
  have hevents : events ["GET / HTTP/1.1\r\n\r\n"] = [some ⟨.get, "/", [], []⟩] := by
    decide +kernel
  refine (@serveLoop_announces_iff _ unitLibc none ⟨_, none⟩ bareServer .empty
    ["GET / HTTP/1.1\r\n\r\n"] ⟨some ⟨.get, "/", [], []⟩, some _⟩ ?_ rfl).mpr ?_
  · rw [@serveLoop_eq, hevents]
    exact mem_cons_self
  · rintro ⟨req, hreq, hpost, -⟩
    cases hreq
    cases hpost

/-- A POST without a token is answered with two lengths. -/
theorem serveLoop_unauthorized_lengths :
    ∃ reply, (@answer _ unitLibc (some fun _ => false) (startState bareServer .empty)
      (some ⟨.post, "/", [], "x"⟩)).2 = some reply ∧ ¬FinalAnnounces reply.written :=
  ⟨⟨sendUnauthorized, none⟩, rfl, not_finalAnnounces_sendUnauthorized⟩

end Mcpkit.Transport
