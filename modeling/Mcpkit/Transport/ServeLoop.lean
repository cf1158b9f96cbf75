import Mcpkit.Lib.Framing
import Mcpkit.Transport.StreamableHttp

/-!
# The serve loop of the HTTP endpoint

The loop appends each read to a carry buffer.  Once the buffer holds a blank line it runs the
request parser, answers the request and keeps the bytes behind it.  When the parser fails the loop
answers 400 and drops the whole buffer.

The parser also fails on a request whose body has not arrived yet, so a request survives being cut
into reads only where the cut is not inside its body.  A read may bring any number of bytes here,
and none at the end of the stream.
-/

namespace Mcpkit.Transport

open Json Protocol List Machine Nat

variable {W : Type}

def carryMax : Nat := mcpHttpMaxBody + 65536

/-- What the loop finds at the front of the carry buffer. -/
def scanCarry (carry : Bytes) : Framing.Scan HttpRequest :=
  match findHeadersEnd carry with
  | none => .more
  | some hs =>
    match mcpHttpParseRequest carry with
    | none => .bad
    | some req =>
      let consumed := hs + 4 + req.body.length
      if carry.length < consumed then .more else .item req consumed

/-- One answer of the loop: the request, or `none` for a buffer that was dropped, and the reply,
or `none` once the outcome is undefined. -/
structure Turn where
  request : Option HttpRequest
  reply : Option Reply

/-- What a run of the loop has done so far. -/
structure Serving (W : Type) where
  state : Option (ServeState W)
  turns : List Turn

def Serving.handled (sv : Serving W) : List HttpRequest := sv.turns.filterMap Turn.request

/-- The bytes written, unless the outcome became undefined. -/
def Serving.written (sv : Serving W) : Option Bytes :=
  ((sv.turns.map Turn.reply).mapM id).map fun replies => replies.flatMap Reply.written

/-- The answer to a request or to a buffer that cannot be parsed. -/
def answer [Libc] (auth : Option (Bytes → Bool)) (o : Option (ServeState W)) :
    Option HttpRequest → Option (ServeState W) × Option Reply
  | some req => serveTurn auth o req
  | none => (o, o.map fun _ => ⟨badRequest, none⟩)

def Serving.answer [Libc] (auth : Option (Bytes → Bool)) (sv : Serving W)
    (e : Option HttpRequest) : Serving W :=
  let r := Transport.answer auth sv.state e
  ⟨r.1, sv.turns ++ [⟨e, r.2⟩]⟩

/-- The inner loop: answer what the buffer holds until it needs more bytes. -/
def drainCarry [Libc] (auth : Option (Bytes → Bool)) :
    Nat → Bytes → Serving W → Bytes × Serving W
  | 0, carry, sv => (carry, sv)
  | fuel + 1, carry, sv =>
    match scanCarry carry with
    | .more => (carry, sv)
    | .bad => ([], sv.answer auth none)
    | .item req consumed => drainCarry auth fuel (carry.drop consumed) (sv.answer auth (some req))

/-- The outer loop; the stream ends after the last read. -/
def serveReads [Libc] (auth : Option (Bytes → Bool)) :
    List Bytes → Bytes → Serving W → Status × Serving W
  | [], carry, sv =>
    let now := drainCarry auth (carry.length + 1) carry sv
    if carryMax ≤ now.1.length then (.protocol, now.2)
    else (if now.1 = [] then .ok else .io, now.2)
  | read :: reads, carry, sv =>
    let now := drainCarry auth (carry.length + 1) carry sv
    if carryMax ≤ now.1.length then (.protocol, now.2)
    else serveReads auth reads (now.1 ++ read) now.2

/-- `http_serve_impl` up to the label `done`.  A read of no bytes ends the stream. -/
def serveLoop [Libc] (auth : Option (Bytes → Bool)) (srv : Server W) (sessions : Pool Session)
    (reads : List Bytes) : Status × Serving W :=
  serveReads auth (reads.takeWhile (· ≠ [])) [] ⟨some ⟨srv, sessions, .initial⟩, []⟩

/-- The sessions left in the table are destroyed at the label `done`. -/
def closeTable (st : ServeState W) : ServeState W :=
  (List.finRange mcpHttpMaxSessions).foldl (fun st i =>
    match st.table.slots i with
    | none => st
    | some slot =>
      { st with sessions := st.sessions.free slot.sess, table := st.table.release i }) st

def httpServeImpl [Libc] (auth : Option (Bytes → Bool)) (srv : Server W) (sessions : Pool Session)
    (reads : List Bytes) : Status × Serving W :=
  let r := serveLoop auth srv sessions reads
  (r.1, { r.2 with state := r.2.state.map closeTable })

def statusOf : Framing.End UInt8 → Status
  | .overflow => .protocol
  | .eof rest => if rest = [] then .ok else .io

section Events

variable [Libc] (auth : Option (Bytes → Bool))

theorem drainCarry_eq (fuel : Nat) (carry : Bytes) (sv : Serving W) :
    drainCarry auth fuel carry sv =
      ((Framing.drain scanCarry fuel carry).2,
        (Framing.drain scanCarry fuel carry).1.foldl (Serving.answer auth) sv) := by
  induction fuel generalizing carry sv with
  | zero => rfl
  | succ fuel ih =>
    unfold drainCarry Framing.drain
    cases scanCarry carry with
    | more | bad => rfl
    | item req consumed => exact ih _ _

theorem serveReads_eq (reads : List Bytes) (carry : Bytes) (sv : Serving W) :
    serveReads auth reads carry sv =
      (statusOf (Framing.feed scanCarry carryMax reads carry).2,
        (Framing.feed scanCarry carryMax reads carry).1.foldl (Serving.answer auth) sv) := by
  induction reads generalizing carry sv with
  | nil =>
    unfold serveReads Framing.feed
    rw [drainCarry_eq]
    dsimp only
    split <;> rfl
  | cons read reads ih =>
    unfold serveReads Framing.feed
    rw [drainCarry_eq]
    dsimp only
    split
    · rfl
    · rw [ih, foldl_append]

def turnsOf (o : Option (ServeState W)) (es : List (Option HttpRequest)) : List Turn :=
  List.zipWith Turn.mk es (outputs (answer auth) o es)

@[simp] theorem turnsOf_nil (o : Option (ServeState W)) : turnsOf auth o [] = [] := rfl

@[simp] theorem turnsOf_cons (o : Option (ServeState W)) (e : Option HttpRequest)
    (es : List (Option HttpRequest)) :
    turnsOf auth o (e :: es) = ⟨e, (answer auth o e).2⟩ :: turnsOf auth (answer auth o e).1 es :=
  rfl

theorem map_request_turnsOf (o : Option (ServeState W)) (es : List (Option HttpRequest)) :
    (turnsOf auth o es).map Turn.request = es := by
  induction es generalizing o with
  | nil => rfl
  | cons e es ih => simp [ih]

theorem map_reply_turnsOf (o : Option (ServeState W)) (es : List (Option HttpRequest)) :
    (turnsOf auth o es).map Turn.reply = outputs (answer auth) o es := by
  induction es generalizing o with
  | nil => rfl
  | cons e es ih => simp [ih]

theorem foldl_answer (es : List (Option HttpRequest)) (sv : Serving W) :
    es.foldl (Serving.answer auth) sv =
      ⟨exec (answer auth) sv.state es, sv.turns ++ turnsOf auth sv.state es⟩ := by
  induction es generalizing sv with
  | nil => simp
  | cons e es ih =>
    rw [foldl_cons, ih]
    simp [Serving.answer]

theorem exec_answer_some (o : Option (ServeState W)) (reqs : List HttpRequest) :
    exec (answer auth) o (reqs.map some) = exec (serveTurn auth) o reqs := by
  induction reqs generalizing o with
  | nil => rfl
  | cons req reqs ih => exact ih _

end Events

def headLength (bytes : Bytes) : Nat := (findHeadersEnd bytes).getD 0 + 4

structure RequestText where
  bytes : Bytes
  request : HttpRequest
  accepted : mcpHttpParseRequest bytes = some request
  exact : headLength bytes + request.body.length = bytes.length
  small : bytes.length < carryMax

theorem scanCarry_of_parse {carry : Bytes} {req : HttpRequest} {hs : Nat}
    (hhs : findHeadersEnd carry = some hs) (h : mcpHttpParseRequest carry = some req) :
    scanCarry carry = .item req (hs + 4 + req.body.length) := by
  obtain ⟨hs', hhs', hle⟩ := exists_findHeadersEnd h
  obtain rfl := Option.some.inj (hhs.symm.trans hhs')
  unfold scanCarry
  simp only [hhs, h, if_neg (not_lt.mpr hle)]

theorem RequestText.framed (r : RequestText) :
    Framing.Framed scanCarry r.bytes r.request (headLength r.bytes) := by
  obtain ⟨hs, hhs, hle⟩ := exists_findHeadersEnd r.accepted
  have hhead : headLength r.bytes = hs + 4 := by simp [headLength, hhs]
  have hexact : hs + 4 + r.request.body.length = r.bytes.length := hhead ▸ r.exact
  rw [hhead]
  refine ⟨by omega, by omega, fun rest => ?_, fun part rest hpart hlt => ?_,
    fun part rest hpart hrest hge => ?_⟩
  · rw [← hexact]
    exact scanCarry_of_parse (firstOccurrence_append hhs rest)
      (mcpHttpParseRequest_append r.accepted rest)
  · unfold scanCarry
    rw [hpart] at hhs
    rw [findHeadersEnd, firstOccurrence_eq_none hhs hlt]
  have hfound : findHeadersEnd part = some hs := by
    refine firstOccurrence_left (t := rest) ?_ hge
    rwa [← hpart]
  have hfail : mcpHttpParseRequest part = none := by
    -- a request read from the part would be the one read from the whole
    by_contra hsome
    obtain ⟨req, hreq⟩ := Option.ne_none_iff_exists'.mp hsome
    have hwhole := mcpHttpParseRequest_append hreq rest
    rw [← hpart, r.accepted] at hwhole
    obtain rfl := Option.some.inj hwhole
    obtain ⟨hs', hhs', hle'⟩ := exists_findHeadersEnd hreq
    obtain rfl := Option.some.inj (hfound.symm.trans hhs')
    have hlen := congrArg List.length hpart
    have hpos := length_pos_iff.mpr hrest
    rw [length_append] at hlen
    omega
  simp only [scanCarry, hfound, hfail]

def RequestText.frame (r : RequestText) : Framing.Frame scanCarry where
  bytes := r.bytes
  value := r.request
  head := headLength r.bytes
  framed := r.framed

theorem RequestText.bytes_ne_nil (r : RequestText) : r.bytes ≠ [] :=
  length_pos_iff.mp r.frame.length_pos

theorem forall_bytes_ne_nil (rs : List RequestText) :
    ∀ read ∈ rs.map RequestText.bytes, read ≠ [] := by
  simpa using fun r _ => r.bytes_ne_nil

/-- Some read ends behind the header block of a request and before the end of its body. -/
def CutsBody (reads : List Bytes) (rs : List RequestText) : Prop :=
  Framing.CutsRest [] reads (rs.map RequestText.frame)

theorem stream_frame (rs : List RequestText) :
    Framing.stream (rs.map RequestText.frame) = rs.flatMap RequestText.bytes := by
  simp [Framing.stream, List.flatMap, RequestText.frame, Function.comp_def]

/-- The events of a list of reads, of which an empty one ends the stream. -/
def events (reads : List Bytes) : List (Option HttpRequest) :=
  (Framing.feed scanCarry carryMax (reads.takeWhile (· ≠ [])) []).1

theorem events_of_ne_nil {reads : List Bytes} (hne : ∀ read ∈ reads, read ≠ []) :
    events reads = (Framing.feed scanCarry carryMax reads []).1 := by
  have hall : reads.takeWhile (· ≠ []) = reads :=
    takeWhile_eq_self_iff.mpr fun read hread => by simpa using hne read hread
  rw [events, hall]

theorem carryMax_pos : 0 < carryMax := by decide

theorem small_of_mem_frame {rs : List RequestText} :
    ∀ m ∈ rs.map RequestText.frame, m.bytes.length < carryMax := by
  simpa [RequestText.frame] using fun r _ => r.small

section Stream

variable {reads : List Bytes} {rs : List RequestText} (hne : ∀ read ∈ reads, read ≠ [])
  (hreads : reads.flatten = rs.flatMap RequestText.bytes)

include hne hreads

theorem events_of_not_cutsBody (hcut : ¬CutsBody reads rs) :
    events reads = rs.map (some ·.request) := by
  have hfeed := (Framing.feed_spec (by rfl) carryMax_pos small_of_mem_frame
    (hreads.trans (stream_frame rs).symm)).resolve_right fun h => hcut h.1
  rw [events_of_ne_nil hne, hfeed.2]
  simp [RequestText.frame, Function.comp_def]

theorem none_mem_events (hcut : CutsBody reads rs) : none ∈ events reads := by
  rw [events_of_ne_nil hne]
  exact ((Framing.feed_spec (by rfl) carryMax_pos small_of_mem_frame
    (hreads.trans (stream_frame rs).symm)).resolve_left fun h => h.1 hcut).2

end Stream

theorem not_cutsBody_bytes (rs : List RequestText) :
    ¬CutsBody (rs.map RequestText.bytes) rs := by
  have h := Framing.not_cutsRest_bytes (rs.map RequestText.frame)
  rwa [map_map] at h

theorem events_bytes (rs : List RequestText) :
    events (rs.map RequestText.bytes) = rs.map (some ·.request) :=
  events_of_not_cutsBody (forall_bytes_ne_nil rs) rfl (not_cutsBody_bytes rs)

variable {e : Option HttpRequest}

section Count

variable [Libc] (auth : Option (Bytes → Bool))

def replyLength (reply : Option Reply) : Nat := (reply.map (·.written.length)).getD 0

theorem exec_answer_none (es : List (Option HttpRequest)) :
    exec (answer auth) (none : Option (ServeState W)) es = none := by
  induction es with
  | nil => rfl
  | cons e es ih => cases e <;> exact ih

theorem answer_of_isSome_false (o : Option (ServeState W)) (e : Option HttpRequest)
    (h : e.isSome = false) : (answer auth o e).1 = o := by
  rw [Option.isSome_eq_false_iff, Option.isNone_iff_eq_none] at h
  rw [h]
  rfl

variable {o : Option (ServeState W)} {es : List (Option HttpRequest)}

theorem exists_reply (h : (answer auth o e).1 ≠ none) :
    ∃ st reply, o = some st ∧ (answer auth o e).2 = some reply := by
  cases o with
  | none => cases e <;> exact absurd rfl h
  | some st =>
    cases e with
    | none => exact ⟨st, _, rfl, rfl⟩
    | some req =>
      simp only [answer, serveTurn] at h ⊢
      cases hreq : handleRequest auth st req with
      | none => simp [hreq] at h
      | some r => exact ⟨st, r.2, rfl, rfl⟩

theorem defined_of_cons (h : exec (answer auth) o (e :: es) ≠ none) :
    (answer auth o e).1 ≠ none := by
  intro hnone
  rw [exec_cons, hnone] at h
  exact h (exec_answer_none auth es)

theorem exists_replies (h : exec (answer auth) o es ≠ none) :
    ∃ replies : List Reply, outputs (answer auth) o es = replies.map some := by
  induction es generalizing o with
  | nil => exact ⟨[], rfl⟩
  | cons e es ih =>
    obtain ⟨replies, hreplies⟩ := ih h
    obtain ⟨-, reply, -, hreply⟩ := exists_reply auth (defined_of_cons auth h)
    exact ⟨reply :: replies, by rw [outputs_cons, hreplies, hreply]; rfl⟩

theorem sum_replyLength (h : exec (answer auth) o es ≠ none) :
    ((outputs (answer auth) o es).map replyLength).sum =
      ((outputs (answer auth) o (es.filter (·.isSome))).map replyLength).sum +
        es.count none * badRequest.length := by
  induction es generalizing o with
  | nil => rfl
  | cons e es ih =>
    obtain ⟨st, -, rfl, -⟩ := exists_reply auth (defined_of_cons auth h)
    have hlater := ih h
    cases e with
    | some req => simp [hlater, add_assoc]
    | none =>
      have hbad : replyLength (answer auth (some st) none).2 = badRequest.length := rfl
      simp only [outputs_cons, map_cons, sum_cons, hbad, hlater]
      rw [filter_cons_of_neg (by simp), count_cons_self, succ_mul]
      change _ + (((outputs (answer auth) (some st) _).map _).sum + _) = _
      omega

end Count

theorem filter_isSome_eq (es : List (Option HttpRequest)) :
    es.filter (·.isSome) = (es.filterMap id).map some := by
  induction es with
  | nil => rfl
  | cons e es ih => cases e <;> simp [ih]

theorem mapM_id_map_some (replies : List Reply) : (replies.map some).mapM id = some replies := by
  induction replies with
  | nil => rfl
  | cons reply replies ih => simp [ih]

section Cuts

variable [Libc] (auth : Option (Bytes → Bool)) (srv : Server W) (sessions : Pool Session)

def startState : Option (ServeState W) := some ⟨srv, sessions, .initial⟩

theorem serveLoop_eq (reads : List Bytes) :
    (serveLoop auth srv sessions reads).2 =
      ⟨exec (answer auth) (startState srv sessions) (events reads),
        turnsOf auth (startState srv sessions) (events reads)⟩ := by
  rw [serveLoop, serveReads_eq, foldl_answer]
  rfl

theorem map_request_serveLoop_bytes (rs : List RequestText) :
    (serveLoop auth srv sessions (rs.map RequestText.bytes)).2.turns.map Turn.request =
      (rs.map RequestText.request).map some := by
  rw [serveLoop_eq, map_request_turnsOf, events_bytes, map_map]
  rfl

theorem handled_serveLoop (reads : List Bytes) :
    (serveLoop auth srv sessions reads).2.handled = (events reads).filterMap id := by
  rw [serveLoop_eq, Serving.handled]
  conv => rhs; rw [← map_request_turnsOf auth (startState srv sessions) (events reads)]
  rw [filterMap_map]
  rfl

theorem length_written_serveLoop (reads : List Bytes)
    (h : exec (answer auth) (startState srv sessions) (events reads) ≠ none) :
    ∃ w, (serveLoop auth srv sessions reads).2.written = some w ∧
      w.length = ((outputs (answer auth) (startState srv sessions)
        (events reads)).map replyLength).sum := by
  obtain ⟨replies, hreplies⟩ := exists_replies auth h
  refine ⟨replies.flatMap Reply.written, ?_, ?_⟩
  · rw [serveLoop_eq, Serving.written, map_reply_turnsOf, hreplies, mapM_id_map_some]
    rfl
  · rw [hreplies, length_flatMap, map_map]
    rfl

theorem handled_httpServeImpl (reads : List Bytes) :
    (httpServeImpl auth srv sessions reads).2.handled =
      (serveLoop auth srv sessions reads).2.handled := rfl

theorem written_httpServeImpl (reads : List Bytes) :
    (httpServeImpl auth srv sessions reads).2.written =
      (serveLoop auth srv sessions reads).2.written := rfl

/-- The run handles the requests in order, each once, and writes what it writes when each
request arrives in a read of its own. -/
def ServedInOrder (reads : List Bytes) (rs : List RequestText) : Prop :=
  (httpServeImpl auth srv sessions reads).2.handled = rs.map RequestText.request ∧
    (httpServeImpl auth srv sessions reads).2.written =
      (httpServeImpl auth srv sessions (rs.map RequestText.bytes)).2.written

variable {reads : List Bytes} {rs : List RequestText}

/-- A run that hands over the requests and is longer than they are wrote more than they need. -/
theorem none_notMem_events
    (hdef : exec (serveTurn auth) (startState srv sessions)
      (rs.map RequestText.request) ≠ none)
    (h : ServedInOrder auth srv sessions reads rs) : none ∉ events reads := by
  have hhandled : (events reads).filter (·.isSome) = rs.map (some ·.request) := by
    rw [filter_isSome_eq, ← handled_serveLoop auth srv sessions]
    exact (congrArg (List.map some) h.1).trans (map_map ..)
  have hexec : exec (answer auth) (startState srv sessions) (rs.map (some ·.request)) ≠
      none := by
    have heq := exec_answer_some auth (startState srv sessions) (rs.map RequestText.request)
    rw [map_map] at heq
    exact fun hnone => hdef (heq.symm.trans hnone)
  have hexec' : exec (answer auth) (startState srv sessions) (events reads) ≠ none := by
    rwa [← exec_filter (answer_of_isSome_false auth), hhandled]
  obtain ⟨w, hw, hlen⟩ := length_written_serveLoop auth srv sessions reads hexec'
  obtain ⟨w', hw', hlen'⟩ := length_written_serveLoop auth srv sessions
    (rs.map RequestText.bytes) (by rw [events_bytes]; exact hexec)
  obtain rfl : w = w' := Option.some.inj (hw.symm.trans (h.2.trans hw'))
  rw [sum_replyLength auth hexec', hhandled] at hlen
  rw [events_bytes] at hlen'
  have hbad : 0 < badRequest.length := by decide
  have hcount : (events reads).count none * badRequest.length = 0 := by omega
  exact count_eq_zero.mp ((Nat.mul_eq_zero.mp hcount).resolve_right hbad.ne')

/-- The requests of a stream are served in order as long as no read ends inside a body; and only
then, unless they run into an undefined outcome. -/
theorem servedInOrder_iff_not_cutsBody (hne : ∀ read ∈ reads, read ≠ [])
    (hreads : reads.flatten = rs.flatMap RequestText.bytes) :
    (¬CutsBody reads rs → ServedInOrder auth srv sessions reads rs) ∧
      (exec (serveTurn auth) (startState srv sessions) (rs.map RequestText.request) ≠ none →
        ServedInOrder auth srv sessions reads rs → ¬CutsBody reads rs) := by
  refine ⟨fun hcut => ?_, fun hdef h hcut => ?_⟩
  · have hevents := events_of_not_cutsBody hne hreads hcut
    refine ⟨?_, ?_⟩
    · rw [handled_httpServeImpl, handled_serveLoop, hevents]
      simp
    · rw [written_httpServeImpl, written_httpServeImpl, serveLoop_eq, serveLoop_eq, events_bytes,
        hevents]
  · exact none_notMem_events auth srv sessions hdef h (none_mem_events hne hreads hcut)

end Cuts

def discoverBody : Bytes :=
  text "\x7b\"jsonrpc\":\"2.0\",\"id\":\"1\",\"method\":\"server/discover\"\x7d"

/-- A POST of `server/discover`: a header block of 39 bytes and a body of 53. -/
def discoverText : RequestText where
  bytes := text "POST / HTTP/1.1\r\nContent-Length: 53\r\n\r\n" ++ discoverBody
  request := ⟨.post, "/", [⟨"Content-Length", "53"⟩], discoverBody⟩
  accepted := by decide +kernel
  exact := by decide +kernel
  small := by decide +kernel

def discoverReads (n : Nat) : List Bytes := [discoverText.bytes.take n, discoverText.bytes.drop n]

theorem not_cutsBody_discoverReads : ¬CutsBody (discoverReads 20) [discoverText] := by
  rintro ⟨before, after, hreads, done, m, todo, hms, hhead, hend⟩
  obtain ⟨rfl, rfl, rfl⟩ : done = [] ∧ m = discoverText.frame ∧ todo = [] := by
    cases done <;> simp_all
  have hlen : discoverText.frame.head = 39 ∧ discoverText.frame.bytes.length = 92 := by
    decide +kernel
  rcases before with _ | ⟨a, _ | ⟨b, _ | ⟨c, before⟩⟩⟩
  · simp [hlen] at hhead
  · obtain ⟨ha, -⟩ := List.cons.inj hreads
    have hpos : (discoverText.bytes.take 20).length = 20 := by decide +kernel
    simp [← ha, hlen, hpos] at hhead
  · obtain ⟨ha, htail⟩ := List.cons.inj hreads
    obtain ⟨hb, -⟩ := List.cons.inj htail
    have hpos : discoverText.bytes.length = 92 := by decide +kernel
    simp [← ha, ← hb, hlen, hpos] at hend
  · simp [discoverReads] at hreads

/-- Cut inside the header block the request is served. -/
theorem served_discoverReads :
    @ServedInOrder _ unitLibc none bareServer .empty (discoverReads 20) [discoverText] :=
  (@servedInOrder_iff_not_cutsBody _ unitLibc none bareServer .empty _ _ (by decide +kernel)
    (by decide +kernel)).1 not_cutsBody_discoverReads

/-- Cut inside the body the request is not handled at all. -/
theorem not_served_discoverReads :
    (∀ read ∈ discoverReads 60, read ≠ []) ∧
      (discoverReads 60).flatten = [discoverText].flatMap RequestText.bytes ∧
      ¬@ServedInOrder _ unitLibc none bareServer .empty (discoverReads 60) [discoverText] := by
  have hne : ∀ read ∈ discoverReads 60, read ≠ [] := by decide +kernel
  refine ⟨hne, by decide +kernel, fun h => ?_⟩
  have hnone : (events (discoverReads 60)).filterMap id = [] := by decide +kernel
  have hhandled := h.1
  rw [@handled_httpServeImpl _ unitLibc, @handled_serveLoop _ unitLibc, hnone] at hhandled
  cases hhandled

end Mcpkit.Transport
