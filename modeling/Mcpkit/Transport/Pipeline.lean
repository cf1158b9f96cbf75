import Mcpkit.Transport.Upgrade

/-!
# Pipelined requests

Requests that arrive on one connection, one behind the other.  The server works on one at a time:
the next is taken up when the response has been written.

A refusal closes the connection once it has been written, but the refused request stays in the
buffer, so that bytes which arrive before that make the server answer it again.  Where this does not
happen, and no read finds the buffer full, the server writes one response to each request, in order,
up to the first refusal.
-/

namespace Mcpkit.Transport.Async

open Json Protocol List Machine

variable {W : Type}

/-- A request that asks neither for an upgrade nor for an event stream. -/
structure Plain (req : HttpRequest) : Prop where
  upgrade : wantsUpgrade req = false
  stream : req.method = .get →
    (mcpHttpHeader req "Accept").any (strstr · "text/event-stream") = false

theorem Plain.requestBranch_cases {req : HttpRequest} (h : Plain req) (cfg : Config)
    (shared : Shared) (onwards : Bytes) :
    (∃ code msg, requestBranch cfg shared req onwards = .error code msg) ∨
      ∃ shared' entry, requestBranch cfg shared req onwards = .dispatch shared' entry := by
  rw [requestBranch, if_neg (by rw [h.upgrade]; exact Bool.false_ne_true)]
  split
  next hget =>
    rw [getBranch, if_neg (by rw [h.stream hget]; exact Bool.false_ne_true)]
    exact .inl ⟨_, _, rfl⟩
  next hpost =>
    rw [postBranch]
    split
    · exact .inl ⟨_, _, rfl⟩
    split
    · split
      · exact .inr ⟨_, _, rfl⟩
      · exact .inl ⟨_, _, rfl⟩
    · split
      · exact .inl ⟨_, _, rfl⟩
      · exact .inr ⟨_, _, rfl⟩
  next => exact .inl ⟨_, _, rfl⟩

/-- A task that a request can become.  Which session it refers to depends on the sessions at the
time, and on the bytes behind the request in the buffer. -/
def IsTask (cfg : Config) (q : RequestText) (task : Task) : Prop :=
  ∃ shared onwards shared' entry,
    requestBranch cfg shared q.request (q.body ++ onwards) = .dispatch shared' entry ∧
      task = ⟨some entry.session, q.body, false, entry.id⟩

def pipeline (qs : List RequestText) : Bytes := (qs.map RequestText.bytes).flatten

section

variable [Libc]

/-- A response to a request: a refusal, or what a worker sends back. -/
inductive AnswersRequest (W : Type) (cfg : Config) (q : RequestText) : ResponseItem → Prop where
  | refusal {shared : Shared} {onwards : Bytes} {code : Nat} {msg : String}
      (h : requestBranch cfg shared q.request (q.body ++ onwards) = .error code msg) :
      AnswersRequest W cfg q ⟨State.httpError code msg, true⟩
  | reply {task : Task} (htask : IsTask cfg q task) (srv : Server W) (s : Session) {data : Bytes}
      (h : (workerDispatchFn srv s task).2.2 = some data) : AnswersRequest W cfg q ⟨data, false⟩

/-- One response to each request in order, up to the first one that closes the connection. -/
inductive Responses (W : Type) (cfg : Config) : List RequestText → List ResponseItem → Prop where
  | nil : Responses W cfg [] []
  | last {q : RequestText} {r : ResponseItem} (hr : AnswersRequest W cfg q r)
      (hclose : r.closeAfter = true) (qs : List RequestText) : Responses W cfg (q :: qs) [r]
  | cons {q : RequestText} {r : ResponseItem} (hr : AnswersRequest W cfg q r)
      (hkeep : r.closeAfter = false) {qs : List RequestText} {rs : List ResponseItem}
      (hrs : Responses W cfg qs rs) : Responses W cfg (q :: qs) (r :: rs)

end

/-- Bytes do not arrive while the response that closes the connection is on its way, nor when the
buffer is full. -/
def Unhindered (st : State) (ev : Event W) : Prop :=
  st.conn.detached = false → ∀ chunk, ev = .read chunk →
    State.growRead st.conn ≠ none ∧ st.conn.closing = false ∧
      ∀ item ∈ st.resp, item.closeAfter = false

instance (st : State) : (ev : Event W) → Decidable (Unhindered st ev)
  | .read chunk =>
    decidable_of_iff
      (st.conn.detached = false → State.growRead st.conn ≠ none ∧ st.conn.closing = false ∧
        ∀ item ∈ st.resp, item.closeAfter = false)
      ⟨fun h hopen _ _ => h hopen, fun h hopen => h hopen chunk rfl⟩
  | .write _ | .fail | .drain | .complete _ _ _ | .others _ => isTrue fun _ _ => nofun

/-- Nothing remains to be done: the connection is closed, or everything has arrived and no task and
no response is under way. -/
def Finished (later : Bytes) (st : State) : Prop :=
  st.conn.detached = true ∨
    later = [] ∧ st.tasks = [] ∧ st.resp = [] ∧ st.conn.writeBuf = none

/-- An open connection for requests, with the side of it that answers them. -/
structure Serving (cfg : Config) (flight : Bool) (writeBuf : Option Bytes) (closing : Bool)
    (resp : List ResponseItem) (tasks : List Task) (st : State) : Prop where
  cfg : st.cfg = cfg
  type : st.conn.type = .httpInit
  detached : st.conn.detached = false
  flight : st.conn.httpInFlight = flight
  writeBuf : st.conn.writeBuf = writeBuf
  closing : st.conn.closing = closing
  resp : st.resp = resp
  tasks : st.tasks = tasks

namespace Serving

variable {cfg : Config} {flight closing : Bool} {writeBuf : Option Bytes}
  {resp : List ResponseItem} {tasks : List Task} {st : State}
  (h : Serving cfg flight writeBuf closing resp tasks st)

include h

theorem received (cap : Nat) (chunk : Bytes) :
    Serving cfg flight writeBuf closing resp tasks (st.received cap chunk) :=
  ⟨h.cfg, h.type, h.detached, h.flight, h.writeBuf, h.closing, h.resp, h.tasks⟩

theorem others (shared : Shared) :
    Serving cfg flight writeBuf closing resp tasks { st with shared := shared } :=
  ⟨h.cfg, h.type, h.detached, h.flight, h.writeBuf, h.closing, h.resp, h.tasks⟩

theorem enqueueResponse (data : Bytes) (closeAfter : Bool) :
    Serving cfg flight writeBuf closing (resp ++ [⟨data, closeAfter⟩]) tasks
      (st.enqueueResponse data closeAfter) :=
  ⟨h.cfg, h.type, h.detached, h.flight, h.writeBuf, h.closing, congrArg (· ++ [_]) h.resp, h.tasks⟩

end Serving

section

variable [Libc]

/-- Where the connection stands: `todo` are the requests without a complete response, `later` the
bytes yet to arrive and `out` the responses before that.  The buffer holds what has arrived of the
requests behind the first one; beside a response that closes the connection it is of no interest. -/
inductive Phase (W : Type) (cfg : Config) :
    List RequestText → Bytes → Bytes → State → Prop where
  | waiting {todo : List RequestText} {later out : Bytes} {st : State}
      (h : Serving cfg false none false [] [] st) (hwait : scanRequest st.conn.readBuf = .wait)
      (hbuf : st.conn.readBuf ++ later = pipeline todo) (hout : st.written = out) :
      Phase W cfg todo later out st
  | working {q : RequestText} {task : Task} {todo : List RequestText} {later out : Bytes}
      {st : State} (h : Serving cfg true none false [] [task] st) (htask : IsTask cfg q task)
      (hbuf : st.conn.readBuf ++ later = pipeline todo) (hout : st.written = out) :
      Phase W cfg (q :: todo) later out st
  | queued {q : RequestText} {r : ResponseItem} {flight : Bool} {todo : List RequestText}
      {later out : Bytes} {st : State} (h : Serving cfg flight none false [r] [] st)
      (hr : AnswersRequest W cfg q r)
      (hkeep : r.closeAfter = false → flight = true ∧ st.conn.readBuf ++ later = pipeline todo)
      (hout : st.written = out) : Phase W cfg (q :: todo) later out st
  | writing {q : RequestText} {r : ResponseItem} {flight : Bool} {todo : List RequestText}
      {later out : Bytes} {st : State}
      (h : Serving cfg flight (some r.data) r.closeAfter [] [] st) (hr : AnswersRequest W cfg q r)
      (hkeep : r.closeAfter = false → flight = true ∧ st.conn.readBuf ++ later = pipeline todo)
      (hout : st.written = out ++ r.data.take st.conn.writeOff) :
      Phase W cfg (q :: todo) later out st

variable {cfg : Config} {todo : List RequestText} {later out : Bytes} {st : State}

theorem Phase.processAndSlide (h : Serving cfg false none false [] [] st)
    (htodo : ∀ q ∈ todo, q.WellFormed ∧ Plain q.request)
    (hbuf : st.conn.readBuf ++ later = pipeline todo) (hout : st.written = out) :
    Phase W cfg todo later out st.processAndSlide := by
  -- an incomplete request leaves the connection as it is
  have hstay : scanRequest st.conn.readBuf = .wait →
      Phase W cfg todo later out st.processAndSlide := by
    intro hwait
    rw [State.processAndSlide_of_wait hwait h.flight]
    exact .waiting h hwait hbuf hout
  cases todo with
  | nil =>
    apply hstay
    rw [(append_eq_nil_iff.mp hbuf).1]
    rfl
  | cons q todo =>
    obtain ⟨hq, hplain⟩ := htodo q mem_cons_self
    change _ = q.bytes ++ pipeline todo at hbuf
    rcases RequestText.part_or_whole hbuf with ⟨rest, hpart, hne⟩ | ⟨rest, hwhole, hrest⟩
    · exact hstay (RequestText.scanRequest_part hq hpart hne)
    have hscan : scanRequest st.conn.readBuf =
        .request q.head.length q.bytes.length q.request := by
      rw [hwhole]
      exact RequestText.scanRequest_bytes hq rest
    have honwards : st.conn.readBuf.drop q.head.length = q.body ++ rest := by
      rw [hwhole, RequestText.bytes, append_assoc, drop_left]
    rcases hplain.requestBranch_cases st.cfg st.shared (q.body ++ rest) with
      ⟨code, msg, herror⟩ | ⟨shared, entry, hdispatch⟩
    · rw [State.processAndSlide_of_error hscan (by rw [honwards]; exact herror) h.flight]
      have hanswer : AnswersRequest W cfg q ⟨State.httpError code msg, true⟩ :=
        .refusal (by rw [← h.cfg]; exact herror)
      refine .queued (h.enqueueResponse _ _) hanswer ?_ hout
      intro hkeep
      cases hkeep
    rw [State.processAndSlide_of_dispatch hscan (by rw [honwards]; exact hdispatch)]
    have htask : IsTask cfg q ⟨some entry.session, q.body, false, entry.id⟩ :=
      ⟨st.shared, rest, shared, entry, by rw [← h.cfg]; exact hdispatch, rfl⟩
    refine .working ?_ htask ?_ hout
    · exact ⟨h.cfg, h.type, h.detached, rfl, h.writeBuf, h.closing, h.resp,
        congrArg (· ++ [_]) h.tasks⟩
    · change st.conn.readBuf.drop q.bytes.length ++ later = pipeline todo
      rwa [hwhole, drop_left]

theorem Phase.onRead {chunk : Bytes} (h : Phase W cfg todo (chunk ++ later) out st)
    (htodo : ∀ q ∈ todo, q.WellFormed ∧ Plain q.request)
    (hroom : State.growRead st.conn ≠ none) (hclosing : st.conn.closing = false)
    (hresp : ∀ item ∈ st.resp, item.closeAfter = false) :
    Phase W cfg todo later out (st.onRead chunk) := by
  -- the bytes move from those to come to those in the buffer
  have hkept : ∀ {rest : List RequestText} (cap : Nat),
      st.conn.readBuf ++ (chunk ++ later) = pipeline rest →
        (st.received cap chunk).conn.readBuf ++ later = pipeline rest := by
    intro rest cap hbuf
    rw [← hbuf, ← append_assoc]
    rfl
  cases h with
  | waiting h hwait hbuf hout =>
    obtain ⟨cap, hread⟩ := State.onRead_of_httpInit h.type hroom chunk
    rw [hread, h.flight]
    exact Phase.processAndSlide (h.received cap chunk) htodo (hkept cap hbuf) hout
  | working h htask hbuf hout =>
    obtain ⟨cap, hread⟩ := State.onRead_of_httpInit h.type hroom chunk
    rw [hread, h.flight]
    exact .working (h.received cap chunk) htask (hkept cap hbuf) hout
  | @queued q r flight todo _ _ _ h hr hkeep hout =>
    obtain ⟨hflight, hbuf⟩ := hkeep (hresp r (by rw [h.resp]; exact mem_singleton_self r))
    obtain ⟨cap, hread⟩ := State.onRead_of_httpInit h.type hroom chunk
    rw [hread, h.flight, hflight]
    exact .queued (h.received cap chunk) hr (fun _ => ⟨hflight, hkept cap hbuf⟩) hout
  | writing h hr hkeep hout =>
    obtain ⟨hflight, hbuf⟩ := hkeep (by rw [← h.closing]; exact hclosing)
    obtain ⟨cap, hread⟩ := State.onRead_of_httpInit h.type hroom chunk
    rw [hread, h.flight, hflight]
    exact .writing (h.received cap chunk) hr (fun _ => ⟨hflight, hkept cap hbuf⟩) hout

theorem Phase.drainResponses (h : Phase W cfg todo later out st) :
    Phase W cfg todo later out st.drainResponses := by
  cases h with
  | waiting h hwait hbuf hout =>
    rw [State.drainResponses_of_nil h.resp]
    exact .waiting h hwait hbuf hout
  | working h htask hbuf hout =>
    rw [State.drainResponses_of_nil h.resp]
    exact .working h htask hbuf hout
  | @queued q r flight todo _ _ _ h hr hkeep hout =>
    have hdrain : st.drainResponses =
        { st with
          resp := []
          conn := { st.conn with
            writeBuf := some r.data, writeOff := 0, closing := r.closeAfter } } := by
      rw [State.drainResponses, h.resp, foldl_cons, foldl_nil, State.drainItem,
        if_neg (by rw [h.detached]; exact Bool.false_ne_true), h.writeBuf]
      dsimp only
      rw [h.closing, Bool.false_or]
    rw [hdrain]
    refine .writing ⟨h.cfg, h.type, h.detached, h.flight, rfl, rfl, rfl, h.tasks⟩ hr hkeep ?_
    rwa [take_zero, append_nil]
  | writing h hr hkeep hout =>
    rw [State.drainResponses_of_nil h.resp]
    exact .writing h hr hkeep hout

theorem Phase.onComplete (h : Phase W cfg todo later out st) (i : Nat) (srv : Server W)
    (s : Session) : Phase W cfg todo later out (st.onComplete i srv s) := by
  have hnone : st.tasks = [] → st.onComplete i srv s = st := by
    intro htasks
    exact State.onComplete_of_none (by rw [htasks, getElem?_nil]) srv s
  cases h with
  | waiting h hwait hbuf hout =>
    rw [hnone h.tasks]
    exact .waiting h hwait hbuf hout
  | @working q task todo _ _ _ h htask hbuf hout =>
    cases i with
    | succ i =>
      rw [State.onComplete_of_none (by rw [h.tasks]; rfl) srv s]
      exact .working h htask hbuf hout
    | zero =>
      obtain ⟨data, hdata⟩ : ∃ data, (workerDispatchFn srv s task).2.2 = some data := by
        obtain ⟨_, _, _, entry, -, rfl⟩ := htask
        exact ⟨_, rfl⟩
      have hcomplete : st.onComplete 0 srv s =
          { st with tasks := [] }.enqueueResponse data false := by
        rw [State.onComplete, h.tasks, getElem?_cons_zero]
        dsimp only
        rw [hdata, eraseIdx_cons_zero]
      rw [hcomplete]
      have hserving : Serving cfg true none false [] [] { st with tasks := [] } :=
        ⟨h.cfg, h.type, h.detached, h.flight, h.writeBuf, h.closing, h.resp, rfl⟩
      exact .queued (hserving.enqueueResponse data false) (.reply htask srv s hdata)
        (fun _ => ⟨rfl, hbuf⟩) hout
  | queued h hr hkeep hout =>
    rw [hnone h.tasks]
    exact .queued h hr hkeep hout
  | writing h hr hkeep hout =>
    rw [hnone h.tasks]
    exact .writing h hr hkeep hout

/-- What an event does to the first request: the connection stays with it, or its response is
complete and the connection goes on to the next one or is closed. -/
inductive Moves (W : Type) (cfg : Config) :
    List RequestText → Bytes → Bytes → State → Prop where
  | stay {todo : List RequestText} {later out : Bytes} {st : State}
      (h : Phase W cfg todo later out st) : Moves W cfg todo later out st
  | next {q : RequestText} {r : ResponseItem} {todo : List RequestText} {later out : Bytes}
      {st : State} (hr : AnswersRequest W cfg q r) (hkeep : r.closeAfter = false)
      (h : Phase W cfg todo later (out ++ r.data) st) : Moves W cfg (q :: todo) later out st
  | close {q : RequestText} {r : ResponseItem} {todo : List RequestText} {later out : Bytes}
      {st : State} (hr : AnswersRequest W cfg q r) (hclose : r.closeAfter = true)
      (hdetached : st.conn.detached = true) (hout : st.written = out ++ r.data) :
      Moves W cfg (q :: todo) later out st

theorem Phase.onWrite (h : Phase W cfg todo later out st)
    (htodo : ∀ q ∈ todo, q.WellFormed ∧ Plain q.request) (n : Nat) :
    Moves W cfg todo later out (st.onWrite n) := by
  cases h with
  | waiting h hwait hbuf hout =>
    rw [State.onWrite_of_none h.writeBuf]
    exact .stay (.waiting h hwait hbuf hout)
  | working h htask hbuf hout =>
    rw [State.onWrite_of_none h.writeBuf]
    exact .stay (.working h htask hbuf hout)
  | queued h hr hkeep hout =>
    rw [State.onWrite_of_none h.writeBuf]
    exact .stay (.queued h hr hkeep hout)
  | @writing q r flight todo _ _ _ h hr hkeep hout =>
    rw [State.onWrite, h.writeBuf]
    dsimp only
    split
    next hmore =>
      refine .stay (.writing (r := r) ?_ hr hkeep ?_)
      · exact ⟨h.cfg, h.type, h.detached, h.flight, h.writeBuf, h.closing, h.resp, h.tasks⟩
      · change st.written ++ _ = out ++ r.data.take (st.conn.writeOff + _)
        rw [hout, append_assoc, take_add, length_take, ← take_eq_take_min]
    next hless =>
      rw [take_of_length_le (Nat.le_of_not_lt hless)] at hout
      split
      next hclosing => exact .close hr (by rw [← h.closing]; exact hclosing) rfl hout
      next hopen =>
        have hfalse : r.closeAfter = false := by
          rw [← h.closing]
          exact Bool.eq_false_of_not_eq_true hopen
        have hnext : Serving cfg false none false [] [] { st with
            conn := { st.conn with writeBuf := none, writeOff := 0, httpInFlight := false } } :=
          ⟨h.cfg, h.type, h.detached, rfl, rfl, h.closing.trans hfalse, h.resp, h.tasks⟩
        rw [State.handlePipelinedHttp_of_httpInit hnext.type hnext.flight]
        refine .next hr hfalse (Phase.processAndSlide hnext ?_ (hkeep hfalse).2 hout)
        exact fun q' hq' => htodo q' (mem_cons_of_mem q hq')

theorem Phase.detached_eq (h : Phase W cfg todo later out st) : st.conn.detached = false := by
  cases h with
  | waiting h | working h | queued h | writing h => exact h.detached

theorem Phase.others (h : Phase W cfg todo later out st) (shared : Shared) :
    Phase W cfg todo later out { st with shared := shared } := by
  cases h with
  | waiting h hwait hbuf hout => exact .waiting (h.others shared) hwait hbuf hout
  | working h htask hbuf hout => exact .working (h.others shared) htask hbuf hout
  | queued h hr hkeep hout => exact .queued (h.others shared) hr hkeep hout
  | writing h hr hkeep hout => exact .writing (h.others shared) hr hkeep hout

theorem Phase.step {ev : Event W} (h : Phase W cfg todo (ev.bytes ++ later) out st)
    (htodo : ∀ q ∈ todo, q.WellFormed ∧ Plain q.request) (hfail : ev ≠ .fail)
    (hok : Unhindered st ev) : Moves W cfg todo later out (st.step ev) := by
  have hopen : ¬st.conn.detached = true := by
    rw [h.detached_eq]
    exact Bool.false_ne_true
  cases ev with
  | read chunk =>
    obtain ⟨hroom, hclosing, hresp⟩ := hok h.detached_eq chunk rfl
    rw [State.step, if_neg hopen]
    exact .stay (h.onRead htodo hroom hclosing hresp)
  | write n =>
    rw [State.step, if_neg hopen]
    exact h.onWrite htodo n
  | fail => exact absurd rfl hfail
  | drain => exact .stay h.drainResponses
  | complete i srv s => exact .stay (h.onComplete i srv s)
  | others shared => exact .stay (h.others shared)

theorem Phase.todo_eq_nil (h : Phase W cfg todo later out st)
    (htodo : ∀ q ∈ todo, q.WellFormed ∧ Plain q.request) (hdone : Finished later st) :
    todo = [] ∧ st.written = out := by
  rcases hdone with hdetached | ⟨hlater, htasks, hresp, hwrite⟩
  · rw [h.detached_eq] at hdetached
    cases hdetached
  cases h with
  | waiting h hwait hbuf hout =>
    cases todo with
    | nil => exact ⟨rfl, hout⟩
    | cons q todo =>
      -- the request would be complete
      rw [hlater, append_nil] at hbuf
      rw [hbuf, pipeline, map_cons, flatten_cons,
        RequestText.scanRequest_bytes (htodo q mem_cons_self).1] at hwait
      cases hwait
  | working h =>
    rw [h.tasks] at htasks
    cases htasks
  | queued h =>
    rw [h.resp] at hresp
    cases hresp
  | writing h =>
    rw [h.writeBuf] at hwrite
    cases hwrite

theorem written_exec_of_detached (h : st.conn.detached = true) (evs : List (Event W)) :
    (exec State.machine st evs).written = st.written := by
  induction evs generalizing st with
  | nil => rfl
  | cons ev evs ih =>
    obtain ⟨hdetached, -, hwritten⟩ := State.step_of_detached h ev
    exact (ih hdetached).trans hwritten

theorem Phase.exec {evs : List (Event W)}
    (h : Phase W cfg todo (evs.flatMap Event.bytes ++ later) out st)
    (htodo : ∀ q ∈ todo, q.WellFormed ∧ Plain q.request) (hfail : ∀ ev ∈ evs, ev ≠ .fail)
    (hok : Admissible State.machine Unhindered st evs)
    (hdone : Finished later (exec State.machine st evs)) :
    ∃ rs, Responses W cfg todo rs ∧
      (exec State.machine st evs).written = out ++ (rs.map ResponseItem.data).flatten := by
  induction evs generalizing todo out st with
  | nil =>
    obtain ⟨rfl, hout⟩ := Phase.todo_eq_nil h htodo hdone
    exact ⟨[], .nil, by rw [map_nil, flatten_nil, append_nil]; exact hout⟩
  | cons ev evs ih =>
    rw [flatMap_cons, append_assoc] at h
    have hrest : ∀ ev' ∈ evs, ev' ≠ .fail := fun ev' hev' => hfail ev' (mem_cons_of_mem ev hev')
    cases h.step htodo (hfail ev mem_cons_self) hok.1 with
    | stay h => exact ih h htodo hrest hok.2 hdone
    | @next q r todo _ _ _ hr hkeep h =>
      obtain ⟨rs, hrs, hwritten⟩ :=
        ih h (fun q' hq' => htodo q' (mem_cons_of_mem q hq')) hrest hok.2 hdone
      refine ⟨r :: rs, .cons hr hkeep hrs, ?_⟩
      rwa [map_cons, flatten_cons, ← append_assoc]
    | @close q r todo _ _ _ hr hclose hdetached hout =>
      refine ⟨[r], .last hr hclose todo, ?_⟩
      rw [map_singleton, flatten_singleton, ← hout]
      exact written_exec_of_detached hdetached evs

/-- Pipelined requests are answered in order, up to the first response that closes the connection,
if no bytes arrive while that is on its way nor when the buffer is full. -/
theorem exec_answers {shared : Shared} {qs : List RequestText} {evs : List (Event W)}
    (hqs : ∀ q ∈ qs, q.WellFormed ∧ Plain q.request)
    (hbytes : evs.flatMap Event.bytes ++ later = pipeline qs) (hfail : ∀ ev ∈ evs, ev ≠ .fail)
    (hok : Admissible State.machine Unhindered (State.accepted cfg shared) evs)
    (hdone : Finished later (exec State.machine (State.accepted cfg shared) evs)) :
    ∃ rs, Responses W cfg qs rs ∧
      (exec State.machine (State.accepted cfg shared) evs).written =
        (rs.map ResponseItem.data).flatten := by
  have hstart : Phase W cfg qs (evs.flatMap Event.bytes ++ later) [] (State.accepted cfg shared) :=
    .waiting ⟨rfl, rfl, rfl, rfl, rfl, rfl, rfl, rfl⟩ rfl hbytes rfl
  exact hstart.exec hqs hfail hok hdone

end

def getText : RequestText where
  method := "GET"
  target := "/"
  fields := []
  body := []

theorem requestBranch_getText (cfg : Config) (shared : Shared) (onwards : Bytes) :
    requestBranch cfg shared getText.request onwards = .error 405 "Method Not Allowed" := rfl

/-- The second request arrives before the refusal of the first one has been written. -/
def hastyEvents : List (Event Unit) := .read getText.bytes :: .read getText.bytes :: answering

/-- The first request is answered twice: no responses to the two requests, up to the first one that
closes the connection, make up what has been written. -/
theorem written_hastyEvents :
    hastyEvents.flatMap Event.bytes = pipeline [getText, getText] ∧
      Finished [] (afterEvents hastyEvents) ∧
      (afterEvents hastyEvents).written =
        State.httpError 405 "Method Not Allowed" ++ State.httpError 405 "Method Not Allowed" ∧
      ¬∃ rs, @Responses unitLibc Unit ⟨true, true⟩ [getText, getText] rs ∧
        (afterEvents hastyEvents).written = (rs.map ResponseItem.data).flatten := by
  have hwritten : (afterEvents hastyEvents).written =
      State.httpError 405 "Method Not Allowed" ++ State.httpError 405 "Method Not Allowed" := by
    decide +kernel
  refine ⟨by decide +kernel, .inl (by decide +kernel), hwritten, ?_⟩
  rintro ⟨rs, hrs, heq⟩
  rw [hwritten] at heq
  cases hrs with
  | last hr hclose =>
    cases hr with
    | refusal h =>
      rw [requestBranch_getText] at h
      cases h
      exact absurd heq (by decide +kernel)
    | reply htask srv s h => cases hclose
  | cons hr hkeep hrs =>
    cases hr with
    | refusal h => cases hkeep
    | reply htask srv s h =>
      obtain ⟨shared, onwards, shared', entry, hbranch, -⟩ := htask
      rw [requestBranch_getText] at hbranch
      cases hbranch

def initializeText : RequestText where
  method := "POST"
  target := "/"
  fields := [⟨"Content-Length", " 12"⟩]
  body := "\"initialize\""

/-- A request is answered while the next one arrives in two parts; that one is refused, and the
last one does not arrive any more. -/
def patientEvents : List (Event Unit) :=
  .read (initializeText.bytes ++ getText.bytes.take 4) :: .complete 0 emptyServer readySession ::
    .drain :: .write 5 :: .read (getText.bytes.drop 4) :: .write 1000 :: .write 0 :: answering

theorem wellFormed_getText : getText.WellFormed where
  method_ne_nil := by decide +kernel
  method := by decide +kernel
  target_ne_nil := by decide +kernel
  target := by decide +kernel
  fields := nofun
  count := by decide
  length := nofun
  announced := fun hne => absurd rfl hne
  small := by decide

theorem wellFormed_initializeText : initializeText.WellFormed where
  method_ne_nil := by decide +kernel
  method := by decide +kernel
  target_ne_nil := by decide +kernel
  target := by decide +kernel
  fields := by
    intro f hf
    rw [mem_singleton.mp hf]
    exact ⟨by decide +kernel, by decide +kernel, by decide +kernel, by decide +kernel⟩
  count := by decide
  length := by
    intro f hf _
    rw [mem_singleton.mp hf]
    exact ⟨[0x20], "12", [], by decide +kernel, nofun, by decide +kernel, by decide +kernel,
      by decide +kernel, by decide +kernel⟩
  announced := fun _ => ⟨_, mem_singleton_self _, by decide +kernel⟩
  small := by decide +kernel

theorem written_patientEvents :
    ∃ rs, @Responses unitLibc Unit ⟨true, true⟩ [initializeText, getText, getText] rs ∧
      (afterEvents patientEvents).written = (rs.map ResponseItem.data).flatten := by
  have hget : getText.WellFormed ∧ Plain getText.request :=
    ⟨wellFormed_getText, by decide +kernel, fun _ => by decide +kernel⟩
  have hopens : initializeText.WellFormed ∧ Plain initializeText.request :=
    ⟨wellFormed_initializeText, by decide +kernel, nofun⟩
  refine @exec_answers Unit unitLibc _ getText.bytes _ _ _ ?_ ?_ ?_ ?_ (.inl ?_)
  · simp only [forall_mem_cons, not_mem_nil, false_imp_iff, implies_true, and_true]
    exact ⟨hopens, hget, hget⟩
  · decide +kernel
  · simp [patientEvents, answering]
  · decide +kernel
  · decide +kernel

end Mcpkit.Transport.Async
