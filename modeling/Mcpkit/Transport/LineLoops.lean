import Mcpkit.Transport.Socket

/-!
# The three serve loops over lines

`mcp_stdio_serve`, `mcp_loop_run` and the loop of a socket connection serve one session each, from a
transport that gives lines.  The first two can hand some requests to a client, the second can poll a
timer and hand requests to an executor, and they end with different statuses.  On plain lines they
write the same.  The session is new, no argument is null, and writes and allocations succeed.
-/

namespace Mcpkit.Transport.LineLoops

open Json Protocol JString Option List

variable {W : Type}

/-- One iteration: whether shutdown is requested at its start and after a timeout, what `recv`
gives, and what the host or handlers do to the server meanwhile. -/
structure Turn (W : Type) where
  shutdown : Bool
  host : Server W → Server W
  received : Except Status Bytes
  shutdownLate : Bool

/-- `mcp_client_handle_server_request` of the client that is attached. -/
abbrev ClientHandler := Message → Except Status (Option Message)

def isServerToClientMethod (method : JString) : Bool :=
  method = "roots/list" || method = "sampling/createMessage" ||
    method = "elicitation/create"

def clientFor (client : Option ClientHandler) (msg : Message) : Option ClientHandler :=
  client.filter fun _ => (mcpMessageMethod msg).any isServerToClientMethod

/-- A message as it is handed to `mcp_transport_send`. -/
def sent [Libc] (msg : Message) : Bytes := cString (mcpMessageSerialize msg)

def parseError : Option Message :=
  mcpResponseErrNew none rpcParseError (lit "Parse error").bytes none

/-- What an iteration writes, before the rest of the loop. -/
def writes (lines : List Bytes) (rest : List Bytes × Status) : List Bytes × Status :=
  (lines ++ rest.1, rest.2)

/-- The messages that the drain loop takes out of the outbox. -/
def outboxLines [Libc] (srv : Server W) : List Bytes :=
  (drainOutbox (srv.outbox.length + 1) srv).1.map sent

def flushedServer (srv : Server W) : Server W := (drainOutbox (srv.outbox.length + 1) srv).2

/-- `stdio_serve_impl`.  The transport has ended behind the last turn. -/
def stdioServeImpl [Libc] (client : Option ClientHandler) :
    Server W → Session → List (Turn W) → List Bytes × Status
  | srv, _, [] => (outboxLines srv, .ok)
  | srv, s, turn :: turns =>
    if turn.shutdown then ([], .cancelled)
    else
      writes (outboxLines srv) <|
        let srv := turn.host (flushedServer srv)
        match turn.received with
        | .error status =>
          ([], if status = .io then .ok
            else if status = .timeout ∧ turn.shutdownLate then .cancelled else status)
        | .ok line =>
          match mcpMessageParse (cString line) with
          | none =>
            match parseError with
            | none => ([], .noMem)
            | some err => writes [sent err] (stdioServeImpl client srv s turns)
          | some msg =>
            match mcpMessageKind msg with
            | .notification =>
              let r := mcpServerNotify srv s msg
              stdioServeImpl client r.1 r.2.1 turns
            | .request =>
              match clientFor client msg with
              | some handle =>
                match handle msg with
                | .error status => ([], status)
                | .ok resp => writes (resp.toList.map sent) (stdioServeImpl client srv s turns)
              | none =>
                match mcpServerDispatch srv s msg with
                | (_, _, .error status) => ([], status)
                | (srv, s, .ok resp) => writes [sent resp] (stdioServeImpl client srv s turns)
            | _ => stdioServeImpl client srv s turns

def mcpStdioServe [Libc] (srv : Server W) (turns : List (Turn W)) : List Bytes × Status :=
  stdioServeImpl none srv sessionNew turns

structure DispatchJob (W : Type) where
  server : Server W
  session : Session
  msg : Message
  resp : Option Message
  status : Status

def dispatchTask (job : DispatchJob W) : DispatchJob W :=
  match mcpServerDispatch job.server job.session job.msg with
  | (srv, s, .ok resp) => { job with server := srv, session := s, resp := some resp, status := .ok }
  | (srv, s, .error status) => { job with server := srv, session := s, status := status }

/-- `mcp_executor_ops_t`: a backend `X` that runs tasks on a state `S` at some time. -/
structure Executor (X S : Type) where
  submit : X → S → (S → S) → X × S × Status
  wait : X → S → X × S × Status

def dispatchInline {X : Type} (ex : Option (Executor X (DispatchJob W))) (x : X) (srv : Server W)
    (s : Session) (msg : Message) : X × Server W × Session × Except Status (Option Message) :=
  match ex with
  | none =>
    let r := mcpServerDispatch srv s msg
    (x, r.1, r.2.1, r.2.2.map some)
  | some ex =>
    match ex.submit x ⟨srv, s, msg, none, .ok⟩ dispatchTask with
    | (x, job, .ok) =>
      match ex.wait x job with
      | (x, job, .ok) =>
        (x, job.server, job.session, if job.status = .ok then .ok job.resp else .error job.status)
      | (x, job, status) => (x, job.server, job.session, .error status)
    | (x, job, status) => (x, job.server, job.session, .error status)

def loopRunImpl [Libc] {X : Type} (client : Option ClientHandler)
    (ex : Option (Executor X (DispatchJob W)))
    (timer : Option (Server W → Except Status (Server W))) :
    X → Server W → Session → List (Turn W) → List Bytes × Status
  | _, srv, _, [] =>
    match timer.elim (.ok srv) (· srv) with
    | .error _ => ([], .noMem)
    | .ok srv => (outboxLines srv, .notFound)
  | x, srv, s, turn :: turns =>
    if turn.shutdown then ([], .cancelled)
    else
      match timer.elim (.ok srv) (· srv) with
      | .error _ => ([], .noMem)
      | .ok srv =>
        writes (outboxLines srv) <|
          let srv := turn.host (flushedServer srv)
          match turn.received with
          | .error status =>
            ([], if status = .io then .notFound
              else if status = .timeout ∧ turn.shutdownLate then .cancelled else status)
          | .ok line =>
            match mcpMessageParse (cString line) with
            | none =>
              match parseError with
              | none => ([], .noMem)
              | some err => writes [sent err] (loopRunImpl client ex timer x srv s turns)
            | some msg =>
              match mcpMessageKind msg with
              | .notification =>
                let r := mcpServerNotify srv s msg
                loopRunImpl client ex timer x r.1 r.2.1 turns
              | .request =>
                match clientFor client msg with
                | some handle =>
                  match handle msg with
                  | .error status => ([], status)
                  | .ok resp =>
                    writes (resp.toList.map sent)
                      (loopRunImpl client ex timer x srv s turns)
                | none =>
                  match dispatchInline ex x srv s msg with
                  | (_, _, _, .error status) => ([], status)
                  | (x, srv, s, .ok resp) =>
                    writes (resp.toList.map sent)
                      (loopRunImpl client ex timer x srv s turns)
              | _ => loopRunImpl client ex timer x srv s turns

def mcpLoopRun [Libc] {X : Type} (ex : Option (Executor X (DispatchJob W))) (x : X)
    (timer : Option (Server W → Except Status (Server W))) (srv : Server W)
    (turns : List (Turn W)) : List Bytes × Status :=
  loopRunImpl none ex timer x srv sessionNew turns

def serveLines [Libc] : Server W → Session → List (Turn W) → List Bytes
  | srv, _, [] => outboxLines srv
  | srv, s, turn :: turns =>
    if turn.shutdown then []
    else
      outboxLines srv ++
        match turn.received with
        | .error _ => []
        | .ok line =>
          let r := serveLine (turn.host (flushedServer srv)) s line
          r.response.toList.map sent ++
            if r.goesOn then serveLines r.server r.session turns else []

def serveOneConn [Libc] (srv : Server W) (turns : List (Turn W)) : List Bytes :=
  serveLines srv sessionNew turns

/-- A line, and what is done to the server meanwhile. -/
structure Arrival (W : Type) where
  host : Server W → Server W
  line : Bytes

def Arrival.turn (a : Arrival W) : Turn W := ⟨false, a.host, .ok a.line, false⟩

def parseErrorReply : Message :=
  ⟨[("jsonrpc", .string "2.0"), ("id", .null), ("error", .object
      [("code", .number ⟨Binary64.ofInt (-32700), by decide⟩),
        ("message", .string "Parse error")])]⟩

def answered [Libc] (srv : Server W) (s : Session) (line : Bytes) :
    Server W × Session × Option Message :=
  match mcpMessageParse (cString line) with
  | none => (srv, s, some parseErrorReply)
  | some msg =>
    match mcpMessageKind msg with
    | .request =>
      let r := mcpServerDispatch srv s msg
      (r.1, r.2.1, r.2.2.toOption)
    | .notification =>
      let r := mcpServerNotify srv s msg
      (r.1, r.2.1, none)
    | _ => (srv, s, none)

/-- The lines that a session writes: before each line it reads, and at the end, the messages that
were queued, the latest first; behind each line its answer. -/
def transcript [Libc] : Server W → Session → List (Arrival W) → List Bytes
  | srv, _, [] => srv.outbox.reverse.map sent
  | srv, s, a :: as =>
    let r := answered (a.host { srv with outbox := [] }) s a.line
    srv.outbox.reverse.map sent ++ (r.2.2.toList.map sent ++ transcript r.1 r.2.1 as)

theorem parseError_eq : parseError = some parseErrorReply := by decide +kernel

theorem outboxLines_eq [Libc] (srv : Server W) :
    outboxLines srv = srv.outbox.reverse.map sent := by
  rw [outboxLines, drainOutbox_all]

theorem flushedServer_eq (srv : Server W) : flushedServer srv = { srv with outbox := [] } := by
  rw [flushedServer, drainOutbox_all]

theorem exists_dispatch_ok (srv : Server W) (s : Session) {msg : Message}
    (hkind : mcpMessageKind msg = .request) :
    ∃ srv' s' resp, mcpServerDispatch srv s msg = (srv', s', .ok resp) := by
  obtain ⟨resp, hresp, -⟩ := mcpServerDispatch_replies srv s hkind
  exact ⟨_, _, resp, by rw [← hresp]⟩

/-- What a line leads to, with what the loops read from it on the way. -/
inductive LineCase [Libc] (srv : Server W) (s : Session) (line : Bytes) :
    Server W × Session × Option Message → Prop
  | error (hparse : mcpMessageParse (cString line) = none) :
      LineCase srv s line (srv, s, some parseErrorReply)
  | request {msg resp : Message} {srv' : Server W} {s' : Session}
      (hparse : mcpMessageParse (cString line) = some msg)
      (hkind : mcpMessageKind msg = .request)
      (hdispatch : mcpServerDispatch srv s msg = (srv', s', .ok resp)) :
      LineCase srv s line (srv', s', some resp)
  | notification {msg : Message} (hparse : mcpMessageParse (cString line) = some msg)
      (hkind : mcpMessageKind msg = .notification) :
      LineCase srv s line ((mcpServerNotify srv s msg).1, (mcpServerNotify srv s msg).2.1, none)
  | ignored {msg : Message} (hparse : mcpMessageParse (cString line) = some msg)
      (hkind : mcpMessageKind msg = .response ∨ mcpMessageKind msg = .invalid) :
      LineCase srv s line (srv, s, none)

theorem lineCase_answered [Libc] (srv : Server W) (s : Session) (line : Bytes) :
    LineCase srv s line (answered srv s line) := by
  rw [answered]
  cases hparse : mcpMessageParse (cString line) with
  | none => exact .error hparse
  | some msg =>
    cases hkind : mcpMessageKind msg with
    | request =>
      obtain ⟨srv', s', resp, hdispatch⟩ := exists_dispatch_ok srv s hkind
      simp only [hkind, hdispatch]
      exact .request hparse hkind hdispatch
    | notification =>
      simp only [hkind]
      exact .notification hparse hkind
    | response =>
      simp only [hkind]
      exact .ignored hparse (.inl hkind)
    | invalid =>
      simp only [hkind]
      exact .ignored hparse (.inr hkind)

theorem stdioServeImpl_transcript [Libc] (srv : Server W) (s : Session)
    (arrivals : List (Arrival W)) :
    (stdioServeImpl none srv s (arrivals.map Arrival.turn)).1 = transcript srv s arrivals := by
  induction arrivals generalizing srv s with
  | nil => exact outboxLines_eq srv
  | cons a as ih =>
    rw [map_cons, stdioServeImpl, transcript]
    simp only [Arrival.turn, Bool.false_eq_true, if_false, writes, outboxLines_eq,
      flushedServer_eq, parseError_eq]
    congr 1
    have hcase := lineCase_answered (a.host { srv with outbox := [] }) s a.line
    generalize answered (a.host { srv with outbox := [] }) s a.line = r at hcase ⊢
    cases hcase with
    | error hparse => simp [hparse, ih]
    | request hparse hkind hdispatch => simp [hparse, hkind, clientFor, hdispatch, ih]
    | notification hparse hkind => simp [hparse, hkind, ih]
    | ignored hparse hkind => obtain hkind | hkind := hkind <;> simp [hparse, hkind, ih]

/-- From an idle backend a submitted task has run to completion when the wait for it returns, and
the backend is idle again. -/
def Completes {X S : Type} (ex : Executor X S) (Idle : X → Prop) : Prop :=
  ∀ x s task, Idle x → ∃ x₁ s₁ x₂, ex.submit x s task = (x₁, s₁, .ok) ∧
    ex.wait x₁ s₁ = (x₂, task s, .ok) ∧ Idle x₂

def syncExecutor (S : Type) : Executor Unit S where
  submit := fun x s task => (x, task s, .ok)
  wait := fun x s => (x, s, .ok)

theorem completes_syncExecutor (S : Type) : Completes (syncExecutor S) fun _ => True :=
  fun x s task _ => ⟨x, task s, x, rfl, rfl, trivial⟩

/-- A pool with one queue: tasks run in the order of submission, at the latest when the pool is
waited for. -/
def queueExecutor (S : Type) : Executor (List (S → S)) S where
  submit := fun queue s task => (queue ++ [task], s, .ok)
  wait := fun queue s => ([], queue.foldl (fun s task => task s) s, .ok)

theorem completes_queueExecutor (S : Type) :
    Completes (queueExecutor S) fun queue => queue = [] := by
  rintro queue s task rfl
  exact ⟨[task], s, [], rfl, rfl, rfl⟩

def ExecutorReady {X S : Type} (ex : Option (Executor X S)) (Idle : X → Prop) : Prop :=
  ∀ e, ex = some e → Completes e Idle

theorem dispatchInline_eq {X : Type} {ex : Option (Executor X (DispatchJob W))}
    {Idle : X → Prop} (hex : ExecutorReady ex Idle) {x : X} (hx : Idle x) {srv srv' : Server W}
    {s s' : Session} {msg resp : Message}
    (hdispatch : mcpServerDispatch srv s msg = (srv', s', .ok resp)) :
    ∃ x', Idle x' ∧ dispatchInline ex x srv s msg = (x', srv', s', .ok (some resp)) := by
  cases ex with
  | none =>
    refine ⟨x, hx, ?_⟩
    rw [dispatchInline, hdispatch]
    rfl
  | some e =>
    obtain ⟨x₁, job, x₂, hsubmit, hwait, hidle⟩ :=
      hex e rfl x ⟨srv, s, msg, none, .ok⟩ dispatchTask hx
    refine ⟨x₂, hidle, ?_⟩
    have htask : dispatchTask ⟨srv, s, msg, none, .ok⟩ = ⟨srv', s', msg, some resp, .ok⟩ := by
      rw [dispatchTask, hdispatch]
    simp [dispatchInline, hsubmit, hwait, htask]

theorem loopRunImpl_transcript [Libc] {X : Type} {ex : Option (Executor X (DispatchJob W))}
    {Idle : X → Prop} (hex : ExecutorReady ex Idle) {x : X} (hx : Idle x) (srv : Server W)
    (s : Session) (arrivals : List (Arrival W)) :
    (loopRunImpl none ex none x srv s (arrivals.map Arrival.turn)).1 =
      transcript srv s arrivals := by
  induction arrivals generalizing x srv s with
  | nil => exact outboxLines_eq srv
  | cons a as ih =>
    rw [map_cons, loopRunImpl, transcript]
    simp only [Arrival.turn, Bool.false_eq_true, if_false, elim_none, writes,
      outboxLines_eq, flushedServer_eq, parseError_eq]
    congr 1
    have hcase := lineCase_answered (a.host { srv with outbox := [] }) s a.line
    generalize answered (a.host { srv with outbox := [] }) s a.line = r at hcase ⊢
    cases hcase with
    | error hparse => simp [hparse, ih hx]
    | request hparse hkind hdispatch =>
      obtain ⟨x', hx', hinline⟩ := dispatchInline_eq hex hx hdispatch
      simp [hparse, hkind, clientFor, hinline, ih hx']
    | notification hparse hkind => simp [hparse, hkind, ih hx]
    | ignored hparse hkind => obtain hkind | hkind := hkind <;> simp [hparse, hkind, ih hx]

theorem serveLine_eq [Libc] (srv : Server W) (s : Session) (line : Bytes) :
    serveLine srv s line =
      ⟨(answered srv s line).1, (answered srv s line).2.1, (answered srv s line).2.2, true⟩ := by
  have herror : mcpResponseErrNew none rpcParseError (lit "Parse error").bytes none =
      some parseErrorReply := parseError_eq
  rw [serveLine]
  have hcase := lineCase_answered srv s line
  generalize answered srv s line = r at hcase ⊢
  cases hcase with
  | error hparse => simp [hparse, herror]
  | request hparse hkind hdispatch => simp [hparse, hkind, hdispatch]
  | notification hparse hkind => simp [hparse, hkind]
  | ignored hparse hkind => obtain hkind | hkind := hkind <;> simp [hparse, hkind]

theorem serveLines_transcript [Libc] (srv : Server W) (s : Session) (arrivals : List (Arrival W)) :
    serveLines srv s (arrivals.map Arrival.turn) = transcript srv s arrivals := by
  induction arrivals generalizing srv s with
  | nil => exact outboxLines_eq srv
  | cons a as ih =>
    rw [map_cons, serveLines, transcript]
    simp [Arrival.turn, outboxLines_eq, flushedServer_eq, serveLine_eq, ih]

/-- On the same lines, with the same server, the loops write the same transcript. -/
theorem serveLoops_write_transcript [Libc] (srv : Server W) (arrivals : List (Arrival W)) :
    (mcpStdioServe srv (arrivals.map Arrival.turn)).1 = transcript srv sessionNew arrivals ∧
      serveOneConn srv (arrivals.map Arrival.turn) = transcript srv sessionNew arrivals ∧
      ∀ (X : Type) (ex : Option (Executor X (DispatchJob W))) (Idle : X → Prop) (x : X),
        ExecutorReady ex Idle → Idle x →
        (mcpLoopRun ex x none srv (arrivals.map Arrival.turn)).1 =
          transcript srv sessionNew arrivals :=
  ⟨stdioServeImpl_transcript srv sessionNew arrivals, serveLines_transcript srv sessionNew arrivals,
    fun _ _ _ _ hex hx => loopRunImpl_transcript hex hx srv sessionNew arrivals⟩

def demoArrivals : List (Arrival Unit) :=
  [⟨id, (lit
      "\x7b\"jsonrpc\":\"2.0\",\"id\":\"1\",\"method\":\"ping\",\"_meta\":\x7b\x7d\x7d").bytes⟩,
    ⟨id, (lit "?").bytes⟩]

def demoServer : Server Unit := { bareServer with outbox := [pingRequest] }

theorem serveLoops_demo :
    (@mcpStdioServe _ unitLibc demoServer (demoArrivals.map Arrival.turn)).1.length = 3 ∧
      (@mcpLoopRun _ unitLibc _ (some (syncExecutor _)) () none demoServer
          (demoArrivals.map Arrival.turn)).1 =
        (@mcpStdioServe _ unitLibc demoServer (demoArrivals.map Arrival.turn)).1 ∧
      (@mcpLoopRun _ unitLibc _ (some (queueExecutor _)) [] none demoServer
          (demoArrivals.map Arrival.turn)).1 =
        (@mcpStdioServe _ unitLibc demoServer (demoArrivals.map Arrival.turn)).1 := by
  obtain ⟨hstdio, -, hloop⟩ := @serveLoops_write_transcript _ unitLibc demoServer demoArrivals
  have hsync : ExecutorReady (some (syncExecutor (DispatchJob Unit))) fun _ => True :=
    fun e he => some.inj he ▸ completes_syncExecutor _
  have hqueue : ExecutorReady (some (queueExecutor (DispatchJob Unit))) fun queue => queue = [] :=
    fun e he => some.inj he ▸ completes_queueExecutor _
  rw [hstdio]
  refine ⟨?_, hloop _ _ _ _ hsync trivial, hloop _ _ _ _ hqueue rfl⟩
  rw [← hstdio]
  decide +kernel

end Mcpkit.Transport.LineLoops
