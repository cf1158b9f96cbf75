import Mcpkit.Lib.Pool
import Mcpkit.Server.History
import Mcpkit.Server.Outbox

/-!
# Serve loops over sockets

Each connection has a session and a loop of its own.  An iteration writes the messages of the outbox
to the connection, reads one line and serves it.  All loops share the server and its one outbox, so
a message goes to the connection whose loop gets to it first.  Next to the outbox the model records
for which session each message was enqueued; nothing in the code keeps that.
-/

namespace Mcpkit.Transport

open Json Protocol List Machine

variable {W : Type}

/-- The server, its sessions, the connections that are served, by the handles of their sessions,
and, for each message in the outbox, the session it was enqueued for. -/
structure SocketState (W : Type) where
  server : Server W
  sessions : Pool Session
  conns : List Nat
  targets : List (Option Nat)
  length_targets : targets.length = server.outbox.length

/-- A message written to a connection, with the session it was enqueued for. -/
structure Delivery where
  conn : Nat
  message : Message
  target : Option Nat

/-- What an iteration finds: a request to shut down before anything else, or what `send` and `recv`
give. -/
inductive Input where
  | shutdown
  /-- Sending fails once this many messages of the outbox have been written. -/
  | broken (sent : Nat)
  | closed
  /-- A line, and whether an answer to it can be sent. -/
  | line (text : Bytes) (sends : Bool)

inductive SocketAction where
  | accept
  | iterate (conn : Nat) (input : Input)
  | notify (target : Option Nat) (method : Bytes) (params : Option JsonValue)
  | close (target : Nat) (respOut : Bool)

/-- The drain loop, for at most so many messages. -/
def drainOutbox : Nat → Server W → List Message × Server W
  | 0, srv => ([], srv)
  | fuel + 1, srv =>
    match mcpServerOutboxPop srv with
    | none => ([], srv)
    | some (msg, srv) =>
      let later := drainOutbox fuel srv
      (msg :: later.1, later.2)

/-- What a line leads to: the message sent back, if any, and whether the loop goes on. -/
structure LineResult (W : Type) where
  server : Server W
  session : Session
  response : Option Message
  goesOn : Bool

/-- The part of an iteration after a line was received. -/
def serveLine [Libc] (srv : Server W) (s : Session) (line : Bytes) : LineResult W :=
  match mcpMessageParse (cString line) with
  | none =>
    let err := mcpResponseErrNew none rpcParseError (JString.lit "Parse error").bytes none
    ⟨srv, s, err, err.isSome⟩
  | some msg =>
    match mcpMessageKind msg with
    | .notification =>
      let r := mcpServerNotify srv s msg
      ⟨r.1, r.2.1, none, true⟩
    | .request =>
      match mcpServerDispatch srv s msg with
      | (srv, s, .ok resp) => ⟨srv, s, some resp, true⟩
      | (srv, s, .error _) => ⟨srv, s, none, false⟩
    | _ => ⟨srv, s, none, true⟩

theorem outbox_serveLine [Libc] (srv : Server W) (s : Session) (line : Bytes) :
    (serveLine srv s line).server.outbox = srv.outbox := by
  unfold serveLine
  split
  · rfl
  next msg _ =>
    have hdispatch := outbox_mcpServerDispatch srv s msg
    split
    · exact outbox_mcpServerNotify srv s _
    · split
      next heq =>
        rwa [heq] at hdispatch
      next heq =>
        rwa [heq] at hdispatch
    · rfl

theorem mcpServerOutboxPop_append {srv : Server W} {init : List Message} {last : Message}
    (h : srv.outbox = init ++ [last]) :
    mcpServerOutboxPop srv = some (last, { srv with outbox := init }) := by
  simp [mcpServerOutboxPop, h]

theorem drainOutbox_eq (n : Nat) (srv : Server W) :
    drainOutbox n srv = (srv.outbox.reverse.take n,
      { srv with outbox := srv.outbox.take (srv.outbox.length - n) }) := by
  induction n generalizing srv with
  | zero => simp [drainOutbox]
  | succ n ih =>
    rcases eq_nil_or_concat' srv.outbox with hnil | ⟨init, last, hcons⟩
    · obtain ⟨⟩ := srv
      simp_all [drainOutbox, mcpServerOutboxPop]
    rw [drainOutbox, mcpServerOutboxPop_append hcons]
    dsimp only
    rw [ih { srv with outbox := init }, hcons]
    simp [take_append_of_le_length]

variable (st : SocketState W) (srv : Server W)

theorem drainOutbox_all :
    drainOutbox (srv.outbox.length + 1) srv = (srv.outbox.reverse, { srv with outbox := [] }) := by
  rw [drainOutbox_eq, take_of_length_le (by simp), Nat.sub_eq_zero_of_le (Nat.le_succ _), take_zero]

def leave (conn : Nat) : SocketState W :=
  { st with sessions := st.sessions.free conn, conns := st.conns.erase conn }

def drained (n : Nat) : SocketState W :=
  { st with
    server := (drainOutbox n st.server).2
    targets := st.targets.take (st.targets.length - n)
    length_targets := by simp [drainOutbox_eq, st.length_targets] }

/-- The messages that draining the outbox writes to a connection. -/
def flushed (conn n : Nat) : List Delivery :=
  List.zipWith (Delivery.mk conn) (drainOutbox n st.server).1 (st.targets.reverse.take n)

/-- One turn of the drain loop more than there are messages. -/
def SocketState.allOf : Nat := st.server.outbox.length + 1

def afterLine (conn : Nat) (r : LineResult W) (h : r.server.outbox = st.server.outbox) :
    SocketState W :=
  { st with
    server := r.server
    sessions := st.sessions.put conn r.session
    length_targets := by rw [h, st.length_targets] }

def serveIteration [Libc] (st : SocketState W) (conn : Nat) (s : Session) :
    Input → SocketState W × List Delivery
  | .shutdown => (leave st conn, [])
  | .broken sent => (leave (drained st (sent + 1)) conn, flushed st conn sent)
  | .closed => (leave (drained st st.allOf) conn, flushed st conn st.allOf)
  | .line text sends =>
    let r := serveLine (drained st st.allOf).server s text
    let st' := afterLine (drained st st.allOf) conn r (outbox_serveLine _ s text)
    (if r.goesOn && (sends || r.response.isNone) then st' else leave st' conn,
      flushed st conn st.allOf ++
        if sends then r.response.toList.map fun m => ⟨conn, m, none⟩ else [])

/-- A call of the host that may have put messages into the outbox, for one session. -/
def enqueued (sessions : Pool Session) (target : Option Nat) (h : st.server.outbox <+: srv.outbox) :
    SocketState W :=
  { st with
    server := srv
    sessions := sessions
    targets := st.targets ++
      List.replicate (srv.outbox.length - st.server.outbox.length) target
    length_targets := by
      have hle := h.length_le
      rw [length_append, length_replicate, st.length_targets]
      omega }

def servedSession (conn : Nat) : Option Session :=
  if conn ∈ st.conns then st.sessions.get? conn else none

def hostNotify (target : Option Nat) (session : Option Session) (method : Bytes)
    (params : Option JsonValue) : SocketState W :=
  enqueued st (mcpServerSessionNotify st.server session method params).1 st.sessions target
    (outbox_mcpServerSessionNotify st.server session method params)

def hostClose (target : Nat) (s : Session) (respOut : Bool) : SocketState W :=
  let r := mcpServerSessionCloseSubscription st.server s respOut
  enqueued st r.1 (st.sessions.put target r.2.1) (some target)
    (outbox_mcpServerSessionCloseSubscription st.server s respOut)

/-- One step: a connection is accepted, a loop iterates, or the host calls.  Only running loops
iterate, and the host does not call with a session that was destroyed. -/
def socketStep [Libc] (st : SocketState W) : SocketAction → SocketState W × List Delivery
  | .accept =>
    ({ st with
        sessions := st.sessions.alloc sessionNew
        conns := st.conns ++ [st.sessions.next] }, [])
  | .iterate conn input =>
    match servedSession st conn with
    | none => (st, [])
    | some s => serveIteration st conn s input
  | .notify none method params => (hostNotify st none none method params, [])
  | .notify (some target) method params =>
    match st.sessions.get? target with
    | none => (st, [])
    | some s => (hostNotify st (some target) (some s) method params, [])
  | .close target respOut =>
    match st.sessions.get? target with
    | none => (st, [])
    | some s => (hostClose st target s respOut, [])

/-- A message enqueued for a session is written to the connection of that session. -/
def Addressed (d : Delivery) : Prop := ∀ r, d.target = some r → r = d.conn

/-- A loop that is about to drain the outbox finds no message there that was enqueued for the
session of another connection, up to where sending fails. -/
def OwnPending : SocketAction → Prop
  | .iterate _ .shutdown => True
  | .iterate conn (.broken sent) =>
    (servedSession st conn).isSome → ∀ r, some r ∈ st.targets.reverse.take sent → r = conn
  | .iterate conn _ => (servedSession st conn).isSome → ∀ r, some r ∈ st.targets → r = conn
  | _ => True

theorem addressed_zipWith {conn : Nat} {msgs : List Message} {targets : List (Option Nat)}
    (h : msgs.length = targets.length) :
    (∀ d ∈ List.zipWith (Delivery.mk conn) msgs targets, Addressed d) ↔
      ∀ r, some r ∈ targets → r = conn := by
  induction msgs generalizing targets with
  | nil =>
    obtain rfl := length_eq_zero_iff.mp h.symm
    simp
  | cons msg msgs ih =>
    obtain ⟨target, targets, rfl⟩ := exists_of_length_succ targets h.symm
    have htail := ih (Nat.succ.inj h)
    rw [zipWith_cons_cons, forall_mem_cons, htail]
    constructor
    · rintro ⟨hhead, hrest⟩ r hr
      rcases mem_cons.mp hr with rfl | hr
      · exact hhead r rfl
      · exact hrest r hr
    · intro hall
      exact ⟨fun r hr => hall r (hr ▸ mem_cons_self), fun r hr => hall r (mem_cons_of_mem _ hr)⟩

theorem addressed_flushed (conn n : Nat) :
    (∀ d ∈ flushed st conn n, Addressed d) ↔
      ∀ r, some r ∈ st.targets.reverse.take n → r = conn := by
  rw [flushed, drainOutbox_eq, addressed_zipWith (by simp [st.length_targets])]

theorem addressed_flushed_all (conn : Nat) :
    (∀ d ∈ flushed st conn st.allOf, Addressed d) ↔ ∀ r, some r ∈ st.targets → r = conn := by
  rw [addressed_flushed, take_of_length_le (by simp [SocketState.allOf, st.length_targets])]
  simp

theorem addressed_socketStep [Libc] (st : SocketState W) (a : SocketAction) :
    (∀ d ∈ (socketStep st a).2, Addressed d) ↔ OwnPending st a := by
  cases a with
  | accept => simp [socketStep, OwnPending]
  | notify target method params =>
    cases target with
    | none => simp [socketStep, OwnPending]
    | some target => cases h : st.sessions.get? target <;> simp [socketStep, OwnPending, h]
  | close target respOut => cases h : st.sessions.get? target <;> simp [socketStep, OwnPending, h]
  | iterate conn input =>
    cases hserved : servedSession st conn with
    | none => cases input <;> simp [socketStep, OwnPending, hserved]
    | some s =>
      have hflushed := addressed_flushed_all st conn
      cases input with
      | shutdown => simp [socketStep, OwnPending, hserved, serveIteration]
      | broken sent =>
        simpa [socketStep, OwnPending, hserved, serveIteration] using addressed_flushed st conn sent
      | closed => simpa [socketStep, OwnPending, hserved, serveIteration] using hflushed
      | line text sends =>
        simp only [socketStep, OwnPending, hserved, serveIteration, forall_mem_append,
          hflushed, Option.isSome_some, forall_const]
        refine and_iff_left ?_
        -- a response to the line was not enqueued for anyone
        cases sends <;> simp [Addressed]

/-- Every message enqueued for a session is written to its connection exactly when no loop starts an
iteration while a message for another session is in the outbox. -/
theorem addressed_iff_ownPending [Libc] (st : SocketState W) (actions : List SocketAction) :
    (∀ ds ∈ outputs socketStep st actions, ∀ d ∈ ds, Addressed d) ↔
      Admissible socketStep OwnPending st actions :=
  forall_outputs_iff_admissible addressed_socketStep

def idleSockets : SocketState Unit := ⟨bareServer, .empty, [], [], rfl⟩

/-- Two connections; the host notifies the first, and the second iterates. -/
def crossedActions : List SocketAction :=
  [.accept, .accept, .notify (some 0) (JString.lit "notifications/tools/list_changed").bytes none,
    .iterate 1 .closed]

def crossedOutputs : List (List Delivery) :=
  outputs (@socketStep _ unitLibc) idleSockets crossedActions

/-- The notification for the first session is written to the second connection. -/
theorem crossed_delivery :
    ∃ ds ∈ crossedOutputs, ∃ d ∈ ds, d.target = some 0 ∧ d.conn = 1 := by
  have hmem : [(some 0, 1)] ∈ crossedOutputs.map (·.map fun d => (d.target, d.conn)) := by
    decide +kernel
  obtain ⟨ds, hds, hlast⟩ := mem_map.mp hmem
  have hmem' : (some 0, 1) ∈ ds.map fun d => (d.target, d.conn) := by
    rw [hlast]
    exact mem_singleton_self _
  obtain ⟨d, hd, hd'⟩ := mem_map.mp hmem'
  exact ⟨ds, hds, d, hd, Prod.mk.inj hd'⟩

end Mcpkit.Transport
