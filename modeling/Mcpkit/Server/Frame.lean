import Mcpkit.Server.Dispatcher

/-!
# What a request leaves alone

The routes change the host's state, some settings of the server and what a
session knows about its client.  None of them touches the initialized flag or
the recorded ids of the session, which belong to the dispatcher, nor the outbox
of the server, which belongs to the host.
-/

namespace Mcpkit

open Json JsonValue Protocol

variable {W : Type}

/-- What a route can make of its session: nothing, the flags a handler sets, what the client says
about itself, or the subscription of a `subscriptions/listen` request. -/
inductive RouteChange (W : Type) (s : Session) (req : Message) (method : JString) : Session → Prop
  | keep : RouteChange W s req method s
  | handler (e : Effect W) : RouteChange W s req method (s.apply e)
  | client (name version : Option CString) (metaObj : Option JsonValue) :
      RouteChange W s req method
        { s with clientName := name, clientVersion := version, clientMeta := metaObj }
  | listen (notifs : Option JsonValue) (h : method = "subscriptions/listen") :
      RouteChange W s req method (recordSubscription s req notifs)

/-- What a route can do: it changes its session in one of these ways, and nothing in the outbox of
the server. -/
structure RouteStep (srv : Server W) (s : Session) (req : Message) (method : JString)
    (srv' : Server W) (s' : Session) : Prop where
  session : RouteChange W s req method s'
  outbox : srv'.outbox = srv.outbox

namespace RouteStep

variable (srv : Server W) (s : Session) (req : Message) (method : JString)

variable {srv s req method} in
theorem of_effect {srv' : Server W} {s' : Session} (h : RouteEffect srv s req method srv' s') :
    RouteStep srv s req method srv' s' := by
  cases h with
  | tool params hmem | handler h => exact ⟨.handler _, rfl⟩
  | client name version metaObj => exact ⟨.client _ _ _, rfl⟩
  | listen notifs h => exact ⟨.listen _ h, rfl⟩
  | _ => exact ⟨.keep, rfl⟩

theorem outbox_trace (ev : TraceEvent) : (srv.trace ev).outbox = srv.outbox := by
  unfold Server.trace
  split <;> rfl

theorem dispatchRoute :
    RouteStep srv s req method (Mcpkit.dispatchRoute srv s req method).1
      (Mcpkit.dispatchRoute srv s req method).2.1 := by
  have hroute := of_effect
    (RouteOutcome.mcpServerRouteRequest (srv.trace (.begin method)) s req method).effect
  have houtbox := hroute.outbox.trans (outbox_trace srv (.begin method))
  unfold Mcpkit.dispatchRoute
  split
  next srv' s' heq =>
    rw [heq] at hroute houtbox
    exact ⟨hroute.session, (outbox_trace _ _).trans houtbox⟩
  next srv' s' resp heq =>
    rw [heq] at hroute houtbox
    refine ⟨hroute.session, (outbox_trace _ _).trans (Eq.trans ?_ houtbox)⟩
    split <;> rfl

end RouteStep

/-- What every route keeps of a server and a session. -/
structure Untouched (srv : Server W) (s : Session) (srv' : Server W) (s' : Session) : Prop where
  initialized : s'.initialized = s.initialized
  ids : s'.ids = s.ids
  outbox : srv'.outbox = srv.outbox

/-- No route changes the initialized flag, the recorded ids or the outbox. -/
theorem RouteStep.untouched {srv srv' : Server W} {s s' : Session} {req : Message}
    {method : JString} (h : RouteStep srv s req method srv' s') : Untouched srv s srv' s' := by
  obtain ⟨hsession, houtbox⟩ := h
  cases hsession with
  | keep | handler e | client name version metaObj | listen notifs h => exact ⟨rfl, rfl, houtbox⟩

theorem outbox_adoptLogLevel (srv : Server W) (req : Message) :
    (adoptLogLevel srv req).outbox = srv.outbox := by
  unfold adoptLogLevel
  split <;> rfl

theorem outbox_mcpServerDispatch (srv : Server W) (s : Session) (req : Message) :
    (mcpServerDispatch srv s req).1.outbox = srv.outbox := by
  have hadopt : (adoptLogLevel srv.countRequest req).outbox = srv.outbox :=
    outbox_adoptLogLevel srv.countRequest req
  unfold mcpServerDispatch
  split
  · rfl
  dsimp only
  split
  · exact hadopt
  · exact (RouteStep.dispatchRoute _ _ req _).outbox.trans hadopt

theorem outbox_mcpServerNotify (srv : Server W) (s : Session) (notif : Message) :
    (mcpServerNotify srv s notif).1.outbox = srv.outbox := by
  unfold mcpServerNotify
  split
  · rfl
  · split <;> rfl

end Mcpkit
