import Mcpkit.Server.Answers

/-!
# The counters and the tracer

A server counts the requests and the notifications it is given, the requests it
answers with an error and the calls of its tools, and tells its tracer when a
route begins and ends.  Requests leave the dispatcher at many places.  Over any
calls, on any sessions and in any order, the counters and the events agree with
what was asked and answered, and with what the host sees of its handlers.
-/

namespace Mcpkit

open Json JsonValue Protocol List Machine JString Option Binary64

variable {W : Type}

/-- A call on any session, which the host may have changed since its last call. -/
@[simp]
def serverStep (srv : Server W) (a : Session × Call) :
    Server W × Except Status (Option Message) :=
  ((callStep (srv, a.1) a.2).1.1, (callStep (srv, a.1) a.2).2)

/-- A host that sees the calls of its tools and its tracer: the handler of a tool counts its calls,
the tracer records its events, and no other handler does either. -/
structure Watches (srv : Server W) (seen : W → Nat × List TraceEvent) : Prop where
  tools : ∀ tool ∈ srv.tools, ∀ w s call,
    seen (tool.invoke w s call).effect.world = ((seen w).1 + 1, (seen w).2)
  resources : ∀ res ∈ srv.resources, ∀ f, res.onRead = some f →
    ∀ w s uri, seen (f w s uri).effect.world = seen w
  prompts : ∀ prompt ∈ srv.prompts, ∀ f, prompt.onGet = some f →
    ∀ w s args, seen (f w s args).effect.world = seen w
  completions : ∀ entry ∈ srv.completions, ∀ w s args, seen (entry.fn w s args).1.world = seen w
  tracer : ∃ f, srv.tracer = some f ∧ ∀ w ev, seen (f w ev) = ((seen w).1, (seen w).2 ++ [ev])

@[simp] def Call.isRequest : Call → Bool
  | .dispatch m => mcpMessageKind m = .request
  | .notify _ => false

/-- A notification without a method is not counted. -/
@[simp] def Call.isNotification : Call → Bool
  | .dispatch _ => false
  | .notify m => mcpMessageKind m = .notification && (mcpMessageMethod m).isSome

def errorCode (o : Except Status (Option Message)) : Option Int :=
  o.toOption.join.bind mcpMessageErrorCode

@[simp] def routedMethod (a : Session × Call) : Option JString :=
  match a.2 with
  | .notify _ => none
  | .dispatch m =>
    if mcpMessageKind m = .request then
      match dispatchGate a.1 m with
      | .reject _ _ => none
      | .route method _ => some method
    else none

/-- A routed request begins and ends, with the error code of its answer or zero. -/
@[simp] def eventsOf (a : Session × Call) (o : Except Status (Option Message)) : List TraceEvent :=
  (routedMethod a).elim [] fun method => [.begin method, .finish method ((errorCode o).getD 0)]

/-- Between two states the server has counted this many requests, notifications and errors and
every call of a tool that the host has seen, and the tracer has been told these events. -/
structure Accounts (seen : W → Nat × List TraceEvent) (srv srv' : Server W)
    (requests notifications errors : Nat) (events : List TraceEvent) : Prop where
  watches : Watches srv' seen
  requests : srv'.cRequestsTotal = srv.cRequestsTotal + .ofNat requests
  notifications : srv'.cNotificationsTotal = srv.cNotificationsTotal + .ofNat notifications
  errors : srv'.cRequestsError = srv.cRequestsError + .ofNat errors
  tools : srv'.cToolsCalled - .ofNat (seen srv'.world).1 =
    srv.cToolsCalled - .ofNat (seen srv.world).1
  events : (seen srv'.world).2 = (seen srv.world).2 ++ events

variable {seen : W → Nat × List TraceEvent} {srv srv' srv'' : Server W} {s s' : Session}
  {req : Message} {method : JString}

theorem Accounts.trans {r n e r' n' e' : Nat} {evs evs' : List TraceEvent}
    (h : Accounts seen srv srv' r n e evs) (h' : Accounts seen srv' srv'' r' n' e' evs') :
    Accounts seen srv srv'' (r + r') (n + n') (e + e') (evs ++ evs') where
  watches := h'.watches
  requests := by rw [h'.requests, h.requests, UInt64.ofNat_add, UInt64.add_assoc]
  notifications := by
    rw [h'.notifications, h.notifications, UInt64.ofNat_add, UInt64.add_assoc]
  errors := by rw [h'.errors, h.errors, UInt64.ofNat_add, UInt64.add_assoc]
  tools := h'.tools.trans h.tools
  events := by rw [h'.events, h.events, append_assoc]

namespace Watches

theorem of_eq (h : Watches srv seen)
    (heq : (srv'.tools, srv'.resources, srv'.prompts, srv'.completions, srv'.tracer) =
      (srv.tools, srv.resources, srv.prompts, srv.completions, srv.tracer)) :
    Watches srv' seen := by
  simp only [Prod.mk.injEq] at heq
  obtain ⟨htools, hresources, hprompts, hcompletions, htracer⟩ := heq
  exact ⟨htools ▸ h.tools, hresources ▸ h.resources, hprompts ▸ h.prompts,
    hcompletions ▸ h.completions, htracer ▸ h.tracer⟩

variable (h : Watches srv seen)

include h

theorem rest : Accounts seen srv srv 0 0 0 [] :=
  ⟨h, by simp, by simp, by simp, rfl, by simp⟩

theorem apply {e : Effect W} (heq : seen e.world = seen srv.world) :
    Accounts seen srv (srv.apply e) 0 0 0 [] :=
  { h.rest with
    watches := h.of_eq rfl
    tools := by rw [Server.apply, heq]
    events := by rw [Server.apply, heq, append_nil] }

theorem countRequest : Accounts seen srv srv.countRequest 1 0 0 [] :=
  { h.rest with watches := h.of_eq rfl, requests := rfl }

theorem countError : Accounts seen srv srv.countError 0 0 1 [] :=
  { h.rest with watches := h.of_eq rfl, errors := rfl }

theorem trace (ev : TraceEvent) : Accounts seen srv (srv.trace ev) 0 0 0 [ev] := by
  obtain ⟨f, hf, hseen⟩ := h.tracer
  have htrace : srv.trace ev = { srv with world := f srv.world ev } := by
    rw [Server.trace, hf]
  rw [htrace]
  exact { h.rest with
    watches := h.of_eq rfl
    tools := by rw [hseen]
    events := by rw [hseen] }

theorem adoptLogLevel (req : Message) : Accounts seen srv (adoptLogLevel srv req) 0 0 0 [] := by
  obtain ⟨level, hlevel⟩ := adoptLogLevel_eq srv req
  rw [hlevel]
  exact { h.rest with watches := h.of_eq rfl }

theorem route (hroute : RouteEffect srv s req method srv' s') :
    Accounts seen srv srv' 0 0 0 [] := by
  cases hroute with
  | @tool tool params hmem =>
    have heq := h.tools tool hmem srv.world s (toolCallCtx params)
    rw [callTool_eq]
    refine { h.rest with watches := h.of_eq rfl, tools := ?_, events := ?_ }
    · simp only [Server.apply, heq, UInt64.ofNat_add]
      grind
    · simp only [Server.apply, heq, append_nil]
  | handler hhandler =>
    cases hhandler with
    | resource uri hmem hread => exact h.apply (h.resources _ hmem _ hread _ _ _)
    | prompt args hmem hget => exact h.apply (h.prompts _ hmem _ hget _ _ _)
    | completion args hmem => exact h.apply (h.completions _ hmem _ _ _)
  | _ => exact { h.rest with watches := h.of_eq rfl }

end Watches

theorem getKey_error_subscriptionAck {notifs : Option JsonValue} {m : Message}
    (h : subscriptionAck req notifs = some m) : m.getKey "error" = none := by
  simp only [subscriptionAck, copyId_some, bind_eq_bind, bind_some, setTake_object,
    mcpNotificationNew, newString_bytes] at h
  cases h
  rfl

/-- The code of an error that a route answers with is not zero, so that the dispatcher counts it. -/
theorem errorCode_ne_zero (srv : Server W) (s : Session) (req : Message) (method : JString)
    (m : Message) (hm : (mcpServerRouteRequest srv s req method).2.2 = some m) :
    mcpMessageErrorCode m ≠ some 0 := by
  have hnone : m.getKey "error" = none → mcpMessageErrorCode m ≠ some 0 := fun h => by
    rw [(mcpMessageError_of_none h).1]
    nofun
  obtain hbuilt | ⟨-, notifs, hack⟩ := (RouteOutcome.mcpServerRouteRequest srv s req method).reply
  · obtain herror | ⟨code, text, hcode, hm, -⟩ := hbuilt.error_cases hm
    · exact hnone herror
    · have hcodes : errorCodes.all (fun code => (ofInt code.toInt).trunc ≠ 0) = true := by
        decide +kernel
      rw [hm, Ne, some.injEq]
      exact of_decide_eq_true (all_eq_true.mp hcodes code hcode)
  · exact hnone (getKey_error_subscriptionAck (hack.symm.trans hm))

theorem errorCode_orNoMem_errResp (req : Message) (code : Int32) (text : String) :
    errorCode ((orNoMem (errResp req code text)).map some) =
      some (ofInt code.toInt).trunc := by
  obtain ⟨m, hm, -⟩ := exists_errResp req code text
  rw [hm]
  exact (errorCode_errResp hm).1

/-- The two events of a route, and the error if its answer is one. -/
theorem Watches.dispatchRoute (h : Watches srv seen) (s : Session) (req : Message)
    (method : JString) :
    let r := Mcpkit.dispatchRoute srv s req method
    let o := errorCode (r.2.2.map some)
    Accounts seen srv r.1 0 0 o.isSome.toNat [.begin method, .finish method (o.getD 0)] := by
  have hbegin := h.trace (.begin method)
  have hroute := hbegin.trans (hbegin.watches.route
    (RouteOutcome.mcpServerRouteRequest (srv.trace (.begin method)) s req method).effect)
  have hcode := errorCode_ne_zero (srv.trace (.begin method)) s req method
  unfold Mcpkit.dispatchRoute
  split
  next srv' s' heq =>
    rw [heq] at hroute
    have hcounted := hroute.trans hroute.watches.countError
    dsimp only
    rw [errorCode_orNoMem_errResp]
    have hinternal : (ofInt rpcInternalError.toInt).trunc = rpcInternalError.toInt := by
      decide +kernel
    rw [hinternal]
    exact hcounted.trans (hcounted.watches.trace _)
  next srv' s' m heq =>
    rw [heq] at hroute hcode
    dsimp only
    have hsome : errorCode ((Except.ok m : Except Status Message).map some) =
        mcpMessageErrorCode m := rfl
    rw [hsome]
    cases hm : mcpMessageErrorCode m with
    | none => exact hroute.trans (hroute.watches.trace _)
    | some code =>
      have hne : code ≠ 0 := fun hzero => hcode m rfl (hzero ▸ hm)
      have hcounted := hroute.trans hroute.watches.countError
      rw [getD_some, if_pos hne]
      exact hcounted.trans (hcounted.watches.trace _)

theorem Watches.serverStep (h : Watches srv seen) (a : Session × Call) :
    let r := Mcpkit.serverStep srv a
    Accounts seen srv r.1 a.2.isRequest.toNat a.2.isNotification.toNat (errorCode r.2).isSome.toNat
      (eventsOf a r.2) := by
  have hfailed (status) : errorCode (.error status) = none := rfl
  have hsilent : errorCode (.ok none) = none := rfl
  obtain ⟨s, c⟩ := a
  cases c with
  | dispatch m =>
    by_cases hkind : mcpMessageKind m = .request
    · have hcounted := h.countRequest.trans (h.countRequest.watches.adoptLogLevel m)
      cases hgate : dispatchGate s m with
      | reject code text =>
        simpa [callStep, mcpServerDispatch, hkind, hgate, errorCode_orNoMem_errResp] using
          hcounted.trans hcounted.watches.countError
      | route method s' =>
        simpa [callStep, mcpServerDispatch, hkind, hgate] using
          hcounted.trans (hcounted.watches.dispatchRoute s' m method)
    · simpa [callStep, mcpServerDispatch, hkind, Except.map, hfailed] using h.rest
  | notify m =>
    by_cases hkind : mcpMessageKind m = .notification
    · cases hmethod : mcpMessageMethod m with
      | none => simpa [callStep, mcpServerNotify, hkind, hmethod, hsilent] using h.rest
      | some method =>
        simpa [callStep, mcpServerNotify, hkind, hmethod, hsilent] using
          { h.rest with watches := h.of_eq rfl, notifications := rfl }
    · simpa [callStep, mcpServerNotify, hkind, hfailed] using h.rest

theorem accounts_calls (h : Watches srv seen) (as : List (Session × Call)) :
    Accounts seen srv (exec serverStep srv as) (as.countP (·.2.isRequest))
      (as.countP (·.2.isNotification)) ((outputs serverStep srv as).countP (errorCode · |>.isSome))
      (zipWith eventsOf as (outputs serverStep srv as)).flatten := by
  induction as generalizing srv with
  | nil => exact h.rest
  | cons a as ih =>
    have hstep := h.serverStep a
    have hall := hstep.trans (ih hstep.watches)
    simpa only [exec_cons, outputs_cons, countP_cons, zipWith_cons_cons, flatten_cons, Nat.add_comm,
      Bool.toNat, Bool.cond_eq_ite] using hall

/-- Over any calls the counters and the events are those of the calls and their answers. -/
theorem accounts_exec (h : Watches srv seen) (as : List (Session × Call)) :
    Accounts seen srv (exec serverStep srv as) (as.countP (·.2.isRequest))
      (as.countP (·.2.isNotification)) ((outputs serverStep srv as).countP (errorCode · |>.isSome))
      (zipWith eventsOf as (outputs serverStep srv as)).flatten :=
  accounts_calls h as

/-- Over any dispatches the counters grow by the requests, by the answers that are errors and by the
calls of tools, and the tracer is told of each routed request that it begins and how it ends. -/
theorem dispatches_counted (h : Watches srv seen) (as : List (Session × Message)) :
    let calls := as.map fun a => (a.1, Call.dispatch a.2)
    let srv' := exec serverStep srv calls
    let answers := outputs serverStep srv calls
    srv'.cRequestsTotal - srv.cRequestsTotal = .ofNat (as.countP (mcpMessageKind ·.2 = .request)) ∧
      srv'.cRequestsError - srv.cRequestsError =
        .ofNat (answers.countP (errorCode · |>.isSome)) ∧
      srv'.cToolsCalled - srv.cToolsCalled =
        .ofNat (seen srv'.world).1 - .ofNat (seen srv.world).1 ∧
      (seen srv'.world).2 = (seen srv.world).2 ++ (zipWith eventsOf calls answers).flatten := by
  intro calls srv' answers
  have hall := accounts_calls h calls
  refine ⟨?_, ?_, ?_, hall.events⟩
  · rw [hall.requests, UInt64.add_comm, UInt64.add_sub_cancel, countP_map]
    rfl
  · rw [hall.errors, UInt64.add_comm, UInt64.add_sub_cancel]
  · have htools := hall.tools
    grind

/-- A tool whose handler counts its calls, and a tracer that keeps its events. -/
def watchedServer : Server (Nat × List TraceEvent) :=
  { mcpServerCreate (0, []) "demo" "1.0" with
    tools := [{ objectTool with
      schema := none
      handler := .v1 fun w s _ =>
        ⟨⟨(w.1 + 1, w.2), s.appsHost, s.granted⟩, .ok, some (.object [])⟩ }]
    tracer := some fun w ev => (w.1, w.2 ++ [ev]) }

theorem watches_watchedServer : Watches watchedServer id := by
  refine ⟨fun tool hmem w s call => ?_, nofun, nofun, nofun, _, rfl, fun _ _ => rfl⟩
  obtain rfl := mem_singleton.mp hmem
  rfl

theorem accounts_exec_callRequest :
    let srv := exec serverStep watchedServer [(openSession, .dispatch callRequest)]
    srv.cRequestsTotal = 1 ∧ srv.cToolsCalled - .ofNat srv.world.1 = 0 ∧ srv.world =
      (1, [.begin "tools/call", .finish "tools/call" 0]) := by
  have h := accounts_exec watches_watchedServer [(openSession, .dispatch callRequest)]
  exact ⟨h.requests, h.tools, Prod.ext (by decide +kernel) h.events⟩

/-- The second request comes before the session is initialized. -/
theorem dispatches_counted_refused :
    let srv := exec serverStep watchedServer
      [(openSession, .dispatch callRequest), (sessionNew, .dispatch pingRequest)]
    srv.cRequestsTotal - watchedServer.cRequestsTotal = 2 ∧
      srv.cRequestsError - watchedServer.cRequestsError = 1 ∧
      srv.cToolsCalled - watchedServer.cToolsCalled = .ofNat srv.world.1 - 0 ∧
      srv.world.2 = [.begin "tools/call", .finish "tools/call" 0] :=
  dispatches_counted watches_watchedServer [(openSession, callRequest), (sessionNew, pingRequest)]

end Mcpkit
