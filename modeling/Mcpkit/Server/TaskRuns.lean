import Mcpkit.Protocol.Tasks
import Mcpkit.Server.Answers

/-!
# Tasks between the host and its clients

The host changes tasks with the operations of the task manager, the clients with `tasks/update` and
`tasks/cancel`, which have the effect of at most one operation: `working` for a task that waits for
input, and a cancellation.  The manager does not look at the status of a task before it writes
another, so a task that has ended can be revived.
-/

namespace Mcpkit.TaskRuns

open Json JsonValue Protocol Protocol.Tasks Machine Option

variable {W : Type}

/-- The host changes a task, or a call arrives on a session. -/
inductive TaskAction where
  | host (op : TaskOp)
  | call (s : Session) (c : Call)

/-- The manager after an operation; one that fails leaves it as it is. -/
def applyOp (mgr : TaskMgr) (op : TaskOp) : TaskMgr := (runOp mgr op).toOption.getD mgr

def taskStep (srv : Server W) : TaskAction → Server W × Unit
  | .host op => ({ srv with taskMgr := srv.taskMgr.map (applyOp · op) }, ())
  | .call s c => ((callStep (srv, s) c).1.1, ())

/-- The operation that a request amounts to, once it has reached the route of its method. -/
def routeOp (mgr : TaskMgr) (req : Message) (method : JString) : Option TaskOp :=
  (getString (mcpMessageParams req) "taskId").bind fun taskId =>
    if method = "tasks/update" then
      if (findTask mgr taskId.toCString).any (·.status = .inputRequired) then
        some (.write taskId.toCString
          (.setStatus .working (some (JString.lit "Input received; resuming").toCString)))
      else none
    else if method = "tasks/cancel" then some (.write taskId.toCString .cancel)
    else none

def actionOp (mgr : TaskMgr) : TaskAction → Option TaskOp
  | .host op => some op
  | .call s (.dispatch m) =>
    if mcpMessageKind m = .request then
      match dispatchGate s m with
      | .route method _ => routeOp mgr m method
      | .reject _ _ => none
    else none
  | .call _ (.notify _) => none

theorem taskMgr_trace (srv : Server W) (ev : TraceEvent) :
    (srv.trace ev).taskMgr = srv.taskMgr := by
  rw [Server.trace]
  split <;> rfl

def applyOp? (mgr : TaskMgr) (op : Option TaskOp) : TaskMgr := op.elim mgr (applyOp mgr)

theorem taskMgr_routeTasksUpdate (srv : Server W) (req : Message) :
    (routeTasksUpdate srv req).1.taskMgr =
      srv.taskMgr.map fun mgr => applyOp? mgr (routeOp mgr req "tasks/update") := by
  rw [routeTasksUpdate]
  cases hmgr : srv.taskMgr with
  | none => exact hmgr
  | some mgr =>
    cases hid : getString (mcpMessageParams req) "taskId" with
    | none => simp [routeOp, hid, applyOp?, hmgr]
    | some taskId =>
      dsimp only
      cases hfind : findTask mgr taskId.toCString with
      | none =>
        have hget : mcpTaskMgrGet mgr taskId.toCString = .error .notFound := by
          rw [mcpTaskMgrGet, hfind]
        simp [hget, routeOp, hid, hfind, applyOp?, hmgr]
      | some t =>
        rw [mcpTaskMgrGet_of_some hfind]
        by_cases hstatus : t.status = .inputRequired
        · simp [routeOp, hid, hfind, hstatus, applyOp?, applyOp, runOp, runWrite]
        · simp [routeOp, hid, hfind, hstatus, applyOp?]

theorem taskMgr_routeTasksCancel (srv : Server W) (req : Message) :
    (routeTasksCancel srv req).1.taskMgr =
      srv.taskMgr.map fun mgr => applyOp? mgr (routeOp mgr req "tasks/cancel") := by
  rw [routeTasksCancel]
  cases hmgr : srv.taskMgr with
  | none => exact hmgr
  | some mgr =>
    cases hid : getString (mcpMessageParams req) "taskId" with
    | none => simp [routeOp, hid, applyOp?, hmgr]
    | some taskId =>
      have hop : routeOp mgr req "tasks/cancel" =
          some (.write taskId.toCString .cancel) := by
        rw [routeOp, hid]
        rfl
      rw [map_some, hop]
      dsimp only
      cases hcancel : mcpTaskMgrCancel mgr taskId.toCString with
      | error status => simp [applyOp?, applyOp, runOp, runWrite, hcancel, hmgr, Except.toOption]
      | ok mgr' => simp [applyOp?, applyOp, runOp, runWrite, hcancel, Except.toOption]

variable {mgr : TaskMgr} {method : JString} {srv : Server W}

theorem routeOp_of_ne {req : Message} (hupdate : method ≠ "tasks/update")
    (hcancel : method ≠ "tasks/cancel") : routeOp mgr req method = none := by
  simp [routeOp, hupdate, hcancel]

theorem taskMgr_mcpServerRouteRequest_of_ne (srv : Server W) (s : Session) (req : Message)
    (hupdate : method ≠ "tasks/update") (hcancel : method ≠ "tasks/cancel") :
    (mcpServerRouteRequest srv s req method).1.taskMgr = srv.taskMgr := by
  have heffect := (RouteOutcome.mcpServerRouteRequest srv s req method).effect
  generalize (mcpServerRouteRequest srv s req method).1 = srv' at heffect ⊢
  generalize (mcpServerRouteRequest srv s req method).2.1 = s' at heffect
  cases heffect with
  | tasks mgr h => exact absurd h (not_or.mpr ⟨hupdate, hcancel⟩)
  | _ => rfl

theorem taskMgr_mcpServerRouteRequest (srv : Server W) (s : Session) (req : Message)
    (method : JString) :
    (mcpServerRouteRequest srv s req method).1.taskMgr =
      srv.taskMgr.map fun mgr => applyOp? mgr (routeOp mgr req method) := by
  by_cases hupdate : method = "tasks/update"
  · rw [hupdate]
    exact taskMgr_routeTasksUpdate srv req
  by_cases hcancel : method = "tasks/cancel"
  · rw [hcancel]
    exact taskMgr_routeTasksCancel srv req
  · simp only [taskMgr_mcpServerRouteRequest_of_ne srv s req hupdate hcancel,
      routeOp_of_ne hupdate hcancel, applyOp?, elim_none, map_id']

theorem taskMgr_dispatchRoute (srv : Server W) (s : Session) (req : Message) (method : JString) :
    (dispatchRoute srv s req method).1.taskMgr =
      srv.taskMgr.map fun mgr => applyOp? mgr (routeOp mgr req method) := by
  have hroute := taskMgr_mcpServerRouteRequest (srv.trace (.begin method)) s req method
  rw [taskMgr_trace] at hroute
  rw [dispatchRoute]
  split
  next srv' s' heq =>
    rw [heq] at hroute
    exact (taskMgr_trace _ _).trans hroute
  next srv' s' resp heq =>
    rw [heq] at hroute
    refine (taskMgr_trace _ _).trans (Eq.trans ?_ hroute)
    split <;> rfl

theorem taskMgr_mcpServerNotify (srv : Server W) (s : Session) (notif : Message) :
    (mcpServerNotify srv s notif).1.taskMgr = srv.taskMgr := by
  rw [mcpServerNotify]
  split
  · rfl
  · split <;> rfl

theorem taskMgr_mcpServerDispatch (srv : Server W) (s : Session) (req : Message) :
    (mcpServerDispatch srv s req).1.taskMgr =
      srv.taskMgr.map fun mgr => applyOp? mgr (actionOp mgr (.call s (.dispatch req))) := by
  by_cases hkind : mcpMessageKind req = .request
  · obtain ⟨level, hlevel⟩ := adoptLogLevel_eq srv.countRequest req
    cases hgate : dispatchGate s req with
    | reject code text =>
      simp only [actionOp, if_pos hkind, hgate]
      simp only [mcpServerDispatch, if_neg (not_not.mpr hkind), hgate, hlevel]
      exact map_id'.symm
    | route method s' =>
      simp only [actionOp, if_pos hkind, hgate]
      rw [mcpServerDispatch_of_route srv hkind hgate, hlevel]
      exact taskMgr_dispatchRoute _ s' req method
  · simp only [actionOp, if_neg hkind]
    rw [mcpServerDispatch, if_pos hkind]
    exact map_id'.symm

theorem taskMgr_taskStep (srv : Server W) (a : TaskAction) :
    (taskStep srv a).1.taskMgr = srv.taskMgr.map fun mgr => applyOp? mgr (actionOp mgr a) := by
  cases a with
  | host op => rfl
  | call s c =>
    cases c with
    | dispatch m => exact taskMgr_mcpServerDispatch srv s m
    | notify m => exact (taskMgr_mcpServerNotify srv s m).trans map_id'.symm

def ended : TaskStatus → Bool
  | .working => false
  | .inputRequired => false
  | .completed => true
  | .failed => true
  | .cancelled => true

def reported (srv : Server W) (taskId : CString) : Option TaskStatus :=
  srv.taskMgr.bind fun mgr => (mcpTaskMgrGet mgr taskId).toOption.map (·.status)

theorem reported_of_taskMgr (h : srv.taskMgr = some mgr) (taskId : CString) :
    reported srv taskId = (findTask mgr taskId).map (·.status) := by
  rw [reported, h, bind_some, mcpTaskMgrGet]
  cases findTask mgr taskId <;> rfl

theorem reported_of_none (h : srv.taskMgr = none) (taskId : CString) :
    reported srv taskId = none := by
  rw [reported, h, bind_none]

def StaysEnded (srv srv' : Server W) : Prop :=
  ∀ taskId status, ended status = true → reported srv taskId = some status →
    reported srv' taskId = some status

def SparesEnded (srv : Server W) (a : TaskAction) : Prop :=
  ∀ mgr taskId w t, srv.taskMgr = some mgr → actionOp mgr a = some (.write taskId w) →
    findTask mgr taskId = some t → ended t.status = true → w.newStatus = t.status

theorem findTask_applyOp {taskId : CString} {t : TaskEntry} (h : findTask mgr taskId = some t)
    (op : TaskOp) :
    findTask (applyOp mgr op) taskId = some t ∨
      ∃ w, op = .write taskId w ∧ findTask (applyOp mgr op) taskId = some (w.apply t) := by
  have hresult := opResult_runOp mgr op
  rw [applyOp]
  generalize runOp mgr op = result at hresult ⊢
  cases hresult with
  | failed op status => exact .inl h
  | created ttlMs pollIntervalMs hid hnone =>
    exact .inl (by rw [Except.toOption, getD_some, findTask_append, h, some_or])
  | @wrote other w t' mgr' hsome hwrote =>
    by_cases hother : taskId = other
    · subst hother
      obtain rfl := Option.some.inj (h.symm.trans hsome)
      exact .inr ⟨w, rfl, hwrote.found⟩
    · exact .inl ((hwrote.other taskId hother).trans h)

theorem findTask_applyOp_write {taskId : CString} {t : TaskEntry} (h : findTask mgr taskId = some t)
    (w : TaskWrite) : findTask (applyOp mgr (.write taskId w)) taskId = some (w.apply t) := by
  obtain ⟨mgr', hmodify, hwrote⟩ := modifyTask_of_some h w.taskId_apply
  rw [applyOp, runOp, runWrite_eq, hmodify]
  exact hwrote.found

theorem taskMgr_taskStep_of_some (h : srv.taskMgr = some mgr) (a : TaskAction) :
    (taskStep srv a).1.taskMgr = some (applyOp? mgr (actionOp mgr a)) := by
  rw [taskMgr_taskStep, h, map_some]

theorem staysEnded_taskStep_iff (srv : Server W) (a : TaskAction) :
    StaysEnded srv (taskStep srv a).1 ↔ SparesEnded srv a := by
  constructor
  · intro hstays mgr taskId w t hmgr hop ht hended
    have hmgr' := taskMgr_taskStep_of_some hmgr a
    have hafter := hstays taskId t.status hended (by rw [reported_of_taskMgr hmgr, ht]; rfl)
    rw [reported_of_taskMgr hmgr', hop, applyOp?, elim_some, findTask_applyOp_write ht,
      map_some, w.status_apply] at hafter
    exact Option.some.inj hafter
  intro hspares taskId status hended hbefore
  cases hmgr : srv.taskMgr with
  | none =>
    rw [reported_of_none hmgr] at hbefore
    cases hbefore
  | some mgr =>
    rw [reported_of_taskMgr hmgr] at hbefore
    rw [reported_of_taskMgr (taskMgr_taskStep_of_some hmgr a)]
    obtain ⟨t, ht, rfl⟩ := map_eq_some_iff.mp hbefore
    cases hop : actionOp mgr a with
    | none =>
      rw [applyOp?, elim_none, ht]
      rfl
    | some op =>
      rw [applyOp?, elim_some]
      obtain hkeep | ⟨w, rfl, hwrote⟩ := findTask_applyOp ht op
      · rw [hkeep]
        rfl
      · rw [hwrote, map_some, w.status_apply, hspares mgr taskId w t hmgr hop ht hended]

/-- All along a run a task that was reported as ended keeps its status, exactly if no action of
the run writes another status to a task that has ended. -/
theorem staysEnded_iff_sparesEnded (srv : Server W) (actions : List TaskAction) :
    (∀ before between after, actions = before ++ (between ++ after) →
        StaysEnded (exec taskStep srv before)
          (exec taskStep srv (before ++ between))) ↔
      Admissible taskStep SparesEnded srv actions :=
  forall_exec_related_iff_admissible (R := StaysEnded) (fun _ _ _ _ h => h)
    (fun _ _ _ h h' taskId status hended hbefore => h' taskId status hended
      (h taskId status hended hbefore))
    staysEnded_taskStep_iff

def taskRequest (method : String) : Message :=
  ⟨[("jsonrpc", .string "2.0"), ("id", .string "1"), ("method", .string method),
    ("params", .object [("taskId", .string "t")])]⟩

def taskT : CString := "t"

def taskServerAfter (actions : List TaskAction) : Server Unit :=
  exec taskStep { bareServer with taskMgr := some [] } actions

/-- A client cancels a task that has completed. -/
theorem reported_cancelAfterResult :
    reported (taskServerAfter [.host (.create taskT 0 0),
        .host (.write taskT (.setResult (some (.object []))))]) taskT = some .completed ∧
      reported (taskServerAfter [.host (.create taskT 0 0),
        .host (.write taskT (.setResult (some (.object [])))),
        .call openSession (.dispatch (taskRequest "tasks/cancel"))]) taskT = some .cancelled := by
  decide +kernel

end Mcpkit.TaskRuns
