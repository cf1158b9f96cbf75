import Mcpkit.Server.TaskRuns

/-!
# Answers about tasks

The status of a task and its three payloads are written by different operations.  A
result and an error come with the status they belong to.  The input requests of a task
stay when it leaves `input_required`, unless the host has cleared them before.
-/

namespace Mcpkit.TaskRuns

open Json JsonValue Protocol Protocol.Tasks List Assoc Machine Option

variable {W : Type}

structure Coherent (t : TaskEntry) : Prop where
  inputRequests : t.inputRequests.isSome → t.status = .inputRequired
  result : t.result.isSome → t.status = .completed
  error : t.error.isSome → t.status = .failed

/-- A task goes back and forth between `working` and `input_required` until it ends. -/
inductive Move : TaskStatus → TaskStatus → Prop
  | stay (status : TaskStatus) : Move status status
  | ask : Move .working .inputRequired
  | resume : Move .inputRequired .working
  | finish {status final : TaskStatus} (h : ended status = false) (hfinal : ended final = true) :
      Move status final

/-- The action moves tasks only in this way. -/
def Legal (srv : Server W) (a : TaskAction) : Prop :=
  ∀ taskId status status', reported srv taskId = some status →
    reported (taskStep srv a).1 taskId = some status' → Move status status'

def Answered (srv : Server W) (a : TaskAction) : Prop :=
  ∀ mgr taskId w t, srv.taskMgr = some mgr → actionOp mgr a = some (.write taskId w) →
    findTask mgr taskId = some t → t.status = .inputRequired → w.newStatus ≠ .inputRequired →
    t.inputRequests = none

theorem coherent_newTask (taskId : CString) (ttlMs pollIntervalMs : UInt64) :
    Coherent (newTask taskId ttlMs pollIntervalMs) := by
  constructor <;> exact fun h => absurd h (by simp [newTask])

theorem Move.eq_of_ended {status status' : TaskStatus} (h : Move status status')
    (hended : ended status = true) : status' = status := by
  cases h with
  | stay => rfl
  | ask | resume => cases hended
  | finish hnot hfinal => exact absurd hended (by simp [hnot])

theorem inputRequests_apply (w : TaskWrite) (t : TaskEntry) :
    (w.apply t).inputRequests = t.inputRequests ∨ w.newStatus = .inputRequired := by
  cases w with
  | setInputRequests inputRequests => exact .inr rfl
  | _ => exact .inl rfl

theorem result_apply (w : TaskWrite) (t : TaskEntry) :
    (w.apply t).result = t.result ∨ w.newStatus = .completed := by
  cases w with
  | setResult result => exact .inr rfl
  | _ => exact .inl rfl

theorem error_apply (w : TaskWrite) (t : TaskEntry) :
    (w.apply t).error = t.error ∨ w.newStatus = .failed := by
  cases w with
  | setError error => exact .inr rfl
  | _ => exact .inl rfl

variable {t desc : TaskEntry} {w : TaskWrite} {mgr : TaskMgr} {key : JString}

theorem coherent_apply (h : Coherent t) (hmove : Move t.status w.newStatus)
    (hanswered : t.status = .inputRequired → w.newStatus ≠ .inputRequired →
      t.inputRequests = none) :
    Coherent (w.apply t) := by
  constructor
  case inputRequests =>
    intro hsome
    rw [w.status_apply]
    obtain hkeep | hset := inputRequests_apply w t
    · rw [hkeep] at hsome
      by_contra hleaves
      rw [hanswered (h.inputRequests hsome) hleaves] at hsome
      cases hsome
    · exact hset
  case result =>
    intro hsome
    rw [w.status_apply]
    obtain hkeep | hset := result_apply w t
    · have hstatus := h.result (hkeep ▸ hsome)
      exact (hmove.eq_of_ended (by rw [hstatus]; rfl)).trans hstatus
    · exact hset
  case error =>
    intro hsome
    rw [w.status_apply]
    obtain hkeep | hset := error_apply w t
    · have hstatus := h.error (hkeep ▸ hsome)
      exact (hmove.eq_of_ended (by rw [hstatus]; rfl)).trans hstatus
    · exact hset

def AllCoherent (srv : Server W) : Prop := ∀ mgr, srv.taskMgr = some mgr → ∀ t ∈ mgr, Coherent t

theorem coherent_applyOp (h : ∀ t ∈ mgr, Coherent t) {op : TaskOp}
    (hwrite : ∀ taskId w t, op = .write taskId w → findTask mgr taskId = some t →
      Coherent (w.apply t)) :
    ∀ t ∈ applyOp mgr op, Coherent t := by
  have hresult := opResult_runOp mgr op
  rw [applyOp]
  generalize runOp mgr op = result at hresult ⊢
  cases hresult with
  | failed op status => exact h
  | created ttlMs pollIntervalMs hid hnone =>
    intro t ht
    obtain ht | ht := mem_append.mp ht
    · exact h t ht
    · rw [mem_singleton.mp ht]
      exact coherent_newTask _ _ _
  | @wrote taskId w t mgr' hsome hwrote =>
    intro t' ht'
    obtain ht' | rfl := hwrote.mem t' ht'
    · exact h t' ht'
    · exact hwrite taskId w t rfl hsome

variable {srv : Server W} {members : MemberList} {obj : JsonValue}

theorem allCoherent_taskStep (h : AllCoherent srv) {a : TaskAction} (hlegal : Legal srv a)
    (hanswered : Answered srv a) : AllCoherent (taskStep srv a).1 := by
  intro mgr' hmgr'
  cases hmgr : srv.taskMgr with
  | none =>
    rw [taskMgr_taskStep, hmgr] at hmgr'
    cases hmgr'
  | some mgr =>
    have hafter := taskMgr_taskStep_of_some hmgr a
    obtain rfl := Option.some.inj (hmgr'.symm.trans hafter)
    cases hop : actionOp mgr a with
    | none => exact h mgr hmgr
    | some op =>
      refine coherent_applyOp (h mgr hmgr) ?_
      rintro taskId w t rfl ht
      refine coherent_apply (h mgr hmgr t (mem_of_findTask ht)) ?_
        (hanswered mgr taskId w t hmgr hop ht)
      apply hlegal taskId
      · rw [reported_of_taskMgr hmgr, ht, map_some]
      · rw [reported_of_taskMgr hafter, hop, applyOp?, elim_some,
          findTask_applyOp_write ht, map_some, w.status_apply]

/-- The members of an answer fit the status it names. -/
structure CoherentAnswer (answer : JsonValue) : Prop where
  inputRequests : (answer.objectGet "inputRequests").isSome →
    answer.objectGet "status" = some (.string "input_required")
  result : (answer.objectGet "result").isSome →
    answer.objectGet "status" = some (.string "completed")
  error : (answer.objectGet "error").isSome →
    answer.objectGet "status" = some (.string "failed")

def AnswersCoherent (srv : Server W) : Prop :=
  ∀ s req resp result, mcpMessageMethod req = some (.lit "tasks/get") →
    (mcpServerDispatch srv s req).2.2 = .ok resp → mcpMessageResult resp = some result →
    CoherentAnswer result

theorem setOptional_object (members : MemberList) (key : String)
    (val : Option JsonValue) :
    setOptional (.object members) key val =
      some (.object (val.elim members (set members key))) := by
  cases val with
  | none => rfl
  | some v => exact setTake_object members key v

theorem lookup_setOptional_of_ne {k : JString} (h : k ≠ key) (val : Option JsonValue) :
    (val.elim members (set members key)).lookup k = members.lookup k := by
  cases val with
  | none => rfl
  | some v => exact lookup_set_of_ne members h v

theorem lookup_setOptional_self (h : members.lookup key = none) (val : Option JsonValue) :
    (val.elim members (set members key)).lookup key = val := by
  cases val with
  | none => exact h
  | some v => exact lookup_set_self members key v

theorem setWhen_object {c : Bool} {key : String} {val : Option JsonValue}
    (h : setWhen c (.object members) key val = some obj) :
    ∃ members', obj = .object members' ∧
      ∀ k, k ≠ .lit key → members'.lookup k = members.lookup k := by
  rw [setWhen] at h
  split at h
  · obtain ⟨v, -, hset⟩ := bind_eq_some_iff.mp h
    rw [setTake_object] at hset
    exact ⟨_, (Option.some.inj hset).symm, fun k hk => lookup_set_of_ne members hk v⟩
  · exact ⟨members, (Option.some.inj h).symm, fun _ _ => rfl⟩

theorem exists_head_mcpTaskDescToJson (h : mcpTaskDescToJson desc = some obj) :
    ∃ head : MemberList,
      head.lookup (.lit "status") = some (.string (.lit (mcpTaskStatusName desc.status))) ∧
      (∀ k ∈ [JString.lit "result", .lit "error", .lit "inputRequests"], head.lookup k = none) ∧
      (do
        let obj ← setOptional (.object head) "result" (desc.result.map clone)
        let obj ← setOptional obj "error" (desc.error.map clone)
        setOptional obj "inputRequests" (desc.inputRequests.map clone)) = some obj := by
  obtain ⟨id, -, h⟩ := bind_eq_some_iff.mp h
  rw [setTake_object] at h
  obtain ⟨obj₁, hobj₁, h⟩ := bind_eq_some_iff.mp h
  obtain rfl := Option.some.inj hobj₁
  rw [setTake_object] at h
  obtain ⟨obj₂, hobj₂, h⟩ := bind_eq_some_iff.mp h
  obtain rfl := Option.some.inj hobj₂
  obtain ⟨obj₃, hobj₃, h⟩ := bind_eq_some_iff.mp h
  obtain ⟨members₃, rfl, hkeep₃⟩ := setWhen_object hobj₃
  obtain ⟨obj₄, hobj₄, h⟩ := bind_eq_some_iff.mp h
  obtain ⟨members₄, rfl, hkeep₄⟩ := setWhen_object hobj₄
  obtain ⟨obj₅, hobj₅, h⟩ := bind_eq_some_iff.mp h
  obtain ⟨members₅, rfl, hkeep₅⟩ := setWhen_object hobj₅
  refine ⟨members₅, ?_, ?_, h⟩
  · rw [hkeep₅ _ (by decide), hkeep₄ _ (by decide), hkeep₃ _ (by decide)]
    exact lookup_set_self _ _ _
  intro k hk
  simp only [mem_cons, not_mem_nil, or_false] at hk
  obtain rfl | rfl | rfl := hk <;>
    rw [hkeep₅ _ (by decide), hkeep₄ _ (by decide), hkeep₃ _ (by decide),
      lookup_set_of_ne _ (by decide), lookup_set_of_ne _ (by decide)] <;> rfl

theorem members_mcpTaskDescToJson (h : mcpTaskDescToJson desc = some obj) :
    ∃ members, obj = .object members ∧
      members.lookup (.lit "status") = some (.string (.lit (mcpTaskStatusName desc.status))) ∧
      members.lookup (.lit "result") = desc.result.map clone ∧
      members.lookup (.lit "error") = desc.error.map clone ∧
      members.lookup (.lit "inputRequests") = desc.inputRequests.map clone := by
  obtain ⟨head, hstatus, hnone, h⟩ := exists_head_mcpTaskDescToJson h
  simp only [setOptional_object, bind, Option.bind] at h
  obtain rfl := Option.some.inj h
  refine ⟨_, rfl, ?_, ?_, ?_, ?_⟩
  · rw [lookup_setOptional_of_ne (by decide), lookup_setOptional_of_ne (by decide),
      lookup_setOptional_of_ne (by decide), hstatus]
  · rw [lookup_setOptional_of_ne (by decide), lookup_setOptional_of_ne (by decide),
      lookup_setOptional_self (hnone _ (by simp))]
  · rw [lookup_setOptional_of_ne (by decide), lookup_setOptional_self]
    rw [lookup_setOptional_of_ne (by decide), hnone _ (by simp)]
  · rw [lookup_setOptional_self]
    rw [lookup_setOptional_of_ne (by decide), lookup_setOptional_of_ne (by decide),
      hnone _ (by simp)]

theorem answer_routeTasksGet {req resp : Message} {result : JsonValue}
    (h : routeTasksGet srv req = some resp) (hresult : mcpMessageResult resp = some result) :
    ∃ mgr t members, srv.taskMgr = some mgr ∧ t ∈ mgr ∧
      result = .object (set members (.lit "resultType") (.string (.lit "complete"))) ∧
      members.lookup (.lit "status") = some (.string (.lit (mcpTaskStatusName t.status))) ∧
      members.lookup (.lit "result") = t.result.map clone ∧
      members.lookup (.lit "error") = t.error.map clone ∧
      members.lookup (.lit "inputRequests") = t.inputRequests.map clone := by
  rw [routeTasksGet] at h
  split at h
  · rw [mcpMessageResult_errResp h] at hresult
    cases hresult
  next mgr hmgr =>
    split at h
    · rw [mcpMessageResult_errResp h] at hresult
      cases hresult
    next taskId _ =>
      cases hfind : findTask mgr taskId.toCString with
      | none =>
        have hget : mcpTaskMgrGet mgr taskId.toCString = .error .notFound := by
          rw [mcpTaskMgrGet, hfind]
        rw [hget] at h
        rw [mcpMessageResult_errResp h] at hresult
        cases hresult
      | some t =>
        rw [mcpTaskMgrGet_of_some hfind] at h
        obtain ⟨obj, hobj, hrespond⟩ := bind_eq_some_iff.mp h
        obtain ⟨members, rfl, hmembers⟩ := members_mcpTaskDescToJson hobj
        exact ⟨mgr, t, members, hmgr, mem_of_findTask hfind,
          mcpMessageResult_respondDecorated hrespond hresult, hmembers⟩

theorem taskMgr_routedServer (srv : Server W) (req : Message) (method : JString) :
    (routedServer srv req method).taskMgr = srv.taskMgr := by
  obtain ⟨level, hlevel⟩ := adoptLogLevel_eq srv.countRequest req
  rw [routedServer, taskMgr_trace, hlevel]
  rfl

theorem AllCoherent.answers (h : AllCoherent srv) : AnswersCoherent srv := by
  intro s req resp result hmethod hresp hresult
  obtain ⟨method, s', hmethod', -, hroute⟩ := exists_route_of_result hresp hresult
  obtain rfl := Option.some.inj (hmethod'.symm.trans hmethod)
  obtain ⟨mgr, t, members, hmgr, ht, rfl, hstatus, hres, herr, hreq⟩ :=
    answer_routeTasksGet hroute hresult
  rw [taskMgr_routedServer] at hmgr
  have hcoherent := h mgr hmgr t ht
  constructor
  all_goals
    intro hsome
    simp only [objectGet] at hsome ⊢
    rw [lookup_set_of_ne _ (by decide)] at hsome ⊢
    rw [hstatus]
  case inputRequests =>
    rw [hreq, isSome_map] at hsome
    rw [hcoherent.inputRequests hsome, mcpTaskStatusName]
  case result =>
    rw [hres, isSome_map] at hsome
    rw [hcoherent.result hsome, mcpTaskStatusName]
  case error =>
    rw [herr, isSome_map] at hsome
    rw [hcoherent.error hsome, mcpTaskStatusName]

/-- In a run that moves tasks legally, and out of `input_required` only without input requests,
every answer is coherent. -/
theorem answersCoherent_of_answered (srv : Server W) {actions : List TaskAction}
    (h : Admissible taskStep (fun srv a => Legal srv a ∧ Answered srv a)
      { srv with taskMgr := some [] } actions) :
    AnswersCoherent (exec taskStep { srv with taskMgr := some [] } actions) := by
  refine AllCoherent.answers ?_
  refine exec_invariant_of_admissible (I := AllCoherent)
    (fun srv a ha hsrv => allCoherent_taskStep hsrv ha.1 ha.2) ?_ h
  intro mgr hmgr t ht
  obtain rfl := Option.some.inj hmgr
  exact absurd ht not_mem_nil

def taskAnswer (srv : Server Unit) : Option JsonValue :=
  match (mcpServerDispatch srv openSession (taskRequest "tasks/get")).2.2 with
  | .ok resp => mcpMessageResult resp
  | .error _ => none

/-- After one round of input the task works again and still shows what it asked for. -/
theorem taskAnswer_afterUpdate :
    reported (taskServerAfter [.host (.create taskT 0 0)]) taskT = some .working ∧
      reported (taskServerAfter [.host (.create taskT 0 0),
        .host (.write taskT (.setInputRequests (some (.array []))))]) taskT = some .inputRequired ∧
      (taskAnswer (taskServerAfter [.host (.create taskT 0 0),
          .host (.write taskT (.setInputRequests (some (.array [])))),
          .call openSession (.dispatch (taskRequest "tasks/update"))])).bind
        (·.objectGet "status") = some (.string "working") ∧
      (taskAnswer (taskServerAfter [.host (.create taskT 0 0),
          .host (.write taskT (.setInputRequests (some (.array [])))),
          .call openSession (.dispatch (taskRequest "tasks/update"))])).bind
        (·.objectGet "inputRequests") = some (.array []) := by
  decide +kernel

theorem legal_create (srv : Server W) (taskId : CString) (ttlMs pollIntervalMs : UInt64) :
    Legal srv (.host (.create taskId ttlMs pollIntervalMs)) ∧
      Answered srv (.host (.create taskId ttlMs pollIntervalMs)) := by
  refine ⟨fun other status status' hbefore hafter => ?_, fun _ _ _ _ _ hop => by cases hop⟩
  cases hmgr : srv.taskMgr with
  | none =>
    rw [reported_of_none hmgr] at hbefore
    cases hbefore
  | some mgr =>
    rw [reported_of_taskMgr hmgr] at hbefore
    rw [reported_of_taskMgr (taskMgr_taskStep_of_some hmgr _)] at hafter
    obtain ⟨t, ht, rfl⟩ := map_eq_some_iff.mp hbefore
    obtain hkeep | ⟨w, hop, -⟩ := findTask_applyOp ht (.create taskId ttlMs pollIntervalMs)
    · rw [actionOp, applyOp?, elim_some, hkeep, map_some] at hafter
      obtain rfl := Option.some.inj hafter
      exact .stay _
    · cases hop

theorem legal_write (hmgr : srv.taskMgr = some mgr) {taskId : CString}
    (ht : findTask mgr taskId = some t) (hmove : Move t.status w.newStatus)
    (hanswered : t.inputRequests = none ∨ w.newStatus = .inputRequired) :
    Legal srv (.host (.write taskId w)) ∧ Answered srv (.host (.write taskId w)) := by
  constructor
  · intro other status status' hbefore hafter
    rw [reported_of_taskMgr hmgr] at hbefore
    rw [reported_of_taskMgr (taskMgr_taskStep_of_some hmgr _), actionOp, applyOp?,
      elim_some] at hafter
    obtain ⟨t', ht', rfl⟩ := map_eq_some_iff.mp hbefore
    obtain hkeep | ⟨w', hop, hwrote⟩ := findTask_applyOp ht' (.write taskId w)
    · rw [hkeep, map_some] at hafter
      obtain rfl := Option.some.inj hafter
      exact .stay _
    obtain ⟨rfl, rfl⟩ := TaskOp.write.inj hop
    obtain rfl := Option.some.inj (ht.symm.trans ht')
    rw [hwrote, map_some, w.status_apply] at hafter
    obtain rfl := Option.some.inj hafter
    exact hmove
  · intro mgr' taskId' w' t' hmgr' hop ht' _ hleaves
    obtain rfl := Option.some.inj (hmgr.symm.trans hmgr')
    obtain ⟨rfl, rfl⟩ := TaskOp.write.inj (Option.some.inj hop)
    obtain rfl := Option.some.inj (ht.symm.trans ht')
    exact hanswered.resolve_right hleaves

/-- A round of input whose requests are cleared before the task goes on, and a result. -/
def clearedRound : List TaskAction :=
  [.host (.create taskT 0 0), .host (.write taskT (.setInputRequests (some (.array [])))),
    .host (.write taskT (.setInputRequests none)), .host (.write taskT (.setStatus .working none)),
    .host (.write taskT (.setResult (some (.object []))))]

theorem answersCoherent_clearedRound :
    Admissible taskStep (fun srv a => Legal srv a ∧ Answered srv a) (taskServerAfter [])
        clearedRound ∧
      AnswersCoherent (taskServerAfter clearedRound) := by
  have hadmissible : Admissible taskStep (fun srv a => Legal srv a ∧ Answered srv a)
      (taskServerAfter []) clearedRound := by
    refine ⟨legal_create _ _ _ _, legal_write rfl rfl .ask (.inr rfl),
      legal_write rfl rfl (.stay _) (.inr rfl), legal_write rfl rfl .resume (.inl rfl),
      legal_write rfl rfl (.finish rfl rfl) (.inl rfl), trivial⟩
  exact ⟨hadmissible, answersCoherent_of_answered bareServer hadmissible⟩

end Mcpkit.TaskRuns
