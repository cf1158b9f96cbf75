import Mcpkit.Lib.Machine
import Mcpkit.Protocol.Extensions

/-!
# The task manager

A task manager is a table from ids to tasks.  `mcp_task_mgr_create` looks its id up
as it is given and stores it in an array of 64 bytes, so an id of 64 bytes or more is
cut, is not found under its own name, and can be stored twice.
-/

namespace Mcpkit.Protocol

open Json List Machine Option Function

def newTask (taskId : CString) (ttlMs pollIntervalMs : UInt64) : TaskEntry where
  taskId := safeCopyStr 64 taskId
  status := .working
  ttlMs := ttlMs
  pollIntervalMs := pollIntervalMs
  statusMessage := ""
  result := none
  error := none
  inputRequests := none

def mcpTaskMgrCreate (mgr : TaskMgr) (taskId : CString) (ttlMs pollIntervalMs : UInt64) :
    Except Status TaskMgr :=
  if taskId.bytes = [] then .error .invalidArgument
  else if (findTask mgr taskId).isSome then .error .alreadyExists
  else .ok (mgr ++ [newTask taskId ttlMs pollIntervalMs])

def mcpTaskMgrSetResult (mgr : TaskMgr) (taskId : CString) (result : Option JsonValue) :
    Except Status TaskMgr :=
  modifyTask mgr taskId fun t => { t with result := result, status := .completed }

def mcpTaskMgrSetError (mgr : TaskMgr) (taskId : CString) (error : Option JsonValue) :
    Except Status TaskMgr :=
  modifyTask mgr taskId fun t => { t with error := error, status := .failed }

def mcpTaskMgrSetInputRequests (mgr : TaskMgr) (taskId : CString)
    (inputRequests : Option JsonValue) : Except Status TaskMgr :=
  modifyTask mgr taskId fun t => { t with inputRequests := inputRequests, status := .inputRequired }

variable {op : TaskOp}

namespace Tasks

inductive TaskWrite where
  | setStatus (status : TaskStatus) (msg : Option CString)
  | setResult (result : Option JsonValue)
  | setError (error : Option JsonValue)
  | setInputRequests (inputRequests : Option JsonValue)
  | cancel

inductive TaskOp where
  | create (taskId : CString) (ttlMs pollIntervalMs : UInt64)
  | write (taskId : CString) (w : TaskWrite)

def TaskOp.taskId : TaskOp → CString
  | .create taskId _ _ => taskId
  | .write taskId _ => taskId

def runWrite (mgr : TaskMgr) (taskId : CString) : TaskWrite → Except Status TaskMgr
  | .setStatus status msg => mcpTaskMgrSetStatus mgr taskId status msg
  | .setResult result => mcpTaskMgrSetResult mgr taskId result
  | .setError error => mcpTaskMgrSetError mgr taskId error
  | .setInputRequests inputRequests => mcpTaskMgrSetInputRequests mgr taskId inputRequests
  | .cancel => mcpTaskMgrCancel mgr taskId

def runOp (mgr : TaskMgr) : TaskOp → Except Status TaskMgr
  | .create taskId ttlMs pollIntervalMs => mcpTaskMgrCreate mgr taskId ttlMs pollIntervalMs
  | .write taskId w => runWrite mgr taskId w

def TaskWrite.newStatus : TaskWrite → TaskStatus
  | .setStatus status _ => status
  | .setResult _ => .completed
  | .setError _ => .failed
  | .setInputRequests _ => .inputRequired
  | .cancel => .cancelled

def TaskWrite.apply (w : TaskWrite) (t : TaskEntry) : TaskEntry :=
  match w with
  | .setStatus status msg =>
    { t with status := status, statusMessage := (msg.map (safeCopyStr 256)).getD t.statusMessage }
  | .setResult result => { t with result := result, status := .completed }
  | .setError error => { t with error := error, status := .failed }
  | .setInputRequests inputRequests =>
    { t with inputRequests := inputRequests, status := .inputRequired }
  | .cancel => { t with status := .cancelled }

@[simp] theorem TaskWrite.taskId_apply (w : TaskWrite) (t : TaskEntry) :
    (w.apply t).taskId = t.taskId := by
  cases w <;> rfl

@[simp] theorem TaskWrite.status_apply (w : TaskWrite) (t : TaskEntry) :
    (w.apply t).status = w.newStatus := by
  cases w <;> rfl

theorem runWrite_eq (mgr : TaskMgr) (taskId : CString) (w : TaskWrite) :
    runWrite mgr taskId w = modifyTask mgr taskId w.apply := by
  cases w with
  | setStatus status msg => cases msg <;> rfl
  | _ => rfl

variable {taskId : CString} {mgr : TaskMgr} {t : TaskEntry}

theorem taskId_of_findTask (h : findTask mgr taskId = some t) : t.taskId = taskId := by
  simpa using find?_some h

theorem findTask_cons (t : TaskEntry) (mgr : TaskMgr) (taskId : CString) :
    findTask (t :: mgr) taskId = if t.taskId = taskId then some t else findTask mgr taskId := by
  rw [findTask, find?_cons]
  split <;> simp_all [findTask]

theorem modifyTask_cons (t : TaskEntry) (mgr : TaskMgr) (taskId : CString)
    (f : TaskEntry → TaskEntry) :
    modifyTask (t :: mgr) taskId f =
      if t.taskId = taskId then .ok (f t :: mgr) else (modifyTask mgr taskId f).map (t :: ·) := by
  rw [modifyTask, findIdx?_cons]
  by_cases h : t.taskId = taskId
  · simp [h]
  · simp only [h, decide_false, Bool.false_eq_true, if_false, modifyTask]
    cases mgr.findIdx? (·.taskId = taskId) <;> rfl

theorem findTask_append (mgr : TaskMgr) (t : TaskEntry) (taskId : CString) :
    findTask (mgr ++ [t]) taskId =
      (findTask mgr taskId).or (if t.taskId = taskId then some t else none) := by
  simp [findTask]

theorem modifyTask_of_none (h : findTask mgr taskId = none) (f : TaskEntry → TaskEntry) :
    modifyTask mgr taskId f = .error .notFound := by
  have hnone : mgr.findIdx? (·.taskId = taskId) = none :=
    findIdx?_eq_none_iff.mpr fun t ht => by simpa using find?_eq_none.mp h t ht
  simp only [modifyTask, hnone]

/-- One task was changed to `new`; the ids and all other tasks are as they were. -/
structure Wrote (mgr : TaskMgr) (taskId : CString) (new : TaskEntry) (mgr' : TaskMgr) : Prop where
  found : findTask mgr' taskId = some new
  other : ∀ other, other ≠ taskId → findTask mgr' other = findTask mgr other
  ids : mgr'.map (·.taskId) = mgr.map (·.taskId)
  mem : ∀ t ∈ mgr', t ∈ mgr ∨ t = new

theorem modifyTask_of_some (h : findTask mgr taskId = some t) {f : TaskEntry → TaskEntry}
    (hf : ∀ t, (f t).taskId = t.taskId) :
    ∃ mgr', modifyTask mgr taskId f = .ok mgr' ∧ Wrote mgr taskId (f t) mgr' := by
  induction mgr with
  | nil => cases h
  | cons head mgr ih =>
    rw [findTask_cons] at h
    rw [modifyTask_cons]
    split at h
    next hid =>
      obtain rfl := Option.some.inj h
      refine ⟨f head :: mgr, if_pos hid, ?_, ?_, ?_, ?_⟩
      · rw [findTask_cons, hf, if_pos hid]
      · intro other hother
        rw [findTask_cons, findTask_cons, hf, hid, if_neg hother.symm, if_neg hother.symm]
      · simp [hf]
      intro t' ht'
      obtain rfl | ht' := mem_cons.mp ht'
      · exact .inr rfl
      · exact .inl (mem_cons_of_mem _ ht')
    next hid =>
      obtain ⟨mgr', hmodify, hwrote⟩ := ih h
      refine ⟨head :: mgr', by rw [if_neg hid, hmodify]; rfl, ?_, ?_, ?_, ?_⟩
      · rw [findTask_cons, if_neg hid, hwrote.found]
      · intro other hne
        rw [findTask_cons, findTask_cons, hwrote.other other hne]
      · rw [map_cons, map_cons, hwrote.ids]
      intro t' ht'
      obtain rfl | ht' := mem_cons.mp ht'
      · exact .inl mem_cons_self
      · exact (hwrote.mem t' ht').imp_left (mem_cons_of_mem _)

/-- What an operation can do: fail, append a task, or write to one. -/
inductive OpResult (mgr : TaskMgr) : TaskOp → Except Status TaskMgr → Prop
  | failed (op : TaskOp) (status : Status) : OpResult mgr op (.error status)
  | created {taskId : CString} (ttlMs pollIntervalMs : UInt64) (hid : taskId.bytes ≠ [])
      (hnone : findTask mgr taskId = none) :
      OpResult mgr (.create taskId ttlMs pollIntervalMs)
        (.ok (mgr ++ [newTask taskId ttlMs pollIntervalMs]))
  | wrote {taskId : CString} (w : TaskWrite) {t : TaskEntry} {mgr' : TaskMgr}
      (hsome : findTask mgr taskId = some t) (hwrote : Wrote mgr taskId (w.apply t) mgr') :
      OpResult mgr (.write taskId w) (.ok mgr')

theorem opResult_runOp (mgr : TaskMgr) (op : TaskOp) : OpResult mgr op (runOp mgr op) := by
  cases op with
  | create taskId ttlMs pollIntervalMs =>
    rw [runOp, mcpTaskMgrCreate]
    split
    · exact .failed _ _
    next hid =>
      split
      · exact .failed _ _
      next hnone => exact .created _ _ hid (by simpa using hnone)
  | write taskId w =>
    rw [runOp, runWrite_eq]
    cases hfind : findTask mgr taskId with
    | none =>
      rw [modifyTask_of_none hfind]
      exact .failed _ _
    | some t =>
      obtain ⟨mgr', hmodify, hwrote⟩ := modifyTask_of_some hfind w.taskId_apply
      rw [hmodify]
      exact .wrote w hfind hwrote

/-- A manager, and for every id that was created the status last set through it. -/
structure Ledger where
  mgr : TaskMgr
  latest : CString → Option TaskStatus

def Ledger.empty : Ledger := ⟨[], fun _ => none⟩

/-- The status that an operation records for its id, if it succeeds. -/
def record (latest : CString → Option TaskStatus) : TaskOp → CString → Option TaskStatus
  | .create taskId _ _ => Function.update latest taskId (some .working)
  | .write taskId w => Function.update latest taskId ((latest taskId).map fun _ => w.newStatus)

def opStep (st : Ledger) (op : TaskOp) : Ledger × Status :=
  match runOp st.mgr op with
  | .ok mgr => (⟨mgr, record st.latest op⟩, .ok)
  | .error status => (st, status)

/-- The manager is a map: a created id is found with its latest status, cannot be created again
and is not touched through other ids, and no id is stored twice. -/
structure Lawful (st : Ledger) : Prop where
  found : ∀ taskId status, st.latest taskId = some status →
    ∃ desc, mcpTaskMgrGet st.mgr taskId = .ok desc ∧ desc.taskId = taskId ∧ desc.status = status
  again : ∀ taskId, (st.latest taskId).isSome → ∀ ttlMs pollIntervalMs,
    mcpTaskMgrCreate st.mgr taskId ttlMs pollIntervalMs = .error .alreadyExists
  frame : ∀ taskId, (st.latest taskId).isSome → ∀ op : TaskOp, op.taskId ≠ taskId →
    mcpTaskMgrGet (opStep st op).1.mgr taskId = mcpTaskMgrGet st.mgr taskId
  distinct : (st.mgr.map (·.taskId)).Nodup

def CreatesShort (st : Ledger) : TaskOp → Prop
  | .create taskId ttlMs pollIntervalMs =>
    (runOp st.mgr (.create taskId ttlMs pollIntervalMs)).isOk → taskId.bytes.length ≤ 63
  | .write _ _ => True

/-- The ids that are stored are short and distinct, and the recorded statuses are the stored
ones. -/
structure Sound (st : Ledger) : Prop where
  distinct : (st.mgr.map (·.taskId)).Nodup
  fits : ∀ t ∈ st.mgr, t.taskId.bytes ≠ [] ∧ t.taskId.bytes.length ≤ 63
  latest : ∀ taskId, st.latest taskId = (findTask st.mgr taskId).map (·.status)

theorem mem_of_findTask (h : findTask mgr taskId = some t) : t ∈ mgr := mem_of_find?_eq_some h

variable {st : Ledger}

theorem Sound.findTask (h : Sound st) {status : TaskStatus}
    (hlatest : st.latest taskId = some status) :
    ∃ t, Protocol.findTask st.mgr taskId = some t ∧ t.status = status := by
  rw [h.latest] at hlatest
  obtain ⟨t, ht, rfl⟩ := map_eq_some_iff.mp hlatest
  exact ⟨t, ht, rfl⟩

theorem mcpTaskMgrGet_of_some (h : findTask mgr taskId = some t) :
    mcpTaskMgrGet mgr taskId = .ok { t with
      taskId := safeCopyStr 64 t.taskId
      statusMessage := safeCopyStr 256 t.statusMessage } := by
  rw [mcpTaskMgrGet, h]

theorem mcpTaskMgrGet_congr {mgr' : TaskMgr} (h : findTask mgr' taskId = findTask mgr taskId) :
    mcpTaskMgrGet mgr' taskId = mcpTaskMgrGet mgr taskId := by
  rw [mcpTaskMgrGet, mcpTaskMgrGet, h]

theorem findTask_opStep_of_ne (ht : findTask st.mgr taskId = some t) (hop : op.taskId ≠ taskId) :
    findTask (opStep st op).1.mgr taskId = findTask st.mgr taskId := by
  have hresult := opResult_runOp st.mgr op
  rw [opStep]
  generalize runOp st.mgr op = result at hresult ⊢
  cases hresult with
  | failed op status => rfl
  | created ttlMs pollIntervalMs hid hnone => rw [findTask_append, ht, some_or]
  | wrote w hsome hwrote => exact hwrote.other taskId hop.symm

theorem Sound.lawful (h : Sound st) : Lawful st where
  found taskId status hlatest := by
    obtain ⟨t, ht, hstatus⟩ := h.findTask hlatest
    have hid := taskId_of_findTask ht
    refine ⟨_, mcpTaskMgrGet_of_some ht, ?_, hstatus⟩
    rw [← hid]
    exact safeCopyStr_eq_self_iff.mpr (h.fits t (mem_of_findTask ht)).2
  again taskId hsome ttlMs pollIntervalMs := by
    obtain ⟨status, hlatest⟩ := isSome_iff_exists.mp hsome
    obtain ⟨t, ht, -⟩ := h.findTask hlatest
    have hid : taskId.bytes ≠ [] := taskId_of_findTask ht ▸ (h.fits t (mem_of_findTask ht)).1
    rw [mcpTaskMgrCreate, if_neg hid, ht, if_pos isSome_some]
  frame taskId hsome op hop := by
    obtain ⟨status, hlatest⟩ := isSome_iff_exists.mp hsome
    obtain ⟨t, ht, -⟩ := h.findTask hlatest
    exact mcpTaskMgrGet_congr (findTask_opStep_of_ne ht hop)
  distinct := h.distinct

theorem fits_newTask (hid : taskId.bytes ≠ []) (ttlMs pollIntervalMs : UInt64) :
    (newTask taskId ttlMs pollIntervalMs).taskId.bytes ≠ [] ∧
      (newTask taskId ttlMs pollIntervalMs).taskId.bytes.length ≤ 63 := by
  refine ⟨?_, length_take_le 63 _⟩
  simpa [newTask, safeCopyStr] using hid

theorem Sound.created (h : Sound st) {ttlMs pollIntervalMs : UInt64} (hid : taskId.bytes ≠ [])
    (hnone : Protocol.findTask st.mgr taskId = none) (hshort : taskId.bytes.length ≤ 63) :
    Sound ⟨st.mgr ++ [newTask taskId ttlMs pollIntervalMs],
      record st.latest (.create taskId ttlMs pollIntervalMs)⟩ := by
  have hstored : (newTask taskId ttlMs pollIntervalMs).taskId = taskId :=
    safeCopyStr_eq_self_iff.mpr hshort
  constructor
  case distinct =>
    rw [map_append, nodup_append]
    refine ⟨h.distinct, nodup_singleton _, ?_⟩
    intro a ha b hb hab
    obtain ⟨t, ht, rfl⟩ := mem_map.mp ha
    have hb : b = taskId := by simpa [hstored] using hb
    have hno := find?_eq_none.mp hnone t ht
    exact hno (decide_eq_true (hab.trans hb))
  case fits =>
    intro t ht
    obtain ht | ht := mem_append.mp ht
    · exact h.fits t ht
    · rw [mem_singleton.mp ht]
      exact fits_newTask hid ttlMs pollIntervalMs
  case latest =>
    intro other
    dsimp only [record]
    rw [findTask_append, hstored]
    by_cases hother : other = taskId
    · rw [hother, update_self, hnone, none_or, if_pos rfl]
      rfl
    · rw [update_of_ne hother, h.latest, if_neg (Ne.symm hother), or_none]

theorem Sound.wrote (h : Sound st) {w : TaskWrite} {mgr' : TaskMgr}
    (hsome : Protocol.findTask st.mgr taskId = some t)
    (hwrote : Wrote st.mgr taskId (w.apply t) mgr') :
    Sound ⟨mgr', record st.latest (.write taskId w)⟩ := by
  constructor
  case distinct =>
    rw [hwrote.ids]
    exact h.distinct
  case fits =>
    intro t' ht'
    obtain ht' | rfl := hwrote.mem t' ht'
    · exact h.fits t' ht'
    · rw [w.taskId_apply]
      exact h.fits t (mem_of_findTask hsome)
  case latest =>
    intro other
    dsimp only [record]
    by_cases hother : other = taskId
    · rw [hother, update_self, hwrote.found, h.latest, hsome, map_some,
        map_some, map_some, w.status_apply]
    · rw [update_of_ne hother, h.latest, hwrote.other other hother]

theorem Sound.opStep (h : Sound st) (hop : CreatesShort st op) : Sound (opStep st op).1 := by
  have hresult := opResult_runOp st.mgr op
  rw [Tasks.opStep]
  generalize hrun : runOp st.mgr op = result at hresult ⊢
  cases hresult with
  | failed op status => exact h
  | created ttlMs pollIntervalMs hid hnone => exact h.created hid hnone (hop (by rw [hrun]; rfl))
  | wrote w hsome hwrote => exact h.wrote hsome hwrote

theorem createsShort_of_lawful (h : Sound st) (hlawful : Lawful (opStep st op).1) :
    CreatesShort st op := by
  cases op with
  | write taskId w => trivial
  | create taskId ttlMs pollIntervalMs =>
    intro hok
    have hresult := opResult_runOp st.mgr (.create taskId ttlMs pollIntervalMs)
    rw [opStep] at hlawful
    generalize runOp st.mgr (.create taskId ttlMs pollIntervalMs) = result
      at hresult hlawful hok
    cases hresult with
    | failed op status => cases hok
    | created ttlMs pollIntervalMs hid hnone =>
      obtain ⟨desc, hget, -⟩ := hlawful.found taskId .working (update_self ..)
      rw [mcpTaskMgrGet] at hget
      split at hget
      · cases hget
      next t ht =>
        have hmem := mem_of_findTask ht
        rw [← taskId_of_findTask ht]
        obtain hmem | hmem := mem_append.mp hmem
        · exact (h.fits t hmem).2
        · rw [mem_singleton.mp hmem]
          exact (fits_newTask hid ttlMs pollIntervalMs).2

/-- The manager behaves as a map in every state of a run exactly if every task that is created has
an id of at most 63 bytes. -/
theorem lawful_iff_createsShort (ops : List TaskOp) :
    (∀ before after, ops = before ++ after → Lawful (exec opStep .empty before)) ↔
      Admissible opStep CreatesShort .empty ops := by
  have hempty : Sound .empty := ⟨nodup_nil, fun _ ht => absurd ht not_mem_nil, fun _ => rfl⟩
  exact forall_exec_iff_admissible_of_invariant (I := Sound) (P := Lawful)
    (fun st op h => ⟨createsShort_of_lawful h, fun hop => (h.opStep hop).lawful⟩)
    (fun st op h hop => h.opStep hop) hempty hempty.lawful

def longId : CString := ⟨List.replicate 64 0x61, by decide⟩

/-- It is created twice, is not found, and is stored twice. -/
theorem create_longId :
    outputs opStep .empty [.create longId 0 0, .create longId 0 0] = [.ok, .ok] ∧
      (mcpTaskMgrGet (exec opStep .empty [.create longId 0 0]).mgr longId).isOk = false ∧
      ¬((exec opStep .empty
        [.create longId 0 0, .create longId 0 0]).mgr.map (·.taskId)).Nodup := by
  decide +kernel

end Tasks

end Mcpkit.Protocol
