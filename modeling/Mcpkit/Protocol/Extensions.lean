import Mcpkit.Protocol.Message

/-!
# Tasks, skills and results that ask for input

The parts of the protocol extensions that the server routes read: the table of
tasks, the registry of skills and the marker of a multi round-trip result.

A task id and a status message live in arrays of fixed size, so a longer text
is cut when it is stored.
-/

namespace Mcpkit.Protocol

open Json JsonValue Binary64

def safeCopyStr (dstSz : Nat) (src : CString) : CString :=
  ⟨src.bytes.take (dstSz - 1), fun h => src.noNul (List.mem_of_mem_take h)⟩

theorem safeCopyStr_eq_self_iff {dstSz : Nat} {src : CString} :
    safeCopyStr dstSz src = src ↔ src.bytes.length ≤ dstSz - 1 := by
  rw [← List.take_eq_self_iff]
  exact ⟨congrArg CString.bytes, fun h => by rw [safeCopyStr]; congr⟩

inductive TaskStatus where
  | working | inputRequired | completed | failed | cancelled
  deriving DecidableEq

def mcpTaskStatusName : TaskStatus → String
  | .working => "working"
  | .inputRequired => "input_required"
  | .completed => "completed"
  | .failed => "failed"
  | .cancelled => "cancelled"

/-- `mcp_task_entry_t`, and `mcp_task_desc_t` with the same fields. -/
structure TaskEntry where
  taskId : CString
  status : TaskStatus
  ttlMs : UInt64
  pollIntervalMs : UInt64
  statusMessage : CString
  result : Option JsonValue
  error : Option JsonValue
  inputRequests : Option JsonValue

abbrev TaskMgr := List TaskEntry

variable (obj : JsonValue) (mgr : TaskMgr)

def findTask (taskId : CString) : Option TaskEntry := mgr.find? (·.taskId = taskId)

def modifyTask (taskId : CString) (f : TaskEntry → TaskEntry) : Except Status TaskMgr :=
  match mgr.findIdx? (·.taskId = taskId) with
  | none => .error .notFound
  | some i => .ok (mgr.modify i f)

def mcpTaskMgrSetStatus (taskId : CString) (status : TaskStatus) (msg : Option CString) :
    Except Status TaskMgr :=
  modifyTask mgr taskId fun t =>
    { t with
      status := status
      statusMessage := match msg with
        | none => t.statusMessage
        | some msg => safeCopyStr 256 msg }

def mcpTaskMgrGet (taskId : CString) : Except Status TaskEntry :=
  match findTask mgr taskId with
  | none => .error .notFound
  | some t =>
    .ok { t with
      taskId := safeCopyStr 64 t.taskId
      statusMessage := safeCopyStr 256 t.statusMessage }

def mcpTaskMgrCancel (taskId : CString) : Except Status TaskMgr :=
  modifyTask mgr taskId fun t => { t with status := .cancelled }

/-- A member that is set only when its value is present. -/
def setOptional (key : String) (val : Option JsonValue) : Option JsonValue :=
  match val with
  | none => some obj
  | some v => obj.setTake key v

/-- A member that is set only under a condition. -/
def setWhen (c : Bool) (obj : JsonValue) (key : String) (val : Option JsonValue) :
    Option JsonValue :=
  if c then val.bind (obj.setTake key) else some obj

def mcpTaskDescToJson (desc : TaskEntry) : Option JsonValue := do
  let obj ← (JsonValue.object []).setTake "taskId" (← newString desc.taskId.bytes)
  let obj ← obj.setTake "status" (.string (.lit (mcpTaskStatusName desc.status)))
  let obj ← setWhen (0 < desc.ttlMs) obj "ttlMs" (newNumber (ofNat desc.ttlMs.toNat))
  let obj ← setWhen (0 < desc.pollIntervalMs) obj "pollIntervalMs"
    (newNumber (ofNat desc.pollIntervalMs.toNat))
  let obj ← setWhen (desc.statusMessage.bytes ≠ []) obj "statusMessage"
    (newString desc.statusMessage.bytes)
  let obj ← setOptional obj "result" (desc.result.map clone)
  let obj ← setOptional obj "error" (desc.error.map clone)
  setOptional obj "inputRequests" (desc.inputRequests.map clone)

structure SkillResource where
  uri : CString
  digest : CString
  size : UInt64

structure Skill where
  name : CString
  description : CString
  uri : CString
  frontmatter : Option JsonValue
  resources : List SkillResource

abbrev SkillRegistry := List Skill

def mcpSkillRegistryFind (reg : SkillRegistry) (nameOrUri : CString) : Option Skill :=
  reg.find? fun sk => sk.name = nameOrUri || sk.uri = nameOrUri

/-- `mcp_json_object_set_take` with its status ignored: a value that was not built, or that the
object refuses, leaves the object as it was. -/
def setTakeIgnored (key : String) (val : Option JsonValue) : JsonValue :=
  (val.bind (obj.setTake key)).getD obj

/-- One entry of the `resources` array of `mcp_skill_to_json`. -/
def skillResourceToJson (r : SkillResource) : JsonValue :=
  let item := setTakeIgnored (.object []) "uri" (newString r.uri.bytes)
  let item := setTakeIgnored item "digest" (newString r.digest.bytes)
  setTakeIgnored item "size" (newNumber (ofNat r.size.toNat))

/-- The `frontmatter` member of `mcp_skill_to_json`. -/
def setFrontmatter (skill : Skill) : Option JsonValue :=
  match skill.frontmatter with
  | some frontmatter => obj.setTake "frontmatter" frontmatter.clone
  | none =>
    let fm := setTakeIgnored (.object []) "name" (newString skill.name.bytes)
    let fm := setTakeIgnored fm "description" (newString skill.description.bytes)
    some (setTakeIgnored obj "frontmatter" (some fm))

def mcpSkillToJson (skill : Skill) : Option JsonValue := do
  let obj ← (JsonValue.object []).setTake "uri" (← newString skill.uri.bytes)
  let obj ← setFrontmatter obj skill
  obj.setTake "resources" (.array (skill.resources.map skillResourceToJson))

def mcpMrtrIsInputRequired (result : JsonValue) : Bool :=
  (result.objectGet "resultType").any (· = .string "input_required")

end Mcpkit.Protocol
