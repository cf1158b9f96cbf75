import Mcpkit.Server.Completions
import Mcpkit.Server.PagedRuns

/-!
# Registration with little memory

The host fills the registries of a server and sets what its replies are
decorated with.  Here memory may run out: which allocations of a call succeed is
an argument of the call.  An array of pointers is doubled when it is full, and no
array is larger than the address space.
-/

namespace Mcpkit

open Json JsonValue Protocol Bool

variable {W : Type}

structure Capacities where
  tools : Nat
  resources : Nat
  prompts : Nat
  completions : Nat

structure Registrar (W : Type) where
  server : Server W
  caps : Capacities

namespace Registrar

def create (world : W) (name version : CString) : Registrar W :=
  ⟨mcpServerCreate world name version, ⟨0, 0, 0, 0⟩⟩

end Registrar

/-- The capacity of an array after a test for room: absent if the `realloc` fails.  The entries of
the array have `size` bytes. -/
def makeRoom (ok : Bool) (size length cap : Nat) : Option Nat :=
  if length = cap then
    let ncap := if cap = 0 then 4 else cap * 2
    if ok && decide (ncap * size < sizeModulus) then some ncap else none
  else some cap

/-- `append_ptr`: the status, the capacity and the array. -/
def appendPtr {α : Type} (ok : Bool) (cap : Nat) (items : List α) (p : α) :
    Status × Nat × List α :=
  match makeRoom ok 8 items.length cap with
  | none => (.noMem, cap, items)
  | some ncap => (.ok, ncap, items ++ [p])

/-- The test for a duplicate and `append_ptr`, which the three kinds of entries share. -/
def addEntry {α : Type} (same : α → Bool) (ok : Bool) (cap : Nat) (items : List α) (p : α) :
    Status × Nat × List α :=
  if items.any same then (.alreadyExists, cap, items) else appendPtr ok cap items p

def mcpServerAddTool (ok : Bool) (r : Registrar W) (tool : Tool W) : Registrar W × Status :=
  let a := addEntry (·.name = tool.name) ok r.caps.tools r.server.tools tool
  (⟨{ r.server with tools := a.2.2 }, { r.caps with tools := a.2.1 }⟩, a.1)

def mcpServerAddResource (ok : Bool) (r : Registrar W) (res : Resource W) :
    Registrar W × Status :=
  let a := addEntry (·.uri = res.uri) ok r.caps.resources r.server.resources res
  (⟨{ r.server with resources := a.2.2 }, { r.caps with resources := a.2.1 }⟩, a.1)

def mcpServerAddPrompt (ok : Bool) (r : Registrar W) (prompt : Prompt W) : Registrar W × Status :=
  let a := addEntry (·.name = prompt.name) ok r.caps.prompts r.server.prompts prompt
  (⟨{ r.server with prompts := a.2.2 }, { r.caps with prompts := a.2.1 }⟩, a.1)

variable (r : Registrar W)

def mcpServerRemoveTool (name : CString) : Registrar W × Status :=
  match r.server.tools.findIdx? (·.name = name) with
  | none => (r, .notFound)
  | some i => (⟨{ r.server with tools := r.server.tools.swapRemove i }, r.caps⟩, .ok)

/-- `mcp_server_register_completion_provider`, which copies the prefix once there is room for the
entry of 24 bytes. -/
def registerProvider (succeeds : Nat → Bool) (r : Registrar W) (entry : CompletionEntry W) :
    Registrar W × Status :=
  let items := r.server.completions
  if items.any (·.refPrefix = entry.refPrefix) then (r, .alreadyExists)
  else
    match makeRoom (succeeds 0) 24 items.length r.caps.completions with
    | none => (r, .noMem)
    | some ncap =>
      let caps := { r.caps with completions := ncap }
      if succeeds (if items.length = r.caps.completions then 1 else 0) then
        (⟨{ r.server with completions := items ++ [entry] }, caps⟩, .ok)
      else (⟨r.server, caps⟩, .noMem)

def mcpServerSetListCache (ok : Bool) (r : Registrar W) (ttlMs : UInt64) (scope : Option CString) :
    Registrar W × Status :=
  let srv := { r.server with listTtlMs := ttlMs }
  if scope.isSome && !ok then (⟨srv, r.caps⟩, .noMem)
  else (⟨{ srv with listCacheScope := scope }, r.caps⟩, .ok)

def mcpServerSetResponseMeta (ok : Bool) (r : Registrar W) (metaJson : Option JsonValue) :
    Registrar W × Status :=
  if metaJson.isSome && !ok then (r, .noMem)
  else (⟨{ r.server with responseMeta := metaJson.map clone }, r.caps⟩, .ok)

theorem addEntry_cases {α : Type} (same : α → Bool) (ok : Bool) (cap : Nat) (items : List α)
    (p : α) :
    (∃ status, status ≠ .ok ∧ addEntry same ok cap items p = (status, cap, items)) ∨
      ∃ ncap, makeRoom ok 8 items.length cap = some ncap ∧ items.any same = false ∧
        addEntry same ok cap items p = (.ok, ncap, items ++ [p]) := by
  unfold addEntry appendPtr
  cases hany : items.any same with
  | true => exact .inl ⟨.alreadyExists, by decide, rfl⟩
  | false =>
    cases hroom : makeRoom ok 8 items.length cap with
    | none => exact .inl ⟨.noMem, by decide, rfl⟩
    | some ncap => exact .inr ⟨ncap, rfl, rfl, rfl⟩

/-- The entries fit into the array, and the array into the address space. -/
def ArrayFits (length cap : Nat) : Prop := length ≤ cap ∧ cap * 8 < sizeModulus

theorem ArrayFits.makeRoom {ok : Bool} {length cap ncap : Nat} (h : ArrayFits length cap)
    (hroom : makeRoom ok 8 length cap = some ncap) : ArrayFits (length + 1) ncap := by
  obtain ⟨hle, hcap⟩ := h
  unfold Mcpkit.makeRoom at hroom
  split at hroom
  · obtain ⟨hok, hncap⟩ := Option.ite_none_right_eq_some.mp hroom
    cases hncap
    rw [and_eq_true, decide_eq_true_iff] at hok
    refine ⟨?_, hok.2⟩
    split <;> omega
  · cases hroom
    exact ⟨by omega, hcap⟩

/-- A call of the host that adds to what the server answers with, with the allocations that
succeed. -/
inductive HostCall (W : Type) where
  | addTool (ok : Bool) (tool : Tool W)
  | addResource (ok : Bool) (res : Resource W)
  | addPrompt (ok : Bool) (prompt : Prompt W)
  | registerProvider (succeeds : Nat → Bool) (entry : CompletionEntry W)
  | setListCache (ok : Bool) (ttlMs : UInt64) (scope : Option CString)
  | setResponseMeta (ok : Bool) (metaJson : Option JsonValue)

namespace HostCall

def run : HostCall W → Registrar W × Status
  | addTool ok tool => mcpServerAddTool ok r tool
  | addResource ok res => mcpServerAddResource ok r res
  | addPrompt ok prompt => mcpServerAddPrompt ok r prompt
  | registerProvider succeeds entry => Mcpkit.registerProvider succeeds r entry
  | setListCache ok ttlMs scope => mcpServerSetListCache ok r ttlMs scope
  | setResponseMeta ok metaJson => mcpServerSetResponseMeta ok r metaJson

def effect (srv : Server W) : HostCall W → Server W
  | addTool _ tool => { srv with tools := srv.tools ++ [tool] }
  | addResource _ res => { srv with resources := srv.resources ++ [res] }
  | addPrompt _ prompt => { srv with prompts := srv.prompts ++ [prompt] }
  | registerProvider _ entry => { srv with completions := srv.completions ++ [entry] }
  | setListCache _ ttlMs scope => { srv with listTtlMs := ttlMs, listCacheScope := scope }
  | setResponseMeta _ metaJson => { srv with responseMeta := metaJson.map clone }

/-- A success with the full effect, or a failure after which the server answers whatever it is asked
as before. -/
def Settles (srv full srv' : Server W) (status : Status) : Prop :=
  (status = .ok ∧ srv' = full) ∨ status ≠ .ok ∧ ∀ (s : Session) (later : List Call),
    Machine.outputs callStep (srv', s) later = Machine.outputs callStep (srv, s) later

def Atomic (call : HostCall W) : Prop :=
  Settles r.server (call.effect r.server) (call.run r).1.server (call.run r).2

/-- The scope of a policy cannot be copied, and its time differs from the one that is set. -/
def TearsPolicy (call : HostCall W) : Prop :=
  ∃ ttlMs scope, call = .setListCache false ttlMs (some scope) ∧ ttlMs ≠ r.server.listTtlMs

theorem Settles.of_fail {srv full : Server W} {status : Status} (h : status ≠ .ok) :
    Settles srv full srv status := .inr ⟨h, fun _ _ => rfl⟩

theorem settles_addEntry {α : Type} {same : α → Bool} {ok : Bool} {cap : Nat} {items : List α}
    {p : α} {f : List α → Server W} :
    Settles (f items) (f (items ++ [p])) (f (addEntry same ok cap items p).2.2)
      (addEntry same ok cap items p).1 := by
  rcases addEntry_cases same ok cap items p with ⟨status, hne, heq⟩ | ⟨ncap, -, -, heq⟩
  · rw [heq]
    exact .of_fail hne
  · rw [heq]
    exact .inl ⟨rfl, rfl⟩

/-- A call of the host is atomic, unless it sets a policy of which it can only take over the
time. -/
theorem atomic_of_not_tearsPolicy (r : Registrar W) (call : HostCall W) (h : ¬TearsPolicy r call) :
    Atomic r call := by
  have hnoMem : Status.noMem ≠ .ok := by decide
  cases call with
  | addTool ok tool => exact settles_addEntry (f := fun items => { r.server with tools := items })
  | addResource ok res =>
    exact settles_addEntry (f := fun items => { r.server with resources := items })
  | addPrompt ok prompt =>
    exact settles_addEntry (f := fun items => { r.server with prompts := items })
  | registerProvider succeeds entry =>
    rw [Atomic, run, Mcpkit.registerProvider]
    dsimp only
    split
    · exact .of_fail (show Status.alreadyExists ≠ .ok by decide)
    split
    · exact .of_fail hnoMem
    cases succeeds (if r.server.completions.length = r.caps.completions then 1 else 0) with
    | true => exact .inl ⟨rfl, rfl⟩
    | false => exact .of_fail hnoMem
  | setListCache ok ttlMs scope =>
    rw [Atomic, run, mcpServerSetListCache]
    split
    next hfails =>
      rw [and_eq_true, Option.isSome_iff_exists, not_eq_true'] at hfails
      obtain ⟨⟨scope, rfl⟩, rfl⟩ := hfails
      have httl : ttlMs = r.server.listTtlMs := by_contra fun hne => h ⟨ttlMs, scope, rfl, hne⟩
      subst httl
      exact .of_fail hnoMem
    · exact .inl ⟨rfl, rfl⟩
  | setResponseMeta ok metaJson =>
    rw [Atomic, run, mcpServerSetResponseMeta]
    split
    · exact .of_fail hnoMem
    · exact .inl ⟨rfl, rfl⟩

/-- The scope cannot be copied, but the time is the one that is set. -/
theorem atomic_setListCache :
    Atomic ⟨{ bareServer with listTtlMs := 5 }, ⟨0, 0, 0, 0⟩⟩
      (.setListCache false 5 (some (JString.lit "public").toCString)) :=
  atomic_of_not_tearsPolicy _ _ (by rintro ⟨_, _, ⟨⟩, hne⟩; exact hne rfl)

/-- When the scope cannot be copied the call fails, but `server/discover` shows the new time. -/
theorem not_atomic_setListCache :
    ¬Atomic ⟨bareServer, ⟨0, 0, 0, 0⟩⟩
      (.setListCache false 5 (some (JString.lit "public").toCString)) := by
  rintro (⟨hok, -⟩ | ⟨-, hsame⟩)
  · cases hok
  · have hreply := congrArg (·.map fun o => o.toOption.map fun m => m.map fun m =>
      (mcpMessageResult m).map (·.objectGet "listTtlMs"))
      (hsame sessionNew [.dispatch discoverRequest])
    revert hreply
    decide

end HostCall

end Mcpkit
