import Mathlib.Algebra.Order.Group.Int
import Mcpkit.Core.Status
import Mcpkit.Lib.EventLog
import Mcpkit.Lib.SortedBlock

/-!
# The reactor

The reactor keeps its descriptors in a sorted array.  With `poll` as its backend a second array
holds what `poll` is called with: slot 0 for the wakeup descriptor, slot `i + 1` for entry `i`.  A
step waits for events, copies those reported, and runs the callbacks, which may change both arrays.

What the system does is an argument: whether an allocation or `epoll_ctl` succeeds, what a wait
reports, when a stop is noticed.  The functions have no result where the C program would leave an
array or read a cell that was never written.

A run keeps beside the reactor a log of what is seen from outside: the calls with what they return,
what the waits report, and the callbacks.  A callback is a list of calls that may depend on the log.
-/

namespace Mcpkit.Runtime.Reactor

open EventLog

inductive Backend where
  | epoll
  | poll
deriving DecidableEq

def mcpEventRead : UInt32 := 1
def mcpEventWrite : UInt32 := 2
def mcpEventError : UInt32 := 4

def pollIn : UInt16 := 0x1
def pollOut : UInt16 := 0x4
def pollErr : UInt16 := 0x8
def pollHup : UInt16 := 0x10
def pollNval : UInt16 := 0x20
def pollRdhup : UInt16 := 0x2000

def epollIn : UInt32 := 0x1
def epollOut : UInt32 := 0x4
def epollErr : UInt32 := 0x8
def epollHup : UInt32 := 0x10
def epollRdhup : UInt32 := 0x2000

def mapToPollEvents (events : UInt32) : UInt16 :=
  let ev := if events &&& mcpEventRead ≠ 0 then pollIn ||| pollRdhup else 0
  if events &&& mcpEventWrite ≠ 0 then ev ||| pollOut else ev

/-- The part of a report that is for the registered events, as both backends compute it. -/
def reportedMask (readable writable failed : Bool) (registered : UInt32) : UInt32 :=
  let mask := if readable ∧ registered &&& mcpEventRead ≠ 0 then mcpEventRead else 0
  let mask := if writable ∧ registered &&& mcpEventWrite ≠ 0 then mask ||| mcpEventWrite else mask
  if failed then
    if registered &&& mcpEventError ≠ 0 then mask ||| mcpEventError
    else if registered &&& mcpEventRead ≠ 0 then mask ||| mcpEventRead
    else mask
  else mask

def mapFromPollRevents (revents : UInt16) (registered : UInt32) : UInt32 :=
  reportedMask (revents &&& (pollIn ||| pollRdhup) ≠ 0) (revents &&& pollOut ≠ 0)
    (revents &&& (pollErr ||| pollHup ||| pollNval) ≠ 0) registered

/-- The mask that the `epoll` loop of `mcp_reactor_step` computes. -/
def mapFromEpollEvents (events : UInt32) (registered : UInt32) : UInt32 :=
  reportedMask (events &&& (epollIn ||| epollRdhup) ≠ 0) (events &&& epollOut ≠ 0)
    (events &&& (epollErr ||| epollHup) ≠ 0) registered

/-- `mcp_reactor_entry_t`, with a number for the registration. -/
structure Entry (C U : Type) where
  fd : Int
  events : UInt32
  cb : C
  user : U
  generation : Nat
deriving DecidableEq

structure PollFd where
  fd : Int
  events : UInt16
  revents : UInt16

/-- `poll_event_snapshot_t`. -/
structure Snapshot where
  fd : Int
  revents : UInt16

/-- `struct mcp_reactor`. -/
structure State (C U : Type) where
  pollFds : Block PollFd
  snapshots : Block Snapshot
  wakeupFd : Int
  wakeupWriteFd : Int
  entries : Block (Entry C U)
  count : Nat
  capacity : Nat

variable {C U : Type} (backend : Backend) (r : State C U)

def mcpReactorCreate (wakeupFd wakeupWriteFd : Int) : State C U where
  pollFds := ⟨[some ⟨wakeupFd, pollIn, 0⟩]⟩
  snapshots := .null
  wakeupFd := wakeupFd
  wakeupWriteFd := wakeupWriteFd
  entries := .null
  count := 0
  capacity := 0

/-- `find_entry_idx`: whether there is an entry, and where it is or belongs. -/
def findEntryIdx (fd : Int) : Option (Bool × Nat) :=
  r.entries.search Entry.fd fd (r.count + 1) 0 r.count

/-- What the system grants to a call of `mcp_reactor_add`. -/
structure Grant where
  pollFdsOk : Bool
  snapshotsOk : Bool
  entriesOk : Bool
  ctlOk : Bool

def newCapacity (capacity : Nat) : Nat := if capacity = 0 then 16 else capacity * 2

/-- The calls of `rt_realloc` in `mcp_reactor_add`. -/
def growTables (grant : Grant) : Backend → State C U × Status
  | .epoll =>
    if !grant.entriesOk then (r, .noMem)
    else
      ({ r with
          entries := r.entries.resize (newCapacity r.capacity)
          capacity := newCapacity r.capacity }, .ok)
  | .poll =>
    if !grant.pollFdsOk then (r, .noMem)
    else if !grant.snapshotsOk then
      ({ r with pollFds := r.pollFds.resize (newCapacity r.capacity + 1) }, .noMem)
    else if !grant.entriesOk then
      ({ r with
          pollFds := r.pollFds.resize (newCapacity r.capacity + 1)
          snapshots := r.snapshots.resize (newCapacity r.capacity) }, .noMem)
    else
      ({ r with
          pollFds := r.pollFds.resize (newCapacity r.capacity + 1)
          snapshots := r.snapshots.resize (newCapacity r.capacity)
          entries := r.entries.resize (newCapacity r.capacity)
          capacity := newCapacity r.capacity }, .ok)

/-- The end of `mcp_reactor_add`. -/
def insertEntry (ins : Nat) (e : Entry C U) (ctlOk : Bool) :
    Backend → Option (State C U × Status)
  | .epoll =>
    if !ctlOk then some (r, .io)
    else do
      let entries ← r.entries.insertAt ins r.count e
      some ({ r with entries := entries, count := r.count + 1 }, .ok)
  | .poll => do
    let pollFds ← r.pollFds.insertAt (ins + 1) (r.count + 1) ⟨e.fd, mapToPollEvents e.events, 0⟩
    let entries ← r.entries.insertAt ins r.count e
    some ({ r with pollFds := pollFds, entries := entries, count := r.count + 1 }, .ok)

/-- `mcp_reactor_add` behind its checks. -/
def addEntry (ins : Nat) (e : Entry C U) (grant : Grant) : Option (State C U × Status) :=
  let (r, status) := if r.count = r.capacity then growTables r grant backend else (r, .ok)
  if status = .ok then insertEntry r ins e grant.ctlOk backend else some (r, status)

/-- The check of the events in `mcp_reactor_add` and `mcp_reactor_modify`. -/
def invalidEvents (events : UInt32) : Bool :=
  events &&& ~~~(mcpEventRead ||| mcpEventWrite ||| mcpEventError) ≠ 0

def mcpReactorAdd (fd : Int) (events : UInt32) (cb : Option C) (user : U) (number : Nat)
    (grant : Grant) : Option (State C U × Status) :=
  match cb with
  | none => some (r, .invalidArgument)
  | some cb =>
    if fd < 0 then some (r, .invalidArgument)
    else if invalidEvents events then some (r, .invalidArgument)
    else if fd = r.wakeupFd ∨ 0 ≤ r.wakeupWriteFd ∧ fd = r.wakeupWriteFd then
      some (r, .invalidArgument)
    else do
      let (found, ins) ← findEntryIdx r fd
      if found then some (r, .alreadyExists)
      else addEntry backend r ins ⟨fd, events, cb, user, number⟩ grant

/-- The end of `mcp_reactor_modify`. -/
def updateEntry (idx : Nat) (events : UInt32) (ctlOk : Bool) :
    Backend → Option (State C U × Status)
  | .epoll =>
    if !ctlOk then some (r, .io)
    else do
      let e ← r.entries.read idx
      let entries ← r.entries.write idx { e with events := events }
      some ({ r with entries := entries }, .ok)
  | .poll => do
    let slot ← r.pollFds.read (idx + 1)
    let pollFds ← r.pollFds.write (idx + 1) { slot with events := mapToPollEvents events }
    let e ← r.entries.read idx
    let entries ← r.entries.write idx { e with events := events }
    some ({ r with pollFds := pollFds, entries := entries }, .ok)

def mcpReactorModify (fd : Int) (events : UInt32) (ctlOk : Bool) : Option (State C U × Status) :=
  if fd < 0 then some (r, .invalidArgument)
  else if invalidEvents events then some (r, .invalidArgument)
  else do
    let (found, idx) ← findEntryIdx r fd
    if found then updateEntry r idx events ctlOk backend else some (r, .notFound)

/-- The end of `mcp_reactor_remove`. -/
def dropEntry (idx : Nat) : Backend → Option (State C U × Status)
  | .epoll => do
    let entries ← r.entries.eraseAt idx r.count
    some ({ r with entries := entries, count := r.count - 1 }, .ok)
  | .poll => do
    let pollFds ← r.pollFds.eraseAt (idx + 1) (r.count + 1)
    let entries ← r.entries.eraseAt idx r.count
    some ({ r with pollFds := pollFds, entries := entries, count := r.count - 1 }, .ok)

def mcpReactorRemove (fd : Int) : Option (State C U × Status) :=
  if fd < 0 then some (r, .invalidArgument)
  else do
    let (found, idx) ← findEntryIdx r fd
    if found then dropEntry r idx backend else some (r, .notFound)

inductive Call (C U : Type) where
  | add (fd : Int) (events : UInt32) (cb : Option C) (user : U) (grant : Grant)
  | modify (fd : Int) (events : UInt32) (ctlOk : Bool)
  | remove (fd : Int)

def call (number : Nat) :
    Call C U → Option (State C U × Status)
  | .add fd events cb user grant => mcpReactorAdd backend r fd events cb user number grant
  | .modify fd events ctlOk => mcpReactorModify backend r fd events ctlOk
  | .remove fd => mcpReactorRemove backend r fd

/-- What is seen of a reactor. -/
inductive Event (C U : Type) where
  | added (e : Entry C U)
  | modified (fd : Int) (events : UInt32)
  | removed (fd : Int)
  /-- A call has failed. -/
  | failed (status : Status)
  /-- A wait has reported events for these descriptors. -/
  | collected (ready : List Int)
  /-- The callback of a registration is run. -/
  | called (e : Entry C U) (mask : UInt32)
  /-- A step returns. -/
  | stepped (status : Status)
deriving DecidableEq

/-- A reactor and the log of its use. -/
abbrev Run (C U : Type) := Logged (State C U) (Event C U)

/-- What a call has done if it returns `MCP_OK`. -/
def Call.effect (number : Nat) : Call C U → Option (Event C U)
  | .add fd events cb user _ => cb.map fun cb => .added ⟨fd, events, cb, user, number⟩
  | .modify fd events _ => some (.modified fd events)
  | .remove fd => some (.removed fd)

/-- What the caller of a call sees. -/
def Call.event (number : Nat) (c : Call C U) (status : Status) : Event C U :=
  if status = .ok then (c.effect number).getD (.failed status) else .failed status

def perform (r : Run C U) (c : Call C U) : Option (Run C U) :=
  (call backend r.state r.log.length c).map fun (state, status) =>
    ⟨state, r.log ++ [c.event r.log.length status]⟩

/-- What a wait reports: pairs of descriptors and events, or the events for each slot. -/
def Report : Backend → Type
  | .epoll => List (Int × UInt32)
  | .poll => Nat → UInt16

structure Env (backend : Backend) where
  shutdownBefore : Bool
  /-- The report, or whether the wait that failed was interrupted. -/
  report : Except Bool (Report backend)
  /-- Whether a stop or shutdown is seen before the event with this index. -/
  interrupted : Nat → Bool
  shutdownAfter : Bool

/-- The entries in use. -/
def State.table : List (Entry C U) := r.entries.toList r.count

/-- The registered descriptors that a wait reports events for. -/
def reported : (backend : Backend) → Report backend → List Int
  | .epoll, evs => evs.map Prod.fst
  | .poll, revents =>
    ((r.table.zipIdx 1).filter fun (_, i) => revents i ≠ 0).map fun (e, _) => e.fd

/-- What the callback does that is run last in a log. -/
abbrev Callbacks (C U : Type) := List (Event C U) → List (Call C U)

/-- A turn of the second loop of `mcp_reactor_step`, for an event of a descriptor. -/
def deliver (callbacks : Callbacks C U) (r : Run C U) (fd : Int)
    (maskOf : UInt32 → UInt32) : Option (Run C U) := do
  let (found, idx) ← findEntryIdx r.state fd
  if !found then some r
  else
    let entry ← r.state.entries.read idx
    if maskOf entry.events ≠ 0 then
      let r := r.record (.called entry (maskOf entry.events))
      (callbacks r.log).foldlM (perform backend) r
    else some r

def setRevents (revents : Nat → UInt16) : Nat → Nat → Block PollFd → Option (Block PollFd)
  | 0, _, pollFds => some pollFds
  | left + 1, i, pollFds => do
    let slot ← pollFds.read i
    let pollFds ← pollFds.write i { slot with revents := revents i }
    setRevents revents left (i + 1) pollFds

/-- The first loop of `mcp_reactor_step`. -/
def collectLoop (pollFds : Block PollFd) :
    Nat → Nat → Nat → Block Snapshot → Option (Nat × Block Snapshot)
  | 0, _, nFired, snapshots => some (nFired, snapshots)
  | left + 1, i, nFired, snapshots => do
    let slot ← pollFds.read i
    if slot.revents ≠ 0 then
      let snapshots ← snapshots.write nFired ⟨slot.fd, slot.revents⟩
      collectLoop pollFds left (i + 1) (nFired + 1) snapshots
    else collectLoop pollFds left (i + 1) nFired snapshots

def pollLoop (callbacks : Callbacks C U) (interrupted : Nat → Bool) :
    Nat → Nat → Run C U → Option (Run C U)
  | 0, _, r => some r
  | left + 1, i, r =>
    if interrupted i then some r
    else do
      let snap ← r.state.snapshots.read i
      let r ← deliver .poll callbacks r snap.fd (mapFromPollRevents snap.revents)
      pollLoop callbacks interrupted left (i + 1) r

def epollLoop (callbacks : Callbacks C U) (interrupted : Nat → Bool) :
    List (Int × UInt32) → Nat → Run C U → Option (Run C U)
  | [], _, r => some r
  | (fd, events) :: evs, i, r =>
    if interrupted i then some r
    else if fd = r.state.wakeupFd then epollLoop callbacks interrupted evs (i + 1) r
    else do
      let r ← deliver .epoll callbacks r fd (mapFromEpollEvents events)
      epollLoop callbacks interrupted evs (i + 1) r

/-- A step once `poll` has returned, up to the last check for a shutdown. -/
def dispatchPoll (callbacks : Callbacks C U) (interrupted : Nat → Bool) (r : Run C U)
    (revents : Nat → UInt16) : Option (Run C U) := do
  let pollFds ← setRevents revents (r.state.count + 1) 0 r.state.pollFds
  if (List.range (r.state.count + 1)).all fun i => revents i = 0 then
    some { r with state := { r.state with pollFds := pollFds } }
  else
    let (nFired, snapshots) ← collectLoop pollFds r.state.count 1 0 r.state.snapshots
    pollLoop callbacks interrupted nFired 0
      { r with state := { r.state with pollFds := pollFds, snapshots := snapshots } }

/-- A step once its wait has returned, up to the last check for a shutdown. -/
def dispatch (callbacks : Callbacks C U) (interrupted : Nat → Bool) (r : Run C U) :
    (backend : Backend) → Report backend → Option (Run C U)
  | .epoll, evs => epollLoop callbacks interrupted evs 0 r
  | .poll, revents => dispatchPoll callbacks interrupted r revents

def mcpReactorStep (callbacks : Callbacks C U) (r : Run C U)
    (env : Env backend) : Option (Run C U × Status) :=
  if env.shutdownBefore then some (r, .cancelled)
  else
    match env.report with
    | .error interrupted => some (r, if interrupted then .ok else .io)
    | .ok report =>
      let r := r.record (.collected (reported r.state backend report))
      (dispatch callbacks env.interrupted r backend report).map fun r =>
        (r, if env.shutdownAfter then .cancelled else .ok)

inductive Op (backend : Backend) (C U : Type) where
  | call (c : Call C U)
  | step (env : Env backend)

def runOp (callbacks : Callbacks C U) (r : Run C U) :
    Op backend C U → Option (Run C U)
  | .call c => perform backend r c
  | .step env => (mcpReactorStep backend callbacks r env).map fun (r, status) =>
    r.record (.stepped status)

def run (callbacks : Callbacks C U) (r : Run C U)
    (ops : List (Op backend C U)) : Option (Run C U) :=
  ops.foldlM (runOp backend callbacks) r

end Mcpkit.Runtime.Reactor
