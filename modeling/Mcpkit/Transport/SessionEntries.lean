import Mcpkit.Lib.Machine
import Mcpkit.Lib.RefCount
import Mcpkit.Transport.AsyncServer

/-!
# The life of a session

The list of sessions and every task hold a counted reference to the entry of a session.  The reactor
thread creates entries, finds them for a request, attaches them to tasks, reaps them and destroys
the server; workers finish their tasks at any time in between.  Whoever gives up the last reference
destroys the session.

A step is a section under a lock, an update of a counter or the destruction of a session; the loops
of the reaper and of the end of the server are taken apart further.
-/

namespace Mcpkit.Transport.Async.Entries

open Json List Machine Option Nat Multiset

/-- Where a worker stands with a task.  The message of a WebSocket has no entry.  A worker that has
given up the last reference to a session destroys it; in the end it counts its task as finished. -/
inductive WorkerTask where
  | running (entry : Option SessionEntry)
  | destroying (session : Nat)
  | released
  deriving DecidableEq

/-- Where the reactor thread stands: between two operations, in `create_session_entry` before the
reference of the caller, with a reference in hand, before a task is submitted, in the loop of
`reap_expired_sessions`, or in `mcp_async_server_destroy`. -/
inductive Reactor where
  | idle
  | creating (entry : SessionEntry)
  | holding (entry : SessionEntry)
  | submitting (entry : Option SessionEntry)
  | reaping (kept rest : List SessionEntry)
  | unlinked (entry : SessionEntry) (kept rest : List SessionEntry)
  | waiting
  | clearing (rest : List SessionEntry)
  | finished
  deriving DecidableEq

/-- `pending` counts the unfinished tasks; `owes` is a session whose last reference the reactor
thread has given up and that it has yet to destroy. -/
structure State where
  shared : Shared
  entries : RefCount.Pool Nat
  tasks : Multiset WorkerTask
  pending : Nat
  reactor : Reactor
  owes : Option Nat

/-- A server that was just created.  The counter of the ids is shared by all servers. -/
def State.initial (idCounter : UInt64) : State where
  shared := ⟨[], idCounter, 0⟩
  entries := .empty
  tasks := 0
  pending := 0
  reactor := .idle
  owes := none

/-- What the reactor thread is to do.  An entry is reaped if it has expired; the reaper may stop
before the end of the list.  `next` goes on where there is no choice. -/
inductive Op where
  | create
  | find (sid : Bytes)
  | message
  | attach
  | release
  | reap
  | visit (expired : Bool)
  | destroy
  | next
  deriving DecidableEq

inductive Action where
  | reactor (op : Op)
  | worker (task : WorkerTask)

namespace State

def sessionEntryRef (s : State) (e : SessionEntry) : State :=
  { s with entries := s.entries.ref e.session }

/-- `session_entry_unref` in the reactor thread, up to the destruction of the session. -/
def sessionEntryUnref (s : State) (e : SessionEntry) : State :=
  { s with
    entries := s.entries.unref e.session
    owes := if s.entries.isLast e.session then some e.session else none }

def setSessions (s : State) (sessions : List SessionEntry) : State :=
  { s with shared := { s.shared with sessions := sessions } }

def goto (s : State) (reactor : Reactor) : State := { s with reactor := reactor }

def stepReactor (s : State) (op : Op) : State :=
  match s.reactor, op with
  | .idle, .create =>
    let created := s.shared.createSessionEntry
    { s with
      shared := created.1
      entries := s.entries.make created.2.session
      reactor := .creating created.2 }
  | .creating e, .next => (s.sessionEntryRef e).goto (.holding e)
  | .idle, .find sid =>
    match s.shared.findSession sid with
    | none => s
    | some e => (s.sessionEntryRef e).goto (.holding e)
  | .holding e, .attach => { s with pending := s.pending + 1, reactor := .submitting (some e) }
  -- an event stream keeps no reference, nor does a request for which there is no memory
  | .holding e, .release => (s.sessionEntryUnref e).goto .idle
  | .idle, .message => { s with pending := s.pending + 1, reactor := .submitting none }
  | .submitting e, .next => { s with tasks := .running e ::ₘ s.tasks, reactor := .idle }
  | .idle, .reap => s.goto (.reaping [] s.shared.sessions)
  | .reaping kept (e :: rest), .visit true =>
    (s.setSessions (kept ++ rest)).goto (.unlinked e kept rest)
  | .reaping kept (e :: rest), .visit false => s.goto (.reaping (kept ++ [e]) rest)
  | .reaping _ _, .next => s.goto .idle
  | .unlinked e kept rest, .next => (s.sessionEntryUnref e).goto (.reaping kept rest)
  | .idle, .destroy => s.goto .waiting
  | .waiting, .next =>
    if s.pending = 0 then (s.setSessions []).goto (.clearing s.shared.sessions) else s
  | .clearing (e :: rest), .next => (s.sessionEntryUnref e).goto (.clearing rest)
  | .clearing [], .next => s.goto .finished
  | _, _ => s

def stepWorker (s : State) (task : WorkerTask) : State :=
  if task ∈ s.tasks then
    let others := s.tasks.erase task
    match task with
    | .running none => { s with tasks := .released ::ₘ others }
    | .running (some e) =>
      { s with
        entries := s.entries.unref e.session
        tasks := (if s.entries.isLast e.session then .destroying e.session else .released) ::ₘ
          others }
    | .destroying n => { s with entries := s.entries.destroy n, tasks := .released ::ₘ others }
    | .released => { s with tasks := others, pending := s.pending - 1 }
  else s

/-- One step.  The reactor thread does nothing else before it has destroyed a session that it
owes. -/
def step (s : State) : Action → State
  | .worker task => s.stepWorker task
  | .reactor op =>
    match s.owes with
    | some n => { s with entries := s.entries.destroy n, owes := none }
    | none => s.stepReactor op

def machine (s : State) (act : Action) : State × Unit := (s.step act, ())

end State

def sessionsOf (es : List SessionEntry) : Multiset Nat := (es.map SessionEntry.session : List Nat)

theorem sessionsOf_cons (e : SessionEntry) (es : List SessionEntry) :
    sessionsOf (e :: es) = e.session ::ₘ sessionsOf es := rfl

theorem sessionsOf_append (es fs : List SessionEntry) :
    sessionsOf (es ++ fs) = sessionsOf es + sessionsOf fs := by
  rw [sessionsOf, map_append, ← coe_add]
  rfl

variable {e : SessionEntry} {s' : State}

theorem mem_sessionsOf {es : List SessionEntry} (h : e ∈ es) : e.session ∈ sessionsOf es :=
  mem_map_of_mem h

def Reactor.refs : Reactor → Multiset Nat
  | .holding e | .submitting (some e) | .unlinked e _ _ => {e.session}
  | .clearing rest => sessionsOf rest
  | _ => 0

/-- The tasks that the reactor thread has counted and not submitted. -/
def Reactor.submits : Reactor → Nat
  | .submitting _ => 1
  | _ => 0

def WorkerTask.refs : WorkerTask → Multiset Nat
  | .running (some e) => {e.session}
  | _ => 0

def WorkerTask.doomed : WorkerTask → Multiset Nat
  | .destroying n => {n}
  | _ => 0

variable {s : State} {others : Multiset WorkerTask}

namespace State

/-- Every reference to a session: of the list, of the reactor thread and of the tasks. -/
def refs (s : State) : Multiset Nat :=
  sessionsOf s.shared.sessions + s.reactor.refs + s.tasks.bind WorkerTask.refs

def doomed (s : State) : Multiset Nat :=
  s.owes.elim 0 (fun n => {n}) + s.tasks.bind WorkerTask.doomed

/-- What the place of the reactor thread says about the list and the tasks. -/
def Located (s : State) : Prop :=
  match s.reactor with
  | .creating e => e ∈ s.shared.sessions
  | .reaping kept rest | .unlinked _ kept rest => s.shared.sessions = kept ++ rest
  | .clearing _ => s.shared.sessions = [] ∧ s.tasks = 0
  | .finished => s.shared.sessions = [] ∧ s.tasks = 0 ∧ s.owes = none
  | _ => True

theorem Located.of_eq (hlocated : s.Located) (hshared : s'.shared = s.shared)
    (hreactor : s'.reactor = s.reactor) (htasks : s.tasks = 0 → s'.tasks = 0)
    (howes : s.owes = none → s'.owes = none) : s'.Located := by
  rw [Located] at hlocated ⊢
  rw [hreactor, hshared]
  split
  next hcreating => rwa [hcreating] at hlocated
  next hreaping => rwa [hreaping] at hlocated
  next hunlinked => rwa [hunlinked] at hlocated
  next hclearing =>
    rw [hclearing] at hlocated
    exact ⟨hlocated.1, htasks hlocated.2⟩
  next hfinished =>
    rw [hfinished] at hlocated
    exact ⟨hlocated.1, htasks hlocated.2.1, howes hlocated.2.2⟩
  next => trivial

end State

/-- The counters count the references that are held, `pending` the tasks, and sessions that were
created have smaller numbers than those to come. -/
structure Invariant (s : State) : Prop where
  balanced : RefCount.Balanced s.entries s.refs s.doomed
  fresh : ∀ n ∈ s.entries.made, n < s.shared.created
  pending : s.pending = s.tasks.card + s.reactor.submits
  located : s.Located

theorem Invariant.initial (idCounter : UInt64) : Invariant (.initial idCounter) where
  balanced := .empty
  fresh := nofun
  pending := rfl
  located := trivial

namespace Invariant

variable {s : State} (h : Invariant s)

include h

variable {entry : Option SessionEntry}

section

variable {here there : Reactor}

theorem goto (hreactor : s.reactor = here) (hrefs : here.refs = there.refs)
    (hsubmits : here.submits = there.submits) (hlocated : (s.goto there).Located) :
    Invariant (s.goto there) where
  balanced := by
    have hsame : (s.goto there).refs = s.refs := by
      rw [State.refs, State.refs, hreactor, hrefs]
      rfl
    rw [hsame]
    exact h.balanced
  fresh := h.fresh
  pending := by
    refine h.pending.trans ?_
    rw [hreactor, hsubmits]
    rfl
  located := hlocated

theorem create (hreactor : s.reactor = .idle) :
    Invariant { s with
      shared := s.shared.createSessionEntry.1
      entries := s.entries.make s.shared.createSessionEntry.2.session
      reactor := .creating s.shared.createSessionEntry.2 } where
  balanced := by
    have hnew : s.shared.created ∉ s.entries.made := fun hmade => lt_irrefl _ (h.fresh _ hmade)
    have hbalanced := h.balanced.make hnew
    rwa [State.refs, hreactor, ← cons_add, ← cons_add] at hbalanced
  fresh := by
    intro n hn
    rcases mem_cons.mp hn with rfl | hn
    · exact lt_succ_self _
    · exact lt_succ_of_lt (h.fresh n hn)
  pending := by
    rw [h.pending, hreactor]
    rfl
  located := mem_cons_self

theorem ref (hreactor : s.reactor = here) (hrefs : here.refs = 0) (hsubmits : here.submits = 0)
    (hmem : e ∈ s.shared.sessions) :
    Invariant ((s.sessionEntryRef e).goto (.holding e)) where
  balanced := by
    have hheld : e.session ∈ s.refs := by
      rw [State.refs, mem_add, mem_add]
      exact .inl (.inl (mem_sessionsOf hmem))
    have hbalanced := h.balanced.ref hheld
    rw [State.refs, hreactor, hrefs, add_zero, ← cons_add,
      ← add_zero (sessionsOf _), ← add_cons] at hbalanced
    exact hbalanced
  fresh := h.fresh
  pending := by
    refine h.pending.trans ?_
    rw [hreactor, hsubmits]
    rfl
  located := trivial

theorem unref (howes : s.owes = none) (hreactor : s.reactor = here)
    (hrefs : here.refs = e.session ::ₘ there.refs) (hsubmits : here.submits = there.submits)
    (hlocated : ((s.sessionEntryUnref e).goto there).Located) :
    Invariant ((s.sessionEntryUnref e).goto there) where
  balanced := by
    have hheld : s.refs = e.session ::ₘ ((s.sessionEntryUnref e).goto there).refs := by
      rw [State.refs, hreactor, hrefs, add_cons, cons_add]
      rfl
    have hbalanced := h.balanced
    rw [hheld] at hbalanced
    have hdoomed : ((s.sessionEntryUnref e).goto there).doomed =
        if s.entries.isLast e.session then e.session ::ₘ s.doomed else s.doomed := by
      rw [State.doomed, State.doomed, howes]
      change (if s.entries.isLast e.session then some e.session else none).elim 0 _ +
        s.tasks.bind WorkerTask.doomed = _
      split
      · rw [elim_none, zero_add]
        exact singleton_add _ _
      · rw [elim_none]
    rw [hdoomed]
    exact hbalanced.unref
  fresh := h.fresh
  pending := by
    refine h.pending.trans ?_
    rw [hreactor, hsubmits]
    rfl
  located := hlocated

theorem count (hreactor : s.reactor = here) (hrefs : here.refs = (Reactor.submitting entry).refs)
    (hsubmits : here.submits = 0) :
    Invariant { s with pending := s.pending + 1, reactor := .submitting entry } where
  balanced := by
    have hbalanced := h.balanced
    rwa [State.refs, hreactor, hrefs] at hbalanced
  fresh := h.fresh
  pending := by
    change s.pending + 1 = s.tasks.card + 1
    rw [h.pending, hreactor, hsubmits]
  located := trivial

end

theorem submit (hreactor : s.reactor = .submitting entry) :
    Invariant { s with tasks := .running entry ::ₘ s.tasks, reactor := .idle } where
  balanced := by
    have hsame : (WorkerTask.running entry).refs = (Reactor.submitting entry).refs := by
      cases entry <;> rfl
    have hbalanced := h.balanced
    rw [State.refs, hreactor, ← hsame, add_assoc, ← cons_bind,
      ← add_zero (sessionsOf _)] at hbalanced
    have hdoomed : (WorkerTask.running entry ::ₘ s.tasks).bind WorkerTask.doomed =
        s.tasks.bind WorkerTask.doomed := by
      rw [cons_bind]
      exact zero_add _
    rwa [State.doomed, ← hdoomed] at hbalanced
  fresh := h.fresh
  pending := by
    refine h.pending.trans ?_
    rw [hreactor]
    exact (card_cons _ s.tasks).symm
  located := trivial

theorem unlink {kept rest : List SessionEntry} (hreactor : s.reactor = .reaping kept (e :: rest)) :
    Invariant ((s.setSessions (kept ++ rest)).goto (.unlinked e kept rest)) where
  balanced := by
    have hlist : s.shared.sessions = kept ++ e :: rest := by
      have hlocated := h.located
      rwa [State.Located, hreactor] at hlocated
    have hbalanced := h.balanced
    have hrefs : s.refs = ((s.setSessions (kept ++ rest)).goto (.unlinked e kept rest)).refs := by
      rw [State.refs, State.refs, hreactor, hlist]
      change sessionsOf (kept ++ e :: rest) + 0 + _ = sessionsOf (kept ++ rest) + {e.session} + _
      rw [sessionsOf_append, sessionsOf_append, sessionsOf_cons, add_cons,
        Multiset.add_zero, Multiset.add_comm _ {e.session}, Multiset.singleton_add]
      rfl
    rwa [hrefs] at hbalanced
  fresh := h.fresh
  pending := by
    refine h.pending.trans ?_
    rw [hreactor]
    rfl
  located := rfl

theorem clear (hreactor : s.reactor = .waiting) (hpending : s.pending = 0) :
    Invariant ((s.setSessions []).goto (.clearing s.shared.sessions)) where
  balanced := by
    have hbalanced := h.balanced
    rwa [State.refs, hreactor, add_comm (sessionsOf _)] at hbalanced
  fresh := h.fresh
  pending := by
    refine h.pending.trans ?_
    rw [hreactor]
    rfl
  located := by
    have hcount := h.pending
    rw [hpending, hreactor] at hcount
    exact ⟨rfl, card_eq_zero.mp hcount.symm⟩

theorem stepReactor (howes : s.owes = none) (op : Op) : Invariant (s.stepReactor op) := by
  have hlocated := h.located
  rw [State.stepReactor.eq_def]
  split
  next hreactor => exact h.create hreactor
  next e hreactor =>
    rw [State.Located, hreactor] at hlocated
    exact h.ref hreactor rfl rfl hlocated
  next sid hreactor =>
    split
    · exact h
    next e hfind => exact h.ref hreactor rfl rfl (mem_of_find?_eq_some hfind)
  next e hreactor => exact h.count hreactor rfl rfl
  next e hreactor => exact h.unref howes hreactor rfl rfl trivial
  next hreactor => exact h.count hreactor rfl rfl
  next entry hreactor => exact h.submit hreactor
  next hreactor => exact h.goto hreactor rfl rfl rfl
  next kept e rest hreactor => exact h.unlink hreactor
  next kept e rest hreactor =>
    rw [State.Located, hreactor] at hlocated
    refine h.goto hreactor rfl rfl ?_
    change s.shared.sessions = kept ++ [e] ++ rest
    rw [hlocated, append_assoc]
    rfl
  next hreactor => exact h.goto hreactor rfl rfl trivial
  next e kept rest hreactor =>
    rw [State.Located, hreactor] at hlocated
    exact h.unref howes hreactor rfl rfl hlocated
  next hreactor => exact h.goto hreactor rfl rfl trivial
  next hreactor =>
    split
    next hpending => exact h.clear hreactor hpending
    next => exact h
  next e rest hreactor =>
    rw [State.Located, hreactor] at hlocated
    exact h.unref howes hreactor rfl rfl hlocated
  next hreactor =>
    rw [State.Located, hreactor] at hlocated
    exact h.goto hreactor rfl rfl ⟨hlocated.1, hlocated.2, howes⟩
  next => exact h

section

variable {task : WorkerTask} {others : Multiset WorkerTask} (htasks : s.tasks = task ::ₘ others)

include htasks

theorem balanced_cons :
    RefCount.Balanced s.entries
      (sessionsOf s.shared.sessions + s.reactor.refs + (task.refs + others.bind WorkerTask.refs))
      (s.owes.elim 0 (fun n => {n}) + (task.doomed + others.bind WorkerTask.doomed)) := by
  have hbalanced := h.balanced
  rwa [State.refs, State.doomed, htasks, cons_bind, cons_bind] at hbalanced

/-- The reactor thread waits for all tasks before it takes the list, so that its place says nothing
about the others. -/
theorem located_of_task (hshared : s'.shared = s.shared) (hreactor : s'.reactor = s.reactor)
    (howes : s'.owes = s.owes) : s'.Located := by
  refine h.located.of_eq hshared hreactor ?_ (fun hnone => howes.trans hnone)
  intro hzero
  rw [htasks] at hzero
  exact absurd hzero cons_ne_zero

theorem work {task' : WorkerTask} {entries : RefCount.Pool Nat}
    (hmade : entries.made = s.entries.made)
    (hbalanced : RefCount.Balanced entries
      (sessionsOf s.shared.sessions + s.reactor.refs + (task'.refs + others.bind WorkerTask.refs))
      (s.owes.elim 0 (fun n => {n}) + (task'.doomed + others.bind WorkerTask.doomed))) :
    Invariant { s with entries := entries, tasks := task' ::ₘ others } where
  balanced := by
    rwa [State.refs, State.doomed, cons_bind, cons_bind]
  fresh := by
    intro n hn
    rw [hmade] at hn
    exact h.fresh n hn
  pending := by
    refine h.pending.trans ?_
    rw [htasks, card_cons, card_cons]
  located := h.located_of_task htasks rfl rfl rfl

end

theorem workUnref (htasks : s.tasks = .running (some e) ::ₘ others) :
    Invariant { s with
      entries := s.entries.unref e.session
      tasks := (if s.entries.isLast e.session then .destroying e.session else .released) ::ₘ
        others } := by
  refine h.work htasks rfl ?_
  have hheld : sessionsOf s.shared.sessions + s.reactor.refs +
      ((WorkerTask.running (some e)).refs + others.bind WorkerTask.refs) =
        e.session ::ₘ (sessionsOf s.shared.sessions + s.reactor.refs +
          others.bind WorkerTask.refs) := by
    rw [← add_cons, ← singleton_add]
    rfl
  have hbalanced := h.balanced_cons htasks
  rw [hheld] at hbalanced
  have hnext := hbalanced.unref
  split at hnext
  next hlast =>
    rw [if_pos hlast]
    rw [← add_cons, ← cons_add] at hnext
    rwa [show (WorkerTask.destroying e.session).refs = 0 from rfl, zero_add]
  next hlast =>
    rw [if_neg hlast]
    rwa [show WorkerTask.released.refs = 0 from rfl, zero_add]

theorem workDestroy {n : Nat} (htasks : s.tasks = .destroying n ::ₘ others) :
    Invariant { s with
      entries := s.entries.destroy n
      tasks := .released ::ₘ others } := by
  refine h.work htasks rfl ?_
  have hbalanced := h.balanced_cons htasks
  rw [show (WorkerTask.destroying n).doomed = {n} from rfl, singleton_add,
    add_cons] at hbalanced
  rw [show WorkerTask.released.doomed = 0 from rfl, zero_add]
  exact hbalanced.destroy

theorem workFinish (htasks : s.tasks = .released ::ₘ others) :
    Invariant { s with tasks := others, pending := s.pending - 1 } where
  balanced := by
    have hbalanced := h.balanced_cons htasks
    rw [show WorkerTask.released.refs = 0 from rfl, zero_add,
      show WorkerTask.released.doomed = 0 from rfl, zero_add] at hbalanced
    exact hbalanced
  fresh := h.fresh
  pending := by
    have hcount := h.pending
    rw [htasks, card_cons] at hcount
    change s.pending - 1 = others.card + s.reactor.submits
    omega
  located := h.located_of_task htasks rfl rfl rfl

theorem stepWorker (task : WorkerTask) : Invariant (s.stepWorker task) := by
  by_cases hmem : task ∈ s.tasks
  · obtain ⟨others, htasks⟩ := exists_cons_of_mem hmem
    have herase : s.tasks.erase task = others := by rw [htasks, Multiset.erase_cons_head]
    rw [State.stepWorker, if_pos hmem, herase]
    cases task with
    | running entry =>
      cases entry with
      | none =>
        -- there is no reference to give up
        have hbalanced := h.balanced_cons htasks
        exact h.work htasks rfl hbalanced
      | some e => exact h.workUnref htasks
    | destroying n => exact h.workDestroy htasks
    | released => exact h.workFinish htasks
  · rwa [State.stepWorker, if_neg hmem]

theorem step (act : Action) : Invariant (s.step act) := by
  cases act with
  | worker task => exact h.stepWorker task
  | reactor op =>
    cases howes : s.owes with
    | none =>
      rw [State.step, howes]
      exact h.stepReactor howes op
    | some n =>
      rw [State.step, howes]
      have hbalanced := h.balanced
      rw [State.doomed, howes, elim_some, singleton_add] at hbalanced
      refine ⟨?_, h.fresh, h.pending, h.located.of_eq rfl rfl id fun _ => rfl⟩
      have hnext := hbalanced.destroy
      rwa [← zero_add (s.tasks.bind _)] at hnext

theorem exec (acts : List Action) : Invariant (exec State.machine s acts) :=
  exec_invariant (fun _ act h => h.step act) h acts

end Invariant

def Reactor.destroys : Reactor → Bool
  | .waiting | .clearing _ | .finished => true
  | _ => false

/-- The steps that a worker has yet to take. -/
def WorkerTask.left : WorkerTask → Nat
  | .running _ => 3
  | .destroying _ => 2
  | .released => 1

/-- Twice the entries that the reactor thread has yet to release, and the steps around them. -/
def Reactor.left (sessions : List SessionEntry) : Reactor → Nat
  | .waiting => 2 * sessions.length + 2
  | .clearing rest => 2 * rest.length + 1
  | _ => 0

/-- A bound on the steps until the server is destroyed. -/
def State.left (s : State) : Nat :=
  (s.tasks.map WorkerTask.left).sum + s.owes.elim 0 (fun _ => 1) + s.reactor.left s.shared.sessions

theorem State.left_lt_left
    (htasks : (s'.tasks.map WorkerTask.left).sum < (s.tasks.map WorkerTask.left).sum)
    (hshared : s'.shared = s.shared) (hreactor : s'.reactor = s.reactor)
    (howes : s'.owes = s.owes) : s'.left < s.left := by
  rw [State.left, State.left, hshared, hreactor, howes]
  exact Nat.add_lt_add_right (Nat.add_lt_add_right htasks _) _

theorem State.left_stepWorker_lt {task : WorkerTask} (hmem : task ∈ s.tasks) :
    (s.stepWorker task).left < s.left ∧ (s.stepWorker task).reactor = s.reactor := by
  obtain ⟨others, htasks⟩ := exists_cons_of_mem hmem
  have herase : s.tasks.erase task = others := by rw [htasks, Multiset.erase_cons_head]
  have hsum : ∀ t : WorkerTask, ((t ::ₘ others).map WorkerTask.left).sum =
      t.left + (others.map WorkerTask.left).sum := by
    intro t
    rw [Multiset.map_cons, Multiset.sum_cons]
  rw [State.stepWorker, if_pos hmem, herase]
  cases task with
  | running entry =>
    cases entry with
    | none =>
      refine ⟨left_lt_left ?_ rfl rfl rfl, rfl⟩
      change ((WorkerTask.released ::ₘ others).map WorkerTask.left).sum < _
      rw [htasks, hsum, hsum]
      exact Nat.add_lt_add_right (by decide) _
    | some e =>
      refine ⟨left_lt_left ?_ rfl rfl rfl, rfl⟩
      change (((if _ then _ else _) ::ₘ others).map WorkerTask.left).sum < _
      rw [htasks, hsum, hsum]
      apply Nat.add_lt_add_right
      split
      · exact (show 2 < 3 by decide)
      · exact (show 1 < 3 by decide)
  | destroying n =>
    refine ⟨left_lt_left ?_ rfl rfl rfl, rfl⟩
    change ((WorkerTask.released ::ₘ others).map WorkerTask.left).sum < _
    rw [htasks, hsum, hsum]
    exact Nat.add_lt_add_right (show 1 < 2 by decide) _
  | released =>
    refine ⟨left_lt_left ?_ rfl rfl rfl, rfl⟩
    rw [htasks, hsum]
    exact Nat.lt_add_of_pos_left Nat.one_pos

theorem State.left_stepReactor_lt (hdestroys : s.reactor.destroys = true)
    (hne : s.reactor ≠ .finished) (howes : s.owes = none) (hpending : s.pending = 0) :
    (s.stepReactor .next).left < s.left ∧ (s.stepReactor .next).reactor.destroys = true := by
  cases hreactor : s.reactor with
  | waiting =>
    have hstep : s.stepReactor .next =
        (s.setSessions []).goto (.clearing s.shared.sessions) := by
      rw [State.stepReactor.eq_def, hreactor]
      exact if_pos hpending
    rw [hstep]
    refine ⟨?_, rfl⟩
    rw [State.left, State.left, hreactor]
    exact Nat.add_lt_add_left (Nat.lt_succ_self _) _
  | clearing rest =>
    cases rest with
    | nil =>
      have hstep : s.stepReactor .next = s.goto .finished := by
        rw [State.stepReactor.eq_def, hreactor]
      rw [hstep]
      refine ⟨?_, rfl⟩
      rw [State.left, State.left, hreactor]
      exact Nat.add_lt_add_left Nat.one_pos _
    | cons e rest =>
      have hstep : s.stepReactor .next = (s.sessionEntryUnref e).goto (.clearing rest) := by
        rw [State.stepReactor.eq_def, hreactor]
      rw [hstep]
      refine ⟨?_, rfl⟩
      -- one entry fewer, but its session may have to be destroyed
      have howed : ((s.sessionEntryUnref e).goto (.clearing rest)).owes.elim 0 (fun _ => 1) ≤
          1 := by
        change (if _ then _ else _ : Option Nat).elim 0 _ ≤ 1
        split
        · exact le_refl 1
        · exact zero_le 1
      rw [State.left, State.left, howes, hreactor]
      change (s.tasks.map WorkerTask.left).sum + _ + (2 * rest.length + 1) <
        (s.tasks.map WorkerTask.left).sum + 0 + (2 * (rest.length + 1) + 1)
      omega
  | finished => exact absurd hreactor hne
  | _ =>
    rw [hreactor] at hdestroys
    cases hdestroys

namespace Invariant

variable {s : State}

theorem progress (h : Invariant s) (hdestroys : s.reactor.destroys = true)
    (hne : s.reactor ≠ .finished) :
    ∃ act, (s.step act).left < s.left ∧ (s.step act).reactor.destroys = true := by
  cases howes : s.owes with
  | some n =>
    have hstep : s.step (.reactor .next) =
        { s with entries := s.entries.destroy n, owes := none } := by rw [State.step, howes]
    refine ⟨.reactor .next, ?_⟩
    rw [hstep]
    refine ⟨?_, hdestroys⟩
    rw [State.left, State.left, howes]
    exact Nat.add_lt_add_right (Nat.lt_succ_self _) _
  | none =>
    by_cases htasks : s.tasks = 0
    · have hstep : s.step (.reactor .next) = s.stepReactor .next := by rw [State.step, howes]
      have hsubmits : s.reactor.submits = 0 := by
        cases hreactor : s.reactor with
        | submitting entry =>
          rw [hreactor] at hdestroys
          cases hdestroys
        | _ => rfl
      have hpending : s.pending = 0 := by rw [h.pending, htasks, hsubmits, card_zero]
      refine ⟨.reactor .next, ?_⟩
      rw [hstep]
      exact State.left_stepReactor_lt hdestroys hne howes hpending
    · obtain ⟨task, hmem⟩ := exists_mem_of_ne_zero htasks
      obtain ⟨hlt, hsame⟩ := State.left_stepWorker_lt hmem
      refine ⟨.worker task, hlt, ?_⟩
      rwa [State.step, hsame]

theorem exists_finished (h : Invariant s) (hdestroys : s.reactor.destroys = true) :
    ∃ more, (Machine.exec State.machine s more).reactor = .finished := by
  have hprogress : ∀ s : State, Invariant s ∧ s.reactor.destroys = true → s.reactor ≠ .finished →
      ∃ act, (Invariant (State.machine s act).1 ∧ (State.machine s act).1.reactor.destroys = true) ∧
        (State.machine s act).1.left < s.left := by
    rintro s ⟨h, hdestroys⟩ hne
    obtain ⟨act, hlt, hnext⟩ := h.progress hdestroys hne
    exact ⟨act, ⟨h.step act, hnext⟩, hlt⟩
  exact exists_exec_of_progress State.left hprogress ⟨h, hdestroys⟩

end Invariant

/-- Sessions of entries are destroyed once at most and not while an unfinished task refers to them,
a lookup does not find a destroyed one, and the destruction of the server, which always comes to its
end, destroys all of them. -/
structure Safe (s : State) : Prop where
  once : ∀ n, s.entries.destroyed.count n ≤ 1
  inUse : ∀ e, .running (some e) ∈ s.tasks → e.session ∉ s.entries.destroyed
  found : ∀ sid e, s.shared.findSession sid = some e → e.session ∉ s.entries.destroyed
  ended : s.reactor = .finished → ∀ n ∈ s.entries.made, s.entries.destroyed.count n = 1
  ends : s.reactor.destroys = true → ∃ more, (exec State.machine s more).reactor = .finished

theorem Invariant.safe (h : Invariant s) : Safe s where
  once := h.balanced.count_destroyed_le_one
  inUse := by
    intro e hrunning
    refine h.balanced.notMem_destroyed ?_
    rw [State.refs, mem_add]
    exact .inr (Multiset.mem_bind.mpr ⟨_, hrunning, Multiset.mem_singleton_self _⟩)
  found := by
    intro sid e hfind
    refine h.balanced.notMem_destroyed ?_
    rw [State.refs, mem_add, mem_add]
    exact .inl (.inl (mem_sessionsOf (mem_of_find?_eq_some hfind)))
  ended := by
    intro hfinished n hmade
    have hlocated := h.located
    rw [State.Located, hfinished] at hlocated
    obtain ⟨hsessions, htasks, howes⟩ := hlocated
    have hrefs : s.refs = 0 := by
      rw [State.refs, hsessions, hfinished, htasks]
      rfl
    have hdoomed : s.doomed = 0 := by
      rw [State.doomed, howes, htasks]
      rfl
    have hbalanced := h.balanced
    rw [hrefs, hdoomed] at hbalanced
    exact hbalanced.count_destroyed_eq_one hmade
  ends := h.exists_finished

/-- In every execution, whatever the reactor thread does and wherever the workers take their
steps. -/
theorem exec_safe (idCounter : UInt64) (acts : List Action) :
    Safe (exec State.machine (.initial idCounter) acts) :=
  ((Invariant.initial idCounter).exec acts).safe

/-- An entry expires while a task refers to it: the worker destroys the session. -/
example : (exec State.machine (.initial 1000)
    [.reactor .create, .reactor .next, .reactor .attach, .reactor .next, .reactor .reap,
      .reactor (.visit true), .reactor .next, .reactor .next,
      .worker (.running (some ⟨"sess-1000", 0⟩)), .worker (.destroying 0), .worker .released,
      .reactor .destroy, .reactor .next, .reactor .next]).entries.destroyed = [0] := by
  decide +kernel

end Mcpkit.Transport.Async.Entries
