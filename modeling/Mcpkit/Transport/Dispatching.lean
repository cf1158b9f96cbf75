import Mcpkit.Lib.Machine
import Mcpkit.Lib.Mutex
import Mcpkit.Transport.AsyncServer

/-!
# Calls on a session

The server with all its connections and the workers of its pool, which run `worker_dispatch_fn` on
jobs.  Jobs of HTTP requests take the lock of the entry of their session around the call of the
dispatcher.  Jobs of WebSocket messages have no entry and take no lock, so that two messages of one
connection can be dispatched at the same time.

A step is an event of one connection, a pass of the reaper or a step of one worker, in any order.  A
call of the dispatcher begins, is in progress, and ends.
-/

namespace Mcpkit.Transport.Async.Dispatching

open Json Protocol List Multiset Incremental State Function

/-- Where a worker stands in `worker_dispatch_fn`: not yet taken up, in front of the lock, behind
it, in the call of the dispatcher, behind the call, and without the lock. -/
inductive Phase where
  | queued | starting | entered | calling | called | unlocked
  deriving DecidableEq

structure Job where
  conn : Nat
  task : Task
  phase : Phase
  deriving DecidableEq

def queuedJobs (c : Nat) (tasks : List Task) : Multiset Job :=
  (tasks.map fun task => ⟨c, task, .queued⟩ : List Job)

/-- The lock that a job needs: that of its entry. -/
def Job.lock (job : Job) : Option Nat := if job.task.isWs then none else job.task.session

variable {job : Job} {entry : SessionEntry} {bodyOnwards : Bytes} {req : HttpRequest}
  {shared' shared : Shared} {st st' : State}

theorem Job.lock_eq_some_iff {n : Nat} :
    job.lock = some n ↔ job.task.isWs = false ∧ job.task.session = some n := by
  cases hisWs : job.task.isWs <;> simp [Job.lock, hisWs]

def Job.holds (job : Job) : Option Nat :=
  match job.phase with
  | .entered | .calling | .called => job.lock
  | _ => none

/-- Connections by number; each is as it was accepted until its first event.  Entries are told
apart by their sessions. -/
structure Serving where
  workers : Nat
  shared : Shared
  conns : Nat → State
  locks : Nat → Bool
  jobs : Multiset Job

def Serving.initial (workers : Nat) (cfg : Config) (idCounter : UInt64) : Serving where
  workers := workers
  shared := ⟨[], idCounter, 0⟩
  conns := fun _ => .accepted cfg ⟨[], idCounter, 0⟩
  locks := fun _ => false
  jobs := 0

inductive Io where
  | read (chunk : Bytes)
  | write (n : Nat)
  | fail
  | drain

def onIo (st : State) : Io → State
  | .read chunk => if st.conn.detached then st else st.onRead chunk
  | .write n => if st.conn.detached then st else st.onWrite n
  | .fail => if st.conn.detached then st else st.closeConn
  | .drain => st.drainResponses

/-- A step: an event of a connection, entries that are reaped, or a step of the worker of a job,
which puts an answer into the queue in the end. -/
inductive Action where
  | io (c : Nat) (ev : Io)
  | reap (expired : SessionEntry → Bool)
  | work (job : Job) (answer : Option Bytes)

namespace Serving

def connState (s : Serving) (c : Nat) : State := { s.conns c with shared := s.shared, tasks := [] }

def busy (s : Serving) : Nat := s.jobs.countP fun job => job.phase ≠ .queued

/-- An event of a connection.  The tasks that it submits are queued. -/
def stepIo (s : Serving) (c : Nat) (ev : Io) : Serving :=
  let st := onIo (s.connState c) ev
  { s with
    shared := st.shared
    conns := update s.conns c st
    jobs := queuedJobs c st.tasks + s.jobs }

def advance (s : Serving) (job : Job) (phase : Phase) : Serving :=
  { s with jobs := { job with phase := phase } ::ₘ s.jobs.erase job }

def setLock (s : Serving) (lock : Nat) (taken : Bool) : Serving :=
  { s with locks := update s.locks lock taken }

/-- `worker_dispatch_fn`, one step at a time. -/
def stepWork [Libc] (s : Serving) (job : Job) (answer : Option Bytes) : Serving :=
  match job.phase with
  | .queued => if s.busy < s.workers then s.advance job .starting else s
  | .starting =>
    match job.lock with
    | none => s.advance job .entered
    | some lock => if s.locks lock then s else (s.setLock lock true).advance job .entered
  | .entered =>
    s.advance job
      (if (mcpMessageParse (cString job.task.jsonBody)).isSome then .calling else .called)
  | .calling => s.advance job .called
  | .called =>
    match job.lock with
    | none => s.advance job .unlocked
    | some lock => (s.setLock lock false).advance job .unlocked
  | .unlocked =>
    let s := { s with jobs := s.jobs.erase job }
    match answer with
    | none => s
    | some data =>
      { s with
        conns := update s.conns job.conn
          ((s.conns job.conn).enqueueResponse data false) }

def step [Libc] (s : Serving) : Action → Serving
  | .io c ev => s.stepIo c ev
  | .reap expired =>
    { s with
      shared := { s.shared with sessions := s.shared.sessions.filter fun e => !expired e } }
  | .work job answer => if job ∈ s.jobs then s.stepWork job answer else s

def machine [Libc] (s : Serving) (act : Action) : Serving × Unit := (s.step act, ())

end Serving

theorem onIo_eq_step [Libc] {W : Type} (st : State) (ev : Io) :
    ∃ event : Event W, onIo st ev = st.step event := by
  cases ev with
  | read chunk => exact ⟨.read chunk, rfl⟩
  | write n => exact ⟨.write n, rfl⟩
  | fail => exact ⟨.fail, rfl⟩
  | drain => exact ⟨.drain, rfl⟩

/-- An event leaves a connection as it is, apart from its buffers and answers, turns it into a
WebSocket with a new session or into a stream, or submits the task of a request on an entry of the
list, which may be new, or the tasks of some messages. -/
inductive Effect (st st' : State) : Prop where
  | quiet (htype : st'.conn.type = st.conn.type) (hsession : st'.conn.session = st.conn.session)
      (hshared : st'.shared = st.shared) (htasks : st'.tasks = st.tasks)
  | upgrade (htype : st'.conn.type = .ws) (hinit : st.conn.type = .httpInit)
      (hsession : st'.conn.session = some st.shared.created)
      (hshared : st'.shared = { st.shared with created := st.shared.created + 1 })
      (htasks : st'.tasks = st.tasks)
  | stream (htype : st'.conn.type = .sse) (hinit : st.conn.type = .httpInit)
      (hshared : st'.shared = st.shared) (htasks : st'.tasks = st.tasks)
  | request (htype : st'.conn.type = .httpInit) (hinit : st.conn.type = .httpInit)
      (hshared : st'.shared = st.shared ∨ st'.shared = st.shared.createSessionEntry.1)
      (entry : SessionEntry) (hentry : entry ∈ st'.shared.sessions) (body : Bytes)
      (htasks : st'.tasks = st.tasks ++ [⟨some entry.session, body, false, entry.id⟩])
  | messages (htype : st'.conn.type = .ws) (hws : st.conn.type = .ws)
      (hsession : st'.conn.session = st.conn.session) (hshared : st'.shared = st.shared)
      (payloads : List Bytes) (htasks : st'.tasks = st.tasks ++ payloads.map st.wsTask)

theorem upgradeBranch_ne_dispatch (cfg : Config) (req : HttpRequest) (shared : Shared)
    (entry : SessionEntry) : upgradeBranch cfg req ≠ .dispatch shared entry := by
  intro h
  rw [upgradeBranch] at h
  split at h
  · cases h
  · split at h
    · cases h
    · split at h <;> cases h

theorem getBranch_ne_dispatch (cfg : Config) (shared : Shared) (req : HttpRequest)
    (shared' : Shared) (entry : SessionEntry) :
    getBranch cfg shared req ≠ .dispatch shared' entry := by
  intro h
  rw [getBranch] at h
  split at h
  · split at h
    · cases h
    · split at h
      · cases h
      · split at h <;> cases h
  · cases h

theorem dispatch_of_postBranch (h : postBranch shared req bodyOnwards = .dispatch shared' entry) :
    (shared' = shared ∨ shared' = shared.createSessionEntry.1) ∧ entry ∈ shared'.sessions := by
  rw [postBranch] at h
  split at h
  · cases h
  split at h
  · split at h
    · cases h
      exact ⟨.inr rfl, mem_cons_self⟩
    · cases h
  split at h
  · cases h
  next found hfound =>
    cases h
    exact ⟨.inl rfl, mem_of_find?_eq_some hfound⟩

theorem dispatch_of_requestBranch {cfg : Config}
    (h : requestBranch cfg shared req bodyOnwards = .dispatch shared' entry) :
    (shared' = shared ∨ shared' = shared.createSessionEntry.1) ∧ entry ∈ shared'.sessions := by
  rw [requestBranch] at h
  split at h
  · exact absurd h (upgradeBranch_ne_dispatch cfg req shared' entry)
  split at h
  · exact absurd h (getBranch_ne_dispatch cfg shared req shared' entry)
  · exact dispatch_of_postBranch h
  · cases h

theorem Effect.dropRead (h : Effect st st') (n : Nat) : Effect st (st'.dropRead n) := by
  cases h with
  | quiet htype hsession hshared htasks => exact .quiet htype hsession hshared htasks
  | upgrade htype hinit hsession hshared htasks =>
    exact .upgrade htype hinit hsession hshared htasks
  | stream htype hinit hshared htasks => exact .stream htype hinit hshared htasks
  | request htype hinit hshared entry hentry body htasks =>
    exact .request htype hinit hshared entry hentry body htasks
  | messages htype hws hsession hshared payloads htasks =>
    exact .messages htype hws hsession hshared payloads htasks

theorem Effect.of_same {st₁ : State} (h : Effect st₁ st') (htype₁ : st₁.conn.type = st.conn.type)
    (hsession₁ : st₁.conn.session = st.conn.session) (hshared₁ : st₁.shared = st.shared)
    (htasks₁ : st₁.tasks = st.tasks) : Effect st st' := by
  have htask : st₁.wsTask = st.wsTask := by
    funext payload
    rw [wsTask, wsTask, hsession₁]
  cases h with
  | quiet htype hsession hshared htasks =>
    exact .quiet (htype.trans htype₁) (hsession.trans hsession₁) (hshared.trans hshared₁)
      (htasks.trans htasks₁)
  | upgrade htype hinit hsession hshared htasks =>
    rw [htype₁] at hinit
    rw [hshared₁] at hsession hshared
    exact .upgrade htype hinit hsession hshared (htasks.trans htasks₁)
  | stream htype hinit hshared htasks =>
    rw [htype₁] at hinit
    exact .stream htype hinit (hshared.trans hshared₁) (htasks.trans htasks₁)
  | request htype hinit hshared entry hentry body htasks =>
    rw [htype₁] at hinit
    rw [hshared₁] at hshared
    rw [htasks₁] at htasks
    exact .request htype hinit hshared entry hentry body htasks
  | messages htype hws hsession hshared payloads htasks =>
    rw [htype₁] at hws
    rw [htasks₁, htask] at htasks
    exact .messages htype hws (hsession.trans hsession₁) (hshared.trans hshared₁) payloads htasks

theorem effect_processHttpRequest (hinit : st.conn.type = .httpInit) :
    Effect st st.processHttpRequest.1 := by
  rw [processHttpRequest]
  cases hscan : scanRequest st.conn.readBuf with
  | wait | refuse code msg => exact .quiet rfl rfl rfl rfl
  | request headerLen totalNeeded req =>
    dsimp only
    cases hbranch : requestBranch st.cfg st.shared req (st.conn.readBuf.drop headerLen) with
    | error code msg => exact .quiet rfl rfl rfl rfl
    | upgrade acceptKey => exact .upgrade rfl hinit rfl rfl rfl
    | stream session => exact .stream rfl hinit rfl rfl
    | dispatch shared entry =>
      obtain ⟨hshared, hentry⟩ := dispatch_of_requestBranch hbranch
      exact .request hinit hinit hshared entry hentry req.body rfl

theorem effect_processAndSlide (hinit : st.conn.type = .httpInit) :
    Effect st st.processAndSlide := by
  have heffect := effect_processHttpRequest hinit
  rw [processAndSlide, httpSlideWindow]
  split
  · exact heffect.dropRead _
  · exact heffect

def endsMessage (f : WsFrame) : Nat :=
  if f.fin ∧ (f.opcode = .text ∨ f.opcode = .binary ∨ f.opcode = .continuation) then 1 else 0

/-- The frames in a buffer that complete a message. -/
def messagesIn (buf : Bytes) : Nat := tally mcpWsParseFrame endsMessage buf

/-- Frames leave the connection what it is, and submit the tasks of some messages, of which each
was completed by a frame. -/
structure FramesEffect (st st' : State) : Prop where
  type_eq : st'.conn.type = st.conn.type
  session_eq : st'.conn.session = st.conn.session
  shared_eq : st'.shared = st.shared
  tasks_eq : ∃ payloads : List Bytes, st'.tasks = st.tasks ++ payloads.map st.wsTask

theorem FramesEffect.of_tasks (htype : st'.conn.type = st.conn.type)
    (hsession : st'.conn.session = st.conn.session) (hshared : st'.shared = st.shared)
    (htasks : st'.tasks = st.tasks) : FramesEffect st st' :=
  ⟨htype, hsession, hshared, [], by simp [htasks]⟩

theorem FramesEffect.trans {st'' : State} (h : FramesEffect st st') (h' : FramesEffect st' st'') :
    FramesEffect st st'' := by
  obtain ⟨payloads, htasks⟩ := h.tasks_eq
  obtain ⟨payloads', htasks'⟩ := h'.tasks_eq
  refine ⟨h'.type_eq.trans h.type_eq, h'.session_eq.trans h.session_eq,
    h'.shared_eq.trans h.shared_eq, payloads ++ payloads', ?_⟩
  have htask : st'.wsTask = st.wsTask := by
    funext payload
    rw [wsTask, wsTask, h.session_eq]
  rw [htasks', htasks, htask, map_append, append_assoc]

theorem framesEffect_wsFrameStep (st : State) (f : WsFrame) :
    FramesEffect st (st.wsFrameStep f).1 ∧
      (st.wsFrameStep f).1.tasks.length ≤ st.tasks.length + endsMessage f := by
  have hquiet : FramesEffect st st := .of_tasks rfl rfl rfl rfl
  have hzero : st.tasks.length ≤ st.tasks.length + endsMessage f := Nat.le_add_right _ _
  rw [wsFrameStep]
  cases hfrag : st.conn.wsFragBuf with
  | none =>
    cases hop : f.opcode with
    | text | binary =>
      dsimp only
      split
      next hfin =>
        have hends : endsMessage f = 1 := by simp [endsMessage, hfin, hop]
        exact ⟨⟨rfl, rfl, rfl, [f.payload], rfl⟩, by simp [submit, hends]⟩
      next => exact ⟨.of_tasks rfl rfl rfl rfl, hzero⟩
    | continuation | close | pong => exact ⟨hquiet, hzero⟩
    | ping => exact ⟨.of_tasks rfl rfl rfl rfl, hzero⟩
  | some frag =>
    cases hop : f.opcode with
    | continuation =>
      dsimp only
      split
      next => exact ⟨hquiet, hzero⟩
      next =>
        split
        next hfin =>
          have hends : endsMessage f = 1 := by simp [endsMessage, hfin, hop]
          exact ⟨⟨rfl, rfl, rfl, [frag ++ f.payload], rfl⟩, by simp [submit, hends]⟩
        next => exact ⟨.of_tasks rfl rfl rfl rfl, hzero⟩
    | text | binary | close | pong => exact ⟨hquiet, hzero⟩
    | ping => exact ⟨.of_tasks rfl rfl rfl rfl, hzero⟩

theorem framesEffect_readFrames (st : State) : FramesEffect st st.readFrames := by
  have hloop : FramesEffect st
      (consumeAll mcpWsParseFrame wsFrameStep st st.conn.readBuf).state := by
    apply consumeAll_invariant
    · intro st' f h
      exact h.trans (framesEffect_wsFrameStep st' f).1
    · exact .of_tasks rfl rfl rfl rfl
  rw [readFrames]
  cases hout : consumeAll mcpWsParseFrame wsFrameStep st st.conn.readBuf with
  | running st' rest | stopped st' =>
    rw [hout] at hloop
    exact ⟨hloop.type_eq, hloop.session_eq, hloop.shared_eq, hloop.tasks_eq⟩

theorem length_tasks_readFrames (htasks : st.tasks = []) :
    st.readFrames.tasks.length ≤ messagesIn st.conn.readBuf := by
  have hloop : (consumeAll mcpWsParseFrame wsFrameStep st
      st.conn.readBuf).state.tasks.length ≤ messagesIn st.conn.readBuf :=
    @Incremental.consumeAll_le_tally _ _ _ _ _ _ _ (fun st' => st'.tasks.length)
      (fun st' f => (framesEffect_wsFrameStep st' f).2) (by simp [htasks]) st.conn.readBuf
  rw [readFrames]
  cases hout : consumeAll mcpWsParseFrame wsFrameStep st st.conn.readBuf with
  | running st' rest | stopped st' =>
    rwa [hout] at hloop

theorem effect_onRead (st : State) (chunk : Bytes) : Effect st (st.onRead chunk) := by
  rw [onRead]
  cases hgrow : growRead st.conn with
  | none => exact .quiet rfl rfl rfl rfl
  | some conn =>
    obtain ⟨cap, rfl⟩ := growRead_eq_some hgrow
    dsimp only
    split
    next htype =>
      split
      · exact .quiet rfl rfl rfl rfl
      · exact (@effect_processAndSlide (st.received cap chunk) htype).of_same rfl rfl rfl rfl
    next htype =>
      have hframes := framesEffect_readFrames (st.received cap chunk)
      obtain ⟨payloads, htasks⟩ := hframes.tasks_eq
      exact .messages (hframes.type_eq.trans htype) htype hframes.session_eq hframes.shared_eq
        payloads htasks
    next => exact .quiet rfl rfl rfl rfl

theorem effect_onWrite (st : State) (n : Nat) : Effect st (st.onWrite n) := by
  rw [onWrite]
  cases hbuf : st.conn.writeBuf with
  | none => exact .quiet rfl rfl rfl rfl
  | some buf =>
    dsimp only
    split
    · exact .quiet rfl rfl rfl rfl
    split
    · exact .quiet rfl rfl rfl rfl
    rw [handlePipelinedHttp]
    split
    · exact .quiet rfl rfl rfl rfl
    next hready =>
      have hinit : st.conn.type = .httpInit := by
        by_contra hne
        exact hready (.inl hne)
      have heffect := @effect_processAndSlide { st with
        conn := { st.conn with writeBuf := none, writeOff := 0, httpInFlight := false } } hinit
      exact heffect.of_same rfl rfl rfl rfl

theorem effect_drainResponses (st : State) : Effect st st.drainResponses := by
  obtain ⟨w, o, c, heq, -⟩ := foldl_drainItem st.resp st.conn
  rw [drainResponses, heq]
  exact .quiet rfl rfl rfl rfl

theorem effect_onIo (st : State) (ev : Io) : Effect st (onIo st ev) := by
  have hquiet : Effect st st := .quiet rfl rfl rfl rfl
  cases ev with
  | drain => exact effect_drainResponses st
  | read chunk =>
    rw [onIo]
    split
    · exact hquiet
    · exact effect_onRead st chunk
  | write n =>
    rw [onIo]
    split
    · exact hquiet
    · exact effect_onWrite st n
  | fail =>
    rw [onIo]
    split
    · exact hquiet
    · exact .quiet rfl rfl rfl rfl

/-- A WebSocket connection submits the messages that a read completes. -/
def newMessages (st : State) : Io → Nat
  | .read chunk => messagesIn (st.conn.readBuf ++ chunk)
  | _ => 0

theorem length_tasks_onIo (hws : st.conn.type = .ws) (htasks : st.tasks = []) (ev : Io) :
    (onIo st ev).tasks.length ≤ newMessages st ev := by
  have hnone : st.tasks.length ≤ newMessages st ev := by simp [htasks]
  cases ev with
  | drain => exact hnone
  | fail =>
    rw [onIo]
    split <;> exact hnone
  | write n =>
    rw [onIo]
    split
    · exact hnone
    rw [onWrite]
    split
    · exact hnone
    dsimp only
    split
    · exact hnone
    split
    · exact hnone
    · rw [handlePipelinedHttp_of_ne (by simp [hws])]
      exact hnone
  | read chunk =>
    rw [onIo]
    split
    · exact hnone
    rw [onRead]
    split
    · exact hnone
    next conn hgrow =>
      obtain ⟨cap, rfl⟩ := growRead_eq_some hgrow
      dsimp only
      split
      next hinit => exact absurd (hws.symm.trans hinit) (by decide)
      next => exact @length_tasks_readFrames (st.received cap chunk) htasks
      next => exact hnone

theorem tasks_of_effect (h : Effect st st') (hnone : st.tasks = []) :
    st'.tasks = [] ∨
      (∃ e ∈ st'.shared.sessions, ∃ body, st'.tasks = [⟨some e.session, body, false, e.id⟩]) ∨
      (st.conn.type = .ws ∧ ∃ payloads : List Bytes, st'.tasks = payloads.map st.wsTask) := by
  cases h with
  | quiet _ _ _ htasks | upgrade _ _ _ _ htasks | stream _ _ _ htasks =>
    exact .inl (htasks.trans hnone)
  | request _ _ _ entry hentry body htasks =>
    rw [hnone] at htasks
    exact .inr (.inl ⟨entry, hentry, body, htasks⟩)
  | messages _ hws _ _ payloads htasks =>
    rw [hnone] at htasks
    exact .inr (.inr ⟨hws, payloads, htasks⟩)

/-- A worker makes nothing of the jobs, takes its job on, for which it must be free if the job was
queued, or ends it.  The lock is given back behind the call. -/
theorem Serving.stepWork_cases [Libc] (s : Serving) (job : Job) (answer : Option Bytes) :
    (s.stepWork job answer).workers = s.workers ∧ (s.stepWork job answer).shared = s.shared ∧
      ((s.stepWork job answer).jobs = s.jobs ∨
        (∃ phase, phase ≠ .queued ∧ (job.phase = .queued → s.busy < s.workers) ∧
          (phase = .unlocked → job.phase = .called) ∧
          (s.stepWork job answer).jobs = { job with phase := phase } ::ₘ s.jobs.erase job) ∨
        (job.phase = .unlocked ∧ (s.stepWork job answer).jobs = s.jobs.erase job)) := by
  rw [Serving.stepWork]
  cases hphase : job.phase with
  | queued =>
    dsimp only
    split
    next hfree => exact ⟨rfl, rfl, .inr (.inl ⟨.starting, by decide, fun _ => hfree, by simp, rfl⟩)⟩
    next => exact ⟨rfl, rfl, .inl rfl⟩
  | starting =>
    dsimp only
    split
    next => exact ⟨rfl, rfl, .inr (.inl ⟨.entered, by decide, by simp, by simp, rfl⟩)⟩
    next =>
      split
      · exact ⟨rfl, rfl, .inl rfl⟩
      · exact ⟨rfl, rfl, .inr (.inl ⟨.entered, by decide, by simp, by simp, rfl⟩)⟩
  | entered =>
    refine ⟨rfl, rfl, .inr (.inl ⟨_, ?_, by simp, ?_, rfl⟩)⟩
    · split <;> decide
    · split <;> simp
  | calling => exact ⟨rfl, rfl, .inr (.inl ⟨.called, by decide, by simp, by simp, rfl⟩)⟩
  | called =>
    dsimp only
    split
    · exact ⟨rfl, rfl, .inr (.inl ⟨.unlocked, by decide, by simp, fun _ => rfl, rfl⟩)⟩
    · exact ⟨rfl, rfl, .inr (.inl ⟨.unlocked, by decide, by simp, fun _ => rfl, rfl⟩)⟩
  | unlocked => cases answer <;> exact ⟨rfl, rfl, .inr (.inr ⟨rfl, rfl⟩)⟩

theorem Serving.exists_of_mem_stepWork [Libc] {s : Serving} (hmem : job ∈ s.jobs)
    {answer : Option Bytes} {job' : Job} (h : job' ∈ (s.stepWork job answer).jobs) :
    ∃ j ∈ s.jobs, job'.conn = j.conn ∧ job'.task = j.task := by
  obtain ⟨-, -, hjobs | ⟨phase, -, -, -, hjobs⟩ | ⟨-, hjobs⟩⟩ := s.stepWork_cases job answer
  · rw [hjobs] at h
    exact ⟨job', h, rfl, rfl⟩
  · rw [hjobs] at h
    rcases mem_cons.mp h with rfl | h
    · exact ⟨job, hmem, rfl, rfl⟩
    · exact ⟨job', mem_of_mem_erase h, rfl, rfl⟩
  · rw [hjobs] at h
    exact ⟨job', mem_of_mem_erase h, rfl, rfl⟩

end Mcpkit.Transport.Async.Dispatching
