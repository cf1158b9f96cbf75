import Mcpkit.Transport.Dispatching

/-!
# The reaper

Every five seconds the reactor thread unlinks the sessions that were last active longer ago than the
timeout.  An entry is stamped when it is created, and by a worker behind each call, but not when a
request arrives.  So the reaper may unlink a session whose request is still being handled, and the
client is then told that its session is unknown.

The server of `Dispatching` gets a clock and the reaper with its loop over the list: workers stamp
entries while it runs, but no event of a connection is handled.
-/

namespace Mcpkit.Transport.Async.Dispatching.Reaping

open Json Protocol List Machine Bool Nat Function

def reapBatch : Nat := 32

/-- Where the reactor thread stands: between two events, or in `reap_expired_sessions` with the
entries behind it, those in front of it and the streams yet to close. -/
inductive Reactor where
  | idle
  | reaping (kept rest : List SessionEntry) (sseToClose : List Nat)

/-- What the reaper reads of an entry is kept by its session, and so is when a request on it was
received and finished last.  `made` holds every entry that was created. -/
structure Timed where
  serving : Serving
  keepaliveTimeoutS : Nat
  now : Nat
  lastReapTime : Nat
  lastActive : Nat → Nat
  sseConn : Nat → Option Nat
  reactor : Reactor
  made : List SessionEntry
  received : Nat → Option Nat
  finished : Nat → Option Nat

inductive Action where
  | tick (seconds : Nat)
  | io (c : Nat) (ev : Io)
  | reap
  | visit
  | work (job : Job) (answer : Option Bytes)

namespace Timed

def initial (workers keepaliveTimeoutS now : Nat) (cfg : Config) (idCounter : UInt64) : Timed where
  serving := .initial workers cfg idCounter
  keepaliveTimeoutS := keepaliveTimeoutS
  now := now
  lastReapTime := 0
  lastActive := fun _ => 0
  sseConn := fun _ => none
  reactor := .idle
  made := []
  received := fun _ => none
  finished := fun _ => none

def timeoutS (s : Timed) : Nat := if 0 < s.keepaliveTimeoutS then s.keepaliveTimeoutS else 60

def sessions (s : Timed) : List SessionEntry := s.serving.shared.sessions

def setSessions (s : Timed) (sessions : List SessionEntry) : Timed :=
  { s with serving := { s.serving with shared := { s.serving.shared with sessions := sessions } } }

/-- The stream of an entry, once a connection has handled an event. -/
def sseConnAfter (sseConn : Nat → Option Nat) (c : Nat) (before after : State) :
    Nat → Option Nat :=
  let opened :=
    if after.conn.type = .sse ∧ before.conn.type ≠ .sse then
      after.conn.session.elim sseConn fun n => update sseConn n (some c)
    else sseConn
  if after.conn.type = .sse ∧ after.conn.detached then
    fun n => if opened n = some c then none else opened n
  else opened

/-- An event of a connection.  An entry that is created is stamped. -/
def stepIo (s : Timed) (c : Nat) (ev : Io) : Timed :=
  let before := s.serving.connState c
  let after := onIo before ev
  { s with
    serving := s.serving.stepIo c ev
    lastActive := fun n =>
      if before.shared.created ≤ n ∧ n < after.shared.created then s.now else s.lastActive n
    sseConn := sseConnAfter s.sseConn c before after
    made := after.shared.sessions.filter (fun e => before.shared.created ≤ e.session) ++ s.made
    received := fun n =>
      if after.tasks.any (fun task => !task.isWs && task.session == some n) then some s.now
      else s.received n }

def Expired (s : Timed) (e : SessionEntry) : Prop := s.timeoutS < s.now - s.lastActive e.session

instance (s : Timed) (e : SessionEntry) : Decidable (s.Expired e) :=
  inferInstanceAs (Decidable (_ < _))

/-- One turn of the loop in `reap_expired_sessions`, or its end, where the streams are closed. -/
def stepVisit (s : Timed) : Timed :=
  match s.reactor with
  | .idle => s
  | .reaping _ [] sseToClose =>
    { s with
      serving := { s.serving with
        conns := fun c =>
          if c ∈ sseToClose then (s.serving.conns c).closeConn else s.serving.conns c }
      reactor := .idle }
  | .reaping kept (e :: rest) sseToClose =>
    if s.Expired e then
      match s.sseConn e.session with
      | none => { s.setSessions (kept ++ rest) with reactor := .reaping kept rest sseToClose }
      | some c =>
        { s.setSessions (kept ++ rest) with
          sseConn := update s.sseConn e.session none
          reactor :=
            if (sseToClose ++ [c]).length = reapBatch then
              .reaping (kept ++ rest) [] (sseToClose ++ [c])
            else .reaping kept rest (sseToClose ++ [c]) }
    else { s with reactor := .reaping (kept ++ [e]) rest sseToClose }

/-- A step of a worker.  Behind the call it stamps the entry, and in the end its answer is in the
queue. -/
def stepWork [Libc] (s : Timed) (job : Job) (answer : Option Bytes) : Timed :=
  let s' := { s with serving := s.serving.stepWork job answer }
  match job.phase, job.lock with
  | .called, some n => { s' with lastActive := update s.lastActive n s.now }
  | .unlocked, some n => { s' with finished := update s.finished n (some s.now) }
  | _, _ => s'

def step [Libc] (s : Timed) : Action → Timed
  | .tick seconds => { s with now := s.now + seconds }
  | .io c ev =>
    match s.reactor with
    | .idle => s.stepIo c ev
    | .reaping _ _ _ => s
  | .reap =>
    match s.reactor with
    | .idle =>
      if 5 ≤ s.now - s.lastReapTime then
        { s with lastReapTime := s.now, reactor := .reaping [] s.sessions [] }
      else s
    | .reaping _ _ _ => s
  | .visit => s.stepVisit
  | .work job answer => if job ∈ s.serving.jobs then s.stepWork job answer else s

def machine [Libc] (s : Timed) (act : Action) : Timed × Unit := (s.step act, ())

end Timed

def reached [Libc] (workers keepaliveTimeoutS now : Nat) (cfg : Config) (idCounter : UInt64)
    (acts : List Action) : Timed :=
  exec Timed.machine (.initial workers keepaliveTimeoutS now cfg idCounter) acts

section Effects

variable {st st' : State}

theorem sessions_of_effect (h : Effect st st') :
    (st'.shared.sessions = st.shared.sessions ∧ st.shared.created ≤ st'.shared.created) ∨
      st'.shared = st.shared.createSessionEntry.1 := by
  cases h with
  | quiet _ _ hshared _ => exact .inl (by simp [hshared])
  | upgrade _ _ _ hshared _ => exact .inl (by simp [hshared])
  | stream _ _ hshared _ => exact .inl (by simp [hshared])
  | request _ _ hshared _ _ _ _ =>
    rcases hshared with hshared | hshared
    · exact .inl (by simp [hshared])
    · exact .inr hshared
  | messages _ _ _ hshared _ _ => exact .inl (by simp [hshared])

theorem request_of_effect (h : Effect st st') (hnone : st.tasks = []) {task : Task}
    (htask : task ∈ st'.tasks) (hisWs : task.isWs = false) :
    ∃ e ∈ st'.shared.sessions, task.session = some e.session := by
  obtain hnil | ⟨e, he, body, hrequest⟩ | ⟨-, payloads, hmessages⟩ := tasks_of_effect h hnone
  · rw [hnil] at htask
    cases htask
  · rw [hrequest] at htask
    rw [mem_singleton.mp htask]
    exact ⟨e, he, rfl⟩
  · rw [hmessages] at htask
    obtain ⟨payload, -, rfl⟩ := mem_map.mp htask
    cases hisWs

end Effects

namespace Timed

/-- A request on the session has been submitted and is not finished. -/
def Unfinished (s : Timed) (n : Nat) : Prop := ∃ job ∈ s.serving.jobs, job.lock = some n

/-- A time lies within the last timeout seconds. -/
def Recent (s : Timed) (time : Option Nat) : Prop := ∃ t, time = some t ∧ s.now ≤ t + s.timeoutS

/-- The session is in use: a request on it is unfinished, or one was received or finished within
the last timeout seconds. -/
def Active (s : Timed) (n : Nat) : Prop :=
  s.Unfinished n ∨ s.Recent (s.received n) ∨ s.Recent (s.finished n)

end Timed

/-- Stamps are not older than what was received and finished, unless a call is still to come. -/
structure Stamped (s : Timed) : Prop where
  past : ∀ n, s.lastActive n ≤ s.now
  received : ∀ n r, s.received n = some r → r ≤ s.now ∧ (r ≤ s.lastActive n ∨
    ∃ job ∈ s.serving.jobs, job.lock = some n ∧ job.phase ≠ .unlocked)
  finished : ∀ n f, s.finished n = some f → f ≤ s.lastActive n

/-- Each entry that was created is in the list or not in use any more. -/
structure Kept (s : Timed) : Prop where
  fresh : ∀ e ∈ s.made, e.session < s.serving.shared.created
  distinct : ∀ e ∈ s.made, ∀ e' ∈ s.made, e.session = e'.session → e = e'
  listed : ∀ e ∈ s.sessions, e ∈ s.made
  active : ∀ e ∈ s.made, s.Active e.session → e ∈ s.sessions
  located : ∀ kept rest sseToClose, s.reactor = .reaping kept rest sseToClose →
    s.sessions = kept ++ rest

theorem Stamped.initial (workers keepaliveTimeoutS now : Nat) (cfg : Config) (idCounter : UInt64) :
    Stamped (.initial workers keepaliveTimeoutS now cfg idCounter) where
  past n := zero_le now
  received n r h := by cases h
  finished n f h := by cases h

theorem Kept.initial (workers keepaliveTimeoutS now : Nat) (cfg : Config) (idCounter : UInt64) :
    Kept (.initial workers keepaliveTimeoutS now cfg idCounter) where
  fresh e h := absurd h not_mem_nil
  distinct e h := absurd h not_mem_nil
  listed e h := absurd h not_mem_nil
  active e h := absurd h not_mem_nil
  located kept rest sseToClose h := by cases h

variable {s : Timed} {e : SessionEntry}

theorem Stamped.stepIo (h : Stamped s) (c : Nat) (ev : Io) : Stamped (s.stepIo c ev) := by
  have hgrows : ∀ n, s.lastActive n ≤ (s.stepIo c ev).lastActive n := by
    intro n
    simp only [Timed.stepIo]
    split
    · exact h.past n
    · exact le_refl _
  constructor
  · intro n
    simp only [Timed.stepIo]
    split
    · exact le_refl _
    · exact h.past n
  · intro n r hr
    simp only [Timed.stepIo] at hr
    split at hr
    next hany =>
      cases hr
      obtain ⟨task, htask, hrequest⟩ := any_eq_true.mp hany
      refine ⟨le_refl _, .inr ⟨⟨c, task, .queued⟩, ?_, ?_, ?_⟩⟩
      · exact Multiset.mem_add.mpr (.inl (mem_map.mpr ⟨task, htask, rfl⟩))
      · simp only [and_eq_true, not_eq_true', beq_iff_eq] at hrequest
        exact Job.lock_eq_some_iff.mpr hrequest
      · intro hphase
        cases hphase
    next =>
      obtain ⟨hpast, hstamp | ⟨job, hjob, hlock⟩⟩ := h.received n r hr
      · exact ⟨hpast, .inl (le_trans hstamp (hgrows n))⟩
      · exact ⟨hpast, .inr ⟨job, Multiset.mem_add.mpr (.inr hjob), hlock⟩⟩
  · intro n f hf
    exact le_trans (h.finished n f hf) (hgrows n)

theorem Kept.filter_eq_nil (h : Kept s) :
    s.sessions.filter (fun e => s.serving.shared.created ≤ e.session) = [] := by
  rw [filter_eq_nil_iff]
  intro e he
  have hlt := h.fresh e (h.listed e he)
  simpa using hlt

theorem Kept.made_stepIo (h : Kept s) (c : Nat) (ev : Io) :
    ((s.stepIo c ev).made = s.made ∧ (s.stepIo c ev).sessions = s.sessions ∧
      s.serving.shared.created ≤ (s.stepIo c ev).serving.shared.created) ∨
    ∃ e, e.session = s.serving.shared.created ∧ (s.stepIo c ev).made = e :: s.made ∧
      (s.stepIo c ev).sessions = e :: s.sessions ∧
      (s.stepIo c ev).serving.shared.created = s.serving.shared.created + 1 := by
  have hmade : (s.stepIo c ev).made = (s.stepIo c ev).sessions.filter
      (fun e => s.serving.shared.created ≤ e.session) ++ s.made := rfl
  rcases sessions_of_effect (effect_onIo (s.serving.connState c) ev) with ⟨hsame, hle⟩ | hcreated
  · have hsessions : (s.stepIo c ev).sessions = s.sessions := hsame
    refine .inl ⟨?_, hsessions, hle⟩
    rw [hmade, hsessions, h.filter_eq_nil, nil_append]
  have hsessions : (s.stepIo c ev).sessions =
      s.serving.shared.createSessionEntry.2 :: s.sessions := congrArg Shared.sessions hcreated
  refine .inr ⟨s.serving.shared.createSessionEntry.2, rfl, ?_, hsessions,
    congrArg Shared.created hcreated⟩
  have hself : decide (s.serving.shared.created ≤
      s.serving.shared.createSessionEntry.2.session) = true := decide_eq_true (le_refl _)
  rw [hmade, hsessions, filter_cons, if_pos hself, h.filter_eq_nil]
  rfl

theorem distinct_cons {made : List SessionEntry} {created : Nat}
    (hfresh : ∀ e' ∈ made, e'.session < created) (he : e.session = created)
    (h : ∀ e₁ ∈ made, ∀ e₂ ∈ made, e₁.session = e₂.session → e₁ = e₂) :
    ∀ e₁ ∈ e :: made, ∀ e₂ ∈ e :: made, e₁.session = e₂.session → e₁ = e₂ := by
  intro e₁ h₁ e₂ h₂ heq
  rcases mem_cons.mp h₁ with hnew₁ | hold₁ <;> rcases mem_cons.mp h₂ with hnew₂ | hold₂
  · rw [hnew₁, hnew₂]
  · have hlt := hfresh e₂ hold₂
    rw [← heq, hnew₁, he] at hlt
    exact absurd hlt (lt_irrefl _)
  · have hlt := hfresh e₁ hold₁
    rw [heq, hnew₂, he] at hlt
    exact absurd hlt (lt_irrefl _)
  · exact h e₁ hold₁ e₂ hold₂ heq

theorem Kept.lists_stepIo (h : Kept s) (c : Nat) (ev : Io) :
    (∀ e ∈ (s.stepIo c ev).made, e.session < (s.stepIo c ev).serving.shared.created) ∧
    (∀ e₁ ∈ (s.stepIo c ev).made, ∀ e₂ ∈ (s.stepIo c ev).made, e₁.session = e₂.session → e₁ = e₂) ∧
    (∀ e ∈ (s.stepIo c ev).sessions, e ∈ (s.stepIo c ev).made) ∧
    (∀ e ∈ (s.stepIo c ev).made, e ∈ s.made ∨ e ∈ (s.stepIo c ev).sessions) ∧
    (∀ e ∈ s.sessions, e ∈ (s.stepIo c ev).sessions) := by
  rcases h.made_stepIo c ev with ⟨hmade, hsessions, hle⟩ | ⟨e, he, hmade, hsessions, hcreated⟩
  · rw [hmade, hsessions]
    exact ⟨fun e he => lt_of_lt_of_le (h.fresh e he) hle, h.distinct, h.listed,
      fun e he => .inl he, fun e he => he⟩
  rw [hmade, hsessions, hcreated]
  refine ⟨?_, distinct_cons h.fresh he h.distinct, ?_, ?_, fun e' he' => mem_cons_of_mem e he'⟩
  · intro e' he'
    rcases mem_cons.mp he' with rfl | he'
    · omega
    · exact lt_succ_of_lt (h.fresh e' he')
  · intro e' he'
    rcases mem_cons.mp he' with rfl | he'
    · exact mem_cons_self
    · exact mem_cons_of_mem e (h.listed e' he')
  · intro e' he'
    rcases mem_cons.mp he' with rfl | he'
    · exact .inr mem_cons_self
    · exact .inl he'

theorem Kept.stepIo (h : Kept s) (hidle : s.reactor = .idle) (c : Nat) (ev : Io) :
    Kept (s.stepIo c ev) := by
  obtain ⟨hfresh, hdistinct, hlisted, hmade, hold⟩ := h.lists_stepIo c ev
  refine ⟨hfresh, hdistinct, hlisted, ?_, ?_⟩
  · intro e he hactive
    -- a request that was just submitted is on an entry of the list
    have hrequest : ∀ task ∈ (onIo (s.serving.connState c) ev).tasks, task.isWs = false →
        task.session = some e.session → e ∈ (s.stepIo c ev).sessions := by
      intro task htask hisWs hsession
      obtain ⟨e', he', hsession'⟩ := request_of_effect
        (effect_onIo (s.serving.connState c) ev) rfl htask hisWs
      have hsame : e' = e :=
        hdistinct e' (hlisted e' he') e he (Option.some.inj (hsession'.symm.trans hsession))
      exact hsame ▸ he'
    rcases hmade e he with he | he
    · have hbefore : s.Active e.session → e ∈ (s.stepIo c ev).sessions :=
        fun hbefore => hold e (h.active e he hbefore)
      rcases hactive with ⟨job, hjob, hlock⟩ | hreceived | hfinished
      · rcases Multiset.mem_add.mp hjob with hjob | hjob
        · obtain ⟨task, htask, rfl⟩ := mem_map.mp hjob
          obtain ⟨hisWs, hsession⟩ := Job.lock_eq_some_iff.mp hlock
          exact hrequest task htask hisWs hsession
        · exact hbefore (.inl ⟨job, hjob, hlock⟩)
      · simp only [Timed.stepIo] at hreceived
        split at hreceived
        next hany =>
          obtain ⟨task, htask, hnow⟩ := any_eq_true.mp hany
          simp only [and_eq_true, not_eq_true', beq_iff_eq] at hnow
          exact hrequest task htask hnow.1 hnow.2
        next => exact hbefore (.inr (.inl hreceived))
      · exact hbefore (.inr (.inr hfinished))
    · exact he
  · intro kept rest sseToClose hreaping
    have hstill : (s.stepIo c ev).reactor = .idle := hidle
    rw [hstill] at hreaping
    cases hreaping

/-- The reaper does not find the session in front of it with an unfinished request and a stamp that
is too old. -/
def PromptVisit (s : Timed) : Reactor → Prop
  | .reaping _ (e :: _) _ => s.Unfinished e.session → s.now ≤ s.lastActive e.session + s.timeoutS
  | .reaping _ [] _ => True
  | .idle => True

/-- Requests are dealt with before the last stamp of their session is too old, and the answer is in
the queue in the second of the stamp. -/
def Prompt (s : Timed) : Action → Prop
  | .visit => PromptVisit s s.reactor
  | .work job _ => job.phase = .unlocked → ∀ n ∈ job.lock, s.lastActive n = s.now
  | _ => True

instance (s : Timed) (n : Nat) : Decidable (s.Unfinished n) := Multiset.decidableExistsMultiset

instance decidablePromptVisit (s : Timed) : (reactor : Reactor) → Decidable (PromptVisit s reactor)
  | .reaping _ (e :: _) _ => inferInstanceAs (Decidable
      (s.Unfinished e.session → s.now ≤ s.lastActive e.session + s.timeoutS))
  | .reaping _ [] _ => isTrue trivial
  | .idle => isTrue trivial

instance decidablePrompt (s : Timed) : (act : Action) → Decidable (Prompt s act)
  | .visit => decidablePromptVisit s s.reactor
  | .work job _ => inferInstanceAs (Decidable
      (job.phase = .unlocked → ∀ n ∈ job.lock, s.lastActive n = s.now))
  | .tick _ => isTrue trivial
  | .io _ _ => isTrue trivial
  | .reap => isTrue trivial

theorem Stamped.tick (h : Stamped s) (seconds : Nat) :
    Stamped { s with now := s.now + seconds } where
  past n := le_add_right_of_le (h.past n)
  received n r hr := ⟨le_add_right_of_le (h.received n r hr).1, (h.received n r hr).2⟩
  finished := h.finished

theorem Kept.tick (h : Kept s) (seconds : Nat) : Kept { s with now := s.now + seconds } := by
  have hrecent {time : Option Nat} (hlater : Timed.Recent { s with now := s.now + seconds } time) :
      s.Recent time := by
    obtain ⟨t, ht, hle⟩ := hlater
    exact ⟨t, ht, le_trans (le_add_right _ _) hle⟩
  refine ⟨h.fresh, h.distinct, h.listed, ?_, h.located⟩
  intro e he hactive
  apply h.active e he
  rcases hactive with hunfinished | hreceived | hfinished
  · exact .inl hunfinished
  · exact .inr (.inl (hrecent hreceived))
  · exact .inr (.inr (hrecent hfinished))

theorem Stamped.not_active (h : Stamped s) (hexpired : s.Expired e)
    (hprompt : s.Unfinished e.session → s.now ≤ s.lastActive e.session + s.timeoutS) :
    ¬s.Active e.session := by
  have hold : s.lastActive e.session + s.timeoutS < s.now := by
    have hlt : s.timeoutS < s.now - s.lastActive e.session := hexpired
    omega
  have hnone : ¬s.Unfinished e.session := by
    intro hunfinished
    exact not_le.mpr hold (hprompt hunfinished)
  rintro (hunfinished | ⟨r, hr, hle⟩ | ⟨f, hf, hle⟩)
  · exact hnone hunfinished
  · obtain ⟨-, hstamp | ⟨job, hjob, hlock, -⟩⟩ := h.received _ r hr
    · omega
    · exact hnone ⟨job, hjob, hlock⟩
  · have hstamp := h.finished _ f hf
    omega

theorem Stamped.stepVisit (h : Stamped s) : Stamped s.stepVisit := by
  rw [Timed.stepVisit]
  split
  · exact h
  · exact ⟨h.past, h.received, h.finished⟩
  · split
    · split <;> exact ⟨h.past, h.received, h.finished⟩
    · exact ⟨h.past, h.received, h.finished⟩

theorem Kept.unlink (h : Kept s) {kept rest : List SessionEntry}
    (hsessions : s.sessions = kept ++ e :: rest) (hunused : ¬s.Active e.session) :
    (∀ e' ∈ kept ++ rest, e' ∈ s.made) ∧
      ∀ e' ∈ s.made, s.Active e'.session → e' ∈ kept ++ rest := by
  constructor
  · intro e' he'
    apply h.listed
    rw [hsessions]
    rcases mem_append.mp he' with he' | he'
    · exact mem_append_left _ he'
    · exact mem_append_right _ (mem_cons_of_mem e he')
  intro e' he' hactive
  have hmem := h.active e' he' hactive
  rw [hsessions] at hmem
  rcases mem_append.mp hmem with hmem | hmem
  · exact mem_append_left _ hmem
  · rcases mem_cons.mp hmem with rfl | hmem
    · exact absurd hactive hunused
    · exact mem_append_right _ hmem

theorem Kept.stepVisit (h : Kept s) (hstamped : Stamped s) (hok : Prompt s .visit) :
    Kept s.stepVisit := by
  rw [Timed.stepVisit]
  split
  next => exact h
  next =>
    refine ⟨h.fresh, h.distinct, h.listed, h.active, ?_⟩
    intro kept rest sseToClose hreaping
    cases hreaping
  next kept e rest sseToClose hreactor =>
    have hsessions := h.located _ _ _ hreactor
    have hprompt : s.Unfinished e.session → s.now ≤ s.lastActive e.session + s.timeoutS := by
      rwa [Prompt, hreactor] at hok
    split
    next hexpired =>
      obtain ⟨hlisted, hactive⟩ := h.unlink hsessions (hstamped.not_active hexpired hprompt)
      split
      next =>
        refine ⟨h.fresh, h.distinct, hlisted, hactive, ?_⟩
        intro kept' rest' toClose' hreaping
        cases hreaping
        rfl
      next =>
        refine ⟨h.fresh, h.distinct, hlisted, hactive, ?_⟩
        intro kept' rest' toClose' hreaping
        dsimp only at hreaping
        split at hreaping
        · cases hreaping
          exact (append_nil _).symm
        · cases hreaping
          rfl
    next =>
      refine ⟨h.fresh, h.distinct, h.listed, h.active, ?_⟩
      intro kept' rest' toClose' hreaping
      cases hreaping
      rwa [append_assoc]

section Work

variable [Libc] (s : Timed) (job : Job) (answer : Option Bytes)

theorem stepWork_frame :
    (s.stepWork job answer).serving = s.serving.stepWork job answer ∧
      (s.stepWork job answer).now = s.now ∧
      (s.stepWork job answer).keepaliveTimeoutS = s.keepaliveTimeoutS ∧
      (s.stepWork job answer).made = s.made ∧
      (s.stepWork job answer).received = s.received ∧
      (s.stepWork job answer).reactor = s.reactor := by
  rw [Timed.stepWork]
  split <;> exact ⟨rfl, rfl, rfl, rfl, rfl, rfl⟩

theorem lastActive_stepWork (n : Nat) :
    (s.stepWork job answer).lastActive n =
      if job.phase = .called ∧ job.lock = some n then s.now else s.lastActive n := by
  rw [Timed.stepWork]
  split
  next m hphase hlock => simp [hphase, hlock, update_apply, eq_comm]
  next m hphase hlock => simp [hphase]
  next hcalled _ =>
    rw [if_neg]
    rintro ⟨hphase, hlock⟩
    exact hcalled n hphase hlock

theorem finished_stepWork (n : Nat) :
    (s.stepWork job answer).finished n =
      if job.phase = .unlocked ∧ job.lock = some n then some s.now else s.finished n := by
  rw [Timed.stepWork]
  split
  next m hphase hlock => simp [hphase]
  next m hphase hlock => simp [hphase, hlock, update_apply, eq_comm]
  next _ hunlocked =>
    rw [if_neg]
    rintro ⟨hphase, hlock⟩
    exact hunlocked n hphase hlock

variable {s job}

theorem unfinished_of_stepWork (hmem : job ∈ s.serving.jobs) {n : Nat}
    (h : (s.stepWork job answer).Unfinished n) : s.Unfinished n := by
  obtain ⟨job', hjob', hlock⟩ := h
  rw [(stepWork_frame s job answer).1] at hjob'
  obtain ⟨j, hj, -, htask⟩ := Serving.exists_of_mem_stepWork hmem hjob'
  rw [Job.lock, htask] at hlock
  exact ⟨j, hj, hlock⟩

theorem waiting_of_stepWork {job' : Job} (hjob' : job' ∈ s.serving.jobs)
    (hphase : job'.phase ≠ .unlocked) (hother : ¬(job' = job ∧ job.phase = .called)) :
    ∃ job'' ∈ (s.stepWork job answer).serving.jobs,
      job''.lock = job'.lock ∧ job''.phase ≠ .unlocked := by
  rw [(stepWork_frame s job answer).1]
  obtain ⟨-, -, hjobs | ⟨phase, -, -, hcalled, hjobs⟩ | ⟨hunlocked, hjobs⟩⟩ :=
    s.serving.stepWork_cases job answer
  · rw [hjobs]
    exact ⟨job', hjob', rfl, hphase⟩
  · rw [hjobs]
    by_cases hsame : job' = job
    · subst hsame
      refine ⟨_, Multiset.mem_cons_self _ _, rfl, ?_⟩
      intro hdone
      exact hother ⟨rfl, hcalled hdone⟩
    · exact ⟨job', Multiset.mem_cons_of_mem ((Multiset.mem_erase_of_ne hsame).mpr hjob'), rfl,
      hphase⟩
  · rw [hjobs]
    have hne : job' ≠ job := by
      rintro rfl
      exact hphase hunlocked
    exact ⟨job', (Multiset.mem_erase_of_ne hne).mpr hjob', rfl, hphase⟩

theorem Stamped.stepWork (h : Stamped s)
    (hok : job.phase = .unlocked → ∀ n ∈ job.lock, s.lastActive n = s.now) :
    Stamped (s.stepWork job answer) := by
  obtain ⟨-, hnow, -, -, hreceived, -⟩ := stepWork_frame s job answer
  have hgrows : ∀ n, s.lastActive n ≤ (s.stepWork job answer).lastActive n := by
    intro n
    rw [lastActive_stepWork]
    split
    · exact h.past n
    · exact le_refl _
  constructor
  · intro n
    rw [lastActive_stepWork, hnow]
    split
    · exact le_refl _
    · exact h.past n
  · intro n r hr
    rw [hreceived] at hr
    obtain ⟨hpast, hstamp | ⟨job', hjob', hlock, hphase⟩⟩ := h.received n r hr
    · rw [hnow]
      exact ⟨hpast, .inl (le_trans hstamp (hgrows n))⟩
    rw [hnow]
    refine ⟨hpast, ?_⟩
    by_cases hcalled : job' = job ∧ job.phase = .called
    · obtain ⟨rfl, hcalled⟩ := hcalled
      left
      rwa [lastActive_stepWork, if_pos ⟨hcalled, hlock⟩]
    right
    obtain ⟨job'', hjob'', hlock'', hphase''⟩ := waiting_of_stepWork answer hjob' hphase hcalled
    exact ⟨job'', hjob'', hlock''.trans hlock, hphase''⟩
  · intro n f hf
    rw [finished_stepWork] at hf
    split at hf
    next hdone =>
      cases hf
      exact le_trans (le_of_eq (hok hdone.1 n hdone.2).symm) (hgrows n)
    next => exact le_trans (h.finished n f hf) (hgrows n)

theorem Kept.stepWork (h : Kept s) (hmem : job ∈ s.serving.jobs) :
    Kept (s.stepWork job answer) := by
  obtain ⟨hserving, hnow, htimeout, hmade, hreceived, hreactor⟩ := stepWork_frame s job answer
  have hshared : (s.stepWork job answer).serving.shared = s.serving.shared := by
    rw [hserving]
    exact (s.serving.stepWork_cases job answer).2.1
  have hsessions : (s.stepWork job answer).sessions = s.sessions := congrArg Shared.sessions hshared
  have hrecent {time : Option Nat} (hlater : (s.stepWork job answer).Recent time) :
      s.Recent time := by
    rwa [Timed.Recent, hnow, Timed.timeoutS, htimeout] at hlater
  constructor
  case fresh =>
    rw [hmade, hshared]
    exact h.fresh
  case distinct =>
    rw [hmade]
    exact h.distinct
  case listed =>
    rw [hmade, hsessions]
    exact h.listed
  case active =>
    rw [hmade, hsessions]
    intro e he hactive
    apply h.active e he
    rcases hactive with hunfinished | hlater | hlater
    · exact .inl (unfinished_of_stepWork answer hmem hunfinished)
    · rw [hreceived] at hlater
      exact .inr (.inl (hrecent hlater))
    rw [finished_stepWork] at hlater
    split at hlater
    next hdone => exact .inl ⟨job, hmem, hdone.2⟩
    next => exact .inr (.inr (hrecent hlater))
  case located =>
    rw [hreactor, hsessions]
    exact h.located

end Work

theorem invariant_step [Libc] {act : Action} (hok : Prompt s act) (h : Stamped s ∧ Kept s) :
    Stamped (s.step act) ∧ Kept (s.step act) := by
  cases act with
  | tick seconds => exact ⟨h.1.tick seconds, h.2.tick seconds⟩
  | visit => exact ⟨h.1.stepVisit, h.2.stepVisit h.1 hok⟩
  | io c ev =>
    rw [Timed.step]
    split
    next hidle => exact ⟨h.1.stepIo c ev, h.2.stepIo hidle c ev⟩
    next => exact h
  | reap =>
    rw [Timed.step]
    split
    next =>
      split
      · refine ⟨⟨h.1.past, h.1.received, h.1.finished⟩,
          ⟨h.2.fresh, h.2.distinct, h.2.listed, h.2.active, ?_⟩⟩
        intro kept rest sseToClose hreaping
        cases hreaping
        rfl
      · exact h
    next => exact h
  | work job answer =>
    rw [Timed.step]
    split
    next hmem => exact ⟨h.1.stepWork answer hok, h.2.stepWork answer hmem⟩
    next => exact h

theorem active_stepVisit (s : Timed) (n : Nat) : s.stepVisit.Active n ↔ s.Active n := by
  rw [Timed.stepVisit]
  split
  · exact Iff.rfl
  · exact Iff.rfl
  · split
    · split <;> exact Iff.rfl
    · exact Iff.rfl

theorem made_stepVisit (s : Timed) : s.stepVisit.made = s.made := by
  rw [Timed.stepVisit]
  split
  · rfl
  · rfl
  · split
    · split <;> rfl
    · rfl

/-- In every run in which requests are dealt with in time, the reaper unlinks no session that is in
use, and a request that names a session in use finds it. -/
theorem reaper_spares_exec [Libc] (workers keepaliveTimeoutS now : Nat) (cfg : Config)
    (idCounter : UInt64) (acts : List Action)
    (hok : Admissible Timed.machine Prompt
      (.initial workers keepaliveTimeoutS now cfg idCounter) acts) :
    (∀ before after, acts = before ++ .visit :: after →
      ∀ e ∈ (reached workers keepaliveTimeoutS now cfg idCounter before).sessions,
        e ∉ (reached workers keepaliveTimeoutS now cfg idCounter (before ++ [.visit])).sessions →
          ¬(reached workers keepaliveTimeoutS now cfg idCounter before).Active e.session) ∧
    (∀ before after, acts = before ++ after →
      ∀ e ∈ (reached workers keepaliveTimeoutS now cfg idCounter before).made,
        (reached workers keepaliveTimeoutS now cfg idCounter before).Active e.session →
          ((reached workers keepaliveTimeoutS now cfg idCounter
            before).serving.shared.findSession e.id).isSome = true) := by
  have hinvariant : ∀ before after, acts = before ++ after →
      Stamped (reached workers keepaliveTimeoutS now cfg idCounter before) ∧
        Kept (reached workers keepaliveTimeoutS now cfg idCounter before) := by
    rintro before after rfl
    refine exec_invariant_of_admissible (I := fun s => Stamped s ∧ Kept s) ?_
      ⟨.initial .., .initial ..⟩ ((admissible_append Timed.machine).mp hok).1
    intro s act hact h
    exact invariant_step hact h
  constructor
  · intro before after hacts e he hgone hactive
    have hbefore := (hinvariant before (.visit :: after) hacts).2
    have hafter := (hinvariant (before ++ [.visit]) after (by simp [hacts])).2
    rw [reached, exec_append] at hafter hgone
    apply hgone
    apply hafter.active
    · exact (made_stepVisit _).symm ▸ hbefore.listed e he
    · exact (active_stepVisit _ _).mpr hactive
  · intro before after hacts e he hactive
    have hmem := (hinvariant before after hacts).2.active e he hactive
    rw [Shared.findSession, find?_isSome]
    exact ⟨e, hmem, by simp⟩

/-! A session that is created at second 100 and last answered in the same second, or whose request
takes longer than the timeout of 60 seconds. -/

def openingBody : Bytes := "\x7b\"jsonrpc\":\"2.0\",\"id\":1,\"method\":\"initialize\"\x7d"

def post (header body : Bytes) : Bytes :=
  text "POST / HTTP/1.1" ++ crlf ++ header ++ text "Content-Length: " ++
    unsignedDecimal body.length ++ crlfCrlf ++ body

def firstEntry : SessionEntry := ⟨"sess-1000", 0⟩

def initializeJob (phase : Phase) : Job :=
  ⟨0, ⟨some 0, openingBody, false, "sess-1000"⟩, phase⟩

/-- A worker steps from each of some places to the next. -/
def works (phases : List Phase) : List Action :=
  phases.map fun phase => .work (initializeJob phase) (some "\x7b\x7d")

/-- The request is answered at once, and the reaper passes 60 seconds later. -/
def answeredRun : List Action :=
  .io 0 (.read (post [] openingBody)) ::
    works [.queued, .starting, .entered, .calling, .called, .unlocked] ++
    [.tick 60, .reap, .visit, .visit]

theorem reaper_spares_answeredRun :
    ((@reached unitLibc 1 60 100 ⟨true, true⟩ 1000 answeredRun).serving.shared.findSession
      "sess-1000").isSome = true := by
  have hok : Admissible (@Timed.machine unitLibc) Prompt
      (.initial 1 60 100 ⟨true, true⟩ 1000) answeredRun := by
    decide +kernel
  have hmade : firstEntry ∈ (@reached unitLibc 1 60 100 ⟨true, true⟩ 1000 answeredRun).made := by
    decide +kernel
  have hrecent : (@reached unitLibc 1 60 100 ⟨true, true⟩ 1000 answeredRun).Active 0 :=
    .inr (.inr ⟨100, by decide +kernel, by decide +kernel⟩)
  exact (@reaper_spares_exec unitLibc 1 60 100 ⟨true, true⟩ 1000 answeredRun hok).2 answeredRun []
    (append_nil _).symm firstEntry hmade hrecent

/-- The dispatcher works on the request for 61 seconds, when the reaper passes. -/
def slowRun : List Action :=
  .io 0 (.read (post [] openingBody)) :: works [.queued, .starting, .entered] ++
    [.tick 61, .reap]

/-- The request is answered, and the client sends the next one in the same second. -/
def nextRequest : List Action :=
  .visit :: works [.calling, .called, .unlocked] ++
    [.io 1 (.read (post (text "Mcp-Session-Id: sess-1000" ++ crlf) openingBody))]

/-- The reaper unlinks the session while a call on it is in progress, and the client is told that
it is unknown. -/
theorem reaper_unlinks_slowRun :
    (@reached unitLibc 1 60 100 ⟨true, true⟩ 1000 slowRun).sessions = [firstEntry] ∧
      (@reached unitLibc 1 60 100 ⟨true, true⟩ 1000 slowRun).Active 0 ∧
      (@reached unitLibc 1 60 100 ⟨true, true⟩ 1000 (slowRun ++ [.visit])).sessions = [] ∧
      ((@reached unitLibc 1 60 100 ⟨true, true⟩ 1000
        (slowRun ++ .visit :: nextRequest)).serving.conns 1).resp =
          [⟨State.httpError 404 "Session Not Found", true⟩] := by
  have hunfinished : (@reached unitLibc 1 60 100 ⟨true, true⟩ 1000 slowRun).Unfinished 0 := by
    decide +kernel
  exact ⟨by decide +kernel, .inl hunfinished, by decide +kernel, by decide +kernel⟩

end Mcpkit.Transport.Async.Dispatching.Reaping
