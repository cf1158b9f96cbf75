import Mcpkit.Transport.Dispatching

/-!
# Calls on one session exclude each other

The session of an entry is protected by the lock of the entry, and that of a
WebSocket by nothing.  Both kinds of sessions are apart, and each WebSocket has a
session of its own.  So what is left to the clients is to wait with a message until
the previous one has been dealt with.
-/

namespace Mcpkit.Transport.Async.Dispatching

open Json Protocol List Machine Function Nat

/-- The session is none of a WebSocket. -/
def Apart (ws : Nat → Option Nat) (shared : Shared) (n : Nat) : Prop :=
  n < shared.created ∧ ∀ c, ws c ≠ some n

/-- The sessions of WebSockets have been created, no two are the same, no entry has one of them, and
jobs belong to the session of their connection or to one apart from these. -/
structure Owned (ws : Nat → Option Nat) (shared : Shared) (jobs : Multiset Job) : Prop where
  fresh : ∀ c n, ws c = some n → n < shared.created
  distinct : ∀ c c' n, ws c = some n → ws c' = some n → c = c'
  entries : ∀ e ∈ shared.sessions, Apart ws shared e.session
  message : ∀ j ∈ jobs, j.task.isWs = true → ∃ n, j.task.session = some n ∧ ws j.conn = some n
  request : ∀ j ∈ jobs, j.task.isWs = false → ∃ n, j.task.session = some n ∧ Apart ws shared n

variable {st : State} {c : Nat} {s : Serving}

namespace Owned

variable {ws : Nat → Option Nat} {shared : Shared} {jobs : Multiset Job}

theorem initial (idCounter : UInt64) : Owned (fun _ => none) ⟨[], idCounter, 0⟩ 0 where
  fresh c n h := absurd h (by simp)
  distinct c c' n h := absurd h (by simp)
  entries e h := absurd h not_mem_nil
  message j h := absurd h (Multiset.notMem_zero j)
  request j h := absurd h (Multiset.notMem_zero j)

variable {n : Nat}

theorem update_eq_some {c' m : Nat} (h : Function.update ws c (some m) c' = some n) :
    (c' = c ∧ n = m) ∨ ws c' = some n := by
  by_cases hc : c' = c
  · subst hc
    rw [update_self] at h
    exact .inl ⟨rfl, (Option.some.inj h).symm⟩
  · rw [update_of_ne hc] at h
    exact .inr h

theorem apart_upgrade (h : Apart ws shared n) (c : Nat) :
    Apart (Function.update ws c (some shared.created))
      { shared with created := shared.created + 1 } n := by
  refine ⟨lt_succ_of_lt h.1, ?_⟩
  intro c' hc'
  rcases update_eq_some hc' with ⟨-, rfl⟩ | hws
  · exact lt_irrefl _ h.1
  · exact h.2 c' hws

section

variable (h : Owned ws shared jobs)
include h

theorem upgrade (hc : ws c = none) : Owned (Function.update ws c (some shared.created))
      { shared with created := shared.created + 1 } jobs := by
  constructor
  case fresh =>
    intro c' n hn
    rcases update_eq_some hn with ⟨-, rfl⟩ | hws
    · exact lt_succ_self _
    · exact lt_succ_of_lt (h.fresh c' n hws)
  case distinct =>
    intro c₁ c₂ n h₁ h₂
    rcases update_eq_some h₁ with ⟨rfl, rfl⟩ | hws₁ <;>
      rcases update_eq_some h₂ with ⟨rfl, hn⟩ | hws₂
    · rfl
    · exact absurd (h.fresh c₂ _ hws₂) (lt_irrefl _)
    · rw [hn] at hws₁
      exact absurd (h.fresh c₁ _ hws₁) (lt_irrefl _)
    · exact h.distinct c₁ c₂ n hws₁ hws₂
  case entries =>
    intro e he
    exact apart_upgrade (h.entries e he) c
  case message =>
    intro j hj hisWs
    obtain ⟨n, hn, hws⟩ := h.message j hj hisWs
    have hne : j.conn ≠ c := by
      rintro rfl
      rw [hc] at hws
      cases hws
    exact ⟨n, hn, (update_of_ne hne _ _).trans hws⟩
  case request =>
    intro j hj hisWs
    obtain ⟨n, hn, hapart⟩ := h.request j hj hisWs
    exact ⟨n, hn, apart_upgrade hapart c⟩

theorem create : Owned ws shared.createSessionEntry.1 jobs := by
  have hapart : ∀ n, Apart ws shared n → Apart ws shared.createSessionEntry.1 n :=
    fun n hn => ⟨lt_succ_of_lt hn.1, hn.2⟩
  constructor
  case fresh =>
    intro c n hn
    exact lt_succ_of_lt (h.fresh c n hn)
  case distinct => exact h.distinct
  case entries =>
    intro e he
    rcases mem_cons.mp he with rfl | he
    · refine ⟨lt_succ_self _, ?_⟩
      intro c hc
      exact lt_irrefl _ (h.fresh c _ hc)
    · exact hapart e.session (h.entries e he)
  case message => exact h.message
  case request =>
    intro j hj hisWs
    obtain ⟨n, hn, hnApart⟩ := h.request j hj hisWs
    exact ⟨n, hn, hapart n hnApart⟩

theorem reap (keep : SessionEntry → Bool) :
    Owned ws { shared with sessions := shared.sessions.filter keep } jobs where
  fresh := h.fresh
  distinct := h.distinct
  entries e he := h.entries e (mem_of_mem_filter he)
  message := h.message
  request := h.request

theorem of_jobs {jobs' : Multiset Job}
    (hjobs : ∀ j' ∈ jobs', ∃ j ∈ jobs, j'.conn = j.conn ∧ j'.task = j.task) :
    Owned ws shared jobs' where
  fresh := h.fresh
  distinct := h.distinct
  entries := h.entries
  message j' hj' hisWs := by
    obtain ⟨j, hj, hconn, htask⟩ := hjobs j' hj'
    rw [htask] at hisWs ⊢
    rw [hconn]
    exact h.message j hj hisWs
  request j' hj' hisWs := by
    obtain ⟨j, hj, -, htask⟩ := hjobs j' hj'
    rw [htask] at hisWs ⊢
    exact h.request j hj hisWs

theorem add {new : Multiset Job}
    (hmessage : ∀ j ∈ new, j.task.isWs = true → ∃ n, j.task.session = some n ∧ ws j.conn = some n)
    (hrequest : ∀ j ∈ new, j.task.isWs = false →
      ∃ n, j.task.session = some n ∧ Apart ws shared n) : Owned ws shared (new + jobs) where
  fresh := h.fresh
  distinct := h.distinct
  entries := h.entries
  message j hj := (Multiset.mem_add.mp hj).elim (hmessage j) (h.message j)
  request j hj := (Multiset.mem_add.mp hj).elim (hrequest j) (h.request j)

theorem add_request {e : SessionEntry} (he : e ∈ shared.sessions) (c : Nat) (body : Bytes) :
    Owned ws shared (queuedJobs c [⟨some e.session, body, false, e.id⟩] + jobs) := by
  apply h.add
  · intro j hj hisWs
    rw [mem_singleton.mp hj] at hisWs
    cases hisWs
  · intro j hj _
    rw [mem_singleton.mp hj]
    exact ⟨e.session, rfl, h.entries e he⟩

theorem add_messages (hsession : st.conn.session = some n)
    (hc : ws c = some n) (payloads : List Bytes) :
    Owned ws shared (queuedJobs c (payloads.map st.wsTask) + jobs) := by
  have hnew : ∀ j ∈ queuedJobs c (payloads.map st.wsTask),
      ∃ payload, j = ⟨c, st.wsTask payload, .queued⟩ := by
    intro j hj
    obtain ⟨task, htask, rfl⟩ := mem_map.mp hj
    obtain ⟨payload, -, rfl⟩ := mem_map.mp htask
    exact ⟨payload, rfl⟩
  apply h.add
  · intro j hj _
    obtain ⟨payload, rfl⟩ := hnew j hj
    exact ⟨n, hsession, hc⟩
  · intro j hj hisWs
    obtain ⟨payload, rfl⟩ := hnew j hj
    cases hisWs

end

end Owned

def wsSession (st : State) : Option Nat := if st.conn.type = .ws then st.conn.session else none

theorem wsSession_of_ws (h : st.conn.type = .ws) : wsSession st = st.conn.session := if_pos h

theorem wsSession_of_type {type : ConnType} (h : st.conn.type = type) (hne : type ≠ .ws) :
    wsSession st = none :=
  if_neg (h ▸ hne)

/-- The locks are held by the jobs that have taken them, sessions are apart, and every WebSocket
has one. -/
structure Invariant (s : Serving) : Prop where
  guarded : Mutex.Guarded Job.holds s.locks s.jobs
  owned : Owned (wsSession ∘ s.conns) s.shared s.jobs
  opened : ∀ c, (s.conns c).conn.type = .ws → ∃ n, (s.conns c).conn.session = some n

theorem Invariant.initial (workers : Nat) (cfg : Config) (idCounter : UInt64) :
    Invariant (.initial workers cfg idCounter) where
  guarded := .zero
  owned := .initial idCounter
  opened c h := by cases h

theorem holds_queuedJobs {tasks : List Task} : ∀ j ∈ queuedJobs c tasks, j.holds = none := by
  intro j hj
  obtain ⟨task, -, rfl⟩ := mem_map.mp hj
  rfl

theorem owned_of_effect (h : Invariant s) (heffect : Effect (s.connState c) st) :
    Owned (wsSession ∘ Function.update s.conns c st) st.shared
      (queuedJobs c st.tasks + s.jobs) := by
  rw [comp_update]
  have hsame (hws : wsSession st = wsSession (s.conns c)) :
      Function.update (wsSession ∘ s.conns) c (wsSession st) = wsSession ∘ s.conns := by
    rw [hws]
    exact update_eq_self c (wsSession ∘ s.conns)
  have hold : Owned (wsSession ∘ s.conns) s.shared (queuedJobs c [] + s.jobs) := by
    simpa [queuedJobs] using h.owned
  cases heffect with
  | quiet htype hsession hshared htasks =>
    have hws : wsSession st = wsSession (s.conns c) := by
      rw [wsSession, wsSession, htype, hsession]
      rfl
    rwa [hsame hws, hshared, htasks]
  | upgrade htype hinit hsession hshared htasks =>
    have hnew : wsSession st = some s.shared.created := (wsSession_of_ws htype).trans hsession
    have hnone : wsSession (s.conns c) = none := wsSession_of_type hinit (by decide)
    rw [hnew, hshared, htasks]
    exact hold.upgrade hnone
  | stream htype hinit hshared htasks =>
    have hnone : wsSession (s.conns c) = none := wsSession_of_type hinit (by decide)
    have hws : wsSession st = wsSession (s.conns c) :=
      (wsSession_of_type htype (by decide)).trans hnone.symm
    rwa [hsame hws, hshared, htasks]
  | request htype hinit hshared entry hentry body htasks =>
    have hnone : wsSession (s.conns c) = none := wsSession_of_type hinit (by decide)
    have hws : wsSession st = wsSession (s.conns c) :=
      (wsSession_of_type htype (by decide)).trans hnone.symm
    rw [hsame hws, htasks]
    have hlist : Owned (wsSession ∘ s.conns) st.shared s.jobs := by
      rcases hshared with heq | heq
      · rw [heq]
        exact h.owned
      · rw [heq]
        exact h.owned.create
    exact hlist.add_request hentry c body
  | messages htype hws hsession hshared payloads htasks =>
    obtain ⟨n, hn⟩ := h.opened c hws
    have hwsc : wsSession (s.conns c) = some n := (wsSession_of_ws hws).trans hn
    have hsame' : wsSession st = wsSession (s.conns c) :=
      ((wsSession_of_ws htype).trans (hsession.trans hn)).trans hwsc.symm
    rw [hsame hsame', hshared, htasks]
    exact h.owned.add_messages hn hwsc payloads

theorem opened_of_effect {st' : State} (heffect : Effect st st')
    (h : st.conn.type = .ws → ∃ n, st.conn.session = some n) (hws : st'.conn.type = .ws) :
    ∃ n, st'.conn.session = some n := by
  cases heffect with
  | quiet htype hsession _ _ =>
    rw [hsession]
    exact h (htype.symm.trans hws)
  | upgrade _ _ hsession _ _ => exact ⟨_, hsession⟩
  | stream htype _ _ _ | request htype _ _ _ _ _ _ =>
    exact absurd (htype.symm.trans hws) (by decide)
  | messages _ hws₀ hsession _ _ _ =>
    rw [hsession]
    exact h hws₀

theorem Invariant.stepIo (h : Invariant s) (c : Nat) (ev : Io) :
    Invariant (s.stepIo c ev) where
  guarded := h.guarded.add holds_queuedJobs
  owned := owned_of_effect h (effect_onIo (s.connState c) ev)
  opened c' hws := by
    by_cases hc : c' = c
    · subst hc
      have heffect := effect_onIo (s.connState c') ev
      simp only [Serving.stepIo, update_self] at hws ⊢
      exact opened_of_effect heffect (h.opened c') hws
    · simp only [Serving.stepIo, update_of_ne hc] at hws ⊢
      exact h.opened c' hws

variable {job : Job}

theorem guarded_stepWork [Libc] (hmem : job ∈ s.jobs) (h : Mutex.Guarded Job.holds s.locks s.jobs)
    (answer : Option Bytes) :
    Mutex.Guarded Job.holds (s.stepWork job answer).locks (s.stepWork job answer).jobs := by
  have hjob := h
  rw [← Multiset.cons_erase hmem] at hjob
  have hlock (phase : Phase) : Job.lock { job with phase := phase } = job.lock := rfl
  rw [Serving.stepWork]
  cases hphase : job.phase with
  | queued =>
    dsimp only
    split
    · exact hjob.replace (by simp [Job.holds, hphase])
    · exact h
  | starting =>
    have hnone : job.holds = none := by simp [Job.holds, hphase]
    dsimp only
    split
    next hfree => exact hjob.replace (by simp [Job.holds, hphase, hlock, hfree])
    next lock hneeds =>
      split
      · exact h
      next hfree =>
        have hholds : Job.holds { job with phase := .entered } = some lock := hneeds
        exact hjob.acquire hnone (by simpa using hfree) hholds
  | entered =>
    apply hjob.replace
    split <;> simp [Job.holds, hphase, hlock]
  | calling => exact hjob.replace (by simp [Job.holds, hphase, hlock])
  | called =>
    dsimp only
    split
    next hfree => exact hjob.replace (by simp [Job.holds, hphase, hfree])
    next lock hneeds =>
      have hholds : job.holds = some lock := by simp [Job.holds, hphase, hneeds]
      exact hjob.release hholds rfl
  | unlocked =>
    have hrest := hjob.of_cons (by simp [Job.holds, hphase])
    cases answer <;> exact hrest

theorem conns_stepWork [Libc] (s : Serving) (job : Job) (answer : Option Bytes) (c : Nat) :
    ((s.stepWork job answer).conns c).conn = (s.conns c).conn := by
  rw [Serving.stepWork]
  cases job.phase with
  | queued | called =>
    dsimp only
    split <;> rfl
  | starting =>
    dsimp only
    split
    · rfl
    · split <;> rfl
  | entered | calling => rfl
  | unlocked =>
    cases answer with
    | none => rfl
    | some data =>
      by_cases hc : c = job.conn
      · subst hc
        simp only [update_self]
        rfl
      · simp only [update_of_ne hc]

theorem Invariant.stepWork [Libc] (h : Invariant s) (hmem : job ∈ s.jobs) (answer : Option Bytes) :
    Invariant (s.stepWork job answer) := by
  have hshared := (s.stepWork_cases job answer).2.1
  have hws : wsSession ∘ (s.stepWork job answer).conns = wsSession ∘ s.conns := by
    funext c
    rw [comp_apply, comp_apply, wsSession, wsSession, conns_stepWork]
  refine ⟨guarded_stepWork hmem h.guarded answer, ?_, ?_⟩
  · rw [hws, hshared]
    apply h.owned.of_jobs
    intro j' hj'
    exact Serving.exists_of_mem_stepWork hmem hj'
  · intro c
    rw [conns_stepWork]
    exact h.opened c

theorem Invariant.step [Libc] (h : Invariant s) (act : Action) : Invariant (s.step act) := by
  cases act with
  | io c ev => exact h.stepIo c ev
  | reap expired => exact ⟨h.guarded, h.owned.reap _, h.opened⟩
  | work job answer =>
    rw [Serving.step]
    split
    next hmem => exact h.stepWork hmem answer
    next => exact h

namespace Serving

def unfinished (s : Serving) (c : Nat) : Nat :=
  s.jobs.countP fun job => job.task.isWs = true ∧ job.conn = c

theorem countP_advance {jobs : Multiset Job} (hmem : job ∈ jobs) (job' : Job) (p : Job → Prop)
    [DecidablePred p] :
    (job' ::ₘ jobs.erase job).countP p + (if p job then 1 else 0) =
      jobs.countP p + if p job' then 1 else 0 := by
  have hjobs := Multiset.countP_cons p job (jobs.erase job)
  rw [Multiset.cons_erase hmem] at hjobs
  rw [Multiset.countP_cons, hjobs]
  omega

theorem workers_step [Libc] (s : Serving) (act : Action) : (s.step act).workers = s.workers := by
  cases act with
  | io c ev | reap expired => rfl
  | work job answer =>
    rw [step]
    split
    · exact (s.stepWork_cases job answer).1
    · rfl

theorem busy_step_le [Libc] (h : s.busy ≤ s.workers) (act : Action) :
    (s.step act).busy ≤ (s.step act).workers := by
  cases act with
  | io c ev =>
    have hnew : (queuedJobs c (onIo (s.connState c) ev).tasks).countP
        (fun job => job.phase ≠ .queued) = 0 := by
      rw [Multiset.countP_eq_zero]
      intro job hjob
      obtain ⟨task, -, rfl⟩ := mem_map.mp hjob
      simp
    rw [step, stepIo, busy]
    dsimp only
    rwa [Multiset.countP_add, hnew, zero_add]
  | reap expired => exact h
  | work job answer =>
    rw [step]
    split
    next hmem =>
      obtain ⟨hworkers, -, hjobs | ⟨phase, hne, hfree, -, hjobs⟩ | ⟨-, hjobs⟩⟩ :=
        s.stepWork_cases job answer
      · rwa [busy, hworkers, hjobs]
      · have hcount := countP_advance hmem { job with phase := phase }
          (fun job => job.phase ≠ .queued)
        rw [if_pos hne] at hcount
        rw [busy, hworkers, hjobs]
        by_cases hqueued : job.phase = .queued
        · have hlt := hfree hqueued
          rw [if_neg (not_not_intro hqueued)] at hcount
          rw [busy] at hlt
          omega
        · rw [if_pos hqueued] at hcount
          rw [busy] at h
          omega
      · rw [busy, hworkers, hjobs]
        exact le_trans (Multiset.countP_le_of_le _ (Multiset.erase_le job s.jobs)) h
    next => exact h

end Serving

/-- Each WebSocket connection has at most one unfinished message. -/
def Serial (s : Serving) : Prop := ∀ c, s.unfinished c ≤ 1

/-- A read of a WebSocket connection completes at most one message, and none before the last one
is dealt with. -/
def OneAtATime (s : Serving) : Action → Prop
  | .io c (.read chunk) => (s.conns c).conn.type = .ws →
      s.unfinished c + messagesIn ((s.conns c).conn.readBuf ++ chunk) ≤ 1
  | _ => True

instance decidableOneAtATime (s : Serving) : (act : Action) → Decidable (OneAtATime s act)
  | .io c (.read chunk) => inferInstanceAs (Decidable ((s.conns c).conn.type = .ws →
      s.unfinished c + messagesIn ((s.conns c).conn.readBuf ++ chunk) ≤ 1))
  | .io _ (.write _) => isTrue trivial
  | .io _ .fail => isTrue trivial
  | .io _ .drain => isTrue trivial
  | .reap _ => isTrue trivial
  | .work _ _ => isTrue trivial

theorem ws_of_effect {st' : State} (h : Effect st st') (hnone : st.tasks = []) {task : Task}
    (htask : task ∈ st'.tasks) (hisWs : task.isWs = true) : st.conn.type = .ws := by
  obtain hnil | ⟨e, -, body, hrequest⟩ | ⟨hws, -⟩ := tasks_of_effect h hnone
  · rw [hnil] at htask
    cases htask
  · rw [hrequest] at htask
    rw [mem_singleton.mp htask] at hisWs
    cases hisWs
  · exact hws

theorem unfinished_stepIo (s : Serving) (c c' : Nat) (ev : Io) :
    (s.stepIo c ev).unfinished c' =
      (queuedJobs c (onIo (s.connState c) ev).tasks).countP
        (fun job => job.task.isWs = true ∧ job.conn = c') + s.unfinished c' :=
  Multiset.countP_add _ _ _

theorem Serial.stepIo (h : Serial s) {ev : Io} (hok : OneAtATime s (.io c ev)) :
    Serial (s.stepIo c ev) := by
  intro c'
  rw [unfinished_stepIo]
  by_cases hnone : (queuedJobs c (onIo (s.connState c) ev).tasks).countP
      (fun job => job.task.isWs = true ∧ job.conn = c') = 0
  · rw [hnone, zero_add]
    exact h c'
  -- there is a message, so this is the connection and it is a WebSocket
  obtain ⟨job, hjob, hisWs, hconn⟩ := Multiset.countP_pos.mp (pos_of_ne_zero hnone)
  obtain ⟨task, htask, rfl⟩ := mem_map.mp hjob
  have hws : (s.connState c).conn.type = .ws :=
    ws_of_effect (effect_onIo (s.connState c) ev) rfl htask hisWs
  subst hconn
  have hnew := @length_tasks_onIo (s.connState c) hws rfl ev
  have hcount : (queuedJobs c (onIo (s.connState c) ev).tasks).countP
      (fun job => job.task.isWs = true ∧ job.conn = c) ≤
        (onIo (s.connState c) ev).tasks.length := by
    refine le_trans (Multiset.countP_le_card _ _) (le_of_eq ?_)
    exact length_map _
  cases ev with
  | read chunk =>
    have hone := hok hws
    have hmessages : newMessages (s.connState c) (.read chunk) =
        messagesIn ((s.conns c).conn.readBuf ++ chunk) := rfl
    dsimp only
    omega
  | write n | fail | drain => exact absurd (le_zero.mp (le_trans hcount hnew)) hnone

theorem Serial.step [Libc] (h : Serial s) {act : Action} (hok : OneAtATime s act) :
    Serial (s.step act) := by
  intro c'
  cases act with
  | io c ev => exact h.stepIo hok c'
  | reap expired => exact h c'
  | work job answer =>
    rw [Serving.step]
    split
    next hmem =>
      obtain ⟨-, -, hjobs | ⟨phase, -, -, -, hjobs⟩ | ⟨-, hjobs⟩⟩ := s.stepWork_cases job answer
      · rw [Serving.unfinished, hjobs]
        exact h c'
      · have hcount := Serving.countP_advance hmem { job with phase := phase }
          (fun job => job.task.isWs = true ∧ job.conn = c')
        rw [Serving.unfinished, hjobs, add_right_cancel hcount]
        exact h c'
      · rw [Serving.unfinished, hjobs]
        exact le_trans (Multiset.countP_le_of_le _ (Multiset.erase_le job s.jobs)) (h c')
    next => exact h c'

/-- Of the calls on a session no two are in progress. -/
def Exclusive (s : Serving) : Prop :=
  ∀ n, (s.jobs.countP fun job => job.phase = .calling ∧ job.task.session = some n) ≤ 1

theorem Invariant.exclusive (h : Invariant s) (hserial : Serial s) : Exclusive s := by
  intro n
  by_cases hws : ∃ c, (wsSession ∘ s.conns) c = some n
  · -- the session of a WebSocket: its messages
    obtain ⟨c, hc⟩ := hws
    refine le_trans (Mutex.countP_le_countP ?_) (hserial c)
    rintro job hjob ⟨-, hsession⟩
    by_cases hisWs : job.task.isWs = true
    · obtain ⟨m, hm, hconn⟩ := h.owned.message job hjob hisWs
      rw [hsession] at hm
      cases hm
      exact ⟨hisWs, h.owned.distinct _ _ n hconn hc⟩
    obtain ⟨m, hm, hapart⟩ := h.owned.request job hjob (by simpa using hisWs)
    rw [hsession] at hm
    cases hm
    exact absurd hc (hapart.2 c)
  · -- the session of an entry: requests that hold its lock
    refine Mutex.Guarded.exclusive (k := n) h.guarded ?_
    rintro job hjob ⟨hcalling, hsession⟩
    have hrequest : ¬ job.task.isWs = true := by
      intro hisWs
      obtain ⟨m, hm, hconn⟩ := h.owned.message job hjob hisWs
      rw [hsession] at hm
      cases hm
      exact hws ⟨job.conn, hconn⟩
    simp [Job.holds, Job.lock, hcalling, hrequest, hsession]

theorem exclusive_of_busy (hbusy : s.busy ≤ s.workers) (hone : s.workers ≤ 1) : Exclusive s := by
  intro n
  refine le_trans (Mutex.countP_le_countP ?_) (le_trans hbusy hone)
  rintro job - ⟨hcalling, -⟩
  rw [hcalling]
  decide

/-- If the pool has one worker, or the clients of WebSockets wait with a message until the previous
one has been dealt with, no two calls on a session are ever in progress. -/
theorem exclusive_exec [Libc] (workers : Nat) (cfg : Config) (idCounter : UInt64)
    (acts : List Action)
    (hok : workers ≤ 1 ∨
      Admissible Serving.machine OneAtATime (.initial workers cfg idCounter) acts) :
    ∀ before after, acts = before ++ after →
      Exclusive (exec Serving.machine (.initial workers cfg idCounter) before) := by
  rintro before after rfl
  rcases hok with hone | hadmissible
  · have hworkers : (exec Serving.machine (.initial workers cfg idCounter) before).busy ≤
        (exec Serving.machine (.initial workers cfg idCounter) before).workers ∧
          (exec Serving.machine (.initial workers cfg idCounter) before).workers ≤ 1 := by
      refine exec_invariant (I := fun s : Serving => s.busy ≤ s.workers ∧ s.workers ≤ 1)
        ?_ ⟨zero_le _, hone⟩ before
      intro s act h
      exact ⟨s.busy_step_le h.1 act, (s.workers_step act).symm ▸ h.2⟩
    exact exclusive_of_busy hworkers.1 hworkers.2
  have hinvariant : Invariant (exec Serving.machine (.initial workers cfg idCounter) before) ∧
      Serial (exec Serving.machine (.initial workers cfg idCounter) before) := by
    refine exec_invariant_of_admissible (I := fun s => Invariant s ∧ Serial s) ?_
      ⟨.initial workers cfg idCounter, fun _ => zero_le _⟩
      ((admissible_append Serving.machine).mp hadmissible).1
    intro s act hok h
    exact ⟨h.1.step act, h.2.step hok⟩
  exact hinvariant.1.exclusive hinvariant.2

/-! A WebSocket connection with two messages. -/

def upgradeRequest : Bytes :=
  text "GET / HTTP/1.1" ++ crlf ++ text "Upgrade: websocket" ++ crlf ++
    text "Sec-WebSocket-Key: dGhlIHNhbXBsZSBub25jZQ==" ++ crlfCrlf

def firstPing : Bytes := "\x7b\"jsonrpc\":\"2.0\",\"id\":1,\"method\":\"ping\"\x7d"

def secondPing : Bytes := "\x7b\"jsonrpc\":\"2.0\",\"id\":2,\"method\":\"ping\"\x7d"

def textFrame (payload : Bytes) : Bytes :=
  mcpWsEncodeFrame ⟨true, .text, false, [0, 0, 0, 0], payload⟩

def pingJob (payload : Bytes) (phase : Phase) : Job := ⟨0, ⟨some 0, payload, true, []⟩, phase⟩

def callPing (payload : Bytes) : List Action :=
  [.work (pingJob payload .queued) none, .work (pingJob payload .starting) none,
    .work (pingJob payload .entered) none]

def finishPing (payload : Bytes) : List Action :=
  [.work (pingJob payload .calling) none, .work (pingJob payload .called) none,
    .work (pingJob payload .unlocked) (some (textFrame "\x7b\x7d"))]

def alternatingPings : List Action :=
  [.io 0 (.read upgradeRequest), .io 0 (.read (textFrame firstPing))] ++ callPing firstPing ++
    finishPing firstPing ++ [.io 0 (.read (textFrame secondPing))] ++ callPing secondPing

theorem exclusive_alternatingPings :
    Exclusive (exec (@Serving.machine unitLibc) (.initial 2 ⟨true, true⟩ 1000)
      alternatingPings) := by
  have hok : Admissible (@Serving.machine unitLibc) OneAtATime
      (.initial 2 ⟨true, true⟩ 1000) alternatingPings := by
    decide +kernel
  exact @exclusive_exec unitLibc 2 ⟨true, true⟩ 1000 alternatingPings (.inr hok) alternatingPings []
    (append_nil _).symm

/-- Both messages arrive in one read, and two workers take them up. -/
def concurrentPings : List Action :=
  [.io 0 (.read upgradeRequest), .io 0 (.read (textFrame firstPing ++ textFrame secondPing))] ++
    callPing firstPing ++ callPing secondPing

/-- Two calls on the session of the connection are in progress. -/
theorem not_exclusive_concurrentPings :
    ¬Exclusive (exec (@Serving.machine unitLibc) (.initial 2 ⟨true, true⟩ 1000)
      concurrentPings) := by
  intro h
  have htwo : ((exec (@Serving.machine unitLibc) (.initial 2 ⟨true, true⟩ 1000)
      concurrentPings).jobs.countP
        fun job => job.phase = .calling ∧ job.task.session = some 0) = 2 := by
    decide +kernel
  have hone := h 0
  omega

end Mcpkit.Transport.Async.Dispatching
