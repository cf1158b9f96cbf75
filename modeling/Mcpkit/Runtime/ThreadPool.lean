import Mathlib.Data.List.Nodup
import Mathlib.Data.List.Range
import Mcpkit.Lib.Machine

/-!
# The thread pool

A fixed number of workers take tasks from a list behind one lock.  Threads submit tasks or wait
until all are done, and one destroys the pool.  Each section that holds the lock is one step, so a
run is any interleaving; a thread that waits on a condition may wake up at any moment.  A task runs
from the section in which a worker takes it to the section in which that worker has come back from
it.  A run notes the tasks whose submit has returned, and what becomes of each worker.
-/

namespace Mcpkit.Runtime.ThreadPool

open List Machine Nat Function

/-- `task_node_t`, with a number for its address. -/
structure Task (T : Type) where
  serial : Nat
  body : T
deriving DecidableEq

inductive Worker (T : Type) where
  /-- About to take the lock at the top of the loop. -/
  | ready
  /-- In `cnd_wait` on `avail`. -/
  | asleep
  /-- Between the two sections, running a task. -/
  | running (n : Task T)
  | exited
deriving DecidableEq

/-- Where a thread stands in `pool_wait`. -/
inductive Waiter where
  | outside
  | checking
  /-- In `cnd_wait` on `drained`. -/
  | asleep
deriving DecidableEq

/-- `pool_t`, and where the threads stand. -/
structure Pool (T : Type) where
  queue : List (Task T)
  tail : Option (Task T)
  workers : List (Worker T)
  waiters : Nat → Waiter
  pending : Nat
  active : Nat
  stop : Bool

/-- A pool and what has been seen of its tasks, which `step` alone writes. -/
structure State (T : Type) extends Pool T where
  submitted : List (Task T)
  started : List (Task T)
  finished : List (Task T)

variable {T : Type}

def mcpThreadpoolCreate (threadCount : Nat) : State T where
  queue := []
  tail := none
  workers := List.replicate threadCount .ready
  waiters := fun _ => .outside
  pending := 0
  active := 0
  stop := false
  submitted := []
  started := []
  finished := []

def Worker.wake : Worker T → Worker T
  | .asleep => .ready
  | w => w

def Waiter.wake : Waiter → Waiter
  | .asleep => .checking
  | w => w

/-- The locked section of `pool_submit`.  The signal wakes one worker. -/
def poolSubmit (s : Pool T) (n : Task T) (woken : Nat) : Pool T :=
  { s with
    -- The chain that starts at the head ends at the tail.
    queue := if s.tail.isNone then [n] else s.queue ++ [n]
    tail := some n
    pending := s.pending + 1
    workers := s.workers.modify woken Worker.wake }

/-- The first locked section of a turn of `pool_worker`. -/
def workerTake (s : Pool T) (i : Nat) : Pool T :=
  if !s.stop && s.queue.isEmpty then { s with workers := s.workers.set i .asleep }
  else
    match s.queue with
    | [] => { s with workers := s.workers.set i .exited }
    | n :: rest =>
      { s with
        queue := rest
        tail := if rest.isEmpty then none else s.tail
        pending := s.pending - 1
        active := s.active + 1
        workers := s.workers.set i (.running n) }

/-- The second locked section, after the task. -/
def workerComplete (s : Pool T) (i : Nat) : Pool T :=
  let s := { s with active := s.active - 1, workers := s.workers.set i .ready }
  if s.pending = 0 ∧ s.active = 0 then { s with waiters := fun w => (s.waiters w).wake } else s

/-- The next locked section of a worker, if it has one. -/
def poolWorker (s : Pool T) (i : Nat) : Pool T :=
  match s.workers[i]? with
  | some .ready => workerTake s i
  | some (.running _) => workerComplete s i
  | _ => s

/-- The locked section of `pool_wait` up to the next `cnd_wait` or the end, with whether it
returns. -/
def poolWait (s : Pool T) (w : Nat) : Pool T × Bool :=
  match s.waiters w with
  | .checking =>
    if 0 < s.pending + s.active then
      ({ s with waiters := update s.waiters w .asleep }, false)
    else ({ s with waiters := update s.waiters w .outside }, true)
  | _ => (s, false)

/-- The locked section of `pool_destroy_backend`.  It joins the workers afterwards. -/
def poolDestroyBackend (s : Pool T) : Pool T :=
  { s with stop := true, workers := s.workers.map Worker.wake }

inductive Action (T : Type) where
  | submit (body : T) (woken : Nat)
  | work (i : Nat)
  | wakeWorker (i : Nat)
  | callWait (w : Nat)
  | wait (w : Nat)
  | wakeWaiter (w : Nat)
  | destroy

def Worker.task? : Worker T → Option (Task T)
  | .running n => some n
  | _ => none

/-- The task that a worker runs, if it does. -/
def Pool.taskOf (s : Pool T) (i : Nat) : Option (Task T) := s.workers[i]?.bind Worker.task?

/-- A section of a worker: the task that it runs afterwards has been started, and the one that it
ran before has come to its end. -/
def State.work (s : State T) (i : Nat) : State T where
  toPool := poolWorker s.toPool i
  submitted := s.submitted
  started := s.started ++ ((poolWorker s.toPool i).taskOf i).toList
  finished := s.finished ++ (s.taskOf i).toList

/-- A step, with whether a call of `pool_wait` returns in it. -/
def step (s : State T) : Action T → State T × Bool
  | .submit body woken =>
    let n := ⟨s.submitted.length, body⟩
    ({ s with toPool := poolSubmit s.toPool n woken, submitted := s.submitted ++ [n] }, false)
  | .work i => (s.work i, false)
  | .wakeWorker i => ({ s with workers := s.workers.modify i Worker.wake }, false)
  | .callWait w =>
    (if s.waiters w = .outside then
        { s with waiters := update s.waiters w .checking } else s, false)
  | .wait w =>
    let (pool, returns) := poolWait s.toPool w
    ({ s with toPool := pool }, returns)
  | .wakeWaiter w => ({ s with waiters := update s.waiters w (s.waiters w).wake }, false)
  | .destroy => ({ s with toPool := poolDestroyBackend s.toPool }, false)

def State.running (s : State T) : List (Task T) := s.workers.filterMap Worker.task?

structure State.WellFormed (s : State T) : Prop where
  tail : s.tail = s.queue.getLast?
  pending : s.pending = s.queue.length
  active : s.active = s.running.length
  order : s.started ++ s.queue = s.submitted
  accounted : s.started.Perm (s.finished ++ s.running)
  serials : s.submitted.map Task.serial = List.range s.submitted.length

variable {s : State T} {α β : Type}

theorem filterMap_cons_toList (f : α → Option β) (a : α) (l : List α) :
    (a :: l).filterMap f = (f a).toList ++ l.filterMap f := by
  cases h : f a <;> simp [h]

variable {i : Nat} {n : Task T} {rest : List (Task T)}

theorem filterMap_set_perm (f : α → Option β) {a b : α} {l : List α} (h : l[i]? = some a) :
    ((f a).toList ++ (l.set i b).filterMap f).Perm ((f b).toList ++ l.filterMap f) := by
  induction l generalizing i with
  | nil => simp at h
  | cons x l ih =>
    cases i with
    | zero =>
      obtain rfl : x = a := by simpa using h
      rw [set_cons_zero, filterMap_cons_toList, filterMap_cons_toList]
      exact perm_append_comm_assoc _ _ _
    | succ i =>
      have hi := (ih (by simpa using h)).append_left (f x).toList
      rw [set_cons_succ, filterMap_cons_toList, filterMap_cons_toList]
      exact (perm_append_comm_assoc _ _ _).trans
        (hi.trans (perm_append_comm_assoc _ _ _))

theorem filterMap_modify {f : α → Option β} {g : α → α} (hg : ∀ a, f (g a) = f a) (i : Nat)
    (l : List α) : (l.modify i g).filterMap f = l.filterMap f := by
  induction l generalizing i with
  | nil => simp
  | cons a l ih =>
    cases i with
    | zero => rw [modify_zero_cons, filterMap_cons_toList, filterMap_cons_toList, hg]
    | succ i => rw [modify_succ_cons, filterMap_cons_toList, filterMap_cons_toList, ih]

@[simp] theorem Worker.task?_wake (w : Worker T) : w.wake.task? = w.task? := by cases w <;> rfl

theorem exited_mem_modify {workers : List (Worker T)} (h : .exited ∈ workers.modify i Worker.wake) :
    .exited ∈ workers := by
  rw [modify_eq_set_getElem?] at h
  cases hi : workers[i]? with
  | none => simpa [hi] using h
  | some w =>
    rw [hi] at h
    obtain hmem | hwake := mem_or_eq_of_mem_set h
    · exact hmem
    · cases w with
      | exited => exact mem_of_getElem? hi
      | ready | asleep | running n => cases hwake

inductive Move (s : State T) : State T → Prop where
  /-- Threads wait, wake up or leave, and the pool may be stopped. -/
  | threads {workers : List (Worker T)} {waiters : Nat → Waiter} {stop : Bool}
      (hlength : workers.length = s.workers.length)
      (hworkers : (workers.filterMap Worker.task?).Perm s.running)
      (hexited : .exited ∈ workers → .exited ∈ s.workers ∨ s.stop = true ∧ s.queue = [])
      (hstop : s.stop = true → stop = true) :
      Move s { s with workers := workers, waiters := waiters, stop := stop }
  | submit (body : T) (woken : Nat) : Move s (step s (.submit body woken)).1
  | take {i : Nat} {n : Task T} {rest : List (Task T)} (hi : s.workers[i]? = some .ready)
      (hqueue : s.queue = n :: rest) :
      Move s
        { s with
          queue := rest
          tail := if rest.isEmpty then none else s.tail
          pending := s.pending - 1
          active := s.active + 1
          workers := s.workers.set i (.running n)
          started := s.started ++ [n] }
  | complete {i : Nat} {n : Task T} {waiters : Nat → Waiter}
      (hi : s.workers[i]? = some (.running n)) :
      Move s
        { s with
          active := s.active - 1
          workers := s.workers.set i .ready
          waiters := waiters
          finished := s.finished ++ [n] }

namespace Move

variable {s s' : State T}

theorem refl (s : State T) : Move s s := .threads rfl (.refl _) .inl id

theorem withWaiters (s : State T) (waiters : Nat → Waiter) :
    Move s { s with waiters := waiters } := .threads rfl (.refl _) .inl id

theorem work (s : State T) (i : Nat) : Move s (s.work i) := by
  cases hi : s.workers[i]? with
  | none => simpa [State.work, poolWorker, Pool.taskOf, hi] using refl s
  | some w =>
    have hnew : ∀ w', (s.workers.set i w')[i]? = some w' := fun _ =>
      getElem?_set_self (List.getElem?_eq_some_iff.mp hi).1
    have hset := fun w' => filterMap_set_perm Worker.task? (b := w') hi
    cases w with
    | asleep | exited => simpa [State.work, poolWorker, Pool.taskOf, hi, Worker.task?] using refl s
    | ready =>
      simp only [State.work, poolWorker, hi, workerTake]
      split
      · have hmove : Move s { s with workers := s.workers.set i .asleep } :=
          .threads length_set (hset .asleep) (fun h => .inl
            ((mem_or_eq_of_mem_set h).resolve_right (by simp))) id
        simpa [Pool.taskOf, hnew, hi, Worker.task?] using hmove
      rename_i hwait
      split
      · rename_i hqueue
        have hstop : s.stop = true := by simpa [hqueue] using hwait
        have hmove : Move s { s with workers := s.workers.set i .exited } :=
          .threads length_set (hset .exited) (fun _ => .inr ⟨hstop, hqueue⟩) id
        simpa [Pool.taskOf, hnew, hi, Worker.task?] using hmove
      · rename_i hqueue
        simpa [Pool.taskOf, hnew, hi, Worker.task?] using take hi hqueue
    | running n =>
      simp only [State.work, poolWorker, hi, workerComplete]
      split
      · simpa [Pool.taskOf, hnew, hi, Worker.task?] using complete hi
      · simpa [Pool.taskOf, hnew, hi, Worker.task?] using @complete _ s i n s.waiters hi

theorem of_step (s : State T) (a : Action T) : Move s (step s a).1 := by
  cases a with
  | submit body woken => exact .submit body woken
  | work i => exact work s i
  | wakeWorker i =>
    exact .threads (length_modify _ _ _) (.of_eq (filterMap_modify Worker.task?_wake _ _))
      (fun h => .inl (exited_mem_modify h)) id
  | callWait w =>
    rw [step]
    split
    · exact withWaiters s _
    · exact refl s
  | wait w =>
    rw [step, poolWait]
    cases s.waiters w with
    | outside | asleep => exact refl s
    | checking =>
      dsimp only
      split
      · exact withWaiters s _
      · exact withWaiters s _
  | wakeWaiter w => exact withWaiters s _
  | destroy =>
    refine .threads (length_map _) (.of_eq ?_) (fun h => .inl ?_) fun _ => rfl
    · rw [filterMap_map]
      exact congrArg (s.workers.filterMap ·) (funext Worker.task?_wake)
    obtain ⟨w, hw, hwake⟩ := mem_map.mp h
    cases w with
    | exited => exact hw
    | ready | asleep | running n => cases hwake

end Move

namespace State.WellFormed

variable {s : State T}

theorem create (n : Nat) : (mcpThreadpoolCreate n : State T).WellFormed := by
  have hrunning : (mcpThreadpoolCreate n : State T).running = [] := by
    rw [running, filterMap_eq_nil_iff]
    intro w hw
    rw [(mem_replicate.mp hw).2]
    rfl
  constructor
  · rfl
  · rfl
  · rw [hrunning]
    rfl
  · rfl
  · rw [hrunning]
    rfl
  · rfl

section

variable (h : s.WellFormed)
include h

theorem submit (body : T) (woken : Nat) : (step s (.submit body woken)).1.WellFormed := by
  have hqueue : (step s (.submit body woken)).1.queue =
      s.queue ++ [⟨s.submitted.length, body⟩] := by
    rw [step]
    dsimp only [poolSubmit]
    rw [h.tail]
    cases hq : s.queue <;> simp
  have hrunning : (step s (.submit body woken)).1.running = s.running :=
    filterMap_modify Worker.task?_wake _ _
  constructor
  · rw [hqueue]
    exact getLast?_concat.symm
  · rw [hqueue, length_append]
    exact congrArg (· + 1) h.pending
  · rw [hrunning]
    exact h.active
  · rw [hqueue, step, ← append_assoc]
    exact congrArg (· ++ _) h.order
  · rw [hrunning]
    exact h.accounted
  · simp [step, h.serials, range_succ]

theorem move {s' : State T} (hmove : Move s s') : s'.WellFormed := by
  cases hmove with
  | threads _ hworkers _ _ =>
    exact ⟨h.tail, h.pending, h.active.trans hworkers.length_eq.symm, h.order,
      h.accounted.trans (hworkers.symm.append_left _), h.serials⟩
  | submit body woken => exact h.submit body woken
  | @take i n rest hi hqueue =>
    have hrunning : ((s.workers.set i (.running n)).filterMap Worker.task?).Perm
        (n :: s.running) := filterMap_set_perm Worker.task? hi
    constructor
    · rw [h.tail, hqueue]
      cases rest <;> rfl
    · simp [h.pending, hqueue]
    · exact (congrArg (· + 1) h.active).trans hrunning.length_eq.symm
    · simpa [hqueue] using h.order
    · have haccounted := (h.accounted.append_right [n]).trans (.of_eq (append_assoc _ _ _))
      refine haccounted.trans (List.Perm.append_left _ ?_)
      exact (perm_append_singleton _ _).trans hrunning.symm
    · exact h.serials
  | @complete i n _ hi =>
    have hrunning : (n :: (s.workers.set i .ready).filterMap Worker.task?).Perm s.running :=
      filterMap_set_perm Worker.task? hi
    constructor
    · exact h.tail
    · exact h.pending
    · have hlength := hrunning.length_eq
      rw [← h.active, length_cons] at hlength
      exact (Nat.eq_sub_of_add_eq hlength).symm
    · exact h.order
    · refine h.accounted.trans ?_
      rw [append_assoc]
      exact hrunning.symm.append_left _
    · exact h.serials

theorem run (actions : List (Action T)) : (exec ThreadPool.step s actions).WellFormed :=
  exec_invariant (fun s a hs => hs.move (.of_step s a)) h actions

theorem submitted_nodup : s.submitted.Nodup :=
  List.Nodup.of_map Task.serial (h.serials ▸ nodup_range)

theorem started_nodup : s.started.Nodup := (h.order ▸ h.submitted_nodup).of_append_left

theorem finished_of_idle (hidle : s.pending + s.active = 0) :
    ∀ n ∈ s.submitted, n ∈ s.finished := by
  obtain ⟨hpending, hactive⟩ := Nat.add_eq_zero_iff.mp hidle
  have hqueue : s.queue = [] := eq_nil_of_length_eq_zero (h.pending ▸ hpending)
  have hrunning : s.running = [] := eq_nil_of_length_eq_zero (h.active ▸ hactive)
  intro n hn
  rw [← h.order, hqueue, append_nil] at hn
  simpa [hrunning] using h.accounted.mem_iff.mp hn

theorem finished_of_exited (hall : ∀ w ∈ s.workers, w = .exited) (hn : n ∈ s.started) :
    n ∈ s.finished := by
  have hrunning : s.running = [] := by
    rw [running, filterMap_eq_nil_iff]
    intro w hw
    rw [hall w hw]
    rfl
  simpa [hrunning] using h.accounted.mem_iff.mp hn

end

end State.WellFormed

theorem idle_of_wait_returns {w : Nat} (h : (step s (.wait w)).2 = true) :
    s.pending + s.active = 0 := by
  change (poolWait s.toPool w).2 = true at h
  rw [poolWait] at h
  split at h
  · split at h
    · cases h
    · omega
  · cases h

def Action.body? : Action T → Option T
  | .submit body _ => some body
  | _ => none

theorem body_submitted (s : State T) (actions : List (Action T)) :
    (exec step s actions).submitted.map Task.body =
      s.submitted.map Task.body ++ actions.filterMap Action.body? := by
  induction actions generalizing s with
  | nil => simp
  | cons a actions ih =>
    rw [exec_cons, ih, filterMap_cons_toList, ← append_assoc]
    congr 1
    cases a with
    | submit body woken => simp [step, Action.body?]
    | callWait w =>
      rw [step]
      split <;> exact (append_nil _).symm
    | work i | wakeWorker i | wait w | wakeWaiter w | destroy => exact (append_nil _).symm

/-- In every interleaving the counters are exact, the submitted tasks start in order and at most
once, and `pool_wait` returns only when all that were submitted before have finished. -/
theorem run_accounts (threadCount : Nat) (actions : List (Action T)) :
    let run := exec step (mcpThreadpoolCreate threadCount)
    let s := run actions
    s.pending = s.queue.length ∧ s.active = s.running.length ∧
      s.submitted.map Task.body = actions.filterMap Action.body? ∧
      s.started ++ s.queue = s.submitted ∧ s.started.Nodup ∧
      s.started.Perm (s.finished ++ s.running) ∧
      ∀ before w after, actions = before ++ .wait w :: after →
        (step (run before) (.wait w)).2 = true →
          ∀ n ∈ (run before).submitted, n ∈ (run before).finished := by
  intro run s
  have hwell : ∀ actions, (run actions).WellFormed := (State.WellFormed.create threadCount).run
  have h := hwell actions
  exact ⟨h.pending, h.active, body_submitted _ actions, h.order, h.started_nodup, h.accounted,
    fun before w after _ hreturns =>
      (hwell before).finished_of_idle (idle_of_wait_returns hreturns)⟩

namespace Move

variable {s s' : State T}

theorem submitted_grows (h : Move s s') : s.submitted <+: s'.submitted := by
  cases h with
  | submit body woken => exact prefix_append _ _
  | threads _ _ _ _ | take _ _ | complete _ => exact prefix_rfl

theorem started_grows (h : Move s s') : s.started <+: s'.started := by
  cases h with
  | take _ _ => exact prefix_append _ _
  | threads _ _ _ _ | submit body woken | complete _ => exact prefix_rfl

theorem length_workers (h : Move s s') : s'.workers.length = s.workers.length := by
  cases h with
  | threads hlength _ _ _ => exact hlength
  | submit body woken => exact length_modify _ _ _
  | take _ _ | complete _ => exact length_set

theorem exited (h : Move s s') (hexited : .exited ∈ s'.workers) :
    .exited ∈ s.workers ∨ s.stop = true ∧ s.queue = [] := by
  cases h with
  | threads _ _ hleave _ => exact hleave hexited
  | submit body woken => exact .inl (exited_mem_modify hexited)
  | take _ _ | complete _ => exact .inl ((mem_or_eq_of_mem_set hexited).resolve_right (by simp))

theorem stop (h : Move s s') (hstop : s.stop = true) : s'.stop = true := by
  cases h with
  | threads _ _ _ hstops => exact hstops hstop
  | submit body woken | take _ _ | complete _ => exact hstop

end Move

theorem stop_of_exited (threadCount : Nat) (actions : List (Action T)) :
    .exited ∈ (exec step (mcpThreadpoolCreate threadCount) actions).workers →
      (exec step (mcpThreadpoolCreate threadCount) actions).stop = true := by
  refine exec_invariant (I := fun s : State T => .exited ∈ s.workers → s.stop = true) ?_ ?_ _
  · intro s a ih hexited
    have hmove := Move.of_step s a
    obtain hold | ⟨hstop, -⟩ := hmove.exited hexited
    · exact hmove.stop (ih hold)
    · exact hmove.stop hstop
  · intro hmem
    cases (mem_replicate.mp hmem).2

/-- Once a worker has left, the tasks submitted before any had left have all been started. -/
theorem started_of_exited (hs : s.WellFormed) (hnone : .exited ∉ s.workers)
    (actions : List (Action T)) (hexited : .exited ∈ (exec step s actions).workers) :
    ∀ n ∈ s.submitted, n ∈ (exec step s actions).started := by
  let I : State T → Prop := fun t => t.WellFormed ∧ s.submitted <+: t.submitted ∧
    (.exited ∈ t.workers → ∀ n ∈ s.submitted, n ∈ t.started)
  have hstep : ∀ t a, I t → I (step t a).1 := by
    rintro t a ⟨ht, hgrown, hstarted⟩
    have hmove := Move.of_step t a
    refine ⟨ht.move hmove, hgrown.trans hmove.submitted_grows, fun hexited n hn => ?_⟩
    obtain hold | ⟨-, hqueue⟩ := hmove.exited hexited
    · exact hmove.started_grows.subset (hstarted hold n hn)
    · have horder := ht.order
      rw [hqueue, append_nil] at horder
      exact hmove.started_grows.subset (horder ▸ hgrown.subset hn)
  have hinit : I s := ⟨hs, prefix_rfl, fun h => absurd h hnone⟩
  exact (exec_invariant hstep hinit actions).2.2 hexited

theorem mem_started_of_ready (hqueue : s.queue = n :: rest) (hi : s.workers[i]? = some .ready) :
    n ∈ (s.work i).started := by
  have hnew := getElem?_set_self (List.getElem?_eq_some_iff.mp hi).1 (a := Worker.running n)
  simp [State.work, poolWorker, hi, workerTake, hqueue, Pool.taskOf, hnew, Worker.task?]

theorem work_of_running {m : Task T} (hi : s.workers[i]? = some (.running m)) :
    (s.work i).queue = s.queue ∧ (s.work i).workers = s.workers.set i .ready := by
  rw [State.work, poolWorker, hi]
  dsimp only [workerComplete]
  split <;> exact ⟨rfl, rfl⟩

/-- A worker that has not left takes the first task, also after the pool has been stopped. -/
theorem exists_run_starts (hqueue : s.queue = n :: rest) (hsome : 0 < s.workers.length)
    (hnone : .exited ∉ s.workers) : ∃ after, n ∈ (exec step s (.destroy :: after)).started := by
  obtain ⟨w, hw⟩ : ∃ w, s.workers[0]? = some w := ⟨_, getElem?_eq_getElem hsome⟩
  have hwake : (step s .destroy).1.workers[0]? = some w.wake := by
    simp [step, poolDestroyBackend, hw]
  cases w with
  | ready | asleep => exact ⟨[.work 0], mem_started_of_ready hqueue hwake⟩
  | exited => exact absurd (mem_of_getElem? hw) hnone
  | running m =>
    obtain ⟨hsame, hready⟩ := work_of_running hwake
    refine ⟨[.work 0, .work 0], mem_started_of_ready (hsame.trans hqueue) ?_⟩
    rw [step, hready]
    exact getElem?_set_self ((length_map _).symm ▸ hsome)

theorem length_workers_run (threadCount : Nat) (actions : List (Action T)) :
    (exec step (mcpThreadpoolCreate threadCount) actions).workers.length = threadCount := by
  refine exec_invariant (I := fun s : State T => s.workers.length = threadCount) ?_ ?_ _
  · intro s a ih
    exact (Move.of_step s a).length_workers.trans ih
  · exact length_replicate

/-- No task that is in the list when the pool is stopped can still run exactly if there is none;
where all workers leave, all of them have run. -/
theorem destroy_runs_none_iff (threadCount : Nat) (before : List (Action T))
    (hstop : (exec step (mcpThreadpoolCreate (threadCount + 1)) before).stop = false) :
    let s := exec step (mcpThreadpoolCreate (threadCount + 1)) before
    ((∀ after, ∀ n ∈ s.queue, n ∉ (exec step s (.destroy :: after)).started) ↔
      s.queue = []) ∧
      ∀ after, (∀ w ∈ (exec step s (.destroy :: after)).workers, w = .exited) →
        ∀ n ∈ s.queue, n ∈ (exec step s (.destroy :: after)).finished := by
  intro s
  have hwell : s.WellFormed := (State.WellFormed.create _).run before
  have hlength : s.workers.length = threadCount + 1 := length_workers_run _ before
  have hnone : .exited ∉ s.workers := fun hmem =>
    Bool.false_ne_true (hstop.symm.trans (stop_of_exited _ before hmem))
  refine ⟨⟨fun hnever => ?_, fun hempty => by simp [hempty]⟩, fun after hall n hn => ?_⟩
  · cases hqueue : s.queue with
    | nil => rfl
    | cons n rest =>
      obtain ⟨after, hafter⟩ := exists_run_starts hqueue (hlength ▸ succ_pos _) hnone
      exact absurd hafter (hnever after n (hqueue ▸ mem_cons_self))
  have hexec := exec_append step (mcpThreadpoolCreate (threadCount + 1)) before
    (.destroy :: after)
  have hpositive : 0 < (exec step s (.destroy :: after)).workers.length := by
    rw [← hexec, length_workers_run]
    exact succ_pos _
  obtain ⟨w, hw⟩ := exists_mem_of_length_pos hpositive
  have hexited : .exited ∈ (exec step s (.destroy :: after)).workers := hall w hw ▸ hw
  have hsubmitted : n ∈ s.submitted := hwell.order ▸ mem_append_right _ hn
  exact (hwell.run _).finished_of_exited hall
    (started_of_exited hwell hnone (.destroy :: after) hexited n hsubmitted)

/-- One worker is running a task while a second one is in the list. -/
def busy : List (Action Unit) := [.submit () 0, .work 0, .submit () 0]

theorem not_destroy_runs_none_busy :
    (exec step (mcpThreadpoolCreate 1) busy).stop = false ∧
      ¬∀ after, ∀ n ∈ (exec step (mcpThreadpoolCreate 1) busy).queue,
        n ∉ (exec step (exec step (mcpThreadpoolCreate 1) busy)
          (.destroy :: after)).started :=
  ⟨rfl, fun h => cons_ne_nil _ _ ((destroy_runs_none_iff 0 busy rfl).1.mp h)⟩

/-- The worker comes back from its task and takes the second one, although the pool has been
stopped in between. -/
theorem destroy_runs_waiting_task :
    ⟨1, ()⟩ ∈ (exec step (mcpThreadpoolCreate 1) busy).queue ∧
      ⟨1, ()⟩ ∈ (exec step (exec step (mcpThreadpoolCreate 1) busy)
        [.destroy, .work 0, .work 0, .work 0]).finished := by
  decide

end Mcpkit.Runtime.ThreadPool
