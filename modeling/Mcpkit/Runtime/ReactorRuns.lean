import Mcpkit.Runtime.ReactorTables

/-!
# Runs of the reactor

The log of a reactor says which descriptors are registered, and during a step which reported events
are still to be looked at.  In every program the table holds exactly the registered entries,
whatever the callbacks of a step do to it.
-/

namespace Mcpkit.Runtime.Reactor

open List Block EventLog

variable {C U : Type}

/-- The entries that the calls so far have left registered, sorted by descriptor. -/
def registered (log : List (Event C U)) : List (Entry C U) := replay registeredStep [] log

/-- What an event does to the reported descriptors.  When the callback of one of them is run, those
before it have been looked at. -/
def waitingStep (waiting : List Int) : Event C U → List Int
  | .collected ready => ready
  | .called e _ => (waiting.dropWhile fun fd => fd ≠ e.fd).tail
  | .stepped _ => []
  | _ => waiting

/-- The descriptors that the wait of the step has reported and the step has not looked at yet. -/
def waiting (log : List (Event C U)) : List Int := replay waitingStep [] log

/-- What an event has to be, after a log. -/
def EventOk (backend : Backend) (log : List (Event C U)) : Event C U → Prop
  | .added e => (∀ x ∈ registered log, x.fd ≠ e.fd) ∧ e.generation = log.length
  | .modified fd _ => ∃ e ∈ registered log, e.fd = fd
  | .removed fd => ∃ e ∈ registered log, e.fd = fd
  | .failed status => status ≠ .ok
  | .collected ready =>
    backend = .poll → ready.Nodup ∧ ∀ fd ∈ ready, ∃ e ∈ registered log, e.fd = fd
  | .called e mask =>
    e ∈ registered log ∧ mask ≠ 0 ∧ mask &&& e.events = mask ∧ e.fd ∈ waiting log
  | .stepped _ => True

variable {event : Event C U} {log before : List (Event C U)} {l : List (Entry C U)}
  {e : Entry C U} {backend : Backend}

@[simp] theorem registered_snoc :
    registered (log ++ [event]) = registeredStep (registered log) event :=
  replay_snoc

@[simp] theorem waiting_snoc : waiting (log ++ [event]) = waitingStep (waiting log) event :=
  replay_snoc

/-- The descriptor has been added and not been removed since. -/
def AddedNotRemoved (log : List (Event C U)) (fd : Int) : Prop :=
  ∃ before e after, log = before ++ .added e :: after ∧ e.fd = fd ∧ .removed fd ∉ after

variable {fd : Int} {after : List (Event C U)}

theorem addedNotRemoved_snoc :
    AddedNotRemoved (log ++ [event]) fd ↔
      (∃ e, event = .added e ∧ e.fd = fd) ∨ AddedNotRemoved log fd ∧ event ≠ .removed fd := by
  constructor
  · rintro ⟨before, e, after, heq, hfd, hnot⟩
    obtain rfl | ⟨after, last, rfl⟩ := eq_nil_or_concat' after
    · obtain ⟨-, hlast⟩ := append_inj' heq rfl
      exact .inl ⟨e, (List.cons.inj hlast).1, hfd⟩
    rw [← cons_append, ← append_assoc] at heq
    obtain ⟨hinit, hlast⟩ := append_inj' heq rfl
    obtain rfl := (List.cons.inj hlast).1
    refine .inr ⟨⟨before, e, after, hinit, hfd, fun h => hnot (mem_append_left _ h)⟩, ?_⟩
    rintro rfl
    simp at hnot
  · rintro (⟨e, rfl, hfd⟩ | ⟨⟨before, e, after, rfl, hfd, hnot⟩, hne⟩)
    · exact ⟨log, e, [], rfl, hfd, by simp⟩
    refine ⟨before, e, after ++ [event], by simp, hfd, fun hmem => ?_⟩
    obtain hmem | hmem := mem_append.mp hmem
    · exact hnot hmem
    · exact hne (mem_singleton.mp hmem).symm

theorem exists_registered_iff (log : List (Event C U)) (fd : Int) :
    (∃ e ∈ registered log, e.fd = fd) ↔ AddedNotRemoved log fd := by
  induction log using List.reverseRecOn with
  | nil => simp [registered, AddedNotRemoved]
  | append_singleton log event ih =>
    rw [registered_snoc, addedNotRemoved_snoc, ← ih]
    cases event with
    | added e => simp [registeredStep, mem_orderedInsert, or_and_right, exists_or]
    | modified fd' events =>
      have hfd : ∀ e : Entry C U,
          (if e.fd = fd' then { e with events := events } else e).fd = e.fd := by
        intro e
        split <;> rfl
      simp [registeredStep, hfd]
    | removed fd' =>
      simp only [registeredStep, mem_filter, decide_eq_true_eq, reduceCtorEq, false_and,
        exists_false, false_or, ne_eq, Event.removed.injEq]
      constructor
      · rintro ⟨e, ⟨he, hne⟩, rfl⟩
        exact ⟨⟨e, he, rfl⟩, Ne.symm hne⟩
      · rintro ⟨⟨e, he, rfl⟩, hne⟩
        exact ⟨e, ⟨he, Ne.symm hne⟩, rfl⟩
    | failed status | collected ready | called e mask | stepped status => simp [registeredStep]

/-- The descriptor that a callback is run for. -/
def Event.calledFd : Event C U → List Int
  | .called e _ => [e.fd]
  | _ => []

def Event.isCollected : Event C U → Bool
  | .collected _ => true
  | _ => false

theorem waitingStep_sublist (hok : EventOk backend log event) (hnone : event.isCollected = false) :
    (event.calledFd ++ waitingStep (waiting log) event).Sublist (waiting log) := by
  cases event with
  | added e | modified fd events | removed fd | failed status => exact .refl _
  | collected ready => cases hnone
  | stepped status => exact nil_sublist _
  | called e mask =>
    obtain ⟨seen, rest, hsplit, hnot⟩ := eq_append_cons_of_mem hok.2.2.2
    have hdrop : (waiting log).dropWhile (fun fd => fd ≠ e.fd) = e.fd :: rest := by
      have hseen : ∀ fd ∈ seen, (decide (fd ≠ e.fd)) = true := fun fd hfd =>
        decide_eq_true fun heq => hnot (heq ▸ hfd)
      rw [hsplit, dropWhile_append_of_pos hseen]
      simp
    rw [waitingStep, hdrop, hsplit]
    exact sublist_append_right _ _

/-- Up to the next wait, callbacks are run only for descriptors that are still to be looked at, in
order and for each at most once. -/
theorem waiting_append_sublist (hsound : Sound (EventOk backend) (log ++ after))
    (hnone : ∀ event ∈ after, event.isCollected = false) :
    (after.flatMap Event.calledFd ++ waiting (log ++ after)).Sublist (waiting log) := by
  induction after using List.reverseRecOn with
  | nil => simp
  | append_singleton after event ih =>
    rw [← append_assoc] at hsound ⊢
    obtain ⟨hsound, hok⟩ := sound_snoc.mp hsound
    have hsub := ih hsound fun event hevent => hnone event (mem_append_left _ hevent)
    rw [waiting_snoc, flatMap_append, flatMap_singleton, append_assoc]
    exact ((waitingStep_sublist hok (hnone event (by simp))).append_left _).trans hsub

/-- The table holds the registered entries, and the log is as it has to be. -/
structure Run.WellFormed (backend : Backend) (r : Run C U) : Prop where
  represents : r.state.Represents backend (registered r.log)
  sound : Sound (EventOk backend) r.log

/-- What the calls of a callback leave alone. -/
structure Within (r r' : Run C U) : Prop where
  waiting : waiting r'.log = waiting r.log
  kept : Kept r.state r'.state

namespace Run.WellFormed

variable {r : Run C U}

theorem create (wakeupFd wakeupWriteFd : Int) :
    Run.WellFormed backend (⟨mcpReactorCreate wakeupFd wakeupWriteFd, []⟩ : Run C U) :=
  ⟨.create wakeupFd wakeupWriteFd, sound_nil⟩

theorem record (h : r.WellFormed backend) (hok : EventOk backend r.log event)
    (hsame : registeredStep (registered r.log) event = registered r.log) :
    Run.WellFormed backend (r.record event) := by
  refine ⟨?_, sound_snoc.mpr ⟨h.sound, hok⟩⟩
  rw [Logged.record, registered_snoc, hsame]
  exact h.represents

theorem perform (h : r.WellFormed backend) (c : Call C U) :
    ∃ r', perform backend r c = some r' ∧ r'.WellFormed backend ∧ Within r r' := by
  obtain ⟨res, hcall, houtcome⟩ := h.represents.call r.log.length c
  have hperform : Reactor.perform backend r c =
      some ⟨res.1, r.log ++ [c.event r.log.length res.2]⟩ := by
    rw [Reactor.perform, hcall]
    rfl
  obtain ⟨hkept, hrep, hok, hwaiting⟩ : Kept r.state res.1 ∧
      res.1.Represents backend (registeredStep (registered r.log) (c.event r.log.length res.2)) ∧
      EventOk backend r.log (c.event r.log.length res.2) ∧
      ∀ w, waitingStep w (c.event r.log.length res.2) = w := by
    cases houtcome with
    | @failed state status hstatus hkept hrep =>
      rw [Call.event, if_neg hstatus]
      exact ⟨hkept, hrep, hstatus, fun _ => rfl⟩
    | @done state event heffect hkept happlies hrep =>
      rw [Call.event, if_pos rfl, heffect, Option.getD_some]
      refine ⟨hkept, hrep, ?_⟩
      cases c with
      | add fd events cb user grant =>
        obtain ⟨cb, rfl, rfl⟩ := Option.map_eq_some_iff.mp heffect
        exact ⟨⟨happlies, rfl⟩, fun _ => rfl⟩
      | modify fd events ctlOk | remove fd =>
        cases heffect
        exact ⟨happlies, fun _ => rfl⟩
  refine ⟨_, hperform, ⟨?_, sound_snoc.mpr ⟨h.sound, hok⟩⟩, ?_, hkept⟩
  · rwa [registered_snoc]
  · rw [waiting_snoc, hwaiting]

theorem performAll (h : r.WellFormed backend) (calls : List (Call C U)) :
    ∃ r', calls.foldlM (Reactor.perform backend) r = some r' ∧ r'.WellFormed backend ∧
      Within r r' := by
  induction calls generalizing r with
  | nil => exact ⟨r, rfl, h, rfl, .refl _⟩
  | cons c calls ih =>
    obtain ⟨r₁, hc, hwell, hwaiting, hkept⟩ := h.perform c
    obtain ⟨r₂, hcalls, hwell', hwaiting', hkept'⟩ := ih hwell
    exact ⟨r₂, by rw [foldlM_cons, hc]; exact hcalls, hwell', hwaiting'.trans hwaiting,
      hkept.trans hkept'⟩

end Run.WellFormed

/-- What is left to be looked at once a callback has been run, or none was to be run. -/
theorem suffix_waitingStep {rest w : List Int} (h : (fd :: rest) <:+ w) :
    rest <:+ (w.dropWhile fun x => x ≠ fd).tail := by
  obtain ⟨seen, rfl⟩ := h
  induction seen with
  | nil => simp
  | cons x seen ih =>
    by_cases hx : x = fd
    · rw [cons_append, dropWhile_cons_of_neg (by simpa using hx), tail_cons]
      exact (suffix_cons fd rest).trans (suffix_append _ _)
    · rwa [cons_append, dropWhile_cons_of_pos (by simpa using hx)]

theorem Run.WellFormed.deliver {r : Run C U} (h : r.WellFormed backend) (callbacks : Callbacks C U)
    {rest : List Int} (hwaiting : (fd :: rest) <:+ waiting r.log) {maskOf : UInt32 → UInt32}
    (hmask : ∀ events, maskOf events &&& events = maskOf events) :
    ∃ r', deliver backend callbacks r fd maskOf = some r' ∧ r'.WellFormed backend ∧
      rest <:+ waiting r'.log ∧ Kept r.state r'.state := by
  obtain ⟨res, hfind, hfound⟩ := h.represents.find fd
  have hentries := h.represents.entries
  have hrest : rest <:+ waiting r.log := (suffix_cons fd rest).trans hwaiting
  rw [Reactor.deliver, hfind]
  generalize hl : registered r.log = l at hfound hentries
  cases hfound with
  | missing _ _ => exact ⟨r, rfl, h, hrest, .refl _⟩
  | @there l₁ l₂ e hfd =>
    have hread : r.state.entries.read l₁.length = some e := hentries.read_middle
    have hmem : e ∈ registered r.log := by simp [hl]
    subst hfd
    by_cases hzero : maskOf e.events = 0
    · exact ⟨r, by simp [hread, hzero], h, hrest, .refl _⟩
    have hcalled : Run.WellFormed backend (r.record (.called e (maskOf e.events))) :=
      h.record ⟨hmem, hzero, hmask e.events, hwaiting.subset mem_cons_self⟩ rfl
    obtain ⟨r', hcalls, hwell, hsame, hkept⟩ :=
      hcalled.performAll (callbacks (r.record (.called e (maskOf e.events))).log)
    refine ⟨r', by simpa [hread, hzero] using hcalls, hwell, ?_, hkept⟩
    rw [hsame, Logged.record, waiting_snoc]
    exact suffix_waitingStep hwaiting

variable (revents : Nat → UInt16)

/-- The slots with what `poll` has written into them, the first one being slot `i`. -/
def polled (i : Nat) (slots : List PollFd) : List PollFd :=
  (slots.zipIdx i).map fun (slot, i) => { slot with revents := revents i }

theorem map_watch_polled (i : Nat) (slots : List PollFd) :
    (polled revents i slots).map PollFd.watch = slots.map PollFd.watch := by
  induction slots generalizing i with
  | nil => rfl
  | cons slot slots ih => exact congrArg (slot.watch :: ·) (ih (i + 1))

theorem exists_setRevents (revents : Nat → UInt16) : ∀ (todo done : List PollFd)
    {b : Block PollFd}, b.Holds 0 (done ++ todo) →
      ∃ b', setRevents revents todo.length done.length b = some b' ∧ b'.size = b.size ∧
        b'.Holds 0 (done ++ polled revents done.length todo)
  | [], _, b, h => ⟨b, rfl, rfl, h⟩
  | slot :: todo, done, b, h => by
    have hread : b.read done.length = some slot := h.read_middle
    obtain ⟨b₁, hwrite, hsize, hholds⟩ :=
      exists_replace h { slot with revents := revents done.length }
    rw [append_cons] at hholds
    obtain ⟨b', hset, hsize', hholds'⟩ := exists_setRevents revents todo _ hholds
    rw [length_append, length_singleton] at hset hholds'
    refine ⟨b', ?_, hsize'.trans hsize, ?_⟩
    · simp only [length_cons, setRevents, hread, Option.bind_eq_bind, Option.bind_some]
      rwa [hwrite]
    · rwa [polled, zipIdx_cons, map_cons, append_cons]

def firedIn (slots : List PollFd) : List Snapshot :=
  (slots.filter fun slot => slot.revents ≠ 0).map fun slot => ⟨slot.fd, slot.revents⟩

theorem exists_collectLoop {pollFds : Block PollFd} : ∀ (todo : List PollFd)
    (done : List Snapshot) {i : Nat} {b : Block Snapshot}, pollFds.Holds i todo → b.Holds 0 done →
      done.length + todo.length ≤ b.size →
      ∃ b', collectLoop pollFds todo.length i done.length b =
          some ((done ++ firedIn todo).length, b') ∧ b'.size = b.size ∧
        b'.Holds 0 (done ++ firedIn todo)
  | [], done, _, b, _, hb, _ =>
    ⟨b, by simp [collectLoop, firedIn], rfl, by simpa [firedIn] using hb⟩
  | slot :: todo, done, i, b, hslots, hb, hsize => by
    obtain ⟨hread, hslots⟩ := holds_cons.mp hslots
    rw [length_cons] at hsize ⊢
    simp only [collectLoop, hread, Option.bind_eq_bind, Option.bind_some]
    by_cases hzero : slot.revents = 0
    · have hfired : firedIn (slot :: todo) = firedIn todo := by simp [firedIn, hzero]
      rw [if_neg (by simpa using hzero), hfired]
      exact exists_collectLoop todo done hslots hb (by omega)
    have hfired : firedIn (slot :: todo) = ⟨slot.fd, slot.revents⟩ :: firedIn todo := by
      simp [firedIn, hzero]
    obtain ⟨b₁, hwrite⟩ : ∃ b₁, b.write done.length ⟨slot.fd, slot.revents⟩ = some b₁ :=
      exists_write (by omega) _
    have hb₁ := hb.write_append (by rwa [Nat.zero_add])
    have hsize₁ := size_write hwrite
    obtain ⟨b', hcollect, hsize', hholds⟩ := exists_collectLoop todo _ hslots hb₁ (by
      rw [length_append, length_singleton]
      omega)
    rw [if_pos hzero, hwrite, hfired, append_cons]
    refine ⟨b', ?_, hsize'.trans hsize₁, hholds⟩
    rwa [length_append, length_singleton] at hcollect

/-- The snapshots are taken of the descriptors that `poll` has reported. -/
theorem fd_firedIn_polled (i : Nat) {slots : List PollFd}
    (h : slots.map PollFd.watch = l.map Entry.watch) :
    (firedIn (polled revents i slots)).map Snapshot.fd =
      ((l.zipIdx i).filter fun (_, i) => revents i ≠ 0).map fun (e, _) => e.fd := by
  induction l generalizing slots i with
  | nil =>
    rw [map_nil, map_eq_nil_iff] at h
    rw [h]
    rfl
  | cons e l ih =>
    obtain ⟨slot, slots, rfl, hslot, hslots⟩ := map_eq_cons_iff.mp h
    have hfd : slot.fd = e.fd := congrArg Prod.fst hslot
    have hrest := ih (i + 1) hslots
    rw [firedIn, map_map] at hrest ⊢
    by_cases hzero : revents i = 0 <;> simp_all [polled]

namespace Run.WellFormed

variable {r : Run C U} (callbacks : Callbacks C U) (interrupted : Nat → Bool)

theorem pollLoop : ∀ {snaps : List Snapshot} {i : Nat} {r : Run C U}, r.WellFormed .poll →
    r.state.snapshots.Holds i snaps → snaps.map Snapshot.fd <:+ waiting r.log →
      ∃ r', pollLoop callbacks interrupted snaps.length i r = some r' ∧ r'.WellFormed .poll
  | [], _, r, h, _, _ => ⟨r, rfl, h⟩
  | snap :: snaps, i, r, h, hsnaps, hwaiting => by
    obtain ⟨hread, hsnaps⟩ := holds_cons.mp hsnaps
    rw [length_cons, Reactor.pollLoop]
    split
    · exact ⟨r, rfl, h⟩
    have hmask : ∀ events, mapFromPollRevents snap.revents events &&& events =
        mapFromPollRevents snap.revents events := reportedMask_and _ _ _
    obtain ⟨r₁, hdeliver, hwell, hrest, hkept⟩ := h.deliver callbacks hwaiting hmask
    simp only [hread, hdeliver, Option.bind_eq_bind, Option.bind_some]
    exact pollLoop hwell (hkept.snapshots _ _ hsnaps) hrest

theorem epollLoop : ∀ {evs : List (Int × UInt32)} {i : Nat} {r : Run C U},
    r.WellFormed .epoll → evs.map Prod.fst <:+ waiting r.log →
      ∃ r', epollLoop callbacks interrupted evs i r = some r' ∧ r'.WellFormed .epoll
  | [], _, r, h, _ => ⟨r, rfl, h⟩
  | (fd, events) :: evs, i, r, h, hwaiting => by
    rw [Reactor.epollLoop]
    split
    · exact ⟨r, rfl, h⟩
    split
    · exact epollLoop h ((suffix_cons _ _).trans hwaiting)
    have hmask : ∀ registered, mapFromEpollEvents events registered &&& registered =
        mapFromEpollEvents events registered := reportedMask_and _ _ _
    obtain ⟨r₁, hdeliver, hwell, hrest, -⟩ := h.deliver callbacks hwaiting hmask
    rw [hdeliver]
    exact epollLoop hwell hrest

theorem dispatchPoll (h : r.WellFormed .poll) (revents : Nat → UInt16)
    (hwaiting : waiting r.log = reported r.state .poll revents) :
    ∃ r', dispatchPoll callbacks interrupted r revents = some r' ∧ r'.WellFormed .poll := by
  have hrep := h.represents
  have hmirrors := hrep.mirrors rfl
  obtain ⟨slots, hslots, hwatch⟩ := hmirrors.slots
  obtain ⟨first, rest, rfl, hfirst, hrest⟩ := map_eq_cons_iff.mp hwatch
  have hlength : rest.length = r.state.count :=
    by simpa [hrep.count] using congrArg List.length hrest
  obtain ⟨pollFds, hset, hsize, hholds⟩ := exists_setRevents revents (first :: rest) [] hslots
  rw [length_cons, hlength, length_nil] at hset
  rw [nil_append] at hholds
  have hpolled : ∀ snapshots : Block Snapshot, snapshots.size = r.state.snapshots.size →
      Run.WellFormed .poll { r with state :=
        { r.state with pollFds := pollFds, snapshots := snapshots } } := by
    intro snapshots hsnapshots
    refine ⟨{ hrep with mirrors := fun _ => ⟨?_, ?_, _, hholds, ?_⟩ }, h.sound⟩
    · exact hsize.symm ▸ hmirrors.pollFdsSize
    · exact hsnapshots.symm ▸ hmirrors.snapshotsSize
    · exact (map_watch_polled _ _ _).trans hwatch
  rw [Reactor.dispatchPoll, hset]
  simp only [Option.bind_eq_bind, Option.bind_some]
  split
  · exact ⟨_, rfl, hpolled r.state.snapshots rfl⟩
  have hroom := hrep.room
  have hsnapshotsSize := hmirrors.snapshotsSize.1
  have hlength' : (polled revents 1 rest).length = r.state.count := by simp [polled, hlength]
  obtain ⟨snapshots, hcollect, hsnapshots, hfired⟩ :=
    exists_collectLoop (polled revents 1 rest) [] (holds_cons.mp hholds).2 (holds_nil _ _)
      (b := r.state.snapshots) (by rw [length_nil]; omega)
  rw [hlength', nil_append] at hcollect
  rw [length_nil] at hcollect
  rw [hcollect]
  have hfds : (firedIn (polled revents 1 rest)).map Snapshot.fd = waiting r.log := by
    rw [fd_firedIn_polled revents 1 hrest, hwaiting, ← hrep.table_eq]
    rfl
  exact pollLoop callbacks interrupted (hpolled snapshots hsnapshots) hfired ⟨[], hfds⟩

theorem eventOk_collected (h : r.WellFormed backend) (report : Report backend) :
    EventOk backend r.log (.collected (reported r.state backend report)) := by
  rintro rfl
  have hsub : (reported r.state .poll report).Sublist ((registered r.log).map Entry.fd) := by
    have hfst : ((registered r.log).zipIdx 1).map (fun p => p.1.fd) =
        (registered r.log).map Entry.fd := by
      rw [← zipIdx_map_fst 1 (registered r.log), map_map, zipIdx_map_fst]
      rfl
    rw [reported, h.represents.table_eq, ← hfst]
    exact filter_sublist.map _
  have hnodup : ((registered r.log).map Entry.fd).Nodup :=
    pairwise_map.mpr (h.represents.sorted.imp fun hlt => hlt.ne)
  exact ⟨hnodup.sublist hsub, fun fd hfd => mem_map.mp (hsub.subset hfd)⟩

theorem step (h : r.WellFormed backend) (env : Env backend) :
    ∃ r' status, mcpReactorStep backend callbacks r env = some (r', status) ∧
      r'.WellFormed backend := by
  rw [mcpReactorStep]
  split
  · exact ⟨r, _, rfl, h⟩
  split
  · exact ⟨r, _, rfl, h⟩
  rename_i report _
  have hcollected := h.record (h.eventOk_collected report) rfl
  have hwaiting : waiting (r.record (.collected (reported r.state backend report))).log =
      reported r.state backend report := waiting_snoc
  obtain ⟨r', hdispatch, hwell⟩ : ∃ r', dispatch callbacks env.interrupted
      (r.record (.collected (reported r.state backend report))) backend report = some r' ∧
        r'.WellFormed backend := by
    cases backend with
    | epoll => exact hcollected.epollLoop callbacks env.interrupted ⟨[], hwaiting.symm⟩
    | poll => exact dispatchPoll callbacks env.interrupted hcollected report hwaiting
  exact ⟨r', _, congrArg (Option.map _) hdispatch, hwell⟩

theorem runOp (h : r.WellFormed backend) (op : Op backend C U) :
    ∃ r', runOp backend callbacks r op = some r' ∧ r'.WellFormed backend := by
  cases op with
  | call c =>
    obtain ⟨r', hperform, hwell, -⟩ := h.perform c
    exact ⟨r', hperform, hwell⟩
  | step env =>
    obtain ⟨r', status, hstep, hwell⟩ := h.step callbacks env
    have hok : EventOk backend r'.log (.stepped status) := trivial
    exact ⟨_, by rw [Reactor.runOp, hstep]; rfl, hwell.record hok rfl⟩

theorem run (h : r.WellFormed backend) (ops : List (Op backend C U)) :
    ∃ r', run backend callbacks r ops = some r' ∧ r'.WellFormed backend := by
  induction ops generalizing r with
  | nil => exact ⟨r, rfl, h⟩
  | cons op ops ih =>
    obtain ⟨r₁, hop, hwell⟩ := h.runOp callbacks op
    obtain ⟨r₂, hops, hwell'⟩ := ih hwell
    exact ⟨r₂, by rw [Reactor.run, foldlM_cons, hop]; exact hops, hwell'⟩

end Run.WellFormed

theorem State.Mirrors.slot {r : State C U} (h : r.Mirrors l) {i : Nat} (hi : l[i]? = some e) :
    ∃ slot, r.pollFds.read (i + 1) = some slot ∧ slot.fd = e.fd ∧
      slot.events = mapToPollEvents e.events := by
  obtain ⟨slots, hslots, hwatch⟩ := h.slots
  obtain ⟨first, rest, rfl, -, hrest⟩ := map_eq_cons_iff.mp hwatch
  have hwatched : (rest.map PollFd.watch)[i]? = some e.watch := by
    rw [hrest, getElem?_map, hi]
    rfl
  rw [getElem?_map] at hwatched
  obtain ⟨slot, hslot, heq⟩ := Option.map_eq_some_iff.mp hwatched
  have hcell := (holds_cons.mp hslots).2 i slot hslot
  refine ⟨slot, ?_, congrArg Prod.fst heq, congrArg Prod.snd heq⟩
  rwa [Nat.zero_add, Nat.add_comm] at hcell

/-- With `poll` the table is strictly sorted and holds the descriptors that have been added and not
removed since, each slot belongs to its entry, a call that fails changes nothing, and the callbacks
of a step run at most once for each descriptor that `poll` has reported, and only with events it is
registered for. -/
theorem run_poll_sound (wakeupFd wakeupWriteFd : Int) (callbacks : Callbacks C U)
    (ops : List (Op .poll C U)) :
    ∃ r, run .poll callbacks ⟨mcpReactorCreate wakeupFd wakeupWriteFd, []⟩ ops = some r ∧
      r.state.table.length = r.state.count ∧
      (r.state.table.Pairwise fun e e' => e.fd < e'.fd) ∧
      (∀ fd, (∃ e ∈ r.state.table, e.fd = fd) ↔ AddedNotRemoved r.log fd) ∧
      (∀ i e, r.state.table[i]? = some e → ∃ slot, r.state.pollFds.read (i + 1) = some slot ∧
        slot.fd = e.fd ∧ slot.events = mapToPollEvents e.events) ∧
      (∀ c number state status, call .poll r.state number c = some (state, status) →
        status ≠ .ok → state.table = r.state.table) ∧
      (∀ before event after, r.log = before ++ event :: after → EventOk .poll before event) ∧
      ∀ before ready between after, r.log = before ++ .collected ready :: (between ++ after) →
        (∀ event ∈ between, event.isCollected = false) →
          (between.flatMap Event.calledFd).Sublist ready := by
  obtain ⟨r, hrun, h⟩ := (Run.WellFormed.create wakeupFd wakeupWriteFd).run callbacks ops
  have hrep := h.represents
  have htable := hrep.table_eq
  refine ⟨r, hrun, htable.symm ▸ hrep.count.symm, htable.symm ▸ hrep.sorted, fun fd => ?_,
    fun i e hi => ?_, fun c number state status hcall hstatus => ?_, h.sound,
    fun before ready between after hlog hnone => ?_⟩
  · rw [htable]
    exact exists_registered_iff r.log fd
  · exact (hrep.mirrors rfl).slot (htable ▸ hi)
  · obtain ⟨res, hres, houtcome⟩ := hrep.call number c
    obtain rfl := Option.some.inj (hres.symm.trans hcall)
    cases houtcome with
    | failed _ _ hrep' => exact hrep'.table_eq.trans htable.symm
    | done _ _ _ _ => exact absurd rfl hstatus
  · have hsound := h.sound
    rw [hlog, ← cons_append, ← append_assoc, append_cons] at hsound
    have hsub := waiting_append_sublist hsound.of_append hnone
    rw [waiting_snoc] at hsub
    exact (sublist_append_left _ _).trans hsub

theorem mem_registeredStep (h : e ∈ registeredStep l event) :
    event = .added e ∨ ∃ x ∈ l, x.fd = e.fd ∧ x.generation = e.generation := by
  cases event with
  | added x =>
    obtain rfl | hmem := (mem_orderedInsert _).mp h
    · exact .inl rfl
    · exact .inr ⟨e, hmem, rfl, rfl⟩
  | modified fd events =>
    obtain ⟨x, hx, rfl⟩ := mem_map.mp h
    refine .inr ⟨x, hx, ?_⟩
    split <;> exact ⟨rfl, rfl⟩
  | removed fd => exact .inr ⟨e, mem_of_mem_filter h, rfl, rfl⟩
  | failed status | collected ready | called x mask | stepped status => exact .inr ⟨e, h, rfl, rfl⟩

theorem exists_registered_of_not_added (hnot : ∀ x, .added x ∈ after → x.fd ≠ e.fd)
    (he : e ∈ registered (before ++ after)) :
    ∃ x ∈ registered before, x.fd = e.fd ∧ x.generation = e.generation := by
  induction after using List.reverseRecOn generalizing e with
  | nil => exact ⟨e, by simpa using he, rfl, rfl⟩
  | append_singleton after event ih =>
    rw [← append_assoc, registered_snoc] at he
    obtain rfl | ⟨x, hx, hfd, hgeneration⟩ := mem_registeredStep he
    · exact absurd rfl (hnot e (by simp))
    · obtain ⟨y, hy, hyfd, hygeneration⟩ :=
        ih (fun z hz => hfd ▸ hnot z (mem_append_left _ hz)) hx
      exact ⟨y, hy, hyfd.trans hfd, hygeneration.trans hgeneration⟩

/-- The events of a step are delivered only to registrations that were in place when the step's
wait reported them. -/
def DeliversInPlace (log : List (Event C U)) : Prop :=
  ∀ (before : List (Event C U)) (ready : List Int) (between : List (Event C U)) (e : Entry C U)
      (mask : UInt32) (after : List (Event C U)),
    log = before ++ .collected ready :: (between ++ .called e mask :: after) →
      (∀ event ∈ between, event.isCollected = false) →
        ∃ x ∈ registered before, x.fd = e.fd ∧ x.generation = e.generation

/-- No callback adds a descriptor for which the running step has a reported event that it has still
to look at. -/
def AddsNoneWaiting (log : List (Event C U)) : Prop :=
  ∀ before e after, log = before ++ .added e :: after → e.fd ∉ waiting before

theorem deliversInPlace_of_sound (hsound : Sound (EventOk backend) log)
    (hadds : AddsNoneWaiting log) : DeliversInPlace log := by
  intro before ready between e mask after hlog hnone
  have hsplit : log = (before ++ .collected ready :: between) ++ .called e mask :: after := by
    rw [hlog, append_assoc, cons_append]
  obtain ⟨hregistered, -, -, hwaiting⟩ := hsound _ _ _ hsplit
  have hnot : ∀ x, .added x ∈ between → x.fd ≠ e.fd := by
    intro x hx hfd
    obtain ⟨first, last, rfl⟩ := append_of_mem hx
    have hadded : log = (before ++ .collected ready :: first) ++
        .added x :: (last ++ .called e mask :: after) := by simp [hlog]
    have hsplit' : log = ((before ++ .collected ready :: first) ++ (.added x :: last)) ++
        .called e mask :: after := by simp [hlog]
    -- What is to be looked at when the callback is run was so when the descriptor was added.
    have hsub := waiting_append_sublist (hsplit' ▸ hsound).of_append fun event hevent =>
      hnone event (mem_append_right _ hevent)
    exact hadds _ _ _ hadded (hfd ▸ hsub.subset (mem_append_right _ (by simpa using hwaiting)))
  rw [append_cons] at hregistered
  obtain ⟨x, hx, hsame⟩ := exists_registered_of_not_added hnot hregistered
  exact ⟨x, by simpa [registeredStep] using hx, hsame⟩

def Grant.all : Grant := ⟨true, true, true, true⟩

/-- The callback of descriptor 5 removes descriptor 6 and registers it again. -/
def readd : Callbacks Nat Unit := fun log =>
  match log.getLast? with
  | some (.called e _) => if e.fd = 5 then [.remove 6, .add 6 mcpEventRead (some 2) () .all] else []
  | _ => []

def bothReady : List (Op .poll Nat Unit) :=
  [.call (.add 5 mcpEventRead (some 0) () .all), .call (.add 6 mcpEventRead (some 1) () .all),
    .step ⟨false, .ok fun i => if i = 0 then 0 else pollIn, fun _ => false, false⟩]

theorem run_bothReady :
    (run .poll readd ⟨mcpReactorCreate 3 (-1), []⟩ bothReady).map Logged.log =
      some [.added ⟨5, 1, 0, (), 0⟩, .added ⟨6, 1, 1, (), 1⟩, .collected [5, 6],
        .called ⟨5, 1, 0, (), 0⟩ 1, .removed 6, .added ⟨6, 1, 2, (), 5⟩,
        .called ⟨6, 1, 2, (), 5⟩ 1, .stepped .ok] := by
  decide +kernel

end Mcpkit.Runtime.Reactor
