import Mathlib.Data.List.Infix
import Mathlib.Data.List.Perm.Subperm
import Mathlib.Data.List.Sort
import Mcpkit.Core.Status
import Mcpkit.Lib.EventLog

/-!
# Timers

A timer is a list of entries sorted by deadline, those with the same deadline in the order of
scheduling.  A poll takes the head off while it is due and runs its callback, which may schedule and
cancel on the same list.  The clock is a sequence of readings.

A run keeps beside the timer a log of what its users see: the calls with what they return, and the
callbacks.  A callback is a list of calls that may depend on the log.
-/

namespace Mcpkit.Runtime.Timer

open List EventLog

/-- `entry_t`.  The number stands for its address. -/
structure Entry (F A : Type) where
  due : UInt64
  fn : F
  arg : A
  serial : Nat
deriving DecidableEq

/-- `struct mcp_timer`, with the number of readings of the clock so far. -/
structure State (F A : Type) where
  head : List (Entry F A)
  readings : Nat

def mcpTimerCreate {F A : Type} : State F A := ⟨[], 0⟩

def uint64Max : UInt64 := 0xFFFFFFFFFFFFFFFF

def saturatingAdd (a b : UInt64) : UInt64 :=
  let r := a + b
  if r < a then uint64Max else r

def delayToNs (delayMs : UInt64) : UInt64 :=
  if delayMs > uint64Max / 1000000 then uint64Max else delayMs * 1000000

/-- What a user of the timer sees. -/
inductive Event (F A : Type) where
  /-- A schedule of an entry with a function, for which there is memory, returns. -/
  | scheduled (e : Entry F A) (status : Status)
  /-- A schedule without a function or without memory returns. -/
  | refused (status : Status)
  /-- A cancel returns, with the number it returns. -/
  | cancelled (fn : Option F) (arg : A) (count : Nat)
  /-- A poll that has read this time runs the callback of an entry. -/
  | fired (e : Entry F A) (now : UInt64)
  /-- A poll returns; the clock was last read as this, if at all during the poll. -/
  | returned (last : Option UInt64)
deriving DecidableEq

/-- A timer and the log of its use. -/
abbrev Run (F A : Type) := Logged (State F A) (Event F A)

/-- The deadline of an entry: its delay behind the time of the call, or the last time there is. -/
def deadline (now delayMs : UInt64) : UInt64 :=
  .ofNat (min (now.toNat + delayMs.toNat * 1000000) 18446744073709551615)

section Calls

variable {F A : Type} [DecidableEq F] [DecidableEq A] (clock : Nat → UInt64)

def nowNs (t : State F A) : UInt64 × State F A :=
  (clock t.readings, { t with readings := t.readings + 1 })

/-- The walk along the links in `mcp_timer_schedule`. -/
def insertEntry (e : Entry F A) : List (Entry F A) → List (Entry F A)
  | [] => [e]
  | x :: rest => if x.due ≤ e.due then x :: insertEntry e rest else e :: x :: rest

/-- `mcp_timer_schedule`, with the node that `rt_malloc` returns. -/
def mcpTimerSchedule (t : State F A) (node : Option Nat) (delayMs : UInt64) (fn : Option F)
    (arg : A) : State F A × Status :=
  match fn, node with
  | none, _ => (t, .invalidArgument)
  | some _, none => (t, .noMem)
  | some fn, some serial =>
    let (now, t) := nowNs clock t
    let e := ⟨saturatingAdd now (delayToNs delayMs), fn, arg, serial⟩
    ({ t with head := insertEntry e t.head }, .ok)

/-- The loop of `mcp_timer_cancel`: the entries it leaves and the number it has unlinked. -/
def cancelLoop (fn : F) (arg : A) (n : Nat) : List (Entry F A) → List (Entry F A) × Nat
  | [] => ([], n)
  | e :: rest =>
    if e.fn = fn ∧ e.arg = arg then cancelLoop fn arg (n + 1) rest
    else
      let (kept, n) := cancelLoop fn arg n rest
      (e :: kept, n)

def mcpTimerCancel (t : State F A) (fn : Option F) (arg : A) : State F A × Nat :=
  match fn with
  | none => (t, 0)
  | some fn =>
    let (kept, n) := cancelLoop fn arg 0 t.head
    ({ t with head := kept }, n)

inductive Call (F A : Type) where
  | schedule (memory : Bool) (delayMs : UInt64) (fn : Option F) (arg : A)
  | cancel (fn : Option F) (arg : A)

/-- A call, and what its caller knows of it afterwards: its arguments, the time and the result. -/
def perform (r : Run F A) : Call F A → Run F A
  | .schedule memory delayMs fn arg =>
    let node := if memory then some r.log.length else none
    let (t, status) := mcpTimerSchedule clock r.state node delayMs fn arg
    match fn, node with
    | some fn, some serial =>
      let e := ⟨deadline (clock r.state.readings) delayMs, fn, arg, serial⟩
      ⟨t, r.log ++ [.scheduled e status]⟩
    | _, _ => ⟨t, r.log ++ [.refused status]⟩
  | .cancel fn arg =>
    let (t, count) := mcpTimerCancel r.state fn arg
    ⟨t, r.log ++ [.cancelled fn arg count]⟩

/-- What the callbacks do, given what has happened. -/
abbrev Callbacks (F A : Type) := List (Event F A) → F → A → List (Call F A)

variable (callbacks : Callbacks F A)

/-- The rest of a turn of the loop of `mcp_timer_poll` once its entry is due. -/
def fire (r : Run F A) (e : Entry F A) (rest : List (Entry F A)) (now : UInt64) : Run F A :=
  let r : Run F A := ⟨{ r.state with head := rest }, r.log ++ [.fired e now]⟩
  (callbacks r.log e.fn e.arg).foldl (perform clock) r

/-- A turn of the loop of `mcp_timer_poll`, with whether the loop goes on. -/
def pollTurn (r : Run F A) : Run F A × Bool :=
  match r.state.head with
  | [] => (r, false)
  | e :: rest =>
    let (now, t) := nowNs clock r.state
    if e.due > now then (⟨t, r.log⟩, false) else (fire clock callbacks ⟨t, r.log⟩ e rest now, true)

/-- The loop of `mcp_timer_poll`.  It gives the number of callbacks run, or nothing if it is still
running when the fuel ends. -/
def pollLoop : Nat → Run F A → Nat → Run F A × Option Nat
  | 0, r, _ => (r, none)
  | fuel + 1, r, fired =>
    match pollTurn clock callbacks r with
    | (r, false) => (r, some fired)
    | (r, true) => pollLoop fuel r (fired + 1)

def mcpTimerPoll (fuel : Nat) (r : Run F A) : Run F A × Option Nat :=
  pollLoop clock callbacks fuel r 0

/-- The last of the readings that have been made since there were `first` of them. -/
def lastReading (first : Nat) (t : State F A) : Option UInt64 :=
  if first < t.readings then some (clock (t.readings - 1)) else none

inductive Op (F A : Type) where
  | call (c : Call F A)
  | poll

/-- A program.  It ends early in a poll that does not return. -/
def run (fuel : Nat) (r : Run F A) : List (Op F A) → Run F A
  | [] => r
  | .call c :: ops => run fuel (perform clock r c) ops
  | .poll :: ops =>
    match mcpTimerPoll clock callbacks fuel r with
    | (r', none) => r'
    | (r', some _) =>
      run fuel ⟨r'.state, r'.log ++ [.returned (lastReading clock r.state.readings r'.state)]⟩ ops

end Calls

variable {F A : Type} {now : UInt64} {e : Entry F A}

/-- The entry is one that a cancel of this function and argument is for. -/
def Entry.Matches (fn : Option F) (arg : A) (e : Entry F A) : Prop := fn = some e.fn ∧ e.arg = arg

instance [DecidableEq F] [DecidableEq A] (fn : Option F) (arg : A) (e : Entry F A) :
    Decidable (e.Matches fn arg) :=
  inferInstanceAs (Decidable (_ ∧ _))

/-- The first entry is to fire before the second: it has the smaller deadline, or the same one and
was scheduled earlier. -/
def Entry.Before (e e' : Entry F A) : Prop := e.due < e'.due ∨ e.due = e'.due ∧ e.serial < e'.serial

def Event.firedEntry : Event F A → Option (Entry F A)
  | .fired e _ => some e
  | _ => none

/-- The entries whose callbacks have been run, in order. -/
def firedIn (log : List (Event F A)) : List (Entry F A) := log.filterMap Event.firedEntry

variable {status : Status} {clock : Nat → UInt64} {log : List (Event F A)} {rest : List (Entry F A)}

theorem mem_firedIn : e ∈ firedIn log ↔ ∃ now, .fired e now ∈ log := by
  rw [firedIn, mem_filterMap]
  constructor
  · rintro ⟨event, hmem, hfired⟩
    cases event with
    | fired e' now =>
      cases hfired
      exact ⟨now, hmem⟩
    | scheduled _ _ | refused _ | cancelled _ _ _ | returned _ => cases hfired
  · rintro ⟨now, hmem⟩
    exact ⟨_, hmem, rfl⟩

theorem firedIn_append (log log' : List (Event F A)) :
    firedIn (log ++ log') = firedIn log ++ firedIn log' :=
  filterMap_append

theorem firedIn_snoc (log : List (Event F A)) (event : Event F A) :
    firedIn (log ++ [event]) = firedIn log ++ event.firedEntry.toList := by
  rw [firedIn_append]
  cases event <;> rfl

section Logs

variable [DecidableEq F] [DecidableEq A]

def pendingStep (pending : List (Entry F A)) : Event F A → List (Entry F A)
  | .scheduled e _ => pending ++ [e]
  | .cancelled fn arg _ => pending.filter fun e => ¬e.Matches fn arg
  | .fired e _ => pending.filter fun e' => e' ≠ e
  | .refused _ | .returned _ => pending

/-- The entries that have been scheduled and have neither fired nor been cancelled, in the order
in which they were scheduled. -/
def pending (log : List (Event F A)) : List (Entry F A) := replay pendingStep [] log

/-- What an event has to be, after a log. -/
def EventOk (log : List (Event F A)) : Event F A → Prop
  | .scheduled e status => status = .ok ∧ e.serial = log.length
  | .refused status => status ≠ .ok
  | .cancelled fn arg count => count = (pending log).countP fun e => e.Matches fn arg
  | .fired e now => e ∈ pending log ∧ e.due ≤ now ∧ ∀ e' ∈ pending log, e' ≠ e → e.Before e'
  | .returned last => ∀ e ∈ pending log, ∃ now ∈ last, now < e.due

variable {log before after : List (Event F A)} {event : Event F A}

@[simp] theorem pending_snoc : pending (log ++ [event]) = pendingStep (pending log) event :=
  replay_snoc

theorem serial_lt (hsound : Sound EventOk log) (h : .scheduled e status ∈ log) :
    e.serial < log.length := by
  obtain ⟨before, after, rfl⟩ := append_of_mem h
  rw [(hsound _ _ _ rfl).2]
  simp

theorem scheduled_of_mem_pending (h : e ∈ pending log) : ∃ status, .scheduled e status ∈ log := by
  induction log using List.reverseRecOn with
  | nil => cases h
  | append_singleton log event ih =>
    have hold : e ∈ pending log → ∃ status, .scheduled e status ∈ log ++ [event] := fun h =>
      (ih h).imp fun _ => mem_append_left _
    rw [pending_snoc] at h
    cases event with
    | scheduled e' status =>
      obtain h | rfl := by simpa [pendingStep] using h
      · exact hold h
      · exact ⟨status, by simp⟩
    | cancelled fn arg count | fired e' now => exact hold (mem_of_mem_filter h)
    | refused status | returned last => exact hold h

/-- An entry that is no longer pending does not become so again. -/
theorem not_mem_pending_append (hsound : Sound EventOk (before ++ after))
    (hserial : e.serial < before.length) (hgone : e ∉ pending before) :
    e ∉ pending (before ++ after) := by
  induction after using List.reverseRecOn with
  | nil => simpa using hgone
  | append_singleton after event ih =>
    rw [← append_assoc] at hsound ⊢
    obtain ⟨hsound, hok⟩ := sound_snoc.mp hsound
    have hnot := ih hsound
    rw [pending_snoc]
    cases event with
    | scheduled e' status =>
      have hne : e ≠ e' := by
        rintro rfl
        have hlength := hok.2
        rw [length_append] at hlength
        omega
      simp [pendingStep, hnot, hne]
    | cancelled fn arg count | fired e' now => exact fun h => hnot (mem_of_mem_filter h)
    | refused status | returned last => exact hnot

theorem mem_pending_of_fired (hsound : Sound EventOk (before ++ after)) (h : e ∈ firedIn after)
    (hserial : e.serial < before.length) : e ∈ pending before := by
  obtain ⟨now, hmem⟩ := mem_firedIn.mp h
  obtain ⟨between, rest, rfl⟩ := append_of_mem hmem
  rw [← append_assoc] at hsound
  by_contra hgone
  exact not_mem_pending_append hsound.of_append hserial hgone (hsound _ _ _ rfl).1

theorem not_fired_later (hsound : Sound EventOk (before ++ event :: after))
    (hpending : e ∈ pending before) (hremoved : e ∉ pendingStep (pending before) event) :
    e ∉ firedIn after := by
  intro hfired
  have hsplit : before ++ event :: after = (before ++ [event]) ++ after := by simp
  obtain ⟨status, hscheduled⟩ := scheduled_of_mem_pending hpending
  have hserial := serial_lt hsound.of_append hscheduled
  rw [← pending_snoc] at hremoved
  refine hremoved (mem_pending_of_fired (hsplit ▸ hsound) hfired ?_)
  rw [length_append]
  exact Nat.lt_add_right _ hserial

theorem firedIn_nodup (hsound : Sound EventOk log) : (firedIn log).Nodup := by
  induction log using List.reverseRecOn with
  | nil => exact nodup_nil
  | append_singleton log event ih =>
    rw [firedIn_snoc]
    refine (ih (sound_snoc.mp hsound).1).append (by cases event.firedEntry <;> simp) ?_
    intro e hold hnew
    obtain ⟨now, hmem⟩ := mem_firedIn.mp hold
    obtain ⟨before, after, rfl⟩ := append_of_mem hmem
    rw [append_assoc, cons_append] at hsound
    have hok := hsound _ _ _ rfl
    refine not_fired_later hsound hok.1 (by simp [pendingStep]) ?_
    rw [firedIn_snoc]
    exact mem_append_right _ hnew

end Logs

section Lists

theorem insertEntry_eq_orderedInsert (e : Entry F A) (l : List (Entry F A)) :
    insertEntry e l = l.orderedInsert (fun e e' => e.due < e'.due) e := by
  induction l with
  | nil => rfl
  | cons x rest ih =>
    simp only [insertEntry, orderedInsert_cons, ih, ← UInt64.not_le]
    split <;> simp_all

theorem insertEntry_perm (e : Entry F A) (l : List (Entry F A)) :
    (insertEntry e l).Perm (e :: l) := by
  rw [insertEntry_eq_orderedInsert]
  exact perm_orderedInsert _ e l

theorem Entry.Before.trans_due {x y : Entry F A} (hx : e.due < x.due) (h : x.Before y) :
    e.Before y := by
  obtain hlt | ⟨heq, -⟩ := h
  · exact .inl (UInt64.lt_trans hx hlt)
  · exact .inl (heq ▸ hx)

theorem insertEntry_sorted {l : List (Entry F A)} (hl : l.Pairwise Entry.Before)
    (hnew : ∀ x ∈ l, x.serial < e.serial) : (insertEntry e l).Pairwise Entry.Before := by
  induction l with
  | nil => exact pairwise_singleton _ _
  | cons x rest ih =>
    obtain ⟨hx, hrest⟩ := pairwise_cons.mp hl
    obtain ⟨hxnew, hrestnew⟩ := forall_mem_cons.mp hnew
    rw [insertEntry]
    split
    · rename_i hle
      refine pairwise_cons.mpr ⟨fun y hy => ?_, ih hrest hrestnew⟩
      obtain rfl | hy := mem_cons.mp ((insertEntry_perm e rest).mem_iff.mp hy)
      · obtain hlt | heq := UInt64.lt_or_eq_of_le hle
        · exact .inl hlt
        · exact .inr ⟨heq, hxnew⟩
      · exact hx y hy
    · rename_i hgt
      refine pairwise_cons.mpr ⟨fun y hy => ?_, hl⟩
      have hlt := UInt64.not_le.mp hgt
      obtain rfl | hy := mem_cons.mp hy
      · exact .inl hlt
      · exact (hx y hy).trans_due hlt

theorem cancelLoop_eq [DecidableEq F] [DecidableEq A] (fn : F) (arg : A) (n : Nat)
    (l : List (Entry F A)) :
    cancelLoop fn arg n l = (l.filter fun e => ¬e.Matches (some fn) arg,
      n + l.countP fun e => e.Matches (some fn) arg) := by
  induction l generalizing n with
  | nil => rfl
  | cons e rest ih =>
    by_cases hmatch : e.fn = fn ∧ e.arg = arg
    · have hmatches : e.Matches (some fn) arg := ⟨congrArg some hmatch.1.symm, hmatch.2⟩
      simp [cancelLoop, hmatch, ih, hmatches]
      omega
    · have hmatches : ¬e.Matches (some fn) arg := fun h =>
        hmatch ⟨(Option.some.inj h.1).symm, h.2⟩
      simp [cancelLoop, hmatch, ih, hmatches]

end Lists

theorem toNat_saturatingAdd (a b : UInt64) :
    (saturatingAdd a b).toNat = min (a.toNat + b.toNat) 18446744073709551615 := by
  have ha := a.toNat_lt
  have hb := b.toNat_lt
  rw [saturatingAdd]
  split <;> rename_i hover <;> rw [UInt64.lt_iff_toNat_lt, UInt64.toNat_add] at hover
  · change 18446744073709551615 = _
    omega
  · rw [UInt64.toNat_add]
    omega

theorem toNat_delayToNs (delayMs : UInt64) :
    (delayToNs delayMs).toNat = min (delayMs.toNat * 1000000) 18446744073709551615 := by
  have hlimit : (uint64Max / 1000000).toNat = 18446744073709 := by decide
  rw [delayToNs]
  split <;> rename_i hbig <;> rw [gt_iff_lt, UInt64.lt_iff_toNat_lt, hlimit] at hbig
  · change 18446744073709551615 = _
    omega
  · rw [UInt64.toNat_mul]
    change delayMs.toNat * 1000000 % _ = _
    omega

/-- The deadline that `mcp_timer_schedule` computes is right for every delay. -/
theorem saturatingAdd_delayToNs (now delayMs : UInt64) :
    saturatingAdd now (delayToNs delayMs) = deadline now delayMs := by
  rw [← UInt64.toNat_inj, toNat_saturatingAdd, toNat_delayToNs, deadline, UInt64.toNat_ofNat']
  omega

theorem lastReading_of_le {first first' : Nat} {t : State F A} (hle : first ≤ first')
    (hnow : now ∈ lastReading clock first' t) : now ∈ lastReading clock first t := by
  rw [lastReading] at hnow ⊢
  split at hnow
  · rwa [if_pos (by omega)]
  · cases hnow

section Runs

variable [DecidableEq F] [DecidableEq A]

/-- The list holds the pending entries in the order in which they are to fire, and the log is as it
has to be, its firings at readings of the clock. -/
structure Run.WellFormed (clock : Nat → UInt64) (r : Run F A) : Prop where
  perm : r.state.head.Perm (pending r.log)
  sorted : r.state.head.Pairwise Entry.Before
  sound : Sound EventOk r.log
  times : ∀ e now, .fired e now ∈ r.log → ∃ i < r.state.readings, clock i = now

/-- What any part of a program does to a run. -/
structure Run.Reaches (clock : Nat → UInt64) (r r' : Run F A) : Prop where
  wellFormed : r'.WellFormed clock
  log : r.log <+: r'.log
  readings : r.state.readings ≤ r'.state.readings

theorem Run.Reaches.trans {r r' r'' : Run F A} (h : r.Reaches clock r')
    (h' : r'.Reaches clock r'') : r.Reaches clock r'' :=
  ⟨h'.wellFormed, h.log.trans h'.log, Nat.le_trans h.readings h'.readings⟩

namespace Run.WellFormed

variable {clock : Nat → UInt64} {callbacks : Callbacks F A} {r : Run F A}

theorem create : Run.WellFormed clock (⟨mcpTimerCreate, []⟩ : Run F A) :=
  ⟨.refl _, .nil, sound_nil, by simp⟩

section

variable (h : r.WellFormed clock)
include h

theorem refl : r.Reaches clock r := ⟨h, prefix_rfl, Nat.le_refl _⟩

theorem serial_lt (he : e ∈ r.state.head) : e.serial < r.log.length := by
  obtain ⟨status, hscheduled⟩ := scheduled_of_mem_pending (h.perm.mem_iff.mp he)
  exact Timer.serial_lt h.sound hscheduled

/-- An event keeps the invariant if it is what it has to be and the list follows it. -/
theorem record {event : Event F A} {t : State F A}
    (hperm : t.head.Perm (pendingStep (pending r.log) event))
    (hsorted : t.head.Pairwise Entry.Before)
    (hok : EventOk r.log event) (hreadings : r.state.readings ≤ t.readings)
    (htime : ∀ e now, event = .fired e now → ∃ i < t.readings, clock i = now) :
    r.Reaches clock ⟨t, r.log ++ [event]⟩ := by
  refine ⟨⟨by simpa using hperm, hsorted, sound_snoc.mpr ⟨h.sound, hok⟩, fun e now hmem => ?_⟩,
    prefix_append _ _, hreadings⟩
  obtain hold | hnew := mem_append.mp hmem
  · obtain ⟨i, hi, hclock⟩ := h.times e now hold
    exact ⟨i, hi.trans_le hreadings, hclock⟩
  · exact htime e now (mem_singleton.mp hnew).symm

theorem refused (hstatus : status ≠ .ok) : r.Reaches clock ⟨r.state, r.log ++ [.refused status]⟩ :=
  h.record h.perm h.sorted hstatus (Nat.le_refl _) (by simp)

theorem perform (c : Call F A) : r.Reaches clock (perform clock r c) := by
  cases c with
  | schedule memory delayMs fn arg =>
    cases fn with
    | none => cases memory <;> exact h.refused (by simp)
    | some fn =>
      cases memory with
      | false => exact h.refused (by simp)
      | true =>
        refine h.record ?_ (insertEntry_sorted h.sorted fun x hx => h.serial_lt hx) ⟨rfl, rfl⟩
          (Nat.le_succ _) (by simp)
        refine (insertEntry_perm _ _).trans ?_
        simpa [pendingStep, nowNs, saturatingAdd_delayToNs] using
          (h.perm.cons _).trans (perm_append_singleton _ _).symm
  | cancel fn arg =>
    cases fn with
    | none =>
      refine h.record ?_ h.sorted ?_ (Nat.le_refl _) (by simp)
      · simpa [pendingStep, Entry.Matches, mcpTimerCancel] using h.perm
      · simp [EventOk, Entry.Matches]
    | some fn =>
      rw [Timer.perform, mcpTimerCancel]
      dsimp only
      rw [cancelLoop_eq]
      refine h.record (h.perm.filter _) (h.sorted.sublist filter_sublist) ?_ (Nat.le_refl _)
        (by simp)
      simpa [EventOk] using h.perm.countP_eq _

theorem performAll (calls : List (Call F A)) :
    r.Reaches clock (calls.foldl (Timer.perform clock) r) := by
  induction calls generalizing r with
  | nil => exact h.refl
  | cons c calls ih =>
    have hc := h.perform c
    exact hc.trans (ih hc.wellFormed)

theorem fire (hhead : r.state.head = e :: rest) (hdue : e.due ≤ clock r.state.readings) :
    r.Reaches clock (fire clock callbacks ⟨(nowNs clock r.state).2, r.log⟩ e rest
      (clock r.state.readings)) := by
  obtain ⟨hfirst, hrest⟩ := pairwise_cons.mp (hhead ▸ h.sorted)
  have hperm := hhead ▸ h.perm
  have hnot : ∀ e' ∈ rest, e' ≠ e := by
    rintro e' he' rfl
    simpa [Entry.Before] using hfirst e' he'
  have hfired : r.Reaches clock ⟨{ (nowNs clock r.state).2 with head := rest },
      r.log ++ [.fired e (clock r.state.readings)]⟩ := by
    refine h.record ?_ hrest ⟨hperm.mem_iff.mp mem_cons_self, hdue, fun e' he' hne => ?_⟩
      (Nat.le_succ _) ?_
    · have hfilter := hperm.filter fun e' => e' ≠ e
      rwa [filter_cons_of_neg (by simp), filter_eq_self.mpr (by simpa using hnot)] at hfilter
    · obtain rfl | hmem := mem_cons.mp (hperm.mem_iff.mpr he')
      · exact absurd rfl hne
      · exact hfirst e' hmem
    · rintro _ _ ⟨⟩
      exact ⟨_, Nat.lt_succ_self _, rfl⟩
  exact hfired.trans (hfired.wellFormed.performAll _)

theorem not_due (hhead : r.state.head = e :: rest) (hdue : now < e.due) :
    ∀ e' ∈ pending r.log, now < e'.due := by
  intro e' he'
  obtain rfl | hmem := mem_cons.mp (hhead ▸ h.perm.mem_iff.mpr he')
  · exact hdue
  · obtain hlt | ⟨heq, -⟩ := (pairwise_cons.mp (hhead ▸ h.sorted)).1 e' hmem
    · exact UInt64.lt_trans hdue hlt
    · exact heq ▸ hdue

/-- When the loop ends, nothing that is pending was due at the reading just made. -/
theorem pollTurn (callbacks : Callbacks F A) : r.Reaches clock (pollTurn clock callbacks r).1 ∧
    ((pollTurn clock callbacks r).2 = false → ∀ e ∈ pending (pollTurn clock callbacks r).1.log,
      ∃ now ∈ lastReading clock r.state.readings (pollTurn clock callbacks r).1.state,
        now < e.due) := by
  rw [Timer.pollTurn]
  split
  · rename_i hhead
    have hnone : pending r.log = [] := perm_nil.mp (hhead ▸ h.perm).symm
    exact ⟨h.refl, fun _ => by simp [hnone]⟩
  rename_i e rest hhead
  by_cases hdue : clock r.state.readings < e.due
  · simp only [nowNs, gt_iff_lt, if_pos hdue]
    refine ⟨⟨⟨h.perm, h.sorted, h.sound, fun e now hmem => ?_⟩, prefix_rfl, Nat.le_succ _⟩,
      fun _ e' he' => ⟨clock r.state.readings, by simp [lastReading], h.not_due hhead hdue e' he'⟩⟩
    exact (h.times e now hmem).imp fun i hi => ⟨Nat.lt_succ_of_lt hi.1, hi.2⟩
  · simp only [nowNs, gt_iff_lt, if_neg hdue]
    exact ⟨h.fire hhead (UInt64.not_lt.mp hdue), fun hend => by cases hend⟩

theorem pollLoop (callbacks : Callbacks F A) (fuel fired : Nat) :
    r.Reaches clock (pollLoop clock callbacks fuel r fired).1 ∧
    ((pollLoop clock callbacks fuel r fired).2.isSome →
      ∀ e ∈ pending (pollLoop clock callbacks fuel r fired).1.log,
        ∃ now ∈ lastReading clock r.state.readings (pollLoop clock callbacks fuel r fired).1.state,
          now < e.due) := by
  induction fuel generalizing r fired with
  | zero => exact ⟨h.refl, fun hsome => by cases hsome⟩
  | succ fuel ih =>
    obtain ⟨hreaches, hend⟩ := h.pollTurn callbacks
    rw [Timer.pollLoop]
    split <;> rename_i r₁ hturn <;> rw [hturn] at hreaches hend
    · exact ⟨hreaches, fun _ => hend rfl⟩
    obtain ⟨hloop, hreturned⟩ := ih hreaches.wellFormed (fired + 1)
    refine ⟨hreaches.trans hloop, fun hsome e he => (hreturned hsome e he).imp fun now hnow => ?_⟩
    exact ⟨lastReading_of_le hreaches.readings hnow.1, hnow.2⟩

theorem run (fuel : Nat) (ops : List (Op F A)) :
    (run clock callbacks fuel r ops).WellFormed clock := by
  induction ops generalizing r with
  | nil => exact h
  | cons op ops ih =>
    cases op with
    | call c => exact ih (h.perform c).wellFormed
    | poll =>
      obtain ⟨hpoll, hreturned⟩ := h.pollLoop callbacks fuel 0
      rw [Timer.run, mcpTimerPoll]
      split
      · rename_i r' hloop
        exact (hloop ▸ hpoll).wellFormed
      · rename_i r' fired hloop
        rw [hloop] at hpoll hreturned
        have hr' := hpoll.wellFormed
        have hok : EventOk r'.log (.returned (lastReading clock r.state.readings r'.state)) :=
          hreturned rfl
        exact ih (hr'.record hr'.perm hr'.sorted hok (Nat.le_refl _) (by simp)).wellFormed

end

end Run.WellFormed

/-- In every program, also while a poll is running, each firing is of the first pending entry and
due at a reading of the clock, no entry fires twice or after a cancel, a cancel returns the number
of pending entries it is for, and when a poll returns nothing pending is due at the last reading. -/
theorem run_fires_in_order (clock : Nat → UInt64) (callbacks : Callbacks F A) (fuel : Nat)
    (ops : List (Op F A)) :
    let r := run clock callbacks fuel ⟨mcpTimerCreate, []⟩ ops
    r.state.head.Perm (pending r.log) ∧
      (∀ before event after, r.log = before ++ event :: after → EventOk before event) ∧
      (∀ e now, .fired e now ∈ r.log → ∃ i < r.state.readings, clock i = now) ∧
      (firedIn r.log).Nodup ∧
      (∀ before fn arg count after, r.log = before ++ .cancelled fn arg count :: after →
        ∀ e ∈ pending before, e.Matches fn arg → e ∉ firedIn after) := by
  intro r
  have h : r.WellFormed clock := Run.WellFormed.create.run fuel ops
  refine ⟨h.perm, h.sound, h.times, firedIn_nodup h.sound, ?_⟩
  intro before fn arg count after hlog e he hmatches
  exact not_fired_later (hlog ▸ h.sound) he (by simp [pendingStep, hmatches])

end Runs

section Poll

variable [DecidableEq F] [DecidableEq A]

/-- What has happened between two states of a run. -/
def since (r r' : Run F A) : List (Event F A) := r'.log.drop r.log.length

/-- The poll returns, and it has fired only entries that were pending when it started. -/
def FiresOnlyPending (clock : Nat → UInt64) (callbacks : Callbacks F A) (r : Run F A) : Prop :=
  ∃ fuel r' fired, mcpTimerPoll clock callbacks fuel r = (r', some fired) ∧
    fired ≤ r.state.head.length ∧ ∀ e ∈ firedIn (since r r'), e ∈ r.state.head

/-- However long the poll runs, the clock does not reach the deadline of an entry that one of its
callbacks has scheduled. -/
def NotReached (clock : Nat → UInt64) (callbacks : Callbacks F A) (r : Run F A) : Prop :=
  ∀ fuel e status, .scheduled e status ∈ since r (mcpTimerPoll clock callbacks fuel r).1 →
    clock ((mcpTimerPoll clock callbacks fuel r).1.state.readings - 1) < e.due

variable {clock : Nat → UInt64} {callbacks : Callbacks F A} {r r' : Run F A}

theorem Run.Reaches.log_eq (h : r.Reaches clock r') : r'.log = r.log ++ since r r' :=
  (prefix_iff_eq_append.mp h.log).symm

theorem firedIn_performAll (calls : List (Call F A)) (r : Run F A) :
    firedIn (calls.foldl (perform clock) r).log = firedIn r.log := by
  induction calls generalizing r with
  | nil => rfl
  | cons c calls ih =>
    refine (ih _).trans ?_
    cases c with
    | schedule memory delayMs fn arg =>
      cases memory <;> cases fn <;> simp [perform, firedIn_snoc, Event.firedEntry]
    | cancel fn arg => simp [perform, firedIn_snoc, Event.firedEntry]

/-- At every turn but its last one the loop runs one callback. -/
theorem length_firedIn_pollLoop (clock : Nat → UInt64) (callbacks : Callbacks F A)
    (fuel fired : Nat) (r : Run F A) :
    (firedIn (pollLoop clock callbacks fuel r fired).1.log).length + fired =
      (firedIn r.log).length + (pollLoop clock callbacks fuel r fired).2.getD (fired + fuel) := by
  have hturn : ∀ r : Run F A, (firedIn (pollTurn clock callbacks r).1.log).length =
      (firedIn r.log).length + (pollTurn clock callbacks r).2.toNat := by
    intro r
    rw [pollTurn]
    split
    · rfl
    · dsimp only
      split
      · rfl
      · simp [fire, firedIn_performAll, firedIn_snoc, Event.firedEntry]
  induction fuel generalizing r fired with
  | zero => rfl
  | succ fuel ih =>
    have hcount := hturn r
    rw [pollLoop]
    split <;> rename_i r₁ heq <;> rw [heq] at hcount
    · simpa using hcount
    · have hloop := ih (fired + 1) r₁
      rw [show fired + 1 + fuel = fired + (fuel + 1) by omega] at hloop
      simp only [Bool.toNat_true] at hcount
      omega

theorem mem_head_of_fired (hclock : ∀ i j, i ≤ j → clock i ≤ clock j) (h : r.WellFormed clock)
    (hr : r.Reaches clock r')
    (hnot : ∀ e status, .scheduled e status ∈ since r r' → clock (r'.state.readings - 1) < e.due) :
    ∀ e ∈ firedIn (since r r'), e ∈ r.state.head := by
  intro e he
  have hlog := hr.log_eq
  have hsound := hlog ▸ hr.wellFormed.sound
  by_cases hserial : e.serial < r.log.length
  · exact h.perm.mem_iff.mpr (mem_pending_of_fired hsound he hserial)
  -- A new entry that fires was scheduled in between, and is due at a reading made by then.
  obtain ⟨now, hfired⟩ := mem_firedIn.mp he
  obtain ⟨i, hi, rfl⟩ := hr.wellFormed.times e now (hlog ▸ mem_append_right _ hfired)
  obtain ⟨between, rest, hsplit⟩ := append_of_mem hfired
  rw [hsplit, ← append_assoc] at hsound
  obtain ⟨hpending, hdue, -⟩ := hsound _ _ _ rfl
  obtain ⟨status, hscheduled⟩ := scheduled_of_mem_pending hpending
  obtain hold | hnew := mem_append.mp hscheduled
  · exact absurd (serial_lt h.sound hold) hserial
  have hlater := hnot e status (hsplit ▸ mem_append_left _ hnew)
  have hle := UInt64.le_trans hdue (hclock i (r'.state.readings - 1) (by omega))
  exact absurd hlater (UInt64.not_lt.mpr hle)

end Poll

/-- The callback of the entry schedules it again, with some delay. -/
def again (delayMs : UInt64) : Callbacks Unit Unit :=
  fun _ _ _ => [.schedule true delayMs (some ()) ()]

def armed (clock : Nat → UInt64) : Run Unit Unit :=
  perform clock ⟨mcpTimerCreate, []⟩ (.schedule true 0 (some ()) ())

theorem deadline_zero (now : UInt64) : deadline now 0 = now := by
  have hnow := now.toNat_lt
  rw [← UInt64.toNat_inj, deadline, UInt64.toNat_ofNat']
  change min (now.toNat + 0) _ % _ = _
  omega

theorem pollLoop_again (hclock : ∀ i j, i ≤ j → clock i ≤ clock j) (fuel fired : Nat)
    {r : Run Unit Unit} {e : Entry Unit Unit} (hhead : r.state.head = [e])
    (hdue : e.due ≤ clock r.state.readings) : (pollLoop clock (again 0) fuel r fired).2 = none := by
  induction fuel generalizing r fired e with
  | zero => rfl
  | succ fuel ih =>
    have hturn : pollTurn clock (again 0) r = (fire clock (again 0)
        ⟨(nowNs clock r.state).2, r.log⟩ e [] (clock r.state.readings), true) := by
      rw [pollTurn, hhead]
      exact if_neg (UInt64.not_lt.mpr hdue)
    rw [pollLoop, hturn]
    refine ih _ rfl ?_
    rw [saturatingAdd_delayToNs, deadline_zero]
    exact hclock _ _ (Nat.le_succ _)

end Mcpkit.Runtime.Timer
