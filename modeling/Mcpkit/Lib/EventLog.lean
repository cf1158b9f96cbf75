import Mathlib.Data.List.Basic

/-!
# Logs of events

A log lists the events of a run in the order in which they happened.  It is sound if each
event is what it has to be after the events before it.
-/

namespace EventLog

open List

/-- A system and the log of what has happened to it. -/
structure Logged (S E : Type) where
  state : S
  log : List E

def Logged.record {S E : Type} (r : Logged S E) (event : E) : Logged S E :=
  { r with log := r.log ++ [event] }

variable {E S : Type} {Ok : List E → E → Prop} {log before after : List E} {event : E}

/-- Every event of the log is what it has to be after those before it. -/
def Sound (Ok : List E → E → Prop) (log : List E) : Prop :=
  ∀ before event after, log = before ++ event :: after → Ok before event

theorem sound_nil : Sound Ok [] := by
  intro before event after h
  simp at h

theorem sound_snoc : Sound Ok (log ++ [event]) ↔ Sound Ok log ∧ Ok log event := by
  constructor
  · intro h
    exact ⟨fun before e after heq => h before e (after ++ [event]) (by simp [heq]),
      h log event [] rfl⟩
  rintro ⟨hsound, hok⟩ before e after heq
  obtain rfl | ⟨after, last, rfl⟩ := eq_nil_or_concat' after
  · obtain ⟨rfl, hlast⟩ := append_inj' heq rfl
    rwa [← (List.cons.inj hlast).1]
  · rw [← cons_append, ← append_assoc] at heq
    exact hsound before e after (append_inj' heq rfl).1

theorem Sound.of_append (h : Sound Ok (before ++ after)) : Sound Ok before := by
  intro first event rest heq
  exact h first event (rest ++ after) (by simp [heq])

def replay (step : S → E → S) (init : S) (log : List E) : S := log.foldl step init

variable {step : S → E → S} {init : S}

@[simp] theorem replay_nil : replay step init [] = init := rfl

@[simp] theorem replay_snoc :
    replay step init (log ++ [event]) = step (replay step init log) event := by
  simp [replay]

end EventLog
