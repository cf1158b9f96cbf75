import Mathlib.Data.List.Basic

/-!
# Runs of a reactive machine

A machine takes one action at a time, moves to a new state and gives an output; `exec` and `outputs`
are its run over a list of actions.  The rules: an invariant of the admitted steps holds after every
run; a relation that every admitted step establishes holds along it; what holds at the end and not
at the start was established by some step; a state that some step always brings closer is reached;
and actions that change nothing can be left out.
-/

namespace Machine

open List

variable {S A O : Type*} (step : S → A → S × O)

def exec (s : S) : List A → S
  | [] => s
  | a :: as => exec (step s a).1 as

def outputs (s : S) : List A → List O
  | [] => []
  | a :: as => (step s a).2 :: outputs (step s a).1 as

@[simp] theorem exec_nil (s : S) : exec step s [] = s := rfl

@[simp] theorem exec_cons (s : S) (a : A) (as : List A) :
    exec step s (a :: as) = exec step (step s a).1 as := rfl

@[simp] theorem outputs_nil (s : S) : outputs step s [] = [] := rfl

@[simp] theorem outputs_cons (s : S) (a : A) (as : List A) :
    outputs step s (a :: as) = (step s a).2 :: outputs step (step s a).1 as := rfl

theorem exec_append (s : S) (as bs : List A) :
    exec step s (as ++ bs) = exec step (exec step s as) bs := by
  induction as generalizing s with
  | nil => rfl
  | cons a as ih => exact ih (step s a).1

/-- Every step of the run meets a condition on the state before it and the action. -/
def Admissible (Ok : S → A → Prop) (s : S) : List A → Prop
  | [] => True
  | a :: as => Ok s a ∧ Admissible Ok (step s a).1 as

instance decidableAdmissible {Ok : S → A → Prop} [∀ s a, Decidable (Ok s a)] (s : S) :
    (as : List A) → Decidable (Admissible step Ok s as)
  | [] => isTrue trivial
  | a :: as => @instDecidableAnd _ _ _ (decidableAdmissible (step s a).1 as)

variable {Ok : S → A → Prop} {as : List A} {s : S} {I P : S → Prop} {R : S → S → Prop}

theorem admissible_append {bs : List A} :
    Admissible step Ok s (as ++ bs) ↔
      Admissible step Ok s as ∧ Admissible step Ok (exec step s as) bs := by
  induction as generalizing s with
  | nil => simp [Admissible]
  | cons a as ih => simp [Admissible, ih, and_assoc]

variable {step}

theorem Admissible.mono {Ok' : S → A → Prop} (hok : ∀ s a, Ok s a → Ok' s a)
    (h : Admissible step Ok s as) : Admissible step Ok' s as := by
  induction as generalizing s with
  | nil => trivial
  | cons a as ih => exact ⟨hok s a h.1, ih h.2⟩

theorem exec_invariant (hstep : ∀ s a, I s → I (step s a).1) (h : I s) (as : List A) :
    I (exec step s as) := by
  induction as generalizing s with
  | nil => exact h
  | cons a as ih => exact ih (hstep s a h)

theorem exec_invariant_of_admissible (hstep : ∀ s a, Ok s a → I s → I (step s a).1) (h : I s)
    (hok : Admissible step Ok s as) : I (exec step s as) := by
  induction as generalizing s with
  | nil => exact h
  | cons a as ih => exact ih (hstep s a hok.1 h) hok.2

/-- A property holds all along a run exactly if every step is admitted, when under an invariant a
step leads to the property exactly if it is admitted, and admitted steps keep the invariant. -/
theorem forall_exec_iff_admissible_of_invariant (hstep : ∀ s a, I s → (P (step s a).1 ↔ Ok s a))
    (hinv : ∀ s a, I s → Ok s a → I (step s a).1) (hs : I s) (h : P s) :
    (∀ before after, as = before ++ after → P (exec step s before)) ↔ Admissible step Ok s as := by
  induction as generalizing s with
  | nil =>
    refine ⟨fun _ => trivial, fun _ before after heq => ?_⟩
    rwa [(nil_eq_append_iff.mp heq).1]
  | cons a as ih =>
    constructor
    · intro hall
      have ha : P (step s a).1 := hall [a] as rfl
      have hok := (hstep s a hs).mp ha
      exact ⟨hok, (ih (hinv s a hs hok) ha).mp fun before after heq =>
        hall (a :: before) after (by rw [heq, cons_append])⟩
    rintro ⟨hok, hrest⟩ before after heq
    cases before with
    | nil => exact h
    | cons b before =>
      obtain ⟨rfl, htail⟩ := cons_eq_cons.mp heq
      exact (ih (hinv s a hs hok) ((hstep s a hs).mpr hok)).mpr hrest before after htail

/-- When a step keeps a property exactly if it is admitted, the property holds all along a run
exactly if every step of the run is admitted. -/
theorem forall_exec_iff_admissible (hstep : ∀ s a, I s → (I (step s a).1 ↔ Ok s a)) (h : I s) :
    (∀ before after, as = before ++ after → I (exec step s before)) ↔ Admissible step Ok s as :=
  forall_exec_iff_admissible_of_invariant hstep (fun s a hs hok => (hstep s a hs).mpr hok) h h

/-- When a step relates the states around it exactly if it is admitted, every two states of a run
are related exactly if every step of the run is admitted. -/
theorem forall_exec_related_iff_admissible (hrefl : ∀ s, R s s)
    (htrans : ∀ s t u, R s t → R t u → R s u) (hstep : ∀ s a, R s (step s a).1 ↔ Ok s a) :
    (∀ before between after, as = before ++ (between ++ after) →
        R (exec step s before) (exec step s (before ++ between))) ↔
      Admissible step Ok s as := by
  have hfrom : ∀ {as : List A} {s : S}, Admissible step Ok s as → R s (exec step s as) := by
    intro as
    induction as with
    | nil => exact fun _ => hrefl _
    | cons a as ih => exact fun hok => htrans _ _ _ ((hstep _ a).mpr hok.1) (ih hok.2)
  constructor
  · intro hall
    induction as generalizing s with
    | nil => trivial
    | cons a as ih =>
      refine ⟨(hstep s a).mp (hall [] [a] as rfl), ih fun before between after heq => ?_⟩
      exact hall (a :: before) between after (by rw [heq, cons_append])
  · intro hok before between after heq
    rw [heq, admissible_append, admissible_append] at hok
    rw [exec_append]
    exact hfrom hok.2.1

/-- When the output of a step has a property exactly if the step is admitted, all outputs of a run
have it exactly if every step of the run is admitted. -/
theorem forall_outputs_iff_admissible {Q : O → Prop} (hstep : ∀ s a, Q (step s a).2 ↔ Ok s a) :
    (∀ o ∈ outputs step s as, Q o) ↔ Admissible step Ok s as := by
  induction as generalizing s with
  | nil => simp [Admissible]
  | cons a as ih => simp [Admissible, hstep, ih]

theorem exists_step_of_exec (hs : ¬P s) (h : P (exec step s as)) :
    ∃ before a after, as = before ++ a :: after ∧ ¬P (exec step s before) ∧
      P (step (exec step s before) a).1 := by
  induction as generalizing s with
  | nil => exact absurd h hs
  | cons a as ih =>
    by_cases ha : P (step s a).1
    · exact ⟨[], a, as, rfl, hs, ha⟩
    · obtain ⟨before, b, after, rfl, hbefore, hb⟩ := ih ha h
      exact ⟨a :: before, b, after, rfl, hbefore, hb⟩

theorem exists_exec_of_progress (left : S → Nat)
    (hprogress : ∀ s, I s → ¬P s → ∃ a, I (step s a).1 ∧ left (step s a).1 < left s) (h : I s) :
    ∃ as, P (exec step s as) := by
  induction hleft : left s using Nat.strongRecOn generalizing s with
  | _ n ih =>
    by_cases hdone : P s
    · exact ⟨[], hdone⟩
    · obtain ⟨a, hnext, hlt⟩ := hprogress s h hdone
      obtain ⟨as, has⟩ := ih _ (hleft ▸ hlt) hnext rfl
      exact ⟨a :: as, has⟩

section Purge

variable {keep : A → Bool} (hpurge : ∀ s a, keep a = false → (step s a).1 = s)

include hpurge

theorem exec_filter (s : S) (as : List A) :
    exec step s (as.filter keep) = exec step s as := by
  induction as generalizing s with
  | nil => rfl
  | cons a as ih =>
    cases hk : keep a with
    | true =>
      rw [filter_cons_of_pos hk]
      exact ih _
    | false =>
      rw [filter_cons_of_neg (by simp [hk]), exec_cons, hpurge s a hk]
      exact ih s

end Purge

/-- The outputs of the kept actions along a run of all actions. -/
def outputsOf (step : S → A → S × O) (keep : A → Bool) (s : S) : List A → List O
  | [] => []
  | a :: as =>
    if keep a then (step s a).2 :: outputsOf step keep (step s a).1 as
    else outputsOf step keep (step s a).1 as

/-- Two runs over the same actions give the same outputs exactly if every step is admitted, when
admitted steps keep the states related and others give different outputs. -/
theorem outputs_eq_iff_admissible
    (halike : ∀ s t a, R s t → Ok s a → R (step s a).1 (step t a).1 ∧ (step s a).2 = (step t a).2)
    (hdiffer : ∀ s t a, R s t → ¬Ok s a → (step s a).2 ≠ (step t a).2) {t : S} (h : R s t) :
    outputs step s as = outputs step t as ↔ Admissible step Ok s as := by
  induction as generalizing s t with
  | nil => exact iff_of_true rfl trivial
  | cons a as ih =>
    rw [outputs_cons, outputs_cons, List.cons.injEq]
    by_cases hok : Ok s a
    · obtain ⟨hnext, hout⟩ := halike s t a h hok
      rw [ih hnext]
      exact and_congr (iff_of_true hout hok) Iff.rfl
    · exact iff_of_false (fun heq => hdiffer s t a h hok heq.1) fun hall => hok hall.1

/-- Actions that a relation of states does not see can be removed: kept actions then give the same
outputs from related states, whatever happens between them. -/
theorem outputsOf_eq_outputs_filter {keep : A → Bool} {Ok : A → Prop}
    (hkeep : ∀ s t a, Ok a → keep a = true → R s t →
      R (step s a).1 (step t a).1 ∧ (step s a).2 = (step t a).2)
    (hdrop : ∀ s t a, Ok a → keep a = false → R s t → R (step s a).1 t) {t : S} (h : R s t)
    (hok : ∀ a ∈ as, Ok a) : outputsOf step keep s as = outputs step t (as.filter keep) := by
  induction as generalizing s t with
  | nil => rfl
  | cons a as ih =>
    have ha := hok a mem_cons_self
    have has : ∀ a ∈ as, Ok a := fun a ha => hok a (mem_cons_of_mem _ ha)
    cases hk : keep a with
    | true =>
      obtain ⟨hnext, hout⟩ := hkeep s t a ha hk h
      rw [outputsOf, if_pos hk, filter_cons_of_pos hk, outputs_cons, hout, ih hnext has]
    | false =>
      rw [outputsOf, if_neg (by simp [hk]), filter_cons_of_neg (by simp [hk])]
      exact ih (hdrop s t a ha hk h) has

end Machine
