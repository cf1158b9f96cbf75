import Mathlib.Data.Multiset.Filter

/-!
# Threads and their locks

Threads come and go, and each holds at most one lock.  `Guarded` ties the locks to
the threads: a lock is taken exactly if one thread holds it, and free if none does.
Taking a free lock and releasing one keep it, and of the threads that only run with
a lock there is at most one.
-/

namespace Mutex

open Multiset Function Bool

variable {J K : Type*}

theorem countP_le_countP {jobs : Multiset J} {p q : J → Prop} [DecidablePred p] [DecidablePred q]
    (h : ∀ j ∈ jobs, p j → q j) : jobs.countP p ≤ jobs.countP q := by
  rw [countP_eq_card_filter, countP_eq_card_filter]
  apply card_le_card
  rw [le_filter]
  refine ⟨filter_le p jobs, ?_⟩
  intro j hj
  rw [mem_filter] at hj
  exact h j hj.1 hj.2

variable [DecidableEq K] (holds : J → Option K)

def holders (jobs : Multiset J) (k : K) : Nat := jobs.countP fun j => holds j = some k

def Guarded (locks : K → Bool) (jobs : Multiset J) : Prop :=
  ∀ k, holders holds jobs k = (locks k).toNat

variable {holds} {locks : K → Bool} {jobs : Multiset J} {j j' : J} {k : K}

theorem holders_cons (j : J) (jobs : Multiset J) (k : K) :
    holders holds (j ::ₘ jobs) k = holders holds jobs k + if holds j = some k then 1 else 0 :=
  countP_cons _ _ _

theorem holders_cons_of_none (h : holds j = none) :
    holders holds (j ::ₘ jobs) k = holders holds jobs k := by
  simp [holders_cons, h]

namespace Guarded

theorem zero : Guarded holds (fun _ => false) 0 := fun _ => rfl

theorem cons (h : Guarded holds locks jobs) (hj : holds j = none) :
    Guarded holds locks (j ::ₘ jobs) := by
  intro k
  exact (holders_cons_of_none hj).trans (h k)

theorem of_cons (h : Guarded holds locks (j ::ₘ jobs)) (hj : holds j = none) :
    Guarded holds locks jobs := by
  intro k
  exact (holders_cons_of_none hj).symm.trans (h k)

theorem add {new : Multiset J} (h : Guarded holds locks jobs) (hnew : ∀ j ∈ new, holds j = none) :
    Guarded holds locks (new + jobs) := by
  induction new using Multiset.induction with
  | empty => simpa using h
  | cons j new ih =>
    rw [cons_add]
    apply Guarded.cons
    · exact ih fun j' hj' => hnew j' (mem_cons_of_mem hj')
    · exact hnew j (mem_cons_self j new)

section

variable (h : Guarded holds locks (j ::ₘ jobs))
include h

theorem replace (hj : holds j' = holds j) : Guarded holds locks (j' ::ₘ jobs) := by
  intro k
  rw [← h k, holders_cons, holders_cons, hj]

theorem acquire (hj : holds j = none) (hfree : locks k = false) (hj' : holds j' = some k) :
    Guarded holds (Function.update locks k true) (j' ::ₘ jobs) := by
  have hothers := h.of_cons hj
  intro l
  rw [holders_cons, hothers l, hj']
  by_cases hl : l = k
  · subst hl
    simp [hfree]
  · simp [update_of_ne hl, Ne.symm hl]

theorem release (hj : holds j = some k)
    (hj' : holds j' = none) : Guarded holds (Function.update locks k false) (j' ::ₘ jobs) := by
  intro l
  have hl := h l
  rw [holders_cons, hj] at hl
  rw [holders_cons_of_none hj']
  by_cases hlk : l = k
  · subst hlk
    rw [if_pos rfl] at hl
    rw [update_self, toNat_false]
    have hone := toNat_le (locks l)
    omega
  · rw [if_neg fun heq => hlk (Option.some.inj heq).symm] at hl
    rwa [update_of_ne hlk]

end

theorem exclusive (h : Guarded holds locks jobs) {runs : J → Prop} [DecidablePred runs]
    (hruns : ∀ j ∈ jobs, runs j → holds j = some k) : jobs.countP runs ≤ 1 := by
  calc jobs.countP runs
      ≤ holders holds jobs k := countP_le_countP hruns
    _ = (locks k).toNat := h k
    _ ≤ 1 := toNat_le _

end Guarded

end Mutex
