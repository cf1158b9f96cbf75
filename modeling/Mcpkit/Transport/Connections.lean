import Mcpkit.Lib.Machine

/-!
# The connections of the asynchronous server

`on_accept` puts every connection that it accepts into a list and counts it, and
`conn_detach_and_close` takes it off.  Several paths may call that for one connection, also at the
same time: the first call sets the flag `detached`, the others return.  The counter is the length of
the list in every run; the limit of the configuration is never compared with it.
-/

namespace Mcpkit.Transport.Async

open List Machine Nat

/-- The connections of `mcp_async_server`, numbered in the order of acceptance; `closing` holds the
calls that have set the flag and have not reached the list. -/
structure Connections where
  conns : List Nat
  connsCount : Nat
  detached : List Nat
  closing : List Nat
  accepted : Nat
  deriving DecidableEq

def Connections.initial : Connections := ⟨[], 0, [], [], 0⟩

/-- A round of the loop in `on_accept`, with whether the connection could be allocated, and the two
halves of `conn_detach_and_close`. -/
inductive ConnEvent where
  | accept (allocated : Bool)
  | mark (conn : Nat)
  | unlink (conn : Nat)
  deriving DecidableEq

namespace Connections

def step (s : Connections) : ConnEvent → Connections
  | .accept allocated =>
    if allocated then
      { s with
        conns := s.accepted :: s.conns, connsCount := s.connsCount + 1, accepted := s.accepted + 1 }
    else s
  | .mark conn =>
    if conn < s.accepted ∧ conn ∉ s.detached then
      { s with detached := conn :: s.detached, closing := conn :: s.closing }
    else s
  | .unlink conn =>
    if conn ∈ s.closing then
      { s with
        conns := s.conns.erase conn
        connsCount := if 0 < s.connsCount then s.connsCount - 1 else s.connsCount
        closing := s.closing.erase conn }
    else s

def machine (s : Connections) (ev : ConnEvent) : Connections × Unit := (s.step ev, ())

/-- A connection is in the list until the one call that marks it has taken it off. -/
structure Counted (s : Connections) : Prop where
  count_eq : s.connsCount = s.conns.length
  listed : ∀ conn < s.accepted, conn ∉ s.detached → conn ∈ s.conns
  closing_mem : ∀ conn ∈ s.closing, conn ∈ s.conns ∧ conn ∈ s.detached
  closing_nodup : s.closing.Nodup

variable {s : Connections}

theorem Counted.step (h : Counted s) (ev : ConnEvent) : Counted (s.step ev) := by
  obtain ⟨hcount, hlisted, hclosing, hnodup⟩ := h
  cases ev with
  | accept allocated =>
    rw [Connections.step]
    split
    · refine ⟨congrArg (· + 1) hcount, fun conn hlt hopen => ?_, fun conn hmem => ?_, hnodup⟩
      · rcases Nat.lt_succ_iff_lt_or_eq.mp hlt with hold | rfl
        · exact mem_cons_of_mem _ (hlisted conn hold hopen)
        · exact mem_cons_self
      · exact ⟨mem_cons_of_mem _ (hclosing conn hmem).1, (hclosing conn hmem).2⟩
    · exact ⟨hcount, hlisted, hclosing, hnodup⟩
  | mark conn =>
    rw [Connections.step]
    split
    next hopen =>
      refine ⟨hcount, fun c hlt hc => hlisted c hlt fun hmem => hc (mem_cons_of_mem _ hmem), ?_, ?_⟩
      · intro c hc
        rcases mem_cons.mp hc with rfl | hc
        · exact ⟨hlisted c hopen.1 hopen.2, mem_cons_self⟩
        · exact ⟨(hclosing c hc).1, mem_cons_of_mem _ (hclosing c hc).2⟩
      · exact nodup_cons.mpr ⟨fun hmem => hopen.2 (hclosing conn hmem).2, hnodup⟩
    · exact ⟨hcount, hlisted, hclosing, hnodup⟩
  | unlink conn =>
    rw [Connections.step]
    split
    next hmem =>
      obtain ⟨hconn, hdetached⟩ := hclosing conn hmem
      have hpos := length_pos_of_mem hconn
      refine ⟨?_, fun c hlt hc => ?_, fun c hc => ?_, hnodup.erase conn⟩
      · dsimp only
        rw [if_pos (by omega), length_erase_of_mem hconn, hcount]
      · have hne : c ≠ conn := fun heq => hc (heq ▸ hdetached)
        exact (mem_erase_of_ne hne).mpr (hlisted c hlt hc)
      · obtain ⟨hne, hc⟩ := hnodup.mem_erase_iff.mp hc
        exact ⟨(mem_erase_of_ne hne).mpr (hclosing c hc).1, (hclosing c hc).2⟩
    · exact ⟨hcount, hlisted, hclosing, hnodup⟩

/-- The limit of a configuration: `max_connections`, where 0 stands for 10000. -/
def limit (maxConnections : Nat) : Nat := if maxConnections = 0 then 10000 else maxConnections

def BelowLimit (n : Nat) (s : Connections) (ev : ConnEvent) : Prop :=
  ev = .accept true → s.conns.length < limit n

instance (n : Nat) (s : Connections) (ev : ConnEvent) : Decidable (BelowLimit n s ev) :=
  inferInstanceAs (Decidable (_ → _))

theorem length_step_le_iff {n : Nat} (h : s.conns.length ≤ limit n) (ev : ConnEvent) :
    (s.step ev).conns.length ≤ limit n ↔ BelowLimit n s ev := by
  cases ev with
  | accept allocated =>
    cases allocated with
    | true => exact ⟨fun hle _ => hle, fun hlt => hlt rfl⟩
    | false => exact iff_of_true h nofun
  | mark conn =>
    rw [step]
    split <;> exact iff_of_true h nofun
  | unlink conn =>
    rw [step]
    split
    · exact iff_of_true (Nat.le_trans length_erase_le h) nofun
    · exact iff_of_true h nofun

/-- In every run the counter is the length of the list, and the list keeps within the limit all
along exactly if no connection is accepted at the limit. -/
theorem exec_within_limit_iff (n : Nat) (evs : List ConnEvent) :
    (exec machine initial evs).connsCount =
        (exec machine initial evs).conns.length ∧
      ((∀ before after, evs = before ++ after →
          (exec machine initial before).conns.length ≤ limit n) ↔
        Admissible machine (BelowLimit n) initial evs) := by
  constructor
  · have hinitial : Counted initial :=
      ⟨rfl, fun _ hlt => absurd hlt (not_lt_zero _), by simp [initial], nodup_nil⟩
    exact (exec_invariant (fun s ev h => h.step ev) hinitial evs : Counted _).count_eq
  · exact forall_exec_iff_admissible (I := fun s => (conns s).length ≤ limit n)
      (fun s ev h => length_step_le_iff h ev) (zero_le _)

/-- Two connections with a limit of one. -/
theorem exec_above_limit :
    (exec machine initial [.accept true, .accept true]).conns.length = 2 ∧ limit 1 = 1 := by
  decide

end Connections

end Mcpkit.Transport.Async
