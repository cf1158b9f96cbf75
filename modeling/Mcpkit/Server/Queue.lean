import Mcpkit.Core.Status
import Mcpkit.Lib.Block
import Mathlib.Order.Nat

/-!
# The message queue

Sessions and messages stand in two arrays used as one ring.  A push moves the contents to the front
before it appends, and doubles full arrays; a pop only moves the head.  So the contents never wrap
around, and copying them in place loses nothing.  Whether a `realloc` fails is an argument.  The
functions have no result where the C program would leave an array or read an unwritten cell.
-/

namespace Mcpkit

open List Block Nat Prod

variable {S M : Type}

def mcpQueueMaxLen : Nat := 1024

structure MessageQueue (S M : Type) where
  sessions : Block S
  msgs : Block M
  head : Nat
  len : Nat
  cap : Nat

def mcpQueueCreate : MessageQueue S M := ⟨.null, .null, 0, 0, 0⟩

/-- The loop of `queue_grow` that moves the contents to the front. -/
def compactLoop (head cap : Nat) : Nat → Nat → Block S → Block M → Option (Block S × Block M)
  | 0, _, sessions, msgs => some (sessions, msgs)
  | left + 1, i, sessions, msgs =>
    if (head + i) % cap = i then compactLoop head cap left (i + 1) sessions msgs
    else do
      let session ← sessions.read ((head + i) % cap)
      let sessions ← sessions.write i session
      let msg ← msgs.read ((head + i) % cap)
      let msgs ← msgs.write i msg
      compactLoop head cap left (i + 1) sessions msgs

def grownCap (cap : Nat) : Nat := if cap = 0 then 8 else cap * 2

/-- The two calls of `realloc` in `queue_grow`. -/
def growArrays (q : MessageQueue S M) (msgsOk sessionsOk : Bool) : MessageQueue S M × Status :=
  if !msgsOk then (q, .noMem)
  else if !sessionsOk then ({ q with msgs := q.msgs.resize (grownCap q.cap) }, .noMem)
  else
    ({ q with
        msgs := q.msgs.resize (grownCap q.cap)
        sessions := q.sessions.resize (grownCap q.cap)
        cap := grownCap q.cap }, .ok)

def queueGrow (q : MessageQueue S M) (msgsOk sessionsOk : Bool) :
    Option (MessageQueue S M × Status) :=
  if q.len < q.cap ∧ q.head = 0 then some (q, .ok)
  else if 0 < q.head then do
    let (sessions, msgs) ← compactLoop q.head q.cap q.len 0 q.sessions q.msgs
    if q.len < q.cap then
      some ({ q with sessions := sessions, msgs := msgs, head := 0 }, .ok)
    else
      some (growArrays { q with sessions := sessions, msgs := msgs, head := 0 } msgsOk sessionsOk)
  else some (growArrays q msgsOk sessionsOk)

/-- The end of `mcp_queue_push`. -/
def MessageQueue.append (q : MessageQueue S M) (session : S) (msg : M) :
    Option (MessageQueue S M) := do
  let sessions ← q.sessions.write ((q.head + q.len) % q.cap) session
  let msgs ← q.msgs.write ((q.head + q.len) % q.cap) msg
  some { q with sessions := sessions, msgs := msgs, len := q.len + 1 }

def mcpQueuePush (q : MessageQueue S M) (session : Option S) (msg : Option M)
    (msgsOk sessionsOk : Bool) : Option (MessageQueue S M × Status) :=
  match session, msg with
  | some session, some msg =>
    if mcpQueueMaxLen ≤ q.len then some (q, .noMem)
    else do
      let (q, status) ← queueGrow q msgsOk sessionsOk
      if status = .ok then
        let q ← q.append session msg
        some (q, .ok)
      else some (q, .noMem)
  | _, _ => some (q, .invalidArgument)

/-- `mcp_queue_pop`, with or without places for its results. -/
def mcpQueuePop (q : MessageQueue S M) (outs : Bool) :
    Option (MessageQueue S M × Except Status (S × M)) :=
  if !outs then some (q, .error .invalidArgument)
  else if q.len = 0 then some (q, .error .notFound)
  else do
    let session ← q.sessions.read q.head
    let msg ← q.msgs.read q.head
    some ({ q with head := (q.head + 1) % q.cap, len := q.len - 1 }, .ok (session, msg))

/-- The pairs in the slots that the loop of `mcp_queue_destroy` visits. -/
def MessageQueue.contentsFrom (q : MessageQueue S M) : Nat → Nat → Option (List (S × M))
  | 0, _ => some []
  | left + 1, i => do
    let session ← q.sessions.read ((q.head + i) % q.cap)
    let msg ← q.msgs.read ((q.head + i) % q.cap)
    let rest ← q.contentsFrom left (i + 1)
    some ((session, msg) :: rest)

def MessageQueue.contents (q : MessageQueue S M) : Option (List (S × M)) := q.contentsFrom q.len 0

/-- The arrays hold the pairs of a list, from the head on and without wrapping around. -/
structure MessageQueue.Represents (q : MessageQueue S M) (l : List (S × M)) : Prop where
  len : q.len = l.length
  unwrapped : q.head + q.len ≤ q.cap
  sessionsSize : q.sessions.size = q.cap
  msgsSize : q.cap ≤ q.msgs.size ∧ q.msgs.size ≤ grownCap q.cap
  sessions : q.sessions.Holds q.head (l.map fst)
  msgs : q.msgs.Holds q.head (l.map snd)
  bounded : l.length ≤ mcpQueueMaxLen

theorem exists_copyDown {α : Type} {b : Block α} {head : Nat} (hhead : 0 < head)
    {done todo : List α}
    {a : α} (hdone : b.Holds 0 done) (htodo : b.Holds (head + done.length) (a :: todo)) :
    ∃ b', b.read (head + done.length) = some a ∧ b.write done.length a = some b' ∧
      b'.size = b.size ∧ b'.Holds 0 (done ++ [a]) ∧
      b'.Holds (head + (done ++ [a]).length) todo := by
  have hlt := htodo.lt_size
  obtain ⟨hread, htodo⟩ := holds_cons.mp htodo
  obtain ⟨b', hwrite⟩ := exists_write (b := b) (i := done.length) (by omega) a
  refine ⟨b', hread, hwrite, size_write hwrite, ?_, ?_⟩
  · exact hdone.write_append (by rwa [Nat.zero_add])
  · rw [length_append, length_singleton, ← Nat.add_assoc]
    exact htodo.write hwrite (.inl (by omega))

/-- The contents do not overlap themselves on the way to the front: what has been copied stands
in front of what has not. -/
theorem exists_compactLoop {head cap : Nat} (hhead : 0 < head) (todo done : List (S × M))
    {sessions : Block S} {msgs : Block M} (hcap : head + done.length + todo.length ≤ cap)
    (hs₁ : sessions.Holds 0 (done.map fst))
    (hs₂ : sessions.Holds (head + done.length) (todo.map fst))
    (hm₁ : msgs.Holds 0 (done.map snd))
    (hm₂ : msgs.Holds (head + done.length) (todo.map snd)) :
    ∃ sessions' msgs',
      compactLoop head cap todo.length done.length sessions msgs = some (sessions', msgs') ∧
        sessions'.size = sessions.size ∧ msgs'.size = msgs.size ∧
        sessions'.Holds 0 ((done ++ todo).map fst) ∧
        msgs'.Holds 0 ((done ++ todo).map snd) := by
  induction todo generalizing done sessions msgs with
  | nil =>
    rw [append_nil]
    exact ⟨sessions, msgs, rfl, rfl, rfl, hs₁, hm₁⟩
  | cons p todo ih =>
    obtain ⟨session, msg⟩ := p
    rw [length_cons] at hcap
    have hsrc : (head + done.length) % cap = head + done.length := mod_eq_of_lt (by omega)
    have hne : head + done.length ≠ done.length := by omega
    rw [← length_map fst] at hs₂
    rw [← length_map snd] at hm₂
    obtain ⟨sessions', hsread, hswrite, hssize, hs₁, hs₂⟩ := exists_copyDown hhead hs₁ hs₂
    obtain ⟨msgs', hmread, hmwrite, hmsize, hm₁, hm₂⟩ := exists_copyDown hhead hm₁ hm₂
    rw [length_map] at hsread hswrite hmread hmwrite
    have hs₁' : sessions'.Holds 0 ((done ++ [(session, msg)]).map fst) := by simpa using hs₁
    have hm₁' : msgs'.Holds 0 ((done ++ [(session, msg)]).map snd) := by simpa using hm₁
    have hsnoc : (done ++ [(session, msg)]).length = done.length + 1 := length_append
    obtain ⟨sessions'', msgs'', hloop, hssize', hmsize', hs, hm⟩ :=
      ih (done ++ [(session, msg)]) (by omega) hs₁' (by simpa using hs₂) hm₁'
        (by simpa using hm₂)
    refine ⟨sessions'', msgs'', ?_, hssize'.trans hssize, hmsize'.trans hmsize, ?_, ?_⟩
    · rw [length_cons, compactLoop, hsrc, if_neg hne]
      simpa [hsread, hswrite, hmread, hmwrite] using hloop
    · simpa using hs
    · simpa using hm

theorem le_grownCap (cap : Nat) : cap ≤ grownCap cap := by
  rw [grownCap]
  split <;> omega

namespace MessageQueue.Represents

variable {q q' : MessageQueue S M} {l : List (S × M)} {status : Status}

theorem create : (mcpQueueCreate : MessageQueue S M).Represents [] where
  len := rfl
  unwrapped := le_refl 0
  sessionsSize := rfl
  msgsSize := ⟨le_refl 0, zero_le _⟩
  sessions := holds_nil _ _
  msgs := holds_nil _ _
  bounded := zero_le _

theorem growArrays (h : q.Represents l) (msgsOk sessionsOk : Bool) :
    ∃ q' status, growArrays q msgsOk sessionsOk = (q', status) ∧ q'.Represents l ∧
      (status = .ok ∧ q'.head = q.head ∧ q'.cap = grownCap q.cap ∨
        status = .noMem ∧ (msgsOk = false ∨ sessionsOk = false)) := by
  have hmsgs : (q.msgs.resize (grownCap q.cap)).Holds q.head (l.map snd) :=
    h.msgs.resize h.msgsSize.2
  have hmsgsSize := size_resize h.msgsSize.2
  have hle := le_grownCap q.cap
  cases msgsOk with
  | false => exact ⟨q, .noMem, rfl, h, .inr ⟨rfl, .inl rfl⟩⟩
  | true =>
    cases sessionsOk with
    | false =>
      refine ⟨_, .noMem, rfl, ?_, .inr ⟨rfl, .inr rfl⟩⟩
      refine ⟨h.len, h.unwrapped, h.sessionsSize, ?_, h.sessions, hmsgs, h.bounded⟩
      exact ⟨hle.trans hmsgsSize.ge, hmsgsSize.le⟩
    | true =>
      have hsize : q.sessions.size ≤ grownCap q.cap := h.sessionsSize.le.trans hle
      refine ⟨_, .ok, rfl, ?_, .inl ⟨rfl, rfl, rfl⟩⟩
      refine ⟨h.len, h.unwrapped.trans hle, size_resize hsize, ?_,
        h.sessions.resize hsize, hmsgs, h.bounded⟩
      exact ⟨hmsgsSize.ge, hmsgsSize.le.trans (le_grownCap _)⟩

theorem queueGrow (h : q.Represents l) (msgsOk sessionsOk : Bool) :
    ∃ q' status, queueGrow q msgsOk sessionsOk = some (q', status) ∧ q'.Represents l ∧
      (status = .ok ∧ q'.head = 0 ∧ q'.len < q'.cap ∨
        status = .noMem ∧ (msgsOk = false ∨ sessionsOk = false)) := by
  have hunwrapped := h.unwrapped
  by_cases hroom : q.len < q.cap ∧ q.head = 0
  · exact ⟨q, .ok, if_pos hroom, h, .inl ⟨rfl, hroom.2, hroom.1⟩⟩
  by_cases hhead : 0 < q.head
  · have hbound : q.head + ([] : List (S × M)).length + l.length ≤ q.cap := by
      rwa [← h.len]
    obtain ⟨sessions, msgs, hloop, hssize, hmsize, hs, hm⟩ :=
      exists_compactLoop hhead l [] hbound
        (holds_nil _ _) h.sessions (holds_nil _ _) h.msgs
    have hlt : q.len < q.cap := by omega
    rw [← h.len, length_nil] at hloop
    refine ⟨⟨sessions, msgs, 0, q.len, q.cap⟩, .ok, ?_, ?_, .inl ⟨rfl, rfl, hlt⟩⟩
    · rw [Mcpkit.queueGrow, if_neg hroom, if_pos hhead, hloop]
      exact if_pos hlt
    · exact ⟨h.len, (Nat.zero_add _).le.trans hlt.le, hssize.trans h.sessionsSize,
        hmsize ▸ h.msgsSize, hs, hm, h.bounded⟩
  · obtain ⟨q', status, hgrow, hrep, hcases⟩ := h.growArrays msgsOk sessionsOk
    refine ⟨q', status, ?_, hrep, ?_⟩
    · rw [Mcpkit.queueGrow, if_neg hroom, if_neg hhead, hgrow]
    obtain ⟨hok, hhead', hcap⟩ | hfailed := hcases
    · refine .inl ⟨hok, by omega, ?_⟩
      rw [hcap, hrep.len, ← h.len, grownCap]
      split <;> omega
    · exact .inr hfailed

theorem append (h : q.Represents l) (hhead : q.head = 0) (hroom : q.len < q.cap)
    (hlen : l.length < mcpQueueMaxLen) (session : S) (msg : M) :
    ∃ q', q.append session msg = some q' ∧ q'.Represents (l ++ [(session, msg)]) := by
  have hslot : (q.head + q.len) % q.cap = q.head + q.len := by
    rw [hhead, Nat.zero_add, Nat.mod_eq_of_lt hroom]
  have hsize := h.sessionsSize
  have hmsgsSize := h.msgsSize.1
  obtain ⟨sessions, hsessions⟩ :=
    exists_write (b := q.sessions) (i := q.head + q.len) (by omega) session
  obtain ⟨msgs, hmsgs⟩ := exists_write (b := q.msgs) (i := q.head + q.len) (by omega) msg
  refine ⟨_, by rw [MessageQueue.append, hslot, hsessions, hmsgs]; rfl, ?_⟩
  constructor
  · simp [h.len]
  · dsimp only
    omega
  · exact (size_write hsessions).trans hsize
  · exact size_write hmsgs ▸ h.msgsSize
  · rw [h.len, ← length_map fst] at hsessions
    simpa using h.sessions.write_append hsessions
  · rw [h.len, ← length_map snd] at hmsgs
    simpa using h.msgs.write_append hmsgs
  · rwa [length_append]

theorem pop {session : S} {msg : M} (h : q.Represents ((session, msg) :: l)) :
    ∃ q', mcpQueuePop q true = some (q', .ok (session, msg)) ∧ q'.Represents l := by
  obtain ⟨hsession, hsessions⟩ := holds_cons.mp h.sessions
  obtain ⟨hmsg, hmsgs⟩ := holds_cons.mp h.msgs
  have hlen := h.len
  have hunwrapped := h.unwrapped
  rw [length_cons] at hlen
  have hpop : mcpQueuePop q true =
      some ({ q with head := (q.head + 1) % q.cap, len := q.len - 1 }, .ok (session, msg)) := by
    have hne : q.len ≠ 0 := by omega
    simp [mcpQueuePop, hne, hsession, hmsg]
  refine ⟨_, hpop, ?_⟩
  have hbounded : l.length ≤ mcpQueueMaxLen := le_of_succ_le h.bounded
  by_cases hend : q.head + 1 = q.cap
  · -- The head wraps around only behind the last pair.
    have hnil : l = [] := eq_nil_of_length_eq_zero (by omega)
    subst hnil
    refine ⟨by simp [hlen], ?_, h.sessionsSize, h.msgsSize, holds_nil _ _, holds_nil _ _, hbounded⟩
    simp [hend, hlen]
  · have hhead : (q.head + 1) % q.cap = q.head + 1 := mod_eq_of_lt (by omega)
    rw [hhead]
    exact ⟨by simp [hlen], by dsimp only; omega, h.sessionsSize, h.msgsSize, hsessions, hmsgs,
      hbounded⟩

theorem push (h : q.Represents l) (hlen : l.length < mcpQueueMaxLen) (session : S) (msg : M)
    (msgsOk sessionsOk : Bool) :
    ∃ q' status, mcpQueuePush q (some session) (some msg) msgsOk sessionsOk = some (q', status) ∧
      (status = .ok ∧ q'.Represents (l ++ [(session, msg)]) ∨
        status = .noMem ∧ (msgsOk = false ∨ sessionsOk = false) ∧ q'.Represents l) := by
  have hroom : ¬mcpQueueMaxLen ≤ q.len := by
    rw [h.len]
    omega
  obtain ⟨grown, status, hgrow, hrep, hcases⟩ := h.queueGrow msgsOk sessionsOk
  obtain ⟨rfl, hhead, hlt⟩ | ⟨rfl, hfails⟩ := hcases
  · obtain ⟨q', happend, hrep'⟩ := hrep.append hhead hlt hlen session msg
    refine ⟨q', .ok, ?_, .inl ⟨rfl, hrep'⟩⟩
    simp [mcpQueuePush, hroom, hgrow, happend]
  · refine ⟨grown, .noMem, ?_, .inr ⟨rfl, hfails, hrep⟩⟩
    simp [mcpQueuePush, hroom, hgrow]

theorem contentsFrom_eq : ∀ {l : List (S × M)} {i : Nat}, q.head + i + l.length ≤ q.cap →
    q.sessions.Holds (q.head + i) (l.map fst) → q.msgs.Holds (q.head + i) (l.map snd) →
      q.contentsFrom l.length i = some l
  | [], _, _, _, _ => rfl
  | (session, msg) :: l, i, hcap, hsessions, hmsgs => by
    obtain ⟨hsession, hsessions⟩ := holds_cons.mp hsessions
    obtain ⟨hmsg, hmsgs⟩ := holds_cons.mp hmsgs
    rw [length_cons] at hcap
    have hslot : (q.head + i) % q.cap = q.head + i := mod_eq_of_lt (by omega)
    have hrest : q.contentsFrom l.length (i + 1) = some l :=
      contentsFrom_eq (by omega) hsessions hmsgs
    simp [contentsFrom, hslot, hsession, hmsg, hrest]

theorem contents_eq (h : q.Represents l) : q.contents = some l := by
  rw [contents, h.len]
  exact contentsFrom_eq (h.len ▸ h.unwrapped) h.sessions h.msgs

end MessageQueue.Represents

/-- The calls, with whether each `realloc` they may make succeeds. -/
inductive QueueOp (S M : Type) where
  | push (session : Option S) (msg : Option M) (msgsOk sessionsOk : Bool)
  | pop (outs : Bool)

/-- What a call returns: a status, with the pair that a pop has taken out. -/
abbrev QueueResult (S M : Type) := Status × Option (S × M)

def queueStep (q : MessageQueue S M) : QueueOp S M → Option (MessageQueue S M × QueueResult S M)
  | .push session msg msgsOk sessionsOk =>
    (mcpQueuePush q session msg msgsOk sessionsOk).map fun r => (r.1, r.2, none)
  | .pop outs => (mcpQueuePop q outs).map fun r =>
    match r.2 with
    | .ok pair => (r.1, .ok, some pair)
    | .error status => (r.1, status, none)

def queueRun (q : MessageQueue S M) :
    List (QueueOp S M) → Option (MessageQueue S M × List (QueueResult S M))
  | [] => some (q, [])
  | op :: ops => do
    let (q, result) ← queueStep q op
    let (q, results) ← queueRun q ops
    some (q, result :: results)

inductive FifoStep : List (S × M) → QueueOp S M → QueueResult S M → List (S × M) → Prop
  | push {l : List (S × M)} {session : S} {msg : M} {msgsOk sessionsOk : Bool}
      (hroom : l.length < mcpQueueMaxLen) :
      FifoStep l (.push (some session) (some msg) msgsOk sessionsOk) (.ok, none)
        (l ++ [(session, msg)])
  | full {l : List (S × M)} {session : S} {msg : M} {msgsOk sessionsOk : Bool}
      (hfull : l.length = mcpQueueMaxLen) :
      FifoStep l (.push (some session) (some msg) msgsOk sessionsOk) (.noMem, none) l
  | noMemory {l : List (S × M)} {session : S} {msg : M} {msgsOk sessionsOk : Bool}
      (hfails : msgsOk = false ∨ sessionsOk = false) :
      FifoStep l (.push (some session) (some msg) msgsOk sessionsOk) (.noMem, none) l
  | badPush {l : List (S × M)} {session : Option S} {msg : Option M} {msgsOk sessionsOk : Bool}
      (hnull : session = none ∨ msg = none) :
      FifoStep l (.push session msg msgsOk sessionsOk) (.invalidArgument, none) l
  | pop {session : S} {msg : M} {l : List (S × M)} :
      FifoStep ((session, msg) :: l) (.pop true) (.ok, some (session, msg)) l
  | empty : FifoStep [] (.pop true) (.notFound, none) []
  | badPop {l : List (S × M)} : FifoStep l (.pop false) (.invalidArgument, none) l

inductive FifoRun : List (S × M) → List (QueueOp S M) → List (QueueResult S M) →
    List (S × M) → Prop
  | nil {l : List (S × M)} : FifoRun l [] [] l
  | cons {l l' l'' : List (S × M)} {op : QueueOp S M} {ops : List (QueueOp S M)}
      {result : QueueResult S M} {results : List (QueueResult S M)}
      (hstep : FifoStep l op result l') (hrun : FifoRun l' ops results l'') :
      FifoRun l (op :: ops) (result :: results) l''

theorem MessageQueue.Represents.step {q : MessageQueue S M} {l : List (S × M)}
    (h : q.Represents l) (op : QueueOp S M) :
    ∃ q' result l', queueStep q op = some (q', result) ∧ FifoStep l op result l' ∧
      q'.Represents l' := by
  cases op with
  | push session msg msgsOk sessionsOk =>
    cases session with
    | none => exact ⟨q, _, l, rfl, .badPush (.inl rfl), h⟩
    | some session =>
      cases msg with
      | none => exact ⟨q, _, l, rfl, .badPush (.inr rfl), h⟩
      | some msg =>
        obtain hroom | hfull := lt_or_eq_of_le h.bounded
        · obtain ⟨q', status, hpush, hcases⟩ := h.push hroom session msg msgsOk sessionsOk
          obtain ⟨rfl, hrep⟩ | ⟨rfl, hfails, hrep⟩ := hcases
          · exact ⟨q', _, _, by rw [queueStep, hpush]; rfl, .push hroom, hrep⟩
          · exact ⟨q', _, _, by rw [queueStep, hpush]; rfl, .noMemory hfails, hrep⟩
        have hlen : mcpQueueMaxLen ≤ q.len := le_of_eq (hfull.symm.trans h.len.symm)
        refine ⟨q, _, l, ?_, .full hfull, h⟩
        rw [queueStep, mcpQueuePush, if_pos hlen]
        rfl
  | pop outs =>
    cases outs with
    | false => exact ⟨q, _, l, rfl, .badPop, h⟩
    | true =>
      cases l with
      | nil =>
        refine ⟨q, (.notFound, none), [], ?_, .empty, h⟩
        have hlen : q.len = 0 := h.len
        simp [queueStep, mcpQueuePop, hlen]
      | cons pair l =>
        obtain ⟨q', hpop, hrep⟩ := h.pop
        exact ⟨q', _, l, by rw [queueStep, hpop]; rfl, .pop, hrep⟩

theorem MessageQueue.Represents.run : ∀ {q : MessageQueue S M} {l : List (S × M)},
    q.Represents l → ∀ ops : List (QueueOp S M), ∃ q' results l',
      queueRun q ops = some (q', results) ∧ FifoRun l ops results l' ∧ q'.Represents l'
  | q, l, h, [] => ⟨q, [], l, rfl, .nil, h⟩
  | q, l, h, op :: ops => by
    obtain ⟨q', result, l', hstep, hfifo, hrep⟩ := h.step op
    obtain ⟨q'', results, l'', hrun, hfifos, hrep'⟩ := hrep.run ops
    exact ⟨q'', result :: results, l'', by simp [queueRun, hstep, hrun], .cons hfifo hfifos, hrep'⟩

/-- Every sequence of calls is defined and has the results of a bounded FIFO, whichever
`realloc` fails. -/
theorem queueRun_fifo (ops : List (QueueOp S M)) :
    ∃ q results l, queueRun mcpQueueCreate ops = some (q, results) ∧ q.contents = some l ∧
      l.length ≤ mcpQueueMaxLen ∧ FifoRun [] ops results l := by
  obtain ⟨q, results, l, hrun, hfifo, hrep⟩ := MessageQueue.Represents.create.run ops
  exact ⟨q, results, l, hrun, hrep.contents_eq, hrep.bounded, hfifo⟩

end Mcpkit
