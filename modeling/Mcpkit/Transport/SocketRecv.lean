import Mcpkit.Transport.Stdio

/-!
# Lines from a socket

`sock_recv` keeps what it has read and not yet returned in a carry buffer.  A call
returns the first line of the buffer and moves the rest to its front; without a
line feed in the buffer it reads on.  A call that times out leaves the buffer as it
is, so the next call goes on where it stopped.

The buffer grows by doubling.  That its contents fit is part of its type.
-/

namespace Mcpkit.Transport.Sock

open Json Protocol Stdio List Lines Nat

/-- The loop that doubles a capacity until it suffices. -/
def doubleCap : Nat → Nat → Nat → Nat
  | 0, cap, _ => cap
  | fuel + 1, cap, need => if cap < need then doubleCap fuel (cap * 2) need else cap

/-- The capacity for `need` bytes; `need` rounds of the loop are enough. -/
def growCap (cap need : Nat) : Nat :=
  if cap < need then doubleCap need (if cap = 0 then 512 else cap * 2) need else cap

theorem le_doubleCap {fuel cap need : Nat} (hcap : 0 < cap) (h : need ≤ cap + fuel) :
    need ≤ doubleCap fuel cap need := by
  induction fuel generalizing cap with
  | zero => exact h
  | succ fuel ih =>
    rw [doubleCap]
    split
    · apply ih
      · omega
      · omega
    · omega

theorem le_growCap (cap need : Nat) : need ≤ growCap cap need := by
  rw [growCap]
  split
  · apply le_doubleCap
    · split <;> omega
    · omega
  · omega

/-- `socket_backend_t` on an open descriptor. -/
structure SocketBackend where
  carry : Bytes
  carryCap : Nat
  fits : carry.length ≤ carryCap

namespace SocketBackend

def create : SocketBackend := ⟨[], 0, le_refl 0⟩

def append (b : SocketBackend) (chunk : Bytes) : SocketBackend where
  carry := b.carry ++ chunk
  carryCap := growCap b.carryCap (b.carry.length + chunk.length)
  fits := by
    rw [length_append]
    exact le_growCap _ _

def dropLine (b : SocketBackend) : SocketBackend where
  carry := behindLf b.carry
  carryCap := b.carryCap
  fits := by
    have hsub : (behindLf b.carry).Sublist b.carry := (drop_sublist 1 _).trans (dropWhile_sublist _)
    exact hsub.length_le.trans b.fits

def clear (b : SocketBackend) : SocketBackend := ⟨[], b.carryCap, zero_le _⟩

end SocketBackend

def recvLoop (b : SocketBackend) (reads : List Read) :
    Except Status Bytes × SocketBackend × List Read :=
  if lf ∈ b.carry then (.ok (stripCr (beforeLf b.carry)), b.dropLine, reads)
  else if mcpProtocolMaxMessageBytes ≤ b.carry.length then (.error .protocol, b, reads)
  else
    match reads with
    | [] => (atEnd b.carry, b.clear, [])
    | .unready status :: reads => (.error status, b, reads)
    | .interrupted :: reads => recvLoop b reads
    | .failed :: reads => (.error .io, b, reads)
    | .data chunk :: reads =>
      if chunk = [] then (atEnd b.carry, b.clear, reads) else recvLoop (b.append chunk) reads

def sockRecv (b : SocketBackend) (reads : List Read) :
    Except Status Bytes × SocketBackend × List Read :=
  recvLoop b reads

def sockCalls : Nat → SocketBackend → List Read → List (Except Status Bytes)
  | 0, _, _ => []
  | calls + 1, b, reads =>
    (sockRecv b reads).1 :: sockCalls calls (sockRecv b reads).2.1 (sockRecv b reads).2.2

def readBytes : Read → Bytes
  | .data chunk => chunk
  | _ => []

def streamOf (reads : List Read) : Bytes := reads.flatMap readBytes

@[simp] theorem streamOf_nil : streamOf [] = [] := rfl

@[simp] theorem streamOf_cons (r : Read) (reads : List Read) :
    streamOf (r :: reads) = readBytes r ++ streamOf reads := flatMap_cons

/-- A read that neither fails nor ends the stream: some bytes, a signal or a timeout. -/
def Ordinary : Read → Prop
  | .data chunk => chunk ≠ []
  | .interrupted => True
  | .failed => False
  | .unready status => status = .timeout

/-- Every line, and what stands behind the last one, is below the limit. -/
def Below (line s : Bytes) : Prop :=
  (∀ l ∈ complete lf line s, l.length < mcpProtocolMaxMessageBytes) ∧
    (remainder lf line s).length < mcpProtocolMaxMessageBytes

/-- The lines of a stream, then what stands behind the last one. -/
def streamResults (line s : Bytes) : List (Except Status Bytes) :=
  okLines line s ++
    if remainder lf line s = [] then [] else [.ok (stripCr (remainder lf line s))]

variable {s : Bytes} {b : SocketBackend} {reads : List Read} {n : Nat}

theorem Below.append_right {line t : Bytes} (h : Below line (t ++ s)) :
    Below (remainder lf line t) s := by
  rw [Below, complete_append, remainder_append] at h
  exact ⟨fun l hl => h.1 l (mem_append_right _ hl), h.2⟩

theorem Below.length_lt {line : Bytes} (h : Below line s) :
    line.length < mcpProtocolMaxMessageBytes := by
  by_cases hlf : lf ∈ s
  · obtain ⟨pre, post, rfl, hpre⟩ := eq_append_cons_of_mem hlf
    have hfirst := h.1 (line ++ pre) (by simp [complete_append_sep hpre])
    rw [length_append] at hfirst
    omega
  · have hrest := h.2
    rw [remainder_of_notMem hlf, length_append] at hrest
    omega

theorem streamResults_append_lf {pre : Bytes} (h : lf ∉ pre) (s : Bytes) :
    streamResults [] (pre ++ lf :: s) = .ok (stripCr pre) :: streamResults [] s := by
  simp [streamResults, okLines, complete_append_sep h, remainder_append_sep h]

def timeouts (reads : List Read) : Nat := reads.count (.unready .timeout)

@[simp] theorem timeouts_data (chunk : Bytes) (reads : List Read) :
    timeouts (.data chunk :: reads) = timeouts reads := by
  simp [timeouts]

@[simp] theorem timeouts_interrupted (reads : List Read) :
    timeouts (.interrupted :: reads) = timeouts reads := by
  simp [timeouts]

@[simp] theorem timeouts_unready (reads : List Read) :
    timeouts (.unready .timeout :: reads) = timeouts reads + 1 := by
  simp [timeouts]

/-- The buffer and the reads still hold a stream, with a number of timeouts. -/
structure Pending (s : Bytes) (n : Nat) (b : SocketBackend) (reads : List Read) : Prop where
  ordinary : ∀ r ∈ reads, Ordinary r
  bytes : b.carry ++ streamOf reads = s
  timeouts : timeouts reads = n

/-- What a call does: it times out and loses nothing, it returns what comes first, or nothing is
left. -/
inductive Outcome (s : Bytes) (n : Nat) :
    Except Status Bytes × SocketBackend × List Read → Prop where
  | timeout {n' : Nat} {b : SocketBackend} {reads : List Read} (hn : n = n' + 1)
      (h : Pending s n' b reads) : Outcome s n (.error .timeout, b, reads)
  | line {l s' : Bytes} {b : SocketBackend} {reads : List Read}
      (hs : streamResults [] s = .ok l :: streamResults [] s') (hbelow : Below [] s')
      (h : Pending s' n b reads) : Outcome s n (.ok l, b, reads)
  | closed {b : SocketBackend} (hs : s = []) (h : Pending [] n b []) :
      Outcome s n (.error .io, b, [])

theorem Pending.tail {r : Read} (h : Pending s n b (r :: reads)) : ∀ r' ∈ reads, Ordinary r' :=
  fun r' hr' => h.ordinary r' (mem_cons_of_mem r hr')

theorem Pending.not_full (hbelow : Below [] s) (h : Pending s n b reads) (hlf : lf ∉ b.carry) :
    ¬mcpProtocolMaxMessageBytes ≤ b.carry.length := by
  rw [← h.bytes] at hbelow
  have hlt := hbelow.append_right.length_lt
  rw [remainder_of_notMem hlf, nil_append] at hlt
  exact not_le.mpr hlt

theorem outcome_of_mem (hbelow : Below [] s) (h : Pending s n b reads) (hlf : lf ∈ b.carry) :
    Outcome s n (.ok (stripCr (beforeLf b.carry)), b.dropLine, reads) := by
  obtain ⟨pre, post, hcarry, hpre⟩ := eq_append_cons_of_mem hlf
  have hs : s = (pre ++ [lf]) ++ (post ++ streamOf reads) := by
    rw [← h.bytes, hcarry]
    simp
  have hdrop : b.dropLine.carry = post :=
    (congrArg behindLf hcarry).trans (behindLf_append_lf hpre post)
  have hfirst : streamResults [] s =
      .ok (stripCr pre) :: streamResults [] (post ++ streamOf reads) := by
    rw [hs, append_assoc]
    exact streamResults_append_lf hpre _
  have hrest : Below [] (post ++ streamOf reads) := by
    rw [hs] at hbelow
    have hright := hbelow.append_right
    rwa [remainder_append_sep hpre] at hright
  rw [beforeLf, hcarry, takeWhile_append_lf hpre]
  exact .line hfirst hrest ⟨h.ordinary, by rw [hdrop], h.timeouts⟩

theorem outcome_atEnd (h : Pending s n b []) (hlf : lf ∉ b.carry) :
    Outcome s n (atEnd b.carry, b.clear, []) := by
  have hs : b.carry = s := by simpa using h.bytes
  have hclear : Pending [] n b.clear [] := ⟨h.ordinary, rfl, h.timeouts⟩
  rw [atEnd]
  split
  next hnil => exact .closed (hs ▸ hnil) hclear
  next hne =>
    have hrest : streamResults [] s = .ok (stripCr b.carry) :: streamResults [] [] := by
      rw [hs] at hlf hne ⊢
      simp [streamResults, okLines, complete_of_notMem hlf, remainder_of_notMem hlf, hne]
    refine .line hrest ⟨?_, ?_⟩ hclear
    · simp
    · simp [mcpProtocolMaxMessageBytes]

/-- A call on a stream whose lines are below the limit.  The induction is on the reads; a read that
the loop goes on behind leaves the stream that is pending as it is. -/
theorem outcome_recvLoop (hbelow : Below [] s) (h : Pending s n b reads) :
    Outcome s n (recvLoop b reads) := by
  induction reads generalizing b with
  | nil =>
    rw [recvLoop.eq_def]
    by_cases hlf : lf ∈ b.carry
    · rw [if_pos hlf]
      exact outcome_of_mem hbelow h hlf
    · rw [if_neg hlf, if_neg (h.not_full hbelow hlf)]
      exact outcome_atEnd h hlf
  | cons r reads ih =>
    rw [recvLoop.eq_def]
    by_cases hlf : lf ∈ b.carry
    · rw [if_pos hlf]
      exact outcome_of_mem hbelow h hlf
    rw [if_neg hlf, if_neg (h.not_full hbelow hlf)]
    have hr := h.ordinary r mem_cons_self
    have hbytes := h.bytes
    have hcount := h.timeouts
    rw [streamOf_cons] at hbytes
    cases r with
    | failed => exact hr.elim
    | interrupted => exact ih ⟨h.tail, hbytes, (timeouts_interrupted reads).symm.trans hcount⟩
    | unready status =>
      obtain rfl : status = .timeout := hr
      exact .timeout (hcount.symm.trans (timeouts_unready reads)) ⟨h.tail, hbytes, rfl⟩
    | data chunk =>
      have hne : chunk ≠ [] := hr
      have hnext : Pending s n (b.append chunk) reads := by
        refine ⟨h.tail, ?_, (timeouts_data chunk reads).symm.trans hcount⟩
        rw [← hbytes]
        exact append_assoc b.carry chunk _
      simpa only [if_neg hne] using ih hnext

theorem calls_of_pending (hbelow : Below [] s) (h : Pending s n b reads) (calls : Nat) :
    ∃ k, calls ≤ k + n ∧ (sockCalls calls b reads).filter (· ≠ .error .timeout) =
      (streamResults [] s).takeD k (.error .io) := by
  induction calls generalizing s n b reads with
  | zero => exact ⟨0, zero_le _, rfl⟩
  | succ calls ih =>
    have hcall : Outcome s n (sockRecv b reads) := outcome_recvLoop hbelow h
    rw [sockCalls]
    generalize sockRecv b reads = out at hcall
    cases hcall with
    | timeout hn hnext =>
      obtain ⟨k, hk, heq⟩ := ih hbelow hnext
      refine ⟨k, by omega, ?_⟩
      rw [filter_cons_of_neg (by simp), heq]
    | line hs hrest hnext =>
      obtain ⟨k, hk, heq⟩ := ih hrest hnext
      refine ⟨k + 1, by omega, ?_⟩
      rw [filter_cons_of_pos (by simp), heq, hs]
      rfl
    | closed hs hnext =>
      have hnil : Below [] [] := hs ▸ hbelow
      obtain ⟨k, hk, heq⟩ := ih hnil hnext
      refine ⟨k + 1, by omega, ?_⟩
      rw [filter_cons_of_pos (by simp), heq, hs]
      rfl

/-- However a stream is cut into reads, with timeouts between them, the calls that do not time out
return the lines of the stream, what stands behind the last one, if anything, and then `MCP_ERR_IO`.
There are no more timeouts than the reads have. -/
theorem sockCalls_streamResults {reads : List Read} (hreads : ∀ r ∈ reads, Ordinary r)
    (hbelow : Below [] (streamOf reads)) (calls : Nat) :
    ∃ k, calls ≤ k + timeouts reads ∧
      (sockCalls calls .create reads).filter (· ≠ .error .timeout) =
        (streamResults [] (streamOf reads)).takeD k (.error .io) :=
  calls_of_pending hbelow ⟨hreads, rfl, rfl⟩ calls

/-- Two lines in three reads, with a timeout inside the second. -/
theorem sockCalls_splitLine :
    ∃ k, 4 ≤ k + 1 ∧
      (sockCalls 4 .create [.data [0x61, cr, lf, 0x62], .unready .timeout, .data [0x63]]).filter
          (· ≠ .error .timeout) =
        List.takeD k [.ok [0x61], .ok [0x62, 0x63]] (.error .io) := by
  have hreads : ∀ r ∈ [Read.data [0x61, cr, lf, 0x62], .unready .timeout, .data [0x63]],
      Ordinary r := by
    simp [Ordinary]
  have hbelow : Below [] (streamOf
      [.data [0x61, cr, lf, 0x62], .unready .timeout, .data [0x63]]) := by
    constructor <;> decide
  exact sockCalls_streamResults hreads hbelow 4

/-- A carriage return at the end of the stream is left out as well. -/
theorem sockCalls_remainder_cr :
    remainder lf [] [0x61, cr] = [0x61, cr] ∧
      sockCalls 2 .create [.data [0x61, cr]] = [.ok [0x61], .error .io] := by
  decide

end Mcpkit.Transport.Sock
