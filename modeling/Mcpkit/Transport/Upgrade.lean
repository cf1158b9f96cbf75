import Mcpkit.Transport.Reassembly
import Mcpkit.Transport.RequestText
import Mcpkit.Transport.WorkerReplies

/-!
# An upgrade and the frames behind it

A request for an upgrade to WebSocket may arrive in one read with frames behind it.  They stay in
the buffer and are looked at with the next read, if there is one.  So the messages that are
submitted depend on the cut of the stream: all of them if the request was complete before the last
read, none otherwise.
-/

namespace Mcpkit.Transport.Async

open Json Protocol List Machine Nat

variable {W : Type}

def Event.chunk : Event W → Option Bytes
  | .read chunk => some chunk
  | _ => none

def reads (evs : List (Event W)) : List Bytes := evs.filterMap Event.chunk

/-- The reads of a run bring a stream of bytes, and no error of the socket closes the connection. -/
structure Brings (evs : List (Event W)) (stream : Bytes) : Prop where
  noFail : ∀ ev ∈ evs, ev ≠ .fail
  nonempty : ∀ chunk ∈ reads evs, chunk ≠ []
  stream : (reads evs).flatten = stream

/-- The request is complete only with the last read. -/
def Hung (q : RequestText) (cs : List Bytes) : Prop := cs.dropLast.flatten.length < q.bytes.length

instance (q : RequestText) (cs : List Bytes) : Decidable (Hung q cs) :=
  inferInstanceAs (Decidable (_ < _))

def State.payloads (st : State) : List Bytes := st.submitted.map Task.jsonBody

/-- A connection that has received some bytes and done nothing else. -/
def waitingState (cfg : Config) (shared : Shared) (cap : Nat) (seen : Bytes) : State :=
  { State.accepted cfg shared with conn := { Conn.accepted with readBuf := seen, readCap := cap } }

/-- The connection has been upgraded, and nobody has looked at the bytes behind the request. -/
def JustUpgraded (rest : Bytes) (st : State) : Prop :=
  OpenWs st ∧ st.conn.readBuf = rest ∧ ∃ session, st.assembly = ⟨session, none, []⟩

/-- Where a connection stands that has received these pieces. -/
def Stage (cfg : Config) (q : RequestText) (cs : List Bytes) (st : State) : Prop :=
  if cs.flatten.length < q.bytes.length then
    ∃ shared cap, st = waitingState cfg shared cap cs.flatten
  else if Hung q cs then JustUpgraded (cs.flatten.drop q.bytes.length) st
  else ∃ session, Follows ⟨session, none, []⟩ (cs.flatten.drop q.bytes.length) st

/-- The server accepts the upgrade that the request asks for. -/
def UpgradeAccepted (cfg : Config) (req : HttpRequest) : Prop :=
  ∃ acceptKey, upgradeBranch cfg req = .upgrade acceptKey

theorem upgradeBranch_eq_error {cfg : Config} {req : HttpRequest} (h : ¬UpgradeAccepted cfg req) :
    ∃ code msg, upgradeBranch cfg req = .error code msg := by
  rw [UpgradeAccepted] at h
  rw [upgradeBranch] at h ⊢
  split
  · exact ⟨_, _, rfl⟩
  next henabled =>
    rw [if_neg henabled] at h
    split
    · exact ⟨_, _, rfl⟩
    next key hkey =>
      rw [hkey] at h
      dsimp only at h
      split
      · exact ⟨_, _, rfl⟩
      next acceptKey haccept =>
        rw [haccept] at h
        exact absurd ⟨acceptKey, rfl⟩ h

variable {st : State} {behind later seen : Bytes}

section

variable {cfg : Config} {q : RequestText}

theorem justUpgraded_processAndSlide (hq : q.WellFormed) (hwants : wantsUpgrade q.request = true)
    (haccepted : UpgradeAccepted cfg q.request) (shared : Shared) (cap : Nat) (rest : Bytes) :
    JustUpgraded rest (waitingState cfg shared cap (q.bytes ++ rest)).processAndSlide := by
  obtain ⟨acceptKey, hkey⟩ := haccepted
  have hscan : scanRequest (waitingState cfg shared cap (q.bytes ++ rest)).conn.readBuf =
      .request q.head.length q.bytes.length q.request := RequestText.scanRequest_bytes hq rest
  have hbranch : ∀ bodyOnwards, requestBranch cfg shared q.request bodyOnwards =
      .upgrade acceptKey := by
    intro bodyOnwards
    rw [requestBranch, if_pos hwants, hkey]
  rw [State.processAndSlide_of_upgrade hscan (hbranch _) rfl]
  refine ⟨⟨rfl, rfl, rfl, ?_⟩, ?_, some shared.created, rfl⟩
  · intro item hitem
    rw [mem_singleton.mp hitem]
  · exact drop_left

theorem processAndSlide_part (hq : q.WellFormed) {part rest : Bytes}
    (hsplit : part ++ rest = q.bytes)
    (hne : rest ≠ []) (shared : Shared) (cap : Nat) :
    (waitingState cfg shared cap part).processAndSlide = waitingState cfg shared cap part :=
  State.processAndSlide_of_wait (RequestText.scanRequest_part hq hsplit hne) rfl

theorem exists_onRead_waitingState {shared : Shared} {cap : Nat}
    (hroom : State.growRead (waitingState cfg shared cap seen).conn ≠ none) (chunk : Bytes) :
    ∃ cap', (waitingState cfg shared cap seen).onRead chunk =
      (waitingState cfg shared cap' (seen ++ chunk)).processAndSlide := by
  obtain ⟨cap', hread⟩ := State.onRead_of_httpInit rfl hroom chunk
  exact ⟨cap', hread⟩

theorem hung_concat (cs : List Bytes) (chunk : Bytes) :
    Hung q (cs ++ [chunk]) ↔ cs.flatten.length < q.bytes.length := by
  rw [Hung, dropLast_concat]

theorem Stage.read (hq : q.WellFormed) (hwants : wantsUpgrade q.request = true)
    (haccepted : UpgradeAccepted cfg q.request) {cs : List Bytes} (h : Stage cfg q cs st)
    {chunk : Bytes} [Libc] (hroom : HasRoom st (.read chunk : Event W))
    (hstream : (cs ++ [chunk]).flatten ++ later = q.bytes ++ behind) :
    Stage cfg q (cs ++ [chunk]) (st.step (.read chunk : Event W)) := by
  have hflatten : (cs ++ [chunk]).flatten = cs.flatten ++ chunk := by
    rw [flatten_append, flatten_singleton]
  rw [Stage] at h ⊢
  rw [hflatten] at hstream ⊢
  by_cases hbefore : cs.flatten.length < q.bytes.length
  · rw [if_pos hbefore] at h
    obtain ⟨shared, cap, rfl⟩ := h
    obtain ⟨cap', hread⟩ := exists_onRead_waitingState (hroom rfl chunk rfl) chunk
    have hstep : (waitingState cfg shared cap cs.flatten).step (.read chunk : Event W) =
        (waitingState cfg shared cap' (cs.flatten ++ chunk)).processAndSlide := hread
    rw [hstep, if_pos ((hung_concat cs chunk).mpr hbefore)]
    by_cases hpart : (cs.flatten ++ chunk).length < q.bytes.length
    · -- the request is not complete yet
      rw [if_pos hpart]
      obtain ⟨rest, hrest⟩ : cs.flatten ++ chunk <+: q.bytes :=
        prefix_of_prefix_length_le ⟨later, hstream⟩ ⟨behind, rfl⟩ (le_of_lt hpart)
      refine ⟨shared, cap', processAndSlide_part hq hrest ?_ shared cap'⟩
      rintro rfl
      rw [← hrest, append_nil] at hpart
      exact lt_irrefl _ hpart
    · rw [if_neg hpart]
      obtain ⟨rest, hrest⟩ : q.bytes <+: cs.flatten ++ chunk :=
        prefix_of_prefix_length_le ⟨behind, rfl⟩ ⟨later, hstream⟩ (not_lt.mp hpart)
      rw [← hrest, drop_left]
      exact justUpgraded_processAndSlide hq hwants haccepted shared cap' rest
  have hlong : ¬(cs.flatten ++ chunk).length < q.bytes.length := by
    rw [length_append]
    omega
  rw [if_neg hbefore] at h
  rw [if_neg hlong, if_neg (mt (hung_concat cs chunk).mp hbefore),
    drop_append_of_le_length (not_lt.mp hbefore)]
  split at h
  next hhung =>
    obtain ⟨hopen, hrest, session, hassembly⟩ := h
    refine ⟨session, ?_⟩
    have hfollows := hopen.onRead (hroom hopen.detached chunk rfl) chunk
    rw [hrest, hassembly] at hfollows
    rwa [State.step, hopen.detached, if_neg Bool.false_ne_true]
  next hhung =>
    obtain ⟨session, hfollows⟩ := h
    have hfail : (.read chunk : Event W) ≠ .fail := by
      intro heq
      cases heq
    exact ⟨session, hfollows.step hfail hroom⟩

theorem Stage.quiet {cs : List Bytes} (h : Stage cfg q cs st) [Libc] {ev : Event W}
    (hfail : ev ≠ .fail) (hread : ∀ chunk, ev ≠ .read chunk) : Stage cfg q cs (st.step ev) := by
  rw [Stage] at h ⊢
  split at h
  next hbefore =>
    rw [if_pos hbefore]
    obtain ⟨shared, cap, rfl⟩ := h
    cases ev with
    | read chunk => exact absurd rfl (hread chunk)
    | fail => exact absurd rfl hfail
    | others shared' => exact ⟨shared', cap, rfl⟩
    | write n | drain | complete i srv s => exact ⟨shared, cap, rfl⟩
  next hbefore =>
    rw [if_neg hbefore]
    split at h
    next hhung =>
      obtain ⟨hopen, hrest, session, hassembly⟩ := h
      obtain ⟨hopen', hrest', hassembly'⟩ := hopen.step hfail hread
      rw [if_pos hhung]
      exact ⟨hopen', hrest'.trans hrest, session, hassembly'.trans hassembly⟩
    next hhung =>
      obtain ⟨session, hfollows⟩ := h
      have hnext := hfollows.step hfail fun _ chunk heq => absurd heq (hread chunk)
      rw [Event.bytes_eq_nil hread, append_nil] at hnext
      rw [if_neg hhung]
      exact ⟨session, hnext⟩

theorem reads_concat (evs : List (Event W)) (ev : Event W) :
    reads (evs ++ [ev]) = reads evs ++ ev.chunk.toList := by
  rw [reads, filterMap_append]
  cases ev <;> rfl

variable [Libc]

theorem stage_exec (hq : q.WellFormed) (hwants : wantsUpgrade q.request = true)
    (haccepted : UpgradeAccepted cfg q.request) (shared : Shared) {evs : List (Event W)}
    (hfail : ∀ ev ∈ evs, ev ≠ .fail)
    (hroom : Admissible State.machine HasRoom (State.accepted cfg shared) evs)
    (hstream : (reads evs).flatten ++ later = q.bytes ++ behind) :
    Stage cfg q (reads evs) (exec State.machine (State.accepted cfg shared) evs) := by
  induction evs using List.reverseRecOn generalizing later with
  | nil =>
    have hpos : (reads ([] : List (Event W))).flatten.length < q.bytes.length := by
      have hlen := RequestText.length_bytes q
      change 0 < _
      omega
    rw [Stage, if_pos hpos]
    exact ⟨shared, 0, rfl⟩
  | append_singleton evs ev ih =>
    rw [admissible_append] at hroom
    rw [reads_concat] at hstream ⊢
    rw [exec_append]
    have hbefore : (reads evs).flatten ++ (ev.chunk.toList.flatten ++ later) =
        q.bytes ++ behind := by
      rwa [← append_assoc, ← flatten_append]
    have hstage := ih (fun ev' hev' => hfail ev' (mem_append_left _ hev')) hroom.1 hbefore
    have hlast : ev ≠ .fail := hfail ev (mem_append_right _ mem_cons_self)
    by_cases hread : ∀ chunk, ev ≠ .read chunk
    · have hchunk : ev.chunk = none := by
        cases ev with
        | read chunk => exact absurd rfl (hread chunk)
        | _ => rfl
      rw [hchunk, Option.toList_none, append_nil]
      exact hstage.quiet hlast hread
    · obtain ⟨chunk, rfl⟩ := not_forall_not.mp hread
      exact hstage.read hq hwants haccepted hroom.2.1 hstream

end

theorem legal_of_fin {fs : List WsFrame} (hfs : ∀ f ∈ fs, f.opcode = .text ∧ f.fin = true) :
    Legal fs (fs.map fun f => [f.payload]) none := by
  induction fs using List.reverseRecOn with
  | nil => exact .nil
  | append_singleton fs f ih =>
    obtain ⟨htext, hfin⟩ := hfs f (mem_append_right fs mem_cons_self)
    rw [map_append]
    exact .whole (ih fun g hg => hfs g (mem_append_left _ hg)) (.inl htext) hfin

theorem payloads_after {session : Option Nat} {fs : List WsFrame} {o : Option (List Bytes)}
    (h : st.submitted =
      (Assembly.after ⟨session, none, []⟩ (fs.map fun f => [f.payload]) o).submitted) :
    st.payloads = fs.map WsFrame.payload := by
  rw [State.payloads, h, Assembly.after, nil_append, map_map, map_map]
  apply map_congr_left
  intro f _
  exact flatten_singleton

theorem Follows.payloads_of_text {frames : List (Bytes × WsFrame)}
    (haccepted : ∀ m ∈ frames, mcpWsParseFrame m.1 = .item m.2 m.1.length)
    (htext : ∀ m ∈ frames, m.2.opcode = .text) {session : Option Nat}
    (h : Follows ⟨session, none, []⟩ (frames.map Prod.fst).flatten st) :
    st.payloads = ((frames.map Prod.snd).takeWhile WsFrame.fin).map WsFrame.payload := by
  have htext' : ∀ f ∈ frames.map Prod.snd, f.opcode = .text := by
    intro f hf
    obtain ⟨m, hm, rfl⟩ := mem_map.mp hf
    exact htext m hm
  have hsplit : frames.map Prod.snd = (frames.map Prod.snd).takeWhile WsFrame.fin ++
      (frames.map Prod.snd).dropWhile WsFrame.fin := takeWhile_append_dropWhile.symm
  have hwhole : Legal ((frames.map Prod.snd).takeWhile WsFrame.fin)
      (((frames.map Prod.snd).takeWhile WsFrame.fin).map fun f => [f.payload]) none :=
    legal_of_fin fun f hf => ⟨htext' f (( takeWhile_prefix _).subset hf), mem_takeWhile_imp hf⟩
  rcases hrest : (frames.map Prod.snd).dropWhile WsFrame.fin with _ | ⟨f, after⟩
  · rw [hrest, append_nil] at hsplit
    rw [← hsplit] at hwhole ⊢
    exact payloads_after (h.of_legal haccepted rfl hwhole).2
  -- the first frame without the bit leaves a message open, and the next one is an error
  have hfin : f.fin = false := by
    have hhead := head?_dropWhile_not WsFrame.fin (frames.map Prod.snd)
    rwa [hrest] at hhead
  have hdata : ∀ g ∈ f :: after, IsData g := by
    intro g hg
    refine .inl (htext' g ?_)
    rw [hsplit, hrest]
    exact mem_append_right _ hg
  have hopen := hwhole.first (hdata f mem_cons_self) hfin
  rw [hrest] at hsplit
  cases after with
  | nil =>
    rw [← hsplit] at hopen
    exact payloads_after (h.of_legal haccepted rfl hopen).2
  | cons g after =>
    rw [append_cons] at hsplit
    exact payloads_after (h.of_ends haccepted rfl hsplit hopen
      (.nested (hdata g (mem_cons_of_mem f mem_cons_self)))).2

/-- A connection whose request for an upgrade is refused: it is closed, or it holds all bytes and
waits. -/
structure Refused (cfg : Config) (seen : Bytes) (st : State) : Prop where
  submitted : st.submitted = []
  waits : st.conn.detached = true ∨
    (st.cfg = cfg ∧ st.conn.type = .httpInit ∧ st.conn.httpInFlight = false ∧ st.tasks = [] ∧
      st.conn.readBuf = seen)

section

variable {cfg : Config} {q : RequestText}

theorem refused_processAndSlide (hq : q.WellFormed) (hwants : wantsUpgrade q.request = true)
    (hrefused : ¬UpgradeAccepted cfg q.request) (hsubmitted : st.submitted = [])
    (hcfg : st.cfg = cfg) (htype : st.conn.type = .httpInit)
    (hflight : st.conn.httpInFlight = false) (htasks : st.tasks = [])
    (hbuf : st.conn.readBuf = seen) (hstream : seen ++ later = q.bytes ++ behind) :
    Refused cfg seen st.processAndSlide := by
  subst hbuf
  rcases RequestText.part_or_whole hstream with ⟨rest, hrest, hne⟩ | ⟨rest, hrest, -⟩
  · rw [State.processAndSlide_of_wait (RequestText.scanRequest_part hq hrest hne) hflight]
    exact ⟨hsubmitted, .inr ⟨hcfg, htype, hflight, htasks, rfl⟩⟩
  have hscan := RequestText.scanRequest_bytes hq rest
  rw [← hrest] at hscan
  obtain ⟨code, msg, herror⟩ := upgradeBranch_eq_error hrefused
  have hbranch : requestBranch st.cfg st.shared q.request
      (st.conn.readBuf.drop q.head.length) = .error code msg := by
    rw [requestBranch, if_pos hwants, hcfg, herror]
  rw [State.processAndSlide_of_error hscan hbranch hflight]
  exact ⟨hsubmitted, .inr ⟨hcfg, htype, hflight, htasks, rfl⟩⟩

variable [Libc]

theorem Refused.step (hq : q.WellFormed) (hwants : wantsUpgrade q.request = true)
    (hrefused : ¬UpgradeAccepted cfg q.request) (h : Refused cfg seen st) {ev : Event W}
    (hstream : seen ++ ev.bytes ++ later = q.bytes ++ behind) :
    Refused cfg (seen ++ ev.bytes) (st.step ev) := by
  by_cases hopen : st.conn.detached = true
  · obtain ⟨hdetached, hsubmitted, -⟩ := State.step_of_detached hopen ev
    exact ⟨hsubmitted.trans h.submitted, .inl hdetached⟩
  obtain ⟨hcfg, htype, hflight, htasks, hbuf⟩ := h.waits.resolve_left hopen
  cases ev with
  | fail =>
    rw [State.step, if_neg hopen]
    exact ⟨h.submitted, .inl rfl⟩
  | others shared =>
    rw [show (Event.others shared : Event W).bytes = [] from rfl, append_nil]
    exact ⟨h.submitted, .inr ⟨hcfg, htype, hflight, htasks, hbuf⟩⟩
  | drain =>
    obtain ⟨w, o, c, heq, -⟩ := State.foldl_drainItem st.resp st.conn
    rw [show (Event.drain : Event W).bytes = [] from rfl, append_nil, State.step,
      State.drainResponses, heq]
    exact ⟨h.submitted, .inr ⟨hcfg, htype, hflight, htasks, hbuf⟩⟩
  | complete i srv s =>
    rw [show (Event.complete i srv s).bytes = [] from rfl, append_nil, State.step,
      State.onComplete, htasks]
    exact h
  | read chunk =>
    rw [State.step, if_neg hopen]
    by_cases hroom : State.growRead st.conn = none
    · rw [State.onRead, hroom]
      exact ⟨h.submitted, .inl rfl⟩
    obtain ⟨cap, hread⟩ := State.onRead_of_httpInit htype hroom chunk
    rw [hread, hflight, if_neg Bool.false_ne_true]
    exact refused_processAndSlide hq hwants hrefused h.submitted hcfg htype hflight htasks
      (congrArg (· ++ chunk) hbuf) hstream
  | write n =>
    rw [show (Event.write n : Event W).bytes = [] from rfl, append_nil] at hstream ⊢
    rw [State.step, if_neg hopen, State.onWrite]
    split
    · exact h
    split
    · exact ⟨h.submitted, .inr ⟨hcfg, htype, hflight, htasks, hbuf⟩⟩
    -- the answer is out: the connection is closed, or the request is answered again
    dsimp only
    split
    · exact ⟨h.submitted, .inl rfl⟩
    rw [State.handlePipelinedHttp]
    split
    · exact ⟨h.submitted, .inr ⟨hcfg, htype, rfl, htasks, hbuf⟩⟩
    exact refused_processAndSlide hq hwants hrefused h.submitted hcfg htype rfl htasks hbuf hstream

theorem refused_exec (hq : q.WellFormed) (hwants : wantsUpgrade q.request = true)
    (hrefused : ¬UpgradeAccepted cfg q.request) {evs : List (Event W)} (h : Refused cfg seen st)
    (hstream : seen ++ (evs.flatMap Event.bytes ++ later) = q.bytes ++ behind) :
    (exec State.machine st evs).submitted = [] := by
  induction evs generalizing seen st with
  | nil => exact h.submitted
  | cons ev evs ih =>
    rw [flatMap_cons, append_assoc, ← append_assoc] at hstream
    exact ih (h.step hq hwants hrefused hstream) hstream

end

theorem flatten_reads (evs : List (Event W)) : (reads evs).flatten = evs.flatMap Event.bytes := by
  induction evs with
  | nil => rfl
  | cons ev evs ih =>
    rw [flatMap_cons, ← ih]
    cases ev <;> rfl

section

variable [Libc]

/-- A run in which a request for an upgrade arrives, and frames behind it. -/
structure UpgradeRun (cfg : Config) (shared : Shared) (q : RequestText)
    (frames : List (Bytes × WsFrame)) (evs : List (Event W)) : Prop where
  brings : Brings evs (q.bytes ++ (frames.map Prod.fst).flatten)
  room : Admissible State.machine HasRoom (State.accepted cfg shared) evs

namespace UpgradeRun

variable {cfg : Config} {shared : Shared} {q : RequestText} {frames : List (Bytes × WsFrame)}
  {evs : List (Event W)} (h : UpgradeRun cfg shared q frames evs) (hq : q.WellFormed)
  (hwants : wantsUpgrade q.request = true)

include h hq hwants

theorem payloads_of_refused (hrefused : ¬UpgradeAccepted cfg q.request) :
    (exec State.machine (State.accepted cfg shared) evs).payloads = [] := by
  have hstart : Refused cfg [] (State.accepted cfg shared) := ⟨rfl, .inr ⟨rfl, rfl, rfl, rfl, rfl⟩⟩
  have hstream : [] ++ (evs.flatMap Event.bytes ++ []) =
      q.bytes ++ (frames.map Prod.fst).flatten := by
    rw [append_nil, nil_append, ← flatten_reads]
    exact h.brings.stream
  rw [State.payloads, refused_exec hq hwants hrefused hstart hstream, map_nil]

variable (haccepted : UpgradeAccepted cfg q.request)

include haccepted

theorem stage : Stage cfg q (reads evs)
    (exec State.machine (State.accepted cfg shared) evs) :=
  stage_exec hq hwants haccepted shared h.brings.noFail h.room (by
    rw [append_nil]
    exact h.brings.stream)

/-- All messages are submitted if the request was complete before the last read, and none if not. -/
theorem payloads_eq (hframes : ∀ m ∈ frames, mcpWsParseFrame m.1 = .item m.2 m.1.length)
    (htext : ∀ m ∈ frames, m.2.opcode = .text) :
    (exec State.machine (State.accepted cfg shared) evs).payloads =
      if Hung q (reads evs) then []
      else ((frames.map Prod.snd).takeWhile WsFrame.fin).map WsFrame.payload := by
  have hstage := h.stage hq hwants haccepted
  have hlong : ¬(q.bytes ++ (frames.map Prod.fst).flatten).length < q.bytes.length := by
    rw [length_append]
    omega
  rw [Stage, h.brings.stream, if_neg hlong, drop_left] at hstage
  split at hstage
  next hhung =>
    obtain ⟨-, -, session, hassembly⟩ := hstage
    have hsubmitted : (exec State.machine (State.accepted cfg shared) evs).submitted = [] :=
      congrArg Assembly.submitted hassembly
    rw [if_pos hhung, State.payloads, hsubmitted, map_nil]
  next hhung =>
    obtain ⟨session, hfollows⟩ := hstage
    rw [if_neg hhung]
    exact hfollows.payloads_of_text hframes htext

end UpgradeRun

/-- Two runs that receive the same request for an upgrade and the same text frames submit the same
messages if and only if the upgrade is refused, or no frame completes a message, or the request is
complete before the last read in both of them or in neither. -/
theorem payloads_eq_iff {cfg : Config} {shared₁ shared₂ : Shared} {q : RequestText}
    (hq : q.WellFormed) (hwants : wantsUpgrade q.request = true) {frames : List (Bytes × WsFrame)}
    (hframes : ∀ m ∈ frames, mcpWsParseFrame m.1 = .item m.2 m.1.length)
    (htext : ∀ m ∈ frames, m.2.opcode = .text) {evs₁ evs₂ : List (Event W)}
    (h₁ : UpgradeRun cfg shared₁ q frames evs₁) (h₂ : UpgradeRun cfg shared₂ q frames evs₂) :
    (exec State.machine (State.accepted cfg shared₁) evs₁).payloads =
        (exec State.machine (State.accepted cfg shared₂) evs₂).payloads ↔
      ¬UpgradeAccepted cfg q.request ∨ (frames.map Prod.snd).takeWhile WsFrame.fin = [] ∨
        (Hung q (reads evs₁) ↔ Hung q (reads evs₂)) := by
  by_cases haccepted : UpgradeAccepted cfg q.request
  · rw [h₁.payloads_eq hq hwants haccepted hframes htext,
      h₂.payloads_eq hq hwants haccepted hframes htext]
    by_cases hung₁ : Hung q (reads evs₁) <;> by_cases hung₂ : Hung q (reads evs₂) <;>
      simp [haccepted, hung₁, hung₂]
  · rw [h₁.payloads_of_refused hq hwants haccepted, h₂.payloads_of_refused hq hwants haccepted]
    exact iff_of_true rfl (.inl haccepted)

end

def upgradeText : RequestText where
  method := "GET"
  target := "/"
  fields := [⟨"Upgrade", "websocket"⟩, ⟨"Sec-WebSocket-Key", "k"⟩]
  body := []

def letterFrame : Bytes × WsFrame :=
  ([0x81, 0x01, 0x61], ⟨true, .text, false, [0, 0, 0, 0], [0x61]⟩)

def answering : List (Event Unit) := [.drain, .write 1000, .write 0]

def oneRead : List (Event Unit) := .read (upgradeText.bytes ++ letterFrame.1) :: answering

def twoReads : List (Event Unit) :=
  .read upgradeText.bytes :: answering ++ .read letterFrame.1 ::
    .complete 0 emptyServer readySession :: answering

def threeReads : List (Event Unit) :=
  [.read "GET ", .read (upgradeText.bytes.drop 4), .drain, .read letterFrame.1]

def afterEvents (evs : List (Event Unit)) : State :=
  @Machine.exec State (Event Unit) Unit (@State.machine Unit unitLibc)
    (State.accepted ⟨true, true⟩ ⟨[], 0, 0⟩) evs

/-- In one read the frame is never looked at, although nothing is left to do. -/
theorem payloads_oneRead_twoReads :
    (afterEvents oneRead).payloads = [] ∧ (afterEvents twoReads).payloads = [[0x61]] ∧
      (reads oneRead).flatten = (reads twoReads).flatten ∧
      ∀ st ∈ [afterEvents oneRead, afterEvents twoReads],
        st.resp = [] ∧ st.tasks = [] ∧ st.conn.writeBuf = none ∧ st.conn.detached = false := by
  decide +kernel

theorem wellFormed_upgradeText : upgradeText.WellFormed where
  method_ne_nil := by decide +kernel
  method := by decide +kernel
  target_ne_nil := by decide +kernel
  target := by decide +kernel
  fields := by
    simp only [upgradeText, forall_mem_cons, not_mem_nil, false_imp_iff, implies_true, and_true]
    exact ⟨⟨by decide +kernel, by decide +kernel, by decide +kernel, by decide +kernel⟩,
      ⟨by decide +kernel, by decide +kernel, by decide +kernel, by decide +kernel⟩⟩
  count := by decide
  length := by
    have hnone : ∀ f ∈ upgradeText.fields, f.isLength = false := by decide +kernel
    intro f hf hlength
    rw [hnone f hf] at hlength
    cases hlength
  announced := fun hne => absurd rfl hne
  small := by decide

theorem upgradeRun_of_room (evs : List (Event Unit)) (hfail : ∀ ev ∈ evs, ev ≠ .fail)
    (hnonempty : ∀ chunk ∈ reads evs, chunk ≠ [])
    (hstream : (reads evs).flatten = upgradeText.bytes ++ letterFrame.1)
    (hroom : @Machine.Admissible _ _ _ (@State.machine Unit unitLibc)
      (fun st _ => (State.growRead st.conn).isSome = true)
      (State.accepted ⟨true, true⟩ ⟨[], 0, 0⟩) evs) :
    @UpgradeRun Unit unitLibc ⟨true, true⟩ ⟨[], 0, 0⟩ upgradeText [letterFrame] evs := by
  refine @UpgradeRun.mk Unit unitLibc _ _ _ _ _ ⟨hfail, hnonempty, hstream⟩ (hroom.mono ?_)
  intro st ev hsome _ chunk _ hnone
  rw [hnone] at hsome
  cases hsome

theorem payloads_twoReads_threeReads :
    (afterEvents twoReads).payloads = (afterEvents threeReads).payloads := by
  have htwo := upgradeRun_of_room twoReads (by simp [twoReads, answering])
    (by decide +kernel) (by decide +kernel) (by decide +kernel)
  have hthree := upgradeRun_of_room threeReads (by simp [threeReads])
    (by decide +kernel) (by decide +kernel) (by decide +kernel)
  have hframes : ∀ m ∈ [letterFrame], mcpWsParseFrame m.1 = .item m.2 m.1.length := by
    intro m hm
    rw [mem_singleton.mp hm]
    rfl
  refine (@payloads_eq_iff Unit unitLibc _ _ _ _ wellFormed_upgradeText (by decide +kernel) _
    hframes (by decide) _ _ htwo hthree).mpr (.inr (.inr (iff_of_false ?_ ?_)))
  · decide +kernel
  · decide +kernel

end Mcpkit.Transport.Async
