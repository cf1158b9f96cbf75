import Mcpkit.Lib.Machine
import Mcpkit.Transport.AsyncServer

/-!
# Messages of a WebSocket connection

A message is one text or binary frame, or a first one and continuations; pings and pongs may stand
between them.  `Legal` says which messages a list of frames carries and which one it leaves
unfinished, and `Ends` which frame ends the connection then.

What the connection has submitted depends on the bytes alone: at every point of a run, buffer,
fragment and submitted messages are those of a receiver that has been given all bytes so far at
once.
-/

namespace Mcpkit.Transport.Async

open Json Protocol List Machine Incremental Prod
open Incremental (consumeAll feed steps settled Outcome)

variable {W : Type}

def IsData (f : WsFrame) : Prop := f.opcode = .text ∨ f.opcode = .binary

/-- The frames carry these messages, each given by its fragments, and the fragments so far of one
that is not finished. -/
inductive Legal : List WsFrame → List (List Bytes) → Option (List Bytes) → Prop where
  | nil : Legal [] [] none
  | control {fs ms o f} : Legal fs ms o → (f.opcode = .ping ∨ f.opcode = .pong) →
      Legal (fs ++ [f]) ms o
  | whole {fs ms f} : Legal fs ms none → IsData f → f.fin = true →
      Legal (fs ++ [f]) (ms ++ [[f.payload]]) none
  | first {fs ms f} : Legal fs ms none → IsData f → f.fin = false →
      Legal (fs ++ [f]) ms (some [f.payload])
  | next {fs ms ps f} : Legal fs ms (some ps) → f.opcode = .continuation → f.fin = false →
      (ps ++ [f.payload]).flatten.length ≤ maxBody →
      Legal (fs ++ [f]) ms (some (ps ++ [f.payload]))
  | last {fs ms ps f} : Legal fs ms (some ps) → f.opcode = .continuation → f.fin = true →
      (ps ++ [f.payload]).flatten.length ≤ maxBody →
      Legal (fs ++ [f]) (ms ++ [ps ++ [f.payload]]) none

/-- The frame ends the connection: a continuation without a message, a new message inside another, a
message that is too long, or a close frame. -/
inductive Ends : Option (List Bytes) → WsFrame → Prop where
  | orphan {f} : f.opcode = .continuation → Ends none f
  | nested {ps f} : IsData f → Ends (some ps) f
  | tooLong {ps f} : f.opcode = .continuation → maxBody < (ps ++ [f.payload]).flatten.length →
      Ends (some ps) f
  | close {o f} : f.opcode = .close → Ends o f

variable {o : Option (List Bytes)} {ms : List (List Bytes)} {f : WsFrame} {st : State}
  {frames : List (Bytes × WsFrame)}

theorem Legal.next_or_ends {fs : List WsFrame} (h : Legal fs ms o) (f : WsFrame) :
    (∃ ms' o', Legal (fs ++ [f]) ms' o') ∨ Ends o f := by
  have hdata : IsData f → (∃ ms' o', Legal (fs ++ [f]) ms' o') ∨ Ends o f := by
    intro hf
    cases o with
    | some ps => exact .inr (.nested hf)
    | none =>
      cases hfin : f.fin with
      | true => exact .inl ⟨_, _, .whole h hf hfin⟩
      | false => exact .inl ⟨_, _, .first h hf hfin⟩
  cases hop : f.opcode with
  | text => exact hdata (.inl hop)
  | binary => exact hdata (.inr hop)
  | ping => exact .inl ⟨_, _, .control h (.inl hop)⟩
  | pong => exact .inl ⟨_, _, .control h (.inr hop)⟩
  | close => exact .inr (.close hop)
  | continuation =>
    cases o with
    | none => exact .inr (.orphan hop)
    | some ps =>
      by_cases hle : (ps ++ [f.payload]).flatten.length ≤ maxBody
      · cases hfin : f.fin with
        | true => exact .inl ⟨_, _, .last h hop hfin hle⟩
        | false => exact .inl ⟨_, _, .next h hop hfin hle⟩
      · exact .inr (.tooLong hop (Nat.not_le.mp hle))

theorem legal_or_ends (fs : List WsFrame) :
    (∃ ms o, Legal fs ms o) ∨
      ∃ before f after ms o, fs = before ++ f :: after ∧ Legal before ms o ∧ Ends o f := by
  induction fs using List.reverseRecOn with
  | nil => exact .inl ⟨_, _, .nil⟩
  | append_singleton fs f ih =>
    rcases ih with ⟨ms, o, hlegal⟩ | ⟨before, g, after, ms, o, rfl, hlegal, hends⟩
    · rcases hlegal.next_or_ends f with hnext | hends
      · exact .inl hnext
      · exact .inr ⟨fs, f, [], ms, o, rfl, hlegal, hends⟩
    · exact .inr ⟨before, g, after ++ [f], ms, o, by simp, hlegal, hends⟩

/-- The part of a connection that frames change: the fragment, and the tasks submitted for the
session. -/
structure Assembly where
  session : Option Nat
  frag : Option Bytes
  submitted : List Task

def State.assembly (st : State) : Assembly := ⟨st.conn.session, st.conn.wsFragBuf, st.submitted⟩

namespace Assembly

def state (a : Assembly) : State :=
  { State.accepted ⟨true, true⟩ ⟨[], 0, 0⟩ with
    conn := { Conn.accepted with session := a.session, wsFragBuf := a.frag }
    submitted := a.submitted }

def step (a : Assembly) (f : WsFrame) : Assembly × Bool :=
  ((a.state.wsFrameStep f).1.assembly, (a.state.wsFrameStep f).2)

/-- The assembly once some messages have been submitted. -/
def after (a : Assembly) (ms : List (List Bytes)) (o : Option (List Bytes)) : Assembly where
  session := a.session
  frag := o.map List.flatten
  submitted := a.submitted ++ ms.map fun m => ⟨a.session, m.flatten, true, []⟩

end Assembly

theorem step_assembly (st : State) (f : WsFrame) :
    st.assembly.step f = ((st.wsFrameStep f).1.assembly, (st.wsFrameStep f).2) := by
  have hfrag : st.assembly.state.conn.wsFragBuf = st.conn.wsFragBuf := rfl
  rw [Assembly.step, State.wsFrameStep, State.wsFrameStep, hfrag]
  cases f.opcode with
  | ping | pong | close => rfl
  | text | binary => cases st.conn.wsFragBuf <;> cases f.fin <;> rfl
  | continuation =>
    cases st.conn.wsFragBuf with
    | none => rfl
    | some frag =>
      dsimp only
      split
      · rfl
      · cases f.fin <;> rfl

variable {a : Assembly}

theorem step_data (hdata : IsData f) (hfrag : a.frag = none) :
    a.step f =
      (if f.fin then a.after [[f.payload]] none else a.after [] (some [f.payload]), true) := by
  have hstate : a.state.conn.wsFragBuf = none := hfrag
  rcases hdata with hop | hop <;>
    rw [Assembly.step, State.wsFrameStep, hop, hstate] <;> cases f.fin <;>
      simp [Assembly.after, Assembly.state, State.assembly, State.submit, State.wsTask, hfrag]

theorem step_continuation (hop : f.opcode = .continuation) {ps : List Bytes}
    (hfrag : a.frag = some ps.flatten) (hle : (ps ++ [f.payload]).flatten.length ≤ maxBody) :
    a.step f = (if f.fin then a.after [ps ++ [f.payload]] none
      else a.after [] (some (ps ++ [f.payload])), true) := by
  have hstate : a.state.conn.wsFragBuf = some ps.flatten := hfrag
  have hlen : ¬maxBody < ps.flatten.length + f.payload.length := by
    rw [flatten_append, length_append, flatten_singleton] at hle
    exact Nat.not_lt.mpr hle
  rw [Assembly.step, State.wsFrameStep, hop, hstate]
  dsimp only
  rw [if_neg hlen]
  cases f.fin <;>
    simp [Assembly.after, Assembly.state, State.assembly, State.submit, State.wsTask]

theorem after_after (ms ms' : List (List Bytes)) (o o' : Option (List Bytes)) :
    (a.after ms o).after ms' o' = a.after (ms ++ ms') o' := by
  simp [Assembly.after]

theorem steps_of_legal (hfrag : a.frag = none) {fs : List WsFrame} (h : Legal fs ms o) :
    steps Assembly.step a fs = (a.after ms o, true) := by
  -- one frame at the end of the list, from the assembly that the others leave
  have hsnoc : ∀ {fs f a' a''}, steps Assembly.step a fs = (a', true) → a'.step f = (a'', true) →
      steps Assembly.step a (fs ++ [f]) = (a'', true) := by
    intro fs f a' a'' hfs hf
    rw [steps_append_of_go hfs, steps, hf]
    rfl
  induction h with
  | nil => rw [steps, Assembly.after, Option.map_none, ← hfrag, map_nil, append_nil]
  | @control fs ms o f _ hcontrol ih =>
    refine hsnoc ih ?_
    rcases hcontrol with hop | hop <;> rw [Assembly.step, State.wsFrameStep, hop] <;> rfl
  | @whole fs ms f _ hdata hfin ih =>
    refine hsnoc ih ?_
    rw [step_data hdata rfl, if_pos hfin, after_after]
  | @first fs ms f _ hdata hfin ih =>
    refine hsnoc ih ?_
    rw [step_data hdata rfl, if_neg (by simp [hfin]), after_after, append_nil]
  | @next fs ms ps f _ hop hfin hle ih =>
    refine hsnoc ih ?_
    rw [step_continuation hop rfl hle, if_neg (by simp [hfin]), after_after, append_nil]
  | @last fs ms ps f _ hop hfin hle ih =>
    refine hsnoc ih ?_
    rw [step_continuation hop rfl hle, if_pos hfin, after_after]

theorem step_of_ends (hfrag : a.frag = o.map List.flatten) (h : Ends o f) :
    ∃ a', a.step f = (a', false) ∧ a'.submitted = a.submitted := by
  have hstate : a.state.conn.wsFragBuf = o.map List.flatten := hfrag
  cases h with
  | orphan hop =>
    rw [Assembly.step, State.wsFrameStep, hop, hstate]
    exact ⟨_, rfl, rfl⟩
  | nested hdata =>
    rcases hdata with hop | hop <;> rw [Assembly.step, State.wsFrameStep, hop, hstate] <;>
      exact ⟨_, rfl, rfl⟩
  | @tooLong ps f hop hlong =>
    rw [flatten_append, length_append, flatten_singleton] at hlong
    rw [Assembly.step, State.wsFrameStep, hop, hstate]
    dsimp only [Option.map_some]
    rw [if_pos hlong]
    exact ⟨_, rfl, rfl⟩
  | close hop =>
    rw [Assembly.step, State.wsFrameStep, hop]
    exact ⟨_, rfl, rfl⟩

/-- The connection is upgraded and open, and no answer in the queue closes it. -/
structure OpenWs (st : State) : Prop where
  type : st.conn.type = .ws
  closing : st.conn.closing = false
  detached : st.conn.detached = false
  keeps : ∀ item ∈ st.resp, item.closeAfter = false

theorem OpenWs.enqueueResponse (h : OpenWs st) (data : Bytes) :
    OpenWs (st.enqueueResponse data false) where
  type := h.type
  closing := h.closing
  detached := h.detached
  keeps := by
    intro item hitem
    rcases mem_append.mp hitem with hold | hnew
    · exact h.keeps item hold
    · rw [mem_singleton.mp hnew]

theorem OpenWs.wsFrameStep (h : OpenWs st) (f : WsFrame) : OpenWs (st.wsFrameStep f).1 := by
  have hsame : ∀ {st' : State}, st'.conn.type = st.conn.type → st'.conn.closing = st.conn.closing →
      st'.conn.detached = st.conn.detached → st'.resp = st.resp → OpenWs st' :=
    fun htype hclosing hdetached hresp => ⟨htype.trans h.type, hclosing.trans h.closing,
      hdetached.trans h.detached, hresp ▸ h.keeps⟩
  rw [State.wsFrameStep]
  cases f.opcode with
  | ping => exact h.enqueueResponse _
  | pong | close => exact h
  | text | binary => cases st.conn.wsFragBuf <;> cases f.fin <;> exact hsame rfl rfl rfl rfl
  | continuation =>
    cases st.conn.wsFragBuf with
    | none => exact h
    | some frag =>
      dsimp only
      split
      · exact h
      · cases f.fin <;> exact hsame rfl rfl rfl rfl

/-- The connection stands where a receiver stands that has seen these bytes. -/
def Follows (a : Assembly) (seen : Bytes) (st : State) : Prop :=
  match consumeAll mcpWsParseFrame Assembly.step a seen with
  | .running a' rest => OpenWs st ∧ st.conn.readBuf = rest ∧ st.assembly = a'
  | .stopped a' => st.conn.detached = true ∧ st.submitted = a'.submitted

theorem consumeAll_frames (haccepted : ∀ m ∈ frames, mcpWsParseFrame m.1 = .item m.2 m.1.length)
    (a : Assembly) :
    consumeAll mcpWsParseFrame Assembly.step a (frames.map fst).flatten =
      settled (steps Assembly.step a (frames.map snd)) :=
  consumeAll_stream stable_mcpWsParseFrame rfl a frames haccepted

theorem OpenWs.onRead (h : OpenWs st) (hroom : State.growRead st.conn ≠ none) (chunk : Bytes) :
    Follows st.assembly (st.conn.readBuf ++ chunk) (st.onRead chunk) := by
  obtain ⟨cap, hgrow⟩ := State.exists_growRead hroom
  have hread : st.onRead chunk = State.readFrames
      { st with conn := { st.conn with readCap := cap, readBuf := st.conn.readBuf ++ chunk } } := by
    rw [State.onRead, hgrow]
    dsimp only
    rw [h.type]
  generalize hst₁ : ({ st with
    conn := { st.conn with readCap := cap, readBuf := st.conn.readBuf ++ chunk } } : State) = st₁
    at hread
  have hopen : OpenWs st₁ := hst₁ ▸ ⟨h.type, h.closing, h.detached, h.keeps⟩
  have hbuf : st₁.conn.readBuf = st.conn.readBuf ++ chunk := by rw [← hst₁]
  have hassembly : st₁.assembly = st.assembly := by rw [← hst₁]; rfl
  rw [hread, State.readFrames, Follows, ← hbuf, ← hassembly]
  have hmap : consumeAll mcpWsParseFrame Assembly.step st₁.assembly st₁.conn.readBuf =
      (consumeAll mcpWsParseFrame State.wsFrameStep st₁ st₁.conn.readBuf).map State.assembly :=
    consumeAll_map step_assembly st₁ _
  have hinv : OpenWs (consumeAll mcpWsParseFrame State.wsFrameStep st₁ st₁.conn.readBuf).state :=
    consumeAll_invariant (fun st f hst => hst.wsFrameStep f) hopen _
  rw [hmap]
  cases hout : consumeAll mcpWsParseFrame State.wsFrameStep st₁ st₁.conn.readBuf with
  | running st₂ rest₂ =>
    rw [hout] at hinv
    exact ⟨⟨hinv.type, hinv.closing, hinv.detached, hinv.keeps⟩, rfl, rfl⟩
  | stopped st₂ => exact ⟨rfl, rfl⟩

variable {seen : Bytes}

theorem Follows.hasRoom (haccepted : ∀ m ∈ frames, mcpWsParseFrame m.1 = .item m.2 m.1.length)
    (hsmall : ∀ m ∈ frames, m.2.payload.length ≤ maxBody) {later : Bytes} (h : Follows a seen st)
    (hstream : seen ++ later = (frames.map fst).flatten) (ev : Event W) : HasRoom st ev := by
  have hbound : ∀ m ∈ frames, m.1.length ≤ maxBody + 14 := by
    intro m hm
    have hsize := length_le_of_mcpWsParseFrame (haccepted m hm)
    have hpayload := hsmall m hm
    omega
  intro hopen chunk _
  rw [Follows] at h
  cases hseen : consumeAll mcpWsParseFrame Assembly.step a seen with
  | stopped a' =>
    rw [hseen] at h
    rw [h.1] at hopen
    cases hopen
  | running a' rest =>
    rw [hseen] at h
    have hle := length_rest_le stable_mcpWsParseFrame rfl haccepted hbound hstream hseen
    apply State.growRead_ne_none
    rw [maxBody] at hle
    rw [h.2.1, maxReadCap]
    omega

theorem Follows.of_legal (haccepted : ∀ m ∈ frames, mcpWsParseFrame m.1 = .item m.2 m.1.length)
    (hfrag : a.frag = none) (h : Follows a (frames.map fst).flatten st)
    (hlegal : Legal (frames.map snd) ms o) :
    OpenWs st ∧ st.submitted = (a.after ms o).submitted := by
  rw [Follows, consumeAll_frames haccepted, steps_of_legal hfrag hlegal] at h
  obtain ⟨hopen, -, hassembly⟩ := h
  exact ⟨hopen, congrArg Assembly.submitted hassembly⟩

theorem Follows.of_ends (haccepted : ∀ m ∈ frames, mcpWsParseFrame m.1 = .item m.2 m.1.length)
    (hfrag : a.frag = none) (h : Follows a (frames.map fst).flatten st)
    {before after : List WsFrame} (hframes : frames.map snd = before ++ f :: after)
    (hlegal : Legal before ms o) (hends : Ends o f) :
    st.conn.detached = true ∧ st.submitted = (a.after ms o).submitted := by
  obtain ⟨a', hstep, hsubmitted⟩ := step_of_ends (a := a.after ms o) rfl hends
  rw [Follows, consumeAll_frames haccepted, hframes,
    steps_append_of_go (steps_of_legal hfrag hlegal), steps_cons_of_stop hstep] at h
  exact ⟨h.1, h.2.trans hsubmitted⟩

section

variable [Libc]

theorem OpenWs.step (h : OpenWs st) {ev : Event W} (hfail : ev ≠ .fail)
    (hread : ∀ chunk, ev ≠ .read chunk) :
    OpenWs (st.step ev) ∧ (st.step ev).conn.readBuf = st.conn.readBuf ∧
      (st.step ev).assembly = st.assembly := by
  cases ev with
  | read chunk => exact absurd rfl (hread chunk)
  | fail => exact absurd rfl hfail
  | others shared => exact ⟨⟨h.type, h.closing, h.detached, h.keeps⟩, rfl, rfl⟩
  | drain =>
    obtain ⟨w, o, c, heq, hclosing⟩ := State.foldl_drainItem st.resp st.conn
    rw [State.step, State.drainResponses, heq, hclosing h.keeps]
    refine ⟨⟨h.type, h.closing, h.detached, ?_⟩, rfl, rfl⟩
    exact fun item hitem => absurd hitem not_mem_nil
  | complete i srv s =>
    rw [State.step, State.onComplete]
    split
    · exact ⟨h, rfl, rfl⟩
    dsimp only
    split
    · exact ⟨⟨h.type, h.closing, h.detached, h.keeps⟩, rfl, rfl⟩
    next answer _ =>
      have h' : OpenWs { st with tasks := st.tasks.eraseIdx i } :=
        ⟨h.type, h.closing, h.detached, h.keeps⟩
      exact ⟨h'.enqueueResponse answer, rfl, rfl⟩
  | write n =>
    rw [State.step, h.detached, if_neg Bool.false_ne_true, State.onWrite]
    split
    · exact ⟨h, rfl, rfl⟩
    split
    · exact ⟨⟨h.type, h.closing, h.detached, h.keeps⟩, rfl, rfl⟩
    -- the answer is out; there is no request to go on with
    have htype : st.conn.type ≠ .httpInit := by
      rw [h.type]
      decide
    dsimp only
    rw [h.closing, if_neg Bool.false_ne_true, State.handlePipelinedHttp_of_ne]
    · exact ⟨⟨h.type, rfl, h.detached, h.keeps⟩, rfl, rfl⟩
    · exact htype

theorem Follows.step (h : Follows a seen st) {ev : Event W} (hfail : ev ≠ .fail)
    (hroom : HasRoom st ev) : Follows a (seen ++ ev.bytes) (st.step ev) := by
  rw [Follows] at h ⊢
  rw [← feed_consumeAll stable_mcpWsParseFrame]
  cases hseen : consumeAll mcpWsParseFrame Assembly.step a seen with
  | stopped a' =>
    rw [hseen] at h
    obtain ⟨hdetached, hsubmitted, -⟩ := State.step_of_detached h.1 ev
    exact ⟨hdetached, hsubmitted.trans h.2⟩
  | running a' rest =>
    rw [hseen] at h
    obtain ⟨hopen, rfl, rfl⟩ := h
    by_cases hread : ∀ chunk, ev ≠ .read chunk
    · obtain ⟨hopen', hrest', hassembly'⟩ := hopen.step hfail hread
      rw [Event.bytes_eq_nil hread, ← hseen, feed_consumeAll stable_mcpWsParseFrame, append_nil,
        hseen]
      exact ⟨hopen', hrest', hassembly'⟩
    obtain ⟨chunk, rfl⟩ := not_forall_not.mp hread
    have hfollows := hopen.onRead (hroom hopen.detached chunk rfl) chunk
    rw [Follows] at hfollows
    rwa [State.step, hopen.detached, if_neg Bool.false_ne_true]

theorem Follows.exec (haccepted : ∀ m ∈ frames, mcpWsParseFrame m.1 = .item m.2 m.1.length)
    (hsmall : ∀ m ∈ frames, m.2.payload.length ≤ maxBody) {evs : List (Event W)}
    (hfail : ∀ ev ∈ evs, ev ≠ .fail) {later : Bytes} (h : Follows a seen st)
    (hstream : seen ++ (evs.flatMap Event.bytes ++ later) = (frames.map fst).flatten) :
    Follows a (seen ++ evs.flatMap Event.bytes) (exec State.machine st evs) := by
  induction evs generalizing seen st with
  | nil =>
    rwa [flatMap_nil, append_nil]
  | cons ev evs ih =>
    have hnext := h.step (hfail ev mem_cons_self) (h.hasRoom haccepted hsmall hstream ev)
    rw [flatMap_cons, append_assoc, ← append_assoc] at hstream
    rw [flatMap_cons, ← append_assoc]
    exact ih (fun ev' hev' => hfail ev' (mem_cons_of_mem ev hev')) hnext hstream

/-- However its frames are cut into reads, and whatever happens between them, an upgraded connection
submits the messages that the frames carry, once and in order.  A frame that ends the connection
closes it, and nothing is submitted from there on. -/
theorem exec_reassembles {st : State} (hopen : OpenWs st) (hbuf : st.conn.readBuf = [])
    (hfrag : st.conn.wsFragBuf = none) {frames : List (Bytes × WsFrame)}
    (haccepted : ∀ m ∈ frames, mcpWsParseFrame m.1 = .item m.2 m.1.length)
    (hsmall : ∀ m ∈ frames, m.2.payload.length ≤ maxBody) {evs : List (Event W)}
    (hfail : ∀ ev ∈ evs, ev ≠ .fail)
    (hstream : evs.flatMap Event.bytes = (frames.map fst).flatten) :
    (∀ ms o, Legal (frames.map snd) ms o →
      (exec State.machine st evs).submitted =
          st.submitted ++ ms.map (fun m => st.wsTask m.flatten) ∧
        (exec State.machine st evs).conn.detached = false) ∧
    ∀ before f after ms o, frames.map snd = before ++ f :: after → Legal before ms o →
      Ends o f →
      (exec State.machine st evs).submitted =
          st.submitted ++ ms.map (fun m => st.wsTask m.flatten) ∧
        (exec State.machine st evs).conn.detached = true := by
  have hstart : Follows st.assembly [] st := by
    rw [Follows, consumeAll_of_more rfl]
    exact ⟨hopen, hbuf, rfl⟩
  have hrun := hstart.exec haccepted hsmall hfail
    (show [] ++ (evs.flatMap Event.bytes ++ []) = _ by rw [append_nil]; exact hstream)
  rw [nil_append, hstream] at hrun
  refine ⟨?_, ?_⟩
  · intro ms o hlegal
    obtain ⟨hopen', hsubmitted⟩ := hrun.of_legal haccepted hfrag hlegal
    exact ⟨hsubmitted, hopen'.detached⟩
  · intro before f after ms o hframes hlegal hends
    obtain ⟨hdetached, hsubmitted⟩ := hrun.of_ends haccepted hfrag hframes hlegal hends
    exact ⟨hsubmitted, hdetached⟩

end

def upgradedState : State :=
  { State.accepted ⟨true, true⟩ ⟨[], 0, 1⟩ with
    conn := { Conn.accepted with type := .ws, session := some 0 } }

def fragmentFrames : List (Bytes × WsFrame) :=
  [([0x01, 0x01, 0x61], ⟨false, .text, false, [0, 0, 0, 0], [0x61]⟩),
    ([0x89, 0x00], ⟨true, .ping, false, [0, 0, 0, 0], []⟩),
    ([0x80, 0x01, 0x62], ⟨true, .continuation, false, [0, 0, 0, 0], [0x62]⟩)]

/-- Its bytes arrive in two reads, with the pong written in between. -/
def fragmentEvents : List (Event Unit) :=
  [.read [0x01, 0x01, 0x61, 0x89], .drain, .read [0x00, 0x80, 0x01, 0x62], .drain, .write 2]

theorem legal_fragmentFrames :
    Legal (fragmentFrames.map snd) [[[0x61], [0x62]]] none := by
  have hfirst := Legal.first .nil (f := ⟨false, .text, false, [0, 0, 0, 0], [0x61]⟩) (.inl rfl) rfl
  have hping := hfirst.control (f := ⟨true, .ping, false, [0, 0, 0, 0], []⟩) (.inl rfl)
  exact hping.last (f := ⟨true, .continuation, false, [0, 0, 0, 0], [0x62]⟩) rfl rfl (by decide)

theorem exec_fragmentEvents :
    (@Machine.exec State (Event Unit) Unit (@State.machine Unit unitLibc) upgradedState
      fragmentEvents).submitted = [⟨some 0, [0x61, 0x62], true, []⟩] := by
  have hopen : OpenWs upgradedState := ⟨rfl, rfl, rfl, nofun⟩
  have haccepted : ∀ m ∈ fragmentFrames, mcpWsParseFrame m.1 = .item m.2 m.1.length := by
    simp only [fragmentFrames, forall_mem_cons, not_mem_nil, false_imp_iff, implies_true, and_true]
    exact ⟨rfl, rfl, rfl⟩
  have hsmall : ∀ m ∈ fragmentFrames, m.2.payload.length ≤ maxBody := by decide
  have hfail : ∀ ev ∈ fragmentEvents, ev ≠ Event.fail := by simp [fragmentEvents]
  exact ((@exec_reassembles Unit unitLibc _ hopen rfl rfl _ haccepted hsmall _ hfail rfl).1 _ _
    legal_fragmentFrames).1

end Mcpkit.Transport.Async
